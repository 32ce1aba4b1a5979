import Mathlib

set_option relaxedAutoImplicit false
set_option autoImplicit false

/-!
# Edit distance

A list is edited by inserting, deleting or replacing one of its members. The distance of two lists
is the least number of edits that lead from one to the other. It is computed row by row: a row has
the distances of a prefix of the first list from all prefixes of the second one, and only the row
before is needed for the next one.

## Main definitions

* `Lists.Edit`, `Lists.Edits` — one edit, and a number of edits one after the other.
* `Lists.editDistance` — the distance by recursion on both lists.
* `Lists.nextRow`, `Lists.lastRow` — the next row, and the last one.

## Main results

* `Lists.isLeast_editDistance` — the distance is the least number of edits.
* `Lists.lastRow_eq` — the last row has the distances from the whole first list.
-/

namespace Lists

variable {A : Type*}

/-! ## Edits -/

/-- **One edit**, at the head of a list or somewhere behind it. -/
inductive Edit : List A → List A → Prop
  | insert (a : A) (as : List A) : Edit as (a :: as)
  | delete (a : A) (as : List A) : Edit (a :: as) as
  | replace (a b : A) (as : List A) : Edit (a :: as) (b :: as)
  | behind (a : A) {as bs : List A} : Edit as bs → Edit (a :: as) (a :: bs)

/-- A number of edits, one after the other. -/
inductive Edits : ℕ → List A → List A → Prop
  | refl (as : List A) : Edits 0 as as
  | step {n : ℕ} {as bs cs : List A} : Edit as bs → Edits n bs cs → Edits (n + 1) as cs

namespace Edits

variable {n m : ℕ} {as bs cs : List A}

/-- Edits, and further ones. -/
theorem trans (h : Edits n as bs) (h' : Edits m bs cs) : Edits (n + m) as cs := by
  induction h with
  | refl _ => rwa [Nat.zero_add]
  | step hedit _ ih =>
    rw [Nat.succ_add]
    exact .step hedit (ih h')

/-- The edits of what stands behind a member. -/
theorem behind (a : A) (h : Edits n as bs) : Edits n (a :: as) (a :: bs) := by
  induction h with
  | refl as => exact .refl (a :: as)
  | step hedit _ ih => exact .step (hedit.behind a) ih

/-- All members are inserted. -/
theorem insertAll (as : List A) : Edits as.length [] as := by
  induction as with
  | nil => exact .refl []
  | cons a as ih => exact ih.trans (.step (.insert a as) (.refl _))

/-- All members are deleted. -/
theorem deleteAll (as : List A) : Edits as.length as [] := by
  induction as with
  | nil => exact .refl []
  | cons a as ih => exact .step (.delete a as) ih

end Edits

/-- An edit of what stands in front of other members. -/
theorem Edit.append {as bs : List A} (h : Edit as bs) (cs : List A) :
    Edit (as ++ cs) (bs ++ cs) := by
  induction h with
  | insert a as => exact .insert a (as ++ cs)
  | delete a as => exact .delete a (as ++ cs)
  | replace a b as => exact .replace a b (as ++ cs)
  | behind a _ ih => exact ih.behind a

/-- An edit behind some members. -/
theorem Edit.append_left (cs : List A) {as bs : List A} (h : Edit as bs) :
    Edit (cs ++ as) (cs ++ bs) := by
  induction cs with
  | nil => exact h
  | cons c cs ih => exact ih.behind c

/-- An edit of the list from its end. -/
theorem Edit.reverse {as bs : List A} (h : Edit as bs) : Edit as.reverse bs.reverse := by
  induction h with
  | insert a as =>
    have hlast := Edit.append_left as.reverse (.insert a [])
    rwa [List.append_nil, ← List.reverse_cons] at hlast
  | delete a as =>
    have hlast := Edit.append_left as.reverse (.delete a [])
    rwa [List.append_nil, ← List.reverse_cons] at hlast
  | replace a b as =>
    have hlast := Edit.append_left as.reverse (.replace a b [])
    rwa [← List.reverse_cons, ← List.reverse_cons] at hlast
  | behind a _ ih =>
    rw [List.reverse_cons, List.reverse_cons]
    exact ih.append [a]

/-- The edits of the list from its end. -/
theorem Edits.reverse {n : ℕ} {as bs : List A} (h : Edits n as bs) :
    Edits n as.reverse bs.reverse := by
  induction h with
  | refl as => exact .refl as.reverse
  | step hedit _ ih => exact .step hedit.reverse ih

/-! ## Distance -/

section Distance

variable [DecidableEq A]

/-- **The distance**: the heads are deleted, inserted, or put for each other. -/
def editDistance : List A → List A → ℕ
  | [], bs => bs.length
  | a :: as, [] => (a :: as).length
  | a :: as, b :: bs =>
    min (editDistance as (b :: bs) + 1)
      (min (editDistance (a :: as) bs + 1) (editDistance as bs + if a = b then 0 else 1))

variable {a b : A} {as bs cs : List A}

@[simp] theorem editDistance_nil_left (bs : List A) : editDistance [] bs = bs.length := by
  rw [editDistance]

@[simp] theorem editDistance_nil_right (as : List A) : editDistance as [] = as.length := by
  cases as with
  | nil => rw [editDistance_nil_left]
  | cons a as => rw [editDistance]

theorem editDistance_cons_cons : editDistance (a :: as) (b :: bs) =
    min (editDistance as (b :: bs) + 1)
      (min (editDistance (a :: as) bs + 1) (editDistance as bs + if a = b then 0 else 1)) := by
  rw [editDistance]

/-- One member is inserted at most. -/
theorem editDistance_cons_right_le (as bs : List A) (b : A) :
    editDistance as (b :: bs) ≤ editDistance as bs + 1 := by
  cases as with
  | nil => simp
  | cons a as =>
    rw [editDistance_cons_cons]
    omega

/-- One member is deleted at most. -/
theorem editDistance_cons_left_le (as bs : List A) (a : A) :
    editDistance (a :: as) bs ≤ editDistance as bs + 1 := by
  cases bs with
  | nil => simp
  | cons b bs =>
    rw [editDistance_cons_cons]
    omega

@[simp] theorem editDistance_self (as : List A) : editDistance as as = 0 := by
  induction as with
  | nil => exact editDistance_nil_left []
  | cons a as ih =>
    rw [editDistance_cons_cons, if_pos rfl]
    omega

/-- **An edit changes the distance by one at most.** By induction on the edit, and then on the other
list. -/
theorem Edit.editDistance_le (h : Edit as bs) (cs : List A) :
    editDistance as cs ≤ editDistance bs cs + 1 := by
  induction h generalizing cs with
  | insert a as =>
    induction cs with
    | nil =>
      rw [editDistance_nil_right, editDistance_nil_right, List.length_cons]
      omega
    | cons c cs ih =>
      have hright := editDistance_cons_right_le as cs c
      rw [editDistance_cons_cons]
      omega
  | delete a as => exact editDistance_cons_left_le as cs a
  | replace a b as =>
    induction cs with
    | nil => simp
    | cons c cs ih =>
      rw [editDistance_cons_cons, editDistance_cons_cons]
      split_ifs <;> omega
  | @behind a as bs _ ih =>
    induction cs with
    | nil =>
      have hnil := ih []
      simp only [editDistance_nil_right, List.length_cons] at hnil ⊢
      omega
    | cons c cs ihcs =>
      have hcons := ih (c :: cs)
      have htail := ih cs
      rw [editDistance_cons_cons, editDistance_cons_cons]
      split_ifs <;> omega

/-- The distance is at most the number of edits. -/
theorem Edits.editDistance_le {n : ℕ} (h : Edits n as bs) : editDistance as bs ≤ n := by
  induction h with
  | refl as => rw [editDistance_self]
  | @step n as bs cs hedit _ ih =>
    have hfirst := hedit.editDistance_le cs
    omega

/-- As many edits as the distance are enough. -/
theorem edits_editDistance (as bs : List A) : Edits (editDistance as bs) as bs := by
  induction as generalizing bs with
  | nil =>
    rw [editDistance_nil_left]
    exact .insertAll bs
  | cons a as ih =>
    induction bs with
    | nil =>
      rw [editDistance_nil_right]
      exact .deleteAll (a :: as)
    | cons b bs ihbs =>
      -- the alternative with the least number of edits
      rw [editDistance_cons_cons]
      rcases min_choice (editDistance as (b :: bs) + 1)
        (min (editDistance (a :: as) bs + 1) (editDistance as bs + if a = b then 0 else 1)) with
        hdelete | hother
      · rw [hdelete]
        exact .step (.delete a as) (ih (b :: bs))
      · rw [hother]
        rcases min_choice (editDistance (a :: as) bs + 1)
          (editDistance as bs + if a = b then 0 else 1) with hinsert | hreplace
        · rw [hinsert]
          exact ihbs.trans (.step (.insert b bs) (.refl _))
        · rw [hreplace]
          by_cases hab : a = b
          · subst hab
            rw [if_pos rfl]
            exact (ih bs).behind a
          · rw [if_neg hab]
            exact .step (.replace a b as) ((ih bs).behind b)

/-- **The distance is the least number of edits.** -/
theorem isLeast_editDistance (as bs : List A) :
    IsLeast {n | Edits n as bs} (editDistance as bs) :=
  ⟨edits_editDistance as bs, fun _ h => h.editDistance_le⟩

/-- The distance is the same from the ends of the lists. -/
theorem editDistance_reverse (as bs : List A) :
    editDistance as.reverse bs.reverse = editDistance as bs := by
  apply le_antisymm
  · exact (edits_editDistance as bs).reverse.editDistance_le
  · have hback := (edits_editDistance as.reverse bs.reverse).reverse.editDistance_le
    rwa [List.reverse_reverse, List.reverse_reverse] at hback

/-- The last members are deleted, inserted, or put for each other. -/
theorem editDistance_append_append (as bs : List A) (a b : A) :
    editDistance (as ++ [a]) (bs ++ [b]) =
      min (editDistance as (bs ++ [b]) + 1)
        (min (editDistance (as ++ [a]) bs + 1)
          (editDistance as bs + if a = b then 0 else 1)) := by
  rw [← editDistance_reverse (as ++ [a]), ← editDistance_reverse as (bs ++ [b]),
    ← editDistance_reverse (as ++ [a]) bs, ← editDistance_reverse as bs]
  simp only [List.reverse_append, List.reverse_cons, List.reverse_nil, List.nil_append,
    List.cons_append]
  exact editDistance_cons_cons

end Distance

/-! ## Rows -/

section Rows

variable [DecidableEq A]

/-- The entries of the next row behind its first one: from the members of the second list that are
left, the row before, from the entry to the left on, and the entry to the left in the next row. -/
def nextRow (a : A) : List A → List ℕ → ℕ → List ℕ
  | b :: bs, diagonal :: above :: row, left =>
    let entry := min (above + 1) (min (left + 1) (diagonal + if a = b then 0 else 1))
    entry :: nextRow a bs (above :: row) entry
  | _, _, _ => []

/-- The row of a prefix of the first list, from the row of the empty prefix. -/
def rowsFrom (bs : List A) : ℕ → List A → List ℕ → List ℕ
  | _, [], row => row
  | i, a :: as, row => rowsFrom bs (i + 1) as ((i + 1) :: nextRow a bs row (i + 1))

/-- **The last row.** -/
def lastRow (as bs : List A) : List ℕ := rowsFrom bs 0 as (List.range (bs.length + 1))

/-- The distances of a list from the prefixes of another one that are not shorter than a given
one. -/
def distancesFrom (as front : List A) (bs : List A) : List ℕ :=
  bs.inits.map fun more => editDistance as (front ++ more)

variable {as front bs : List A} {a b : A}

/-- The shortest prefix, and the longer ones. -/
theorem distancesFrom_cons : distancesFrom as front (b :: bs) =
    editDistance as front :: distancesFrom as (front ++ [b]) bs := by
  simp [distancesFrom, List.inits]

@[simp] theorem distancesFrom_nil : distancesFrom as front [] = [editDistance as front] := by
  simp [distancesFrom]

/-- The distances begin with that from the shortest prefix. -/
theorem exists_distancesFrom (as front bs : List A) : ∃ rest,
    distancesFrom as front bs = editDistance as front :: rest := by
  cases bs with
  | nil => exact ⟨[], distancesFrom_nil⟩
  | cons b bs => exact ⟨_, distancesFrom_cons⟩

/-- **The next row** has the distances of the longer prefix. By induction on what is left of the
second list. -/
theorem nextRow_distancesFrom (as : List A) (a : A) (front bs : List A) :
    editDistance (as ++ [a]) front ::
        nextRow a bs (distancesFrom as front bs) (editDistance (as ++ [a]) front) =
      distancesFrom (as ++ [a]) front bs := by
  induction bs generalizing front with
  | nil => simp [nextRow]
  | cons b bs ih =>
    obtain ⟨rest, hrest⟩ := exists_distancesFrom as (front ++ [b]) bs
    have hstep := ih (front ++ [b])
    rw [distancesFrom_cons, distancesFrom_cons, ← hstep, hrest, nextRow,
      editDistance_append_append]

/-- The first row. -/
theorem range_eq_distancesFrom (front bs : List A) :
    List.range' front.length (bs.length + 1) = distancesFrom [] front bs := by
  induction bs generalizing front with
  | nil => simp
  | cons b bs ih =>
    rw [distancesFrom_cons, ← ih (front ++ [b]), editDistance_nil_left, List.length_cons,
      List.range'_succ, List.length_append, List.length_singleton]

/-- The rows of longer and longer prefixes. -/
theorem rowsFrom_eq (front as bs : List A) :
    rowsFrom bs front.length as (distancesFrom front [] bs) =
      distancesFrom (front ++ as) [] bs := by
  induction as generalizing front with
  | nil => rw [rowsFrom, List.append_nil]
  | cons a as ih =>
    have hnext := nextRow_distancesFrom front a [] bs
    have hrest := ih (front ++ [a])
    rw [editDistance_nil_right] at hnext
    rw [List.length_append, List.length_singleton] at hnext hrest
    rw [rowsFrom, hnext, hrest, List.append_assoc, List.singleton_append]

/-- **The last row** has the distances from the whole first list. -/
theorem lastRow_eq (as bs : List A) : lastRow as bs = distancesFrom as [] bs := by
  have hfirst := range_eq_distancesFrom [] bs
  rw [List.length_nil, ← List.range_eq_range'] at hfirst
  rw [lastRow, hfirst]
  exact rowsFrom_eq [] as bs

/-- The last entry of the last row is the distance. -/
theorem getD_lastRow (as bs : List A) : (lastRow as bs).getD bs.length 0 = editDistance as bs := by
  have hentry : ∀ front : List A, (distancesFrom as front bs).getD bs.length 0 =
      editDistance as (front ++ bs) := by
    induction bs with
    | nil => simp
    | cons b bs ih =>
      intro front
      rw [distancesFrom_cons, List.length_cons, List.getD_cons_succ, ih, List.append_assoc,
        List.singleton_append]
  rw [lastRow_eq, hentry, List.nil_append]

end Rows

end Lists
