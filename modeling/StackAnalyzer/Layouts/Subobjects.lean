import Mathlib

set_option relaxedAutoImplicit false
set_option autoImplicit false

/-!
# Subobjects

Types that are scalars, arrays or structures, with the size of each and the offsets of members. An
object of a type has parts: the elements of an array, and the members of a structure. The parts of
an object do not overlap, so an address is in one part at most, and the subobjects that it lies in
form a path.

## Main definitions

* `Layouts.Layout` — types with their sizes and offsets.
* `Layouts.Part` — the parts of an object.
* `Layouts.OnPath` — the subobjects that an address lies in, by their level.

## Main results

* `Layouts.Part.unique` — an address lies in one part at most.
* `Layouts.OnPath.inside` — a subobject lies inside its object.
-/

namespace Layouts

/-- What a type is built from. -/
inductive Shape (T : Type*)
  | scalar
  | array (count : ℕ) (element : T)
  | struct (members : List T)

/-- **Types with their sizes and the offsets of their members.** The members of a structure come one
after the other, and there may be padding between them and at the end. -/
structure Layout (T : Type*) where
  shape : T → Shape T
  size : T → ℕ
  offset : T → ℕ → ℕ
  size_array : ∀ {t : T} {count : ℕ} {element : T}, shape t = .array count element →
    size t = count * size element
  order : ∀ {t : T} {members : List T} {i j : ℕ} {m m' : T}, shape t = .struct members → i < j →
    members[i]? = some m → members[j]? = some m' → offset t i + size m ≤ offset t j
  inside : ∀ {t : T} {members : List T} {i : ℕ} {m : T}, shape t = .struct members →
    members[i]? = some m → offset t i + size m ≤ size t

variable {T : Type*} (L : Layout T)

/-! ## Parts -/

/-- **The parts of an object** of type `t` at address `b`. -/
inductive Part (t : T) (b : ℕ) : T → ℕ → Prop
  | element {count k : ℕ} {element : T} : L.shape t = .array count element → k < count →
      Part t b element (b + k * L.size element)
  | member {members : List T} {i : ℕ} {m : T} : L.shape t = .struct members →
      members[i]? = some m → Part t b m (b + L.offset t i)

/-- An address lies in an object. -/
def Covers (query : ℕ) (t : T) (b : ℕ) : Prop := b ≤ query ∧ query < b + L.size t

instance (query : ℕ) (t : T) (b : ℕ) : Decidable (Covers L query t b) :=
  inferInstanceAs (Decidable (_ ∧ _))

variable {L} {query : ℕ} {t t' t₁ t₂ : T} {b b' b₁ b₂ : ℕ}

/-- A part lies inside its object. -/
theorem Part.inside (h : Part L t b t' b') : b ≤ b' ∧ b' + L.size t' ≤ b + L.size t := by
  cases h with
  | @element count k element hshape hk =>
    have hmul : (k + 1) * L.size t' ≤ count * L.size t' := Nat.mul_le_mul_right _ hk
    rw [L.size_array hshape]
    rw [Nat.succ_mul] at hmul
    exact ⟨Nat.le_add_right _ _, by omega⟩
  | member hshape hm =>
    have hinside := L.inside hshape hm
    exact ⟨Nat.le_add_right _ _, by omega⟩

/-- The index of the element that an address lies in. -/
theorem index_of_covers {k : ℕ} (h : Covers L query t (b + k * L.size t)) :
    k = (query - b) / L.size t := by
  obtain ⟨hle, hlt⟩ := h
  refine (Nat.div_eq_of_lt_le ?_ ?_).symm
  · omega
  · rw [Nat.succ_mul]
    omega

/-- The elements of an array that an address lies in have a size. -/
theorem size_pos_of_covers {count : ℕ} {element : T} (hshape : L.shape t = .array count element)
    (h : Covers L query t b) : 0 < L.size element := by
  obtain ⟨hle, hlt⟩ := h
  refine Nat.pos_of_ne_zero fun hzero => ?_
  rw [L.size_array hshape, hzero, Nat.mul_zero] at hlt
  omega

/-- The index of the element is below the number of elements. -/
theorem index_lt_of_covers {count : ℕ} {element : T} (hshape : L.shape t = .array count element)
    (h : Covers L query t b) : (query - b) / L.size element < count := by
  obtain ⟨hle, hlt⟩ := h
  rw [L.size_array hshape, Nat.mul_comm] at hlt
  refine Nat.div_lt_of_lt_mul ?_
  omega

/-- The element of an array that an address lies in. -/
theorem part_of_covers {count : ℕ} {element : T} (hshape : L.shape t = .array count element)
    (h : Covers L query t b) :
    Part L t b element (b + (query - b) / L.size element * L.size element) :=
  .element hshape (index_lt_of_covers hshape h)

/-- The address lies in this element. -/
theorem covers_element {count : ℕ} {element : T} (hshape : L.shape t = .array count element)
    (h : Covers L query t b) :
    Covers L query element (b + (query - b) / L.size element * L.size element) := by
  have hdiv := Nat.div_add_mod' (query - b) (L.size element)
  have hmod := Nat.mod_lt (query - b) (size_pos_of_covers hshape h)
  obtain ⟨hle, -⟩ := h
  exact ⟨by omega, by omega⟩

/-- An address lies in one member at most. -/
theorem member_unique {members : List T} {i j : ℕ} (hshape : L.shape t = .struct members)
    (h₁ : members[i]? = some t₁) (hq₁ : Covers L query t₁ (b + L.offset t i))
    (h₂ : members[j]? = some t₂) (hq₂ : Covers L query t₂ (b + L.offset t j)) : i = j := by
  obtain ⟨hle₁, hlt₁⟩ := hq₁
  obtain ⟨hle₂, hlt₂⟩ := hq₂
  obtain hij | hij | hij := Nat.lt_trichotomy i j
  · have := L.order hshape hij h₁ h₂
    omega
  · exact hij
  · have := L.order hshape hij h₂ h₁
    omega

/-- **An address lies in one part at most.** -/
theorem Part.unique (h₁ : Part L t b t₁ b₁) (hq₁ : Covers L query t₁ b₁) (h₂ : Part L t b t₂ b₂)
    (hq₂ : Covers L query t₂ b₂) : t₁ = t₂ ∧ b₁ = b₂ := by
  cases h₁ with
  | element hshape₁ hk₁ =>
    cases h₂ with
    | element hshape₂ hk₂ =>
      obtain ⟨-, rfl⟩ := Shape.array.inj (hshape₁.symm.trans hshape₂)
      rw [index_of_covers hq₁, index_of_covers hq₂]
      exact ⟨rfl, rfl⟩
    | member hshape₂ _ => exact absurd (hshape₁.symm.trans hshape₂) nofun
  | member hshape₁ hm₁ =>
    cases h₂ with
    | element hshape₂ _ => exact absurd (hshape₁.symm.trans hshape₂) nofun
    | member hshape₂ hm₂ =>
      obtain rfl := Shape.struct.inj (hshape₁.symm.trans hshape₂)
      obtain rfl := member_unique hshape₁ hm₁ hq₁ hm₂ hq₂
      rw [hm₁] at hm₂
      exact ⟨Option.some.inj hm₂, rfl⟩

/-! ## Paths -/

variable (L query) in
/-- **The subobjects that an address lies in**: of the object itself, or of one of its parts. The
level of a subobject is the number of objects around it. -/
inductive OnPath : ℕ → T → ℕ → T → ℕ → Prop
  | here {t : T} {b : ℕ} : Covers L query t b → OnPath 0 t b t b
  | inside {level : ℕ} {t t' t'' : T} {b b' b'' : ℕ} : Covers L query t b → Part L t b t' b' →
      OnPath level t' b' t'' b'' → OnPath (level + 1) t b t'' b''

variable {level : ℕ}

/-- The address lies in the object. -/
theorem OnPath.covers_root (h : OnPath L query level t b t' b') : Covers L query t b := by
  cases h with
  | here hquery => exact hquery
  | inside hquery _ _ => exact hquery

/-- The address lies in the subobject. -/
theorem OnPath.covers (h : OnPath L query level t b t' b') : Covers L query t' b' := by
  induction h with
  | here hquery => exact hquery
  | inside _ _ _ ih => exact ih

/-- **A subobject lies inside its object.** -/
theorem OnPath.inside_root (h : OnPath L query level t b t' b') :
    b ≤ b' ∧ b' + L.size t' ≤ b + L.size t := by
  induction h with
  | here _ => exact ⟨le_rfl, le_rfl⟩
  | inside _ hpart _ ih =>
    have hinside := hpart.inside
    omega

end Layouts
