import Mathlib.Data.List.Perm.Basic

/-!
# Extents of addresses

`cover l a` is the number of extents of `l` that the address `a` is in. Two lists that cover every
address equally often are two divisions of the same memory.
-/

structure Extent where
  lo : Nat
  hi : Nat

def Extent.Has (e : Extent) (a : Nat) : Prop := e.lo ≤ a ∧ a < e.hi

instance (e : Extent) (a : Nat) : Decidable (e.Has a) := inferInstanceAs (Decidable (_ ∧ _))

def Extent.Disjoint (e e' : Extent) : Prop := ∀ a, ¬ (e.Has a ∧ e'.Has a)

def cover (l : List Extent) (a : Nat) : Nat := l.countP fun e => decide (e.Has a)

section

variable {l l' : List Extent} {e e' : Extent} {a lo mid hi : Nat}

@[simp]
theorem cover_nil : cover [] a = 0 := rfl

theorem cover_cons : cover (e :: l) a = cover l a + if e.Has a then 1 else 0 := by
  simp [cover, List.countP_cons]

theorem cover_perm (h : l.Perm l') : cover l a = cover l' a := h.countP_eq _

theorem cover_split (h1 : lo ≤ mid) (h2 : mid ≤ hi) :
    cover (⟨lo, mid⟩ :: ⟨mid, hi⟩ :: l) a = cover (⟨lo, hi⟩ :: l) a := by
  by_cases h : a < mid
  · have h' : ¬ Extent.Has ⟨mid, hi⟩ a := fun hm => absurd h (Nat.not_lt.mpr hm.1)
    have hlo : Extent.Has ⟨lo, mid⟩ a ↔ Extent.Has ⟨lo, hi⟩ a :=
      ⟨fun hm => ⟨hm.1, Nat.lt_of_lt_of_le h h2⟩, fun hm => ⟨hm.1, h⟩⟩
    simp only [cover_cons, h', hlo, if_false, Nat.add_zero]
  · have h' : ¬ Extent.Has ⟨lo, mid⟩ a := fun hm => absurd hm.2 h
    have hhi : Extent.Has ⟨mid, hi⟩ a ↔ Extent.Has ⟨lo, hi⟩ a :=
      ⟨fun hm => ⟨Nat.le_trans h1 hm.1, hm.2⟩, fun hm => ⟨Nat.le_of_not_lt h, hm.2⟩⟩
    simp only [cover_cons, h', hhi, if_false, Nat.add_zero]

theorem cover_pos : 0 < cover l a ↔ ∃ e ∈ l, e.Has a := by simp [cover, List.countP_pos_iff]

theorem pairwise_disjoint (h : ∀ a, cover l a ≤ 1) : l.Pairwise Extent.Disjoint := by
  induction l with
  | nil => exact .nil
  | cons _ l ih =>
    refine List.pairwise_cons.mpr ⟨?_, ?_⟩
    · rintro e' he' a ⟨ha, ha'⟩
      have hpos : 0 < cover l a := cover_pos.mpr ⟨e', he', ha'⟩
      have hle := h a
      rw [cover_cons, if_pos ha] at hle
      omega
    · apply ih
      intro a
      have hle := h a
      rw [cover_cons] at hle
      omega

theorem Extent.Disjoint.cases (h : e.Disjoint e') (he : e.lo < e.hi) (he' : e'.lo < e'.hi) :
    e.hi ≤ e'.lo ∨ e'.hi ≤ e.lo := by
  by_contra hc
  apply h (max e.lo e'.lo)
  unfold Extent.Has
  omega

end
