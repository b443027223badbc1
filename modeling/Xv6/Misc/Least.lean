import Mathlib.Data.Fin.Basic
import Mathlib.Order.Defs.LinearOrder

/-!
# The least entry of a table

A loop visits the entries of a table in order and keeps the one with the least key among those it
is to choose from. `LeastBelow cand key i best` is its invariant: `best` is the choice among the
first `i` entries.
-/

variable {n : Nat} {κ : Type} [LinearOrder κ] {cand : Fin n → Prop} {key : Fin n → κ}

/-- `best` has the least key among the entries below `i` that `cand` holds of. -/
def LeastBelow (cand : Fin n → Prop) (key : Fin n → κ) (i : Nat) : Option (Fin n) → Prop
  | none => ∀ j, j.val < i → ¬cand j
  | some m => m.val < i ∧ cand m ∧ ∀ j, j.val < i → cand j → key m ≤ key j

namespace LeastBelow

variable {i : Fin n} {best : Option (Fin n)} {m : Fin n}

theorem zero : LeastBelow cand key 0 none := fun _ hj => absurd hj (Nat.not_lt_zero _)

theorem skip (h : LeastBelow cand key i best) (hi : ¬cand i) :
    LeastBelow cand key (i + 1) best := by
  have hlt : ∀ j : Fin n, j.val < i + 1 → cand j → j.val < i := by grind
  cases best with
  | none => exact fun j hj hc => h j (hlt j hj hc) hc
  | some => exact ⟨Nat.lt_succ_of_lt h.1, h.2.1, fun j hj hc => h.2.2 j (hlt j hj hc) hc⟩

theorem first (h : LeastBelow cand key i none) (hi : cand i) :
    LeastBelow cand key (i + 1) (some i) := by
  refine ⟨Nat.lt_succ_self _, hi, ?_⟩
  intro j hj hc
  have hji : j = i := by
    by_contra hne
    exact h j (by omega) hc
  rw [hji]

theorem replace (h : LeastBelow cand key i (some m)) (hi : cand i) (hlt : key i < key m) :
    LeastBelow cand key (i + 1) (some i) := by
  refine ⟨Nat.lt_succ_self _, hi, ?_⟩
  intro j hj hc
  rcases Nat.lt_succ_iff_lt_or_eq.mp hj with hj | hj
  · exact (hlt.trans_le (h.2.2 j hj hc)).le
  · rw [Fin.ext hj]

theorem keep (h : LeastBelow cand key i (some m)) (hle : key m ≤ key i) :
    LeastBelow cand key (i + 1) (some m) := by
  refine ⟨Nat.lt_succ_of_lt h.1, h.2.1, ?_⟩
  intro j hj hc
  rcases Nat.lt_succ_iff_lt_or_eq.mp hj with hj | hj
  · exact h.2.2 j hj hc
  · rwa [Fin.ext hj]

theorem unique {i : Nat} {best' : Option (Fin n)} (hkey : Function.Injective key)
    (h : LeastBelow cand key i best) (h' : LeastBelow cand key i best') : best = best' := by
  cases best with
  | none =>
    cases best' with
    | none => rfl
    | some m' => exact absurd h'.2.1 (h m' h'.1)
  | some m =>
    cases best' with
    | none => exact absurd h.2.1 (h' m h.1)
    | some m' =>
      exact congrArg some
        (hkey (le_antisymm (h.2.2 m' h'.1 h'.2.1) (h'.2.2 m h.1 h.2.1)))

end LeastBelow
