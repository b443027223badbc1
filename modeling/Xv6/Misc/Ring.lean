import Mathlib.Data.Nat.ModEq
import Mathlib.Data.List.Basic
import Mathlib.Logic.Function.Basic

/-!
# Ring buffers with free-running counters

A ring of `size` cells is described by the list `log` of everything that was ever entered and the
number `lo` of entries that have been taken: the cells hold the entries from `lo` on. The counters
of the ring are these two numbers as `w`-bit words, and `size` divides `2 ^ w`, so that a counter
still gives the cell of its entry after it has wrapped.
-/

/-- The cells hold the entries of `log` from number `lo` on. -/
structure RingBuf {α : Type} (size : Nat) (data : Nat → α) (log : List α) (lo : Nat) : Prop where
  le : lo ≤ log.length
  fits : log.length ≤ lo + size
  cell : ∀ i x, lo ≤ i → log[i]? = some x → data (i % size) = x

namespace RingBuf

variable {α : Type} {size : Nat} {data : Nat → α} {log : List α} {lo : Nat} {x : α}

theorem empty (size : Nat) (data : Nat → α) : RingBuf size data [] 0 :=
  ⟨Nat.le_refl 0, Nat.zero_le _, by simp⟩

theorem mod_ne {i j : Nat} (hij : i < j) (hj : j < i + size) : i % size ≠ j % size := by
  intro he
  have hdiv : size ∣ j - i := (Nat.modEq_iff_dvd' (Nat.le_of_lt hij)).mp he
  have hle := Nat.le_of_dvd (Nat.sub_pos_of_lt hij) hdiv
  omega

section

variable (h : RingBuf size data log lo)

include h

theorem push (hroom : log.length < lo + size) :
    RingBuf size (Function.update data (log.length % size) x) (log ++ [x]) lo := by
  refine ⟨?_, ?_, ?_⟩
  · rw [List.length_append, List.length_singleton]
    exact Nat.le_succ_of_le h.le
  · grind
  · intro i y hi hy
    by_cases hlt : i < log.length
    · rw [List.getElem?_append_left hlt] at hy
      rw [Function.update_of_ne (mod_ne hlt (by omega))]
      exact h.cell i y hi hy
    · grind

theorem write (hroom : log.length < lo + size) :
    RingBuf size (Function.update data (log.length % size) x) log lo := by
  refine ⟨h.le, h.fits, ?_⟩
  intro i y hi hy
  have hlt : i < log.length := (List.getElem?_eq_some_iff.mp hy).1
  rw [Function.update_of_ne (mod_ne hlt (by omega))]
  exact h.cell i y hi hy

theorem enter (hroom : log.length < lo + size)
    (hx : data (log.length % size) = x) : RingBuf size data (log ++ [x]) lo := by
  have hself : Function.update data (log.length % size) x = data := by
    rw [← hx, Function.update_eq_self]
  rw [← hself]
  exact h.push hroom

theorem pop (hne : lo < log.length) : RingBuf size data log (lo + 1) := by
  refine ⟨hne, ?_, ?_⟩
  · have := h.fits
    omega
  · intro i y hi hy
    exact h.cell i y (Nat.le_of_succ_le hi) hy

theorem dropLast (hne : lo < log.length) : RingBuf size data log.dropLast lo := by
  refine ⟨?_, ?_, ?_⟩
  · rw [List.length_dropLast]
    omega
  · rw [List.length_dropLast]
    have := h.fits
    omega
  · grind [h.cell]

theorem next (hne : lo < log.length) : log[lo]? = some (data (lo % size)) := by
  rw [List.getElem?_eq_getElem hne]
  exact congrArg some (h.cell lo _ (Nat.le_refl lo) (List.getElem?_eq_getElem hne)).symm

theorem drop_eq :
    log.drop lo = (List.range (log.length - lo)).map fun i => data ((lo + i) % size) := by
  apply List.ext_getElem
  · simp
  · intro i h1 h2
    simp only [List.getElem_drop, List.getElem_map, List.getElem_range]
    refine (h.cell (lo + i) _ (Nat.le_add_right lo i) ?_).symm
    exact List.getElem?_eq_getElem _

end

end RingBuf

/-! ## Counters -/

namespace RingBuf

variable {w size a b : Nat}

theorem toNat_mod (hw : size ∣ 2 ^ w) : (BitVec.ofNat w a).toNat % size = a % size := by
  rw [BitVec.toNat_ofNat, Nat.mod_mod_of_dvd _ hw]

theorem toNat_add_mod (hw : size ∣ 2 ^ w) (i : Nat) :
    ((BitVec.ofNat w a).toNat + i) % size = (a + i) % size := by
  rw [Nat.add_mod, toNat_mod hw, ← Nat.add_mod]

theorem toNat_sub (hle : a ≤ b) (hlt : b < a + 2 ^ w) :
    (BitVec.ofNat w b - BitVec.ofNat w a).toNat = b - a := by
  obtain ⟨d, rfl⟩ := Nat.exists_eq_add_of_le hle
  rw [BitVec.ofNat_add, BitVec.add_comm, BitVec.add_sub_cancel, BitVec.toNat_ofNat,
    Nat.add_sub_cancel_left, Nat.mod_eq_of_lt (by omega)]

theorem ofNat_inj (hle : a ≤ b) (hlt : b < a + 2 ^ w) :
    BitVec.ofNat w a = BitVec.ofNat w b ↔ a = b := by
  constructor
  · intro he
    have hmod : a % 2 ^ w = b % 2 ^ w := by
      have := congrArg BitVec.toNat he
      rwa [BitVec.toNat_ofNat, BitVec.toNat_ofNat] at this
    by_contra hne
    exact RingBuf.mod_ne (Nat.lt_of_le_of_ne hle hne) hlt hmod
  · rintro rfl
    rfl

theorem ofNat_add_one : BitVec.ofNat w a + 1 = BitVec.ofNat w (a + 1) := (BitVec.ofNat_add ..).symm

end RingBuf
