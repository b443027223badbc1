import Xv6.Misc.ByteMem

/-!
# The two versions of `memmove`

`memmove` of `kernel/string.c` and of `user/ulib.c`. Both copy byte by byte in place, upwards or
downwards, and choose the direction by different tests. Pointers are 64-bit words and wrap; the
counter of a loop `while(n-- > 0)` is the number of its rounds. Both are `ByteMem.move`, by which
the rest of the development copies.
-/

namespace Xv6.Memmove

open ByteMem
open BitVec (lt_def toNat_ofNat)

def copyUp (mem : Mem) (d s : BitVec 64) : Nat → Mem
  | 0 => mem
  | n + 1 => copyUp (Function.update mem d.toNat (mem s.toNat)) (d + 1) (s + 1) n

def copyDown (mem : Mem) (d s : BitVec 64) : Nat → Mem
  | 0 => mem
  | n + 1 => copyDown (Function.update mem (d - 1).toNat (mem (s - 1).toNat)) (d - 1) (s - 1) n

def kernelMemmove (mem : Mem) (dst src : BitVec 64) (n : BitVec 32) : Mem :=
  if n = 0 then
    mem
  else if src < dst ∧ src + n.setWidth 64 > dst then
    copyDown mem (dst + n.setWidth 64) (src + n.setWidth 64) n.toNat
  else
    copyUp mem dst src n.toNat

/-- `memmove` of the user library, whose length is an `int`. A negative one runs no round. -/
def userMemmove (mem : Mem) (dst src : BitVec 64) (n : BitVec 32) : Mem :=
  if src > dst then
    copyUp mem dst src n.toInt.toNat
  else
    copyDown mem (dst + n.signExtend 64) (src + n.signExtend 64) n.toInt.toNat

/-! ## The loops -/

variable {mem : Mem} {d s : BitVec 64} {n : Nat}

theorem toNat_add_ofNat (h : d.toNat + n < 2 ^ 64) :
    (d + BitVec.ofNat 64 n).toNat = d.toNat + n := by
  rw [BitVec.toNat_add, toNat_ofNat, Nat.mod_eq_of_lt (show n < 2 ^ 64 by omega),
    Nat.mod_eq_of_lt h]

theorem move_zero (mem : Mem) (a b : Nat) : move mem a b 0 = mem := by
  funext x
  unfold move blit
  rw [if_neg (by omega)]

theorem copyUp_eq_move (hd : d.toNat + n ≤ 2 ^ 64) (hs : s.toNat + n ≤ 2 ^ 64)
    (h : d.toNat ≤ s.toNat ∨ s.toNat + n ≤ d.toNat) :
    copyUp mem d s n = move mem d.toNat s.toNat n := by
  induction n generalizing mem d s with
  | zero => rw [copyUp, move_zero]
  | succ n ih =>
    rw [copyUp]
    cases n with
    | zero =>
      funext x
      simp only [copyUp, move, blit, Function.update_apply]
      grind
    | succ n =>
      have hd' : (d + 1).toNat = d.toNat + 1 := toNat_add_ofNat (n := 1) (by omega)
      have hs' : (s + 1).toNat = s.toNat + 1 := toNat_add_ofNat (n := 1) (by omega)
      rw [ih (by omega) (by omega) (by omega), hd', hs']
      funext x
      simp only [move, blit, Function.update_apply]
      grind

theorem copyDown_eq_move (hd : d.toNat + n ≤ 2 ^ 64) (hs : s.toNat + n ≤ 2 ^ 64)
    (h : s.toNat ≤ d.toNat ∨ d.toNat + n ≤ s.toNat) :
    copyDown mem (d + BitVec.ofNat 64 n) (s + BitVec.ofNat 64 n) n =
      move mem d.toNat s.toNat n := by
  induction n generalizing mem with
  | zero => rw [copyDown, move_zero]
  | succ n ih =>
    have hlast : ∀ a : BitVec 64, a + BitVec.ofNat 64 (n + 1) - 1 = a + BitVec.ofNat 64 n := by
      intro a
      rw [BitVec.ofNat_add, ← BitVec.add_assoc]
      exact BitVec.add_sub_cancel _ 1
    rw [copyDown, hlast, hlast, toNat_add_ofNat (by omega), toNat_add_ofNat (by omega),
      ih (by omega) (by omega) (by omega)]
    funext x
    simp only [move, blit, Function.update_apply]
    grind

/-! ## Both versions -/

variable {dst src : BitVec 64} {k : BitVec 32}

theorem setWidth_eq (k : BitVec 32) : k.setWidth 64 = BitVec.ofNat 64 k.toNat := by
  apply BitVec.eq_of_toNat_eq
  rw [BitVec.toNat_setWidth, toNat_ofNat]

theorem signExtend_eq (hk : k.toNat < 2 ^ 31) : k.signExtend 64 = BitVec.ofNat 64 k.toNat := by
  have hmsb : k.msb = false := by
    rw [BitVec.msb_eq_decide]
    simpa using hk
  rw [BitVec.signExtend_eq_setWidth_of_msb_false hmsb, setWidth_eq]

theorem kernelMemmove_eq_move (hd : dst.toNat + k.toNat ≤ 2 ^ 64)
    (hs : src.toNat + k.toNat ≤ 2 ^ 64) :
    kernelMemmove mem dst src k = move mem dst.toNat src.toNat k.toNat := by
  unfold kernelMemmove
  rw [setWidth_eq]
  split
  · next hk =>
    rw [hk]
    exact (move_zero mem _ _).symm
  · next hk =>
    split
    · next h => exact copyDown_eq_move hd hs (.inl (Nat.le_of_lt (lt_def.mp h.1)))
    · next h =>
      -- a source below the destination ends before it, and the end does not wrap
      refine copyUp_eq_move hd hs ?_
      rw [lt_def, gt_iff_lt, lt_def] at h
      by_cases hlt : src.toNat < dst.toNat
      · rw [toNat_add_ofNat (by omega)] at h
        omega
      · exact .inl (Nat.le_of_not_lt hlt)

theorem userMemmove_eq_move (hk : k.toNat < 2 ^ 31) (hd : dst.toNat + k.toNat ≤ 2 ^ 64)
    (hs : src.toNat + k.toNat ≤ 2 ^ 64) :
    userMemmove mem dst src k = move mem dst.toNat src.toNat k.toNat := by
  have hint : k.toInt.toNat = k.toNat := by
    rw [BitVec.toInt_eq_toNat_of_lt (by omega), Int.toNat_natCast]
  unfold userMemmove
  rw [signExtend_eq hk, hint]
  split
  · next h => exact copyUp_eq_move hd hs (.inl (Nat.le_of_lt (lt_def.mp h)))
  · next h =>
    refine copyDown_eq_move hd hs (.inl ?_)
    exact Nat.le_of_not_lt h

/-- For all contents of memory, sources and destinations, both versions copy the bytes of the
source as they were and change nothing else, and so they agree. -/
theorem memmove_overlap_safe (mem : Mem) (dst src : BitVec 64) (n : BitVec 32)
    (hn : n.toNat < 2 ^ 31) (hd : dst.toNat + n.toNat ≤ 2 ^ 64)
    (hs : src.toNat + n.toNat ≤ 2 ^ 64) :
    (∀ i < n.toNat, kernelMemmove mem dst src n (dst.toNat + i) = mem (src.toNat + i) ∧
      userMemmove mem dst src n (dst.toNat + i) = mem (src.toNat + i)) ∧
    (∀ a, a < dst.toNat ∨ dst.toNat + n.toNat ≤ a →
      kernelMemmove mem dst src n a = mem a ∧ userMemmove mem dst src n a = mem a) ∧
    kernelMemmove mem dst src n = userMemmove mem dst src n := by
  rw [kernelMemmove_eq_move hd hs, userMemmove_eq_move hn hd hs]
  refine ⟨?_, ?_, rfl⟩
  · intro i hi
    exact ⟨move_at mem _ hi, move_at mem _ hi⟩
  · intro a ha
    have hout : move mem dst.toNat src.toNat n.toNat a = mem a := by
      unfold move blit
      rw [if_neg (by omega)]
    exact ⟨hout, hout⟩

/-- Two bytes are moved up by one, onto one of them. -/
theorem memmove_overlap_safe_two : kernelMemmove (fun a => BitVec.ofNat 8 a) 6 5 2 7 = 6 ∧
      userMemmove (fun a => BitVec.ofNat 8 a) 6 5 2 7 = 6 :=
  (memmove_overlap_safe (fun a => BitVec.ofNat 8 a) 6 5 2 (by decide) (by decide) (by decide)).1 1
    (by decide)

end Xv6.Memmove
