import Mathlib.Algebra.Ring.Int.Defs
import Mathlib.Algebra.Ring.Nat
import Mathlib.Data.Nat.Basic
import Mathlib.Order.Basic

/-!
# Page-table entries and addresses

The constants and macros of `kernel/riscv.h` and `kernel/memlayout.h` that the memory system
uses. Addresses are natural numbers; a page-table entry is a 64-bit word with the flag bits
0 to 9 below the physical page number.
-/

namespace Xv6

@[irreducible] def pgsize : Nat := 4096

theorem pgsize_eq : pgsize = 4096 := by unfold pgsize; rfl

def maxva : Nat := 2 ^ 38

def trampolineVa : Nat := maxva - pgsize

def trapframeVa : Nat := trampolineVa - pgsize

def kernbase : Nat := 0x80000000

def phystop : Nat := kernbase + 128 * 1024 * 1024

def pgroundup (sz : Nat) : Nat := (sz + (pgsize - 1)) % 2 ^ 64 / pgsize * pgsize

def pgrounddown (a : Nat) : Nat := a / pgsize * pgsize

def px (level va : Nat) : Nat := va / 2 ^ (12 + 9 * level) % 512

/-! ## Flags -/

def pteV : BitVec 64 := .twoPow 64 0
def pteR : BitVec 64 := .twoPow 64 1
def pteW : BitVec 64 := .twoPow 64 2
def pteX : BitVec 64 := .twoPow 64 3
def pteU : BitVec 64 := .twoPow 64 4
def pteCow : BitVec 64 := .twoPow 64 8

def hasFlag (pte flag : BitVec 64) : Bool := pte &&& flag != 0

def pteFlags (pte : BitVec 64) : BitVec 64 := pte &&& 0x3FF#64

def pa2pte (pa : Nat) : BitVec 64 := BitVec.ofNat 64 pa >>> 12 <<< 10

def pte2pa (pte : BitVec 64) : Nat := (pte >>> 10 <<< 12).toNat

section

variable (w : BitVec 64)

include w

/-- The page number of a physical address that an entry holds. -/
def ppn (pte : BitVec 64) : Nat := pte2pa pte / pgsize

/-! ## Reading back what was put together -/

theorem hasFlag_twoPow {i : Nat} (hi : i < 64) : hasFlag w (.twoPow 64 i) = w.getLsbD i := by
  unfold hasFlag
  rw [BitVec.and_twoPow]
  cases h : w.getLsbD i with
  | true =>
    have : BitVec.twoPow 64 i ≠ 0 := by
      intro h0
      have := congrArg (fun x => x.getLsbD i) h0
      simp [hi] at this
    simpa using this
  | false => simp

theorem hasFlag_v : hasFlag w pteV = w.getLsbD 0 := hasFlag_twoPow w (by decide)
theorem hasFlag_r : hasFlag w pteR = w.getLsbD 1 := hasFlag_twoPow w (by decide)
theorem hasFlag_w : hasFlag w pteW = w.getLsbD 2 := hasFlag_twoPow w (by decide)
theorem hasFlag_x : hasFlag w pteX = w.getLsbD 3 := hasFlag_twoPow w (by decide)
theorem hasFlag_u : hasFlag w pteU = w.getLsbD 4 := hasFlag_twoPow w (by decide)
theorem hasFlag_cow : hasFlag w pteCow = w.getLsbD 8 := hasFlag_twoPow w (by decide)

theorem pte2pa_eq : pte2pa w = ppn w * pgsize := by
  have h : pte2pa w % pgsize = 0 := by
    simp only [pte2pa, BitVec.toNat_shiftLeft, Nat.shiftLeft_eq, pgsize_eq]
    omega
  unfold ppn
  have := Nat.div_add_mod (pte2pa w) pgsize
  rw [Nat.mul_comm]
  omega

end

theorem ppn_congr {w : BitVec 64} (w' : BitVec 64)
    (h : ∀ i, 10 ≤ i → i < 64 → w.getLsbD i = w'.getLsbD i) : ppn w = ppn w' := by
  have : w >>> 10 = w' >>> 10 := by grind
  simp only [ppn, pte2pa, this]

theorem ppn_pa2pte {f : Nat} (hf : f < 2 ^ 44) : ppn (pa2pte (f * pgsize)) = f := by
  have h : pte2pa (pa2pte (f * pgsize)) = f * pgsize := by
    simp only [pte2pa, pa2pte, pgsize_eq, BitVec.toNat_shiftLeft, BitVec.toNat_ushiftRight,
      BitVec.toNat_ofNat, Nat.shiftLeft_eq, Nat.shiftRight_eq_div_pow]
    omega
  rw [ppn, h]
  exact Nat.mul_div_cancel f (by rw [pgsize_eq]; decide)

theorem pa2pte_low (pa : Nat) {i : Nat} (hi : i < 10) : (pa2pte pa).getLsbD i = false := by
  simp only [pa2pte, BitVec.getLsbD_shiftLeft]
  simp [hi]

theorem getLsbD_pteFlags (w : BitVec 64) (i : Nat) :
    (pteFlags w).getLsbD i = (decide (i < 10) && w.getLsbD i) := by
  have h : (0x3FF#64).getLsbD i = decide (i < 10) := by
    by_cases hi : i < 64
    · revert i
      decide
    · grind
  simp only [pteFlags, BitVec.getLsbD_and, h]
  exact Bool.and_comm _ _

end Xv6
