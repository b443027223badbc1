import Mathlib.Algebra.Ring.Int.Defs
import Mathlib.Algebra.Ring.Nat
import Mathlib.Data.Nat.Basic

/-!
# Byte memory

A flat memory of bytes with little-endian 64-bit words, `memset`, `memmove` and the copy of a
byte string, and the rules for reading after these writes.
-/

namespace ByteMem

abbrev Byte := BitVec 8

abbrev Mem := Nat → Byte

/-- The word of eight bytes at `a`, least significant first. -/
def load64 (m : Mem) (a : Nat) : BitVec 64 :=
  BitVec.ofNat 64 ((m a).toNat + 256 * ((m (a + 1)).toNat + 256 * ((m (a + 2)).toNat +
    256 * ((m (a + 3)).toNat + 256 * ((m (a + 4)).toNat + 256 * ((m (a + 5)).toNat +
    256 * ((m (a + 6)).toNat + 256 * (m (a + 7)).toNat)))))))

def store64 (m : Mem) (a : Nat) (w : BitVec 64) : Mem := fun x =>
  if a ≤ x ∧ x < a + 8 then BitVec.ofNat 8 (w.toNat / 256 ^ (x - a)) else m x

def fill (m : Mem) (a : Nat) (v : Byte) (n : Nat) : Mem := fun x =>
  if a ≤ x ∧ x < a + n then v else m x

def blit (m : Mem) (dst : Nat) (src : Nat → Byte) (n : Nat) : Mem := fun x =>
  if dst ≤ x ∧ x < dst + n then src (x - dst) else m x

def move (m : Mem) (dst src n : Nat) : Mem := blit m dst (fun i => m (src + i)) n

/-- The two memories have the same bytes in `[a, a + n)`. -/
def Agree (m m' : Mem) (a n : Nat) : Prop := ∀ x, a ≤ x → x < a + n → m' x = m x

variable {m m' m'' : Mem} {a b n k : Nat}
variable {i : Nat}

theorem Agree.refl (m : Mem) (a n : Nat) : Agree m m a n := fun _ _ _ => rfl

theorem Agree.trans (h : Agree m m' a n) (h' : Agree m' m'' a n) : Agree m m'' a n :=
  fun x h1 h2 => (h' x h1 h2).trans (h x h1 h2)

theorem Agree.sub (h : Agree m m' a n) (h1 : a ≤ b) (h2 : b + k ≤ a + n) : Agree m m' b k :=
  fun x hx hx' => h x (Nat.le_trans h1 hx) (by omega)

theorem load64_copy (h : ∀ i, i < 8 → m' (b + i) = m (a + i)) : load64 m' b = load64 m a := by
  have h0 : m' b = m a := h 0 (by omega)
  simp only [load64, h0, h 1 (by omega), h 2 (by omega), h 3 (by omega), h 4 (by omega),
    h 5 (by omega), h 6 (by omega), h 7 (by omega)]

theorem load64_congr (h : Agree m m' a 8) : load64 m' a = load64 m a :=
  load64_copy fun _ hi => h _ (Nat.le_add_right _ _) (by omega)

theorem load64_eq {w : BitVec 64}
    (h : ∀ i, i < 8 → m (a + i) = BitVec.ofNat 8 (w.toNat / 256 ^ i)) : load64 m a = w := by
  have byte : ∀ i, i < 8 → (m (a + i)).toNat = w.toNat / 256 ^ i % 256 := by grind
  have h0 : (m a).toNat = w.toNat % 256 := by simpa using byte 0 (by omega)
  apply BitVec.eq_of_toNat_eq
  simp only [load64, BitVec.toNat_ofNat, h0, byte 1 (by omega), byte 2 (by omega),
    byte 3 (by omega), byte 4 (by omega), byte 5 (by omega), byte 6 (by omega), byte 7 (by omega)]
  omega

theorem load64_store64 (m : Mem) (a : Nat) (w : BitVec 64) : load64 (store64 m a w) a = w := by
  apply load64_eq
  intro i hi
  have : a ≤ a + i ∧ a + i < a + 8 := by omega
  simp [store64, this]

theorem load64_byte (m : Mem) (a : Nat) (hi : i < 8) :
    BitVec.ofNat 8 ((load64 m a).toNat / 256 ^ i) = m (a + i) := by
  have hb : ∀ j, (m j).toNat < 256 := fun j => (m j).isLt
  apply BitVec.eq_of_toNat_eq
  simp only [load64, BitVec.toNat_ofNat]
  have : i = 0 ∨ i = 1 ∨ i = 2 ∨ i = 3 ∨ i = 4 ∨ i = 5 ∨ i = 6 ∨ i = 7 := by omega
  obtain rfl | rfl | rfl | rfl | rfl | rfl | rfl | rfl := this <;>
    simp only [Nat.add_zero, Nat.reducePow] <;> omega

theorem store64_load64 (m : Mem) (a : Nat) : store64 m a (load64 m a) = m := by
  funext x
  unfold store64
  split
  · next h =>
    rw [load64_byte m a (by omega)]
    congr 1
    omega
  · rfl

theorem store64_agree (m : Mem) (w : BitVec 64) (h : b + n ≤ a ∨ a + 8 ≤ b) :
    Agree m (store64 m a w) b n := by
  intro x h1 h2
  have : ¬ (a ≤ x ∧ x < a + 8) := by omega
  simp [store64, this]

theorem fill_agree (m : Mem) (v : Byte) (h : b + n ≤ a ∨ a + k ≤ b) :
    Agree m (fill m a v k) b n := by
  intro x h1 h2
  have : ¬ (a ≤ x ∧ x < a + k) := by omega
  simp [fill, this]

theorem blit_agree (m : Mem) (src : Nat → Byte) (h : b + n ≤ a ∨ a + k ≤ b) :
    Agree m (blit m a src k) b n := by
  intro x h1 h2
  have : ¬ (a ≤ x ∧ x < a + k) := by omega
  simp [blit, this]

theorem move_agree (m : Mem) (src : Nat) (h : b + n ≤ a ∨ a + k ≤ b) :
    Agree m (move m a src k) b n :=
  blit_agree m _ h

theorem fill_at (m : Mem) (v : Byte) {x : Nat} (h1 : a ≤ x) (h2 : x < a + n) :
    fill m a v n x = v := by
  simp [fill, h1, h2]

theorem blit_at (m : Mem) (src : Nat → Byte) (h : i < n) : blit m a src n (a + i) = src i := by
  simp [blit, h]

theorem move_at (m : Mem) (src : Nat) (h : i < n) : move m a src n (a + i) = m (src + i) :=
  blit_at m _ h

theorem load64_fill_zero (m : Mem) (h1 : a ≤ b) (h2 : b + 8 ≤ a + n) :
    load64 (fill m a 0 n) b = 0 := by
  have byte : ∀ i, i < 8 → fill m a 0 n (b + i) = 0 := fun i hi => fill_at m 0 (by omega) (by omega)
  have h0 : fill m a 0 n b = 0 := byte 0 (by omega)
  simp only [load64, h0, byte 1 (by omega), byte 2 (by omega), byte 3 (by omega),
    byte 4 (by omega), byte 5 (by omega), byte 6 (by omega), byte 7 (by omega)]
  rfl

end ByteMem
