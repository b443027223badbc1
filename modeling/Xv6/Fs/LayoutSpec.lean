import Xv6.Fs.Layout

/-!
# Reading back inodes and bits

What is written to a block with `Block.setInode` and `Block.setBit` is read with `Block.inode` and
`Block.bit`, and what stands beside it is left alone.
-/

namespace Xv6.Fs

open ByteMem

variable {d d' : Block} {r r' : RawInode} {i j k w : Nat}

/-! ## Numbers -/

theorem toNat_byteOf (w i : Nat) : (byteOf w i).toNat = w / 256 ^ i % 256 := by simp [byteOf]

theorem Block.half_eq (h : ∀ i, i < 2 → d (2 * j + i) = byteOf w i) : d.half j = w % 2 ^ 16 := by
  rw [Block.half, show d (2 * j) = _ from h 0 (by decide), h 1 (by decide), toNat_byteOf,
    toNat_byteOf]
  omega

theorem Block.word_eq (h : ∀ i, i < 4 → d (4 * j + i) = byteOf w i) : d.word j = w % 2 ^ 32 := by
  rw [Block.word, show d (4 * j) = _ from h 0 (by decide), h 1 (by decide), h 2 (by decide),
    h 3 (by decide), toNat_byteOf, toNat_byteOf, toNat_byteOf, toNat_byteOf]
  omega

theorem Block.half_congr (h : ∀ i, i < 2 → d' (2 * j + i) = d (2 * j + i)) :
    d'.half j = d.half j := by
  rw [Block.half, Block.half, show d' (2 * j) = d (2 * j) from h 0 (by decide), h 1 (by decide)]

theorem Block.word_congr (h : ∀ i, i < 4 → d' (4 * j + i) = d (4 * j + i)) :
    d'.word j = d.word j := by
  rw [Block.word, Block.word, show d' (4 * j) = d (4 * j) from h 0 (by decide), h 1 (by decide),
    h 2 (by decide), h 3 (by decide)]

theorem Block.half_lt (d : Block) (j : Nat) : d.half j < 2 ^ 16 := by
  rw [Block.half]
  omega

theorem Block.word_lt (d : Block) (j : Nat) : d.word j < 2 ^ 32 := by
  rw [Block.word]
  omega

/-! ## Inodes -/

/-- The fields have the sizes of `struct dinode`. -/
structure RawInode.Fits (r : RawInode) : Prop where
  type : r.type < 2 ^ 16
  major : r.major < 2 ^ 16
  minor : r.minor < 2 ^ 16
  nlink : r.nlink < 2 ^ 16
  size : r.size < 2 ^ 32
  addrs : ∀ n, n ≤ ndirect → r.addrs n < 2 ^ 32

structure RawInode.Agree (r r' : RawInode) : Prop where
  type : r.type = r'.type
  major : r.major = r'.major
  minor : r.minor = r'.minor
  nlink : r.nlink = r'.nlink
  size : r.size = r'.size
  addrs : ∀ n, n ≤ ndirect → r.addrs n = r'.addrs n

theorem Block.inode_fits (d : Block) (k : Nat) : (d.inode k).Fits :=
  ⟨d.half_lt _, d.half_lt _, d.half_lt _, d.half_lt _, d.word_lt _, fun _ _ => d.word_lt _⟩

theorem Block.inode_congr (h : ∀ y, y < dinodeSize →
    d' (dinodeSize * k + y) = d (dinodeSize * k + y)) : (d'.inode k).Agree (d.inode k) := by
  have hx : ∀ x, dinodeSize * k ≤ x → x < dinodeSize * k + dinodeSize → d' x = d x := by
    intro x h1 h2
    have := h (x - dinodeSize * k) (by omega)
    rwa [Nat.add_sub_cancel' h1] at this
  simp only [dinodeSize] at hx
  have hhalf : ∀ c < 4, d'.half (32 * k + c) = d.half (32 * k + c) := fun c hc =>
    Block.half_congr fun i hi => hx _ (by omega) (by omega)
  refine ⟨hhalf 0 (by decide), hhalf 1 (by decide), hhalf 2 (by decide), hhalf 3 (by decide), ?_, ?_⟩
  · exact Block.word_congr fun i hi => hx _ (by omega) (by omega)
  · intro n hn
    simp only [ndirect] at hn
    exact Block.word_congr fun i hi => hx _ (by omega) (by omega)

theorem Block.setInode_apply (d : Block) (k : Nat) (r : RawInode) {x y : Nat}
    (hx : x = dinodeSize * k + y) (hy : y < dinodeSize) : d.setInode k r x = r.bytes y := by
  subst hx
  rw [Block.setInode, if_pos (by omega), Nat.add_sub_cancel_left]

theorem Block.half_setInode (d : Block) {c : Nat} (hc : c < 32) (hw : w < 2 ^ 16)
    (h : ∀ i, i < 2 → r.bytes (2 * c + i) = byteOf w i) :
    (d.setInode k r).half (32 * k + c) = w := by
  rw [← Nat.mod_eq_of_lt hw]
  apply Block.half_eq
  intro i hi
  rw [← h i hi]
  apply Block.setInode_apply <;> simp only [dinodeSize] <;> omega

theorem Block.word_setInode (d : Block) {c : Nat} (hc : c < 16) (hw : w < 2 ^ 32)
    (h : ∀ i, i < 4 → r.bytes (4 * c + i) = byteOf w i) :
    (d.setInode k r).word (16 * k + c) = w := by
  rw [← Nat.mod_eq_of_lt hw]
  apply Block.word_eq
  intro i hi
  rw [← h i hi]
  apply Block.setInode_apply <;> simp only [dinodeSize] <;> omega

theorem Block.inode_setInode_self (d : Block) (k : Nat) (hr : r.Fits) :
    ((d.setInode k r).inode k).Agree r := by
  refine ⟨?_, ?_, ?_, ?_, ?_, ?_⟩
  · apply d.half_setInode (c := 0) (by decide) hr.type
    intro i hi
    rw [RawInode.bytes, if_pos (by omega), Nat.mul_zero, Nat.zero_add]
  · apply d.half_setInode (by decide) hr.major
    intro i hi
    rw [RawInode.bytes, if_neg (by omega), if_pos (by omega), Nat.mul_one, Nat.add_sub_cancel_left]
  · apply d.half_setInode (by decide) hr.minor
    intro i hi
    rw [RawInode.bytes, if_neg (by omega), if_neg (by omega), if_pos (by omega),
      Nat.add_sub_cancel_left]
  · apply d.half_setInode (by decide) hr.nlink
    intro i hi
    rw [RawInode.bytes, if_neg (by omega), if_neg (by omega), if_neg (by omega),
      if_pos (by omega), Nat.add_sub_cancel_left]
  · apply d.word_setInode (by decide) hr.size
    intro i hi
    rw [RawInode.bytes, if_neg (by omega), if_neg (by omega), if_neg (by omega),
      if_neg (by omega), if_pos (by omega), Nat.add_sub_cancel_left]
  · intro n hn
    have hlt := hr.addrs n hn
    simp only [ndirect] at hn
    have h := d.word_setInode (r := r) (k := k) (c := 3 + n) (by omega) hlt
    rw [← Nat.add_assoc] at h
    apply h
    intro i hi
    rw [RawInode.bytes, if_neg (by omega), if_neg (by omega), if_neg (by omega),
      if_neg (by omega), if_neg (by omega), show (4 * (3 + n) + i - 12) / 4 = n by omega,
      show (4 * (3 + n) + i - 12) % 4 = i by omega]

theorem Block.inode_setInode_of_ne (d : Block) (r : RawInode) (h : j ≠ k) :
    ((d.setInode k r).inode j).Agree (d.inode j) := by
  apply Block.inode_congr
  intro y hy
  simp only [dinodeSize] at hy
  exact if_neg (by simp only [dinodeSize]; omega)

/-! ## Bits -/

theorem Block.bit_zero (i : Nat) : Block.bit (fun _ => 0) i = false := by simp [Block.bit]

theorem Block.bit_setBit (d : Block) (i j : Nat) :
    (d.setBit i true).bit j = (decide (j = i) || d.bit j) := by
  unfold Block.bit Block.setBit
  by_cases hb : j / 8 = i / 8
  · grind [Nat.mod_lt, Bool.or_comm]
  · grind

end Xv6.Fs
