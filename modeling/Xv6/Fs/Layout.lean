import Xv6.Fs

/-!
# The bytes of inodes

`struct dinode` of `kernel/fs.h` in its block. Fields are the unsigned numbers with the same bits.
-/

namespace Xv6.Fs

open ByteMem

def dinodeSize : Nat := 64

def ipb : Nat := bsize / dinodeSize

@[irreducible]
def bpb : Nat := bsize * 8

def fsmagic : Nat := 0x10203040

def Block.half (d : Block) (j : Nat) : Nat := (d (2 * j)).toNat + 256 * (d (2 * j + 1)).toNat

def byteOf (w i : Nat) : Byte := BitVec.ofNat 8 (w / 256 ^ i)

structure RawInode where
  type : Nat := 0
  major : Nat := 0
  minor : Nat := 0
  nlink : Nat := 0
  size : Nat := 0
  addrs : Nat → Nat := fun _ => 0

def Block.inode (d : Block) (k : Nat) : RawInode where
  type := d.half (32 * k)
  major := d.half (32 * k + 1)
  minor := d.half (32 * k + 2)
  nlink := d.half (32 * k + 3)
  size := d.word (16 * k + 2)
  addrs j := d.word (16 * k + 3 + j)

def RawInode.bytes (r : RawInode) (x : Nat) : Byte :=
  if x < 2 then byteOf r.type x
  else if x < 4 then byteOf r.major (x - 2)
  else if x < 6 then byteOf r.minor (x - 4)
  else if x < 8 then byteOf r.nlink (x - 6)
  else if x < 12 then byteOf r.size (x - 8)
  else byteOf (r.addrs ((x - 12) / 4)) ((x - 12) % 4)

def Block.setInode (d : Block) (k : Nat) (r : RawInode) : Block := fun x =>
  if dinodeSize * k ≤ x ∧ x < dinodeSize * k + dinodeSize then r.bytes (x - dinodeSize * k) else d x

def Block.bit (d : Block) (i : Nat) : Bool := (d (i / 8)).getLsbD (i % 8)

def Block.setBit (d : Block) (i : Nat) (v : Bool) : Block := fun x =>
  if x = i / 8 then
    if v then d x ||| 1#8 <<< (i % 8) else d x &&& ~~~(1#8 <<< (i % 8))
  else d x

end Xv6.Fs
