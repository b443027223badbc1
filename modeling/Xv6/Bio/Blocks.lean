import Xv6.Bio
import Xv6.Fs.Layout

/-!
# The code that uses buffers

The functions of `kernel/fs.c` that call `bread`. Everything else in the file system uses blocks
through them. An inode is the contents of its `struct dinode`; a function that changes the copy in
memory returns the new one.
-/

namespace Xv6.Bio

open ByteMem
open Fs (Block RawInode bsize ndirect nindirect maxfile ipb bpb)

def readsb : M Unit := do
  let bp ← bread rootdev 1
  modify fun s =>
    let d := (s.buf bp).data
    { s with
      sb := { magic := d.word 0, size := d.word 1, ninodes := d.word 3, nlog := d.word 4
              logstart := d.word 5, inodestart := d.word 6, bmapstart := d.word 7 } }
  brelse bp

def fsinit : M Unit := do
  readsb
  let s ← get
  if s.sb.magic ≠ Fs.fsmagic then throw .invalidFileSystem else initlog

def bzero (bno : Nat) : M Unit := do
  let bp ← bread rootdev bno
  setData bp fun _ => 0
  logWrite bp
  brelse bp

/-- The inner loop of `balloc`: a free block with its bit in bit map block `d`. -/
def ballocFind (d : Block) (b size : Nat) : Option Nat :=
  (List.range bpb).find? fun bi => decide (b + bi < size) && !d.bit bi

def ballocLoop : Nat → Nat → M Nat
  | 0, _ => return 0
  | fuel + 1, b => do
    let s ← get
    if b < s.sb.size then do
      let bp ← bread rootdev (b / bpb + s.sb.bmapstart)
      let s ← get
      let d := (s.buf bp).data
      match ballocFind d b s.sb.size with
      | some bi => do
        setData bp (d.setBit bi true)
        logWrite bp
        brelse bp
        bzero (b + bi)
        return b + bi
      | none => do
        brelse bp
        ballocLoop fuel (b + bpb)
    else
      return 0

def balloc : M Nat := do
  let s ← get
  ballocLoop (s.sb.size / bpb + 1) 0

def bfree (b : Nat) : M Unit := do
  let s ← get
  let bp ← bread rootdev (b / bpb + s.sb.bmapstart)
  let s ← get
  let d := (s.buf bp).data
  if d.bit (b % bpb) then do
    setData bp (d.setBit (b % bpb) false)
    logWrite bp
    brelse bp
  else
    throw .freeingFreeBlock

def iallocLoop (type : Nat) : Nat → Nat → M (Option Nat)
  | 0, _ => return none
  | fuel + 1, inum => do
    let s ← get
    if inum < s.sb.ninodes then do
      let bp ← bread rootdev (inum / ipb + s.sb.inodestart)
      let s ← get
      let d := (s.buf bp).data
      if (d.inode (inum % ipb)).type = 0 then do
        setData bp (d.setInode (inum % ipb) { type := type })
        logWrite bp
        brelse bp
        return some inum
      else do
        brelse bp
        iallocLoop type fuel (inum + 1)
    else
      return none

def ialloc (type : Nat) : M (Option Nat) := do
  let s ← get
  iallocLoop type s.sb.ninodes 1

def iupdate (inum : Nat) (ip : RawInode) : M Unit := do
  let s ← get
  let bp ← bread rootdev (inum / ipb + s.sb.inodestart)
  let s ← get
  setData bp ((s.buf bp).data.setInode (inum % ipb) ip)
  logWrite bp
  brelse bp

def ilock (inum : Nat) : M RawInode := do
  let s ← get
  let bp ← bread rootdev (inum / ipb + s.sb.inodestart)
  let s ← get
  let ip := (s.buf bp).data.inode (inum % ipb)
  brelse bp
  if ip.type = 0 then throw .ilockNoType else return ip

/-- `bmap`, the direct blocks and the block of the others. -/
def bmapSlot (ip : RawInode) (n : Nat) : M (RawInode × Nat) :=
  if ip.addrs n ≠ 0 then
    return (ip, ip.addrs n)
  else do
    let addr ← balloc
    if addr = 0 then return (ip, 0)
    else return ({ ip with addrs := Function.update ip.addrs n addr }, addr)

def bmapWord (ind bn : Nat) : M Nat := do
  let bp ← bread rootdev ind
  let s ← get
  let addr := (s.buf bp).data.word bn
  if addr ≠ 0 then do
    brelse bp
    return addr
  else do
    let addr ← balloc
    if addr = 0 then do
      brelse bp
      return 0
    else do
      let s ← get
      setData bp ((s.buf bp).data.setWord bn addr)
      logWrite bp
      brelse bp
      return addr

def bmap (ip : RawInode) (bn : Nat) : M (RawInode × Nat) :=
  if bn < ndirect then
    bmapSlot ip bn
  else if bn - ndirect < nindirect then do
    let (ip, ind) ← bmapSlot ip ndirect
    if ind = 0 then return (ip, 0)
    else do
      let addr ← bmapWord ind (bn - ndirect)
      return (ip, addr)
  else
    throw .bmapRange

def freeAddr (addr : Nat) : M Unit := if addr ≠ 0 then bfree addr else pure ()

/-- The part of `itrunc` for the blocks listed in block `addrs[NDIRECT]`. -/
def itruncIndirect (ip : RawInode) : M Unit :=
  if ip.addrs ndirect ≠ 0 then do
    let bp ← bread rootdev (ip.addrs ndirect)
    forRange (fun j => do
      let s ← get
      freeAddr ((s.buf bp).data.word j)) nindirect 0
    brelse bp
    bfree (ip.addrs ndirect)
  else
    pure ()

def itrunc (inum : Nat) (ip : RawInode) : M RawInode := do
  forRange (fun i => freeAddr (ip.addrs i)) ndirect 0
  itruncIndirect ip
  let ip := { ip with addrs := fun _ => 0, size := 0 }
  iupdate inum ip
  return ip

def readLoop (ok : Nat → Nat → Bool) (n : Nat) :
    Nat → RawInode → Nat → Nat → List Byte → M (RawInode × Int × List Byte)
  | 0, ip, tot, _, acc => return (ip, tot, acc)
  | fuel + 1, ip, tot, off, acc =>
    if tot < n then do
      let (ip, addr) ← bmap ip (off / bsize)
      if addr = 0 then
        return (ip, tot, acc)
      else do
        let bp ← bread rootdev addr
        let s ← get
        let d := (s.buf bp).data
        let m := min (n - tot) (bsize - off % bsize)
        brelse bp
        if ok tot m then
          readLoop ok n fuel ip (tot + m) (off + m) (acc ++ d.bytes (off % bsize) m)
        else
          return (ip, -1, acc)
    else
      return (ip, tot, acc)

def readi (ip : RawInode) (ok : Nat → Nat → Bool) (off n : Nat) :
    M (RawInode × Int × List Byte) :=
  if off > ip.size ∨ (off + n) % 2 ^ 32 < off then
    return (ip, 0, [])
  else if off + n > ip.size then
    readLoop ok (ip.size - off) (ip.size - off) ip 0 off []
  else
    readLoop ok n n ip 0 off []

/-- An iteration of `writei` on block `addr`: whether `either_copyin` succeeds. Where it fails, the
bytes before the one that cannot be read are in the buffer, and the buffer is released. -/
def writeChunk (src : Nat → Option Byte) (addr tot off m : Nat) : M Bool := do
  let bp ← bread rootdev addr
  let s ← get
  let k := Fs.copied src tot m
  setData bp ((s.buf bp).data.fill src tot (off % bsize) k)
  if k < m then do
    brelse bp
    return false
  else do
    logWrite bp
    brelse bp
    return true

/-- The loop of `writei`: the inode, and the final `tot` and `off`. -/
def writeLoop (src : Nat → Option Byte) (n : Nat) :
    Nat → RawInode → Nat → Nat → M (RawInode × Nat × Nat)
  | 0, ip, tot, off => return (ip, tot, off)
  | fuel + 1, ip, tot, off =>
    if tot < n then do
      let (ip, addr) ← bmap ip (off / bsize)
      if addr = 0 then
        return (ip, tot, off)
      else do
        let m := min (n - tot) (bsize - off % bsize)
        if ← writeChunk src addr tot off m then
          writeLoop src n fuel ip (tot + m) (off + m)
        else
          return (ip, tot, off)
    else
      return (ip, tot, off)

def writei (inum : Nat) (ip : RawInode) (src : Nat → Option Byte) (off n : Nat) :
    M (RawInode × Int) :=
  if off > ip.size ∨ (off + n) % 2 ^ 32 < off then
    return (ip, -1)
  else if off + n > maxfile * bsize then
    return (ip, -1)
  else do
    let (ip, tot, off') ← writeLoop src n n ip 0 off
    let ip := { ip with size := max ip.size off' }
    iupdate inum ip
    return (ip, tot)

/-- The functions above, as the rest of the file system calls them. -/
inductive Use where
  | balloc
  | bfree (b : Nat)
  | bzero (b : Nat)
  | ialloc (type : Nat)
  | iupdate (inum : Nat) (ip : RawInode)
  | ilock (inum : Nat)
  | bmap (ip : RawInode) (bn : Nat)
  | itrunc (inum : Nat) (ip : RawInode)
  | readi (ip : RawInode) (ok : Nat → Nat → Bool) (off n : Nat)
  | writei (inum : Nat) (ip : RawInode) (src : Nat → Option Byte) (off n : Nat)

def drop {α : Type} (m : M α) : M Unit := do
  let _ ← m
  return ()

def Use.run : Use → M Unit
  | .balloc => drop Bio.balloc
  | .bfree b => Bio.bfree b
  | .bzero b => Bio.bzero b
  | .ialloc type => drop (Bio.ialloc type)
  | .iupdate inum ip => Bio.iupdate inum ip
  | .ilock inum => drop (Bio.ilock inum)
  | .bmap ip bn => drop (Bio.bmap ip bn)
  | .itrunc inum ip => drop (Bio.itrunc inum ip)
  | .readi ip ok off n => drop (Bio.readi ip ok off n)
  | .writei inum ip src off n => drop (Bio.writei inum ip src off n)

end Xv6.Bio
