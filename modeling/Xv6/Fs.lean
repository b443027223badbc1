import Xv6.Misc.ByteMem
import Xv6.Misc.Wp
import Mathlib.Data.List.FinRange
import Mathlib.Logic.Function.Basic

/-!
# The file system

`kernel/fs.c`: the block allocator, inodes and their content, directories and path names. The
calls run one after the other, so the sleep-locks are left out, and so are the buffer cache and
the log: a block has the content that the kernel sees. The bit map and the inode area are arrays
of bits and of inodes; data blocks are bytes. Code that follows a wrong block or inode number
out of its area stops with `corrupt`.
-/

namespace Xv6.Fs

open ByteMem
open Function (update)

/-! ## The disk -/

def bsize : Nat := 1024

def ndirect : Nat := 12

def nindirect : Nat := 256

def maxfile : Nat := ndirect + nindirect

def dirsiz : Nat := 14

def direntSize : Nat := 16

def rootino : Nat := 1

def ninode : Nat := 50

/-- What `struct superblock` says about the layout: the number of blocks and of inodes, and the
first data block, which follows the bit map. -/
structure Super where
  size : Nat
  ninodes : Nat
  dataStart : Nat
  dataStart_pos : 0 < dataStart
  dataStart_le : dataStart ≤ size
  size_lt : size < 2 ^ 32
  rootino_lt : rootino < ninodes
  ninodes_le : ninodes ≤ 2 ^ 16

def Super.inData (sb : Super) (b : Nat) : Bool := sb.dataStart ≤ b && b < sb.size

inductive FileType where
  | free | dir | file | device
  deriving DecidableEq, Repr

/-- The value a `short` holds after it is assigned `x`. -/
def toInt16 (x : Int) : Int := x.bmod (2 ^ 16)

structure Dinode where
  type : FileType := .free
  major : Int := 0
  minor : Int := 0
  nlink : Int := 0
  size : Nat := 0
  addrs : Nat → Nat := fun _ => 0

structure Inode extends Dinode where
  inum : Nat := 0
  ref : Int := 0
  valid : Bool := false

abbrev Ip := Fin ninode

theorem ninode_pos : 0 < ninode := by decide

abbrev Block := Nat → Byte

def Block.word (d : Block) (j : Nat) : Nat :=
  (d (4 * j)).toNat + 256 * ((d (4 * j + 1)).toNat + 256 * ((d (4 * j + 2)).toNat +
    256 * (d (4 * j + 3)).toNat))

def Block.setWord (d : Block) (j w : Nat) : Block := fun x =>
  if 4 * j ≤ x ∧ x < 4 * j + 4 then BitVec.ofNat 8 (w / 256 ^ (x - 4 * j)) else d x

structure State where
  bitmap : Nat → Bool
  dinode : Nat → Dinode
  block : Nat → Block
  inode : Ip → Inode := fun _ => {}

/-- What stops a call: the calls of `panic`, and an access out of an area. -/
inductive Stop where
  | freeingFreeBlock
  | iget
  | ilock
  | ilockNoType
  | iunlock
  | bmapRange
  | dirlookupType
  | dirlookupRead
  | dirlinkRead
  | isdirempty
  | unlinkNlink
  | unlinkWritei
  | filedup
  | fileclose
  | fileread
  | filewrite
  /-- a block or inode number is out of its area -/
  | corrupt
  deriving DecidableEq, Repr

abbrev F := StateT State (Except Stop)

def setInode (ip : Ip) (f : Inode → Inode) : F Unit :=
  modify fun s => { s with inode := update s.inode ip (f (s.inode ip)) }

variable (sb : Super)

def bread (b : Nat) : F Block := do
  let s ← get
  if sb.inData b then return s.block b else throw .corrupt

def bwrite (b : Nat) (d : Block) : F Unit := do
  let s ← get
  if sb.inData b then set { s with block := update s.block b d } else throw .corrupt

/-! ## Blocks -/

def bzero (b : Nat) : F Unit := bwrite sb b fun _ => 0

def balloc : F Nat := do
  let s ← get
  match (List.range sb.size).find? fun b => !s.bitmap b with
  | none => return 0
  | some b => do
    set { s with bitmap := update s.bitmap b true }
    bzero sb b
    return b

def bfree (b : Nat) : F Unit := do
  let s ← get
  if sb.size ≤ b then
    throw .corrupt
  else if s.bitmap b then
    set { s with bitmap := update s.bitmap b false }
  else
    throw .freeingFreeBlock

/-! ## Inodes -/

def iupdate (ip : Ip) : F Unit := do
  let s ← get
  if (s.inode ip).inum < sb.ninodes then
    set { s with dinode := update s.dinode (s.inode ip).inum (s.inode ip).toDinode }
  else
    throw .corrupt

/-- Change the fields of an inode and write them to the disk with `iupdate`. -/
def isave (ip : Ip) (f : Inode → Inode) : F Unit := do
  setInode ip f
  iupdate sb ip

/-- The first entry of the inode table for which `f` holds. -/
def State.firstInode (s : State) (f : Inode → Bool) : Option Ip :=
  (List.finRange ninode).find? fun ip => f (s.inode ip)

def iget (inum : Nat) : F Ip := do
  let s ← get
  match s.firstInode fun i => 0 < i.ref && i.inum = inum with
  | some ip => do
    setInode ip fun i => { i with ref := i.ref + 1 }
    return ip
  | none =>
    match s.firstInode fun i => i.ref = 0 with
    | none => throw .iget
    | some ip => do
      setInode ip fun i => { i with inum := inum, ref := 1, valid := false }
      return ip

def ialloc (type : FileType) : F (Option Ip) := do
  let s ← get
  match (List.range sb.ninodes).find? fun inum => 1 ≤ inum && (s.dinode inum).type = .free with
  | none => return none
  | some inum => do
    set { s with dinode := update s.dinode inum { type := type } }
    let ip ← iget inum
    return some ip

def idup (ip : Ip) : F Ip := do
  setInode ip fun i => { i with ref := i.ref + 1 }
  return ip

def ilock (ip : Ip) : F Unit := do
  let s ← get
  if (s.inode ip).ref < 1 then
    throw .ilock
  else if (s.inode ip).valid then
    pure ()
  else if sb.ninodes ≤ (s.inode ip).inum then
    throw .corrupt
  else do
    setInode ip fun i => { i with toDinode := s.dinode i.inum, valid := true }
    if (s.dinode (s.inode ip).inum).type = .free then
      throw .ilockNoType
    else
      pure ()

def iunlock (ip : Ip) : F Unit := do
  let s ← get
  if (s.inode ip).ref < 1 then throw .iunlock else pure ()

/-- The address at `addrs[n]`, with a block that is allocated if there is none. -/
def bmapSlot (ip : Ip) (n : Nat) : F Nat := do
  let s ← get
  if (s.inode ip).addrs n = 0 then do
    let addr ← balloc sb
    if addr = 0 then
      return 0
    else do
      setInode ip fun i => { i with addrs := update i.addrs n addr }
      return addr
  else
    return (s.inode ip).addrs n

/-- The address at word `j` of an indirect block, with a block that is allocated if there is
none. -/
def bmapWord (ind j : Nat) : F Nat := do
  let a ← bread sb ind
  if a.word j = 0 then do
    let addr ← balloc sb
    if addr = 0 then
      return 0
    else do
      bwrite sb ind (a.setWord j addr)
      return addr
  else
    return a.word j

def bmap (ip : Ip) (bn : Nat) : F Nat :=
  if bn < ndirect then
    bmapSlot sb ip bn
  else if bn - ndirect < nindirect then do
    let ind ← bmapSlot sb ip ndirect
    if ind = 0 then return 0 else bmapWord sb ind (bn - ndirect)
  else
    throw .bmapRange

def itruncDirect (ip : Ip) (i : Nat) : F Unit := do
  let s ← get
  if (s.inode ip).addrs i = 0 then
    pure ()
  else do
    bfree sb ((s.inode ip).addrs i)
    setInode ip fun inode => { inode with addrs := update inode.addrs i 0 }

def itruncWord (a : Block) (j : Nat) : F Unit :=
  if a.word j = 0 then pure () else bfree sb (a.word j)

def itruncIndirect (ip : Ip) : F Unit := do
  let s ← get
  if (s.inode ip).addrs ndirect = 0 then
    pure ()
  else do
    let a ← bread sb ((s.inode ip).addrs ndirect)
    forRange (itruncWord sb a) nindirect 0
    bfree sb ((s.inode ip).addrs ndirect)
    setInode ip fun inode => { inode with addrs := update inode.addrs ndirect 0 }

def itrunc (ip : Ip) : F Unit := do
  forRange (itruncDirect sb ip) ndirect 0
  itruncIndirect sb ip
  isave sb ip fun inode => { inode with size := 0 }

/-- The part of `iput` that frees an inode on the disk. -/
def ifree (ip : Ip) : F Unit := do
  itrunc sb ip
  isave sb ip fun i => { i with type := .free }
  setInode ip fun i => { i with valid := false }

def iputFree (ip : Ip) : F Unit := do
  let s ← get
  if (s.inode ip).ref = 1 ∧ (s.inode ip).valid ∧ (s.inode ip).nlink = 0 then
    ifree sb ip
  else
    pure ()

def iput (ip : Ip) : F Unit := do
  iputFree sb ip
  setInode ip fun i => { i with ref := i.ref - 1 }

def iunlockput (ip : Ip) : F Unit := do
  iunlock ip
  iput sb ip

/-! ## Content -/

def Block.bytes (d : Block) (a m : Nat) : List Byte := (List.range m).map fun i => d (a + i)

/-- The loop of `readi`, with the bytes copied so far. `ok` says which copies to the destination
succeed. -/
def readLoop (ip : Ip) (ok : Nat → Nat → Bool) (n : Nat) :
    Nat → Nat → Nat → List Byte → F (Int × List Byte)
  | 0, tot, _, acc => return (tot, acc)
  | fuel + 1, tot, off, acc =>
    if tot < n then do
      let addr ← bmap sb ip (off / bsize)
      if addr = 0 then
        return (tot, acc)
      else do
        let d ← bread sb addr
        let m := min (n - tot) (bsize - off % bsize)
        if ok tot m then
          readLoop ip ok n fuel (tot + m) (off + m) (acc ++ d.bytes (off % bsize) m)
        else
          return (-1, acc)
    else
      return (tot, acc)

/-- `readi`: what it returns, and the bytes it copies. An iteration copies a byte at least. -/
def readi (ip : Ip) (ok : Nat → Nat → Bool) (off n : Nat) : F (Int × List Byte) := do
  let s ← get
  let size := (s.inode ip).size
  if off > size ∨ (off + n) % 2 ^ 32 < off then
    return (0, [])
  else if off + n > size then
    readLoop sb ip ok (size - off) (size - off) 0 off []
  else
    readLoop sb ip ok n n 0 off []

/-- The number of bytes of `[tot, tot + m)` that `copyin` copies before it fails. -/
def copied (src : Nat → Option Byte) (tot m : Nat) : Nat :=
  ((List.range m).find? fun i => (src (tot + i)).isNone).getD m

/-- Copy bytes `[tot, tot + m)` of the source to offset `a` of a block. -/
def Block.fill (d : Block) (src : Nat → Option Byte) (tot a m : Nat) : Block := fun x =>
  if a ≤ x ∧ x < a + m then (src (tot + (x - a))).getD 0 else d x

/-- `either_copyin` of a chunk of the source to a block: whether it succeeds. -/
def copyChunk (src : Nat → Option Byte) (addr tot off m : Nat) : F Bool := do
  let d ← bread sb addr
  bwrite sb addr (d.fill src tot (off % bsize) (copied src tot m))
  return copied src tot m = m

def writeLoop (ip : Ip) (src : Nat → Option Byte) (n : Nat) : Nat → Nat → Nat → F (Nat × Nat)
  | 0, tot, off => return (tot, off)
  | fuel + 1, tot, off =>
    if tot < n then do
      let addr ← bmap sb ip (off / bsize)
      if addr = 0 then
        return (tot, off)
      else do
        let m := min (n - tot) (bsize - off % bsize)
        if ← copyChunk sb src addr tot off m then
          writeLoop ip src n fuel (tot + m) (off + m)
        else
          return (tot, off)
    else
      return (tot, off)

/-- `writei`. Byte `i` of the source is `src i`, if it can be read. -/
def writei (ip : Ip) (src : Nat → Option Byte) (off n : Nat) : F Int := do
  let s ← get
  if off > (s.inode ip).size ∨ (off + n) % 2 ^ 32 < off then
    return -1
  else if off + n > maxfile * bsize then
    return -1
  else do
    let (tot, off') ← writeLoop sb ip src n n 0 off
    isave sb ip fun i => { i with size := max i.size off' }
    return tot

/-! ## Directories -/

abbrev Name := List Byte

/-- `struct dirent`, with the bytes of `name` up to a NUL. -/
structure Dirent where
  inum : Nat
  name : Name
  deriving DecidableEq

def Dirent.parse (bytes : List Byte) : Dirent where
  inum := (bytes.getD 0 0).toNat + 256 * (bytes.getD 1 0).toNat
  name := ((bytes.drop 2).take dirsiz).takeWhile (· ≠ 0)

/-- The bytes of a `struct dirent` to write: `strncpy` fills the name up with NULs. -/
def Dirent.bytes (de : Dirent) (i : Nat) : Byte :=
  if i = 0 then BitVec.ofNat 8 de.inum
  else if i = 1 then BitVec.ofNat 8 (de.inum / 256)
  else de.name.getD (i - 2) 0

def readDirent (dp : Ip) (off : Nat) (e : Stop) : F Dirent := do
  let (r, bytes) ← readi sb dp (fun _ _ => true) off direntSize
  if r ≠ direntSize then throw e else return Dirent.parse bytes

/-- The loop of `dirlookup`: the inode number and the offset of the entry. -/
def dirlookupLoop (dp : Ip) (name : Name) (size : Nat) : Nat → Nat → F (Option (Nat × Nat))
  | 0, _ => return none
  | fuel + 1, off =>
    if off < size then do
      let de ← readDirent sb dp off .dirlookupRead
      if de.inum ≠ 0 ∧ name = de.name then
        return some (de.inum, off)
      else
        dirlookupLoop dp name size fuel (off + direntSize)
    else
      return none

def dirlookup (dp : Ip) (name : Name) : F (Option (Ip × Nat)) := do
  let s ← get
  if (s.inode dp).type ≠ .dir then
    throw .dirlookupType
  else
    match ← dirlookupLoop sb dp name (s.inode dp).size (s.inode dp).size 0 with
    | none => return none
    | some (inum, off) => do
      let ip ← iget inum
      return some (ip, off)

/-- The loop of `dirlink` that looks for an empty entry. -/
def dirlinkLoop (dp : Ip) (size : Nat) : Nat → Nat → F Nat
  | 0, off => return off
  | fuel + 1, off =>
    if off < size then do
      let de ← readDirent sb dp off .dirlinkRead
      if de.inum = 0 then
        return off
      else
        dirlinkLoop dp size fuel (off + direntSize)
    else
      return off

def writeDirent (dp : Ip) (de : Dirent) (off : Nat) : F Int :=
  writei sb dp (fun i => some (de.bytes i)) off direntSize

def dirlink (dp : Ip) (name : Name) (inum : Nat) : F Int := do
  match ← dirlookup sb dp name with
  | some (ip, _) => do
    iput sb ip
    return -1
  | none => do
    let s ← get
    let off ← dirlinkLoop sb dp (s.inode dp).size (s.inode dp).size 0
    let r ← writeDirent sb dp { inum := inum, name := name } off
    if r ≠ direntSize then return -1 else return 0

/-! ## Path names -/

def slash : Byte := 47

/-- `skipelem`: the next element of a path, cut to `DIRSIZ` bytes, and the rest. -/
def skipelem (path : Name) : Option (Name × Name) :=
  match path.dropWhile (· = slash) with
  | [] => none
  | c :: rest =>
    some (((c :: rest).takeWhile (· ≠ slash)).take dirsiz,
      ((c :: rest).dropWhile (· ≠ slash)).dropWhile (· = slash))

/-- The loop of `namex`. An iteration takes a byte of the path at least. -/
def namexLoop (parent : Bool) : Nat → Ip → Name → F (Option (Ip × Name))
  | 0, _, _ => return none
  | fuel + 1, ip, path =>
    match skipelem path with
    | none =>
      if parent then do
        iput sb ip
        return none
      else
        return some (ip, [])
    | some (name, rest) => do
      ilock sb ip
      let s ← get
      if (s.inode ip).type ≠ .dir then do
        iunlockput sb ip
        return none
      else if parent && rest.isEmpty then do
        iunlock ip
        return some (ip, name)
      else
        match ← dirlookup sb ip name with
        | none => do
          iunlockput sb ip
          return none
        | some (next, _) => do
          iunlockput sb ip
          namexLoop parent fuel next rest

def namexStart (cwd : Ip) (path : Name) : F Ip :=
  if path.head? = some slash then iget rootino else idup cwd

/-- `namex`, in a process with current directory `cwd`. -/
def namex (cwd : Ip) (path : Name) (parent : Bool) : F (Option (Ip × Name)) := do
  let ip ← namexStart cwd path
  namexLoop sb parent (path.length + 1) ip path

def namei (cwd : Ip) (path : Name) : F (Option Ip) := do
  match ← namex sb cwd path false with
  | none => return none
  | some (ip, _) => return some ip

def nameiparent (cwd : Ip) (path : Name) : F (Option (Ip × Name)) := namex sb cwd path true

end Xv6.Fs
