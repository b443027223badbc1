import Xv6.Fs.Layout
import Xv6.Log
import Xv6.Sysfile

/-!
# mkfs

`mkfs/mkfs.c`, which writes a file system image on the host. The byte order of the host is that
of the kernel, so `xint` and `xshort` keep the bytes of a number. The image is a file of sectors
that starts empty; a sector that cannot be read, and an assertion that fails, end the run. What
`printf` shows is left out.
-/

namespace Xv6.Mkfs

open ByteMem
open Fs (Block RawInode Name Dirent bsize ndirect maxfile ipb dirsiz direntSize byteOf)

/-! ## The layout -/

def ninodes : Nat := 200

def fssize : Nat := 2000

def nbitmap : Nat := fssize / (bsize * 8) + 1

def ninodeblocks : Nat := ninodes / ipb + 1

def nlog : Nat := Log.logSize

def inodestart : Nat := 2 + nlog

def bmapstart : Nat := 2 + nlog + ninodeblocks

def nmeta : Nat := 2 + nlog + ninodeblocks + nbitmap

def nblocks : Nat := fssize - nmeta

def superblock : Block := fun x =>
  byteOf ([Fs.fsmagic, fssize, nblocks, ninodes, nlog, 2, inodestart, bmapstart].getD (x / 4) 0)
    (x % 4)

def tDir : Nat := 1

def tFile : Nat := 2

/-! ## Sectors -/

/-- The image, as long as `len` sectors, and the counters. -/
structure Img where
  sect : Nat → Block := fun _ _ => 0
  len : Nat := 0
  freeinode : Nat := 1
  freeblock : Nat := 0

inductive Exit where
  | read
  | openFile
  | rootino
  /-- `assert(index(shortname, '/') == 0)` -/
  | slash
  | maxfile
  | used
  deriving DecidableEq, Repr

abbrev M := StateT Img (Except Exit)

/-- The sector at offset `sec * BSIZE`, which is a `uint`. -/
def sector (sec : Nat) : Nat := sec % 2 ^ 22

def wsect (sec : Nat) (buf : Block) : M Unit :=
  modify fun g =>
    { g with
      sect := Function.update g.sect (sector sec) buf
      len := max g.len (sector sec + 1) }

def rsect (sec : Nat) : M Block := do
  let g ← get
  if sector sec < g.len then return g.sect (sector sec) else throw .read

/-! ## Inodes -/

def iblock (inum : Nat) : Nat := inum / ipb + inodestart

def winode (inum : Nat) (ip : RawInode) : M Unit := do
  let buf ← rsect (iblock inum)
  wsect (iblock inum) (buf.setInode (inum % ipb) ip)

def rinode (inum : Nat) : M RawInode := do
  let buf ← rsect (iblock inum)
  return buf.inode (inum % ipb)

def ialloc (type : Nat) : M Nat := do
  let g ← get
  set { g with freeinode := (g.freeinode + 1) % 2 ^ 32 }
  winode g.freeinode { type := type, nlink := 1 }
  return g.freeinode

def usedBits (used : Nat) : Block :=
  (List.range used).foldl (fun buf i => buf.setBit i true) fun _ => 0

def balloc (used : Nat) : M Unit :=
  if used < bsize * 8 then wsect bmapstart (usedBits used) else throw .used

def nextBlock : M Nat := do
  let g ← get
  set { g with freeblock := (g.freeblock + 1) % 2 ^ 32 }
  return g.freeblock

def mapSlot (din : RawInode) (n : Nat) : M RawInode :=
  if din.addrs n = 0 then do
    let b ← nextBlock
    return { din with addrs := Function.update din.addrs n b }
  else
    return din

/-- Word `j` of indirect block `ind`, with a block there. -/
def mapWord (ind j : Nat) : M Nat := do
  let indirect ← rsect ind
  if indirect.word j = 0 then do
    let b ← nextBlock
    wsect ind (indirect.setWord j b)
    return b
  else
    return indirect.word j

/-- The part of `iappend` that finds `x`, the block with number `fbn` of the file. -/
def mapBlock (din : RawInode) (fbn : Nat) : M (RawInode × Nat) :=
  if fbn < ndirect then do
    let din ← mapSlot din fbn
    return (din, din.addrs fbn)
  else do
    let din ← mapSlot din ndirect
    let x ← mapWord (din.addrs ndirect) (fbn - ndirect)
    return (din, x)

/-- The loop of `iappend`, with the bytes from `p` on. An iteration takes a byte at least. -/
def iappendLoop : Nat → RawInode → Nat → List Byte → M (RawInode × Nat)
  | 0, din, off, _ => return (din, off)
  | fuel + 1, din, off, p =>
    if p.length > 0 then
      if off / bsize < maxfile then do
        let (din, x) ← mapBlock din (off / bsize)
        let n1 := min p.length ((off / bsize + 1) * bsize - off)
        let buf ← rsect x
        wsect x (buf.fill (fun i => p[i]?) 0 (off - off / bsize * bsize) n1)
        iappendLoop fuel din (off + n1) (p.drop n1)
      else
        throw .maxfile
    else
      return (din, off)

def iappend (inum : Nat) (p : List Byte) : M Unit := do
  let din ← rinode inum
  let (din, off) ← iappendLoop p.length din din.size p
  winode inum { din with size := off }

/-! ## main -/

/-- An argument, and what `read` returns from the file until it has no more, if the file can be
opened. -/
structure File where
  arg : Name
  reads : Option (List (List Byte))
  arg_ne_zero : ∀ b ∈ arg, b ≠ 0
  length_reads : ∀ l ∈ reads, ∀ buf ∈ l, 0 < buf.length ∧ buf.length ≤ bsize

def user : Name := [117, 115, 101, 114, 47]

def underscore : Byte := 95

/-- `shortname`, where `main` asserts that it has no `/`. -/
def shortname (arg : Name) : Name := if arg.take 5 = user then arg.drop 5 else arg

/-- `shortname` where it is entered into the directory. -/
def filename (arg : Name) : Name :=
  if (shortname arg).head? = some underscore then (shortname arg).drop 1 else shortname arg

def direntBytes (de : Dirent) : List Byte := (List.range direntSize).map de.bytes

def appendReads (inum : Nat) : List (List Byte) → M Unit
  | [] => pure ()
  | buf :: l => do
    iappend inum buf
    appendReads inum l

/-- An iteration of the loop of `main` over the arguments. -/
def addFile (rootino : Nat) (f : File) : M Unit :=
  if Fs.slash ∈ shortname f.arg then
    throw .slash
  else
    match f.reads with
    | none => throw .openFile
    | some l => do
      let inum ← ialloc tFile
      iappend rootino (direntBytes { inum := inum, name := (filename f.arg).take dirsiz })
      appendReads inum l

def addFiles (rootino : Nat) : List File → M Unit
  | [] => pure ()
  | f :: files => do
    addFile rootino f
    addFiles rootino files

/-- The part of `main` that fixes the size of the root directory. -/
def fixRoot (rootino : Nat) : M Unit := do
  let din ← rinode rootino
  winode rootino { din with size := (din.size / bsize + 1) * bsize }

/-- The part of `main` after the superblock is written. -/
def addRoot (files : List File) : M Unit := do
  let rootino ← ialloc tDir
  if rootino = Fs.rootino then do
    iappend rootino (direntBytes { inum := rootino, name := Fs.dot })
    iappend rootino (direntBytes { inum := rootino, name := Fs.dotdot })
    addFiles rootino files
    fixRoot rootino
  else
    throw .rootino

/-- `main`, which has opened the image; `files` are the other arguments. -/
def main (files : List File) : M Unit := do
  modify fun g => { g with freeblock := nmeta }
  forRange (fun i => wsect i fun _ => 0) fssize 0
  wsect 1 superblock
  addRoot files
  let g ← get
  balloc g.freeblock

/-! ## The image in the kernel -/

def fileType : Nat → Fs.FileType
  | 0 => .free
  | 1 => .dir
  | 2 => .file
  | _ => .device

def dinode (r : RawInode) : Fs.Dinode where
  type := fileType r.type
  major := Fs.toInt16 r.major
  minor := Fs.toInt16 r.minor
  nlink := Fs.toInt16 r.nlink
  size := r.size
  addrs n := if n ≤ ndirect then r.addrs n else 0

/-- What the kernel finds on the disk with this image: its superblock is in block 1, and says
where inodes (`IBLOCK`) and bits (`BBLOCK`) are. No inode is in use. -/
def Img.disk (g : Img) : Fs.State where
  bitmap b := (g.sect (b / Fs.bpb + (g.sect 1).word 7)).bit (b % Fs.bpb)
  dinode i := dinode ((g.sect (i / ipb + (g.sect 1).word 6)).inode (i % ipb))
  block := g.sect

/-- The superblock of an image, with the data blocks after the bit map. -/
def super : Fs.Super where
  size := fssize
  ninodes := ninodes
  dataStart := nmeta
  dataStart_pos := by decide
  dataStart_le := by decide
  size_lt := by decide
  rootino_lt := by decide
  ninodes_le := by decide

end Xv6.Mkfs
