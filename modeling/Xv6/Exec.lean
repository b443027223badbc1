import Xv6.Vm

/-!
# Process images

`proc_pagetable` and `proc_freepagetable` of `kernel/proc.c`, and the part of `kernel/exec.c`
that builds the page table of a new image from an ELF file. A short read of `readi` is a read
past the size of the inode.
-/

namespace Xv6

open ByteMem

/-- `proc_pagetable`, for a process with its trapframe at `tf`. -/
def procPagetable (L : Layout) (tf : Nat) : Vm Nat := do
  let pagetable ← uvmcreate
  if pagetable = 0 then
    return 0
  else do
    let r ← mappages pagetable trampolineVa pgsize L.trampoline (pteR ||| pteX)
    if r < 0 then do
      uvmfree L pagetable 0
      return 0
    else do
      let r ← mappages pagetable trapframeVa pgsize tf (pteR ||| pteW)
      if r < 0 then do
        uvmunmap L pagetable trampolineVa 1 false
        uvmfree L pagetable 0
        return 0
      else
        return pagetable

def procFreepagetable (L : Layout) (pagetable sz : Nat) : Vm Unit := do
  uvmunmap L pagetable trampolineVa 1 false
  uvmunmap L pagetable trapframeVa 1 false
  uvmfree L pagetable sz

/-! ## ELF files -/

structure Inode where
  size : Nat
  data : Nat → Byte

/-- The number of bytes that `readi(ip, .., off, n)` reads. -/
def Inode.readi (ip : Inode) (off n : Nat) : Nat :=
  if off > ip.size ∨ off + n ≥ 2 ^ 32 then 0 else min n (ip.size - off)

def Inode.num (ip : Inode) : Nat → Nat → Nat
  | _, 0 => 0
  | off, n + 1 => (ip.data off).toNat + 256 * ip.num (off + 1) n

/-- `struct proghdr`, as far as it is looked at. -/
structure ProgHdr where
  type : Nat
  flags : Nat
  off : Nat
  vaddr : Nat
  filesz : Nat
  memsz : Nat

def Inode.progHdr (ip : Inode) (off : Nat) : ProgHdr where
  type := ip.num off 4
  flags := ip.num (off + 4) 4
  off := ip.num (off + 8) 8
  vaddr := ip.num (off + 16) 8
  filesz := ip.num (off + 32) 8
  memsz := ip.num (off + 40) 8

def flags2perm (flags : Nat) : BitVec 64 :=
  (if flags.testBit 0 then pteX else 0) ||| if flags.testBit 1 then pteW else 0

def loadsegLoop (pagetable va : Nat) (ip : Inode) (offset sz : Nat) : Nat → Nat → Vm Bool
  | 0, _ => return true
  | n + 1, i => do
    let pa ← walkaddr pagetable (va + i)
    if pa = 0 then
      throw .loadseg
    else do
      let n' := min (sz - i) pgsize
      let got := ip.readi ((offset + i) % 2 ^ 32) n'
      memput pa (fun j => ip.data ((offset + i) % 2 ^ 32 + j)) got
      if got ≠ n' then
        return false
      else
        loadsegLoop pagetable va ip offset sz n (i + pgsize)

def loadseg (pagetable va : Nat) (ip : Inode) (offset sz : Nat) : Vm Bool :=
  loadsegLoop pagetable va ip offset sz (pageCount 0 sz) 0

/-- The loop of `exec` over the program headers: whether it got through, and the size so
far. -/
def loadSegments (L : Layout) (pagetable : Nat) (ip : Inode) : Nat → Nat → Nat → Vm (Bool × Nat)
  | 0, _, sz => return (true, sz)
  | n + 1, off, sz =>
    if ip.readi off 56 ≠ 56 then
      return (false, sz)
    else
      let ph := ip.progHdr off
      if ph.type ≠ 1 then
        loadSegments L pagetable ip n ((off + 56) % 2 ^ 32) sz
      else if ph.memsz < ph.filesz then
        return (false, sz)
      else if (ph.vaddr + ph.memsz) % 2 ^ 64 < ph.vaddr then
        return (false, sz)
      else if ph.vaddr % pgsize ≠ 0 then
        return (false, sz)
      else do
        let sz1 ← uvmalloc L pagetable sz ((ph.vaddr + ph.memsz) % 2 ^ 64) (flags2perm ph.flags)
        if sz1 = 0 then
          return (false, sz)
        else do
          if ← loadseg pagetable ph.vaddr ip (ph.off % 2 ^ 32) (ph.filesz % 2 ^ 32) then
            loadSegments L pagetable ip n ((off + 56) % 2 ^ 32) sz1
          else
            return (false, sz1)

/-! ## The user stack -/

def maxarg : Nat := 32

def sub64 (a b : Nat) : Nat := (a + (2 ^ 64 - b % 2 ^ 64)) % 2 ^ 64

def pushDown (sp n : Nat) : Nat := sub64 sp n - sub64 sp n % 16

def strBytes (s : List Byte) (i : Nat) : Byte := s.getD i 0

def wordBytes (ws : List Nat) (i : Nat) : Byte := BitVec.ofNat 8 (ws.getD (i / 8) 0 / 256 ^ (i % 8))

/-- The loop of `exec` that pushes the argument strings: `argc`, `sp` and `ustack`. -/
def pushArgs (L : Layout) (pagetable stackbase : Nat) :
    List (List Byte) → Nat → Nat → List Nat → Vm (Option (Nat × Nat × List Nat))
  | [], argc, sp, ustack => return some (argc, sp, ustack)
  | s :: argv, argc, sp, ustack =>
    if argc ≥ maxarg then
      return none
    else
      let sp := pushDown sp (s.length + 1)
      if sp < stackbase then
        return none
      else do
        let r ← copyout L pagetable sp (strBytes s) (s.length + 1)
        if r < 0 then
          return none
        else
          pushArgs L pagetable stackbase argv (argc + 1) sp (ustack ++ [sp])

/-- The part of `exec` that allocates and fills the stack: `sp` and `argc`, unless it fails,
and the size of the image so far. -/
def buildStack (L : Layout) (pagetable sz : Nat) (argv : List (List Byte)) :
    Vm (Option (Nat × Nat) × Nat) := do
  let sz1 ← uvmalloc L pagetable sz ((sz + 2 * pgsize) % 2 ^ 64) pteW
  if sz1 = 0 then
    return (none, sz)
  else do
    uvmclear pagetable (sz1 - 2 * pgsize)
    match ← pushArgs L pagetable (sz1 - pgsize) argv 0 sz1 [] with
    | none => return (none, sz1)
    | some (argc, sp, ustack) =>
      let sp := pushDown sp ((argc + 1) * 8)
      if sp < sz1 - pgsize then
        return (none, sz1)
      else do
        let r ← copyout L pagetable sp (wordBytes (ustack ++ [0])) ((argc + 1) * 8)
        if r < 0 then
          return (none, sz1)
        else
          return (some (sp, argc), sz1)

structure NewImage where
  pagetable : Nat
  sz : Nat
  sp : Nat
  entry : Nat
  argc : Nat

/-- `exec` up to the commit: a new image, or none with everything freed again. -/
def execImage (L : Layout) (tf : Nat) (ip : Inode) (argv : List (List Byte)) :
    Vm (Option NewImage) := do
  if ip.readi 0 64 ≠ 64 then
    return none
  else if ip.num 0 4 ≠ 0x464C457F then
    return none
  else do
    let pagetable ← procPagetable L tf
    if pagetable = 0 then
      return none
    else do
      let loaded ← loadSegments L pagetable ip (ip.num 56 2) (ip.num 32 8 % 2 ^ 32) 0
      if !loaded.1 then do
        procFreepagetable L pagetable loaded.2
        return none
      else do
        match ← buildStack L pagetable (pgroundup loaded.2) argv with
        | (none, sz) => do
          procFreepagetable L pagetable sz
          return none
        | (some (sp, argc), sz) => return some ⟨pagetable, sz, sp, ip.num 24 8, argc⟩

end Xv6
