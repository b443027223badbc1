import Xv6.Exec
import Xv6.Proc

/-!
# Processes and their memory

The functions of `kernel/proc.c` that create, grow, replace and reap processes, on the whole
state of the kernel. Open files are left out, and so are the locks: the functions run one
after the other.
-/

namespace Xv6

open ByteMem
open Function (update)

/-- Where the thread of a process stands between two steps. -/
inductive Mode where
  | user
  /-- in `syscall`, called by `usertrap` -/
  | syscall
  /-- at the last `killed(p)` of `usertrap` -/
  | leave
  | ret
  deriving DecidableEq

/-- A thread, with the user registers `x1` to `x31` and the user program counter. -/
structure User where
  mode : Mode := .ret
  regs : Nat → BitVec 64 := fun _ => 0
  pc : BitVec 64 := 0

/-- An operation on the user memory of a process. -/
inductive Access where
  /-- pages `[lo, hi)` have been mapped -/
  | mapped (lo hi : Nat)
  /-- `uvmcopy` to the slot of a child is next -/
  | forked (child : Slot)
  /-- the copy of page `v` by the store-fault branch of `usertrap` is next -/
  | faulted (v : Nat)
  | copied (dstva len : Nat)
  | stored (va : Nat)

/-- An access, with the page table of the process and memory at that time. -/
structure Event where
  proc : Slot
  access : Access
  pagetable : Nat
  mem : Mem

/-- The state of the kernel. `pages` are the pages that kernel code other than the modelled one
has from `kalloc`: kernel stacks, pipes, arguments of `exec`. `log` is a record of the accesses
so far, the latest one first; no function looks at it. -/
structure Kernel where
  km : Kmem
  proc : Slot → Proc := fun _ => {}
  user : Slot → User := fun _ => {}
  pages : List Nat := []
  ticks : Nat := 0
  nextpid : Int := 1
  log : List Event := []

abbrev K := StateT Kernel (Except Panic)

def vm {α : Type} (m : Vm α) : K α := fun k =>
  match m k.km with
  | .ok (a, km) => .ok (a, { k with km := km })
  | .error e => .error e

def setProc (p : Slot) (f : Proc → Proc) : K Unit :=
  modify fun k => { k with proc := update k.proc p (f (k.proc p)) }

def setMode (p : Slot) (mode : Mode) : K Unit :=
  modify fun k => { k with user := update k.user p { k.user p with mode := mode } }

def record (p : Slot) (access : Access) : K Unit :=
  modify fun k => { k with log := ⟨p, access, (k.proc p).pagetable, k.km.mem⟩ :: k.log }

/-- The first slot of `proc[NPROC]` for which `f` holds. -/
def Kernel.first (k : Kernel) (f : Proc → Bool) : Option Slot :=
  (List.finRange nproc).find? fun p => f (k.proc p)

/-! ## The trapframe -/

def sizeofTrapframe : Nat := 288

def tfEpc : Nat := 24

def tfReg (i : Nat) : Nat := 32 + 8 * i

def tfSp : Nat := tfReg 2

def tfArg (n : Nat) : Nat := tfReg (10 + n)

def loadTf (p : Slot) (off : Nat) : K (BitVec 64) := do
  let k ← get
  vm (loadWord ((k.proc p).trapframe + off))

def storeTf (p : Slot) (off : Nat) (w : BitVec 64) : K Unit := do
  let k ← get
  vm (storeWord ((k.proc p).trapframe + off) w)

/-! ## Creation and removal -/

def freeproc (L : Layout) (p : Slot) : K Unit := do
  let k ← get
  if (k.proc p).trapframe ≠ 0 then
    vm (kfree L (k.proc p).trapframe)
  else
    pure ()
  if (k.proc p).pagetable ≠ 0 then
    vm (procFreepagetable L (k.proc p).pagetable (k.proc p).sz)
  else
    pure ()
  setProc p Proc.free

def allocproc (L : Layout) : K (Option Slot) := do
  let k ← get
  match k.first fun q => q.state = .unused with
  | none => return none
  | some p => do
    set { k with
      nextpid := toInt32 (k.nextpid + 1)
      proc := update k.proc p ((k.proc p).allocate k.ticks k.nextpid)
      user := update k.user p {} }
    let trapframe ← vm kalloc
    setProc p fun q => { q with trapframe := trapframe }
    if trapframe = 0 then do
      freeproc L p
      return none
    else do
      let pagetable ← vm (procPagetable L trapframe)
      setProc p fun q => { q with pagetable := pagetable }
      if pagetable = 0 then do
        freeproc L p
        return none
      else do
        setProc p (Proc.enterQueue k.ticks)
        return some p

def initcode : List Nat :=
  [0x17, 0x05, 0x00, 0x00, 0x13, 0x05, 0x45, 0x02, 0x97, 0x05, 0x00, 0x00, 0x93, 0x85, 0x35, 0x02,
   0x93, 0x08, 0x70, 0x00, 0x73, 0x00, 0x00, 0x00,
   0x93, 0x08, 0x20, 0x00, 0x73, 0x00, 0x00, 0x00,
   0xef, 0xf0, 0x9f, 0xff, 0x2f, 0x69, 0x6e, 0x69,
   0x74, 0x00, 0x00, 0x24, 0x00, 0x00, 0x00, 0x00,
   0x00, 0x00, 0x00, 0x00]

/-- `userinit`. Without a process it dereferences a null pointer. -/
def userinit (L : Layout) : K Unit := do
  match ← allocproc L with
  | none => throw .kerneltrap
  | some p => do
    let k ← get
    vm (uvmfirst (k.proc p).pagetable (fun i => BitVec.ofNat 8 (initcode.getD i 0)) initcode.length)
    setProc p fun q => { q with sz := pgsize }
    record p (.mapped 0 1)
    storeTf p tfEpc 0
    storeTf p tfSp (BitVec.ofNat 64 pgsize)
    setProc p fun q => { q with state := .runnable }

/-! ## `fork`, `exec` and `sbrk` -/

def growproc (L : Layout) (p : Slot) (n : Int) : K Int := do
  let k ← get
  if n > 0 then do
    let sz ← vm (uvmalloc L (k.proc p).pagetable (k.proc p).sz
      (((k.proc p).sz + n) % 2 ^ 64).toNat pteW)
    if sz = 0 then
      return -1
    else do
      setProc p fun q => { q with sz := sz }
      record p (.mapped (pgroundup (k.proc p).sz / pgsize) (pgroundup sz / pgsize))
      return 0
  else if n < 0 then do
    let sz ← vm (uvmdealloc L (k.proc p).pagetable (k.proc p).sz
      (((k.proc p).sz + n) % 2 ^ 64).toNat)
    setProc p fun q => { q with sz := sz }
    return 0
  else
    return 0

def fork (L : Layout) (p : Slot) : K Int := do
  match ← allocproc L with
  | none => return -1
  | some np => do
    let k ← get
    record p (.forked np)
    let r ← vm (uvmcopy L (k.proc p).pagetable (k.proc np).pagetable (k.proc p).sz)
    if r < 0 then do
      freeproc L np
      return -1
    else do
      setProc np fun q => { q with sz := (k.proc p).sz }
      vm (memmove (k.proc np).trapframe (k.proc p).trapframe sizeofTrapframe)
      storeTf np (tfArg 0) 0
      setProc np fun q => { q with
        parent := some p, trace := (k.proc p).trace, tickets := (k.proc p).tickets
        state := .runnable }
      return (k.proc np).pid

def exec (L : Layout) (p : Slot) (ip : Inode) (argv : List (List Byte)) : K Int := do
  let k ← get
  match ← vm (execImage L (k.proc p).trapframe ip argv) with
  | none => return -1
  | some image => do
    storeTf p (tfArg 1) (BitVec.ofNat 64 image.sp)
    setProc p fun q => { q with pagetable := image.pagetable, sz := image.sz }
    storeTf p tfEpc (BitVec.ofNat 64 image.entry)
    storeTf p tfSp (BitVec.ofNat 64 image.sp)
    vm (procFreepagetable L (k.proc p).pagetable (k.proc p).sz)
    record p (.mapped 0 (pgroundup image.sz / pgsize))
    return image.argc

/-! ## `sleep`, `wakeup` and `yield` -/

/-- The channel of processes that sleep on the record of `p`. Channel `0` is the null
pointer. -/
def procChan (p : Slot) : Nat := p.val + 1

def ticksChan : Nat := nproc + 1

def wakeup (ticks chan : Nat) (me : Option Slot) (proc : Slot → Proc) : Slot → Proc := fun q =>
  if some q = me then proc q else (proc q).wakeup ticks chan

def yield (p : Slot) : K Unit := do
  let k ← get
  setProc p (Proc.yield k.ticks)

def sleep (p : Slot) (chan : Nat) : K Unit := do
  let k ← get
  setProc p (Proc.sleep k.ticks chan)

/-! ## `exit` and `wait` -/

def reparentStep (ticks : Nat) (p : Slot) (proc : Slot → Proc) (q : Slot) : Slot → Proc :=
  if (proc q).parent = some p then
    wakeup ticks (procChan initproc) (some p)
      (update proc q { proc q with parent := some initproc })
  else proc

def reparent (ticks : Nat) (p : Slot) (proc : Slot → Proc) : Slot → Proc :=
  (List.finRange nproc).foldl (reparentStep ticks p) proc

def parentChan : Option Slot → Nat
  | none => 0
  | some q => procChan q

def exitTable (ticks : Nat) (p : Slot) (status : Int) (proc : Slot → Proc) : Slot → Proc :=
  let proc := reparent ticks p proc
  let proc := wakeup ticks (parentChan (proc p).parent) (some p) proc
  update proc p ((proc p).exit ticks status)

def exit (p : Slot) (status : Int) : K Unit :=
  if p = initproc then
    throw .initExiting
  else
    modify fun k => { k with proc := exitTable k.ticks p status k.proc }

def copyoutTo (L : Layout) (p : Slot) (dstva : Nat) (src : Nat → Byte) (len : Nat) : K Int := do
  record p (.copied dstva len)
  let k ← get
  vm (copyout L (k.proc p).pagetable dstva src len)

def intBytes (x : Int) (i : Nat) : Byte := BitVec.ofInt 8 (x / 256 ^ i)

def kill (pid : Int) : K Int := do
  let k ← get
  match k.first fun q => q.pid = pid with
  | none => return -1
  | some q => do
    setProc q Proc.kill
    return 0

def getProc (pid : Int) : K (Option Slot) := do
  let k ← get
  return k.first fun q => q.pid = pid

/-- What a call of `wait` or `waitx` returns, with `rtime` and `wtime` of the child if there is
one. -/
structure Waited where
  ret : Int
  times : Option (Nat × Nat) := none

/-- An iteration of `wait` and `waitx`; they differ in the times that `waitx` stores. No result
means that the process has gone to sleep. -/
def waitRound (L : Layout) (p : Slot) (addr : Nat) : K (Option Waited) := do
  let k ← get
  match k.first fun q => q.parent = some p ∧ q.state = .zombie with
  | some np => do
    let q := k.proc np
    let times := (q.rtime, ((q.etime - q.ctime - q.rtime : Int) % 2 ^ 32).toNat)
    let r ← if addr ≠ 0 then copyoutTo L p addr (intBytes q.xstate) 4 else pure 0
    if r < 0 then
      return some { ret := -1, times := times }
    else do
      freeproc L np
      return some { ret := q.pid, times := times }
  | none =>
    if (k.first fun q => q.parent = some p).isNone || (k.proc p).killed then
      return some { ret := -1 }
    else do
      sleep p (procChan p)
      return none

end Xv6
