import Xv6.Kernel
import Xv6.Sched

/-!
# Traps and system calls

`kernel/trap.c`, the system calls of `kernel/sysproc.c`, `syscall` of `kernel/syscall.c` and
the register save of `trampoline.S`, and from these the steps of a machine that runs any number
of processes. A step is a user instruction, the handling of a trap up to the point where the
thread may lose the CPU, or a step of another part of the kernel.
-/

namespace Xv6

open ByteMem

/-! ## System calls -/

def argint (p : Slot) (n : Nat) : K Int := do
  let w ← loadTf p (tfArg n)
  return toInt32 w.toNat

def argaddr (p : Slot) (n : Nat) : K Nat := do
  let w ← loadTf p (tfArg n)
  return w.toNat

/-- What a system call depends on outside the model: the file that `exec` finds, its arguments,
the value that an unmodelled call returns, and the stack that `sys_waitx` leaves uninitialised. -/
structure Outside where
  file : Option Inode := none
  argv : List (List Byte) := []
  ret : BitVec 64 := 0
  stack : Nat × Nat := (0, 0)

/-- The value a C function that returns `int` leaves in a `uint64`. -/
def ofInt64 (x : Int) : BitVec 64 := BitVec.ofInt 64 x

def sysWait (L : Layout) (p : Slot) : K (Option (BitVec 64)) := do
  let addr ← argaddr p 0
  match ← waitRound L p addr with
  | none => return none
  | some w => return some (ofInt64 w.ret)

/-- `sys_waitx` after `waitx`, with the times that are in its variables. -/
def copyTimes (L : Layout) (p : Slot) (addr1 addr2 : Nat) (times : Nat × Nat) (ret : Int) :
    K (Option (BitVec 64)) := do
  let r ← copyoutTo L p addr1 (intBytes times.2) 4
  if r < 0 then
    return some (ofInt64 (-1))
  else do
    let r ← copyoutTo L p addr2 (intBytes times.1) 4
    if r < 0 then
      return some (ofInt64 (-1))
    else
      return some (ofInt64 ret)

def sysWaitx (L : Layout) (p : Slot) (o : Outside) : K (Option (BitVec 64)) := do
  let addr ← argaddr p 0
  let addr1 ← argaddr p 1
  let addr2 ← argaddr p 2
  match ← waitRound L p addr with
  | none => return none
  | some w => copyTimes L p addr1 addr2 (w.times.getD o.stack) w.ret

def sysKill (p : Slot) : K (BitVec 64) := do
  let pid ← argint p 0
  let r ← kill pid
  return ofInt64 r

def sysExec (L : Layout) (p : Slot) (o : Outside) : K (BitVec 64) := do
  match o.file with
  | none => return ofInt64 (-1)
  | some ip => do
    let r ← exec L p ip o.argv
    return ofInt64 r

def sysSbrk (L : Layout) (p : Slot) : K (BitVec 64) := do
  let n ← argint p 0
  let k ← get
  let r ← growproc L p n
  if r < 0 then
    return ofInt64 (-1)
  else
    return BitVec.ofNat 64 (k.proc p).sz

def sysTrace (p : Slot) : K (BitVec 64) := do
  let mask ← argint p 0
  if mask < 2 then
    return ofInt64 (-1)
  else do
    setProc p fun q => { q with trace := mask }
    return 0

def sysSettickets (p : Slot) : K (BitVec 64) := do
  let tickets ← argint p 0
  if tickets < 1 then
    return ofInt64 (-1)
  else do
    setProc p fun q => { q with tickets := tickets }
    return 0

/-- `sys_set_priority`. The comparison is one of unsigned numbers. -/
def sysSetPriority (p : Slot) : K (BitVec 64) := do
  let priority ← argint p 0
  let pid ← argint p 1
  let found ← getProc pid
  let k ← get
  match found with
  | none => return ofInt64 (-1)
  | some q => do
    setProc q (Proc.setPriority priority)
    if (ofInt64 (k.proc q).priority).toNat > (ofInt64 priority).toNat then
      yield p
    else
      pure ()
    return ofInt64 (k.proc q).priority

def sysSigalarm (p : Slot) : K (BitVec 64) := do
  let interval ← argint p 0
  let handler ← loadTf p (tfArg 1)
  if interval ≤ 0 then do
    setProc p fun q => { q with alarmFreq := 0 }
    return ofInt64 (-1)
  else do
    setProc p fun q => { q with alarmFreq := interval, alarmHandler := handler, lastAlarm := 0 }
    return 0

/-- `sys_sigreturn`. Without a backup page `memmove` reads at address `0`, which the kernel does
not map. -/
def sysSigreturn (L : Layout) (p : Slot) : K (BitVec 64) := do
  setProc p fun q => { q with alarmRunning := false }
  let k ← get
  if (k.proc p).backupTrapFrame = 0 then
    throw .kerneltrap
  else do
    vm (memmove (k.proc p).trapframe (k.proc p).backupTrapFrame sizeofTrapframe)
    vm (kfree L (k.proc p).backupTrapFrame)
    loadTf p (tfArg 0)

inductive Sysno where
  | fork | exit | wait | kill | exec | sbrk | trace | settickets | setPriority | sigalarm
  | sigreturn | waitx
  /-- `pipe`, `read` or `fstat`, which write user memory -/
  | reading
  | other
  | unknown
  deriving DecidableEq

def Sysno.of (num : Int) : Sysno :=
  if num = 1 then .fork
  else if num = 2 then .exit
  else if num = 3 then .wait
  else if num = 4 ∨ num = 5 ∨ num = 8 then .reading
  else if num = 6 then .kill
  else if num = 7 then .exec
  else if num = 12 then .sbrk
  else if num = 22 then .trace
  else if num = 23 then .settickets
  else if num = 24 then .setPriority
  else if num = 25 then .sigalarm
  else if num = 26 then .sigreturn
  else if num = 27 then .waitx
  else if 0 < num ∧ num < 27 then .other
  else .unknown

/-- The call that process `p` asks for: `a7` of its trapframe. -/
def Kernel.sysno (k : Kernel) (p : Slot) : Sysno :=
  .of (toInt32 (load64 k.km.mem ((k.proc p).trapframe + tfArg 7)).toNat)

/-- `p->trapframe->a0 = ...`, and on to the end of `usertrap`. -/
def sysReturn (p : Slot) (w : BitVec 64) : K Unit := do
  storeTf p (tfArg 0) w
  setMode p .leave

/-- A call that may have put the process to sleep, to be tried again when it wakes up. -/
def sysResume (p : Slot) : Option (BitVec 64) → K Unit
  | none => pure ()
  | some w => sysReturn p w

def syscall (L : Layout) (p : Slot) (o : Outside) : K Unit := do
  let k ← get
  match k.sysno p with
  | .fork => do
    let r ← fork L p
    sysReturn p (ofInt64 r)
  | .exit => do
    let status ← argint p 0
    exit p status
  | .wait => do
    let r ← sysWait L p
    sysResume p r
  | .waitx => do
    let r ← sysWaitx L p o
    sysResume p r
  | .kill => do
    let r ← sysKill p
    sysReturn p r
  | .exec => do
    let r ← sysExec L p o
    sysReturn p r
  | .sbrk => do
    let r ← sysSbrk L p
    sysReturn p r
  | .trace => do
    let r ← sysTrace p
    sysReturn p r
  | .settickets => do
    let r ← sysSettickets p
    sysReturn p r
  | .setPriority => do
    let r ← sysSetPriority p
    sysReturn p r
  | .sigalarm => do
    let r ← sysSigalarm p
    sysReturn p r
  | .sigreturn => do
    let r ← sysSigreturn L p
    sysReturn p r
  | .reading => sysReturn p o.ret
  | .other => sysReturn p o.ret
  | .unknown => sysReturn p (ofInt64 (-1))

/-! ## Traps from user space -/

def regBytes (regs : Nat → BitVec 64) (i : Nat) : Byte :=
  BitVec.ofNat 8 ((regs (i / 8 + 1)).toNat / 256 ^ (i % 8))

def uservec (p : Slot) : K Unit := do
  let k ← get
  vm (memput ((k.proc p).trapframe + tfReg 1) (regBytes (k.user p).regs) 248)
  storeTf p tfEpc (k.user p).pc

/-- `usertrap` for a system call, up to the call of `syscall`. -/
def trapEcall (p : Slot) : K Unit := do
  uservec p
  let k ← get
  if (k.proc p).killed then
    exit p (-1)
  else do
    let epc ← loadTf p tfEpc
    storeTf p tfEpc (epc + 4)
    setMode p .syscall

def dieNow (p : Slot) : K Unit := do
  setProc p fun q => { q with killed := true }
  exit p (-1)

/-- `usertrap` for a store fault at `stval`. The comparison of an `int` with `MAXVA` never
holds. -/
def trapFault (L : Layout) (p : Slot) (stval : Nat) : K Unit := do
  uservec p
  let va := toInt32 stval
  if va = 0 then
    dieNow p
  else do
    let k ← get
    let pte ← vm (walk (k.proc p).pagetable (va % 2 ^ 64).toNat false)
    if pte = 0 then
      dieNow p
    else do
      let w ← vm (loadWord pte)
      if !hasFlag w pteW && !hasFlag w pteCow then
        dieNow p
      else if hasFlag w pteW || !hasFlag w pteU || !hasFlag w pteV then
        dieNow p
      else do
        record p (.faulted ((va % 2 ^ 64).toNat / pgsize))
        if ← vm (copyPage L pte) then
          setMode p .leave
        else
          dieNow p

/-- `usertrap` for an interrupt of a device other than the timer, or for another exception,
which kills the process. -/
def trapOther (p : Slot) (exception : Bool) : K Unit := do
  uservec p
  if exception then
    setProc p fun q => { q with killed := true }
  else
    pure ()
  setMode p .leave

def Proc.alarmDue (q : Proc) : Bool :=
  q.alarmFreq ≠ 0 && !q.alarmRunning && toInt32 (q.timeRun - q.lastAlarm) ≥ q.alarmFreq

/-- The alarm section of `usertrap`. Without memory `memmove` writes at address `0`. -/
def deliver (p : Slot) : K Unit := do
  let k ← get
  if (k.proc p).alarmDue then do
    let backup ← vm kalloc
    if backup = 0 then
      throw .kerneltrap
    else do
      vm (memmove backup (k.proc p).trapframe sizeofTrapframe)
      setProc p fun q => { q with
        alarmRunning := true, backupTrapFrame := backup, lastAlarm := q.timeRun }
      storeTf p tfEpc (k.proc p).alarmHandler
  else
    pure ()

/-- The builds in which a timer interrupt makes the process yield. -/
def Sched.Build.preempts : Sched.Build → Bool
  | .FCFS => false
  | .PBS => false
  | _ => true

def trapTimer (b : Sched.Build) (p : Slot) : K Unit := do
  uservec p
  let k ← get
  if (k.proc p).killed then
    exit p (-1)
  else do
    deliver p
    setMode p .ret
    if b.preempts then
      yield p
    else
      pure ()

/-- The last `killed(p)` of `usertrap` after a trap that was no timer interrupt. -/
def trapLeave (p : Slot) : K Unit := do
  let k ← get
  if (k.proc p).killed then
    exit p (-1)
  else
    setMode p .ret

def kstackTop (p : Slot) : Nat := trampolineVa - (p.val + 1) * 2 * pgsize + pgsize

def Kernel.userret (k : Kernel) (p : Slot) : User where
  mode := .user
  regs i := load64 k.km.mem ((k.proc p).trapframe + tfReg i)
  pc := load64 k.km.mem ((k.proc p).trapframe + tfEpc)

/-- `usertrapret` and `userret`, on the CPU with number `hartid`. -/
def usertrapret (L : Layout) (p : Slot) (hartid : BitVec 64) : K Unit := do
  storeTf p 0 L.satp
  storeTf p 8 (BitVec.ofNat 64 (kstackTop p))
  storeTf p 16 L.usertrap
  storeTf p 32 hartid
  modify fun k => { k with user := Function.update k.user p (k.userret p) }

/-! ## Steps -/

/-- The entry that the hardware finds for a virtual address, zero if there is none. -/
def leafPte (m : Mem) (pagetable va : Nat) : BitVec 64 :=
  if va ≥ maxva then 0
  else
    let root := load64 m (pagetable + 8 * px 2 va)
    if !hasFlag root pteV then 0
    else
      let mid := load64 m (pte2pa root + 8 * px 1 va)
      if !hasFlag mid pteV then 0
      else load64 m (pte2pa mid + 8 * px 0 va)

def storable (m : Mem) (pagetable va : Nat) : Bool :=
  let w := leafPte m pagetable va
  hasFlag w pteV && hasFlag w pteU && hasFlag w pteW

def clockintr : K Unit := modify fun k =>
  { k with
    ticks := (k.ticks + 1) % 2 ^ 32
    proc := wakeup ((k.ticks + 1) % 2 ^ 32) ticksChan none fun q => (k.proc q).updateTime }

inductive Op where
  | kalloc
  /-- kernel code frees one of its pages -/
  | kfree (pa : Nat)
  | tick
  /-- the scheduler switches to `p`, in MLFQ possibly from the last queue -/
  | dispatch (p : Slot) (last : Bool)
  | demote (p : Slot)
  | age (p : Slot)
  /-- a timer interrupt in the kernel -/
  | preempt (p : Slot)
  /-- an unmodelled system call sleeps -/
  | sleep (p : Slot) (chan : Nat)
  /-- unmodelled kernel code wakes processes up -/
  | wakeup (chan : Nat)
  /-- a user instruction that does not store -/
  | instr (p : Slot) (regs : Nat → BitVec 64) (pc : BitVec 64)
  /-- a user store that the hardware allows -/
  | store (p : Slot) (va : Nat) (b : Byte)
  | ecall (p : Slot)
  | fault (p : Slot) (va : Nat)
  | device (p : Slot)
  | exception (p : Slot)
  | timer (p : Slot)
  | syscall (p : Slot) (o : Outside)
  /-- a call of `copyout` by `pipe`, `read` or `fstat` -/
  | copyout (p : Slot) (dstva : Nat) (src : Nat → Byte) (len : Nat)
  | leave (p : Slot)
  | ret (p : Slot) (hartid : BitVec 64)

def Kernel.runs (k : Kernel) (p : Slot) (mode : Mode) : Bool :=
  (k.proc p).state = .running && (k.user p).mode = mode

def guarded (c : Kernel → Bool) (m : K Unit) : K Unit := do
  let k ← get
  if c k then m else pure ()

/-- What a step does. A step that cannot happen changes nothing. -/
def step (L : Layout) (b : Sched.Build) : Op → K Unit
  | .kalloc => do
    let pa ← vm kalloc
    if pa = 0 then
      pure ()
    else
      modify fun k => { k with pages := pa :: k.pages }
  | .kfree pa =>
    guarded (fun k => pa ∈ k.pages) do
      vm (kfree L pa)
      modify fun k => { k with pages := k.pages.erase pa }
  | .tick => clockintr
  | .dispatch p last =>
    guarded (fun k => (k.proc p).state = .runnable && (!last || b = .MLFQ)) do
      let k ← get
      setProc p (if last then Sched.dispatched4 else Sched.dispatched b k.ticks)
  | .demote p =>
    guarded (fun _ => b = .MLFQ) do
      let k ← get
      setProc p (Sched.demoteStep k.ticks)
  | .age p =>
    guarded (fun _ => b = .MLFQ) do
      let k ← get
      setProc p (Sched.ageStep k.ticks)
  | .preempt p => guarded (fun k => (k.runs p .syscall || k.runs p .leave) && b.preempts) (yield p)
  | .sleep p chan =>
    guarded (fun k => k.runs p .syscall && (k.sysno p = .reading || k.sysno p = .other))
      (sleep p chan)
  | .wakeup chan => modify fun k => { k with proc := wakeup k.ticks chan none k.proc }
  | .instr p regs pc =>
    guarded (fun k => k.runs p .user) do
      modify fun k => { k with user := Function.update k.user p ⟨.user, regs, pc⟩ }
  | .store p va b =>
    guarded (fun k => k.runs p .user && storable k.km.mem (k.proc p).pagetable va) do
      record p (.stored va)
      let k ← get
      vm (memput (pte2pa (leafPte k.km.mem (k.proc p).pagetable va) + va % pgsize) (fun _ => b) 1)
  | .ecall p => guarded (fun k => k.runs p .user) (trapEcall p)
  | .fault p va =>
    guarded (fun k => k.runs p .user && !storable k.km.mem (k.proc p).pagetable va)
      (trapFault L p va)
  | .device p => guarded (fun k => k.runs p .user) (trapOther p false)
  | .exception p => guarded (fun k => k.runs p .user) (trapOther p true)
  | .timer p => guarded (fun k => k.runs p .user) (trapTimer b p)
  | .syscall p o => guarded (fun k => k.runs p .syscall) (syscall L p o)
  | .copyout p dstva src len =>
    guarded (fun k => k.runs p .syscall && k.sysno p = .reading) do
      let _ ← copyoutTo L p dstva src len
  | .leave p => guarded (fun k => k.runs p .leave) (trapLeave p)
  | .ret p hartid => guarded (fun k => k.runs p .ret) (usertrapret L p hartid)

/-! ## Runs -/

/-- The kernel before `main`, with whatever is in memory. -/
def Kernel.initial (m : Mem) : Kernel where
  km := { mem := m, freelist := 0, refs := fun _ => 0 }

/-- `main`: `kinit`, the allocation of `n` pages by other code, `userinit`. -/
def boot (L : Layout) (b : Sched.Build) (n : Nat) : K Unit := do
  vm (kinit L)
  forRange (fun _ => step L b .kalloc) n 0
  userinit L

structure Step where
  pre : Kernel
  op : Op
  post : Kernel

/-- The runs of the machine, with the steps made so far, the latest one first. `userinit` does
not look at the result of `mappages`; a run starts with memory left over. -/
inductive Run (L : Layout) (b : Sched.Build) : List Step → Kernel → Prop where
  | boot {m : Mem} {n : Nat} {k : Kernel} (h : boot L b n (.initial m) = .ok ((), k))
      (hfree : k.km.freelist ≠ 0) : Run L b [] k
  | step {steps : List Step} {k k' : Kernel} {op : Op} (h : Run L b steps k)
      (hstep : step L b op k = .ok ((), k')) : Run L b (⟨k, op, k'⟩ :: steps) k'

end Xv6
