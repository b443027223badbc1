import Xv6.Kernel
import Xv6.Sched

/-!
# `fork`, `exit` and `wait`

The protocol of `fork`, `reparent`, `exit`, `wait` and `waitx` of `kernel/proc.c` in every
interleaving of processes. A step is a section of code under one lock. `wait_lock` is held
across steps, and so is the lock of a process that has released `wait_lock` in `sleep` or in
`exit` and has not switched out yet.
-/

namespace Xv6.ExitWait

inductive Pos where
  /-- outside the functions of the protocol -/
  | user
  /-- in `fork`, has allocated the child `np` -/
  | forking (np : Slot)
  /-- in `fork`, has set `np->parent` -/
  | forked (np : Slot)
  | reparenting (i : Nat)
  /-- in `reparent` at process `i`, in `wakeup(initproc)` at process `j` -/
  | reparentWake (i j : Nat)
  /-- in `exit`, in `wakeup(p->parent)` at process `j` -/
  | exitWake (j : Nat)
  | leaving
  /-- has switched out for the last time -/
  | gone
  /-- in the loop of `wait` or `waitx`, at process `i` -/
  | scanning (i : Nat) (havekids : Bool)
  /-- in `sleep(p, &wait_lock)`, before `acquire(&p->lock)` -/
  | sleepCalled
  /-- in `sleep(p, &wait_lock)`, has `wait_lock` and `p->lock` -/
  | sleepLocked
  /-- in `sleep(p, &wait_lock)`, has `p->lock` only -/
  | sleepReleased
  /-- in `sleep(p, &wait_lock)`, switched out -/
  | asleep
  /-- at the end of `sleep(p, &wait_lock)`, before `acquire(lk)` -/
  | reacquire
  deriving DecidableEq

def Pos.holds : Pos → Bool
  | .reparenting _ | .reparentWake _ _ | .exitWake _ | .scanning _ _ | .sleepCalled
  | .sleepLocked => true
  | _ => false

def Pos.locked : Pos → Bool
  | .leaving | .sleepLocked | .sleepReleased => true
  | _ => false

/-- Interrupts are on, and a timer interrupt makes the process yield. -/
def Pos.preemptible : Pos → Bool
  | .user | .forking _ | .forked _ | .reacquire => true
  | _ => false

/-- A call of `exit`: the process, its pid and the status. -/
structure Exit where
  id : Nat
  pid : Int
  status : Int

/-- A call of `wait` or `waitx` that has freed a child: which one, the pid it returns, and the
status it has copied out if it was given an address. -/
structure Reap where
  id : Nat
  pid : Int
  status : Option Int
  deriving DecidableEq

/-- The state. A slot is used by one process after the other; `id` tells them apart. `exited`
and `reaped` are a record of the calls so far; no step looks at them. -/
structure State where
  proc : Slot → Proc
  pos : Slot → Pos
  waitLock : Option Slot := none
  id : Slot → Nat
  nextId : Nat
  exited : List Exit := []
  reaped : List Reap := []

namespace State

def goto (s : State) (p : Slot) (x : Pos) : State := { s with pos := Function.update s.pos p x }

def setProc (s : State) (p : Slot) (r : Proc) : State :=
  { s with proc := Function.update s.proc p r }

def runsAt (s : State) (p : Slot) (x : Pos) : Prop := (s.proc p).state = .running ∧ s.pos p = x

def free (s : State) (p : Slot) : Prop := (s.pos p).locked = false

end State

/-- The record of a process that `allocproc` has given its memory. -/
def allocated (ticks : Nat) (pid : Int) (trapframe pagetable sz : Nat) (r : Proc) : Proc :=
  { (r.allocate ticks pid).enterQueue ticks with
    trapframe := trapframe, pagetable := pagetable, sz := sz }

def Dispatched (old r : Proc) : Prop :=
  (∃ b ticks, r = Sched.dispatched b ticks old) ∨ r = Sched.dispatched4 old

/-- The steps of the protocol, and those of other code that can interfere with it. -/
inductive Step (s : State) : State → Prop where
  /-- the scheduler switches to a process -/
  | dispatch (p : Slot) (r : Proc) (hpos : (s.pos p).preemptible = true)
      (h : (s.proc p).state = .runnable) (hr : Dispatched (s.proc p) r) : Step s (s.setProc p r)
  | yield (p : Slot) (ticks : Nat) (hpos : (s.pos p).preemptible = true)
      (h : (s.proc p).state = .running) : Step s (s.setProc p ((s.proc p).yield ticks))
  | kill (p : Slot) (hlock : s.free p) : Step s (s.setProc p (s.proc p).kill)
  /-- an iteration of a `wakeup` by other code -/
  | wakeup (p : Slot) (ticks chan : Nat) (hlock : s.free p) :
      Step s (s.setProc p ((s.proc p).wakeup ticks chan))
  | sleep (p : Slot) (ticks chan : Nat) (h : s.runsAt p .user) :
      Step s (s.setProc p ((s.proc p).sleep ticks chan))
  /-- other code changes fields that the protocol does not look at -/
  | other (p : Slot) (r : Proc) (hstate : r.state = (s.proc p).state)
      (hchan : r.chan = (s.proc p).chan) (hparent : r.parent = (s.proc p).parent)
      (hpid : r.pid = (s.proc p).pid) (hxstate : r.xstate = (s.proc p).xstate)
      (hkilled : r.killed = (s.proc p).killed) : Step s (s.setProc p r)
  /-- `fork`: `allocproc` and the copy of the memory -/
  | forkAlloc (p np : Slot) (ticks : Nat) (pid : Int) (trapframe pagetable sz : Nat)
      (h : s.runsAt p .user) (hnp : (s.proc np).state = .unused) :
      Step s { ((s.setProc np (allocated ticks pid trapframe pagetable sz (s.proc np))).goto np
        .user).goto p (.forking np) with
          id := Function.update s.id np s.nextId, nextId := s.nextId + 1 }
  | forkFail (p np : Slot) (ticks : Nat) (pid : Int) (h : s.runsAt p .user)
      (hnp : (s.proc np).state = .unused) :
      Step s (s.setProc np ((s.proc np).allocate ticks pid).free)
  /-- `fork`: the section of `wait_lock` -/
  | forkParent (p np : Slot) (h : s.runsAt p (.forking np)) (hlk : s.waitLock = none) :
      Step s ((s.setProc np { s.proc np with
        parent := some p, trace := (s.proc p).trace, tickets := (s.proc p).tickets }).goto p
          (.forked np))
  /-- `fork`: the child becomes runnable -/
  | forkReady (p np : Slot) (h : s.runsAt p (.forked np)) (hlock : s.free np) :
      Step s ((s.setProc np { s.proc np with state := .runnable }).goto p .user)
  | exitLock (p : Slot) (h : s.runsAt p .user) (hp : p ≠ initproc) (hlk : s.waitLock = none) :
      Step s { s.goto p (.reparenting 0) with waitLock := some p }
  | reparentSkip (p i : Slot) (h : s.runsAt p (.reparenting i)) (hi : (s.proc i).parent ≠ some p) :
      Step s (s.goto p (.reparenting (i + 1)))
  | reparentChild (p i : Slot) (h : s.runsAt p (.reparenting i)) (hi : (s.proc i).parent = some p) :
      Step s ((s.setProc i { s.proc i with parent := some initproc }).goto p (.reparentWake i 0))
  | reparentWakeup (p j : Slot) (i ticks : Nat) (h : s.runsAt p (.reparentWake i j)) (hj : j ≠ p)
      (hlock : s.free j) :
      Step s ((s.setProc j ((s.proc j).wakeup ticks (procChan initproc))).goto p
        (.reparentWake i (j + 1)))
  | reparentWakeupSelf (p : Slot) (i : Nat) (h : s.runsAt p (.reparentWake i p)) :
      Step s (s.goto p (.reparentWake i (p + 1)))
  | reparentNext (p : Slot) (i : Nat) (h : s.runsAt p (.reparentWake i nproc)) :
      Step s (s.goto p (.reparenting (i + 1)))
  | reparentReturn (p : Slot) (h : s.runsAt p (.reparenting nproc)) : Step s (s.goto p (.exitWake 0))
  | exitWakeup (p j : Slot) (ticks : Nat) (h : s.runsAt p (.exitWake j)) (hj : j ≠ p)
      (hlock : s.free j) :
      Step s ((s.setProc j ((s.proc j).wakeup ticks (parentChan (s.proc p).parent))).goto p
        (.exitWake (j + 1)))
  | exitWakeupSelf (p : Slot) (h : s.runsAt p (.exitWake p)) : Step s (s.goto p (.exitWake (p + 1)))
  /-- `exit`: from `acquire(&p->lock)` to `release(&wait_lock)` -/
  | exitZombie (p : Slot) (ticks : Nat) (status : Int) (h : s.runsAt p (.exitWake nproc)) :
      Step s { (s.setProc p ((s.proc p).exit ticks status)).goto p .leaving with
        waitLock := none
        exited := ⟨s.id p, (s.proc p).pid, status⟩ :: s.exited }
  /-- `exit`: `sched`, and `release(&p->lock)` in the scheduler -/
  | exitSwitch (p : Slot) (h : s.pos p = .leaving) : Step s (s.goto p .gone)
  /-- `wait`: `acquire(&wait_lock)`, also at the end of `sleep` -/
  | waitLock (p : Slot) (h : s.runsAt p .user ∨ s.runsAt p .reacquire) (hlk : s.waitLock = none) :
      Step s { s.goto p (.scanning 0 false) with waitLock := some p }
  | scanSkip (p i : Slot) (havekids : Bool) (h : s.runsAt p (.scanning i havekids))
      (hi : (s.proc i).parent ≠ some p) : Step s (s.goto p (.scanning (i + 1) havekids))
  | scanChild (p i : Slot) (havekids : Bool) (h : s.runsAt p (.scanning i havekids))
      (hi : (s.proc i).parent = some p) (hlock : s.free i) (hz : (s.proc i).state ≠ .zombie) :
      Step s (s.goto p (.scanning (i + 1) true))
  /-- `wait` frees a child and returns its pid -/
  | scanReap (p i : Slot) (havekids addr : Bool) (h : s.runsAt p (.scanning i havekids))
      (hi : (s.proc i).parent = some p) (hlock : s.free i) (hz : (s.proc i).state = .zombie) :
      Step s { (s.setProc i (s.proc i).free).goto p .user with
        waitLock := none
        reaped := ⟨s.id i, (s.proc i).pid, if addr then some (s.proc i).xstate else none⟩ ::
          s.reaped }
  /-- `wait` cannot copy the status out -/
  | scanFail (p i : Slot) (havekids : Bool) (h : s.runsAt p (.scanning i havekids))
      (hi : (s.proc i).parent = some p) (hlock : s.free i) (hz : (s.proc i).state = .zombie) :
      Step s { s.goto p .user with waitLock := none }
  | waitFail (p : Slot) (havekids : Bool) (h : s.runsAt p (.scanning nproc havekids))
      (hk : havekids = false ∨ (s.proc p).killed = true) :
      Step s { s.goto p .user with waitLock := none }
  /-- `wait` calls `sleep(p, &wait_lock)` -/
  | waitSleep (p : Slot) (h : s.runsAt p (.scanning nproc true)) (hk : (s.proc p).killed = false) :
      Step s (s.goto p .sleepCalled)
  | sleepLock (p : Slot) (h : s.runsAt p .sleepCalled) : Step s (s.goto p .sleepLocked)
  | sleepRelease (p : Slot) (h : s.runsAt p .sleepLocked) :
      Step s { s.goto p .sleepReleased with waitLock := none }
  /-- the rest of `sleep` up to `sched`, and `release(&p->lock)` in the scheduler -/
  | sleepSwitch (p : Slot) (ticks : Nat) (h : s.runsAt p .sleepReleased) :
      Step s ((s.setProc p ((s.proc p).sleep ticks (procChan p))).goto p .asleep)
  /-- the scheduler switches to a process in `sleep`, which releases `p->lock` -/
  | resume (p : Slot) (r : Proc) (hpos : s.pos p = .asleep) (h : (s.proc p).state = .runnable)
      (hr : Dispatched (s.proc p) r) :
      Step s ((s.setProc p { r with chan := 0 }).goto p .reacquire)

/-- The state that `userinit` leaves: `initproc`, which has no parent, and free slots. -/
def boot (init : Proc) (unused : Slot → Proc) : State where
  proc := Function.update unused initproc init
  pos _ := .user
  id _ := 0
  nextId := 1

inductive Reachable : State → Prop where
  | boot {init : Proc} {unused : Slot → Proc} (hinit : init.state = .runnable)
      (hparent : init.parent = none)
      (hunused : ∀ q, (unused q).state = .unused ∧ (unused q).parent = none) :
      Reachable (boot init unused)
  | step {s s' : State} (h : Reachable s) (hs : Step s s') : Reachable s'

end Xv6.ExitWait
