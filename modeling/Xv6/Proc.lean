import Mathlib.Algebra.Ring.Int.Defs
import Mathlib.Algebra.Ring.Nat
import Mathlib.Data.Fin.Basic
import Mathlib.Data.Int.DivMod
import Mathlib.Logic.Function.Basic

/-!
# Process records

`struct proc` of `kernel/proc.h` without its spin-lock, kernel context and file-system
fields, and the updates that the locked sections of `kernel/proc.c` make to one record. A
C `int` is an `Int` in `[-2^31, 2^31)`; `toInt32` is the conversion of a wider value.
-/

namespace Xv6

def nproc : Nat := 64

abbrev Slot := Fin nproc

theorem one_lt_nproc : 1 < nproc := by decide

/-- `initproc`: `userinit` gets the first slot from `allocproc`. -/
def initproc : Slot := ⟨0, by decide⟩

inductive ProcState where
  | unused | used | sleeping | runnable | running | zombie
  deriving DecidableEq, Repr

def toInt32 (x : Int) : Int := x.bmod (2 ^ 32)

theorem toInt32_of_range {x : Int} (h : -2 ^ 31 ≤ x) (h' : x < 2 ^ 31) : toInt32 x = x := by
  rw [toInt32, Int.bmod_eq_of_le] <;> omega

/-- `struct proc`. Pointers to pages and user addresses are numbers, `0` the null pointer. -/
structure Proc where
  state : ProcState := .unused
  chan : Nat := 0
  killed : Bool := false
  xstate : Int := 0
  pid : Int := 0
  createTime : Int := 0
  priority : Int := 0
  timesScheduled : Int := 0
  niceness : Int := 0
  tickets : Int := 0
  lastSlept : Int := 0
  lastScheduled : Int := 0
  timeSlept : Int := 0
  timeRun : Int := 0
  trace : Int := 0
  alarmFreq : Int := 0
  alarmHandler : BitVec 64 := 0
  lastAlarm : Int := 0
  alarmRunning : Bool := false
  parent : Option Slot := none
  sz : Nat := 0
  pagetable : Nat := 0
  trapframe : Nat := 0
  backupTrapFrame : Nat := 0
  rtime : Nat := 0
  ctime : Nat := 0
  etime : Nat := 0
  queue : Int := 0
  entryTime : Int := 0
  timeRanInQueue : Int := 0

namespace Proc

/-- The niceness that `yield` and `wakeup` compute from the two time counters. -/
def renice (p : Proc) : Proc :=
  if toInt32 (p.timeSlept + p.timeRun) ≠ 0 then
    { p with niceness := (toInt32 (10 * p.timeSlept)).tdiv (toInt32 (p.timeSlept + p.timeRun)) }
  else p

def yield (ticks : Nat) (p : Proc) : Proc :=
  renice { p with
    state := .runnable
    timeRun := toInt32 (p.timeRun + (ticks - p.lastScheduled))
    timeRanInQueue := toInt32 (p.timeRanInQueue + (ticks - p.lastScheduled)) }

def sleep (ticks : Nat) (chan : Nat) (p : Proc) : Proc :=
  { p with chan := chan, state := .sleeping, lastSlept := toInt32 ticks }

def exit (ticks : Nat) (status : Int) (p : Proc) : Proc :=
  { p with xstate := status, state := .zombie, etime := ticks }

/-- What `wakeup(chan)` does to one process other than the caller. -/
def wakeup (ticks : Nat) (chan : Nat) (p : Proc) : Proc :=
  if p.state = .sleeping ∧ p.chan = chan then
    { renice { p with
        state := .runnable
        timeSlept := toInt32 (p.timeSlept + (ticks - p.lastSlept)) } with lastSlept := -1 }
  else p

def kill (p : Proc) : Proc :=
  { p with killed := true, state := if p.state = .sleeping then .runnable else p.state }

/-- The assignments `allocproc` makes to the record of a free slot before it allocates
memory. -/
def allocate (ticks : Nat) (pid : Int) (p : Proc) : Proc :=
  { p with
    pid := pid, state := .used, createTime := toInt32 ticks, priority := 60
    timesScheduled := 0, trace := 0, tickets := 1, niceness := 5, lastSlept := -1
    lastScheduled := 0
    timeRun := 0, timeRanInQueue := 0, timeSlept := 0
    alarmFreq := 0, lastAlarm := 0, alarmRunning := false }

/-- The assignments `allocproc` makes after it has allocated the trapframe and the page
table. -/
def enterQueue (ticks : Nat) (p : Proc) : Proc :=
  { p with
    rtime := 0, etime := 0, ctime := ticks
    entryTime := toInt32 ticks, queue := 0, timeRanInQueue := 0 }

def free (p : Proc) : Proc :=
  { p with
    trapframe := 0, pagetable := 0, sz := 0, pid := 0, parent := none, chan := 0
    killed := false, xstate := 0, state := .unused }

def getDP (p : Proc) : Int :=
  let dp := toInt32 (p.priority - p.niceness + 5)
  let dp := if dp > 100 then 100 else dp
  if dp < 0 then 0 else dp

def updateTime (p : Proc) : Proc :=
  if p.state = .running then { p with rtime := (p.rtime + 1) % 2 ^ 32 } else p

def wtime (p : Proc) : Nat := ((p.etime - p.ctime - p.rtime : Int) % 2 ^ 32).toNat

/-- The updates of `sys_set_priority` to the process it names. -/
def setPriority (priority : Int) (p : Proc) : Proc :=
  { p with priority := priority, niceness := 5, timeRun := 0, timeSlept := 0 }

theorem renice_state (p : Proc) : p.renice.state = p.state := by unfold renice; split <;> rfl

theorem yield_state (ticks : Nat) (p : Proc) : (p.yield ticks).state = .runnable := renice_state _

theorem wakeup_state (ticks chan : Nat) (p : Proc) : (p.wakeup ticks chan).state = p.state ∨
      p.state = .sleeping ∧ (p.wakeup ticks chan).state = .runnable := by
  unfold wakeup
  split
  · next h => exact .inr ⟨h.1, renice_state _⟩
  · exact .inl rfl

theorem kill_state (p : Proc) :
    p.kill.state = p.state ∨ p.state = .sleeping ∧ p.kill.state = .runnable := by
  by_cases h : p.state = .sleeping
  · exact .inr ⟨h, if_pos h⟩
  · exact .inl (if_neg h)

theorem renice_eq (p : Proc) : ∃ x, p.renice = { p with niceness := x } := by
  unfold renice
  split
  · exact ⟨_, rfl⟩
  · exact ⟨p.niceness, rfl⟩

theorem yield_eq (ticks : Nat) (p : Proc) : ∃ x, p.yield ticks = { p with
    state := .runnable
    timeRun := toInt32 (p.timeRun + (ticks - p.lastScheduled))
    timeRanInQueue := toInt32 (p.timeRanInQueue + (ticks - p.lastScheduled))
    niceness := x } := by
  obtain ⟨x, hx⟩ := renice_eq { p with
    state := .runnable
    timeRun := toInt32 (p.timeRun + (ticks - p.lastScheduled))
    timeRanInQueue := toInt32 (p.timeRanInQueue + (ticks - p.lastScheduled)) }
  exact ⟨x, hx⟩

theorem wakeup_eq (ticks chan : Nat) (p : Proc) :
    p.wakeup ticks chan = p ∨ p.state = .sleeping ∧ p.chan = chan ∧ ∃ t x, p.wakeup ticks chan =
        { p with state := .runnable, timeSlept := t, niceness := x, lastSlept := -1 } := by
  unfold wakeup
  split
  · next h =>
    obtain ⟨x, hx⟩ := renice_eq { p with
      state := .runnable, timeSlept := toInt32 (p.timeSlept + (ticks - p.lastSlept)) }
    rw [hx]
    exact .inr ⟨h.1, h.2, _, x, rfl⟩
  · exact .inl rfl

theorem wakeup_sleeping {ticks chan : Nat} {p : Proc} (h : (p.wakeup ticks chan).state = .sleeping) :
    p.wakeup ticks chan = p ∧ p.chan ≠ chan := by
  unfold wakeup at h ⊢
  split at h
  · rw [renice_state] at h
    cases h
  · grind

theorem updateTime_eq (p : Proc) : ∃ t, p.updateTime = { p with rtime := t } := by
  unfold updateTime
  split
  · exact ⟨_, rfl⟩
  · exact ⟨p.rtime, rfl⟩

theorem updateTime_state (p : Proc) : p.updateTime.state = p.state := by
  unfold updateTime; split <;> rfl

end Proc

end Xv6
