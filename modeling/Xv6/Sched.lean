import Xv6.Proc
import Mathlib.Logic.Relation

/-!
# The scheduler

The five builds of `scheduler()` in `kernel/proc.c`, the hand-over of `p->lock` across
`swtch`, and the sections of `yield`, `sleep`, `exit`, `wakeup`, `kill`, `fork` and `wait`,
on any number of CPUs. A step is a section under a process lock that ends where it began, the
part of such a section up to a `swtch`, a `swtch`, or an iteration of a loop of `scheduler`.
-/

namespace Xv6.Sched

open Function (update)

/-- The value of `SCHEDULER` in the `Makefile`. -/
inductive Build where
  | RR | FCFS | LBS | PBS | MLFQ
  deriving DecidableEq

/-- Where `scheduler()` stands, with its local variables. A loop index runs over
`proc[NPROC]`. -/
inductive Pc where
  | top
  | rr (i : Nat)
  /-- the selection scan of FCFS and PBS, with the candidate so far -/
  | scan (i : Nat) (best : Option Slot)
  /-- about to lock the candidate of FCFS, PBS or MLFQ -/
  | pick (p : Slot)
  /-- LBS takes all locks and adds up the tickets -/
  | total (i : Nat) (totalTickets : Int)
  /-- LBS draws and drops the locks of the losers -/
  | draw (i : Nat) (random : Int) (winner : Option Slot)
  | demote (i : Nat)
  | age (i : Nat)
  /-- the scan of MLFQ over queue `q` -/
  | select (q i : Nat) (best : Option Slot)
  | rr4 (i : Nat)
  /-- about to `swtch` to `p`, to continue at `k` afterwards -/
  | swtch (p : Slot) (k : Pc)
  /-- back from `swtch`: `c->proc = 0` and release of `p->lock` are next -/
  | back (p : Slot) (k : Pc)
  deriving DecidableEq

/-- Where the kernel thread of a process stands relative to its own lock. -/
inductive ThreadPc where
  /-- returned from `swtch` (in `forkret` or after `sched`), `p->lock` still held -/
  | resumed
  /-- in user space or anywhere in the kernel outside a section of its own lock -/
  | running
  /-- state changed under `p->lock`, on the way through `sched` to `swtch` -/
  | leaving
  deriving DecidableEq

inductive Mode where
  | sched (pc : Pc)
  | thread (p : Slot) (pc : ThreadPc)
  deriving DecidableEq

/-- `struct cpu`, with the code the CPU is executing. `context` is where `scheduler` resumes
when a process switches back. -/
structure Cpu where
  proc : Option Slot
  context : Pc
  mode : Mode

/-- Where the registers of a process's kernel thread are: complete in `p->context`, or in a
CPU that has loaded them. -/
inductive Context (n : Nat) where
  | saved
  | live (c : Fin n)
  deriving DecidableEq

theorem neZero_one : NeZero 1 := ⟨by decide⟩

theorem neZero_two : NeZero 2 := ⟨by decide⟩

/-- The process table, the locks with the CPU that holds each, and the CPUs. -/
structure State (n : Nat) where
  proc : Slot → Proc
  lock : Slot → Option (Fin n)
  ctx : Slot → Context n
  cpu : Fin n → Cpu
  ticks : Nat

variable {n : Nat}

namespace State

def setProc (s : State n) (p : Slot) (r : Proc) : State n := { s with proc := update s.proc p r }

def setLock (s : State n) (p : Slot) (o : Option (Fin n)) : State n :=
  { s with lock := update s.lock p o }

def goto (s : State n) (c : Fin n) (m : Mode) : State n :=
  { s with cpu := update s.cpu c { s.cpu c with mode := m } }

def setCpuProc (s : State n) (c : Fin n) (o : Option Slot) : State n :=
  { s with cpu := update s.cpu c { s.cpu c with proc := o } }

end State

/-! ## The choices of the five builds -/

def Build.start : Build → Pc
  | .RR => .rr 0
  | .FCFS => .scan 0 none
  | .LBS => .total 0 0
  | .PBS => .scan 0 none
  | .MLFQ => .demote 0

/-- The comparison by which a RUNNABLE process replaces the candidate `q` of FCFS or PBS. -/
def Build.better : Build → Proc → Proc → Bool
  | .PBS, p, q =>
    if p.getDP < q.getDP then true
    else if p.getDP = q.getDP then
      if p.timesScheduled < q.timesScheduled then true
      else if p.timesScheduled = q.timesScheduled then p.createTime < q.createTime
      else false
    else false
  | _, p, q => p.createTime < q.createTime

/-- The candidate of FCFS and PBS after the visit to slot `i`. -/
def scanStep (b : Build) (proc : Slot → Proc) (i : Slot) (best : Option Slot) : Option Slot :=
  if (proc i).state = .runnable then
    match best with
    | none => some i
    | some m => if b.better (proc i) (proc m) then some i else some m
  else best

/-- The candidate of MLFQ for queue `q` after the visit to slot `i`. -/
def selectStep (proc : Slot → Proc) (q : Nat) (i : Slot) (best : Option Slot) : Option Slot :=
  if (proc i).state = .runnable ∧ (proc i).queue = q then
    match best with
    | none => some i
    | some m =>
      if (proc i).queue < (proc m).queue then some i
      else if (proc i).queue = (proc m).queue ∧ (proc i).entryTime < (proc m).entryTime then some i
      else some m
  else best

/-- The time slice the demotion pass allows in a queue. -/
def slice (queue : Int) : Int :=
  if queue = 0 then 1 else if queue = 1 then 2 else if queue = 2 then 4
  else if queue = 3 then 8 else 16

def demoteStep (ticks : Nat) (p : Proc) : Proc :=
  if (p.state = .running ∨ p.state = .runnable) ∧ p.timeRanInQueue ≥ slice p.queue ∧ p.queue < 4
  then { p with queue := p.queue + 1, entryTime := toInt32 ticks, timeRanInQueue := 0 }
  else p

/-- The waiting time after which `age` promotes out of a queue. -/
def ageLimit (queue : Int) : Int :=
  if queue = 1 then 40 else if queue = 2 then 30 else if queue = 3 then 25 else 20

def ageStep (ticks : Nat) (p : Proc) : Proc :=
  if (p.state = .runnable ∨ p.state = .sleeping) ∧ p.queue ≠ 0 ∧
      toInt32 (ticks - p.entryTime - p.timeRanInQueue) ≥ ageLimit p.queue
  then { p with queue := p.queue - 1, timeRanInQueue := 0, entryTime := toInt32 ticks }
  else p

/-- The updates to the record of a process that is about to be switched to. -/
def dispatched (b : Build) (ticks : Nat) (p : Proc) : Proc :=
  { p with
    state := .running
    lastScheduled := toInt32 ticks
    timesScheduled := if b = .PBS then toInt32 (p.timesScheduled + 1) else p.timesScheduled }

/-- The updates of the round-robin loop over queue 4, which leaves `lastScheduled` alone. -/
def dispatched4 (p : Proc) : Proc := { p with state := .running }

theorem demoteStep_state (ticks : Nat) (p : Proc) : (demoteStep ticks p).state = p.state := by
  unfold demoteStep; split <;> rfl

theorem ageStep_state (ticks : Nat) (p : Proc) : (ageStep ticks p).state = p.state := by
  unfold ageStep; split <;> rfl

/-- CPU `c` holds `p->lock` and found `p` RUNNABLE: up to the `swtch`. -/
def dispatch (s : State n) (c : Fin n) (p : Slot) (r : Proc) (k : Pc) : State n :=
  (((s.setProc p r).setLock p (some c)).setCpuProc c (some p)).goto c (.sched (.swtch p k))

/-- Where FCFS, PBS and MLFQ go with the outcome of a scan. -/
def afterScan : Option Slot → Pc
  | none => .top
  | some m => .pick m

/-- After the scan of queue `q`: run the candidate, go on to the next queue, or to the
round-robin loop. -/
def afterSelect (q : Nat) : Option Slot → Pc
  | some m => .pick m
  | none => if q < 3 then .select (q + 1) 0 none else .rr4 0

def totalStep (p : Proc) (totalTickets : Int) : Int :=
  if p.state = .runnable then toInt32 (totalTickets + p.tickets) else totalTickets

/-- The draw at slot `i`: the remaining count and the winner. -/
def drawStep (proc : Slot → Proc) (i : Slot) (random : Int) (winner : Option Slot) :
    Int × Option Slot :=
  if (proc i).state = .runnable ∧ winner = none then
    let random := toInt32 (random - (proc i).tickets)
    (random, if random < 0 then some i else none)
  else (random, winner)

/-! ## Steps -/

/-- The steps of CPU `c` inside `scheduler()`. `r` is the value `rand()` returns. -/
inductive SchedStep (b : Build) (c : Fin n) : State n → State n → Prop where
  | top (s : State n) : (s.cpu c).mode = .sched .top → SchedStep b c s (s.goto c (.sched b.start))
  | rrSkip (s : State n) (i : Slot) : (s.cpu c).mode = .sched (.rr i) → s.lock i = none →
      (s.proc i).state ≠ .runnable → SchedStep b c s (s.goto c (.sched (.rr (i + 1))))
  | rrRun (s : State n) (i : Slot) : (s.cpu c).mode = .sched (.rr i) → s.lock i = none →
      (s.proc i).state = .runnable →
      SchedStep b c s (dispatch s c i (dispatched b s.ticks (s.proc i)) (.rr (i + 1)))
  | rrEnd (s : State n) : (s.cpu c).mode = .sched (.rr nproc) →
      SchedStep b c s (s.goto c (.sched .top))
  | scan (s : State n) (i : Slot) (best : Option Slot) :
      (s.cpu c).mode = .sched (.scan i best) → s.lock i = none →
      SchedStep b c s (s.goto c (.sched (.scan (i + 1) (scanStep b s.proc i best))))
  | scanEnd (s : State n) (best : Option Slot) : (s.cpu c).mode = .sched (.scan nproc best) →
      SchedStep b c s (s.goto c (.sched (afterScan best)))
  | pickRun (s : State n) (p : Slot) : (s.cpu c).mode = .sched (.pick p) → s.lock p = none →
      (s.proc p).state = .runnable →
      SchedStep b c s (dispatch s c p (dispatched b s.ticks (s.proc p)) .top)
  | pickSkip (s : State n) (p : Slot) : (s.cpu c).mode = .sched (.pick p) → s.lock p = none →
      (s.proc p).state ≠ .runnable → SchedStep b c s (s.goto c (.sched .top))
  | total (s : State n) (i : Slot) (t : Int) : (s.cpu c).mode = .sched (.total i t) →
      s.lock i = none →
      SchedStep b c s ((s.setLock i (some c)).goto c
        (.sched (.total (i + 1) (totalStep (s.proc i) t))))
  | totalEnd (s : State n) (t : Int) (r : Nat) : (s.cpu c).mode = .sched (.total nproc t) →
      SchedStep b c s (s.goto c (.sched (.draw 0 (Int.tmod r t) none)))
  | drawKeep (s : State n) (i : Slot) (random : Int) (winner : Option Slot) :
      (s.cpu c).mode = .sched (.draw i random winner) →
      (drawStep s.proc i random winner).2 = some i →
      SchedStep b c s (s.goto c
        (.sched (.draw (i + 1) (drawStep s.proc i random winner).1 (some i))))
  | drawDrop (s : State n) (i : Slot) (random : Int) (winner : Option Slot) :
      (s.cpu c).mode = .sched (.draw i random winner) →
      (drawStep s.proc i random winner).2 ≠ some i →
      SchedStep b c s ((s.setLock i none).goto c
        (.sched (.draw (i + 1) (drawStep s.proc i random winner).1
          (drawStep s.proc i random winner).2)))
  | drawNone (s : State n) (random : Int) : (s.cpu c).mode = .sched (.draw nproc random none) →
      SchedStep b c s (s.goto c (.sched .top))
  | drawRun (s : State n) (random : Int) (w : Slot) :
      (s.cpu c).mode = .sched (.draw nproc random (some w)) → (s.proc w).state = .runnable →
      SchedStep b c s (dispatch s c w (dispatched b s.ticks (s.proc w)) .top)
  | drawSkip (s : State n) (random : Int) (w : Slot) :
      (s.cpu c).mode = .sched (.draw nproc random (some w)) → (s.proc w).state ≠ .runnable →
      SchedStep b c s ((s.setLock w none).goto c (.sched .top))
  | demote (s : State n) (i : Slot) : (s.cpu c).mode = .sched (.demote i) → s.lock i = none →
      SchedStep b c s ((s.setProc i (demoteStep s.ticks (s.proc i))).goto c
        (.sched (.demote (i + 1))))
  | demoteEnd (s : State n) : (s.cpu c).mode = .sched (.demote nproc) →
      SchedStep b c s (s.goto c (.sched (.age 0)))
  | age (s : State n) (i : Slot) : (s.cpu c).mode = .sched (.age i) → s.lock i = none →
      SchedStep b c s ((s.setProc i (ageStep s.ticks (s.proc i))).goto c (.sched (.age (i + 1))))
  | ageEnd (s : State n) : (s.cpu c).mode = .sched (.age nproc) →
      SchedStep b c s (s.goto c (.sched (.select 0 0 none)))
  | select (s : State n) (q : Nat) (i : Slot) (best : Option Slot) :
      (s.cpu c).mode = .sched (.select q i best) → s.lock i = none →
      SchedStep b c s (s.goto c (.sched (.select q (i + 1) (selectStep s.proc q i best))))
  | selectEnd (s : State n) (q : Nat) (best : Option Slot) :
      (s.cpu c).mode = .sched (.select q nproc best) →
      SchedStep b c s (s.goto c (.sched (afterSelect q best)))
  | rr4Skip (s : State n) (i : Slot) : (s.cpu c).mode = .sched (.rr4 i) → s.lock i = none →
      ¬ ((s.proc i).state = .runnable ∧ (s.proc i).queue = 4) →
      SchedStep b c s (s.goto c (.sched (.rr4 (i + 1))))
  | rr4Run (s : State n) (i : Slot) : (s.cpu c).mode = .sched (.rr4 i) → s.lock i = none →
      (s.proc i).state = .runnable → (s.proc i).queue = 4 →
      SchedStep b c s (dispatch s c i (dispatched4 (s.proc i)) (.rr4 (i + 1)))
  | rr4End (s : State n) : (s.cpu c).mode = .sched (.rr4 nproc) →
      SchedStep b c s (s.goto c (.sched .top))
  | swtch (s : State n) (p : Slot) (k : Pc) : (s.cpu c).mode = .sched (.swtch p k) →
      SchedStep b c s { s with
        ctx := update s.ctx p (.live c)
        cpu := update s.cpu c
          { s.cpu c with context := .back p k, mode := .thread p .resumed } }
  | back (s : State n) (p : Slot) (k : Pc) : (s.cpu c).mode = .sched (.back p k) →
      SchedStep b c s (((s.setCpuProc c none).setLock p none).goto c (.sched k))

/-- The steps of CPU `c` in the kernel thread of process `p` that involve `p`'s own lock. -/
inductive ThreadStep (c : Fin n) : State n → State n → Prop where
  | release (s : State n) (p : Slot) : (s.cpu c).mode = .thread p .resumed →
      ThreadStep c s ((s.setLock p none).goto c (.thread p .running))
  | yield (s : State n) (p : Slot) : (s.cpu c).mode = .thread p .running → s.lock p = none →
      ThreadStep c s (((s.setLock p (some c)).setProc p ((s.proc p).yield s.ticks)).goto c
        (.thread p .leaving))
  | sleep (s : State n) (p : Slot) (chan : Nat) : (s.cpu c).mode = .thread p .running →
      s.lock p = none →
      ThreadStep c s (((s.setLock p (some c)).setProc p ((s.proc p).sleep s.ticks chan)).goto c
        (.thread p .leaving))
  | exit (s : State n) (p : Slot) (status : Int) : (s.cpu c).mode = .thread p .running →
      s.lock p = none →
      ThreadStep c s (((s.setLock p (some c)).setProc p ((s.proc p).exit s.ticks status)).goto c
        (.thread p .leaving))
  | swtch (s : State n) (p : Slot) : (s.cpu c).mode = .thread p .leaving → ThreadStep c s { s with
        ctx := update s.ctx p .saved
        cpu := update s.cpu c { s.cpu c with mode := .sched (s.cpu c).context } }

/-- The locked sections on some process `q` that kernel code on CPU `c` can run: the loop
bodies of `wakeup`, `kill`, `wait` and `update_time`, the sections of `fork` on the new
process, and the field updates of the scheduling system calls. -/
inductive SectionStep (c : Fin n) : State n → State n → Prop where
  | wakeup (s : State n) (q : Slot) (chan : Nat) : s.lock q = none → (s.cpu c).proc ≠ some q →
      SectionStep c s (s.setProc q ((s.proc q).wakeup s.ticks chan))
  | kill (s : State n) (q : Slot) : s.lock q = none → SectionStep c s (s.setProc q (s.proc q).kill)
  | allocproc (s : State n) (q : Slot) (pid : Int) : s.lock q = none → (s.proc q).state = .unused →
      SectionStep c s { s.setProc q (((s.proc q).allocate s.ticks pid).enterQueue s.ticks) with
        ctx := update s.ctx q .saved }
  | allocFail (s : State n) (q : Slot) (pid : Int) : s.lock q = none → (s.proc q).state = .unused →
      SectionStep c s (s.setProc q ((s.proc q).allocate s.ticks pid).free)
  | forked (s : State n) (q : Slot) : s.lock q = none → (s.proc q).state = .used →
      SectionStep c s (s.setProc q { s.proc q with state := .runnable })
  | reap (s : State n) (q : Slot) : s.lock q = none → (s.proc q).state = .zombie →
      SectionStep c s (s.setProc q (s.proc q).free)
  | setPriority (s : State n) (q : Slot) (priority : Int) : s.lock q = none →
      SectionStep c s (s.setProc q ((s.proc q).setPriority priority))
  | settickets (s : State n) (q : Slot) (tickets : Int) : s.lock q = none →
      SectionStep c s (s.setProc q { s.proc q with tickets := tickets })
  | updateTime (s : State n) (q : Slot) : s.lock q = none →
      SectionStep c s (s.setProc q (s.proc q).updateTime)
  | clockintr (s : State n) : SectionStep c s { s with ticks := (s.ticks + 1) % 2 ^ 32 }

inductive Step (b : Build) : State n → State n → Prop where
  | sched {s s' : State n} (c : Fin n) : SchedStep b c s s' → Step b s s'
  | thread {s s' : State n} (c : Fin n) : ThreadStep c s s' → Step b s s'
  | locked {s s' : State n} (c : Fin n) : SectionStep c s s' → Step b s s'

/-- `userinit` has left `initproc` RUNNABLE, all other slots are UNUSED, and every CPU enters
`scheduler`. -/
structure Initial (s : State n) : Prop where
  proc : ∀ p, (s.proc p).state = if p = initproc then .runnable else .unused
  lock : ∀ p, s.lock p = none
  ctx : ∀ p, s.ctx p = .saved
  cpu : ∀ c, (s.cpu c).proc = none ∧ (s.cpu c).mode = .sched .top

def Reachable (b : Build) (s : State n) : Prop :=
  ∃ s₀, Initial s₀ ∧ Relation.ReflTransGen (Step b) s₀ s

end Xv6.Sched
