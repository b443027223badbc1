import Xv6.Sched.OneCpu

/-!
# Runs by the clock

What each process has done with its time is kept in a ledger beside the run: when it was last
switched to, when it entered the queue it is in, and for how many ticks it has had the CPU
since then. The ledger follows the states that a process goes through; it does not look at the
fields in which the kernel does its own accounting.
-/

namespace Xv6.Sched

variable {n : Nat} {b : Build} {s s' : State n}
variable {c : Fin n}
variable {p p' : Proc}

/-- The state in which `main` calls `scheduler`: `userinit` has made the first process, and no
clock interrupt has been taken. -/
structure Booted (s : State n) : Prop extends Initial s where
  ticks : s.ticks = 0
  init : s.proc initproc = { (({} : Proc).allocate 0 1).enterQueue 0 with state := .runnable }
  unused : ∀ p, p ≠ initproc → s.proc p = {}

/-- What the clock showed when the process was last switched to and when it entered its queue,
and the ticks it has had the CPU in this queue up to the last time it gave it up. -/
structure Entry where
  dispatched : Nat := 0
  entered : Nat := 0
  ran : Int := 0

/-- A record change by which a process is created or moves to another queue. -/
def Enters (p p' : Proc) : Prop := p.state = .unused ∧ p'.state ≠ .unused ∨ p.queue ≠ p'.queue

def GetsCpu (p p' : Proc) : Prop := p.state ≠ .running ∧ p'.state = .running

/-- A record change by which a process gives up the CPU. -/
def LeavesCpu (p p' : Proc) : Prop := p.state = .running ∧ p'.state ≠ .running

instance (p p' : Proc) : Decidable (Enters p p') := inferInstanceAs (Decidable (_ ∨ _))
instance (p p' : Proc) : Decidable (GetsCpu p p') := inferInstanceAs (Decidable (_ ∧ _))
instance (p p' : Proc) : Decidable (LeavesCpu p p') := inferInstanceAs (Decidable (_ ∧ _))

/-- The entry of a process after a step at time `ticks` that changes its record from `p` to
`p'`. -/
def Entry.after (e : Entry) (ticks : Nat) (p p' : Proc) : Entry where
  dispatched := if GetsCpu p p' then ticks else e.dispatched
  entered := if Enters p p' then ticks else e.entered
  ran :=
    if Enters p p' then 0
    else if LeavesCpu p p' then e.ran + (ticks - e.dispatched)
    else e.ran

attribute [local simp] Entry.after

/-- The runs whose steps all satisfy `C`, with the ledger. -/
inductive Run (b : Build) (C : State n → State n → Prop) : State n → (Slot → Entry) → Prop where
  | boot {s : State n} (h : Booted s) : Run b C s fun _ => {}
  | step {s s' : State n} {g : Slot → Entry} (h : Run b C s g) (hs : Step b s s')
      (hc : C s s') : Run b C s' fun p => (g p).after s.ticks (s.proc p) (s'.proc p)

theorem Entry.after_self (e : Entry) (ticks : Nat) (p : Proc) : e.after ticks p p = e := by
  have h1 : ¬ Enters p p := by simp [Enters]
  have h2 : ¬ GetsCpu p p := by simp [GetsCpu]
  have h3 : ¬ LeavesCpu p p := by simp [LeavesCpu]
  simp [h1, h2, h3]

theorem Entry.after_dispatch (e : Entry) (ticks : Nat) (hs : p.state = .runnable)
    (hs' : p'.state = .running) (hq : p'.queue = p.queue) :
    e.after ticks p p' = { e with dispatched := ticks } := by
  simp [Enters, GetsCpu, LeavesCpu, hs, hs', hq]

theorem Entry.after_leave (e : Entry) (ticks : Nat) (hs : p.state = .running)
    (hs' : p'.state ≠ .running) (hq : p'.queue = p.queue) :
    e.after ticks p p' = { e with ran := e.ran + (ticks - e.dispatched) } := by
  simp [Enters, GetsCpu, LeavesCpu, hs, hs', hq]

theorem Entry.after_enter (e : Entry) (ticks : Nat) (h : Enters p p') (hs' : p'.state ≠ .running) :
    e.after ticks p p' = { e with entered := ticks, ran := 0 } := by
  simp [h, GetsCpu, hs']

theorem Run.inv {C : State n → State n → Prop} {g : Slot → Entry} (h : Run b C s g) : Inv s := by
  induction h with
  | boot h => exact h.toInitial.inv
  | step _ hs _ ih => exact ih.step hs

/-! ## What a step does to the records -/

/-- The updates that a step makes to the record of one process. -/
inductive Effect (b : Build) (s : State n) (q : Slot) : Proc → Prop where
  | dispatch (hs : (s.proc q).state = .runnable) : Effect b s q (dispatched b s.ticks (s.proc q))
  | dispatch4 (hs : (s.proc q).state = .runnable) (hq : (s.proc q).queue = 4) :
      Effect b s q (dispatched4 (s.proc q))
  | demote (c : Fin n) (hm : (s.cpu c).mode = .sched (.demote q)) (hl : s.lock q = none) :
      Effect b s q (demoteStep s.ticks (s.proc q))
  | age (c : Fin n) (hm : (s.cpu c).mode = .sched (.age q)) (hl : s.lock q = none) :
      Effect b s q (ageStep s.ticks (s.proc q))
  | yield (hs : (s.proc q).state = .running) : Effect b s q ((s.proc q).yield s.ticks)
  | sleep (chan : Nat) (hs : (s.proc q).state = .running) :
      Effect b s q ((s.proc q).sleep s.ticks chan)
  | exit (status : Int) (hs : (s.proc q).state = .running) :
      Effect b s q ((s.proc q).exit s.ticks status)
  | wakeup (chan : Nat) : Effect b s q ((s.proc q).wakeup s.ticks chan)
  | kill : Effect b s q (s.proc q).kill
  | allocproc (pid : Int) (hs : (s.proc q).state = .unused) :
      Effect b s q (((s.proc q).allocate s.ticks pid).enterQueue s.ticks)
  | allocFail (pid : Int) (hs : (s.proc q).state = .unused) :
      Effect b s q ((s.proc q).allocate s.ticks pid).free
  | forked (hs : (s.proc q).state = .used) : Effect b s q { s.proc q with state := .runnable }
  | reap (hs : (s.proc q).state = .zombie) : Effect b s q (s.proc q).free
  | setPriority (priority : Int) : Effect b s q ((s.proc q).setPriority priority)
  | settickets (tickets : Int) : Effect b s q { s.proc q with tickets := tickets }
  | updateTime : Effect b s q (s.proc q).updateTime

/-- A step leaves the records alone, possibly moving the clock, or updates one of them. -/
inductive Affects (b : Build) (s s' : State n) : Prop where
  | none (hp : s'.proc = s.proc) (ht : s'.ticks = s.ticks)
  | tick (hp : s'.proc = s.proc) (ht : s'.ticks = (s.ticks + 1) % 2 ^ 32)
  | one (q : Slot) (r : Proc) (he : Effect b s q r) (hp : s'.proc = Function.update s.proc q r)
      (ht : s'.ticks = s.ticks)

theorem Inv.running_of_thread (h : Inv s) {p : Slot} (hm : (s.cpu c).mode = .thread p .running) :
    (s.proc p).state = .running := by
  have hc := h.cpu c
  rw [hm] at hc
  exact hc.2.2.2.2

theorem SchedStep.affects (hs : SchedStep b c s s') : Affects b s s' := by
  cases hs with
  | rrRun i _ _ hr => exact .one i _ (.dispatch hr) rfl rfl
  | pickRun p _ _ hr => exact .one p _ (.dispatch hr) rfl rfl
  | drawRun _ w _ hr => exact .one w _ (.dispatch hr) rfl rfl
  | rr4Run i _ _ hr hq => exact .one i _ (.dispatch4 hr hq) rfl rfl
  | demote i hm hl => exact .one i _ (.demote c hm hl) rfl rfl
  | age i hm hl => exact .one i _ (.age c hm hl) rfl rfl
  | _ => exact .none rfl rfl

theorem ThreadStep.affects (h : Inv s) (hs : ThreadStep c s s') : Affects b s s' := by
  cases hs with
  | yield p hm => exact .one p _ (.yield (h.running_of_thread hm)) rfl rfl
  | sleep p chan hm => exact .one p _ (.sleep chan (h.running_of_thread hm)) rfl rfl
  | exit p status hm => exact .one p _ (.exit status (h.running_of_thread hm)) rfl rfl
  | release | swtch => exact .none rfl rfl

theorem SectionStep.affects (hs : SectionStep c s s') : Affects b s s' := by
  cases hs with
  | wakeup q chan => exact .one q _ (.wakeup chan) rfl rfl
  | kill q => exact .one q _ .kill rfl rfl
  | allocproc q pid _ hu => exact .one q _ (.allocproc pid hu) rfl rfl
  | allocFail q pid _ hu => exact .one q _ (.allocFail pid hu) rfl rfl
  | forked q _ hu => exact .one q _ (.forked hu) rfl rfl
  | reap q _ hz => exact .one q _ (.reap hz) rfl rfl
  | setPriority q priority => exact .one q _ (.setPriority priority) rfl rfl
  | settickets q tickets => exact .one q _ (.settickets tickets) rfl rfl
  | updateTime q => exact .one q _ .updateTime rfl rfl
  | clockintr => exact .tick rfl rfl

theorem Step.affects (h : Inv s) (hs : Step b s s') : Affects b s s' := by
  cases hs with
  | sched _ hc | locked _ hc => exact hc.affects
  | thread _ hc => exact hc.affects h

theorem Affects.proc (h : Affects b s s') (p : Slot) :
    s'.proc p = s.proc p ∧ (s'.ticks = s.ticks ∨ s'.ticks = (s.ticks + 1) % 2 ^ 32) ∨
      Effect b s p (s'.proc p) ∧ s'.ticks = s.ticks := by
  cases h with
  | none hp ht => exact .inl ⟨congrFun hp p, .inl ht⟩
  | tick hp ht => exact .inl ⟨congrFun hp p, .inr ht⟩
  | one q r he hp ht =>
    by_cases hpq : p = q
    · subst hpq
      rw [hp, Function.update_self]
      exact .inr ⟨he, ht⟩
    · rw [hp, Function.update_of_ne hpq]
      exact .inl ⟨rfl, .inl ht⟩

end Xv6.Sched
