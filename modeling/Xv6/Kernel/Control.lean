import Xv6.Kernel.StepSpec

/-!
# The control state of the kernel

What the functions of `proc.c` and the alarm section of `usertrap` do to the scheduling state,
the pid, the `killed` flag, the charged time, the alarm and the tickets of every process,
whatever they do to memory. A call that panics is left out: the kernel has no state after it.
-/

namespace Xv6

open ByteMem
open Function (update update_of_ne update_self)

/-- The fields of a process that the results about scheduling, signals and alarms are about. -/
@[ext]
structure Gist where
  state : ProcState
  killed : Bool
  pid : Int
  timeRun : Int
  lastScheduled : Int
  alarmFreq : Int
  alarmHandler : BitVec 64
  lastAlarm : Int
  alarmRunning : Bool
  tickets : Int

def Proc.gist (p : Proc) : Gist where
  state := p.state
  killed := p.killed
  pid := p.pid
  timeRun := p.timeRun
  lastScheduled := p.lastScheduled
  alarmFreq := p.alarmFreq
  alarmHandler := p.alarmHandler
  lastAlarm := p.lastAlarm
  alarmRunning := p.alarmRunning
  tickets := p.tickets

namespace Gist

def yield (ticks : Nat) (g : Gist) : Gist :=
  { g with state := .runnable, timeRun := toInt32 (g.timeRun + (ticks - g.lastScheduled)) }

def kill (g : Gist) : Gist :=
  { g with killed := true, state := if g.state = .sleeping then .runnable else g.state }

def allocate (pid : Int) (g : Gist) : Gist :=
  { g with
    state := .used, pid := pid, lastScheduled := 0, timeRun := 0, alarmFreq := 0, lastAlarm := 0
    alarmRunning := false, tickets := 1 }

def free (g : Gist) : Gist := { g with state := .unused, pid := 0, killed := false }

def alarmDue (g : Gist) : Bool :=
  g.alarmFreq ≠ 0 && !g.alarmRunning && toInt32 (g.timeRun - g.lastAlarm) ≥ g.alarmFreq

def deliver (g : Gist) : Gist :=
  if g.alarmDue then { g with alarmRunning := true, lastAlarm := g.timeRun } else g

def sigalarm (interval : Int) (handler : BitVec 64) (g : Gist) : Gist :=
  if interval ≤ 0 then { g with alarmFreq := 0 }
  else { g with alarmFreq := interval, alarmHandler := handler, lastAlarm := 0 }

theorem deliver_eq (g : Gist) :
    ∃ r t, g.deliver = { g with alarmRunning := r, lastAlarm := t } := by
  unfold deliver
  split
  · exact ⟨_, _, rfl⟩
  · grind

theorem sigalarm_eq (g : Gist) (interval : Int) (handler : BitVec 64) :
    ∃ i h t, g.sigalarm interval handler =
      { g with alarmFreq := i, alarmHandler := h, lastAlarm := t } := by
  unfold sigalarm
  split
  · simp
  · exact ⟨interval, handler, 0, rfl⟩

theorem timed_state {g : Gist} {b : Sched.Build} {ticks : Nat} (h : g.state = .running) :
    (if b.preempts then g.deliver.yield ticks else g.deliver).state =
      if b.preempts then .runnable else .running := by
  split
  · rfl
  · obtain ⟨r, t, hg⟩ := g.deliver_eq
    rw [hg]
    exact h

end Gist

section Fields

variable (q : Proc)

@[simp]
theorem Proc.gist_state : q.gist.state = q.state := rfl

theorem Proc.gist_tickets : q.gist.tickets = q.tickets := rfl

@[simp]
theorem Proc.gist_kill : q.kill.gist = q.gist.kill := rfl

@[simp]
theorem Proc.gist_sleep (ticks chan : Nat) :
    (q.sleep ticks chan).gist = { q.gist with state := .sleeping } := rfl

@[simp]
theorem Proc.gist_exit (ticks : Nat) (status : Int) :
    (q.exit ticks status).gist = { q.gist with state := .zombie } := rfl

@[simp]
theorem Proc.gist_yield (ticks : Nat) : (q.yield ticks).gist = q.gist.yield ticks := by
  obtain ⟨x, hx⟩ := q.yield_eq ticks
  rw [hx]
  rfl

@[simp]
theorem Proc.gist_updateTime : q.updateTime.gist = q.gist := by
  obtain ⟨x, hx⟩ := q.updateTime_eq
  rw [hx]
  rfl

theorem Proc.gist_dispatched (b : Sched.Build) (ticks : Nat) : (Sched.dispatched b ticks q).gist =
      { q.gist with state := .running, lastScheduled := toInt32 ticks } := by
  simp [Sched.dispatched, Proc.gist]

theorem Proc.gist_demoteStep (ticks : Nat) : (Sched.demoteStep ticks q).gist = q.gist := by
  unfold Sched.demoteStep
  split <;> rfl

theorem Proc.gist_ageStep (ticks : Nat) : (Sched.ageStep ticks q).gist = q.gist := by
  unfold Sched.ageStep
  split <;> rfl

end Fields

def Gist.Woken (g g' : Gist) : Prop :=
  g' = g ∨ g.state = .sleeping ∧ g' = { g with state := .runnable }

theorem Gist.Woken.trans {g g1 g2 : Gist} (h : g.Woken g1) (h' : g1.Woken g2) : g.Woken g2 := by
  obtain rfl | ⟨hs, rfl⟩ := h
  · exact h'
  · obtain rfl | ⟨hs', -⟩ := h'
    · exact .inr ⟨hs, rfl⟩
    · cases hs'

theorem Proc.woken_wakeup (q : Proc) (ticks chan : Nat) :
    q.gist.Woken (q.wakeup ticks chan).gist := by
  obtain h | ⟨hs, -, t, x, h⟩ := q.wakeup_eq ticks chan
  · rw [h]
    exact .inl rfl
  · rw [h]
    exact .inr ⟨hs, rfl⟩

/-! ## The control state -/

@[ext]
structure Core where
  gist : Slot → Gist
  ticks : Nat
  nextpid : Int

def Kernel.core (k : Kernel) : Core := ⟨fun q => (k.proc q).gist, k.ticks, k.nextpid⟩

@[simp]
theorem Kernel.core_gist (k : Kernel) (q : Slot) : k.core.gist q = (k.proc q).gist := rfl

def Core.set (c : Core) (p : Slot) (g : Gist) : Core := { c with gist := update c.gist p g }

attribute [local simp] Core.set

variable {L : Layout} {k k' : Kernel} {p q : Slot} {α β : Type}

theorem Kernel.core_setProc (k : Kernel) (p : Slot) (r : Proc) :
    { k with proc := update k.proc p r }.core = k.core.set p r.gist := by
  ext q : 2
  · by_cases h : q = p
    · subst h
      simp [Kernel.core]
    · simp [Kernel.core, h]
  · rfl
  · rfl

theorem Core.set_self (c : Core) (p : Slot) : c.set p (c.gist p) = c := by simp

@[simp]
theorem Core.set_gist_self (c : Core) (p : Slot) (g : Gist) : (c.set p g).gist p = g := by simp

theorem Core.set_gist_ne (c : Core) (g : Gist) (h : q ≠ p) : (c.set p g).gist q = c.gist q := by
  simp [h]

@[simp]
theorem Core.set_set (c : Core) (p : Slot) (g g' : Gist) : (c.set p g).set p g' = c.set p g' := by
  simp

/-- When `m` returns, the control states before and after it are related by `R`. -/
structure Moves (R : Core → Core → Prop) (m : K α) : Prop where
  run : ∀ k, Wp (fun _ => True) m k fun _ k' => R k.core k'.core

abbrev Keeps (m : K α) : Prop := Moves (fun c c' => c' = c) m

section Rules

variable {R S : Core → Core → Prop} {m : K α} {f : α → K β}

theorem Moves.mono (h : Moves R m) (hRS : ∀ c c', R c c' → S c c') : Moves S m :=
  ⟨fun k => (h.run k).mono fun _ _ hR => hRS _ _ hR⟩

theorem Keeps.pure (a : α) : Keeps (pure a : K α) := ⟨fun _ => .pure rfl⟩

theorem Keeps.get : Keeps (get : K Kernel) := ⟨fun _ => .get rfl⟩

theorem Keeps.bind (h : Keeps m) (hf : ∀ a, Moves R (f a)) : Moves R (m >>= f) := by
  constructor
  intro k
  refine (h.run k).seq fun a k1 h1 => ?_
  rw [← h1]
  exact (hf a).run k1

theorem Moves.bind (h : Moves R m) (hf : ∀ a, Keeps (f a)) : Moves R (m >>= f) := by
  constructor
  intro k
  refine (h.run k).seq fun a k1 h1 => ((hf a).run k1).mono fun _ k2 h2 => ?_
  rw [h2]
  exact h1

theorem Moves.get {f : Kernel → K β}
    (h : ∀ k, Wp (fun _ => True) (f k) k fun _ k' => R k.core k'.core) :
    Moves R (MonadState.get >>= f) :=
  ⟨fun k => .bind (.get (h k))⟩

theorem Moves.ite {c : Prop} [Decidable c] {m' : K α} (h : Moves R m) (h' : Moves R m') :
    Moves R (if c then m else m') := by
  split
  · exact h
  · exact h'

theorem Moves.throw (e : Panic) : Moves R (MonadExcept.throw e : K α) := ⟨fun _ => Wp.throw trivial⟩

theorem Keeps.vm (m : Vm α) : Keeps (vm m) := by
  constructor
  intro k
  apply Wp.vm
  unfold Wp
  cases m k.km with
  | ok => exact rfl
  | error => exact trivial

theorem Moves.setProc {f : Proc → Proc}
    (h : ∀ k : Kernel, R k.core (k.core.set p (f (k.proc p)).gist)) : Moves R (setProc p f) := by
  constructor
  intro k
  apply Wp.setProc
  rw [Kernel.core_setProc]
  exact h k

theorem Keeps.setProc {f : Proc → Proc} (hf : ∀ r, (f r).gist = r.gist) : Keeps (setProc p f) := by
  apply Moves.setProc
  intro k
  rw [hf]
  exact Core.set_self _ p

theorem Keeps.setMode (mode : Mode) : Keeps (setMode p mode) := ⟨fun _ => Wp.setMode rfl⟩

theorem Keeps.record (a : Access) : Keeps (record p a) := ⟨fun _ => Wp.record rfl⟩

theorem Keeps.loadTf (off : Nat) : Keeps (loadTf p off) := ⟨fun _ => Wp.loadTf rfl⟩

theorem Keeps.storeTf (off : Nat) (w : BitVec 64) : Keeps (storeTf p off w) :=
  ⟨fun _ => Wp.storeTf rfl⟩

end Rules

/-! ## Code that leaves the control state alone -/

theorem uservec_keeps : Keeps (uservec p) := by
  refine Keeps.get.bind fun k => ?_
  exact (Keeps.vm _).bind fun _ => Keeps.storeTf _ _

theorem copyoutTo_keeps (dstva : Nat) (src : Nat → Byte) (len : Nat) :
    Keeps (copyoutTo L p dstva src len) := by
  refine (Keeps.record _).bind fun _ => ?_
  exact Keeps.get.bind fun k => Keeps.vm _

theorem growproc_keeps (n : Int) : Keeps (growproc L p n) := by
  refine Keeps.get.bind fun k => ?_
  apply Moves.ite
  · refine (Keeps.vm _).bind fun sz => .ite (Keeps.pure _) ?_
    refine (Keeps.setProc fun _ => by rfl).bind fun _ => ?_
    exact (Keeps.record _).bind fun _ => Keeps.pure _
  · refine .ite ?_ (Keeps.pure _)
    refine (Keeps.vm _).bind fun sz => ?_
    exact (Keeps.setProc fun _ => by rfl).bind fun _ => Keeps.pure _

theorem exec_keeps (ip : Inode) (argv : List (List Byte)) : Keeps (exec L p ip argv) := by
  refine Keeps.get.bind fun k => ?_
  refine (Keeps.vm _).bind fun image => ?_
  cases image with
  | none => exact Keeps.pure _
  | some =>
    refine (Keeps.storeTf _ _).bind fun _ => ?_
    refine (Keeps.setProc fun _ => by rfl).bind fun _ => ?_
    refine (Keeps.storeTf _ _).bind fun _ => ?_
    refine (Keeps.storeTf _ _).bind fun _ => ?_
    refine (Keeps.vm _).bind fun _ => ?_
    exact (Keeps.record _).bind fun _ => Keeps.pure _

theorem sysReturn_keeps (w : BitVec 64) : Keeps (sysReturn p w) := by
  exact (Keeps.storeTf _ _).bind fun _ => Keeps.setMode _

theorem sysResume_keeps (r : Option (BitVec 64)) : Keeps (sysResume p r) := by
  cases r with
  | none => exact .pure _
  | some w => exact sysReturn_keeps w

theorem argint_keeps (n : Nat) : Keeps (argint p n) := by
  exact (Keeps.loadTf _).bind fun _ => Keeps.pure _

theorem argaddr_keeps (n : Nat) : Keeps (argaddr p n) := by
  exact (Keeps.loadTf _).bind fun _ => Keeps.pure _

theorem sysExec_keeps (o : Outside) : Keeps (sysExec L p o) := by
  unfold sysExec
  cases o.file with
  | none => exact .pure _
  | some ip => exact (exec_keeps ip o.argv).bind fun _ => Keeps.pure _

theorem sysSbrk_keeps : Keeps (sysSbrk L p) := by
  refine (argint_keeps 0).bind fun n => ?_
  refine Keeps.get.bind fun k => ?_
  exact (growproc_keeps n).bind fun r => .ite (Keeps.pure _) (Keeps.pure _)

theorem sysTrace_keeps : Keeps (sysTrace p) := by
  refine (argint_keeps 0).bind fun mask => .ite (Keeps.pure _) ?_
  exact (Keeps.setProc fun _ => by rfl).bind fun _ => Keeps.pure _

theorem usertrapret_keeps (hartid : BitVec 64) : Keeps (usertrapret L p hartid) := by
  exact ⟨fun _ => .modify rfl⟩

/-! ## Creation, sleep and exit -/

theorem freeproc_moves : Moves (fun c c' => c' = c.set p (c.gist p).free) (freeproc L p) := by
  refine Keeps.get.bind fun k => ?_
  have hlast : Moves (fun c c' => c' = c.set p (c.gist p).free) (setProc p Proc.free) :=
    Moves.setProc fun _ => rfl
  have hrest : Moves (fun c c' => c' = c.set p (c.gist p).free) (do
      if (k.proc p).pagetable ≠ 0 then
        vm (procFreepagetable L (k.proc p).pagetable (k.proc p).sz)
      else
        pure ()
      setProc p Proc.free) := by
    apply Moves.ite
    · exact (Keeps.vm _).bind fun _ => hlast
    · exact (Keeps.pure ()).bind fun _ => hlast
  apply Moves.ite
  · exact (Keeps.vm _).bind fun _ => hrest
  · exact (Keeps.pure ()).bind fun _ => hrest

def Core.allocate (c : Core) (p : Slot) : Core :=
  { c.set p ((c.gist p).allocate c.nextpid) with nextpid := toInt32 (c.nextpid + 1) }

/-- What `allocproc` may do to the control state. -/
inductive Core.Allocated (c : Core) : Option Slot → Core → Prop where
  | full : Allocated c none c
  | failed {p : Slot} (h : (c.gist p).state = .unused) :
      Allocated c none ((c.allocate p).set p ((c.gist p).allocate c.nextpid).free)
  | done {p : Slot} (h : (c.gist p).state = .unused) : Allocated c (some p) (c.allocate p)

theorem allocproc_allocated (k : Kernel) :
    Wp (fun _ => True) (allocproc L) k fun r k' => k.core.Allocated r k'.core := by
  apply Wp.bind (.get _)
  cases hp : k.first fun q => q.state = .unused with
  | none => exact .pure .full
  | some p =>
    have hs : (k.core.gist p).state = .unused := by simpa using Kernel.first_some hp
    refine .bind (.set ?_)
    -- the record is in place; memory is all that is left
    have hcore : ({ k with
        nextpid := toInt32 (k.nextpid + 1)
        proc := update k.proc p ((k.proc p).allocate k.ticks k.nextpid)
        user := update k.user p {} } : Kernel).core = k.core.allocate p := by
      have h := Kernel.core_setProc k p ((k.proc p).allocate k.ticks k.nextpid)
      exact congrArg (fun c : Core => { c with nextpid := toInt32 (k.nextpid + 1) }) h
    have hfail : ∀ k1 : Kernel, k1.core = k.core.allocate p →
        Wp (fun _ => True) (do freeproc L p; return none : K (Option Slot)) k1
          fun r k' => k.core.Allocated r k'.core := by
      intro k1 h1
      refine (freeproc_moves.run k1).seq fun _ k2 h2 => .pure ?_
      rw [h2, h1, Core.allocate, Core.set_gist_self]
      exact .failed hs
    refine ((Keeps.vm kalloc).run _).seq fun trapframe k1 h1 => ?_
    refine ((Keeps.setProc fun _ => by rfl).run k1).seq fun _ k2 h2 => ?_
    have hcore2 : k2.core = k.core.allocate p := h2.trans (h1.trans hcore)
    split
    · exact hfail k2 hcore2
    · refine ((Keeps.vm _).run k2).seq fun pagetable k3 h3 => ?_
      refine ((Keeps.setProc fun _ => by rfl).run k3).seq fun _ k4 h4 => ?_
      have hcore4 : k4.core = k.core.allocate p := h4.trans (h3.trans hcore2)
      split
      · exact hfail k4 hcore4
      · refine ((Keeps.setProc fun _ => by rfl).run k4).seq fun _ k5 h5 => .pure ?_
        rw [h5, hcore4]
        exact .done hs

/-- What `fork` in process `p` may do to the control state. -/
inductive Core.Forked (p : Slot) (c : Core) : Core → Prop where
  | full : Forked p c c
  | failed {np : Slot} (h : (c.gist np).state = .unused) :
      Forked p c ((c.allocate np).set np ((c.gist np).allocate c.nextpid).free)
  | done {np : Slot} (h : (c.gist np).state = .unused) :
      Forked p c ((c.allocate np).set np { (c.gist np).allocate c.nextpid with
        state := .runnable, tickets := ((c.allocate np).gist p).tickets })

theorem fork_moves : Moves (Core.Forked p) (fork L p) := by
  constructor
  intro k
  refine (allocproc_allocated k).seq fun r k1 h1 => ?_
  generalize hc1 : k1.core = c1 at h1
  cases h1 with
  | full => exact .pure (hc1 ▸ .full)
  | failed hs => exact .pure (hc1 ▸ .failed hs)
  | @done np hs =>
    refine .bind (.get ?_)
    refine ((Keeps.record _).run k1).seq fun _ k2 h2 => ?_
    refine ((Keeps.vm _).run k2).seq fun r k3 h3 => ?_
    have hcore3 : k3.core = k.core.allocate np := h3.trans (h2.trans hc1)
    split
    · refine (freeproc_moves.run k3).seq fun _ k4 h4 => .pure ?_
      rw [h4, hcore3, Core.allocate, Core.set_gist_self]
      exact .failed hs
    · refine ((Keeps.setProc fun _ => by rfl).run k3).seq fun _ k4 h4 => ?_
      refine ((Keeps.vm _).run k4).seq fun _ k5 h5 => ?_
      refine ((Keeps.storeTf _ _).run k5).seq fun _ k6 h6 => ?_
      have hcore6 : k6.core = k.core.allocate np := by rw [h6, h5, h4, hcore3]
      refine .bind (Wp.setProc (.pure ?_))
      rw [Kernel.core_setProc, hcore6, ← hc1]
      have hg : (k6.proc np).gist = (k.core.gist np).allocate k.core.nextpid := by
        rw [← Kernel.core_gist, hcore6, Core.allocate, Core.set_gist_self]
      have hdone := Core.Forked.done (p := p) hs
      rw [← hg, ← hc1] at hdone
      exact hdone

/-- What `exit` in process `p` does to the control state: it wakes others up. -/
structure Core.Exited (p : Slot) (c c' : Core) : Prop where
  self : c'.gist p = { c.gist p with state := .zombie }
  others : ∀ q, q ≠ p → (c.gist q).Woken (c'.gist q)
  ticks : c'.ticks = c.ticks

theorem woken_wakeup (ticks chan : Nat) (me : Option Slot) (proc : Slot → Proc) (q : Slot) :
    (proc q).gist.Woken (wakeup ticks chan me proc q).gist := by
  unfold wakeup
  split
  · exact .inl rfl
  · exact Proc.woken_wakeup _ _ _

theorem gist_wakeup_me (ticks chan : Nat) (p : Slot) (proc : Slot → Proc) :
    (wakeup ticks chan (some p) proc p).gist = (proc p).gist := by
  rw [wakeup, if_pos rfl]

/-- `reparent` wakes processes other than its caller up. -/
structure Reparented (p : Slot) (proc proc' : Slot → Proc) : Prop where
  self : (proc' p).gist = (proc p).gist
  others : ∀ q, (proc q).gist.Woken (proc' q).gist

theorem reparentStep_reparented (ticks : Nat) (p : Slot) (proc : Slot → Proc) (c : Slot) :
    Reparented p proc (reparentStep ticks p proc c) := by
  unfold reparentStep
  split
  · have hgist : ∀ q, (update proc c { proc c with parent := some initproc } q).gist =
        (proc q).gist := by
      intro q
      by_cases h : q = c
      · subst h
        rw [update_self]
        rfl
      · rw [update_of_ne h]
    constructor
    · rw [gist_wakeup_me, hgist]
    · grind [woken_wakeup]
  · exact ⟨rfl, fun _ => .inl rfl⟩

theorem reparent_reparented (ticks : Nat) (p : Slot) (proc : Slot → Proc) :
    Reparented p proc (reparent ticks p proc) := by
  unfold reparent
  generalize List.finRange nproc = slots
  induction slots generalizing proc with
  | nil => exact ⟨rfl, fun _ => .inl rfl⟩
  | cons c _ ih =>
    have h := reparentStep_reparented ticks p proc c
    have h' := ih (reparentStep ticks p proc c)
    exact ⟨h'.self.trans h.self, fun q => (h.others q).trans (h'.others q)⟩

theorem exit_moves (status : Int) : Moves (Core.Exited p) (exit p status) := by
  refine .ite (.throw _) ⟨fun k => .modify ?_⟩
  have h := reparent_reparented k.ticks p k.proc
  constructor
  · simp only [Kernel.core_gist, exitTable, update_self, Proc.gist_exit]
    rw [gist_wakeup_me, h.self]
  · intro q hq
    simp only [Kernel.core_gist, exitTable, update_of_ne hq]
    exact (h.others q).trans (woken_wakeup _ _ _ _ q)
  · rfl

theorem yield_moves : Moves (fun c c' => c' = c.set p ((c.gist p).yield c.ticks)) (yield p) := by
  refine .get fun k => Wp.setProc ?_
  rw [Kernel.core_setProc, Proc.gist_yield]
  rfl

theorem sleep_moves (chan : Nat) :
    Moves (fun c c' => c' = c.set p { c.gist p with state := .sleeping }) (sleep p chan) := by
  refine .get fun k => Wp.setProc ?_
  rw [Kernel.core_setProc, Proc.gist_sleep]
  rfl

/-- What an iteration of `wait` in process `p` may do to the control state. -/
inductive Core.Waited (p : Slot) (c : Core) : Core → Prop where
  | kept : Waited p c c
  | reaped {q : Slot} (h : (c.gist q).state = .zombie) : Waited p c (c.set q (c.gist q).free)
  | slept : Waited p c (c.set p { c.gist p with state := .sleeping })

theorem waitRound_moves (addr : Nat) : Moves (Core.Waited p) (waitRound L p addr) := by
  refine .get fun k => ?_
  cases hnp : k.first fun q => q.parent = some p ∧ q.state = .zombie with
  | some np =>
    have hz : (k.core.gist np).state = .zombie := by
      have h := Kernel.first_some hnp
      simp only [decide_eq_true_eq] at h
      exact h.2
    have hrest : ∀ (k1 : Kernel) (r : Int), k1.core = k.core → Wp (fun _ => True) (if r < 0 then
            return some { ret := -1, times := ((k.proc np).rtime,
              (((k.proc np).etime - (k.proc np).ctime - (k.proc np).rtime : Int) % 2 ^ 32).toNat) }
          else do
            freeproc L np
            return some { ret := (k.proc np).pid, times := ((k.proc np).rtime,
              (((k.proc np).etime - (k.proc np).ctime - (k.proc np).rtime : Int) % 2 ^ 32).toNat) }
            : K (Option Waited)) k1 fun _ k' => Core.Waited p k.core k'.core := by
      intro k1 r h1
      split
      · exact .pure (h1 ▸ .kept)
      · refine (freeproc_moves.run k1).seq fun _ k2 h2 => .pure ?_
        rw [h2, h1]
        exact .reaped hz
    dsimp only
    split
    · exact ((copyoutTo_keeps _ _ _).run k).seq fun r k1 h1 => hrest k1 r h1
    · exact ((Keeps.pure (0 : Int)).run k).seq fun r k1 h1 => hrest k1 r h1
  | none =>
    dsimp only
    split
    · exact .pure .kept
    · refine ((sleep_moves _).run k).seq fun _ k1 h1 => .pure ?_
      rw [h1]
      exact .slept

theorem sysWait_moves : Moves (Core.Waited p) (sysWait L p) := by
  refine (argaddr_keeps 0).bind fun addr => ?_
  refine (waitRound_moves addr).bind fun w => ?_
  cases w with
  | none | some => exact .pure _

theorem sysWaitx_moves (o : Outside) : Moves (Core.Waited p) (sysWaitx L p o) := by
  refine (argaddr_keeps 0).bind fun addr => ?_
  refine (argaddr_keeps 1).bind fun addr1 => ?_
  refine (argaddr_keeps 2).bind fun addr2 => ?_
  refine (waitRound_moves addr).bind fun w => ?_
  cases w with
  | none => exact .pure _
  | some =>
    refine (copyoutTo_keeps _ _ _).bind fun r => .ite (Keeps.pure _) ?_
    exact (copyoutTo_keeps _ _ _).bind fun r => .ite (Keeps.pure _) (Keeps.pure _)

theorem deliver_moves : Moves (fun c c' => c' = c.set p (c.gist p).deliver) (deliver p) := by
  refine .get fun k => ?_
  have hdue : (k.core.gist p).alarmDue = (k.proc p).alarmDue := rfl
  split
  · next h =>
    refine ((Keeps.vm kalloc).run k).seq fun backup k1 h1 => ?_
    split
    · exact Wp.throw trivial
    · refine ((Keeps.vm _).run k1).seq fun _ k2 h2 => ?_
      refine .bind (Wp.setProc ?_)
      refine ((Keeps.storeTf _ _).run _).mono fun _ k3 h3 => ?_
      have hcore2 : k2.core = k.core := h2.trans h1
      have hg : (k2.proc p).gist = k.core.gist p := by rw [← Kernel.core_gist, hcore2]
      rw [h3, Kernel.core_setProc, hcore2, Gist.deliver, hdue, if_pos h, ← hg]
      rfl
  · grind [Wp.pure, Gist.deliver, Core.set_self]

end Xv6
