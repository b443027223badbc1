import Xv6.Sched.Timed

/-!
# Rounds of the MLFQ scheduler

The loops of `scheduler` taken as a whole, on a single CPU that nothing interrupts: the
demotion pass and `age` update every record, the scans choose a process, and the switch to it
and back brings `scheduler` to where it goes on. Each is a run of the steps of the machine.
-/

namespace Xv6.Sched

open Function (update update_apply update_idem update_of_ne update_self)

attribute [local instance] neZero_one

variable {C : State 1 → State 1 → Prop} {proc : Slot → Proc} {t : Nat} {x k pc : Pc} {p : Slot}
  {s s' u : State 1}

def Visits (C : State 1 → State 1 → Prop) (s : State 1) : Prop := ∃ g, Run .MLFQ C s g

theorem Visits.step (h : Visits C s) (hs : Step .MLFQ s s') (hc : C s s') : Visits C s' := by
  obtain ⟨g, hrun⟩ := h
  exact ⟨_, hrun.step hs hc⟩

def AllowsSched (C : State 1 → State 1 → Prop) : Prop := ∀ s s', SchedStep .MLFQ 0 s s' → C s s'

/-- The clock does not wrap, and a process that gives up the CPU stays RUNNABLE. -/
structure Yields (s s' : State 1) : Prop where
  clock : s.ticks ≤ s'.ticks
  leaves : ∀ p, LeavesCpu (s.proc p) (s'.proc p) → (s'.proc p).state = .runnable

theorem Yields.of_update {q : Slot} {r : Proc} (hp : s'.proc = update s.proc q r)
    (ht : s'.ticks = s.ticks) (hr : LeavesCpu (s.proc q) r → r.state = .runnable) :
    Yields s s' := by
  refine ⟨ht.ge, fun p h => ?_⟩
  rw [hp] at h ⊢
  by_cases hpq : p = q
  · subst hpq
    rw [update_self] at h ⊢
    exact hr h
  · rw [update_of_ne hpq] at h
    exact absurd h.1 h.2

theorem SchedStep.state {b : Build} {c : Fin 1} (hs : SchedStep b c s s') (p : Slot) :
    (s'.proc p).state = (s.proc p).state ∨ (s'.proc p).state = .running := by
  have hone : ∀ (q : Slot) (r : Proc), s'.proc = update s.proc q r →
      r.state = (s.proc q).state ∨ r.state = .running →
      (s'.proc p).state = (s.proc p).state ∨ (s'.proc p).state = .running := by
    intro q r hproc hr
    rw [hproc, update_apply]
    split
    · next hpq => exact hpq ▸ hr
    · exact .inl rfl
  cases hs with
  | rrRun i | pickRun i | rr4Run i => exact hone i _ rfl (.inr rfl)
  | drawRun _ w => exact hone w _ rfl (.inr rfl)
  | demote i => exact hone i _ rfl (.inl (demoteStep_state _ _))
  | age i => exact hone i _ rfl (.inl (ageStep_state _ _))
  | _ => exact .inl rfl

theorem yields_sched : AllowsSched Yields := by
  intro s s' hs
  refine ⟨by cases hs <;> exact Nat.le_refl _, fun p hp => ?_⟩
  rcases hs.state p with h | h
  · exact absurd (h.trans hp.1) hp.2
  · exact absurd h hp.2

/-- The steps inside `scheduler` are allowed, and those made while a thread runs after which
`scheduler` goes on at `k`, but for `sleep` and `exit`. -/
structure AllowsOwn (C : State 1 → State 1 → Prop) (k : Pc) : Prop where
  sched : AllowsSched C
  thread : ∀ s s' p pc, (s.cpu 0).mode = .thread p pc → (s.cpu 0).context = .back p k →
    Yields s s' → C s s'

theorem Visits.sched (hC : AllowsSched C) (h : Visits C s) (hs : SchedStep .MLFQ 0 s s')
    (hu : s' = u) : Visits C u :=
  hu ▸ h.step (.sched 0 hs) (hC _ _ hs)

theorem Visits.thread (hC : AllowsOwn C k) (h : Visits C s) {pc : ThreadPc}
    (hm : (s.cpu 0).mode = .thread p pc) (hx : (s.cpu 0).context = .back p k)
    (hs : Step .MLFQ s s') (hy : Yields s s') (hu : s' = u) : Visits C u :=
  hu ▸ h.step hs (hC.thread _ _ p pc hm hx hy)

/-- The CPU is in `scheduler`; all locks are free and all contexts saved. -/
def atPc (proc : Slot → Proc) (t : Nat) (x : Pc) (pc : Pc) : State 1 where
  proc := proc
  lock _ := none
  ctx _ := .saved
  cpu _ := { proc := none, context := x, mode := .sched pc }
  ticks := t

/-- The thread of `p` executes outside the sections of its lock. When it gives up the CPU,
`scheduler` goes on at `k`. -/
def onCpu (proc : Slot → Proc) (t : Nat) (p : Slot) (k : Pc) : State 1 where
  proc := proc
  lock _ := none
  ctx q := if q = p then .live 0 else .saved
  cpu _ := { proc := some p, context := .back p k, mode := .thread p .running }
  ticks := t

theorem update_cpu (cpu : Fin 1 → Cpu) (c : Fin 1) (r : Cpu) : update cpu c r = fun _ => r := by
  funext c'
  rw [Subsingleton.elim c' c, update_self]

theorem atPc_goto (pc pc' : Pc) : (atPc proc t x pc).goto 0 (.sched pc') = atPc proc t x pc' := by
  simp only [State.goto, atPc, update_cpu]

theorem atPc_setProc (pc : Pc) (i : Slot) (r : Proc) :
    (atPc proc t x pc).setProc i r = atPc (update proc i r) t x pc := rfl

theorem Visits.goto (hC : AllowsSched C) (h : Visits C (atPc proc t x pc)) {pc' : Pc}
    (hs : SchedStep .MLFQ 0 (atPc proc t x pc) ((atPc proc t x pc).goto 0 (.sched pc'))) :
    Visits C (atPc proc t x pc') :=
  h.sched hC hs (atPc_goto pc pc')

/-! ## The passes over the table -/

/-- The records after the first `m` iterations of a loop that applies `f`. -/
def upTo (f : Proc → Proc) (proc : Slot → Proc) (m : Nat) : Slot → Proc :=
  fun p => if p.val < m then f (proc p) else proc p

theorem upTo_succ (f : Proc → Proc) (i : Slot) :
    update (upTo f proc i) i (f (upTo f proc i i)) = upTo f proc (i + 1) := by
  funext q
  by_cases hq : q = i
  · subst hq
    simp [upTo]
  · grind [Fin.ext, upTo, update_apply]

theorem upTo_all (f : Proc → Proc) : upTo f proc nproc = fun p => f (proc p) := by
  funext p
  simp [upTo]

theorem Visits.pass (hC : AllowsSched C) (f : Proc → Proc) (pcs : Nat → Pc)
    (hstep : ∀ (proc : Slot → Proc) (i : Slot), SchedStep .MLFQ 0 (atPc proc t x (pcs i))
      (((atPc proc t x (pcs i)).setProc i (f (proc i))).goto 0 (.sched (pcs (i + 1)))))
    (h : Visits C (atPc proc t x (pcs 0))) (m : Nat) (hm : m ≤ nproc) :
    Visits C (atPc (upTo f proc m) t x (pcs m)) := by
  induction m with
  | zero => exact h
  | succ m ih =>
    refine (ih (by omega)).sched hC (hstep (upTo f proc m) ⟨m, by omega⟩) ?_
    rw [atPc_setProc, atPc_goto, upTo_succ f ⟨m, by omega⟩]

def aged (t : Nat) (p : Proc) : Proc := ageStep t (demoteStep t p)

theorem Visits.passes (hC : AllowsSched C) (h : Visits C (atPc proc t x .top)) :
    Visits C (atPc (fun p => aged t (proc p)) t x (.select 0 0 none)) := by
  have h1 : Visits C (atPc proc t x (.demote 0)) := h.goto hC (.top _ rfl)
  have h2 := Visits.pass hC (demoteStep t) .demote
    (fun proc i => .demote (atPc proc t x (.demote i)) i rfl rfl) h1 nproc (le_refl _)
  rw [upTo_all] at h2
  have h3 := h2.goto hC (.demoteEnd _ rfl)
  have h4 := Visits.pass hC (ageStep t) .age
    (fun proc i => .age (atPc proc t x (.age i)) i rfl rfl) h3 nproc (le_refl _)
  rw [upTo_all] at h4
  exact h4.goto hC (.ageEnd _ rfl)

/-! ## The choice -/

/-- The candidate for queue `q` after `m` iterations of its scan. -/
def candidate (proc : Slot → Proc) (q : Nat) : Nat → Option Slot
  | 0 => none
  | m + 1 =>
    if h : m < nproc then selectStep proc q ⟨m, h⟩ (candidate proc q m) else candidate proc q m

theorem Visits.scan (hC : AllowsSched C) {q : Nat} (h : Visits C (atPc proc t x (.select q 0 none)))
    (m : Nat) (hm : m ≤ nproc) : Visits C (atPc proc t x (.select q m (candidate proc q m))) := by
  induction m with
  | zero => exact h
  | succ m ih =>
    have hlt : m < nproc := hm
    rw [candidate, dif_pos hlt]
    exact (ih (by omega)).goto hC (.select _ q ⟨m, hlt⟩ _ rfl rfl)

def choice (proc : Slot → Proc) : Nat → Pc
  | 0 => .rr4 0
  | m + 1 =>
    match candidate proc (3 - m) nproc with
    | some p => .pick p
    | none => choice proc m

theorem Visits.choose (hC : AllowsSched C) (m : Nat) (hm : m < 4)
    (h : Visits C (atPc proc t x (.select (3 - m) 0 none))) :
    Visits C (atPc proc t x (choice proc (m + 1))) := by
  induction m with
  | zero =>
    have hend := (h.scan hC nproc (le_refl _)).goto hC (.selectEnd _ 3 _ rfl)
    cases hc : candidate proc (3 - 0) nproc with
    | none | some => simpa [choice, afterSelect, hc] using hend
  | succ m ih =>
    have hend := (h.scan hC nproc (le_refl _)).goto hC (.selectEnd _ _ _ rfl)
    rw [choice]
    cases hc : candidate proc (3 - (m + 1)) nproc with
    | some =>
      rw [hc] at hend
      exact hend
    | none => grind [afterSelect]

theorem Visits.round (hC : AllowsSched C) (h : Visits C (atPc proc t x .top))
    (hpc : choice (fun p => aged t (proc p)) 4 = pc) :
    Visits C (atPc (fun p => aged t (proc p)) t x pc) :=
  hpc ▸ (h.passes hC).choose hC 3 (by decide)

/-! ## The switch to a process and back -/

/-- The CPU holds `p->lock`, on either side of a `swtch`. -/
def handing (proc : Slot → Proc) (t : Nat) (p : Slot) (ctx : Context 1) (x : Pc) (mode : Mode) :
    State 1 where
  proc := proc
  lock q := if q = p then some 0 else none
  ctx q := if q = p then ctx else .saved
  cpu _ := { proc := some p, context := x, mode := mode }
  ticks := t

theorem update_const {β : Type} (a b : β) :
    update (fun _ : Slot => b) p a = fun q => if q = p then a else b := by
  funext q
  exact update_apply ..

theorem update_ite {β : Type} (a a' b : β) :
    update (fun q => if q = p then a' else b) p a = fun q => if q = p then a else b := by
  funext q
  by_cases hq : q = p <;> simp [hq]

attribute [local simp] atPc onCpu handing dispatch State.setProc State.setLock State.setCpuProc
  State.goto update_cpu update_const update_ite

theorem Visits.resume (hC : AllowsOwn C k) {r : Proc} (h : Visits C (atPc proc t x pc))
    (hs : SchedStep .MLFQ 0 (atPc proc t x pc) (dispatch (atPc proc t x pc) 0 p r k)) :
    Visits C (onCpu (update proc p r) t p k) := by
  have h1 : Visits C (handing (update proc p r) t p .saved x (.sched (.swtch p k))) :=
    h.sched hC.sched hs (by simp)
  have h2 : Visits C (handing (update proc p r) t p (.live 0) (.back p k) (.thread p .resumed)) :=
    h1.sched hC.sched (.swtch _ p k rfl) (by simp)
  exact h2.thread hC rfl rfl (.thread 0 (.release _ p rfl)) ⟨Nat.le_refl _, fun _ h => absurd h.1 h.2⟩ (by simp)

section

variable (hC : AllowsOwn C k) (h : Visits C (onCpu proc t p k))

include hC h

theorem Visits.yield : Visits C (atPc (update proc p ((proc p).yield t)) t (.back p k) k) := by
  have h1 : Visits C (handing (update proc p ((proc p).yield t)) t p (.live 0) (.back p k)
      (.thread p .leaving)) :=
    h.thread hC rfl rfl (.thread 0 (.yield _ p rfl rfl)) (.of_update rfl rfl fun _ => Proc.yield_state ..) (by simp)
  have h2 : Visits C (handing (update proc p ((proc p).yield t)) t p .saved (.back p k)
      (.sched (.back p k))) :=
    h1.thread hC rfl rfl (.thread 0 (.swtch _ p rfl)) ⟨Nat.le_refl _, fun _ h => absurd h.1 h.2⟩ (by simp)
  exact h2.sched hC.sched (.back _ p k rfl) (by simp)

theorem Visits.ticks (m : Nat) (hm : t + m < 2 ^ 32) : Visits C (onCpu proc (t + m) p k) := by
  induction m with
  | zero => exact h
  | succ m ih =>
    refine (ih (by omega)).thread hC rfl rfl (.locked 0 (.clockintr _))
      ⟨show t + m ≤ (t + m + 1) % 2 ^ 32 by omega, fun _ h => absurd h.1 h.2⟩ ?_
    simp only [onCpu, State.mk.injEq, true_and]
    omega

theorem Visits.fork {q : Slot} (hq : q ≠ p) (hu : (proc q).state = .unused) (pid : Int) :
    Visits C (onCpu (update proc q
      { ((proc q).allocate t pid).enterQueue t with state := .runnable }) t p k) := by
  have h1 : Visits C (onCpu (update proc q (((proc q).allocate t pid).enterQueue t)) t p k) :=
    h.thread hC rfl rfl (.locked 0 (.allocproc _ q pid rfl hu))
      (.of_update rfl rfl fun hr => by cases hu.symm.trans hr.1) (by simp [hq])
  refine h1.thread hC rfl rfl (.locked 0 (.forked _ q rfl ?_)) (.of_update rfl rfl fun _ => rfl)
    (by simp)
  simp [Proc.enterQueue, Proc.allocate]

end

theorem Visits.turn (hC : AllowsOwn C .top) (h : Visits C (atPc proc t x .top)) (p : Slot) (m : Nat)
    (hm : t + m < 2 ^ 32) (hpc : choice (fun q => aged t (proc q)) 4 = .pick p)
    (hr : (aged t (proc p)).state = .runnable) :
    Visits C (atPc (update (fun q => aged t (proc q)) p
        ((dispatched .MLFQ t (aged t (proc p))).yield (t + m))) (t + m) (.back p .top) .top) := by
  have h1 := (h.round hC.sched hpc).resume hC (.pickRun _ p rfl rfl hr)
  have h2 := (h1.ticks hC m hm).yield hC
  rw [update_idem, update_self] at h2
  exact h2

end Xv6.Sched
