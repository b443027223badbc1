import Xv6.Sched.WaitTime

/-!
# MLFQ dispatch and priority

With one CPU the process that the scans choose is in the lowest queue that has a RUNNABLE
process, and the round-robin loop over queue 4 starts only when the other queues have none.
That stays so until the dispatch unless a process of a lower queue becomes RUNNABLE. The
round-robin loop does not look at the other queues again, so a process that is forked or woken
up while the loop runs one of the processes of queue 4 has to wait for all of them.
-/

namespace Xv6.Sched

open Function (update update_of_ne update_self)

attribute [local instance] neZero_one

variable {s s' : State 1}
variable {best : Option Slot} {c : Fin 1} {pc : Pc}
variable {i p : Slot} {proc : Slot → Proc} {q : Nat} {r : Proc}

attribute [local simp] State.goto State.setProc State.setCpuProc Sched.dispatch State.setLock

/-- Points of `scheduler` between the first scan and the last dispatch that the scans lead to,
the turns of the processes of queue 4 included. -/
def Pc.choosing : Pc → Bool
  | .select _ _ _ | .pick _ | .rr4 _ => true
  | .swtch _ k | .back _ k => k.choosing
  | _ => false

/-- `scheduler` is between the first scan and the last dispatch. While a thread runs, this is
a matter of where `scheduler` goes on. -/
def State.choosing (s : State 1) : Bool :=
  match (s.cpu 0).mode with
  | .sched pc => pc.choosing
  | .thread _ _ => (s.cpu 0).context.choosing

/-- No process of the queues 0 to 3 becomes RUNNABLE between the first scan and the last
dispatch. -/
def Undisturbed (s s' : State 1) : Prop :=
  s.choosing = true → ∀ p, (s.proc p).state ≠ .runnable → (s'.proc p).state = .runnable →
    (s.proc p).queue = 4

def Lowest (s : State 1) (q : Int) : Prop :=
  ∀ p, (s.proc p).state = .runnable → q ≤ (s.proc p).queue

/-- What the scans have found out about the RUNNABLE processes. The points of the other builds
are not reached. -/
def PcRanked (s : State 1) : Pc → Prop
  | .select q i best => q ≤ 3 ∧ Lowest s q ∧
      (best = none → ∀ p : Slot, p.val < i → (s.proc p).state = .runnable → (s.proc p).queue ≠ q) ∧
      ∀ m, best = some m → (s.proc m).state = .runnable ∧ (s.proc m).queue = q
  | .pick m => (s.proc m).state = .runnable ∧ (s.proc m).queue ≤ 3 ∧ Lowest s (s.proc m).queue
  | .rr4 _ => Lowest s 4
  | .swtch _ k | .back _ k => PcRanked s k
  | .top | .demote _ | .age _ => True
  | .rr _ | .scan _ _ | .total _ _ | .draw _ _ _ => False

/-- The queues are not negative, and the process to be dispatched is in the lowest one. -/
structure Ranked (s : State 1) : Prop where
  nonneg : ∀ p, 0 ≤ (s.proc p).queue
  sched : ∀ pc, (s.cpu 0).mode = .sched pc → PcRanked s pc
  thread : ∀ p pc, (s.cpu 0).mode = .thread p pc → PcRanked s (s.cpu 0).context

/-- What a step may do to the RUNNABLE processes while `scheduler` is at `pc`. -/
structure Settled (s s' : State 1) (pc : Pc) : Prop where
  stays : ∀ p, (s.proc p).state = .runnable →
    (s'.proc p).state = .runnable ∧ (s'.proc p).queue = (s.proc p).queue
  joins : pc.choosing = true → ∀ p, (s.proc p).state ≠ .runnable →
    (s'.proc p).state = .runnable → (s'.proc p).queue = 4

theorem Settled.lowest (hs : Settled s s' pc) (hpc : pc.choosing = true) {q : Int} (hq : q ≤ 4)
    (h : Lowest s q) : Lowest s' q := by
  intro p hp
  by_cases hr : (s.proc p).state = .runnable
  · rw [(hs.stays p hr).2]
    exact h p hr
  · rw [hs.joins hpc p hr hp]
    exact hq

theorem PcRanked.settled (h : PcRanked s pc) (hs : Settled s s' pc) : PcRanked s' pc := by
  induction pc with
  | select =>
    obtain ⟨hq, hlow, hnone, hsome⟩ := h
    refine ⟨hq, hs.lowest rfl (by omega) hlow, ?_, ?_⟩
    · intro hbest p hi hp
      by_cases hr : (s.proc p).state = .runnable
      · rw [(hs.stays p hr).2]
        exact hnone hbest p hi hr
      · rw [hs.joins rfl p hr hp]
        omega
    · grind [hs.stays]
  | pick m =>
    obtain ⟨hr, hq, hlow⟩ := h
    obtain ⟨hr', hmq'⟩ := hs.stays m hr
    refine ⟨hr', ?_, ?_⟩
    · rw [hmq']
      exact hq
    · rw [hmq']
      exact hs.lowest rfl (by omega) hlow
  | rr4 => exact hs.lowest rfl (le_refl _) h
  | swtch _ _ ih | back _ _ ih => exact ih h ⟨hs.stays, hs.joins⟩
  | _ => exact h

/-! ## One step -/

theorem selectStep_none (h : selectStep proc q i best = none) :
    best = none ∧ ¬ ((proc i).state = .runnable ∧ (proc i).queue = q) := by
  unfold selectStep at h
  split at h
  · grind
  · next hc => exact ⟨h, hc⟩

theorem selectStep_some {m : Slot} (h : selectStep proc q i best = some m) :
    best = some m ∨ m = i ∧ (proc i).state = .runnable ∧ (proc i).queue = q := by
  unfold selectStep at h
  split at h
  · next hc =>
    cases best with
    | none => grind
    | some => grind
  · exact .inl h

theorem PcRanked.select (h : PcRanked s (.select q i best)) :
    PcRanked s (.select q (i + 1) (selectStep s.proc q i best)) := by
  obtain ⟨hq, hlow, hnone, hsome⟩ := h
  refine ⟨hq, hlow, ?_, ?_⟩
  · intro hbest p hp hr hpq
    obtain ⟨hb, hi⟩ := selectStep_none hbest
    by_cases hpi : p = i
    · subst hpi
      exact hi ⟨hr, hpq⟩
    · grind
  · grind [selectStep_some]

theorem PcRanked.afterSelect (h : PcRanked s (.select q nproc best)) :
    PcRanked s (afterSelect q best) := by
  obtain ⟨hq, hlow, hnone, hsome⟩ := h
  cases best with
  | some m =>
    obtain ⟨hr, hmq⟩ := hsome m rfl
    refine ⟨hr, ?_, ?_⟩
    · rw [hmq]
      exact_mod_cast hq
    · rw [hmq]
      exact hlow
  | none =>
    have hnext : Lowest s (q + 1) := by
      intro p hp
      have h1 := hlow p hp
      have h2 := hnone rfl p p.isLt hp
      omega
    by_cases hlt : q < 3
    · rw [Sched.afterSelect, if_pos hlt]
      exact ⟨by omega, by exact_mod_cast hnext, by simp, by simp⟩
    · rw [Sched.afterSelect, if_neg hlt]
      intro p hp
      have := hnext p hp
      omega

theorem demoteStep_nonneg {ticks : Nat} {p : Proc} (h : 0 ≤ p.queue) :
    0 ≤ (demoteStep ticks p).queue := by
  unfold demoteStep
  split
  · dsimp only
    omega
  · exact h

theorem ageStep_nonneg {ticks : Nat} {p : Proc} (h : 0 ≤ p.queue) :
    0 ≤ (ageStep ticks p).queue := by
  unfold ageStep
  split
  · grind
  · exact h

/-- A step that takes no process off the RUNNABLE ones, moves none between queues and gives none
the CPU. -/
structure Calm (s s' : State 1) : Prop where
  running : ∀ p, (s'.proc p).state = .running → (s.proc p).state = .running
  stays : ∀ p, (s.proc p).state = .runnable → (s'.proc p).state = .runnable
  queue : ∀ p, (s'.proc p).state = .runnable → (s'.proc p).queue = (s.proc p).queue
  nonneg : ∀ p, 0 ≤ (s.proc p).queue → 0 ≤ (s'.proc p).queue

theorem Calm.of_eq (hp : s'.proc = s.proc) : Calm s s' := by constructor <;> simp [hp]

theorem Calm.of_update {q : Slot} (hp : s'.proc = update s.proc q r)
    (h0 : r.state = .running → (s.proc q).state = .running)
    (h1 : (s.proc q).state = .runnable → r.state = .runnable)
    (h2 : r.state = .runnable → r.queue = (s.proc q).queue)
    (h3 : 0 ≤ (s.proc q).queue → 0 ≤ r.queue) : Calm s s' := by
  constructor
  all_goals
    intro p
    rw [hp]
    by_cases hpq : p = q
    · subst hpq
      simpa using by assumption
    · simp [hpq]

theorem Calm.settled (h : Calm s s') (hund : Undisturbed s s')
    (hch : pc.choosing = true → s.choosing = true) : Settled s s' pc where
  stays p hp := ⟨h.stays p hp, h.queue p (h.stays p hp)⟩
  joins hpc p hp hp' := (h.queue p hp').trans (hund (hch hpc) p hp hp')

theorem SectionStep.calm (hs : SectionStep c s s') : Calm s s' ∧ s'.cpu = s.cpu := by
  cases hs with
  | wakeup q chan =>
    refine ⟨Calm.of_update rfl ?_ ?_ ?_ ?_, rfl⟩
    all_goals
      rcases (s.proc q).wakeup_eq s.ticks chan with hw | ⟨hs, -, t, x, hw⟩
      · simp [hw]
      · simp [hw, hs]
  | kill q =>
    refine ⟨Calm.of_update rfl ?_ ?_ (fun _ => rfl) id, rfl⟩
    all_goals
      rcases (s.proc q).kill_state with hk | ⟨hs, hk⟩
      · simp [hk]
      · simp [hk, hs]
  | allocproc _ _ _ hu =>
    refine ⟨Calm.of_update rfl ?_ ?_ ?_ ?_, rfl⟩ <;> simp [hu, Proc.enterQueue, Proc.allocate]
  | allocFail _ _ _ hu => refine ⟨Calm.of_update rfl ?_ ?_ ?_ id, rfl⟩ <;> simp [hu, Proc.free]
  | forked => exact ⟨Calm.of_update rfl (by simp) (fun _ => rfl) (fun _ => rfl) id, rfl⟩
  | reap _ _ hz => refine ⟨Calm.of_update rfl ?_ ?_ ?_ id, rfl⟩ <;> simp [hz, Proc.free]
  | setPriority | settickets => exact ⟨Calm.of_update rfl id id (fun _ => rfl) id, rfl⟩
  | updateTime q =>
    obtain ⟨t, ht⟩ := (s.proc q).updateTime_eq
    refine ⟨Calm.of_update rfl ?_ ?_ ?_ ?_, rfl⟩ <;> simp [ht]
  | clockintr => exact ⟨Calm.of_eq rfl, rfl⟩

theorem ThreadStep.calm (hi : Inv s) (hs : ThreadStep c s s') : Calm s s' := by
  cases hs with
  | release | swtch => exact Calm.of_eq rfl
  | yield p hm =>
    have hr := hi.running_of_thread hm
    obtain ⟨x, hx⟩ := (s.proc p).yield_eq s.ticks
    apply Calm.of_update rfl <;> simp [hr, hx]
  | sleep _ _ hm =>
    have hr := hi.running_of_thread hm
    apply Calm.of_update rfl <;> simp [hr, Proc.sleep]
  | exit _ _ hm =>
    have hr := hi.running_of_thread hm
    apply Calm.of_update rfl <;> simp [hr, Proc.exit]

theorem Ranked.sectionStep (h : Ranked s) (hs : SectionStep c s s') (hund : Undisturbed s s') :
    Ranked s' := by
  obtain ⟨hcalm, hcpu⟩ := hs.calm
  constructor
  · intro p
    exact hcalm.nonneg p (h.nonneg p)
  · intro pc hm
    rw [hcpu] at hm
    exact (h.sched pc hm).settled (hcalm.settled hund (by simp [State.choosing, hm]))
  · intro p pc hm
    rw [hcpu] at hm ⊢
    exact (h.thread p pc hm).settled (hcalm.settled hund (by simp [State.choosing, hm]))

theorem PcRanked.congr (h : PcRanked s pc) (hp : s'.proc = s.proc) : PcRanked s' pc := by
  apply h.settled
  constructor <;> grind

theorem State.goto_mode (s : State 1) (m : Mode) : ((s.goto 0 m).cpu 0).mode = m := by simp

theorem State.goto_context (s : State 1) (m : Mode) :
    ((s.goto 0 m).cpu 0).context = (s.cpu 0).context := by
  simp

theorem Ranked.thread_to (h : Ranked s) (hcalm : Calm s s') (hund : Undisturbed s s')
    {pc pc' : ThreadPc} (hm : (s.cpu 0).mode = .thread p pc) (hm' : (s'.cpu 0).mode = .thread p pc')
    (hctx : (s'.cpu 0).context = (s.cpu 0).context) : Ranked s' := by
  constructor
  · intro q
    exact hcalm.nonneg q (h.nonneg q)
  · intro k hk
    rw [hm'] at hk
    cases hk
  · intro _ _ _
    rw [hctx]
    exact (h.thread p pc hm).settled (hcalm.settled hund (by simp [State.choosing, hm]))

theorem Ranked.threadStep (h : Ranked s) (hi : Inv s) (hs : ThreadStep c s s')
    (hund : Undisturbed s s') : Ranked s' := by
  have hcalm := hs.calm hi
  obtain rfl : c = 0 := Subsingleton.elim c 0
  cases hs with
  | release _ hm | yield _ hm =>
    exact h.thread_to hcalm hund hm (State.goto_mode _ _) (State.goto_context _ _)
  | sleep _ _ hm | exit _ _ hm =>
    exact h.thread_to hcalm hund hm (State.goto_mode _ _) (State.goto_context _ _)
  | swtch p hm =>
    constructor
    · exact h.nonneg
    · intro pc hpc
      simp only [update_self, Mode.sched.injEq] at hpc
      subst hpc
      exact (h.thread p _ hm).congr rfl
    · intro q pc hpc
      simp at hpc

theorem Ranked.sched_to (hq : ∀ p, 0 ≤ (s'.proc p).queue) (hm : (s'.cpu 0).mode = .sched pc)
    (hpc : PcRanked s' pc) : Ranked s' := by
  constructor
  · exact hq
  · grind
  · grind

theorem Ranked.goto (h : Ranked s) (hpc : PcRanked s pc) : Ranked (s.goto 0 (.sched pc)) :=
  Ranked.sched_to h.nonneg (State.goto_mode _ _) (hpc.congr rfl)

theorem Ranked.update (h : Ranked s) {q : Slot} (hr : 0 ≤ r.queue) (hpc : ∀ s, PcRanked s pc) :
    Ranked ((s.setProc q r).goto 0 (.sched pc)) := by
  refine Ranked.sched_to ?_ (State.goto_mode _ _) (hpc _)
  intro p
  by_cases hpq : p = q
  · subst hpq
    simpa using hr
  · simpa [hpq] using h.nonneg p

theorem Ranked.dispatch (h : Ranked s) {k : Pc} (hr : r.queue = (s.proc p).queue)
    (hk : PcRanked (dispatch s 0 p r k) k) : Ranked (dispatch s 0 p r k) := by
  refine Ranked.sched_to ?_ (State.goto_mode _ _) hk
  intro q
  by_cases hpq : q = p
  · subst hpq
    simpa [hr]
      using h.nonneg q
  · simpa [hpq]
      using h.nonneg q

theorem Ranked.schedStep (h : Ranked s) (hs : SchedStep .MLFQ c s s') : Ranked s' := by
  obtain rfl : c = 0 := Subsingleton.elim c 0
  cases hs with
  | top | demoteEnd | pickSkip | rr4End => exact h.goto trivial
  | demote i => exact h.update (demoteStep_nonneg (h.nonneg i)) fun _ => trivial
  | age i => exact h.update (ageStep_nonneg (h.nonneg i)) fun _ => trivial
  | ageEnd =>
    apply h.goto
    exact ⟨by omega, fun p _ => h.nonneg p, nofun, nofun⟩
  | select _ _ _ hm => exact h.goto (h.sched _ hm).select
  | selectEnd _ _ hm => exact h.goto (h.sched _ hm).afterSelect
  | pickRun => exact h.dispatch rfl trivial
  | rr4Skip _ hm =>
    have hlow : Lowest s 4 := h.sched _ hm
    exact h.goto hlow
  | rr4Run i hm =>
    refine h.dispatch (r := dispatched4 (s.proc i)) rfl ?_
    intro p hp
    by_cases hpi : p = i
    · subst hpi
      simp [dispatched4] at hp
    · have hlow : Lowest s 4 := h.sched _ hm
      simp only [Sched.dispatch, State.goto, State.setCpuProc, State.setLock, State.setProc,
        update_of_ne hpi] at hp ⊢
      exact hlow p hp
  | swtch p k hm =>
    constructor
    · exact h.nonneg
    · intro pc hpc
      simp at hpc
    · intro q pc hpc
      have hk : PcRanked s (.back p k) := h.sched (.swtch p k) hm
      exact hk.congr rfl
  | back p k hm =>
    have hk : PcRanked s k := h.sched (.back p k) hm
    exact Ranked.sched_to h.nonneg (State.goto_mode _ _) (hk.congr rfl)
  | rrSkip _ hm | rrRun _ hm | rrEnd hm | scan _ _ hm | scanEnd _ hm | total _ _ hm
  | totalEnd _ _ hm | drawKeep _ _ _ hm | drawDrop _ _ _ hm | drawNone _ hm | drawRun _ _ hm
  | drawSkip _ _ hm => exact absurd (h.sched _ hm) id

theorem Ranked.step (h : Ranked s) (hi : Inv s) (hs : Step .MLFQ s s') (hund : Undisturbed s s') :
    Ranked s' := by
  cases hs with
  | sched _ hc => exact h.schedStep hc
  | thread _ hc => exact h.threadStep hi hc hund
  | locked _ hc => exact h.sectionStep hc hund

theorem Booted.ranked (h : Booted s) : Ranked s := by
  refine Ranked.sched_to ?_ (h.cpu 0).2 trivial
  intro p
  by_cases hp : p = initproc
  · rw [hp, h.init]
    decide
  · rw [h.unused p hp]

theorem Run.ranked {g : Slot → Entry} (h : Run .MLFQ Undisturbed s g) : Ranked s := by
  induction h with
  | boot h => exact h.ranked
  | step h hs hc ih => exact ih.step h.inv hs hc

/-! ## The result -/

theorem SchedStep.getsCpu (h : Ranked s) (hs : SchedStep .MLFQ c s s')
    (hp : GetsCpu (s.proc p) (s'.proc p)) :
    (s.cpu 0).mode = .sched (.pick p) ∨
      (s.cpu 0).mode = .sched (.rr4 p) ∧ (s.proc p).queue = 4 := by
  obtain rfl : c = 0 := Subsingleton.elim c 0
  have hother : ∀ (q : Slot) (r : Proc), s'.proc = update s.proc q r →
      (r.state = .running → (s.proc q).state = .running) → False := by
    intro q r hproc hr
    rw [hproc] at hp
    by_cases hpq : p = q
    · subst hpq
      rw [update_self] at hp
      exact hp.1 (hr hp.2)
    · rw [update_of_ne hpq] at hp
      exact hp.1 hp.2
  cases hs with
  | pickRun q hm =>
    by_cases hpq : p = q
    · subst hpq
      exact .inl hm
    · simp [GetsCpu, hpq] at hp
  | rr4Run i hm _ _ hq =>
    by_cases hpi : p = i
    · subst hpi
      exact .inr ⟨hm, hq⟩
    · simp [GetsCpu, hpi] at hp
  | demote i => exact (hother i _ rfl (by rw [demoteStep_state]; exact id)).elim
  | age i => exact (hother i _ rfl (by rw [ageStep_state]; exact id)).elim
  | rrRun _ hm | drawRun _ _ hm => exact absurd (h.sched _ hm) id
  | _ => exact absurd hp.2 hp.1

/-- MLFQ dispatch respects priority in every run in which no process of the queues 0 to 3
becomes RUNNABLE between the first scan of a round and the last dispatch of this round: when
`scheduler` switches to `p`, no RUNNABLE process is in a lower queue than `p`. -/
theorem dispatch_respects_priority {g : Slot → Entry} (h : Run .MLFQ Undisturbed s g)
    (hs : Step .MLFQ s s') (p : Slot) (hp : GetsCpu (s.proc p) (s'.proc p)) (q : Slot)
    (hq : (s.proc q).state = .runnable) : (s.proc p).queue ≤ (s.proc q).queue := by
  have hrank := h.ranked
  cases hs with
  | sched _ hc =>
    rcases hc.getsCpu hrank hp with hm | ⟨hm, hp4⟩
    · exact (hrank.sched _ hm).2.2 q hq
    · have hlow : Lowest s 4 := hrank.sched _ hm
      rw [hp4]
      exact hlow q hq
  | thread _ hc => exact absurd ((hc.calm h.inv).running p hp.2) hp.1
  | locked _ hc => exact absurd (hc.calm.1.running p hp.2) hp.1

/-! The run of `queue4_resumed` goes on: the first process forks in its turn in queue 4. -/

/-- No interrupt is taken between the end of the scans and a dispatch that they lead to. -/
def Uninterrupted (s s' : State 1) : Prop :=
  ∀ pc, (s.cpu 0).mode = .sched pc →
    (∃ p, pc = .pick p) ∨ (∃ i, pc = .rr4 i) ∨ (∃ p k, pc = .swtch p k) → SchedStep .MLFQ 0 s s'

theorem uninterrupted_own (k : Pc) : AllowsOwn Uninterrupted k where
  sched s s' hs := fun _ _ _ => hs
  thread s s' p pc hm _ _ := by
    intro pc' hm'
    rw [hm] at hm'
    cases hm'

/-- The child waits in queue 0 while the round-robin loop goes on. -/
def childWaiting : State 1 :=
  atPc (trio (runnable 1 4 22 10 21 25 0) (runnable 2 4 30 0 29 15 0)
    { runnable 3 0 30 0 0 0 5 with createTime := 30, ctime := 30 })
    31 (.back initproc (.rr4 1)) (.rr4 1)

theorem childWaiting_visited : Visits Uninterrupted childWaiting := by
  have hC := uninterrupted_own
  have h1 := (queue4_resumed hC).fork (hC _) (q := slot2) (by decide) rfl 3
  rw [trio_update2] at h1
  have h2 := (h1.ticks (hC _) 1 (by decide)).yield (hC _)
  rw [trio_update] at h2
  exact h2

/-- The loop then switches to the second process, of queue 4, while the child is RUNNABLE in
queue 0. -/
theorem dispatch_ignores_child :
    ∃ (s s' : State 1) (g : Slot → Entry), Run .MLFQ Uninterrupted s g ∧ Step .MLFQ s s' ∧
      Uninterrupted s s' ∧ GetsCpu (s.proc slot1) (s'.proc slot1) ∧
      (s.proc slot1).queue = 4 ∧ (s.proc slot2).state = .runnable ∧ (s.proc slot2).queue = 0 := by
  obtain ⟨g, hrun⟩ := childWaiting_visited
  have hs := SchedStep.rr4Run (b := .MLFQ) (c := 0) childWaiting slot1 rfl rfl rfl rfl
  exact ⟨_, _, g, hrun, .sched 0 hs, (uninterrupted_own .top).sched _ _ hs, by decide, rfl, rfl, rfl⟩

theorem undisturbed_sched : AllowsSched Undisturbed := by
  intro s s' hs _ p hp hp'
  rcases hs.state p with h | h
  · exact absurd (h.symm.trans hp') hp
  · cases h.symm.trans hp'

theorem undisturbed_own : AllowsOwn Undisturbed .top where
  sched := undisturbed_sched
  thread s s' p pc hm hx _ := by
    intro hc
    rw [State.choosing, hm, hx] at hc
    cases hc

/-- The first process has forked and used up its slice: it waits in queue 1 while the child is chosen
in queue 0. -/
def childChosen : State 1 :=
  atPc (fun p => aged 1 (trio (runnable 1 0 0 1 0 1 0) (runnable 2 0 0 0 0 0 5) {} p)) 1
    (.back initproc .top) (.pick slot1)

theorem dispatch_respects_priority_child :
    ∃ s s' : State 1, Visits Undisturbed s ∧ GetsCpu (s.proc slot1) (s'.proc slot1) ∧
      (s.proc initproc).state = .runnable ∧ (s.proc initproc).queue = 1 ∧
      (s.proc slot1).queue = 0 ∧
      ∀ q, (s.proc q).state = .runnable → (s.proc slot1).queue ≤ (s.proc q).queue := by
  have hvisit : Visits Undisturbed childChosen :=
    (forked_visited undisturbed_own).round undisturbed_sched (by decide +kernel)
  obtain ⟨g, hrun⟩ := hvisit
  have hs := SchedStep.pickRun (b := .MLFQ) (c := 0) childChosen slot1 rfl rfl rfl
  have hp : GetsCpu (childChosen.proc slot1) ((dispatch childChosen 0 slot1
    (dispatched .MLFQ 1 (childChosen.proc slot1)) .top).proc slot1) := by decide
  exact ⟨_, _, ⟨g, hrun⟩, hp, rfl, rfl, rfl,
    dispatch_respects_priority hrun (.sched 0 hs) slot1 hp⟩

end Xv6.Sched
