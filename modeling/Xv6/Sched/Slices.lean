import Xv6.Sched.Priority

/-!
# Time slices of MLFQ

The demotion pass at the head of a round moves every RUNNABLE process that has used up its slice
to the next queue. It skips SLEEPING processes, which may become RUNNABLE after the pass; but a
process that sleeps was dispatched with some of its slice left, and `sleep` does not charge it.
-/

namespace Xv6.Sched

open Function (update update_of_ne update_self)

variable {s s' : State 1}
variable {c : Fin 1} {p r : Proc} {proc : Slot → Proc} {q : Slot}
variable {p' : Proc} {pc : Pc}

/-- The process has not used up the slice of its queue. Queue 4 has none. -/
def Within (p : Proc) : Prop := p.queue < 4 → p.timeRanInQueue < slice p.queue

theorem within_of_zero (h : p.timeRanInQueue = 0) : Within p := by
  intro _
  rw [h]
  exact slice_pos _

theorem Within.congr (h : Within p) (hq : p'.queue = p.queue)
    (ht : p'.timeRanInQueue = p.timeRanInQueue) : Within p' := by
  unfold Within
  rw [hq, ht]
  exact h

/-- The states in which a process has some of its slice left. -/
def Held : ProcState → Prop
  | .used | .sleeping | .running => True
  | .unused | .runnable | .zombie => False

/-- What a step outside the passes of `scheduler` may do to a record: a process that becomes
RUNNABLE has some of its slice left. -/
structure Quiet (p p' : Proc) : Prop where
  held : Held p'.state → Within p'
  runnable : p'.state = .runnable → Within p' ∨
    p.state = .runnable ∧ p'.queue = p.queue ∧ p'.timeRanInQueue = p.timeRanInQueue

section

variable (h : Held p.state → Within p)

include h

theorem Quiet.keep (hq : p'.queue = p.queue) (ht : p'.timeRanInQueue = p.timeRanInQueue)
    (hs : p'.state = p.state ∨ Held p.state ∨ p'.state = .unused ∨ p'.state = .zombie) :
    Quiet p p' := by
  constructor
  · intro hheld
    refine Within.congr (h ?_) hq ht
    rcases hs with hs | hs | hs | hs
    · rwa [hs] at hheld
    · exact hs
    · rw [hs] at hheld
      exact hheld.elim
    · rw [hs] at hheld
      exact hheld.elim
  · grind [Within.congr]

theorem Quiet.refl : Quiet p p := .keep h rfl rfl (.inl rfl)

theorem Quiet.wakeup (ticks chan : Nat) : Quiet p (p.wakeup ticks chan) := by
  rcases p.wakeup_eq ticks chan with he | ⟨hs, -, t, x, he⟩
  · rw [he]
    exact .refl h
  · rw [he]
    exact .keep h rfl rfl (.inr (.inl (by rw [hs]; trivial)))

theorem Quiet.kill : Quiet p p.kill := by
  refine .keep h rfl rfl ?_
  rcases p.kill_state with hs | ⟨hs, -⟩
  · exact .inl hs
  · exact .inr (.inl (by rw [hs]; trivial))

theorem Quiet.updateTime : Quiet p p.updateTime := by
  obtain ⟨t, ht⟩ := p.updateTime_eq
  rw [ht]
  exact .keep h rfl rfl (.inl rfl)

end

theorem quiet_update (h : ∀ p, Held (s.proc p).state → Within (s.proc p)) (hr : Quiet (s.proc q) r)
    (p : Slot) : Quiet (s.proc p) (update s.proc q r p) := by
  by_cases hp : p = q
  · subst hp
    rwa [update_self]
  · rw [update_of_ne hp]
    exact .refl (h p)

theorem SectionStep.quiet (hs : SectionStep c s s')
    (h : ∀ p, Held (s.proc p).state → Within (s.proc p)) (p : Slot) :
    Quiet (s.proc p) (s'.proc p) := by
  cases hs with
  | wakeup q => exact quiet_update h (.wakeup (h q) _ _) p
  | kill q => exact quiet_update h (.kill (h q)) p
  | allocproc =>
    apply quiet_update h
    exact ⟨fun _ => within_of_zero rfl, fun hrun => by cases hrun⟩
  | allocFail =>
    apply quiet_update h
    exact ⟨fun hheld => hheld.elim, fun hrun => by cases hrun⟩
  | forked q _ hu =>
    apply quiet_update h
    exact .keep (h q) rfl rfl (.inr (.inl (by rw [hu]; trivial)))
  | reap q =>
    apply quiet_update h
    exact .keep (h q) rfl rfl (.inr (.inr (.inl rfl)))
  | setPriority q | settickets q =>
    apply quiet_update h
    exact .keep (h q) rfl rfl (.inl rfl)
  | updateTime q => exact quiet_update h (.updateTime (h q)) p
  | clockintr => exact .refl (h p)

/-! ## The invariant -/

/-- Where `scheduler` goes on after a turn: at the head of a round or in the loop over queue 4. -/
def Resumes (k : Pc) : Prop := k = .top ∨ ∃ i, k = .rr4 i

/-- What the demotion pass has achieved. The points of the other builds are not reached. -/
def PcSliced (proc : Slot → Proc) : Pc → Prop
  | .demote i => ∀ p : Slot, p.val < i → (proc p).state = .runnable → Within (proc p)
  | .age _ | .select _ _ _ | .pick _ => ∀ p, (proc p).state = .runnable → Within (proc p)
  | .swtch _ k | .back _ k => Resumes k
  | .top | .rr4 _ => True
  | .rr _ | .scan _ _ | .total _ _ | .draw _ _ _ => False

/-- The invariant of every run of MLFQ on one CPU. -/
structure Sliced (s : State 1) : Prop where
  held : ∀ p, Held (s.proc p).state → Within (s.proc p)
  sched : ∀ pc, (s.cpu 0).mode = .sched pc → PcSliced s.proc pc
  thread : ∀ p pc, (s.cpu 0).mode = .thread p pc → ∃ k, (s.cpu 0).context = .back p k ∧ Resumes k

theorem Resumes.pcSliced {k : Pc} (h : Resumes k) : PcSliced proc k := by
  rcases h with rfl | ⟨i, rfl⟩ <;> trivial

theorem PcSliced.quiet {proc' : Slot → Proc} (h : PcSliced proc pc)
    (hq : ∀ p, Quiet (proc p) (proc' p)) : PcSliced proc' pc := by
  have hstep : ∀ p, (proc' p).state = .runnable →
      ((proc p).state = .runnable → Within (proc p)) → Within (proc' p) := by
    intro p hrun hw
    rcases (hq p).runnable hrun with hw' | ⟨hs, hqueue, htime⟩
    · exact hw'
    · exact (hw hs).congr hqueue htime
  cases pc with
  | demote => exact fun p hp hrun => hstep p hrun (h p hp)
  | age | select | pick => exact fun p hrun => hstep p hrun (h p)
  | _ => exact h

theorem Sliced.sectionStep (h : Sliced s) (hs : SectionStep c s s') : Sliced s' := by
  have hq := hs.quiet h.held
  have hcpu := hs.cpu_eq
  constructor
  · exact fun p => (hq p).held
  · intro pc hm
    rw [hcpu] at hm
    exact (h.sched pc hm).quiet hq
  · grind [h.thread]

/-! ## Steps of threads -/

theorem held_update (h : ∀ p, Held (s.proc p).state → Within (s.proc p))
    (hr : Held r.state → Within r) (p : Slot) :
    Held (update s.proc q r p).state → Within (update s.proc q r p) := by
  by_cases hp : p = q
  · subst hp
    rwa [update_self]
  · rw [update_of_ne hp]
    exact h p

theorem Sliced.thread_to (h : Sliced s) {p : Slot} {pc pc' : ThreadPc}
    (hm : (s.cpu 0).mode = .thread p pc) (hm' : (s'.cpu 0).mode = .thread p pc')
    (hctx : (s'.cpu 0).context = (s.cpu 0).context)
    (hheld : ∀ p, Held (s'.proc p).state → Within (s'.proc p)) : Sliced s' := by
  constructor
  · exact hheld
  · grind
  · grind [h.thread]

theorem Sliced.threadStep (h : Sliced s) (hi : Inv s) (hs : ThreadStep c s s') : Sliced s' := by
  obtain rfl : c = 0 := Subsingleton.elim c 0
  cases hs with
  | release _ hm => exact h.thread_to hm (State.goto_mode _ _) (State.goto_context _ _) h.held
  | yield _ hm =>
    refine h.thread_to hm (State.goto_mode _ _) (State.goto_context _ _) ?_
    exact held_update h.held fun hheld => by rw [Proc.yield_state] at hheld; exact hheld.elim
  | sleep p _ hm =>
    have hrun := hi.running_of_thread hm
    refine h.thread_to hm (State.goto_mode _ _) (State.goto_context _ _) ?_
    -- the slice is not charged, so what was left at the dispatch is left now
    exact held_update h.held fun _ =>
      Within.congr (h.held p (by rw [hrun]; trivial)) rfl rfl
  | exit _ _ hm =>
    refine h.thread_to hm (State.goto_mode _ _) (State.goto_context _ _) ?_
    exact held_update h.held fun hheld => hheld.elim
  | swtch p hm =>
    obtain ⟨k, hk, hres⟩ := h.thread p _ hm
    constructor
    · exact h.held
    · intro pc hpc
      simp only [update_self, Mode.sched.injEq] at hpc
      rw [← hpc, hk]
      exact hres
    · intro q pc hq
      simp at hq

/-! ## Steps of `scheduler` -/

theorem demoteStep_within (ticks : Nat) (hs : p.state = .runnable ∨ p.state = .running) :
    Within (demoteStep ticks p) := by
  unfold demoteStep
  split
  · exact within_of_zero rfl
  · next hno =>
    intro hq
    by_contra hlt
    exact hno ⟨hs.symm, by omega, hq⟩

theorem demoteStep_keeps {ticks : Nat} (h : Within p) : Within (demoteStep ticks p) := by
  unfold demoteStep
  split
  · exact within_of_zero rfl
  · exact h

theorem ageStep_keeps {ticks : Nat} (h : Within p) : Within (ageStep ticks p) := by
  unfold ageStep
  split
  · exact within_of_zero rfl
  · exact h

theorem Sliced.sched_to (hm : (s'.cpu 0).mode = .sched pc)
    (hheld : ∀ p, Held (s'.proc p).state → Within (s'.proc p)) (hpc : PcSliced s'.proc pc) :
    Sliced s' := by
  constructor
  · exact hheld
  · grind
  · grind

theorem Sliced.goto (h : Sliced s) (hpc : PcSliced s.proc pc) : Sliced (s.goto 0 (.sched pc)) :=
  Sliced.sched_to (State.goto_mode _ _) h.held hpc

theorem Sliced.dispatch (h : Sliced s) {p : Slot} {k : Pc} (hr : Within r) (hk : Resumes k) :
    Sliced (dispatch s 0 p r k) :=
  Sliced.sched_to (State.goto_mode _ _) (held_update h.held fun _ => hr) hk

theorem update_within {i : Slot} (hr : r.state = .runnable → Within r) {P : Slot → Prop}
    (h : ∀ p, p ≠ i → P p → (proc p).state = .runnable → Within (proc p)) (p : Slot) (hp : P p) :
    (update proc i r p).state = .runnable → Within (update proc i r p) := by
  by_cases hpi : p = i
  · subst hpi
    rwa [update_self]
  · grind

theorem Sliced.schedStep (h : Sliced s) (hs : SchedStep .MLFQ c s s') : Sliced s' := by
  obtain rfl : c = 0 := Subsingleton.elim c 0
  cases hs with
  | top => exact h.goto fun p hp => absurd hp (Nat.not_lt_zero _)
  | demote i hm =>
    have hd : PcSliced s.proc (.demote i) := h.sched _ hm
    apply Sliced.sched_to (State.goto_mode _ _)
    · apply held_update h.held
      intro hheld
      rw [demoteStep_state] at hheld
      exact demoteStep_keeps (h.held i hheld)
    · apply update_within
      · grind [demoteStep_state, demoteStep_within]
      · intro p hpi hp
        have hne := Fin.val_ne_of_ne hpi
        exact hd p (by omega)
  | demoteEnd hm =>
    have hd : PcSliced s.proc (.demote nproc) := h.sched _ hm
    exact h.goto fun p => hd p p.isLt
  | age i hm =>
    have ha : PcSliced s.proc (.age i) := h.sched _ hm
    apply Sliced.sched_to (State.goto_mode _ _)
    · apply held_update h.held
      intro hheld
      rw [ageStep_state] at hheld
      exact ageStep_keeps (h.held i hheld)
    · intro p
      refine update_within (P := fun _ => True) ?_ (fun p _ _ => ha p) p trivial
      intro hrun
      rw [ageStep_state] at hrun
      exact ageStep_keeps (ha i hrun)
  | ageEnd hm =>
    have ha : PcSliced s.proc (.age nproc) := h.sched _ hm
    exact h.goto ha
  | select q i best hm =>
    have hall : PcSliced s.proc (.select q i best) := h.sched _ hm
    exact h.goto hall
  | selectEnd q best hm =>
    have hall : ∀ p, (s.proc p).state = .runnable → Within (s.proc p) := h.sched _ hm
    apply h.goto
    cases best with
    | some => exact hall
    | none =>
      by_cases hq : q < 3
      · rw [afterSelect, if_pos hq]
        exact hall
      · rw [afterSelect, if_neg hq]
        trivial
  | pickRun p hm _ hr =>
    have hall : ∀ p, (s.proc p).state = .runnable → Within (s.proc p) := h.sched _ hm
    exact h.dispatch ((hall p hr).congr rfl rfl) (.inl rfl)
  | pickSkip | rr4Skip | rr4End => exact h.goto trivial
  | rr4Run i _ _ _ hq =>
    apply h.dispatch (r := dispatched4 (s.proc i)) _ (.inr ⟨_, rfl⟩)
    intro hlt
    exact absurd hq (ne_of_lt hlt)
  | swtch p k hm =>
    have hk : Resumes k := h.sched (.swtch p k) hm
    constructor
    · exact h.held
    · intro pc hpc
      simp at hpc
    · grind
  | back p k hm =>
    have hk : Resumes k := h.sched (.back p k) hm
    exact Sliced.sched_to (State.goto_mode _ _) h.held hk.pcSliced
  | rrSkip _ hm | rrRun _ hm | rrEnd hm | scan _ _ hm | scanEnd _ hm | total _ _ hm
  | totalEnd _ _ hm | drawKeep _ _ _ hm | drawDrop _ _ _ hm | drawNone _ hm | drawRun _ _ hm
  | drawSkip _ _ hm => exact absurd (h.sched _ hm) id

theorem Sliced.step (h : Sliced s) (hi : Inv s) (hs : Step .MLFQ s s') : Sliced s' := by
  cases hs with
  | sched _ hc => exact h.schedStep hc
  | thread _ hc => exact h.threadStep hi hc
  | locked _ hc => exact h.sectionStep hc

theorem Booted.sliced (h : Booted s) : Sliced s := by
  apply Sliced.sched_to (h.cpu 0).2 _ trivial
  intro p
  by_cases hp : p = initproc
  · rw [hp, h.init]
    exact fun hheld => hheld.elim
  · rw [h.unused p hp]
    exact fun hheld => hheld.elim

theorem Run.sliced {C : State 1 → State 1 → Prop} {g : Slot → Entry} (h : Run .MLFQ C s g) :
    Sliced s := by
  induction h with
  | boot h => exact h.sliced
  | step h hs _ ih => exact ih.step h.inv hs

/-! ## The result -/

theorem Sliced.getsCpu (h : Sliced s) (hi : Inv s) (hs : Step .MLFQ s s') {p : Slot}
    (hp : GetsCpu (s.proc p) (s'.proc p)) : Within (s.proc p) := by
  have hw : Within (s'.proc p) := (h.step hi hs).held p (by rw [hp.2]; trivial)
  obtain ⟨-, hqueue, htime⟩ := hs.getsCpu hi hp
  exact hw.congr hqueue.symm htime.symm

/-- The process waits to be demoted: it is RUNNABLE in a queue below 4 and has used up its
slice. -/
structure Overdue (p : Proc) : Prop where
  runnable : p.state = .runnable
  queue : p.queue < 4
  slice : Sched.slice p.queue ≤ p.timeRanInQueue

/-- The process has been moved to another queue and its counter reset. -/
def Moved (p p' : Proc) : Prop := p'.queue ≠ p.queue ∧ p'.timeRanInQueue = 0

def Same (p p' : Proc) : Prop :=
  p'.state = p.state ∧ p'.queue = p.queue ∧ p'.timeRanInQueue = p.timeRanInQueue

theorem Overdue.not_within (h : Overdue p) : ¬Within p :=
  fun hw => absurd (hw h.queue) (not_lt.mpr h.slice)

theorem Overdue.congr (h : Overdue p) (hs : Same p p') : Overdue p' := by
  obtain ⟨hstate, hqueue, htime⟩ := hs
  exact ⟨hstate.trans h.runnable, hqueue ▸ h.queue, by rw [hqueue, htime]; exact h.slice⟩

theorem Overdue.effect (h : Overdue (s.proc q)) (he : Effect .MLFQ s q r)
    (hp : ¬GetsCpu (s.proc q) r) : Same (s.proc q) r ∨ Moved (s.proc q) r := by
  have hrun := h.runnable
  have hother : ∀ {st : ProcState}, (s.proc q).state = st → st ≠ .runnable → False :=
    fun hs hne => hne (hs.symm.trans hrun)
  cases he with
  | dispatch hs | dispatch4 hs => exact absurd ⟨by simp [hs], rfl⟩ hp
  | demote =>
    unfold demoteStep
    split
    · exact .inr ⟨by simp, rfl⟩
    · exact .inl ⟨rfl, rfl, rfl⟩
  | age =>
    unfold ageStep
    split
    · exact .inr ⟨by simp, rfl⟩
    · exact .inl ⟨rfl, rfl, rfl⟩
  | wakeup chan =>
    rcases (s.proc q).wakeup_eq s.ticks chan with hw | ⟨hs, -⟩
    · rw [hw]
      exact .inl ⟨rfl, rfl, rfl⟩
    · exact (hother hs (by simp)).elim
  | kill =>
    rcases (s.proc q).kill_state with hk | ⟨hs, -⟩
    · exact .inl ⟨hk, rfl, rfl⟩
    · exact (hother hs (by simp)).elim
  | updateTime =>
    obtain ⟨t, ht⟩ := (s.proc q).updateTime_eq
    rw [ht]
    exact .inl ⟨rfl, rfl, rfl⟩
  | setPriority | settickets => exact .inl ⟨rfl, rfl, rfl⟩
  | yield hs | sleep _ hs | exit _ hs | allocproc _ hs | allocFail _ hs | forked hs | reap hs =>
    exact (hother hs (by simp)).elim

theorem Overdue.step (hsl : Sliced s) (hi : Inv s) (hs : Step .MLFQ s s') {p : Slot}
    (h : Overdue (s.proc p)) : Same (s.proc p) (s'.proc p) ∨ Moved (s.proc p) (s'.proc p) := by
  have hp : ¬GetsCpu (s.proc p) (s'.proc p) := fun hp => h.not_within (hsl.getsCpu hi hs hp)
  rcases (hs.affects hi).proc p with ⟨hproc, -⟩ | ⟨he, -⟩
  · rw [hproc]
    exact .inl ⟨rfl, rfl, rfl⟩
  · exact h.effect he hp

/-- A later step before which the process was as it is now, and which moves it. -/
def MovedBefore (p : Slot) (s s₁ : State 1) : Prop :=
  ∃ t t', Relation.ReflTransGen (Step .MLFQ) s t ∧ Step .MLFQ t t' ∧
    Relation.ReflTransGen (Step .MLFQ) t' s₁ ∧
    Same (s.proc p) (t.proc p) ∧ Moved (t.proc p) (t'.proc p)

theorem Overdue.run (hsl : Sliced s) (hi : Inv s) {p : Slot} (h : Overdue (s.proc p)) {s1 : State 1}
    (hrun : Relation.ReflTransGen (Step .MLFQ) s s1) :
    Sliced s1 ∧ Inv s1 ∧ (Same (s.proc p) (s1.proc p) ∨ MovedBefore p s s1) := by
  induction hrun with
  | refl => exact ⟨hsl, hi, .inl ⟨rfl, rfl, rfl⟩⟩
  | @tail s1 s2 hrun hs ih =>
    obtain ⟨hsl1, hi1, hcase⟩ := ih
    refine ⟨hsl1.step hi1 hs, hi1.step hs, ?_⟩
    rcases hcase with hsame | ⟨t, t', ht, hstep, ht', hsame, hmoved⟩
    · rcases (h.congr hsame).step hsl1 hi1 hs with hsame' | hmoved
      · exact .inl ⟨hsame'.1.trans hsame.1, hsame'.2.1.trans hsame.2.1, hsame'.2.2.trans hsame.2.2⟩
      · exact .inr ⟨s1, s2, hrun, hs, .refl, hsame, hmoved⟩
    · exact .inr ⟨t, t', ht, hstep, ht'.tail hs, hsame, hmoved⟩

/-- In every run of MLFQ on one CPU: a process that is dispatched from one of the queues 0 to 3
has some of its slice left; a process that has used up its slice is RUNNABLE (or not to run any
more), and before it gets the CPU again it is moved to another queue with its counter reset. -/
theorem mlfq_slices {g : Slot → Entry} (h : Run .MLFQ (fun _ _ => True) s g) (p : Slot)
    (h0 : 0 ≤ (s.proc p).queue) (h3 : (s.proc p).queue ≤ 3) :
    (∀ s', Step .MLFQ s s' → GetsCpu (s.proc p) (s'.proc p) →
      (s.proc p).timeRanInQueue < slice (s.proc p).queue) ∧
    (slice (s.proc p).queue ≤ (s.proc p).timeRanInQueue →
      (s.proc p).state ≠ .used ∧ (s.proc p).state ≠ .sleeping ∧ (s.proc p).state ≠ .running ∧
      ((s.proc p).state = .runnable → ∀ s₁ s₂, Relation.ReflTransGen (Step .MLFQ) s s₁ →
        Step .MLFQ s₁ s₂ → GetsCpu (s₁.proc p) (s₂.proc p) → MovedBefore p s s₁)) := by
  have hsl := h.sliced
  have hlt : (s.proc p).queue < 4 := by omega
  constructor
  · intro s' hs hp
    exact hsl.getsCpu h.inv hs hp hlt
  · intro hslice
    have hheld : ¬Held (s.proc p).state := fun hheld =>
      absurd (hsl.held p hheld hlt) (not_lt.mpr hslice)
    refine ⟨?_, ?_, ?_, ?_⟩
    · exact fun hs => hheld (by rw [hs]; trivial)
    · exact fun hs => hheld (by rw [hs]; trivial)
    · exact fun hs => hheld (by rw [hs]; trivial)
    · intro hr s₁ s₂ hrun hs hp
      have hover : Overdue (s.proc p) := ⟨hr, hlt, hslice⟩
      obtain ⟨hsl1, hi1, hsame | hmoved⟩ := hover.run hsl h.inv hrun
      · exact absurd (hsl1.getsCpu hi1 hs hp) (hover.congr hsame).not_within
      · exact hmoved

theorem allowsOwn_true : AllowsOwn (fun _ _ => True) .top where
  sched _ _ _ := trivial
  thread _ _ _ _ _ _ _ := trivial

/-- The first process has used up its slice in queue 0 after its first tick. -/
theorem mlfq_slices_first : ∃ (s : State 1) (g : Slot → Entry), Run .MLFQ (fun _ _ => True) s g ∧
      Overdue (s.proc initproc) ∧
      ∀ s₁ s₂, Relation.ReflTransGen (Step .MLFQ) s s₁ → Step .MLFQ s₁ s₂ →
        GetsCpu (s₁.proc initproc) (s₂.proc initproc) → MovedBefore initproc s s₁ := by
  obtain ⟨g, hrun⟩ := forked_visited allowsOwn_true
  have hslice := (mlfq_slices hrun initproc (by decide) (by decide)).2 (by decide)
  exact ⟨_, g, hrun, ⟨rfl, by decide, by decide⟩, hslice.2.2.2 rfl⟩

end Xv6.Sched
