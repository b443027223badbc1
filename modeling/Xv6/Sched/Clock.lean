import Xv6.Sched.Timed
import Mathlib.Order.Interval.Finset.Nat

/-!
# The clock interrupt slot by slot

`clockintr` increments `ticks`, and then `update_time` visits the slots one after the other, each
under its own lock. In between the other CPUs create, dispatch and end processes. CPU 0 takes the
interrupt and does nothing else until it has visited all slots.
-/

namespace Xv6.Sched

open Function (update update_of_ne update_self)

variable {n : Nat} {b : Build}
variable {r p p' : Proc} {s s' : State n} {ticks : Nat}

/-- The state of the scheduler, with the slot that `update_time` visits next while CPU 0 is in
`clockintr`. -/
structure Clock (n : Nat) where
  state : State (n + 1)
  next : Option Nat

inductive CpuStep (b : Build) (c : Fin n) (s s' : State n) : Prop where
  | sched (h : SchedStep b c s s')
  | thread (h : ThreadStep c s s')
  | locked (h : SectionStep c s s')

/-- The step is not a part of `clockintr`: the clock stands still and no process is charged. -/
def OffClock (s s' : State n) : Prop :=
  s'.ticks = s.ticks ∧ ∀ q, (s.proc q).state = .running → (s'.proc q).rtime = (s.proc q).rtime

/-- The steps of the CPUs and of the clock interrupt. -/
inductive Clock.Step (b : Build) : Clock n → Clock n → Prop where
  /-- a step of another part of the kernel; CPU 0 makes none while it is in `clockintr` -/
  | work {s s' : State (n + 1)} {next : Option Nat} (c : Fin (n + 1)) (hc : next = none ∨ c ≠ 0)
      (hs : CpuStep b c s s') (hoff : OffClock s s') : Step b ⟨s, next⟩ ⟨s', next⟩
  /-- `ticks++`; interrupts are off while a CPU holds a lock -/
  | tick {s : State (n + 1)} (hfree : ∀ q, s.lock q ≠ some 0) :
      Step b ⟨s, none⟩ ⟨{ s with ticks := (s.ticks + 1) % 2 ^ 32 }, some 0⟩
  | visit {s : State (n + 1)} (i : Slot) (hl : s.lock i = none) :
      Step b ⟨s, some i⟩ ⟨s.setProc i (s.proc i).updateTime, some (i + 1)⟩
  | done {s : State (n + 1)} : Step b ⟨s, some nproc⟩ ⟨s, none⟩

/-! ## The life of a process -/

def Born (p p' : Proc) : Prop := p.state = .unused ∧ p'.state ≠ .unused

/-- A record change by which a process becomes a ZOMBIE. -/
def Dies (p p' : Proc) : Prop := p.state ≠ .zombie ∧ p'.state = .zombie

instance (p p' : Proc) : Decidable (Born p p') := inferInstanceAs (Decidable (_ ∧ _))
instance (p p' : Proc) : Decidable (Dies p p') := inferInstanceAs (Decidable (_ ∧ _))

def Clock.Visits (x x' : Clock n) (q : Slot) : Prop := x.next = some q.val ∧ x'.next ≠ x.next

instance (x x' : Clock n) (q : Slot) : Decidable (x.Visits x' q) :=
  inferInstanceAs (Decidable (_ ∧ _))

/-- What the clock showed when a process was created and when it exited, and the ticks at which it
was found RUNNING. -/
structure Life where
  born : Nat := 0
  died : Nat := 0
  ran : Finset Nat := ∅

def Life.after (l : Life) (x x' : Clock n) (q : Slot) : Life where
  born := if Born (x.state.proc q) (x'.state.proc q) then x.state.ticks else l.born
  died := if Dies (x.state.proc q) (x'.state.proc q) then x.state.ticks else l.died
  ran :=
    if Born (x.state.proc q) (x'.state.proc q) then ∅
    else if x.Visits x' q ∧ (x.state.proc q).state = .running then insert x.state.ticks l.ran
    else l.ran

attribute [local simp] Life.after

/-- The runs whose steps all satisfy `C`, with the lives of the processes. -/
inductive Clock.Run (b : Build) (C : Clock n → Clock n → Prop) :
    Clock n → (Slot → Life) → Prop where
  | boot {s : State (n + 1)} (h : Booted s) : Run b C ⟨s, none⟩ fun _ => {}
  | step {x x' : Clock n} {g : Slot → Life} (h : Run b C x g) (hs : Clock.Step b x x')
      (hc : C x x') : Run b C x' fun q => (g q).after x x' q

def Clock.Due (x : Clock n) (q : Slot) : Prop := ∃ i ≤ q.val, x.next = some i

/-- No process is created in a slot that is still to be visited, and the clock does not wrap
around. -/
structure Timely (x x' : Clock n) : Prop where
  created : ∀ q, Born (x.state.proc q) (x'.state.proc q) → ¬ x.Due q
  clock : x.state.ticks ≤ x'.state.ticks

/-! ## What a step does to the times of a process -/

variable {x x' : Clock n} {q : Slot} {l : Life} {g : Slot → Life}

/-- What a step at time `ticks` that does not charge a process does to its times. -/
inductive Times (ticks : Nat) (p p' : Proc) : Prop where
  | kept (hu : p'.state = .unused ↔ p.state = .unused)
      (hz : p'.state = .zombie → p.state = .zombie ∧ p'.etime = p.etime)
      (hr : p'.rtime = p.rtime) (hc : p'.ctime = p.ctime)
  | born (hs : p.state = .unused) (hs' : p'.state = .used) (hr : p'.rtime = 0)
      (hc : p'.ctime = ticks)
  | died (hs : p.state = .running) (hs' : p'.state = .zombie) (he : p'.etime = ticks)
      (hr : p'.rtime = p.rtime) (hc : p'.ctime = p.ctime)
  | gone (hs' : p'.state = .unused)

theorem Times.refl (ticks : Nat) (p : Proc) : Times ticks p p :=
  .kept Iff.rfl (fun h => ⟨h, rfl⟩) rfl rfl

theorem Times.alive (hs : p.state ≠ .unused) (hs' : p'.state ≠ .unused)
    (hz : p'.state ≠ .zombie) (hr : p'.rtime = p.rtime) (hc : p'.ctime = p.ctime) :
    Times ticks p p' :=
  .kept (iff_of_false hs' hs) (fun h => absurd h hz) hr hc

theorem Times.same (hs : p'.state = p.state) (hr : p'.rtime = p.rtime)
    (hc : p'.ctime = p.ctime) (he : p'.etime = p.etime) : Times ticks p p' :=
  .kept (by rw [hs]) (fun h => ⟨hs ▸ h, he⟩) hr hc

theorem Effect.times (h : Effect b s q r)
    (hoff : (s.proc q).state = .running → r.rtime = (s.proc q).rtime) :
    Times s.ticks (s.proc q) r := by
  cases h with
  | dispatch hs => exact .alive (by simp [hs]) (by simp [dispatched]) (by simp [dispatched]) rfl rfl
  | dispatch4 hs =>
    exact .alive (by simp [hs]) (by simp [dispatched4]) (by simp [dispatched4]) rfl rfl
  | demote =>
    unfold demoteStep
    split
    · exact .same rfl rfl rfl rfl
    · exact .refl _ _
  | age =>
    unfold ageStep
    split
    · exact .same rfl rfl rfl rfl
    · exact .refl _ _
  | yield hs =>
    obtain ⟨x, hx⟩ := (s.proc q).yield_eq s.ticks
    rw [hx]
    exact .alive (by simp [hs]) (by simp) (by simp) rfl rfl
  | sleep _ hs => exact .alive (by simp [hs]) (by simp [Proc.sleep]) (by simp [Proc.sleep]) rfl rfl
  | exit _ hs => exact .died hs rfl rfl rfl rfl
  | wakeup chan =>
    rcases (s.proc q).wakeup_eq s.ticks chan with hw | ⟨hs, -, t, x, hw⟩
    · rw [hw]
      exact .refl _ _
    · rw [hw]
      exact .alive (by simp [hs]) (by simp) (by simp) rfl rfl
  | kill =>
    rcases (s.proc q).kill_state with hk | ⟨hs, hk⟩
    · exact .same hk rfl rfl rfl
    · exact .alive (by simp [hs]) (by simp [hk]) (by simp [hk]) rfl rfl
  | allocproc _ hs => exact .born hs rfl rfl rfl
  | allocFail | reap => exact .gone rfl
  | forked hs => exact .alive (by simp [hs]) (by simp) (by simp) rfl rfl
  | setPriority | settickets => exact .same rfl rfl rfl rfl
  | updateTime =>
    obtain ⟨t, ht⟩ := (s.proc q).updateTime_eq
    have hr : (s.proc q).updateTime.rtime = (s.proc q).rtime := by
      by_cases hs : (s.proc q).state = .running
      · exact hoff hs
      · rw [Proc.updateTime, if_neg hs]
    rw [ht] at hr ⊢
    exact .same rfl hr rfl rfl

theorem CpuStep.step {c : Fin n} (h : CpuStep b c s s') : Sched.Step b s s' := by
  cases h with
  | sched h => exact .sched c h
  | thread h => exact .thread c h
  | locked h => exact .locked c h

theorem Clock.Step.inv (hs : Clock.Step b x x') (hi : Inv x.state) : Inv x'.state := by
  cases hs with
  | work _ _ hs => exact hi.step hs.step
  | tick => exact hi.step (b := b) (.locked 0 (.clockintr _))
  | visit i hl => exact hi.step (b := b) (.locked 0 (.updateTime _ i hl))
  | done => exact hi

theorem Clock.Step.times (hs : Clock.Step b x x') (hi : Inv x.state) (hv : ¬ x.Visits x' q) :
    Times x.state.ticks (x.state.proc q) (x'.state.proc q) := by
  cases hs with
  | @work s s' _ c _ hs hoff =>
    rcases (hs.step.affects hi).proc q with ⟨hp, -⟩ | ⟨he, -⟩
    · rw [hp]
      exact .refl _ _
    · exact he.times (hoff.2 q)
  | tick | done => exact .refl _ _
  | @visit s i hl =>
    have hq : q ≠ i := by
      rintro rfl
      exact hv ⟨rfl, by simp⟩
    have hp : (s.setProc i (s.proc i).updateTime).proc q = s.proc q := update_of_ne hq _ _
    rw [hp]
    exact .refl _ _

theorem Clock.Step.due (hs : Clock.Step b x x') (ht : x.state.ticks ≤ x'.state.ticks) (hd : x'.Due q) :
    (x.Due q ∧ x'.state.ticks = x.state.ticks) ∨ x.state.ticks < x'.state.ticks := by
  obtain ⟨i, hi, hn⟩ := hd
  cases hs with
  | work _ _ _ hoff => exact .inl ⟨⟨i, hi, hn⟩, hoff.1⟩
  | @tick s _ => grind
  | @visit s j hl =>
    have hj : j.val + 1 = i := Option.some.inj hn
    exact .inl ⟨⟨j, by omega, rfl⟩, rfl⟩
  | done => cases hn

theorem Clock.Step.visited (hs : Clock.Step b x x') (hv : x.Visits x' q) :
    x'.state.ticks = x.state.ticks ∧ x'.next = some (q.val + 1) ∧
      x'.state.proc q = (x.state.proc q).updateTime := by
  obtain ⟨hn, hne⟩ := hv
  cases hs with
  | work => exact absurd rfl hne
  | tick => cases hn
  | @visit s i hl =>
    obtain rfl : i = q := Fin.ext (Option.some.inj hn)
    exact ⟨rfl, rfl, update_self _ _ _⟩
  | done => grind

/-! ## The times of a process and its life -/

/-- The record of a process in use agrees with its life. -/
structure Tracked (x : Clock n) (q : Slot) (p : Proc) (l : Life) : Prop where
  rtime : p.rtime = l.ran.card
  ctime : p.ctime = l.born
  born : l.born ≤ x.state.ticks
  ran : ∀ t ∈ l.ran, l.born < t ∧ t ≤ x.state.ticks
  due : x.Due q → l.born < x.state.ticks ∧ x.state.ticks ∉ l.ran
  zombie : p.state = .zombie → p.etime = l.died ∧ l.born ≤ l.died ∧ l.died ≤ x.state.ticks ∧
    ∀ t ∈ l.ran, t ≤ l.died

theorem Tracked.kept (h : Tracked x q p l) (hs : Clock.Step b x x')
    (ht : x.state.ticks ≤ x'.state.ticks)
    (hz : p'.state = .zombie → p.state = .zombie ∧ p'.etime = p.etime)
    (hr : p'.rtime = p.rtime) (hc : p'.ctime = p.ctime) : Tracked x' q p' l where
  rtime := hr.trans h.rtime
  ctime := hc.trans h.ctime
  born := Nat.le_trans h.born ht
  ran t hmem := ⟨(h.ran t hmem).1, Nat.le_trans (h.ran t hmem).2 ht⟩
  due hd := by
    rcases hs.due ht hd with ⟨hd', he⟩ | hlt
    · rw [he]
      exact h.due hd'
    · refine ⟨Nat.lt_of_le_of_lt h.born hlt, ?_⟩
      intro hmem
      exact absurd (h.ran _ hmem).2 (Nat.not_le.mpr hlt)
  zombie hs' := by
    obtain ⟨hz', he⟩ := hz hs'
    obtain ⟨h1, h2, h3, h4⟩ := h.zombie hz'
    exact ⟨he.trans h1, h2, Nat.le_trans h3 ht, h4⟩

theorem Tracked.died (h : Tracked x q p l) (hs : Clock.Step b x x')
    (ht : x.state.ticks ≤ x'.state.ticks) (hr : p'.rtime = p.rtime) (hc : p'.ctime = p.ctime)
    (he : p'.etime = x.state.ticks) : Tracked x' q p' { l with died := x.state.ticks } := by
  have hlive : Tracked x' q { p' with state := .running } l :=
    h.kept hs ht (fun hz => by cases hz) hr hc
  exact { hlive with zombie := fun _ => ⟨he, h.born, ht, fun t hmem => (h.ran t hmem).2⟩ }

theorem Tracked.fresh (hs : Clock.Step b x x') (ht : x.state.ticks ≤ x'.state.ticks)
    (hd : ¬ x.Due q) (hr : p'.rtime = 0) (hc : p'.ctime = x.state.ticks)
    (hz : p'.state ≠ .zombie) (d : Nat) :
    Tracked x' q p' { born := x.state.ticks, died := d, ran := ∅ } where
  rtime := by simp [hr]
  ctime := hc
  born := ht
  ran t hmem := absurd hmem (Finset.notMem_empty t)
  due hd' := by
    rcases hs.due ht hd' with ⟨h, -⟩ | hlt
    · exact absurd h hd
    · exact ⟨hlt, Finset.notMem_empty _⟩
  zombie h := absurd h hz

theorem Tracked.clocked (h : Tracked x q p l) (hd : x.Due q) (hd' : ¬ x'.Due q)
    (ht : x'.state.ticks = x.state.ticks) (hlt : x.state.ticks < 2 ^ 32) (hs : p.state = .running) :
    Tracked x' q p.updateTime { l with ran := insert x.state.ticks l.ran } := by
  obtain ⟨hborn, hnew⟩ := h.due hd
  have hran : ∀ t ∈ insert x.state.ticks l.ran, l.born < t ∧ t ≤ x.state.ticks := by
    intro t hmem
    rcases Finset.mem_insert.mp hmem with rfl | hmem
    · exact ⟨hborn, Nat.le_refl _⟩
    · exact h.ran t hmem
  have hcard : (insert x.state.ticks l.ran).card ≤ x.state.ticks - l.born := by
    rw [← Nat.card_Ioc]
    apply Finset.card_le_card
    intro t hmem
    exact Finset.mem_Ioc.mpr (hran t hmem)
  have hp : p.updateTime = { p with rtime := (p.rtime + 1) % 2 ^ 32 } := if_pos hs
  rw [Finset.card_insert_of_notMem hnew] at hcard
  refine ⟨?_, ?_, ?_, ?_, fun hdue => absurd hdue hd', ?_⟩
  · rw [hp, Finset.card_insert_of_notMem hnew, h.rtime, Nat.mod_eq_of_lt (by omega)]
  · rw [hp]
    exact h.ctime
  · rw [ht]
    exact h.born
  · rw [ht]
    exact hran
  · grind

/-- The records of all processes in use agree with their lives. -/
structure Clocked (x : Clock n) (g : Slot → Life) : Prop where
  inv : Inv x.state
  ticks : x.state.ticks < 2 ^ 32
  tracked : ∀ q, (x.state.proc q).state ≠ .unused → Tracked x q (x.state.proc q) (g q)

theorem Booted.clocked {s : State (n + 1)} (h : Booted s) :
    Clocked (⟨s, none⟩ : Clock n) fun _ => {} where
  inv := h.toInitial.inv
  ticks := by
    show s.ticks < 2 ^ 32
    rw [h.ticks]
    decide
  tracked q hq := by
    have hdue : ¬ (⟨s, none⟩ : Clock n).Due q := by
      rintro ⟨i, -, hi⟩
      cases hi
    by_cases hinit : q = initproc
    · subst hinit
      show Tracked _ _ (s.proc initproc) _
      rw [h.init]
      refine ⟨rfl, rfl, Nat.zero_le _, ?_, fun hd => absurd hd hdue, fun hz => by cases hz⟩
      intro t hmem
      exact absurd hmem (Finset.notMem_empty t)
    · have hunused : (s.proc q).state = .unused := by rw [h.unused q hinit]
      exact absurd hunused hq

theorem Clock.Step.ticks_lt (hs : Clock.Step b x x') (h : x.state.ticks < 2 ^ 32) :
    x'.state.ticks < 2 ^ 32 := by
  cases hs with
  | work _ _ _ hoff =>
    rw [hoff.1]
    exact h
  | tick => exact Nat.mod_lt _ (by decide)
  | visit | done => exact h

theorem Clocked.step (h : Clocked x g) (hs : Clock.Step b x x') (hc : Timely x x') :
    Clocked x' fun q => (g q).after x x' q := by
  refine ⟨hs.inv h.inv, hs.ticks_lt h.ticks, ?_⟩
  intro q hq
  by_cases hv : x.Visits x' q
  · obtain ⟨ht, hn, hp⟩ := hs.visited hv
    have hstate : (x'.state.proc q).state = (x.state.proc q).state := by
      rw [hp, Proc.updateTime_state]
    have htr := h.tracked q (hstate ▸ hq)
    have hborn : ¬ Born (x.state.proc q) (x'.state.proc q) := fun hb => hq (hstate.trans hb.1)
    have hdies : ¬ Dies (x.state.proc q) (x'.state.proc q) := fun hd => hd.1 (hstate ▸ hd.2)
    by_cases hrun : (x.state.proc q).state = .running
    · have hdue : ¬ x'.Due q := by
        rintro ⟨i, hi, hn'⟩
        rw [hn] at hn'
        have := Option.some.inj hn'
        omega
      have hafter : (g q).after x x' q = { g q with ran := insert x.state.ticks (g q).ran } := by
        simp [hborn, hdies, hv, hrun]
      rw [hafter, hp]
      exact htr.clocked ⟨q, Nat.le_refl _, hv.1⟩ hdue ht h.ticks hrun
    · have hafter : (g q).after x x' q = g q := by
        simp [hborn, hdies, hrun]
      have hid : (x.state.proc q).updateTime = x.state.proc q := if_neg hrun
      rw [hafter, hp, hid]
      exact htr.kept hs hc.clock (fun hz => ⟨hz, rfl⟩) rfl rfl
  · cases hs.times h.inv hv with
    | kept hu hz hr hct =>
      have hq' : (x.state.proc q).state ≠ .unused := fun he => hq (hu.mpr he)
      have hborn : ¬ Born (x.state.proc q) (x'.state.proc q) := fun hb => hq' hb.1
      have hdies : ¬ Dies (x.state.proc q) (x'.state.proc q) := fun hd => hd.1 (hz hd.2).1
      have hafter : (g q).after x x' q = g q := by simp [hborn, hdies, hv]
      rw [hafter]
      exact (h.tracked q hq').kept hs hc.clock hz hr hct
    | born hu hu' hr hct =>
      have := hc.clock
      have := hc.created
      grind [Born, Dies, Life.after, Tracked.fresh]
    | died hrun hz he hr hct =>
      have hborn : ¬ Born (x.state.proc q) (x'.state.proc q) := by simp [Born, hrun]
      have hdies : Dies (x.state.proc q) (x'.state.proc q) := ⟨by simp [hrun], hz⟩
      have hafter : (g q).after x x' q = { g q with died := x.state.ticks } := by
        simp [hborn, hdies, hv]
      rw [hafter]
      exact (h.tracked q (by simp [hrun])).died hs hc.clock hr hct he
    | gone hu => exact absurd hu hq

theorem Clock.Run.clocked (h : Clock.Run b Timely x g) : Clocked x g := by
  induction h with
  | boot h => exact h.clocked
  | step _ hs hc ih => exact ih.step hs hc

/-- If no process is created in a slot that the clock interrupt in progress still has to visit, and
while `ticks` does not wrap around, a ZOMBIE has run for no more ticks than it has existed, and the
wait time is the number of ticks of its life at which it was not found RUNNING. -/
theorem wait_time_exact {g : Slot → Life} (h : Clock.Run b Timely x g)
    (hz : (x.state.proc q).state = .zombie) :
    (x.state.proc q).ctime + (x.state.proc q).rtime ≤ (x.state.proc q).etime ∧
      (x.state.proc q).wtime = (Finset.Ioc (g q).born (g q).died \ (g q).ran).card := by
  have hc := h.clocked
  have htr := hc.tracked q (by simp [hz])
  obtain ⟨he, hle, hdied, hran⟩ := htr.zombie hz
  have hsub : (g q).ran ⊆ Finset.Ioc (g q).born (g q).died := by
    have := htr.ran
    grind
  have hcard := Finset.card_le_card hsub
  have hlt := hc.ticks
  rw [Nat.card_Ioc] at hcard
  constructor
  · rw [htr.ctime, htr.rtime, he]
    omega
  · rw [Finset.card_sdiff_of_subset hsub, Nat.card_Ioc, Proc.wtime, htr.ctime, htr.rtime, he]
    omega

/-! ## Runs on three CPUs -/

section Three

variable {C : Clock 2 → Clock 2 → Prop}

/-- The table that `userinit` leaves, and the CPUs in `scheduler`. -/
def threeCpus : State 3 where
  proc p := if p = initproc then
    { (({} : Proc).allocate 0 1).enterQueue 0 with state := .runnable } else {}
  lock _ := none
  ctx _ := .saved
  cpu _ := ⟨none, .top, .sched .top⟩
  ticks := 0

theorem threeCpus_booted : Booted threeCpus where
  proc p := by
    by_cases hp : p = initproc
    · simp [threeCpus, hp]
    · simp [threeCpus, hp]
  lock _ := rfl
  ctx _ := rfl
  cpu _ := ⟨rfl, rfl⟩
  ticks := rfl
  init := rfl
  unused p hp := if_neg hp

def nextSlot : Slot := ⟨1, one_lt_nproc⟩

theorem OffClock.of_update (hp : s'.proc = update s.proc q r)
    (ht : s'.ticks = s.ticks) (hr : (s.proc q).state = .running → r.rtime = (s.proc q).rtime) :
    OffClock s s' := by
  refine ⟨ht, ?_⟩
  intro i hi
  rw [hp]
  by_cases hq : i = q
  · grind
  · rw [update_of_ne hq]

def firstRuns : State 3 :=
  let s := threeCpus.goto 1 (.sched (.rr 0))
  let s := dispatch s 1 initproc (dispatched .RR 0 (threeCpus.proc initproc)) (.rr 1)
  let s : State 3 := { s with
    ctx := update s.ctx initproc (.live 1)
    cpu := update s.cpu 1
      { s.cpu 1 with context := .back initproc (.rr 1), mode := .thread initproc .resumed } }
  (s.setLock initproc none).goto 1 (.thread initproc .running)

theorem firstRuns_run (hC : ∀ x x', x.next = none → x'.state.ticks = x.state.ticks → C x x') :
    ∃ g, Clock.Run .RR C ⟨firstRuns, none⟩ g := by
  have h0 : Clock.Run .RR C ⟨threeCpus, none⟩ _ := .boot threeCpus_booted
  have h1 := h0.step (.work 1 (.inl rfl) (.sched (.top _ rfl)) ⟨rfl, fun _ _ => rfl⟩)
    (hC _ _ rfl rfl)
  have h2 := h1.step (.work 1 (.inl rfl) (.sched (.rrRun _ initproc rfl rfl rfl))
    (.of_update rfl rfl fun _ => rfl)) (hC _ _ rfl rfl)
  have h3 := h2.step (.work 1 (.inl rfl) (.sched (.swtch _ initproc (.rr 1) rfl))
    ⟨rfl, fun _ _ => rfl⟩) (hC _ _ rfl rfl)
  have h4 := h3.step (.work 1 (.inl rfl) (.thread (.release _ initproc rfl))
    ⟨rfl, fun _ _ => rfl⟩) (hC _ _ rfl rfl)
  exact ⟨_, h4⟩

/-- The first process forks; CPU 2 switches to the child. -/
def childRuns (s : State 3) : State 3 :=
  let s : State 3 := { s.setProc nextSlot
      (((s.proc nextSlot).allocate s.ticks 2).enterQueue s.ticks) with
    ctx := update s.ctx nextSlot .saved }
  let s := s.setProc nextSlot { s.proc nextSlot with state := .runnable }
  let s := s.goto 2 (.sched (.rr 0))
  let s := s.goto 2 (.sched (.rr 1))
  let s := dispatch s 2 nextSlot (dispatched .RR s.ticks (s.proc nextSlot)) (.rr 2)
  let s : State 3 := { s with
    ctx := update s.ctx nextSlot (.live 2)
    cpu := update s.cpu 2
      { s.cpu 2 with context := .back nextSlot (.rr 2), mode := .thread nextSlot .resumed } }
  (s.setLock nextSlot none).goto 2 (.thread nextSlot .running)

theorem childRuns_run {s : State 3} {next : Option Nat} (h : Clock.Run .RR C ⟨s, next⟩ g)
    (hC : ∀ x x', x.next = next → x'.state.ticks = x.state.ticks → C x x')
    (hcpu : (s.cpu 2).mode = .sched .top) (hlock : s.lock = firstRuns.lock)
    (hinit : (s.proc initproc).state = .running) (hnew : (s.proc nextSlot).state = .unused) :
    ∃ g, Clock.Run .RR C ⟨childRuns s, next⟩ g := by
  have hl : s.lock nextSlot = none ∧ s.lock initproc = none := by
    rw [hlock]
    exact ⟨rfl, rfl⟩
  have hskip : (s.proc initproc).state ≠ .runnable := by simp [hinit]
  have h1 := h.step (.work 1 (.inr (by decide)) (.locked (.allocproc _ nextSlot 2 hl.1 hnew))
    (.of_update rfl rfl fun hr => by rw [hnew] at hr; cases hr)) (hC _ _ rfl rfl)
  have h2 := h1.step (.work 1 (.inr (by decide)) (.locked (.forked _ nextSlot hl.1 rfl))
    (.of_update rfl rfl fun _ => rfl)) (hC _ _ rfl rfl)
  have h3 := h2.step (.work 2 (.inr (by decide)) (.sched (.top _ hcpu)) ⟨rfl, fun _ _ => rfl⟩)
    (hC _ _ rfl rfl)
  have h4 := h3.step (.work 2 (.inr (by decide)) (.sched (.rrSkip _ initproc rfl hl.2 hskip))
    ⟨rfl, fun _ _ => rfl⟩) (hC _ _ rfl rfl)
  have h5 := h4.step (.work 2 (.inr (by decide)) (.sched (.rrRun _ nextSlot rfl hl.1 rfl))
    (.of_update rfl rfl fun _ => rfl)) (hC _ _ rfl rfl)
  have h6 := h5.step (.work 2 (.inr (by decide)) (.sched (.swtch _ nextSlot (.rr 2) rfl))
    ⟨rfl, fun _ _ => rfl⟩) (hC _ _ rfl rfl)
  have h7 := h6.step (.work 2 (.inr (by decide)) (.thread (.release _ nextSlot rfl))
    ⟨rfl, fun _ _ => rfl⟩) (hC _ _ rfl rfl)
  exact ⟨_, h7⟩

/-- The clock ticks, and `update_time` visits the first slot. -/
def oneTick (s : State 3) : State 3 :=
  let s : State 3 := { s with ticks := (s.ticks + 1) % 2 ^ 32 }
  s.setProc initproc (s.proc initproc).updateTime

/-- The clock ticks and the first slot is visited; the first process forks, and the child runs on
CPU 2 when its slot is visited; it exits in the same tick. It has run for one tick in a life of
none, and the wait time is 2^32 - 1. -/
theorem wait_time_underflows : ∃ (x : Clock 2) (g : Slot → Life) (q : Slot),
    Clock.Run .RR (fun x x' => x.state.ticks ≤ x'.state.ticks) x g ∧
      (x.state.proc q).state = .zombie ∧ (x.state.proc q).ctime = (x.state.proc q).etime ∧
      (x.state.proc q).rtime = 1 ∧ (x.state.proc q).wtime = 2 ^ 32 - 1 := by
  obtain ⟨g, h⟩ := firstRuns_run (C := fun x x' => x.state.ticks ≤ x'.state.ticks)
    fun _ _ _ ht => ht.ge
  have h1 := h.step (.tick (by decide +kernel)) (by decide)
  have h2 := h1.step (.visit initproc rfl) (by decide)
  obtain ⟨g, h3⟩ := childRuns_run (s := oneTick firstRuns) h2 (fun _ _ _ ht => ht.ge) rfl rfl rfl
    rfl
  have h4 := h3.step (.visit nextSlot rfl) (by decide)
  have h5 := h4.step (.work 2 (.inr (by decide)) (.thread (.exit _ nextSlot 0 rfl rfl))
    (.of_update rfl rfl fun _ => rfl)) (by decide)
  exact ⟨_, _, nextSlot, h5, rfl, rfl, rfl, rfl⟩

theorem Timely.idle (hn : x.next = none) (ht : x.state.ticks ≤ x'.state.ticks) : Timely x x' := by
  refine ⟨?_, ht⟩
  rintro q - ⟨i, -, hi⟩
  rw [hn] at hi
  cases hi

theorem Timely.of_update (hr : (x.state.proc q).state ≠ .unused)
    (hp : x'.state.proc = update x.state.proc q r) (ht : x'.state.ticks = x.state.ticks) :
    Timely x x' := by
  refine ⟨?_, ht.ge⟩
  rintro i ⟨hu, hu'⟩
  by_cases hq : i = q
  · subst hq
    exact absurd hu hr
  · simp_all

/-- The first process forks, the child runs for a tick and exits. -/
theorem wait_time_exact_child : ∃ (x : Clock 2) (g : Slot → Life),
    Clock.Run .RR Timely x g ∧ (x.state.proc nextSlot).state = .zombie ∧
      (x.state.proc nextSlot).rtime = 1 ∧
      (x.state.proc nextSlot).wtime =
        (Finset.Ioc (g nextSlot).born (g nextSlot).died \ (g nextSlot).ran).card := by
  obtain ⟨g, h⟩ := firstRuns_run fun _ _ hn ht => Timely.idle hn ht.ge
  obtain ⟨g, h1⟩ := childRuns_run h (fun _ _ hn ht => Timely.idle hn ht.ge) rfl rfl rfl rfl
  have h2 := h1.step (.tick (by decide +kernel)) (.idle rfl (by decide))
  have h3 := h2.step (.visit initproc rfl) (.of_update (by decide) rfl rfl)
  have h4 := h3.step (.visit nextSlot rfl) (.of_update (by decide) rfl rfl)
  have h5 := h4.step (.work 2 (.inr (by decide)) (.thread (.exit _ nextSlot 0 rfl rfl))
    (.of_update rfl rfl fun _ => rfl)) (.of_update (q := nextSlot) (by decide) rfl rfl)
  exact ⟨_, _, h5, rfl, rfl, (wait_time_exact h5 rfl).2⟩

end Three

end Xv6.Sched
