import Xv6.Sched.WaitTime

/-!
# Niceness

`yield` charges a process with the time since it was dispatched, `wakeup` with the time since it
went to sleep, and both compute its niceness from the two sums. A process runs and sleeps at
different times, so that the sums stay below its age; `kill` wakes a sleeper without charging it,
and `set_priority` drops what has been charged. This is about the builds other than MLFQ, whose
loop over queue 4 does not note the time of a dispatch.
-/

namespace Xv6.Sched

variable {n : Nat} {b : Build} {c : Fin n} {s s' : State n} {ticks : Nat} {p : Proc}

def IsInt (x : Int) : Prop := -2 ^ 31 ≤ x ∧ x < 2 ^ 31

theorem IsInt.toInt32 {x : Int} (h : IsInt x) : toInt32 x = x := toInt32_of_range h.1 h.2

/-! ## The account of one process -/

def chargedUpTo (ticks : Nat) (p : Proc) : Int :=
  match p.state with
  | .running => p.lastScheduled
  | .sleeping => p.lastSlept
  | _ => ticks

/-- What holds of the fields of a process when the clock shows `ticks`. -/
structure Charged (ticks : Nat) (p : Proc) : Prop where
  created : 0 ≤ p.createTime
  timeRun : 0 ≤ p.timeRun
  timeSlept : 0 ≤ p.timeSlept
  timeRanInQueue : 0 ≤ p.timeRanInQueue
  niceness : 0 ≤ p.niceness ∧ p.niceness ≤ 10
  sum : p.timeRun + p.timeSlept ≤ chargedUpTo ticks p - p.createTime
  ran : p.timeRanInQueue ≤ chargedUpTo ticks p - p.createTime
  past : chargedUpTo ticks p ≤ ticks

def Early (ticks : Nat) : Prop := 10 * ticks < 2 ^ 31

instance (ticks : Nat) : Decidable (Early ticks) := inferInstanceAs (Decidable (_ < _))

theorem Early.toInt32 (h : Early ticks) : toInt32 ticks = ticks := by
  unfold Early at h
  apply toInt32_of_range <;> omega

theorem Charged.sum_le (h : Charged ticks p) : p.timeRun + p.timeSlept ≤ ticks - p.createTime := by
  have hsum := h.sum
  have hpast := h.past
  omega

section

variable {p' : Proc} (h : Charged ticks p) (hc : p'.createTime = p.createTime)
  (hr : p'.timeRun = p.timeRun) (hsl : p'.timeSlept = p.timeSlept)
  (hq : p'.timeRanInQueue = p.timeRanInQueue) (hn : p'.niceness = p.niceness)

include h hc hr hsl hq hn

theorem Charged.keep (hle : chargedUpTo ticks p ≤ chargedUpTo ticks p') (hpast : chargedUpTo ticks p' ≤ ticks) :
    Charged ticks p' := by
  have hsum := h.sum
  have hran := h.ran
  constructor
  · rw [hc]
    exact h.created
  · rw [hr]
    exact h.timeRun
  · rw [hsl]
    exact h.timeSlept
  · rw [hq]
    exact h.timeRanInQueue
  · rw [hn]
    exact h.niceness
  · omega
  · omega
  · exact hpast

theorem Charged.settle (hup : chargedUpTo ticks p' = ticks) : Charged ticks p' :=
  h.keep hc hr hsl hq hn (hup.symm ▸ h.past) hup.le

end

theorem Charged.later {ticks' : Nat} (h : Charged ticks p) (hle : ticks ≤ ticks') :
    Charged ticks' p := by
  have hup : chargedUpTo ticks p ≤ chargedUpTo ticks' p ∧ chargedUpTo ticks' p ≤ ticks' := by
    grind [h.past, chargedUpTo]
  have hsum := h.sum
  have hran := h.ran
  exact { h with sum := by omega, ran := by omega, past := hup.2 }

/-! ## `yield` and `wakeup` -/

theorem renice_exact (hs : 0 ≤ p.timeSlept)
    (hsum : IsInt (p.timeSlept + p.timeRun)) (hten : IsInt (10 * p.timeSlept)) :
    p.renice = { p with niceness :=
      if p.timeSlept + p.timeRun = 0 then p.niceness
      else 10 * p.timeSlept / (p.timeSlept + p.timeRun) } := by
  unfold Proc.renice
  rw [hsum.toInt32, hten.toInt32]
  by_cases hz : p.timeSlept + p.timeRun = 0
  · rw [if_neg (not_not.mpr hz), if_pos hz]
  · grind

theorem renice_range (hs : 0 ≤ p.timeSlept) (hr : 0 ≤ p.timeRun)
    (hn : 0 ≤ p.niceness ∧ p.niceness ≤ 10) {x : Int}
    (hx : x = if p.timeSlept + p.timeRun = 0 then p.niceness
      else 10 * p.timeSlept / (p.timeSlept + p.timeRun)) : 0 ≤ x ∧ x ≤ 10 := by
  subst hx
  split
  · exact hn
  · next hz =>
    constructor
    · exact Int.ediv_nonneg (by omega) (by omega)
    · apply Int.ediv_le_of_le_mul (by omega)
      omega

/-- What `yield` computes, with no overflow on the way. -/
structure YieldExact (ticks : Nat) (p : Proc) : Prop where
  elapsed : 0 ≤ ticks - p.lastScheduled
  timeRun : IsInt (p.timeRun + (ticks - p.lastScheduled))
  timeRanInQueue : IsInt (p.timeRanInQueue + (ticks - p.lastScheduled))
  sum : IsInt (p.timeSlept + (p.timeRun + (ticks - p.lastScheduled)))
  product : IsInt (10 * p.timeSlept)
  eq : p.yield ticks = { p with
    state := .runnable
    timeRun := p.timeRun + (ticks - p.lastScheduled)
    timeRanInQueue := p.timeRanInQueue + (ticks - p.lastScheduled)
    niceness :=
      if p.timeSlept + (p.timeRun + (ticks - p.lastScheduled)) = 0 then p.niceness
      else 10 * p.timeSlept / (p.timeSlept + (p.timeRun + (ticks - p.lastScheduled))) }

/-- What `wakeup` computes for a process that sleeps on the channel. -/
structure WakeupExact (ticks : Nat) (p : Proc) : Prop where
  elapsed : 0 ≤ ticks - p.lastSlept
  timeSlept : IsInt (p.timeSlept + (ticks - p.lastSlept))
  sum : IsInt (p.timeSlept + (ticks - p.lastSlept) + p.timeRun)
  product : IsInt (10 * (p.timeSlept + (ticks - p.lastSlept)))
  eq : p.wakeup ticks p.chan = { p with
    state := .runnable
    timeSlept := p.timeSlept + (ticks - p.lastSlept)
    niceness :=
      if p.timeSlept + (ticks - p.lastSlept) + p.timeRun = 0 then p.niceness
      else 10 * (p.timeSlept + (ticks - p.lastSlept)) /
        (p.timeSlept + (ticks - p.lastSlept) + p.timeRun)
    lastSlept := -1 }

section

variable (h : Charged ticks p) (hc : Early ticks)

include h hc

theorem Charged.yieldExact (hs : p.state = .running) : YieldExact ticks p := by
  obtain ⟨hcr, hrun, hsl, hq, -, hsum, hran, hpast⟩ := h
  unfold Early at hc
  simp only [chargedUpTo, hs] at hsum hran hpast
  have h1 : IsInt (p.timeRun + (ticks - p.lastScheduled)) := ⟨by omega, by omega⟩
  have h2 : IsInt (p.timeRanInQueue + (ticks - p.lastScheduled)) := ⟨by omega, by omega⟩
  have h3 : IsInt (p.timeSlept + (p.timeRun + (ticks - p.lastScheduled))) := ⟨by omega, by omega⟩
  have h4 : IsInt (10 * p.timeSlept) := ⟨by omega, by omega⟩
  refine ⟨by omega, h1, h2, h3, h4, ?_⟩
  unfold Proc.yield
  rw [h1.toInt32, h2.toInt32]
  exact renice_exact hsl h3 h4

theorem Charged.wakeupExact (hs : p.state = .sleeping) : WakeupExact ticks p := by
  obtain ⟨hcr, hrun, hsl, -, -, hsum, -, hpast⟩ := h
  unfold Early at hc
  simp only [chargedUpTo, hs] at hsum hpast
  have h1 : IsInt (p.timeSlept + (ticks - p.lastSlept)) := ⟨by omega, by omega⟩
  have h2 : IsInt (p.timeSlept + (ticks - p.lastSlept) + p.timeRun) := ⟨by omega, by omega⟩
  have h3 : IsInt (10 * (p.timeSlept + (ticks - p.lastSlept))) := ⟨by omega, by omega⟩
  refine ⟨by omega, h1, h2, h3, ?_⟩
  have hslept : 0 ≤ p.timeSlept + (ticks - p.lastSlept) := by omega
  unfold Proc.wakeup
  rw [if_pos ⟨hs, rfl⟩, h1.toInt32]
  exact congrArg (fun r : Proc => { r with lastSlept := -1 })
    (renice_exact (p := { p with
      state := .runnable, timeSlept := p.timeSlept + (ticks - p.lastSlept) }) hslept h2 h3)

theorem Charged.yield (hs : p.state = .running) : Charged ticks (p.yield ticks) := by
  have hex := h.yieldExact hc hs
  obtain ⟨hcr, hrun, hsl, hq, hn, hsum, hran, hpast⟩ := h
  simp only [chargedUpTo, hs] at hsum hran hpast
  rw [hex.eq]
  refine ⟨hcr, ?_, hsl, ?_, ?_, ?_, ?_, ?_⟩
  · dsimp only
    omega
  · dsimp only
    omega
  · refine renice_range (p := { p with timeRun := p.timeRun + (ticks - p.lastScheduled) }) hsl ?_ hn
      rfl
    dsimp only
    omega
  · simp only [chargedUpTo]
    omega
  · simp only [chargedUpTo]
    omega
  · exact le_refl _

theorem Charged.wakeup (chan : Nat) : Charged ticks (p.wakeup ticks chan) := by
  by_cases hs : p.state = .sleeping ∧ p.chan = chan
  · obtain ⟨hs, rfl⟩ := hs
    have hex := h.wakeupExact hc hs
    obtain ⟨hcr, hrun, hsl, hq, hn, hsum, hran, hpast⟩ := h
    simp only [chargedUpTo, hs] at hsum hran hpast
    rw [hex.eq]
    refine ⟨hcr, hrun, ?_, hq, ?_, ?_, ?_, ?_⟩
    · dsimp only
      omega
    · refine renice_range (p := { p with timeSlept := p.timeSlept + (ticks - p.lastSlept) }) ?_ hrun
        hn rfl
      dsimp only
      omega
    · simp only [chargedUpTo]
      omega
    · simp only [chargedUpTo]
      omega
    · exact le_refl _
  · rw [Proc.wakeup, if_neg hs]
    exact h

end

/-! ## The other updates -/

theorem chargedUpTo_now (h : p.state ≠ .running) (h' : p.state ≠ .sleeping) :
    chargedUpTo ticks p = ticks := by
  unfold chargedUpTo
  split <;> simp_all

section

variable (h : Charged ticks p)

include h

theorem Charged.dispatched (hc : Early ticks) : Charged ticks (dispatched b ticks p) := by
  unfold Sched.dispatched
  rw [hc.toInt32]
  exact h.settle rfl rfl rfl rfl rfl rfl

theorem Charged.sleep (hc : Early ticks) (chan : Nat) : Charged ticks (p.sleep ticks chan) := by
  unfold Proc.sleep
  rw [hc.toInt32]
  exact h.settle rfl rfl rfl rfl rfl rfl

theorem Charged.exit (status : Int) : Charged ticks (p.exit ticks status) :=
  h.settle rfl rfl rfl rfl rfl rfl

theorem Charged.free : Charged ticks p.free := h.settle rfl rfl rfl rfl rfl rfl

theorem Charged.kill : Charged ticks p.kill := by
  by_cases hs : p.state = .sleeping
  · refine h.settle rfl rfl rfl rfl rfl (chargedUpTo_now ?_ ?_) <;> simp [Proc.kill, hs]
  · have hup : chargedUpTo ticks p.kill = chargedUpTo ticks p := by
      unfold chargedUpTo
      simp only [Proc.kill, if_neg hs]
    exact h.keep rfl rfl rfl rfl rfl hup.ge (hup.le.trans h.past)

end

theorem charged_allocate (hc : Early ticks) (pid : Int) : Charged ticks (p.allocate ticks pid) := by
  have ht := hc.toInt32
  constructor <;> simp [Proc.allocate, chargedUpTo, ht]

theorem Charged.enterQueue (h : Charged ticks p) : Charged ticks (p.enterQueue ticks) := by
  have hsum := h.sum
  have hrun := h.timeRun
  have hslept := h.timeSlept
  exact ⟨h.created, hrun, hslept, le_refl _, h.niceness, hsum, by
    change 0 ≤ chargedUpTo ticks p - p.createTime
    omega, h.past⟩

theorem Charged.setPriority (h : Charged ticks p) (priority : Int) :
    Charged ticks (p.setPriority priority) := by
  have hran := h.ran
  have hq := h.timeRanInQueue
  exact ⟨h.created, le_refl _, le_refl _, hq, by simp [Proc.setPriority], by
    change 0 + 0 ≤ chargedUpTo ticks p - p.createTime
    omega, hran, h.past⟩

theorem Charged.updateTime (h : Charged ticks p) : Charged ticks p.updateTime := by
  obtain ⟨t, ht⟩ := p.updateTime_eq
  rw [ht]
  exact h.keep rfl rfl rfl rfl rfl (le_refl _) h.past

/-! ## The points of MLFQ are not reached -/

/-- Points of `scheduler` in the builds other than MLFQ. -/
def Pc.Plain : Pc → Prop
  | .demote _ | .age _ | .select _ _ _ | .rr4 _ => False
  | .swtch _ k | .back _ k => k.Plain
  | _ => True

/-- The CPU is at such a point, or will be when the thread it executes switches back. -/
def Cpu.Plain (k : Cpu) : Prop :=
  match k.mode with
  | .sched pc => pc.Plain
  | .thread _ _ => k.context.Plain

attribute [local simp] Cpu.Plain

theorem plain_goto {pc : Pc} (h : pc.Plain) : ((s.goto c (.sched pc)).cpu c).Plain := by
  simpa [State.goto] using h

theorem plain_thread {p : Slot} {pc : ThreadPc} (h : (s.cpu c).context.Plain) :
    ((s.goto c (.thread p pc)).cpu c).Plain := by
  simpa [State.goto] using h

theorem Build.start_plain (hb : b ≠ .MLFQ) : b.start.Plain := by
  cases b <;> first | exact absurd rfl hb | trivial

theorem SchedStep.plain (hb : b ≠ .MLFQ) (hs : SchedStep b c s s') (h : (s.cpu c).Plain) :
    (s'.cpu c).Plain := by
  unfold Cpu.Plain at h
  cases hs with
  | top => exact plain_goto (Build.start_plain hb)
  | scanEnd best =>
    apply plain_goto
    cases best <;> trivial
  | swtch _ _ hm =>
    rw [hm] at h
    simpa [Pc.Plain] using h
  | back _ _ hm =>
    rw [hm] at h
    exact plain_goto h
  | demote _ hm | demoteEnd hm | age _ hm | ageEnd hm | select _ _ _ hm | selectEnd _ _ hm
  | rr4Skip _ hm | rr4Run _ hm | rr4End hm => rw [hm] at h; exact h.elim
  | _ => exact plain_goto trivial

theorem ThreadStep.plain (hs : ThreadStep c s s') (h : (s.cpu c).Plain) : (s'.cpu c).Plain := by
  unfold Cpu.Plain at h
  cases hs with
  | release _ hm | yield _ hm | sleep _ _ hm | exit _ _ hm => rw [hm] at h; exact plain_thread h
  | swtch _ hm =>
    rw [hm] at h
    simpa using h

theorem Step.plain (hb : b ≠ .MLFQ) (hs : Step b s s') (h : ∀ c, (s.cpu c).Plain) (c : Fin n) :
    (s'.cpu c).Plain := by
  cases hs with
  | sched c' hs =>
    by_cases hc : c = c'
    · subst hc
      exact hs.plain hb (h c)
    · rw [hs.cpu_other hc]
      exact h c
  | thread c' hs =>
    by_cases hc : c = c'
    · subst hc
      exact hs.plain (h c)
    · rw [hs.cpu_other hc]
      exact h c
  | locked _ hs =>
    rw [hs.cpu_eq]
    exact h c

/-! ## Steps -/

theorem charged_update {q : Slot} {r : Proc} (h : ∀ p, Charged s.ticks (s.proc p))
    (hr : Charged s.ticks r) (p : Slot) : Charged s.ticks (Function.update s.proc q r p) := by
  by_cases hp : p = q
  · subst hp
    rwa [Function.update_self]
  · rw [Function.update_of_ne hp]
    exact h p

theorem SchedStep.charged (hs : SchedStep b c s s') (hplain : (s.cpu c).Plain)
    (h : ∀ p, Charged s.ticks (s.proc p)) (hc : Early s.ticks) (p : Slot) :
    Charged s'.ticks (s'.proc p) := by
  unfold Cpu.Plain at hplain
  cases hs with
  | rrRun i | pickRun i => exact charged_update h ((h i).dispatched hc) p
  | drawRun _ w => exact charged_update h ((h w).dispatched hc) p
  | rr4Run _ hm | demote _ hm | age _ hm => rw [hm] at hplain; exact hplain.elim
  | _ => exact h p

theorem ThreadStep.charged (hi : Inv s) (hs : ThreadStep c s s')
    (h : ∀ p, Charged s.ticks (s.proc p)) (hc : Early s.ticks) (p : Slot) :
    Charged s'.ticks (s'.proc p) := by
  cases hs with
  | yield q hm => exact charged_update h ((h q).yield hc (hi.running_of_thread hm)) p
  | sleep q chan => exact charged_update h ((h q).sleep hc chan) p
  | exit q status => exact charged_update h ((h q).exit status) p
  | release | swtch => exact h p

theorem SectionStep.charged (hs : SectionStep c s s') (h : ∀ p, Charged s.ticks (s.proc p))
    (hc : Early s.ticks) (p : Slot) : Charged s'.ticks (s'.proc p) := by
  cases hs with
  | wakeup q chan => exact charged_update h ((h q).wakeup hc chan) p
  | kill q => exact charged_update h (h q).kill p
  | allocproc _ pid => exact charged_update h (charged_allocate hc pid).enterQueue p
  | allocFail _ pid => exact charged_update h (charged_allocate hc pid).free p
  | forked q =>
    apply charged_update h
    exact (h q).settle rfl rfl rfl rfl rfl rfl
  | reap q => exact charged_update h (h q).free p
  | setPriority q priority => exact charged_update h ((h q).setPriority priority) p
  | settickets q =>
    apply charged_update h
    exact (h q).keep rfl rfl rfl rfl rfl (le_refl _) (h q).past
  | updateTime q => exact charged_update h (h q).updateTime p
  | clockintr =>
    have hlt : s.ticks + 1 < 2 ^ 32 := by
      unfold Early at hc
      omega
    apply (h p).later
    dsimp only
    omega

/-- The clock stays below a tenth of the range of an `int`. -/
def Short (_ s' : State n) : Prop := Early s'.ticks

theorem Booted.charged (h : Booted s) (p : Slot) : Charged s.ticks (s.proc p) := by
  by_cases hp : p = initproc
  · rw [hp, h.init, h.ticks]
    have hal := charged_allocate (p := {}) (by decide : Early 0) 1
    exact hal.enterQueue.settle rfl rfl rfl rfl rfl rfl
  · rw [h.unused p hp, h.ticks]
    constructor <;> decide

theorem Run.charged (hb : b ≠ .MLFQ) {g : Slot → Entry} (h : Run b Short s g) :
    Early s.ticks ∧ (∀ c, (s.cpu c).Plain) ∧ ∀ p, Charged s.ticks (s.proc p) := by
  induction h with
  | boot h =>
    refine ⟨by rw [h.ticks]; decide, ?_, h.charged⟩
    intro c
    simp [(h.cpu c).2, Pc.Plain]
  | @step s s' g h hs hc ih =>
    obtain ⟨hearly, hplain, hch⟩ := ih
    refine ⟨hc, hs.plain hb hplain, ?_⟩
    cases hs with
    | sched c hs => exact hs.charged (hplain c) hch hearly
    | thread _ hs => exact hs.charged h.inv hch hearly
    | locked _ hs => exact hs.charged hch hearly

/-! ## The result -/

theorem getDP_eq (h : IsInt (p.priority - p.niceness + 5)) :
    p.getDP = min 100 (max 0 (p.priority - p.niceness + 5)) := by
  unfold Proc.getDP
  rw [h.toInt32]
  dsimp only
  split <;> split <;> omega

/-- In the builds RR, FCFS, LBS and PBS, on any number of CPUs, in every run in which the clock
stays below `2^31 / 10` and for every process: the time counters are not negative and their sum is
at most the age of the process; the next `yield` of a RUNNING process and the next `wakeup` of a
SLEEPING one compute without overflow, and divide only by a sum that is not zero; the niceness is
in its range, and `getDP` is the clamped sum. -/
theorem niceness_in_range (hb : b ≠ .MLFQ) {g : Slot → Entry} (h : Run b Short s g) (p : Slot) :
    0 ≤ (s.proc p).timeRun ∧ 0 ≤ (s.proc p).timeSlept ∧
    (s.proc p).timeRun + (s.proc p).timeSlept ≤ s.ticks - (s.proc p).createTime ∧
    ((s.proc p).state = .running → YieldExact s.ticks (s.proc p)) ∧
    ((s.proc p).state = .sleeping → WakeupExact s.ticks (s.proc p)) ∧
    0 ≤ (s.proc p).niceness ∧ (s.proc p).niceness ≤ 10 ∧
    (IsInt ((s.proc p).priority - (s.proc p).niceness + 5) →
      (s.proc p).getDP = min 100 (max 0 ((s.proc p).priority - (s.proc p).niceness + 5))) := by
  obtain ⟨hearly, -, hch⟩ := h.charged hb
  have hp := hch p
  exact ⟨hp.timeRun, hp.timeSlept, hp.sum_le, hp.yieldExact hearly, hp.wakeupExact hearly,
    hp.niceness.1, hp.niceness.2, getDP_eq⟩

/-- The first process of RR in its first turn. -/
theorem niceness_in_range_first :
    ∃ (s : State 1) (g : Slot → Entry), Run .RR Short s g ∧ s.ticks = 1 ∧
      YieldExact 1 (s.proc initproc) := by
  have h0 : Run .RR Short (atPc firstTable 0 .top .top) _ := .boot firstTable_booted
  have h1 := h0.step (.sched 0 (.top _ rfl)) (by decide : Early 0)
  rw [atPc_goto] at h1
  have h2 := h1.step
    (.sched 0 (.rrRun (atPc firstTable 0 .top (.rr 0)) initproc rfl rfl rfl)) (by decide : Early 0)
  have h3 := h2.step (.locked 0 (.clockintr _)) (by decide : Early 1)
  obtain ⟨-, -, -, hyield, -⟩ := niceness_in_range (by decide) h3 initproc
  exact ⟨_, _, h3, rfl, hyield rfl⟩

end Xv6.Sched
