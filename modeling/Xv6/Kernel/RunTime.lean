import Xv6.Kernel.Fate
import Xv6.Kernel.Replay

/-!
# Run-time accounting

`p->timeRun` against the ticks at which a run dispatches `p` and takes the CPU from it.
-/

namespace Xv6

variable {L : Layout} {b : Sched.Build} {steps : List Step} {k k' : Kernel} {op : Op} {q : Slot}

def Step.creates (s : Step) (q : Slot) : Bool :=
  (s.pre.proc q).state = .unused && (s.post.proc q).state ≠ .unused

def Step.dispatches (s : Step) (q : Slot) : Bool :=
  (s.pre.proc q).state ≠ .running && (s.post.proc q).state = .running

def Step.leaves (s : Step) (q : Slot) : Bool :=
  (s.pre.proc q).state = .running && (s.post.proc q).state ≠ .running

/-- What a run says about the time of a process since its creation or the last `set_priority` on
it: the tick of a dispatch that has not ended, and the sum over those that have. -/
structure Stints where
  since : Option Nat := none
  ran : Int := 0

def Stints.after (t : Stints) (s : Step) (q : Slot) : Stints :=
  if s.creates q || s.op.reprioritizes s.pre = some q then {}
  else if s.dispatches q then { t with since := some s.pre.ticks }
  else if s.leaves q then
    { since := none, ran := t.ran + t.since.elim 0 fun d => (s.pre.ticks : Int) - d }
  else t

def stints (q : Slot) : List Step → Stints
  | [] => {}
  | s :: steps => (stints q steps).after s q

def Op.dispatchesLast : Op → Option Slot
  | .dispatch q true => some q
  | _ => none

/-- The steps whose time `timeRun` accounts for: a process that goes to sleep was dispatched in
the same tick; a process that queue 4 of MLFQ dispatches was last scheduled in the same tick;
`set_priority` finds a process that is not running; and the clock stays below `2^31`. -/
@[mk_iff]
structure Step.Charged (s : Step) : Prop where
  sleep : ∀ q, (s.pre.proc q).state = .running → (s.post.proc q).state = .sleeping →
    (s.pre.proc q).lastScheduled = s.pre.ticks
  last : ∀ q, s.op.dispatchesLast = some q → (s.pre.proc q).lastScheduled = s.pre.ticks
  reset : ∀ q, s.op.reprioritizes s.pre = some q → (s.pre.proc q).state ≠ .running
  clock : s.pre.ticks + 1 < 2 ^ 31

instance (s : Step) : Decidable s.Charged := decidable_of_iff _ s.charged_iff.symm

/-- The record of a live process against its stints. -/
structure Stints.Balanced (t : Stints) (ticks : Nat) (g : Gist) : Prop where
  ran : g.timeRun = t.ran
  nonneg : 0 ≤ t.ran
  idle : g.state ≠ .running → t.ran ≤ ticks
  running : g.state = .running →
    ∃ d : Nat, t.since = some d ∧ g.lastScheduled = d ∧ t.ran ≤ d ∧ d ≤ ticks

def Gist.live (g : Gist) : Prop := g.state ≠ .unused ∧ g.state ≠ .zombie

attribute [local simp] Gist.live Step.creates Step.dispatches

section Step

variable {t : Stints}
variable {g : Gist} {ticks : Nat}
variable {g' : Gist}

theorem Stints.Balanced.later {ticks' : Nat} (h : t.Balanced ticks g)
    (hle : ticks ≤ ticks') : t.Balanced ticks' g where
  ran := h.ran
  nonneg := h.nonneg
  idle hg := by
    have := h.idle hg
    omega
  running hg := by
    obtain ⟨d, h1, h2, h3, h4⟩ := h.running hg
    exact ⟨d, h1, h2, h3, by omega⟩

theorem Stints.Balanced.moved (h : t.Balanced ticks g)
    (hg : g.state ≠ .running) (hg' : g'.state ≠ .running) (ht : g'.timeRun = g.timeRun) :
    t.Balanced ticks g' where
  ran := ht.trans h.ran
  nonneg := h.nonneg
  idle _ := h.idle hg
  running h := absurd h hg'

theorem Stints.Balanced.same (h : t.Balanced ticks g) (hs : g'.state = g.state)
    (ht : g'.timeRun = g.timeRun) (hl : g'.lastScheduled = g.lastScheduled) :
    t.Balanced ticks g' := by
  obtain ⟨h1, h2, h3, h4⟩ := h
  constructor
  · rw [ht, h1]
  · exact h2
  · rw [hs]
    exact h3
  · rw [hs, hl]
    exact h4

theorem Stints.Balanced.fresh (hg : g.state ≠ .running) (ht : g.timeRun = 0) :
    ({} : Stints).Balanced ticks g :=
  ⟨ht, Int.le_refl 0, fun _ => Int.natCast_nonneg ticks, fun h => absurd h hg⟩

theorem Stints.Balanced.yield (h : t.Balanced ticks g)
    (hg : g.state = .running) (hticks : ticks < 2 ^ 31) :
    ({ since := none, ran := t.ran + t.since.elim 0 fun d => (ticks : Int) - d } :
      Stints).Balanced ticks (g.yield ticks) := by
  obtain ⟨d, h1, h2, h3, h4⟩ := h.running hg
  have hnonneg := h.nonneg
  have hsum : toInt32 (g.timeRun + (ticks - g.lastScheduled)) = t.ran + ((ticks : Int) - d) := by
    rw [h.ran, h2]
    apply toInt32_of_range <;> omega
  rw [h1]
  constructor
  · exact hsum
  · simp only [Option.elim_some]
    omega
  · grind
  · intro h
    cases h

variable {s : Step}

section

variable (hre : s.op.reprioritizes s.pre ≠ some q)

include hre

theorem Stints.after_quiet (hu : (s.pre.proc q).state ≠ .unused)
    (h : (s.pre.proc q).state = .running ↔ (s.post.proc q).state = .running) : t.after s q = t := by
  by_cases hr : (s.pre.proc q).state = .running
  · simp [after, Step.leaves, hre, hr, h.mp hr]
  · have hr' : (s.post.proc q).state ≠ .running := fun h' => hr (h.mpr h')
    simp [after, Step.leaves, hre, hu, hr, hr']

theorem Stints.after_dispatch
    (h : (s.pre.proc q).state = .runnable) (h' : (s.post.proc q).state = .running) :
    t.after s q = { t with since := some s.pre.ticks } := by
  simp [after, hre, h, h']

theorem Stints.after_leave
    (h : (s.pre.proc q).state = .running) (h' : (s.post.proc q).state ≠ .running) :
    t.after s q =
      { since := none, ran := t.ran + t.since.elim 0 fun d => (s.pre.ticks : Int) - d } := by
  simp [after, Step.leaves, hre, h, h']

end

theorem Stints.after_create (h : (s.pre.proc q).state = .unused)
    (h' : (s.post.proc q).state ≠ .unused) : t.after s q = {} := by
  simp [after, h, h']

theorem Stints.after_reset (h : s.op.reprioritizes s.pre = some q) : t.after s q = {} := by
  simp [after, h]

theorem Stints.Balanced.uncharged (h : t.Balanced ticks g)
    (hg : g.state = .running) (hg' : g'.state ≠ .running) (ht : g'.timeRun = g.timeRun)
    (hl : g.lastScheduled = ticks) :
    ({ since := none, ran := t.ran + t.since.elim 0 fun d => (ticks : Int) - d } :
      Stints).Balanced ticks g' := by
  obtain ⟨d, h1, h2, h3, h4⟩ := h.running hg
  have hd : (ticks : Int) - d = 0 := by omega
  have hle : t.ran ≤ ticks := by omega
  simp only [h1, Option.elim_some, hd, Int.add_zero]
  exact ⟨ht.trans h.ran, h.nonneg, fun _ => hle, fun h => absurd h hg'⟩

theorem Fate.balanced {k' : Kernel} (hf : Fate b k op q (k'.proc q).gist)
    (hc : Step.Charged ⟨k, op, k'⟩) (hre : op.reprioritizes k ≠ some q)
    (hticks : k.ticks < 2 ^ 31) (hlive : (k'.proc q).gist.live)
    (hb : (k.proc q).gist.live → t.Balanced k.ticks (k.proc q).gist) :
    (t.after ⟨k, op, k'⟩ q).Balanced k.ticks (k'.proc q).gist := by
  have hpost : (k'.proc q).state = (k'.proc q).gist.state := rfl
  have hsleep := hc.sleep q
  have hquiet := Stints.after_quiet (t := t) (s := ⟨k, op, k'⟩) (q := q) hre
  have hleave := Stints.after_leave (t := t) (s := ⟨k, op, k'⟩) (q := q) hre
  simp only [hpost] at hsleep hquiet hleave
  generalize hg' : (k'.proc q).gist = g' at *
  cases hf with
  | kept =>
    rw [hquiet hlive.1 Iff.rfl]
    exact hb hlive
  | woken h =>
    have hlive0 : (k.proc q).gist.live := by simp [h]
    rw [hquiet hlive0.1 (by simp [h])]
    exact (hb hlive0).moved (by simp [h]) (by simp) rfl
  | dispatched last hop h =>
    have hlive0 : (k.proc q).gist.live := by simp [h]
    have hb0 := hb hlive0
    have hran := hb0.idle (by simp [h])
    rw [Stints.after_dispatch hre h (by rw [hpost])]
    refine ⟨hb0.ran, hb0.nonneg, fun h => absurd rfl h, fun _ => ?_⟩
    refine ⟨k.ticks, rfl, ?_, hran, Nat.le_refl _⟩
    cases last with
    | false => grind [toInt32, toInt32_of_range]
    | true => exact hc.last q (by rw [hop]; rfl)
  | yielded _ h =>
    have hlive0 : (k.proc q).gist.live := by simp [h]
    rw [hleave h (by simp [Gist.yield])]
    exact (hb hlive0).yield h hticks
  | timed _ h =>
    have hrun := Kernel.running_of_runs h
    have hlive0 : (k.proc q).gist.live := by simp [hrun]
    obtain ⟨r, t', hdeliver⟩ := (k.proc q).gist.deliver_eq
    have hs : (k.proc q).gist.deliver.state = (k.proc q).state := by rw [hdeliver]; rfl
    have hb0 : t.Balanced k.ticks (k.proc q).gist.deliver := by
      rw [hdeliver]
      exact (hb hlive0).same rfl rfl rfl
    cases hpre : b.preempts with
    | false => grind
    | true =>
      simp only [hpre, if_true] at hleave ⊢
      rw [hleave hrun (by simp [Gist.yield])]
      exact hb0.yield (by rw [hs]; exact hrun) hticks
  | slept h =>
    have hlive0 : (k.proc q).gist.live := by simp [h]
    rw [hleave h (by simp)]
    exact (hb hlive0).uncharged h (by simp) rfl (hsleep h rfl)
  | exited => exact absurd rfl hlive.2
  | killed =>
    by_cases hs : (k.proc q).state = .sleeping
    · have hlive0 : (k.proc q).gist.live := by simp [hs]
      rw [hquiet hlive0.1 (by simp [Gist.kill, hs])]
      exact (hb hlive0).moved (by simp [hs]) (by simp [Gist.kill, hs]) rfl
    · have hstate : (k.proc q).gist.kill.state = (k.proc q).state := if_neg hs
      have hlive0 : (k.proc q).gist.live := by
        rw [Gist.live, hstate] at hlive
        exact hlive
      rw [hquiet hlive0.1 (by rw [hstate])]
      exact (hb hlive0).same hstate rfl rfl
  | created _ _ h =>
    rw [Stints.after_create h (by rw [hpost]; simp)]
    exact .fresh (by simp) rfl
  | refused | reaped => exact absurd rfl hlive.1
  | reset hop | resetYielded hop => exact absurd hop hre
  | sigalarm =>
    obtain ⟨i, handler, t', hset⟩ := (k.proc q).gist.sigalarm_eq (toInt32 (k.arg q 0))
      (BitVec.ofNat 64 (k.arg q 1))
    rw [hset] at hquiet hlive ⊢
    rw [hquiet hlive.1 Iff.rfl]
    exact (hb hlive).same rfl rfl rfl
  | trapped | sigreturn | bought =>
    rw [hquiet hlive.1 Iff.rfl]
    exact (hb hlive).same rfl rfl rfl

end Step

theorem Op.ticks_charged (hc : Step.Charged ⟨k, op, k'⟩) (h : k.ticks < 2 ^ 31) :
    k.ticks ≤ op.ticks k ∧ op.ticks k < 2 ^ 31 := by
  cases op with
  | tick =>
    have hlt : k.ticks + 1 < 2 ^ 31 := hc.clock
    have hmod : (k.ticks + 1) % 2 ^ 32 = k.ticks + 1 := Nat.mod_eq_of_lt (by omega)
    rw [Op.ticks, hmod]
    exact ⟨Nat.le_succ _, hlt⟩
  | _ => exact ⟨Nat.le_refl _, h⟩

theorem Run.balanced (h : Run L b steps k) (hc : ∀ s ∈ steps, s.Charged) : k.ticks < 2 ^ 31 ∧
      ∀ q, (k.proc q).gist.live → (stints q steps).Balanced k.ticks (k.proc q).gist := by
  induction h with
  | boot hboot =>
    obtain ⟨hticks, hgist⟩ := boot_core hboot
    refine ⟨by rw [hticks]; decide, fun q hlive => ?_⟩
    rcases hgist q with hq | hq
    · rw [hq] at hlive
      exact absurd rfl hlive.1
    · rw [hq]
      exact .fresh (by simp) rfl
  | @step steps k k' op _ hstep ih =>
    have hcs := hc _ List.mem_cons_self
    obtain ⟨hticks, hb⟩ := ih fun s hs => hc s (List.mem_cons_of_mem _ hs)
    have hclock : k.ticks ≤ k'.ticks ∧ k'.ticks < 2 ^ 31 := by
      rw [step_ticks hstep]
      exact Op.ticks_charged hcs hticks
    refine ⟨hclock.2, fun q hlive => ?_⟩
    apply Stints.Balanced.later _ hclock.1
    by_cases hre : op.reprioritizes k = some q
    · have hn := hcs.reset q hre
      rw [stints, Stints.after_reset hre, step_resets hstep hre hn]
      exact .fresh hn rfl
    · exact (step_fate hstep q).balanced hcs hre hticks hlive (hb q)

/-- In a run of charged steps, `timeRun` of a live process is the time that its stints since its
creation or the last `set_priority` took, without one that has not ended. -/
theorem run_time_exact (h : Run L b steps k) (hc : ∀ s ∈ steps, s.Charged) (q : Slot)
    (hlive : (k.proc q).gist.live) : (k.proc q).timeRun = (stints q steps).ran :=
  ((Run.balanced h hc).2 q hlive).ran

/-- The first process is dispatched, runs for a tick and calls `sleep`. -/
def sleepOps : List Op :=
  startOps initproc ++ [.tick, .timer initproc, .ret initproc 0] ++ ecallOps initproc 13 5 0 ++
    [.sleep initproc ticksChan]

/-- The tick before a `sleep` is not charged. -/
theorem run_time_lost : ∃ steps k, Run smallLayout .FCFS steps k ∧
    (k.proc initproc).state = .sleeping ∧ (k.proc initproc).timeRun = 0 ∧
    (stints initproc steps).ran = 1 := by
  exact exists_run .FCFS sleepOps
    (fun steps k => (k.proc initproc).state = .sleeping ∧ (k.proc initproc).timeRun = 0 ∧
      (stints initproc steps).ran = 1) (by decide +kernel)

/-- The first process is dispatched twice, for one tick each. -/
def yieldOps : List Op :=
  startOps initproc ++ [.tick, .timer initproc] ++ startOps initproc ++ [.tick, .timer initproc]

theorem run_time_exact_yield : ∃ steps k, Run smallLayout .RR steps k ∧
    (k.proc initproc).state = .runnable ∧ (stints initproc steps).ran = 2 ∧
    (k.proc initproc).timeRun = 2 := by
  obtain ⟨steps, k, hrun, hcharged, hstate, hran⟩ := exists_run .RR yieldOps
    (fun steps k => (∀ s ∈ steps, s.Charged) ∧ (k.proc initproc).state = .runnable ∧
      (stints initproc steps).ran = 2) (by decide +kernel)
  have hlive : (k.proc initproc).gist.live := by simp [hstate]
  refine ⟨steps, k, hrun, hstate, hran, ?_⟩
  rw [run_time_exact hrun hcharged initproc hlive, hran]

end Xv6
