import Xv6.Sched.Rounds

/-!
# Waiting times in MLFQ

`age` computes the waiting time of a process as the time since it entered its queue minus the
time it ran in it, from `entryTime` and `timeRanInQueue`. With one CPU that is what the clock
says as long as the process gave up the CPU by `yield` and was not switched to with an old
`lastScheduled`. `sleep` and `exit` charge nothing, and the round-robin loop over queue 4 does
not set `lastScheduled`, so that `yield` charges the time since an earlier dispatch again.
-/

namespace Xv6.Sched

open Function (update update_apply)

variable {s s' : State 1}
variable {e : Entry} {p p' : Proc} {ticks : Nat}

attribute [local simp] Proc.enterQueue Proc.sleep Proc.exit

def waitTime (ticks : Nat) (p : Proc) : Int := toInt32 (ticks - p.entryTime - p.timeRanInQueue)

/-- The steps that charge in full: a process that is switched to from queue 4, or that gives up
the CPU by `sleep` or `exit`, has the time of this tick in `lastScheduled`; and the clock does
not leave the range of an `int`. -/
structure Punctual (s s' : State 1) : Prop where
  clock : s'.ticks < 2 ^ 31
  last : ∀ p, GetsCpu (s.proc p) (s'.proc p) → (s.proc p).queue = 4 →
    (s.proc p).lastScheduled = s.ticks
  charged : ∀ p, LeavesCpu (s.proc p) (s'.proc p) → (s'.proc p).state ≠ .runnable →
    (s.proc p).lastScheduled = s.ticks

/-- The fields of a live process agree with the ledger. -/
structure Accounts (ticks : Nat) (p : Proc) (e : Entry) : Prop where
  low : 0 ≤ p.queue
  high : p.queue ≤ 4
  depth : p.queue ≤ e.entered
  entry : p.entryTime = e.entered
  ran : p.timeRanInQueue = e.ran
  pos : 0 ≤ e.ran
  wait : p.state ≠ .running → e.entered + e.ran ≤ ticks
  run : p.state = .running →
    p.lastScheduled = e.dispatched ∧ e.entered + e.ran ≤ e.dispatched ∧ e.dispatched ≤ ticks

theorem Accounts.keep (h : Accounts ticks p e) (hlive : p.state ≠ .unused)
    (hrun : p'.state = .running ↔ p.state = .running) (hq : p'.queue = p.queue)
    (he : p'.entryTime = p.entryTime) (ht : p'.timeRanInQueue = p.timeRanInQueue)
    (hl : p'.lastScheduled = p.lastScheduled) : Accounts ticks p' (e.after ticks p p') := by
  have h1 : ¬ Enters p p' := by simp [Enters, hlive, hq]
  have h2 : ¬ GetsCpu p p' := by simp [GetsCpu, hrun]
  have h3 : ¬ LeavesCpu p p' := by simp [LeavesCpu, hrun]
  have hsame : e.after ticks p p' = e := by simp [Entry.after, h1, h2, h3]
  rw [hsame]
  constructor
  · rw [hq]; exact h.low
  · rw [hq]; exact h.high
  · rw [hq]; exact h.depth
  · rw [he]; exact h.entry
  · rw [ht]; exact h.ran
  · exact h.pos
  · intro hs
    exact h.wait (fun hr => hs (hrun.mpr hr))
  · intro hs
    rw [hl]
    exact h.run (hrun.mp hs)

theorem Accounts.enter (e : Entry) (hclock : ticks < 2 ^ 31) (h : Enters p p')
    (hs : p'.state ≠ .running) (low : 0 ≤ p'.queue) (high : p'.queue ≤ 4) (depth : p'.queue ≤ ticks)
    (he : p'.entryTime = toInt32 ticks) (ht : p'.timeRanInQueue = 0) :
    Accounts ticks p' (e.after ticks p p') := by
  rw [e.after_enter ticks h hs]
  have hticks : toInt32 ticks = ticks := toInt32_of_range (by omega) (by omega)
  refine ⟨low, high, depth, he.trans hticks, ht, le_refl _, ?_, fun hr => absurd hr hs⟩
  intro _
  simp

theorem Inv.not_running (hi : Inv s) {pc : Pc} (hm : (s.cpu 0).mode = .sched pc) (hpc : pc.Unlocked)
    (q : Slot) : (s.proc q).state ≠ .running := by
  intro hr
  obtain ⟨c, hc⟩ := hi.running q hr
  have hnone := (hi.proc_of_unlocked hm hpc).1
  rw [Subsingleton.elim c 0, hnone] at hc
  cases hc

theorem Accounts.dispatch (h : Accounts ticks p e) (hs : p.state = .runnable)
    (hs' : p'.state = .running) (hq : p'.queue = p.queue) (he : p'.entryTime = p.entryTime)
    (ht : p'.timeRanInQueue = p.timeRanInQueue) (hl : p'.lastScheduled = ticks) :
    Accounts ticks p' (e.after ticks p p') := by
  have hwait := h.wait (by simp [hs])
  rw [e.after_dispatch ticks hs hs' hq]
  refine ⟨hq ▸ h.low, hq ▸ h.high, hq ▸ h.depth, he.trans h.entry, ht.trans h.ran, h.pos, ?_, ?_⟩
  · intro hr
    exact absurd hs' hr
  · grind

theorem Accounts.leave (h : Accounts ticks p e) (hs : p.state = .running)
    (hs' : p'.state ≠ .running) (hq : p'.queue = p.queue) (he : p'.entryTime = p.entryTime)
    (ht : p'.timeRanInQueue = p.timeRanInQueue + (ticks - p.lastScheduled)) :
    Accounts ticks p' (e.after ticks p p') := by
  obtain ⟨hl, hwait, hle⟩ := h.run hs
  have hpos := h.pos
  have hran := h.ran
  rw [e.after_leave ticks hs hs' hq]
  refine ⟨hq ▸ h.low, hq ▸ h.high, hq ▸ h.depth, he.trans h.entry, ?_, ?_, ?_, ?_⟩
  · rw [ht, hran, hl]
  · dsimp only
    omega
  · intro _
    dsimp only
    omega
  · intro hr
    exact absurd hr hs'

theorem slice_pos (queue : Int) : 0 < slice queue := by
  unfold slice
  split <;> [decide; split <;> [decide; split <;> [decide; split <;> decide]]]

theorem Effect.accounts {q : Slot} {r : Proc} (hi : Inv s) (he : Effect .MLFQ s q r)
    (hclock : s.ticks < 2 ^ 31)
    (hlast : GetsCpu (s.proc q) r → (s.proc q).queue = 4 → (s.proc q).lastScheduled = s.ticks)
    (hcharged : LeavesCpu (s.proc q) r → r.state ≠ .runnable → (s.proc q).lastScheduled = s.ticks)
    (h : (s.proc q).state ≠ .unused → Accounts s.ticks (s.proc q) e) (hlive : r.state ≠ .unused) :
    Accounts s.ticks r (e.after s.ticks (s.proc q) r) := by
  have hticks : toInt32 s.ticks = s.ticks := toInt32_of_range (by omega) (by omega)
  cases he with
  | dispatch hs =>
    exact (h (by simp [hs])).dispatch hs rfl rfl rfl rfl (by simp [dispatched, hticks])
  | dispatch4 hs hq =>
    exact (h (by simp [hs])).dispatch hs rfl rfl rfl rfl (hlast ⟨by simp [hs], rfl⟩ hq)
  | demote c hm =>
    have hm : (s.cpu 0).mode = _ := Subsingleton.elim c 0 ▸ hm
    have hnr := hi.not_running hm trivial q
    unfold demoteStep at hlive ⊢
    split at hlive
    · next hc =>
      obtain ⟨hlow, -, hdepth, -, hran, -, hwait, -⟩ := h hlive
      have hwait := hwait hnr
      have hslice := slice_pos (s.proc q).queue
      rw [if_pos hc]
      refine Accounts.enter e hclock (.inr ?_) hnr ?_ ?_ ?_ (by dsimp only) (by dsimp only)
      all_goals
        dsimp only
        omega
    · next hc =>
      rw [if_neg hc, e.after_self]
      exact h hlive
  | age c hm =>
    have hm : (s.cpu 0).mode = _ := Subsingleton.elim c 0 ▸ hm
    have hnr := hi.not_running hm trivial q
    unfold ageStep at hlive ⊢
    split at hlive
    · next hc =>
      obtain ⟨hlow, hhigh, hdepth, -, -, hpos, hwait, -⟩ := h hlive
      have hwait := hwait hnr
      rw [if_pos hc]
      refine Accounts.enter e hclock (.inr ?_) hnr ?_ ?_ ?_ (by dsimp only) (by dsimp only)
      all_goals
        dsimp only
        omega
    · next hc =>
      rw [if_neg hc, e.after_self]
      exact h hlive
  | yield hs =>
    have hacc := h (by simp [hs])
    obtain ⟨hl, hwait, hle⟩ := hacc.run hs
    have hpos := hacc.pos
    have hran := hacc.ran
    have hcharge : toInt32 ((s.proc q).timeRanInQueue + (s.ticks - (s.proc q).lastScheduled)) =
        (s.proc q).timeRanInQueue + (s.ticks - (s.proc q).lastScheduled) :=
      toInt32_of_range (by omega) (by omega)
    obtain ⟨x, hx⟩ := (s.proc q).yield_eq s.ticks
    rw [hcharge] at hx
    rw [hx]
    exact hacc.leave hs (by simp) rfl rfl rfl
  | sleep _ hs =>
    have hl := hcharged ⟨hs, by simp⟩ (by simp)
    refine (h (by simp [hs])).leave hs (by simp) rfl rfl ?_
    simp [hl]
  | exit _ hs =>
    have hl := hcharged ⟨hs, by simp⟩ (by simp)
    refine (h (by simp [hs])).leave hs (by simp) rfl rfl ?_
    simp [hl]
  | wakeup chan =>
    rcases (s.proc q).wakeup_eq s.ticks chan with hw | ⟨hs, -, t, x, hw⟩
    · rw [hw] at hlive ⊢
      exact (h hlive).keep hlive Iff.rfl rfl rfl rfl rfl
    · rw [hw]
      exact (h (by simp [hs])).keep (by simp [hs]) (by simp [hs]) rfl rfl rfl rfl
  | kill =>
    rcases (s.proc q).kill_state with hk | ⟨hs, hk⟩
    · rw [hk] at hlive
      exact (h hlive).keep hlive (by rw [hk]) rfl rfl rfl rfl
    · exact (h (by simp [hs])).keep (by simp [hs]) (by simp [hs, hk]) rfl rfl rfl rfl
  | allocproc _ hs =>
    refine Accounts.enter e hclock (.inl ⟨hs, hlive⟩) ?_ ?_ ?_ ?_ (by simp) rfl
    · simp [Proc.allocate]
    · simp
    · simp
    · simp
  | allocFail | reap => exact absurd rfl hlive
  | forked hs => exact (h (by simp [hs])).keep (by simp [hs]) (by simp [hs]) rfl rfl rfl rfl
  | setPriority | settickets => exact (h hlive).keep hlive Iff.rfl rfl rfl rfl rfl
  | updateTime =>
    obtain ⟨t, ht⟩ := (s.proc q).updateTime_eq
    rw [ht] at hlive ⊢
    exact (h hlive).keep hlive Iff.rfl rfl rfl rfl rfl

theorem Accounts.later {ticks' : Nat} (h : Accounts ticks p e)
    (ht : ticks ≤ ticks') : Accounts ticks' p e := by
  refine { h with wait := fun hs => (h.wait hs).trans (by omega), run := fun hs => ?_ }
  obtain ⟨hl, hwait, hle⟩ := h.run hs
  exact ⟨hl, hwait, hle.trans ht⟩

theorem Run.accounts {g : Slot → Entry} (h : Run .MLFQ Punctual s g) :
    s.ticks < 2 ^ 31 ∧ ∀ p, (s.proc p).state ≠ .unused → Accounts s.ticks (s.proc p) (g p) := by
  induction h with
  | boot h =>
    refine ⟨by rw [h.ticks]; decide, ?_⟩
    intro p hp
    by_cases hi : p = initproc
    · subst hi
      rw [h.init, h.ticks]
      constructor <;> decide
    · rw [h.unused p hi] at hp
      exact absurd rfl hp
  | step h hs hc ih =>
    obtain ⟨hclock, ih⟩ := ih
    refine ⟨hc.clock, ?_⟩
    intro p hp
    dsimp only
    rcases (hs.affects h.inv).proc p with ⟨hproc, ht⟩ | ⟨he, ht⟩
    · rw [hproc] at hp ⊢
      rw [Entry.after_self]
      exact (ih p hp).later (by omega)
    · rw [ht]
      exact he.accounts h.inv hclock (hc.last p) (hc.charged p) (ih p) hp

/-- Waiting times in MLFQ with one CPU, in every run of punctual steps: a live process that is
not RUNNING is in one of the five queues, its `timeRanInQueue` is at most the time since
`entryTime`, and the waiting time `age` computes for it is the time since it entered its queue
minus the ticks that it had the CPU in this queue. -/
theorem waiting_time_exact {g : Slot → Entry} (h : Run .MLFQ Punctual s g) (p : Slot)
    (hlive : (s.proc p).state ≠ .unused) (hwait : (s.proc p).state ≠ .running) :
    0 ≤ (s.proc p).queue ∧ (s.proc p).queue ≤ 4 ∧ 0 ≤ (s.proc p).timeRanInQueue ∧
      (s.proc p).timeRanInQueue ≤ s.ticks - (s.proc p).entryTime ∧
      0 ≤ waitTime s.ticks (s.proc p) ∧
      waitTime s.ticks (s.proc p) = s.ticks - (g p).entered - (g p).ran := by
  obtain ⟨hclock, hacc⟩ := h.accounts
  have hp := hacc p hlive
  have hle := hp.wait hwait
  have hpos := hp.pos
  have heq : waitTime s.ticks (s.proc p) = s.ticks - (g p).entered - (g p).ran := by
    rw [waitTime, hp.entry, hp.ran]
    exact toInt32_of_range (by omega) (by omega)
  refine ⟨hp.low, hp.high, ?_, ?_, ?_, heq⟩
  · rw [hp.ran]
    exact hpos
  · rw [hp.ran, hp.entry]
    omega
  · omega

/-! A run in which two processes come to queue 4. Every tick ends the turn of the process that
runs. -/

deriving instance DecidableEq for Proc

section Queue4

variable {C : State 1 → State 1 → Prop} {A B D : Proc} {t : Nat} {x : Pc}

/-- A RUNNABLE process of a table in which nothing has slept. -/
def runnable (pid queue entryTime timeRanInQueue lastScheduled timeRun niceness : Int) : Proc :=
  { state := .runnable, pid := pid, priority := 60, tickets := 1, lastSlept := -1
    queue := queue, entryTime := entryTime, timeRanInQueue := timeRanInQueue
    lastScheduled := lastScheduled, timeRun := timeRun, niceness := niceness }

def trio (A B D : Proc) : Slot → Proc := fun p =>
  if p.val = 0 then A else if p.val = 1 then B else if p.val = 2 then D else {}

def slot1 : Slot := ⟨1, by decide⟩

def slot2 : Slot := ⟨2, by decide⟩

theorem aged_unused (t : Nat) : aged t {} = {} := by simp [aged, demoteStep, ageStep]

theorem trio_aged : (fun p => aged t (trio A B D p)) = trio (aged t A) (aged t B) (aged t D) := by
  funext p
  simp only [trio]
  split
  · rfl
  · grind [aged_unused]

theorem trio_update (r : Proc) : update (trio A B D) initproc r = trio r B D := by
  funext p
  grind [trio, initproc, update_apply, Fin.ext_iff]

theorem trio_update1 (r : Proc) : update (trio A B D) slot1 r = trio A r D := by
  funext p
  grind [trio, slot1, update_apply, Fin.ext_iff]

theorem trio_update2 (r : Proc) : update (trio A B D) slot2 r = trio A B r := by
  funext p
  grind [trio, slot2, update_apply, Fin.ext_iff]

def firstTable : Slot → Proc := trio (runnable 1 0 0 0 0 0 5) {} {}

theorem firstTable_booted : Booted (atPc firstTable 0 .top .top) where
  proc p := by
    by_cases hp : p = initproc
    · subst hp
      rfl
    · have hne : p.val ≠ 0 := fun h => hp (Fin.ext h)
      simp [atPc, firstTable, trio, hp, hne]
  lock _ := rfl
  ctx _ := rfl
  cpu _ := ⟨rfl, rfl⟩
  ticks := rfl
  init := rfl
  unused p hp := by
    have hne : p.val ≠ 0 := fun h => hp (Fin.ext h)
    simp [atPc, firstTable, trio, hne]

def afterTurn (t : Nat) (p : Proc) : Proc := (dispatched .MLFQ t (aged t p)).yield (t + 1)

/-- Turns of one tick of the first and the second process, as far as `scheduler` chooses the
given ones; `true` is the second process. -/
def turns (A B : Proc) (t : Nat) : List Bool → Option (Proc × Proc)
  | [] => some (A, B)
  | false :: who =>
    if choice (trio (aged t A) (aged t B) {}) 4 = .pick initproc ∧ (aged t A).state = .runnable
    then turns (afterTurn t A) (aged t B) (t + 1) who
    else none
  | true :: who =>
    if choice (trio (aged t A) (aged t B) {}) 4 = .pick slot1 ∧ (aged t B).state = .runnable
    then turns (aged t A) (afterTurn t B) (t + 1) who
    else none

theorem Visits.turns (hC : AllowsOwn C .top) (who : List Bool)
    (h : Visits C (atPc (trio A B {}) t x .top)) (ht : t + who.length < 2 ^ 32) {A' B' : Proc}
    (hw : turns A B t who = some (A', B')) :
    ∃ x', Visits C (atPc (trio A' B' {}) (t + who.length) x' .top) := by
  induction who generalizing A B t x with
  | nil =>
    cases hw
    exact ⟨x, h⟩
  | cons second who ih =>
    have hlen : t + (second :: who).length = t + 1 + who.length := by
      rw [List.length_cons]
      omega
    rw [hlen] at ht ⊢
    have hempty : trio (aged t A) (aged t B) {} = fun p => aged t (trio A B {} p) := by
      rw [trio_aged, aged_unused]
    cases second
    all_goals
      simp only [Sched.turns, Option.ite_none_right_eq_some] at hw
      obtain ⟨⟨hpc, hr⟩, hw⟩ := hw
    · have hturn := h.turn hC initproc 1 (by omega) (hempty ▸ hpc) hr
      rw [trio_aged, trio_update, aged_unused] at hturn
      exact ih hturn ht hw
    · have hturn := h.turn hC slot1 1 (by omega) (hempty ▸ hpc) hr
      rw [trio_aged, trio_update1, aged_unused] at hturn
      exact ih hturn ht hw

theorem first_visited (hC : AllowsSched C) :
    Visits C (atPc (fun p => aged 0 (firstTable p)) 0 .top (.pick initproc)) := by
  have h0 : Visits C (atPc firstTable 0 .top .top) := ⟨_, .boot firstTable_booted⟩
  exact h0.round hC (by decide +kernel)

theorem forked_visited (hC : AllowsOwn C .top) :
    Visits C (atPc (trio (runnable 1 0 0 1 0 1 0) (runnable 2 0 0 0 0 0 5) {}) 1
      (.back initproc .top) .top) := by
  have h1 := (first_visited hC.sched).resume hC (.pickRun _ initproc rfl rfl rfl)
  have htable : (fun p => aged 0 (firstTable p)) = trio (runnable 1 0 0 0 0 0 5) {} {} := trio_aged
  rw [htable, trio_update] at h1
  have h2 := h1.fork hC (q := slot1) (by decide) rfl 2
  rw [trio_update1] at h2
  have h3 := (h2.ticks hC 1 (by decide)).yield hC
  rw [trio_update] at h3
  have hA : (dispatched .MLFQ 0 (runnable 1 0 0 0 0 0 5)).yield (0 + 1) =
      runnable 1 0 0 1 0 1 0 := rfl
  rw [← hA]
  exact h3

/-- The turns in which the two processes go through queues 0 to 3: each has one, two, four and
eight ticks in them. -/
def downTheQueues : List Bool :=
  [true] ++ List.replicate 2 false ++ List.replicate 2 true ++ List.replicate 4 false ++
    List.replicate 4 true ++ List.replicate 8 false ++ List.replicate 8 true

theorem queue4_visited (hC : AllowsOwn C .top) :
    ∃ x, Visits C (atPc (trio (runnable 1 4 22 0 21 15 0) (runnable 2 3 14 8 29 15 0) {}) 30 x
      .top) := by
  have hw : turns (runnable 1 0 0 1 0 1 0) (runnable 2 0 0 0 0 0 5) 1 downTheQueues =
      some (runnable 1 4 22 0 21 15 0, runnable 2 3 14 8 29 15 0) := by
    decide +kernel
  exact (forked_visited hC).turns hC downTheQueues (by decide) hw

theorem queue4_resumed (hC : ∀ k, AllowsOwn C k) :
    Visits C (onCpu (trio (dispatched4 (runnable 1 4 22 0 21 15 0)) (runnable 2 4 30 0 29 15 0) {})
      30 initproc (.rr4 1)) := by
  obtain ⟨x, h0⟩ := queue4_visited (hC _)
  have hpc : choice (fun p => aged 30
      (trio (runnable 1 4 22 0 21 15 0) (runnable 2 3 14 8 29 15 0) {} p)) 4 = .rr4 0 := by
    decide +kernel
  have h1 := (h0.round (hC .top).sched hpc).resume (hC _) (.rr4Run _ initproc rfl rfl rfl rfl)
  rw [trio_aged, trio_update, aged_unused] at h1
  exact h1

theorem overcharged_visited (hC : ∀ k, AllowsOwn C k) :
    Visits C (atPc (trio (runnable 1 4 22 10 21 25 0) (runnable 2 4 30 0 29 15 0) {}) 31
      (.back initproc (.rr4 1)) (.rr4 1)) := by
  have h1 := ((queue4_resumed hC).ticks (hC _) 1 (by decide)).yield (hC _)
  rw [trio_update] at h1
  exact h1

end Queue4

/-- The first process, 9 ticks after it entered queue 4, is charged 10 ticks in it, and `age`
computes a negative waiting time. -/
theorem waiting_time_negative :
    ∃ (s : State 1) (g : Slot → Entry), Run .MLFQ (fun _ _ => True) s g ∧
      (s.proc initproc).state = .runnable ∧
      (s.ticks : Int) - (s.proc initproc).entryTime < (s.proc initproc).timeRanInQueue ∧
      waitTime s.ticks (s.proc initproc) < 0 := by
  obtain ⟨g, hrun⟩ := overcharged_visited (C := fun _ _ => True)
    fun _ => ⟨fun _ _ _ => trivial, fun _ _ _ _ _ _ _ => trivial⟩
  exact ⟨_, g, hrun, rfl, by decide, by decide⟩

theorem Effect.getsCpu {q : Slot} {r : Proc} (he : Effect .MLFQ s q r) (hp : GetsCpu (s.proc q) r) :
    (s.proc q).state = .runnable ∧ r.queue = (s.proc q).queue ∧
      r.timeRanInQueue = (s.proc q).timeRanInQueue := by
  obtain ⟨hnot, hrun⟩ := hp
  cases he with
  | dispatch hs | dispatch4 hs => exact ⟨hs, rfl, rfl⟩
  | demote => exact absurd (hrun ▸ (demoteStep_state _ _).symm) hnot
  | age => exact absurd (hrun ▸ (ageStep_state _ _).symm) hnot
  | yield hs | sleep _ hs | exit _ hs => exact absurd hs hnot
  | wakeup chan => grind [Proc.wakeup_state]
  | kill =>
    rcases (s.proc q).kill_state with hs | ⟨-, hs⟩
    · exact absurd (hs.symm.trans hrun) hnot
    · rw [hs] at hrun
      cases hrun
  | updateTime => exact absurd ((Proc.updateTime_state _).symm.trans hrun) hnot
  | setPriority | settickets => exact absurd hrun hnot
  | allocproc | allocFail | forked | reap => cases hrun

theorem Step.getsCpu (hi : Inv s) (hs : Step .MLFQ s s') {p : Slot}
    (hp : GetsCpu (s.proc p) (s'.proc p)) : (s.proc p).state = .runnable ∧
      (s'.proc p).queue = (s.proc p).queue ∧
      (s'.proc p).timeRanInQueue = (s.proc p).timeRanInQueue := by
  rcases (hs.affects hi).proc p with ⟨hproc, -⟩ | ⟨he, -⟩
  · rw [hproc] at hp
    exact absurd hp.2 hp.1
  · exact he.getsCpu hp

/-- A run without `sleep` and `exit` is punctual until a process can have come to queue 4. -/
theorem Run.punctual {g : Slot → Entry} (h : Run .MLFQ Yields s g) (ht : s.ticks < 4) :
    Run .MLFQ Punctual s g := by
  induction h with
  | boot h => exact .boot h
  | step h hs hc ih =>
    have hclock := hc.clock
    have hrun := ih (by omega)
    refine hrun.step hs ⟨by omega, fun p hp hq => ?_, fun p hp hr => absurd (hc.leaves p hp) hr⟩
    have hacc := hrun.accounts.2 p (by rw [(hs.getsCpu h.inv hp).1]; decide)
    have hwait := hacc.wait hp.1
    have hdepth := hacc.depth
    have hpos := hacc.pos
    omega

/-- The first process forks in its first turn, the child has one, and the first process has another.
It is in queue 1 since the first tick and has had the CPU in it for one of the two ticks since
then. -/
theorem waiting_time_two_turns : ∃ (s : State 1) (g : Slot → Entry), Run .MLFQ Punctual s g ∧
      s.ticks = 3 ∧ (s.proc initproc).queue = 1 ∧ (s.proc initproc).timeRanInQueue = 1 ∧
      waitTime s.ticks (s.proc initproc) = 1 ∧
      waitTime s.ticks (s.proc initproc) = s.ticks - (g initproc).entered - (g initproc).ran := by
  have hC : AllowsOwn Yields .top := ⟨yields_sched, fun _ _ _ _ _ _ => id⟩
  have hw : turns (runnable 1 0 0 1 0 1 0) (runnable 2 0 0 0 0 0 5) 1 [true, false] =
      some (runnable 1 1 1 1 2 2 0, runnable 2 1 2 0 1 1 0) := by
    decide +kernel
  obtain ⟨x, g, hrun⟩ := (forked_visited hC).turns hC _ (by decide) hw
  have hrun := hrun.punctual (show 3 < 4 by decide)
  have hexact := waiting_time_exact hrun initproc nofun nofun
  have hwait : waitTime 3 (runnable 1 1 1 1 2 2 0) = 1 := by decide
  exact ⟨_, g, hrun, rfl, rfl, rfl, hwait, hexact.2.2.2.2.2⟩

end Xv6.Sched
