import Xv6.Sched

/-!
# Sleep and wakeup

`sleep` and `wakeup` of `kernel/proc.c`, for a condition on data that a spin-lock `lk` protects
and a channel `chan`, in every interleaving of processes and interrupt handlers. A step is a
section of code under one lock. `sleep` takes `p->lock` before it gives up `lk`, so it is three
steps; `wakeup` takes the lock of one process after the other.
-/

namespace Xv6.Sync

/-- What executes kernel code: the thread of a process, possibly in an interrupt handler, or a
CPU without a process. There are `n` processes. -/
inductive Agent (n : Nat) where
  | proc (p : Fin n)
  | cpu (c : Nat)
  deriving DecidableEq

inductive Pos where
  | idle
  | holding
  /-- has `lk` and is in `wakeup(chan)`, about to take the lock of process `j` -/
  | waking (j : Nat)
  /-- in `sleep`, has `lk` and `p->lock` -/
  | sleepLocked
  | sleepReleased
  | asleep
  /-- at the end of `sleep`, before `acquire(lk)` -/
  | reacquire
  deriving DecidableEq

def Pos.holds : Pos → Bool
  | .holding | .waking _ | .sleepLocked => true
  | _ => false

/-- The state. `owes` says that the holder of `lk` has made the condition true and has not
completed a `wakeup` since. -/
structure State (n : Nat) (δ : Type) where
  proc : Fin n → Proc
  pos : Agent n → Pos
  lk : Option (Agent n)
  data : δ
  owes : Bool

namespace State

variable {n : Nat} {δ : Type}

def goto (s : State n δ) (a : Agent n) (x : Pos) : State n δ :=
  { s with pos := Function.update s.pos a x }

def setProc (s : State n δ) (p : Fin n) (r : Proc) : State n δ :=
  { s with proc := Function.update s.proc p r }

def runs (s : State n δ) : Agent n → Prop
  | .proc p => (s.proc p).state = .running
  | .cpu _ => True

def locked (s : State n δ) (p : Fin n) : Prop :=
  s.pos (.proc p) = .sleepLocked ∨ s.pos (.proc p) = .sleepReleased

instance (s : State n δ) (p : Fin n) : Decidable (s.locked p) := inferInstanceAs (Decidable (_ ∨ _))

end State

section Model

variable {n : Nat} {δ : Type} (chan : Nat) (cond : δ → Bool)

/-- The steps. A sleeper calls `sleep(chan, lk)` only when the condition is false, and a holder
that has made it true calls `wakeup(chan)` before it releases `lk`. -/
inductive Step (s : State n δ) : State n δ → Prop where
  | acquire (a : Agent n) (hlk : s.lk = none) (hrun : s.runs a)
      (hpos : s.pos a = .idle ∨ s.pos a = .reacquire) :
      Step s { s.goto a .holding with lk := some a }
  | act (a : Agent n) (data : δ) (hpos : s.pos a = .holding) :
      Step s { s with data := data, owes := cond data && (s.owes || !cond s.data) }
  | release (a : Agent n) (hpos : s.pos a = .holding) (howes : s.owes = false) :
      Step s { s.goto a .idle with lk := none }
  /-- the holder calls `wakeup(chan)` -/
  | wakeup (a : Agent n) (hpos : s.pos a = .holding) : Step s (s.goto a (.waking 0))
  /-- an iteration of `wakeup(chan)` at another process -/
  | scan (a : Agent n) (p : Fin n) (ticks : Nat) (hpos : s.pos a = .waking p)
      (hne : a ≠ .proc p) (hlock : ¬ s.locked p) :
      Step s ((s.setProc p ((s.proc p).wakeup ticks chan)).goto a (.waking (p + 1)))
  /-- an iteration of `wakeup(chan)` at the caller -/
  | scanSelf (p : Fin n) (hpos : s.pos (.proc p) = .waking p) :
      Step s (s.goto (.proc p) (.waking (p + 1)))
  | wakeupReturn (a : Agent n) (hpos : s.pos a = .waking n) :
      Step s { s.goto a .holding with owes := false }
  /-- the holder calls `sleep(chan, lk)`: `acquire(&p->lock)` -/
  | sleep (p : Fin n) (hpos : s.pos (.proc p) = .holding) (hcond : cond s.data = false) :
      Step s (s.goto (.proc p) .sleepLocked)
  | sleepRelease (p : Fin n) (hpos : s.pos (.proc p) = .sleepLocked) :
      Step s { s.goto (.proc p) .sleepReleased with lk := none }
  /-- the rest of `sleep` up to `sched`, and `release(&p->lock)` in the scheduler -/
  | sleepSwitch (p : Fin n) (ticks : Nat) (hpos : s.pos (.proc p) = .sleepReleased) :
      Step s ((s.setProc p ((s.proc p).sleep ticks chan)).goto (.proc p) .asleep)
  /-- the scheduler switches to a process in `sleep`, which releases `p->lock` -/
  | resume (p : Fin n) (r : Proc) (hpos : s.pos (.proc p) = .asleep)
      (h : (s.proc p).state = .runnable)
      (hr : (∃ b ticks, r = Sched.dispatched b ticks (s.proc p)) ∨ r = Sched.dispatched4 (s.proc p)) :
      Step s ((s.setProc p { r with chan := 0 }).goto (.proc p) .reacquire)
  /-- the scheduler switches to another process, which releases `p->lock` -/
  | dispatch (p : Fin n) (r : Proc) (hpos : s.pos (.proc p) = .idle ∨ s.pos (.proc p) = .reacquire)
      (h : (s.proc p).state = .runnable)
      (hr : (∃ b ticks, r = Sched.dispatched b ticks (s.proc p)) ∨ r = Sched.dispatched4 (s.proc p)) :
      Step s (s.setProc p r)
  | yield (p : Fin n) (ticks : Nat)
      (hpos : s.pos (.proc p) = .idle ∨ s.pos (.proc p) = .reacquire)
      (h : (s.proc p).state = .running) : Step s (s.setProc p ((s.proc p).yield ticks))
  /-- an iteration of a `wakeup` by other code, on any channel -/
  | wakeupOther (p : Fin n) (ticks c : Nat) (hlock : ¬ s.locked p) :
      Step s (s.setProc p ((s.proc p).wakeup ticks c))
  | kill (p : Fin n) (hlock : ¬ s.locked p) : Step s (s.setProc p (s.proc p).kill)
  /-- other code changes the record of a process that is not in a section of `lk`, and does not
  put it to sleep on `chan` -/
  | other (p : Fin n) (r : Proc) (hpos : s.pos (.proc p) = .idle)
      (hr : ¬ (r.state = .sleeping ∧ r.chan = chan)) : Step s (s.setProc p r)

/-- The states of all runs that start with `lk` free and nobody asleep on `chan`. -/
inductive Reachable : State n δ → Prop where
  | init {s : State n δ} (hpos : ∀ a, s.pos a = .idle) (hlk : s.lk = none)
      (howes : s.owes = false)
      (hproc : ∀ p, ¬ ((s.proc p).state = .sleeping ∧ (s.proc p).chan = chan)) : Reachable s
  | step {s s' : State n δ} (h : Reachable s) (hs : Step chan cond s s') : Reachable s'

end Model

/-! ## The invariant -/

section Invariant

variable {n : Nat} {δ : Type} {chan : Nat} {cond : δ → Bool}
  {s s' : State n δ} {a : Agent n} {p q : Fin n} {x y : Pos} {r : Proc}

/-- Process `p` has found the condition false, has given up `lk` and has not been woken. -/
def State.committed (s : State n δ) (p : Fin n) : Prop :=
  s.pos (.proc p) = .sleepReleased ∨ s.pos (.proc p) = .asleep ∧ (s.proc p).state = .sleeping

def State.pending (s : State n δ) (p : Fin n) : Prop :=
  ∃ a, s.lk = some a ∧ (s.pos a = .holding ∧ s.owes = true ∨ ∃ j, s.pos a = .waking j ∧ j ≤ p)

/-- The invariant: whoever sleeps although the condition holds will be woken by the holder of
`lk`. -/
structure Inv (chan : Nat) (cond : δ → Bool) (s : State n δ) : Prop where
  holder : ∀ a, s.lk = some a ↔ (s.pos a).holds = true
  asleep : ∀ p, (s.proc p).state = .sleeping → (s.proc p).chan = chan → s.pos (.proc p) = .asleep
  chan : ∀ p, s.pos (.proc p) = .asleep → (s.proc p).state = .sleeping → (s.proc p).chan = chan
  tested : ∀ p, s.pos (.proc p) = .sleepLocked → cond s.data = false
  pending : ∀ p, s.committed p → cond s.data = true → s.pending p

/-! ### Updates -/

@[simp, grind =]
theorem State.goto_proc (s : State n δ) (q : Fin n) : (s.goto a x).proc q = s.proc q := rfl

@[simp, grind =]
theorem State.goto_data (s : State n δ) : (s.goto a x).data = s.data := rfl

@[grind =]
theorem State.goto_pos (s : State n δ) (b : Agent n) :
    (s.goto a x).pos b = if b = a then x else s.pos b :=
  Function.update_apply ..

theorem State.goto_pos_self (s : State n δ) : (s.goto a x).pos a = x := by simp [goto_pos]

@[simp, grind =]
theorem State.setProc_pos (s : State n δ) (b : Agent n) : (s.setProc p r).pos b = s.pos b := rfl

@[simp, grind =]
theorem State.setProc_data (s : State n δ) : (s.setProc p r).data = s.data := rfl

@[grind =]
theorem State.setProc_proc (s : State n δ) (q : Fin n) :
    (s.setProc p r).proc q = if q = p then r else s.proc q :=
  Function.update_apply ..

/-! ### Steps that change a record -/

theorem Inv.setProc (h : Inv chan cond s)
    (hr : r.state = .sleeping → r.chan = chan → s.pos (.proc p) = .asleep)
    (hc : s.pos (.proc p) = .asleep → r.state = .sleeping →
      (s.proc p).state = .sleeping ∧ r.chan = chan) : Inv chan cond (s.setProc p r) := by
  obtain ⟨h1, h2, h3, h4, h5⟩ := h
  have hcom : ∀ q, (s.setProc p r).committed q → s.committed q := by grind [State.committed]
  constructor
  · exact h1
  · grind
  · grind
  · exact h4
  · exact fun q hq => h5 q (hcom q hq)

theorem Inv.setProc_awake (h : Inv chan cond s)
    (hr : r.state = .sleeping → (s.proc p).state = .sleeping ∧ r.chan = (s.proc p).chan) :
    Inv chan cond (s.setProc p r) := by
  apply h.setProc
  · grind [h.asleep]
  · grind [h.chan]

theorem Inv.wakeup (h : Inv chan cond s) (p : Fin n) (ticks c : Nat) :
    Inv chan cond (s.setProc p ((s.proc p).wakeup ticks c)) := by
  apply h.setProc_awake
  intro hs
  have hsame := (Proc.wakeup_sleeping hs).1
  rw [hsame] at hs ⊢
  exact ⟨hs, rfl⟩

/-! ### Steps that move an agent -/

/-- The position of a process that has given up `lk` in `sleep`. -/
def Pos.inSleep : Pos → Bool
  | .sleepReleased | .asleep => true
  | _ => false

theorem Inv.unique (h : Inv chan cond s) (hlk : s.lk = some a) {a' : Agent n}
    (ha : (s.pos a').holds = true) : a' = a := by
  have h' := (h.holder a').mpr ha
  rw [hlk] at h'
  exact (Option.some.inj h').symm

theorem State.committed_of_goto (hx : x.inSleep = false) (h : (s.goto a x).committed q) :
    s.committed q := by
  grind [State.committed, Pos.inSleep]

theorem Inv.move {l : Option (Agent n)} {o : Bool} (h : Inv chan cond s) (hpos : s.pos a = y)
    (hfrom : y = .asleep → ∀ q, a = .proc q → (s.proc q).state ≠ .sleeping)
    (hx : x.inSleep = false) (htest : x = .sleepLocked → cond s.data = false)
    (hholder : ∀ a', l = some a' ↔ ((s.goto a x).pos a').holds = true)
    (hpend : ∀ q, s.committed q → cond s.data = true →
      ({ s.goto a x with lk := l, owes := o } : State n δ).pending q) :
    Inv chan cond { s.goto a x with lk := l, owes := o } := by
  obtain ⟨-, h2, h3, h4, -⟩ := h
  constructor
  · exact hholder
  · grind
  · grind [Pos.inSleep]
  · grind
  · exact fun q hq => hpend q (State.committed_of_goto hx hq)

theorem Inv.holder_keep (h : Inv chan cond s) (hpos : s.pos a = y) (hx : x.holds = y.holds)
    (a' : Agent n) : s.lk = some a' ↔ ((s.goto a x).pos a').holds = true := by
  grind [h.holder]

theorem Inv.holder_take (h : Inv chan cond s) (hlk : s.lk = none) (hx : x.holds = true)
    (a' : Agent n) : some a = some a' ↔ ((s.goto a x).pos a').holds = true := by
  grind [h.holder]

theorem Inv.holder_drop (h : Inv chan cond s) (hpos : s.pos a = y) (hy : y.holds = true)
    (hx : x.holds = false) (a' : Agent n) : none = some a' ↔ ((s.goto a x).pos a').holds = true := by
  have := h.holder
  grind

theorem Inv.pending_holder (h : Inv chan cond s) (hpos : s.pos a = y) (ha : y.holds = true)
    (hq : s.committed q) (hcond : cond s.data = true) :
    y = .holding ∧ s.owes = true ∨ ∃ j, y = .waking j ∧ j ≤ q := by
  subst hpos
  obtain ⟨a', hlk, hp⟩ := h.pending q hq hcond
  have haa := h.unique hlk ha
  subst haa
  exact hp

theorem Inv.pending_scan {j : Nat} (h : Inv chan cond s) (ha : s.pos a = .waking j)
    (hq : s.committed q) (hcond : cond s.data = true) : j ≤ q := by
  rcases h.pending_holder ha rfl hq hcond with ⟨hpos, -⟩ | ⟨i, hpos, hi⟩
  · cases hpos
  · cases hpos
    exact hi

theorem Inv.scanned {j : Nat} (h : Inv chan cond s) (ha : s.pos a = .waking j)
    (hj : ∀ q : Fin n, q = j → ¬ s.committed q) : Inv chan cond (s.goto a (.waking (j + 1))) := by
  refine h.move (o := s.owes) ha nofun rfl nofun (h.holder_keep ha rfl) ?_
  intro q hq hcond
  have hle := h.pending_scan ha hq hcond
  have hne : (q : Nat) ≠ j := fun e => hj q e hq
  refine ⟨a, (h.holder a).mpr (by rw [ha]; rfl), .inr ⟨j + 1, State.goto_pos_self s, ?_⟩⟩
  omega

/-! ### `sleep` -/

theorem Inv.sleepRelease (h : Inv chan cond s) (hpos : s.pos (.proc p) = .sleepLocked) :
    Inv chan cond { s.goto (.proc p) .sleepReleased with lk := none } := by
  have hdrop := h.holder_drop (x := .sleepReleased) hpos rfl rfl
  have hfalse := h.tested p hpos
  obtain ⟨-, h2, h3, -, -⟩ := h
  constructor
  · exact hdrop
  · grind
  · grind
  · exact fun _ _ => hfalse
  · grind

theorem Inv.sleepSwitch (h : Inv chan cond s) (hpos : s.pos (.proc p) = .sleepReleased)
    (ticks : Nat) :
    Inv chan cond ((s.setProc p ((s.proc p).sleep ticks chan)).goto (.proc p) .asleep) := by
  have hkeep := h.holder_keep (x := .asleep) hpos rfl
  have hchan : ((s.proc p).sleep ticks chan).chan = chan := rfl
  obtain ⟨-, h2, h3, h4, h5⟩ := h
  constructor
  · exact hkeep
  · grind
  · grind
  · grind
  · intro q hq hcond
    obtain ⟨a, hlk, ha⟩ := h5 q (by grind [State.committed]) hcond
    have hne : a ≠ .proc p := by grind
    refine ⟨a, hlk, ?_⟩
    rwa [State.goto_pos, if_neg hne]

/-! ### All steps -/

theorem Step.inv (h : Inv chan cond s) (hs : Step chan cond s s') : Inv chan cond s' := by
  cases hs with
  | acquire _ hlk _ hpos =>
    refine h.move (o := s.owes) rfl (by grind) rfl nofun (h.holder_take hlk rfl) ?_
    intro q hq hcond
    obtain ⟨a', hlk', -⟩ := h.pending q hq hcond
    rw [hlk] at hlk'
    cases hlk'
  | act a _ hpos =>
    have hlk := (h.holder a).mpr (by rw [hpos]; rfl)
    refine ⟨h.holder, h.asleep, h.chan, ?_, ?_⟩
    · intro q hq
      have haq : .proc q = a := h.unique hlk (by rw [hq]; rfl)
      rw [haq, hpos] at hq
      cases hq
    · intro q hq hcond
      refine ⟨a, hlk, .inl ⟨hpos, ?_⟩⟩
      cases hold : cond s.data with
      | false => simp_all
      | true =>
        rcases h.pending_holder hpos rfl hq hold with ⟨-, howes⟩ | ⟨j, hj, -⟩
        · simp_all
        · cases hj
  | release _ hpos howes =>
    refine h.move (o := s.owes) hpos nofun rfl nofun (h.holder_drop hpos rfl rfl) ?_
    intro q hq hcond
    rcases h.pending_holder hpos rfl hq hcond with ⟨-, ho⟩ | ⟨j, hj, -⟩
    · rw [howes] at ho
      cases ho
    · cases hj
  | wakeup a hpos =>
    refine h.move (o := s.owes) hpos nofun rfl nofun (h.holder_keep hpos rfl) ?_
    intro q hq hcond
    refine ⟨a, (h.holder a).mpr (by rw [hpos]; rfl), .inr ⟨0, State.goto_pos_self s, ?_⟩⟩
    exact Nat.zero_le _
  | scan _ p ticks hpos _ hlock =>
    refine (h.wakeup p ticks chan).scanned hpos ?_
    intro q hqp hq
    obtain rfl : q = p := Fin.ext hqp
    rcases hq with hq | ⟨hq, hsl⟩
    · exact hlock (.inr hq)
    · grind [h.chan, Proc.wakeup_sleeping]
  | scanSelf p hpos =>
    refine h.scanned hpos ?_
    intro q hqp hq
    grind [State.committed]
  | wakeupReturn _ hpos =>
    refine h.move hpos nofun rfl nofun (h.holder_keep hpos rfl) ?_
    intro q hq hcond
    exact absurd (h.pending_scan hpos hq hcond) (Nat.not_le.mpr q.isLt)
  | sleep _ hpos hcond =>
    refine h.move (o := s.owes) hpos nofun rfl (fun _ => hcond) (h.holder_keep hpos rfl) ?_
    grind
  | sleepRelease _ hpos => exact h.sleepRelease hpos
  | sleepSwitch _ ticks hpos => exact h.sleepSwitch hpos ticks
  | resume p r hpos _ hr =>
    have hrs : r.state = .running := by rcases hr with ⟨b, ticks, rfl⟩ | rfl <;> rfl
    have h' : Inv chan cond (s.setProc p { r with chan := 0 }) :=
      h.setProc_awake fun hs => absurd (hrs.symm.trans hs) (by decide)
    refine h'.move (o := s.owes) hpos ?_ rfl nofun (h'.holder_keep hpos rfl) ?_
    · grind
    · intro q hq hcond
      obtain ⟨a, hlk, ha⟩ := h'.pending q hq hcond
      have hne : a ≠ .proc p := by grind
      refine ⟨a, hlk, ?_⟩
      rwa [State.goto_pos, if_neg hne]
  | dispatch _ r _ _ hr =>
    have hrs : r.state = .running := by rcases hr with ⟨b, ticks, rfl⟩ | rfl <;> rfl
    exact h.setProc_awake fun hs => absurd (hrs.symm.trans hs) (by decide)
  | yield _ ticks =>
    exact h.setProc_awake fun hs => absurd ((Proc.yield_state ticks _).symm.trans hs) (by decide)
  | wakeupOther p ticks c => exact h.wakeup p ticks c
  | kill p =>
    refine h.setProc_awake fun hs => ?_
    rcases (s.proc p).kill_state with hk | ⟨-, hk⟩
    · exact ⟨hk.symm.trans hs, rfl⟩
    · exact absurd (hk.symm.trans hs) (by decide)
  | other _ _ hpos hr =>
    apply h.setProc
    · exact fun hs hc => absurd ⟨hs, hc⟩ hr
    · grind

theorem Reachable.inv (h : Reachable chan cond s) : Inv chan cond s := by
  induction h with
  | @init s hpos hlk howes hproc => constructor <;> grind [State.committed, Pos.holds]
  | step _ hs ih => exact Step.inv ih hs

/-- No lost wakeup: when `lk` is free and the condition holds, no process sleeps on `chan`. -/
theorem no_lost_wakeup (h : Reachable chan cond s) (hlk : s.lk = none) (hcond : cond s.data = true)
    (p : Fin n) : ¬ ((s.proc p).state = .sleeping ∧ (s.proc p).chan = chan) := by
  rintro ⟨hs, hc⟩
  have hinv := h.inv
  obtain ⟨a, ha, -⟩ := hinv.pending p (.inr ⟨hinv.asleep p hs hc, hs⟩) hcond
  rw [hlk] at ha
  cases ha

/-- Two processes run, and the condition is a flag that is not set. -/
def twoRunning : State 2 Bool where
  proc _ := { state := .running }
  pos _ := .idle
  lk := none
  data := false
  owes := false

/-- Process 0 sleeps until process 1 sets the flag. -/
theorem no_lost_wakeup_flag : ∃ s : State 2 Bool, Reachable 7 id s ∧ s.lk = none ∧
    s.data = true ∧ s.pos (.proc 0) = .asleep ∧
    ¬ ((s.proc 0).state = .sleeping ∧ (s.proc 0).chan = 7) := by
  have h : Reachable 7 id twoRunning := .init (fun _ => rfl) rfl rfl fun p h => by cases h.1
  have h := h.step (.acquire (.proc 0) rfl rfl (.inl rfl))
  have h := h.step (.sleep 0 rfl rfl)
  have h := h.step (.sleepRelease 0 rfl)
  have h := h.step (.sleepSwitch 0 0 rfl)
  have h := h.step (.acquire (.proc 1) rfl rfl (.inl rfl))
  have h := h.step (.act (.proc 1) true rfl)
  have h := h.step (.wakeup (.proc 1) rfl)
  have h := h.step (.scan (.proc 1) 0 0 rfl (by decide) (by decide))
  have h := h.step (.scanSelf 1 rfl)
  have h := h.step (.wakeupReturn (.proc 1) rfl)
  have h := h.step (.release (.proc 1) rfl rfl)
  exact ⟨_, h, rfl, rfl, rfl, no_lost_wakeup h rfl rfl 0⟩

end Invariant

end Xv6.Sync
