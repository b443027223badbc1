import Xv6.Sync.ExitWait

/-!
# Parents and children

Who holds `wait_lock`, and which processes have parents, in every state of the protocol.
-/

namespace Xv6

open Function (update update_apply update_of_ne)

attribute [local grind =] update_apply

inductive Life where
  | unused | used | alive | zombie
  deriving DecidableEq

def Proc.life (r : Proc) : Life :=
  match r.state with
  | .unused => .unused
  | .used => .used
  | .zombie => .zombie
  | _ => .alive

/-- The fields that only `fork`, `exit` and `wait` change. -/
structure Proc.Same (r r' : Proc) : Prop where
  life : r'.life = r.life
  parent : r'.parent = r.parent
  pid : r'.pid = r.pid
  xstate : r'.xstate = r.xstate

section Same

variable {r r' : Proc}

theorem Proc.life_of_running (h : r.state = .running) : r.life = .alive := by simp [life, h]

theorem Proc.life_of_zombie (h : r.state = .zombie) : r.life = .zombie := by simp [life, h]

theorem Proc.life_of_unused (h : r.state = .unused) : r.life = .unused := by simp [life, h]

theorem Proc.state_of_zombie (h : r.life = .zombie) : r.state = .zombie := by
  cases hs : r.state <;> simp_all [life]

theorem Proc.state_of_used (h : r.life = .used) : r.state = .used := by
  cases hs : r.state <;> simp_all [life]

theorem Proc.same_wakeup (r : Proc) (ticks chan : Nat) : r.Same (r.wakeup ticks chan) := by
  obtain h | ⟨hs, -, t, x, h⟩ := r.wakeup_eq ticks chan
  · rw [h]
    exact ⟨rfl, rfl, rfl, rfl⟩
  · rw [h]
    exact ⟨by simp [life, hs], rfl, rfl, rfl⟩

theorem Proc.same_kill (r : Proc) : r.Same r.kill := by
  refine ⟨?_, rfl, rfl, rfl⟩
  by_cases hs : r.state = .sleeping <;> simp [kill, life, hs]

theorem Proc.same_yield (ticks : Nat) (h : r.state = .running) : r.Same (r.yield ticks) := by
  obtain ⟨x, hx⟩ := r.yield_eq ticks
  rw [hx]
  exact ⟨by simp [life, h], rfl, rfl, rfl⟩

theorem Proc.same_sleep (ticks chan : Nat) (h : r.state = .running) : r.Same (r.sleep ticks chan) :=
  ⟨by simp [sleep, life, h], rfl, rfl, rfl⟩

theorem ExitWait.Dispatched.same (hd : Dispatched r r') (h : r.state = .runnable) : r.Same r' := by
  rcases hd with ⟨b, ticks, rfl⟩ | rfl
  · exact ⟨by simp [Sched.dispatched, Proc.life, h], rfl, rfl, rfl⟩
  · exact ⟨by simp [Sched.dispatched4, Proc.life, h], rfl, rfl, rfl⟩

end Same

namespace ExitWait

variable {s s' : State} {proc : Slot → Proc} {pos : Slot → Pos} {p q np : Slot} {x y : Pos}
  {r : Proc}
variable {lk : Option Slot}

/-! ## The holder of `wait_lock` -/

def Held (lk : Option Slot) (pos : Slot → Pos) : Prop := ∀ p, lk = some p ↔ (pos p).holds = true

theorem Held.unique (h : Held lk pos) (hp : (pos p).holds = true) (hq : (pos q).holds = true) :
    p = q := by
  have hp' := (h p).mpr hp
  have hq' := (h q).mpr hq
  exact Option.some.inj (hp'.symm.trans hq')

theorem Held.others (h : Held lk pos) (hp : (pos p).holds = true) (hq : q ≠ p) :
    (pos q).holds = false := by
  grind [h.unique (p := q) (q := p)]

theorem Held.keep (h : Held lk pos) (hp : pos p = y) (hx : x.holds = y.holds) :
    Held lk (update pos p x) := by
  intro q
  grind [h q]

theorem Held.take (h : Held none pos) (hx : x.holds = true) : Held (some p) (update pos p x) := by
  intro q
  by_cases hq : q = p
  · grind
  · rw [update_of_ne hq, ← h q]
    exact ⟨fun e => absurd (Option.some.inj e).symm hq, nofun⟩

theorem Held.drop (h : Held lk pos) (hp : pos p = y) (hy : y.holds = true) (hx : x.holds = false) :
    Held none (update pos p x) := by
  rw [← hp] at hy
  intro q
  by_cases hq : q = p
  · grind
  · rw [update_of_ne hq]
    exact ⟨nofun, fun hq' => absurd (h.unique hq' hy) hq⟩

/-! ## The process tree -/

/-- The child that the process is about to finish in `fork`. -/
def Pos.target : Pos → Option Slot
  | .forking np | .forked np => some np
  | _ => none

def Pos.exits : Pos → Bool
  | .reparenting _ | .reparentWake _ _ | .exitWake _ => true
  | _ => false

/-- The processes below this one are no children of the exiting process any more. -/
def Pos.reparented : Pos → Nat
  | .reparenting i => i
  | .reparentWake i _ => i + 1
  | .exitWake _ => nproc
  | _ => 0

theorem Pos.exits_of_reparented (h : 0 < x.reparented) : x.exits = true := by
  cases x <;> first | rfl | exact absurd h (Nat.lt_irrefl 0)

theorem Pos.target_of_exits (h : x.exits = true) : x.target = none := by
  cases x <;> first | rfl | cases h

theorem Pos.holds_of_exits (h : x.exits = true) : x.holds = true := by
  cases x <;> first | rfl | cases h

structure Family (proc : Slot → Proc) (pos : Slot → Pos) : Prop where
  init : (proc initproc).life = .alive
  root : (proc initproc).parent = none
  parent : ∀ q r, (proc q).parent = some r → (proc r).life = .alive
  child : ∀ q, q ≠ initproc → (proc q).life = .alive ∨ (proc q).life = .zombie →
    (proc q).parent ≠ none
  holder : ∀ p, (pos p).holds = true → (proc p).life = .alive
  target : ∀ p np, (pos p).target = some np → (proc np).life = .used
  forked : ∀ p np, pos p = .forked np → (proc np).parent ≠ none
  unique : ∀ p p' np, (pos p).target = some np → (pos p').target = some np → p = p'
  exits : ∀ p, (pos p).exits = true → p ≠ initproc
  orphaned : ∀ p q : Slot, q < (pos p).reparented → (proc q).parent ≠ some p

theorem Family.same (h : Family proc pos) (hr : (proc p).Same r) :
    Family (update proc p r) pos := by
  have hlife : ∀ q, (update proc p r q).life = (proc q).life := by grind [hr.life]
  have hparent : ∀ q, (update proc p r q).parent = (proc q).parent := by grind [hr.parent]
  refine ⟨?_, ?_, ?_, ?_, ?_, ?_, ?_, h.unique, h.exits, ?_⟩ <;> simp only [hlife, hparent]
  exacts [h.init, h.root, h.parent, h.child, h.holder, h.target, h.forked, h.orphaned]

theorem Family.goto (h : Family proc pos) (hp : pos p = y) (hy : y.target = none)
    (hx : x.target = none) (hholds : x.holds = true → (proc p).life = .alive)
    (hexits : x.exits = true → p ≠ initproc)
    (horph : ∀ q : Slot, q < x.reparented → (proc q).parent ≠ some p) :
    Family proc (update pos p x) := by
  have htarget : ∀ q, (update pos p x q).target = (pos q).target := by grind
  refine ⟨h.init, h.root, h.parent, h.child, ?_, ?_, ?_, ?_, ?_, ?_⟩
  · grind [h.holder]
  · simpa only [htarget] using h.target
  · grind [h.forked, Pos.target]
  · simpa only [htarget] using h.unique
  · grind [h.exits]
  · grind [h.orphaned]

theorem Step.held (hf : Family s.proc s.pos) (h : Held s.waitLock s.pos) (hs : Step s s') :
    Held s'.waitLock s'.pos := by
  cases hs with
  | dispatch | yield | kill | wakeup | sleep | other | forkFail => exact h
  | forkAlloc p np _ _ _ _ _ hp hnp =>
    have hnot : (s.pos np).holds = false := by
      have := hf.holder
      grind [Proc.life_of_unused]
    have hne : p ≠ np := by
      intro e
      rw [e] at hp
      exact absurd (hp.1.symm.trans hnp) (by decide)
    refine (h.keep (p := np) (x := .user) rfl hnot.symm).keep (y := .user) ?_ rfl
    rw [update_of_ne hne, hp.2]
  | forkParent _ _ hp | forkReady _ _ hp | reparentSkip _ _ hp | reparentChild _ _ hp
  | reparentWakeup _ _ _ _ hp | reparentWakeupSelf _ _ hp | reparentNext _ _ hp
  | reparentReturn _ hp | exitWakeup _ _ _ hp | exitWakeupSelf _ hp | scanSkip _ _ _ hp
  | scanChild _ _ _ hp | waitSleep _ hp | sleepLock _ hp | sleepSwitch _ _ hp =>
    exact h.keep hp.2 rfl
  | exitLock _ _ _ hlk | waitLock _ _ hlk =>
    rw [hlk] at h
    exact h.take rfl
  | exitZombie _ _ _ hp | scanReap _ _ _ _ hp | scanFail _ _ _ hp | waitFail _ _ hp
  | sleepRelease _ hp => exact h.drop hp.2 rfl rfl
  | exitSwitch _ hp => exact h.keep hp rfl
  | resume _ _ hpos => exact h.keep hpos rfl

theorem Family.exitGoto (h : Family proc pos) (hpos : pos p = y) (hy : y.exits = true)
    (hx : x.exits = true) (hr : x.reparented = y.reparented) : Family proc (update pos p x) := by
  have hpe : (pos p).exits = true := by rw [hpos, hy]
  have hold := h.orphaned p
  rw [hpos, ← hr] at hold
  refine h.goto hpos (Pos.target_of_exits hy) (Pos.target_of_exits hx) ?_ (fun _ => h.exits p hpe) hold
  exact fun _ => h.holder p (Pos.holds_of_exits hpe)

/-! ## Steps of the process tree -/

attribute [local grind] Pos.target Pos.holds Pos.exits Pos.reparented
attribute [local grind cases] Family

section

variable (h : Family proc pos)

include h

theorem Family.alloc (hnp : (proc np).life = .unused) (hr : r.life = .used)
    (hparent : r.parent = (proc np).parent) :
    Family (update proc np r) (update (update pos np .user) p (.forking np)) := by
  constructor <;> grind

theorem Family.unalloc (hnp : (proc np).life = .unused)
    (hr : r.life = .unused) (hparent : r.parent = none) : Family (update proc np r) pos := by
  constructor <;> grind

theorem Family.beget (hp : (proc p).life = .alive)
    (hpos : pos p = .forking np) (hr : r.life = (proc np).life) (hparent : r.parent = some p) :
    Family (update proc np r) (update pos p (.forked np)) := by
  constructor <;> grind

theorem Family.ready (hpos : pos p = .forked np) (hr : r.life = .alive)
    (hparent : r.parent = (proc np).parent) : Family (update proc np r) (update pos p .user) := by
  constructor <;> grind

theorem Family.adopt (hpos : pos p = .reparenting q)
    (hq : (proc q).parent = some p) (hr : r.life = (proc q).life)
    (hparent : r.parent = some initproc) :
    Family (update proc q r) (update pos p (.reparentWake q 0)) := by
  have hzero : (pos initproc).reparented = 0 := by
    apply Nat.eq_zero_of_not_pos
    exact fun hpos => h.exits initproc (Pos.exits_of_reparented hpos) rfl
  constructor <;> grind

end

theorem Family.exit {j : Nat} (h : Family proc pos) (hpos : pos p = .exitWake j)
    (hr : r.life = .zombie) (hparent : r.parent = (proc p).parent) :
    Family (update proc p r) (update pos p .leaving) := by
  constructor <;> grind

theorem Family.reap (h : Family proc pos) (hq : (proc q).life = .zombie) (hr : r.life = .unused)
    (hparent : r.parent = none) : Family (update proc q r) (update pos p .user) := by
  constructor <;> grind

theorem Step.family (h : Family s.proc s.pos) (hs : Step s s') : Family s'.proc s'.pos := by
  cases hs with
  | dispatch _ _ _ hrun hr => exact h.same (hr.same hrun)
  | yield _ ticks _ hrun => exact h.same (Proc.same_yield ticks hrun)
  | kill => exact h.same (Proc.same_kill _)
  | wakeup _ ticks chan => exact h.same (Proc.same_wakeup _ ticks chan)
  | sleep _ ticks chan hp => exact h.same (Proc.same_sleep ticks chan hp.1)
  | other _ _ hstate _ hparent hpid hxstate =>
    exact h.same ⟨by simp [Proc.life, hstate], hparent, hpid, hxstate⟩
  | forkAlloc _ _ _ _ _ _ _ _ hnp => exact h.alloc (Proc.life_of_unused hnp) rfl rfl
  | forkFail _ _ _ _ _ hnp => exact h.unalloc (Proc.life_of_unused hnp) rfl rfl
  | forkParent _ _ hp => exact h.beget (Proc.life_of_running hp.1) hp.2 rfl rfl
  | forkReady _ _ hp => exact h.ready hp.2 rfl rfl
  | exitLock _ hp hinit =>
    exact h.goto hp.2 rfl rfl (fun _ => Proc.life_of_running hp.1) (fun _ => hinit) fun _ => nofun
  | reparentSkip p i hp hi =>
    have hold := h.orphaned p
    rw [hp.2] at hold
    refine h.goto hp.2 rfl rfl (fun _ => Proc.life_of_running hp.1) ?_ ?_
    · exact fun _ => h.exits p (by rw [hp.2]; rfl)
    · intro q hq
      rcases Nat.lt_succ_iff_lt_or_eq.mp hq with hlt | heq
      · exact hold q hlt
      · grind
  | reparentChild _ _ hp hi => exact h.adopt hp.2 hi rfl rfl
  | reparentWakeup _ _ _ ticks hp =>
    exact (h.same (Proc.same_wakeup _ ticks (procChan initproc))).exitGoto hp.2 rfl rfl rfl
  | reparentWakeupSelf _ _ hp | reparentNext _ _ hp | reparentReturn _ hp | exitWakeupSelf _ hp =>
    exact h.exitGoto hp.2 rfl rfl rfl
  | exitWakeup p _ ticks hp =>
    exact (h.same (Proc.same_wakeup _ ticks (parentChan (s.proc p).parent))).exitGoto hp.2
      rfl rfl rfl
  | exitZombie _ _ _ hp => exact h.exit hp.2 rfl rfl
  | exitSwitch _ hp => exact h.goto hp rfl rfl nofun nofun fun _ => nofun
  | waitLock _ hp =>
    rcases hp with hp | hp
    · exact h.goto hp.2 rfl rfl (fun _ => Proc.life_of_running hp.1) nofun fun _ => nofun
    · exact h.goto hp.2 rfl rfl (fun _ => Proc.life_of_running hp.1) nofun fun _ => nofun
  | scanSkip _ _ _ hp | scanChild _ _ _ hp | waitSleep _ hp | sleepLock _ hp =>
    exact h.goto hp.2 rfl rfl (fun _ => Proc.life_of_running hp.1) nofun fun _ => nofun
  | scanReap _ _ _ _ _ _ _ hz => exact h.reap (Proc.life_of_zombie hz) rfl rfl
  | scanFail _ _ _ hp | waitFail _ _ hp | sleepRelease _ hp =>
    exact h.goto hp.2 rfl rfl nofun nofun fun _ => nofun
  | sleepSwitch p ticks hp =>
    exact (h.same (Proc.same_sleep ticks (procChan p) hp.1)).goto hp.2 rfl rfl nofun nofun
      fun _ => nofun
  | resume _ _ hpos hrun hr =>
    have hsame := hr.same hrun
    exact Family.goto (h.same { hsame with }) hpos rfl rfl nofun nofun fun _ => nofun

end ExitWait

end Xv6
