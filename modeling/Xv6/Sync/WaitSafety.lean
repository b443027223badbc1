import Xv6.Sync.Family

/-!
# No lost child

A process that sleeps in `wait` has no zombie child when `wait_lock` is free, and every zombie is
freed once, by a call that reports its own exit status.
-/

namespace Xv6.ExitWait

open Function (update update_apply update_eq_self update_of_ne update_self)
open Proc (life_of_unused life_of_zombie same_sleep same_wakeup)

variable {s s' : State} {proc : Slot → Proc} {pos : Slot → Pos} {p q np : Slot} {x y : Pos}
  {r : Proc}
variable {lk : Option Slot}

attribute [local simp] Proc.life Proc.free

attribute [local grind =] update_apply

/-! ## Sleepers -/

/-- Process `p` has seen no zombie among its children, has given up `wait_lock` and has not been
woken. -/
def Committed (proc : Slot → Proc) (pos : Slot → Pos) (p : Slot) : Prop :=
  pos p = .sleepReleased ∨ pos p = .asleep ∧ (proc p).state = .sleeping

/-- The processes below this one were no zombie children when `wait` looked at them. -/
def Pos.scanned : Pos → Nat
  | .scanning i _ => i
  | .sleepCalled | .sleepLocked => nproc
  | _ => 0

/-- The processes below this one have been woken by `exit`. -/
def Pos.woken : Pos → Nat
  | .exitWake j => j
  | _ => 0

/-- A wakeup of process `p` by `reparent` is still to come. -/
def Pos.rewakes (p : Slot) : Pos → Prop
  | .reparentWake _ j => p = initproc ∧ j ≤ p
  | _ => False

theorem Pos.holds_of_rewakes (h : x.rewakes p) : x.holds = true := by
  cases x <;> first | rfl | cases h

theorem Pos.eq_zero_of_holds (h : x.holds = false) : x.scanned = 0 ∧ x.woken = 0 := by
  cases x <;> first | exact ⟨rfl, rfl⟩ | cases h

theorem rewakes_goto {c : Slot} (h : ∃ w, (pos w).rewakes c)
    (hx : (pos p).rewakes c → x.rewakes c) : ∃ w, (update pos p x w).rewakes c := by
  obtain ⟨w, hw⟩ := h
  refine ⟨w, ?_⟩
  by_cases hwp : w = p
  · subst hwp
    rw [update_self]
    exact hx hw
  · rwa [update_of_ne hwp]

/-- The position of a process that has given up `wait_lock` in `sleep`. -/
def Pos.inSleep : Pos → Bool
  | .sleepReleased | .asleep => true
  | _ => false

structure Wake (proc : Slot → Proc) (pos : Slot → Pos) : Prop where
  chan : ∀ p, pos p = .asleep → (proc p).state = .sleeping → (proc p).chan = procChan p
  scanned : ∀ p q : Slot, q < (pos p).scanned → (proc q).parent = some p → (proc q).life ≠ .zombie
  woken : ∀ p q : Slot, (proc p).parent = some q → q < (pos p).woken → ¬ Committed proc pos q
  pending : ∀ p q, Committed proc pos p → (proc q).parent = some p → (proc q).life = .zombie →
    ∃ w, (pos w).rewakes p

theorem Wake.same (h : Wake proc pos) (hr : (proc p).Same r)
    (hs : pos p = .asleep → r.state = .sleeping →
      (proc p).state = .sleeping ∧ r.chan = (proc p).chan) : Wake (update proc p r) pos := by
  obtain ⟨h1, h2, h3, h4⟩ := h
  obtain ⟨hlife, hparent, -, -⟩ := hr
  constructor <;> grind [Committed]

theorem Wake.goto (h : Wake proc pos) (hp : pos p = y) (hx : x.inSleep = false)
    (hscan : ∀ q : Slot, q < x.scanned → (proc q).parent = some p → (proc q).life ≠ .zombie)
    (hwoken : ∀ q : Slot, (proc p).parent = some q → q < x.woken → ¬ Committed proc pos q)
    (hpend : ∀ c, Committed proc pos c → y.rewakes c → x.rewakes c) :
    Wake proc (update pos p x) := by
  subst hp
  obtain ⟨h1, h2, h3, h4⟩ := h
  have hcom : ∀ c, Committed proc (update pos p x) c → Committed proc pos c := by
    grind [Committed, Pos.inSleep]
  constructor
  · grind [Pos.inSleep]
  · grind
  · grind
  · intro c q hc hq hz
    exact rewakes_goto (h4 c q (hcom c hc) hq hz) (hpend c (hcom c hc))

theorem Wake.move (h : Wake proc pos) (hp : pos p = y)
    (hx : x.inSleep = false ∧ x.scanned = 0 ∧ x.woken = 0)
    (hpend : ∀ c, Committed proc pos c → y.rewakes c → x.rewakes c) :
    Wake proc (update pos p x) := by
  refine h.goto hp hx.1 ?_ ?_ hpend <;> omega

theorem Wake.scan {i : Nat} {havekids havekids' : Bool} (h : Wake proc pos)
    (hp : pos p = .scanning i havekids)
    (hi : ∀ q : Slot, q = i → (proc q).parent = some p → (proc q).life ≠ .zombie) :
    Wake proc (update pos p (.scanning (i + 1) havekids')) := by
  have hscanned := h.scanned p
  refine h.goto hp rfl ?_ (fun _ _ => nofun) fun _ _ => id
  grind [Pos.scanned]

theorem Wake.exitWoken {j : Nat} (h : Wake proc pos) (hp : pos p = .exitWake j)
    (hj : ∀ q : Slot, q = j → (proc p).parent = some q → ¬ Committed proc pos q) :
    Wake proc (update pos p (.exitWake (j + 1))) := by
  have hwoken := h.woken p
  refine h.goto hp rfl (fun _ => nofun) ?_ fun _ _ => id
  grind [Pos.woken]

theorem Wake.wakeup (h : Wake proc pos) (hfree : (pos q).locked = false) (ticks : Nat) :
    ¬ Committed (update proc q ((proc q).wakeup ticks (procChan q))) pos q := by
  rintro (hq | ⟨hq, hs⟩)
  · rw [hq] at hfree
    cases hfree
  · grind [h.chan, Proc.wakeup_sleeping]

theorem wakeup_calm (r : Proc) (ticks chan : Nat) (h : (r.wakeup ticks chan).state = .sleeping) :
    r.state = .sleeping ∧ (r.wakeup ticks chan).chan = r.chan := by
  have hsame := (Proc.wakeup_sleeping h).1
  rw [hsame] at h ⊢
  exact ⟨h, rfl⟩

/-! ## Steps of `fork`, `exit` and `wait` -/

theorem Wake.setRecord (h : Wake proc pos) (hf : Family proc pos) (hnp : (proc np).life ≠ .alive)
    (hz : r.life ≠ .zombie) (hs : r.state ≠ .sleeping) : Wake (update proc np r) pos := by
  obtain ⟨h1, h2, h3, h4⟩ := h
  have hidle : (pos np).holds = false := by grind [hf.holder np]
  have hzero := (Pos.eq_zero_of_holds hidle).2
  constructor <;> grind [Committed]

theorem Wake.exit (h : Wake proc pos) (hl : Held lk pos) (hpos : pos p = .exitWake nproc)
    (hparent : r.parent = (proc p).parent) (hs : r.state ≠ .sleeping) :
    Wake (update proc p r) pos := by
  obtain ⟨h1, h2, h3, h4⟩ := h
  have hparents : ∀ q, (proc p).parent = some q → ¬ Committed proc pos q := by
    intro q hq
    apply h3 p q hq
    rw [hpos]
    exact q.isLt
  have hscan : ∀ q, q ≠ p → (pos q).scanned = 0 :=
    fun q hq => (Pos.eq_zero_of_holds (hl.others (by rw [hpos]; rfl) hq)).1
  have hscanp : (pos p).scanned = 0 := by rw [hpos]; rfl
  have hcom : ∀ q, Committed (update proc p r) pos q → Committed proc pos q := by grind [Committed]
  constructor <;> grind

theorem Wake.adopt (h : Wake proc pos) (hl : Held lk pos) (hpos : pos p = .reparenting q)
    (hr : r.life = (proc q).life) (hparent : r.parent = some initproc)
    (hs : r.state = (proc q).state) (hc : r.chan = (proc q).chan) :
    Wake (update proc q r) (update pos p (.reparentWake q 0)) := by
  obtain ⟨h1, h2, h3, h4⟩ := h
  have hscan : ∀ c, c ≠ p → (pos c).scanned = 0 ∧ (pos c).woken = 0 :=
    fun c hc => Pos.eq_zero_of_holds (hl.others (by rw [hpos]; rfl) hc)
  have hcom : ∀ c, Committed (update proc q r) (update pos p (.reparentWake q 0)) c
      → Committed proc pos c := by
    grind [Committed]
  constructor
  · grind
  · grind [Pos.scanned]
  · grind [Pos.woken]
  · intro c d hcd hd hz
    by_cases hdq : d = q
    · subst hdq
      rw [update_self, hparent] at hd
      refine ⟨p, ?_⟩
      rw [update_self]
      exact ⟨(Option.some.inj hd).symm, Nat.zero_le _⟩
    · rw [update_of_ne hdq] at hd hz
      refine rewakes_goto (h4 c d (hcom c hcd) hd hz) ?_
      rw [hpos]
      exact False.elim

theorem Wake.sleepRelease (h : Wake proc pos) (hl : Held lk pos) (hpos : pos p = .sleepLocked) :
    Wake proc (update pos p .sleepReleased) := by
  obtain ⟨h1, h2, h3, h4⟩ := h
  have hchildren : ∀ q, (proc q).parent = some p → (proc q).life ≠ .zombie := by
    intro q
    apply h2 p q
    rw [hpos]
    exact q.isLt
  have hwoken : ∀ q, q ≠ p → (pos q).woken = 0 :=
    fun q hq => (Pos.eq_zero_of_holds (hl.others (by rw [hpos]; rfl) hq)).2
  constructor
  · grind
  · grind [Pos.scanned]
  · grind [Pos.woken]
  · intro c q hc hq hz
    have hc' : Committed proc pos c := by grind [Committed]
    refine rewakes_goto (h4 c q hc' hq hz) ?_
    rw [hpos]
    exact False.elim

theorem Wake.sleepSwitch (h : Wake proc pos) (hpos : pos p = .sleepReleased) (hr : (proc p).Same r)
    (hc : r.chan = procChan p) : Wake (update proc p r) (update pos p .asleep) := by
  obtain ⟨h1, h2, h3, h4⟩ := h
  obtain ⟨hlife, hparent, -, -⟩ := hr
  have hcom : ∀ c, Committed (update proc p r) (update pos p .asleep) c → Committed proc pos c := by
    grind [Committed]
  constructor
  · grind
  · grind [Pos.scanned]
  · grind [Pos.woken]
  · intro c q hcc hq hz
    have hq' : (proc q).parent = some c ∧ (proc q).life = .zombie := by grind
    refine rewakes_goto (h4 c q (hcom c hcc) hq'.1 hq'.2) ?_
    rw [hpos]
    exact False.elim

theorem Step.wake (hl : Held s.waitLock s.pos) (hf : Family s.proc s.pos) (h : Wake s.proc s.pos)
    (hs : Step s s') : Wake s'.proc s'.pos := by
  cases hs with
  | dispatch _ _ hpos hrun hr =>
    refine h.same (hr.same hrun) fun hp => ?_
    rw [hp] at hpos
    cases hpos
  | yield _ ticks hpos hrun =>
    refine h.same (Proc.same_yield ticks hrun) fun hp => ?_
    rw [hp] at hpos
    cases hpos
  | kill p =>
    refine h.same (Proc.same_kill _) fun _ hs => ?_
    rcases (s.proc p).kill_state with hk | ⟨-, hk⟩
    · exact ⟨hk.symm.trans hs, rfl⟩
    · exact absurd (hk.symm.trans hs) (by decide)
  | wakeup _ ticks chan => exact h.same (same_wakeup _ ticks chan) fun _ hs => wakeup_calm _ _ _ hs
  | sleep _ ticks chan hp =>
    refine h.same (same_sleep ticks chan hp.1) fun hpos => ?_
    rw [hp.2] at hpos
    cases hpos
  | other _ _ hstate hchan hparent hpid hxstate =>
    refine h.same ⟨by simp [hstate], hparent, hpid, hxstate⟩ fun _ hs => ?_
    exact ⟨hstate.symm.trans hs, hchan⟩
  | forkAlloc p np ticks pid trapframe pagetable sz hp hnp =>
    have hlife := life_of_unused hnp
    have hnot : ∀ c, ¬ (s.pos np).rewakes c := by grind [hf.holder, Pos.holds_of_rewakes]
    have hne : p ≠ np := by
      intro e
      rw [e] at hp
      exact absurd (hp.1.symm.trans hnp) (by decide)
    have hw : Wake (update s.proc np
        (allocated ticks pid trapframe pagetable sz (s.proc np))) s.pos := h.setRecord hf
      (by rw [hlife]; decide) (by simp [allocated, Proc.allocate, Proc.enterQueue])
      (by simp [allocated, Proc.allocate, Proc.enterQueue])
    have hw' : Wake _ (update s.pos np .user) :=
      hw.move rfl ⟨rfl, rfl, rfl⟩ fun c _ hre => absurd hre (hnot c)
    exact hw'.move ((update_of_ne hne _ _).trans hp.2) ⟨rfl, rfl, rfl⟩ fun _ _ => False.elim
  | forkFail _ _ _ _ _ hnp =>
    refine h.setRecord hf ?_ (by simp) (by simp)
    rw [life_of_unused hnp]
    decide
  | forkParent p np hp =>
    have hused := hf.target p np (by rw [hp.2]; rfl)
    have hstate : (s.proc np).state = .used := Proc.state_of_used hused
    refine (h.setRecord hf ?_ ?_ ?_).move hp.2 ⟨rfl, rfl, rfl⟩ fun _ _ => False.elim
    · rw [hused]
      decide
    · simp [hstate]
    · simp [hstate]
  | forkReady p np hp =>
    have hused := hf.target p np (by rw [hp.2]; rfl)
    refine (h.setRecord hf ?_ ?_ ?_).move hp.2 ⟨rfl, rfl, rfl⟩ fun _ _ => False.elim
    · rw [hused]
      decide
    · simp
    · simp
  | exitLock _ hp | reparentSkip _ _ hp | reparentReturn _ hp =>
    exact h.move hp.2 ⟨rfl, rfl, rfl⟩ fun _ _ => False.elim
  | reparentChild _ _ hp => exact h.adopt hl hp.2 rfl rfl rfl rfl
  | reparentWakeup _ j i ticks hp _ hlock =>
    have hw := h.same (same_wakeup (s.proc j) ticks (procChan initproc))
      fun _ hs => wakeup_calm _ _ _ hs
    refine hw.move hp.2 ⟨rfl, rfl, rfl⟩ ?_
    rintro c hc ⟨rfl, hle⟩
    refine ⟨rfl, Nat.succ_le_of_lt (Nat.lt_of_le_of_ne hle ?_)⟩
    intro e
    obtain rfl : j = initproc := Fin.ext e
    exact h.wakeup hlock ticks hc
  | reparentWakeupSelf p _ hp =>
    refine h.move hp.2 ⟨rfl, rfl, rfl⟩ ?_
    rintro c _ ⟨rfl, hle⟩
    refine ⟨rfl, Nat.succ_le_of_lt (Nat.lt_of_le_of_ne hle ?_)⟩
    exact fun e => hf.exits p (by rw [hp.2]; rfl) (Fin.ext e)
  | reparentNext _ _ hp =>
    exact h.move hp.2 ⟨rfl, rfl, rfl⟩ fun c _ hre => absurd hre.2 (Nat.not_le.mpr c.isLt)
  | exitWakeup p j ticks hp hj hlock =>
    have hw := h.same (same_wakeup (s.proc j) ticks (parentChan (s.proc p).parent))
      fun _ hs => wakeup_calm _ _ _ hs
    have hpj : update s.proc j ((s.proc j).wakeup ticks (parentChan (s.proc p).parent)) p =
        s.proc p := update_of_ne (Ne.symm hj) _ _
    refine hw.exitWoken hp.2 fun q heq hq => ?_
    obtain rfl : q = j := Fin.ext heq
    have hparent : (s.proc p).parent = some q := by
      rw [← hpj]
      exact hq
    have hnot := h.wakeup hlock ticks
    rw [← show parentChan (s.proc p).parent = procChan q by rw [hparent]; rfl] at hnot
    exact hnot
  | exitWakeupSelf p hp =>
    refine h.exitWoken hp.2 fun q heq _ => ?_
    obtain rfl : q = p := Fin.ext heq
    have hpos := hp.2
    grind [Committed]
  | exitZombie _ _ _ hp =>
    exact Wake.move (h.exit hl hp.2 rfl (by simp [Proc.exit])) hp.2 ⟨rfl, rfl, rfl⟩
      fun _ _ => False.elim
  | exitSwitch _ hp => exact h.move hp ⟨rfl, rfl, rfl⟩ fun _ _ => False.elim
  | waitLock _ hp =>
    rcases hp with hp | hp <;> exact h.move hp.2 ⟨rfl, rfl, rfl⟩ fun _ _ => False.elim
  | scanSkip p i _ hp hi =>
    refine h.scan hp.2 fun q heq hq => ?_
    grind
  | scanChild p i _ hp _ _ hz =>
    refine h.scan hp.2 fun q heq hq => ?_
    grind [Fin.ext, Proc.state_of_zombie]
  | scanReap _ _ _ _ hp _ _ hz =>
    refine (h.setRecord hf ?_ (by simp) (by simp)).move hp.2 ⟨rfl, rfl, rfl⟩ fun _ _ => False.elim
    rw [life_of_zombie hz]
    decide
  | scanFail _ _ _ hp | waitFail _ _ hp => exact h.move hp.2 ⟨rfl, rfl, rfl⟩ fun _ _ => False.elim
  | waitSleep p hp | sleepLock p hp =>
    refine h.goto hp.2 rfl ?_ (fun _ _ h => absurd h (Nat.not_lt_zero _)) fun _ _ => id
    exact fun q hlt => h.scanned p q (by rw [hp.2]; exact hlt)
  | sleepRelease _ hp => exact h.sleepRelease hl hp.2
  | sleepSwitch p ticks hp => exact h.sleepSwitch hp.2 (same_sleep ticks (procChan p) hp.1) rfl
  | resume _ r hpos hrun hr =>
    have hsame := hr.same hrun
    have hstate : r.state = .running := by rcases hr with ⟨b, ticks, rfl⟩ | rfl <;> rfl
    refine Wake.move (h.same { hsame with } ?_) hpos ⟨rfl, rfl, rfl⟩ fun _ _ => False.elim
    exact fun _ hs => absurd (hstate.symm.trans hs) (by decide)

/-! ## The record of exits -/

section History

variable {id : Slot → Nat} {nextId : Nat} {exited : List Exit} {reaped : List Reap}

/-- Processes have different identities, exit once and are freed once. -/
structure History (proc : Slot → Proc) (id : Slot → Nat) (nextId : Nat) (exited : List Exit)
    (reaped : List Reap) : Prop where
  fresh : ∀ q, (proc q).life ≠ .unused → id q < nextId
  distinct : ∀ q q', (proc q).life ≠ .unused → (proc q').life ≠ .unused → id q = id q' → q = q'
  exitedFresh : ∀ e ∈ exited, e.id < nextId
  reapedFresh : ∀ e ∈ reaped, e.id < nextId
  notExited : ∀ q, (proc q).life = .used ∨ (proc q).life = .alive → ∀ e ∈ exited, e.id ≠ id q
  notReaped : ∀ q, (proc q).life ≠ .unused → ∀ e ∈ reaped, e.id ≠ id q
  zombie : ∀ q, (proc q).life = .zombie → ⟨id q, (proc q).pid, (proc q).xstate⟩ ∈ exited
  exitedOnce : (exited.map (·.id)).Nodup
  reapedOnce : (reaped.map (·.id)).Nodup
  own : ∀ e ∈ reaped, ∃ x ∈ exited, x.id = e.id ∧ x.pid = e.pid ∧
    (e.status = none ∨ e.status = some x.status)

attribute [local grind cases] History

section

variable (h : History proc id nextId exited reaped)

include h

theorem History.same (hlife : r.life = (proc p).life)
    (hpid : r.pid = (proc p).pid) (hx : r.xstate = (proc p).xstate) :
    History (update proc p r) id nextId exited reaped := by
  constructor <;> grind

theorem History.alloc (hr : r.life = .used) :
    History (update proc np r) (update id np nextId) (nextId + 1) exited reaped := by
  constructor <;> grind

theorem History.unalloc (hr : r.life = .unused) :
    History (update proc np r) id nextId exited reaped := by
  constructor <;> grind

theorem History.ready (hnp : (proc np).life = .used)
    (hr : r.life = .alive) : History (update proc np r) id nextId exited reaped := by
  constructor <;> grind

theorem History.exit (hp : (proc p).life = .alive)
    (hr : r.life = .zombie) (hpid : r.pid = (proc p).pid) :
    History (update proc p r) id nextId (⟨id p, (proc p).pid, r.xstate⟩ :: exited) reaped := by
  have hnew : id p ∉ exited.map (·.id) := by grind
  constructor <;> grind

end

theorem History.reap {status : Option Int} (h : History proc id nextId exited reaped)
    (hq : (proc q).life = .zombie) (hr : r.life = .unused)
    (hs : status = none ∨ status = some (proc q).xstate) :
    History (update proc q r) id nextId exited (⟨id q, (proc q).pid, status⟩ :: reaped) := by
  have hnew : id q ∉ reaped.map (·.id) := by grind
  constructor <;> grind

theorem Step.history (hf : Family s.proc s.pos) (h : History s.proc s.id s.nextId s.exited s.reaped)
    (hs : Step s s') : History s'.proc s'.id s'.nextId s'.exited s'.reaped := by
  have hsame : ∀ {p r}, (s.proc p).Same r →
      History (update s.proc p r) s.id s.nextId s.exited s.reaped :=
    fun hr => h.same hr.life hr.pid hr.xstate
  cases hs with
  | dispatch _ _ _ hrun hr => exact hsame (hr.same hrun)
  | yield _ ticks _ hrun => exact hsame (Proc.same_yield ticks hrun)
  | kill => exact hsame (Proc.same_kill _)
  | wakeup _ ticks chan => exact hsame (same_wakeup _ ticks chan)
  | sleep _ ticks chan hp => exact hsame (same_sleep ticks chan hp.1)
  | other _ _ hstate _ _ hpid hxstate => exact h.same (by simp [hstate]) hpid hxstate
  | forkAlloc => exact h.alloc rfl
  | forkFail => exact h.unalloc rfl
  | forkParent | reparentChild => exact h.same rfl rfl rfl
  | forkReady p np hp => exact h.ready (hf.target p np (by rw [hp.2]; rfl)) rfl
  | reparentWakeup _ _ _ ticks | exitWakeup _ _ ticks => exact hsame (same_wakeup _ ticks _)
  | exitZombie p ticks status hp =>
    exact h.exit (r := (s.proc p).exit ticks status) (Proc.life_of_running hp.1) rfl rfl
  | scanReap _ _ _ addr _ _ _ hz =>
    refine h.reap (life_of_zombie hz) rfl ?_
    cases addr with
    | false => exact .inl rfl
    | true => exact .inr rfl
  | sleepSwitch _ ticks hp => exact hsame (same_sleep ticks _ hp.1)
  | resume _ _ _ hrun hr =>
    have hr' := hr.same hrun
    exact h.same hr'.life hr'.pid hr'.xstate
  | _ => exact h

end History

/-! ## The protocol -/

structure Inv (s : State) : Prop where
  held : Held s.waitLock s.pos
  family : Family s.proc s.pos
  wake : Wake s.proc s.pos
  history : History s.proc s.id s.nextId s.exited s.reaped

theorem inv_boot {init : Proc} {unused : Slot → Proc} (hinit : init.state = .runnable)
    (hparent : init.parent = none)
    (hunused : ∀ q, (unused q).state = .unused ∧ (unused q).parent = none) :
    Inv (boot init unused) := by
  have hself : (boot init unused).proc initproc = init := by simp [boot]
  have halive : init.life = .alive := by simp [hinit]
  have hother : ∀ q, q ≠ initproc → (boot init unused).proc q = unused q :=
    fun q hq => by simp [boot, hq]
  have hlife : ∀ q, q ≠ initproc → ((boot init unused).proc q).life = .unused := by
    intro q hq
    rw [hother q hq]
    exact life_of_unused (hunused q).1
  have hpos : ∀ q, (boot init unused).pos q = .user := fun _ => rfl
  constructor
  · exact fun p => ⟨nofun, nofun⟩
  · constructor <;> grind [Pos.holds, Pos.target, Pos.exits, Pos.reparented]
  · constructor <;> grind [Pos.scanned, Pos.woken, Committed]
  · have hnil : (boot init unused).exited = [] ∧ (boot init unused).reaped = [] := ⟨rfl, rfl⟩
    have hnext : (boot init unused).nextId = 1 ∧ (boot init unused).id initproc = 0 := ⟨rfl, rfl⟩
    constructor <;> grind

theorem Reachable.inv (h : Reachable s) : Inv s := by
  induction h with
  | @boot init unused hinit hparent hunused => exact inv_boot hinit hparent hunused
  | step _ hs ih =>
    exact ⟨hs.held ih.family ih.held, hs.family ih.family, hs.wake ih.held ih.family ih.wake,
      hs.history ih.family ih.history⟩

/-- When `wait_lock` is free, every process other than `initproc` has a parent that exists, nobody
sleeps in `wait` with a zombie child, and every call of `wait` that has freed a child has freed
another one and has reported its own status. -/
theorem exit_wait_protocol (h : Reachable s) (hlk : s.waitLock = none) :
    (∀ q, q ≠ initproc → (s.proc q).state ≠ .unused → (s.proc q).state ≠ .used →
      ∃ r, (s.proc q).parent = some r ∧ (s.proc r).state ≠ .unused ∧ (s.proc r).state ≠ .zombie) ∧
    (∀ p q, s.pos p = .asleep → (s.proc p).state = .sleeping → (s.proc q).parent = some p →
      (s.proc q).state ≠ .zombie) ∧
    (s.reaped.map (·.id)).Nodup ∧ (s.exited.map (·.id)).Nodup ∧
    ∀ e ∈ s.reaped, ∃ x ∈ s.exited, x.id = e.id ∧ x.pid = e.pid ∧
      (e.status = none ∨ e.status = some x.status) := by
  have hinv := h.inv
  refine ⟨?_, ?_, hinv.history.reapedOnce, hinv.history.exitedOnce, hinv.history.own⟩
  · intro q hq hu hu'
    have hlife : (s.proc q).life = .alive ∨ (s.proc q).life = .zombie := by grind [Proc.life]
    obtain ⟨r, hr⟩ := Option.ne_none_iff_exists'.mp (hinv.family.child q hq hlife)
    have halive := hinv.family.parent q r hr
    refine ⟨r, hr, ?_, ?_⟩
    · grind [life_of_unused]
    · grind [life_of_zombie]
  · intro p q hpos hs hq hz
    obtain ⟨w, hw⟩ := hinv.wake.pending p q (.inr ⟨hpos, hs⟩) hq (life_of_zombie hz)
    have hheld := (hinv.held w).mpr (Pos.holds_of_rewakes hw)
    rw [hlk] at hheld
    cases hheld

def slot1 : Slot := ⟨1, one_lt_nproc⟩

theorem Reachable.loop {f : Nat → Pos} {i : Nat} (h : Reachable s) (hpos : s.pos p = f i)
    (hi : i ≤ nproc)
    (hstep : ∀ j : Slot, i ≤ j → Step (s.goto p (f j)) ((s.goto p (f j)).goto p (f (j + 1)))) :
    Reachable (s.goto p (f nproc)) := by
  have hgoto : ∀ x y, (s.goto p x).goto p y = s.goto p y := by simp [State.goto]
  have hall : ∀ k, i + k ≤ nproc → Reachable (s.goto p (f (i + k))) := by
    intro k
    induction k with
    | zero =>
      intro _
      rwa [State.goto, Nat.add_zero, ← hpos, update_eq_self]
    | succ k ih =>
      intro hk
      have hs := (ih (by omega)).step (hstep ⟨i + k, by omega⟩ (Nat.le_add_right i k))
      rwa [hgoto] at hs
  have hend := hall (nproc - i) (by omega)
  rwa [Nat.add_sub_cancel' hi] at hend

section

variable (hrun : (s.proc p).state = .running)

include hrun

theorem State.runsAt_goto : (s.goto p x).runsAt p x := ⟨hrun, update_self ..⟩

theorem Reachable.scanRest {i : Nat} {b : Bool} (h : Reachable s) (hpos : s.pos p = .scanning i b)
    (hi : i ≤ nproc) (hno : ∀ j : Slot, i ≤ j → (s.proc j).parent ≠ some p) :
    Reachable (s.goto p (.scanning nproc b)) :=
  h.loop (f := fun i => .scanning i b) hpos hi fun j hj =>
    .scanSkip p j b (State.runsAt_goto hrun) (hno j hj)

theorem Reachable.reparentRest (h : Reachable s) (hpos : s.pos p = .reparenting 0)
    (hno : ∀ j, (s.proc j).parent ≠ some p) : Reachable (s.goto p (.reparenting nproc)) :=
  h.loop (f := .reparenting) hpos (Nat.zero_le _) fun j _ =>
    .reparentSkip p j (State.runsAt_goto hrun) (hno j)

theorem Reachable.wakeRest {i : Nat} (h : Reachable s) (hpos : s.pos p = .exitWake i) (hi : i ≤ nproc)
    (hno : ∀ j : Slot, i ≤ j → j ≠ p ∧ (s.pos j).locked = false ∧ (s.proc j).state ≠ .sleeping) :
    Reachable (s.goto p (.exitWake nproc)) := by
  refine h.loop (f := .exitWake) hpos hi fun j hj => ?_
  obtain ⟨hne, hfree, hs⟩ := hno j hj
  have hstep := Step.exitWakeup p j 0 (State.runsAt_goto hrun) hne
    (show (update s.pos p (.exitWake j) j).locked = false by rwa [update_of_ne hne])
  rw [((((s.goto p (.exitWake j)).proc j).wakeup_eq 0 _).resolve_right fun h => hs h.1)] at hstep
  simpa [State.setProc] using hstep

end

/-- `initproc` forks and waits. The child exits with status 5, and is reaped. -/
theorem exit_wait_protocol_reaped :
    (∃ s, Reachable s ∧ s.waitLock = none ∧ s.pos initproc = .asleep ∧
      (s.proc initproc).state = .sleeping ∧ (s.proc slot1).parent = some initproc ∧
      (s.proc slot1).state ≠ .zombie) ∧
    ∃ s, Reachable s ∧ s.waitLock = none ∧ s.reaped = [⟨1, 2, some 5⟩] ∧
      ∃ x ∈ s.exited, x.id = 1 ∧ x.pid = 2 ∧ x.status = 5 := by
  have h : Reachable (boot { state := .runnable } fun _ => {}) := .boot rfl rfl fun _ => ⟨rfl, rfl⟩
  have h := h.step (.dispatch initproc _ rfl rfl (.inl ⟨.RR, 0, rfl⟩))
  have h := h.step (.forkAlloc initproc slot1 0 2 0 0 0 ⟨rfl, rfl⟩ rfl)
  have h := h.step (.forkParent initproc slot1 ⟨rfl, rfl⟩ rfl)
  have h := h.step (.forkReady initproc slot1 ⟨rfl, rfl⟩ rfl)
  -- the parent finds a child that runs, and sleeps
  have h := h.step (.waitLock initproc (.inl ⟨rfl, rfl⟩) rfl)
  have h := h.step (.scanSkip initproc initproc _ ⟨rfl, rfl⟩ (by decide))
  have h := h.step (.scanChild initproc slot1 _ ⟨rfl, rfl⟩ rfl rfl (by decide))
  have h := h.scanRest (p := initproc) (i := 2) rfl rfl (by decide) (by decide +kernel)
  have h := h.step (.waitSleep initproc ⟨rfl, rfl⟩ rfl)
  have h := h.step (.sleepLock initproc ⟨rfl, rfl⟩)
  have h := h.step (.sleepRelease initproc ⟨rfl, rfl⟩)
  have h := h.step (.sleepSwitch initproc 0 ⟨rfl, rfl⟩)
  refine ⟨⟨_, h, rfl, rfl, rfl, rfl, (exit_wait_protocol h rfl).2.1 _ _ rfl rfl rfl⟩, ?_⟩
  suffices hend : ∃ s, Reachable s ∧ s.waitLock = none ∧ s.reaped = [⟨1, 2, some 5⟩] by
    obtain ⟨s, h, hlk, hr⟩ := hend
    refine ⟨s, h, hlk, hr, ?_⟩
    have hmem : (⟨1, 2, some 5⟩ : Reap) ∈ s.reaped := hr ▸ List.mem_singleton_self _
    obtain ⟨x, hx, hid, hpid, hst | hst⟩ := (exit_wait_protocol h hlk).2.2.2.2 _ hmem
    · cases hst
    · exact ⟨x, hx, hid, hpid, (Option.some.inj hst).symm⟩
  -- the child exits and wakes its parent
  have h := h.step (.dispatch slot1 _ rfl rfl (.inl ⟨.RR, 0, rfl⟩))
  have h := h.step (.exitLock slot1 ⟨rfl, rfl⟩ (by decide) rfl)
  have h := h.reparentRest (p := slot1) rfl rfl (by decide +kernel)
  have h := h.step (.reparentReturn slot1 ⟨rfl, rfl⟩)
  have h := h.step (.exitWakeup slot1 initproc 0 ⟨rfl, rfl⟩ (by decide) rfl)
  have h := h.step (.exitWakeupSelf slot1 ⟨rfl, rfl⟩)
  have h := h.wakeRest (p := slot1) (i := 2) rfl rfl (by decide) (by decide +kernel)
  have h := h.step (.exitZombie slot1 0 5 ⟨rfl, rfl⟩)
  have h := h.step (.exitSwitch slot1 rfl)
  -- the parent goes on
  have h := h.step (.resume initproc _ rfl rfl (.inl ⟨.RR, 0, rfl⟩))
  have h := h.step (.waitLock initproc (.inr ⟨rfl, rfl⟩) rfl)
  have h := h.step (.scanSkip initproc initproc _ ⟨rfl, rfl⟩ (by decide))
  have h := h.step (.scanReap initproc slot1 _ true ⟨rfl, rfl⟩ rfl rfl rfl)
  exact ⟨_, h, by decide +kernel, by decide +kernel⟩

end Xv6.ExitWait
