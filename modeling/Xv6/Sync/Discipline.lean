import Xv6.Sync.Monitor

/-!
# Debts under one lock

Rules for code under a lock. What every step of the code keeps holds in every state. And if the code
pays its debts, that is calls `wakeup` on every channel whose condition it makes true before it gives
up the lock, then for each channel it is an instance of `sleep` and `wakeup` with a condition, so who
sleeps on the channel has a reason to.
-/

namespace Xv6.Monitor

open Sync (Agent)
open Function (update update_eq_self update_of_ne)

variable {n : Nat} {κ δ χ : Type} {M : Obj κ δ χ}
variable {I : δ → Prop} {C : State n κ δ χ → Label n κ → Prop}
variable {s s' : State n κ δ χ} {l : Label n κ} {a : Agent n} {x : Pos κ χ} {p : Fin n} {ch : χ}

/-! ## What the code keeps -/

/-- The data has `D`, and the points at which agents are have `J` with it. -/
structure Keeps (D : δ → Prop) (J : δ → κ → Prop) (s : State n κ δ χ) : Prop where
  data : D s.data
  code : ∀ a c, (s.pos a).code? = some c → J s.data c

/-- The code keeps `D` and `J`, the latter for all who are in it. -/
def Obj.Preserves (M : Obj κ δ χ) (D : δ → Prop) (J : δ → κ → Prop) : Prop :=
  ∀ killed d c, M.isLeave c = false → D d → J d c →
    D (M.exec killed d c).1 ∧ J (M.exec killed d c).1 (M.exec killed d c).2.code ∧
      ∀ c', J d c' → J (M.exec killed d c).1 c'

variable {D : δ → Prop} {J : δ → κ → Prop}
variable {c : κ}

theorem Keeps.goto (h : Keeps D J s) (hd : D s'.data) (hpos : s'.pos = update s.pos a x)
    (hx : ∀ c, x.code? = some c → J s'.data c) (hJ : ∀ c, J s.data c → J s'.data c) :
    Keeps D J s' := by
  refine ⟨hd, ?_⟩
  intro b c hc
  by_cases hb : b = a
  · simp_all
  · rw [hpos, update_of_ne hb] at hc
    exact hJ c (h.code b c hc)

theorem Keeps.exec (h : Keeps D J s) (hpos : s.pos a = .code c) (hc : M.isLeave c = false)
    (hexec : M.Preserves D J) (hx : x.code? = some (s.exec M a c).2.code) :
    Keeps D J ((s.act M (s.exec M a c).1).goto a x) := by
  obtain ⟨hd, hj, hJ⟩ := hexec (s.killed a) s.data c hc h.data (h.code a c (by rw [hpos]; rfl))
  refine h.goto hd rfl ?_ hJ
  intro c' hc'
  rw [hx] at hc'
  cases hc'
  exact hj

/-! ## Debts -/

/-- What must hold after a step of the code. At a `wakeup` only that channel may be owed, and at a
`sleep` none, with the condition of its channel false. -/
def After (M : Obj κ δ χ) (hold : δ → (χ → Bool) → Bool → κ → Prop) (d : δ) (o : χ → Bool)
    (killed : Bool) : Next κ χ → Prop
  | .go c => hold d o killed c
  | .wakeup ch c => (∀ ch', ch' ≠ ch → o ch' = false) ∧ ∀ killed, hold d (fun _ => false) killed c
  | .sleep c => (∀ ch, o ch = false) ∧ M.cond (M.chan c) d = false ∧
    ∀ d killed, hold d (fun _ => false) killed c

/-- Code that pays its debts, if `kill` hits a process that has the lock only at points with `calm`:
`hold` says what may be owed at each point. -/
structure Discipline (M : Obj κ δ χ) (calm : κ → Prop) where
  hold : δ → (χ → Bool) → Bool → κ → Prop
  addr_inj : ∀ ch ch', M.addr ch = M.addr ch' → ch = ch'
  call : ∀ b c d, M.isCall b c d = true → ∀ killed, hold d (fun _ => false) killed c
  exec : ∀ d o killed c, M.isLeave c = false → hold d o killed c →
    After M hold (M.exec killed d c).1
      (fun ch => M.cond ch (M.exec killed d c).1 && (o ch || !M.cond ch d)) killed
      (M.exec killed d c).2
  leave : ∀ d o killed c, M.isLeave c = true → hold d o killed c → ∀ ch, o ch = false
  kill : ∀ d o killed c, calm c → hold d o killed c → hold d o true c

variable {K : κ → Prop} {R : Discipline M K} {d d' : δ} {o o' : χ → Bool} {k k' : Bool}
variable {r : Proc} {t : State n κ δ χ}

def Discipline.Fits (R : Discipline M K) (d : δ) (o : χ → Bool) (killed : Bool) :
    Pos κ χ → Prop
  | .idle => True
  | .code c => R.hold d o killed c
  | .waking ch _ c => (∀ ch', ch' ≠ ch → o ch' = false) ∧
    ∀ killed, R.hold d (fun _ => false) killed c
  | .sleepCalled c => (∀ ch, o ch = false) ∧ M.cond (M.chan c) d = false ∧
    ∀ d killed, R.hold d (fun _ => false) killed c
  | .sleepLocked c => (∀ ch, o ch = false) ∧ ∀ d killed, R.hold d (fun _ => false) killed c
  | .sleepReleased c | .asleep c | .reacquire c => ∀ d killed, R.hold d (fun _ => false) killed c

structure Discipline.Tidy (R : Discipline M K) (s : State n κ δ χ) : Prop where
  free : s.lk = none → ∀ ch, s.owes ch = false
  fits : ∀ a, R.Fits s.data s.owes (s.killed a) (s.pos a)

theorem Discipline.Fits.of_not_holds (h : R.Fits d o k x) (hx : x.holds = false) :
    R.Fits d' o' k' x := by
  cases x with
  | idle => trivial
  | code | waking | sleepCalled | sleepLocked => cases hx
  | sleepReleased | asleep | reacquire => exact h

theorem Discipline.Fits.of_not_code (h : R.Fits d o k x) (hx : ∀ c, x ≠ .code c) :
    R.Fits d o k' x := by
  cases x with
  | code c => exact absurd rfl (hx c)
  | _ => exact h

theorem Discipline.Tidy.fits_at (h : R.Tidy s) (hpos : s.pos a = x) :
    R.Fits s.data s.owes (s.killed a) x := by
  rw [← hpos]
  exact h.fits a

theorem Discipline.Tidy.goto (h : R.Tidy s) (hp : t.pos = update s.pos a x)
    (hproc : t.proc = s.proc) (hdata : t.data = s.data) (howes : t.owes = s.owes)
    (hx : R.Fits s.data s.owes (s.killed a) x) (hfree : t.lk = none → ∀ ch, t.owes ch = false) :
    R.Tidy t := by
  refine ⟨hfree, ?_⟩
  intro b
  have hk : t.killed b = s.killed b := by
    cases b with
    | proc => simp [State.killed, hproc]
    | cpu => rfl
  rw [hp, hk, hdata, howes]
  by_cases hb : b = a
  · grind
  · rw [update_of_ne hb]
    exact h.fits b

theorem Discipline.Tidy.setProc (h : R.Tidy s)
    (hr : ∀ c, s.pos (.proc p) = .code c → R.hold s.data s.owes r.killed c) :
    R.Tidy (s.setProc p r) := by
  refine ⟨h.free, ?_⟩
  intro b
  by_cases hb : b = .proc p
  · subst hb
    have hk : (s.setProc p r).killed (.proc p) = r.killed := by simp [State.killed, State.setProc]
    rw [hk]
    cases hpos : s.pos (.proc p) with
    | code c =>
      show R.Fits _ _ _ (s.pos (.proc p))
      rw [hpos]
      exact hr c hpos
    | _ =>
      apply (h.fits (.proc p)).of_not_code
      simp [hpos]
  · have hk : (s.setProc p r).killed b = s.killed b := by
      cases b with
      | proc q =>
        have hq : q ≠ p := fun he => hb (congrArg Agent.proc he)
        simp [State.killed, State.setProc, hq]
      | cpu => rfl
    rw [hk]
    exact h.fits b

theorem Discipline.Tidy.setProc_idle (h : R.Tidy s) (hx : (s.pos (.proc p)).holds = false) :
    R.Tidy (s.setProc p r) := by
  apply h.setProc
  intro c hpos
  rw [hpos] at hx
  cases hx

theorem wakeup_killed (r : Proc) (ticks c : Nat) : (r.wakeup ticks c).killed = r.killed := by
  unfold Proc.wakeup
  split
  · unfold Proc.renice
    split <;> rfl
  · rfl

theorem Discipline.Tidy.setProc_wakeup (h : R.Tidy s) (p : Fin n) (ticks c : Nat) :
    R.Tidy (s.setProc p ((s.proc p).wakeup ticks c)) := by
  apply h.setProc
  intro c' hpos
  rw [wakeup_killed]
  exact h.fits_at hpos

theorem Discipline.after (R : Discipline M K) (ht : R.Tidy s) (hpos : s.pos a = .code c)
    (hc : M.isLeave c = false) :
    After M R.hold (s.exec M a c).1 (s.act M (s.exec M a c).1).owes (s.killed a) (s.exec M a c).2 :=
  R.exec s.data s.owes (s.killed a) c hc (ht.fits_at hpos)

theorem Discipline.Tidy.paid (ht : R.Tidy s) (hpos : s.pos a = .code c) (hc : M.isLeave c = true)
    (ch : χ) : s.owes ch = false :=
  R.leave _ _ _ c hc (ht.fits_at hpos) ch

/-! ## Runs -/

variable [DecidableEq χ]

theorem Step.keeps (hs : Step M s l s') (h : Keeps D J s)
    (hcall : ∀ b c, l = .call c → M.isCall b c s.data = true → J s.data c)
    (hexec : M.Preserves D J) : Keeps D J s' := by
  have hkeep : ∀ {a : Agent n} {x y : Pos κ χ} {t : State n κ δ χ}, s.pos a = x →
      t.pos = update s.pos a y → y.code? = x.code? → t.data = s.data → Keeps D J t := by
    intro a x y t hp hpos hy hdata
    refine h.goto (hdata ▸ h.data) hpos ?_ (hdata ▸ fun _ hj => hj)
    intro c hc
    rw [hy, ← hp] at hc
    exact hdata ▸ h.code a c hc
  cases hs with
  | call _ c _ _ _ hc =>
    refine h.goto h.data rfl ?_ fun _ hj => hj
    rintro c' ⟨⟩
    exact hcall _ c rfl hc
  | exec _ _ hpos hc => exact h.exec hpos hc hexec (Next.pos_code _)
  | release => exact h.goto h.data rfl (by simp [Pos.code?]) fun _ hj => hj
  | scan _ _ _ _ _ hpos | scanSelf _ _ _ hpos | wakeupReturn _ _ _ hpos | sleepLock _ _ hpos
  | sleepRelease _ _ hpos | sleepSwitch _ _ _ hpos | resume _ _ _ hpos | reacquire _ _ _ _ hpos =>
    exact hkeep hpos rfl rfl rfl
  | dispatch | yield | wakeupOther | kill | outside => exact ⟨h.data, h.code⟩

theorem Reachable.keeps (h : Reachable M I C s) (h0 : ∀ d, I d → D d)
    (hcall : ∀ (s : State n κ δ χ) b c, C s (.call c) → M.isCall b c s.data = true → J s.data c)
    (hexec : M.Preserves D J) : Keeps D J s := by
  induction h with
  | init h hI =>
    refine ⟨h0 _ hI, ?_⟩
    intro a c hc
    rw [h.pos] at hc
    cases hc
  | step _ hs hC ih =>
    refine hs.keeps ih ?_ hexec
    rintro b c rfl hc
    exact hcall _ b c hC hc

/-! ## One channel -/

/-- The position of an agent as far as the channel is concerned. -/
def Pos.proj (M : Obj κ δ χ) (ch : χ) : Pos κ χ → Sync.Pos
  | .idle => .idle
  | .code _ | .sleepCalled _ => .holding
  | .waking ch' j _ => if ch' = ch then .waking j else .holding
  | .sleepLocked c => if M.chan c = ch then .sleepLocked else .holding
  | .sleepReleased c => if M.chan c = ch then .sleepReleased else .idle
  | .asleep c => if M.chan c = ch then .asleep else .idle
  | .reacquire c => if M.chan c = ch then .reacquire else .idle

attribute [local simp] Pos.proj

def State.proj (M : Obj κ δ χ) (ch : χ) (s : State n κ δ χ) : Sync.State n δ where
  proc := s.proc
  pos a := (s.pos a).proj M ch
  lk := s.lk
  data := s.data
  owes := s.owes ch

theorem State.proj_goto (s : State n κ δ χ) :
    (s.goto a x).proj M ch = (s.proj M ch).goto a (x.proj M ch) := by
  unfold State.proj State.goto Sync.State.goto
  congr 1
  funext b
  by_cases hb : b = a
  · subst hb
    simp
  · simp [hb]

theorem State.proj_pos (M : Obj κ δ χ) (ch : χ) (hpos : s.pos a = x) :
    (s.proj M ch).pos a = x.proj M ch :=
  congrArg (Pos.proj M ch) hpos

theorem State.proj_at {y : Sync.Pos} (hpos : s.pos a = x) (hx : x.proj M ch = y) :
    (s.proj M ch).pos a = y :=
  (State.proj_pos M ch hpos).trans hx

theorem Pos.proj_holds (M : Obj κ δ χ) (ch : χ) (x : Pos κ χ) : (x.proj M ch).holds = x.holds := by
  cases x with
  | idle | code | sleepCalled => rfl
  | _ =>
    dsimp only [Pos.proj]
    split <;> rfl

theorem Pos.proj_locked (hx : x.locked = false) :
    ¬(x.proj M ch = .sleepLocked ∨ x.proj M ch = .sleepReleased) := by
  cases x <;> simp_all [Pos.locked] <;> split <;> simp

theorem Pos.proj_preemptible (hx : x.preemptible = true) :
    x.proj M ch = .idle ∨ x.proj M ch = .reacquire := by
  cases x with
  | idle => exact .inl rfl
  | reacquire c =>
    by_cases hc : M.chan c = ch
    · exact .inr (if_pos hc)
    · exact .inl (if_neg hc)
  | _ => cases hx

theorem Dispatched.running {r' : Proc} (h : Dispatched r r') : r'.state = .running := by
  rcases h with ⟨b, ticks, rfl⟩ | rfl <;> rfl

/-- On the channel, the state is one of `sleep` and `wakeup` with the condition of the channel. -/
abbrev OnChan (M : Obj κ δ χ) (ch : χ) (s : State n κ δ χ) : Prop :=
  Sync.Reachable (M.addr ch) (M.cond ch) (s.proj M ch)

theorem OnChan.goto {u : Sync.State n δ} (h : OnChan M ch s)
    (hs : Sync.Step (M.addr ch) (M.cond ch) (s.proj M ch) u) (hu : s'.proj M ch = u) :
    OnChan M ch s' := by
  unfold OnChan
  rw [hu]
  exact Sync.Reachable.step h hs

theorem OnChan.move {y : Sync.Pos} (h : OnChan M ch s) (t : State n κ δ χ)
    (hs : Sync.Step (M.addr ch) (M.cond ch) (s.proj M ch) ((t.proj M ch).goto a y))
    (hx : x.proj M ch = y) : OnChan M ch (t.goto a x) :=
  h.goto hs (by rw [State.proj_goto, hx])

theorem OnChan.stay {y : Pos κ χ} (h : OnChan M ch s) (hpos : s.pos a = y)
    (hx : x.proj M ch = y.proj M ch) : OnChan M ch (s.goto a x) := by
  unfold OnChan
  rw [State.proj_goto, hx, ← State.proj_pos M ch hpos]
  have hself : (s.proj M ch).goto a ((s.proj M ch).pos a) = s.proj M ch := by
    unfold Sync.State.goto
    rw [update_eq_self]
  rw [hself]
  exact h

theorem OnChan.setProc_wakeup (h : OnChan M ch s) (hl : (s.pos (.proc p)).locked = false)
    (ticks c : Nat) : OnChan M ch (s.setProc p ((s.proc p).wakeup ticks c)) :=
  h.step (.wakeupOther p ticks c (Pos.proj_locked hl))

theorem OnChan.holder (h : OnChan M ch s) (a : Agent n) :
    s.lk = some a ↔ (s.pos a).holds = true := by
  rw [← Pos.proj_holds M ch]
  exact h.inv.holder a

theorem OnChan.asleep (h : OnChan M (M.chan c) s) (hlk : s.lk = none)
    (hpos : s.pos (.proc p) = .asleep c) (hs : (s.proc p).state = .sleeping) :
    M.cond (M.chan c) s.data = false := by
  have hp := State.proj_pos M (M.chan c) hpos
  rw [Pos.proj, if_pos rfl] at hp
  by_contra hcond
  obtain ⟨a, ha, -⟩ := h.inv.pending p (.inr ⟨hp, hs⟩) (Bool.eq_true_of_not_eq_false hcond)
  rw [State.proj, hlk] at ha
  cases ha

theorem Fresh.onChan (h : Fresh M s) : OnChan M ch s := by
  refine .init ?_ h.lk (h.owes ch) (fun p => h.proc p ch)
  intro a
  exact State.proj_pos M ch (h.pos a)

theorem Discipline.Tidy.holder (h : R.Tidy s) (hch : OnChan M ch s) (hpos : (s.pos a).holds = true)
    (hp : t.pos = update s.pos a x) (hproc : t.proc = s.proc)
    (hx : R.Fits t.data t.owes (s.killed a) x) (hfree : t.lk = none → ∀ ch, t.owes ch = false) :
    R.Tidy t := by
  refine ⟨hfree, ?_⟩
  intro b
  have hk : ∀ b, t.killed b = s.killed b := by
    intro b
    cases b with
    | proc => simp [State.killed, hproc]
    | cpu => rfl
  rw [hp, hk]
  by_cases hb : b = a
  · grind
  · rw [update_of_ne hb]
    apply (h.fits b).of_not_holds
    by_contra hh
    have h1 := (hch.holder b).mpr (by simpa using hh)
    rw [(hch.holder a).mpr hpos] at h1
    cases h1
    exact hb rfl

/-! ## Steps -/

theorem Step.onChan (R : Discipline M K) (hs : Step M s l s') (ht : R.Tidy s) (h : OnChan M ch s) :
    OnChan M ch s' := by
  cases hs with
  | call a _ hfree hrun hpos =>
    refine h.move { s with lk := some a } (.acquire a hfree ?_ (.inl (State.proj_at hpos rfl))) rfl
    cases a with
    | proc p =>
      show (s.proc p).state = .running
      simpa [State.runs] using hrun
    | cpu => trivial
  | exec a c hpos _ =>
    have hact : OnChan M ch (s.act M (s.exec M a c).1) :=
      h.goto (.act a _ (State.proj_at hpos rfl)) rfl
    cases (s.exec M a c).2 with
    | go | sleep => exact hact.stay hpos rfl
    | wakeup ch' =>
      by_cases hch : ch' = ch
      · exact hact.move _ (.wakeup a (State.proj_at hpos rfl)) (if_pos hch)
      · exact hact.stay hpos (if_neg hch)
  | release a _ hpos hc =>
    exact h.move { s with lk := none } (.release a (State.proj_at hpos rfl) (ht.paid hpos hc ch)) rfl
  | scan a q ch' _ ticks hpos hne hlock =>
    by_cases hch : ch' = ch
    · subst hch
      have hp := State.proj_at (M := M) hpos (if_pos rfl)
      exact h.move (s.setProc q _) (.scan a q ticks hp hne (Pos.proj_locked hlock)) (if_pos rfl)
    · exact (h.setProc_wakeup hlock ticks (M.addr ch')).stay hpos (by simp [hch])
  | scanSelf p ch' _ hpos =>
    by_cases hch : ch' = ch
    · exact h.move s (.scanSelf p (State.proj_at hpos (if_pos hch))) (if_pos hch)
    · exact h.stay hpos (by simp [hch])
  | wakeupReturn a ch' _ hpos =>
    by_cases hch : ch' = ch
    · subst hch
      refine h.goto (.wakeupReturn a (State.proj_at hpos (if_pos rfl))) ?_
      refine (State.proj_goto { s with owes := update s.owes ch' false }).trans ?_
      simp [State.proj, Sync.State.goto]
    · have hsame : OnChan M ch { s with owes := update s.owes ch' false } := by
        unfold OnChan State.proj
        dsimp only
        rw [update_of_ne (Ne.symm hch)]
        exact h
      exact hsame.stay hpos (by simp [hch])
  | sleepLock p c hpos =>
    by_cases hch : M.chan c = ch
    · subst hch
      exact h.move s (.sleep p (State.proj_at hpos rfl) (ht.fits_at hpos).2.1) (if_pos rfl)
    · exact h.stay hpos (if_neg hch)
  | sleepRelease p c hpos =>
    by_cases hch : M.chan c = ch
    · exact h.move { s with lk := none } (.sleepRelease p (State.proj_at hpos (if_pos hch)))
        (if_pos hch)
    · exact h.move { s with lk := none } (.release (.proc p) (State.proj_at hpos (if_neg hch))
        ((ht.fits_at hpos).1 ch)) (if_neg hch)
  | sleepSwitch p c ticks hpos =>
    by_cases hch : M.chan c = ch
    · subst hch
      exact h.move (s.setProc p _) (.sleepSwitch p ticks (State.proj_at hpos (if_pos rfl)))
        (if_pos rfl)
    · have hother : OnChan M ch (s.setProc p ((s.proc p).sleep ticks (M.addr (M.chan c)))) := by
        refine h.goto (.other p _ (State.proj_at hpos (if_neg hch)) ?_) rfl
        rintro ⟨-, he⟩
        exact hch (R.addr_inj _ _ he)
      exact hother.stay hpos (by simp [hch])
  | resume p c r hpos hr hd =>
    by_cases hch : M.chan c = ch
    · exact h.move (s.setProc p _) (.resume p r (State.proj_at hpos (if_pos hch)) hr hd)
        (if_pos hch)
    · have hother : OnChan M ch (s.setProc p { r with chan := 0 }) := by
        refine h.goto (.other p _ (State.proj_at hpos (if_neg hch)) ?_) rfl
        rintro ⟨he, -⟩
        exact absurd (hd.running.symm.trans he) (by simp)
      exact hother.stay hpos (by simp [hch])
  | reacquire p _ hfree hrun hpos =>
    have hp : (s.proj M ch).pos (.proc p) = .idle ∨ (s.proj M ch).pos (.proc p) = .reacquire := by
      rw [State.proj_pos M ch hpos]
      exact Pos.proj_preemptible rfl
    exact h.move { s with lk := some (.proc p) } (.acquire (.proc p) hfree hrun hp) rfl
  | dispatch p r hpos hr hd => exact h.goto (.dispatch p r (Pos.proj_preemptible hpos) hr hd) rfl
  | yield p ticks hpos hr => exact h.goto (.yield p ticks (Pos.proj_preemptible hpos) hr) rfl
  | wakeupOther _ ticks c hlock => exact h.setProc_wakeup hlock ticks c
  | kill p hlock => exact h.goto (.kill p (Pos.proj_locked hlock)) rfl
  | outside p r hpos hr => exact h.goto (.other p r (State.proj_pos M ch hpos) (hr ch)) rfl

/-- `kill` hits a process that has the lock at points with `calm` only. -/
def Label.calm (calm : κ → Prop) (s : State n κ δ χ) : Label n κ → Prop
  | .kill p => ∀ c, s.pos (.proc p) = .code c → calm c
  | _ => True

theorem Step.tidy (R : Discipline M K) (hs : Step M s l s') (hl : l.calm K s) (h : OnChan M ch s)
    (ht : R.Tidy s) : R.Tidy s' := by
  have hlocked : ∀ {a : Agent n} {x : Pos κ χ}, s.pos a = x → x.holds = true → s.lk ≠ none := by
    have := h.holder
    grind
  cases hs with
  | call _ c hfree _ _ hc =>
    have hpaid : s.owes = fun _ => false := funext (ht.free hfree)
    refine ht.goto rfl rfl rfl rfl ?_ (by simp)
    rw [hpaid]
    exact R.call _ c _ hc _
  | exec a c hpos hc =>
    have hafter := R.after ht hpos hc
    refine ht.holder h (by rw [hpos]; rfl) rfl rfl ?_ ?_
    · cases hn : (s.exec M a c).2 <;> rw [hn] at hafter <;> exact hafter
    · exact fun he => absurd he (hlocked hpos rfl)
  | release _ _ hpos hc =>
    exact ht.holder h (by rw [hpos]; rfl) rfl rfl trivial fun _ => ht.paid hpos hc
  | scan _ q ch' c ticks hpos =>
    have h1 := ht.setProc_wakeup q ticks (M.addr ch')
    refine h1.goto rfl rfl rfl rfl ?_ ?_
    · have hf : R.Fits _ _ _ (.waking ch' q c) := h1.fits_at hpos
      exact hf
    · exact fun he => absurd he (hlocked hpos rfl)
  | scanSelf p ch' c hpos =>
    have hf : R.Fits _ _ _ (.waking ch' p c) := ht.fits_at hpos
    refine ht.goto rfl rfl rfl rfl hf ?_
    exact fun he => absurd he (hlocked hpos rfl)
  | wakeupReturn _ ch' c hpos =>
    obtain ⟨hothers, hback⟩ := ht.fits_at hpos
    have hpaid : update s.owes ch' false = fun _ => false := by grind
    refine ht.holder h (by rw [hpos]; rfl) rfl rfl ?_ ?_
    · rw [hpaid]
      exact hback _
    · grind
  | sleepLock _ _ hpos =>
    obtain ⟨hpaid, -, hback⟩ := ht.fits_at hpos
    refine ht.goto rfl rfl rfl rfl ⟨hpaid, hback⟩ ?_
    exact fun he => absurd he (hlocked hpos rfl)
  | sleepRelease _ _ hpos =>
    obtain ⟨hpaid, hback⟩ := ht.fits_at hpos
    exact ht.holder h (by rw [hpos]; rfl) rfl rfl hback fun _ => hpaid
  | sleepSwitch p _ _ hpos | resume p _ _ hpos =>
    have hidle : (s.pos (.proc p)).holds = false := by rw [hpos]; rfl
    exact (ht.setProc_idle hidle).goto rfl rfl rfl rfl (ht.fits_at hpos) ht.free
  | reacquire _ _ hfree _ hpos =>
    have hpaid : s.owes = fun _ => false := funext (ht.free hfree)
    refine ht.goto rfl rfl rfl rfl ?_ (by simp)
    rw [hpaid]
    exact ht.fits_at hpos _ _
  | dispatch _ _ hpos | yield _ _ hpos => exact ht.setProc_idle (Pos.preemptible_holds hpos)
  | wakeupOther p ticks c => exact ht.setProc_wakeup p ticks c
  | kill =>
    apply ht.setProc
    intro c hpos
    exact R.kill _ _ _ c (hl c hpos) (ht.fits_at hpos)
  | outside _ _ hpos =>
    apply ht.setProc_idle
    rw [hpos]
    rfl

theorem Reachable.onChan (R : Discipline M K) (h : Reachable M I C s)
    (hC : ∀ s l, C s l → l.calm K s) (ch : χ) : R.Tidy s ∧ OnChan M ch s := by
  induction h with
  | init h =>
    refine ⟨⟨fun _ => h.owes, ?_⟩, h.onChan⟩
    intro a
    rw [h.pos]
    trivial
  | step _ hs hl ih => exact ⟨hs.tidy R (hC _ _ hl) ih.2 ih.1, hs.onChan R ih.1 ih.2⟩

theorem Reachable.asleep (R : Discipline M K) (h : Reachable M I C s)
    (hC : ∀ s l, C s l → l.calm K s) (hlk : s.lk = none) (hpos : s.pos (.proc p) = .asleep c)
    (hs : (s.proc p).state = .sleeping) : M.cond (M.chan c) s.data = false :=
  (h.onChan R hC (M.chan c)).2.asleep hlk hpos hs

end Xv6.Monitor
