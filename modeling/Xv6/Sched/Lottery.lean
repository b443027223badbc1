import Xv6.Sched.OneCpu
import Mathlib

/-!
# The lottery of LBS

LBS holds all process locks while it draws. Its winner loop subtracts the tickets of one RUNNABLE
process after the other from the draw, so that each process owns an interval of draws as long as
its tickets, and drops every lock but the winner's on the way.
-/

namespace Xv6.Sched

open Function (update update_of_ne)

variable {n : Nat} {b : Build} {proc : Slot → Proc} {c : Fin n} {s s' : State n} {random : Int}

def share (proc : Slot → Proc) (p : Slot) : Int :=
  if (proc p).state = .runnable then (proc p).tickets else 0

/-- The tickets of the RUNNABLE processes in the slots below `m`. -/
def ticketsBelow (proc : Slot → Proc) (m : Nat) : Int :=
  ∑ p : Slot, if p.val < m then share proc p else 0

def totalTickets (proc : Slot → Proc) : Int := ∑ p : Slot, share proc p

structure Fair (proc : Slot → Proc) : Prop where
  tickets : ∀ p, (proc p).state = .runnable → 1 ≤ (proc p).tickets
  total_pos : 0 < totalTickets proc
  total_lt : totalTickets proc < 2 ^ 31

theorem ticketsBelow_zero (proc : Slot → Proc) : ticketsBelow proc 0 = 0 := by simp [ticketsBelow]

theorem ticketsBelow_nproc (proc : Slot → Proc) : ticketsBelow proc nproc = totalTickets proc := by
  apply Finset.sum_congr rfl
  intro p _
  exact if_pos p.isLt

theorem ticketsBelow_succ (proc : Slot → Proc) (i : Slot) :
    ticketsBelow proc (i + 1) = ticketsBelow proc i + share proc i := by
  have hsplit : ∀ p : Slot, (if p.val < i.val + 1 then share proc p else 0) =
      (if p.val < i.val then share proc p else 0) + if i = p then share proc p else 0 := by grind
  rw [ticketsBelow, Finset.sum_congr rfl fun p _ => hsplit p, Finset.sum_add_distrib,
    Finset.sum_ite_eq, if_pos (Finset.mem_univ _), ticketsBelow]

/-- All RUNNABLE processes hold between one and `most` tickets. -/
def Holding (proc : Slot → Proc) (most : Int) : Prop :=
  ∀ p, (proc p).state = .runnable → 1 ≤ (proc p).tickets ∧ (proc p).tickets ≤ most

namespace Holding

variable {most : Int} (h : Holding proc most)

include h

theorem share_nonneg (p : Slot) : 0 ≤ share proc p := by
  unfold share
  split
  · next hp => exact (h p hp).1.trans' (by decide)
  · exact le_refl _

theorem ticketsBelow_mono {i j : Nat} (hij : i ≤ j) :
    ticketsBelow proc i ≤ ticketsBelow proc j := by
  apply Finset.sum_le_sum
  intro p _
  have := h.share_nonneg p
  split <;> split <;> omega

theorem ticketsBelow_nonneg (i : Nat) : 0 ≤ ticketsBelow proc i := by
  have hle := h.ticketsBelow_mono (Nat.zero_le i)
  rwa [ticketsBelow_zero] at hle

theorem ticketsBelow_le_total {i : Nat} (hi : i ≤ nproc) :
    ticketsBelow proc i ≤ totalTickets proc := by
  rw [← ticketsBelow_nproc]
  exact h.ticketsBelow_mono hi

theorem tickets_le_total {p : Slot} (hp : (proc p).state = .runnable) :
    (proc p).tickets ≤ totalTickets proc := by
  have hle := Finset.single_le_sum (fun q _ => h.share_nonneg q) (Finset.mem_univ p)
  rwa [share, if_pos hp] at hle

end Holding

theorem Fair.holding (h : Fair proc) : Holding proc (2 ^ 31 - 1) := by
  obtain ⟨most, hmost⟩ := Finite.bddAbove_range fun p => (proc p).tickets
  have hold : Holding proc most := fun p hp => ⟨h.tickets p hp, hmost ⟨p, rfl⟩⟩
  intro p hp
  have hle := hold.tickets_le_total hp
  have hlt := h.total_lt
  exact ⟨h.tickets p hp, by omega⟩

/-! ## The winner loop -/

/-- The local variables of the loop, with the locks it has released. -/
structure Draw where
  random : Int
  winner : Option Slot
  released : List Slot

def drawAt (proc : Slot → Proc) (i : Slot) (d : Draw) : Draw where
  random := (drawStep proc i d.random d.winner).1
  winner := (drawStep proc i d.random d.winner).2
  released :=
    if (drawStep proc i d.random d.winner).2 = some i then d.released else d.released ++ [i]

def drawLoop (proc : Slot → Proc) (random : Int) : Nat → Draw
  | 0 => { random := random, winner := none, released := [] }
  | m + 1 =>
    if h : m < nproc then drawAt proc ⟨m, h⟩ (drawLoop proc random m) else drawLoop proc random m

attribute [local simp] drawLoop

def winner (proc : Slot → Proc) (random : Int) : Option Slot := (drawLoop proc random nproc).winner

theorem drawLoop_succ (proc : Slot → Proc) (random : Int) (i : Slot) :
    drawLoop proc random (i + 1) = drawAt proc i (drawLoop proc random i) := by
  rw [drawLoop, dif_pos i.isLt]

def Owns (proc : Slot → Proc) (random : Int) (w : Slot) : Prop :=
  (proc w).state = .runnable ∧ ticketsBelow proc w ≤ random ∧ random < ticketsBelow proc (w + 1)

def Drawn (proc : Slot → Proc) (random : Int) (i : Nat) (r : Int) : Option Slot → Prop
  | none => ticketsBelow proc i ≤ random ∧ r = random - ticketsBelow proc i
  | some w => w.val < i ∧ Owns proc random w

variable {c' : Fin n} {i : Slot} {o : Option (Fin n)} {released : List Slot} {w : Option Slot}
variable {p : Slot} {r : Int}

theorem Drawn.step (h : Holding proc (2 ^ 31 - 1)) (hlt : random < 2 ^ 31)
    (hd : Drawn proc random i r w) :
    Drawn proc random (i + 1) (drawStep proc i r w).1 (drawStep proc i r w).2 := by
  have hsucc := ticketsBelow_succ proc i
  cases w with
  | some w =>
    have hskip : drawStep proc i r (some w) = (r, some w) := if_neg (by simp)
    rw [hskip]
    exact ⟨Nat.lt_succ_of_lt hd.1, hd.2⟩
  | none =>
    obtain ⟨hle, hr⟩ := hd
    by_cases hi : (proc i).state = .runnable
    · have hshare : share proc i = (proc i).tickets := if_pos hi
      have h0 := h.ticketsBelow_nonneg i
      obtain ⟨hpos, hmax⟩ := h i hi
      -- the subtraction stays in the range of an `int`
      have hint : toInt32 (r - (proc i).tickets) = random - ticketsBelow proc (i + 1) := by
        rw [toInt32_of_range] <;> omega
      simp only [drawStep, hi, and_self, if_true, hint]
      split
      · exact ⟨Nat.lt_succ_self _, hi, hle, by omega⟩
      · exact ⟨by omega, rfl⟩
    · have hshare : share proc i = 0 := if_neg hi
      have hskip : drawStep proc i r none = (r, none) := if_neg (by simp [hi])
      rw [hskip]
      exact ⟨by omega, by omega⟩

theorem drawLoop_drawn (h : Holding proc (2 ^ 31 - 1)) (h0 : 0 ≤ random) (hlt : random < 2 ^ 31)
    (m : Nat) (hm : m ≤ nproc) :
    Drawn proc random m (drawLoop proc random m).random (drawLoop proc random m).winner := by
  induction m with
  | zero => exact ⟨by rw [ticketsBelow_zero]; exact h0, by rw [ticketsBelow_zero]; simp⟩
  | succ m ih =>
    have hstep := (ih (by omega)).step (i := ⟨m, hm⟩) h hlt
    rw [drawLoop_succ proc random ⟨m, hm⟩]
    exact hstep

/-- The locks released are those of the slots visited, but the winner's, each once. -/
def Released (i : Nat) (w : Option Slot) (released : List Slot) : Prop :=
  released.Nodup ∧ (∀ q, q ∈ released ↔ q.val < i ∧ w ≠ some q) ∧ ∀ q, w = some q → q.val < i

theorem Released.drawAt {d : Draw} (h : Released i d.winner d.released) :
    Released (i + 1) (drawAt proc i d).winner (drawAt proc i d).released := by
  obtain ⟨hnodup, hmem, hw⟩ := h
  simp only [Sched.drawAt]
  rcases drawStep_winner proc i d.random d.winner with hkeep | ⟨hnone, hwin⟩
  · -- the winner stays, so slot `i` is released
    have hne : d.winner ≠ some i := fun hi => absurd (hw i hi) (lt_irrefl _)
    rw [hkeep, if_neg hne]
    refine ⟨?_, ?_, fun q hq => Nat.lt_succ_of_lt (hw q hq)⟩ <;> grind
  · rw [hwin, if_pos rfl]
    refine ⟨hnodup, ?_, ?_⟩
    · grind
    · simp

theorem drawLoop_released (proc : Slot → Proc) (random : Int) (m : Nat) (hm : m ≤ nproc) :
    Released m (drawLoop proc random m).winner (drawLoop proc random m).released := by
  induction m with
  | zero => exact ⟨by simp, by simp, by simp⟩
  | succ m ih =>
    rw [drawLoop_succ proc random ⟨m, hm⟩]
    exact (ih (by omega)).drawAt

/-! ## Proportionality -/

theorem Owns.unique {most : Int} (h : Holding proc most) {w w' : Slot} (hw : Owns proc random w)
    (hw' : Owns proc random w') : w = w' := by
  have hle : ∀ {v v' : Slot}, Owns proc random v → Owns proc random v' → v.val ≤ v'.val := by
    intro v v' hv hv'
    by_contra hlt
    have hmono := h.ticketsBelow_mono (show v'.val + 1 ≤ v.val by omega)
    have h1 := hv.2.1
    have h2 := hv'.2.2
    omega
  exact Fin.ext (le_antisymm (hle hw hw') (hle hw' hw))

theorem winner_eq_some_iff (h : Holding proc (2 ^ 31 - 1)) (h0 : 0 ≤ random)
    (hlt : random < 2 ^ 31) : winner proc random = some p ↔ Owns proc random p := by
  have hd := drawLoop_drawn h h0 hlt nproc (le_refl _)
  rw [← winner] at hd
  cases hw : winner proc random with
  | none =>
    rw [hw] at hd
    constructor
    · intro he
      cases he
    · intro hp
      -- the tickets of `p` are among those that the draw has passed
      have hle := hd.1.trans' (h.ticketsBelow_mono (show p.val + 1 ≤ nproc from p.isLt))
      exact absurd (hp.2.2.trans_le hle) (lt_irrefl _)
  | some =>
    rw [hw] at hd
    rw [Option.some.injEq]
    constructor
    · rintro rfl
      exact hd.2
    · exact fun hp => Owns.unique h hd.2 hp

theorem exists_winner (h : Fair proc) (h0 : 0 ≤ random) (hlt : random < totalTickets proc) :
    ∃ p, winner proc random = some p ∧ (proc p).state = .runnable := by
  have hint := hlt.trans h.total_lt
  have hd := drawLoop_drawn h.holding h0 hint nproc (le_refl _)
  rw [← winner] at hd
  cases hw : winner proc random with
  | none =>
    rw [hw] at hd
    have := hd.1
    rw [ticketsBelow_nproc] at this
    omega
  | some p => exact ⟨p, rfl, ((winner_eq_some_iff h.holding h0 hint).mp hw).1⟩

theorem card_winner (h : Fair proc) (hp : (proc p).state = .runnable) :
    ((Finset.Ico 0 (totalTickets proc)).filter fun r => winner proc r = some p).card =
      (proc p).tickets := by
  have hsucc := ticketsBelow_succ proc p
  rw [share, if_pos hp] at hsucc
  have h0 := h.holding.ticketsBelow_nonneg p
  have hle := h.holding.ticketsBelow_le_total (show p.val + 1 ≤ nproc from p.isLt)
  have hmax := h.total_lt
  have hpos := h.tickets p hp
  have hset : ((Finset.Ico 0 (totalTickets proc)).filter fun r => winner proc r = some p) =
      Finset.Ico (ticketsBelow proc p) (ticketsBelow proc (p + 1)) := by
    ext r
    rw [Finset.mem_filter, Finset.mem_Ico, Finset.mem_Ico]
    constructor
    · rintro ⟨⟨hr0, hr⟩, hw⟩
      exact ((winner_eq_some_iff h.holding hr0 (by omega)).mp hw).2
    · rintro ⟨hr, hr'⟩
      have hr0 : 0 ≤ r := by omega
      have hrt : r < totalTickets proc := by omega
      exact ⟨⟨hr0, hrt⟩, (winner_eq_some_iff h.holding hr0 (by omega)).mpr ⟨hp, hr, hr'⟩⟩
  rw [hset, Int.card_Ico]
  omega

/-! ## The locks keep the records -/

/-- What a step leaves alone: the lock and the record of every process whose lock is neither free
nor held by `o`. -/
def Local (s s' : State n) (o : Option (Fin n)) : Prop :=
  ∀ q, s.lock q = none ∨ s.lock q = o ∨ (s'.lock q = s.lock q ∧ s'.proc q = s.proc q)

theorem Local.same (hl : s'.lock = s.lock) (hp : s'.proc = s.proc) : Local s s' o := by
  intro q
  rw [hl, hp]
  exact .inr (.inr ⟨rfl, rfl⟩)

theorem Local.at (p : Slot) (hp : s.lock p = none ∨ s.lock p = o)
    (h : ∀ q, q ≠ p → s'.lock q = s.lock q ∧ s'.proc q = s.proc q) : Local s s' o := by
  intro q
  by_cases hq : q = p
  · subst hq
    exact hp.imp_right .inl
  · exact .inr (.inr (h q hq))

theorem local_dispatch (r : Proc) (k : Pc) (hp : s.lock p = none ∨ s.lock p = some c') :
    Local s (dispatch s c' p r k) (some c') := by
  apply Local.at p hp
  intro q hq
  simp [dispatch, State.goto, State.setCpuProc, State.setLock, State.setProc, update_of_ne hq]

theorem Inv.draw_lock (h : Inv s) {i : Nat} (hm : (s.cpu c).mode = .sched (.draw i r w)) :
    Holds s c (fun q => i ≤ q.val ∨ w = some q) := by
  have hc := h.cpu c
  rw [hm] at hc
  exact hc.2.1

theorem SchedStep.local (h : Inv s) (hs : SchedStep b c' s s') : Local s s' (some c') := by
  cases hs with
  | rrRun _ _ hl | pickRun _ _ hl | rr4Run _ _ hl => exact local_dispatch _ _ (.inl hl)
  | drawRun _ w hm => exact local_dispatch _ _ (.inr ((h.draw_lock hm w).mpr (.inr rfl)))
  | total i _ _ hl =>
    apply Local.at i (.inl hl)
    intro q hq
    exact ⟨update_of_ne hq _ _, rfl⟩
  | drawDrop i _ _ hm =>
    apply Local.at i (.inr ((h.draw_lock hm i).mpr (.inl (le_refl _))))
    intro q hq
    exact ⟨update_of_ne hq _ _, rfl⟩
  | drawSkip _ w hm =>
    apply Local.at w (.inr ((h.draw_lock hm w).mpr (.inr rfl)))
    intro q hq
    exact ⟨update_of_ne hq _ _, rfl⟩
  | demote i _ hl | age i _ hl =>
    apply Local.at i (.inl hl)
    intro q hq
    exact ⟨rfl, update_of_ne hq _ _⟩
  | back p _ hm =>
    have hc := h.cpu c'
    rw [hm] at hc
    apply Local.at p (.inr ((hc.2.1 p).mpr rfl))
    intro q hq
    exact ⟨update_of_ne hq _ _, rfl⟩
  | _ => exact Local.same rfl rfl

theorem ThreadStep.local (h : Inv s) (hs : ThreadStep c' s s') : Local s s' (some c') := by
  cases hs with
  | release p hm =>
    have hc := h.cpu c'
    rw [hm] at hc
    apply Local.at p (.inr ((hc.2.2.2.1 p).mpr rfl))
    intro q hq
    exact ⟨update_of_ne hq _ _, rfl⟩
  | yield p _ hl | sleep p _ _ hl | exit p _ _ hl =>
    apply Local.at p (.inl hl)
    intro q hq
    exact ⟨update_of_ne hq _ _, update_of_ne hq _ _⟩
  | swtch => exact Local.same rfl rfl

theorem SectionStep.local (hs : SectionStep c' s s') : Local s s' none := by
  have hset : ∀ (q : Slot) (r : Proc), s.lock q = none → Local s (s.setProc q r) none := by
    intro q r hl
    apply Local.at q (.inl hl)
    intro q' hq
    exact ⟨rfl, update_of_ne hq _ _⟩
  cases hs with
  | clockintr => exact Local.same rfl rfl
  | wakeup q _ hl | allocproc q _ hl | kill q hl | allocFail q _ hl | forked q hl | reap q hl
  | setPriority q _ hl | settickets q _ hl | updateTime q hl => exact hset q _ hl

theorem Local.locked (h : Local s s' o) (hne : o ≠ some c) {q : Slot} (hq : s.lock q = some c) :
    s'.lock q = some c ∧ s'.proc q = s.proc q := by
  rcases h q with hl | hl | ⟨hl, hp⟩
  · rw [hq] at hl
    cases hl
  · exact absurd (hl.symm.trans hq) hne
  · exact ⟨hl.trans hq, hp⟩

theorem Step.own_or_locked (h : Inv s) (hs : Step b s s') {pc : Pc}
    (hm : (s.cpu c).mode = .sched pc) :
    SchedStep b c s s' ∨ (s'.cpu c = s.cpu c ∧
      ∀ q, s.lock q = some c → s'.lock q = some c ∧ s'.proc q = s.proc q) := by
  cases hs with
  | sched c' hs =>
    by_cases hc : c = c'
    · subst hc
      exact .inl hs
    · exact .inr ⟨hs.cpu_other hc,
        fun q hq => (hs.local h).locked (fun he => hc (Option.some.inj he).symm) hq⟩
  | thread c' hs =>
    by_cases hc : c = c'
    · grind [hs.mode]
    · exact .inr ⟨hs.cpu_other hc,
        fun q hq => (hs.local h).locked (fun he => hc (Option.some.inj he).symm) hq⟩
  | locked _ hs => exact .inr ⟨congrFun hs.cpu_eq c, fun q hq => hs.local.locked (by simp) hq⟩

/-! ## The loop under all interleavings -/

def gaveUp (c : Fin n) (s s' : State n) : List Slot :=
  (List.finRange nproc).filter fun q => s.lock q = some c ∧ s'.lock q ≠ some c

/-- A run of all CPUs during which `c` stays in the winner loop, with the locks that `c` gives up
on the way. -/
inductive DrawRun (b : Build) (c : Fin n) (s : State n) : List Slot → State n → Prop where
  | refl : DrawRun b c s [] s
  | tail {released : List Slot} {s₁ s₂ : State n} (h : DrawRun b c s released s₁)
      (hs : Step b s₁ s₂)
      (hm : ∃ i r w, (s₂.cpu c).mode = .sched (.draw i r w)) :
      DrawRun b c s (released ++ gaveUp c s₁ s₂) s₂

theorem gaveUp_eq_nil (h : ∀ q, s.lock q = some c → s'.lock q = some c) : gaveUp c s s' = [] := by
  rw [gaveUp, List.filter_eq_nil_iff]
  intro q _
  simpa using h q

theorem gaveUp_eq_singleton (hi : s.lock i = some c) (hl : s'.lock = update s.lock i none) :
    gaveUp c s s' = [i] := by
  have hpred : ∀ q ∈ List.finRange nproc,
      decide (s.lock q = some c ∧ s'.lock q ≠ some c) = (q == i) := by
    intro q _
    by_cases hq : q = i
    · subst hq
      simp [hi, hl]
    · simp [hl, hq]
  rw [gaveUp, List.filter_congr hpred, List.filter_beq, List.count_eq_one_of_mem]
  · rfl
  · exact List.nodup_finRange _
  · exact List.mem_finRange _

theorem drawStep_congr {proc proc' : Slot → Proc} (h : proc i = proc' i) (r : Int)
    (w : Option Slot) : drawStep proc i r w = drawStep proc' i r w := by
  unfold drawStep
  rw [h]

/-- The loop so far is the one of the table it began with, and what is left of the table is
unchanged. -/
def Follows (proc : Slot → Proc) (random : Int) (c : Fin n) (released : List Slot) (s : State n) :
    Prop :=
  ∃ i r w, (s.cpu c).mode = .sched (.draw i r w) ∧ i ≤ nproc ∧
    drawLoop proc random i = { random := r, winner := w, released := released } ∧
    ∀ q : Slot, i ≤ q.val → s.proc q = proc q

theorem SchedStep.draw_cases {i : Nat} (hs : SchedStep b c s s')
    (hm : (s.cpu c).mode = .sched (.draw i r w))
    (hm' : ∃ i r w, (s'.cpu c).mode = .sched (.draw i r w)) :
    ∃ hi : i < nproc, s'.proc = s.proc ∧
      (s'.cpu c).mode = .sched (.draw (i + 1) (drawStep s.proc ⟨i, hi⟩ r w).1
        (drawStep s.proc ⟨i, hi⟩ r w).2) ∧
      s'.lock = if (drawStep s.proc ⟨i, hi⟩ r w).2 = some ⟨i, hi⟩ then s.lock
        else update s.lock ⟨i, hi⟩ none := by
  obtain ⟨i', r', w', hm'⟩ := hm'
  cases hs with
  | drawKeep j _ _ hj hw =>
    rw [hm] at hj
    cases hj
    refine ⟨j.isLt, rfl, ?_, (if_pos hw).symm⟩
    rw [goto_mode]
    exact congrArg (fun w => Mode.sched (.draw (j + 1) _ w)) hw.symm
  | drawDrop j _ _ hj hw =>
    rw [hm] at hj
    cases hj
    exact ⟨j.isLt, rfl, goto_mode _ _ _, (if_neg hw).symm⟩
  | drawNone | drawSkip =>
    rw [goto_mode] at hm'
    cases hm'
  | drawRun =>
    rw [dispatch, goto_mode] at hm'
    cases hm'
  | _ => simp_all

theorem Follows.step (h : Inv s) (hf : Follows proc random c released s) (hs : Step b s s')
    (hm' : ∃ i r w, (s'.cpu c).mode = .sched (.draw i r w)) :
    Follows proc random c (released ++ gaveUp c s s') s' := by
  obtain ⟨i, r, w, hm, hi, hloop, hrest⟩ := hf
  have hholds := h.draw_lock hm
  rcases hs.own_or_locked h hm with hown | ⟨hcpu, hlocked⟩
  · obtain ⟨hi', hproc, hmode, hlock⟩ := hown.draw_cases hm hm'
    have hstep := drawStep_congr (hrest ⟨i, hi'⟩ (le_refl _)) r w
    have hlk : s.lock ⟨i, hi'⟩ = some c := (hholds _).mpr (.inl (le_refl _))
    refine ⟨i + 1, _, _, hmode, hi', ?_, ?_⟩
    · rw [drawLoop_succ proc random ⟨i, hi'⟩, hloop, drawAt, ← hstep]
      split at hlock
      · grind [gaveUp_eq_nil]
      · next hw => rw [if_neg hw, gaveUp_eq_singleton hlk hlock]
    · grind
  · refine ⟨i, r, w, by rw [hcpu]; exact hm, hi, ?_, ?_⟩
    · grind [gaveUp_eq_nil]
    · intro q hq
      rw [(hlocked q ((hholds q).mpr (.inl hq))).2]
      exact hrest q hq

theorem DrawRun.follows (h : Inv s) (hm : (s.cpu c).mode = .sched (.draw 0 random none))
    (hrun : DrawRun b c s released s') : Inv s' ∧ Follows s.proc random c released s' := by
  induction hrun with
  | refl => exact ⟨h, 0, random, none, hm, Nat.zero_le _, rfl, fun q _ => rfl⟩
  | tail _ hs hm' ih => exact ⟨ih.1.step hs, ih.2.step ih.1 hs hm'⟩

theorem DrawRun.exists (hm : (s.cpu c).mode = .sched (.draw 0 random none)) (m : Nat)
    (hle : m ≤ nproc) : ∃ released s', DrawRun b c s released s' ∧
      ∃ r w, (s'.cpu c).mode = .sched (.draw m r w) := by
  induction m with
  | zero => exact ⟨[], s, .refl, _, _, hm⟩
  | succ m ih =>
    obtain ⟨released, s1, hrun, r, w, hm1⟩ := ih (by omega)
    by_cases hw : (drawStep s1.proc ⟨m, hle⟩ r w).2 = some ⟨m, hle⟩
    · have hs : Step b s1 _ := .sched c (.drawKeep s1 ⟨m, hle⟩ r w hm1 hw)
      exact ⟨_, _, hrun.tail hs ⟨_, _, _, goto_mode _ _ _⟩, _, _, goto_mode _ _ _⟩
    · have hs : Step b s1 _ := .sched c (.drawDrop s1 ⟨m, hle⟩ r w hm1 hw)
      exact ⟨_, _, hrun.tail hs ⟨_, _, _, goto_mode _ _ _⟩, _, _, goto_mode _ _ _⟩

theorem DrawRun.ended (h : Inv s) (hm : (s.cpu c).mode = .sched (.draw 0 random none))
    (hrun : DrawRun b c s released s') (hend : (s'.cpu c).mode = .sched (.draw nproc r w)) :
    w = winner s.proc random ∧ Released nproc w released := by
  obtain ⟨-, i, r', w', hm', -, hloop, -⟩ := hrun.follows h hm
  rw [hend] at hm'
  cases hm'
  have hrel := drawLoop_released s.proc random nproc (le_refl _)
  rw [hloop] at hrel
  exact ⟨by rw [winner, hloop], hrel⟩

/-! ## The draw -/

theorem totalStep_eq (proc : Slot → Proc) (i : Slot) :
    totalStep (proc i) (toInt32 (ticketsBelow proc i)) = toInt32 (ticketsBelow proc (i + 1)) := by
  rw [ticketsBelow_succ, totalStep, share]
  split
  · rw [toInt32, toInt32, toInt32, Int.bmod_add_bmod]
  · rw [add_zero]

/-- On every fair table each draw selects one RUNNABLE process, and each RUNNABLE process is
selected by as many draws as it has tickets. Under every interleaving with the other CPUs the
winner loop ends with the process that the draw selects in the table it began with, and has then
released the lock of every other process exactly once; it can always come to its end. -/
theorem lottery_proportional (hfair : Fair proc) :
    (∀ random, 0 ≤ random → random < totalTickets proc →
      ∃ p, winner proc random = some p ∧ (proc p).state = .runnable) ∧
    (∀ p, (proc p).state = .runnable →
      ((Finset.Ico 0 (totalTickets proc)).filter fun r => winner proc r = some p).card =
        (proc p).tickets) ∧
    ∀ (n : Nat) (s : State n) (c : Fin n) (random : Int), Inv s → s.proc = proc →
      (s.cpu c).mode = .sched (.draw 0 random none) →
      0 ≤ random → random < totalTickets proc →
      ∃ p, winner proc random = some p ∧ (proc p).state = .runnable ∧
        (∀ released s' r w, DrawRun .LBS c s released s' →
          (s'.cpu c).mode = .sched (.draw nproc r w) →
          w = some p ∧ released.Nodup ∧ ∀ q, q ∈ released ↔ q ≠ p) ∧
        ∃ released s' r w, DrawRun .LBS c s released s' ∧
          (s'.cpu c).mode = .sched (.draw nproc r w) := by
  refine ⟨fun random h0 hlt => exists_winner hfair h0 hlt, fun p hp => card_winner hfair hp, ?_⟩
  intro n s c random hinv hproc hm h0 hlt
  subst hproc
  obtain ⟨p, hwin, hp⟩ := exists_winner hfair h0 hlt
  refine ⟨p, hwin, hp, ?_, ?_⟩
  · intro released s' r w hrun hend
    obtain ⟨hw, hnodup, hmem, -⟩ := hrun.ended hinv hm hend
    rw [hwin] at hw
    subst hw
    refine ⟨rfl, hnodup, ?_⟩
    intro q
    rw [hmem, and_iff_right q.isLt, Ne, Option.some.injEq, eq_comm]
  · obtain ⟨released, s', hrun, r, w, hend⟩ := DrawRun.exists hm nproc (le_refl _)
    exact ⟨released, s', r, w, hrun, hend⟩

/-- `initproc` with one ticket and another process with three. -/
def twoTickets : Slot → Proc := fun p =>
  if p.val = 0 then { state := .runnable, tickets := 1 }
  else if p.val = 5 then { state := .runnable, tickets := 3 } else {}

/-- A CPU that holds all locks and has drawn the last ticket. -/
def lastTicket : State 1 where
  proc := twoTickets
  lock _ := some 0
  ctx _ := .saved
  cpu _ := { proc := none, context := .top, mode := .sched (.draw 0 3 none) }
  ticks := 7

theorem inv_lastTicket : Inv lastTicket where
  cpu c := by
    rw [Subsingleton.elim c 0]
    exact ⟨rfl, fun q => by simp [lastTicket], fun p hp => by cases hp⟩
  running := by decide
  live p c hp := by cases hp
  unique c c' p hp _ := by cases hp

theorem lottery_proportional_twoTickets : ((Finset.Ico 0 (totalTickets twoTickets)).filter fun r =>
      winner twoTickets r = some ⟨5, by decide⟩).card = 3 ∧
    ∃ released s' r, DrawRun .LBS 0 lastTicket released s' ∧
      (s'.cpu 0).mode = .sched (.draw nproc r (some ⟨5, by decide⟩)) := by
  have hfair : Fair twoTickets := ⟨by decide, by decide +kernel, by decide +kernel⟩
  obtain ⟨-, hcard, hrun⟩ := lottery_proportional hfair
  obtain ⟨p, hwin, -, hend, released, s', r, w, hdraw, hm⟩ :=
    hrun 1 lastTicket 0 3 inv_lastTicket rfl rfl (by decide) (by decide +kernel)
  have hp : p = ⟨5, by decide⟩ := Option.some.inj (hwin.symm.trans (by decide +kernel))
  obtain ⟨rfl, -⟩ := hend released s' r w hdraw hm
  subst hp
  exact ⟨Int.natCast_inj.mp (hcard _ (by decide)), released, s', r, hdraw, hm⟩

end Xv6.Sched
