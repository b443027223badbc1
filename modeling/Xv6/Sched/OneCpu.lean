import Xv6.Sched

/-!
# A process runs on at most one CPU

The invariant ties what a CPU is executing to the locks it holds, to `c->proc` and to the
place of the registers of the process. It follows that a CPU that is about to `swtch` to a
process finds its context completely saved, in all five builds.
-/

namespace Xv6.Sched

open Function (update update_eq_self_iff update_of_ne)

variable {n : Nat} {b : Build} {s s' : State n}
variable {p : Slot} {pc : Pc} {w : Option Slot}
variable {c c' : Fin n} {i : Slot} {m : Mode} {o : Option (Fin n)} {r : Proc}

attribute [local simp] State.goto State.setLock State.setProc State.setCpuProc dispatch

/-- Points of `scheduler` at which no process lock is held. -/
def Pc.Unlocked : Pc → Prop
  | .total _ _ | .draw _ _ _ | .swtch _ _ | .back _ _ => False
  | _ => True

def Holds (s : State n) (c : Fin n) (L : Slot → Prop) : Prop := ∀ q, s.lock q = some c ↔ L q

def PcInv (s : State n) (c : Fin n) : Pc → Prop
  | .total i _ => (s.cpu c).proc = none ∧ Holds s c (fun q => q.val < i)
  | .draw i _ w => (s.cpu c).proc = none ∧ Holds s c (fun q => i ≤ q.val ∨ w = some q) ∧
      ∀ p, w = some p → p.val < i
  | .swtch p k => (s.cpu c).proc = some p ∧ Holds s c (· = p) ∧
      (s.proc p).state = .running ∧ s.ctx p = .saved ∧ k.Unlocked
  | .back p k => (s.cpu c).proc = some p ∧ Holds s c (· = p) ∧
      (s.proc p).state ≠ .running ∧ s.ctx p = .saved ∧ k.Unlocked
  | _ => (s.cpu c).proc = none ∧ Holds s c (fun _ => False)

def ThreadInv (s : State n) (c : Fin n) (p : Slot) : ThreadPc → Prop
  | .resumed => Holds s c (· = p) ∧ (s.proc p).state = .running
  | .running => Holds s c (fun _ => False) ∧ (s.proc p).state = .running
  | .leaving => Holds s c (· = p) ∧ (s.proc p).state ≠ .running

def ModeInv (s : State n) (c : Fin n) : Mode → Prop
  | .sched pc => PcInv s c pc
  | .thread p pc => (s.cpu c).proc = some p ∧ s.ctx p = .live c ∧
      (∃ k : Pc, (s.cpu c).context = .back p k ∧ k.Unlocked) ∧ ThreadInv s c p pc

structure Inv (s : State n) : Prop where
  cpu : ∀ c, ModeInv s c (s.cpu c).mode
  running : ∀ p, (s.proc p).state = .running → ∃ c, (s.cpu c).proc = some p
  live : ∀ p c, s.ctx p = .live c → ∃ pc, (s.cpu c).mode = .thread p pc
  unique : ∀ c c' p, (s.cpu c).proc = some p → (s.cpu c').proc = some p → c = c'

theorem goto_mode (s : State n) (c : Fin n) (m : Mode) : ((s.goto c m).cpu c).mode = m := by simp

theorem Inv.at (h : Inv s) (hm : (s.cpu c).mode = m) : ModeInv s c m := hm ▸ h.cpu c

theorem PcInv.unlocked (h : pc.Unlocked) :
    PcInv s c pc ↔ (s.cpu c).proc = none ∧ Holds s c (fun _ => False) := by
  cases pc <;> simp_all [Pc.Unlocked, PcInv]

theorem Inv.thread_of_free (h : Inv s) (hc : (s.cpu c).proc = some p)
    (hl : s.lock p ≠ some c) :
    (s.cpu c).mode = .thread p .running ∧ (s.proc p).state = .running := by
  cases hmode : (s.cpu c).mode with
  | sched pc =>
    have hm := h.at hmode
    cases pc with
    | swtch q | back q =>
      obtain ⟨hq, hlock, -⟩ := hm
      obtain rfl : q = p := Option.some.inj (hq.symm.trans hc)
      exact absurd ((hlock q).mpr rfl) hl
    | _ => exact absurd (hm.1.symm.trans hc) (by simp)
  | thread q pc =>
    obtain ⟨hq, -, -, ht⟩ := h.at hmode
    obtain rfl : q = p := Option.some.inj (hq.symm.trans hc)
    cases pc with
    | running => exact ⟨rfl, ht.2⟩
    | resumed | leaving => exact absurd ((ht.1 q).mpr rfl) hl

theorem Inv.idle (h : Inv s) (hl : ∀ c, s.lock p = some c → (s.cpu c).proc = none)
    (hs : (s.proc p).state ≠ .running) : (∀ c, (s.cpu c).proc ≠ some p) ∧ s.ctx p = .saved := by
  have hproc : ∀ c, (s.cpu c).proc ≠ some p := by
    intro c hc
    by_cases hlc : s.lock p = some c
    · grind
    · exact hs (h.thread_of_free hc hlc).2
  refine ⟨hproc, ?_⟩
  cases hctx : s.ctx p with
  | saved => rfl
  | live c =>
    obtain ⟨pc, hmode⟩ := h.live p c hctx
    exact absurd (h.at hmode).1 (hproc c)

/-! ## One CPU moves -/

/-- What a step leaves alone of a CPU that does not take part in it. -/
structure Frame (s s' : State n) (c : Fin n) : Prop where
  cpu : s'.cpu c = s.cpu c
  lock : ∀ q, s'.lock q = some c ↔ s.lock q = some c
  proc : ∀ p, (s.cpu c).proc = some p →
    ((s'.proc p).state = .running ↔ (s.proc p).state = .running) ∧ s'.ctx p = s.ctx p

theorem Frame.holds (f : Frame s s' c) {L : Slot → Prop} (h : Holds s c L) :
    Holds s' c L :=
  fun q => (f.lock q).trans (h q)

theorem Frame.modeInv (f : Frame s s' c) (h : ModeInv s c m) : ModeInv s' c m := by
  have hcpu := f.cpu
  cases m with
  | sched pc =>
    cases pc with
    | total => exact ⟨by rw [hcpu]; exact h.1, f.holds h.2⟩
    | draw => exact ⟨by rw [hcpu]; exact h.1, f.holds h.2.1, h.2.2⟩
    | swtch p =>
      obtain ⟨h1, h2, h3, h4, h5⟩ := h
      obtain ⟨g1, g2⟩ := f.proc p h1
      exact ⟨by rw [hcpu]; exact h1, f.holds h2, g1.mpr h3, g2.trans h4, h5⟩
    | back p =>
      obtain ⟨h1, h2, h3, h4, h5⟩ := h
      obtain ⟨g1, g2⟩ := f.proc p h1
      exact ⟨by rw [hcpu]; exact h1, f.holds h2, fun hr => h3 (g1.mp hr), g2.trans h4, h5⟩
    | _ => exact ⟨by rw [hcpu]; exact h.1, f.holds h.2⟩
  | thread p pc =>
    obtain ⟨h1, h2, h3, h4⟩ := h
    obtain ⟨g1, g2⟩ := f.proc p h1
    refine ⟨by rw [hcpu]; exact h1, g2.trans h2, by rw [hcpu]; exact h3, ?_⟩
    cases pc with
    | resumed | running => exact ⟨f.holds h4.1, g1.mpr h4.2⟩
    | leaving => exact ⟨f.holds h4.1, fun hr => h4.2 (g1.mp hr)⟩

theorem Inv.move (h : Inv s) (hframe : ∀ c', c' ≠ c → Frame s s' c')
    (hself : ModeInv s' c (s'.cpu c).mode) (hrun : ∀ p, (s'.proc p).state = .running →
      (s'.cpu c).proc = some p ∨ ((s.proc p).state = .running ∧ (s.cpu c).proc ≠ some p))
    (hlive : ∀ p c', s'.ctx p = .live c' →
      (c' = c ∧ ∃ pc, (s'.cpu c).mode = .thread p pc) ∨ (c' ≠ c ∧ s.ctx p = .live c'))
    (huniq : ∀ p, (s'.cpu c).proc = some p → ∀ c', c' ≠ c → (s.cpu c').proc ≠ some p) : Inv s' := by
  refine ⟨?_, ?_, ?_, ?_⟩
  · intro c'
    by_cases hc : c' = c
    · subst hc; exact hself
    · rw [(hframe c' hc).cpu]
      exact (hframe c' hc).modeInv (h.cpu c')
  · intro p hp
    rcases hrun p hp with hp | ⟨hp, hne⟩
    · exact ⟨c, hp⟩
    · obtain ⟨c', hc'⟩ := h.running p hp
      have : c' ≠ c := by rintro rfl; exact hne hc'
      exact ⟨c', by rw [(hframe c' this).cpu]; exact hc'⟩
  · intro p c' hp
    rcases hlive p c' hp with ⟨rfl, hm⟩ | ⟨hne, hp⟩
    · exact hm
    · rw [(hframe c' hne).cpu]
      exact h.live p c' hp
  · intro c1 c2 p h1 h2
    by_cases e1 : c1 = c <;> by_cases e2 : c2 = c
    · rw [e1, e2]
    · subst e1
      rw [(hframe c2 e2).cpu] at h2
      exact absurd h2 (huniq p h1 c2 e2)
    · subst e2
      rw [(hframe c1 e1).cpu] at h1
      exact absurd h1 (huniq p h2 c1 e1)
    · rw [(hframe c1 e1).cpu] at h1
      rw [(hframe c2 e2).cpu] at h2
      exact h.unique c1 c2 p h1 h2

theorem Inv.proc_of_unlocked (h : Inv s) (hm : (s.cpu c).mode = .sched pc)
    (hu : pc.Unlocked) : (s.cpu c).proc = none ∧ Holds s c (fun _ => False) :=
  (PcInv.unlocked hu).mp (h.at hm)

theorem Inv.not_live (h : Inv s) (hc : (s.cpu c).proc = none) (p : Slot) :
    s.ctx p ≠ .live c := by
  intro hl
  obtain ⟨pc, hm⟩ := h.live p c hl
  exact absurd ((h.at hm).1.symm.trans hc) (by simp)

/-! ## Steps -/

theorem Inv.moveIdle (h : Inv s) {l : Slot → Option (Fin n)}
    (hproc : (s.cpu c).proc = none) (hl : ∀ c', c' ≠ c → ∀ q, l q = some c' ↔ s.lock q = some c')
    (hpc : PcInv ({ s with lock := l }.goto c (.sched pc)) c pc) :
    Inv ({ s with lock := l }.goto c (.sched pc)) := by
  refine h.move (c := c) ?_ ?_ ?_ ?_ ?_
  · intro c' hc
    exact ⟨update_of_ne hc _ _, hl c' hc, fun _ _ => ⟨Iff.rfl, rfl⟩⟩
  · simpa [ModeInv] using hpc
  · intro p hp
    exact .inr ⟨hp, by rw [hproc]; simp⟩
  · intro p c' hp
    refine .inr ⟨?_, hp⟩
    rintro rfl
    exact h.not_live hproc p hp
  · intro p hp
    simp [hproc] at hp

theorem Inv.gotoHolding (h : Inv s) (hproc : (s.cpu c).proc = none)
    (hpc : PcInv (s.goto c (.sched pc)) c pc) : Inv (s.goto c (.sched pc)) :=
  h.moveIdle hproc (fun _ _ _ => Iff.rfl) hpc

theorem Inv.goto (h : Inv s) {pc' : Pc} (hm : (s.cpu c).mode = .sched pc)
    (hu : pc.Unlocked) (hu' : pc'.Unlocked) : Inv (s.goto c (.sched pc')) := by
  obtain ⟨hproc, hlock⟩ := h.proc_of_unlocked hm hu
  exact h.gotoHolding hproc ((PcInv.unlocked hu').mpr ⟨by simpa using hproc, hlock⟩)

theorem Inv.setProc (h : Inv s) {q : Slot} (hr : r.state = .running ↔ (s.proc q).state = .running) :
    Inv (s.setProc q r) := by
  have hstate : ∀ p, ((s.setProc q r).proc p).state = .running ↔ (s.proc p).state = .running := by
    intro p
    by_cases hp : p = q
    · subst hp; simpa using hr
    · simp [hp]
  have hframe : ∀ c, Frame s (s.setProc q r) c :=
    fun c => ⟨rfl, fun _ => Iff.rfl, fun p _ => ⟨hstate p, rfl⟩⟩
  exact ⟨fun c => (hframe c).modeInv (h.cpu c), fun p hp => h.running p ((hstate p).mp hp),
    h.live, h.unique⟩

theorem setLock_other (hp : s.lock p = none ∨ s.lock p = some c)
    (ho : o = none ∨ o = some c) (hc : c' ≠ c) (q : Slot) :
    (s.setLock p o).lock q = some c' ↔ s.lock q = some c' := by
  by_cases hq : q = p
  · subst hq
    have h1 : s.lock q ≠ some c' := by grind
    have h2 : o ≠ some c' := by grind
    simp [h1, h2]
  · simp [hq]

theorem Inv.dispatch (h : Inv s) {k : Pc} (hproc : (s.cpu c).proc = none)
    (hlock : ∀ q, q ≠ p → s.lock q ≠ some c) (hp : s.lock p = none ∨ s.lock p = some c)
    (hs : (s.proc p).state = .runnable) (hr : r.state = .running) (hk : k.Unlocked) :
    Inv (dispatch s c p r k) := by
  have hidle := h.idle (p := p) (by
    intro c' hc'
    rcases hp with hp | hp
    · rw [hp] at hc'; cases hc'
    · rw [hp] at hc'
      cases hc'
      exact hproc) (by rw [hs]; simp)
  refine h.move (c := c) ?_ ?_ ?_ ?_ ?_
  · intro c' hc
    refine ⟨by simp [hc], setLock_other hp (.inr rfl) hc, ?_⟩
    · intro q hq
      have hqp : q ≠ p := by rintro rfl; exact hidle.1 c' hq
      simp [hqp]
  · rw [Sched.dispatch, goto_mode]
    refine ⟨?_, ?_, ?_, hidle.2, hk⟩
    · simp
    · intro q
      by_cases hq : q = p
      · subst hq
        simp
      · simpa [hq] using hlock q hq
    · simpa using hr
  · intro q hq
    by_cases hqp : q = p
    · subst hqp
      simp
    · right
      rw [hproc]
      simpa [hqp] using hq
  · intro q c' hq
    refine .inr ⟨?_, hq⟩
    rintro rfl
    exact h.not_live hproc q hq
  · intro q hq c' _
    have : q = p := by simpa [eq_comm] using hq
    subst this
    exact hidle.1 c'

theorem Inv.setLock (h : Inv s) (hproc : (s.cpu c).proc = none)
    (hp : s.lock p = none ∨ s.lock p = some c) (ho : o = none ∨ o = some c)
    (hpc : PcInv ((s.setLock p o).goto c (.sched pc)) c pc) :
    Inv ((s.setLock p o).goto c (.sched pc)) :=
  h.moveIdle hproc (fun _ hc q => setLock_other hp ho hc q) hpc

theorem Inv.proc_ne (h : Inv s) {q : Slot} (hp : (s.cpu c).proc = some p) (hne : c' ≠ c)
    (hq : (s.cpu c').proc = some q) : q ≠ p := by
  rintro rfl
  exact hne (h.unique c' c q hq hp)

theorem Inv.switched (h : Inv s) {x : Context n} {v : Cpu}
    (hproc : (s.cpu c).proc = some p) (hv : v.proc = some p)
    (hx : ∀ c', x = .live c' → c' = c ∧ ∃ pc, v.mode = .thread p pc)
    (hmode : ModeInv { s with ctx := update s.ctx p x, cpu := update s.cpu c v } c v.mode) :
    Inv { s with ctx := update s.ctx p x, cpu := update s.cpu c v } := by
  refine h.move (c := c) ?_ ?_ ?_ ?_ ?_
  · intro c' hne
    refine ⟨by simp [hne], fun _ => Iff.rfl, ?_⟩
    intro q hq
    simp [h.proc_ne hproc hne hq]
  · simpa using hmode
  · grind
  · intro q c' hq
    by_cases hqp : q = p
    · grind
    · refine .inr ⟨?_, by simpa [hqp] using hq⟩
      rintro rfl
      obtain ⟨pc, hpc⟩ := h.live q c' (by simpa [hqp] using hq)
      exact hqp (Option.some.inj ((h.at hpc).1.symm.trans hproc))
  · grind [h.unique]

theorem Inv.swtch (h : Inv s) {k : Pc} (hm : (s.cpu c).mode = .sched (.swtch p k)) :
    Inv { s with
      ctx := update s.ctx p (.live c)
      cpu := update s.cpu c
        { s.cpu c with context := .back p k, mode := .thread p .resumed } } := by
  obtain ⟨hproc, hlock, hrun, -, hk⟩ := h.at hm
  refine h.switched hproc hproc ?_ ?_
  · rintro c' ⟨⟩
    exact ⟨rfl, _, rfl⟩
  · exact ⟨by simpa using hproc, by simp, ⟨k, by simp, hk⟩, hlock, hrun⟩

theorem Inv.back (h : Inv s) {k : Pc} (hm : (s.cpu c).mode = .sched (.back p k)) :
    Inv (((s.setCpuProc c none).setLock p none).goto c (.sched k)) := by
  obtain ⟨hproc, hlock, hrun, -, hk⟩ := h.at hm
  refine h.move (c := c) ?_ ?_ ?_ ?_ ?_
  · intro c' hne
    exact ⟨by simp [hne], setLock_other (.inr ((hlock p).mpr rfl)) (.inl rfl) hne,
      fun _ _ => ⟨Iff.rfl, rfl⟩⟩
  · rw [goto_mode]
    refine (PcInv.unlocked hk).mpr ⟨by simp, ?_⟩
    intro q
    by_cases hq : q = p
    · simp [hq]
    · simpa [hq] using (hlock q).not.mpr hq
  · intro q hq
    right
    refine ⟨hq, ?_⟩
    rintro h'
    rw [hproc] at h'
    cases h'
    exact hrun hq
  · intro q c' hq
    refine .inr ⟨?_, hq⟩
    rintro rfl
    obtain ⟨pc, hpc⟩ := h.live q _ hq
    rw [hm] at hpc
    cases hpc
  · intro q hq
    simp at hq

theorem Inv.thread (h : Inv s) {pc pc' : ThreadPc} (hm : (s.cpu c).mode = .thread p pc)
    (hp : s.lock p = none ∨ s.lock p = some c)
    (hpc : (pc' = .running ∧ o = none ∧ r.state = .running) ∨
      (pc' = .leaving ∧ o = some c ∧ r.state ≠ .running)) :
    Inv (((s.setLock p o).setProc p r).goto c (.thread p pc')) := by
  obtain ⟨hproc, hctx, hcontext, hthread⟩ := h.at hm
  have hother : ∀ q, q ≠ p → s.lock q ≠ some c := by
    intro q hq
    cases pc <;> simp [hthread.1 q, hq]
  refine h.move (c := c) ?_ ?_ ?_ ?_ ?_
  · intro c' hne
    refine ⟨by simp [hne], setLock_other hp (by grind) hne, ?_⟩
    intro q hq
    simp [h.proc_ne hproc hne hq]
  · rw [goto_mode]
    refine ⟨by simpa using hproc, hctx,
      by simpa using hcontext, ?_⟩
    rcases hpc with ⟨rfl, rfl, hr⟩ | ⟨rfl, rfl, hr⟩
    all_goals
      refine ⟨?_, by simpa using hr⟩
      intro q
      by_cases hq : q = p
      · simp [hq]
      · simpa [hq] using hother q hq
  · intro q hq
    by_cases hqp : q = p
    · left; simpa [hqp] using hproc
    · right
      refine ⟨by simpa [hqp] using hq, ?_⟩
      rw [hproc]
      simpa [eq_comm] using hqp
  · intro q c' hq
    by_cases hcc : c' = c
    · subst hcc
      obtain ⟨pc1, hpc1⟩ := h.live q _ hq
      obtain ⟨rfl, -⟩ : p = q ∧ pc = pc1 := by simpa [hm] using hpc1
      exact .inl ⟨rfl, ⟨pc', by simp⟩⟩
    · exact .inr ⟨hcc, hq⟩
  · intro q hq c' hne hq'
    have hq : (s.cpu c).proc = some q := by simpa using hq
    exact hne (h.unique c' c q hq' hq)

theorem Inv.threadSwtch (h : Inv s) (hm : (s.cpu c).mode = .thread p .leaving) :
    Inv { s with
      ctx := update s.ctx p .saved
      cpu := update s.cpu c { s.cpu c with mode := .sched (s.cpu c).context } } := by
  obtain ⟨hproc, hctx, ⟨k, hcontext, hk⟩, hlock, hrun⟩ := h.at hm
  refine h.switched hproc hproc (by simp) ?_
  simp only [hcontext]
  exact ⟨by simpa using hproc, hlock, hrun, by simp, hk⟩

/-! ## What a step leaves of the other CPUs -/

theorem SchedStep.cpu_other (h : SchedStep b c' s s') (hne : c ≠ c') : s'.cpu c = s.cpu c := by
  cases h <;>
    simp [update_of_ne hne]

theorem ThreadStep.cpu_other (h : ThreadStep c' s s') (hne : c ≠ c') : s'.cpu c = s.cpu c := by
  cases h <;>
    simp [update_of_ne hne]

theorem SectionStep.cpu_eq (h : SectionStep c' s s') : s'.cpu = s.cpu := by cases h <;> rfl

theorem ThreadStep.mode (h : ThreadStep c s s') : ∃ p pc, (s.cpu c).mode = .thread p pc := by
  cases h with
  | release p hm | yield p hm | sleep p _ hm | exit p _ hm | swtch p hm => exact ⟨p, _, hm⟩

theorem goto_goto (s : State n) (c : Fin n) (m m' : Mode) :
    (s.goto c m).goto c m' = s.goto c m' := by
  simp

theorem goto_self (h : (s.cpu c).mode = m) : s.goto c m = s := by
  subst h
  simp

/-! ## Every step keeps the invariant -/

theorem afterScan_unlocked (o : Option Slot) : (afterScan o).Unlocked := by cases o <;> trivial

theorem afterSelect_unlocked (q : Nat) (o : Option Slot) : (afterSelect q o).Unlocked := by
  cases o with
  | none => by_cases hq : q < 3 <;> simp [afterSelect, hq, Pc.Unlocked]
  | some => trivial

theorem drawStep_winner (proc : Slot → Proc) (i : Slot) (random : Int) (winner : Option Slot) :
    (drawStep proc i random winner).2 = winner ∨
      (winner = none ∧ (drawStep proc i random winner).2 = some i) := by
  unfold drawStep
  split
  · grind
  · exact .inl rfl

section

variable (h : Inv s)

include h

theorem Inv.total {t t' : Int} (hm : (s.cpu c).mode = .sched (.total i t))
    (hl : s.lock i = none) : Inv ((s.setLock i (some c)).goto c (.sched (.total (i + 1) t'))) := by
  obtain ⟨hproc, hlock⟩ := h.at hm
  refine h.setLock hproc (.inl hl) (.inr rfl)
    ⟨by simpa using hproc, ?_⟩
  intro q
  by_cases hq : q = i
  · simp [hq]
  · have : q.val ≠ i.val := fun e => hq (Fin.ext e)
    simp only [State.goto, State.setLock, update_of_ne hq, hlock q]
    omega

theorem Inv.drawKeep {r r' : Int}
    (hm : (s.cpu c).mode = .sched (.draw i r w)) (hw : (drawStep s.proc i r w).2 = some i) :
    Inv (s.goto c (.sched (.draw (i + 1) r' (some i)))) := by
  obtain ⟨hproc, hlock, hlt⟩ := h.at hm
  have hnone : w = none := by grind [drawStep_winner]
  refine h.gotoHolding hproc ⟨by simpa using hproc, ?_, ?_⟩
  · intro q
    refine (hlock q).trans ?_
    simp only [Option.some.injEq, Fin.ext_iff]
    constructor
    · grind
    · intro h'
      omega
  · simp

theorem Inv.drawDrop {r r' : Int}
    (hm : (s.cpu c).mode = .sched (.draw i r w)) (hw : (drawStep s.proc i r w).2 ≠ some i) :
    Inv ((s.setLock i none).goto c (.sched (.draw (i + 1) r' (drawStep s.proc i r w).2))) := by
  obtain ⟨hproc, hlock, hlt⟩ := h.at hm
  have hsame : (drawStep s.proc i r w).2 = w := by grind [drawStep_winner]
  refine h.setLock hproc (.inr ((hlock i).mpr (.inl (Nat.le_refl _)))) (.inl rfl)
    ⟨by simpa using hproc, ?_, ?_⟩
  · intro q
    by_cases hq : q = i
    · subst hq
      simpa using hw
    · simp only [State.goto, State.setLock, update_of_ne hq, hlock q]
      grind
  · grind

theorem Inv.drawn {r : Int} (hm : (s.cpu c).mode = .sched (.draw nproc r w)) :
    (s.cpu c).proc = none ∧ Holds s c (fun q => w = some q) := by
  have hc := h.at hm
  refine ⟨hc.1, fun q => (hc.2.1 q).trans ?_⟩
  constructor
  · grind
  · exact .inr

theorem Inv.schedStep (hstep : SchedStep b c s s') : Inv s' := by
  -- dispatch from a point without locks
  have hdispatch : ∀ {pc : Pc} {p : Slot} {r : Proc} {k : Pc}, (s.cpu c).mode = .sched pc →
      pc.Unlocked → s.lock p = none → (s.proc p).state = .runnable → r.state = .running →
      k.Unlocked → Inv (Sched.dispatch s c p r k) := by
    intro pc p r k hm hu hl hs hr hk
    obtain ⟨hproc, hlock⟩ := h.proc_of_unlocked hm hu
    exact h.dispatch hproc (fun q _ => (hlock q).not.mpr id) (.inl hl) hs hr hk
  cases hstep with
  | top hm =>
    cases b with
    | LBS =>
      obtain ⟨hproc, hlock⟩ := h.proc_of_unlocked hm trivial
      exact h.gotoHolding hproc ⟨by simpa using hproc,
        fun q => (hlock q).trans (by simp)⟩
    | _ => exact h.goto hm trivial trivial
  | rrSkip _ hm | rrEnd hm | scan _ _ hm | pickSkip _ hm | demoteEnd hm | ageEnd hm
  | select _ _ _ hm | rr4Skip _ hm | rr4End hm => exact h.goto hm trivial trivial
  | rrRun _ hm hl hs | pickRun _ hm hl hs | rr4Run _ hm hl hs =>
    exact hdispatch hm trivial hl hs rfl trivial
  | scanEnd best hm => exact h.goto hm trivial (afterScan_unlocked best)
  | total _ _ hm hl => exact h.total hm hl
  | totalEnd _ _ hm =>
    have hc := h.at hm
    refine h.gotoHolding hc.1 ⟨by simpa using hc.1, ?_, by simp⟩
    intro q
    exact (hc.2 q).trans (by simp)
  | drawKeep _ _ _ hm hw => exact h.drawKeep hm hw
  | drawDrop _ _ _ hm hw => exact h.drawDrop hm hw
  | drawNone _ hm =>
    obtain ⟨hproc, hlock⟩ := h.drawn hm
    exact h.gotoHolding hproc ⟨by simpa using hproc,
      fun q => (hlock q).trans (by simp)⟩
  | drawRun _ w hm hs =>
    obtain ⟨hproc, hlock⟩ := h.drawn hm
    exact h.dispatch hproc (fun q hq => (hlock q).not.mpr (by simpa [eq_comm] using hq))
      (.inr ((hlock w).mpr rfl)) hs rfl trivial
  | drawSkip _ w hm =>
    obtain ⟨hproc, hlock⟩ := h.drawn hm
    refine h.setLock hproc (.inr ((hlock w).mpr rfl)) (.inl rfl)
      ⟨by simpa using hproc, ?_⟩
    intro q
    by_cases hq : q = w
    · simp [hq]
    · simpa [hq, eq_comm] using (hlock q).not.mpr
        (by simpa [eq_comm] using hq)
  | demote _ hm => exact (h.setProc (by rw [demoteStep_state])).goto hm trivial trivial
  | age _ hm => exact (h.setProc (by rw [ageStep_state])).goto hm trivial trivial
  | selectEnd q best hm => exact h.goto hm trivial (afterSelect_unlocked q best)
  | swtch _ _ hm => exact h.swtch hm
  | back _ _ hm => exact h.back hm

theorem Inv.threadStep (hstep : ThreadStep c s s') : Inv s' := by
  cases hstep with
  | release p hm =>
    obtain ⟨-, -, -, hlock, hrun⟩ := h.at hm
    have hself : s.setLock p none = (s.setLock p none).setProc p (s.proc p) := by simp
    rw [hself]
    exact h.thread hm (.inr ((hlock p).mpr rfl)) (.inl ⟨rfl, rfl, hrun⟩)
  | yield _ hm hl => exact h.thread hm (.inl hl) (.inr ⟨rfl, rfl, by simp [Proc.yield_state]⟩)
  | sleep _ _ hm hl => exact h.thread hm (.inl hl) (.inr ⟨rfl, rfl, by simp [Proc.sleep]⟩)
  | exit _ _ hm hl => exact h.thread hm (.inl hl) (.inr ⟨rfl, rfl, by simp [Proc.exit]⟩)
  | swtch _ hm => exact h.threadSwtch hm

theorem Inv.sectionStep (hstep : SectionStep c s s') : Inv s' := by
  cases hstep with
  | wakeup q chan =>
    rcases Proc.wakeup_state s.ticks chan (s.proc q) with hs | ⟨hs, hs'⟩
    · exact h.setProc (by rw [hs])
    · exact h.setProc (by simp [hs, hs'])
  | kill q =>
    rcases Proc.kill_state (s.proc q) with hs | ⟨hs, hs'⟩
    · exact h.setProc (by rw [hs])
    · exact h.setProc (by simp [hs, hs'])
  | allocproc q _ hl hs =>
    -- a free slot is on no CPU, so its context was saved already
    have hctx : s.ctx q = .saved := (h.idle (by simp [hl]) (by simp [hs])).2
    rw [update_eq_self_iff.mpr hctx.symm]
    exact h.setProc (by simp [hs, Proc.enterQueue, Proc.allocate])
  | allocFail _ _ _ hs | reap _ _ hs => exact h.setProc (by simp [hs, Proc.free])
  | forked _ _ hs => exact h.setProc (by simp [hs])
  | setPriority | settickets => exact h.setProc Iff.rfl
  | updateTime => exact h.setProc (by rw [Proc.updateTime_state])
  | clockintr =>
    have hframe : ∀ c, Frame s { s with ticks := (s.ticks + 1) % 2 ^ 32 } c :=
      fun c => ⟨rfl, fun _ => Iff.rfl, fun _ _ => ⟨Iff.rfl, rfl⟩⟩
    exact { h with cpu := fun c => (hframe c).modeInv (h.cpu c) }

theorem Inv.step (hstep : Step b s s') : Inv s' := by
  cases hstep with
  | sched _ hc => exact h.schedStep hc
  | thread _ hc => exact h.threadStep hc
  | locked _ hc => exact h.sectionStep hc

end

theorem Initial.inv (h : Initial s) : Inv s where
  cpu c := by
    rw [(h.cpu c).2]
    exact ⟨(h.cpu c).1, fun q => by simp [h.lock q]⟩
  running p hp := by
    rw [h.proc p] at hp
    split at hp <;> cases hp
  live p c hp := by
    rw [h.ctx p] at hp
    cases hp
  unique c c' p hp := by
    rw [(h.cpu c).1] at hp
    cases hp

theorem Reachable.inv (h : Reachable b s) : Inv s := by
  obtain ⟨s0, hs0, hrun⟩ := h
  induction hrun with
  | refl => exact hs0.inv
  | tail _ hstep ih => exact ih.step hstep

/-! ## The result -/

/-- Outside the sections of its own lock a process is RUNNING iff it is the current process of
exactly one CPU; and a CPU that is about to `swtch` to a process finds its context completely
saved, with no other CPU executing its thread. -/
theorem runs_on_one_cpu (b : Build) (n : Nat) (s : State n) (h : Reachable b s) :
    (∀ p, s.lock p = none → ((s.proc p).state = .running ↔ ∃! c, (s.cpu c).proc = some p)) ∧
    (∀ c p k, (s.cpu c).mode = .sched (.swtch p k) →
      s.ctx p = .saved ∧ ∀ c' pc, (s.cpu c').mode ≠ .thread p pc) := by
  have hinv := h.inv
  refine ⟨?_, ?_⟩
  · intro p hl
    constructor
    · intro hrun
      obtain ⟨c, hc⟩ := hinv.running p hrun
      exact ⟨c, hc, fun c' hc' => hinv.unique c' c p hc' hc⟩
    · rintro ⟨c, hc, -⟩
      exact (hinv.thread_of_free hc (by simp [hl])).2
  · intro c p k hm
    obtain ⟨-, -, -, hsaved, -⟩ := hinv.at hm
    refine ⟨hsaved, ?_⟩
    intro c' pc hm'
    exact absurd (hsaved.symm.trans (hinv.at hm').2.1) (by simp)

def boot (n : Nat) : State n where
  proc p := { state := if p = initproc then .runnable else .unused }
  lock _ := none
  ctx _ := .saved
  cpu _ := { proc := none, context := .top, mode := .sched .top }
  ticks := 0

/-- Two CPUs, round robin: CPU 0 finds `initproc` RUNNABLE and is about to switch to it. -/
def bootPicked : State 2 :=
  dispatch ((boot 2).goto 0 (.sched (.rr 0))) 0 initproc
    (dispatched .RR 0 ((boot 2).proc initproc)) (.rr 1)

/-- The thread of `initproc` has been resumed on CPU 0 and has released its lock. -/
def bootRunning : State 2 :=
  ({ bootPicked with
      ctx := update bootPicked.ctx initproc (.live 0)
      cpu := update bootPicked.cpu 0
        { bootPicked.cpu 0 with context := .back initproc (.rr 1)
                                mode := .thread initproc .resumed } }.setLock initproc none).goto 0
    (.thread initproc .running)

theorem reachable_bootPicked : Reachable .RR bootPicked := by
  refine ⟨boot 2, ⟨fun _ => rfl, fun _ => rfl, fun _ => rfl, fun _ => ⟨rfl, rfl⟩⟩, ?_⟩
  refine .tail (.tail .refl (.sched 0 (.top _ rfl))) (.sched 0 ?_)
  exact SchedStep.rrRun _ initproc rfl rfl rfl

theorem reachable_bootRunning : Reachable .RR bootRunning := by
  obtain ⟨s0, h0, hrun⟩ := reachable_bootPicked
  refine ⟨s0, h0, .tail (.tail hrun (.sched 0 (.swtch _ initproc (.rr 1) rfl))) (.thread 0 ?_)⟩
  exact ThreadStep.release _ initproc rfl

theorem runs_on_one_cpu_boot : (bootPicked.ctx initproc = .saved ∧
      ∀ c pc, (bootPicked.cpu c).mode ≠ .thread initproc pc) ∧
    (bootRunning.proc initproc).state = .running ∧
    ∃! c, (bootRunning.cpu c).proc = some initproc :=
  ⟨(runs_on_one_cpu .RR 2 bootPicked reachable_bootPicked).2 0 initproc (.rr 1) rfl, rfl,
    ((runs_on_one_cpu .RR 2 bootRunning reachable_bootRunning).1 initproc rfl).mp rfl⟩

end Xv6.Sched
