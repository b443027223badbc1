import Xv6.Kernel.ForkSpec

/-!
# Traps as acts

What the handlers of `kernel/trap.c` do to memory, from any state in which the invariant holds
and the process has one.
-/

namespace Xv6

open ByteMem

variable {L : Layout} {k k' : Kernel} {g g' : Account} {p c : Slot} {r t : Nat}

/-- The panics of most steps: a store fault at an address that `walk` does not take, and the end of
the first process. -/
def Stops (e : Panic) : Prop := e = .walk ∨ e = .initExiting

/-- An alarm of `p` is due, and there is no page for the trapframe: `memmove` writes at address
`0`. -/
def Kernel.NoBackup (k : Kernel) (p : Slot) (e : Panic) : Prop :=
  e = .kerneltrap ∧ (k.proc p).alarmDue = true ∧ k.km.freelist = 0

theorem Act.live {l : Label} (ha : Act L l k g k' g') (hl : l ≠ .destroy p)
    (hp : k.Live p) : k'.Live p := by
  have honly : ∀ {q : Slot} {h : Hold}, Only k k' q h → (p = q → h.live = true) → k'.Live p := by
    intro q h ho hh
    by_cases he : p = q
    · rw [Kernel.Live, he, ho.self]
      exact hh he
    · exact hp.congr (ho.other p he)
  cases ha with
  | calm _ _ hs | frame _ _ _ _ hs | grow _ _ _ _ hs
  | replace _ _ _ _ _ hs | write _ _ _ _ _ hs => exact hp.congr (hs.hold p)
  | create _ _ _ _ _ _ _ _ ho => exact honly ho fun _ => rfl
  | destroy _ _ _ _ _ _ _ ho => exact honly ho fun he => absurd (by rw [he]) hl
  | extend hq _ _ _ _ _ ho | shrink hq _ _ _ _ _ ho | exec hq _ _ _ _ _ _ ho
  | deliver hq _ _ _ _ _ _ _ _ _ _ ho | restore hq _ _ _ _ _ _ _ _ _ _ _ ho =>
    exact honly ho fun _ => hq
  | share _ _ hc _ _ _ _ _ _ _ _ ho => exact honly ho fun _ => hc
  | pageIn _ _ _ hh | pageOut _ _ _ hh => exact hp.congr (hh p)

theorem Acts.live {P : Label → Prop} (h : Acts L P k g k' g') (hP : ¬ P (.destroy p))
    (hp : k.Live p) : k'.Live p := by
  induction h with
  | refl => exact hp
  | tail _ hl ha ih =>
    refine ha.live ?_ ih
    rintro rfl
    exact hP hl

/-! ## Code of a process -/

/-- From any state, `m` is a sequence of acts with labels in `P` while process `p` lives. -/
structure Does {α : Type} (L : Layout) (p : Slot) (P : Label → Prop) (m : K α) : Prop where
  run : ∀ k g, KInv L k g → (k.proc p).hold.live = true →
    Wp Stops m k fun _ k' => ∃ g', Acts L P k g k' g'

section Rules

variable {α β : Type} {P Q : Label → Prop} {m : K α} {f : α → K β}

theorem Does.pure (a : α) : Does L p P (pure a : K α) := ⟨fun _ g _ _ => .pure ⟨g, .refl⟩⟩

theorem Does.get : Does L p P (get : K Kernel) := ⟨fun _ g _ _ => .get ⟨g, .refl⟩⟩

theorem Does.mono (h : Does L p P m) (hPQ : ∀ l, P l → Q l) : Does L p Q m := by
  constructor
  intro k g hk hp
  refine (h.run k g hk hp).mono ?_
  rintro a k' ⟨g', ha⟩
  exact ⟨g', ha.mono hPQ⟩

theorem Does.after {k1 : Kernel} {g1 : Account} (h : Does L p P m) (hk : KInv L k g)
    (ha : Acts L P k g k1 g1) (hp : k1.Live p) :
    Wp Stops m k1 fun _ k' => ∃ g', Acts L P k g k' g' := by
  refine (h.run k1 g1 (ha.inv hk) hp).mono ?_
  rintro a k' ⟨g', hb⟩
  exact ⟨g', ha.trans hb⟩

theorem Does.bind (hP : ¬ P (.destroy p)) (h : Does L p P m) (hf : ∀ a, Does L p P (f a)) :
    Does L p P (m >>= f) := by
  constructor
  intro k g hk hp
  refine (h.run k g hk hp).seq ?_
  rintro a k1 ⟨g1, ha⟩
  exact (hf a).after hk ha (ha.live hP hp)

theorem Does.ite {c : Prop} [Decidable c] {m' : K α} (h : c → Does L p P m)
    (h' : ¬ c → Does L p P m') : Does L p P (if c then m else m') := by
  split
  · next hc => exact h hc
  · next hc => exact h' hc

theorem Does.loadTf (off : Nat) : Does L p P (loadTf p off) := ⟨fun _ g _ _ => Wp.loadTf ⟨g, .refl⟩⟩

theorem Does.storeTf {off : Nat} (hP : P (.frame p)) (h1 : off % 8 = 0) (h2 : off < 4096)
    (w : BitVec 64) : Does L p P (storeTf p off w) := by
  constructor
  intro k g hk hp
  refine (storeTf_spec hk hp h1 h2 w).mono ?_
  rintro - k' ⟨ha, -⟩
  exact ⟨g, .single hP ha⟩

theorem Does.setMode (hP : P .calm) (mode : Mode) : Does L p P (setMode p mode) :=
  ⟨fun _ g hk _ => Wp.setMode ⟨g, Acts.single hP (Act.ofSame hk rfl (Same.ofProc rfl rfl))⟩⟩

theorem Does.setProc {q : Slot} {f : Proc → Proc} (hP : P .calm) (hf : ∀ r, (f r).hold = r.hold) :
    Does L p P (setProc q f) := by
  constructor
  intro k g hk _
  refine (setProc_spec hk (hf _)).mono ?_
  rintro - k' ⟨ha, -⟩
  exact ⟨g, .single hP ha⟩

theorem Does.setOwn {f : Proc → Proc} (hP : P .calm)
    (hf : ∀ r : Proc, r.state ≠ .unused → (f r).hold = r.hold) : Does L p P (Xv6.setProc p f) := by
  constructor
  intro k g hk hp
  refine (setProc_spec hk (hf _ ((Proc.live_iff _).mp hp))).mono ?_
  rintro - k' ⟨ha, -⟩
  exact ⟨g, .single hP ha⟩

theorem Does.exit (hP : P .calm) (status : Int) : Does L p P (exit p status) := by
  constructor
  intro k g hk hp
  refine (exit_spec (.inr rfl) hk hp status).mono ?_
  intro _ k' ha
  exact ⟨g, .single hP ha⟩

theorem Does.yield (hP : P .calm) : Does L p P (yield p) := by
  constructor
  intro k g hk hp
  refine (yield_spec hk hp).mono ?_
  intro _ k' ha
  exact ⟨g, .single hP ha⟩

end Rules

/-! ## `usertrap` -/

/-- The labels of code that writes no memory but the trapframe of `p`. -/
def OwnFrame (p : Slot) (l : Label) : Prop := l = .calm ∨ l = .frame p

theorem ownFrame_destroy : ¬ OwnFrame p (.destroy c) := by rintro (h | h) <;> cases h

/-- The words at `a` are those of a trapframe with the registers and the program counter of
`u`. -/
structure Saves (u : User) (m : Mem) (a : Nat) : Prop where
  reg : ∀ i, 1 ≤ i → i < 32 → load64 m (a + tfReg i) = u.regs i
  epc : load64 m (a + tfEpc) = u.pc

theorem saves_uservec (m : Mem) (a : Nat) (u : User) :
    Saves u (store64 (blit m (a + tfReg 1) (regBytes u.regs) 248) (a + tfEpc) u.pc) a where
  reg i h1 h2 := by
    have hoff : tfEpc + 8 ≤ tfReg i ∧ tfReg i = tfReg 1 + 8 * (i - 1) := by
      unfold tfEpc tfReg
      omega
    rw [load64_congr (store64_agree _ _ (by omega))]
    apply load64_eq
    intro j hj
    have hb := blit_at m (regBytes u.regs) (a := a + tfReg 1) (n := 248) (i := 8 * (i - 1) + j)
      (by omega)
    have hdiv : (8 * (i - 1) + j) / 8 + 1 = i := by omega
    have hmod : (8 * (i - 1) + j) % 8 = j := by omega
    rw [regBytes, hdiv, hmod] at hb
    rw [← hb]
    congr 1
    omega
  epc := load64_store64 _ _ _

theorem Saves.copy {u : User} {m m' : Mem} {a b : Nat} (h : Saves u m a)
    (hc : ∀ i, i < sizeofTrapframe → m' (b + i) = m (a + i)) : Saves u m' b := by
  have hword : ∀ off, off + 8 ≤ sizeofTrapframe → load64 m' (b + off) = load64 m (a + off) := by
    intro off hoff
    apply load64_copy
    intro i hi
    rw [Nat.add_assoc, Nat.add_assoc]
    exact hc _ (by omega)
  constructor
  · grind [h.reg, tfReg, sizeofTrapframe]
  · rw [hword _ (by decide)]
    exact h.epc

theorem uservec_spec {E : Panic → Prop} (hk : KInv L k g) (hp : k.Live p) :
    Wp E (uservec p) k fun _ k' => (k'.proc = k.proc ∧ k'.user = k.user ∧
      Saves (k.user p) k'.km.mem (k'.proc p).trapframe ∧
      ∀ t, (k.proc p).trapframe = t * pgsize → OnlyPage t k.km.mem k'.km.mem) ∧
      Acts L (OwnFrame p) k g k' g := by
  obtain ⟨r, t, -, ht, -⟩ := hk.user hp
  refine .bind (.get (.bind (Wp.vm (Wp.memput ?_))))
  have hblit : OnlyPage t k.km.mem
      (blit k.km.mem ((k.proc p).trapframe + tfReg 1) (regBytes (k.user p).regs) 248) := by
    rw [ht]
    exact onlyPage_blit _ _ _ (by rw [pgsize_eq]; decide)
  have hsave : Act L (.frame p) k g { k with km := { k.km with
      mem := blit k.km.mem ((k.proc p).trapframe + tfReg 1) (regBytes (k.user p).regs) 248 } } g :=
    Act.ofFrame hp ht hblit
  refine (storeTf_spec (hsave.inv hk) hp (by decide) (by decide) _).mono ?_
  rintro - k' ⟨ha, rfl⟩
  refine ⟨⟨rfl, rfl, saves_uservec _ _ _, ?_⟩, (Acts.single (.inr rfl) hsave).tail (.inr rfl) ha⟩
  intro t' ht'
  obtain rfl : t' = t := mul_pgsize_inj (ht'.symm.trans ht)
  refine hblit.trans ?_
  rw [ht]
  exact onlyPage_tf _ _ (by decide) (by decide) _

theorem uservec_does : Does L p (OwnFrame p) (uservec p) :=
  ⟨fun _ g hk hp => (uservec_spec hk hp).mono fun _ _ h => ⟨g, h.2⟩⟩

theorem trapEcall_does : Does L p (OwnFrame p) (trapEcall p) := by
  refine uservec_does.bind ownFrame_destroy fun _ => Does.get.bind ownFrame_destroy fun k => ?_
  apply Does.ite
  · intro _
    exact .exit (.inl rfl) _
  · intro _
    apply (Does.loadTf _).bind ownFrame_destroy
    intro epc
    apply (Does.storeTf (.inr rfl) (by decide) (by decide) _).bind ownFrame_destroy
    intro _
    exact .setMode (.inl rfl) _

theorem dieNow_does {P : Label → Prop} (hP : P .calm) (hd : ¬ P (.destroy p)) :
    Does L p P (dieNow p) := by
  refine .bind hd (.setProc hP ?_) fun _ => .exit hP _
  exact fun _ => rfl

theorem trapOther_does (exception : Bool) : Does L p (OwnFrame p) (trapOther p exception) := by
  apply uservec_does.bind ownFrame_destroy
  intro _
  apply Does.ite
  · intro _
    refine .bind ownFrame_destroy (.setProc (.inl rfl) ?_) fun _ =>
      Does.setMode (.inl rfl) _
    exact fun _ => rfl
  · intro _
    exact .setMode (.inl rfl) _

theorem trapLeave_does {P : Label → Prop} (hP : P .calm) (hd : ¬ P (.destroy p)) :
    Does L p P (trapLeave p) := by
  apply Does.get.bind hd
  intro k
  apply Does.ite
  · intro _
    exact .exit hP _
  · intro _
    exact .setMode hP _

theorem usertrapret_does (hartid : BitVec 64) : Does L p (OwnFrame p) (usertrapret L p hartid) := by
  iterate 4
    refine (Does.storeTf (.inr rfl) (by decide) (by decide) _).bind ownFrame_destroy fun _ => ?_
  constructor
  intro k g hk _
  exact .modify ⟨g, .single (.inl rfl) (Act.ofSame hk rfl (Same.ofProc rfl rfl))⟩

def Faulting (p : Slot) (l : Label) : Prop := OwnFrame p l ∨ l = .replace p

theorem faulting_destroy : ¬ Faulting p (.destroy c) := by
  rintro (h | h)
  · exact ownFrame_destroy h
  · cases h

theorem copyFault_does {v f : Nat} (hk : KInv L k g)
    (hp : k.Live p) (hr : (k.proc p).hold.pagetable = r * pgsize)
    (hn : g.node r (.leaf (v / 512)) = some f) (hu : (g.map r v).getLsbD 4 = true) :
    Wp Stops (do
      record p (.faulted v)
      if ← vm (copyPage L (pteAddr f v)) then
        setMode p .leave
      else
        dieNow p) k fun _ k' => ∃ g', Acts L (Faulting p) k g k' g' := by
  have ht := hk.sound.table r (hk.live_root hp hr)
  have hmap : g.map r v ≠ 0 := getLsbD_ne_zero hu
  have hlt : v < userPages := by
    by_contra hge
    rw [ht.system v (Nat.le_of_not_lt hge)] at hu
    cases hu
  refine .bind (Wp.record (Wp.call (copyPage_spec hk.sound.rep ht hlt hmap hn) ?_))
  rintro b km' (⟨rfl, rfl, -⟩ | ⟨rfl, g1, h1, he⟩)
  · exact (dieNow_does (.inl (.inl rfl)) faulting_destroy).after hk
      (.single (.inl (.inl rfl)) (Act.ofSame hk rfl (Same.ofProc rfl rfl))) hp
  · have hs1 := hk.sound.replace (hk.live_root hp hr) h1 hlt he
    refine (Does.setMode (.inl (.inl rfl)) .leave).after hk
      (.single (.inr rfl) (show Act L (.replace p) k g _ g1 from ?_)) hp
    exact .replace hp hr hs1 ⟨hlt, hmap, hu⟩ he (Same.ofProc rfl rfl)

theorem trapFault_does (stval : Nat) : Does L p (Faulting p) (trapFault L p stval) := by
  have hdie : Does L p (Faulting p) (dieNow p) := dieNow_does (.inl (.inl rfl)) faulting_destroy
  unfold trapFault
  generalize toInt32 stval = va
  apply (uservec_does.mono fun _ hl => .inl hl).bind faulting_destroy
  intro _
  apply Does.ite
  · intro _
    exact hdie
  · intro _
    constructor
    intro k g hk hp
    obtain ⟨r, t, hpt, -, hi⟩ := hk.user hp
    have hwalk := walk_any (E := Stops) (.inl rfl) hk.sound.rep hi.live
      (va % 2 ^ 64).toNat
    rw [← hpt] at hwalk
    refine .bind (.get (.bind (Wp.vm (hwalk.mono ?_))))
    rintro a km' ⟨rfl, rfl | ⟨f, hn, rfl⟩⟩
    · exact hdie.run k g hk hp
    · rw [if_neg (pteAddr_ne_zero hk.sound.rep hn)]
      refine .bind (Wp.vm (Wp.loadWord ?_))
      rw [hk.sound.rep.load_pte hn, hasFlag_w, hasFlag_cow, hasFlag_u, hasFlag_v]
      split
      · exact hdie.run k g hk hp
      split
      · exact hdie.run k g hk hp
      next huser =>
      simp only [Bool.or_eq_true, Bool.not_eq_true', not_or, Bool.not_eq_false,
        Bool.not_eq_true] at huser
      exact copyFault_does hk hp hpt hn huser.1.2

/-! ## Timer interrupts -/

theorem deliver_spec (hk : KInv L k g) (hp : k.Live p) :
    Wp (k.NoBackup p) (deliver p) k fun _ k' => k' = k ∨ ∃ g', Act L (.deliver p) k g k' g' := by
  obtain ⟨r, t, hproc⟩ := hk.live p hp
  have ht : (k.proc p).trapframe = t * pgsize := hproc.trapframe
  refine .bind (.get ?_)
  cases hdue : (k.proc p).alarmDue with
  | false => exact .pure (.inl rfl)
  | true =>
    refine Wp.call (kallocHeld_spec hk.sound (x := .backup p) (by simp)) ?_
    rintro a km1 (⟨rfl, rfl, hfree⟩ | ⟨f, g1, rfl, hne, hempty, hsw, -, h₁⟩)
    · exact Wp.throw ⟨rfl, hdue, hk.sound.rep.freelist_eq_zero.mpr hfree⟩
    rw [if_neg hne]
    refine .bind (Wp.vm (Wp.memmove (.bind (Wp.setProc (Wp.storeTf (.inr ⟨g1, ?_⟩))))))
    simp only [Function.update_self, ht]
    have htown := (hproc.holds t).mpr rfl
    have htf : t ≠ f := by grind
    have hown1 : .held (.backup p) ∈ g1.owners f := by
      rw [hsw.self]
      exact Finset.mem_singleton_self _
    have htown1 : .held (.trapframe p) ∈ g1.owners t := by
      rw [hsw.other t htf]
      exact htown
    have hcopy : OnlyPage f km1.mem (move km1.mem (f * pgsize) (t * pgsize) sizeofTrapframe) :=
      onlyPage_move_le _ _ _ (by decide)
    have hstore : OnlyPage t (move km1.mem (f * pgsize) (t * pgsize) sizeofTrapframe) (store64
        (move km1.mem (f * pgsize) (t * pgsize) sizeofTrapframe) (t * pgsize + tfEpc)
        (k.proc p).alarmHandler) :=
      onlyPage_tf _ _ (by decide) (by decide) _
    have h₂ := h₁.withMem (h₁.rep.writeData hown1 trivial hcopy)
    have h3 := h₂.withMem (h₂.rep.writeData htown1 trivial hstore)
    have hoff : (k.proc p).hold.alarmRunning = false := by
      have := hdue
      simp only [Proc.alarmDue, Bool.and_eq_true, Bool.not_eq_true'] at this
      simp [Proc.hold, this.1.2]
    refine .deliver hp hoff ht h3 hempty hsw.node hsw.map hsw.self hsw.other ?_ ?_
      (Only.of ?_ ?_ rfl)
    · intro f' h1 h2
      exact ((hsw.mem f' h1).trans (hcopy f' h1)).trans (hstore f' h2)
    · intro i hi
      have hi' : i < pgsize := by
        rw [pgsize_eq]
        exact Nat.lt_trans hi (by decide)
      dsimp only
      rw [hstore f htf.symm _ (Nat.le_add_right _ _) (by omega), move_at _ _ hi]
      exact hsw.mem t htf _ (Nat.le_add_right _ _) (by omega)
    · grind [Proc.live_iff, Proc.hold, Function.update_apply]
    · grind

def Timing (p : Slot) (l : Label) : Prop := OwnFrame p l ∨ l = .deliver p

theorem Act.delivered (ha : Act L (.deliver p) k g k' g') : (k'.proc p).hold.alarmRunning = true ∧
    ∀ i, i < sizeofTrapframe → k'.km.mem ((k'.proc p).hold.backup + i) =
      k.km.mem ((k.proc p).hold.trapframe + i) := by
  cases ha with
  | deliver _ _ ht _ _ _ _ _ _ _ hsave honly =>
    rw [honly.self, ht]
    exact ⟨rfl, hsave⟩

/-- A timer interrupt of `p`. If it delivers an alarm, the registers of the interrupted program
are in the new backup page. -/
structure Interrupted (L : Layout) (p : Slot) (k : Kernel) (g : Account) (k' : Kernel)
    (g' : Account) : Prop where
  acts : Acts L (Timing p) k g k' g'
  saved : (k.proc p).hold.alarmRunning = false → (k'.proc p).hold.alarmRunning = true →
    Saves (k.user p) k'.km.mem (k'.proc p).hold.backup

theorem Interrupted.calm {k1 : Kernel} {g1 : Account} (h : Interrupted L p k g k1 g1)
    (hk : KInv L k g) (hkm : k'.km = k1.km) (hsame : Same k1 k') :
    Interrupted L p k g k' g1 where
  acts := h.acts.tail (.inl (.inl rfl)) (Act.ofSame (h.acts.inv hk) hkm hsame)
  saved := by
    rw [hkm, hsame.hold p]
    exact h.saved

theorem trapTimer_spec (b : Sched.Build) (hk : KInv L k g) (hp : k.Live p) :
    Wp (fun e => Stops e ∨ k.NoBackup p e) (trapTimer b p) k fun _ k' =>
      ∃ g', Interrupted L p k g k' g' := by
  refine (uservec_spec hk hp).seq ?_
  rintro - k1 ⟨⟨hproc1, huser1, hsaves, -⟩, hacts⟩
  have hk1 := hacts.inv hk
  have hp1 : k1.Live p := hp.congr (by rw [hproc1])
  have h1 : Interrupted L p k g k1 g := by
    refine ⟨hacts.mono fun _ hl => .inl hl, ?_⟩
    intro hoff hon
    rw [hproc1, hoff] at hon
    cases hon
  have hrest : ∀ k2 g2, k2.Live p → Interrupted L p k g k2 g2 →
      Wp (fun e => Stops e ∨ k.NoBackup p e) (do
        setMode p .ret
        if b.preempts then yield p else pure ()) k2 fun _ k' =>
          ∃ g', Interrupted L p k g k' g' := by
    intro k2 g2 hp2 h2
    refine .bind (Wp.setMode ?_)
    split
    · refine .bind (.get (Wp.setProc ⟨g2, h2.calm hk rfl (Same.of (p := p) ?_ ?_ rfl)⟩))
      · grind [Proc.hold_yield, Proc.live_iff, Function.update_apply]
      · grind
    · exact .pure ⟨g2, h2.calm hk rfl (Same.ofProc rfl rfl)⟩
  refine .bind (.get ?_)
  split
  · -- a killed process exits
    unfold exit
    split
    · exact Wp.throw (.inl (.inr rfl))
    · refine .modify ⟨g, h1.calm hk rfl ⟨fun q => ?_, rfl⟩⟩
      exact hold_exitTable ((Proc.live_iff _).mp hp1) _ _ q
  · refine ((deliver_spec hk1 hp1).imp_error ?_).seq ?_
    · rintro e ⟨rfl, hdue, hfree⟩
      rw [hk1.sound.rep.freelist_eq_zero, ← hk.sound.rep.freelist_eq_zero] at hfree
      exact .inr ⟨rfl, hproc1 ▸ hdue, hfree⟩
    rintro - k2 (rfl | ⟨g2, hdeliver⟩)
    · exact hrest _ g hp1 h1
    · have hp2 := hdeliver.live (by simp) hp1
      refine hrest k2 g2 hp2 ⟨h1.acts.tail (.inr rfl) hdeliver, fun _ _ => ?_⟩
      exact hsaves.copy hdeliver.delivered.2

end Xv6
