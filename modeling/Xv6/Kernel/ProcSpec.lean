import Xv6.Kernel.Act

/-!
# The functions of `proc.c` as acts

Each function that creates, grows, replaces or reaps a process is a sequence of acts.
-/

namespace Xv6

open ByteMem
open Function (update update_idem update_of_ne update_self)

variable {E : Panic → Prop} {L : Layout} {k k' : Kernel} {g g' : Account} {p : Slot} {r t : Nat}

/-! ## Rules for kernel code -/

section Rules

variable {α : Type}
variable {Q : Unit → Kernel → Prop} {km : Kmem} {off : Nat}

theorem Wp.vm {m : Vm α} {Q : α → Kernel → Prop}
    (h : Wp E m k.km fun a km' => Q a { k with km := km' }) : Wp E (vm m) k Q := by
  unfold Wp at h ⊢
  unfold Xv6.vm
  cases hm : m k.km with
  | ok | error =>
    rw [hm] at h
    exact h

theorem Wp.call {β : Type} {m : Vm α} {f : α → K β} {P : α → Kmem → Prop} {Q : β → Kernel → Prop}
    (h : Total m k.km P) (hf : ∀ a km', P a km' → Wp E (f a) { k with km := km' } Q) :
    Wp E (Xv6.vm m >>= f) k Q :=
  Wp.seq (Wp.vm (Q := fun a k' => Wp E (f a) k' Q) (Wp.weaken (h.mono hf))) fun _ _ h => h

theorem Wp.setProc {f : Proc → Proc} (h : Q () { k with proc := update k.proc p (f (k.proc p)) }) :
    Wp E (setProc p f) k Q :=
  Wp.of_eq rfl h

theorem Wp.setMode {mode : Mode}
    (h : Q () { k with user := update k.user p { k.user p with mode := mode } }) :
    Wp E (setMode p mode) k Q :=
  Wp.of_eq rfl h

theorem Wp.record {a : Access}
    (h : Q () { k with log := ⟨p, a, (k.proc p).pagetable, k.km.mem⟩ :: k.log }) :
    Wp E (record p a) k Q :=
  Wp.of_eq rfl h

theorem Wp.loadTf {Q : BitVec 64 → Kernel → Prop}
    (h : Q (load64 k.km.mem ((k.proc p).trapframe + off)) k) : Wp E (loadTf p off) k Q :=
  Wp.of_eq rfl h

theorem Wp.storeTf {w : BitVec 64} (h : Q () { k with
      km := { k.km with mem := store64 k.km.mem ((k.proc p).trapframe + off) w } }) :
    Wp E (storeTf p off w) k Q :=
  Wp.of_eq rfl h

theorem Wp.throw {e : Panic} {Q : α → Kernel → Prop} (h : E e) :
    Wp E (MonadExcept.throw e : K α) k Q :=
  Wp.of_error rfl h

end Rules

/-! ## The process table -/

variable {h : Hold}

theorem Only.of (hself : (k'.proc p).hold = h)
    (hother : ∀ q, q ≠ p → k'.proc q = k.proc q) (hpages : k'.pages = k.pages) :
    Only k k' p h where
  self := hself
  other q hq := by rw [hother q hq]
  pages := hpages

theorem Same.of (hself : (k'.proc p).hold = (k.proc p).hold)
    (hother : ∀ q, q ≠ p → k'.proc q = k.proc q) (hpages : k'.pages = k.pages) : Same k k' where
  hold q := by
    by_cases hq : q = p
    · rw [hq, hself]
    · rw [hother q hq]
  pages := hpages

theorem Same.ofProc (hproc : k'.proc = k.proc) (hpages : k'.pages = k.pages) : Same k k' where
  hold q := by rw [hproc]
  pages := hpages

theorem Kernel.first_none {f : Proc → Bool} (h : k.first f = none) (p : Slot) :
    f (k.proc p) = false := by
  simpa using List.find?_eq_none.mp h p (List.mem_finRange p)

theorem Kernel.first_some {f : Proc → Bool} (h : k.first f = some p) : f (k.proc p) = true :=
  List.find?_some (p := fun p => f (k.proc p)) h

theorem Act.ofSame (hk : KInv L k g) (hkm : k'.km = k.km) (hsame : Same k k') :
    Act L .calm k g k' g := by
  refine .calm ?_ ?_ hsame
  · rw [hkm]
    exact hk.sound
  · rw [hkm]
    exact Quiet.refl _ _

theorem Process.trapframe_ne (hp : Process L g p h r t) (hs : Sound L km g) : h.trapframe ≠ 0 := by
  rw [hp.trapframe]
  exact (hs.rep.managed_of_mem ((hp.holds t).mpr rfl)).ne_zero

theorem Process.pagetable_ne (hp : Process L g p h r t) (hs : Sound L km g) : h.pagetable ≠ 0 := by
  rw [hp.pagetable]
  exact (hs.rep.managed_of_node hp.image.live).ne_zero

/-! ## `freeproc` -/

theorem owners_gone {km1 km2 : Kmem} {g1 g2 : Account} (h : Sound L km g) (h2 : Sound L km2 g2)
    (hholds : ∀ f, .held (.trapframe p) ∈ g.owners f ↔ f = t) (hsw : Swap t ∅ km g km1 g1)
    (hf : Frame r km1 g1 km2 g2) (hgone : ¬ g2.Live r) (f : Nat) (o : Owner) (hd : o.Data) :
    (o ∈ g2.owners f ↔ o ∈ g.owners f ∧ o ≠ .held (.trapframe p) ∧ ∀ v, o ≠ .user r v) ∧
      (o ∈ g2.owners f → Agree km.mem km2.mem (f * pgsize) pgsize) := by
  have howner := h.held_eq ((hholds t).mpr rfl)
  -- frame `t` was the trapframe and is nobody's now
  have hstep : ∀ o : Owner, o ∈ g1.owners f ↔ o ∈ g.owners f ∧ o ≠ .held (.trapframe p) := by
    intro o
    by_cases hft : f = t
    · subst hft
      rw [hsw.self, howner]
      simp
    · rw [hsw.other f hft]
      constructor
      · grind
      · exact And.left
  by_cases hout : o.Outside r
  · have hiff := (hf.owner f o hout).trans (hstep o)
    refine ⟨hiff.trans ⟨fun ho => ⟨ho.1, ho.2, ?_⟩, fun ho => ⟨ho.1, ho.2.1⟩⟩, ?_⟩
    · rintro v rfl
      exact hout rfl
    · intro ho
      have ho1 := (hf.owner f o hout).mp ho
      have hft : f ≠ t := by grind
      exact (hsw.mem f hft).trans (hf.mem f o hd hout ho1)
  · cases o with
    | table => exact hd.elim
    | user r' v =>
      have hr : r' = r := Decidable.not_not.mp hout
      subst hr
      have hno := (h2.gone hgone).2.2 v f
      exact ⟨⟨fun ho => absurd ho hno, fun ho => absurd rfl (ho.2.2 v)⟩, fun ho => absurd ho hno⟩
    | held x =>
      have hx : x = .fresh := Decidable.not_not.mp hout
      subst hx
      have hno := h2.settled f
      exact ⟨⟨fun ho => absurd ho hno, fun ho => absurd ho.1 (h.settled f)⟩,
        fun ho => absurd ho hno⟩

theorem freeproc_spec (hk : KInv L k g) (hp : k.Live p) :
    Wp E (freeproc L p) k fun _ k' => ∃ g', Act L (.destroy p) k g k' g' := by
  obtain ⟨r, t, hproc⟩ := hk.live p hp
  have htf : (k.proc p).trapframe = t * pgsize := hproc.trapframe
  have hpt : (k.proc p).pagetable = r * pgsize := hproc.pagetable
  have htf0 : (k.proc p).trapframe ≠ 0 := hproc.trapframe_ne hk.sound
  have hpt0 : (k.proc p).pagetable ≠ 0 := hproc.pagetable_ne hk.sound
  refine .bind (.get ?_)
  rw [if_pos htf0, if_pos hpt0, htf, hpt]
  refine Wp.call (kfreeHeld_spec hk.sound ((hproc.holds t).mpr rfl)) ?_
  rintro - km1 ⟨g1, hsw, h1⟩
  have hi1 : Image L g1 r (pagesOf (k.proc p).sz) t :=
    hproc.image.congr (by rw [hsw.node]) (by rw [hsw.map])
  refine Wp.call (procFreepagetable_spec h1 hi1) ?_
  rintro - km2 ⟨g2, h2, hf, hgone⟩
  have howners := owners_gone hk.sound h2 hproc.holds hsw hf hgone
  refine Wp.setProc ⟨g2, ?_⟩
  refine .destroy hp hproc h2 hgone ?_ (fun f o hd => (howners f o hd).1)
    (fun f o hd ho => (howners f o hd).2 ho) ?_
  · intro r' hr
    rw [hf.node r' hr, hf.map r' hr, hsw.node, hsw.map]
    exact ⟨rfl, rfl⟩
  · refine Only.of ?_ ?_ rfl
    · dsimp only
      rw [update_self]
      rfl
    · grind

/-! ## `allocproc` -/

theorem Proc.hold_free {q : Proc} (hs : q.state = .unused) (hi : Idle g p q.hold) {q' : Proc}
    (hb : q'.backupTrapFrame = q.backupTrapFrame) : q'.free.hold = q.hold := by
  have h1 : q.pagetable = 0 := hi.pagetable
  have h2 : q.trapframe = 0 := hi.trapframe
  have h3 : q.sz = 0 := hi.sz
  simp only [Proc.hold, Proc.free, hs, h1, h2, h3, hb, ne_eq, not_true, decide_false,
    Bool.false_and]

theorem Swap.quiet {km1 km2 km3 : Kmem} {g1 g2 g3 : Account} {S : Finset Owner}
    (h : Swap t S km g km1 g1) (ht : g.owners t = ∅) (hq : Quiet km1 g1 km2 g2)
    (h' : Swap t ∅ km2 g2 km3 g3) : Quiet km g km3 g3 where
  owners := by
    funext f
    by_cases hf : f = t
    · rw [hf, h'.self, ht]
    · rw [h'.other f hf, hq.owners, h.other f hf]
  node := by rw [h'.node, hq.node, h.node]
  map := by rw [h'.map, hq.map, h.map]
  mem f o hd ho := by
    have hf : f ≠ t := by grind
    have ho1 : o ∈ g1.owners f := by
      rw [h.other f hf]
      exact ho
    exact ((h.mem f hf).trans (hq.mem f o hd ho1)).trans (h'.mem f hf)

/-- The new process `p` has cost the trapframe and three page-table pages, and it has no others. -/
def Fresh (p : Slot) (g : Account) (k' : Kernel) (g' : Account) : Prop :=
  g.free.length = g'.free.length + 4 ∧ ∃ r, (k'.proc p).pagetable = r * pgsize ∧ g'.Bare r

theorem allocproc_spec (hk : KInv L k g) :
    Wp E (allocproc L) k fun ret k' => ∃ g', (ret = none ∧ Act L .calm k g k' g' ∧
        ((∀ q, (k.proc q).state ≠ .unused) ∨ g.free.length < 4)) ∨
      ∃ p, ret = some p ∧ (k.proc p).hold.live = false ∧ Act L (.create p) k g k' g' ∧
        Fresh p g k' g' := by
  refine .bind (.get ?_)
  split
  · next hfirst =>
    refine .pure ⟨g, .inl ⟨rfl, Act.ofSame hk rfl (Same.ofProc rfl rfl), .inl fun q => ?_⟩⟩
    exact of_decide_eq_false (Kernel.first_none hfirst q)
  next p hfirst =>
  have hun : (k.proc p).state = .unused := of_decide_eq_true (Kernel.first_some hfirst)
  have hdead : (k.proc p).hold.live = false := by simp [Proc.hold, hun]
  have hidle := hk.idle p hdead
  have hpt : (k.proc p).pagetable = 0 := hidle.pagetable
  refine .bind (.set ?_)
  refine Wp.call (kallocHeld_spec hk.sound (x := .trapframe p) (by simp)) ?_
  rintro tf km1 (⟨rfl, rfl, hnone⟩ | ⟨t, g1, rfl, hne, hempty, hsw, hlen, h1⟩)
  · -- no memory for the trapframe
    refine .bind (Wp.setProc ?_)
    refine .bind ?_
    refine .bind (.get ?_)
    simp only [update_self, update_idem, Proc.allocate, hpt, ne_eq, not_true, if_false]
    refine Wp.setProc (.pure ⟨g, .inl ⟨rfl, Act.ofSame hk rfl ?_, .inr (by simp [hnone])⟩⟩)
    refine Same.of (p := p) ?_ ?_ rfl
    · simp only [update_self]
      exact Proc.hold_free hun hidle rfl
    · grind
  · refine .bind (Wp.setProc ?_)
    rw [if_neg hne]
    refine Wp.call (procPagetable_spec h1 t) ?_
    rintro pt km2 ⟨g2, h2, ⟨rfl, hq, hfew⟩ | ⟨r, rfl, hpne, hr, hf, hi, hthree, hbare⟩⟩
    · -- no memory for the page table
      refine .bind (Wp.setProc ?_)
      refine .bind ?_
      refine .bind (.get ?_)
      simp only [update_self, update_idem, ne_eq, hne, not_true, if_false,
        not_false_eq_true, if_true]
      have hheld : .held (.trapframe p) ∈ g2.owners t := by
        rw [hq.owners, hsw.self]
        exact Finset.mem_singleton_self _
      refine Wp.call (kfreeHeld_spec h2 hheld) ?_
      rintro - km3 ⟨g3, hsw3, h3⟩
      refine Wp.setProc (.pure ⟨g3, .inl ⟨rfl, .calm h3 (hsw.quiet hempty hq hsw3) ?_,
        .inr (by omega)⟩⟩)
      refine Same.of (p := p) ?_ ?_ rfl
      · simp only [update_self]
        exact Proc.hold_free hun hidle rfl
      · grind
    · refine .bind (Wp.setProc ?_)
      rw [if_neg hpne]
      refine .bind (Wp.setProc ?_)
      refine .pure ⟨g2, .inr ⟨p, rfl, hdead, ?_, by omega, r, ?_, hbare⟩⟩
      rotate_left
      · simp only [update_self]
        rfl
      have hlive : ¬ g.Live r := by
        rw [← Account.live_congr hsw.node r]
        exact hr
      have hcase : ∀ f o, o.Data → (o ∈ g1.owners f ↔
          o ∈ g.owners f ∨ f = t ∧ o = .held (.trapframe p)) := by
        intro f o _
        by_cases hft : f = t
        · subst hft
          rw [hsw.self, hempty]
          simp
        · rw [hsw.other f hft]
          simp [hft]
      have hout : ∀ f o, o.Data → o ∈ g2.owners f ∨ o ∈ g1.owners f → o.Outside r := by
        intro f o hd ho
        cases o with
        | table => exact hd.elim
        | user r' v =>
          rintro rfl
          obtain ho | ho := ho
          · exact (((h2.table r' hi.live).owner v f).mp ho).2.1
              (hi.empty v (Nat.zero_le v) (((h2.table r' hi.live).owner v f).mp ho).1)
          · exact (h1.gone hr).2.2 v f ho
        | held =>
          rintro rfl
          obtain ho | ho := ho
          · exact h2.settled f ho
          · exact h1.settled f ho
      have howner : ∀ f o, o.Data → (o ∈ g2.owners f ↔ o ∈ g1.owners f) := by grind [hf.owner]
      refine .create hdead h2 hlive hempty hi ?_ ?_ ?_ ?_
      · intro r' hne'
        rw [hf.node r' hne', hf.map r' hne', hsw.node, hsw.map]
        exact ⟨rfl, rfl⟩
      · grind
      · intro f o hd ho
        have ho1 := (hcase f o hd).mpr (.inl ho)
        have hft : f ≠ t := by grind
        exact (hsw.mem f hft).trans (hf.mem f o hd (hout f o hd (.inr ho1)) ho1)
      · refine Only.of ?_ ?_ rfl
        · simp only [update_self]
          rfl
        · grind

/-! ## Writes to the trapframe -/

theorem onlyPage_tf (m : Mem) (t : Nat) (h1 : off % 8 = 0) (h2 : off < 4096) (w : BitVec 64) :
    OnlyPage t m (store64 m (t * pgsize + off) w) := by
  have hoff : off = 8 * (off / 8) := by omega
  rw [hoff]
  exact onlyPage_store64 m t (by omega) w

theorem Act.ofFrame {m' : Mem} (hp : k.Live p)
    (ht : (k.proc p).trapframe = t * pgsize) (hm : OnlyPage t k.km.mem m') :
    Act L (.frame p) k g { k with km := { k.km with mem := m' } } g :=
  .frame hp ht hm rfl (Same.ofProc rfl rfl)

theorem storeTf_spec (hk : KInv L k g) (hp : k.Live p)
    (h1 : off % 8 = 0) (h2 : off < 4096) (w : BitVec 64) :
    Wp E (storeTf p off w) k fun _ k' => Act L (.frame p) k g k' g ∧ k' = { k with
      km := { k.km with mem := store64 k.km.mem ((k.proc p).trapframe + off) w } } := by
  obtain ⟨r, t, -, ht, -⟩ := hk.user hp
  refine Wp.storeTf ⟨Act.ofFrame hp ht ?_, rfl⟩
  rw [ht]
  exact onlyPage_tf k.km.mem t h1 h2 w

/-! ## `growproc` -/

theorem addInt_grow {sz : Nat} {n : Int} (hsz : sz < 2 ^ 63) (h0 : 0 < n) (hn : n < 2 ^ 31) :
    ((sz + n) % 2 ^ 64).toNat = sz + n.toNat := by
  omega

theorem growproc_spec (hk : KInv L k g) (hp : k.Live p)
    {n : Int} (hlo : -2 ^ 31 ≤ n) (hhi : n < 2 ^ 31) :
    Wp E (growproc L p n) k fun ret k' => ∃ g', (ret = -1 ∧ Act L (.grow p) k g k' g') ∨
      (ret = 0 ∧ (Act L (.extend p) k g k' g' ∨ Act L (.shrink p) k g k' g' ∨
        Act L .calm k g k' g')) := by
  obtain ⟨r, t, hpt, htf, hi⟩ := hk.user hp
  have hsz := lt_of_pagesOf (Nat.le_of_lt hi.small)
  have hother : ∀ (sz : Nat) (q : Slot), q ≠ p →
      update k.proc p { k.proc p with sz := sz } q = k.proc q :=
    fun sz q hq => update_of_ne hq _ _
  refine .bind (.get ?_)
  by_cases hpos : n > 0
  · rw [if_pos hpos, hpt, addInt_grow hsz hpos hhi]
    refine Wp.call (imageAlloc_spec hk.sound lowPerm_w hi (Nat.le_add_right _ _)) ?_
    rintro sz km1 ⟨g1, h1, ⟨rfl, hg⟩ | ⟨hsz', hne, hi1, he⟩⟩
    · exact .pure ⟨g1, .inl ⟨rfl, .grow hp hpt h1 hg (Same.ofProc rfl rfl)⟩⟩
    · rw [if_neg hne]
      refine .bind (Wp.setProc (.bind (Wp.record (.pure ⟨g1, .inr ⟨rfl, .inl ?_⟩⟩))))
      rw [← hsz'] at hi1 he
      refine .extend hp hpt h1 he hi1 htf (Only.of ?_ (hother _) rfl)
      dsimp only
      rw [update_self]
      rfl
  · rw [if_neg hpos]
    by_cases hneg : n < 0
    · rw [if_pos hneg, hpt]
      by_cases hwrap : (k.proc p).sz + n < 0
      · -- the new size wraps around and is not smaller
        have hge : (((k.proc p).sz + n) % 2 ^ 64).toNat ≥ (k.proc p).sz := by omega
        unfold uvmdealloc
        rw [if_pos hge]
        refine .bind (Wp.vm (.pure (.bind (Wp.setProc (.pure ⟨g, .inr ⟨rfl, .inr (.inr ?_)⟩⟩)))))
        refine Act.ofSame hk rfl (Same.of (p := p) ?_ (hother _) rfl)
        dsimp only
        rw [update_self]
      · have hlt : (((k.proc p).sz + n) % 2 ^ 64).toNat < (k.proc p).sz := by omega
        refine Wp.call (imageDealloc_spec hk.sound hi hlt) ?_
        rintro sz km1 ⟨hsz', g1, h1, hs, hi1⟩
        rw [← hsz'] at hlt hs hi1
        refine .bind (Wp.setProc (.pure ⟨g1, .inr ⟨rfl, .inr (.inl ?_)⟩⟩))
        refine .shrink hp hpt h1 hs hi1
          htf (Only.of ?_ (hother _) rfl)
        dsimp only
        rw [update_self]
        rfl
    · rw [if_neg hneg]
      exact .pure ⟨g, .inr ⟨rfl, .inr (.inr (Act.ofSame hk rfl (Same.ofProc rfl rfl)))⟩⟩

/-! ## `copyout` -/

/-- A call of `copyout` for process `p`: it fails at once, or it replaces the first page and
writes. -/
inductive Copied (L : Layout) (p : Slot) (dstva len : Nat) (k : Kernel) (g : Account) (ret : Int) :
    Kernel → Account → Prop where
  | failed {k₁ : Kernel} (hcalm : Act L .calm k g k₁ g) (hret : ret = -1) :
      Copied L p dstva len k g ret k₁ g
  | done {k₁ k₂ : Kernel} {g₁ : Account} {n : Nat} (hreplace : Act L (.replace p) k g k₁ g₁)
      (hn : n ≤ len) (hwrite : Act L (.write p dstva n) k₁ g₁ k₂ g₁)
      (hret : ret = 0 ∧ n = len ∨ ret = -1) : Copied L p dstva len k g ret k₂ g₁

theorem copyoutTo_spec (hk : KInv L k g) (hp : k.Live p)
    (dstva : Nat) (src : Nat → Byte) (len : Nat) :
    Wp E (copyoutTo L p dstva src len) k fun ret k' =>
      k'.proc = k.proc ∧ ∃ g', Copied L p dstva len k g ret k' g' := by
  obtain ⟨r, t, hpt, -, hi⟩ := hk.user hp
  have hcall := copyout_spec hk.sound.rep (hk.sound.table r hi.live) dstva src len
  rw [← hpt] at hcall
  refine .bind (Wp.record (.bind (.get (Wp.vm (Wp.weaken (hcall.mono ?_))))))
  rintro ret km' (⟨rfl, rfl, -⟩ | ⟨⟨-, hu, -⟩, km1, g1, h1, hr, h2, n, hn, hret, hw⟩)
  · exact ⟨rfl, g, .failed (Act.ofSame hk rfl (Same.ofProc rfl rfl)) rfl⟩
  · have hs1 := hk.sound.replace hi.live h1 hu.1 hr
    have hreplace : Act L (.replace p) k g { k with km := km1 } g1 :=
      .replace hp hpt hs1 hu hr (Same.ofProc rfl rfl)
    have hfirst : (g1.map r (dstva / pgsize)).getLsbD 2 = true := by
      rw [hr.word, getLsbD_freshPte _ (by decide)]
      rfl
    exact ⟨rfl, g1, .done hreplace hn (.write hp hpt (hs1.withMem h2) hfirst hw
      (Same.ofProc rfl rfl)) (hret.imp_right And.left)⟩

end Xv6
