import Xv6.Kernel.ProcSpec

/-!
# `fork`, `exec`, `exit` and `wait` as acts
-/

namespace Xv6

open ByteMem
open Function (update update_of_ne update_self)

variable {L : Layout} {k k' : Kernel} {g g' : Account} {p c : Slot} {r t : Nat}
variable {E : Panic → Prop}
variable {image : NewImage} {km1 : Kmem}

/-! ## `fork` -/

theorem onlyPage_move_le (m : Mem) (f src : Nat) {n : Nat} (hn : n ≤ 4096) :
    OnlyPage f m (move m (f * pgsize) src n) := by
  have := onlyPage_blit m f (a := 0) (n := n) (fun i => m (src + i)) (by rw [pgsize_eq]; omega)
  rwa [Nat.add_zero] at this

theorem Hold.sz_eq {h : Hold} {sz : Nat} (hz : h.sz = sz) : { h with sz := sz } = h := by
  subst hz
  rfl

theorem setProc_spec {f : Proc → Proc} (hk : KInv L k g)
    (hf : (f (k.proc p)).hold = (k.proc p).hold) :
    Wp E (setProc p f) k fun _ k' => Act L .calm k g k' g ∧
      k' = { k with proc := update k.proc p (f (k.proc p)) } := by
  refine Wp.setProc ⟨Act.ofSame hk rfl (Same.of (p := p) ?_ ?_ rfl), rfl⟩ <;> grind

theorem copyTf_spec {a : Nat} (hk : KInv L k g) (hp : k.Live p)
    (ha : a = (k.proc p).trapframe) (src : Nat) :
    Wp E (vm (memmove a src sizeofTrapframe)) k fun _ k' =>
      Act L (.frame p) k g k' g ∧ k'.proc = k.proc := by
  obtain ⟨r, t, -, ht, -⟩ := hk.user hp
  rw [ha, ht]
  exact Wp.vm (Wp.memmove ⟨Act.ofFrame hp ht (onlyPage_move_le _ _ _ (by decide)), rfl⟩)

theorem Act.created (ha : Act L (.create c) k g k' g') (hk : KInv L k g) (hne : p ≠ c) :
    (k'.proc p).hold = (k.proc p).hold ∧ k'.Live c ∧ (k'.proc c).hold.sz = 0 := by
  cases ha with
  | create hc _ _ _ _ _ _ _ honly =>
    rw [Kernel.Live, honly.self]
    exact ⟨honly.other p hne, rfl, (hk.idle c hc).sz⟩

theorem uvmcopy_shares (hk : KInv L k g) (hne : p ≠ c) (hp : k.Live p) (hc : k.Live c)
    (hz : (k.proc c).hold.sz = 0) :
    Total (uvmcopy L (k.proc p).pagetable (k.proc c).pagetable (k.proc p).sz) k.km fun ret km' =>
      ∃ g' sz, (ret = 0 ∧ sz = (k.proc p).hold.sz ∨ ret = -1 ∧ sz = 0) ∧
        ∀ k', k'.km = km' → Only k k' c { (k.proc c).hold with sz := sz } →
          Act L (.share p c) k g k' g' := by
  obtain ⟨r, t, hpt, -, hi⟩ := hk.user hp
  obtain ⟨r', t', hpt', htf', hi'⟩ := hk.user hc
  have hroots := hk.root_ne hp hc hne hpt hpt'
  rw [show (k.proc c).sz = 0 from hz, pagesOf_zero] at hi'
  rw [hpt, hpt']
  refine (imageCopy_spec hk.sound hroots hi hi').mono ?_
  rintro ret km' ⟨m, n, g', hm, hs, he, hi, hret⟩
  obtain ⟨sz, hn, hsz⟩ : ∃ sz, n = pagesOf sz ∧
      (ret = 0 ∧ sz = (k.proc p).hold.sz ∨ ret = -1 ∧ sz = 0) := by
    rcases hret with ⟨rfl, -, rfl⟩ | ⟨rfl, rfl⟩
    · exact ⟨_, rfl, .inl ⟨rfl, rfl⟩⟩
    · exact ⟨0, pagesOf_zero.symm, .inr ⟨rfl, rfl⟩⟩
  refine ⟨g', sz, hsz, ?_⟩
  rintro k' rfl honly
  exact .share hne hp hc hpt hpt' htf' hs he hm hn hi honly

/-- A call of `fork` that gets as far as `uvmcopy`. -/
inductive Forked (L : Layout) (p c : Slot) (k : Kernel) (g : Account) (ret : Int) :
    Kernel → Account → Prop where
  | failed {k₁ k₂ k₃ : Kernel} {g₁ g₂ g₃ : Account} (hcreate : Act L (.create c) k g k₁ g₁)
      (hshare : Act L (.share p c) k₁ g₁ k₂ g₂) (hdestroy : Act L (.destroy c) k₂ g₂ k₃ g₃)
      (hret : ret = -1) : Forked L p c k g ret k₃ g₃
  | done {k₁ k₂ k₃ : Kernel} {g₁ g₂ : Account} (hcreate : Act L (.create c) k g k₁ g₁)
      (hshare : Act L (.share p c) k₁ g₁ k₂ g₂)
      (hsz : (k₂.proc c).hold.sz = (k₂.proc p).hold.sz)
      (hrest : Acts L (fun l => l = .frame c ∨ l = .calm) k₂ g₂ k₃ g₂) :
      Forked L p c k g ret k₃ g₂

theorem fork_spec (hk : KInv L k g) (hp : k.Live p) :
    Wp E (fork L p) k fun ret k' => ∃ g', (ret = -1 ∧ Act L .calm k g k' g') ∨
      ∃ c, (k.proc c).hold.live = false ∧ Forked L p c k g ret k' g' := by
  refine (allocproc_spec hk).seq ?_
  rintro ret k1 ⟨g1, ⟨rfl, hcalm, -⟩ | ⟨c, rfl, hdead, hcreate, -⟩⟩
  · exact .pure ⟨g1, .inl ⟨rfl, hcalm⟩⟩
  have hk1 := hcreate.inv hk
  have hne : p ≠ c := by grind
  obtain ⟨hp1, hc1, hz⟩ := hcreate.created hk hne
  have hp := hp.congr hp1
  refine .bind (.get (.bind (Wp.record (Wp.call (uvmcopy_shares hk1 hne hp hc1 hz) ?_))))
  let log : List Event := ⟨p, .forked c, (k1.proc p).pagetable, k1.km.mem⟩ :: k1.log
  rintro ret km3 ⟨g3, sz, ⟨rfl, rfl⟩ | ⟨rfl, rfl⟩, hact⟩
  · let child : Proc := { k1.proc c with sz := (k1.proc p).sz }
    have hself : update k1.proc c child c = child := update_self _ _ _
    have hother : ∀ q, q ≠ c → update k1.proc c child q = k1.proc q :=
      fun q hq => update_of_ne hq _ _
    have hshare : Act L (.share p c) k1 g1
        { k1 with km := km3, log := log, proc := update k1.proc c child } g3 :=
      hact _ rfl (Only.of (congrArg Proc.hold hself) hother rfl)
    have hk3 := hshare.inv hk1
    have hc3 : (update k1.proc c child c).hold.live = true := by
      rw [hself]
      exact hc1
    have htf : (k1.proc c).trapframe = (update k1.proc c child c).trapframe := by rw [hself]
    refine .bind (Wp.setProc ((copyTf_spec hk3 hc3 htf _).seq ?_))
    rintro - k4 ⟨hcopied, hproc4⟩
    have hk4 := hcopied.inv hk3
    have hc4 : k4.Live c := by
      rw [Kernel.Live, hproc4]
      exact hc3
    refine (storeTf_spec hk4 hc4 (by decide) (by decide) 0).seq ?_
    rintro - k5 ⟨hstored, hk5⟩
    have hc5 : (k5.proc c).state ≠ .unused := by
      rw [hk5, ← Proc.live_iff]
      exact hc4
    refine (setProc_spec (hstored.inv hk4) ?_).seq ?_
    · exact Proc.hold_congr (by simp [hc5]) rfl rfl rfl rfl rfl
    · rintro - k6 ⟨hcalm, -⟩
      have hrest : Acts L (fun l => l = .frame c ∨ l = .calm) _ g3 k6 g3 :=
        ((Acts.single (.inl rfl) hcopied).tail (.inl rfl) hstored).tail (.inr rfl) hcalm
      refine .pure ⟨g3, .inr ⟨c, hdead, .done hcreate hshare ?_ hrest⟩⟩
      dsimp only
      rw [hself, hother p hne]
      rfl
  · -- the child is given up
    have hshare : Act L (.share p c) k1 g1 { k1 with km := km3, log := log } g3 :=
      hact _ rfl ⟨(Hold.sz_eq hz).symm, fun _ _ => rfl, rfl⟩
    refine (freeproc_spec (hshare.inv hk1) hc1).seq ?_
    rintro - k4 ⟨g4, hdestroy⟩
    exact .pure ⟨g4, .inr ⟨c, hdead, .failed hcreate hshare hdestroy rfl⟩⟩

/-! ## `exec` -/

theorem Moved.of {km3 : Kmem} {m2 : Mem} {g1 g3 : Account} {r0 : Nat} {km : Kmem}
    (hf : Frame r km g km1 g1) (hm : OnlyPage t km1.mem m2)
    (hf0 : Frame r0 { km1 with mem := m2 } g1 km3 g3) : Moved r0 r t km g km3 g3 where
  node r' h0 h1 := by rw [hf0.node r' h0, hf.node r' h1]
  map r' h0 h1 := by rw [hf0.map r' h0, hf.map r' h1]
  owner f o h0 h1 := (hf0.owner f o h0).trans (hf.owner f o h1)
  mem f o hd h0 h1 ho ht :=
    ((hf.mem f o hd h1 ho).trans (hm f ht)).trans (hf0.mem f o hd h0 ((hf.owner f o h1).mpr ho))

theorem Frame.freelist_ne {km km' : Kmem} (h : Sound L km g) (h' : Sound L km' g')
    (hf : Frame r km g km' g') (hgone : ¬ g'.Live r) (hfree : km.freelist ≠ 0) :
    km'.freelist ≠ 0 := by
  obtain ⟨f, hmem⟩ := List.exists_mem_of_ne_nil _ (h.rep.freelist_ne_iff.mp hfree)
  obtain ⟨hman, ho⟩ := (h.rep.free f).mp hmem
  have ho' : g'.owners f = ∅ := by
    apply Finset.eq_empty_of_forall_notMem
    intro o hin
    by_cases hout : o.Outside r
    · rw [hf.owner f o hout, ho] at hin
      exact absurd hin (Finset.notMem_empty _)
    · cases o with
      | table ρ =>
        obtain rfl : ρ = r := Decidable.not_not.mp hout
        rw [← h'.rep.node, (h'.gone hgone).1] at hin
        cases hin
      | user ρ v =>
        obtain rfl : ρ = r := Decidable.not_not.mp hout
        exact (h'.gone hgone).2.2 v f hin
      | held x =>
        obtain rfl : x = .fresh := Decidable.not_not.mp hout
        exact h'.settled f hin
  rw [h'.rep.freelist_ne_iff]
  exact List.ne_nil_of_mem ((h'.rep.free f).mpr ⟨hman, ho'⟩)

theorem execCommit_spec {r0 : Nat} {g1 : Account} (hp : k.Live p)
    (hproc : Process L g p (k.proc p).hold r0 t) (h1 : Sound L km1 g1)
    (hr : image.pagetable = r * pgsize) (hlive : g.Live r0) (hdead : ¬ g.Live r)
    (hf : Frame r k.km g km1 g1) (hi : Image L g1 r (pagesOf image.sz) t) :
    Wp E (do
      storeTf p (tfArg 1) (BitVec.ofNat 64 image.sp)
      setProc p fun q => { q with pagetable := image.pagetable, sz := image.sz }
      storeTf p tfEpc (BitVec.ofNat 64 image.entry)
      storeTf p tfSp (BitVec.ofNat 64 image.sp)
      vm (procFreepagetable L (k.proc p).pagetable (k.proc p).sz)
      record p (.mapped 0 (pgroundup image.sz / pgsize))
      return (image.argc : Int)) { k with km := km1 } fun ret k' => ret = image.argc ∧
        (km1.freelist ≠ 0 → k'.km.freelist ≠ 0) ∧ ∃ g', Act L (.exec p) k g k' g' := by
  have htf : (k.proc p).trapframe = t * pgsize := hproc.trapframe
  have hpt : (k.proc p).pagetable = r0 * pgsize := hproc.pagetable
  have hrr : r0 ≠ r := by
    rintro rfl
    exact hdead hlive
  have hi0 : Image L g1 r0 (pagesOf (k.proc p).sz) t :=
    hproc.image.congr (hf.node r0 hrr) (hf.map r0 hrr)
  have hheld : .held (.trapframe p) ∈ g1.owners t :=
    (hf.owner t _ (by simp [Owner.Outside])).mpr ((hproc.holds t).mpr rfl)
  refine .bind (Wp.storeTf (.bind (Wp.setProc ?_)))
  refine .bind (Wp.storeTf (.bind (Wp.storeTf ?_)))
  simp only [update_self, htf]
  have hm : OnlyPage t km1.mem (store64 (store64 (store64 km1.mem (t * pgsize + tfArg 1)
      (BitVec.ofNat 64 image.sp)) (t * pgsize + tfEpc) (BitVec.ofNat 64 image.entry))
      (t * pgsize + tfSp) (BitVec.ofNat 64 image.sp)) :=
    ((onlyPage_tf _ _ (by decide) (by decide) _).trans
      (onlyPage_tf _ _ (by decide) (by decide) _)).trans
      (onlyPage_tf _ _ (by decide) (by decide) _)
  have h2 := h1.withMem (h1.rep.writeData hheld trivial hm)
  have hfree := procFreepagetable_spec h2 hi0
  rw [← hpt] at hfree
  refine Wp.call hfree ?_
  rintro - km3 ⟨g3, h3, hf0, hgone⟩
  have hleft : km1.freelist ≠ 0 → km3.freelist ≠ 0 := fun hne => hf0.freelist_ne h2 h3 hgone hne
  refine .bind (Wp.record (.pure ⟨rfl, hleft, g3, ?_⟩))
  have hi3 : Image L g3 r (pagesOf image.sz) t :=
    hi.congr (hf0.node r hrr.symm) (hf0.map r hrr.symm)
  refine .exec hp hproc h3 hdead hgone (Moved.of hf hm hf0) hi3 (Only.of ?_ ?_ rfl)
  · dsimp only
    rw [update_self]
    simp only [Proc.hold, hr, htf]
  · grind

theorem exec_spec (hk : KInv L k g) (hp : k.Live p) (ip : Inode) (argv : List (List Byte)) :
    Wp E (exec L p ip argv) k fun ret k' => ∃ g',
      (ret = -1 ∧ Act L .calm k g k' g') ∨ (0 ≤ ret ∧ Act L (.exec p) k g k' g') := by
  obtain ⟨r0, t, hproc⟩ := hk.live p hp
  have htf : (k.proc p).trapframe = t * pgsize := hproc.trapframe
  have hbuild := execImage_spec hk.sound t ip argv
  rw [← htf] at hbuild
  refine .bind (.get (Wp.call hbuild ?_))
  rintro ret km1 ⟨g1, h1, ⟨rfl, hq⟩ | ⟨r, image, rfl, hr, hne, hdead, hf, hi⟩⟩
  · exact .pure ⟨g1, .inl ⟨rfl, .calm h1 hq (Same.ofProc rfl rfl)⟩⟩
  · refine (execCommit_spec hp hproc h1 hr hproc.image.live hdead hf hi).mono ?_
    rintro _ k' ⟨rfl, -, g', hact⟩
    exact ⟨g', .inr ⟨Int.natCast_nonneg _, hact⟩⟩

theorem exec_commits {ip : Inode} {argv : List (List Byte)} (hk : KInv L k g) (hp : k.Live p)
    (himage : execImage L (k.proc p).trapframe ip argv k.km = .ok (some image, km1)) :
    Wp E (exec L p ip argv) k fun ret k' => ret = image.argc ∧
      (km1.freelist ≠ 0 → k'.km.freelist ≠ 0) ∧ ∃ g', Act L (.exec p) k g k' g' := by
  obtain ⟨r0, t, hproc⟩ := hk.live p hp
  have htf : (k.proc p).trapframe = t * pgsize := hproc.trapframe
  have hbuild := execImage_spec hk.sound t ip argv
  rw [← htf] at hbuild
  obtain ⟨g1, h1, ⟨hnone, -⟩ | ⟨r, _, hsome, hr, hne, hdead, hf, hi⟩⟩ := hbuild.of_ok himage
  · cases hnone
  · cases hsome
    refine .bind (.get (.bind (Wp.vm (.of_eq himage ?_))))
    exact execCommit_spec hp hproc h1 hr hproc.image.live hdead hf hi

/-! ## `exit`, `sleep` and `yield` -/

theorem exit_spec (hE : E .initExiting) (hk : KInv L k g) (hp : k.Live p) (status : Int) :
    Wp E (exit p status) k fun _ k' => Act L .calm k g k' g := by
  unfold exit
  split
  · exact Wp.throw hE
  · refine .modify (Act.ofSame hk rfl ⟨fun q => ?_, rfl⟩)
    exact hold_exitTable ((Proc.live_iff _).mp hp) _ _ q

theorem sleep_spec (hk : KInv L k g) (hp : k.Live p) (chan : Nat) :
    Wp E (sleep p chan) k fun _ k' => Act L .calm k g k' g := by
  refine .bind (.get ((setProc_spec hk ?_).mono fun _ _ h => h.1))
  exact Proc.hold_sleep ((Proc.live_iff _).mp hp) _ _

theorem yield_spec (hk : KInv L k g) (hp : k.Live p) :
    Wp E (yield p) k fun _ k' => Act L .calm k g k' g := by
  refine .bind (.get ((setProc_spec hk ?_).mono fun _ _ h => h.1))
  exact Proc.hold_yield ((Proc.live_iff _).mp hp) _

/-! ## `wait` -/

theorem Act.destroyed (ha : Act L (.destroy c) k g k' g') (hne : p ≠ c) :
    (k'.proc p).hold = (k.proc p).hold := by
  cases ha with
  | destroy _ _ _ _ _ _ _ honly => exact honly.other p hne

theorem Act.calmed (ha : Act L .calm k g k' g') (p : Slot) :
    (k'.proc p).hold = (k.proc p).hold := by
  cases ha with
  | calm _ _ hsame => exact hsame.hold p

/-- The labels of writes to the given ranges of user addresses of `p`. -/
def Writing (p : Slot) (ranges : List (Nat × Nat)) (l : Label) : Prop :=
  l = .calm ∨ l = .replace p ∨ ∃ dstva len n, (dstva, len) ∈ ranges ∧ n ≤ len ∧ l = .write p dstva n

theorem Copied.acts {dstva len : Nat} {ret : Int} (h : Copied L p dstva len k g ret k' g') :
    Acts L (Writing p [(dstva, len)]) k g k' g' := by
  cases h with
  | failed hcalm => exact .single (.inl rfl) hcalm
  | done hreplace hn hwrite =>
    exact (Acts.single (.inr (.inl rfl)) hreplace).tail
      (.inr (.inr ⟨_, _, _, List.mem_singleton_self _, hn, rfl⟩)) hwrite

theorem Writing.mono {l : Label} {ranges ranges' : List (Nat × Nat)} (h : Writing p ranges l)
    (hsub : ranges ⊆ ranges') : Writing p ranges' l := by
  obtain h | h | ⟨dstva, len, n, hr, hn, h⟩ := h
  · exact .inl h
  · exact .inr (.inl h)
  · exact .inr (.inr ⟨dstva, len, n, hsub hr, hn, h⟩)

/-- The labels of a call of `wait` by `p` that writes to the given ranges. -/
def Reaping (k : Kernel) (p : Slot) (ranges : List (Nat × Nat)) (l : Label) : Prop :=
  l = .calm ∨ Writing p ranges l ∨ ∃ c, c ≠ p ∧ (k.proc c).state = .zombie ∧ l = .destroy c

theorem waitRound_spec (hk : KInv L k g) (hrun : (k.proc p).state = .running) (addr : Nat) :
    Wp E (waitRound L p addr) k fun _ k' => ∃ g', Acts L (Reaping k p [(addr, 4)]) k g k' g' ∧
      k'.Live p := by
  have hp : k.Live p := .of_state hrun (by decide)
  refine .bind (.get ?_)
  split
  next c hfirst =>
    have hz : (k.proc c).state = .zombie := (of_decide_eq_true (Kernel.first_some hfirst)).2
    have hne : c ≠ p := by grind
    -- what follows the call of `copyout`
    have hrest : ∀ (r : Int) (w w' : Option Waited) (k1 : Kernel) (g1 : Account),
        k1.proc = k.proc → Acts L (Writing p [(addr, 4)]) k g k1 g1 →
        Wp E (if r < 0 then pure w else do freeproc L c; pure w') k1 fun _ k' =>
          ∃ g', Acts L (Reaping k p [(addr, 4)]) k g k' g' ∧ k'.Live p := by
      intro r w w' k1 g1 hproc hwrite
      have hacts : Acts L (Reaping k p [(addr, 4)]) k g k1 g1 :=
        hwrite.mono fun _ hl => .inr (.inl hl)
      have hp1 : k1.Live p := hp.congr (by rw [hproc])
      have hz1 : (k1.proc c).state = .zombie := by rw [hproc, hz]
      have hc1 : k1.Live c := .of_state hz1 (by decide)
      split
      · exact .pure ⟨g1, hacts, hp1⟩
      · refine (freeproc_spec (hacts.inv hk) hc1).seq ?_
        rintro - k2 ⟨g2, hdestroy⟩
        exact .pure ⟨g2, hacts.tail (.inr (.inr ⟨c, hne, hz, rfl⟩)) hdestroy,
          hp1.congr (hdestroy.destroyed hne.symm)⟩
    split
    · refine (copyoutTo_spec hk hp _ _ _).seq ?_
      rintro r k1 ⟨hproc, g1, hcopied⟩
      exact hrest r _ _ k1 g1 hproc hcopied.acts
    · exact .bind (.pure (hrest 0 _ _ k g rfl .refl))
  next =>
    split
    · exact .pure ⟨g, .refl, hp⟩
    · refine (sleep_spec hk hp _).seq ?_
      intro _ k1 hcalm
      exact .pure ⟨g, .single (.inl rfl) hcalm, hp.congr (by rw [hcalm.calmed])⟩

end Xv6
