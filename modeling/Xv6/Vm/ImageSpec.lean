import Xv6.Exec
import Xv6.Vm.Sound

/-!
# The table of a process

`proc_pagetable` and `proc_freepagetable`, and how `uvmalloc`, `uvmdealloc` and `uvmcopy` change
a table whose user pages are exactly the first `n`.
-/

namespace Xv6

open ByteMem

variable {L : Layout} {km km' : Kmem} {g g' : Account} {r r' n t : Nat}
variable {v : Nat}
variable {n' sz : Nat} {xperm : BitVec 64}

/-- A table with `n` user pages, for a process with its trapframe in frame `t`. -/
structure Image (L : Layout) (g : Account) (r n t : Nat) : Prop where
  live : g.Live r
  small : n < userPages
  full : ∀ v, v < n → g.map r v ≠ 0
  empty : ∀ v, n ≤ v → v < userPages → g.map r v = 0
  trapframe : g.map r userPages = pa2pte (t * pgsize) ||| (pteR ||| pteW) ||| pteV
  trampoline : g.map r (userPages + 1) = pa2pte L.trampoline ||| (pteR ||| pteX) ||| pteV
  above : ∀ v, userPages + 2 ≤ v → g.map r v = 0

theorem Image.congr (hi : Image L g r n t) (hnode : g'.node r = g.node r)
    (hmap : g'.map r = g.map r) : Image L g' r n t := by
  refine ⟨?_, hi.small, ?_, ?_, ?_, ?_, ?_⟩
  · rw [Account.Live, hnode]
    exact hi.live
  all_goals rw [hmap]
  · exact hi.full
  · exact hi.empty
  · exact hi.trapframe
  · exact hi.trampoline
  · exact hi.above

theorem Image.resize (hi : Image L g r n t) (hl : g'.Live r) (hsmall : n' < userPages)
    (hfull : ∀ v, v < n' → g'.map r v ≠ 0) (hempty : ∀ v, n' ≤ v → v < userPages → g'.map r v = 0)
    (hsys : ∀ v, userPages ≤ v → g'.map r v = g.map r v) : Image L g' r n' t := by
  refine ⟨hl, hsmall, hfull, hempty, ?_, ?_, ?_⟩
  · rw [hsys _ (by omega)]
    exact hi.trapframe
  · rw [hsys _ (by omega)]
    exact hi.trampoline
  · intro v hv
    rw [hsys v (by omega)]
    exact hi.above v hv

theorem Image.grow (hi : Image L g r n t) (hg : Grow r km g km' g') : Image L g' r n t := by
  refine hi.resize (hg.node _ _ hi.live) hi.small ?_ ?_ ?_ <;> rw [hg.map]
  · exact hi.full
  · exact hi.empty
  · exact fun _ _ => rfl

/-! ## Nothing has changed -/

/-- Owners, tables and the contents of pages are as before. The order of the free list is
not. -/
structure Quiet (km : Kmem) (g : Account) (km' : Kmem) (g' : Account) : Prop where
  owners : g'.owners = g.owners
  node : g'.node = g.node
  map : g'.map = g.map
  mem : ∀ f o, o.Data → o ∈ g.owners f → Agree km.mem km'.mem (f * pgsize) pgsize

theorem Quiet.refl (km : Kmem) (g : Account) : Quiet km g km g :=
  ⟨rfl, rfl, rfl, fun _ _ _ _ => Agree.refl _ _ _⟩

theorem Sound.quiet (h : Sound L km g) (h' : Sound L km' g') (hf : Frame r km g km' g')
    (hr : ¬ g.Live r) (hr' : ¬ g'.Live r) : Quiet km g km' g' := by
  obtain ⟨hnode, hmap, huser⟩ := h.gone hr
  obtain ⟨hnode', hmap', huser'⟩ := h'.gone hr'
  refine ⟨?_, ?_, ?_, ?_⟩
  · funext f
    ext o
    cases o with
    | table r' =>
      by_cases he : r' = r
      · subst he
        rw [← h.rep.node, ← h'.rep.node, hnode, hnode']
      · exact hf.owner f _ he
    | user r' v =>
      by_cases he : r' = r
      · grind
      · exact hf.owner f _ he
    | held x =>
      by_cases hx : x = .fresh
      · subst hx
        simp [h.settled f, h'.settled f]
      · exact hf.owner f _ hx
  · funext r' n
    by_cases he : r' = r
    · subst he
      rw [hnode, hnode']
    · rw [hf.node r' he]
  · funext r' v
    by_cases he : r' = r
    · subst he
      rw [hmap, hmap']
    · rw [hf.map r' he]
  · intro f o hd ho
    refine hf.mem f o hd ?_ ho
    cases o with
    | table => exact hd.elim
    | user _ v =>
      rintro rfl
      exact huser v f ho
    | held =>
      rintro rfl
      exact h.settled f ho

/-! ## TRAPFRAME and TRAMPOLINE -/

theorem trapframeVa_eq : trapframeVa = userPages * pgsize := by
  rw [userPages_eq]
  unfold trapframeVa trampolineVa maxva
  rw [pgsize_eq]
  rfl

theorem trampolineVa_eq : trampolineVa = (userPages + 1) * pgsize := by
  rw [userPages_eq]
  unfold trampolineVa maxva
  rw [pgsize_eq]
  rfl

theorem Grow.frameSet {w : BitVec 64} (h : Rep L none km g) (hg : Grow r km g km' g')
    (h' : Rep L none km' (g'.setMap r v w)) : Frame r km g km' (g'.setMap r v w) where
  owner f o ho := by
    cases o with
    | table r' => exact h.table_iff h' (hg.other r' ho)
    | user => exact hg.data f _ (Owner.data_user _ _)
    | held => exact hg.data f _ (Owner.data_held _)
  node r' hr := hg.other r' hr
  map r' hr := by
    funext v'
    rw [g'.setMap_ne fun e => hr e.1, hg.map]
  mem f o hd _ ho := hg.mem f o hd ho

theorem mapSystem_spec (h : Sound L km g) (hr : g.Live r) (hv : userPages ≤ v) (hv' : v < 2 ^ 26)
    (hmap : g.map r v = 0) (pa : Nat) {perm : BitVec 64} (hread : perm.getLsbD 1 = true)
    (hu : perm.getLsbD 4 = false) :
    Total (mappages (r * pgsize) (v * pgsize) pgsize pa perm) km fun ret km' =>
      ∃ g', Sound L km' g' ∧ Frame r km g km' g' ∧ g'.Live r ∧
        (∀ v', v' ≠ v → g'.map r v' = g.map r v') ∧
        (ret = -1 ∧ g'.map r v = 0 ∧ g.free.length < g.missing r v ∨
          ret = 0 ∧ g'.map r v = pa2pte pa ||| perm ||| pteV ∧ Adds r v g g') := by
  refine (mappages_spec h.rep hr hv' hmap pa perm).mono ?_
  rintro ret km' ⟨g', hg, ⟨rfl, -, hrep, hfew⟩ | ⟨rfl, hrep, hadds⟩⟩
  · refine ⟨g', h.grow hr hrep hg, hg.frame h.rep hrep, hg.node _ _ hr, ?_, .inl ⟨rfl, ?_, hfew⟩⟩
    · intro v' _
      rw [hg.map]
    · rw [hg.map]
      exact hmap
  · have ht := h.table r hr
    have hleaf : LeafPte (pa2pte pa ||| perm ||| pteV) := leafPte_mk hread
    have hu' : (pa2pte pa ||| perm ||| pteV).getLsbD 4 = false := by
      rw [getLsbD_mk (by decide), hu]
      rfl
    have hframe := hg.frameSet h.rep hrep
    refine ⟨_, ?_, hframe, hg.node _ _ hr, ?_, .inr ⟨rfl, g'.setMap_self v _,
      ⟨hadds.free, hadds.node⟩⟩⟩
    · refine h.ofFrame hframe hrep hr ((ht.grow hg).setSystem hv (fun _ => hleaf) hu') ?_ ?_ ?_ ?_
      · intro f o hd ho
        exact .inl ((hg.data f o hd).mp ho)
      · intro f v' x hown hx
        cases h.held f x _ hx ((hg.data f _ (Owner.data_user _ _)).mp hown) trivial
      · intro v' o hlt hw ho hd
        rw [g'.setMap_ne fun e => by omega, hg.map] at hw ho
        exact h.writer r v' o hr hlt hw ((hg.data _ o hd).mp ho) hd
      · intro r' v' v'' hne hl hlt hw ho
        have := h.writer r' v' _ hl hlt hw
          ((hg.data _ _ (Owner.data_user _ _)).mp ho) trivial
        injection this with he
        exact hne he.symm
    · intro v' hne
      rw [g'.setMap_ne fun e => hne e.2, hg.map]

theorem unmapSystem_spec (h : Sound L km g) (hr : g.Live r) (hv : userPages ≤ v) (hv' : v < 2 ^ 26)
    (hleaf : LeafPte (g.map r v)) :
    Total (uvmunmap L (r * pgsize) (v * pgsize) 1 false) km fun _ km' =>
      ∃ g', Sound L km' g' ∧ Frame r km g km' g' ∧ g'.Live r ∧
        (∀ v', v' ≠ v → g'.map r v' = g.map r v') ∧ g'.map r v = 0 := by
  refine (uvmunmap_keep_spec h.rep hr (n := 1) hv' fun u h1 h2 => ?_).mono ?_
  · obtain rfl : u = v := by omega
    exact hleaf
  rintro - km' ⟨map, hrep, hmap, hmem⟩
  obtain rfl : map = (g.setMap r v 0).map := by
    funext r' u
    rw [hmap]
    exact if_congr (and_congr_right fun _ => by omega) rfl rfl
  refine ⟨g.setMap r v 0, ?_, Frame.setMap hmem, hr, ?_, g.setMap_self v 0⟩
  · exact h.setSystem hr hrep hv (fun hne => absurd rfl hne) (by simp)
  · intro v' hne
    exact g.setMap_ne fun e => hne e.2

theorem freewalkEmpty_spec (h : Sound L km g) (hr : g.Live r) (hmap : ∀ v, g.map r v = 0) :
    Total (freewalk L stackDepth (r * pgsize)) km fun _ km' =>
      ∃ g', Sound L km' g' ∧ Frame r km g km' g' ∧ ¬ g'.Live r := by
  refine (freewalk_spec h.rep hr hmap).mono ?_
  rintro - km' ⟨g', hrep, hp⟩
  obtain ⟨hs, hgone⟩ := h.prune hrep hp hmap hr
  exact ⟨g', hs, hp.frame h.rep hrep, hgone⟩

theorem uvmfreeEmpty_spec (h : Sound L km g) (hr : g.Live r) (hmap : ∀ v, g.map r v = 0) :
    Total (uvmfree L (r * pgsize) 0) km fun _ km' =>
      ∃ g', Sound L km' g' ∧ Frame r km g km' g' ∧ ¬ g'.Live r := by
  exact freewalkEmpty_spec h hr hmap

/-! ## `proc_pagetable` -/

theorem uvmcreate_spec (h : Sound L km g) : Total uvmcreate km fun ret km' =>
      (ret = 0 ∧ km' = km ∧ g.free = []) ∨
      ∃ r g', ret = r * pgsize ∧ ret ≠ 0 ∧ ¬ g.Live r ∧ Sound L km' g' ∧
        Frame r km g km' g' ∧ g'.Live r ∧ (∀ v, g'.map r v = 0) ∧
        g.free.length = g'.free.length + 1 ∧ (∀ i, g'.node r (.mid i) = none) ∧
        ∀ j, g'.node r (.leaf j) = none := by
  refine (kalloc_spec h.rep).seq ?_
  rintro pa km1 (⟨hfree, rfl, rfl⟩ | ⟨f, fs, hfree, rfl, hman, ho, hrep, hmem⟩)
  · exact .pure (.inl ⟨rfl, rfl, hfree⟩)
  · rw [if_neg hman.ne_zero]
    refine .bind (Wp.memset (.pure (.inr ?_)))
    obtain ⟨hnone, hroot⟩ := h.rep.addRoot hrep ho hmem
    have hr : ¬ g.Live f := by grind [Account.Live]
    obtain ⟨hs, hg⟩ := h.addRoot
      hr hroot ho (hmem.trans (onlyPage_fill km1.mem f 0))
    refine ⟨f, _, rfl, hman.ne_zero, hr, hs, hg.frame h.rep hroot, g.addNode_self _ _ _,
      (h.gone hr).2.1, congrArg List.length hfree, fun i => ?_, fun j => ?_⟩
    · exact (g.addNode_ne (by simp)).trans ((h.gone hr).1 _)
    · exact (g.addNode_ne (by simp)).trans ((h.gone hr).1 _)

theorem getLsbD_rx : (pteR ||| pteX).getLsbD 1 = true ∧ (pteR ||| pteX).getLsbD 4 = false := by
  decide

theorem getLsbD_rw : (pteR ||| pteW).getLsbD 1 = true ∧ (pteR ||| pteW).getLsbD 4 = false := by
  decide

theorem userPages_lt : userPages + 1 < 2 ^ 26 := by
  rw [userPages_eq]
  decide

theorem procPagetable_spec (h : Sound L km g) (t : Nat) :
    Total (procPagetable L (t * pgsize)) km fun ret km' => ∃ g', Sound L km' g' ∧
      (ret = 0 ∧ Quiet km g km' g' ∧ g.free.length < 3 ∨
        ∃ r, ret = r * pgsize ∧ ret ≠ 0 ∧ ¬ g.Live r ∧ Frame r km g km' g' ∧ Image L g' r 0 t ∧
          g.free.length = g'.free.length + 3 ∧ g'.Bare r) := by
  have hup := userPages_lt
  refine (uvmcreate_spec h).seq ?_
  rintro pa km1 (⟨rfl, rfl, hempty⟩ | ⟨r, g1, rfl, hne, hr, h1, hf1, hl1, hm1, hfree1, hmid1, hleaf1⟩)
  · exact .pure ⟨g, h, .inl ⟨rfl, Quiet.refl _ _, by simp [hempty]⟩⟩
  rw [if_neg hne, trampolineVa_eq, trapframeVa_eq]
  -- the two pages share their page-table pages
  have htop : (userPages + 1) / 512 = 131071 ∧ userPages / 512 = 131071 := by
    rw [userPages_eq]
    decide
  have hmiss1 : g1.missing r (userPages + 1) = 2 := by
    rw [Account.missing, Account.cost, Account.cost, hmid1, hleaf1]
    rfl
  refine (mapSystem_spec h1 hl1 (by omega) hup (hm1 _) L.trampoline getLsbD_rx.1
    getLsbD_rx.2).seq ?_
  rintro ret km2 ⟨g2, h2, hf2, hl2, hm2, ⟨rfl, hz, hfew⟩ | ⟨rfl, hw, hadds2⟩⟩
  · -- no memory for the first entry
    refine (uvmfreeEmpty_spec h2 hl2 ?_).seq ?_
    · grind
    · rintro - km3 ⟨g3, h3, hf3, hgone⟩
      exact .pure ⟨g3, h3, .inl ⟨rfl, h.quiet h3 ((hf1.trans hf2).trans hf3) hr hgone, by omega⟩⟩
  have hmiss2 : g2.missing r userPages = 0 := by
    simp only [Account.missing, Account.cost, hadds2.node, htop]
    simp
  have hfree2 := hadds2.free
  refine (mapSystem_spec h2 hl2 (Nat.le_refl _) (by omega)
    ((hm2 _ (by omega)).trans (hm1 _)) (t * pgsize) getLsbD_rw.1 getLsbD_rw.2).seq ?_
  rintro ret km3 ⟨g3, h3, hf3, hl3, hm3, ⟨rfl, hz, hfew⟩ | ⟨rfl, hw', hadds3⟩⟩
  · -- no memory for the second entry
    have htop : g3.map r (userPages + 1) = pa2pte L.trampoline ||| (pteR ||| pteX) ||| pteV := by grind
    refine (unmapSystem_spec h3 hl3 (v := userPages + 1) (by omega) hup
      (htop ▸ leafPte_mk getLsbD_rx.1)).seq ?_
    rintro - km4 ⟨g4, h4, hf4, hl4, hm4, hz4⟩
    refine (uvmfreeEmpty_spec h4 hl4 ?_).seq ?_
    · grind
    · rintro - km5 ⟨g5, h5, hf5, hgone⟩
      have hf := (((hf1.trans hf2).trans hf3).trans hf4).trans hf5
      exact .pure ⟨g5, h5, .inl ⟨rfl, h.quiet h5 hf hr hgone, by omega⟩⟩
  · have hfree3 := hadds3.free
    refine .pure ⟨g3, h3, .inr ⟨r, rfl, hne, hr, (hf1.trans hf2).trans hf3, ?_, by omega, ?_⟩⟩
    · refine ⟨hl3, by rw [userPages_eq]; decide, ?_, ?_, hw', ?_, ?_⟩
      · omega
      · grind
      · rw [hm3 _ (by omega)]
        exact hw
      · grind
    · refine ⟨?_, fun j hj => ?_⟩
      · rw [hadds3.node, hadds2.node, htop.1, htop.2, hmid1]
        decide
      · rw [hadds3.node, hadds2.node, htop.1, htop.2, hleaf1]
        simp only [ne_eq, reduceCtorEq, not_false_eq_true, Node.leaf.injEq, true_and]
        omega

/-! ## `proc_freepagetable` -/

theorem Image.leaf_trapframe (hi : Image L g r n t) : LeafPte (g.map r userPages) := by
  rw [hi.trapframe]
  exact leafPte_mk getLsbD_rw.1

theorem Image.leaf_trampoline (hi : Image L g r n t) : LeafPte (g.map r (userPages + 1)) := by
  rw [hi.trampoline]
  exact leafPte_mk getLsbD_rx.1

theorem uvmfree_spec (h : Sound L km g) (hr : g.Live r) (hn : pagesOf sz ≤ userPages)
    (hfull : ∀ v, v < pagesOf sz → g.map r v ≠ 0) (hempty : ∀ v, pagesOf sz ≤ v → g.map r v = 0) :
    Total (uvmfree L (r * pgsize) sz) km fun _ km' =>
      ∃ g', Sound L km' g' ∧ Frame r km g km' g' ∧ ¬ g'.Live r := by
  unfold uvmfree
  by_cases hsz : sz > 0
  · rw [if_pos hsz, pgroundup_eq (lt_of_pagesOf hn), mul_pgsize_div]
    have hunmap := uvmunmap_spec h.rep (h.table r hr) 0 (pagesOf sz) (by omega)
      (fun v _ hv => hfull v (by omega))
    rw [Nat.zero_mul] at hunmap
    refine hunmap.seq ?_
    rintro - km1 ⟨g1, hrep, hs⟩
    have hl : g1.Live r := by
      rw [Account.Live, hs.node]
      exact hr
    refine (freewalkEmpty_spec (h.shrink hr hrep hs) hl ?_).mono ?_
    · grind [hs.map]
    · rintro - km2 ⟨g2, h2, hf, hgone⟩
      exact ⟨g2, h2, hs.frame.trans hf, hgone⟩
  · have hz : sz = 0 := by omega
    subst hz
    refine freewalkEmpty_spec h hr ?_
    intro v
    refine hempty v ?_
    rw [pagesOf_zero]
    exact Nat.zero_le v

theorem procFreepagetable_spec (h : Sound L km g) (hi : Image L g r (pagesOf sz) t) :
    Total (procFreepagetable L (r * pgsize) sz) km fun _ km' =>
      ∃ g', Sound L km' g' ∧ Frame r km g km' g' ∧ ¬ g'.Live r := by
  have hup := userPages_lt
  have hsmall := hi.small
  unfold procFreepagetable
  rw [trampolineVa_eq, trapframeVa_eq]
  refine (unmapSystem_spec h hi.live (v := userPages + 1) (by omega) hup hi.leaf_trampoline).seq ?_
  rintro - km1 ⟨g1, h₁, hf1, hl1, hm1, hz1⟩
  have hleaf : LeafPte (g1.map r userPages) := by
    rw [hm1 _ (by omega)]
    exact hi.leaf_trapframe
  refine (unmapSystem_spec h₁ hl1 (Nat.le_refl _) (by omega) hleaf).seq ?_
  rintro - km2 ⟨g2, h₂, hf2, hl2, hm2, hz2⟩
  refine (uvmfree_spec h₂ hl2 (Nat.le_of_lt hsmall) ?_ ?_).mono ?_
  · grind [hi.full]
  · intro v hv
    by_cases h1 : v = userPages
    · rw [h1]
      exact hz2
    rw [hm2 v h1]
    by_cases h2 : v = userPages + 1
    · rw [h2]
      exact hz1
    rw [hm1 v h2]
    by_cases h3 : v < userPages
    · exact hi.empty v hv h3
    · exact hi.above v (by omega)
  · rintro - km3 ⟨g3, h₃, hf3, hgone⟩
    exact ⟨g3, h₃, (hf1.trans hf2).trans hf3, hgone⟩

/-! ## User memory -/

theorem getLsbD_read (xperm : BitVec 64) : (pteR ||| pteU ||| xperm).getLsbD 1 = true := by
  have : (pteR ||| pteU).getLsbD 1 = true := by decide
  rw [BitVec.getLsbD_or, this, Bool.true_or]

theorem Image.extend (hi : Image L g r n t)
    (he : Extend L r n n' (pteR ||| pteU ||| xperm) km g km' g') (hle : n ≤ n')
    (hsmall : n' < userPages) : Image L g' r n' t := by
  refine hi.resize (he.node _ _ hi.live) hsmall ?_ ?_ ?_
  · intro v hv
    by_cases hlt : v < n
    · rw [he.out v (by omega)]
      exact hi.full v hlt
    · rw [he.word v (by omega) hv]
      exact (leafPte_mk (getLsbD_read xperm)).ne_zero
  · intro v h1 h2
    rw [he.out v (by omega)]
    exact hi.empty v (by omega) h2
  · intro v hv
    exact he.out v (by omega)

theorem imageAlloc_spec (h : Sound L km g) {oldsz newsz : Nat}
    (hlow : LowPerm (pteR ||| pteU ||| xperm)) (hi : Image L g r (pagesOf oldsz) t)
    (hle : oldsz ≤ newsz) :
    Total (uvmalloc L (r * pgsize) oldsz newsz xperm) km fun ret km' => ∃ g', Sound L km' g' ∧
      (ret = 0 ∧ Grow r km g km' g' ∨ ret = newsz ∧ ret ≠ 0 ∧ Image L g' r (pagesOf newsz) t ∧
          Extend L r (pagesOf oldsz) (pagesOf newsz) (pteR ||| pteU ||| xperm) km g km' g') := by
  have hread := getLsbD_read xperm
  have hmono := pagesOf_mono hle
  refine (uvmalloc_spec hlow hread h.rep (h.table r hi.live) hi.small hle hi.full hi.empty).mono ?_
  rintro ret km' (⟨rfl, g', hrep, hg⟩ | ⟨rfl, hsmall, g', hrep, he⟩)
  · exact ⟨g', h.grow hi.live hrep hg, .inl ⟨rfl, hg⟩⟩
  · refine ⟨g', ?_, ?_⟩
    · exact h.extend hi.live hrep he hread (by omega) fun v h1 h2 => hi.empty v h1 (by omega)
    · by_cases hz : ret = 0
      · -- an empty table of size zero
        subst hz
        have hz : oldsz = 0 := by omega
        subst hz
        exact .inl ⟨rfl, he.grow⟩
      · exact .inr ⟨rfl, hz, hi.extend he hmono hsmall, he⟩

theorem Image.shrink (hi : Image L g r n t) (hs : Shrink r n' n km g km' g') (hle : n' ≤ n) :
    Image L g' r n' t := by
  have hsmall := hi.small
  refine hi.resize ?_ (by omega) ?_ ?_ ?_
  · rw [Account.Live, hs.node]
    exact hi.live
  · intro v hv
    rw [hs.map, if_neg (by omega)]
    exact hi.full v (by omega)
  · grind [hs.map, hi.empty]
  · intro v hv
    rw [hs.map, if_neg (by omega)]

theorem imageDealloc_spec (h : Sound L km g) {oldsz newsz : Nat}
    (hi : Image L g r (pagesOf oldsz) t) (hlt : newsz < oldsz) :
    Total (uvmdealloc L (r * pgsize) oldsz newsz) km fun ret km' => ret = newsz ∧
      ∃ g', Sound L km' g' ∧ Shrink r (pagesOf newsz) (pagesOf oldsz) km g km' g' ∧
        Image L g' r (pagesOf newsz) t := by
  have hsmall := hi.small
  refine (uvmdealloc_spec h.rep (h.table r hi.live) hlt (by omega) ?_).mono ?_
  · intro v _ hv
    exact hi.full v hv
  · rintro ret km' ⟨rfl, g', hrep, hs⟩
    exact ⟨rfl, g', h.shrink hi.live hrep hs, hs, hi.shrink hs (pagesOf_mono (by omega))⟩

theorem Image.shareParent (hi : Image L g r n t) (ht : Table g r) {m k : Nat} (hne : r ≠ r')
    (hs : Share r r' m k km g km' g') (hm : m ≤ n) : Image L g' r n t := by
  have hsmall := hi.small
  refine hi.resize ?_ hi.small ?_ ?_ ?_
  · rw [Account.Live, hs.node r hne]
    exact hi.live
  · intro v hv
    rw [hs.parent]
    split
    · exact (ht.leaf v (hi.full v hv)).cow.ne_zero
    · exact hi.full v hv
  · intro v h1 h2
    rw [hs.parent, if_neg (by omega)]
    exact hi.empty v h1 h2
  · intro v hv
    rw [hs.parent, if_neg (by omega)]

theorem Image.shareChild {t' m k : Nat} (hi : Image L g r n t) (hi' : Image L g r' 0 t')
    (ht : Table g r) (hs : Share r r' m k km g km' g') (hk : k ≤ n) : Image L g' r' k t' := by
  have hsmall := hi.small
  refine hi'.resize (hs.grow _ _ hi'.live) (by omega) ?_ ?_ ?_
  · intro v hv
    rw [hs.child, if_pos hv]
    exact (ht.leaf v (hi.full v (by omega))).child.ne_zero
  · intro v h1 h2
    rw [hs.child, if_neg (by omega)]
    exact hi'.empty v (Nat.zero_le v) h2
  · intro v hv
    rw [hs.child, if_neg (by omega)]

theorem imageCopy_spec (h : Sound L km g) {t' : Nat} (hne : r ≠ r')
    (hi : Image L g r (pagesOf sz) t) (hi' : Image L g r' 0 t') :
    Total (uvmcopy L (r * pgsize) (r' * pgsize) sz) km fun ret km' => ∃ m k g',
      m ≤ pagesOf sz ∧ Sound L km' g' ∧ Share r r' m k km g km' g' ∧ Image L g' r' k t' ∧
      (ret = 0 ∧ m = pagesOf sz ∧ k = pagesOf sz ∨ ret = -1 ∧ k = 0) := by
  have hsmall := hi.small
  have ht := h.table r hi.live
  have hnone : ∀ v, v < userPages → g.map r' v = 0 := fun v hv => hi'.empty v (Nat.zero_le v) hv
  have hall : ∀ {m k km' g'}, k ≤ m → m ≤ pagesOf sz → Rep L none km' g' →
      Share r r' m k km g km' g' → Sound L km' g' ∧ Image L g' r' k t' := by
    intro m k km' g' hkm hm hrep hs
    exact ⟨h.share hi.live hi'.live hne hrep hs hkm (by omega)
      (fun v hv => hi.full v (by omega)) hnone, hi.shareChild hi' ht hs (by omega)⟩
  refine (uvmcopy_spec hne h.rep ht (h.table r' hi'.live) (by omega) hi.full hnone).mono ?_
  rintro ret km' (⟨rfl, -, g', hrep, hs⟩ | ⟨rfl, m, g', hm, -, hrep, hs⟩) <;> grind

theorem Image.replace (hi : Image L g r n t) (hv : v < n) (hs : Replace r v km g km' g') :
    Image L g' r n t := by
  have hsmall := hi.small
  refine hi.resize ?_ hi.small ?_ ?_ ?_
  · rw [Account.Live, hs.node]
    exact hi.live
  · intro v' hv'
    by_cases he : v' = v
    · rw [he, hs.word]
      exact (leafPte_fresh _).ne_zero
    · rw [hs.map r v' fun e => he e.2]
      exact hi.full v' hv'
  · intro v' h1 h2
    rw [hs.map r v' fun e => by omega]
    exact hi.empty v' h1 h2
  · intro v' hv'
    exact hs.map r v' fun e => by omega

theorem Image.lt_of_mapped (hi : Image L g r n t) (hv : v < userPages) (hmap : g.map r v ≠ 0) :
    v < n := by
  by_contra hge
  exact hmap (hi.empty v (by omega) hv)

end Xv6
