import Xv6.Vm.ImageSpec

/-!
# Building a new image: `exec`

Up to the commit, `exec` works on a table of its own. Whatever stops it, that table is gone
afterwards and nothing else has changed.
-/

namespace Xv6

open ByteMem

variable {L : Layout} {km₀ km km' : Kmem} {g₀ g g' : Account} {r n t : Nat}
variable {v : Nat}
variable {xperm : BitVec 64}

/-- The user pages of table `r` are used by nothing else. -/
def Account.Own (g : Account) (r : Nat) : Prop :=
  ∀ v o, v < userPages → g.map r v ≠ 0 → o ∈ g.owners (ppn (g.map r v)) → o.Data → o = .user r v

/-- All user pages of table `r` below `n` are open to user code. -/
def Account.Open (g : Account) (r n : Nat) : Prop := ∀ v, v < n → (g.map r v).getLsbD 4 = true

/-- A table that is being built, since the account was `g₀`. -/
structure Building (L : Layout) (r t : Nat) (km₀ : Kmem) (g₀ : Account) (n : Nat) (km : Kmem)
    (g : Account) : Prop where
  sound : Sound L km g
  frame : Frame r km₀ g₀ km g
  image : Image L g r n t
  own : g.Own r

theorem Sound.withMem (h : Sound L km g) (h' : Rep L none km' g) : Sound L km' g :=
  { h with rep := h' }

/-! ## Steps of the construction -/

theorem Account.Own.ne_of_outside (hown : g.Own r) {f : Nat} {o : Owner} (hv : v < userPages)
    (hmap : g.map r v ≠ 0) (ho : o ∈ g.owners f) (hd : o.Data) (hout : o.Outside r) :
    f ≠ ppn (g.map r v) := by
  rintro rfl
  rw [hown v o hv hmap ho hd] at hout
  exact hout rfl

section

variable (hb : Building L r t km₀ g₀ n km g)

include hb

theorem Building.writePage (hv : v < n) {m' : Mem} (hm : OnlyPage (ppn (g.map r v)) km.mem m') :
    Building L r t km₀ g₀ n { km with mem := m' } g := by
  have hsmall := hb.image.small
  have hmap := hb.image.full v hv
  have hown := (hb.sound.table r hb.image.live).owner_self (v := v) (by omega) hmap
  have hrep : Rep L none { km with mem := m' } g := hb.sound.rep.writeData hown trivial hm
  refine ⟨hb.sound.withMem hrep, hb.frame.trans ?_, hb.image, hb.own⟩
  refine ⟨fun _ _ _ => Iff.rfl, fun _ _ => rfl, fun _ _ => rfl, ?_⟩
  intro f o hd hout ho
  exact hm f (hb.own.ne_of_outside (by omega) hmap ho hd hout)

theorem Building.grow (hg : Grow r km g km' g')
    (hs : Sound L km' g') : Building L r t km₀ g₀ n km' g' := by
  refine ⟨hs, hb.frame.trans (hg.frame hb.sound.rep hs.rep), hb.image.grow hg, ?_⟩
  intro v o hv hmap ho hd
  rw [hg.map] at hmap ho
  exact hb.own v o hv hmap ((hg.data _ o hd).mp ho) hd

theorem Building.extend {n' : Nat} {perm : BitVec 64}
    (he : Extend L r n n' perm km g km' g') (hs : Sound L km' g') (hi : Image L g' r n' t) :
    Building L r t km₀ g₀ n' km' g' := by
  refine ⟨hs, hb.frame.trans (he.frame hb.sound.rep hs.rep), hi, ?_⟩
  intro v o hv hmap ho hd
  obtain hold | ⟨v', h1, h2, rfl, h4⟩ := (he.owner _ o hd).mp ho
  · by_cases hin : n ≤ v ∧ v < n'
    · rw [he.fresh v hin.1 hin.2] at hold
      exact absurd hold (Finset.notMem_empty _)
    · rw [he.out v hin] at hmap hold
      exact hb.own v o hv hmap hold hd
  · have hsmall := hi.small
    rw [(hs.table r hi.live).inj v' v (by omega) hv (hi.full v' h2) hmap h4]

theorem Building.replace (hv : v < n)
    (he : Replace r v km g km' g') (hrep : Rep L none km' g') : Building L r t km₀ g₀ n km' g' := by
  have hsmall := hb.image.small
  have hs := hb.sound.replace hb.image.live hrep (by omega) he
  refine ⟨hs, hb.frame.trans (he.frame hb.sound.rep hrep), hb.image.replace hv he, ?_⟩
  intro v' o hv' hmap ho hd
  obtain ⟨rfl, h2⟩ | ⟨-, h2⟩ := (he.owner _ o hd).mp ho
  · have hmapv : g'.map r v ≠ 0 := by
      rw [he.word]
      exact (leafPte_fresh _).ne_zero
    rw [(hs.table r (hb.image.replace hv he).live).inj v' v hv' (by omega) hmap hmapv h2]
  · by_cases hvv : v' = v
    · subst hvv
      rw [he.fresh] at h2
      exact absurd h2 (Finset.notMem_empty _)
    · rw [he.map r v' fun e => hvv e.2] at hmap h2
      exact hb.own v' o hv' hmap h2 hd

theorem Building.wrote {dstva len : Nat} {src : Nat → Byte}
    (hw : Wrote g r dstva src len km.mem km'.mem) (hrep : Rep L none km' g) :
    Building L r t km₀ g₀ n km' g := by
  refine ⟨hb.sound.withMem hrep, hb.frame.trans ?_, hb.image, hb.own⟩
  refine ⟨fun _ _ _ => Iff.rfl, fun _ _ => rfl, fun _ _ => rfl, ?_⟩
  intro f o hd hout ho x h1 h2
  refine hw.miss x ?_
  rintro va hva hva' rfl
  obtain ⟨hlt, hmap, -⟩ := hw.mapped va hva hva'
  refine hb.own.ne_of_outside hlt hmap ho hd hout ?_
  have hmod := Nat.mod_lt va pgsize_pos
  have hdiv : (ppn (g.map r (va / pgsize)) * pgsize + va % pgsize) / pgsize =
      ppn (g.map r (va / pgsize)) := by
    rw [Nat.add_comm, Nat.add_mul_div_right _ _ pgsize_pos, Nat.div_eq_of_lt hmod, Nat.zero_add]
  rw [← hdiv]
  refine (Nat.div_eq_of_lt_le h1 ?_).symm
  rw [Nat.succ_mul]
  exact h2

theorem Building.setFlags (hv : v < n) {w : BitVec 64}
    (hppn : ppn w = ppn (g.map r v)) (hleaf : LeafPte w)
    (hwr : w.getLsbD 2 = true → (g.map r v).getLsbD 2 = true)
    (hrep : Rep L none km' (g.setMap r v w))
    (hmem : ∀ f o, o.Data → o ∈ g.owners f → Agree km.mem km'.mem (f * pgsize) pgsize) :
    Building L r t km₀ g₀ n km' (g.setMap r v w) := by
  have hsmall := hb.image.small
  have hl := hb.image.live
  have ht := hb.sound.table r hl
  have hold := hb.image.full v hv
  have hmap : ∀ v', (g.setMap r v w).map r v' ≠ 0 ↔ g.map r v' ≠ 0 := by
    intro v'
    by_cases he : v' = v
    · subst he
      rw [g.setMap_self]
      exact ⟨fun _ => hold, fun _ => hleaf.ne_zero⟩
    · rw [g.setMap_ne fun e => he e.2]
  have hpp : ∀ v', ppn ((g.setMap r v w).map r v') = ppn (g.map r v') := by
    intro v'
    by_cases he : v' = v
    · subst he
      rw [g.setMap_self]
      exact hppn
    · rw [g.setMap_ne fun e => he e.2]
  have hframe : Frame r km g km' (g.setMap r v w) := Frame.setMap hmem
  have htab : Table (g.setMap r v w) r := by
    refine ⟨hl, ?_, ?_, ?_, ?_⟩
    · intro v' hne
      by_cases he : v' = v
      · subst he
        rw [g.setMap_self]
        exact hleaf
      · rw [g.setMap_ne fun e => he e.2] at hne ⊢
        exact ht.leaf v' hne
    · intro v' f
      rw [hmap v', hpp v']
      exact ht.owner v' f
    · grind [ht.inj]
    · intro v' h'
      rw [g.setMap_ne fun e => by omega]
      exact ht.system v' h'
  refine ⟨?_, hb.frame.trans hframe, ?_, ?_⟩
  · refine hb.sound.ofFrame hframe hrep hl htab (fun f o _ ho => .inl ho) ?_ ?_ ?_
    · intro f v' x hu hx
      cases hb.sound.held f x _ hx hu trivial
    · intro v' o hv' hw ho hd
      rw [hpp v'] at ho
      refine hb.sound.writer r v' o hl hv' ?_ ho hd
      by_cases he : v' = v
      · subst he
        rw [g.setMap_self] at hw
        exact hwr hw
      · rwa [g.setMap_ne fun e => he e.2] at hw
    · intro r' v' v'' hne hl' hv' hw hu
      have := hb.sound.writer r' v' _ hl' hv' hw hu trivial
      injection this with he
      exact hne he.symm
  · refine hb.image.resize hl hb.image.small ?_ ?_ ?_
    · intro v' hv'
      rw [hmap v']
      exact hb.image.full v' hv'
    · grind [hb.image.empty]
    · intro v' h'
      exact g.setMap_ne fun e => by omega
  · intro v' o hv' hne ho hd
    rw [hmap v'] at hne
    rw [hpp v'] at ho
    exact hb.own v' o hv' hne ho hd

end

/-! ## Segments -/

theorem loadsegLoop_spec (v0 offset sz : Nat) (ip : Inode) (hopen : g.Open r n) :
    ∀ (k j : Nat) (km : Kmem), v0 + j + k ≤ n → Building L r t km₀ g₀ n km g →
      Total (loadsegLoop (r * pgsize) (v0 * pgsize) ip offset sz k (j * pgsize)) km
        fun _ km' => Building L r t km₀ g₀ n km' g := by
  intro k
  induction k with
  | zero =>
    intro j km _ hb
    exact .pure hb
  | succ _ ih =>
    intro j km hle hb
    unfold loadsegLoop
    have hsmall := hb.image.small
    have ht := hb.sound.table r hb.image.live
    rw [← Nat.add_mul]
    refine (walkaddr_spec hb.sound.rep ht (v0 + j)).seq ?_
    rintro pa km1 ⟨rfl, ⟨-, hno⟩ | ⟨-, hpa, hne⟩⟩
    · exact absurd ⟨by omega, hb.image.full _ (by omega), hopen _ (by omega)⟩ hno
    · rw [if_neg hne, hpa]
      refine .bind (Wp.memput ?_)
      have hb' := hb.writePage (v := v0 + j) (by omega)
        (onlyPage_blit km1.mem (ppn (g.map r (v0 + j))) (a := 0)
          (n := ip.readi ((offset + j * pgsize) % 2 ^ 32) (min (sz - j * pgsize) pgsize))
          (fun i => ip.data ((offset + j * pgsize) % 2 ^ 32 + i)) (by
            unfold Inode.readi
            split <;> omega))
      split
      · exact .pure hb'
      · rw [← Nat.succ_mul]
        exact ih (j + 1) _ (by omega) hb'

theorem Inode.num_lt (ip : Inode) (off n : Nat) : ip.num off n < 256 ^ n := by
  induction n generalizing off with
  | zero => exact Nat.one_pos
  | succ _ ih =>
    have h2 := ih (off + 1)
    simp only [Inode.num, Nat.pow_succ]
    omega

theorem LowPerm.or {a b : BitVec 64} (ha : LowPerm a) (hb : LowPerm b) : LowPerm (a ||| b) := by
  intro i h1 h2
  rw [BitVec.getLsbD_or, ha i h1 h2, hb i h1 h2]
  rfl

theorem lowPerm_twoPow {k : Nat} (hk : k < 10) : LowPerm (BitVec.twoPow 64 k) := by
  intro i h1 _
  rw [BitVec.getLsbD_twoPow]
  simp only [Bool.and_eq_false_iff, decide_eq_false_iff_not]
  omega

theorem lowPerm_zero : LowPerm 0 := by
  intro i _ _
  simp

theorem lowPerm_flags2perm (flags : Nat) : LowPerm (pteR ||| pteU ||| flags2perm flags) := by
  refine ((lowPerm_twoPow (by decide)).or (lowPerm_twoPow (by decide))).or ?_
  refine LowPerm.or ?_ ?_
  · split
    · exact lowPerm_twoPow (by decide)
    · exact lowPerm_zero
  · split
    · exact lowPerm_twoPow (by decide)
    · exact lowPerm_zero

theorem lowPerm_w : LowPerm (pteR ||| pteU ||| pteW) :=
  ((lowPerm_twoPow (by decide)).or (lowPerm_twoPow (by decide))).or (lowPerm_twoPow (by decide))

theorem Account.Open.extend {n' : Nat} (ho : g.Open r n)
    (he : Extend L r n n' (pteR ||| pteU ||| xperm) km g km' g') : g'.Open r n' := by
  intro v hv
  by_cases hlt : v < n
  · rw [he.out v (by omega)]
    exact ho v hlt
  · grind [he.word, pteR, pteU, getLsbD_mk]

theorem buildAlloc_spec {oldsz newsz : Nat} (hlow : LowPerm (pteR ||| pteU ||| xperm))
    (hb : Building L r t km₀ g₀ (pagesOf oldsz) km g) (hopen : g.Open r (pagesOf oldsz)) :
    Total (uvmalloc L (r * pgsize) oldsz newsz xperm) km fun ret km' => ∃ g',
      (ret = 0 ∧ Building L r t km₀ g₀ (pagesOf oldsz) km' g') ∨
      (ret = max oldsz newsz ∧ ret ≠ 0 ∧ Building L r t km₀ g₀ (pagesOf ret) km' g' ∧
        g'.Open r (pagesOf ret)) := by
  by_cases hle : oldsz ≤ newsz
  · refine (imageAlloc_spec hb.sound hlow hb.image hle).mono ?_
    rintro ret km' ⟨g', hs, ⟨rfl, hg⟩ | ⟨rfl, hne, hi, he⟩⟩
    · exact ⟨g', .inl ⟨rfl, hb.grow hg hs⟩⟩
    · exact ⟨g', .inr ⟨(Nat.max_eq_right hle).symm, hne, hb.extend he hs hi, hopen.extend he⟩⟩
  · unfold uvmalloc
    rw [if_pos (by omega)]
    exact .pure ⟨g, .inr ⟨(Nat.max_eq_left (by omega)).symm, by omega, hb, hopen⟩⟩

theorem pagesOf_segment {vaddr filesz sz : Nat} (hal : vaddr % pgsize = 0)
    (hle : vaddr + filesz ≤ sz) : vaddr / pgsize + pagesOf filesz ≤ pagesOf sz := by
  unfold pagesOf
  rw [pgsize_eq] at *
  omega

theorem loadSegments_spec {ip : Inode} :
    ∀ (k off sz : Nat) (km : Kmem) (g : Account), Building L r t km₀ g₀ (pagesOf sz) km g →
      g.Open r (pagesOf sz) →
      Total (loadSegments L (r * pgsize) ip k off sz) km fun ret km' =>
        ∃ g', Building L r t km₀ g₀ (pagesOf ret.2) km' g' ∧
          (ret.1 = true → g'.Open r (pagesOf ret.2)) := by
  intro k
  induction k with
  | zero =>
    intro off sz km g hb ho
    exact .pure ⟨g, hb, fun _ => ho⟩
  | succ _ ih =>
    intro off sz km g hb ho
    unfold loadSegments
    refine .ite (fun _ => .pure ⟨g, hb, by simp⟩) fun _ => ?_
    have hvaddr : (ip.progHdr off).vaddr < 256 ^ 8 := ip.num_lt (off + 16) 8
    have hsize : (ip.progHdr off).memsz < 256 ^ 8 := ip.num_lt (off + 40) 8
    generalize ip.progHdr off = ph at hvaddr hsize
    refine .ite (fun _ => ih _ _ _ _ hb ho) fun _ => ?_
    refine .ite (fun _ => .pure ⟨g, hb, by simp⟩) fun hmemsz => ?_
    refine .ite (fun _ => .pure ⟨g, hb, by simp⟩) fun hwrap => ?_
    refine .ite (fun _ => .pure ⟨g, hb, by simp⟩) fun hal => ?_
    have hal' : ph.vaddr % pgsize = 0 := Decidable.not_not.mp hal
    have hsum : (ph.vaddr + ph.memsz) % 2 ^ 64 = ph.vaddr + ph.memsz := by omega
    rw [hsum]
    refine (buildAlloc_spec (lowPerm_flags2perm _) hb ho).seq ?_
    rintro sz1 km1 ⟨g1, ⟨rfl, hb1⟩ | ⟨hsz, hne, hb1, ho1⟩⟩
    · exact .pure ⟨g1, hb1, fun h => absurd h Bool.false_ne_true⟩
    · rw [if_neg hne]
      have hfit : ph.vaddr / pgsize + pagesOf (ph.filesz % 2 ^ 32) ≤ pagesOf sz1 :=
        pagesOf_segment hal' (by omega)
      have hload := loadsegLoop_spec (ph.vaddr / pgsize) (ph.off % 2 ^ 32) (ph.filesz % 2 ^ 32) ip
        ho1 (pagesOf (ph.filesz % 2 ^ 32)) 0 km1 (by omega) hb1
      rw [Nat.zero_mul, Nat.div_mul_cancel (Nat.dvd_of_mod_eq_zero hal')] at hload
      refine .seq hload ?_
      intro ok km2 hb2
      cases ok with
      | true => exact ih _ _ _ _ hb2 ho1
      | false => exact .pure ⟨g1, hb2, fun h => absurd h Bool.false_ne_true⟩

/-! ## The stack -/

theorem buildCopyout_spec (hb : Building L r t km₀ g₀ n km g) (dstva : Nat) (src : Nat → Byte)
    (len : Nat) :
    Total (copyout L (r * pgsize) dstva src len) km fun _ km' =>
      ∃ g', Building L r t km₀ g₀ n km' g' := by
  refine (copyout_spec hb.sound.rep (hb.sound.table r hb.image.live) dstva src len).mono ?_
  rintro ret km' (⟨-, rfl, -⟩ | ⟨hc, km1, g1, h1, hr, h2, len', -, -, hw⟩)
  · exact ⟨g, hb⟩
  · obtain ⟨-, ⟨hlt, hmap, -⟩, -⟩ := hc
    have hb1 := hb.replace (hb.image.lt_of_mapped hlt hmap) hr h1
    exact ⟨g1, hb1.wrote hw h2⟩

theorem pushArgs_spec {stackbase : Nat} :
    ∀ (argv : List (List Byte)) (argc sp : Nat) (ustack : List Nat) (km : Kmem) (g : Account),
      Building L r t km₀ g₀ n km g →
      Total (pushArgs L (r * pgsize) stackbase argv argc sp ustack) km fun _ km' =>
        ∃ g', Building L r t km₀ g₀ n km' g' := by
  intro argv
  induction argv with
  | nil =>
    intro argc sp ustack km g hb
    exact .pure ⟨g, hb⟩
  | cons _ _ ih =>
    intro argc sp ustack km g hb
    unfold pushArgs
    split
    · exact .pure ⟨g, hb⟩
    dsimp only
    split
    · exact .pure ⟨g, hb⟩
    refine (buildCopyout_spec hb _ _ _).seq ?_
    rintro ret km1 ⟨g1, hb1⟩
    split
    · exact .pure ⟨g1, hb1⟩
    · exact ih _ _ _ _ _ hb1

theorem getLsbD_clearU (w : BitVec 64) {i : Nat} (hi : i < 64) :
    (w &&& ~~~pteU).getLsbD i = (w.getLsbD i && decide (i ≠ 4)) := by
  rw [BitVec.getLsbD_and, BitVec.getLsbD_not, pteU, BitVec.getLsbD_twoPow]
  by_cases h : i = 4
  · subst h
    simp
  · simp [h, Ne.symm h, hi]

theorem buildClear_spec (hb : Building L r t km₀ g₀ n km g) (hv : v < n) :
    Total (uvmclear (r * pgsize) (v * pgsize)) km fun _ km' =>
      ∃ g', Building L r t km₀ g₀ n km' g' := by
  have hsmall := hb.image.small
  have hup := userPages_lt
  refine (uvmclear_spec hb.sound.rep hb.image.live (v := v) (by omega) (hb.image.full v hv)).mono ?_
  rintro - km' ⟨hrep, hmem⟩
  have hleaf := (hb.sound.table r hb.image.live).leaf v (hb.image.full v hv)
  refine ⟨_, hb.setFlags hv (w := g.map r v &&& ~~~pteU) ?_ ?_ ?_ hrep hmem⟩
  · refine ppn_congr _ ?_
    intro i h1 h2
    rw [getLsbD_clearU _ h2, decide_eq_true (by omega), Bool.and_true]
  · refine ⟨?_, ?_⟩
    · rw [getLsbD_clearU _ (by decide), hleaf.1]
      rfl
    · rw [getLsbD_clearU _ (by decide), hleaf.2]
      rfl
  · rw [getLsbD_clearU _ (by decide)]
    simp

theorem buildStack_spec {k : Nat} (hb : Building L r t km₀ g₀ k km g) (hopen : g.Open r k)
    (argv : List (List Byte)) :
    Total (buildStack L (r * pgsize) (k * pgsize) argv) km fun ret km' =>
      ∃ g', Building L r t km₀ g₀ (pagesOf ret.2) km' g' := by
  have hsmall := hb.image.small
  have hup := userPages_lt
  have hk := pagesOf_mul k
  have hk' : k * pgsize + 2 * pgsize = (k + 2) * pgsize := (Nat.add_mul k 2 pgsize).symm
  have hmod : (k * pgsize + 2 * pgsize) % 2 ^ 64 = (k + 2) * pgsize := by
    rw [pgsize_eq]
    omega
  have hb0 : Building L r t km₀ g₀ (pagesOf (k * pgsize)) km g := by
    rw [hk]
    exact hb
  unfold buildStack
  rw [hmod]
  refine (buildAlloc_spec lowPerm_w hb0 (by rw [hk]; exact hopen)).seq ?_
  rintro sz1 km1 ⟨g1, ⟨rfl, hb1⟩ | ⟨hsz, hne, hb1, -⟩⟩
  · exact .pure ⟨g1, hb1⟩
  rw [if_neg hne]
  have hle : k * pgsize ≤ (k + 2) * pgsize := Nat.mul_le_mul_right _ (by omega)
  rw [Nat.max_eq_right hle] at hsz
  subst hsz
  have hguard : (k + 2) * pgsize - 2 * pgsize = k * pgsize := by omega
  rw [hguard]
  refine (buildClear_spec hb1 (v := k) (by rw [pagesOf_mul]; omega)).seq ?_
  rintro - km2 ⟨g2, hb2⟩
  refine (pushArgs_spec argv _ _ _ _ _ hb2).seq ?_
  rintro ret km3 ⟨g3, hb3⟩
  cases ret with
  | none => exact .pure ⟨g3, hb3⟩
  | some args =>
    dsimp only
    split
    · exact .pure ⟨g3, hb3⟩
    refine (buildCopyout_spec hb3 _ _ _).seq ?_
    rintro ret km4 ⟨g4, hb4⟩
    split <;> exact .pure ⟨g4, hb4⟩

/-! ## `exec` up to the commit -/

theorem buildFree_spec {sz : Nat} (h0 : Sound L km₀ g₀) (hr : ¬ g₀.Live r)
    (hb : Building L r t km₀ g₀ (pagesOf sz) km g) :
    Total (procFreepagetable L (r * pgsize) sz) km fun _ km' =>
      ∃ g', Sound L km' g' ∧ Quiet km₀ g₀ km' g' := by
  refine (procFreepagetable_spec hb.sound hb.image).mono ?_
  rintro - km' ⟨g', hs, hf, hgone⟩
  exact ⟨g', hs, h0.quiet hs (hb.frame.trans hf) hr hgone⟩

theorem execImage_spec (h : Sound L km g) (t : Nat) (ip : Inode) (argv : List (List Byte)) :
    Total (execImage L (t * pgsize) ip argv) km fun ret km' => ∃ g', Sound L km' g' ∧
      (ret = none ∧ Quiet km g km' g' ∨
        ∃ r image, ret = some image ∧ image.pagetable = r * pgsize ∧ image.pagetable ≠ 0 ∧
          ¬ g.Live r ∧ Frame r km g km' g' ∧ Image L g' r (pagesOf image.sz) t) := by
  unfold execImage
  refine .ite (fun _ => .pure ⟨g, h, .inl ⟨rfl, .refl _ _⟩⟩) fun _ => ?_
  refine .ite (fun _ => .pure ⟨g, h, .inl ⟨rfl, .refl _ _⟩⟩) fun _ => ?_
  refine (procPagetable_spec h t).seq ?_
  rintro pa km1 ⟨g1, h1, ⟨rfl, hq, -⟩ | ⟨r, rfl, hne, hr, hf1, hi1, -⟩⟩
  · exact .pure ⟨g1, h1, .inl ⟨rfl, hq⟩⟩
  rw [if_neg hne]
  have hb1 : Building L r t km g (pagesOf 0) km1 g1 := by
    rw [pagesOf_zero]
    refine ⟨h1, hf1, hi1, ?_⟩
    intro v o hv hmap _ _
    exact absurd (hi1.empty v (Nat.zero_le v) hv) hmap
  have ho1 : g1.Open r (pagesOf 0) := by
    intro v hv
    rw [pagesOf_zero] at hv
    exact absurd hv (Nat.not_lt_zero v)
  refine (loadSegments_spec _ _ _ _ _ hb1 ho1).seq ?_
  rintro ⟨ok, sz⟩ km2 ⟨g2, hb2, ho2⟩
  cases ok with
  | false =>
    refine (buildFree_spec h hr hb2).seq ?_
    rintro - km3 ⟨g3, h3, hq⟩
    exact .pure ⟨g3, h3, .inl ⟨rfl, hq⟩⟩
  | true =>
    rw [if_neg (by simp), pgroundup_eq (lt_of_pagesOf (Nat.le_of_lt hb2.image.small))]
    refine (buildStack_spec hb2 (ho2 rfl) argv).seq ?_
    rintro ⟨stack, sz1⟩ km3 ⟨g3, hb3⟩
    cases stack with
    | none =>
      refine (buildFree_spec h hr hb3).seq ?_
      rintro - km4 ⟨g4, h4, hq⟩
      exact .pure ⟨g4, h4, .inl ⟨rfl, hq⟩⟩
    | some top => exact .pure ⟨g3, hb3.sound, .inr ⟨r, _, rfl, rfl, hne, hr, hb3.frame, hb3.image⟩⟩

end Xv6
