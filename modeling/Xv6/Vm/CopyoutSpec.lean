import Xv6.Vm.CopySpec

/-!
# Writing user memory: `copyPage`, `uvmclear` and `copyout`

`copyPage` is the replacement of a page that the store-fault handler and `copyout` share. The
loop of `copyout` writes through the entries it finds, whatever their write permission.
-/

namespace Xv6

open ByteMem

variable {L : Layout} {km km' : Kmem} {g g' : Account} {r : Nat}
variable {v : Nat}

attribute [local simp] Account.refree Account.setMap

/-! ## A page of its own -/

theorem getLsbD_freshPte (pa : Nat) {i : Nat} (hi : i < 10) :
    (freshPte pa).getLsbD i = decide (i < 5) := by
  have hlow := pa2pte_low pa hi
  simp only [freshPte, BitVec.getLsbD_and, BitVec.getLsbD_or, BitVec.getLsbD_not, hlow, pteV, pteR,
    pteW, pteU, pteX, pteCow, BitVec.getLsbD_twoPow]
  have : i = 0 ∨ i = 1 ∨ i = 2 ∨ i = 3 ∨ i = 4 ∨ i = 5 ∨ i = 6 ∨ i = 7 ∨ i = 8 ∨ i = 9 := by omega
  rcases this with rfl | rfl | rfl | rfl | rfl | rfl | rfl | rfl | rfl | rfl <;> rfl

theorem ppn_freshPte {f : Nat} (hf : f < 2 ^ 44) : ppn (freshPte (f * pgsize)) = f := by
  rw [ppn_congr (pa2pte (f * pgsize)), ppn_pa2pte hf]
  intro i h1 h2
  simp only [freshPte, BitVec.getLsbD_and, BitVec.getLsbD_or, BitVec.getLsbD_not, pteV, pteR, pteW,
    pteU, pteX, pteCow, BitVec.getLsbD_twoPow, h2]
  simp [show i ≠ 0 by omega, show i ≠ 1 by omega, show i ≠ 2 by omega, show i ≠ 3 by omega,
    show i ≠ 4 by omega, show i ≠ 8 by omega, eq_comm]

theorem leafPte_fresh (pa : Nat) : LeafPte (freshPte pa) :=
  ⟨getLsbD_freshPte pa (by decide), getLsbD_freshPte pa (by decide)⟩

/-- Page `v` of table `r` has moved to a fresh frame with the same bytes. -/
structure Replace (r v : Nat) (km : Kmem) (g : Account) (km' : Kmem) (g' : Account) : Prop where
  node : g'.node = g.node
  map : ∀ r' v', ¬ (r' = r ∧ v' = v) → g'.map r' v' = g.map r' v'
  word : g'.map r v = freshPte (ppn (g'.map r v) * pgsize)
  fresh : g.owners (ppn (g'.map r v)) = ∅
  owner : ∀ f o, o.Data → (o ∈ g'.owners f ↔
    o = .user r v ∧ f = ppn (g'.map r v) ∨ o ≠ .user r v ∧ o ∈ g.owners f)
  copy : ∀ a, a < pgsize →
    km'.mem (ppn (g'.map r v) * pgsize + a) = km.mem (ppn (g.map r v) * pgsize + a)
  mem : ∀ f o, o.Data → o ≠ .user r v → o ∈ g.owners f → Agree km.mem km'.mem (f * pgsize) pgsize

theorem copyPage_spec (h : Rep L none km g) (ht : Table g r) {f0 : Nat} (hv : v < userPages)
    (hmap : g.map r v ≠ 0) (hn : g.node r (.leaf (v / 512)) = some f0) :
    Total (copyPage L (pteAddr f0 v)) km fun b km' =>
      (b = false ∧ km' = km ∧ g.free = []) ∨
      (b = true ∧ ∃ g', Rep L none km' g' ∧ Replace r v km g km' g') := by
  have hown := ht.owner_self hv hmap
  refine .bind (Wp.loadWord ?_)
  rw [h.load_pte hn, pte2pa_eq]
  refine (kalloc_spec h).seq ?_
  rintro pa km1 (⟨hfree, rfl, rfl⟩ | ⟨f, fs, -, rfl, hman, ho, h₁, hmem1⟩)
  · exact .pure (.inl ⟨rfl, rfl, hfree⟩)
  rw [if_neg hman.ne_zero]
  refine .bind (Wp.memmove (.bind (Wp.storeWord ?_)))
  let g₁ := g.refree f {.held .fresh} fs
  let w := freshPte (f * pgsize)
  let old := ppn (g.map r v)
  have hold : old ≠ f := by grind
  have hnew : g₁.owners f = {.held .fresh} := by simp [g₁]
  have hkept : ∀ f' ≠ f, g₁.owners f' = g.owners f' := fun f' hf => by simp [g₁, hf]
  have hmove := onlyPage_move km1.mem f (old * pgsize)
  have h₂ := h₁.writeData (o := .held .fresh) (by simp) trivial hmove
  have hn2 : g₁.node r (.leaf (v / 512)) = some f0 := hn
  have h3 := h₂.setPte hn2 w
  have hown3 : Owner.user r v ∈ (g₁.setMap r v w).owners old := (hkept old hold).symm ▸ hown
  refine (kfree_spec h3 hown3 trivial).seq ?_
  rintro _ km4 ⟨h4, honly, hkeep⟩
  have hsingle : ((g₁.setMap r v w).release old (.user r v)).owners f = {.held .fresh} := by
    simp [Account.release, hold.symm, hnew]
  have h5 := h4.rename (.user r v) hsingle trivial trivial
  -- a data page other than the new one keeps its bytes while it has an owner
  have hagree : ∀ f' o, o.Data → o ≠ .user r v → o ∈ g.owners f' →
      Agree km.mem km4.mem (f' * pgsize) pgsize := by
    intro f' o hd hne ho'
    have hff : f' ≠ f := by grind
    have ho1 : o ∈ g₁.owners f' := (hkept f' hff).symm ▸ ho'
    refine (((hmem1 f' hff).trans (hmove f' hff)).trans
      (h₂.agree_setPte hn2 ho1 hd _ w)).trans ?_
    by_cases hfo : f' = old
    · subst hfo
      have herase : ((g₁.setMap r v w).owners old).erase (.user r v) ≠ ∅ :=
        Finset.ne_empty_of_mem (Finset.mem_erase.mpr ⟨hne, ho1⟩)
      rw [hkeep herase]
      exact Agree.refl _ _ _
    · exact honly f' hfo
  let g₂ := ((g₁.setMap r v w).release old (.user r v)).setOwners f {.user r v}
  have hword : g₂.map r v = w := Account.setMap_self _ _ _
  have hppn : ppn w = f := ppn_freshPte hman.small
  refine .pure (.inr ⟨rfl, _, h5, rfl, ?_, ?_, ?_, ?_, ?_, hagree⟩)
  · intro r' v' hne
    exact Account.setMap_ne _ hne
  · rw [hword, hppn]
  · rw [hword, hppn]
    exact ho
  · intro f' o hd
    rw [hword, hppn]
    by_cases hff : f' = f
    · subst hff
      simp [Account.setOwners, ho]
    · have hset : o ∈ g₂.owners f' ↔ o ≠ .user r v ∧ o ∈ g.owners f' := by
        by_cases hfo : f' = old
        · subst hfo
          simp [g₂, Account.setOwners, Account.release, hff, hkept]
        · have hno : o = .user r v → o ∉ g.owners f' := by
            rintro rfl hu
            exact hfo ((ht.owner v f').mp hu).2.2.symm
          have hiff : o ∈ g.owners f' ↔ o ≠ .user r v ∧ o ∈ g.owners f' :=
            ⟨fun h' => ⟨fun he => hno he h', h'⟩, fun h' => h'.2⟩
          rw [← hiff]
          simp [g₂, Account.setOwners, Account.release, hff, hfo, hkept]
      rw [hset]
      simp [hff]
  · intro a ha
    rw [hword, hppn]
    have h1 : km4.mem (f * pgsize + a) =
        store64 (move km1.mem (f * pgsize) (old * pgsize) pgsize) (pteAddr f0 v) w (f * pgsize + a) :=
      honly f (Ne.symm hold) _ (Nat.le_add_right _ _) (by omega)
    have hin : .held .fresh ∈ g₁.owners f := by simp [hnew]
    have h2 := h₂.agree_setPte hn2 hin trivial
      (move km1.mem (f * pgsize) (old * pgsize) pgsize) w (f * pgsize + a) (Nat.le_add_right _ _)
      (by omega)
    rw [h1, h2, move_at _ _ ha]
    exact hmem1 _ hold _ (Nat.le_add_right _ _) (by omega)

theorem Replace.free_ne (h : Rep L none km g) (h' : Rep L none km' g')
    (hr : Replace r v km g km' g') : g.free ≠ [] := by
  have hown : .user r v ∈ g'.owners (ppn (g'.map r v)) :=
    (hr.owner _ (.user r v) trivial).mpr (.inl ⟨rfl, rfl⟩)
  exact List.ne_nil_of_mem ((h.free _).mpr ⟨h'.managed_of_mem hown, hr.fresh⟩)

theorem Replace.frame (h : Rep L none km g) (h' : Rep L none km' g')
    (hr : Replace r v km g km' g') : Frame r km g km' g' where
  owner f o ho := by
    cases o with
    | table => exact h.table_iff h' (by rw [hr.node])
    | user r' v' =>
      have hne : Owner.user r' v' ≠ .user r v := by
        intro he
        injection he with he
        exact ho he
      rw [hr.owner f (.user r' v') trivial]
      simp [hne]
    | held x =>
      rw [hr.owner f (.held x) trivial]
      simp
  node r' _ := by rw [hr.node]
  map r' hne := by
    funext v'
    exact hr.map r' v' (by rintro ⟨he, -⟩; exact hne he)
  mem f o hd ho hf := by
    refine hr.mem f o hd ?_ hf
    rintro rfl
    exact ho rfl

theorem Table.replace (ht : Table g r) (hv : v < userPages) (hr : Replace r v km g km' g') :
    Table g' r := by
  have hleaf : LeafPte (g'.map r v) := by
    rw [hr.word]
    exact leafPte_fresh _
  have hmap : ∀ v', v' ≠ v → g'.map r v' = g.map r v' :=
    fun v' hne => hr.map r v' (by rintro ⟨-, he⟩; exact hne he)
  have hcross : ∀ v', v' < userPages → v' ≠ v → g'.map r v' ≠ 0 →
      ppn (g'.map r v') ≠ ppn (g'.map r v) := by
    intro v' hv' hne hm hp
    rw [hmap v' hne] at hm hp
    have ho := ht.owner_self hv' hm
    rw [hp, hr.fresh] at ho
    exact absurd ho (Finset.notMem_empty _)
  refine ⟨?_, ?_, ?_, ?_, ?_⟩
  · unfold Account.Live
    rw [hr.node]
    exact ht.live
  · intro v' hm
    by_cases he : v' = v
    · subst he
      exact hleaf
    · rw [hmap v' he] at hm ⊢
      exact ht.leaf v' hm
  · intro v' f
    rw [hr.owner f (.user r v') trivial]
    by_cases he : v' = v
    · subst he
      simp only [true_and, ne_eq, not_true_eq_false, false_and, or_false]
      constructor
      · intro hf
        exact ⟨hv, hleaf.ne_zero, hf.symm⟩
      · rintro ⟨-, -, hf⟩
        exact hf.symm
    · have hne : Owner.user r v' ≠ .user r v := by
        intro h'
        injection h' with _ h'
        exact he h'
      rw [hmap v' he, ← ht.owner v' f]
      simp [hne]
  · intro v1 v2 hv1 hv2 hm1 hm2 hp
    by_cases h1 : v1 = v
    · grind
    · by_cases h2 : v2 = v
      · grind
      · grind [ht.inj]
  · grind [ht.system]

/-! ## `walkaddr` and the loop of `copyout` -/

def Account.UserMapped (g : Account) (r v : Nat) : Prop :=
  v < userPages ∧ g.map r v ≠ 0 ∧ (g.map r v).getLsbD 4 = true

def Account.phys (g : Account) (r va : Nat) : Nat :=
  ppn (g.map r (va / pgsize)) * pgsize + va % pgsize

theorem Table.phys_inj (ht : Table g r) {va va' : Nat} (h : g.UserMapped r (va / pgsize))
    (h' : g.UserMapped r (va' / pgsize)) (he : g.phys r va = g.phys r va') : va = va' := by
  have h1 := Nat.mod_lt va pgsize_pos
  have h2 := Nat.mod_lt va' pgsize_pos
  have hppn : ppn (g.map r (va / pgsize)) = ppn (g.map r (va' / pgsize)) := by
    have e := congrArg (· / pgsize) he
    simp only [Account.phys] at e
    rwa [Nat.mul_comm, Nat.mul_add_div pgsize_pos, Nat.div_eq_of_lt h1, Nat.mul_comm,
      Nat.mul_add_div pgsize_pos, Nat.div_eq_of_lt h2] at e
  have hpage := ht.inj _ _ h.1 h'.1 h.2.1 h'.2.1 hppn
  have hoff : va % pgsize = va' % pgsize := by
    simp only [Account.phys, hppn] at he
    omega
  rw [← Nat.div_add_mod va pgsize, ← Nat.div_add_mod va' pgsize, hpage, hoff]

theorem walkaddr_spec (h : Rep L none km g) (ht : Table g r) (v : Nat) :
    Total (walkaddr (r * pgsize) (v * pgsize)) km fun pa km' =>
      km' = km ∧ (pa = 0 ∧ ¬ g.UserMapped r v ∨
        g.UserMapped r v ∧ pa = ppn (g.map r v) * pgsize ∧ pa ≠ 0) := by
  unfold walkaddr
  by_cases hv : v < 2 ^ 26
  · rw [if_neg (va_lt_maxva hv)]
    refine (walk_find h ht.live hv).seq ?_
    rintro a km1 ⟨rfl, ⟨hnone, rfl⟩ | ⟨f, hn, rfl⟩⟩
    · refine .pure ⟨rfl, .inl ⟨rfl, ?_⟩⟩
      rintro ⟨-, hm, -⟩
      exact hm (h.absent r v hnone)
    · rw [if_neg (pteAddr_ne_zero h hn)]
      refine .bind (Wp.loadWord ?_)
      rw [h.load_pte hn]
      by_cases hm : g.map r v = 0
      · rw [hm, hasFlag_zero, if_pos (by simp)]
        exact .pure ⟨rfl, .inl ⟨rfl, fun hu => hu.2.1 hm⟩⟩
      · rw [(ht.leaf v hm).hasFlag_v, if_neg (by simp), hasFlag_u]
        cases hu : (g.map r v).getLsbD 4 with
        | false =>
          refine .pure ⟨rfl, .inl ⟨rfl, ?_⟩⟩
          rintro ⟨-, -, hu'⟩
          rw [hu] at hu'
          cases hu'
        | true =>
          rw [if_neg (by simp), pte2pa_eq]
          have hlt : v < userPages := by
            by_contra hge
            rw [ht.system v (by omega)] at hu
            cases hu
          have hman := h.managed_of_mem (ht.owner_self hlt hm)
          exact .pure ⟨rfl, .inr ⟨⟨hlt, hm, hu⟩, rfl, hman.ne_zero⟩⟩
  · rw [if_pos (by unfold maxva; rw [pgsize_eq]; omega)]
    refine .pure ⟨rfl, .inl ⟨rfl, ?_⟩⟩
    rintro ⟨hu, -⟩
    rw [userPages_eq] at hu
    omega

/-- The bytes of `src` stand at `[dstva, dstva + done)` of table `r`; no other byte of memory
has changed. -/
structure Wrote (g : Account) (r dstva : Nat) (src : Nat → Byte) (done : Nat) (m m' : Mem) :
    Prop where
  mapped : ∀ va, dstva ≤ va → va < dstva + done → g.UserMapped r (va / pgsize)
  hit : ∀ va, dstva ≤ va → va < dstva + done → m' (g.phys r va) = src (va - dstva)
  miss : ∀ x, (∀ va, dstva ≤ va → va < dstva + done → x ≠ g.phys r va) → m' x = m x

theorem Wrote.nil (g : Account) (r dstva : Nat) (src : Nat → Byte) (m : Mem) :
    Wrote g r dstva src 0 m m :=
  ⟨fun va h1 h2 => by omega, fun va h1 h2 => by omega, fun _ _ => rfl⟩

theorem Wrote.append (ht : Table g r) {dstva n k : Nat} {src : Nat → Byte} {m m' m'' : Mem}
    (h : Wrote g r dstva src n m m') (h' : Wrote g r (dstva + n) (fun i => src (i + n)) k m' m'') :
    Wrote g r dstva src (n + k) m m'' := by
  refine ⟨?_, ?_, ?_⟩
  · intro va h1 h2
    rcases Nat.lt_or_ge va (dstva + n) with hv | hv
    · exact h.mapped va h1 hv
    · exact h'.mapped va hv (by omega)
  · intro va h1 h2
    rcases Nat.lt_or_ge va (dstva + n) with hv | hv
    · rw [h'.miss, h.hit va h1 hv]
      intro va' hv1 hv2 he
      have := ht.phys_inj (h.mapped va h1 hv) (h'.mapped va' hv1 hv2) he
      omega
    · rw [h'.hit va hv (by omega)]
      congr 1
      omega
  · intro x hx
    rw [h'.miss x fun va h1 h2 => hx va (by omega) (by omega),
      h.miss x fun va h1 h2 => hx va h1 (by omega)]

theorem Account.phys_add (g : Account) (r : Nat) {va i : Nat} (hi : va % pgsize + i < pgsize) :
    (va + i) / pgsize = va / pgsize ∧ g.phys r (va + i) = g.phys r va + i := by
  have hmod : (va + i) % pgsize = va % pgsize + i := by
    rw [Nat.add_mod, Nat.mod_eq_of_lt (show i < pgsize by omega), Nat.mod_eq_of_lt hi]
  have hdiv : (va + i) / pgsize = va / pgsize := by
    rw [Nat.add_div pgsize_pos, Nat.div_eq_of_lt (show i < pgsize by omega),
      Nat.mod_eq_of_lt (show i < pgsize by omega), if_neg (by omega), Nat.add_zero]
  rw [Account.phys, Account.phys, hdiv, hmod, Nat.add_assoc]
  exact ⟨rfl, rfl⟩

theorem wrote_blit {dstva n : Nat} (src : Nat → Byte) (m : Mem)
    (hu : g.UserMapped r (dstva / pgsize)) (hn : dstva % pgsize + n ≤ pgsize) :
    Wrote g r dstva src n m (blit m (g.phys r dstva) src n) := by
  have hpage : ∀ va, dstva ≤ va → va < dstva + n →
      va / pgsize = dstva / pgsize ∧ g.phys r va = g.phys r dstva + (va - dstva) := by
    intro va h1 h2
    obtain ⟨i, rfl⟩ := Nat.exists_eq_add_of_le h1
    rw [Nat.add_sub_cancel_left]
    exact g.phys_add r (by omega)
  refine ⟨?_, ?_, ?_⟩
  · grind
  · intro va h1 h2
    rw [(hpage va h1 h2).2]
    exact blit_at m src (by omega)
  · intro x hx
    have hout : ¬ (g.phys r dstva ≤ x ∧ x < g.phys r dstva + n) := by
      rintro ⟨h1, h2⟩
      have hlt : dstva + (x - g.phys r dstva) < dstva + n := by omega
      refine hx (dstva + (x - g.phys r dstva)) (by omega) hlt ?_
      rw [(hpage _ (by omega) hlt).2]
      omega
    simp [blit, hout]

/-- The loop of `copyout` writes from `dstva` up to the end or to the first page that is not
user memory. -/
def Account.Filled (g : Account) (r dstva : Nat) (src : Nat → Byte) (len : Nat) (m : Mem)
    (ret : Int) (m' : Mem) : Prop :=
  ∃ done, done ≤ len ∧ (ret = 0 ∧ done = len ∨
    ret = -1 ∧ done < len ∧ ¬ g.UserMapped r ((dstva + done) / pgsize)) ∧
    Wrote g r dstva src done m m'

theorem copyoutLoop_spec (ht : Table g r) :
    ∀ (fuel dstva : Nat) (src : Nat → Byte) (len : Nat) (km : Kmem), len ≤ fuel → Rep L none km g →
      Total (copyoutLoop (r * pgsize) fuel dstva src len) km fun ret km' =>
        Rep L none km' g ∧ g.Filled r dstva src len km.mem ret km'.mem := by
  intro fuel
  induction fuel with
  | zero =>
    intro dstva src len km hlen h
    obtain rfl : len = 0 := by omega
    exact .pure ⟨h, 0, Nat.le_refl _, .inl ⟨rfl, rfl⟩, Wrote.nil _ _ _ _ _⟩
  | succ _ ih =>
    intro dstva src len km hlen h
    unfold copyoutLoop
    by_cases hzero : len = 0
    · subst hzero
      exact .pure ⟨h, 0, Nat.le_refl _, .inl ⟨rfl, rfl⟩, Wrote.nil _ _ _ _ _⟩
    · rw [if_neg hzero]
      refine (walkaddr_spec h ht (dstva / pgsize)).seq ?_
      rintro pa km1 ⟨rfl, ⟨rfl, hno⟩ | ⟨hu, rfl, hne⟩⟩
      · exact .pure ⟨h, 0, Nat.zero_le _, .inr ⟨rfl, by omega, hno⟩, Wrote.nil _ _ _ _ _⟩
      · rw [if_neg hne]
        have e1 := Nat.div_add_mod dstva pgsize
        have e2 := Nat.mod_lt dstva pgsize_pos
        have e3 : pgsize * (dstva / pgsize) = dstva / pgsize * pgsize := Nat.mul_comm _ _
        have hoff : dstva - pgrounddown dstva = dstva % pgsize := by
          unfold pgrounddown
          omega
        have hphys : ppn (g.map r (dstva / pgsize)) * pgsize + dstva % pgsize = g.phys r dstva :=
          rfl
        rw [hoff, hphys]
        refine .bind (Wp.memput ?_)
        have hn : dstva % pgsize + min (pgsize - dstva % pgsize) len ≤ pgsize := by omega
        have hw := wrote_blit src km1.mem hu hn
        have h₁ := h.writeData (ht.owner_self hu.1 hu.2.1) trivial
          (onlyPage_blit km1.mem (ppn (g.map r (dstva / pgsize))) src hn)
        refine (ih (pgrounddown dstva + pgsize) _
          (len - min (pgsize - dstva % pgsize) len) _ (by omega) h₁).mono ?_
        rintro ret km2 ⟨h₂, done, hdone, hret, hwrote⟩
        refine ⟨h₂, min (pgsize - dstva % pgsize) len + done, by omega, ?_, ?_⟩
        · refine hret.imp (fun h => ⟨h.1, by omega⟩) fun h => ⟨h.1, by omega, ?_⟩
          have he : dstva + (min (pgsize - dstva % pgsize) len + done) =
              pgrounddown dstva + pgsize + done := by
            unfold pgrounddown
            omega
          rw [he]
          exact h.2.2
        · refine hw.append ht ?_
          rcases Nat.lt_or_ge (pgsize - dstva % pgsize) len with hlt | hge
          · grind [pgrounddown, pgsize]
          · refine ⟨fun va h1 h2 => by omega, fun va h1 h2 => by omega, ?_⟩
            intro x _
            exact hwrote.miss x fun va h1 h2 => by omega

/-! ## `copyout` -/

def Account.Copyable (g : Account) (r v : Nat) : Prop :=
  v ≠ 0 ∧ g.UserMapped r v ∧ ((g.map r v).getLsbD 2 = true ∨ (g.map r v).getLsbD 8 = true)

/-- `copyout` does nothing, since its first page does not pass or there is no memory, or it
replaces its first page and writes. -/
def CopiedOut (L : Layout) (r dstva : Nat) (src : Nat → Byte) (len : Nat) (km : Kmem) (g : Account)
    (ret : Int) (km' : Kmem) : Prop :=
  (ret = -1 ∧ km' = km ∧ (g.Copyable r (dstva / pgsize) → g.free = [])) ∨
  g.Copyable r (dstva / pgsize) ∧ ∃ km1 g1, Rep L none km1 g1 ∧
    Replace r (dstva / pgsize) km g km1 g1 ∧ Rep L none km' g1 ∧
    g1.Filled r dstva src len km1.mem ret km'.mem

theorem copyout_spec (h : Rep L none km g) (ht : Table g r) (dstva : Nat) (src : Nat → Byte)
    (len : Nat) :
    Total (copyout L (r * pgsize) dstva src len) km (CopiedOut L r dstva src len km g) := by
  have hfail : ¬ g.Copyable r (dstva / pgsize) →
      Total (pure (-1) : Vm Int) km (CopiedOut L r dstva src len km g) :=
    fun hno => .pure (.inl ⟨rfl, rfl, fun hc => absurd hc hno⟩)
  unfold copyout
  refine .ite (fun hmax => ?_) fun hmax => ?_
  · exact hfail fun hc => va_lt_maxva (by grind [hc.2.1.1, userPages_eq]) hmax
  by_cases hzero : pgrounddown dstva = 0
  · rw [if_pos hzero]
    exact hfail fun hc => Nat.mul_ne_zero hc.1 pgsize_pos.ne' hzero
  rw [if_neg hzero]
  have hv : dstva / pgsize < 2 ^ 26 := by grind [pgrounddown, maxva, pgsize_eq]
  have hv0 : dstva / pgsize ≠ 0 := by
    intro he
    unfold pgrounddown at hzero
    rw [he, Nat.zero_mul] at hzero
    exact hzero rfl
  refine (walk_find h ht.live hv).seq ?_
  rintro a km1 ⟨rfl, ⟨hnone, rfl⟩ | ⟨f, hn, rfl⟩⟩
  · exact hfail fun hc => hc.2.1.2.1 (h.absent r _ hnone)
  rw [if_neg (pteAddr_ne_zero h hn)]
  refine .bind (Wp.loadWord ?_)
  rw [h.load_pte hn, hasFlag_w, hasFlag_cow, hasFlag_u, hasFlag_v]
  split
  · exact hfail (by grind [Account.Copyable])
  next hwrite =>
  split
  · exact hfail fun hc => by grind [hc.2.1.2.2, (ht.leaf _ hc.2.1.2.1).1]
  next huser =>
  simp only [Bool.and_eq_true, Bool.not_eq_true', not_and, Bool.not_eq_false] at hwrite
  simp only [Bool.or_eq_true, Bool.not_eq_true', not_or, Bool.not_eq_false] at huser
  have hm : g.map r (dstva / pgsize) ≠ 0 := by grind
  have hlt : dstva / pgsize < userPages := by
    by_contra hge
    have := ht.system _ (Nat.le_of_not_lt hge)
    rw [huser.1] at this
    cases this
  have hcopy : g.Copyable r (dstva / pgsize) := by
    refine ⟨hv0, ⟨hlt, hm, huser.1⟩, ?_⟩
    cases hw : (g.map r (dstva / pgsize)).getLsbD 2 with
    | true => exact .inl rfl
    | false => exact .inr (hwrite hw)
  refine (copyPage_spec h ht hlt hm hn).seq ?_
  rintro b km2 (⟨rfl, rfl, hfree⟩ | ⟨rfl, g2, h2, hrep⟩)
  · exact .pure (.inl ⟨rfl, rfl, fun _ => hfree⟩)
  · refine (copyoutLoop_spec (ht.replace hlt hrep) len dstva src len km2 (Nat.le_refl _) h2).mono ?_
    rintro ret km3 ⟨h3, hfill⟩
    exact .inr ⟨hcopy, km2, g2, h2, hrep, h3, hfill⟩

/-! ## `uvmclear` -/

theorem uvmclear_spec (h : Rep L none km g) (hr : g.Live r) (hv : v < 2 ^ 26)
    (hmap : g.map r v ≠ 0) :
    Total (uvmclear (r * pgsize) (v * pgsize)) km fun _ km' =>
      Rep L none km' (g.setMap r v (g.map r v &&& ~~~pteU)) ∧
        ∀ f o, o.Data → o ∈ g.owners f → Agree km.mem km'.mem (f * pgsize) pgsize := by
  refine (walk_mapped h hr hv hmap).seq ?_
  rintro a km1 ⟨rfl, f, hn, rfl⟩
  rw [if_neg (pteAddr_ne_zero h hn)]
  refine .bind (Wp.loadWord (Wp.storeWord ?_))
  rw [h.load_pte hn]
  exact ⟨h.setPte hn _, fun f' o hd ho => h.agree_setPte hn ho hd _ _⟩

end Xv6
