import Xv6.Vm.FreeSpec

/-!
# Sharing and copying pages: `uvmcopy` and the replacement of a shared page

`uvmcopy` lets the child map the frames of the parent, with the write permission gone from
both tables. `copyPage` gives one page of a table a frame of its own again.
-/

namespace Xv6

open ByteMem

variable {L : Layout} {km km' : Kmem} {g g' g'' : Account} {r r' : Nat}
variable {w : BitVec 64}
variable {i m n : Nat}

/-! ## Entries marked copy-on-write -/

def cowPte (w : BitVec 64) : BitVec 64 := w &&& ~~~pteW ||| pteCow

theorem getLsbD_cowPte (w : BitVec 64) (hi : i < 64) :
    (cowPte w).getLsbD i = (decide (i ≠ 2) && w.getLsbD i || decide (i = 8)) := by
  simp only [cowPte, pteW, pteCow, BitVec.getLsbD_or, BitVec.getLsbD_and, BitVec.getLsbD_not,
    BitVec.getLsbD_twoPow, hi]
  by_cases h2 : i = 2
  · subst h2; simp
  · grind

theorem ppn_cowPte (w : BitVec 64) : ppn (cowPte w) = ppn w := by
  refine ppn_congr _ ?_
  intro i h1 h2
  rw [getLsbD_cowPte w h2]
  simp [show i ≠ 2 by omega, show i ≠ 8 by omega]

theorem LeafPte.cow (h : LeafPte w) : LeafPte (cowPte w) := by
  refine ⟨?_, ?_⟩
  · rw [getLsbD_cowPte w (by decide), h.1]
    rfl
  · rw [getLsbD_cowPte w (by decide), h.2]
    rfl

theorem lowPerm_pteFlags (w : BitVec 64) : LowPerm (pteFlags w) := by
  intro i h1 _
  rw [getLsbD_pteFlags]
  simp [show ¬ i < 10 by omega]

def childPte (w : BitVec 64) : BitVec 64 := pa2pte (pte2pa w) ||| pteFlags (cowPte w) ||| pteV

theorem ppn_childPte (h : ppn w < 2 ^ 44) : ppn (childPte w) = ppn w := by
  rw [childPte, pte2pa_eq]
  exact ppn_mk h (lowPerm_pteFlags _)

theorem getLsbD_childPte (h : LeafPte w) (hi : i < 10) :
    (childPte w).getLsbD i = (cowPte w).getLsbD i := by
  rw [childPte, getLsbD_mk hi, getLsbD_pteFlags]
  by_cases h0 : i = 0
  · subst h0
    simp [h.cow.1]
  · simp [h0, hi]

theorem LeafPte.child (h : LeafPte w) : LeafPte (childPte w) := by
  refine ⟨?_, ?_⟩
  · rw [getLsbD_childPte h (by decide)]
    exact h.cow.1
  · rw [getLsbD_childPte h (by decide)]
    exact h.cow.2

/-! ## `uvmcopy` -/

/-- The first `m` pages of table `r` are marked copy-on-write, and table `r'` maps the frames
of the first `n`. -/
structure Share (r r' m n : Nat) (km : Kmem) (g : Account) (km' : Kmem) (g' : Account) :
    Prop where
  parent : ∀ v, g'.map r v = if v < m then cowPte (g.map r v) else g.map r v
  child : ∀ v, g'.map r' v = if v < n then childPte (g.map r v) else g.map r' v
  other : ∀ r'', r'' ≠ r → r'' ≠ r' → g'.map r'' = g.map r''
  node : ∀ r'', r'' ≠ r' → g'.node r'' = g.node r''
  grow : ∀ k f, g.node r' k = some f → g'.node r' k = some f
  owner : ∀ f o, o.Data → (o ∈ g'.owners f ↔
    o ∈ g.owners f ∨ ∃ v, v < n ∧ o = .user r' v ∧ ppn (g.map r v) = f)
  mem : ∀ f o, o.Data → o ∈ g.owners f → Agree km.mem km'.mem (f * pgsize) pgsize

theorem Share.refl (r r' : Nat) (km : Kmem) (g : Account) : Share r r' 0 0 km g km g where
  parent v := by simp
  child v := by simp
  other _ _ _ := rfl
  node _ _ := rfl
  grow _ _ h := h
  owner f o _ := by simp
  mem _ _ _ _ := Agree.refl _ _ _

theorem Table.shareParent (ht : Table g r) (hne : r ≠ r') (hm : m ≤ userPages)
    (hs : Share r r' m n km g km' g') (hfull : ∀ v, v < m → g.map r v ≠ 0) : Table g' r := by
  have hppn : ∀ v, ppn (g'.map r v) = ppn (g.map r v) := by
    intro v
    rw [hs.parent]
    split
    · exact ppn_cowPte _
    · rfl
  have hzero : ∀ v, g'.map r v ≠ 0 ↔ g.map r v ≠ 0 := by
    intro v
    rw [hs.parent]
    split
    · next hv => exact iff_of_true (ht.leaf v (hfull v hv)).cow.ne_zero (hfull v hv)
    · rfl
  refine ⟨?_, ?_, ?_, ?_, ?_⟩
  · unfold Account.Live
    rw [hs.node r hne]
    exact ht.live
  · intro v hv
    have hv := (hzero v).mp hv
    rw [hs.parent]
    split
    · exact (ht.leaf v hv).cow
    · exact ht.leaf v hv
  · intro v f
    rw [hs.owner f (.user r v) trivial, ht.owner v f, hzero, hppn]
    refine or_iff_left ?_
    rintro ⟨v', -, hu, -⟩
    injection hu with hr
    exact hne hr
  · grind [ht.inj]
  · intro v hv
    rw [hs.parent, if_neg (by omega)]
    exact ht.system v hv

theorem Table.shareChild (h : Rep L none km g) (ht : Table g r) (ht' : Table g r')
    (hn : n ≤ userPages) (hs : Share r r' m n km g km' g') (hfull : ∀ v, v < n → g.map r v ≠ 0)
    (hnone : ∀ v, v < userPages → g.map r' v = 0) : Table g' r' := by
  have hin : ∀ v, v < n → g'.map r' v = childPte (g.map r v) := by
    intro v hv
    rw [hs.child, if_pos hv]
  have hout : ∀ v, ¬ v < n → g'.map r' v = g.map r' v := by
    intro v hv
    rw [hs.child, if_neg hv]
  have hppn : ∀ v, v < n → ppn (g'.map r' v) = ppn (g.map r v) := by
    intro v hv
    rw [hin v hv]
    exact ppn_childPte
      (h.managed_of_mem (ht.owner_self (by omega) (hfull v hv))).small
  refine ⟨hs.grow _ _ ht'.live, ?_, ?_, ?_, ?_⟩
  · intro v hv
    by_cases hvn : v < n
    · rw [hin v hvn]
      exact (ht.leaf v (hfull v hvn)).child
    · rw [hout v hvn] at hv ⊢
      exact ht'.leaf v hv
  · intro v f
    rw [hs.owner f (.user r' v) trivial, ht'.owner v f]
    by_cases hvn : v < n
    · constructor
      · rintro (⟨h1, h2, -⟩ | ⟨v', h1, hu, hp⟩)
        · exact absurd (hnone v h1) h2
        · injection hu with _ hu
          subst hu
          refine ⟨by omega, ?_, (hppn v h1).trans hp⟩
          rw [hin v h1]
          exact (ht.leaf v (hfull v h1)).child.ne_zero
      · grind
    · grind
  · grind [ht.inj]
  · intro v hv
    rw [hout v (by omega)]
    exact ht'.system v hv

theorem Share.undo {km2 km3 : Kmem} {g2 g3 : Account} (hne : r ≠ r')
    (hs : Share r r' m n km g km' g') (hg : Grow r' km' g' km2 g2)
    (hk : Shrink r' 0 n km2 g2 km3 g3) (ht' : Table g r') (hn : n ≤ userPages)
    (hnone : ∀ v, v < userPages → g.map r' v = 0) : Share r r' m 0 km g km3 g3 := by
  have hdata : ∀ f o, o.Data → (o ∈ g3.owners f ↔ o ∈ g.owners f) := by
    intro f o hd
    rw [hk.owner, hg.data f o hd, hs.owner f o hd]
    constructor
    · grind
    · intro ho
      refine ⟨.inl ho, ?_⟩
      rintro v - h2 rfl
      exact ((ht'.owner v f).mp ho).2.1 (hnone v (by omega))
  refine ⟨?_, ?_, ?_, ?_, ?_, ?_, ?_⟩
  · intro v
    rw [hk.map, if_neg (by rintro ⟨h1, -⟩; exact hne h1), hg.map, hs.parent]
  · intro v
    rw [hk.map, hg.map, hs.child]
    grind
  · intro r'' h1 h2
    funext v
    rw [hk.map, if_neg (by rintro ⟨h3, -⟩; exact h2 h3), hg.map, hs.other r'' h1 h2]
  · intro r'' h1
    rw [hk.node, hg.other r'' h1, hs.node r'' h1]
  · intro k f hk'
    rw [hk.node]
    exact hg.node k f (hs.grow k f hk')
  · intro f o hd
    rw [hdata f o hd]
    simp
  · intro f o hd ho
    have h1 := (hs.owner f o hd).mpr (.inl ho)
    exact ((hs.mem f o hd ho).trans (hg.mem f o hd h1)).trans
      (hk.mem f o hd ((hdata f o hd).mpr ho))

theorem Share.mark {f : Nat} (hne : r ≠ r') (h : Rep L none km' g')
    (hs : Share r r' i i km g km' g') (hn : g'.node r (.leaf (i / 512)) = some f) :
    Share r r' (i + 1) i km g
      { km' with mem := store64 km'.mem (pteAddr f i) (cowPte (g.map r i)) }
      (g'.setMap r i (cowPte (g.map r i))) := by
  refine ⟨?_, ?_, ?_, hs.node, hs.grow, hs.owner, ?_⟩
  · intro v
    by_cases hv : v = i
    · subst hv
      rw [Account.setMap_self, if_pos (Nat.lt_succ_self _)]
    · rw [g'.setMap_ne (by rintro ⟨-, he⟩; exact hv he), hs.parent]
      refine if_congr ?_ rfl rfl
      omega
  · intro v
    rw [g'.setMap_ne (by rintro ⟨he, -⟩; exact hne he.symm)]
    exact hs.child v
  · intro r'' h1 h2
    funext v
    rw [g'.setMap_ne (by rintro ⟨he, -⟩; exact h1 he), hs.other r'' h1 h2]
  · intro f' o hd ho
    exact (hs.mem f' o hd ho).trans
      (h.agree_setPte hn ((hs.owner f' o hd).mpr (.inl ho)) hd _ _)

theorem Share.add {km2 km3 : Kmem} {g2 : Account} (hne : r ≠ r')
    (hs : Share r r' (i + 1) i km g km' g') (hg : Grow r' km' g' km2 g2)
    (hmem : km3.mem = km2.mem) :
    Share r r' (i + 1) (i + 1) km g km3
      ((g2.setMap r' i (childPte (g.map r i))).setOwners (ppn (g.map r i))
        (insert (.user r' i) (g2.owners (ppn (g.map r i))))) := by
  refine ⟨?_, ?_, ?_, ?_, ?_, ?_, ?_⟩
  · intro v
    refine (g2.setMap_ne (by rintro ⟨he, -⟩; exact hne he)).trans ?_
    rw [hg.map, hs.parent]
  · intro v
    by_cases hv : v = i
    · subst hv
      rw [if_pos (Nat.lt_succ_self _)]
      exact g2.setMap_self _ _
    · refine (g2.setMap_ne (by rintro ⟨-, he⟩; exact hv he)).trans ?_
      rw [hg.map, hs.child]
      refine if_congr ?_ rfl rfl
      omega
  · intro r'' h1 h2
    funext v
    refine (g2.setMap_ne (by rintro ⟨he, -⟩; exact h2 he)).trans ?_
    rw [hg.map, hs.other r'' h1 h2]
  · intro r'' h1
    exact (hg.other r'' h1).trans (hs.node r'' h1)
  · intro k f hk
    exact hg.node k f (hs.grow k f hk)
  · intro f o hd
    have hold : o ∈ g2.owners f ↔
        o ∈ g.owners f ∨ ∃ v, v < i ∧ o = .user r' v ∧ ppn (g.map r v) = f := by
      rw [hg.data f o hd, hs.owner f o hd]
    have hstep : (∃ v, v < i + 1 ∧ o = .user r' v ∧ ppn (g.map r v) = f) ↔
        (∃ v, v < i ∧ o = .user r' v ∧ ppn (g.map r v) = f) ∨
          o = .user r' i ∧ ppn (g.map r i) = f := by grind
    rw [hstep, ← or_assoc, ← hold]
    by_cases hf : f = ppn (g.map r i)
    · subst hf
      simp [Account.setOwners, or_comm]
    · simp [Account.setOwners, Account.setMap, hf, Ne.symm hf]
  · intro f o hd ho
    rw [hmem]
    exact (hs.mem f o hd ho).trans (hg.mem f o hd ((hs.owner f o hd).mpr (.inl ho)))

/-! ## The page-table pages of the child -/

/-- The page-table pages that the first `n` pages need beside the root, if they are few. -/
def tablesFor (n : Nat) : Nat := if n = 0 then 0 else (n - 1) / 512 + 2

theorem tablesFor_mono (h : m ≤ n) : tablesFor m ≤ tablesFor n := by
  unfold tablesFor
  split <;> split <;> omega

/-- Table `r` has no page-table page for low addresses. -/
def Account.Bare (g : Account) (r : Nat) : Prop :=
  g.node r (.mid 0) = none ∧ ∀ j, j < 512 → g.node r (.leaf j) = none

/-- Since `g`, the page-table pages for the first `i` pages have been added to table `r`. -/
structure Supplied (r i : Nat) (g g' : Account) : Prop where
  free : g'.free.length + tablesFor i = g.free.length
  mid : g'.node r (.mid 0) = none ↔ i = 0
  leaf : ∀ j, j < 512 → (g'.node r (.leaf j) = none ↔ i ≤ j * 512)

theorem Account.Bare.supplied (h : g.Bare r) : Supplied r 0 g g :=
  ⟨rfl, iff_of_true h.1 rfl, fun j hj => iff_of_true (h.2 j hj) (Nat.zero_le _)⟩

theorem Supplied.missing (h : Supplied r i g g') (hi : i < 2 ^ 18) :
    tablesFor i + g'.missing r i = tablesFor (i + 1) := by
  have hzero : i / 512 / 512 = 0 := by omega
  have hleaf := h.leaf (i / 512) (by omega)
  simp only [Account.missing, Account.cost, hzero, h.mid, hleaf, tablesFor]
  split <;> split <;> simp <;> omega

theorem Supplied.step (h : Supplied r i g g') (hi : i < 2 ^ 18) (ha : Adds r i g' g'') :
    Supplied r (i + 1) g g'' := by
  have hzero : i / 512 / 512 = 0 := by omega
  refine ⟨?_, ?_, ?_⟩
  · have := h.missing hi
    have := ha.free
    have := h.free
    omega
  · rw [ha.node, hzero]
    simp
  · intro j hj
    rw [ha.node, h.leaf j hj]
    simp only [ne_eq, reduceCtorEq, not_false_eq_true, Node.leaf.injEq, true_and]
    omega

/-- The free pages of `g` suffice for all of the first `m` pages but the last. -/
def StopsAt (g : Account) (m : Nat) : Prop :=
  tablesFor (m - 1) ≤ g.free.length ∧ g.free.length < tablesFor m

theorem uvmcopyLoop_spec {total : Nat} (hne : r ≠ r') (h : Rep L none km g) (ht : Table g r)
    (ht' : Table g r') (htotal : total ≤ userPages) (hfull : ∀ v, v < total → g.map r v ≠ 0)
    (hnone : ∀ v, v < userPages → g.map r' v = 0) :
    ∀ (n i : Nat) (km1 : Kmem) (g1 : Account), i + n = total → Rep L none km1 g1 →
      Share r r' i i km g km1 g1 → (g.Bare r' → Supplied r' i g g1) →
      Total (uvmcopyLoop L (r * pgsize) (r' * pgsize) n (i * pgsize)) km1 fun ret km' =>
        (ret = 0 ∧ (g.Bare r' → tablesFor total ≤ g.free.length) ∧
          ∃ g', Rep L none km' g' ∧ Share r r' total total km g km' g') ∨
        (ret = -1 ∧ ∃ m g', m ≤ total ∧ (g.Bare r' → StopsAt g m) ∧
          Rep L none km' g' ∧ Share r r' m 0 km g km' g') := by
  have htotal' := htotal
  rw [userPages_eq] at htotal'
  have hfew := ht.pages_lt h htotal hfull
  intro n
  induction n with
  | zero =>
    intro i km1 g1 hi h1 hs hbare
    obtain rfl : i = total := by omega
    refine .pure (.inl ⟨rfl, fun hb => ?_, g1, h1, hs⟩)
    have := (hbare hb).free
    omega
  | succ _ ih =>
    intro i km1 g1 hi h1 hs hbare
    have hfull1 : ∀ v, v < i → g.map r v ≠ 0 := fun v hv => hfull v (by omega)
    have ht1 := ht.shareParent hne (by omega) hs hfull1
    have ht1' := Table.shareChild h ht ht' (by omega) hs hfull1 hnone
    have hw : g1.map r i = g.map r i := by rw [hs.parent, if_neg (Nat.lt_irrefl _)]
    have hwne : g.map r i ≠ 0 := hfull i (by omega)
    have hleaf := ht.leaf i hwne
    have hown : .user r i ∈ g.owners (ppn (g.map r i)) := ht.owner_self (by omega) hwne
    have hown1 := (hs.owner _ (.user r i) trivial).mpr (.inl hown)
    have hr'1 : g1.map r' i = 0 := by
      rw [hs.child, if_neg (Nat.lt_irrefl _)]
      exact hnone i (by omega)
    refine (walk_mapped h1 ht1.live (by omega) (by rw [hw]; exact hwne)).seq ?_
    rintro a km2 ⟨rfl, f, hn, rfl⟩
    rw [if_neg (pteAddr_ne_zero h1 hn)]
    refine .bind (Wp.loadWord ?_)
    rw [h1.load_pte hn, hw, hleaf.hasFlag_v, if_neg (by simp)]
    refine .bind (Wp.storeWord ?_)
    have h2 := h1.setPte hn (cowPte (g.map r i))
    have hs2 := Share.mark hne h1 hs hn
    refine (mappages_spec (v := i) h2 (r := r') ht1'.live (by omega) ?_ _ _).seq ?_
    · rw [g1.setMap_ne (by rintro ⟨he, -⟩; exact hne he.symm)]
      exact hr'1
    · rintro ret km3 ⟨g3, hgrow, ⟨rfl, -, h3, hshort⟩ | ⟨rfl, h3, hadds⟩⟩
      · -- no memory for a page-table page: the child loses the pages it got
        rw [if_pos (by decide), mul_pgsize_div]
        have ht2' : Table (g1.setMap r i (cowPte (g.map r i))) r' :=
          Table.shareChild h ht ht' (by omega) hs2 hfull1 hnone
        have hunmap := uvmunmap_spec h3 (ht2'.grow hgrow) 0 i
          (by omega) (by
            intro v _ hv
            have hvi : v < i := by omega
            rw [hgrow.map, hs2.child, if_pos hvi]
            exact (ht.leaf v (hfull1 v hvi)).child.ne_zero)
        rw [Nat.zero_mul] at hunmap
        refine hunmap.seq ?_
        rintro _ km4 ⟨g4, h4, hk⟩
        rw [Nat.zero_add] at hk
        refine .pure (.inr ⟨rfl, i + 1, g4, by omega, fun hb => ?_, h4,
          hs2.undo hne hgrow hk ht' (by omega) hnone⟩)
        have hfill := hbare hb
        have hmiss : g1.free.length < g1.missing r' i := hshort
        have := hfill.missing (by omega)
        have := hfill.free
        rw [StopsAt, Nat.add_sub_cancel]
        omega
      · rw [if_neg (by decide), pte2pa_eq]
        have hown3 : Owner.user r i ∈ (g3.setMap r' i (childPte (g.map r i))).owners
            (ppn (g.map r i)) := (hgrow.data _ (.user r i) trivial).mpr hown1
        have hnew3 : Owner.user r' i ∉ (g3.setMap r' i (childPte (g.map r i))).owners
            (ppn (g.map r i)) := by
          intro hu
          have hu := (hgrow.data _ (.user r' i) trivial).mp hu
          exact ((ht1'.owner i _).mp hu).2.1 hr'1
        refine (incRef_spec h3 hown3 trivial hnew3 trivial).seq ?_
        rintro _ km4 ⟨h4, hmem4⟩
        rw [← Nat.succ_mul]
        exact ih (i + 1) km4 _ (by omega) h4 (hs2.add hne hgrow hmem4) fun hb =>
          (hbare hb).step (by omega) ⟨hadds.free, hadds.node⟩

theorem uvmcopy_spec {sz : Nat} (hne : r ≠ r') (h : Rep L none km g) (ht : Table g r)
    (ht' : Table g r') (hle : pagesOf sz ≤ userPages) (hfull : ∀ v, v < pagesOf sz → g.map r v ≠ 0)
    (hnone : ∀ v, v < userPages → g.map r' v = 0) :
    Total (uvmcopy L (r * pgsize) (r' * pgsize) sz) km fun ret km' =>
      (ret = 0 ∧ (g.Bare r' → tablesFor (pagesOf sz) ≤ g.free.length) ∧
        ∃ g', Rep L none km' g' ∧ Share r r' (pagesOf sz) (pagesOf sz) km g km' g') ∨
      (ret = -1 ∧ ∃ m g', m ≤ pagesOf sz ∧ (g.Bare r' → StopsAt g m) ∧
        Rep L none km' g' ∧ Share r r' m 0 km g km' g') := by
  have hloop := uvmcopyLoop_spec hne h ht ht' hle hfull hnone (pagesOf sz) 0 km g (by omega) h
    (Share.refl _ _ _ _) Account.Bare.supplied
  rwa [Nat.zero_mul] at hloop

end Xv6
