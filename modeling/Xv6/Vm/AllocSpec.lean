import Xv6.Vm.MapSpec

/-!
# Growing and shrinking: `uvmalloc` and `uvmdealloc`

`uvmalloc` adds fresh zeroed pages at the end of a table. When memory runs out it takes back
what it had added, and only page-table pages remain.
-/

namespace Xv6

open ByteMem

variable {L : Layout} {km km' km'' : Kmem} {g g' g'' : Account} {r f : Nat} {fs : List Nat}
  {perm : BitVec 64}
variable {hi lo : Nat}
variable {newsz oldsz : Nat} {xperm : BitVec 64}

attribute [local simp] Account.refree

/-! ## Sizes -/

/-- The number of pages of a process of the given size. -/
def pagesOf (sz : Nat) : Nat := (sz + (pgsize - 1)) / pgsize

theorem pgroundup_eq {sz : Nat} (h : sz < 2 ^ 63) : pgroundup sz = pagesOf sz * pgsize := by
  unfold pgroundup pagesOf
  rw [Nat.mod_eq_of_lt (by rw [pgsize_eq]; omega)]

theorem pagesOf_mul (n : Nat) : pagesOf (n * pgsize) = n := by
  unfold pagesOf
  rw [pgsize_eq]
  omega

theorem pagesOf_zero : pagesOf 0 = 0 := by
  unfold pagesOf
  rw [pgsize_eq]

theorem pagesOf_mono {a b : Nat} (h : a ≤ b) : pagesOf a ≤ pagesOf b := by
  unfold pagesOf
  rw [pgsize_eq]
  omega

theorem lt_of_pagesOf {sz : Nat} (h : pagesOf sz ≤ userPages) : sz < 2 ^ 63 := by
  unfold pagesOf at h
  rw [userPages_eq, pgsize_eq] at h
  omega

theorem viaInt_of_lt {n : Nat} (h : n < 2 ^ 31) : viaInt n = n := by
  unfold viaInt
  rw [Int.bmod_eq_of_le_mul_two (by omega) (by omega)]
  omega

theorem uvmdealloc_spec (h : Rep L none km g) (ht : Table g r) (hlt : newsz < oldsz)
    (hle : pagesOf oldsz ≤ userPages)
    (hmap : ∀ v, pagesOf newsz ≤ v → v < pagesOf oldsz → g.map r v ≠ 0) :
    Total (uvmdealloc L (r * pgsize) oldsz newsz) km fun ret km' =>
      ret = newsz ∧ ∃ g', Rep L none km' g' ∧
        Shrink r (pagesOf newsz) (pagesOf oldsz) km g km' g' := by
  have hold := lt_of_pagesOf hle
  have hmono := pagesOf_mono (Nat.le_of_lt hlt)
  have hle' := hle
  rw [userPages_eq] at hle'
  unfold uvmdealloc
  rw [if_neg (by omega), pgroundup_eq hold, pgroundup_eq (show newsz < 2 ^ 63 by omega),
    ← Nat.sub_mul, mul_pgsize_div, viaInt_of_lt (by omega)]
  by_cases hpages : pagesOf newsz < pagesOf oldsz
  · rw [if_pos (Nat.mul_lt_mul_of_pos_right hpages (by rw [pgsize_eq]; decide))]
    refine (uvmunmap_spec h ht _ _ (by omega) ?_).seq ?_
    · grind
    · grind [Wp.pure]
  · have heq : pagesOf newsz = pagesOf oldsz := by omega
    rw [if_neg (by rw [heq]; omega), heq]
    exact .bind (.pure (.pure ⟨rfl, g, h, Shrink.refl _ _ _ _⟩))

/-! ## New pages -/

def Account.Settled (g : Account) : Prop := ∀ f, Owner.held .fresh ∉ g.owners f

/-- Pages `[lo, hi)` of table `r` are new and fresh, with permissions `perm`. -/
structure Extend (L : Layout) (r lo hi : Nat) (perm : BitVec 64) (km : Kmem) (g : Account)
    (km' : Kmem) (g' : Account) : Prop where
  other : ∀ r', r' ≠ r → g'.node r' = g.node r' ∧ g'.map r' = g.map r'
  node : ∀ n f, g.node r n = some f → g'.node r n = some f
  out : ∀ v, ¬ (lo ≤ v ∧ v < hi) → g'.map r v = g.map r v
  word : ∀ v, lo ≤ v → v < hi → g'.map r v = pa2pte (ppn (g'.map r v) * pgsize) ||| perm ||| pteV
  fresh : ∀ v, lo ≤ v → v < hi → g.owners (ppn (g'.map r v)) = ∅
  inj : ∀ v v', lo ≤ v → v < hi → lo ≤ v' → v' < hi → ppn (g'.map r v) = ppn (g'.map r v') → v = v'
  owner : ∀ f o, o.Data → (o ∈ g'.owners f ↔
    o ∈ g.owners f ∨ ∃ v, lo ≤ v ∧ v < hi ∧ o = .user r v ∧ ppn (g'.map r v) = f)
  used : ∀ f, g.owners f ≠ ∅ → g'.owners f ≠ ∅
  mem : ∀ f o, o.Data → o ∈ g.owners f → Agree km.mem km'.mem (f * pgsize) pgsize

/-- Permissions are flag bits other than the page number. -/
def LowPerm (perm : BitVec 64) : Prop := ∀ i, 10 ≤ i → i < 64 → perm.getLsbD i = false

theorem ppn_mk {f : Nat} (hf : f < 2 ^ 44) (hp : LowPerm perm) :
    ppn (pa2pte (f * pgsize) ||| perm ||| pteV) = f := by
  rw [ppn_congr (pa2pte (f * pgsize)), ppn_pa2pte hf]
  intro i h1 h2
  simp only [BitVec.getLsbD_or, getLsbD_pteV, hp i h1 h2]
  simp [show i ≠ 0 by omega]

theorem getLsbD_mk {pa i : Nat} (hi : i < 10) :
    (pa2pte pa ||| perm ||| pteV).getLsbD i = (perm.getLsbD i || decide (i = 0)) := by
  simp only [BitVec.getLsbD_or, getLsbD_pteV, pa2pte_low pa hi, Bool.false_or]

theorem leafPte_mk {pa : Nat} (hp : perm.getLsbD 1 = true) :
    LeafPte (pa2pte pa ||| perm ||| pteV) := by
  refine ⟨?_, ?_⟩
  · rw [getLsbD_mk (by decide)]
    simp
  · rw [getLsbD_mk (by decide), hp]
    rfl

theorem Extend.refl (r lo : Nat) (perm : BitVec 64) (km : Kmem) (g : Account) :
    Extend L r lo lo perm km g km g where
  other _ _ := ⟨rfl, rfl⟩
  node _ _ h := h
  out _ _ := rfl
  word v h1 h2 := by omega
  fresh v h1 h2 := by omega
  inj v v' h1 h2 := by omega
  owner f o _ := by
    refine (or_iff_left ?_).symm
    rintro ⟨v, h1, h2, -⟩
    omega
  used _ h := h
  mem _ _ _ _ := Agree.refl _ _ _

theorem Extend.owner_new {v : Nat} (h : Extend L r lo hi perm km g km' g') (h1 : lo ≤ v)
    (h2 : v < hi) : .user r v ∈ g'.owners (ppn (g'.map r v)) :=
  (h.owner _ (.user r v) trivial).mpr (.inr ⟨v, h1, h2, rfl, rfl⟩)

theorem Extend.trans {mid : Nat} (h : Extend L r lo mid perm km g km' g')
    (h' : Extend L r mid hi perm km' g' km'' g'') (h1 : lo ≤ mid) (h2 : mid ≤ hi) :
    Extend L r lo hi perm km g km'' g'' := by
  have hkeep : ∀ v, v < mid → g''.map r v = g'.map r v := fun v hv => h'.out v (by omega)
  have hcross : ∀ v v', lo ≤ v → v < mid → mid ≤ v' → v' < hi →
      ppn (g''.map r v) ≠ ppn (g''.map r v') := by
    intro v v' hv1 hv2 hv1' hv2' he
    have ho := h.owner_new hv1 hv2
    rw [← hkeep v hv2, he, h'.fresh v' hv1' hv2'] at ho
    exact absurd ho (Finset.notMem_empty _)
  refine ⟨?_, ?_, ?_, ?_, ?_, ?_, ?_, ?_, ?_⟩
  · intro r' hr
    exact ⟨(h'.other r' hr).1.trans (h.other r' hr).1, (h'.other r' hr).2.trans (h.other r' hr).2⟩
  · intro n f hn
    exact h'.node n f (h.node n f hn)
  · intro v hv
    exact (h'.out v (by omega)).trans (h.out v (by omega))
  · intro v hv1 hv2
    rcases Nat.lt_or_ge v mid with hv | hv
    · rw [hkeep v hv]
      exact h.word v hv1 hv
    · exact h'.word v hv hv2
  · intro v hv1 hv2
    rcases Nat.lt_or_ge v mid with hv | hv
    · rw [hkeep v hv]
      exact h.fresh v hv1 hv
    · by_contra hne
      exact h.used _ hne (h'.fresh v hv hv2)
  · intro v v' hv1 hv2 hv1' hv2' he
    rcases Nat.lt_or_ge v mid with hv | hv
    · grind [h.inj, Nat.lt_or_ge]
    · rcases Nat.lt_or_ge v' mid with hv' | hv'
      · grind
      · exact h'.inj v v' hv hv2 hv' hv2' he
  · intro f o hd
    rw [h'.owner f o hd, h.owner f o hd]
    grind
  · intro f hne
    exact h'.used f (h.used f hne)
  · intro f o hd ho
    exact (h.mem f o hd ho).trans (h'.mem f o hd ((h.owner f o hd).mpr (.inl ho)))

theorem Extend.frame (h : Rep L none km g) (h' : Rep L none km' g')
    (he : Extend L r lo hi perm km g km' g') : Frame r km g km' g' where
  owner f o ho := by
    cases o with
    | table r' => exact h.table_iff h' (he.other r' ho).1
    | user r' v =>
      rw [he.owner f (.user r' v) trivial]
      refine or_iff_left ?_
      rintro ⟨v', -, -, hu, -⟩
      injection hu with hr
      exact ho hr
    | held x =>
      rw [he.owner f (.held x) trivial]
      refine or_iff_left ?_
      rintro ⟨v', -, -, hu, -⟩
      cases hu
  node r' hr := (he.other r' hr).1
  map r' hr := (he.other r' hr).2
  mem f o hd _ hf := he.mem f o hd hf

theorem Table.extend (ht : Table g r) (he : Extend L r lo hi perm km g km' g')
    (hperm : perm.getLsbD 1 = true) (hle : hi ≤ userPages)
    (hnone : ∀ v, lo ≤ v → v < hi → g.map r v = 0) : Table g' r := by
  have hleaf : ∀ v, lo ≤ v → v < hi → LeafPte (g'.map r v) := by
    intro v h1 h2
    rw [he.word v h1 h2]
    exact leafPte_mk hperm
  refine ⟨he.node _ _ ht.live, ?_, ?_, ?_, ?_⟩
  · intro v hv
    by_cases hin : lo ≤ v ∧ v < hi
    · exact hleaf v hin.1 hin.2
    · rw [he.out v hin] at hv ⊢
      exact ht.leaf v hv
  · intro v f
    rw [he.owner f (.user r v) trivial, ht.owner v f]
    by_cases hin : lo ≤ v ∧ v < hi
    · constructor
      · rintro (⟨-, h2, -⟩ | ⟨v', h1, h2, hu, hp⟩)
        · exact absurd (hnone v hin.1 hin.2) h2
        · injection hu with _ hu
          subst hu
          exact ⟨by omega, (hleaf v h1 h2).ne_zero, hp⟩
      · grind
    · rw [he.out v hin]
      refine or_iff_left ?_
      rintro ⟨v', h1, h2, hu, -⟩
      injection hu with _ hu
      subst hu
      exact hin ⟨h1, h2⟩
  · -- a new frame had no owner before
    have hcross : ∀ v v', v < userPages → ¬ (lo ≤ v ∧ v < hi) → g'.map r v ≠ 0 →
        lo ≤ v' → v' < hi → ppn (g'.map r v) ≠ ppn (g'.map r v') := by
      intro v v' hv hout hm h1 h2 hp
      rw [he.out v hout] at hm hp
      have ho := ht.owner_self hv hm
      rw [hp, he.fresh v' h1 h2] at ho
      exact absurd ho (Finset.notMem_empty _)
    intro v v' hv hv' hm hm' hp
    by_cases hin : lo ≤ v ∧ v < hi
    · by_cases hin' : lo ≤ v' ∧ v' < hi
      · exact he.inj v v' hin.1 hin.2 hin'.1 hin'.2 hp
      · grind
    · by_cases hin' : lo ≤ v' ∧ v' < hi
      · grind
      · grind [he.out, ht.inj]
  · intro v hv
    rw [he.out v (by omega)]
    exact ht.system v hv

theorem Extend.undo {km2 km3 : Kmem} {g2 g3 : Account} (he : Extend L r lo hi perm km g km' g')
    (hg : Grow r km' g' km2 g2) (hs : Shrink r lo hi km2 g2 km3 g3) (ht : Table g r)
    (hnone : ∀ v, lo ≤ v → v < hi → g.map r v = 0) : Grow r km g km3 g3 := by
  have hdata : ∀ f o, o.Data → (o ∈ g3.owners f ↔ o ∈ g.owners f) := by
    intro f o hd
    rw [hs.owner, hg.data f o hd, he.owner f o hd]
    constructor
    · grind
    · grind [ht.owner]
  refine ⟨?_, hdata, ?_, ?_, ?_⟩
  · funext r' v
    rw [hs.map, hg.map]
    by_cases hr : r' = r
    · subst hr
      by_cases hin : lo ≤ v ∧ v < hi
      · grind
      · rw [if_neg (by rintro ⟨-, h⟩; exact hin h), he.out v hin]
    · have := he.other
      grind
  · intro r' hr
    rw [hs.node, hg.other r' hr, (he.other r' hr).1]
  · intro n f hn
    rw [hs.node]
    exact hg.node n f (he.node n f hn)
  · intro f o hd ho
    have h1 := (he.owner f o hd).mpr (.inl ho)
    exact ((he.mem f o hd ho).trans (hg.mem f o hd h1)).trans
      (hs.mem f o hd ((hdata f o hd).mpr ho))

/-! ## `uvmalloc` -/

theorem Rep.owners_eq (h : Rep L none km g) {f : Nat} {o : Owner} (ho : o ∈ g.owners f)
    (hd : o.Data) (hother : ∀ o', o'.Data → o' ∈ g.owners f → o' = o) : g.owners f = {o} := by
  refine Finset.eq_singleton_iff_unique_mem.mpr ⟨ho, ?_⟩
  intro o' ho'
  cases o' with
  | table r n => exact absurd ((h.node r n f).mpr ho') (h.not_node ho hd)
  | user | held => exact hother _ trivial ho'

theorem Rep.cleared (h : Rep L none km (g.refree f {.held .fresh} fs)) :
    Rep L none { km with mem := fill km.mem (f * pgsize) 0 pgsize }
      (g.refree f {.held .fresh} fs) :=
  h.writeData (o := .held .fresh) (by simp) trivial (onlyPage_fill _ _ _)

theorem mapFresh_spec (hr : g.Live r) {v : Nat} (hv : v < 2 ^ 26)
    (hmap : g.map r v = 0) (hlow : LowPerm perm) {km1 : Kmem} (hman : L.Managed f) (ho : g.owners f = ∅)
    (hrep : Rep L none km1 (g.refree f {.held .fresh} fs)) (hmem : OnlyPage f km.mem km1.mem) :
    Total (mappages (r * pgsize) (v * pgsize) pgsize (f * pgsize) perm)
      { km1 with mem := fill km1.mem (f * pgsize) 0 pgsize } fun ret km' =>
      ret = -1 ∧ (∃ g', Rep L none km' g' ∧ g'.owners f = {.held .fresh} ∧
        Grow r { km1 with mem := fill km1.mem (f * pgsize) 0 pgsize }
          (g.refree f {.held .fresh} fs) km' g' ∧ g'.free = []) ∨
      ret = 0 ∧ ∃ g', Rep L none km' g' ∧ Extend L r v (v + 1) perm km g km' g' ∧
        ppn (g'.map r v) = f := by
  have hclear := hrep.cleared
  have hagree : ∀ f' o, o.Data → o ∈ g.owners f' →
      Agree km.mem (fill km1.mem (f * pgsize) 0 pgsize) (f' * pgsize) pgsize := by
    intro f' o _ ho'
    have hff : f' ≠ f := by grind
    exact (hmem f' hff).trans (onlyPage_fill _ _ _ f' hff)
  refine (mappages_spec hclear hr hv hmap (f * pgsize) perm).mono ?_
  rintro ret km2 ⟨g2, hgrow, hret⟩
  have hsole : ∀ g' : Account, Rep L none km2 g' → g'.owners = g2.owners →
      g'.owners f = {.held .fresh} := by
    intro g' h' he
    refine h'.owners_eq ?_ trivial ?_
    · rw [he]
      exact (hgrow.data f (.held .fresh) trivial).mpr (by simp)
    · intro o' hd ho'
      rw [he] at ho'
      simpa using (hgrow.data f o' hd).mp ho'
  rcases hret with ⟨rfl, hempty, h₂, -⟩ | ⟨rfl, h₂, -⟩
  · exact .inl ⟨rfl, g2, h₂, hsole g2 h₂ rfl, hgrow, hempty⟩
  · right
    -- the page changes hands from its allocator to the table
    let w := pa2pte (f * pgsize) ||| perm ||| pteV
    let g3 := (g2.setMap r v w).setOwners f {.user r v}
    have h₃ : Rep L none km2 g3 := h₂.rename (.user r v) (hsole _ h₂ rfl) trivial trivial
    have hmapv : g3.map r v = w := g2.setMap_self v w
    have hppn : ppn w = f := ppn_mk hman.small hlow
    have hpage : ∀ f', f' ≠ f → (g.refree f {.held .fresh} fs).owners f' = g.owners f' := by
      intro f' hf
      simp [hf]
    refine ⟨rfl, g3, h₃, ⟨?_, ?_, ?_, ?_, ?_, ?_, ?_, ?_, ?_⟩, by rw [hmapv, hppn]⟩
    · intro r' hr'
      refine ⟨hgrow.other r' hr', ?_⟩
      funext v'
      refine (g2.setMap_ne (by rintro ⟨he, -⟩; exact hr' he)).trans ?_
      rw [hgrow.map]
      rfl
    · intro n f' hn
      exact hgrow.node n f' hn
    · intro v' hout
      refine (g2.setMap_ne (by rintro ⟨-, he⟩; omega)).trans ?_
      rw [hgrow.map]
      rfl
    · grind
    · grind
    · intro v' v'' h1 h2 h3 h4 _
      omega
    · intro f' o hd
      by_cases hf : f' = f
      · subst hf
        simp only [g3, Account.setOwners, Function.update_self, Finset.mem_singleton, ho,
          Finset.notMem_empty, false_or]
        constructor
        · rintro rfl
          exact ⟨v, Nat.le_refl _, Nat.lt_succ_self _, rfl, by
            rw [g2.setMap_self v w]; exact hppn⟩
        · grind
      · have hsame : o ∈ g3.owners f' ↔ o ∈ g.owners f' := by
          rw [show g3.owners f' = g2.owners f' from Function.update_of_ne hf ..,
            hgrow.data f' o hd, hpage f' hf]
        rw [hsame]
        refine (or_iff_left ?_).symm
        rintro ⟨v', h1, h2, rfl, hp⟩
        obtain rfl : v' = v := by omega
        rw [hmapv, hppn] at hp
        exact hf hp.symm
    · intro f' hne
      have hff : f' ≠ f := by
        rintro rfl
        exact hne ho
      rw [show g3.owners f' = g2.owners f' from Function.update_of_ne hff ..]
      obtain ⟨o, hmem'⟩ := Finset.nonempty_iff_ne_empty.mpr hne
      rw [← hpage f' hff] at hmem'
      cases o with
      | table r' n =>
        have hn := (hclear.node r' n f').mpr hmem'
        have hn' : g2.node r' n = some f' := by
          by_cases hr' : r' = r
          · subst hr'
            exact hgrow.node n f' hn
          · rw [hgrow.other r' hr']
            exact hn
        exact Finset.ne_empty_of_mem ((h₂.node r' n f').mp hn')
      | user r' v' => exact Finset.ne_empty_of_mem ((hgrow.data f' (.user r' v') trivial).mpr hmem')
      | held x => exact Finset.ne_empty_of_mem ((hgrow.data f' (.held x) trivial).mpr hmem')
    · intro f' o hd ho'
      refine (hagree f' o hd ho').trans (hgrow.mem f' o hd ?_)
      rw [hpage f' (by rintro rfl; rw [ho] at ho'; exact absurd ho' (Finset.notMem_empty _))]
      exact ho'

theorem Grow.releaseFresh {km1 km2 km3 : Kmem} {g2 : Account} (ho : g.owners f = ∅)
    (hmem : OnlyPage f km.mem km1.mem) (hg : Grow r km1 (g.refree f {.held .fresh} fs) km2 g2)
    (hown : g2.owners f = {.held .fresh}) (hfree : OnlyPage f km2.mem km3.mem) :
    Grow r km g km3 (g2.release f (.held .fresh)) := by
  have hne : ∀ f' o, o ∈ g.owners f' → f' ≠ f := by grind
  have hpage : ∀ f', f' ≠ f → (g.refree f {.held .fresh} fs).owners f' = g.owners f' := by
    intro f' hf
    simp [hf]
  refine ⟨hg.map, ?_, hg.other, hg.node, ?_⟩
  · intro f' o hd
    by_cases hf : f' = f
    · subst hf
      simp [Account.release, hown, ho]
    · rw [show (g2.release f (.held .fresh)).owners f' = g2.owners f' by
        simp [Account.release, hf], hg.data f' o hd, hpage f' hf]
  · intro f' o hd ho'
    have hff := hne f' o ho'
    refine ((hmem f' hff).trans (hg.mem f' o hd ?_)).trans (hfree f' hff)
    rw [hpage f' hff]
    exact ho'

theorem Table.pages_lt (h : Rep L none km g) (ht : Table g r) {n : Nat} (hle : n ≤ userPages)
    (hmap : ∀ v, v < n → g.map r v ≠ 0) : n ≤ 32768 := by
  have hframe : ∀ v, v < n → 524288 ≤ ppn (g.map r v) ∧ ppn (g.map r v) < 557056 := by
    intro v hv
    exact (h.managed_of_mem (ht.owner_self (by omega) (hmap v hv))).bounds
  have hcard := Finset.card_le_card_of_injOn (s := Finset.range n) (t := Finset.range 32768)
    (fun v => ppn (g.map r v) - 524288)
    (by
      intro v hv
      have hv : v < n := by simpa using hv
      have := hframe v hv
      simp only [Finset.coe_range, Set.mem_Iio]
      omega)
    (by
      intro v hv v' hv' hp
      have hv : v < n := by simpa using hv
      have hv' : v' < n := by simpa using hv'
      have h1 := hframe v hv
      have h2 := hframe v' hv'
      dsimp only at hp
      exact ht.inj v v' (by omega) (by omega) (hmap v hv) (hmap v' hv') (by omega))
  simpa using hcard

theorem uvmallocLoop_spec (newsz : Nat) (hlow : LowPerm (pteR ||| pteU ||| xperm))
    (hread : (pteR ||| pteU ||| xperm).getLsbD 1 = true) (ht : Table g r)
    (hfull : ∀ v, v < lo → g.map r v ≠ 0) (hnone : ∀ v, lo ≤ v → v < userPages → g.map r v = 0) :
    ∀ (n i : Nat) (km1 : Kmem) (g1 : Account), lo + i < userPages → Rep L none km1 g1 →
      Extend L r lo (lo + i) (pteR ||| pteU ||| xperm) km g km1 g1 →
      Total (uvmallocLoop L (r * pgsize) (lo * pgsize) newsz xperm n ((lo + i) * pgsize)) km1
        fun ret km' =>
          (ret = 0 ∧ ∃ g', Rep L none km' g' ∧ Grow r km g km' g') ∨
          (ret = newsz ∧ lo + i + n < userPages ∧ ∃ g', Rep L none km' g' ∧
            Extend L r lo (lo + i + n) (pteR ||| pteU ||| xperm) km g km' g') := by
  intro n
  induction n with
  | zero =>
    intro i km1 g1 hi h₁ he
    exact .pure (.inr ⟨rfl, hi, g1, h₁, he⟩)
  | succ n ih =>
    intro i km1 g1 hi h₁ he
    have hnone' : ∀ v, lo ≤ v → v < lo + i → g.map r v = 0 := fun v h1 h2 => hnone v h1 (by omega)
    have ht1 := ht.extend he hread (by omega) hnone'
    have hfull1 : ∀ v, v < lo + i → g1.map r v ≠ 0 := by
      intro v hv
      by_cases hin : lo ≤ v
      · rw [he.word v hin hv]
        exact (leafPte_mk hread).ne_zero
      · rw [he.out v (by omega)]
        exact hfull v (by omega)
    have hmap1 : g1.map r (lo + i) = 0 := by
      rw [he.out _ (by omega)]
      exact hnone _ (by omega) hi
    have hfew := ht1.pages_lt h₁ (by omega) hfull1
    -- the pages added so far are taken back
    have hundo : ∀ km2 g2, Rep L none km2 g2 → Grow r km1 g1 km2 g2 →
        Total (uvmdealloc L (r * pgsize) ((lo + i) * pgsize) (lo * pgsize)) km2 fun _ km' =>
          ∃ g', Rep L none km' g' ∧ Grow r km g km' g' := by
      intro km2 g2 h₂ hg2
      by_cases hzero : i = 0
      · subst hzero
        unfold uvmdealloc
        rw [if_pos (by simp)]
        refine .pure ⟨g2, h₂, ?_⟩
        exact he.undo hg2 (Shrink.refl _ _ _ _) ht hnone'
      · have hlt : lo * pgsize < (lo + i) * pgsize :=
          Nat.mul_lt_mul_of_pos_right (by omega) (by rw [pgsize_eq]; decide)
        refine (uvmdealloc_spec h₂ (ht1.grow hg2) hlt ?_ ?_).mono ?_
        · rw [pagesOf_mul]
          omega
        · grind [hg2.map, pagesOf_mul]
        · rintro _ km3 ⟨-, g3, h3, hs3⟩
          rw [pagesOf_mul, pagesOf_mul] at hs3
          exact ⟨g3, h3, he.undo hg2 hs3 ht hnone'⟩
    refine (kalloc_spec h₁).seq ?_
    rintro pa km2 (⟨-, rfl, rfl⟩ | ⟨f, fs, -, rfl, hman, ho, hrep, hmem⟩)
    · refine (hundo _ g1 h₁ (Grow.refl _ _ _)).seq ?_
      rintro _ km3 hg3
      exact .pure (.inl ⟨rfl, hg3⟩)
    · rw [if_neg hman.ne_zero]
      refine .bind (Wp.memset ?_)
      refine (mapFresh_spec ht1.live (by omega) hmap1 hlow hman ho hrep hmem).seq ?_
      rintro ret km3 (⟨rfl, g3, h3, hown, hgrow, -⟩ | ⟨rfl, g3, h3, he3, -⟩)
      · refine (kfree_spec h3 (o := .held .fresh) (by simp [hown]) trivial).seq ?_
        rintro _ km4 ⟨h4, honly, -⟩
        have hg4 := Grow.releaseFresh ho (hmem.trans (onlyPage_fill _ _ _)) hgrow hown honly
        refine (hundo km4 _ h4 hg4).seq ?_
        rintro _ km5 hg5
        exact .pure (.inl ⟨rfl, hg5⟩)
      · have hnext : (lo + i) * pgsize + pgsize = (lo + (i + 1)) * pgsize := by grind
        rw [hnext]
        have he' := he.trans he3 (by omega) (by omega)
        refine (ih (i + 1) km3 g3 (by rw [userPages_eq]; omega) h3 he').mono ?_
        intro ret km' hres
        rwa [show lo + (i + 1) + n = lo + i + (n + 1) by omega] at hres

theorem Extend.grow (he : Extend L r lo lo perm km g km' g') : Grow r km g km' g' := by
  refine ⟨?_, ?_, fun r' hr => (he.other r' hr).1, he.node, he.mem⟩
  · funext r' v
    by_cases hr : r' = r
    · subst hr
      exact he.out v (by omega)
    · rw [(he.other r' hr).2]
  · intro f o hd
    rw [he.owner f o hd]
    refine or_iff_left ?_
    rintro ⟨v, h1, h2, -⟩
    omega

theorem pageCount_alloc (h : oldsz ≤ newsz) :
    pagesOf oldsz + pageCount (pagesOf oldsz * pgsize) newsz = pagesOf newsz := by
  unfold pagesOf pageCount
  rw [pgsize_eq]
  omega

theorem uvmalloc_spec (hlow : LowPerm (pteR ||| pteU ||| xperm))
    (hread : (pteR ||| pteU ||| xperm).getLsbD 1 = true) (h : Rep L none km g) (ht : Table g r)
    (hold : pagesOf oldsz < userPages) (hle : oldsz ≤ newsz)
    (hfull : ∀ v, v < pagesOf oldsz → g.map r v ≠ 0)
    (hnone : ∀ v, pagesOf oldsz ≤ v → v < userPages → g.map r v = 0) :
    Total (uvmalloc L (r * pgsize) oldsz newsz xperm) km fun ret km' =>
      (ret = 0 ∧ ∃ g', Rep L none km' g' ∧ Grow r km g km' g') ∨
      (ret = newsz ∧ pagesOf newsz < userPages ∧ ∃ g', Rep L none km' g' ∧
        Extend L r (pagesOf oldsz) (pagesOf newsz) (pteR ||| pteU ||| xperm) km g km' g') := by
  unfold uvmalloc
  rw [if_neg (by omega), pgroundup_eq (lt_of_pagesOf (Nat.le_of_lt hold))]
  have hloop := uvmallocLoop_spec newsz hlow hread ht hfull hnone
    (pageCount (pagesOf oldsz * pgsize) newsz) 0 km g hold h (Extend.refl _ _ _ _ _)
  rwa [Nat.add_zero, pageCount_alloc hle] at hloop

end Xv6
