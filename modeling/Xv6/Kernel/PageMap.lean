import Xv6.Kernel.CopyoutContract

/-!
# Page tables as maps

What `walk`, `mappages` and `uvmunmap` do to a page table, as the hardware reads it: the tree of
three levels is a map from pages to entries.
-/

namespace Xv6

open ByteMem

variable {L : Layout} {km km' : Kmem} {g g' : Account} {r : Nat}

theorem page_lt {va : Nat} (hva : va < maxva) : va / pgsize < 2 ^ 26 := by
  unfold maxva at hva
  rw [pgsize_eq]
  omega

theorem walk_entry (h : Rep L none km g) (hr : g.Live r) {va : Nat} (hva : va < maxva) :
    ∃ a, walk (r * pgsize) va false km = .ok (a, km) ∧ (a ≠ 0 →
      ∃ f, g.node r (.leaf (va / pgsize / 512)) = some f ∧ a = pteAddr f (va / pgsize)) := by
  rw [← walk_page]
  obtain ⟨a, km', hw, rfl, ⟨-, rfl⟩ | hf⟩ := (walk_find h hr (page_lt hva)).total
  · exact ⟨0, hw, fun h0 => absurd rfl h0⟩
  · exact ⟨a, hw, fun _ => hf⟩

theorem Rep.pteAddr_inj (h : Rep L none km g) {f f' v v' : Nat}
    (hn : g.node r (.leaf (v / 512)) = some f) (hn' : g.node r (.leaf (v' / 512)) = some f')
    (he : pteAddr f v = pteAddr f' v') : v = v' := by
  have hf : f = f' := by
    unfold pteAddr at he
    rw [pgsize_eq] at he
    omega
  subst hf
  have hleaf := (h.node_inj hn hn').2
  injection hleaf with hdiv
  unfold pteAddr at he
  omega

def Kmem.pte (km : Kmem) (pagetable v : Nat) : BitVec 64 := leafPte km.mem pagetable (v * pgsize)

theorem Rep.pte_eq (h : Rep L none km g) (hr : g.Live r) {v : Nat} (hv : v < 2 ^ 26) :
    km.pte (r * pgsize) v = g.map r v := by
  rw [Kmem.pte, h.leafPte hr, if_pos (Nat.lt_of_not_ge (va_lt_maxva hv)), mul_pgsize_div]

/-! ## `uvmunmap` on any tree -/

def Kmem.pagesIn (km : Kmem) (pagetable lo hi f : Nat) : Finset Nat :=
  (Finset.range hi).filter fun v => lo ≤ v ∧ pte2pa (km.pte pagetable v) = f * pgsize

/-- The pages of `[lo, hi)` can be freed: each of their frames has a reference for every page that
is in it, and it is no page of a tree. -/
def Freeable (g : Account) (km : Kmem) (pagetable lo hi : Nat) : Prop :=
  ∀ f, ((km.pagesIn pagetable lo hi f).card : Int) ≤ km.refs f ∧
    (km.pagesIn pagetable lo hi f ≠ ∅ → ∀ r n, g.node r n ≠ some f)

theorem unmapPage_any {free : Bool} {v : Nat} (h : Rep L none km g) (hr : g.Live r)
    (hv : v < 2 ^ 26) (hvalid : hasFlag (g.map r v) pteV = true)
    (hflags : pteFlags (g.map r v) ≠ pteV)
    (hfree : free = true → 1 ≤ km.refs (ppn (g.map r v)) ∧
      ∀ r' n, g.node r' n ≠ some (ppn (g.map r v))) :
    Total (unmapPage L (r * pgsize) (v * pgsize) free) km fun _ km' =>
      ∃ g', Rep L none km' g' ∧ g'.node = g.node ∧
        (∀ v', g'.map r v' = if v' = v then 0 else g.map r v') ∧
        (free = true → ∀ f, km'.refs f = km.refs f - if f = ppn (g.map r v) then 1 else 0) := by
  have hne : g.map r v ≠ 0 := by
    intro hzero
    rw [hzero, hasFlag_zero] at hvalid
    cases hvalid
  refine (walk_mapped h hr hv hne).seq ?_
  rintro a km1 ⟨rfl, f, hn, rfl⟩
  rw [if_neg (pteAddr_ne_zero h hn)]
  refine .bind (Wp.loadWord ?_)
  rw [h.load_pte hn, hvalid, if_neg (by simp), if_neg hflags, pte2pa_eq]
  cases free with
  | false =>
    refine .bind (.pure (Wp.storeWord ⟨_, h.setPte hn 0, rfl, ?_, nofun⟩))
    intro v'
    simp [Account.setMap]
  | true =>
    obtain ⟨hrefs, htable⟩ := hfree rfl
    have hcard := h.refs (ppn (g.map r v))
    obtain ⟨o, ho⟩ := Finset.card_pos.mp (show 0 < (g.owners (ppn (g.map r v))).card by omega)
    have hd : o.Data := by
      cases o with
      | table r' n => exact absurd ((h.node r' n _).mpr ho) (htable r' n)
      | user | held => trivial
    refine (kfree_spec h ho hd).seq ?_
    rintro _ km2 ⟨h2, -, -⟩
    refine Wp.storeWord ⟨_, h2.setPte hn 0, rfl, ?_, fun _ f' => ?_⟩
    · intro v'
      simp [Account.setMap, Account.release, Account.refree]
    · change km2.refs f' = _
      rw [h2.refs, h.refs]
      by_cases hf : f' = ppn (g.map r v)
      · subst hf
        have hpos := Finset.card_pos.mpr ⟨o, ho⟩
        simp only [Account.release, Account.refree, Function.update_self, if_true]
        rw [Finset.card_erase_of_mem ho]
        omega
      · simp [Account.release, Account.refree, hf]

theorem Kmem.card_pagesIn (km : Kmem) (pagetable f : Nat) {lo hi : Nat} (hlo : lo < hi) :
    (km.pagesIn pagetable lo hi f).card = (km.pagesIn pagetable (lo + 1) hi f).card +
      if pte2pa (km.pte pagetable lo) = f * pgsize then 1 else 0 := by
  by_cases hf : pte2pa (km.pte pagetable lo) = f * pgsize
  · have hsplit : km.pagesIn pagetable lo hi f =
        insert lo (km.pagesIn pagetable (lo + 1) hi f) := by
      ext v
      grind [Kmem.pagesIn]
    rw [hsplit, Finset.card_insert_of_notMem (by simp [Kmem.pagesIn]), if_pos hf]
  · have hsame : km.pagesIn pagetable lo hi f = km.pagesIn pagetable (lo + 1) hi f := by
      ext v
      grind [Kmem.pagesIn]
    rw [hsame, if_neg hf]
    exact (Nat.add_zero _).symm

theorem uvmunmap_any {free : Bool} {lo n : Nat} (h : Rep L none km g) (hr : g.Live r)
    (hle : lo + n ≤ 2 ^ 26)
    (hleaf : ∀ v, lo ≤ v → v < lo + n →
      hasFlag (km.pte (r * pgsize) v) pteV = true ∧ pteFlags (km.pte (r * pgsize) v) ≠ pteV)
    (hfree : free = true → Freeable g km (r * pgsize) lo (lo + n)) :
    Total (uvmunmap L (r * pgsize) (lo * pgsize) n free) km fun _ km' =>
      ∃ g', Rep L none km' g' ∧ g'.node = g.node ∧
        ∀ v, g'.map r v = if lo ≤ v ∧ v < lo + n then 0 else g.map r v := by
  unfold uvmunmap
  rw [if_neg (by rw [mul_pgsize_mod]; simp), pageCount_unmap hle]
  -- the frames keep a reference for each page that is still to come
  have hloop := Wp.forRange (E := fun _ : Panic => False)
    (fun i => unmapPage L (r * pgsize) (lo * pgsize + i * pgsize) free)
    (fun i km' => ∃ g', Rep L none km' g' ∧ g'.node = g.node ∧
      (∀ v, g'.map r v = if lo ≤ v ∧ v < lo + i then 0 else g.map r v) ∧
      (free = true → ∀ f,
        ((km.pagesIn (r * pgsize) (lo + i) (lo + n) f).card : Int) ≤ km'.refs f)) n 0 km
    (by
      rintro i km1 - hi ⟨g1, h1, hnode, hmap, hcount⟩
      have hv : lo + i < 2 ^ 26 := by omega
      have hkeep : g1.map r (lo + i) = km.pte (r * pgsize) (lo + i) := by
        rw [hmap, if_neg (by omega), h.pte_eq hr hv]
      have hr1 : g1.Live r := by
        rw [Account.Live, hnode]
        exact hr
      obtain ⟨hvalid, hflags⟩ := hleaf (lo + i) (by omega) (by omega)
      rw [← hkeep] at hvalid hflags
      have hcard := fun f => km.card_pagesIn (r * pgsize) f (show lo + i < lo + n by omega)
      simp only [← hkeep, pte2pa_eq] at hcard
      rw [← Nat.add_mul]
      refine (unmapPage_any h1 hr1 hv hvalid hflags ?_).mono ?_
      · intro hf
        have hone := hcard (ppn (g1.map r (lo + i)))
        have hle1 := hcount hf (ppn (g1.map r (lo + i)))
        rw [if_pos rfl] at hone
        refine ⟨by omega, ?_⟩
        rw [hnode]
        refine (hfree hf _).2 (Finset.ne_empty_of_mem (a := lo + i) ?_)
        grind [Kmem.pagesIn, pte2pa_eq]
      · rintro _ km2 ⟨g2, h2, hnode2, hmap2, hrefs⟩
        refine ⟨g2, h2, hnode2.trans hnode, fun v => ?_, fun hf f => ?_⟩
        · grind
        · have hone := hcard f
          have hle1 := hcount hf f
          have hmem := hrefs hf f
          have hiff : ppn (g1.map r (lo + i)) * pgsize = f * pgsize ↔
              f = ppn (g1.map r (lo + i)) :=
            ⟨fun he => (mul_pgsize_inj he).symm, fun he => by rw [he]⟩
          rw [if_congr hiff rfl rfl] at hone
          rw [← Nat.add_assoc, hmem]
          split at hone
          · next hf0 =>
            rw [if_pos hf0]
            omega
          · next hf0 =>
            rw [if_neg hf0]
            omega)
    ⟨g, h, rfl, fun v => by rw [if_neg (by omega)], fun hf f => (hfree hf f).1⟩
  refine hloop.mono ?_
  rintro _ km' ⟨g', h', hnode, hmap, -⟩
  rw [Nat.zero_add] at hmap
  exact ⟨g', h', hnode, hmap⟩

/-- Every page table is a map from the pages below MAXVA to entries, for `walk`, `mappages` and
`uvmunmap`. -/
theorem page_tables_are_maps (h : Rep L none km g) (hr : g.Live r) :
    (∀ va < maxva, ∃ a, walk (r * pgsize) va false km = .ok (a, km) ∧ ∀ va' < maxva, a ≠ 0 →
        (walk (r * pgsize) va' false km = .ok (a, km) ↔ va / pgsize = va' / pgsize)) ∧
    (∀ va size pa perm, 0 < size → va + size ≤ maxva →
      let last := (va + size - 1) / pgsize
      (∀ v, va / pgsize ≤ v → v ≤ last → hasFlag (km.pte (r * pgsize) v) pteV = false) →
      ∃ ret km' g', mappages (r * pgsize) va size pa perm km = .ok (ret, km') ∧
        Rep L none km' g' ∧ g'.Live r ∧
        (∀ v < 2 ^ 26, ¬(va / pgsize ≤ v ∧ v ≤ last) →
          km'.pte (r * pgsize) v = km.pte (r * pgsize) v) ∧
        (ret = -1 ∧ km'.freelist = 0 ∨ ret = 0 ∧ ∀ i, va / pgsize + i ≤ last →
          km'.pte (r * pgsize) (va / pgsize + i) = pa2pte (pa + i * pgsize) ||| perm ||| pteV)) ∧
    ∀ lo n free, lo + n ≤ 2 ^ 26 →
      (∀ v, lo ≤ v → v < lo + n →
        hasFlag (km.pte (r * pgsize) v) pteV = true ∧ pteFlags (km.pte (r * pgsize) v) ≠ pteV) →
      (free = true → Freeable g km (r * pgsize) lo (lo + n)) →
      ∃ km' g', uvmunmap L (r * pgsize) (lo * pgsize) n free km = .ok ((), km') ∧
        Rep L none km' g' ∧ g'.Live r ∧
        ∀ v < 2 ^ 26, km'.pte (r * pgsize) v =
          if lo ≤ v ∧ v < lo + n then 0 else km.pte (r * pgsize) v := by
  refine ⟨?_, ?_, ?_⟩
  · intro va hva
    obtain ⟨a, hw, ha⟩ := walk_entry h hr hva
    refine ⟨a, hw, fun va' hva' h0 => ⟨fun hw' => ?_, fun he => ?_⟩⟩
    · obtain ⟨a', hw'', ha'⟩ := walk_entry h hr hva'
      obtain ⟨rfl, -⟩ := Prod.mk.inj (Except.ok.inj (hw'.symm.trans hw''))
      obtain ⟨f, hn, he⟩ := ha h0
      obtain ⟨f', hn', he'⟩ := ha' h0
      exact h.pteAddr_inj hn hn' (he.symm.trans he')
    · rw [← walk_page, ← he, walk_page]
      exact hw
  · intro va size pa perm h0 hle last hun
    have hlast : last < 2 ^ 26 := page_lt (show va + size - 1 < maxva by omega)
    have hfirst : va / pgsize ≤ last := Nat.div_le_div_right (by omega)
    have hwrap : (va + size - 1) % 2 ^ 64 = va + size - 1 := by
      unfold maxva at hle
      omega
    have hloop := mappagesLoop_spec hlast perm (maxva / pgsize + 1) (va / pgsize) pa km g hfirst
      (by unfold maxva; rw [pgsize_eq]; omega) h hr
      (fun v h1 h2 => h.pte_eq hr (show v < 2 ^ 26 by omega) ▸ hun v h1 h2)
    obtain ⟨ret, km', hm, g', h', hmaps⟩ := hloop.total
    refine ⟨ret, km', g', ?_, h', hmaps.live, ?_, ?_⟩
    · unfold mappages
      rw [if_neg (by omega), hwrap]
      exact hm
    · intro v hv hout
      rw [h'.pte_eq hmaps.live hv, h.pte_eq hr hv]
      exact hmaps.other r v fun hin => hout hin.2
    · rcases hmaps.done with ⟨hret, hempty⟩ | ⟨hret, hdone⟩
      · have hchain := h'.chain
        rw [hempty] at hchain
        exact .inl ⟨hret, hchain⟩
      · refine .inr ⟨hret, fun i hi => ?_⟩
        rw [h'.pte_eq hmaps.live (by omega), hdone _ (by omega) hi, Nat.add_sub_cancel_left]
  · intro lo n free hle hleaf hfree
    obtain ⟨_, km', hu, g', h', hnode, hmap⟩ := (uvmunmap_any h hr hle hleaf hfree).total
    have hr' : g'.Live r := by
      rw [Account.Live, hnode]
      exact hr
    refine ⟨km', g', hu, h', hr', fun v hv => ?_⟩
    rw [h'.pte_eq hr' hv, h.pte_eq hr hv, hmap]

/-- In the table of the first process, `mappages` enters two pages beside the one that is there, and
`uvmunmap` takes that one away. -/
theorem page_tables_are_maps_init : ∃ steps k r, Run smallLayout .RR steps k ∧
    (k.proc initproc).pagetable = r * pgsize ∧
    (∃ km', mappages (r * pgsize) 8190 4 4096 pteR k.km = .ok (0, km') ∧
      km'.pte (r * pgsize) 2 = pa2pte 8192 ||| pteR ||| pteV ∧
      km'.pte (r * pgsize) 0 = k.km.pte (r * pgsize) 0) ∧
    ∃ km', uvmunmap smallLayout (r * pgsize) 0 1 false k.km = .ok ((), km') ∧
      km'.pte (r * pgsize) 0 = 0 := by
  obtain ⟨steps, k, hrun, hd, hstate, hleaf, hone, htwo, ret, km', hmap, rfl⟩ :=
    exists_disciplined_run (startOps initproc)
      (fun _ k => (k.proc initproc).state = .running ∧
        (hasFlag (k.km.pte (k.proc initproc).pagetable 0) pteV = true ∧
          pteFlags (k.km.pte (k.proc initproc).pagetable 0) ≠ pteV) ∧
        hasFlag (k.km.pte (k.proc initproc).pagetable 1) pteV = false ∧
        hasFlag (k.km.pte (k.proc initproc).pagetable 2) pteV = false ∧
        ∃ ret km', mappages (k.proc initproc).pagetable 8190 4 4096 pteR k.km = .ok (ret, km') ∧
          ret = 0) (by decide +kernel)
  obtain ⟨g, hk⟩ := hrun.inv hd
  obtain ⟨r, t, hpt, -, hi⟩ := hk.user (.of_state hstate (by decide))
  rw [hpt] at hleaf hone htwo hmap
  obtain ⟨-, hmaps, hunmap⟩ := page_tables_are_maps hk.sound.rep hi.live
  refine ⟨steps, k, r, hrun, hpt, ⟨km', hmap, ?_⟩, ?_⟩
  · have hsecond : (8190 + 4 - 1) / pgsize = 2 := by
      rw [pgsize_eq]
    have hfirst : 8190 / pgsize = 1 := by
      rw [pgsize_eq]
    obtain ⟨_, _, g', hok, -, -, hother, hret⟩ := hmaps 8190 4 4096 pteR (by decide) (by decide)
      (by
        intro v h1 h2
        rw [hfirst] at h1
        rw [hsecond] at h2
        obtain rfl | rfl : v = 1 ∨ v = 2 := by omega
        · exact hone
        · exact htwo)
    rw [hmap] at hok
    cases hok
    rw [hfirst, hsecond] at hother hret
    obtain ⟨he, -⟩ | ⟨-, hentry⟩ := hret
    · cases he
    have hpa : 4096 + 1 * pgsize = 8192 := by
      rw [pgsize_eq]
    have hpage := hentry 1 (by decide)
    rw [hpa] at hpage
    exact ⟨hpage, hother 0 (by decide) (by decide)⟩
  · obtain ⟨km', g', hok, -, -, hentry⟩ := hunmap 0 1 false (by decide)
      (by
        intro v h1 h2
        obtain rfl : v = 0 := by omega
        exact hleaf) nofun
    rw [Nat.zero_mul] at hok
    exact ⟨km', hok, by rw [hentry 0 (by decide), if_pos (by decide)]⟩

end Xv6
