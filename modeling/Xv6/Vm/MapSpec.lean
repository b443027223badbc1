import Xv6.Vm.WalkSpec

/-!
# Entries: `mappages` and `uvmunmap`

Writing a leaf entry, the effect of `mappages` on one page, and `uvmunmap` as a loop that
takes a range of pages out of a table. `Frame` says what all functions that work on one table
leave alone.
-/

namespace Xv6

open ByteMem

variable {L : Layout} {hole : Option (Nat × Nat)} {km km' km'' : Kmem} {g g' g'' : Account}
  {r : Nat}
variable {lo v : Nat} {w : BitVec 64}
variable {f hi r' : Nat}

/-! ## Leaf entries -/

def Account.setMap (g : Account) (r v : Nat) (w : BitVec 64) : Account :=
  { g with map := fun r' v' => if r' = r ∧ v' = v then w else g.map r' v' }

theorem Account.setMap_self (g : Account) (v : Nat) (w : BitVec 64) :
    (g.setMap r v w).map r v = w := by
  simp [Account.setMap]

theorem Account.setMap_ne (g : Account) {v' : Nat} (h : ¬ (r' = r ∧ v' = v)) :
    (g.setMap r v w).map r' v' = g.map r' v' := by
  simp [Account.setMap, h]

theorem Rep.load_pte (h : Rep L none km g) (hn : g.node r (.leaf (v / 512)) = some f) :
    load64 km.mem (pteAddr f v) = g.map r v := by
  have hv : v / 512 * 512 + v % 512 = v := by omega
  rw [pteAddr, h.load_entry hn (Nat.mod_lt _ (by decide)), Account.entry, hv]

theorem Rep.node_of_map (h : Rep L hole km g) (hv : g.map r v ≠ 0) :
    ∃ f, g.node r (.leaf (v / 512)) = some f := by
  cases hn : g.node r (.leaf (v / 512)) with
  | none => exact absurd (h.absent r v hn) hv
  | some f => exact ⟨f, rfl⟩

theorem onlyPage_pte (m : Mem) (f v : Nat) (w : BitVec 64) :
    OnlyPage f m (store64 m (pteAddr f v) w) :=
  onlyPage_store64 m f (Nat.mod_lt _ (by decide)) w

theorem Rep.setPte (h : Rep L none km g) (hn : g.node r (.leaf (v / 512)) = some f)
    (w : BitVec 64) :
    Rep L none { km with mem := store64 km.mem (pteAddr f v) w } (g.setMap r v w) := by
  have hmem := onlyPage_pte km.mem f v w
  refine { h with chain := ?_, entry := ?_, absent := ?_ }
  · exact h.chain.onlyPage hmem fun hf => h.not_node_of_empty ((h.free f).mp hf).2 hn
  · intro r' n' f' hn' i hi _
    have hnode : g.node r' n' = some f' := hn'
    have he := entry_in_page hi
    have hold := h.load_entry hnode hi
    by_cases hf : f' = f
    · subst hf
      obtain ⟨rfl, rfl⟩ := h.node_inj hn hnode
      by_cases hiv : i = v % 512
      · subst hiv
        have hv : v / 512 * 512 + v % 512 = v := by omega
        change load64 (store64 km.mem (pteAddr f' v) w) (pteAddr f' v) = _
        rw [load64_store64, Account.entry, hv, Account.setMap_self]
      · have hne : ¬ (r = r ∧ v / 512 * 512 + i = v) := by
          rintro ⟨-, hv⟩
          omega
        rw [Account.entry, g.setMap_ne hne]
        refine Eq.trans ?_ hold
        exact load64_congr (store64_agree _ _ (by unfold pteAddr; omega))
    · have hentry : (g.setMap r v w).entry r' n' i = g.entry r' n' i := by
        cases n' with
        | root | mid => rfl
        | leaf t =>
          refine g.setMap_ne ?_
          rintro ⟨rfl, hv⟩
          have ht : v / 512 = t := by omega
          rw [← ht, hn] at hnode
          cases hnode
          exact hf rfl
      rw [hentry]
      exact (load64_congr ((hmem f' hf).sub (by omega) (by omega))).trans hold
  · intro r' v' hnone
    by_cases hnew : r' = r ∧ v' = v
    · obtain ⟨rfl, rfl⟩ := hnew
      rw [show (g.setMap r' v' w).node = g.node from rfl, hn] at hnone
      cases hnone
    · rw [g.setMap_ne hnew]
      exact h.absent r' v' hnone

theorem Rep.agree_setPte (h : Rep L hole km g) {f' : Nat} {o : Owner}
    (hn : g.node r (.leaf (v / 512)) = some f) (ho : o ∈ g.owners f') (hd : o.Data) (m : Mem)
    (w : BitVec 64) : Agree m (store64 m (pteAddr f v) w) (f' * pgsize) pgsize := by
  refine onlyPage_pte m f v w f' ?_
  rintro rfl
  exact h.not_node ho hd hn

/-! ## One table at a time -/

/-- The owner belongs to something other than table `r`. -/
def Owner.Outside (r : Nat) : Owner → Prop
  | .table r' _ => r' ≠ r
  | .user r' _ => r' ≠ r
  | .held x => x ≠ .fresh

structure Frame (r : Nat) (km : Kmem) (g : Account) (km' : Kmem) (g' : Account) : Prop where
  owner : ∀ f o, o.Outside r → (o ∈ g'.owners f ↔ o ∈ g.owners f)
  node : ∀ r', r' ≠ r → g'.node r' = g.node r'
  map : ∀ r', r' ≠ r → g'.map r' = g.map r'
  mem : ∀ f o, o.Data → o.Outside r → o ∈ g.owners f → Agree km.mem km'.mem (f * pgsize) pgsize

theorem Frame.trans (h : Frame r km g km' g') (h' : Frame r km' g' km'' g'') :
    Frame r km g km'' g'' where
  owner f o ho := (h'.owner f o ho).trans (h.owner f o ho)
  node r' hr := (h'.node r' hr).trans (h.node r' hr)
  map r' hr := (h'.map r' hr).trans (h.map r' hr)
  mem f o hd ho hf := (h.mem f o hd ho hf).trans (h'.mem f o hd ho ((h.owner f o ho).mpr hf))

theorem Rep.table_iff (h : Rep L none km g) (h' : Rep L none km' g') {n : Node}
    (hn : g'.node r' = g.node r') :
    Owner.table r' n ∈ g'.owners f ↔ Owner.table r' n ∈ g.owners f := by
  rw [← h'.node r' n f, ← h.node r' n f, hn]

theorem Grow.frame (h : Rep L none km g) (h' : Rep L none km' g') (hg : Grow r km g km' g') :
    Frame r km g km' g' where
  owner f o ho := by
    cases o with
    | table r' => exact h.table_iff h' (hg.other r' ho)
    | user | held => exact hg.data f _ trivial
  node r' hr := hg.other r' hr
  map r' _ := by rw [hg.map]
  mem f o hd _ hf := hg.mem f o hd hf

/-! ## `mappages` -/

theorem pgrounddown_mul (v : Nat) : pgrounddown (v * pgsize) = v * pgsize := by
  rw [pgrounddown, mul_pgsize_div]

theorem pgrounddown_last (hv : v < 2 ^ 26) :
    pgrounddown ((v * pgsize + pgsize - 1) % 2 ^ 64) = v * pgsize := by
  unfold pgrounddown
  rw [pgsize_eq]
  omega

theorem mappagesLoop_step (h : Rep L none km g) (hr : g.Live r) (hv : v < 2 ^ 26)
    (hmap : hasFlag (g.map r v) pteV = false) {last pa fuel : Nat} {perm : BitVec 64}
    {Q : Int → Kmem → Prop}
    (hfail : ∀ km' g', Grow r km g km' g' → Rep L none km' g' → g'.free = [] →
      g.free.length < g.missing r v → Q (-1) km')
    (hok : ∀ km' g', Grow r km g km' g' → Adds r v g g' →
      Rep L none km' (g'.setMap r v (pa2pte pa ||| perm ||| pteV)) →
      Total (if v * pgsize = last then return 0
        else mappagesLoop (r * pgsize) last perm fuel (v * pgsize + pgsize) (pa + pgsize)) km' Q) :
    Total (mappagesLoop (r * pgsize) last perm (fuel + 1) (v * pgsize) pa) km Q := by
  refine (walk_alloc h hr hv).seq ?_
  rintro a km1 ⟨g1, h1, hgrow, ⟨rfl, hempty, hfew⟩ | ⟨f, hn, rfl, hadds⟩⟩
  · exact .pure (hfail km1 g1 hgrow h1 hempty hfew)
  · rw [if_neg (pteAddr_ne_zero h1 hn)]
    refine .bind (Wp.loadWord ?_)
    rw [h1.load_pte hn, hgrow.map, hmap, if_neg Bool.false_ne_true]
    refine .bind (Wp.storeWord (hok _ g1 ?_ hadds (h1.setPte hn _)))
    refine { hgrow with mem := ?_ }
    intro f' o hd ho
    exact (hgrow.mem f' o hd ho).trans
      (h1.agree_setPte hn ((hgrow.data f' o hd).mpr ho) hd _ _)

theorem mappages_spec (h : Rep L none km g) (hr : g.Live r) (hv : v < 2 ^ 26) (hmap : g.map r v = 0)
    (pa : Nat) (perm : BitVec 64) :
    Total (mappages (r * pgsize) (v * pgsize) pgsize pa perm) km fun ret km' =>
      ∃ g', Grow r km g km' g' ∧
        (ret = -1 ∧ g'.free = [] ∧ Rep L none km' g' ∧ g.free.length < g.missing r v ∨
          ret = 0 ∧ Rep L none km' (g'.setMap r v (pa2pte pa ||| perm ||| pteV)) ∧
            Adds r v g g') := by
  have hsize : pgsize ≠ 0 := by rw [pgsize_eq]; decide
  unfold mappages
  rw [if_neg hsize, pgrounddown_last hv, pgrounddown_mul]
  refine mappagesLoop_step h hr hv (by rw [hmap, hasFlag_zero]) ?_ ?_
  · intro km' g' hgrow h' hempty hfew
    exact ⟨g', hgrow, .inl ⟨rfl, hempty, h', hfew⟩⟩
  · intro km' g' hgrow hadds h'
    rw [if_pos rfl]
    exact .pure ⟨g', hgrow, .inr ⟨rfl, h', hadds⟩⟩

/-- Pages `[lo, last]` of table `r` are mapped from `pa` on, or memory has run out; no other entry
has changed. -/
structure Maps (r lo last pa : Nat) (perm : BitVec 64) (ret : Int) (g g' : Account) : Prop where
  live : g'.Live r
  other : ∀ r' u, ¬(r' = r ∧ lo ≤ u ∧ u ≤ last) → g'.map r' u = g.map r' u
  done : ret = -1 ∧ g'.free = [] ∨ ret = 0 ∧ ∀ u, lo ≤ u → u ≤ last →
    g'.map r u = pa2pte (pa + (u - lo) * pgsize) ||| perm ||| pteV

theorem mappagesLoop_spec {last : Nat} (hlast : last < 2 ^ 26) (perm : BitVec 64) (fuel : Nat) :
    ∀ (v pa : Nat) (km : Kmem) (g : Account), v ≤ last → last - v < fuel → Rep L none km g →
      g.Live r → (∀ u, v ≤ u → u ≤ last → hasFlag (g.map r u) pteV = false) →
      Total (mappagesLoop (r * pgsize) (last * pgsize) perm fuel (v * pgsize) pa) km fun ret km' =>
        ∃ g', Rep L none km' g' ∧ Maps r v last pa perm ret g g' := by
  induction fuel with
  | zero =>
    intro v pa km g _ hfuel
    exact absurd hfuel (Nat.not_lt_zero _)
  | succ fuel ih =>
    intro v pa km g hv hfuel h hr hmap
    refine mappagesLoop_step h hr (by omega) (hmap v (Nat.le_refl v) hv) ?_ ?_
    · intro km' g' hgrow h' hempty _
      exact ⟨g', h', hgrow.node _ _ hr, fun _ _ _ => by rw [hgrow.map], .inl ⟨rfl, hempty⟩⟩
    · intro km1 g1 hgrow _ h₁
      have hother : ∀ r' u, ¬(r' = r ∧ u = v) →
          (g1.setMap r v (pa2pte pa ||| perm ||| pteV)).map r' u = g.map r' u := by
        intro r' u hne
        rw [Account.setMap_ne _ hne, hgrow.map]
      by_cases he : v = last
      · subst he
        rw [if_pos rfl]
        refine .pure ⟨_, h₁, hgrow.node _ _ hr, fun r' u hout => hother r' u (by omega),
          .inr ⟨rfl, fun u h1 h2 => ?_⟩⟩
        obtain rfl : u = v := by omega
        simp [Account.setMap_self]
      · have hne : v * pgsize ≠ last * pgsize := by
          rw [pgsize_eq]
          omega
        rw [if_neg hne, ← Nat.succ_mul]
        refine (ih (v + 1) (pa + pgsize) km1 _ (by omega) (by omega) h₁ (hgrow.node _ _ hr)
          ?_).mono ?_
        · intro u h1 h2
          rw [hother r u (by omega)]
          exact hmap u (by omega) h2
        · rintro ret km2 ⟨g2, h₂, hm⟩
          refine ⟨g2, h₂, hm.live, fun r' u hout => ?_, ?_⟩
          · rw [hm.other r' u (by omega), hother r' u (by omega)]
          · rcases hm.done with hfail | ⟨hret, hdone⟩
            · exact .inl hfail
            refine .inr ⟨hret, fun u h1 h2 => ?_⟩
            rcases Nat.eq_or_lt_of_le h1 with rfl | hlt
            · rw [hm.other r v (by omega), Account.setMap_self]
              simp
            · have hpa : pa + pgsize + (u - (v + 1)) * pgsize = pa + (u - v) * pgsize := by
                rw [pgsize_eq]
                omega
              rw [hdone u hlt h2, hpa]

/-! ## `uvmunmap` -/

def LeafPte (w : BitVec 64) : Prop := w.getLsbD 0 = true ∧ w.getLsbD 1 = true

theorem LeafPte.ne_zero (h : LeafPte w) : w ≠ 0 := by
  rintro rfl
  simp [LeafPte] at h

theorem LeafPte.hasFlag_v (h : LeafPte w) : hasFlag w pteV = true := by
  rw [Xv6.hasFlag_v]
  exact h.1

theorem LeafPte.flags_ne (h : LeafPte w) : pteFlags w ≠ pteV := by
  intro he
  have h1 := congrArg (fun x => x.getLsbD 1) he
  simp only [getLsbD_pteFlags, getLsbD_pteV, h.2] at h1
  simp at h1

theorem walk_mapped (h : Rep L none km g) (hr : g.Live r) (hv : v < 2 ^ 26) (hmap : g.map r v ≠ 0) :
    Total (walk (r * pgsize) (v * pgsize) false) km fun a km' =>
      km' = km ∧ ∃ f, g.node r (.leaf (v / 512)) = some f ∧ a = pteAddr f v := by
  refine (walk_find h hr hv).mono ?_
  rintro a km' ⟨rfl, ⟨hnone, -⟩ | hsome⟩
  · obtain ⟨f, hf⟩ := h.node_of_map hmap
    rw [hf] at hnone
    cases hnone
  · exact ⟨rfl, hsome⟩

/-- Pages `[lo, hi)` of table `r` have been unmapped and let go. -/
structure Shrink (r lo hi : Nat) (km : Kmem) (g : Account) (km' : Kmem) (g' : Account) :
    Prop where
  owner : ∀ f o, o ∈ g'.owners f ↔ o ∈ g.owners f ∧ ∀ v, lo ≤ v → v < hi → o ≠ .user r v
  node : g'.node = g.node
  map : ∀ r' v, g'.map r' v = if r' = r ∧ lo ≤ v ∧ v < hi then 0 else g.map r' v
  mem : ∀ f o, o.Data → o ∈ g'.owners f → Agree km.mem km'.mem (f * pgsize) pgsize

theorem Shrink.refl (r lo : Nat) (km : Kmem) (g : Account) : Shrink r lo lo km g km g where
  owner f o := by
    refine (and_iff_left ?_).symm
    intro v h1 h2
    omega
  node := rfl
  map r' v := (if_neg (by omega)).symm
  mem _ _ _ _ := Agree.refl _ _ _

theorem Shrink.trans {mid : Nat} (h : Shrink r lo mid km g km' g')
    (h' : Shrink r mid hi km' g' km'' g'') (h1 : lo ≤ mid) (h2 : mid ≤ hi) :
    Shrink r lo hi km g km'' g'' where
  owner f o := by
    rw [h'.owner, h.owner, and_assoc]
    refine and_congr_right fun _ => ⟨?_, ?_⟩ <;> grind
  node := h'.node.trans h.node
  map r' v := by
    rw [h'.map, h.map]
    by_cases hr : r' = r
    · grind
    · simp [hr]
  mem f o hd ho := (h.mem f o hd ((h'.owner f o).mp ho).1).trans (h'.mem f o hd ho)

theorem Shrink.frame (h : Shrink r lo hi km g km' g') : Frame r km g km' g' where
  owner f o ho := by
    rw [h.owner]
    refine and_iff_left ?_
    rintro v _ _ rfl
    exact ho rfl
  node r' _ := by rw [h.node]
  map r' hr := by
    funext v
    rw [h.map, if_neg (by rintro ⟨he, -⟩; exact hr he)]
  mem f o hd ho hf := by
    refine h.mem f o hd ((h.owner f o).mpr ⟨hf, ?_⟩)
    rintro v _ _ rfl
    exact ho rfl

theorem unmapPage_spec (h : Rep L none km g) (hr : g.Live r) (hv : v < 2 ^ 26)
    (hleaf : LeafPte (g.map r v)) (ho : .user r v ∈ g.owners (ppn (g.map r v))) :
    Total (unmapPage L (r * pgsize) (v * pgsize) true) km fun _ km' =>
      ∃ g', Rep L none km' g' ∧ (∀ f o, o ∈ g'.owners f ↔
          o ∈ g.owners f ∧ ¬ (f = ppn (g.map r v) ∧ o = .user r v)) ∧
        g'.node = g.node ∧
        (∀ r' v', g'.map r' v' = if r' = r ∧ v' = v then 0 else g.map r' v') ∧
        ∀ f o, o.Data → o ∈ g'.owners f → Agree km.mem km'.mem (f * pgsize) pgsize := by
  refine (walk_mapped h hr hv hleaf.ne_zero).seq ?_
  rintro a km1 ⟨rfl, f, hn, rfl⟩
  rw [if_neg (pteAddr_ne_zero h hn)]
  refine .bind (Wp.loadWord ?_)
  rw [h.load_pte hn, hleaf.hasFlag_v, if_neg (by simp), if_neg hleaf.flags_ne, if_pos rfl,
    pte2pa_eq]
  refine (kfree_spec h ho trivial).seq ?_
  rintro _ km2 ⟨h₂, honly, hkeep⟩
  refine Wp.storeWord ?_
  have hn2 : (g.release (ppn (g.map r v)) (.user r v)).node r (.leaf (v / 512)) = some f := hn
  have howner : ∀ f' o, o ∈ (g.release (ppn (g.map r v)) (.user r v)).owners f' ↔
      o ∈ g.owners f' ∧ ¬ (f' = ppn (g.map r v) ∧ o = .user r v) := by
    intro f' o
    by_cases hf : f' = ppn (g.map r v)
    · subst hf
      simp [Account.release, Account.refree, and_comm]
    · simp [Account.release, Account.refree, hf]
  refine ⟨_, h₂.setPte hn2 0, howner, rfl, fun r' v' => rfl, ?_⟩
  intro f' o hd ho'
  have hpage : Agree km1.mem km2.mem (f' * pgsize) pgsize := by
    by_cases hf : f' = ppn (g.map r v)
    · subst hf
      have hne : (g.owners (ppn (g.map r v))).erase (.user r v) ≠ ∅ := by
        obtain ⟨h1, h2⟩ := (howner _ o).mp ho'
        exact Finset.ne_empty_of_mem (Finset.mem_erase.mpr ⟨fun he => h2 ⟨rfl, he⟩, h1⟩)
      rw [hkeep hne]
      exact Agree.refl _ _ _
    · exact honly f' hf
  exact hpage.trans (h₂.agree_setPte hn2 ho' hd _ _)

/-! ## Tables -/

def userPages : Nat := trapframeVa / pgsize

theorem userPages_eq : userPages = 2 ^ 26 - 2 := by
  unfold userPages trapframeVa trampolineVa maxva
  rw [pgsize_eq]
  rfl

/-- Table `r` maps frames that it owns, each at most once. The entries for TRAPFRAME and
TRAMPOLINE count for no owner and are out of reach of user code. -/
structure Table (g : Account) (r : Nat) : Prop where
  live : g.Live r
  leaf : ∀ v, g.map r v ≠ 0 → LeafPte (g.map r v)
  owner : ∀ v f, .user r v ∈ g.owners f ↔ v < userPages ∧ g.map r v ≠ 0 ∧ ppn (g.map r v) = f
  inj : ∀ v v', v < userPages → v' < userPages → g.map r v ≠ 0 → g.map r v' ≠ 0 →
    ppn (g.map r v) = ppn (g.map r v') → v = v'
  system : ∀ v, userPages ≤ v → (g.map r v).getLsbD 4 = false

theorem Table.owner_self (h : Table g r) (hv : v < userPages) (hm : g.map r v ≠ 0) :
    .user r v ∈ g.owners (ppn (g.map r v)) :=
  (h.owner v _).mpr ⟨hv, hm, rfl⟩

theorem Table.frame (h : Table g r') (hf : Frame r km g km' g') (hr : r' ≠ r) : Table g' r' where
  live := by
    unfold Account.Live
    rw [hf.node r' hr]
    exact h.live
  leaf v := by
    rw [hf.map r' hr]
    exact h.leaf v
  owner v f := by
    rw [hf.map r' hr, hf.owner f (.user r' v) hr]
    exact h.owner v f
  inj v v' := by
    rw [hf.map r' hr]
    exact h.inj v v'
  system v := by
    rw [hf.map r' hr]
    exact h.system v

theorem Table.grow (h : Table g r) (hg : Grow r km g km' g') : Table g' r where
  live := hg.node _ _ h.live
  leaf v := by
    rw [hg.map]
    exact h.leaf v
  owner v f := by
    rw [hg.map, hg.data f (.user r v) trivial]
    exact h.owner v f
  inj v v' := by
    rw [hg.map]
    exact h.inj v v'
  system v := by
    rw [hg.map]
    exact h.system v

theorem Table.shrink (h : Table g r) (hs : Shrink r lo hi km g km' g') : Table g' r := by
  have hne : ∀ v, g'.map r v ≠ 0 → ¬ (lo ≤ v ∧ v < hi) ∧ g'.map r v = g.map r v := by
    intro v hv
    have hm := hs.map r v
    grind
  refine ⟨?_, ?_, ?_, ?_, ?_⟩
  · unfold Account.Live
    rw [hs.node]
    exact h.live
  · grind [h.leaf]
  · grind [hs.owner, h.owner, hs.map]
  · grind [h.inj]
  · intro v hv
    by_cases hz : g'.map r v = 0
    · rw [hz]
      rfl
    · rw [(hne v hz).2]
      exact h.system v hv

theorem pageCount_unmap {n : Nat} (h : lo + n ≤ 2 ^ 26) :
    pageCount (lo * pgsize) ((lo * pgsize + n * pgsize) % 2 ^ 64) = n := by
  unfold pageCount
  rw [pgsize_eq]
  omega

theorem uvmunmap_spec (h : Rep L none km g) (ht : Table g r) (lo n : Nat) (hle : lo + n ≤ userPages)
    (hmap : ∀ v, lo ≤ v → v < lo + n → g.map r v ≠ 0) :
    Total (uvmunmap L (r * pgsize) (lo * pgsize) n true) km fun _ km' =>
      ∃ g', Rep L none km' g' ∧ Shrink r lo (lo + n) km g km' g' := by
  rw [userPages_eq] at hle
  unfold uvmunmap
  rw [if_neg (by rw [mul_pgsize_mod]; simp), pageCount_unmap (by omega)]
  have hloop := Wp.forRange (E := fun _ : Panic => False)
    (fun i => unmapPage L (r * pgsize) (lo * pgsize + i * pgsize) true)
    (fun i km' => ∃ g', Rep L none km' g' ∧ Shrink r lo (lo + i) km g km' g') n 0 km
    (by
      rintro i km1 - hi ⟨g1, h₁, hs⟩
      have ht1 := ht.shrink hs
      have hkeep : g1.map r (lo + i) = g.map r (lo + i) := by rw [hs.map, if_neg (by omega)]
      have hne : g1.map r (lo + i) ≠ 0 := by grind
      rw [← Nat.add_mul]
      refine (unmapPage_spec h₁ ht1.live (by omega) (ht1.leaf _ hne)
        (ht1.owner_self (by rw [userPages_eq]; omega) hne)).mono ?_
      rintro _ km2 ⟨g2, h₂, howner, hnode, hmap2, hmem⟩
      refine ⟨g2, h₂, hs.trans ⟨?_, hnode, ?_, hmem⟩ (by omega) (by omega)⟩
      · intro f o
        rw [howner]
        refine and_congr_right fun ho => ⟨?_, ?_⟩
        · intro hn v h1 h2 he
          obtain rfl : v = lo + i := by omega
          subst he
          exact hn ⟨((ht1.owner _ f).mp ho).2.2.symm, rfl⟩
        · grind
      · intro r' v
        rw [hmap2]
        refine if_congr ?_ rfl rfl
        constructor
        · omega
        · rintro ⟨h1, h2, h3⟩
          exact ⟨h1, by omega⟩)
    ⟨g, h, Shrink.refl _ _ _ _⟩
  refine hloop.mono ?_
  intro _ km' hI
  rwa [Nat.zero_add] at hI

theorem uvmunmap_keep_spec (h : Rep L none km g) (hr : g.Live r) {n : Nat}
    (hle : lo + n ≤ 2 ^ 26) (hleaf : ∀ v, lo ≤ v → v < lo + n → LeafPte (g.map r v)) :
    Total (uvmunmap L (r * pgsize) (lo * pgsize) n false) km fun _ km' =>
      ∃ map, Rep L none km' { g with map := map } ∧
        (∀ r' v, map r' v = if r' = r ∧ lo ≤ v ∧ v < lo + n then 0 else g.map r' v) ∧
        ∀ f o, o.Data → o ∈ g.owners f → Agree km.mem km'.mem (f * pgsize) pgsize := by
  unfold uvmunmap
  rw [if_neg (by rw [mul_pgsize_mod]; simp), pageCount_unmap hle]
  have hloop := Wp.forRange (E := fun _ : Panic => False)
    (fun i => unmapPage L (r * pgsize) (lo * pgsize + i * pgsize) false)
    (fun i km' => ∃ map, Rep L none km' { g with map := map } ∧
      (∀ r' v, map r' v = if r' = r ∧ lo ≤ v ∧ v < lo + i then 0 else g.map r' v) ∧
      ∀ f o, o.Data → o ∈ g.owners f → Agree km.mem km'.mem (f * pgsize) pgsize) n 0 km
    (by
      rintro i km1 - hi ⟨map, h1, hmap, hmem⟩
      have hleaf1 : LeafPte (map r (lo + i)) := by
        rw [hmap, if_neg (by omega)]
        exact hleaf _ (by omega) (by omega)
      rw [← Nat.add_mul]
      refine (walk_mapped h1 hr (by omega) hleaf1.ne_zero).seq ?_
      rintro a km2 ⟨rfl, f, hn, rfl⟩
      rw [if_neg (pteAddr_ne_zero h1 hn)]
      refine .bind (Wp.loadWord ?_)
      rw [h1.load_pte hn, hleaf1.hasFlag_v, if_neg (by simp), if_neg hleaf1.flags_ne,
        if_neg Bool.false_ne_true]
      refine .bind (.pure (Wp.storeWord ⟨_, h1.setPte hn 0, fun r' v => ?_, ?_⟩))
      · grind
      · intro f' o hd ho
        exact (hmem f' o hd ho).trans (h1.agree_setPte hn ho hd _ _))
    ⟨g.map, h, fun r' v => by rw [if_neg (by omega)], fun _ _ _ _ => Agree.refl _ _ _⟩
  refine hloop.mono ?_
  intro _ km' hI
  rwa [Nat.zero_add] at hI

end Xv6
