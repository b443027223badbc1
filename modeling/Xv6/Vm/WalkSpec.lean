import Xv6.Vm.KallocSpec

/-!
# `walk`

`walk` finds the page that holds the entry for a virtual page, and with `alloc` it adds the
page-table pages that are missing. Adding them changes no leaf entry and no data page.
-/

namespace Xv6

open ByteMem

variable {L : Layout} {hole : Option (Nat × Nat)} {km km' km'' : Kmem} {g g' g'' : Account}
  {r : Nat}
variable {f i p v : Nat} {fs : List Nat} {km1 : Kmem} {m n : Node}
variable {n' : Node} {r' : Nat}

/-! ## Inner pages and their entries -/

def Node.child : Node → Nat → Option Node
  | .root, i => some (.mid i)
  | .mid j, i => some (.leaf (j * 512 + i))
  | .leaf _, _ => none

theorem Node.child_inj {i' : Nat} (h : n.child i = some m) (h' : n'.child i' = some m)
    (hi : i < 512) (hi' : i' < 512) : n = n' ∧ i = i' := by
  cases n with
  | root =>
    cases n' with
    | root => grind [Node.child, Option.some.injEq]
    | mid => grind [Node.child, Option.some.injEq]
    | leaf => cases h'
  | mid j =>
    cases n' with
    | root => grind [Node.child, Option.some.injEq]
    | mid j' => grind [Node.child, Option.some.injEq]
    | leaf => cases h'
  | leaf => cases h

theorem Node.child_parent (h : n.child i = some m) (hi : i < 512) : m.parent = n := by
  cases n with
  | root =>
    simp only [Node.child, Option.some.injEq] at h
    subst h
    rfl
  | mid j => grind [Node.child, Option.some.injEq, Node.parent]
  | leaf => cases h

theorem Node.child_ne_root (h : n.child i = some m) : m ≠ .root := by
  rintro rfl
  cases n <;> simp [Node.child] at h

theorem Account.entry_child (g : Account) (r : Nat) (h : n.child i = some m) :
    g.entry r n i = link (g.node r m) := by
  cases n with
  | root | mid =>
    simp only [Node.child, Option.some.injEq] at h
    subst h
    rfl
  | leaf => cases h

theorem Rep.load_entry (h : Rep L none km g) (hn : g.node r n = some f) (hi : i < 512) :
    load64 km.mem (f * pgsize + 8 * i) = g.entry r n i :=
  h.entry r n f hn i hi (by simp)

/-! ## Growth of a table -/

/-- Table `r` may have got new page-table pages; nothing else has changed. -/
structure Grow (r : Nat) (km : Kmem) (g : Account) (km' : Kmem) (g' : Account) : Prop where
  map : g'.map = g.map
  data : ∀ f o, o.Data → (o ∈ g'.owners f ↔ o ∈ g.owners f)
  other : ∀ r', r' ≠ r → g'.node r' = g.node r'
  node : ∀ n f, g.node r n = some f → g'.node r n = some f
  mem : ∀ f o, o.Data → o ∈ g.owners f → Agree km.mem km'.mem (f * pgsize) pgsize

theorem Grow.refl (r : Nat) (km : Kmem) (g : Account) : Grow r km g km g :=
  ⟨rfl, fun _ _ _ => Iff.rfl, fun _ _ => rfl, fun _ _ h => h, fun _ _ _ _ => Agree.refl _ _ _⟩

theorem Grow.trans (h : Grow r km g km' g') (h' : Grow r km' g' km'' g'') :
    Grow r km g km'' g'' where
  map := h'.map.trans h.map
  data f o hd := (h'.data f o hd).trans (h.data f o hd)
  other r' hr := (h'.other r' hr).trans (h.other r' hr)
  node n f hn := h'.node n f (h.node n f hn)
  mem f o hd ho := (h.mem f o hd ho).trans (h'.mem f o hd ((h.data f o hd).mpr ho))

def Account.addNode (g : Account) (r : Nat) (m : Node) (f : Nat) (fs : List Nat) : Account :=
  { owners := Function.update g.owners f {.table r m}
    free := fs
    node := fun r' n' => if r' = r ∧ n' = m then some f else g.node r' n'
    map := g.map }

attribute [local simp] Account.addNode Account.refree

theorem Account.addNode_self (g : Account) (m : Node) (f : Nat) (fs : List Nat) :
    (g.addNode r m f fs).node r m = some f := by
  simp

theorem Account.addNode_ne (g : Account) (h : ¬ (r' = r ∧ n' = m)) :
    (g.addNode r m f fs).node r' n' = g.node r' n' := by
  simp [h]

theorem Rep.entry_of_missing (h : Rep L none km g) (hm : g.node r m = none) (hi : i < 512) :
    g.entry r m i = 0 := by
  cases m with
  | root =>
    have : g.node r (.mid i) = none := by
      by_contra hne
      exact h.parent r (.mid i) hne hm
    simp [Account.entry, this, link_none]
  | mid j =>
    have : g.node r (.leaf (j * 512 + i)) = none := by
      by_contra hne
      refine h.parent r _ hne ?_
      have he : (j * 512 + i) / 512 = j := by omega
      simpa [Node.parent, he] using hm
    simp [Account.entry, this, link_none]
  | leaf t =>
    refine h.absent r _ ?_
    have he : (t * 512 + i) / 512 = t := by omega
    rw [he]
    exact hm

theorem Account.entry_addNode (g : Account)
    (hne : ∀ m', n.child i = some m' → ¬ (r' = r ∧ m' = m)) :
    (g.addNode r m f fs).entry r' n i = g.entry r' n i := by
  cases n with
  | root | mid => exact congrArg link (g.addNode_ne (hne _ rfl))
  | leaf => rfl

theorem Rep.entry_zeroed (h : Rep L none km g) {k : Nat} (hnone : g.node r m = none) (hk : k < 512)
    (mem : Mem) :
    load64 (fill mem (f * pgsize) 0 pgsize) (f * pgsize + 8 * k) =
      (g.addNode r m f fs).entry r m k := by
  have he := entry_in_page hk
  rw [load64_fill_zero _ (by omega) (by omega), g.entry_addNode, h.entry_of_missing hnone hk]
  rintro m' hc ⟨-, rfl⟩
  cases m' <;> simp [Node.child] at hc

theorem Rep.load_zeroed (h : Rep L none km g) {k f' : Nat} (ho : g.owners f = ∅)
    (hmem : OnlyPage f km.mem km1.mem) (hn : g.node r' n' = some f') (hk : k < 512) :
    load64 (fill km1.mem (f * pgsize) 0 pgsize) (f' * pgsize + 8 * k) = g.entry r' n' k := by
  have he := entry_in_page hk
  have hff : f' ≠ f := fun e => h.not_node_of_empty ho (e ▸ hn)
  rw [← h.load_entry hn hk]
  exact load64_congr (((hmem.trans (onlyPage_fill km1.mem f 0)) f' hff).sub (by omega) (by omega))

theorem Rep.placeNode (h : Rep L none km g) {km2 : Kmem}
    (hfresh : Rep L none km1 (g.refree f {.held .fresh} fs)) (hnone : g.node r m = none)
    (ho : g.owners f = ∅) (hroot : m = .root → f = r)
    (hparent : m ≠ .root → g.node r m.parent ≠ none) (hmid : ∀ j, m = .mid j → j < 512)
    (hrefs : km2.refs = km1.refs) (hchain : Chain km2.mem km2.freelist fs)
    (hzero : Agree (fill km1.mem (f * pgsize) 0 pgsize) km2.mem (f * pgsize) pgsize)
    (hentry : ∀ r' n' f', g.node r' n' = some f' → ∀ k, k < 512 →
      load64 km2.mem (f' * pgsize + 8 * k) = (g.addNode r m f fs).entry r' n' k) :
    Rep L none km2 (g.addNode r m f fs) := by
  have hfn : ∀ r' n', g.node r' n' ≠ some f := fun r' n' => h.not_node_of_empty ho
  refine ⟨?_, hchain, hfresh.nodup, ?_, ?_, ?_, ?_, ?_, ?_, ?_, ?_, ?_⟩
  · intro f'
    rw [hrefs, hfresh.refs f']
    by_cases hf : f' = f <;> simp [hf]
  · intro f'
    rw [show (g.addNode r m f fs).free = (g.refree f {.held .fresh} fs).free from rfl,
      hfresh.free f']
    by_cases hf : f' = f <;> simp [hf]
  · intro f' hne
    by_cases hf : f' = f
    · subst hf
      exact hfresh.managed f' (by simp)
    · exact h.managed f' (by simpa [hf] using hne)
  · intro r' n' f'
    by_cases hnew : r' = r ∧ n' = m
    · obtain ⟨rfl, rfl⟩ := hnew
      by_cases hf : f' = f
      · subst hf
        simp
      · have hno : Owner.table r' n' ∉ g.owners f' := by
          rw [← h.node r' n' f', hnone]
          simp
        simp [hf, hno, Ne.symm hf]
    · rw [g.addNode_ne hnew]
      by_cases hf : f' = f
      · subst hf
        have hne : Owner.table r' n' ≠ Owner.table r m := by grind
        simp [hfn r' n', hne]
      · simpa [hf] using h.node r' n' f'
  · intro r' n' f' ho'
    by_cases hf : f' = f
    · subst hf
      have he : Owner.table r' n' = Owner.table r m := by simpa using ho'
      simp [he]
    · simpa [hf] using h.sole r' n' f' (by simpa [hf] using ho')
  · intro r' f' hr'
    by_cases hnew : r' = r ∧ Node.root = m
    · grind [Account.addNode_self]
    · rw [g.addNode_ne hnew] at hr'
      exact h.root r' f' hr'
  · intro r' n' hne
    by_cases hpar : r' = r ∧ n'.parent = m
    · grind [Account.addNode_self]
    · rw [g.addNode_ne hpar]
      by_cases hnew : r' = r ∧ n' = m
      · obtain ⟨rfl, rfl⟩ := hnew
        refine hparent ?_
        intro he
        rw [he] at hpar
        exact hpar ⟨rfl, rfl⟩
      · rw [g.addNode_ne hnew] at hne
        exact h.parent r' n' hne
  · intro r' j hne
    by_cases hnew : r' = r ∧ Node.mid j = m
    · exact hmid j hnew.2.symm
    · rw [g.addNode_ne hnew] at hne
      exact h.midLt r' j hne
  · intro r' n' f' hn' k hk _
    by_cases hnew : r' = r ∧ n' = m
    · obtain ⟨rfl, rfl⟩ := hnew
      rw [Account.addNode_self] at hn'
      cases hn'
      have he := entry_in_page hk
      refine Eq.trans ?_ (h.entry_zeroed hnone hk km1.mem)
      exact load64_congr (hzero.sub (by omega) (by omega))
    · rw [g.addNode_ne hnew] at hn'
      exact hentry r' n' f' hn' k hk
  · intro r' v hv
    refine h.absent r' v ?_
    by_cases hnew : r' = r ∧ Node.leaf (v / 512) = m
    · grind
    · rwa [g.addNode_ne hnew] at hv

theorem Rep.addNode (h : Rep L none km g) (hfresh : Rep L none km1 (g.refree f {.held .fresh} fs))
    (hn : g.node r n = some p) (hchild : n.child i = some m) (hi : i < 512)
    (hnone : g.node r m = none) (ho : g.owners f = ∅) (hmem : OnlyPage f km.mem km1.mem) :
    Rep L none
      { km1 with mem := store64 (fill km1.mem (f * pgsize) 0 pgsize) (p * pgsize + 8 * i)
                          (link (some f)) }
      (g.addNode r m f fs) := by
  have hpf : p ≠ f := by
    rintro rfl
    exact h.not_node_of_empty ho hn
  have hmp : OnlyPage p (fill km1.mem (f * pgsize) 0 pgsize)
      (store64 (fill km1.mem (f * pgsize) 0 pgsize) (p * pgsize + 8 * i) (link (some f))) :=
    onlyPage_store64 _ p hi _
  have hfill := onlyPage_fill km1.mem f 0
  have hmr := Node.child_ne_root hchild
  refine h.placeNode hfresh hnone ho (fun e => absurd e hmr) ?_ ?_ rfl ?_ (hmp f hpf.symm) ?_
  · intro _
    rw [Node.child_parent hchild hi, hn]
    simp
  · intro j hj
    subst hj
    cases n with
    | root =>
      simp only [Node.child, Option.some.injEq, Node.mid.injEq] at hchild
      omega
    | mid => simp [Node.child] at hchild
    | leaf => cases hchild
  · -- neither page is on the free list
    refine (hfresh.chain.onlyPage hfill ?_).onlyPage hmp ?_
    · intro hf
      simpa using ((hfresh.free f).mp hf).2
    · intro hp
      have hempty := ((hfresh.free p).mp hp).2
      exact h.not_node_of_empty (by simpa [hpf] using hempty) hn
  · intro r' n' f' hn' k hk
    by_cases hpos : f' = p ∧ k = i
    · obtain ⟨rfl, rfl⟩ := hpos
      obtain ⟨rfl, rfl⟩ := h.node_inj hn hn'
      rw [load64_store64, Account.entry_child _ _ hchild, Account.addNode_self]
    · have he := entry_in_page hk
      have hkeep : load64 (store64 (fill km1.mem (f * pgsize) 0 pgsize) (p * pgsize + 8 * i)
          (link (some f))) (f' * pgsize + 8 * k) =
          load64 (fill km1.mem (f * pgsize) 0 pgsize) (f' * pgsize + 8 * k) := by
        by_cases hfp : f' = p
        · subst hfp
          exact load64_congr (store64_agree _ _ (by omega))
        · exact load64_congr ((hmp f' hfp).sub (by omega) (by omega))
      refine hkeep.trans ((h.load_zeroed ho hmem hn' hk).trans (g.entry_addNode ?_).symm)
      rintro m' hc ⟨rfl, rfl⟩
      obtain ⟨rfl, rfl⟩ := Node.child_inj hc hchild hk hi
      rw [hn] at hn'
      cases hn'
      exact hpos ⟨rfl, rfl⟩

theorem Rep.node_none (h : Rep L hole km g) (hr : g.node r .root = none) (n : Node) :
    g.node r n = none := by
  by_contra hne
  cases n with
  | root => exact hne hr
  | mid => exact h.parent r _ hne hr
  | leaf => exact h.parent r _ (h.parent r _ hne) hr

theorem Rep.addRoot (h : Rep L none km g) (hfresh : Rep L none km1 (g.refree f {.held .fresh} fs))
    (ho : g.owners f = ∅) (hmem : OnlyPage f km.mem km1.mem) :
    g.node f .root = none ∧ Rep L none { km1 with mem := fill km1.mem (f * pgsize) 0 pgsize }
        (g.addNode f .root f fs) := by
  have hnone : g.node f .root = none := by
    cases hn : g.node f .root with
    | none => rfl
    | some f' =>
      have hf := h.root f f' hn
      subst hf
      exact absurd hn (h.not_node_of_empty ho)
  refine ⟨hnone, ?_⟩
  refine h.placeNode hfresh hnone ho (fun _ => rfl) (fun hne => absurd rfl hne)
    (fun j hj => by cases hj) rfl ?_ (Agree.refl _ _ _) ?_
  · refine hfresh.chain.onlyPage (onlyPage_fill km1.mem f 0) fun hf => ?_
    simpa using ((hfresh.free f).mp hf).2
  · intro r' n' f' hn' k hk
    refine (h.load_zeroed ho hmem hn' hk).trans (g.entry_addNode ?_).symm
    intro m' hc e
    exact Node.child_ne_root hc e.2

/-! ## A level -/

theorem Rep.small_of_node (h : Rep L hole km g) (hn : g.node r n = some f) : f < 2 ^ 44 :=
  (h.managed_of_node hn).small

theorem walkLevel_found (h : Rep L none km g) {alloc : Bool} (hn : g.node r n = some p)
    (hchild : n.child i = some m) (hi : i < 512) (hm : g.node r m = some f) :
    Total (walkLevel (p * pgsize) i alloc) km fun o km' => o = some (f * pgsize) ∧ km' = km := by
  have hload : load64 km.mem (p * pgsize + 8 * i) = link (some f) := by
    rw [h.load_entry hn hi, g.entry_child r hchild, hm]
  refine .bind (Wp.loadWord ?_)
  rw [hload, if_pos (hasFlag_link_v f)]
  exact .pure ⟨by rw [pte2pa_link (h.small_of_node hm)], rfl⟩

theorem walkLevel_missing (h : Rep L none km g) (hn : g.node r n = some p)
    (hchild : n.child i = some m) (hi : i < 512) (hm : g.node r m = none) :
    Total (walkLevel (p * pgsize) i false) km fun o km' => o = none ∧ km' = km := by
  have hload : load64 km.mem (p * pgsize + 8 * i) = 0 := by
    rw [h.load_entry hn hi, g.entry_child r hchild, hm, link_none]
  refine .bind (Wp.loadWord ?_)
  rw [hload, if_neg (by rw [hasFlag_zero]; exact Bool.false_ne_true)]
  exact .pure ⟨rfl, rfl⟩

theorem Grow.addNode (h : Rep L none km g) {m' : Mem} (hn : g.node r n = some p)
    (hnone : g.node r m = none) (ho : g.owners f = ∅) (hmem : OnlyPage f km.mem m') (hi : i < 512) (w : BitVec 64) :
    Grow r km g { km1 with mem := store64 m' (p * pgsize + 8 * i) w }
      (g.addNode r m f fs) where
  map := rfl
  data f' o hd := by
    by_cases hf : f' = f
    · subst hf
      have : o ≠ .table r m := by
        rintro rfl
        exact hd
      simp [ho, this]
    · simp [hf]
  other r' hr := by
    funext n'
    exact g.addNode_ne (by rintro ⟨he, -⟩; exact hr he)
  node n' f' hn' := by
    rw [g.addNode_ne]
    · exact hn'
    · rintro ⟨-, rfl⟩
      rw [hnone] at hn'
      cases hn'
  mem f' o hd ho' := by
    have hff : f' ≠ f := by
      rintro rfl
      rw [ho] at ho'
      exact absurd ho' (Finset.notMem_empty _)
    have hfp : f' ≠ p := by
      rintro rfl
      exact h.not_node ho' hd hn
    exact (hmem f' hff).trans (onlyPage_store64 m' p hi w f' hfp)

def Account.cost (g : Account) (r : Nat) (m : Node) : Nat := if g.node r m = none then 1 else 0

theorem walkLevel_alloc (h : Rep L none km g) (hn : g.node r n = some p)
    (hchild : n.child i = some m) (hi : i < 512) :
    Total (walkLevel (p * pgsize) i true) km fun o km' =>
      ∃ g', Rep L none km' g' ∧ Grow r km g km' g' ∧
        (o = none ∧ g'.free = [] ∧ g' = g ∧ g.cost r m = 1 ∨
          ∃ f, o = some (f * pgsize) ∧ g'.node r m = some f ∧
            g'.free.length + g.cost r m = g.free.length ∧
            ∀ n', n' ≠ m → g'.node r n' = g.node r n') := by
  cases hm : g.node r m with
  | some f =>
    refine (walkLevel_found h hn hchild hi hm).mono ?_
    rintro o km' ⟨rfl, rfl⟩
    exact ⟨g, h, Grow.refl _ _ _, .inr ⟨f, rfl, hm, by simp [Account.cost, hm], fun _ _ => rfl⟩⟩
  | none =>
    have hcost : g.cost r m = 1 := by simp [Account.cost, hm]
    have hload : load64 km.mem (p * pgsize + 8 * i) = 0 := by
      rw [h.load_entry hn hi, g.entry_child r hchild, hm, link_none]
    refine .bind (Wp.loadWord ?_)
    rw [hload, if_neg (by rw [hasFlag_zero]; exact Bool.false_ne_true)]
    refine (kalloc_spec h).seq ?_
    rintro pa km1 (⟨hempty, rfl, rfl⟩ | ⟨f, fs, hfree, rfl, hman, ho, hrep, hmem⟩)
    · exact .pure ⟨g, h, Grow.refl _ _ _, .inl ⟨rfl, hempty, rfl, hcost⟩⟩
    · rw [if_neg hman.ne_zero]
      refine .bind (Wp.memset (.bind (Wp.storeWord (.pure ?_))))
      refine ⟨g.addNode r m f fs, h.addNode hrep hn hchild hi hm ho hmem,
        Grow.addNode h hn hm ho (hmem.trans (onlyPage_fill km1.mem f 0)) hi _,
        .inr ⟨f, rfl, g.addNode_self m f fs, ?_, fun n' hne => g.addNode_ne fun e => hne e.2⟩⟩
      rw [hcost, hfree]
      rfl

/-! ## All levels -/

def Account.Live (g : Account) (r : Nat) : Prop := g.node r .root = some r

theorem px_two (hv : v < 2 ^ 26) : px 2 (v * pgsize) = v / 512 / 512 := by
  unfold px
  rw [pgsize_eq]
  omega

theorem px_one (v : Nat) : px 1 (v * pgsize) = v / 512 % 512 := by
  unfold px
  rw [pgsize_eq]
  omega

theorem px_zero (v : Nat) : px 0 (v * pgsize) = v % 512 := by
  unfold px
  rw [pgsize_eq]
  omega

theorem va_lt_maxva (hv : v < 2 ^ 26) : ¬ v * pgsize ≥ maxva := by
  unfold maxva
  rw [pgsize_eq]
  omega

/-- The address of the entry for page `v` in the third-level page `f`. -/
def pteAddr (f v : Nat) : Nat := f * pgsize + 8 * (v % 512)

theorem pteAddr_ne_zero (h : Rep L hole km g) (hn : g.node r n = some f) : pteAddr f v ≠ 0 := by
  have := (h.managed_of_node hn).ne_zero
  unfold pteAddr
  omega

theorem Node.child_root : Node.root.child (v / 512 / 512) = some (.mid (v / 512 / 512)) := rfl

theorem Node.child_mid :
    (Node.mid (v / 512 / 512)).child (v / 512 % 512) = some (.leaf (v / 512)) := by
  have : v / 512 / 512 * 512 + v / 512 % 512 = v / 512 := by omega
  simp only [Node.child, this]

theorem walk_find (h : Rep L none km g) (hr : g.Live r) (hv : v < 2 ^ 26) :
    Total (walk (r * pgsize) (v * pgsize) false) km fun a km' =>
      km' = km ∧ ((g.node r (.leaf (v / 512)) = none ∧ a = 0) ∨
        ∃ f, g.node r (.leaf (v / 512)) = some f ∧ a = pteAddr f v) := by
  unfold walk
  rw [if_neg (va_lt_maxva hv), px_two hv, px_one, px_zero]
  cases hmid : g.node r (.mid (v / 512 / 512)) with
  | none =>
    refine (walkLevel_missing h hr Node.child_root (by omega) hmid).seq ?_
    rintro o km' ⟨rfl, rfl⟩
    refine .pure ⟨rfl, .inl ⟨?_, rfl⟩⟩
    by_contra hne
    exact h.parent r _ hne hmid
  | some =>
    refine (walkLevel_found h hr Node.child_root (by omega) hmid).seq ?_
    rintro o km' ⟨rfl, rfl⟩
    cases hleaf : g.node r (.leaf (v / 512)) with
    | none =>
      refine (walkLevel_missing h hmid Node.child_mid (by omega) hleaf).seq ?_
      rintro o km' ⟨rfl, rfl⟩
      exact .pure ⟨rfl, .inl ⟨rfl, rfl⟩⟩
    | some f2 =>
      refine (walkLevel_found h hmid Node.child_mid (by omega) hleaf).seq ?_
      rintro o km' ⟨rfl, rfl⟩
      exact .pure ⟨rfl, .inr ⟨f2, rfl, rfl⟩⟩

/-- The page-table pages that are missing for page `v` of table `r`. -/
def Account.missing (g : Account) (r v : Nat) : Nat :=
  g.cost r (.mid (v / 512 / 512)) + g.cost r (.leaf (v / 512))

/-- The page-table pages that are missing for an address, read from the tables. -/
def missingTables (m : Mem) (pagetable va : Nat) : Nat :=
  let pte := load64 m (pagetable + 8 * px 2 va)
  if hasFlag pte pteV = false then 2
  else if hasFlag (load64 m (pte2pa pte + 8 * px 1 va)) pteV = false then 1
  else 0

theorem Rep.missingTables (h : Rep L none km g) (hr : g.Live r) (hv : v < 2 ^ 26) :
    missingTables km.mem (r * pgsize) (v * pgsize) = g.missing r v := by
  unfold Xv6.missingTables
  rw [px_two hv, px_one, h.load_entry hr (by omega), g.entry_child r Node.child_root,
    Account.missing, Account.cost, Account.cost]
  cases hmid : g.node r (.mid (v / 512 / 512)) with
  | none =>
    have hleaf : g.node r (.leaf (v / 512)) = none := by
      by_contra hne
      exact h.parent r _ hne hmid
    rw [link_none, if_pos (hasFlag_zero _), hleaf]
    rfl
  | some f =>
    dsimp only
    rw [pte2pa_link (h.small_of_node hmid), h.load_entry hmid (by omega),
      g.entry_child r Node.child_mid, hasFlag_link_v]
    cases hleaf : g.node r (.leaf (v / 512)) with
    | none =>
      rw [link_none, if_neg (by simp), if_pos (hasFlag_zero _)]
      rfl
    | some => simp [hasFlag_link_v]

/-- Table `r` has got the page-table pages for page `v`, from the free list. -/
structure Adds (r v : Nat) (g g' : Account) : Prop where
  free : g'.free.length + g.missing r v = g.free.length
  node : ∀ n, g'.node r n = none ↔
    g.node r n = none ∧ n ≠ .mid (v / 512 / 512) ∧ n ≠ .leaf (v / 512)

theorem walk_alloc (h : Rep L none km g) (hr : g.Live r) (hv : v < 2 ^ 26) :
    Total (walk (r * pgsize) (v * pgsize) true) km fun a km' =>
      ∃ g', Rep L none km' g' ∧ Grow r km g km' g' ∧
        (a = 0 ∧ g'.free = [] ∧ g.free.length < g.missing r v ∨
          ∃ f, g'.node r (.leaf (v / 512)) = some f ∧ a = pteAddr f v ∧ Adds r v g g') := by
  unfold walk
  rw [if_neg (va_lt_maxva hv), px_two hv, px_one, px_zero]
  refine (walkLevel_alloc h hr Node.child_root (by omega)).seq ?_
  rintro o1 km1 ⟨g1, h1, hgrow1, ⟨rfl, hempty, rfl, hcost⟩ | ⟨f1, rfl, hmid, hfree1, hnode1⟩⟩
  · refine .pure ⟨g1, h1, hgrow1, .inl ⟨rfl, hempty, ?_⟩⟩
    rw [hempty, Account.missing, hcost]
    exact Nat.lt_of_lt_of_le Nat.one_pos (Nat.le_add_right _ _)
  have hcost : g1.cost r (.leaf (v / 512)) = g.cost r (.leaf (v / 512)) := by
    rw [Account.cost, hnode1 (.leaf (v / 512)) nofun]
    rfl
  refine (walkLevel_alloc h1 hmid Node.child_mid (by omega)).seq ?_
  rintro o2 km2 ⟨g2, h2, hgrow2, ⟨rfl, hempty, rfl, hone⟩ | ⟨f2, rfl, hleaf, hfree2, hnode2⟩⟩
  · refine .pure ⟨g2, h2, hgrow1.trans hgrow2, .inl ⟨rfl, hempty, ?_⟩⟩
    rw [hempty] at hfree1
    rw [← hfree1, Account.missing, ← hcost, hone]
    simp
  · refine .pure ⟨g2, h2, hgrow1.trans hgrow2, .inr ⟨f2, hleaf, rfl, ?_, ?_⟩⟩
    · rw [Account.missing]
      omega
    · intro n
      by_cases hl : n = .leaf (v / 512)
      · simp [hl, hleaf]
      rw [hnode2 n hl]
      by_cases hm : n = .mid (v / 512 / 512)
      · simp [hm, hmid]
      · simp [hnode1 n hm, hl, hm]

theorem px_page (level va : Nat) : px level (va / pgsize * pgsize) = px level va := by
  unfold px
  have e : 2 ^ (12 + 9 * level) = pgsize * 2 ^ (9 * level) := by rw [Nat.pow_add, pgsize_eq]
  rw [e, ← Nat.div_div_eq_div_mul, ← Nat.div_div_eq_div_mul, mul_pgsize_div]

theorem maxva_page (va : Nat) : va / pgsize * pgsize ≥ maxva ↔ va ≥ maxva := by
  unfold maxva
  rw [pgsize_eq]
  omega

theorem walk_page (pagetable va : Nat) (alloc : Bool) :
    walk pagetable (va / pgsize * pgsize) alloc = walk pagetable va alloc := by
  unfold walk
  simp only [px_page, maxva_page]

theorem walk_any {E : Panic → Prop} (hE : E .walk) (h : Rep L none km g) (hr : g.Live r)
    (va : Nat) :
    Wp E (walk (r * pgsize) va false) km fun a km' => km' = km ∧ (a = 0 ∨
      ∃ f, g.node r (.leaf (va / pgsize / 512)) = some f ∧ a = pteAddr f (va / pgsize)) := by
  by_cases hva : va ≥ maxva
  · unfold walk
    rw [if_pos hva]
    exact .of_error rfl hE
  · have hv : va / pgsize < 2 ^ 26 := by
      unfold maxva at hva
      rw [pgsize_eq]
      omega
    rw [← walk_page]
    refine (walk_find h hr hv).weaken.mono ?_
    rintro a km' ⟨rfl, ⟨-, rfl⟩ | hf⟩
    · exact ⟨rfl, .inl rfl⟩
    · exact ⟨rfl, .inr hf⟩

end Xv6
