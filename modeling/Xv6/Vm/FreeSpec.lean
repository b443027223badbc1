import Xv6.Vm.AllocSpec

/-!
# Taking a table down: `freewalk`

`freewalk` frees the page-table pages of a table without leaves, each one before the entry
that points to it is cleared. In between one entry points to a free page: the hole of `Rep`.
-/

namespace Xv6

open ByteMem

variable {L : Layout} {km km' km'' : Kmem} {g g' g'' : Account} {r f : Nat}
variable {n : Node}
variable {P Q : Node → Prop} {i : Nat} {m : Node}

/-! ## Entries of inner pages -/

theorem hasFlag_or (w a b : BitVec 64) : hasFlag w (a ||| b) = (hasFlag w a || hasFlag w b) := by
  unfold hasFlag
  rw [BitVec.and_or_distrib_left]
  by_cases ha : w &&& a = 0
  · simp [ha]
  · grind

theorem getLsbD_link (f : Nat) (h1 : 0 < i) (h2 : i < 10) : (link (some f)).getLsbD i = false := by
  rw [link, BitVec.getLsbD_or, pa2pte_low _ h2, getLsbD_pteV]
  simp [show i ≠ 0 by omega]

theorem hasFlag_link_rwx (f : Nat) : hasFlag (link (some f)) (pteR ||| pteW ||| pteX) = false := by
  rw [hasFlag_or, hasFlag_or, hasFlag_r, hasFlag_w, hasFlag_x, getLsbD_link f (by decide) (by decide),
    getLsbD_link f (by decide) (by decide), getLsbD_link f (by decide) (by decide)]
  rfl

/-! ## One page goes -/

def Account.dropNode (g : Account) (r : Nat) (n : Node) (f : Nat) : Account :=
  { owners := Function.update g.owners f ∅
    free := f :: g.free
    node := fun r' n' => if r' = r ∧ n' = n then none else g.node r' n'
    map := g.map }

attribute [local simp] Account.dropNode

theorem Account.dropNode_self (g : Account) (n : Node) : (g.dropNode r n f).node r n = none := by
  simp

theorem Account.dropNode_ne (g : Account) {n' : Node} {r' : Nat} (h : ¬ (r' = r ∧ n' = n)) :
    (g.dropNode r n f).node r' n' = g.node r' n' := by
  simp [h]

/-- The place of the entry that points to page `n`: none for the root. -/
def Account.holeOf (g : Account) (r : Nat) : Node → Option (Nat × Nat)
  | .root => none
  | .mid i => (g.node r .root).map fun p => (p, i)
  | .leaf t => (g.node r (.mid (t / 512))).map fun p => (p, t % 512)

theorem Account.holeOf_child (g : Account) (hc : n.child i = some m) (hi : i < 512) :
    g.holeOf r m = (g.node r n).map fun p => (p, i) := by
  cases n with
  | root =>
    simp only [Node.child, Option.some.injEq] at hc
    subst hc
    rfl
  | mid j => grind [Node.child, Option.some.injEq, Account.holeOf]
  | leaf => cases hc

theorem kfreeNode_spec (h : Rep L none km g) (hn : g.node r n = some f)
    (hchild : ∀ m, m ≠ .root → m.parent = n → g.node r m = none)
    (hleaf : ∀ v, n = .leaf (v / 512) → g.map r v = 0) :
    Total (kfree L (f * pgsize)) km fun _ km' =>
      Rep L (g.holeOf r n) km' (g.dropNode r n f) ∧ OnlyPage f km.mem km'.mem := by
  have hown := h.sole r n f ((h.node r n f).mp hn)
  have hm := h.managed_of_node hn
  have hrefs : km.refs f = 1 := by rw [h.refs f, hown]; rfl
  have hnotfree : f ∉ g.free := by grind [h.free, Finset.singleton_ne_empty]
  refine (kfree_last hm hrefs h.chain h.freelist_lt hnotfree).mono ?_
  rintro _ km' ⟨hrefs', hchain, hmem⟩
  refine ⟨⟨?_, hchain, ?_, ?_, ?_, ?_, ?_, ?_, ?_, ?_, ?_, ?_⟩, hmem⟩
  · intro f'
    rw [hrefs']
    by_cases hf : f' = f
    · simp [hf]
    · simp [hf, h.refs f']
  · exact List.nodup_cons.mpr ⟨hnotfree, h.nodup⟩
  · intro f'
    by_cases hf : f' = f
    · simp [hf, hm]
    · simpa [hf] using h.free f'
  · intro f' hne
    by_cases hf : f' = f
    · simp [hf] at hne
    · exact h.managed f' (by simpa [hf] using hne)
  · intro r' n' f'
    by_cases hold : r' = r ∧ n' = n
    · obtain ⟨rfl, rfl⟩ := hold
      by_cases hf : f' = f
      · simp [hf]
      · have hno : Owner.table r' n' ∉ g.owners f' := by
          rw [← h.node r' n' f', hn]
          simpa [eq_comm] using hf
        simp [hf, hno]
    · rw [g.dropNode_ne hold]
      by_cases hf : f' = f
      · have hno : g.node r' n' ≠ some f := by
          intro hn'
          obtain ⟨h1, h2⟩ := h.node_inj hn' hn
          exact hold ⟨h1, h2⟩
        subst hf
        simp [hno]
      · simpa [hf] using h.node r' n' f'
  · intro r' n' f' ho
    by_cases hf : f' = f
    · simp [hf] at ho
    · simpa [hf] using h.sole r' n' f' (by simpa [hf] using ho)
  · intro r' f' hr'
    by_cases hold : r' = r ∧ Node.root = n
    · grind [Account.dropNode_self]
    · rw [g.dropNode_ne hold] at hr'
      exact h.root r' f' hr'
  · intro r' n' hne
    by_cases hold : r' = r ∧ n' = n
    · obtain ⟨rfl, rfl⟩ := hold
      exact absurd (g.dropNode_self n') hne
    · rw [g.dropNode_ne hold] at hne
      by_cases hpar : r' = r ∧ n'.parent = n
      · obtain ⟨rfl, hp⟩ := hpar
        by_cases hroot : n' = .root
        · subst hroot
          exact absurd ⟨rfl, hp⟩ hold
        · exact absurd (hchild n' hroot hp) hne
      · rw [g.dropNode_ne hpar]
        exact h.parent r' n' hne
  · intro r' i hne
    by_cases hold : r' = r ∧ Node.mid i = n
    · obtain ⟨rfl, rfl⟩ := hold
      exact absurd (g.dropNode_self (.mid i)) hne
    · rw [g.dropNode_ne hold] at hne
      exact h.midLt r' i hne
  · intro r' n' f' hn' i hi hhole
    have hold : ¬ (r' = r ∧ n' = n) := by grind [Account.dropNode_self]
    rw [g.dropNode_ne hold] at hn'
    have hf : f' ≠ f := by
      rintro rfl
      obtain ⟨h1, h2⟩ := h.node_inj hn' hn
      exact hold ⟨h1, h2⟩
    have he := entry_in_page hi
    refine (load64_congr ((hmem f' hf).sub (by omega) (by omega))).trans ?_
    rw [h.load_entry hn' hi]
    cases hc : n'.child i with
    | none =>
      cases n' with
      | leaf => rfl
      | root | mid => cases hc
    | some m =>
      rw [g.entry_child r' hc, Account.entry_child _ _ hc]
      by_cases hm' : r' = r ∧ m = n
      · -- the entry that still points to the page is the hole
        obtain ⟨rfl, rfl⟩ := hm'
        rw [g.holeOf_child hc hi, hn'] at hhole
        exact absurd rfl hhole
      · rw [g.dropNode_ne hm']
  · intro r' v hv
    by_cases hold : r' = r ∧ Node.leaf (v / 512) = n
    · obtain ⟨rfl, rfl⟩ := hold
      exact hleaf v rfl
    · rw [g.dropNode_ne hold] at hv
      exact h.absent r' v hv

theorem Rep.fillHole {p : Nat} (h : Rep L (some (p, i)) km g) (hn : g.node r n = some p)
    (hc : n.child i = some m) (hi : i < 512) (hnone : g.node r m = none) :
    Rep L none { km with mem := store64 km.mem (p * pgsize + 8 * i) 0 } g := by
  have hmem := onlyPage_store64 km.mem p hi 0
  refine { h with chain := ?_, entry := ?_ }
  · exact h.chain.onlyPage hmem fun hp => h.not_node_of_empty ((h.free p).mp hp).2 hn
  · intro r' n' f' hn' j hj _
    have he := entry_in_page hj
    by_cases hpos : f' = p ∧ j = i
    · obtain ⟨rfl, rfl⟩ := hpos
      obtain ⟨rfl, rfl⟩ := h.node_inj hn hn'
      rw [load64_store64, g.entry_child r hc, hnone, link_none]
    · have hhole : some (p, i) ≠ some (f', j) := by
        intro heq
        simp only [Option.some.injEq, Prod.mk.injEq] at heq
        exact hpos ⟨heq.1.symm, heq.2.symm⟩
      rw [← h.entry r' n' f' hn' j hj hhole]
      by_cases hf : f' = p
      · subst hf
        exact load64_congr (store64_agree _ _ (by omega))
      · exact load64_congr ((hmem f' hf).sub (by omega) (by omega))

/-! ## All pages of a table -/

/-- The page-table pages `P` of table `r` are gone. -/
structure Prune (r : Nat) (P : Node → Prop) (km : Kmem) (g : Account) (km' : Kmem)
    (g' : Account) : Prop where
  map : g'.map = g.map
  data : ∀ f o, o.Data → (o ∈ g'.owners f ↔ o ∈ g.owners f)
  gone : ∀ m, P m → g'.node r m = none
  keep : ∀ r' m, ¬ (r' = r ∧ P m) → g'.node r' m = g.node r' m
  mem : ∀ f o, o.Data → o ∈ g.owners f → Agree km.mem km'.mem (f * pgsize) pgsize

theorem Prune.refl (hP : ∀ m, ¬ P m) (km : Kmem) (g : Account) : Prune r P km g km g :=
  ⟨rfl, fun _ _ _ => Iff.rfl, fun m hm => absurd hm (hP m), fun _ _ _ => rfl,
    fun _ _ _ _ => Agree.refl _ _ _⟩

theorem Prune.trans {R : Node → Prop} (h : Prune r P km g km' g')
    (h' : Prune r Q km' g' km'' g'') (hR : ∀ m, R m ↔ P m ∨ Q m) :
    Prune r R km g km'' g'' where
  map := h'.map.trans h.map
  data f o hd := (h'.data f o hd).trans (h.data f o hd)
  gone m hm := by
    rcases (hR m).mp hm with hP | hQ
    · by_cases hQ : Q m
      · exact h'.gone m hQ
      · rw [h'.keep r m (by rintro ⟨-, hq⟩; exact hQ hq)]
        exact h.gone m hP
    · exact h'.gone m hQ
  keep r' m hn := by
    rw [h'.keep r' m (by rintro ⟨h1, h2⟩; exact hn ⟨h1, (hR m).mpr (.inr h2)⟩),
      h.keep r' m (by rintro ⟨h1, h2⟩; exact hn ⟨h1, (hR m).mpr (.inl h2)⟩)]
  mem f o hd ho := (h.mem f o hd ho).trans (h'.mem f o hd ((h.data f o hd).mpr ho))

theorem Prune.widen (h : Prune r P km g km' g') (hPQ : ∀ m, P m → Q m)
    (hQ : ∀ m, Q m → g'.node r m = none) : Prune r Q km g km' g' :=
  { h with gone := hQ, keep := fun r' m hm => h.keep r' m fun hP => hm ⟨hP.1, hPQ m hP.2⟩ }

theorem Prune.dropNode (h : Rep L none km g) (hn : g.node r n = some f)
    (hmem : OnlyPage f km.mem km'.mem) :
    Prune r (· = n) km g km' (g.dropNode r n f) where
  map := rfl
  data f' o hd := by
    by_cases hf : f' = f
    · subst hf
      have hno : o ∉ g.owners f' := fun ho => h.not_node ho hd hn
      simp [hno]
    · simp [hf]
  gone m hm := by
    subst hm
    exact g.dropNode_self m
  keep r' m hm := g.dropNode_ne hm
  mem f' o hd ho := by
    refine hmem f' ?_
    rintro rfl
    exact h.not_node ho hd hn

/-- What `freewalk` does to page `n` of table `r` and the pages `P` below it. -/
def Walked (L : Layout) (r : Nat) (n : Node) (P : Node → Prop) (depth : Nat) : Prop :=
  ∀ (km : Kmem) (g : Account) (f : Nat), Rep L none km g → g.node r n = some f →
    (∀ v, g.map r v = 0) →
    Total (freewalk L depth (f * pgsize)) km fun _ km' => ∃ g', Rep L (g.holeOf r n) km' g' ∧
      Prune r (fun m => m = n ∨ P m) km g km' g'

theorem Node.not_below (hc : n.child i = some m) : ¬ (n = m ∨ n.parent = m) := by
  cases n with
  | root | mid => grind [Node.child, Node.parent]
  | leaf => cases hc

theorem Rep.child_parent (h : Rep L none km g) (hm : g.node r m ≠ none) (hroot : m ≠ .root) :
    ∃ i < 512, m.parent.child i = some m := by
  cases m with
  | root => exact absurd rfl hroot
  | mid i => exact ⟨i, h.midLt r i hm, rfl⟩
  | leaf t =>
    exact ⟨t % 512, Nat.mod_lt _ (by decide), by rw [Node.parent, Node.child, Nat.div_add_mod']⟩

theorem freewalk_round {depth : Nat}
    (h : Rep L none km g) (hn : g.node r n = some f) (hi : i < 512) (hc : n.child i = some m)
    (hmap : ∀ v, g.map r v = 0) (hrec : Walked L r m (·.parent = m) depth) :
    Total (do
      let pte ← loadWord (f * pgsize + 8 * i)
      if hasFlag pte pteV && !hasFlag pte (pteR ||| pteW ||| pteX) then do
        freewalk L depth (pte2pa pte)
        storeWord (f * pgsize + 8 * i) 0
      else if hasFlag pte pteV then
        throw .freewalkLeaf
      else
        pure ()) km fun _ km' => ∃ g', Rep L none km' g' ∧
          Prune r (fun m' => m' = m ∨ m'.parent = m) km g km' g' := by
  refine .bind (Wp.loadWord ?_)
  rw [h.load_entry hn hi, g.entry_child r hc]
  cases hm : g.node r m with
  | none =>
    refine .pure ⟨g, h, rfl, fun _ _ _ => Iff.rfl, ?_, fun _ _ _ => rfl,
      fun _ _ _ _ => Agree.refl _ _ _⟩
    rintro m' (rfl | rfl)
    · exact hm
    · by_contra hne
      exact h.parent r m' hne hm
  | some c =>
    rw [hasFlag_link_v, hasFlag_link_rwx, pte2pa_link (h.small_of_node hm)]
    refine (hrec km g c h hm hmap).seq ?_
    rintro _ km1 ⟨g1, h1, hp⟩
    refine Wp.storeWord ?_
    have hn1 : g1.node r n = some f := by
      rw [hp.keep r n (by rintro ⟨-, hb⟩; exact Node.not_below hc hb), hn]
    rw [g.holeOf_child hc hi, hn] at h1
    refine ⟨g1, h1.fillHole hn1 hc hi (hp.gone m (.inl rfl)), hp.map, hp.data, hp.gone, hp.keep, ?_⟩
    intro f' o hd ho
    refine (hp.mem f' o hd ho).trans (onlyPage_store64 km1.mem f hi 0 f' ?_)
    rintro rfl
    exact h.not_node ho hd hn

theorem walked_leaf (t depth : Nat) : Walked L r (.leaf t) (·.parent = .leaf t) (depth + 1) := by
  intro km g f h hn hmap
  refine .seq (Q := fun _ km' => km' = km) ?_ ?_
  · refine .forRange _ (fun _ km' => km' = km) _ _ _ ?_ rfl
    rintro i _ - hi rfl
    refine .bind (Wp.loadWord ?_)
    rw [h.load_entry hn (by omega), Account.entry, hmap, hasFlag_zero]
    exact .pure rfl
  · have hnone : ∀ m : Node, m.parent ≠ .leaf t := by
      intro m
      cases m <;> simp [Node.parent]
    rintro _ _ rfl
    refine (kfreeNode_spec h hn (fun m _ hm => absurd hm (hnone m)) fun v _ => hmap v).mono ?_
    rintro _ km1 ⟨h1, hmem⟩
    exact ⟨_, h1, (Prune.dropNode h hn hmem).trans (Prune.refl hnone _ _) fun m => Iff.rfl⟩

/-- Page `n` goes after its children, and the pages below a child with it. -/
theorem walked_node {c : Nat → Node} {depth : Nat} (hc : ∀ i < 512, n.child i = some (c i))
    (hP : ∀ m, P m ↔ ∃ i < 512, m = c i ∨ m.parent = c i)
    (hrec : ∀ i, Walked L r (c i) (·.parent = c i) depth) : Walked L r n P (depth + 1) := by
  intro km g f h hn hmap
  refine .seq (.forRange _ (fun i km' => ∃ g', Rep L none km' g' ∧
    Prune r (fun m => ∃ j < i, m = c j ∨ m.parent = c j) km g km' g') 512 0 _ ?_
    ⟨g, h, .refl (by simp) _ _⟩) ?_
  · rintro i km1 - hi ⟨g1, h1, hp⟩
    have hn1 : g1.node r n = some f := by
      rw [hp.keep r n (by rintro ⟨-, j, hj, hb⟩; exact Node.not_below (hc j (by omega)) hb), hn]
    refine (freewalk_round h1 hn1 (by omega) (hc i (by omega)) (hp.map ▸ hmap) (hrec i)).mono ?_
    rintro _ km2 ⟨g2, h2, hp2⟩
    refine ⟨g2, h2, hp.trans hp2 ?_⟩
    grind
  · rintro _ km1 ⟨g1, h1, hp⟩
    have hn1 : g1.node r n = some f := by
      rw [hp.keep r n (by rintro ⟨-, j, hj, hb⟩; exact Node.not_below (hc j (by omega)) hb), hn]
    refine (kfreeNode_spec h1 hn1 ?_ ?_).mono ?_
    · intro m hroot hm
      by_contra hne
      obtain ⟨i, hi, hci⟩ := h1.child_parent hne hroot
      rw [hm, hc i hi] at hci
      cases hci
      exact hne (hp.gone _ ⟨i, by omega, .inl rfl⟩)
    · rintro v rfl
      cases hc 0 (by decide)
    · rintro _ km2 ⟨h2, hmem⟩
      refine ⟨_, ?_, hp.trans (Prune.dropNode h1 hn1 hmem) fun m => by rw [hP, or_comm]⟩
      cases n with
      | root => exact h2
      | mid j =>
        rwa [Account.holeOf, hp.keep r .root ?_] at h2
        rintro ⟨-, i, hi, he⟩
        have := hc i (by omega)
        grind [Node.child, Node.parent]
      | leaf => cases hc 0 (by decide)

theorem walked_mid (j depth : Nat) : Walked L r (.mid j) (·.parent = .mid j) (depth + 2) := by
  refine walked_node (c := fun i => .leaf (j * 512 + i)) (fun _ _ => rfl) ?_
    fun i => walked_leaf _ depth
  intro m
  cases m with
  | root | mid => simp [Node.parent]
  | leaf t =>
    simp only [Node.parent, Node.mid.injEq, Node.leaf.injEq, reduceCtorEq, or_false]
    exact ⟨fun h => ⟨t % 512, by omega, by omega⟩, by omega⟩

theorem freewalk_spec (h : Rep L none km g) (hr : g.Live r) (hmap : ∀ v, g.map r v = 0) :
    Total (freewalk L stackDepth (r * pgsize)) km fun _ km' =>
      ∃ g', Rep L none km' g' ∧ Prune r (fun _ => True) km g km' g' := by
  refine (walked_node (c := .mid) (fun _ _ => rfl) (fun _ => Iff.rfl)
    (fun i => walked_mid i 61) km g r h hr hmap).mono ?_
  rintro _ km1 ⟨g1, h1, hp⟩
  refine ⟨g1, h1, hp.widen (fun _ _ => trivial) ?_⟩
  intro m _
  by_contra hne
  have hroot := h1.parent r _ (h1.parent r m hne)
  cases m <;> exact hroot (hp.gone .root (.inl rfl))

end Xv6
