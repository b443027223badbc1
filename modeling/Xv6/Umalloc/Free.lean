import Mathlib.Algebra.Order.BigOperators.Group.List
import Mathlib.Algebra.Order.Group.Nat
import Xv6.Umalloc.Blocks

/-!
# Releasing a block

`free` finds the place of the block between the free blocks and joins it with the neighbours that it
touches. The block may be new memory, as in `morecore`, or one that was allocated.
-/

namespace Xv6.Umalloc

open List (mem_cons mem_cons_self mem_map nodup_cons pairwise_append pairwise_cons)

variable {L : Layout} {h : Heap} {F F₁ F₂ V : List Block} {A : List Nat} {b c : Block} {p : Nat}
variable {bp : Nat} {l : List Block} {mem : Mem}

theorem Divides.uint_units {rs : List Region} (hd : Divides rs l) (hb : b ∈ l)
    (hlt : (rs.map Region.bytes).sum < 2 ^ 36) : uint b.units = b.units := by
  have hle : b.units ≤ totalUnits l := List.le_sum_of_mem (List.mem_map_of_mem hb)
  have ht := hd.total
  exact Nat.mod_eq_of_lt (by omega)

/-! ## The upper neighbour -/

theorem joinUpper_merge (he : bp + 16 * (mem bp).size = (mem p).ptr) : joinUpper mem bp p bp =
      ⟨(mem (mem p).ptr).ptr, uint ((mem bp).size + (mem (mem p).ptr).size)⟩ := by
  simp [joinUpper, he, setPtr, setSize_ptr, setSize_size]

theorem joinUpper_link (he : bp + 16 * (mem bp).size ≠ (mem p).ptr) :
    joinUpper mem bp p bp = ⟨(mem p).ptr, (mem bp).size⟩ := by
  simp [joinUpper, he, setPtr]

/-- After `joinUpper`, the block `b` is to be linked behind `p` and before `F₂`. -/
structure Ready (L : Layout) (h : Heap) (mem : Mem) (F₁ F₂ V : List Block) (A : List Nat) (p : Nat)
    (b : Block) : Prop where
  other : ∀ x, x ≠ b.addr → mem x = h.mem x
  size : (mem b.addr).size = b.units
  sizes : ∀ d ∈ F₁ ++ F₂ ++ V, (h.mem d.addr).size = d.units
  circle : Circular (fun x => (setPtr mem p b.addr x).ptr) (A ++ p :: b.addr :: F₂.map Block.addr)
  gap : ∀ c ∈ F₂, b.stop < c.addr
  sorted : (F₁ ++ F₂).Pairwise fun b c => b.stop < c.addr
  divides : Divides h.regions (b :: (F₁ ++ F₂ ++ V))

theorem Place.nodes_eq (hpl : Place L h F b F₁ F₂ A p) :
    L.base :: F.map Block.addr = A ++ p :: F₂.map Block.addr := by
  rw [hpl.split, List.map_append, ← List.cons_append, hpl.nodes, List.append_assoc]
  rfl

theorem Divides.addr_ne (hd : Divides h.regions (b :: l)) (hg : Granted L h) (hc : c ∈ l) :
    c.addr ≠ b.addr := by
  have hnd := hd.nodup hg
  rw [List.map_cons, nodup_cons] at hnd
  intro he
  exact hnd.1 (he ▸ List.mem_map_of_mem hc)

theorem Ok.addr_ne (hok : Ok L h F (b :: V)) (hc : c ∈ F ++ V) : c.addr ≠ b.addr := by
  have hp : (F ++ b :: V).Perm (b :: (F ++ V)) := List.perm_middle
  exact (hok.divides.perm hp).addr_ne hok.granted hc

theorem Place.fresh (hpl : Place L h F b F₁ F₂ A p) (hok : Ok L h F (b :: V)) :
    ∀ x ∈ A ++ p :: F₂.map Block.addr, x ≠ b.addr := by
  intro x hx
  rw [← hpl.nodes_eq] at hx
  rcases mem_cons.mp hx with rfl | hx
  · have := hok.above (b := b) (by simp)
    omega
  · obtain ⟨c, hc, rfl⟩ := mem_map.mp hx
    exact hok.addr_ne (List.mem_append_left V hc)

theorem next_top {next : Nat → Nat} (hc : Circular next (A ++ [p]))
    (hn : L.base :: F₁.map Block.addr = A ++ [p]) : next p = L.base := by
  cases A with
  | nil =>
    have hp : L.base = p := (List.cons.inj hn).1
    rw [hp]
    exact Circular.single.mp hc
  | cons =>
    rw [(List.cons.inj hn).1]
    exact hc.next_last

theorem joinUpper_ready (hok : Ok L h F (b :: V)) (hpl : Place L h F b F₁ F₂ A p)
    (hlt : h.obtained < 2 ^ 36) :
    ∃ c F2', c.addr = b.addr ∧ b.units ≤ c.units ∧ F2'.length ≤ F₂.length ∧
      Ready L h (joinUpper h.mem b.addr p) F₁ F2' V A p c := by
  have hfresh := hpl.fresh hok
  have hinc := hok.increasing
  have hcirc := hok.circle
  rw [hpl.nodes_eq] at hinc hcirc
  have hpb : p ≠ b.addr := hfresh p (by simp)
  have hbsize : (h.mem b.addr).size = b.units := hok.size b (by simp)
  have hsorted := hok.sorted
  rw [hpl.split] at hsorted
  have hdiv : Divides h.regions (b :: (F₁ ++ F₂ ++ V)) := by
    apply hok.divides.perm
    rw [hpl.split]
    exact List.perm_middle
  have hsizes : ∀ d ∈ F₁ ++ F₂ ++ V, (h.mem d.addr).size = d.units := by
    grind [hok.size, hpl.split, List.mem_append_left]
  -- the links of the other blocks stay
  have hkeep : ∀ x ∈ A ++ F₂.map Block.addr,
      (setPtr (joinUpper h.mem b.addr p) p b.addr x).ptr = (h.mem x).ptr := by
    intro x hx
    have hxp : x ≠ p := by
      rintro rfl
      have hnd : (A ++ x :: F₂.map Block.addr).Nodup := hinc.imp Nat.ne_of_lt
      exact (nodup_cons.mp (List.nodup_middle.mp hnd)).1 hx
    have hxb : x ≠ b.addr := hfresh x (by simp at hx ⊢; tauto)
    rw [setPtr_of_ne hxp, joinUpper_of_ne hxb]
  by_cases hq : b.addr + 16 * (h.mem b.addr).size = (h.mem p).ptr
  · -- the block touches the first of `F₂`; `base` is below it
    cases F₂ with
    | nil =>
      have hbase : (h.mem p).ptr = L.base := next_top hcirc hpl.nodes
      have := hok.above (b := b) (by simp)
      omega
    | cons c F₂ =>
      have hc : (h.mem p).ptr = c.addr := hcirc.next_eq
      have hbc : b.stop = c.addr := by rw [Block.stop, ← hbsize, hq, hc]
      have hcsize : (h.mem c.addr).size = c.units := hsizes c (by simp)
      have hjoin := (hdiv.perm (perm_out.cons b)).join hbc
      have hmerge := joinUpper_merge hq
      rw [hc, hbsize, hcsize, hjoin.uint_units mem_cons_self hlt] at hmerge
      obtain ⟨hsorted1, hsorted2, hbetween⟩ := pairwise_append.mp hsorted
      obtain ⟨hc2, hsorted2⟩ := pairwise_cons.mp hsorted2
      refine ⟨⟨b.addr, b.units + c.units⟩, F₂, rfl, Nat.le_add_right _ _, Nat.le_succ _, ?_⟩
      refine
        { other := fun x hx => joinUpper_of_ne hx
          size := by rw [hmerge]
          sizes := fun d hd => hsizes d (by simp at hd ⊢; tauto)
          circle := ?_
          gap := ?_
          sorted := ?_
          divides := hjoin }
      · apply hcirc.replace (setPtr_ptr _ _ _)
        · rw [setPtr_of_ne hpb.symm, hmerge]
        · grind
      · grind [Block.stop]
      · grind
  · refine ⟨b, F₂, rfl, Nat.le_refl _, Nat.le_refl _, ?_⟩
    have hlink := joinUpper_link hq
    refine
      { other := fun x hx => joinUpper_of_ne hx
        size := by rw [hlink, hbsize]
        sizes := hsizes
        circle := ?_
        gap := ?_
        sorted := hsorted
        divides := hdiv }
    · apply hcirc.insert (setPtr_ptr _ _ _) _ hkeep
      rw [setPtr_of_ne hpb.symm, hlink]
    · intro d hd
      have hle := hpl.upper d hd
      cases F₂ with
      | nil => exact absurd hd (by simp)
      | cons c =>
        have hc : (h.mem p).ptr = c.addr := hcirc.next_eq
        rw [hc, hbsize] at hq
        rcases mem_cons.mp hd with rfl | hd'
        · exact Nat.lt_of_le_of_ne hle hq
        · have hcd := (pairwise_cons.mp (pairwise_append.mp hsorted).2.1).1 d hd'
          have hbc := hpl.upper c mem_cons_self
          unfold Block.stop at hcd hbc ⊢
          omega

/-! ## The lower neighbour -/

theorem joinLower_merge (he : p + 16 * (mem p).size = bp) :
    joinLower mem bp p p = ⟨(mem bp).ptr, uint ((mem p).size + (mem bp).size)⟩ := by
  simp [joinLower, he, setPtr]

theorem joinLower_link (he : p + 16 * (mem p).size ≠ bp) :
    joinLower mem bp p = setPtr mem p bp := by
  simp [joinLower, he]

theorem Granted.write (hg : Granted L h) (mem : Mem) (freep : Nat) :
    Granted L { h with mem := mem, freep := freep } :=
  { hg with }

theorem Divides.nodes_nodup (hd : Divides h.regions l) (hg : Granted L h) (hF : F.Sublist l) :
    (L.base :: F.map Block.addr).Nodup := by
  refine nodup_cons.mpr ⟨?_, (hd.nodup hg).sublist (hF.map _)⟩
  intro hm
  obtain ⟨c, hc, he⟩ := mem_map.mp hm
  have := hd.above hg (hF.subset hc)
  omega

theorem Ready.link (hr : Ready L h mem F₁ F₂ V A p b) (hn : L.base :: F₁.map Block.addr = A ++ [p])
    (hg : Granted L h) (hbase : (h.mem L.base).size = 0) (hlow : ∀ c ∈ F₁, c.stop < b.addr) :
    Ok L { h with mem := setPtr mem p b.addr, freep := p } (F₁ ++ b :: F₂) V := by
  have hnodes : L.base :: (F₁ ++ b :: F₂).map Block.addr =
      A ++ p :: b.addr :: F₂.map Block.addr := by grind
  have hperm : (b :: (F₁ ++ F₂ ++ V)).Perm (F₁ ++ b :: F₂ ++ V) := perm_out.symm
  have habove : L.base + 16 ≤ b.addr := hr.divides.above hg mem_cons_self
  obtain ⟨hs1, hs2, hs12⟩ := pairwise_append.mp hr.sorted
  refine
    { circle := by rw [hnodes]; exact hr.circle
      freep := by rw [hnodes]; simp
      base := ?_
      sorted := ?_
      size := ?_
      divides := hr.divides.perm hperm
      granted := hg.write _ _ }
  · rw [setPtr_size, hr.other _ (by omega), hbase]
  · apply pairwise_append.mpr
    refine ⟨hs1, pairwise_cons.mpr ⟨hr.gap, hs2⟩, ?_⟩
    intro c hc d hd
    rcases mem_cons.mp hd with rfl | hd
    · exact hlow c hc
    · exact hs12 c hc d hd
  · intro d hd
    rw [setPtr_size]
    rcases mem_cons.mp (hperm.mem_iff.mpr hd) with rfl | hd
    · exact hr.size
    · rw [hr.other _ (hr.divides.addr_ne hg hd), hr.sizes d hd]

theorem Ready.merge (hr : Ready L h mem (F₁ ++ [c]) F₂ V A c.addr b)
    (hn : L.base :: (F₁ ++ [c]).map Block.addr = A ++ [c.addr]) (hg : Granted L h)
    (hbase : (h.mem L.base).size = 0) (hcb : c.stop = b.addr) (hlt : h.obtained < 2 ^ 36) :
    Ok L { h with mem := joinLower mem b.addr c.addr, freep := c.addr }
      (F₁ ++ ⟨c.addr, c.units + b.units⟩ :: F₂) V := by
  have hperm : (b :: (F₁ ++ [c] ++ F₂ ++ V)).Perm (c :: b :: (F₁ ++ F₂ ++ V)) := by grind
  have hjoin := (hr.divides.perm hperm).join hcb
  have hperm' : (⟨c.addr, c.units + b.units⟩ :: (F₁ ++ F₂ ++ V)).Perm
      (F₁ ++ ⟨c.addr, c.units + b.units⟩ :: F₂ ++ V) := perm_out.symm
  have hcm : c ∈ F₁ ++ [c] ++ F₂ ++ V := by simp
  have hcsize : (mem c.addr).size = c.units := by
    rw [hr.other _ (hr.divides.addr_ne hg hcm), hr.sizes c hcm]
  have he : c.addr + 16 * (mem c.addr).size = b.addr := by
    rw [hcsize, ← hcb]
    rfl
  have hmerge := joinLower_merge he
  rw [hcsize, hr.size, hjoin.uint_units mem_cons_self hlt] at hmerge
  have hnodes : L.base :: (F₁ ++ ⟨c.addr, c.units + b.units⟩ :: F₂).map Block.addr =
      A ++ c.addr :: F₂.map Block.addr := by grind
  have hnd : (A ++ c.addr :: F₂.map Block.addr).Nodup := by
    rw [← hnodes]
    exact hjoin.perm hperm' |>.nodes_nodup hg (List.sublist_append_left _ _)
  obtain ⟨hs1, hs2, hs12⟩ := pairwise_append.mp hr.sorted
  refine
    { circle := ?_
      freep := by rw [hnodes]; simp
      base := ?_
      sorted := ?_
      size := ?_
      divides := hjoin.perm hperm'
      granted := hg.write _ _ }
  · rw [hnodes]
    apply hr.circle.unlink
    · dsimp only
      rw [hmerge, setPtr_of_ne (hr.divides.addr_ne hg hcm).symm]
    · grind [setPtr_of_ne, joinLower_of_ne]
  · have hc := hr.divides.above hg (List.mem_cons_of_mem b hcm)
    dsimp only
    rw [joinLower_of_ne (by omega), hr.other _ (by omega), hbase]
  · grind [hr.gap, Block.stop]
  · intro d hd
    rcases mem_cons.mp (hperm'.mem_iff.mpr hd) with rfl | hd
    · dsimp only
      rw [hmerge]
    · have hdm : d ∈ F₁ ++ [c] ++ F₂ ++ V := by simp at hd ⊢; tauto
      have hdc : d.addr ≠ c.addr := hjoin.addr_ne hg hd
      dsimp only
      rw [joinLower_of_ne hdc, hr.other _ (hr.divides.addr_ne hg hdm), hr.sizes d hdm]

/-! ## `free` -/

theorem Place.joined (hpl : Place L h F b F₁ F₂ A p) (hok : Ok L h F (b :: V))
    (hlt : h.obtained < 2 ^ 36) :
    ∃ F', Ok L { h with
        mem := joinLower (joinUpper h.mem b.addr p) b.addr p
        freep := p } F' V ∧ (∃ c ∈ F', b.units ≤ c.units) ∧ F'.length ≤ F.length + 1 := by
  obtain ⟨c, F2', hca, hcu, hlen, hr⟩ := joinUpper_ready hok hpl hlt
  have hsplit : F.length = F₁.length + F₂.length := by rw [hpl.split, List.length_append]
  have hpb : p ≠ b.addr := hpl.fresh hok p (by simp)
  have hpsize : (joinUpper h.mem b.addr p p).size = (h.mem p).size := by rw [joinUpper_of_ne hpb]
  rw [← hca] at hr hpsize ⊢
  obtain hF1 | ⟨F1', a, hF1⟩ := List.eq_nil_or_concat F₁
  · -- the block is entered behind `base`, which is empty
    subst hF1
    have hp : p = L.base := by
      have := hpl.nodes
      cases A with
      | nil => exact (List.cons.inj this).1.symm
      | cons => simp at this
    have hne : p + 16 * (joinUpper h.mem c.addr p p).size ≠ c.addr := by
      rw [hpsize, hp, hok.base, hca, ← hp]
      exact hpb
    rw [joinLower_link hne]
    refine ⟨_, hr.link hpl.nodes hok.granted hok.base (by simp), ⟨c, by simp, hcu⟩, ?_⟩
    rw [List.nil_append, List.length_cons]
    omega
  · rw [List.concat_eq_append] at hF1
    subst hF1
    have hp : p = a.addr := by
      have := hpl.nodes
      rw [List.map_append, ← List.cons_append] at this
      exact (List.append_inj_right' this rfl |> List.cons.inj).1.symm
    have hasize : (h.mem a.addr).size = a.units := by
      apply hok.size
      rw [hpl.split]
      simp
    by_cases htouch : p + 16 * (joinUpper h.mem c.addr p p).size = c.addr
    · subst hp
      have hac : a.stop = c.addr := by
        rw [← htouch, hpsize, hasize]
        rfl
      have hok' := hr.merge hpl.nodes hok.granted hok.base hac hlt
      refine ⟨_, hok', ⟨⟨a.addr, a.units + c.units⟩, by simp, ?_⟩, ?_⟩ <;> grind
    · rw [joinLower_link htouch]
      refine ⟨_, hr.link hpl.nodes hok.granted hok.base ?_, ⟨c, by simp, hcu⟩, ?_⟩
      case refine_2 =>
        rw [List.length_append, List.length_cons]
        omega
      intro d hd
      have hle := hpl.lower d hd
      rcases List.mem_append.mp hd with hd | hd
      · have := hr.sorted
        have := hpl.lower
        grind [mem_cons_self, Block.stop]
      · rw [List.mem_singleton] at hd
        subst hd
        rw [hpsize, hp, hasize] at htouch
        rw [hca] at htouch ⊢
        exact Nat.lt_of_le_of_ne hle htouch

theorem free_spec {n : Nat} (hok : Ok L h F (b :: V)) (hlt : h.obtained < 2 ^ 36) :
    Wp (fun _ => n ≤ F.length) (free n (b.addr + 16)) h fun _ h' =>
      ∃ F', Ok L h' F' V ∧ (∃ c ∈ F', b.units ≤ c.units) ∧ F'.length ≤ F.length + 1 ∧
        h'.regions = h.regions := by
  obtain ⟨F₁, F₂, A, p, hpl⟩ := hok.place mem_cons_self
  unfold free
  rw [Nat.add_sub_cancel]
  apply Wp.bind
  apply Wp.get
  cases hf : freeLoop h.mem b.addr n h.freep with
  | none =>
    refine .of_error (e := .fuel) rfl ?_
    by_contra hn
    rw [hpl.found n (Nat.lt_of_not_le hn)] at hf
    exact absurd hf (by simp)
  | some q =>
    have hqp : q = p := by
      rw [freeLoop_eq] at hf
      have hm := seek_mono hf (Nat.le_max_left n (F.length + 1))
      rw [← freeLoop_eq, hpl.found _ (Nat.le_max_right _ _)] at hm
      exact (Option.some.inj hm).symm
    subst hqp
    obtain ⟨F', hok', hc, hlen⟩ := hpl.joined hok hlt
    exact .set ⟨F', hok', hc, hlen, rfl⟩

end Xv6.Umalloc
