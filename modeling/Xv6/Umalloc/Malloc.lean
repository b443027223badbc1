import Xv6.Umalloc.Free

/-!
# Allocating a block

`malloc` goes round the free list and carves the block out of the first one that is large enough. If
there is none, `morecore` adds memory to the list, and the next round finds it. The fuel that this
takes is bounded by the length of the list.
-/

namespace Xv6.Umalloc

open List (map_cons mem_cons mem_cons_of_mem mem_map)

variable {L : Layout} {h : Heap} {F V : List Block} {b c : Block} {k n q x : Nat}
variable {E : Stop → Prop} {F1 F2 : List Block}

attribute [local simp] Umalloc.carve

/-! ## Carving -/

theorem Ok.before (hok : Ok L h F V) (hc : c ∈ F) (hq : q ∈ L.base :: F.map Block.addr)
    (hn : (h.mem q).ptr = c.addr) :
    ∃ F1 F2 A, F = F1 ++ c :: F2 ∧ L.base :: F1.map Block.addr = A ++ [q] := by
  obtain ⟨F1, F2, rfl⟩ := List.append_of_mem hc
  obtain he | ⟨A, p, hA⟩ := List.eq_nil_or_concat (L.base :: F1.map Block.addr)
  · exact absurd he (by simp)
  rw [List.concat_eq_append] at hA
  have hnodes : L.base :: (F1 ++ c :: F2).map Block.addr =
      A ++ p :: c.addr :: F2.map Block.addr := by grind
  have hcirc := hok.circle
  have hnd : (A ++ p :: c.addr :: F2.map Block.addr).Nodup := by
    rw [← hnodes]
    exact hok.increasing.imp Nat.ne_of_lt
  rw [hnodes] at hcirc hq
  have hp : (h.mem p).ptr = c.addr := hcirc.next_eq
  have hqp : q = p := hcirc.next_inj hnd hq (by simp) (hn.trans hp.symm)
  exact ⟨F1, F2, A, rfl, by rw [hA, hqp]⟩

theorem Ok.take {A : List Nat} (hok : Ok L h (F1 ++ c :: F2) V)
    (hn : L.base :: F1.map Block.addr = A ++ [q]) :
    Ok L { h with mem := setPtr h.mem q (h.mem c.addr).ptr, freep := q } (F1 ++ F2) (c :: V) := by
  have hnodes : L.base :: (F1 ++ c :: F2).map Block.addr =
      A ++ q :: c.addr :: F2.map Block.addr := by grind
  have hnodes' : L.base :: (F1 ++ F2).map Block.addr = A ++ q :: F2.map Block.addr := by grind
  have hcirc := hok.circle
  have hinc := hok.increasing
  rw [hnodes] at hcirc hinc
  have hperm : (F1 ++ c :: F2 ++ V).Perm (F1 ++ F2 ++ c :: V) :=
    perm_out.trans List.perm_middle.symm
  refine
    { circle := ?_
      freep := by rw [hnodes']; simp
      base := by dsimp only; rw [setPtr_size, hok.base]
      sorted := hok.sorted.sublist ((List.sublist_cons_self c F2).append_left F1)
      size := ?_
      divides := hok.divides.perm hperm
      granted := hok.granted.write _ _ }
  · rw [hnodes']
    apply hcirc.unlink (setPtr_ptr _ _ _)
    intro x hx
    have hxq : x ≠ q := by grind
    dsimp only
    rw [setPtr_of_ne hxq]
  · intro d hd
    rw [setPtr_size]
    exact hok.size d (hperm.mem_iff.mpr hd)

theorem Ok.cut {A : List Nat} (hok : Ok L h (F1 ++ c :: F2) V)
    (hn : L.base :: F1.map Block.addr = A ++ [q]) (hk : 0 < k) (hlt : k < c.units) :
    Ok L { h with
        mem := setSize (setSize h.mem c.addr (c.units - k)) (c.addr + 16 * (c.units - k)) k
        freep := q }
      (F1 ++ ⟨c.addr, c.units - k⟩ :: F2) (⟨c.addr + 16 * (c.units - k), k⟩ :: V) := by
  have hperm : (F1 ++ c :: F2 ++ V).Perm (c :: (F1 ++ F2 ++ V)) := perm_out
  have hsplit := (hok.divides.perm hperm).split hk hlt
  have hperm' : (⟨c.addr, c.units - k⟩ :: ⟨c.addr + 16 * (c.units - k), k⟩ :: (F1 ++ F2 ++ V)).Perm
      (F1 ++ ⟨c.addr, c.units - k⟩ :: F2 ++ ⟨c.addr + 16 * (c.units - k), k⟩ :: V) := by grind
  have hrest : ∀ d ∈ F1 ++ F2 ++ V, d.addr ≠ c.addr ∧ d.addr ≠ c.addr + 16 * (c.units - k) := by
    intro d hd
    refine ⟨hsplit.addr_ne hok.granted (mem_cons_of_mem _ hd), ?_⟩
    exact (hsplit.perm (List.Perm.swap _ _ _)).addr_ne hok.granted (mem_cons_of_mem _ hd)
  have habove := hok.above (b := c) (by simp)
  obtain ⟨hs1, hs2, hs12⟩ := List.pairwise_append.mp hok.sorted
  obtain ⟨hc2, hs2⟩ := List.pairwise_cons.mp hs2
  refine
    { circle := ?_
      freep := ?_
      base := ?_
      sorted := ?_
      size := ?_
      divides := hsplit.perm hperm'
      granted := hok.granted.write _ _ }
  · simpa using hok.circle
  · grind
  · grind [hok.base, setSize_of_ne]
  · apply List.pairwise_append.mpr
    refine ⟨hs1, List.pairwise_cons.mpr ⟨?_, hs2⟩, ?_⟩
    · grind [Block.stop]
    · grind
  · grind [hok.size, setSize_of_ne, setSize_size, mem_cons_of_mem]

theorem Ok.carve (hok : Ok L h F V) (hq : q ∈ L.base :: F.map Block.addr) (hx : (h.mem q).ptr = x)
    (hk : 0 < k) (hsize : k ≤ (h.mem x).size) :
    ∃ F' b, (carve h.mem k q x).2 = b.addr ∧ b.units = k ∧
      Ok L { h with mem := (Umalloc.carve h.mem k q x).1, freep := q } F' (b :: V) := by
  have hxm : x ∈ L.base :: F.map Block.addr := hx ▸ hok.circle.next_mem hq
  rcases mem_cons.mp hxm with rfl | hxm
  · rw [hok.base] at hsize
    omega
  obtain ⟨c, hc, rfl⟩ := mem_map.mp hxm
  have hcsize := hok.size c (List.mem_append_left V hc)
  obtain ⟨F1, F2, A, rfl, hn⟩ := hok.before hc hq hx
  by_cases he : c.units = k
  · refine ⟨F1 ++ F2, c, ?_, he, ?_⟩
    · simp [hcsize, he]
    · simpa [hcsize, he] using hok.take hn
  · have hlt : k < c.units := by omega
    refine ⟨F1 ++ ⟨c.addr, c.units - k⟩ :: F2, ⟨c.addr + 16 * (c.units - k), k⟩, ?_, rfl, ?_⟩
    · simp [hcsize, he]
    · simpa [hcsize, he] using hok.cut hn hk hlt

/-! ## More memory -/

def request (k : Nat) : Nat := if k < 4096 then 4096 else k

theorem le_request (k : Nat) : k ≤ request k := by
  unfold request
  split <;> omega

theorem request_pos (k : Nat) : 0 < request k := by
  unfold request
  split <;> omega

theorem request_int (hk : k < 2 ^ 27) : (BitVec.ofNat 32 (request k * 16)).toInt.toNat =
    16 * request k := by
  have hlt : request k * 16 < 2 ^ 31 := by
    unfold request
    split <;> omega
  rw [BitVec.toInt_eq_toNat_of_lt (by rw [BitVec.toNat_ofNat]; omega), BitVec.toNat_ofNat]
  omega

theorem Ok.setAnswers (hok : Ok L h F V) (answers : List (Option Nat)) :
    Ok L { h with answers := answers } F V :=
  { hok with granted := { hok.granted with } }

theorem Ok.stop_le (hok : Ok L h F V) (hb : b ∈ F ++ V) : b.stop ≤ h.top := by
  have hpos := hok.divides.pos b hb
  have hlast : b.extent.Has (b.stop - 1) := by
    simp only [Block.extent, Extent.Has, Block.stop]
    omega
  obtain ⟨r, hr, ha⟩ := hok.divides.inside hb hlast
  have hlt := ha.2
  have hhigh := hok.granted.high r hr
  dsimp only [Region.extent] at hlt
  omega

theorem Ok.below (hok : Ok L h F V) (hb : b ∈ F ++ V) : b.addr < h.top := by
  have hpos := hok.divides.pos b hb
  have hstop := hok.stop_le hb
  unfold Block.stop at hstop
  omega

/-- The heap with a new region, which has its size in its header. -/
def Heap.extend (h : Heap) (b : Block) (answers : List (Option Nat)) : Heap :=
  { h with
    mem := setSize h.mem b.addr b.units
    top := b.stop
    regions := ⟨b.addr, 16 * b.units⟩ :: h.regions
    answers := answers }

theorem Heap.extend_mem (answers : List (Option Nat)) :
    (h.extend b answers).mem = setSize h.mem b.addr b.units := rfl

theorem Granted.extend (hg : Granted L h) (hb : h.top ≤ b.addr) (answers : List (Option Nat)) :
    Granted L (h.extend b answers) := by
  refine ⟨?_, ?_, ?_, ?_⟩
  · intro r hr
    rcases mem_cons.mp hr with rfl | hr
    · exact Nat.le_trans hg.top hb
    · exact hg.low r hr
  · intro r hr
    rcases mem_cons.mp hr with rfl | hr
    · exact Nat.le_refl _
    · exact Nat.le_trans (hg.high r hr) (Nat.le_trans hb (Nat.le_add_right _ _))
  · exact Nat.le_trans hg.top (Nat.le_trans hb (Nat.le_add_right _ _))
  · intro a
    have hold := hg.once a
    rw [Heap.extend, map_cons, cover_cons]
    split
    case isFalse => exact hold
    case isTrue ha =>
      -- the new region is above the others
      have hzero : cover (h.regions.map Region.extent) a = 0 := by
        by_contra hne
        obtain ⟨e, he, hae⟩ := cover_pos.mp (Nat.pos_of_ne_zero hne)
        obtain ⟨r, hr, rfl⟩ := mem_map.mp he
        have hlt := Nat.lt_of_lt_of_le hae.2 (hg.high r hr)
        exact absurd (Nat.le_trans hb ha.1) (Nat.not_le.mpr hlt)
      rw [hzero]

theorem Ok.extend (hok : Ok L h F V) (hb : h.top ≤ b.addr) (hpos : 0 < b.units)
    (answers : List (Option Nat)) : Ok L (h.extend b answers) F (b :: V) := by
  have hperm : (b :: (F ++ V)).Perm (F ++ b :: V) := List.perm_middle.symm
  refine
    { hok with
      circle := by simpa [Heap.extend] using hok.circle
      base := ?_
      size := ?_
      divides := (hok.divides.grow hpos).perm hperm
      granted := hok.granted.extend hb answers }
  · have := hok.granted.top
    have := L.base_below
    rw [Heap.extend_mem, setSize_of_ne (by omega), hok.base]
  · intro d hd
    rcases mem_cons.mp (hperm.mem_iff.mpr hd) with rfl | hd
    · exact setSize_size _ _ _
    · have := hok.below hd
      rw [Heap.extend_mem, setSize_of_ne (by omega), hok.size d hd]

theorem Heap.obtained_extend (answers : List (Option Nat)) :
    (h.extend b answers).obtained = h.obtained + 16 * b.units := by
  rw [Heap.obtained, Heap.extend, map_cons, List.sum_cons, Nat.add_comm]
  rfl

/-! ## The memory obtained does not shrink -/

theorem free_regions (ap : Nat) :
    Wp (fun _ => True) (free n ap) h fun _ h' => h'.regions = h.regions := by
  apply Wp.bind
  apply Wp.get
  cases freeLoop h.mem (ap - 16) n h.freep with
  | none => exact .of_error (e := .fuel) rfl trivial
  | some => exact .set rfl

/-- A property that the writes of the allocator keep and that `sbrk` keeps. -/
structure Steady (i : Int) (I : Heap → Prop) : Prop where
  write : ∀ h mem freep, I h → I { h with mem := mem, freep := freep }
  sbrk : ∀ h, I h → Wp (fun _ => True) (sbrk i) h fun _ h' => I h'

variable {I : Heap → Prop}
variable {nbytes : Nat}

theorem morecore_keeps (hI : Steady (BitVec.ofNat 32 (request k * 16)).toInt I)
    (hh : Wp (fun _ => True) (sbrk (BitVec.ofNat 32 (request k * 16)).toInt) h fun _ h' => I h') :
    Wp (fun _ => True) (morecore n k) h fun _ h' => I h' := by
  refine hh.seq ?_
  rintro (_ | hp) h1 hh1
  · exact .pure hh1
  · apply Wp.bind
    apply Wp.modify
    have hfree : Wp (fun _ => True) (free n (hp + 16)) { h1 with
        mem := setSize h1.mem hp (if k < 4096 then 4096 else k) } fun _ h' => I h' := by
      apply Wp.bind
      apply Wp.get
      dsimp only
      split
      · exact .of_error (e := .fuel) rfl trivial
      · exact .set (hI.write _ _ _ hh1)
    refine hfree.seq ?_
    intro _ h2 hh2
    apply Wp.bind
    apply Wp.get
    exact .pure hh2

theorem mallocLoop_keeps (hI : Steady (BitVec.ofNat 32 (request k * 16)).toInt I) {p : Nat}
    (hh : I h) : Wp (fun _ => True) (mallocLoop k n q p) h fun _ h' => I h' := by
  induction n generalizing h q p with
  | zero => exact .of_error (e := .fuel) rfl trivial
  | succ _ ih =>
    apply Wp.bind
    apply Wp.get
    split
    · apply Wp.bind
      apply Wp.set
      exact .pure (hI.write _ _ _ hh)
    split
    · refine (morecore_keeps hI (hI.sbrk h hh)).seq ?_
      intro p' h' hh'
      split
      · exact .pure hh'
      · apply Wp.bind
        apply Wp.get
        exact ih hh'
    · exact ih hh

theorem steady_obtained (i : Int) (c : Nat) : Steady i fun h => c ≤ h.obtained := by
  refine ⟨fun _ _ _ hh => hh, fun h hh => ?_⟩
  apply Wp.bind
  apply Wp.get
  rcases h.answers with _ | ⟨_ | gap, answers⟩
  · exact .pure hh
  · apply Wp.bind
    apply Wp.set
    exact .pure hh
  · apply Wp.bind
    apply Wp.set
    apply Wp.pure
    exact Nat.le_trans hh (Nat.le_add_left _ _)

theorem steady_answers (i : Int) : Steady i fun h => h.answers = [] := by
  refine ⟨fun _ _ _ hh => hh, fun h hh => ?_⟩
  apply Wp.bind
  apply Wp.get
  rw [hh]
  exact .pure hh

/-! ## `morecore` -/

theorem Ok.freep_pos (hok : Ok L h F V) : 0 < h.freep := by
  have hbase := L.base_pos
  rcases mem_cons.mp hok.freep with he | hm
  · rw [he]
    exact hbase
  · obtain ⟨c, hc, he⟩ := mem_map.mp hm
    have := hok.above (List.mem_append_left V hc)
    omega

theorem sbrk_spec (i : Int) : Wp (fun _ => False) (sbrk i) h fun r h' =>
      (r = none ∧ ∃ answers, h' = { h with answers := answers }) ∨
        ∃ p answers, r = some p ∧ h.top ≤ p ∧ h' = { h with
          top := p + i.toNat
          regions := ⟨p, i.toNat⟩ :: h.regions
          answers := answers } := by
  apply Wp.bind
  apply Wp.get
  rcases ha : h.answers with _ | ⟨_ | gap, answers⟩
  · exact .pure (.inl ⟨rfl, [], by rw [← ha]⟩)
  · apply Wp.bind
    apply Wp.set
    exact .pure (.inl ⟨rfl, answers, rfl⟩)
  · apply Wp.bind
    apply Wp.set
    exact .pure (.inr ⟨h.top + gap, answers, rfl, Nat.le_add_right _ _, rfl⟩)

theorem morecore_spec (hok : Ok L h F V) (hk : k < 2 ^ 27) :
    Wp (fun _ => n ≤ F.length ∨ 2 ^ 36 ≤ h.obtained + 16 * request k) (morecore n k) h
      fun p h' => h'.obtained ≤ h.obtained + 16 * request k ∧ (h'.obtained < 2 ^ 36 →
        (p = 0 ∧ Ok L h' F V) ∨ (p ≠ 0 ∧ p = h'.freep ∧ ∃ F', Ok L h' F' V ∧
          (∃ c ∈ F', k ≤ c.units) ∧ F'.length ≤ F.length + 1)) := by
  refine (sbrk_spec _).weaken.seq ?_
  rintro r h1 (⟨rfl, answers, rfl⟩ | ⟨p, answers, rfl, hp, hh1⟩)
  · exact .pure ⟨Nat.le_add_right _ _, fun _ => .inl ⟨rfl, hok.setAnswers answers⟩⟩
  apply Wp.bind
  apply Wp.modify
  -- the region, with its size in its header, is a block to be released
  have hext : { h1 with mem := setSize h1.mem p (request k) } =
      h.extend ⟨p, request k⟩ answers := by
    rw [hh1]
    simp only [show (if k < 4096 then 4096 else k) = request k from rfl, request_int hk]
    rfl
  have hobt : (h.extend ⟨p, request k⟩ answers).obtained = h.obtained + 16 * request k :=
    Heap.obtained_extend answers
  rw [show (if k < 4096 then 4096 else k) = request k from rfl, hext]
  by_cases hover : h.obtained + 16 * request k < 2 ^ 36
  · have hok' := hok.extend (b := ⟨p, request k⟩) hp (request_pos k) answers
    refine ((free_spec hok' (hobt ▸ hover)).imp_error fun _ hn => .inl hn).seq ?_
    rintro _ h2 ⟨F', hok2, ⟨c, hc, hcu⟩, hlen, hr⟩
    apply Wp.bind
    apply Wp.get
    apply Wp.pure
    have hne : h2.freep ≠ 0 := Nat.ne_of_gt hok2.freep_pos
    refine ⟨?_, fun _ => .inr ⟨hne, rfl, F', hok2, ⟨c, hc, Nat.le_trans (le_request k) hcu⟩, hlen⟩⟩
    rw [Heap.obtained, hr]
    exact Nat.le_of_eq hobt
  · refine ((free_regions _).imp_error fun _ _ => .inr (Nat.le_of_not_lt hover)).seq ?_
    intro _ h2 hr
    apply Wp.bind
    apply Wp.get
    apply Wp.pure
    have hobt2 : h2.obtained = h.obtained + 16 * request k := by
      rw [Heap.obtained, hr]
      exact hobt
    exact ⟨Nat.le_of_eq hobt2, fun hlt2 => absurd (hobt2 ▸ hlt2) hover⟩

/-! ## The loop of `malloc` -/

theorem Ok.round (hok : Ok L h F V) : ∃ l, (h.freep :: l).map (fun p => (h.mem p).ptr) =
    l ++ [h.freep] ∧ (∀ x, x ∈ h.freep :: l ↔ x ∈ L.base :: F.map Block.addr) ∧ h.freep ∉ l ∧
    l.length = F.length := by
  obtain ⟨l1, l2, hl⟩ := List.append_of_mem hok.freep
  have hcirc := hok.circle
  have hnd : (L.base :: F.map Block.addr).Nodup := hok.increasing.imp Nat.ne_of_lt
  rw [hl] at hcirc hnd
  refine ⟨l2 ++ l1, Circular.cons_iff.mp hcirc.shift, ?_, ?_, ?_⟩
  · grind
  · grind
  · have hlen := congrArg List.length hl
    simp only [List.length_cons, List.length_map, List.length_append] at hlen ⊢
    omega

def Allocated (L : Layout) (V : List Block) (k p : Nat) (h : Heap) : Prop :=
  ∃ F b, p = b.addr + 16 ∧ b.units = k ∧ Ok L h F (b :: V)

theorem mallocLoop_take (hok : Ok L h F V) (hq : q ∈ L.base :: F.map Block.addr) (hk : 0 < k)
    (hsize : k ≤ (h.mem (h.mem q).ptr).size) :
    Wp E (mallocLoop k (n + 1) q (h.mem q).ptr) h fun p h' =>
      Allocated L V k p h' ∧ h'.answers = h.answers := by
  obtain ⟨F', b, hp, hb, hok'⟩ := hok.carve hq rfl hk hsize
  apply Wp.bind
  apply Wp.get
  rw [if_pos hsize]
  apply Wp.bind
  apply Wp.set
  exact .pure ⟨⟨F', b, congrArg (· + 16) hp, hb, hok'⟩, rfl⟩

/-- What the loop of `malloc` does when it comes to `freep`. -/
def refill (k m : Nat) : M Nat := do
  let p ← morecore m k
  if p = 0 then
    return 0
  else
    let h ← get
    mallocLoop k m p (h.mem p).ptr

theorem mallocLoop_walk {Q : Nat → Heap → Prop} {l : List Nat} (hok : Ok L h F V) (hk : 0 < k)
    (hpath : (q :: l).map (fun p => (h.mem p).ptr) = l ++ [h.freep])
    (hmem : ∀ x ∈ q :: l, x ∈ L.base :: F.map Block.addr) (hne : h.freep ∉ l)
    (hE : n ≤ l.length → E .fuel)
    (hQ : ∀ p h', Allocated L V k p h' → h'.answers = h.answers →
      (∃ x ∈ l ++ [h.freep], k ≤ (h.mem x).size) → Q p h')
    (hmore : (∀ x ∈ l ++ [h.freep], (h.mem x).size < k) → ∀ m, n = m + 1 + l.length →
      Wp E (refill k m) h Q) : Wp E (mallocLoop k n q (h.mem q).ptr) h Q := by
  induction l generalizing q n with
  | nil =>
    cases n with
    | zero => exact .of_error (e := .fuel) rfl (hE (Nat.zero_le _))
    | succ =>
      have hp : (h.mem q).ptr = h.freep := (List.cons.inj hpath).1
      by_cases hsize : k ≤ (h.mem (h.mem q).ptr).size
      · exact (mallocLoop_take hok (hmem q List.mem_cons_self) hk hsize).mono
          fun p h' hr => hQ p h' hr.1 hr.2 ⟨_, List.mem_singleton_self _, hp ▸ hsize⟩
      apply Wp.bind
      apply Wp.get
      rw [if_neg hsize, if_pos hp]
      apply hmore
      · grind
      · rfl
  | cons x _ ih =>
    cases n with
    | zero => exact .of_error (e := .fuel) rfl (hE (Nat.zero_le _))
    | succ =>
      obtain ⟨hp, hpath⟩ := List.cons.inj hpath
      dsimp only at hp
      by_cases hsize : k ≤ (h.mem (h.mem q).ptr).size
      · exact (mallocLoop_take hok (hmem q List.mem_cons_self) hk hsize).mono
          fun p h' hr => hQ p h' hr.1 hr.2 ⟨x, List.mem_cons_self, hp ▸ hsize⟩
      have hxf : (h.mem q).ptr ≠ h.freep := by grind
      apply Wp.bind
      apply Wp.get
      rw [if_neg hsize, if_neg hxf, hp]
      apply ih hpath <;> grind

theorem mallocLoop_found (hok : Ok L h F V) (hk : 0 < k) (hc : c ∈ F) (hcu : k ≤ c.units) :
    Wp (fun _ => n ≤ F.length) (mallocLoop k n h.freep (h.mem h.freep).ptr) h fun p h' =>
      Allocated L V k p h' ∧ h'.answers = h.answers := by
  obtain ⟨l, hpath, hmem, hne, hlen⟩ := hok.round
  apply mallocLoop_walk hok hk hpath (fun x hx => (hmem x).mp hx) hne
  · intro hn
    exact hlen ▸ hn
  · intro p h' ha hr _
    exact ⟨ha, hr⟩
  · grind [hok.size, mem_cons_of_mem, List.mem_map_of_mem, List.mem_append_left]

theorem mallocLoop_spec (hok : Ok L h F V) (hk : 0 < k) (hk' : k < 2 ^ 27) :
    Wp (fun _ => n < 2 * F.length + 3 ∨ 2 ^ 36 ≤ h.obtained + 16 * request k)
      (mallocLoop k n h.freep (h.mem h.freep).ptr) h fun p h' => h'.obtained < 2 ^ 36 →
        (p = 0 ∧ ∃ F', Ok L h' F' V) ∨ Allocated L V k p h' := by
  obtain ⟨l, hpath, hmem, hne, hlen⟩ := hok.round
  apply mallocLoop_walk hok hk hpath (fun x hx => (hmem x).mp hx) hne
  · intro hn
    omega
  · intro p h' ha _ _ _
    exact .inr ha
  · intro _ m hm
    refine ((morecore_spec hok hk').imp_error ?_).seq ?_
    · omega
    rintro p h1 ⟨hle, hpost⟩
    by_cases hlt1 : h1.obtained < 2 ^ 36
    · rcases hpost hlt1 with ⟨rfl, hok1⟩ | ⟨hp, rfl, F', hok1, ⟨c, hc, hcu⟩, hlen'⟩
      · exact .pure fun _ => .inl ⟨rfl, F, hok1⟩
      · rw [if_neg hp]
        apply Wp.bind
        apply Wp.get
        apply ((mallocLoop_found hok1 hk hc hcu).imp_error ?_).mono
        · intro p h' ha _
          exact .inr ha.1
        · intro _ hn
          omega
    · -- more memory than a `uint` counts
      have hover : 2 ^ 36 ≤ h.obtained + 16 * request k := by omega
      split
      · exact .pure fun hlt' => absurd hlt' hlt1
      · apply Wp.bind
        apply Wp.get
        apply ((mallocLoop_keeps (steady_obtained _ _) (Nat.le_refl _)).imp_error ?_).mono
        · intro p' h' hle' hlt'
          omega
        · intro _ _
          exact .inr hover

theorem mallocLoop_asks {a : Option Nat} (hok : Ok L h F V) (hk : 0 < k)
    (hsmall : ∀ c ∈ F, c.units < k) (ha : h.answers = [a]) :
    Wp (fun _ => a = none → n ≤ F.length) (mallocLoop k n h.freep (h.mem h.freep).ptr) h
      fun p h' => h'.answers = [] ∧ (a = none → p = 0) := by
  obtain ⟨l, hpath, hmem, hne, hlen⟩ := hok.round
  apply mallocLoop_walk hok hk hpath (fun x hx => (hmem x).mp hx) hne
  · intro hn _
    exact hlen ▸ hn
  · rintro _ _ _ _ ⟨x, hx, hsize⟩
    have hx' : x ∈ L.base :: F.map Block.addr := (hmem x).mp (by grind)
    rcases mem_cons.mp hx' with rfl | hx'
    · rw [hok.base] at hsize
      omega
    · obtain ⟨c, hc, rfl⟩ := mem_map.mp hx'
      rw [hok.size c (List.mem_append_left V hc)] at hsize
      exact absurd hsize (Nat.not_le.mpr (hsmall c hc))
  · intro _ m _
    rcases a with _ | gap
    · have hmore : Wp (fun _ => False) (morecore m k) h fun p h' => p = 0 ∧ h'.answers = [] := by
        apply Wp.bind
        apply Wp.bind
        apply Wp.get
        rw [ha]
        exact .bind (.set (.pure (.pure ⟨rfl, rfl⟩)))
      refine hmore.weaken.seq ?_
      rintro p h1 ⟨rfl, hans⟩
      exact .pure ⟨hans, fun _ => rfl⟩
    · have hmore : Wp (fun _ => True) (morecore m k) h fun _ h' => h'.answers = [] := by
        apply morecore_keeps (steady_answers _)
        apply Wp.bind
        apply Wp.get
        rw [ha]
        exact .bind (.set (.pure rfl))
      refine (hmore.imp_error fun _ _ => nofun).seq ?_
      intro p h1 hans
      split
      · exact .pure ⟨hans, nofun⟩
      · apply Wp.bind
        apply Wp.get
        exact ((mallocLoop_keeps (steady_answers _) hans).imp_error fun _ _ => nofun).mono
          fun _ _ hans => ⟨hans, nofun⟩

/-! ## `malloc` -/

theorem units_eq (hn : nbytes < 2 ^ 32) : units nbytes = (nbytes + 15) / 16 + 1 := by
  unfold units uint
  omega

/-- The heap before the first call of `malloc`. -/
structure Unused (L : Layout) (h : Heap) : Prop where
  freep : h.freep = 0
  regions : h.regions = []
  top : L.heap ≤ h.top

theorem Unused.prepare (hu : Unused L h) : Ok L (prepare L h) [] [] := by
  have he : Umalloc.prepare L h = { h with
      mem := setSize (setPtr h.mem L.base L.base) L.base 0
      freep := L.base } := if_pos hu.freep
  rw [he]
  refine
    { circle := Circular.single.mpr (by simp)
      freep := List.mem_singleton_self _
      base := setSize_size _ _ _
      sorted := .nil
      size := by simp
      divides := ⟨by simp, by simp [hu.regions], by simp [totalUnits, hu.regions]⟩
      granted := ⟨by simp [hu.regions], by simp [hu.regions], hu.top, by simp [hu.regions]⟩ }

/-- The heap is unused, or has the allocated blocks `V`. -/
def Has (L : Layout) (h : Heap) (V : List Block) : Prop := (Unused L h ∧ V = []) ∨ ∃ F, Ok L h F V

theorem Has.prepare (hh : Has L h V) : ∃ F, Ok L (prepare L h) F V := by
  rcases hh with ⟨hu, rfl⟩ | ⟨F, hok⟩
  · exact ⟨[], hu.prepare⟩
  · refine ⟨F, ?_⟩
    rw [Umalloc.prepare, if_neg (Nat.ne_of_gt hok.freep_pos)]
    exact hok

theorem prepare_regions : (prepare L h).regions = h.regions := by
  unfold prepare
  split <;> rfl

theorem prepare_obtained : (prepare L h).obtained = h.obtained := by
  rw [Heap.obtained, prepare_regions]
  rfl

theorem malloc_keeps (hh : I h)
    (hI : Steady (BitVec.ofNat 32 (request (units nbytes) * 16)).toInt I) :
    Wp (fun _ => True) (malloc L n nbytes) h fun _ h' => I h' := by
  apply Wp.bind
  apply Wp.modify
  apply Wp.bind
  apply Wp.get
  apply mallocLoop_keeps hI
  unfold prepare
  split
  · exact hI.write _ _ _ hh
  · exact hh

theorem malloc_obtained (nbytes : Nat) :
    Wp (fun _ => True) (malloc L n nbytes) h fun _ h' => h.obtained ≤ h'.obtained :=
  malloc_keeps (Nat.le_refl _) (steady_obtained _ _)

theorem malloc_spec (hh : Has L h V) (hn : nbytes ≤ 2 ^ 31 - 32) :
    ∃ N, ∀ n, Wp (fun _ => n < N ∨ 2 ^ 36 ≤ h.obtained + 16 * request (units nbytes))
      (malloc L n nbytes) h fun p h' => h'.obtained < 2 ^ 36 →
        (p = 0 ∧ Has L h' V) ∨ Allocated L V (units nbytes) p h' := by
  obtain ⟨F, hok⟩ := hh.prepare
  have hk : 0 < units nbytes ∧ units nbytes < 2 ^ 27 := by
    rw [units_eq (by omega)]
    omega
  refine ⟨2 * F.length + 3, fun n => ?_⟩
  apply Wp.bind
  apply Wp.modify
  apply Wp.bind
  apply Wp.get
  apply ((mallocLoop_spec hok hk.1 hk.2).imp_error ?_).mono
  · intro p h' hpost hlt
    rcases hpost hlt with ⟨hp, hok'⟩ | ha
    · exact .inl ⟨hp, .inr hok'⟩
    · exact .inr ha
  · intro _ he
    rw [prepare_obtained] at he
    exact he

end Xv6.Umalloc
