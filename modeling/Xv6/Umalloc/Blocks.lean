import Xv6.Misc.Circular
import Xv6.Misc.Extent
import Xv6.Umalloc

/-!
# Blocks of the heap

`Ok L h F V` says of a heap that its free list goes round through `base` and the blocks `F`, in the
order of their addresses and with gaps between them, that every block of `F` and `V` has its size in
its header, and that together they divide the memory obtained from `sbrk`. The lemmas here are about
what `free` and `malloc` write: joining a block with its neighbours and carving one out.
-/

namespace Xv6.Umalloc

open List (map_cons mem_append_right mem_cons mem_cons_self mem_map pairwise_cons pairwise_map)

/-- A block: its header and what comes behind it, in units of a header. -/
structure Block where
  addr : Nat
  units : Nat
  deriving DecidableEq, Repr

namespace Block

def stop (b : Block) : Nat := b.addr + 16 * b.units

def extent (b : Block) : Extent := ⟨b.addr, b.stop⟩

end Block

def Region.extent (r : Region) : Extent := ⟨r.addr, r.addr + r.bytes⟩

def totalUnits (l : List Block) : Nat := (l.map Block.units).sum

def Heap.obtained (h : Heap) : Nat := (h.regions.map Region.bytes).sum

theorem perm_out {F₁ F₂ V : List Block} {b : Block} :
    (F₁ ++ b :: F₂ ++ V).Perm (b :: (F₁ ++ F₂ ++ V)) := by
  rw [List.append_assoc, List.append_assoc]
  exact List.perm_middle

/-! ## Dividing memory -/

structure Divides (rs : List Region) (l : List Block) : Prop where
  pos : ∀ b ∈ l, 0 < b.units
  covers : ∀ a, cover (l.map Block.extent) a = cover (rs.map Region.extent) a
  total : 16 * totalUnits l = (rs.map Region.bytes).sum

namespace Divides

variable {rs : List Region} {l l' : List Block} {b c : Block}

theorem perm (h : Divides rs l) (hp : l.Perm l') : Divides rs l' := by
  refine ⟨?_, ?_, ?_⟩
  · intro b hb
    exact h.pos b (hp.mem_iff.mpr hb)
  · intro a
    rw [← h.covers a]
    exact cover_perm (hp.symm.map _)
  · rw [← h.total]
    unfold totalUnits
    rw [(hp.map _).sum_nat]

theorem join (h : Divides rs (b :: c :: l)) (hbc : b.stop = c.addr) :
    Divides rs (⟨b.addr, b.units + c.units⟩ :: l) := by
  refine ⟨?_, ?_, ?_⟩
  · have := h.pos
    grind [Nat.add_pos_left, mem_cons_self, List.mem_cons_of_mem]
  · intro a
    rw [← h.covers a]
    have hle : b.addr ≤ c.addr := by rw [← hbc]; exact Nat.le_add_right _ _
    have hb : b.extent = ⟨b.addr, c.addr⟩ := by rw [← hbc]; rfl
    have hj : (⟨b.addr, b.units + c.units⟩ : Block).extent = ⟨b.addr, c.stop⟩ := by
      rw [Block.extent, Block.stop, Block.stop, ← hbc, Block.stop, Nat.mul_add, Nat.add_assoc]
    rw [map_cons, map_cons, map_cons, hb, hj]
    exact (cover_split hle (Nat.le_add_right _ _)).symm
  · rw [← h.total]
    simp [totalUnits]
    omega

theorem split (h : Divides rs (b :: l)) {k : Nat} (hk : 0 < k) (hlt : k < b.units) :
    Divides rs (⟨b.addr, b.units - k⟩ :: ⟨b.addr + 16 * (b.units - k), k⟩ :: l) := by
  refine ⟨?_, ?_, ?_⟩
  · have := h.pos
    grind [Nat.sub_pos_of_lt, List.mem_cons_of_mem]
  · intro a
    rw [← h.covers a]
    have hb : b.extent = ⟨b.addr, b.addr + 16 * (b.units - k) + 16 * k⟩ := by
      unfold Block.extent Block.stop
      congr 1
      omega
    rw [map_cons, map_cons, map_cons, hb]
    exact cover_split (Nat.le_add_right _ _) (Nat.le_add_right _ _)
  · rw [← h.total]
    simp [totalUnits]
    omega

theorem grow (h : Divides rs l) (hb : 0 < b.units) :
    Divides (⟨b.addr, 16 * b.units⟩ :: rs) (b :: l) := by
  refine ⟨?_, ?_, ?_⟩
  · have := h.pos
    grind
  · intro a
    rw [map_cons, map_cons, cover_cons, cover_cons, h.covers a]
    rfl
  · have ht := h.total
    simp only [totalUnits, map_cons, List.sum_cons] at ht ⊢
    omega

end Divides

/-! ## The state of the heap -/

/-- The regions are above `base`, below the end of the memory obtained, and disjoint. -/
structure Granted (L : Layout) (h : Heap) : Prop where
  low : ∀ r ∈ h.regions, L.heap ≤ r.addr
  high : ∀ r ∈ h.regions, r.addr + r.bytes ≤ h.top
  top : L.heap ≤ h.top
  once : ∀ a, cover (h.regions.map Region.extent) a ≤ 1

/-- The heap has the free blocks `F` and the allocated blocks `V`. -/
structure Ok (L : Layout) (h : Heap) (F V : List Block) : Prop where
  circle : Circular (fun p => (h.mem p).ptr) (L.base :: F.map Block.addr)
  freep : h.freep ∈ L.base :: F.map Block.addr
  base : (h.mem L.base).size = 0
  sorted : F.Pairwise fun b c => b.stop < c.addr
  size : ∀ b ∈ F ++ V, (h.mem b.addr).size = b.units
  divides : Divides h.regions (F ++ V)
  granted : Granted L h

variable {L : Layout} {h : Heap} {F F₁ F₂ V : List Block} {b c : Block}

theorem Divides.separate {l : List Block} (hd : Divides h.regions l) (hg : Granted L h) :
    l.Pairwise fun b c => b.stop ≤ c.addr ∨ c.stop ≤ b.addr := by
  have hone : (l.map Block.extent).Pairwise Extent.Disjoint := by
    apply pairwise_disjoint
    intro a
    rw [hd.covers a]
    exact hg.once a
  apply (pairwise_map.mp hone).imp_of_mem
  intro b c hb hc hbc
  have hpb := hd.pos b hb
  have hpc := hd.pos c hc
  exact hbc.cases (Nat.lt_add_of_pos_right (by omega)) (Nat.lt_add_of_pos_right (by omega))

theorem Divides.inside {l : List Block} (hd : Divides h.regions l) (hb : b ∈ l) {a : Nat}
    (ha : b.extent.Has a) : ∃ r ∈ h.regions, r.extent.Has a := by
  have hpos : 0 < cover (h.regions.map Region.extent) a := by
    rw [← hd.covers a]
    exact cover_pos.mpr ⟨b.extent, List.mem_map_of_mem hb, ha⟩
  obtain ⟨e, he, ha'⟩ := cover_pos.mp hpos
  obtain ⟨r, hr, rfl⟩ := mem_map.mp he
  exact ⟨r, hr, ha'⟩

theorem Divides.above {l : List Block} (hd : Divides h.regions l) (hg : Granted L h) (hb : b ∈ l) :
    L.base + 16 ≤ b.addr := by
  have hpos := hd.pos b hb
  have hfirst : b.extent.Has b.addr := ⟨Nat.le_refl _, Nat.lt_add_of_pos_right (by omega)⟩
  obtain ⟨r, hr, ha⟩ := hd.inside hb hfirst
  exact Nat.le_trans L.base_below (Nat.le_trans (hg.low r hr) ha.1)

theorem Divides.nodup {l : List Block} (hd : Divides h.regions l) (hg : Granted L h) :
    (l.map Block.addr).Nodup := by
  apply pairwise_map.mpr
  apply (hd.separate hg).imp_of_mem
  intro b c hb hc hbc
  have hpb := hd.pos b hb
  have hpc := hd.pos c hc
  unfold Block.stop at hbc
  omega

/-! ## Writes -/

section

variable (mem : Mem) (a p n x : Nat)

@[simp]
theorem setPtr_ptr : (setPtr mem a p a).ptr = p := by simp [setPtr]

@[simp]
theorem setPtr_size : (setPtr mem a p x).size = (mem x).size := by
  by_cases h : x = a
  · subst h
    simp [setPtr]
  · simp [setPtr, h]

@[simp]
theorem setSize_size : (setSize mem a n a).size = n := by simp [setSize]

@[simp]
theorem setSize_ptr : (setSize mem a n x).ptr = (mem x).ptr := by
  by_cases h : x = a
  · subst h
    simp [setSize]
  · simp [setSize, h]

end

variable {mem : Mem} {bp p x : Nat}

theorem setPtr_of_ne {a : Nat} (h : x ≠ a) : setPtr mem a p x = mem x := Function.update_of_ne h ..

theorem setSize_of_ne {a n : Nat} (h : x ≠ a) : setSize mem a n x = mem x :=
  Function.update_of_ne h ..

theorem joinUpper_of_ne (h : x ≠ bp) : joinUpper mem bp p x = mem x := by
  unfold joinUpper
  split
  · rw [setPtr_of_ne h, setSize_of_ne h]
  · rw [setPtr_of_ne h]

theorem joinLower_of_ne (h : x ≠ p) : joinLower mem bp p x = mem x := by
  unfold joinLower
  split
  · rw [setPtr_of_ne h, setSize_of_ne h]
  · rw [setPtr_of_ne h]

/-! ## The place of a block -/

/-- The condition on which the loop of `free` ends at `p`. -/
def stopsAt (mem : Mem) (bp p : Nat) : Bool :=
  decide ((bp > p ∧ bp < (mem p).ptr) ∨ (p ≥ (mem p).ptr ∧ (bp > p ∨ bp < (mem p).ptr)))

theorem freeLoop_eq (n p : Nat) :
    freeLoop mem bp n p = seek (fun p => (mem p).ptr) (stopsAt mem bp) n p := by
  induction n generalizing p with
  | zero => rfl
  | succ _ ih =>
    unfold freeLoop seek
    by_cases h1 : bp > p ∧ bp < (mem p).ptr
    · rw [if_pos h1, if_pos (by simp [stopsAt, h1])]
    rw [if_neg h1]
    by_cases h2 : p ≥ (mem p).ptr ∧ (bp > p ∨ bp < (mem p).ptr)
    · rw [if_pos h2, if_pos (by simp [stopsAt, h2])]
    · grind [stopsAt]

theorem exists_place (hs : F.Pairwise fun b c => b.stop < c.addr) (x : Nat) :
    ∃ F₁ F₂, F = F₁ ++ F₂ ∧ (∀ c ∈ F₁, c.addr < x) ∧ ∀ c ∈ F₂, x ≤ c.addr := by
  induction F with
  | nil => exact ⟨[], [], rfl, by simp, by simp⟩
  | cons b F ih =>
    obtain ⟨hb, hs⟩ := pairwise_cons.mp hs
    by_cases hx : b.addr < x
    · grind
    · refine ⟨[], b :: F, rfl, by simp, ?_⟩
      intro c hc
      rcases mem_cons.mp hc with rfl | hc
      · exact Nat.le_of_not_lt hx
      · grind [Block.stop]

theorem next_sorted {next : Nat → Nat} {l : List Nat} (hc : Circular next l)
    (hs : l.Pairwise (· < ·)) (hx : x ∈ l) :
    (x < next x ∧ ∀ z ∈ l, z ≤ x ∨ next x ≤ z) ∨ ∀ z ∈ l, z ≤ x ∧ next x ≤ z := by
  obtain ⟨l1, l2, rfl⟩ := List.append_of_mem hx
  obtain ⟨hs1, hs2, h12⟩ := List.pairwise_append.mp hs
  obtain ⟨hx2, hs2⟩ := pairwise_cons.mp hs2
  have hlt : ∀ z ∈ l1, z < x := fun z hz => h12 z hz x mem_cons_self
  cases l2 with
  | cons y =>
    left
    rw [hc.next_eq]
    refine ⟨hx2 y mem_cons_self, ?_⟩
    intro z hz
    rcases List.mem_append.mp hz with hz | hz
    · exact .inl (Nat.le_of_lt (hlt z hz))
    rcases mem_cons.mp hz with rfl | hz
    · exact .inl (Nat.le_refl _)
    rcases mem_cons.mp hz with rfl | hz
    · exact .inr (Nat.le_refl _)
    · exact .inr (Nat.le_of_lt ((pairwise_cons.mp hs2).1 z hz))
  | nil =>
    right
    intro z hz
    cases l1 with
    | nil =>
      have hn : next x = x := Circular.single.mp hc
      rw [List.nil_append, List.mem_singleton] at hz
      rw [hz, hn]
      exact ⟨Nat.le_refl _, Nat.le_refl _⟩
    | cons y =>
      rw [hc.next_last]
      have hy : y < x := hlt y mem_cons_self
      rcases List.mem_append.mp hz with hz | hz
      · refine ⟨Nat.le_of_lt (hlt z hz), ?_⟩
        rcases mem_cons.mp hz with rfl | hz
        · exact Nat.le_refl _
        · exact Nat.le_of_lt ((pairwise_cons.mp hs1).1 z hz)
      · grind

theorem stopsAt_iff {A B : List Nat} (hc : Circular (fun p => (mem p).ptr) (A ++ p :: B))
    (hs : (A ++ p :: B).Pairwise (· < ·)) (hp : p < bp) (hB : ∀ y ∈ B, bp < y)
    (hx : x ∈ A ++ p :: B) : stopsAt mem bp x = true ↔ x = p := by
  have hA : ∀ y ∈ A, y < p := fun y hy =>
    (List.pairwise_append.mp hs).2.2 y hy p mem_cons_self
  have hcases : ∀ y ∈ A ++ p :: B, y < p ∨ y = p ∨ bp < y := by grind
  have hpm : p ∈ A ++ p :: B := by simp
  have hxc := hcases x hx
  simp only [stopsAt, decide_eq_true_eq]
  rcases next_sorted hc hs hx with ⟨hlt, hbetween⟩ | hlast
  · have hpx := hbetween p hpm
    have hnx := hcases _ (hc.next_mem hx)
    constructor
    · intro h
      omega
    · rintro rfl
      omega
  · grind

theorem Ok.above (hok : Ok L h F V) (hb : b ∈ F ++ V) : L.base + 16 ≤ b.addr :=
  hok.divides.above hok.granted hb

theorem Ok.increasing (hok : Ok L h F V) : (L.base :: F.map Block.addr).Pairwise (· < ·) := by
  refine pairwise_cons.mpr ⟨?_, ?_⟩
  · intro y hy
    obtain ⟨c, hc, rfl⟩ := mem_map.mp hy
    have := hok.above (List.mem_append_left V hc)
    omega
  · apply pairwise_map.mpr
    apply hok.sorted.imp
    intro c d hcd
    unfold Block.stop at hcd
    omega

/-- The place at which `free` enters a block, behind the address `p`. -/
structure Place (L : Layout) (h : Heap) (F : List Block) (b : Block) (F₁ F₂ : List Block)
    (A : List Nat) (p : Nat) : Prop where
  split : F = F₁ ++ F₂
  nodes : L.base :: F₁.map Block.addr = A ++ [p]
  lower : ∀ c ∈ F₁, c.stop ≤ b.addr
  upper : ∀ c ∈ F₂, b.stop ≤ c.addr
  found : ∀ n, F.length < n → freeLoop h.mem b.addr n h.freep = some p

theorem Ok.place (hok : Ok L h F V) (hb : b ∈ V) : ∃ F₁ F₂ A p, Place L h F b F₁ F₂ A p := by
  obtain ⟨F₁, F₂, rfl, h1, h2⟩ := exists_place hok.sorted b.addr
  have hbpos := hok.divides.pos b (mem_append_right _ hb)
  have hsep : ∀ c ∈ F₁ ++ F₂, c.stop ≤ b.addr ∨ b.stop ≤ c.addr := fun c hc =>
    (List.pairwise_append.mp (hok.divides.separate hok.granted)).2.2 c hc b hb
  have hlower : ∀ c ∈ F₁, c.stop ≤ b.addr := by grind [List.mem_append_left, Block.stop]
  have hupper : ∀ c ∈ F₂, b.stop ≤ c.addr := by
    have := hok.divides.pos
    grind [List.mem_append_left, mem_append_right, Block.stop]
  obtain h | ⟨A, p, hA⟩ := List.eq_nil_or_concat (L.base :: F₁.map Block.addr)
  · exact absurd h (by simp)
  rw [List.concat_eq_append] at hA
  have hp : p < b.addr := by
    have hm : p ∈ L.base :: F₁.map Block.addr := hA ▸ mem_append_right A mem_cons_self
    rcases mem_cons.mp hm with rfl | hm
    · have := hok.above (mem_append_right _ hb)
      omega
    · grind
  have hnodes : L.base :: (F₁ ++ F₂).map Block.addr = A ++ p :: F₂.map Block.addr := by grind
  have hinc := hok.increasing
  have hc := hok.circle
  have hfreep := hok.freep
  rw [hnodes] at hinc hc hfreep
  have hB : ∀ y ∈ F₂.map Block.addr, b.addr < y := by grind [Block.stop]
  have hiff := fun {y} => stopsAt_iff (x := y) hc hinc hp hB
  refine ⟨F₁, F₂, A, p, rfl, hA, hlower, hupper, ?_⟩
  intro n hn
  have hlen : (A ++ p :: F₂.map Block.addr).length ≤ n := by grind
  have hpm : p ∈ A ++ p :: F₂.map Block.addr := by simp
  obtain ⟨y, hy, hs, he⟩ := hc.seek hfreep ⟨p, hpm, (hiff hpm).mpr rfl⟩ hlen
  rw [freeLoop_eq, he, (hiff hy).mp hs]

end Xv6.Umalloc
