import Mathlib.Data.List.Pairwise
import Xv6.Umalloc.Malloc

/-!
# Programs that use the heap

A program calls `malloc`, frees blocks that it has, and writes to them as it likes. In every state
that it comes to the free list is a circle of blocks in the order of their addresses with gaps
between them, and the free and the allocated blocks divide the memory obtained. This holds up to
64 GiB: a `uint` counts no more units.
-/

namespace Xv6.Umalloc

/-- A block as `malloc` has returned it, and the number of bytes asked for. -/
structure Live where
  block : Block
  nbytes : Nat
  deriving DecidableEq, Repr

def Live.ptr (v : Live) : Nat := v.block.addr + 16

def Live.of (h : Heap) (p nbytes : Nat) : Live := ⟨⟨p - 16, (h.mem (p - 16)).size⟩, nbytes⟩

/-- The heaps of programs, with the blocks that a program has. -/
inductive Reach (L : Layout) : Heap → List Live → Prop
  | start (mem : Mem) (answers : List (Option Nat)) : Reach L (start L mem answers) []
  | malloc {h V n nbytes p h'} (hr : Reach L h V) (hn : nbytes < 2 ^ 30)
      (hm : malloc L n nbytes h = .ok (p, h')) (hp : p ≠ 0) : Reach L h' (Live.of h' p nbytes :: V)
  | fail {h V n nbytes h'} (hr : Reach L h V) (hn : nbytes < 2 ^ 30)
      (hm : Umalloc.malloc L n nbytes h = .ok (0, h')) : Reach L h' V
  | free {h V₁ v V₂ n h'} (hr : Reach L h (V₁ ++ v :: V₂))
      (hf : free n v.ptr h = .ok ((), h')) : Reach L h' (V₁ ++ V₂)
  /-- writes to the memory of blocks, behind the start of their headers -/
  | store {h V} (mem : Mem) (hr : Reach L h V)
      (hs : ∀ a, mem a ≠ h.mem a → ∃ v ∈ V, v.block.addr < a ∧ a < v.block.stop) :
      Reach L { h with mem := mem } V

variable {L : Layout} {h : Heap} {F : List Block} {V : List Live} {v : Live}
variable {B : List Block}

/-! ## Runs -/

theorem Ok.perm {B' : List Block} (hok : Ok L h F B) (hp : B.Perm B') : Ok L h F B' :=
  { hok with
    size := fun b hb => hok.size b ((hp.append_left F).mem_iff.mpr hb)
    divides := hok.divides.perm (hp.append_left F) }

theorem Ok.store {mem : Mem} (hok : Ok L h F B)
    (hs : ∀ a, mem a ≠ h.mem a → ∃ b ∈ B, b.addr < a ∧ a < b.stop) :
    Ok L { h with mem := mem } F B := by
  have hkeep : ∀ c ∈ F ++ B, mem c.addr = h.mem c.addr := by
    intro c hc
    by_contra hne
    obtain ⟨b, hb, h1, h2⟩ := hs _ hne
    have hbc : b ≠ c := by grind
    have hsymm : Std.Symm fun b c : Block => b.stop ≤ c.addr ∨ c.stop ≤ b.addr :=
      ⟨fun _ _ => Or.symm⟩
    have hsep := (hok.divides.separate hok.granted).forall (List.mem_append_right F hb) hc hbc
    unfold Block.stop at *
    omega
  have hbase : mem L.base = h.mem L.base := by
    by_contra hne
    obtain ⟨b, hb, h1, -⟩ := hs _ hne
    have := hok.above (List.mem_append_right F hb)
    omega
  refine
    { hok with
      circle := hok.circle.congr ?_
      base := by dsimp only; rw [hbase, hok.base]
      size := fun c hc => by dsimp only; rw [hkeep c hc, hok.size c hc]
      granted := hok.granted.write _ _ }
  intro x hx
  rcases List.mem_cons.mp hx with rfl | hx
  · dsimp only
    rw [hbase]
  · grind

/-- Blocks have the bytes that were asked for behind their headers. -/
def Roomy (V : List Live) : Prop := ∀ v ∈ V, v.nbytes ≤ 16 * (v.block.units - 1)

theorem Reach.has (hr : Reach L h V) (hlt : h.obtained < 2 ^ 36) :
    Has L h (V.map Live.block) ∧ Roomy V := by
  induction hr with
  | start => exact ⟨.inl ⟨⟨rfl, rfl, Nat.le_refl _⟩, rfl⟩, by simp [Roomy]⟩
  | @malloc h V n nbytes p h' hr hn hm hp ih =>
    have hle := (malloc_obtained nbytes).of_ok hm
    obtain ⟨hh, hroom⟩ := ih (by omega)
    obtain ⟨N, hspec⟩ := malloc_spec hh (show nbytes ≤ 2 ^ 31 - 32 by omega)
    rcases (hspec n).of_ok hm hlt with ⟨h0, -⟩ | ⟨F, b, hpb, hbu, hok⟩
    · exact absurd h0 hp
    have hsize : (h'.mem b.addr).size = b.units := hok.size b (by simp)
    have hb : (Live.of h' p nbytes).block = b := by rw [Live.of, hpb, Nat.add_sub_cancel, hsize]
    refine ⟨.inr ⟨F, by rw [List.map_cons, hb]; exact hok⟩, ?_⟩
    intro v hv
    rcases List.mem_cons.mp hv with rfl | hv
    · rw [hb, hbu, units_eq (by omega)]
      show nbytes ≤ _
      omega
    · exact hroom v hv
  | @fail h V n nbytes h' hr hn hm ih =>
    have hle := (malloc_obtained nbytes).of_ok hm
    obtain ⟨hh, hroom⟩ := ih (by omega)
    obtain ⟨N, hspec⟩ := malloc_spec hh (show nbytes ≤ 2 ^ 31 - 32 by omega)
    rcases (hspec n).of_ok hm hlt with ⟨-, hh'⟩ | ⟨F, b, hpb, -, -⟩
    · exact ⟨hh', hroom⟩
    · omega
  | @free h V1 v V2 n h' hr hf ih =>
    have hregions := (free_regions v.ptr).of_ok hf
    have hlt' : h.obtained < 2 ^ 36 := by rwa [Heap.obtained, ← hregions]
    obtain ⟨hh, hroom⟩ := ih hlt'
    have hperm : ((V1 ++ v :: V2).map Live.block).Perm (v.block :: (V1 ++ V2).map Live.block) :=
      List.perm_middle.map Live.block
    rcases hh with ⟨-, he⟩ | ⟨F, hok⟩
    · exact absurd he (by simp)
    obtain ⟨F', hok', -⟩ := (free_spec (hok.perm hperm) hlt').of_ok hf
    refine ⟨.inr ⟨F', hok'⟩, ?_⟩
    intro u hu
    exact hroom u (by simp at hu ⊢; tauto)
  | @store h V mem hr hs ih =>
    obtain ⟨hh, hroom⟩ := ih hlt
    refine ⟨?_, hroom⟩
    rcases hh with ⟨hu, he⟩ | ⟨F, hok⟩
    · exact .inl ⟨{ hu with }, he⟩
    · refine .inr ⟨F, hok.store ?_⟩
      intro a ha
      obtain ⟨v, hv, h1, h2⟩ := hs a ha
      exact ⟨v.block, List.mem_map_of_mem hv, h1, h2⟩

/-! ## The free list and the blocks -/

/-- The free list is a circle through `base`, which is empty, and the blocks `F`, in the order of
their addresses and with gaps between them. -/
structure FreeList (L : Layout) (h : Heap) (F : List Block) : Prop where
  circle : Circular (fun p => (h.mem p).ptr) (L.base :: F.map Block.addr)
  freep : h.freep ∈ L.base :: F.map Block.addr
  base : (h.mem L.base).size = 0
  size : ∀ b ∈ F, (h.mem b.addr).size = b.units
  low : ∀ b ∈ F, L.base < b.addr
  sorted : F.Pairwise fun b c => b.stop < c.addr

/-- The free blocks `F` and the blocks `V` of the program divide the memory obtained. -/
structure Divided (h : Heap) (F : List Block) (V : List Live) : Prop where
  inside : ∀ b ∈ F ++ V.map Live.block, ∀ a, b.extent.Has a → ∃ r ∈ h.regions, r.extent.Has a
  disjoint : (F ++ V.map Live.block).Pairwise fun b c => b.extent.Disjoint c.extent
  usable : ∀ v ∈ V, v.nbytes ≤ 16 * (v.block.units - 1)
  total : 16 * (totalUnits F + totalUnits (V.map Live.block)) = h.obtained

theorem Ok.freeList (hok : Ok L h F B) : FreeList L h F :=
  { hok with
    size := fun b hb => hok.size b (List.mem_append_left B hb)
    low := fun b hb => by
      have := hok.above (List.mem_append_left B hb)
      omega }

theorem Ok.divided (hok : Ok L h F (V.map Live.block)) (hroom : Roomy V) : Divided h F V where
  inside := fun b hb a ha => hok.divides.inside hb ha
  disjoint := by
    apply (hok.divides.separate hok.granted).imp
    intro b c hbc a ha
    have h1 := ha.1.1
    have h2 := ha.1.2
    have h3 := ha.2.1
    have h4 := ha.2.2
    unfold Block.extent at h1 h2 h3 h4
    dsimp only at h1 h2 h3 h4
    omega
  usable := hroom
  total := by
    rw [Heap.obtained, ← hok.divides.total]
    simp [totalUnits]

/-! ## Calls one after the other -/

/-- What a program does: `malloc`, or `free` of the block that it has got last. -/
inductive Op
  | malloc (nbytes : Nat)
  | free

/-- The calls of a program. The loops have fuel for a list of at most one free block. -/
def play (L : Layout) : List Op → Heap × List Live → Option (Heap × List Live)
  | [], s => some s
  | .malloc nbytes :: ops, (h, V) =>
    match malloc L 2 nbytes h with
    | .ok (p, h') =>
      if nbytes < 2 ^ 30 ∧ p ≠ 0 then play L ops (h', Live.of h' p nbytes :: V) else none
    | .error _ => none
  | .free :: ops, (h, v :: V) =>
    match free 1 v.ptr h with
    | .ok (_, h') => play L ops (h', V)
    | .error _ => none
  | .free :: _, (_, []) => none

theorem Reach.play {ops : List Op} {s s' : Heap × List Live} (hr : Reach L s.1 s.2)
    (hp : Umalloc.play L ops s = some s') : Reach L s'.1 s'.2 := by
  induction ops generalizing s with
  | nil =>
    cases hp
    exact hr
  | cons op ops ih =>
    obtain ⟨h, V⟩ := s
    cases op with
    | malloc nbytes =>
      unfold Umalloc.play at hp
      split at hp
      · next p h' hm =>
        split at hp
        · next hok => exact ih (hr.malloc hok.1 hm hok.2) hp
        · cases hp
      · cases hp
    | free =>
      match V, hr, hp with
      | v :: V, hr, hp =>
        unfold Umalloc.play at hp
        split at hp
        · next h' hf => exact ih (@Reach.free _ _ [] _ _ _ _ hr hf) hp
        · cases hp

def lowLayout : Layout := ⟨16, 4096, by decide, by decide⟩

/-- The result of the `i`th `malloc(2^30 - 16)` with `sbrk` growing the heap. -/
def big (i : Nat) : Live := ⟨⟨4096 + i * 2 ^ 30, 2 ^ 26⟩, 2 ^ 30 - 16⟩

def bigs : Nat → List Live
  | 0 => []
  | j + 1 => big j :: bigs j

/-- `i` blocks of 1 GiB are allocated, and the last `j` of them are freed. -/
def fillAndDrain (i j : Nat) : Option (Heap × List Live) :=
  play lowLayout (List.replicate i (.malloc (2 ^ 30 - 16)) ++ List.replicate j .free)
    (start lowLayout (fun _ => ⟨0, 0⟩) (List.replicate i (some 0)), [])

theorem exists_drained {i j : Nat} {P : Heap × List Live → Bool}
    (h : (fillAndDrain i j).any P = true) : ∃ h V, Reach lowLayout h V ∧ P (h, V) = true := by
  obtain ⟨s, hs, hP⟩ := (Option.any_eq_true _ _).mp h
  exact ⟨s.1, s.2, Reach.play (.start _ _) hs, hP⟩

/-! ## The heap in order -/

/-- In every state of a program with less than 64 GiB the heap is in order, and the loops of
`malloc` and `free` end. -/
theorem heap_in_order (hr : Reach L h V) (hlt : h.obtained < 2 ^ 36) :
    ((h.freep = 0 ∧ h.regions = [] ∧ V = []) ∨ ∃ F, FreeList L h F ∧ Divided h F V) ∧
      (∀ nbytes < 2 ^ 30, h.obtained + 16 * request (units nbytes) < 2 ^ 36 →
        ∃ N, ∀ n ≥ N, ∃ p h', malloc L n nbytes h = .ok (p, h')) ∧
      ∀ v ∈ V, ∃ N, ∀ n ≥ N, ∃ h', free n v.ptr h = .ok ((), h') := by
  obtain ⟨hh, hroom⟩ := hr.has hlt
  refine ⟨?_, ?_, ?_⟩
  · rcases hh with ⟨hu, he⟩ | ⟨F, hok⟩
    · exact .inl ⟨hu.freep, hu.regions, List.map_eq_nil_iff.mp he⟩
    · exact .inr ⟨F, hok.freeList, hok.divided hroom⟩
  · intro nbytes hn hfit
    obtain ⟨N, hspec⟩ := malloc_spec hh (show nbytes ≤ 2 ^ 31 - 32 by omega)
    refine ⟨N, fun n hN => ?_⟩
    have htotal : Wp (fun _ => False) (malloc L n nbytes) h _ := (hspec n).imp_error (by omega)
    obtain ⟨p, h', hm, -⟩ := htotal.total
    exact ⟨p, h', hm⟩
  · intro v hv
    obtain ⟨V1, V2, rfl⟩ := List.append_of_mem hv
    rcases hh with ⟨-, he⟩ | ⟨F, hok⟩
    · exact absurd he (by simp)
    have hperm : ((V1 ++ v :: V2).map Live.block).Perm (v.block :: (V1 ++ V2).map Live.block) :=
      List.perm_middle.map Live.block
    refine ⟨F.length + 1, fun n hN => ?_⟩
    have htotal : Wp (fun _ => False) (free n v.ptr) h _ :=
      (free_spec (hok.perm hperm) hlt).imp_error (by omega)
    obtain ⟨_, h', hf, -⟩ := htotal.total
    exact ⟨h', hf⟩

/-- 64 blocks of 1 GiB are freed: the size of the free block is 2^32 units, which a `uint` does not
hold, and the sizes no longer add up. -/
theorem heap_miscounted :
    ∃ L h V, Reach L h V ∧ h.freep ≠ 0 ∧ ∀ F, FreeList L h F → ¬ Divided h F V := by
  obtain ⟨h, V, hr, hP⟩ := exists_drained (i := 64) (j := 64)
    (P := fun s => decide (s.1.freep = 16 ∧ s.1.mem 16 = ⟨4096, 0⟩ ∧ s.1.mem 4096 = ⟨16, 0⟩ ∧
      s.1.obtained = 2 ^ 36 ∧ s.2 = [])) (by decide +kernel)
  obtain ⟨hf, hb, hfree, ho, rfl⟩ := of_decide_eq_true hP
  dsimp only at hf hb hfree ho
  refine ⟨lowLayout, h, [], hr, by rw [hf]; decide, ?_⟩
  intro F hF hdiv
  have hbase : (h.mem lowLayout.base).ptr = 4096 := congrArg Header.ptr hb
  have hlow : lowLayout.base = 16 := rfl
  -- the free list is `base` and the one block
  match F, hF with
  | [], hF =>
    have hself : (h.mem lowLayout.base).ptr = lowLayout.base := Circular.single.mp hF.circle
    omega
  | [b], hF =>
    have hcirc : Circular (fun p => (h.mem p).ptr) ([] ++ lowLayout.base :: b.addr :: []) :=
      hF.circle
    have hb : (h.mem lowLayout.base).ptr = b.addr := hcirc.next_eq
    have hsize := hF.size b List.mem_cons_self
    rw [← hb, hbase, hfree] at hsize
    have htotal := hdiv.total
    rw [ho] at htotal
    simp [totalUnits, ← hsize] at htotal
  | b :: c :: F, hF =>
    have hcirc : Circular (fun p => (h.mem p).ptr)
        ([] ++ lowLayout.base :: b.addr :: c.addr :: F.map Block.addr) := hF.circle
    have hcirc' : Circular (fun p => (h.mem p).ptr)
        ([lowLayout.base] ++ b.addr :: c.addr :: F.map Block.addr) := hF.circle
    have hb : (h.mem lowLayout.base).ptr = b.addr := hcirc.next_eq
    have hc : (h.mem b.addr).ptr = c.addr := hcirc'.next_eq
    have hlt := hF.low c (by simp)
    rw [← hb, hbase, hfree] at hc
    dsimp only at hc
    omega

/-- Two blocks are in use and two have been freed. -/
theorem heap_in_order_two : ∃ h, Reach lowLayout h (bigs 2) ∧ h.obtained < 2 ^ 36 ∧
    ∃ F, FreeList lowLayout h F ∧ Divided h F (bigs 2) := by
  obtain ⟨h, V, hr, hP⟩ := exists_drained (i := 4) (j := 2)
    (P := fun s => decide (s.1.obtained < 2 ^ 36 ∧ s.2 = bigs 2)) (by decide +kernel)
  obtain ⟨hlt, rfl⟩ := of_decide_eq_true hP
  refine ⟨h, hr, hlt, ?_⟩
  rcases (heap_in_order hr hlt).1 with ⟨-, -, he⟩ | hF
  · exact absurd he (by simp [bigs])
  · exact hF

end Xv6.Umalloc
