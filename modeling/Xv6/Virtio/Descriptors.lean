import Mathlib.Logic.Function.Basic
import Xv6.Virtio

/-!
# Descriptors of the virtio disk

What `alloc3_desc`, `free_chain` and the formatting of a request do to the descriptors, and what the
device reads from them.
-/

namespace Xv6.Virtio

open Function (update update_comm update_eq_self update_idem)

variable {d : Disk} {r : Req}
variable {i : Nat}

attribute [local simp] Disk.format Req.chain

/-- The descriptors and the header of a request. -/
structure Formatted (d : Disk) (r : Req) : Prop where
  desc0 : d.desc r.i0 = r.desc0
  desc1 : d.desc r.i1 = r.desc1
  desc2 : d.desc r.i2 = r.desc2
  op : d.ops r.i0 = r.op

theorem Formatted.congr {d' : Disk} (h : Formatted d r)
    (hdesc : ∀ i ∈ r.chain, d'.desc i = d.desc i) (hops : d'.ops r.i0 = d.ops r.i0) :
    Formatted d' r := by
  simp only [Req.chain, List.mem_cons, List.not_mem_nil, or_false, forall_eq_or_imp, forall_eq]
    at hdesc
  obtain ⟨h0, h1, h2⟩ := hdesc
  exact ⟨h0.trans h.desc0, h1.trans h.desc1, h2.trans h.desc2, hops.trans h.op⟩

theorem Req.chain_ne (hr : r.chain.Nodup) : r.i0 ≠ r.i1 ∧ r.i0 ≠ r.i2 ∧ r.i1 ≠ r.i2 := by
  simpa [and_assoc] using hr

theorem Disk.format_formatted (d : Disk) (hr : r.chain.Nodup) : Formatted (d.format r) r := by
  obtain ⟨h01, h02, h12⟩ := Req.chain_ne hr
  refine ⟨?_, ?_, ?_, ?_⟩
  · simp [h01, h02]
  · simp [h12]
  · simp
  · simp

theorem Disk.format_desc (d : Disk) (hi : i ∉ r.chain) : (d.format r).desc i = d.desc i := by
  simp only [Req.chain, List.mem_cons, List.not_mem_nil, or_false, not_or] at hi
  obtain ⟨h0, h1, h2⟩ := hi
  simp [h0, h1, h2]

theorem Req.desc0_next (r : Req) : r.desc0.flags &&& vringDescFNext ≠ 0 := by
  show vringDescFNext &&& vringDescFNext ≠ 0
  decide

theorem Req.desc1_next (r : Req) : r.desc1.flags &&& vringDescFNext ≠ 0 := by
  have hflags : ∀ write : Bool,
      ((if write then 0 else vringDescFWrite) ||| vringDescFNext) &&& vringDescFNext ≠ 0 := by
    decide
  exact hflags r.io.write

theorem Formatted.readChain (h : Formatted d r) : d.readChain r.i0 =
      some { head := r.i0, op := r.op, buf := r.io.b, len := 1024, status := r.i0 } := by
  unfold Disk.readChain
  dsimp only
  rw [h.desc0]
  rw [show r.desc0.next = r.i1 from rfl, h.desc1, show r.desc1.next = r.i2 from rfl, h.desc2]
  show (if r.desc0.flags &&& vringDescFNext ≠ 0 ∧ r.desc1.flags &&& vringDescFNext ≠ 0 then _
    else _) = _
  rw [if_pos ⟨r.desc0_next, r.desc1_next⟩, h.op]
  rfl

theorem Disk.freeDesc_eq (hi : i < num) (hfree : d.free i = false) :
    d.freeDesc i = .ok { d with desc := update d.desc i {}, free := update d.free i true } := by
  unfold Disk.freeDesc
  rw [if_neg (Nat.not_le.mpr hi), if_neg (by simp [hfree])]

theorem Disk.freeChainLoop_next {k : Nat} (hi : i < num) (hfree : d.free i = false)
    (hflags : (d.desc i).flags &&& vringDescFNext ≠ 0) :
    Disk.freeChainLoop (k + 1) d i = Disk.freeChainLoop k
      { d with desc := update d.desc i {}, free := update d.free i true }
      (d.desc i).next := by
  rw [Disk.freeChainLoop, Disk.freeDesc_eq hi hfree]
  show (if _ then _ else _) = _
  rw [if_pos hflags]

theorem Disk.freeChainLoop_last {k : Nat} (hi : i < num) (hfree : d.free i = false)
    (hflags : (d.desc i).flags &&& vringDescFNext = 0) :
    Disk.freeChainLoop (k + 1) d i =
      .ok { d with desc := update d.desc i {}, free := update d.free i true } := by
  rw [Disk.freeChainLoop, Disk.freeDesc_eq hi hfree]
  show (if _ then _ else _) = _
  rw [if_neg (by simpa using hflags)]
  rfl

theorem Formatted.freeChain (h : Formatted d r) (hr : r.chain.Nodup)
    (hchain : ∀ i ∈ r.chain, i < num ∧ d.free i = false) :
    ∃ desc, d.freeChain r.i0 = .ok { d with
        desc := desc
        free := fun i => if i ∈ r.chain then true else d.free i } ∧
      ∀ i, i ∉ r.chain → desc i = d.desc i := by
  obtain ⟨h01, h02, h12⟩ := Req.chain_ne hr
  simp only [Req.chain, List.mem_cons, List.not_mem_nil, or_false, forall_eq_or_imp, forall_eq]
    at hchain
  obtain ⟨⟨hi0, hf0⟩, ⟨hi1, hf1⟩, hi2, hf2⟩ := hchain
  refine ⟨update (update (update d.desc r.i0 {}) r.i1 {}) r.i2 {}, ?_, ?_⟩
  · unfold Disk.freeChain num
    rw [Disk.freeChainLoop_next hi0 hf0 (by rw [h.desc0]; exact r.desc0_next), h.desc0,
      show r.desc0.next = r.i1 from rfl]
    rw [Disk.freeChainLoop_next hi1 (by simp [h01.symm, hf1])
      (by simpa [h01.symm, h.desc1] using r.desc1_next)]
    have hd1 : update d.desc r.i0 {} r.i1 = r.desc1 := by simp [h01.symm, h.desc1]
    dsimp only
    rw [hd1, show r.desc1.next = r.i2 from rfl]
    rw [Disk.freeChainLoop_last hi2 (by simp [h02.symm, h12.symm, hf2])
      (by simp [h02.symm, h12.symm, h.desc2, Req.desc2, vringDescFWrite, vringDescFNext])]
    congr 2
    funext i
    by_cases h0 : i = r.i0
    · subst h0
      simp [h01, h02]
    · by_cases h1 : i = r.i1
      · subst h1
        simp [h12]
      · by_cases h2 : i = r.i2
        · subst h2
          simp
        · simp [h0, h1, h2]
  · intro i hi
    simp only [Req.chain, List.mem_cons, List.not_mem_nil, or_false, not_or] at hi
    simp [hi]

theorem Disk.allocDesc_cases (d : Disk) : (∃ i, i < num ∧ d.free i = true ∧
      d.allocDesc = (some i, { d with free := update d.free i false })) ∨
    d.allocDesc = (none, d) := by
  unfold Disk.allocDesc
  cases hfind : (List.range num).find? d.free with
  | none => exact .inr rfl
  | some i => grind

/-- What `alloc3_desc` does: it takes three free descriptors, or none, in which case it may have
cleared free descriptors. -/
inductive Alloc3 (d : Disk) : Except Panic (Option (Nat × Nat × Nat) × Disk) → Prop where
  | got (i0 i1 i2 : Nat) (hnodup : [i0, i1, i2].Nodup)
      (hfree : ∀ i ∈ [i0, i1, i2], i < num ∧ d.free i = true) :
    Alloc3 d (.ok (some (i0, i1, i2),
      { d with free := fun i => if i ∈ [i0, i1, i2] then false else d.free i }))
  | none (desc : Nat → Desc) (hdesc : ∀ i, d.free i = false → desc i = d.desc i) :
    Alloc3 d (.ok (none, { d with desc := desc }))

theorem update_twice {f : Nat → Bool} (hi : f i = true) : update (update f i false) i true = f := by
  rw [update_idem, ← hi, update_eq_self]

theorem Disk.alloc3Desc_spec (d : Disk) : Alloc3 d d.alloc3Desc := by
  unfold Disk.alloc3Desc
  rcases d.allocDesc_cases with ⟨i0, hi0, hf0, he⟩ | he
  · rw [he]
    dsimp only
    generalize hd1 : ({ d with free := update d.free i0 false } : Disk) = d1
    have hfree1 : d1.free = update d.free i0 false := by rw [← hd1]
    rcases d1.allocDesc_cases with ⟨i1, hi1, hf1, he⟩ | he
    · have h01 : i1 ≠ i0 := by
        rintro rfl
        simp [hfree1] at hf1
      have hf1' : d.free i1 = true := by simpa [hfree1, h01] using hf1
      rw [he]
      dsimp only
      generalize hd2 : ({ d1 with free := update d1.free i1 false } : Disk) = d2
      have hfree2 : d2.free = update (update d.free i0 false) i1 false := by rw [← hd2, ← hfree1]
      rcases d2.allocDesc_cases with ⟨i2, hi2, hf2, he⟩ | he
      · have h12 : i2 ≠ i1 := by
          rintro rfl
          simp [hfree2] at hf2
        have h02 : i2 ≠ i0 := by
          rintro rfl
          simp [hfree2, h01.symm] at hf2
        have hf2' : d.free i2 = true := by simpa [hfree2, h12, h02] using hf2
        rw [he]
        have hall : ({ d2 with free := update d2.free i2 false } : Disk) =
            { d with free := fun i => if i ∈ [i0, i1, i2] then false else d.free i } := by
          rw [hfree2, ← hd2, ← hd1]
          congr 1
          funext i
          by_cases h2 : i = i2
          · simp [h2]
          · grind
        rw [hall]
        apply Alloc3.got
        · simp [h01.symm, h12.symm, h02.symm]
        · simp [hi0, hi1, hi2, hf0, hf1', hf2']
      · -- the first two descriptors are given back
        rw [he]
        dsimp only
        rw [Disk.freeDesc_eq hi0 (by simp [hfree2, h01.symm])]
        dsimp only [Bind.bind, Except.bind, Pure.pure, Except.pure]
        rw [Disk.freeDesc_eq hi1 (by simp [hfree2, h01])]
        have hback : update (update d2.free i0 true) i1 true = d.free := by
          rw [hfree2, update_comm h01, update_twice (by simpa [h01] using hf1'),
            update_twice hf0]
        rw [hback, ← hd2, ← hd1]
        apply Alloc3.none
        intro i hi
        have h0 : i ≠ i0 := by grind
        have h1 : i ≠ i1 := by grind
        simp [h0, h1]
    · rw [he]
      dsimp only
      rw [Disk.freeDesc_eq hi0 (by simp [hfree1])]
      rw [hfree1, update_twice hf0, ← hd1]
      apply Alloc3.none
      intro i hi
      have h0 : i ≠ i0 := by grind
      simp [h0]
  · rw [he]
    exact .none d.desc fun _ _ => rfl

end Xv6.Virtio
