import Xv6.Vm
import Xv6.Proc
import Mathlib.Data.Finset.Card

/-!
# What physical memory represents

An account of every page frame: who owns it, which page-table page of which table it is, and
the leaf entries of each table. `Rep` ties the account to the bytes of memory, to the free
list and to the reference counts. The account is not part of the kernel; the specifications
of `kalloc.c` and `vm.c` say how each function changes it.
-/

namespace Xv6

open ByteMem

/-- A page-table page of a table: the root, the second-level page for index `i`, or the
third-level page for the virtual page numbers from `512 * t` on. -/
inductive Node where
  | root
  | mid (i : Nat)
  | leaf (t : Nat)
  deriving DecidableEq

/-- What holds a page that is neither user memory nor a page-table page. -/
inductive Holder where
  | trapframe (p : Slot)
  /-- kernel code: a pipe, an argument page of `exec`, a kernel stack, ... -/
  | page
  /-- a trapframe saved for an alarm of the process -/
  | backup (p : Slot)
  | fresh
  deriving DecidableEq

/-- An owner of a page frame. Tables are named by the frame of their root. -/
inductive Owner where
  | table (r : Nat) (n : Node)
  | user (r v : Nat)
  | held (x : Holder)
  deriving DecidableEq

def Owner.Data : Owner → Prop
  | .table _ _ => False
  | _ => True

theorem Owner.data_user (r v : Nat) : (Owner.user r v).Data := trivial

theorem Owner.data_held (x : Holder) : (Owner.held x).Data := trivial

/-- The account of physical memory. `map r v` is the leaf entry of table `r` for virtual page
`v`, zero when there is none. -/
structure Account where
  owners : Nat → Finset Owner
  free : List Nat
  node : Nat → Node → Option Nat
  map : Nat → Nat → BitVec 64

def Layout.Managed (L : Layout) (f : Nat) : Prop := L.kend ≤ f * pgsize ∧ f * pgsize < phystop

def link : Option Nat → BitVec 64
  | none => 0
  | some f => pa2pte (f * pgsize) ||| pteV

def Account.entry (g : Account) (r : Nat) : Node → Nat → BitVec 64
  | .root, i => link (g.node r (.mid i))
  | .mid j, i => link (g.node r (.leaf (j * 512 + i)))
  | .leaf t, i => g.map r (t * 512 + i)

def Node.parent : Node → Node
  | .root => .root
  | .mid _ => .root
  | .leaf t => .mid (t / 512)

/-- A free list that starts at address `a` and runs through the given frames. -/
def Chain (m : Mem) : Nat → List Nat → Prop
  | a, [] => a = 0
  | a, f :: fs => a = f * pgsize ∧ Chain m (load64 m (f * pgsize)).toNat fs

def OnlyPage (f : Nat) (m m' : Mem) : Prop := ∀ f', f' ≠ f → Agree m m' (f' * pgsize) pgsize

/-- Memory, free list and counts are those of the account. While a table is taken down, one
entry (`hole`: a frame and an index) may still point to a page that is gone. -/
structure Rep (L : Layout) (hole : Option (Nat × Nat)) (km : Kmem) (g : Account) : Prop where
  refs : ∀ f, km.refs f = (g.owners f).card
  chain : Chain km.mem km.freelist g.free
  nodup : g.free.Nodup
  free : ∀ f, f ∈ g.free ↔ L.Managed f ∧ g.owners f = ∅
  managed : ∀ f, g.owners f ≠ ∅ → L.Managed f
  node : ∀ r n f, g.node r n = some f ↔ .table r n ∈ g.owners f
  sole : ∀ r n f, .table r n ∈ g.owners f → g.owners f = {.table r n}
  root : ∀ r f, g.node r .root = some f → f = r
  parent : ∀ r n, g.node r n ≠ none → g.node r n.parent ≠ none
  midLt : ∀ r i, g.node r (.mid i) ≠ none → i < 512
  entry : ∀ r n f, g.node r n = some f → ∀ i, i < 512 → hole ≠ some (f, i) →
    load64 km.mem (f * pgsize + 8 * i) = g.entry r n i
  absent : ∀ r v, g.node r (.leaf (v / 512)) = none → g.map r v = 0

variable {L : Layout} {hole : Option (Nat × Nat)} {km : Kmem} {g : Account}
variable {f : Nat} {m' : Mem} {n : Node}
variable {a r : Nat} {fs : List Nat} {m : Mem} {o : Owner}

/-! ## Frames and entries -/

theorem Layout.Managed.bounds (h : L.Managed f) : 524288 ≤ f ∧ f < 557056 := by
  obtain ⟨h1, h2⟩ := h
  have h3 := L.kend_ge
  unfold phystop at h2
  unfold kernbase at h2 h3
  rw [pgsize_eq] at h1 h2
  omega

theorem pgsize_pos : 0 < pgsize := by
  rw [pgsize_eq]
  decide

theorem mul_pgsize_inj {a b : Nat} (h : a * pgsize = b * pgsize) : a = b :=
  Nat.eq_of_mul_eq_mul_right pgsize_pos h

theorem phystop_div : phystop / pgsize = 557056 := by
  rw [pgsize_eq]
  rfl

theorem Layout.Managed.ne_zero (h : L.Managed f) : f * pgsize ≠ 0 := by
  have := h.bounds
  rw [pgsize_eq]
  omega

theorem Layout.Managed.small (h : L.Managed f) : f < 2 ^ 44 := by
  have := h.bounds
  omega

theorem getLsbD_pteV (i : Nat) : pteV.getLsbD i = decide (i = 0) := by
  simp only [pteV, BitVec.getLsbD_twoPow, eq_comm]
  by_cases h : i = 0 <;> simp [h]

theorem link_none : link none = 0 := rfl

theorem hasFlag_link_v (f : Nat) : hasFlag (link (some f)) pteV = true := by
  rw [hasFlag_v, link, BitVec.getLsbD_or, getLsbD_pteV]
  simp

theorem pte2pa_link (hf : f < 2 ^ 44) : pte2pa (link (some f)) = f * pgsize := by
  rw [pte2pa_eq, link]
  rw [ppn_congr (pa2pte (f * pgsize)), ppn_pa2pte hf]
  intro i h1 _
  rw [BitVec.getLsbD_or, getLsbD_pteV]
  simp [show i ≠ 0 by omega]

theorem hasFlag_zero (w : BitVec 64) : hasFlag 0 w = false := by simp [hasFlag]

/-! ## The free list -/

theorem Chain.congr :
    ∀ {a : Nat}, (∀ f ∈ fs, Agree m m' (f * pgsize) 8) → Chain m a fs → Chain m' a fs := by
  induction fs with
  | nil =>
    intro a _ h
    exact h
  | cons f _ ih =>
    intro a hag h
    refine ⟨h.1, ?_⟩
    rw [load64_congr (hag f (by simp))]
    exact ih (fun f' hf' => hag f' (by simp [hf'])) h.2

theorem Chain.onlyPage (h : Chain m a fs) (hm : OnlyPage f m m') (hf : f ∉ fs) : Chain m' a fs := by
  refine h.congr ?_
  intro f' hf'
  refine (hm f' ?_).sub (Nat.le_refl _) (by simp [pgsize_eq])
  rintro rfl
  exact hf hf'

theorem Chain.head_lt (h : Chain m a fs) (hfs : ∀ f ∈ fs, L.Managed f) : a < 2 ^ 64 := by
  cases fs with
  | nil =>
    have : a = 0 := h
    omega
  | cons f =>
    have hb := (hfs f List.mem_cons_self).bounds
    rw [h.1, pgsize_eq]
    omega

theorem Rep.freelist_lt (h : Rep L hole km g) : km.freelist < 2 ^ 64 :=
  h.chain.head_lt fun f hf => ((h.free f).mp hf).1

/-- The frames on the free list, which ends at the null pointer. -/
def Kmem.Frees (km : Kmem) (F : List Nat) : Prop := Chain km.mem km.freelist F ∧ 0 ∉ F

theorem Chain.unique {F F' : List Nat} (h : Chain m a F) (h' : Chain m a F')
    (h0 : 0 ∉ F) (h0' : 0 ∉ F') : F = F' := by
  have hend : ∀ {f : Nat} {fs : List Nat}, 0 ∉ f :: fs → ¬ 0 = f * pgsize := by
    intro f fs hf he
    apply hf
    rw [show 0 = f from mul_pgsize_inj (by rwa [Nat.zero_mul])]
    exact List.mem_cons_self
  induction F generalizing a F' with
  | nil =>
    obtain rfl : a = 0 := h
    cases F' with
    | nil => rfl
    | cons => exact absurd h'.1 (hend h0')
  | cons f F ih =>
    cases F' with
    | nil =>
      obtain rfl : a = 0 := h'
      exact absurd h.1 (hend h0)
    | cons f' F' =>
      obtain rfl : f = f' := mul_pgsize_inj (h.1.symm.trans h'.1)
      rw [ih h.2 h'.2 (fun hm => h0 (List.mem_cons_of_mem _ hm))
        fun hm => h0' (List.mem_cons_of_mem _ hm)]

theorem Rep.frees (h : Rep L hole km g) : km.Frees g.free := by
  refine ⟨h.chain, fun hm => ?_⟩
  exact ((h.free 0).mp hm).1.ne_zero (Nat.zero_mul _)

theorem Kmem.Frees.eq {F : List Nat} (hF : km.Frees F) (h : Rep L hole km g) :
    F = g.free :=
  hF.1.unique h.chain hF.2 h.frees.2

/-! ## Pages do not overlap -/

theorem OnlyPage.refl (f : Nat) (m : Mem) : OnlyPage f m m := fun _ _ => Agree.refl _ _ _

theorem OnlyPage.trans {m'' : Mem} (h : OnlyPage f m m') (h' : OnlyPage f m' m'') :
    OnlyPage f m m'' :=
  fun f' hf' => (h f' hf').trans (h' f' hf')

theorem page_disjoint {f' : Nat} (h : f' ≠ f) :
    f' * pgsize + pgsize ≤ f * pgsize ∨ f * pgsize + pgsize ≤ f' * pgsize := by
  rw [pgsize_eq]
  omega

theorem onlyPage_fill (m : Mem) (f : Nat) (v : Byte) :
    OnlyPage f m (fill m (f * pgsize) v pgsize) :=
  fun _ h => fill_agree m v (page_disjoint h)

theorem entry_in_page {i : Nat} (hi : i < 512) : 8 * i + 8 ≤ pgsize := by
  rw [pgsize_eq]
  omega

theorem onlyPage_store64 (m : Mem) (f : Nat) {i : Nat} (hi : i < 512) (w : BitVec 64) :
    OnlyPage f m (store64 m (f * pgsize + 8 * i) w) := by
  intro f' h
  have hd := page_disjoint h
  have he := entry_in_page hi
  exact store64_agree m w (by omega)

theorem onlyPage_store64_head (m : Mem) (f : Nat) (w : BitVec 64) :
    OnlyPage f m (store64 m (f * pgsize) w) := by
  simpa using onlyPage_store64 m f (show 0 < 512 by decide) w

theorem onlyPage_blit (m : Mem) (f : Nat) {n : Nat} (src : Nat → Byte) (h : a + n ≤ pgsize) :
    OnlyPage f m (blit m (f * pgsize + a) src n) := by
  intro f' hf
  have := page_disjoint hf
  exact blit_agree m src (by omega)

theorem onlyPage_move (m : Mem) (f src : Nat) : OnlyPage f m (move m (f * pgsize) src pgsize) :=
  fun _ h => move_agree m src (page_disjoint h)

/-! ## Consequences -/

theorem Rep.managed_of_mem (h : Rep L hole km g) (ho : o ∈ g.owners f) : L.Managed f :=
  h.managed f (Finset.ne_empty_of_mem ho)

section

variable (h : Rep L hole km g)

include h

theorem Rep.managed_of_node (hn : g.node r n = some f) : L.Managed f :=
  h.managed_of_mem ((h.node r n f).mp hn)

theorem Rep.node_inj {r' : Nat} {n' : Node} (hn : g.node r n = some f)
    (hn' : g.node r' n' = some f) : r = r' ∧ n = n' := by
  have h1 := h.sole r n f ((h.node r n f).mp hn)
  have h2 := (h.node r' n' f).mp hn'
  rw [h1, Finset.mem_singleton] at h2
  injection h2 with hr hn
  exact ⟨hr.symm, hn.symm⟩

theorem Rep.not_node (ho : o ∈ g.owners f) (hd : o.Data) : g.node r n ≠ some f := by
  intro hn
  have h1 := h.sole r n f ((h.node r n f).mp hn)
  rw [h1, Finset.mem_singleton] at ho
  rw [ho] at hd
  exact hd

theorem Rep.not_node_of_empty (ho : g.owners f = ∅) : g.node r n ≠ some f := by
  intro hn
  have h1 := (h.node r n f).mp hn
  rw [ho] at h1
  exact absurd h1 (Finset.notMem_empty _)

theorem Rep.congr (hfree : ∀ f ∈ g.free, Agree km.mem m' (f * pgsize) pgsize)
    (hnode : ∀ r n f, g.node r n = some f → Agree km.mem m' (f * pgsize) pgsize) :
    Rep L hole { km with mem := m' } g := by
  refine { h with chain := ?_, entry := ?_ }
  · exact h.chain.congr fun f hf => (hfree f hf).sub (Nat.le_refl _) (by simp [pgsize_eq])
  · intro r n f hn i hi hh
    rw [← h.entry r n f hn i hi hh]
    have he := entry_in_page hi
    exact load64_congr ((hnode r n f hn).sub (by omega) (by omega))

theorem Rep.writeData (ho : o ∈ g.owners f) (hd : o.Data)
    (hm : OnlyPage f km.mem m') : Rep L hole { km with mem := m' } g := by
  refine h.congr ?_ ?_
  · intro f' hf'
    refine hm f' ?_
    rintro rfl
    have := ((h.free f').mp hf').2
    rw [this] at ho
    exact absurd ho (Finset.notMem_empty _)
  · intro r n f' hn
    refine hm f' ?_
    rintro rfl
    exact h.not_node ho hd hn

end

end Xv6
