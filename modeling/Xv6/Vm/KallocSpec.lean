import Xv6.Vm.Rep

/-!
# The allocator keeps the account

`kalloc`, `kfree` and `incRef` as changes to the owners of one frame, and the account that
`kinit` sets up. The panics of `kalloc.c` do not occur on calls that follow the account.
-/

namespace Xv6

open ByteMem
open Function (update)

variable {L : Layout} {hole : Option (Nat × Nat)} {km : Kmem} {g : Account}

abbrev Total {α : Type} (m : Vm α) (km : Kmem) (Q : α → Kmem → Prop) : Prop :=
  Wp (fun _ => False) m km Q

section Primitives

variable {E : Panic → Prop} {a n : Nat}
variable {Q : Unit → Kmem → Prop} {f : Nat} {fs : List Nat}

theorem Wp.loadWord {Q : BitVec 64 → Kmem → Prop} (h : Q (load64 km.mem a) km) :
    Wp E (loadWord a) km Q :=
  Wp.of_eq rfl h

theorem Wp.storeWord {w : BitVec 64} (h : Q () { km with mem := store64 km.mem a w }) :
    Wp E (storeWord a w) km Q :=
  Wp.of_eq rfl h

theorem Wp.memset {v : Byte} (h : Q () { km with mem := fill km.mem a v n }) :
    Wp E (memset a v n) km Q :=
  Wp.of_eq rfl h

theorem Wp.memmove {src : Nat} (h : Q () { km with mem := move km.mem a src n }) :
    Wp E (memmove a src n) km Q :=
  Wp.of_eq rfl h

theorem Wp.memput {src : Nat → Byte} (h : Q () { km with mem := blit km.mem a src n }) :
    Wp E (memput a src n) km Q :=
  Wp.of_eq rfl h

end Primitives

def Account.setOwners (g : Account) (f : Nat) (S : Finset Owner) : Account :=
  { g with owners := Function.update g.owners f S }

/-- Frame `f` with the owners `S`, and a new free list. -/
def Account.refree (g : Account) (f : Nat) (S : Finset Owner) (fs : List Nat) : Account :=
  { g with owners := Function.update g.owners f S, free := fs }

attribute [local simp] Account.refree

variable {S : Finset Owner} {o : Owner}

theorem Rep.refree (h : Rep L hole km g) {km' : Kmem} (hS : ∀ o ∈ S, o.Data)
    (hold : ∀ o ∈ g.owners f, o.Data) (hm : L.Managed f)
    (hrefs : km'.refs = update km.refs f S.card) (hchain : Chain km'.mem km'.freelist fs)
    (hnodup : fs.Nodup) (hfree : ∀ f', f' ∈ fs ↔ f' = f ∧ S = ∅ ∨ f' ≠ f ∧ f' ∈ g.free)
    (hmem : OnlyPage f km.mem km'.mem) : Rep L hole km' (g.refree f S fs) := by
  have hnode : ∀ r n, g.node r n ≠ some f := by
    intro r n hn
    exact hold _ ((h.node r n f).mp hn)
  have htable : ∀ r n, Owner.table r n ∉ S := fun r n ht => hS _ ht
  refine ⟨?_, hchain, hnodup, ?_, ?_, ?_, ?_, h.root, h.parent, h.midLt, ?_, h.absent⟩
  · intro f'
    rw [hrefs]
    by_cases hf : f' = f
    · subst hf; simp
    · simp [hf, h.refs f']
  · intro f'
    rw [show (g.refree f S fs).free = fs from rfl, hfree f']
    by_cases hf : f' = f
    · subst hf; simp [hm]
    · simp [hf, h.free f']
  · intro f' ho
    by_cases hf : f' = f
    · subst hf; exact hm
    · exact h.managed f' (by simpa [hf] using ho)
  · intro r n f'
    by_cases hf : f' = f
    · subst hf
      simp [htable r n, hnode r n]
    · simpa [hf] using h.node r n f'
  · intro r n f' ho
    by_cases hf : f' = f
    · subst hf
      simp [htable r n] at ho
    · simpa [hf] using h.sole r n f' (by simpa [hf] using ho)
  · intro r n f' hn i hi hh
    have hf : f' ≠ f := by
      rintro rfl
      exact hnode r n hn
    have he := entry_in_page hi
    have hentry : (g.refree f S fs).entry r n i = g.entry r n i := by cases n <;> rfl
    rw [hentry, ← h.entry r n f' hn i hi hh]
    exact load64_congr ((hmem f' hf).sub (by omega) (by omega))

theorem Rep.freelist_cons (h : Rep L hole km g) (hfree : g.free = f :: fs) :
    km.freelist = f * pgsize ∧ L.Managed f ∧ g.owners f = ∅ ∧ f ∉ fs := by
  have hc := h.chain
  have hnd := h.nodup
  rw [hfree] at hc hnd
  have hf := (h.free f).mp (by simp [hfree])
  exact ⟨hc.1, hf.1, hf.2, (List.nodup_cons.mp hnd).1⟩

theorem mul_pgsize_div (f : Nat) : f * pgsize / pgsize = f :=
  Nat.mul_div_cancel f (by rw [pgsize_eq]; decide)

theorem mul_pgsize_mod (f : Nat) : f * pgsize % pgsize = 0 := Nat.mul_mod_left f pgsize

theorem Rep.freelist_ne_iff (h : Rep L hole km g) : km.freelist ≠ 0 ↔ g.free ≠ [] := by
  have hc := h.chain
  cases hfs : g.free with
  | nil =>
    rw [hfs] at hc
    exact iff_of_false (fun hne => hne hc) (fun hne => hne rfl)
  | cons f fs =>
    rw [hfs] at hc
    refine iff_of_true ?_ (List.cons_ne_nil f fs)
    rw [hc.1]
    apply ((h.free f).mp _).1.ne_zero
    rw [hfs]
    exact List.mem_cons_self

theorem Rep.freelist_eq_zero (h : Rep L hole km g) : km.freelist = 0 ↔ g.free = [] :=
  not_iff_not.mp h.freelist_ne_iff

theorem kalloc_spec (h : Rep L hole km g) : Total kalloc km fun pa km' =>
      (g.free = [] ∧ pa = 0 ∧ km' = km) ∨
      ∃ f fs, g.free = f :: fs ∧ pa = f * pgsize ∧ L.Managed f ∧ g.owners f = ∅ ∧
        Rep L hole km' (g.refree f {.held .fresh} fs) ∧ OnlyPage f km.mem km'.mem := by
  unfold Total Wp kalloc
  cases hfree : g.free with
  | nil =>
    have hc := h.chain
    rw [hfree] at hc
    rw [if_pos (show km.freelist = 0 from hc)]
    exact .inl ⟨rfl, rfl, rfl⟩
  | cons f fs =>
    obtain ⟨hhead, hm, ho, hnot⟩ := h.freelist_cons hfree
    have hrefs : km.refs f = 0 := by rw [h.refs f, ho]; rfl
    rw [hhead, if_neg hm.ne_zero, mul_pgsize_div, if_neg (by simpa using hrefs)]
    have hmem := onlyPage_fill km.mem f 5
    refine .inr ⟨f, fs, rfl, rfl, hm, ho, ?_, hmem⟩
    have hc := h.chain
    rw [hfree] at hc
    refine h.refree (by simp [Owner.Data]) (by simp [ho]) hm (by simp) ?_ ?_ ?_ hmem
    · exact hc.2.onlyPage hmem hnot
    · grind [h.nodup]
    · intro f'
      simp only [Finset.singleton_ne_empty, and_false, false_or]
      grind

/-- The free list after owner `o` has let go of frame `f`. -/
def Account.freeAfter (g : Account) (f : Nat) (o : Owner) : List Nat :=
  if (g.owners f).erase o = ∅ then f :: g.free else g.free

def Account.release (g : Account) (f : Nat) (o : Owner) : Account :=
  g.refree f ((g.owners f).erase o) (g.freeAfter f o)

theorem kfree_guard (hm : L.Managed f) :
    ¬ (f * pgsize % pgsize ≠ 0 ∨ f * pgsize < L.kend ∨ f * pgsize ≥ phystop) := by
  have h1 := mul_pgsize_mod f
  have h2 := hm.1
  have h3 := hm.2
  omega

theorem kfree_last (hm : L.Managed f) (hrefs : km.refs f = 1) (hchain : Chain km.mem km.freelist fs)
    (hlt : km.freelist < 2 ^ 64) (hnot : f ∉ fs) :
    Total (kfree L (f * pgsize)) km fun _ km' => km'.refs = update km.refs f 0 ∧
      Chain km'.mem km'.freelist (f :: fs) ∧ OnlyPage f km.mem km'.mem := by
  have hmem : OnlyPage f km.mem
      (store64 (fill km.mem (f * pgsize) 1 pgsize) (f * pgsize) (BitVec.ofNat 64 km.freelist)) :=
    (onlyPage_fill km.mem f 1).trans (onlyPage_store64_head _ f _)
  unfold Total Wp kfree
  rw [if_neg (kfree_guard hm), mul_pgsize_div, if_neg (by omega), if_pos (by omega)]
  refine ⟨by simp [hrefs], ⟨rfl, ?_⟩, hmem⟩
  rw [load64_store64, BitVec.toNat_ofNat, Nat.mod_eq_of_lt hlt]
  exact hchain.onlyPage hmem hnot

theorem kfree_spec (h : Rep L hole km g) (ho : o ∈ g.owners f) (hd : o.Data) :
    Total (kfree L (f * pgsize)) km fun _ km' =>
      Rep L hole km' (g.release f o) ∧ OnlyPage f km.mem km'.mem ∧
        ((g.owners f).erase o ≠ ∅ → km'.mem = km.mem) := by
  have hm := h.managed_of_mem ho
  have hcard : km.refs f - 1 = ((g.owners f).erase o).card := by
    grind [h.refs, Finset.card_erase_of_mem]
  have hold : ∀ o' ∈ g.owners f, o'.Data := by
    intro o' ho'
    cases o' with
    | table r n =>
      rw [h.sole r n f ho', Finset.mem_singleton] at ho
      rw [ho] at hd
      exact hd
    | user | held => trivial
  have hS : ∀ o' ∈ (g.owners f).erase o, o'.Data :=
    fun o' ho' => hold o' (Finset.mem_of_mem_erase ho')
  have hnotfree : f ∉ g.free := by grind [h.free]
  by_cases hlast : (g.owners f).erase o = ∅
  · rw [hlast, Finset.card_empty] at hcard
    refine (kfree_last hm (by omega) h.chain h.freelist_lt hnotfree).mono ?_
    rintro _ km' ⟨hrefs, hchain, hmem⟩
    refine ⟨h.refree hS hold hm (by rw [hrefs, hlast]; rfl) ?_ ?_ ?_ hmem, hmem,
      fun hne => absurd hlast hne⟩
    · rwa [Account.freeAfter, if_pos hlast]
    · grind [h.nodup, Account.freeAfter]
    · intro f'
      rw [Account.freeAfter, if_pos hlast]
      by_cases hf : f' = f
      · simp [hf, hlast]
      · simp [hf]
  · have hne : km.refs f - 1 ≠ 0 := by
      rw [hcard]
      exact_mod_cast (Finset.card_pos.mpr (Finset.nonempty_iff_ne_empty.mpr hlast)).ne'
    unfold Total Wp kfree
    rw [if_neg (kfree_guard hm), mul_pgsize_div, if_neg (by omega), if_neg hne]
    refine ⟨?_, OnlyPage.refl _ _, fun _ => rfl⟩
    refine h.refree hS hold hm (by rw [hcard]) ?_ ?_ ?_ (OnlyPage.refl _ _)
    · rw [Account.freeAfter, if_neg hlast]
      exact h.chain
    · rw [Account.freeAfter, if_neg hlast]
      exact h.nodup
    · intro f'
      rw [Account.freeAfter, if_neg hlast]
      by_cases hf : f' = f
      · simp [hf, hlast, hnotfree]
      · simp [hf]

theorem Rep.setOwners (h : Rep L hole km g) (hne : S ≠ ∅) (hS : ∀ o ∈ S, o.Data)
    (hold : ∀ o ∈ g.owners f, o.Data) (hused : g.owners f ≠ ∅) :
    Rep L hole { km with refs := update km.refs f S.card } (g.setOwners f S) := by
  have hnotfree : f ∉ g.free := fun hf => hused ((h.free f).mp hf).2
  refine h.refree hS hold (h.managed f hused) rfl h.chain h.nodup ?_ (OnlyPage.refl _ _)
  intro f'
  by_cases hf : f' = f
  · simp [hf, hne, hnotfree]
  · simp [hf]

theorem Rep.rename (h : Rep L hole km g) (o' : Owner) (ho : g.owners f = {o}) (hd : o.Data)
    (hd' : o'.Data) : Rep L hole km (g.setOwners f {o'}) := by
  have hr := h.setOwners (f := f) (S := {o'}) (by simp) (by simpa using hd')
    (by simpa [ho] using hd) (by simp [ho])
  have hsame : update km.refs f (({o'} : Finset Owner).card : Int) = km.refs := by
    refine Function.update_eq_self_iff.mpr ?_
    rw [h.refs f, ho]
    rfl
  rwa [hsame] at hr

theorem incRef_spec (h : Rep L hole km g) {o' : Owner} (ho : o ∈ g.owners f) (hd : o.Data)
    (ho' : o' ∉ g.owners f) (hd' : o'.Data) :
    Total (incRef (f * pgsize)) km fun _ km' =>
      Rep L hole km' (g.setOwners f (insert o' (g.owners f))) ∧ km'.mem = km.mem := by
  have hold : ∀ o'' ∈ g.owners f, o''.Data := by
    intro o'' ho''
    cases o'' with
    | table r n =>
      rw [h.sole r n f ho'', Finset.mem_singleton] at ho
      rw [ho] at hd
      exact hd
    | user | held => trivial
  have hlt := (h.managed_of_mem ho).bounds.2
  unfold Total Wp incRef
  rw [mul_pgsize_div, if_neg (by rw [phystop_div]; omega)]
  have hr := h.setOwners (f := f) (S := insert o' (g.owners f)) (Finset.insert_ne_empty _ _)
    (by simpa [hd'] using hold) hold (Finset.ne_empty_of_mem ho)
  rw [Finset.card_insert_of_notMem ho', Int.natCast_add, Int.natCast_one, ← h.refs f] at hr
  exact ⟨hr, rfl⟩

/-! ## Start of the allocator -/

def Layout.first (L : Layout) : Nat := pgroundup L.kend / pgsize

theorem Layout.managed_iff (L : Layout) (f : Nat) :
    L.Managed f ↔ L.first ≤ f ∧ f < phystop / pgsize := by
  have h2 := L.kend_le
  unfold Layout.Managed Layout.first pgroundup
  unfold phystop kernbase at *
  rw [pgsize_eq]
  omega

/-- The pages freed by the first rounds of `freerange`, last one first. -/
def freed (lo n : Nat) : List Nat := (List.range' lo n).reverse

theorem mem_freed {lo n : Nat} : f ∈ freed lo n ↔ lo ≤ f ∧ f < lo + n := by
  simp [freed, List.mem_range'_1]

theorem freed_succ (lo n : Nat) : freed lo (n + 1) = (lo + n) :: freed lo n := by
  simp [freed, List.range'_concat]

theorem freed_nodup (lo n : Nat) : (freed lo n).Nodup := by
  simpa [freed] using List.nodup_range' (s := lo) (n := n)

def Account.initial (L : Layout) : Account where
  owners _ := ∅
  free := freed L.first (phystop / pgsize - L.first)
  node _ _ := none
  map _ _ := 0

theorem freePage_spec (hm : L.Managed f) (hnot : f ∉ fs) (hbound : ∀ f' ∈ fs, L.Managed f')
    (hrefs : ∀ f', km.refs f' = 0) (hchain : Chain km.mem km.freelist fs) :
    Total (freePage L f) km fun _ km' =>
      (∀ f', km'.refs f' = 0) ∧ Chain km'.mem km'.freelist (f :: fs) := by
  refine .bind (.modify ?_)
  refine Wp.mono (kfree_last hm ?_ ?_ (hchain.head_lt hbound) hnot) ?_
  · simp [hrefs]
  · exact hchain
  rintro _ km' ⟨hrefs', hchain', -⟩
  refine ⟨fun f' => ?_, hchain'⟩
  rw [hrefs']
  by_cases hf : f' = f
  · simp [hf]
  · simp [hf, hrefs f']

theorem kinit_spec (hlist : km.freelist = 0) (hrefs : ∀ f, km.refs f = 0) :
    Total (kinit L) km fun _ km' => Rep L none km' (Account.initial L) := by
  have hloop := Wp.forRange (E := fun _ : Panic => False) (freePage L)
    (fun i s => (∀ f, s.refs f = 0) ∧ Chain s.mem s.freelist (freed L.first (i - L.first)))
    (phystop / pgsize - L.first) L.first km
    (by
      intro i s h1 h2 hI
      have hi : i + 1 - L.first = i - L.first + 1 := by omega
      have hcur : L.first + (i - L.first) = i := by omega
      rw [hi, freed_succ, hcur]
      refine freePage_spec ((L.managed_iff i).mpr ⟨h1, by omega⟩) ?_ ?_ hI.1 hI.2
      · rw [mem_freed]
        omega
      · intro f' hf'
        rw [mem_freed] at hf'
        exact (L.managed_iff f').mpr ⟨hf'.1, by omega⟩)
    ⟨hrefs, by rw [Nat.sub_self]; exact hlist⟩
  refine hloop.mono ?_
  intro _ km' hI
  have hend : L.first + (phystop / pgsize - L.first) - L.first = phystop / pgsize - L.first := by
    omega
  rw [hend] at hI
  refine ⟨fun f => by simp [hI.1 f, Account.initial], hI.2, freed_nodup _ _, ?_, ?_, ?_, ?_, ?_,
    ?_, ?_, ?_, ?_⟩
  · intro f
    rw [L.managed_iff]
    simp only [Account.initial, mem_freed, and_true]
    omega
  all_goals simp [Account.initial]

end Xv6
