import Xv6.Kernel.FailedFork

/-!
# What `waitx` delivers

`sys_waitx` copies out three times: the exit status before the child is freed, the two times after.
The times are copied on every path, also when `waitx` has stored none.
-/

namespace Xv6

open ByteMem

variable {L : Layout} {b : Sched.Build} {steps : List Step} {k k' k'' : Kernel} {km km' : Kmem}
  {g g' : Account} {p c : Slot} {r v f dstva : Nat} {src : Nat → Byte} {ret : Int}
variable {E : Panic → Prop}
variable {va : Nat} {x : Int}

/-! ## User memory of a process -/

def Kernel.view (k : Kernel) (p : Slot) (va : Nat) : Option Byte :=
  userByte k.km.mem (k.proc p).pagetable va

def Kernel.canWrite (k : Kernel) (p : Slot) (va : Nat) : Bool :=
  writable k.km.mem (k.proc p).pagetable va

/-- What the system call of `p` has returned, if it has. -/
def Kernel.returned (k : Kernel) (p : Slot) : Option (BitVec 64) :=
  if (k.user p).mode = .leave then
    some (load64 k.km.mem ((k.proc p).trapframe + tfArg 0))
  else
    none

theorem KInv.view_congr (hk : KInv L k g) (hk' : KInv L k' g') (hp : k.Live p)
    (hhold : (k'.proc p).hold = (k.proc p).hold)
    (hmap : ∀ r, (k.proc p).hold.pagetable = r * pgsize → g'.map r = g.map r)
    (hmem : ∀ r v, (k.proc p).hold.pagetable = r * pgsize → g.UserMapped r v →
      Agree k.km.mem k'.km.mem (ppn (g.map r v) * pgsize) pgsize) (va : Nat) :
    k'.view p va = k.view p va ∧ k'.canWrite p va = k.canWrite p va := by
  obtain ⟨r, t, hr, -, hi⟩ := hk.user hp
  obtain ⟨r', t', hr', -, hi'⟩ := hk'.user (hp.congr hhold)
  obtain rfl : r' = r := by
    apply mul_pgsize_inj
    rw [← hr', ← hr]
    exact congrArg Hold.pagetable hhold
  rw [Kernel.view, Kernel.view, Kernel.canWrite, Kernel.canWrite, hr, hr']
  exact user_congr hk.sound.rep (hk.sound.table _ hi.live) hk'.sound.rep
    (hk'.sound.table _ hi'.live) (hmap _ hr)
    (fun v hu => hmem _ v hr hu) va

theorem Act.frame_view (hk : KInv L k g) (ha : Act L (.frame c) k g k' g')
    (hp : k.Live p) (va : Nat) :
    k'.view p va = k.view p va ∧ k'.canWrite p va = k.canWrite p va := by
  have hk' := ha.inv hk
  cases ha with
  | frame hc ht hm _ hsame =>
    refine hk.view_congr hk' hp (hsame.hold p) (fun _ _ => rfl) ?_ va
    intro r v hr hu
    have hlive := hk.live_root hp hr
    apply hm
    rintro rfl
    have howner := (hk.sound.table r hlive).owner_self hu.1 hu.2.1
    have := hk.sound.held _ _ _ (hk.trapframe_mem hc ht) howner (Owner.data_user _ _)
    cases this

theorem Act.destroy_view (hk : KInv L k g) (ha : Act L (.destroy c) k g k' g') (hne : p ≠ c)
    (hp : k.Live p) (va : Nat) :
    k'.view p va = k.view p va ∧ k'.canWrite p va = k.canWrite p va := by
  have hk' := ha.inv hk
  cases ha with
  | destroy hc hproc _ _ hother howner hmem honly =>
    have hroot : ∀ r, (k.proc p).hold.pagetable = r * pgsize → r ≠ _ :=
      fun r hr => hk.root_ne hp hc hne hr hproc.pagetable
    refine hk.view_congr hk' hp (honly.other p hne) (fun r hr => (hother r (hroot r hr)).2) ?_ va
    intro r v hr hu
    have hlive := hk.live_root hp hr
    apply hmem _ _ (Owner.data_user r v)
    rw [howner _ _ (Owner.data_user r v)]
    refine ⟨(hk.sound.table r hlive).owner_self hu.1 hu.2.1, by simp, ?_⟩
    intro v' he
    injection he with he
    exact hroot r hr he

/-! ## Free pages -/

def Kernel.Spare (L : Layout) (k : Kernel) (f : Nat) : Prop := L.Managed f ∧ k.km.refs f = 0

theorem Rep.spare_iff (h : Rep L none km g) : km.refs f = 0 ↔ g.owners f = ∅ := by
  rw [h.refs f, Int.natCast_eq_zero, Finset.card_eq_zero]

theorem Kernel.Spare.freelist_ne (hs : k.Spare L f) (h : Rep L none k.km g) :
    k.km.freelist ≠ 0 := by
  have hmem : f ∈ g.free := (h.free f).mpr ⟨hs.1, h.spare_iff.mp hs.2⟩
  have hchain := h.chain
  cases hfree : g.free with
  | nil =>
    rw [hfree] at hmem
    cases hmem
  | cons f' =>
    rw [hfree] at hchain
    rw [hchain.1]
    have hmem' : f' ∈ g.free := by simp [hfree]
    exact ((h.free f').mp hmem').1.ne_zero

theorem Replace.spare (h : Rep L none km g) (h' : Rep L none km' g') (he : Replace r v km g km' g')
    (hf : g.owners f = ∅) (hne : f ≠ ppn (g'.map r v)) : g'.owners f = ∅ := by
  rw [Finset.eq_empty_iff_forall_notMem] at hf ⊢
  intro o ho
  by_cases hd : o.Data
  · grind [he.owner]
  · cases o with
    | table =>
      rw [h.table_iff h' (by rw [he.node])] at ho
      exact hf _ ho
    | user | held => exact hd trivial

theorem Act.destroy_spare (hk : KInv L k g) (ha : Act L (.destroy c) k g k' g') :
    ∃ f1 f2, f1 ≠ f2 ∧ k'.Spare L f1 ∧ k'.Spare L f2 := by
  cases ha with
  | @destroy _ _ _ _ _ r t hc hproc hs hr hother howner _ _ =>
    have hroot : Owner.table r .root ∈ g.owners r := (hk.sound.rep.node _ _ _).mp hproc.image.live
    have hheld : .held (.trapframe c) ∈ g.owners t := (hproc.holds t).mpr rfl
    -- no page-table page of another table is in a frame whose owner is gone
    have hgone : ∀ f o, g.owners f = {o} → (o.Data → o = .held (.trapframe c)) →
        (∀ r' n, o = .table r' n → r' = r) → g'.owners f = ∅ := by
      intro f o hone hdata htable
      rw [Finset.eq_empty_iff_forall_notMem]
      intro o' ho'
      by_cases hd : o'.Data
      · grind
      · cases o' with
        | table r' n =>
          have hn := (hs.rep.node r' n f).mpr ho'
          have hr' : r' ≠ r := by
            rintro rfl
            rw [(hs.gone hr).1 n] at hn
            cases hn
          rw [(hother r' hr').1, hk.sound.rep.node, hone, Finset.mem_singleton] at hn
          exact hr' (htable r' n hn.symm)
        | user | held => exact hd trivial
    refine ⟨t, r, ?_, ⟨hk.sound.rep.managed_of_mem hheld, ?_⟩,
      hk.sound.rep.managed_of_mem hroot, ?_⟩
    · grind [hk.sound.rep.sole]
    · rw [hs.rep.spare_iff]
      apply hgone t _ (hk.sound.held_eq hheld) (fun _ => rfl)
      intro r' n he
      cases he
    · rw [hs.rep.spare_iff]
      apply hgone r _ (hk.sound.rep.sole _ _ _ hroot) (fun hd => hd.elim)
      intro r' n he
      injection he with he
      exact he.symm

/-! ## The copies -/

/-- Four bytes can be stored at `va`: not in page `0`, in a page that may be written first, and in
pages that are open to user code. -/
def Kernel.Fits (k : Kernel) (p : Slot) (va : Nat) : Prop :=
  pgsize ≤ va ∧ k.canWrite p va = true ∧ ∀ i < 4, (k.view p (va + i)).isSome = true

instance (k : Kernel) (p : Slot) (va : Nat) : Decidable (k.Fits p va) :=
  inferInstanceAs (Decidable (_ ∧ _))

def Kernel.Writes (k : Kernel) (p : Slot) (va : Nat) : Prop :=
  pgsize ≤ va ∧ k.km.freelist ≠ 0 ∧ k.canWrite p va = true

/-- What a call of `copyout` to the four bytes at `dstva` of process `p` does. -/
structure Put (L : Layout) (p : Slot) (dstva : Nat) (src : Nat → Byte) (k : Kernel) (ret : Int)
    (k' : Kernel) : Prop where
  proc : k'.proc = k.proc
  result : ret = 0 ∨ ret = -1
  zero : ret = 0 ↔ k.Fits p dstva ∧ k.km.freelist ≠ 0
  bytes : ret = 0 → ∀ va, k'.view p va =
    if dstva ≤ va ∧ va < dstva + 4 then some (src (va - dstva)) else k.view p va
  each : ∀ va, k'.view p va = k.view p va ∨
    dstva ≤ va ∧ va < dstva + 4 ∧ k'.view p va = some (src (va - dstva))
  first : k.Writes p dstva → k'.view p dstva = some (src 0)
  canWrite : ∀ va, k'.canWrite p va = k.canWrite p va
  spare : ∀ f₁ f₂, f₁ ≠ f₂ → k.Spare L f₁ → k.Spare L f₂ → k'.Spare L f₁ ∨ k'.Spare L f₂

theorem accessible_eq (m : Mem) (pagetable va : Nat) :
    accessible m pagetable va = (userByte m pagetable va).isSome := by
  unfold userByte
  split <;> simp [*]

theorem Replace.writable (h : Rep L none km g) (ht : Table g r)
    (hu : g.UserMapped r v ∧ ((g.map r v).getLsbD 2 = true ∨ (g.map r v).getLsbD 8 = true))
    (h' : Rep L none km' g') (he : Replace r v km g km' g') (va : Nat) :
    Xv6.writable km'.mem (r * pgsize) va = Xv6.writable km.mem (r * pgsize) va := by
  have ht' := ht.replace hu.1.1 he
  rw [Bool.eq_iff_iff, writable_iff h ht, writable_iff h' ht', (he.user_bytes h ht hu.1 h' va).1]
  apply and_congr_right
  intro _
  by_cases hv : va / pgsize = v
  · rw [hv, he.word, getLsbD_freshPte _ (by decide)]
    exact iff_of_true (.inl rfl) hu.2
  · rw [he.map _ _ fun hc => hv hc.2]

theorem copyoutTo_put (hk : KInv L k g) (hp : k.Live p) (dstva : Nat) (src : Nat → Byte) :
    Wp E (copyoutTo L p dstva src 4) k fun ret k' =>
      Put L p dstva src k ret k' ∧ ∃ g', KInv L k' g' := by
  have hinv : Wp E (copyoutTo L p dstva src 4) k fun _ k' => ∃ g', KInv L k' g' := by
    refine (copyoutTo_spec hk hp dstva src 4).mono ?_
    rintro ret k' ⟨-, g', hc⟩
    exact ⟨g', hc.acts.inv hk⟩
  refine .and ?_ hinv
  obtain ⟨r, t, hpt, -, hi⟩ := hk.user hp
  have hrep := hk.sound.rep
  have ht := hk.sound.table r hi.live
  obtain ⟨ret, km', hok, hpost⟩ := (copyout_spec hrep ht dstva src 4).total
  have hrun : copyoutTo L p dstva src 4 k = .ok (ret, { k with
      km := km', log := ⟨p, .copied dstva 4, (k.proc p).pagetable, k.km.mem⟩ :: k.log }) := by
    rw [← hpt] at hok
    show vm (copyout L (k.proc p).pagetable dstva src 4) _ = _
    rw [vm, hok]
  refine .of_eq hrun ?_
  have hzero : ret = 0 ↔ k.Fits p dstva ∧ k.km.freelist ≠ 0 := by
    have hopen : AllAccessible k.km.mem (r * pgsize) dstva 4 ↔
        ∀ i < 4, (userByte k.km.mem (r * pgsize) (dstva + i)).isSome = true := by
      constructor
      · intro hall i hi
        rw [← accessible_eq]
        exact hall _ (Nat.le_add_right _ _) (by omega)
      · intro hall va h1 h2
        have := hall (va - dstva) (by omega)
        rwa [Nat.add_sub_cancel' h1, ← accessible_eq] at this
    rw [hpost.zero_iff hrep ht (by decide), hopen]
    simp only [Kernel.Fits, Kernel.canWrite, Kernel.view, hpt]
    tauto
  have hwrites : k.Writes p dstva → g.Copyable r (dstva / pgsize) ∧ g.free ≠ [] := by
    rintro ⟨hstart, hfree, hw⟩
    rw [Kernel.canWrite, hpt, writable_iff hrep ht] at hw
    exact ⟨⟨(Nat.div_pos hstart pgsize_pos).ne', hw⟩, hrep.freelist_ne_iff.mp hfree⟩
  obtain ⟨rfl, rfl, hno⟩ | ⟨⟨-, hu⟩, km1, g1, h₁, he, h', done, hle, hdone, hw⟩ := hpost
  · refine ⟨rfl, .inr rfl, hzero, fun h => absurd h (by decide), fun _ => .inl rfl, ?_,
      fun _ => rfl, fun _ _ _ h _ => .inl h⟩
    intro hwr
    exact absurd (hno (hwrites hwr).1) (hwrites hwr).2
  have ht1 := ht.replace hu.1.1 he
  have hbytes : ∀ va, userByte km'.mem (r * pgsize) va =
      if dstva ≤ va ∧ va < dstva + done then some (src (va - dstva))
      else userByte k.km.mem (r * pgsize) va := by
    intro va
    rw [hw.user_bytes h₁ ht1 h', (he.user_bytes hrep ht hu.1 h₁ va).2]
  have hsome : 0 < done := by
    apply Nat.pos_of_ne_zero
    rintro rfl
    obtain ⟨-, he0⟩ | ⟨-, -, hno⟩ := hdone
    · cases he0
    · exact hno (((he.user_bytes hrep ht hu.1 h₁ dstva).1).mpr hu.1)
  refine ⟨rfl, by omega, hzero, ?_, ?_, ?_, ?_, ?_⟩
  · rintro rfl va
    obtain rfl : done = 4 := by omega
    simp only [Kernel.view, hpt]
    exact hbytes va
  · intro va
    simp only [Kernel.view, hpt]
    rw [hbytes va]
    split
    · next hin => exact .inr ⟨hin.1, by omega, rfl⟩
    · exact .inl rfl
  · intro _
    simp only [Kernel.view, hpt]
    rw [hbytes, if_pos ⟨Nat.le_refl _, by omega⟩, Nat.sub_self]
  · intro va
    simp only [Kernel.canWrite, hpt]
    rw [← he.writable hrep ht hu h₁ va, Bool.eq_iff_iff, writable_iff h' ht1, writable_iff h₁ ht1]
  · intro f1 f2 hne hs1 hs2
    have hkeep : ∀ f, k.Spare L f → f ≠ ppn (g1.map r (dstva / pgsize)) →
        L.Managed f ∧ km'.refs f = 0 := by
      intro f hs hf
      refine ⟨hs.1, ?_⟩
      rw [h'.spare_iff]
      exact he.spare hrep h₁ (hrep.spare_iff.mp hs.2) hf
    by_cases hf : f1 = ppn (g1.map r (dstva / pgsize))
    · refine .inr (hkeep f2 hs2 ?_)
      rw [← hf]
      exact hne.symm
    · exact .inl (hkeep f1 hs1 hf)

theorem sysReturn_view (hk : KInv L k g) (hp : k.Live p)
    (w : BitVec 64) : Wp E (sysReturn p w) k fun _ k' => k'.proc = k.proc ∧
      k'.returned p = some w ∧ ∀ va, k'.view p va = k.view p va := by
  refine (storeTf_spec hk hp (by decide) (by decide) w).seq ?_
  rintro _ k1 ⟨ha, rfl⟩
  refine Wp.setMode ⟨rfl, ?_, ?_⟩
  · simp only [Kernel.returned, Function.update_self, if_pos]
    rw [load64_store64]
  · intro va
    exact (ha.frame_view hk hp va).1

/-! ## The call -/

/-- The four bytes at `va` of process `p` are those of `x`. -/
def Kernel.Holds (k : Kernel) (p : Slot) (va : Nat) (x : Int) : Prop :=
  ∀ i < 4, k.view p (va + i) = some (intBytes x i)

def childTimes (q : Proc) : Nat × Nat := (q.rtime, q.wtime)

/-- The child that `waitx` finds: the first one that has exited. -/
def Kernel.reapable (k : Kernel) (p : Slot) : Option Slot :=
  k.first fun q => q.parent = some p ∧ q.state = .zombie

def Kernel.HasChild (k : Kernel) (p : Slot) : Prop :=
  (∃ c, (k.proc c).parent = some p) ∧ (k.proc p).killed = false

def Kernel.Exited (k : Kernel) (p c : Slot) : Prop :=
  (k.proc c).parent = some p ∧ (k.proc c).state = .zombie

/-- Child `c` has been freed, and nothing else has happened to the process table. -/
def Kernel.Freed (k k' : Kernel) (c : Slot) : Prop :=
  k'.proc = Function.update k.proc c (k.proc c).free

/-- What `waitx` reports of a child: exit status, wait time and run time. -/
def Proc.reported (q : Proc) : Fin 3 → Int
  | 0 => q.xstate
  | 1 => (childTimes q).2
  | 2 => (childTimes q).1

/-- What `waitx` is to store for child `c` of `p` is there. -/
def Kernel.Delivered (k k' : Kernel) (p c : Slot) : Prop :=
  k.arg p 0 ≠ 0 ∧ ∀ n : Fin 3, k'.Holds p (k.arg p n) ((k.proc c).reported n)

/-- Where two of the three ranges overlap, the values agree. -/
def Kernel.Apart (k : Kernel) (p c : Slot) : Prop :=
  ∀ m n : Fin 3, ∀ i < 4, ∀ j < 4, k.arg p m + i = k.arg p n + j →
    intBytes ((k.proc c).reported m) i = intBytes ((k.proc c).reported n) j

/-- How a call of `waitx` by `p` that finds child `c` ends, and what it returns. -/
inductive Kernel.WaitxEnd (k : Kernel) (p c : Slot) (ret : Option (BitVec 64)) (k' : Kernel) :
    Prop where
  /-- the status cannot be stored -/
  | refused (hret : ret = some (ofInt64 (-1))) (hproc : k'.proc = k.proc) (haddr : k.arg p 0 ≠ 0)
      (hno : ¬ (k.Fits p (k.arg p 0) ∧ k.km.freelist ≠ 0))
  /-- the child has been freed, and the times cannot be stored -/
  | lost (hret : ret = some (ofInt64 (-1))) (hfreed : k.Freed k' c)
      (hstored : k.arg p 0 ≠ 0 → k.Fits p (k.arg p 0) ∧ k.km.freelist ≠ 0)
      (hfail : ¬ (k.Fits p (k.arg p 1) ∧ k.Fits p (k.arg p 2)))
  | reaped (hret : ret = some (ofInt64 (k.proc c).pid)) (hfreed : k.Freed k' c)
      (hstored : k.arg p 0 ≠ 0 → k.Fits p (k.arg p 0) ∧ k.km.freelist ≠ 0)
      (hfit : k.Fits p (k.arg p 1) ∧ k.Fits p (k.arg p 2))
      (hdel : k.Delivered k' p c ↔ k.arg p 0 ≠ 0 ∧ k.Apart p c)

theorem Kernel.WaitxEnd.live {w : Option (BitVec 64)} (h : k.WaitxEnd p c w k') (hne : p ≠ c)
    (hp : k.Live p) : k'.Live p := by
  cases h with
  | refused _ hproc => exact hp.congr (by rw [hproc])
  | lost _ hfreed | reaped _ hfreed => exact hp.congr (by rw [hfreed, Function.update_of_ne hne])

theorem Kernel.WaitxEnd.congr {w : Option (BitVec 64)} (h : k.WaitxEnd p c w k')
    (hproc : k''.proc = k'.proc) (hview : ∀ va, k''.view p va = k'.view p va) :
    k.WaitxEnd p c w k'' := by
  cases h with
  | refused hret hsame => exact .refused hret (hproc.trans hsame) ‹_› ‹_›
  | lost hret hfreed => exact .lost hret (hproc.trans hfreed) ‹_› ‹_›
  | reaped hret hfreed hstored hfit hdel =>
    refine .reaped hret (hproc.trans hfreed) hstored hfit ?_
    rw [← hdel]
    simp only [Kernel.Delivered, Kernel.Holds, hview]

theorem Put.holds (h : Put L p dstva (intBytes x) k 0 k') : k'.Holds p dstva x := by
  intro i hi
  rw [h.bytes rfl, if_pos (by omega), Nat.add_sub_cancel_left]

theorem Put.isSome (h : Put L p dstva src k 0 k') (va : Nat) :
    (k'.view p va).isSome = (k.view p va).isSome := by
  rw [h.bytes rfl]
  split
  · next hin =>
    have := (h.zero.mp rfl).1.2.2 (va - dstva) (by omega)
    rw [Nat.add_sub_cancel' hin.1] at this
    rw [this]
    rfl
  · rfl

theorem Kernel.Fits.congr (hw : ∀ va, k'.canWrite p va = k.canWrite p va)
    (hs : ∀ va, (k'.view p va).isSome = (k.view p va).isSome) (va : Nat) :
    k'.Fits p va ↔ k.Fits p va := by
  simp only [Kernel.Fits, hw, hs]

theorem Put.keeps (h : Put L p dstva src k ret k') {byte : Byte} (hsrc : ∀ i < 4, src i = byte)
    (hv : k.view p va = some byte) : k'.view p va = some byte := by
  rcases h.each va with he | ⟨h1, h2, he⟩
  · rw [he, hv]
  · rw [he, hsrc _ (by omega)]

/-- The state after a call of `waitx` that has reaped `c`, before the times are copied. -/
structure Reaped (L : Layout) (p c : Slot) (addr : Nat) (k k' : Kernel) : Prop where
  inv : ∃ g, KInv L k' g
  freed : k.Freed k' c
  status : addr ≠ 0 → k'.Holds p addr (k.proc c).xstate
  fits : ∀ va, k'.Fits p va ↔ k.Fits p va
  spare : ∃ f₁ f₂, f₁ ≠ f₂ ∧ k'.Spare L f₁ ∧ k'.Spare L f₂

theorem Kernel.Exited.ne (hc : k.Exited p c) (hrun : (k.proc p).state = .running) : p ≠ c := by
  rintro rfl
  rw [hc.2] at hrun
  cases hrun

theorem Kernel.reapable_exited (h : k.reapable p = some c) : k.Exited p c := by
  simpa [Kernel.Exited] using Kernel.first_some h

theorem reap_spec {addr : Nat} {k₁ : Kernel} {w : Option Waited} (hk : KInv L k₁ g)
    (hproc : k₁.proc = k.proc) (hc : k.Exited p c) (hrun : (k.proc p).state = .running)
    (hstatus : addr ≠ 0 → k₁.Holds p addr (k.proc c).xstate)
    (hfits : ∀ va, k₁.Fits p va ↔ k.Fits p va) :
    Wp E (do freeproc L c; return w) k₁ fun w' k' => w' = w ∧ Reaped L p c addr k k' := by
  have hlive : k₁.Live c := .of_state (show (k₁.proc c).state = .zombie by rw [hproc, hc.2]) (by decide)
  have hp : k₁.Live p := .of_state (show (k₁.proc p).state = .running by rw [hproc, hrun]) (by decide)
  refine ((freeproc_spec hk hlive).and (freeproc_record k₁)).seq ?_
  rintro _ k2 ⟨⟨g2, ha⟩, hrec⟩
  have hview := ha.destroy_view hk (hc.ne hrun) hp
  refine .pure ⟨rfl, ⟨g2, ha.inv hk⟩, ?_, ?_, ?_, ha.destroy_spare hk⟩
  · rw [Kernel.Freed, hrec, hproc]
  · intro haddr i hi
    rw [(hview _).1]
    exact hstatus haddr i hi
  · intro va
    rw [Kernel.Fits.congr (fun va => (hview va).2) (fun va => by rw [(hview va).1]), hfits]

theorem waitRound_exited (hk : KInv L k g) (hrun : (k.proc p).state = .running)
    (hfirst : k.reapable p = some c) (addr : Nat) :
    Wp E (waitRound L p addr) k fun w k' =>
      (w = some { ret := -1, times := some (childTimes (k.proc c)) } ∧ k'.proc = k.proc ∧
          (∃ g', KInv L k' g') ∧ addr ≠ 0 ∧ ¬ (k.Fits p addr ∧ k.km.freelist ≠ 0)) ∨
        (w = some { ret := (k.proc c).pid, times := some (childTimes (k.proc c)) } ∧
          Reaped L p c addr k k' ∧ (addr ≠ 0 → k.Fits p addr ∧ k.km.freelist ≠ 0)) := by
  have hc := Kernel.reapable_exited hfirst
  have hp : k.Live p := .of_state hrun (by decide)
  refine .bind (.get ?_)
  rw [Kernel.reapable] at hfirst
  rw [hfirst]
  dsimp only
  by_cases haddr : addr = 0
  · rw [if_neg (not_not.mpr haddr)]
    refine .bind (.pure ?_)
    refine (reap_spec hk rfl hc hrun (fun hne => absurd haddr hne) fun _ => Iff.rfl).mono ?_
    rintro w k' ⟨rfl, hr⟩
    exact .inr ⟨rfl, hr, fun hne => absurd haddr hne⟩
  · rw [if_pos haddr]
    refine (copyoutTo_put hk hp addr (intBytes (k.proc c).xstate)).seq ?_
    rintro ret k1 ⟨hput, g1, hk1⟩
    rcases hput.result with rfl | rfl
    · refine (reap_spec hk1 hput.proc hc hrun (fun _ => hput.holds)
        (Kernel.Fits.congr hput.canWrite hput.isSome)).mono ?_
      rintro w k' ⟨rfl, hr⟩
      exact .inr ⟨rfl, hr, fun _ => hput.zero.mp rfl⟩
    · exact .pure (.inl ⟨rfl, hput.proc, ⟨g1, hk1⟩, haddr, fun hf =>
        absurd (hput.zero.mpr hf) (by decide)⟩)

theorem waitRound_none (hnone : k.reapable p = none) (addr : Nat) :
    Wp E (waitRound L p addr) k fun w k' => (k.HasChild p ∧ w = none ∧ k'.user = k.user) ∨
      (¬ k.HasChild p ∧ w = some { ret := -1 } ∧ k' = k) := by
  refine .bind (.get ?_)
  rw [Kernel.reapable] at hnone
  rw [hnone]
  dsimp only
  have hkid : (k.first fun q => q.parent = some p).isNone = true ↔
      ¬ ∃ c, (k.proc c).parent = some p := by
    simp [Kernel.first]
  by_cases hchild : k.HasChild p
  · rw [if_neg (by rw [Bool.or_eq_true, hkid, hchild.2]; simpa using hchild.1)]
    exact .bind (.bind (.get (Wp.setProc (.pure (.inl ⟨hchild, rfl, rfl⟩)))))
  · have hno : (k.first fun q => q.parent = some p).isNone = true ∨ (k.proc p).killed = true := by
      rw [hkid]
      by_contra hor
      rw [not_or, not_not, Bool.not_eq_true] at hor
      exact hchild hor
    rw [if_pos (by rwa [Bool.or_eq_true])]
    exact .pure (.inr ⟨hchild, rfl, rfl⟩)

theorem copies_fail (hk : KInv L k g) (hp : k.Live p) (a1 a2 : Nat) (times : Nat × Nat) :
    Wp E (copyTimes L p a1 a2 times (-1)) k fun res k' =>
      res = some (ofInt64 (-1)) ∧ k'.proc = k.proc ∧ (∃ g', KInv L k' g') ∧
        ∀ byte, (∀ i < 4, intBytes times.2 i = byte ∧ intBytes times.1 i = byte) →
          k.Writes p a1 → k'.view p a1 = some byte := by
  refine (copyoutTo_put hk hp a1 _).seq ?_
  rintro ret k1 ⟨hput, g1, hk1⟩
  have hfirst : ∀ byte, (∀ i < 4, intBytes times.2 i = byte ∧ intBytes times.1 i = byte) →
      k.Writes p a1 → k1.view p a1 = some byte := by
    intro byte hb hw
    rw [hput.first hw, (hb 0 (by decide)).1]
  split
  · exact .pure ⟨rfl, hput.proc, ⟨g1, hk1⟩, hfirst⟩
  · have hp1 : k1.Live p := hp.congr (by rw [hput.proc])
    refine (copyoutTo_put hk1 hp1 a2 _).seq ?_
    rintro ret' k2 ⟨hput', g2, hk2⟩
    rw [ite_self]
    refine .pure ⟨rfl, hput'.proc.trans hput.proc, ⟨g2, hk2⟩, fun byte hb hw => ?_⟩
    exact hput'.keeps (fun i hi => (hb i hi).2) (hfirst byte hb hw)

theorem copies_done (hne : p ≠ c) (hp : k.Live p) (hr : Reaped L p c (k.arg p 0) k k')
    (hstored : k.arg p 0 ≠ 0 → k.Fits p (k.arg p 0) ∧ k.km.freelist ≠ 0) :
    Wp E (copyTimes L p (k.arg p 1) (k.arg p 2) (childTimes (k.proc c)) (k.proc c).pid) k'
      fun res k'' => (∃ g', KInv L k'' g') ∧ k.WaitxEnd p c res k'' := by
  obtain ⟨g, hk'⟩ := hr.inv
  obtain ⟨f1, f2, hf, hs1, hs2⟩ := hr.spare
  have hp' : k'.Live p := hp.congr (by rw [hr.freed, Function.update_of_ne hne])
  have hfree' := hs1.freelist_ne hk'.sound.rep
  refine (copyoutTo_put hk' hp' (k.arg p 1) _).seq ?_
  rintro ret k1 ⟨hput, g1, hk1⟩
  have hfreed1 : k.Freed k1 c := by rw [Kernel.Freed, hput.proc, hr.freed]
  have hzero := hput.zero
  rw [hr.fits, and_iff_left hfree'] at hzero
  rcases hput.result with rfl | rfl
  swap
  · refine .pure ⟨⟨g1, hk1⟩, .lost rfl hfreed1 hstored fun hf => ?_⟩
    exact absurd (hzero.mpr hf.1) (by decide)
  have hp1 : k1.Live p := hp'.congr (by rw [hput.proc])
  have hfree1 : k1.km.freelist ≠ 0 := by
    rcases hput.spare f1 f2 hf hs1 hs2 with hs | hs <;> exact hs.freelist_ne hk1.sound.rep
  refine (copyoutTo_put hk1 hp1 (k.arg p 2) _).seq ?_
  rintro ret k2 ⟨hput', g2, hk2⟩
  have hfreed2 : k.Freed k2 c := by rw [Kernel.Freed, hput'.proc, hfreed1]
  have hzero' := hput'.zero
  rw [Kernel.Fits.congr hput.canWrite hput.isSome, hr.fits, and_iff_left hfree1] at hzero'
  rcases hput'.result with rfl | rfl
  swap
  · refine .pure ⟨⟨g2, hk2⟩, .lost rfl hfreed2 hstored fun hf => ?_⟩
    exact absurd (hzero'.mpr hf.2) (by decide)
  refine .pure ⟨⟨g2, hk2⟩, .reaped rfl hfreed2 hstored ⟨hzero.mp rfl, hzero'.mp rfl⟩ ?_⟩
  apply and_congr_right
  intro haddr
  have hview : ∀ va, k2.view p va = if k.arg p 2 ≤ va ∧ va < k.arg p 2 + 4 then
        some (intBytes (childTimes (k.proc c)).1 (va - k.arg p 2))
      else if k.arg p 1 ≤ va ∧ va < k.arg p 1 + 4 then
        some (intBytes (childTimes (k.proc c)).2 (va - k.arg p 1))
      else k'.view p va := by
    intro va
    rw [hput'.bytes rfl, hput.bytes rfl]
  constructor
  · -- the same byte is read twice
    intro hall m n i hi j hj he
    have h1 := hall m i hi
    rw [he, hall n j hj] at h1
    exact (Option.some.inj h1).symm
  · -- the last copy to an address decides
    intro hapart n i hi
    have hcase : ∀ n : Fin 3, n = 0 ∨ n = 1 ∨ n = 2 := by decide
    have hthis : ∀ m : Fin 3, k.arg p m ≤ k.arg p n + i → k.arg p n + i < k.arg p m + 4 →
        intBytes ((k.proc c).reported m) (k.arg p n + i - k.arg p m) =
          intBytes ((k.proc c).reported n) i := by
      intro m h1 h2
      exact (hapart n m i hi _ (by omega) (by omega)).symm
    rw [hview]
    split
    · next hin => exact congrArg some (hthis 2 hin.1 hin.2)
    · next hout2 =>
      split
      · next hin => exact congrArg some (hthis 1 hin.1 hin.2)
      · next hout1 =>
        rcases hcase n with rfl | rfl | rfl
        · exact hr.status haddr i hi
        · exact absurd ⟨Nat.le_add_right _ _, Nat.add_lt_add_left hi _⟩ hout1
        · exact absurd ⟨Nat.le_add_right _ _, Nat.add_lt_add_left hi _⟩ hout2

section

variable (hk : KInv L k g) (hrun : (k.proc p).state = .running)

include hk hrun

theorem sysWaitx_exited (hfirst : k.reapable p = some c) (o : Outside) :
    Wp E (sysWaitx L p o) k fun res k' => (∃ g', KInv L k' g') ∧ k.WaitxEnd p c res k' := by
  have hp : k.Live p := .of_state hrun (by decide)
  have hc := Kernel.reapable_exited hfirst
  refine .bind (Wp.argaddr (.bind (Wp.argaddr (.bind (Wp.argaddr
    ((waitRound_exited hk hrun hfirst _).seq ?_))))))
  rintro w k1 (⟨rfl, hproc, ⟨g1, hk1⟩, haddr, hno⟩ | ⟨rfl, hr, hstored⟩)
  · have hp1 : k1.Live p := hp.congr (by rw [hproc])
    refine (copies_fail hk1 hp1 _ _ _).mono ?_
    rintro res k' ⟨hres, hproc', hk', -⟩
    exact ⟨hk', .refused hres (hproc'.trans hproc) haddr hno⟩
  · exact copies_done (hc.ne hrun) hp hr hstored

theorem sysWaitx_none (hnone : k.reapable p = none) (o : Outside) :
    Wp E (sysWaitx L p o) k fun res k' => (k.HasChild p ∧ res = none ∧ k'.user = k.user) ∨
      ¬ k.HasChild p ∧ res = some (ofInt64 (-1)) ∧ k'.proc = k.proc ∧ (∃ g', KInv L k' g') ∧
        ∀ byte, (∀ i < 4, intBytes o.stack.2 i = byte ∧ intBytes o.stack.1 i = byte) →
          k.Writes p (k.arg p 1) → k'.view p (k.arg p 1) = some byte := by
  have hp : k.Live p := .of_state hrun (by decide)
  refine .bind (Wp.argaddr (.bind (Wp.argaddr (.bind (Wp.argaddr
    ((waitRound_none hnone _).seq ?_))))))
  rintro w k1 (⟨hchild, rfl, huser⟩ | ⟨hno, rfl, rfl⟩)
  · exact .pure (.inl ⟨hchild, rfl, huser⟩)
  · exact (copies_fail hk hp _ _ _).mono fun res k' hres => .inr ⟨hno, hres⟩

end

theorem stateT_pure {σ α : Type} (a : α) (s : σ) :
    (StateT.pure a : StateT σ (Except Panic) α) s = pure (a, s) := rfl

def waitxCode (L : Layout) (p : Slot) (o : Outside) : K Unit := do
  let r ← sysWaitx L p o
  sysResume p r

theorem get_bind {α : Type} (f : Kernel → K α) (k : Kernel) :
    (do let k ← get; f k : K α) k = f k k :=
  rfl

theorem step_waitx {o : Outside} (hcall : (Op.syscall p o).Calls k p .waitx) :
    step L b (.syscall p o) k = waitxCode L p o k := by
  obtain ⟨-, hrun, hno⟩ := hcall
  refine (guarded_true hrun).trans ?_
  refine (get_bind _ k).trans ?_
  rw [hno]
  rfl

theorem Op.Calls.mode {n : Sysno} {op : Op} (hcall : op.Calls k p n) :
    (k.user p).mode = .syscall ∧ (k.proc p).state = .running := by
  obtain ⟨-, hrun, -⟩ := hcall
  simpa [Kernel.runs, and_comm] using hrun

section

variable (hk : KInv L k g) (hrun : (k.proc p).state = .running)

include hk hrun

theorem waitxCode_exited (hfirst : k.reapable p = some c) (o : Outside) :
    Wp E (waitxCode L p o) k fun _ k' => k.WaitxEnd p c (k'.returned p) k' := by
  have hp : k.Live p := .of_state hrun (by decide)
  refine (sysWaitx_exited hk hrun hfirst o).seq ?_
  rintro res k1 ⟨⟨g1, hk1⟩, hend⟩
  have hp1 := hend.live ((Kernel.reapable_exited hfirst).ne hrun) hp
  obtain ⟨w, rfl⟩ : ∃ w, res = some w := by cases hend <;> exact ⟨_, ‹_›⟩
  refine (sysReturn_view hk1 hp1 w).mono ?_
  rintro _ k' ⟨hproc, hret, hview⟩
  rw [hret]
  exact hend.congr hproc hview

theorem waitxCode_none (hnone : k.reapable p = none) (o : Outside) :
    Wp E (waitxCode L p o) k fun _ k' =>
      (k.HasChild p ∧ (k'.user p).mode = (k.user p).mode) ∨
      ¬ k.HasChild p ∧ k'.returned p = some (ofInt64 (-1)) ∧ k'.proc = k.proc ∧
        ∀ byte, (∀ i < 4, intBytes o.stack.2 i = byte ∧ intBytes o.stack.1 i = byte) →
          k.Writes p (k.arg p 1) → k'.view p (k.arg p 1) = some byte := by
  have hp : k.Live p := .of_state hrun (by decide)
  refine (sysWaitx_none hk hrun hnone o).seq ?_
  rintro res k1 (⟨hchild, rfl, huser⟩ | ⟨hno, rfl, hproc, ⟨g1, hk1⟩, hbyte⟩)
  · exact .pure (.inl ⟨hchild, by rw [huser]⟩)
  · refine (sysReturn_view hk1 (hp.congr (by rw [hproc])) _).mono ?_
    rintro _ k' ⟨hproc', hret, hview⟩
    refine .inr ⟨hno, hret, hproc'.trans hproc, fun byte hb hw => ?_⟩
    rw [hview]
    exact hbyte byte hb hw

end

theorem copyoutTo_blocked (hk : KInv L k g) (hp : k.Live p) (hno : ¬ k.Writes p dstva)
    (src : Nat → Byte) : copyoutTo L p dstva src 4 k = .ok (-1, { k with
      log := ⟨p, .copied dstva 4, (k.proc p).pagetable, k.km.mem⟩ :: k.log }) := by
  obtain ⟨r, t, hpt, -, hi⟩ := hk.user hp
  have hrep := hk.sound.rep
  have ht := hk.sound.table r hi.live
  obtain ⟨ret, km', hok, ⟨rfl, rfl, -⟩ | ⟨⟨hv, hu⟩, km1, g1, h₁, he, -⟩⟩ :=
    (copyout_spec hrep ht dstva src 4).total
  · rw [← hpt] at hok
    show vm (copyout L (k.proc p).pagetable dstva src 4) _ = _
    rw [vm, hok]
  · refine absurd ⟨?_, hrep.freelist_ne_iff.mpr (he.free_ne hrep h₁), ?_⟩ hno
    · by_contra hlt
      exact hv (Nat.div_eq_of_lt (Nat.lt_of_not_le hlt))
    · rw [Kernel.canWrite, hpt, writable_iff hrep ht]
      exact hu

theorem waitxCode_stack (hk : KInv L k g) (hrun : (k.proc p).state = .running)
    (hsafe : k.reapable p = none → k.HasChild p ∨ ¬ k.Writes p (k.arg p 1)) (o o' : Outside) :
    waitxCode L p o k = waitxCode L p o' k := by
  have hp : k.Live p := .of_state hrun (by decide)
  -- after the round, only a result without times looks at the stack
  have hround : ∀ w k1, waitRound L p (k.arg p 0) k = .ok (w, k1) →
      (w = none ∨ ∃ ret times, w = some { ret := ret, times := some times }) →
      sysWaitx L p o k = sysWaitx L p o' k := by
    intro w k1 hok hw
    have hwait : waitRound L p (load64 k.km.mem ((k.proc p).trapframe + tfArg 0)).toNat k =
        .ok (w, k1) := hok
    unfold sysWaitx argaddr loadTf vm loadWord
    simp only [Bind.bind, StateT.bind, get, getThe, MonadStateOf.get, StateT.get, Pure.pure,
      stateT_pure, Except.bind, Except.pure, hwait]
    rcases hw with rfl | ⟨ret, times, rfl⟩ <;> rfl
  have hsys : sysWaitx L p o k = sysWaitx L p o' k := by
    cases hfirst : k.reapable p with
    | some c =>
      obtain ⟨w, k1, hok, hw⟩ := (waitRound_exited hk hrun hfirst (k.arg p 0)).total
      refine hround w k1 hok (.inr ?_)
      rcases hw with ⟨rfl, -⟩ | ⟨rfl, -⟩ <;> exact ⟨_, _, rfl⟩
    | none =>
      obtain ⟨w, k1, hok, ⟨-, rfl, -⟩ | ⟨hno, rfl, hk1⟩⟩ :=
        (waitRound_none (L := L) hfirst (k.arg p 0)).total
      · exact hround none k1 hok (.inl rfl)
      rw [hk1] at hok
      have hone : ∀ o, Wp (fun _ => False) (sysWaitx L p o) k fun res k' =>
          res = some (ofInt64 (-1)) ∧ k' = { k with
            log := ⟨p, .copied (k.arg p 1) 4, (k.proc p).pagetable, k.km.mem⟩ :: k.log } := by
        intro o
        refine .bind (Wp.argaddr (.bind (Wp.argaddr (.bind (Wp.argaddr
          (.bind (.of_eq hok ?_)))))))
        have hblocked := copyoutTo_blocked hk hp ((hsafe hfirst).resolve_left hno)
        exact .bind (.of_eq (hblocked _) (.pure ⟨rfl, rfl⟩))
      obtain ⟨_, _, h1, rfl, rfl⟩ := (hone o).total
      obtain ⟨_, _, h2, rfl, rfl⟩ := (hone o').total
      rw [h1, h2]
  unfold waitxCode
  show StateT.bind _ _ k = StateT.bind _ _ k
  rw [StateT.bind, StateT.bind, hsys]

/-- When `waitx` keeps its promise: if there is a child to reap, there is an address for its status,
and if the status can be stored then so can the times, and no value overwrites another; else there
is a child to wait for, or nothing can be written at the address for the wait time. -/
def Kernel.WaitxSafe (k : Kernel) (p : Slot) : Prop :=
  match k.reapable p with
  | some c => k.arg p 0 ≠ 0 ∧ (k.Fits p (k.arg p 0) ∧ k.km.freelist ≠ 0 →
      ofInt64 (k.proc c).pid ≠ ofInt64 (-1) ∧ (k.Fits p (k.arg p 1) ∧ k.Fits p (k.arg p 2)) ∧
        k.Apart p c)
  | none => k.HasChild p ∨ ¬ k.Writes p (k.arg p 1)

/-- The state is one of a run in which `sigreturn` is only called in a handler. A call of `waitx`
that returns `-1` has reaped no child and stored nothing that depends on the stack, and one that
returns anything else has freed the child with that pid and delivered what it reports, if and only
if the call is safe. -/
theorem waitx_fails_without_effect {o : Outside} (h : Run L b steps k) (hd : Disciplined steps)
    (hcall : (Op.syscall p o).Calls k p .waitx) :
    ∃ k', step L b (.syscall p o) k = .ok ((), k') ∧ (((k'.returned p = some (ofInt64 (-1)) →
        (∀ c, k.Exited p c → k'.proc c = k.proc c) ∧
        ∀ stack, step L b (.syscall p { o with stack := stack }) k = .ok ((), k')) ∧
      ∀ w, k'.returned p = some w → w ≠ ofInt64 (-1) → ∃ c, k.Exited p c ∧
        w = ofInt64 (k.proc c).pid ∧ k.Freed k' c ∧ k.Delivered k' p c) ↔ k.WaitxSafe p) := by
  obtain ⟨g, hk⟩ := h.inv hd
  obtain ⟨hmode, hrun⟩ := hcall.mode
  have hstack : ∀ stack, (Op.syscall p { o with stack := stack }).Calls k p .waitx :=
    fun _ => ⟨⟨_, rfl⟩, hcall.2⟩
  have hsame : (k.reapable p = none → k.HasChild p ∨ ¬ k.Writes p (k.arg p 1)) → ∀ k',
      waitxCode L p o k = .ok ((), k') →
      ∀ stack, step L b (.syscall p { o with stack := stack }) k = .ok ((), k') := by
    intro hsafe k' hok stack
    rw [step_waitx (hstack stack), waitxCode_stack hk hrun hsafe _ o]
    exact hok
  unfold Kernel.WaitxSafe
  cases hfirst : k.reapable p with
  | some c =>
    have hc := Kernel.reapable_exited hfirst
    obtain ⟨_, k', hok, hend⟩ := (waitxCode_exited (E := fun _ => False) hk hrun hfirst o).total
    refine ⟨k', (step_waitx hcall).trans hok, ?_⟩
    dsimp only
    have hgone : k.Freed k' c → k'.proc c ≠ k.proc c := by
      intro hfreed he
      have hst := congrArg Proc.state he
      rw [hfreed, Function.update_self, hc.2] at hst
      cases hst
    cases hend with
    | refused hret hproc haddr hno =>
      refine iff_of_true ⟨fun _ => ⟨fun c _ => by rw [hproc], ?_⟩, fun w hw hne => ?_⟩
        ⟨haddr, fun hf => absurd hf hno⟩
      · exact hsame (fun hn => by rw [hfirst] at hn; cases hn) k' hok
      · exact absurd (Option.some.inj (hw.symm.trans hret)) hne
    | lost hret hfreed hstored hfail =>
      refine iff_of_false (fun hok' => hgone hfreed ((hok'.1 hret).1 c hc)) ?_
      rintro ⟨haddr, hsafe⟩
      exact hfail (hsafe (hstored haddr)).2.1
    | reaped hret hfreed hstored hfit hdel =>
      by_cases hpid : ofInt64 (k.proc c).pid = ofInt64 (-1)
      · refine iff_of_false
          (fun hok' => hgone hfreed ((hok'.1 (hret.trans (by rw [hpid]))).1 c hc)) ?_
        rintro ⟨haddr, hsafe⟩
        exact (hsafe (hstored haddr)).1 hpid
      constructor
      · rintro ⟨-, hdone⟩
        obtain ⟨c', hc', -, hfreed', hdel'⟩ := hdone _ hret hpid
        obtain rfl : c' = c := by
          by_contra hne
          have hst := congrFun hfreed' c'
          rw [hfreed, Function.update_self, Function.update_of_ne hne] at hst
          have := congrArg Proc.state hst
          rw [hc'.2] at this
          cases this
        obtain ⟨haddr, hapart⟩ := hdel.mp hdel'
        exact ⟨haddr, fun _ => ⟨hpid, hfit, hapart⟩⟩
      · rintro ⟨haddr, hsafe⟩
        refine ⟨fun hret' => absurd (Option.some.inj (hret.symm.trans hret')) hpid, fun w hw _ => ?_⟩
        obtain rfl := Option.some.inj (hw.symm.trans hret)
        exact ⟨c, hc, rfl, hfreed, hdel.mpr ⟨haddr, (hsafe (hstored haddr)).2.2⟩⟩
  | none =>
    have hnoexit : ∀ c, ¬ k.Exited p c := by
      intro c hc
      have hall : ∀ q, (k.proc q).parent = some p → (k.proc q).state ≠ .zombie := by
        simpa [Kernel.reapable, Kernel.first] using hfirst
      exact hall c hc.1 hc.2
    obtain ⟨_, k', hok, hend⟩ := (waitxCode_none (E := fun _ => False) hk hrun hfirst o).total
    refine ⟨k', (step_waitx hcall).trans hok, ?_⟩
    dsimp only
    obtain ⟨hchild, huser⟩ | ⟨hno, hret, hproc, -⟩ := hend
    · have hnone : k'.returned p = none := by
        rw [Kernel.returned, huser, hmode]
        rfl
      refine iff_of_true ⟨fun hret => ?_, fun w hret => ?_⟩ (.inl hchild) <;>
        rw [hnone] at hret <;> cases hret
    rw [or_iff_right hno]
    constructor
    · -- two contents of the stack that differ in every byte
      rintro ⟨hfail, -⟩ hw
      have hview : ∀ (x : Nat) (byte : Byte), (∀ i < 4, intBytes x i = byte) →
          k'.view p (k.arg p 1) = some byte := by
        intro x byte hb
        have hok' := (hfail hret).2 (x, x)
        rw [step_waitx (hstack (x, x))] at hok'
        obtain ⟨hchild, -⟩ | ⟨-, -, -, hbyte⟩ :=
          (waitxCode_none (E := fun _ => False) hk hrun hfirst _).of_ok hok'
        · exact absurd hchild hno
        · exact hbyte byte (fun i hi => ⟨hb i hi, hb i hi⟩) hw
      have h0 := hview 0 0 (by decide)
      rw [hview 0x01010101 1 (by decide)] at h0
      exact absurd (Option.some.inj h0) (by decide)
    · intro hw
      refine ⟨fun _ => ⟨fun c hc => absurd hc (hnoexit c), ?_⟩, fun w hw' hne => ?_⟩
      · exact hsame (fun _ => .inr hw) k' hok
      · exact absurd (Option.some.inj (hw'.symm.trans hret)) hne

def waitxOps (a0 a1 a2 : Nat) : List Op :=
  [.instr initproc (fun i => if i = 17 then 27 else if i = 10 then BitVec.ofNat 64 a0
      else if i = 11 then BitVec.ofNat 64 a1 else if i = 12 then BitVec.ofNat 64 a2 else 0) 0,
   .ecall initproc]

/-- The first process gets two more pages and forks; the child exits. -/
def exitedOps : List Op :=
  startOps initproc ++ callOps initproc 12 8192 0 ++ callOps initproc 1 0 0 ++
    startOps secondproc ++ ecallOps secondproc 2 5 0 ++ [.syscall secondproc {}]

/-- Without a child, `waitx` returns `-1` and stores what was on the stack; with a child that has
exited and an address in page `0`, it returns `-1` and the child is gone. -/
theorem waitx_fails_with_effect :
    (∃ steps k k₁ k₂, Run smallLayout .RR steps k ∧ Disciplined steps ∧
      (Op.syscall initproc {}).Calls k initproc .waitx ∧
      step smallLayout .RR (.syscall initproc {}) k = .ok ((), k₁) ∧
      step smallLayout .RR (.syscall initproc { stack := (0, 7) }) k = .ok ((), k₂) ∧
      k₁.returned initproc = some (ofInt64 (-1)) ∧ k₂.returned initproc = some (ofInt64 (-1)) ∧
      k₁.view initproc 4096 = some 0 ∧ k₂.view initproc 4096 = some 7) ∧
    ∃ steps k k' c, Run smallLayout .RR steps k ∧ Disciplined steps ∧
      (Op.syscall initproc {}).Calls k initproc .waitx ∧
      step smallLayout .RR (.syscall initproc {}) k = .ok ((), k') ∧
      k'.returned initproc = some (ofInt64 (-1)) ∧ k.Exited initproc c ∧ k.Freed k' c := by
  constructor
  · obtain ⟨steps, k, hrun, hd, hcall, ⟨_, k₁, h₁, hret1, hview1⟩, _, k₂, h2, hret2, hview2⟩ :=
      exists_disciplined_run
      (startOps initproc ++ callOps initproc 12 8192 0 ++ waitxOps 0 4096 0)
      (fun _ k => (Op.syscall initproc {}).Calls k initproc .waitx ∧
        (∃ a k₁, step smallLayout .RR (.syscall initproc {}) k = .ok (a, k₁) ∧
          k₁.returned initproc = some (ofInt64 (-1)) ∧ k₁.view initproc 4096 = some 0) ∧
        ∃ a k₂, step smallLayout .RR (.syscall initproc { stack := (0, 7) }) k = .ok (a, k₂) ∧
          k₂.returned initproc = some (ofInt64 (-1)) ∧ k₂.view initproc 4096 = some 7)
      (by decide +kernel)
    exact ⟨steps, k, k₁, k₂, hrun, hd, hcall, h₁, h2, hret1, hret2, hview1, hview2⟩
  · obtain ⟨steps, k, hrun, hd, hcall, h0, hpage, hfirst⟩ := exists_disciplined_run
      (exitedOps ++ waitxOps 0 0 0)
      (fun _ k => (Op.syscall initproc {}).Calls k initproc .waitx ∧ k.arg initproc 0 = 0 ∧
        ¬ k.Fits initproc (k.arg initproc 1) ∧ k.reapable initproc = some secondproc)
      (by decide +kernel)
    obtain ⟨g, hk⟩ := hrun.inv hd
    obtain ⟨_, k', hok, hend⟩ :=
      (waitxCode_exited (E := fun _ => False) hk hcall.mode.2 hfirst {}).total
    cases hend with
    | refused _ _ haddr => exact absurd h0 haddr
    | lost hret hfreed =>
      exact ⟨steps, k, k', secondproc, hrun, hd, hcall, (step_waitx hcall).trans hok, hret,
        Kernel.reapable_exited hfirst, hfreed⟩
    | reaped _ _ _ hfit => exact absurd hfit.1 hpage

/-- The first process reaps its child and gets status and times. -/
theorem waitx_fails_without_effect_exited : ∃ steps k k' c, Run smallLayout .RR steps k ∧
    k.Exited initproc c ∧ step smallLayout .RR (.syscall initproc {}) k = .ok ((), k') ∧
    k'.returned initproc = some (ofInt64 2) ∧ k.Freed k' c ∧ k.Delivered k' initproc c := by
  obtain ⟨steps, k, hrun, hd, hcall, hfirst, hpid, hfree, harg⟩ :=
    exists_disciplined_run (exitedOps ++ waitxOps 4096 4100 4104)
    (fun _ k => (Op.syscall initproc {}).Calls k initproc .waitx ∧
      k.reapable initproc = some secondproc ∧ (k.proc secondproc).pid = 2 ∧ k.km.freelist ≠ 0 ∧
      ∀ n : Fin 3, k.arg initproc n = 4096 + 4 * n ∧ k.Fits initproc (k.arg initproc n))
    (by decide +kernel)
  have hpid' : ofInt64 (k.proc secondproc).pid ≠ ofInt64 (-1) := by
    rw [hpid]
    decide
  have hapart : k.Apart initproc secondproc := by
    intro m n i hi j hj he
    rw [(harg m).1, (harg n).1] at he
    obtain rfl : m = n := by omega
    obtain rfl : i = j := by omega
    rfl
  have hsafe : k.WaitxSafe initproc := by
    unfold Kernel.WaitxSafe
    rw [hfirst]
    exact ⟨fun h0 => absurd ((harg 0).1.symm.trans h0) (by decide), fun _ =>
      ⟨hpid', ⟨(harg 1).2, (harg 2).2⟩, hapart⟩⟩
  obtain ⟨k', hok, hiff⟩ := waitx_fails_without_effect hrun hd hcall
  obtain ⟨g, hk⟩ := hrun.inv hd
  have hret : k'.returned initproc = some (ofInt64 (k.proc secondproc).pid) := by
    rw [step_waitx hcall] at hok
    cases (waitxCode_exited (E := fun _ => False) hk hcall.mode.2 hfirst {}).of_ok hok with
    | refused _ _ _ hbad => exact absurd ⟨(harg 0).2, hfree⟩ hbad
    | lost _ _ _ hbad => exact absurd ⟨(harg 1).2, (harg 2).2⟩ hbad
    | reaped hret => exact hret
  obtain ⟨c, hc, -, hfreed, hdel⟩ := (hiff.mpr hsafe).2 _ hret hpid'
  rw [hpid] at hret
  exact ⟨steps, k, k', c, hrun, hc, hok, hret, hfreed, hdel⟩

end Xv6
