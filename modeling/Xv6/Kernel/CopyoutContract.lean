import Xv6.Kernel.BootSpec

/-!
# What `copyout` promises

`copyout` looks at the permissions of the first page only and gives that page a frame of its own.
In the loop `walkaddr` asks of a page that it is valid and open to user code, not that it is
writable. Page `0` is always refused.
-/

namespace Xv6

open ByteMem

variable {L : Layout} {km km' km₁ : Kmem} {g g1 : Account} {r dstva len : Nat}
  {src : Nat → Byte}
variable {va : Nat}

/-! ## User memory as the hardware sees it -/

def accessible (m : Mem) (pagetable va : Nat) : Bool :=
  hasFlag (leafPte m pagetable va) pteV && hasFlag (leafPte m pagetable va) pteU

/-- User code may write at `va`, at once or after a copy of the page. -/
def writable (m : Mem) (pagetable va : Nat) : Bool :=
  accessible m pagetable va &&
    (hasFlag (leafPte m pagetable va) pteW || hasFlag (leafPte m pagetable va) pteCow)

/-- All of `[dstva, dstva + len)` is open to user code. -/
def AllAccessible (m : Mem) (pagetable dstva len : Nat) : Prop :=
  ∀ va, dstva ≤ va → va < dstva + len → accessible m pagetable va = true

def AllWritable (m : Mem) (pagetable dstva len : Nat) : Prop :=
  ∀ va, dstva ≤ va → va < dstva + len → writable m pagetable va = true

def userByte (m : Mem) (pagetable va : Nat) : Option Byte :=
  if accessible m pagetable va then
    some (m (pte2pa (leafPte m pagetable va) + va % pgsize))
  else
    none

theorem Account.UserMapped.lt_maxva (hu : g.UserMapped r (va / pgsize)) : va < maxva := by
  have hpages := userPages_lt
  have hlt := hu.1
  apply Nat.lt_of_not_ge
  rw [← maxva_page]
  exact va_lt_maxva (by omega)

section

variable (h : Rep L none km g) (ht : Table g r)

include h ht

theorem leafPte_mapped (hu : g.UserMapped r (va / pgsize)) :
    leafPte km.mem (r * pgsize) va = g.map r (va / pgsize) := by
  rw [h.leafPte ht.live, if_pos hu.lt_maxva]

theorem accessible_iff (va : Nat) :
    accessible km.mem (r * pgsize) va = true ↔ g.UserMapped r (va / pgsize) := by
  constructor
  · intro ha
    rw [accessible, h.leafPte ht.live, hasFlag_v, hasFlag_u, Bool.and_eq_true] at ha
    split at ha
    · refine ⟨?_, getLsbD_ne_zero ha.2, ha.2⟩
      by_contra hge
      rw [ht.system _ (Nat.le_of_not_lt hge)] at ha
      cases ha.2
    · simp at ha
  · intro hu
    rw [accessible, leafPte_mapped h ht hu, (ht.leaf _ hu.2.1).hasFlag_v, hasFlag_u, hu.2.2]
    rfl

theorem writable_iff (va : Nat) :
    writable km.mem (r * pgsize) va = true ↔ g.UserMapped r (va / pgsize) ∧
      ((g.map r (va / pgsize)).getLsbD 2 = true ∨ (g.map r (va / pgsize)).getLsbD 8 = true) := by
  rw [writable, Bool.and_eq_true, accessible_iff h ht]
  apply and_congr_right
  intro hu
  rw [leafPte_mapped h ht hu, hasFlag_w, hasFlag_cow, Bool.or_eq_true]

theorem userByte_mapped (hu : g.UserMapped r (va / pgsize)) :
    userByte km.mem (r * pgsize) va = some (km.mem (g.phys r va)) := by
  rw [userByte, if_pos ((accessible_iff h ht va).mpr hu), leafPte_mapped h ht hu, pte2pa_eq]
  rfl

theorem userByte_unmapped
    (hu : ¬ g.UserMapped r (va / pgsize)) : userByte km.mem (r * pgsize) va = none := by
  rw [userByte, if_neg]
  rwa [accessible_iff h ht]

end

/-! ## What is written -/

theorem Replace.user_bytes {v : Nat} (h : Rep L none km g) (ht : Table g r) (hu : g.UserMapped r v)
    (h1 : Rep L none km₁ g1) (he : Replace r v km g km₁ g1) (va : Nat) :
    (g1.UserMapped r (va / pgsize) ↔ g.UserMapped r (va / pgsize)) ∧
      userByte km₁.mem (r * pgsize) va = userByte km.mem (r * pgsize) va := by
  have ht1 := ht.replace hu.1 he
  by_cases hv : va / pgsize = v
  · have hu1 : g1.UserMapped r (va / pgsize) := by
      rw [hv]
      have hfresh : (g1.map r v).getLsbD 4 = true := by
        rw [he.word, getLsbD_freshPte _ (by decide)]
        rfl
      exact ⟨hu.1, getLsbD_ne_zero hfresh, hfresh⟩
    have hu' : g.UserMapped r (va / pgsize) := by
      rw [hv]
      exact hu
    refine ⟨iff_of_true hu1 hu', ?_⟩
    rw [userByte_mapped h1 ht1 hu1, userByte_mapped h ht hu', Account.phys, Account.phys, hv,
      he.copy _ (Nat.mod_lt _ pgsize_pos)]
  · have hmap : g1.map r (va / pgsize) = g.map r (va / pgsize) := he.map _ _ fun hc => hv hc.2
    have hiff : g1.UserMapped r (va / pgsize) ↔ g.UserMapped r (va / pgsize) := by
      rw [Account.UserMapped, hmap, Account.UserMapped]
    refine ⟨hiff, ?_⟩
    by_cases hu' : g.UserMapped r (va / pgsize)
    · rw [userByte_mapped h1 ht1 (hiff.mpr hu'), userByte_mapped h ht hu', Account.phys,
        Account.phys, hmap]
      have hown := ht.owner_self hu'.1 hu'.2.1
      have hne : Owner.user r (va / pgsize) ≠ .user r v := by grind
      have hoff := Nat.mod_lt va pgsize_pos
      rw [he.mem _ _ (Owner.data_user _ _) hne hown _ (Nat.le_add_right _ _) (by omega)]
    · grind [userByte_unmapped]

theorem Wrote.user_bytes (h : Rep L none km g) (ht : Table g r) (h' : Rep L none km' g)
    (hw : Wrote g r dstva src len km.mem km'.mem) (va : Nat) :
    userByte km'.mem (r * pgsize) va =
      if dstva ≤ va ∧ va < dstva + len then some (src (va - dstva))
      else userByte km.mem (r * pgsize) va := by
  by_cases hin : dstva ≤ va ∧ va < dstva + len
  · rw [if_pos hin, userByte_mapped h' ht (hw.mapped va hin.1 hin.2), hw.hit va hin.1 hin.2]
  · rw [if_neg hin]
    by_cases hu : g.UserMapped r (va / pgsize)
    · rw [userByte_mapped h' ht hu, userByte_mapped h ht hu, hw.miss]
      intro va' h1 h2 he
      obtain rfl := ht.phys_inj hu (hw.mapped va' h1 h2) he
      exact hin ⟨h1, h2⟩
    · rw [userByte_unmapped h' ht hu, userByte_unmapped h ht hu]

/-! ## When `copyout` succeeds -/

theorem CopiedOut.zero_iff {ret : Int} (h : Rep L none km g) (ht : Table g r)
    (hc : CopiedOut L r dstva src len km g ret km') (hlen : 0 < len) :
    ret = 0 ↔ pgsize ≤ dstva ∧ km.freelist ≠ 0 ∧ writable km.mem (r * pgsize) dstva = true ∧
      AllAccessible km.mem (r * pgsize) dstva len := by
  simp only [AllAccessible, writable_iff h ht, accessible_iff h ht, h.freelist_ne_iff]
  obtain ⟨rfl, -, hno⟩ | ⟨⟨hv, hfirst⟩, km₁, g1, h₁, he, -, n, -, hret, hw⟩ := hc
  · refine iff_of_false (by decide) ?_
    rintro ⟨hstart, hfree, hfirst, -⟩
    exact hfree (hno ⟨(Nat.div_pos hstart pgsize_pos).ne', hfirst⟩)
  · have hopen := fun va => (he.user_bytes h ht hfirst.1 h₁ va).1
    rcases hret with ⟨rfl, rfl⟩ | ⟨rfl, hn, hno⟩
    · refine iff_of_true rfl ⟨?_, he.free_ne h h₁, hfirst, ?_⟩
      · by_contra hlt
        exact hv (Nat.div_eq_of_lt (Nat.lt_of_not_le hlt))
      · exact fun va h1 h2 => (hopen va).mp (hw.mapped va h1 h2)
    · refine iff_of_false (by decide) ?_
      rintro ⟨-, -, -, hall⟩
      exact hno ((hopen _).mpr (hall _ (by omega) (by omega)))

theorem CopiedOut.complete {ret : Int} (h : Rep L none km g) (ht : Table g r)
    (hc : CopiedOut L r dstva src len km g ret km') (hlen : 0 < len) (hstart : pgsize ≤ dstva)
    (hall : AllWritable km.mem (r * pgsize) dstva len) (hfree : km.freelist ≠ 0) : ret = 0 := by
  refine (hc.zero_iff h ht hlen).mpr ⟨hstart, hfree, hall dstva (Nat.le_refl _) (by omega), ?_⟩
  exact fun va h1 h2 => ((Bool.and_eq_true _ _).mp (hall va h1 h2)).1

/-! ## The contract -/

/-- For every range and source, `copyout` returns `0` only if all pages are writable, with the
source there and everything else as before, and it returns `0` if all pages are writable and there
is memory, if and only if one of two things is the case. The range starts in page `0`, and not all
pages are writable or there is no memory; or it starts above, and if `copyout` gets through, since
all pages are open to user code and the first is writable, then all are writable. -/
theorem copyout_contract (src : Nat → Byte) (h : Rep L none km g) (ht : Table g r)
    (hlen : 0 < len) :
    (∃ ret km', copyout L (r * pgsize) dstva src len km = .ok (ret, km') ∧ (ret = 0 →
        AllWritable km.mem (r * pgsize) dstva len ∧
        (∀ va, dstva ≤ va → va < dstva + len →
          userByte km'.mem (r * pgsize) va = some (src (va - dstva))) ∧
        ∀ va, ¬ (dstva ≤ va ∧ va < dstva + len) →
          userByte km'.mem (r * pgsize) va = userByte km.mem (r * pgsize) va) ∧
      (AllWritable km.mem (r * pgsize) dstva len → km.freelist ≠ 0 → ret = 0)) ↔
    (dstva < pgsize → AllWritable km.mem (r * pgsize) dstva len → km.freelist = 0) ∧
    (pgsize ≤ dstva → km.freelist ≠ 0 → writable km.mem (r * pgsize) dstva = true →
      AllAccessible km.mem (r * pgsize) dstva len → AllWritable km.mem (r * pgsize) dstva len) := by
  obtain ⟨ret, km', hok, hpost⟩ := (copyout_spec h ht dstva src len).total
  have hzero := hpost.zero_iff h ht hlen
  have hbytes : ret = 0 → ∀ va, userByte km'.mem (r * pgsize) va =
      if dstva ≤ va ∧ va < dstva + len then some (src (va - dstva))
      else userByte km.mem (r * pgsize) va := by
    rintro rfl va
    obtain ⟨hret, -⟩ | ⟨⟨-, hu, -⟩, km₁, g1, h₁, he, h', done, -, hdone, hw⟩ := hpost
    · cases hret
    obtain rfl : done = len := by omega
    rw [hw.user_bytes h₁ (ht.replace hu.1 he) h', (he.user_bytes h ht hu h₁ va).2]
  constructor
  · rintro ⟨_, _, hok', hsafe, hcomplete⟩
    rw [hok] at hok'
    cases hok'
    constructor
    · intro hlow hall
      by_contra hfree
      exact absurd (hzero.mp (hcomplete hall hfree)).1 (Nat.not_le_of_lt hlow)
    · exact fun hstart hfree hfirst hopen => (hsafe (hzero.mpr ⟨hstart, hfree, hfirst, hopen⟩)).1
  · rintro ⟨hlow, hhigh⟩
    refine ⟨ret, km', hok, ?_, ?_⟩
    · intro hret
      obtain ⟨hstart, hfree, hfirst, hopen⟩ := hzero.mp hret
      refine ⟨hhigh hstart hfree hfirst hopen, ?_, ?_⟩
      · exact fun va h1 h2 => (hbytes hret va).trans (if_pos ⟨h1, h2⟩)
      · exact fun va hout => (hbytes hret va).trans (if_neg hout)
    · intro hall hfree
      rcases Nat.lt_or_ge dstva pgsize with hlt | hge
      · exact absurd (hlow hlt hall) hfree
      · exact hpost.complete h ht hlen hge hall hfree

/-- A program of two segments without contents: two writable pages at `0` and a read-only page
after them. -/
def twoSegments : Inode where
  size := 176
  data i :=
    if i = 0 then 0x7f else if i = 1 then 0x45 else if i = 2 then 0x4c else if i = 3 then 0x46
    else if i = 32 then 64 else if i = 56 then 2
    else if i = 64 then 1 else if i = 68 then 6 else if i = 105 then 0x20
    else if i = 120 then 1 else if i = 124 then 4 else if i = 137 then 0x20
    else if i = 161 then 0x10 else 0

/-- In the table that `exec` builds for `twoSegments`, a `copyout` that crosses from a writable page
into the read-only one writes there and returns `0`. One to page `0` of the first process returns
`-1` although the page is writable and there is memory. -/
theorem copyout_unchecked : ∃ steps k, Run smallLayout .RR steps k ∧ Disciplined steps ∧
    (∃ img km₁, execImage smallLayout (k.proc initproc).trapframe twoSegments [] k.km =
        .ok (some img, km₁) ∧ writable km₁.mem img.pagetable 8192 = false ∧
      userByte km₁.mem img.pagetable 8192 = some 0 ∧
      ∃ km₂, copyout smallLayout img.pagetable 8190 (fun _ => 7) 4 km₁ = .ok (0, km₂) ∧
        userByte km₂.mem img.pagetable 8192 = some 7) ∧
    writable k.km.mem (k.proc initproc).pagetable 8 = true ∧ k.km.freelist ≠ 0 ∧
    ∃ km', copyout smallLayout (k.proc initproc).pagetable 8 (fun _ => 7) 4 k.km =
      .ok (-1, km') := by
  obtain ⟨steps, k, hrun, hd, ⟨_, km₁, hexec, hany⟩, hw, hfree, _, km', hzero, rfl⟩ :=
    exists_disciplined_run (startOps initproc)
    (fun _ k => (∃ o km₁, execImage smallLayout (k.proc initproc).trapframe twoSegments [] k.km =
        .ok (o, km₁) ∧ o.any fun img : NewImage => writable km₁.mem img.pagetable 8192 = false ∧
          userByte km₁.mem img.pagetable 8192 = some 0 ∧
          ∃ ret km₂, copyout smallLayout img.pagetable 8190 (fun _ => 7) 4 km₁ = .ok (ret, km₂) ∧
            ret = 0 ∧ userByte km₂.mem img.pagetable 8192 = some 7) ∧
      writable k.km.mem (k.proc initproc).pagetable 8 ∧ k.km.freelist ≠ 0 ∧
      ∃ ret km', copyout smallLayout (k.proc initproc).pagetable 8 (fun _ => 7) 4 k.km =
        .ok (ret, km') ∧ ret = -1) (by decide +kernel)
  simp only [Option.any_eq_true, decide_eq_true_eq] at hany
  obtain ⟨img, rfl, h1, h2, _, km₂, hcopy, rfl, h3⟩ := hany
  exact ⟨steps, k, hrun, hd, ⟨img, km₁, hexec, h1, h2, km₂, hcopy, h3⟩, hw, hfree, km', hzero⟩

/-- The first process gets two more pages, and a `copyout` fills the end of the first and the start
of the second. -/
theorem copyout_contract_twoPages : ∃ steps k r km', Run smallLayout .RR steps k ∧
    (k.proc initproc).pagetable = r * pgsize ∧
    copyout smallLayout (r * pgsize) 8190 (fun _ => 7) 4 k.km = .ok (0, km') ∧
    userByte km'.mem (r * pgsize) 8192 = some 7 := by
  obtain ⟨steps, k, hrun, hd, hstate, hfree, hall⟩ := exists_disciplined_run
    (startOps initproc ++ callOps initproc 12 8192 0)
    (fun _ k => (k.proc initproc).state = .running ∧ k.km.freelist ≠ 0 ∧
      ∀ va ∈ ([8190, 8191, 8192, 8193] : List Nat), writable k.km.mem (k.proc initproc).pagetable va)
    (by decide +kernel)
  obtain ⟨g, hk⟩ := hrun.inv hd
  obtain ⟨r, t, hpt, -, hi⟩ := hk.user (.of_state hstate (by decide))
  have hw : AllWritable k.km.mem (r * pgsize) 8190 4 := by
    intro va h1 h2
    rw [← hpt]
    refine hall va ?_
    grind
  have hstart : ¬ 8190 < pgsize := by
    rw [pgsize_eq]
    decide
  obtain ⟨ret, km', hok, hzero, hret⟩ := (copyout_contract (fun _ => 7) hk.sound.rep
    (hk.sound.table r hi.live) (show 0 < 4 by decide)).mpr
      ⟨fun hlt => absurd hlt hstart, fun _ _ _ _ => hw⟩
  obtain rfl := hret hw hfree
  exact ⟨steps, k, r, km', hrun, hpt, hok, (hzero rfl).2.1 8192 (by decide) (by decide)⟩

end Xv6
