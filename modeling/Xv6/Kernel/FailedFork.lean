import Xv6.Kernel.CopyoutContract
import Xv6.Kernel.StoreFault

/-!
# A fork that fails

When `allocproc` fails, `fork` leaves memory and the processes as they were. When `uvmcopy` fails,
the child is taken back with all its pages, but the entries of the parent that were marked
copy-on-write on the way stay marked.
-/

namespace Xv6

open ByteMem
open Function (update update_idem update_of_ne update_self)

variable {L : Layout} {b : Sched.Build} {k k' : Kernel} {g g' : Account} {p c q : Slot}
  {r t : Nat}
variable {k1 : Kernel}

/-! ## The records of the process table -/

/-- The records are as they were, except that free slots may have been freed again. -/
def Vacated (k k' : Kernel) : Prop :=
  ∀ q, k'.proc q = k.proc q ∨ (k.proc q).state = .unused ∧ ∃ q', k'.proc q = Proc.free q'

theorem vm_any {α : Type} {m : Vm α} {Q : α → Kernel → Prop} (h : ∀ a km, Q a { k with km := km }) :
    Wp (fun _ => True) (vm m) k Q :=
  Wp.vm (Wp.any.mono fun a km _ => h a km)

theorem freeproc_record (k : Kernel) : Wp (fun _ => True) (freeproc L c) k fun _ k' =>
    k'.proc = update k.proc c (k.proc c).free := by
  have hlast : ∀ k1 : Kernel, k1.proc = k.proc → Wp (fun _ => True) (setProc c Proc.free) k1
      fun _ k' => k'.proc = update k.proc c (k.proc c).free := by
    intro k1 h1
    apply Wp.setProc
    rw [h1]
  have hrest : ∀ k1 : Kernel, k1.proc = k.proc → Wp (fun _ => True) (do
      if (k.proc c).pagetable ≠ 0 then
        vm (procFreepagetable L (k.proc c).pagetable (k.proc c).sz)
      else
        pure ()
      setProc c Proc.free) k1 fun _ k' =>
        k'.proc = update k.proc c (k.proc c).free := by grind [Wp.bind, vm_any, .pure]
  refine .bind (.get ?_)
  dsimp only
  split
  · exact .bind (vm_any fun _ _ => hrest _ rfl)
  · exact .bind (.pure (hrest _ rfl))

theorem Vacated.of_freed (hc : (k.proc c).state = .unused) {q' : Proc}
    (hother : ∀ q, q ≠ c → k'.proc q = k.proc q) (hself : k'.proc c = Proc.free q') :
    Vacated k k' := by
  intro q
  by_cases hq : q = c
  · grind
  · exact .inl (hother q hq)

theorem freeproc_vacates (hc : (k.proc c).state = .unused)
    (hother : ∀ q, q ≠ c → k1.proc q = k.proc q) :
    Wp (fun _ => True) (freeproc L c) k1 fun _ k' => Vacated k k' := by
  refine (freeproc_record k1).mono ?_
  intro _ k' h'
  have hself : k'.proc c = Proc.free (k1.proc c) := by rw [h', update_self]
  apply Vacated.of_freed hc _ hself
  intro q hq
  rw [h', update_of_ne hq, hother q hq]

def Allotted (k : Kernel) (ret : Option Slot) (k' : Kernel) : Prop :=
  (ret = none ∧ Vacated k k') ∨ ∃ c, ret = some c ∧ (k.proc c).state = .unused ∧
    (∀ q, q ≠ c → k'.proc q = k.proc q) ∧ (k'.proc c).pid = k.nextpid ∧ (k'.proc c).tickets = 1

theorem allocproc_records (k : Kernel) :
    Wp (fun _ => True) (allocproc L) k fun ret k' => Allotted k ret k' := by
  refine .bind (.get ?_)
  cases hfirst : k.first fun q => q.state = .unused with
  | none => exact .pure (.inl ⟨rfl, fun q => .inl rfl⟩)
  | some c =>
    have hc : (k.proc c).state = .unused := by simpa using Kernel.first_some hfirst
    have hfail : ∀ k1 : Kernel, (∀ q, q ≠ c → k1.proc q = k.proc q) →
        Wp (fun _ => True) (do freeproc L c; return none : K (Option Slot)) k1
          fun ret k' => Allotted k ret k' := by
      intro k1 h1
      exact (freeproc_vacates hc h1).seq fun _ _ h => .pure (.inl ⟨rfl, h⟩)
    refine .bind (.set (.bind (vm_any fun tf km1 => .bind (Wp.setProc ?_))))
    dsimp only
    rw [update_idem, update_self]
    split
    · grind
    · refine .bind (vm_any fun pt km2 => .bind (Wp.setProc ?_))
      dsimp only
      rw [update_idem, update_self]
      split
      · grind
      · refine .bind (Wp.setProc (.pure (.inr ⟨c, rfl, hc, ?_, ?_, ?_⟩)))
        · grind
        · dsimp only
          rw [update_self, update_self]
          rfl
        · dsimp only
          rw [update_self, update_self]
          rfl

theorem fork_records (k : Kernel) : Wp (fun _ => True) (fork L p) k fun ret k' =>
    (ret = -1 ∧ Vacated k k') ∨ ret = k.nextpid := by
  refine (allocproc_records k).seq ?_
  rintro _ k1 (⟨rfl, h⟩ | ⟨c, rfl, hc, hother, hpid, -⟩)
  · exact .pure (.inl ⟨rfl, h⟩)
  refine .bind (.get (.bind (Wp.record (.bind (vm_any fun ret km => ?_)))))
  split
  · refine (freeproc_vacates (k := k) hc ?_).seq ?_
    · exact hother
    · grind [Wp.pure]
  · refine .bind (Wp.setProc (.bind (vm_any fun _ _ => ?_)))
    refine .bind (Wp.storeTf (.bind (Wp.setProc (.pure (.inr ?_)))))
    exact hpid

/-! ## Memory -/

/-- The entry for an address is marked copy-on-write already. -/
def Kernel.marked (k : Kernel) (p : Slot) (va : Nat) : Prop :=
  hasFlag (k.pte p va) pteCow = true ∧ hasFlag (k.pte p va) pteW = false

theorem cowPte_eq_iff {w : BitVec 64} :
    cowPte w = w ↔ hasFlag w pteCow = true ∧ hasFlag w pteW = false := by
  rw [hasFlag_cow, hasFlag_w]
  constructor
  · intro he
    have hcow := getLsbD_cowPte w (show 8 < 64 by decide)
    have hw := getLsbD_cowPte w (show 2 < 64 by decide)
    rw [he] at hcow hw
    simpa using And.intro hcow hw
  · rintro ⟨hcow, hw⟩
    apply BitVec.eq_of_getLsbD_eq
    intro i hi
    rw [getLsbD_cowPte w hi]
    by_cases h2 : i = 2
    · rw [h2, hw]
      rfl
    · grind

theorem Act.quiet_of_undone {k2 : Kernel} {g1 g2 : Account} (hk : KInv L k g)
    (hproc : Process L g p (k.proc p).hold r t) (hcreate : Act L (.create c) k g k1 g1)
    (hshare : Act L (.share p c) k1 g1 k2 g2) (hdestroy : Act L (.destroy c) k2 g2 k' g')
    (hm : g2.map r = g1.map r) : Quiet k.km g k'.km g' := by
  cases hcreate with
  | @create _ _ _ _ _ rc tc hdead _ hrc htc _ hother1 howner1 hmem1 honly1 =>
  cases hshare with
  | @share _ _ _ _ _ _ rp rc2 _ m n sz hne _ _ hrp hrc2 _ _ he hle _ _ honly3 =>
  cases hdestroy with
  | @destroy _ _ _ _ _ rc3 _ _ hproc3 hs4 hgone4 hother4 howner4 hmem4 _ =>
  -- the three acts speak of the child's table and of the parent's
  obtain rfl : rc2 = rc := by
    rw [honly1.self] at hrc2
    exact (mul_pgsize_inj hrc2).symm
  obtain rfl : rc3 = rc2 := by
    have hpt := hproc3.pagetable
    rw [honly3.self] at hpt
    exact mul_pgsize_inj (hpt.symm.trans hrc2)
  have hhold := honly1.other p hne
  obtain rfl : rp = r := by
    rw [hhold] at hrp
    exact mul_pgsize_inj (hrp.symm.trans hproc.pagetable)
  have hold := hk.sound.gone hrc
  have hnew := hs4.gone hgone4
  have hdata : ∀ f o, o.Data → (o ∈ g'.owners f ↔ o ∈ g.owners f) := by
    intro f o hd
    rw [howner4 f o hd, he.owner f o hd, howner1 f o hd]
    constructor
    · grind
    · intro ho
      refine ⟨.inl (.inl ho), ?_, ?_⟩
      · rintro rfl
        exact (hk.idle c hdead).holds f ho
      · rintro v rfl
        exact hold.2.2 v f ho
  have hnode : g'.node = g.node := by
    funext ρ
    by_cases hρ : ρ = rc3
    · grind
    · rw [(hother4 ρ hρ).1, he.node ρ hρ, (hother1 ρ hρ).1]
  refine ⟨?_, hnode, ?_, ?_⟩
  · funext f
    ext o
    cases o with
    | table ρ n => rw [← hs4.rep.node, ← hk.sound.rep.node, hnode]
    | user ρ v => exact hdata f _ (Owner.data_user _ _)
    | held x => exact hdata f _ (Owner.data_held _)
  · funext ρ v
    by_cases hρ : ρ = rc3
    · rw [hρ, hnew.2.1, hold.2.1]
    · rw [(hother4 ρ hρ).2]
      by_cases hp : ρ = rp
      · rw [hp, hm, ← hp, (hother1 ρ hρ).2]
      · rw [he.other ρ hp hρ, (hother1 ρ hρ).2]
  · intro f o hd ho
    have h2 := he.mem f o hd ((howner1 f o hd).mpr (.inl ho))
    exact ((hmem1 f o hd ho).trans h2).trans (hmem4 f o hd ((hdata f o hd).mpr ho))

/-! ## What stays -/

/-- Nothing that a process or the allocator can see has changed: the entries of all page tables
with their flags, user memory, the reference counts, the number of free pages, and the records of
the process table up to what is left in free slots. -/
structure Unchanged (k k' : Kernel) : Prop where
  entries : ∀ q va, (k.proc q).state ≠ .unused → k'.pte q va = k.pte q va
  bytes : ∀ q va, (k.proc q).state ≠ .unused →
    userByte k'.km.mem (k'.proc q).pagetable va = userByte k.km.mem (k.proc q).pagetable va
  refs : k'.km.refs = k.km.refs
  free : ∃ fs fs', Chain k.km.mem k.km.freelist fs ∧ Chain k'.km.mem k'.km.freelist fs' ∧
    fs'.length = fs.length
  slots : Vacated k k'

theorem user_congr (h : Rep L none km g) (ht : Table g r) (h' : Rep L none km' g')
    (ht' : Table g' r) (hmap : g'.map r = g.map r)
    (hmem : ∀ v, g.UserMapped r v → Agree km.mem km'.mem (ppn (g.map r v) * pgsize) pgsize)
    (va : Nat) :
    userByte km'.mem (r * pgsize) va = userByte km.mem (r * pgsize) va ∧
      writable km'.mem (r * pgsize) va = writable km.mem (r * pgsize) va := by
  have hiff : g'.UserMapped r (va / pgsize) ↔ g.UserMapped r (va / pgsize) := by
    rw [Account.UserMapped, Account.UserMapped, hmap]
  constructor
  · by_cases hu : g.UserMapped r (va / pgsize)
    · rw [userByte_mapped h' ht' (hiff.mpr hu), userByte_mapped h ht hu, Account.phys,
        Account.phys, hmap]
      have hoff := Nat.mod_lt va pgsize_pos
      rw [hmem _ hu _ (Nat.le_add_right _ _) (by omega)]
    · grind [userByte_unmapped]
  · rw [Bool.eq_iff_iff, writable_iff h' ht', writable_iff h ht, hiff, hmap]

theorem Quiet.unchanged (hk : KInv L k g) (hk' : KInv L k' g') (hq : Quiet k.km g k'.km g')
    (hslots : Vacated k k') : Unchanged k k' := by
  have hsame : ∀ q, (k.proc q).state ≠ .unused → k'.proc q = k.proc q := by
    intro q hlive
    rcases hslots q with h | ⟨h, -⟩
    · exact h
    · exact absurd h hlive
  refine ⟨?_, ?_, ?_, ?_, hslots⟩
  · grind [hq.map, pte_congr, Proc.live_iff]
  · intro q va hlive
    obtain ⟨r, t, hpt, -, hi⟩ := hk.user ((Proc.live_iff _).mpr hlive)
    have ht := hk.sound.table r hi.live
    have ht' := hk'.sound.table r ((Account.live_congr hq.node r).mpr hi.live)
    rw [hsame q hlive, hpt]
    exact (user_congr hk.sound.rep ht hk'.sound.rep ht' (by rw [hq.map]) (fun v hu =>
      hq.mem _ _ (Owner.data_user _ _) (ht.owner_self hu.1 hu.2.1)) va).1
  · funext f
    rw [hk'.sound.rep.refs, hk.sound.rep.refs, hq.owners]
  · refine ⟨g.free, g'.free, hk.sound.rep.chain, hk'.sound.rep.chain, ?_⟩
    apply List.Perm.length_eq
    rw [List.perm_ext_iff_of_nodup hk'.sound.rep.nodup hk.sound.rep.nodup]
    intro f
    rw [hk'.sound.rep.free, hk.sound.rep.free, hq.owners]

theorem Act.calm_quiet (ha : Act L .calm k g k' g') : Quiet k.km g k'.km g' := by
  cases ha with
  | calm _ hq => exact hq

/-! ## How far `uvmcopy` gets -/

theorem uvmcopy_stops (hk : KInv L k g) (hne : p ≠ c) (hp : k.Live p) (hc : k.Live c)
    (hz : (k.proc c).hold.sz = 0) (hr : (k.proc c).pagetable = r * pgsize) (hbare : g.Bare r) :
    Total (uvmcopy L (k.proc p).pagetable (k.proc c).pagetable (k.proc p).sz) k.km fun ret km' =>
      (ret = 0 ∧ tablesFor (pagesOf (k.proc p).sz) ≤ g.free.length) ∨
      (ret = -1 ∧ ∃ m, m ≤ pagesOf (k.proc p).sz ∧ StopsAt g m ∧
        ∀ v, v < pagesOf (k.proc p).sz → leafPte km'.mem (k.proc p).pagetable (v * pgsize) =
          if v < m then cowPte (k.pte p (v * pgsize)) else k.pte p (v * pgsize)) := by
  obtain ⟨rp, t, hpt, -, hi⟩ := hk.user hp
  obtain ⟨rc, t', hpt', -, hi'⟩ := hk.user hc
  obtain rfl : rc = r := mul_pgsize_inj (hpt'.symm.trans hr)
  have hroots := hk.root_ne hp hc hne hpt hr
  rw [show (k.proc c).sz = 0 from hz, pagesOf_zero] at hi'
  have hsmall := hi.small
  have hpages := userPages_lt
  have hvalid : ∀ v, v < pagesOf (k.proc p).sz → v * pgsize < maxva := fun v hv =>
    Nat.lt_of_not_ge (va_lt_maxva (by omega))
  rw [hpt, hr]
  refine (uvmcopy_spec hroots hk.sound.rep (hk.sound.table rp hi.live)
    (hk.sound.table rc hi'.live) (by omega) hi.full
    fun v hv => hi'.empty v (Nat.zero_le v) hv).mono ?_
  rintro ret km' (⟨rfl, hle, -⟩ | ⟨rfl, m, g', hm, hstop, hrep, hs⟩)
  · exact .inl ⟨rfl, hle hbare⟩
  refine .inr ⟨rfl, m, hm, hstop hbare, fun v hv => ?_⟩
  have hlive : g'.Live rp := by
    rw [Account.Live, hs.node rp hroots]
    exact hi.live
  rw [hk.pte_eq hp hpt, hrep.leafPte hlive, mul_pgsize_div, if_pos (hvalid v hv),
    if_pos (hvalid v hv), hs.parent]

theorem StopsAt.lt_iff {m j : Nat} (h : StopsAt g m) : tablesFor j ≤ g.free.length ↔ j < m := by
  constructor
  · intro hj
    by_contra hge
    have := tablesFor_mono (Nat.le_of_not_lt hge)
    have := h.2
    omega
  · intro hj
    exact Nat.le_trans (tablesFor_mono (by omega)) h.1

/-! ## After `allocproc` -/

theorem fork_copied {km3 : Kmem} (halloc : allocproc L k = .ok (some c, k1))
    (hcopy : uvmcopy L (k1.proc p).pagetable (k1.proc c).pagetable (k1.proc p).sz k1.km =
      .ok (0, km3)) : Wp (fun _ => True) (fork L p) k fun ret _ => ret = (k1.proc c).pid := by
  refine .bind (.of_eq halloc (.bind (.get (.bind (Wp.record (.bind (Wp.vm ?_)))))))
  refine .of_eq hcopy ?_
  rw [if_neg (by decide)]
  refine .bind (Wp.setProc (.bind (vm_any fun _ _ => ?_)))
  exact .bind (Wp.storeTf (.bind (Wp.setProc (.pure rfl))))

theorem fork_after_uvmcopy {km3 : Kmem} {g1 : Account} (hk : KInv L k g) (hp : k.Live p)
    (halloc : allocproc L k = .ok (some c, k1)) (hdead : (k.proc c).hold.live = false)
    (hcreate : Act L (.create c) k g k1 g1)
    (hcopy : uvmcopy L (k1.proc p).pagetable (k1.proc c).pagetable (k1.proc p).sz k1.km =
      .ok (-1, km3)) :
    ∃ k2 g2 k' g', fork L p k = .ok (-1, k') ∧ Act L (.share p c) k1 g1 k2 g2 ∧
      Act L (.destroy c) k2 g2 k' g' ∧ k2.km = km3 ∧ (k2.proc p).hold = (k1.proc p).hold ∧
      ∀ va, k'.pte p va = leafPte km3.mem (k1.proc p).pagetable va := by
  have hk1 := hcreate.inv hk
  have hne := hp.ne hdead
  obtain ⟨hp1, hc1, hz⟩ := hcreate.created hk hne
  have hp := hp.congr hp1
  obtain ⟨g3, sz, ⟨hret, -⟩ | ⟨-, rfl⟩, hact⟩ := (uvmcopy_shares hk1 hne hp hc1 hz).of_ok hcopy
  · cases hret
  let log : List Event := ⟨p, .forked c, (k1.proc p).pagetable, k1.km.mem⟩ :: k1.log
  have hshare : Act L (.share p c) k1 g1 { k1 with km := km3, log := log } g3 :=
    hact _ rfl ⟨(Hold.sz_eq hz).symm, fun _ _ => rfl, rfl⟩
  have hk3 := hshare.inv hk1
  obtain ⟨_, k4, hfree, g4, hdestroy⟩ := (freeproc_spec hk3 hc1).total
  have hfork : Wp (fun _ => False) (fork L p) k fun ret k' => ret = -1 ∧ k' = k4 := by
    refine .bind (.of_eq halloc (.bind (.get (.bind (Wp.record (.bind (Wp.vm ?_)))))))
    refine .of_eq hcopy ?_
    exact .bind (.of_eq hfree (.pure ⟨rfl, rfl⟩))
  obtain ⟨_, _, hok, rfl, rfl⟩ := hfork.total
  refine ⟨_, g3, _, g4, hok, hshare, hdestroy, rfl, rfl, fun va => ?_⟩
  have hk4 := hdestroy.inv hk3
  cases hdestroy with
  | @destroy _ _ _ _ _ rc _ _ hprocC _ _ hother _ _ honly =>
    refine pte_congr hk3 hk4 hp (honly.other p hne) ?_
    intro ρ hρ
    rw [(hother ρ (hk3.root_ne hp hc1 hne hρ hprocC.pagetable)).2]

theorem Act.create_pte {g1 : Account} (hcreate : Act L (.create c) k g k1 g1) (hk : KInv L k g)
    (hp : k.Live p) (hne : p ≠ c) (va : Nat) : k1.pte p va = k.pte p va := by
  have hk1 := hcreate.inv hk
  cases hcreate with
  | create _ _ hr _ _ hother _ _ honly =>
    refine pte_congr hk hk1 hp (honly.other p hne) fun ρ hρ => ?_
    rw [(hother ρ ?_).2]
    rintro rfl
    exact hr (hk.live_root hp hρ)

theorem undone_unchanged {k2 : Kernel} {g1 g2 : Account} {m : Nat} (hk : KInv L k g)
    (hp : k.Live p) (hne : p ≠ c) (hcreate : Act L (.create c) k g k1 g1)
    (hshare : Act L (.share p c) k1 g1 k2 g2) (hdestroy : Act L (.destroy c) k2 g2 k' g')
    (hpte : ∀ va, k'.pte p va = leafPte k2.km.mem (k1.proc p).pagetable va)
    (hhold : (k2.proc p).hold = (k1.proc p).hold) (hslots : Vacated k k')
    (hm : m ≤ pagesOf (k.proc p).sz)
    (hmarks : ∀ v, v < pagesOf (k.proc p).sz → leafPte k2.km.mem (k1.proc p).pagetable (v * pgsize) =
      if v < m then cowPte (k1.pte p (v * pgsize)) else k1.pte p (v * pgsize)) :
    Unchanged k k' ↔ ∀ j, j < m → k.marked p (j * pgsize) := by
  have hk1 := hcreate.inv hk
  have hk2 := hshare.inv hk1
  have hp1 := hp.congr (hcreate.created hk hne).1
  constructor
  · intro hsame j hj
    have hentry := hsame.entries p (j * pgsize) ((Proc.live_iff _).mp hp)
    rw [hpte, hmarks j (by omega), if_pos hj, hcreate.create_pte hk hp hne] at hentry
    exact cowPte_eq_iff.mp hentry
  · intro hmarked
    obtain ⟨r, t, hproc⟩ := hk.live p hp
    have hpt1 : (k1.proc p).hold.pagetable = r * pgsize :=
      (congrArg Hold.pagetable (hcreate.created hk hne).1).trans hproc.pagetable
    have hpt2 : (k2.proc p).hold.pagetable = r * pgsize :=
      (congrArg Hold.pagetable hhold).trans hpt1
    refine (Act.quiet_of_undone hk hproc hcreate hshare hdestroy ?_).unchanged hk
      (hdestroy.inv hk2) hslots
    funext v
    by_cases hv : v < pagesOf (k.proc p).sz
    · -- the entry has been marked, or is past the last one
      have hsmall : pagesOf (k.proc p).sz < userPages := hproc.image.small
      have hpages := userPages_lt
      have hva : v * pgsize < maxva := Nat.lt_of_not_ge (va_lt_maxva (by omega))
      have hleaf := hmarks v hv
      have hpt2' : (k1.proc p).pagetable = (k2.proc p).pagetable := hpt1.trans hpt2.symm
      rw [hpt2', show leafPte k2.km.mem (k2.proc p).pagetable (v * pgsize) = k2.pte p (v * pgsize)
        from rfl, hk2.pte_eq (hp1.congr hhold) hpt2, mul_pgsize_div, if_pos hva] at hleaf
      have hself : cowPte (k1.pte p (v * pgsize)) = k1.pte p (v * pgsize) ∨ ¬ v < m := by
        rw [hcreate.create_pte hk hp hne]
        by_cases hvm : v < m
        · exact .inl (cowPte_eq_iff.mpr (hmarked v hvm))
        · exact .inr hvm
      have hold : k1.pte p (v * pgsize) = g1.map r v := by
        rw [hk1.pte_eq hp1 hpt1, mul_pgsize_div, if_pos hva]
      rw [hleaf, ← hold]
      rcases hself with he | hvm
      · rw [he, ite_self]
      · rw [if_neg hvm]
    · cases hshare with
      | @share _ _ _ _ _ _ rp _ _ m' n sz _ _ _ hrp _ _ _ he hle =>
        obtain rfl : rp = r := mul_pgsize_inj (hrp.symm.trans hpt1)
        have hsz : (k1.proc p).hold.sz = (k.proc p).sz :=
          congrArg Hold.sz (hcreate.created hk hne).1
        rw [hsz] at hle
        rw [he.parent, if_neg (by omega)]

theorem allocproc_created (hk : KInv L k g) (halloc : allocproc L k = .ok (some c, k1)) :
    ∃ g1, (k.proc c).hold.live = false ∧ Act L (.create c) k g k1 g1 ∧ Fresh c g k1 g1 ∧
      (k1.proc c).pid = k.nextpid := by
  obtain ⟨hc, -⟩ | ⟨_, hc, -, -, hpid, -⟩ := (allocproc_records k).of_ok halloc
  · cases hc
  cases hc
  obtain ⟨g1, ⟨hnone, -⟩ | ⟨_, hsome, hdead, hcreate, hfresh⟩⟩ :=
    (allocproc_spec (E := fun _ => True) hk).of_ok halloc
  · cases hnone
  cases hsome
  exact ⟨g1, hdead, hcreate, hfresh, hpid⟩

/-- In a run in which `sigreturn` is only called in a handler, a `fork` that returns `-1` has
changed nothing if and only if there was no slot for a child, or memory for all of it, or the pages
of the parent that `uvmcopy` had memory for were marked copy-on-write. -/
theorem failed_fork_changes_nothing {steps : List Step} {F : List Nat} (h : Run L b steps k)
    (hd : Disciplined steps) (hp : (k.proc p).state ≠ .unused) (hpid : k.nextpid ≠ -1)
    (hF : k.km.Frees F) :
    ∃ ret k', fork L p k = .ok (ret, k') ∧ ((ret = -1 → Unchanged k k') ↔
      (∀ q, (k.proc q).state ≠ .unused) ∨ 4 + tablesFor (pagesOf (k.proc p).sz) ≤ F.length ∨
        ∀ j, j < pagesOf (k.proc p).sz → 4 + tablesFor j ≤ F.length → k.marked p (j * pgsize)) := by
  obtain ⟨g, hk⟩ := h.inv hd
  have hp : k.Live p := (Proc.live_iff _).mpr hp
  obtain rfl : F = g.free := hF.eq hk.sound.rep
  obtain ⟨_ | c, k1, halloc, g1, hpost⟩ := (allocproc_spec hk).total
  · -- no child
    obtain ⟨-, hcalm, hfew⟩ | ⟨_, hc, -⟩ := hpost
    swap
    · cases hc
    have hslots : Vacated k k1 := by
      rcases (allocproc_records k).of_ok halloc with ⟨-, hv⟩ | ⟨c, hc, -⟩
      · exact hv
      · cases hc
    have hfork : Wp (fun _ => False) (fork L p) k fun ret k' => ret = -1 ∧ k' = k1 :=
      Wp.bind (.of_eq halloc (.pure ⟨rfl, rfl⟩))
    obtain ⟨_, _, hok, rfl, rfl⟩ := hfork.total
    refine ⟨-1, _, hok, iff_of_true (fun _ =>
      hcalm.calm_quiet.unchanged hk (hcalm.inv hk) hslots) ?_⟩
    rcases hfew with hnone | hlt
    · exact .inl hnone
    · exact .inr (.inr fun j _ hle => absurd hle (by omega))
  obtain ⟨g1, hdead, hcreate, ⟨hfree, r, hr, hbare⟩, hchild⟩ := allocproc_created hk halloc
  have hne := hp.ne hdead
  obtain ⟨hp1, hc1, hz⟩ := hcreate.created hk hne
  have hsz : (k1.proc p).sz = (k.proc p).sz := congrArg Hold.sz hp1
  have hcopied := uvmcopy_stops (hcreate.inv hk) hne (hp.congr hp1) hc1 hz hr hbare
  rw [hsz] at hcopied
  obtain ⟨ret, km3, hcopy, ⟨rfl, hle⟩ | ⟨rfl, m, hm, hstop, hmarks⟩⟩ := hcopied.total
  · -- memory for all page tables
    rw [← hsz] at hcopy
    obtain ⟨ret, k', hok, -, rfl⟩ :=
      ((fork_spec (E := fun _ => False) hk hp).and (fork_copied halloc hcopy)).total
    refine ⟨_, k', hok, iff_of_true (fun hret => absurd (hchild.symm.trans hret) hpid) ?_⟩
    exact .inr (.inl (by omega))
  · rw [← hsz] at hcopy
    obtain ⟨k2, g2, k', g', hok, hshare, hdestroy, rfl, hhold, hpte⟩ :=
      fork_after_uvmcopy hk hp halloc hdead hcreate hcopy
    have hslots : Vacated k k' := by
      rcases (fork_records k).of_ok hok with ⟨-, hv⟩ | hret
      · exact hv
      · exact absurd hret.symm hpid
    refine ⟨-1, k', hok, ?_⟩
    rw [show ((-1 : Int) = -1 → Unchanged k k') ↔ Unchanged k k' from ⟨fun h => h rfl, fun h _ => h⟩,
      undone_unchanged hk hp hne hcreate hshare hdestroy hpte hhold hslots hm hmarks]
    have hfew := Nat.lt_of_lt_of_le hstop.2 (tablesFor_mono hm)
    constructor
    · intro hall
      refine .inr (.inr fun j _ hle => hall j (hstop.lt_iff.mp (by omega)))
    · rintro (hnone | hle | hall) j hj
      · exact absurd rfl (Kernel.Live.ne ((Proc.live_iff _).mpr (hnone c)) hdead)
      · omega
      · have := hstop.lt_iff.mpr hj
        exact hall j (by omega) (by omega)

/-! ## The marks stay -/

/-- With memory for a child but not for its page tables, `fork` fails and leaves the page of the
first process read-only and marked. -/
theorem failed_fork_marks : ∃ steps k k', Run smallLayout .RR steps k ∧ Disciplined steps ∧
    k.runs initproc .user = true ∧ fork smallLayout initproc k = .ok (-1, k') ∧
    hasFlag (k.pte initproc 0) pteW = true ∧ hasFlag (k'.pte initproc 0) pteW = false ∧
    hasFlag (k'.pte initproc 0) pteCow = true := by
  obtain ⟨steps, k, hrun, hd, hruns, hw, _, k1, halloc, rfl, _, km3, hcopy, rfl, hw', hcow⟩ :=
    exists_disciplined_run (startOps initproc ++ List.replicate 12 .kalloc)
    (fun _ k => k.runs initproc .user ∧ hasFlag (k.pte initproc 0) pteW ∧
      ∃ c k1, allocproc smallLayout k = .ok (c, k1) ∧ c = some secondproc ∧
        ∃ ret km3, uvmcopy smallLayout (k1.proc initproc).pagetable
            (k1.proc secondproc).pagetable (k1.proc initproc).sz k1.km = .ok (ret, km3) ∧ ret = -1 ∧
          hasFlag (leafPte km3.mem (k1.proc initproc).pagetable 0) pteW = false ∧
          hasFlag (leafPte km3.mem (k1.proc initproc).pagetable 0) pteCow) (by decide +kernel)
  obtain ⟨g, hk⟩ := hrun.inv hd
  obtain ⟨g1, hdead, hcreate, -⟩ := allocproc_created hk halloc
  obtain ⟨-, -, k', -, hok, -, -, -, -, hentry⟩ :=
    fork_after_uvmcopy hk (Kernel.runs_live hruns) halloc hdead hcreate hcopy
  refine ⟨steps, k, k', hrun, hd, hruns, hok, hw, ?_, ?_⟩
  · rw [hentry]
    exact hw'
  · rw [hentry]
    exact hcow

/-- The first process has a child already, so that its page is marked; a second `fork` fails in
`uvmcopy` and changes nothing. -/
theorem failed_fork_changes_nothing_second : ∃ steps k k', Run smallLayout .RR steps k ∧
    (∃ k₁, allocproc smallLayout k = .ok (some ⟨2, by decide⟩, k₁)) ∧
    fork smallLayout initproc k = .ok (-1, k') ∧ Unchanged k k' := by
  obtain ⟨steps, k, hrun, hd, hruns, hpid, hsz, hcow, hw, _, k₁, halloc, rfl, _, km3, hcopy, rfl⟩ :=
    exists_disciplined_run (startOps initproc ++ callOps initproc 1 0 0 ++ List.replicate 6 .kalloc)
    (fun _ k => k.runs initproc .user ∧ k.nextpid ≠ -1 ∧ (k.proc initproc).sz = 4096 ∧
      hasFlag (k.pte initproc 0) pteCow ∧ hasFlag (k.pte initproc 0) pteW = false ∧
      ∃ c k₁, allocproc smallLayout k = .ok (c, k₁) ∧ c = some ⟨2, Nat.le_of_ble_eq_true rfl⟩ ∧
        ∃ ret km3, uvmcopy smallLayout (k₁.proc initproc).pagetable
            (k₁.proc ⟨2, Nat.le_of_ble_eq_true rfl⟩).pagetable (k₁.proc initproc).sz k₁.km =
          .ok (ret, km3) ∧ ret = -1) (by decide +kernel)
  have hlive := Kernel.runs_live hruns
  obtain ⟨g, hk⟩ := hrun.inv hd
  obtain ⟨g1, hdead, hcreate, -⟩ := allocproc_created hk halloc
  obtain ⟨-, -, k2, -, hfork, -⟩ := fork_after_uvmcopy hk hlive halloc hdead hcreate hcopy
  obtain ⟨ret, k', hok, hpost⟩ :=
    failed_fork_changes_nothing hrun hd ((Proc.live_iff _).mp hlive) hpid hk.sound.rep.frees
  obtain ⟨rfl, rfl⟩ : -1 = ret ∧ k2 = k' := by grind [Prod.mk.inj]
  refine ⟨steps, k, k2, hrun, ⟨k₁, halloc⟩, hfork, hpost.mpr (.inr (.inr ?_)) rfl⟩
  intro j hj _
  obtain rfl : j = 0 := by
    rw [hsz, pagesOf, pgsize_eq] at hj
    omega
  rw [Kernel.marked, Nat.zero_mul]
  exact ⟨hcow, hw⟩

end Xv6
