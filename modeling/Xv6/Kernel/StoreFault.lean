import Xv6.Kernel.BootSpec
import Xv6.Kernel.Control

/-!
# Store faults

The branch of `usertrap` for `scause == 15` puts the faulting address into an `int`. Below `2^31`
that changes nothing, and the branch kills the process or gives it a page of its own. From `2^31`
on the address that is looked up is another one: with bit 31 set it is above `MAXVA`, where `walk`
panics, and else it is in a low page that the store was not made to. The first process cannot be
killed: its `exit` panics.
-/

namespace Xv6

open ByteMem

variable {L : Layout} {k k' k1 : Kernel} {g g' : Account} {p q : Slot} {r t : Nat}
variable {v : Nat}

/-- The entry for `va` in the page table of process `q`. -/
def Kernel.pte (k : Kernel) (q : Slot) (va : Nat) : BitVec 64 :=
  leafPte k.km.mem (k.proc q).pagetable va

/-- The process has been killed, and no entry of a page table has changed. -/
structure KilledBy (p : Slot) (k k' : Kernel) : Prop where
  zombie : (k'.proc p).state = .zombie
  killed : (k'.proc p).killed = true
  entries : ∀ q va, (k.proc q).state ≠ .unused → k'.pte q va = k.pte q va

/-- Page `v` of process `p` has moved to another frame with the same bytes, and no other entry of
a page table has changed. -/
structure PageReplaced (p : Slot) (v : Nat) (k k' : Kernel) : Prop where
  proc : k'.proc = k.proc
  entry : ∀ va, va / pgsize = v → k'.pte p va = freshPte (pte2pa (k'.pte p va))
  moved : ∀ va, va / pgsize = v → pte2pa (k'.pte p va) ≠ pte2pa (k.pte p va)
  bytes : ∀ va, va / pgsize = v → ∀ a, a < pgsize →
    k'.km.mem (pte2pa (k'.pte p va) + a) = k.km.mem (pte2pa (k.pte p va) + a)
  entries : ∀ q va, (k.proc q).state ≠ .unused → ¬(q = p ∧ va / pgsize = v) →
    k'.pte q va = k.pte q va

/-- The branch finds a page that is shared copy-on-write at `va`, and memory for a copy. -/
def Kernel.Copies (k : Kernel) (p : Slot) (va : Nat) : Prop :=
  va ≠ 0 ∧ k.km.freelist ≠ 0 ∧ hasFlag (k.pte p va) pteCow = true ∧
    hasFlag (k.pte p va) pteW = false ∧ hasFlag (k.pte p va) pteU = true ∧
    hasFlag (k.pte p va) pteV = true

theorem KInv.pte_eq (hk : KInv L k g) (hq : k.Live q)
    (hr : (k.proc q).hold.pagetable = r * pgsize) (va : Nat) :
    k.pte q va = if va < maxva then g.map r (va / pgsize) else 0 := by
  have hpt : (k.proc q).pagetable = r * pgsize := hr
  rw [Kernel.pte, hpt]
  exact hk.sound.rep.leafPte (hk.live_root hq hr) va

theorem pte_congr (hk : KInv L k g) (hk' : KInv L k' g') (hq : k.Live q)
    (hhold : (k'.proc q).hold = (k.proc q).hold) {va : Nat}
    (hmap : ∀ r, (k.proc q).hold.pagetable = r * pgsize →
      g'.map r (va / pgsize) = g.map r (va / pgsize)) : k'.pte q va = k.pte q va := by
  obtain ⟨r, t, hpt, -, -⟩ := hk.user hq
  rw [hk.pte_eq hq hpt, hk'.pte_eq (hq.congr hhold) (by rw [hhold]; exact hpt), hmap r hpt]

/-! ## The process is killed -/

theorem exitTable_self (ticks : Nat) (status : Int) (proc : Slot → Proc) :
    (exitTable ticks p status proc p).state = .zombie ∧
      (exitTable ticks p status proc p).killed = (proc p).killed := by
  have hself := (reparent_reparented ticks p proc).self
  have hwake := gist_wakeup_me ticks (parentChan (reparent ticks p proc p).parent) p
    (reparent ticks p proc)
  simp only [exitTable, Function.update_self]
  exact ⟨rfl, congrArg Gist.killed (hwake.trans hself)⟩

theorem dieNow_spec (hk : KInv L k g) (hk1 : KInv L k1 g) (hp : k.Live p)
    (hproc : k1.proc = k.proc) :
    Wp (fun _ => p = initproc) (dieNow p) k1 fun _ k' => p ≠ initproc ∧ KilledBy p k k' := by
  refine (setProc_spec hk1 rfl).seq ?_
  rintro - k2 ⟨hact, rfl⟩
  unfold exit
  refine .ite (fun hinit => .of_error rfl hinit) fun hne => .modify ⟨hne, ?_⟩
  obtain ⟨hzombie, hkilled⟩ := exitTable_self (p := p) k1.ticks (-1)
    (Function.update k1.proc p { k1.proc p with killed := true })
  have hhold : ∀ q, (exitTable k1.ticks p (-1)
      (Function.update k1.proc p { k1.proc p with killed := true }) q).hold = (k.proc q).hold := by
    grind [hact.calmed, hold_exitTable, Proc.live_iff, Function.update_apply]
  refine ⟨hzombie, ?_, ?_⟩
  · rw [hkilled, Function.update_self]
  · intro q va hq
    have hcalm : Act L .calm k1 g { k1 with
        proc := exitTable k1.ticks p (-1)
          (Function.update k1.proc p { k1.proc p with killed := true }) } g := by
      refine Act.ofSame hk1 rfl ⟨fun q => ?_, rfl⟩
      exact (hhold q).trans (congrArg (fun proc => (proc q).hold) hproc.symm)
    exact pte_congr hk (hcalm.inv hk1) ((Proc.live_iff _).mpr hq) (hhold q) fun _ _ => rfl

/-! ## The page is replaced -/

section

variable (hk : KInv L k g) (hproc : Process L g p (k.proc p).hold r t) (hv : v < userPages)
  (hmap : g.map r v ≠ 0)

include hk hproc hv hmap

theorem KInv.user_ne_trapframe : ppn (g.map r v) ≠ t := by
  intro he
  have htable := hk.sound.table r hproc.image.live
  have huser : .user r v ∈ g.owners t := (htable.owner v t).mpr ⟨hv, hmap, he⟩
  cases hk.sound.held t _ _ ((hproc.holds t).mpr rfl) huser trivial

theorem Replace.pageReplaced (hmem : OnlyPage t k.km.mem k1.km.mem)
    (he : Replace r v k1.km g k'.km g') (hk' : KInv L k' g') (hsame : k'.proc = k.proc) :
    PageReplaced p v k k' := by
  have hp : k.Live p := by
    by_contra hidle
    have := (hk.idle p (by simpa using hidle)).holds t
    exact this ((hproc.holds t).mpr rfl)
  have hmax : ∀ va, va / pgsize = v → va < maxva := by
    intro va hva
    have hpages := userPages_lt
    apply Nat.lt_of_not_ge
    rw [← maxva_page, hva]
    exact va_lt_maxva (by omega)
  have hold : ∀ va, va / pgsize = v → k.pte p va = g.map r v := by
    intro va hva
    rw [hk.pte_eq hp hproc.pagetable, if_pos (hmax va hva), hva]
  have hnew : ∀ va, va / pgsize = v → k'.pte p va = g'.map r v := by
    intro va hva
    have hp' : k'.Live p := hp.congr (by rw [hsame])
    rw [hk'.pte_eq (r := r) hp' (by rw [hsame]; exact hproc.pagetable), if_pos (hmax va hva), hva]
  have htable := hk.sound.table r hproc.image.live
  refine ⟨hsame, ?_, ?_, ?_, ?_⟩
  · intro va hva
    rw [hnew va hva, pte2pa_eq]
    exact he.word
  · intro va hva heq
    rw [hnew va hva, hold va hva, pte2pa_eq, pte2pa_eq] at heq
    have hown := htable.owner_self hv hmap
    rw [← mul_pgsize_inj heq, he.fresh] at hown
    exact absurd hown (Finset.notMem_empty _)
  · intro va hva a ha
    rw [hnew va hva, hold va hva, pte2pa_eq, pte2pa_eq, he.copy a ha]
    exact hmem _ (hk.user_ne_trapframe hproc hv hmap) _ (Nat.le_add_right _ _) (by omega)
  · intro q va hq hne
    refine pte_congr hk hk' ((Proc.live_iff _).mpr hq) (by rw [hsame]) ?_
    intro r' hr'
    apply he.map
    rintro ⟨rfl, hva⟩
    exact hne ⟨hk.roots q p ((Proc.live_iff _).mpr hq) hp (hr'.trans hproc.pagetable.symm), hva⟩

end

/-! ## The handler -/

/-- What the branch does for an address with bit 31 clear, of which `va` is the low half. -/
def Faulted (p : Slot) (va : Nat) (k k' : Kernel) : Prop :=
  k.Copies p va ∧ PageReplaced p (va / pgsize) k k' ∨
    ¬ k.Copies p va ∧ p ≠ initproc ∧ KilledBy p k k'

theorem dieNow_faulted {va : Nat} (hk : KInv L k g) (hk1 : KInv L k1 g) (hp : k.Live p)
    (hproc : k1.proc = k.proc) (hno : ¬ k.Copies p va) :
    Wp (fun _ => ¬ k.Copies p va ∧ p = initproc) (dieNow p) k1 fun _ k' => Faulted p va k k' := by
  have hdie := (dieNow_spec hk hk1 hp hproc).imp_error fun _ hinit => And.intro hno hinit
  exact hdie.mono fun _ _ h => .inr ⟨hno, h⟩

theorem copyFault_spec {f va : Nat} (hk : KInv L k g) (hproc : Process L g p (k.proc p).hold r t)
    (hp : k.Live p) (hk1 : KInv L k1 g) (hsame : k1.proc = k.proc)
    (hmem : OnlyPage t k.km.mem k1.km.mem) (hn : g.node r (.leaf (va / pgsize / 512)) = some f)
    (hu : (g.map r (va / pgsize)).getLsbD 4 = true) (hcopies : k.Copies p va ↔ g.free ≠ []) :
    Wp (fun _ => ¬ k.Copies p va ∧ p = initproc) (do
      record p (.faulted (va / pgsize))
      if ← vm (copyPage L (pteAddr f (va / pgsize))) then
        setMode p .leave
      else
        dieNow p) k1 fun _ k' => Faulted p va k k' := by
  have htable := hk.sound.table r hproc.image.live
  have hmap : g.map r (va / pgsize) ≠ 0 := getLsbD_ne_zero hu
  have hv : va / pgsize < userPages := by
    by_contra hge
    rw [htable.system _ (Nat.le_of_not_lt hge)] at hu
    cases hu
  refine .bind (.modify ?_)
  refine Wp.call (copyPage_spec hk1.sound.rep htable hv hmap hn) ?_
  rintro b km' (⟨rfl, rfl, hfree⟩ | ⟨rfl, g', hrep, he⟩)
  · refine dieNow_faulted (g := g) hk ?_ hp hsame fun hc => hcopies.mp hc hfree
    exact hk1.same hk1.sound rfl rfl rfl (Same.ofProc rfl rfl)
  · have hs := hk1.sound.replace hproc.image.live hrep hv he
    refine Wp.setMode (.inl ⟨hcopies.mpr (he.free_ne hk1.sound.rep hrep), ?_⟩)
    refine he.pageReplaced hk hproc hv hmap hmem ?_ hsame
    refine hk1.sameTable (p := p) (hp.congr (by rw [hsame])) (hsame ▸ hproc.pagetable) hs
      (he.frame hk1.sound.rep hrep) (Same.ofProc rfl rfl) ?_
    intro t' hi
    exact hi.replace (hi.lt_of_mapped hv hmap) he

theorem trapFault_spec {stval va : Nat} (hk : KInv L k g) (hp : k.Live p)
    (hmod : stval % 2 ^ 32 = va) (hlow : va < 2 ^ 31) :
    Wp (fun _ => ¬ k.Copies p va ∧ p = initproc) (trapFault L p stval) k fun _ k' =>
      Faulted p va k k' := by
  obtain ⟨r, t, hproc⟩ := hk.live p hp
  have hva : toInt32 stval = va := by
    rw [toInt32, Int.bmod_def]
    omega
  have hwide : ((va : Int) % 2 ^ 64).toNat = va := by omega
  have hcopies : k.Copies p va ↔ va ≠ 0 ∧ g.free ≠ [] ∧
      (g.map r (va / pgsize)).getLsbD 8 = true ∧ (g.map r (va / pgsize)).getLsbD 2 = false ∧
      (g.map r (va / pgsize)).getLsbD 4 = true ∧ (g.map r (va / pgsize)).getLsbD 0 = true := by
    rw [Kernel.Copies, hk.pte_eq hp hproc.pagetable, if_pos (by unfold maxva; omega),
      hk.sound.rep.freelist_ne_iff, hasFlag_w, hasFlag_cow, hasFlag_u, hasFlag_v]
  unfold trapFault
  rw [hva]
  refine (uservec_spec hk hp).seq ?_
  rintro - k1 ⟨⟨hsame, -, -, hpage⟩, hacts⟩
  have hk1 := hacts.inv hk
  have hmem : OnlyPage t k.km.mem k1.km.mem := hpage t hproc.trapframe
  have hdie := fun hno : ¬ k.Copies p va => dieNow_faulted hk hk1 hp hsame hno
  dsimp only
  rw [hwide]
  refine .ite (fun hzero => hdie fun hc => hc.1 (by omega)) fun hzero => ?_
  have hpt : (k1.proc p).pagetable = r * pgsize := by
    rw [hsame]
    exact hproc.pagetable
  refine .bind (.get ?_)
  rw [hpt, ← walk_page]
  have hv : va / pgsize < 2 ^ 26 := by
    rw [pgsize_eq]
    omega
  refine Wp.call (walk_find hk1.sound.rep hproc.image.live hv) ?_
  rintro a km' ⟨rfl, ⟨hnone, rfl⟩ | ⟨f, hn, rfl⟩⟩
  · refine hdie ?_
    simp [hcopies, hk.sound.rep.absent r _ hnone]
  rw [if_neg (pteAddr_ne_zero hk1.sound.rep hn)]
  refine .bind (Wp.vm (Wp.loadWord ?_))
  rw [hk1.sound.rep.load_pte hn, hasFlag_w, hasFlag_cow, hasFlag_u, hasFlag_v]
  split
  · exact hdie (by grind)
  split
  · exact hdie (by grind)
  next hwrite huser =>
  refine copyFault_spec hk hproc hp hk1 hsame hmem hn ?_ ?_
  · grind
  · grind

theorem trapFault_panics {stval : Nat} (hk : KInv L k g) (hp : k.Live p)
    (hhigh : 2 ^ 31 ≤ stval % 2 ^ 32) (k' : Kernel) : trapFault L p stval k ≠ .ok ((), k') := by
  intro hok
  have hva : toInt32 stval = (stval % 2 ^ 32 : Nat) - 2 ^ 32 := by
    rw [toInt32, Int.bmod_def]
    omega
  have hspec : Wp (fun _ => True) (trapFault L p stval) k fun _ _ => False := by
    unfold trapFault
    rw [hva]
    refine (uservec_spec hk hp).seq ?_
    intro _ k1 _
    dsimp only
    rw [if_neg (by omega)]
    refine .bind (.get (.bind (Wp.vm (.ite (fun _ => .of_error rfl trivial) fun hlt => ?_))))
    unfold maxva at hlt
    omega
  exact hspec.of_ok hok

/-- In every run in which `sigreturn` is only called in a handler, and for every address, the branch
returns and kills the process or, for an address below `2^31`, gives it a page of its own, if and
only if bit 31 of the address is clear, and the address is below `2^32` if its low half is in a page
that can be copied, while the process is not the first one if it is not. -/
theorem store_fault_kills_or_replaces {b : Sched.Build} {steps : List Step} (stval : Nat)
    (h : Run L b steps k) (hd : Disciplined steps) (hp : (k.proc p).state ≠ .unused) :
    (∃ k', trapFault L p stval k = .ok ((), k') ∧
      (KilledBy p k k' ∨ stval < 2 ^ 31 ∧ PageReplaced p (stval / pgsize) k k')) ↔
    stval % 2 ^ 32 < 2 ^ 31 ∧ (k.Copies p (stval % 2 ^ 32) → stval < 2 ^ 32) ∧
      (¬ k.Copies p (stval % 2 ^ 32) → p ≠ initproc) := by
  obtain ⟨g, hk⟩ := h.inv hd
  rw [← Proc.live_iff] at hp
  by_cases hlow : stval % 2 ^ 32 < 2 ^ 31
  · have hspec := trapFault_spec hk hp rfl hlow
    cases hres : trapFault L p stval k with
    | error e =>
      obtain ⟨hno, hinit⟩ := hspec.failed hres
      exact iff_of_false (by rintro ⟨k', hok, -⟩; cases hok) fun hc => hc.2.2 hno hinit
    | ok res =>
      obtain ⟨⟨⟩, k'⟩ := res
      obtain ⟨hc, hrep⟩ | ⟨hno, hne, hkill⟩ := hspec.of_ok hres
      · constructor
        · rintro ⟨_, hok, hpost⟩
          cases hok
          refine ⟨hlow, fun _ => ?_, fun hno => absurd hc hno⟩
          rcases hpost with hkill | ⟨hlt, -⟩
          · have hsame := hkill.entries p (stval % 2 ^ 32) ((Proc.live_iff _).mp hp)
            exact absurd (congrArg pte2pa hsame) (hrep.moved _ rfl)
          · omega
        · rintro ⟨-, hlt, -⟩
          have hmod := Nat.mod_eq_of_lt (hlt hc)
          rw [hmod] at hlow hrep
          exact ⟨k', rfl, .inr ⟨hlow, hrep⟩⟩
      · exact iff_of_true ⟨k', rfl, .inl hkill⟩ ⟨hlow, fun hc => absurd hc hno, fun _ => hne⟩
  · refine iff_of_false ?_ fun hc => hlow hc.1
    rintro ⟨k', hok, -⟩
    exact trapFault_panics hk hp (Nat.le_of_not_lt hlow) k' hok

/-- A store of the child to `TRAPFRAME` stops the kernel, and one to `2^32 + 8` gives the child a
page in place of the one at address `8`. -/
theorem store_fault_panics : ∃ steps k, Run smallLayout .RR steps k ∧ Disciplined steps ∧
    k.runs secondproc .user = true ∧
    step smallLayout .RR (.fault secondproc trapframeVa) k = .error .walk ∧
    ∃ k', step smallLayout .RR (.fault secondproc (2 ^ 32 + 8)) k = .ok ((), k') ∧
      (k'.proc secondproc).killed = false ∧ k'.pte secondproc 8 ≠ k.pte secondproc 8 := by
  obtain ⟨steps, k, hrun, hd, hruns, hpanic, _, k', hok, hother⟩ := exists_disciplined_run childOps
    (fun _ k => k.runs secondproc .user ∧
      fails (step smallLayout .RR (.fault secondproc trapframeVa) k) .walk ∧
      ∃ a k', step smallLayout .RR (.fault secondproc (2 ^ 32 + 8)) k = .ok (a, k') ∧
        (k'.proc secondproc).killed = false ∧ k'.pte secondproc 8 ≠ k.pte secondproc 8)
    (by decide +kernel)
  exact ⟨steps, k, hrun, hd, hruns, fails_iff.mp hpanic, k', hok, hother⟩

/-- A store of the child to its first page. -/
theorem store_fault_kills_or_replaces_child : ∃ steps k k', Run smallLayout .RR steps k ∧
    k.runs secondproc .user = true ∧ trapFault smallLayout secondproc 8 k = .ok ((), k') ∧
    (KilledBy secondproc k k' ∨ 8 < 2 ^ 31 ∧ PageReplaced secondproc (8 / pgsize) k k') := by
  obtain ⟨steps, k, hrun, hd, hruns⟩ := exists_disciplined_run childOps
    (fun _ k => k.runs secondproc .user) (by decide +kernel)
  have hstate := (Proc.live_iff _).mp (Kernel.runs_live hruns)
  obtain ⟨k', hok, hpost⟩ := (store_fault_kills_or_replaces 8 hrun hd hstate).mpr
    ⟨by decide, fun _ => by decide, fun _ => by decide⟩
  exact ⟨steps, k, k', hrun, hruns, hok, hpost⟩

end Xv6
