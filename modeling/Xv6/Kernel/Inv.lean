import Xv6.Trap
import Xv6.Vm.ExecSpec

/-!
# Processes and the account of memory

The invariant of the whole kernel: the process table, the pages that kernel code holds and the
account of physical memory belong together.
-/

namespace Xv6

open ByteMem

variable {L : Layout} {k k' : Kernel} {g g' : Account} {p q : Slot} {r t : Nat}

/-- What the record of a process says about memory. -/
structure Hold where
  live : Bool
  pagetable : Nat
  trapframe : Nat
  sz : Nat
  alarmRunning : Bool
  backup : Nat

def Proc.hold (q : Proc) : Hold where
  live := q.state ≠ .unused
  pagetable := q.pagetable
  trapframe := q.trapframe
  sz := q.sz
  alarmRunning := q.state ≠ .unused && q.alarmRunning
  backup := q.backupTrapFrame

/-- A process with the table `r` and its trapframe in frame `t`. -/
structure Process (L : Layout) (g : Account) (p : Slot) (h : Hold) (r t : Nat) : Prop where
  pagetable : h.pagetable = r * pgsize
  trapframe : h.trapframe = t * pgsize
  image : Image L g r (pagesOf h.sz) t
  holds : ∀ f, .held (.trapframe p) ∈ g.owners f ↔ f = t
  backup : h.alarmRunning = true → ∃ f, h.backup = f * pgsize ∧ .held (.backup p) ∈ g.owners f

structure Idle (g : Account) (p : Slot) (h : Hold) : Prop where
  pagetable : h.pagetable = 0
  trapframe : h.trapframe = 0
  sz : h.sz = 0
  holds : ∀ f, .held (.trapframe p) ∉ g.owners f

abbrev Kernel.Live (k : Kernel) (p : Slot) : Prop := (k.proc p).hold.live = true

structure KInv (L : Layout) (k : Kernel) (g : Account) : Prop where
  sound : Sound L k.km g
  live : ∀ p, (k.proc p).hold.live = true → ∃ r t, Process L g p (k.proc p).hold r t
  idle : ∀ p, (k.proc p).hold.live = false → Idle g p (k.proc p).hold
  roots : ∀ p q, (k.proc p).hold.live = true → (k.proc q).hold.live = true →
    (k.proc p).hold.pagetable = (k.proc q).hold.pagetable → p = q
  tables : ∀ r, g.Live r → ∃ p, (k.proc p).hold.live = true ∧ (k.proc p).hold.pagetable = r * pgsize
  pages : ∀ f, .held .page ∈ g.owners f ↔ f * pgsize ∈ k.pages
  aligned : ∀ a ∈ k.pages, ∃ f, a = f * pgsize
  distinct : k.pages.Nodup

section

variable (h : KInv L k g) (hp : k.Live p)

include h hp

theorem KInv.root_ne (hq : k.Live q) (hne : p ≠ q) {r' : Nat}
    (hr : (k.proc p).hold.pagetable = r * pgsize) (hr' : (k.proc q).hold.pagetable = r' * pgsize) :
    r ≠ r' := by
  rintro rfl
  exact hne (h.roots p q hp hq (hr.trans hr'.symm))

theorem KInv.user : ∃ r t, (k.proc p).pagetable = r * pgsize ∧
    (k.proc p).trapframe = t * pgsize ∧ Image L g r (pagesOf (k.proc p).sz) t := by
  obtain ⟨r, t, hproc⟩ := h.live p hp
  exact ⟨r, t, hproc.pagetable, hproc.trapframe, hproc.image⟩

theorem KInv.process
    (hr : (k.proc p).hold.pagetable = r * pgsize) : ∃ t, Process L g p (k.proc p).hold r t := by
  obtain ⟨r', t, hproc⟩ := h.live p hp
  obtain rfl := mul_pgsize_inj (hproc.pagetable.symm.trans hr)
  exact ⟨t, hproc⟩

theorem KInv.live_root (hr : (k.proc p).hold.pagetable = r * pgsize) : g.Live r := by
  obtain ⟨t, hproc⟩ := h.process hp hr
  exact hproc.image.live

end

/-- What a change of the account leaves of a process. -/
structure Untouched (g g' : Account) (q : Slot) (r : Nat) : Prop where
  node : g'.node r = g.node r
  map : g'.map r = g.map r
  trapframe : ∀ f, .held (.trapframe q) ∈ g'.owners f ↔ .held (.trapframe q) ∈ g.owners f
  backup : ∀ f, .held (.backup q) ∈ g'.owners f ↔ .held (.backup q) ∈ g.owners f

theorem Process.untouched {h : Hold} (hp : Process L g q h r t) (hu : Untouched g g' q r) :
    Process L g' q h r t := by
  refine { hp with image := hp.image.congr hu.node hu.map, holds := ?_, backup := fun ha => ?_ }
  · exact fun f => (hu.trapframe f).trans (hp.holds f)
  · obtain ⟨f, hf, hb⟩ := hp.backup ha
    exact ⟨f, hf, (hu.backup f).mpr hb⟩

theorem Idle.congr {h : Hold} (hi : Idle g q h)
    (ht : ∀ f, .held (.trapframe q) ∈ g'.owners f ↔ .held (.trapframe q) ∈ g.owners f) :
    Idle g' q h :=
  { hi with holds := fun f hf => hi.holds f ((ht f).mp hf) }

/-! ## Updates that do not concern memory -/

theorem Proc.live_iff (q : Proc) : q.hold.live = true ↔ q.state ≠ .unused := by simp [Proc.hold]

theorem Kernel.Live.of_state {st : ProcState} (h : (k.proc p).state = st) (hst : st ≠ .unused) :
    k.Live p :=
  (Proc.live_iff _).mpr (h ▸ hst)

theorem Kernel.Live.congr (hp : k.Live p) (h : (k'.proc p).hold = (k.proc p).hold) : k'.Live p := by
  rw [Kernel.Live, h]
  exact hp

theorem Kernel.Live.ne (hp : k.Live p) (hq : (k.proc q).hold.live = false) : p ≠ q := by
  rintro rfl
  exact absurd (hq.symm.trans hp) Bool.false_ne_true

theorem Proc.hold_congr {q q' : Proc} (hs : q'.state = .unused ↔ q.state = .unused)
    (h1 : q'.pagetable = q.pagetable) (h2 : q'.trapframe = q.trapframe) (h3 : q'.sz = q.sz)
    (h4 : q'.alarmRunning = q.alarmRunning) (h5 : q'.backupTrapFrame = q.backupTrapFrame) :
    q'.hold = q.hold := by
  simp only [Proc.hold, h1, h2, h3, h4, h5, ne_eq, hs]

theorem Proc.hold_renice (q : Proc) : q.renice.hold = q.hold := by
  unfold Proc.renice
  split <;> rfl

theorem Proc.hold_yield {q : Proc} (h : q.state ≠ .unused) (ticks : Nat) :
    (q.yield ticks).hold = q.hold :=
  (Proc.hold_renice _).trans (Proc.hold_congr (by simp [h]) rfl rfl rfl rfl rfl)

theorem Proc.hold_sleep {q : Proc} (h : q.state ≠ .unused) (ticks chan : Nat) :
    (q.sleep ticks chan).hold = q.hold :=
  Proc.hold_congr (by simp [Proc.sleep, h]) rfl rfl rfl rfl rfl

theorem Proc.hold_exit {q : Proc} (h : q.state ≠ .unused) (ticks : Nat) (status : Int) :
    (q.exit ticks status).hold = q.hold :=
  Proc.hold_congr (by simp [Proc.exit, h]) rfl rfl rfl rfl rfl

theorem Proc.hold_wakeup (q : Proc) (ticks chan : Nat) : (q.wakeup ticks chan).hold = q.hold := by
  unfold Proc.wakeup
  split
  · next h =>
    refine (Proc.hold_renice _).trans ?_
    exact Proc.hold_congr (by simp [h.1]) rfl rfl rfl rfl rfl
  · rfl

theorem Proc.hold_kill (q : Proc) : q.kill.hold = q.hold := by
  refine Proc.hold_congr ?_ rfl rfl rfl rfl rfl
  unfold Proc.kill
  split
  · next h => simp [h]
  · exact Iff.rfl

theorem Proc.hold_updateTime (q : Proc) : q.updateTime.hold = q.hold := by
  unfold Proc.updateTime
  split <;> rfl

theorem Proc.hold_dispatched {q : Proc} (h : q.state ≠ .unused) (b : Sched.Build) (ticks : Nat)
    (last : Bool) :
    ((if last then Sched.dispatched4 else Sched.dispatched b ticks) q).hold = q.hold := by
  cases last
  · grind [Proc.hold_congr, Sched.dispatched]
  · exact Proc.hold_congr (by simp [Sched.dispatched4, h]) rfl rfl rfl rfl rfl

theorem Proc.hold_demoteStep (q : Proc) (ticks : Nat) :
    (Sched.demoteStep ticks q).hold = q.hold := by
  unfold Sched.demoteStep
  split <;> rfl

theorem Proc.hold_ageStep (q : Proc) (ticks : Nat) : (Sched.ageStep ticks q).hold = q.hold := by
  unfold Sched.ageStep
  repeat' split
  all_goals rfl

theorem hold_wakeup (ticks chan : Nat) (me : Option Slot) (proc : Slot → Proc) (q : Slot) :
    (wakeup ticks chan me proc q).hold = (proc q).hold := by
  unfold wakeup
  split
  · rfl
  · exact Proc.hold_wakeup _ _ _

theorem hold_reparentStep (ticks : Nat) (p : Slot) (proc : Slot → Proc) (c q : Slot) :
    (reparentStep ticks p proc c q).hold = (proc q).hold := by
  unfold reparentStep
  split
  · rw [hold_wakeup]
    by_cases h : q = c
    · subst h
      rw [Function.update_self]
      rfl
    · rw [Function.update_of_ne h]
  · rfl

theorem hold_reparent (ticks : Nat) (p : Slot) (proc : Slot → Proc) (q : Slot) :
    (reparent ticks p proc q).hold = (proc q).hold := by
  unfold reparent
  generalize List.finRange nproc = slots
  induction slots generalizing proc with
  | nil => rfl
  | cons c _ ih => exact (ih _).trans (hold_reparentStep ticks p proc c q)

theorem hold_exitTable {proc : Slot → Proc} (h : (proc p).state ≠ .unused) (ticks : Nat)
    (status : Int) (q : Slot) : (exitTable ticks p status proc q).hold = (proc q).hold := by
  have hall : ∀ q, (wakeup ticks (parentChan (reparent ticks p proc p).parent) (some p)
      (reparent ticks p proc) q).hold = (proc q).hold :=
    fun q => (hold_wakeup _ _ _ _ q).trans (hold_reparent _ _ _ q)
  unfold exitTable
  by_cases he : q = p
  · grind [Proc.hold_exit, Proc.live_iff, Function.update_apply]
  · grind

end Xv6
