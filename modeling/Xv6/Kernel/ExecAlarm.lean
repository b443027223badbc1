import Xv6.Kernel.Fate
import Xv6.Kernel.Saved

/-!
# Alarms across `exec`

`exec` replaces the address space and leaves `alarmFreq`, `alarmHandler`, `alarmRunning` and the
saved trapframe of the process as they are. If they are off at every successful `exec`, nothing of
an alarm gets from one program to the next.
-/

namespace Xv6

open ByteMem
open Function (update_self)

variable {L : Layout} {b : Sched.Build} {k k' : Kernel} {g : Account} {p q : Slot} {op : Op}
  {steps : List Step}
variable {image : NewImage}
variable {ip : Inode} {km1 : Kmem} {o : Outside}

/-! ## Programs in a run -/

/-- A successful `exec` of `p`: the process has another page table afterwards. -/
def Step.execs (p : Slot) (s : Step) : Bool :=
  s.op.Calls s.pre p .exec ∧ (s.post.proc p).pagetable ≠ (s.pre.proc p).pagetable

/-- `p` has called `exec` with success, and not `sigalarm` since. -/
def sinceExec (p : Slot) : List Step → Bool
  | [] => false
  | s :: steps => s.execs p || (¬ s.op.Calls s.pre p .sigalarm && sinceExec p steps)

/-- A program that calls `exec` with success has its alarm off and is in no handler. -/
def Step.clean (s : Step) : Bool :=
  decide (∀ p, s.execs p = true →
    (s.pre.proc p).alarmFreq = 0 ∧ (s.pre.proc p).alarmRunning = false)

/-- The registers `u` were those of `p` at a timer trap of the program that it runs. -/
inductive SavedHere (p : Slot) (u : User) : List Step → Prop where
  | deliver {s : Step} {steps : List Step} (hop : s.op = .timer p) (hu : s.pre.user p = u) :
      SavedHere p u (s :: steps)
  | later {s : Step} {steps : List Step} (hs : s.execs p = false) (h : SavedHere p u steps) :
      SavedHere p u (s :: steps)

/-! ## No alarm is delivered -/

def Gist.Silent (g : Gist) : Prop := g.alarmFreq = 0 ∧ g.alarmRunning = false

theorem Gist.Silent.deliver {g : Gist} (h : g.Silent) : g.deliver.Silent := by
  unfold Gist.deliver
  rw [if_neg (by simp [Gist.alarmDue, h.1])]
  exact h

theorem Fate.silent {g : Gist} (h : Fate b k op q g) (hq : (k.proc q).gist.Silent)
    (hn : ¬ op.Calls k q .sigalarm) : g.Silent := by
  cases h with
  | timed => split <;> exact hq.deliver
  | created | refused => exact ⟨rfl, rfl⟩
  | sigalarm hop => exact absurd hop hn
  | sigreturn => exact ⟨hq.1, rfl⟩
  | _ => exact hq

theorem Run.silent (h : Run L b steps k) (hc : ∀ s ∈ steps, s.clean = true)
    (hs : sinceExec p steps = true) : (k.proc p).gist.Silent := by
  induction h with
  | boot => cases hs
  | @step steps k k' op _ hstep ih =>
    have hclean := of_decide_eq_true (hc _ List.mem_cons_self)
    have hfate := step_fate hstep p
    simp only [sinceExec, Bool.or_eq_true, Bool.and_eq_true, decide_eq_true_eq] at hs
    rcases hs with hexec | ⟨hno, hs⟩
    · refine hfate.silent (hclean p hexec) ?_
      intro hcall
      have hsys := (of_decide_eq_true hexec).1.2.2
      rw [hcall.2.2] at hsys
      cases hsys
    · exact hfate.silent (ih (fun s hs => hc s (List.mem_cons_of_mem _ hs)) hs) hno

theorem trapTimer_silent (hk : KInv L k g) (hp : k.Live p) (hoff : (k.proc p).alarmFreq = 0) :
    Wp (fun _ => True) (trapTimer b p) k fun _ k' =>
      load64 k'.km.mem ((k'.proc p).trapframe + tfEpc) = (k.user p).pc := by
  refine (uservec_spec hk hp).seq ?_
  rintro - k1 ⟨⟨hproc, -, hsaves, -⟩, -⟩
  have hkeep : ∀ q' : Proc, q'.hold = (k1.proc p).hold →
      load64 k1.km.mem (q'.trapframe + tfEpc) = (k.user p).pc := by
    intro q' hq'
    have htf : q'.trapframe = (k1.proc p).trapframe := congrArg Hold.trapframe hq'
    rw [htf]
    exact hsaves.epc
  have hlive : (k1.proc p).state ≠ .unused := by
    rw [hproc]
    exact (Proc.live_iff _).mp hp
  refine .bind (.get ?_)
  split
  · unfold exit
    split
    · exact Wp.throw trivial
    · exact .modify (hkeep _ (hold_exitTable hlive _ _ p))
  · refine .bind (.bind (.get ?_))
    have hdue : (k1.proc p).alarmDue = false := by
      rw [hproc]
      simp [Proc.alarmDue, hoff]
    rw [hdue, if_neg Bool.false_ne_true]
    refine .pure (.bind (Wp.setMode ?_))
    split
    · refine .bind (.get (Wp.setProc ?_))
      dsimp only
      rw [update_self]
      exact hkeep _ (Proc.hold_yield hlive _)
    · exact .pure (hkeep _ rfl)

/-! ## No registers are restored -/

theorem Saved.here {u : User} (h : Saved p u steps) (hc : ∀ s ∈ steps, s.clean = true) :
    SavedHere p u steps := by
  induction h with
  | deliver hop hu => exact .deliver hop hu
  | @later s steps hon _ ih =>
    refine .later ?_ (ih fun s hs => hc s (List.mem_cons_of_mem _ hs))
    cases hexec : s.execs p with
    | false => rfl
    | true =>
      have hclean := of_decide_eq_true (hc _ List.mem_cons_self)
      rw [(hclean p hexec).2] at hon
      cases hon

/-- In a run in which `sigreturn` is only called in a handler and `exec` only with the alarm off:
from a successful `exec` to the next `sigalarm` no handler is active, and a timer trap does not
redirect the program counter; and every `sigreturn` restores registers of the program that runs. -/
theorem alarms_do_not_cross_exec (h : Run L b steps k) (hd : Disciplined steps)
    (hc : ∀ s ∈ steps, s.clean = true) (p : Slot) :
    (sinceExec p steps = true → (k.proc p).alarmRunning = false ∧
      ∀ k', k.runs p .user = true → step L b (.timer p) k = .ok ((), k') →
        load64 k'.km.mem ((k'.proc p).trapframe + tfEpc) = (k.user p).pc) ∧
    ∀ o k', (Op.syscall p o).Calls k p .sigreturn → (k.proc p).alarmRunning = true →
      step L b (.syscall p o) k = .ok ((), k') →
        ∃ u, SavedHere p u steps ∧ Saves u k'.km.mem (k'.proc p).trapframe := by
  obtain ⟨g, hk, hsaved⟩ := h.saved hd
  constructor
  · intro hs
    obtain ⟨hfreq, hoff⟩ := h.silent hc hs
    refine ⟨hoff, ?_⟩
    intro k' hruns hstep
    obtain ⟨-, htrap⟩ | ⟨hno, -⟩ := guarded_ok hstep
    · exact (trapTimer_silent hk (Kernel.runs_live hruns) hfreq).of_ok htrap
    · rw [hruns] at hno
      cases hno
  · intro o k' hcall hon hstep
    have hrunning := Kernel.running_of_runs hcall.2.1
    have hactive : (k.proc p).hold.alarmRunning = true := by simp [Proc.hold, hrunning, hon]
    obtain ⟨u, hs, hsaves⟩ := hsaved p hactive
    exact ⟨u, hs.here hc, sigreturn_restores hk hcall hactive hsaves hstep⟩

/-! ## A program that starts with an alarm set -/

section

variable (hk : KInv L k g) (hfile : o.file = some ip) (hfree : km1.freelist ≠ 0)
  (himage : execImage L (k.proc p).trapframe ip o.argv k.km = .ok (some image, km1))

include hk hfile hfree himage

theorem sysExec_commits (hp : k.Live p) :
    Wp (fun _ => False) (do
      let r ← sysExec L p o
      sysReturn p r) k fun _ k' => (k'.user p).mode = .leave ∧ k'.km.freelist ≠ 0 ∧
        (k'.proc p).pagetable ≠ (k.proc p).pagetable := by
  unfold sysExec sysReturn
  rw [hfile]
  refine .bind ((exec_commits hk hp himage).seq ?_)
  rintro _ k1 ⟨-, hleft, g1, hact⟩
  refine .pure (.bind (Wp.storeTf (Wp.setMode ⟨?_, hleft hfree, ?_⟩)))
  · dsimp only
    rw [update_self]
  · cases hact with
    | @exec _ _ _ _ _ r0 r t sz _ hproc _ hdead _ _ _ honly =>
      intro he
      have hnew : (k1.proc p).pagetable = r * pgsize := congrArg Hold.pagetable honly.self
      have hold : (k.proc p).pagetable = r0 * pgsize := hproc.pagetable
      obtain rfl := mul_pgsize_inj (hnew.symm.trans (he.trans hold))
      exact hdead hproc.image.live

theorem exec_step (hruns : k.runs p .syscall = true) (hsys : k.sysno p = .exec) :
    ∃ k', step L b (.syscall p o) k = .ok ((), k') ∧ k'.core = k.core ∧
      (k'.user p).mode = .leave ∧ k'.km.freelist ≠ 0 ∧
      Step.execs p ⟨k, .syscall p o, k'⟩ = true := by
  have hcode : Wp (fun _ => False) (syscall L p o) k fun _ k' => (k'.user p).mode = .leave ∧
      k'.km.freelist ≠ 0 ∧ (k'.proc p).pagetable ≠ (k.proc p).pagetable := by
    refine .bind (.get ?_)
    rw [hsys]
    exact sysExec_commits hk hfile hfree himage (Kernel.runs_live hruns)
  have hcore : Wp (fun _ => True) (syscall L p o) k fun _ k' => k'.core = k.core := by
    refine .bind (.get ?_)
    rw [hsys]
    exact ((sysExec_keeps o).bind fun r => sysReturn_keeps r).run k
  obtain ⟨_, k', hok, hmode, hleft, hpt⟩ := hcode.total
  refine ⟨k', (guarded_true hruns).trans hok, hcore.of_ok hok, hmode, hleft, ?_⟩
  exact decide_eq_true ⟨⟨⟨o, rfl⟩, hruns, hsys⟩, hpt⟩

end

theorem runs_of {mode : Mode} (hrunning : (k.proc p).state = .running)
    (hmode : (k.user p).mode = mode) : k.runs p mode = true := by
  simp [Kernel.runs, hrunning, hmode]

theorem leave_ret (hrunning : (k.proc p).state = .running) (hmode : (k.user p).mode = .leave)
    (hkilled : (k.proc p).killed = false) :
    ∃ k1 k2, step L b (.leave p) k = .ok ((), k1) ∧ step L b (.ret p 0) k1 = .ok ((), k2) ∧
      k2.proc = k.proc ∧ (k2.user p).mode = .user ∧ k2.km.freelist = k.km.freelist := by
  have hleave : Wp (fun _ => False) (trapLeave p) k fun _ k1 => k1.proc = k.proc ∧
      (k1.user p).mode = .ret ∧ k1.km.freelist = k.km.freelist := by
    refine .bind (.get ?_)
    rw [hkilled, if_neg Bool.false_ne_true]
    refine Wp.setMode ⟨rfl, ?_, rfl⟩
    dsimp only
    rw [update_self]
  obtain ⟨_, k1, hok1, hproc1, hmode1, hfree1⟩ := hleave.total
  have hret : Wp (fun _ => False) (usertrapret L p 0) k1 fun _ k2 => k2.proc = k1.proc ∧
      (k2.user p).mode = .user ∧ k2.km.freelist = k1.km.freelist := by
    refine .bind (Wp.storeTf (.bind (Wp.storeTf (.bind (Wp.storeTf (.bind
      (Wp.storeTf (.modify ⟨rfl, ?_, rfl⟩))))))))
    dsimp only
    rw [update_self]
    rfl
  obtain ⟨_, k2, hok2, hproc2, hmode2, hfree2⟩ := hret.total
  have hrunning1 : (k1.proc p).state = .running := by
    rw [hproc1]
    exact hrunning
  exact ⟨k1, k2, (guarded_true (runs_of hrunning hmode)).trans hok1,
    (guarded_true (runs_of hrunning1 hmode1)).trans hok2, hproc2.trans hproc1, hmode2,
    hfree2.trans hfree1⟩

theorem Proc.trapframe_yield (q : Proc) (ticks : Nat) :
    (q.yield ticks).trapframe = q.trapframe := by
  unfold Proc.yield Proc.renice
  split <;> rfl

theorem timer_delivers (hk : KInv L k g) (hruns : k.runs p .user = true)
    (hkilled : (k.proc p).killed = false) (hdue : (k.proc p).alarmDue = true)
    (hfree : k.km.freelist ≠ 0) :
    ∃ k', step L b (.timer p) k = .ok ((), k') ∧
      load64 k'.km.mem ((k'.proc p).trapframe + tfEpc) = (k.proc p).alarmHandler := by
  have hp := Kernel.runs_live hruns
  have htrap : Wp (fun _ => False) (trapTimer b p) k fun _ k' =>
      load64 k'.km.mem ((k'.proc p).trapframe + tfEpc) = (k.proc p).alarmHandler := by
    refine (uservec_spec hk hp).seq ?_
    rintro - k1 ⟨⟨hproc, -, -, -⟩, hacts⟩
    have hk1 := hacts.inv hk
    refine .bind (.get ?_)
    rw [hproc, hkilled, if_neg Bool.false_ne_true]
    refine .bind (.bind (.get ?_))
    rw [hproc, hdue, if_pos rfl]
    refine Wp.call (kallocHeld_spec hk1.sound (x := .backup p) (by simp)) ?_
    rintro pa km2 (⟨-, -, hnone⟩ | ⟨-, -, -, hne, -⟩)
    · exact absurd hnone (hk.sound.rep.freelist_ne_iff.mp hfree)
    rw [if_neg hne]
    refine .bind (Wp.vm (Wp.memmove (.bind (Wp.setProc (Wp.storeTf (.bind (Wp.setMode ?_)))))))
    split
    · refine .bind (.get (Wp.setProc ?_))
      simp only [update_self, Proc.trapframe_yield]
      exact load64_store64 _ _ _
    · exact .pure (load64_store64 _ _ _)
  obtain ⟨_, k', hok, hpc⟩ := htrap.total
  exact ⟨k', (guarded_true hruns).trans hok, hpc⟩

def bareProgram : Inode where
  size := 64
  data i :=
    if i = 0 then 0x7f else if i = 1 then 0x45 else if i = 2 then 0x4c else if i = 3 then 0x46
    else 0

/-- The first process runs for a tick, calls `sigalarm(interval, handler)` and then `exec`. -/
def alarmExecOps (interval handler : Nat) : List Op :=
  startOps initproc ++ [.tick, .timer initproc] ++ startOps initproc ++
    callOps initproc 25 interval handler ++ ecallOps initproc 7 0 0

abbrev Kernel.ReadyToExec (k : Kernel) : Prop :=
  k.runs initproc .syscall ∧ k.sysno initproc = .exec ∧ (k.proc initproc).killed = false ∧
    ∃ image km₁, execImage smallLayout (k.proc initproc).trapframe bareProgram [] k.km =
      .ok (image, km₁) ∧ image.isSome ∧ km₁.freelist ≠ 0

theorem exec_run (h : Run smallLayout .RR steps k) (hd : Disciplined steps)
    (hready : k.ReadyToExec) :
    ∃ new k', Run smallLayout .RR (new ++ steps) k' ∧ Disciplined (new ++ steps) ∧
      sinceExec initproc (new ++ steps) = true ∧
      ((k.proc initproc).gist.Silent → ∀ s ∈ new, s.clean = true) ∧
      (∀ q, (k'.proc q).gist = (k.proc q).gist) ∧ k'.runs initproc .user = true ∧
      k'.km.freelist ≠ 0 := by
  obtain ⟨g, hk⟩ := h.inv hd
  obtain ⟨hruns, hsys, hkilled, _ | image, km1, himage, hsome, hfree⟩ := hready
  · cases hsome
  obtain ⟨k1, hstep1, hcore, hmode, hleft, hexecs⟩ :=
    exec_step (b := .RR) (o := { file := some bareProgram }) hk rfl hfree himage hruns hsys
  have hgist : ∀ q, (k1.proc q).gist = (k.proc q).gist :=
    fun q => congrArg (fun c => c.gist q) hcore
  have hrunning : (k1.proc initproc).state = .running :=
    (congrArg Gist.state (hgist initproc)).trans (Kernel.running_of_runs hruns)
  obtain ⟨k2, k3, hstep2, hstep3, hproc, hmode3, hleft3⟩ :=
    leave_ret (L := smallLayout) (b := .RR) hrunning hmode ((congrArg Gist.killed (hgist initproc)).trans hkilled)
  refine ⟨[⟨k2, .ret initproc 0, k3⟩, ⟨k1, .leave initproc, k2⟩, ⟨k, _, k1⟩], k3,
    ((h.step hstep1).step hstep2).step hstep3, ?_, ?_, ?_, ?_, ?_, ?_⟩
  · intro s hs
    simp only [List.cons_append, List.nil_append, List.mem_cons] at hs
    rcases hs with rfl | rfl | rfl | hs
    · rfl
    · rfl
    · simp [Op.disciplined, hsys]
    · exact hd s hs
  · simp only [List.cons_append, List.nil_append, sinceExec, hexecs]
    simp [Op.Calls]
  · intro hsilent s hs
    simp only [List.mem_cons, List.not_mem_nil, or_false] at hs
    rw [Step.clean, decide_eq_true_eq]
    intro q hq
    rcases hs with rfl | rfl | rfl
    · simp [Step.execs, Op.Calls] at hq
    · simp [Step.execs, Op.Calls] at hq
    · obtain ⟨_, hop⟩ := (of_decide_eq_true hq).1.1
      cases hop
      exact hsilent
  · intro q
    rw [hproc]
    exact hgist q
  · grind [runs_of]
  · rw [hleft3]
    exact hleft

/-- A program that was started by `exec` and has not called `sigalarm` is sent to the handler that
the program before it had asked for. -/
theorem alarm_crosses_exec : ∃ steps k k', Run smallLayout .RR steps k ∧ Disciplined steps ∧
    sinceExec initproc steps = true ∧ k.runs initproc .user = true ∧
    step smallLayout .RR (.timer initproc) k = .ok ((), k') ∧
    load64 k'.km.mem ((k'.proc initproc).trapframe + tfEpc) = 0x1234 := by
  obtain ⟨steps, k, hrun, hd, hdue, hhandler, hready⟩ :=
    exists_disciplined_run (alarmExecOps 1 0x1234)
    (fun _ k => (k.proc initproc).gist.alarmDue ∧ (k.proc initproc).alarmHandler = 0x1234 ∧
      k.ReadyToExec) (by decide +kernel)
  obtain ⟨new, k1, hrun1, hd1, hsince, -, hgist, hruns1, hleft⟩ := exec_run hrun hd hready
  obtain ⟨g, hk1⟩ := hrun1.inv hd1
  have hdue1 : (k1.proc initproc).alarmDue = true := by
    have := congrArg Gist.alarmDue (hgist initproc)
    rw [hdue] at this
    exact this
  obtain ⟨k', hstep, hpc⟩ := timer_delivers (b := .RR) hk1 hruns1
    ((congrArg Gist.killed (hgist initproc)).trans hready.2.2.1) hdue1 hleft
  refine ⟨new ++ steps, k1, k', hrun1, hd1, hsince, hruns1, hstep, hpc.trans ?_⟩
  exact (congrArg Gist.alarmHandler (hgist initproc)).trans hhandler

/-- After `sigalarm(0, ..)` the new program is left alone. -/
theorem alarms_do_not_cross_exec_off : ∃ steps k, Run smallLayout .RR steps k ∧
    sinceExec initproc steps = true ∧ k.runs initproc .user = true ∧
    (k.proc initproc).alarmRunning = false ∧
    ∀ k', step smallLayout .RR (.timer initproc) k = .ok ((), k') →
      load64 k'.km.mem ((k'.proc initproc).trapframe + tfEpc) = (k.user initproc).pc := by
  obtain ⟨steps, k, hrun, hd, hc, hfreq, hoff, hready⟩ :=
    exists_disciplined_run (alarmExecOps 0 0x1234)
    (fun steps k => (∀ s ∈ steps, s.clean = true) ∧ (k.proc initproc).alarmFreq = 0 ∧
      (k.proc initproc).alarmRunning = false ∧ k.ReadyToExec) (by decide +kernel)
  obtain ⟨new, k1, hrun1, hd1, hsince, hclean, -, hruns1, -⟩ := exec_run hrun hd hready
  have hc1 : ∀ s ∈ new ++ steps, s.clean = true := by
    intro s hs
    rcases List.mem_append.mp hs with hs | hs
    · exact hclean ⟨hfreq, hoff⟩ s hs
    · exact hc s hs
  obtain ⟨hsilent, -⟩ := alarms_do_not_cross_exec hrun1 hd1 hc1 initproc
  exact ⟨new ++ steps, k1, hrun1, hsince, hruns1, (hsilent hsince).1, fun k' hstep =>
    (hsilent hsince).2 k' hruns1 hstep⟩

end Xv6
