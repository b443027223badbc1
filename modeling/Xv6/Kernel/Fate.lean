import Xv6.Kernel.Control

/-!
# What a step does to a process

The control state of every process after a step of the machine, and after `main`.
-/

namespace Xv6

open ByteMem
open Core (set_gist_ne set_gist_self set_set)

variable {L : Layout} {b : Sched.Build} {k k' : Kernel} {p q : Slot} {α : Type} {op : Op}
  {c c' : Core}
variable {g : Gist}

/-! ## The fates -/

def Op.kills (k : Kernel) : Op → Option Slot
  | .syscall p _ =>
    if k.runs p .syscall && k.sysno p = .kill then
      k.first fun q => q.pid = toInt32 (k.arg p 0)
    else none
  | _ => none

def Op.reprioritizes (k : Kernel) : Op → Option Slot
  | .syscall p _ =>
    if k.runs p .syscall && k.sysno p = .setPriority then
      k.first fun q => q.pid = toInt32 (k.arg p 1)
    else none
  | _ => none

theorem Op.reprioritizes_calls (h : op.reprioritizes k = some q) :
    ∃ p o, op = .syscall p o ∧ k.runs p .syscall = true ∧ k.sysno p = .setPriority := by
  cases op with
  | syscall p o =>
    by_cases hg : k.runs p .syscall && k.sysno p = .setPriority
    · grind
    · rw [Op.reprioritizes, if_neg hg] at h
      cases h
  | _ => cases h

/-- What step `op` from state `k` may do to process `q`. -/
inductive Fate (b : Sched.Build) (k : Kernel) (op : Op) (q : Slot) : Gist → Prop where
  | kept : Fate b k op q (k.proc q).gist
  | woken (h : (k.proc q).state = .sleeping) :
      Fate b k op q { (k.proc q).gist with state := .runnable }
  | dispatched (last : Bool) (hop : op = .dispatch q last) (h : (k.proc q).state = .runnable)
      (hlast : last = true → b = .MLFQ) :
      Fate b k op q { (k.proc q).gist with
        state := .running
        lastScheduled := if last then (k.proc q).lastScheduled else toInt32 k.ticks }
  | yielded (hop : op = .preempt q ∨ op.Calls k q .setPriority)
      (h : (k.proc q).state = .running) : Fate b k op q ((k.proc q).gist.yield k.ticks)
  | timed (hop : op = .timer q) (h : k.runs q .user = true) :
      Fate b k op q (if b.preempts then (k.proc q).gist.deliver.yield k.ticks
        else (k.proc q).gist.deliver)
  | slept (h : (k.proc q).state = .running) :
      Fate b k op q { (k.proc q).gist with state := .sleeping }
  | exited (killed : Bool) (h : (k.proc q).state = .running) :
      Fate b k op q { (k.proc q).gist with state := .zombie, killed := killed }
  | trapped (hop : op = .exception q) (h : (k.proc q).state = .running) :
      Fate b k op q { (k.proc q).gist with killed := true }
  | killed (hop : op.kills k = some q) : Fate b k op q (k.proc q).gist.kill
  | created (p : Slot) (hop : op.Calls k p .fork) (h : (k.proc q).state = .unused) :
      Fate b k op q { (k.proc q).gist.allocate k.nextpid with
        state := .runnable, tickets := (k.proc p).tickets }
  | refused (hop : ∃ p, op.Calls k p .fork) (h : (k.proc q).state = .unused) :
      Fate b k op q ((k.proc q).gist.allocate k.nextpid).free
  | reaped (h : (k.proc q).state = .zombie) : Fate b k op q (k.proc q).gist.free
  | reset (hop : op.reprioritizes k = some q) : Fate b k op q { (k.proc q).gist with timeRun := 0 }
  | resetYielded (hop : op.reprioritizes k = some q) (h : (k.proc q).state = .running) :
      Fate b k op q (({ (k.proc q).gist with timeRun := 0 } : Gist).yield k.ticks)
  | sigalarm (hop : op.Calls k q .sigalarm) :
      Fate b k op q ((k.proc q).gist.sigalarm (toInt32 (k.arg q 0)) (BitVec.ofNat 64 (k.arg q 1)))
  | sigreturn (hop : op.Calls k q .sigreturn) :
      Fate b k op q { (k.proc q).gist with alarmRunning := false }
  | bought (n : Int) (hop : op.Calls k q .settickets) (hn : toInt32 (k.arg q 0) = n)
      (hpos : 1 ≤ n) : Fate b k op q { (k.proc q).gist with tickets := n }

def Op.ticks (k : Kernel) : Op → Nat
  | .tick => (k.ticks + 1) % 2 ^ 32
  | _ => k.ticks

/-- A control state that step `op` may lead to. -/
structure After (b : Sched.Build) (k : Kernel) (op : Op) (c : Core) : Prop where
  ticks : c.ticks = op.ticks k
  fate : ∀ q, Fate b k op q (c.gist q)

theorem After.kept (hop : op.ticks k = k.ticks) : After b k op k.core := ⟨hop.symm, fun _ => .kept⟩

theorem After.set (h : After b k op c) (hp : Fate b k op p g) : After b k op (c.set p g) := by
  refine ⟨h.ticks, fun q => ?_⟩
  by_cases hq : q = p
  · simp_all
  · rw [set_gist_ne _ _ hq]
    exact h.fate q

theorem After.allocate (h : After b k op c) (hp : Fate b k op p g) :
    After b k op ((c.allocate p).set p g) := by
  have h' := h.set hp
  refine ⟨h'.ticks, fun q => ?_⟩
  have hgist : ((c.allocate p).set p g).gist = (c.set p g).gist := by simp [Core.allocate, Core.set]
  rw [hgist]
  exact h'.fate q

theorem Fate.of_woken (h : (k.proc q).gist.Woken g) : Fate b k op q g := by
  obtain rfl | ⟨hs, rfl⟩ := h
  · exact .kept
  · exact .woken hs

theorem After.exited (killed : Bool) (hop : op.ticks k = k.ticks) (hp : (k.proc p).state = .running)
    (h : Core.Exited p (k.core.set p { (k.proc p).gist with killed := killed }) c) :
    After b k op c := by
  refine ⟨h.ticks.trans hop.symm, fun q => ?_⟩
  by_cases hq : q = p
  · subst hq
    rw [h.self, set_gist_self]
    exact .exited killed hp
  · have hw := h.others q hq
    rw [set_gist_ne _ _ hq] at hw
    exact .of_woken hw

/-- From `k`, `m` ends in a control state that step `op` may lead to. -/
abbrev Ends (b : Sched.Build) (k : Kernel) (op : Op) (m : K α) : Prop :=
  Wp (fun _ => True) m k fun _ k' => After b k op k'.core

/-- From the control state of `k`, `m` leads to one that step `op` may lead to. -/
abbrev Leads (b : Sched.Build) (k : Kernel) (op : Op) (m : K α) : Prop :=
  Moves (fun c c' => c = k.core → After b k op c') m

section Leads

variable {m : K α}

theorem Leads.after (h : Leads b k op m) : Ends b k op m := (h.run k).mono fun _ _ hc => hc rfl

theorem Keeps.leads (hop : op.ticks k = k.ticks) (h : Keeps m) : Leads b k op m := by
  refine h.mono fun c c' hc hk => ?_
  rw [hc, hk]
  exact After.kept hop

theorem Leads.of_set {F : Core → Gist} (hop : op.ticks k = k.ticks)
    (h : Moves (fun c c' => c' = c.set p (F c)) m) (hF : Fate b k op p (F k.core)) :
    Leads b k op m := by
  refine h.mono fun c c' hc hk => ?_
  rw [hc, hk]
  exact (After.kept hop).set hF

theorem Leads.setProc {f : Proc → Proc} {F : Gist → Gist} (hop : op.ticks k = k.ticks)
    (hf : ∀ r, (f r).gist = F r.gist) (hF : Fate b k op p (F (k.proc p).gist)) :
    Leads b k op (setProc p f) := by
  refine .of_set (F := fun c => F (c.gist p)) hop (.setProc fun k1 => ?_) hF
  rw [hf]
  rfl

theorem Leads.exit (hop : op.ticks k = k.ticks) (hp : (k.proc p).state = .running) (status : Int) :
    Leads b k op (exit p status) := by
  refine (exit_moves status).mono fun c c' hc hk => ?_
  have hself : k.core.set p { (k.proc p).gist with killed := (k.proc p).killed } = c := by
    rw [hk]
    exact Core.set_self _ p
  exact After.exited _ hop hp (hself.symm ▸ hc)

end Leads

theorem Kernel.running_of_runs {mode : Mode} (h : k.runs p mode = true) :
    (k.proc p).state = .running := by
  unfold Kernel.runs at h
  simp only [Bool.and_eq_true, decide_eq_true_eq] at h
  exact h.1

/-! ## Traps -/

section Traps

variable (hop : op.ticks k = k.ticks) (hp : (k.proc p).state = .running)

include hop hp

theorem trapEcall_leads : Leads b k op (trapEcall p) := by
  refine uservec_keeps.bind fun _ => Keeps.get.bind fun _ => ?_
  refine .ite (Leads.exit hop hp _) (Keeps.leads hop ?_)
  refine (Keeps.loadTf _).bind fun epc => ?_
  exact (Keeps.storeTf _ _).bind fun _ => Keeps.setMode _

theorem dieNow_leads : Leads b k op (dieNow p) := by
  constructor
  intro k1
  refine .bind (Wp.setProc ?_)
  refine ((exit_moves _).run _).mono fun _ k2 h2 hk => ?_
  rw [Kernel.core_setProc, hk] at h2
  have hg : (k1.proc p).gist = (k.proc p).gist := by rw [← Kernel.core_gist, hk, Kernel.core_gist]
  refine After.exited true hop hp ?_
  rw [← hg]
  exact h2

theorem trapFault_leads (stval : Nat) : Leads b k op (trapFault L p stval) := by
  have hdie := dieNow_leads (b := b) hop hp
  refine uservec_keeps.bind fun _ => .ite hdie ?_
  refine Keeps.get.bind fun _ => (Keeps.vm _).bind fun pte => .ite hdie ?_
  refine (Keeps.vm _).bind fun w => .ite hdie (.ite hdie ?_)
  refine (Keeps.record _).bind fun _ => (Keeps.vm _).bind fun done => ?_
  exact .ite (Keeps.leads hop (Keeps.setMode _)) hdie

theorem trapLeave_leads : Leads b k op (trapLeave p) := by
  refine Keeps.get.bind fun _ => ?_
  exact .ite (Leads.exit hop hp _) (Keeps.leads hop (Keeps.setMode _))

end Traps

theorem trapOther_leads {exception : Bool} (hop : op.ticks k = k.ticks)
    (hp : (k.proc p).state = .running) (hex : exception = true → op = .exception p) :
    Leads b k op (trapOther p exception) := by
  refine uservec_keeps.bind fun _ => ?_
  cases exception with
  | false => exact Keeps.leads hop ((Keeps.pure ()).bind fun _ => Keeps.setMode _)
  | true =>
    exact .bind (Leads.setProc (F := fun g => { g with killed := true }) hop (fun _ => rfl)
      (.trapped (hex rfl) hp)) fun _ => .setMode _

theorem trapTimer_leads (hrun : k.runs p .user = true) : Leads b k (.timer p) (trapTimer b p) := by
  have hp := Kernel.running_of_runs hrun
  have hfate := Fate.timed (b := b) (k := k) rfl hrun
  refine uservec_keeps.bind fun _ => Keeps.get.bind fun _ => ?_
  refine .ite (Leads.exit rfl hp _) ⟨fun k1 => ?_⟩
  refine (deliver_moves.run k1).seq fun _ k2 h2 => ?_
  refine ((Keeps.setMode _).run k2).seq fun _ k3 h3 => ?_
  have hcore3 := h3.trans h2
  split
  · next hb =>
    refine (yield_moves.run k3).mono fun _ k4 h4 hk => ?_
    rw [if_pos hb] at hfate
    rw [h4, hcore3, hk, set_gist_self, set_set]
    exact (After.kept rfl).set hfate
  · next hb =>
    refine .pure fun hk => ?_
    rw [if_neg hb] at hfate
    rw [hcore3, hk]
    exact (After.kept rfl).set hfate

/-! ## System calls -/

/-- What `sys_set_priority` in process `p` does to the control state, by the process it
finds. -/
inductive Core.Reprioritized (p : Slot) (c : Core) : Option Slot → Core → Prop where
  | notFound : Reprioritized p c none c
  | done {q : Slot} : Reprioritized p c (some q) (c.set q { c.gist q with timeRun := 0 })
  | yielded {q : Slot} : Reprioritized p c (some q) ((c.set q { c.gist q with timeRun := 0 }).set p
        (((c.set q { c.gist q with timeRun := 0 }).gist p).yield c.ticks))

section Syscalls

variable {o : Outside} (hrun : k.runs p .syscall = true)

include hrun

theorem calls_syscall {n : Sysno} (hs : k.sysno p = n) : (Op.syscall p o).Calls k p n :=
  ⟨⟨o, rfl⟩, hrun, hs⟩

theorem sysKill_after (hs : k.sysno p = .kill) : Ends b k (.syscall p o) (sysKill p) := by
  refine .bind (Wp.argint (.bind (.bind (.get ?_))))
  cases hq : k.first fun q => q.pid = toInt32 (k.arg p 0) with
  | none => exact .pure (.pure (.kept rfl))
  | some q =>
    refine .bind (Wp.setProc (.pure (.pure ?_)))
    rw [Kernel.core_setProc, Proc.gist_kill]
    refine (After.kept rfl).set (.killed ?_)
    rw [Op.kills, if_pos (by simp [hrun, hs])]
    exact hq

theorem sysSetPriority_finds (hs : k.sysno p = .setPriority) :
    Wp (fun _ => True) (sysSetPriority p) k fun _ k' =>
      k.core.Reprioritized p ((Op.syscall p o).reprioritizes k) k'.core := by
  have hfind : (Op.syscall p o).reprioritizes k =
      k.first fun q => q.pid = toInt32 (k.arg p 1) := if_pos (by simp [hrun, hs])
  rw [hfind]
  refine .bind (Wp.argint (.bind (Wp.argint ?_)))
  refine .bind (.bind (.get (.pure (.bind (.get ?_)))))
  cases k.first fun q => q.pid = toInt32 (k.arg p 1) with
  | none => exact .pure .notFound
  | some q =>
    refine .bind (Wp.setProc ?_)
    split
    · refine (yield_moves.run _).seq fun _ k1 h1 => .pure ?_
      rw [h1, Kernel.core_setProc]
      exact .yielded
    · refine .pure ?_
      rw [Kernel.core_setProc]
      exact .done

theorem Core.Reprioritized.after (hs : k.sysno p = .setPriority)
    (h : k.core.Reprioritized p ((Op.syscall p o).reprioritizes k) c) :
    After b k (.syscall p o) c := by
  have hkept : After b k (.syscall p o) k.core := After.kept rfl
  have hp := Kernel.running_of_runs hrun
  generalize hfind : (Op.syscall p o).reprioritizes k = found at h
  cases h with
  | notFound => exact hkept
  | done => exact hkept.set (.reset hfind)
  | @yielded q =>
    by_cases hqp : q = p
    · subst hqp
      rw [set_gist_self, set_set]
      exact hkept.set (.resetYielded hfind hp)
    · rw [set_gist_ne _ _ (Ne.symm hqp)]
      exact (hkept.set (.reset hfind)).set (.yielded (.inr (calls_syscall hrun hs)) hp)

theorem sysSigalarm_after (hs : k.sysno p = .sigalarm) :
    Ends b k (.syscall p o) (sysSigalarm p) := by
  have hfate := Fate.sigalarm (b := b) (calls_syscall (o := o) hrun hs)
  have hhandler : BitVec.ofNat 64 (k.arg p 1) =
      load64 k.km.mem ((k.proc p).trapframe + tfArg 1) := BitVec.ofNat_toNat ..
  refine .bind (Wp.argint (.bind (Wp.loadTf ?_)))
  rw [hhandler, Gist.sigalarm] at hfate
  generalize toInt32 (k.arg p 0) = interval at hfate ⊢
  split
  · next h =>
    refine .bind (Wp.setProc (.pure ?_))
    rw [if_pos h] at hfate
    rw [Kernel.core_setProc]
    exact (After.kept rfl).set hfate
  · next h =>
    refine .bind (Wp.setProc (.pure ?_))
    rw [if_neg h] at hfate
    rw [Kernel.core_setProc]
    exact (After.kept rfl).set hfate

theorem sysSigreturn_leads (hs : k.sysno p = .sigreturn) :
    Leads b k (.syscall p o) (sysSigreturn L p) := by
  refine .bind (Leads.setProc (F := fun g => { g with alarmRunning := false }) rfl
    (fun _ => rfl) (.sigreturn (calls_syscall hrun hs))) fun _ => ?_
  refine Keeps.get.bind fun _ => .ite (.throw _) ?_
  exact (Keeps.vm _).bind fun _ => (Keeps.vm _).bind fun _ => Keeps.loadTf _

theorem sysSettickets_after (hs : k.sysno p = .settickets) :
    Ends b k (.syscall p o) (sysSettickets p) := by
  refine .bind (Wp.argint ?_)
  generalize ht : toInt32 (k.arg p 0) = tickets
  split
  · exact .pure (.kept rfl)
  · next hpos =>
    refine .bind (Wp.setProc (.pure ?_))
    rw [Kernel.core_setProc]
    exact (After.kept rfl).set (.bought _ (calls_syscall hrun hs) ht (Int.not_lt.mp hpos))

theorem Core.Forked.after (hs : k.sysno p = .fork) (h : Core.Forked p k.core c) :
    After b k (.syscall p o) c := by
  have hcalls : (Op.syscall p o).Calls k p .fork := calls_syscall hrun hs
  have hkept : After b k (.syscall p o) k.core := After.kept rfl
  cases h with
  | full => exact hkept
  | failed hu => exact hkept.allocate (.refused ⟨p, hcalls⟩ hu)
  | @done np hu =>
    have hne : p ≠ np := by
      rintro rfl
      exact absurd (hu.symm.trans (Kernel.running_of_runs hrun)) (by decide)
    rw [Core.allocate, set_gist_ne _ _ hne]
    exact hkept.allocate (.created p hcalls hu)

theorem Core.Waited.after (h : Core.Waited p k.core c) : After b k (.syscall p o) c := by
  cases h with
  | kept => exact .kept rfl
  | reaped hz => exact (After.kept rfl).set (.reaped hz)
  | slept => exact (After.kept rfl).set (.slept (Kernel.running_of_runs hrun))

theorem syscall_after : Ends b k (.syscall p o) (syscall L p o) := by
  have hp := Kernel.running_of_runs hrun
  have hreturn : ∀ {w : BitVec 64} {k1 : Kernel}, After b k (.syscall p o) k1.core →
      Wp (fun _ => True) (sysReturn p w) k1 fun _ k' => After b k (.syscall p o) k'.core := by
    intro w k1 h1
    refine ((sysReturn_keeps w).run k1).mono fun _ k2 h2 => ?_
    rw [h2]
    exact h1
  have hkeeps : ∀ {m : K Unit}, Keeps m → Ends b k (.syscall p o) m :=
    fun hm => Leads.after (Keeps.leads rfl hm)
  refine .bind (.get ?_)
  cases hs : k.sysno p with
  | fork =>
    refine (fork_moves.run k).seq fun _ _ h => hreturn ?_
    exact h.after hrun hs
  | exit =>
    refine Leads.after ((argint_keeps 0).bind fun status => ?_)
    exact Leads.exit rfl hp status
  | wait =>
    refine (sysWait_moves.run k).seq fun r k1 h => ?_
    refine ((sysResume_keeps r).run k1).mono fun _ k2 h2 => ?_
    rw [h2]
    exact h.after hrun
  | waitx =>
    refine ((sysWaitx_moves o).run k).seq fun r k1 h => ?_
    refine ((sysResume_keeps r).run k1).mono fun _ k2 h2 => ?_
    rw [h2]
    exact h.after hrun
  | kill => exact (sysKill_after hrun hs).seq fun _ _ h => hreturn h
  | exec => exact hkeeps ((sysExec_keeps o).bind fun r => sysReturn_keeps r)
  | sbrk => exact hkeeps (sysSbrk_keeps.bind fun r => sysReturn_keeps r)
  | trace => exact hkeeps (sysTrace_keeps.bind fun r => sysReturn_keeps r)
  | settickets => exact (sysSettickets_after hrun hs).seq fun _ _ h => hreturn h
  | setPriority =>
    refine (sysSetPriority_finds (o := o) hrun hs).seq fun _ _ h => hreturn ?_
    exact h.after hrun hs
  | sigalarm => exact (sysSigalarm_after hrun hs).seq fun _ _ h => hreturn h
  | sigreturn => exact ((sysSigreturn_leads hrun hs).run k).seq fun _ _ h => hreturn (h rfl)
  | reading | other | unknown => exact hkeeps (sysReturn_keeps _)

end Syscalls

/-! ## Steps -/

theorem guarded_after {cond : Kernel → Bool} {m : K Unit} (hop : op.ticks k = k.ticks)
    (h : cond k = true → Ends b k op m) : Ends b k op (guarded cond m) := by
  refine .bind (.get ?_)
  split
  · next hc => exact h hc
  · exact .pure (After.kept hop)

theorem kallocStep_keeps : Keeps (step L b .kalloc) := by
  exact (Keeps.vm _).bind fun pa => .ite (Keeps.pure ()) ⟨fun _ => .modify rfl⟩

theorem step_after (L : Layout) (b : Sched.Build) (op : Op) (k : Kernel) :
    Ends b k op (step L b op) := by
  cases op with
  | kalloc => exact Leads.after (Keeps.leads rfl kallocStep_keeps)
  | kfree =>
    refine guarded_after rfl fun _ => Leads.after (Keeps.leads rfl ?_)
    exact (Keeps.vm _).bind fun _ => ⟨fun _ => .modify rfl⟩
  | tick =>
    refine .modify ⟨rfl, fun q => Fate.of_woken ?_⟩
    have h := woken_wakeup ((k.ticks + 1) % 2 ^ 32) ticksChan none
      (fun q => (k.proc q).updateTime) q
    rw [Proc.gist_updateTime] at h
    exact h
  | dispatch _ last =>
    refine guarded_after rfl fun hg => ?_
    simp only [Bool.and_eq_true, decide_eq_true_eq] at hg
    refine .bind (.get (Wp.setProc ?_))
    rw [Kernel.core_setProc]
    apply (After.kept rfl).set
    have hfate := Fate.dispatched (b := b) last rfl hg.1 (by
      intro hl
      simpa [hl] using hg.2)
    cases last with
    | false =>
      simp only [Bool.false_eq_true, if_false] at hfate ⊢
      rw [Proc.gist_dispatched]
      exact hfate
    | true => exact hfate
  | demote =>
    refine guarded_after rfl fun _ => Leads.after (Keeps.leads rfl ?_)
    exact Keeps.get.bind fun k1 => Keeps.setProc fun r => r.gist_demoteStep _
  | age =>
    refine guarded_after rfl fun _ => Leads.after (Keeps.leads rfl ?_)
    exact Keeps.get.bind fun k1 => Keeps.setProc fun r => r.gist_ageStep _
  | preempt =>
    refine guarded_after rfl fun hg => Leads.after (Leads.of_set rfl yield_moves ?_)
    refine .yielded (.inl rfl) ?_
    simp only [Bool.and_eq_true, Bool.or_eq_true] at hg
    exact hg.1.elim Kernel.running_of_runs Kernel.running_of_runs
  | sleep _ chan =>
    refine guarded_after rfl fun hg => Leads.after (Leads.of_set rfl (sleep_moves chan) ?_)
    simp only [Bool.and_eq_true] at hg
    exact .slept (Kernel.running_of_runs hg.1)
  | wakeup => exact .modify ⟨rfl, fun q => Fate.of_woken (woken_wakeup _ _ _ _ q)⟩
  | instr =>
    refine guarded_after rfl fun _ => ?_
    exact .modify (After.kept rfl)
  | store =>
    refine guarded_after rfl fun _ => Leads.after (Keeps.leads rfl ?_)
    exact (Keeps.record _).bind fun _ => Keeps.get.bind fun _ => Keeps.vm _
  | ecall =>
    exact guarded_after rfl fun hg =>
      Leads.after (trapEcall_leads rfl (Kernel.running_of_runs hg))
  | fault _ va =>
    refine guarded_after rfl fun hg => ?_
    simp only [Bool.and_eq_true] at hg
    exact Leads.after (trapFault_leads rfl (Kernel.running_of_runs hg.1) va)
  | device =>
    exact guarded_after rfl fun hg =>
      Leads.after (trapOther_leads rfl (Kernel.running_of_runs hg) nofun)
  | exception =>
    exact guarded_after rfl fun hg =>
      Leads.after (trapOther_leads rfl (Kernel.running_of_runs hg) (fun _ => rfl))
  | timer => exact guarded_after rfl fun hg => Leads.after (trapTimer_leads hg)
  | syscall => exact guarded_after rfl fun hg => syscall_after hg
  | copyout =>
    refine guarded_after rfl fun _ => Leads.after (Keeps.leads rfl ?_)
    exact (copyoutTo_keeps _ _ _).bind fun _ => Keeps.pure ()
  | leave =>
    exact guarded_after rfl fun hg =>
      Leads.after (trapLeave_leads rfl (Kernel.running_of_runs hg))
  | ret _ hartid =>
    exact guarded_after rfl fun _ => Leads.after (Keeps.leads rfl (usertrapret_keeps hartid))

theorem step_ticks {op : Op} (h : step L b op k = .ok ((), k')) : k'.ticks = op.ticks k :=
  ((step_after L b op k).of_ok h).ticks

theorem step_fate {op : Op} (h : step L b op k = .ok ((), k')) (q : Slot) :
    Fate b k op q (k'.proc q).gist :=
  ((step_after L b op k).of_ok h).fate q

theorem Core.Reprioritized.reset (h : c.Reprioritized p (some q) c')
    (hq : (c.gist q).state ≠ (c.gist p).state) : c'.gist q = { c.gist q with timeRun := 0 } := by
  cases h with
  | done => rw [set_gist_self]
  | yielded => grind [set_gist_ne, set_gist_self]

theorem step_resets {op : Op} (h : step L b op k = .ok ((), k')) (hq : op.reprioritizes k = some q)
    (hn : (k.proc q).state ≠ .running) :
    (k'.proc q).gist = { (k.proc q).gist with timeRun := 0 } := by
  obtain ⟨p, o, rfl, hrun, hs⟩ := Op.reprioritizes_calls hq
  have hspec : Wp (fun _ => True) (step L b (.syscall p o)) k fun _ k' =>
      k'.core.gist q = { (k.proc q).gist with timeRun := 0 } := by
    refine .bind (.get ?_)
    rw [if_pos hrun]
    refine .bind (.get ?_)
    rw [hs]
    refine (sysSetPriority_finds (o := o) hrun hs).seq fun w k1 h1 => ?_
    refine ((sysReturn_keeps w).run k1).mono fun _ k2 h2 => ?_
    rw [h2]
    rw [hq] at h1
    apply h1.reset
    rw [Kernel.core_gist, Kernel.core_gist, Proc.gist_state, Proc.gist_state,
      Kernel.running_of_runs hrun]
    exact hn
  exact hspec.of_ok h

/-! ## Boot -/

/-- A process after `main`: in an unused slot, or the first one. -/
def Gist.Booted (g : Gist) : Prop :=
  g = ({} : Proc).gist ∨ g = { ({} : Proc).gist.allocate 1 with state := .runnable }

theorem boot_core {m : Mem} {n : Nat} (h : boot L b n (.initial m) = .ok ((), k)) :
    k.ticks = 0 ∧ ∀ q, (k.proc q).gist.Booted := by
  have hboot : Wp (fun _ => True) (boot L b n) (.initial m) fun _ k' =>
      k'.core.ticks = 0 ∧ ∀ q, (k'.core.gist q).Booted := by
    have hloop : ∀ n i, Keeps (forRange (fun _ => step L b .kalloc) n i) := by
      intro n
      induction n with
      | zero => exact fun i => .pure ()
      | succ _ ih =>
        intro i
        exact (kallocStep_keeps).bind fun _ => ih _
    refine ((Keeps.vm _).run _).seq fun _ k1 h1 => ?_
    refine ((hloop n 0).run k1).seq fun _ k2 h2 => ?_
    refine (allocproc_allocated k2).seq fun r k3 h3 => ?_
    generalize hc3 : k3.core = c3 at h3
    cases h3 with
    | full | failed => exact Wp.throw trivial
    | @done p hs =>
      refine .bind (.get ?_)
      refine ((Keeps.vm _).run k3).seq fun _ k4 h4 => ?_
      refine ((Keeps.setProc fun _ => by rfl).run k4).seq fun _ k5 h5 => ?_
      refine ((Keeps.record _).run k5).seq fun _ k6 h6 => ?_
      refine ((Keeps.storeTf _ _).run k6).seq fun _ k7 h7 => ?_
      refine ((Keeps.storeTf _ _).run k7).seq fun _ k8 h8 => Wp.setProc ?_
      have hcore8 : k8.core = (Kernel.initial m).core.allocate p := by grind
      rw [Kernel.core_setProc, hcore8]
      refine ⟨rfl, fun q => ?_⟩
      by_cases hq : q = p
      · subst hq
        have hg : (k8.proc q).gist = ({} : Proc).gist.allocate 1 := by
          rw [← Kernel.core_gist, hcore8, Core.allocate, set_gist_self]
          rfl
        rw [set_gist_self]
        rw [Gist.Booted, ← hg]
        exact .inr rfl
      · rw [set_gist_ne _ _ hq, Core.allocate, set_gist_ne _ _ hq]
        exact .inl rfl
  exact hboot.of_ok h

end Xv6
