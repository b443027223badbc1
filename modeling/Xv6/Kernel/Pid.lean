import Xv6.Kernel.Fate
import Xv6.Kernel.Replay

/-!
# Processes by pid

`kill` and `getProc` look a process up by its pid. A free slot has pid `0`.
-/

namespace Xv6

open ByteMem

variable {L : Layout} {b : Sched.Build} {steps : List Step} {k k' : Kernel} {op : Op} {p q : Slot}
  {pid : Int}

theorem kill_eq (pid : Int) (k : Kernel) : kill pid k =
    match k.first fun q => q.pid = pid with
    | none => .ok (-1, k)
    | some q => .ok (0, { k with proc := Function.update k.proc q (k.proc q).kill }) := by
  have h : kill pid k = (match k.first fun q => q.pid = pid with
    | none => (pure (-1) : K Int)
    | some q => do
      setProc q Proc.kill
      return 0) k := rfl
  rw [h]
  cases k.first fun q => q.pid = pid <;> rfl

theorem getProc_eq (pid : Int) (k : Kernel) :
    getProc pid k = .ok (k.first fun q => q.pid = pid, k) := rfl

theorem sysSetPriority_frame (p : Slot) (k : Kernel) :
    Wp (fun _ => True) (sysSetPriority p) k fun _ k' => ∀ q, q ≠ p →
      getProc (toInt32 (k.arg p 1)) k ≠ .ok (some q, k) → k'.proc q = k.proc q := by
  refine .bind (Wp.argint (.bind (Wp.argint ?_)))
  refine .bind (.bind (.get (.pure (.bind (.get ?_)))))
  simp only [getProc_eq]
  cases k.first fun q => q.pid = toInt32 (k.arg p 1) with
  | none => exact .pure fun _ _ _ => rfl
  | some r =>
    have hne : ∀ {q}, (Except.ok (some r, k) : Except Panic _) ≠ .ok (some q, k) → q ≠ r := by
      intro q h e
      exact h (by rw [e])
    refine .bind (Wp.setProc ?_)
    split
    · refine .bind (.bind (.get (Wp.setProc (.pure ?_))))
      intro q hqp hq
      simp [Function.update_of_ne hqp, Function.update_of_ne (hne hq)]
    · refine .pure fun q _ hq => ?_
      simp [Function.update_of_ne (hne hq)]

/-! ## Free slots -/

/-- A free slot has no pid and is not marked as killed. -/
def Gist.Vacant (g : Gist) : Prop := g.state = .unused → g.pid = 0 ∧ g.killed = false

/-- The step is not a `kill` with the pid of free slots. -/
def Op.killsPid (k : Kernel) : Op → Bool
  | .syscall p _ => !(k.runs p .syscall && k.sysno p = .kill) || toInt32 (k.arg p 0) ≠ 0
  | _ => true

theorem Op.killsPid_calls (hc : op.killsPid k = true) (h : op.Calls k p .kill) :
    toInt32 (k.arg p 0) ≠ 0 := by
  obtain ⟨⟨o, rfl⟩, hrun, hs⟩ := h
  simpa [Op.killsPid, hrun, hs] using hc

theorem Kernel.first_isSome {f : Proc → Bool} :
    (k.first f).isSome = true ↔ ∃ q, f (k.proc q) = true := by
  simp [Kernel.first, List.find?_isSome, List.mem_finRange]

theorem Op.kills_calls (h : op.kills k = some q) :
    ∃ p, op.Calls k p .kill ∧ (k.proc q).pid = toInt32 (k.arg p 0) := by
  cases op with
  | syscall p o =>
    by_cases hg : k.runs p .syscall && k.sysno p = .kill
    · rw [Op.kills, if_pos hg] at h
      simp only [Bool.and_eq_true, decide_eq_true_eq] at hg
      exact ⟨p, ⟨⟨o, rfl⟩, hg⟩, by simpa using Kernel.first_some h⟩
    · rw [Op.kills, if_neg hg] at h
      cases h
  | _ => cases h

theorem Fate.vacant {g : Gist} (h : Fate b k op q g) (hc : op.killsPid k = true)
    (hv : (k.proc q).gist.Vacant) : g.Vacant := by
  intro hu
  cases h with
  | kept | reset | sigreturn | bought => exact hv hu
  | killed hop =>
    obtain ⟨p, hcalls, hpid⟩ := Op.kills_calls hop
    have hstate : (k.proc q).state = .unused := by
      by_cases hs : (k.proc q).state = .sleeping
      · simp [Gist.kill, hs] at hu
      · simpa [Gist.kill, hs] using hu
    exact absurd (hpid.symm.trans (hv hstate).1) (Op.killsPid_calls hc hcalls)
  | refused | reaped => exact ⟨rfl, rfl⟩
  | trapped _ h => exact absurd (h.symm.trans hu) (by decide)
  | timed _ h =>
    rw [Gist.timed_state (Kernel.running_of_runs h)] at hu
    split at hu <;> cases hu
  | sigalarm =>
    obtain ⟨i, handler, t, hset⟩ := (k.proc q).gist.sigalarm_eq (toInt32 (k.arg q 0))
      (BitVec.ofNat 64 (k.arg q 1))
    rw [hset] at hu ⊢
    exact hv hu
  | _ => cases hu

theorem Run.vacant (h : Run L b steps k) (hc : ∀ s ∈ steps, s.op.killsPid s.pre = true) (q : Slot) :
    (k.proc q).gist.Vacant := by
  induction h with
  | boot hboot =>
    rcases (boot_core hboot).2 q with hq | hq
    · rw [hq]
      exact fun _ => ⟨rfl, rfl⟩
    · rw [hq]
      exact nofun
  | step _ hstep ih =>
    refine (step_fate hstep q).vacant (hc _ List.mem_cons_self) (ih ?_)
    exact fun s hs => hc s (List.mem_cons_of_mem _ hs)

theorem Fate.created_killed {g : Gist} (h : Fate b k op q g) (hu : (k.proc q).state = .unused)
    (hg : g.state ≠ .unused) : g.killed = (k.proc q).killed := by
  cases h with
  | kept | created | reset | sigreturn | bought => rfl
  | killed => exact absurd (by simp [Gist.kill, hu]) hg
  | refused => exact absurd rfl hg
  | sigalarm =>
    obtain ⟨i, handler, t, hset⟩ := (k.proc q).gist.sigalarm_eq (toInt32 (k.arg q 0))
      (BitVec.ofNat 64 (k.arg q 1))
    rw [hset]
    rfl
  | timed _ h => exact absurd (hu.symm.trans (Kernel.running_of_runs h)) (by decide)
  | woken h | slept h | reaped h => exact absurd (hu.symm.trans h) (by decide)
  | exited _ h | trapped _ h | yielded _ h | resetYielded _ h | dispatched _ _ h => grind

theorem Run.created (h : Run L b steps k) (hc : ∀ s ∈ steps, s.op.killsPid s.pre = true) :
    ∀ s ∈ steps, ∀ q, (s.pre.proc q).state = .unused → (s.post.proc q).state ≠ .unused →
      (s.post.proc q).killed = false := by
  induction h with
  | boot => exact fun s hs => absurd hs List.not_mem_nil
  | step hrun hstep ih =>
    have hc' := fun s hs => hc s (List.mem_cons_of_mem _ hs)
    intro s hs q hu hu'
    rcases List.mem_cons.mp hs with rfl | hs
    · have hkilled := (step_fate hstep q).created_killed hu hu'
      exact hkilled.trans (Run.vacant hrun hc' q hu).2
    · exact ih hc' s hs q hu hu'

/-- The process that a lookup of `pid` finds, if any process has it. -/
structure Found (k : Kernel) (pid : Int) (found : Option Slot) : Prop where
  iff : found.isSome = true ↔ ∃ q, (k.proc q).state ≠ .unused ∧ (k.proc q).pid = pid
  named : ∀ q, found = some q → (k.proc q).state ≠ .unused ∧ (k.proc q).pid = pid

theorem found_first (hv : ∀ q, (k.proc q).gist.Vacant) (hpid : pid ≠ 0) :
    Found k pid (k.first fun q => q.pid = pid) := by
  have hused : ∀ q, (k.proc q).pid = pid → (k.proc q).state ≠ .unused := by
    intro q hq hu
    exact hpid (hq.symm.trans (hv q hu).1)
  constructor
  · grind [Kernel.first_isSome]
  · grind [Kernel.first_some]

/-- In a run without `kill(0)`, `kill` and `getProc` find a process by a pid other than `0` iff it
exists, change no other slot, and `fork` creates processes that are not killed. -/
theorem pid_addressing (h : Run L b steps k) (hc : ∀ s ∈ steps, s.op.killsPid s.pre = true) :
    (∀ pid, pid ≠ 0 → ∃ found, Found k pid found ∧ getProc pid k = .ok (found, k) ∧
      kill pid k = .ok (found.elim (-1, k) fun q =>
        (0, { k with proc := Function.update k.proc q (k.proc q).kill }))) ∧
    (∀ p w k', toInt32 (k.arg p 1) ≠ 0 → (k.proc p).state = .running →
      sysSetPriority p k = .ok (w, k') → ∀ q, k'.proc q ≠ k.proc q → (k.proc q).state ≠ .unused ∧
          (q = p ∨ getProc (toInt32 (k.arg p 1)) k = .ok (some q, k))) ∧
    ∀ s ∈ steps, ∀ q, (s.pre.proc q).state = .unused → (s.post.proc q).state ≠ .unused →
      (s.post.proc q).killed = false := by
  refine ⟨?_, ?_, ?_⟩
  · intro pid hpid
    refine ⟨_, found_first (Run.vacant h hc) hpid, getProc_eq pid k, ?_⟩
    rw [kill_eq]
    cases k.first fun q => q.pid = pid <;> rfl
  · intro p w k' hpid hrun hw q hq
    by_cases hqp : q = p
    · grind
    · by_cases hfound : getProc (toInt32 (k.arg p 1)) k = .ok (some q, k)
      · have hfirst : (k.first fun r => r.pid = toInt32 (k.arg p 1)) = some q := by
          rw [getProc_eq] at hfound
          simpa using hfound
        exact ⟨((found_first (Run.vacant h hc) hpid).named q hfirst).1, .inr hfound⟩
      · exact absurd ((sysSetPriority_frame p k).of_ok hw q hqp hfound) hq
  · exact Run.created h hc

/-- The first process calls `kill(pid)`, then `fork()`. -/
def killForkOps (pid : Nat) : List Op :=
  startOps initproc ++ callOps initproc 6 pid 0 ++ callOps initproc 1 0 0

/-- `kill(0)` marks a free slot, and the next process that gets the slot starts killed. -/
theorem fork_starts_killed : ∃ steps k q, Run smallLayout .RR steps k ∧
    (∃ s ∈ steps, s.op.kills s.pre = some q ∧ (s.pre.proc q).state = .unused ∧
      ∀ q, (s.pre.proc q).state ≠ .unused → (s.pre.proc q).pid ≠ 0) ∧
    ∃ s ∈ steps, (s.pre.proc q).state = .unused ∧ (s.post.proc q).state = .runnable ∧
      (s.post.proc q).killed = true := by
  obtain ⟨steps, k, hrun, hkill, hfork⟩ := exists_run .RR (killForkOps 0)
    (fun steps _ => (∃ s ∈ steps, s.op.kills s.pre = some secondproc ∧
        (s.pre.proc secondproc).state = .unused ∧
        ∀ q, (s.pre.proc q).state ≠ .unused → (s.pre.proc q).pid ≠ 0) ∧
      ∃ s ∈ steps, (s.pre.proc secondproc).state = .unused ∧
        (s.post.proc secondproc).state = .runnable ∧ (s.post.proc secondproc).killed)
    (by decide +kernel)
  exact ⟨steps, k, secondproc, hrun, hkill, hfork⟩

theorem pid_addressing_second : ∃ steps k, Run smallLayout .RR steps k ∧
    (k.proc secondproc).pid = 2 ∧
    (∃ found, Found k 2 found ∧ getProc 2 k = .ok (found, k) ∧
      kill 2 k = .ok (found.elim (-1, k) fun q =>
        (0, { k with proc := Function.update k.proc q (k.proc q).kill }))) ∧
    ∃ s ∈ steps, (s.pre.proc secondproc).state = .unused ∧
      (s.post.proc secondproc).killed = false := by
  obtain ⟨steps, k, hrun, hc, hpid, s, hs, hu, hu'⟩ := exists_run .RR (killForkOps 2)
    (fun steps k => (∀ s ∈ steps, s.op.killsPid s.pre) ∧ (k.proc secondproc).pid = 2 ∧
      ∃ s ∈ steps, (s.pre.proc secondproc).state = .unused ∧
        (s.post.proc secondproc).state ≠ .unused) (by decide +kernel)
  obtain ⟨hfind, -, hfork⟩ := pid_addressing hrun hc
  exact ⟨steps, k, hrun, hpid, hfind 2 (by decide), s, hs, hu, hfork s hs secondproc hu hu'⟩

end Xv6
