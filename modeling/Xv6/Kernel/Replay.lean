import Xv6.Trap

/-!
# Runs from lists of steps

A run of the machine computed from the steps to make, for runs that are written out.
-/

namespace Xv6

open ByteMem

def replay (L : Layout) (b : Sched.Build) : List Op → List Step → Kernel →
    Option (List Step × Kernel)
  | [], steps, k => some (steps, k)
  | op :: ops, steps, k =>
    match step L b op k with
    | .ok (_, k') => replay L b ops (⟨k, op, k'⟩ :: steps) k'
    | .error _ => none

/-- The kernel after `main`, from memory that is all zero. -/
def booted (L : Layout) (b : Sched.Build) : Option Kernel :=
  match boot L b 0 (.initial fun _ => 0) with
  | .ok (_, k) => if k.km.freelist ≠ 0 then some k else none
  | .error _ => none

variable {L : Layout} {b : Sched.Build}

theorem replay_run {ops : List Op} {steps steps' : List Step} {k k' : Kernel} (h : Run L b steps k)
    (hr : replay L b ops steps k = some (steps', k')) : Run L b steps' k' := by
  induction ops generalizing steps k with
  | nil =>
    cases hr
    exact h
  | cons op _ ih =>
    unfold replay at hr
    cases hs : step L b op k with
    | ok r =>
      rw [hs] at hr
      exact ih (h.step hs) hr
    | error =>
      rw [hs] at hr
      cases hr

theorem booted_run {k : Kernel} (h : booted L b = some k) : Run L b [] k := by
  unfold booted at h
  split at h
  · next k1 hb =>
    split at h
    · next hfree =>
      cases h
      exact .boot hb hfree
    · cases h
  · cases h

def runCheck (L : Layout) (b : Sched.Build) (ops : List Op)
    (P : List Step → Kernel → Bool) : Bool :=
  ((booted L b).bind (replay L b ops [])).any fun r => P r.1 r.2

/-- Code returns, with `P` of its value and the state after it. -/
def returns {α σ : Type} (r : Except Panic (α × σ)) (P : α → σ → Bool) : Bool :=
  match r with
  | .ok (a, s) => P a s
  | .error _ => false

theorem returns_iff {α σ : Type} {r : Except Panic (α × σ)} {P : α → σ → Bool} :
    returns r P = true ↔ ∃ a s, r = .ok (a, s) ∧ P a s = true := by
  constructor
  · intro h
    cases r with
    | ok p => exact ⟨p.1, p.2, rfl, h⟩
    | error => cases h
  · rintro ⟨a, s, rfl, h⟩
    exact h

instance {α σ : Type} {r : Except Panic (α × σ)} {P : α → σ → Prop} [∀ a s, Decidable (P a s)] :
    Decidable (∃ a s, r = .ok (a, s) ∧ P a s) :=
  decidable_of_iff (returns r fun a s => P a s) (by simp [returns_iff])

def fails {α : Type} (r : Except Panic α) (e : Panic) : Bool :=
  match r with
  | .ok _ => false
  | .error e' => e' = e

theorem fails_iff {α : Type} {r : Except Panic α} {e : Panic} :
    fails r e = true ↔ r = .error e := by
  cases r with
  | ok | error => simp [fails]

/-- A machine whose kernel leaves 24 pages of memory to `kinit`. -/
def smallLayout : Layout where
  kend := phystop - 24 * 4096
  trampoline := kernbase
  usertrap := 0
  satp := 0
  kend_ge := by decide
  kend_le := by decide

theorem exists_run (b : Sched.Build) (ops : List Op) (P : List Step → Kernel → Prop)
    [∀ steps k, Decidable (P steps k)]
    (h : runCheck smallLayout b ops (fun steps k => P steps k) = true) :
    ∃ steps k, Run smallLayout b steps k ∧ P steps k := by
  unfold runCheck at h
  cases hb : booted smallLayout b with
  | none =>
    rw [hb] at h
    cases h
  | some k =>
    rw [hb] at h
    cases hr : replay smallLayout b ops [] k with
    | none => simp [hr] at h
    | some r =>
      refine ⟨r.1, r.2, replay_run (booted_run hb) hr, ?_⟩
      simpa [hr] using h

/-- Give process `p` the CPU, and let it enter user space. -/
def startOps (p : Slot) : List Op := [.dispatch p false, .ret p 0]

/-- Process `p` asks for system call `a7` with two arguments. -/
def ecallOps (p : Slot) (a7 a0 a1 : Nat) : List Op :=
  [.instr p (fun i => if i = 17 then BitVec.ofNat 64 a7 else if i = 10 then BitVec.ofNat 64 a0
      else if i = 11 then BitVec.ofNat 64 a1 else 0) 0,
   .ecall p]

/-- Process `p` makes system call `a7` and returns to user space. -/
def callOps (p : Slot) (a7 a0 a1 : Nat) : List Op :=
  ecallOps p a7 a0 a1 ++ [.syscall p {}, .leave p, .ret p 0]

def secondproc : Slot := ⟨1, one_lt_nproc⟩

def childOps : List Op := startOps initproc ++ callOps initproc 1 0 0 ++ startOps secondproc

end Xv6
