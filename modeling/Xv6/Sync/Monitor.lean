import Xv6.Sync.Sleep

/-!
# Code under one lock

A kernel object that a spin-lock protects, used by processes and interrupt handlers that call `sleep`
and `wakeup` on channels of the object. Its code is given by points at which the lock is held and by
what is done from each of them; here are the steps of all interleavings. `sleep` and `wakeup` take
the locks of the processes, so they are several steps, and `kill` can come between any two of them.
-/

namespace Xv6.Monitor

open Sync (Agent)

inductive Next (κ χ : Type) where
  | go (c : κ)
  | wakeup (ch : χ) (c : κ)
  /-- `sleep`, after which the code goes on at `c` -/
  | sleep (c : κ)

def Next.code {κ χ : Type} : Next κ χ → κ
  | .go c | .wakeup _ c | .sleep c => c

/-- An object with points `κ` in its code, data `δ` and channels `χ`. -/
structure Obj (κ δ χ : Type) where
  addr : χ → Nat
  /-- the channel of the `sleep` after which the code goes on at the given point -/
  chan : κ → χ
  /-- what a process that sleeps on the channel waits for -/
  cond : χ → δ → Bool
  /-- the calls of processes (`true`) and of interrupt handlers -/
  isCall : Bool → κ → δ → Bool
  isLeave : κ → Bool
  /-- the code from a point, given whether the process has been killed -/
  exec : Bool → δ → κ → δ × Next κ χ

/-- Where an agent stands. In `sleep` it goes on at `c` when it has the lock again. -/
inductive Pos (κ χ : Type) where
  | idle
  | code (c : κ)
  /-- has the lock and is in `wakeup`, about to take the lock of process `j` -/
  | waking (ch : χ) (j : Nat) (c : κ)
  /-- in `sleep`, has the lock, before `acquire(&p->lock)` -/
  | sleepCalled (c : κ)
  /-- in `sleep`, has the lock and `p->lock` -/
  | sleepLocked (c : κ)
  | sleepReleased (c : κ)
  | asleep (c : κ)
  /-- at the end of `sleep`, before `acquire(lk)` -/
  | reacquire (c : κ)

section Pos

variable {κ χ : Type}

def Pos.holds : Pos κ χ → Bool
  | .code _ | .waking .. | .sleepCalled _ | .sleepLocked _ => true
  | _ => false

def Pos.locked : Pos κ χ → Bool
  | .sleepLocked _ | .sleepReleased _ => true
  | _ => false

def Pos.preemptible : Pos κ χ → Bool
  | .idle | .reacquire _ => true
  | _ => false

/-- The point at which the agent is or to which it goes back. -/
def Pos.code? : Pos κ χ → Option κ
  | .idle => none
  | .code c | .waking _ _ c | .sleepCalled c | .sleepLocked c | .sleepReleased c | .asleep c
  | .reacquire c => some c

def Next.pos : Next κ χ → Pos κ χ
  | .go c => .code c
  | .wakeup ch c => .waking ch 0 c
  | .sleep c => .sleepCalled c

theorem Next.pos_code (x : Next κ χ) : x.pos.code? = some x.code := by cases x <;> rfl

theorem Pos.preemptible_holds {x : Pos κ χ} (hx : x.preemptible = true) : x.holds = false := by
  cases x with
  | idle | reacquire => rfl
  | _ => cases hx

end Pos

/-- The state. `owes` is history: the holder of the lock has made the condition of the channel true
and has not called `wakeup` on it since. -/
structure State (n : Nat) (κ δ χ : Type) where
  proc : Fin n → Proc
  pos : Agent n → Pos κ χ
  lk : Option (Agent n)
  data : δ
  owes : χ → Bool

section Model

variable {n : Nat} {κ δ χ : Type}

namespace State

def goto (s : State n κ δ χ) (a : Agent n) (x : Pos κ χ) : State n κ δ χ :=
  { s with pos := Function.update s.pos a x }

def setProc (s : State n κ δ χ) (p : Fin n) (r : Proc) : State n κ δ χ :=
  { s with proc := Function.update s.proc p r }

def runs (s : State n κ δ χ) : Agent n → Bool
  | .proc p => (s.proc p).state = .running
  | .cpu _ => true

def killed (s : State n κ δ χ) : Agent n → Bool
  | .proc p => (s.proc p).killed
  | .cpu _ => false

end State

def isProc : Agent n → Bool
  | .proc _ => true
  | .cpu _ => false

variable (M : Obj κ δ χ)

def State.act (s : State n κ δ χ) (d : δ) : State n κ δ χ :=
  { s with
    data := d
    owes := fun ch => M.cond ch d && (s.owes ch || !M.cond ch s.data) }

def State.exec (s : State n κ δ χ) (a : Agent n) (c : κ) : δ × Next κ χ :=
  M.exec (s.killed a) s.data c

/-- What a step is made by, where it matters. -/
inductive Label (n : Nat) (κ : Type) where
  | call (c : κ)
  | kill (p : Fin n)
  | other

def Dispatched (old r : Proc) : Prop :=
  (∃ b ticks, r = Sched.dispatched b ticks old) ∨ r = Sched.dispatched4 old

variable [DecidableEq χ]

inductive Step (s : State n κ δ χ) : Label n κ → State n κ δ χ → Prop where
  | call (a : Agent n) (c : κ) (hlk : s.lk = none) (hrun : s.runs a = true) (hpos : s.pos a = .idle)
      (hc : M.isCall (isProc a) c s.data = true) :
      Step s (.call c) { s.goto a (.code c) with lk := some a }
  | exec (a : Agent n) (c : κ) (hpos : s.pos a = .code c) (hc : M.isLeave c = false) :
      Step s .other ((s.act M (s.exec M a c).1).goto a (s.exec M a c).2.pos)
  | release (a : Agent n) (c : κ) (hpos : s.pos a = .code c) (hc : M.isLeave c = true) :
      Step s .other { s.goto a .idle with lk := none }
  /-- an iteration of `wakeup` at another process -/
  | scan (a : Agent n) (q : Fin n) (ch : χ) (c : κ) (ticks : Nat) (hpos : s.pos a = .waking ch q c)
      (hne : a ≠ .proc q) (hlock : (s.pos (.proc q)).locked = false) :
      Step s .other ((s.setProc q ((s.proc q).wakeup ticks (M.addr ch))).goto a
        (.waking ch (q + 1) c))
  /-- an iteration of `wakeup` at the caller -/
  | scanSelf (p : Fin n) (ch : χ) (c : κ) (hpos : s.pos (.proc p) = .waking ch p c) :
      Step s .other (s.goto (.proc p) (.waking ch (p + 1) c))
  | wakeupReturn (a : Agent n) (ch : χ) (c : κ) (hpos : s.pos a = .waking ch n c) :
      Step s .other { s.goto a (.code c) with owes := Function.update s.owes ch false }
  /-- `acquire(&p->lock)` in `sleep` -/
  | sleepLock (p : Fin n) (c : κ) (hpos : s.pos (.proc p) = .sleepCalled c) :
      Step s .other (s.goto (.proc p) (.sleepLocked c))
  | sleepRelease (p : Fin n) (c : κ) (hpos : s.pos (.proc p) = .sleepLocked c) :
      Step s .other { s.goto (.proc p) (.sleepReleased c) with lk := none }
  /-- the rest of `sleep` up to `sched`, and `release(&p->lock)` in the scheduler -/
  | sleepSwitch (p : Fin n) (c : κ) (ticks : Nat) (hpos : s.pos (.proc p) = .sleepReleased c) :
      Step s .other ((s.setProc p ((s.proc p).sleep ticks (M.addr (M.chan c)))).goto (.proc p)
        (.asleep c))
  /-- the scheduler switches to a process in `sleep`, which releases `p->lock` -/
  | resume (p : Fin n) (c : κ) (r : Proc) (hpos : s.pos (.proc p) = .asleep c)
      (h : (s.proc p).state = .runnable) (hr : Dispatched (s.proc p) r) :
      Step s .other ((s.setProc p { r with chan := 0 }).goto (.proc p) (.reacquire c))
  /-- `acquire(lk)` at the end of `sleep` -/
  | reacquire (p : Fin n) (c : κ) (hlk : s.lk = none) (hrun : (s.proc p).state = .running)
      (hpos : s.pos (.proc p) = .reacquire c) :
      Step s .other { s.goto (.proc p) (.code c) with lk := some (.proc p) }
  /-- the scheduler switches to another process, which releases `p->lock` -/
  | dispatch (p : Fin n) (r : Proc) (hpos : (s.pos (.proc p)).preemptible = true)
      (h : (s.proc p).state = .runnable) (hr : Dispatched (s.proc p) r) :
      Step s .other (s.setProc p r)
  | yield (p : Fin n) (ticks : Nat) (hpos : (s.pos (.proc p)).preemptible = true)
      (h : (s.proc p).state = .running) :
      Step s .other (s.setProc p ((s.proc p).yield ticks))
  /-- an iteration of a `wakeup` by other code, on any channel -/
  | wakeupOther (p : Fin n) (ticks c : Nat) (hlock : (s.pos (.proc p)).locked = false) :
      Step s .other (s.setProc p ((s.proc p).wakeup ticks c))
  | kill (p : Fin n) (hlock : (s.pos (.proc p)).locked = false) :
      Step s (.kill p) (s.setProc p (s.proc p).kill)
  /-- other code changes the record of a process outside the object, and does not put it to sleep on
  a channel of the object -/
  | outside (p : Fin n) (r : Proc) (hpos : s.pos (.proc p) = .idle)
      (hr : ∀ ch, ¬(r.state = .sleeping ∧ r.chan = M.addr ch)) :
      Step s .other (s.setProc p r)

structure Fresh (s : State n κ δ χ) : Prop where
  pos : ∀ a, s.pos a = .idle
  lk : s.lk = none
  owes : ∀ ch, s.owes ch = false
  proc : ∀ p ch, ¬((s.proc p).state = .sleeping ∧ (s.proc p).chan = M.addr ch)

/-- The states of runs that start with data in `I` and whose steps all have `C`. -/
inductive Reachable (I : δ → Prop) (C : State n κ δ χ → Label n κ → Prop) :
    State n κ δ χ → Prop where
  | init {s : State n κ δ χ} (h : Fresh M s) (hI : I s.data) : Reachable I C s
  | step {s s' : State n κ δ χ} {l : Label n κ} (h : Reachable I C s) (hs : Step M s l s')
      (hC : C s l) : Reachable I C s'

/-! ## Execution -/

/-- The next step of an agent, if it can make one by itself. -/
def State.advance (s : State n κ δ χ) (a : Agent n) : State n κ δ χ :=
  match a, s.pos a with
  | a, .code c =>
    if M.isLeave c then
      { s.goto a .idle with lk := none }
    else
      (s.act M (s.exec M a c).1).goto a (s.exec M a c).2.pos
  | a, .waking ch j c =>
    if hj : j < n then
      if a = .proc ⟨j, hj⟩ then
        s.goto a (.waking ch (j + 1) c)
      else if (s.pos (.proc ⟨j, hj⟩)).locked then
        s
      else
        (s.setProc ⟨j, hj⟩ ((s.proc ⟨j, hj⟩).wakeup 0 (M.addr ch))).goto a (.waking ch (j + 1) c)
    else if j = n then
      { s.goto a (.code c) with owes := Function.update s.owes ch false }
    else
      s
  | .proc p, .sleepCalled c => s.goto (.proc p) (.sleepLocked c)
  | .proc p, .sleepLocked c => { s.goto (.proc p) (.sleepReleased c) with lk := none }
  | .proc p, .sleepReleased c =>
    (s.setProc p ((s.proc p).sleep 0 (M.addr (M.chan c)))).goto (.proc p) (.asleep c)
  | .proc p, .asleep c =>
    if (s.proc p).state = .runnable then
      (s.setProc p { Sched.dispatched4 (s.proc p) with chan := 0 }).goto (.proc p) (.reacquire c)
    else
      s
  | .proc p, .reacquire c =>
    if s.lk = none ∧ (s.proc p).state = .running then
      { s.goto (.proc p) (.code c) with lk := some (.proc p) }
    else
      s
  | _, _ => s

theorem State.advance_step (s : State n κ δ χ) (a : Agent n) :
    s.advance M a = s ∨ Step M s .other (s.advance M a) := by
  unfold State.advance
  cases hpos : s.pos a with
  | idle => exact .inl rfl
  | code c =>
    dsimp only
    split
    · next hc => exact .inr (.release a c hpos hc)
    · next hc => exact .inr (.exec a c hpos (by simpa using hc))
  | waking ch j c =>
    dsimp only
    split
    · next hj =>
      split
      · next he =>
        subst he
        exact .inr (.scanSelf ⟨j, hj⟩ ch c hpos)
      split
      · exact .inl rfl
      · next hne hl => exact .inr (.scan a ⟨j, hj⟩ ch c 0 hpos hne (by simpa using hl))
    split
    · next he =>
      subst he
      exact .inr (.wakeupReturn a ch c hpos)
    · exact .inl rfl
  | sleepCalled c =>
    cases a with
    | proc p => exact .inr (.sleepLock p c hpos)
    | cpu => exact .inl rfl
  | sleepLocked c =>
    cases a with
    | proc p => exact .inr (.sleepRelease p c hpos)
    | cpu => exact .inl rfl
  | sleepReleased c =>
    cases a with
    | proc p => exact .inr (.sleepSwitch p c 0 hpos)
    | cpu => exact .inl rfl
  | asleep c =>
    cases a with
    | proc p =>
      dsimp only
      split
      · next hr => exact .inr (.resume p c _ hpos hr (.inr rfl))
      · exact .inl rfl
    | cpu => exact .inl rfl
  | reacquire c =>
    cases a with
    | proc p =>
      dsimp only
      split
      · next h => exact .inr (.reacquire p c h.1 h.2 hpos)
      · exact .inl rfl
    | cpu => exact .inl rfl

inductive Move (n : Nat) (κ : Type) where
  | call (a : Agent n) (c : κ)
  | kill (p : Fin n)
  | go (a : Agent n) (k : Nat)

def Move.label : Move n κ → Label n κ
  | .call _ c => .call c
  | .kill p => .kill p
  | .go .. => .other

def State.move (s : State n κ δ χ) : Move n κ → State n κ δ χ
  | .call a c =>
    match s.lk, s.pos a with
    | none, .idle =>
      if s.runs a = true ∧ M.isCall (isProc a) c s.data = true then
        { s.goto a (.code c) with lk := some a }
      else s
    | _, _ => s
  | .kill p => if (s.pos (.proc p)).locked then s else s.setProc p (s.proc p).kill
  | .go a k => (fun s => s.advance M a)^[k] s

variable {M} {I : δ → Prop} {C : State n κ δ χ → Label n κ → Prop} {s : State n κ δ χ}

theorem Reachable.move (h : Reachable M I C s) (m : Move n κ) (hC : ∀ t, C t m.label) :
    Reachable M I C (s.move M m) := by
  cases m with
  | call a c =>
    unfold State.move
    dsimp only
    split
    · next hlk hpos =>
      split
      · next hc => exact h.step (.call a c hlk hc.1 hpos hc.2) (hC s)
      · exact h
    · exact h
  | kill p =>
    unfold State.move
    dsimp only
    split
    · exact h
    · next hl => exact h.step (.kill p (by simpa using hl)) (hC s)
  | go a k =>
    have hother : ∀ t, C t .other := hC
    clear hC
    unfold State.move
    dsimp only
    induction k with
    | zero => exact h
    | succ k ih =>
      rw [Function.iterate_succ_apply']
      rcases State.advance_step M ((fun s => s.advance M a)^[k] s) a with he | hs
      · rw [he]
        exact ih
      · exact ih.step hs (hother _)

def State.play (M : Obj κ δ χ) (s : State n κ δ χ) (l : List (Move n κ)) : State n κ δ χ :=
  l.foldl (State.move M) s

theorem Reachable.play (h : Reachable M I C s) (l : List (Move n κ))
    (hC : ∀ m ∈ l, ∀ t, C t m.label) : Reachable M I C (s.play M l) := by
  induction l generalizing s with
  | nil => exact h
  | cons m _ ih =>
    apply ih (h.move m (hC m List.mem_cons_self))
    intro m' hm'
    exact hC m' (List.mem_cons_of_mem m hm')

/-- All processes run, and nobody is in the code of the object. -/
def running (n : Nat) (d : δ) : State n κ δ χ where
  proc _ := { state := .running }
  pos _ := .idle
  lk := none
  data := d
  owes _ := false

omit [DecidableEq χ] in
theorem running_fresh (n : Nat) (d : δ) : Fresh M (running n d : State n κ δ χ) :=
  ⟨fun _ => rfl, rfl, fun _ => rfl, fun _ _ h => by cases h.1⟩

end Model

end Xv6.Monitor
