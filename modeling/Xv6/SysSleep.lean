import Xv6.Sync.Discipline

/-!
# `sys_sleep`

`sys_sleep` of `kernel/sysproc.c` and `clockintr` of `kernel/trap.c`, as code under `tickslock`.
-/

namespace Xv6.SysSleep

open Monitor (Next)

/-- The counter `ticks`. `count` is history: the value the counter would have without a wrap. -/
structure Clock where
  ticks : BitVec 32
  count : Nat

/-- Points in the code where the agent has `tickslock`. -/
inductive Code where
  | sleep (n : BitVec 32)
  /-- the head of the loop; `called` is history: `count` at the call -/
  | head (n ticks0 : BitVec 32) (called : Nat)
  | clock
  /-- before the last `release`, with the value that is returned -/
  | leave (r : Int)

/-- One step of the code. The comparison in the loop is one of `uint`s. -/
def Code.exec (killed : Bool) (d : Clock) : Code → Clock × Next Code Unit
  | .sleep n => (d, .go (.head n d.ticks d.count))
  | .head n ticks0 called =>
    if d.ticks - ticks0 < n then
      if killed then (d, .go (.leave (-1))) else (d, .sleep (.head n ticks0 called))
    else
      (d, .go (.leave 0))
  | .clock => ({ ticks := d.ticks + 1, count := d.count + 1 }, .wakeup () (.leave 0))
  | .leave r => (d, .go (.leave r))

/-- The counter at address `ticks`. Processes call `sys_sleep`, the timer interrupt `clockintr`. What
a process waits for depends on its call, so the channel has no condition. -/
def obj (ticks : Nat) : Monitor.Obj Code Clock Unit where
  addr _ := ticks
  chan _ := ()
  cond _ _ := false
  isCall
    | true, .sleep _, _ => true
    | false, .clock, _ => true
    | _, _, _ => false
  isLeave
    | .leave _ => true
    | _ => false
  exec killed d c := c.exec killed d

abbrev State (m : Nat) := Monitor.State m Code Clock Unit

def Started (d : Clock) : Prop := d.count = d.ticks.toNat

abbrev Reachable {m : Nat} (ticks : Nat) : State m → Prop :=
  Monitor.Reachable (obj ticks) Started fun _ _ => True

variable {m addr : Nat} {s : State m} {p : Fin m} {n ticks0 : BitVec 32} {called : Nat}

def Counts (d : Clock) : Prop := d.ticks = BitVec.ofNat 32 d.count

def Code.Since (d : Clock) : Code → Prop
  | .head _ ticks0 called => called ≤ d.count ∧ ticks0 = BitVec.ofNat 32 called
  | _ => True

theorem preserves (addr : Nat) : (obj addr).Preserves Counts Code.Since := by
  intro killed d c hc hd hj
  cases c with
  | sleep => exact ⟨hd, ⟨Nat.le_refl _, hd⟩, fun _ h => h⟩
  | head n ticks0 called =>
    simp only [obj, Code.exec]
    split
    · cases killed with
      | true => exact ⟨hd, trivial, fun _ h => h⟩
      | false => exact ⟨hd, hj, fun _ h => h⟩
    · exact ⟨hd, trivial, fun _ h => h⟩
  | clock =>
    refine ⟨?_, trivial, ?_⟩
    · show d.ticks + 1 = BitVec.ofNat 32 (d.count + 1)
      rw [hd, BitVec.ofNat_add]
      rfl
    · intro c' h'
      cases c' with
      | head => exact ⟨Nat.le_succ_of_le h'.1, h'.2⟩
      | _ => trivial
  | leave => cases hc

theorem Reachable.keeps (h : Reachable addr s) : Monitor.Keeps Counts Code.Since s := by
  refine Monitor.Reachable.keeps h ?_ ?_ (preserves addr)
  · intro d hd
    rw [Counts, hd, BitVec.ofNat_toNat, BitVec.setWidth_eq]
  · intro s b c _ hc
    cases c with
    | head => cases b <;> cases hc
    | _ => trivial

theorem lt_iff_elapsed {d : Clock} (hd : Counts d) (hs : (Code.head n ticks0 called).Since d)
    (hrun : d.count - called < 2 ^ 32) : d.ticks - ticks0 < n ↔ d.count - called < n.toNat := by
  obtain ⟨hle, h0⟩ := hs
  have hsub : (d.ticks - ticks0).toNat = d.count - called := by
    rw [hd, h0, BitVec.toNat_sub, BitVec.toNat_ofNat, BitVec.toNat_ofNat]
    omega
  rw [BitVec.lt_def, hsub]

/-- In every run, a process that is not killed and is at the head of the loop of `sys_sleep(n)` leaves
with 0 when `max n 0` ticks have elapsed since the call and sleeps when not, if `0 ≤ n`. If not, it
does so only when the ticks that have elapsed are as many as `n` is as a `uint`. It must come there
before `2 ^ 32` ticks have elapsed. -/
theorem sleep_waits_exactly (h : Reachable addr s)
    (hpos : s.pos (.proc p) = .code (.head n ticks0 called)) (hlive : (s.proc p).killed = false)
    (hrun : s.data.count - called < 2 ^ 32) :
    called ≤ s.data.count ∧ (s.exec (obj addr) (.proc p) (.head n ticks0 called) = (s.data,
      if (s.data.count - called : Int) < max n.toInt 0 then .sleep (.head n ticks0 called)
      else .go (.leave 0)) ↔ 0 ≤ n.toInt ∨ n.toNat ≤ s.data.count - called) := by
  have hs := h.keeps.code (.proc p) _ (by rw [hpos]; rfl)
  have hle : called ≤ s.data.count := hs.1
  refine ⟨hle, ?_⟩
  have hiff := lt_iff_elapsed (n := n) h.keeps.data hs hrun
  simp only [Monitor.State.exec, Monitor.State.killed, obj, Code.exec, hlive, hiff]
  by_cases hn : 0 ≤ n.toInt
  · have hint : n.toInt = n.toNat := by
      rw [BitVec.toInt_eq_toNat_cond] at hn ⊢
      split at hn
      · rw [if_pos ‹_›]
      · omega
    have hsame : (s.data.count - called : Int) < max n.toInt 0 ↔ s.data.count - called < n.toNat := by
      omega
    simp only [hsame, hn, true_or, iff_true]
    split <;> rfl
  · rw [if_neg (show ¬ (s.data.count - called : Int) < max n.toInt 0 by omega)]
    rcases Nat.lt_or_ge (s.data.count - called) n.toNat with hlt | hge
    · simp [hlt, hn]
    · simp [Nat.not_lt.mpr hge, hge]

attribute [local instance] Sched.neZero_one

/-- A process has called `sys_sleep(n)` when the counter was 7, and is at the head of the loop. -/
def atHead (n : BitVec 32) : State 1 :=
  (Monitor.running 1 { ticks := 7, count := 7 } : State 1).play (obj 0)
    [.call (.proc 0) (.sleep n), .go (.proc 0) 1]

theorem atHead_reachable (n : BitVec 32) : Reachable 0 (atHead n) := by
  have h0 : Reachable 0 (Monitor.running 1 { ticks := 7, count := 7 } : State 1) :=
    .init (Monitor.running_fresh ..) rfl
  exact h0.play _ fun _ _ _ => trivial

theorem sleep_waits_exactly_two :
    ((atHead 2).exec (obj 0) (.proc 0) (.head 2 7 7)).2 = .sleep (.head 2 7 7) := by
  have hpos : (atHead 2).pos (.proc 0) = .code (.head 2 7 7) := rfl
  rw [(sleep_waits_exactly (atHead_reachable 2) hpos rfl (by decide)).2.mpr (.inl (by decide))]
  rfl

/-- `sys_sleep(-1)` sleeps: as a `uint`, -1 is the greatest number of ticks. -/
theorem negative_sleeps : ∃ s : State 1, Reachable 0 s ∧
    s.pos (.proc 0) = .code (.head (-1) 7 7) ∧ (s.proc 0).killed = false ∧
    (-1 : BitVec 32).toInt ≤ 0 ∧
    (s.exec (obj 0) (.proc 0) (.head (-1) 7 7)).2 = .sleep (.head (-1) 7 7) :=
  ⟨_, atHead_reachable (-1), rfl, by decide, by decide, rfl⟩

end Xv6.SysSleep
