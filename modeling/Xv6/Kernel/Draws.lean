import Xv6.Kernel.Replay
import Xv6.Kernel.Tickets
import Xv6.Sched.Lottery

/-!
# The draws of LBS

`rand` returns fifteen bits. LBS reduces them modulo the tickets of the RUNNABLE processes, which
`settickets` and `fork` give out without looking at the sum.
-/

namespace Xv6

open Sched

variable {L : Layout} {b : Sched.Build} {steps : List Step} {k : Kernel} {proc : Slot → Proc}
  {p : Slot} {m : Nat}
variable {most : Int}

/-! ## `rand` -/

/-- `rand`: what it returns, and the new value of `next`. -/
def rand (next : BitVec 64) : Nat × BitVec 64 :=
  let next := next * 1103515245#64 + 12345#64
  (next.toNat / 65536 % 2 ^ 32 % 32768, next)

theorem rand_lt (next : BitVec 64) : (rand next).1 < 32768 := Nat.mod_lt _ (by decide)

theorem exists_rand {r : Nat} (hr : r < 32768) : ∃ next, (rand next).1 = r := by
  -- the multiplier is odd, and the first factor is its inverse
  refine ⟨17850689345304521573#64 * (BitVec.ofNat 64 (r * 65536) - 12345#64), ?_⟩
  have hnext : 17850689345304521573#64 * (BitVec.ofNat 64 (r * 65536) - 12345#64) * 1103515245#64 +
      12345#64 = BitVec.ofNat 64 (r * 65536) := by grind
  simp only [rand, hnext, BitVec.toNat_ofNat]
  omega

/-! ## A round -/

def totalLoop (proc : Slot → Proc) : Nat → Int
  | 0 => 0
  | m + 1 => if h : m < nproc then totalStep (proc ⟨m, h⟩) (totalLoop proc m) else totalLoop proc m

/-- The process that LBS selects when `rand` returns `r`. -/
def lbs (proc : Slot → Proc) (r : Nat) : Option Slot :=
  winner proc (Int.tmod r (totalLoop proc nproc))

def SumFits (proc : Slot → Proc) : Prop :=
  ∀ i : Slot, (proc i).state = .runnable → -2 ^ 31 ≤ totalLoop proc i + (proc i).tickets ∧
    totalLoop proc i + (proc i).tickets < 2 ^ 31

theorem totalLoop_eq (proc : Slot → Proc) (hm : m ≤ nproc) :
    totalLoop proc m = toInt32 (ticketsBelow proc m) := by
  induction m with
  | zero => rfl
  | succ m ih =>
    rw [totalLoop, dif_pos (show m < nproc from hm), ih (by omega)]
    exact totalStep_eq proc ⟨m, hm⟩

section

variable (h : Holding proc most)

include h

theorem Sched.Holding.share_le (hmost : 0 ≤ most) (p : Slot) : share proc p ≤ most := by
  unfold share
  split
  · next hp => exact (h p hp).2
  · exact hmost

theorem Sched.Holding.ticketsBelow_le (hmost : 0 ≤ most) (m : Nat) :
    ticketsBelow proc m ≤ nproc * most := by
  have hle : ∀ p ∈ Finset.univ, (if p.val < m then share proc p else 0) ≤ most := by
    have := h.share_le
    grind
  have hsum := Finset.sum_le_card_nsmul Finset.univ _ most hle
  simpa [ticketsBelow] using hsum

theorem Sched.Holding.totalLoop_eq (hm : m ≤ nproc)
    (hlt : ticketsBelow proc m < 2 ^ 31) : totalLoop proc m = ticketsBelow proc m := by
  have h0 := h.ticketsBelow_nonneg m
  rw [Xv6.totalLoop_eq proc hm, toInt32_of_range (by omega) hlt]

end

theorem Run.holding (hmost : 1 ≤ most) (h : Run L b steps k)
    (hs : ∀ s ∈ steps, ∀ t, s.op.ticketsAsked s.pre = some t → t ≤ most) : Holding k.proc most := by
  intro p hp
  apply h.tickets_le hmost hs
  rw [hp]
  decide

/-! ## Chances -/

theorem toInt32_lt (x : Int) : toInt32 x < 2 ^ 31 := by
  have := Int.bmod_lt (x := x) (m := 2 ^ 32) (by decide)
  simpa [toInt32] using this

theorem Op.ticketsAsked_le {op : Op} {t : Int} (h : op.ticketsAsked k = some t) :
    t ≤ 2 ^ 31 - 1 := by
  cases op with
  | syscall p =>
    simp only [Op.ticketsAsked, Option.ite_none_right_eq_some, Option.some.injEq] at h
    have := toInt32_lt (k.arg p 0)
    omega
  | _ => cases h

theorem tmod_eq (r : Nat) (t : Int) : Int.tmod r t = ↑(r % t.natAbs) := by
  have h0 := Int.tmod_nonneg t (Int.natCast_nonneg r)
  have habs := Int.natAbs_tmod r t
  rw [Int.natAbs_natCast] at habs
  omega

/-- In every run a RUNNABLE process can win if and only if its first ticket is a number that `rand`
returns and that is below the modulus, an `int`; a modulus of zero leaves the draw as it is. -/
theorem every_holder_can_win (h : Run L .LBS steps k) (hp : (k.proc p).state = .runnable) :
    (∃ next, lbs k.proc (rand next).1 = some p) ↔ ticketsBelow k.proc p < 32768 ∧
      (toInt32 (totalTickets k.proc) = 0 ∨
        ticketsBelow k.proc p < |toInt32 (totalTickets k.proc)|) := by
  have hold : Holding k.proc (2 ^ 31 - 1) :=
    h.holding (by decide) fun s _ t ht => Op.ticketsAsked_le ht
  have hloop := totalLoop_eq k.proc (Nat.le_refl nproc)
  rw [ticketsBelow_nproc] at hloop
  rw [Int.abs_eq_natAbs]
  generalize toInt32 (totalTickets k.proc) = t at hloop ⊢
  have hwin : ∀ r < 32768, lbs k.proc r = some p ↔ Owns k.proc ↑(r % t.natAbs) p := by
    intro r hr
    have hle := Nat.mod_le r t.natAbs
    rw [lbs, hloop, tmod_eq, winner_eq_some_iff hold (by omega) (by omega)]
  constructor
  · rintro ⟨next, hnext⟩
    have hlt := rand_lt next
    have hown := ((hwin _ hlt).mp hnext).2.1
    have hle := Nat.mod_le (rand next).1 t.natAbs
    refine ⟨by omega, ?_⟩
    by_cases ht : t = 0
    · exact .inl ht
    · have hmod := Nat.mod_lt (rand next).1 (Int.natAbs_pos.mpr ht)
      exact .inr (by omega)
  · -- the first of its own tickets
    rintro ⟨hlt, ht⟩
    obtain ⟨r, hr⟩ := Int.eq_ofNat_of_zero_le (hold.ticketsBelow_nonneg p)
    obtain ⟨next, hnext⟩ := exists_rand (r := r) (by omega)
    refine ⟨next, ?_⟩
    have hmod : r % t.natAbs = r := by
      rcases ht with rfl | ht
      · exact Nat.mod_zero r
      · exact Nat.mod_eq_of_lt (by omega)
    have hsucc := ticketsBelow_succ k.proc p
    rw [share, if_pos hp] at hsucc
    have hpos := (hold p hp).1
    rw [hnext, hwin r (by omega), hmod]
    exact ⟨hp, by omega, by omega⟩

/-- The first process takes `n` tickets and forks; the child takes one. Both are RUNNABLE. -/
def sharesOps (n : Nat) : List Op :=
  startOps initproc ++ callOps initproc 23 n 0 ++ callOps initproc 1 0 0 ++
    [.timer initproc] ++ startOps secondproc ++ callOps secondproc 23 1 0 ++ [.timer secondproc]

theorem every_holder_can_win_shares : ∃ steps k, Run smallLayout .LBS steps k ∧
    totalTickets k.proc = 40001 ∧ ∃ next, lbs k.proc (rand next).1 = some initproc := by
  obtain ⟨steps, k, hrun, hp, htotal, hbelow⟩ := exists_run .LBS (sharesOps 40000)
    (fun _ k => (k.proc initproc).state = .runnable ∧ totalTickets k.proc = 40001 ∧
      ticketsBelow k.proc initproc = 0) (by decide +kernel)
  refine ⟨steps, k, hrun, htotal, (every_holder_can_win hrun hp).mpr ?_⟩
  rw [hbelow, htotal]
  decide

/-- With 40000 tickets in the first slot every draw falls to the first process. -/
theorem holder_cannot_win : ∃ steps k p, Run smallLayout .LBS steps k ∧
    (k.proc p).state = .runnable ∧ ∀ next, lbs k.proc (rand next).1 ≠ some p := by
  obtain ⟨steps, k, hrun, hp, hbelow, htotal⟩ := exists_run .LBS (sharesOps 40000)
    (fun _ k => (k.proc secondproc).state = .runnable ∧ ticketsBelow k.proc 1 = 40000 ∧
      totalTickets k.proc = 40001) (by decide +kernel)
  refine ⟨steps, k, secondproc, hrun, hp, ?_⟩
  intro next hwin
  have hold : Holding k.proc (2 ^ 31 - 1) :=
    hrun.holding (by decide) fun s _ t ht => Op.ticketsAsked_le ht
  have hloop : totalLoop k.proc nproc = 40001 := by
    rw [hold.totalLoop_eq (Nat.le_refl _) (by rw [ticketsBelow_nproc]; omega), ticketsBelow_nproc,
      htotal]
  have hlt := rand_lt next
  have hmod := Nat.mod_le (rand next).1 (Int.natAbs 40001)
  rw [lbs, hloop, tmod_eq, winner_eq_some_iff hold (by omega) (by omega)] at hwin
  have hle : ticketsBelow k.proc 1 ≤ _ := hwin.2.1
  omega

/-! ## Overflow -/

/-- If every call of `settickets` asks for less than 2^25 tickets, then no sum of tickets
overflows, and the modulus is positive if some process is RUNNABLE. -/
theorem lottery_arithmetic_safe (h : Run L .LBS steps k)
    (hs : ∀ s ∈ steps, ∀ t, s.op.ticketsAsked s.pre = some t → t < 2 ^ 25)
    (hr : ∃ p, (k.proc p).state = .runnable) : SumFits k.proc ∧ 0 < totalLoop k.proc nproc := by
  have hold : Holding k.proc (2 ^ 25 - 1) := h.holding (by decide) fun s hmem t ht => by
    have := hs s hmem t ht
    omega
  have hnproc : nproc = 64 := rfl
  have hsum : ∀ m ≤ nproc, totalLoop k.proc m = ticketsBelow k.proc m ∧
      0 ≤ ticketsBelow k.proc m ∧ ticketsBelow k.proc m ≤ 64 * (2 ^ 25 - 1) := by
    intro m hm
    have hle := hold.ticketsBelow_le (by decide) m
    exact ⟨hold.totalLoop_eq hm (by omega), hold.ticketsBelow_nonneg m, hle⟩
  constructor
  · intro i hi
    have hsucc := ticketsBelow_succ k.proc i
    rw [share, if_pos hi] at hsucc
    obtain ⟨heq, h0, -⟩ := hsum i (Nat.le_of_lt i.isLt)
    obtain ⟨-, h0', hle'⟩ := hsum (i + 1) i.isLt
    omega
  · obtain ⟨p, hp⟩ := hr
    have hpos := (hold p hp).1
    have hle := hold.tickets_le_total hp
    rw [(hsum nproc (Nat.le_refl _)).1, ticketsBelow_nproc]
    omega

/-- The only process runs on another CPU, and the modulus is zero; two processes with 2^31 - 1
tickets each are RUNNABLE, and the sum overflows. -/
theorem lottery_arithmetic_fails :
    (∃ steps k, Run smallLayout .LBS steps k ∧ totalLoop k.proc nproc = 0) ∧
      ∃ steps k, Run smallLayout .LBS steps k ∧ ¬ SumFits k.proc := by
  constructor
  · exact exists_run .LBS (startOps initproc) (fun _ k => totalLoop k.proc nproc = 0)
      (by decide +kernel)
  · obtain ⟨steps, k, hrun, h⟩ := exists_run .LBS
      (startOps initproc ++ callOps initproc 23 (2 ^ 31 - 1) 0 ++ callOps initproc 1 0 0 ++
        [.timer initproc])
      (fun _ k => (k.proc secondproc).state = .runnable ∧
        totalLoop k.proc secondproc + (k.proc secondproc).tickets = 2 ^ 32 - 2) (by decide +kernel)
    refine ⟨steps, k, hrun, ?_⟩
    intro hfits
    have := (hfits secondproc h.1).2
    omega

theorem lottery_arithmetic_safe_shares : ∃ steps k, Run smallLayout .LBS steps k ∧
    totalTickets k.proc = 2 ^ 25 ∧ SumFits k.proc ∧ 0 < totalLoop k.proc nproc := by
  obtain ⟨steps, k, hrun, hp, htotal, hs⟩ := exists_run .LBS (sharesOps (2 ^ 25 - 1))
    (fun steps k => (k.proc secondproc).state = .runnable ∧ totalTickets k.proc = 2 ^ 25 ∧
      ∀ s ∈ steps, ∀ t ∈ s.op.ticketsAsked s.pre, t < 2 ^ 25) (by decide +kernel)
  exact ⟨steps, k, hrun, htotal, lottery_arithmetic_safe hrun hs ⟨secondproc, hp⟩⟩

end Xv6
