import Mathlib.Algebra.Order.BigOperators.Group.List
import Mathlib.Algebra.Order.Ring.Nat
import Mathlib.Data.Finset.Card
import Xv6.Log.CrashAtomicity

/-!
# Space in the log

`begin_op` reserves `MAXOPBLOCKS` blocks of the log for each operation, against `LOGSIZE`
blocks in all. The region that `mkfs` lays out has `LOGSIZE` blocks with the header, and
`log_write` stops the machine one block short of that: three operations that use their
reservations to the full do not fit, operations that stay one block below it always do.
-/

namespace Xv6.Log

variable {cfg : Config} {base : BlockNo → Block} {s s' : State}
variable {i : Nat}

/-- The log region in the superblock that `mkfs` writes: `logstart` is 2 and `nlog` is
`LOGSIZE`. -/
def mkfsLog : Config := ⟨2, logSize, by decide, by decide⟩

def State.blocks (s : State) (i : Nat) : Finset BlockNo := ((s.wrote i).map Write.block).toFinset

theorem blocks_logWrite (s : State) (i : Nat) (b : BlockNo) (j : Nat) :
    (logWrite s i b).blocks j = if j = i then insert b (s.blocks i) else s.blocks j := by
  by_cases h : j = i
  · subst h
    simp [State.blocks, logWrite]
  · simp [State.blocks, logWrite, h]

theorem Step.blocks_subset (hs : Step cfg s s') (i : Nat) : s.blocks i ⊆ s'.blocks i := by
  cases hs with
  | logWrite => grind [blocks_logWrite, Finset.Subset.refl]
  | endOp =>
    unfold Log.endOp
    split <;> exact Finset.Subset.refl _
  | _ => exact Finset.Subset.refl _

def LogHeader.Lists (lh : LogHeader) (b : BlockNo) : Prop := ∃ j < lh.n, lh.block j = b

theorem lists_logWrite (s : State) (i : Nat) (b c : BlockNo) :
    (logWrite s i b).lh.Lists c ↔ c = b ∨ s.lh.Lists c := by
  have h := not_congr (listed_logWrite s i b c)
  simp only [Nat.zero_le, forall_const, ne_eq, not_and_or, not_not, not_forall] at h
  simpa only [LogHeader.Lists, exists_prop] using h

/-- What operation `i` may still log if it stays one block below its reservation. -/
def State.allowance (s : State) (i : Nat) : Nat := maxOpBlocks - 1 - (s.blocks i).card

/-- The blocks in the log and those the running operations may still add leave the last two
blocks free. -/
structure Reserved (s : State) : Prop where
  listed : ∀ i ∈ s.active, ∀ b ∈ s.blocks i, s.lh.Lists b
  room : s.active ≠ [] → s.lh.n + (s.active.map s.allowance).sum ≤ logSize - 2
  empty : s.active = [] → s.phase = .running → s.lh.n = 0

theorem Reserved.of_quiet (ha : s.active = []) (hn : s.phase = .running → s.lh.n = 0) :
    Reserved s where
  listed := by simp [ha]
  room := by simp [ha]
  empty := fun _ => hn

theorem Reserved.congr (h : Reserved s) (ha : s'.active = s.active) (hw : s'.wrote = s.wrote)
    (hl : s'.lh = s.lh) (hp : s'.phase = s.phase) : Reserved s' := by
  have hb : s'.blocks = s.blocks := by
    funext i
    simp [State.blocks, hw]
  have hal : s'.allowance = s.allowance := by
    funext i
    simp [State.allowance, hb]
  constructor
  · rw [ha, hb, hl]
    exact h.listed
  · rw [ha, hl, hal]
    exact h.room
  · rw [ha, hl, hp]
    exact h.empty

theorem Inv.active_nil (h : Inv cfg base s) (hp : s.phase ≠ .running) : s.active = [] := by
  cases ha : s.active with
  | nil => rfl
  | cons i => exact absurd (h.phase_of_active (i := i) (by simp [ha])) hp

section

variable (h : Reserved s) (hi : Inv cfg base s)

include h hi

theorem Reserved.beginOp (hr : s.phase.recovering = false)
    (hc : canBegin s = true) (hf : i ∉ s.started) : Reserved (beginOp s i) := by
  have hphase := hi.phase_of_canBegin hr hc
  have hcount := hi.history.count
  constructor
  · intro j hj b hb
    rcases List.mem_cons.mp hj with rfl | hj
    · have hw := (hi.history.fresh j hf).1
      simp [State.blocks, Log.beginOp, hw] at hb
    · exact h.listed j hj b hb
  · intro _
    have hle : ((i :: s.active).map s.allowance).sum ≤ (s.outstanding + 1) * (maxOpBlocks - 1) := by
      have := List.sum_le_card_nsmul ((i :: s.active).map s.allowance) (maxOpBlocks - 1) ?_
      · simpa [hcount] using this
      · intro x hx
        obtain ⟨j, -, rfl⟩ := List.mem_map.mp hx
        exact Nat.sub_le _ _
    change s.lh.n + ((i :: s.active).map s.allowance).sum ≤ _
    simp only [canBegin, Bool.and_eq_true, decide_eq_true_eq] at hc
    -- the reservation of `begin_op` exceeds the allowance by one block for each operation
    cases ha : s.active with
    | nil => grind [h.empty, List.length_nil, maxOpBlocks, logSize]
    | cons => grind [List.length_cons, maxOpBlocks, logSize]
  · intro ha
    cases ha

theorem Reserved.logWrite {b : BlockNo}
    (hl : s.lock b = some i) (hops : ((logWrite s i b).blocks i).card ≤ maxOpBlocks - 1) :
    Reserved (logWrite s i b) := by
  have hact := (hi.history.lock b i hl).1
  have hne : s.active ≠ [] := List.ne_nil_of_mem hact
  let s' := Log.logWrite s i b
  have hother : ∀ j ∈ s.active.erase i, s'.allowance j = s.allowance j := by
    intro j hj
    have hji : j ≠ i := fun h => hi.history.nodup.not_mem_erase (h ▸ hj)
    simp [s', State.allowance, blocks_logWrite, hji]
  constructor
  · intro j hj c hc
    rw [lists_logWrite]
    rw [blocks_logWrite] at hc
    split at hc
    · grind [h.listed]
    · exact .inr (h.listed j hj c hc)
  · intro _
    have hroom := h.room hne
    have hold := List.sum_map_erase s.allowance hact
    have hnew := List.sum_map_erase s'.allowance hact
    rw [List.map_congr_left hother] at hnew
    change s'.lh.n + (s.active.map s'.allowance).sum ≤ _
    have hself : s'.allowance i = maxOpBlocks - 1 - (insert b (s.blocks i)).card := by
      simp [s', State.allowance, blocks_logWrite]
    rw [blocks_logWrite, if_pos rfl] at hops
    by_cases hk : absorb s.lh b = s.lh.n
    · -- a block new to the header is new to the operation, which gives up one of its allowance
      have hnew' : b ∉ s.blocks i := by
        intro hb
        obtain ⟨j, hj, hjb⟩ := h.listed i hact b hb
        exact absorb_miss hk j hj hjb
      rw [Finset.card_insert_of_notMem hnew'] at hops hself
      have hn : s'.lh.n = s.lh.n + 1 := if_pos hk
      have hal : s.allowance i = maxOpBlocks - 1 - (s.blocks i).card := rfl
      omega
    · have hn : s'.lh.n = s.lh.n := if_neg hk
      have hle : s'.allowance i ≤ s.allowance i := by
        rw [hself]
        exact Nat.sub_le_sub_left (Finset.card_le_card (Finset.subset_insert _ _)) _
      omega
  · intro ha
    exact absurd ha hne

theorem Reserved.endOp (ha : i ∈ s.active)
    (hl : ∀ b, s.lock b ≠ some i) : Reserved (endOp s i) := by
  have hcount := (hi.history.leaveOp ha hl).count
  unfold Log.endOp
  split
  · grind [Reserved.of_quiet, startCommit]
  · next h0 =>
    constructor
    · intro j hj
      exact h.listed j (List.mem_of_mem_erase hj)
    · intro _
      have hroom := h.room (List.ne_nil_of_mem ha)
      have hsum := List.sum_map_erase s.allowance ha
      change s.lh.n + ((s.active.erase i).map s.allowance).sum ≤ _
      omega
    · grind

theorem Reserved.step (hs : Step cfg s s')
    (hops : ∀ i, (s'.blocks i).card ≤ maxOpBlocks - 1) : Reserved s' := by
  have hquiet : s.phase ≠ .running → s.active = [] := hi.active_nil
  have hinv := hi.phase
  cases hs with
  | beginOp _ hr hc hf => exact h.beginOp hi hr hc hf
  | modify | fill | evict => exact h.congr rfl rfl rfl rfl
  | logWrite i _ hl => exact h.logWrite hi hl (hops i)
  | endOp _ ha hl => exact h.endOp hi ha hl
  | crash => exact Reserved.of_quiet rfl nofun
  | finish hp =>
    rw [hp] at hinv hquiet
    exact Reserved.of_quiet (hquiet nofun) fun _ => hinv.2.2.1
  | clear hp =>
    rw [hp] at hinv hquiet
    exact Reserved.of_quiet (hquiet nofun) fun _ => hinv.2.1
  | writeLog _ hp | writeLogEnd hp | writeHead hp | install _ hp | installEnd hp | erase hp
  | readHead hp | reinstall _ hp | reinstallEnd hp =>
    exact Reserved.of_quiet (hquiet (by simp [hp])) nofun

end

theorem Reachable.reserved (hs : Reachable cfg base s)
    (hops : ∀ i, (s.blocks i).card ≤ maxOpBlocks - 1) : Reserved s := by
  obtain ⟨s0, h0, hrun⟩ := hs
  induction hrun with
  | refl => exact Reserved.of_quiet h0.active fun _ => h0.lh
  | tail hrun hstep ih =>
    apply (ih ?_).step (Reachable.inv ⟨s0, h0, hrun⟩) hstep hops
    intro i
    exact (Finset.card_le_card (hstep.blocks_subset i)).trans (hops i)

theorem Step.fits (hi : Inv cfg base s) (hs : Step cfg s s') (h : s.lh.n < cfg.size) :
    s'.lh.n < cfg.size := by
  have hinv := hi.phase
  cases hs with
  | logWrite _ _ _ hp =>
    simp only [logWritePanics, Bool.or_eq_false_iff, decide_eq_false_iff_not] at hp
    simp only [Log.logWrite]
    split <;> omega
  | endOp =>
    unfold Log.endOp
    split <;> exact h
  | installEnd | reinstallEnd | crash => exact cfg.pos
  | readHead hp =>
    rw [hp] at hinv
    rw [bread_eq_disk (hinv.cache _)]
    exact hinv.disk.fits
  | _ => exact h

theorem Reachable.fits (hs : Reachable cfg base s) : s.lh.n < cfg.size := by
  obtain ⟨s0, h0, hrun⟩ := hs
  induction hrun with
  | refl => rw [h0.lh]; exact cfg.pos
  | tail hrun hstep ih => exact hstep.fits (Reachable.inv ⟨s0, h0, hrun⟩) ih

/-- Space in the log of an image from `mkfs`, for operations that stay one block below their
reservation. In every run in which each operation logs at most `MAXOPBLOCKS - 1` distinct
blocks, however many operations run at a time: the next `log_write` does not panic, and the
copies of all listed blocks lie in the log region behind the header. -/
theorem log_space_sufficient (hs : Reachable mkfsLog base s)
    (hops : ∀ i, (s.blocks i).card ≤ maxOpBlocks - 1) :
    (∀ i b, s.lock b = some i → logWritePanics mkfsLog s = false) ∧
    ∀ tail < s.lh.n, mkfsLog.start < (mkfsLog.logBlock (tail + 1)).toNat ∧
      (mkfsLog.logBlock (tail + 1)).toNat < mkfsLog.start + mkfsLog.size := by
  have hi := hs.inv
  refine ⟨?_, ?_⟩
  · intro i b hl
    have hact := (hi.history.lock b i hl).1
    have hroom := (hs.reserved hops).room (List.ne_nil_of_mem hact)
    have hout : 0 < s.outstanding := hi.history.count ▸ List.length_pos_of_mem hact
    have hsize : mkfsLog.size = logSize := rfl
    have hlog : logSize = 30 := rfl
    simp only [logWritePanics, Bool.or_eq_false_iff, decide_eq_false_iff_not]
    omega
  · intro tail ht
    have hfit := hs.fits
    rw [mkfsLog.logBlock_toNat (i := tail + 1) (by omega)]
    omega

/-! A run in which three operations use their reservations to the full. -/

/-- The given operations bring in, change and log the given blocks, as long as that does not
panic. -/
def logAll (cfg : Config) : State → List (Nat × BlockNo) → Option State
  | s, [] => some s
  | s, (i, b) :: rest =>
    if i ∈ s.active ∧ cfg.start + cfg.size ≤ b.toNat ∧ s.lock b = none ∧
        logWritePanics cfg (modify s i b fun _ => 1) = false then
      logAll cfg (logWrite (modify s i b fun _ => 1) i b) rest
    else none

theorem Reachable.logAll (hs : Reachable cfg base s) (todo : List (Nat × BlockNo))
    (h : logAll cfg s todo = some s') : Reachable cfg base s' := by
  induction todo generalizing s with
  | nil =>
    cases h
    exact hs
  | cons w _ ih =>
    obtain ⟨i, b⟩ := w
    simp only [Log.logAll] at h
    split at h
    · next hc =>
      obtain ⟨hact, hhome, hlock, hpanic⟩ := hc
      obtain ⟨s0, h0, hrun⟩ := hs
      apply ih _ h
      refine ⟨s0, h0, ?_⟩
      apply (hrun.tail (.modify s i b _ hact (.inr hhome) hlock)).tail
      exact .logWrite _ i b (by simp [modify]) hpanic
    · cases h

def threeBegun : State := beginOp (beginOp (beginOp demoInit 0) 1) 2

theorem threeBegun_reachable : Reachable mkfsLog (fun _ _ => 0) threeBegun := by
  refine ⟨demoInit, ⟨rfl, by decide, rfl, rfl, rfl, rfl, rfl, rfl, rfl, rfl, rfl, rfl, rfl, rfl⟩, ?_⟩
  exact .tail (.tail (.tail .refl (.beginOp _ 0 rfl rfl (by decide)))
    (.beginOp _ 1 rfl rfl (by decide))) (.beginOp _ 2 rfl rfl (by decide))

/-- The first 29 of the blocks that the three operations log, ten of their own each. -/
def firstBlocks : List (Nat × BlockNo) :=
  (List.range 29).map fun k => (k / 10, BitVec.ofNat 32 (100 + k))

/-- Two operations have logged ten blocks and the third has logged nine. -/
def nearlyFull (s : State) : Bool :=
  s.lock 129 == none && s.active == [2, 1, 0] && s.started == [2, 1, 0] &&
    (s.blocks 0).card == 10 && (s.blocks 1).card == 10 && (s.blocks 2).card == 9 &&
    (insert 129 (s.blocks 2)).card == 10 && logWritePanics mkfsLog s

theorem nearlyFull_reachable : ∃ s, Reachable mkfsLog (fun _ _ => 0) s ∧ nearlyFull s = true := by
  have hrun : ((logAll mkfsLog threeBegun firstBlocks).any nearlyFull) = true := by decide +kernel
  cases hs : logAll mkfsLog threeBegun firstBlocks with
  | none => rw [hs] at hrun; cases hrun
  | some s =>
    rw [hs] at hrun
    exact ⟨s, threeBegun_reachable.logAll _ hs, hrun⟩

/-- With the region of `mkfs`, three operations that are within `MAXOPBLOCKS` panic: the third
is about to log its tenth block. -/
theorem log_space_exhausted :
    ∃ s, Reachable mkfsLog (fun _ _ => 0) s ∧ (∀ i, (s.blocks i).card ≤ maxOpBlocks) ∧
      s.lock 129 = some 2 ∧ (insert 129 (s.blocks 2)).card ≤ maxOpBlocks ∧
      logWritePanics mkfsLog s = true := by
  obtain ⟨s, hs, hfull⟩ := nearlyFull_reachable
  simp only [nearlyFull, Bool.and_eq_true, beq_iff_eq] at hfull
  obtain ⟨⟨⟨⟨⟨⟨⟨hlock, hact⟩, hstarted⟩, h0⟩, h1⟩, h2⟩, hnew⟩, hpanic⟩ := hfull
  have hbound : ∀ i, (s.blocks i).card ≤ maxOpBlocks := by
    intro i
    by_cases hi : i ∈ s.started
    · rw [hstarted] at hi
      simp only [List.mem_cons, List.not_mem_nil, or_false] at hi
      rcases hi with rfl | rfl | rfl <;> simp [*, maxOpBlocks]
    · have hw := (hs.inv.history.fresh i hi).1
      simp [State.blocks, hw]
  obtain ⟨s0, h₀, hrun⟩ := hs
  have hhome : mkfsLog.Home 129 := .inr (by decide)
  refine ⟨modify s 2 129 fun _ => 1,
    ⟨s0, h₀, hrun.tail (.modify s 2 129 _ (by simp [hact]) hhome hlock)⟩, hbound, ?_, ?_, hpanic⟩
  · simp [modify]
  · exact hnew.le

/-- An operation has logged one block and is about to log a second one. -/
def secondWrite : State :=
  modify (logWrite (modify (beginOp demoInit 0) 0 100 fun _ => 7) 0 100) 0 101 fun _ => 8

theorem secondWrite_reachable : Reachable mkfsLog (fun _ _ => 0) secondWrite := by
  refine ⟨demoInit,
    ⟨rfl, by decide, rfl, rfl, rfl, rfl, rfl, rfl, rfl, rfl, rfl, rfl, rfl, rfl⟩, ?_⟩
  exact .tail (.tail (.tail (.tail .refl (.beginOp _ 0 rfl rfl (by decide)))
    (.modify _ 0 100 _ (by simp [beginOp]) (.inr (by decide)) rfl)) (.logWrite _ 0 100 rfl rfl))
    (.modify _ 0 101 _ (by simp [logWrite, modify, beginOp]) (.inr (by decide)) rfl)

theorem secondWrite_blocks (i : Nat) : (secondWrite.blocks i).card ≤ maxOpBlocks - 1 := by
  change ((logWrite (modify (beginOp demoInit 0) 0 100 fun _ => 7) 0 100).blocks i).card ≤ _
  rw [blocks_logWrite]
  split
  · decide
  · simp [State.blocks, modify, beginOp, demoInit]

theorem log_space_sufficient_second : logWritePanics mkfsLog secondWrite = false :=
  (log_space_sufficient secondWrite_reachable secondWrite_blocks).1 0 101 rfl

end Xv6.Log
