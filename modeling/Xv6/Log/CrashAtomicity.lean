import Xv6.Log.Preservation

/-!
# Crash atomicity of the log

A crash in any state of any run, with any number of further crashes during recovery, leaves
the home blocks as they were after a prefix of the commits; the writes of an operation are
all in that prefix or none of them is.
-/

namespace Xv6.Log

variable {cfg : Config} {base : BlockNo → Block} {s s' : State}

theorem Inv.initial (h : Initial cfg base s) : Inv cfg base s := by
  have hhead : (decodeHead (s.disk (cfg.logBlock 0))).n = 0 := by rw [h.disk]; exact h.head
  have hT : target base s = base := by simp [target, h.commits, h.txn, afterCommits, applyWrites]
  refine ⟨⟨?_, ?_, ?_, ?_, ?_, ?_, ?_, ?_⟩, ?_, ?_⟩
  · simp [h.active]
  · simp [h.active, h.outstanding]
  · simp [h.active]
  · simp [h.lock]
  · intro i pre hp
    rw [h.commits] at hp
    left
    rw [List.prefix_nil.mp hp]
    rfl
  · intro i
    left
    rw [h.txn]
    rfl
  · simp [h.active]
  · intro i _
    simp [h.wrote, h.commits, h.txn, writesOf]
  · intro b _
    left
    rw [h.cache]
  · rw [h.phase]
    refine ⟨⟨?_, ?_, ?_, ?_, ?_⟩, h.committing, hhead, ?_⟩
    · intro b _ _
      simp [bread, h.cache, h.disk, hT]
    · intro b _ _
      rw [h.disk, hT]
    · intro b
      simp [h.pin, h.lh]
    · simp [h.pin]
    · refine ⟨?_, ?_, ?_, ?_⟩
      · rw [h.lh]; exact Nat.zero_le _
      · rw [h.lh]; exact cfg.pos
      · rw [h.lh]; intro j hj; omega
      · rw [h.lh]; intro j hj; omega
    · intro b _
      simp [h.disk, h.commits, afterCommits, applyWrites]

theorem Inv.step (h : Inv cfg base s) (hs : Step cfg s s') : Inv cfg base s' := by
  cases hs with
  | beginOp _ hr hc hi => exact h.beginOp hr hc hi
  | modify _ _ _ hi hb => exact h.modify hi hb
  | logWrite _ _ hl hp => exact h.logWrite hl hp
  | endOp _ hi hl => exact h.endOp hi hl
  | fill b => exact h.fill b
  | evict _ hp => exact h.evict hp
  | writeLog _ hp ht => exact h.writeLog hp ht
  | writeLogEnd hp =>
    have hph := h.phase
    rw [hp] at hph
    obtain ⟨hlive, hq, -, he, hl, hhome⟩ := hph
    have hh := h.history
    exact ⟨{ hh with }, h.coherent, { hlive with }, ⟨hq.1, hq.2, hq.3⟩, he, hl, hhome⟩
  | writeHead hp => exact h.writeHead hp
  | install _ hp ht => exact h.install hp ht
  | installEnd hp => exact h.installEnd hp
  | erase hp => exact h.erase hp
  | finish hp => exact h.finish hp
  | crash => exact h.crash
  | readHead hp => exact h.readHead hp
  | reinstall _ hp ht => exact h.reinstall hp ht
  | reinstallEnd hp => exact h.reinstallEnd hp
  | clear hp => exact h.clear hp

theorem Reachable.inv (h : Reachable cfg base s) : Inv cfg base s := by
  obtain ⟨s0, h0, hrun⟩ := h
  induction hrun with
  | refl => exact Inv.initial h0
  | tail _ hstep ih => exact ih.step hstep

/-- A step taken while recovery is in progress: one of its own steps, another crash, or
traffic of the buffer cache. -/
def RecoveryStep (cfg : Config) (s s' : State) : Prop := s.phase.recovering = true ∧ Step cfg s s'

theorem Inv.active_of_recovering (h : Inv cfg base s) (hr : s.phase.recovering = true) :
    s.active = [] := by
  cases ha : s.active with
  | nil => rfl
  | cons i =>
    have := h.phase_of_active (i := i) (by rw [ha]; exact List.mem_cons_self)
    rw [this] at hr
    cases hr

theorem RecoveryStep.keeps (hi : Inv cfg base s) (h : RecoveryStep cfg s s') :
    s'.commits = s.commits ∧ (s'.phase.recovering = true ∨ s'.phase = .running) := by
  obtain ⟨hr, hs⟩ := h
  have hnone := hi.active_of_recovering hr
  cases hs with
  | beginOp _ hr' => rw [hr'] at hr; cases hr
  | modify | fill | evict => exact ⟨rfl, .inl hr⟩
  | logWrite i b hl =>
    have := hi.history.lock
    grind
  | endOp _ hi' => rw [hnone] at hi'; cases hi'
  | writeLog _ hp | writeLogEnd hp | writeHead hp | install _ hp | installEnd hp | erase hp
  | finish hp => rw [hp] at hr; cases hr
  | crash =>
    refine ⟨?_, .inl rfl⟩
    have : s.phase.uncommitted = false := by
      revert hr
      cases s.phase <;> simp [Phase.recovering, Phase.uncommitted]
    simp [Log.crash, this]
  | readHead | reinstall | reinstallEnd => exact ⟨rfl, .inl rfl⟩
  | clear => exact ⟨rfl, .inr rfl⟩

theorem recovery_run (hi : Inv cfg base s) (hr : s.phase.recovering = true)
    (hrun : Relation.ReflTransGen (RecoveryStep cfg) s s') :
    Inv cfg base s' ∧ s'.commits = s.commits ∧
      (s'.phase.recovering = true ∨ s'.phase = .running) := by
  induction hrun with
  | refl => exact ⟨hi, rfl, .inl hr⟩
  | tail _ hstep ih =>
    obtain ⟨hinv, hc, -⟩ := ih
    obtain ⟨hc', hp'⟩ := hstep.keeps hinv
    exact ⟨hinv.step hstep.2, hc'.trans hc, hp'⟩

/-- Crash atomicity. For every reachable state `s`, whatever operations and disk writes are
under way in it: once recovery after a crash of `s` has completed, the home blocks hold the
state after a prefix of the commits, and each operation's writes are all in that prefix or
all absent from it. Only a commit whose header was not yet written can be missing. -/
theorem crash_atomicity (hs : Reachable cfg base s)
    (hrun : Relation.ReflTransGen (RecoveryStep cfg) (crash s) s')
    (hdone : s'.phase.recovering = false) :
    ∃ pre, pre <+: s.commits ∧ (∀ b, cfg.Home b → s'.disk b = afterCommits base pre b) ∧
      (∀ i, writesOf i pre.flatten = [] ∨ writesOf i pre.flatten = s.wrote i) ∧
      (s.phase.uncommitted = false → pre = s.commits) := by
  have hi := hs.inv
  obtain ⟨hinv, hc, hp⟩ := recovery_run hi.crash rfl hrun
  have hphase : s'.phase = .running := by grind
  have hpre : (crash s).commits <+: s.commits := by
    simp only [crash]
    split
    · exact List.dropLast_prefix _
    · exact List.prefix_rfl
  have hrunning := hinv.phase
  rw [hphase] at hrunning
  refine ⟨(crash s).commits, hpre, ?_, fun i => hi.history.whole i _ hpre, ?_⟩
  · rw [← hc]
    exact hrunning.2.2.2
  · intro hu
    simp [crash, hu]

/-! A run that commits one operation and crashes right after its header write. -/

def demoConfig : Config := ⟨2, 30, by decide, by decide⟩

def demoInit : State where
  disk := fun _ _ => 0
  cache := fun _ => none
  pin := fun _ => 0
  lock := fun _ => none
  lh := ⟨0, fun _ => 0⟩
  outstanding := 0
  committing := false
  phase := .running
  active := []
  started := []
  txn := []
  commits := []
  wrote := fun _ => []

/-- One operation logs block 100; the machine stops before `install_trans`. -/
def demoState : State :=
  let s := endOp (logWrite (modify (beginOp demoInit 0) 0 100 fun _ => 7) 0 100) 0
  let s := { writeLogTail demoConfig 0 s with phase := .writeLog 1 }
  let s := { s with phase := .writeHead }
  { writeHead demoConfig s with phase := .install 0 }

theorem demoState_reachable : Reachable demoConfig (fun _ _ => 0) demoState := by
  refine ⟨demoInit, ⟨rfl, by decide, rfl, rfl, rfl, rfl, rfl, rfl, rfl, rfl, rfl, rfl, rfl, rfl⟩, ?_⟩
  refine .tail (.tail (.tail (.tail (.tail (.tail (.tail .refl
    (.beginOp _ 0 rfl rfl (by simp [demoInit])))
    (.modify _ 0 100 (fun _ => 7) (by simp [beginOp]) (.inr (by decide)) rfl))
    (.logWrite _ 0 100 rfl rfl))
    (.endOp _ 0 (by simp [logWrite, modify, beginOp]) ?_ rfl))
    (.writeLog _ 0 rfl (by decide))) (.writeLogEnd _ rfl)) (.writeHead _ rfl)
  intro b
  simp [logWrite, modify, beginOp, demoInit]

def demoRecovered : State :=
  let s := { fill (crash demoState) (demoConfig.logBlock 0) with
    lh := decodeHead (bread (crash demoState) (demoConfig.logBlock 0)), phase := .reinstall 0 }
  let s := { installTail demoConfig true 0 s with phase := .reinstall 1 }
  let s := { s with phase := .clear, lh := { s.lh with n := 0 } }
  { writeHead demoConfig s with phase := .running }

theorem demoRecovered_run :
    Relation.ReflTransGen (RecoveryStep demoConfig) (crash demoState) demoRecovered :=
  .tail (.tail (.tail (.tail .refl ⟨rfl, .readHead _ rfl⟩) ⟨rfl, .reinstall _ 0 rfl (by decide)⟩)
    ⟨rfl, .reinstallEnd _ (by decide)⟩) ⟨rfl, .clear _ rfl⟩

theorem crash_atomicity_demo : ∃ pre, pre <+: demoState.commits ∧
      (∀ b, demoConfig.Home b → demoRecovered.disk b = afterCommits (fun _ _ => 0) pre b) ∧
      (∀ i, writesOf i pre.flatten = [] ∨ writesOf i pre.flatten = demoState.wrote i) ∧
      (demoState.phase.uncommitted = false → pre = demoState.commits) :=
  crash_atomicity demoState_reachable demoRecovered_run rfl

end Xv6.Log
