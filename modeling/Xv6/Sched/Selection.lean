import Xv6.Misc.Least
import Xv6.Sched.Rounds
import Mathlib.Data.List.Lex

/-!
# The selection scans

FCFS, PBS and MLFQ look at every process, keep the best RUNNABLE one seen so far and go on to
lock it. While the scan lasts no lock is held from one process to the next, so other CPUs may
act in between; as long as they leave the process records alone, the scan ends with the process
that is least in the order the build documents.
-/

namespace Xv6.Sched

variable {n : Nat} {b : Build} {proc : Slot → Proc} {c : Fin n} {s s' : State n}
variable {best : Option Slot}
variable {i : Slot} {q : Nat}

def Build.Scans : Build → Prop
  | .FCFS | .PBS | .MLFQ => True
  | .RR | .LBS => False

def Build.Candidate (b : Build) (proc : Slot → Proc) (p : Slot) : Prop :=
  (proc p).state = .runnable ∧ (b = .MLFQ → 0 ≤ (proc p).queue ∧ (proc p).queue ≤ 3)

/-- What the builds order the processes by, the most significant entry first. -/
def Build.key : Build → (Slot → Proc) → Slot → List Int
  | .PBS, proc, p => [(proc p).getDP, (proc p).timesScheduled, (proc p).createTime, p.val]
  | .MLFQ, proc, p => [(proc p).queue, (proc p).entryTime, p.val]
  | _, proc, p => [(proc p).createTime, p.val]

def Build.scanStart : Build → Pc
  | .MLFQ => .select 0 0 none
  | _ => .scan 0 none

/-- What the scan has ended with, at the points where it has ended. -/
def outcome : Mode → Option (Option Slot)
  | .sched (.scan i best) => if i = nproc then some best else none
  | .sched (.select q i best) => if i = nproc ∧ (best ≠ none ∨ q = 3) then some best else none
  | .sched (.pick p) => some (some p)
  | _ => none

/-- A run of all CPUs during which no process record changes. -/
def StableRun (b : Build) : State n → State n → Prop :=
  Relation.ReflTransGen fun s s' => Step b s s' ∧ s'.proc = s.proc

theorem Build.key_injective (b : Build) (proc : Slot → Proc) : Function.Injective (b.key proc) := by
  intro p q h
  apply Fin.ext
  cases b <;> simp only [key, List.cons.injEq, and_true] at h <;> omega

/-! ## One visit -/

theorem Build.better_iff (hb : b ≠ .MLFQ) {m : Slot} (h : m < i) :
    b.better (proc i) (proc m) = true ↔ b.key proc i < b.key proc m := by
  have hlt : ¬((i.val : Int) < m.val) := by
    have := Fin.lt_def.mp h
    omega
  cases b with
  | MLFQ => exact absurd rfl hb
  | PBS =>
    simp only [better, key, List.cons_lt_cons_iff, hlt]
    split
    · simp_all
    · grind
  | RR | FCFS | LBS => simp [better, key, List.cons_lt_cons_iff, hlt]

theorem scanStep_least (hb : b ≠ .MLFQ) (h : LeastBelow (b.Candidate proc) (b.key proc) i best) :
    LeastBelow (b.Candidate proc) (b.key proc) (i + 1) (scanStep b proc i best) := by
  unfold scanStep
  by_cases hi : (proc i).state = .runnable
  · have hc : b.Candidate proc i := ⟨hi, fun hm => absurd hm hb⟩
    rw [if_pos hi]
    cases best with
    | none => exact h.first hc
    | some m =>
      have hiff : b.better (proc i) (proc m) = true ↔ b.key proc i < b.key proc m :=
        Build.better_iff hb (Fin.lt_def.mpr h.1)
      dsimp only
      split
      · next hlt => exact h.replace hc (hiff.mp hlt)
      · next hlt => exact h.keep (not_lt.mp (mt hiff.mpr hlt))
  · rw [if_neg hi]
    exact h.skip fun hc => hi hc.1

/-- The processes that the scan of queue `q` chooses from. -/
def InQueue (proc : Slot → Proc) (q : Nat) (p : Slot) : Prop :=
  (proc p).state = .runnable ∧ (proc p).queue = q

theorem selectStep_least (h : LeastBelow (InQueue proc q) (Build.MLFQ.key proc) i best) :
    LeastBelow (InQueue proc q) (Build.MLFQ.key proc) (i + 1) (selectStep proc q i best) := by
  unfold selectStep
  by_cases hi : (proc i).state = .runnable ∧ (proc i).queue = q
  · rw [if_pos hi]
    cases best with
    | none => exact h.first hi
    | some m =>
      have hm := h.2.1.2
      have hlt : ¬((i.val : Int) < m.val) := by
        have := h.1
        omega
      have hiff : Build.MLFQ.key proc i < Build.MLFQ.key proc m ↔
          (proc i).entryTime < (proc m).entryTime := by
        simp [Build.key, List.cons_lt_cons_iff, hlt, hi.2, hm]
      simp only [hi.2, hm, lt_irrefl, if_false, true_and]
      split
      · next he => exact h.replace hi (hiff.mpr he)
      · next he => exact h.keep (not_lt.mp (mt hiff.mp he))
  · rw [if_neg hi]
    exact h.skip hi

theorem leastBelow_ofQueue {m : Slot} (hq : q ≤ 3)
    (hno : ∀ p, (proc p).state = .runnable → ¬(0 ≤ (proc p).queue ∧ (proc p).queue < q))
    (h : LeastBelow (InQueue proc q) (Build.MLFQ.key proc) nproc (some m)) :
    LeastBelow (Build.MLFQ.Candidate proc) (Build.MLFQ.key proc) nproc (some m) := by
  have hm := h.2.1.2
  refine ⟨h.1, ⟨h.2.1.1, fun _ => by omega⟩, ?_⟩
  intro j hj hc
  obtain ⟨h0, h3⟩ := hc.2 rfl
  by_cases heq : (proc j).queue = q
  · exact h.2.2 j hj ⟨hc.1, heq⟩
  · -- the queues below `q` are empty, so `j` is in a later one
    have hlt : (proc m).queue < (proc j).queue := by
      have := hno j hc.1
      omega
    exact le_of_lt (List.cons_lt_cons_iff.mpr (.inl hlt))

/-! ## Runs -/

/-- What holds of the local variables of `scheduler` while the records stay as they are. -/
def PcSelects (b : Build) (proc : Slot → Proc) : Pc → Prop
  | .scan i best => b ≠ .MLFQ ∧ LeastBelow (b.Candidate proc) (b.key proc) i best
  | .select q i best => b = .MLFQ ∧ q ≤ 3 ∧
      (∀ p, (proc p).state = .runnable → ¬(0 ≤ (proc p).queue ∧ (proc p).queue < q)) ∧
      LeastBelow (InQueue proc q) (b.key proc) i best
  | .pick p => LeastBelow (b.Candidate proc) (b.key proc) nproc (some p)
  | .top => True
  | .demote _ | .age _ | .rr4 _ => b = .MLFQ
  | _ => False

theorem pcSelects_scanStart (hb : b.Scans) : PcSelects b proc b.scanStart := by
  cases b with
  | RR | LBS => exact hb.elim
  | FCFS | PBS => exact ⟨by simp, LeastBelow.zero⟩
  | MLFQ => exact ⟨rfl, by omega, fun p _ h => by omega, LeastBelow.zero⟩

theorem pcSelects_start (hb : b.Scans) : PcSelects b proc b.start := by
  cases b with
  | RR | LBS => exact hb.elim
  | FCFS | PBS => exact ⟨by simp, LeastBelow.zero⟩
  | MLFQ => exact rfl

theorem pcSelects_afterScan (h : PcSelects b proc (.scan nproc best)) :
    PcSelects b proc (afterScan best) := by
  cases best with
  | none => trivial
  | some => exact h.2

theorem pcSelects_afterSelect (h : PcSelects b proc (.select q nproc best)) :
    PcSelects b proc (afterSelect q best) := by
  obtain ⟨rfl, hq, hno, h⟩ := h
  cases best with
  | some => exact leastBelow_ofQueue hq hno h
  | none =>
    by_cases hlt : q < 3
    · rw [afterSelect, if_pos hlt]
      refine ⟨rfl, by omega, ?_, LeastBelow.zero⟩
      intro p hp hq'
      by_cases heq : (proc p).queue = q
      · exact h p p.isLt ⟨hp, heq⟩
      · exact hno p hp (by omega)
    · rw [afterSelect, if_neg hlt]
      exact rfl

/-! ## Steps of the scanning CPU and of the others -/

theorem dispatch_proc_ne {p : Slot} {r : Proc} {k : Pc} (hp : (s.proc p).state = .runnable)
    (hr : r.state = .running) : (dispatch s c p r k).proc ≠ s.proc := by
  intro h
  have hself : r = s.proc p := by
    have := congrFun h p
    simpa [dispatch, State.goto, State.setProc, State.setLock, State.setCpuProc] using this
  rw [← hself, hr] at hp
  cases hp

/-- The CPU is in `scheduler` with such local variables. -/
def ModeSelects (b : Build) (proc : Slot → Proc) : Mode → Prop
  | .sched pc => PcSelects b proc pc
  | .thread _ _ => False

theorem SchedStep.modeSelects (hb : b.Scans) (h : SchedStep b c s s') (hproc : s'.proc = s.proc)
    (hpc : ModeSelects b s.proc (s.cpu c).mode) : ModeSelects b s.proc (s'.cpu c).mode := by
  cases h with
  | top =>
    rw [goto_mode]
    exact pcSelects_start hb
  | scan _ _ hm =>
    rw [hm] at hpc
    rw [goto_mode]
    exact ⟨hpc.1, scanStep_least hpc.1 hpc.2⟩
  | scanEnd _ hm =>
    rw [hm] at hpc
    rw [goto_mode]
    exact pcSelects_afterScan hpc
  | select _ _ _ hm =>
    rw [hm] at hpc
    obtain ⟨rfl, hq, hno, hleast⟩ := hpc
    rw [goto_mode]
    exact ⟨rfl, hq, hno, selectStep_least hleast⟩
  | selectEnd _ _ hm =>
    rw [hm] at hpc
    rw [goto_mode]
    exact pcSelects_afterSelect hpc
  | ageEnd hm =>
    rw [hm] at hpc
    obtain rfl : b = .MLFQ := hpc
    rw [goto_mode]
    exact pcSelects_scanStart (b := .MLFQ) trivial
  | demote _ hm | demoteEnd hm | age _ hm | rr4Skip _ hm =>
    rw [hm] at hpc
    rw [goto_mode]
    exact hpc
  | rr4End | pickSkip =>
    rw [goto_mode]
    trivial
  | pickRun _ _ _ hp | rr4Run _ _ _ hp => exact absurd hproc (dispatch_proc_ne hp rfl)
  | rrSkip _ hm | rrRun _ hm | rrEnd hm | total _ _ hm | totalEnd _ _ hm | drawKeep _ _ _ hm
  | drawDrop _ _ _ hm | drawNone _ hm | drawRun _ _ hm | drawSkip _ _ hm | swtch _ _ hm
  | back _ _ hm => rw [hm] at hpc; exact hpc.elim

theorem Step.modeSelects (hb : b.Scans) (h : Step b s s') (hproc : s'.proc = s.proc)
    (hpc : ModeSelects b s.proc (s.cpu c).mode) : ModeSelects b s.proc (s'.cpu c).mode := by
  cases h with
  | sched c' h =>
    by_cases hc : c = c'
    · subst hc
      exact h.modeSelects hb hproc hpc
    · rwa [h.cpu_other hc]
  | thread c' h =>
    by_cases hc : c = c'
    · subst hc
      obtain ⟨p, pc, hm⟩ := h.mode
      rw [hm] at hpc
      exact hpc.elim
    · rwa [h.cpu_other hc]
  | locked _ h => rwa [h.cpu_eq]

theorem StableRun.proc_eq (h : StableRun b s s') : s'.proc = s.proc := by
  induction h with
  | refl => rfl
  | tail _ hs ih => exact hs.2.trans ih

theorem StableRun.modeSelects (hb : b.Scans) (h : StableRun b s s')
    (hpc : ModeSelects b s.proc (s.cpu c).mode) : ModeSelects b s.proc (s'.cpu c).mode := by
  induction h with
  | refl => exact hpc
  | @tail s1 s2 hrun hs ih =>
    have heq : s1.proc = s.proc := StableRun.proc_eq hrun
    rw [← heq] at ih ⊢
    exact hs.1.modeSelects hb hs.2 ih

theorem ModeSelects.outcome {m : Mode} (h : ModeSelects b proc m) (ho : outcome m = some best) :
    LeastBelow (b.Candidate proc) (b.key proc) nproc best := by
  unfold Sched.outcome at ho
  split at ho
  · split at ho
    · next hi =>
      cases ho
      subst hi
      exact h.2
    · cases ho
  · split at ho
    · next hi =>
      cases ho
      obtain ⟨rfl, hor⟩ := hi
      have hend := pcSelects_afterSelect h
      cases best with
      | some => exact hend
      | none =>
        obtain ⟨rfl, -, hno, hq⟩ := h
        intro p hp hc
        have hq3 : _ = 3 := hor.resolve_left (fun hne => hne rfl)
        obtain ⟨h0, h3⟩ := hc.2 rfl
        by_cases heq : (proc p).queue = 3
        · exact hq p hp ⟨hc.1, by omega⟩
        · exact hno p hc.1 (by omega)
    · cases ho
  · cases ho
    exact h
  · cases ho

/-! ## The scan comes to an end -/

theorem StableRun.goto {m m' : Mode} (h : StableRun b s (s.goto c m))
    (hs : SchedStep b c (s.goto c m) ((s.goto c m).goto c m')) : StableRun b s (s.goto c m') := by
  rw [goto_goto] at hs
  exact h.tail ⟨.sched c hs, rfl⟩

theorem StableRun.loop (pcs : Nat → Option Slot → Pc)
    (hstep : ∀ (i : Slot) best, ∃ best', SchedStep b c (s.goto c (.sched (pcs i best)))
      ((s.goto c (.sched (pcs i best))).goto c (.sched (pcs (i + 1) best'))))
    (h : StableRun b s (s.goto c (.sched (pcs 0 none)))) (m : Nat) (hm : m ≤ nproc) :
    ∃ best, StableRun b s (s.goto c (.sched (pcs m best))) := by
  induction m with
  | zero => exact ⟨none, h⟩
  | succ m ih =>
    obtain ⟨best, hrun⟩ := ih (by omega)
    obtain ⟨best', hs⟩ := hstep ⟨m, hm⟩ best
    exact ⟨best', hrun.goto hs⟩

theorem StableRun.scan (hlock : ∀ p, s.lock p = none)
    (h : StableRun b s (s.goto c (.sched (.scan 0 none)))) :
    ∃ s' best, StableRun b s s' ∧ outcome (s'.cpu c).mode = some best := by
  obtain ⟨best, hrun⟩ := StableRun.loop .scan
    (fun i best => ⟨_, .scan _ i best (goto_mode _ _ _) (hlock i)⟩) h nproc (le_refl _)
  exact ⟨_, best, hrun, by simp [goto_mode, outcome]⟩

theorem StableRun.select (hlock : ∀ p, s.lock p = none) (m : Nat) (hq : q + m = 3)
    (h : StableRun b s (s.goto c (.sched (.select q 0 none)))) :
    ∃ s' best, StableRun b s s' ∧ outcome (s'.cpu c).mode = some best := by
  induction m generalizing q with
  | zero =>
    obtain ⟨best, hrun⟩ := StableRun.loop (.select q)
      (fun i best => ⟨_, .select _ q i best (goto_mode _ _ _) (hlock i)⟩) h nproc (le_refl _)
    exact ⟨_, best, hrun, by rw [goto_mode, outcome, if_pos ⟨rfl, .inr (by omega)⟩]⟩
  | succ _ ih =>
    obtain ⟨best, hrun⟩ := StableRun.loop (.select q)
      (fun i best => ⟨_, .select _ q i best (goto_mode _ _ _) (hlock i)⟩) h nproc (le_refl _)
    cases best with
    | some p => exact ⟨_, some p, hrun, by simp [goto_mode, outcome]⟩
    | none =>
      have hnext := hrun.goto (.selectEnd _ q none (goto_mode _ _ _))
      rw [afterSelect, if_pos (by omega)] at hnext
      exact ih (by omega) hnext

theorem StableRun.exists_outcome (hb : b.Scans) (hstart : (s.cpu c).mode = .sched b.scanStart)
    (hlock : ∀ p, s.lock p = none) :
    ∃ s' best, StableRun b s s' ∧ outcome (s'.cpu c).mode = some best := by
  have h : StableRun b s (s.goto c (.sched b.scanStart)) := by
    rw [goto_self hstart]
    exact .refl
  cases b with
  | RR | LBS => exact hb.elim
  | FCFS | PBS => exact h.scan hlock
  | MLFQ => exact h.select hlock 3 rfl

theorem LeastBelow.whole (h : LeastBelow (b.Candidate proc) (b.key proc) nproc best) :
    (best.isSome ↔ ∃ p, b.Candidate proc p) ∧
    ∀ m, best = some m → b.Candidate proc m ∧
      ∀ p, b.Candidate proc p → b.key proc m ≤ b.key proc p := by
  cases best with
  | none =>
    constructor
    · simpa using fun p => h p p.isLt
    · simp
  | some m =>
    refine ⟨⟨fun _ => ⟨m, h.2.1⟩, fun _ => rfl⟩, ?_⟩
    intro m' hm
    cases hm
    exact ⟨h.2.1, fun p => h.2.2 p p.isLt⟩

/-- In every run from the start of the scan that leaves the process records alone, on any number
of CPUs, the scan has one possible outcome: the candidate with the least key, and no process
exactly if there is no candidate. With all locks free there is a run that comes to this
outcome. -/
theorem scan_selects_least (hb : b.Scans) (s : State n) (c : Fin n)
    (hstart : (s.cpu c).mode = .sched b.scanStart) :
    ∃ best, (best.isSome ↔ ∃ p, b.Candidate s.proc p) ∧ (∀ m, best = some m → b.Candidate s.proc m ∧
        ∀ p, b.Candidate s.proc p → b.key s.proc m ≤ b.key s.proc p) ∧
      (∀ s' o, StableRun b s s' → outcome (s'.cpu c).mode = some o → o = best) ∧
      ((∀ p, s.lock p = none) → ∃ s', StableRun b s s' ∧ outcome (s'.cpu c).mode = some best) := by
  have hleast : ∀ (s0 s' : State n) o, s0.proc = s.proc →
      (s0.cpu c).mode = .sched b.scanStart → StableRun b s0 s' →
      outcome (s'.cpu c).mode = some o →
      LeastBelow (b.Candidate s.proc) (b.key s.proc) nproc o := by
    intro s0 s' o hproc hm hrun ho
    have hpc : ModeSelects b s0.proc (s0.cpu c).mode := by
      rw [hm]
      exact pcSelects_scanStart hb
    have := hrun.modeSelects hb hpc
    rw [hproc] at this
    exact this.outcome ho
  -- with the locks dropped the scan ends, and its outcome depends on the records only
  obtain ⟨s1, best, hrun, ho⟩ :=
    StableRun.exists_outcome (s := { s with lock := fun _ => none }) hb hstart fun _ => rfl
  have hbest := hleast { s with lock := fun _ => none } s1 best rfl hstart hrun ho
  obtain ⟨hsome, hmin⟩ := LeastBelow.whole hbest
  have huniq : ∀ s' o, StableRun b s s' → outcome (s'.cpu c).mode = some o → o = best :=
    fun s' o hr ho' => (hleast s s' o rfl hstart hr ho').unique (b.key_injective s.proc) hbest
  refine ⟨best, hsome, hmin, huniq, ?_⟩
  intro hlock
  obtain ⟨s', o, hr, ho'⟩ := StableRun.exists_outcome hb hstart hlock
  rw [huniq s' o hr ho'] at ho'
  exact ⟨s', hr, ho'⟩

def laterSlot : Slot := ⟨5, by decide⟩

/-- Two RUNNABLE processes of MLFQ: the one in the earlier queue has the later slot. -/
def twoQueues : Slot → Proc :=
  Function.update (Function.update (fun _ => {})
    initproc { state := .runnable, queue := 2, entryTime := 1 })
    laterSlot { state := .runnable, queue := 1, entryTime := 9 }

theorem scan_selects_least_twoQueues :
    ∃ s' : State 1, StableRun .MLFQ (atPc twoQueues 9 .top (.select 0 0 none)) s' ∧
      outcome (s'.cpu 0).mode = some (some laterSlot) := by
  obtain ⟨best, hsome, hmin, -, hend⟩ := scan_selects_least (b := .MLFQ) trivial
    (atPc twoQueues 9 .top (.select 0 0 none)) 0 rfl
  obtain ⟨s', hrun, ho⟩ := hend fun _ => rfl
  have hlater : Build.MLFQ.Candidate twoQueues laterSlot := ⟨by decide, fun _ => by decide⟩
  have hother : ∀ m, (twoQueues m).state = .runnable → m = initproc ∨ m = laterSlot := by decide
  cases best with
  | none => cases hsome.mpr ⟨laterSlot, hlater⟩
  | some m =>
    obtain ⟨hm, hle⟩ := hmin m rfl
    rcases hother m hm.1 with rfl | rfl
    · exact absurd (hle laterSlot hlater) (by decide)
    · exact ⟨s', hrun, ho⟩

end Xv6.Sched
