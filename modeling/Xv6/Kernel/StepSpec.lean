import Xv6.Kernel.TrapSpec

/-!
# System calls and steps as acts

Which acts the steps of the machine are made of, depending on the step and the state it starts
from, and the invariant over all runs.
-/

namespace Xv6

open ByteMem

variable {L : Layout} {k k' : Kernel} {g g' : Account} {p c : Slot} {r t n : Nat} {E : Panic → Prop}

theorem guarded_ok {cond : Kernel → Bool} {m : K Unit} (h : guarded cond m k = .ok ((), k')) :
    (cond k = true ∧ m k = .ok ((), k')) ∨ (cond k = false ∧ k' = k) := by
  have he : guarded cond m k = (if cond k then m else pure ()) k := rfl
  rw [he] at h
  split at h
  next hc => exact .inl ⟨hc, h⟩
  next hc =>
    cases h
    exact .inr ⟨Bool.eq_false_iff.mpr hc, rfl⟩

theorem guarded_true {cond : Kernel → Bool} {m : K Unit} (h : cond k = true) :
    guarded cond m k = m k := by
  have he : guarded cond m k = (if cond k then m else pure ()) k := rfl
  rw [he, if_pos h]

/-! ## The acts of a step -/

def Op.proc : Op → Option Slot
  | .preempt p | .sleep p _ | .instr p _ _ | .store p _ _ | .ecall p | .fault p _ | .device p
  | .exception p | .timer p | .syscall p _ | .copyout p _ _ _ | .leave p | .ret p _ => some p
  | _ => none

def Op.Calls (k : Kernel) (op : Op) (p : Slot) (n : Sysno) : Prop :=
  (∃ o, op = .syscall p o) ∧ k.runs p .syscall = true ∧ k.sysno p = n

instance (k : Kernel) (op : Op) (p : Slot) (n : Sysno) : Decidable (op.Calls k p n) :=
  decidable_of_iff ((match op with | .syscall q _ => decide (q = p) | _ => false) = true ∧
    k.runs p .syscall = true ∧ k.sysno p = n) (by cases op <;> simp [Op.Calls])

def Op.Writes (k : Kernel) (op : Op) (p : Slot) : Prop :=
  (∃ va b, op = .store p va b) ∨ (∃ va, op = .fault p va) ∨
    (∃ dstva src len, op = .copyout p dstva src len) ∨ op.Calls k p .wait ∨ op.Calls k p .waitx

def Op.Enters (k : Kernel) (op : Op) (p : Slot) : Prop :=
  op.proc = some p ∧ (k.runs p .user = true ∨ k.runs p .syscall = true ∨ ∃ h, op = .ret p h)

def Kernel.arg (k : Kernel) (p : Slot) (n : Nat) : Nat :=
  (load64 k.km.mem ((k.proc p).trapframe + tfArg n)).toNat

theorem Wp.argaddr {Q : Nat → Kernel → Prop} (h : Q (k.arg p n) k) : Wp E (argaddr p n) k Q :=
  .bind (Wp.loadTf (.pure h))

theorem Wp.argint {Q : Int → Kernel → Prop} (h : Q (toInt32 (k.arg p n)) k) :
    Wp E (argint p n) k Q :=
  .bind (Wp.loadTf (.pure h))

/-- The ranges of user addresses that a system call of `p` writes. -/
def Sysno.ranges (k : Kernel) (p : Slot) : Sysno → List (Nat × Nat)
  | .wait => [(k.arg p 0, 4)]
  | .waitx => [(k.arg p 0, 4), (k.arg p 1, 4), (k.arg p 2, 4)]
  | _ => []

/-- The ranges of user addresses that a step writes: first address and length. -/
def Op.ranges (k : Kernel) : Op → List (Nat × Nat)
  | .store _ va _ => [(va, 1)]
  | .copyout _ dstva _ len => [(dstva, len)]
  | .syscall p _ => (k.sysno p).ranges k p
  | _ => []

def Op.Allows (k : Kernel) (op : Op) : Label → Prop
  | .calm => True
  | .frame p => (k.proc p).hold.live = false ∨ op.Enters k p
  | .create c => (∃ p, op.Calls k p .fork) ∧ (k.proc c).hold.live = false
  | .destroy c => (k.proc c).hold.live = false ∨ (k.proc c).state = .zombie
  | .grow p => op.Calls k p .sbrk
  | .extend p => op.Calls k p .sbrk
  | .shrink p => op.Calls k p .sbrk
  | .replace p => op.Writes k p
  | .write p dstva n => op.Writes k p ∧ ∃ len, (dstva, len) ∈ op.ranges k ∧ n ≤ len
  | .share p c => op.Calls k p .fork ∧ (k.proc c).hold.live = false
  | .exec p => op.Calls k p .exec
  | .pageIn => op = .kalloc
  | .pageOut => ∃ pa, op = .kfree pa
  | .deliver p => op = .timer p ∧ k.runs p .user = true
  | .restore p => op.Calls k p .sigreturn

theorem Op.allows_ownFrame {op : Op} (h : op.Enters k p) (l : Label) (hl : OwnFrame p l) :
    op.Allows k l := by
  obtain rfl | rfl := hl
  · trivial
  · exact .inr h

theorem Op.allows_writing {op : Op} {ranges : List (Nat × Nat)} (h : op.Writes k p)
    (hr : ranges ⊆ op.ranges k) (l : Label) (hl : Writing p ranges l) : op.Allows k l := by
  obtain rfl | rfl | ⟨dstva, len, n, hmem, hn, rfl⟩ := hl
  · trivial
  · exact h
  · exact ⟨h, len, hr hmem, hn⟩

/-! ## System calls -/

theorem argint_does {P : Label → Prop} (n : Nat) : Does L p P (argint p n) :=
  ⟨fun _ g _ _ => .bind (Wp.loadTf (.pure ⟨g, .refl⟩))⟩

theorem sysKill_does : Does L p (OwnFrame p) (sysKill p) := by
  refine (argint_does 0).bind ownFrame_destroy fun pid => ?_
  refine .bind ownFrame_destroy ?_ fun _ => .pure _
  refine Does.get.bind ownFrame_destroy fun k => ?_
  split
  · exact .pure _
  · exact (Does.setProc (.inl rfl) Proc.hold_kill).bind ownFrame_destroy fun _ => Does.pure _

theorem sysTrace_does : Does L p (OwnFrame p) (sysTrace p) := by
  refine (argint_does 0).bind ownFrame_destroy fun mask => ?_
  apply Does.ite
  · intro _
    exact .pure _
  · intro _
    refine .bind ownFrame_destroy (.setProc (.inl rfl) ?_) fun _ => .pure _
    exact fun _ => rfl

theorem sysSettickets_does : Does L p (OwnFrame p) (sysSettickets p) := by
  refine (argint_does 0).bind ownFrame_destroy fun tickets => ?_
  apply Does.ite
  · intro _
    exact .pure _
  · intro _
    refine .bind ownFrame_destroy (.setProc (.inl rfl) ?_) fun _ => .pure _
    exact fun _ => rfl

theorem sysSetPriority_does : Does L p (OwnFrame p) (sysSetPriority p) := by
  refine (argint_does 0).bind ownFrame_destroy fun priority => ?_
  refine (argint_does 1).bind ownFrame_destroy fun pid => ?_
  refine (Does.get.bind ownFrame_destroy fun k => .pure _).bind ownFrame_destroy fun found => ?_
  refine Does.get.bind ownFrame_destroy fun k => ?_
  split
  · exact .pure _
  · refine .bind ownFrame_destroy (.setProc (.inl rfl) ?_) fun _ => ?_
    · exact fun _ => rfl
    apply Does.ite
    · intro _
      exact (Does.yield (.inl rfl)).bind ownFrame_destroy fun _ => Does.pure _
    · intro _
      exact .pure _

theorem sysSigalarm_does : Does L p (OwnFrame p) (sysSigalarm p) := by
  refine (argint_does 0).bind ownFrame_destroy fun interval => ?_
  refine (Does.loadTf _).bind ownFrame_destroy fun handler => ?_
  apply Does.ite
  · intro _
    refine .bind ownFrame_destroy (.setProc (.inl rfl) ?_) fun _ => .pure _
    exact fun _ => rfl
  · intro _
    refine .bind ownFrame_destroy (.setProc (.inl rfl) ?_) fun _ => .pure _
    exact fun _ => rfl

theorem sigreturn_spec (hk : KInv L k g) (hon : (k.proc p).hold.alarmRunning = true) : Wp Stops (do
      let r ← sysSigreturn L p
      sysReturn p r) k fun _ k' => ∃ g', Act L (.restore p) k g k' g' := by
  have hp : k.Live p := by
    simp only [Proc.hold, Bool.and_eq_true] at hon ⊢
    exact hon.1
  obtain ⟨r, t, hproc⟩ := hk.live p hp
  obtain ⟨f, hb, hown⟩ := hproc.backup hon
  have ht : (k.proc p).trapframe = t * pgsize := hproc.trapframe
  have hback : (k.proc p).backupTrapFrame = f * pgsize := hb
  have hne : f * pgsize ≠ 0 := (hk.sound.rep.managed_of_mem hown).ne_zero
  have htown := (hproc.holds t).mpr rfl
  have htf : t ≠ f := by grind [hk.sound.held, Owner.data_held]
  refine .bind (.bind (Wp.setProc (.bind (.get ?_))))
  simp only [Function.update_self, hback, ht]
  rw [if_neg hne]
  refine .bind (Wp.vm (Wp.memmove ?_))
  have hcopy : OnlyPage t k.km.mem (move k.km.mem (t * pgsize) (f * pgsize) sizeofTrapframe) :=
    onlyPage_move_le _ _ _ (by decide)
  have h₁ := hk.sound.withMem (hk.sound.rep.writeData htown trivial hcopy)
  refine Wp.call (kfreeHeld_spec h₁ hown) ?_
  rintro - km2 ⟨g2, hsw, h₂⟩
  refine Wp.loadTf (.bind (Wp.storeTf (Wp.setMode ⟨g2, ?_⟩)))
  simp only [store64_load64]
  refine .restore hp hon ht hb h₂ hown hsw.node hsw.map hsw.self hsw.other ?_ ?_
    (Only.of ?_ ?_ rfl)
  · intro f' h1 h2
    exact (hcopy f' h2).trans (hsw.mem f' h1)
  · intro i hi
    have hi' : i < pgsize := by
      rw [pgsize_eq]
      exact Nat.lt_trans hi (by decide)
    rw [hsw.mem t htf _ (Nat.le_add_right _ _) (by omega)]
    exact move_at _ _ hi
  · simp only [Function.update_self, Proc.hold, ht, hback, Bool.and_false]
  · grind

theorem sysReturn_does (w : BitVec 64) : Does L p (OwnFrame p) (sysReturn p w) := by
  refine (Does.storeTf (.inr rfl) (by decide) (by decide) _).bind ownFrame_destroy fun _ => ?_
  exact Does.setMode (.inl rfl) _

theorem sysResume_does (r : Option (BitVec 64)) : Does L p (OwnFrame p) (sysResume p r) := by
  cases r with
  | none => exact .pure _
  | some w => exact sysReturn_does w

/-- The labels of a call of `wait` or `waitx` with its return. -/
def Waiting (k : Kernel) (p : Slot) (ranges : List (Nat × Nat)) (l : Label) : Prop :=
  OwnFrame p l ∨ Reaping k p ranges l

theorem Op.allows_waiting {op : Op} (h : op.Enters k p)
    (hc : op.Calls k p .wait ∨ op.Calls k p .waitx) (l : Label) (hl : Waiting k p (op.ranges k) l) :
    op.Allows k l := by
  obtain hl | rfl | hl | ⟨c, -, hz, rfl⟩ := hl
  · exact Op.allows_ownFrame h l hl
  · trivial
  · exact Op.allows_writing (.inr (.inr (.inr hc))) (List.Subset.refl _) l hl
  · exact .inr hz

theorem not_waiting {ranges : List (Nat × Nat)} : ¬ Waiting k p ranges (.destroy p) := by
  rintro (h | h | (h | h | ⟨_, _, _, -, -, h⟩) | ⟨c, hne, -, h⟩)
  · exact ownFrame_destroy h
  all_goals cases h
  exact hne rfl

theorem copyoutTo_does (dstva : Nat) (src : Nat → Byte) (len : Nat) :
    Does L p (Writing p [(dstva, len)]) (copyoutTo L p dstva src len) := by
  constructor
  intro k g hk hp
  refine (copyoutTo_spec hk hp dstva src len).mono ?_
  rintro ret k' ⟨-, g', h⟩
  exact ⟨g', h.acts⟩

theorem waitRound_acts {ranges : List (Nat × Nat)} {addr : Nat} (hk : KInv L k g)
    (hrun : (k.proc p).state = .running) (haddr : (addr, 4) ∈ ranges) :
    Wp Stops (waitRound L p addr) k fun _ k' => ∃ g', Acts L (Waiting k p ranges) k g k' g' ∧
      k'.Live p := by
  refine (waitRound_spec hk hrun addr).mono ?_
  rintro w k' ⟨g', ha, hp⟩
  refine ⟨g', ha.mono ?_, hp⟩
  rintro l (hl | hl | hl)
  · exact .inr (.inl hl)
  · exact .inr (.inr (.inl (hl.mono (by simpa using haddr))))
  · exact .inr (.inr (.inr hl))

theorem sysWait_spec (hk : KInv L k g) (hrun : (k.proc p).state = .running) : Wp Stops (do
      let r ← sysWait L p
      sysResume p r) k fun _ k' =>
        ∃ g', Acts L (Waiting k p [(k.arg p 0, 4)]) k g k' g' := by
  have hreturn : ∀ r, Does L p (Waiting k p [(k.arg p 0, 4)]) (sysResume p r) :=
    fun r => (sysResume_does r).mono fun _ hl => .inl hl
  refine .bind (.bind (Wp.argaddr ((waitRound_acts hk hrun (List.mem_singleton_self _)).seq ?_)))
  rintro w k1 ⟨g1, ha, hp1⟩
  cases w with
  | none => exact .pure ((hreturn none).after hk ha hp1)
  | some => exact .pure ((hreturn (some _)).after hk ha hp1)

theorem sysWaitx_spec (hk : KInv L k g) (hrun : (k.proc p).state = .running) (o : Outside) :
    Wp Stops (do
      let r ← sysWaitx L p o
      sysResume p r) k fun _ k' => ∃ g', Acts L (Waiting k p
        [(k.arg p 0, 4), (k.arg p 1, 4), (k.arg p 2, 4)]) k g k' g' := by
  generalize hranges : [(k.arg p 0, 4), (k.arg p 1, 4), (k.arg p 2, 4)] = ranges
  have hreturn : ∀ r, Does L p (Waiting k p ranges) (sysResume p r) :=
    fun r => (sysResume_does r).mono fun _ hl => .inl hl
  have hcopy : ∀ dstva src len, (dstva, len) ∈ ranges →
      Does L p (Waiting k p ranges) (copyoutTo L p dstva src len) := by
    intro dstva src len hmem
    refine (copyoutTo_does dstva src len).mono ?_
    intro l hl
    exact .inr (.inr (.inl (hl.mono (by simpa using hmem))))
  have h0 : (k.arg p 0, 4) ∈ ranges := by simp [← hranges]
  have h1 : (k.arg p 1, 4) ∈ ranges := by simp [← hranges]
  have h2 : (k.arg p 2, 4) ∈ ranges := by simp [← hranges]
  refine .bind (.bind (Wp.argaddr (.bind (Wp.argaddr (.bind (Wp.argaddr
    ((waitRound_acts hk hrun h0).seq ?_)))))))
  rintro w k1 ⟨g1, ha, hp1⟩
  cases w with
  | none => exact .pure ((hreturn none).after hk ha hp1)
  | some w =>
    have htail : Does L p (Waiting k p ranges)
        (copyTimes L p (k.arg p 1) (k.arg p 2) (w.times.getD o.stack) w.ret) := by
      refine (hcopy _ _ _ h1).bind not_waiting fun r => ?_
      refine .ite (fun _ => .pure _) fun _ => ?_
      refine (hcopy _ _ _ h2).bind not_waiting fun r => ?_
      exact .ite (fun _ => .pure _) fun _ => .pure _
    refine (htail.after hk ha hp1).mono ?_
    rintro r k2 ⟨g2, ha2⟩
    exact (hreturn r).after hk ha2 (ha2.live not_waiting (.of_state hrun (by decide)))

/-- The labels of a call of `fork` by `p` with a child in slot `c`. -/
def Forking (p c : Slot) (l : Label) : Prop :=
  l = .calm ∨ l = .create c ∨ l = .share p c ∨ l = .destroy c ∨ l = .frame c

theorem Forked.acts {ret : Int} (h : Forked L p c k g ret k' g') :
    Acts L (Forking p c) k g k' g' := by
  have hcreate : Forking p c (.create c) := .inr (.inl rfl)
  have hshare : Forking p c (.share p c) := .inr (.inr (.inl rfl))
  have hdestroy : Forking p c (.destroy c) := .inr (.inr (.inr (.inl rfl)))
  cases h with
  | failed h1 h2 h3 => exact ((Acts.single hcreate h1).tail hshare h2).tail hdestroy h3
  | done h1 h2 _ hrest =>
    refine ((Acts.single hcreate h1).tail hshare h2).trans (hrest.mono ?_)
    rintro l (rfl | rfl)
    · exact .inr (.inr (.inr (.inr rfl)))
    · exact .inl rfl

/-- A system call `fork`: the call, then the return. -/
structure SysForked (L : Layout) (p : Slot) (k : Kernel) (g : Account) (k' : Kernel)
    (g' : Account) : Prop where
  done : ∃ k₁ g₁, (Act L .calm k g k₁ g₁ ∨ ∃ c ret, (k.proc c).hold.live = false ∧
    Forked L p c k g ret k₁ g₁) ∧ Acts L (OwnFrame p) k₁ g₁ k' g'

theorem sysFork_spec (hk : KInv L k g) (hp : k.Live p) : Wp Stops (do
      let r ← fork L p
      sysReturn p (ofInt64 r)) k fun _ k' => ∃ g', SysForked L p k g k' g' := by
  refine (fork_spec hk hp).seq ?_
  rintro ret k1 ⟨g1, ⟨-, hcalm⟩ | ⟨c, hc, hf⟩⟩
  · have hp1 := hcalm.live (by simp) hp
    refine ((sysReturn_does _).run k1 g1 (hcalm.inv hk) hp1).mono ?_
    rintro - k' ⟨g', ha⟩
    exact ⟨g', ⟨k1, g1, .inl hcalm, ha⟩⟩
  · have hp1 : k1.Live p := by
      refine hf.acts.live ?_ hp
      rintro (h | h | h | h | h) <;> cases h
      exact hp.ne hc rfl
    refine ((sysReturn_does _).run k1 g1 (hf.acts.inv hk) hp1).mono ?_
    rintro - k' ⟨g', ha⟩
    exact ⟨g', ⟨k1, g1, .inr ⟨c, ret, hc, hf⟩, ha⟩⟩

def Execing (p : Slot) (l : Label) : Prop := OwnFrame p l ∨ l = .exec p

theorem execing_destroy : ¬ Execing p (.destroy c) := by
  rintro (h | h)
  · exact ownFrame_destroy h
  · cases h

theorem sysExec_does (o : Outside) : Does L p (Execing p) (sysExec L p o) := by
  unfold sysExec
  split
  · exact .pure _
  · refine .bind execing_destroy ⟨?_⟩ fun _ => .pure _
    intro k g hk hp
    refine (exec_spec hk hp _ _).mono ?_
    rintro ret k' ⟨g', ⟨-, hcalm⟩ | ⟨-, hexec⟩⟩
    · exact ⟨g', .single (.inl (.inl rfl)) hcalm⟩
    · exact ⟨g', .single (.inr rfl) hexec⟩

def Resizing (p : Slot) (l : Label) : Prop :=
  OwnFrame p l ∨ l = .grow p ∨ l = .extend p ∨ l = .shrink p

theorem resizing_destroy : ¬ Resizing p (.destroy c) := by
  rintro (h | h | h | h)
  · exact ownFrame_destroy h
  all_goals cases h

theorem toInt32_range (x : Int) : -2 ^ 31 ≤ toInt32 x ∧ toInt32 x < 2 ^ 31 := by
  unfold toInt32
  grind

theorem sysSbrk_does : Does L p (Resizing p) (sysSbrk L p) := by
  constructor
  intro k g hk hp
  refine .bind (Wp.argint (.bind (.get ?_)))
  obtain ⟨hlo, hhi⟩ := toInt32_range (k.arg p 0)
  refine (growproc_spec hk hp hlo hhi).seq ?_
  have hdone : ∀ (r : Int) (w w' : BitVec 64), Does L p (Resizing p)
      (if r < 0 then pure w else pure w' : K (BitVec 64)) :=
    fun r w w' => .ite (fun _ => .pure _) fun _ => .pure _
  rintro ret k1 ⟨g1, ⟨-, h⟩ | ⟨-, h | h | h⟩⟩
  · exact (hdone ret _ _).after hk (.single (.inr (.inl rfl)) h) (h.live (by simp) hp)
  · exact (hdone ret _ _).after hk (.single (.inr (.inr (.inl rfl))) h)
      (h.live (by simp) hp)
  · exact (hdone ret _ _).after hk (.single (.inr (.inr (.inr rfl))) h)
      (h.live (by simp) hp)
  · exact (hdone ret _ _).after hk (.single (.inl (.inl rfl)) h) (h.live (by simp) hp)

theorem syscall_spec (hk : KInv L k g) (hrun : k.runs p .syscall = true)
    (hsig : k.sysno p = .sigreturn → (k.proc p).alarmRunning = true) (o : Outside) :
    Wp Stops (syscall L p o) k fun _ k' => ∃ g', Acts L ((Op.syscall p o).Allows k) k g k' g' := by
  have hstate : (k.proc p).state = .running := by
    simp only [Kernel.runs, Bool.and_eq_true, decide_eq_true_eq] at hrun
    exact hrun.1
  have hp : k.Live p := .of_state hstate (by decide)
  have henter : (Op.syscall p o).Enters k p := ⟨rfl, .inr (.inl hrun)⟩
  have hown := Op.allows_ownFrame henter
  have hcall : ∀ {n}, k.sysno p = n → (Op.syscall p o).Calls k p n := fun h => ⟨⟨o, rfl⟩, hrun, h⟩
  have hsimple : ∀ {m : K (BitVec 64)}, Does L p (OwnFrame p) m →
      Wp Stops (m >>= sysReturn p) k fun _ k' =>
        ∃ g', Acts L ((Op.syscall p o).Allows k) k g k' g' :=
    fun hm => ((hm.bind ownFrame_destroy sysReturn_does).mono hown).run k g hk hp
  refine .bind (.get ?_)
  split
  next hno =>
    refine (sysFork_spec hk hp).mono ?_
    rintro - k' ⟨g', ⟨k1, g1, hf, ha⟩⟩
    refine ⟨g', .trans ?_ (ha.mono hown)⟩
    obtain hcalm | ⟨c, ret, hc, hf⟩ := hf
    · exact .single (l := .calm) trivial hcalm
    · refine hf.acts.mono ?_
      rintro l (rfl | rfl | rfl | rfl | rfl)
      · trivial
      · exact ⟨⟨p, hcall hno⟩, hc⟩
      · exact ⟨hcall hno, hc⟩
      · exact .inl hc
      · exact .inl hc
  next =>
    exact (((argint_does 0).bind ownFrame_destroy fun status =>
      Does.exit (.inl rfl) status).mono hown).run k g hk hp
  next hno =>
    refine (sysWait_spec hk hstate).mono ?_
    rintro - k' ⟨g', ha⟩
    have hranges : (Op.syscall p o).ranges k = [(k.arg p 0, 4)] := by
      rw [Op.ranges, hno, Sysno.ranges]
    rw [← hranges] at ha
    exact ⟨g', ha.mono (Op.allows_waiting henter (.inl (hcall hno)))⟩
  next hno =>
    refine (sysWaitx_spec hk hstate o).mono ?_
    rintro - k' ⟨g', ha⟩
    have hranges : (Op.syscall p o).ranges k =
        [(k.arg p 0, 4), (k.arg p 1, 4), (k.arg p 2, 4)] := by
      rw [Op.ranges, hno, Sysno.ranges]
    rw [← hranges] at ha
    exact ⟨g', ha.mono (Op.allows_waiting henter (.inr (hcall hno)))⟩
  next => exact hsimple sysKill_does
  next hno =>
    refine (((sysExec_does o).bind execing_destroy fun r =>
      (sysReturn_does r).mono fun _ hl => .inl hl).mono ?_).run k g hk hp
    rintro l (hl | rfl)
    · exact hown l hl
    · exact hcall hno
  next hno =>
    refine ((sysSbrk_does.bind resizing_destroy fun r =>
      (sysReturn_does r).mono fun _ hl => .inl hl).mono ?_).run k g hk hp
    rintro l (hl | rfl | rfl | rfl)
    · exact hown l hl
    all_goals exact hcall hno
  next => exact hsimple sysTrace_does
  next => exact hsimple sysSettickets_does
  next => exact hsimple sysSetPriority_does
  next => exact hsimple sysSigalarm_does
  next hno =>
    have hon : (k.proc p).hold.alarmRunning = true := by simp [Proc.hold, hstate, hsig hno]
    refine (sigreturn_spec hk hon).mono ?_
    rintro - k' ⟨g', ha⟩
    exact ⟨g', .single (l := .restore p) (hcall hno) ha⟩
  next => exact ((sysReturn_does _).mono hown).run k g hk hp
  next => exact ((sysReturn_does _).mono hown).run k g hk hp
  next => exact ((sysReturn_does _).mono hown).run k g hk hp

end Xv6
