import Xv6.Kernel.StepSpec

/-!
# Runs keep the invariant

Every step of the machine is a sequence of acts, so the invariant of the kernel holds in every
state of a run, as long as `sigreturn` is called in handlers only.
-/

namespace Xv6

open ByteMem

variable {L : Layout} {k k' : Kernel} {g g' : Account} {p : Slot} {r t : Nat}
variable {b : Sched.Build}
variable {P : Label → Prop} {va : Nat}

/-! ## The entry that the hardware finds -/

theorem Rep.leafPte {km : Kmem} (h : Rep L none km g) (hr : g.Live r) (va : Nat) :
    leafPte km.mem (r * pgsize) va = if va < maxva then g.map r (va / pgsize) else 0 := by
  unfold Xv6.leafPte
  by_cases hva : va ≥ maxva
  · grind
  rw [if_neg hva, if_pos (Nat.lt_of_not_le hva)]
  have hv : va / pgsize < 2 ^ 26 := by
    unfold maxva at hva
    rw [pgsize_eq]
    omega
  rw [← px_page 2 va, ← px_page 1 va, ← px_page 0 va, px_two hv, px_one, px_zero]
  generalize va / pgsize = v at hv
  have hroot : load64 km.mem (r * pgsize + 8 * (v / 512 / 512)) =
      link (g.node r (.mid (v / 512 / 512))) := h.load_entry hr (by omega)
  dsimp only
  rw [hroot]
  cases hmid : g.node r (.mid (v / 512 / 512)) with
  | none =>
    refine (h.absent r v ?_).symm
    by_contra hne
    exact h.parent r _ hne hmid
  | some f1 =>
    rw [hasFlag_link_v, if_neg (by simp), pte2pa_link (h.small_of_node hmid)]
    have he : v / 512 / 512 * 512 + v / 512 % 512 = v / 512 := by omega
    have hload : load64 km.mem (f1 * pgsize + 8 * (v / 512 % 512)) =
        link (g.node r (.leaf (v / 512))) := by
      rw [h.load_entry hmid (by omega), Account.entry, he]
    rw [hload]
    cases hleaf : g.node r (.leaf (v / 512)) with
    | none => exact (h.absent r v hleaf).symm
    | some =>
      rw [hasFlag_link_v, if_neg (by simp), pte2pa_link (h.small_of_node hleaf)]
      exact h.load_pte hleaf

theorem KInv.storable (hk : KInv L k g) (hp : k.Live p)
    (hr : (k.proc p).hold.pagetable = r * pgsize)
    (hs : storable k.km.mem (k.proc p).pagetable va = true) :
    g.UserMapped r (va / pgsize) ∧ (g.map r (va / pgsize)).getLsbD 2 = true ∧
      Xv6.leafPte k.km.mem (k.proc p).pagetable va = g.map r (va / pgsize) := by
  have hlive := hk.live_root hp hr
  have hpt : (k.proc p).pagetable = r * pgsize := hr
  have hleaf := hk.sound.rep.leafPte hlive va
  unfold Xv6.storable at hs
  rw [hpt] at hs ⊢
  simp only [hleaf] at hs ⊢
  by_cases hva : va < maxva
  · rw [if_pos hva] at hs ⊢
    simp only [hasFlag_v, hasFlag_u, hasFlag_w, Bool.and_eq_true] at hs
    refine ⟨⟨?_, getLsbD_ne_zero hs.2, hs.1.2⟩, hs.2, rfl⟩
    by_contra hge
    have := (hk.sound.table r hlive).system _ (Nat.le_of_not_lt hge)
    rw [hs.1.2] at this
    cases this
  · rw [if_neg hva, hasFlag_zero, Bool.false_and, Bool.false_and] at hs
    cases hs

/-! ## Steps -/

theorem Kernel.runs_live {mode : Mode} (h : k.runs p mode = true) : k.Live p := by
  simp only [Kernel.runs, Bool.and_eq_true, decide_eq_true_eq] at h
  exact .of_state h.1 (by decide)

theorem wrote_byte (hu : g.UserMapped r (va / pgsize)) (m : Mem) (b : Byte) :
    Wrote g r va (fun _ => b) 1 m (blit m (g.phys r va) (fun _ => b) 1) where
  mapped va' h1 h2 := by
    have : va' = va := by omega
    rw [this]
    exact hu
  hit va' h1 h2 := by
    have : va' = va := by omega
    rw [this]
    exact blit_at m (fun _ => b) (a := g.phys r va) (i := 0) Nat.one_pos
  miss x hx := by
    have hne := hx va (Nat.le_refl _) (Nat.lt_succ_self _)
    exact blit_agree m _ (b := x) (n := 1) (by omega) x (Nat.le_refl _) (Nat.lt_succ_self _)

theorem userStore_spec {b : Byte} (hk : KInv L k g) (hp : k.Live p)
    (hs : storable k.km.mem (k.proc p).pagetable va = true) :
    Wp Stops (do
      record p (.stored va)
      let k ← get
      vm (memput (pte2pa (leafPte k.km.mem (k.proc p).pagetable va) + va % pgsize)
        (fun _ => b) 1)) k fun _ k' => ∃ g', Acts L (Writing p [(va, 1)]) k g k' g' := by
  obtain ⟨r, t, hpt, -, hi⟩ := hk.user hp
  obtain ⟨hu, hw, hleaf⟩ := hk.storable hp hpt hs
  have haddr : pte2pa (leafPte k.km.mem (k.proc p).pagetable va) + va % pgsize = g.phys r va := by
    rw [hleaf, pte2pa_eq]
    rfl
  have hown := (hk.sound.table r hi.live).owner_self hu.1 hu.2.1
  have hfit : va % pgsize + 1 ≤ pgsize := Nat.mod_lt _ pgsize_pos
  have hs' := hk.sound.withMem (hk.sound.rep.writeData hown (Owner.data_user _ _)
    (onlyPage_blit k.km.mem (ppn (g.map r (va / pgsize))) (a := va % pgsize) (fun _ => b) hfit))
  refine .bind (Wp.record (.bind (.get (Wp.vm (Wp.memput ⟨g, ?_⟩)))))
  rw [haddr]
  refine .single (.inr (.inr ⟨va, 1, 1, List.mem_singleton_self _, Nat.le_refl _, rfl⟩)) ?_
  exact .write hp hpt hs' hw (wrote_byte hu _ b) (Same.ofProc rfl rfl)

/-- The step follows the rules: `sigreturn` is called in a handler. -/
def Op.disciplined (k : Kernel) : Op → Bool
  | .syscall p _ =>
    !(k.runs p .syscall && decide (k.sysno p = .sigreturn)) || (k.proc p).alarmRunning
  | _ => true

theorem guarded_spec {E : Panic → Prop} {cond : Kernel → Bool} {m : K Unit}
    (h : cond k = true → Wp E m k fun _ k' => ∃ g', Acts L P k g k' g') :
    Wp E (guarded cond m) k fun _ k' => ∃ g', Acts L P k g k' g' := by
  refine .bind (.get ?_)
  cases hc : cond k with
  | true => exact h hc
  | false => exact .pure ⟨g, .refl⟩

theorem setProc_acts {f : Proc → Proc} (hk : KInv L k g) (hP : P .calm)
    (hf : (f (k.proc p)).hold = (k.proc p).hold) :
    Wp Stops (setProc p f) k fun _ k' => ∃ g', Acts L P k g k' g' := by
  refine (setProc_spec hk hf).mono ?_
  rintro - k' ⟨ha, -⟩
  exact ⟨g, .single hP ha⟩

theorem kallocStep_act {E : Panic → Prop} (hk : KInv L k g) :
    Wp E (step L b .kalloc) k fun _ k' => k' = k ∨ ∃ g', Act L .pageIn k g k' g' := by
  refine Wp.call (kallocHeld_spec hk.sound (x := .page) (by simp)) ?_
  rintro a km1 (⟨rfl, rfl, -⟩ | ⟨f, g1, rfl, hne, hempty, hsw, -, h1⟩)
  · exact .pure (.inl rfl)
  · rw [if_neg hne]
    exact .modify (.inr ⟨g1, .pageIn h1 hempty hsw (fun _ => rfl) rfl⟩)

theorem kallocStep_spec (hk : KInv L k g) :
    Wp Stops (step L b .kalloc) k fun _ k' => ∃ g', Acts L (Op.Allows k .kalloc) k g k' g' := by
  refine (kallocStep_act hk).mono ?_
  rintro - k' (rfl | ⟨g', ha⟩)
  · exact ⟨g, .refl⟩
  · exact ⟨g', .single (l := .pageIn) rfl ha⟩

theorem kfreeStep_spec (hk : KInv L k g) (pa : Nat) : Wp Stops (step L b (.kfree pa)) k fun _ k' =>
      ∃ g', Acts L (Op.Allows k (.kfree pa)) k g k' g' := by
  refine guarded_spec ?_
  intro hmem
  have hmem := of_decide_eq_true hmem
  obtain ⟨f, rfl⟩ := hk.aligned pa hmem
  have hown := (hk.pages f).mpr hmem
  refine Wp.call (kfreeHeld_spec hk.sound hown) ?_
  rintro - km1 ⟨g1, hsw, h1⟩
  refine .modify ⟨g1, .single (l := .pageOut) ⟨_, rfl⟩ ?_⟩
  exact .pageOut h1 hown hsw (fun _ => rfl) rfl

/-- The panics that the step can run into. -/
def Op.Stops (k : Kernel) (op : Op) (e : Panic) : Prop :=
  Xv6.Stops e ∨ ∃ p, op = .timer p ∧ k.NoBackup p e

theorem timerStep_spec (hk : KInv L k g) : Wp (Op.Stops k (.timer p)) (step L b (.timer p)) k
    fun _ k' => ∃ g', Acts L (Op.Allows k (.timer p)) k g k' g' := by
  refine guarded_spec ?_
  intro hc
  refine ((trapTimer_spec b hk (Kernel.runs_live hc)).imp_error ?_).mono ?_
  · exact fun e he => he.imp_right fun h => ⟨p, rfl, h⟩
  rintro - k' ⟨g', hi⟩
  refine ⟨g', hi.acts.mono ?_⟩
  rintro l (hl | rfl)
  · exact Op.allows_ownFrame ⟨rfl, .inl hc⟩ l hl
  · exact ⟨rfl, hc⟩

theorem otherStep_spec {op : Op} (hk : KInv L k g) (hd : op.disciplined k = true)
    (hop : ∀ p, op ≠ .timer p) :
    Wp Stops (step L b op) k fun _ k' => ∃ g', Acts L (op.Allows k) k g k' g' := by
  have hcalm : ∀ {k' : Kernel}, k'.km = k.km → Same k k' → ∃ g', Acts L (op.Allows k) k g k' g' :=
    fun h1 h2 => ⟨g, .single (l := .calm) trivial (Act.ofSame hk h1 h2)⟩
  have hown : ∀ {p : Slot} {m : K Unit}, k.runs p .user = true → op.proc = some p →
      Does L p (OwnFrame p) m → Wp Stops m k fun _ k' => ∃ g', Acts L (op.Allows k) k g k' g' :=
    fun h1 h2 hm => (hm.mono (Op.allows_ownFrame ⟨h2, .inl h1⟩)).run k g hk (Kernel.runs_live h1)
  cases op with
  | kalloc => exact kallocStep_spec hk
  | kfree pa => exact kfreeStep_spec hk pa
  | tick =>
    refine .modify (hcalm rfl ⟨fun q => ?_, rfl⟩)
    exact (hold_wakeup _ _ _ _ q).trans (Proc.hold_updateTime _)
  | dispatch _ last =>
    refine guarded_spec ?_
    intro hc
    simp only [Bool.and_eq_true, decide_eq_true_eq] at hc
    refine .bind (.get (setProc_acts hk trivial ?_))
    exact Proc.hold_dispatched (by rw [hc.1]; decide) b _ last
  | demote =>
    refine guarded_spec ?_
    intro _
    exact .bind (.get (setProc_acts hk trivial (Proc.hold_demoteStep _ _)))
  | age =>
    refine guarded_spec ?_
    intro _
    exact .bind (.get (setProc_acts hk trivial (Proc.hold_ageStep _ _)))
  | preempt p =>
    refine guarded_spec ?_
    intro hc
    simp only [Bool.and_eq_true, Bool.or_eq_true] at hc
    have hp : k.Live p := by obtain h | h := hc.1 <;> exact Kernel.runs_live h
    exact (Does.yield (P := (Op.preempt p).Allows k) trivial).run k g hk hp
  | sleep _ chan =>
    refine guarded_spec ?_
    intro hc
    simp only [Bool.and_eq_true] at hc
    refine (sleep_spec hk (Kernel.runs_live hc.1) chan).mono ?_
    intro _ k' ha
    exact ⟨g, .single (l := .calm) trivial ha⟩
  | wakeup => exact .modify (hcalm rfl ⟨fun q => hold_wakeup _ _ _ _ q, rfl⟩)
  | instr =>
    refine guarded_spec ?_
    intro _
    exact .modify (hcalm rfl (Same.ofProc rfl rfl))
  | store _ va b =>
    refine guarded_spec ?_
    intro hc
    simp only [Bool.and_eq_true] at hc
    refine (userStore_spec hk (Kernel.runs_live hc.1) hc.2).mono ?_
    rintro - k' ⟨g', ha⟩
    exact ⟨g', ha.mono (Op.allows_writing (.inl ⟨va, b, rfl⟩) (List.Subset.refl _))⟩
  | ecall =>
    refine guarded_spec ?_
    intro hc
    exact hown hc rfl trapEcall_does
  | fault _ va =>
    refine guarded_spec ?_
    intro hc
    simp only [Bool.and_eq_true] at hc
    refine ((trapFault_does va).mono ?_).run k g hk (Kernel.runs_live hc.1)
    rintro l (hl | rfl)
    · exact Op.allows_ownFrame ⟨rfl, .inl hc.1⟩ l hl
    · exact .inr (.inl ⟨va, rfl⟩)
  | device =>
    refine guarded_spec ?_
    intro hc
    exact hown hc rfl (trapOther_does false)
  | exception =>
    refine guarded_spec ?_
    intro hc
    exact hown hc rfl (trapOther_does true)
  | timer p => exact absurd rfl (hop p)
  | syscall _ o =>
    refine guarded_spec ?_
    intro hc
    refine syscall_spec hk hc (fun hno => ?_) o
    simpa [Op.disciplined, hc, hno] using hd
  | copyout p dstva src len =>
    refine guarded_spec ?_
    intro hc
    simp only [Bool.and_eq_true] at hc
    have hw : (Op.copyout p dstva src len).Writes k p := .inr (.inr (.inl ⟨dstva, src, len, rfl⟩))
    refine ((copyoutTo_does dstva src len).run k g hk (Kernel.runs_live hc.1)).seq ?_
    rintro ret k' ⟨g', ha⟩
    exact .pure ⟨g', ha.mono (Op.allows_writing hw (List.Subset.refl _))⟩
  | leave =>
    refine guarded_spec ?_
    intro hc
    refine ((trapLeave_does (P := fun l => l = .calm) rfl (by simp)).mono ?_).run k g hk
      (Kernel.runs_live hc)
    rintro l rfl
    trivial
  | ret _ hartid =>
    refine guarded_spec ?_
    intro hc
    refine ((usertrapret_does hartid).mono ?_).run k g hk (Kernel.runs_live hc)
    exact Op.allows_ownFrame ⟨rfl, .inr (.inr ⟨hartid, rfl⟩)⟩

theorem step_spec {op : Op} (hk : KInv L k g) (hd : op.disciplined k = true) :
    Wp (op.Stops k) (step L b op) k fun _ k' => ∃ g', Acts L (op.Allows k) k g k' g' := by
  by_cases hop : ∃ p, op = .timer p
  · obtain ⟨p, rfl⟩ := hop
    exact timerStep_spec hk
  · exact (otherStep_spec hk hd (not_exists.mp hop)).imp_error fun _ => .inl

end Xv6
