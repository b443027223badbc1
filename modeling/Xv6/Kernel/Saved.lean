import Xv6.Kernel.BootSpec

/-!
# Saved trapframes along a run

The page with the trapframe that an alarm saved keeps its contents until `sigreturn`: no act writes
a page that kernel code holds, except the acts that are made for it.
-/

namespace Xv6

open ByteMem

variable {L : Layout} {b : Sched.Build} {k k' : Kernel} {g g' : Account} {p q : Slot}
  {f f' : Nat} {x y : Holder} {l : Label} {steps : List Step}

/-! ## Pages that kernel code holds -/

/-- The acts with this label may write a page that `x` holds, or free it. -/
def Label.Touches (x : Holder) : Label → Prop
  | .frame q => x = .trapframe q
  | .exec q => x = .trapframe q
  | .deliver q => x = .trapframe q
  | .destroy q => x = .trapframe q
  | .restore q => x = .trapframe q ∨ x = .backup q
  | .pageOut => x = .page
  | _ => False

theorem KInv.held_ne (hk : KInv L k g) (hx : .held x ∈ g.owners f) (hy : .held y ∈ g.owners f')
    (hne : x ≠ y) : f ≠ f' := by
  rintro rfl
  have := hk.sound.held f x _ hx hy (Owner.data_held _)
  injection this with this
  exact hne this.symm

theorem KInv.held_ne_user (hk : KInv L k g) {r v : Nat} (hx : .held x ∈ g.owners f) (hr : g.Live r)
    (hu : g.UserMapped r v) : f ≠ ppn (g.map r v) := by
  rintro rfl
  have hown := (hk.sound.table r hr).owner_self hu.1 hu.2.1
  cases hk.sound.held _ x _ hx hown (Owner.data_user _ _)

theorem KInv.held_wrote (hk : KInv L k g) {r dstva len : Nat} {src : Nat → Byte} {m' : Mem}
    (hx : .held x ∈ g.owners f) (hr : g.Live r) (hw : Wrote g r dstva src len k.km.mem m') :
    Agree k.km.mem m' (f * pgsize) pgsize := by
  intro a h1 h2
  apply hw.miss
  rintro va hva1 hva2 rfl
  apply hk.held_ne_user hx hr (hw.mapped va hva1 hva2)
  rcases Nat.lt_trichotomy f (ppn (g.map r (va / pgsize))) with hlt | heq | hgt
  · grind [Nat.mul_le_mul_right, pgsize, Nat.succ_le_of_lt, Nat.succ_mul, Account.phys]
  · exact heq
  · grind [Nat.mul_le_mul_right, pgsize, Nat.succ_le_of_lt, Nat.succ_mul, Account.phys]

theorem Act.held_mem (ha : Act L l k g k' g') (hk : KInv L k g) (hx : .held x ∈ g.owners f)
    (hl : ¬ l.Touches x) : Agree k.km.mem k'.km.mem (f * pgsize) pgsize := by
  have hd : (Owner.held x).Data := Owner.data_held x
  have hout : ∀ r, (Owner.held x).Outside r := by
    rintro r rfl
    exact hk.sound.settled f hx
  cases ha with
  | calm _ hq => exact hq.mem f _ hd hx
  | frame hp ht hm => exact hm f (hk.held_ne hx (hk.trapframe_mem hp ht) hl)
  | create _ _ _ _ _ _ _ hmem => exact hmem f _ hd hx
  | destroy _ _ _ _ _ howner hmem =>
    apply hmem f _ hd
    rw [howner f _ hd]
    refine ⟨hx, ?_, fun v => by simp⟩
    intro he
    injection he with he
    exact hl he
  | grow _ _ _ hg => exact hg.mem f _ hd hx
  | extend _ _ _ he | share _ _ _ _ _ _ _ he => exact he.mem f _ hd hx
  | shrink _ _ _ he =>
    apply he.mem f _ hd
    rw [he.owner]
    exact ⟨hx, fun v _ _ => by simp⟩
  | replace _ _ _ _ he => exact he.mem f _ hd (by simp) hx
  | write hp hr _ _ hw => exact hk.held_wrote hx (hk.live_root hp hr) hw
  | exec _ hproc _ _ _ he =>
    exact he.mem f _ hd (hout _) (hout _) hx (hk.held_ne hx ((hproc.holds _).mpr rfl) hl)
  | pageIn _ hf he =>
    apply he.mem f
    rintro rfl
    rw [hf] at hx
    exact absurd hx (Finset.notMem_empty _)
  | pageOut _ hf he => exact he.mem f (hk.held_ne hx hf hl)
  | deliver hp _ ht _ hf _ _ _ _ hmem =>
    apply hmem f
    · grind
    · exact hk.held_ne hx (hk.trapframe_mem hp ht) hl
  | restore hp _ ht _ _ hf _ _ _ _ hmem =>
    apply hmem f
    · exact hk.held_ne hx hf fun he => hl (.inr he)
    · exact hk.held_ne hx (hk.trapframe_mem hp ht) fun he => hl (.inl he)

/-! ## The page of an active alarm -/

/-- The alarm of `p` has been active from `k` to `k'`, and its page has kept its contents. -/
structure Active (p : Slot) (k k' : Kernel) : Prop where
  on : (k.proc p).hold.alarmRunning = true
  backup : (k'.proc p).hold.backup = (k.proc p).hold.backup
  mem : Agree k.km.mem k'.km.mem (k.proc p).hold.backup pgsize

theorem Active.refl (h : (k.proc p).hold.alarmRunning = true) : Active p k k :=
  ⟨h, rfl, Agree.refl _ _ _⟩

theorem Active.trans {k1 : Kernel} (h : Active p k k1) (h' : Active p k1 k') : Active p k k' := by
  refine ⟨h.on, h'.backup.trans h.backup, h.mem.trans ?_⟩
  rw [← h.backup]
  exact h'.mem

theorem KInv.backup_page (hk : KInv L k g) (hon : (k.proc p).hold.alarmRunning = true) :
    ∃ f, (k.proc p).hold.backup = f * pgsize ∧ .held (.backup p) ∈ g.owners f := by
  have hp : k.Live p := by
    simp only [Proc.hold, Bool.and_eq_true] at hon ⊢
    exact hon.1
  obtain ⟨r, t, hproc⟩ := hk.live p hp
  exact hproc.backup hon

theorem Only.alarm {h : Hold} (ho : Only k k' q h) (hon : (k'.proc p).hold.alarmRunning = true)
    (hq : h.alarmRunning = true → (k.proc q).hold.alarmRunning = true ∧
      h.backup = (k.proc q).hold.backup) :
    (k.proc p).hold.alarmRunning = true ∧ (k'.proc p).hold.backup = (k.proc p).hold.backup := by
  by_cases hpq : p = q
  · subst hpq
    rw [ho.self] at hon ⊢
    exact hq hon
  · rw [ho.other p hpq] at hon ⊢
    exact ⟨hon, rfl⟩

theorem Act.alarm (ha : Act L l k g k' g') (hl : l ≠ .deliver p)
    (hon : (k'.proc p).hold.alarmRunning = true) :
    (k.proc p).hold.alarmRunning = true ∧ (k'.proc p).hold.backup = (k.proc p).hold.backup := by
  have hsame : (k'.proc p).hold = (k.proc p).hold → (k.proc p).hold.alarmRunning = true ∧
      (k'.proc p).hold.backup = (k.proc p).hold.backup := by
    intro he
    rw [he] at hon ⊢
    exact ⟨hon, rfl⟩
  cases ha with
  | calm _ _ hs | frame _ _ _ _ hs | grow _ _ _ _ hs
  | replace _ _ _ _ _ hs | write _ _ _ _ _ hs => exact hsame (hs.hold p)
  | create _ _ _ _ _ _ _ _ ho | destroy _ _ _ _ _ _ _ ho | restore _ _ _ _ _ _ _ _ _ _ _ _ ho =>
    exact ho.alarm hon fun h => absurd h Bool.false_ne_true
  | extend _ _ _ _ _ _ ho | shrink _ _ _ _ _ _ ho | share _ _ _ _ _ _ _ _ _ _ _ ho
  | exec _ _ _ _ _ _ _ ho => exact ho.alarm hon fun h => ⟨h, rfl⟩
  | pageIn _ _ _ hhold | pageOut _ _ _ hhold => exact hsame (hhold p)
  | @deliver _ _ _ _ q _ _ _ _ _ _ _ _ _ _ _ _ _ ho =>
    apply hsame (ho.other p _)
    rintro rfl
    exact hl rfl

theorem Act.restored (ha : Act L (.restore p) k g k' g') :
    (k'.proc p).hold.alarmRunning = false := by
  cases ha with
  | restore _ _ _ _ _ _ _ _ _ _ _ _ ho => rw [ho.self]

theorem Act.active (ha : Act L l k g k' g') (hk : KInv L k g) (hl : l ≠ .deliver p)
    (hon : (k'.proc p).hold.alarmRunning = true) : Active p k k' := by
  obtain ⟨hon0, hbackup⟩ := ha.alarm hl hon
  obtain ⟨f, hf, hown⟩ := hk.backup_page hon0
  refine ⟨hon0, hbackup, ?_⟩
  rw [hf]
  apply ha.held_mem hk hown
  cases l with
  | restore =>
    rintro (h | h)
    · cases h
    · cases h
      rw [ha.restored] at hon
      cases hon
  | _ =>
    intro h
    cases h

theorem Acts.active {P : Label → Prop} (h : Acts L P k g k' g') (hk : KInv L k g)
    (hP : ¬ P (.deliver p)) (hon : (k'.proc p).hold.alarmRunning = true) : Active p k k' := by
  induction h with
  | refl => exact Active.refl hon
  | @tail k1 k2 g1 g2 l h hl ha ih =>
    have hne : l ≠ .deliver p := by
      rintro rfl
      exact hP hl
    have hactive := ha.active (h.inv hk) hne hon
    exact (ih hactive.on).trans hactive

theorem Acts.active_timing (h : Acts L (Timing p) k g k' g') (hk : KInv L k g)
    (hon : (k.proc p).hold.alarmRunning = true) :
    (k'.proc p).hold.alarmRunning = true ∧ Active p k k' := by
  induction h with
  | refl => exact ⟨hon, Active.refl hon⟩
  | @tail k1 k2 g1 g2 l h hl ha ih =>
    obtain ⟨hon1, hactive1⟩ := ih
    have hk1 := h.inv hk
    have hon2 : (k2.proc p).hold.alarmRunning = true := by
      rcases hl with (rfl | rfl) | rfl
      · cases ha with
        | calm _ _ hs => rwa [hs.hold p]
      · cases ha with
        | frame _ _ _ _ hs => rwa [hs.hold p]
      · exact ha.delivered.1
    have hne : l ≠ .deliver p := by
      rintro rfl
      cases ha with
      | deliver _ hoff =>
        rw [hoff] at hon1
        cases hon1
    exact ⟨hon2, hactive1.trans (ha.active hk1 hne hon2)⟩

theorem Active.saves {u : User} (h : Active p k k') (hs : Saves u k.km.mem (k.proc p).hold.backup) :
    Saves u k'.km.mem (k'.proc p).hold.backup := by
  rw [h.backup]
  apply hs.copy
  intro i hi
  have hsize : sizeofTrapframe ≤ pgsize := by
    rw [pgsize_eq]
    decide
  exact h.mem _ (Nat.le_add_right _ _) (by omega)

/-! ## Runs -/

/-- An alarm was delivered to `p` when its registers were `u`, and it has been active since. -/
inductive Saved (p : Slot) (u : User) : List Step → Prop where
  | deliver {s : Step} {steps : List Step} (hop : s.op = .timer p) (hu : s.pre.user p = u) :
      Saved p u (s :: steps)
  | later {s : Step} {steps : List Step} (hon : (s.pre.proc p).alarmRunning = true)
      (h : Saved p u steps) : Saved p u (s :: steps)

theorem Proc.alarm_of_hold {q : Proc} (h : q.hold.alarmRunning = true) : q.alarmRunning = true := by
  simp only [Proc.hold, Bool.and_eq_true] at h
  exact h.2

theorem Booted.alarm_off (h : Booted L k g) (p : Slot) : (k.proc p).hold.alarmRunning = false := by
  by_contra hon
  obtain ⟨f, -, hown⟩ := h.inv.backup_page (p := p) (by simpa using hon)
  exact h.backup f p hown

theorem step_saved {op : Op} (hk : KInv L k g) (hacts : Acts L (op.Allows k) k g k' g')
    (hstep : Xv6.step L b op k = .ok ((), k')) (hon : (k'.proc p).hold.alarmRunning = true) :
    Active p k k' ∨ op = .timer p ∧ Saves (k.user p) k'.km.mem (k'.proc p).hold.backup := by
  by_cases htimer : op = .timer p ∧ k.runs p .user = true
  · obtain ⟨rfl, hruns⟩ := htimer
    obtain ⟨-, htrap⟩ | ⟨-, rfl⟩ := guarded_ok hstep
    · obtain ⟨g2, hint⟩ := (trapTimer_spec b hk (Kernel.runs_live hruns)).of_ok htrap
      cases hoff : (k.proc p).hold.alarmRunning with
      | true => exact .inl (hint.acts.active_timing hk hoff).2
      | false => exact .inr ⟨rfl, hint.saved hoff hon⟩
    · exact .inl (Active.refl hon)
  · exact .inl (hacts.active hk htimer hon)

theorem Run.saved (h : Run L b steps k) (hd : Disciplined steps) : ∃ g, KInv L k g ∧
    ∀ p, (k.proc p).hold.alarmRunning = true →
      ∃ u, Saved p u steps ∧ Saves u k.km.mem (k.proc p).hold.backup := by
  refine Run.induct (I := fun steps k _ => ∀ p, (k.proc p).hold.alarmRunning = true →
      ∃ u, Saved p u steps ∧ Saves u k.km.mem (k.proc p).hold.backup) ?_ ?_ h hd
  · intro k g hboot p hon
    rw [hboot.alarm_off p] at hon
    cases hon
  · intro steps k g op k' g' _ _ hk hacts hstep ih p hon
    rcases step_saved hk hacts hstep hon with hactive | ⟨rfl, hsaves⟩
    · obtain ⟨u, hsaved, hsaves⟩ := ih p hactive.on
      exact ⟨u, .later (Proc.alarm_of_hold hactive.on) hsaved, hactive.saves hsaves⟩
    · exact ⟨k.user p, .deliver rfl rfl, hsaves⟩

theorem sigreturn_restores {o : Outside} {u : User} (hk : KInv L k g)
    (hcall : (Op.syscall p o).Calls k p .sigreturn) (hon : (k.proc p).hold.alarmRunning = true)
    (hsaves : Saves u k.km.mem (k.proc p).hold.backup)
    (hstep : Xv6.step L b (.syscall p o) k = .ok ((), k')) :
    Saves u k'.km.mem (k'.proc p).trapframe := by
  obtain ⟨-, hruns, hsys⟩ := hcall
  have hspec : Wp Stops (syscall L p o) k fun _ k' => ∃ g', Act L (.restore p) k g k' g' := by
    refine .bind (.get ?_)
    rw [hsys]
    exact sigreturn_spec hk hon
  obtain ⟨-, hcode⟩ | ⟨hno, -⟩ := guarded_ok hstep
  · obtain ⟨g', hact⟩ := hspec.of_ok hcode
    cases hact with
    | restore _ _ ht hb _ _ _ _ _ _ _ hload honly =>
      have htf : (k'.proc p).trapframe = (k.proc p).hold.trapframe := by
        show (k'.proc p).hold.trapframe = _
        rw [honly.self]
      rw [htf, ht]
      rw [hb] at hsaves
      exact hsaves.copy hload
  · rw [hruns] at hno
    cases hno

end Xv6
