import Xv6.Fs.SyscallSpec

/-!
# Runs

The states that calls reach from the start of the kernel on an image of the disk.
-/

namespace Xv6.Fs

open ByteMem Multiset

variable {sb : Super} {E : Stop → Prop} {img : State} {s s' : Sys} {p : Slot} {c : Call}

/-! ## The start -/

/-- An image of the disk that the kernel can use. -/
structure Image (sb : Super) (img : State) : Prop where
  owned : Owned sb img.bitmap img.dinode img.block
  linked : ∀ i, sb.Live img.dinode i → (img.dinode i).nlink ≠ 0
  dirs : Dirs sb (nodes sb img)
  root : (nodes sb img rootino).type = .dir

def Sys.start (img : State) : Sys := { fs := { img with inode := fun _ => {} } }

theorem start_held (img : State) : (Sys.start img).held = 0 := by
  simp [Sys.held, Sys.start, File.held, Files.held]

theorem start_fds (img : State) : (Sys.start img).fds = 0 := by simp [Sys.fds, Sys.start, Files.fds]

theorem Image.start_ok (hi : Image sb img) : SysOk sb 0 0 (Sys.start img) := by
  refine ⟨?_, ?_, hi.dirs, ?_, fun _ _ => rfl, ?_, ?_, ?_⟩
  · rw [start_held, zero_add]
    refine ⟨fun _ => rfl, by simp, by simp, by simp, hi.owned, ?_⟩
    intro i hl hn
    exact absurd hn (hi.linked i hl)
  · rw [start_held]
    intro ip hip
    simp at hip
  · intro f
    rw [start_fds]
    rfl
  · intro f ip hip
    simp [Sys.start, File.held] at hip
  · intro f ht
    cases ht
  · have hend : (fun f => ((Sys.start img).file f).pipeEnd) = fun _ => none := rfl
    rw [hend]
    exact ⟨by simp, by simp, fun _ _ h => absurd h (Nat.not_lt_zero _),
      fun _ h => absurd h (Nat.not_lt_zero _)⟩

theorem userinit_spec (hE : E .iget) (hi : Image sb img) :
    Wp E (userinit sb) (Sys.start img) fun _ s' => Inv sb s' ∧ nodes sb s'.fs = nodes sb img := by
  have h0 := hi.start_ok
  have hok := h0.ok
  rw [start_held, zero_add] at hok
  have hskip : skipelem [slash] = none := by decide
  unfold userinit namei namex namexStart
  refine .bind (wp_fs (.bind (.bind ?_)))
  have hhead : [slash].head? = some slash := rfl
  refine (iget_spec (fun _ => hE) hok ⟨le_rfl, sb.rootino_lt⟩).mono ?_
  rintro ip t ⟨ht, hq, hinum⟩
  unfold namexLoop
  refine .pure (.pure ?_)
  have h1 : SysOk sb (ip ::ₘ 0) 0 { Sys.start img with fs := t } := by
    apply h0.setFs
    · rw [start_held]
      exact ht
    · rw [start_held]
      exact hq.keeps
    · rw [hq.nodes_eq]
      exact hi.dirs
  refine .modify ⟨⟨?_, ?_⟩, hq.nodes_eq⟩
  · apply h1.setProc
    · rfl
    · intro f
      rfl
    · intro ip' hip'
      obtain rfl : ip' = ip := by simpa [Files.held] using hip'
      have hroot : (nodes sb t rootino).type ≠ .free := by
        rw [hq.nodes_eq]
        exact fun hf => absurd (hi.root.symm.trans hf) (by simp)
      rw [hinum]
      exact (nodes_live.mp hroot).2.2
  · intro q hq fd
    by_cases hqp : q = initproc
    · subst hqp
      simp at hq
    · simp only [Function.update_of_ne hqp] at hq ⊢
      rfl

/-! ## Calls -/

/-- States that calls reach where each call meets the condition `C`. -/
inductive Reach (sb : Super) (img : State) (C : Sys → Slot → Call → Prop) : Sys → Prop
  | boot {s : Sys} (h : userinit sb (.start img) = .ok ((), s)) : Reach sb img C s
  | call {s s' : Sys} {p : Slot} {c : Call} {r : Int} (h : Reach sb img C s)
      (he : c.enabled s p = true) (hC : C s p c) (hrun : c.run sb p s = .ok (r, s')) :
      Reach sb img C s'

def anyCall : Sys → Slot → Call → Prop := fun _ _ _ => True

variable {C : Sys → Slot → Call → Prop}
variable {calls : List (Slot × Call)}
variable {rets : List Int}

theorem Allows.any (s : Sys) : Allows sb (fun _ => True) s :=
  ⟨trivial, trivial, trivial, .inl trivial, .inl trivial⟩

theorem Reach.inv (h : Reach sb img C s) (hi : Image sb img) : Inv sb s := by
  induction h with
  | boot h => exact ((userinit_spec (E := fun _ => True) trivial hi).of_ok h).1
  | call _ he _ hrun ih =>
    obtain ⟨hp, -⟩ := (Bool.and_eq_true _ _).mp he
    obtain ⟨cwd, hcwd⟩ := Option.isSome_iff_exists.mp hp
    exact ((call_spec ih (.any _) hcwd he).of_ok hrun).inv

/-- Make calls one after the other; nothing if one of them stops. -/
def replay (sb : Super) : Sys → List (Slot × Call) → Option (List Int × Sys)
  | s, [] => some ([], s)
  | s, (p, c) :: rest =>
    if c.enabled s p then
      match c.run sb p s with
      | .ok (r, s') => (replay sb s' rest).map fun q => (r :: q.1, q.2)
      | .error _ => none
    else none

theorem replay_reach (h : Reach sb img anyCall s) (hr : replay sb s calls = some (rets, s')) :
    Reach sb img anyCall s' := by
  induction calls generalizing s rets with
  | nil =>
    cases hr
    exact h
  | cons pc _ ih =>
    obtain ⟨p, c⟩ := pc
    unfold replay at hr
    split at hr
    · next he =>
      cases hc : c.run sb p s with
      | error =>
        rw [hc] at hr
        cases hr
      | ok =>
        rw [hc] at hr
        obtain ⟨q', hq', he'⟩ := Option.map_eq_some_iff.mp hr
        cases he'
        exact ih (.call h he trivial hc) hq'
    · cases hr

def runCalls (sb : Super) (img : State) (calls : List (Slot × Call)) : Option (List Int × Sys) :=
  match userinit sb (.start img) with
  | .ok (_, s) => replay sb s calls
  | .error _ => none

theorem runCalls_reach (h : runCalls sb img calls = some (rets, s)) : Reach sb img anyCall s := by
  unfold runCalls at h
  cases hu : userinit sb (.start img) with
  | error =>
    rw [hu] at h
    cases h
  | ok =>
    rw [hu] at h
    exact replay_reach (.boot hu) h

/-- `P` holds of the states around a call and what it returns. -/
def Call.check (sb : Super) (p : Slot) (c : Call) (P : Sys → Int → Sys → Bool) (s : Sys) : Bool :=
  match c.run sb p s with
  | .ok (r, s') => P s r s'
  | .error _ => false

theorem runCalls_check {P : Sys → Int → Sys → Bool}
    (h : (runCalls sb img calls).any (fun q => c.check sb p P q.2) = true) :
    ∃ s r s', Reach sb img anyCall s ∧ c.run sb p s = .ok (r, s') ∧ P s r s' = true := by
  obtain ⟨⟨rets, s⟩, hs, hr⟩ := (Option.any_eq_true _ _).mp h
  unfold Call.check at hr
  cases hc : c.run sb p s with
  | error =>
    rw [hc] at hr
    cases hr
  | ok q => grind [runCalls_reach]

end Xv6.Fs
