import Xv6.Fs.SysSpec

/-!
# System calls

`Inv sb s` holds between calls. Every call keeps it, and does to the tree what `Call.Does` says.
-/

namespace Xv6.Fs

open ByteMem Multiset
open Function (update update_eq_self update_of_ne update_self)

variable {sb : Super} {E : Stop → Prop} {s s' : Sys} {x x' : Multiset Ip} {y y' : Fp → Int}
  {f : Fp} {ip cwd : Ip} {p : Slot} {fd : Fin nofile} {v : Option Fp}

attribute [local simp] Files.held

/-! ## Descriptors -/

def Sys.withFd (s : Sys) (p : Slot) (fd : Fin nofile) (v : Option Fp) : Sys :=
  { s with
    proc := update s.proc p
      { s.proc p with ofile := update (s.proc p).ofile fd v } }

theorem setFd_spec {Q : Unit → Sys → Prop} (hQ : Q () (s.withFd p fd v)) :
    Wp E (setFd p fd v) s Q :=
  Wp.modify hQ

theorem withFd_self : ((s.withFd p fd v).proc p) =
    { s.proc p with ofile := update (s.proc p).ofile fd v } :=
  update_self ..

theorem withFd_of_ne {q : Slot} (h : q ≠ p) : (s.withFd p fd v).proc q = s.proc q :=
  update_of_ne h _ _

abbrev fdFile (v : Option Fp) : Multiset Fp := v.elim 0 fun f => {f}

theorem SysOk.withFd (hs : SysOk sb x y s)
    (hy : ∀ f, y' f + (fdFile v).count f = y f + (fdFile ((s.proc p).ofile fd)).count f) :
    SysOk sb x y' (s.withFd p fd v) := by
  have hsum := Table.sum_update (fun _ => fdFile) (s.proc p).ofile (Finset.mem_univ fd) v
  apply hs.setProc
  · rfl
  · intro f
    have h1 := congrArg (count f) hsum
    have h2 := hy f
    have hold : (s.proc p).fds = ∑ j, fdFile ((s.proc p).ofile j) := rfl
    have hnew : Files.fds { s.proc p with ofile := update (s.proc p).ofile fd v } =
      ∑ j, fdFile (update (s.proc p).ofile fd v j) := rfl
    rw [count_add, count_add] at h1
    rw [hold, hnew]
    omega
  · intro ip hip
    exact hs.settled ip (mem_held_proc (p := p) hip)

theorem SysOk.openFd (hs : SysOk sb x y s) (h0 : (s.proc p).ofile fd = none) :
    SysOk sb x (y - Pi.single f 1) (s.withFd p fd (some f)) := by
  apply hs.withFd
  intro f'
  rw [h0]
  by_cases hf : f' = f <;> simp [hf]

theorem SysOk.closeFd (hs : SysOk sb x y s) (h0 : (s.proc p).ofile fd = some f) :
    SysOk sb x (y + Pi.single f 1) (s.withFd p fd none) := by
  apply hs.withFd
  intro f'
  rw [h0]
  by_cases hf : f' = f <;> simp [hf]

theorem mem_fds (h : (s.proc p).ofile fd = some f) : f ∈ s.fds := by
  apply mem_sum.mpr
  refine ⟨p, Finset.mem_univ p, mem_sum.mpr ⟨fd, Finset.mem_univ fd, ?_⟩⟩
  simp [h]

theorem argfd_spec {α : Type} {n : Int} {m : Option (Fin nofile × Fp) → S α} {Q : α → Sys → Prop}
    (hnone : Wp E (m none) s Q)
    (hsome : ∀ fd f, (s.proc p).ofile fd = some f → Wp E (m (some (fd, f))) s Q) :
    Wp E (argfd p n >>= m) s Q := by
  refine .bind (.bind (.get ?_))
  split
  · grind [Wp.pure]
  · exact .pure hnone

theorem fdalloc_spec (hs : SysOk sb x y s) : Wp E (fdalloc p f) s fun r s' =>
      match r with
      | none => s' = s ∧ ∀ fd, (s.proc p).ofile fd ≠ none
      | some fd => (s.proc p).ofile fd = none ∧ s' = s.withFd p fd (some f) ∧
        SysOk sb x (y - Pi.single f 1) s' := by
  refine .bind (.get ?_)
  cases hf : (List.finRange nofile).find? fun fd => ((s.proc p).ofile fd).isNone with
  | none => grind [Wp.pure]
  | some fd =>
    have h0 : (s.proc p).ofile fd = none := by simpa using List.find?_some hf
    exact .bind (setFd_spec (.pure ⟨h0, rfl, hs.openFd h0⟩))

/-! ## Between calls -/

/-- A process without a current directory has no files. -/
def Rest (s : Sys) : Prop := ∀ p, (s.proc p).cwd = none → ∀ fd, (s.proc p).ofile fd = none

theorem Rest.of_proc (hr : Rest s) (h : s'.proc = s.proc) : Rest s' := by
  unfold Rest
  rw [h]
  exact hr

theorem Rest.update {Q : Files} (hr : Rest s) (hs : ∀ q, q ≠ p → s'.proc q = s.proc q)
    (hQ : Q.cwd = none → ∀ fd, Q.ofile fd = none) :
    Rest { s' with proc := Function.update s'.proc p Q } := by
  intro q
  by_cases hqp : q = p
  · simpa [hqp] using hQ
  · simpa only [update_of_ne hqp, hs q hqp] using hr q

theorem Rest.withFd (hr : Rest s) (hp : (s.proc p).cwd.isSome) : Rest (s.withFd p fd v) :=
  hr.update (fun _ _ => rfl) fun h => by simp_all

theorem SysOk.setCwd (hs : SysOk sb x y s) {v : Option Ip}
    (hx : (v.elim 0 fun ip => {ip}) + x' = ((s.proc p).cwd.elim 0 fun ip => {ip}) + x)
    (hv : ∀ ip, v = some ip → (s.fs.dinode (s.fs.inode ip).inum).type ≠ .free) :
    SysOk sb x' y { s with proc := update s.proc p { s.proc p with cwd := v } } := by
  refine hs.setProc hx (fun _ => rfl) ?_
  intro ip hip
  cases v with
  | none => simp at hip
  | some _ => exact hv ip (by rw [mem_singleton.mp hip])

structure Inv (sb : Super) (s : Sys) : Prop where
  ok : SysOk sb 0 0 s
  rest : Rest s

/-- The state after a call that has no effect of its own on the tree. -/
structure Kept (sb : Super) (s s' : Sys) : Prop where
  inv : Inv sb s'
  changes : Changes (nodes sb s.fs) (nodes sb s'.fs)

theorem Inv.kept (h : Inv sb s) : Kept sb s s := ⟨h, .refl⟩

theorem Moves.kept (hm : Moves sb 0 0 s s') (hr : Rest s) : Kept sb s s' :=
  ⟨⟨hm.ok, hr.of_proc hm.proc⟩, hm.changes⟩

theorem Inv.ref_pos (h : Inv sb s) (hf : (s.proc p).ofile fd = some f) : 1 ≤ (s.file f).ref :=
  h.ok.count_le (mem_fds hf) le_rfl

section Fd

variable {n m other : Int}

theorem sysDup_spec (h : Inv sb s) (hp : (s.proc p).cwd.isSome) :
    Wp E (sysDup p n) s fun _ s' => Kept sb s s' := by
  refine argfd_spec (.pure h.kept) fun fd f hf => ?_
  refine (fdalloc_spec h.ok).seq ?_
  rintro (_ | fd') s2 h2
  · obtain ⟨rfl, -⟩ := h2
    exact .pure h.kept
  obtain ⟨-, rfl, hs2⟩ := h2
  refine (filedup_spec hs2 (h.ref_pos hf)).seq ?_
  rintro _ s3 ⟨hs3, hp3, hf3⟩
  rw [sub_add_cancel] at hs3
  refine .pure ⟨⟨hs3, (h.rest.withFd hp).of_proc hp3⟩, .of_eq ?_⟩
  rw [hf3]
  rfl

theorem sysRead_spec {ok : Nat → Nat → Bool} (hE : E .fileread) (h : Inv sb s) :
    Wp E (sysRead sb p n m ok other) s fun _ s' => Kept sb s s' := by
  refine argfd_spec (.pure h.kept) fun _ _ _ => ?_
  refine (fileread_spec hE h.ok).mono ?_
  rintro _ s2 ⟨hs2, hp2, hf2⟩
  exact ⟨⟨hs2, h.rest.of_proc hp2⟩, .of_eq (by rw [hf2])⟩

theorem sysWrite_spec {src : Nat → Option Byte} (hE : E .filewrite) (h : Inv sb s) :
    Wp E (sysWrite sb p n m src other) s fun _ s' => Kept sb s s' := by
  refine argfd_spec (.pure h.kept) fun _ _ _ => ?_
  refine (filewrite_spec hE h.ok).mono ?_
  intro _ s2 hm
  exact hm.kept h.rest

theorem sysClose_spec (h : Inv sb s) (hp : (s.proc p).cwd.isSome) :
    Wp E (sysClose sb p n) s fun _ s' => Kept sb s s' := by
  refine argfd_spec (.pure h.kept) fun fd f hf => ?_
  refine .bind (setFd_spec ?_)
  refine (fileclose_spec (h.ok.closeFd hf) (h.ref_pos hf)).seq ?_
  intro _ s2 hm
  rw [add_sub_cancel_right] at hm
  exact .pure ⟨⟨hm.ok, (h.rest.withFd hp).of_proc hm.proc⟩, hm.changes⟩

theorem sysFstat_spec {ok : Bool} (h : Inv sb s) :
    Wp E (sysFstat sb p n ok) s fun _ s' => Kept sb s s' := by
  refine argfd_spec (.pure h.kept) fun _ _ _ => ?_
  refine (filestat_spec h.ok).mono ?_
  rintro _ s2 rfl
  exact h.kept

theorem closeBoth_spec {f0 f1 : Fp} {u : Sys} (hs : SysOk sb 0 (Pi.single f0 1 + Pi.single f1 1) s)
    (hr : Rest s) (hc : Changes (nodes sb u.fs) (nodes sb s.fs)) :
    Wp E (do
      fileclose sb f0
      fileclose sb f1
      return (-1 : Int)) s fun _ s' => Kept sb u s' := by
  have hpos : ∀ {u : Sys} {z : Fp → Int} {f : Fp}, SysOk sb 0 z u → 1 ≤ z f →
      1 ≤ (u.file f).ref := by
    intro u z f hu
    have := hu.refs f
    omega
  refine (fileclose_spec hs (hpos hs ?_)).seq ?_
  · by_cases hf : f0 = f1 <;> simp [hf]
  intro _ s2 hm2
  rw [add_sub_cancel_left] at hm2
  refine (fileclose_spec hm2.ok (hpos hm2.ok (by simp))).seq ?_
  intro _ s3 hm3
  rw [sub_self] at hm3
  exact .pure ⟨⟨hm3.ok, (hr.of_proc hm2.proc).of_proc hm3.proc⟩,
    (hc.trans hm2.changes).trans hm3.changes⟩

theorem sysPipe_spec {page ok : Bool} (h : Inv sb s) (hp : (s.proc p).cwd.isSome) :
    Wp E (sysPipe sb p page ok) s fun _ s' => Kept sb s s' := by
  refine (pipealloc_spec h.ok fun _ => le_rfl).seq ?_
  rintro (_ | ⟨f0, f1⟩) s1 hm1
  · exact .pure (hm1.kept h.rest)
  obtain ⟨hs1, hp1, hc1⟩ := hm1
  have hr1 := h.rest.of_proc hp1
  rw [zero_add] at hs1
  refine (fdalloc_spec hs1).seq ?_
  rintro (_ | fd0) s2 h2
  · obtain ⟨rfl, -⟩ := h2
    exact closeBoth_spec hs1 hr1 hc1
  obtain ⟨h0, rfl, hs2⟩ := h2
  rw [add_sub_cancel_left] at hs2
  have hcwd1 : (s1.proc p).cwd.isSome := by rwa [hp1]
  have hr2 : Rest (s1.withFd p fd0 (some f0)) := hr1.withFd hcwd1
  have hcwd2 : ((s1.withFd p fd0 (some f0)).proc p).cwd.isSome := by rwa [withFd_self]
  have hfd0 : ((s1.withFd p fd0 (some f0)).proc p).ofile fd0 = some f0 := by simp [withFd_self]
  refine (fdalloc_spec hs2).seq ?_
  rintro (_ | fd1) s3 h3
  · obtain ⟨rfl, -⟩ := h3
    refine .bind (setFd_spec ?_)
    have hs4 := hs2.closeFd hfd0
    rw [add_comm] at hs4
    exact closeBoth_spec hs4 (hr2.withFd hcwd2) hc1
  obtain ⟨h1, rfl, hs3⟩ := h3
  rw [sub_self] at hs3
  have hr3 : Rest ((s1.withFd p fd0 (some f0)).withFd p fd1 (some f1)) := hr2.withFd hcwd2
  dsimp only
  refine .ite (fun _ => .pure ⟨⟨hs3, hr3⟩, hc1⟩) fun hok => ?_
  have hne : fd0 ≠ fd1 := by grind
  generalize hu : (s1.withFd p fd0 (some f0)).withFd p fd1 (some f1) = u at *
  have hu0 : (u.proc p).ofile fd0 = some f0 := by
    rw [← hu, withFd_self]
    exact (update_of_ne hne _ _).trans hfd0
  have hu1 : (u.proc p).ofile fd1 = some f1 := by simp [← hu, withFd_self]
  have hcu : (u.proc p).cwd.isSome := by rwa [← hu, withFd_self]
  have hfu : u.fs = s1.fs := by rw [← hu]; rfl
  refine .bind (setFd_spec (.bind (setFd_spec ?_)))
  have hs4 := hs3.closeFd hu0
  have hu1' : ((u.withFd p fd0 none).proc p).ofile fd1 = some f1 := by
    rw [withFd_self]
    exact (update_of_ne hne.symm _ _).trans hu1
  have hs5 := hs4.closeFd hu1'
  rw [zero_add] at hs5
  refine closeBoth_spec hs5 ((hr3.withFd hcu).withFd (by rwa [withFd_self])) ?_
  have hfs : ((u.withFd p fd0 none).withFd p fd1 none).fs = u.fs := rfl
  rw [hfs, hfu]
  exact hc1

end Fd

/-! ## Paths -/

/-- What may stop a call: the tables of inodes may be full, and the panics that depend on the
tree are allowed or cannot happen. -/
structure Allows (sb : Super) (E : Stop → Prop) (s : Sys) : Prop where
  iget : E .iget
  fileread : E .fileread
  filewrite : E .filewrite
  noType : E .ilockNoType ∨ Intact (nodes sb s.fs) ∧ (nodes sb s.fs rootino).type ≠ .free
  nlink : E .unlinkNlink ∨ Counted (nodes sb s.fs)

theorem getCwd_spec {Q : Ip → Sys → Prop} (hcwd : (s.proc p).cwd = some cwd) (hQ : Q cwd s) :
    Wp E (getCwd p) s Q := by
  refine .bind (.get ?_)
  rw [hcwd]
  exact .pure hQ

section Path

variable (h : Inv sb s) (ha : Allows sb E s) (hcwd : (s.proc p).cwd = some cwd)
variable {c : Call} {t : State}
variable {q : Multiset Ip} {r : Int}

include h in
theorem Inv.held_ok : Ok sb s.held s.fs := by
  rw [← zero_add s.held]
  exact h.ok.ok

include hcwd in
theorem cwd_mem : cwd ∈ s.held := mem_held_proc (p := p) (by simp [hcwd])

include h ha hcwd in
theorem Inv.reaches : Reaches sb E s.fs cwd := by
  rcases ha.noType with hE | ⟨hi, hroot⟩
  · exact .inl hE
  · exact .inr ⟨hi, hroot, h.ok.settled.live h.held_ok (cwd_mem hcwd)⟩

theorem Inv.setFs (h : Inv sb s) (hok : Ok sb s.held t) (hk : Keeps s.held s.fs t)
    (hd : Dirs sb (nodes sb t)) : Inv sb { s with fs := t } :=
  ⟨h.ok.setFs (by rwa [zero_add]) hk hd, h.rest⟩

theorem Inv.hold (h : Inv sb s) (hok : Ok sb (ip ::ₘ s.held) t) (hk : Keeps s.held s.fs t)
    (hd : Dirs sb (nodes sb t)) : SysOk sb (ip ::ₘ 0) 0 { s with fs := t } :=
  h.ok.setFs (by rwa [cons_add, zero_add]) hk hd

def Makes (sb : Super) (t : State) (cwd : Ip) (path : Name) (omode : BitVec 32) : Prop :=
  hasFlag omode oCreate = true ∧ Creatable sb t (resolve (nodes sb t) true (t.inode cwd).inum path)

theorem openInode_spec {path : Name} {omode : BitVec 32}
    (hE : E .iget) (hs : Ok sb q t) (hset : Settled q t) (hc : cwd ∈ q)
    (hd : Dirs sb (nodes sb t)) (hnt : Reaches sb E t cwd) (hp : ∀ b ∈ path, b ≠ 0) :
    Wp E (openInode sb cwd path omode) t fun r t' =>
      match r with
      | none => Ok sb q t' ∧ Keeps q t t' ∧ nodes sb t' = nodes sb t ∧ ¬Makes sb t cwd path omode
      | some ip => Ok sb (ip ::ₘ q) t' ∧ Keeps q t t' ∧ (t'.inode ip).valid = true ∧
        (omode ≠ 0 → (t'.inode ip).type ≠ .dir) ∧ Borrowed sb q t' ip ∧
        (nodes sb t' = nodes sb t ∧ ¬Makes sb t cwd path omode ∨
          nodes sb t' ≠ nodes sb t ∧ Makes sb t cwd path omode ∧ (t'.inode ip).type = .file) ∧
        if hasFlag omode oCreate then
          CreateEffect sb (nodes sb t) (t.inode cwd).inum path .file 0 0 (nodes sb t')
        else nodes sb t' = nodes sb t := by
  unfold openInode
  by_cases hf : hasFlag omode oCreate = true
  · simp only [if_pos hf]
    refine (create_spec hE hs hset hc hd hnt hp (by simp)).mono ?_
    rintro (_ | ip) t1 hr
    · obtain ⟨hs1, hk1, hn, hno⟩ := hr
      exact ⟨hs1, hk1, hn, fun hm => hno (by simp) hm.2⟩
    obtain ⟨hs1, hk1, hv1, ho⟩ := hr
    dsimp only
    rw [(hs1.node_eq (mem_cons_self ip q) hv1).1.symm]
    rcases ho with ⟨hn, hno, -, htype, hb⟩ | ⟨d, name, hw, hyes, hcr, hrel⟩
    · exact ⟨hs1, hk1, hv1, fun _ => htype, hb, .inl ⟨hn, fun hm => hno hm.2⟩, .same hn⟩
    · have htype := hcr.type_eq hrel
      refine ⟨hs1, hk1, hv1, by simp [htype], .inr (.inr ?_),
        .inr ⟨fun hn => ?_, ⟨hf, hyes (by simp)⟩, htype⟩, .created d _ name hw hcr hrel⟩
      · rw [hcr.node_eq hrel, newNode_nlink]
        simp
      · rw [hn, hcr.free] at htype
        cases htype
  · have hno : ¬Makes sb t cwd path omode := fun hm => hf hm.1
    simp only [if_neg hf]
    refine (namei_spec (fun _ => hE) hs hc hd hnt).seq ?_
    rintro (_ | ip) t1 hr
    · exact .pure ⟨hr.1, hr.2.keeps, hr.2.nodes_eq, hno⟩
    obtain ⟨hs1, hq1, hb1, name, hw⟩ := hr
    refine (lockPath_spec hs1 hb1 (hq1.nodes_eq ▸ hnt.resolve hw)).seq ?_
    rintro _ t2 ⟨hs2, hq2, hv2, hb2⟩
    have hq : Quiet sb q t t2 := hq1.trans hq2.of_cons
    refine .bind (.get ?_)
    by_cases hdir : (t2.inode ip).type = .dir ∧ omode ≠ 0
    · rw [if_pos hdir]
      refine (iunlockput_borrowed hs2 hb2).seq ?_
      rintro _ t3 ⟨hs3, hq3⟩
      exact .pure ⟨hs3, hq.keeps.trans hq3.keeps, hq3.nodes_eq.trans hq.nodes_eq, hno⟩
    · grind [hq.keeps, hq.nodes_eq, Wp.pure]

end Path

section Opened

variable {a : File} {i : Inode} {omode : BitVec 32}

theorem opened_ref : (a.opened i ip omode).ref = a.ref := by
  unfold File.opened
  split <;> rfl

theorem opened_held : (a.opened i ip omode).held = {ip} := by
  unfold File.opened File.held
  by_cases hd : i.type = .device <;> simp [hd]

theorem opened_pipeEnd : (a.opened i ip omode).pipeEnd = none := by
  unfold File.opened File.pipeEnd
  by_cases hd : i.type = .device <;> simp [hd]

theorem opened_writable (h : (a.opened i ip omode).writable = true) : omode ≠ 0 := by
  rintro rfl
  cases h

end Opened

theorem openFile_spec {omode : BitVec 32} (hs : SysOk sb (ip ::ₘ 0) 0 s) (hr : (s.file f).ref ≠ 0)
    (ht : (s.file f).type = .none) (hv : (s.fs.inode ip).valid = true)
    (hdir : omode ≠ 0 → (s.fs.inode ip).type ≠ .dir) :
    Wp E (openFile sb ip f omode) s fun _ s' => Moves sb 0 0 s s' := by
  have hold : (s.file f).held = 0 := by simp [File.held, ht]
  refine .bind (.get ?_)
  refine .bind (.modify ?_)
  dsimp only
  generalize hX : (s.file f).opened (s.fs.inode ip) ip omode = X
  have h1 : SysOk sb 0 0 { s with file := update s.file f X } := by
    subst hX
    apply hs.setFile
    · rw [opened_held, hold]
      rfl
    · simp [opened_ref]
    · rw [opened_ref]
      intro h0
      exact absurd h0 hr
    · intro ip' hip'
      rw [opened_held, mem_singleton] at hip'
      rw [hip']
      exact hv
    · intro _ hw
      exact hdir (opened_writable hw)
    · rw [opened_pipeEnd, File.pipeEnd, if_neg (by simp [ht])]
  have hmem : ip ∈ (0 : Multiset Ip) + Sys.held { s with file := update s.file f X } := by
    apply held_subset
    apply mem_held_file (f := f)
    simp [← hX, opened_held]
  have hend : ∀ t, SysOk sb 0 0 { s with fs := t, file := update s.file f X } →
      Changes (nodes sb s.fs) (nodes sb t) →
      Wp E (fs (iunlock ip)) { s with fs := t, file := update s.file f X }
        fun _ s' => Moves sb 0 0 s s' :=
    fun t ht hc => wp_fs (iunlock_spec ht.ok hmem ⟨ht, rfl, hc⟩)
  refine .bind (wp_fs ?_)
  refine .bind (.get ?_)
  by_cases htr : hasFlag omode oTrunc ∧ (s.fs.inode ip).type = .file
  · rw [if_pos htr]
    refine (itrunc_ok h1.ok hmem hv).mono ?_
    rintro _ t ⟨hok, hk, hn⟩
    have hc : Changes (nodes sb s.fs) (nodes sb t) := by
      rw [hn]
      refine .single (.content _ _ ?_ rfl rfl)
      rw [(h1.ok.node_eq hmem hv).1]
      simp [htr.2]
    exact hend t (h1.setFs hok (hk.of_subset held_subset) (hs.dirs.changes hc)) hc
  · rw [if_neg htr]
    exact .pure (hend s.fs h1 .refl)

/-- If `open` makes a file, there is a free `struct file` and a free descriptor for it. -/
def Call.Roomy (sb : Super) (s : Sys) (p : Slot) : Call → Prop
  | .open (some path) omode => ∀ cwd ∈ (s.proc p).cwd, Makes sb s.fs cwd path.bytes omode →
    (∃ f, (s.file f).ref = 0) ∧ ∃ fd, (s.proc p).ofile fd = none
  | _ => True

theorem Call.roomy_of_names {c : Call} (hc : c.names = false) : c.Roomy sb s p := by
  cases c with
  | «open» => cases hc
  | _ => trivial

/-- The state after a call that has returned `r`, of a process with current directory `cwd`. -/
structure Done (sb : Super) (s : Sys) (p : Slot) (cwd : Ip) (c : Call) (r : Int) (s' : Sys) :
    Prop where
  inv : Inv sb s'
  does : c.Does sb (nodes sb s.fs) (s.fs.inode cwd).inum r (nodes sb s'.fs)
  /-- a call that fails leaves the tree alone -/
  same : c.names = true → c.Roomy sb s p → Shorts (nodes sb s.fs) → r = -1 →
    nodes sb s'.fs = nodes sb s.fs
  /-- unless it is `open` without room for the file that it makes -/
  made : ¬c.Roomy sb s p → r = -1 ∧ nodes sb s'.fs ≠ nodes sb s.fs

theorem Kept.done (hk : Kept sb s s') (hc : c.names = false) : Done sb s p cwd c r s' := by
  refine ⟨hk.inv, hk.changes.does hc, ?_, fun h => absurd (Call.roomy_of_names hc) h⟩
  rw [hc]
  exact fun h => by cases h

theorem Inv.failed (h : Inv sb s') (hroom : c.Roomy sb s p) (hn : nodes sb s'.fs = nodes sb s.fs)
    (hr : r = -1) : Done sb s p cwd c r s' := by
  subst hr
  exact ⟨h, ⟨_, c.effect_failed, .of_eq hn⟩, fun _ _ _ _ => hn, fun h => absurd hroom h⟩

theorem putBack_spec {u : Sys} (hs : SysOk sb (ip ::ₘ 0) 0 s) (hr : Rest s)
    (hd : c.Does sb (nodes sb u.fs) (u.fs.inode cwd).inum r (nodes sb s.fs))
    (hsame : c.names = true → r = -1 → Borrowed sb s.held s.fs ip ∧
      (c.Roomy sb u p → nodes sb s.fs = nodes sb u.fs))
    (hmade : ¬c.Roomy sb u p → r = -1 ∧ nodes sb s.fs ≠ nodes sb u.fs) :
    Wp E (do
      fs (iunlockput sb ip)
      return r) s fun r s' => Done sb u p cwd c r s' := by
  obtain ⟨v, he, hc⟩ := hd
  refine (iunlockput_sys hs).seq ?_
  rintro _ s' ⟨hm, hb⟩
  refine .pure ⟨⟨hm.ok, hr.of_proc hm.proc⟩, ⟨v, he, hc.trans hm.changes⟩, ?_, ?_⟩
  · intro hname hroom _ hr1
    obtain ⟨hb', hn⟩ := hsame hname hr1
    rw [← zero_add s.held] at hb'
    exact (hb hb').trans (hn hroom)
  · intro hroom
    obtain ⟨hr1, hne⟩ := hmade hroom
    have hname : c.names = true := by
      by_contra hc
      exact hroom (Call.roomy_of_names (by simpa using hc))
    obtain ⟨hb', -⟩ := hsame hname hr1
    rw [← zero_add s.held] at hb'
    exact ⟨hr1, (hb hb').trans_ne hne⟩

theorem Inv.quiet (h : Inv sb s) (hok : Ok sb s.held t) (hq : Quiet sb s.held s.fs t) :
    Kept sb s { s with fs := t } :=
  ⟨h.setFs hok hq.keeps (hq.nodes_eq ▸ h.ok.dirs), .of_eq hq.nodes_eq⟩

theorem wp_fs_frame {m : F Unit} {q : Slot → Files} {R : Sys → Prop}
    (h : Wp E (fs m) { s with proc := q } fun _ s' => R s') :
    Wp E (fs m) s fun _ s' => s'.proc = s.proc ∧ R { s' with proc := q } := by
  unfold Wp fs at h ⊢
  cases hm : m s.fs with
  | ok =>
    rw [hm] at h
    exact ⟨rfl, h⟩
  | error =>
    rw [hm] at h
    exact h

theorem readAll_spec (ht : Ok sb q t) (hip : ip ∈ q) (hv : (t.inode ip).valid = true)
    (reads : List (Nat × Nat)) : Wp E (readAll sb ip reads) t fun _ t' => t' = t := by
  induction reads with
  | nil => exact .pure rfl
  | cons _ _ ih =>
    refine (readi_spec ht hip hv _).seq ?_
    rintro _ t' ⟨rfl, -⟩
    exact ih

section Calls

variable (h : Inv sb s) (ha : Allows sb E s) (hcwd : (s.proc p).cwd = some cwd)

include h ha hcwd

theorem sysOpen_spec (path : Option Path) (omode : BitVec 32) :
    Wp E (sysOpen sb p path omode) s fun r s' => Done sb s p cwd (.open path omode) r s' := by
  rcases path with _ | path
  · exact .pure (h.failed trivial rfl rfl)
  have hcwd' : ∀ {P : Ip → Prop}, (∀ ip ∈ (s.proc p).cwd, P ip) ↔ P cwd := by simp [hcwd]
  refine .bind (getCwd_spec hcwd ?_)
  refine .bind (wp_fs ((openInode_spec ha.iget h.held_ok h.ok.settled (cwd_mem hcwd) h.ok.dirs
    (h.reaches ha hcwd) path.noNul).mono ?_))
  rintro (_ | ip) t hr
  · obtain ⟨hok, hk, hn, hno⟩ := hr
    refine .pure ((h.setFs hok hk (hn ▸ h.ok.dirs)).failed (hcwd'.mpr fun hm => ?_) hn rfl)
    exact absurd hm hno
  obtain ⟨hok, hk, hv, hdir, hb, hold, heff⟩ := hr
  have heff : ∀ r, (Call.open (some path) omode).Effect sb (nodes sb s.fs) (s.fs.inode cwd).inum r
      (nodes sb t) := fun _ => heff
  have hd : Dirs sb (nodes sb t) := by
    have he := heff 0
    unfold Call.Effect at he
    dsimp only at he
    split at he
    · exact h.ok.dirs.createEffect (nodes_inRange _) he
    · exact he ▸ h.ok.dirs
  have hs1 := h.hold hok hk hd
  -- the exits after which the inode is put
  have hput : ∀ {u : Sys}, SysOk sb (ip ::ₘ 0) 0 u → Rest u → u.fs = t → u.held = s.held →
      ((t.inode ip).type ≠ .file ∨
        ¬((∃ f, (s.file f).ref = 0) ∧ ∃ fd, (s.proc p).ofile fd = none)) →
      Wp E (do
        fs (iunlockput sb ip)
        return (-1 : Int)) u fun r s' => Done sb s p cwd (.open (some path) omode) r s' := by
    rintro u hu hru rfl hheld hfull
    refine putBack_spec hu hru ⟨_, heff _, .refl⟩ (fun _ _ => ⟨?_, fun hroom => ?_⟩) ?_
    · rw [hheld]
      exact hb
    · rcases hold with ⟨hn, -⟩ | ⟨-, hm, htype⟩
      · exact hn
      · exact absurd (hcwd'.mp hroom hm) (hfull.resolve_left fun h => h htype)
    · intro hroom
      rcases hold with ⟨-, hno⟩ | ⟨hne, -⟩
      · exact absurd (hcwd'.mpr fun hm => absurd hm hno) hroom
      · exact ⟨rfl, hne⟩
  dsimp only
  refine .bind (.get ?_)
  split
  · next hdev => exact hput hs1 h.rest rfl rfl (.inl fun hf => by cases hf.symm.trans hdev.1)
  refine (filealloc_spec hs1).seq ?_
  rintro (_ | f) s2 h2
  · obtain ⟨rfl, hfull⟩ := h2
    exact hput hs1 h.rest rfl rfl (.inr fun hroom => hroom.1.elim hfull)
  obtain ⟨hs2, hp2, hf2, hh2, hr2, ht2, -, hfile⟩ := h2
  have hrest2 : Rest s2 := h.rest.of_proc hp2
  have hcwd2 : (s2.proc p).cwd.isSome := by
    rw [hp2]
    exact Option.isSome_iff_exists.mpr ⟨cwd, hcwd⟩
  rw [zero_add] at hs2
  refine (fdalloc_spec hs2).seq ?_
  rintro (_ | fd) s3 h3
  · obtain ⟨rfl, hfull⟩ := h3
    refine (fileclose_fresh hs2 hr2 ht2).seq ?_
    rintro _ s4 ⟨hs4, hp4, hf4, hh4⟩
    rw [sub_self] at hs4
    rw [hp2] at hfull
    exact hput hs4 (hrest2.of_proc hp4) (hf4.trans hf2) (hh4.trans hh2)
      (.inr fun hroom => hroom.2.elim hfull)
  obtain ⟨hfd, rfl, hs3⟩ := h3
  rw [hp2] at hfd
  rw [sub_self] at hs3
  have hfs : (s2.withFd p fd (some f)).fs = t := hf2
  refine (openFile_spec hs3 ?_ ht2 ?_ ?_).seq ?_
  · exact fun h0 => by simp [Sys.withFd, hr2] at h0
  · rw [hfs]
    exact hv
  · rw [hfs]
    exact hdir
  intro _ s4 hm4
  refine .pure ⟨⟨hm4.ok, (hrest2.withFd hcwd2).of_proc hm4.proc⟩, ⟨_, heff _, ?_⟩, ?_,
    fun hroom => absurd (hcwd'.mpr fun _ => ⟨⟨f, hfile⟩, ⟨fd, hfd⟩⟩) hroom⟩
  · rw [← hfs]
    exact hm4.changes
  · intro _ _ _ hr
    have : (0 : Int) ≤ fd.val := Int.natCast_nonneg _
    omega

theorem sysCreate_spec {path : Option Path} {type : FileType} {major minor : Int}
    (htype : type ≠ .free) (hroom : c.Roomy sb s p)
    (hc : ∀ q, path = some q → ∀ r t', CreateEffect sb (nodes sb s.fs) (s.fs.inode cwd).inum
      q.bytes type major minor t' → c.Effect sb (nodes sb s.fs) (s.fs.inode cwd).inum r t') :
    Wp E (sysCreate sb p path type major minor) s fun r s' => Done sb s p cwd c r s' := by
  rcases path with _ | path
  · exact .pure (h.failed hroom rfl rfl)
  refine .bind (getCwd_spec hcwd ?_)
  refine .bind (wp_fs ((create_spec ha.iget h.held_ok h.ok.settled (cwd_mem hcwd) h.ok.dirs
    (h.reaches ha hcwd) path.noNul htype).mono ?_))
  rintro (_ | ip) t hr
  · obtain ⟨hok, hk, hn, -⟩ := hr
    exact .pure ((h.setFs hok hk (hn ▸ h.ok.dirs)).failed hroom hn rfl)
  obtain ⟨hok, hk, hv, ho⟩ := hr
  have heff : CreateEffect sb (nodes sb s.fs) (s.fs.inode cwd).inum path.bytes type major minor
      (nodes sb t) := by
    rcases ho with ⟨hn, -⟩ | ⟨d, name, hw, -, hcr, hrel⟩
    · exact .same hn
    · exact .created d _ name hw hcr hrel
  exact putBack_spec (h.hold hok hk (h.ok.dirs.createEffect (nodes_inRange _) heff)) h.rest
    ⟨_, hc path rfl _ _ heff, .refl⟩ (fun _ hr => by cases hr) fun h => absurd hroom h

omit ha hcwd in
theorem Inv.used {i : Nat} (hk : Keeps s.held s.fs t) (hl : (nodes sb s.fs i).type ≠ .free)
    (hn : (nodes sb s.fs i).nlink = 0) : (t.dinode i).type ≠ .free := by
  have hl' := nodes_live.mp hl
  rw [nodes, node_live hl'] at hn
  obtain ⟨ip, hip, hv, rfl⟩ := h.held_ok.kept i hl' hn
  exact hk.live ip hip hl'.2.2

theorem sysLink_spec (old new : Option Path) :
    Wp E (sysLink sb p old new) s fun r s' => Done sb s p cwd (.link old new) r s' := by
  rcases old with _ | old
  · exact .pure (h.failed trivial rfl rfl)
  rcases new with _ | new
  · exact .pure (h.failed trivial rfl rfl)
  refine .bind (getCwd_spec hcwd ?_)
  refine wp_fs ((link_spec ha.iget h.held_ok (cwd_mem hcwd) h.ok.dirs (h.reaches ha hcwd)
    new.noNul).mono ?_)
  rintro r t ⟨hok, hk, heff⟩
  refine ⟨h.setFs hok hk (h.ok.dirs.linkEffect heff), ⟨_, heff, .refl⟩, ?_, fun h => absurd trivial h⟩
  intro _ _ hsh hr
  cases heff with
  | same _ hn => exact hn
  | linked => omega
  | undone _ i _ _ _ hrel =>
    rw [addNlink_undo hsh] at hrel
    rcases hrel with hn | ⟨h0, hn⟩
    · exact hn
    · -- a free inode, or one that somebody uses
      have hn : nodes sb t = update (nodes sb s.fs) i {} := hn
      by_cases hl : (nodes sb s.fs i).type = .free
      · show nodes sb t = _
        rw [hn, ← nodes_free hl, update_eq_self]
      · have hlive := h.used hk hl h0
        have hin := nodes_live.mp hl
        have hl' : (nodes sb t i).type ≠ .free := nodes_live.mpr ⟨hin.1, hin.2.1, hlive⟩
        rw [hn, update_self] at hl'
        exact absurd rfl hl'

theorem sysUnlink_spec (path : Option Path) :
    Wp E (sysUnlink sb p path) s fun r s' => Done sb s p cwd (.unlink path) r s' := by
  rcases path with _ | path
  · exact .pure (h.failed trivial rfl rfl)
  refine .bind (getCwd_spec hcwd ?_)
  refine wp_fs ((unlink_spec ha.iget h.held_ok (cwd_mem hcwd) h.ok.dirs (h.reaches ha hcwd)
    ha.nlink path.noNul).mono ?_)
  rintro r t ⟨hok, hk, heff⟩
  refine ⟨h.setFs hok hk (h.ok.dirs.unlinkEffect heff), ⟨_, heff, .refl⟩, ?_, fun h => absurd trivial h⟩
  intro _ _ _ hr
  cases heff with
  | same _ hn => exact hn
  | unlinked => omega

theorem namei_sys {path : Name} : Wp E (fs (namei sb cwd path)) s fun r s' =>
      match r with
      | none => Kept sb s s'
      | some ip => Wp E (fs (ilock sb ip)) s' fun _ s' => ∃ t, s' = { s with fs := t } ∧
        Ok sb (ip ::ₘ s.held) t ∧ Quiet sb s.held s.fs t ∧ (t.inode ip).valid = true := by
  have hnt := h.reaches ha hcwd
  refine wp_fs ((namei_spec (fun _ => ha.iget) h.held_ok (cwd_mem hcwd) h.ok.dirs hnt).mono ?_)
  rintro (_ | ip) t hr
  · exact h.quiet hr.1 hr.2
  · obtain ⟨hs1, hq1, hb1, name, hw⟩ := hr
    refine wp_fs ((lockPath_spec hs1 hb1 (hq1.nodes_eq ▸ hnt.resolve hw)).mono ?_)
    rintro _ t2 ⟨hs2, hq2, hv2, -⟩
    exact ⟨t2, rfl, hs2, hq1.trans hq2.of_cons, hv2⟩

theorem sysChdir_spec (path : Option Path) :
    Wp E (sysChdir sb p path) s fun r s' => Done sb s p cwd (.chdir path) r s' := by
  rcases path with _ | path
  · exact .pure (h.kept.done rfl)
  refine .bind (getCwd_spec hcwd ?_)
  refine (namei_sys h ha hcwd).seq ?_
  rintro (_ | ip) s1 hr
  · exact .pure (hr.done rfl)
  refine hr.seq ?_
  rintro _ s2 ⟨t, rfl, hok, hq, hv⟩
  have hs2 := h.hold hok hq.keeps (hq.nodes_eq ▸ h.ok.dirs)
  refine .bind (.get ?_)
  refine .ite (fun hdir => ?_) fun hdir => ?_
  · exact putBack_spec hs2 h.rest ((Changes.of_eq hq.nodes_eq).does rfl) (fun hc => by cases hc) fun h => absurd trivial h
  refine .bind (wp_fs (iunlock_spec hok (mem_cons_self ip _) ?_))
  have hs3 : SysOk sb (cwd ::ₘ 0) 0
      { s with
        fs := t
        proc := update s.proc p { s.proc p with cwd := some ip } } := by
    refine hs2.setCwd (by rw [hcwd]; exact add_comm _ _) ?_
    rintro _ ⟨⟩
    exact (hok.live (mem_cons_self ip _) hv).2.2
  have hr3 : Rest { s with proc := update s.proc p { s.proc p with cwd := some ip } } :=
    h.rest.update (fun _ _ => rfl) nofun
  refine (wp_fs_frame (iput_sys hs3)).seq ?_
  rintro _ s4 ⟨hp4, hm⟩
  refine .bind (.modify (.pure ?_))
  rw [hp4]
  have hk : Kept sb s _ :=
    ⟨⟨hm.ok, hr3.of_proc hm.proc⟩, (Changes.of_eq hq.nodes_eq).trans hm.changes⟩
  exact hk.done rfl

theorem sysExec_spec (path : Option Path) (reads : List (Nat × Nat)) (ret : Int) :
    Wp E (sysExec sb p path reads ret) s fun r s' =>
      Done sb s p cwd (.exec path reads ret) r s' := by
  rcases path with _ | path
  · exact .pure (h.kept.done rfl)
  refine .bind (getCwd_spec hcwd ?_)
  refine (namei_sys h ha hcwd).seq ?_
  rintro (_ | ip) s1 hr
  · exact .pure (hr.done rfl)
  refine hr.seq ?_
  rintro _ s2 ⟨t, rfl, hok, hq, hv⟩
  refine .bind (wp_fs ((readAll_spec hok (mem_cons_self ip _) hv reads).mono ?_))
  rintro _ _ rfl
  exact putBack_spec (h.hold hok hq.keeps (hq.nodes_eq ▸ h.ok.dirs)) h.rest
    ((Changes.of_eq hq.nodes_eq).does rfl) (fun hc => by cases hc) fun h => absurd trivial h

/-! ## Processes -/

omit ha in
theorem fork_spec {np : Slot} (hnp : (s.proc np).cwd = none) :
    Wp E (fork p np) s fun _ s' => Kept sb s s' := by
  have hne : p ≠ np := by grind
  -- the descriptors below `i` have been copied
  have hloop := Wp.forRange (E := E) (forkFd p np) (fun i u => SysOk sb 0 0 u ∧ u.fs = s.fs ∧
      (∀ q, q ≠ np → u.proc q = s.proc q) ∧ (u.proc np).cwd = none ∧
      ∀ fd : Fin nofile, i ≤ fd.val → (u.proc np).ofile fd = none) nofile 0 s ?_
    ⟨h.ok, rfl, fun _ _ => rfl, hnp, fun fd _ => h.rest np hnp fd⟩
  · refine hloop.seq ?_
    rintro _ u ⟨hu, hfs, hq, hc, -⟩
    have hcwd' : (u.proc p).cwd = some cwd := by rwa [hq p hne]
    have hmem : cwd ∈ 0 + u.held := held_subset (cwd_mem hcwd')
    refine .bind (getCwd_spec hcwd' ?_)
    refine .bind (wp_fs ((idup_spec hu.ok hmem).mono ?_))
    rintro r t ⟨hr, hok, hqt⟩
    rw [hr]
    rw [← cons_add] at hok
    have h1 := hu.setFs hok (hqt.keeps.of_subset held_subset) (hqt.nodes_eq ▸ hu.dirs)
    refine .modify ⟨⟨?_, h.rest.update hq nofun⟩, .of_eq ?_⟩
    · refine h1.setCwd (by rw [hc]; rfl) ?_
      rintro _ ⟨⟩
      exact h1.settled cwd (cwd_mem (p := p) hcwd')
    · exact hqt.nodes_eq.trans (by rw [hfs])
  · rintro i u - hi ⟨hu, hfs, hq, hc, hnone⟩
    refine .bind (.get ?_)
    rw [dif_pos (by omega)]
    cases hf : (u.proc p).ofile ⟨i, by omega⟩ with
    | none => exact .pure ⟨hu, hfs, hq, hc, fun fd hfd => hnone fd (by omega)⟩
    | some f =>
      refine (filedup_spec hu (hu.count_le (mem_fds hf) le_rfl)).seq ?_
      rintro _ u1 ⟨hu1, hp1, hf1⟩
      have h0 : (u1.proc np).ofile ⟨i, by omega⟩ = none := by grind
      have hu2 := hu1.openFd (f := f) h0
      rw [add_sub_cancel_right] at hu2
      refine setFd_spec ⟨hu2, hf1.trans hfs, ?_, ?_, ?_⟩
      · intro q hqn
        rw [withFd_of_ne hqn, hp1, hq q hqn]
      · rw [withFd_self, hp1]
        exact hc
      · intro fd hfd
        have hne' : fd ≠ ⟨i, by omega⟩ := by grind
        rw [withFd_self]
        dsimp only
        rw [update_of_ne hne', hp1]
        exact hnone fd (by omega)

omit ha in
theorem exit_spec : Wp E (exit sb p) s fun _ s' => Kept sb s s' := by
  -- the descriptors below `i` have been closed
  have hloop := Wp.forRange (E := E) (exitFd sb p) (fun i u => SysOk sb 0 0 u ∧
      Changes (nodes sb s.fs) (nodes sb u.fs) ∧ (∀ q, q ≠ p → u.proc q = s.proc q) ∧
      (u.proc p).cwd = some cwd ∧
      ∀ fd : Fin nofile, fd.val < i → (u.proc p).ofile fd = none) nofile 0 s ?_
    ⟨h.ok, .refl, fun _ _ => rfl, hcwd, fun fd hfd => absurd hfd (Nat.not_lt_zero _)⟩
  · refine hloop.seq ?_
    rintro _ u ⟨hu, hch, hq, hc, hnone⟩
    refine .bind (getCwd_spec hc ?_)
    have h1 : SysOk sb (cwd ::ₘ 0) 0
        { u with proc := update u.proc p { u.proc p with cwd := none } } :=
      hu.setCwd (by rw [hc]; rfl) nofun
    refine (wp_fs_frame (iput_sys h1)).seq ?_
    rintro _ u1 ⟨hp1, hm⟩
    refine .modify ?_
    rw [hp1]
    exact ⟨⟨hm.ok, h.rest.update hq fun _ fd => hnone fd fd.isLt⟩, hch.trans hm.changes⟩
  · rintro i u - hi ⟨hu, hch, hq, hc, hnone⟩
    refine .bind (.get ?_)
    rw [dif_pos (by omega)]
    have hlt : ∀ fd : Fin nofile, fd.val < i + 1 → fd ≠ ⟨i, by omega⟩ → fd.val < i := by grind
    cases hf : (u.proc p).ofile ⟨i, by omega⟩ with
    | none =>
      refine .pure ⟨hu, hch, hq, hc, ?_⟩
      intro fd hfd
      by_cases hfi : fd = ⟨i, by omega⟩
      · rw [hfi, hf]
      · exact hnone fd (hlt fd hfd hfi)
    | some f =>
      refine (fileclose_spec hu (hu.count_le (mem_fds hf) le_rfl)).seq ?_
      intro _ u1 hm1
      have hf1 : (u1.proc p).ofile ⟨i, by omega⟩ = some f := by rw [hm1.proc, hf]
      have hu2 := hm1.ok.closeFd hf1
      rw [sub_add_cancel] at hu2
      refine setFd_spec ⟨hu2, hch.trans hm1.changes, ?_, ?_, ?_⟩
      · intro q hqp
        rw [withFd_of_ne hqp, hm1.proc, hq q hqp]
      · rw [withFd_self, hm1.proc]
        exact hc
      · intro fd hfd
        rw [withFd_self]
        dsimp only
        by_cases hfi : fd = ⟨i, by omega⟩
        · rw [hfi, update_self]
        · rw [update_of_ne hfi, hm1.proc]
          exact hnone fd (hlt fd hfd hfi)

/-! ## All calls -/

theorem call_spec (he : c.enabled s p = true) :
    Wp E (c.run sb p) s fun r s' => Done sb s p cwd c r s' := by
  obtain ⟨hp, he⟩ := (Bool.and_eq_true _ _).mp he
  cases c with
  | dup => exact (sysDup_spec h hp).mono fun _ _ hk => hk.done rfl
  | read => exact (sysRead_spec ha.fileread h).seq fun _ _ hk => .pure (hk.done rfl)
  | write => exact (sysWrite_spec ha.filewrite h).mono fun _ _ hk => hk.done rfl
  | close => exact (sysClose_spec h hp).mono fun _ _ hk => hk.done rfl
  | fstat =>
    refine (sysFstat_spec h).seq ?_
    rintro (_ | _) s' hk <;> exact .pure (hk.done rfl)
  | pipe => exact (sysPipe_spec h hp).mono fun _ _ hk => hk.done rfl
  | «open» path omode => exact sysOpen_spec h ha hcwd path omode
  | mkdir | mknod =>
    refine sysCreate_spec h ha hcwd (by simp) trivial ?_
    rintro q rfl r t' heff
    exact heff
  | link old new => exact sysLink_spec h ha hcwd old new
  | unlink path => exact sysUnlink_spec h ha hcwd path
  | chdir path => exact sysChdir_spec h ha hcwd path
  | exec path reads ret => exact sysExec_spec h ha hcwd path reads ret
  | fork =>
    exact (fork_spec h hcwd (Option.isNone_iff_eq_none.mp he)).seq fun _ _ hk => .pure (hk.done rfl)
  | exit => exact (exit_spec h hcwd).seq fun _ _ hk => .pure (hk.done rfl)

end Calls

end Xv6.Fs
