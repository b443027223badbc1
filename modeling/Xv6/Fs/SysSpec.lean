import Xv6.Fs.Effect
import Xv6.Fs.Ends
import Xv6.Misc.Sum
import Mathlib.Algebra.Group.Pi.Lemmas
import Mathlib.Algebra.Order.Group.Multiset
import Mathlib.Data.Fintype.BigOperators

/-!
# Open files and current directories

`SysOk sb x y s` is what holds of the file system and its users while a call holds the references
`x` to inodes, and the reference counts of files differ by `y` from the number of descriptors.
Between calls both are zero.
-/

namespace Xv6.Fs

open ByteMem Multiset
open Function (update update_eq_self update_idem update_of_ne update_self)

variable {sb : Super} {E : Stop → Prop} {s s' : Sys} {x x' : Multiset Ip} {y y' : Fp → Int}
  {f : Fp} {ip : Ip} {p : Slot}
variable {h : Multiset Ip} {pipe : Nat → Pipe} {src : Nat → Option Byte} {t : State}
variable {X : File} {n : Int}

/-! ## References of files and processes -/

def File.held (f : File) : Multiset Ip :=
  match f.type with
  | .inode | .device => {f.ip}
  | .none | .pipe => 0

attribute [local simp] File.held

def Files.held (q : Files) : Multiset Ip := q.cwd.elim 0 fun ip => {ip}

/-- The files that the descriptors of a process refer to. -/
def Files.fds (q : Files) : Multiset Fp := ∑ fd, (q.ofile fd).elim 0 fun f => {f}

def Sys.held (s : Sys) : Multiset Ip := ∑ f, (s.file f).held + ∑ p, (s.proc p).held

def Sys.fds (s : Sys) : Multiset Fp := ∑ p, (s.proc p).fds

structure SysOk (sb : Super) (x : Multiset Ip) (y : Fp → Int) (s : Sys) : Prop where
  ok : Ok sb (x + s.held) s.fs
  settled : Settled s.held s.fs
  dirs : Dirs sb (nodes sb s.fs)
  refs : ∀ f, (s.file f).ref = y f + s.fds.count f
  idle : ∀ f, (s.file f).ref = 0 → (s.file f).type = .none
  /-- the inodes of files have been locked -/
  locked : ∀ f, ∀ ip ∈ (s.file f).held, (s.fs.inode ip).valid = true
  /-- no directory is open for writing -/
  plain : ∀ f, (s.file f).type = .inode → (s.file f).writable = true →
    (s.fs.inode (s.file f).ip).type ≠ .dir
  pipes : Pipes (fun f => (s.file f).pipeEnd) s.pipe s.npipe

theorem mem_held_file (h : ip ∈ (s.file f).held) : ip ∈ s.held :=
  mem_add.mpr (.inl (Multiset.mem_sum.mpr ⟨f, Finset.mem_univ f, h⟩))

theorem mem_held_proc (h : ip ∈ (s.proc p).held) : ip ∈ s.held :=
  mem_add.mpr (.inr (Multiset.mem_sum.mpr ⟨p, Finset.mem_univ p, h⟩))

theorem add_eq_of_swap {a a' b b' : Multiset Ip} (h : a + b' = a' + b) (hx : a' + x' = a + x) :
    x' + b' = x + b := by
  apply add_left_cancel (a := a)
  rw [add_left_comm, h, ← add_assoc, add_comm x', hx, add_assoc]

section File

variable (hs : SysOk sb x y s) (hx : X.held + x' = (s.file f).held + x)
  (hy : y' = y + Pi.single f (X.ref - (s.file f).ref)) (hidle : X.ref = 0 → X.type = .none)
  (hlocked : ∀ ip ∈ X.held, (s.fs.inode ip).valid = true)
  (hplain : X.type = .inode → X.writable = true → (s.fs.inode X.ip).type ≠ .dir)

include hs hx hy hidle hlocked hplain

theorem SysOk.setFilePipe {npipe : Nat}
    (hpipes : Pipes (update (fun f => (s.file f).pipeEnd) f X.pipeEnd) pipe npipe) :
    SysOk sb x' y' { s with file := update s.file f X, pipe := pipe, npipe := npipe } := by
  have hsum := Table.sum_update (fun _ => File.held) s.file (Finset.mem_univ f) X
  have hheld : (s.file f).held + Sys.held (Sys.mk s.fs (update s.file f X) s.proc pipe npipe) =
      X.held + s.held := by
    simp only [Sys.held, ← add_assoc]
    rw [hsum]
  have hok : Ok sb (x' + Sys.held (Sys.mk s.fs (update s.file f X) s.proc pipe npipe)) s.fs := by
    rw [add_eq_of_swap hheld hx]
    exact hs.ok
  refine ⟨hok, ?_, hs.dirs, ?_, ?_, ?_, ?_, ?_⟩
  · intro ip hip
    have hmem : ip ∈ X.held + s.held := hheld ▸ mem_add.mpr (.inr hip)
    rcases mem_add.mp hmem with hmem | hmem
    · exact (hok.live (mem_add.mpr (.inr hip)) (hlocked ip hmem)).2.2
    · exact hs.settled ip hmem
  · intro f'
    have hr := hs.refs f'
    have hfds : Sys.fds (Sys.mk s.fs (update s.file f X) s.proc pipe npipe) = s.fds := rfl
    rw [hfds, hy]
    by_cases hf : f' = f
    · subst hf
      simp only [update_self, Pi.add_apply, Pi.single_eq_same]
      omega
    · simp_all
  · grind [hs.idle]
  · grind [hs.locked]
  · grind [hs.plain]
  · have he : (fun f' => (update s.file f X f').pipeEnd) =
        update (fun f' => (s.file f').pipeEnd) f X.pipeEnd := by
      funext f'
      grind
    rw [← he] at hpipes
    exact hpipes

theorem SysOk.setFile (hend : X.pipeEnd = (s.file f).pipeEnd) :
    SysOk sb x' y' { s with file := update s.file f X } := by
  apply hs.setFilePipe hx hy hidle hlocked hplain
  rw [hend, update_eq_self f fun f => (s.file f).pipeEnd]
  exact hs.pipes

end File

theorem SysOk.setRef {r : Int} {off : Nat} (hs : SysOk sb x y s)
    (hy : y' = y + Pi.single f (r - (s.file f).ref)) (hidle : r = 0 → (s.file f).type = .none) :
    SysOk sb x y' { s with file := update s.file f { s.file f with ref := r, off := off } } :=
  hs.setFile rfl hy hidle (hs.locked f) (hs.plain f) rfl

theorem held_setFile (h : X.held = (s.file f).held) :
    Sys.held { s with file := update s.file f X } = s.held := by
  have hfile : ∀ f', (update s.file f X f').held = (s.file f').held := by grind
  simp only [Sys.held, hfile]

theorem SysOk.setProc (hs : SysOk sb x y s) {Q : Files} (hx : Q.held + x' = (s.proc p).held + x)
    (hy : ∀ f, y' f + Q.fds.count f = y f + (s.proc p).fds.count f)
    (hsettled : ∀ ip ∈ Q.held, (s.fs.dinode (s.fs.inode ip).inum).type ≠ .free) :
    SysOk sb x' y' { s with proc := update s.proc p Q } := by
  have hsum := Table.sum_update (fun _ => Files.held) s.proc (Finset.mem_univ p) Q
  have hsum' := Table.sum_update (fun _ => Files.fds) s.proc (Finset.mem_univ p) Q
  have hheld : (s.proc p).held + Sys.held { s with proc := update s.proc p Q } =
      Q.held + s.held := by
    simp only [Sys.held]
    rw [add_left_comm, hsum, add_left_comm]
  refine { hs with ok := ?_, settled := ?_, refs := ?_ }
  · rw [add_eq_of_swap hheld hx]
    exact hs.ok
  · intro ip hip
    have hmem : ip ∈ Q.held + s.held := hheld ▸ mem_add.mpr (.inr hip)
    rcases mem_add.mp hmem with hmem | hmem
    · exact hsettled ip hmem
    · exact hs.settled ip hmem
  · intro f
    have hr := hs.refs f
    have hc := congrArg (count f) hsum'
    have hfds : Sys.fds { s with proc := update s.proc p Q } = ∑ j, (update s.proc p Q j).fds := rfl
    have hfds' : s.fds = ∑ j, (s.proc j).fds := rfl
    rw [count_add, count_add, ← hfds, ← hfds'] at hc
    have := hy f
    show (s.file f).ref = _
    omega

theorem SysOk.setFs (hs : SysOk sb x y s) (hok : Ok sb (x' + s.held) t) (hk : Keeps s.held s.fs t)
    (hd : Dirs sb (nodes sb t)) : SysOk sb x' y { s with fs := t } := by
  have hlock : ∀ f, ∀ ip ∈ (s.file f).held, (t.inode ip).valid = true ∧
      (t.inode ip).type = (s.fs.inode ip).type := by
    intro f ip hip
    exact (hk ip (mem_held_file hip)).2 (hs.locked f ip hip)
  refine ⟨hok, hs.settled.keeps hk, hd, hs.refs, hs.idle, fun f ip hip => (hlock f ip hip).1, ?_,
    hs.pipes⟩
  intro f ht hw
  have ht' : (s.file f).type = .inode := ht
  have hip : (s.file f).ip ∈ (s.file f).held := by simp [ht']
  rw [(hlock f _ hip).2]
  exact hs.plain f ht hw

/-! ## Code of the file system -/

theorem wp_fs {α : Type} {m : F α} {Q : α → Sys → Prop}
    (h : Wp E m s.fs fun a t => Q a { s with fs := t }) : Wp E (fs m) s Q := by
  unfold Wp at h ⊢
  unfold fs
  cases hm : m s.fs with
  | ok | error =>
    rw [hm] at h
    exact h

theorem held_subset : s.held ⊆ x + s.held := fun _ hip => mem_add.mpr (.inr hip)

/-- The parts of a call between which only the disk and the inode table change. -/
structure Moves (sb : Super) (x : Multiset Ip) (y : Fp → Int) (s s' : Sys) : Prop where
  ok : SysOk sb x y s'
  proc : s'.proc = s.proc
  changes : Changes (nodes sb s.fs) (nodes sb s'.fs)

theorem Moves.refl (hs : SysOk sb x y s) : Moves sb x y s s := ⟨hs, rfl, .refl⟩

theorem Moves.trans {s'' : Sys} (h1 : Moves sb x y s s') (h2 : Moves sb x' y' s' s'') :
    Moves sb x' y' s s'' :=
  ⟨h2.ok, h2.proc.trans h1.proc, h1.changes.trans h2.changes⟩

theorem iput_changes (ht : Ok sb (ip ::ₘ h) t) :
    Wp E (iput sb ip) t fun _ t' => Ok sb h t' ∧ Keeps h t t' ∧ Changes (nodes sb t) (nodes sb t') ∧
      (Borrowed sb h t ip → nodes sb t' = nodes sb t) := by
  refine (iput_spec ht).mono ?_
  rintro _ t' ⟨ht', hk, hn⟩
  refine ⟨ht', hk, ?_, fun hb => (hn.resolve_right fun hn => hn.1 hb).1.nodes_eq⟩
  rcases hn with ⟨hq, -⟩ | ⟨hb, hn⟩
  · exact .of_eq hq.nodes_eq
  · rw [hn]
    exact .single (.free _ (not_not.mp fun h0 => hb (.inr (.inr h0))))

theorem SysOk.put (hs : SysOk sb (ip ::ₘ x) y s) (ht : Ok sb (x + s.held) t)
    (hk : Keeps (x + s.held) s.fs t) (hc : Changes (nodes sb s.fs) (nodes sb t)) :
    Moves sb x y s { s with fs := t } :=
  ⟨hs.setFs ht (hk.of_subset held_subset) (hs.dirs.changes hc), rfl, hc⟩

theorem iput_sys (hs : SysOk sb (ip ::ₘ x) y s) :
    Wp E (fs (iput sb ip)) s fun _ s' => Moves sb x y s s' := by
  have hok : Ok sb (ip ::ₘ (x + s.held)) s.fs := by
    rw [← cons_add]
    exact hs.ok
  refine wp_fs ((iput_changes hok).mono ?_)
  rintro _ t ⟨ht, hk, hc, -⟩
  exact hs.put ht hk hc

theorem iunlockput_sys (hs : SysOk sb (ip ::ₘ x) y s) :
    Wp E (fs (iunlockput sb ip)) s fun _ s' => Moves sb x y s s' ∧
      (Borrowed sb (x + s.held) s.fs ip → nodes sb s'.fs = nodes sb s.fs) := by
  have hok : Ok sb (ip ::ₘ (x + s.held)) s.fs := by
    rw [← cons_add]
    exact hs.ok
  refine wp_fs (iunlockput_spec hok ((iput_changes hok).mono ?_))
  rintro _ t ⟨ht, hk, hc, hb⟩
  exact ⟨hs.put ht hk hc, hb⟩

theorem ilock_valid {Q : Unit → State → Prop} (ht : Ok sb h t) (hip : ip ∈ h)
    (hv : (t.inode ip).valid = true) (hQ : Q () t) : Wp E (ilock sb ip) t Q := by
  have hr := ht.ref_pos.mpr hip
  refine .bind (.get ?_)
  rw [if_neg (by omega), if_pos hv]
  exact .pure hQ

/-! ## file.c -/

theorem SysOk.file_ip (hs : SysOk sb x y s) (hf : (s.file f).ip ∈ (s.file f).held) :
    (s.file f).ip ∈ x + s.held ∧ (s.fs.inode (s.file f).ip).valid = true :=
  ⟨held_subset (mem_held_file hf), hs.locked f _ hf⟩

theorem File.mem_held {f : File} (h : f.type = .inode ∨ f.type = .device) : f.ip ∈ f.held := by
  rcases h with h | h <;> simp [h]

section

variable (hs : SysOk sb x y s)

include hs

theorem SysOk.count_le (hf : f ∈ s.fds) (hy : 0 ≤ y f) : 1 ≤ (s.file f).ref := by
  have h1 := hs.refs f
  have h2 := count_pos.mpr hf
  omega

theorem filealloc_spec : Wp E filealloc s fun r s' =>
      match r with
      | none => s' = s ∧ ∀ f, (s.file f).ref ≠ 0
      | some f => SysOk sb x (y + Pi.single f 1) s' ∧ s'.proc = s.proc ∧ s'.fs = s.fs ∧
        s'.held = s.held ∧ (s'.file f).ref = 1 ∧ (s'.file f).type = .none ∧
        (∀ f', f' ≠ f → s'.file f' = s.file f') ∧ (s.file f).ref = 0 := by
  refine .bind (.get ?_)
  cases hf : (List.finRange nfile).find? fun f => (s.file f).ref = 0 with
  | none => grind [Wp.pure]
  | some f =>
    have hr : (s.file f).ref = 0 := by simpa using List.find?_some hf
    have ht := hs.idle f hr
    refine .bind (.modify (.pure ⟨?_, rfl, rfl, held_setFile rfl, ?_, ?_, ?_, hr⟩))
    · exact hs.setRef (by rw [hr]; rfl) (fun _ => ht)
    · simp
    · simpa using ht
    · grind

theorem filedup_spec (hr : 1 ≤ (s.file f).ref) :
    Wp E (filedup f) s fun _ s' => SysOk sb x (y + Pi.single f 1) s' ∧ s'.proc = s.proc ∧
      s'.fs = s.fs := by
  refine .bind (.get ?_)
  rw [if_neg (by omega)]
  exact .modify ⟨hs.setRef (by simp) fun h0 => by omega, rfl, rfl⟩

theorem SysOk.closeFile (hr : (s.file f).ref = 1)
    (hpipes : Pipes (update (fun f => (s.file f).pipeEnd) f none) pipe s.npipe) :
    SysOk sb ((s.file f).held + x) (y - Pi.single f 1)
      { s with
        file := update s.file f { s.file f with ref := 0, type := .none }
        pipe := pipe } := by
  apply hs.setFilePipe
  · simp
  · rw [hr, sub_eq_add_neg, ← Pi.single_neg]
    rfl
  · intro _
    rfl
  · intro ip hip
    simp at hip
  · intro ht
    cases ht
  · simpa [File.pipeEnd] using hpipes

theorem SysOk.pipes_none (ht : (s.file f).type ≠ .pipe) :
    Pipes (update (fun f => (s.file f).pipeEnd) f none) s.pipe s.npipe := by
  have h0 : (s.file f).pipeEnd = none := if_neg ht
  rw [← h0, update_eq_self f fun f => (s.file f).pipeEnd]
  exact hs.pipes

theorem fileclose_spec (hr : 1 ≤ (s.file f).ref) :
    Wp E (fileclose sb f) s fun _ s' => Moves sb x (y - Pi.single f 1) s s' := by
  refine .bind (.get ?_)
  rw [if_neg (by omega)]
  refine .ite (fun hlast => ?_) fun hlast => ?_
  · refine .modify ⟨hs.setRef ?_ fun h0 => by omega, rfl, .refl⟩
    simp [sub_eq_add_neg, Pi.single_neg]
  · have h1 : (s.file f).ref = 1 := by omega
    refine .bind (.modify ?_)
    have hput (hf : (s.file f).held = {(s.file f).ip}) (ht : (s.file f).type ≠ .pipe) :
        Wp E (fs (iput sb (s.file f).ip))
          { s with file := update s.file f { s.file f with ref := 0, type := .none } }
          fun _ s' => Moves sb x (y - Pi.single f 1) s s' := by
      have h2 := hs.closeFile h1 (hs.pipes_none ht)
      rw [hf, singleton_add] at h2
      refine (iput_sys h2).mono ?_
      intro _ s' hm
      exact { hm with }
    cases ht : (s.file f).type with
    | none =>
      have h2 := hs.closeFile h1 (hs.pipes_none (by simp [ht]))
      simp only [File.held, ht, zero_add] at h2
      exact .pure ⟨h2, rfl, .refl⟩
    | pipe =>
      have h2 := hs.closeFile h1 (hs.pipes.close (if_pos ht))
      simp only [File.held, ht, zero_add] at h2
      exact .modify ⟨h2, rfl, .refl⟩
    | inode | device => exact hput (by simp [ht]) (by simp [ht])

theorem fileclose_fresh (hr : (s.file f).ref = 1) (ht : (s.file f).type = .none) :
    Wp E (fileclose sb f) s fun _ s' => SysOk sb x (y - Pi.single f 1) s' ∧ s'.proc = s.proc ∧
      s'.fs = s.fs ∧ s'.held = s.held := by
  have h2 := hs.closeFile hr (hs.pipes_none (by simp [ht]))
  simp only [File.held, ht, zero_add] at h2
  refine .bind (.get ?_)
  rw [if_neg (by omega), if_neg (by omega), ht]
  refine .bind (.modify (.pure ⟨h2, rfl, rfl, held_setFile ?_⟩))
  simp only [File.held, ht]

end

theorem filestat_spec {ok : Bool} (hs : SysOk sb x y s) :
    Wp E (filestat sb f ok) s fun _ s' => s' = s := by
  refine .bind (.get ?_)
  have hstat (ht : (s.file f).type = .inode ∨ (s.file f).type = .device) : Wp E (do
        fs (ilock sb (s.file f).ip)
        let st ← fs (stati (s.file f).ip)
        fs (iunlock (s.file f).ip)
        if ok then return some st else return none) s fun _ s' => s' = s := by
    obtain ⟨hip, hv⟩ := hs.file_ip (File.mem_held ht)
    refine .bind (wp_fs (ilock_valid hs.ok hip hv ?_))
    refine .bind (wp_fs (.bind (.get (.pure ?_))))
    refine .bind (wp_fs (iunlock_spec hs.ok hip ?_))
    split <;> exact .pure rfl
  dsimp only
  cases ht : (s.file f).type with
  | none | pipe => exact .pure rfl
  | inode => exact hstat (.inl ht)
  | device => exact hstat (.inr ht)

theorem advance_spec (hs : SysOk sb x y s) (r : Int) :
    Wp E (advance f r) s fun _ s' => SysOk sb x y s' ∧ s'.proc = s.proc ∧ s'.fs = s.fs ∧
      ∃ off, s'.file f = { s.file f with off := off } := by
  unfold advance
  split
  · exact .modify ⟨hs.setRef (by simp) (hs.idle f), rfl, rfl, (s.file f).off + r.toNat, by simp⟩
  · grind [Wp.pure]

theorem fileread_spec {ok : Nat → Nat → Bool} {other : Int} (hE : E .fileread)
    (hs : SysOk sb x y s) :
    Wp E (fileread sb f ok n other) s fun _ s' => SysOk sb x y s' ∧ s'.proc = s.proc ∧
      s'.fs = s.fs := by
  refine .bind (.get ?_)
  dsimp only
  split
  · exact .pure ⟨hs, rfl, rfl⟩
  cases ht : (s.file f).type with
  | none => exact .of_error rfl hE
  | pipe => exact .pure ⟨hs, rfl, rfl⟩
  | device => grind [Wp.pure]
  | inode =>
    obtain ⟨hip, hv⟩ := hs.file_ip (File.mem_held (.inl ht))
    refine .bind (wp_fs (ilock_valid hs.ok hip hv ?_))
    refine .bind (wp_fs ((readi_spec hs.ok hip hv ok).mono ?_))
    rintro ⟨r, bytes⟩ t ⟨rfl, -⟩
    refine (advance_spec hs r).seq ?_
    rintro _ s1 ⟨hs1, hp1, hf1, -⟩
    have hok1 : Ok sb (x + s.held) s1.fs := by
      rw [hf1]
      exact hs.ok
    exact .bind (wp_fs (iunlock_spec hok1 hip (.pure ⟨hs1, hp1, hf1⟩)))

theorem Writes.changes {t' : State} {i off n tot : Nat} (hw : Writes sb h i src off n tot t t')
    (ht : (nodes sb t i).type ≠ .dir) : Changes (nodes sb t) (nodes sb t') := by
  obtain ⟨w, -, -, hn, -⟩ := hw.nodes_eq
  rw [hn]
  exact .single (.content i _ ht rfl rfl)

theorem filewriteLoop_spec (fuel : Nat) :
    ∀ s i, SysOk sb x y s → (s.file f).type = .inode → (s.file f).writable = true →
      Wp E (filewriteLoop sb f src n fuel i) s fun _ s' => Moves sb x y s s' := by
  induction fuel with
  | zero =>
    intro s i hs _ _
    exact .pure (.refl hs)
  | succ fuel ih =>
    intro s i hs ht hw
    unfold filewriteLoop
    by_cases hin : i < n
    swap
    · rw [if_neg hin]
      exact .pure (.refl hs)
    rw [if_pos hin]
    obtain ⟨hip, hv⟩ := hs.file_ip (File.mem_held (.inl ht))
    have hdir : (nodes sb s.fs (s.fs.inode (s.file f).ip).inum).type ≠ .dir := by
      rw [(hs.ok.node_eq hip hv).1]
      exact hs.plain f ht hw
    refine .bind (.get ?_)
    refine .bind (wp_fs (ilock_valid hs.ok hip hv ?_))
    -- the rest of the iteration, after `writei`
    have hrest : ∀ (r : Int) (t : State), SysOk sb x y { s with fs := t } →
        Changes (nodes sb s.fs) (nodes sb t) →
        Wp E (do
          advance f r
          fs (iunlock (s.file f).ip)
          if r ≠ min (n - i) maxWrite then return i
            else filewriteLoop sb f src n fuel (i + r.toNat)) { s with fs := t }
          fun _ s' => Moves sb x y s s' := by
      intro r t h1 hc
      refine (advance_spec h1 r).seq ?_
      rintro _ s2 ⟨hs2, hp2, hf2, off, ho2⟩
      have hok2 : Ok sb (x + s.held) s2.fs := by
        rw [hf2]
        exact h1.ok
      have hm : Moves sb x y s s2 := by
        refine ⟨hs2, hp2, ?_⟩
        rw [hf2]
        exact hc
      refine .bind (wp_fs (iunlock_spec hok2 hip ?_))
      split
      · exact .pure hm
      · refine (ih s2 _ hs2 (by rw [ho2]; exact ht) (by rw [ho2]; exact hw)).mono ?_
        intro _ s3 h3
        exact hm.trans h3
    refine .bind (wp_fs ((writei_spec hs.ok hip hv).mono ?_))
    rintro r t (⟨-, -, rfl⟩ | ⟨tot, rfl, -, hwr⟩)
    · exact hrest r _ hs .refl
    · have hc := hwr.changes hdir
      exact hrest tot t
        (hs.setFs hwr.ok (hwr.keeps.of_subset held_subset) (hs.dirs.changes hc)) hc

theorem filewrite_spec {other : Int} (hE : E .filewrite) (hs : SysOk sb x y s) :
    Wp E (filewrite sb f src n other) s fun _ s' => Moves sb x y s s' := by
  refine .bind (.get ?_)
  dsimp only
  split
  · exact .pure (.refl hs)
  rename_i hw
  cases ht : (s.file f).type with
  | none => exact .of_error rfl hE
  | pipe => exact .pure (.refl hs)
  | device =>
    dsimp only
    split <;> exact .pure (.refl hs)
  | inode =>
    refine (filewriteLoop_spec _ s 0 hs ht (by simpa using hw)).seq ?_
    intro i s' hm
    split <;> exact .pure hm

theorem SysOk.setPipe (hs : SysOk sb x y s) (rd : Bool) (ht : (s.file f).type = .none)
    (hr : (s.file f).ref ≠ 0) {wr : Bool} {pi : Nat} {npipe : Nat}
    (hpipes : Pipes (update (fun f => (s.file f).pipeEnd) f (some (pi, wr))) pipe npipe) :
    SysOk sb x y
      { s with
        file := update s.file f
          { s.file f with type := .pipe, readable := rd, writable := wr, pipe := pi }
        pipe := pipe
        npipe := npipe } := by
  apply hs.setFilePipe
  · simp [ht]
  · simp
  · intro h0
    exact absurd h0 hr
  · intro ip hip
    simp at hip
  · intro h
    cases h
  · simpa [File.pipeEnd] using hpipes

theorem pipealloc_spec {page : Bool} (hs : SysOk sb x y s) (hy : ∀ f, 0 ≤ y f) :
    Wp E (pipealloc sb page) s fun r s' =>
      match r with
      | none => Moves sb x y s s'
      | some (f0, f1) => Moves sb x (y + Pi.single f0 1 + Pi.single f1 1) s s' := by
  refine (filealloc_spec hs).seq ?_
  rintro (_ | f0) s1 h1
  · obtain ⟨rfl, -⟩ := h1
    exact .pure (.refl hs)
  obtain ⟨hs1, hp1, hf1, -, hr1, ht1, -⟩ := h1
  have hm1 : Moves sb x (y + Pi.single f0 1) s s1 := ⟨hs1, hp1, .of_eq (by rw [hf1])⟩
  refine (filealloc_spec hs1).seq ?_
  rintro (_ | f1) s2 h2
  · obtain ⟨rfl, -⟩ := h2
    refine (fileclose_spec hs1 (by omega)).seq ?_
    intro _ s3 hm3
    rw [add_sub_cancel_right] at hm3
    exact .pure (hm1.trans hm3)
  obtain ⟨hs2, hp2, hf2, -, hr2, ht2, ho2, -⟩ := h2
  have hm2 := hm1.trans ⟨hs2, hp2, .of_eq (by rw [hf2])⟩
  have hne : f0 ≠ f1 := by grind [hs2.refs, Pi.add_apply, Pi.single_eq_same, Sys.fds]
  have hr0 : (s2.file f0).ref = 1 := by rw [ho2 f0 hne, hr1]
  have ht0 : (s2.file f0).type = .none := by rw [ho2 f0 hne, ht1]
  dsimp only
  refine .ite (fun hpage => ?_) fun hpage => ?_
  · refine .bind (.get (.bind (.set ?_)))
    have hend : ∀ {u : Sys} {g : Fp}, (u.file g).type = .none → (u.file g).pipeEnd = none :=
      fun hg => if_neg (by simp [hg])
    -- first with the read end only
    have h3 := hs2.setPipe (f := f0) true ht0 (by omega) (hs2.pipes.openRead (hend ht0))
    have ht1 : ((update s2.file f0
        { s2.file f0 with type := .pipe, readable := true, writable := false, pipe := s2.npipe })
        f1).type = .none := by grind
    have h4 := h3.setPipe (f := f1) false ht1
      (by dsimp only; rw [update_of_ne hne.symm]; omega)
      (h3.pipes.openWrite (Nat.lt_succ_self _) (hend ht1) (update_self ..))
    rw [update_idem] at h4
    exact .bind (.modify (.bind (.modify (.pure ⟨h4, hm2.proc, hm2.changes⟩))))
  · refine (fileclose_spec (f := f0) hs2 (by omega)).seq ?_
    intro _ s3 hm3
    have hr3 : 1 ≤ (s3.file f1).ref := by
      grind [hm3.ok.refs, Pi.add_apply, Pi.sub_apply, Pi.single_eq_same, Pi.single_eq_of_ne]
    refine (fileclose_spec hm3.ok hr3).seq ?_
    intro _ s4 hm4
    have hy4 : y + Pi.single f0 1 + Pi.single f1 1 - Pi.single f0 1 - Pi.single f1 1 = y := by grind
    rw [hy4] at hm4
    exact .pure ((hm2.trans hm3).trans hm4)

end Xv6.Fs
