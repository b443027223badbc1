import Xv6.Fs.Ownership

/-!
# Reference counts

Between calls `ref` of a file is the number of descriptors that refer to it, and `ref` of an inode
in the table is the number of files and current directories that refer to it.
-/

namespace Xv6.Fs

open Multiset

variable {sb : Super} {img : State} {s : Sys} {f : Fp} {ip : Ip}
variable {x : Multiset Ip}

/-- A file in use that refers to the entry `ip` of the inode table. -/
def File.RefersTo (x : File) (ip : Ip) : Prop :=
  0 < x.ref ∧ (x.type = .inode ∨ x.type = .device) ∧ x.ip = ip

instance (x : File) (ip : Ip) : Decidable (x.RefersTo ip) := inferInstanceAs (Decidable (_ ∧ _ ∧ _))

def File.IsEnd (x : File) (n : Nat) : Prop := 0 < x.ref ∧ x.type = .pipe ∧ x.pipe = n

structure RefsExact (s : Sys) : Prop where
  file : ∀ f, (s.file f).ref =
    (Finset.univ.filter fun q : Slot × Fin nofile => (s.proc q.1).ofile q.2 = some f).card
  inode : ∀ ip, (s.fs.inode ip).ref = (Finset.univ.filter fun f => (s.file f).RefersTo ip).card +
      (Finset.univ.filter fun p => (s.proc p).cwd = some ip).card
  /-- no inode has two entries in use -/
  uniq : ∀ ip ip', 0 < (s.fs.inode ip).ref → 0 < (s.fs.inode ip').ref →
    (s.fs.inode ip).inum = (s.fs.inode ip').inum → ip = ip'
  /-- the page of a pipe is freed when there is no end any more, and not before -/
  freed : ∀ n, n < s.npipe → ((s.pipe n).freed = true ↔ ¬∃ f, (s.file f).IsEnd n)
  alloc : ∀ f n, (s.file f).IsEnd n → n < s.npipe

theorem count_elim {α : Type} [DecidableEq α] (a : α) (o : Option α) :
    count a (o.elim 0 fun b => {b}) = if o = some a then 1 else 0 := by
  cases o with
  | none => simp
  | some => simp [count_singleton, eq_comm]

theorem count_fds (s : Sys) (f : Fp) : s.fds.count f =
    (Finset.univ.filter fun q : Slot × Fin nofile => (s.proc q.1).ofile q.2 = some f).card := by
  rw [Finset.card_filter, Fintype.sum_prod_type]
  unfold Sys.fds Files.fds
  simp only [count_sum', count_elim]

theorem SysOk.ref_nonneg (hs : SysOk sb x 0 s) (f : Fp) : 0 ≤ (s.file f).ref := by
  have h := hs.refs f
  rw [Pi.zero_apply] at h
  omega

theorem SysOk.ref_pos (hs : SysOk sb x 0 s) (hf : (s.file f).type ≠ .none) :
    0 < (s.file f).ref := by
  have h0 := hs.ref_nonneg f
  have h1 : (s.file f).ref ≠ 0 := fun h => hf (hs.idle f h)
  omega

theorem count_held (hs : SysOk sb x 0 s) (ip : Ip) : s.held.count ip =
    (Finset.univ.filter fun f => (s.file f).RefersTo ip).card +
      (Finset.univ.filter fun p => (s.proc p).cwd = some ip).card := by
  have hfile : ∀ f, count ip (s.file f).held = if (s.file f).RefersTo ip then 1 else 0 := by
    intro f
    have hpos := hs.ref_pos (f := f)
    cases ht : (s.file f).type with
    | none | pipe => simp [File.held, File.RefersTo, ht]
    | inode | device =>
      have hr : 0 < (s.file f).ref := hpos (by simp [ht])
      simp [File.held, File.RefersTo, ht, hr, count_singleton, eq_comm]
  rw [Finset.card_filter, Finset.card_filter]
  unfold Sys.held Files.held
  simp only [count_add, count_sum', count_elim, hfile]

theorem isEnd_iff (hs : SysOk sb x 0 s) (n : Nat) :
    (s.file f).IsEnd n ↔ ∃ w, (s.file f).pipeEnd = some (n, w) := by
  constructor
  · rintro ⟨-, ht, rfl⟩
    exact ⟨(s.file f).writable, if_pos ht⟩
  · rintro ⟨w, hw⟩
    unfold File.pipeEnd at hw
    split at hw
    · next ht =>
      cases hw
      exact ⟨hs.ref_pos (by simp [ht]), ht, rfl⟩
    · cases hw

theorem Inv.refsExact (h : Inv sb s) : RefsExact s := by
  have hs := h.ok
  refine ⟨?_, ?_, ?_, ?_, ?_⟩
  · intro f
    rw [hs.refs f, count_fds, Pi.zero_apply, zero_add]
  · intro ip
    rw [h.held_ok.refs ip, count_held hs ip]
    rfl
  · intro ip ip' h1 h2
    exact h.held_ok.uniq ip (h.held_ok.ref_pos.mp h1) ip' (h.held_ok.ref_pos.mp h2)
  · intro n hn
    have hread := hs.pipes.open_iff n false hn
    have hwrite := hs.pipes.open_iff n true hn
    rw [hs.pipes.freed_iff n hn, ← Bool.not_eq_true, ← Bool.not_eq_true]
    constructor
    · rintro ⟨hr, hw⟩ ⟨f, hf⟩
      obtain ⟨w, hw'⟩ := (isEnd_iff hs n).mp hf
      cases w with
      | false => exact hr (hread.mpr ⟨f, hw'⟩)
      | true => exact hw (hwrite.mpr ⟨f, hw'⟩)
    · intro hnone
      refine ⟨?_, ?_⟩
      · intro hr
        obtain ⟨f, hf⟩ := hread.mp hr
        exact hnone ⟨f, (isEnd_iff hs n).mpr ⟨_, hf⟩⟩
      · intro hw
        obtain ⟨f, hf⟩ := hwrite.mp hw
        exact hnone ⟨f, (isEnd_iff hs n).mpr ⟨_, hf⟩⟩
  · rintro f n ⟨-, ht, rfl⟩
    exact hs.pipes.below f _ _ (if_pos ht)

/-- Reference counts are exact in every state between calls. -/
theorem reference_counts_exact (hi : Image sb img) (h : Reach sb img anyCall s) : RefsExact s :=
  (h.inv hi).refsExact

/-- A pipe is made, its write end is duplicated, and a child inherits the descriptors and closes
the read end. -/
theorem reference_counts_exact_pipe : ∃ s, Reach smallSuper (emptyImage smallSuper) anyCall s ∧
      ((s.file ⟨0, by decide⟩).ref = 1 ∧ (s.file ⟨1, by decide⟩).ref = 4) ∧ RefsExact s := by
  have hrun : (runCalls smallSuper (emptyImage smallSuper)
      [(initproc, .pipe true true), (initproc, .dup 1), (initproc, .fork ⟨1, by decide⟩),
        (⟨1, by decide⟩, .close 0)]).any
      (fun q => (q.2.file ⟨0, by decide⟩).ref = 1 ∧ (q.2.file ⟨1, by decide⟩).ref = 4) = true := by
    decide +kernel
  obtain ⟨⟨rets, s⟩, hs, hp⟩ := (Option.any_eq_true _ _).mp hrun
  have hreach := runCalls_reach hs
  exact ⟨s, hreach, by simpa using hp, reference_counts_exact (emptyImage_image (by decide)) hreach⟩

end Xv6.Fs
