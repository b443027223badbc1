import Xv6.Fs.Ownership

/-!
# Calls that fail

What `open`, `mkdir`, `mknod`, `link` and `unlink` leave of the tree when they return -1.
-/

namespace Xv6.Fs

open ByteMem Multiset

variable {sb : Super} {img : State} {s s' : Sys} {p : Slot} {c : Call}
variable {C : Sys → Slot → Call → Prop}

theorem Reach.shorts (h : Reach sb img C s) (hi : Image sb img) (hsh : Shorts (nodes sb img)) :
    Shorts (nodes sb s.fs) := by
  induction h with
  | boot h =>
    rw [((userinit_spec (E := fun _ => True) trivial hi).of_ok h).2]
    exact hsh
  | call h he _ hrun ih =>
    obtain ⟨hp, -⟩ := (Bool.and_eq_true _ _).mp he
    obtain ⟨cwd, hcwd⟩ := Option.isSome_iff_exists.mp hp
    exact ih.does ((call_spec (h.inv hi) (.any _) hcwd he).of_ok hrun).does

theorem emptyImage_shorts : Shorts (nodes sb (emptyImage sb)) := by
  rw [emptyImage_nodes]
  apply Shorts.update
  · intro i
    rfl
  · rfl

/-- A call that fails leaves every inode with its type, its links and its content, unless `open`
has no room for the file that it makes. -/
theorem failed_call_keeps_tree {r : Int} (h : Inv sb s) (hsh : Shorts (nodes sb s.fs))
    (hc : c.names = true) (he : c.enabled s p = true) (hrun : c.run sb p s = .ok (r, s')) :
    (r = -1 → nodes sb s'.fs = nodes sb s.fs) ↔ c.Roomy sb s p := by
  obtain ⟨hp, -⟩ := (Bool.and_eq_true _ _).mp he
  obtain ⟨cwd, hcwd⟩ := Option.isSome_iff_exists.mp hp
  have hdone := (call_spec h (.any _) hcwd he).of_ok hrun
  constructor
  · intro hsame
    by_contra hroom
    obtain ⟨hr, hne⟩ := hdone.made hroom
    exact hne (hsame hr)
  · intro hroom
    exact hdone.same hc hroom hsh

def createX : Call := .open (some ⟨[120], by decide, by decide⟩) 0x202

/-- A disk with four inodes, of which two can be given to new files. -/
def fewInodes : Super :=
  { smallSuper with ninodes := 4, rootino_lt := by decide, ninodes_le := by decide }

/-- Two directories have used all inodes, and a third inode is asked for. -/
theorem failed_call_keeps_tree_full : ∃ s s', Reach fewInodes (emptyImage fewInodes) anyCall s ∧
      createX.run fewInodes initproc s = .ok (-1, s') ∧
      nodes fewInodes s'.fs = nodes fewInodes s.fs := by
  let free : Fp := ⟨0, by decide⟩
  let fd : Fin nofile := ⟨0, by decide⟩
  have hrun : (runCalls fewInodes (emptyImage fewInodes)
      [(initproc, .mkdir (some ⟨[97], by decide, by decide⟩)),
        (initproc, .mkdir (some ⟨[98], by decide, by decide⟩))]).any
      (fun q => createX.check fewInodes initproc (fun s r _ => decide (r = -1 ∧
        createX.enabled s initproc = true ∧ (s.file free).ref = 0 ∧
        (s.proc initproc).ofile fd = none)) q.2) = true := by
    decide +kernel
  obtain ⟨s, r, s', hreach, hc, hp⟩ := runCalls_check hrun
  obtain ⟨hr, he, hf, hfd⟩ := of_decide_eq_true hp
  rw [hr] at hc
  have hi : Image fewInodes (emptyImage fewInodes) := emptyImage_image (by decide)
  exact ⟨s, s', hreach, hc, (failed_call_keeps_tree (hreach.inv hi)
    (hreach.shorts hi emptyImage_shorts) rfl he hc).mpr (fun _ _ _ => ⟨⟨free, hf⟩, ⟨fd, hfd⟩⟩) rfl⟩

/-- All descriptors refer to the root directory when a file is to be made: `open` returns -1, and
the file is there. -/
theorem failed_open_makes_file : ∃ s s', Reach smallSuper (emptyImage smallSuper) anyCall s ∧
      createX.run smallSuper initproc s = .ok (-1, s') ∧
      resolve (nodes smallSuper s.fs) false rootino [120] = none ∧
      resolve (nodes smallSuper s'.fs) false rootino [120] = some (2, []) ∧
      (nodes smallSuper s.fs 2).nlink = 0 ∧ (nodes smallSuper s'.fs 2).nlink = 1 := by
  have hrun : (runCalls smallSuper (emptyImage smallSuper)
      ((initproc, .open (some ⟨[46], by decide, by decide⟩) 0) ::
        List.replicate 15 (initproc, .dup 0))).any
      (fun q => createX.check smallSuper initproc (fun s r s' => decide (r = -1 ∧
        resolve (nodes smallSuper s.fs) false rootino [120] = none ∧
        resolve (nodes smallSuper s'.fs) false rootino [120] = some (2, []) ∧
        (nodes smallSuper s.fs 2).nlink = 0 ∧ (nodes smallSuper s'.fs 2).nlink = 1)) q.2) =
      true := by
    decide +kernel
  obtain ⟨s, r, s', hreach, hc, hp⟩ := runCalls_check hrun
  obtain ⟨hr, hp⟩ := of_decide_eq_true hp
  rw [hr] at hc
  exact ⟨s, s', hreach, hc, hp⟩

end Xv6.Fs
