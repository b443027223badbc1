import Xv6.Fs.DirSpec

/-!
# Path names

`namex` walks the tree of directories: `walk` is this on inodes without the inode table, and
`namex_spec` says that `namex` does it, changes no inode, and leaves the caller with one more
reference.
-/

namespace Xv6.Fs

open ByteMem Multiset

variable {sb : Super} {E : Stop → Prop} {h : Multiset Ip} {s s' : State} {ip cwd : Ip}
  {parent : Bool} {path name rest : Name} {i d : Nat}

abbrev Tree := Nat → Node

def Dirs (sb : Super) (t : Tree) : Prop := ∀ i, (t i).type = .dir → (t i).IsDir sb

def Intact (t : Tree) : Prop :=
  ∀ i, (t i).type = .dir → ∀ k, k < (t i).slots → ((t i).dirent k).inum ≠ 0 →
    (t ((t i).dirent k).inum).type ≠ .free

/-- The inode at the end of a path from inode `i`, or the directory of its last element. -/
def walk (t : Tree) (parent : Bool) : Nat → Nat → Name → Option (Nat × Name)
  | 0, _, _ => none
  | fuel + 1, i, path =>
    match skipelem path with
    | none => if parent then none else some (i, [])
    | some (name, rest) =>
      if (t i).type ≠ .dir then none
      else if parent && rest.isEmpty then some (i, name)
      else
        match (t i).lookup name with
        | none => none
        | some k => walk t parent fuel ((t i).dirent k).inum rest

/-- The inode that a path means in a process with current directory `cwd`. -/
def resolve (t : Tree) (parent : Bool) (cwd : Nat) (path : Name) : Option (Nat × Name) :=
  walk t parent (path.length + 1) (if path.head? = some slash then rootino else cwd) path

def Alike (t t' : Tree) : Prop :=
  ∀ i, (t' i).type = (t i).type ∧ (t' i).size = (t i).size ∧ (t' i).data = (t i).data

section Alike

variable {t t' : Tree} (ha : Alike t t')

include ha

theorem Alike.slots (i : Nat) : (t' i).slots = (t i).slots := by
  rw [Node.slots, Node.slots, (ha i).2.1]

theorem Alike.dirent (i k : Nat) : (t' i).dirent k = (t i).dirent k := by
  rw [Node.dirent, Node.dirent, Node.bytes, Node.bytes, (ha i).2.2]

theorem Alike.lookup (i : Nat) (name : Name) : (t' i).lookup name = (t i).lookup name := by
  simp only [Node.lookup, ha.slots, ha.dirent]

theorem Alike.dirs (hd : Dirs sb t) : Dirs sb t' := by
  intro i hi
  obtain ⟨ht, hs, hn⟩ := hd i ((ha i).1 ▸ hi)
  refine ⟨hi, (ha i).2.1 ▸ hs, ?_⟩
  intro k hk
  rw [ha.dirent]
  exact hn k (ha.slots i ▸ hk)

theorem Alike.intact (hd : Intact t) : Intact t' := by
  intro i hi k hk h0
  rw [ha.dirent] at h0 ⊢
  rw [(ha _).1]
  exact hd i ((ha i).1 ▸ hi) k (ha.slots i ▸ hk) h0

theorem Alike.walk (fuel : Nat) :
    ∀ i path, walk t' parent fuel i path = walk t parent fuel i path := by
  induction fuel with
  | zero => intro i path; rfl
  | succ _ ih =>
    intro i path
    simp only [Fs.walk, (ha i).1, ha.lookup, ha.dirent, ih]

theorem Alike.resolve (cwd : Nat) (path : Name) :
    resolve t' parent cwd path = resolve t parent cwd path :=
  ha.walk _ _ _

end Alike

/-! ## Elements -/

theorem skipelem_ok (hp : ∀ b ∈ path, b ≠ 0) (he : skipelem path = some (name, rest)) :
    NameOk name ∧ ∀ b ∈ rest, b ≠ 0 := by
  have hsub : ∀ b ∈ path.dropWhile (· = slash), b ≠ 0 :=
    fun b hb => hp b ((List.dropWhile_sublist _).subset hb)
  unfold skipelem at he
  split at he
  · cases he
  · next c rest' hc =>
    rw [hc] at hsub
    obtain ⟨rfl, rfl⟩ := he
    refine ⟨⟨?_, ?_⟩, ?_⟩
    · intro b hb
      exact hsub b ((List.takeWhile_sublist _).subset (List.mem_of_mem_take hb))
    · simp
    · intro b hb
      exact hsub b ((List.dropWhile_sublist _).subset ((List.dropWhile_sublist _).subset hb))

theorem skipelem_length (he : skipelem path = some (name, rest)) : rest.length < path.length := by
  have hlen := (List.dropWhile_sublist (p := (· = slash)) (l := path)).length_le
  unfold skipelem at he
  split at he
  · cases he
  · next c rest' hc =>
    rw [hc] at hlen
    obtain ⟨-, rfl⟩ := he
    have hc' : c ≠ slash := by
      intro e
      have := List.head?_dropWhile_not (fun b : Byte => decide (b = slash)) path
      simp [hc, e] at this
    rw [List.dropWhile_cons_of_pos (by simpa using hc')]
    have h1 := (List.dropWhile_sublist (p := (· ≠ slash)) (l := rest')).length_le
    have h2 := (List.dropWhile_sublist (p := (· = slash)) (l := rest'.dropWhile (· ≠ slash))).length_le
    simp only [List.length_cons] at hlen
    omega

theorem walk_parent {t : Tree} (fuel : Nat) :
    ∀ i path, (∀ b ∈ path, b ≠ 0) → walk t true fuel i path = some (d, name) →
      (t d).type = .dir ∧ NameOk name := by
  induction fuel with
  | zero => intro i path _ hw; cases hw
  | succ _ ih =>
    intro i path hp hw
    unfold walk at hw
    cases he : skipelem path with
    | none => simp [he] at hw
    | some p =>
      obtain ⟨hname, hrest⟩ := skipelem_ok hp he
      rw [he] at hw
      dsimp only at hw
      split at hw
      · cases hw
      · next htype =>
        split at hw
        · obtain ⟨rfl, rfl⟩ := hw
          exact ⟨not_not.mp htype, hname⟩
        · split at hw
          · cases hw
          · exact ih _ _ hrest hw

theorem Intact.walk {t : Tree} (ht : Intact t) (fuel : Nat) :
    ∀ i path, (t i).type ≠ .free → walk t parent fuel i path = some (d, name) →
      (t d).type ≠ .free := by
  induction fuel with
  | zero => intro i path _ hw; cases hw
  | succ _ ih =>
    intro i path hi hw
    unfold Fs.walk at hw
    split at hw
    · split at hw
      · cases hw
      · cases hw
        exact hi
    · split at hw
      · cases hw
      · next htype =>
        split at hw
        · cases hw
          exact hi
        · split at hw
          · cases hw
          · next k hl =>
            obtain ⟨hk, ⟨h0, -⟩, -⟩ := Node.lookup_eq_some.mp hl
            exact ih _ _ (ht i (not_not.mp htype) k hk h0) hw

/-! ## namex -/

/-- What `namex` has done when it returns `r`, where `w` is the result of the walk. -/
def Walked (sb : Super) (h : Multiset Ip) (s : State) (w : Option (Nat × Name))
    (r : Option (Ip × Name)) (s' : State) : Prop :=
  match r with
  | none => w = none ∧ Ok sb h s' ∧ Quiet sb h s s'
  | some (ip, name) => w = some ((s'.inode ip).inum, name) ∧ Ok sb (ip ::ₘ h) s' ∧
    Quiet sb h s s' ∧ Borrowed sb h s' ip

theorem Walked.quiet {w : Option (Nat × Name)} {r : Option (Ip × Name)} {s'' : State}
    (hq : Quiet sb h s s') (hw : Walked sb h s' w r s'') : Walked sb h s w r s'' := by
  cases r with
  | none => exact ⟨hw.1, hw.2.1, hq.trans hw.2.2⟩
  | some => exact ⟨hw.1, hw.2.1, hq.trans hw.2.2.1, hw.2.2.2⟩

theorem namexLoop_spec (hE : Crowded h → E .iget) (parent : Bool) (fuel : Nat) :
    ∀ (s : State) (ip : Ip) (path : Name), path.length < fuel → Ok sb (ip ::ₘ h) s →
      Borrowed sb h s ip → Dirs sb (nodes sb s) →
      (E .ilockNoType ∨ Intact (nodes sb s) ∧ (nodes sb s (s.inode ip).inum).type ≠ .free) →
      Wp E (namexLoop sb parent fuel ip path) s
        (Walked sb h s (walk (nodes sb s) parent fuel (s.inode ip).inum path)) := by
  induction fuel with
  | zero => intro s ip path hlen; exact absurd hlen (Nat.not_lt_zero _)
  | succ fuel ih =>
    intro s ip path hlen hs hb hd hnt
    have hmem := mem_cons_self ip h
    unfold namexLoop
    cases he : skipelem path with
    | none =>
      cases parent with
      | true =>
        refine (iput_borrowed hs hb).seq ?_
        rintro _ s' ⟨hok, hq⟩
        refine .pure ⟨?_, hok, hq⟩
        simp [walk, he]
      | false =>
        refine .pure ⟨?_, hs, .refl, hb⟩
        simp [walk, he]
    | some p =>
      obtain ⟨name, rest⟩ := p
      have hrest := skipelem_length he
      have hwalk : walk (nodes sb s) parent (fuel + 1) (s.inode ip).inum path =
          if (nodes sb s (s.inode ip).inum).type ≠ .dir then none
          else if parent && rest.isEmpty then some ((s.inode ip).inum, name)
          else
            match (nodes sb s (s.inode ip).inum).lookup name with
            | none => none
            | some k => walk (nodes sb s) parent fuel
                ((nodes sb s (s.inode ip).inum).dirent k).inum rest := by
        simp only [walk, he]
      rw [hwalk]
      refine (ilock_spec hs hmem fun hfree => ?_).seq ?_
      · rcases hnt with hnt | ⟨-, hnt⟩
        · exact hnt
        · exact absurd hfree hnt
      rintro _ s1 ⟨hs1, hq1, hv1⟩
      have hb1 := hb.quiet hq1
      have hi1 := (hq1.keeps ip hmem).1
      have ht1 := (hs1.node_eq hmem hv1).1
      rw [← hq1.nodes_eq, ← hi1] at hnt ⊢
      rw [← hq1.nodes_eq] at hd
      refine .bind (.get ?_)
      rw [← ht1]
      -- the directory is given up
      have hgive : ∀ s2, Ok sb (ip ::ₘ h) s2 → Quiet sb (ip ::ₘ h) s1 s2 →
          Wp E (iunlockput sb ip >>= fun _ => pure none) s2 (Walked sb h s none) := by
        intro s2 hs2 hq2
        refine (iunlockput_borrowed hs2 (hb1.quiet hq2)).seq ?_
        rintro _ s3 ⟨hok, hq3⟩
        exact .pure ⟨rfl, hok, (hq1.trans hq2).of_cons.trans hq3⟩
      by_cases htype : (nodes sb s1 (s1.inode ip).inum).type ≠ .dir
      · rw [if_pos htype, if_pos htype]
        exact hgive s1 hs1 .refl
      rw [if_neg htype, if_neg htype]
      by_cases hlast : (parent && rest.isEmpty) = true
      · rw [if_pos hlast, if_pos hlast]
        refine .bind (iunlock_spec hs1 hmem (.pure ?_))
        exact ⟨rfl, hs1, hq1.of_cons, hb1⟩
      rw [if_neg hlast, if_neg hlast]
      have hdir := hd _ (not_not.mp htype)
      refine (dirlookup_spec (fun hfull => hE ⟨ip, hfull⟩) hs1 hmem hv1 hdir).seq ?_
      rintro (_ | ⟨next, off⟩) s2 hr
      · obtain ⟨hl, rfl⟩ := hr
        rw [hl]
        exact hgive s2 hs1 .refl
      · obtain ⟨k, hl, -, hs2, hq2, hi2⟩ := hr
        rw [hl]
        obtain ⟨hk, ⟨h0, -⟩, -⟩ := Node.lookup_eq_some.mp hl
        have hbn : Borrowed sb h s2 next := (hb1.quiet hq2).of_cons (hs1.borrowed hs2 hq2)
        rw [cons_swap] at hs2
        refine (iunlockput_borrowed hs2 ((hb1.quiet hq2).cons next)).seq ?_
        rintro _ s3 ⟨hs3, hq3⟩
        have hi3 := (hq3.keeps next (mem_cons_self next h)).1
        have hn3 : nodes sb s3 = nodes sb s1 := hq3.nodes_eq.trans hq2.nodes_eq
        have hq : Quiet sb h s s3 := (hq1.trans hq2).of_cons.trans hq3.of_cons
        refine (ih s3 next rest (by omega) hs3 (hbn.quiet hq3) (hn3 ▸ hd) ?_).mono ?_
        · refine hnt.imp_right fun hnt => ⟨hn3 ▸ hnt.1, ?_⟩
          rw [hn3, hi3, hi2]
          exact hnt.1 _ (not_not.mp htype) k hk h0
        · intro r s4 hw
          rw [hn3, hi3, hi2] at hw
          exact hw.quiet hq

theorem namexStart_spec (hE : Crowded h → E .iget) (hs : Ok sb h s) (hcwd : cwd ∈ h) :
    Wp E (namexStart cwd path) s fun ip s' => Ok sb (ip ::ₘ h) s' ∧ Quiet sb h s s' ∧
      Borrowed sb h s' ip ∧ (s'.inode ip).inum =
        if path.head? = some slash then rootino else (s.inode cwd).inum := by
  unfold namexStart
  split
  · have hE' : (∀ ip, ip ∈ h) → E .iget := fun hfull => hE ⟨cwd, fun ip => mem_cons_of_mem (hfull ip)⟩
    refine (iget_spec hE' hs ⟨Nat.le_refl _, sb.rootino_lt⟩).mono ?_
    rintro ip s' ⟨hok, hq, hi⟩
    exact ⟨hok, hq, hs.borrowed hok hq, hi⟩
  · refine (idup_spec hs hcwd).mono ?_
    rintro ip s' ⟨rfl, hok, hq⟩
    exact ⟨hok, hq, .inl hcwd, (hq.keeps ip hcwd).1⟩

/-- Lookups in a tree meet no free inode, or stop with a panic. -/
def Reaches (sb : Super) (E : Stop → Prop) (s : State) (cwd : Ip) : Prop :=
  E .ilockNoType ∨ Intact (nodes sb s) ∧ (nodes sb s rootino).type ≠ .free ∧
    (nodes sb s (s.inode cwd).inum).type ≠ .free

theorem Reaches.resolve (hnt : Reaches sb E s cwd)
    (hw : resolve (nodes sb s) parent (s.inode cwd).inum path = some (d, name)) :
    (nodes sb s d).type = .free → E .ilockNoType := by
  intro hfree
  rcases hnt with hnt | ⟨hint, hroot, hc⟩
  · exact hnt
  · refine absurd hfree (hint.walk _ _ _ ?_ hw)
    split
    · exact hroot
    · exact hc

theorem Reaches.alike (hnt : Reaches sb E s cwd) (ha : Alike (nodes sb s) (nodes sb s'))
    (hi : (s'.inode cwd).inum = (s.inode cwd).inum) : Reaches sb E s' cwd := by
  refine hnt.imp_right fun ⟨hint, hroot, hc⟩ => ⟨ha.intact hint, ?_, ?_⟩
  · rwa [(ha _).1]
  · rwa [(ha _).1, hi]

section

variable (hE : Crowded h → E .iget) (hs : Ok sb h s) (hcwd : cwd ∈ h) (hd : Dirs sb (nodes sb s))
  (hnt : Reaches sb E s cwd)

include hE hs hcwd hd hnt

theorem namex_spec : Wp E (namex sb cwd path parent) s
      (Walked sb h s (resolve (nodes sb s) parent (s.inode cwd).inum path)) := by
  refine (namexStart_spec hE hs hcwd).seq ?_
  rintro ip s' ⟨hok, hq, hb, hi⟩
  rw [← hq.nodes_eq] at hd ⊢
  refine (namexLoop_spec hE parent _ s' ip path (Nat.lt_succ_self _) hok hb hd ?_).mono ?_
  · refine hnt.imp_right fun hnt => ?_
    rw [hq.nodes_eq, hi]
    refine ⟨hnt.1, ?_⟩
    split
    · exact hnt.2.1
    · exact hnt.2.2
  · intro r s'' hw
    rw [hi] at hw
    exact hw.quiet hq

theorem namei_spec : Wp E (namei sb cwd path) s fun r s' =>
      match r with
      | none => Ok sb h s' ∧ Quiet sb h s s'
      | some ip => Ok sb (ip ::ₘ h) s' ∧ Quiet sb h s s' ∧ Borrowed sb h s' ip ∧
        ∃ name, resolve (nodes sb s) false (s.inode cwd).inum path =
          some ((s'.inode ip).inum, name) := by
  refine (namex_spec hE hs hcwd hd hnt).seq ?_
  rintro (_ | ⟨ip, name⟩) s' hw
  · exact .pure hw.2
  · exact .pure ⟨hw.2.1, hw.2.2.1, hw.2.2.2, name, hw.1⟩

end

theorem lockPath_spec (hs : Ok sb (ip ::ₘ h) s) (hb : Borrowed sb h s ip)
    (hnt : (nodes sb s (s.inode ip).inum).type = .free → E .ilockNoType) :
    Wp E (ilock sb ip) s fun _ s' => Ok sb (ip ::ₘ h) s' ∧ Quiet sb (ip ::ₘ h) s s' ∧
      (s'.inode ip).valid = true ∧ Borrowed sb h s' ip := by
  refine (ilock_spec hs (mem_cons_self ip h) hnt).mono ?_
  rintro _ s' ⟨hok, hq, hv⟩
  exact ⟨hok, hq, hv, hb.quiet hq⟩

end Xv6.Fs
