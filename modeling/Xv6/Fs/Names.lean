import Xv6.Fs.Ownership

/-!
# Paths as lists of names

The elements that `skipelem` takes from a path are its components, and `namei` and `nameiparent`
follow them in the tree of directories.
-/

namespace Xv6.Fs

open ByteMem Multiset

variable {sb : Super} {h : Multiset Ip} {s : State} {cwd : Ip} {path rest name : Name} {t : Tree}

def parts (path : Name) : List Name := (path.splitOn slash).filter (· ≠ [])

def components (path : Name) : List Name := (parts path).map (·.take dirsiz)

def elements : Nat → Name → List Name
  | 0, _ => []
  | fuel + 1, path =>
    match skipelem path with
    | none => []
    | some (name, rest) => name :: elements fuel rest

/-- Follow names from inode `i`: each is looked up in a directory. -/
def follow (t : Tree) : Nat → List Name → Option Nat
  | i, [] => some i
  | i, name :: names =>
    if (t i).type = .dir then
      ((t i).lookup name).bind fun k => follow t ((t i).dirent k).inum names
    else
      none

def followParent (t : Tree) (i : Nat) (names : List Name) : Option (Nat × Name) :=
  names.getLast?.bind fun last => (follow t i names.dropLast).bind fun d =>
    if (t d).type = .dir then some (d, last) else none

/-! ## Components -/

theorem not_of_dropWhile_cons {p : Byte → Bool} {l rest : List Byte} {c : Byte}
    (h : l.dropWhile p = c :: rest) : p c = false := by
  have := List.head?_dropWhile_not p l
  rwa [h] at this

theorem parts_slash (path : Name) : parts (slash :: path) = parts path := by
  simp [parts, List.splitOn_cons_eq_if_modifyHead]

theorem parts_dropWhile (path : Name) : parts (path.dropWhile (· = slash)) = parts path := by
  induction path with
  | nil => rfl
  | cons c path ih =>
    by_cases hc : c = slash
    · rw [List.dropWhile_cons_of_pos (by simpa using hc), ih, hc, parts_slash]
    · rw [List.dropWhile_cons_of_neg (by simpa using hc)]

theorem parts_word {c : Byte} (hc : c ≠ slash) (path : Name) :
    parts (c :: path) = (c :: path).takeWhile (· ≠ slash) ::
      parts ((c :: path).dropWhile (· ≠ slash)) := by
  have hw : slash ∉ (c :: path).takeWhile (· ≠ slash) := by
    intro hmem
    simpa using List.all_eq_true.mp List.all_takeWhile _ hmem
  have hne : (c :: path).takeWhile (· ≠ slash) ≠ [] := by simp [hc]
  have happ := List.takeWhile_append_dropWhile (p := (· ≠ slash)) (l := c :: path)
  cases hd : (c :: path).dropWhile (· ≠ slash) with
  | nil =>
    rw [hd, List.append_nil] at happ
    rw [happ] at hw hne ⊢
    simp [parts, List.splitOn_eq_singleton hw]
  | cons d rest =>
    have hslash : d = slash := by simpa using not_of_dropWhile_cons hd
    rw [hd, hslash] at happ
    rw [hslash, parts_slash]
    conv_lhs => rw [← happ, parts, List.splitOn_append_cons_self_of_not_mem hw]
    rw [List.filter_cons_of_pos (by simpa using hne), parts]

theorem skipelem_components (path : Name) : skipelem path = none ∧ components path = [] ∨
    ∃ name rest, skipelem path = some (name, rest) ∧ components path = name :: components rest ∧
      (rest = [] ↔ components rest = []) := by
  unfold components skipelem
  rw [← parts_dropWhile path]
  cases hd : path.dropWhile (· = slash) with
  | nil => exact .inl ⟨rfl, rfl⟩
  | cons c rest =>
    have hc : c ≠ slash := by simpa using not_of_dropWhile_cons hd
    refine .inr ⟨_, _, rfl, ?_, ?_⟩
    · rw [parts_word hc, List.map_cons, parts_dropWhile]
    · cases hd' : ((c :: rest).dropWhile (· ≠ slash)).dropWhile (· = slash) with
      | nil => simp [parts]
      | cons d =>
        have hd : d ≠ slash := by simpa using not_of_dropWhile_cons hd'
        simp [parts_word hd]

theorem elements_eq (fuel : Nat) : ∀ path : Name, path.length < fuel →
    elements fuel path = components path := by
  induction fuel with
  | zero => intro path hlen; exact absurd hlen (Nat.not_lt_zero _)
  | succ fuel ih =>
    intro path hlen
    unfold elements
    rcases skipelem_components path with ⟨he, hc⟩ | ⟨name, rest, he, hc, -⟩
    · rw [he, hc]
    · have := skipelem_length he
      rw [he, hc, ← ih rest (by omega)]

/-! ## The walk -/

theorem followParent_cons (i : Nat) (name : Name) {names : List Name} (h : names ≠ []) :
    followParent t i (name :: names) = if (t i).type = .dir then
      ((t i).lookup name).bind fun k => followParent t ((t i).dirent k).inum names else none := by
  obtain ⟨last, hl⟩ := Option.isSome_iff_exists.mp (List.getLast?_isSome.mpr h)
  simp only [followParent, List.getLast?_cons_of_ne_nil h, hl, List.dropLast_cons_of_ne_nil h, follow,
    Option.bind_some]
  split
  · rw [Option.bind_assoc]
  · rfl

theorem walk_eq_follow (fuel : Nat) : ∀ (i : Nat) (path : Name), path.length < fuel →
    (walk t false fuel i path).map Prod.fst = follow t i (components path) := by
  induction fuel with
  | zero => intro i path hlen; exact absurd hlen (Nat.not_lt_zero _)
  | succ fuel ih =>
    intro i path hlen
    unfold walk
    rcases skipelem_components path with ⟨he, hc⟩ | ⟨name, rest, he, hc, -⟩
    · rw [he, hc]
      rfl
    · have := skipelem_length he
      rw [he, hc, follow]
      by_cases hdir : (t i).type = .dir
      · cases hl : (t i).lookup name with
        | none => simp [hdir, hl]
        | some k => simp [hdir, hl, ih _ rest (by omega)]
      · simp [hdir]

theorem walk_eq_followParent (fuel : Nat) : ∀ (i : Nat) (path : Name), path.length < fuel →
    walk t true fuel i path = followParent t i (components path) := by
  induction fuel with
  | zero => intro i path hlen; exact absurd hlen (Nat.not_lt_zero _)
  | succ fuel ih =>
    intro i path hlen
    unfold walk
    rcases skipelem_components path with ⟨he, hc⟩ | ⟨name, rest, he, hc, hlast⟩
    · rw [he, hc]
      rfl
    · have := skipelem_length he
      rw [he, hc]
      by_cases hdir : (t i).type = .dir
      · by_cases hrest : rest = []
        · rw [hlast.mp hrest]
          simp [hdir, hrest, followParent, follow]
        · rw [followParent_cons i name (mt hlast.mpr hrest)]
          cases hl : (t i).lookup name with
          | none => simp [hdir, hl, hrest]
          | some k => simp [hdir, hl, hrest, ih _ rest (by omega)]
      · by_cases hrest : rest = []
        · simp [hdir, hlast.mp hrest, followParent, follow]
        · simp [hdir, followParent_cons i name (mt hlast.mpr hrest)]

def start (s : State) (cwd : Ip) (path : Name) : Nat :=
  if path.head? = some slash then rootino else (s.inode cwd).inum

/-- For every path, `skipelem` yields its components. In every tree of directories, `namei` returns the
inode that they lead to, and `nameiparent` the directory that all but the last lead to and the last;
they fail if there is none. The one other outcome is the `panic` of `iget`, when at most one entry
of the inode table is free. -/
theorem namei_follows_components (hs : Ok sb h s) (hcwd : cwd ∈ h) (hd : Dirs sb (nodes sb s))
    (hint : Intact (nodes sb s)) (hroot : (nodes sb s rootino).type ≠ .free)
    (hc : (nodes sb s (s.inode cwd).inum).type ≠ .free) (path : Name) :
    elements (path.length + 1) path = components path ∧
    Wp (fun e => e = .iget ∧ Crowded h) (namei sb cwd path) s (fun r s' =>
      r.map (fun ip => (s'.inode ip).inum) =
        follow (nodes sb s) (start s cwd path) (components path)) ∧
    Wp (fun e => e = .iget ∧ Crowded h) (nameiparent sb cwd path) s (fun r s' =>
      r.map (fun p => ((s'.inode p.1).inum, p.2)) =
        followParent (nodes sb s) (start s cwd path) (components path)) := by
  have hlen : path.length < path.length + 1 := Nat.lt_succ_self _
  have hspec : ∀ parent, Wp (fun e => e = .iget ∧ Crowded h) (namex sb cwd path parent) s
      (Walked sb h s (resolve (nodes sb s) parent (s.inode cwd).inum path)) :=
    fun parent => namex_spec (fun h => ⟨rfl, h⟩) hs hcwd hd (.inr ⟨hint, hroot, hc⟩)
  refine ⟨elements_eq _ path hlen, ?_, ?_⟩
  · refine (hspec false).seq ?_
    rw [start, ← walk_eq_follow _ _ path hlen]
    rintro (_ | ⟨ip, name⟩) s' hw <;> exact .pure (congrArg (Option.map Prod.fst) hw.1).symm
  · refine (hspec true).mono ?_
    rw [start, ← walk_eq_followParent _ _ path hlen]
    rintro (_ | ⟨ip, name⟩) s' hw <;> exact hw.1.symm

theorem exists_root : ∃ (s : State) (ip : Ip), Ok smallSuper {ip} s ∧ (s.inode ip).valid = true ∧
    (s.inode ip).inum = rootino ∧ nodes smallSuper s =
      Function.update (fun _ => {}) rootino (newNode .dir 0 0 rootino rootino) := by
  have hi : Image smallSuper (emptyImage smallSuper) := emptyImage_image (by decide)
  have hok := hi.start_ok.ok
  rw [start_held, zero_add] at hok
  have hroot : (nodes smallSuper (emptyImage smallSuper) rootino).type ≠ .free := by decide
  have hlock : Wp (fun _ => False) (lockInum smallSuper rootino) (Sys.start (emptyImage smallSuper)).fs
      fun ip s => Ok smallSuper {ip} s ∧ (s.inode ip).valid = true ∧ (s.inode ip).inum = rootino ∧
        nodes smallSuper s = nodes smallSuper (emptyImage smallSuper) := by
    refine (iget_spec (fun h => by simpa using h ⟨0, by decide⟩) hok (by decide)).seq ?_
    rintro ip s1 ⟨hok1, hq1, hi1⟩
    refine (ilock_spec hok1 (mem_cons_self ip 0) fun hfree => ?_).seq ?_
    · rw [hi1, hq1.nodes_eq] at hfree
      exact hroot hfree
    rintro _ s2 ⟨hok2, hq2, hv⟩
    exact .pure ⟨hok2, hv, ((hq2.keeps ip (mem_cons_self ip 0)).1.trans hi1),
      hq2.nodes_eq.trans hq1.nodes_eq⟩
  obtain ⟨ip, s, -, h⟩ := hlock.total
  exact ⟨s, ip, h.1, h.2.1, h.2.2.1, h.2.2.2.trans emptyImage_nodes⟩

/-- On a new disk, `.././/..` is the root directory, which is also the parent of `x` in `../x`; no
inode has that name. -/
theorem namei_follows_components_root : ∃ (s : State) (cwd : Ip),
    Wp (fun e => e = .iget ∧ Crowded {cwd}) (namei smallSuper cwd [46, 46, 47, 46, 47, 47, 46, 46]) s
      (fun r s' => r.map (fun ip => (s'.inode ip).inum) = some rootino) ∧
    Wp (fun e => e = .iget ∧ Crowded {cwd}) (namei smallSuper cwd [46, 46, 47, 120]) s
      (fun r s' => r.map (fun ip => (s'.inode ip).inum) = none) ∧
    Wp (fun e => e = .iget ∧ Crowded {cwd}) (nameiparent smallSuper cwd [46, 46, 47, 120]) s
      fun r s' => r.map (fun p => ((s'.inode p.1).inum, p.2)) = some (rootino, [120]) := by
  obtain ⟨s, ip, hok, -, hi, hn⟩ := exists_root
  have hdirs : Dirs smallSuper (nodes smallSuper s) := by
    have := (@emptyImage_image smallSuper (by decide)).dirs
    rwa [hn, ← emptyImage_nodes]
  have hint : Intact (nodes smallSuper s) := by
    rw [hn]
    intro i hdir k hk _
    by_cases hr : i = rootino
    · subst hr
      have hdot : ∀ k < 2, ((newNode .dir 0 0 rootino rootino).dirent k).inum = rootino := by decide
      rw [Function.update_self, hdot k hk]
      decide
    · rw [Function.update_of_ne hr] at hdir
      cases hdir
  have hroot : (nodes smallSuper s rootino).type ≠ .free := by
    rw [hn]
    decide
  have hpath := namei_follows_components hok (mem_singleton_self ip) hdirs hint hroot (hi ▸ hroot)
  refine ⟨s, ip, (hpath _).2.1.mono ?_, (hpath _).2.1.mono ?_, (hpath _).2.2.mono ?_⟩ <;>
  · intro r s' hr
    rw [hr, hn, start, hi]
    rfl

end Xv6.Fs
