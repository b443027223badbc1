import Xv6.Fs.CallSpec
import Mathlib.Logic.Relation

/-!
# What calls do to the tree

The effect of a call is that of its `create`, `sys_link` or `sys_unlink`, followed by changes that
no entry sees: writes to files, and inodes without links that are freed.
-/

namespace Xv6.Fs

variable {sb : Super} {t t' : Tree} {i d k cwd : Nat} {name path : Name} {type : FileType}
  {major minor : Int}
variable {c : Call} {r : Int}

/-! ## Changes that no entry sees -/

/-- An inode without links is freed, or the content of one that is no directory changes. -/
inductive Change (t : Tree) : Tree → Prop
  | free (i : Nat) (h : (t i).nlink = 0) : Change t (Function.update t i {})
  | content (i : Nat) (n : Node) (h : (t i).type ≠ .dir) (htype : n.type = (t i).type)
      (hnlink : n.nlink = (t i).nlink) : Change t (Function.update t i n)

abbrev Changes : Tree → Tree → Prop := Relation.ReflTransGen Change

theorem Changes.of_eq (h : t' = t) : Changes t t' := h ▸ .refl

theorem Release.changes (h : Release t t' i) : Changes t t' := by
  rcases h with rfl | ⟨h0, rfl⟩
  · exact .refl
  · exact .single (.free i h0)

theorem Changes.induct {P : Tree → Prop} (h : Changes t t') (hP : ∀ u u', Change u u' → P u → P u')
    (ht : P t) : P t' := by
  induction h with
  | refl => exact ht
  | tail _ hc ih => exact hP _ _ hc ih

/-! ## Effects of calls -/

/-- What `create` does to a tree: nothing, or a new inode is entered. The directory is freed after
that if it has no links. -/
inductive CreateEffect (sb : Super) (t : Tree) (cwd : Nat) (path : Name) (type : FileType)
    (major minor : Int) (t' : Tree) : Prop
  | same (h : t' = t)
  | created (d i : Nat) (name : Name) (hpath : resolve t true cwd path = some (d, name))
      (h : Creates sb t d name i) (hrel : Release (t.create d name i type major minor) t' d)

/-- The effect on the tree of a call that returns `r`, up to changes that no entry sees. -/
def Call.Effect (sb : Super) (t : Tree) (cwd : Nat) (c : Call) (r : Int) (t' : Tree) : Prop :=
  match c with
  | .open (some path) omode =>
    if hasFlag omode oCreate then CreateEffect sb t cwd path.bytes .file 0 0 t' else t' = t
  | .mkdir (some path) => CreateEffect sb t cwd path.bytes .dir 0 0 t'
  | .mknod (some path) major minor =>
    CreateEffect sb t cwd path.bytes .device (toInt16 major) (toInt16 minor) t'
  | .link (some old) (some new) => LinkEffect sb t cwd old.bytes new.bytes r t'
  | .unlink (some path) => UnlinkEffect t cwd path.bytes r t'
  | _ => t' = t

/-- The call returned `r`: its effect, then changes that no entry sees. -/
def Call.Does (sb : Super) (t : Tree) (cwd : Nat) (c : Call) (r : Int) (t' : Tree) : Prop :=
  ∃ u, c.Effect sb t cwd r u ∧ Changes u t'

def Call.names : Call → Bool
  | .open .. | .mkdir .. | .mknod .. | .link .. | .unlink .. => true
  | _ => false

theorem Call.effect_failed (c : Call) : c.Effect sb t cwd (-1) t := by
  unfold Call.Effect
  split
  · split
    · exact .same rfl
    · rfl
  · exact .same rfl
  · exact .same rfl
  · exact .same rfl rfl
  · exact .same rfl rfl
  · rfl

theorem Call.effect_of_names (hc : c.names = false) : c.Effect sb t cwd r t := by
  cases c with
  | «open» | mkdir | mknod | link | unlink => cases hc
  | dup | read | write | close | fstat | pipe | chdir | exec | fork | exit => rfl

theorem Changes.does (h : Changes t t') (hc : c.names = false) : c.Does sb t cwd r t' :=
  ⟨t, Call.effect_of_names hc, h⟩

theorem newNode_type : (newNode type major minor i d).type = type := by
  unfold newNode
  split <;> rfl

theorem newNode_nlink : (newNode type major minor i d).nlink = 1 := by
  unfold newNode
  split <;> rfl

theorem Creates.ne (h : Creates sb t d name i) : i ≠ d := by
  rintro rfl
  exact absurd (h.dir.symm.trans h.free) (by simp)

theorem Creates.node_eq (h : Creates sb t d name i)
    (hrel : Release (t.create d name i type major minor) t' d) :
    t' i = newNode type major minor i d := by
  have hcreate : t.create d name i type major minor i = newNode type major minor i d := by
    unfold Tree.create Tree.addDirNlink Tree.addNlink Tree.link
    split
    · rw [Function.update_of_ne h.ne, Function.update_of_ne h.ne, Function.update_self]
    · rw [Function.update_of_ne h.ne, Function.update_self]
  rcases hrel with rfl | ⟨-, rfl⟩
  · exact hcreate
  · rw [Function.update_of_ne h.ne, hcreate]

theorem Creates.type_eq (h : Creates sb t d name i)
    (hrel : Release (t.create d name i type major minor) t' d) : (t' i).type = type := by
  rw [h.node_eq hrel, newNode_type]

/-! ## Directories stay well formed -/

theorem Dirs.update {n : Node} (hd : Dirs sb t) (hn : n.type = .dir → n.IsDir sb) :
    Dirs sb (Function.update t i n) := by
  intro j hj
  by_cases hji : j = i
  · grind
  · rw [Function.update_of_ne hji] at hj ⊢
    exact hd j hj

theorem Dirs.change (hd : Dirs sb t) (h : Change t t') : Dirs sb t' := by
  cases h with
  | free => exact hd.update nofun
  | content _ _ hdir htype => exact hd.update fun h => absurd (htype ▸ h) hdir

theorem Dirs.changes (hd : Dirs sb t) (h : Changes t t') : Dirs sb t' :=
  h.induct (fun _ _ hc hu => hu.change hc) hd

theorem Dirs.addDirNlink (hd : Dirs sb t) (x : Int) : Dirs sb (t.addDirNlink type i x) := by
  unfold Tree.addDirNlink
  split
  · exact (alike_addNlink i x).dirs hd
  · exact hd

theorem Dirs.link (hd : Dirs sb t) (hname : NameOk name) (hi : i < sb.ninodes) :
    Dirs sb (t.link d i name) := by
  apply hd.update
  intro hdir
  exact (hd d hdir).enter hname hi (t d).freeSlot_le

theorem Dirs.erase (hd : Dirs sb t) (hk : k < (t d).slots) : Dirs sb (t.erase d k) := by
  apply hd.update
  intro hdir
  exact (hd d hdir).enter ⟨by simp, Nat.zero_le _⟩
    (Nat.lt_trans Nat.zero_lt_one sb.rootino_lt) (Nat.le_of_lt hk)

theorem newNode_isDir (hi : i < sb.ninodes) (hdi : d < sb.ninodes) :
    (newNode .dir major minor i d).IsDir sb := by
  have h0 : ({ type := .dir, major := major, minor := minor, nlink := 1 } : Node).IsDir sb := by
    refine ⟨rfl, rfl, ?_⟩
    intro k hk
    simp [Node.slots] at hk
  have h1 : (Node.enter _ 0 { inum := i, name := dot }).IsDir sb :=
    h0.enter dot_ok hi (Nat.zero_le _)
  apply h1.enter dotdot_ok hdi
  rw [Node.slots_enter h0.size]
  exact le_max_right _ _

theorem Dirs.newNode (hd : Dirs sb t) (hi : i < sb.ninodes) (hdi : d < sb.ninodes) :
    Dirs sb (Function.update t i (newNode type major minor i d)) := by
  apply hd.update
  intro htype
  by_cases hdir : type = .dir
  · subst hdir
    exact newNode_isDir hi hdi
  · grind [Fs.newNode]

def InRange (sb : Super) (t : Tree) : Prop := ∀ i, (t i).type ≠ .free → i < sb.ninodes

theorem nodes_inRange (s : State) : InRange sb (nodes sb s) := fun _ h => (nodes_live.mp h).2.1

theorem Dirs.createEffect (hd : Dirs sb t) (hr : InRange sb t)
    (h : CreateEffect sb t cwd path type major minor t') : Dirs sb t' := by
  cases h with
  | same h => exact h ▸ hd
  | created d i name _ h hrel =>
    have hdi : d < sb.ninodes := hr d (by rw [h.dir]; simp)
    have h1 : Dirs sb (t.create d name i type major minor) :=
      ((hd.newNode h.inum.2 hdi).link h.name_ok h.inum.2).addDirNlink 1
    exact h1.changes hrel.changes

theorem Dirs.linkEffect {old new : Name} (hd : Dirs sb t) (h : LinkEffect sb t cwd old new r t') :
    Dirs sb t' := by
  cases h with
  | same _ h => exact h ▸ hd
  | undone _ i _ _ _ h =>
    have h1 := (alike_addNlink i (-1)).dirs ((alike_addNlink i 1).dirs hd)
    exact h1.changes h.changes
  | linked _ i d _ _ _ _ _ hi _ _ hname _ h =>
    have h1 := ((alike_addNlink i 1).dirs hd).link (d := d) hname hi.2
    exact h1.changes h.changes

theorem Dirs.unlinkEffect (hd : Dirs sb t) (h : UnlinkEffect t cwd path r t') : Dirs sb t' := by
  cases h with
  | same _ h => exact h ▸ hd
  | unlinked _ _ _ i _ _ _ _ h h1 h2 =>
    have hu := ((hd.erase h.slot).addDirNlink (-1)).changes h1.changes
    exact ((alike_addNlink i (-1)).dirs hu).changes h2.changes

/-! ## Link counts are shorts -/

def Shorts (t : Tree) : Prop := ∀ i, toInt16 (t i).nlink = (t i).nlink

theorem toInt16_idem (x : Int) : toInt16 (toInt16 x) = toInt16 x := Int.bmod_bmod

theorem addNlink_undo (hs : Shorts t) (i : Nat) : (t.addNlink i 1).addNlink i (-1) = t := by
  have hn : toInt16 (toInt16 ((t i).nlink + 1) + -1) = (t i).nlink := by
    rw [toInt16, toInt16, Int.bmod_add_bmod, Int.add_neg_cancel_right]
    exact hs i
  unfold Tree.addNlink
  rw [Function.update_self, Function.update_idem]
  rw [hn]
  exact Function.update_eq_self i t

theorem Shorts.update {n : Node} (hs : Shorts t) (hn : toInt16 n.nlink = n.nlink) :
    Shorts (Function.update t i n) := by
  intro j
  by_cases hji : j = i
  · rw [hji, Function.update_self]
    exact hn
  · rw [Function.update_of_ne hji]
    exact hs j

theorem Shorts.addNlink (hs : Shorts t) (x : Int) : Shorts (t.addNlink i x) :=
  hs.update (toInt16_idem _)

theorem Shorts.addDirNlink (hs : Shorts t) (x : Int) : Shorts (t.addDirNlink type i x) := by
  unfold Tree.addDirNlink
  split
  · exact hs.addNlink x
  · exact hs

theorem Shorts.changes (hs : Shorts t) (h : Changes t t') : Shorts t' := by
  refine h.induct (fun u u' hc hu => ?_) hs
  cases hc with
  | free => exact hu.update rfl
  | content i _ _ _ hn => exact hu.update (by rw [hn]; exact hu i)

theorem Shorts.createEffect (hs : Shorts t) (h : CreateEffect sb t cwd path type major minor t') :
    Shorts t' := by
  cases h with
  | same h => exact h ▸ hs
  | created d i name _ _ hrel =>
    have h1 : Shorts (Function.update t i (newNode type major minor i d)) := by
      apply hs.update
      rw [newNode_nlink]
      rfl
    have h2 : Shorts (Tree.link (Function.update t i (newNode type major minor i d)) d i name) :=
      h1.update (h1 d)
    exact (h2.addDirNlink 1).changes hrel.changes

theorem Shorts.effect (hs : Shorts t) (h : c.Effect sb t cwd r t') : Shorts t' := by
  unfold Call.Effect at h
  split at h
  · split at h
    · exact hs.createEffect h
    · exact h ▸ hs
  · exact hs.createEffect h
  · exact hs.createEffect h
  · cases h with
    | same _ h => exact h ▸ hs
    | undone _ _ _ _ _ h => exact ((hs.addNlink 1).addNlink (-1)).changes h.changes
    | linked _ i d _ name _ _ _ _ _ _ _ _ h =>
      have h1 := hs.addNlink (i := i) 1
      have h2 : Shorts ((t.addNlink i 1).link d i name) := h1.update (h1 d)
      exact h2.changes h.changes
  · cases h with
    | same _ h => exact h ▸ hs
    | unlinked _ d k _ _ _ _ _ _ h1 h2 =>
      have h3 : Shorts (t.erase d k) := hs.update (hs d)
      exact (((h3.addDirNlink (-1)).changes h1.changes).addNlink (-1)).changes h2.changes
  · exact h ▸ hs

theorem Shorts.does (hs : Shorts t) (h : c.Does sb t cwd r t') : Shorts t' := by
  obtain ⟨u, he, hc⟩ := h
  exact (hs.effect he).changes hc

end Xv6.Fs
