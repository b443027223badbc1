import Xv6.Fs.PathSpec

/-!
# Calls on the tree

What `create`, `sys_link` and `sys_unlink` do to the tree of inodes, with all their exits.
-/

namespace Xv6.Fs

open Multiset
open Function (update update_idem update_of_ne update_self)

variable {sb : Super} {E : Stop → Prop} {h : Multiset Ip} {s s' : State} {ip dp cwd : Ip}
  {t t' : Tree} {i d k : Nat} {name path : Name} {type : FileType} {major minor : Int}

/-! ## Steps on trees -/

def Tree.addNlink (t : Tree) (i : Nat) (x : Int) : Tree :=
  update t i { t i with nlink := toInt16 ((t i).nlink + x) }

/-- `if(type == T_DIR)` add to the link count of an inode. -/
def Tree.addDirNlink (t : Tree) (type : FileType) (i : Nat) (x : Int) : Tree :=
  if type = .dir then t.addNlink i x else t

def Tree.link (t : Tree) (d i : Nat) (name : Name) : Tree :=
  update t d ((t d).enter (t d).freeSlot { inum := i, name := name })

def Tree.erase (t : Tree) (d k : Nat) : Tree := update t d ((t d).erase k)

/-- An inode without links may be freed when a reference to it is dropped. -/
def Release (t t' : Tree) (i : Nat) : Prop := t' = t ∨ (t i).nlink = 0 ∧ t' = update t i {}

def Settled (h : Multiset Ip) (s : State) : Prop :=
  ∀ ip ∈ h, (s.dinode (s.inode ip).inum).type ≠ .free

theorem Settled.keeps (hv : Settled h s) (hk : Keeps h s s') : Settled h s' := by
  intro ip hip
  rw [(hk ip hip).1]
  exact hk.live ip hip (hv ip hip)

theorem Settled.cons (hv : Settled h s) (hip : (s.dinode (s.inode ip).inum).type ≠ .free) :
    Settled (ip ::ₘ h) s := by
  intro ip' hip'
  rcases mem_cons.mp hip' with rfl | hmem
  · exact hip
  · exact hv ip' hmem

theorem Settled.live (hv : Settled h s) (hs : Ok sb h s) (hip : ip ∈ h) :
    (nodes sb s (s.inode ip).inum).type ≠ .free :=
  nodes_live.mpr ⟨(hs.inum ip hip).1, (hs.inum ip hip).2, hv ip hip⟩

theorem iput_release (hs : Ok sb (ip ::ₘ h) s) :
    Wp E (iput sb ip) s fun _ s' => Ok sb h s' ∧ Keeps h s s' ∧
      Release (nodes sb s) (nodes sb s') (s.inode ip).inum := by
  refine (iput_spec hs).mono ?_
  rintro _ s' ⟨hok, hk, ⟨hn, -⟩ | ⟨hb, hn⟩⟩
  · exact ⟨hok, hk, .inl hn.nodes_eq⟩
  · refine ⟨hok, hk, .inr ⟨?_, hn⟩⟩
    by_contra h0
    exact hb (.inr (.inr h0))

theorem addNlink_spec (hs : Ok sb h s) (hip : ip ∈ h) (hv : (s.inode ip).valid = true) (x : Int) :
    Wp E (addNlink sb ip x) s fun _ s' => Ok sb h s' ∧ Keeps h s s' ∧
      nodes sb s' = Tree.addNlink (nodes sb s) (s.inode ip).inum x := by
  obtain ⟨-, hn, -, hmaj, hmin⟩ := hs.node_eq hip hv
  refine (isaveMeta_spec hs hip hv (s.inode ip).major (s.inode ip).minor
    (toInt16 ((s.inode ip).nlink + x)) rfl).mono ?_
  rintro _ s' ⟨hok, hk, -, he⟩
  refine ⟨hok, hk, ?_⟩
  rw [he, ← hn, ← hmaj, ← hmin]
  rfl

theorem addDirNlink_spec (hs : Ok sb h s) (hip : ip ∈ h) (hv : (s.inode ip).valid = true)
    (x : Int) : Wp E (addDirNlink sb type ip x) s fun _ s' => Ok sb h s' ∧ Keeps h s s' ∧
      nodes sb s' = Tree.addDirNlink (nodes sb s) type (s.inode ip).inum x := by
  unfold addDirNlink Tree.addDirNlink
  split
  · exact addNlink_spec hs hip hv x
  · exact .pure ⟨hs, .refl, rfl⟩

/-! ## create -/

def newNode (type : FileType) (major minor : Int) (i d : Nat) : Node :=
  let n : Node := { type := type, major := major, minor := minor, nlink := 1 }
  if type = .dir then
    (n.enter 0 { inum := i, name := dot }).enter 1 { inum := d, name := dotdot }
  else n

theorem createFail_spec {x : Node} (hs : Ok sb (ip ::ₘ dp ::ₘ h) s) (hv : (s.inode ip).valid = true)
    (hip : ip ∉ dp ::ₘ h) (hb : Borrowed sb h s dp) (hn : nodes sb s = update t (s.inode ip).inum x)
    (ht : t (s.inode ip).inum = {}) :
    Wp E (createFail sb ip dp) s fun r s' => r = none ∧ Ok sb h s' ∧ Keeps h s s' ∧
      nodes sb s' = t := by
  have hmem := mem_cons_self ip (dp ::ₘ h)
  have hne : (s.inode dp).inum ≠ (s.inode ip).inum := by
    have := hs.uniq
    grind
  refine (isaveMeta_spec hs hmem hv (s.inode ip).major (s.inode ip).minor 0 rfl).seq ?_
  rintro _ s1 ⟨hs1, hk1, -, hn1⟩
  obtain ⟨hi1, hv1⟩ := hk1 ip hmem
  obtain ⟨hv1, -⟩ := hv1 hv
  refine .bind (iunlockput_spec hs1 ?_)
  refine (iput_spec hs1).mono ?_
  rintro _ s2 ⟨hs2, hk2, hn2⟩
  -- the new inode is freed
  have hfreed : nodes sb s2 = t := by
    rcases hn2 with ⟨-, hb2⟩ | ⟨-, hn2⟩
    · exfalso
      rcases hb2 hv1 with hmem' | hfree | hlink
      · exact hip hmem'
      · rw [(hs1.node_eq hmem hv1).1] at hfree
        exact (hs1.clean ip hmem hv1).2 hfree
      · simp_all
    · simp_all
  have hk : Keeps (dp ::ₘ h) s s2 := hk1.of_cons.trans hk2
  have hb2 : Borrowed sb h s2 dp := by
    rw [Borrowed, (hk dp (mem_cons_self dp h)).1, hfreed]
    rw [Borrowed, hn, update_of_ne hne] at hb
    exact hb
  refine (iunlockput_borrowed hs2 hb2).seq ?_
  rintro _ s3 ⟨hs3, hq3⟩
  exact .pure ⟨rfl, hs3, hk.of_cons.trans hq3.keeps, hq3.nodes_eq.trans hfreed⟩

theorem dot_ok : NameOk dot := ⟨by simp [dot], by decide⟩

theorem dotdot_ok : NameOk dotdot := ⟨by simp [dotdot], by decide⟩

theorem freeSlot_dot {n : Node} (hsize : n.size = 0) (hi : i % 2 ^ 16 ≠ 0) :
    (n.enter 0 { inum := i, name := dot }).freeSlot = 1 := by
  have hs : (n.enter 0 { inum := i, name := dot }).slots = 1 := by
    rw [Node.slots_enter (by rw [hsize]; rfl), Node.slots, hsize]
    rfl
  have hd : ((n.enter 0 { inum := i, name := dot }).dirent 0).inum = i % 2 ^ 16 := by
    rw [Node.dirent_enter dot_ok (by omega), if_pos rfl]
  rw [Node.freeSlot, hs, List.find?_eq_none.mpr, Option.getD_none]
  intro k hk
  obtain rfl : k = 0 := by simpa using hk
  rwa [hd, decide_eq_true_eq]

theorem dotsFail_spec (hE : E .iget) (hs : Ok sb h s) (hip : ip ∈ h) (hdp : dp ∈ h)
    (hv : (s.inode ip).valid = true)
    (hn : nodes sb s = update t (s.inode ip).inum
      { type := type, major := major, minor := minor, nlink := 1 }) :
    Wp E (dotsFail sb type ip dp) s fun r s' => Ok sb h s' ∧ Keeps h s s' ∧
      (type ≠ .dir → r = false ∧ s' = s) ∧ (r = true → ∃ x, nodes sb s' = update t (s.inode ip).inum x) ∧
      (r = false → nodes sb s' = update t (s.inode ip).inum
        (newNode type major minor (s.inode ip).inum (s.inode dp).inum)) := by
  unfold dotsFail newNode
  refine .ite (fun hdir => ?_) fun hdir => ?_
  · rw [if_pos hdir]
    have hi := hs.inum ip hip
    have hle := sb.ninodes_le
    generalize hn0 : ({ type := type, major := major, minor := minor, nlink := 1 } : Node) = n at *
    have hsize : n.size = 0 := by rw [← hn0]
    have hslots : n.slots = 0 := by rw [Node.slots, hsize]; rfl
    have hself : nodes sb s (s.inode ip).inum = n := by rw [hn, update_self]
    have hd : n.IsDir sb := ⟨by rw [← hn0]; exact hdir, by rw [hsize]; rfl, by omega⟩
    have hfree : n.freeSlot = 0 := Nat.le_zero.mp (hslots ▸ n.freeSlot_le)
    refine .bind (.get ?_)
    refine (dirlink_spec (fun _ => hE) hs hip hv (hself ▸ hd) _).seq ?_
    rintro r s1 ⟨hs1, hk1, hr⟩
    obtain ⟨hi1, hv1⟩ := hk1 ip hip
    rcases hr with ⟨hr, hn1, -⟩ | ⟨rfl, -, -, hn1⟩
    · grind [Wp.pure]
    rw [hself, hfree, hn, update_idem] at hn1
    have hself1 : nodes sb s1 (s1.inode ip).inum =
        n.enter 0 { inum := (s.inode ip).inum, name := dot } := by
      rw [hn1, hi1, update_self]
    refine .bind (.get ?_)
    have hd1 : (nodes sb s1 (s1.inode ip).inum).IsDir sb := by
      rw [hself1]
      exact hd.enter dot_ok hi.2 (Nat.zero_le _)
    refine (dirlink_spec (fun _ => hE) hs1 hip (hv1 hv).1 hd1 _).seq ?_
    rintro r s2 ⟨hs2, hk2, hr⟩
    rcases hr with ⟨hr, hn2, -⟩ | ⟨rfl, -, -, hn2⟩
    · exact .pure ⟨hs2, hk1.trans hk2, fun hne => absurd hdir hne, fun _ => ⟨_, hn2.trans hn1⟩,
        fun hf => absurd hr (of_decide_eq_false hf)⟩
    · refine .pure ⟨hs2, hk1.trans hk2, fun hne => absurd hdir hne,
        fun hf => absurd hf (by decide), fun _ => ?_⟩
      rw [hn2, hself1, hi1, freeSlot_dot hsize (by omega), hn1, update_idem,
        (hk1 dp hdp).1]
  · rw [if_neg hdir]
    exact .pure ⟨hs, .refl, fun _ => ⟨rfl, rfl⟩, fun hf => absurd hf (by simp), fun _ => hn⟩

def State.Extendable (sb : Super) (s : State) (d : Nat) : Prop :=
  EntryRoom sb s d (nodes sb s d).freeSlot

theorem Elsewhere.addr_eq (he : Elsewhere i s s') (hd : d ≠ i) {p : Place} (hp : p.inode = d) :
    addr sb s'.dinode s'.block p = addr sb s.dinode s.block p := by
  subst hp
  exact addr_congr (he.dinode _ hd) fun _ _ => by rw [he.block]

theorem Elsewhere.extendable (he : Elsewhere i s s') (hd : d ≠ i) :
    s'.Extendable sb d ↔ s.Extendable sb d := by
  have hn : nodes sb s' d = nodes sb s d := by
    apply node_congr
    · rw [he.dinode d hd]
      exact .refl _
    · intro _ x _
      rw [raw, raw, he.addr_eq hd (place_inode d _), he.block]
  simp only [State.Extendable, EntryRoom, Obtains, hn, he.bitmap, he.addr_eq hd (place_inode d _),
    he.addr_eq hd (p := .slot d ndirect) rfl]

theorem Quiet.extendable (hq : Quiet sb h s s') : s'.Extendable sb d ↔ s.Extendable sb d :=
  (hq.elsewhere (i := d + 1)).extendable (Nat.ne_of_lt (Nat.lt_succ_self d))

/-- `create` can make the file that a path leads to: its directory is there and has room, the name
is not in it, and an inode is free. -/
def Creatable (sb : Super) (s : State) : Option (Nat × Name) → Prop
  | none => False
  | some (d, name) => (nodes sb s d).lookup name = none ∧
    (∃ i, (1 ≤ i ∧ i < sb.ninodes) ∧ (nodes sb s i).type = .free) ∧ s.Extendable sb d

/-- The tree after `create` has made inode `i` in directory `d`. -/
def Tree.create (t : Tree) (d : Nat) (name : Name) (i : Nat) (type : FileType)
    (major minor : Int) : Tree :=
  (Tree.link (update t i (newNode type major minor i d)) d i name).addDirNlink type d 1

/-- `create` makes inode `i` in directory `d`. -/
structure Creates (sb : Super) (t : Tree) (d : Nat) (name : Name) (i : Nat) : Prop where
  dir : (t d).type = .dir
  absent : (t d).lookup name = none
  name_ok : NameOk name
  free : (t i).type = .free
  inum : 1 ≤ i ∧ i < sb.ninodes

theorem createEntry_spec {u : State} (hE : E .iget) (hf : Fresh sb (dp ::ₘ h) type ip s u)
    (htype : type ≠ .free) (hset : Settled (dp ::ₘ h) s) (hvd : (s.inode dp).valid = true)
    (hd : (nodes sb s (s.inode dp).inum).IsDir sb) (hb : Borrowed sb h s dp) (hname : NameOk name) :
    Wp E (createEntry sb dp ip name type major minor) u fun r s' =>
      match r with
      | none => Ok sb h s' ∧ Keeps h s s' ∧ nodes sb s' = nodes sb s ∧
        (type ≠ .dir → (nodes sb s (s.inode dp).inum).lookup name = none →
          ¬s.Extendable sb (s.inode dp).inum)
      | some ip' => ip' = ip ∧ Ok sb (ip ::ₘ h) s' ∧ Keeps h s s' ∧
        (type ≠ .dir → s.Extendable sb (s.inode dp).inum) ∧
        (s'.inode ip).valid = true ∧ (s'.inode ip).inum = (s.inode ip).inum ∧
        Creates sb (nodes sb s) (s.inode dp).inum name (s.inode ip).inum ∧
        Release (Tree.create (nodes sb s) (s.inode dp).inum name (s.inode ip).inum type major minor)
          (nodes sb s') (s.inode dp).inum := by
  have hmem := mem_cons_self ip (dp ::ₘ h)
  have hdmem := mem_cons_self dp h
  have hdp : dp ∈ ip ::ₘ dp ::ₘ h := mem_cons_of_mem hdmem
  have hip : ip ∉ dp ::ₘ h := by
    intro hip
    exact nodes_live.mpr ⟨(hf.ok.inum ip hmem).1, (hf.ok.inum ip hmem).2, hset ip hip⟩ hf.free
  have hne : (s.inode dp).inum ≠ (s.inode ip).inum :=
    fun he => hip (hf.ok.uniq ip hmem dp hdp he.symm ▸ hdmem)
  have hfree := nodes_free hf.free
  have hrange := hf.ok.inum ip hmem
  refine (hf.lock_spec htype).seq ?_
  rintro _ s1 ⟨hs1, hk1, hv1, he1, hn1⟩
  obtain ⟨hi1, -⟩ := hk1 ip hmem
  refine (isaveMeta_spec hs1 hmem hv1 major minor 1 rfl).seq ?_
  rintro _ s2 ⟨hs2, hk2, he2, hn2⟩
  obtain ⟨hi2, hv2⟩ := hk2 ip hmem
  obtain ⟨hv2, -⟩ := hv2 hv1
  have hn2' : nodes sb s2 = update (nodes sb s) (s2.inode ip).inum
      { type := type, major := major, minor := minor, nlink := 1 } := by simp_all
  refine (dotsFail_spec hE hs2 hmem hdp hv2 hn2').seq ?_
  rintro bad s3 ⟨hs3, hk3, hplain, hbad, hgood⟩
  have hroom : type ≠ .dir →
      (s3.Extendable sb (s3.inode dp).inum ↔ s.Extendable sb (s.inode dp).inum) := by
    intro hdir
    rw [(hplain hdir).2, ((hk1.trans hk2) dp hdp).1]
    exact (he1.trans (hi1 ▸ he2)).extendable hne
  have hk : Keeps (ip ::ₘ dp ::ₘ h) s s3 := (hk1.trans hk2).trans hk3
  have hi : (s2.inode ip).inum = (s.inode ip).inum := hi2.trans hi1
  have hi3 := (hk ip hmem).1
  have hd3 := (hk dp hdp).1
  have hdi2 : (s2.inode dp).inum = (s.inode dp).inum := ((hk1.trans hk2) dp hdp).1
  have hv3 : (s3.inode ip).valid = true := ((hk3 ip hmem).2 hv2).1
  have hvd : (s3.inode dp).valid = true := ((hk dp hdp).2 hvd).1
  -- the exits at `fail`
  have hfail : ∀ s4 x, Ok sb (ip ::ₘ dp ::ₘ h) s4 → Keeps (ip ::ₘ dp ::ₘ h) s3 s4 →
      nodes sb s4 = update (nodes sb s) (s.inode ip).inum x →
      Wp E (createFail sb ip dp) s4 fun r s' => r = none ∧ Ok sb h s' ∧ Keeps h s s' ∧
        nodes sb s' = nodes sb s := by
    intro s4 x hs4 hk4 hn4
    have hk' := hk.trans hk4
    have hi4 := (hk' ip hmem).1
    have hb4 : Borrowed sb h s4 dp := by
      rw [Borrowed, (hk' dp hdp).1, hn4, update_of_ne hne]
      exact hb
    refine (createFail_spec hs4 ((hk4 ip hmem).2 hv3).1 hip hb4 (hi4 ▸ hn4) (hi4 ▸ hfree)).mono ?_
    rintro r s5 ⟨hr, hs5, hk5, hn5⟩
    exact ⟨hr, hs5, hk'.of_cons.of_cons.trans hk5, hn5⟩
  cases bad with
  | true =>
    obtain ⟨x, hx⟩ := hbad rfl
    refine (hfail s3 x hs3 .refl (hi ▸ hx)).mono ?_
    rintro _ s' ⟨rfl, hs', hk', hn'⟩
    exact ⟨hs', hk', hn', fun hdir => absurd (hplain hdir).1 (by decide)⟩
  | false =>
    have hn3 := hgood rfl
    rw [hi, hdi2] at hn3
    have hself : nodes sb s3 (s3.inode dp).inum = nodes sb s (s.inode dp).inum := by simp_all
    refine .bind (.get ?_)
    refine (dirlink_spec (fun _ => hE) hs3 hdp hvd (hself ▸ hd) _).seq ?_
    rintro r s4 ⟨hs4, hk4, ⟨hr, hn4, hno⟩ | ⟨rfl, habs, hyes, hn4⟩⟩
    · rw [if_pos hr]
      refine (hfail s4 _ hs4 hk4 (hn4.trans hn3)).mono ?_
      rintro _ s' ⟨rfl, hs', hk', hn'⟩
      refine ⟨hs', hk', hn', fun hdir habs => ?_⟩
      rw [← hroom hdir]
      exact hno (hself ▸ habs)
    · have hyes := fun hdir => (hroom hdir).mp hyes
      rw [hself] at habs hn4
      have hvd4 := ((hk4 dp hdp).2 hvd).1
      refine (addDirNlink_spec hs4 hdp hvd4 1).seq ?_
      rintro _ s5 ⟨hs5, hk5, hn5⟩
      have hk' := (hk.trans hk4).trans hk5
      have hcreate : nodes sb s5 = Tree.create (nodes sb s) (s.inode dp).inum name
          (s.inode ip).inum type major minor := by
        rw [hn5, hn4, (hk4 dp hdp).1, hd3, hi3, hn3, Tree.create, Tree.link, update_of_ne hne]
      rw [cons_swap] at hs5
      refine .bind (iunlockput_spec hs5 ?_)
      refine (iput_release hs5).mono ?_
      rintro _ s6 ⟨hs6, hk6, hn6⟩
      have hipmem := mem_cons_self ip h
      have hv5 := ((hk5 ip hmem).2 ((hk4 ip hmem).2 hv3).1).1
      rw [hcreate, (hk' dp hdp).1] at hn6
      refine .pure ⟨rfl, hs6, hk'.of_cons.of_cons.trans hk6.of_cons, hyes,
        ((hk6 ip hipmem).2 hv5).1, (hk6 ip hipmem).1.trans (hk' ip hmem).1,
        ⟨hd.type, habs, hname, hf.free, hrange⟩, hn6⟩

theorem resolve_parent (hp : ∀ b ∈ path, b ≠ 0) (hw : resolve t true i path = some (d, name)) :
    (t d).type = .dir ∧ NameOk name :=
  walk_parent _ _ _ hp hw

/-- The inode that `create` returns: one that is there, or a new one. -/
def Opens (sb : Super) (h : Multiset Ip) (s : State) (w : Option (Nat × Name)) (type : FileType)
    (major minor : Int) (ip : Ip) (s' : State) : Prop :=
  (nodes sb s' = nodes sb s ∧ ¬Creatable sb s w ∧ type = .file ∧
    (nodes sb s' (s'.inode ip).inum).type ≠ .dir ∧ Borrowed sb h s' ip) ∨
  ∃ d name, w = some (d, name) ∧ (type ≠ .dir → Creatable sb s w) ∧ Creates sb (nodes sb s) d name (s'.inode ip).inum ∧
    Release (Tree.create (nodes sb s) d name (s'.inode ip).inum type major minor)
      (nodes sb s') d

theorem lockParent_spec {s1 : State} (hs : Ok sb (dp ::ₘ h) s1) (hq : Quiet sb h s s1)
    (hb : Borrowed sb h s1 dp) (hdir : (nodes sb s (s1.inode dp).inum).type = .dir) :
    Wp E (ilock sb dp) s1 fun _ s' => Ok sb (dp ::ₘ h) s' ∧ Quiet sb h s s' ∧
      (s'.inode dp).valid = true ∧ Borrowed sb h s' dp ∧
      (s'.inode dp).inum = (s1.inode dp).inum ∧
      nodes sb s' (s'.inode dp).inum = nodes sb s (s1.inode dp).inum := by
  have hmem := mem_cons_self dp h
  refine (ilock_spec hs hmem fun hfree => by simp [hq.nodes_eq, hdir] at hfree).mono ?_
  rintro _ s' ⟨hs', hq', hv⟩
  have hi := (hq'.keeps dp hmem).1
  exact ⟨hs', hq.trans hq'.of_cons, hv, hb.quiet hq', hi, by rw [hi, hq'.nodes_eq, hq.nodes_eq]⟩

theorem create_spec (hE : E .iget) (hs : Ok sb h s) (hset : Settled h s) (hcwd : cwd ∈ h)
    (hd : Dirs sb (nodes sb s)) (hnt : Reaches sb E s cwd) (hp : ∀ b ∈ path, b ≠ 0)
    (htype : type ≠ .free) :
    Wp E (create sb cwd path type major minor) s fun r s' =>
      match r with
      | none => Ok sb h s' ∧ Keeps h s s' ∧ nodes sb s' = nodes sb s ∧ (type ≠ .dir →
        ¬Creatable sb s (resolve (nodes sb s) true (s.inode cwd).inum path))
      | some ip => Ok sb (ip ::ₘ h) s' ∧ Keeps h s s' ∧ (s'.inode ip).valid = true ∧
        Opens sb h s (resolve (nodes sb s) true (s.inode cwd).inum path) type major minor ip
          s' := by
  refine (namex_spec (fun _ => hE) hs hcwd hd hnt).seq ?_
  rintro (_ | ⟨dp, name⟩) s1 hw
  · obtain ⟨hw, hs1, hq1⟩ := hw
    rw [hw]
    exact .pure ⟨hs1, hq1.keeps, hq1.nodes_eq, fun _ hc => hc⟩
  obtain ⟨hw, hs1, hq1, hb1⟩ := hw
  obtain ⟨hdir, hname⟩ := resolve_parent hp hw
  have hmem := mem_cons_self dp h
  refine (lockParent_spec hs1 hq1 hb1 hdir).seq ?_
  rintro _ s2 ⟨hs2, hq2, hv2, hb2, hi2, hself⟩
  have hn2 := hq2.nodes_eq
  have hk2 := hq2.keeps
  have hd2 := hself ▸ hd _ hdir
  rw [hw]
  refine (dirlookup_spec (fun _ => hE) hs2 hmem hv2 hd2).seq ?_
  rintro (_ | ⟨ip, off⟩) s3 hr
  · obtain ⟨hl, rfl⟩ := hr
    refine (ialloc_spec hE hs2 type).seq ?_
    rintro (_ | ip) u hr
    · obtain ⟨rfl, hno⟩ := hr
      refine (iunlockput_borrowed hs2 hb2).seq ?_
      rintro _ s4 ⟨hs4, hq4⟩
      refine .pure ⟨hs4, hk2.trans hq4.keeps, hq4.nodes_eq.trans hn2, ?_⟩
      rintro - ⟨-, ⟨i, hi, ht⟩, -⟩
      exact hno i (hn2 ▸ ht) hi
    · obtain ⟨s', hf, hq'⟩ := hr
      have hset2 : Settled (dp ::ₘ h) s' :=
        ((hset.keeps hk2).cons (hs2.live hmem hv2).2.2).keeps hq'.keeps
      have hi' := (hq'.keeps dp hmem).1
      have hn' := hq'.nodes_eq.trans hn2
      have hd' : (nodes sb s' (s'.inode dp).inum).IsDir sb := by simp_all
      refine (createEntry_spec hE hf htype hset2 ((hq'.keeps dp hmem).2 hv2).1 hd'
        (hb2.quiet hq') hname).mono ?_
      have hroom : s'.Extendable sb (s'.inode dp).inum ↔ s.Extendable sb (s1.inode dp).inum := by
        rw [hi', hi2]
        exact (hq2.trans hq'.of_cons).extendable
      rw [hself] at hl
      rintro (_ | ip') s4 hr
      · obtain ⟨hs4, hk4, hn4, hno⟩ := hr
        refine ⟨hs4, hk2.trans (hq'.keeps.of_cons.trans hk4), hn4.trans hn', ?_⟩
        rintro hdir ⟨-, -, hext⟩
        exact hno hdir (by rwa [hn', hi', hi2]) (hroom.mpr hext)
      · obtain ⟨rfl, hs4, hk4, hext, hv4, hi4, hc, hrel⟩ := hr
        rw [hn', hi', hi2, ← hi4] at hc hrel
        exact ⟨hs4, hk2.trans (hq'.keeps.of_cons.trans hk4), hv4, .inr ⟨_, _, rfl,
          fun hdir => ⟨hl, ⟨_, hc.inum, hc.free⟩, hroom.mp (hext hdir)⟩, hc, hrel⟩⟩
  · obtain ⟨k, hl, -, hs3, hq3, hi3⟩ := hr
    obtain ⟨hk, ⟨h0, -⟩, -⟩ := Node.lookup_eq_some.mp hl
    have hno : ¬Creatable sb s (some ((s1.inode dp).inum, name)) := by
      rintro ⟨habs, -⟩
      rw [hself, habs] at hl
      cases hl
    have hbn : Borrowed sb h s3 ip := (hb2.quiet hq3).of_cons (hs2.borrowed hs3 hq3)
    rw [cons_swap] at hs3
    refine (iunlockput_borrowed hs3 ((hb2.quiet hq3).cons ip)).seq ?_
    rintro _ s4 ⟨hs4, hq4⟩
    have hmem4 := mem_cons_self ip h
    have hk4 : Keeps h s s4 := hk2.trans (hq3.of_cons.keeps.trans hq4.of_cons.keeps)
    have hn4 := hq4.nodes_eq.trans (hq3.nodes_eq.trans hn2)
    refine (ilock_spec hs4 hmem4 fun hfree => ?_).seq ?_
    · rcases hnt with hnt | ⟨hint, -⟩
      · exact hnt
      · refine absurd hfree ?_
        rw [hn4, (hq4.keeps ip hmem4).1, hi3, hn2, hi2]
        rw [hn2, hi2] at hk h0
        exact hint _ hdir k hk h0
    rintro _ s5 ⟨hs5, hq5, hv5⟩
    have hk5 := hk4.trans hq5.of_cons.keeps
    have hn5 := hq5.nodes_eq.trans hn4
    have hb5 := (hbn.quiet hq4).quiet hq5
    refine .bind (.get ?_)
    have ht5 := (hs5.node_eq hmem4 hv5).1
    split
    · next hc =>
      refine .pure ⟨hs5, hk5, hv5, .inl ⟨hn5, hno, hc.1, ?_, hb5⟩⟩
      rw [ht5]
      rcases hc.2 with hc | hc <;> simp [hc]
    · refine (iunlockput_borrowed hs5 hb5).seq ?_
      rintro _ s6 ⟨hs6, hq6⟩
      exact .pure ⟨hs6, hk5.trans hq6.keeps, hq6.nodes_eq.trans hn5, fun _ => hno⟩

/-! ## link -/

theorem alike_addNlink (i : Nat) (x : Int) : Alike t (t.addNlink i x) := by
  intro i'
  by_cases hi : i' = i
  · subst hi
    simp [Tree.addNlink]
  · simp [Tree.addNlink, hi]

theorem linkBad_spec (hs : Ok sb (ip ::ₘ h) s) (hv : (s.inode ip).valid = true) :
    Wp E (linkBad sb ip) s fun r s' => r = -1 ∧ Ok sb h s' ∧ Keeps h s s' ∧
      Release (Tree.addNlink (nodes sb s) (s.inode ip).inum (-1)) (nodes sb s')
        (s.inode ip).inum := by
  have hmem := mem_cons_self ip h
  refine (ilock_spec hs hmem fun hfree => ?_).seq ?_
  · rw [(hs.node_eq hmem hv).1] at hfree
    exact absurd hfree (hs.clean ip hmem hv).2
  rintro _ s1 ⟨hs1, hq1, hv1⟩
  refine (addNlink_spec hs1 hmem hv1 (-1)).seq ?_
  rintro _ s2 ⟨hs2, hk2, hn2⟩
  refine .bind (iunlockput_spec hs2 ?_)
  refine (iput_release hs2).mono ?_
  rintro _ s3 ⟨hs3, hk3, hr⟩
  have hk := hq1.keeps.trans hk2
  rw [(hk ip hmem).1, hn2, hq1.nodes_eq, (hq1.keeps ip hmem).1] at hr
  exact .pure ⟨rfl, hs3, hk.of_cons.trans hk3, hr⟩

/-- What `sys_link` does to a tree when it returns `r`: nothing, or the link count is raised and
put back, or the inode is entered. -/
inductive LinkEffect (sb : Super) (t : Tree) (cwd : Nat) (old new : Name) (r : Int) (t' : Tree) :
    Prop
  | same (hr : r = -1) (h : t' = t)
  | undone (hr : r = -1) (i : Nat) (name : Name) (hold : resolve t false cwd old = some (i, name))
      (htype : (t i).type ≠ .dir) (h : Release ((t.addNlink i 1).addNlink i (-1)) t' i)
  | linked (hr : r = 0) (i d : Nat) (oname name : Name) (hold : resolve t false cwd old = some (i, oname))
      (htype : (t i).type ≠ .dir) (hlive : (t i).type ≠ .free) (hi : 1 ≤ i ∧ i < sb.ninodes)
      (hnew : resolve t true cwd new = some (d, name)) (hdir : (t d).type = .dir)
      (hname : NameOk name) (habs : (t d).lookup name = none)
      (h : Release (Tree.link (t.addNlink i 1) d i name) t' i)

theorem link_spec {old new : Name} (hE : E .iget) (hs : Ok sb h s) (hcwd : cwd ∈ h)
    (hd : Dirs sb (nodes sb s)) (hnt : Reaches sb E s cwd) (hp : ∀ b ∈ new, b ≠ 0) :
    Wp E (link sb cwd old new) s fun r s' => Ok sb h s' ∧ Keeps h s s' ∧
      LinkEffect sb (nodes sb s) (s.inode cwd).inum old new r (nodes sb s') := by
  refine (namei_spec (fun _ => hE) hs hcwd hd hnt).seq ?_
  rintro (_ | ip) s1 hr
  · exact .pure ⟨hr.1, hr.2.keeps, .same rfl hr.2.nodes_eq⟩
  obtain ⟨hs1, hq1, hb1, oname, hold⟩ := hr
  have hmem := mem_cons_self ip h
  refine (lockPath_spec hs1 hb1 (hq1.nodes_eq ▸ hnt.resolve hold)).seq ?_
  rintro _ s2 ⟨hs2, hq2, hv2, hb2⟩
  have hk2 : Keeps h s s2 := hq1.keeps.trans hq2.of_cons.keeps
  have hn2 := hq2.nodes_eq.trans hq1.nodes_eq
  have hi2 := (hq2.keeps ip hmem).1
  have ht2 := (hs2.node_eq hmem hv2).1
  have hlive := (hs2.clean ip hmem hv2).2
  have hrange := hs2.inum ip hmem
  rw [← hi2] at hold
  refine .bind (.get ?_)
  refine .ite (fun hdir => ?_) fun hdir => ?_
  · refine (iunlockput_borrowed hs2 hb2).seq ?_
    rintro _ s3 ⟨hs3, hq3⟩
    exact .pure ⟨hs3, hk2.trans hq3.keeps, .same rfl (hq3.nodes_eq.trans hn2)⟩
  rw [← ht2, hn2] at hdir hlive
  refine (addNlink_spec hs2 hmem hv2 1).seq ?_
  rintro _ s3 ⟨hs3, hk3, hn3⟩
  have hi3 := (hk3 ip hmem).1
  have hv3 := ((hk3 ip hmem).2 hv2).1
  rw [hn2] at hn3
  have ha : Alike (nodes sb s) (nodes sb s3) := hn3 ▸ alike_addNlink _ _
  have hc3 : (s3.inode cwd).inum = (s.inode cwd).inum :=
    (hk3 cwd (mem_cons_of_mem hcwd)).1.trans (hk2 cwd hcwd).1
  -- the exits at `bad`
  have hbad : ∀ s4, Ok sb (ip ::ₘ h) s4 → Keeps (ip ::ₘ h) s3 s4 → nodes sb s4 = nodes sb s3 →
      Wp E (linkBad sb ip) s4 fun r s' => Ok sb h s' ∧ Keeps h s s' ∧
        LinkEffect sb (nodes sb s) (s.inode cwd).inum old new r (nodes sb s') := by
    intro s4 hs4 hk4 hn4
    refine (linkBad_spec hs4 ((hk4 ip hmem).2 hv3).1).mono ?_
    rintro r s5 ⟨hr, hs5, hk5, hr5⟩
    rw [hn4, (hk4 ip hmem).1, hn3, hi3] at hr5
    exact ⟨hs5, hk2.trans ((hk3.of_cons.trans hk4.of_cons).trans hk5),
      .undone hr _ _ hold hdir hr5⟩
  refine .bind (iunlock_spec hs3 hmem ?_)
  refine (namex_spec (fun _ => hE) hs3 (mem_cons_of_mem hcwd) (ha.dirs hd) (hnt.alike ha hc3)).seq ?_
  rintro (_ | ⟨dp, name⟩) s4 hw
  · exact hbad s4 hw.2.1 hw.2.2.keeps hw.2.2.nodes_eq
  obtain ⟨hw, hs4, hq4, hb4⟩ := hw
  rw [hc3, ha.resolve] at hw
  obtain ⟨hddir, hname⟩ := resolve_parent hp hw
  have hdmem := mem_cons_self dp (ip ::ₘ h)
  refine (lockParent_spec hs4 hq4 hb4 ((ha _).1 ▸ hddir)).seq ?_
  rintro _ s5 ⟨hs5, hq35, hv5, hb5, hi5, hself⟩
  have hip5 := (hq35.keeps ip hmem).1.trans hi3
  refine .bind (.get ?_)
  refine (dirlink_spec (fun _ => hE) hs5 hdmem hv5 (hself ▸ ha.dirs hd _ ((ha _).1 ▸ hddir)) _).seq ?_
  rintro r s6 ⟨hs6, hk6, ⟨hr, hn6, -⟩ | ⟨rfl, habs, -, hn6⟩⟩
  · rw [if_pos hr]
    have hb6 := hb5.of_fields (hk6 dp hdmem).1 (by rw [hn6]) (by rw [hn6])
    refine (iunlockput_borrowed hs6 hb6).seq ?_
    rintro _ s7 ⟨hs7, hq7⟩
    exact hbad s7 hs7 ((hq35.keeps.trans hk6.of_cons).trans hq7.keeps)
      (hq7.nodes_eq.trans (hn6.trans hq35.nodes_eq))
  · have hb6 : Borrowed sb (ip ::ₘ h) s6 dp := by
      apply hb5.of_fields (hk6 dp hdmem).1
      · rw [hn6, update_self]
        rfl
      · rw [hn6, update_self]
        rfl
    refine (iunlockput_borrowed hs6 hb6).seq ?_
    rintro _ s7 ⟨hs7, hq7⟩
    refine (iput_release hs7).seq ?_
    rintro _ s8 ⟨hs8, hk8, hr8⟩
    have hk : Keeps (ip ::ₘ h) s3 s7 := (hq35.keeps.trans hk6.of_cons).trans hq7.keeps
    have htree : nodes sb s7 = Tree.link (Tree.addNlink (nodes sb s) (s2.inode ip).inum 1)
        (s4.inode dp).inum (s2.inode ip).inum name := by
      rw [hq7.nodes_eq, hn6, hip5, hi5, hq35.nodes_eq, hn3]
      rfl
    rw [htree, (hk ip hmem).1, hi3] at hr8
    rw [hself, ha.lookup] at habs
    exact .pure ⟨hs8, hk2.trans (hk3.of_cons.trans (hk.of_cons.trans hk8)),
      .linked rfl _ _ _ _ hold hdir hlive hrange hw hddir hname habs hr8⟩

/-! ## unlink -/

theorem unlinkBad_spec (hs : Ok sb (dp ::ₘ h) s) (hb : Borrowed sb h s dp) :
    Wp E (unlinkBad sb dp) s fun r s' => r = -1 ∧ Ok sb h s' ∧ Quiet sb h s s' := by
  refine (iunlockput_borrowed hs hb).seq ?_
  rintro _ s' ⟨hs', hq⟩
  exact .pure ⟨rfl, hs', hq⟩

/-- `sys_unlink` removes entry `k` of directory `d`, which names inode `i`. -/
structure Unlinks (t : Tree) (d k i : Nat) : Prop where
  dir : (t d).type = .dir
  slot : k < (t d).slots
  inum : ((t d).dirent k).inum = i
  not_dots : ((t d).dirent k).name ≠ dot ∧ ((t d).dirent k).name ≠ dotdot
  inum_ne : i ≠ 0
  live : (t i).type ≠ .free
  nlink : 1 ≤ (t i).nlink
  empty : (t i).type = .dir → (t i).Empty

/-- What `sys_unlink` does to a tree when it returns `r`: nothing, or an entry is removed. The
directory or the inode may be freed after that. -/
inductive UnlinkEffect (t : Tree) (cwd : Nat) (path : Name) (r : Int) (t' : Tree) : Prop
  | same (hr : r = -1) (h : t' = t)
  | unlinked (hr : r = 0) (d k i : Nat) (name : Name) (t1 : Tree)
      (hpath : resolve t true cwd path = some (d, name)) (hk : (t d).lookup name = some k)
      (h : Unlinks t d k i)
      (h1 : Release ((t.erase d k).addDirNlink (t i).type d (-1)) t1 d)
      (h2 : Release (t1.addNlink i (-1)) t' i)

theorem unlinkEntry_spec (hs : Ok sb (dp ::ₘ ip ::ₘ h) s) (hd : Dirs sb (nodes sb s))
    (hvd : (s.inode dp).valid = true) (hvi : (s.inode ip).valid = true) (hbd : Borrowed sb h s dp)
    (hbi : Borrowed sb h s ip) (hdir : (nodes sb s (s.inode dp).inum).type = .dir)
    (hk : k < (nodes sb s (s.inode dp).inum).slots)
    (hE : (nodes sb s (s.inode ip).inum).nlink < 1 → E .unlinkNlink) :
    Wp E (unlinkEntry sb dp ip (direntSize * k)) s fun r s' => Ok sb h s' ∧ Keeps h s s' ∧
      (r = -1 ∧ nodes sb s' = nodes sb s ∨ r = 0 ∧ 1 ≤ (nodes sb s (s.inode ip).inum).nlink ∧
        ((nodes sb s (s.inode ip).inum).type = .dir → (nodes sb s (s.inode ip).inum).Empty) ∧
        ∃ t1, Release ((Tree.erase (nodes sb s) (s.inode dp).inum k).addDirNlink
            (nodes sb s (s.inode ip).inum).type (s.inode dp).inum (-1)) t1 (s.inode dp).inum ∧
          Release (Tree.addNlink t1 (s.inode ip).inum (-1)) (nodes sb s') (s.inode ip).inum) := by
  have hdmem := mem_cons_self dp (ip ::ₘ h)
  have hmem : ip ∈ dp ::ₘ ip ::ₘ h := mem_cons_of_mem (mem_cons_self ip h)
  obtain ⟨ht, hnl, -⟩ := hs.node_eq hmem hvi
  refine .bind (.get ?_)
  rw [← hnl, ← ht]
  refine .ite (fun hn => .of_error rfl (hE hn)) fun hn => ?_
  refine (notEmpty_spec hs hmem hvi fun hdir => (hd _ hdir).size).seq ?_
  rintro r s' ⟨rfl, hr⟩
  cases r with
  | true =>
    rw [cons_swap] at hs
    refine (iunlockput_borrowed hs (hbi.cons dp)).seq ?_
    rintro _ s1 ⟨hs1, hq1⟩
    refine (unlinkBad_spec hs1 (hbd.quiet hq1)).mono ?_
    rintro _ s2 ⟨rfl, hs2, hq2⟩
    exact ⟨hs2, (hq1.of_cons.trans hq2).keeps, .inl ⟨rfl, (hq1.of_cons.trans hq2).nodes_eq⟩⟩
  | false =>
    refine (eraseEntry_spec hs hdmem hvd hk (hd _ hdir).size).seq ?_
    rintro r s1 ⟨hs1, hk1, rfl, hn1⟩
    refine (addDirNlink_spec hs1 hdmem ((hk1 dp hdmem).2 hvd).1 (-1)).seq ?_
    rintro _ s2 ⟨hs2, hk2, hn2⟩
    have hk12 := hk1.trans hk2
    rw [hn1, (hk1 dp hdmem).1] at hn2
    refine .bind (iunlockput_spec hs2 ?_)
    refine (iput_release hs2).mono ?_
    rintro _ s3 ⟨hs3, hk3, hr3⟩
    have hk13 : Keeps (ip ::ₘ h) s' s3 := hk12.of_cons.trans hk3
    have hmem3 := mem_cons_self ip h
    rw [hn2, (hk12 dp hdmem).1] at hr3
    refine (addNlink_spec hs3 hmem3 ((hk13 ip hmem3).2 hvi).1 (-1)).seq ?_
    rintro _ s4 ⟨hs4, hk4, hn4⟩
    refine .bind (iunlockput_spec hs4 ?_)
    refine (iput_release hs4).mono ?_
    rintro _ s5 ⟨hs5, hk5, hr5⟩
    rw [hn4, (hk4 ip hmem3).1, (hk13 ip hmem3).1] at hr5
    exact .pure ⟨hs5, (hk13.trans hk4).of_cons.trans hk5,
      .inr ⟨rfl, by omega, hr.mp rfl, _, hr3, hr5⟩⟩

/-- The link counts of what entries name are positive, or `sys_unlink` stops with a panic. -/
def Counted (t : Tree) : Prop :=
  ∀ d, (t d).type = .dir → ∀ k, k < (t d).slots → ((t d).dirent k).inum ≠ 0 →
    ((t d).dirent k).name ≠ dot → ((t d).dirent k).name ≠ dotdot →
    1 ≤ (t ((t d).dirent k).inum).nlink

theorem unlink_spec (hE : E .iget) (hs : Ok sb h s) (hcwd : cwd ∈ h) (hd : Dirs sb (nodes sb s))
    (hnt : Reaches sb E s cwd) (hnl : E .unlinkNlink ∨ Counted (nodes sb s))
    (hp : ∀ b ∈ path, b ≠ 0) :
    Wp E (unlink sb cwd path) s fun r s' => Ok sb h s' ∧ Keeps h s s' ∧
      UnlinkEffect (nodes sb s) (s.inode cwd).inum path r (nodes sb s') := by
  refine (namex_spec (fun _ => hE) hs hcwd hd hnt).seq ?_
  rintro (_ | ⟨dp, name⟩) s1 hw
  · exact .pure ⟨hw.2.1, hw.2.2.keeps, .same rfl hw.2.2.nodes_eq⟩
  obtain ⟨hw, hs1, hq1, hb1⟩ := hw
  obtain ⟨hdir, hname⟩ := resolve_parent hp hw
  have hmem := mem_cons_self dp h
  refine (lockParent_spec hs1 hq1 hb1 hdir).seq ?_
  rintro _ s2 ⟨hs2, hq2, hv2, hb2, hi2, hself⟩
  have hn2 := hq2.nodes_eq
  have hk2 := hq2.keeps
  -- the exits at `bad`
  have hbad : Wp E (unlinkBad sb dp) s2 fun r s' => Ok sb h s' ∧ Keeps h s s' ∧
      UnlinkEffect (nodes sb s) (s.inode cwd).inum path r (nodes sb s') := by
    refine (unlinkBad_spec hs2 hb2).mono ?_
    rintro _ s3 ⟨rfl, hs3, hq3⟩
    exact ⟨hs3, hk2.trans hq3.keeps, .same rfl (hq3.nodes_eq.trans hn2)⟩
  by_cases hdots : name = dot ∨ name = dotdot
  · rw [if_pos hdots]
    exact hbad
  rw [if_neg hdots, not_or] at *
  have hd2 := hself ▸ hd _ hdir
  refine (dirlookup_spec (fun _ => hE) hs2 hmem hv2 hd2).seq ?_
  rintro (_ | ⟨ip, off⟩) s3 hr
  · obtain ⟨-, rfl⟩ := hr
    exact hbad
  obtain ⟨k, hl, rfl, hs3, hq3, hi3⟩ := hr
  rw [hn2, hi2] at hl hi3
  obtain ⟨hk, ⟨h0, hnm⟩, -⟩ := Node.lookup_eq_some.mp hl
  have hbi : Borrowed sb h s3 ip := (hb2.quiet hq3).of_cons (hs2.borrowed hs3 hq3)
  have himem := mem_cons_self ip (dp ::ₘ h)
  have hn3 := hq3.nodes_eq.trans hn2
  refine (ilock_spec hs3 himem fun hfree => ?_).seq ?_
  · rcases hnt with hnt | ⟨hint, -⟩
    · exact hnt
    · rw [hn3, hi3] at hfree
      exact absurd hfree (hint _ hdir k hk h0)
  rintro _ s4 ⟨hs4, hq4, hv4⟩
  have hdmem : dp ∈ ip ::ₘ dp ::ₘ h := mem_cons_of_mem hmem
  have hi4 : (s4.inode ip).inum = _ := (hq4.keeps ip himem).1.trans hi3
  have hn4 := hq4.nodes_eq.trans hn3
  have hdp4 : (s4.inode dp).inum = (s1.inode dp).inum :=
    ((hq4.keeps dp hdmem).1.trans (hq3.keeps dp hmem).1).trans hi2
  have hvd4 := ((hq3.trans hq4.of_cons).keeps dp hmem).2 hv2
  have hbd4 := (hb2.quiet hq3).quiet hq4.of_cons
  have hbi4 : Borrowed sb h s4 ip := by
    rw [Borrowed, hq4.nodes_eq, (hq4.keeps ip himem).1]
    exact hbi
  have hlive := (hs4.clean ip himem hv4).2
  rw [← (hs4.node_eq himem hv4).1, hn4, hi4] at hlive
  rw [cons_swap] at hs4
  refine (unlinkEntry_spec hs4 (hn4 ▸ hd) hvd4.1 hv4 hbd4 hbi4 (by rw [hn4, hdp4]; exact hdir)
    (by rw [hn4, hdp4]; exact hk) ?_).mono ?_
  · rw [hn4, hi4]
    intro hlt
    rcases hnl with hnl | hnl
    · exact hnl
    · have := hnl _ hdir k hk h0 (hnm ▸ hdots.1) (hnm ▸ hdots.2)
      omega
  · rintro _ s5 ⟨hs5, hk5, hr⟩
    have hkeep : Keeps h s s5 :=
      (hk2.trans (hq3.of_cons.keeps.trans hq4.of_cons.of_cons.keeps)).trans hk5
    rw [hn4, hi4, hdp4] at hr
    refine ⟨hs5, hkeep, ?_⟩
    rcases hr with ⟨hr0, hr⟩ | ⟨hr0, h1, hempty, t1, hr1, hr2⟩
    · exact .same hr0 hr
    · exact .unlinked hr0 _ _ _ _ t1 hw hl
        ⟨hdir, hk, rfl, ⟨hnm ▸ hdots.1, hnm ▸ hdots.2⟩, h0, hlive, h1, hempty⟩ hr1 hr2

end Xv6.Fs
