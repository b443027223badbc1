import Xv6.Fs.Names

/-!
# Directories are finite maps

The names of a directory are what `strncmp` and `strncpy` make of the first `DIRSIZ` bytes. `dirlink`
adds a name to the map, and the write of zeros in `sys_unlink` removes one.
-/

namespace Xv6.Fs

open ByteMem Multiset
open Node (dirent_enter lookup_eq_none lookup_eq_some slots_enter)

variable {sb : Super} {E : Stop → Prop} {h : Multiset Ip} {s : State} {dp : Ip} {n : Node}
  {name m : Name} {de : Dirent} {k : Nat}

/-! ## Names in memory -/

def strncmp : Nat → (Nat → Byte) → (Nat → Byte) → Int
  | 0, _, _ => 0
  | n + 1, p, q =>
    if p 0 ≠ 0 ∧ p 0 = q 0 then strncmp n (fun i => p (i + 1)) (fun i => q (i + 1))
    else (p 0).toNat - (q 0).toNat

/-- `strncpy` of `kernel/string.c`: the bytes it stores. -/
def strncpy : Nat → (Nat → Byte) → List Byte
  | 0, _ => []
  | n + 1, t => if t 0 ≠ 0 then t 0 :: strncpy n fun i => t (i + 1) else List.replicate (n + 1) 0

def upto (n : Nat) (p : Nat → Byte) : Name := ((List.range n).map p).takeWhile (· ≠ 0)

theorem upto_succ (n : Nat) (p : Nat → Byte) :
    upto (n + 1) p = if p 0 ≠ 0 then p 0 :: upto n fun i => p (i + 1) else [] := by
  simp only [upto, List.range_succ_eq_map, List.map_cons, List.map_map, List.takeWhile_cons,
    decide_eq_true_eq]
  rfl

theorem strncmp_eq_zero (n : Nat) : ∀ p q, strncmp n p q = 0 ↔ upto n p = upto n q := by
  induction n with
  | zero => intro p q; exact ⟨fun _ => rfl, fun _ => rfl⟩
  | succ n ih =>
    intro p q
    rw [strncmp, upto_succ, upto_succ]
    have htoNat : p 0 ≠ q 0 → ((p 0).toNat : Int) - (q 0).toNat ≠ 0 := by
      intro hne e
      exact hne (BitVec.eq_of_toNat_eq (by omega))
    by_cases hpq : p 0 = q 0
    · by_cases hq : q 0 = 0
      · rw [hpq, if_neg (fun h => h.1 hq), if_neg (not_not_intro hq), if_neg (not_not_intro hq)]
        simp
      · rw [hpq, if_pos ⟨hq, rfl⟩, if_pos hq, if_pos hq, ih, List.cons.injEq, eq_self, true_and]
    · rw [if_neg (fun h => hpq h.2), iff_false_left (htoNat hpq)]
      split <;> split <;> simp_all

theorem strncpy_eq (n : Nat) : ∀ t, strncpy n t =
    upto n t ++ List.replicate (n - (upto n t).length) 0 := by
  induction n with
  | zero => intro t; rfl
  | succ n ih =>
    intro t
    rw [strncpy, upto_succ]
    by_cases ht : t 0 = 0
    · rw [if_neg (not_not_intro ht), if_neg (not_not_intro ht)]
      rfl
    · rw [if_pos ht, if_pos ht, ih, List.cons_append, List.length_cons, Nat.add_sub_add_right]

theorem upto_ok (p : Nat → Byte) : NameOk (upto dirsiz p) := by
  refine ⟨?_, ?_⟩
  · intro b hb
    simpa using List.all_eq_true.mp List.all_takeWhile b hb
  · exact Nat.le_trans (List.takeWhile_sublist _).length_le (by simp)

/-! ## The map -/

def Node.find (n : Node) (name : Name) : Option Nat :=
  (n.lookup name).map fun k => (n.dirent k).inum

def Node.Names (n : Node) (name : Name) (k : Nat) : Prop :=
  (n.dirent k).inum ≠ 0 ∧ name = (n.dirent k).name

def Node.Distinct (n : Node) : Prop :=
  ∀ name j k, j < n.slots → k < n.slots → n.Names name j → n.Names name k → j = k

theorem Node.find_enter_of_not (hsize : n.size % direntSize = 0) (hname : NameOk de.name)
    (hold : k < n.slots → ¬n.Names m k) (hk : k ≤ n.slots) (hnew : ¬(n.enter k de).Names m k) :
    (n.enter k de).find m = n.find m := by
  have hslots : (n.enter k de).slots = _ := slots_enter hsize
  have hsame : ∀ j, j < n.slots → j ≠ k → (n.enter k de).dirent j = n.dirent j := by
    intro j hj hjk
    rw [dirent_enter hname (by omega), if_neg hjk]
  cases hl : n.lookup m with
  | none =>
    have hall := lookup_eq_none.mp hl
    have hl' : (n.enter k de).lookup m = none := by
      apply lookup_eq_none.mpr
      intro j hj
      by_cases hjk : j = k
      · exact hjk ▸ hnew
      · rw [hsame j (by omega) hjk]
        exact hall j (by omega)
    rw [Node.find, Node.find, hl, hl']
    rfl
  | some i =>
    obtain ⟨hi, hm, hbefore⟩ := lookup_eq_some.mp hl
    have hik : i ≠ k := fun e => hold (e ▸ hi) (e ▸ hm)
    have hl' : (n.enter k de).lookup m = some i := by
      apply lookup_eq_some.mpr
      refine ⟨by omega, by rwa [hsame i hi hik], ?_⟩
      intro j hj
      by_cases hjk : j = k
      · exact hjk ▸ hnew
      · rw [hsame j (by omega) hjk]
        exact hbefore j hj
    rw [Node.find, Node.find, hl, hl', Option.map_some, Option.map_some, hsame i hi hik]

theorem Node.find_enter_self (hsize : n.size % direntSize = 0) (hname : NameOk de.name)
    (hnone : n.lookup de.name = none) (hk : k ≤ n.slots) (h0 : de.inum % 2 ^ 16 ≠ 0) :
    (n.enter k de).find de.name = some (de.inum % 2 ^ 16) := by
  have hslots : (n.enter k de).slots = _ := slots_enter hsize
  have hl : (n.enter k de).lookup de.name = some k := by
    apply lookup_eq_some.mpr
    refine ⟨by omega, ?_, ?_⟩
    · rw [dirent_enter hname (by omega), if_pos rfl]
      exact ⟨h0, rfl⟩
    · intro j hj
      rw [dirent_enter hname (by omega), if_neg (by omega)]
      exact lookup_eq_none.mp hnone j (by omega)
  rw [Node.find, hl, Option.map_some, dirent_enter hname (by omega), if_pos rfl]

theorem Node.Distinct.enter (hu : n.Distinct) (hsize : n.size % direntSize = 0)
    (hname : NameOk de.name) (hk : k ≤ n.slots)
    (hnone : de.inum % 2 ^ 16 ≠ 0 → n.lookup de.name = none) : (n.enter k de).Distinct := by
  have hslots : (n.enter k de).slots = _ := slots_enter hsize
  -- a live entry with the name of the new one is the new one
  have hself : ∀ name j, j < (n.enter k de).slots → (n.enter k de).Names name j →
      j ≠ k → n.Names name j ∧ ¬(n.enter k de).Names name k := by
    intro name j hj hm hjk
    rw [Node.Names, dirent_enter hname hj, if_neg hjk] at hm
    refine ⟨hm, ?_⟩
    rw [Node.Names, dirent_enter hname (by omega), if_pos rfl]
    rintro ⟨h0, rfl⟩
    exact lookup_eq_none.mp (hnone h0) j (by omega) hm
  intro name i j hi hj hni hnj
  by_cases hik : i = k
  · by_cases hjk : j = k
    · rw [hik, hjk]
    · exact absurd (hik ▸ hni) (hself name j hj hnj hjk).2
  · by_cases hjk : j = k
    · exact absurd (hjk ▸ hnj) (hself name i hi hni hik).2
    · exact hu name i j (by omega) (by omega) (hself name i hi hni hik).1 (hself name j hj hnj hjk).1

theorem Node.freeSlot_dead (hk : n.freeSlot < n.slots) : (n.dirent n.freeSlot).inum = 0 := by
  unfold Node.freeSlot at hk ⊢
  cases hf : (List.range n.slots).find? fun k => (n.dirent k).inum = 0 with
  | none => simp [hf] at hk
  | some j => simpa using List.find?_some hf

theorem Node.find_link (hsize : n.size % direntSize = 0) (hname : NameOk de.name)
    (hnone : n.lookup de.name = none) (h0 : de.inum % 2 ^ 16 ≠ 0) (m : Name) :
    (n.enter n.freeSlot de).find m = if m = de.name then some (de.inum % 2 ^ 16) else n.find m := by
  split
  · next he => exact he ▸ Node.find_enter_self hsize hname hnone n.freeSlot_le h0
  · next hne =>
    refine Node.find_enter_of_not hsize hname (fun hk hm => hm.1 (Node.freeSlot_dead hk))
      n.freeSlot_le ?_
    have hslots : (n.enter n.freeSlot de).slots = _ := slots_enter hsize
    rw [Node.Names, dirent_enter hname (by omega), if_pos rfl]
    exact fun hm => hne hm.2

theorem Node.find_erase (hsize : n.size % direntSize = 0) (hu : n.Distinct)
    (hl : n.lookup name = some k) (m : Name) :
    (n.erase k).find m = if m = name then none else n.find m := by
  obtain ⟨hk, hm, -⟩ := lookup_eq_some.mp hl
  have hslots : (n.enter k { inum := 0, name := [] }).slots = _ := slots_enter hsize
  have hnil : NameOk [] := ⟨by simp, by simp⟩
  have hdead : ¬(n.erase k).Names m k := by
    rw [Node.Names, Node.erase, dirent_enter hnil (by omega), if_pos rfl]
    exact fun h => h.1 rfl
  split
  · next he =>
    subst he
    have hl' : (n.erase k).lookup m = none := by
      apply lookup_eq_none.mpr
      intro j hj
      by_cases hjk : j = k
      · exact hjk ▸ hdead
      · rw [Node.erase, dirent_enter hnil hj, if_neg hjk]
        exact fun hm' => hjk (hu m j k (by rw [Node.erase] at hj; omega) hk hm' hm)
    rw [Node.find, hl']
    rfl
  · next hne =>
    refine Node.find_enter_of_not hsize hnil (fun _ hm' => hne (hm'.2.trans hm.2.symm))
      (Nat.le_of_lt hk) hdead

/-- Every directory is a map from names, which `strncmp` compares and `strncpy` stores: `dirlookup`
reads it, `dirlink` adds a name that is not there or changes nothing, and zeros over the entry that
`dirlookup` finds remove a name. No two live entries get the same name. The one other outcome is the
`panic` of `iget`, when no entry of the inode table is free. -/
theorem directories_are_maps (hs : Ok sb h s) (hip : dp ∈ h) (hv : (s.inode dp).valid = true)
    (hd : (nodes sb s (s.inode dp).inum).IsDir sb) :
    let n := nodes sb s (s.inode dp).inum
    let full := fun e => e = Stop.iget ∧ ∀ ip, ip ∈ h
    (∀ p q, strncmp dirsiz p q = 0 ↔ upto dirsiz p = upto dirsiz q) ∧
    (∀ p inum, strncpy dirsiz p =
      (List.range dirsiz).map fun i => Dirent.bytes { inum := inum, name := upto dirsiz p } (i + 2)) ∧
    (∀ p, Wp full (dirlookup sb dp (upto dirsiz p)) s fun r s' =>
      r.map (fun x => ((s'.inode x.1).inum, x.2)) =
        (n.lookup (upto dirsiz p)).map fun k => ((n.dirent k).inum, direntSize * k)) ∧
    (∀ p inum, 1 ≤ inum → inum < 2 ^ 16 → Wp full (dirlink sb dp (upto dirsiz p) inum) s fun r s' =>
      let n' := nodes sb s' (s.inode dp).inum
      (n.Distinct → n'.Distinct) ∧
      (r = 0 ∧ n.find (upto dirsiz p) = none ∧
          (∀ m, n'.find m = if m = upto dirsiz p then some inum else n.find m) ∨
        r < 0 ∧ ∀ m, n'.find m = n.find m)) ∧
    (∀ name k, n.Distinct → n.lookup name = some k →
      Wp (fun _ => False) (writei sb dp (fun _ => some 0) (direntSize * k) direntSize) s fun r s' =>
        let n' := nodes sb s' (s.inode dp).inum
        r = direntSize ∧ n'.Distinct ∧ ∀ m, n'.find m = if m = name then none else n.find m) := by
  intro n full
  have hfull : (∀ ip, ip ∈ h) → full .iget := fun hf => ⟨rfl, hf⟩
  refine ⟨strncmp_eq_zero dirsiz, ?_, ?_, ?_, ?_⟩
  · intro p inum
    rw [strncpy_eq, ← map_getD_eq _ (upto_ok p).2]
    rfl
  · intro p
    refine (dirlookup_spec hfull hs hip hv hd).mono ?_
    rintro (_ | ⟨ip, off⟩) s' hr
    · rw [hr.1]
      rfl
    · obtain ⟨k, hl, rfl, -, -, hi⟩ := hr
      rw [hl, Option.map_some, hi]
      rfl
  · intro p inum h1 h2
    have hmod : inum % 2 ^ 16 = inum := Nat.mod_eq_of_lt h2
    refine (dirlink_spec hfull hs hip hv hd inum).mono ?_
    rintro r s' ⟨-, -, ⟨hr, hn, -⟩ | ⟨hr, hl, -, hn⟩⟩
    · rw [hn]
      exact ⟨id, .inr ⟨hr, fun _ => rfl⟩⟩
    · rw [hn, Function.update_self]
      refine ⟨fun hu => hu.enter hd.size (upto_ok p) n.freeSlot_le fun _ => hl, .inl ⟨hr, ?_, ?_⟩⟩
      · rw [Node.find, hl]
        rfl
      · intro m
        rw [Node.find_link hd.size (upto_ok p) hl (by rw [hmod]; omega), hmod]
  · intro name k hu hl
    obtain ⟨hk, -⟩ := lookup_eq_some.mp hl
    refine (eraseEntry_spec hs hip hv hk hd.size).mono ?_
    rintro r s' ⟨-, -, hr, hn⟩
    rw [hn, Function.update_self]
    refine ⟨hr, ?_, Node.find_erase hd.size hu hl⟩
    exact hu.enter hd.size ⟨by simp, by simp⟩ (Nat.le_of_lt hk) fun h0 => absurd rfl h0

/-- The name `x` is entered in the root directory of a new disk. -/
theorem directories_are_maps_root : ∃ (s : State) (dp : Ip),
    Wp (fun e => e = .iget ∧ ∀ ip, ip ∈ ({dp} : Multiset Ip))
      (dirlink smallSuper dp (upto dirsiz fun i => if i = 0 then 120 else 0) 5) s fun r s' =>
      r = 0 ∧ (nodes smallSuper s' (s.inode dp).inum).find [120] = some 5 := by
  obtain ⟨s, ip, hok, hv, hi, hn⟩ := exists_root
  have hd : (nodes smallSuper s (s.inode ip).inum).IsDir smallSuper := by
    have := (@emptyImage_image smallSuper (by decide)).dirs rootino
    rw [emptyImage_nodes, ← hn] at this
    exact hi ▸ this (by rw [hn]; rfl)
  have hnode : nodes smallSuper s (s.inode ip).inum = newNode .dir 0 0 rootino rootino := by
    rw [hn, hi, Function.update_self]
  -- the entry goes to the block that has the first two
  have hroom : EntryRoom smallSuper s (s.inode ip).inum 2 := by
    have hmem := mem_singleton_self ip
    refine ⟨by decide, .inl (hok.owned.mapped _ (hok.live hmem hv) 0 ?_)⟩
    rw [← (hok.clean ip hmem hv).1, ← (hok.node_eq hmem hv).2.2.1, hnode]
    decide
  refine ⟨s, ip, (((directories_are_maps hok (mem_singleton_self ip) hv hd).2.2.2.1
    (fun i => if i = 0 then 120 else 0) 5 (by decide) (by decide)).and
    (dirlink_spec (E := fun e => e = .iget ∧ ∀ ip', ip' ∈ ({ip} : Multiset Ip))
      (fun hf => ⟨rfl, hf⟩) hok (mem_singleton_self ip) hv hd 5)).mono ?_⟩
  rintro r s' ⟨⟨-, ⟨hr, -, hf⟩ | ⟨hr, -⟩⟩, -, -, ⟨-, -, hno⟩ | ⟨h0, -⟩⟩
  · exact ⟨hr, hf [120]⟩
  · exact ⟨hr, hf [120]⟩
  · rw [hnode] at hno
    exact absurd hroom (hno (by decide))
  · omega

end Xv6.Fs
