import Xv6.Fs.ContentSpec
import Xv6.Sysfile

/-!
# Directories

The entries of a directory, and `dirlookup`, `dirlink` and `isdirempty` on them.
-/

namespace Xv6.Fs

open ByteMem Multiset

variable {sb : Super} {E : Stop → Prop} {h : Multiset Ip} {s s' : State} {dp ip : Ip} {name : Name}
  {k : Nat}

/-! ## Entries -/

def Node.dirent (n : Node) (k : Nat) : Dirent := Dirent.parse (n.bytes (direntSize * k) direntSize)

def Node.slots (n : Node) : Nat := n.size / direntSize

/-- A directory whose entries name inodes of the disk. -/
structure Node.IsDir (sb : Super) (n : Node) : Prop where
  type : n.type = .dir
  size : n.size % direntSize = 0
  inum : ∀ k, k < n.slots → (n.dirent k).inum < sb.ninodes

def NameOk (name : Name) : Prop := (∀ b ∈ name, b ≠ 0) ∧ name.length ≤ dirsiz

def Node.enter (n : Node) (k : Nat) (de : Dirent) : Node :=
  n.write de.bytes (direntSize * k) direntSize direntSize

theorem map_getD_eq (name : Name) {m : Nat} (h : name.length ≤ m) :
    (List.range m).map (fun i => name.getD i 0) = name ++ List.replicate (m - name.length) 0 := by
  apply List.ext_getElem
  · simp
    omega
  · grind

theorem parse_bytes (de : Dirent) (hname : NameOk de.name) :
    Dirent.parse ((List.range direntSize).map de.bytes) =
      { inum := de.inum % 2 ^ 16, name := de.name } := by
  have hdrop : ((List.range direntSize).map de.bytes).drop 2 =
      (List.range dirsiz).map fun i => de.name.getD i 0 := by
    simp [direntSize, dirsiz, List.range_succ, Dirent.bytes]
  have h0 : ((List.range direntSize).map de.bytes).getD 0 0 = BitVec.ofNat 8 de.inum := rfl
  have h1 : ((List.range direntSize).map de.bytes).getD 1 0 = BitVec.ofNat 8 (de.inum / 256) := rfl
  have hnum : (BitVec.ofNat 8 de.inum).toNat + 256 * (BitVec.ofNat 8 (de.inum / 256)).toNat =
      de.inum % 2 ^ 16 := by grind
  have hlen : ((List.range dirsiz).map fun i => de.name.getD i 0).length ≤ dirsiz := by simp
  rw [Dirent.parse, h0, h1, hnum, hdrop, List.take_of_length_le hlen, map_getD_eq _ hname.2]
  rw [List.takeWhile_append_of_pos (by simpa using hname.1)]
  simp

section Enter

variable {n : Node} {de : Dirent}

theorem Node.slots_enter (hsize : n.size % direntSize = 0) :
    (n.enter k de).slots = max n.slots (k + 1) := by
  simp only [Node.slots, Node.enter, Node.write, direntSize] at *
  omega

theorem Node.size_enter (hsize : n.size % direntSize = 0) :
    (n.enter k de).size % direntSize = 0 := by
  simp only [Node.enter, Node.write, direntSize] at *
  omega

theorem Node.dirent_enter (hname : NameOk de.name) {j : Nat} (hj : j < (n.enter k de).slots) :
    (n.enter k de).dirent j =
      if j = k then { inum := de.inum % 2 ^ 16, name := de.name } else n.dirent j := by
  have hdata : ∀ b, b < direntSize → (n.enter k de).data (direntSize * j + b) =
      if j = k then de.bytes b else n.data (direntSize * j + b) := by
    intro b hb
    have hlt : direntSize * j + b < max n.size (direntSize * k + direntSize) := by
      simp only [Node.slots, Node.enter, Node.write, direntSize] at *
      omega
    have hin : (direntSize * k ≤ direntSize * j + b ∧
        direntSize * j + b < direntSize * k + direntSize) ↔ j = k := by
      simp only [direntSize] at *
      omega
    simp only [Node.enter, Node.write, if_pos hlt, hin]
    split
    · grind
    · rfl
  have hbytes : (n.enter k de).bytes (direntSize * j) direntSize =
      if j = k then (List.range direntSize).map de.bytes
      else n.bytes (direntSize * j) direntSize := by
    split
    · next hjk =>
      apply List.map_congr_left
      intro b hb
      rw [hdata b (List.mem_range.mp hb), if_pos hjk]
    · next hjk =>
      apply List.map_congr_left
      intro b hb
      rw [hdata b (List.mem_range.mp hb), if_neg hjk]
  rw [Node.dirent, hbytes]
  split
  · exact parse_bytes de hname
  · rfl

theorem Node.IsDir.enter (hd : n.IsDir sb) (hname : NameOk de.name) (hi : de.inum < sb.ninodes)
    (hk : k ≤ n.slots) : (n.enter k de).IsDir sb := by
  refine ⟨hd.type, Node.size_enter hd.size, ?_⟩
  intro j hj
  rw [Node.dirent_enter hname hj]
  have hle := sb.ninodes_le
  split
  · rwa [Nat.mod_eq_of_lt (by omega)]
  · rw [Node.slots_enter hd.size] at hj
    exact hd.inum j (by omega)

end Enter

/-! ## Reading entries -/

theorem Ok.size_le (hs : Ok sb h s) (hip : ip ∈ h) (hv : (s.inode ip).valid = true) :
    (nodes sb s (s.inode ip).inum).size ≤ maxfile * bsize := by
  rw [(hs.node_eq hip hv).2.2.1, (hs.clean ip hip hv).1]
  exact hs.owned.size_le _ (hs.live hip hv)

theorem Ok.slots_le (hs : Ok sb h s) (hip : ip ∈ h) (hv : (s.inode ip).valid = true) :
    (s.node sb ip).slots ≤ (s.inode ip).size := by
  rw [← (hs.node_eq hip hv).2.2.1]
  exact Nat.div_le_self _ _

theorem readDirent_spec {Q : Dirent → State → Prop} {e : Stop} (hs : Ok sb h s) (hip : ip ∈ h)
    (hv : (s.inode ip).valid = true) (hk : k < (nodes sb s (s.inode ip).inum).slots)
    (hQ : Q ((nodes sb s (s.inode ip).inum).dirent k) s) :
    Wp E (readDirent sb ip (direntSize * k) e) s Q := by
  have hsize := hs.size_le hip hv
  have hlen : (nodes sb s (s.inode ip).inum).readLen (direntSize * k) direntSize = direntSize := by
    have hle : direntSize * k + direntSize ≤ (nodes sb s (s.inode ip).inum).size := by
      simp only [Node.slots, direntSize] at *
      omega
    simp only [maxfile, ndirect, nindirect, bsize] at hsize
    rw [Node.readLen, if_neg (by simp only [direntSize] at *; omega)]
    omega
  refine (readi_spec hs hip hv _).seq ?_
  rintro ⟨r, bytes⟩ s' ⟨rfl, hr | ⟨-, _, _, hbad, -⟩⟩
  · rw [hlen, Prod.mk.injEq] at hr
    obtain ⟨rfl, rfl⟩ := hr
    exact .pure hQ
  · exact absurd hbad (by simp)

def Node.lookup (n : Node) (name : Name) : Option Nat :=
  (List.range n.slots).find? fun k => (n.dirent k).inum ≠ 0 ∧ name = (n.dirent k).name

theorem Node.lookup_eq_some {n : Node} : n.lookup name = some k ↔
    k < n.slots ∧ ((n.dirent k).inum ≠ 0 ∧ name = (n.dirent k).name) ∧
      ∀ j, j < k → ¬((n.dirent j).inum ≠ 0 ∧ name = (n.dirent j).name) := by
  simp only [Node.lookup, List.find?_range_eq_some, decide_eq_true_eq, List.mem_range]
  simp only [Bool.not_eq_true', decide_eq_false_iff_not]
  tauto

theorem Node.lookup_eq_none {n : Node} : n.lookup name = none ↔
    ∀ k, k < n.slots → ¬((n.dirent k).inum ≠ 0 ∧ name = (n.dirent k).name) := by
  simp [Node.lookup, List.find?_eq_none]

theorem Node.mul_slots {n : Node} (h : n.size % direntSize = 0) :
    direntSize * n.slots = n.size := by
  simp only [Node.slots, direntSize] at *
  omega

theorem direntLoop_spec {α : Type} {e : Stop} (test : Dirent → Prop) [DecidablePred test]
    (found : Dirent → Nat → α) (last : Nat → α) (loop : Nat → Nat → F α)
    (hzero : ∀ off, loop 0 off = pure (last off))
    (hsucc : ∀ fuel off, loop (fuel + 1) off = if off < (s.inode dp).size then do
        let de ← readDirent sb dp off e
        if test de then pure (found de off) else loop fuel (off + direntSize)
      else pure (last off))
    (hs : Ok sb h s) (hip : dp ∈ h) (hv : (s.inode dp).valid = true)
    (hsize : (s.node sb dp).size % direntSize = 0) (fuel : Nat) (k : Nat)
    (hfuel : (s.node sb dp).slots - k ≤ fuel) :
    Wp E (loop fuel (direntSize * k)) s fun r s' => s' = s ∧
      ∃ j, k ≤ j ∧ j ≤ max k (s.node sb dp).slots ∧
        (∀ i, k ≤ i → i < j → ¬test ((s.node sb dp).dirent i)) ∧
        (j < (s.node sb dp).slots ∧ test ((s.node sb dp).dirent j) ∧
            r = found ((s.node sb dp).dirent j) (direntSize * j) ∨
          (s.node sb dp).slots ≤ j ∧ r = last (direntSize * j)) := by
  induction fuel generalizing k with
  | zero =>
    rw [hzero]
    exact .pure ⟨rfl, k, by omega, by omega, by omega, .inr ⟨by omega, rfl⟩⟩
  | succ fuel ih =>
    have hmul := Node.mul_slots hsize
    rw [(hs.node_eq hip hv).2.2.1] at hmul
    rw [hsucc]
    by_cases hlt : k < (s.node sb dp).slots
    · rw [if_pos (by simp only [direntSize] at *; omega)]
      refine .bind (readDirent_spec hs hip hv hlt ?_)
      refine .ite (fun ht => ?_) fun ht => ?_
      · exact .pure ⟨rfl, k, by omega, by omega, by omega, .inl ⟨hlt, ht, rfl⟩⟩
      · refine (ih (k + 1) (by omega)).mono ?_
        rintro r s' ⟨hs', j, hj, hle, hb, hr⟩
        refine ⟨hs', j, by omega, by omega, ?_, hr⟩
        intro i hi hij
        rcases Nat.eq_or_lt_of_le hi with rfl | hi
        · exact ht
        · exact hb i hi hij
    · rw [if_neg (by simp only [direntSize] at *; omega)]
      exact .pure ⟨rfl, k, by omega, by omega, by omega, .inr ⟨by omega, rfl⟩⟩

theorem dirlookupLoop_spec (hs : Ok sb h s) (hip : dp ∈ h) (hv : (s.inode dp).valid = true)
    (hsize : (s.node sb dp).size % direntSize = 0) :
    Wp E (dirlookupLoop sb dp name (s.inode dp).size (s.inode dp).size 0) s fun r s' =>
      s' = s ∧ r = ((s.node sb dp).lookup name).map fun k =>
        (((s.node sb dp).dirent k).inum, direntSize * k) := by
  refine (direntLoop_spec (fun de => de.inum ≠ 0 ∧ name = de.name)
    (fun de off => some (de.inum, off)) (fun _ => none) _ (fun _ => rfl) (fun _ _ => rfl)
    hs hip hv hsize _ 0 (hs.slots_le hip hv)).mono ?_
  rintro r s' ⟨rfl, k, -, -, hb, ⟨hk, ht, rfl⟩ | ⟨hk, rfl⟩⟩
  · rw [Node.lookup_eq_some.mpr ⟨hk, ht, fun j hj => hb j (Nat.zero_le j) hj⟩]
    exact ⟨rfl, rfl⟩
  · rw [Node.lookup_eq_none.mpr fun j hj => hb j (Nat.zero_le j) (by omega)]
    exact ⟨rfl, rfl⟩

theorem dirlookup_spec (hE : (∀ ip, ip ∈ h) → E .iget) (hs : Ok sb h s) (hip : dp ∈ h)
    (hv : (s.inode dp).valid = true) (hd : (nodes sb s (s.inode dp).inum).IsDir sb) :
    Wp E (dirlookup sb dp name) s fun r s' =>
      match r with
      | none => (nodes sb s (s.inode dp).inum).lookup name = none ∧ s' = s
      | some (ip, off) => ∃ k, (nodes sb s (s.inode dp).inum).lookup name = some k ∧
        off = direntSize * k ∧ Ok sb (ip ::ₘ h) s' ∧ Quiet sb h s s' ∧
        (s'.inode ip).inum = ((nodes sb s (s.inode dp).inum).dirent k).inum := by
  refine .bind (.get ?_)
  rw [if_neg (by rw [← (hs.node_eq hip hv).1, hd.type]; simp)]
  refine (dirlookupLoop_spec hs hip hv hd.size).seq ?_
  rintro r s' ⟨rfl, rfl⟩
  cases hl : (nodes sb s' (s'.inode dp).inum).lookup name with
  | none => exact .pure ⟨rfl, rfl⟩
  | some k =>
    obtain ⟨hk, ⟨h0, -⟩, -⟩ := Node.lookup_eq_some.mp hl
    refine (iget_spec hE hs ⟨Nat.one_le_iff_ne_zero.mpr h0, hd.inum k hk⟩).seq ?_
    rintro ip s'' ⟨hok, hq, hi⟩
    exact .pure ⟨k, rfl, rfl, hok, hq, hi⟩

/-! ## Writing entries -/

/-- The entry where `dirlink` puts a name: the first empty one, or a new one. -/
def Node.freeSlot (n : Node) : Nat :=
  ((List.range n.slots).find? fun k => (n.dirent k).inum = 0).getD n.slots

theorem Node.freeSlot_le (n : Node) : n.freeSlot ≤ n.slots := by
  unfold Node.freeSlot
  cases hf : (List.range n.slots).find? fun k => (n.dirent k).inum = 0 with
  | none => exact Nat.le_refl _
  | some => exact Nat.le_of_lt (List.mem_range.mp (List.mem_of_find?_eq_some hf))

theorem dirlinkLoop_spec (hs : Ok sb h s) (hip : dp ∈ h) (hv : (s.inode dp).valid = true)
    (hsize : (s.node sb dp).size % direntSize = 0) :
    Wp E (dirlinkLoop sb dp (s.inode dp).size (s.inode dp).size 0) s fun r s' =>
      s' = s ∧ r = direntSize * (s.node sb dp).freeSlot := by
  refine (direntLoop_spec (fun de => de.inum = 0) (fun _ off => off) (fun off => off) _
    (fun _ => rfl) (fun _ _ => rfl) hs hip hv hsize _ 0 (hs.slots_le hip hv)).mono ?_
  rintro r s' ⟨rfl, k, -, hle, hb, ⟨hk, ht, rfl⟩ | ⟨hk, rfl⟩⟩
  · have hf : ((List.range (s'.node sb dp).slots).find?
        fun k => ((s'.node sb dp).dirent k).inum = 0) = some k := by simp_all
    rw [Node.freeSlot, hf, Option.getD_some]
    exact ⟨rfl, rfl⟩
  · have hf : ((List.range (s'.node sb dp).slots).find?
        fun k => ((s'.node sb dp).dirent k).inum = 0) = none := by grind
    rw [Node.freeSlot, hf, Option.getD_none]
    exact ⟨rfl, congrArg _ (by omega)⟩

def EntryRoom (sb : Super) (s : State) (d k : Nat) : Prop :=
  direntSize * k + direntSize ≤ maxfile * bsize ∧
    Obtains sb s.bitmap s.dinode s.block d (direntSize * k / bsize)

theorem writeEntry_spec (hs : Ok sb h s) (hip : dp ∈ h) (hv : (s.inode dp).valid = true)
    (src : Nat → Byte) (hk : k ≤ (nodes sb s (s.inode dp).inum).slots)
    (hsize : (nodes sb s (s.inode dp).inum).size % direntSize = 0) :
    Wp E (writei sb dp (fun i => some (src i)) (direntSize * k) direntSize) s fun r s' =>
      Ok sb h s' ∧ Keeps h s s' ∧
      (r ≠ direntSize ∧ ¬EntryRoom sb s (s.inode dp).inum k ∧ nodes sb s' = nodes sb s ∧
          k = (nodes sb s (s.inode dp).inum).slots ∨
        r = direntSize ∧ EntryRoom sb s (s.inode dp).inum k ∧ nodes sb s' = Function.update (nodes sb s) (s.inode dp).inum
          ((nodes sb s (s.inode dp).inum).write src (direntSize * k) direntSize direntSize)) := by
  have hle := hs.size_le hip hv
  have hmul := Node.mul_slots hsize
  refine (writei_spec hs hip hv).mono ?_
  rintro r s' (⟨hbad, rfl, rfl⟩ | ⟨tot, rfl, htot, hw⟩)
  · refine ⟨hs, .refl, .inl ⟨by simp [direntSize], fun hroom => ?_, rfl, ?_⟩⟩
    · have := hroom.1
      simp only [Node.BadRange, direntSize, maxfile, ndirect, nindirect, bsize] at *
      omega
    · simp only [Node.BadRange, direntSize, maxfile, ndirect, nindirect, bsize] at *
      omega
  · obtain ⟨w, htw, hwn, hn, hall⟩ := hw.nodes_eq
    obtain rfl := hall fun _ _ => rfl
    refine ⟨hw.ok, hw.keeps, ?_⟩
    have hal := hw.aligned
    have hob := hw.obtains (by decide) fun _ _ => rfl
    by_cases htot' : w = direntSize
    · subst htot'
      exact .inr ⟨rfl, ⟨hw.le, hob.mp (by decide)⟩, hn⟩
    · have hfull := (hw.full (by omega) fun _ _ => rfl).1
      have hw0 : w = 0 := by
        simp only [direntSize, bsize] at *
        omega
      subst hw0
      have hoff : direntSize * k ≤ (nodes sb s (s.inode dp).inum).size := by
        simp only [direntSize] at *
        omega
      refine .inl ⟨by simp [direntSize], fun hroom => absurd (hob.mpr hroom.2) (by decide), ?_, ?_⟩
      · rw [hn]
        apply Function.update_eq_self_iff.mpr
        exact Node.write_zero (fun x hx => node_data_eq_zero hx) hoff
      · simp only [direntSize] at *
        omega

theorem dirlink_spec (hE : (∀ ip, ip ∈ h) → E .iget) (hs : Ok sb h s) (hip : dp ∈ h)
    (hv : (s.inode dp).valid = true) (hd : (nodes sb s (s.inode dp).inum).IsDir sb) (inum : Nat) :
    Wp E (dirlink sb dp name inum) s fun r s' =>
      let n := nodes sb s (s.inode dp).inum
      Ok sb h s' ∧ Keeps h s s' ∧
      (r < 0 ∧ nodes sb s' = nodes sb s ∧
          (n.lookup name = none → ¬EntryRoom sb s (s.inode dp).inum n.freeSlot) ∨
        r = 0 ∧ n.lookup name = none ∧ EntryRoom sb s (s.inode dp).inum n.freeSlot ∧ nodes sb s' = Function.update (nodes sb s)
          (s.inode dp).inum (n.enter n.freeSlot { inum := inum, name := name })) := by
  unfold dirlink
  refine (dirlookup_spec hE hs hip hv hd).seq ?_
  rintro (_ | ⟨ip, off⟩) s1 hr
  · obtain ⟨hl, rfl⟩ := hr
    refine .bind (.get ?_)
    refine (dirlinkLoop_spec hs hip hv hd.size).seq ?_
    rintro off s2 ⟨rfl, rfl⟩
    refine (writeEntry_spec hs hip hv _ (Node.freeSlot_le _) hd.size).seq ?_
    rintro r s3 ⟨hok, hk, ⟨hr, hroom, hn, -⟩ | ⟨hr, hroom, hn⟩⟩
    · rw [if_pos hr]
      exact .pure ⟨hok, hk, .inl ⟨by decide, hn, fun _ => hroom⟩⟩
    · rw [if_neg (not_not_intro hr)]
      exact .pure ⟨hok, hk, .inr ⟨rfl, hl, hroom, hn⟩⟩
  · obtain ⟨k, hl, -, hok, hq, -⟩ := hr
    refine (iput_borrowed hok (hs.borrowed hok hq)).seq ?_
    rintro _ s2 ⟨hok2, hq2⟩
    refine .pure ⟨hok2, (hq.trans hq2).keeps, .inl ⟨by decide, (hq.trans hq2).nodes_eq, ?_⟩⟩
    rw [hl]
    exact fun h => by cases h

def Node.erase (n : Node) (k : Nat) : Node := n.enter k { inum := 0, name := [] }

theorem eraseEntry_spec (hs : Ok sb h s) (hip : dp ∈ h) (hv : (s.inode dp).valid = true)
    (hk : k < (nodes sb s (s.inode dp).inum).slots)
    (hsize : (nodes sb s (s.inode dp).inum).size % direntSize = 0) :
    Wp E (writei sb dp (fun _ => some 0) (direntSize * k) direntSize) s fun r s' =>
      Ok sb h s' ∧ Keeps h s s' ∧ r = direntSize ∧ nodes sb s' =
        Function.update (nodes sb s) (s.inode dp).inum
          ((nodes sb s (s.inode dp).inum).erase k) := by
  refine (writeEntry_spec hs hip hv (fun _ => 0) (Nat.le_of_lt hk) hsize).mono ?_
  rintro r s' ⟨hok, hkp, ⟨-, -, -, hne⟩ | ⟨hr, -, hn⟩⟩
  · exact absurd hne (Nat.ne_of_lt hk)
  · refine ⟨hok, hkp, hr, ?_⟩
    have hz : (Dirent.bytes { inum := 0, name := [] }) = fun _ => 0 := by
      funext i
      simp [Dirent.bytes]
    rw [hn, Node.erase, Node.enter, hz]

/-! ## isdirempty -/

def Node.Empty (n : Node) : Prop := ∀ k, 2 ≤ k → k < n.slots → (n.dirent k).inum = 0

theorem isdiremptyLoop_spec (hs : Ok sb h s) (hip : dp ∈ h) (hv : (s.inode dp).valid = true)
    (hsize : (s.node sb dp).size % direntSize = 0) :
    Wp E (isdiremptyLoop sb dp (s.inode dp).size (s.inode dp).size (direntSize * 2)) s fun r s' =>
      s' = s ∧ (r = true ↔ (s.node sb dp).Empty) := by
  have hle := hs.slots_le hip hv
  refine (direntLoop_spec (fun de => de.inum ≠ 0) (fun _ _ => false) (fun _ => true) _
    (fun _ => rfl) (fun _ _ => rfl) hs hip hv hsize _ 2 (by omega)).mono ?_
  rintro r s' ⟨rfl, k, h2, -, hb, ⟨hk, ht, rfl⟩ | ⟨hk, rfl⟩⟩
  · exact ⟨rfl, fun hf => absurd hf (by simp), fun he => absurd (he k h2 hk) ht⟩
  · exact ⟨rfl, fun _ j h2 hj => not_not.mp (hb j h2 (by omega)), fun _ => rfl⟩

theorem notEmpty_spec (hs : Ok sb h s) (hip : ip ∈ h) (hv : (s.inode ip).valid = true)
    (hsize : (nodes sb s (s.inode ip).inum).type = .dir →
      (nodes sb s (s.inode ip).inum).size % direntSize = 0) :
    Wp E (notEmpty sb ip) s fun r s' => s' = s ∧
      (r = false ↔ ((nodes sb s (s.inode ip).inum).type = .dir →
        (nodes sb s (s.inode ip).inum).Empty)) := by
  refine .bind (.get ?_)
  rw [← (hs.node_eq hip hv).1]
  by_cases hdir : (nodes sb s (s.inode ip).inum).type = .dir
  · rw [if_pos hdir]
    refine .bind (.bind (.get ?_))
    refine (isdiremptyLoop_spec hs hip hv (hsize hdir)).mono ?_
    rintro r s' ⟨rfl, hr⟩
    refine .pure ⟨rfl, ?_⟩
    rw [Bool.not_eq_false', hr]
    exact ⟨fun h _ => h, fun h => h hdir⟩
  · grind [Wp.pure]

end Xv6.Fs
