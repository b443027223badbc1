import Xv6.Mkfs.Append

/-!
# The image that mkfs writes

`main` makes the inodes one after the other, the root directory first, and enters the files into
it. `Image` says what is in the image at the end, and `Fits` for which files there is an end.
-/

namespace Xv6.Mkfs

open ByteMem
open Fs (Block Dirent Place RawInode View addr bsize direntSize dirsiz maxfile ndirect rootino)
open Function (update update_apply update_comm update_eq_self update_eq_self_iff update_idem update_of_ne update_self)
open List (length_cons length_nil map_cons mem_cons_self sum_cons)

variable {E : Exit → Prop} {g g' : Img} {c : Nat → Nat} {i n b : Nat}
variable {f : File} {files : List File}

/-! ## Allocating an inode -/

theorem dinode_new {type : Nat} : dinode { type := type, nlink := 1 } =
    { type := fileType type, nlink := 1 } := by
  simp [dinode, Fs.toInt16]

theorem ialloc_spec (h : Good g c) (hfree : g.freeinode < nrecords) {type : Nat}
    (htype : type = if g.freeinode = rootino then tDir else tFile) :
    Wp E (ialloc type) g fun r g' => r = g.freeinode ∧
      Good g' (update c g.freeinode 0) ∧ g'.freeinode = g.freeinode + 1 ∧
      g'.freeblock = g.freeblock := by
  have hb := h.built
  have hmod : (g.freeinode + 1) % 2 ^ 32 = g.freeinode + 1 :=
    Nat.mod_eq_of_lt (by rw [nrecords_eq] at hfree; omega)
  have hdead : ¬wide.Live g.view g.freeinode := fun hl =>
    absurd (hb.live_iff.mp hl).2 (Nat.lt_irrefl _)
  have hty : fileType type = if g.freeinode = rootino then .dir else .file := by
    rw [htype]
    split <;> rfl
  have hfits : RawInode.Fits { type := type, nlink := 1 } := by
    have htlt : type < 2 ^ 16 := by
      rw [htype]
      split <;> decide
    exact ⟨htlt, Nat.two_pow_pos _, Nat.two_pow_pos _, Nat.one_lt_two_pow (by decide),
      Nat.two_pow_pos _, fun _ _ => Nat.two_pow_pos _⟩
  have haddr : addr wide (update g.view g.freeinode
      { type := fileType type, nlink := 1 }) g.sect = addr wide g.view g.sect :=
    Fs.addr_replace (fun p hp => Fs.addr_of_not_live hdead hp) (.inr fun _ _ => rfl)
  refine .bind (.get (.bind (.set (.bind ?_))))
  rw [hmod]
  refine winode_spec (g := { g with freeinode := g.freeinode + 1 }) hb.len hfree hfits
    fun d hview => .pure ⟨rfl, ?_, rfl, rfl⟩
  rw [dinode_new] at hview
  have hbounds := iblock_bounds hfree
  have hnew : Built { g with freeinode := g.freeinode + 1 } (update g.view g.freeinode
      { type := fileType type, nlink := 1 }) (update c g.freeinode 0)
      fun i => contentBlocks (update c g.freeinode 0 i) := by
    refine ⟨⟨hb.len, hb.sb, ⟨Nat.succ_pos _, hfree⟩, hb.freeblock, hb.zero, ?_, ?_⟩, ?_⟩
    · exact hb.owned.replace (fun p hp => Fs.addr_of_not_live hdead hp)
        (.inr ⟨fun _ _ => rfl, rfl⟩)
    · intro j h1 h2
      by_cases hj : j = g.freeinode
      · grind
      · grind [hb.type, update_apply]
    · intro j hj
      by_cases hji : j = g.freeinode
      · subst hji
        have hzero : ∀ p : Place, p.inode = g.freeinode → addr wide (update g.view
            g.freeinode { type := fileType type, nlink := 1 }) g.sect p = 0 := by
          intro p hp
          rw [haddr]
          exact Fs.addr_of_not_live hdead hp
        rw [update_self]
        refine ⟨?_, ?_, Nat.zero_le _⟩
        · intro bn
          have h0 : contentBlocks 0 = 0 := by decide
          rw [hzero _ (Fs.place_inode _ bn), h0]
          exact ⟨fun hne => absurd rfl hne, fun hlt => absurd hlt (Nat.not_lt_zero bn)⟩
        · rw [hzero _ rfl]
          exact ⟨fun hne => absurd rfl hne, fun hlt => absurd hlt (by decide)⟩
      · rw [update_of_ne hji]
        have hj' : wide.Live g.view j := (Fs.live_congr (update_of_ne hji _ _)).mp hj
        exact (hb.stored j hj').of_eq fun p _ => congrFun haddr p
  refine ⟨?_, ?_⟩
  · rw [hview]
    exact hnew.frame hbounds.1 hbounds.2 d
  · intro j hj
    rw [hview]
    by_cases hji : j = g.freeinode
    · grind
    · rw [update_of_ne hji, update_of_ne hji]
      apply h.size
      refine (Fs.live_congr ?_).mp hj
      rw [hview]
      exact update_of_ne hji _ _

/-! ## Files -/

def File.bytes (f : File) : List Byte := (f.reads.getD []).flatten

def File.name (f : File) : Fs.Name := (filename f.arg).take dirsiz

theorem appendReads_spec (l : List (List Byte)) : ∀ {g : Img} {c : Nat → Nat}, Good g c →
    wide.Live g.view i → (maxfile * bsize < c i + l.flatten.length → E .maxfile) →
    (fssize + blocksFor (c i) <
      g.freeblock + blocksFor (c i + l.flatten.length) → E .read) →
    Wp E (appendReads i l) g fun _ g' =>
      Good g' (update c i (c i + l.flatten.length)) ∧ g'.freeinode = g.freeinode ∧
        g'.freeblock + blocksFor (c i) =
          g.freeblock + blocksFor (c i + l.flatten.length) := by
  induction l with
  | nil =>
    intro g c h hi _ _
    refine .pure ⟨?_, rfl, rfl⟩
    rw [List.flatten_nil, length_nil, Nat.add_zero, update_eq_self]
    exact h
  | cons buf l ih =>
    intro g c h hi hmaxE hE
    have hlen : c i + (buf :: l).flatten.length =
        c i + buf.length + l.flatten.length := by grind
    rw [hlen] at hmaxE hE
    have hmono := blocksFor_mono (Nat.le_add_right (c i + buf.length) l.flatten.length)
    refine (iappend_spec h hi (fun hlt => hmaxE (by omega)) (fun hlt => hE (by omega))).seq ?_
    rintro - g1 ⟨h1, hino, hfree⟩
    have hi1 : wide.Live g1.view i := by
      rw [h1.built.live_iff, hino]
      exact h.built.live_iff.mp hi
    have hci : update c i (c i + buf.length) i = c i + buf.length := update_self ..
    refine (ih h1 hi1 (by rwa [hci]) (by rw [hci]; exact fun hlt => hE (by omega))).mono ?_
    rintro - g2 ⟨h2, hino2, hfree2⟩
    rw [hci] at hfree2
    rw [hci, ← hlen, update_idem] at h2
    exact ⟨h2, hino2.trans hino, by rw [hlen]; omega⟩

/-- The sizes of the inodes after the files are added, with the first one as inode `i`. -/
def addAll (c : Nat → Nat) : Nat → List File → Nat → Nat
  | _, [] => c
  | i, f :: files =>
    addAll (update (update c Fs.rootino (c Fs.rootino + direntSize)) i f.bytes.length) (i + 1) files

/-- There is room for the files, where `free` is the next block and the directory is `root` bytes
long. -/
structure Room (free root : Nat) (files : List File) : Prop where
  name : ∀ f ∈ files, Fs.slash ∉ shortname f.arg
  opened : ∀ f ∈ files, f.reads.isSome
  size : ∀ f ∈ files, f.bytes.length ≤ maxfile * bsize
  blocks : free + blocksFor (root + direntSize * files.length) +
    (files.map fun f => blocksFor f.bytes.length).sum ≤ fssize + blocksFor root

theorem length_direntBytes (de : Dirent) : (direntBytes de).length = direntSize := by
  rw [direntBytes, List.length_map, List.length_range]

theorem addFile_spec (h : Good g c) (h1 : rootino < g.freeinode) (h2 : g.freeinode < nrecords)
    (hroot : c rootino + direntSize ≤ maxfile * bsize)
    (hE : ∀ e, ¬Room g.freeblock (c rootino) [f] → E e) :
    Wp E (addFile rootino f) g fun _ g' =>
      Good g' (addAll c g.freeinode [f]) ∧ g'.freeinode = g.freeinode + 1 ∧
        g'.freeblock + blocksFor (c rootino) =
          g.freeblock + blocksFor (c rootino + direntSize) +
            blocksFor f.bytes.length := by
  have hone : direntSize * [f].length = direntSize := Nat.mul_one _
  have hsum : ([f].map fun f => blocksFor f.bytes.length).sum = blocksFor f.bytes.length := by simp
  have hne : rootino ≠ g.freeinode := Nat.ne_of_lt h1
  unfold addFile
  by_cases hslash : Fs.slash ∈ shortname f.arg
  · rw [if_pos hslash]
    exact .of_error rfl (hE _ fun hr => hr.name f mem_cons_self hslash)
  · rw [if_neg hslash]
    cases hreads : f.reads with
    | none =>
      refine .of_error rfl (hE _ fun hr => ?_)
      have := hr.opened f mem_cons_self
      rw [hreads] at this
      exact absurd this (by decide)
    | some l =>
      have hbytes : f.bytes = l.flatten := by
        rw [File.bytes, hreads]
        rfl
      refine (ialloc_spec h h2 (by rw [if_neg (Ne.symm hne)])).seq ?_
      rintro inum g1 ⟨rfl, hg1, hino1, hfree1⟩
      have hroot1 : update c g.freeinode 0 rootino = c rootino := update_of_ne hne _ _
      have hlive1 : wide.Live g1.view rootino := by
        rw [hg1.built.live_iff, hino1]
        exact ⟨Nat.le_refl _, by omega⟩
      refine (iappend_spec (p := direntBytes { inum := g.freeinode, name := f.name }) hg1 hlive1
        ?_ ?_).seq ?_
      · rw [hroot1, length_direntBytes]
        omega
      · rw [hroot1, length_direntBytes, hfree1]
        intro hlt
        refine hE _ fun hr => ?_
        have := hr.blocks
        rw [hone] at this
        omega
      · rintro - g2 ⟨hg2, hino2, hfree2⟩
        rw [hroot1, length_direntBytes, hfree1] at hfree2
        rw [hroot1, length_direntBytes] at hg2
        have hlive2 : wide.Live g2.view g.freeinode := by
          rw [hg2.built.live_iff, hino2, hino1]
          omega
        have hempty : update (update c g.freeinode 0) rootino (c rootino + direntSize)
            g.freeinode = 0 := by grind
        have hlen0 : blocksFor 0 = 0 := by decide
        refine (appendReads_spec l hg2 hlive2 ?_ ?_).mono ?_
        · rw [hempty, Nat.zero_add]
          intro hlt
          refine hE _ fun hr => ?_
          have := hr.size f mem_cons_self
          rw [hbytes] at this
          omega
        · rw [hempty, hlen0, Nat.zero_add]
          intro hlt
          refine hE _ fun hr => ?_
          have := hr.blocks
          rw [hone, hsum, hbytes] at this
          omega
        · rintro - g3 ⟨hg3, hino3, hfree3⟩
          rw [hempty, hlen0, Nat.zero_add] at hfree3
          rw [hempty, Nat.zero_add, update_comm hne, update_idem, ← hbytes] at hg3
          rw [hbytes]
          refine ⟨?_, by omega, by omega⟩
          have e := update_comm (Ne.symm hne) f.bytes.length (c rootino + direntSize) c
          rwa [addAll, addAll, ← e]

theorem addAll_root_one (hne : rootino ≠ i) :
    addAll c i [f] rootino = c rootino + direntSize := by
  rw [addAll, addAll, update_of_ne hne, update_self]

theorem Room.head {free root : Nat} (h : Room free root (f :: files)) : Room free root [f] := by
  have hsub : ∀ f' ∈ [f], f' ∈ f :: files := by simp
  refine ⟨fun f' hf' => h.name f' (hsub f' hf'), fun f' hf' => h.opened f' (hsub f' hf'),
    fun f' hf' => h.size f' (hsub f' hf'), ?_⟩
  have hb := h.blocks
  have hle : root + direntSize * [f].length ≤ root + direntSize * (f :: files).length := by
    apply Nat.add_le_add_left
    apply Nat.mul_le_mul_left
    simp
  have hmono := blocksFor_mono hle
  simp only [map_cons, List.map_nil, sum_cons, List.sum_nil] at hb ⊢
  omega

theorem Room.tail {free free' root : Nat} (h : Room free root (f :: files))
    (hfree : free' + blocksFor root =
      free + blocksFor (root + direntSize) + blocksFor f.bytes.length) :
    Room free' (root + direntSize) files := by
  refine ⟨fun f' hf' => h.name f' (List.mem_cons_of_mem _ hf'),
    fun f' hf' => h.opened f' (List.mem_cons_of_mem _ hf'),
    fun f' hf' => h.size f' (List.mem_cons_of_mem _ hf'), ?_⟩
  have hb := h.blocks
  have e : root + direntSize * (f :: files).length =
      root + direntSize + direntSize * files.length := by grind
  rw [e, map_cons, sum_cons] at hb
  omega

theorem addFiles_spec (files : List File) : ∀ {g : Img} {c : Nat → Nat}, Good g c →
    rootino < g.freeinode → g.freeinode + files.length ≤ nrecords →
    c rootino + direntSize * files.length ≤ maxfile * bsize →
    (∀ e, ¬Room g.freeblock (c rootino) files → E e) →
    Wp E (addFiles rootino files) g fun _ g' =>
      Good g' (addAll c g.freeinode files) ∧ g'.freeinode = g.freeinode + files.length ∧
        g'.freeblock + blocksFor (c rootino) =
          g.freeblock + blocksFor (c rootino + direntSize * files.length) +
            (files.map fun f => blocksFor f.bytes.length).sum := by
  induction files with
  | nil =>
    intro g c h _ _ _ _
    exact .pure ⟨h, rfl, rfl⟩
  | cons f files ih =>
    intro g c h h1 h2 hroot hE
    have hne : rootino ≠ g.freeinode := Nat.ne_of_lt h1
    have hlen : c rootino + direntSize * (f :: files).length =
        c rootino + direntSize + direntSize * files.length := by grind
    rw [length_cons] at h2
    refine (addFile_spec h h1 (by omega) (by omega) fun e hr => hE e fun hr' => hr hr'.head).seq ?_
    rintro - g1 ⟨hg1, hino1, hfree1⟩
    have hroot1 := addAll_root_one (c := c) (f := f) hne
    refine (ih hg1 (by omega) (by omega) (by omega) ?_).mono ?_
    · intro e hr
      rw [hroot1] at hr
      exact hE e fun hr' => hr (hr'.tail hfree1)
    · rintro - g2 ⟨hg2, hino2, hfree2⟩
      rw [hino1] at hg2
      rw [hroot1] at hfree2
      rw [hlen, map_cons, sum_cons, length_cons]
      exact ⟨hg2, by omega, by omega⟩

/-! ## The start -/

def blank : Img where
  sect := update (fun _ _ => 0) 1 superblock
  len := fssize
  freeinode := 1
  freeblock := nmeta

theorem zeroes_spec (hsect : g.sect = fun _ _ => 0) (hlen : g.len = 0) :
    Wp E (forRange (fun i => wsect i fun _ => 0) fssize 0) g fun _ g' =>
      g' = { g with len := fssize } := by
  have hrun := Wp.forRange (E := E) (fun i => wsect i fun _ => 0)
    (fun k g' => g' = { g with len := k }) fssize 0 g ?_ (by rw [← hlen])
  · grind
  · rintro k g' - hk rfl
    have e : sector k = k := Nat.mod_eq_of_lt (by rw [fssize_eq] at hk; omega)
    apply Wp.modify
    rw [e]
    rw [Nat.max_eq_right (Nat.le_succ k), hsect, update_eq_self_iff.mpr rfl]

theorem blank_sect (hb : b ≠ 1) : blank.sect b = fun _ => 0 := by
  show update (fun _ _ => 0) 1 superblock b = _
  exact update_of_ne hb _ _

theorem blank_view (i : Nat) : blank.view i = {} := by
  have hzero : dinode (Block.inode (fun _ => 0) (i % Fs.ipb)) = {} := by
    simp [dinode, Block.inode, Block.half, Block.word, Fs.toInt16, fileType]
  unfold Img.view
  split
  · grind [iblock, iblock_eq, blank_sect]
  · rfl

theorem blank_good : Good blank fun _ => 0 := by
  have hdead : ∀ i, ¬wide.Live blank.view i := by
    intro i hl
    have := hl.2.2
    rw [blank_view] at this
    exact this rfl
  have haddr : ∀ p, addr wide blank.view blank.sect p = 0 := fun p =>
    Fs.addr_of_not_live (hdead p.inode) rfl
  have hsb : blank.sect 1 = superblock := by
    show update (fun _ _ => 0) 1 superblock 1 = _
    exact update_self ..
  refine ⟨⟨⟨rfl, hsb, by decide, by decide, ?_, ?_, ?_⟩, ?_⟩, ?_⟩
  · intro b hb _
    have hb : nmeta ≤ b := hb
    rw [nmeta_eq] at hb
    exact blank_sect (by omega)
  · refine ⟨⟨?_, ?_, ?_⟩, ?_, ?_, ?_⟩
    · intro p hp
      exact absurd (haddr p) hp
    · grind
    · intro b hb
      have hb := data_iff.mp hb
      constructor
      · intro hlt
        exact absurd (of_decide_eq_true hlt) (Nat.not_lt.mpr hb.1)
      · grind [nmeta_eq]
    · intro b hb
      exact decide_eq_true hb
    · intro i hi
      exact absurd hi (hdead i)
    · intro i hi
      exact absurd hi (hdead i)
  · intro i h1 _
    have hlt : ¬i < blank.freeinode := Nat.not_lt.mpr h1
    rw [blank_view, if_neg hlt]
  · intro i hi
    exact absurd hi (hdead i)
  · intro i hi
    exact absurd hi (hdead i)

/-! ## The end -/

theorem bit_usedBits (n b : Nat) : (usedBits n).bit b = decide (b < n) := by
  induction n with
  | zero => exact Fs.Block.bit_zero b
  | succ n ih =>
    have e : usedBits (n + 1) = (usedBits n).setBit n true := by
      rw [usedBits, List.range_succ, List.foldl_append]
      rfl
    rw [e, Fs.Block.bit_setBit, ih, ← Bool.decide_or]
    apply decide_eq_decide.mpr
    omega

/-- The sizes of the inodes at the end; the directory starts with `.` and `..`. -/
def sizes (files : List File) : Nat → Nat :=
  addAll (update (fun _ => 0) Fs.rootino (direntSize + direntSize)) (Fs.rootino + 1) files

/-- The size of the root directory at the end, from the size of its entries. -/
def rootSize (n : Nat) : Nat := (n / bsize + 1) * bsize

/-- An image that is finished. The inodes are `v`, but for the size of the root directory; those
from `ninodes` on may be lost, since the bit map is written over them. -/
structure Image (files : List File) (g : Img) (v : View) : Prop where
  built : Built g v (sizes files) fun i => contentBlocks (sizes files i)
  view : ∀ i, i < ninodes → g.view i = update v Fs.rootino
    { v Fs.rootino with size := rootSize (sizes files Fs.rootino) } i
  freeinode : g.freeinode = files.length + 2
  bitmap : ∀ b, (g.sect bmapstart).bit b = decide (b < g.freeblock)

/-- There is room for the files in an image: the directory has two entries, in a block. -/
def Fits (files : List File) : Prop :=
  Room (nmeta + blocksFor (2 * direntSize)) (2 * direntSize) files

theorem fixRoot_spec (h : Good g c) (hroot : wide.Live g.view rootino)
    (hsize : rootSize (c rootino) < 2 ^ 32) :
    Wp E (fixRoot rootino) g fun _ g' =>
      Built g' g.view c (fun i => contentBlocks (c i)) ∧ g'.view = update g.view rootino
          { g.view rootino with size := rootSize (c rootino) } ∧
        g'.freeinode = g.freeinode ∧ g'.freeblock = g.freeblock := by
  have hi : rootino < nrecords := by decide
  have hbounds := iblock_bounds hi
  refine .bind (rinode_spec h.built.len hi fun r hr hri => ?_)
  have hrs : r.size = c rootino := by
    rw [← h.size _ hroot, ← hri]
    rfl
  have hr' : RawInode.Fits { r with size := rootSize (c rootino) } :=
    { hr with size := hsize }
  rw [hrs]
  refine winode_spec h.built.len hi hr' fun d hview =>
    ⟨h.built.frame hbounds.1 hbounds.2 d, ?_, rfl, rfl⟩
  rw [hview, dinode_setSize, hri]
  rfl

theorem addAll_root (files : List File) : ∀ {c : Nat → Nat} {i : Nat}, rootino < i →
    addAll c i files rootino = c rootino + direntSize * files.length := by
  induction files with
  | nil =>
    intro c i _
    rfl
  | cons _ _ ih =>
    intro c i hi
    rw [addAll, ih (by omega), update_of_ne (Nat.ne_of_lt hi), update_self, length_cons, Nat.mul_add]
    omega

theorem addAll_of_lt (files : List File) : ∀ {c : Nat → Nat} {i j : Nat}, j < i →
    j ≠ rootino → addAll c i files j = c j := by
  induction files with
  | nil =>
    intro c i j _ _
    rfl
  | cons f files ih =>
    intro c i j hj hne
    rw [addAll, ih (by omega) hne, update_of_ne (Nat.ne_of_lt hj), update_of_ne hne]

theorem addAll_add (files : List File) : ∀ {c : Nat → Nat} {i k : Nat}, rootino < i →
    (hk : k < files.length) → addAll c i files (i + k) = files[k].bytes.length := by
  induction files with
  | nil =>
    intro c i k _ hk
    exact absurd hk (Nat.not_lt_zero k)
  | cons f files ih =>
    intro c i k hi hk
    rw [addAll]
    cases k with
    | zero =>
      refine (addAll_of_lt files (Nat.lt_succ_self i) (Nat.ne_of_gt hi)).trans ?_
      exact update_self ..
    | succ k =>
      rw [← Nat.add_assoc, Nat.add_right_comm]
      exact ih (by omega) (Nat.lt_of_succ_lt_succ hk)

theorem sizes_file (files : List File) (hk : i < files.length) :
    sizes files (i + 2) = files[i].bytes.length := by
  rw [Nat.add_comm, sizes]
  exact addAll_add files (Nat.lt_succ_self rootino) hk

theorem sizes_root (files : List File) :
    sizes files rootino = direntSize * (files.length + 2) := by
  rw [sizes, addAll_root files (Nat.lt_succ_self _), update_self, Nat.mul_add]
  omega

theorem addRoot_spec (hn : files.length + 1 < nrecords) (hE : ∀ e, ¬Fits files → E e) :
    Wp E (addRoot files) blank fun _ g => ∃ v,
      Built g v (sizes files) (fun i => contentBlocks (sizes files i)) ∧
      g.view = update v rootino
        { v rootino with size := rootSize (sizes files rootino) } ∧
      g.freeinode = files.length + 2 := by
  have hmax : direntSize * (files.length + 2) ≤ maxfile * bsize := by
    rw [nrecords_eq] at hn
    simp only [maxfile, ndirect, Fs.nindirect, bsize, direntSize]
    omega
  have h0 : blocksFor 0 = 0 := by decide
  have hentry : blocksFor direntSize = 1 := by decide
  have htwo : blocksFor (direntSize + direntSize) = 1 := by decide
  have hblank : blank.freeinode = rootino := rfl
  have hnmeta : blank.freeblock = nmeta := rfl
  refine (ialloc_spec blank_good (by decide) (if_pos hblank).symm).seq ?_
  rintro root g1 ⟨rfl, hg1, hino1, hfree1⟩
  rw [hblank] at hg1 hino1 ⊢
  rw [hnmeta, nmeta_eq] at hfree1
  have hlive : ∀ {g : Img} {c : Nat → Nat}, Good g c → g.freeinode = rootino + 1 →
      wide.Live g.view rootino := by
    intro g c hg hino
    rw [hg.built.live_iff, hino]
    exact ⟨Nat.le_refl _, Nat.lt_succ_self _⟩
  -- the entry "."
  refine (iappend_spec hg1 (hlive hg1 hino1) ?_ ?_).seq ?_
  · intro hlt
    exact absurd hlt (by decide)
  · rw [update_self, length_direntBytes, Nat.zero_add, h0, hentry, fssize_eq]
    omega
  rintro - g2 ⟨hg2, hino2, hfree2⟩
  rw [update_self, length_direntBytes, Nat.zero_add, h0, hentry] at hfree2
  rw [update_self, length_direntBytes, update_idem, Nat.zero_add] at hg2
  have hino2 := hino2.trans hino1
  -- the entry ".."
  refine (iappend_spec hg2 (hlive hg2 hino2) ?_ ?_).seq ?_
  · intro hlt
    exact absurd hlt (by decide)
  · grind [length_direntBytes, fssize_eq, update_apply]
  rintro - g3 ⟨hg3, hino3, hfree3⟩
  rw [update_self, length_direntBytes, hentry, htwo] at hfree3
  rw [update_self, length_direntBytes, update_idem] at hg3
  have hino3 := hino3.trans hino2
  -- the files
  refine (addFiles_spec files hg3 (by rw [hino3]; exact Nat.lt_succ_self _) ?_ ?_ ?_).seq ?_
  · rw [hino3]
    show 1 + 1 + files.length ≤ nrecords
    omega
  · grind
  · intro e hr
    apply hE e
    have hfree : g3.freeblock = nmeta + blocksFor (2 * direntSize) := by
      rw [Nat.two_mul, htwo, nmeta_eq]
      omega
    rwa [hfree] at hr
  rintro - g4 ⟨hg4, hino4, -⟩
  rw [hino3] at hg4 hino4
  have hlive4 : wide.Live g4.view rootino := by
    rw [hg4.built.live_iff, hino4]
    exact ⟨Nat.le_refl _, by omega⟩
  have hg4 : Good g4 (sizes files) := hg4
  refine (fixRoot_spec hg4 hlive4 ?_).mono ?_
  · rw [sizes_root]
    simp only [rootSize, maxfile, ndirect, Fs.nindirect, bsize] at *
    omega
  · rintro - g5 ⟨hb5, hview5, hino5, -⟩
    refine ⟨g4.view, hb5, hview5, ?_⟩
    rw [hino5, hino4]
    show 1 + 1 + files.length = _
    omega

theorem main_spec (hn : files.length + 1 < nrecords) :
    Wp (fun _ => ¬Fits files) (main files) {} fun _ g => ∃ v, Image files g v := by
  refine .bind (.modify ?_)
  refine (zeroes_spec rfl rfl).seq ?_
  rintro - g0 rfl
  refine .bind (wsect_spec rfl (by decide) ?_)
  refine (addRoot_spec hn fun _ => id).seq ?_
  rintro - g ⟨v, hb, hview, hino⟩
  have hlt : g.freeblock < bsize * 8 := by
    have := hb.freeblock.2
    rw [fssize_eq] at this
    simp only [bsize]
    omega
  refine .bind (.get ?_)
  unfold balloc
  rw [if_pos hlt]
  refine wsect_spec hb.len (by decide) ⟨v, hb.frame (by decide) (by decide) _, ?_, hino, ?_⟩
  · intro i hi
    rw [← hview, view_put_bmap hi]
  · intro b
    exact bit_usedBits _ b

end Xv6.Mkfs
