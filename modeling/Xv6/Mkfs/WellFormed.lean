import Xv6.Mkfs.MainSpec

/-!
# Images and the kernel's invariants

What the kernel relies on in an image: files without holes, blocks with one owner, and the bits of
the blocks that are used. `main` rounds the size of the root directory up to one block more than
the entries fill, so it is the number of files that decides whether there is a hole.
-/

namespace Xv6.Mkfs

open ByteMem
open Fs (Block Owned Place View addr bpb bsize direntSize place rootino)

variable {files : List File} {g : Img} {v : View} {i b : Nat}

/-- The invariants of the image that the kernel relies on. -/
structure WellFormed (g : Img) : Prop where
  /-- the superblock has the number of blocks and of inodes -/
  sb : (g.sect 1).word 1 = super.size ∧ (g.sect 1).word 3 = super.ninodes
  /-- the blocks of a file, up to its size, are mapped to data blocks -/
  mapped : ∀ i, super.Live g.disk.dinode i → ∀ bn,
    bn < ((g.disk.dinode i).size + (bsize - 1)) / bsize →
      super.Data (addr super g.disk.dinode g.disk.block (place i bn))
  /-- every address is that of a data block -/
  area : ∀ p, addr super g.disk.dinode g.disk.block p ≠ 0 →
    super.Data (addr super g.disk.dinode g.disk.block p)
  once : ∀ p q, addr super g.disk.dinode g.disk.block p ≠ 0 →
    addr super g.disk.dinode g.disk.block p = addr super g.disk.dinode g.disk.block q → p = q
  /-- the bits are set of the blocks before the data area and of those that inodes refer to -/
  bitmap : ∀ b, b < super.size → (g.disk.bitmap b = true ↔
    b < super.dataStart ∨ ∃ p, addr super g.disk.dinode g.disk.block p = b)

/-! ## The disk of an image -/

theorem superblock_word (j : Nat) : superblock.word j =
    [Fs.fsmagic, fssize, nblocks, ninodes, nlog, 2, inodestart, bmapstart].getD j 0 % 2 ^ 32 := by
  apply Fs.Block.word_eq
  intro i hi
  rw [superblock, show (4 * j + i) / 4 = j by omega, show (4 * j + i) % 4 = i by omega]

theorem superblock_size : superblock.word 1 = super.size := superblock_word 1

theorem superblock_ninodes : superblock.word 3 = super.ninodes := superblock_word 3

theorem superblock_inodestart : superblock.word 6 = inodestart := superblock_word 6

theorem superblock_bmapstart : superblock.word 7 = bmapstart := superblock_word 7

theorem disk_dinode (hsb : g.sect 1 = superblock) (hi : i < nrecords) :
    g.disk.dinode i = g.view i := by
  rw [Img.view, if_pos hi, iblock, ← superblock_inodestart, ← hsb]
  rfl

def finish (files : List File) (v : View) : View :=
  Function.update v rootino { v rootino with size := rootSize (sizes files rootino) }

theorem Image.disk_dinode (h : Image files g v) (i : Nat) (hi : i < super.ninodes) :
    g.disk.dinode i = finish files v i := by
  have hi : i < 200 := hi
  rw [Mkfs.disk_dinode h.built.sb (by rw [nrecords_eq]; omega), h.view i hi]
  rfl

theorem Image.disk_bitmap (h : Image files g v) (hb : b < fssize) :
    g.disk.bitmap b = decide (b < g.freeblock) := by
  have hbpb : b < bpb := by grind [fssize_eq, bpb, bsize]
  rw [← h.bitmap, ← superblock_bmapstart, ← h.built.sb]
  show (g.sect (b / bpb + (g.sect 1).word 7)).bit (b % bpb) = _
  rw [Nat.div_eq_of_lt hbpb, Nat.mod_eq_of_lt hbpb, Nat.zero_add]

/-! ## The root directory -/

theorem Image.live_root (h : Image files g v) : wide.Live v rootino := by
  rw [h.built.live_iff, h.freeinode]
  exact ⟨Nat.le_refl _, by simp only [rootino]; omega⟩

theorem rootSize_eq (n : Nat) (hn : n % bsize ≠ 0) : rootSize n = contentBlocks n * bsize := by
  simp only [rootSize, contentBlocks, bsize] at *
  omega

/-- The kernel looks at the first `ninodes` inodes. -/
theorem live_super (hi : i < ninodes) : super.Live v i ↔ wide.Live v i := by
  have hi' : i < nrecords := Nat.lt_trans hi (by decide)
  exact ⟨fun h => ⟨h.1, hi', h.2.2⟩, fun h => ⟨h.1, hi, h.2.2⟩⟩

theorem addr_super (v : View) (blk : Nat → Block) (p : Place) :
    addr super v blk p = if p.inode < ninodes then addr wide v blk p else 0 := by
  split
  · next hi =>
    cases p with
    | slot i n =>
      have hi : i < ninodes := hi
      simp only [addr, live_super hi]
    | entry i j =>
      have hi : i < ninodes := hi
      simp only [addr, live_super hi]
  · next hi => exact Fs.addr_of_not_live (fun h => hi h.2.1) rfl

theorem addr_finish (blk : Nat → Block) :
    addr wide (finish files v) blk = addr wide v blk := Fs.addr_meta rfl rfl

section

variable (h : Image files g v)

include h

theorem Image.addr_eq (p : Place) : addr super g.disk.dinode g.disk.block p =
    if p.inode < ninodes then addr wide v g.sect p else 0 := by
  rw [Fs.addr_congr_view h.disk_dinode, addr_super, addr_finish]
  rfl

theorem Image.owned (hn : direntSize * (files.length + 2) % bsize ≠ 0) :
    Owned wide (fun b => decide (b < g.freeblock)) (finish files v) g.sect := by
  have hs := h.built.stored _ h.live_root
  refine h.built.owned.setMeta (i := rootino) rfl rfl fun _ => ?_
  rw [sizes_root, rootSize_eq _ hn, ← sizes_root]
  refine ⟨Nat.mul_le_mul_right _ hs.le_maxfile, ?_⟩
  intro bn hbn
  rw [hs.mapped]
  exact Nat.lt_of_mul_lt_mul_right hbn

/-! ## Files without an inode -/

/-- The files that get an inode from `ninodes` on have no bytes. -/
def LateEmpty (files : List File) : Prop := ∀ f ∈ files.drop (ninodes - 2), f.bytes = []

theorem Image.sizes_late (hi : wide.Live v i) (hge : ninodes ≤ i) :
    ∃ f ∈ files.drop (ninodes - 2), sizes files i = f.bytes.length := by
  have hlt := (h.built.live_iff.mp hi).2
  rw [h.freeinode] at hlt
  obtain ⟨k, rfl⟩ : ∃ k, i = ninodes - 2 + k + 2 := ⟨i - ninodes, by simp only [ninodes] at *; omega⟩
  have hk : ninodes - 2 + k < files.length := by omega
  exact ⟨_, List.mem_drop_iff_getElem.mpr ⟨k, by omega, rfl⟩, sizes_file files hk⟩

theorem Image.addr_late (hlate : LateEmpty files) {p : Place} (hp : ninodes ≤ p.inode) :
    addr wide v g.sect p = 0 := by
  by_cases hl : wide.Live v p.inode
  · obtain ⟨f, hf, hc⟩ := h.sizes_late hl hp
    have hs := h.built.stored _ hl
    have h0 : contentBlocks ([] : List Byte).length = 0 := by decide
    rw [hc, hlate f hf, h0] at hs
    exact hs.addr_eq_zero
  · exact Fs.addr_of_not_live hl rfl

theorem Image.wellFormed (hn : direntSize * (files.length + 2) % bsize ≠ 0)
    (hlate : LateEmpty files) : WellFormed g := by
  have ho := h.owned hn
  have haddr : addr super g.disk.dinode g.disk.block = addr wide (finish files v) g.sect := by
    funext p
    rw [h.addr_eq, addr_finish]
    split
    · rfl
    · next hp => exact (h.addr_late hlate (Nat.le_of_not_lt hp)).symm
  refine ⟨?_, ?_, haddr ▸ ho.placed.mem, haddr ▸ ho.placed.inj, ?_⟩
  · rw [h.built.sb]
    exact ⟨superblock_size, superblock_ninodes⟩
  · intro i hi bn hbn
    rw [haddr]
    apply ho.placed.mem
    rw [h.disk_dinode i hi.2.1] at hbn
    refine ho.mapped i ?_ bn ?_
    · rw [← live_super hi.2.1]
      exact (Fs.live_congr (h.disk_dinode i hi.2.1)).mp hi
    · have := (Nat.lt_div_iff_mul_lt Fs.bsize_pos).mp hbn
      omega
  · intro b hb
    rw [h.disk_bitmap hb, haddr]
    by_cases hlt : b < super.dataStart
    · exact iff_of_true (ho.reserved b hlt) (.inl hlt)
    · rw [ho.placed.iff b (data_iff.mpr ⟨Nat.le_of_not_lt hlt, hb⟩)]
      exact ⟨.inr, fun hor => hor.resolve_left hlt⟩

theorem Image.hole (hn : direntSize * (files.length + 2) % bsize = 0) :
    (g.disk.dinode rootino).size = direntSize * (files.length + 2) + bsize ∧
      addr super g.disk.dinode g.disk.block
        (place rootino (direntSize * (files.length + 2) / bsize)) = 0 := by
  have hs := h.built.stored _ h.live_root
  constructor
  · rw [h.disk_dinode rootino (by decide), finish, Function.update_self]
    rw [sizes_root]
    simp only [rootSize, bsize] at *
    omega
  · rw [h.addr_eq, Fs.place_inode, if_pos (by decide)]
    by_contra h0
    rw [← ne_eq, hs.mapped, sizes_root] at h0
    simp only [contentBlocks, bsize] at *
    omega

theorem Image.not_wellFormed
    (hn : direntSize * (files.length + 2) % bsize = 0) : ¬WellFormed g := by
  intro hw
  obtain ⟨hsize, haddr⟩ := h.hole hn
  have hlive : super.Live g.disk.dinode rootino := by
    refine ⟨Nat.le_refl _, by decide, ?_⟩
    rw [h.disk_dinode rootino (by decide), finish, Function.update_self]
    exact h.live_root.2.2
  have hdata := hw.mapped _ hlive (direntSize * (files.length + 2) / bsize) (by
    rw [hsize]
    simp only [bsize]
    omega)
  rw [haddr] at hdata
  exact super.not_data_zero hdata

/-- The first block of a file whose inode the kernel does not look at is lost. -/
theorem Image.lateEmpty (hw : WellFormed g) : LateEmpty files := by
  intro f hf
  obtain ⟨k, hk, rfl⟩ := List.mem_drop_iff_getElem.mp hf
  have hlive : wide.Live v (ninodes - 2 + k + 2) := by
    rw [h.built.live_iff, h.freeinode]
    omega
  by_contra hne
  have h0 : addr wide v g.sect (place (ninodes - 2 + k + 2) 0) ≠ 0 := by
    rw [(h.built.stored _ hlive).mapped, sizes_file files (by omega)]
    exact contentBlocks_pos (List.length_pos_iff.mpr hne)
  have hlt := h.built.addr_lt h0
  have hfree := h.built.freeblock.2
  have hbit := (hw.bitmap _ (Nat.lt_of_lt_of_le hlt.2 hfree)).mp (by
    rw [h.disk_bitmap (Nat.lt_of_lt_of_le hlt.2 hfree)]
    exact decide_eq_true hlt.2)
  obtain ⟨p, hp⟩ := hbit.resolve_left (Nat.not_lt.mpr hlt.1)
  rw [h.addr_eq] at hp
  split at hp
  · next hi =>
    rw [h.built.owned.placed.inj p _ (hp ▸ h0) hp, Fs.place_inode] at hi
    simp only [ninodes] at hi
    omega
  · exact h0 hp.symm

end

/-! ## Runs -/

theorem main_total (hn : files.length + 1 < nrecords) (hf : Fits files) :
    ∃ g v, main files {} = .ok ((), g) ∧ Image files g v := by
  obtain ⟨⟨⟩, g, hg, v, hv⟩ := ((main_spec hn).imp_error fun _ hno => hno hf).total
  exact ⟨g, v, hg, hv⟩

theorem main_image (hn : files.length + 1 < nrecords) (hrun : main files {} = .ok ((), g)) :
    ∃ v, Image files g v :=
  (main_spec hn).of_ok hrun

/-- With up to 222 files an image is well formed if the root directory does not end with a block,
and the files without an inode that the kernel looks at have no bytes. -/
theorem mkfs_image_wellFormed (hrun : main files {} = .ok ((), g))
    (hn : files.length + 1 < nrecords) : WellFormed g ↔
      (files.length + 2) % (bsize / direntSize) ≠ 0 ∧
        ∀ f ∈ files.drop (ninodes - 2), f.bytes = [] := by
  obtain ⟨v, hv⟩ := main_image hn hrun
  have hmod : direntSize * (files.length + 2) % bsize ≠ 0 ↔
      (files.length + 2) % (bsize / direntSize) ≠ 0 := by
    simp only [bsize, direntSize]
    omega
  rw [← hmod]
  constructor
  · intro hw
    exact ⟨fun h0 => hv.not_wellFormed h0 hw, hv.lateEmpty hw⟩
  · rintro ⟨hroot, hlate⟩
    exact hv.wellFormed hroot hlate

def cat : File where
  arg := [117, 115, 101, 114, 47, 95, 99, 97, 116]
  reads := some [[1, 2], [3]]
  arg_ne_zero := by decide
  length_reads := by decide

theorem fits_cat : Fits [cat] := by
  refine ⟨?_, ?_, ?_, by decide⟩
  · intro f hf
    rw [List.mem_singleton.mp hf]
    decide
  · intro f hf
    rw [List.mem_singleton.mp hf]
    rfl
  · intro f hf
    rw [List.mem_singleton.mp hf]
    decide

/-- The image with one file. -/
theorem mkfs_image_wellFormed_cat : ∃ g, main [cat] {} = .ok ((), g) ∧ WellFormed g := by
  obtain ⟨g, v, hrun, -⟩ := main_total (by decide) fits_cat
  exact ⟨g, hrun, (mkfs_image_wellFormed hrun (by decide)).mpr ⟨by decide, by simp [ninodes]⟩⟩

def letter (k : Fin 62) : Byte := BitVec.ofNat 8 (48 + k)

theorem letter_ne {k : Fin 62} (hb : b < 48) : letter k ≠ BitVec.ofNat 8 b := by
  intro h
  have h := congrArg BitVec.toNat h
  rw [letter, BitVec.toNat_ofNat, BitVec.toNat_ofNat] at h
  omega

def emptyFile (k : Fin 62) : File where
  arg := [102, letter k]
  reads := some []
  arg_ne_zero := by
    intro b hb
    rcases List.mem_cons.mp hb with rfl | hb
    · decide
    · rw [List.mem_singleton.mp hb]
      exact letter_ne (by decide)
  length_reads := by simp

/-- As many empty files as fill a block of the root directory. -/
def emptyFiles : List File := (List.finRange 62).map emptyFile

theorem length_emptyFiles : emptyFiles.length = 62 := by
  rw [emptyFiles, List.length_map, List.length_finRange]

theorem fits_emptyFiles : Fits emptyFiles := by
  have hmem : ∀ f ∈ emptyFiles, ∃ k, f = emptyFile k := by
    intro f hf
    obtain ⟨k, -, rfl⟩ := List.mem_map.mp hf
    exact ⟨k, rfl⟩
  have hslash : ∀ k, Fs.slash ∉ shortname (emptyFile k).arg := by
    intro k hk
    rcases List.mem_cons.mp hk with h | hk
    · exact absurd h (by decide)
    · exact letter_ne (b := 47) (by decide) (List.mem_singleton.mp hk).symm
  refine ⟨?_, ?_, ?_, ?_⟩
  · grind
  · intro f hf
    obtain ⟨k, rfl⟩ := hmem f hf
    rfl
  · intro f hf
    obtain ⟨k, rfl⟩ := hmem f hf
    exact Nat.zero_le _
  · have hmap : emptyFiles.map (fun f => blocksFor f.bytes.length) = emptyFiles.map fun _ => 0 := by
      apply List.map_congr_left
      intro f hf
      obtain ⟨k, rfl⟩ := hmem f hf
      exact (by decide : blocksFor 0 = 0)
    decide

/-- With 62 empty files the second block of the root directory is not mapped. -/
theorem emptyFiles_hole : ∃ g, main emptyFiles {} = .ok ((), g) ∧
    (g.disk.dinode Fs.rootino).size = 2 * bsize ∧
    addr super g.disk.dinode g.disk.block (place Fs.rootino 1) = 0 ∧ ¬WellFormed g := by
  obtain ⟨g, v, hrun, hv⟩ := main_total (by rw [length_emptyFiles]; decide) fits_emptyFiles
  have hmod : direntSize * (emptyFiles.length + 2) % bsize = 0 := by rfl
  obtain ⟨hsize, haddr⟩ := hv.hole hmod
  exact ⟨g, hrun, hsize, haddr, hv.not_wellFormed hmod⟩

end Xv6.Mkfs
