import Xv6.Fs.ContentSpec
import Xv6.Fs.LayoutSpec
import Xv6.Mkfs

/-!
# The image while it is built

What holds of the image between the steps of `mkfs`. Blocks are handed out in order, so those
below `freeblock` are used and the others are zero; `Core` says that, and that the used ones are at
the places of inodes, and `Stored` what the blocks of an inode hold.
-/

namespace Xv6.Mkfs

open ByteMem
open Fs (Block RawInode View Place Owned Extends addr place ndirect nindirect
   ipb)
open Function (update update_apply update_eq_self_iff update_of_ne update_self)

variable {E : Exit → Prop} {g g' : Img} {v v' : View} {i n b : Nat}
variable {r : RawInode}
variable {Q : Unit → Img → Prop}

theorem fssize_eq : fssize = 2000 := rfl

/-- The number of inodes before the data blocks: `mkfs` goes on from the last block of inodes to the
bit map, which it writes at the end. -/
def nrecords : Nat := (nmeta - inodestart) * ipb

theorem nrecords_eq : nrecords = 224 := rfl

/-- The superblock of an image in which all of these are inodes. -/
def wide : Fs.Super := { super with
  ninodes := nrecords
  rootino_lt := by decide
  ninodes_le := by decide }

theorem nmeta_eq : nmeta = 46 := rfl

theorem bmapstart_eq : bmapstart = 45 := rfl

theorem iblock_eq (i : Nat) : iblock i = i / 16 + 32 := rfl

theorem data_iff : wide.Data b ↔ nmeta ≤ b ∧ b < fssize := by
  rw [Fs.Super.Data, Fs.Super.inData, Bool.and_eq_true, decide_eq_true_iff, decide_eq_true_iff]
  rfl

/-! ## Sectors -/

def Img.put (g : Img) (b : Nat) (d : Block) : Img := { g with sect := update g.sect b d }

theorem put_sect_self (d : Block) : (g.put b d).sect b = d := update_self ..

theorem put_sect_of_ne (d : Block) {c : Nat} (h : c ≠ b) : (g.put b d).sect c = g.sect c :=
  update_of_ne h _ _

theorem rsect_spec {Q : Block → Img → Prop} (hb : b ≤ fssize) (hE : g.len ≤ b → E .read)
    (hQ : b < g.len → Q (g.sect b) g) : Wp E (rsect b) g Q := by
  have e : sector b = b := Nat.mod_eq_of_lt (by rw [fssize_eq] at hb; omega)
  refine .bind (.get ?_)
  rw [e]
  split
  · next h => exact .pure (hQ h)
  · next h => exact .of_error rfl (hE (Nat.le_of_not_lt h))

theorem wsect_spec {d : Block} (hlen : g.len = fssize) (hb : b < fssize) (hQ : Q () (g.put b d)) :
    Wp E (wsect b d) g Q := by
  have e : sector b = b := Nat.mod_eq_of_lt (by rw [fssize_eq] at hb; omega)
  have hmax : max g.len (b + 1) = g.len := Nat.max_eq_left (by omega)
  apply Wp.modify
  rw [e, hmax]
  exact hQ

/-! ## Inodes -/

theorem dinode_congr {r' : RawInode} (h : r.Agree r') : dinode r = dinode r' := by
  unfold dinode
  rw [h.type, h.major, h.minor, h.nlink, h.size]
  congr 1
  funext n
  split
  · next hn => exact h.addrs n hn
  · rfl

theorem dinode_addrs (r : RawInode) (hn : n ≤ ndirect) : (dinode r).addrs n = r.addrs n := if_pos hn

theorem dinode_setAddr (r : RawInode) (hn : n ≤ ndirect) (b : Nat) :
    dinode { r with addrs := update r.addrs n b } =
      { dinode r with addrs := update (dinode r).addrs n b } := by
  unfold dinode
  congr 1
  funext k
  grind

theorem dinode_setSize (r : RawInode) (n : Nat) :
    dinode { r with size := n } = { dinode r with size := n } := by
  simp only [dinode]

theorem fits_setAddr (hr : r.Fits) (hb : b < 2 ^ 32) :
    RawInode.Fits { r with addrs := update r.addrs n b } := by
  refine ⟨hr.type, hr.major, hr.minor, hr.nlink, hr.size, ?_⟩
  intro k hk
  by_cases hkn : k = n
  · grind
  · have := hr.addrs
    grind [update_apply]

def Img.view (g : Img) : View := fun i =>
  if i < nrecords then dinode ((g.sect (iblock i)).inode (i % ipb)) else {}

theorem view_congr (h : ∀ b, b < nmeta → g'.sect b = g.sect b) : g'.view = g.view := by
  funext i
  unfold Img.view
  split
  · grind [iblock, nrecords_eq, iblock_eq, nmeta_eq]
  · rfl

theorem view_put (hb : nmeta ≤ b) (d : Block) : (g.put b d).view = g.view := by
  apply view_congr
  intro c hc
  exact put_sect_of_ne d (by omega)

/-- The bit map is not in a block of the first `ninodes` inodes. -/
theorem view_put_bmap (hi : i < ninodes) (d : Block) : (g.put bmapstart d).view i = g.view i := by
  unfold Img.view
  rw [put_sect_of_ne d (by grind [iblock_eq, ninodes, bmapstart_eq])]

theorem rinode_spec {Q : RawInode → Img → Prop} (hlen : g.len = fssize) (hi : i < nrecords)
    (hQ : ∀ r : RawInode, r.Fits → dinode r = g.view i → Q r g) : Wp E (rinode i) g Q := by
  have hb : iblock i < fssize := by
    rw [nrecords_eq] at hi
    rw [iblock_eq, fssize_eq]
    omega
  refine .bind (rsect_spec hb.le (by omega) fun _ => .pure (hQ _ (Block.inode_fits _ _) ?_))
  exact (if_pos hi).symm

theorem winode_spec (hlen : g.len = fssize) (hi : i < nrecords) (hr : r.Fits)
    (hQ : ∀ d, (g.put (iblock i) d).view = update g.view i (dinode r) →
      Q () (g.put (iblock i) d)) : Wp E (winode i r) g Q := by
  have hb : iblock i < fssize := by
    rw [nrecords_eq] at hi
    rw [iblock_eq, fssize_eq]
    omega
  refine .bind (rsect_spec hb.le (by omega) fun _ => wsect_spec hlen hb (hQ _ ?_))
  funext j
  unfold Img.view
  by_cases hj : j = i
  · subst hj
    rw [if_pos hi, update_self, put_sect_self]
    exact dinode_congr (Block.inode_setInode_self _ _ hr)
  · rw [update_of_ne hj]
    split
    · by_cases hbj : iblock j = iblock i
      · rw [hbj, put_sect_self]
        apply dinode_congr
        apply Block.inode_setInode_of_ne
        simp only [iblock_eq] at hbj
        show j % 16 ≠ i % 16
        omega
      · rw [put_sect_of_ne _ hbj]
    · rfl

/-! ## Blocks -/

/-- The parts of an image besides what its blocks hold. The inodes are `v`, of which one may not
have been written yet. -/
structure Core (g : Img) (v : View) : Prop where
  len : g.len = fssize
  sb : g.sect 1 = superblock
  freeinode : 1 ≤ g.freeinode ∧ g.freeinode ≤ nrecords
  freeblock : nmeta ≤ g.freeblock ∧ g.freeblock ≤ fssize
  zero : ∀ b, g.freeblock ≤ b → b < fssize → g.sect b = fun _ => 0
  owned : Owned wide (fun b => decide (b < g.freeblock)) v g.sect
  type : ∀ i, 1 ≤ i → i < nrecords → (v i).type =
    if i < g.freeinode then if i = Fs.rootino then .dir else .file else .free

theorem Core.live_iff (h : Core g v) : wide.Live v i ↔ 1 ≤ i ∧ i < g.freeinode := by
  have hle := h.freeinode.2
  constructor
  · rintro ⟨h1, h2, h3⟩
    refine ⟨h1, ?_⟩
    by_contra hi
    rw [h.type i h1 h2, if_neg hi] at h3
    exact h3 rfl
  · rintro ⟨h1, h2⟩
    have h2' : i < nrecords := by omega
    refine ⟨h1, h2', ?_⟩
    rw [h.type i h1 h2', if_pos h2]
    split <;> simp

theorem Core.addr_lt (h : Core g v) {p : Place} (hp : addr wide v g.sect p ≠ 0) :
    nmeta ≤ addr wide v g.sect p ∧ addr wide v g.sect p < g.freeblock :=
  ⟨(data_iff.mp (h.owned.placed.mem p hp)).1, of_decide_eq_true (h.owned.placed.used_addr hp)⟩

theorem Core.update_zero (h : Core g v) (hb : g.freeblock < fssize) :
    update g.sect g.freeblock (fun _ => 0) = g.sect := by
  rw [update_eq_self_iff]
  exact (h.zero _ (Nat.le_refl _) hb).symm

theorem update_used (n : Nat) : update (fun b => decide (b < n)) n true =
    fun b => decide (b < n + 1) := by
  funext b
  by_cases hb : b = n
  · subst hb
    simp
  · grind

theorem Core.next (h : Core g v) (hb : g.freeblock < fssize) (hlen : g'.len = g.len)
    (hi : g'.freeinode = g.freeinode) (hf : g'.freeblock = g.freeblock + 1)
    (hsect : ∀ b, ¬(nmeta ≤ b ∧ b < g.freeblock) → g'.sect b = g.sect b)
    (hsame : ∀ i, (v i).Same (v' i))
    (ho : Owned wide (update (fun b => decide (b < g.freeblock)) g.freeblock true) v' g'.sect) :
    Core g' v' := by
  have hlo := h.freeblock.1
  rw [nmeta_eq] at hlo
  refine ⟨hlen.trans h.len, ?_, hi ▸ h.freeinode, ?_, ?_, ?_, ?_⟩
  · rw [hsect 1 (by rw [nmeta_eq]; omega), h.sb]
  · rw [nmeta_eq]
    omega
  · grind [h.zero]
  · rwa [hf, ← update_used]
  · intro i h1 h2
    rw [(hsame i).1, hi]
    exact h.type i h1 h2

theorem Core.allocSlot (h : Core g v) (hi : wide.Live v i) (hn : n ≤ ndirect)
    (h0 : (v i).addrs n = 0) (hb : g.freeblock < fssize) :
    Core { g with freeblock := g.freeblock + 1 } (v.setAddr i n g.freeblock) ∧
      Extends wide v g.sect (v.setAddr i n g.freeblock) g.sect ∧
      addr wide (v.setAddr i n g.freeblock) g.sect =
        update (addr wide v g.sect) (.slot i n) g.freeblock := by
  have hdata : wide.Data g.freeblock := data_iff.mpr ⟨h.freeblock.1, hb⟩
  obtain ⟨ho, hx, ha⟩ := h.owned.allocSlot hi hn h0 hdata (by simp)
  rw [h.update_zero hb] at ho hx ha
  exact ⟨h.next hb rfl rfl rfl (fun _ _ => rfl) Fs.View.same_setAddr ho, hx, ha⟩

theorem Core.allocWord (h : Core g v) (hi : wide.Live v i) (hind : (v i).addrs ndirect ≠ 0)
    {j : Nat} (hj : j < nindirect) (h0 : (g.sect ((v i).addrs ndirect)).word j = 0)
    (hb : g.freeblock < fssize) (hg' : g' = { g with
      freeblock := g.freeblock + 1
      sect := update g.sect ((v i).addrs ndirect)
        ((g.sect ((v i).addrs ndirect)).setWord j g.freeblock) }) :
    Core g' v ∧ Extends wide v g.sect v g'.sect ∧
      addr wide v g'.sect = update (addr wide v g.sect) (.entry i j) g.freeblock := by
  have hdata : wide.Data g.freeblock := data_iff.mpr ⟨h.freeblock.1, hb⟩
  have hslot : addr wide v g.sect (.slot i ndirect) = (v i).addrs ndirect :=
    Fs.addr_slot hi (Nat.le_refl _)
  have hlt := h.addr_lt (p := .slot i ndirect) (hslot ▸ hind)
  rw [hslot] at hlt
  obtain ⟨ho, hx, ha⟩ := h.owned.allocWord hi hind hj h0 hdata (by simp) g'.sect (by
    rw [hg', h.update_zero hb])
  refine ⟨h.next hb (by rw [hg']) (by rw [hg']) (by rw [hg']) ?_ (fun _ => .refl _) ho, hx, ha⟩
  intro b hb'
  rw [hg']
  apply update_of_ne
  rintro rfl
  exact hb' hlt

theorem Core.write (h : Core g v) {bn : Nat} {d : Block}
    (h0 : addr wide v g.sect (place i bn) ≠ 0) :
    Core (g.put (addr wide v g.sect (place i bn)) d) v := by
  have hlt := h.addr_lt h0
  have hne : ∀ b, ¬(nmeta ≤ b ∧ b < g.freeblock) →
      (g.put (addr wide v g.sect (place i bn)) d).sect b = g.sect b := by grind [put_sect_of_ne]
  refine { h with sb := ?_, zero := ?_, owned := h.owned.write h0 }
  · rw [hne 1 (by rw [nmeta_eq]; omega), h.sb]
  · intro b h1 h2
    rw [hne b (by exact fun hb => absurd hb.2 (Nat.not_lt.mpr h1))]
    exact h.zero b h1 h2

end Xv6.Mkfs
