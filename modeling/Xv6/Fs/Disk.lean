import Xv6.Fs
import Xv6.Misc.Placed
import Mathlib.Tactic.Cases

/-!
# Blocks and their owners

The addresses of blocks are kept in inodes and in indirect blocks. `addr` gives the address at
each such place, for a view of the inodes, and `Owned` is what holds of a disk between calls:
every used block of the data area is at one place, and files have no holes.
-/

namespace Xv6.Fs

open ByteMem
open Function (update update_apply update_of_ne update_self)

attribute [local simp] Block.setWord

attribute [local grind =] update_apply

/-! ## Words of a block -/

theorem Block.word_zero (j : Nat) : Block.word (fun _ => 0) j = 0 := rfl

theorem Block.word_setWord_self (d : Block) (j : Nat) {w : Nat} (hw : w < 2 ^ 32) :
    (d.setWord j w).word j = w := by
  have h0 : (d.setWord j w) (4 * j) = BitVec.ofNat 8 (w / 256 ^ 0) := by simp
  have h1 : (d.setWord j w) (4 * j + 1) = BitVec.ofNat 8 (w / 256 ^ 1) := by simp
  have h2 : (d.setWord j w) (4 * j + 2) = BitVec.ofNat 8 (w / 256 ^ 2) := by simp
  have h3 : (d.setWord j w) (4 * j + 3) = BitVec.ofNat 8 (w / 256 ^ 3) := by simp
  simp only [Block.word, h0, h1, h2, h3, BitVec.toNat_ofNat]
  omega

theorem Block.word_setWord_of_ne (d : Block) {j k : Nat} (w : Nat) (h : k ≠ j) :
    (d.setWord j w).word k = d.word k := by
  have e : ∀ x, 4 * k ≤ x → x < 4 * k + 4 → (d.setWord j w) x = d x := by
    intro x h1 h2
    exact if_neg (by omega)
  simp only [Block.word, e (4 * k) (by omega) (by omega), e (4 * k + 1) (by omega) (by omega),
    e (4 * k + 2) (by omega) (by omega), e (4 * k + 3) (by omega) (by omega)]

/-! ## Places -/

abbrev View := Nat → Dinode

def Super.Live (sb : Super) (v : View) (i : Nat) : Prop :=
  1 ≤ i ∧ i < sb.ninodes ∧ (v i).type ≠ .free

instance (sb : Super) (v : View) (i : Nat) : Decidable (sb.Live v i) :=
  inferInstanceAs (Decidable (_ ∧ _ ∧ _))

/-- Where the address of a block is kept: `addrs[n]` of inode `i`, where `n = NDIRECT` is the
indirect block, or word `j` of the indirect block of inode `i`. -/
inductive Place where
  | slot (i n : Nat)
  | entry (i j : Nat)
  deriving DecidableEq

theorem live_congr {sb : Super} {v v' : View} {i : Nat} (h : v' i = v i) :
    sb.Live v' i ↔ sb.Live v i := by
  simp only [Super.Live, h]

variable (sb : Super)
variable {bn i' : Nat} {d : Dinode} {p : Place}

def addr (v : View) (blk : Nat → Block) : Place → Nat
  | .slot i n => if sb.Live v i ∧ n ≤ ndirect then (v i).addrs n else 0
  | .entry i j =>
    if sb.Live v i ∧ (v i).addrs ndirect ≠ 0 ∧ j < nindirect then
      (blk ((v i).addrs ndirect)).word j
    else 0

def place (i bn : Nat) : Place := if bn < ndirect then .slot i bn else .entry i (bn - ndirect)

theorem place_inj {i bn' : Nat} (h : place i bn = place i' bn') : i = i' ∧ bn = bn' := by
  unfold place at h
  split at h <;> split at h <;> simp only [Place.slot.injEq, Place.entry.injEq, reduceCtorEq] at h
  · exact h
  · exact ⟨h.1, by omega⟩

theorem place_ne_indirect (i i' bn : Nat) : place i bn ≠ .slot i' ndirect := by
  unfold place
  split
  · grind
  · exact fun h => Place.noConfusion h

abbrev Super.Data (b : Nat) : Prop := sb.inData b = true

theorem Super.not_data_zero : ¬sb.Data 0 := by
  simp only [Super.Data, Super.inData, Bool.and_eq_true, decide_eq_true_eq]
  have := sb.dataStart_pos
  omega

theorem Super.Data.lt_size {sb : Super} {b : Nat} (h : sb.Data b) : b < sb.size := by
  simp only [Super.Data, Super.inData, Bool.and_eq_true, decide_eq_true_eq] at h
  exact h.2

theorem Super.Data.lt {sb : Super} {b : Nat} (h : sb.Data b) : b < 2 ^ 32 :=
  Nat.lt_trans h.lt_size sb.size_lt

structure Owned (bitmap : Nat → Bool) (v : View) (blk : Nat → Block) : Prop where
  /-- a used data block is at one place -/
  placed : Placed sb.Data bitmap (addr sb v blk)
  /-- the blocks before the data area are never free -/
  reserved : ∀ b, b < sb.dataStart → bitmap b = true
  mapped : ∀ i, sb.Live v i → ∀ bn, bn * bsize < (v i).size → addr sb v blk (place i bn) ≠ 0
  size_le : ∀ i, sb.Live v i → (v i).size ≤ maxfile * bsize

variable {sb} {v v' : View} {blk blk' : Nat → Block} {bm : Nat → Bool} {i n j b : Nat}
variable {x : Nat}

theorem addr_slot (hi : sb.Live v i) (hn : n ≤ ndirect) : addr sb v blk (.slot i n) =
    (v i).addrs n :=
  if_pos ⟨hi, hn⟩

theorem addr_entry (hi : sb.Live v i) (h0 : (v i).addrs ndirect ≠ 0) (hj : j < nindirect) :
    addr sb v blk (.entry i j) = (blk ((v i).addrs ndirect)).word j :=
  if_pos ⟨hi, h0, hj⟩

theorem addr_entry_eq_zero (h0 : (v i).addrs ndirect = 0) : addr sb v blk (.entry i j) = 0 :=
  if_neg fun h => h.2.1 h0

def Place.inode : Place → Nat
  | .slot i _ => i
  | .entry i _ => i

theorem place_inode (i bn : Nat) : (place i bn).inode = i := by
  unfold place
  split <;> rfl

theorem addr_congr (hv : v' p.inode = v p.inode)
    (hb : sb.Live v p.inode → (v p.inode).addrs ndirect ≠ 0 →
      blk' ((v p.inode).addrs ndirect) = blk ((v p.inode).addrs ndirect)) :
    addr sb v' blk' p = addr sb v blk p := by
  have hl : sb.Live v' p.inode ↔ sb.Live v p.inode := live_congr hv
  cases p with
  | slot => grind [Place.inode, addr]
  | entry => grind [Place.inode, addr]

/-- The view after `addrs[n]` of inode `i` is set to `b`. -/
def View.setAddr (v : View) (i n b : Nat) : View :=
  update v i { v i with addrs := update (v i).addrs n b }

theorem View.setAddr_of_ne (h : i' ≠ i) : v.setAddr i n b i' = v i' := update_of_ne h _ _

theorem View.setAddr_self : v.setAddr i n b i = { v i with addrs := update (v i).addrs n b } :=
  update_self ..

theorem live_setAddr : sb.Live (v.setAddr i n b) i' ↔ sb.Live v i' := by
  by_cases h : i' = i
  · subst h
    simp only [Super.Live, View.setAddr_self]
  · simp only [Super.Live, View.setAddr_of_ne h]

theorem indirect_ne (hb : ∀ p, addr sb v blk p ≠ b) (hi : sb.Live v i) :
    (v i).addrs ndirect ≠ b := by
  rw [← addr_slot hi (Nat.le_refl _)]
  exact hb _

theorem addr_setAddr (hi : sb.Live v i) (hn : n ≤ ndirect) (h0 : (v i).addrs n = 0)
    (hb : ∀ p, addr sb v blk p ≠ b) :
    addr sb (v.setAddr i n b) (update blk b fun _ => 0) = update (addr sb v blk) (.slot i n) b := by
  funext p
  by_cases hp : p.inode = i
  · cases p with
    | slot i' n' =>
      obtain rfl : i' = i := hp
      by_cases hnn : n' = n
      · subst hnn
        rw [addr_slot (live_setAddr.mpr hi) hn, update_self, View.setAddr_self]
        exact update_self ..
      · rw [update_of_ne (by simpa using hnn)]
        simp only [addr, live_setAddr, View.setAddr_self, update_of_ne hnn]
    | entry i' =>
      obtain rfl : i' = i := hp
      rw [update_of_ne (by simp)]
      by_cases hnn : ndirect = n
      · subst hnn
        rw [addr_entry_eq_zero h0]
        simp only [addr, View.setAddr_self, update_self, Block.word_zero, ite_self]
      · have hne := indirect_ne hb hi
        simp only [addr, live_setAddr, View.setAddr_self, update_of_ne hnn, update_of_ne hne]
  · rw [update_of_ne (by rintro rfl; exact hp rfl)]
    apply addr_congr (View.setAddr_of_ne hp)
    intro hl _
    exact update_of_ne (indirect_ne hb hl) _ _

theorem addr_write {d : Block}
    (hb : ∀ i, sb.Live v i → (v i).addrs ndirect ≠ 0 → (v i).addrs ndirect ≠ b) :
    addr sb v (update blk b d) = addr sb v blk := by
  funext p
  apply addr_congr rfl
  intro hl h0
  exact update_of_ne (hb _ hl h0) _ _

theorem indirect_inj (hp : Placed sb.Data bm (addr sb v blk)) (hi : sb.Live v i)
    (hi' : sb.Live v i') (h0 : (v i).addrs ndirect ≠ 0) (hne : i' ≠ i) :
    (v i').addrs ndirect ≠ (v i).addrs ndirect := by
  have e : addr sb v blk (.slot i ndirect) = (v i).addrs ndirect := addr_slot hi (Nat.le_refl _)
  have e' : addr sb v blk (.slot i' ndirect) = (v i').addrs ndirect := addr_slot hi' (Nat.le_refl _)
  rw [← e, ← e']
  exact hp.addr_ne_of_ne (e ▸ h0) (by simpa using hne)

theorem addr_setWord (hp : Placed sb.Data bm (addr sb v blk)) (hi : sb.Live v i)
    (hind : (v i).addrs ndirect ≠ 0) (hj : j < nindirect) (hb : b < 2 ^ 32) :
    addr sb v (update blk ((v i).addrs ndirect) ((blk ((v i).addrs ndirect)).setWord j b)) =
      update (addr sb v blk) (.entry i j) b := by
  funext p
  by_cases hpi : p.inode = i
  · cases p with
    | slot => rfl
    | entry i' j' =>
      obtain rfl : i' = i := hpi
      by_cases hjj : j' = j
      · grind [addr_entry, Block.word_setWord_self]
      · grind [addr, Block.word_setWord_of_ne]
  · rw [update_of_ne (by rintro rfl; exact hpi rfl)]
    apply addr_congr rfl
    intro hl _
    exact update_of_ne (indirect_inj hp hi hl hind hpi) _ _

theorem addr_writePlace (hp : Placed sb.Data bm (addr sb v blk)) {d : Block}
    (h0 : addr sb v blk (place i bn) ≠ 0) :
    addr sb v (update blk (addr sb v blk (place i bn)) d) = addr sb v blk := by
  apply addr_write
  intro i' hl _
  have e : addr sb v blk (.slot i' ndirect) = (v i').addrs ndirect := addr_slot hl (Nat.le_refl _)
  rw [← e]
  exact hp.addr_ne_of_ne h0 (place_ne_indirect i i' bn).symm

/-! ## Content -/

/-- The byte at offset `x` of inode `i`, or of the hole that is there. -/
def raw (sb : Super) (v : View) (blk : Nat → Block) (i x : Nat) : Byte :=
  blk (addr sb v blk (place i (x / bsize))) (x % bsize)

theorem raw_writePlace (hp : Placed sb.Data bm (addr sb v blk)) {d : Block}
    (h0 : addr sb v blk (place i bn) ≠ 0) (i' x : Nat) :
    raw sb v (update blk (addr sb v blk (place i bn)) d) i' x =
      if i' = i ∧ x / bsize = bn then d (x % bsize) else raw sb v blk i' x := by
  rw [raw, addr_writePlace hp h0]
  split
  · simp_all
  · next h =>
    rw [update_of_ne, raw]
    apply hp.addr_ne_of_ne h0
    intro e
    exact h (place_inj e)

/-- An inode as its users see it: what is not below `size` reads as zero. -/
structure Node where
  type : FileType := .free
  major : Int := 0
  minor : Int := 0
  nlink : Int := 0
  size : Nat := 0
  data : Nat → Byte := fun _ => 0

def node (sb : Super) (v : View) (blk : Nat → Block) (i : Nat) : Node :=
  if sb.Live v i then
    { type := (v i).type, major := (v i).major, minor := (v i).minor, nlink := (v i).nlink
      size := (v i).size, data := fun x => if x < (v i).size then raw sb v blk i x else 0 }
  else {}

theorem node_live (h : sb.Live v i) : node sb v blk i =
    { type := (v i).type, major := (v i).major, minor := (v i).minor, nlink := (v i).nlink
      size := (v i).size, data := fun x => if x < (v i).size then raw sb v blk i x else 0 } :=
  if_pos h

theorem node_data_eq_zero (hx : (node sb v blk i).size ≤ x) : (node sb v blk i).data x = 0 := by
  unfold node at hx ⊢
  split
  · grind
  · rfl

theorem node_type_ne (i : Nat) : (node sb v blk i).type ≠ .free ↔ sb.Live v i := by
  unfold node
  split
  · next h => exact ⟨fun _ => h, fun _ => h.2.2⟩
  · grind

def Dinode.Same (d d' : Dinode) : Prop :=
  d'.type = d.type ∧ d'.major = d.major ∧ d'.minor = d.minor ∧ d'.nlink = d.nlink ∧ d'.size = d.size

theorem Dinode.Same.refl (d : Dinode) : d.Same d := ⟨rfl, rfl, rfl, rfl, rfl⟩

theorem Dinode.Same.trans {d' d'' : Dinode} (h : d.Same d') (h' : d'.Same d'') : d.Same d'' :=
  ⟨h'.1.trans h.1, h'.2.1.trans h.2.1, h'.2.2.1.trans h.2.2.1, h'.2.2.2.1.trans h.2.2.2.1,
    h'.2.2.2.2.trans h.2.2.2.2⟩

theorem Dinode.Same.live (h : (v i).Same (v' i)) : sb.Live v' i ↔ sb.Live v i := by
  simp only [Super.Live, h.1]

theorem node_congr (h : (v i).Same (v' i))
    (hraw : sb.Live v i → ∀ x, x < (v i).size → raw sb v' blk' i x = raw sb v blk i x) :
    node sb v' blk' i = node sb v blk i := by
  unfold node
  by_cases hl : sb.Live v i
  · rw [if_pos hl, if_pos (h.live.mpr hl), h.1, h.2.1, h.2.2.1, h.2.2.2.1, h.2.2.2.2]
    congr 1
    funext x
    split
    · next hx => exact hraw hl x hx
    · rfl
  · rw [if_neg hl, if_neg fun h' => hl (h.live.mp h')]

/-! ## Allocation -/

/-- `(v', blk')` has the addresses and the file content of `(v, blk)`, and maybe more. -/
structure Extends (sb : Super) (v : View) (blk : Nat → Block) (v' : View) (blk' : Nat → Block) :
    Prop where
  same : ∀ i, (v i).Same (v' i)
  addr_eq : ∀ p, addr sb v blk p ≠ 0 → addr sb v' blk' p = addr sb v blk p
  raw_eq : ∀ i x, addr sb v blk (place i (x / bsize)) ≠ 0 → raw sb v' blk' i x = raw sb v blk i x

theorem Extends.refl : Extends sb v blk v blk :=
  ⟨fun _ => .refl _, fun _ _ => rfl, fun _ _ _ => rfl⟩

theorem Extends.trans {v'' : View} {blk'' : Nat → Block} (h : Extends sb v blk v' blk')
    (h' : Extends sb v' blk' v'' blk'') : Extends sb v blk v'' blk'' := by
  refine ⟨?_, ?_, ?_⟩
  · intro i
    exact (h.same i).trans (h'.same i)
  · intro p hp
    have e := h.addr_eq p hp
    rw [h'.addr_eq p (e ▸ hp), e]
  · intro i x hx
    have e := h.addr_eq _ hx
    rw [h'.raw_eq i x (e ▸ hx), h.raw_eq i x hx]

theorem Owned.mapped_div (h : Owned sb bm v blk) (hi : sb.Live v i) (hx : x < (v i).size) :
    addr sb v blk (place i (x / bsize)) ≠ 0 :=
  h.mapped i hi _ (Nat.lt_of_le_of_lt (Nat.div_mul_le_self x bsize) hx)

theorem Owned.put (h : Owned sb bm v blk) (hsame : ∀ i, (v i).Same (v' i))
    (haddr : addr sb v' blk' = update (addr sb v blk) p b) (hp : addr sb v blk p = 0)
    (hb : sb.Data b) (hu : bm b = false) : Owned sb (update bm b true) v' blk' := by
  have hb0 : b ≠ 0 := fun e => sb.not_data_zero (e ▸ hb)
  refine ⟨?_, ?_, ?_, ?_⟩
  · rw [haddr]
    exact h.placed.put sb.not_data_zero hb hu hp
  · intro c hc
    rw [update_apply, h.reserved c hc, ite_self]
  · intro i hi bn hbn
    rw [haddr, update_apply]
    rw [(hsame i).2.2.2.2] at hbn
    have := h.mapped i ((hsame i).live.mp hi) bn hbn
    split <;> assumption
  · intro i hi
    rw [(hsame i).2.2.2.2]
    exact h.size_le i ((hsame i).live.mp hi)

theorem View.same_setAddr (i' : Nat) : (v i').Same (v.setAddr i n b i') := by
  by_cases h : i' = i
  · subst h
    rw [View.setAddr_self]
    exact ⟨rfl, rfl, rfl, rfl, rfl⟩
  · rw [View.setAddr_of_ne h]
    exact .refl _

theorem Extends.of_put (hsame : ∀ i, (v i).Same (v' i))
    (haddr : addr sb v' blk' = update (addr sb v blk) p b) (hp : addr sb v blk p = 0)
    (hblk : ∀ i bn, addr sb v blk (place i bn) ≠ 0 →
      blk' (addr sb v blk (place i bn)) = blk (addr sb v blk (place i bn))) :
    Extends sb v blk v' blk' := by
  have hne : ∀ q, addr sb v blk q ≠ 0 → addr sb v' blk' q = addr sb v blk q := by
    intro q hq
    rw [haddr, update_of_ne]
    rintro rfl
    exact hq hp
  refine ⟨hsame, hne, ?_⟩
  intro i x hx
  rw [raw, raw, hne _ hx, hblk _ _ hx]

theorem Owned.allocSlot (h : Owned sb bm v blk) (hi : sb.Live v i) (hn : n ≤ ndirect)
    (h0 : (v i).addrs n = 0) (hb : sb.Data b) (hu : bm b = false) :
    Owned sb (update bm b true) (v.setAddr i n b) (update blk b fun _ => 0) ∧
      Extends sb v blk (v.setAddr i n b) (update blk b fun _ => 0) ∧
      addr sb (v.setAddr i n b) (update blk b fun _ => 0) =
        update (addr sb v blk) (.slot i n) b := by
  have hfresh := h.placed.addr_ne hb hu
  have haddr := addr_setAddr hi hn h0 hfresh
  have hp : addr sb v blk (.slot i n) = 0 := by rw [addr_slot hi hn, h0]
  refine ⟨h.put View.same_setAddr haddr hp hb hu, ?_, haddr⟩
  apply Extends.of_put View.same_setAddr haddr hp
  intro i' bn _
  exact update_of_ne (hfresh _) _ _

theorem Owned.allocWord (h : Owned sb bm v blk) (hi : sb.Live v i) (hind : (v i).addrs ndirect ≠ 0)
    (hj : j < nindirect) (h0 : (blk ((v i).addrs ndirect)).word j = 0) (hb : sb.Data b)
    (hu : bm b = false) (blk' : Nat → Block) (hblk' : blk' = update (update blk b fun _ => 0)
      ((v i).addrs ndirect) ((blk ((v i).addrs ndirect)).setWord j b)) :
    Owned sb (update bm b true) v blk' ∧ Extends sb v blk v blk' ∧
      addr sb v blk' = update (addr sb v blk) (.entry i j) b := by
  have hfresh := h.placed.addr_ne hb hu
  have hne := indirect_ne hfresh hi
  have hzero : addr sb v (update blk b fun _ => 0) = addr sb v blk :=
    addr_write fun i' hl _ => indirect_ne hfresh hl
  have haddr : addr sb v blk' = update (addr sb v blk) (.entry i j) b := by
    grind [h.placed, hb.lt, addr_setWord]
  have hp : addr sb v blk (.entry i j) = 0 := by rw [addr_entry hi hind hj, h0]
  refine ⟨h.put (fun _ => .refl _) haddr hp hb hu, ?_, haddr⟩
  apply Extends.of_put (fun _ => .refl _) haddr hp
  intro i' bn hbn
  have e : addr sb v blk (.slot i ndirect) = (v i).addrs ndirect := addr_slot hi (Nat.le_refl _)
  rw [hblk', update_of_ne, update_of_ne (hfresh _)]
  rw [← e]
  exact h.placed.addr_ne_of_ne (e ▸ hind) (place_ne_indirect i' i bn)

theorem Owned.write (h : Owned sb bm v blk) {d : Block} (h0 : addr sb v blk (place i bn) ≠ 0) :
    Owned sb bm v (update blk (addr sb v blk (place i bn)) d) := by
  have haddr := addr_writePlace h.placed h0 (d := d)
  refine ⟨?_, h.reserved, ?_, h.size_le⟩
  · rw [haddr]
    exact h.placed
  · intro i' hi' bn' hbn
    rw [haddr]
    exact h.mapped i' hi' bn' hbn

/-! ## Inodes without blocks -/

theorem addr_of_addrs_zero (h : ∀ n, n ≤ ndirect → (v i).addrs n = 0) (hp : p.inode = i) :
    addr sb v blk p = 0 := by
  cases p with
  | slot i' n =>
    obtain rfl : i' = i := hp
    by_cases hn : n ≤ ndirect
    · simp only [addr, h n hn, ite_self]
    · exact if_neg fun hc => hn hc.2
  | entry i' =>
    obtain rfl : i' = i := hp
    exact addr_entry_eq_zero (h _ (Nat.le_refl _))

theorem addr_of_not_live (h : ¬sb.Live v i) (hp : p.inode = i) : addr sb v blk p = 0 := by
  cases p with
  | slot i' | entry i' =>
    obtain rfl : i' = i := hp
    exact if_neg fun hc => h hc.1

theorem addr_replace (hv : ∀ p : Place, p.inode = i → addr sb v blk p = 0)
    (hd : d.type = .free ∨ ∀ n, n ≤ ndirect → d.addrs n = 0) :
    addr sb (update v i d) blk = addr sb v blk := by
  funext p
  by_cases hp : p.inode = i
  · rw [hv p hp]
    have hself : update v i d i = d := update_self ..
    rcases hd with hd | hd
    · exact addr_of_not_live (fun h => h.2.2 ((congrArg _ hself).trans hd)) hp
    · exact addr_of_addrs_zero (fun n hn => by rw [hself, hd n hn]) hp
  · apply addr_congr (update_of_ne hp _ _)
    intro _ _
    rfl

theorem Owned.replace (h : Owned sb bm v blk) (hv : ∀ p : Place, p.inode = i → addr sb v blk p = 0)
    (hd : d.type = .free ∨ (∀ n, n ≤ ndirect → d.addrs n = 0) ∧ d.size = 0) :
    Owned sb bm (update v i d) blk := by
  have haddr : addr sb (update v i d) blk = addr sb v blk := addr_replace hv (hd.imp_right And.left)
  have hself : update v i d i = d := update_self ..
  have hsize : sb.Live (update v i d) i → d.size = 0 := by
    intro hl
    rcases hd with hd | hd
    · exact absurd ((congrArg _ hself).trans hd) hl.2.2
    · exact hd.2
  refine ⟨haddr ▸ h.placed, h.reserved, ?_, ?_⟩
  · intro i' hi' bn hbn
    by_cases hi : i' = i
    · grind
    · have e : update v i d i' = v i' := update_of_ne hi _ _
      rw [haddr]
      exact h.mapped i' ((live_congr e).mp hi') bn (e ▸ hbn)
  · intro i' hi'
    by_cases hi : i' = i
    · grind
    · have := h.size_le
      grind [live_congr]

theorem node_update (d : Dinode) :
    node sb (update v i d) blk = update (node sb v blk) i (node sb (update v i d) blk i) := by
  funext i'
  by_cases hi : i' = i
  · rw [hi, update_self]
  · rw [update_of_ne hi]
    apply node_congr
    · rw [update_of_ne hi]
      exact .refl _
    · grind [place, bsize, place_inode, raw, addr_congr]

theorem node_free (hd : d.type = .free) :
    node sb (update v i d) blk = update (node sb v blk) i {} := by
  have hself : update v i d i = d := update_self ..
  rw [node_update]
  congr 1
  exact if_neg fun h => h.2.2 ((congrArg _ hself).trans hd)

theorem node_empty (hi : 1 ≤ i ∧ i < sb.ninodes) (hd : d.type ≠ .free) (hsize : d.size = 0) :
    node sb (update v i d) blk = update (node sb v blk) i
      { type := d.type, major := d.major, minor := d.minor, nlink := d.nlink } := by
  have hself : update v i d i = d := update_self ..
  have hl : sb.Live (update v i d) i := ⟨hi.1, hi.2, by rwa [hself]⟩
  rw [node_update, node_live hl]
  simp only [hself, hsize, Nat.not_lt_zero, if_false]

theorem addr_meta (ht : d.type = (v i).type) (ha : d.addrs = (v i).addrs) :
    addr sb (update v i d) blk = addr sb v blk := by
  have hself : update v i d i = d := update_self ..
  funext p
  by_cases hp : p.inode = i
  · have hl : sb.Live (update v i d) i ↔ sb.Live v i := by
      simp only [Super.Live, hself, ht]
    cases p with
    | slot i' | entry i' =>
      obtain rfl : i' = i := hp
      simp only [addr, hl, hself, ha]
  · exact addr_congr (update_of_ne hp _ _) fun _ _ => rfl

theorem node_setMeta (hl : sb.Live v i) (ht : d.type = (v i).type) (ha : d.addrs = (v i).addrs)
    (hs : d.size = (v i).size) :
    node sb (update v i d) blk = update (node sb v blk) i
      { node sb v blk i with major := d.major, minor := d.minor, nlink := d.nlink } := by
  have hself : update v i d i = d := update_self ..
  have hl' : sb.Live (update v i d) i := by simpa only [Super.Live, hself, ht] using hl
  rw [node_update, node_live hl', node_live hl]
  simp only [hself, hs, raw, addr_meta ht ha, ht]

def Mapped (sb : Super) (v : View) (blk : Nat → Block) (i size : Nat) : Prop :=
  size ≤ maxfile * bsize ∧ ∀ bn, bn * bsize < size → addr sb v blk (place i bn) ≠ 0

theorem Owned.setMeta (h : Owned sb bm v blk) (ht : d.type = (v i).type)
    (ha : d.addrs = (v i).addrs) (hm : sb.Live v i → Mapped sb v blk i d.size) :
    Owned sb bm (update v i d) blk := by
  have haddr : addr sb (update v i d) blk = addr sb v blk := addr_meta ht ha
  have hself : update v i d i = d := update_self ..
  have hlive : ∀ i', sb.Live (update v i d) i' → sb.Live v i' := by
    intro i' hl
    by_cases hi : i' = i
    · grind [Super.Live]
    · exact (live_congr (update_of_ne hi _ _)).mp hl
  refine ⟨haddr ▸ h.placed, h.reserved, ?_, ?_⟩
  · intro i' hi' bn hbn
    rw [haddr]
    by_cases hi : i' = i
    · subst hi
      exact (hm (hlive _ hi')).2 bn (hself ▸ hbn)
    · rw [update_of_ne hi] at hbn
      exact h.mapped i' (hlive i' hi') bn hbn
  · intro i' hi'
    by_cases hi : i' = i
    · subst hi
      rw [hself]
      exact (hm (hlive _ hi')).1
    · rw [update_of_ne hi]
      exact h.size_le i' (hlive i' hi')

theorem Owned.isMapped (h : Owned sb bm v blk) (hi : sb.Live v i) : Mapped sb v blk i (v i).size :=
  ⟨h.size_le i hi, h.mapped i hi⟩

/-! ## What a disk does not depend on -/

theorem addr_congr_data (hp : Placed sb.Data bm (addr sb v blk))
    (hb : ∀ b, sb.Data b → blk' b = blk b) : addr sb v blk' = addr sb v blk := by
  funext p
  apply addr_congr rfl
  intro hl h0
  have e : addr sb v blk (.slot p.inode ndirect) = (v p.inode).addrs ndirect :=
    addr_slot hl (Nat.le_refl _)
  apply hb
  rw [← e]
  exact hp.mem _ (e ▸ h0)

theorem Owned.congr_data (h : Owned sb bm v blk) (hb : ∀ b, sb.Data b → blk' b = blk b) :
    Owned sb bm v blk' := by
  have haddr := addr_congr_data h.placed hb
  exact ⟨haddr ▸ h.placed, h.reserved, haddr ▸ h.mapped, h.size_le⟩

theorem addr_congr_view (hv : ∀ i, i < sb.ninodes → v' i = v i) :
    addr sb v' blk = addr sb v blk := by
  funext p
  by_cases hi : p.inode < sb.ninodes
  · exact addr_congr (hv _ hi) fun _ _ => rfl
  · rw [addr_of_not_live (fun h => hi h.2.1) rfl, addr_of_not_live (fun h => hi h.2.1) rfl]

end Xv6.Fs
