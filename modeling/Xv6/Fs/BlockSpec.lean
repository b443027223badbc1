import Xv6.Fs.Disk

/-!
# Allocation of blocks

What `balloc`, `bfree`, `bmap` and `itrunc` do to the owners of blocks.
-/

namespace Xv6.Fs

open Function (update update_apply update_eq_self update_of_ne update_self)

variable {sb : Super} {E : Stop → Prop} {s s' : State} {ip : Ip} {b bn : Nat}
variable {Q : Unit → State → Prop} {bm : Nat → Bool}
variable {f : Inode → Inode} {i n : Nat}

/-- The disk with the copy of an inode that is in the table. -/
def view (ip : Ip) (s : State) : View := update s.dinode (s.inode ip).inum (s.inode ip).toDinode

theorem view_self : view ip s (s.inode ip).inum = (s.inode ip).toDinode := update_self ..

theorem view_of_clean (h : (s.inode ip).toDinode = s.dinode (s.inode ip).inum) :
    view ip s = s.dinode := by
  rw [view, h, update_eq_self]

/-- What holds while the blocks of an inode are worked on. -/
def Owns (sb : Super) (ip : Ip) (s : State) : Prop :=
  Owned sb s.bitmap (view ip s) s.block ∧ sb.Live (view ip s) (s.inode ip).inum

def State.addrOf (s : State) (sb : Super) (ip : Ip) (bn : Nat) : Nat :=
  addr sb (view ip s) s.block (place (s.inode ip).inum bn)

/-- Of the inodes only the addresses of `ip` in the table have changed. -/
structure OnlyAddrs (ip : Ip) (s s' : State) : Prop where
  dinode : s'.dinode = s.dinode
  inode : ∃ a, s'.inode = update s.inode ip { s.inode ip with addrs := a }

theorem OnlyAddrs.refl : OnlyAddrs ip s s := ⟨rfl, (s.inode ip).addrs, by simp⟩

theorem OnlyAddrs.trans {s'' : State} (h : OnlyAddrs ip s s') (h' : OnlyAddrs ip s' s'') :
    OnlyAddrs ip s s'' := by
  obtain ⟨a, ha⟩ := h.inode
  obtain ⟨a', ha'⟩ := h'.inode
  refine ⟨h'.dinode.trans h.dinode, a', ?_⟩
  rw [ha', ha]
  simp

theorem OnlyAddrs.inum (h : OnlyAddrs ip s s') : (s'.inode ip).inum = (s.inode ip).inum := by
  obtain ⟨a, ha⟩ := h.inode
  simp [ha]

/-! ## Reading and writing blocks -/

theorem bread_spec {Q : Block → State → Prop} (h : sb.Data b) (hQ : Q (s.block b) s) :
    Wp E (bread sb b) s Q := by
  refine .bind (.get ?_)
  rw [if_pos h]
  exact .pure hQ

theorem bwrite_spec {d : Block} (h : sb.Data b) (hQ : Q () { s with block := update s.block b d }) :
    Wp E (bwrite sb b d) s Q := by
  refine .bind (.get ?_)
  rw [if_pos h]
  exact .set hQ

theorem bfree_spec (h : sb.Data b) (hu : s.bitmap b = true)
    (hQ : Q () { s with bitmap := update s.bitmap b false }) :
    Wp E (bfree sb b) s Q := by
  have h : sb.inData b = true := h
  have hlt : ¬sb.size ≤ b := by
    simp only [Super.inData, Bool.and_eq_true, decide_eq_true_eq] at h
    omega
  refine .bind (.get ?_)
  rw [if_neg hlt, if_pos hu]
  exact .set hQ

theorem setInode_spec
    (hQ : Q () { s with inode := update s.inode ip (f (s.inode ip)) }) :
    Wp E (setInode ip f) s Q :=
  Wp.modify hQ

theorem balloc_spec {Q : Nat → State → Prop} (hres : ∀ b, b < sb.dataStart → s.bitmap b = true)
    (hfull : (∀ b, b < sb.size → s.bitmap b = true) → Q 0 s)
    (hfound : ∀ b, sb.Data b → s.bitmap b = false →
      Q b { s with bitmap := update s.bitmap b true,
                   block := update s.block b fun _ => 0 }) :
    Wp E (balloc sb) s Q := by
  refine .bind (.get ?_)
  cases hf : (List.range sb.size).find? fun b => !s.bitmap b with
  | none => grind [Wp.pure]
  | some b =>
    have hb : s.bitmap b = false := by simpa using List.find?_some hf
    have hlt : b < sb.size := List.mem_range.mp (List.mem_of_find?_eq_some hf)
    have hdata : sb.Data b := by
      have hge : sb.dataStart ≤ b := by grind
      simp [Super.Data, Super.inData, hge, hlt]
    refine .bind (.set ?_)
    refine .bind (bwrite_spec hdata ?_)
    exact .pure (hfound b hdata hb)

/-! ## bmap -/

theorem Owns.data_indirect (h : Owns sb ip s) (h0 : (s.inode ip).addrs ndirect ≠ 0) :
    sb.Data ((s.inode ip).addrs ndirect) := by
  have e : addr sb (view ip s) s.block (.slot (s.inode ip).inum ndirect) =
      (s.inode ip).addrs ndirect := by
    rw [addr_slot h.2 (Nat.le_refl _), view_self]
  rw [← e]
  exact h.1.placed.mem _ (e ▸ h0)

theorem Owns.data_addrOf (h : Owns sb ip s) (h0 : s.addrOf sb ip bn ≠ 0) :
    sb.Data (s.addrOf sb ip bn) :=
  h.1.placed.mem _ h0

theorem bmap_addr {Q : Nat → State → Prop} {v : View} (ho : Placed sb.Data bm (addr sb v s.block))
    (hi : sb.Live v i) (ha : (v i).addrs = (s.inode ip).addrs)
    (hbn : addr sb v s.block (place i bn) ≠ 0) (hQ : Q (addr sb v s.block (place i bn)) s) :
    Wp E (bmap sb ip bn) s Q := by
  unfold bmap bmapSlot bmapWord
  by_cases hd : bn < ndirect
  · have e : addr sb v s.block (place i bn) = (s.inode ip).addrs bn := by
      rw [place, if_pos hd, addr_slot hi (Nat.le_of_lt hd), ha]
    rw [if_pos hd]
    refine .bind (.get ?_)
    rw [if_neg (e ▸ hbn), ← e]
    exact .pure hQ
  · have hp : place i bn = .entry i (bn - ndirect) := if_neg hd
    have hc : (s.inode ip).addrs ndirect ≠ 0 ∧ bn - ndirect < nindirect := by grind [addr]
    have hslot : addr sb v s.block (.slot i ndirect) = (s.inode ip).addrs ndirect := by
      rw [addr_slot hi (Nat.le_refl _), ha]
    have e : addr sb v s.block (place i bn) =
        (s.block ((s.inode ip).addrs ndirect)).word (bn - ndirect) := by
      rw [hp, addr_entry hi (ha ▸ hc.1) hc.2, ha]
    rw [if_neg hd, if_pos hc.2]
    refine .bind (.bind (.get ?_))
    rw [if_neg hc.1]
    refine .pure ?_
    rw [if_neg hc.1]
    refine .bind (bread_spec (hslot ▸ ho.mem _ (hslot ▸ hc.1)) ?_)
    rw [if_neg (e ▸ hbn), ← e]
    exact .pure hQ

theorem bmap_mapped {Q : Nat → State → Prop} (h : Owns sb ip s) (hbn : s.addrOf sb ip bn ≠ 0)
    (hQ : Q (s.addrOf sb ip bn) s) : Wp E (bmap sb ip bn) s Q :=
  bmap_addr h.1.placed h.2 (congrArg Dinode.addrs view_self) hbn hQ

theorem view_setAddr (n : Nat) (t : State) (ht : t.dinode = s.dinode)
    (hi : t.inode = update s.inode ip
      { s.inode ip with addrs := update (s.inode ip).addrs n b }) :
    view ip t = (view ip s).setAddr (s.inode ip).inum n b := by
  simp [view, ht, hi, View.setAddr]

/-- What `bmap` may do before it finds a block. -/
structure Grown (sb : Super) (ip : Ip) (s s' : State) : Prop where
  owns : Owns sb ip s'
  only : OnlyAddrs ip s s'
  ext : Extends sb (view ip s) s.block (view ip s') s'.block

theorem Grown.refl (h : Owns sb ip s) : Grown sb ip s s := ⟨h, .refl, .refl⟩

theorem Grown.trans {s'' : State} (h : Grown sb ip s s') (h' : Grown sb ip s' s'') :
    Grown sb ip s s'' :=
  ⟨h'.owns, h.only.trans h'.only, h.ext.trans h'.ext⟩

theorem grown_setAddr (h : Owns sb ip s) (hn : n ≤ ndirect)
    (h0 : (s.inode ip).addrs n = 0) (hb : sb.Data b) (hu : s.bitmap b = false) (t : State)
    (ht : t = { s with
      bitmap := update s.bitmap b true
      block := update s.block b fun _ => 0
      inode := update s.inode ip
        { s.inode ip with addrs := update (s.inode ip).addrs n b } }) :
    Grown sb ip s t ∧ (t.inode ip).addrs n = b ∧
      addr sb (view ip t) t.block (.slot (s.inode ip).inum n) = b := by
  have hview : view ip t = (view ip s).setAddr (s.inode ip).inum n b :=
    view_setAddr n t (by rw [ht]) (by rw [ht])
  obtain ⟨ho, hx, ha⟩ := h.1.allocSlot h.2 hn (by rwa [view_self]) hb hu
  have hblk : t.block = update s.block b fun _ => 0 := by rw [ht]
  have hbm : t.bitmap = update s.bitmap b true := by rw [ht]
  have hinum : (t.inode ip).inum = (s.inode ip).inum := by simp [ht]
  rw [← hview, ← hblk] at ho hx ha
  refine ⟨⟨⟨hbm ▸ ho, ?_⟩, ⟨by rw [ht], _, by rw [ht]⟩, hx⟩, by simp [ht], ?_⟩
  · rw [hinum]
    exact (hx.same _).live.mpr h.2
  · rw [ha, update_self]

theorem grown_setWord (h : Owns sb ip s) {j : Nat} (hind : (s.inode ip).addrs ndirect ≠ 0)
    (hj : j < nindirect) (h0 : (s.block ((s.inode ip).addrs ndirect)).word j = 0)
    (hb : sb.Data b) (hu : s.bitmap b = false) (t : State)
    (ht : t = { s with
      bitmap := update s.bitmap b true
      block := update (update s.block b fun _ => 0)
        ((s.inode ip).addrs ndirect) ((s.block ((s.inode ip).addrs ndirect)).setWord j b) }) :
    Grown sb ip s t ∧ addr sb (view ip t) t.block (.entry (s.inode ip).inum j) = b := by
  have hview : view ip t = view ip s := by rw [ht]; rfl
  have e : (view ip s (s.inode ip).inum).addrs ndirect = (s.inode ip).addrs ndirect := by
    rw [view_self]
  obtain ⟨ho, hx, ha⟩ := h.1.allocWord h.2 (e ▸ hind) hj (e ▸ h0) hb hu t.block (by rw [ht, e])
  have hbm : t.bitmap = update s.bitmap b true := by rw [ht]
  rw [← hview] at ha
  refine ⟨⟨⟨?_, ?_⟩, ?_, hview ▸ hx⟩, by rw [ha, update_self]⟩
  · rw [hview, hbm]
    exact ho
  · rw [hview, ht]
    exact h.2
  · rw [ht]
    exact ⟨rfl, (s.inode ip).addrs, by simp⟩

def FreeBlock (sb : Super) (bm : Nat → Bool) (b : Nat) : Prop := b < sb.size ∧ bm b = false

theorem not_freeBlock (hfull : ∀ b, b < sb.size → bm b = true) (b : Nat) : ¬FreeBlock sb bm b :=
  fun hb => by grind [FreeBlock]

theorem freeBlock_update {b' : Nat} :
    FreeBlock sb (update bm b true) b' ↔ b' ≠ b ∧ FreeBlock sb bm b' := by
  by_cases hb : b' = b
  · simp [FreeBlock, hb]
  · simp [FreeBlock, hb]

/-- Inode `i` has a block number `bn`, or there is one for it, and another for an indirect block
where that is missing. -/
def Obtains (sb : Super) (bm : Nat → Bool) (v : View) (blk : Nat → Block) (i bn : Nat) : Prop :=
  addr sb v blk (place i bn) ≠ 0 ∨ ∃ b, FreeBlock sb bm b ∧
    (ndirect ≤ bn → addr sb v blk (.slot i ndirect) = 0 → ∃ b', b' ≠ b ∧ FreeBlock sb bm b')

def State.Obtains (sb : Super) (s : State) (ip : Ip) (bn : Nat) : Prop :=
  Fs.Obtains sb s.bitmap (view ip s) s.block (s.inode ip).inum bn

theorem bmapSlot_spec (h : Owns sb ip s) (hn : n ≤ ndirect) :
    Wp E (bmapSlot sb ip n) s fun a s' =>
      Grown sb ip s s' ∧
        (a = 0 → s' = s ∧ (s.inode ip).addrs n = 0 ∧ ∀ b, b < sb.size → s.bitmap b = true) ∧
        (a ≠ 0 → (s'.inode ip).addrs n = a ∧
          addr sb (view ip s') s'.block (.slot (s'.inode ip).inum n) = a ∧
          ((s.inode ip).addrs n ≠ 0 ∧ s' = s ∨ (s.inode ip).addrs n = 0 ∧ FreeBlock sb s.bitmap a ∧
            s'.bitmap = update s.bitmap a true ∧ s'.block a = fun _ => 0)) := by
  refine .bind (.get ?_)
  refine .ite (fun h0 => ?_) fun h0 => ?_
  · refine .bind (balloc_spec h.1.reserved ?_ ?_)
    · intro hfull
      exact .pure ⟨.refl h, fun _ => ⟨rfl, h0, hfull⟩, fun h => absurd rfl h⟩
    · intro b hb hu
      have hb0 : b ≠ 0 := fun e => sb.not_data_zero (e ▸ hb)
      rw [if_neg hb0]
      refine .bind (setInode_spec (.pure ?_))
      obtain ⟨hg, ha, hs⟩ := grown_setAddr h hn h0 hb hu _ rfl
      refine ⟨hg, fun h => absurd h hb0, fun _ => ⟨ha, ?_, .inr ⟨h0, ⟨hb.lt_size, hu⟩, rfl, ?_⟩⟩⟩
      · rw [hg.only.inum]
        exact hs
      · exact update_self ..
  · refine .pure ⟨.refl h, fun h => absurd h h0, fun _ => ⟨rfl, ?_, .inl ⟨h0, rfl⟩⟩⟩
    rw [addr_slot h.2 hn, view_self]

theorem bmapWord_spec (h : Owns sb ip s) {j : Nat} (hind : (s.inode ip).addrs ndirect ≠ 0)
    (hj : j < nindirect) :
    Wp E (bmapWord sb ((s.inode ip).addrs ndirect) j) s fun a s' =>
      Grown sb ip s s' ∧ (a = 0 → (s.block ((s.inode ip).addrs ndirect)).word j = 0 ∧
          s'.bitmap = s.bitmap ∧ ∀ b, b < sb.size → s'.bitmap b = true) ∧
        (a ≠ 0 → addr sb (view ip s') s'.block (.entry (s'.inode ip).inum j) = a ∧
          ((s.block ((s.inode ip).addrs ndirect)).word j ≠ 0 ∨ FreeBlock sb s.bitmap a)) := by
  have hdata := h.data_indirect hind
  refine .bind (bread_spec hdata ?_)
  refine .ite (fun h0 => ?_) fun h0 => ?_
  · refine .bind (balloc_spec h.1.reserved ?_ ?_)
    · intro hfull
      exact .pure ⟨.refl h, fun _ => ⟨h0, rfl, hfull⟩, fun h => absurd rfl h⟩
    · intro b hb hu
      have hb0 : b ≠ 0 := fun e => sb.not_data_zero (e ▸ hb)
      rw [if_neg hb0]
      refine .bind (bwrite_spec hdata (.pure ?_))
      obtain ⟨hg, hs⟩ := grown_setWord h hind hj h0 hb hu _ rfl
      exact ⟨hg, fun h => absurd h hb0, fun _ => ⟨hs, .inr ⟨hb.lt_size, hu⟩⟩⟩
  · refine .pure ⟨.refl h, fun h => absurd h h0, fun _ => ⟨?_, .inl h0⟩⟩
    rw [addr_entry h.2 (by rwa [view_self]) hj, view_self]

theorem bmap_spec (h : Owns sb ip s) (hbn : bn < maxfile) :
    Wp E (bmap sb ip bn) s fun a s' =>
      Grown sb ip s s' ∧ (a = 0 → (∀ b, b < sb.size → s'.bitmap b = true) ∧ ¬s.Obtains sb ip bn) ∧
        (a ≠ 0 → s'.addrOf sb ip bn = a ∧ s.Obtains sb ip bn) := by
  have hslot : ∀ n, n ≤ ndirect →
      addr sb (view ip s) s.block (.slot (s.inode ip).inum n) = (s.inode ip).addrs n := by
    intro n hn
    rw [addr_slot h.2 hn, view_self]
  unfold bmap
  by_cases hd : bn < ndirect
  · have hp := hslot bn (Nat.le_of_lt hd)
    rw [if_pos hd]
    refine (bmapSlot_spec h (Nat.le_of_lt hd)).mono ?_
    rintro a s' ⟨hg, hfull, ha⟩
    rw [State.addrOf, State.Obtains, Obtains, place, if_pos hd, place, if_pos hd, hp]
    refine ⟨hg, fun h0 => ?_, fun h0 => ?_⟩
    · obtain ⟨rfl, haddr, hfull⟩ := hfull h0
      refine ⟨hfull, ?_⟩
      rintro (hne | ⟨b, hb, -⟩)
      · exact hne haddr
      · exact not_freeBlock hfull b hb
    · obtain ⟨-, ha, hor⟩ := ha h0
      exact ⟨ha, hor.imp And.left fun hb => ⟨a, hb.2.1, fun hge => absurd hd (Nat.not_lt.mpr hge)⟩⟩
  · have hj : bn - ndirect < nindirect := by
      simp only [maxfile] at hbn
      omega
    have hi := hslot ndirect (Nat.le_refl _)
    have hentry : (s.inode ip).addrs ndirect = 0 →
        addr sb (view ip s) s.block (.entry (s.inode ip).inum (bn - ndirect)) = 0 := by
      intro h0
      rw [addr, if_neg]
      rintro ⟨-, hne, -⟩
      exact hne (by rw [view_self, h0])
    have hword1 : (s.inode ip).addrs ndirect ≠ 0 →
        addr sb (view ip s) s.block (.entry (s.inode ip).inum (bn - ndirect)) =
          (s.block ((s.inode ip).addrs ndirect)).word (bn - ndirect) := by
      intro hne
      rw [addr_entry h.2 (by rwa [view_self]) hj, view_self]
    rw [if_neg hd, if_pos hj]
    refine (bmapSlot_spec h (Nat.le_refl _)).seq ?_
    rintro ind s1 ⟨hg, hfull, ha⟩
    simp only [State.addrOf, State.Obtains, Obtains, place, if_neg hd, hi]
    by_cases h0 : ind = 0
    · obtain ⟨rfl, haddr, hfull⟩ := hfull h0
      rw [if_pos h0]
      refine .pure ⟨hg, fun _ => ⟨hfull, ?_⟩, fun hne => absurd rfl hne⟩
      rintro (hne | ⟨b, hb, -⟩)
      · exact hne (hentry haddr)
      · exact not_freeBlock hfull b hb
    · rw [if_neg h0]
      obtain ⟨ha, -, hor⟩ := ha h0
      subst ha
      refine (bmapWord_spec hg.owns h0 hj).mono ?_
      rintro a s' ⟨hg', hfull', ha'⟩
      refine ⟨hg.trans hg', fun h0 => ?_, fun h0 => ?_⟩
      · obtain ⟨hword, hbm, hfull'⟩ := hfull' h0
        refine ⟨hfull', ?_⟩
        rw [hbm] at hfull'
        rcases hor with ⟨hne, rfl⟩ | ⟨hz, hb, hbm1, -⟩
        · rintro (hne' | ⟨b, hb, -⟩)
          · exact hne' ((hword1 hne).trans hword)
          · exact not_freeBlock hfull' b hb
        · -- the only free block has become the indirect one
          have hlast : ∀ b, FreeBlock sb s.bitmap b → b = (s1.inode ip).addrs ndirect := by
            intro b hb'
            by_contra hne
            rw [hbm1] at hfull'
            exact not_freeBlock hfull' b (freeBlock_update.mpr ⟨hne, hb'⟩)
          rintro (hne' | ⟨b, hb, hmore⟩)
          · exact hne' (hentry hz)
          · obtain ⟨b', hne, hb'⟩ := hmore (Nat.le_of_not_lt hd) hz
            exact hne ((hlast b' hb').trans (hlast b hb).symm)
      · obtain ⟨ha', hor'⟩ := ha' h0
        refine ⟨ha', ?_⟩
        rcases hor with ⟨hne, rfl⟩ | ⟨hz, hb, hbm1, hblk⟩
        · refine hor'.imp (fun hw => (hword1 hne).trans_ne hw) fun hb => ⟨a, hb, fun _ hz => ?_⟩
          exact absurd hz hne
        · rcases hor' with hw | hb'
          · exact absurd (by rw [hblk, Block.word_zero]) hw
          · rw [hbm1, freeBlock_update] at hb'
            exact .inr ⟨_, hb, fun _ _ => ⟨a, hb'⟩⟩

/-! ## itrunc -/

/-- The first `k` of the addresses of inode `i`, and the first `m` words of its indirect block. -/
def cleared (i k m : Nat) : Place → Bool
  | .slot i' n => decide (i' = i) && decide (n < k)
  | .entry i' j => decide (i' = i) && decide (j < m)

attribute [local simp] cleared

theorem cleared_slot (i k m : Nat) (q : Place) :
    cleared i (k + 1) m q = (cleared i k m q || decide (q = .slot i k)) := by
  cases q <;> simp only [cleared] <;> grind

theorem cleared_entry (i k m : Nat) (q : Place) :
    cleared i k (m + 1) q = (cleared i k m q || decide (q = .entry i m)) := by
  cases q <;> simp only [cleared] <;> grind

theorem cleared_of_ne {k m : Nat} {p : Place} (h : p.inode ≠ i) : cleared i k m p = false := by
  cases p <;> simp only [Place.inode] at h <;> simp [h]

/-- State `t` of `itrunc` from `s`, where the places `cleared i k m` have been freed. -/
structure Cut (sb : Super) (ip : Ip) (s : State) (k m : Nat) (t : State) : Prop where
  block : t.block = s.block
  dinode : t.dinode = s.dinode
  inode : t.inode = update s.inode ip
    { s.inode ip with addrs := fun n => if n < k then 0 else (s.inode ip).addrs n }
  placed : Placed sb.Data t.bitmap
    (Placed.mask (cleared (s.inode ip).inum k m) (addr sb (view ip s) s.block))
  reserved : ∀ b, b < sb.dataStart → t.bitmap b = true

variable {k m : Nat} {t : State}

theorem Cut.start (h : Owns sb ip s) : Cut sb ip s 0 0 s := by
  have e : Placed.mask (cleared (s.inode ip).inum 0 0) (addr sb (view ip s) s.block) =
      addr sb (view ip s) s.block := by
    funext p
    cases p <;> simp [Placed.mask]
  exact ⟨rfl, rfl, by simp, by rw [e]; exact h.1.placed, h.1.reserved⟩

theorem Cut.inum (h : Cut sb ip s k m t) : (t.inode ip).inum = (s.inode ip).inum := by
  simp [h.inode]

theorem Cut.addrs (h : Cut sb ip s k m t) (n : Nat) :
    (t.inode ip).addrs n = if n < k then 0 else (s.inode ip).addrs n := by
  simp [h.inode]

theorem reserved_update (h : ∀ b, b < sb.dataStart → bm b = true) (hb : sb.Data b) :
    ∀ c, c < sb.dataStart → update bm b false c = true := by
  intro c hc
  have hb : sb.inData b = true := hb
  simp only [Super.inData, Bool.and_eq_true, decide_eq_true_eq] at hb
  rw [update_of_ne (by omega)]
  exact h c hc

theorem updateAddrs_eq {a : Nat → Nat} :
    update (fun n => if n < k then 0 else a n) k 0 = fun n => if n < k + 1 then 0 else a n := by
  funext n
  rw [update_apply]
  split
  · next h => rw [if_pos (by omega)]
  · grind

theorem Cut.clear_inode (h : Cut sb ip s k m t) :
    update t.inode ip
        { t.inode ip with addrs := update (t.inode ip).addrs k 0 } =
      update s.inode ip
        { s.inode ip with addrs := fun n => if n < k + 1 then 0 else (s.inode ip).addrs n } := by
  simp [h.inode, updateAddrs_eq]

theorem itruncDirect_spec (hs : Owns sb ip s) (hk : k < ndirect) (h : Cut sb ip s k 0 t) :
    Wp E (itruncDirect sb ip k) t fun _ t' => Cut sb ip s (k + 1) 0 t' := by
  have hk' : addr sb (view ip s) s.block (.slot (s.inode ip).inum k) = (t.inode ip).addrs k := by
    rw [addr_slot hs.2 (Nat.le_of_lt hk), view_self, h.addrs, if_neg (Nat.lt_irrefl k)]
  refine .bind (.get ?_)
  refine .ite (fun h0 => ?_) fun h0 => ?_
  · refine .pure { h with inode := ?_, placed := h.placed.skip (cleared_slot _ _ _) (hk' ▸ h0) }
    rw [← h.clear_inode, ← h0]
    simp
  · obtain ⟨⟨hdata, hused⟩, hp⟩ := h.placed.release sb.not_data_zero (cleared_slot _ _ _)
      (by simp) (hk' ▸ h0)
    rw [hk'] at hdata hused hp
    refine .bind (bfree_spec hdata hused (setInode_spec ?_))
    exact ⟨h.block, h.dinode, h.clear_inode, hp, reserved_update h.reserved hdata⟩

theorem itruncWord_spec (hs : Owns sb ip s) (hind : (s.inode ip).addrs ndirect ≠ 0)
    (hm : m < nindirect) (h : Cut sb ip s ndirect m t) :
    Wp E (itruncWord sb (s.block ((s.inode ip).addrs ndirect)) m) t fun _ t' =>
      Cut sb ip s ndirect (m + 1) t' := by
  have hm' : addr sb (view ip s) s.block (.entry (s.inode ip).inum m) =
      (s.block ((s.inode ip).addrs ndirect)).word m := by
    rw [addr_entry hs.2 (by rwa [view_self]) hm, view_self]
  unfold itruncWord
  refine .ite (fun h0 => ?_) fun h0 => ?_
  · exact .pure { h with placed := h.placed.skip (cleared_entry _ _ _) (hm' ▸ h0) }
  · obtain ⟨⟨hdata, hused⟩, hp⟩ := h.placed.release sb.not_data_zero (cleared_entry _ _ _)
      (by simp) (hm' ▸ h0)
    rw [hm'] at hdata hused hp
    exact bfree_spec hdata hused
      ⟨h.block, h.dinode, h.inode, hp, reserved_update h.reserved hdata⟩

theorem Cut.no_words (h : Cut sb ip s k 0 t) (h0 : (s.inode ip).addrs ndirect = 0) :
    Cut sb ip s k m t := by
  refine { h with placed := ?_ }
  have e : Placed.mask (cleared (s.inode ip).inum k m) (addr sb (view ip s) s.block) =
      Placed.mask (cleared (s.inode ip).inum k 0) (addr sb (view ip s) s.block) := by
    funext p
    cases p with
    | slot => rfl
    | entry i j =>
      by_cases hi : i = (s.inode ip).inum
      · grind [addr, view, addr_entry_eq_zero, view_self, Placed.mask]
      · simp [Placed.mask, hi]
  rw [e]
  exact h.placed

theorem itruncIndirect_spec (hs : Owns sb ip s) (h : Cut sb ip s ndirect 0 t) :
    Wp E (itruncIndirect sb ip) t fun _ t' => Cut sb ip s (ndirect + 1) nindirect t' := by
  have ha : (t.inode ip).addrs ndirect = (s.inode ip).addrs ndirect := by
    rw [h.addrs, if_neg (Nat.lt_irrefl _)]
  have hslot : addr sb (view ip s) s.block (.slot (s.inode ip).inum ndirect) =
      (s.inode ip).addrs ndirect := by
    rw [addr_slot hs.2 (Nat.le_refl _), view_self]
  refine .bind (.get ?_)
  rw [ha]
  refine .ite (fun h0 => ?_) fun h0 => ?_
  · have h' := h.no_words (m := nindirect) h0
    refine .pure { h' with inode := ?_, placed := h'.placed.skip (cleared_slot _ _ _) (by rw [hslot, h0]) }
    rw [← h'.clear_inode, show (0 : Nat) = (t.inode ip).addrs ndirect by rw [ha, h0]]
    simp
  · refine .bind (bread_spec (hs.data_indirect h0) ?_)
    rw [h.block]
    refine (Wp.forRange _ (Cut sb ip s ndirect) nindirect 0 t ?_ h).seq ?_
    · grind [itruncWord_spec]
    · intro _ t' ht'
      obtain ⟨⟨hdata, hused⟩, hp⟩ := ht'.placed.release sb.not_data_zero (cleared_slot _ _ _)
        (by simp) (by rwa [hslot])
      rw [hslot] at hdata hused hp
      refine .bind (bfree_spec hdata hused (setInode_spec ?_))
      exact ⟨ht'.block, ht'.dinode, ht'.clear_inode, hp, reserved_update ht'.reserved hdata⟩

def Dinode.trunc (d : Dinode) : Dinode :=
  { d with addrs := fun n => if n < ndirect + 1 then 0 else d.addrs n, size := 0 }

theorem trunc_addrs (d : Dinode) (hn : n ≤ ndirect) : d.trunc.addrs n = 0 :=
  if_pos (Nat.lt_succ_of_le hn)

theorem addr_trunc (v : View) (blk : Nat → Block) (i : Nat) :
    addr sb (update v i (v i).trunc) blk =
      Placed.mask (cleared i (ndirect + 1) nindirect) (addr sb v blk) := by
  have hself : update v i (v i).trunc i = (v i).trunc := update_self ..
  funext p
  by_cases hp : p.inode = i
  · cases p with
    | slot i' n =>
      obtain rfl : i' = i := hp
      by_cases hn : n ≤ ndirect
      · have hc : cleared i' (ndirect + 1) nindirect (.slot i' n) = true := by
          simp [Nat.lt_succ_of_le hn]
        simp only [Placed.mask, hc, addr, hself, trunc_addrs _ hn, ite_self, if_true]
      · simp only [Placed.mask, addr, hn, and_false, if_false, ite_self]
    | entry i' j =>
      obtain rfl : i' = i := hp
      rw [addr_entry_eq_zero (by rw [hself, trunc_addrs _ (Nat.le_refl _)]), Placed.mask]
      by_cases hj : j < nindirect
      · simp [hj]
      · simp [addr, hj]
  · grind [Placed.mask_of_false, cleared_of_ne, addr_congr, update_apply]

theorem isave_spec
    (hf : (f (s.inode ip)).inum = (s.inode ip).inum) (hr : (s.inode ip).inum < sb.ninodes)
    (hQ : Q () { s with
      inode := update s.inode ip (f (s.inode ip))
      dinode := update s.dinode (s.inode ip).inum (f (s.inode ip)).toDinode }) :
    Wp E (isave sb ip f) s Q := by
  refine .bind (setInode_spec (.bind (.get ?_)))
  simp only [update_self, hf]
  rw [if_pos hr]
  exact .set hQ

theorem Owned.trunc {bm' : Nat → Bool} {v : View} {blk : Nat → Block} (h : Owned sb bm v blk)
    (hres : ∀ b, b < sb.dataStart → bm' b = true)
    (hp : Placed sb.Data bm' (Placed.mask (cleared i (ndirect + 1) nindirect) (addr sb v blk))) :
    Owned sb bm' (update v i (v i).trunc) blk := by
  have hself : update v i (v i).trunc i = (v i).trunc := update_self ..
  refine ⟨addr_trunc v blk i ▸ hp, hres, ?_, ?_⟩
  · intro i' hi' bn hbn
    by_cases hi : i' = i
    · subst hi
      rw [hself] at hbn
      exact absurd hbn (Nat.not_lt_zero _)
    · have e : update v i (v i).trunc i' = v i' := update_of_ne hi _ _
      have hne : (place i' bn).inode ≠ i := by rwa [place_inode]
      rw [addr_trunc, Placed.mask_of_false (cleared_of_ne hne)]
      exact h.mapped i' ((live_congr e).mp hi') bn (e ▸ hbn)
  · intro i' hi'
    by_cases hi : i' = i
    · subst hi
      rw [hself]
      exact Nat.zero_le _
    · have := h.size_le
      grind [live_congr, update_apply]

def State.truncated (s : State) (ip : Ip) (bm : Nat → Bool) : State :=
  { s with
    bitmap := bm
    dinode := update s.dinode (s.inode ip).inum (s.inode ip).toDinode.trunc
    inode := update s.inode ip
      { s.inode ip with toDinode := (s.inode ip).toDinode.trunc } }

theorem itrunc_spec (h : Owns sb ip s) :
    Wp E (itrunc sb ip) s fun _ s' => ∃ bm, s' = s.truncated ip bm ∧
      Owned sb bm s'.dinode s'.block := by
  refine (Wp.forRange _ (fun k => Cut sb ip s k 0) ndirect 0 s ?_ (.start h)).seq ?_
  · intro k t _ hk ht
    exact itruncDirect_spec h (by omega) ht
  intro _ t ht
  refine (itruncIndirect_spec h ht).seq ?_
  intro _ t ht
  refine isave_spec rfl (ht.inum ▸ h.2.2.1) ⟨t.bitmap, ?_, ?_⟩
  · simp [State.truncated, ht.block, ht.dinode, ht.inode, Dinode.trunc]
  · have ho := h.1.trunc ht.reserved ht.placed
    have hview : update (view ip s) (s.inode ip).inum (s.inode ip).toDinode.trunc =
        update s.dinode (s.inode ip).inum (s.inode ip).toDinode.trunc := by
      simp [view]
    rw [view_self, hview] at ho
    simpa [ht.block, ht.dinode, ht.inode, Dinode.trunc] using ho

end Xv6.Fs
