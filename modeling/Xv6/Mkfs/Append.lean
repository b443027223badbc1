import Xv6.Mkfs.Build

/-!
# Appending to a file

`iappend` on the sizes of inodes. The image has room for them or the run ends, and the
number of blocks that are handed out is exact.
-/

namespace Xv6.Mkfs

open ByteMem
open Fs (Block RawInode Dinode View Place Extends addr place bsize ndirect nindirect
  maxfile)
open Function (update update_eq_self update_idem update_of_ne update_self)

variable {E : Exit → Prop} {g g' g1 : Img} {v v' v1 : View} {blk blk' : Nat → Block}
  {c : Nat → Nat} {m : Nat → Nat} {i j n b k fbn : Nat} {din : RawInode}

/-! ## What is stored -/

/-- Inode `i` has `sz` bytes in its first `k` blocks, and it has no more. -/
structure Stored (v : View) (blk : Nat → Block) (i k sz : Nat) : Prop where
  mapped : ∀ bn, addr wide v blk (place i bn) ≠ 0 ↔ bn < k
  indirect : addr wide v blk (.slot i ndirect) ≠ 0 ↔ ndirect < k
  fits : sz ≤ k * bsize

variable {din1 : RawInode} {x sz : Nat}

theorem Stored.of_eq (h : Stored v blk i k sz)
    (ha : ∀ p : Place, p.inode = i → addr wide v' blk' p = addr wide v blk p) :
    Stored v' blk' i k sz := by
  refine ⟨?_, ?_, h.fits⟩
  · intro bn
    rw [ha _ (Fs.place_inode i bn)]
    exact h.mapped bn
  · rw [ha _ rfl]
    exact h.indirect

theorem Stored.addr_eq_zero {p : Place} (h : Stored v blk p.inode 0 sz) :
    addr wide v blk p = 0 := by
  by_contra h0
  cases p with
  | slot i n =>
    rcases Nat.lt_trichotomy n ndirect with hn | rfl | hn
    · have hp : place i n = .slot i n := if_pos hn
      rw [← hp] at h0
      exact Nat.not_lt_zero n ((h.mapped n).mp h0)
    · exact Nat.not_lt_zero ndirect (h.indirect.mp h0)
    · exact h0 (if_neg fun hc => absurd hc.2 (Nat.not_le.mpr hn))
  | entry i j =>
    have hp : place i (ndirect + j) = .entry i j := by simp [place]
    rw [← hp] at h0
    exact Nat.not_lt_zero _ ((h.mapped (ndirect + j)).mp h0)

/-- An image whose inodes `v` have the sizes `c`, in `m` blocks. -/
structure Built (g : Img) (v : View) (c : Nat → Nat) (m : Nat → Nat) : Prop
    extends Core g v where
  stored : ∀ i, wide.Live v i → Stored v g.sect i (m i) (c i)

/-- The number of blocks for `k` blocks of content, the indirect one included. -/
def withIndirect (k : Nat) : Nat := k + if ndirect < k then 1 else 0

theorem withIndirect_mono {k k' : Nat} (h : k ≤ k') : withIndirect k ≤ withIndirect k' := by
  unfold withIndirect
  split <;> split <;> omega

theorem Built.grow (h : Built g v c m) (hm : m i = fbn) (hcore : Core g' v')
    (hx : Extends wide v g.sect v' g'.sect)
    (hother : ∀ p : Place, p.inode ≠ i → addr wide v' g'.sect p = addr wide v g.sect p)
    (hplace : ∀ bn, bn ≠ fbn → addr wide v' g'.sect (place i bn) = addr wide v g.sect (place i bn))
    (hnew : addr wide v' g'.sect (place i fbn) ≠ 0)
    (hind : addr wide v' g'.sect (.slot i ndirect) ≠ 0 ↔ ndirect < fbn + 1) :
    Built g' v' c (update m i (fbn + 1)) := by
  refine ⟨hcore, ?_⟩
  intro j hj
  have hs := h.stored j ((hx.same j).live.mp hj)
  by_cases hji : j = i
  · subst hji
    rw [hm] at hs
    rw [update_self]
    refine ⟨?_, hind, ?_⟩
    · intro bn
      by_cases hbn : bn = fbn
      · grind
      · rw [hplace bn hbn, hs.mapped]
        omega
    · have := hs.fits
      rw [Nat.add_mul]
      omega
  · rw [update_of_ne hji]
    apply hs.of_eq
    rintro p rfl
    exact hother p hji

/-! ## Mapping a block -/

theorem nextBlock_spec {Q : Nat → Img → Prop} (hf : g.freeblock ≤ fssize + 1)
    (hQ : Q g.freeblock { g with freeblock := g.freeblock + 1 }) : Wp E nextBlock g Q := by
  have e : (g.freeblock + 1) % 2 ^ 32 = g.freeblock + 1 :=
    Nat.mod_eq_of_lt (by rw [fssize_eq] at hf; omega)
  refine .bind (.get (.bind (.set (.pure ?_))))
  rw [e]
  exact hQ

theorem mapSlot_spec {Q : RawInode → Img → Prop} (hf : g.freeblock ≤ fssize)
    (hsome : din.addrs n ≠ 0 → Q din g)
    (hnone : din.addrs n = 0 → Q { din with addrs := update din.addrs n g.freeblock }
        { g with freeblock := g.freeblock + 1 }) : Wp E (mapSlot din n) g Q := by
  unfold mapSlot
  split
  · next h0 => exact .bind (nextBlock_spec (by omega) (.pure (hnone h0)))
  · next h0 => exact .pure (hsome h0)

theorem mapWord_new (h : Core g v) (hi : wide.Live v i) (hind : (v i).addrs ndirect ≠ 0)
    (hj : j < nindirect) (h0 : (g.sect ((v i).addrs ndirect)).word j = 0) :
    Wp E (mapWord ((v i).addrs ndirect) j) g fun x g' =>
      x = g.freeblock ∧ g'.len = fssize ∧ (g.freeblock < fssize → Core g' v ∧
        Extends wide v g.sect v g'.sect ∧
        addr wide v g'.sect = update (addr wide v g.sect) (.entry i j) g.freeblock ∧
        g'.view = g.view ∧ g'.freeinode = g.freeinode ∧ g'.freeblock = g.freeblock + 1) := by
  have hslot : addr wide v g.sect (.slot i ndirect) = (v i).addrs ndirect :=
    Fs.addr_slot hi (Nat.le_refl _)
  have hlt := h.addr_lt (p := .slot i ndirect) (hslot ▸ hind)
  rw [hslot] at hlt
  have hf := h.freeblock.2
  refine .bind (rsect_spec (by omega) (fun hl => ?_) fun _ => ?_)
  · rw [h.len] at hl
    omega
  · rw [if_pos h0]
    refine .bind (nextBlock_spec (by omega) (.bind (wsect_spec h.len (by omega) ?_)))
    refine .pure ⟨rfl, h.len, fun hb => ?_⟩
    obtain ⟨hc, hx, ha⟩ := h.allocWord hi hind hj h0 hb rfl
    exact ⟨hc, hx, ha, view_put hlt.1 _, rfl, rfl⟩

/-- The image `g'` after block `fbn` of inode `i` has been mapped, at address `x`. -/
structure Mapping (g : Img) (v : View) (c : Nat → Nat) (m : Nat → Nat) (i fbn : Nat)
    (din din' : RawInode) (x : Nat) (g' : Img) : Prop where
  built : Built g' (update v i (dinode din')) c (update m i (fbn + 1))
  x_eq : x = addr wide (update v i (dinode din')) g'.sect (place i fbn)
  fits : din'.Fits
  same : (dinode din).Same (dinode din')
  view : g'.view = g.view
  freeinode : g'.freeinode = g.freeinode
  freeblock : g'.freeblock + withIndirect (m i) = g.freeblock + withIndirect (fbn + 1)

theorem Mapping.of_mapped (h : Built g v c m) (hv : v i = dinode din) (hr : din.Fits)
    (hm : m i = fbn + 1) : Mapping g v c m i fbn din din (addr wide v g.sect (place i fbn)) g := by
  have e : update v i (dinode din) = v := by rw [← hv, update_eq_self]
  have em : update m i (fbn + 1) = m := by rw [← hm, update_eq_self]
  exact ⟨by rwa [e, em], by rw [e], hr, .refl _, rfl, rfl, by rw [hm]⟩

theorem setAddr_eq (hv : v i = dinode din) (hn : n ≤ ndirect) (b : Nat) :
    v.setAddr i n b = update v i (dinode { din with addrs := update din.addrs n b }) := by
  rw [dinode_setAddr din hn, Fs.View.setAddr, hv]

theorem same_setAddr (hn : n ≤ ndirect) (b : Nat) :
    (dinode din).Same (dinode { din with addrs := update din.addrs n b }) := by
  rw [dinode_setAddr din hn]
  generalize dinode din = d
  exact ⟨rfl, rfl, rfl, rfl, rfl⟩

/-- What `mapBlock` finds: the block, or a number beyond the image. -/
def MapResult (g : Img) (v : View) (c : Nat → Nat) (m : Nat → Nat) (i fbn : Nat)
    (din : RawInode) (r : RawInode × Nat) (g' : Img) : Prop :=
  Mapping g v c m i fbn din r.1 r.2 g' ∨ r.2 = fssize ∧ g'.len = fssize ∧
      fssize + withIndirect (m i) < g.freeblock + withIndirect (fbn + 1)

theorem Built.growWord (h : Built g v c m) (hm : m i = fbn) (hfbn : ¬fbn < ndirect)
    (hx1 : Extends wide v g.sect v1 g1.sect)
    (h1 : ∀ p, p ≠ .slot i ndirect → addr wide v1 g1.sect p = addr wide v g.sect p)
    (hslot : addr wide v1 g1.sect (.slot i ndirect) ≠ 0) (hc : Core g' v1)
    (hx : Extends wide v1 g1.sect v1 g'.sect)
    (ha : addr wide v1 g'.sect = update (addr wide v1 g1.sect) (.entry i (fbn - ndirect)) b)
    (hb : b ≠ 0) :
    Built g' v1 c (update m i (fbn + 1)) ∧ b = addr wide v1 g'.sect (place i fbn) := by
  have hp : place i fbn = .entry i (fbn - ndirect) := if_neg hfbn
  have hself : addr wide v1 g'.sect (place i fbn) = b := by rw [ha, hp, update_self]
  refine ⟨h.grow hm hc (hx1.trans hx) ?_ ?_ (hself ▸ hb) ?_, hself.symm⟩
  · intro p hpi
    rw [ha, update_of_ne (by rintro rfl; exact hpi rfl)]
    apply h1
    rintro rfl
    exact hpi rfl
  · intro bn hbn
    rw [ha, ← hp, update_of_ne (fun he => hbn (Fs.place_inj he).2)]
    exact h1 _ (Fs.place_ne_indirect i i bn)
  · exact ⟨fun _ => by omega, fun _ => hslot⟩

section

variable (h : Built g v c m) (hi : wide.Live v i) (hv : v i = dinode din) (hr : din.Fits)

include h hi hv hr

theorem mapDirect_spec (hfbn : fbn < ndirect) (hm : m i = fbn ∨ m i = fbn + 1) :
    Wp E (mapBlock din fbn) g (MapResult g v c m i fbn din) := by
  have hs := h.stored i hi
  have hp : place i fbn = .slot i fbn := if_pos hfbn
  have ha : addr wide v g.sect (place i fbn) = din.addrs fbn := by
    rw [hp, Fs.addr_slot hi hfbn.le, hv, dinode_addrs din hfbn.le]
  have hf := h.freeblock
  unfold mapBlock
  rw [if_pos hfbn]
  refine .bind (mapSlot_spec hf.2 (fun h0 => .pure (.inl ?_)) fun h0 => .pure ?_)
  · grind [hs.mapped, Mapping.of_mapped]
  · have hm' : m i = fbn := by
      have : ¬fbn < m i := by rw [← hs.mapped, ha, h0]; exact fun hne => hne rfl
      omega
    have hcount : withIndirect (fbn + 1) = withIndirect fbn + 1 := by grind [withIndirect]
    dsimp only
    rw [update_self]
    by_cases hb : g.freeblock < fssize
    · left
      obtain ⟨hc, hx, hadd⟩ := h.toCore.allocSlot hi hfbn.le
        (by rw [hv, dinode_addrs din hfbn.le, h0]) hb
      rw [setAddr_eq hv hfbn.le] at hc hx hadd
      have hne : ∀ bn, bn ≠ fbn → place i bn ≠ .slot i fbn :=
        fun bn hbn he => hbn (Fs.place_inj (he.trans hp.symm)).2
      have hself : addr wide (update v i (dinode { din with
          addrs := update din.addrs fbn g.freeblock })) g.sect (place i fbn) =
          g.freeblock := by
        rw [hadd, hp, update_self]
      refine ⟨h.grow hm' hc hx ?_ ?_ ?_ ?_, hself.symm, ?_, same_setAddr hfbn.le _, rfl, rfl, ?_⟩
      · intro p hpi
        rw [hadd, update_of_ne]
        rintro rfl
        exact hpi rfl
      · simp_all
      · rw [hself]
        rw [nmeta_eq] at hf
        omega
      · rw [hadd, update_of_ne (by simp only [ne_eq, Place.slot.injEq]; omega),
          hs.indirect, hm']
        omega
      · exact fits_setAddr hr (by rw [fssize_eq] at hf; omega)
      · grind
    · right
      exact ⟨by dsimp only; omega, h.len, by rw [hm', hcount]; omega⟩

theorem mapIndirect_spec (hfbn : ¬fbn < ndirect) (hmax : fbn < maxfile)
    (hm : m i = fbn ∨ m i = fbn + 1)
    (hE : fssize + withIndirect (m i) < g.freeblock + withIndirect (fbn + 1) → E .read) :
    Wp E (mapBlock din fbn) g (MapResult g v c m i fbn din) := by
  have hs := h.stored i hi
  have hf := h.freeblock
  have hj : fbn - ndirect < nindirect := by
    unfold maxfile at hmax
    omega
  have hp : place i fbn = .entry i (fbn - ndirect) := if_neg hfbn
  have hv' : (v i).addrs ndirect = din.addrs ndirect := by rw [hv, dinode_addrs din (Nat.le_refl _)]
  have hslot : addr wide v g.sect (.slot i ndirect) = (v i).addrs ndirect :=
    Fs.addr_slot hi (Nat.le_refl _)
  have hpos : g.freeblock ≠ 0 := by
    rw [nmeta_eq] at hf
    omega
  have hfits : g.freeblock < 2 ^ 32 := by
    rw [fssize_eq] at hf
    omega
  unfold mapBlock
  rw [if_neg hfbn]
  refine .bind (mapSlot_spec hf.2 (fun h0 => ?_) fun h0 => ?_)
  · -- the indirect block is there
    rw [← hv'] at h0
    have hlt := h.addr_lt (p := .slot i ndirect) (hslot ▸ h0)
    have ha : addr wide v g.sect (place i fbn) =
        (g.sect ((v i).addrs ndirect)).word (fbn - ndirect) := by
      rw [hp, Fs.addr_entry hi h0 hj]
    rw [← hv']
    rcases hm with hm | hm
    · have hw : (g.sect ((v i).addrs ndirect)).word (fbn - ndirect) = 0 := by
        rw [← ha]
        by_contra hne
        rw [← ne_eq, hs.mapped, hm] at hne
        exact absurd hne (Nat.lt_irrefl _)
      have hind := hs.indirect.mp (hslot ▸ h0)
      have hcount : withIndirect (fbn + 1) = withIndirect fbn + 1 := by grind [withIndirect]
      refine (mapWord_new h.toCore hi h0 hj hw).seq ?_
      rintro x g' ⟨rfl, hlen, hok⟩
      refine .pure ?_
      by_cases hb : g.freeblock < fssize
      · left
        obtain ⟨hc, hx, hadd, hview, hino, hfree⟩ := hok hb
        have e : update v i (dinode din) = v := by rw [← hv, update_eq_self]
        obtain ⟨hbuilt, hx_eq⟩ := h.growWord hm hfbn .refl (fun _ _ => rfl) (hslot ▸ h0) hc hx hadd
          hpos
        refine ⟨by rwa [e], by rwa [e], hr, .refl _, hview, hino, ?_⟩
        rw [hfree, hm, hcount]
        omega
      · right
        exact ⟨by dsimp only; omega, hlen, by rw [hm, hcount]; omega⟩
    · have hw : (g.sect ((v i).addrs ndirect)).word (fbn - ndirect) ≠ 0 := by
        rw [← ha, hs.mapped, hm]
        exact Nat.lt_succ_self _
      refine .bind (.bind (rsect_spec (by omega) (fun hl => ?_) fun _ => ?_))
      · rw [h.len] at hl
        omega
      · rw [if_neg hw]
        refine .pure (.pure (.inl ?_))
        rw [← ha]
        exact Mapping.of_mapped h hv hr hm
  · -- the indirect block is new, and so is the block
    have hm' : m i = fbn ∧ fbn = ndirect := by grind [hs.indirect, ndirect]
    obtain ⟨hm, rfl⟩ := hm'
    have hcount : withIndirect (ndirect + 1) = withIndirect ndirect + 2 := rfl
    dsimp only
    by_cases hb : g.freeblock < fssize
    · obtain ⟨hc1, hx1, ha1⟩ := h.toCore.allocSlot hi (Nat.le_refl _) (by rw [hv', h0]) hb
      have hv1 : v.setAddr i ndirect g.freeblock i = _ := Fs.View.setAddr_self
      have haddrs : (v.setAddr i ndirect g.freeblock i).addrs ndirect = g.freeblock := by simp_all
      have hw : (g.sect g.freeblock).word (ndirect - ndirect) = 0 := by
        rw [h.zero _ (Nat.le_refl _) hb]
        rfl
      have hword := mapWord_new (E := E) hc1 (Fs.live_setAddr.mpr hi) (by rwa [haddrs]) hj
        (by rwa [haddrs])
      rw [haddrs] at hword
      refine hword.seq ?_
      rintro x g' ⟨rfl, hlen, hok⟩
      refine .pure ?_
      by_cases hb' : g.freeblock + 1 < fssize
      · left
        obtain ⟨hc, hx, hadd, hview, hino, hfree⟩ := hok hb'
        obtain ⟨hbuilt, hx_eq⟩ := h.growWord hm hfbn
          hx1 (fun p hp => by rw [ha1, update_of_ne hp])
          (by rw [ha1, update_self]; exact hpos) hc hx hadd (Nat.succ_ne_zero _)
        rw [setAddr_eq hv (Nat.le_refl _)] at hbuilt hx_eq
        refine ⟨hbuilt, hx_eq, fits_setAddr hr hfits, same_setAddr (Nat.le_refl _) _, hview, hino,
          ?_⟩
        rw [hfree, hm, hcount]
        show g.freeblock + 1 + 1 + _ = _
        omega
      · right
        refine ⟨?_, hlen, by rw [hm, hcount]; omega⟩
        show g.freeblock + 1 = fssize
        omega
    · grind [h.len, mapWord, Wp.bind, rsect_spec]

theorem mapBlock_spec (hmax : fbn < maxfile) (hm : m i = fbn ∨ m i = fbn + 1)
    (hE : fssize + withIndirect (m i) < g.freeblock + withIndirect (fbn + 1) → E .read) :
    Wp E (mapBlock din fbn) g (MapResult g v c m i fbn din) := by
  by_cases hfbn : fbn < ndirect
  · exact mapDirect_spec h hi hv hr hfbn hm
  · exact mapIndirect_spec h hi hv hr hfbn hmax hm hE

end

/-! ## Writing a block -/

theorem Built.write (h : Built g v c m) (hi : wide.Live v i) (d : Block)
    (hm : c i / bsize < m i) (hn : c i % bsize + n ≤ bsize)
    (hx : x = addr wide v g.sect (place i (c i / bsize))) :
    Built (g.put x d) v (update c i (c i + n)) m := by
  have hs := h.stored i hi
  have h0 : addr wide v g.sect (place i (c i / bsize)) ≠ 0 := (hs.mapped _).mpr hm
  subst hx
  have haddr := Fs.addr_writePlace h.owned.placed h0 (d := d)
  refine ⟨h.toCore.write h0, ?_⟩
  intro j hj
  have hsj : Stored v (g.put _ d).sect j (m j) (c j) :=
    (h.stored j hj).of_eq fun p _ => congrFun haddr p
  by_cases hji : j = i
  · subst hji
    rw [update_self]
    refine ⟨hsj.mapped, hsj.indirect, ?_⟩
    have hdiv := Nat.div_add_mod (c j) bsize
    have hmul : (c j / bsize + 1) * bsize ≤ m j * bsize := Nat.mul_le_mul_right _ hm
    rw [Nat.add_mul, Nat.mul_comm, Nat.one_mul] at hmul
    omega
  · rwa [update_of_ne hji]

/-! ## The loop -/

def contentBlocks (n : Nat) : Nat := (n + (bsize - 1)) / bsize

theorem contentBlocks_mono {n n' : Nat} (h : n ≤ n') : contentBlocks n ≤ contentBlocks n' :=
  Nat.div_le_div_right (by omega)

theorem contentBlocks_pos (h : 0 < n) : 0 < contentBlocks n :=
  Nat.div_pos (by omega) Fs.bsize_pos

theorem contentBlocks_cases (n : Nat) :
    contentBlocks n = n / bsize ∨ contentBlocks n = n / bsize + 1 := by
  simp only [contentBlocks, bsize]
  omega

theorem contentBlocks_add {off : Nat} (h1 : 0 < n) (h2 : off % bsize + n ≤ bsize) :
    contentBlocks (off + n) = off / bsize + 1 := by
  simp only [contentBlocks, bsize] at *
  omega

/-- The image `g'` after the bytes `p` have been appended to inode `i`, which is not written. -/
structure Appended (g : Img) (v : View) (c : Nat → Nat) (m : Nat → Nat) (i : Nat)
    (din : RawInode) (p : List Byte) (r : RawInode × Nat) (g' : Img) : Prop where
  off : r.2 = c i + p.length
  built : Built g' (update v i (dinode r.1)) (update c i (c i + p.length))
    (update m i (contentBlocks (c i + p.length)))
  fits : r.1.Fits
  same : (dinode din).Same (dinode r.1)
  view : g'.view = g.view
  freeinode : g'.freeinode = g.freeinode
  freeblock : g'.freeblock + withIndirect (m i) =
    g.freeblock + withIndirect (contentBlocks (c i + p.length))

theorem Appended.nil (h : Built g v c m) (hv : v i = dinode din) (hr : din.Fits)
    (hm : m i = contentBlocks (c i)) : Appended g v c m i din [] (din, c i) g := by
  have hb : Built g (update v i (dinode din)) (update c i (c i + ([] : List Byte).length))
      (update m i (contentBlocks (c i + ([] : List Byte).length))) := by
    rw [← hv, List.length_nil, Nat.add_zero, ← hm, update_eq_self,
      update_eq_self, update_eq_self]
    exact h
  exact ⟨rfl, hb, hr, .refl _, rfl, rfl, by rw [List.length_nil, Nat.add_zero, hm]⟩

theorem Appended.cons {d : Block} {p : List Byte} {r : RawInode × Nat}
    (hmap : Mapping g v c m i fbn din din1 x g1) (hx : nmeta ≤ x) (hn : n ≤ p.length)
    (h : Appended (g1.put x d) (update v i (dinode din1))
      (update c i (c i + n)) (update m i (fbn + 1)) i din1 (p.drop n) r
      g') : Appended g v c m i din p r g' := by
  have hlen : c i + n + (p.drop n).length = c i + p.length := by grind
  have hoff := h.off
  have hbuilt := h.built
  have hfree := h.freeblock
  have hfree1 := hmap.freeblock
  simp only [update_self, update_idem, hlen] at hoff hbuilt hfree
  refine ⟨hoff, hbuilt, h.fits, hmap.same.trans h.same, ?_, ?_, ?_⟩
  · rw [h.view, view_put hx, hmap.view]
  · exact h.freeinode.trans hmap.freeinode
  · have hput : (g1.put x d).freeblock = g1.freeblock := rfl
    omega

theorem Mapping.live (h : Mapping g v c m i fbn din din1 x g1) (hi : wide.Live v i)
    (hv : v i = dinode din) : wide.Live (update v i (dinode din1)) i := by
  refine ⟨hi.1, hi.2.1, ?_⟩
  rw [update_self, h.same.1, ← hv]
  exact hi.2.2

theorem Mapping.inData (h : Mapping g v c m i fbn din din1 x g1) (hi : wide.Live v i)
    (hv : v i = dinode din) : nmeta ≤ x ∧ x < fssize := by
  have h0 := ((h.built.stored i (h.live hi hv)).mapped fbn).mpr (by
    rw [update_self]
    exact Nat.lt_succ_self _)
  rw [h.x_eq]
  exact data_iff.mp (h.built.owned.placed.mem _ h0)

theorem iappendLoop_spec (fuel : Nat) : ∀ {g : Img} {v : View} {c : Nat → Nat}
    {m : Nat → Nat} {din : RawInode} {p : List Byte}, Built g v c m → wide.Live v i →
    v i = dinode din → din.Fits → m i = contentBlocks (c i) → p.length ≤ fuel →
    (maxfile * bsize < c i + p.length → E .maxfile) →
    (fssize + withIndirect (m i) <
      g.freeblock + withIndirect (contentBlocks (c i + p.length)) → E .read) →
    Wp E (iappendLoop fuel din (c i) p) g (Appended g v c m i din p) := by
  induction fuel with
  | zero =>
    intro g v c m din p h hi hv hr hm hp _ _
    obtain rfl := List.length_eq_zero_iff.mp (Nat.le_zero.mp hp)
    exact .pure (.nil h hv hr hm)
  | succ _ ih =>
    intro g v c m din p h hi hv hr hm hp hmaxE hE
    unfold iappendLoop
    by_cases hpos : p.length > 0
    · rw [if_pos hpos]
      refine .ite (fun hmax => ?_) fun hmax => ?_
      · have hcb : c i / bsize + 1 ≤ contentBlocks (c i + p.length) := by
          have hmod := Nat.mod_lt (c i) Fs.bsize_pos
          rw [← contentBlocks_add (n := 1) (by decide) hmod]
          exact contentBlocks_mono (by omega)
        have hmono := withIndirect_mono hcb
        have hE' : fssize + withIndirect (m i) <
            g.freeblock + withIndirect (c i / bsize + 1) → E .read :=
          fun hlt => hE (by omega)
        refine (mapBlock_spec h hi hv hr hmax (hm ▸ contentBlocks_cases _) hE').seq ?_
        rintro ⟨din1, x⟩ g1 (hmap | ⟨hx, hlen, hfull⟩)
        · -- the bytes up to the end of the block are written
          obtain ⟨n, hn⟩ : ∃ n, n = min p.length
            ((c i / bsize + 1) * bsize - c i) := ⟨_, rfl⟩
          have hdiv := Nat.div_add_mod (c i) bsize
          have hmod := Nat.mod_lt (c i) Fs.bsize_pos
          rw [Nat.add_mul, Nat.one_mul, Nat.mul_comm] at hn
          have hsub : c i - bsize * (c i / bsize) = c i % bsize := by
            omega
          have hn1 : 0 < n := by omega
          have hn2 : c i % bsize + n ≤ bsize := by omega
          have hn3 : n ≤ p.length := by omega
          have hdata := hmap.inData hi hv
          have hlen := hmap.built.len
          refine .bind (rsect_spec hdata.2.le (fun hl => ?_) fun _ =>
            Wp.bind (wsect_spec hlen hdata.2 ?_))
          · omega
          · have hb := fun d => hmap.built.write (hmap.live hi hv) d
              (by rw [update_self]; exact Nat.lt_succ_self _) hn2 hmap.x_eq
            have hci : update c i (c i + n) i = c i + n := update_self ..
            have hplen : c i + n + (p.drop n).length = c i + p.length := by grind
            have hcnt := hmap.freeblock
            rw [Nat.add_mul, Nat.one_mul, Nat.mul_comm, ← hn, hsub]
            have hput : ∀ d, (g1.put x d).freeblock = g1.freeblock := fun _ => rfl
            have hrest := fun d => ih (hb d) (hmap.live hi hv) (update_self ..) hmap.fits
              (by rw [hci, update_self, contentBlocks_add hn1 hn2])
              (p := p.drop n) (by rw [List.length_drop]; omega) (by rwa [hci, hplen])
              (by
                rw [hci, hplen, update_self, hput]
                exact fun hf => hE (by omega))
            simp only [hci] at hrest
            exact (hrest _).mono fun r g2 => Appended.cons hmap hdata.1 hn3
        · -- there is no block left
          subst hx
          refine .bind (rsect_spec (Nat.le_refl _) (fun _ => hE' hfull) fun hl => ?_)
          rw [hlen] at hl
          exact absurd hl (Nat.lt_irrefl _)
      · refine .of_error rfl (hmaxE ?_)
        have := (Nat.le_div_iff_mul_le Fs.bsize_pos).mp (Nat.le_of_not_lt hmax)
        omega
    · obtain rfl := List.length_eq_zero_iff.mp (Nat.eq_zero_of_not_pos hpos)
      exact .pure (.nil h hv hr hm)

/-! ## Writing inodes -/

theorem Stored.le_maxfile (h : Stored v blk i k sz) : k ≤ maxfile := by
  by_contra hk
  have hne := (h.mapped maxfile).mpr (by omega)
  exact hne (if_neg fun hc => absurd hc.2.2 (by decide))

theorem Built.frame (h : Built g v c m) (h1 : 1 < b) (h2 : b < nmeta) (d : Block) :
    Built (g.put b d) v c m := by
  have hf := h.freeblock.1
  have hdata : ∀ b', wide.Data b' → (g.put b d).sect b' = g.sect b' := by
    intro b' hb'
    have := (data_iff.mp hb').1
    exact put_sect_of_ne d (by omega)
  have haddr := Fs.addr_congr_data h.owned.placed hdata
  refine ⟨{ h with sb := ?_, zero := ?_, owned := h.owned.congr_data hdata }, ?_⟩
  · rw [put_sect_of_ne d (by omega), h.sb]
  · intro b' hb' hlt
    have hfree : g.freeblock ≤ b' := hb'
    rw [put_sect_of_ne d (by omega)]
    exact h.zero b' hb' hlt
  · intro i hi
    have hs := h.stored i hi
    exact hs.of_eq fun p _ => congrFun haddr p

theorem Built.setMeta (h : Built g v c m) (hi : wide.Live v i) {d : Dinode}
    (ht : d.type = (v i).type) (ha : d.addrs = (v i).addrs)
    (hsize : d.size ≤ c i) : Built g (update v i d) c m := by
  have hs := h.stored i hi
  have haddr : addr wide (update v i d) g.sect = addr wide v g.sect := Fs.addr_meta ht ha
  have hfits := hs.fits
  have hmax : m i * bsize ≤ maxfile * bsize := Nat.mul_le_mul_right _ hs.le_maxfile
  have htype : ∀ j, (update v i d j).type = (v j).type := by grind
  refine ⟨{ h with owned := h.owned.setMeta ht ha fun _ => ?_, type := ?_ }, ?_⟩
  · refine ⟨by omega, ?_⟩
    intro bn hbn
    rw [hs.mapped]
    exact Nat.lt_of_mul_lt_mul_right (Nat.lt_of_lt_of_le hbn (by omega))
  · intro j h1 h2
    rw [htype]
    exact h.type j h1 h2
  · intro j hj
    have hj' : wide.Live v j := ⟨hj.1, hj.2.1, htype j ▸ hj.2.2⟩
    exact (h.stored j hj').of_eq fun p _ => congrFun haddr p

def blocksFor (n : Nat) : Nat := withIndirect (contentBlocks n)

theorem blocksFor_mono {n n' : Nat} (h : n ≤ n') : blocksFor n ≤ blocksFor n' :=
  withIndirect_mono (contentBlocks_mono h)

/-- An image whose inodes have been written, with the sizes `c`. -/
structure Good (g : Img) (c : Nat → Nat) : Prop where
  built : Built g g.view c fun i => contentBlocks (c i)
  size : ∀ i, wide.Live g.view i → (g.view i).size = c i

theorem iblock_bounds (hi : i < nrecords) : 1 < iblock i ∧ iblock i < nmeta := by
  rw [nrecords_eq] at hi
  rw [iblock_eq, nmeta_eq]
  omega

theorem iappend_spec (h : Good g c) (hi : wide.Live g.view i) {p : List Byte}
    (hmaxE : maxfile * bsize < c i + p.length → E .maxfile)
    (hE : fssize + blocksFor (c i) <
      g.freeblock + blocksFor (c i + p.length) → E .read) :
    Wp E (iappend i p) g fun _ g' =>
      Good g' (update c i (c i + p.length)) ∧ g'.freeinode = g.freeinode ∧
        g'.freeblock + blocksFor (c i) =
          g.freeblock + blocksFor (c i + p.length) := by
  refine .bind (rinode_spec h.built.len hi.2.1 fun r hr hri => ?_)
  have hsize : r.size = c i := by
    rw [← h.size i hi, ← hri]
    rfl
  rw [hsize]
  refine (iappendLoop_spec _ h.built hi hri.symm hr rfl (Nat.le_refl _) hmaxE hE).seq ?_
  rintro ⟨r', off⟩ g' ha
  obtain rfl : off = c i + p.length := ha.off
  have hb := ha.built
  have hself : update g.view i (dinode r') i = dinode r' := update_self ..
  have hi' : wide.Live (update g.view i (dinode r')) i := by
    refine ⟨hi.1, hi.2.1, ?_⟩
    rw [hself, ha.same.1, hri]
    exact hi.2.2
  have hr' : RawInode.Fits { r' with size := c i + p.length } := by
    have hs := hb.stored i hi'
    have hle := hs.fits
    have hmul : contentBlocks (c i + p.length) * bsize ≤ maxfile * bsize := by
      apply Nat.mul_le_mul_right
      simpa only [update_self] using hs.le_maxfile
    rw [update_self, update_self] at hle
    have hlt : c i + p.length < 2 ^ 32 := by
      simp only [maxfile, ndirect, nindirect, bsize] at hle hmul
      omega
    exact { ha.fits with size := hlt }
  refine winode_spec hb.len hi.2.1 hr' fun d hview => ⟨?_, ha.freeinode, ha.freeblock⟩
  have hd := dinode_setSize r' (c i + p.length)
  have hview' : (g'.put (iblock i) d).view = update (update g.view i (dinode r')) i
        (dinode { r' with size := c i + p.length }) := by
    rw [hview, ha.view, update_idem]
  have hbounds := iblock_bounds hi.2.1
  refine ⟨?_, ?_⟩
  · have hset := (hb.frame hbounds.1 hbounds.2 d).setMeta hi'
      (d := dinode { r' with size := c i + p.length }) (by rw [hself, hd])
      (by rw [hself, hd]) (by rw [hd, update_self])
    convert hset using 1
    funext j
    grind
  · intro j hj
    rw [hview, ha.view]
    by_cases hji : j = i
    · grind
    · rw [update_of_ne hji, update_of_ne hji]
      apply h.size
      refine ⟨hj.1, hj.2.1, ?_⟩
      have := hj.2.2
      rwa [hview, ha.view, update_of_ne hji] at this

end Xv6.Mkfs
