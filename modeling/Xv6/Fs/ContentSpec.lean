import Xv6.Fs.InodeSpec

/-!
# Content of inodes

`readi` and `writei` on the bytes of an inode.
-/

namespace Xv6.Fs

open ByteMem Multiset
open Function (update update_idem update_of_ne update_self)

variable {sb : Super} {E : Stop → Prop} {h : Multiset Ip} {s s' t : State} {ip : Ip}
  {off off' len tot n : Nat}

theorem bsize_pos : 0 < bsize := by decide

/-! ## readi -/

def Node.bytes (n : Node) (off m : Nat) : List Byte := (List.range m).map fun k => n.data (off + k)

theorem Node.bytes_add (n : Node) (off a b : Nat) :
    n.bytes off (a + b) = n.bytes off a ++ n.bytes (off + a) b := by
  simp [Node.bytes, List.range_add, Nat.add_assoc]

theorem div_add_of_lt {x k : Nat} (hk : x % bsize + k < bsize) : (x + k) / bsize = x / bsize := by
  have := Nat.div_add_mod x bsize
  rw [show x + k = bsize * (x / bsize) + (x % bsize + k) by omega,
    Nat.mul_add_div bsize_pos, Nat.div_eq_of_lt hk, Nat.add_zero]

theorem mod_add_of_lt {x k : Nat} (hk : x % bsize + k < bsize) :
    (x + k) % bsize = x % bsize + k := by
  have := Nat.div_add_mod x bsize
  rw [show x + k = bsize * (x / bsize) + (x % bsize + k) by omega, Nat.mul_add_mod,
    Nat.mod_eq_of_lt hk]

theorem block_bytes {v : View} {blk : Nat → Block} {i m : Nat} (hi : sb.Live v i)
    (hm : off % bsize + m ≤ bsize) (hsize : off + m ≤ (v i).size) :
    (blk (addr sb v blk (place i (off / bsize)))).bytes (off % bsize) m =
      (node sb v blk i).bytes off m := by
  rw [node_live hi]
  apply List.map_congr_left
  intro k hk
  have hk := List.mem_range.mp hk
  have hlt : off % bsize + k < bsize := by omega
  have hx : off + k < (v i).size := by omega
  simp only [if_pos hx, raw, div_add_of_lt hlt, mod_add_of_lt hlt]

theorem readLoop_view {v : View} {bm : Nat → Bool} {i : Nat} (ho : Owned sb bm v s.block)
    (hi : sb.Live v i) (ha : (v i).addrs = (s.inode ip).addrs) (ok : Nat → Nat → Bool)
    (hsize : off + n ≤ (v i).size) (fuel : Nat) :
    ∀ tot, n - tot ≤ fuel → tot ≤ n →
      Wp E (readLoop sb ip ok n fuel tot (off + tot) ((node sb v s.block i).bytes off tot)) s
        fun r s' => s' = s ∧ (r = ((n : Int), (node sb v s.block i).bytes off n) ∨
          r.1 = -1 ∧ ∃ k m, ok k m = false ∧ r.2 = (node sb v s.block i).bytes off k) := by
  induction fuel with
  | zero =>
    intro tot hfuel htot
    obtain rfl : tot = n := by omega
    exact .pure ⟨rfl, .inl rfl⟩
  | succ _ ih =>
    intro tot hfuel htot
    unfold readLoop
    by_cases hlt : tot < n
    · rw [if_pos hlt]
      have hne := ho.mapped_div hi (x := off + tot) (by omega)
      refine .bind (bmap_addr ho.placed hi ha hne ?_)
      rw [if_neg hne]
      refine .bind (bread_spec (ho.placed.mem _ hne) ?_)
      have hmod := Nat.mod_lt (off + tot) bsize_pos
      have hbytes : (s.block (addr sb v s.block (place i ((off + tot) / bsize)))).bytes
          ((off + tot) % bsize) (min (n - tot) (bsize - (off + tot) % bsize)) = _ :=
        block_bytes hi (by omega) (by omega)
      dsimp only
      rw [hbytes, ← Node.bytes_add]
      split
      · grind
      · grind [Wp.pure]
    · grind [Wp.pure]

theorem readLoop_spec (hs : Ok sb h s) (hip : ip ∈ h) (hv : (s.inode ip).valid = true)
    (ok : Nat → Nat → Bool) (hsize : off + n ≤ (s.inode ip).size) :
    Wp E (readLoop sb ip ok n n 0 off []) s fun r s' =>
      s' = s ∧ (r = ((n : Int), (nodes sb s (s.inode ip).inum).bytes off n) ∨
        r.1 = -1 ∧ ∃ k m, ok k m = false ∧ r.2 = (nodes sb s (s.inode ip).inum).bytes off k) := by
  have hc := (hs.clean ip hip hv).1
  exact readLoop_view hs.owned (hs.live hip hv) (congrArg Dinode.addrs hc).symm ok
    (by rwa [← hc]) n 0 (by omega) (by omega)

def Node.readLen (n : Node) (off len : Nat) : Nat :=
  if off > n.size ∨ (off + len) % 2 ^ 32 < off then 0 else min len (n.size - off)

theorem readi_spec (hs : Ok sb h s) (hip : ip ∈ h) (hv : (s.inode ip).valid = true)
    (ok : Nat → Nat → Bool) :
    Wp E (readi sb ip ok off len) s fun r s' =>
      let node := nodes sb s (s.inode ip).inum
      s' = s ∧ (r = ((node.readLen off len : Int), node.bytes off (node.readLen off len)) ∨
        r.1 = -1 ∧ ∃ k m, ok k m = false ∧ r.2 = node.bytes off k) := by
  have hn := (hs.node_eq hip hv).2.2.1
  unfold readi
  refine .bind (.get ?_)
  simp only [Node.readLen, hn]
  by_cases h0 : off > (s.inode ip).size ∨ (off + len) % 2 ^ 32 < off
  · rw [if_pos h0, if_pos h0]
    exact .pure ⟨rfl, .inl rfl⟩
  · rw [if_neg h0, if_neg h0]
    rw [not_or] at h0
    by_cases h1 : off + len > (s.inode ip).size
    · rw [if_pos h1, Nat.min_eq_right (by omega)]
      exact readLoop_spec hs hip hv ok (by omega)
    · rw [if_neg h1, Nat.min_eq_left (by omega)]
      exact readLoop_spec hs hip hv ok (by omega)

/-! ## writei -/

variable {src : Nat → Option Byte} {w c : Nat}

theorem copied_le (src : Nat → Option Byte) (tot m : Nat) : copied src tot m ≤ m := by
  unfold copied
  cases hf : (List.range m).find? fun i => (src (tot + i)).isNone with
  | none => exact Nat.le_refl m
  | some => exact Nat.le_of_lt (List.mem_range.mp (List.mem_of_find?_eq_some hf))

theorem copied_eq {tot m : Nat} (hsrc : ∀ i, i < m → (src (tot + i)).isSome) :
    copied src tot m = m := by
  have hf : ((List.range m).find? fun i => (src (tot + i)).isNone) = none := by
    rw [List.find?_eq_none]
    intro i hi
    simpa using Option.isSome_iff_ne_none.mp (hsrc i (List.mem_range.mp hi))
  rw [copied, hf, Option.getD_none]

/-- State `t` after the bytes `[off, off + w)` of an inode have been written from `s` on. -/
structure Wrote (sb : Super) (ip : Ip) (src : Nat → Option Byte) (off w : Nat) (s t : State) :
    Prop where
  owns : Owns sb ip t
  only : OnlyAddrs ip s t
  same : ∀ i, (view ip s i).Same (view ip t i)
  addr_eq : ∀ p, addr sb (view ip s) s.block p ≠ 0 →
    addr sb (view ip t) t.block p = addr sb (view ip s) s.block p
  raw_eq : ∀ i x, addr sb (view ip s) s.block (place i (x / bsize)) ≠ 0 →
    ¬(i = (s.inode ip).inum ∧ off ≤ x ∧ x < off + w) →
    raw sb (view ip t) t.block i x = raw sb (view ip s) s.block i x
  written : ∀ x, off ≤ x → x < off + w → t.addrOf sb ip (x / bsize) ≠ 0 ∧
    raw sb (view ip t) t.block (s.inode ip).inum x = (src (x - off)).getD 0

theorem Wrote.start (hs : Owns sb ip s) : Wrote sb ip src off 0 s s :=
  ⟨hs, .refl, fun _ => .refl _, fun _ _ => rfl, fun _ _ _ _ => rfl, fun _ _ _ => by omega⟩

theorem Wrote.grow (hw : Wrote sb ip src off w s t) (hg : Grown sb ip t s') :
    Wrote sb ip src off w s s' := by
  have hx := hg.ext
  refine ⟨hg.owns, hw.only.trans hg.only, ?_, ?_, ?_, ?_⟩
  · intro i
    exact (hw.same i).trans (hx.same i)
  · intro p hp
    have e := hw.addr_eq p hp
    rw [hx.addr_eq p (e ▸ hp), e]
  · intro i x hp hn
    rw [hx.raw_eq i x (hw.addr_eq _ hp ▸ hp), hw.raw_eq i x hp hn]
  · intro x h1 h2
    obtain ⟨ha, hr⟩ := hw.written x h1 h2
    have e : s'.addrOf sb ip (x / bsize) = t.addrOf sb ip (x / bsize) := by
      rw [State.addrOf, hg.only.inum]
      exact hx.addr_eq _ ha
    refine ⟨e ▸ ha, ?_⟩
    rw [hx.raw_eq, hr]
    rw [← hw.only.inum]
    exact ha

theorem mod_mem_iff {x y : Nat} (hxy : x / bsize = y / bsize) :
    (y % bsize ≤ x % bsize ∧ x % bsize < y % bsize + c) ↔ y ≤ x ∧ x < y + c := by
  have hx := Nat.div_add_mod x bsize
  have hy := Nat.div_add_mod y bsize
  rw [hxy] at hx
  omega

theorem Wrote.write (hw : Wrote sb ip src off w s t)
    (ha : t.addrOf sb ip ((off + w) / bsize) ≠ 0) (hc : (off + w) % bsize + c ≤ bsize) :
    Wrote sb ip src off (w + c) s
      { t with
        block := update t.block (t.addrOf sb ip ((off + w) / bsize))
          ((t.block (t.addrOf sb ip ((off + w) / bsize))).fill src w ((off + w) % bsize) c) } := by
  have hinum := hw.only.inum
  have hp := hw.owns.1.placed
  have haddr : ∀ d, addr sb (view ip t)
      (update t.block (t.addrOf sb ip ((off + w) / bsize)) d) =
      addr sb (view ip t) t.block := fun d => addr_writePlace hp ha
  -- the bytes of the block that is written
  have hraw : ∀ i x, raw sb (view ip t)
      (update t.block (t.addrOf sb ip ((off + w) / bsize))
        ((t.block (t.addrOf sb ip ((off + w) / bsize))).fill src w ((off + w) % bsize) c)) i x =
      if i = (s.inode ip).inum ∧ off + w ≤ x ∧ x < off + w + c then (src (x - off)).getD 0
      else raw sb (view ip t) t.block i x := by
    intro i x
    have hr := raw_writePlace (d := (t.block (t.addrOf sb ip ((off + w) / bsize))).fill src w
      ((off + w) % bsize) c) hp ha i x
    rw [← hinum]
    refine hr.trans ?_
    by_cases hi : i = (t.inode ip).inum ∧ x / bsize = (off + w) / bsize
    · have hm := mod_mem_iff (c := c) hi.2
      rw [if_pos hi, Block.fill]
      by_cases hin : off + w ≤ x ∧ x < off + w + c
      · have hx := Nat.div_add_mod x bsize
        have hy := Nat.div_add_mod (off + w) bsize
        rw [hi.2] at hx
        rw [if_pos (hm.mpr hin), if_pos ⟨hi.1, hin⟩]
        congr 2
        omega
      · rw [if_neg fun h => hin (hm.mp h), if_neg fun h => hin h.2, raw, hi.1, hi.2]
        rfl
    · rw [if_neg hi, if_neg]
      rintro ⟨h1, h2, h3⟩
      refine hi ⟨h1, ?_⟩
      have e := div_add_of_lt (x := off + w) (k := x - (off + w)) (by omega)
      rwa [show off + w + (x - (off + w)) = x by omega] at e
  refine ⟨⟨hw.owns.1.write ha, hw.owns.2⟩, ⟨hw.only.dinode, hw.only.inode⟩, hw.same, ?_, ?_, ?_⟩
  · intro p hp
    exact (congrFun (haddr _) p).trans (hw.addr_eq p hp)
  · intro i x hp hn
    refine (hraw i x).trans ?_
    rw [if_neg (by omega)]
    exact hw.raw_eq i x hp (by omega)
  · intro x h1 h2
    refine ⟨?_, (hraw _ x).trans ?_⟩
    · refine (congrFun (haddr _) _).trans_ne ?_
      by_cases hx : x < off + w
      · exact (hw.written x h1 hx).1
      · have e := div_add_of_lt (x := off + w) (k := x - (off + w)) (by omega)
        rw [show off + w + (x - (off + w)) = x by omega] at e
        rw [e]
        exact ha
    · by_cases hx : x < off + w
      · rw [if_neg (by omega)]
        exact (hw.written x h1 hx).2
      · rw [if_pos ⟨rfl, by omega, by omega⟩]

/-- How the loop of `writei` ends: `tot` is returned, and the bytes up to `off + w` are written,
more than `tot` where the source cannot be read. -/
structure WriteEnd (sb : Super) (ip : Ip) (src : Nat → Option Byte) (off n tot : Nat)
    (s t : State) : Prop where
  wrote : ∃ w, tot ≤ w ∧ w ≤ n ∧ Wrote sb ip src off w s t ∧
    ((∀ j, j < n → (src j).isSome) → w = tot)
  /-- without a bad source the disk is full -/
  full : tot < n → (∀ j, j < n → (src j).isSome) →
    (s.inode ip).size ≤ off + tot ∧ ∀ b, b < sb.size → t.bitmap b = true
  aligned : tot = n ∨ tot = 0 ∨ (off + tot) % bsize = 0
  /-- something is written if there is a block for it -/
  obtains : 0 < n → (∀ j, j < n → (src j).isSome) → (0 < tot ↔ s.Obtains sb ip (off / bsize))

theorem copyChunk_spec {m : Nat} (hw : Wrote sb ip src off tot s t)
    (ha : t.addrOf sb ip ((off + tot) / bsize) ≠ 0) (hm : (off + tot) % bsize + m ≤ bsize) :
    Wp E (copyChunk sb src (t.addrOf sb ip ((off + tot) / bsize)) tot (off + tot) m) t
      fun r t' => ∃ c, c ≤ m ∧ Wrote sb ip src off (tot + c) s t' ∧ (r = true → c = m) ∧
        (r = false → ¬∀ i, i < m → (src (tot + i)).isSome) := by
  have hdata := hw.owns.data_addrOf ha
  have hle := copied_le src tot m
  refine .bind (bread_spec hdata (.bind (bwrite_spec hdata (.pure ?_))))
  refine ⟨copied src tot m, hle, hw.write ha (by omega), ?_, ?_⟩
  · exact of_decide_eq_true
  · intro hf hsrc
    exact of_decide_eq_false hf (copied_eq hsrc)

theorem writeLoop_spec (hs : Owns sb ip s) (hn : off + n ≤ maxfile * bsize) (fuel : Nat) :
    ∀ tot t, n - tot ≤ fuel → tot ≤ n → Wrote sb ip src off tot s t →
      (tot = n ∨ tot = 0 ∨ (off + tot) % bsize = 0) →
      (tot = 0 ∧ t = s ∨ 0 < tot ∧ s.Obtains sb ip (off / bsize)) →
      Wp E (writeLoop sb ip src n fuel tot (off + tot)) t fun r t' =>
        r.2 = off + r.1 ∧ r.1 ≤ n ∧ WriteEnd sb ip src off n r.1 s t' := by
  have hdone : ∀ t, Wrote sb ip src off n s t →
      (n = 0 ∧ t = s ∨ 0 < n ∧ s.Obtains sb ip (off / bsize)) → WriteEnd sb ip src off n n s t := by
    intro t hw hob
    refine ⟨⟨n, by omega, by omega, hw, fun _ => rfl⟩, by omega, .inl rfl, fun hpos _ => ?_⟩
    exact iff_of_true hpos (hob.resolve_left fun h => absurd h.1 (Nat.ne_of_gt hpos)).2
  induction fuel with
  | zero =>
    intro tot t hfuel htot hw hal hob
    obtain rfl : tot = n := by omega
    exact .pure ⟨rfl, by omega, hdone t hw hob⟩
  | succ fuel ih =>
    intro tot t hfuel htot hw hal hob
    unfold writeLoop
    by_cases hlt : tot < n
    · rw [if_pos hlt]
      have hbn : (off + tot) / bsize < maxfile := Nat.div_lt_of_lt_mul (by rw [Nat.mul_comm]; omega)
      have hmod := Nat.mod_lt (off + tot) bsize_pos
      -- from where `bmap` has found the block
      have hchunk : ∀ t', Wrote sb ip src off tot s t' → t'.addrOf sb ip ((off + tot) / bsize) ≠ 0 →
          t.Obtains sb ip ((off + tot) / bsize) →
          let m := min (n - tot) (bsize - (off + tot) % bsize)
          Wp E (copyChunk sb src (t'.addrOf sb ip ((off + tot) / bsize)) tot (off + tot) m >>=
            fun r => if r then writeLoop sb ip src n fuel (tot + m) (off + tot + m)
              else pure (tot, off + tot)) t' fun r t' =>
            r.2 = off + r.1 ∧ r.1 ≤ n ∧ WriteEnd sb ip src off n r.1 s t' := by
        intro t' hw' ha hobt m
        have hobs : s.Obtains sb ip (off / bsize) := by
          rcases hob with ⟨rfl, rfl⟩ | hob
          · exact hobt
          · exact hob.2
        refine (copyChunk_spec hw' ha (by omega)).seq ?_
        rintro r t'' ⟨c, hcm, hw'', hok, hbad⟩
        cases r with
        | true =>
          obtain rfl := hok rfl
          rw [if_pos rfl, Nat.add_assoc]
          refine ih _ _ (by omega) (by omega) hw'' ?_ (.inr ⟨by omega, hobs⟩)
          by_cases hm : m = n - tot
          · exact .inl (by omega)
          · grind [bsize, Nat.mul_mod_right]
        | false =>
          have hread : ¬∀ j, j < n → (src j).isSome :=
            fun hsrc => hbad rfl fun i hi => hsrc (tot + i) (by omega)
          exact .pure ⟨rfl, htot, ⟨_, by omega, by omega, hw'', fun h => absurd h hread⟩,
            fun _ h => absurd h hread, hal, fun _ h => absurd h hread⟩
      by_cases ha : t.addrOf sb ip ((off + tot) / bsize) = 0
      · refine (bmap_spec hw.owns hbn).seq ?_
        rintro a t' ⟨hg, hfull, ha'⟩
        refine .ite (fun h0 => ?_) fun h0 => ?_
        · have hsize : (s.inode ip).size ≤ off + tot := by
            by_contra hsz
            have hne := hs.1.mapped_div hs.2 (x := off + tot) (by rw [view_self]; omega)
            have e := hw.addr_eq _ hne
            rw [← hw.only.inum] at hne e
            exact hne (e ▸ ha)
          refine .pure ⟨rfl, htot, ⟨tot, by omega, htot, hw.grow hg, fun _ => rfl⟩,
            fun _ _ => ⟨hsize, (hfull h0).1⟩, hal, fun _ _ => ?_⟩
          rcases hob with ⟨rfl, rfl⟩ | hob
          · exact iff_of_false (Nat.lt_irrefl 0) (hfull h0).2
          · exact iff_of_true hob.1 hob.2
        · obtain ⟨rfl, hobt⟩ := ha' h0
          exact hchunk t' (hw.grow hg) h0 hobt
      · refine .bind (bmap_mapped hw.owns ha ?_)
        rw [if_neg ha]
        exact hchunk t hw ha (.inl ha)
    · obtain rfl : tot = n := by omega
      rw [if_neg hlt]
      exact .pure ⟨rfl, htot, hdone t hw hob⟩

/-- An inode after a write at `off`: the first `w` bytes of the source are there, and `size` is at
least `off + tot`. -/
def Node.write (n : Node) (src : Nat → Byte) (off tot w : Nat) : Node :=
  { n with
    size := max n.size (off + tot)
    data := fun x =>
      if x < max n.size (off + tot) then
        if off ≤ x ∧ x < off + w then src (x - off) else n.data x
      else 0 }

theorem Node.write_zero {n : Node} {src : Nat → Byte} (hz : ∀ x, n.size ≤ x → n.data x = 0)
    (hoff : off ≤ n.size) : n.write src off 0 0 = n := by
  have hmax : max n.size (off + 0) = n.size := by omega
  have hdata : (fun x => if x < n.size then
      if off ≤ x ∧ x < off + 0 then src (x - off) else n.data x else 0) = n.data := by grind
  simp only [Node.write, hmax, hdata]

theorem Wrote.node_eq (hs : Ok sb h s) (hip : ip ∈ h) (hv : (s.inode ip).valid = true)
    (hw : Wrote sb ip src off w s t) (hoff : off ≤ (s.inode ip).size) (htw : tot ≤ w)
    (d : Dinode)
    (hd : d = { (t.inode ip).toDinode with size := max (s.inode ip).size (off + tot) }) :
    node sb (update s.dinode (s.inode ip).inum d) t.block = update (nodes sb s) (s.inode ip).inum
        ((nodes sb s (s.inode ip).inum).write (fun j => (src j).getD 0) off tot w) := by
  have hl := hs.live hip hv
  have hc := (hs.clean ip hip hv).1
  have hself : update s.dinode (s.inode ip).inum d (s.inode ip).inum = d := update_self ..
  have hsv : view ip s = s.dinode := view_of_clean hc
  have htv : view ip t = update s.dinode (s.inode ip).inum (t.inode ip).toDinode := by
    rw [view, hw.only.dinode, hw.only.inum]
  have hti : view ip t (s.inode ip).inum = (t.inode ip).toDinode := by rw [htv, update_self]
  have hraw : ∀ i x, raw sb (update s.dinode (s.inode ip).inum d) t.block i x =
      raw sb (view ip t) t.block i x := by
    intro i x
    have hupd : update s.dinode (s.inode ip).inum d = update (view ip t) (s.inode ip).inum d := by
      rw [htv, update_idem]
    rw [hupd, raw, raw, addr_meta (by rw [hti, hd]) (by rw [hti, hd])]
  have hraw_eq := hw.raw_eq
  rw [hsv] at hraw_eq
  funext i
  by_cases hi : i = (s.inode ip).inum
  · subst hi
    have hsame := hw.same (s.inode ip).inum
    rw [hti, hsv] at hsame
    have htype : d.type = (s.dinode (s.inode ip).inum).type := by rw [hd]; exact hsame.1
    have hmajor : d.major = (s.dinode (s.inode ip).inum).major := by rw [hd]; exact hsame.2.1
    have hminor : d.minor = (s.dinode (s.inode ip).inum).minor := by rw [hd]; exact hsame.2.2.1
    have hnlink : d.nlink = (s.dinode (s.inode ip).inum).nlink := by
      rw [hd]
      exact hsame.2.2.2.1
    have hsize : d.size = max (s.dinode (s.inode ip).inum).size (off + tot) := by rw [hd, ← hc]
    have hl' : sb.Live (update s.dinode (s.inode ip).inum d) (s.inode ip).inum := by
      simpa only [Super.Live, hself, htype] using hl
    rw [update_self, node_live hl', nodes, node_live hl, Node.write]
    simp only [hself, htype, hmajor, hminor, hnlink, hsize, hraw]
    congr 1
    funext x
    split
    · next hx =>
      split
      · next hin => exact (hw.written x hin.1 hin.2).2
      · next hin =>
        rw [hc] at hoff
        have hlt : x < (s.dinode (s.inode ip).inum).size := by omega
        rw [if_pos hlt]
        exact hraw_eq _ x (hs.owned.mapped_div hl hlt) fun h => hin h.2
    · rfl
  · rw [update_of_ne hi]
    apply node_congr
    · rw [update_of_ne hi]
      exact .refl _
    · intro hl x hx
      rw [hraw]
      exact hraw_eq i x (hs.owned.mapped_div hl hx) fun h => hi h.1

theorem Wrote.mapped (hs : Owns sb ip s) (hw : Wrote sb ip src off w s t)
    (hoff : off ≤ (s.inode ip).size) (htw : tot ≤ w) (hmax : off + tot ≤ maxfile * bsize) :
    Mapped sb (view ip t) t.block (s.inode ip).inum (max (s.inode ip).size (off + tot)) := by
  have hsize := hs.1.size_le _ hs.2
  rw [view_self] at hsize
  refine ⟨by omega, ?_⟩
  intro bn hbn
  by_cases hlt : bn * bsize < (s.inode ip).size
  · have hm := hs.1.mapped _ hs.2 bn (by rwa [view_self])
    rwa [hw.addr_eq _ hm]
  · have hx := (hw.written (bn * bsize) (by omega) (by omega)).1
    rwa [Nat.mul_div_cancel _ bsize_pos, State.addrOf, hw.only.inum] at hx

def Node.BadRange (n : Node) (off len : Nat) : Prop :=
  off > n.size ∨ (off + len) % 2 ^ 32 < off ∨ off + len > maxfile * bsize

/-- The effect of `writei` on inode `i`: `tot` bytes are written, or more where the source cannot
be read. -/
structure Writes (sb : Super) (h : Multiset Ip) (i : Nat) (src : Nat → Option Byte)
    (off n tot : Nat) (s s' : State) : Prop where
  le : off + n ≤ maxfile * bsize
  ok : Ok sb h s'
  keeps : Keeps h s s'
  nodes_eq : ∃ w, tot ≤ w ∧ w ≤ n ∧ nodes sb s' = update (nodes sb s) i
    ((nodes sb s i).write (fun j => (src j).getD 0) off tot w) ∧
    ((∀ j, j < n → (src j).isSome) → w = tot)
  /-- without a bad source the disk is full -/
  full : tot < n → (∀ j, j < n → (src j).isSome) →
    (nodes sb s i).size ≤ off + tot ∧ ∀ b, b < sb.size → s'.bitmap b = true
  aligned : tot = n ∨ tot = 0 ∨ (off + tot) % bsize = 0
  /-- something is written if there is a block for it -/
  obtains : 0 < n → (∀ j, j < n → (src j).isSome) →
    (0 < tot ↔ Obtains sb s.bitmap s.dinode s.block i (off / bsize))

theorem writei_spec (hs : Ok sb h s) (hip : ip ∈ h) (hv : (s.inode ip).valid = true) :
    Wp E (writei sb ip src off n) s fun r s' =>
      (nodes sb s (s.inode ip).inum).BadRange off n ∧ r = -1 ∧ s' = s ∨
      ∃ tot : Nat, r = tot ∧ tot ≤ n ∧ Writes sb h (s.inode ip).inum src off n tot s s' := by
  obtain ⟨hc, ht⟩ := hs.clean ip hip hv
  have hsize := (hs.node_eq hip hv).2.2.1
  have howns := hs.owns hip hv
  refine .bind (.get ?_)
  by_cases h0 : off > (s.inode ip).size ∨ (off + n) % 2 ^ 32 < off
  · grind [Wp.pure, Node.BadRange]
  by_cases h1 : off + n > maxfile * bsize
  · rw [if_neg h0, if_pos h1]
    exact .pure (.inl ⟨.inr (.inr h1), rfl, rfl⟩)
  rw [if_neg h0, if_neg h1]
  refine (writeLoop_spec howns (by omega) n 0 s (by omega) (by omega) (.start howns)
    (.inr (.inl rfl)) (.inl ⟨rfl, rfl⟩)).seq ?_
  rintro ⟨tot, off'⟩ t ⟨hoff', htot, ⟨w, htw, hwn, hw, hall⟩, hfull, hal, hob⟩
  obtain rfl : off' = off + tot := hoff'
  have hoff : off ≤ (s.inode ip).size := by omega
  obtain ⟨a, ha⟩ := hw.only.inode
  have hd : ({ t.inode ip with size := max (t.inode ip).size (off + tot) } : Inode).toDinode =
      { (t.inode ip).toDinode with size := max (s.inode ip).size (off + tot) } := by
    simp [ha]
  have hti : view ip t (s.inode ip).inum = (t.inode ip).toDinode := by
    rw [← hw.only.inum, view_self]
  refine .bind (isave_spec rfl (hw.only.inum ▸ (hs.inum ip hip).2) ?_)
  generalize hD : ({ (t.inode ip).toDinode with
    size := max (s.inode ip).size (off + tot) } : Dinode) = D at *
  have ho : Owned sb t.bitmap (update s.dinode (s.inode ip).inum D) t.block := by
    have ho := hw.owns.1.setMeta (i := (s.inode ip).inum) (d := D) (by rw [hti, ← hD])
      (by rw [hti, ← hD]) fun _ => by
        rw [← hD]
        exact hw.mapped howns hoff htw (by omega)
    rwa [view, hw.only.inum, hw.only.dinode, update_idem] at ho
  have htype : D.type = (s.inode ip).type := by
    rw [← hD]
    simp [ha]
  have hok := hs.save hip hv (htype ▸ ht) ho
  have hst : ({ t with
      inode := update t.inode ip
        { t.inode ip with size := max (t.inode ip).size (off + tot) }
      dinode := update t.dinode (t.inode ip).inum
        ({ t.inode ip with size := max (t.inode ip).size (off + tot) } : Inode).toDinode } : State)
      = { s.saved ip D with bitmap := t.bitmap, block := t.block } := by
    rw [hd, hw.only.inum, hw.only.dinode]
    simp [State.saved, ha, ← hD]
  refine (congrArg (fun u => Wp E _ u _) hst).mpr ?_
  refine .pure (.inr ⟨tot, rfl, htot, by omega, hok, keeps_saved htype (htype ▸ ht),
    ⟨w, htw, hwn, ?_, hall⟩, ?_, hal, ?_⟩)
  · exact hw.node_eq hs hip hv hoff htw D hD.symm
  · rw [hsize]
    exact hfull
  · rw [← view_of_clean hc]
    exact hob

end Xv6.Fs
