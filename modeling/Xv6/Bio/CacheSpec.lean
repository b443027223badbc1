import Xv6.Bio.Structure
import Mathlib.Data.Finset.Basic

/-!
# What the buffer cache does

A buffer that the log has not pinned is a copy of its block on disk. This holds while buffers are
held, so that each function of `kernel/bio.c` and `log_write` have a specification in these terms.
-/

namespace Xv6.Bio

open Fs (Block)
open Function (update update_apply update_idem update_of_ne update_self)

variable {s s' : State} {b r : Bp} {n : Nat} {h : Finset Bp} {P : List Nat} {d : Block}
variable {α : Type} {Q : α → State → Prop} {k : M α} {f : Bp → M α} {J : State → Prop} {l : Log}

def anyStop : Stop → Prop := fun _ => True

def refs (h : Finset Bp) (P : List Nat) (s : State) (b : Bp) : Nat :=
  (if b ∈ h then 1 else 0) +
    if (s.buf b).dev = rootdev ∧ (s.buf b).blockno ∈ P then 1 else 0

/-- The cache while the buffers `h` are held and the blocks `P` are pinned. -/
structure Coh (h : Finset Bp) (P : List Nat) (s : State) : Prop where
  shape : Shape s
  dev : ∀ b, (s.buf b).valid = true → (s.buf b).dev = rootdev
  locked : ∀ b, (s.buf b).locked = true ↔ b ∈ h
  refcnt : ∀ b, (s.buf b).refcnt = BitVec.ofNat 32 (refs h P s b)
  clean : ∀ b, (s.buf b).valid = true → (s.buf b).blockno ∉ P →
    (s.buf b).data = s.disk (s.buf b).blockno
  held : ∀ b ∈ h, (s.buf b).valid = true
  pinned : ∀ n ∈ P, ∃ b, (s.buf b).valid = true ∧ (s.buf b).blockno = n
  nodup : P.Nodup

theorem refs_le : refs h P s b ≤ 2 := by
  unfold refs
  split <;> split <;> omega

section

variable (hc : Coh h P s)

include hc

theorem Coh.unused (hr : (s.buf b).refcnt = 0) : refs h P s b = 0 := by
  have h0 := congrArg BitVec.toNat ((hc.refcnt b).symm.trans hr)
  have hle : refs h P s b ≤ 2 := refs_le
  have h0 : refs h P s b % 2 ^ 32 = 0 := h0
  omega

theorem Coh.unique {b' : Bp} (hd : (s.buf b).dev = rootdev)
    (hd' : (s.buf b').dev = rootdev) (hb : (s.buf b').blockno = (s.buf b).blockno) : b' = b :=
  hc.shape.unique b b' (by rw [hd]; decide) (hd'.trans hd.symm) hb

theorem Coh.setLog (log : Log) (sb : Superblock) : Coh h P { s with log := log, sb := sb } :=
  { hc with shape := ⟨hc.shape.ring, hc.shape.unique⟩ }

/-! ## Buffers -/

theorem Coh.change {h' : Finset Bp} {P' : List Nat} (s' : State) (b : Bp) (x : Buf)
    (hshape : Shape { s' with buf := update s.buf b x })
    (hh : ∀ b', b' ≠ b → (b' ∈ h' ↔ b' ∈ h))
    (hP : ∀ b', b' ≠ b → (s.buf b').dev = rootdev →
      ((s.buf b').blockno ∈ P' ↔ (s.buf b').blockno ∈ P))
    (hdisk : ∀ b', b' ≠ b → (s.buf b').valid = true →
      s'.disk (s.buf b').blockno = s.disk (s.buf b').blockno)
    (hdev : x.dev = rootdev) (hlock : x.locked = true ↔ b ∈ h') (hvalid : x.valid = true)
    (href : x.refcnt = BitVec.ofNat 32 ((if b ∈ h' then 1 else 0) +
      if x.blockno ∈ P' then 1 else 0))
    (hclean : x.blockno ∉ P' → x.data = s'.disk x.blockno)
    (hpinned : ∀ n ∈ P', x.blockno = n ∨
      ∃ b', b' ≠ b ∧ (s.buf b').valid = true ∧ (s.buf b').blockno = n)
    (hnodup : P'.Nodup) : Coh h' P' { s' with buf := update s.buf b x } := by
  refine ⟨hshape, ?_, ?_, ?_, ?_, ?_, ?_, hnodup⟩
  · intro b' hv
    by_cases he : b' = b
    · simpa [he] using hdev
    · simp only [update_of_ne he] at hv ⊢
      exact hc.dev b' hv
  · intro b'
    by_cases he : b' = b
    · simpa [he] using hlock
    · simp only [update_of_ne he]
      rw [hc.locked b', hh b' he]
  · intro b'
    by_cases he : b' = b
    · simpa [he, refs, hdev] using href
    · have hpin : ((s.buf b').dev = rootdev ∧ (s.buf b').blockno ∈ P') =
          ((s.buf b').dev = rootdev ∧ (s.buf b').blockno ∈ P) :=
        propext (and_congr_right (hP b' he))
      simp only [refs, update_of_ne he, hh b' he, hpin]
      exact hc.refcnt b'
  · intro b' hv hn
    by_cases he : b' = b
    · grind
    · grind [hc.clean, hc.dev, update_apply]
  · intro b' hb'
    by_cases he : b' = b
    · simpa [he] using hvalid
    · simp only [update_of_ne he]
      exact hc.held b' ((hh b' he).mp hb')
  · intro n hn
    rcases hpinned n hn with hx | ⟨b', he, hv, hb'⟩
    · exact ⟨b, by simpa using hvalid, by simpa using hx⟩
    · exact ⟨b', by simpa [he] using hv, by simpa [he] using hb'⟩

theorem Coh.pinned_other (b : Bp) (hn : n ∈ P) :
    (s.buf b).blockno = n ∨ ∃ b', b' ≠ b ∧ (s.buf b').valid = true ∧ (s.buf b').blockno = n := by
  obtain ⟨b', hv, hb'⟩ := hc.pinned n hn
  by_cases he : b' = b
  · exact .inl (he ▸ hb')
  · exact .inr ⟨b', he, hv, hb'⟩

theorem Coh.enter {x : Buf} (hb : b ∉ h) (hshape : Shape { s with buf := update s.buf b x })
    (hx : x.valid = true ∧ x.locked = true ∧ x.dev = rootdev)
    (hcase : (s.buf b).dev = rootdev ∧ (s.buf b).blockno = x.blockno ∧
        x.refcnt = (s.buf b).refcnt + 1 ∨
      x.blockno ∉ P ∧ (s.buf b).refcnt = 0 ∧ x.refcnt = 1)
    (hclean : x.blockno ∉ P → x.data = s.disk x.blockno) :
    Coh (insert b h) P { s with buf := update s.buf b x } := by
  refine hc.change s b x hshape ?_ (fun _ _ _ => Iff.rfl) (fun _ _ _ => rfl) hx.2.2 ?_ hx.1 ?_ hclean
    ?_ hc.nodup
  · intro b' he
    simp [he]
  · simp [hx.2.1]
  · rcases hcase with ⟨hd, hn, hr⟩ | ⟨hn, h0, hr⟩
    · have hr0 := hc.refcnt b
      simp only [refs, hb, hd, hn, if_false, true_and, Nat.zero_add] at hr0
      rw [hr, hr0, if_pos (Finset.mem_insert_self b h), Nat.add_comm, ofNat_succ]
    · simp [hn, hr]
  · intro n hn
    rcases hcase with ⟨-, hb', -⟩ | ⟨-, h0, -⟩
    · rw [← hb']
      exact hc.pinned_other b hn
    · obtain ⟨b', hv, hb'⟩ := hc.pinned n hn
      refine .inr ⟨b', ?_, hv, hb'⟩
      -- the buffer of a pinned block has a reference
      rintro rfl
      have hu := hc.unused h0
      rw [refs, if_pos (⟨hc.dev _ hv, hb' ▸ hn⟩ : _ ∧ _)] at hu
      omega

end

/-- What `bread` returns: the buffer, now held, with the bytes of the block. -/
structure Read (h : Finset Bp) (P : List Nat) (s : State) (n : Nat) (r : Bp) (s' : State) :
    Prop where
  coh : Coh (insert r h) P s'
  fresh : r ∉ h
  blockno : (s'.buf r).blockno = n
  log : s'.log = s.log
  stored : n ∉ P → (s'.buf r).data = s.disk n
  cached : ∀ b, (s.buf b).valid = true → (s.buf b).blockno = n → (s'.buf r).data = (s.buf b).data

theorem acquiresleep_spec {Q : Unit → State → Prop} (hQ : (s.buf b).locked = false →
      Q () { s with buf := update s.buf b { s.buf b with locked := true } }) :
    Wp anyStop (acquiresleep b) s Q := by
  refine .bind (.get ?_)
  split
  · exact .of_error rfl trivial
  · next hl => exact .modify (hQ (by simpa using hl))

/-- The buffer that `bget` returns, before it is locked and filled. -/
structure Fetched (P : List Nat) (s : State) (n : Nat) (b : Bp) (y : Buf) : Prop where
  dev : y.dev = rootdev
  blockno : y.blockno = n
  locked : y.locked = (s.buf b).locked
  ref : (s.buf b).dev = rootdev ∧ (s.buf b).blockno = n ∧ y.refcnt = (s.buf b).refcnt + 1 ∨
    n ∉ P ∧ (s.buf b).refcnt = 0 ∧ y.refcnt = 1
  valid : y.valid = true → (s.buf b).valid = true ∧ (s.buf b).blockno = n ∧ y.data = (s.buf b).data
  other : ∀ b', (s.buf b').valid = true → (s.buf b').blockno = n → b' = b ∧ y.valid = true

theorem Coh.fetched (hc : Coh h P s) (hg : Got s rootdev n b s') :
    ∃ y, Fetched P s n b y ∧ s' = { s with buf := update s.buf b y } := by
  cases hg with
  | hit hd hb =>
    refine ⟨_, ?_, rfl⟩
    refine ⟨hd, hb, rfl, .inl ⟨hd, hb, rfl⟩, fun hv => ⟨hv, hb, rfl⟩, ?_⟩
    intro b' hv hb'
    obtain rfl := hc.unique hd (hc.dev b' hv) (hb'.trans hb.symm)
    exact ⟨rfl, hv⟩
  | recycled hmiss hfree =>
    have hnP : n ∉ P := by grind [hc.pinned, hc.dev]
    refine ⟨_, ?_, rfl⟩
    refine ⟨rfl, rfl, rfl, .inr ⟨hnP, hfree, rfl⟩, ?_, ?_⟩
    · intro hv
      cases hv
    · grind [hc.dev]

theorem Coh.filled (hc : Coh h P s) {y x : Buf} (hy : Fetched P s n b y)
    (hl : (s.buf b).locked = false)
    (hsh : Shape { s with buf := update s.buf b y })
    (hx : x = { y with
      locked := true, valid := true, data := if y.valid then y.data else s.disk n }) :
    Read h P s n b { s with buf := update s.buf b x } := by
  have hb : b ∉ h := by
    rw [← hc.locked b, hl]
    simp
  have hxn : x.blockno = n := by
    rw [hx]
    exact hy.blockno
  have hdata : n ∉ P → x.data = s.disk n := by
    have := hy.valid
    have := hc.clean
    grind
  have hsh' : Shape { s with buf := update s.buf b x } := by
    have := hsh.setBuf (b := b) (x := x) (by simp [hx]) (by simp [hx])
    simpa using this
  refine ⟨hc.enter hb hsh' ?_ ?_ ?_, hb, ?_, rfl, ?_, ?_⟩
  · rw [hx]
    exact ⟨rfl, rfl, hy.dev⟩
  · rw [hxn, hx]
    exact hy.ref
  · rw [hxn]
    exact hdata
  · simpa using hxn
  · simpa using hdata
  · grind [hy.other, hy.valid]

theorem bread_spec (hc : Coh h P s) :
    Wp anyStop (bread rootdev n) s fun r s' => Read h P s n r s' := by
  refine .bind (((bgetRef_spec hc.shape).imp_error fun _ _ => trivial).seq ?_)
  intro b s1 hg
  obtain ⟨y, hy, rfl⟩ := hc.fetched hg
  have hsh := hc.shape.got hg
  refine .bind (acquiresleep_spec fun hl => .pure (.bind (.get ?_)))
  simp only [update_self, update_idem] at hl ⊢
  rw [hy.locked] at hl
  by_cases hv : y.valid = true
  · rw [if_neg (by simp [hv])]
    exact .pure (hc.filled hy hl hsh (by simp [hv]))
  · rw [if_pos (by simp [hv])]
    refine .bind (.modify (.bind (.modify (.pure ?_))))
    simp only [update_self, update_idem]
    exact hc.filled hy hl hsh (by simp [hv, hy.blockno])

theorem brelse_spec (hc : Coh h P s) (hb : b ∈ h) :
    Wp anyStop (brelse b) s fun _ s' => Coh (h.erase b) P s' ∧ s'.log = s.log := by
  have hl : (s.buf b).locked = true := (hc.locked b).mpr hb
  have hv := hc.held b hb
  have hd := hc.dev b hv
  refine .bind (.get ?_)
  rw [if_neg (by simp [hl])]
  refine .bind (.modify ?_)
  have hsh0 : Shape { s with buf := update s.buf b { s.buf b with locked := false } } :=
    hc.shape.setBuf rfl rfl
  refine (bput_spec hsh0).mono ?_
  rintro _ s' ⟨hsh, he⟩
  simp only [State.setRef, update_self, update_idem] at he
  rw [he] at hsh ⊢
  refine ⟨?_, rfl⟩
  refine hc.change { s with links := s'.links } b _ hsh ?_ (fun _ _ _ => Iff.rfl)
    (fun _ _ _ => rfl) hd ?_ hv ?_ (hc.clean b hv)
    (fun n hn => hc.pinned_other b hn) hc.nodup
  · intro b' he
    simp [he]
  · simp
  · have hr := hc.refcnt b
    simp only [refs, hb, hd, if_true, true_and] at hr
    simp only [hr, Finset.notMem_erase, if_false, Nat.zero_add]
    rw [Nat.add_comm, ofNat_succ, BitVec.add_sub_cancel]

theorem brelse_held (hc : Coh (insert r h) P s) (hr : r ∉ h) :
    Wp anyStop (brelse r) s fun _ s' => Coh h P s' ∧ s'.log = s.log := by
  refine (brelse_spec hc (Finset.mem_insert_self r h)).mono ?_
  rintro _ s' ⟨hc', hl⟩
  rw [Finset.erase_insert hr] at hc'
  exact ⟨hc', hl⟩

theorem writeData_spec (hc : Coh h P s) (hb : b ∈ h) (hk : ∀ s', Coh h P s' → s'.log = s.log →
      s' = { s with
        buf := update s.buf b { s.buf b with data := d }
        disk := update s.disk (s.buf b).blockno d } → Wp anyStop k s' Q) :
    Wp anyStop (do
      setData b d
      bwrite b
      k) s Q := by
  have hl : (s.buf b).locked = true := (hc.locked b).mpr hb
  have hv := hc.held b hb
  have hd := hc.dev b hv
  refine .bind (.modify ?_)
  refine .bind (.bind (.get ?_))
  rw [if_neg (by simp [hl])]
  refine .modify ?_
  simp only [update_self]
  have hsh : Shape { s with buf := update s.buf b { s.buf b with data := d } } :=
    hc.shape.setBuf rfl rfl
  refine hk _ ?_ rfl rfl
  refine hc.change { s with disk := update s.disk (s.buf b).blockno d } b
    { s.buf b with data := d } ⟨hsh.ring, hsh.unique⟩ (fun _ _ => Iff.rfl) (fun _ _ _ => Iff.rfl) ?_ hd
    (hc.locked b) hv ?_ ?_ (fun n hn => hc.pinned_other b hn) hc.nodup
  · intro b' he hv'
    have hne : (s.buf b').blockno ≠ (s.buf b).blockno :=
      fun hn => he (hc.unique hd (hc.dev b' hv') hn)
    exact update_of_ne hne ..
  · have hr := hc.refcnt b
    simpa [refs, hd] using hr
  · intro _
    simp

theorem bunpin_spec (hc : Coh h (n :: P) s) (hb : b ∈ h) (hn : (s.buf b).blockno = n)
    (hdata : (s.buf b).data = s.disk n) :
    Wp anyStop (bunpin b) s fun _ s' => Coh h P s' ∧ s'.log = s.log := by
  have hv := hc.held b hb
  have hd := hc.dev b hv
  obtain ⟨hnP, hnodup⟩ := List.nodup_cons.mp hc.nodup
  refine .modify ⟨?_, rfl⟩
  refine hc.change s b _ (hc.shape.setBuf rfl rfl) (fun _ _ => Iff.rfl) ?_ (fun _ _ _ => rfl) hd
    (hc.locked b) hv ?_ ?_ (fun n hn => hc.pinned_other b (List.mem_cons_of_mem _ hn)) hnodup
  · intro b' he hd'
    have hne : (s.buf b').blockno ≠ n := fun hn' => he (hc.unique hd hd' (hn'.trans hn.symm))
    simp [hne]
  · have hr := hc.refcnt b
    simp only [refs, hb, hd, hn, if_true, List.mem_cons_self, and_self] at hr
    simp [hr, hb, hn, hnP]
  · intro _
    rw [hn]
    exact hdata

/-- The cache while the buffers `h` are held and the blocks `P` are pinned, with the log `l`. -/
def At (h : Finset Bp) (P : List Nat) (l : Log) (s : State) : Prop := Coh h P s ∧ s.log = l

theorem bread_at (hf : ∀ b, b ∉ h → Hoare anyStop (At (insert b h) P l) (f b) J) :
    Hoare anyStop (At h P l) (bread rootdev n >>= f) J :=
  fun _ hc => (bread_spec hc.1).seq fun b s' hr => hf b hr.fresh s' ⟨hr.coh, hr.log.trans hc.2⟩

theorem brelse_at (hr : r ∉ h) : Hoare anyStop (At (insert r h) P l) (brelse r) (At h P l) :=
  fun _ hc => (brelse_held hc.1 hr).mono fun _ _ h' => ⟨h'.1, h'.2.trans hc.2⟩

theorem writeData_at (hb : b ∈ h) (hk : Hoare anyStop (At h P l) k J) : Hoare anyStop (At h P l) (do
      setData b d
      bwrite b
      k) J :=
  fun _ hc => writeData_spec hc.1 hb fun s' h' hl _ => hk s' ⟨h', hl.trans hc.2⟩

/-! ## The log -/

def State.logged (s : State) : List Nat := (List.range s.log.lh.n).map s.log.lh.block

/-- The cache while the buffers `h` are held; the blocks of the transaction are pinned. -/
def Ok (h : Finset Bp) (s : State) : Prop := Coh h s.logged s

theorem Ok.of_coh (hc : Coh h s.logged s') (hl : s'.log = s.log) : Ok h s' := by
  unfold Ok State.logged
  rw [hl]
  exact hc

theorem Ok.setLog (hc : Ok h s) (log : Log) (hl : log.lh = s.log.lh) :
    Ok h { s with log := log } := by
  have hc' : Coh h s.logged _ := Coh.setLog hc log s.sb
  unfold Ok State.logged
  rw [hl]
  exact hc'

theorem bread_ok (hf : ∀ b, b ∉ h → Hoare anyStop (Ok (insert b h)) (f b) J) :
    Hoare anyStop (Ok h) (bread rootdev n >>= f) J :=
  fun _ hc => (bread_spec hc).seq fun b s' hr => hf b hr.fresh s' (.of_coh hr.coh hr.log)

theorem brelse_ok (hr : r ∉ h) : Hoare anyStop (Ok (insert r h)) (brelse r) (Ok h) :=
  fun _ hc => (brelse_held hc hr).mono fun _ _ h' => .of_coh h'.1 h'.2

theorem LogHeader.find_cases (lh : LogHeader) (n : Nat) :
    (lh.find n < lh.n ∧ lh.block (lh.find n) = n) ∨
      lh.find n = lh.n ∧ n ∉ (List.range lh.n).map lh.block := by
  unfold LogHeader.find
  cases hf : (List.range lh.n).find? fun i => decide (lh.block i = n) with
  | some => grind
  | none => grind

theorem map_range_update (f : Nat → Nat) (m n : Nat) :
    (List.range (m + 1)).map (update f m n) = (List.range m).map f ++ [n] := by
  rw [List.range_succ, List.map_append, List.map_singleton, update_self]
  congr 1
  apply List.map_congr_left
  intro i hi
  exact update_of_ne (Nat.ne_of_lt (List.mem_range.mp hi)) ..

theorem Coh.absorb (hc : Coh h P s) (hb : b ∈ h) (hP : (s.buf b).blockno ∈ P) :
    Coh h P { s with buf := update s.buf b { s.buf b with data := d } } := by
  have hv := hc.held b hb
  have hd := hc.dev b hv
  refine hc.change s b _ (hc.shape.setBuf rfl rfl) (fun _ _ => Iff.rfl) (fun _ _ _ => Iff.rfl)
    (fun _ _ _ => rfl) hd (hc.locked b) hv ?_ (fun hn => absurd hP hn)
    (fun n hn => hc.pinned_other b hn) hc.nodup
  have hr := hc.refcnt b
  simpa [refs, hd] using hr

theorem Coh.pin (hc : Coh h P s) (hb : b ∈ h) (hP : (s.buf b).blockno ∉ P) :
    Coh h (P ++ [(s.buf b).blockno]) { s with
      buf := update s.buf b { s.buf b with data := d, refcnt := (s.buf b).refcnt + 1 } } := by
  have hv := hc.held b hb
  have hd := hc.dev b hv
  refine hc.change s b _ (hc.shape.setBuf rfl rfl) (fun _ _ => Iff.rfl) ?_ (fun _ _ _ => rfl) hd
    (hc.locked b) hv ?_ (fun hn => absurd (by simp) hn) ?_ ?_
  · intro b' he hd'
    have hne : (s.buf b').blockno ≠ (s.buf b).blockno := fun hn => he (hc.unique hd hd' hn)
    simp [hne]
  · have hr := hc.refcnt b
    simp only [refs, hb, hd, hP, if_true, if_false, and_false] at hr
    simp [hr, hb]
  · intro n hn
    rcases List.mem_append.mp hn with hn | hn
    · exact hc.pinned_other b hn
    · exact .inl (List.mem_singleton.mp hn).symm
  · grind [hc.nodup, List.nodup_append, List.nodup_singleton]

theorem logData_ok (hb : b ∈ h) (hk : Hoare anyStop (Ok h) k J) : Hoare anyStop (Ok h) (do
      setData b d
      logWrite b
      k) J := by
  intro s hc
  refine .bind (.modify ?_)
  refine .bind (.bind (.get ?_))
  dsimp only
  split
  · exact .of_error rfl trivial
  split
  · exact .of_error rfl trivial
  refine .bind (.modify ?_)
  simp only [update_self]
  rcases s.log.lh.find_cases (s.buf b).blockno with ⟨hlt, hblock⟩ | ⟨heq, hnew⟩
  · rw [if_neg (Nat.ne_of_lt hlt)]
    have hsame : update s.log.lh.block (s.log.lh.find (s.buf b).blockno)
        (s.buf b).blockno = s.log.lh.block := by grind
    have hmem : (s.buf b).blockno ∈ s.logged := List.mem_map.mpr ⟨_, List.mem_range.mpr hlt, hblock⟩
    rw [hsame]
    exact .pure (hk _ ((hc.absorb hb hmem).setLog _ _))
  · rw [if_pos heq]
    refine .bind (.modify (.modify (hk _ ?_)))
    simp only [update_self, update_idem, heq]
    unfold Ok State.logged
    rw [map_range_update]
    exact (hc.pin hb hnew).setLog _ _

end Xv6.Bio
