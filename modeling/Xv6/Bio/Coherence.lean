import Xv6.Bio.Blocks
import Xv6.Bio.CacheSpec

/-!
# Coherence of the buffer cache

Operations of the file system and commits keep every buffer that is not pinned equal to its block,
as long as `writei` releases no buffer that it has changed and not logged.
-/

namespace Xv6.Bio

open ByteMem
open Fs (Block RawInode bsize)
open Finset (mem_insert_self)

variable {s s' : State} {b r : Bp} {n : Nat} {h : Finset Bp} {P : List Nat} {d : Block} {l : Log}
variable {disk : Nat → Block} {fuel off : Nat} {ip : RawInode} {src : Nat → Option Byte}

/-! ## Commits -/

theorem writeHead_at : Hoare anyStop (At ∅ P l) writeHead (At ∅ P l) :=
  .get fun _ => bread_at fun b hb => .get fun _ =>
    writeData_at (mem_insert_self b ∅) (brelse_at hb)

theorem writeLog_at : Hoare anyStop (At ∅ P l) writeLog (At ∅ P l) := by
  refine .get fun _ => .forRange fun _ => .get fun _ => ?_
  refine bread_at fun r hr => bread_at fun b hb => .get fun _ => writeData_at (by simp) ?_
  exact .seq (brelse_at hb) fun _ => brelse_at hr

theorem releaseBoth_at (hb : b ∉ (insert r ∅ : Finset Bp)) :
    Hoare anyStop (At (insert b (insert r ∅)) P l) (do
      brelse r
      brelse b) (At ∅ P l) := by
  rw [Finset.insert_comm]
  exact .seq (brelse_at (by grind)) fun _ => brelse_at (Finset.notMem_empty b)

theorem reinstallTail_at {tail : Nat} :
    Hoare anyStop (At ∅ P l) (installTail true tail) (At ∅ P l) :=
  .get fun _ => bread_at fun _ _ => bread_at fun b hb => .get fun _ =>
    writeData_at (mem_insert_self b _) (releaseBoth_at hb)

theorem installTail_spec {tail : Nat} (hc : Coh ∅ (s.log.lh.block tail :: P) s) :
    Wp anyStop (installTail false tail) s (fun _ => At ∅ P s.log) := by
  refine .bind (.get ((bread_spec hc).seq ?_))
  intro r s1 h1
  refine (bread_spec h1.coh).seq ?_
  intro b s2 h2
  refine .bind (.get (writeData_spec h2.coh (mem_insert_self b _) ?_))
  intro s3 h3 hl3 he3
  have hb3 : (s3.buf b).blockno = s.log.lh.block tail := by simpa [he3] using h2.blockno
  have hd3 : (s3.buf b).data = s3.disk (s.log.lh.block tail) := by simp [he3, h2.blockno]
  refine (bunpin_spec h3 (mem_insert_self b _) hb3 hd3).seq ?_
  rintro _ s4 ⟨h4, hl4⟩
  exact releaseBoth_at h2.fresh s4 ⟨h4, by rw [hl4, hl3, h2.log, h1.log]⟩

theorem installTrans_spec (hc : Ok ∅ s) :
    Wp anyStop (installTrans false) s (fun _ => At ∅ [] s.log) := by
  refine .bind (.get ?_)
  have hrun := Wp.forRange (E := anyStop) (installTail false)
    (fun i => At ∅ (s.logged.drop i) s.log) s.log.lh.n 0 s ?_ ⟨hc, rfl⟩
  · grind [List.drop_of_length_le, State.logged]
  · grind [State.logged, List.drop_eq_getElem_cons, installTail_spec, At]

theorem clearHead_ok (hc : Coh ∅ [] s) : Wp anyStop (do
      setLog fun l => { l with lh := { l.lh with n := 0 } }
      writeHead) s (fun _ => Ok ∅) := by
  refine .bind (.modify ((writeHead_at _ ⟨hc.setLog _ _, rfl⟩).mono ?_))
  rintro _ s' ⟨h', hl⟩
  unfold Ok State.logged
  rw [hl]
  exact h'

theorem commit_ok : Hoare anyStop (Ok ∅) commit (Ok ∅) := by
  refine .get fun _ => .ite ?_ .pure
  intro s hc
  refine (writeLog_at s ⟨hc, rfl⟩).seq ?_
  intro _ s1 h1
  refine (writeHead_at s1 h1).seq ?_
  intro _ s2 h2
  refine (installTrans_spec (.of_coh h2.1 h2.2)).seq ?_
  intro _ s3 h3
  exact clearHead_ok h3.1

theorem setLog_ok {g : Log → Log} (hg : ∀ l, (g l).lh = l.lh) :
    Hoare anyStop (Ok h) (setLog g) (Ok h) :=
  fun s hc => .modify (hc.setLog _ (hg s.log))

theorem beginOp_ok : Hoare anyStop (Ok ∅) beginOp (Ok ∅) :=
  .get fun _ => .ite (.throw trivial) (.ite (.throw trivial) (setLog_ok fun _ => rfl))

theorem endOp_ok : Hoare anyStop (Ok ∅) endOp (Ok ∅) := by
  refine .seq (setLog_ok fun _ => rfl) fun _ => .get fun _ => .ite (.throw trivial) (.ite ?_ .pure)
  refine .seq (setLog_ok fun _ => rfl) fun _ => .seq commit_ok fun _ => ?_
  exact setLog_ok fun _ => rfl

/-! ## The start -/

theorem recoverFromLog_ok (hc : Coh ∅ [] s) : Wp anyStop recoverFromLog s (fun _ => Ok ∅) := by
  refine .bind (.bind (.get ((bread_spec hc).seq ?_)))
  intro b s1 h1
  refine .bind (.get ?_)
  dsimp only
  generalize (if Fs.Block.word (s1.buf b).data 0 < 2 ^ 31 then _ else 0) = n
  split
  · exact .of_error rfl trivial
  refine .bind (.modify ((brelse_held (h1.coh.setLog _ _) h1.fresh).mono ?_))
  rintro _ s2 ⟨h2, -⟩
  refine ((Hoare.get fun _ => .forRange fun _ => reinstallTail_at) s2 ⟨h2, rfl⟩).seq ?_
  intro _ s3 h3
  exact clearHead_ok h3.1

theorem fsinit_ok (hc : Coh ∅ [] s) : Wp anyStop fsinit s (fun _ => Ok ∅) := by
  refine .bind ((bread_spec hc).seq ?_)
  intro b s1 h1
  refine .bind (.modify ((brelse_held (h1.coh.setLog _ _) h1.fresh).mono ?_))
  rintro _ s2 ⟨h2, -⟩
  refine .bind (.get ?_)
  split
  · exact .of_error rfl trivial
  · exact .bind (.get (.bind (.modify (recoverFromLog_ok (h2.setLog _ _)))))

/-! ## The functions that use buffers -/

/-- `m` keeps the cache coherent, whatever buffers are held. -/
def Safe {α : Type} (m : M α) : Prop := ∀ h, Hoare anyStop (Ok h) m (Ok h)

theorem bzero_ok : Safe (bzero n) :=
  fun h => bread_ok fun bp hbp => logData_ok (mem_insert_self bp h) (brelse_ok hbp)

theorem ballocLoop_ok : Safe (ballocLoop fuel n) := by
  intro h
  induction fuel generalizing n with
  | zero => exact .pure
  | succ _ ih =>
    refine .get fun _ => .ite (bread_ok fun bp hbp => .get fun _ => ?_) .pure
    dsimp only
    split
    · refine logData_ok (mem_insert_self bp h) (.seq (brelse_ok hbp) fun _ => ?_)
      exact .seq (bzero_ok h) fun _ => .pure
    · exact .seq (brelse_ok hbp) fun _ => ih

theorem balloc_ok : Safe balloc := fun h => .get fun _ => ballocLoop_ok h

theorem bfree_ok : Safe (bfree n) :=
  fun h => .get fun _ => bread_ok fun bp hbp => .get fun _ =>
    .ite (logData_ok (mem_insert_self bp h) (brelse_ok hbp)) (.throw trivial)

theorem iallocLoop_ok {type : Nat} : Safe (iallocLoop type fuel n) := by
  intro h
  induction fuel generalizing n with
  | zero => exact .pure
  | succ _ ih =>
    refine .get fun _ => .ite (bread_ok fun bp hbp => .get fun _ => .ite ?_ ?_) .pure
    · exact logData_ok (mem_insert_self bp h) (.seq (brelse_ok hbp) fun _ => .pure)
    · exact .seq (brelse_ok hbp) fun _ => ih

theorem iupdate_ok : Safe (iupdate n ip) :=
  fun h => .get fun _ => bread_ok fun bp hbp => .get fun _ =>
    logData_ok (mem_insert_self bp h) (brelse_ok hbp)

theorem ilock_ok : Safe (ilock n) :=
  fun _ => .get fun _ => bread_ok fun _ hbp => .get fun _ =>
    .seq (brelse_ok hbp) fun _ => .ite (.throw trivial) .pure

theorem bmapSlot_ok : Safe (bmapSlot ip n) :=
  fun h => .ite .pure (.seq (balloc_ok h) fun _ => .ite .pure .pure)

theorem bmapWord_ok {ind : Nat} : Safe (bmapWord ind n) := by
  refine fun h => bread_ok fun bp hbp => .get fun _ => .ite ?_ (.seq (balloc_ok _) fun _ => ?_)
  · exact .seq (brelse_ok hbp) fun _ => .pure
  refine .ite (.seq (brelse_ok hbp) fun _ => .pure) (.get fun _ => ?_)
  exact logData_ok (mem_insert_self bp h) (.seq (brelse_ok hbp) fun _ => .pure)

theorem bmap_ok : Safe (bmap ip n) := by
  refine fun h => .ite (bmapSlot_ok h) (.ite (.seq (bmapSlot_ok h) fun _ => ?_) (.throw trivial))
  exact .ite .pure (.seq (bmapWord_ok h) fun _ => .pure)

theorem freeAddr_ok : Safe (freeAddr n) := fun h => .ite (bfree_ok h) .pure

theorem itruncIndirect_ok : Safe (itruncIndirect ip) := by
  refine fun h => .ite (bread_ok fun bp hbp => .seq (.forRange fun _ => ?_) fun _ => ?_) .pure
  · exact .get fun _ => freeAddr_ok _
  · exact .seq (brelse_ok hbp) fun _ => bfree_ok h

theorem itrunc_ok : Safe (itrunc n ip) :=
  fun h => .seq (.forRange fun _ => freeAddr_ok h) fun _ =>
    .seq (itruncIndirect_ok h) fun _ => .seq (iupdate_ok h) fun _ => .pure

theorem readLoop_ok {ok : Nat → Nat → Bool} {tot : Nat} {acc : List Byte} :
    Safe (readLoop ok n fuel ip tot off acc) := by
  intro h
  induction fuel generalizing ip tot off acc with
  | zero => exact .pure
  | succ _ ih =>
    refine .ite (.seq (bmap_ok h) fun _ => .ite .pure ?_) .pure
    refine bread_ok fun _ hbp => .get fun _ => .seq (brelse_ok hbp) fun _ => ?_
    exact .ite ih .pure

theorem readi_ok {ok : Nat → Nat → Bool} : Safe (readi ip ok off n) :=
  fun h => .ite .pure (.ite (readLoop_ok h) (readLoop_ok h))

/-- A chunk that `either_copyin` copies as a whole, or of which it can read nothing. -/
def WholeChunk (src : Nat → Option Byte) (tot m : Nat) : Prop :=
  Fs.copied src tot m = m ∨ Fs.copied src tot m = 0

theorem fill_zero (d : Block) (src : Nat → Option Byte) (tot a : Nat) : d.fill src tot a 0 = d := by
  funext x
  unfold Fs.Block.fill
  rw [if_neg]
  omega

theorem writeChunk_ok {addr tot m : Nat} (hw : WholeChunk src tot m) :
    Safe (writeChunk src addr tot off m) := by
  refine fun h => bread_ok fun bp hbp s1 h1 => .bind (.get ?_)
  by_cases hk : Fs.copied src tot m < m
  · -- nothing has been copied
    have h0 : Fs.copied src tot m = 0 := hw.resolve_left (Nat.ne_of_lt hk)
    rw [h0] at hk
    simp only [h0, if_pos hk, fill_zero]
    refine .bind (.modify ?_)
    rw [Function.update_eq_self]
    exact Hoare.seq (brelse_ok hbp) (fun _ => .pure) s1 h1
  · simp only [if_neg hk]
    exact logData_ok (mem_insert_self bp h) (.seq (brelse_ok hbp) fun _ => .pure) s1 h1

/-- Every chunk of a write is copied as a whole, or nothing of it can be read. -/
def WholeWrite (src : Nat → Option Byte) (off n : Nat) : Prop :=
  ∀ tot, tot < n → (tot = 0 ∨ (off + tot) % bsize = 0) →
    WholeChunk src tot (min (n - tot) (bsize - (off + tot) % bsize))

theorem writeLoop_ok {tot : Nat} (hw : WholeWrite src off n)
    (htot : n ≤ tot ∨ tot = 0 ∨ (off + tot) % bsize = 0) :
    Safe (writeLoop src n fuel ip tot (off + tot)) := by
  intro h
  induction fuel generalizing ip tot with
  | zero => exact .pure
  | succ _ ih =>
    unfold writeLoop
    by_cases hlt : tot < n
    · rw [if_pos hlt]
      refine .seq (bmap_ok h) fun _ => .ite .pure ?_
      have hchunk := hw tot hlt (htot.resolve_left (Nat.not_le.mpr hlt))
      refine .seq (writeChunk_ok hchunk h) fun _ => .ite ?_ .pure
      rw [Nat.add_assoc]
      apply ih
      unfold bsize
      omega
    · rw [if_neg hlt]
      exact .pure

theorem writei_ok {inum : Nat} (hw : WholeWrite src off n) : Safe (writei inum ip src off n) := by
  refine fun h => .ite .pure (.ite .pure (.seq (writeLoop_ok hw (.inr (.inl rfl)) h) fun _ => ?_))
  exact .seq (iupdate_ok h) fun _ => .pure

/-! ## Runs -/

/-- What the file system does: an operation begins, a function is called, an operation ends. -/
inductive Action where
  | beginOp
  | use (u : Use)
  | endOp

def Action.run : Action → M Unit
  | .beginOp => Bio.beginOp
  | .use u => u.run
  | .endOp => Bio.endOp

/-- The states that actions with `C` reach from the start of the kernel on a disk. -/
inductive Reach (disk : Nat → Block) (C : Action → Prop) : State → Prop
  | boot {links : Dll.Links Bp} {s : State}
      (h : fsinit (binit { links := links, disk := disk }) = .ok ((), s)) : Reach disk C s
  | step {s s' : State} {a : Action} (h : Reach disk C s) (hC : C a) (hrun : a.run s = .ok ((), s')) :
      Reach disk C s'

def Action.whole : Action → Prop
  | .use (.writei _ _ src off n) => WholeWrite src off n
  | _ => True

theorem drop_ok {α : Type} {m : M α} (hm : Safe m) : Safe (drop m) :=
  fun h => .seq (hm h) fun _ => .pure

theorem use_ok {u : Use} (hu : (Action.use u).whole) : Safe u.run := by
  cases u with
  | balloc => exact drop_ok balloc_ok
  | bfree => exact bfree_ok
  | bzero => exact bzero_ok
  | ialloc => exact drop_ok fun h => .get fun _ => iallocLoop_ok h
  | iupdate => exact iupdate_ok
  | ilock => exact drop_ok ilock_ok
  | bmap => exact drop_ok bmap_ok
  | itrunc => exact drop_ok itrunc_ok
  | readi => exact drop_ok readi_ok
  | writei => exact drop_ok (writei_ok hu)

theorem action_ok {a : Action} (ha : a.whole) : Hoare anyStop (Ok ∅) a.run (Ok ∅) := by
  cases a with
  | beginOp => exact beginOp_ok
  | endOp => exact endOp_ok
  | use => exact use_ok ha ∅

theorem binit_coh (links : Dll.Links Bp) (disk : Nat → Block) :
    Coh ∅ [] (binit { links := links, disk := disk }) := by
  have hs := (Cache.counted_start links disk).shape
  refine ⟨hs, ?_, ?_, ?_, ?_, ?_, ?_, List.nodup_nil⟩
  · intro b hv
    cases hv
  · intro b
    simp [binit]
  · intro b
    simp [binit, refs]
  · intro b hv
    cases hv
  · intro b hb
    simp at hb
  · intro n hn
    cases hn

theorem Reach.ok (hr : Reach disk Action.whole s) : Ok ∅ s := by
  induction hr with
  | boot h => exact (fsinit_ok (binit_coh _ _)).of_ok h
  | step _ hC hrun ih => exact (action_ok hC _ ih).of_ok hrun

/-- The bytes of block `n`: those of its buffer if the log has pinned it, else those on disk. -/
def State.view (s : State) (n : Nat) : Block :=
  match (List.finRange nbuf).find? fun b =>
      decide ((s.buf b).refcnt ≠ 0 ∧ (s.buf b).blockno = n) with
  | some b => (s.buf b).data
  | none => s.disk n

/-- A buffer that is not pinned is a copy of its block, a pinned one belongs to the transaction, and
`bread` returns bytes that do not depend on the buffers that are not pinned. -/
structure Coherent (s : State) : Prop where
  clean : ∀ b, (s.buf b).valid = true → (s.buf b).refcnt = 0 →
    (s.buf b).data = s.disk (s.buf b).blockno
  pinned : ∀ b, (s.buf b).refcnt ≠ 0 → ∃ i < s.log.lh.n, s.log.lh.block i = (s.buf b).blockno
  read : ∀ n b s', bread rootdev n s = .ok (b, s') → (s'.buf b).data = s.view n

theorem Ok.refcnt_ne_zero (hc : Ok ∅ s) :
    (s.buf b).refcnt ≠ 0 ↔ (s.buf b).dev = rootdev ∧ (s.buf b).blockno ∈ s.logged := by
  rw [hc.refcnt b, refs]
  by_cases hp : (s.buf b).dev = rootdev ∧ (s.buf b).blockno ∈ s.logged <;> simp [hp]

theorem Ok.coherent (hc : Ok ∅ s) : Coherent s := by
  refine ⟨?_, ?_, ?_⟩
  · intro b hv h0
    apply hc.clean b hv
    intro hn
    exact hc.refcnt_ne_zero.mpr ⟨hc.dev b hv, hn⟩ h0
  · intro b hb
    obtain ⟨i, hi, he⟩ := List.mem_map.mp (hc.refcnt_ne_zero.mp hb).2
    exact ⟨i, List.mem_range.mp hi, he⟩
  · intro n b s' hr
    have hread := (bread_spec hc).of_ok hr
    unfold State.view
    cases hf : (List.finRange nbuf).find? fun b =>
        decide ((s.buf b).refcnt ≠ 0 ∧ (s.buf b).blockno = n) with
    | some b' =>
      have hb' := List.find?_some hf
      obtain ⟨h0, hn⟩ := of_decide_eq_true hb'
      obtain ⟨hd, hl⟩ := hc.refcnt_ne_zero.mp h0
      obtain ⟨c, hv, hcn⟩ := hc.pinned _ hl
      obtain rfl := hc.unique hd (hc.dev c hv) hcn
      exact hread.cached c hv hn
    | none =>
      apply hread.stored
      intro hl
      obtain ⟨c, hv, hcn⟩ := hc.pinned n hl
      have h0 := List.find?_eq_none.mp hf c (List.mem_finRange c)
      exact h0 (decide_eq_true ⟨hc.refcnt_ne_zero.mpr ⟨hc.dev c hv, hcn ▸ hl⟩, hcn⟩)

/-- The cache is coherent in every state of a run whose writes are of whole chunks. -/
theorem cache_coherent {disk : Nat → Block} (hr : Reach disk Action.whole s) : Coherent s :=
  hr.ok.coherent

def ofWords (l : List Nat) : Block := fun x => Fs.byteOf (l.getD (x / 4) 0) (x % 4)

/-- A disk of 60 blocks with one file, `f`, of four bytes in block 35. -/
def oneFile (n : Nat) : Block :=
  match n with
  | 1 => ofWords [Fs.fsmagic, 60, 26, 16, 30, 2, 32, 33]
  | 32 =>
    (Fs.Block.setInode (fun _ => 0) 1
      { type := 1, nlink := 1, size := 48, addrs := fun j => if j = 0 then 34 else 0 }).setInode 2
      { type := 2, nlink := 1, size := 4, addrs := fun j => if j = 0 then 35 else 0 }
  | 33 => ofWords [2 ^ 32 - 1, 15]
  | 34 => fun x => ([1, 0, 46, 0, 0, 0, 0, 0, 0, 0, 0, 0, 0, 0, 0, 0,
      1, 0, 46, 46, 0, 0, 0, 0, 0, 0, 0, 0, 0, 0, 0, 0, 2, 0, 102] : List Byte).getD x 0
  | 35 => ofWords [0x04030201]
  | _ => fun _ => 0

/-- Make the actions one after the other from the start on a disk. -/
def runActions (disk : Nat → Block) (l : List Action) : Except Stop (Unit × State) :=
  (do
    fsinit
    l.forM Action.run) (binit { links := ⟨fun _ => none, fun _ => none⟩, disk := disk })

theorem forM_reach {C : Action → Prop} {l : List Action} (hr : Reach disk C s) (hl : ∀ a ∈ l, C a)
    (hrun : l.forM Action.run s = .ok ((), s')) : Reach disk C s' := by
  induction l generalizing s with
  | nil =>
    cases hrun
    exact hr
  | cons a l ih =>
    have hrun : (a.run s >>= fun q => l.forM Action.run q.2) = .ok ((), s') := hrun
    cases ha : a.run s with
    | error =>
      rw [ha] at hrun
      cases hrun
    | ok =>
      rw [ha] at hrun
      exact ih (.step hr (hl a List.mem_cons_self) ha)
        (fun c hc => hl c (List.mem_cons_of_mem a hc)) hrun

theorem runActions_reach {C : Action → Prop} {l : List Action} (hl : ∀ a ∈ l, C a)
    (hrun : runActions disk l = .ok ((), s)) : Reach disk C s := by
  have hrun : (fsinit (binit { links := ⟨fun _ => none, fun _ => none⟩, disk := disk }) >>=
      fun q => l.forM Action.run q.2) = .ok ((), s) := hrun
  cases hf : fsinit (binit { links := ⟨fun _ => none, fun _ => none⟩, disk := disk }) with
  | error =>
    rw [hf] at hrun
    cases hrun
  | ok =>
    rw [hf] at hrun
    exact forM_reach (.boot hf) hl hrun

/-- Open the file and write four bytes of which the source has `k`. -/
def writeFour (k : Nat) : List Action :=
  [.use (.ilock 2), .beginOp,
    .use (.writei 2 ((oneFile 32).inode 2) (fun i => if i < k then some 9 else none) 0 4), .endOp]

theorem writeFour_whole : ∀ a ∈ writeFour 4, a.whole := by
  intro a ha
  simp only [writeFour, List.mem_cons, List.not_mem_nil, or_false] at ha
  rcases ha with rfl | rfl | rfl | rfl
  · trivial
  · trivial
  · intro tot hlt htot
    obtain rfl : tot = 0 := by
      unfold bsize at htot
      omega
    exact .inl (by decide)
  · trivial

/-- A write that is copied as a whole, and its commit. -/
theorem cache_coherent_write :
    ∃ s, Reach oneFile Action.whole s ∧ s.disk 35 0 = 9 ∧ Coherent s := by
  have hrun : (match runActions oneFile (writeFour 4) with
      | .ok (_, s) => decide (s.disk 35 0 = 9)
      | .error _ => false) = true := by
    decide +kernel
  cases hr : runActions oneFile (writeFour 4) with
  | error =>
    rw [hr] at hrun
    cases hrun
  | ok q =>
    rw [hr] at hrun
    have hreach := runActions_reach writeFour_whole hr
    exact ⟨q.2, hreach, of_decide_eq_true hrun, cache_coherent hreach⟩

/-- The source of a write ends after two bytes: they stay in the buffer of the block, which nothing
pins, and the disk has the old bytes. -/
theorem abandoned_write : ∃ s b, Reach oneFile (fun _ => True) s ∧
    (s.buf b).valid = true ∧ (s.buf b).refcnt = 0 ∧ (s.buf b).blockno = 35 ∧
    (s.buf b).data 0 = 9 ∧ s.disk 35 0 = 1 := by
  have hrun : (match runActions oneFile (writeFour 2) with
      | .ok (_, s) => (List.finRange nbuf).any fun b => decide ((s.buf b).valid = true ∧
        (s.buf b).refcnt = 0 ∧ (s.buf b).blockno = 35 ∧ (s.buf b).data 0 = 9 ∧ s.disk 35 0 = 1)
      | .error _ => false) = true := by
    decide +kernel
  cases hr : runActions oneFile (writeFour 2) with
  | error =>
    rw [hr] at hrun
    cases hrun
  | ok q =>
    rw [hr] at hrun
    obtain ⟨b, -, hb⟩ := List.any_eq_true.mp hrun
    exact ⟨q.2, b, runActions_reach (fun _ _ => trivial) hr, of_decide_eq_true hb⟩

end Xv6.Bio
