import Xv6.Bio

/-!
# The structure of the buffer cache

The sections under `bcache.lock` of `bget`, `brelse`, `bpin` and `bunpin`, in any order and by any
number of processes: the list of buffers, their identities and their reference counts.
-/

namespace Xv6.Bio

open Dll (Links)
open Function (update update_of_ne update_self)

variable {s s' : State} {b : Bp} {dev blockno : Nat}

/-! ## The list and the identities -/

/-- The links go round through all buffers, and no block has two buffers. -/
structure Shape (s : State) : Prop where
  ring : ∃ l, l.Perm (List.finRange nbuf) ∧ s.links.Ring l
  unique : ∀ b b', (s.buf b).dev ≠ 0 → (s.buf b').dev = (s.buf b).dev →
    (s.buf b').blockno = (s.buf b).blockno → b' = b

theorem Shape.scan (h : Shape s) (p : Bp → Bool) :
    (∃ r, Dll.scan s.links.next p (nbuf + 1) none = some r ∧
      (r = none → ∀ b, p b = false) ∧ ∀ b, r = some b → p b = true) ∧
    ∃ r, Dll.scan s.links.prev p (nbuf + 1) none = some r ∧
      (r = none → ∀ b, p b = false) ∧ ∀ b, r = some b → p b = true := by
  obtain ⟨l, hperm, hring⟩ := h.ring
  have hlen : l.length < nbuf + 1 := by
    rw [hperm.length_eq, List.length_finRange]
    exact Nat.lt_succ_self _
  refine ⟨⟨_, hring.next.scan hlen, ?_, fun b => List.find?_some⟩,
    ⟨_, hring.prev.scan (by rwa [List.length_reverse]), ?_, fun b => List.find?_some⟩⟩
  · grind
  · grind

/-- What the section of `bget` does: it finds the buffer of the block, or it gives the block an
unused buffer. -/
inductive Got (s : State) (dev blockno : Nat) (b : Bp) : State → Prop
  | hit (hdev : (s.buf b).dev = dev) (hblockno : (s.buf b).blockno = blockno) :
    Got s dev blockno b { s with
      buf := update s.buf b { s.buf b with refcnt := (s.buf b).refcnt + 1 } }
  | recycled (hmiss : ∀ b', ¬((s.buf b').dev = dev ∧ (s.buf b').blockno = blockno))
      (hfree : (s.buf b).refcnt = 0) :
    Got s dev blockno b { s with
      buf := update s.buf b
        { s.buf b with dev := dev, blockno := blockno, valid := false, refcnt := 1 } }

theorem bgetRef_spec (h : Shape s) :
    Wp (fun e => e = .bgetNoBuffers) (bgetRef dev blockno) s fun b s' => Got s dev blockno b s' := by
  obtain ⟨⟨r, hr, hnone, hsome⟩, -⟩ :=
    h.scan fun b => (s.buf b).dev = dev ∧ (s.buf b).blockno = blockno
  obtain ⟨-, ⟨q, hq, -, hfree⟩⟩ := h.scan fun b => (s.buf b).refcnt = 0
  refine .bind (.get ?_)
  rw [hr]
  cases r with
  | some b =>
    obtain ⟨hdev, hblockno⟩ := of_decide_eq_true (hsome b rfl)
    exact .bind (.modify (.pure (.hit hdev hblockno)))
  | none =>
    rw [hq]
    cases q with
    | none => exact .of_error rfl rfl
    | some b =>
      refine .bind (.modify (.pure (.recycled ?_ ?_)))
      · grind
      · exact of_decide_eq_true (hfree b rfl)

theorem Shape.of_buf (h : Shape s) (hl : s'.links = s.links)
    (hd : ∀ b, (s'.buf b).dev = (s.buf b).dev) (hb : ∀ b, (s'.buf b).blockno = (s.buf b).blockno) :
    Shape s' := by
  refine ⟨hl ▸ h.ring, ?_⟩
  intro b b'
  rw [hd, hd, hb, hb]
  exact h.unique b b'

theorem Shape.setBuf (h : Shape s) {x : Buf} (hd : x.dev = (s.buf b).dev)
    (hb : x.blockno = (s.buf b).blockno) : Shape { s with buf := update s.buf b x } := by
  refine Shape.of_buf h rfl ?_ ?_ <;> grind

theorem Shape.got (h : Shape s) (hg : Got s dev blockno b s') : Shape s' := by
  cases hg with
  | hit => exact h.setBuf rfl rfl
  | recycled hmiss =>
    refine ⟨h.ring, ?_⟩
    intro c c' hc hd hb
    by_cases h1 : c = b
    · grind
    · by_cases h2 : c' = b
      · grind
      · simp only [h1, h2, update_of_ne, ne_eq, not_false_eq_true] at hc hd hb
        exact h.unique c c' hc hd hb

theorem Shape.touch (h : Shape s) : Shape { s with links := (s.links.unlink b).pushFront b } := by
  obtain ⟨l, hperm, hring⟩ := h.ring
  have hb : b ∈ l := hperm.mem_iff.mpr (List.mem_finRange b)
  refine ⟨⟨b :: l.erase b, ?_, ?_⟩, h.unique⟩
  · grind
  · exact (hring.unlink hb).pushFront (hring.nodup.not_mem_erase)

def State.setRef (s : State) (b : Bp) (r : BitVec 32) : State :=
  { s with buf := update s.buf b { s.buf b with refcnt := r } }

theorem Shape.setRef (h : Shape s) (r : BitVec 32) : Shape (s.setRef b r) := h.setBuf rfl rfl

theorem bput_spec {E : Stop → Prop} (h : Shape s) : Wp E (bput b) s fun _ s' => Shape s' ∧
    s' = { s.setRef b ((s.buf b).refcnt - 1) with links := s'.links } := by
  have hsh := h.setRef (b := b) ((s.buf b).refcnt - 1)
  refine .bind (.modify (.bind (.get ?_)))
  split
  · exact .set ⟨hsh.touch, rfl⟩
  · exact .pure ⟨hsh, rfl⟩

/-! ## Steps -/

/-- The cache, with the references that `bget` has given out and `brelse` has not taken back, and
the pins. -/
structure Cache where
  s : State
  holders : Bp → Nat
  pins : Bp → Nat

inductive Step (c : Cache) : Cache → Prop
  | bget {dev blockno : Nat} {b : Bp} {s' : State} (h : bgetRef dev blockno c.s = .ok (b, s')) :
    Step c { c with s := s', holders := update c.holders b (c.holders b + 1) }
  | brelse {b : Bp} {s' : State} (hb : 0 < c.holders b) (h : bput b c.s = .ok ((), s')) :
    Step c { c with s := s', holders := update c.holders b (c.holders b - 1) }
  | bpin {b : Bp} {s' : State} (h : bpin b c.s = .ok ((), s')) :
    Step c { c with s := s', pins := update c.pins b (c.pins b + 1) }
  | bunpin {b : Bp} {s' : State} (hb : 0 < c.pins b) (h : bunpin b c.s = .ok ((), s')) :
    Step c { c with s := s', pins := update c.pins b (c.pins b - 1) }

/-- After `binit`: the buffers are as the kernel's zeroed memory has them. -/
def Cache.start (links : Links Bp) (disk : Nat → Fs.Block) : Cache where
  s := binit { links := links, disk := disk }
  holders := fun _ => 0
  pins := fun _ => 0

def Cache.Reachable (c : Cache) : Prop :=
  ∃ links disk, Relation.ReflTransGen Step (.start links disk) c

/-- A reference count is the `uint` of the number of references. -/
structure Cache.Counted (c : Cache) : Prop where
  shape : Shape c.s
  refcnt : ∀ b, (c.s.buf b).refcnt = BitVec.ofNat 32 (c.holders b + c.pins b)

theorem ring_foldl {L : Links Bp} {l m : List Bp} (h : L.Ring m) (hn : l.Nodup)
    (hd : ∀ b ∈ l, b ∉ m) : (l.foldl Links.pushFront L).Ring (l.reverse ++ m) := by
  induction l generalizing L m with
  | nil => exact h
  | cons b _ ih =>
    obtain ⟨hb, hn⟩ := List.nodup_cons.mp hn
    rw [List.foldl_cons, List.reverse_cons, List.append_assoc]
    apply ih (h.pushFront (hd b List.mem_cons_self)) hn
    intro b' hb' hmem
    rcases List.mem_cons.mp hmem with rfl | hmem
    · exact hb hb'
    · grind

theorem Cache.counted_start (links : Links Bp) (disk : Nat → Fs.Block) :
    (Cache.start links disk).Counted := by
  have hnil : Links.Ring ⟨update links.next none none,
      update links.prev none none⟩ ([] : List Bp) := by
    refine ⟨List.nodup_nil, ?_, ?_⟩ <;> simp [Dll.Path]
  refine ⟨⟨⟨(List.finRange nbuf).reverse ++ [], ?_, ?_⟩, ?_⟩, fun _ => rfl⟩
  · simp
  · apply ring_foldl hnil (List.nodup_finRange nbuf)
    intro b _
    exact List.not_mem_nil
  · intro b b' h0
    exact absurd rfl h0

variable {c c' : Cache}
variable {holders pins : Bp → Nat}

theorem Cache.Counted.update (h : c.Counted) (b : Bp) (hs : Shape s')
    (ho : ∀ b', b' ≠ b → (s'.buf b').refcnt = (c.s.buf b').refcnt)
    (hn : ∀ b', b' ≠ b → holders b' + pins b' = c.holders b' + c.pins b')
    (hb : (s'.buf b).refcnt = BitVec.ofNat 32 (holders b + pins b)) :
    Cache.Counted ⟨s', holders, pins⟩ := by
  refine ⟨hs, ?_⟩
  intro b'
  by_cases he : b' = b
  · subst he
    exact hb
  · rw [ho b' he, hn b' he]
    exact h.refcnt b'

theorem Cache.Counted.setRef (h : c.Counted) {r : BitVec 32} (b : Bp) (hs : Shape s')
    (hbuf : s'.buf = (c.s.setRef b r).buf)
    (hn : ∀ b', b' ≠ b → holders b' + pins b' = c.holders b' + c.pins b')
    (hr : r = BitVec.ofNat 32 (holders b + pins b)) : Cache.Counted ⟨s', holders, pins⟩ := by
  apply h.update b hs
  · intro b' he
    simp [hbuf, State.setRef, he]
  · exact hn
  · simp [hbuf, State.setRef, hr]

theorem ofNat_pred {n : Nat} (h : 0 < n) : BitVec.ofNat 32 (n - 1) = BitVec.ofNat 32 n - 1 := by
  obtain ⟨m, rfl⟩ := Nat.exists_eq_add_one_of_ne_zero (Nat.ne_of_gt h)
  rw [Nat.add_sub_cancel, BitVec.ofNat_add]
  exact (BitVec.add_sub_cancel _ _).symm

theorem ofNat_succ (n : Nat) : BitVec.ofNat 32 (n + 1) = BitVec.ofNat 32 n + 1 :=
  BitVec.ofNat_add ..

theorem Cache.Counted.step (h : c.Counted) (hs : Step c c') : c'.Counted := by
  cases hs with
  | @bget dev blockno b s' hr =>
    have hg := (bgetRef_spec h.shape).of_ok hr
    have hcount := h.refcnt b
    refine h.update b (h.shape.got hg) ?_ ?_ ?_
    · intro b' he
      cases hg <;> simp [he]
    · intro b' he
      simp [he]
    · rw [update_self, Nat.add_right_comm, ofNat_succ, ← hcount]
      cases hg with
      | hit => simp
      | recycled _ hfree => simp [hfree]
  | @brelse b s' hb hr =>
    have hcount := h.refcnt b
    obtain ⟨hsh, he⟩ := (bput_spec (E := fun _ => True) h.shape).of_ok hr
    have hbuf : s'.buf = (c.s.setRef b ((c.s.buf b).refcnt - 1)).buf := by rw [he]
    refine h.setRef b hsh hbuf ?_ ?_
    · intro b' he
      simp [he]
    · rw [hcount, update_self, ← ofNat_pred (by omega)]
      congr 1
      omega
  | @bpin b s' hr =>
    cases hr
    have hcount := h.refcnt b
    refine h.setRef b (h.shape.setRef _) rfl ?_ ?_
    · intro b' he
      simp [he]
    · rw [hcount, update_self, ← Nat.add_assoc, ofNat_succ]
  | @bunpin b s' hb hr =>
    cases hr
    have hcount := h.refcnt b
    refine h.setRef b (h.shape.setRef _) rfl ?_ ?_
    · intro b' he
      simp [he]
    · rw [hcount, update_self, ← ofNat_pred (by omega)]
      congr 1
      omega

theorem Cache.Reachable.counted (h : c.Reachable) : c.Counted := by
  obtain ⟨links, disk, hrun⟩ := h
  induction hrun with
  | refl => exact Cache.counted_start links disk
  | tail _ hs ih => exact ih.step hs

/-- In every state that sections reach from `binit`, the links are one ring through the head and
all buffers, no block has two buffers, a reference count is the number of references, and `bget`
comes back and takes the identity of no buffer that is referenced. -/
theorem buffer_cache_structure (h : c.Reachable) :
    (∃ l, l.Perm (List.finRange nbuf) ∧ c.s.links.Ring l) ∧
    (∀ b b', (c.s.buf b).dev ≠ 0 → (c.s.buf b').dev = (c.s.buf b).dev →
      (c.s.buf b').blockno = (c.s.buf b).blockno → b' = b) ∧
    (∀ b, (c.s.buf b).refcnt = BitVec.ofNat 32 (c.holders b + c.pins b)) ∧
    ∀ dev blockno, bgetRef dev blockno c.s ≠ .error .loops ∧
      ∀ b s', bgetRef dev blockno c.s = .ok (b, s') → ∀ b',
        ((s'.buf b').dev ≠ (c.s.buf b').dev ∨ (s'.buf b').blockno ≠ (c.s.buf b').blockno ∨
          (s'.buf b').valid ≠ (c.s.buf b').valid) → (c.s.buf b').refcnt = 0 := by
  have hc := h.counted
  refine ⟨hc.shape.ring, hc.shape.unique, hc.refcnt, ?_⟩
  intro dev blockno
  have hspec : Wp _ (bgetRef dev blockno) c.s _ := bgetRef_spec hc.shape
  refine ⟨?_, ?_⟩
  · intro he
    cases hspec.failed he
  · intro b s' hr b' hne
    by_cases hb : b' = b
    · subst hb
      cases hspec.of_ok hr with
      | hit => simp at hne
      | recycled _ hfree => exact hfree
    · cases hspec.of_ok hr <;> simp [hb] at hne

/-- Block 5 has been read and pinned. -/
theorem buffer_cache_structure_pinned : ∃ c : Cache, c.Reachable ∧
    ∃ b, (c.s.buf b).blockno = 5 ∧ c.holders b = 1 ∧ c.pins b = 1 ∧ (c.s.buf b).refcnt = 2 := by
  let c := Cache.start ⟨fun _ => none, fun _ => none⟩ fun _ _ => 0
  have hget : (match bgetRef rootdev 5 c.s with
      | .ok (b, s') => decide ((s'.buf b).blockno = 5)
      | .error _ => false) = true := by
    decide +kernel
  cases hr : bgetRef rootdev 5 c.s with
  | error =>
    rw [hr] at hget
    cases hget
  | ok q =>
    obtain ⟨b, s'⟩ := q
    rw [hr] at hget
    have hreach : Cache.Reachable ⟨s'.setRef b ((s'.buf b).refcnt + 1),
        update c.holders b (c.holders b + 1), update c.pins b (c.pins b + 1)⟩ :=
      ⟨_, _, .tail (.tail .refl (.bget hr)) (.bpin rfl)⟩
    refine ⟨_, hreach, b, ?_, ?_, ?_, ?_⟩
    · simpa [State.setRef] using of_decide_eq_true hget
    · simp [c, Cache.start]
    · simp [c, Cache.start]
    · rw [(buffer_cache_structure hreach).2.2.1 b]
      simp [c, Cache.start]

end Xv6.Bio
