import Xv6.Fs.Reach

/-!
# Block ownership

Between calls the bit map, the inodes and the indirect blocks agree on which blocks are used.
-/

namespace Xv6.Fs

open Multiset

variable {sb : Super} {img : State} {s : Sys} {i : Nat}

/-! ## The smallest image -/

def emptyImage (sb : Super) : State where
  bitmap b := decide (b ≤ sb.dataStart)
  dinode i :=
    if i = rootino then
      { type := .dir
        nlink := 1
        size := 2 * direntSize
        addrs := fun n => if n = 0 then sb.dataStart else 0 }
    else {}
  block b := if b = sb.dataStart then (newNode .dir 0 0 rootino rootino).data else fun _ => 0

theorem emptyImage_live : sb.Live (emptyImage sb).dinode i ↔ i = rootino := by
  unfold Super.Live emptyImage
  by_cases hi : i = rootino
  · subst hi
    simpa using ⟨le_rfl, sb.rootino_lt⟩
  · simp [hi]

attribute [local simp] emptyImage_live

theorem emptyImage_addr (p : Place) : addr sb (emptyImage sb).dinode (emptyImage sb).block p =
    if p = .slot rootino 0 then sb.dataStart else 0 := by
  have haddrs : ∀ n, ((emptyImage sb).dinode rootino).addrs n =
      if n = 0 then sb.dataStart else 0 := fun _ => rfl
  cases p with
  | slot j n =>
    by_cases hj : j = rootino
    · subst hj
      by_cases hn : n = 0 <;> simp [addr, hn, haddrs]
    · simp [addr, hj]
  | entry j =>
    by_cases hj : j = rootino
    · subst hj
      simp [addr, haddrs, ndirect]
    · simp [addr, hj]

theorem emptyImage_nodes : nodes sb (emptyImage sb) =
    Function.update (fun _ => {}) rootino (newNode .dir 0 0 rootino rootino) := by
  funext j
  by_cases hj : j = rootino
  · subst hj
    rw [Function.update_self, nodes, node_live (emptyImage_live.mpr rfl)]
    have hdata : ∀ x, (if x < 2 * direntSize then raw sb (emptyImage sb).dinode
        (emptyImage sb).block rootino x else 0) = (newNode .dir 0 0 rootino rootino).data x := by
      intro x
      split
      · next hx =>
        have hx : x < 1024 := by
          simp only [direntSize] at hx
          omega
        have h0 : x / bsize = 0 := Nat.div_eq_of_lt hx
        have hp : place rootino 0 = .slot rootino 0 := rfl
        have hm : x % bsize = x := Nat.mod_eq_of_lt hx
        rw [raw, h0, hp, emptyImage_addr, if_pos rfl, hm]
        simp [emptyImage]
      · next hx => exact (if_neg hx).symm
    have hsize : ((emptyImage sb).dinode rootino).size = 2 * direntSize := rfl
    rw [hsize, funext hdata]
    rfl
  · rw [Function.update_of_ne hj]
    exact if_neg (mt emptyImage_live.mp hj)

theorem emptyImage_image (hsize : sb.dataStart < sb.size) : Image sb (emptyImage sb) := by
  have hpos := sb.dataStart_pos
  have hdata : sb.Data sb.dataStart := by simp [Super.Data, Super.inData, hsize]
  refine ⟨⟨⟨?_, ?_, ?_⟩, ?_, ?_, ?_⟩, ?_, ?_, ?_⟩
  · grind [emptyImage_addr]
  · grind [emptyImage_addr]
  · intro b hb
    have hle : sb.dataStart ≤ b := by
      simp only [Super.Data, Super.inData, Bool.and_eq_true, decide_eq_true_eq] at hb
      exact hb.1
    constructor
    · intro hu
      have hb' : b ≤ sb.dataStart := by simpa [emptyImage] using hu
      exact ⟨.slot rootino 0, by rw [emptyImage_addr, if_pos rfl]; omega⟩
    · grind [emptyImage_addr, emptyImage]
  · intro b hb
    simpa [emptyImage] using hb.le
  · intro j hl bn hbn
    obtain rfl := emptyImage_live.mp hl
    have hbn : bn * 1024 < 32 := hbn
    obtain rfl : bn = 0 := by omega
    have hp : place rootino 0 = .slot rootino 0 := rfl
    rw [hp, emptyImage_addr, if_pos rfl]
    omega
  · intro j hl
    obtain rfl := emptyImage_live.mp hl
    have hsize : ((emptyImage sb).dinode rootino).size = 2 * direntSize := rfl
    rw [hsize]
    decide
  · intro j hl
    obtain rfl := emptyImage_live.mp hl
    have hnlink : ((emptyImage sb).dinode rootino).nlink = 1 := rfl
    rw [hnlink]
    decide
  · intro j hj
    rw [emptyImage_nodes] at hj ⊢
    by_cases hr : j = rootino
    · rw [hr, Function.update_self]
      exact newNode_isDir sb.rootino_lt sb.rootino_lt
    · grind
  · rw [emptyImage_nodes, Function.update_self]
    rfl

/-! ## Ownership -/

/-- Every data block is free or has one owner, and files have no holes. -/
structure BlocksOwned (sb : Super) (s : State) : Prop where
  used : ∀ b, sb.Data b → (s.bitmap b = true ↔ ∃! p, addr sb s.dinode s.block p = b)
  once : ∀ p q, addr sb s.dinode s.block p ≠ 0 →
    addr sb s.dinode s.block p = addr sb s.dinode s.block q → p = q
  area : ∀ p, addr sb s.dinode s.block p ≠ 0 → sb.Data (addr sb s.dinode s.block p)
  mapped : ∀ i, sb.Live s.dinode i → ∀ bn, bn < ((s.dinode i).size + bsize - 1) / bsize →
    addr sb s.dinode s.block (place i bn) ≠ 0

theorem Owned.blocksOwned {s : State} (h : Owned sb s.bitmap s.dinode s.block) :
    BlocksOwned sb s := by
  refine ⟨?_, h.placed.inj, h.placed.mem, ?_⟩
  · intro b hb
    rw [h.placed.iff b hb]
    constructor
    · rintro ⟨p, rfl⟩
      refine ⟨p, rfl, ?_⟩
      intro q hq
      refine (h.placed.inj p q ?_ hq.symm).symm
      intro h0
      exact sb.not_data_zero (h0 ▸ hb)
    · rintro ⟨p, hp, -⟩
      exact ⟨p, hp⟩
  · grind [h.mapped, Nat.le_div_iff_mul_le, bsize_pos, Nat.succ_mul]

/-- Take a reference to inode `i` and lock it, as a lookup does. -/
def lockInum (sb : Super) (i : Nat) : F Ip := do
  let ip ← iget i
  ilock sb ip
  return ip

theorem Inv.readi_eq (h : Inv sb s) (hl : sb.Live s.fs.dinode i) {ip : Ip} {t : State}
    (ht : lockInum sb i s.fs = .ok (ip, t)) (ok : Nat → Nat → Bool) (off n : Nat) :
    ∃ r, readi sb ip ok off n t = .ok (r, t) := by
  have hlock : Wp (fun _ => True) (lockInum sb i) s.fs fun ip t => Ok sb (ip ::ₘ s.held) t ∧
      (t.inode ip).valid = true := by
    refine (iget_spec (fun _ => trivial) h.held_ok ⟨hl.1, hl.2.1⟩).seq ?_
    rintro ip t ⟨ht, -, -⟩
    refine (ilock_spec ht (mem_cons_self ip _) fun _ => trivial).seq ?_
    rintro _ t' ⟨ht', -, hv⟩
    exact .pure ⟨ht', hv⟩
  obtain ⟨hok, hv⟩ := hlock.of_ok ht
  obtain ⟨r, t', hr, rfl, -⟩ := (readi_spec hok (mem_cons_self ip _) hv ok).total
  exact ⟨r, hr⟩

/-- Blocks have one owner in every state between calls. No call frees a free block or asks for a
block out of range, and reading allocates nothing. -/
theorem block_ownership (hi : Image sb img) (h : Reach sb img anyCall s) : BlocksOwned sb s.fs ∧
    (∀ (p : Slot) (c : Call), c.enabled s p = true →
      c.run sb p s ≠ .error .freeingFreeBlock ∧ c.run sb p s ≠ .error .bmapRange) ∧
    ∀ i ip t, sb.Live s.fs.dinode i → lockInum sb i s.fs = .ok (ip, t) →
      ∀ ok off n, ∃ r, readi sb ip ok off n t = .ok (r, t) := by
  have hinv := h.inv hi
  refine ⟨hinv.ok.ok.owned.blocksOwned, ?_, ?_⟩
  · intro p c he
    obtain ⟨hp, -⟩ := (Bool.and_eq_true _ _).mp he
    obtain ⟨cwd, hcwd⟩ := Option.isSome_iff_exists.mp hp
    have ha : Allows sb (fun e => e ≠ .freeingFreeBlock ∧ e ≠ .bmapRange) s := by
      refine ⟨?_, ?_, ?_, .inl ?_, .inl ?_⟩ <;> simp
    have hspec := call_spec hinv ha hcwd he
    exact ⟨fun hr => (hspec.failed hr).1 rfl, fun hr => (hspec.failed hr).2 rfl⟩
  · intro i ip t hl ht ok off n
    exact hinv.readi_eq hl ht ok off n

def smallSuper : Super := ⟨40, 12, 4, by decide, by decide, by decide, by decide, by decide⟩

/-- A directory and a file with three bytes have been made. -/
theorem block_ownership_small : ∃ s, Reach smallSuper (emptyImage smallSuper) anyCall s ∧
    ((s.fs.dinode 3).size = 3 ∧ s.fs.bitmap 6 = true) ∧ BlocksOwned smallSuper s.fs := by
  have hrun : (runCalls smallSuper (emptyImage smallSuper)
      [(initproc, .mkdir (some ⟨[97], by decide, by decide⟩)),
        (initproc, .open (some ⟨[120], by decide, by decide⟩) 0x202),
        (initproc, .write 0 3 (fun _ => some 1) 0)]).any
      (fun q => (q.2.fs.dinode 3).size = 3 ∧ q.2.fs.bitmap 6 = true) = true := by
    decide +kernel
  obtain ⟨⟨rets, s⟩, hs, hp⟩ := (Option.any_eq_true _ _).mp hrun
  have hreach := runCalls_reach hs
  exact ⟨s, hreach, by simpa using hp,
    (block_ownership (emptyImage_image (by decide)) hreach).1⟩

end Xv6.Fs
