import Xv6.Virtio.Driver

/-!
# The request protocol of the virtio disk

Each descriptor is free or belongs to one request, the rings are never overrun, each request is
completed once and after the device is done with it, and the driver does not panic.
-/

namespace Xv6.Virtio

open Function (update update_apply update_of_ne update_self)

variable {τ : Type} [DecidableEq τ] {s s' : State τ} {t : τ} {k : Nat}
variable {x : Taken}

/-! ## The device -/

omit [DecidableEq τ] in
theorem Inv.next (h : Inv s) (hne : s.seen ≠ s.disk.availIdx) :
    ∃ r, s.reqs[s.taken]? = some r ∧ s.disk.availRing (s.seen.toNat % num) = r.i0 ∧
      s.disk.readChain r.i0 =
        some { head := r.i0, op := r.op, buf := r.io.b, len := 1024, status := r.i0 } := by
  have hle : s.taken ≤ s.reqs.length := by simpa using h.device.avail.le
  have hlt : s.taken < s.reqs.length := by
    apply Nat.lt_of_le_of_ne hle
    intro he
    rw [h.device.seen, h.device.availIdx, he] at hne
    exact hne rfl
  have hget := List.getElem?_eq_getElem hlt
  generalize s.reqs[s.taken] = r at hget
  have hpending : s.taken ∉ s.done := fun hd => Nat.lt_irrefl _ (h.device.done_lt hd)
  obtain ⟨t, ht⟩ := h.requests.pending s.taken r hget hpending
  refine ⟨r, hget, ?_, (h.requests.ready t r (Pos.ready_of_waits ht)).readChain⟩
  rw [h.device.seen, RingBuf.toNat_mod num_dvd]
  apply h.device.avail.cell s.taken _ (Nat.le_refl _)
  rw [List.getElem?_map, hget]
  rfl

omit [DecidableEq τ] in
theorem Inv.take (h : Inv s) (hne : s.seen ≠ s.disk.availIdx)
    (hx : s.disk.readChain (s.disk.availRing (s.seen.toNat % num)) = some x) :
    Inv { s with
      seen := s.seen + 1
      active := update s.active s.taken (some x)
      taken := s.taken + 1 } := by
  obtain ⟨r, hget, hcell, hread⟩ := h.next hne
  have hlt : s.taken < s.reqs.length := (List.getElem?_eq_some_iff.mp hget).1
  rw [hcell, hread] at hx
  cases hx
  refine ⟨⟨h.locked.holder⟩, h.bufs.same (fun _ => rfl) rfl, h.chains.same (fun _ => rfl) rfl,
    h.requests.same (fun _ => rfl) h.requests.ready rfl rfl rfl rfl rfl rfl rfl, ?_, h.panic⟩
  have hnew : s.taken ∉ s.performed := fun hp => Nat.lt_irrefl _ (h.device.performed.2 _ hp)
  refine { h.device with
    avail := ?_, seen := ?_, performed := ⟨h.device.performed.1, ?_⟩, active := ?_ }
  · apply h.device.avail.pop
    rw [List.length_map]
    exact hlt
  · rw [h.device.seen, RingBuf.ofNat_add_one]
  · intro k hk
    exact Nat.lt_succ_of_lt (h.device.performed.2 k hk)
  · intro k x hx
    change update s.active s.taken _ k = some x at hx
    by_cases hk : k = s.taken
    · subst hk
      rw [update_self] at hx
      cases hx
      refine ⟨Nat.lt_succ_self _, fun hp => hnew (h.device.posted.2 _ hp), ?_, r, hget, rfl, rfl⟩
      exact ⟨fun hf => Bool.noConfusion hf, fun hp => absurd hp hnew⟩
    · have := h.device.active
      grind [Nat.lt_succ_of_lt, update_apply]

omit [DecidableEq τ] in
theorem Inv.perform (h : Inv s) (hx : s.active k = some x) (hf : x.finished = false) :
    Inv (s.perform k x) := by
  obtain ⟨hlt, hposted, hperf, r, hget, hhead, hstatus⟩ := h.device.active k x hx
  have hnew : k ∉ s.performed := by grind
  have hb : ∀ i, ((s.perform k x).disk.info i).b = (s.disk.info i).b := by
    intro i
    show (update s.disk.info x.status _ i).b = _
    grind
  refine ⟨⟨h.locked.holder⟩, h.bufs.same (fun _ => rfl) rfl, h.chains.same (fun _ => rfl) rfl,
    ?_, ?_, h.panic⟩
  · refine { h.requests with ready := ?_, fresh := ?_, held := ?_, status := ?_ }
    · intro t' r' ht'
      exact (h.requests.ready t' r' ht').congr (fun _ _ => rfl) rfl
    · intro t' r' ht'
      obtain ⟨h1, h2⟩ := h.requests.fresh t' r' ht'
      exact ⟨h1, (hb _).trans h2⟩
    · intro t' r' k' ht' hd
      obtain ⟨h1, h2⟩ := h.requests.held t' r' k' ht' hd
      exact ⟨h1, (hb _).trans h2⟩
    · intro k' r' hk' hp hd
      show (update s.disk.info x.status _ r'.i0).status = 0
      by_cases hi : r'.i0 = x.status
      · rw [hi, update_self]
      · rw [update_of_ne hi]
        rcases List.mem_append.mp hp with hp | hp
        · exact h.requests.status k' r' hk' hp hd
        · cases List.mem_singleton.mp hp
          cases hget.symm.trans hk'
          exact absurd hstatus.symm hi
  · refine { h.device with performed := ⟨?_, ?_⟩, posted := ⟨h.device.posted.1, ?_⟩, active := ?_ }
    · exact nodup_concat h.device.performed.1 hnew
    · intro k' hk'
      rcases List.mem_append.mp hk' with hk' | hk'
      · exact h.device.performed.2 k' hk'
      · cases List.mem_singleton.mp hk'
        exact hlt
    · intro k' hk'
      exact List.mem_append_left _ (h.device.posted.2 k' hk')
    · intro k' x' hx'
      change update s.active k _ k' = some x' at hx'
      by_cases hk : k' = k
      · subst hk
        rw [update_self] at hx'
        cases hx'
        refine ⟨hlt, hposted, ?_, r, hget, hhead, hstatus⟩
        exact ⟨fun _ => List.mem_append_right _ (List.mem_singleton_self _), fun _ => rfl⟩
      · rw [update_of_ne hk] at hx'
        obtain ⟨h1, h2, h3, h4⟩ := h.device.active k' x' hx'
        refine ⟨h1, h2, h3.trans ?_, h4⟩
        show k' ∈ s.performed ↔ k' ∈ s.performed ++ [k]
        simp [hk]

omit [DecidableEq τ] in
theorem Inv.post (h : Inv s) (hx : s.active k = some x) (hf : x.finished = true) :
    Inv (s.post k x) := by
  obtain ⟨hlt, hposted, hperf, r, hget, hhead, hstatus⟩ := h.device.active k x hx
  have hle : s.handled ≤ s.posted.length := by simpa using h.device.used.le
  have hdone : (s.post k x).done = s.done := List.take_append_of_le_length hle
  have htaken : s.taken ≤ s.reqs.length := by simpa using h.device.avail.le
  have hnodup : (s.posted ++ [k]).Nodup := nodup_concat h.device.posted.1 hposted
  -- what is on the used ring and not handled is pending, and so is this request
  have hroom : s.posted.length < s.handled + num := by
    have hpending := h.pending_le (l := (s.posted ++ [k]).drop s.handled)
      (hnodup.sublist (List.drop_sublist _ _)) ?_
    · grind
    · intro k' hk'
      refine ⟨?_, ?_⟩
      · grind [h.device.performed, h.device.posted, List.mem_of_mem_drop, Nat.lt_of_lt_of_le]
      · intro hd
        rw [← hdone] at hd
        exact List.disjoint_take_drop hnodup (Nat.le_refl _) hd hk'
  refine ⟨⟨h.locked.holder⟩, h.bufs.same (fun _ => rfl) rfl, h.chains.same (fun _ => rfl) rfl,
    h.requests.same (fun _ => rfl) ?_ rfl rfl rfl rfl hdone rfl rfl, ?_, h.panic⟩
  · intro t' r' ht'
    exact (h.requests.ready t' r' ht').congr (fun _ _ => rfl) rfl
  · refine { h.device with used := ?_, usedEnd := ?_, posted := ⟨hnodup, ?_⟩, active := ?_ }
    · have hlen : (s.posted.map s.head).length = s.posted.length := List.length_map ..
      show RingBuf num (update s.disk.usedRing (s.disk.usedEnd.toNat % num) x.head)
        ((s.posted ++ [k]).map s.head) s.handled
      rw [List.map_append, h.device.usedEnd, RingBuf.toNat_mod num_dvd, ← hlen, List.map_singleton,
        State.head_eq hget, hhead]
      apply h.device.used.push
      rw [hlen]
      exact hroom
    · show s.disk.usedEnd + 1 = BitVec.ofNat 16 (s.posted ++ [k]).length
      rw [h.device.usedEnd, RingBuf.ofNat_add_one, List.length_append, List.length_singleton]
    · intro k' hk'
      rcases List.mem_append.mp hk' with hk' | hk'
      · exact h.device.posted.2 k' hk'
      · cases List.mem_singleton.mp hk'
        exact hperf.mp hf
    · intro k' x' hx'
      change update s.active k none k' = some x' at hx'
      by_cases hk : k' = k
      · grind
      · rw [update_of_ne hk] at hx'
        obtain ⟨h1, h2, h3⟩ := h.device.active k' x' hx'
        refine ⟨h1, ?_, h3⟩
        show k' ∉ s.posted ++ [k]
        simp [hk, h2]

/-! ## Runs -/

/-- A step of the thread that has the lock. -/
theorem Inv.exec (h : Inv s) (hs : s.exec t = some s') : Inv s' := by
  unfold State.exec at hs
  generalize hpos : s.pos t = x at hs
  cases x with
  | idle | allocSleep | waitSleep => cases hs
  | alloc io =>
    have hspec := s.disk.alloc3Desc_spec
    generalize s.disk.alloc3Desc = y at hs hspec
    cases hspec with
    | got i0 i1 i2 hnodup hfree =>
      cases hs
      exact h.alloc (r := ⟨io, i0, i1, i2⟩) hpos hnodup hfree
    | none _ hdesc =>
      cases hs
      exact h.allocSleep hpos hdesc
  | format =>
    cases hs
    exact h.format hpos
  | enter =>
    cases hs
    exact h.enter hpos
  | publish =>
    cases hs
    exact h.publish hpos
  | wait =>
    dsimp only at hs
    split at hs
    · cases hs
      exact h.silent (.inl (h.holds hpos rfl)) hpos rfl rfl rfl
    · next hb =>
      obtain ⟨d, hd, hinv⟩ := h.finish hpos (by simpa using hb)
      rw [hd] at hs
      cases hs
      exact hinv
  | intr =>
    dsimp only at hs
    split at hs
    · have := h.complete
      grind
    · cases hs
      have hinv := h.silent (x := .leave) (.inl (h.holds hpos rfl)) hpos rfl rfl rfl
      rw [show (if Pos.leave.holds then some t else none) = s.lk from (h.holds hpos rfl).symm] at hinv
      exact hinv
  | leave =>
    cases hs
    exact h.silent (.inl (h.holds hpos rfl)) hpos rfl rfl rfl

theorem Inv.wake (h : Inv s) (hlk : s.lk = none) (hs : s.wake t = some s') : Inv s' := by
  unfold State.wake at hs
  generalize hpos : s.pos t = x at hs
  cases x with
  | allocSleep | waitSleep =>
    cases hs
    exact h.silent (.inr hlk) hpos rfl rfl rfl
  | _ => cases hs

theorem Inv.step (h : Inv s) {m : Move τ} (hs : s.step m = some s') : Inv s' := by
  cases m with
  | rw =>
    unfold State.step at hs
    dsimp only at hs
    split at hs
    · next hlk hpos =>
      split at hs
      · cases hs
      · next hbusy =>
        cases hs
        exact h.rw hlk hpos (by simpa using hbusy)
    · cases hs
  | intr =>
    unfold State.step at hs
    dsimp only at hs
    split at hs
    · next hlk hpos =>
      cases hs
      exact h.silent (.inr hlk) hpos rfl rfl rfl
    · cases hs
  | exec => exact h.exec hs
  | wake =>
    unfold State.step at hs
    dsimp only at hs
    split at hs
    · next hlk => exact h.wake hlk hs
    · cases hs
  | take =>
    unfold State.step at hs
    dsimp only at hs
    split at hs
    · next hne =>
      obtain ⟨x, hx, rfl⟩ := Option.map_eq_some_iff.mp hs
      exact h.take hne hx
    · cases hs
  | perform =>
    obtain ⟨x, hx, hs⟩ := Option.bind_eq_some_iff.mp hs
    split at hs
    · cases hs
    · next hf =>
      cases hs
      exact h.perform hx (by simpa using hf)
  | post =>
    obtain ⟨x, hx, hs⟩ := Option.bind_eq_some_iff.mp hs
    split at hs
    · next hf =>
      cases hs
      exact h.post hx hf
    · cases hs

omit [DecidableEq τ] in
theorem inv_init : Inv ({} : State τ) := by
  refine ⟨⟨?_⟩, ⟨?_, ?_⟩, ⟨?_, ?_, ?_, ?_⟩, ⟨?_, ?_, ?_, ?_, ?_, ?_, ?_, ?_, ?_, ?_⟩,
    ⟨.empty _ _, rfl, rfl, .empty _ _, rfl, rfl, ?_, ?_, ?_⟩, rfl⟩
  all_goals simp [Pos.holds, Pos.io?, Pos.req?, Pos.ready?, Pos.fresh?, Pos.entered?, Pos.waits?]

theorem Reachable.inv (h : Reachable s) : Inv s := by
  induction h with
  | init => exact inv_init
  | step _ hs ih => exact ih.step hs

/-- In every state: a descriptor is free and in no chain, or in the chain of exactly one call, and
chains have three descriptors; the entries of the available ring that the device has not taken are
those that were written; the device performs no request twice and puts none twice on the used ring,
and none there before it has performed it; while a call waits, `b->disk` is clear exactly if
`virtio_disk_intr` has handled its request, which the device has put on the used ring; no call
finishes before or a second time; and there was no panic. -/
theorem virtio_request_protocol (h : Reachable s) :
    (∀ i, i < num → s.disk.free i = true ∧ (∀ t r, (s.pos t).req? = some r → i ∉ r.chain) ∨
      s.disk.free i = false ∧ ∃! t, ∃ r, (s.pos t).req? = some r ∧ i ∈ r.chain) ∧
    (∀ t r, (s.pos t).req? = some r → r.chain.Nodup) ∧
    (∀ k r, s.taken ≤ k → s.reqs[k]? = some r → s.disk.availRing (k % num) = r.i0) ∧
    s.performed.Nodup ∧ s.posted.Nodup ∧ (∀ k ∈ s.posted, k ∈ s.performed) ∧
    (∀ t r k, (s.pos t).waits? = some (r, k) → s.reqs[k]? = some r ∧
      (s.disk.bdisk r.io.b = false ↔ k ∈ s.posted.take s.handled)) ∧
    s.finished.Nodup ∧ (∀ k ∈ s.finished, k ∈ s.posted.take s.handled) ∧
    s.panic = none := by
  obtain ⟨-, -, hchains, hrequests, hdevice, hpanic⟩ := h.inv
  refine ⟨?_, hchains.nodup, ?_, hdevice.performed.1, hdevice.posted.1, hdevice.posted.2, ?_,
    hrequests.nodup, hrequests.finished, hpanic⟩
  · intro i hi
    cases hfree : s.disk.free i with
    | true => grind [hchains.chain]
    | false =>
      obtain ⟨t, r, ht, hmem⟩ := hchains.owned i hi hfree
      refine .inr ⟨rfl, t, ⟨r, ht, hmem⟩, ?_⟩
      intro t' ht'
      obtain ⟨r', ht', hmem'⟩ := ht'
      exact hchains.alone t' t r' r i ht' ht hmem' hmem
  · intro k r hk hget
    apply hdevice.avail.cell k _ hk
    rw [List.getElem?_map, hget]
    rfl
  · intro t r k ht
    refine ⟨(hrequests.waits t r k ht).1, ?_⟩
    constructor
    · exact h.inv.served ht
    · exact hrequests.released t r k ht

/-- A request is made, performed and completed. -/
theorem virtio_request_protocol_one : ∃ s : State (Fin 2), Reachable s ∧ s.finished = [0] ∧
    (∀ k ∈ s.finished, k ∈ s.posted.take s.handled) ∧ s.panic = none := by
  let oneRequest : List (Move (Fin 2)) :=
    [.rw 0 ⟨3, 5, false⟩, .exec 0, .exec 0, .exec 0, .exec 0, .exec 0, .take, .perform 0, .post 0,
      .intr 1, .exec 1, .exec 1, .exec 1, .wake 0, .exec 0]
  obtain ⟨s, hs⟩ : ∃ s, ({} : State (Fin 2)).play oneRequest = some s :=
    Option.isSome_iff_exists.mp (by decide +kernel)
  have h : Reachable s := Reachable.init.play hs
  have hfinished : (({} : State (Fin 2)).play oneRequest).map State.finished = some [0] := by
    decide +kernel
  rw [hs] at hfinished
  obtain ⟨-, -, -, -, -, -, -, -, hserved, hpanic⟩ := virtio_request_protocol h
  exact ⟨s, h, Option.some.inj hfinished, hserved, hpanic⟩

end Xv6.Virtio
