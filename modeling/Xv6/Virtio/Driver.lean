import Mathlib.Data.List.Perm.Subperm
import Xv6.Virtio.Invariant

/-!
# The steps of the driver of the virtio disk

Each step of `virtio_disk_rw` and `virtio_disk_intr` keeps the invariant. The rings have room since
requests that are not done have different descriptors.
-/

namespace Xv6.Virtio

open Function (update update_apply update_of_ne update_self)
open Pos (io_of_req ready_of_fresh req_of_ready req_of_waits)

variable {τ : Type} [DecidableEq τ] {s s' : State τ} {t : τ} {x y : Pos} {k : Nat} {r r' : Req}
variable {l : List Nat}
variable {desc : Nat → Desc}

attribute [local simp] Req.chain Disk.format

/-! ## Steps outside the loops -/

theorem Inv.silent (h : Inv s) (hlk : s.lk = some t ∨ s.lk = none) (hpos : s.pos t = y)
    (hio : x.io? = y.io?) (hreq : x.req? = y.req?) (hview : x.view = y.view) :
    Inv { s.goto t x with lk := if x.holds then some t else none } := by
  refine ⟨h.locked.goto hlk rfl rfl, h.bufs.same (update_view _ hpos hio) rfl,
    h.chains.same (update_view _ hpos hreq) rfl, ?_, ?_, h.panic⟩
  · exact h.requests.same (update_view _ hpos hview) h.requests.ready rfl rfl rfl rfl rfl rfl rfl
  · exact { h.device with }

theorem Inv.rw {io : Io} (h : Inv s) (hlk : s.lk = none) (hpos : s.pos t = .idle)
    (hbusy : s.busy io.b = false) :
    Inv { s.goto t (.alloc io) with
      lk := some t
      busy := update s.busy io.b true } := by
  have hnone : ∀ t', t' ≠ t → ∀ io', (s.pos t').io? = some io' → io'.b ≠ io.b := by
    grind [h.bufs.busy]
  refine ⟨h.locked.goto (.inr hlk) rfl rfl, ⟨?_, ?_⟩,
    h.chains.same (update_view _ hpos rfl) rfl, ?_, ?_, h.panic⟩
  · dsimp only [State.goto]
    grind [h.bufs.busy, update_apply, Pos.io?]
  · dsimp only [State.goto]
    grind [h.bufs.alone, update_apply, Pos.io?]
  · exact h.requests.same (update_view _ hpos rfl) h.requests.ready rfl rfl rfl rfl rfl
      rfl rfl
  · exact { h.device with }

/-! ## Descriptors are allocated and freed -/

theorem Inv.allocSleep {io : Io} (h : Inv s) (hpos : s.pos t = .alloc io)
    (hdesc : ∀ i, s.disk.free i = false → desc i = s.disk.desc i) :
    Inv { s.goto t (.allocSleep io) with disk := { s.disk with desc := desc }, lk := none } := by
  have hlk := h.holds hpos rfl
  refine ⟨h.locked.goto (.inl hlk) rfl rfl, h.bufs.same (update_view _ hpos rfl) rfl,
    h.chains.same (update_view _ hpos rfl) rfl, ?_, ?_, h.panic⟩
  · refine h.requests.same (update_view _ hpos rfl) ?_ rfl rfl rfl rfl rfl rfl rfl
    intro t' r ht'
    refine (h.requests.ready t' r ht').congr ?_ rfl
    intro i hi
    exact hdesc i (h.chains.chain t' r (req_of_ready ht') i hi).2
  · exact { h.device with }

theorem Inv.alloc (h : Inv s) (hpos : s.pos t = .alloc r.io) (hnodup : r.chain.Nodup)
    (hfree : ∀ i ∈ r.chain, i < num ∧ s.disk.free i = true) :
    Inv { s.goto t (.format r) with
      disk := { s.disk with free := fun i => if i ∈ r.chain then false else s.disk.free i } } := by
  have hlk := h.holds hpos rfl
  have hnew : ∀ t' r' i, (s.pos t').req? = some r' → i ∈ r'.chain → i ∉ r.chain := by
    grind [h.chains.chain]
  refine ⟨h.locked.goto (.inl hlk) rfl hlk, h.bufs.same (update_view _ hpos rfl) rfl,
    ⟨?_, ?_, ?_, ?_⟩, ?_, ?_, h.panic⟩
  · dsimp only [State.goto]
    grind [h.chains.nodup, update_apply, Pos.req?]
  · dsimp only [State.goto]
    grind [h.chains.chain, update_apply, Pos.req?]
  · dsimp only [State.goto]
    grind [h.chains.alone, update_apply, Pos.req?]
  · intro i hi hf
    by_cases hr : i ∈ r.chain
    · exact ⟨t, r, by simp [State.goto, Pos.req?], hr⟩
    · obtain ⟨t', r', ht', hi'⟩ := h.chains.owned i hi ((if_neg hr).symm.trans hf)
      refine ⟨t', r', ?_, hi'⟩
      have hne : t' ≠ t := by
        rintro rfl
        rw [hpos] at ht'
        cases ht'
      show (update s.pos t _ t').req? = some r'
      rw [update_of_ne hne]
      exact ht'
  · refine h.requests.same (update_view _ hpos rfl) ?_ rfl rfl rfl rfl rfl rfl rfl
    intro t' r' ht'
    exact (h.requests.ready t' r' ht').congr (fun _ _ => rfl) rfl
  · exact { h.device with }

omit [DecidableEq τ] in
theorem Inv.other {t' : τ} (h : Inv s) (ht : (s.pos t).req? = some r)
    (ht' : (s.pos t').req? = some r') (hne : t' ≠ t) :
    (∀ i ∈ r'.chain, i ∉ r.chain) ∧ r'.i0 ≠ r.i0 ∧ r'.io.b ≠ r.io.b := by
  have hdisj : ∀ i ∈ r'.chain, i ∉ r.chain := fun i hi' hi =>
    hne (h.chains.alone t' t r' r i ht' ht hi' hi)
  refine ⟨hdisj, ?_, ?_⟩
  · intro he
    exact hdisj r'.i0 (by simp) (by simp [he])
  · have := h.bufs.alone
    grind [io_of_req]

theorem Inv.format (h : Inv s) (hpos : s.pos t = .format r) :
    Inv { s.goto t (.enter r) with disk := s.disk.format r } := by
  have hlk := h.holds hpos rfl
  have hreq : (s.pos t).req? = some r := by rw [hpos]; rfl
  refine ⟨h.locked.goto (.inl hlk) rfl hlk, h.bufs.same (update_view _ hpos rfl) rfl,
    h.chains.same (update_view _ hpos rfl) rfl, ?_, { h.device with }, h.panic⟩
  refine h.requests_move hlk rfl ⟨?_, ?_, nofun, nofun, nofun, nofun⟩ hpos nofun ?_
    (fun _ _ => id) (fun _ _ => .inl) rfl rfl (fun _ => .inl) h.requests.nodup
  · intro r' hr'
    cases hr'
    exact s.disk.format_formatted (h.chains.nodup t r hreq)
  · intro r' hr'
    cases hr'
    exact ⟨by simp, by simp⟩
  · intro t' r' hne ht'
    obtain ⟨hdisj, hi, hb⟩ := h.other hreq (req_of_ready ht') hne
    refine ⟨fun i hi' => s.disk.format_desc (hdisj i hi'), ?_, ?_, ?_⟩
    · simp [hi]
    · simp [hi]
    · simp [hb]

/-! ## The rings have room -/

omit [DecidableEq τ] in
theorem Inv.heads (h : Inv s) (hl : l.Nodup) (hp : ∀ k ∈ l, k < s.reqs.length ∧ k ∉ s.done) :
    (l.map s.head).Nodup ∧
    ∀ i ∈ l.map s.head, ∃ t r k, (s.pos t).waits? = some (r, k) ∧ r.i0 = i := by
  have hwaits : ∀ k ∈ l, ∃ t r, (s.pos t).waits? = some (r, k) ∧ s.head k = r.i0 := by
    intro k hk
    obtain ⟨hlt, hd⟩ := hp k hk
    have hget := List.getElem?_eq_getElem hlt
    obtain ⟨t, ht⟩ := h.requests.pending k _ hget hd
    exact ⟨t, _, ht, State.head_eq hget⟩
  refine ⟨?_, ?_⟩
  · apply List.Nodup.map_on _ hl
    intro k hk k' hk' he
    obtain ⟨t, r, ht, hh⟩ := hwaits k hk
    obtain ⟨t', r', ht', hh'⟩ := hwaits k' hk'
    have hsame : t = t' := by
      apply h.chains.alone t t' r r' r.i0 (req_of_waits ht)
        (req_of_waits ht') (by simp)
      rw [← hh, he, hh']
      simp
    subst hsame
    rw [ht] at ht'
    cases ht'
    rfl
  · grind

theorem length_le_num (hl : l.Nodup) (hlt : ∀ i ∈ l, i < num) : l.length ≤ num := by
  have hsub : l ⊆ List.range num := fun i hi => List.mem_range.mpr (hlt i hi)
  have := (List.subperm_of_subset hl hsub).length_le
  rwa [List.length_range] at this

omit [DecidableEq τ] in
theorem Inv.head_lt (h : Inv s) (ht : (s.pos t).req? = some r) : r.i0 < num :=
  (h.chains.chain t r ht r.i0 (by simp)).1

omit [DecidableEq τ] in
theorem Inv.pending_le (h : Inv s) (hl : l.Nodup) (hp : ∀ k ∈ l, k < s.reqs.length ∧ k ∉ s.done) :
    l.length ≤ num := by
  obtain ⟨hnodup, hmem⟩ := h.heads hl hp
  rw [← List.length_map s.head]
  apply length_le_num hnodup
  intro i hi
  obtain ⟨t, r, k, ht, rfl⟩ := hmem i hi
  exact h.head_lt (req_of_waits ht)

omit [DecidableEq τ] in
theorem Device.done_lt (h : Device s) (hk : k ∈ s.done) : k < s.taken :=
  h.performed.2 k (h.posted.2 k (List.mem_of_mem_take hk))

omit [DecidableEq τ] in
theorem Inv.avail_room (h : Inv s) (ht : (s.pos t).fresh? = some r) :
    s.reqs.length < s.taken + num := by
  have hreq := req_of_ready (ready_of_fresh ht)
  obtain ⟨hnodup, hmem⟩ := h.heads (List.nodup_range' (s := s.taken)
    (n := s.reqs.length - s.taken)) (by
      intro k hk
      rw [List.mem_range'_1] at hk
      refine ⟨by omega, ?_⟩
      intro hd
      have := h.device.done_lt hd
      omega)
  have hlen := length_le_num (l := r.i0 :: (List.range' s.taken (s.reqs.length - s.taken)).map s.head)
    ?_ ?_
  · grind
  · refine List.nodup_cons.mpr ⟨?_, hnodup⟩
    intro hi
    obtain ⟨t', r', k, ht', he⟩ := hmem _ hi
    have hsame := h.chains.alone t' t r' r r.i0 (req_of_waits ht') hreq
      (by simp [← he]) (by simp)
    subst hsame
    rw [Pos.waits_of_fresh ht] at ht'
    cases ht'
  · intro i hi
    rcases List.mem_cons.mp hi with rfl | hi
    · exact h.head_lt hreq
    · obtain ⟨t', r', k, ht', rfl⟩ := hmem _ hi
      exact h.head_lt (req_of_waits ht')

/-! ## Requests are made available -/

theorem num_dvd : num ∣ 2 ^ 16 := by decide

theorem Inv.enter (h : Inv s) (hpos : s.pos t = .enter r) :
    Inv { s.goto t (.publish r) with disk := s.disk.enter r } := by
  have hlk := h.holds hpos rfl
  have hroom := h.avail_room (t := t) (r := r) (by rw [hpos]; rfl)
  have hcell : s.disk.availIdx.toNat % num = s.reqs.length % num := by
    rw [h.device.availIdx, RingBuf.toNat_mod num_dvd]
  refine ⟨h.locked.goto (.inl hlk) rfl hlk, h.bufs.same (update_view _ hpos rfl) rfl,
    h.chains.same (update_view _ hpos rfl) rfl, ?_, { h.device with avail := ?_ }, h.panic⟩
  · have hfresh : (s.pos t).fresh? = some r := by rw [hpos]; rfl
    refine h.requests_move hlk rfl ⟨?_, ?_, ?_, nofun, nofun, nofun⟩ hpos nofun
      (fun _ _ _ _ => ⟨fun _ _ => rfl, rfl, rfl, rfl⟩)
      (fun _ _ => id) (fun _ _ => .inl) rfl rfl (fun _ => .inl) h.requests.nodup
    · intro r' hr'
      cases hr'
      exact (h.requests.ready t r (ready_of_fresh hfresh)).congr (fun _ _ => rfl) rfl
    · intro r' hr'
      cases hr'
      exact { h.requests.fresh t r hfresh with }
    · intro r' hr'
      cases hr'
      show update s.disk.availRing (s.disk.availIdx.toNat % num) r.i0
        (s.reqs.length % num) = r.i0
      rw [hcell, update_self]
  · show RingBuf num (update s.disk.availRing (s.disk.availIdx.toNat % num) r.i0) _ _
    rw [hcell]
    have hlen : (s.reqs.map Req.i0).length = s.reqs.length := List.length_map ..
    rw [← hlen] at hroom ⊢
    exact h.device.avail.write hroom

omit [DecidableEq τ] in
theorem State.head_append (hs : s'.reqs = s.reqs ++ [r]) (hk : k < s.reqs.length) :
    s'.head k = s.head k := by
  unfold State.head
  rw [hs, List.getElem?_append_left hk]

omit [DecidableEq τ] in
theorem getElem?_append_of {l : List Req} (hk : l[k]? = some r') : (l ++ [r])[k]? = some r' := by
  rw [List.getElem?_append_left (List.getElem?_eq_some_iff.mp hk).1]
  exact hk

theorem Inv.publish (h : Inv s) (hpos : s.pos t = .publish r) :
    Inv { s.goto t (.wait r s.reqs.length) with
      disk := s.disk.publish
      reqs := s.reqs ++ [r] } := by
  have hlk := h.holds hpos rfl
  have hroom := h.avail_room (t := t) (r := r) (by rw [hpos]; rfl)
  have hle : s.taken ≤ s.reqs.length := by simpa using h.device.avail.le
  have hfresh : (s.pos t).fresh? = some r := by rw [hpos]; rfl
  have hlast : (s.reqs ++ [r])[s.reqs.length]? = some r := by simp
  have hnew : s.reqs.length ∉ s.done := by
    intro hd
    have := h.device.done_lt hd
    omega
  refine ⟨h.locked.goto (.inl hlk) rfl hlk, h.bufs.same (update_view _ hpos rfl) rfl,
    h.chains.same (update_view _ hpos rfl) rfl, ?_, ?_, h.panic⟩
  · refine h.requests_move hlk rfl ⟨?_, nofun, nofun, ?_, ?_, ?_⟩ hpos nofun
      (fun _ _ _ _ => ⟨fun _ _ => rfl, rfl, rfl, rfl⟩)
      (fun _ _ => getElem?_append_of) ?_ rfl rfl (fun _ => .inl) h.requests.nodup
    · intro r' hr'
      cases hr'
      exact (h.requests.ready t r (ready_of_fresh hfresh)).congr (fun _ _ => rfl) rfl
    · intro r' k hr'
      cases hr'
      exact ⟨hlast, fun hf => hnew (h.requests.finished _ hf)⟩
    · intro r' k hr' hd
      cases hr'
      exact { h.requests.fresh t r hfresh with }
    · intro r' k hr' hd
      cases hr'
      exact absurd hd hnew
    · intro k r' hk
      by_cases hlt : k < s.reqs.length
      · exact .inl ((List.getElem?_append_left hlt).symm.trans hk)
      · have hk' : k = s.reqs.length := by
          have := (List.getElem?_eq_some_iff.mp hk).1
          simp only [List.length_append, List.length_singleton] at this
          omega
        subst hk'
        cases hlast.symm.trans hk
        exact .inr rfl
  · refine { h.device with avail := ?_, availIdx := ?_, used := ?_, active := ?_ }
    · have hlen : (s.reqs.map Req.i0).length = s.reqs.length := List.length_map ..
      rw [List.map_append]
      apply h.device.avail.enter (by rw [hlen]; exact hroom)
      rw [hlen]
      exact h.requests.entered t r (by rw [hpos]; rfl)
    · show s.disk.availIdx + 1 = BitVec.ofNat 16 (s.reqs ++ [r]).length
      rw [h.device.availIdx, RingBuf.ofNat_add_one, List.length_append, List.length_singleton]
    · have hmap : s.posted.map (State.head { s.goto t (.wait r s.reqs.length) with
          disk := s.disk.publish
          reqs := s.reqs ++ [r] }) = s.posted.map s.head := by
        apply List.map_congr_left
        intro k hk
        apply State.head_append rfl
        exact Nat.lt_of_lt_of_le (h.device.performed.2 k (h.device.posted.2 k hk)) hle
      show RingBuf num s.disk.usedRing (s.posted.map _) s.handled
      rw [hmap]
      exact h.device.used
    · intro k x hx
      obtain ⟨h1, h2, h3, r', h4, h5⟩ := h.device.active k x hx
      exact ⟨h1, h2, h3, r', getElem?_append_of h4, h5⟩

/-! ## Requests are completed -/

theorem nodup_concat (hl : l.Nodup) (hk : k ∉ l) : (l ++ [k]).Nodup := by
  rw [List.nodup_append]
  refine ⟨hl, List.nodup_singleton k, ?_⟩
  intro a ha b hb he
  cases List.mem_singleton.mp hb
  exact hk (he ▸ ha)

omit [DecidableEq τ] in
theorem Inv.served (h : Inv s) (hw : (s.pos t).waits? = some (r, k))
    (hb : s.disk.bdisk r.io.b = false) : k ∈ s.done := by
  by_contra hd
  have := (h.requests.held t r k hw hd).bdisk
  rw [hb] at this
  cases this

theorem Bufs.leave (h : Bufs s) (hreq : (s.pos t).req? = some r)
    (hpos : s'.pos = update s.pos t .leave) (hbusy : s'.busy = update s.busy r.io.b false) :
    Bufs s' := by
  refine ⟨?_, ?_⟩
  · intro t' io' hio'
    rw [hpos] at hio'
    rw [hbusy]
    have := h.alone
    have := h.busy
    grind [io_of_req, update_apply, Pos.io?]
  · intro t1 t2 io1 io2 h1 h2
    rw [hpos] at h1 h2
    grind [h.alone, update_apply, Pos.io?]

theorem Chains.leave (h : Chains s) (hreq : (s.pos t).req? = some r)
    (hpos : s'.pos = update s.pos t .leave)
    (hfree : ∀ i, s'.disk.free i = if i ∈ r.chain then true else s.disk.free i) : Chains s' := by
  refine ⟨?_, ?_, ?_, ?_⟩
  · intro t' r' ht'
    rw [hpos] at ht'
    grind [h.nodup, update_apply, Pos.req?]
  · intro t' r' ht' i hi
    rw [hpos] at ht'
    have := h.chain
    have := h.alone
    grind [update_apply, Pos.req?]
  · intro t1 t2 r1 r2 i h1 h2
    rw [hpos] at h1 h2
    grind [h.alone, update_apply, Pos.req?]
  · intro i hi hf
    rw [hfree] at hf
    by_cases hr : i ∈ r.chain
    · rw [if_pos hr] at hf
      cases hf
    · rw [if_neg hr] at hf
      obtain ⟨t', r', ht', hi'⟩ := h.owned i hi hf
      have hne : t' ≠ t := by grind
      refine ⟨t', r', ?_, hi'⟩
      rw [hpos, update_of_ne hne]
      exact ht'

theorem Inv.requests_leave {free busy : Nat → Bool} (h : Inv s) (hlk : s.lk = some t)
    (hw : (s.pos t).waits? = some (r, k)) (hdone : k ∈ s.done)
    (hdesc : ∀ i, i ∉ r.chain → desc i = s.disk.desc i) :
    Requests { s.goto t .leave with
      disk := { s.disk with
        desc := desc
        free := free
        info := update s.disk.info r.i0 { s.disk.info r.i0 with b := none } }
      busy := busy
      finished := s.finished ++ [k] } := by
  have hreq := req_of_waits hw
  refine h.requests_move hlk rfl ⟨nofun, nofun, nofun, nofun, nofun, nofun⟩ rfl ?_ ?_
    (fun _ _ => id) (fun _ _ => .inl) rfl rfl ?_ ?_
  · intro r' k' hr'
    cases hw.symm.trans hr'
    exact hdone
  · intro t' r' hne ht'
    obtain ⟨hdisj, hi, -⟩ := h.other hreq (req_of_ready ht') hne
    exact ⟨fun i hi' => hdesc i (hdisj i hi'), rfl, update_of_ne hi .., rfl⟩
  · intro k' hk'
    rcases List.mem_append.mp hk' with hk' | hk'
    · exact .inl hk'
    · cases List.mem_singleton.mp hk'
      exact .inr ⟨r, hw⟩
  · exact nodup_concat h.requests.nodup (h.requests.waits t r k hw).2

theorem Inv.finish (h : Inv s) (hpos : s.pos t = .wait r k) (hb : s.disk.bdisk r.io.b = false) :
    ∃ d, s.disk.finish r = .ok d ∧ Inv { s.goto t .leave with
        disk := d
        busy := update s.busy r.io.b false
        finished := s.finished ++ [k] } := by
  have hlk := h.holds hpos rfl
  have hreq : (s.pos t).req? = some r := by rw [hpos]; rfl
  have hw : (s.pos t).waits? = some (r, k) := by rw [hpos]; rfl
  have hready := h.requests.ready t r (Pos.ready_of_waits hw)
  obtain ⟨desc, hok, hdesc⟩ := Formatted.freeChain
    (d := { s.disk with info := update s.disk.info r.i0 { s.disk.info r.i0 with b := none } })
    (hready.congr (fun _ _ => rfl) rfl) (h.chains.nodup t r hreq) (h.chains.chain t r hreq)
  refine ⟨_, hok, h.locked.goto (.inl hlk) rfl hlk, h.bufs.leave hreq rfl rfl,
    h.chains.leave hreq rfl (fun _ => rfl), h.requests_leave hlk hw (h.served hw hb) hdesc,
    { h.device with }, h.panic⟩

omit [DecidableEq τ] in
theorem Device.handled_lt (h : Device s) (hne : s.disk.usedIdx ≠ s.disk.usedEnd) :
    s.handled < s.posted.length := by
  have hle : s.handled ≤ s.posted.length := by simpa using h.used.le
  apply Nat.lt_of_le_of_ne hle
  intro he
  rw [h.usedIdx, h.usedEnd, he] at hne
  exact hne rfl

omit [DecidableEq τ] in
theorem State.done_succ (hk : s.posted[s.handled]? = some k) :
    s.posted.take (s.handled + 1) = s.done ++ [k] := by
  rw [List.take_add_one, hk]
  rfl

omit [DecidableEq τ] in
theorem Inv.requests_complete (h : Inv s) (hk : s.posted[s.handled]? = some k)
    (ht : (s.pos t).waits? = some (r, k)) :
    Requests { s with
      disk := { s.disk with
        bdisk := update s.disk.bdisk r.io.b false
        usedIdx := s.disk.usedIdx + 1 }
      handled := s.handled + 1 } := by
  have hio := io_of_req (req_of_waits ht)
  have hother : ∀ t' r' k', (s.pos t').waits? = some (r', k') → k' ≠ k → r'.io.b ≠ r.io.b := by
    have := h.bufs.alone
    grind [io_of_req, req_of_ready, Pos.ready_of_waits]
  have hdone' : ∀ k', k' ∈ s.posted.take (s.handled + 1) ↔ k' ∈ s.done ∨ k' = k := by
    intro k'
    rw [State.done_succ hk, List.mem_append, List.mem_singleton]
  refine ⟨?_, ?_, h.requests.entered, h.requests.waits, ?_, ?_, ?_, ?_, ?_, h.requests.nodup⟩
  · intro t' r' ht'
    exact (h.requests.ready t' r' ht').congr (fun _ _ => rfl) rfl
  · intro t' r' ht'
    obtain ⟨h1, h2⟩ := h.requests.fresh t' r' ht'
    refine ⟨?_, h2⟩
    show update s.disk.bdisk r.io.b false r'.io.b = true
    have hne' : r'.io.b ≠ r.io.b := by
      have := h.bufs.alone
      grind [io_of_req, req_of_ready, ready_of_fresh, Pos.waits_of_fresh]
    rw [update_of_ne hne']
    exact h1
  · intro k' r' hk' hd
    exact h.requests.pending k' r' hk' fun hd' => hd ((hdone' k').mpr (.inl hd'))
  · intro t' r' k' ht' hd
    obtain ⟨h1, h2⟩ := h.requests.held t' r' k' ht' fun hd' => hd ((hdone' k').mpr (.inl hd'))
    refine ⟨?_, h2⟩
    show update s.disk.bdisk r.io.b false r'.io.b = true
    rw [update_of_ne (hother t' r' k' ht' fun he => hd ((hdone' k').mpr (.inr he)))]
    exact h1
  · intro t' r' k' ht' hd
    show update s.disk.bdisk r.io.b false r'.io.b = false
    by_cases hb : r'.io.b = r.io.b
    · rw [hb, update_self]
    · rw [update_of_ne hb]
      rcases (hdone' k').mp hd with hd | rfl
      · exact h.requests.released t' r' k' ht' hd
      · have := h.requests.waits
        grind
  · intro k' r' hk' hp hd
    exact h.requests.status k' r' hk' hp fun hd' => hd ((hdone' k').mpr (.inl hd'))
  · intro k' hk'
    exact (hdone' k').mpr (.inl (h.requests.finished k' hk'))

omit [DecidableEq τ] in
theorem Device.next_not_done (h : Device s) (hk : s.posted[s.handled]? = some k) : k ∉ s.done := by
  intro hd
  obtain ⟨hlt, he⟩ := List.getElem?_eq_some_iff.mp hk
  obtain ⟨j, hj, hj'⟩ := List.mem_take_iff_getElem.mp hd
  have := (List.Nodup.getElem_inj_iff h.posted.1).mp (hj'.trans he.symm)
  omega

omit [DecidableEq τ] in
theorem Inv.complete (h : Inv s) (hne : s.disk.usedIdx ≠ s.disk.usedEnd) :
    ∃ d, s.disk.complete = .ok d ∧ Inv { s with disk := d, handled := s.handled + 1 } := by
  have hlt := h.device.handled_lt hne
  obtain ⟨k, hk⟩ : ∃ k, s.posted[s.handled]? = some k := ⟨_, List.getElem?_eq_getElem hlt⟩
  have hperformed := h.device.posted.2 k (List.mem_of_getElem? hk)
  have hdone := h.device.next_not_done hk
  have hreqs : k < s.reqs.length := by
    have hle : s.taken ≤ s.reqs.length := by simpa using h.device.avail.le
    exact Nat.lt_of_lt_of_le (h.device.performed.2 k hperformed) hle
  have hget := List.getElem?_eq_getElem hreqs
  generalize s.reqs[k] = r at hget
  obtain ⟨t, ht⟩ := h.requests.pending k r hget hdone
  have hid : s.disk.usedRing (s.disk.usedIdx.toNat % num) = r.i0 := by
    rw [h.device.usedIdx, RingBuf.toNat_mod num_dvd]
    apply h.device.used.cell s.handled _ (Nat.le_refl _)
    rw [List.getElem?_map, hk]
    exact congrArg some (State.head_eq hget)
  have hok : s.disk.complete = .ok { s.disk with
      bdisk := update s.disk.bdisk r.io.b false
      usedIdx := s.disk.usedIdx + 1 } := by
    unfold Disk.complete
    rw [hid, if_neg (by simpa using h.requests.status k r hget hperformed hdone),
      (h.requests.held t r k ht hdone).info]
  refine ⟨_, hok, ⟨h.locked.holder⟩, h.bufs.same (fun _ => rfl) rfl,
    h.chains.same (fun _ => rfl) rfl, h.requests_complete hk ht, ?_, h.panic⟩
  refine { h.device with used := ?_, usedIdx := ?_ }
  · apply h.device.used.pop
    rw [List.length_map]
    exact hlt
  · rw [h.device.usedIdx, RingBuf.ofNat_add_one]

end Xv6.Virtio
