import Mathlib.Data.List.Nodup
import Xv6.Misc.Ring
import Xv6.Virtio.Descriptors

/-!
# The invariant of the virtio disk

Who has the lock, which buffers and descriptors threads have, what the driver knows about its
requests, and how far the device has come with them.
-/

namespace Xv6.Virtio

open Function (update update_apply update_of_ne update_self)

variable {r r' : Req}

/-! ## What threads have -/

def Pos.holds : Pos → Bool
  | .idle | .allocSleep _ | .waitSleep .. => false
  | _ => true

def Pos.io? : Pos → Option Io
  | .alloc io | .allocSleep io => some io
  | .format r | .enter r | .publish r | .wait r _ | .waitSleep r _ => some r.io
  | _ => none

def Pos.req? : Pos → Option Req
  | .format r | .enter r | .publish r | .wait r _ | .waitSleep r _ => some r
  | _ => none

/-- The request whose descriptors the thread has formatted. -/
def Pos.ready? : Pos → Option Req
  | .enter r | .publish r | .wait r _ | .waitSleep r _ => some r
  | _ => none

/-- The request which the thread has formatted and not yet made available. -/
def Pos.fresh? : Pos → Option Req
  | .enter r | .publish r => some r
  | _ => none

/-- The request which the thread has entered in the available ring without having advanced the
index. -/
def Pos.entered? : Pos → Option Req
  | .publish r => some r
  | _ => none

/-- The request for which the thread waits, and its number. -/
def Pos.waits? : Pos → Option (Req × Nat)
  | .wait r k | .waitSleep r k => some (r, k)
  | _ => none

variable {x y : Pos} {k : Nat}

theorem Pos.req_of_ready (h : x.ready? = some r) : x.req? = some r := by
  cases x with
  | enter | publish | wait | waitSleep => exact h
  | _ => cases h

theorem Pos.ready_of_waits (h : x.waits? = some (r, k)) : x.ready? = some r := by
  cases x with
  | wait | waitSleep =>
    cases h
    rfl
  | _ => cases h

theorem Pos.req_of_waits (h : x.waits? = some (r, k)) : x.req? = some r :=
  Pos.req_of_ready (Pos.ready_of_waits h)

theorem Pos.io_of_req (h : x.req? = some r) : x.io? = some r.io := by
  cases x with
  | format | enter | publish | wait | waitSleep =>
    cases h
    rfl
  | _ => cases h

theorem Pos.ready_of_fresh (h : x.fresh? = some r) : x.ready? = some r := by
  cases x with
  | enter | publish => exact h
  | _ => cases h

theorem Pos.waits_of_fresh (h : x.fresh? = some r) : x.waits? = none := by
  cases x with
  | enter | publish => rfl
  | _ => cases h

variable {τ : Type} [DecidableEq τ] {s s' : State τ} {t : τ}
variable {pos : τ → Pos}

def State.done (s : State τ) : List Nat := s.posted.take s.handled

structure Locked (s : State τ) : Prop where
  holder : ∀ t, s.lk = some t ↔ (s.pos t).holds = true

structure Bufs (s : State τ) : Prop where
  busy : ∀ t io, (s.pos t).io? = some io → s.busy io.b = true
  alone : ∀ t t' io io', (s.pos t).io? = some io → (s.pos t').io? = some io' → io.b = io'.b → t = t'

/-- Each descriptor is free or belongs to one thread. -/
structure Chains (s : State τ) : Prop where
  nodup : ∀ t r, (s.pos t).req? = some r → r.chain.Nodup
  chain : ∀ t r, (s.pos t).req? = some r → ∀ i ∈ r.chain, i < num ∧ s.disk.free i = false
  alone : ∀ t t' r r' i, (s.pos t).req? = some r → (s.pos t').req? = some r' →
    i ∈ r.chain → i ∈ r'.chain → t = t'
  owned : ∀ i, i < num → s.disk.free i = false → ∃ t r, (s.pos t).req? = some r ∧ i ∈ r.chain

/-- The buffer of a request that is not done. -/
structure Held (d : Disk) (r : Req) : Prop where
  bdisk : d.bdisk r.io.b = true
  info : (d.info r.i0).b = some r.io.b

/-- What the driver knows about its requests. -/
structure Requests (s : State τ) : Prop where
  ready : ∀ t r, (s.pos t).ready? = some r → Formatted s.disk r
  fresh : ∀ t r, (s.pos t).fresh? = some r → Held s.disk r
  entered : ∀ t r, (s.pos t).entered? = some r → s.disk.availRing (s.reqs.length % num) = r.i0
  waits : ∀ t r k, (s.pos t).waits? = some (r, k) → s.reqs[k]? = some r ∧ k ∉ s.finished
  pending : ∀ k r, s.reqs[k]? = some r → k ∉ s.done → ∃ t, (s.pos t).waits? = some (r, k)
  held : ∀ t r k, (s.pos t).waits? = some (r, k) → k ∉ s.done → Held s.disk r
  released : ∀ t r k, (s.pos t).waits? = some (r, k) → k ∈ s.done → s.disk.bdisk r.io.b = false
  status : ∀ k r, s.reqs[k]? = some r → k ∈ s.performed → k ∉ s.done → (s.disk.info r.i0).status = 0
  finished : ∀ k ∈ s.finished, k ∈ s.done
  nodup : s.finished.Nodup

def State.head (s : State τ) (k : Nat) : Nat := ((s.reqs[k]?).map Req.i0).getD 0

omit [DecidableEq τ] in
theorem State.head_eq (h : s.reqs[k]? = some r) : s.head k = r.i0 := by
  rw [State.head, h]
  rfl

structure Device (s : State τ) : Prop where
  avail : RingBuf num s.disk.availRing (s.reqs.map Req.i0) s.taken
  availIdx : s.disk.availIdx = BitVec.ofNat 16 s.reqs.length
  seen : s.seen = BitVec.ofNat 16 s.taken
  used : RingBuf num s.disk.usedRing (s.posted.map s.head) s.handled
  usedEnd : s.disk.usedEnd = BitVec.ofNat 16 s.posted.length
  usedIdx : s.disk.usedIdx = BitVec.ofNat 16 s.handled
  performed : s.performed.Nodup ∧ ∀ k ∈ s.performed, k < s.taken
  posted : s.posted.Nodup ∧ ∀ k ∈ s.posted, k ∈ s.performed
  active : ∀ k x, s.active k = some x → k < s.taken ∧ k ∉ s.posted ∧
    (x.finished = true ↔ k ∈ s.performed) ∧
    ∃ r, s.reqs[k]? = some r ∧ x.head = r.i0 ∧ x.status = r.i0

structure Inv (s : State τ) : Prop where
  locked : Locked s
  bufs : Bufs s
  chains : Chains s
  requests : Requests s
  device : Device s
  panic : s.panic = none

omit [DecidableEq τ] in
theorem Inv.holds (h : Inv s) (hpos : s.pos t = x) (hx : x.holds = true) : s.lk = some t := by
  rw [h.locked.holder, hpos, hx]

/-! ## Steps that change nothing -/

theorem update_view {α : Type} (f : Pos → α) (hpos : pos t = y) (h : f x = f y) (t' : τ) :
    f (update pos t x t') = f (pos t') := by
  by_cases ht : t' = t
  · rw [ht, update_self, h, hpos]
  · rw [update_of_ne ht]

theorem Locked.goto (h : Locked s) (hlk : s.lk = some t ∨ s.lk = none)
    (hpos : s'.pos = update s.pos t x) (hlk' : s'.lk = if x.holds then some t else none) :
    Locked s' := by
  refine ⟨?_⟩
  intro t'
  rw [hpos, hlk']
  by_cases ht : t' = t
  · grind
  · have hnot : (s.pos t').holds = false := by
      by_contra hh
      have h1 := (h.holder t').mpr (by simpa using hh)
      rcases hlk with hlk | hlk
      · grind
      · rw [hlk] at h1
        cases h1
    rw [update_of_ne ht, hnot]
    constructor
    · grind
    · intro he
      cases he

omit [DecidableEq τ] in
theorem Bufs.same (h : Bufs s) (hpos : ∀ t, (s'.pos t).io? = (s.pos t).io?)
    (hbusy : s'.busy = s.busy) : Bufs s' := by
  refine ⟨?_, ?_⟩
  · have := h.busy
    grind
  · grind [h.alone]

omit [DecidableEq τ] in
theorem Chains.same (h : Chains s) (hpos : ∀ t, (s'.pos t).req? = (s.pos t).req?)
    (hfree : s'.disk.free = s.disk.free) : Chains s' := by
  refine ⟨?_, ?_, ?_, ?_⟩
  · intro t r ht
    rw [hpos] at ht
    exact h.nodup t r ht
  · have := h.chain
    grind
  · grind [h.alone]
  · grind [h.owned]

def Pos.view (x : Pos) : Option Req × Option Req × Option Req × Option (Req × Nat) :=
  (x.ready?, x.fresh?, x.entered?, x.waits?)

omit [DecidableEq τ] in
theorem Requests.same (h : Requests s) (hpos : ∀ t, (s'.pos t).view = (s.pos t).view)
    (hready : ∀ t r, (s.pos t).ready? = some r → Formatted s'.disk r)
    (hinfo : s'.disk.info = s.disk.info) (hbdisk : s'.disk.bdisk = s.disk.bdisk)
    (havail : s'.disk.availRing = s.disk.availRing) (hreqs : s'.reqs = s.reqs)
    (hdone : s'.done = s.done) (hperformed : s'.performed = s.performed)
    (hfinished : s'.finished = s.finished) : Requests s' := by
  simp only [Pos.view, Prod.mk.injEq] at hpos
  have hheld : ∀ {r}, Held s.disk r → Held s'.disk r := by
    intro r hr
    exact ⟨by rw [hbdisk]; exact hr.bdisk, by rw [hinfo]; exact hr.info⟩
  refine ⟨?_, ?_, ?_, ?_, ?_, ?_, ?_, ?_, ?_, ?_⟩
  · grind
  · grind [h.fresh]
  · grind [h.entered]
  · grind [h.waits]
  · grind [h.pending]
  · grind [h.held]
  · have := h.released
    grind
  · have := h.status
    grind
  · rw [hfinished, hdone]
    exact h.finished
  · rw [hfinished]
    exact h.nodup

/-! ## Steps of one thread -/

/-- What the driver knows about the request of a thread that is at `x`. -/
structure Knows (s : State τ) (x : Pos) : Prop where
  ready : ∀ r, x.ready? = some r → Formatted s.disk r
  fresh : ∀ r, x.fresh? = some r → Held s.disk r
  entered : ∀ r, x.entered? = some r → s.disk.availRing (s.reqs.length % num) = r.i0
  waits : ∀ r k, x.waits? = some (r, k) → s.reqs[k]? = some r ∧ k ∉ s.finished
  held : ∀ r k, x.waits? = some (r, k) → k ∉ s.done → Held s.disk r
  released : ∀ r k, x.waits? = some (r, k) → k ∈ s.done → s.disk.bdisk r.io.b = false

structure Same (d d' : Disk) (r : Req) : Prop where
  desc : ∀ i ∈ r.chain, d'.desc i = d.desc i
  ops : d'.ops r.i0 = d.ops r.i0
  info : d'.info r.i0 = d.info r.i0
  bdisk : d'.bdisk r.io.b = d.bdisk r.io.b

theorem Same.held {d d' : Disk} (h : Same d d' r) (hr : Held d r) : Held d' r :=
  ⟨h.bdisk.trans hr.bdisk, (congrArg Info.b h.info).trans hr.info⟩

omit [DecidableEq τ] in
theorem Inv.waits_alone (h : Inv s) {t' : τ} (ht : (s.pos t).waits? = some (r, k))
    (ht' : (s.pos t').waits? = some (r', k)) : t' = t := by
  cases (h.requests.waits t r k ht).1.symm.trans (h.requests.waits t' r' k ht').1
  exact h.chains.alone t' t r r r.i0 (Pos.req_of_waits ht')
    (Pos.req_of_waits ht) (by simp [Req.chain]) (by simp [Req.chain])

theorem Inv.requests_move (h : Inv s) (hlk : s.lk = some t) (hpos : s'.pos = update s.pos t x)
    (hown : Knows s' x) (hy : s.pos t = y) (hold : ∀ r k, y.waits? = some (r, k) → k ∈ s.done)
    (hsame : ∀ t' r, t' ≠ t → (s.pos t').ready? = some r → Same s.disk s'.disk r)
    (hreqs : ∀ (k : Nat) r, s.reqs[k]? = some r → s'.reqs[k]? = some r)
    (hnew : ∀ (k : Nat) r, s'.reqs[k]? = some r → s.reqs[k]? = some r ∨ x.waits? = some (r, k))
    (hdone : s'.done = s.done) (hperformed : s'.performed = s.performed)
    (hfinished : ∀ k ∈ s'.finished, k ∈ s.finished ∨ ∃ r, y.waits? = some (r, k))
    (hnodup : s'.finished.Nodup) : Requests s' := by
  subst hy
  have hother : ∀ t', t' ≠ t → Knows s' (s.pos t') := by
    intro t' hne
    refine ⟨?_, ?_, ?_, ?_, ?_, ?_⟩
    · intro r hr
      exact (h.requests.ready t' r hr).congr (hsame t' r hne hr).desc (hsame t' r hne hr).ops
    · intro r hr
      exact (hsame t' r hne (Pos.ready_of_fresh hr)).held (h.requests.fresh t' r hr)
    · -- the other thread would have the lock, too
      intro r hr
      have hholds : (s.pos t').holds = true := by
        cases hx : s.pos t' <;> rw [hx] at hr <;> first | rfl | cases hr
      rw [(h.locked.holder t').mpr hholds] at hlk
      cases hlk
      exact absurd rfl hne
    · intro r k hr
      obtain ⟨h1, h2⟩ := h.requests.waits t' r k hr
      refine ⟨hreqs k r h1, ?_⟩
      intro hf
      rcases hfinished k hf with hf | ⟨r', ht⟩
      · exact h2 hf
      · exact hne (h.waits_alone ht hr)
    · intro r k hr hd
      rw [hdone] at hd
      exact (hsame t' r hne (Pos.ready_of_waits hr)).held (h.requests.held t' r k hr hd)
    · intro r k hr hd
      rw [hdone] at hd
      rw [(hsame t' r hne (Pos.ready_of_waits hr)).bdisk]
      exact h.requests.released t' r k hr hd
  have hall : ∀ t', Knows s' (s'.pos t') := by
    intro t'
    rw [hpos, update_apply]
    split
    · exact hown
    · next hne => exact hother t' hne
  -- a request that is not done has another thread
  have hwaiter : ∀ (k : Nat) r, s.reqs[k]? = some r → k ∉ s.done →
      ∃ t', t' ≠ t ∧ (s.pos t').waits? = some (r, k) := by
    intro k r hk hd
    obtain ⟨t', ht'⟩ := h.requests.pending k r hk hd
    refine ⟨t', ?_, ht'⟩
    rintro rfl
    exact hd (hold r k ht')
  refine ⟨fun t' => (hall t').ready, fun t' => (hall t').fresh, fun t' => (hall t').entered,
    fun t' => (hall t').waits, ?_, fun t' => (hall t').held, fun t' => (hall t').released, ?_, ?_,
    hnodup⟩
  · intro k r hk hd
    rw [hdone] at hd
    rw [hpos]
    rcases hnew k r hk with hk | hx
    · obtain ⟨t', hne, ht'⟩ := hwaiter k r hk hd
      exact ⟨t', by rw [update_of_ne hne]; exact ht'⟩
    · exact ⟨t, by rw [update_self]; exact hx⟩
  · intro k r hk hp hd
    rw [hdone] at hd
    rw [hperformed] at hp
    have hlt : k < s.reqs.length := by
      have hle := h.device.avail.le
      rw [List.length_map] at hle
      exact Nat.lt_of_lt_of_le (h.device.performed.2 k hp) hle
    have hget := List.getElem?_eq_getElem hlt
    cases (hreqs k _ hget).symm.trans hk
    obtain ⟨t', hne, ht'⟩ := hwaiter k _ hget hd
    rw [(hsame t' _ hne (Pos.ready_of_waits ht')).info]
    exact h.requests.status k _ hget hp hd
  · intro k hk
    rw [hdone]
    rcases hfinished k hk with hk | ⟨r, ht⟩
    · exact h.requests.finished k hk
    · exact hold r k ht

end Xv6.Virtio
