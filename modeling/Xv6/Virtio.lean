import Mathlib.Logic.Function.Basic
import Xv6.Misc.ByteMem

/-!
# The driver of the virtio disk

`virtio_disk_rw` and `virtio_disk_intr` of `kernel/virtio_disk.c`, with the device. The driver runs
under `vdisk_lock`, one step for each part of it that the device can tell apart: the allocation of
descriptors, their contents, the entry in the available ring, its index, each test of `b->disk` and
each entry of the used ring. A process in `sleep` may go on whenever the lock is free, which includes
what every order of calls of `wakeup` does. The bytes that are transferred are left out.
-/

namespace Xv6.Virtio

open ByteMem
open Function (update)

def num : Nat := 8

/-- What the `addr` field of a descriptor points to. -/
inductive Addr where
  | null
  | op (i : Nat)
  | data (b : Nat)
  | status (i : Nat)
  deriving DecidableEq

def vringDescFNext : BitVec 16 := 1
def vringDescFWrite : BitVec 16 := 2

structure Desc where
  addr : Addr := .null
  len : Nat := 0
  flags : BitVec 16 := 0
  next : Nat := 0
  deriving DecidableEq

/-- `struct virtio_blk_req`: the type (`VIRTIO_BLK_T_OUT` if `write`) and the sector. -/
structure Op where
  write : Bool := false
  sector : BitVec 64 := 0
  deriving DecidableEq

structure Info where
  b : Option Nat := none
  status : Byte := 0
  deriving DecidableEq

/-- `disk`, with the rings, and the `disk` fields of the buffers. -/
structure Disk where
  desc : Nat → Desc := fun _ => {}
  availRing : Nat → Nat := fun _ => 0
  availIdx : BitVec 16 := 0
  usedRing : Nat → Nat := fun _ => 0
  usedEnd : BitVec 16 := 0
  free : Nat → Bool := fun _ => true
  usedIdx : BitVec 16 := 0
  info : Nat → Info := fun _ => {}
  ops : Nat → Op := fun _ => {}
  bdisk : Nat → Bool := fun _ => false

/-- The calls of `panic`, and the use of a buffer that is not there. -/
inductive Panic where
  | freeDesc1 | freeDesc2 | intrStatus | noBuffer
  deriving DecidableEq

namespace Disk

def allocDesc (d : Disk) : Option Nat × Disk :=
  match (List.range num).find? d.free with
  | some i => (some i, { d with free := update d.free i false })
  | none => (none, d)

def freeDesc (d : Disk) (i : Nat) : Except Panic Disk :=
  if num ≤ i then
    .error .freeDesc1
  else if d.free i then
    .error .freeDesc2
  else
    .ok { d with desc := update d.desc i {}, free := update d.free i true }

/-- The loop of `free_chain`. After `NUM` iterations a descriptor would be freed again. -/
def freeChainLoop : Nat → Disk → Nat → Except Panic Disk
  | 0, _, _ => .error .freeDesc2
  | k + 1, d, i => do
    let flag := (d.desc i).flags
    let nxt := (d.desc i).next
    let d ← d.freeDesc i
    if flag &&& vringDescFNext ≠ 0 then freeChainLoop k d nxt else return d

def freeChain (d : Disk) (i : Nat) : Except Panic Disk := freeChainLoop num d i

/-- `alloc3_desc`, with the three iterations of its loop written out. -/
def alloc3Desc (d : Disk) : Except Panic (Option (Nat × Nat × Nat) × Disk) :=
  match d.allocDesc with
  | (none, d) => .ok (none, d)
  | (some i0, d) =>
    match d.allocDesc with
    | (none, d) => do
      let d ← d.freeDesc i0
      return (none, d)
    | (some i1, d) =>
      match d.allocDesc with
      | (none, d) => do
        let d ← d.freeDesc i0
        let d ← d.freeDesc i1
        return (none, d)
      | (some i2, d) => .ok (some (i0, i1, i2), d)

end Disk

structure Io where
  b : Nat
  blockno : BitVec 32
  write : Bool
  deriving DecidableEq

/-- A request: the arguments and the descriptors `idx[0]`, `idx[1]`, `idx[2]`. -/
structure Req where
  io : Io
  i0 : Nat
  i1 : Nat
  i2 : Nat
  deriving DecidableEq

def Req.chain (r : Req) : List Nat := [r.i0, r.i1, r.i2]

/-- The header of a request, with `b->blockno * (BSIZE / 512)` computed in 32 bits. -/
def Req.op (r : Req) : Op := { write := r.io.write, sector := (r.io.blockno * 2).zeroExtend 64 }

def Req.desc0 (r : Req) : Desc :=
  { addr := .op r.i0, len := 16, flags := vringDescFNext, next := r.i1 }

def Req.desc1 (r : Req) : Desc :=
  { addr := .data r.io.b
    len := 1024
    flags := (if r.io.write then 0 else vringDescFWrite) ||| vringDescFNext
    next := r.i2 }

def Req.desc2 (r : Req) : Desc :=
  { addr := .status r.i0, len := 1, flags := vringDescFWrite, next := 0 }

namespace Disk

/-- The contents of the descriptors, `disk.ops`, `disk.info` and `b->disk` of a request. -/
def format (d : Disk) (r : Req) : Disk :=
  { d with
    ops := update d.ops r.i0 r.op
    desc := update (update (update d.desc r.i0 r.desc0) r.i1 r.desc1)
      r.i2 r.desc2
    info := update d.info r.i0 { b := some r.io.b, status := 0xff }
    bdisk := update d.bdisk r.io.b true }

/-- `disk.avail->ring[disk.avail->idx % NUM] = idx[0]`. -/
def enter (d : Disk) (r : Req) : Disk :=
  { d with availRing := update d.availRing (d.availIdx.toNat % num) r.i0 }

def publish (d : Disk) : Disk := { d with availIdx := d.availIdx + 1 }

def finish (d : Disk) (r : Req) : Except Panic Disk :=
  freeChain { d with info := update d.info r.i0 { d.info r.i0 with b := none } } r.i0

def complete (d : Disk) : Except Panic Disk :=
  let id := d.usedRing (d.usedIdx.toNat % num)
  if (d.info id).status ≠ 0 then
    .error .intrStatus
  else
    match (d.info id).b with
    | none => .error .noBuffer
    | some b => .ok { d with bdisk := update d.bdisk b false, usedIdx := d.usedIdx + 1 }

end Disk

/-! ## The device -/

/-- An entry of the available ring that the device has taken: the head of the chain, and what the
chain says. -/
structure Taken where
  head : Nat
  op : Op
  buf : Nat
  len : Nat
  /-- the number of the `status` to be written -/
  status : Nat
  /-- the transfer is done and the status written -/
  finished : Bool := false

def Disk.readChain (d : Disk) (head : Nat) : Option Taken :=
  let d0 := d.desc head
  let d1 := d.desc d0.next
  let d2 := d.desc d1.next
  match d0.addr, d1.addr, d2.addr with
  | .op i, .data b, .status j =>
    if d0.flags &&& vringDescFNext ≠ 0 ∧ d1.flags &&& vringDescFNext ≠ 0 then
      some { head, op := d.ops i, buf := b, len := d1.len, status := j }
    else
      none
  | _, _, _ => none

/-! ## Steps -/

inductive Pos where
  | idle
  /-- at the head of the first loop of `virtio_disk_rw` -/
  | alloc (io : Io)
  | allocSleep (io : Io)
  | format (r : Req)
  | enter (r : Req)
  | publish (r : Req)
  /-- at the head of the second loop, for the request with number `k` -/
  | wait (r : Req) (k : Nat)
  | waitSleep (r : Req) (k : Nat)
  /-- at the head of the loop of `virtio_disk_intr` -/
  | intr
  | leave

/-- The driver, used by threads `τ`, and the device. The last six fields are history: the requests
that were made available, and how many of them the device has taken; the numbers of the requests that
the device has performed and of those it has put on the used ring, and how many of the latter
`virtio_disk_intr` has handled; the numbers of the requests whose `virtio_disk_rw` has freed its
descriptors. -/
structure State (τ : Type) where
  disk : Disk := {}
  pos : τ → Pos := fun _ => .idle
  lk : Option τ := none
  /-- the buffers whose sleep-lock is held by a caller of `virtio_disk_rw` -/
  busy : Nat → Bool := fun _ => false
  panic : Option Panic := none
  /-- the index up to which the device has read the available ring -/
  seen : BitVec 16 := 0
  /-- the entries of the available ring, by number, that the device is working on -/
  active : Nat → Option Taken := fun _ => none
  reqs : List Req := []
  taken : Nat := 0
  performed : List Nat := []
  posted : List Nat := []
  handled : Nat := 0
  finished : List Nat := []

inductive Move (τ : Type) where
  /-- `virtio_disk_rw`, up to `acquire` -/
  | rw (t : τ) (io : Io)
  /-- `virtio_disk_intr`, up to `acquire` -/
  | intr (t : τ)
  /-- the thread that has the lock makes a step -/
  | exec (t : τ)
  | wake (t : τ)
  /-- the device takes the next entry of the available ring -/
  | take
  /-- the device performs entry `k` and writes status 0 -/
  | perform (k : Nat)
  /-- the device puts entry `k` on the used ring -/
  | post (k : Nat)

section Steps

variable {τ : Type} [DecidableEq τ]

namespace State

def goto (s : State τ) (t : τ) (x : Pos) : State τ := { s with pos := update s.pos t x }

def exec (s : State τ) (t : τ) : Option (State τ) :=
  match s.pos t with
  | .alloc io =>
    match s.disk.alloc3Desc with
    | .error e => some { s with panic := some e }
    | .ok (none, d) => some { s.goto t (.allocSleep io) with disk := d, lk := none }
    | .ok (some (i0, i1, i2), d) => some { s.goto t (.format ⟨io, i0, i1, i2⟩) with disk := d }
  | .format r => some { s.goto t (.enter r) with disk := s.disk.format r }
  | .enter r => some { s.goto t (.publish r) with disk := s.disk.enter r }
  | .publish r =>
    some { s.goto t (.wait r s.reqs.length) with
      disk := s.disk.publish
      reqs := s.reqs ++ [r] }
  | .wait r k =>
    if s.disk.bdisk r.io.b then
      some { s.goto t (.waitSleep r k) with lk := none }
    else
      match s.disk.finish r with
      | .error e => some { s with panic := some e }
      | .ok d =>
        some { s.goto t .leave with
          disk := d
          busy := update s.busy r.io.b false
          finished := s.finished ++ [k] }
  | .intr =>
    if s.disk.usedIdx ≠ s.disk.usedEnd then
      match s.disk.complete with
      | .error e => some { s with panic := some e }
      | .ok d => some { s with disk := d, handled := s.handled + 1 }
    else
      some (s.goto t .leave)
  | .leave => some { s.goto t .idle with lk := none }
  | .idle | .allocSleep _ | .waitSleep .. => none

def wake (s : State τ) (t : τ) : Option (State τ) :=
  match s.pos t with
  | .allocSleep io => some { s.goto t (.alloc io) with lk := some t }
  | .waitSleep r k => some { s.goto t (.wait r k) with lk := some t }
  | _ => none

def perform (s : State τ) (k : Nat) (x : Taken) : State τ :=
  { s with
    disk := { s.disk with
      info := update s.disk.info x.status { s.disk.info x.status with status := 0 } }
    active := update s.active k (some { x with finished := true })
    performed := s.performed ++ [k] }

def post (s : State τ) (k : Nat) (x : Taken) : State τ :=
  { s with
    disk := { s.disk with
      usedRing := update s.disk.usedRing (s.disk.usedEnd.toNat % num) x.head
      usedEnd := s.disk.usedEnd + 1 }
    active := update s.active k none
    posted := s.posted ++ [k] }

/-- The steps, where they are possible. A caller of `virtio_disk_rw` has the sleep-lock of the
buffer. -/
def step (s : State τ) : Move τ → Option (State τ)
  | .rw t io =>
    match s.lk, s.pos t with
    | none, .idle =>
      if s.busy io.b then none
      else some { s.goto t (.alloc io) with
        lk := some t
        busy := update s.busy io.b true }
    | _, _ => none
  | .intr t =>
    match s.lk, s.pos t with
    | none, .idle => some { s.goto t .intr with lk := some t }
    | _, _ => none
  | .exec t => s.exec t
  | .wake t => if s.lk = none then s.wake t else none
  | .take =>
    if s.seen ≠ s.disk.availIdx then
      (s.disk.readChain (s.disk.availRing (s.seen.toNat % num))).map fun x =>
        { s with
          seen := s.seen + 1
          active := update s.active s.taken (some x)
          taken := s.taken + 1 }
    else
      none
  | .perform k => (s.active k).bind fun x => if x.finished then none else some (s.perform k x)
  | .post k => (s.active k).bind fun x => if x.finished then some (s.post k x) else none

end State

/-- The states of all runs after `virtio_disk_init`. -/
inductive Reachable : State τ → Prop where
  | init : Reachable {}
  | step {s s' : State τ} {m : Move τ} (h : Reachable s) (hs : s.step m = some s') : Reachable s'

def State.play (s : State τ) : List (Move τ) → Option (State τ)
  | [] => some s
  | m :: l => (s.step m).bind fun s => s.play l

theorem Reachable.play {s s' : State τ} {l : List (Move τ)} (h : Reachable s)
    (hs : s.play l = some s') : Reachable s' := by
  induction l generalizing s with
  | nil =>
    cases hs
    exact h
  | cons _ _ ih =>
    obtain ⟨s1, h1, h2⟩ := Option.bind_eq_some_iff.mp hs
    exact ih (h.step h1) h2

end Steps

end Xv6.Virtio
