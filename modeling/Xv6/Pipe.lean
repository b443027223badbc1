import Xv6.Misc.ByteMem
import Xv6.Sync.Monitor

/-!
# Pipes

`pipewrite`, `piperead` and `pipeclose` of `kernel/pipe.c` on one pipe, as code under `pi->lock`. The
holder of the lock makes one step for each iteration of a loop.
-/

namespace Xv6.Pipes

open ByteMem
open Monitor (Next)

def pipesize : Nat := 512

/-- `struct pipe`, without the lock. The last two fields are history: the bytes that were stored,
and those that were copied to readers. -/
structure Pipe where
  data : Nat → Byte
  nread : BitVec 32 := 0
  nwrite : BitVec 32 := 0
  readopen : Bool := true
  writeopen : Bool := true
  stored : List Byte := []
  taken : List Byte := []

/-- The channels `&pi->nread` and `&pi->nwrite`. -/
inductive Chan where
  | nread | nwrite
  deriving DecidableEq

def Chan.addr (pi : Nat) : Chan → Nat
  | .nread => pi + 536
  | .nwrite => pi + 540

/-- Points in the code where the process has `pi->lock`. Byte `i` of the source of a write is
`src i`, if it can be read; `ok i` says whether byte `i` can be copied to a reader. -/
inductive Code where
  /-- the head of the loop of `pipewrite` -/
  | write (src : Nat → Option Byte) (n : Int) (i : Nat)
  | full (src : Nat → Option Byte) (n : Int) (i : Nat)
  /-- the head of the first loop of `piperead` -/
  | read (ok : Nat → Bool) (n : Int)
  /-- the head of the second loop of `piperead` -/
  | copy (ok : Nat → Bool) (n : Int) (i : Nat)
  | close (writable : Bool)
  /-- before the last `release`, with the value that is returned -/
  | leave (r : Int)

/-- The channel of the `sleep` after which the code goes on at the given point. -/
def Code.chan : Code → Chan
  | .write .. => .nwrite
  | _ => .nread

def Code.exec (killed : Bool) (q : Pipe) : Code → Pipe × Next Code Chan
  | .write src n i =>
    if i < n then
      if !q.readopen || killed then
        (q, .go (.leave (-1)))
      else if q.nwrite = q.nread + BitVec.ofNat 32 pipesize then
        (q, .wakeup .nread (.full src n i))
      else
        match src i with
        | none => (q, .wakeup .nread (.leave i))
        | some ch =>
          ({ q with
              data := Function.update q.data (q.nwrite.toNat % pipesize) ch
              nwrite := q.nwrite + 1
              stored := q.stored ++ [ch] },
            .go (.write src n (i + 1)))
    else
      (q, .wakeup .nread (.leave i))
  | .full src n i => (q, .sleep (.write src n i))
  | .read ok n =>
    if q.nread = q.nwrite ∧ q.writeopen = true then
      if killed then (q, .go (.leave (-1))) else (q, .sleep (.read ok n))
    else
      (q, .go (.copy ok n 0))
  | .copy ok n i =>
    if i < n then
      if q.nread = q.nwrite then
        (q, .wakeup .nwrite (.leave i))
      else
        let ch := q.data (q.nread.toNat % pipesize)
        if ok i then
          ({ q with nread := q.nread + 1, taken := q.taken ++ [ch] }, .go (.copy ok n (i + 1)))
        else
          ({ q with nread := q.nread + 1 }, .wakeup .nwrite (.leave i))
    else
      (q, .wakeup .nwrite (.leave i))
  | .close writable =>
    if writable then ({ q with writeopen := false }, .wakeup .nread (.leave 0))
    else ({ q with readopen := false }, .wakeup .nwrite (.leave 0))
  | .leave r => (q, .go (.leave r))

inductive Exec (killed : Bool) (q : Pipe) : Code → Pipe → Next Code Chan → Prop where
  /-- `pipewrite` has stored everything -/
  | wrote {src : Nat → Option Byte} {n : Int} {i : Nat} (hi : ¬i < n) :
    Exec killed q (.write src n i) q (.wakeup .nread (.leave i))
  /-- nobody reads, or the writer has been killed -/
  | gone {src : Nat → Option Byte} {n : Int} {i : Nat} (hi : i < n)
      (h : q.readopen = false ∨ killed = true) :
    Exec killed q (.write src n i) q (.go (.leave (-1)))
  | noRoom {src : Nat → Option Byte} {n : Int} {i : Nat} (hi : i < n) (hopen : q.readopen = true)
      (hfull : q.nwrite = q.nread + BitVec.ofNat 32 pipesize) :
    Exec killed q (.write src n i) q (.wakeup .nread (.full src n i))
  | noByte {src : Nat → Option Byte} {n : Int} {i : Nat} (hi : i < n) (hsrc : src i = none) :
    Exec killed q (.write src n i) q (.wakeup .nread (.leave i))
  | store {src : Nat → Option Byte} {n : Int} {i : Nat} {ch : Byte} (hi : i < n)
      (hopen : q.readopen = true) (halive : killed = false)
      (hroom : ¬q.nwrite = q.nread + BitVec.ofNat 32 pipesize) (hsrc : src i = some ch) :
    Exec killed q (.write src n i)
      { q with
        data := Function.update q.data (q.nwrite.toNat % pipesize) ch
        nwrite := q.nwrite + 1
        stored := q.stored ++ [ch] }
      (.go (.write src n (i + 1)))
  | sleepFull {src : Nat → Option Byte} {n : Int} {i : Nat} :
    Exec killed q (.full src n i) q (.sleep (.write src n i))
  | noReader {ok : Nat → Bool} {n : Int} (hempty : q.nread = q.nwrite) (hkilled : killed = true) :
    Exec killed q (.read ok n) q (.go (.leave (-1)))
  | sleepEmpty {ok : Nat → Bool} {n : Int} (hempty : q.nread = q.nwrite)
      (hopen : q.writeopen = true) :
    Exec killed q (.read ok n) q (.sleep (.read ok n))
  | ready {ok : Nat → Bool} {n : Int} (h : ¬(q.nread = q.nwrite ∧ q.writeopen = true)) :
    Exec killed q (.read ok n) q (.go (.copy ok n 0))
  /-- there are no more bytes, or no more are asked for -/
  | copied {ok : Nat → Bool} {n : Int} {i : Nat} :
    Exec killed q (.copy ok n i) q (.wakeup .nwrite (.leave i))
  | take {ok : Nat → Bool} {n : Int} {i : Nat} (hne : ¬q.nread = q.nwrite) (hok : ok i = true) :
    Exec killed q (.copy ok n i)
      { q with nread := q.nread + 1, taken := q.taken ++ [q.data (q.nread.toNat % pipesize)] }
      (.go (.copy ok n (i + 1)))
  | lose {ok : Nat → Bool} {n : Int} {i : Nat} (hne : ¬q.nread = q.nwrite) (hok : ok i = false) :
    Exec killed q (.copy ok n i) { q with nread := q.nread + 1 } (.wakeup .nwrite (.leave i))
  | closeWrite : Exec killed q (.close true) { q with writeopen := false } (.wakeup .nread (.leave 0))
  | closeRead : Exec killed q (.close false) { q with readopen := false } (.wakeup .nwrite (.leave 0))

def Code.isCall : Code → Bool
  | .write _ _ i => i = 0
  | .read .. | .close _ => true
  | _ => false

def Code.isLeave : Code → Bool
  | .leave _ => true
  | _ => false

theorem Code.exec_spec {c : Code} (hc : c.isLeave = false) (killed : Bool) (q : Pipe) :
    Exec killed q c (c.exec killed q).1 (c.exec killed q).2 := by
  cases c with
  | write =>
    unfold Code.exec
    dsimp only
    split
    · next hi =>
      split
      · next h => exact .gone hi (by simpa using h)
      · next h =>
        obtain ⟨hopen, halive⟩ : q.readopen = true ∧ killed = false := by simpa using h
        split
        · next hfull => exact .noRoom hi hopen hfull
        · next hroom =>
          split
          · next hsrc => exact .noByte hi hsrc
          · next hsrc => exact .store hi hopen halive hroom hsrc
    · next hi => exact .wrote hi
  | full => exact .sleepFull
  | read =>
    unfold Code.exec
    dsimp only
    split
    · next h =>
      split
      · next hk => exact .noReader h.1 hk
      · exact .sleepEmpty h.1 h.2
    · next h => exact .ready h
  | copy =>
    unfold Code.exec
    dsimp only
    split
    · split
      · exact .copied
      · next hne =>
        split
        · next hok => exact .take hne hok
        · next hok => exact .lose hne (by simpa using hok)
    · exact .copied
  | close writable =>
    cases writable with
    | true => exact .closeWrite
    | false => exact .closeRead
  | leave => cases hc

/-- What a process that sleeps on the channel waits for: bytes or the end of them, room or nobody
who needs it. -/
def Chan.cond (q : Pipe) : Chan → Bool
  | .nread => !(q.nread = q.nwrite ∧ q.writeopen = true)
  | .nwrite => !(q.nwrite = q.nread + BitVec.ofNat 32 pipesize ∧ q.readopen = true)

/-- The pipe at address `pi`, which processes use as long as one of its ends is open. -/
def obj (pi : Nat) : Monitor.Obj Code Pipe Chan where
  addr := Chan.addr pi
  chan := Code.chan
  cond ch q := ch.cond q
  isCall process c q := process && c.isCall && (q.readopen || q.writeopen)
  isLeave := Code.isLeave
  exec killed q c := c.exec killed q

abbrev State (n : Nat) := Monitor.State n Code Pipe Chan

structure Empty (q : Pipe) : Prop where
  nread : q.nread = 0
  nwrite : q.nwrite = 0
  readopen : q.readopen = true
  writeopen : q.writeopen = true
  stored : q.stored = []
  taken : q.taken = []

/-- The states of runs from a new pipe whose steps all have `C`. -/
abbrev Reachable {n : Nat} (pi : Nat) (C : State n → Monitor.Label n Code → Prop) :
    State n → Prop :=
  Monitor.Reachable (obj pi) Empty C

def running (n : Nat) : State n := Monitor.running n { data := fun _ => 0 }

theorem running_reachable {n : Nat} (pi : Nat) (C : State n → Monitor.Label n Code → Prop) :
    Reachable pi C (running n) :=
  .init (Monitor.running_fresh n _) ⟨rfl, rfl, rfl, rfl, rfl, rfl⟩

end Xv6.Pipes
