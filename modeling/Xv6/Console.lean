import Xv6.Misc.ByteMem
import Xv6.Sync.Monitor

/-!
# The console

`consoleread` and `consoleintr` of `kernel/console.c`, as code under `cons.lock`. A reader makes one
step for each byte, the interrupt handler one step for each character. A handler that has interrupted
a process is an agent of its own, too: its `wakeup` leaves out that process, which is not asleep. The
echo (`consputc`) and the list of processes (`procdump`) are output and left out.
-/

namespace Xv6.Console

open ByteMem
open Monitor (Next)

def inputBufSize : Nat := 128

def ctrlD : Byte := 0x04
def ctrlH : Byte := 0x08
def ctrlP : Byte := 0x10
def ctrlU : Byte := 0x15
def newline : Byte := 0x0a
def carriageReturn : Byte := 0x0d
def delete : Byte := 0x7f

structure Cons where
  buf : Nat → Byte
  /-- the index at which readers read -/
  r : BitVec 32 := 0
  /-- the end of the lines that readers may read -/
  w : BitVec 32 := 0
  /-- the end of the line that is edited -/
  e : BitVec 32 := 0

namespace Cons

/-- The loop of `C('U')`, which makes at most `k` iterations. -/
def killLine (q : Cons) : Nat → Cons
  | 0 => q
  | k + 1 =>
    if q.e ≠ q.w ∧ q.buf ((q.e - 1).toNat % inputBufSize) ≠ newline then
      killLine { q with e := q.e - 1 } k
    else
      q

/-- The default case of `consoleintr`, and whether it calls `wakeup`. -/
def store (q : Cons) (c : Byte) : Cons × Bool :=
  let c := if c = carriageReturn then newline else c
  let q := { q with buf := Function.update q.buf (q.e.toNat % inputBufSize) c, e := q.e + 1 }
  if c = newline ∨ c = ctrlD ∨ q.e - q.r = BitVec.ofNat 32 inputBufSize then
    ({ q with w := q.e }, true)
  else
    (q, false)

/-- `consoleintr`, and whether it calls `wakeup`. The loop of `C('U')` decrements `e` until it is `w`,
if not before. -/
def intr (q : Cons) (c : Byte) : Cons × Bool :=
  if c = ctrlP then
    (q, false)
  else if c = ctrlU then
    (q.killLine (q.e - q.w).toNat, false)
  else if c = ctrlH ∨ c = delete then
    (if q.e ≠ q.w then { q with e := q.e - 1 } else q, false)
  else if c ≠ 0 ∧ q.e - q.r < BitVec.ofNat 32 inputBufSize then
    q.store c
  else
    (q, false)

end Cons

/-- What happens to the input: a character is typed, or a reader takes a byte out of the buffer. -/
inductive Event where
  | input (c : Byte)
  | take

/-- A call of `consoleread` that has returned: the bytes that were copied to the reader, whether it
took a `C('D')` out of the buffer, and the value it returned. -/
structure Read where
  got : List Byte
  eof : Bool
  ret : Int

/-- `cons` with its history: the events, the bytes that were copied to readers, and the calls of
`consoleread` that have returned. -/
structure Recorded extends Cons where
  events : List Event := []
  delivered : List Byte := []
  reads : List Read := []

def Recorded.returns (q : Recorded) (got : List Byte) (eof : Bool) (ret : Int) : Recorded :=
  { q with reads := q.reads ++ [⟨got, eof, ret⟩] }

def Recorded.take (q : Recorded) : Recorded := { q with r := q.r + 1, events := q.events ++ [.take] }

def Recorded.intr (q : Recorded) (c : Byte) : Recorded :=
  { q with toCons := (q.toCons.intr c).1, events := q.events ++ [.input c] }

/-- Points in the code where the agent has `cons.lock`. -/
inductive Code where
  /-- the head of the loop of `consoleread`, which can copy byte `i` to the reader if `ok i`; `got` is
  what it has copied -/
  | read (ok : Nat → Bool) (target n : Int) (got : List Byte)
  | intr (c : Byte)
  /-- before the last `release`, with the value that is returned -/
  | leave (r : Int)

/-- One iteration of the loop of `consoleread` when there is a byte. -/
def Recorded.readByte (q : Recorded) (ok : Nat → Bool) (target n : Int) (got : List Byte) :
    Recorded × Next Code Unit :=
  let c := q.buf (q.r.toNat % inputBufSize)
  if c = ctrlD then
    -- with bytes copied, `cons.r--` takes `cons.r++` back
    if n < target then
      (q.returns got false (target - n), .go (.leave (target - n)))
    else
      (q.take.returns got true (target - n), .go (.leave (target - n)))
  else if ok (target - n).toNat then
    let q := { q.take with delivered := q.delivered ++ [c] }
    if c = newline then
      (q.returns (got ++ [c]) false (target - (n - 1)), .go (.leave (target - (n - 1))))
    else
      (q, .go (.read ok target (n - 1) (got ++ [c])))
  else
    (q.take.returns got false (target - n), .go (.leave (target - n)))

/-- One step of the code from a point with `cons.lock`. -/
def Code.exec (killed : Bool) (q : Recorded) : Code → Recorded × Next Code Unit
  | .read ok target n got =>
    if 0 < n then
      if q.r = q.w then
        if killed then (q.returns got false (-1), .go (.leave (-1)))
        else (q, .sleep (.read ok target n got))
      else
        q.readByte ok target n got
    else
      (q.returns got false (target - n), .go (.leave (target - n)))
  | .intr c => (q.intr c, if (q.toCons.intr c).2 then .wakeup () (.leave 0) else .go (.leave 0))
  | .leave r => (q, .go (.leave r))

inductive Exec (killed : Bool) (q : Recorded) : Code → Recorded → Next Code Unit → Prop where
  /-- the reader has all it asked for -/
  | enough {ok : Nat → Bool} {target n : Int} {got : List Byte} (hn : ¬0 < n) :
    Exec killed q (.read ok target n got) (q.returns got false (target - n))
      (.go (.leave (target - n)))
  | noReader {ok : Nat → Bool} {target n : Int} {got : List Byte} (hempty : q.r = q.w) :
    Exec killed q (.read ok target n got) (q.returns got false (-1)) (.go (.leave (-1)))
  | sleep {ok : Nat → Bool} {target n : Int} {got : List Byte} (hempty : q.r = q.w) :
    Exec killed q (.read ok target n got) q (.sleep (.read ok target n got))
  /-- `C('D')` is left for the next reader -/
  | keepEof {ok : Nat → Bool} {target n : Int} {got : List Byte} (hne : q.r ≠ q.w) :
    Exec killed q (.read ok target n got) (q.returns got false (target - n))
      (.go (.leave (target - n)))
  | takeEof {ok : Nat → Bool} {target n : Int} {got : List Byte} (hne : q.r ≠ q.w)
      (hc : q.buf (q.r.toNat % inputBufSize) = ctrlD) (hn : target ≤ n) :
    Exec killed q (.read ok target n got) (q.take.returns got true (target - n))
      (.go (.leave (target - n)))
  | lose {ok : Nat → Bool} {target n : Int} {got : List Byte} (hne : q.r ≠ q.w)
      (hok : ok (target - n).toNat = false) :
    Exec killed q (.read ok target n got) (q.take.returns got false (target - n))
      (.go (.leave (target - n)))
  | endOfLine {ok : Nat → Bool} {target n : Int} {got : List Byte} (hne : q.r ≠ q.w)
      (hc : q.buf (q.r.toNat % inputBufSize) ≠ ctrlD) :
    Exec killed q (.read ok target n got)
      (Recorded.returns
        { q.take with delivered := q.delivered ++ [q.buf (q.r.toNat % inputBufSize)] }
        (got ++ [q.buf (q.r.toNat % inputBufSize)]) false (target - (n - 1)))
      (.go (.leave (target - (n - 1))))
  | copy {ok : Nat → Bool} {target n : Int} {got : List Byte} (hne : q.r ≠ q.w)
      (hc : q.buf (q.r.toNat % inputBufSize) ≠ ctrlD) :
    Exec killed q (.read ok target n got)
      { q.take with delivered := q.delivered ++ [q.buf (q.r.toNat % inputBufSize)] }
      (.go (.read ok target (n - 1) (got ++ [q.buf (q.r.toNat % inputBufSize)])))
  | commit {c : Byte} (hc : (q.toCons.intr c).2 = true) :
    Exec killed q (.intr c) (q.intr c) (.wakeup () (.leave 0))
  | edit {c : Byte} (hc : (q.toCons.intr c).2 = false) :
    Exec killed q (.intr c) (q.intr c) (.go (.leave 0))

/-- The calls of processes (`consoleread`) and of interrupt handlers (`consoleintr`). -/
def Code.isCall (process : Bool) : Code → Bool
  | .read _ target n got => process && n = target && got.isEmpty
  | .intr _ => !process
  | .leave _ => false

def Code.isLeave : Code → Bool
  | .leave _ => true
  | _ => false

theorem Recorded.readByte_spec {q : Recorded} (hne : q.r ≠ q.w) (killed : Bool) (ok : Nat → Bool)
    (target n : Int) (got : List Byte) :
    Exec killed q (.read ok target n got) (q.readByte ok target n got).1
      (q.readByte ok target n got).2 := by
  unfold Recorded.readByte
  dsimp only
  split
  · next hc =>
    split
    · exact .keepEof hne
    · next hn => exact .takeEof hne hc (by omega)
  · next hc =>
    split
    · split
      · exact .endOfLine hne hc
      · exact .copy hne hc
    · next hok => exact .lose hne (by simpa using hok)

theorem Code.exec_spec {c : Code} (hc : c.isLeave = false) (killed : Bool) (q : Recorded) :
    Exec killed q c (c.exec killed q).1 (c.exec killed q).2 := by
  cases c with
  | read ok target n got =>
    unfold Code.exec
    dsimp only
    split
    · split
      · next hempty =>
        split
        · exact .noReader hempty
        · exact .sleep hempty
      · next hne => exact Recorded.readByte_spec hne killed ok target n got
    · next hn => exact .enough hn
  | intr =>
    unfold Code.exec
    dsimp only
    split
    · next h => exact .commit h
    · next h => exact .edit (by simpa using h)
  | leave => cases hc

/-- The console, whose only channel is `&cons.r`, at address `addr`. -/
def obj (addr : Nat) : Monitor.Obj Code Recorded Unit where
  addr _ := addr
  chan _ := ()
  cond _ q := q.r ≠ q.w
  isCall process c _ := c.isCall process
  isLeave := Code.isLeave
  exec killed q c := c.exec killed q

abbrev State (n : Nat) := Monitor.State n Code Recorded Unit

structure Empty (q : Recorded) : Prop where
  r : q.r = 0
  w : q.w = 0
  e : q.e = 0
  events : q.events = []
  delivered : q.delivered = []
  reads : q.reads = []

/-- The states of runs from the start of the system whose steps all have `C`. -/
abbrev Reachable {n : Nat} (addr : Nat) (C : State n → Monitor.Label n Code → Prop) :
    State n → Prop :=
  Monitor.Reachable (obj addr) Empty C

def running (n : Nat) : State n := Monitor.running n { buf := fun _ => 0 }

theorem running_reachable {n : Nat} (addr : Nat) (C : State n → Monitor.Label n Code → Prop) :
    Reachable addr C (running n) :=
  .init (Monitor.running_fresh n _) ⟨rfl, rfl, rfl, rfl, rfl, rfl⟩

end Xv6.Console
