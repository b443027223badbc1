import Mathlib.Algebra.Ring.Int.Defs
import Mathlib.Algebra.Ring.Nat
import Mathlib.Data.List.Basic
import Mathlib.Logic.Function.Basic
import Mathlib.Logic.Relation

/-!
# The redo log

The write-ahead log of `kernel/log.c`, with what it uses of the buffer cache
(`kernel/bio.c`): `bread`, `bwrite`, `bpin`, `bunpin` and `brelse`. A disk block is its
256 ints, so the header block is read and written through the fields of
`struct logheader` as the source does. One step of the machine below is one locked section
of the source or one iteration of a loop that writes one disk block, so a crash can fall
between any two disk writes.
-/

namespace Xv6.Log

open Function (update)

def maxOpBlocks : Nat := 10

def logSize : Nat := maxOpBlocks * 3

abbrev Block := Fin 256 → BitVec 32

/-- A block number, `uint` in the source and `int` in the log header. -/
abbrev BlockNo := BitVec 32

/-- Where `initlog` found the log: `log.start` and `log.size` of the superblock. The region
holds at least the header block and does not wrap. -/
structure Config where
  start : Nat
  size : Nat
  pos : 0 < size
  fit : start + size < 2 ^ 32

/-- The block number of the `i`-th block of the log region; block 0 is the header. -/
def Config.logBlock (cfg : Config) (i : Nat) : BlockNo := BitVec.ofNat 32 (cfg.start + i)

def Config.Home (cfg : Config) (b : BlockNo) : Prop :=
  b.toNat < cfg.start ∨ cfg.start + cfg.size ≤ b.toNat

/-- The in-memory copy of `struct logheader`. -/
structure LogHeader where
  n : Nat
  block : Nat → BlockNo

/-- One `log_write`: the operation, the block and the contents it logged. -/
structure Write where
  op : Nat
  block : BlockNo
  data : Block

/-- Where the file-system code stands: no commit running, one of the disk writes of
`commit()`, or one of the steps of `recover_from_log()` after a crash. -/
inductive Phase where
  | running
  | writeLog (tail : Nat)
  | writeHead
  | install (tail : Nat)
  | erase
  | finish
  | readHead
  | reinstall (tail : Nat)
  | clear
  deriving DecidableEq

/-- The phases of `recover_from_log`, in which no file-system operation runs. -/
def Phase.recovering : Phase → Bool
  | .readHead | .reinstall _ | .clear => true
  | _ => false

/-- The phases of a commit whose header has not reached the disk. -/
def Phase.uncommitted : Phase → Bool
  | .writeLog _ | .writeHead => true
  | _ => false

/-- The disk, the buffer cache and `struct log`. `cache` holds the valid buffers, `pin` the
references taken by `bpin`, `lock` the operation that holds a buffer's sleep-lock. `active`
are the operations between `begin_op` and `end_op`. The last three fields are history: the
`log_write`s of the open transaction, the transactions handed to `commit` so far, and all
`log_write`s an operation ever made. -/
structure State where
  disk : BlockNo → Block
  cache : BlockNo → Option Block
  pin : BlockNo → Nat
  lock : BlockNo → Option Nat
  lh : LogHeader
  outstanding : Nat
  committing : Bool
  phase : Phase
  active : List Nat
  started : List Nat
  txn : List Write
  commits : List (List Write)
  wrote : Nat → List Write

/-! ## The buffer cache -/

/-- The contents `bread` returns: the valid buffer, else the block on disk. -/
def bread (s : State) (b : BlockNo) : Block := (s.cache b).getD (s.disk b)

def fill (s : State) (b : BlockNo) : State :=
  { s with cache := update s.cache b (some (bread s b)) }

def bwrite (s : State) (b : BlockNo) (d : Block) : State :=
  { s with
    cache := update s.cache b (some d)
    disk := update s.disk b d }

def bunpin (s : State) (b : BlockNo) : State := { s with pin := update s.pin b (s.pin b - 1) }

/-! ## The log header on disk -/

def word (d : Block) (i : Nat) : BitVec 32 := if h : i < 256 then d ⟨i, h⟩ else 0

/-- `write_head` on the buffer of the header block: set `n` and the first `n` entries of
`block`, and leave the rest of the buffer. -/
def encodeHead (lh : LogHeader) (d : Block) : Block := fun i =>
  if i.val = 0 then BitVec.ofNat 32 lh.n
  else if i.val ≤ lh.n then lh.block (i.val - 1)
  else d i

/-- `read_head`. A negative `n` runs no iteration of any loop, as 0 does. -/
def decodeHead (d : Block) : LogHeader :=
  { n := (word d 0).toInt.toNat, block := fun i => word d (i + 1) }

def writeHead (cfg : Config) (s : State) : State :=
  bwrite s (cfg.logBlock 0) (encodeHead s.lh (bread s (cfg.logBlock 0)))

/-- One iteration of `write_log`: copy the cached block to its log block and write it. -/
def writeLogTail (cfg : Config) (tail : Nat) (s : State) : State :=
  bwrite (fill s (s.lh.block tail)) (cfg.logBlock (tail + 1)) (bread s (s.lh.block tail))

/-- One iteration of `install_trans`: copy the log block to its home and write it. -/
def installTail (cfg : Config) (recovering : Bool) (tail : Nat) (s : State) : State :=
  let dst := s.lh.block tail
  let s' := bwrite (fill s (cfg.logBlock (tail + 1))) dst (bread s (cfg.logBlock (tail + 1)))
  if recovering then s' else bunpin s' dst

/-! ## Operations -/

/-- `begin_op` gets past its `while` loop: no commit is running and the operation's
reservation fits. -/
def canBegin (s : State) : Bool :=
  !s.committing && s.lh.n + (s.outstanding + 1) * maxOpBlocks ≤ logSize

def beginOp (s : State) (i : Nat) : State :=
  { s with
    outstanding := s.outstanding + 1
    active := i :: s.active
    started := i :: s.started }

/-- `bread` by operation `i` followed by its changes to the buffer; the sleep-lock stays
with `i`. -/
def modify (s : State) (i : Nat) (b : BlockNo) (d : Block) : State :=
  { s with
    cache := update s.cache b (some d)
    lock := update s.lock b (some i) }

/-- The panics of `log_write`: transaction too big, or outside of a transaction. -/
def logWritePanics (cfg : Config) (s : State) : Bool :=
  s.lh.n ≥ logSize || s.lh.n ≥ cfg.size - 1 || s.outstanding < 1

/-- The index at which `log_write` leaves its absorption loop. -/
def absorb (lh : LogHeader) (b : BlockNo) : Nat :=
  ((List.range lh.n).find? fun i => lh.block i == b).getD lh.n

/-- `log_write` of the buffer of `b` by operation `i`, and its `brelse`. -/
def logWrite (s : State) (i : Nat) (b : BlockNo) : State :=
  let k := absorb s.lh b
  let w : Write := ⟨i, b, bread s b⟩
  { s with
    lh := { n := if k = s.lh.n then s.lh.n + 1 else s.lh.n,
            block := update s.lh.block k b }
    pin := if k = s.lh.n then update s.pin b (s.pin b + 1) else s.pin
    lock := update s.lock b none
    txn := s.txn ++ [w]
    wrote := update s.wrote i (s.wrote i ++ [w]) }

/-- The first locked section of `end_op` of operation `i`. -/
def leaveOp (s : State) (i : Nat) : State :=
  { s with outstanding := s.outstanding - 1, active := s.active.erase i }

/-- `end_op` sets `log.committing` and enters `commit`, which has nothing to write when
`log.lh.n` is 0. -/
def startCommit (s : State) : State :=
  { s with
    committing := true
    phase := if 0 < s.lh.n then .writeLog 0 else .finish
    txn := []
    commits := s.commits ++ [s.txn] }

/-- `end_op` of operation `i`; the last outstanding operation starts the commit. -/
def endOp (s : State) (i : Nat) : State :=
  if (leaveOp s i).outstanding = 0 then startCommit (leaveOp s i) else leaveOp s i

/-- Memory is lost; the next boot starts with `recover_from_log`. A commit whose header is
not on disk is dropped from the history. -/
def crash (s : State) : State :=
  { s with
    cache := fun _ => none
    pin := fun _ => 0
    lock := fun _ => none
    lh := ⟨0, fun _ => 0⟩
    outstanding := 0
    committing := false
    phase := .readHead
    active := []
    txn := []
    commits := if s.phase.uncommitted then s.commits.dropLast else s.commits }

/-- The steps of the file system. Processes run operations while no recovery is in progress;
a process in `end_op` carries a commit through; other readers bring blocks into the cache
and recycle free buffers; the machine can crash in every state. -/
inductive Step (cfg : Config) : State → State → Prop where
  | beginOp (s : State) (i : Nat) : s.phase.recovering = false → canBegin s = true →
      i ∉ s.started → Step cfg s (beginOp s i)
  | modify (s : State) (i : Nat) (b : BlockNo) (d : Block) : i ∈ s.active → cfg.Home b →
      s.lock b = none → Step cfg s (modify s i b d)
  | logWrite (s : State) (i : Nat) (b : BlockNo) : s.lock b = some i →
      logWritePanics cfg s = false → Step cfg s (logWrite s i b)
  | endOp (s : State) (i : Nat) : i ∈ s.active → (∀ b, s.lock b ≠ some i) →
      s.committing = false → Step cfg s (endOp s i)
  | fill (s : State) (b : BlockNo) : s.cache b = none → Step cfg s (fill s b)
  | evict (s : State) (b : BlockNo) : s.pin b = 0 → s.lock b = none →
      Step cfg s { s with cache := update s.cache b none }
  | writeLog (s : State) (tail : Nat) : s.phase = .writeLog tail → tail < s.lh.n →
      Step cfg s { writeLogTail cfg tail s with phase := .writeLog (tail + 1) }
  | writeLogEnd (s : State) : s.phase = .writeLog s.lh.n → Step cfg s { s with phase := .writeHead }
  | writeHead (s : State) : s.phase = .writeHead →
      Step cfg s { writeHead cfg s with phase := .install 0 }
  | install (s : State) (tail : Nat) : s.phase = .install tail → tail < s.lh.n →
      Step cfg s { installTail cfg false tail s with phase := .install (tail + 1) }
  | installEnd (s : State) : s.phase = .install s.lh.n →
      Step cfg s { s with phase := .erase, lh := { s.lh with n := 0 } }
  | erase (s : State) : s.phase = .erase → Step cfg s { writeHead cfg s with phase := .finish }
  | finish (s : State) : s.phase = .finish →
      Step cfg s { s with committing := false, phase := .running }
  | crash (s : State) : Step cfg s (crash s)
  | readHead (s : State) : s.phase = .readHead → Step cfg s { fill s (cfg.logBlock 0) with
        lh := decodeHead (bread s (cfg.logBlock 0)), phase := .reinstall 0 }
  | reinstall (s : State) (tail : Nat) : s.phase = .reinstall tail → tail < s.lh.n →
      Step cfg s { installTail cfg true tail s with phase := .reinstall (tail + 1) }
  | reinstallEnd (s : State) : s.phase = .reinstall s.lh.n →
      Step cfg s { s with phase := .clear, lh := { s.lh with n := 0 } }
  | clear (s : State) : s.phase = .clear → Step cfg s { writeHead cfg s with phase := .running }

/-- The contents of the disk after a list of writes, in order. -/
def applyWrites (d : BlockNo → Block) (ws : List Write) : BlockNo → Block :=
  ws.foldl (fun d w => update d w.block w.data) d

/-- The state of the blocks after a sequence of commits. -/
def afterCommits (base : BlockNo → Block) (cs : List (List Write)) : BlockNo → Block :=
  applyWrites base cs.flatten

def writesOf (i : Nat) (ws : List Write) : List Write := ws.filter fun w => w.op == i

/-- A freshly booted file system on an image with an empty log. -/
structure Initial (cfg : Config) (base : BlockNo → Block) (s : State) : Prop where
  disk : s.disk = base
  head : (word (base (cfg.logBlock 0)) 0).toInt.toNat = 0
  cache : s.cache = fun _ => none
  pin : s.pin = fun _ => 0
  lock : s.lock = fun _ => none
  lh : s.lh.n = 0
  outstanding : s.outstanding = 0
  committing : s.committing = false
  phase : s.phase = .running
  active : s.active = []
  started : s.started = []
  txn : s.txn = []
  commits : s.commits = []
  wrote : s.wrote = fun _ => []

/-- The states of all runs from a boot on an image with an empty log. -/
def Reachable (cfg : Config) (base : BlockNo → Block) (s : State) : Prop :=
  ∃ s₀, Initial cfg base s₀ ∧ Relation.ReflTransGen (Step cfg) s₀ s

end Xv6.Log
