import Xv6.Fs
import Xv6.Misc.Dll
import Xv6.Misc.Wp

/-!
# The buffer cache and the log

`kernel/bio.c` with its list of buffers, and `kernel/log.c` over it. The code is run by one process
at a time: a sleep-lock that is held when it is asked for is never released, so the run stops
there. There is one disk, and `virtio_disk_rw` is the transfer of one block.
-/

namespace Xv6.Bio

open Fs (Block)
open Dll (Links)
open Function (update)

def nbuf : Nat := 30

def rootdev : Nat := 1

def logsize : Nat := 30

def maxopblocks : Nat := 10

abbrev Bp := Fin nbuf

structure Buf where
  valid : Bool := false
  dev : Nat := 0
  blockno : Nat := 0
  locked : Bool := false
  refcnt : BitVec 32 := 0
  data : Block := fun _ => 0

structure LogHeader where
  n : Nat := 0
  block : Nat → Nat := fun _ => 0

structure Log where
  start : Nat := 0
  size : Nat := 0
  outstanding : Int := 0
  committing : Bool := false
  lh : LogHeader := {}

/-- The fields of `struct superblock` that the kernel reads. -/
structure Superblock where
  magic : Nat := 0
  size : Nat := 0
  ninodes : Nat := 0
  nlog : Nat := 0
  logstart : Nat := 0
  inodestart : Nat := 0
  bmapstart : Nat := 0

/-- The buffers, the disk and `log`. The link `none` is `&bcache.head`. -/
structure State where
  buf : Bp → Buf := fun _ => {}
  links : Links Bp
  disk : Nat → Block
  log : Log := {}
  sb : Superblock := {}

inductive Stop where
  | bgetNoBuffers
  /-- a walk along the list does not come back to the head -/
  | loops
  /-- a process sleeps for a lock that it holds itself -/
  | acquiresleep
  | bwrite
  | brelse
  | invalidFileSystem
  /-- more blocks in the header on disk than `log.lh.block` has room for -/
  | readHead
  | logCommitting
  /-- `begin_op` waits for other operations -/
  | beginOp
  | tooBigTransaction
  | outsideTrans
  | freeingFreeBlock
  | ilockNoType
  | bmapRange
  deriving DecidableEq, Repr

abbrev M := StateT State (Except Stop)

def setBuf (b : Bp) (f : Buf → Buf) : M Unit :=
  modify fun s => { s with buf := update s.buf b (f (s.buf b)) }

def setLog (f : Log → Log) : M Unit := modify fun s => { s with log := f s.log }

/-! ## bio.c -/

def binit (s : State) : State :=
  let links : Links Bp :=
    { next := update s.links.next none none, prev := update s.links.prev none none }
  { s with links := (List.finRange nbuf).foldl Links.pushFront links }

def bgetRef (dev blockno : Nat) : M Bp := do
  let s ← get
  -- is the block already cached?
  match Dll.scan s.links.next (fun b => (s.buf b).dev = dev ∧ (s.buf b).blockno = blockno)
      (nbuf + 1) none with
  | none => throw .loops
  | some (some b) => do
    setBuf b fun x => { x with refcnt := x.refcnt + 1 }
    return b
  | some none =>
    -- recycle the least recently used unused buffer
    match Dll.scan s.links.prev (fun b => (s.buf b).refcnt = 0) (nbuf + 1) none with
    | none => throw .loops
    | some (some b) => do
      setBuf b fun x => { x with dev := dev, blockno := blockno, valid := false, refcnt := 1 }
      return b
    | some none => throw .bgetNoBuffers

def acquiresleep (b : Bp) : M Unit := do
  let s ← get
  if (s.buf b).locked then throw .acquiresleep else setBuf b fun x => { x with locked := true }

def bget (dev blockno : Nat) : M Bp := do
  let b ← bgetRef dev blockno
  acquiresleep b
  return b

def diskRead (b : Bp) : M Unit :=
  modify fun s => { s with
    buf := update s.buf b { s.buf b with data := s.disk (s.buf b).blockno } }

def diskWrite (b : Bp) : M Unit :=
  modify fun s => { s with disk := update s.disk (s.buf b).blockno (s.buf b).data }

def bread (dev blockno : Nat) : M Bp := do
  let b ← bget dev blockno
  let s ← get
  if !(s.buf b).valid then do
    diskRead b
    setBuf b fun x => { x with valid := true }
    return b
  else
    return b

def bwrite (b : Bp) : M Unit := do
  let s ← get
  if !(s.buf b).locked then throw .bwrite else diskWrite b

def bput (b : Bp) : M Unit := do
  setBuf b fun x => { x with refcnt := x.refcnt - 1 }
  let s ← get
  if (s.buf b).refcnt = 0 then
    set { s with links := (s.links.unlink b).pushFront b }
  else
    pure ()

def brelse (b : Bp) : M Unit := do
  let s ← get
  if !(s.buf b).locked then
    throw .brelse
  else do
    setBuf b fun x => { x with locked := false }
    bput b

def bpin (b : Bp) : M Unit := setBuf b fun x => { x with refcnt := x.refcnt + 1 }

def bunpin (b : Bp) : M Unit := setBuf b fun x => { x with refcnt := x.refcnt - 1 }

/-! ## log.c -/

def setData (b : Bp) (d : Block) : M Unit := setBuf b fun x => { x with data := d }

/-- `write_head` in the buffer: `n` and the first `n` entries of `block`. -/
def LogHeader.encode (lh : LogHeader) (d : Block) : Block :=
  (List.range lh.n).foldl (fun d i => Fs.Block.setWord d (i + 1) (lh.block i))
    (Fs.Block.setWord d 0 lh.n)

def writeHead : M Unit := do
  let s ← get
  let b ← bread rootdev s.log.start
  let s ← get
  setData b (s.log.lh.encode (s.buf b).data)
  bwrite b
  brelse b

/-- `read_head`. As an `int`, an `n` from `2 ^ 31` on is negative and runs no iteration. -/
def readHead : M Unit := do
  let s ← get
  let b ← bread rootdev s.log.start
  let s ← get
  let d := (s.buf b).data
  let n := Fs.Block.word d 0
  let n := if n < 2 ^ 31 then n else 0
  if logsize < n then
    throw .readHead
  else do
    setLog fun l => { l with lh := { n := n, block := fun i => Fs.Block.word d (i + 1) } }
    brelse b

def installTail (recovering : Bool) (tail : Nat) : M Unit := do
  let s ← get
  let lbuf ← bread rootdev (s.log.start + tail + 1)
  let dbuf ← bread rootdev (s.log.lh.block tail)
  let s ← get
  setData dbuf (s.buf lbuf).data
  bwrite dbuf
  if recovering then pure () else bunpin dbuf
  brelse lbuf
  brelse dbuf

def installTrans (recovering : Bool) : M Unit := do
  let s ← get
  forRange (installTail recovering) s.log.lh.n 0

def recoverFromLog : M Unit := do
  readHead
  installTrans true
  setLog fun l => { l with lh := { l.lh with n := 0 } }
  writeHead

def initlog : M Unit := do
  let s ← get
  setLog fun l => { l with start := s.sb.logstart, size := s.sb.nlog }
  recoverFromLog

/-- `begin_op`; it does not return if the operation has to wait. -/
def beginOp : M Unit := do
  let s ← get
  if s.log.committing then
    throw .beginOp
  else if s.log.lh.n + (s.log.outstanding + 1) * maxopblocks > logsize then
    throw .beginOp
  else
    setLog fun l => { l with outstanding := l.outstanding + 1 }

def writeLogTail (tail : Nat) : M Unit := do
  let s ← get
  let tobuf ← bread rootdev (s.log.start + tail + 1)
  let frombuf ← bread rootdev (s.log.lh.block tail)
  let s ← get
  setData tobuf (s.buf frombuf).data
  bwrite tobuf
  brelse frombuf
  brelse tobuf

def writeLog : M Unit := do
  let s ← get
  forRange writeLogTail s.log.lh.n 0

def commit : M Unit := do
  let s ← get
  if 0 < s.log.lh.n then do
    writeLog
    writeHead
    installTrans false
    setLog fun l => { l with lh := { l.lh with n := 0 } }
    writeHead
  else
    pure ()

def endOp : M Unit := do
  setLog fun l => { l with outstanding := l.outstanding - 1 }
  let s ← get
  if s.log.committing then
    throw .logCommitting
  else if s.log.outstanding = 0 then do
    setLog fun l => { l with committing := true }
    commit
    setLog fun l => { l with committing := false }
  else
    pure ()

/-- The index at which the absorption loop of `log_write` ends. -/
def LogHeader.find (lh : LogHeader) (blockno : Nat) : Nat :=
  ((List.range lh.n).find? fun i => lh.block i = blockno).getD lh.n

def logWrite (b : Bp) : M Unit := do
  let s ← get
  let lh := s.log.lh
  if logsize ≤ lh.n ∨ (s.log.size : Int) - 1 ≤ lh.n then
    throw .tooBigTransaction
  else if s.log.outstanding < 1 then
    throw .outsideTrans
  else do
    let i := lh.find (s.buf b).blockno
    setLog fun l => { l with
      lh := { l.lh with block := update l.lh.block i (s.buf b).blockno } }
    if i = lh.n then do
      bpin b
      setLog fun l => { l with lh := { l.lh with n := l.lh.n + 1 } }
    else
      pure ()

end Xv6.Bio
