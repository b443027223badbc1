import Xv6.Fs
import Xv6.Proc

/-!
# Open files and the file-system calls

`kernel/file.c`, `kernel/sysfile.c` and what `fork`, `exec` and `exit` do to files. A call is a
function of the process that makes it and of what it finds in user memory: a path, or nothing
where `argstr` fails, and which bytes of a buffer can be copied. Reads and writes of pipes and of
the console leave the file system alone and return a given number.
-/

namespace Xv6.Fs

open ByteMem
open Function (update)

/-! ## Tables -/

def nfile : Nat := 100

def nofile : Nat := 16

def ndev : Int := 10

/-- `CONSOLE`, the one device that has `read` and `write`. -/
def console : Int := 1

def maxpath : Nat := 128

inductive FdType where
  | none | pipe | inode | device
  deriving DecidableEq, Repr

structure File where
  type : FdType := .none
  ref : Int := 0
  readable : Bool := false
  writable : Bool := false
  pipe : Nat := 0
  ip : Ip := ⟨0, ninode_pos⟩
  off : Nat := 0
  major : Int := 0

abbrev Fp := Fin nfile

/-- The ends of a `struct pipe`, and whether its page has been freed. -/
structure Pipe where
  readopen : Bool := true
  writeopen : Bool := true
  freed : Bool := false

structure Files where
  ofile : Fin nofile → Option Fp := fun _ => .none
  cwd : Option Ip := .none

/-- The file system with its users. The pipes so far have the numbers below `npipe`. -/
structure Sys where
  fs : State
  file : Fp → File := fun _ => {}
  proc : Slot → Files := fun _ => {}
  pipe : Nat → Pipe := fun _ => {}
  npipe : Nat := 0

abbrev S := StateT Sys (Except Stop)

def fs {α : Type} (m : F α) : S α := fun s =>
  match m s.fs with
  | .ok (a, t) => .ok (a, { s with fs := t })
  | .error e => .error e

def setFile (f : Fp) (g : File → File) : S Unit :=
  modify fun s => { s with file := update s.file f (g (s.file f)) }

def setFiles (p : Slot) (g : Files → Files) : S Unit :=
  modify fun s => { s with proc := update s.proc p (g (s.proc p)) }

def getCwd (p : Slot) : S Ip := do
  let s ← get
  match (s.proc p).cwd with
  | .none => throw .corrupt
  | some ip => return ip

/-- A string that `argstr` copies from user memory. -/
structure Path where
  bytes : Name
  noNul : ∀ b ∈ bytes, b ≠ 0
  length_lt : bytes.length < maxpath

variable (sb : Super)

/-! ## file.c -/

def filealloc : S (Option Fp) := do
  let s ← get
  match (List.finRange nfile).find? fun f => (s.file f).ref = 0 with
  | .none => return .none
  | some f => do
    setFile f fun x => { x with ref := 1 }
    return some f

def filedup (f : Fp) : S Unit := do
  let s ← get
  if (s.file f).ref < 1 then throw .filedup else setFile f fun x => { x with ref := x.ref + 1 }

/-- The pipe after one of its ends has been closed: the page is freed with the second one. -/
def Pipe.closed (q : Pipe) (writable : Bool) : Pipe :=
  let q' := if writable then { q with writeopen := false } else { q with readopen := false }
  if !q'.readopen && !q'.writeopen then { q' with freed := true } else q'

def pipeclose (pi : Nat) (writable : Bool) : S Unit :=
  modify fun s => { s with pipe := update s.pipe pi ((s.pipe pi).closed writable) }

def fileclose (f : Fp) : S Unit := do
  let s ← get
  let ff := s.file f
  if ff.ref < 1 then
    throw .fileclose
  else if 0 < ff.ref - 1 then
    setFile f fun x => { x with ref := x.ref - 1 }
  else do
    setFile f fun x => { x with ref := 0, type := .none }
    match ff.type with
    | .pipe => pipeclose ff.pipe ff.writable
    | .inode | .device => fs (iput sb ff.ip)
    | .none => pure ()

structure Stat where
  ino : Nat
  type : FileType
  nlink : Int
  size : Nat

def stati (ip : Ip) : F Stat := do
  let s ← get
  let i := s.inode ip
  return { ino := i.inum, type := i.type, nlink := i.nlink, size := i.size }

/-- `filestat`; nothing where it returns -1. `ok` says whether the copy to the user succeeds. -/
def filestat (f : Fp) (ok : Bool) : S (Option Stat) := do
  let s ← get
  let ff := s.file f
  match ff.type with
  | .inode | .device => do
    fs (ilock sb ff.ip)
    let st ← fs (stati ff.ip)
    fs (iunlock ff.ip)
    if ok then return some st else return .none
  | .none | .pipe => return .none

def hasDev (major : Int) : Bool := 0 ≤ major && major < ndev && major = console

def toUint (n : Int) : Nat := (n % 2 ^ 32).toNat

def advance (f : Fp) (r : Int) : S Unit :=
  if r > 0 then setFile f fun x => { x with off := x.off + r.toNat } else pure ()

/-- `fileread`: what it returns, and the bytes it copies from an inode. `other` is what `piperead`
or `consoleread` would return. -/
def fileread (f : Fp) (ok : Nat → Nat → Bool) (n other : Int) : S (Int × List Byte) := do
  let s ← get
  let ff := s.file f
  if !ff.readable then
    return (-1, [])
  else
    match ff.type with
    | .pipe => return (other, [])
    | .device => if hasDev ff.major then return (other, []) else return (-1, [])
    | .inode => do
      fs (ilock sb ff.ip)
      let (r, bytes) ← fs (readi sb ff.ip ok ff.off (toUint n))
      advance f r
      fs (iunlock ff.ip)
      return (r, bytes)
    | .none => throw .fileread

def maxWrite : Int := (10 - 1 - 1 - 2) / 2 * bsize

def filewriteLoop (f : Fp) (src : Nat → Option Byte) (n : Int) : Nat → Nat → S Nat
  | 0, i => return i
  | fuel + 1, i =>
    if i < n then do
      let n1 := min (n - i) maxWrite
      let s ← get
      fs (ilock sb (s.file f).ip)
      let r ← fs (writei sb (s.file f).ip (fun j => src (i + j)) (s.file f).off n1.toNat)
      advance f r
      fs (iunlock (s.file f).ip)
      if r ≠ n1 then return i else filewriteLoop f src n fuel (i + r.toNat)
    else
      return i

/-- `filewrite`. `other` is what `pipewrite` or `consolewrite` would return. -/
def filewrite (f : Fp) (src : Nat → Option Byte) (n other : Int) : S Int := do
  let s ← get
  let ff := s.file f
  if !ff.writable then
    return -1
  else
    match ff.type with
    | .pipe => return other
    | .device => if hasDev ff.major then return other else return -1
    | .inode => do
      let i ← filewriteLoop sb f src n n.toNat 0
      if (i : Int) = n then return n else return -1
    | .none => throw .filewrite

/-- `pipealloc`. `page` says whether `kalloc` finds a page. -/
def pipealloc (page : Bool) : S (Option (Fp × Fp)) := do
  match ← filealloc with
  | .none => return .none
  | some f0 =>
    match ← filealloc with
    | .none => do
      fileclose sb f0
      return .none
    | some f1 =>
      if page then do
        let s ← get
        set { s with npipe := s.npipe + 1, pipe := update s.pipe s.npipe {} }
        setFile f0 fun x =>
          { x with type := .pipe, readable := true, writable := false, pipe := s.npipe }
        setFile f1 fun x =>
          { x with type := .pipe, readable := false, writable := true, pipe := s.npipe }
        return some (f0, f1)
      else do
        fileclose sb f0
        fileclose sb f1
        return .none

/-! ## Calls on descriptors -/

def argfd (p : Slot) (fd : Int) : S (Option (Fin nofile × Fp)) := do
  let s ← get
  if h : 0 ≤ fd ∧ fd < nofile then
    let i : Fin nofile := ⟨fd.toNat, by omega⟩
    match (s.proc p).ofile i with
    | .none => return .none
    | some f => return some (i, f)
  else
    return .none

def setFd (p : Slot) (fd : Fin nofile) (f : Option Fp) : S Unit :=
  setFiles p fun q => { q with ofile := update q.ofile fd f }

def fdalloc (p : Slot) (f : Fp) : S (Option (Fin nofile)) := do
  let s ← get
  match (List.finRange nofile).find? fun fd => ((s.proc p).ofile fd).isNone with
  | .none => return .none
  | some fd => do
    setFd p fd (some f)
    return some fd

def sysDup (p : Slot) (fd : Int) : S Int := do
  match ← argfd p fd with
  | .none => return -1
  | some (_, f) =>
    match ← fdalloc p f with
    | .none => return -1
    | some fd' => do
      filedup f
      return fd'.val

def sysRead (p : Slot) (fd n : Int) (ok : Nat → Nat → Bool) (other : Int) :
    S (Int × List Byte) := do
  match ← argfd p fd with
  | .none => return (-1, [])
  | some (_, f) => fileread sb f ok n other

def sysWrite (p : Slot) (fd n : Int) (src : Nat → Option Byte) (other : Int) : S Int := do
  match ← argfd p fd with
  | .none => return -1
  | some (_, f) => filewrite sb f src n other

def sysClose (p : Slot) (fd : Int) : S Int := do
  match ← argfd p fd with
  | .none => return -1
  | some (i, f) => do
    setFd p i .none
    fileclose sb f
    return 0

def sysFstat (p : Slot) (fd : Int) (ok : Bool) : S (Option Stat) := do
  match ← argfd p fd with
  | .none => return .none
  | some (_, f) => filestat sb f ok

/-- `sys_pipe`. `ok` says whether the copies to the user succeed. -/
def sysPipe (p : Slot) (page ok : Bool) : S Int := do
  match ← pipealloc sb page with
  | .none => return -1
  | some (rf, wf) =>
    match ← fdalloc p rf with
    | .none => do
      fileclose sb rf
      fileclose sb wf
      return -1
    | some fd0 =>
      match ← fdalloc p wf with
      | .none => do
        setFd p fd0 .none
        fileclose sb rf
        fileclose sb wf
        return -1
      | some fd1 =>
        if ok then
          return 0
        else do
          setFd p fd0 .none
          setFd p fd1 .none
          fileclose sb rf
          fileclose sb wf
          return -1

/-! ## Calls on paths -/

def dot : Name := [46]

def dotdot : Name := [46, 46]

/-- Add to the link count of an inode, a `short`, and write it to the disk. -/
def addNlink (ip : Ip) (d : Int) : F Unit :=
  isave sb ip fun i => { i with nlink := toInt16 (i.nlink + d) }

def linkBad (ip : Ip) : F Int := do
  ilock sb ip
  addNlink sb ip (-1)
  iunlockput sb ip
  return -1

/-- `sys_link`, in a process with current directory `cwd`. -/
def link (cwd : Ip) (old new : Name) : F Int := do
  match ← namei sb cwd old with
  | .none => return -1
  | some ip => do
    ilock sb ip
    let s ← get
    if (s.inode ip).type = .dir then do
      iunlockput sb ip
      return -1
    else do
      addNlink sb ip 1
      iunlock ip
      match ← nameiparent sb cwd new with
      | .none => linkBad sb ip
      | some (dp, name) => do
        ilock sb dp
        let s ← get
        let r ← dirlink sb dp name (s.inode ip).inum
        if r < 0 then do
          iunlockput sb dp
          linkBad sb ip
        else do
          iunlockput sb dp
          iput sb ip
          return 0

def isdiremptyLoop (dp : Ip) (size : Nat) : Nat → Nat → F Bool
  | 0, _ => return true
  | fuel + 1, off =>
    if off < size then do
      let de ← readDirent sb dp off .isdirempty
      if de.inum ≠ 0 then return false else isdiremptyLoop dp size fuel (off + direntSize)
    else
      return true

def isdirempty (dp : Ip) : F Bool := do
  let s ← get
  isdiremptyLoop sb dp (s.inode dp).size (s.inode dp).size (2 * direntSize)

def unlinkBad (dp : Ip) : F Int := do
  iunlockput sb dp
  return -1

def notEmpty (ip : Ip) : F Bool := do
  let s ← get
  if (s.inode ip).type = .dir then return !(← isdirempty sb ip) else return false

/-- `if(type == T_DIR){ dp->nlink += d; iupdate(dp); }` -/
def addDirNlink (type : FileType) (dp : Ip) (d : Int) : F Unit :=
  if type = .dir then addNlink sb dp d else pure ()

/-- `sys_unlink` from where the entry at `off` has been found and its inode locked. -/
def unlinkEntry (dp ip : Ip) (off : Nat) : F Int := do
  let s ← get
  if (s.inode ip).nlink < 1 then
    throw .unlinkNlink
  else if ← notEmpty sb ip then do
    iunlockput sb ip
    unlinkBad sb dp
  else do
    let r ← writei sb dp (fun _ => some 0) off direntSize
    if r ≠ direntSize then
      throw .unlinkWritei
    else do
      addDirNlink sb (s.inode ip).type dp (-1)
      iunlockput sb dp
      addNlink sb ip (-1)
      iunlockput sb ip
      return 0

def unlink (cwd : Ip) (path : Name) : F Int := do
  match ← nameiparent sb cwd path with
  | .none => return -1
  | some (dp, name) => do
    ilock sb dp
    if name = dot ∨ name = dotdot then
      unlinkBad sb dp
    else
      match ← dirlookup sb dp name with
      | .none => unlinkBad sb dp
      | some (ip, off) => do
        ilock sb ip
        unlinkEntry sb dp ip off

def createFail (ip dp : Ip) : F (Option Ip) := do
  isave sb ip fun i => { i with nlink := 0 }
  iunlockput sb ip
  iunlockput sb dp
  return .none

/-- `type == T_DIR` and the entries `.` and `..` cannot be made. -/
def dotsFail (type : FileType) (ip dp : Ip) : F Bool := do
  if type = .dir then do
    let s ← get
    let r ← dirlink sb ip dot (s.inode ip).inum
    if r < 0 then
      return true
    else do
      let s ← get
      let r ← dirlink sb ip dotdot (s.inode dp).inum
      return r < 0
  else
    return false

def createEntry (dp ip : Ip) (name : Name) (type : FileType) (major minor : Int) :
    F (Option Ip) := do
  ilock sb ip
  isave sb ip fun i => { i with major := major, minor := minor, nlink := 1 }
  if ← dotsFail sb type ip dp then
    createFail sb ip dp
  else do
    let s ← get
    let r ← dirlink sb dp name (s.inode ip).inum
    if r < 0 then
      createFail sb ip dp
    else do
      addDirNlink sb type dp 1
      iunlockput sb dp
      return some ip

def create (cwd : Ip) (path : Name) (type : FileType) (major minor : Int) : F (Option Ip) := do
  match ← nameiparent sb cwd path with
  | .none => return .none
  | some (dp, name) => do
    ilock sb dp
    match ← dirlookup sb dp name with
    | some (ip, _) => do
      iunlockput sb dp
      ilock sb ip
      let s ← get
      if type = .file ∧ ((s.inode ip).type = .file ∨ (s.inode ip).type = .device) then
        return some ip
      else do
        iunlockput sb ip
        return .none
    | .none =>
      match ← ialloc sb type with
      | .none => do
        iunlockput sb dp
        return .none
      | some ip => createEntry sb dp ip name type major minor

def oWronly : BitVec 32 := 0x001

def oRdwr : BitVec 32 := 0x002

def oCreate : BitVec 32 := 0x200

def oTrunc : BitVec 32 := 0x400

def hasFlag (omode flag : BitVec 32) : Bool := omode &&& flag ≠ 0

/-- `sys_open` up to where the inode is found and locked. -/
def openInode (cwd : Ip) (path : Name) (omode : BitVec 32) : F (Option Ip) := do
  if hasFlag omode oCreate then
    create sb cwd path .file 0 0
  else
    match ← namei sb cwd path with
    | .none => return .none
    | some ip => do
      ilock sb ip
      let s ← get
      if (s.inode ip).type = .dir ∧ omode ≠ 0 then do
        iunlockput sb ip
        return .none
      else
        return some ip

/-- `if((omode & O_TRUNC) && ip->type == T_FILE) itrunc(ip)` -/
def openTrunc (ip : Ip) (omode : BitVec 32) : F Unit := do
  let s ← get
  if hasFlag omode oTrunc ∧ (s.inode ip).type = .file then itrunc sb ip else pure ()

/-- The `struct file` after `sys_open` has filled it in for an inode. -/
def File.opened (x : File) (i : Inode) (ip : Ip) (omode : BitVec 32) : File :=
  let x := if i.type = .device then { x with type := .device, major := i.major }
    else { x with type := .inode, off := 0 }
  { x with
    ip := ip
    readable := !hasFlag omode oWronly
    writable := hasFlag omode oWronly || hasFlag omode oRdwr }

/-- `sys_open` from where the descriptor has been allocated. -/
def openFile (ip : Ip) (f : Fp) (omode : BitVec 32) : S Unit := do
  let s ← get
  setFile f fun x => x.opened (s.fs.inode ip) ip omode
  fs (openTrunc sb ip omode)
  fs (iunlock ip)

def sysOpen (p : Slot) (path : Option Path) (omode : BitVec 32) : S Int := do
  match path with
  | .none => return -1
  | some path => do
    let cwd ← getCwd p
    match ← fs (openInode sb cwd path.bytes omode) with
    | .none => return -1
    | some ip => do
      let s ← get
      let i := s.fs.inode ip
      if i.type = .device ∧ (i.major < 0 ∨ ndev ≤ i.major) then do
        fs (iunlockput sb ip)
        return -1
      else
        match ← filealloc with
        | .none => do
          fs (iunlockput sb ip)
          return -1
        | some f =>
          match ← fdalloc p f with
          | .none => do
            fileclose sb f
            fs (iunlockput sb ip)
            return -1
          | some fd => do
            openFile sb ip f omode
            return fd.val

def sysCreate (p : Slot) (path : Option Path) (type : FileType) (major minor : Int) : S Int := do
  match path with
  | .none => return -1
  | some path => do
    let cwd ← getCwd p
    match ← fs (create sb cwd path.bytes type major minor) with
    | .none => return -1
    | some ip => do
      fs (iunlockput sb ip)
      return 0

def sysMkdir (p : Slot) (path : Option Path) : S Int := sysCreate sb p path .dir 0 0

def sysMknod (p : Slot) (path : Option Path) (major minor : Int) : S Int :=
  sysCreate sb p path .device (toInt16 major) (toInt16 minor)

def sysLink (p : Slot) (old new : Option Path) : S Int := do
  match old, new with
  | some old, some new => do
    let cwd ← getCwd p
    fs (link sb cwd old.bytes new.bytes)
  | _, _ => return -1

def sysUnlink (p : Slot) (path : Option Path) : S Int := do
  match path with
  | .none => return -1
  | some path => do
    let cwd ← getCwd p
    fs (unlink sb cwd path.bytes)

def sysChdir (p : Slot) (path : Option Path) : S Int := do
  match path with
  | .none => return -1
  | some path => do
    let cwd ← getCwd p
    match ← fs (namei sb cwd path.bytes) with
    | .none => return -1
    | some ip => do
      fs (ilock sb ip)
      let s ← get
      if (s.fs.inode ip).type ≠ .dir then do
        fs (iunlockput sb ip)
        return -1
      else do
        fs (iunlock ip)
        fs (iput sb cwd)
        setFiles p fun q => { q with cwd := some ip }
        return 0

/-- The reads that `exec` makes of an inode: offsets and lengths. -/
def readAll (ip : Ip) : List (Nat × Nat) → F Unit
  | [] => pure ()
  | (off, n) :: rest => do
    let _ ← readi sb ip (fun _ _ => true) off n
    readAll ip rest

/-- What `exec` does to the file system. Which parts it reads, and what it returns, depends on
the content and on memory. -/
def sysExec (p : Slot) (path : Option Path) (reads : List (Nat × Nat)) (ret : Int) : S Int := do
  match path with
  | .none => return -1
  | some path => do
    let cwd ← getCwd p
    match ← fs (namei sb cwd path.bytes) with
    | .none => return -1
    | some ip => do
      fs (ilock sb ip)
      fs (readAll sb ip reads)
      fs (iunlockput sb ip)
      return ret

/-! ## Processes -/

/-- `fork` of `p` into the free slot `np`: an iteration of its loop over the descriptors. -/
def forkFd (p np : Slot) (fd : Nat) : S Unit := do
  let s ← get
  if h : fd < nofile then
    match (s.proc p).ofile ⟨fd, h⟩ with
    | .none => pure ()
    | some f => do
      filedup f
      setFd np ⟨fd, h⟩ (some f)
  else
    pure ()

def fork (p np : Slot) : S Unit := do
  forRange (forkFd p np) nofile 0
  let cwd ← getCwd p
  let ip ← fs (idup cwd)
  setFiles np fun q => { q with cwd := some ip }

/-- An iteration of the loop of `exit` over the descriptors. -/
def exitFd (p : Slot) (fd : Nat) : S Unit := do
  let s ← get
  if h : fd < nofile then
    match (s.proc p).ofile ⟨fd, h⟩ with
    | .none => pure ()
    | some f => do
      fileclose sb f
      setFd p ⟨fd, h⟩ .none
  else
    pure ()

def exit (p : Slot) : S Unit := do
  forRange (exitFd sb p) nofile 0
  let cwd ← getCwd p
  fs (iput sb cwd)
  setFiles p fun q => { q with cwd := .none }

/-! ## Runs -/

/-- A system call with its arguments and what it finds in user memory. -/
inductive Call where
  | dup (fd : Int)
  | read (fd n : Int) (ok : Nat → Nat → Bool) (other : Int)
  | write (fd n : Int) (src : Nat → Option Byte) (other : Int)
  | close (fd : Int)
  | fstat (fd : Int) (ok : Bool)
  | pipe (page ok : Bool)
  | open (path : Option Path) (omode : BitVec 32)
  | mkdir (path : Option Path)
  | mknod (path : Option Path) (major minor : Int)
  | link (old new : Option Path)
  | unlink (path : Option Path)
  | chdir (path : Option Path)
  | exec (path : Option Path) (reads : List (Nat × Nat)) (ret : Int)
  | fork (np : Slot)
  | exit

/-- The call by process `p`; `fork` and `exit` return what does not concern files. -/
def Call.run (p : Slot) : Call → S Int
  | .dup fd => sysDup p fd
  | .read fd n ok other => do return (← sysRead sb p fd n ok other).1
  | .write fd n src other => sysWrite sb p fd n src other
  | .close fd => sysClose sb p fd
  | .fstat fd ok => do
    match ← sysFstat sb p fd ok with
    | .none => return -1
    | some _ => return 0
  | .pipe page ok => sysPipe sb p page ok
  | .open path omode => sysOpen sb p path omode
  | .mkdir path => sysMkdir sb p path
  | .mknod path major minor => sysMknod sb p path major minor
  | .link old new => sysLink sb p old new
  | .unlink path => sysUnlink sb p path
  | .chdir path => sysChdir sb p path
  | .exec path reads ret => sysExec sb p path reads ret
  | .fork np => do
    Fs.fork p np
    return 0
  | .exit => do
    Fs.exit sb p
    return 0

/-- Process `p` can make the call: it runs, and `fork` is given a free slot. -/
def Call.enabled (s : Sys) (p : Slot) (c : Call) : Bool :=
  (s.proc p).cwd.isSome &&
    match c with
    | .fork np => (s.proc np).cwd.isNone
    | _ => true

/-- What `userinit` does to files: the first process is in the root directory. -/
def userinit : S Unit := do
  match ← fs (namei sb ⟨0, by decide⟩ [slash]) with
  | .none => pure ()
  | some ip => setFiles initproc fun q => { q with cwd := some ip }

end Xv6.Fs
