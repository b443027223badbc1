import Xv6.Riscv
import Xv6.Misc.ByteMem
import Xv6.Misc.Wp
import Mathlib.Logic.Function.Basic

/-!
# The page allocator

`kernel/kalloc.c`: a free list threaded through the free pages, and a reference count for each
page frame. A page frame is named by its number, the physical address divided by `PGSIZE`.
The counters cannot overflow an `int`: a page table maps a frame at most once, and there are
fewer than `NPROC + 2` tables at any time.
-/

namespace Xv6

open ByteMem
open Function (update)

/-- What stops the kernel: the calls of `panic`, and a fault in kernel mode. -/
inductive Panic where
  | kfree
  | kfreeRefCount
  /-- "Allocating a page that is already allocated" -/
  | kallocAllocated
  | incRef
  | walk
  | mappagesSize
  | mappagesRemap
  | uvmunmapAligned
  | uvmunmapWalk
  | uvmunmapMapped
  | uvmunmapLeaf
  | uvmfirst
  | freewalkLeaf
  /-- the recursion of `freewalk` runs off the kernel stack -/
  | freewalkStack
  | uvmcopyPte
  | uvmcopyPresent
  | uvmclear
  /-- "loadseg: address should exist" -/
  | loadseg
  | initExiting
  /-- "kerneltrap: Unknown interrupt", after a fault in kernel mode -/
  | kerneltrap
  deriving DecidableEq, Repr

/-- Physical memory, `kmem.freelist` and `refs`. -/
structure Kmem where
  mem : Mem
  freelist : Nat
  refs : Nat → Int

abbrev Vm := StateT Kmem (Except Panic)

/-- What is fixed before the first process runs: `end`, the page of `trampoline.S`, the address
of `usertrap`, and the `satp` of the kernel page table. -/
structure Layout where
  kend : Nat
  trampoline : Nat
  usertrap : BitVec 64
  satp : BitVec 64
  kend_ge : kernbase ≤ kend
  kend_le : kend ≤ phystop

def loadWord (a : Nat) : Vm (BitVec 64) := fun s => .ok (load64 s.mem a, s)

def storeWord (a : Nat) (w : BitVec 64) : Vm Unit := fun s =>
  .ok ((), { s with mem := store64 s.mem a w })

def memset (a : Nat) (v : Byte) (n : Nat) : Vm Unit := fun s =>
  .ok ((), { s with mem := fill s.mem a v n })

def memmove (dst src n : Nat) : Vm Unit := fun s =>
  .ok ((), { s with mem := move s.mem dst src n })

/-- `memmove` from kernel data that is not part of the model. -/
def memput (dst : Nat) (src : Nat → Byte) (n : Nat) : Vm Unit := fun s =>
  .ok ((), { s with mem := blit s.mem dst src n })

def incRef (pa : Nat) : Vm Unit := fun s =>
  if pa / pgsize ≥ phystop / pgsize then .error .incRef
  else .ok ((), { s with refs := update s.refs (pa / pgsize) (s.refs (pa / pgsize) + 1) })

def kfree (L : Layout) (pa : Nat) : Vm Unit := fun s =>
  if pa % pgsize ≠ 0 ∨ pa < L.kend ∨ pa ≥ phystop then .error .kfree
  else if s.refs (pa / pgsize) ≤ 0 then .error .kfreeRefCount
  else if s.refs (pa / pgsize) - 1 = 0 then
    .ok ((), { mem := store64 (fill s.mem pa 1 pgsize) pa (BitVec.ofNat 64 s.freelist)
               freelist := pa
               refs := update s.refs (pa / pgsize) (s.refs (pa / pgsize) - 1) })
  else
    .ok ((), { s with refs := update s.refs (pa / pgsize) (s.refs (pa / pgsize) - 1) })

def kalloc : Vm Nat := fun s =>
  if s.freelist = 0 then .ok (0, s)
  else if s.refs (s.freelist / pgsize) ≠ 0 then .error .kallocAllocated
  else
    .ok (s.freelist, { mem := fill s.mem s.freelist 5 pgsize
                       freelist := (load64 s.mem s.freelist).toNat
                       refs := update s.refs (s.freelist / pgsize) 1 })

/-- An iteration of `freerange`, at the page with number `f`. -/
def freePage (L : Layout) (f : Nat) : Vm Unit := do
  modify fun s => { s with refs := update s.refs f (s.refs f + 1) }
  kfree L (f * pgsize)

/-- `freerange(end, PHYSTOP)`, from the state before `main`. -/
def kinit (L : Layout) : Vm Unit :=
  forRange (freePage L) (phystop / pgsize - pgroundup L.kend / pgsize) (pgroundup L.kend / pgsize)

end Xv6
