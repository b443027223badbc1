import Mathlib.Algebra.GroupWithZero.Nat
import Mathlib.Logic.Function.Basic
import Xv6.Misc.Wp

/-!
# The user heap

`free`, `morecore` and `malloc` of `user/umalloc.c`. A pointer is an address, and memory is read and
written by the headers at addresses; a `Header` is 16 bytes. What calls of `sbrk` return is given by
a list of answers: a failure, or how far above all memory obtained before the new region starts. The
loops have fuel.
-/

namespace Xv6.Umalloc

structure Header where
  ptr : Nat
  size : Nat
  deriving DecidableEq, Repr

abbrev Mem := Nat → Header

def setPtr (mem : Mem) (a p : Nat) : Mem := Function.update mem a { mem a with ptr := p }

def setSize (mem : Mem) (a n : Nat) : Mem := Function.update mem a { mem a with size := n }

def uint (n : Nat) : Nat := n % 2 ^ 32

structure Region where
  addr : Nat
  bytes : Nat
  deriving DecidableEq, Repr

/-- The variables of the allocator and what it has of the kernel. -/
structure Heap where
  mem : Mem
  freep : Nat
  top : Nat
  /-- the memory obtained, the last region first -/
  regions : List Region
  /-- what the next calls of `sbrk` return -/
  answers : List (Option Nat)

/-- Where the program has `base`, and where its heap starts. -/
structure Layout where
  base : Nat
  heap : Nat
  base_pos : 0 < base
  base_below : base + 16 ≤ heap

/-- The loops of the model stop when their fuel has run out. -/
inductive Stop
  | fuel
  deriving DecidableEq, Repr

abbrev M := StateT Heap (Except Stop)

/-! ## `free` -/

def freeLoop (mem : Mem) (bp : Nat) : Nat → Nat → Option Nat
  | 0, _ => none
  | n + 1, p =>
    if bp > p ∧ bp < (mem p).ptr then
      some p
    else if p ≥ (mem p).ptr ∧ (bp > p ∨ bp < (mem p).ptr) then
      some p
    else
      freeLoop mem bp n (mem p).ptr

/-- Join the block with the upper neighbour, if that is free, or link it to its successor. -/
def joinUpper (mem : Mem) (bp p : Nat) : Mem :=
  if bp + 16 * (mem bp).size = (mem p).ptr then
    let mem := setSize mem bp (uint ((mem bp).size + (mem (mem p).ptr).size))
    setPtr mem bp (mem (mem p).ptr).ptr
  else
    setPtr mem bp (mem p).ptr

/-- Join the block with the lower neighbour, if that is free, or link it to its predecessor. -/
def joinLower (mem : Mem) (bp p : Nat) : Mem :=
  if p + 16 * (mem p).size = bp then
    let mem := setSize mem p (uint ((mem p).size + (mem bp).size))
    setPtr mem p (mem bp).ptr
  else
    setPtr mem p bp

def free (n : Nat) (ap : Nat) : M Unit := do
  let bp := ap - 16
  let h ← get
  match freeLoop h.mem bp n h.freep with
  | none => throw .fuel
  | some p => set { h with mem := joinLower (joinUpper h.mem bp p) bp p, freep := p }

/-! ## `malloc` -/

def sbrk (n : Int) : M (Option Nat) := do
  let h ← get
  match h.answers with
  | some gap :: answers =>
    let p := h.top + gap
    set { h with
      top := p + n.toNat
      regions := ⟨p, n.toNat⟩ :: h.regions
      answers := answers }
    return some p
  | none :: answers =>
    set { h with answers := answers }
    return none
  | [] => return none

def morecore (n : Nat) (nu : Nat) : M Nat := do
  let nu := if nu < 4096 then 4096 else nu
  -- the product is converted to the `int` that `sbrk` takes
  match ← sbrk (BitVec.ofNat 32 (nu * 16)).toInt with
  | none => return 0
  | some hp =>
    modify fun h => { h with mem := setSize h.mem hp nu }
    free n (hp + 16)
    let h ← get
    return h.freep

/-- Take the block `p`, or its upper part, and say where that is. -/
def carve (mem : Mem) (nunits prevp p : Nat) : Mem × Nat :=
  if (mem p).size = nunits then
    (setPtr mem prevp (mem p).ptr, p)
  else
    let mem := setSize mem p ((mem p).size - nunits)
    let p := p + 16 * (mem p).size
    (setSize mem p nunits, p)

def mallocLoop (nunits : Nat) : Nat → Nat → Nat → M Nat
  | 0, _, _ => throw .fuel
  | n + 1, prevp, p => do
    let h ← get
    if (h.mem p).size ≥ nunits then
      let (mem, p) := carve h.mem nunits prevp p
      set { h with mem := mem, freep := prevp }
      return p + 16
    else if p = h.freep then
      let p ← morecore n nunits
      if p = 0 then
        return 0
      else
        let h ← get
        mallocLoop nunits n p (h.mem p).ptr
    else
      mallocLoop nunits n p (h.mem p).ptr

/-- The number of units, a header among them, for `nbytes` bytes. -/
def units (nbytes : Nat) : Nat := uint ((nbytes + 16 - 1) / 16 + 1)

/-- `if((prevp = freep) == 0)`: the list is set up at the first call. -/
def prepare (L : Layout) (h : Heap) : Heap :=
  if h.freep = 0 then
    { h with
      mem := setSize (setPtr h.mem L.base L.base) L.base 0
      freep := L.base }
  else
    h

def malloc (L : Layout) (n : Nat) (nbytes : Nat) : M Nat := do
  let nunits := units nbytes
  modify (prepare L)
  let h ← get
  mallocLoop nunits n h.freep (h.mem h.freep).ptr

/-- The heap of a program that starts; `static` variables are zero. -/
def start (L : Layout) (mem : Mem) (answers : List (Option Nat)) : Heap where
  mem := mem
  freep := 0
  top := L.heap
  regions := []
  answers := answers

end Xv6.Umalloc
