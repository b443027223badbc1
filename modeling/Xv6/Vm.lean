import Xv6.Kalloc
import Mathlib.Data.Int.DivMod

/-!
# Page tables

`kernel/vm.c`. A loop `for(a = lo; a < hi; a += PGSIZE)` runs over the pages from `lo` to
`hi`; every such body calls `walk`, which stops at `MAXVA`, so that the address cannot wrap.
-/

namespace Xv6

open ByteMem

/-- The iterations of `for(a = lo; a < hi; a += PGSIZE)`. -/
def pageCount (lo hi : Nat) : Nat := (hi - lo + (pgsize - 1)) / pgsize

/-- A level of `walk`: the next table, allocated if need be. -/
def walkLevel (pagetable : Nat) (i : Nat) (alloc : Bool) : Vm (Option Nat) := do
  let pte ← loadWord (pagetable + 8 * i)
  if hasFlag pte pteV then
    return some (pte2pa pte)
  else if alloc then do
    let new ← kalloc
    if new = 0 then
      return none
    else do
      memset new 0 pgsize
      storeWord (pagetable + 8 * i) (pa2pte new ||| pteV)
      return some new
  else
    return none

def walk (pagetable va : Nat) (alloc : Bool) : Vm Nat := do
  if va ≥ maxva then
    throw .walk
  else do
    match ← walkLevel pagetable (px 2 va) alloc with
    | none => return 0
    | some mid =>
      match ← walkLevel mid (px 1 va) alloc with
      | none => return 0
      | some leaf => return leaf + 8 * px 0 va

def walkaddr (pagetable va : Nat) : Vm Nat := do
  if va ≥ maxva then
    return 0
  else do
    let pte ← walk pagetable va false
    if pte = 0 then
      return 0
    else do
      let w ← loadWord pte
      if !hasFlag w pteV then
        return 0
      else if !hasFlag w pteU then
        return 0
      else
        return pte2pa w

/-- The loop of `mappages`. It meets `last` or the bound of `walk` within `fuel` rounds. -/
def mappagesLoop (pagetable last : Nat) (perm : BitVec 64) : Nat → Nat → Nat → Vm Int
  | 0, _, _ => throw .walk
  | fuel + 1, a, pa => do
    let pte ← walk pagetable a true
    if pte = 0 then
      return -1
    else do
      let w ← loadWord pte
      if hasFlag w pteV then
        throw .mappagesRemap
      else do
        storeWord pte (pa2pte pa ||| perm ||| pteV)
        if a = last then
          return 0
        else
          mappagesLoop pagetable last perm fuel (a + pgsize) (pa + pgsize)

def mappages (pagetable va size pa : Nat) (perm : BitVec 64) : Vm Int :=
  if size = 0 then
    throw .mappagesSize
  else
    mappagesLoop pagetable (pgrounddown ((va + size - 1) % 2 ^ 64)) perm (maxva / pgsize + 1)
      (pgrounddown va) pa

def unmapPage (L : Layout) (pagetable a : Nat) (doFree : Bool) : Vm Unit := do
  let pte ← walk pagetable a false
  if pte = 0 then
    throw .uvmunmapWalk
  else do
    let w ← loadWord pte
    if !hasFlag w pteV then
      throw .uvmunmapMapped
    else if pteFlags w = pteV then
      throw .uvmunmapLeaf
    else do
      if doFree then
        kfree L (pte2pa w)
      else
        pure ()
      storeWord pte 0

def uvmunmap (L : Layout) (pagetable va npages : Nat) (doFree : Bool) : Vm Unit :=
  if va % pgsize ≠ 0 then
    throw .uvmunmapAligned
  else
    forRange (fun i => unmapPage L pagetable (va + i * pgsize) doFree)
      (pageCount va ((va + npages * pgsize) % 2 ^ 64)) 0

def uvmcreate : Vm Nat := do
  let pagetable ← kalloc
  if pagetable = 0 then
    return 0
  else do
    memset pagetable 0 pgsize
    return pagetable

/-- `uvmfirst`. A null page faults in `memset`; the result of `mappages` is not looked at. -/
def uvmfirst (pagetable : Nat) (src : Nat → Byte) (sz : Nat) : Vm Unit := do
  if sz ≥ pgsize then
    throw .uvmfirst
  else do
    let mem ← kalloc
    if mem = 0 then
      throw .kerneltrap
    else do
      memset mem 0 pgsize
      let _ ← mappages pagetable 0 pgsize mem (pteW ||| pteR ||| pteX ||| pteU)
      memput mem src sz

def viaInt (n : Nat) : Nat := ((n : Int).bmod (2 ^ 32) % 2 ^ 64).toNat

def uvmdealloc (L : Layout) (pagetable oldsz newsz : Nat) : Vm Nat := do
  if newsz ≥ oldsz then
    return oldsz
  else do
    if pgroundup newsz < pgroundup oldsz then
      uvmunmap L pagetable (pgroundup newsz)
        (viaInt ((pgroundup oldsz - pgroundup newsz) / pgsize)) true
    else
      pure ()
    return newsz

/-- The loop of `uvmalloc`, with `oldsz` already rounded. -/
def uvmallocLoop (L : Layout) (pagetable oldsz newsz : Nat) (xperm : BitVec 64) :
    Nat → Nat → Vm Nat
  | 0, _ => return newsz
  | n + 1, a => do
    let mem ← kalloc
    if mem = 0 then do
      let _ ← uvmdealloc L pagetable a oldsz
      return 0
    else do
      memset mem 0 pgsize
      let r ← mappages pagetable a pgsize mem (pteR ||| pteU ||| xperm)
      if r ≠ 0 then do
        kfree L mem
        let _ ← uvmdealloc L pagetable a oldsz
        return 0
      else
        uvmallocLoop L pagetable oldsz newsz xperm n (a + pgsize)

def uvmalloc (L : Layout) (pagetable oldsz newsz : Nat) (xperm : BitVec 64) : Vm Nat :=
  if newsz < oldsz then
    return oldsz
  else
    uvmallocLoop L pagetable (pgroundup oldsz) newsz xperm (pageCount (pgroundup oldsz) newsz)
      (pgroundup oldsz)

/-- The depth of the recursion of `freewalk` that a kernel stack of one page has room for. -/
def stackDepth : Nat := 64

def freewalk (L : Layout) : Nat → Nat → Vm Unit
  | 0, _ => throw .freewalkStack
  | depth + 1, pagetable => do
    forRange (fun i => do
      let pte ← loadWord (pagetable + 8 * i)
      if hasFlag pte pteV && !hasFlag pte (pteR ||| pteW ||| pteX) then do
        freewalk L depth (pte2pa pte)
        storeWord (pagetable + 8 * i) 0
      else if hasFlag pte pteV then
        throw .freewalkLeaf
      else
        pure ()) 512 0
    kfree L pagetable

def uvmfree (L : Layout) (pagetable sz : Nat) : Vm Unit := do
  if sz > 0 then
    uvmunmap L pagetable 0 (pgroundup sz / pgsize) true
  else
    pure ()
  freewalk L stackDepth pagetable

def uvmcopyLoop (L : Layout) (old new : Nat) : Nat → Nat → Vm Int
  | 0, _ => return 0
  | n + 1, i => do
    let pte ← walk old i false
    if pte = 0 then
      throw .uvmcopyPte
    else do
      let w ← loadWord pte
      if !hasFlag w pteV then
        throw .uvmcopyPresent
      else do
        let w' := w &&& ~~~pteW ||| pteCow
        storeWord pte w'
        let r ← mappages new i pgsize (pte2pa w) (pteFlags w')
        if r ≠ 0 then do
          uvmunmap L new 0 (i / pgsize) true
          return -1
        else do
          incRef (pte2pa w)
          uvmcopyLoop L old new n (i + pgsize)

def uvmcopy (L : Layout) (old new sz : Nat) : Vm Int := uvmcopyLoop L old new (pageCount 0 sz) 0

def uvmclear (pagetable va : Nat) : Vm Unit := do
  let pte ← walk pagetable va false
  if pte = 0 then
    throw .uvmclear
  else do
    let w ← loadWord pte
    storeWord pte (w &&& ~~~pteU)

/-- The entry that `copyout` and the fault handler put in place of a copied page's. -/
def freshPte (new : Nat) : BitVec 64 :=
  (pa2pte new ||| pteV ||| pteR ||| pteW ||| pteU ||| pteX) &&& ~~~pteCow

/-- Give the page of the entry at `pte` a copy of its own. The result is false when there is no
memory. `copyout` and the store-fault branch of `usertrap` share these lines. -/
def copyPage (L : Layout) (pte : Nat) : Vm Bool := do
  let w ← loadWord pte
  let new ← kalloc
  if new = 0 then
    return false
  else do
    memmove new (pte2pa w) pgsize
    storeWord pte (freshPte new)
    kfree L (pte2pa w)
    return true

/-- The loop of `copyout`. Each round copies at least one byte, so `len` rounds are enough. -/
def copyoutLoop (pagetable : Nat) : Nat → Nat → (Nat → Byte) → Nat → Vm Int
  | 0, _, _, _ => return 0
  | fuel + 1, dstva, src, len => do
    if len = 0 then
      return 0
    else do
      let va0 := pgrounddown dstva
      let pa0 ← walkaddr pagetable va0
      if pa0 = 0 then
        return -1
      else do
        let n := min (pgsize - (dstva - va0)) len
        memput (pa0 + (dstva - va0)) src n
        copyoutLoop pagetable fuel (va0 + pgsize) (fun i => src (i + n)) (len - n)

def copyout (L : Layout) (pagetable dstva : Nat) (src : Nat → Byte) (len : Nat) : Vm Int := do
  let va0 := pgrounddown dstva
  if va0 ≥ maxva then
    return -1
  else if va0 = 0 then
    return -1
  else do
    let pte ← walk pagetable va0 false
    if pte = 0 then
      return -1
    else do
      let w ← loadWord pte
      if !hasFlag w pteW && !hasFlag w pteCow then
        return -1
      else if !hasFlag w pteU || !hasFlag w pteV then
        return -1
      else do
        if ← copyPage L pte then
          copyoutLoop pagetable len dstva src len
        else
          return -1

end Xv6
