import Xv6.Console
import Xv6.Sysfile

/-!
# What a read delivers

`fileread` of `kernel/file.c` with `readi`, `piperead` and `consoleread`, by the bytes of user
memory that they write. What a call finds is given: the size of the inode and the blocks that `bmap`
finds, the number of bytes in the pipe, the bytes of the console, and how much `copyout` can write.
What is read, and the offset that is left, are in `Xv6.Fs`, `Xv6.Pipe` and `Xv6.Console`.
-/

namespace Xv6.Fileread

open ByteMem
open Fs (File hasDev bsize)

abbrev Addr := BitVec 64

def bytesAt (addr : Addr) (k : Nat) : List Addr :=
  (List.range k).map fun i => addr + BitVec.ofNat 64 i

/-- How many of `len` bytes `copyout` writes at `dst`: it writes the pages in order, and returns -1
at the first that it cannot write. -/
structure Dest where
  writes : Addr → Nat → Nat
  writes_le : ∀ dst len, writes dst len ≤ len

structure Found where
  size : Nat
  mapped : Nat → Bool
  /-- the number of bytes in the pipe after the first loop of `piperead`, which a killed process
  leaves with -1 -/
  pipe : Option Nat
  /-- the bytes that come from the console before the process is killed -/
  input : List Byte
  dest : Dest

def asInt (n : Nat) : Int := (BitVec.ofNat 32 n).toInt

/-- The loop of `readi`. An iteration copies a byte at least. -/
def readLoop (w : Found) (n : Nat) : Nat → Nat → Nat → Addr → List Addr → Int × List Addr
  | 0, tot, _, _, log => (asInt tot, log)
  | fuel + 1, tot, off, dst, log =>
    if tot < n then
      if w.mapped (off / bsize) then
        let m := min (n - tot) (bsize - off % bsize)
        let log := log ++ bytesAt dst (w.dest.writes dst m)
        if w.dest.writes dst m = m then
          readLoop w n fuel (tot + m) (off + m) (dst + BitVec.ofNat 64 m) log
        else
          (-1, log)
      else
        (asInt tot, log)
    else
      (asInt tot, log)

def readi (w : Found) (dst : Addr) (off n : Nat) : Int × List Addr :=
  if off > w.size ∨ (off + n) % 2 ^ 32 < off then
    (0, [])
  else if off + n > w.size then
    readLoop w (w.size - off) (w.size - off) 0 off dst []
  else
    readLoop w n n 0 off dst []

/-- The second loop of `piperead`, with the number of bytes that are left in the pipe. -/
def copyLoop (d : Dest) (addr : Addr) (n : Int) : Nat → Nat → List Addr → Int × List Addr
  | 0, i, log => (i, log)
  | k + 1, i, log =>
    if i < n then
      let dst := addr + BitVec.ofNat 64 i
      let log := log ++ bytesAt dst (d.writes dst 1)
      if d.writes dst 1 = 1 then copyLoop d addr n k (i + 1) log else (i, log)
    else
      (i, log)

def piperead (w : Found) (addr : Addr) (n : Int) : Int × List Addr :=
  match w.pipe with
  | none => (-1, [])
  | some k => copyLoop w.dest addr n k 0 []

def readLine (d : Dest) (target : Int) : List Byte → Addr → Int → List Addr → Int × List Addr
  | [], _, n, log => if 0 < n then (-1, log) else (target - n, log)
  | c :: input, dst, n, log =>
    if 0 < n then
      if c = Console.ctrlD then
        (target - n, log)
      else
        let log := log ++ bytesAt dst (d.writes dst 1)
        if d.writes dst 1 = 1 then
          if c = Console.newline then
            (target - (n - 1), log)
          else
            readLine d target input (dst + 1) (n - 1) log
        else
          (target - n, log)
    else
      (target - n, log)

def consoleread (w : Found) (dst : Addr) (n : Int) : Int × List Addr :=
  readLine w.dest n w.input dst n []

/-- `fileread`: what it returns and where it writes, or nothing at its `panic`. -/
def fileread (w : Found) (f : File) (addr : Addr) (n : BitVec 32) : Option (Int × List Addr) :=
  if !f.readable then
    some (-1, [])
  else
    match f.type with
    | .pipe => some (piperead w addr n.toInt)
    | .device => some (if hasDev f.major then consoleread w addr n.toInt else (-1, []))
    | .inode => some (readi w addr f.off n.toNat)
    | .none => none

variable {addr : Addr} {n : Int}

/-! ## At most what was asked for -/

/-- The first `k` bytes from `addr` on were written, with `k ≤ n`, and `k` or -1 is returned. -/
def Within (addr : Addr) (n : Int) (res : Int × List Addr) : Prop :=
  ∃ k : Nat, res.2 = bytesAt addr k ∧ (k : Int) ≤ max n 0 ∧ (res.1 = -1 ∨ res.1 = k)

theorem addr_add (addr : Addr) (k m : Nat) :
    addr + BitVec.ofNat 64 k + BitVec.ofNat 64 m = addr + BitVec.ofNat 64 (k + m) := by
  rw [BitVec.ofNat_add, BitVec.add_assoc]

theorem bytesAt_add (addr : Addr) (k m : Nat) :
    bytesAt addr k ++ bytesAt (addr + BitVec.ofNat 64 k) m = bytesAt addr (k + m) := by
  simp [bytesAt, List.range_add, BitVec.ofNat_add, BitVec.add_assoc]

theorem bytesAt_fail {d : Dest} {dst : Addr} (hd : d.writes dst 1 ≠ 1) :
    bytesAt dst (d.writes dst 1) = [] := by
  have hle := d.writes_le dst 1
  obtain h0 : d.writes dst 1 = 0 := by omega
  rw [h0]
  rfl

theorem asInt_of_lt {n : Nat} (h : n < 2 ^ 31) : asInt n = n := by
  rw [asInt, BitVec.toInt_ofNat', Int.bmod_def]
  omega

/-- The loop of `readi` writes bytes from `dst` on, and returns -1 or how many it has written. -/
theorem readLoop_log (w : Found) (n fuel : Nat) : ∀ tot off dst log, tot ≤ n →
    ∃ k r, readLoop w n fuel tot off dst log = (r, log ++ bytesAt dst k) ∧ tot + k ≤ n ∧
      (r = -1 ∨ r = asInt (tot + k)) := by
  have hstop : ∀ tot dst log, tot ≤ n → ∃ k r, (asInt tot, log) = (r, log ++ bytesAt dst k) ∧
      tot + k ≤ n ∧ (r = -1 ∨ r = asInt (tot + k)) :=
    fun tot dst log htot => ⟨0, _, by simp [bytesAt], htot, .inr rfl⟩
  induction fuel with
  | zero => exact fun tot _ dst log htot => hstop tot dst log htot
  | succ fuel ih =>
    intro tot off dst log htot
    unfold readLoop
    split
    · split
      · have hm : min (n - tot) (bsize - off % bsize) ≤ n - tot := min_le_left _ _
        generalize min (n - tot) (bsize - off % bsize) = m at hm ⊢
        have hle := w.dest.writes_le dst m
        dsimp only
        split
        · next hall =>
          obtain ⟨k, r, he, hk, hr⟩ := ih (tot + m) (off + m) (dst + BitVec.ofNat 64 m)
            (log ++ bytesAt dst m) (by omega)
          rw [hall, he, List.append_assoc, bytesAt_add]
          exact ⟨m + k, r, rfl, by omega, by rwa [← Nat.add_assoc]⟩
        · exact ⟨_, _, rfl, by omega, .inl rfl⟩
      · exact hstop tot dst log htot
    · exact hstop tot dst log htot

theorem copyLoop_within (d : Dest) (k : Nat) : ∀ i : Nat, (i : Int) ≤ max n 0 →
    Within addr n (copyLoop d addr n k i (bytesAt addr i)) := by
  induction k with
  | zero => exact fun i hi => ⟨i, rfl, hi, .inr rfl⟩
  | succ k ih =>
    intro i hi
    unfold copyLoop
    split
    · dsimp only
      split
      · next hone =>
        rw [hone, bytesAt_add]
        exact ih (i + 1) (by omega)
      · next hfail =>
        rw [bytesAt_fail hfail, List.append_nil]
        exact ⟨i, rfl, hi, .inr rfl⟩
    · exact ⟨i, rfl, hi, .inr rfl⟩

theorem readLine_within (d : Dest) (input : List Byte) : ∀ (i : Nat) (m : Int) (dst : Addr),
    (i : Int) ≤ max n 0 → m = n - i → dst = addr + BitVec.ofNat 64 i →
      Within addr n (readLine d n input dst m (bytesAt addr i)) := by
  induction input with
  | nil =>
    rintro i _ _ hi rfl rfl
    unfold readLine
    split
    · exact ⟨i, rfl, hi, .inl rfl⟩
    · exact ⟨i, rfl, hi, .inr (by omega)⟩
  | cons c input ih =>
    rintro i _ _ hi rfl rfl
    have hstop : Within addr n (n - (n - i), bytesAt addr i) := ⟨i, rfl, hi, .inr (by omega)⟩
    unfold readLine
    split
    · split
      · exact hstop
      · dsimp only
        split
        · next hone =>
          rw [hone, bytesAt_add]
          split
          · exact ⟨i + 1, rfl, by omega, .inr (by omega)⟩
          · exact ih (i + 1) _ _ (by omega) (by omega) (addr_add addr i 1)
        · next hfail =>
          rw [bytesAt_fail hfail, List.append_nil]
          exact hstop
    · exact hstop

theorem readi_within (w : Found) (off : Nat) {n : Nat} (hn : n < 2 ^ 31) :
    Within addr n (readi w addr off n) := by
  have hloop : ∀ m ≤ n, Within addr n (readLoop w m m 0 off addr []) := by
    intro m hm
    obtain ⟨k, r, he, hk, hr⟩ := readLoop_log w m m 0 off addr [] (Nat.zero_le m)
    rw [Nat.zero_add] at hk hr
    rw [he]
    exact ⟨k, rfl, by omega, hr.imp_right fun hr => hr.trans (asInt_of_lt (by omega))⟩
  unfold readi
  split
  · exact ⟨0, rfl, by omega, .inr rfl⟩
  · split
    · exact hloop _ (by omega)
    · exact hloop n (Nat.le_refl n)

theorem fileread_within (w : Found) (f : File) (addr : Addr) (n : BitVec 32)
    (hopen : f.type ≠ .none) (hn : 0 ≤ n.toInt ∨ f.readable = false ∨ f.type ≠ .inode) :
    ∃ res, fileread w f addr n = some res ∧ Within addr n.toInt res := by
  have hlt : n.toInt < 2 ^ 31 := BitVec.toInt_lt
  have hnone : Within addr n.toInt (-1, []) := ⟨0, rfl, by omega, .inl rfl⟩
  unfold fileread
  split
  · exact ⟨_, rfl, hnone⟩
  · next hread =>
    split
    · refine ⟨_, rfl, ?_⟩
      unfold piperead
      split
      · exact hnone
      · exact copyLoop_within _ _ 0 (by omega)
    · refine ⟨_, rfl, ?_⟩
      split
      · exact readLine_within _ _ 0 _ _ (by omega) (by simp) (BitVec.add_zero addr).symm
      · exact hnone
    · next htype =>
      refine ⟨_, rfl, ?_⟩
      have hint : n.toInt = n.toNat := by
        have h0 : 0 ≤ n.toInt := by grind
        rw [BitVec.toInt_eq_toNat_cond] at h0 ⊢
        omega
      rw [hint] at hlt ⊢
      exact readi_within w f.off (by omega)
    · next htype => exact absurd htype hopen

/-! ## Negative lengths -/

/-- The bytes that the first iteration of `readi` copies. -/
def firstChunk (w : Found) (off n : Nat) : Nat :=
  min (min n (w.size - off)) (bsize - off % bsize)

/-- `readi` delivers nothing: the offset is at the end, `off + n` wraps around, there is no first
block, or nothing of it can be copied. -/
def Silent (w : Found) (addr : Addr) (off n : Nat) : Prop :=
  w.size ≤ off ∨ (off + n) % 2 ^ 32 < off ∨ w.mapped (off / bsize) = false ∨
    w.dest.writes addr (firstChunk w off n) = 0

theorem bytesAt_eq_nil {k : Nat} : bytesAt addr k = [] ↔ k = 0 := by simp [bytesAt]

theorem readi_silent (w : Found) (addr : Addr) (off : Nat) {n : Nat} (hn : 0 < n) :
    ((readi w addr off n).2 = [] ↔ Silent w addr off n) ∧
      ((readi w addr off n).2 = [] → (readi w addr off n).1 = -1 ∨ (readi w addr off n).1 = 0) := by
  by_cases hstop : off > w.size ∨ (off + n) % 2 ^ 32 < off
  · rw [readi, if_pos hstop]
    exact ⟨iff_of_true rfl (by grind [Silent]), fun _ => .inr rfl⟩
  have heq : readi w addr off n =
      readLoop w (min n (w.size - off)) (min n (w.size - off)) 0 off addr [] := by
    rw [readi, if_neg hstop]
    split
    · rw [Nat.min_eq_right (by omega)]
    · rw [Nat.min_eq_left (by omega)]
  rw [heq]
  simp only [Silent, firstChunk]
  have hpos : 0 < bsize - off % bsize := Nat.sub_pos_of_lt (Nat.mod_lt _ (by decide))
  cases hN : min n (w.size - off) with
  | zero => exact ⟨iff_of_true rfl (.inl (by omega)), fun _ => .inr rfl⟩
  | succ N =>
    rw [readLoop, if_pos (Nat.succ_pos N)]
    cases hmap : w.mapped (off / bsize) with
    | false => exact ⟨iff_of_true rfl (.inr (.inr (.inl rfl))), fun _ => .inr rfl⟩
    | true =>
      have hm : 0 < min (N + 1 - 0) (bsize - off % bsize) := by omega
      have hle := min_le_left (N + 1 - 0) (bsize - off % bsize)
      rw [if_pos rfl, ← Nat.sub_zero (N + 1)]
      generalize min (N + 1 - 0) (bsize - off % bsize) = m at hm hle ⊢
      dsimp only
      split
      · next hall =>
        obtain ⟨k, r, he, -⟩ := readLoop_log w (N + 1 - 0) N (0 + m) (off + m)
          (addr + BitVec.ofNat 64 m) ([] ++ bytesAt addr (w.dest.writes addr m)) (by omega)
        have hne : w.dest.writes addr m ≠ 0 := by omega
        rw [he]
        simp only [List.append_eq_nil_iff, bytesAt_eq_nil]
        grind
      · simp only [List.nil_append, bytesAt_eq_nil]
        grind

/-- For every open file, content, offset, address and `int`, a read writes at most `max(n, 0)`
bytes, all in `[addr, addr + max(n, 0))`, and returns -1 or their number, if and only if `n` is not
negative, the file is not readable, it is a pipe or the console, or `readi` delivers nothing. -/
theorem read_within_request (w : Found) (f : File) (addr : Addr) (n : BitVec 32)
    (hopen : f.type ≠ .none) :
    (∃ r log, fileread w f addr n = some (r, log) ∧ (log.length : Int) ≤ max n.toInt 0 ∧
      (∀ a ∈ log, ((a - addr).toNat : Int) < max n.toInt 0) ∧ (r = -1 ∨ r = log.length)) ↔
    0 ≤ n.toInt ∨ f.readable = false ∨ f.type ≠ .inode ∨ Silent w addr f.off n.toNat := by
  by_cases hn : 0 ≤ n.toInt ∨ f.readable = false ∨ f.type ≠ .inode
  · refine iff_of_true ?_ (by tauto)
    obtain ⟨⟨r, log⟩, hread, k, rfl, hk, hr⟩ := fileread_within w f addr n hopen hn
    have hlt : n.toInt < 2 ^ 31 := BitVec.toInt_lt
    have hlen : (bytesAt addr k).length = k := by simp [bytesAt]
    refine ⟨r, _, hread, by omega, ?_, by rwa [hlen]⟩
    intro a ha
    obtain ⟨i, hi, rfl⟩ := List.mem_map.mp ha
    have hik := List.mem_range.mp hi
    rw [BitVec.add_comm, BitVec.add_sub_cancel, BitVec.toNat_ofNat, Nat.mod_eq_of_lt (by omega)]
    omega
  · simp only [not_or, not_le, Bool.not_eq_false, not_not] at hn
    obtain ⟨hneg, hread, htype⟩ := hn
    have hpos : 0 < n.toNat := by
      rw [BitVec.toInt_eq_toNat_cond] at hneg
      omega
    obtain ⟨hsilent, hret⟩ := readi_silent w addr f.off hpos
    have heq : fileread w f addr n = some (readi w addr f.off n.toNat) := by
      simp [fileread, hread, htype]
    have hmax : max n.toInt 0 = 0 := by omega
    generalize readi w addr f.off n.toNat = res at heq hsilent hret
    obtain ⟨r, log⟩ := res
    rw [heq, hmax, ← hsilent]
    constructor
    · rintro ⟨_, _, he, hlen, -, -⟩
      cases he
      have hzero : log.length = 0 := by omega
      exact .inr (.inr (.inr (List.length_eq_zero_iff.mp hzero)))
    · rintro (hc | hc | hc | rfl)
      · exact absurd hc (Int.not_le.mpr hneg)
      · simp [hread] at hc
      · exact absurd htype hc
      · exact ⟨r, [], rfl, by simp, by simp, hret rfl⟩

def fiveBytes : Found where
  size := 5
  mapped _ := true
  pipe := none
  input := []
  dest := ⟨fun _ len => len, fun _ _ => Nat.le_refl _⟩

def atStart : File := { type := .inode, readable := true }

theorem read_within_request_three : ∃ r log, fileread fiveBytes atStart 4096 3 = some (r, log) ∧
    (log.length : Int) ≤ 3 := by
  obtain ⟨r, log, h, hlen, -⟩ := (read_within_request fiveBytes atStart 4096 3 (by decide)).mpr
    (.inl (by decide))
  exact ⟨r, log, h, hlen⟩

/-- `fileread(f, addr, -1)` at offset 0 copies the whole file: for `readi`, -1 is `2 ^ 32 - 1`, and
`off + n` does not wrap around. -/
theorem negative_read_delivers :
    fileread fiveBytes atStart 4096 (-1) = some (5, [4096, 4097, 4098, 4099, 4100]) := by
  rfl

end Xv6.Fileread
