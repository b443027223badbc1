import Xv6.Fileread
import Xv6.Fs.ContentSpec
import Xv6.Pipe.Read

/-!
# The sources of a read

A read returns what `piperead` of `Xv6.Pipe`, `consoleread` of `Xv6.Console` and `readi` of
`Xv6.Fs` return when their copies succeed where `copyout` writes every byte.
-/

namespace Xv6.Fileread

open ByteMem
open Fs (bsize)
open Console (Code Recorded inputBufSize)

variable {addr : Addr} {d : Dest} {n : Int}

/-- Whether `copyout` of `m` bytes to byte `i` of the destination succeeds. -/
def Dest.ok (d : Dest) (addr : Addr) (i m : Nat) : Bool :=
  d.writes (addr + BitVec.ofNat 64 i) m = m

theorem copyLoop_pipe (fuel : Nat) : ∀ (i : Nat) (q : Pipes.Pipe) (log : List Addr),
    n.toNat - i < fuel → (Pipes.copyLoop (d.ok addr · 1) n fuel i q).map Prod.snd =
      some (copyLoop d addr n q.buffered.length i log).1 := by
  induction fuel with
  | zero => intro i q log hfuel; exact absurd hfuel (Nat.not_lt_zero _)
  | succ fuel ih =>
    intro i q log hfuel
    unfold Pipes.copyLoop Pipes.Code.exec
    by_cases hi : (i : Int) < n
    · by_cases hne : q.nread = q.nwrite
      · simp [hi, hne, Pipes.Pipe.buffered, copyLoop]
      · cases hok : d.ok addr i 1 with
        | true =>
          rw [Pipes.Pipe.buffered_cons hne (q.taken ++ [q.data (q.nread.toNat % Pipes.pipesize)])]
          simp only [hi, hne, hok, if_true, if_false]
          rw [ih _ _ (log ++ bytesAt (addr + BitVec.ofNat 64 i) 1) (by omega)]
          have hone := of_decide_eq_true hok
          simp [copyLoop, hi, hone]
        | false =>
          have hone := of_decide_eq_false hok
          simp [Pipes.Pipe.buffered_cons hne q.taken, hi, hne, hok, copyLoop, hone]
    · cases q.buffered.length <;> simp [hi, copyLoop]

/-- A call of `consoleread` at the head of its loop, with the bytes that it finds and what it
returns. Each byte is found in a state of the console that other code has left; when there are no
more, the process is killed. -/
inductive Call (ok : Nat → Bool) (target : Int) : Int → List Byte → List Byte → Int → Prop
  | killed {q : Recorded} {n r : Int} {got : List Byte} (hempty : q.r = q.w)
      (hexec : ((Code.read ok target n got).exec true q).2 = .go (.leave r)) :
      Call ok target n got [] r
  | last {q : Recorded} {n r : Int} {got : List Byte} (hne : q.r ≠ q.w)
      (hexec : ((Code.read ok target n got).exec false q).2 = .go (.leave r)) (input : List Byte) :
      Call ok target n got (q.buf (q.r.toNat % inputBufSize) :: input) r
  | round {q : Recorded} {n n' r : Int} {got got' input : List Byte} (hne : q.r ≠ q.w)
      (hexec : ((Code.read ok target n got).exec false q).2 = .go (.read ok target n' got'))
      (h : Call ok target n' got' input r) :
      Call ok target n got (q.buf (q.r.toNat % inputBufSize) :: input) r

theorem readLine_call {got input : List Byte} {target n r : Int}
    (h : Call (d.ok addr · 1) target n got input r) (hle : n ≤ target) (log : List Addr) :
    (readLine d target input (addr + BitVec.ofNat 64 (target - n).toNat) n log).1 = r := by
  induction h generalizing log with
  | killed hempty hexec => grind [readLine, Code.exec]
  | last hne hexec => grind [readLine, Code.exec, Recorded.readByte, Dest.ok]
  | @round _ n _ _ _ _ _ hne hexec _ ih =>
    have hdst : addr + BitVec.ofNat 64 (target - n).toNat + 1 =
        addr + BitVec.ofNat 64 (target - (n - 1)).toNat := by
      rw [show (target - (n - 1)).toNat = (target - n).toNat + 1 by omega]
      exact addr_add addr _ 1
    grind [readLine, Code.exec, Recorded.readByte, Dest.ok]

section

variable {sb : Fs.Super} {E : Fs.Stop → Prop} {h : Multiset Fs.Ip} {s : Fs.State} {ip : Fs.Ip}
variable {w : Found} (hs : Fs.Ok sb h s) (hip : ip ∈ h) (hv : (s.inode ip).valid = true)
  (hmap : ∀ bn, w.mapped bn = true)

include hs hip hv hmap

theorem readLoop_fs {off n : Nat} (hsize : off + n ≤ (s.inode ip).size) (fuel : Nat) :
    ∀ tot acc log, tot ≤ n →
      Wp E (Fs.readLoop sb ip (w.dest.ok addr) n fuel tot (off + tot) acc) s fun r _ =>
        r.1 = (readLoop w n fuel tot (off + tot) (addr + BitVec.ofNat 64 tot) log).1 := by
  have hc := (hs.clean ip hip hv).1
  have hlive := hs.live hip hv
  have hlt : (s.inode ip).size < 2 ^ 31 := by
    have hle := hs.owned.size_le _ hlive
    rw [← hc] at hle
    exact Nat.lt_of_le_of_lt hle (by decide)
  have hstop : ∀ tot ≤ n, (tot : Int) = asInt tot := fun tot htot => (asInt_of_lt (by omega)).symm
  induction fuel with
  | zero => exact fun tot _ _ htot => .pure (hstop tot htot)
  | succ fuel ih =>
    intro tot acc log htot
    unfold Fs.readLoop readLoop
    by_cases ht : tot < n
    · rw [if_pos ht, if_pos ht, if_pos (hmap _)]
      have hne := hs.owned.mapped_div hlive (x := off + tot) (by rw [← hc]; omega)
      refine .bind (Fs.bmap_addr hs.owned.placed hlive (congrArg Fs.Dinode.addrs hc).symm hne ?_)
      rw [if_neg hne]
      refine .bind (Fs.bread_spec (hs.owned.placed.mem _ hne) ?_)
      dsimp only
      by_cases hok : w.dest.ok addr tot (min (n - tot) (bsize - (off + tot) % bsize)) = true
      · rw [if_pos hok, if_pos (of_decide_eq_true hok), Nat.add_assoc, addr_add]
        exact ih _ _ _ (by omega)
      · rw [if_neg hok, if_neg fun hw => hok (decide_eq_true hw)]
        exact .pure rfl
    · rw [if_neg ht, if_neg ht]
      exact .pure (hstop tot htot)

/-- For an inode that is locked, whose blocks `bmap` all finds, `readi` of `Xv6.Fs` returns the
same. -/
theorem readi_fs (hsize : w.size = (s.inode ip).size) (off n : Nat) :
    Wp E (Fs.readi sb ip (w.dest.ok addr) off n) s fun r _ => r.1 = (readi w addr off n).1 := by
  refine .bind (.get ?_)
  have hloop : ∀ m, off + m ≤ (s.inode ip).size →
      Wp E (Fs.readLoop sb ip (w.dest.ok addr) m m 0 off []) s fun r _ =>
        r.1 = (readLoop w m m 0 off addr []).1 := by
    intro m hm
    simpa using readLoop_fs hs hip hv hmap hm m 0 [] [] (Nat.zero_le m)
  unfold readi
  rw [hsize]
  dsimp only
  split
  · exact .pure rfl
  · split
    · exact hloop _ (by omega)
    · exact hloop _ (by omega)

end

end Xv6.Fileread
