import Xv6.Pipe.Fifo
import Xv6.Vm

/-!
# What a read takes from a pipe

The second loop of `piperead` runs under `pi->lock` from its first byte to its last. It removes the
bytes that it reports, unless `copyout` fails: the byte that could not be copied is gone as well.
-/

namespace Xv6.Pipes

open ByteMem

variable {ok : Nat → Bool} {n : Int} {i : Nat} {q : Pipe}

/-- The second loop of `piperead`: the pipe after it and what is returned. -/
def copyLoop (ok : Nat → Bool) (n : Int) : Nat → Nat → Pipe → Option (Pipe × Int)
  | 0, _, _ => none
  | fuel + 1, i, q =>
    match (Code.copy ok n i).exec false q with
    | (q', .go (.copy _ _ i')) => copyLoop ok n fuel i' q'
    | (q', .wakeup _ (.leave r)) => some (q', r)
    | _ => none

theorem Pipe.buffered_cons (hne : q.nread ≠ q.nwrite) (taken : List Byte) :
    q.buffered = q.data (q.nread.toNat % pipesize) ::
      Pipe.buffered { q with nread := q.nread + 1, taken := taken } := by
  have hlen : (q.nwrite - q.nread).toNat = (q.nwrite - (q.nread + 1)).toNat + 1 := by bv_omega
  rw [Pipe.buffered, hlen, List.range_succ_eq_map, List.map_cons, List.map_map]
  congr 1
  apply List.map_congr_left
  intro i _
  have hone : (q.nread + 1).toNat = (q.nread.toNat + 1) % 2 ^ 32 := BitVec.toNat_add ..
  simp only [Function.comp_apply, hone, pipesize]
  congr 1
  omega

theorem copyLoop_spec (fuel : Nat) : ∀ (i : Nat) (q : Pipe), n.toNat - i < fuel →
    ∃ (q' : Pipe) (r : Nat), copyLoop ok n fuel i q = some (q', ↑(i + r)) ∧
      q'.taken = q.taken ++ q.buffered.take r ∧
      (q'.buffered = q.buffered.drop r ∧
          (∀ j, i ≤ j → j < n → j < i + q.buffered.length → ok j = true) ∨
        q'.buffered = q.buffered.drop (r + 1) ∧ r < q.buffered.length ∧ ↑(i + r) < n ∧
          ok (i + r) = false) := by
  induction fuel with
  | zero => intro i q hfuel; exact absurd hfuel (Nat.not_lt_zero _)
  | succ fuel ih =>
    intro i q hfuel
    unfold copyLoop Code.exec
    by_cases hi : (i : Int) < n
    · by_cases hne : q.nread = q.nwrite
      · have hnil : q.buffered = [] := by simp [Pipe.buffered, hne]
        refine ⟨q, 0, by simp [hi, hne], by simp, .inl ⟨by simp, ?_⟩⟩
        intro j hij _ hlen
        rw [hnil, List.length_nil] at hlen
        omega
      · cases hok : ok i with
        | true =>
          have hcons := Pipe.buffered_cons hne (q.taken ++ [q.data (q.nread.toNat % pipesize)])
          obtain ⟨q', r, hrun, ht, hb⟩ := ih (i + 1)
            { q with nread := q.nread + 1, taken := q.taken ++ [q.data (q.nread.toNat % pipesize)] }
            (by omega)
          rw [hcons]
          refine ⟨q', r + 1, ?_, ?_, hb.imp ?_ ?_⟩
          · simp only [if_pos hi, if_neg hne, if_pos hok, hrun]
            congr 3
            omega
          · rw [ht, List.take_succ_cons, List.append_assoc, List.singleton_append]
          · rintro ⟨hdrop, hall⟩
            refine ⟨hdrop, fun j hij hjn hlen => ?_⟩
            rw [List.length_cons] at hlen
            rcases Nat.eq_or_lt_of_le hij with rfl | hlt
            · exact hok
            · exact hall j hlt hjn (by omega)
          · rintro ⟨hdrop, hr, hrn, hfail⟩
            rw [List.length_cons]
            exact ⟨hdrop, by omega, by omega, by rwa [show i + (r + 1) = i + 1 + r by omega]⟩
        | false =>
          have hcons := Pipe.buffered_cons hne q.taken
          refine ⟨{ q with nread := q.nread + 1 }, 0, by simp [hi, hne, hok], by simp, .inr ?_⟩
          rw [hcons]
          exact ⟨rfl, Nat.succ_pos _, hi, hok⟩
    · exact ⟨q, 0, by simp [hi], by simp, .inl ⟨by simp, fun j hij hjn _ => by omega⟩⟩

/-- For every pipe, length and outcome of the copies, `piperead` removes from the pipe exactly the
bytes that it reports if and only if no copy of a byte that it takes fails. The reader gets the
bytes reported. -/
theorem read_loses_nothing (q : Pipe) (n : Int) (ok : Nat → Bool) :
    ∃ (q' : Pipe) (r : Nat), copyLoop ok n (n.toNat + 1) 0 q = some (q', ↑r) ∧
      q'.taken = q.taken ++ q.buffered.take r ∧
      (q'.buffered = q.buffered.drop r ↔
        ∀ j : Nat, j < n → j < q.buffered.length → ok j = true) := by
  obtain ⟨q', r, hrun, ht, hb⟩ := @copyLoop_spec ok n (n.toNat + 1) 0 q (by omega)
  simp only [Nat.zero_add] at hrun hb
  refine ⟨q', r, hrun, ht, ?_⟩
  rcases hb with ⟨hdrop, hall⟩ | ⟨hdrop, hr, hrn, hfail⟩
  · exact iff_of_true hdrop fun j hj hlen => hall j (Nat.zero_le j) hj hlen
  · refine iff_of_false ?_ fun hall => ?_
    · intro he
      have hlen := congrArg List.length (he.symm.trans hdrop)
      rw [List.length_drop, List.length_drop] at hlen
      omega
    · rw [hall r hrn hr] at hfail
      cases hfail

def oneByte : Pipe := { data := fun _ => 7, nwrite := 1, stored := [7] }

/-- `copyout` to the first page fails for every page table and memory; a read of one byte to it
reports 0 bytes, and the byte is gone. -/
theorem failing_read_loses_byte :
    (∀ L pagetable src km, copyout L pagetable 0 src 1 km = .ok (-1, km)) ∧
    ∃ q', copyLoop (fun _ => false) 1 2 0 oneByte = some (q', 0) ∧
      oneByte.buffered = [7] ∧ q'.buffered = [] := by
  refine ⟨?_, _, rfl, rfl, rfl⟩
  intro L pagetable src km
  simp [copyout, pgrounddown, maxva]
  rfl

end Xv6.Pipes
