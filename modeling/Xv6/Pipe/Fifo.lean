import Xv6.Misc.Ring
import Xv6.Pipe
import Xv6.Sync.Discipline

/-!
# Pipes are queues

In every interleaving of writers and readers, the bytes that were stored are those that readers got
followed by those in the buffer.
-/

namespace Xv6.Pipes

open ByteMem
open Monitor (Next Label Move)

variable {n pi : Nat} {s : State n} {q : Pipe} {c : Code}

def Pipe.buffered (q : Pipe) : List Byte :=
  (List.range (q.nwrite - q.nread).toNat).map fun i => q.data ((q.nread.toNat + i) % pipesize)

/-- The counters and the buffer against the history. -/
structure Queue (q : Pipe) : Prop where
  ring : RingBuf pipesize q.data q.stored q.taken.length
  nread : q.nread = BitVec.ofNat 32 q.taken.length
  nwrite : q.nwrite = BitVec.ofNat 32 q.stored.length
  taken : q.taken = q.stored.take q.taken.length

theorem pipesize_dvd : pipesize ∣ 2 ^ 32 := by decide

theorem Queue.full_iff (h : Queue q) : q.nwrite = q.nread + BitVec.ofNat 32 pipesize ↔
      q.stored.length = q.taken.length + pipesize := by
  have hfits := h.ring.fits
  have hle := h.ring.le
  rw [h.nread, h.nwrite, ← BitVec.ofNat_add]
  apply RingBuf.ofNat_inj hfits
  unfold pipesize
  omega

theorem Queue.empty_iff (h : Queue q) : q.nread = q.nwrite ↔ q.taken.length = q.stored.length := by
  have hfits := h.ring.fits
  rw [h.nread, h.nwrite]
  apply RingBuf.ofNat_inj h.ring.le
  unfold pipesize at hfits
  omega

theorem Queue.store (h : Queue q) {ch : Byte} (hroom : ¬q.nwrite = q.nread + BitVec.ofNat 32 pipesize) :
    Queue { q with
      data := Function.update q.data (q.nwrite.toNat % pipesize) ch
      nwrite := q.nwrite + 1
      stored := q.stored ++ [ch] } := by
  have hlt : q.stored.length < q.taken.length + pipesize :=
    Nat.lt_of_le_of_ne h.ring.fits fun he => hroom (h.full_iff.mpr he)
  refine ⟨?_, h.nread, ?_, ?_⟩
  · rw [h.nwrite, RingBuf.toNat_mod pipesize_dvd]
    exact h.ring.push hlt
  · grind [h.nwrite, RingBuf.ofNat_add_one, List.length_append, List.length_singleton]
  · grind [h.taken]

theorem Queue.take (h : Queue q) (hne : ¬q.nread = q.nwrite) : Queue { q with
      nread := q.nread + 1
      taken := q.taken ++ [q.data (q.nread.toNat % pipesize)] } := by
  have hlt : q.taken.length < q.stored.length :=
    Nat.lt_of_le_of_ne h.ring.le fun he => hne (h.empty_iff.mpr he)
  refine ⟨?_, ?_, h.nwrite, ?_⟩
  · grind [h.ring.pop, pipesize, List.length_append, List.length_singleton]
  · grind [h.nread, RingBuf.ofNat_add_one, List.length_append, List.length_singleton]
  · rw [List.length_append, List.length_singleton, List.take_add_one, ← h.taken, h.nread,
      RingBuf.toNat_mod pipesize_dvd, h.ring.next hlt]
    rfl

/-- All bytes that are taken from the buffer can be copied to the reader. -/
def Code.delivers : Code → Prop
  | .read ok _ | .copy ok _ _ => ∀ i, ok i = true
  | _ => True

variable {killed : Bool} {q' : Pipe} {x : Next Code Chan}

theorem Exec.delivers (he : Exec killed q c q' x) (hc : c.delivers) : x.code.delivers := by
  cases he with
  | sleepEmpty | ready | take => exact hc
  | _ => trivial

theorem Exec.queue (he : Exec killed q c q' x) (hc : c.delivers) (h : Queue q) : Queue q' := by
  cases he with
  | store _ _ _ hroom => exact h.store hroom
  | take hne => exact h.take hne
  | @lose ok n i hne hok =>
    rw [hc i] at hok
    cases hok
  | closeWrite | closeRead => exact { h with }
  | _ => exact h

def delivers : Label n Code → Prop
  | .call c => c.delivers
  | _ => True

theorem Empty.queue (h : Empty q) : Queue q := by
  refine ⟨?_, ?_, ?_, ?_⟩
  · rw [h.stored, h.taken]
    exact .empty _ _
  · rw [h.nread, h.taken]
    rfl
  · rw [h.nwrite, h.stored]
    rfl
  · rw [h.taken]
    rfl

theorem Reachable.queue (h : Reachable pi (fun _ l => delivers l) s) : Queue s.data := by
  have hkeeps := h.keeps (D := Queue) (J := fun _ => Code.delivers) (fun q hq => hq.queue)
    (fun _ _ c hc _ => hc) ?_
  · exact hkeeps.data
  · intro killed q c hc hq hd
    have he := Code.exec_spec hc killed q
    exact ⟨he.queue hd hq, he.delivers hd, fun _ h => h⟩

theorem Queue.buffered_eq (h : Queue q) : q.buffered = q.stored.drop q.taken.length := by
  have hle := h.ring.le
  have hfits := h.ring.fits
  have hlen : (q.nwrite - q.nread).toNat = q.stored.length - q.taken.length := by
    rw [h.nread, h.nwrite]
    apply RingBuf.toNat_sub hle
    unfold pipesize at hfits
    omega
  rw [h.ring.drop_eq, Pipe.buffered, hlen]
  apply List.map_congr_left
  intro i _
  rw [h.nread, RingBuf.toNat_add_mod pipesize_dvd]

/-- What was stored is what readers got followed by what is in the buffer, in every interleaving of
writers and readers. -/
theorem pipes_are_queues (h : Reachable pi (fun _ l => delivers l) s) :
    s.data.stored = s.data.taken ++ s.data.buffered ∧ s.data.buffered.length ≤ pipesize := by
  have hq := h.queue
  refine ⟨?_, ?_⟩
  · rw [hq.buffered_eq]
    calc s.data.stored
        = s.data.stored.take s.data.taken.length ++ s.data.stored.drop s.data.taken.length :=
          (List.take_append_drop _ _).symm
      _ = s.data.taken ++ s.data.stored.drop s.data.taken.length := by rw [← hq.taken]
  · rw [hq.buffered_eq, List.length_drop]
    have := hq.ring.fits
    omega

/-- A process writes two bytes and reads one of them. -/
theorem pipes_are_queues_two : ∃ s : State 1, Reachable 4096 (fun _ l => delivers l) s ∧
    s.data.taken = [7] ∧ s.data.buffered = [8] ∧
    s.data.stored = s.data.taken ++ s.data.buffered := by
  let src : Nat → Option Byte := fun i => some (7 + BitVec.ofNat 8 i)
  let moves : List (Move 1 Code) :=
    [.call (.proc 0) (.write src 2 0), .go (.proc 0) 6,
      .call (.proc 0) (.read (fun _ => true) 1), .go (.proc 0) 5]
  have h : Reachable 4096 (fun _ l => delivers l) ((running 1).play (obj 4096) moves) := by
    refine .play (running_reachable 4096 _) moves ?_
    simp [moves, Move.label, delivers, Code.delivers]
  exact ⟨_, h, by decide +kernel, by decide +kernel, (pipes_are_queues h).1⟩

end Xv6.Pipes
