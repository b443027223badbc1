import Xv6.Pipe
import Xv6.Sync.Discipline

/-!
# Sleepers on a pipe

Who sleeps in `piperead` or `pipewrite` has a reason to, unless a writer is killed between two bytes.
-/

namespace Xv6.Pipes

open Monitor (Next Move)

variable {n pi : Nat} {s : State n} {q q' : Pipe} {c : Code} {o : Chan → Bool} {killed : Bool}
variable {P : Chan → Prop} {ch : Chan}

theorem Chan.addr_inj {ch' : Chan} (h : ch.addr pi = ch'.addr pi) : ch = ch' := by
  cases ch <;> cases ch' <;> simp only [Chan.addr] at h
  · rfl
  · omega
  · omega
  · rfl

/-- What may be owed. A writer that owes a `wakeup` is alive and finds readers, so it does not leave
before it has made the call. -/
def Code.hold (q : Pipe) (o : Chan → Bool) (killed : Bool) : Code → Prop
  | .write _ _ i => o .nwrite = false ∧
    (o .nread = true → 0 < i ∧ killed = false ∧ q.readopen = true)
  | .full .. => (∀ ch, o ch = false) ∧ Chan.nwrite.cond q = false
  | .copy .. => o .nread = false
  | _ => ∀ ch, o ch = false

def Code.calm : Code → Prop
  | .write _ _ i => i = 0
  | _ => True

def owes (q q' : Pipe) (o : Chan → Bool) (ch : Chan) : Bool := ch.cond q' && (o ch || !ch.cond q)

theorem owes_same (q : Pipe) (h : o ch = false) : owes q q o ch = false := by simp [owes, h]

theorem owes_of_cond (h : o ch = false) (hq : ch.cond q = true) : owes q q' o ch = false := by
  simp [owes, h, hq]

theorem ne_nread (h : P .nwrite) : ∀ ch, ch ≠ .nread → P ch := by
  intro ch hch
  cases ch with
  | nread => exact absurd rfl hch
  | nwrite => exact h

theorem ne_nwrite (h : P .nread) : ∀ ch, ch ≠ .nwrite → P ch := by
  intro ch hch
  cases ch with
  | nread => exact h
  | nwrite => exact absurd rfl hch

theorem Exec.after {x : Next Code Chan} (he : Exec killed q c q' x) (h : c.hold q o killed) :
    Monitor.After (obj pi) (fun q o killed c => c.hold q o killed) q' (owes q q' o) killed x := by
  cases he with
  | wrote | noByte => exact ⟨ne_nread (owes_same q h.1), fun _ _ => rfl⟩
  | gone _ hgone =>
    -- the writer owes nothing, since it has been killed or has no reader
    have hpaid : o .nread = false := by
      by_contra ho
      obtain ⟨-, hk, hopen⟩ := h.2 (by simpa using ho)
      simp [hk, hopen] at hgone
    intro ch
    cases ch with
    | nread => exact owes_same q hpaid
    | nwrite => exact owes_same q h.1
  | noRoom _ hopen hfull =>
    refine ⟨ne_nread (owes_same q h.1), ?_⟩
    intro k
    exact ⟨fun _ => rfl, by simp [Chan.cond, hfull, hopen]⟩
  | store _ hopen halive hroom =>
    refine ⟨owes_of_cond h.1 (by simp [Chan.cond, hroom]), ?_⟩
    intro _
    exact ⟨Nat.succ_pos _, halive, hopen⟩
  | sleepFull =>
    refine ⟨fun ch => owes_same q (h.1 ch), h.2, ?_⟩
    intro d k
    exact ⟨rfl, by simp⟩
  | noReader => exact fun ch => owes_same q (h ch)
  | sleepEmpty hempty hopen =>
    refine ⟨fun ch => owes_same q (h ch), ?_, fun _ _ _ => rfl⟩
    simp [obj, Code.chan, Chan.cond, hempty, hopen]
  | ready => exact owes_same q (h .nread)
  | copied => exact ⟨ne_nwrite (owes_same q h), fun _ _ => rfl⟩
  | take hne => exact owes_of_cond h (by simp [Chan.cond, hne])
  | lose hne => exact ⟨ne_nwrite (owes_of_cond h (by simp [Chan.cond, hne])), fun _ _ => rfl⟩
  | closeWrite => exact ⟨ne_nread (owes_same q (h .nwrite)), fun _ _ => rfl⟩
  | closeRead => exact ⟨ne_nwrite (owes_same q (h .nread)), fun _ _ => rfl⟩

def discipline (pi : Nat) : Monitor.Discipline (obj pi) Code.calm where
  hold q o killed c := c.hold q o killed
  addr_inj _ _ := Chan.addr_inj
  call b c q hc killed := by
    cases c with
    | write => exact ⟨rfl, by simp⟩
    | read | close => exact fun _ => rfl
    | _ => simp [obj, Code.isCall] at hc
  exec q o killed c hc h := (Code.exec_spec hc killed q).after h
  leave q o killed c hc h := by
    cases c with
    | leave => exact h
    | _ => cases hc
  kill q o killed c hc h := by
    cases c with
    | write _ _ i =>
      refine ⟨h.1, ?_⟩
      intro ho
      have hi : i = 0 := hc
      have := (h.2 ho).1
      omega
    | _ => exact h

/-- In every run in which `kill` hits no writer between two bytes, whoever sleeps in `piperead` while
the lock is free waits for bytes, and whoever sleeps in `pipewrite` waits for room. -/
theorem pipe_sleepers (h : Reachable pi (fun s l => l.calm Code.calm s) s) (hlk : s.lk = none)
    (p : Fin n) (hs : (s.proc p).state = .sleeping) :
    (∀ ok m, s.pos (.proc p) = .asleep (.read ok m) →
      s.data.nread = s.data.nwrite ∧ s.data.writeopen = true) ∧
    ∀ src m i, s.pos (.proc p) = .asleep (.write src m i) →
      s.data.nwrite = s.data.nread + BitVec.ofNat 32 pipesize ∧ s.data.readopen = true := by
  refine ⟨?_, ?_⟩
  · intro ok m hpos
    have hcond := h.asleep (discipline pi) (fun _ _ => id) hlk hpos hs
    simpa [obj, Code.chan, Chan.cond] using hcond
  · intro src m i hpos
    have hcond := h.asleep (discipline pi) (fun _ _ => id) hlk hpos hs
    simpa [obj, Code.chan, Chan.cond] using hcond

def inRead : Monitor.Pos Code Chan → Bool
  | .asleep (.read ..) => true
  | _ => false

theorem exists_of_inRead {x : Monitor.Pos Code Chan} (h : inRead x = true) :
    ∃ ok m, x = .asleep (.read ok m) := by
  unfold inRead at h
  split at h
  · exact ⟨_, _, rfl⟩
  · cases h

attribute [local instance] Sched.neZero_two

def sleepInRead : List (Move 2 Code) :=
  [.call (.proc 0) (.read (fun _ => true) 10), .go (.proc 0) 4]

/-- A reader sleeps on a new pipe. -/
theorem pipe_sleepers_reader : ∃ s : State 2, Reachable 4096 (fun s l => l.calm Code.calm s) s ∧
    s.lk = none ∧ (s.proc 0).state = .sleeping ∧ inRead (s.pos (.proc 0)) = true ∧
    s.data.nread = s.data.nwrite ∧ s.data.writeopen = true := by
  have h : Reachable 4096 (fun s l => l.calm Code.calm s)
      ((running 2).play (obj 4096) sleepInRead) := by
    refine .play (running_reachable 4096 _) sleepInRead ?_
    simp [sleepInRead, Move.label, Monitor.Label.calm]
  have hlk : ((running 2).play (obj 4096) sleepInRead).lk = none := by decide +kernel
  have hs : (((running 2).play (obj 4096) sleepInRead).proc 0).state = .sleeping := by
    decide +kernel
  have hpos : inRead (((running 2).play (obj 4096) sleepInRead).pos (.proc 0)) = true := by
    decide +kernel
  obtain ⟨ok, m, hread⟩ := exists_of_inRead hpos
  exact ⟨_, h, hlk, hs, hpos, (pipe_sleepers h hlk 0 hs).1 ok m hread⟩

/-- Process 1 stores a byte for the reader, is killed, and returns from `pipewrite`. -/
def killedWriter : List (Move 2 Code) :=
  sleepInRead ++ [.call (.proc 1) (.write (fun _ => some 7) 2 0), .go (.proc 1) 1, .kill 1,
    .go (.proc 1) 2]

/-- The reader goes on sleeping with a byte in the pipe. -/
theorem killed_writer_leaves_reader_asleep : ∃ s : State 2, Reachable 4096 (fun _ _ => True) s ∧
    s.lk = none ∧ (s.proc 0).state = .sleeping ∧ (∃ ok m, s.pos (.proc 0) = .asleep (.read ok m)) ∧
    s.data.nread ≠ s.data.nwrite := by
  have h : Reachable 4096 (fun _ _ => True) ((running 2).play (obj 4096) killedWriter) :=
    .play (running_reachable 4096 _) killedWriter fun _ _ _ => trivial
  refine ⟨_, h, by decide +kernel, by decide +kernel, ?_, by decide +kernel⟩
  exact exists_of_inRead (by decide +kernel)

end Xv6.Pipes
