import Xv6.Kernel.Fate

/-!
# Who changes tickets

`settickets` changes the tickets of its caller and `fork` those of the new process. All other code
leaves the tickets of every process alone.
-/

namespace Xv6

open ByteMem

variable {L : Layout} {b : Sched.Build} {steps : List Step} {k k' : Kernel} {op : Op} {p q : Slot}

/-- What step `op` from state `k` may do to the tickets of process `q`, which it leaves as `g`. -/
inductive TicketStep (k : Kernel) (op : Op) (q : Slot) (g : Gist) : Prop where
  | vacant (hs : g.state = .unused)
  | kept (hs : (k.proc q).state ≠ .unused) (ht : g.tickets = (k.proc q).tickets)
  | bought (hop : op.Calls k q .settickets) (hpos : 1 ≤ toInt32 (k.arg q 0))
      (ht : g.tickets = toInt32 (k.arg q 0))
  | inherited (p : Slot) (hop : op.Calls k p .fork) (ht : g.tickets = (k.proc p).tickets)

theorem Fate.tickets {g : Gist} (h : Fate b k op q g) : TicketStep k op q g := by
  have hkept : g.tickets = (k.proc q).tickets → (g.state = .unused ∨ (k.proc q).state ≠ .unused) →
      TicketStep k op q g := fun ht hs => hs.elim .vacant fun hs => .kept hs ht
  have hused : ∀ s, (k.proc q).state = s → s ≠ .unused → (k.proc q).state ≠ .unused :=
    fun s h1 h2 => h1 ▸ h2
  cases h with
  | created p hop => exact .inherited p hop rfl
  | bought _ hop hn hpos => exact .bought hop (hn ▸ hpos) hn.symm
  | refused | reaped => exact .vacant rfl
  | kept | trapped | reset | sigreturn => exact hkept rfl (em _)
  | killed =>
    refine hkept rfl ((em _).imp_left fun hs => ?_)
    simp [Gist.kill, hs]
  | sigalarm =>
    obtain ⟨i, handler, t, hset⟩ := (k.proc q).gist.sigalarm_eq (toInt32 (k.arg q 0))
      (BitVec.ofNat 64 (k.arg q 1))
    rw [hset] at hkept ⊢
    exact hkept rfl (em _)
  | timed _ h =>
    have hs := hused _ (Kernel.running_of_runs h) (by decide)
    obtain ⟨r, t, hdeliver⟩ := (k.proc q).gist.deliver_eq
    refine .kept hs ?_
    rw [hdeliver]
    split <;> rfl
  | woken h | dispatched _ _ h | yielded _ h | slept h | exited _ h | resetYielded _ h =>
    exact .kept (hused _ h (by decide)) rfl

/-! ## Runs -/

def Op.ticketsAsked (k : Kernel) : Op → Option Int
  | .syscall p _ =>
    if k.runs p .syscall && k.sysno p = .settickets then some (toInt32 (k.arg p 0)) else none
  | _ => none

theorem Op.ticketsAsked_calls (h : op.Calls k p .settickets) :
    op.ticketsAsked k = some (toInt32 (k.arg p 0)) := by
  obtain ⟨⟨o, rfl⟩, hrun, hs⟩ := h
  simp [Op.ticketsAsked, hrun, hs]

theorem Gist.Booted.tickets {g : Gist} (h : g.Booted) (hs : g.state ≠ .unused) : g.tickets = 1 := by
  rcases h with rfl | rfl
  · exact absurd rfl hs
  · rfl

theorem Run.tickets_le {most : Int} (hmost : 1 ≤ most) (h : Run L b steps k)
    (hs : ∀ s ∈ steps, ∀ t, s.op.ticketsAsked s.pre = some t → t ≤ most) :
    ∀ q, (k.proc q).state ≠ .unused → 1 ≤ (k.proc q).tickets ∧ (k.proc q).tickets ≤ most := by
  induction h with
  | boot h =>
    intro q hq
    rw [← Proc.gist_tickets, ((boot_core h).2 q).tickets hq]
    exact ⟨le_refl _, hmost⟩
  | @step steps k k' op _ hstep ih =>
    have ih := ih fun s hmem => hs s (List.mem_cons_of_mem _ hmem)
    intro q hq
    rw [← Proc.gist_tickets]
    rcases (step_fate hstep q).tickets with hv | ⟨hs, ht⟩ | ⟨hop, hpos, ht⟩ | ⟨p, hop, ht⟩
    · exact absurd hv hq
    · rw [ht]
      exact ih q hs
    · rw [ht]
      exact ⟨hpos, hs _ List.mem_cons_self _ (Op.ticketsAsked_calls hop)⟩
    · rw [ht]
      apply ih p
      rw [Kernel.running_of_runs hop.2.1]
      decide

end Xv6
