import Xv6.Kernel.StoreFault

/-!
# Memory in every run

What the invariant of the kernel says of a run in the terms of the machine: the pages of a process
are those below its size, and few panics can be reached.
-/

namespace Xv6

variable {L : Layout} {b : Sched.Build} {steps : List Step} {k : Kernel} {g : Account} {p : Slot}
  {r v : Nat}

theorem KInv.pte_page (hk : KInv L k g) (hp : k.Live p) (hr : (k.proc p).pagetable = r * pgsize)
    (hv : v < userPages) : k.pte p (v * pgsize) = g.map r v := by
  have hlt := userPages_lt
  rw [hk.pte_eq hp hr, if_pos (Nat.lt_of_not_ge (va_lt_maxva (by omega))), mul_pgsize_div]

/-- In every run in which `sigreturn` is only called in a handler, the user pages of a process are
those below its size. -/
theorem size_matches_pages (h : Run L b steps k) (hd : Disciplined steps)
    (hp : (k.proc p).state ≠ .unused) (hv : v < userPages) :
    k.pte p (v * pgsize) ≠ 0 ↔ v < pagesOf (k.proc p).sz := by
  obtain ⟨g, hk⟩ := h.inv hd
  rw [← Proc.live_iff] at hp
  obtain ⟨r, t, hpt, -, hi⟩ := hk.user hp
  rw [hk.pte_page hp hpt hv]
  constructor
  · intro hne
    by_contra hlt
    exact hne (hi.empty v (Nat.le_of_not_lt hlt) hv)
  · exact hi.full v

/-- The first process has got two more pages: its third page is mapped, and its fourth is not. -/
theorem size_matches_pages_init : ∃ steps k, Run smallLayout .RR steps k ∧
    (k.proc initproc).sz = 12288 ∧ k.pte initproc (2 * pgsize) ≠ 0 ∧
    k.pte initproc (3 * pgsize) = 0 := by
  obtain ⟨steps, k, hrun, hd, hs, hsz⟩ := exists_disciplined_run
    (startOps initproc ++ callOps initproc 12 8192 0)
    (fun _ k => (k.proc initproc).state ≠ .unused ∧ (k.proc initproc).sz = 12288) (by decide +kernel)
  have hpages : ∀ v, v < 4 → (k.pte initproc (v * pgsize) ≠ 0 ↔ v < 3) := by
    intro v hv
    rw [size_matches_pages hrun hd hs (by rw [userPages_eq]; omega), hsz,
      show pagesOf 12288 = 3 by simp [pagesOf, pgsize_eq]]
  exact ⟨steps, k, hrun, hsz, (hpages 2 (by decide)).mpr (by decide),
    not_not.mp (mt (hpages 3 (by decide)).mp (by decide))⟩

/-- In every such run no step reaches a panic but that of `walk` on an address beyond MAXVA, of
the first process exiting, and of an alarm that finds no page for the trapframe. -/
theorem step_panics {op : Op} {e : Panic} (h : Run L b steps k) (hd : Disciplined steps)
    (hop : op.disciplined k = true) (he : step L b op k = .error e) :
    e = .walk ∨ e = .initExiting ∨ e = .kerneltrap ∧
      ∃ p, op = .timer p ∧ (k.proc p).alarmDue = true ∧ k.km.freelist = 0 := by
  obtain ⟨g, hk⟩ := h.inv hd
  rcases (step_spec hk hop).failed he with (rfl | rfl) | ⟨p, hp, rfl, hdue⟩
  · exact .inl rfl
  · exact .inr (.inl rfl)
  · exact .inr (.inr ⟨rfl, p, hp, hdue⟩)

/-- A store of the child to `TRAPFRAME` stops the kernel in `walk`. -/
theorem step_panics_fault : ∃ steps k e, Run smallLayout .RR steps k ∧
    step smallLayout .RR (.fault secondproc trapframeVa) k = .error e ∧
    (e = .walk ∨ e = .initExiting) := by
  obtain ⟨steps, k, hrun, hd, hpanic⟩ := exists_disciplined_run childOps (fun _ k =>
    fails (step smallLayout .RR (.fault secondproc trapframeVa) k) .walk) (by decide +kernel)
  have he := fails_iff.mp hpanic
  refine ⟨steps, k, _, hrun, he, (step_panics hrun hd rfl he).imp_right fun h => h.resolve_right ?_⟩
  simp

end Xv6
