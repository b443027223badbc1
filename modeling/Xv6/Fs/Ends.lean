import Xv6.Sysfile

/-!
# Ends of pipes

Which files are ends of pipes, against what the pipes say about their ends.
-/

namespace Xv6.Fs

open Function (update update_apply update_of_ne update_self)

attribute [local grind =] update_apply

/-- The end of a pipe that a file is: the number of the pipe, and whether it is the write end. -/
def File.pipeEnd (f : File) : Option (Nat × Bool) :=
  if f.type = .pipe then some (f.pipe, f.writable) else none

def Pipe.isOpen (q : Pipe) (w : Bool) : Bool := if w then q.writeopen else q.readopen

/-- Each open end of a pipe is one file, and the page is freed when both are closed. -/
structure Pipes (e : Fp → Option (Nat × Bool)) (pipe : Nat → Pipe) (npipe : Nat) : Prop where
  below : ∀ f n w, e f = some (n, w) → n < npipe
  inj : ∀ f f' v, e f = some v → e f' = some v → f = f'
  open_iff : ∀ n w, n < npipe → ((pipe n).isOpen w = true ↔ ∃ f, e f = some (n, w))
  freed_iff : ∀ n, n < npipe →
    ((pipe n).freed = true ↔ (pipe n).readopen = false ∧ (pipe n).writeopen = false)

variable {e : Fp → Option (Nat × Bool)} {pipe : Nat → Pipe} {npipe n : Nat} {f : Fp} {w : Bool}
variable {u : Nat × Bool}

theorem Pipe.isOpen_closed (q : Pipe) (v : Bool) :
    (q.closed w).isOpen v = if v = w then false else q.isOpen v := by
  cases w <;> cases v <;> simp [Pipe.closed, Pipe.isOpen] <;> split <;> simp_all

theorem Pipe.freed_closed (q : Pipe)
    (h : q.freed = true ↔ q.readopen = false ∧ q.writeopen = false) :
    (q.closed w).freed = true ↔ (q.closed w).readopen = false ∧ (q.closed w).writeopen = false := by
  obtain ⟨r, v, fr⟩ := q
  cases w <;> cases r <;> cases v <;> cases fr <;> simp_all [Pipe.closed]

theorem exists_end_update {v : Option (Nat × Bool)} :
    (∃ g, update e f v g = some u) ↔ v = some u ∨ ∃ g, g ≠ f ∧ e g = some u := by
  constructor
  · grind
  · rintro (hv | ⟨g, hgf, hg⟩)
    · exact ⟨f, by rw [update_self, hv]⟩
    · exact ⟨g, by rw [update_of_ne hgf, hg]⟩

theorem exists_end_ne (hu : e f ≠ some u) : (∃ g, g ≠ f ∧ e g = some u) ↔ ∃ g, e g = some u := by
  constructor
  · rintro ⟨g, -, hg⟩
    exact ⟨g, hg⟩
  · grind

theorem Pipes.close (h : Pipes e pipe npipe) (hf : e f = some (n, w)) :
    Pipes (update e f none) (update pipe n ((pipe n).closed w)) npipe := by
  refine ⟨?_, ?_, ?_, ?_⟩
  · have := h.below
    grind
  · grind [h.inj]
  · intro m v hm
    rw [exists_end_update]
    by_cases hmv : (m, v) = (n, w)
    · cases hmv
      rw [update_self, Pipe.isOpen_closed]
      grind [h.inj]
    · rw [exists_end_ne (by rw [hf]; exact fun he => hmv (Option.some.inj he).symm),
        ← h.open_iff m v hm]
      by_cases hmn : m = n
      · subst hmn
        rw [update_self, Pipe.isOpen_closed]
        grind
      · rw [update_of_ne hmn]
        simp
  · intro m hm
    by_cases hmn : m = n
    · subst hmn
      rw [update_self]
      exact Pipe.freed_closed _ (h.freed_iff m hm)
    · rw [update_of_ne hmn]
      exact h.freed_iff m hm

theorem Pipes.openRead (h : Pipes e pipe npipe) (hf : e f = none) :
    Pipes (update e f (some (npipe, false)))
      (update pipe npipe { writeopen := false }) (npipe + 1) := by
  have hb := h.below
  refine ⟨?_, ?_, ?_, ?_⟩
  · grind
  · grind [h.inj]
  · intro m v hm
    rw [exists_end_update, exists_end_ne (by rw [hf]; simp)]
    by_cases hmn : m = npipe
    · grind [Pipe.isOpen]
    · rw [update_of_ne hmn, h.open_iff m v (by omega)]
      grind
  · intro m hm
    by_cases hmn : m = npipe
    · subst hmn
      simp
    · rw [update_of_ne hmn]
      exact h.freed_iff m (by omega)

theorem Pipes.openWrite (h : Pipes e pipe npipe) (hn : n < npipe) (hf : e f = none)
    (hp : pipe n = { writeopen := false }) :
    Pipes (update e f (some (n, true))) (update pipe n {}) npipe := by
  have hb := h.below
  have ho := h.open_iff n
  rw [hp] at ho
  refine ⟨?_, ?_, ?_, ?_⟩
  · grind
  · grind [h.inj, ho true hn, Pipe.isOpen]
  · intro m v hm
    rw [exists_end_update, exists_end_ne (by rw [hf]; simp)]
    by_cases hmn : m = n
    · subst hmn
      cases v with
      | true => simp [Pipe.isOpen]
      | false => simpa [Pipe.isOpen] using ho false hn
    · rw [update_of_ne hmn, h.open_iff m v hm]
      grind
  · intro m hm
    by_cases hmn : m = n
    · subst hmn
      simp
    · rw [update_of_ne hmn]
      exact h.freed_iff m hm
end Xv6.Fs
