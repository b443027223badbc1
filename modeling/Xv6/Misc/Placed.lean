import Mathlib.Algebra.Notation.Defs
import Mathlib.Logic.Function.Basic

/-!
# Addresses that are kept at places

An allocator marks addresses of an area as used, and a structure keeps addresses at places, a
zero meaning that a place holds none. `Placed area used addr` says that they agree: every address
that is kept somewhere is of the area and is kept at one place, and the used addresses of the
area are the ones that are kept.
-/

/-- The used addresses of the area are those kept at places, each at one. -/
structure Placed {ι β : Type} [Zero β] (area : β → Prop) (used : β → Bool) (addr : ι → β) :
    Prop where
  mem : ∀ p, addr p ≠ 0 → area (addr p)
  inj : ∀ p q, addr p ≠ 0 → addr p = addr q → p = q
  iff : ∀ b, area b → (used b = true ↔ ∃ p, addr p = b)

namespace Placed

open Function (update update_apply update_of_ne update_self)

variable {ι β : Type} [Zero β] {area : β → Prop} {used : β → Bool} {addr : ι → β} {p : ι} {b : β}

theorem used_addr (h : Placed area used addr) (hp : addr p ≠ 0) : used (addr p) = true :=
  (h.iff _ (h.mem p hp)).mpr ⟨p, rfl⟩

theorem addr_ne (h : Placed area used addr) (hb : area b) (hu : used b = false) (q : ι) :
    addr q ≠ b := by
  intro hq
  have hu' := (h.iff b hb).mpr ⟨q, hq⟩
  rw [hu] at hu'
  exact Bool.noConfusion hu'

theorem addr_ne_of_ne (h : Placed area used addr) (hp : addr p ≠ 0) {q : ι} (hne : q ≠ p) :
    addr q ≠ addr p :=
  fun hq => hne (h.inj p q hp hq.symm).symm

def mask (c : ι → Bool) (addr : ι → β) : ι → β := fun p => if c p then 0 else addr p

variable {c c' : ι → Bool}

theorem mask_of_false (h : c p = false) : mask c addr p = addr p := by simp [mask, h]

variable [DecidableEq ι]

theorem mask_insert (hc : ∀ q, c' q = (c q || decide (q = p))) :
    mask c' addr = update (mask c addr) p 0 := by
  funext q
  by_cases hq : q = p
  · subst hq
    simp [mask, hc]
  · simp [mask, hc, hq]

theorem skip (h : Placed area used (mask c addr)) (hc : ∀ q, c' q = (c q || decide (q = p)))
    (hp : addr p = 0) : Placed area used (mask c' addr) := by
  have e : mask c' addr = mask c addr := by
    rw [mask_insert hc]
    simp [mask, hp]
  rwa [e]

variable [DecidableEq β]

theorem put (h : Placed area used addr) (h0 : ¬area 0) (hb : area b) (hu : used b = false)
    (hp : addr p = 0) : Placed area (update used b true) (update addr p b) := by
  refine ⟨?_, ?_, ?_⟩
  · intro q hq
    by_cases hqp : q = p
    · subst hqp
      rwa [update_self]
    · rw [update_of_ne hqp] at hq ⊢
      exact h.mem q hq
  · intro q r hq hqr
    by_cases hqp : q = p <;> by_cases hrp : r = p
    · rw [hqp, hrp]
    · subst hqp
      rw [update_self, update_of_ne hrp] at hqr
      exact absurd hqr.symm (h.addr_ne hb hu r)
    · subst hrp
      rw [update_self, update_of_ne hqp] at hqr
      exact absurd hqr (h.addr_ne hb hu q)
    · grind [h.inj, update_apply]
  · intro c hc
    by_cases hcb : c = b
    · subst hcb
      rw [update_self]
      exact ⟨fun _ => ⟨p, update_self ..⟩, fun _ => rfl⟩
    · rw [update_of_ne hcb, h.iff c hc]
      constructor
      · rintro ⟨q, hq⟩
        have hqp : q ≠ p := by grind
        exact ⟨q, by rwa [update_of_ne hqp]⟩
      · grind

theorem take (h : Placed area used addr) (h0 : ¬area 0) (hp : addr p ≠ 0) :
    Placed area (update used (addr p) false) (update addr p 0) := by
  have hne : ∀ {q}, update addr p 0 q ≠ 0 → q ≠ p := by grind
  refine ⟨?_, ?_, ?_⟩
  · grind [h.mem, update_apply]
  · grind [h.inj, update_apply]
  · intro c hc
    by_cases hcb : c = addr p
    · subst hcb
      rw [update_self]
      refine ⟨fun hf => Bool.noConfusion hf, ?_⟩
      rintro ⟨q, hq⟩
      have hqp := hne (hq ▸ hp)
      rw [update_of_ne hqp] at hq
      exact absurd hq (h.addr_ne_of_ne hp hqp)
    · rw [update_of_ne hcb, h.iff c hc]
      constructor
      · rintro ⟨q, hq⟩
        have hqp : q ≠ p := by grind
        exact ⟨q, by rwa [update_of_ne hqp]⟩
      · grind

theorem release (h : Placed area used (mask c addr)) (h0 : ¬area 0)
    (hc : ∀ q, c' q = (c q || decide (q = p))) (hcp : c p = false) (hp : addr p ≠ 0) :
    (area (addr p) ∧ used (addr p) = true) ∧
      Placed area (update used (addr p) false) (mask c' addr) := by
  have e : mask c addr p = addr p := mask_of_false hcp
  have hp' : mask c addr p ≠ 0 := e ▸ hp
  refine ⟨⟨e ▸ h.mem p hp', e ▸ h.used_addr hp'⟩, ?_⟩
  have ht := h.take h0 hp'
  rwa [e, ← mask_insert hc] at ht

end Placed
