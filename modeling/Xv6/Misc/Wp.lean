import Mathlib.Logic.Basic

/-!
# Computations with state and failure

Postconditions for `StateT σ (Except ε)`. `Wp E m s Q` says of a run of `m` from `s` that it
ends in a value and state with `Q`, or in an error with `E`; with `E` false it is total
correctness.
-/

/-- The run of `m` from `s` returns with `Q` or fails with `E`. -/
@[irreducible]
def Wp {σ ε α : Type} (E : ε → Prop) (m : StateT σ (Except ε) α) (s : σ) (Q : α → σ → Prop) :
    Prop :=
  match m s with
  | .ok (a, s') => Q a s'
  | .error e => E e

namespace Wp

variable {σ ε α β : Type} {E : ε → Prop} {s : σ} {Q R : α → σ → Prop} {T : β → σ → Prop}
  {m : StateT σ (Except ε) α} {f : α → StateT σ (Except ε) β}
variable {E' : ε → Prop} {s' : σ}

theorem of_eq {a : α} (hm : m s = .ok (a, s')) (h : Q a s') : Wp E m s Q := by
  unfold Wp
  rw [hm]
  exact h

theorem of_error {e : ε} (hm : m s = .error e) (h : E e) : Wp E m s Q := by
  unfold Wp
  rw [hm]
  exact h

theorem pure {a : α} (h : Q a s) : Wp E (Pure.pure a) s Q := of_eq rfl h

theorem bind (h : Wp E m s fun a s' => Wp E (f a) s' T) : Wp E (m >>= f) s T := by
  have hb : (m >>= f) s = (m s >>= fun p => f p.1 p.2) := rfl
  unfold Wp at h ⊢
  rw [hb]
  cases hm : m s with
  | ok | error =>
    rw [hm] at h
    exact h

theorem mono (h : Wp E m s Q) (hQ : ∀ a s', Q a s' → R a s') : Wp E m s R := by
  unfold Wp at h ⊢
  cases hm : m s with
  | ok =>
    rw [hm] at h
    exact hQ _ _ h
  | error =>
    rw [hm] at h
    exact h

theorem seq (h : Wp E m s Q) (hf : ∀ a s', Q a s' → Wp E (f a) s' T) : Wp E (m >>= f) s T :=
  bind (h.mono hf)

theorem ite {c : Prop} [Decidable c] {m' : StateT σ (Except ε) α} (h : c → Wp E m s Q)
    (h' : ¬c → Wp E m' s Q) : Wp E (if c then m else m') s Q := by
  split
  · next hc => exact h hc
  · next hc => exact h' hc

theorem get {Q : σ → σ → Prop} (h : Q s s) : Wp E (MonadState.get : StateT σ (Except ε) σ) s Q :=
  of_eq rfl h

theorem set {Q : PUnit → σ → Prop} (h : Q ⟨⟩ s') :
    Wp E (MonadState.set s' : StateT σ (Except ε) PUnit) s Q :=
  of_eq rfl h

theorem modify {Q : PUnit → σ → Prop} {g : σ → σ} (h : Q ⟨⟩ (g s)) :
    Wp E (modifyThe σ g : StateT σ (Except ε) PUnit) s Q :=
  of_eq rfl h

theorem of_ok {a : α} (h : Wp E m s Q) (hm : m s = .ok (a, s')) : Q a s' := by
  unfold Wp at h
  rw [hm] at h
  exact h

theorem failed {e : ε} (h : Wp E m s Q) (hm : m s = .error e) : E e := by
  unfold Wp at h
  rw [hm] at h
  exact h

theorem total (h : Wp (fun _ => False) m s Q) : ∃ a s', m s = .ok (a, s') ∧ Q a s' := by
  unfold Wp at h
  cases hm : m s with
  | ok p => grind
  | error =>
    rw [hm] at h
    exact h.elim

theorem weaken (h : Wp (fun _ => False) m s Q) : Wp E m s Q := by
  obtain ⟨a, s', hm, hQ⟩ := h.total
  unfold Wp
  rw [hm]
  exact hQ

theorem imp_error (h : Wp E m s Q) (hE : ∀ e, E e → E' e) : Wp E' m s Q := by
  unfold Wp at h ⊢
  cases hm : m s with
  | ok =>
    rw [hm] at h
    exact h
  | error e =>
    rw [hm] at h
    exact hE e h

theorem any : Wp (fun _ => True) m s fun _ _ => True := by
  unfold Wp
  cases m s with
  | ok | error => exact trivial

theorem and (h : Wp E m s Q) (h' : Wp E' m s R) : Wp E m s fun a s' => Q a s' ∧ R a s' := by
  unfold Wp at h h' ⊢
  cases hm : m s with
  | ok =>
    rw [hm] at h h'
    exact ⟨h, h'⟩
  | error =>
    rw [hm] at h
    exact h

theorem frame {g : σ → σ} (h : Wp E m s Q) (hm : m (g s) = (m s).map fun p => (p.1, g p.2)) :
    Wp E m (g s) fun a t => ∃ s', t = g s' ∧ Q a s' := by
  unfold Wp at h ⊢
  rw [hm]
  cases hr : m s with
  | ok p =>
    rw [hr] at h
    exact ⟨p.2, rfl, h⟩
  | error =>
    rw [hr] at h
    exact h

end Wp

def forRange {σ ε : Type} (body : Nat → StateT σ (Except ε) Unit) :
    Nat → Nat → StateT σ (Except ε) Unit
  | 0, _ => pure ()
  | n + 1, i => do
    body i
    forRange body n (i + 1)

theorem Wp.forRange {σ ε : Type} {E : ε → Prop} (body : Nat → StateT σ (Except ε) Unit)
    (I : Nat → σ → Prop) (n : Nat) :
    ∀ (start : Nat) (s : σ),
      (∀ i s, start ≤ i → i < start + n → I i s → Wp E (body i) s fun _ s' => I (i + 1) s') →
      I start s → Wp E (forRange body n start) s fun _ s' => I (start + n) s' := by
  induction n with
  | zero =>
    intro start s _ hs
    exact .pure hs
  | succ n ih =>
    intro start s hbody hs
    refine (hbody start s (Nat.le_refl _) (by omega) hs).seq ?_
    intro _ s' hs'
    have e : start + (n + 1) = start + 1 + n := by omega
    rw [e]
    apply ih _ _ _ hs'
    intro i s h1 h2 hi
    exact hbody i s (by omega) (by omega) hi

def Hoare {σ ε α : Type} (E : ε → Prop) (I : σ → Prop) (m : StateT σ (Except ε) α)
    (J : σ → Prop) : Prop :=
  ∀ s, I s → Wp E m s fun _ s' => J s'

namespace Hoare

variable {σ ε α β : Type} {E : ε → Prop} {I J K : σ → Prop} {m m' : StateT σ (Except ε) α}
  {f : α → StateT σ (Except ε) β}

theorem pure {a : α} : Hoare E I (Pure.pure a) I := fun _ h => .pure h

theorem seq (hm : Hoare E I m J) (hf : ∀ a, Hoare E J (f a) K) : Hoare E I (m >>= f) K :=
  fun s h => (hm s h).seq hf

theorem get {f : σ → StateT σ (Except ε) α} (hf : ∀ s, Hoare E I (f s) J) :
    Hoare E I (MonadState.get >>= f) J :=
  fun s h => .bind (.get (hf s s h))

theorem throw {e : ε} (h : E e) : Hoare E I (MonadExcept.throw e : StateT σ (Except ε) α) J :=
  fun _ _ => .of_error rfl h

theorem ite {c : Prop} [Decidable c] (hm : Hoare E I m J) (hm' : Hoare E I m' J) :
    Hoare E I (if c then m else m') J := by
  split
  · exact hm
  · exact hm'

theorem forRange {body : Nat → StateT σ (Except ε) Unit} (hb : ∀ i, Hoare E I (body i) I)
    {n start : Nat} : Hoare E I (forRange body n start) I :=
  fun s h => Wp.forRange body (fun _ => I) n start s (fun i s' _ _ => hb i s') h

end Hoare
