import Mathlib.Data.List.Nodup
import Mathlib.Logic.Function.Basic

/-!
# Circular doubly linked lists

A list through two link fields with a head that is not an element. A link is `some a` for an
element and `none` for the head. `Ring l` says that the links go round through the head and the
elements of `l`, in both directions.
-/

namespace Dll

open Function (update update_of_ne update_self)

variable {α : Type}

/-- Following `f` from `x` visits the elements of `l` and then arrives at `y`. -/
def Path (f : Option α → Option α) : Option α → List α → Option α → Prop
  | x, [], y => f x = y
  | x, a :: l, y => f x = some a ∧ Path f (some a) l y

variable {f g : Option α → Option α} {x y : Option α} {l l1 l2 : List α} {a b : α}

theorem Path.congr {x' : Option α} (h : Path f x l y) (hx : g x' = f x)
    (hl : ∀ a ∈ l, g (some a) = f (some a)) : Path g x' l y := by
  induction l generalizing x x' with
  | nil => exact hx.trans h
  | cons a _ ih =>
    refine ⟨hx.trans h.1, ih h.2 ?_ ?_⟩
    · exact hl a List.mem_cons_self
    · grind

theorem path_append : Path f x (l1 ++ a :: l2) y ↔ Path f x l1 (some a) ∧ Path f (some a) l2 y := by
  induction l1 generalizing x with
  | nil => exact Iff.rfl
  | cons _ _ ih => simp only [List.cons_append, Path, ih, and_assoc]

theorem Path.first (h : Path f x l y) : f x = l.head?.or y := by
  cases l with
  | nil => exact h
  | cons => exact h.1

theorem Path.redirect [DecidableEq α] {z : Option α} (h : Path f x l y) (hn : l.Nodup)
    (hx : ∀ a ∈ l, some a ≠ x) : Path (update f (l.getLast?.or x) z) x l z := by
  induction l generalizing x with
  | nil => exact update_self ..
  | cons a l ih =>
    obtain ⟨hna, hn⟩ := List.nodup_cons.mp hn
    have hlast : (a :: l).getLast?.or x = l.getLast?.or (some a) := by grind
    have hne : x ≠ l.getLast?.or (some a) := by grind
    rw [hlast]
    refine ⟨?_, ih h.2 hn ?_⟩
    · rw [update_of_ne hne]
      exact h.1
    · rintro c hc ⟨⟩
      exact hna hc

theorem Path.skip [DecidableEq α] (h : Path f x (l1 ++ b :: l2) y) (hn : (l1 ++ b :: l2).Nodup)
    (hx : ∀ a ∈ l1 ++ b :: l2, some a ≠ x) :
    Path (update f (l1.getLast?.or x) (f (some b))) x (l1 ++ l2) y := by
  obtain ⟨h1, h2⟩ := path_append.mp h
  obtain ⟨hn1, hn2, hdis⟩ := List.nodup_append.mp hn
  have hr : Path _ x l1 (f (some b)) :=
    h1.redirect (z := f (some b)) hn1 fun a ha => hx a (List.mem_append_left _ ha)
  cases l2 with
  | nil =>
    rw [List.append_nil]
    rw [h2.first] at hr ⊢
    exact hr
  | cons c l2 =>
    obtain ⟨hb, h2⟩ := h2
    rw [hb] at hr ⊢
    refine path_append.mpr ⟨hr, h2.congr ?_ ?_⟩ <;> grind

/-- Follow `f` from `x` up to the first element with `p`, or once round to the head; nothing if
that takes more than `fuel` links. -/
def scan (f : Option α → Option α) (p : α → Bool) : Nat → Option α → Option (Option α)
  | 0, _ => none
  | fuel + 1, x =>
    match f x with
    | none => some none
    | some a => if p a then some (some a) else scan f p fuel (some a)

theorem Path.scan {p : α → Bool} {fuel : Nat} (h : Path f x l none) (hf : l.length < fuel) :
    scan f p fuel x = some (l.find? p) := by
  induction l generalizing x fuel with
  | nil =>
    obtain ⟨fuel, rfl⟩ := Nat.exists_eq_add_one_of_ne_zero (Nat.ne_of_gt hf)
    have hx : f x = none := h
    simp [Dll.scan, hx]
  | cons a _ ih =>
    obtain ⟨fuel, rfl⟩ := Nat.exists_eq_add_one_of_ne_zero (Nat.ne_of_gt (Nat.zero_lt_of_lt hf))
    obtain ⟨hx, hl⟩ := h
    have hrest := ih hl (Nat.lt_of_succ_lt_succ hf)
    rw [Dll.scan, hx]
    cases hp : p a with
    | false => simp [hp, hrest]
    | true => simp [hp]

/-- The two link fields of the elements and of the head. -/
structure Links (α : Type) where
  next : Option α → Option α
  prev : Option α → Option α

variable [DecidableEq α] {L : Links α}

def Links.pushFront (L : Links α) (b : α) : Links α :=
  let next := update L.next (some b) (L.next none)
  let prev := update L.prev (some b) none
  { next := update next none (some b)
    prev := update prev (next none) (some b) }

def Links.unlink (L : Links α) (b : α) : Links α :=
  let prev := update L.prev (L.next (some b)) (L.prev (some b))
  { next := update L.next (prev (some b)) (L.next (some b)), prev := prev }

/-- The links go round through the head and the elements of `l`. -/
structure Links.Ring (L : Links α) (l : List α) : Prop where
  nodup : l.Nodup
  next : Path L.next none l none
  prev : Path L.prev none l.reverse none

theorem Links.pushFront_next (L : Links α) (b : α) : (L.pushFront b).next =
    update (update L.next (some b) (L.next none)) none (some b) := rfl

theorem Links.pushFront_prev (L : Links α) (b : α) : (L.pushFront b).prev =
    update (update L.prev (some b) none) (L.next none) (some b) := by
  rfl

theorem Links.Ring.pushFront (h : L.Ring l) (hb : b ∉ l) : (L.pushFront b).Ring (b :: l) := by
  have hfirst : L.next none = l.head? := by simpa using h.next.first
  refine ⟨List.nodup_cons.mpr ⟨hb, h.nodup⟩, ⟨?_, ?_⟩, ?_⟩
  · rw [Links.pushFront_next, update_self]
  · rw [Links.pushFront_next]
    apply h.next.congr
    · simp
    · grind
  · rw [List.reverse_cons, path_append, Links.pushFront_prev, hfirst]
    have hprev : Path (update L.prev (some b) none) none l.reverse none := by
      apply h.prev.congr
      · simp
      · grind
    have hlast := hprev.redirect (z := some b) (List.nodup_reverse.mpr h.nodup) (by simp)
    rw [List.getLast?_reverse, Option.or_none] at hlast
    refine ⟨hlast, ?_⟩
    unfold Path
    rw [update_of_ne, update_self]
    intro he
    exact hb (List.mem_of_head? he.symm)

theorem Links.Ring.unlink (h : L.Ring l) (hb : b ∈ l) : (L.unlink b).Ring (l.erase b) := by
  obtain ⟨l1, l2, rfl⟩ := List.append_of_mem hb
  obtain ⟨hn, hnext, hprev⟩ := h
  obtain ⟨-, hn2, hdis⟩ := List.nodup_append.mp hn
  have hb1 : b ∉ l1 := fun h1 => hdis b h1 b List.mem_cons_self rfl
  rw [List.erase_append_right _ hb1, List.erase_cons_head]
  have hrev : (l1 ++ b :: l2).reverse = l2.reverse ++ b :: l1.reverse := by simp
  rw [hrev] at hprev
  have hnb : L.next (some b) = l2.head? := by simpa using (path_append.mp hnext).2.first
  have hpb : L.prev (some b) = l1.getLast? := by simpa using (path_append.mp hprev).2.first
  have hself : some b ≠ L.next (some b) := by grind [List.mem_of_head?]
  have hskip := hnext.skip hn (by simp)
  have hskip' := hprev.skip (hrev ▸ List.nodup_reverse.mpr hn) (by simp)
  simp only [List.getLast?_reverse, Option.or_none, ← hnb, ← hpb] at hskip hskip'
  refine ⟨hn.sublist (by simp), ?_, ?_⟩
  · unfold Links.unlink
    dsimp only
    rw [update_of_ne hself]
    exact hskip
  · rw [List.reverse_append]
    exact hskip'

end Dll
