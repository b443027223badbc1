import Mathlib.Data.List.Nodup
import Mathlib.Data.List.Rotate

/-!
# Circular lists through one link

`Circular next l` says that following `next` goes round the elements of `l` in order. Entering an
element behind another and taking one out are stated by what they do to the links.
-/

def Circular {α : Type} (next : α → α) (l : List α) : Prop := l.map next = l.rotate 1

/-- Follow `next` from `x` up to an element with `stop`; nothing if that takes more than `n`
tries. -/
def seek {α : Type} (next : α → α) (stop : α → Bool) : Nat → α → Option α
  | 0, _ => none
  | n + 1, x => if stop x then some x else seek next stop n (next x)

variable {n : Nat}

theorem seek_mono {α : Type} {next : α → α} {stop : α → Bool} {m : Nat} {x y : α}
    (h : seek next stop n x = some y) (hnm : n ≤ m) : seek next stop m x = some y := by
  induction n generalizing m x with
  | zero => exact absurd h (by simp [seek])
  | succ _ ih =>
    obtain ⟨m, rfl⟩ := Nat.exists_eq_add_of_lt hnm
    unfold seek at h ⊢
    by_cases hs : stop x = true
    · rw [if_pos hs] at h ⊢
      exact h
    · grind

namespace Circular

variable {α : Type} {next next' : α → α} {l l1 l2 : List α} {a b x : α}

theorem cons_iff : Circular next (a :: l) ↔ (a :: l).map next = l ++ [a] := by simp [Circular]

theorem single : Circular next [a] ↔ next a = a := by simp [Circular]

theorem shift (h : Circular next (l1 ++ l2)) : Circular next (l2 ++ l1) := by
  rw [← List.rotate_append_length_eq l1 l2]
  unfold Circular at h ⊢
  rw [List.map_rotate, h, List.rotate_rotate, List.rotate_rotate, Nat.add_comm]

theorem next_eq (h : Circular next (l1 ++ a :: b :: l2)) : next a = b := by
  have hs : next a :: (b :: (l2 ++ l1)).map next = b :: (l2 ++ l1) ++ [a] := cons_iff.mp h.shift
  exact (List.cons.inj hs).1

theorem next_last (h : Circular next (b :: l ++ [a])) : next a = b := by
  have hs : next a :: (b :: l).map next = b :: (l ++ [a]) := cons_iff.mp h.shift
  exact (List.cons.inj hs).1

theorem congr (h : Circular next l) (hn : ∀ x ∈ l, next' x = next x) : Circular next' l := by
  unfold Circular at h ⊢
  rw [← h]
  exact List.map_congr_left hn

/-- Put `m'` in the place of `m`, between `a` and the element `b` behind `m`. -/
theorem relink (m m' : List α) (b : α) (h : Circular next (l1 ++ a :: (m ++ l2)))
    (hm : (a :: m).map next = m ++ [b]) (hm' : (a :: m').map next' = m' ++ [b])
    (hn : ∀ x ∈ l1 ++ l2, next' x = next x) : Circular next' (l1 ++ a :: (m' ++ l2)) := by
  have hs : (a :: (m ++ l2 ++ l1)).map next = m ++ l2 ++ l1 ++ [a] := cons_iff.mp h.shift
  suffices hs' : (a :: (m' ++ l2 ++ l1)).map next' = m' ++ l2 ++ l1 ++ [a] from
    shift (cons_iff.mpr hs')
  have h1 : l1.map next' = l1.map next := List.map_congr_left fun x hx => hn x (by simp [hx])
  have h2 : l2.map next' = l2.map next := List.map_congr_left fun x hx => hn x (by simp [hx])
  rw [List.append_assoc, ← List.cons_append, List.map_append] at hs ⊢
  rw [hm, List.append_assoc, List.append_assoc, List.append_cancel_left_eq] at hs
  rw [hm', List.map_append, h1, h2, ← List.map_append, List.append_assoc, hs, ← List.append_assoc]

theorem insert (h : Circular next (l1 ++ a :: l2)) (ha : next' a = b) (hb : next' b = next a)
    (hn : ∀ x ∈ l1 ++ l2, next' x = next x) : Circular next' (l1 ++ a :: b :: l2) :=
  relink [] [b] (next a) h rfl (by simp [ha, hb]) hn

theorem replace {c : α} (h : Circular next (l1 ++ a :: c :: l2)) (ha : next' a = b)
    (hb : next' b = next c) (hn : ∀ x ∈ l1 ++ l2, next' x = next x) :
    Circular next' (l1 ++ a :: b :: l2) :=
  relink [c] [b] (next c) h (by simp [h.next_eq]) (by simp [ha, hb]) hn

theorem unlink (h : Circular next (l1 ++ a :: b :: l2)) (ha : next' a = next b)
    (hn : ∀ x ∈ l1 ++ l2, next' x = next x) : Circular next' (l1 ++ a :: l2) :=
  relink [b] [] (next b) h (by simp [h.next_eq]) (by simp [ha]) hn

theorem next_mem (h : Circular next l) (hx : x ∈ l) : next x ∈ l := by
  have hm : next x ∈ l.rotate 1 := h ▸ List.mem_map_of_mem hx
  exact List.mem_rotate.mp hm

theorem next_inj (h : Circular next l) (hl : l.Nodup) (ha : a ∈ l) (hb : b ∈ l)
    (hab : next a = next b) : a = b := by
  have hm : (l.map next).Nodup := h ▸ List.nodup_rotate.mpr hl
  exact List.inj_on_of_nodup_map hm ha hb hab

end Circular

theorem seek_path {α : Type} {next : α → α} {stop : α → Bool} {l : List α} {x z : α}
    (h : (x :: l).map next = l ++ [z]) (hy : ∃ y ∈ x :: l, stop y = true) (hn : l.length < n) :
    ∃ y ∈ x :: l, stop y = true ∧ seek next stop n x = some y := by
  induction l generalizing x n with
  | nil =>
    obtain ⟨n, rfl⟩ := Nat.exists_eq_add_of_lt hn
    obtain ⟨y, hm, hs⟩ := hy
    rw [List.mem_singleton] at hm
    subst hm
    exact ⟨y, List.mem_singleton_self y, hs, by simp [seek, hs]⟩
  | cons w l ih =>
    obtain ⟨n, rfl⟩ := Nat.exists_eq_succ_of_ne_zero (Nat.ne_zero_of_lt hn)
    rw [List.map_cons, List.cons_append, List.cons.injEq] at h
    obtain ⟨hx, h⟩ := h
    by_cases hs : stop x = true
    · exact ⟨x, List.mem_cons_self, hs, by simp [seek, hs]⟩
    · have hy' : ∃ y ∈ w :: l, stop y = true := by
        obtain ⟨y, hm, hsy⟩ := hy
        rcases List.mem_cons.mp hm with rfl | hm
        · exact absurd hsy hs
        · exact ⟨y, hm, hsy⟩
      obtain ⟨y, hm, hsy, he⟩ := ih h hy' (Nat.lt_of_succ_lt_succ hn)
      exact ⟨y, List.mem_cons_of_mem x hm, hsy, by simp [seek, hs, hx, he]⟩

theorem Circular.seek {α : Type} {next : α → α} {stop : α → Bool} {l : List α} {x : α}
    (h : Circular next l) (hx : x ∈ l) (hy : ∃ y ∈ l, stop y = true) (hn : l.length ≤ n) :
    ∃ y ∈ l, stop y = true ∧ seek next stop n x = some y := by
  obtain ⟨l1, l2, rfl⟩ := List.append_of_mem hx
  have hmem : ∀ y, y ∈ x :: (l2 ++ l1) ↔ y ∈ l1 ++ x :: l2 := by grind
  have hy' : ∃ y ∈ x :: (l2 ++ l1), stop y = true := by grind
  have hlen : (l2 ++ l1).length < n := by grind
  obtain ⟨y, hm, hs, he⟩ := seek_path (cons_iff.mp h.shift) hy' hlen
  exact ⟨y, (hmem y).mp hm, hs, he⟩
