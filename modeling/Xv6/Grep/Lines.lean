import Mathlib.Logic.Function.Basic
import Xv6.Grep

/-!
# The lines that `grep` prints

`grep` of `user/grep.c` reads into a buffer of 1024 bytes, prints the lines in it that match and
moves what is behind the last newline to the front. A pointer into the buffer is an index, and
`read` returns any number of bytes that there is room and input for.
-/

namespace Xv6.Grep

open Function (update update_apply update_of_ne update_self)

def bufSize : Nat := 1024

abbrev Buf := Nat → Char

/-- `strchr(s, c)`. The buffer has a NUL, before which the loop ends. -/
def strchr (buf : Buf) (c : Char) : Nat → Nat → Option Nat
  | 0, _ => none
  | fuel + 1, s =>
    if buf s = '\x00' then none
    else if buf s = c then some s
    else strchr buf c fuel (s + 1)

def strAt (buf : Buf) : Nat → Nat → List Char
  | 0, _ => []
  | fuel + 1, p => if buf p = '\x00' then [] else buf p :: strAt buf fuel (p + 1)

def chars (buf : Buf) (p n : Nat) : List Char := (List.range n).map fun i => buf (p + i)

/-- `while((q = strchr(p, '\n')) != 0)`: the buffer, `p` and the output after it. -/
def lineLoop (re : List Char) : Nat → Buf → Nat → List Char → Buf × Nat × List Char
  | 0, buf, p, out => (buf, p, out)
  | fuel + 1, buf, p, out =>
    match strchr buf '\n' bufSize p with
    | none => (buf, p, out)
    | some q =>
      let buf := update buf q '\x00'
      if matchRe re (strAt buf bufSize p) then
        let buf := update buf q '\n'
        lineLoop re fuel buf (q + 1) (out ++ chars buf p (q + 1 - p))
      else
        lineLoop re fuel buf (q + 1) out

/-- The variables of `grep`, what it has printed, and what is left of the input. -/
structure State where
  buf : Buf
  m : Nat
  out : List Char
  input : List Char

/-- The body of the outer loop, when `read` has returned `n`. -/
def State.round (re : List Char) (s : State) (n : Nat) : State :=
  let buf := fun i =>
    if s.m ≤ i ∧ i < s.m + n then s.input.getD (i - s.m) '\x00' else s.buf i
  let m := s.m + n
  let (buf, p, out) := lineLoop re bufSize (update buf m '\x00') 0 s.out
  if m > 0 then
    -- `memmove(buf, p, m)`
    { buf := fun i => if i < m - p then buf (p + i) else buf i
      m := m - p
      out := out
      input := s.input.drop n }
  else
    { buf := buf, m := m, out := out, input := s.input.drop n }

/-- `read(fd, buf+m, sizeof(buf)-m-1)` may return `n`: as much as it likes, and 0 only without
input or without room. -/
def State.CanRead (s : State) (n : Nat) : Prop :=
  n ≤ bufSize - s.m - 1 ∧ n ≤ s.input.length ∧
    (n = 0 → bufSize - s.m - 1 = 0 ∨ s.input = [])

inductive Prints (re : List Char) : State → List Char → Prop
  | stop {s} (h : s.CanRead 0) : Prints re s s.out
  | read {s n out} (hn : 0 < n) (h : s.CanRead n) (hp : Prints re (s.round re n) out) :
      Prints re s out

/-- `grep` starts. The buffer may have been used for another file. -/
def start (buf : Buf) (input : List Char) : State :=
  { buf := buf, m := 0, out := [], input := input }

/-! ## Lines -/

def lines : List Char → List (List Char)
  | [] => []
  | c :: w =>
    if c = '\n' then
      [] :: lines w
    else
      match lines w with
      | [] => []
      | l :: ls => (c :: l) :: ls

def rest : List Char → List Char
  | [] => []
  | c :: w => if '\n' ∈ c :: w then rest w else c :: w

def matching (re : List Char) (ls : List (List Char)) : List Char :=
  (ls.filter (matchRe re)).flatMap (· ++ ['\n'])

attribute [local simp] matching

variable {re pre l w out : List Char} {buf : Buf} {p n : Nat} {s : State}

theorem lines_of_notMem (h : '\n' ∉ w) : lines w = [] := by
  induction w with
  | nil => rfl
  | cons c w ih =>
    rw [List.mem_cons, not_or] at h
    rw [lines, if_neg (Ne.symm h.1), ih h.2]

theorem rest_of_notMem (h : '\n' ∉ w) : rest w = w := by
  cases w with
  | nil => rfl
  | cons => rw [rest, if_neg h]

theorem lines_line (h : '\n' ∉ l) (w : List Char) : lines (l ++ '\n' :: w) = l :: lines w := by
  induction l with
  | nil => rw [List.nil_append, lines, if_pos rfl]
  | cons c l ih =>
    rw [List.mem_cons, not_or] at h
    rw [List.cons_append, lines, if_neg (Ne.symm h.1), ih h.2]

theorem rest_line (l w : List Char) : rest (l ++ '\n' :: w) = rest w := by
  induction l with
  | nil => rw [List.nil_append, rest, if_pos List.mem_cons_self]
  | cons c l ih => rw [List.cons_append, rest, if_pos (by simp), ih]

theorem line_cases (w : List Char) : '\n' ∉ w ∨ ∃ l w', w = l ++ '\n' :: w' ∧ '\n' ∉ l := by
  by_cases h : '\n' ∈ w
  · exact .inr (List.eq_append_cons_of_mem h)
  · exact .inl h

theorem line_induction {P : List Char → Prop} (hrest : ∀ w, '\n' ∉ w → P w)
    (hline : ∀ l w, '\n' ∉ l → P w → P (l ++ '\n' :: w)) (w : List Char) : P w := by
  rcases line_cases w with h | ⟨l, w', rfl, h⟩
  · exact hrest w h
  · exact hline l w' h (line_induction hrest hline w')
termination_by w.length
decreasing_by
  subst w
  rw [List.length_append, List.length_cons]
  omega

theorem rest_suffix (w : List Char) : rest w <:+ w := by
  induction w using line_induction with
  | hrest w h => exact ⟨[], by rw [rest_of_notMem h, List.nil_append]⟩
  | hline l w h ih =>
    rw [rest_line]
    exact ih.trans ((List.suffix_cons _ _).trans (List.suffix_append _ _))

theorem notMem_rest (w : List Char) : '\n' ∉ rest w := by
  induction w using line_induction with
  | hrest w h => rwa [rest_of_notMem h]
  | hline l w h ih => rwa [rest_line]

theorem lines_append (a b : List Char) : lines (a ++ b) = lines a ++ lines (rest a ++ b) := by
  induction a using line_induction with
  | hrest a h => rw [lines_of_notMem h, rest_of_notMem h, List.nil_append]
  | hline l a h ih =>
    rw [List.append_assoc, List.cons_append, lines_line h, lines_line h, rest_line, ih,
      List.cons_append]

theorem matching_append (a b : List (List Char)) :
    matching re (a ++ b) = matching re a ++ matching re b := by
  simp

/-! ## Strings in the buffer -/

def At (buf : Buf) (p : Nat) (w : List Char) : Prop := ∀ i c, w[i]? = some c → buf (p + i) = c

theorem At.left (h : At buf p (l ++ w)) : At buf p l := by
  intro i c hc
  exact h i c (by grind)

theorem At.right (h : At buf p (l ++ w)) : At buf (p + l.length) w := by
  intro i c hc
  rw [Nat.add_assoc]
  apply h
  rw [List.getElem?_append_right (Nat.le_add_right _ _), Nat.add_sub_cancel_left, hc]

theorem At.cons {c : Char} (h : At buf p (c :: l)) : buf p = c ∧ At buf (p + 1) l :=
  ⟨h 0 c rfl, At.right (l := [c]) h⟩

theorem At.congr {buf' : Buf} (h : At buf p w)
    (hb : ∀ a, p ≤ a → a < p + w.length → buf' a = buf a) : At buf' p w := by
  intro i c hc
  have hi := (List.getElem?_eq_some_iff.mp hc).1
  rw [hb _ (Nat.le_add_right _ _) (by omega)]
  exact h i c hc

theorem At.chars (h : At buf p w) : chars buf p w.length = w := by
  apply List.ext_getElem
  · simp [Grep.chars]
  · intro i _ hi
    simpa [Grep.chars] using h i _ (List.getElem?_eq_getElem hi)

theorem strchr_line (h : At buf p l) (hl : '\n' ∉ l) (hnul : '\x00' ∉ l)
    (hend : buf (p + l.length) = '\n') (hn : l.length < n) :
    strchr buf '\n' n p = some (p + l.length) := by
  induction l generalizing p n with
  | nil =>
    obtain ⟨n, rfl⟩ := Nat.exists_eq_add_of_lt hn
    rw [strchr, show buf p = '\n' from hend, if_neg (by decide), if_pos rfl]
    rfl
  | cons c l ih =>
    obtain ⟨n, rfl⟩ := Nat.exists_eq_add_of_lt hn
    rw [List.mem_cons, not_or] at hl
    rw [List.length_cons] at hend hn ⊢
    rw [strchr, h.cons.1, if_neg (noNul_cons hnul).1, if_neg (Ne.symm hl.1),
      ih h.cons.2 hl.2 (noNul_cons hnul).2 (by rw [← hend]; congr 1; omega) (by omega)]
    congr 1
    omega

theorem strchr_none (h : At buf p l) (hl : '\n' ∉ l) (hend : buf (p + l.length) = '\x00') :
    strchr buf '\n' n p = none := by
  induction l generalizing p n with
  | nil =>
    cases n with
    | zero => rfl
    | succ n => rw [strchr, if_pos (show buf p = '\x00' from hend)]
  | cons c l ih =>
    cases n with
    | zero => rfl
    | succ n =>
      rw [List.mem_cons, not_or] at hl
      rw [List.length_cons] at hend
      rw [strchr, h.cons.1, if_neg (Ne.symm hl.1),
        ih h.cons.2 hl.2 (by rw [← hend]; congr 1; omega)]
      exact ite_self none

theorem strAt_eq (h : At buf p l) (hnul : '\x00' ∉ l) (hend : buf (p + l.length) = '\x00')
    (hn : l.length < n) : strAt buf n p = l := by
  induction l generalizing p n with
  | nil =>
    obtain ⟨n, rfl⟩ := Nat.exists_eq_add_of_lt hn
    rw [strAt, if_pos (show buf p = '\x00' from hend)]
  | cons c l ih =>
    obtain ⟨n, rfl⟩ := Nat.exists_eq_succ_of_ne_zero (Nat.ne_zero_of_lt hn)
    rw [List.length_cons] at hend hn
    rw [strAt, h.cons.1, if_neg (noNul_cons hnul).1,
      ih h.cons.2 (noNul_cons hnul).2 (by rw [← hend]; congr 1; omega) (by omega)]

/-! ## The loops -/

theorem lineLoop_spec (re out : List Char) (h : At buf p w) (hnul : '\x00' ∉ w)
    (hend : buf (p + w.length) = '\x00') (hsize : w.length < bufSize) (hn : w.length < n) :
    ∃ buf', lineLoop re n buf p out =
        (buf', p + (w.length - (rest w).length), out ++ matching re (lines w)) ∧
      At buf' (p + (w.length - (rest w).length)) (rest w) := by
  induction n generalizing buf p w out with
  | zero => omega
  | succ n ih =>
    rw [lineLoop]
    rcases line_cases w with hw | ⟨l, w', rfl, hl⟩
    · rw [strchr_none h hw hend, lines_of_notMem hw, rest_of_notMem hw]
      exact ⟨buf, by simp, by simpa using h⟩
    · have hlen : (l ++ '\n' :: w').length = l.length + 1 + w'.length := by
        rw [List.length_append, List.length_cons]
        omega
      rw [hlen] at hend hsize hn ⊢
      rw [List.mem_append, List.mem_cons, not_or, not_or] at hnul
      obtain ⟨hl0, -, hw0⟩ := hnul
      obtain ⟨hq, hw⟩ := h.right.cons
      have hrest := (rest_suffix w').length_le
      rw [strchr_line h.left hl hl0 hq (by omega), lines_line hl, rest_line]
      dsimp only
      -- what the loop stores at `q` is before the text that is left
      have hstep : ∀ (out : List Char) (buf1 : Buf),
          (∀ a, p + l.length + 1 ≤ a → buf1 a = buf a) → ∃ buf',
          lineLoop re n buf1 (p + l.length + 1) out =
            (buf', p + (l.length + 1 + w'.length - (rest w').length),
              out ++ matching re (lines w')) ∧
          At buf' (p + (l.length + 1 + w'.length - (rest w').length))
            (rest w') := by
        intro out buf1 hb
        have hp : p + (l.length + 1 + w'.length - (rest w').length) =
            p + l.length + 1 + (w'.length - (rest w').length) := by omega
        rw [hp]
        apply ih out (hw.congr fun a ha _ => hb a ha) hw0 _ (by omega) (by omega)
        rw [hb _ (Nat.le_add_right _ _), ← hend]
        congr 1
        omega
      let buf₁ := update buf (p + l.length) '\x00'
      let buf₂ := update buf₁ (p + l.length) '\n'
      have hcut : strAt buf₁ bufSize p = l := by
        refine strAt_eq (h.left.congr fun a _ ha => ?_) hl0 ?_ (by omega)
        · exact update_of_ne (by omega) ..
        · exact update_self ..
      rw [hcut]
      split
      · next hm =>
        have hline : chars buf₂ p (p + l.length + 1 - p) = l ++ ['\n'] := by
          have hat : At buf₂ p (l ++ ['\n']) := by
            intro i c hc
            grind [h i c]
          have := hat.chars
          rwa [List.length_append, List.length_singleton,
            show l.length + 1 = p + l.length + 1 - p by omega] at this
        rw [hline]
        obtain ⟨buf', hloop, hat⟩ := hstep (out ++ (l ++ ['\n'])) buf₂ (by
          intro a ha
          exact (update_of_ne (by omega) ..).trans (update_of_ne (by omega) ..))
        refine ⟨buf', hloop.trans ?_, hat⟩
        simp [hm]
      · next hm =>
        obtain ⟨buf', hloop, hat⟩ := hstep out buf₁ (by
          intro a ha
          exact update_of_ne (by omega) ..)
        refine ⟨buf', hloop.trans ?_, hat⟩
        simp [hm]

/-- Between two reads the buffer has the text `pre` of an unfinished line. -/
structure Pending (s : State) (pre : List Char) : Prop where
  text : At s.buf 0 pre
  m : s.m = pre.length
  line : '\n' ∉ pre
  noNul : '\x00' ∉ pre ++ s.input

theorem pending_start {input : List Char} (buf : Buf) (h : '\x00' ∉ input) :
    Pending (start buf input) [] :=
  { text := fun i c hc => by cases hc
    m := rfl
    line := List.not_mem_nil
    noNul := h }

theorem Pending.round (re : List Char) (h : Pending s pre) (hr : s.CanRead n) (hn : 0 < n) :
    Pending (s.round re n) (rest (pre ++ s.input.take n)) ∧
      (s.round re n).input = s.input.drop n ∧
      (s.round re n).out = s.out ++ matching re (lines (pre ++ s.input.take n)) := by
  generalize hpre : pre ++ s.input.take n = w
  obtain ⟨hroom, hlen, -⟩ := hr
  have hm := h.m
  have hw : w.length = s.m + n := by
    rw [← hpre, List.length_append, List.length_take, Nat.min_eq_left hlen, hm]
  have hle := (rest_suffix w).length_le
  have hnul : '\x00' ∉ w := by grind [h.noNul, List.mem_of_mem_take]
  -- the text in the buffer after `read`
  have hat : At (update (fun i => if s.m ≤ i ∧ i < s.m + n then s.input.getD (i - s.m) '\x00'
      else s.buf i) (s.m + n) '\x00') 0 w := by
    intro i c hc
    grind [h.text i c]
  obtain ⟨buf', hloop, hrest⟩ := lineLoop_spec re s.out hat hnul
    (by rw [hw, Nat.zero_add, update_apply, if_pos rfl]) (by omega)
    (show _ < bufSize by omega)
  have hround : s.round re n =
      { buf := fun i => if i < (rest w).length
          then buf' (s.m + n - (rest w).length + i) else buf' i
        m := (rest w).length
        out := s.out ++ matching re (lines w)
        input := s.input.drop n } := by
    have hback : s.m + n - (s.m + n - (rest w).length) =
        (rest w).length := by omega
    unfold State.round
    dsimp only
    rw [hloop, hw]
    rw [if_pos (by omega), Nat.zero_add, hback]
  rw [hround]
  refine ⟨⟨?_, rfl, notMem_rest _, ?_⟩, rfl, rfl⟩
  · intro i c hc
    have hi := (List.getElem?_eq_some_iff.mp hc).1
    dsimp only
    rw [Nat.zero_add, if_pos hi]
    rw [hw, Nat.zero_add] at hrest
    exact hrest i c hc
  · intro hmem
    apply h.noNul
    rw [← List.take_append_drop n s.input, ← List.append_assoc]
    rcases List.mem_append.mp hmem with hmem | hmem
    · exact List.mem_append_left _ (hpre ▸ (rest_suffix w).mem hmem)
    · exact List.mem_append_right _ hmem

theorem Prints.eq (hp : Prints re s out) (h : Pending s pre)
    (hl : ∀ l ∈ lines (pre ++ s.input), l.length < bufSize - 1) :
    out = s.out ++ matching re (lines (pre ++ s.input)) := by
  induction hp generalizing pre with
  | @stop s hr =>
    have hnone : '\n' ∉ s.input := by
      rcases hr.2.2 rfl with hfull | hempty
      · -- the buffer is full: what is in it would begin a line that is too long
        rcases line_cases s.input with hi | ⟨l, w, hi, hline⟩
        · exact hi
        · have hlong : '\n' ∉ pre ++ l := by
            rw [List.mem_append, not_or]
            exact ⟨h.line, hline⟩
          have hshort := hl (pre ++ l) (by
            rw [hi, ← List.append_assoc, lines_line hlong]
            exact List.mem_cons_self)
          rw [List.length_append] at hshort
          have hm := h.m
          omega
      · rw [hempty]
        exact List.not_mem_nil
    rw [lines_of_notMem]
    · exact (List.append_nil _).symm
    · rw [List.mem_append, not_or]
      exact ⟨h.line, hnone⟩
  | @read s n out hn hr _ ih =>
    obtain ⟨hpend, hinput, hout⟩ := h.round re hr hn
    have hsplit : lines (pre ++ s.input) = lines (pre ++ s.input.take n) ++
        lines (rest (pre ++ s.input.take n) ++ s.input.drop n) := by
      rw [← lines_append, List.append_assoc, List.take_append_drop]
    rw [hsplit] at hl ⊢
    rw [ih hpend (by rw [hinput]; exact fun l hmem => hl l (List.mem_append_right _ hmem)), hinput,
      hout, matching_append, List.append_assoc]

theorem exists_prints (re : List Char) (s : State) : ∃ out, Prints re s out := by
  by_cases h : s.CanRead 0
  · exact ⟨s.out, .stop h⟩
  · have hr : s.CanRead 1 := by
      unfold State.CanRead at h ⊢
      have : s.input ≠ [] → 0 < s.input.length := List.length_pos_of_ne_nil
      grind
    have hlt : (s.round re 1).input.length < s.input.length := by
      have hinput : (s.round re 1).input = s.input.drop 1 := by
        unfold State.round
        dsimp only
        split <;> rfl
      have := hr.2.1
      rw [hinput, List.length_drop]
      omega
    obtain ⟨out, hp⟩ := exists_prints re (s.round re 1)
    exact ⟨out, .read Nat.one_pos hr hp⟩
termination_by s.input.length

/-- For every way in which `read` splits the input, `grep` ends and prints the lines that match, in
order, if no line fills the buffer. -/
theorem grep_prints_matching_lines (re input : List Char) (buf : Buf) (hnul : '\x00' ∉ input)
    (hlines : ∀ l ∈ lines input, l.length < bufSize - 1) :
    (∃ out, Prints re (start buf input) out) ∧
      ∀ out, Prints re (start buf input) out → out = matching re (lines input) := by
  refine ⟨exists_prints re _, fun out hp => ?_⟩
  exact hp.eq (pending_start buf hnul) hlines

theorem grep_prints_matching_lines_two : ∃ out,
    Prints ['a'] (start (fun _ => '\x00') ['b', '\n', 'a', '\n']) out ∧ out = ['a', '\n'] := by
  obtain ⟨⟨out, hp⟩, hout⟩ := grep_prints_matching_lines ['a'] ['b', '\n', 'a', '\n']
    (fun _ => '\x00') (by decide) (by decide)
  refine ⟨out, hp, (hout out hp).trans ?_⟩
  simp [lines, matchRe, matchLoop, matchhere, charAt]

theorem prints_nil_of_long_line (buf : Buf) (hl : '\n' ∉ l) (hlen : l.length = bufSize - 1)
    (hnul : '\x00' ∉ l ++ w) : Prints re (start buf (l ++ w)) [] := by
  have hcan : (start buf (l ++ w)).CanRead (bufSize - 1) := by
    refine ⟨Nat.le_refl _, ?_, nofun⟩
    rw [start, List.length_append]
    omega
  have htake : [] ++ (start buf (l ++ w)).input.take (bufSize - 1) = l := by
    rw [List.nil_append, start, ← hlen, List.take_left]
  obtain ⟨hpend, -, hout⟩ := (pending_start buf hnul).round re hcan (by decide)
  rw [htake, rest_of_notMem hl] at hpend
  rw [htake, lines_of_notMem hl] at hout
  have hfull : bufSize - ((start buf (l ++ w)).round re (bufSize - 1)).m - 1 = 0 := by
    rw [hpend.m, hlen]
    rfl
  refine .read (by decide) hcan ?_
  rw [show ([] : List Char) = _ from hout.symm]
  exact .stop ⟨Nat.zero_le _, Nat.zero_le _, fun _ => .inl hfull⟩

theorem long_line_not_printed :
    Prints ['a'] (start (fun _ => '\x00') (List.replicate 1023 'a' ++ ['\n'])) [] ∧
      matching ['a'] (lines (List.replicate 1023 'a' ++ ['\n'])) ≠ [] := by
  have hline : '\n' ∉ List.replicate 1023 'a' :=
    fun h => absurd (List.eq_of_mem_replicate h) (by decide)
  constructor
  · refine prints_nil_of_long_line _ hline List.length_replicate fun h => ?_
    rcases List.mem_append.mp h with h | h
    · exact absurd (List.eq_of_mem_replicate h) (by decide)
    · exact absurd h (by decide)
  · have hmatch (t : List Char) : matchRe ['a'] ('a' :: t) = true := by
      simp [matchRe, matchLoop, matchhere, charAt]
    rw [lines_line hline, List.replicate_succ, matching, List.filter_cons_of_pos (hmatch _)]
    exact List.cons_ne_nil _ _

end Xv6.Grep
