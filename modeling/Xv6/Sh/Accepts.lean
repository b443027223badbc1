import Xv6.Sh.Parse

/-!
# What `parsecmd` returns

The command that `parsecmd` returns points into the line, in which `nulterminate` has put a NUL
after each word. The strings there are the words of the tokens, since no NUL is put inside a word.
-/

namespace Xv6.Sh

variable {line buf : List Char}
variable {a : Span}

def cstr (buf : List Char) (q : Nat) : List Char := (buf.drop q).takeWhile (· ≠ nul)

def Cmd.read (buf : List Char) : Cmd → Tree
  | .exec argv => .exec (argv.map fun arg => cstr buf arg.q)
  | .redir cmd file mode fd => .redir (cmd.read buf) (cstr buf file.q) mode fd
  | .pipe left right => .pipe (left.read buf) (right.read buf)
  | .list left right => .list (left.read buf) (right.read buf)
  | .back cmd => .back (cmd.read buf)

/-! ## `nulterminate` -/

def Cmd.ends : Cmd → List Nat
  | .exec argv => argv.map Span.eq
  | .redir cmd file _ _ => file.eq :: cmd.ends
  | .pipe left right => left.ends ++ right.ends
  | .list left right => left.ends ++ right.ends
  | .back cmd => cmd.ends

attribute [local simp] Cmd.ends

theorem charAt_set (line : List Char) (e i : Nat) :
    charAt (line.set e nul) i = if i = e then nul else charAt line i := by
  unfold charAt
  by_cases h : e = i
  · subst h
    by_cases hlt : e < line.length <;> simp [hlt]
  · simp [h, Ne.symm h]

theorem charAt_foldl (argv : List Span) (line : List Char) (i : Nat) :
    charAt (argv.foldl (fun line arg => line.set arg.eq nul) line) i =
      if i ∈ argv.map Span.eq then nul else charAt line i := by
  induction argv generalizing line with
  | nil => simp
  | cons _ argv ih =>
    rw [List.foldl_cons, ih, charAt_set]
    simp only [List.map_cons, List.mem_cons]
    by_cases h : i ∈ argv.map Span.eq
    · rw [if_pos h, if_pos (.inr h)]
    · simp only [h, or_false, if_false]

theorem charAt_nulterminate (cmd : Cmd) (line : List Char) (i : Nat) :
    charAt (nulterminate cmd line) i = if i ∈ cmd.ends then nul else charAt line i := by
  induction cmd generalizing line with
  | exec argv => exact charAt_foldl argv line i
  | redir _ file _ _ ih =>
    rw [nulterminate, charAt_set, ih, Cmd.ends]
    by_cases h : i = file.eq <;> simp [h]
  | pipe _ right ihl ihr | list _ right ihl ihr =>
    rw [nulterminate, ihr, ihl, Cmd.ends]
    by_cases h : i ∈ right.ends <;> simp [h]
  | back _ ih => exact ih line

/-! ## Strings -/

theorem drop_eq_charAt {q : Nat} (h : q < buf.length) :
    buf.drop q = charAt buf q :: buf.drop (q + 1) := by
  simp [charAt, h]

theorem cstr_eq {q k : Nat} (h : ∀ i, q ≤ i → i < q + k → charAt buf i ≠ nul)
    (hk : charAt buf (q + k) = nul) : cstr buf q = (List.range' q k).map (charAt buf) := by
  induction k generalizing q with
  | zero =>
    by_cases hq : q < buf.length
    · rw [Nat.add_zero] at hk
      simp [cstr, drop_eq_charAt hq, hk]
    · simp [cstr, List.drop_eq_nil_of_le (Nat.le_of_not_lt hq)]
  | succ k ih =>
    have hq : charAt buf q ≠ nul := h q (Nat.le_refl _) (by omega)
    have htail : cstr buf (q + 1) = (List.range' (q + 1) k).map (charAt buf) := by
      apply ih
      · intro i h1 h2
        exact h i (by omega) (by omega)
      · rw [← hk]
        congr 1
        omega
    rw [List.range'_succ, List.map_cons, ← htail]
    simp [cstr, drop_eq_charAt (charAt_lt hq), hq]

theorem Span.text_eq (h : a.eq ≤ line.length) :
    a.text line = (List.range' a.q (a.eq - a.q)).map (charAt line) := by
  apply List.ext_getElem
  · simp only [Span.text, List.length_take, List.length_drop, List.length_map, List.length_range']
    omega
  · grind [List.length_map, List.length_range', Span.text, charAt]

/-- The line with a NUL at the positions `es`, none of them inside a word. -/
structure Terminated (line : List Char) (es : List Nat) (buf : List Char) : Prop where
  noNul : nul ∉ line
  outside : ∀ e ∈ es, e < line.length → isWordChar (charAt line e) = false
  char : ∀ i, charAt buf i = if i ∈ es then nul else charAt line i

variable {es : List Nat}
variable {cmd : Cmd} {t : Tree}

theorem Terminated.cstr {w : List Char} (h : Terminated line es buf) (ha : Spells line a w)
    (he : a.eq ∈ es) : cstr buf a.q = w := by
  have hin : ∀ i, a.q ≤ i → i < a.eq → charAt buf i = charAt line i := by
    intro i h1 h2
    have hni : i ∉ es := by
      have := h.outside
      have := ha.bound
      have := ha.inside
      grind [Nat.lt_of_lt_of_le]
    rw [h.char, if_neg hni]
  have hlt := ha.lt
  rw [← ha.text, Span.text_eq ha.bound, cstr_eq (k := a.eq - a.q)]
  · grind [List.map_congr_left]
  · grind [ha.bound, h.noNul, charAt_ne_nul]
  · grind [h.char]

theorem Terminated.read (h : Terminated line es buf) (hd : Denotes line cmd t)
    (he : ∀ e ∈ cmd.ends, e ∈ es) : cmd.read buf = t := by
  induction hd with
  | @exec argv words hw =>
    rw [Cmd.read]
    congr 1
    induction hw with
    | nil => rfl
    | @cons arg w argv words ha hw ih =>
      rw [List.map_cons, h.cstr ha (he _ (by simp))]
      rw [ih (fun e hm => he e (by simp_all))]
  | redir _ hf ih =>
    rw [Cmd.read, h.cstr hf (he _ (by simp))]
    rw [ih (fun e hm => he e (by simp [hm]))]
  | pipe _ _ ihl ihr | list _ _ ihl ihr => grind [Cmd.read, Cmd.ends]
  | back _ ih => rw [Cmd.read, ih he]

theorem Denotes.outside (hd : Denotes line cmd t) {e : Nat} (he : e ∈ cmd.ends)
    (hlt : e < line.length) : isWordChar (charAt line e) = false := by
  induction hd with
  | exec hw =>
    induction hw with
    | nil => exact absurd he (by simp)
    | cons ha _ ih => grind [ha.stop, Cmd.ends]
  | redir _ hf ih =>
    rcases List.mem_cons.mp he with rfl | he
    · exact hf.stop hlt
    · exact ih he
  | pipe _ _ ihl ihr | list _ _ ihl ihr => exact (List.mem_append.mp he).elim ihl ihr
  | back _ ih => exact ih he

theorem read_nulterminate (hnul : nul ∉ line) (hd : Denotes line cmd t) :
    cmd.read (nulterminate cmd line) = t :=
  Terminated.read ⟨hnul, fun _ he => hd.outside he, charAt_nulterminate cmd line⟩ hd fun _ he => he

/-! ## `parsecmd` -/

theorem parseWhole_sound (s : CString) : Wp (· ≠ .fuel) (parseWhole s.chars) 0 fun cmd _ =>
      ∃ t, Line (tokens s) t ∧ Denotes s.chars cmd t := by
  have hlex := tokens_lex s
  have hlen := hlex.length_le
  refine ((parse_sound s.chars _).1 0 _ hlex (by omega)).seq ?_
  rintro cmd s1 ⟨ts1, ts2, t, hts, ht, hd, hlex1⟩
  refine (peek_spec hlex1 (by simp)).seq ?_
  rintro _ s2 ⟨hlex2, -⟩
  refine (Wp.get (Q := fun a _ => Lex s.chars a ts2) hlex2).seq ?_
  intro a _ hlex3
  by_cases he : a = s.chars.length
  · rw [if_neg (by simpa using he)]
    -- at the end of the line there is no token
    cases hlex3 with
    | eof => exact .pure ⟨t, by simpa [hts] using ht, hd⟩
    | cons h =>
      obtain ⟨h1, h2⟩ := nextAt_bounds h
      omega
  · rw [if_pos he]
    exact .of_error rfl (by simp)

theorem parseWhole_complete (s : CString) (ht : Line (tokens s) t) :
    Wp (fun _ => False) (parseWhole s.chars) 0 fun cmd _ => Denotes s.chars cmd t := by
  have hlex := tokens_lex s
  have hlen := hlex.length_le
  rw [← List.append_nil (tokens s)] at hlex hlen
  refine ((parse_complete s.chars _).1 0 _ [] t ht .nil hlex (by omega)).seq ?_
  rintro cmd s1 ⟨hd, hlex1⟩
  have hpeek : peek s.chars [] s1 = .ok (_, scan s.chars isSpace s1) := rfl
  refine (Wp.of_eq (Q := fun _ s2 => s2 = s.chars.length) hpeek (hlex1.at_end s.noNul)).seq ?_
  rintro _ s2 rfl
  refine (Wp.get (Q := fun a _ => a = s.chars.length) rfl).seq ?_
  rintro a a' rfl
  rw [if_neg (by simp)]
  exact .pure hd

theorem parsecmd_ok {s : CString} {s' : Nat} (h : parseWhole s.chars 0 = .ok (cmd, s')) :
    parsecmd s = .ok (cmd, nulterminate cmd s.chars) := by
  rw [parsecmd, h]

/-- `parsecmd` returns the command that the tokens of the line denote, and reports an error where
they are not in the language. -/
theorem parsecmd_accepts_grammar (s : CString) :
    (∀ t, (∃ cmd buf, parsecmd s = .ok (cmd, buf) ∧ cmd.read buf = t) ↔ Line (tokens s) t) ∧
      ((¬ ∃ t, Line (tokens s) t) → ∃ e, parsecmd s = .error e ∧ e.message.isSome) := by
  have hsound := parseWhole_sound s
  refine ⟨?_, ?_⟩
  · intro t
    constructor
    · rintro ⟨cmd, buf, hp, rfl⟩
      cases hw : parseWhole s.chars 0 with
      | error => simp [parsecmd, hw] at hp
      | ok r =>
        rw [parsecmd_ok hw] at hp
        cases hp
        obtain ⟨t, ht, hd⟩ := hsound.of_ok hw
        rw [read_nulterminate s.noNul hd]
        exact ht
    · intro ht
      obtain ⟨cmd, s', hw, hd⟩ := (parseWhole_complete s ht).total
      exact ⟨cmd, _, parsecmd_ok hw, read_nulterminate s.noNul hd⟩
  · intro hno
    cases hw : parseWhole s.chars 0 with
    | error e =>
      refine ⟨e, by simp [parsecmd, hw], ?_⟩
      have hne := hsound.failed hw
      cases e <;> simp_all [Failure.message]
    | ok =>
      obtain ⟨t, ht, -⟩ := hsound.of_ok hw
      exact absurd ⟨t, ht⟩ hno

def Cmd.spans : Cmd → List Span
  | .exec argv => argv
  | .redir cmd file _ _ => file :: cmd.spans
  | .pipe left right => left.spans ++ right.spans
  | .list left right => left.spans ++ right.spans
  | .back cmd => cmd.spans

theorem Denotes.spells (hd : Denotes line cmd t) (ha : a ∈ cmd.spans) :
    (∃ w, Spells line a w) ∧ a.eq ∈ cmd.ends := by
  induction hd with
  | exec hw =>
    refine ⟨?_, List.mem_map_of_mem ha⟩
    obtain ⟨i, hi, rfl⟩ := List.getElem_of_mem ha
    exact ⟨_, hw.get hi (hw.length_eq ▸ hi)⟩
  | redir _ hf ih =>
    rcases List.mem_cons.mp ha with rfl | ha
    · exact ⟨⟨_, hf⟩, List.mem_cons_self ..⟩
    · exact ⟨(ih ha).1, List.mem_cons_of_mem _ (ih ha).2⟩
  | pipe _ _ ihl ihr | list _ _ ihl ihr =>
    rcases List.mem_append.mp ha with ha | ha
    · exact ⟨(ihl ha).1, List.mem_append_left _ (ihl ha).2⟩
    · exact ⟨(ihr ha).1, List.mem_append_right _ (ihr ha).2⟩
  | back _ ih => exact ih ha

/-- For every line that `parsecmd` accepts, each argument and file of the command, read as a string in
the line with its NULs, is the word of the line that the counted string stands for. -/
theorem nulterminate_keeps_tokens (s : CString) (cmd : Cmd) (buf : List Char)
    (h : parsecmd s = .ok (cmd, buf)) : ∀ a ∈ cmd.spans, Spells s.chars a (cstr buf a.q) := by
  intro a ha
  cases hw : parseWhole s.chars 0 with
  | error => simp [parsecmd, hw] at h
  | ok r =>
    rw [parsecmd_ok hw] at h
    cases h
    obtain ⟨t, -, hd⟩ := (parseWhole_sound s).of_ok hw
    obtain ⟨⟨w, hspells⟩, hend⟩ := hd.spells ha
    have hterm : Terminated s.chars r.1.ends (nulterminate r.1 s.chars) :=
      ⟨s.noNul, fun _ he => hd.outside he, charAt_nulterminate r.1 s.chars⟩
    rwa [hterm.cstr hspells hend]

theorem nulterminate_keeps_tokens_redir :
    Spells ['a', '>', 'f', ' ', '&'] ⟨2, 3⟩ (cstr ['a', nul, 'f', nul, '&'] 2) := by
  have h : parsecmd ⟨['a', '>', 'f', ' ', '&'], by decide⟩ =
      .ok (.back (.redir (.exec [⟨0, 1⟩]) ⟨2, 3⟩ 0x601 1), ['a', nul, 'f', nul, '&']) := by
    rfl
  exact nulterminate_keeps_tokens _ _ _ h ⟨2, 3⟩ (by decide)

end Xv6.Sh
