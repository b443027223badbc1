import Mathlib.Data.List.Forall2
import Mathlib.Data.List.Induction
import Xv6.Sh.Tokens

/-!
# The parser and its language

What `parsecmd` returns is denoted by the tokens of the line, and a line in the language is parsed
to the command that it denotes. Both go by induction on the fuel: a function that is given more fuel
than four times the number of tokens that remain does not run out of it, since the recursion comes
back to a function only after a token has been taken.
-/

namespace Xv6.Sh

open List (append_assoc cons_append foldl_append length_append length_cons)

variable {line : List Char}
variable {rs : List Redir} {toks : List Char} {ws : List (List Char)} {xs : List Lexeme}
variable {args : List (List Char × List Redir)} {x : Lexeme} {ts : List Lexeme}

attribute [local simp] startsWith

/-- The command points to the words of the line that the tree has. -/
inductive Denotes (line : List Char) : Cmd → Tree → Prop
  | exec {argv words} (h : List.Forall₂ (Spells line) argv words) :
      Denotes line (.exec argv) (.exec words)
  | redir {cmd t file w mode fd} (h : Denotes line cmd t) (hf : Spells line file w) :
      Denotes line (.redir cmd file mode fd) (.redir t w mode fd)
  | pipe {cmd t cmd' t'} (h : Denotes line cmd t) (h' : Denotes line cmd' t') :
      Denotes line (.pipe cmd cmd') (.pipe t t')
  | list {cmd t cmd' t'} (h : Denotes line cmd t) (h' : Denotes line cmd' t') :
      Denotes line (.list cmd cmd') (.list t t')
  | back {cmd t} (h : Denotes line cmd t) : Denotes line (.back cmd) (.back t)

theorem redirect_denotes {cmd : Cmd} {t : Tree} {file : Span} {r : Redir} (h : Denotes line cmd t)
    (hf : Spells line file r.file) :
    Denotes line (redirect r.op.lexeme.token cmd file) (r.wrap t) := by
  obtain ⟨op, w⟩ := r
  cases op <;> exact .redir h hf

theorem pushArg_denotes {cmd : Cmd} {arg : Span} {w : List Char}
    (h : Denotes line cmd (rs.foldl Redir.wrap (.exec ws))) (ha : Spells line arg w) :
    Denotes line (cmd.pushArg arg) (rs.foldl Redir.wrap (.exec (ws ++ [w]))) := by
  induction rs using List.reverseRecOn generalizing cmd with
  | nil =>
    cases h with
    | exec h => exact .exec (List.rel_append h (.cons ha .nil))
  | append_singleton _ _ ih =>
    rw [foldl_append] at h ⊢
    cases h with
    | redir h hf => exact .redir (ih h) hf

/-! ## First tokens -/

theorem startsWith_redir (h : startsWith ['<', '>'] ts = true) :
    ∃ (op : RedirOp) (ts' : List Lexeme), ts = op.lexeme :: ts' := by
  cases ts with
  | nil => exact absurd h (by simp)
  | cons x ts =>
    cases x with
    | less => exact ⟨.less, ts, rfl⟩
    | greater => exact ⟨.greater, ts, rfl⟩
    | append => exact ⟨.append, ts, rfl⟩
    | _ => simp [Lexeme.first] at h

theorem Lexeme.first_injective {y : Lexeme} (h : x.first = y.first) (hn : x.first ≠ none)
    (hg : x.first ≠ some '>') : x = y := by
  cases x <;> cases y <;> simp_all [Lexeme.first]

theorem startsWith_symbol {c : Char} (hx : x.first = some c) (hc : c ≠ '>')
    (h : startsWith [c] ts = true) : ∃ ts', ts = x :: ts' := by
  cases ts with
  | nil => exact absurd h (by simp)
  | cons y ts =>
    cases hy : y.first with
    | none => simp [hy] at h
    | some c' =>
      have hcc : c' = c := by simpa [hy] using h
      have hxy : x = y := by grind [Lexeme.first_injective]
      exact ⟨ts, by rw [hxy]⟩

section

variable {E : Failure → Prop} {s : Nat} {α : Type} {m m' : Parse α} {Q : α → Nat → Prop}

theorem peek_symbol {c : Char} (hl : Lex line s ts) (hx : x.first = some c)
    (hc : c ≠ '>' ∧ symbols.contains c = true)
    (h : ∀ ts' s', ts = x :: ts' → Lex line s' ts' → Wp E m s' Q)
    (h' : (∀ ts', ts ≠ x :: ts') → ∀ s', Lex line s' ts → Wp E m' s' Q) :
    Wp E (do
      if ← peek line [c] then
        let _ ← gettoken line
        m
      else
        m') s Q := by
  apply peek_branch hl (by simpa using hc.2)
  · intro hst s1 hl1
    obtain ⟨ts, rfl⟩ := startsWith_symbol hx hc.1 hst
    refine (gettoken_spec hl1).seq ?_
    rintro r s2 ⟨hl2, -⟩
    exact h ts s2 rfl hl2
  · intro hst
    apply h'
    rintro ts' rfl
    simp [hx] at hst

theorem peek_other (hl : Lex line s ts) (htoks : toks.all symbols.contains = true)
    (hts : startsWith toks ts = false) (h : ∀ s', Lex line s' ts → Wp E m' s' Q) :
    Wp E (do if ← peek line toks then m else m') s Q := by
  apply peek_branch hl htoks
  · intro hst
    exact absurd (hts.symm.trans hst) (by simp)
  · exact fun _ => h

end

/-- The tokens end, or the first of them is one of `xs`. -/
def Before (xs ts : List Lexeme) : Prop := ∀ x ∈ ts.head?, x ∈ xs

theorem Before.nil : Before xs [] := by
  intro x hx
  exact absurd hx (by simp)

theorem Before.cons (h : x ∈ xs) : Before xs (x :: ts) := by
  intro y hy
  rw [List.head?_cons, Option.mem_some_iff] at hy
  exact hy ▸ h

theorem Before.mono {ys ts : List Lexeme} (h : Before xs ts) (hxy : ∀ x ∈ xs, x ∈ ys) :
    Before ys ts :=
  fun x hx => hxy x (h x hx)

theorem Before.startsWith_eq (h : Before xs ts)
    (hx : ∀ x ∈ xs, x.first.any toks.contains = false) : startsWith toks ts = false := by
  cases ts with
  | nil => rfl
  | cons x => exact hx x (h x rfl)

/-! ## What is returned is denoted -/

section

variable {s : Nat} {cmd : Cmd} {t : Tree}

theorem gettoken_word {E : Failure → Prop} (hl : Lex line s ts) : Wp E (gettoken line) s fun r s' =>
      (∃ w ts', ts = .word w :: ts' ∧ r.1 = .word ∧ Spells line r.2 w ∧ Lex line s' ts') ∨
        (r.1 = .eof ∧ ts = [] ∧ Lex line s' []) ∨ (r.1 ≠ .word ∧ r.1 ≠ .eof) := by
  cases ts with
  | nil =>
    apply (gettoken_eof hl).mono
    intro r s' ⟨hl', hr⟩
    exact .inr (.inl ⟨hr, rfl, hl'⟩)
  | cons x ts =>
    apply (gettoken_spec hl).mono
    intro r s' ⟨hl', hr, hw⟩
    cases x with
    | word w => exact .inl ⟨w, ts, rfl, hr, hw w rfl, hl'⟩
    | _ => exact .inr (.inr (by simp [hr, Lexeme.token]))

theorem parseredirs_sound (n : Nat) (hl : Lex line s ts) (hd : Denotes line cmd t)
    (hn : ts.length < n) :
    Wp (· ≠ .fuel) (parseredirs line n cmd) s fun cmd' s' => ∃ rs ts', ts = Redir.seq rs ++ ts' ∧
      Denotes line cmd' (rs.foldl Redir.wrap t) ∧ Lex line s' ts' := by
  induction n generalizing s ts cmd t with
  | zero => exact absurd hn (Nat.not_lt_zero _)
  | succ n ih =>
    apply peek_branch hl (by decide)
    · intro hst s1 hl1
      obtain ⟨op, ts, rfl⟩ := startsWith_redir hst
      refine (gettoken_spec hl1).seq ?_
      rintro ⟨tok, a⟩ s2 ⟨hl2, rfl, -⟩
      refine (gettoken_word hl2).seq ?_
      rintro ⟨name, file⟩ s3 (⟨w, ts', rfl, rfl, hw, hl3⟩ | hr)
      · have hlen : ts'.length < n := by
          rw [length_cons, length_cons] at hn
          omega
        apply (ih hl3 (redirect_denotes (r := ⟨op, w⟩) hd hw) hlen).mono
        rintro cmd' s' ⟨rs, ts'', rfl, hd', hl'⟩
        exact ⟨⟨op, w⟩ :: rs, ts'', rfl, hd', hl'⟩
      · have hne : name ≠ .word := by
          rcases hr with ⟨rfl, -⟩ | ⟨h, -⟩
          · decide
          · exact h
        dsimp only
        rw [if_pos hne]
        exact .of_error rfl (by decide)
    · intro _ s' hl'
      exact .pure ⟨[], ts, rfl, hd, hl'⟩

theorem parsebacks_sound (n : Nat) (hl : Lex line s ts) (hd : Denotes line cmd t)
    (hn : ts.length < n) :
    Wp (· ≠ .fuel) (parsebacks line n cmd) s fun cmd' s' => ∃ k ts',
      ts = List.replicate k .amp ++ ts' ∧ Denotes line cmd' (Tree.back^[k] t) ∧
      Lex line s' ts' := by
  induction n generalizing s ts cmd t with
  | zero => exact absurd hn (Nat.not_lt_zero _)
  | succ _ ih =>
    apply peek_symbol (x := .amp) hl rfl (by decide)
    · rintro ts s2 rfl hl2
      apply (ih hl2 (.back hd) (Nat.lt_of_succ_lt_succ hn)).mono
      rintro cmd' s' ⟨k, ts', rfl, hd', hl'⟩
      exact ⟨k + 1, ts', rfl, hd', hl'⟩
    · intro _ s' hl'
      exact .pure ⟨0, ts, rfl, hd, hl'⟩

theorem parseargs_sound (n : Nat) {argc : Nat} (hl : Lex line s ts)
    (hd : Denotes line cmd (rs.foldl Redir.wrap (.exec ws))) (hargc : ws.length = argc)
    (hmax : argc ≤ maxargs - 1) (hn : ts.length < n) :
    Wp (· ≠ .fuel) (parseargs line n argc cmd) s fun cmd' s' => ∃ args ts',
      ts = Redir.words args ++ ts' ∧ argc + args.length ≤ maxargs - 1 ∧
      Denotes line cmd' ((rs ++ args.flatMap Prod.snd).foldl Redir.wrap
        (.exec (ws ++ args.map Prod.fst))) ∧ Lex line s' ts' := by
  induction n generalizing s ts cmd rs ws argc with
  | zero => exact absurd hn (Nat.not_lt_zero _)
  | succ n ih =>
    apply peek_branch hl (by decide)
    · intro _ s' hl'
      exact .pure ⟨[], ts, rfl, hmax, by simpa using hd, hl'⟩
    · intro _ s1 hl1
      refine (gettoken_word hl1).seq ?_
      rintro ⟨tok, arg⟩ s2 (⟨w, ts', rfl, rfl, hw, hl2⟩ | ⟨rfl, rfl, hl2⟩ | ⟨hnw, hne⟩)
      · dsimp only
        by_cases hm : argc + 1 ≥ maxargs
        · rw [if_pos hm]
          exact .of_error rfl (by decide)
        rw [if_neg hm]
        have hlen : ts'.length < n := Nat.lt_of_succ_lt_succ hn
        refine (parseredirs_sound n hl2 (pushArg_denotes hd hw) hlen).seq ?_
        rintro cmd' s3 ⟨rs', ts'', rfl, hd', hl3⟩
        rw [← foldl_append] at hd'
        rw [length_append] at hlen
        have hargc' : (ws ++ [w]).length = argc + 1 := by simp [hargc]
        have hmax' : argc + 1 ≤ maxargs - 1 := by omega
        apply (ih hl3 hd' hargc' hmax' (by omega)).mono
        rintro cmd'' s' ⟨args, ts', rfl, hle, hd'', hl'⟩
        refine ⟨(w, rs') :: args, ts', ?_, ?_, ?_, hl'⟩
        · simp [Redir.words]
        · rw [length_cons]
          omega
        · simpa using hd''
      · exact .pure ⟨[], [], rfl, hmax, by simpa using hd, hl2⟩
      · dsimp only
        rw [if_neg hne, if_pos hnw]
        exact .of_error rfl (by decide)

end

/-- With fuel for the tokens that remain, `m` returns a command that the tokens it takes denote. -/
def Sound (line : List Char) (D : List Lexeme → Tree → Prop) (n : Nat) (m : Parse Cmd) : Prop :=
  ∀ s ts, Lex line s ts → 4 * ts.length < n →
    Wp (· ≠ .fuel) m s fun cmd s' => ∃ ts₁ ts₂ t, ts = ts₁ ++ ts₂ ∧ D ts₁ t ∧
      Denotes line cmd t ∧ Lex line s' ts₂

def Block (ts : List Lexeme) (t : Tree) : Prop :=
  ∃ ts' t' rs, Line ts' t' ∧ ts = .lparen :: (ts' ++ .rparen :: Redir.seq rs) ∧
    t = rs.foldl Redir.wrap t'

variable {n : Nat}

theorem parseline_sound (hp : Sound line Pipe (n - 2) (parsepipe line n))
    (hl : Sound line Line (n - 3) (parseline line n)) :
    Sound line Line (n - 2) (parseline line (n + 1)) := by
  intro s ts hlex hn
  refine (hp s ts hlex hn).seq ?_
  rintro cmd s1 ⟨ts1, ts2, t, rfl, ht, hd, hlex1⟩
  rw [length_append] at hn
  refine (parsebacks_sound n hlex1 hd (by omega)).seq ?_
  rintro cmd2 s2 ⟨k, ts3, rfl, hd2, hlex2⟩
  rw [length_append] at hn
  apply peek_symbol (x := .semi) hlex2 rfl (by decide)
  · rintro ts4 s4 rfl hlex4
    rw [length_cons] at hn
    refine (hl s4 ts4 hlex4 (by omega)).seq ?_
    rintro right s5 ⟨ts5, ts6, t', rfl, ht', hd', hlex5⟩
    exact .pure ⟨_, ts6, _, by simp, .seq k ht ht', .list hd2 hd', hlex5⟩
  · intro _ s3 hlex3
    exact .pure ⟨_, ts3, _, by simp, .last k ht, hd2, hlex3⟩

theorem parsepipe_sound (he : Sound line Exec (n - 1) (parseexec line n))
    (hp : Sound line Pipe (n - 2) (parsepipe line n)) :
    Sound line Pipe (n - 1) (parsepipe line (n + 1)) := by
  intro s ts hlex hn
  refine (he s ts hlex hn).seq ?_
  rintro cmd s1 ⟨ts1, ts2, t, rfl, ht, hd, hlex1⟩
  rw [length_append] at hn
  apply peek_symbol (x := .pipe) hlex1 rfl (by decide)
  · rintro ts3 s3 rfl hlex3
    rw [length_cons] at hn
    refine (hp s3 ts3 hlex3 (by omega)).seq ?_
    rintro right s4 ⟨ts4, ts5, t', rfl, ht', hd', hlex4⟩
    exact .pure ⟨_, ts5, _, by simp, .pipe ht ht', .pipe hd hd', hlex4⟩
  · intro _ s2 hlex2
    exact .pure ⟨_, ts2, _, rfl, .last ht, hd, hlex2⟩

theorem parseblock_sound (hl : Sound line Line (n - 3) (parseline line n)) :
    Sound line Block (n + 1) (parseblock line (n + 1)) := by
  intro s ts hlex hn
  apply peek_symbol (x := .lparen) hlex rfl (by decide)
  · rintro ts s2 rfl hlex2
    rw [length_cons] at hn
    refine (hl s2 ts hlex2 (by omega)).seq ?_
    rintro cmd s3 ⟨ts1, ts2, t, rfl, ht, hd, hlex3⟩
    apply peek_symbol (x := .rparen) hlex3 rfl (by decide)
    · rintro ts3 s5 rfl hlex5
      rw [length_append, length_cons] at hn
      apply (parseredirs_sound n hlex5 hd (by omega)).mono
      rintro cmd' s' ⟨rs, ts4, rfl, hd', hlex'⟩
      exact ⟨_, ts4, _, by simp, ⟨ts1, t, rs, ht, rfl, rfl⟩, hd', hlex'⟩
    · intro _ s4 _
      exact .of_error rfl (by decide)
  · intro _ s1 _
    exact .of_error rfl (by decide)

theorem Block.exec {t : Tree} (h : Block ts t) : Exec ts t := by
  obtain ⟨ts', t', rs, ht, rfl, rfl⟩ := h
  exact .block ht rs

theorem parseexec_sound (hb : Sound line Block n (parseblock line n)) :
    Sound line Exec n (parseexec line (n + 1)) := by
  intro s ts hlex hn
  apply peek_branch hlex (by decide)
  · intro _ s1 hlex1
    apply (hb s1 ts hlex1 hn).mono
    rintro cmd s' ⟨ts1, ts2, t, rfl, ht, hd, hlex'⟩
    exact ⟨ts1, ts2, t, rfl, ht.exec, hd, hlex'⟩
  · intro _ s1 hlex1
    refine (parseredirs_sound n hlex1 (.exec .nil) (by omega)).seq ?_
    rintro cmd s2 ⟨rs, ts1, rfl, hd, hlex2⟩
    rw [length_append] at hn
    apply (parseargs_sound n hlex2 hd rfl (Nat.zero_le _) (by omega)).mono
    rintro cmd' s' ⟨args, ts2, rfl, hle, hd', hlex'⟩
    rw [List.length_nil, Nat.zero_add] at hle
    exact ⟨_, ts2, _, by simp, .words rs args hle, hd', hlex'⟩

theorem parse_sound (line : List Char) (n : Nat) :
    Sound line Line (n - 3) (parseline line n) ∧ Sound line Pipe (n - 2) (parsepipe line n) ∧
      Sound line Exec (n - 1) (parseexec line n) ∧ Sound line Block n (parseblock line n) := by
  induction n with
  | zero =>
    refine ⟨?_, ?_, ?_, ?_⟩ <;>
    · intro s ts _ hn
      exact absurd hn (by omega)
  | succ _ ih => grind [parseline_sound, parsepipe_sound, parseexec_sound, parseblock_sound]

/-! ## What the language denotes is returned -/

def lineEnd : List Lexeme := [.rparen]

def pipeEnd : List Lexeme := [.rparen, .semi, .amp]

def execEnd : List Lexeme := [.rparen, .semi, .amp, .pipe]

theorem startsWith_seq
    (htoks : ∀ op : RedirOp, op.lexeme.first.any toks.contains = false)
    (h : startsWith toks ts = false) : startsWith toks (Redir.seq rs ++ ts) = false := by
  cases rs with
  | nil => exact h
  | cons r => exact htoks r.op

theorem startsWith_words (h : startsWith toks ts = false) :
    startsWith toks (Redir.words args ++ ts) = false := by
  cases args with
  | nil => exact h
  | cons => rfl

section

variable {s : Nat} {cmd : Cmd} {t : Tree}

theorem parseredirs_complete (hl : Lex line s (Redir.seq rs ++ ts)) (hd : Denotes line cmd t)
    (hts : startsWith ['<', '>'] ts = false) (hn : (Redir.seq rs ++ ts).length < n) :
    Wp (fun _ => False) (parseredirs line n cmd) s fun cmd' s' =>
      Denotes line cmd' (rs.foldl Redir.wrap t) ∧ Lex line s' ts := by
  induction rs generalizing n s cmd t with
  | nil =>
    obtain ⟨n, rfl⟩ := Nat.exists_eq_add_of_lt hn
    apply peek_other hl (by decide) hts
    exact fun s' hl' => .pure ⟨hd, hl'⟩
  | cons r rs ih =>
    obtain ⟨n, rfl⟩ := Nat.exists_eq_succ_of_ne_zero (Nat.ne_zero_of_lt hn)
    have e : Redir.seq (r :: rs) ++ ts = r.op.lexeme :: .word r.file :: (Redir.seq rs ++ ts) := rfl
    rw [e] at hl hn
    rw [length_cons, length_cons] at hn
    apply peek_branch hl (by decide)
    · intro _ s1 hl1
      refine (gettoken_spec hl1).seq ?_
      rintro ⟨tok, a⟩ s2 ⟨hl2, rfl, -⟩
      refine (gettoken_spec hl2).seq ?_
      rintro ⟨name, file⟩ s3 ⟨hl3, rfl, hw⟩
      exact ih hl3 (redirect_denotes hd (hw r.file rfl)) (by omega)
    · intro hst
      cases hop : r.op <;> simp [hop, RedirOp.lexeme, Lexeme.first] at hst

theorem parsebacks_complete {k : Nat} (hl : Lex line s (List.replicate k .amp ++ ts))
    (hd : Denotes line cmd t) (hts : startsWith ['&'] ts = false)
    (hn : (List.replicate k Lexeme.amp ++ ts).length < n) :
    Wp (fun _ => False) (parsebacks line n cmd) s fun cmd' s' =>
      Denotes line cmd' (Tree.back^[k] t) ∧ Lex line s' ts := by
  induction k generalizing n s cmd t with
  | zero =>
    obtain ⟨n, rfl⟩ := Nat.exists_eq_add_of_lt hn
    apply peek_other hl (by decide) hts
    exact fun s' hl' => .pure ⟨hd, hl'⟩
  | succ _ ih =>
    obtain ⟨n, rfl⟩ := Nat.exists_eq_add_of_lt hn
    rw [List.replicate_succ, cons_append] at hl hn
    apply peek_symbol (x := .amp) hl rfl (by decide)
    · rintro _ s2 ⟨⟩ hl2
      exact ih hl2 (.back hd) (Nat.lt_of_succ_lt_succ hn)
    · exact fun h => absurd rfl (h _)

theorem parseargs_complete {argc : Nat} (hl : Lex line s (Redir.words args ++ ts))
    (hd : Denotes line cmd (rs.foldl Redir.wrap (.exec ws))) (hts : Before execEnd ts)
    (hmax : argc + args.length ≤ maxargs - 1) (hn : (Redir.words args ++ ts).length < n) :
    Wp (fun _ => False) (parseargs line n argc cmd) s fun cmd' s' =>
      Denotes line cmd' ((rs ++ args.flatMap Prod.snd).foldl Redir.wrap
        (.exec (ws ++ args.map Prod.fst))) ∧ Lex line s' ts := by
  induction args generalizing n s cmd rs ws argc with
  | nil =>
    obtain ⟨n, rfl⟩ := Nat.exists_eq_add_of_lt hn
    simp only [List.flatMap_nil, List.map_nil, List.append_nil]
    apply peek_branch hl (by decide)
    · intro _ s' hl'
      exact .pure ⟨hd, hl'⟩
    · intro hst s1 hl1
      cases ts with
      | nil =>
        refine (gettoken_eof hl1).seq ?_
        rintro ⟨tok, a⟩ s2 ⟨hl2, rfl⟩
        exact .pure ⟨hd, hl2⟩
      | cons x =>
        -- the loop stops at what may follow
        have hend : ∀ y ∈ execEnd, y.first.any ['|', ')', '&', ';'].contains = true := by decide
        exact absurd ((hend x (hts x rfl)).symm.trans hst) (by simp)
  | cons arg args ih =>
    obtain ⟨n, rfl⟩ := Nat.exists_eq_succ_of_ne_zero (Nat.ne_zero_of_lt hn)
    have e : Redir.words (arg :: args) ++ ts =
        .word arg.1 :: (Redir.seq arg.2 ++ (Redir.words args ++ ts)) := by simp [Redir.words]
    rw [e] at hl hn
    rw [length_cons] at hn hmax
    apply peek_other hl (by decide) rfl
    · intro s1 hl1
      refine (gettoken_spec hl1).seq ?_
      rintro ⟨tok, a⟩ s2 ⟨hl2, rfl, hw⟩
      have hlt : ¬ argc + 1 ≥ maxargs := by grind [maxargs]
      dsimp only [Lexeme.token]
      rw [if_neg (by decide), if_neg (by decide), if_neg hlt]
      have hno : startsWith ['<', '>'] (Redir.words args ++ ts) = false :=
        startsWith_words (hts.startsWith_eq (by decide))
      have hlen : (Redir.seq arg.2 ++ (Redir.words args ++ ts)).length < n :=
        Nat.lt_of_succ_lt_succ hn
      refine (parseredirs_complete hl2 (pushArg_denotes hd (hw _ rfl)) hno hlen).seq ?_
      rintro cmd' s3 ⟨hd', hl3⟩
      rw [← foldl_append] at hd'
      rw [length_append] at hlen
      apply (ih hl3 hd' (by omega) (by omega)).mono
      rintro cmd'' s' ⟨hd'', hl'⟩
      exact ⟨by simpa using hd'', hl'⟩

end

/-- With fuel for the tokens that remain, `m` returns what a derivation denotes that one of `xs`, or
the end, follows. -/
def Complete (line : List Char) (D : List Lexeme → Tree → Prop) (xs : List Lexeme) (n : Nat)
    (m : Parse Cmd) : Prop :=
  ∀ s ts₁ ts₂ t, D ts₁ t → Before xs ts₂ → Lex line s (ts₁ ++ ts₂) → 4 * (ts₁ ++ ts₂).length < n →
    Wp (fun _ => False) m s fun cmd s' => Denotes line cmd t ∧ Lex line s' ts₂

theorem parseline_complete (hp : Complete line Pipe pipeEnd (n - 2) (parsepipe line n))
    (hl : Complete line Line lineEnd (n - 3) (parseline line n)) :
    Complete line Line lineEnd (n - 2) (parseline line (n + 1)) := by
  intro s ts1 ts2 t ht hts hlex hn
  have hnot : ∀ {k : Nat} {ts : List Lexeme}, Before pipeEnd ts →
      Before pipeEnd (List.replicate k .amp ++ ts) := by
    intro k ts h
    cases k with
    | zero => exact h
    | succ => exact .cons (by decide)
  unfold parseline
  cases ht with
  | @last ts1 t k ht =>
    rw [append_assoc] at hlex hn
    have hb : Before pipeEnd ts2 := hts.mono (by decide)
    refine (hp s ts1 _ t ht (hnot hb) hlex hn).seq ?_
    rintro cmd s1 ⟨hd, hlex1⟩
    rw [length_append] at hn
    refine (parsebacks_complete hlex1 hd (hts.startsWith_eq (by decide)) (by omega)).seq ?_
    rintro cmd2 s2 ⟨hd2, hlex2⟩
    apply peek_other hlex2 (by decide) (hts.startsWith_eq (by decide))
    exact fun s3 hlex3 => .pure ⟨hd2, hlex3⟩
  | @seq ts1 t ts3 t' k ht ht' =>
    rw [append_assoc, append_assoc, cons_append] at hlex hn
    refine (hp s ts1 _ t ht (hnot (.cons (by decide))) hlex hn).seq ?_
    rintro cmd s1 ⟨hd, hlex1⟩
    rw [length_append] at hn
    refine (parsebacks_complete hlex1 hd rfl (by omega)).seq ?_
    rintro cmd2 s2 ⟨hd2, hlex2⟩
    rw [length_append, length_cons] at hn
    apply peek_symbol (x := .semi) hlex2 rfl (by decide)
    · rintro _ s4 ⟨⟩ hlex4
      refine (hl s4 ts3 ts2 t' ht' hts hlex4 (by omega)).seq ?_
      rintro right s5 ⟨hd', hlex5⟩
      exact .pure ⟨.list hd2 hd', hlex5⟩
    · exact fun h => absurd rfl (h _)

theorem parsepipe_complete (he : Complete line Exec execEnd (n - 1) (parseexec line n))
    (hp : Complete line Pipe pipeEnd (n - 2) (parsepipe line n)) :
    Complete line Pipe pipeEnd (n - 1) (parsepipe line (n + 1)) := by
  intro s ts1 ts2 t ht hts hlex hn
  unfold parsepipe
  cases ht with
  | last ht =>
    refine (he s ts1 ts2 t ht (hts.mono (by decide)) hlex hn).seq ?_
    rintro cmd s1 ⟨hd, hlex1⟩
    apply peek_other hlex1 (by decide) (hts.startsWith_eq (by decide))
    exact fun s2 hlex2 => .pure ⟨hd, hlex2⟩
  | @pipe ts1 t ts3 t' ht ht' =>
    rw [append_assoc, cons_append] at hlex hn
    refine (he s ts1 _ t ht (.cons (by decide)) hlex hn).seq ?_
    rintro cmd s1 ⟨hd, hlex1⟩
    rw [length_append, length_cons] at hn
    apply peek_symbol (x := .pipe) hlex1 rfl (by decide)
    · rintro _ s3 ⟨⟩ hlex3
      refine (hp s3 ts3 ts2 t' ht' hts hlex3 (by omega)).seq ?_
      rintro right s4 ⟨hd', hlex4⟩
      exact .pure ⟨.pipe hd hd', hlex4⟩
    · exact fun h => absurd rfl (h _)

theorem parseblock_complete (hl : Complete line Line lineEnd (n - 3) (parseline line n)) :
    Complete line Block execEnd (n + 1) (parseblock line (n + 1)) := by
  rintro s - ts2 - ⟨ts, t, rs, ht, rfl, rfl⟩ hts hlex hn
  rw [cons_append, append_assoc, cons_append] at hlex hn
  rw [length_cons] at hn
  unfold parseblock
  apply peek_symbol (x := .lparen) hlex rfl (by decide)
  · rintro _ s2 ⟨⟩ hlex2
    refine (hl s2 ts _ t ht (.cons (by decide)) hlex2 (by omega)).seq ?_
    rintro cmd s3 ⟨hd, hlex3⟩
    rw [length_append, length_cons] at hn
    apply peek_symbol (x := .rparen) hlex3 rfl (by decide)
    · rintro _ s5 ⟨⟩ hlex5
      exact parseredirs_complete hlex5 hd (hts.startsWith_eq (by decide)) (by omega)
    · exact fun h => absurd rfl (h _)
  · exact fun h => absurd rfl (h _)

theorem parseexec_complete (hb : Complete line Block execEnd n (parseblock line n)) :
    Complete line Exec execEnd n (parseexec line (n + 1)) := by
  intro s ts1 ts2 t ht hts hlex hn
  cases ht with
  | @block ts t ht rs =>
    apply peek_branch hlex (by decide)
    · intro _ s1 hlex1
      exact hb s1 _ ts2 _ ⟨ts, t, rs, ht, rfl, rfl⟩ hts hlex1 hn
    · intro hst
      simp [Lexeme.first] at hst
  | words rs args =>
    rw [append_assoc] at hlex hn
    have hblock : startsWith ['('] (Redir.seq rs ++ (Redir.words args ++ ts2)) = false := by
      apply startsWith_seq
      · intro op
        cases op <;> rfl
      · exact startsWith_words (hts.startsWith_eq (by decide))
    apply peek_other hlex (by decide) hblock
    · intro s1 hlex1
      have hno : startsWith ['<', '>'] (Redir.words args ++ ts2) = false :=
        startsWith_words (hts.startsWith_eq (by decide))
      refine (parseredirs_complete hlex1 (.exec .nil) hno (by omega)).seq ?_
      rintro cmd s2 ⟨hd, hlex2⟩
      rw [length_append] at hn
      exact parseargs_complete hlex2 hd hts (by omega) (by omega)

theorem parse_complete (line : List Char) (n : Nat) :
    Complete line Line lineEnd (n - 3) (parseline line n) ∧
      Complete line Pipe pipeEnd (n - 2) (parsepipe line n) ∧
      Complete line Exec execEnd (n - 1) (parseexec line n) ∧
      Complete line Block execEnd n (parseblock line n) := by
  induction n with
  | zero =>
    refine ⟨?_, ?_, ?_, ?_⟩ <;>
    · intro s ts1 ts2 t _ _ _ hn
      exact absurd hn (by omega)
  | succ _ ih =>
    obtain ⟨hl, hp, he, hb⟩ := ih
    exact ⟨parseline_complete hp hl, parsepipe_complete he hp, parseexec_complete hb,
      parseblock_complete hl⟩

end Xv6.Sh
