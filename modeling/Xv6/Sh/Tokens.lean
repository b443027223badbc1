import Xv6.Sh.Grammar

/-!
# The tokens of a line

`tokens` is what repeated calls of `gettoken` give. `Lex line s ts` says that `ts` are the tokens
that remain at the cursor `s`; in its terms `peek` reads and `gettoken` takes the first of them.
-/

namespace Xv6.Sh

attribute [local simp] switchToken

def Span.text (line : List Char) (a : Span) : List Char := (line.drop a.q).take (a.eq - a.q)

def Token.lexeme (text : List Char) : Token → Option Lexeme
  | .eof => none
  | .pipe => some .pipe
  | .lparen => some .lparen
  | .rparen => some .rparen
  | .semi => some .semi
  | .amp => some .amp
  | .less => some .less
  | .greater => some .greater
  | .append => some .append
  | .word => some (.word text)

/-- The results of calls of `gettoken` until it returns 0, at most `n` of them. -/
def tokensLoop (line : List Char) : Nat → Nat → List Lexeme
  | 0, _ => []
  | n + 1, s =>
    match gettoken line s with
    | .ok ((ret, a), s') =>
      match ret.lexeme (a.text line) with
      | some x => x :: tokensLoop line n s'
      | none => []
    | .error _ => []

def tokens (s : CString) : List Lexeme := tokensLoop s.chars (s.chars.length + 1) 0

variable {line : List Char}
variable {text : List Char} {x : Lexeme}
variable {c : Char} {s q : Nat} {ret : Token} {toks : List Char}

/-! ## Scanning -/

theorem scanLoop_spec (line : List Char) (p : Char → Bool) (n s : Nat) :
    s ≤ scanLoop line p n s ∧ scanLoop line p n s ≤ s + n ∧
      (∀ i, s ≤ i → i < scanLoop line p n s → p (charAt line i) = true) ∧
      (scanLoop line p n s < s + n → p (charAt line (scanLoop line p n s)) = false) := by
  induction n generalizing s with
  | zero =>
    refine ⟨Nat.le_refl _, Nat.le_refl _, ?_, ?_⟩
    · intro i h1 h2
      exact absurd (Nat.lt_of_le_of_lt h1 h2) (Nat.lt_irrefl _)
    · intro h
      exact absurd h (Nat.lt_irrefl _)
  | succ _ ih =>
    unfold scanLoop
    by_cases hp : p (charAt line s) = true <;> grind

theorem le_scan (line : List Char) (p : Char → Bool) (s : Nat) : s ≤ scan line p s :=
  (scanLoop_spec line p _ s).1

theorem scan_le (p : Char → Bool) (hs : s ≤ line.length) :
    scan line p s ≤ line.length := by
  have h := (scanLoop_spec line p (line.length - s) s).2.1
  unfold scan
  omega

theorem scan_inside (p : Char → Bool) {s i : Nat} (h1 : s ≤ i) (h2 : i < scan line p s) :
    p (charAt line i) = true :=
  (scanLoop_spec line p _ s).2.2.1 i h1 h2

theorem scan_stop (p : Char → Bool) (h : scan line p s < line.length) :
    p (charAt line (scan line p s)) = false := by
  apply (scanLoop_spec line p _ s).2.2.2
  have hs := le_scan line p s
  unfold scan at h hs
  omega

theorem scan_of_stop {p : Char → Bool} (h : s < line.length → p (charAt line s) = false) :
    scan line p s = s := by
  unfold scan
  cases hn : line.length - s with
  | zero => rfl
  | succ => simp [scanLoop, h (by omega)]

@[simp]
theorem scan_scan (p : Char → Bool) (s : Nat) : scan line p (scan line p s) = scan line p s :=
  scan_of_stop (scan_stop p)

theorem charAt_lt (h : charAt line s ≠ nul) : s < line.length := by
  by_contra hs
  exact h (by simp [charAt, List.getElem?_eq_none (Nat.le_of_not_lt hs)])

theorem charAt_ne_nul (h : nul ∉ line) (hs : s < line.length) : charAt line s ≠ nul := by
  intro e
  apply h
  rw [← e]
  simp [charAt, hs]

/-! ## The token at a position -/

/-- The counted string is a whole word of the line, with the text `w`. -/
structure Spells (line : List Char) (a : Span) (w : List Char) : Prop where
  text : a.text line = w
  lt : a.q < a.eq
  inside : ∀ i, a.q ≤ i → i < a.eq → isWordChar (charAt line i) = true
  bound : a.eq ≤ line.length
  stop : a.eq < line.length → isWordChar (charAt line a.eq) = false

/-- The character that a token other than a word starts with. -/
def Lexeme.first : Lexeme → Option Char
  | .word _ => none
  | .less => some '<'
  | .greater => some '>'
  | .append => some '>'
  | .pipe => some '|'
  | .amp => some '&'
  | .semi => some ';'
  | .lparen => some '('
  | .rparen => some ')'

def Lexeme.token : Lexeme → Token
  | .word _ => .word
  | .less => .less
  | .greater => .greater
  | .append => .append
  | .pipe => .pipe
  | .amp => .amp
  | .semi => .semi
  | .lparen => .lparen
  | .rparen => .rparen

theorem Token.lexeme_eq_some (h : ret.lexeme text = some x) :
    ret = x.token ∧ ∀ w, x = .word w → w = text := by
  cases ret with
  | eof => exact absurd h (by simp [Token.lexeme])
  | _ =>
    simp only [Token.lexeme, Option.some.injEq] at h
    subst h
    simp [Lexeme.token]

theorem Token.lexeme_eq_none : ret.lexeme text = none ↔ ret = .eof := by
  cases ret <;> simp [Token.lexeme]

/-- What the `switch` of `gettoken` does at a character that starts a token. -/
structure Starts (line : List Char) (q : Nat) (x : Lexeme) (stop : Nat) : Prop where
  char : charAt line q ≠ nul
  first : ∀ c, x.first = some c → charAt line q = c
  other : x.first = none → charAt line q ∉ symbols
  lt : q < stop
  le : stop ≤ line.length

theorem symbolToken_first (hc : symbolToken c = some ret) (hx : ret.lexeme text = some x) :
    x.first = some c := by
  unfold symbolToken at hc
  split at hc
  all_goals
    simp only [Option.some.injEq, reduceCtorEq] at hc
  all_goals
    subst hc
    simp only [Token.lexeme, Option.some.injEq] at hx
    subst hx
    rfl

theorem not_mem_symbols (h : symbolToken c = none) (hc : c ≠ '>') : c ∉ symbols := by
  intro hm
  simp only [symbols, List.mem_cons, List.not_mem_nil, or_false] at hm
  rcases hm with rfl | rfl | rfl | rfl | rfl | rfl | rfl
  all_goals simp_all [symbolToken]

theorem Starts.symbol {stop : Nat} (hc : charAt line q = c) (hx : x.first = some c) (hne : c ≠ nul)
    (hlt : q < stop) (hle : stop ≤ line.length) : Starts line q x stop := by
  refine ⟨hc ▸ hne, ?_, ?_, hlt, hle⟩ <;> grind

theorem switchToken_spec (hsp : q < line.length → isSpace (charAt line q) = false)
    (h : (switchToken line q).1.lexeme (Span.text line ⟨q, (switchToken line q).2⟩) = some x) :
    Starts line q x (switchToken line q).2 ∧
      ∀ w, x = .word w → Spells line ⟨q, (switchToken line q).2⟩ w := by
  by_cases h0 : charAt line q = nul
  · simp [h0, Token.lexeme] at h
  have hq : q < line.length := charAt_lt h0
  cases hs : symbolToken (charAt line q) with
  | some ret =>
    have e : switchToken line q = (ret, q + 1) := by simp [h0, hs]
    rw [e] at h ⊢
    have hx : x.first = some (charAt line q) := symbolToken_first hs h
    refine ⟨Starts.symbol rfl hx h0 (Nat.lt_succ_self _) hq, ?_⟩
    rintro w rfl
    exact absurd hx (by simp [Lexeme.first])
  | none =>
    by_cases hg : charAt line q = '>'
    · by_cases ha : charAt line (q + 1) = '>'
      · have e : switchToken line q = (.append, q + 2) := by
          simp [symbolToken, hg, ha, nul]
        rw [e] at h ⊢
        simp only [Token.lexeme, Option.some.injEq] at h
        subst h
        have hlt : q + 1 < line.length := charAt_lt (by rw [ha]; decide)
        exact ⟨Starts.symbol hg rfl (by decide) (by omega) (by omega), by simp⟩
      · have e : switchToken line q = (.greater, q + 1) := by
          simp [symbolToken, hg, ha, nul]
        rw [e] at h ⊢
        simp only [Token.lexeme, Option.some.injEq] at h
        subst h
        exact ⟨Starts.symbol hg rfl (by decide) (by omega) (by omega), by simp⟩
    · have e : switchToken line q = (.word, scan line isWordChar q) := by
        simp [h0, hs, hg]
      rw [e] at h ⊢
      simp only [Token.lexeme, Option.some.injEq] at h
      subst h
      have hsym := not_mem_symbols hs hg
      have hword : isWordChar (charAt line q) = true := by simp_all [isWordChar, isSpace]
      -- the loop takes at least the character at which the token starts
      have hlt : q < scan line isWordChar q := by
        rcases Nat.eq_or_lt_of_le (le_scan line isWordChar q) with he | hlt
        · grind [scan_stop, isWordChar, scan]
        · exact hlt
      have hle : scan line isWordChar q ≤ line.length := scan_le _ (Nat.le_of_lt hq)
      refine ⟨⟨h0, by simp [Lexeme.first], fun _ => hsym, hlt, hle⟩, ?_⟩
      intro w hw
      rw [Lexeme.word.injEq] at hw
      exact ⟨hw, hlt, fun i h1 h2 => scan_inside _ h1 h2, hle, scan_stop _⟩

theorem switchToken_eof (h : (switchToken line q).1 = .eof) :
    charAt line q = nul ∧ switchToken line q = (.eof, q) := by
  by_cases h0 : charAt line q = nul
  · simp [h0]
  unfold switchToken at h
  rw [if_neg h0] at h
  split at h
  case h_1 ret hs =>
    unfold symbolToken at hs
    split at hs
    all_goals
      cases hs
      try cases h
  case h_2 =>
    split at h
    · split at h <;> cases h
    · cases h

/-! ## What remains at the cursor -/

variable (line) in
def tokenAt (s : Nat) : Token × Span :=
  let q := scan line isSpace s
  ((switchToken line q).1, ⟨q, (switchToken line q).2⟩)

variable (line) in
def nextAt (s : Nat) : Nat := scan line isSpace (switchToken line (scan line isSpace s)).2

variable (line) in
def lexemeAt (s : Nat) : Option Lexeme := (tokenAt line s).1.lexeme ((tokenAt line s).2.text line)

theorem gettoken_eq (s : Nat) : gettoken line s = .ok (tokenAt line s, nextAt line s) := rfl

variable (line) in
inductive Lex : Nat → List Lexeme → Prop
  | eof {s : Nat} (hs : s ≤ line.length) (h : lexemeAt line s = none) : Lex s []
  | cons {s : Nat} {x : Lexeme} {ts : List Lexeme} (h : lexemeAt line s = some x)
      (ht : Lex (nextAt line s) ts) : Lex s (x :: ts)

theorem lexemeAt_starts (h : lexemeAt line s = some x) :
    Starts line (scan line isSpace s) x (tokenAt line s).2.eq ∧
      ∀ w, x = .word w → Spells line (tokenAt line s).2 w :=
  switchToken_spec (scan_stop _) h

theorem nextAt_bounds (h : lexemeAt line s = some x) :
    s < nextAt line s ∧ nextAt line s ≤ line.length := by
  obtain ⟨hst, -⟩ := lexemeAt_starts h
  have h1 := le_scan line isSpace s
  have h2 := le_scan line isSpace (tokenAt line s).2.eq
  exact ⟨Nat.lt_of_lt_of_le (Nat.lt_of_le_of_lt h1 hst.lt) h2, scan_le _ hst.le⟩

theorem Lex.length_le {ts : List Lexeme} (h : Lex line s ts) :
    ts.length ≤ line.length - s := by
  induction h with
  | eof => exact Nat.zero_le _
  | cons h => grind [nextAt_bounds, List.length_cons]

theorem Lex.skip {ts : List Lexeme} (h : Lex line s ts) :
    Lex line (scan line isSpace s) ts := by
  have ha : lexemeAt line (scan line isSpace s) = lexemeAt line s := by simp [lexemeAt, tokenAt]
  have hn : nextAt line (scan line isSpace s) = nextAt line s := by simp [nextAt]
  cases h with
  | eof hs h => exact .eof (scan_le _ hs) (ha.trans h)
  | cons h ht => exact .cons (ha.trans h) (hn ▸ ht)

theorem tokensLoop_lex {n s : Nat} (hs : s ≤ line.length) (hn : line.length - s < n) :
    Lex line s (tokensLoop line n s) := by
  induction n generalizing s with
  | zero => exact absurd hn (Nat.not_lt_zero _)
  | succ n ih =>
    cases hx : lexemeAt line s with
    | none =>
      have e : tokensLoop line (n + 1) s = [] := by
        simp only [tokensLoop, gettoken_eq]
        rw [show (tokenAt line s).1.lexeme ((tokenAt line s).2.text line) = none from hx]
      rw [e]
      exact .eof hs hx
    | some x =>
      have e : tokensLoop line (n + 1) s = x :: tokensLoop line n (nextAt line s) := by
        simp only [tokensLoop, gettoken_eq]
        rw [show (tokenAt line s).1.lexeme ((tokenAt line s).2.text line) = some x from hx]
      obtain ⟨h1, h2⟩ := nextAt_bounds hx
      rw [e]
      exact .cons hx (ih h2 (by omega))

theorem tokens_lex (s : CString) : Lex s.chars 0 (tokens s) :=
  tokensLoop_lex (Nat.zero_le _) (by omega)

/-! ## `peek` and `gettoken` -/

/-- Whether the first token starts with one of the characters. -/
def startsWith (toks : List Char) : List Lexeme → Bool
  | [] => false
  | x :: _ => x.first.any toks.contains

section

variable {E : Failure → Prop} {ts : List Lexeme}

theorem peek_spec (hl : Lex line s ts) (htoks : ∀ c ∈ toks, c ∈ symbols) :
    Wp E (peek line toks) s fun b s' => Lex line s' ts ∧ b = startsWith toks ts := by
  refine .of_eq rfl ⟨hl.skip, ?_⟩
  cases hl with
  | eof _ h =>
    obtain ⟨hc, -⟩ := switchToken_eof (Token.lexeme_eq_none.mp h)
    simp [hc, startsWith]
  | @cons _ x _ h _ =>
    obtain ⟨hst, -⟩ := lexemeAt_starts h
    cases hx : x.first with
    | some c => simp [startsWith, hx, ← hst.first c hx, hst.char]
    | none => grind [hst.other, charAt, scan, isSpace, startsWith]

theorem peek_branch {α : Type} {m m' : Parse α} {Q : α → Nat → Prop}
    (hl : Lex line s ts) (htoks : toks.all symbols.contains = true)
    (h : startsWith toks ts = true → ∀ s', Lex line s' ts → Wp E m s' Q)
    (h' : startsWith toks ts = false → ∀ s', Lex line s' ts → Wp E m' s' Q) :
    Wp E (do if ← peek line toks then m else m') s Q := by
  have hmem : ∀ c ∈ toks, c ∈ symbols := by simpa using htoks
  refine (peek_spec hl hmem).seq ?_
  rintro b s' ⟨hl', rfl⟩
  cases hb : startsWith toks ts with
  | true => simpa [hb] using h hb s' hl'
  | false => simpa [hb] using h' hb s' hl'

theorem gettoken_spec (hl : Lex line s (x :: ts)) :
    Wp E (gettoken line) s fun r s' => Lex line s' ts ∧ r.1 = x.token ∧
      ∀ w, x = .word w → Spells line r.2 w := by
  cases hl with
  | cons h ht =>
    exact .of_eq (gettoken_eq s) ⟨ht, (Token.lexeme_eq_some h).1, (lexemeAt_starts h).2⟩

theorem gettoken_eof (hl : Lex line s []) :
    Wp E (gettoken line) s fun r s' => Lex line s' [] ∧ r.1 = .eof := by
  have hskip := hl.skip
  cases hl with
  | eof _ h =>
    obtain ⟨-, he⟩ := switchToken_eof (Token.lexeme_eq_none.mp h)
    have hn : nextAt line s = scan line isSpace s := by
      unfold nextAt
      rw [he]
      exact scan_scan _ _
    exact .of_eq (gettoken_eq s) ⟨hn ▸ hskip, Token.lexeme_eq_none.mp h⟩

theorem Lex.at_end (hnul : nul ∉ line) (hl : Lex line s []) :
    scan line isSpace s = line.length := by
  cases hl with
  | eof hs h =>
    obtain ⟨hc, -⟩ := switchToken_eof (Token.lexeme_eq_none.mp h)
    rcases Nat.eq_or_lt_of_le (scan_le isSpace hs) with he | hlt
    · exact he
    · exact absurd hc (charAt_ne_nul hnul hlt)

end

end Xv6.Sh
