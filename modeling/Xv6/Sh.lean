import Xv6.Misc.Wp
import Xv6.Sysfile

/-!
# The shell's parser

`gettoken`, `peek`, the recursive-descent parser under `parsecmd` and `nulterminate` of `user/sh.c`.
A `char *` into the line is its offset, the cursor `*ps` that the functions share is the state, and
a `panic`, which prints its text and exits, is the error. The commands are trees: `malloc` is taken
to succeed and the stack to suffice. The recursion and the loops have fuel; `parsecmd` gives as much
as the length of the line asks for.
-/

namespace Xv6.Sh

def nul : Char := '\x00'

/-- A NUL-terminated string: the characters before the NUL. -/
structure CString where
  chars : List Char
  noNul : nul ∉ chars

def maxargs : Nat := 10

def whitespace : List Char := [' ', '\t', '\r', '\n', '\x0b']

def symbols : List Char := ['<', '|', '>', '&', ';', '(', ')']

/-- What `gettoken` returns: 0 at the end, a symbol, `'+'` for `>>`, or `'a'` for a word. -/
inductive Token
  | eof
  | pipe
  | lparen
  | rparen
  | semi
  | amp
  | less
  | greater
  | append
  | word
  deriving DecidableEq, Repr

inductive Failure
  | missingFile
  | parseblock
  | missingParen
  /-- in `parseexec`, at a token that is not a word -/
  | badToken
  | tooManyArgs
  /-- in `parsecmd`, which prints the `leftovers:` first -/
  | leftovers (rest : List Char)
  | fuel
  deriving DecidableEq, Repr

/-- The text that `panic` prints; running out of fuel is not a `panic`. -/
def Failure.message : Failure → Option String
  | .missingFile => some "missing file for redirection"
  | .parseblock => some "parseblock"
  | .missingParen => some "syntax - missing )"
  | .badToken => some "syntax"
  | .tooManyArgs => some "too many args"
  | .leftovers _ => some "syntax"
  | .fuel => none

/-- A counted string of the line, from `q` up to `eq`. -/
structure Span where
  q : Nat
  eq : Nat
  deriving DecidableEq, Repr

/-- `struct cmd` by its types; the arguments of an `execcmd` are those before the null pointer. -/
inductive Cmd
  | exec (argv : List Span)
  | redir (cmd : Cmd) (file : Span) (mode : BitVec 32) (fd : Nat)
  | pipe (left right : Cmd)
  | list (left right : Cmd)
  | back (cmd : Cmd)
  deriving DecidableEq, Repr

abbrev Parse := StateT Nat (Except Failure)

section

-- the line `[s, es)`; what stands at `es` is the NUL
variable (line : List Char)

def charAt (s : Nat) : Char := line.getD s nul

def scanLoop (p : Char → Bool) : Nat → Nat → Nat
  | 0, s => s
  | n + 1, s => if p (charAt line s) then scanLoop p n (s + 1) else s

def scan (p : Char → Bool) (s : Nat) : Nat := scanLoop line p (line.length - s) s

def isSpace (c : Char) : Bool := whitespace.contains c

def isWordChar (c : Char) : Bool := !whitespace.contains c && !symbols.contains c

/-- The cases of the `switch` of `gettoken` that only step over the symbol, which is the token. -/
def symbolToken : Char → Option Token
  | '|' => some .pipe
  | '(' => some .lparen
  | ')' => some .rparen
  | ';' => some .semi
  | '&' => some .amp
  | '<' => some .less
  | _ => none

/-- The `switch` of `gettoken` at the first character of a token: the token and where it ends. -/
def switchToken (s : Nat) : Token × Nat :=
  if charAt line s = nul then
    (.eof, s)
  else
    match symbolToken (charAt line s) with
    | some ret => (ret, s + 1)
    | none =>
      if charAt line s = '>' then
        if charAt line (s + 1) = '>' then (.append, s + 2) else (.greater, s + 1)
      else
        (.word, scan line isWordChar s)

def gettoken : Parse (Token × Span) := do
  let s ← get
  let q := scan line isSpace s
  let (ret, eq) := switchToken line q
  set (scan line isSpace eq)
  return (ret, ⟨q, eq⟩)

def peek (toks : List Char) : Parse Bool := do
  let s ← get
  let s := scan line isSpace s
  set s
  return charAt line s ≠ nul && toks.contains (charAt line s)

def redirect (tok : Token) (cmd : Cmd) (file : Span) : Cmd :=
  match tok with
  | .less => .redir cmd file 0 0
  | .greater => .redir cmd file (Fs.oWronly ||| Fs.oCreate ||| Fs.oTrunc) 1
  | .append => .redir cmd file (Fs.oWronly ||| Fs.oCreate) 1
  | _ => cmd

def parseredirs : Nat → Cmd → Parse Cmd
  | 0, _ => throw .fuel
  | n + 1, cmd => do
    if ← peek line ['<', '>'] then
      let (tok, _) ← gettoken line
      let (name, file) ← gettoken line
      if name ≠ .word then
        throw .missingFile
      else
        parseredirs n (redirect tok cmd file)
    else
      return cmd

/-- `cmd->argv[argc] = q; cmd->eargv[argc] = eq;` for the `execcmd` under the redirections. -/
def Cmd.pushArg (arg : Span) : Cmd → Cmd
  | .exec argv => .exec (argv ++ [arg])
  | .redir cmd file mode fd => .redir (cmd.pushArg arg) file mode fd
  | cmd => cmd

def parseargs : Nat → Nat → Cmd → Parse Cmd
  | 0, _, _ => throw .fuel
  | n + 1, argc, ret => do
    if ← peek line ['|', ')', '&', ';'] then
      return ret
    else
      let (tok, arg) ← gettoken line
      if tok = .eof then
        return ret
      else if tok ≠ .word then
        throw .badToken
      else if argc + 1 ≥ maxargs then
        throw .tooManyArgs
      else
        let ret ← parseredirs line n (ret.pushArg arg)
        parseargs n (argc + 1) ret

def parsebacks : Nat → Cmd → Parse Cmd
  | 0, _ => throw .fuel
  | n + 1, cmd => do
    if ← peek line ['&'] then
      let _ ← gettoken line
      parsebacks n (.back cmd)
    else
      return cmd

mutual

def parseline : Nat → Parse Cmd
  | 0 => throw .fuel
  | n + 1 => do
    let cmd ← parsepipe n
    let cmd ← parsebacks line n cmd
    if ← peek line [';'] then
      let _ ← gettoken line
      let right ← parseline n
      return .list cmd right
    else
      return cmd

def parsepipe : Nat → Parse Cmd
  | 0 => throw .fuel
  | n + 1 => do
    let cmd ← parseexec n
    if ← peek line ['|'] then
      let _ ← gettoken line
      let right ← parsepipe n
      return .pipe cmd right
    else
      return cmd

def parseblock : Nat → Parse Cmd
  | 0 => throw .fuel
  | n + 1 => do
    if ← peek line ['('] then
      let _ ← gettoken line
      let cmd ← parseline n
      if ← peek line [')'] then
        let _ ← gettoken line
        parseredirs line n cmd
      else
        throw .missingParen
    else
      throw .parseblock

def parseexec : Nat → Parse Cmd
  | 0 => throw .fuel
  | n + 1 => do
    if ← peek line ['('] then parseblock n
    else
      let ret ← parseredirs line n (.exec [])
      parseargs line n 0 ret

end

def parseWhole : Parse Cmd := do
  let cmd ← parseline line (4 * line.length + 4)
  let _ ← peek line []
  let s ← get
  if s ≠ line.length then
    throw (.leftovers (line.drop s))
  else
    return cmd

end

/-- `nulterminate`: the line with a NUL after each counted string of the command. -/
def nulterminate : Cmd → List Char → List Char
  | .exec argv, line => argv.foldl (fun line arg => line.set arg.eq nul) line
  | .redir cmd file _ _, line => (nulterminate cmd line).set file.eq nul
  | .pipe left right, line => nulterminate right (nulterminate left line)
  | .list left right, line => nulterminate right (nulterminate left line)
  | .back cmd, line => nulterminate cmd line

/-- `parsecmd`: the command, and the line it points into. -/
def parsecmd (s : CString) : Except Failure (Cmd × List Char) :=
  match parseWhole s.chars 0 with
  | .ok (cmd, _) => .ok (cmd, nulterminate cmd s.chars)
  | .error e => .error e

end Xv6.Sh
