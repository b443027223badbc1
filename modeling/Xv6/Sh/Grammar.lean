import Xv6.Sh

/-!
# The language of commands

    line  ::= pipe '&'* [';' line]
    pipe  ::= exec ['|' pipe]
    exec  ::= '(' line ')' redir* | redir* (word redir*)*
    redir ::= ('<' | '>' | '>>') word

A derivation relates a list of tokens to the command that it denotes: the words in order, and each
redirection around the command with the redirections before it.
-/

namespace Xv6.Sh

inductive Lexeme
  | word (text : List Char)
  | less
  | greater
  | append
  | pipe
  | amp
  | semi
  | lparen
  | rparen
  deriving DecidableEq, Repr

inductive Tree
  | exec (words : List (List Char))
  | redir (cmd : Tree) (file : List Char) (mode : BitVec 32) (fd : Nat)
  | pipe (left right : Tree)
  | list (left right : Tree)
  | back (cmd : Tree)
  deriving DecidableEq, Repr

inductive RedirOp
  | less
  | greater
  | append
  deriving DecidableEq, Repr

namespace RedirOp

def lexeme : RedirOp → Lexeme
  | .less => .less
  | .greater => .greater
  | .append => .append

/-- How the file is opened: for reading; for writing, created and emptied; for writing, created. -/
def mode : RedirOp → BitVec 32
  | .less => 0
  | .greater => Fs.oWronly ||| Fs.oCreate ||| Fs.oTrunc
  | .append => Fs.oWronly ||| Fs.oCreate

/-- What is redirected: the standard input or the standard output. -/
def fd : RedirOp → Nat
  | .less => 0
  | .greater => 1
  | .append => 1

end RedirOp

structure Redir where
  op : RedirOp
  file : List Char
  deriving DecidableEq, Repr

namespace Redir

def lexemes (r : Redir) : List Lexeme := [r.op.lexeme, .word r.file]

def wrap (cmd : Tree) (r : Redir) : Tree := .redir cmd r.file r.op.mode r.op.fd

def seq (rs : List Redir) : List Lexeme := rs.flatMap lexemes

def words (args : List (List Char × List Redir)) : List Lexeme :=
  args.flatMap fun arg => .word arg.1 :: seq arg.2

end Redir

mutual

inductive Line : List Lexeme → Tree → Prop
  | last {ts t} (n : Nat) (h : Pipe ts t) : Line (ts ++ List.replicate n .amp) (Tree.back^[n] t)
  | seq {ts t ts' t'} (n : Nat) (h : Pipe ts t) (h' : Line ts' t') :
      Line (ts ++ List.replicate n .amp ++ .semi :: ts') (.list (Tree.back^[n] t) t')

inductive Pipe : List Lexeme → Tree → Prop
  | last {ts t} (h : Exec ts t) : Pipe ts t
  | pipe {ts t ts' t'} (h : Exec ts t) (h' : Pipe ts' t') : Pipe (ts ++ .pipe :: ts') (.pipe t t')

/-- `exec ::= '(' line ')' redir* | redir* (word redir*)*`, with less than `MAXARGS` words. -/
inductive Exec : List Lexeme → Tree → Prop
  | block {ts t} (h : Line ts t) (rs : List Redir) :
      Exec (.lparen :: (ts ++ .rparen :: Redir.seq rs)) (rs.foldl Redir.wrap t)
  | words (rs : List Redir) (args : List (List Char × List Redir)) (h : args.length ≤ maxargs - 1) :
      Exec (Redir.seq rs ++ Redir.words args)
        ((rs ++ args.flatMap Prod.snd).foldl Redir.wrap (.exec (args.map Prod.fst)))

end

end Xv6.Sh
