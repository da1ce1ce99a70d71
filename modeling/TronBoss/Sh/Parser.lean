import TronBoss.Fs.Sysfile
import TronBoss.Sh.Lexer

/-!
# The parser of the shell

The parsing routines of `sh.c`. A command holds its words as pairs of pointers into the line, one to
the start and one to the end, until `nulterminate` has written a NUL at each end; from then on the
first pointer of a pair is a string. The routines call each other and loop, so they take fuel, and
running out of it is `diverge`. An allocation of a command never fails here.
-/

namespace TronBoss.Sh

open Lib Fs

/-- `MAXARGS` of `sh.c`. -/
def MAXARGS : Nat := 10

/-- The five kinds of `struct cmd`, with words of type `α`. For `exec` there are the words that have
been stored in `argv` and `eargv`, and where a null pointer has been stored. -/
inductive Cmd (α : Type) where
  | exec (argv : List α) (null : Option Nat)
  | redir (cmd : Cmd α) (file : α) (mode : UInt32) (fd : Nat)
  | pipe (left right : Cmd α)
  | list (left right : Cmd α)
  | back (cmd : Cmd α)

/-- A word as the parser keeps it: `q` and `eq`. -/
abbrev Span : Type := Nat × Nat

section
variable {α β : Type}

/-- The command with every word changed. -/
def Cmd.map (f : α → β) : Cmd α → Cmd β
  | .exec argv null => .exec (argv.map f) null
  | .redir cmd file mode fd => .redir (cmd.map f) (f file) mode fd
  | .pipe left right => .pipe (left.map f) (right.map f)
  | .list left right => .list (left.map f) (right.map f)
  | .back cmd => .back (cmd.map f)

/-- Every word of the command has a property. -/
def Cmd.All (P : α → Prop) : Cmd α → Prop
  | .exec argv _ => ∀ w ∈ argv, P w
  | .redir cmd file _ _ => cmd.All P ∧ P file
  | .pipe left right => left.All P ∧ right.All P
  | .list left right => left.All P ∧ right.All P
  | .back cmd => cmd.All P

/-- `cmd->argv[argc] = q; cmd->eargv[argc] = eq; argc++;`, for the `cmd` of `parseexec`: the command
that `ret` has become by wrapping redirections around it. -/
def Cmd.addArg (w : α) : Cmd α → Cmd α
  | .exec argv null => .exec (argv ++ [w]) null
  | .redir cmd file mode fd => .redir (cmd.addArg w) file mode fd
  | cmd => cmd

/-- `cmd->argv[argc] = 0; cmd->eargv[argc] = 0;`, for the same `cmd`. -/
def Cmd.endArgs (argc : Nat) : Cmd α → Cmd α
  | .exec argv _ => .exec argv (some argc)
  | .redir cmd file mode fd => .redir (cmd.endArgs argc) file mode fd
  | cmd => cmd

end

/-! ## The parsing routines -/

/-- The `switch` of `parseredirs`. -/
def redirect (tok : Kind) (cmd : Cmd Span) (file : Span) : Cmd Span :=
  match tok with
  | .sym '<' => .redir cmd file O_RDONLY 0
  | .sym '>' => .redir cmd file (O_WRONLY ||| O_CREATE) 1
  | .append => .redir cmd file (O_WRONLY ||| O_CREATE) 1
  | _ => cmd

def parseredirs : Nat → Cmd Span → ShM (Cmd Span)
  | 0, _ => throw .diverge
  | n + 1, cmd => do
    if ← peek ['<', '>'] then
      let (tok, _) ← gettoken
      let (ret, file) ← gettoken
      panicIf (ret ≠ .word) "missing file for redirection"
      parseredirs n (redirect tok cmd file)
    else return cmd

/-- The `while` of `parseexec`, and the stores behind it. -/
def argLoop : Nat → Nat → Cmd Span → ShM (Cmd Span)
  | 0, _, _ => throw .diverge
  | n + 1, argc, ret => do
    if ← peek ['|', ')', '&', ';'] then return ret.endArgs argc
    else
      let (tok, w) ← gettoken
      if tok = .eof then return ret.endArgs argc
      else
        panicIf (tok ≠ .word) "syntax"
        panicIf (argc + 1 ≥ MAXARGS) "too many args"
        let ret ← parseredirs n (ret.addArg w)
        argLoop n (argc + 1) ret

/-- The `while` of `parseline`. -/
def ampLoop : Nat → Cmd Span → ShM (Cmd Span)
  | 0, _ => throw .diverge
  | n + 1, cmd => do
    if ← peek ['&'] then
      let _ ← gettoken
      ampLoop n (.back cmd)
    else return cmd

mutual

def parseline : Nat → ShM (Cmd Span)
  | 0 => throw .diverge
  | n + 1 => do
    let cmd ← parsepipe n
    let cmd ← ampLoop n cmd
    if ← peek [';'] then
      let _ ← gettoken
      return .list cmd (← parseline n)
    else return cmd

def parsepipe : Nat → ShM (Cmd Span)
  | 0 => throw .diverge
  | n + 1 => do
    let cmd ← parseexec n
    if ← peek ['|'] then
      let _ ← gettoken
      return .pipe cmd (← parsepipe n)
    else return cmd

def parseexec : Nat → ShM (Cmd Span)
  | 0 => throw .diverge
  | n + 1 => do
    if ← peek ['('] then parseblock n
    else
      let ret ← parseredirs n (.exec [] none)
      argLoop n 0 ret

def parseblock : Nat → ShM (Cmd Span)
  | 0 => throw .diverge
  | n + 1 => do
    panicIf ((← peek ['(']) = false) "parseblock"
    let _ ← gettoken
    let cmd ← parseline n
    panicIf ((← peek [')']) = false) "syntax - missing )"
    let _ ← gettoken
    parseredirs n cmd

end

/-! ## Strings -/

def strlen (buf : List Char) : Nat := (buf.takeWhile (· ≠ '\x00')).length

/-- The string at a pointer. -/
def cstring (buf : List Char) (q : Nat) : List Char := (buf.drop q).takeWhile (· ≠ '\x00')

/-- `*p = 0`. -/
def terminate (p : Nat) : Routine (List Char) Unit := do
  if p < (← get).length then modify fun buf => buf.set p '\x00'
  else throw .outOfBounds

/-- The loop over `argv` ends at the first null pointer, which is the one behind the words: the struct
was zeroed when it was allocated. -/
def nulterminate : Cmd Span → Routine (List Char) Unit
  | .exec argv _ => argv.forM fun w => terminate w.2
  | .redir cmd file _ _ => do
    nulterminate cmd
    terminate file.2
  | .pipe left right => do
    nulterminate left
    nulterminate right
  | .list left right => do
    nulterminate left
    nulterminate right
  | .back cmd => nulterminate cmd

/-- `parsecmd`, on the memory from `s` on: the command and the memory afterwards. -/
def parsecmd (s : List Char) : Except Stop (Cmd Span × List Char) := do
  let es := strlen s
  let (cmd, c) ← parseline (4 * es + 4) ⟨0, s.take es⟩
  let (_, c) ← peek [] c
  panicIf (c.pos ≠ es) "syntax"
  let (_, buf) ← nulterminate cmd s
  return (cmd, buf)

end TronBoss.Sh
