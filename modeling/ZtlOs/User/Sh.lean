import ZtlOs.Support.Program
import ZtlOs.User.Grep

/-!
# The parser of the shell

The functions `gettoken` and `peek`, the recursive descent from `parsecmd`, and
`nulterminate`.  Pointers into the buffer are indices, and the cursor `*ps` is
the state.  The parsing functions are given an amount of fuel and stop when it
is used up.
-/

namespace ZtlOs.Sh

open ZtlOs.Support

abbrev Str := List (BitVec 8)

/-- The memory from the start of the buffer on. -/
abbrev Text := ℕ → BitVec 8

def lt : BitVec 8 := 0x3c
def gt : BitVec 8 := 0x3e
def bar : BitVec 8 := 0x7c
def amp : BitVec 8 := 0x26
def semi : BitVec 8 := 0x3b
def lparen : BitVec 8 := 0x28
def rparen : BitVec 8 := 0x29
def plus : BitVec 8 := 0x2b
def letter : BitVec 8 := 0x61

def whitespace : Str := [0x20, 0x09, 0x0d, 0x0a, 0x0b]
def symbols : Str := [lt, bar, gt, amp, semi, lparen, rparen]

def MAXARGS : ℕ := 10

def O_RDONLY : ℕ := 0x000
def O_WRONLY : ℕ := 0x001
def O_CREATE : ℕ := 0x200

/-- `strchr(s, c) != 0` -/
def isIn (s : Str) (c : BitVec 8) : Bool :=
  (Ulib.strchr c s).isSome

/-- A string in the buffer: a pointer to it and a pointer behind its end. -/
structure Span where
  start : ℕ
  stop : ℕ
  deriving DecidableEq

/-- `struct cmd` -/
inductive Cmd where
  /-- The entries of `argv` and `eargv` up to the null pointer. -/
  | exec (argv : List Span)
  | redir (cmd : Cmd) (file : Span) (mode : ℕ) (fd : ℤ)
  | pipe (left right : Cmd)
  | list (left right : Cmd)
  | back (cmd : Cmd)
  deriving DecidableEq

/-- Why a parsing function does not return. -/
inductive Stop where
  | panic (message : String)
  | outOfFuel
  deriving DecidableEq

/-- A parsing function, over the cursor. -/
abbrev Parser := Program ℕ Stop

/-- The loop `while(s < es && p(*s)) s++` for `es - s` characters. -/
def scanFrom (p : BitVec 8 → Bool) (buf : Text) : ℕ → ℕ → ℕ
  | 0, s => s
  | n + 1, s => if p (buf s) then scanFrom p buf n (s + 1) else s

def scan (p : BitVec 8 → Bool) (buf : Text) (es s : ℕ) : ℕ :=
  scanFrom p buf (es - s) s

/-- The result of `gettoken`, with `*q` and `*eq`. -/
structure Got where
  tok : BitVec 8
  span : Span
  deriving DecidableEq

/-- The `switch` of `gettoken`: the result, and the end of the token. -/
def classify (buf : Text) (es s : ℕ) : BitVec 8 × ℕ :=
  let c := buf s
  if c = 0 then (c, s)
  else if c = bar ∨ c = lparen ∨ c = rparen ∨ c = semi ∨ c = amp ∨ c = lt then
    (c, s + 1)
  else if c = gt then
    if buf (s + 1) = gt then (plus, s + 2) else (c, s + 1)
  else (letter, scan (fun c => !isIn whitespace c && !isIn symbols c) buf es s)

section

variable (buf : Text) (es : ℕ)

def gettoken : Parser Got := do
  let s ← get
  let q := scan (isIn whitespace) buf es s
  let ret := classify buf es q
  set (scan (isIn whitespace) buf es ret.2)
  return ⟨ret.1, ⟨q, ret.2⟩⟩

def peek (toks : Str) : Parser Bool := do
  let s ← get
  let s := scan (isIn whitespace) buf es s
  set s
  return decide (buf s ≠ 0) && isIn toks (buf s)

/-- The `switch` of `parseredirs`. -/
def redirect (tok : BitVec 8) (cmd : Cmd) (file : Span) : Cmd :=
  if tok = lt then .redir cmd file O_RDONLY 0
  else if tok = gt then .redir cmd file (O_WRONLY ||| O_CREATE) 1
  else if tok = plus then .redir cmd file (O_WRONLY ||| O_CREATE) 1
  else cmd

def parseredirs : ℕ → Cmd → Parser Cmd
  | 0, _ => throw .outOfFuel
  | fuel + 1, cmd => do
      if ← peek buf es [lt, gt] then
        let tok ← gettoken buf es
        let file ← gettoken buf es
        if file.tok ≠ letter then
          throw (.panic "missing file for redirection")
        else parseredirs fuel (redirect tok.tok cmd file.span)
      else return cmd

/-- `argv[argc] = q` in the command of `execcmd` that is at the end of the chain
of redirections. -/
def Cmd.pushArg (q : Span) : Cmd → Cmd
  | .exec argv => .exec (argv ++ [q])
  | .redir cmd file mode fd => .redir (cmd.pushArg q) file mode fd
  | cmd => cmd

/-- The loop of `parseexec`. -/
def execLoop : ℕ → Cmd → ℕ → Parser Cmd
  | 0, _, _ => throw .outOfFuel
  | fuel + 1, ret, argc => do
      if ← peek buf es [bar, rparen, amp, semi] then return ret
      else
        let tok ← gettoken buf es
        if tok.tok = 0 then return ret
        else if tok.tok ≠ letter then throw (.panic "syntax")
        else if argc + 1 ≥ MAXARGS then throw (.panic "too many args")
        else
          let ret ← parseredirs buf es fuel (ret.pushArg tok.span)
          execLoop fuel ret (argc + 1)

/-- The loop of `parseline`. -/
def backLoop : ℕ → Cmd → Parser Cmd
  | 0, _ => throw .outOfFuel
  | fuel + 1, cmd => do
      if ← peek buf es [amp] then
        let _ ← gettoken buf es
        backLoop fuel (.back cmd)
      else return cmd

mutual

def parseline : ℕ → Parser Cmd
  | 0 => throw .outOfFuel
  | fuel + 1 => do
      let cmd ← parsepipe fuel
      let cmd ← backLoop buf es fuel cmd
      if ← peek buf es [semi] then
        let _ ← gettoken buf es
        let right ← parseline fuel
        return .list cmd right
      else return cmd

def parsepipe : ℕ → Parser Cmd
  | 0 => throw .outOfFuel
  | fuel + 1 => do
      let cmd ← parseexec fuel
      if ← peek buf es [bar] then
        let _ ← gettoken buf es
        let right ← parsepipe fuel
        return .pipe cmd right
      else return cmd

def parseexec : ℕ → Parser Cmd
  | 0 => throw .outOfFuel
  | fuel + 1 => do
      if ← peek buf es [lparen] then parseblock fuel
      else
        let ret ← parseredirs buf es fuel (.exec [])
        execLoop buf es fuel ret 0

def parseblock : ℕ → Parser Cmd
  | 0 => throw .outOfFuel
  | fuel + 1 => do
      if ← peek buf es [lparen] then
        let _ ← gettoken buf es
        let cmd ← parseline fuel
        if ← peek buf es [rparen] then
          let _ ← gettoken buf es
          parseredirs buf es fuel cmd
        else throw (.panic "syntax - missing )")
      else throw (.panic "parseblock")

end

end

/-- NUL-terminate all the counted strings. -/
def nulterminate : Cmd → Text → Text
  | .exec argv, buf => argv.foldl (fun buf w => Function.update buf w.stop 0) buf
  | .redir cmd file _ _, buf =>
      Function.update (nulterminate cmd buf) file.stop 0
  | .pipe left right, buf => nulterminate right (nulterminate left buf)
  | .list left right, buf => nulterminate right (nulterminate left buf)
  | .back cmd, buf => nulterminate cmd buf

/-- The buffer that holds the string `line`. -/
def text (line : Str) : Text :=
  fun i => line.getD i 0

def strlen : Str → ℕ
  | [] => 0
  | c :: s => if c = 0 then 0 else strlen s + 1

/-- `parsecmd` up to `nulterminate`. -/
def parseall (buf : Text) (es fuel : ℕ) : Parser Cmd := do
  let cmd ← parseline buf es fuel
  let _ ← peek buf es []
  let s ← get
  if s ≠ es then throw (.panic "syntax") else return cmd

/-- The command, and the buffer with its strings terminated. -/
def parsecmd (fuel : ℕ) (line : Str) : Except Stop (Cmd × Text) :=
  let buf := text line
  let es := strlen line
  (parseall buf es fuel 0).map fun r => (r.1, nulterminate r.1 buf)

end ZtlOs.Sh
