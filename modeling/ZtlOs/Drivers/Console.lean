import ZtlOs.Support.Runs
import ZtlOs.Support.Ring
import Mathlib.Data.List.Basic

/-!
# Console input

`consoleintr` and `consoleread` of `console.c`.  Both run under `cons.lock`,
which only `sleep` gives up, so that a step is a whole call of `consoleintr`,
or a part of `consoleread` up to its return or its next sleep.  A sleeping
reader may go on at any time, whether it has been woken up or not.

What is typed is echoed and `procdump` is called; both are left out here.
-/

namespace ZtlOs.Console

open ZtlOs.Support

def INPUT_BUF : ℕ := 128

instance : NeZero INPUT_BUF := ⟨by decide⟩

/-- `C(x)`, control-x. -/
def C (x : Char) : BitVec 8 := BitVec.ofNat 8 (x.toNat - '@'.toNat)

def newline : BitVec 8 := 10#8
def carriageReturn : BitVec 8 := 13#8
def delete : BitVec 8 := 0x7f#8

/-- `input`. -/
structure Input where
  buf : Fin INPUT_BUF → BitVec 8
  /-- Read index. -/
  r : BitVec 32
  /-- Write index. -/
  w : BitVec 32
  /-- Edit index. -/
  e : BitVec 32

namespace Input

/-- `input.buf[count % INPUT_BUF]` -/
def char (i : Input) (count : BitVec 32) : BitVec 8 :=
  i.buf (Ring.cell INPUT_BUF count)

/-- The loop that kills a line.  It ends after `e - w` rounds at the latest. -/
def killLine : ℕ → Input → Input
  | 0, i => i
  | rounds + 1, i =>
      if i.e ≠ i.w ∧ i.char (i.e - 1) ≠ newline then
        killLine rounds { i with e := i.e - 1 }
      else i

/-- The `switch` of `consoleintr`. -/
def key (i : Input) (c : BitVec 8) : Input :=
  if c = C 'P' then i
  else if c = C 'U' then i.killLine (i.e - i.w).toNat
  else if c = C 'H' ∨ c = delete then
    if i.e ≠ i.w then { i with e := i.e - 1 } else i
  else if c ≠ 0 ∧ (i.e - i.r).toNat < INPUT_BUF then
    let c := if c = carriageReturn then newline else c
    let i :=
      { i with
        buf := Function.update i.buf (Ring.cell INPUT_BUF i.e) c
        e := i.e + 1 }
    if c = newline ∨ c = C 'D' ∨ i.e = i.r + BitVec.ofNat 32 INPUT_BUF then
      { i with w := i.e }
    else i
  else i

end Input

def consoleintr (i : Input) (chars : List (BitVec 8)) : Input :=
  chars.foldl Input.key i

/-- Why a part of `consoleread` ends. -/
inductive Stop where
  /-- The line or the buffer of the reader is complete. -/
  | done
  /-- A ^D, which has been taken. -/
  | eof
  /-- A ^D, which is left for the next time. -/
  | eofLeft
  | killed
  /-- Waiting for input, with `left` bytes to go. -/
  | sleep (left : ℕ)
  deriving DecidableEq

/-- The loop of `consoleread` with `n` bytes to go and the bytes `got` so far,
up to its end or its next sleep. -/
def readLoop (killed : Bool) (target : ℕ) :
    ℕ → List (BitVec 8) → Input → Input × List (BitVec 8) × Stop
  | 0, got, i => (i, got, .done)
  | n + 1, got, i =>
      if i.r = i.w then
        if killed then (i, got, .killed) else (i, got, .sleep (n + 1))
      else
        let c := i.char i.r
        let i := { i with r := i.r + 1 }
        if c = C 'D' then
          if n + 1 < target then ({ i with r := i.r - 1 }, got, .eofLeft)
          else (i, got, .eof)
        else if c = newline then (i, got ++ [c], .done)
        else readLoop killed target n (got ++ [c]) i

/-- Where a process stands in `consoleread(ip, dst, n)`. -/
inductive Reader where
  | idle
  /-- Asleep, with `left` bytes to go. -/
  | asleep (n : ℤ) (left : ℕ) (got : List (BitVec 8))

structure State (P : Type*) where
  input : Input
  killed : P → Bool
  reader : P → Reader

inductive Act (P : Type*) where
  | consoleintr (chars : List (BitVec 8))
  | consoleread (p : P) (n : ℤ)
  /-- `sleep` returns. -/
  | wake (p : P)
  | kill (p : P)

/-- The call that a step goes on with: the process, its `n`, the bytes to go
and the bytes that it has. -/
def State.reads {P : Type*} (s : State P) :
    Act P → Option (P × ℤ × ℕ × List (BitVec 8))
  | .consoleread p n =>
      match s.reader p with
      | .idle => some (p, n, n.toNat, [])
      | .asleep _ _ _ => none
  | .wake p =>
      match s.reader p with
      | .idle => none
      | .asleep n left got => some (p, n, left, got)
  | _ => none

/-- The loop of `consoleread` as `p` runs it. -/
def State.runLoop {P : Type*} (s : State P) (p : P) (n : ℤ) (left : ℕ)
    (got : List (BitVec 8)) : Input × List (BitVec 8) × Stop :=
  readLoop (s.killed p) n.toNat left got s.input

def Reader.after (n : ℤ) (got : List (BitVec 8)) : Stop → Reader
  | .sleep left => .asleep n left got
  | _ => .idle

section Step

variable {P : Type*} [DecidableEq P]

def State.step (s : State P) (a : Act P) : Outcome (State P) :=
  match a with
  | .consoleintr chars =>
      .next { s with input := Console.consoleintr s.input chars }
  | .kill p => .next { s with killed := Function.update s.killed p true }
  | a =>
      match s.reads a with
      | some (p, n, left, got) =>
          let res := s.runLoop p n left got
          .next
            { s with
              input := res.1
              reader := Function.update s.reader p
                (.after n res.2.1 res.2.2) }
      | none => .blocked

end Step

end ZtlOs.Console
