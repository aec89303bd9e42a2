import ZtlOs.Fs.Format
import ZtlOs.Support.Runs
import ZtlOs.User.Runcmd

/-!
# Processes of the shell

Processes that run `runcmd`, with their descriptors, in any interleaving.  The
descriptors are those of `sysfile.c`: a new one is the lowest that is free.  A
program that has been executed keeps its descriptors and exits at some time;
what else it does is left out.  So are signals and the processes of others.

`fork`, `wait` and `exit` are stubs in this kernel.  Here `fork` copies the
descriptors and returns zero in the child, and `wait` returns when one of the
children has exited, or fails when there is none.
-/

namespace ZtlOs.Jobs

open ZtlOs.Support ZtlOs.Fs ZtlOs.Sh

/-- A process, by the forks that led to it: the child of the `k`-th `fork` of
`q` is `q ++ [k]`. -/
abbrev Name := List ℕ

/-- What a descriptor refers to. -/
inductive End where
  /-- What the first process had as descriptor `fd`. -/
  | given (fd : ℕ)
  | file (path mode : ℕ)
  /-- The ends of pipe `n` of process `q`. -/
  | reading (q : Name) (n : ℕ)
  | writing (q : Name) (n : ℕ)
  deriving DecidableEq

/-! ## Descriptors -/

/-- `proc->ofile`. -/
abbrev Table := Fin NOFILE → Option End

namespace Table

/-- `argfd`. -/
def get (t : Table) (fd : ℤ) : Option (Fin NOFILE × End) :=
  if h : 0 ≤ fd ∧ fd.toNat < NOFILE then
    (t ⟨fd.toNat, h.2⟩).map fun e => (⟨fd.toNat, h.2⟩, e)
  else none

/-- `fdalloc`. -/
def alloc (t : Table) (e : End) : Option (Fin NOFILE × Table) :=
  ((List.finRange NOFILE).find? fun fd => (t fd).isNone).map fun fd =>
    (fd, Function.update t fd (some e))

end Table

/-! ## One process -/

/-- A process, as its own calls change it. -/
structure View where
  name : Name
  /-- How many processes it has forked. -/
  forks : ℕ
  /-- How many pipes it has made. -/
  pipes : ℕ
  /-- The children that it has not waited for. -/
  kids : List Name
  /-- The processes that it can know to have exited, or never to start. -/
  gone : Set Name
  table : Table

/-- How the environment lets a call go on. -/
inductive Choice where
  | fails
  /-- The call succeeds; if it forks, the child has the number `n + 1`. -/
  | returns (n : ℕ)
  /-- `wait` finds that `x` has exited, which had the number `n + 1`. -/
  | reaps (x : Name) (n : ℕ)

namespace View

/-- What is over when the process has exited: itself, what it knows, and the
children that it has not forked. -/
def ended (v : View) : Set Name :=
  {y | y = v.name ∨ y ∈ v.gone ∨
    ∃ j r, y = v.name ++ j :: r ∧ v.forks ≤ j}

def forked (v : View) : View :=
  { v with
    forks := v.forks + 1
    kids := v.kids ++ [v.name ++ [v.forks]] }

def child (v : View) : View where
  name := v.name ++ [v.forks]
  forks := 0
  pipes := 0
  kids := []
  gone := v.gone
  table := v.table

/-- After `wait` has returned for the child `u`. -/
def reaped (v u : View) : View :=
  { v with
    kids := v.kids.erase u.name
    gone := v.gone ∪ u.ended }

/-- The calls that concern the process alone. -/
def serve (v : View) : (c : Call) → Choice → Option (c.Res × View)
  | .exec _ _, .fails => some (-1, v)
  | .openFile _ _, .fails => some (-1, v)
  | .openFile path mode, .returns _ =>
      match v.table.alloc (.file path mode) with
      | none => some (-1, v)
      | some (fd, t) => some (fd.val, { v with table := t })
  | .close fd, .returns _ =>
      match v.table.get fd with
      | none => some (-1, v)
      | some (fd, _) =>
          some (0, { v with table := Function.update v.table fd none })
  | .dup fd, .returns _ =>
      match v.table.get fd with
      | none => some (-1, v)
      | some (_, e) =>
          match v.table.alloc e with
          | none => some (-1, v)
          | some (fd, t) => some (fd.val, { v with table := t })
  | .pipe, .fails => some ((-1, 0, 0), v)
  | .pipe, .returns _ =>
      match v.table.alloc (.reading v.name v.pipes) with
      | none => some ((-1, 0, 0), v)
      | some (fd0, t) =>
          match t.alloc (.writing v.name v.pipes) with
          | none => some ((-1, 0, 0), v)
          | some (fd1, t) =>
              some ((0, fd0.val, fd1.val),
                { v with table := t, pipes := v.pipes + 1 })
  | .fork, .fails => some (-1, v)
  | .wait, .fails => if v.kids = [] then some (-1, v) else none
  | .printf _ _ _, .returns _ => some ((), v)
  | _, _ => none

end View

/-! ## All processes -/

inductive Status where
  /-- In `runcmd`. -/
  | shell (x : Process Empty)
  /-- `exec` has succeeded. -/
  | program
  | exited

/-- The last part is what the process has executed, and with which
descriptors. -/
structure Proc where
  view : View
  status : Status
  ran : Option (ℕ × List ℕ × Table)

/-- The processes that there are or have been. -/
abbrev Os := Name → Option Proc

inductive Act where
  /-- Process `q` makes its next call. -/
  | call (q : Name) (c : Choice)
  /-- The program of process `q` exits. -/
  | finish (q : Name)

namespace Os

def set (os : Os) (p : Proc) : Os :=
  Function.update os p.view.name (some p)

/-- A call of the process with the view `v`, which goes on with `k`. -/
def call (os : Os) (v : View) :
    (c : Call) → (c.Res → Process Empty) → Choice → Outcome Os
  | .exit, _, .returns _ => .next (os.set ⟨v, .exited, none⟩)
  | .exec path argv, _, .returns _ =>
      .next (os.set ⟨v, .program, some (path, argv, v.table)⟩)
  | .fork, k, .returns n =>
      .next ((os.set ⟨v.forked, .shell (k (n + 1)), none⟩).set
        ⟨v.child, .shell (k 0), none⟩)
  | .wait, k, .reaps x n =>
      match os x with
      | some ⟨u, .exited, _⟩ =>
          if x ∈ v.kids then
            .next (os.set ⟨v.reaped u, .shell (k (n + 1)), none⟩)
          else .blocked
      | _ => .blocked
  | c, k, choice =>
      match v.serve c choice with
      | none => .blocked
      | some (r, v) => .next (os.set ⟨v, .shell (k r), none⟩)

def step (os : Os) : Act → Outcome Os
  | .call q choice =>
      match os q with
      | some ⟨v, .shell (.op c k), _⟩ => os.call v c k choice
      | _ => .blocked
  | .finish q =>
      match os q with
      | some ⟨v, .program, ran⟩ => .next (os.set ⟨v, .exited, ran⟩)
      | _ => .blocked

end Os

end ZtlOs.Jobs
