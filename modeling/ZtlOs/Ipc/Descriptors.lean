import ZtlOs.Kernel.Trace
import ZtlOs.Ipc.Pipe

/-!
# Descriptors, files and pipes

The file table of `file.c`, the descriptors of `sysfile.c` and the making and
closing of pipes of `pipe.c`, for processes `P`, pages `Page` and inodes `I`.
One call runs at a time.

What other parts of the kernel decide is given with a call: the inode that the
path of `sys_open` leads to, if any, the page that `kalloc` returns, and what
a read or a write transfers.  The calls leave a trace of what they do with
pages, pipes and inodes.
-/

namespace ZtlOs.Descriptors

open ZtlOs.Support ZtlOs.Fs ZtlOs.Kernel ZtlOs.Pipes

/-- `struct file`. -/
structure File (Page I : Type) where
  type : FileType
  ref : ℕ
  readable : Bool
  writable : Bool
  pipe : Option Page
  ip : Option I
  off : ℕ

inductive Event (Page I : Type) where
  /-- A page is taken for a pipe. -/
  | kalloc (page : Page)
  | kfree (page : Page)
  | pipeclose (page : Page) (writable : Bool)
  /-- `sys_open` gets a reference to an inode. -/
  | opened (ip : I)
  | iput (ip : I)
  /-- `filealloc` hands out a file to which `slots` descriptors point. -/
  | filealloc (f : FileSlot) (slots : ℕ)
  | piperead (page : Page)
  | pipewrite (page : Page)
  deriving DecidableEq

/-- `trace` has the newest event first. -/
structure State (P Page I : Type) where
  ftable : FileSlot → File Page I
  ofile : P → Fin NOFILE → Option FileSlot
  pipe : Page → Pipe
  trace : List (Event Page I)

/-- What a read or a write leaves in the pipe or does to the offset, and its
result. -/
structure Transfer where
  data : Fin PIPESIZE → BitVec 8
  nread : BitVec 32
  nwrite : BitVec 32
  off : ℕ
  result : ℤ

/-- A system call.  Arguments that cannot be fetched are absent. -/
inductive Call (P Page I : Type) where
  | open (p : P) (found : Option I) (omode : BitVec 32)
  | dup (p : P) (fd : ℤ)
  | close (p : P) (fd : ℤ)
  /-- `fd` says whether the address of the result is valid. -/
  | pipe (p : P) (fd : Bool) (page : Option Page)
  | read (p : P) (fd : ℤ) (transfer : Transfer)
  | write (p : P) (fd : ℤ) (transfer : Transfer)

variable {P Page I : Type}

namespace State

def emit (s : State P Page I) (e : Event Page I) : State P Page I :=
  { s with trace := e :: s.trace }

def setFile (s : State P Page I) (f : FileSlot) (v : File Page I) :
    State P Page I :=
  { s with ftable := Function.update s.ftable f v }

def setOfile [DecidableEq P] (s : State P Page I) (p : P) (fd : Fin NOFILE)
    (v : Option FileSlot) : State P Page I :=
  { s with
    ofile := Function.update s.ofile p (Function.update (s.ofile p) fd v) }

def setPipe [DecidableEq Page] (s : State P Page I) (page : Page) (v : Pipe) :
    State P Page I :=
  { s with pipe := Function.update s.pipe page v }

/-- The number of descriptors that point to a file. -/
def slots [Fintype P] (s : State P Page I) (f : FileSlot) : ℕ :=
  ∑ p, ∑ fd, if s.ofile p fd = some f then 1 else 0

/-! ## file.c and pipe.c -/

/-- Allocate a file structure. -/
def filealloc [Fintype P] (s : State P Page I) :
    Option FileSlot × State P Page I :=
  match (List.finRange NFILE).find? fun f => (s.ftable f).ref = 0 with
  | none => (none, s)
  | some f =>
      (some f,
        (s.setFile f { s.ftable f with ref := 1 }).emit
          (.filealloc f (s.slots f)))

/-- Increment ref count for file `f`. -/
def filedup (s : State P Page I) (f : FileSlot) : Outcome (State P Page I) :=
  if (s.ftable f).ref < 1 then .panic "filedup"
  else .next (s.setFile f { s.ftable f with ref := (s.ftable f).ref + 1 })

variable [DecidableEq Page]

def pipeclose (s : State P Page I) (page : Page) (writable : Bool) :
    State P Page I :=
  let s := s.emit (.pipeclose page writable)
  let s := s.setPipe page
    (if writable then { s.pipe page with writeopen := false }
    else { s.pipe page with readopen := false })
  if (s.pipe page).readopen = false ∧ (s.pipe page).writeopen = false then
    s.emit (.kfree page)
  else s

/-- What `fileclose` does with the copy of a file that it has closed. -/
def closeLast (s : State P Page I) (ff : File Page I) : State P Page I :=
  match ff.type, ff.pipe, ff.ip with
  | .pipe, some page, _ => s.pipeclose page ff.writable
  | .inode, _, some ip => s.emit (.iput ip)
  | _, _, _ => s

/-- Close file `f`.  (Decrement ref count, close when reaches 0.) -/
def fileclose (s : State P Page I) (f : FileSlot) : Outcome (State P Page I) :=
  let ff := s.ftable f
  if ff.ref < 1 then .panic "fileclose"
  else if 0 < ff.ref - 1 then .next (s.setFile f { ff with ref := ff.ref - 1 })
  else .next ((s.setFile f { ff with ref := 0, type := .none }).closeLast ff)

variable [Fintype P]

/-- `pipealloc`; `page` is what `kalloc` returns. -/
def pipealloc (s : State P Page I) (page : Option Page) :
    Outcome (Option (FileSlot × FileSlot) × State P Page I) :=
  match s.filealloc with
  | (none, s) => .next (none, s)
  | (some f0, s) =>
      match s.filealloc with
      | (none, s) => (s.fileclose f0).map fun s => (none, s)
      | (some f1, s) =>
          match page with
          | none =>
              ((s.fileclose f0).bind fun s => s.fileclose f1).map fun s =>
                (none, s)
          | some page =>
              let s := s.emit (.kalloc page)
              let s := s.setPipe page
                { s.pipe page with
                  readopen := true, writeopen := true, nwrite := 0, nread := 0 }
              let s := s.setFile f0
                { s.ftable f0 with
                  type := .pipe, readable := true, writable := false
                  pipe := some page }
              let s := s.setFile f1
                { s.ftable f1 with
                  type := .pipe, readable := false, writable := true
                  pipe := some page }
              .next (some (f0, f1), s)

/-! ## sysfile.c -/

omit [DecidableEq Page] [Fintype P] in
/-- Fetch the file of a descriptor. -/
def argfd (s : State P Page I) (p : P) (fd : ℤ) :
    Option (Fin NOFILE × FileSlot) :=
  if h : 0 ≤ fd ∧ fd.toNat < NOFILE then
    (s.ofile p ⟨fd.toNat, fd_lt h⟩).map fun f => (⟨fd.toNat, fd_lt h⟩, f)
  else none

variable [DecidableEq P]

omit [DecidableEq Page] [Fintype P] in
/-- Allocate a file descriptor for the given file. -/
def fdalloc (s : State P Page I) (p : P) (f : FileSlot) :
    Option (Fin NOFILE) × State P Page I :=
  match (List.finRange NOFILE).find? fun fd => (s.ofile p fd).isNone with
  | none => (none, s)
  | some fd => (some fd, s.setOfile p fd (some f))

omit [DecidableEq Page] [Fintype P] in
def sysDup (s : State P Page I) (p : P) (fd : ℤ) :
    Outcome (ℤ × State P Page I) :=
  match s.argfd p fd with
  | none => .next (-1, s)
  | some (_, f) =>
      match s.fdalloc p f with
      | (none, s) => .next (-1, s)
      | (some fd, s) => (s.filedup f).map fun s => ((fd.val : ℤ), s)

omit [Fintype P] in
def sysClose (s : State P Page I) (p : P) (fd : ℤ) :
    Outcome (ℤ × State P Page I) :=
  match s.argfd p fd with
  | none => .next (-1, s)
  | some (fd, f) => ((s.setOfile p fd none).fileclose f).map fun s => (0, s)

/-- `sys_open`, once its path has been followed. -/
def sysOpen (s : State P Page I) (p : P) (found : Option I)
    (omode : BitVec 32) : Outcome (ℤ × State P Page I) :=
  match found with
  | none => .next (-1, s)
  | some ip =>
      match (s.emit (.opened ip)).filealloc with
      | (none, s) => .next (-1, s.emit (.iput ip))
      | (some f, s) =>
          match s.fdalloc p f with
          | (none, s) => (s.fileclose f).map fun s => (-1, s.emit (.iput ip))
          | (some fd, s) =>
              .next ((fd.val : ℤ), s.setFile f
                { s.ftable f with
                  type := .inode
                  ip := some ip
                  off := 0
                  readable := decide (omode &&& O_WRONLY = 0)
                  writable := decide
                    (omode &&& O_WRONLY ≠ 0 ∨ omode &&& O_RDWR ≠ 0) })

def sysPipe (s : State P Page I) (p : P) (fd : Bool) (page : Option Page) :
    Outcome (ℤ × State P Page I) :=
  if fd = false then .next (-1, s)
  else
    (s.pipealloc page).bind fun r =>
      match r with
      | (none, s) => .next (-1, s)
      | (some (rf, wf), s) =>
          match s.fdalloc p rf with
          | (none, s) =>
              ((s.fileclose rf).bind fun s => s.fileclose wf).map fun s =>
                (-1, s)
          | (some fd0, s) =>
              match s.fdalloc p wf with
              | (none, s) =>
                  (((s.setOfile p fd0 none).fileclose rf).bind fun s =>
                    s.fileclose wf).map fun s => (-1, s)
              | (some _, s) => .next (0, s)

omit [DecidableEq P] [Fintype P] in
/-- A read or write of a file, with what it transfers. -/
def transfer (s : State P Page I) (f : FileSlot) (allowed : Bool)
    (use : Page → Event Page I) (message : String) (t : Transfer) :
    Outcome (ℤ × State P Page I) :=
  let ff := s.ftable f
  if allowed = false then .next (-1, s)
  else
    match ff.type, ff.pipe with
    | .pipe, some page =>
        .next (t.result, (s.emit (use page)).setPipe page
          { s.pipe page with
            data := t.data, nread := t.nread, nwrite := t.nwrite })
    | .inode, _ => .next (t.result, s.setFile f { ff with off := t.off })
    | _, _ => .panic message

omit [DecidableEq P] [Fintype P] in
def sysRead (s : State P Page I) (p : P) (fd : ℤ) (t : Transfer) :
    Outcome (ℤ × State P Page I) :=
  match s.argfd p fd with
  | none => .next (-1, s)
  | some (_, f) =>
      s.transfer f (s.ftable f).readable .piperead "fileread" t

omit [DecidableEq P] [Fintype P] in
def sysWrite (s : State P Page I) (p : P) (fd : ℤ) (t : Transfer) :
    Outcome (ℤ × State P Page I) :=
  match s.argfd p fd with
  | none => .next (-1, s)
  | some (_, f) =>
      s.transfer f (s.ftable f).writable .pipewrite "filewrite" t

variable [DecidableEq I]

omit [DecidableEq P] [Fintype P] in
/-- The page belongs to a pipe. -/
def taken (s : State P Page I) (page : Page) : Bool :=
  s.trace.count (.kfree page) < s.trace.count (.kalloc page)

/-- One system call.  `kalloc` does not return a page that is in use. -/
def run (s : State P Page I) : Call P Page I → Outcome (ℤ × State P Page I)
  | .open p found omode => s.sysOpen p found omode
  | .dup p fd => s.sysDup p fd
  | .close p fd => s.sysClose p fd
  | .pipe p fd page =>
      if page.any s.taken then .blocked else s.sysPipe p fd page
  | .read p fd t => s.sysRead p fd t
  | .write p fd t => s.sysWrite p fd t

def step (s : State P Page I) (c : Call P Page I) : Outcome (State P Page I) :=
  (s.run c).map Prod.snd

end State

end ZtlOs.Descriptors
