import ZtlOs.Fs.Content
import ZtlOs.Support.Program

/-!
# The state behind the file system calls

System calls run one at a time here.  A block is read and written through the
buffer cache and the log, which show every reader the newest content, so the
state has one logical disk.  A buffer or an inode that the caller itself has
locked makes it sleep forever.

The calls leave a trace of what they do with the log, the buffers and the
inodes.  The panics of `log_write` and `bget` are left out: whether they can
happen is asked of the trace.
-/

namespace ZtlOs.Kernel

open ZtlOs.Support ZtlOs.Fs

/-- The bytes of a file, or of a string. -/
abbrev Bytes := List (BitVec 8)

/-- An entry of the inode cache. -/
abbrev Slot := Fin NINODE

/-- `struct inode`; the fields copied from the disk are kept together. -/
structure Inode where
  inum : ℕ
  ref : ℕ
  locked : Bool
  /-- `I_VALID` in `flags`. -/
  valid : Bool
  din : Dinode

inductive FileType where
  /-- `FD_NONE`. -/
  | none
  /-- `FD_PIPE`. -/
  | pipe
  /-- `FD_INODE`. -/
  | inode
  deriving DecidableEq

/-- `struct file`. -/
structure File where
  type : FileType
  ref : ℕ
  readable : Bool
  writable : Bool
  ip : Slot
  off : ℕ

abbrev FileSlot := Fin NFILE

/-- What a call does that other parts of the kernel see. -/
inductive Event where
  | beginOp
  | endOp
  | bread (blockno : ℕ)
  | brelse (blockno : ℕ)
  | logWrite (blockno : ℕ)
  | ilock (ip : Slot)
  | iunlock (ip : Slot)
  | iput (ip : Slot)
  deriving DecidableEq

/-- How a call ends without returning. -/
inductive Stop where
  | panic (message : String)
  /-- The caller waits for a lock that it holds itself. -/
  | sleep
  deriving DecidableEq

/-- The state of the file system and of the processes `P`. -/
structure State (P : Type) where
  disk : ℕ → Block
  /-- The copy of the superblock in memory. -/
  sb : Superblock
  icache : Slot → Inode
  ftable : FileSlot → File
  ofile : P → Fin NOFILE → Option FileSlot
  cwd : P → Slot
  /-- The buffers that the caller has locked. -/
  bufs : List ℕ
  /-- What the console and the pipes will return. -/
  input : List (Option Bytes)
  /-- What the call has done, the newest first. -/
  trace : List Event

/-- A part of a system call. -/
abbrev M (P : Type) := Program (State P) Stop

variable {P : Type}

def panic (message : String) {α : Type} : M P α :=
  throw (.panic message)

/-! ## Updates of the state -/

namespace State

def emit (s : State P) (e : Event) : State P :=
  { s with trace := e :: s.trace }

def setDisk (s : State P) (b : ℕ) (v : Block) : State P :=
  { s with disk := Function.update s.disk b v }

def setInode (s : State P) (ip : Slot) (v : Inode) : State P :=
  { s with icache := Function.update s.icache ip v }

/-- The in-memory inode with new contents. -/
def setDin (s : State P) (ip : Slot) (d : Dinode) : State P :=
  s.setInode ip { s.icache ip with din := d }

def setFile (s : State P) (f : FileSlot) (v : File) : State P :=
  { s with ftable := Function.update s.ftable f v }

@[simp] theorem icache_setInode_self (s : State P) (ip : Slot) (v : Inode) :
    (s.setInode ip v).icache ip = v :=
  Function.update_self ..

@[simp] theorem icache_setInode_of_ne (s : State P) {ip jp : Slot}
    (h : jp ≠ ip) (v : Inode) : (s.setInode ip v).icache jp = s.icache jp :=
  Function.update_of_ne h ..

end State

/-! ## Buffers and the log -/

/-- The locked buffer of a block. -/
def bread (b : ℕ) : M P Block := do
  let s ← get
  if b ∈ s.bufs then throw .sleep
  else do
    set { s.emit (.bread b) with bufs := b :: s.bufs }
    pure (s.disk b)

def brelse (b : ℕ) : M P Unit :=
  modify fun s => { s.emit (.brelse b) with bufs := s.bufs.erase b }

/-- `log_write` of the buffer of block `b`, whose data is now `data`. -/
def logWrite (b : ℕ) (data : Block) : M P Unit :=
  modify fun s => (s.setDisk b data).emit (.logWrite b)

def beginOp : M P Unit :=
  modify fun s => s.emit .beginOp

def endOp : M P Unit :=
  modify fun s => s.emit .endOp

/-- What the console or a pipe returns next. -/
def receive : M P (Option Bytes) := do
  let s ← get
  match s.input with
  | [] => pure none
  | r :: rest => do
      set { s with input := rest }
      pure r

end ZtlOs.Kernel
