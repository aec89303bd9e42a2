import Mathlib.Data.Multiset.AddSub
import ZtlOs.Fs.Format
import ZtlOs.Support.Runs
import ZtlOs.Support.Threads

/-!
# The inode cache and its users

`iget`, `idup` and `iput` of `fs.c` and the calls of `file.c`, `sysfile.c` and
`exec.c` that use them, for any number of processes `P`.

One step is a critical section under `icache.lock` or `ftable.lock`, the use of
a field of an inode or of a process, or the taking or dropping of an inode's
lock; the steps of different processes come in any order.  The blocks of the
disk are not modelled: what a path, a directory or an inode on the disk says is
supplied with each step, and `itrunc` and `iupdate`, which change only blocks and
fields that are not used here, have no step of their own.  Neither have
`begin_op` and `end_op`, since a process may wait at any place.
-/

namespace ZtlOs.Fs.Icache

open ZtlOs.Support

abbrev Slot := Fin NINODE

abbrev FileSlot := Fin NFILE

/-! ## The machine -/

/-- The fields of an inode that its users examine. -/
structure Fields where
  dev : ℕ
  inum : ℕ
  type : BitVec 16
  nlink : BitVec 16

/-- `struct inode`. -/
structure Inode (P : Type) extends Fields where
  ref : ℕ
  /-- `I_VALID` in `flags`. -/
  valid : Bool
  /-- The holder of the sleep lock. -/
  lock : Option P

/-- `struct file`. -/
structure File where
  ref : ℕ
  /-- The inode of a file of the type `FD_INODE`, none for `FD_NONE`. -/
  ip : Option Slot

/-- What a process does in one step. -/
inductive Op where
  /-- Take what a path, a directory, the disk or an argument says. -/
  | ask
  | panic (message : String)
  | iget (dev inum : ℕ)
  | idup (ip : Slot)
  /-- The first critical section of `iput`: the test, and `ip->ref--` unless it
  succeeds. -/
  | iputTest (ip : Slot)
  /-- The second critical section of `iput`: `ip->flags = 0; ip->ref--`. -/
  | iputDrop (ip : Slot)
  /-- `acquiresleep` in `ilock`. -/
  | ilock (ip : Slot)
  /-- The rest of `ilock`. -/
  | iload (ip : Slot)
  | iunlock (ip : Slot)
  | inode (ip : Slot)
  | setType (ip : Slot) (type : BitVec 16)
  | setNlink (ip : Slot) (nlink : BitVec 16)
  | cwd
  /-- Take the reference in `proc->cwd`, to put it. -/
  | giveCwd
  /-- `proc->cwd = ip` -/
  | setCwd (ip : Slot)
  /-- `proc->ofile[fd]` -/
  | ofile (fd : Fin NOFILE)
  | filealloc
  | fdalloc (f : FileSlot)
  /-- `f->type = FD_INODE; f->ip = ip` -/
  | setInode (f : FileSlot) (ip : Slot)
  /-- `f->ip` -/
  | fileInode (f : FileSlot)
  /-- `proc->ofile[fd] = 0` -/
  | clearFd (fd : Fin NOFILE)
  | filedup (f : FileSlot)
  /-- The critical section of `fileclose`: the inode that is left to put. -/
  | closeFile (f : FileSlot)

/-- The result of a step. -/
abbrev Op.Res : Op → Type
  | .ask => ℕ
  | .iget _ _ | .cwd | .giveCwd => Slot
  | .iputTest _ => Bool
  | .inode _ => Fields
  | .ofile _ | .filealloc => Option FileSlot
  | .fdalloc _ => Option (Fin NOFILE)
  | .fileInode _ | .closeFile _ => Option Slot
  | _ => Unit

abbrev Prog := Thread Op Op.Res

/-- What belongs to a process.  All but `cwd` and `ofile` is there to count
references only. -/
structure View where
  cwd : Slot
  ofile : Fin NOFILE → Option FileSlot
  /-- The references to inodes that the call in progress holds. -/
  inodes : Multiset Slot
  /-- The references to files that the process owns. -/
  files : Multiset FileSlot
  /-- `cwd` is a reference, and not between its `iput` in `sys_chdir` and the
  assignment of the next one. -/
  live : Bool
  /-- The file that the call in progress has allocated and given no type. -/
  fresh : Option FileSlot

structure Shared (P : Type) where
  icache : Slot → Inode P
  ftable : FileSlot → File

/-- What is supplied with a step. -/
structure Env where
  num : ℕ
  type : BitVec 16
  nlink : BitVec 16

namespace View

/-- The number of descriptors that point to a file. -/
def slots (v : View) (f : FileSlot) : ℕ :=
  (Finset.univ.filter fun fd => v.ofile fd = some f).card

def addInode (v : View) (ip : Slot) : View :=
  { v with inodes := ip ::ₘ v.inodes }

def dropInode (v : View) (ip : Slot) : View :=
  { v with inodes := v.inodes.erase ip }

def setOfile (v : View) (fd : Fin NOFILE) (f : Option FileSlot) : View :=
  { v with ofile := Function.update v.ofile fd f }

/-- What a process has after a step with this result. -/
def after (v : View) : (o : Op) → o.Res → View
  | .iget _ _, ip => v.addInode ip
  | .idup ip, _ => v.addInode ip
  | .iputTest ip, freeing => if freeing then v else v.dropInode ip
  | .iputDrop ip, _ => v.dropInode ip
  | .giveCwd, ip => { v.addInode ip with live := false }
  | .setCwd ip, _ => { v.dropInode ip with cwd := ip, live := true }
  | .filealloc, none => v
  | .filealloc, some f => { v with files := f ::ₘ v.files, fresh := some f }
  | .fdalloc _, none => v
  | .fdalloc f, some fd => v.setOfile fd (some f)
  | .setInode _ ip, _ => { v.dropInode ip with fresh := none }
  | .clearFd fd, _ => v.setOfile fd none
  | .filedup f, _ => { v with files := f ::ₘ v.files }
  | .closeFile f, r =>
      let v := { v with
        files := v.files.erase f
        fresh := if v.fresh = some f then none else v.fresh }
      match r with
      | none => v
      | some ip => v.addInode ip
  | _, _ => v

end View

namespace Shared

variable {P : Type} [DecidableEq P]

def setInode (s : Shared P) (ip : Slot) (v : Inode P) : Shared P :=
  { s with icache := Function.update s.icache ip v }

def setFile (s : Shared P) (f : FileSlot) (v : File) : Shared P :=
  { s with ftable := Function.update s.ftable f v }

/-- One step of process `p`, to which `v` belongs. -/
def perform (s : Shared P) (p : P) (v : View) (e : Env) :
    (o : Op) → Outcome (o.Res × Shared P)
  | .ask => .next (e.num, s)
  | .panic message => .panic message
  | .iget dev inum =>
      match (List.finRange NINODE).find? fun c =>
          decide (0 < (s.icache c).ref ∧ (s.icache c).dev = dev ∧
            (s.icache c).inum = inum) with
      | some c => .next
          (c, s.setInode c { s.icache c with ref := (s.icache c).ref + 1 })
      | none =>
          match (List.finRange NINODE).find? fun c =>
              decide ((s.icache c).ref = 0) with
          | none => .panic "iget: no inodes"
          | some c => .next
              (c, s.setInode c { s.icache c with
                dev := dev, inum := inum, ref := 1, valid := false })
  | .idup ip => .next
      ((), s.setInode ip { s.icache ip with ref := (s.icache ip).ref + 1 })
  | .iputTest ip =>
      let i := s.icache ip
      if i.ref = 1 ∧ i.valid = true ∧ i.nlink = 0 then .next (true, s)
      else .next (false, s.setInode ip { i with ref := i.ref - 1 })
  | .iputDrop ip => .next
      ((), s.setInode ip { s.icache ip with
        valid := false, ref := (s.icache ip).ref - 1 })
  | .ilock ip =>
      if (s.icache ip).ref < 1 then .panic "ilock"
      else if (s.icache ip).lock.isSome then .blocked
      else .next ((), s.setInode ip { s.icache ip with lock := some p })
  | .iload ip =>
      if (s.icache ip).valid then .next ((), s)
      else if e.type = 0 then .panic "ilock: no type"
      else .next
        ((), s.setInode ip { s.icache ip with
          type := e.type, nlink := e.nlink, valid := true })
  | .iunlock ip =>
      if (s.icache ip).lock ≠ some p ∨ (s.icache ip).ref < 1 then
        .panic "iunlock"
      else .next ((), s.setInode ip { s.icache ip with lock := none })
  | .inode ip => .next ((s.icache ip).toFields, s)
  | .setType ip type => .next ((), s.setInode ip { s.icache ip with type })
  | .setNlink ip nlink => .next ((), s.setInode ip { s.icache ip with nlink })
  | .cwd => .next (v.cwd, s)
  | .giveCwd => .next (v.cwd, s)
  | .setCwd _ => .next ((), s)
  | .ofile fd => .next (v.ofile fd, s)
  | .filealloc =>
      match (List.finRange NFILE).find? fun f => (s.ftable f).ref = 0 with
      | none => .next (none, s)
      | some f => .next (some f, s.setFile f { s.ftable f with ref := 1 })
  | .fdalloc _ => .next
      ((List.finRange NOFILE).find? fun fd => (v.ofile fd).isNone, s)
  | .setInode f ip => .next
      ((), s.setFile f { s.ftable f with ip := some ip })
  | .fileInode f => .next ((s.ftable f).ip, s)
  | .clearFd _ => .next ((), s)
  | .filedup f =>
      if (s.ftable f).ref < 1 then .panic "filedup"
      else .next
        ((), s.setFile f { s.ftable f with ref := (s.ftable f).ref + 1 })
  | .closeFile f =>
      if (s.ftable f).ref < 1 then .panic "fileclose"
      else if 0 < (s.ftable f).ref - 1 then .next
        (none, s.setFile f { s.ftable f with ref := (s.ftable f).ref - 1 })
      else .next ((s.ftable f).ip, s.setFile f { ref := 0, ip := none })

end Shared

/-! ## fs.c -/

/-- Request one operation. -/
abbrev call (o : Op) : Prog o.Res :=
  Thread.request o

def panicIf (p : Bool) (message : String) : Prog Unit :=
  if p then call (.panic message) else pure ()

def ilock (ip : Slot) : Prog Unit := do
  call (.ilock ip)
  call (.iload ip)

/-- Drop a reference to an in-memory inode. -/
def iput (ip : Slot) : Prog Unit := do
  let freeing ← call (.iputTest ip)
  if freeing then do
    -- `itrunc(ip)`, then `ip->type = 0; iupdate(ip)`
    call (.setType ip 0)
    call (.iputDrop ip)
  else pure ()

def iunlockput (ip : Slot) : Prog Unit := do
  call (.iunlock ip)
  iput ip

/-- Look for a directory entry in a directory. -/
def dirlookup (dp : Slot) : Prog (Option Slot) := do
  let d ← call (.inode dp)
  if d.type ≠ T_DIR then do
    call (.panic "dirlookup not DIR")
    pure none
  else do
    let inum ← call .ask
    if inum = 0 then pure none
    else do
      let ip ← call (.iget d.dev inum)
      pure (some ip)

/-- Write a new directory entry; false for -1. -/
def dirlink (dp : Slot) : Prog Bool := do
  let r ← dirlookup dp
  match r with
  | some ip => do
      iput ip
      pure false
  | none => pure true

/-- Allocate a new inode; zero says that none is free on the disk. -/
def ialloc (dev : ℕ) : Prog Slot := do
  let inum ← call .ask
  panicIf (inum = 0) "ialloc: no inodes"
  call (.iget dev inum)

/-- The loop of `namex` over the remaining path elements. -/
def namexLoop (nameiparent : Bool) : ℕ → Slot → Prog (Option Slot)
  | 0, ip =>
      if nameiparent then do
        iput ip
        pure none
      else pure (some ip)
  | n + 1, ip => do
      ilock ip
      let i ← call (.inode ip)
      if i.type ≠ T_DIR then do
        iunlockput ip
        pure none
      else if nameiparent = true ∧ n = 0 then do
        -- Stop one level early.
        call (.iunlock ip)
        pure (some ip)
      else do
        let r ← dirlookup ip
        match r with
        | none => do
            iunlockput ip
            pure none
        | some next => do
            iunlockput ip
            namexLoop nameiparent n next

/-- The inode at which `namex` starts. -/
def namexStart (absolute : Bool) : Prog Slot :=
  if absolute then call (.iget ROOTDEV ROOTINO)
  else do
    let ip ← call .cwd
    call (.idup ip)
    pure ip

/-- Look up and return the inode for a path name, which says whether it is
absolute and how many elements it has. -/
def namex (nameiparent : Bool) : Prog (Option Slot) := do
  let absolute ← call .ask
  let n ← call .ask
  let ip ← namexStart (absolute ≠ 0)
  namexLoop nameiparent n ip

def namei : Prog (Option Slot) :=
  namex false

def nameiparent : Prog (Option Slot) :=
  namex true

/-! ## file.c and sysfile.c -/

def fileclose (f : FileSlot) : Prog Unit := do
  let r ← call (.closeFile f)
  match r with
  | none => pure ()
  | some ip => iput ip

/-- `goto bad` in `sys_link`. -/
def linkBad (ip : Slot) : Prog Unit := do
  ilock ip
  let i ← call (.inode ip)
  call (.setNlink ip (i.nlink - 1))
  iunlockput ip

def sysLink : Prog Unit := do
  let r ← namei
  match r with
  | none => pure ()
  | some ip => do
      ilock ip
      let i ← call (.inode ip)
      if i.type = T_DIR then iunlockput ip
      else do
        call (.setNlink ip (i.nlink + 1))
        call (.iunlock ip)
        let r ← nameiparent
        match r with
        | none => linkBad ip
        | some dp => do
            ilock dp
            let d ← call (.inode dp)
            if d.dev ≠ i.dev then do
              iunlockput dp
              linkBad ip
            else do
              let linked ← dirlink dp
              if linked then do
                iunlockput dp
                iput ip
              else do
                iunlockput dp
                linkBad ip

/-- The end of `sys_unlink`, with both inodes locked. -/
def unlinkEnd (dp ip : Slot) (type : BitVec 16) : Prog Unit := do
  (if type = T_DIR then do
    let d ← call (.inode dp)
    call (.setNlink dp (d.nlink - 1))
  else pure ())
  iunlockput dp
  let i ← call (.inode ip)
  call (.setNlink ip (i.nlink - 1))
  iunlockput ip

def sysUnlink : Prog Unit := do
  let r ← nameiparent
  match r with
  | none => pure ()
  | some dp => do
      ilock dp
      let dots ← call .ask
      if dots ≠ 0 then iunlockput dp
      else do
        let r ← dirlookup dp
        match r with
        | none => iunlockput dp
        | some ip => do
            ilock ip
            let i ← call (.inode ip)
            panicIf (i.nlink.toInt < 1) "unlink: nlink < 1"
            let empty ← call .ask
            if i.type = T_DIR ∧ empty = 0 then do
              iunlockput ip
              iunlockput dp
            else unlinkEnd dp ip i.type

/-- The entries `.` and `..` of a new directory. -/
def createDots (dp ip : Slot) : Prog Unit := do
  let d ← call (.inode dp)
  call (.setNlink dp (d.nlink + 1))
  let dot ← dirlink ip
  panicIf (!dot) "create dots"
  let dotdot ← dirlink ip
  panicIf (!dotdot) "create dots"

def create (type : BitVec 16) : Prog (Option Slot) := do
  let r ← nameiparent
  match r with
  | none => pure none
  | some dp => do
      ilock dp
      let r ← dirlookup dp
      match r with
      | some ip => do
          iunlockput dp
          ilock ip
          let i ← call (.inode ip)
          if type = T_FILE ∧ i.type = T_FILE then pure (some ip)
          else do
            iunlockput ip
            pure none
      | none => do
          let d ← call (.inode dp)
          let ip ← ialloc d.dev
          ilock ip
          call (.setNlink ip 1)
          (if type = T_DIR then createDots dp ip else pure ())
          let linked ← dirlink dp
          panicIf (!linked) "create: dirlink"
          iunlockput dp
          pure (some ip)

/-- `sys_open` up to the locked inode; `rdonly` says whether `omode` is
`O_RDONLY`. -/
def openInode (o_create rdonly : Bool) : Prog (Option Slot) :=
  if o_create then create T_FILE
  else do
    let r ← namei
    match r with
    | none => pure none
    | some ip => do
        ilock ip
        let i ← call (.inode ip)
        if i.type = T_DIR ∧ rdonly = false then do
          iunlockput ip
          pure none
        else pure (some ip)

def sysOpen (o_create rdonly : Bool) : Prog Unit := do
  let r ← openInode o_create rdonly
  match r with
  | none => pure ()
  | some ip => do
      let r ← call .filealloc
      match r with
      | none => iunlockput ip
      | some f => do
          let r ← call (.fdalloc f)
          match r with
          | none => do
              fileclose f
              iunlockput ip
          | some _ => do
              call (.iunlock ip)
              call (.setInode f ip)

/-- `sys_mkdir` and `sys_mknod`. -/
def sysMake (type : BitVec 16) : Prog Unit := do
  let r ← create type
  match r with
  | none => pure ()
  | some ip => iunlockput ip

def sysMkdir : Prog Unit :=
  sysMake T_DIR

def sysMknod : Prog Unit :=
  sysMake T_DEV

def sysChdir : Prog Unit := do
  let r ← namei
  match r with
  | none => pure ()
  | some ip => do
      ilock ip
      let i ← call (.inode ip)
      if i.type ≠ T_DIR then iunlockput ip
      else do
        call (.iunlock ip)
        let old ← call .giveCwd
        iput old
        call (.setCwd ip)

/-- `exec` as far as it uses the inode of the program. -/
def exec : Prog Unit := do
  let r ← namei
  match r with
  | none => pure ()
  | some ip => do
      ilock ip
      iunlockput ip

def sysClose (fd : Fin NOFILE) : Prog Unit := do
  let r ← call (.ofile fd)
  match r with
  | none => pure ()
  | some f => do
      call (.clearFd fd)
      fileclose f

def sysDup (fd : Fin NOFILE) : Prog Unit := do
  let r ← call (.ofile fd)
  match r with
  | none => pure ()
  | some f => do
      let r ← call (.fdalloc f)
      match r with
      | none => pure ()
      | some _ => call (.filedup f)

/-- `sys_read`, `sys_write` and `sys_fstat`: each time the inode of the file is
used, it is locked, `n` times. -/
def sysUse (fd : Fin NOFILE) (n : ℕ) : Prog Unit := do
  let r ← call (.ofile fd)
  match r with
  | none => pure ()
  | some f => useLoop f n
where
  useLoop (f : FileSlot) : ℕ → Prog Unit
    | 0 => pure ()
    | n + 1 => do
        let r ← call (.fileInode f)
        match r with
        | none => pure ()
        | some ip => do
            ilock ip
            call (.iunlock ip)
            useLoop f n

/-! ## Runs -/

inductive Syscall where
  | link
  | unlink
  | open (o_create rdonly : Bool)
  | mkdir
  | mknod
  | chdir
  | exec
  | close (fd : Fin NOFILE)
  | dup (fd : Fin NOFILE)
  | use (fd : Fin NOFILE) (n : ℕ)

def Syscall.prog : Syscall → Prog Unit
  | .link => sysLink
  | .unlink => sysUnlink
  | .open o_create rdonly => sysOpen o_create rdonly
  | .mkdir => sysMkdir
  | .mknod => sysMknod
  | .chdir => sysChdir
  | .exec => Icache.exec
  | .close fd => sysClose fd
  | .dup fd => sysDup fd
  | .use fd n => sysUse fd n

structure State (P : Type) extends Shared P where
  view : P → View
  /-- What a process has still to do. -/
  thread : P → Prog Unit

inductive Act (P : Type) where
  | call (p : P) (c : Syscall)
  /-- The next step of a call. -/
  | run (p : P) (e : Env)

variable {P : Type} [DecidableEq P]

namespace State

/-- A process that is in no call begins one. -/
def begin (s : State P) (p : P) (c : Syscall) : Outcome (State P) :=
  match s.thread p with
  | .ret _ => .next { s with thread := Function.update s.thread p c.prog }
  | .op _ _ => .blocked

def run (s : State P) (p : P) (e : Env) : Outcome (State P) :=
  match s.thread p with
  | .ret _ => .blocked
  | .op o k => (s.perform p (s.view p) e o).map fun r =>
      { toShared := r.2
        view := Function.update s.view p ((s.view p).after o r.1)
        thread := Function.update s.thread p (k r.1) }

def step (s : State P) : Act P → Outcome (State P)
  | .call p c => s.begin p c
  | .run p e => s.run p e

end State

end ZtlOs.Fs.Icache
