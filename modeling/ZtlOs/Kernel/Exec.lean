import ZtlOs.Kernel.Dir

/-!
# exec.c

What `exec` does with the file system.  The page tables are left out: whether
the functions of `vm.c` succeed, and what `loaduvm` reads from the locked
inode, is a parameter.
-/

namespace ZtlOs.Kernel

open ZtlOs.Support ZtlOs.Fs

variable {P : Type}

/-- What the functions of `vm.c` do for one call of `exec`; the argument is
the index of the program header. -/
structure Vm where
  setupkvm : Bool
  allocuvm : ℕ → Bool
  /-- The offsets and counts that `loaduvm` passes to `readi`. -/
  loaduvm : ℕ → List (ℕ × ℕ)
  loaded : ℕ → Bool
  /-- The stack and the arguments can be set up. -/
  stack : Bool

def ELF_MAGIC : BitVec 32 := 0x464C457F
def ELF_PROG_LOAD : BitVec 32 := 1

/-- The sizes of `struct elfhdr` and `struct proghdr`. -/
def elfhdrSize : ℕ := 52
def proghdrSize : ℕ := 32
def PGSIZE : ℕ := 4096

/-- The little-endian number of four bytes at an offset. -/
def wordAt (l : Bytes) (off : ℕ) : BitVec 32 :=
  (l.getD (off + 3) 0 ++ l.getD (off + 2) 0 : BitVec 16) ++
    (l.getD (off + 1) 0 ++ l.getD off 0 : BitVec 16)

def halfAt (l : Bytes) (off : ℕ) : BitVec 16 :=
  l.getD (off + 1) 0 ++ l.getD off 0

/-- `loaduvm` reads the segment from the inode. -/
def loadSegment (ip : Slot) : List (ℕ × ℕ) → M P Unit
  | [] => pure ()
  | (off, n) :: reads => do
      let _ ← readi ip off n
      loadSegment ip reads

/-- The loop over the program headers; true when all are loaded. -/
def loadProgram (ip : Slot) (vm : Vm) : ℕ → ℕ → BitVec 32 → M P Bool
  | 0, _, _ => pure true
  | n + 1, i, off => do
      let r ← readi ip off.toNat proghdrSize
      match r with
      | none => pure false
      | some ph =>
          let vaddr := wordAt ph 8
          let filesz := wordAt ph 16
          let memsz := wordAt ph 20
          let next := off + BitVec.ofNat 32 proghdrSize
          if ph.length ≠ proghdrSize then pure false
          else if wordAt ph 0 ≠ ELF_PROG_LOAD then
            loadProgram ip vm n (i + 1) next
          else if memsz.toNat < filesz.toNat then pure false
          else if (vaddr + memsz).toNat < vaddr.toNat then pure false
          else if vm.allocuvm i = false then pure false
          else if vaddr.toNat % PGSIZE ≠ 0 then pure false
          else do
            loadSegment ip (vm.loaduvm i)
            if vm.loaded i = false then pure false
            else loadProgram ip vm n (i + 1) next

/-- The part of `exec` between `ilock` and `iunlockput`. -/
def loadElf (ip : Slot) (vm : Vm) : M P Bool := do
  -- Check ELF header
  let r ← readi ip 0 elfhdrSize
  match r with
  | none => pure false
  | some elf =>
      if elf.length ≠ elfhdrSize then pure false
      else if wordAt elf 0 ≠ ELF_MAGIC then pure false
      else if vm.setupkvm = false then pure false
      else loadProgram ip vm (halfAt elf 44).toNat 0 (wordAt elf 28)

def exec (p : P) (path : Bytes) (vm : Vm) : M P ℤ := do
  beginOp
  -- Opens the named binary path.
  let r ← namei p path
  match r with
  | none => do
      endOp
      pure (-1)
  | some ip => do
      ilock ip
      let ok ← loadElf ip vm
      iunlockput ip
      endOp
      if ok = false then pure (-1)
      else if vm.stack = false then pure (-1)
      else pure 0

end ZtlOs.Kernel
