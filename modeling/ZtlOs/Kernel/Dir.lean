import ZtlOs.Kernel.Fs

/-!
# Directories and paths

The directory layer and the name layer of `fs.c`, with the string functions of
`string.c` that they use.  A string is the bytes before its NUL.
-/

namespace ZtlOs.Kernel

open ZtlOs.Support ZtlOs.Fs

variable {P : Type}

/-! ## Strings -/

/-- `strncmp` of `string.c`; the byte after the last one is the NUL. -/
def strncmp : ℕ → Bytes → Bytes → ℤ
  | 0, _, _ => 0
  | n + 1, p, q =>
      if p.headD 0 ≠ 0 ∧ p.headD 0 = q.headD 0 then
        strncmp n p.tail q.tail
      else (p.headD 0).toNat - (q.headD 0).toNat

/-- `strncpy` of `string.c`. -/
def strncpy : ℕ → Bytes → Bytes
  | 0, _ => []
  | n + 1, t =>
      if t.headD 0 = 0 then List.replicate (n + 1) 0
      else t.headD 0 :: strncpy n t.tail

def namecmp (s t : Bytes) : ℤ :=
  strncmp DIRSIZ s t

/-- The bytes of the name in a directory entry. -/
def direntName (de : Dirent) : Bytes :=
  List.ofFn de.name

/-! ## Directories -/

/-- The offsets of the entries of a directory of `size` bytes. -/
def direntOffsets (size : ℕ) : List ℕ :=
  (List.range ((size + (Dirent.size - 1)) / Dirent.size)).map
    (Dirent.size * ·)

/-- `readi(dp, (char*)&de, off, sizeof(de))`, which must read all of it. -/
def readDirent (message : String) (dp : Slot) (off : ℕ) : M P Dirent := do
  let r ← readi dp off Dirent.size
  match r with
  | none => panic message
  | some bytes =>
      if bytes.length = Dirent.size then pure (Dirent.ofBytes bytes)
      else panic message

/-- The loop of `dirlookup`. -/
def dirlookupLoop (dp : Slot) (name : Bytes) :
    List ℕ → M P (Option (Slot × ℕ))
  | [] => pure none
  | off :: offs => do
      let de ← readDirent "dirlink read" dp off
      if de.inum = 0 then dirlookupLoop dp name offs
      else if namecmp name (direntName de) = 0 then do
        -- Entry matches path element.
        let ip ← iget de.inum.toNat
        pure (some (ip, off))
      else dirlookupLoop dp name offs

/-- Look for a directory entry in a directory; the result is its inode and its
byte offset. -/
def dirlookup (dp : Slot) (name : Bytes) : M P (Option (Slot × ℕ)) := do
  let d ← getDin dp
  if d.type ≠ T_DIR then panic "dirlookup not DIR"
  else dirlookupLoop dp name (direntOffsets d.size.toNat)

/-- The loop of `dirlink` that looks for an empty dirent; `eod` is the offset
at which it ends otherwise. -/
def emptyDirent (dp : Slot) (eod : ℕ) : List ℕ → M P ℕ
  | [] => pure eod
  | off :: offs => do
      let de ← readDirent "dirlink read" dp off
      if de.inum = 0 then pure off else emptyDirent dp eod offs

/-- The entry that `dirlink` writes; the inode number is cut to 16 bits. -/
def linkDirent (name : Bytes) (inum : ℕ) : Dirent where
  inum := BitVec.ofNat 16 inum
  name := fun k => (strncpy DIRSIZ name).getD k.val 0

/-- Write a new directory entry `(name, inum)` into the directory `dp`; false
if the name is present. -/
def dirlink (dp : Slot) (name : Bytes) (inum : ℕ) : M P Bool := do
  -- Check that name is not present.
  let r ← dirlookup dp name
  match r with
  | some (ip, _) => do
      iput ip
      pure false
  | none => do
      -- Look for an empty dirent.
      let d ← getDin dp
      let offs := direntOffsets d.size.toNat
      let off ← emptyDirent dp (Dirent.size * offs.length) offs
      let r ← writei dp (linkDirent name inum).bytes off
      if r = some Dirent.size then pure true else panic "dirlink"

/-! ## Paths -/

/-- The byte of the slash. -/
def slash : BitVec 8 := 0x2f

/-- Copy the next path element from `path`; the result is the element and the
path that follows it, without leading slashes. -/
def skipelem (path : Bytes) : Option (Bytes × Bytes) :=
  let path := path.dropWhile fun c => c == slash
  if path.headD 0 = 0 then none
  else
    let s := path.takeWhile fun c => c != slash && c != 0
    let path := path.dropWhile fun c => c != slash && c != 0
    some (s.take DIRSIZ, path.dropWhile fun c => c == slash)

/-- The end of `namex`, after the last path element. -/
def namexEnd (nameiparent : Bool) (ip : Slot) (name : Bytes) :
    M P (Option (Slot × Bytes)) :=
  if nameiparent then do
    iput ip
    pure none
  else pure (some (ip, name))

/-- The loop of `namex`; every round takes at least one byte from the path. -/
def namexLoop (nameiparent : Bool) :
    ℕ → Slot → Bytes → Bytes → M P (Option (Slot × Bytes))
  | 0, ip, _, name => namexEnd nameiparent ip name
  | fuel + 1, ip, path, name =>
      match skipelem path with
      | none => namexEnd nameiparent ip name
      | some (name, path) => do
          ilock ip
          let d ← getDin ip
          if d.type ≠ T_DIR then do
            iunlockput ip
            pure none
          else if nameiparent ∧ path.headD 0 = 0 then do
            -- Stop one level early.
            iunlock ip
            pure (some (ip, name))
          else do
            let r ← dirlookup ip name
            match r with
            | none => do
                iunlockput ip
                pure none
            | some (next, _) => do
                iunlockput ip
                namexLoop nameiparent fuel next path name

/-- Look up and return the inode for a path name.  With `nameiparent`, the
inode for the parent and the final path element. -/
def namex (p : P) (path : Bytes) (nameiparent : Bool) :
    M P (Option (Slot × Bytes)) := do
  let ip ←
    (if path.headD 0 = slash then iget ROOTINO
    else do
      let s ← get
      idup (s.cwd p))
  namexLoop nameiparent path.length ip path []

def namei (p : P) (path : Bytes) : M P (Option Slot) := do
  let r ← namex p path false
  pure (r.map Prod.fst)

def nameiparent (p : P) (path : Bytes) : M P (Option (Slot × Bytes)) :=
  namex p path true

end ZtlOs.Kernel
