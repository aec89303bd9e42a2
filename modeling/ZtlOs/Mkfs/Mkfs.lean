import ZtlOs.Fs.Content
import ZtlOs.Support.Program

/-!
# mkfs

`mkfs.c`: the program that builds the first file system image from a list of
host files.  The image is a file of sectors; reading beyond its end fails and
writing there extends it.  The host has the byte order of the image.
-/

namespace ZtlOs.Mkfs

open ZtlOs.Support ZtlOs.Fs

/-- How mkfs ends without reaching `exit(0)`. -/
inductive Stop where
  /-- `exit(1)` after `perror`. -/
  | exit1
  /-- A failed `assert`. -/
  | abort
  deriving DecidableEq

/-- The image file and the two counters. -/
structure State where
  sect : ℕ → Block
  nsect : ℕ
  freeinode : BitVec 32
  freeblock : BitVec 32

abbrev M := Program State Stop

/-! ## The layout -/

def NINODES : ℕ := 200
def nbitmap : ℕ := FSSIZE / (BSIZE * 8) + 1
def ninodeblocks : ℕ := NINODES / IPB + 1
def nlog : ℕ := LOGSIZE

/-- Number of meta blocks (boot, sb, nlog, inode, bitmap). -/
def nmeta : ℕ := 2 + nlog + ninodeblocks + nbitmap

def nblocks : ℕ := FSSIZE - nmeta

def sb : Superblock where
  size := FSSIZE
  nblocks := nblocks
  ninodes := NINODES
  nlog := nlog
  logstart := 2
  inodestart := 2 + nlog
  bmapstart := 2 + nlog + ninodeblocks

/-- Convert to intel byte order. -/
def xshort (x : BitVec 16) : BitVec 16 :=
  halfByte x 1 ++ halfByte x 0

/-- Convert to intel byte order. -/
def xint (x : BitVec 32) : BitVec 32 :=
  (wordByte x 3 ++ wordByte x 2 : BitVec 16) ++
    (wordByte x 1 ++ wordByte x 0 : BitVec 16)

@[simp] theorem xshort_eq (x : BitVec 16) : xshort x = x :=
  halfByte_append x

@[simp] theorem xint_eq (x : BitVec 32) : xint x = x :=
  wordByte_append x

/-- `sb` as `memmove` copies it into a zeroed block. -/
def superblock : Block :=
  ((((((Block.zero.setWord 0 (xint (BitVec.ofNat 32 sb.size))).setWord 4
    (xint (BitVec.ofNat 32 sb.nblocks))).setWord 8
    (xint (BitVec.ofNat 32 sb.ninodes))).setWord 12
    (xint (BitVec.ofNat 32 sb.nlog))).setWord 16
    (xint (BitVec.ofNat 32 sb.logstart))).setWord 20
    (xint (BitVec.ofNat 32 sb.inodestart))).setWord 24
    (xint (BitVec.ofNat 32 sb.bmapstart))

/-! ## Sectors and inodes -/

def assert (c : Prop) [Decidable c] : M Unit :=
  if c then pure () else throw .abort

/-- The sector that `lseek` moves to; `sec * BSIZE` is computed in 32 bits. -/
def seek (sec : BitVec 32) : ℕ :=
  (sec * BitVec.ofNat 32 BSIZE).toNat / BSIZE

def wsect (sec : BitVec 32) (buf : Block) : M Unit :=
  modify fun s =>
    { s with
      sect := Function.update s.sect (seek sec) buf
      nsect := max s.nsect (seek sec + 1) }

def rsect (sec : BitVec 32) : M Block := do
  let s ← get
  if seek sec < s.nsect then pure (s.sect (seek sec)) else throw .exit1

def winode (inum : BitVec 32) (ip : Dinode) : M Unit := do
  let bn := BitVec.ofNat 32 (IBLOCK inum.toNat sb)
  let buf ← rsect bn
  wsect bn (buf.setDinode (inum.toNat % IPB) ip)

def rinode (inum : BitVec 32) : M Dinode := do
  let bn := BitVec.ofNat 32 (IBLOCK inum.toNat sb)
  let buf ← rsect bn
  pure (buf.dinode (inum.toNat % IPB))

def ialloc (type : BitVec 16) : M (BitVec 32) := do
  let s ← get
  let inum := s.freeinode
  modify fun s => { s with freeinode := s.freeinode + 1 }
  winode inum
    { Dinode.zero with
      type := xshort type
      nlink := xshort 1
      size := xint 0 }
  pure inum

/-- `freeblock++`. -/
def takeBlock : M (BitVec 32) := do
  let s ← get
  modify fun s => { s with freeblock := s.freeblock + 1 }
  pure s.freeblock

/-- The block after the bits of the first `used` blocks are set. -/
def bitmap (used : ℕ) : Block :=
  (List.range used).foldl (fun buf i => buf.setBit i) Block.zero

def balloc (used : BitVec 32) : M Unit := do
  assert (used.toInt < BSIZE * 8)
  wsect (BitVec.ofNat 32 sb.bmapstart) (bitmap used.toInt.toNat)

/-! ## Appending to a file -/

/-- The block of `din` with index `fbn`, allocated if there is none, and the
inode with its address. -/
def blockFor (din : Dinode) (fbn : ℕ) : M (BitVec 32 × Dinode) :=
  if fbn < NDIRECT then
    let k := Fin.ofNat (NDIRECT + 1) fbn
    if xint (din.addrs k) = 0 then do
      let b ← takeBlock
      let din := din.setAddr k (xint b)
      pure (xint (din.addrs k), din)
    else pure (xint (din.addrs k), din)
  else do
    let din ←
      if xint (din.addrs (Fin.last NDIRECT)) = 0 then do
        let b ← takeBlock
        pure (din.setAddr (Fin.last NDIRECT) (xint b))
      else pure din
    let ind := xint (din.addrs (Fin.last NDIRECT))
    let indirect ← rsect ind
    if indirect.word (4 * (fbn - NDIRECT)) = 0 then do
      let b ← takeBlock
      wsect ind (indirect.setWord (4 * (fbn - NDIRECT)) (xint b))
      pure (xint (xint b), din)
    else pure (xint (indirect.word (4 * (fbn - NDIRECT))), din)

/-- The loop of `iappend`; each round stores at least one byte. -/
def iappendLoop : ℕ → List (BitVec 8) → BitVec 32 → Dinode →
    M (BitVec 32 × Dinode)
  | 0, _, off, din => pure (off, din)
  | fuel + 1, p, off, din =>
      if p.length = 0 then pure (off, din)
      else do
        let fbn := off.toNat / BSIZE
        assert (fbn < MAXFILE)
        let (x, din) ← blockFor din fbn
        let n1 := min p.length ((fbn + 1) * BSIZE - off.toNat)
        let buf ← rsect x
        wsect x (buf.put (off.toNat - fbn * BSIZE) (p.take n1))
        iappendLoop fuel (p.drop n1) (off + BitVec.ofNat 32 n1) din

def iappend (inum : BitVec 32) (p : List (BitVec 8)) : M Unit := do
  let din ← rinode inum
  let (off, din) ← iappendLoop p.length p (xint din.size) din
  winode inum { din with size := xint off }

/-! ## The image -/

/-- A host file named on the command line; `open` fails for one without
content. -/
structure InputFile where
  name : List (BitVec 8)
  content : Option (List (BitVec 8))

/-- The bytes of `/` and `_`. -/
def slash : BitVec 8 := 0x2f
def underscore : BitVec 8 := 0x5f

/-- `strncpy(de.name, name, DIRSIZ)` into a zeroed entry. -/
def dirent (inum : BitVec 32) (name : List (BitVec 8)) : Dirent where
  inum := xshort (inum.setWidth 16)
  name := fun k => name.getD k.val 0

/-- `while((cc = read(fd, buf, sizeof(buf))) > 0) iappend(inum, buf, cc);` -/
def appendAll (inum : BitVec 32) : ℕ → List (BitVec 8) → M Unit
  | 0, _ => pure ()
  | fuel + 1, rest =>
      if rest.length = 0 then pure ()
      else do
        iappend inum (rest.take BSIZE)
        appendAll inum fuel (rest.drop BSIZE)

/-- One round of the loop over the files; the result is `inum`. -/
def addFile (rootino : BitVec 32) (file : InputFile) : M (BitVec 32) := do
  assert (slash ∉ file.name)
  match file.content with
  | none => throw .exit1
  | some content =>
      -- Skip leading _ in name when writing to file system.
      let name := if file.name.head? = some underscore then file.name.tail
        else file.name
      let inum ← ialloc T_FILE
      iappend rootino (dirent inum name).bytes
      appendAll inum content.length content
      pure inum

def addFiles (rootino : BitVec 32) : List InputFile → M (List (BitVec 32))
  | [] => pure []
  | file :: files => do
      let inum ← addFile rootino file
      let inums ← addFiles rootino files
      pure (inum :: inums)

/-- `for(i = 0; i < n; i++) wsect(i, zeroes);` -/
def zeroSectors : ℕ → M Unit
  | 0 => pure ()
  | n + 1 => do
      zeroSectors n
      wsect (BitVec.ofNat 32 n) Block.zero

/-- `main` up to the first inode. -/
def format : M Unit := do
  modify fun s => { s with freeblock := BitVec.ofNat 32 nmeta }
  zeroSectors FSSIZE
  wsect 1 superblock

/-- Fix size of root inode dir. -/
def fixRoot (rootino : BitVec 32) : M Unit := do
  let din ← rinode rootino
  let off := xint din.size
  let off := (off / BitVec.ofNat 32 BSIZE + 1) * BitVec.ofNat 32 BSIZE
  winode rootino { din with size := xint off }

/-- `main` after the last file. -/
def finish (rootino : BitVec 32) : M Unit := do
  fixRoot rootino
  let s ← get
  balloc s.freeblock

/-- `main` up to `exit(0)`; the result is every number that `ialloc` has
returned. -/
def main (files : List InputFile) : M (List (BitVec 32)) := do
  format
  let rootino ← ialloc T_DIR
  assert (rootino.toNat = ROOTINO)
  iappend rootino (dirent rootino [0x2e]).bytes
  iappend rootino (dirent rootino [0x2e, 0x2e]).bytes
  let inums ← addFiles rootino files
  finish rootino
  pure (rootino :: inums)

/-- The image file after `open` with `O_TRUNC`. -/
def start : State where
  sect := fun _ => Block.zero
  nsect := 0
  freeinode := 1
  freeblock := 0

end ZtlOs.Mkfs
