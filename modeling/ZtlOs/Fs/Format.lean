import Mathlib.Data.BitVec
import Mathlib.Data.Fintype.Basic
import Mathlib.Tactic.Common

/-!
# The on-disk format

The constants of `fs.h`, `param.h` and `stat.h`, and the on-disk inode.
-/

namespace ZtlOs.Fs

def BSIZE : ℕ := 512
def NDIRECT : ℕ := 12
def NINDIRECT : ℕ := 128
def MAXFILE : ℕ := NDIRECT + NINDIRECT
def ROOTINO : ℕ := 1
def ROOTDEV : ℕ := 1
def DIRSIZ : ℕ := 14

def NINODE : ℕ := 50
def NFILE : ℕ := 100
def NOFILE : ℕ := 16
def NDEV : ℕ := 10
def MAXOPBLOCKS : ℕ := 10
def LOGSIZE : ℕ := MAXOPBLOCKS * 3
def NBUF : ℕ := MAXOPBLOCKS * 3
def FSSIZE : ℕ := 1000

instance : NeZero NINODE := ⟨by decide⟩

instance : NeZero NBUF := ⟨by decide⟩

instance (priority := high) neZero_succ_NDIRECT : NeZero (NDIRECT + 1) := ⟨by decide⟩

theorem BSIZE_pos : 0 < BSIZE := by
  decide

theorem NBUF_pos : 0 < NBUF := by
  decide

/-- A descriptor that has passed the test of `argfd`. -/
theorem fd_lt {fd : ℤ} (h : 0 ≤ fd ∧ fd.toNat < NOFILE) : fd.toNat < NOFILE :=
  h.2

def T_DIR : BitVec 16 := 1
def T_FILE : BitVec 16 := 2
def T_DEV : BitVec 16 := 3

/-- `struct dinode`.  A free inode has a type of zero. -/
structure Dinode where
  type : BitVec 16
  major : BitVec 16
  minor : BitVec 16
  nlink : BitVec 16
  size : BitVec 32
  addrs : Fin (NDIRECT + 1) → BitVec 32
  deriving DecidableEq

/-- The all-zero inode. -/
def Dinode.zero : Dinode where
  type := 0
  major := 0
  minor := 0
  nlink := 0
  size := 0
  addrs := fun _ => 0

end ZtlOs.Fs
