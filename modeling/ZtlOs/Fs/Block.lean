import ZtlOs.Fs.Format
import Mathlib.Tactic.NormNum

/-!
# The contents of a block

A block is its bytes.  The fields of the on-disk structures are little-endian
numbers of two or four bytes at a given offset.
-/

namespace ZtlOs.Fs

abbrev Block := Fin BSIZE → BitVec 8

namespace Block

/-- The byte at an offset; beyond the block, zero. -/
def byte (b : Block) (off : ℕ) : BitVec 8 :=
  if h : off < BSIZE then b ⟨off, h⟩ else 0

def setByte (b : Block) (off : ℕ) (v : BitVec 8) : Block :=
  fun i => if i.val = off then v else b i

def half (b : Block) (off : ℕ) : BitVec 16 :=
  b.byte (off + 1) ++ b.byte off

def setHalf (b : Block) (off : ℕ) (v : BitVec 16) : Block :=
  (b.setByte off (v.extractLsb' 0 8)).setByte (off + 1) (v.extractLsb' 8 8)

def word (b : Block) (off : ℕ) : BitVec 32 :=
  b.half (off + 2) ++ b.half off

def setWord (b : Block) (off : ℕ) (v : BitVec 32) : Block :=
  (b.setHalf off (v.extractLsb' 0 16)).setHalf (off + 2) (v.extractLsb' 16 16)

variable {b : Block} {off off' : ℕ}

theorem byte_setByte_self {v : BitVec 8} (h : off < BSIZE) :
    (b.setByte off v).byte off = v := by
  simp [byte, setByte, h]

theorem byte_setByte_of_ne {v : BitVec 8} (h : off' ≠ off) :
    (b.setByte off v).byte off' = b.byte off' := by
  simp [byte, setByte, h]

theorem byte_setHalf_of_ne {v : BitVec 16} (h : off' ≠ off)
    (h' : off' ≠ off + 1) : (b.setHalf off v).byte off' = b.byte off' := by
  rw [setHalf, byte_setByte_of_ne h', byte_setByte_of_ne h]

theorem half_setHalf_self {v : BitVec 16} (h : off + 1 < BSIZE) :
    (b.setHalf off v).half off = v := by
  rw [half, setHalf, byte_setByte_self h, byte_setByte_of_ne (by omega),
    byte_setByte_self (by omega)]
  ext i hi
  simp only [BitVec.getElem_append, BitVec.getElem_extractLsb',
    Nat.zero_add]
  split
  · rw [BitVec.getLsbD_eq_getElem]
  · rw [BitVec.getLsbD_eq_getElem (by omega)]
    congr 1
    omega

theorem half_setHalf_of_disjoint {v : BitVec 16}
    (h : off + 2 ≤ off' ∨ off' + 2 ≤ off) :
    (b.setHalf off v).half off' = b.half off' := by
  rw [half, half, byte_setHalf_of_ne (by omega) (by omega),
    byte_setHalf_of_ne (by omega) (by omega)]

theorem byte_setWord_of_disjoint {v : BitVec 32}
    (h : off + 4 ≤ off' ∨ off' < off) :
    (b.setWord off v).byte off' = b.byte off' := by
  rw [setWord, byte_setHalf_of_ne (by omega) (by omega),
    byte_setHalf_of_ne (by omega) (by omega)]

theorem word_setWord_self {v : BitVec 32} (h : off + 3 < BSIZE) :
    (b.setWord off v).word off = v := by
  rw [word, setWord, half_setHalf_self (by omega),
    half_setHalf_of_disjoint (by omega), half_setHalf_self (by omega)]
  ext i hi
  simp only [BitVec.getElem_append, BitVec.getElem_extractLsb',
    Nat.zero_add]
  split
  · rw [BitVec.getLsbD_eq_getElem]
  · rw [BitVec.getLsbD_eq_getElem (by omega)]
    congr 1
    omega

theorem half_setWord_of_disjoint {v : BitVec 32}
    (h : off + 4 ≤ off' ∨ off' + 2 ≤ off) :
    (b.setWord off v).half off' = b.half off' := by
  rw [setWord, half_setHalf_of_disjoint (by omega),
    half_setHalf_of_disjoint (by omega)]

theorem word_setWord_of_disjoint {v : BitVec 32}
    (h : off + 4 ≤ off' ∨ off' + 4 ≤ off) :
    (b.setWord off v).word off' = b.word off' := by
  rw [word, word, half_setWord_of_disjoint (by omega),
    half_setWord_of_disjoint (by omega)]

end Block

end ZtlOs.Fs
