import ZtlOs.Fs.Block

/-!
# The disk layout

Where `fs.h` puts the inodes, the bits of the bitmap, the superblock and the
directory entries, and the bytes they are stored as.
-/

namespace ZtlOs.Fs

/-- Inodes per block; a `struct dinode` takes 64 bytes. -/
def IPB : ℕ := 8

/-- Bitmap bits per block. -/
def BPB : ℕ := BSIZE * 8

/-- `struct superblock`. -/
structure Superblock where
  size : ℕ
  nblocks : ℕ
  ninodes : ℕ
  nlog : ℕ
  logstart : ℕ
  inodestart : ℕ
  bmapstart : ℕ
  deriving DecidableEq

/-- Block containing inode `i`. -/
def IBLOCK (i : ℕ) (sb : Superblock) : ℕ :=
  i / IPB + sb.inodestart

/-- Block of the free map containing the bit for block `b`. -/
def BBLOCK (b : ℕ) (sb : Superblock) : ℕ :=
  b / BPB + sb.bmapstart

namespace Block

/-! ## Byte ranges -/

def zero : Block :=
  fun _ => 0

/-- The `m` bytes from offset `off` on. -/
def get (b : Block) (off m : ℕ) : List (BitVec 8) :=
  (List.range m).map fun j => b.byte (off + j)

/-- `memmove` into a block at offset `off`. -/
def put (b : Block) (off : ℕ) (l : List (BitVec 8)) : Block :=
  fun j => if off ≤ j.val ∧ j.val < off + l.length then l.getD (j.val - off) 0
    else b j

variable {b : Block} {off j : ℕ} {l : List (BitVec 8)}

theorem byte_zero : zero.byte off = 0 := by
  unfold byte zero
  split <;> rfl

theorem half_zero : zero.half off = 0 := by
  rw [half, byte_zero, byte_zero]
  rfl

theorem word_zero : zero.word off = 0 := by
  rw [word, half_zero, half_zero]
  rfl

theorem length_get (b : Block) (off m : ℕ) : (b.get off m).length = m := by
  simp [get]

theorem getElem_get {m : ℕ} (h : j < (b.get off m).length) :
    (b.get off m)[j] = b.byte (off + j) := by
  simp [get]

theorem byte_put_of_mem (hj : j < l.length) (h : off + j < BSIZE) :
    (b.put off l).byte (off + j) = l[j] := by
  simp [byte, put, h, hj]

theorem byte_put_of_not_mem (h : j < off ∨ off + l.length ≤ j) :
    (b.put off l).byte j = b.byte j := by
  unfold byte put
  split
  · rw [if_neg (by rintro ⟨h₁, h₂⟩; simp only at h₁ h₂; omega)]
  · rfl

theorem ext_byte {b' : Block} (h : ∀ j < BSIZE, b.byte j = b'.byte j) :
    b = b' := by
  funext j
  simpa [byte] using h j.val j.isLt

/-! ## The bitmap -/

/-- `1 << (bi % 8)` as a byte. -/
def mask (bi : ℕ) : BitVec 8 :=
  1#8 <<< (bi % 8)

/-- Whether bit `bi` is set. -/
def bit (b : Block) (bi : ℕ) : Bool :=
  decide (b.byte (bi / 8) &&& mask bi ≠ 0)

def setBit (b : Block) (bi : ℕ) : Block :=
  b.setByte (bi / 8) (b.byte (bi / 8) ||| mask bi)

def clearBit (b : Block) (bi : ℕ) : Block :=
  b.setByte (bi / 8) (b.byte (bi / 8) &&& ~~~mask bi)

theorem getLsbD_mask (bi k : ℕ) :
    (mask bi).getLsbD k = decide (k = bi % 8) := by
  rw [mask, BitVec.getLsbD_shiftLeft, BitVec.getLsbD_one]
  have : bi % 8 < 8 := Nat.mod_lt _ (by decide)
  rw [Bool.eq_iff_iff]
  simp only [Bool.and_eq_true, Bool.not_eq_true', decide_eq_true_eq,
    decide_eq_false_iff_not]
  omega

theorem bit_eq_getLsbD (b : Block) (bi : ℕ) :
    b.bit bi = (b.byte (bi / 8)).getLsbD (bi % 8) := by
  rw [bit, Bool.eq_iff_iff, decide_eq_true_eq]
  constructor
  · intro h
    by_contra hbit
    apply h
    ext k hk
    rw [← BitVec.getLsbD_eq_getElem, ← BitVec.getLsbD_eq_getElem,
      BitVec.getLsbD_and, getLsbD_mask]
    by_cases hk' : k = bi % 8
    · subst hk'
      rw [Bool.eq_false_of_not_eq_true hbit]
      simp
    · simp [hk']
  · intro h hzero
    have hand := congrArg (fun v => BitVec.getLsbD v (bi % 8)) hzero
    simp only [BitVec.getLsbD_and, getLsbD_mask, decide_true, Bool.and_true]
      at hand
    rw [h] at hand
    simp at hand

theorem bit_setByte_of_ne {bi : ℕ} {v : BitVec 8} (h : bi / 8 ≠ off) :
    (b.setByte off v).bit bi = b.bit bi := by
  rw [bit, bit, byte_setByte_of_ne h]

theorem bit_setBit {bi bj : ℕ} (h : bi < BPB) :
    (b.setBit bi).bit bj = (decide (bj = bi) || b.bit bj) := by
  have hlt : bi / 8 < BSIZE := by
    have : BPB = BSIZE * 8 := rfl
    omega
  by_cases hbyte : bj / 8 = bi / 8
  · rw [bit_eq_getLsbD, bit_eq_getLsbD, setBit, hbyte, byte_setByte_self hlt,
      BitVec.getLsbD_or, getLsbD_mask, Bool.or_comm]
    congr 1
    rw [decide_eq_decide]
    omega
  · rw [setBit, bit_setByte_of_ne hbyte]
    rw [decide_eq_false (fun h => hbyte (by rw [h])), Bool.false_or]

theorem bit_clearBit {bi bj : ℕ} (h : bi < BPB) :
    (b.clearBit bi).bit bj = (!decide (bj = bi) && b.bit bj) := by
  have hlt : bi / 8 < BSIZE := by
    have : BPB = BSIZE * 8 := rfl
    omega
  by_cases hbyte : bj / 8 = bi / 8
  · rw [bit_eq_getLsbD, bit_eq_getLsbD, clearBit, hbyte,
      byte_setByte_self hlt, BitVec.getLsbD_and, BitVec.getLsbD_not,
      getLsbD_mask, Bool.and_comm,
      decide_eq_true (Nat.mod_lt bj (show 0 < 8 by decide)), Bool.true_and]
    congr 2
    rw [decide_eq_decide]
    omega
  · rw [clearBit, bit_setByte_of_ne hbyte]
    rw [decide_eq_false (fun h => hbyte (by rw [h])), Bool.not_false,
      Bool.true_and]

theorem bit_zero (bi : ℕ) : zero.bit bi = false := by
  rw [bit_eq_getLsbD, byte_zero]
  simp

/-! ## Inodes -/

/-- The inode at index `i` of an inode block. -/
def dinode (b : Block) (i : ℕ) : Dinode where
  type := b.half (64 * i)
  major := b.half (64 * i + 2)
  minor := b.half (64 * i + 4)
  nlink := b.half (64 * i + 6)
  size := b.word (64 * i + 8)
  addrs := fun k => b.word (64 * i + 12 + 4 * k.val)

end Block

/-- Byte `p` of a two-byte field. -/
def halfByte (v : BitVec 16) (p : ℕ) : BitVec 8 :=
  v.extractLsb' (8 * p) 8

/-- Byte `p` of a four-byte field. -/
def wordByte (v : BitVec 32) (p : ℕ) : BitVec 8 :=
  v.extractLsb' (8 * p) 8

theorem halfByte_append (v : BitVec 16) :
    (halfByte v 1 ++ halfByte v 0 : BitVec 16) = v := by
  ext i hi
  simp only [halfByte, BitVec.getElem_append, BitVec.getElem_extractLsb']
  split
  · rw [← BitVec.getLsbD_eq_getElem]
    congr 1
    omega
  · rw [← BitVec.getLsbD_eq_getElem]
    congr 1
    omega

theorem wordByte_append (v : BitVec 32) :
    ((wordByte v 3 ++ wordByte v 2 : BitVec 16) ++
      (wordByte v 1 ++ wordByte v 0 : BitVec 16) : BitVec 32) = v := by
  ext i hi
  simp only [wordByte, BitVec.getElem_append, BitVec.getElem_extractLsb']
  repeat' split
  all_goals
    rw [← BitVec.getLsbD_eq_getElem]
    congr 1
    omega

/-- Byte `p` of a `struct dinode`. -/
def Dinode.byte (d : Dinode) (p : ℕ) : BitVec 8 :=
  if p < 2 then halfByte d.type p
  else if p < 4 then halfByte d.major (p - 2)
  else if p < 6 then halfByte d.minor (p - 4)
  else if p < 8 then halfByte d.nlink (p - 6)
  else if p < 12 then wordByte d.size (p - 8)
  else wordByte (d.addrs (Fin.ofNat (NDIRECT + 1) ((p - 12) / 4)))
    ((p - 12) % 4)

namespace Block

/-- The block with the inode `d` stored at index `i`. -/
def setDinode (b : Block) (i : ℕ) (d : Dinode) : Block :=
  fun j => if j.val / 64 = i then d.byte (j.val % 64) else b j

variable {b : Block} {i i' : ℕ} {d : Dinode}

theorem half_eq {off : ℕ} {v : BitVec 16}
    (h : ∀ q < 2, b.byte (off + q) = halfByte v q) : b.half off = v := by
  rw [half, h 1 (by decide), ← Nat.add_zero off, h 0 (by decide)]
  exact halfByte_append v

theorem word_eq {off : ℕ} {v : BitVec 32}
    (h : ∀ q < 4, b.byte (off + q) = wordByte v q) : b.word off = v := by
  have h₀ := h 0 (by decide)
  have h₃ := h 3 (by decide)
  rw [Nat.add_zero] at h₀
  rw [← Nat.add_assoc off 2 1] at h₃
  rw [word, half, half, h₀, h 1 (by decide), h 2 (by decide), h₃]
  exact wordByte_append v

theorem byte_setDinode {p : ℕ} (hi : i < IPB) (hp : p < 64) :
    (b.setDinode i d).byte (64 * i + p) = d.byte p := by
  have hlt : 64 * i + p < BSIZE := by
    simp only [IPB] at hi
    simp only [BSIZE]
    omega
  have hdiv : (64 * i + p) / 64 = i := by omega
  have hmod : (64 * i + p) % 64 = p := by omega
  simp [byte, setDinode, hlt, hdiv, hmod]

theorem byte_setDinode_of_ne {j : ℕ} (h : j / 64 ≠ i) :
    (b.setDinode i d).byte j = b.byte j := by
  simp [byte, setDinode, h]

theorem byte_addrs (d : Dinode) (k : Fin (NDIRECT + 1)) {q : ℕ}
    (hq : q < 4) : d.byte (12 + 4 * k.val + q) = wordByte (d.addrs k) q := by
  have hk : k.val < 13 := k.isLt
  have hdiv : (12 + 4 * k.val + q - 12) / 4 = k.val := by omega
  have hmod : (12 + 4 * k.val + q - 12) % 4 = q := by omega
  have hfin : Fin.ofNat (NDIRECT + 1) k.val = k := by
    ext
    exact Nat.mod_eq_of_lt hk
  rw [Dinode.byte, if_neg (by omega), if_neg (by omega), if_neg (by omega),
    if_neg (by omega), if_neg (by omega), hdiv, hmod, hfin]

theorem dinode_setDinode_self (hi : i < IPB) :
    (b.setDinode i d).dinode i = d := by
  have hfield : ∀ p q, p + q < 64 →
      (b.setDinode i d).byte (64 * i + p + q) = d.byte (p + q) := by
    intro p q hp
    rw [Nat.add_assoc]
    exact byte_setDinode hi hp
  simp only [dinode]
  congr 1
  · apply half_eq
    intro q hq
    rw [byte_setDinode hi (by omega), Dinode.byte, if_pos hq]
  · apply half_eq
    intro q hq
    rw [hfield 2 q (by omega), Dinode.byte, if_neg (by omega),
      if_pos (by omega), Nat.add_sub_cancel_left]
  · apply half_eq
    intro q hq
    rw [hfield 4 q (by omega), Dinode.byte, if_neg (by omega),
      if_neg (by omega), if_pos (by omega), Nat.add_sub_cancel_left]
  · apply half_eq
    intro q hq
    rw [hfield 6 q (by omega), Dinode.byte, if_neg (by omega),
      if_neg (by omega), if_neg (by omega), if_pos (by omega),
      Nat.add_sub_cancel_left]
  · apply word_eq
    intro q hq
    rw [hfield 8 q (by omega), Dinode.byte, if_neg (by omega),
      if_neg (by omega), if_neg (by omega), if_neg (by omega),
      if_pos (by omega), Nat.add_sub_cancel_left]
  · funext k
    have hk : k.val < 13 := k.isLt
    apply word_eq
    intro q hq
    rw [Nat.add_assoc (64 * i), hfield _ q (by omega), byte_addrs d k hq]

theorem half_congr {b' : Block} {off : ℕ}
    (h : ∀ j, off ≤ j → j < off + 2 → b.byte j = b'.byte j) :
    b.half off = b'.half off := by
  rw [half, half, h (off + 1) (by omega) (by omega),
    h off (by omega) (by omega)]

theorem word_congr {b' : Block} {off : ℕ}
    (h : ∀ j, off ≤ j → j < off + 4 → b.byte j = b'.byte j) :
    b.word off = b'.word off := by
  rw [word, word, half_congr fun j h₁ h₂ => h j (by omega) (by omega),
    half_congr fun j h₁ h₂ => h j (by omega) (by omega)]

/-- An inode depends on its 64 bytes only. -/
theorem dinode_congr {b' : Block}
    (h : ∀ j, j / 64 = i → b.byte j = b'.byte j) :
    b.dinode i = b'.dinode i := by
  simp only [dinode, Dinode.mk.injEq]
  refine ⟨?_, ?_, ?_, ?_, ?_, ?_⟩
  · exact half_congr fun j _ _ => h j (by omega)
  · exact half_congr fun j _ _ => h j (by omega)
  · exact half_congr fun j _ _ => h j (by omega)
  · exact half_congr fun j _ _ => h j (by omega)
  · exact word_congr fun j _ _ => h j (by omega)
  · funext k
    have hk : k.val < 13 := k.isLt
    exact word_congr fun j _ _ => h j (by omega)

theorem dinode_setDinode_of_ne (h : i' ≠ i) :
    (b.setDinode i d).dinode i' = b.dinode i' := by
  apply dinode_congr
  intro j hj
  exact byte_setDinode_of_ne (by omega)

theorem dinode_zero (i : ℕ) : zero.dinode i = Dinode.zero := by
  simp only [dinode, half_zero, word_zero, Dinode.zero]

end Block

/-! ## The superblock -/

/-- The `struct superblock` at the start of a block. -/
def Block.superblock (b : Block) : Superblock where
  size := (b.word 0).toNat
  nblocks := (b.word 4).toNat
  ninodes := (b.word 8).toNat
  nlog := (b.word 12).toNat
  logstart := (b.word 16).toNat
  inodestart := (b.word 20).toNat
  bmapstart := (b.word 24).toNat

/-! ## Directory entries -/

/-- `struct dirent`, of 16 bytes. -/
structure Dirent where
  inum : BitVec 16
  name : Fin DIRSIZ → BitVec 8
  deriving DecidableEq

namespace Dirent

/-- `sizeof(struct dirent)`. -/
def size : ℕ := 16

def zero : Dirent where
  inum := 0
  name := fun _ => 0

def bytes (de : Dirent) : List (BitVec 8) :=
  halfByte de.inum 0 :: halfByte de.inum 1 :: List.ofFn de.name

def ofBytes (l : List (BitVec 8)) : Dirent where
  inum := l.getD 1 0 ++ l.getD 0 0
  name := fun k => l.getD (k.val + 2) 0

theorem length_bytes (de : Dirent) : de.bytes.length = size := by
  rw [bytes, List.length_cons, List.length_cons, List.length_ofFn]
  rfl

theorem ofBytes_bytes (de : Dirent) : ofBytes de.bytes = de := by
  cases de with
  | mk inum name =>
      simp only [ofBytes, bytes, mk.injEq]
      refine ⟨halfByte_append inum, ?_⟩
      funext k
      simp

end Dirent

end ZtlOs.Fs
