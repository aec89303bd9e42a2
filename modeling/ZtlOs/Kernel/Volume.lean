import ZtlOs.Kernel.State

/-!
# Sound volumes

What has to hold between the superblock, the bitmap, the inodes and the blocks
they list.  The inodes are given by a table, because the newest version of an
inode may be the one in memory.  While a block is on its way between the bitmap
and an inode, the two may disagree about it.
-/

namespace ZtlOs.Kernel

open ZtlOs.Support ZtlOs.Fs

/-- The newest version of every inode. -/
abbrev Table := ℕ → Dinode

/-- The number of metadata blocks: everything but the data blocks. -/
def nmeta (sb : Superblock) : ℕ :=
  sb.size - sb.nblocks

/-- The areas of the disk: boot block and superblock, inodes, bitmap, data. -/
structure Layout (sb : Superblock) : Prop where
  super : 1 < sb.inodestart
  inodes : sb.inodestart + (sb.ninodes + (IPB - 1)) / IPB ≤ sb.bmapstart
  bitmap : sb.bmapstart + (sb.size + (BPB - 1)) / BPB ≤ nmeta sb
  root : ROOTINO < sb.ninodes

/-- The bit of block `b` in the bitmap. -/
def bmapBit (sb : Superblock) (disk : ℕ → Block) (b : ℕ) : Bool :=
  (disk (BBLOCK b sb)).bit (b % BPB)

/-- The inodes on disk. -/
def inodeOf (sb : Superblock) (disk : ℕ → Block) : Table :=
  fun i => (disk (IBLOCK i sb)).dinode (i % IPB)

/-- The allocated inodes; a free one counts as empty. -/
def live (sb : Superblock) (V : Table) : Table :=
  fun i => if i < sb.ninodes ∧ (V i).type ≠ 0 then V i else Dinode.zero

/-- The block numbers that the allocated inodes list. -/
def listing (sb : Superblock) (disk : ℕ → Block) (V : Table) : Slots :=
  slots disk (live sb V)

/-- The bitmap marks the metadata blocks and the listed blocks, except that
nothing is said about the blocks in `X`; no block is listed twice; no file or
directory has a hole. -/
structure Sound (sb : Superblock) (disk : ℕ → Block) (V : Table)
    (X : ℕ → Prop) : Prop where
  layout : Layout sb
  superblock : (disk 1).superblock = sb
  separate : (listing sb disk V).Separate fun b => nmeta sb ≤ b ∧ b < sb.size
  bitmap : ∀ b < sb.size, ¬X b →
    (bmapBit sb disk b = true ↔ b < nmeta sb ∨ (listing sb disk V).Lists b)
  mapped : ∀ i < sb.ninodes, (V i).type ≠ 0 → (V i).type ≠ T_DEV →
    ∀ bn < blocksOf (V i).size.toNat,
      listing sb disk V i (dataSlot bn) ≠ 0

/-! ## Areas -/

namespace Layout

variable {sb : Superblock} {i b : ℕ}

theorem one_lt_iblock (h : Layout sb) : 1 < IBLOCK i sb :=
  lt_of_lt_of_le h.super (Nat.le_add_left ..)

theorem iblock_lt (h : Layout sb) (hi : i < sb.ninodes) :
    IBLOCK i sb < sb.bmapstart := by
  have := h.inodes
  simp only [IBLOCK, IPB] at this ⊢
  omega

theorem bmapstart_le : sb.bmapstart ≤ BBLOCK b sb :=
  Nat.le_add_left ..

theorem bblock_lt (h : Layout sb) (hb : b < sb.size) :
    BBLOCK b sb < nmeta sb := by
  have := h.bitmap
  have hdiv : b / BPB + 1 ≤ (sb.size + (BPB - 1)) / BPB := by
    simp only [BPB, BSIZE]
    omega
  unfold BBLOCK
  omega

theorem one_lt_bmapstart (h : Layout sb) : 1 < sb.bmapstart := by
  have := le_trans (Nat.le_add_right ..) h.inodes
  exact lt_of_lt_of_le h.super this

theorem bmapstart_le_nmeta (h : Layout sb) : sb.bmapstart ≤ nmeta sb :=
  le_trans (Nat.le_add_right ..) h.bitmap

theorem one_lt_nmeta (h : Layout sb) : 1 < nmeta sb :=
  lt_of_lt_of_le h.one_lt_bmapstart h.bmapstart_le_nmeta

theorem iblock_lt_nmeta (h : Layout sb) (hi : i < sb.ninodes) :
    IBLOCK i sb < nmeta sb :=
  lt_of_lt_of_le (h.iblock_lt hi) h.bmapstart_le_nmeta

theorem iblock_ne_bblock (h : Layout sb) (hi : i < sb.ninodes) :
    IBLOCK i sb ≠ BBLOCK b sb := by
  have := h.iblock_lt hi
  have hle : sb.bmapstart ≤ BBLOCK b sb := bmapstart_le
  omega

end Layout

/-! ## Inodes of the table -/

section Live

variable {sb : Superblock} {disk : ℕ → Block} {V : Table} {i j : ℕ}
variable {d : Dinode}

theorem live_of_type (hi : i < sb.ninodes) (ht : (V i).type ≠ 0) :
    live sb V i = V i :=
  if_pos ⟨hi, ht⟩

theorem live_of_free (h : ¬(i < sb.ninodes ∧ (V i).type ≠ 0)) :
    live sb V i = Dinode.zero :=
  if_neg h

/-- A new version of an allocated inode. -/
theorem live_update (hi : i < sb.ninodes) (ht : d.type ≠ 0) :
    live sb (Function.update V i d) = Function.update (live sb V) i d := by
  funext j
  by_cases hj : j = i
  · subst hj
    rw [Function.update_self, live_of_type hi (by rwa [Function.update_self]),
      Function.update_self]
  · rw [Function.update_of_ne hj, live, live, Function.update_of_ne hj]

theorem live_update_of_free (ht : d.type = 0) :
    live sb (Function.update V i d) =
      Function.update (live sb V) i Dinode.zero := by
  funext j
  by_cases hj : j = i
  · subst hj
    rw [Function.update_self, live_of_free]
    rw [Function.update_self]
    exact fun h => h.2 ht
  · rw [Function.update_of_ne hj, live, live, Function.update_of_ne hj]

theorem live_congr {V' : Table} (h : ∀ i < sb.ninodes, V' i = V i) :
    live sb V' = live sb V := by
  funext i
  by_cases hi : i < sb.ninodes
  · rw [live, live, h i hi]
  · rw [live_of_free fun hc => hi hc.1, live_of_free fun hc => hi hc.1]

theorem inodeOf_congr {disk' : ℕ → Block}
    (h : disk' (IBLOCK i sb) = disk (IBLOCK i sb)) :
    inodeOf sb disk' i = inodeOf sb disk i := by
  rw [inodeOf, inodeOf, h]

/-- Storing an inode on disk. -/
theorem inodeOf_update :
    inodeOf sb (Function.update disk (IBLOCK i sb)
      ((disk (IBLOCK i sb)).setDinode (i % IPB) d)) j =
      if j = i then d else inodeOf sb disk j := by
  have hmod : ∀ k : ℕ, k % IPB < IPB := fun k => Nat.mod_lt _ (by decide)
  unfold inodeOf
  by_cases hblk : IBLOCK j sb = IBLOCK i sb
  · rw [hblk, Function.update_self]
    split
    · next h =>
        rw [h]
        exact Block.dinode_setDinode_self (hmod i)
    · next h =>
        apply Block.dinode_setDinode_of_ne
        simp only [IBLOCK, IPB] at hblk ⊢
        omega
  · rw [Function.update_of_ne hblk, if_neg (fun h => hblk (by rw [h]))]

end Live

/-! ## Sound volumes -/

namespace Sound

variable {sb : Superblock} {disk disk' : ℕ → Block} {V V' : Table}
variable {X Y : ℕ → Prop} {i k b : ℕ}

theorem size_lt (h : Sound sb disk V X) : sb.size < 2 ^ 32 := by
  rw [← h.superblock]
  exact ((disk 1).word 0).isLt

theorem nmeta_le (h : Sound sb disk V X) (hk : k < NSLOT)
    (hne : listing sb disk V i k ≠ 0) : nmeta sb ≤ listing sb disk V i k :=
  (h.separate.inside i k hk hne).1

theorem lt_size (h : Sound sb disk V X) (hk : k < NSLOT)
    (hne : listing sb disk V i k ≠ 0) : listing sb disk V i k < sb.size :=
  (h.separate.inside i k hk hne).2

/-- Slots beyond the last one hold no block. -/
theorem slot_beyond {d : Dinode} (hk : NSLOT ≤ k) : d.slot disk k = 0 := by
  have hslot : NSLOT = NDIRECT + 1 + NINDIRECT := rfl
  have hoff : 4 * (k - (NDIRECT + 1)) ≥ BSIZE := by
    simp only [NDIRECT, NINDIRECT] at hslot
    simp only [NDIRECT, BSIZE]
    omega
  have hbyte : ∀ (v : Block) (off : ℕ), BSIZE ≤ off → v.byte off = 0 :=
    fun v off hle => dif_neg (not_lt.mpr hle)
  have hword : ∀ v : Block, v.word (4 * (k - (NDIRECT + 1))) = 0 := by
    intro v
    rw [Block.word, Block.half, Block.half, hbyte _ _ (by omega),
      hbyte _ _ (by omega), hbyte _ _ (by omega), hbyte _ _ (by omega)]
    rfl
  unfold Dinode.slot
  rw [dif_neg (by omega), hword]
  split <;> rfl

/-- A file or directory is not longer than its slots allow. -/
theorem size_le (h : Sound sb disk V X) (hi : i < sb.ninodes)
    (ht : (V i).type ≠ 0) (hdev : (V i).type ≠ T_DEV) :
    (V i).size.toNat ≤ MAXFILE * BSIZE := by
  rw [← blocksOf_le_maxfile]
  by_contra hgt
  refine h.mapped i hi ht hdev MAXFILE (by omega) ?_
  exact slot_beyond (show NSLOT ≤ dataSlot MAXFILE by decide)

theorem mono (h : Sound sb disk V X) (hXY : ∀ b, X b → Y b) :
    Sound sb disk V Y where
  layout := h.layout
  superblock := h.superblock
  separate := h.separate
  bitmap := fun b hb hY => h.bitmap b hb fun hX => hY (hXY b hX)
  mapped := h.mapped

/-- A listed block is marked. -/
theorem bit_of_listed (h : Sound sb disk V X) (hk : k < NSLOT)
    (hne : listing sb disk V i k ≠ 0) (hX : ¬X (listing sb disk V i k)) :
    bmapBit sb disk (listing sb disk V i k) = true :=
  (h.bitmap _ (h.lt_size hk hne) hX).mpr (.inr ⟨i, k, hk, rfl⟩)

/-- An unmarked block is a data block that nobody lists. -/
theorem of_clear (h : Sound sb disk V X) (hb : b < sb.size) (hX : ¬X b)
    (hbit : bmapBit sb disk b = false) :
    nmeta sb ≤ b ∧ ¬(listing sb disk V).Lists b := by
  have hiff := h.bitmap b hb hX
  rw [hbit] at hiff
  constructor
  · by_contra hlt
    exact absurd (hiff.mpr (.inl (by omega))) (by simp)
  · intro hl
    exact absurd (hiff.mpr (.inr hl)) (by simp)

/-- Nothing changes where the blocks that matter are the same. -/
theorem congr (h : Sound sb disk V X)
    (hlist : listing sb disk' V' = listing sb disk V)
    (hone : disk' 1 = disk 1)
    (hbit : ∀ b < sb.size, bmapBit sb disk' b = bmapBit sb disk b)
    (htype : ∀ i < sb.ninodes, (V' i).type ≠ 0 → (V' i).type ≠ T_DEV →
      (V i).type = (V' i).type ∧
        blocksOf (V' i).size.toNat ≤ blocksOf (V i).size.toNat) :
    Sound sb disk' V' X where
  layout := h.layout
  superblock := by rw [hone]; exact h.superblock
  separate := by rw [hlist]; exact h.separate
  bitmap := by
    intro b hb hX
    rw [hbit b hb, hlist]
    exact h.bitmap b hb hX
  mapped := by
    intro i hi ht hdev bn hbn
    obtain ⟨htyp, hle⟩ := htype i hi ht hdev
    rw [hlist]
    exact h.mapped i hi (htyp ▸ ht) (htyp ▸ hdev) bn (by omega)

/-! ### Writing one block -/

/-- A write below the data blocks changes no list. -/
theorem listing_update_meta (h : Sound sb disk V X) {w : ℕ}
    (hw : w < nmeta sb) (x : Block) :
    listing sb (Function.update disk w x) V = listing sb disk V := by
  apply slots_update
  intro i heq
  by_contra hne
  have := h.nmeta_le (i := i) (show NDIRECT < NSLOT by decide) (by
    rw [listing, heq]
    exact hne)
  rw [listing, heq] at this
  omega

/-- Nor does a write to a block that is nobody's indirect block. -/
theorem listing_update_data {w : ℕ}
    (hw : ∀ i, listing sb disk V i NDIRECT ≠ w) (x : Block) :
    listing sb (Function.update disk w x) V = listing sb disk V := by
  apply slots_update
  intro i heq
  exact absurd heq (hw i)

theorem bmapBit_update_of_ne {w : ℕ} (hw : w ≠ BBLOCK b sb) (x : Block) :
    bmapBit sb (Function.update disk w x) b = bmapBit sb disk b := by
  rw [bmapBit, bmapBit, Function.update_of_ne hw.symm]

theorem bmapBit_update_data (h : Layout sb) {w : ℕ} (hw : nmeta sb ≤ w)
    (hb : b < sb.size) (x : Block) :
    bmapBit sb (Function.update disk w x) b = bmapBit sb disk b := by
  apply bmapBit_update_of_ne
  have := h.bblock_lt hb
  omega

theorem inodeOf_update_of_ne {w : ℕ} (hw : w ≠ IBLOCK i sb) (x : Block) :
    inodeOf sb (Function.update disk w x) i = inodeOf sb disk i :=
  inodeOf_congr (Function.update_of_ne hw.symm ..)

/-- The bits after the bit of block `b` has been written. -/
theorem bmapBit_update_bit {f : Bool → Bool} {x : Block}
    (hx : ∀ bj, x.bit bj = if bj = b % BPB then f ((disk (BBLOCK b sb)).bit bj)
      else (disk (BBLOCK b sb)).bit bj) (b' : ℕ) :
    bmapBit sb (Function.update disk (BBLOCK b sb) x) b' =
      if b' = b then f (bmapBit sb disk b) else bmapBit sb disk b' := by
  by_cases hblk : BBLOCK b' sb = BBLOCK b sb
  · have hdiv : b' / BPB = b / BPB := Nat.add_right_cancel hblk
    have hiff : b' % BPB = b % BPB ↔ b' = b := by
      constructor
      · intro hmod
        rw [← Nat.div_add_mod b' BPB, ← Nat.div_add_mod b BPB, hdiv, hmod]
      · intro heq
        rw [heq]
    rw [bmapBit, hblk, Function.update_self, hx]
    by_cases hb : b' = b
    · rw [if_pos (hiff.mpr hb), if_pos hb, bmapBit, hb]
    · rw [if_neg (fun hm => hb (hiff.mp hm)), if_neg hb, bmapBit, hblk]
  · have hb : b' ≠ b := fun heq => hblk (by rw [heq])
    rw [if_neg hb]
    exact bmapBit_update_of_ne (Ne.symm hblk) x

theorem bmapBit_setBit (b' : ℕ) :
    bmapBit sb (Function.update disk (BBLOCK b sb)
      ((disk (BBLOCK b sb)).setBit (b % BPB))) b' =
      (decide (b' = b) || bmapBit sb disk b') := by
  have hlt : b % BPB < BPB := Nat.mod_lt _ (by decide)
  rw [bmapBit_update_bit (f := fun _ => true)]
  · by_cases hb : b' = b
    · rw [if_pos hb, decide_eq_true hb, Bool.true_or]
    · rw [if_neg hb, decide_eq_false hb, Bool.false_or]
  · intro bj
    rw [Block.bit_setBit hlt]
    by_cases hj : bj = b % BPB
    · rw [if_pos hj, decide_eq_true hj, Bool.true_or]
    · rw [if_neg hj, decide_eq_false hj, Bool.false_or]

theorem bmapBit_clearBit (b' : ℕ) :
    bmapBit sb (Function.update disk (BBLOCK b sb)
      ((disk (BBLOCK b sb)).clearBit (b % BPB))) b' =
      (!decide (b' = b) && bmapBit sb disk b') := by
  have hlt : b % BPB < BPB := Nat.mod_lt _ (by decide)
  rw [bmapBit_update_bit (f := fun _ => false)]
  · by_cases hb : b' = b
    · rw [if_pos hb, decide_eq_true hb, Bool.not_true, Bool.false_and]
    · rw [if_neg hb, decide_eq_false hb, Bool.not_false, Bool.true_and]
  · intro bj
    rw [Block.bit_clearBit hlt]
    by_cases hj : bj = b % BPB
    · rw [if_pos hj, decide_eq_true hj, Bool.not_true, Bool.false_and]
    · rw [if_neg hj, decide_eq_false hj, Bool.not_false, Bool.true_and]

/-! ### Allocating and freeing -/

/-- The disk after `balloc` has taken block `b`. -/
def allocDisk (sb : Superblock) (disk : ℕ → Block) (b : ℕ) : ℕ → Block :=
  Function.update
    (Function.update disk (BBLOCK b sb)
      ((disk (BBLOCK b sb)).setBit (b % BPB)))
    b Block.zero

/-- The disk after `bfree` has freed block `b`. -/
def freeDisk (sb : Superblock) (disk : ℕ → Block) (b : ℕ) : ℕ → Block :=
  Function.update disk (BBLOCK b sb)
    ((disk (BBLOCK b sb)).clearBit (b % BPB))

theorem allocDisk_of_ne {w : ℕ} (hw : w ≠ BBLOCK b sb) (hwb : w ≠ b) :
    allocDisk sb disk b w = disk w := by
  rw [allocDisk, Function.update_of_ne hwb, Function.update_of_ne hw]

theorem allocDisk_self : allocDisk sb disk b b = Block.zero :=
  Function.update_self ..

theorem freeDisk_of_ne {w : ℕ} (hw : w ≠ BBLOCK b sb) :
    freeDisk sb disk b w = disk w :=
  Function.update_of_ne hw ..

section Alloc

variable (h : Sound sb disk V X) (hb : b < sb.size) (hX : ¬X b)
variable (hbit : bmapBit sb disk b = false)
include h hb hX hbit

theorem listing_allocDisk :
    listing sb (allocDisk sb disk b) V = listing sb disk V := by
  have hclear := h.of_clear hb hX hbit
  have hfirst := h.listing_update_meta (h.layout.bblock_lt hb)
    ((disk (BBLOCK b sb)).setBit (b % BPB))
  rw [allocDisk, listing_update_data, hfirst]
  intro i heq
  rw [hfirst] at heq
  exact hclear.2 ⟨i, NDIRECT, by decide, heq⟩

theorem bmapBit_allocDisk {b' : ℕ} (hb' : b' < sb.size) :
    bmapBit sb (allocDisk sb disk b) b' =
      (decide (b' = b) || bmapBit sb disk b') := by
  have hclear := h.of_clear hb hX hbit
  rw [allocDisk, bmapBit_update_data h.layout hclear.1 hb', bmapBit_setBit]

theorem alloc : Sound sb (allocDisk sb disk b) V fun x => X x ∨ x = b := by
  have hclear := h.of_clear hb hX hbit
  have hone := h.layout.one_lt_nmeta
  constructor
  · exact h.layout
  · rw [allocDisk_of_ne]
    · exact h.superblock
    · have hle : sb.bmapstart ≤ BBLOCK b sb := Layout.bmapstart_le
      have := h.layout.one_lt_bmapstart
      omega
    · omega
  · rw [listing_allocDisk h hb hX hbit]
    exact h.separate
  · intro b' hb' hX'
    have hne : b' ≠ b := fun heq => hX' (.inr heq)
    rw [bmapBit_allocDisk h hb hX hbit hb', decide_eq_false hne,
      Bool.false_or, listing_allocDisk h hb hX hbit]
    exact h.bitmap b' hb' fun hx => hX' (.inl hx)
  · rw [listing_allocDisk h hb hX hbit]
    exact h.mapped

end Alloc

section Free

variable (h : Sound sb disk V X) (hb : b < sb.size)
include h hb

theorem listing_freeDisk :
    listing sb (freeDisk sb disk b) V = listing sb disk V :=
  h.listing_update_meta (h.layout.bblock_lt hb) _

theorem free : Sound sb (freeDisk sb disk b) V fun x => X x ∨ x = b := by
  constructor
  · exact h.layout
  · rw [freeDisk_of_ne]
    · exact h.superblock
    · have hle : sb.bmapstart ≤ BBLOCK b sb := Layout.bmapstart_le
      have := h.layout.one_lt_bmapstart
      omega
  · rw [listing_freeDisk h hb]
    exact h.separate
  · intro b' hb' hX'
    have hne : b' ≠ b := fun heq => hX' (.inr heq)
    rw [freeDisk, bmapBit_clearBit, decide_eq_false hne, Bool.not_false,
      Bool.true_and, ← freeDisk, listing_freeDisk h hb]
    exact h.bitmap b' hb' fun hx => hX' (.inl hx)
  · rw [listing_freeDisk h hb]
    exact h.mapped

end Free

/-- A marked block that nobody lists is put into an empty slot. -/
theorem assign (h : Sound sb disk V fun x => X x ∨ x = b)
    (hk : k < NSLOT) (hempty : listing sb disk V i k = 0)
    (hb : nmeta sb ≤ b ∧ b < sb.size)
    (hlist : ¬(listing sb disk V).Lists b)
    (hmark : bmapBit sb disk b = true)
    (hslots : listing sb disk' V' = (listing sb disk V).assign i k b)
    (hone : disk' 1 = disk 1)
    (hbit : ∀ b < sb.size, bmapBit sb disk' b = bmapBit sb disk b)
    (htype : ∀ i < sb.ninodes, (V' i).type = (V i).type ∧
      (V' i).size = (V i).size) :
    Sound sb disk' V' X := by
  have hpos : b ≠ 0 := by
    have := h.layout.one_lt_nmeta
    omega
  have hlists : ∀ b', b' ≠ 0 → ((listing sb disk' V').Lists b' ↔
      b' = b ∨ (listing sb disk V).Lists b') := by
    intro b' hb'
    rw [hslots]
    constructor
    · rintro ⟨i', k', hk', heq⟩
      by_cases hs : i' = i ∧ k' = k
      · rw [Slots.assign, if_pos hs] at heq
        exact .inl heq.symm
      · rw [Slots.assign, if_neg hs] at heq
        exact .inr ⟨i', k', hk', heq⟩
    · rintro (rfl | ⟨i', k', hk', heq⟩)
      · exact ⟨i, k, hk, Slots.assign_self⟩
      · refine ⟨i', k', hk', ?_⟩
        rw [Slots.assign, if_neg, heq]
        rintro ⟨rfl, rfl⟩
        exact hb' (heq.symm.trans hempty)
  constructor
  · exact h.layout
  · rw [hone]
    exact h.superblock
  · rw [hslots]
    exact h.separate.assign hlist hb
  · intro b' hb' hX
    rw [hbit b' hb']
    by_cases hbb : b' = b
    · subst hbb
      rw [hmark]
      simp only [true_iff]
      exact .inr ((hlists b' hpos).mpr (.inl rfl))
    · rw [h.bitmap b' hb' (fun hc => hc.elim hX hbb)]
      by_cases hzero : b' = 0
      · have := h.layout.one_lt_nmeta
        exact iff_of_true (.inl (by omega)) (.inl (by omega))
      · rw [hlists b' hzero]
        simp only [hbb, false_or]
  · intro i' hi' ht hdev bn hbn
    rw [(htype i' hi').1] at ht hdev
    rw [(htype i' hi').2] at hbn
    rw [hslots]
    by_cases hs : i' = i ∧ dataSlot bn = k
    · rw [Slots.assign, if_pos hs]
      exact hpos
    · rw [Slots.assign, if_neg hs]
      exact h.mapped i' hi' ht hdev bn hbn

/-- The slots `R` of inode `i`, whose blocks have been freed, are cleared. -/
theorem unlist (h : Sound sb disk V X) {R : ℕ → Prop}
    (hlist : ∀ i' k', listing sb disk' V' i' k' = listing sb disk V i' k' ∨
      i' = i ∧ R k' ∧ listing sb disk' V' i' k' = 0)
    (hgone : ∀ k, R k → listing sb disk' V' i k = 0)
    (hR : ∀ k < NSLOT, R k → listing sb disk V i k ≠ 0 →
      X (listing sb disk V i k))
    (hX : ∀ b, ¬Y b → X b → b ≠ 0 ∧ bmapBit sb disk b = false ∧
      ∃ k < NSLOT, R k ∧ listing sb disk V i k = b)
    (hone : disk' 1 = disk 1)
    (hbit : ∀ b < sb.size, bmapBit sb disk' b = bmapBit sb disk b)
    (htype : ∀ i < sb.ninodes, (V' i).type = (V i).type ∧
      (V' i).size = (V i).size) (hsize : (V i).size = 0) :
    Sound sb disk' V' Y := by
  have hkept : ∀ i' k', listing sb disk' V' i' k' ≠ 0 →
      listing sb disk' V' i' k' = listing sb disk V i' k' := by
    intro i' k' hne
    rcases hlist i' k' with heq | ⟨-, -, hzero⟩
    · exact heq
    · exact absurd hzero hne
  constructor
  · exact h.layout
  · rw [hone]
    exact h.superblock
  · constructor
    · intro i' k' hk' hne
      have heq := hkept i' k' hne
      rw [heq] at hne ⊢
      exact h.separate.inside i' k' hk' hne
    · intro i₁ k₁ i₂ k₂ hk₁ hk₂ hne heq
      have hne' : listing sb disk' V' i₂ k₂ ≠ 0 := heq ▸ hne
      have h₁ := hkept i₁ k₁ hne
      have h₂ := hkept i₂ k₂ hne'
      rw [h₁] at hne heq
      rw [h₂] at heq
      exact h.separate.inj i₁ k₁ i₂ k₂ hk₁ hk₂ hne heq
  · intro b hb hY
    have hpos := h.layout.one_lt_nmeta
    rw [hbit b hb]
    by_cases hXb : X b
    · obtain ⟨hb0, hclear, k, hk, hRk, heq⟩ := hX b hY hXb
      rw [hclear]
      refine iff_of_false (by simp) ?_
      rintro (hlt | ⟨i', k', hk', heq'⟩)
      · have := h.nmeta_le hk (by rw [heq]; exact hb0)
        omega
      · have hne' : listing sb disk' V' i' k' ≠ 0 := heq' ▸ hb0
        have hold := (hkept i' k' hne').symm.trans heq'
        obtain ⟨rfl, rfl⟩ := h.separate.inj i k i' k' hk hk'
          (by
            rw [heq]
            exact hb0)
          (heq.trans hold.symm)
        exact hne' (hgone k hRk)
    · rw [h.bitmap b hb hXb]
      by_cases hb0 : b = 0
      · exact iff_of_true (.inl (by omega)) (.inl (by omega))
      · refine or_congr Iff.rfl ⟨?_, ?_⟩
        · rintro ⟨i', k', hk', heq⟩
          refine ⟨i', k', hk', ?_⟩
          rcases hlist i' k' with hsame | ⟨rfl, hRk, -⟩
          · exact hsame.trans heq
          · change listing sb disk V i' k' = b at heq
            exact absurd (heq ▸ hR k' hk' hRk (heq ▸ hb0)) hXb
        · rintro ⟨i', k', hk', heq⟩
          exact ⟨i', k', hk', (hkept i' k' (by
            rw [heq]
            exact hb0)).symm.trans heq⟩
  · intro i' hi' ht hdev bn hbn
    rw [(htype i' hi').1] at ht hdev
    rw [(htype i' hi').2] at hbn
    rcases hlist i' (dataSlot bn) with heq | ⟨rfl, -, -⟩
    · rw [heq]
      exact h.mapped i' hi' ht hdev bn hbn
    · have h0 : blocksOf (0 : BitVec 32).toNat = 0 := by decide
      rw [hsize, h0] at hbn
      omega

end Sound

end ZtlOs.Kernel
