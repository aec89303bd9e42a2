import ZtlOs.Fs.Layout
import ZtlOs.Support.Cursor

/-!
# Where the content of an inode lies

An inode lists its blocks in slots: the direct blocks, the indirect block and
the entries of the indirect block.  A slot without a block holds zero.
-/

namespace ZtlOs.Fs

/-- The slot of the indirect block. -/
def indirectSlot : Fin (NDIRECT + 1) :=
  Fin.last NDIRECT

/-- The number of slots of an inode. -/
def NSLOT : ℕ := NDIRECT + 1 + NINDIRECT

/-- The block number in slot `k` of an inode. -/
def Dinode.slot (disk : ℕ → Block) (d : Dinode) (k : ℕ) : ℕ :=
  if h : k < NDIRECT + 1 then (d.addrs ⟨k, h⟩).toNat
  else if d.addrs indirectSlot = 0 then 0
  else ((disk (d.addrs indirectSlot).toNat).word
    (4 * (k - (NDIRECT + 1)))).toNat

/-- The slot of the block with index `bn` in the content. -/
def dataSlot (bn : ℕ) : ℕ :=
  if bn < NDIRECT then bn else bn + 1

/-- The block with index `bn` in the content of an inode. -/
def Dinode.block (disk : ℕ → Block) (d : Dinode) (bn : ℕ) : ℕ :=
  d.slot disk (dataSlot bn)

/-- The byte at an offset of the content of an inode. -/
def Dinode.byteAt (disk : ℕ → Block) (d : Dinode) (off : ℕ) : BitVec 8 :=
  (disk (d.block disk (off / BSIZE))).byte (off % BSIZE)

/-- The number of blocks that a content of `size` bytes takes. -/
def blocksOf (size : ℕ) : ℕ :=
  (size + (BSIZE - 1)) / BSIZE

theorem dataSlot_injective {bn bn' : ℕ} (h : dataSlot bn = dataSlot bn') :
    bn = bn' := by
  unfold dataSlot at h
  split at h <;> split at h <;> omega

theorem dataSlot_ne_indirect (bn : ℕ) : dataSlot bn ≠ NDIRECT := by
  unfold dataSlot
  split <;> omega

theorem dataSlot_lt {bn : ℕ} (h : bn < MAXFILE) : dataSlot bn < NSLOT := by
  have hmax : MAXFILE = NDIRECT + NINDIRECT := rfl
  have hslot : NSLOT = NDIRECT + 1 + NINDIRECT := rfl
  unfold dataSlot
  split <;> omega

theorem lt_blocksOf {bn size : ℕ} : bn < blocksOf size ↔ bn * BSIZE < size := by
  simp only [blocksOf, BSIZE]
  omega

theorem div_lt_blocksOf {off size : ℕ} (h : off < size) :
    off / BSIZE < blocksOf size := by
  rw [lt_blocksOf]
  exact lt_of_le_of_lt (Nat.div_mul_le_self off BSIZE) h

theorem blocksOf_mono {n m : ℕ} (h : n ≤ m) : blocksOf n ≤ blocksOf m :=
  Nat.div_le_div_right (Nat.add_le_add_right h _)

theorem blocksOf_le_maxfile {size : ℕ} :
    blocksOf size ≤ MAXFILE ↔ size ≤ MAXFILE * BSIZE := by
  simp only [blocksOf, BSIZE, MAXFILE, NDIRECT, NINDIRECT]
  omega

namespace Dinode

variable {disk disk' : ℕ → Block} {d : Dinode} {k k' : ℕ} {v : BitVec 32}

theorem slot_direct (h : k < NDIRECT + 1) :
    d.slot disk k = (d.addrs ⟨k, h⟩).toNat :=
  dif_pos h

theorem slot_indirectSlot :
    d.slot disk NDIRECT = (d.addrs indirectSlot).toNat :=
  slot_direct (Nat.lt_succ_self _)

theorem slot_entry (h : d.addrs indirectSlot ≠ 0) (j : ℕ) :
    d.slot disk (NDIRECT + 1 + j) =
      ((disk (d.slot disk NDIRECT)).word (4 * j)).toNat := by
  rw [slot_indirectSlot, slot, dif_neg (by omega), if_neg h,
    Nat.add_sub_cancel_left]

theorem slot_entry_none (h : d.addrs indirectSlot = 0) (j : ℕ) :
    d.slot disk (NDIRECT + 1 + j) = 0 := by
  rw [slot, dif_neg (by omega), if_pos h]

theorem addrs_indirectSlot_eq_zero :
    d.addrs indirectSlot = 0 ↔ d.slot disk NDIRECT = 0 := by
  rw [slot_indirectSlot]
  constructor
  · intro h
    rw [h]
    rfl
  · intro h
    exact BitVec.eq_of_toNat_eq h

/-- The slots depend on the indirect block only. -/
theorem slot_congr (h : d.slot disk NDIRECT ≠ 0 →
      disk' (d.slot disk NDIRECT) = disk (d.slot disk NDIRECT)) :
    d.slot disk' k = d.slot disk k := by
  by_cases hk : k < NDIRECT + 1
  · rw [slot_direct hk, slot_direct hk]
  · by_cases hind : d.addrs indirectSlot = 0
    · rw [slot, dif_neg hk, if_pos hind, slot, dif_neg hk, if_pos hind]
    · rw [slot_indirectSlot] at h
      rw [slot, dif_neg hk, if_neg hind, slot, dif_neg hk, if_neg hind,
        h (fun h0 => hind (BitVec.eq_of_toNat_eq h0))]

theorem slot_zero : Dinode.zero.slot disk k = 0 := by
  unfold slot
  split
  · rfl
  · exact if_pos rfl

/-- The slots depend on the addresses only. -/
theorem slot_addrs {d' : Dinode} (h : d'.addrs = d.addrs) :
    d'.slot disk k = d.slot disk k := by
  unfold slot
  rw [h]

/-- The inode with the address `v` at index `k`. -/
def setAddr (d : Dinode) (k : Fin (NDIRECT + 1)) (v : BitVec 32) : Dinode :=
  { d with addrs := fun l => if l = k then v else d.addrs l }

@[simp] theorem addrs_setAddr_self {k : Fin (NDIRECT + 1)} :
    (d.setAddr k v).addrs k = v :=
  if_pos rfl

theorem slot_setAddr_direct {k : Fin (NDIRECT + 1)} (hk : k.val < NDIRECT) :
    (d.setAddr k v).slot disk k' =
      if k' = k.val then v.toNat else d.slot disk k' := by
  have hne : indirectSlot ≠ k := by
    intro h
    have := congrArg Fin.val h
    simp only [indirectSlot, Fin.val_last] at this
    omega
  by_cases hk' : k' < NDIRECT + 1
  · rw [slot_direct hk', slot_direct hk', setAddr]
    simp only [Fin.ext_iff]
    split <;> rfl
  · have hind : (d.setAddr k v).addrs indirectSlot = d.addrs indirectSlot :=
      if_neg hne
    rw [if_neg (by omega), slot, dif_neg hk', hind, slot, dif_neg hk']

/-- A new indirect block must be zero, so that its entries hold no block. -/
theorem slot_setAddr_indirect (hd : d.slot disk NDIRECT = 0)
    (hv : disk v.toNat = Block.zero) :
    (d.setAddr indirectSlot v).slot disk k' =
      if k' = NDIRECT then v.toNat else d.slot disk k' := by
  by_cases hk' : k' < NDIRECT + 1
  · rw [slot_direct hk', slot_direct hk', setAddr]
    simp only [Fin.ext_iff, indirectSlot, Fin.val_last]
    split <;> rfl
  · have hind : (d.setAddr indirectSlot v).addrs indirectSlot = v :=
      addrs_setAddr_self
    have hnone : d.addrs indirectSlot = 0 :=
      addrs_indirectSlot_eq_zero.mpr hd
    rw [if_neg (by omega), slot, dif_neg hk', hind, slot, dif_neg hk',
      if_pos hnone, hv, Block.word_zero]
    split <;> rfl

/-- Storing an address in the indirect block. -/
theorem slot_setEntry (hd : d.slot disk NDIRECT ≠ 0) {j : ℕ}
    (hj : j < NINDIRECT)
    (hdisk : disk' (d.slot disk NDIRECT) =
      (disk (d.slot disk NDIRECT)).setWord (4 * j) v) :
    d.slot disk' k' =
      if k' = NDIRECT + 1 + j then v.toNat else d.slot disk k' := by
  have hnone : d.addrs indirectSlot ≠ 0 := fun h =>
    hd (addrs_indirectSlot_eq_zero.mp h)
  have hlt : 4 * j + 3 < BSIZE := by
    simp only [NINDIRECT] at hj
    simp only [BSIZE]
    omega
  by_cases hdir : k' < NDIRECT + 1
  · rw [if_neg (by omega), slot_direct hdir, slot_direct hdir]
  · rw [slot_indirectSlot] at hdisk
    rw [slot, dif_neg hdir, if_neg hnone, hdisk]
    split
    · next h =>
        rw [h, Nat.add_sub_cancel_left, Block.word_setWord_self hlt]
    · next h =>
        rw [Block.word_setWord_of_disjoint (by omega), slot, dif_neg hdir,
          if_neg hnone]

end Dinode

/-! ## Bytes of a content given by its blocks -/

section ContentOf

open ZtlOs.Support.Sequence

/-- The byte at an offset of the content that these blocks make up. -/
def contentOf (block : ℕ → Block) (k : ℕ) : BitVec 8 :=
  (block (k / BSIZE)).byte (k % BSIZE)

variable {block : ℕ → Block} {off m : ℕ} {xs : List (BitVec 8)}

/-- Copying into one block lays the bytes over the content. -/
theorem contentOf_put (h : off % BSIZE + xs.length ≤ BSIZE) :
    contentOf (Function.update block (off / BSIZE)
      ((block (off / BSIZE)).put (off % BSIZE) xs)) =
      overlay (contentOf block) off xs := by
  have hB : 0 < BSIZE := by decide
  have hoff := Nat.div_add_mod off BSIZE
  funext k
  have hk := Nat.div_add_mod k BSIZE
  have hmod := Nat.mod_lt k hB
  by_cases hblock : k / BSIZE = off / BSIZE
  · rw [hblock] at hk
    rw [contentOf, hblock, Function.update_self]
    by_cases hin : off ≤ k ∧ k < off + xs.length
    · obtain ⟨j, rfl⟩ := Nat.exists_eq_add_of_le hin.1
      have hj : (off + j) % BSIZE = off % BSIZE + j := by omega
      rw [hj, Block.byte_put_of_mem (by omega) (by omega),
        overlay_add (by omega)]
    · rw [Block.byte_put_of_not_mem (by omega)]
      by_cases hlt : k < off
      · rw [overlay_of_lt hlt, contentOf, hblock]
      · rw [overlay_of_le (by omega), contentOf, hblock]
  · rw [contentOf, Function.update_of_ne hblock]
    by_cases hlt : k < off
    · rw [overlay_of_lt hlt, contentOf]
    · have : off / BSIZE + 1 ≤ k / BSIZE := by
        have := Nat.div_le_div_right (Nat.not_lt.mp hlt) (c := BSIZE)
        omega
      have := Nat.mul_le_mul_left BSIZE this
      rw [Nat.mul_add] at this
      rw [overlay_of_le (by omega), contentOf]

/-- Copying out of one block takes a part of the content. -/
theorem get_eq_slice (h : off % BSIZE + m ≤ BSIZE) :
    (block (off / BSIZE)).get (off % BSIZE) m =
      slice (contentOf block) off m := by
  apply List.map_congr_left
  intro j hj
  have := List.mem_range.mp hj
  have hdiv : (off + j) / BSIZE = off / BSIZE := by
    simp only [BSIZE] at *
    omega
  have hmod : (off + j) % BSIZE = off % BSIZE + j := by
    simp only [BSIZE] at *
    omega
  rw [contentOf, hdiv, hmod]

end ContentOf

/-! ## Who owns a block -/

/-- The block numbers in all slots of all inodes. -/
abbrev Slots := ℕ → ℕ → ℕ

namespace Slots

/-- The block `b` is listed. -/
def Lists (f : Slots) (b : ℕ) : Prop :=
  ∃ i k, k < NSLOT ∧ f i k = b

/-- Slot `k` of inode `i` now holds `b`. -/
def assign (f : Slots) (i k b : ℕ) : Slots :=
  fun i' k' => if i' = i ∧ k' = k then b else f i' k'

/-- No block is listed twice, and all listed blocks satisfy `D`. -/
structure Separate (f : Slots) (D : ℕ → Prop) : Prop where
  inside : ∀ i k, k < NSLOT → f i k ≠ 0 → D (f i k)
  inj : ∀ i k i' k', k < NSLOT → k' < NSLOT → f i k ≠ 0 →
    f i k = f i' k' → i = i' ∧ k = k'

variable {f : Slots} {D D' : ℕ → Prop} {i k b : ℕ}

theorem assign_self : f.assign i k b i k = b :=
  if_pos ⟨rfl, rfl⟩

theorem assign_of_ne {i' k' : ℕ} (h : i' ≠ i ∨ k' ≠ k) :
    f.assign i k b i' k' = f i' k' := by
  apply if_neg
  rintro ⟨h₁, h₂⟩
  rcases h with h | h
  · exact h h₁
  · exact h h₂

theorem Separate.mono (h : f.Separate D) (hD : ∀ b, D b → D' b) :
    f.Separate D' where
  inside := fun i k hk hne => hD _ (h.inside i k hk hne)
  inj := h.inj

/-- A block that was not listed may be put into a slot. -/
theorem Separate.assign (h : f.Separate D) (hb : ¬f.Lists b) (hD : D b) :
    (f.assign i k b).Separate D where
  inside := by
    intro i' k' hk' hne
    by_cases heq : i' = i ∧ k' = k
    · rw [Slots.assign, if_pos heq]
      exact hD
    · rw [Slots.assign, if_neg heq] at hne ⊢
      exact h.inside i' k' hk' hne
  inj := by
    intro i₁ k₁ i₂ k₂ hk₁ hk₂ hne heq
    unfold Slots.assign at hne heq
    split at heq
    · next h₁ =>
        split at heq
        · next h₂ => exact ⟨h₁.1.trans h₂.1.symm, h₁.2.trans h₂.2.symm⟩
        · exact absurd ⟨i₂, k₂, hk₂, heq.symm⟩ hb
    · next h₁ =>
        rw [if_neg h₁] at hne
        split at heq
        · exact absurd ⟨i₁, k₁, hk₁, heq⟩ hb
        · exact h.inj i₁ k₁ i₂ k₂ hk₁ hk₂ hne heq

end Slots

/-- The slots of all inodes, where `view i` is inode `i`. -/
def slots (disk : ℕ → Block) (view : ℕ → Dinode) : Slots :=
  fun i k => (view i).slot disk k

section

variable {disk : ℕ → Block} {view : ℕ → Dinode} {D : ℕ → Prop} {i : ℕ}
variable {v : BitVec 32}

theorem byteAt_eq (disk : ℕ → Block) (view : ℕ → Dinode) (i off : ℕ) :
    (view i).byteAt disk off =
      (disk (slots disk view i (dataSlot (off / BSIZE)))).byte (off % BSIZE) :=
  rfl

theorem slots_setAddr_direct {k : Fin (NDIRECT + 1)} (hk : k.val < NDIRECT) :
    slots disk (Function.update view i ((view i).setAddr k v)) =
      (slots disk view).assign i k.val v.toNat := by
  funext i' k'
  by_cases hi : i' = i
  · subst hi
    rw [slots, Function.update_self, Dinode.slot_setAddr_direct hk]
    simp only [Slots.assign, true_and, slots]
  · rw [slots, Function.update_of_ne hi, Slots.assign_of_ne (.inl hi), slots]

theorem slots_setAddr_indirect (hd : slots disk view i NDIRECT = 0)
    (hv : disk v.toNat = Block.zero) :
    slots disk (Function.update view i ((view i).setAddr indirectSlot v)) =
      (slots disk view).assign i NDIRECT v.toNat := by
  funext i' k'
  by_cases hi : i' = i
  · subst hi
    rw [slots, Function.update_self, Dinode.slot_setAddr_indirect hd hv]
    simp only [Slots.assign, true_and, slots]
  · rw [slots, Function.update_of_ne hi, Slots.assign_of_ne (.inl hi), slots]

/-- An address stored in the indirect block of `i` changes a slot of `i`
only. -/
theorem slots_setEntry (h : (slots disk view).Separate D)
    (hd : slots disk view i NDIRECT ≠ 0) {j : ℕ} (hj : j < NINDIRECT) :
    slots (Function.update disk (slots disk view i NDIRECT)
      ((disk (slots disk view i NDIRECT)).setWord (4 * j) v)) view =
      (slots disk view).assign i (NDIRECT + 1 + j) v.toNat := by
  have hind : NDIRECT < NSLOT := by decide
  funext i' k'
  by_cases hi : i' = i
  · subst hi
    refine (Dinode.slot_setEntry hd hj (Function.update_self ..)).trans ?_
    simp only [Slots.assign, true_and]
    rfl
  · rw [Slots.assign_of_ne (.inl hi), slots, slots]
    apply Dinode.slot_congr
    intro hne
    rw [Function.update_of_ne]
    intro heq
    exact hi (h.inj i' NDIRECT i NDIRECT hind hind hne heq).1

/-- Writing a block that is nobody's indirect block leaves the slots alone. -/
theorem slots_update {b : ℕ} {x : Block}
    (h : ∀ i, slots disk view i NDIRECT = b → b = 0) :
    slots (Function.update disk b x) view = slots disk view := by
  funext i k
  apply Dinode.slot_congr
  intro hne
  rw [Function.update_of_ne]
  intro heq
  exact hne (heq.trans (h i heq))

/-- A data block is nobody's indirect block. -/
theorem Slots.Separate.ne_indirect (h : (slots disk view).Separate D) {bn : ℕ}
    (hbn : bn < MAXFILE) (hne : slots disk view i (dataSlot bn) ≠ 0) (i' : ℕ) :
    slots disk view i' NDIRECT ≠ slots disk view i (dataSlot bn) := by
  intro heq
  have := (h.inj i (dataSlot bn) i' NDIRECT (dataSlot_lt hbn) (by decide) hne
    heq.symm).2
  exact dataSlot_ne_indirect bn this

end

end ZtlOs.Fs
