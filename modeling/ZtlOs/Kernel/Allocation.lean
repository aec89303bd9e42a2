import ZtlOs.Kernel.Reading
import Mathlib.Data.Finset.Card

/-!
# Allocating blocks

`balloc` takes the first free block of the volume.  `bmap` puts the blocks that
it takes into empty slots of one inode: the volume stays sound, and everything
that other inodes list or hold stays as it is.
-/

namespace ZtlOs.Kernel

open ZtlOs.Support ZtlOs.Support.Program ZtlOs.Fs

variable {P : Type} {s : State P} {E : Stop → Prop}

/-! ## The first free block -/

/-- Block `b` is the first one of the volume whose bit is clear. -/
structure FirstFree (sb : Superblock) (disk : ℕ → Block) (b : ℕ) : Prop where
  lt : b < sb.size
  clear : bmapBit sb disk b = false
  first : ∀ b' < b, bmapBit sb disk b' = true

/-- No block of the volume is free. -/
def Full (sb : Superblock) (disk : ℕ → Block) : Prop :=
  ∀ b < sb.size, bmapBit sb disk b = true

/-- Zero a block whose buffer is not locked. -/
theorem bzero_sat {b : ℕ} (hb : b ∉ s.bufs) :
    Sat (bzero b) s (fun _ t =>
      ∃ tr, t = { s.setDisk b Block.zero with trace := tr }) E := by
  refine bread_bind (fun hmem => absurd hmem hb) ?_
  apply logWrite_bind
  refine Sat.modify
    ⟨.brelse b :: .logWrite b :: .bread b :: s.trace, ?_⟩
  simp only [State.emit, State.setDisk, List.erase_cons_head]

/-- The bit of a block in the bitmap block for `b`. -/
theorem bmapBit_add (sb : Superblock) (disk : ℕ → Block) {b bi : ℕ}
    (hb : b % BPB = 0) (hbi : bi < BPB) :
    BBLOCK (b + bi) sb = BBLOCK b sb ∧ (b + bi) % BPB = bi ∧
      bmapBit sb disk (b + bi) = (disk (BBLOCK b sb)).bit bi := by
  have hblock : BBLOCK (b + bi) sb = BBLOCK b sb := by
    simp only [BBLOCK, BPB, BSIZE] at *
    omega
  have hmod : (b + bi) % BPB = bi := by
    simp only [BPB, BSIZE] at *
    omega
  exact ⟨hblock, hmod, by rw [bmapBit, hblock, hmod]⟩

theorem ballocLoop_sat {n b : ℕ} (hb : b % BPB = 0)
    (hn : n = (s.sb.size - b + (BPB - 1)) / BPB)
    (hlow : ∀ b' < b, b' < s.sb.size → bmapBit s.sb s.disk b' = true)
    (hbitmap : ∀ w ∈ s.bufs, ∀ b < s.sb.size, w ≠ BBLOCK b s.sb)
    (hused : ∀ w ∈ s.bufs, bmapBit s.sb s.disk w = true)
    (hE : Full s.sb s.disk → E (.panic "balloc: out of blocks")) :
    Sat (ballocLoop n b) s (fun r t => FirstFree s.sb s.disk r ∧
      ∃ tr, t = { s with disk := Sound.allocDisk s.sb s.disk r, trace := tr })
      E := by
  induction n generalizing s b with
  | zero =>
      refine Sat.throw (hE fun b' hb' => hlow b' ?_ hb')
      simp only [BPB, BSIZE] at hn
      omega
  | succ n ih =>
      have hlt : b < s.sb.size := by
        simp only [BPB, BSIZE] at hn
        omega
      refine .bind (Sat.get ?_)
      apply bread_bind fun hmem => absurd rfl (hbitmap _ hmem b hlt)
      cases hfirst : firstClear (s.disk (BBLOCK b s.sb))
          (min BPB (s.sb.size - b)) with
      | some bi =>
          rw [firstClear, List.find?_range_eq_some] at hfirst
          obtain ⟨hclear, hmem, hbefore⟩ := hfirst
          have hbi := List.mem_range.mp hmem
          obtain ⟨hblock, hmod, hbit⟩ :=
            bmapBit_add s.sb s.disk hb
              (lt_of_lt_of_le hbi (Nat.min_le_left ..))
          have hfree : FirstFree s.sb s.disk (b + bi) := by
            constructor
            · omega
            · rw [hbit]
              simpa using hclear
            · intro b' hb'
              by_cases hlow' : b' < b
              · exact hlow b' hlow' (by omega)
              · obtain ⟨j, rfl⟩ := Nat.exists_eq_add_of_le (not_lt.mp hlow')
                rw [(bmapBit_add s.sb s.disk hb (by omega)).2.2]
                simpa using hbefore j (by omega)
          apply logWrite_bind
          apply brelse_bind
          refine (bzero_sat ?_).andThen ?_
          · intro hmem
            have hmem' : b + bi ∈ s.bufs := by
              simpa [State.emit, State.setDisk] using hmem
            have := hused _ hmem'
            rw [hfree.clear] at this
            cases this
          · rintro - _ ⟨tr, rfl⟩
            refine Sat.pure ⟨hfree, tr, ?_⟩
            rw [Sound.allocDisk, hblock, hmod]
            simp only [State.emit, State.setDisk, List.erase_cons_head]
      | none =>
          rw [firstClear, List.find?_eq_none] at hfirst
          apply brelse_bind
          simp only [State.emit, List.erase_cons_head]
          refine ih (s := { s with
            trace := .brelse (BBLOCK b s.sb) :: .bread (BBLOCK b s.sb) ::
              s.trace }) ?_ ?_ ?_ hbitmap hused hE
          · simp only [BPB, BSIZE] at hb ⊢
            omega
          · simp only [BPB, BSIZE] at hn ⊢
            omega
          · intro b' hb' hsize
            by_cases hlow' : b' < b
            · exact hlow b' hlow' hsize
            · obtain ⟨j, rfl⟩ := Nat.exists_eq_add_of_le (not_lt.mp hlow')
              have hsize' : b + j < s.sb.size := hsize
              have := hfirst j (List.mem_range.mpr (by omega))
              rw [(bmapBit_add s.sb s.disk hb (by omega)).2.2]
              simpa using this

/-- `balloc` takes the first free block and zeroes it. -/
theorem balloc_sat
    (hbitmap : ∀ w ∈ s.bufs, ∀ b < s.sb.size, w ≠ BBLOCK b s.sb)
    (hused : ∀ w ∈ s.bufs, bmapBit s.sb s.disk w = true)
    (hE : Full s.sb s.disk → E (.panic "balloc: out of blocks")) :
    Sat balloc s (fun r t => FirstFree s.sb s.disk r ∧
      ∃ tr, t = { s with disk := Sound.allocDisk s.sb s.disk r, trace := tr })
      E := by
  refine .bind (Sat.get ?_)
  apply ballocLoop_sat (Nat.zero_mod _) rfl _ hbitmap hused hE
  intro b' hb'
  exact absurd hb' (Nat.not_lt_zero b')

/-! ## Counting blocks -/

section Counting

variable {sb : Superblock} {disk disk' : ℕ → Block} {V : Table} {i b k : ℕ}
variable {d' : Dinode} {R T : Finset ℕ} {W : Prop}

/-- The number of free blocks of a volume. -/
def freeBlocks (sb : Superblock) (disk : ℕ → Block) : ℕ :=
  ((Finset.range sb.size).filter fun b => bmapBit sb disk b = false).card

/-- The number of slots in `R` for which inode `i` has no block. -/
def missing (f : Slots) (i : ℕ) (R : Finset ℕ) : ℕ :=
  (R.filter fun k => f i k = 0).card

theorem Full.freeBlocks_eq_zero (h : Full sb disk) : freeBlocks sb disk = 0 := by
  rw [freeBlocks, Finset.card_eq_zero, Finset.filter_eq_empty_iff]
  intro b hb
  rw [h b (Finset.mem_range.mp hb)]
  decide

theorem freeBlocks_congr
    (h : ∀ b < sb.size, bmapBit sb disk' b = bmapBit sb disk b) :
    freeBlocks sb disk' = freeBlocks sb disk := by
  rw [freeBlocks, freeBlocks]
  congr 1
  apply Finset.filter_congr
  intro b hb
  rw [h b (Finset.mem_range.mp hb)]

/-- A block that has been marked is one free block less. -/
theorem freeBlocks_mark (hb : b < sb.size) (hclear : bmapBit sb disk b = false)
    (h : ∀ b' < sb.size, bmapBit sb disk' b' =
      (decide (b' = b) || bmapBit sb disk b')) :
    freeBlocks sb disk' + 1 = freeBlocks sb disk := by
  have herase : (Finset.range sb.size).filter
        (fun b' => bmapBit sb disk' b' = false) =
      ((Finset.range sb.size).filter
        fun b' => bmapBit sb disk b' = false).erase b := by
    ext b'
    rw [Finset.mem_erase, Finset.mem_filter, Finset.mem_filter,
      Finset.mem_range]
    constructor
    · rintro ⟨hlt, hbit⟩
      rw [h b' hlt, Bool.or_eq_false_iff, decide_eq_false_iff_not] at hbit
      exact ⟨hbit.1, hlt, hbit.2⟩
    · rintro ⟨hne, hlt, hbit⟩
      refine ⟨hlt, ?_⟩
      rw [h b' hlt, hbit, decide_eq_false hne]
      rfl
  have hmem : b ∈ (Finset.range sb.size).filter
      fun b' => bmapBit sb disk b' = false :=
    Finset.mem_filter.mpr ⟨Finset.mem_range.mpr hb, hclear⟩
  rw [freeBlocks, freeBlocks, herase, Finset.card_erase_add_one hmem]

theorem missing_mono (h : R ⊆ T) (f : Slots) :
    missing f i R ≤ missing f i T :=
  Finset.card_le_card (Finset.filter_subset_filter _ h)

theorem missing_eq_zero {f : Slots} (h : ∀ k ∈ R, f i k ≠ 0) :
    missing f i R = 0 := by
  rw [missing, Finset.card_eq_zero, Finset.filter_eq_empty_iff]
  exact h

theorem missing_pos {f : Slots} (hk : k ∈ R) (h : f i k = 0) :
    0 < missing f i R :=
  Finset.card_pos.mpr ⟨k, Finset.mem_filter.mpr ⟨hk, h⟩⟩

theorem missing_singleton {f : Slots} (h : f i k = 0) :
    missing f i {k} = 1 := by
  rw [missing, Finset.filter_singleton, if_pos h, Finset.card_singleton]

/-- The slots outside `R` count the same where they are the same. -/
theorem missing_sdiff {f g : Slots} (hR : R ⊆ T)
    (h : ∀ k ∉ R, g i k = f i k) :
    missing g i T + missing f i R = missing f i T + missing g i R := by
  have hsplit : ∀ f : Slots,
      missing f i T = missing f i (T \ R) + missing f i R := by
    intro f
    rw [missing, missing, missing, ← Finset.card_union_of_disjoint,
      ← Finset.filter_union, Finset.sdiff_union_of_subset hR]
    exact Finset.disjoint_filter_filter Finset.sdiff_disjoint
  have hsame : missing g i (T \ R) = missing f i (T \ R) := by
    rw [missing, missing]
    congr 1
    apply Finset.filter_congr
    intro k hk
    rw [h k (Finset.mem_sdiff.mp hk).2]
  rw [hsplit f, hsplit g, hsame]
  omega

end Counting

/-! ## What an inode has got -/

/-- The volume is sound, for all blocks. -/
abbrev Owned (sb : Superblock) (disk : ℕ → Block) (V : Table) : Prop :=
  Sound sb disk V fun _ => False

/-- The number of a block fits into an address. -/
theorem Sound.toNat_ofNat {sb : Superblock} {disk : ℕ → Block} {V : Table}
    {X : ℕ → Prop} {b : ℕ} (h : Sound sb disk V X) (hb : b < sb.size) :
    (BitVec.ofNat 32 b).toNat = b := by
  rw [BitVec.toNat_ofNat]
  exact Nat.mod_eq_of_lt (lt_trans hb h.size_lt)

/-- Inode `i`, now `d'`, has got blocks for some of its slots in `R`, and its
content may have been written if `W`.  The rest of the volume is as it was. -/
structure Extends (sb : Superblock) (i : ℕ) (R : Finset ℕ) (W : Prop)
    (disk : ℕ → Block) (V : Table) (disk' : ℕ → Block) (d' : Dinode) :
    Prop where
  owned : Owned sb disk' (Function.update V i d')
  fields : d' = { V i with addrs := d'.addrs }
  kept : ∀ k, listing sb disk V i k ≠ 0 →
    listing sb disk' (Function.update V i d') i k = listing sb disk V i k
  only : ∀ k ∉ R,
    listing sb disk' (Function.update V i d') i k = listing sb disk V i k
  others : ∀ j ≠ i, ∀ k,
    listing sb disk' (Function.update V i d') j k = listing sb disk V j k
  contents : ∀ j k, k < NSLOT → k ≠ NDIRECT → listing sb disk V j k ≠ 0 →
    (j = i → ¬W) → disk' (listing sb disk V j k) = disk (listing sb disk V j k)
  metadata : ∀ b < sb.bmapstart, disk' b = disk b
  account : freeBlocks sb disk' + missing (listing sb disk V) i R =
    freeBlocks sb disk +
      missing (listing sb disk' (Function.update V i d')) i R

namespace Extends

variable {sb : Superblock} {disk disk' disk₂ : ℕ → Block} {V : Table}
variable {i b k : ℕ} {d' d₂ : Dinode} {R R' : Finset ℕ} {W W' : Prop}

theorem refl (h : Owned sb disk V) : Extends sb i R W disk V disk (V i) where
  owned := by rwa [Function.update_eq_self]
  fields := rfl
  kept := fun k _ => by rw [Function.update_eq_self]
  only := fun k _ => by rw [Function.update_eq_self]
  others := fun j _ k => by rw [Function.update_eq_self]
  contents := fun _ _ _ _ _ _ => rfl
  metadata := fun _ _ => rfl
  account := by rw [Function.update_eq_self]

theorem mono (h : Extends sb i R W disk V disk' d') (hR : R ⊆ R')
    (hW : W → W') : Extends sb i R' W' disk V disk' d' where
  owned := h.owned
  fields := h.fields
  kept := h.kept
  only := fun k hk => h.only k fun hmem => hk (hR hmem)
  others := h.others
  contents := fun j k hk hne h0 hw =>
    h.contents j k hk hne h0 fun heq hw' => hw heq (hW hw')
  metadata := h.metadata
  account := by
    have := missing_sdiff hR h.only
    have := h.account
    omega

theorem trans (h : Extends sb i R W disk V disk' d')
    (h' : Extends sb i R W disk' (Function.update V i d') disk₂ d₂) :
    Extends sb i R W disk V disk₂ d₂ := by
  obtain ⟨owned, fields, kept, only, others, contents, metadata, account⟩ := h'
  rw [Function.update_idem] at owned kept only others account
  rw [Function.update_self] at fields
  constructor
  · exact owned
  · rw [fields, h.fields]
  · intro k hne
    have heq := h.kept k hne
    rw [kept k (by rwa [heq]), heq]
  · intro k hk
    rw [only k hk, h.only k hk]
  · intro j hj k
    rw [others j hj k, h.others j hj k]
  · intro j k hk hind hne hw
    have heq : listing sb disk' (Function.update V i d') j k =
        listing sb disk V j k := by
      by_cases hj : j = i
      · rw [hj] at hne ⊢
        exact h.kept k hne
      · exact h.others j hj k
    have hsecond := contents j k hk hind (by rwa [heq]) hw
    rw [heq] at hsecond
    rw [hsecond, h.contents j k hk hind hne hw]
  · intro b hb
    rw [metadata b hb, h.metadata b hb]
  · have := h.account
    omega

/-! ### Filling a slot -/

/-- Block `b` has been put into the empty slot `k` of inode `i`, and nothing
else has changed. -/
structure Fills (sb : Superblock) (i k b : ℕ) (disk : ℕ → Block) (V : Table)
    (disk' : ℕ → Block) (d' : Dinode) : Prop
    extends Extends sb i {k} False disk V disk' d' where
  slot : listing sb disk' (Function.update V i d') i k = b
  pos : b ≠ 0

/-- A free block has been put into an empty slot of inode `i`; only the
indirect block of `i` may have been written besides. -/
theorem assign (h : Owned sb disk V)
    (hb : b < sb.size) (hclear : bmapBit sb disk b = false) (hk : k < NSLOT)
    (hempty : listing sb disk V i k = 0)
    (hfields : d' = { V i with addrs := d'.addrs })
    (hslots : listing sb disk' (Function.update V i d') =
      (listing sb disk V).assign i k b)
    (hdisk : ∀ w, disk' w = Sound.allocDisk sb disk b w ∨
      w = listing sb disk V i NDIRECT ∧ w ≠ 0) :
    Fills sb i k b disk V disk' d' := by
  have hX : ¬False := fun hf => hf
  have hone := h.layout.one_lt_nmeta
  obtain ⟨hmeta, hunlisted⟩ := h.of_clear hb hX hclear
  have hlist := h.listing_allocDisk hb hX hclear
  have hbits : ∀ b' < sb.size, bmapBit sb (Sound.allocDisk sb disk b) b' =
      (decide (b' = b) || bmapBit sb disk b') :=
    fun b' hb' => h.bmapBit_allocDisk hb hX hclear hb'
  -- The block that may have been written is a data block.
  have hlow : ∀ w < nmeta sb, disk' w = Sound.allocDisk sb disk b w := by
    intro w hw
    rcases hdisk w with heq | ⟨rfl, hne⟩
    · exact heq
    · have := h.nmeta_le (i := i) (k := NDIRECT) (by decide) hne
      omega
  have hsame : ∀ b' < sb.size, bmapBit sb disk' b' =
      bmapBit sb (Sound.allocDisk sb disk b) b' := by
    intro b' hb'
    rw [bmapBit, bmapBit, hlow _ (h.layout.bblock_lt hb')]
  have howned : Owned sb disk' (Function.update V i d') := by
    refine (h.alloc hb hX hclear).assign (i := i) hk ?_ ⟨hmeta, hb⟩ ?_ ?_
      ?_ ?_ hsame ?_
    · rw [hlist]
      exact hempty
    · rw [hlist]
      exact hunlisted
    · rw [hbits b hb, decide_eq_true rfl, Bool.true_or]
    · rw [hlist]
      exact hslots
    · exact hlow 1 hone
    · intro j _
      by_cases hj : j = i
      · rw [hj, Function.update_self, hfields]
        exact ⟨rfl, rfl⟩
      · rw [Function.update_of_ne hj]
        exact ⟨rfl, rfl⟩
  have hslot : listing sb disk' (Function.update V i d') i k = b := by
    rw [hslots, Slots.assign_self]
  have hpos : b ≠ 0 := by omega
  refine ⟨?_, hslot, hpos⟩
  constructor
  · exact howned
  · exact hfields
  · intro k' hne
    rw [hslots, Slots.assign_of_ne]
    exact .inr fun heq => hne (heq ▸ hempty)
  · intro k' hk'
    rw [hslots, Slots.assign_of_ne]
    exact .inr fun heq => hk' (Finset.mem_singleton.mpr heq)
  · intro j hj k'
    rw [hslots, Slots.assign_of_ne (.inl hj)]
  · intro j k' hk' hind hne _
    have hle := h.nmeta_le hk' hne
    rcases hdisk (listing sb disk V j k') with heq | ⟨heq, -⟩
    · rw [heq, Sound.allocDisk_of_ne]
      · have := h.layout.bblock_lt hb
        omega
      · intro hjb
        exact hunlisted ⟨j, k', hk', hjb⟩
    · exact absurd (h.separate.inj j k' i NDIRECT hk' (by decide) hne heq).2
        hind
  · intro w hw
    have hle := h.layout.bmapstart_le_nmeta
    have hbb : sb.bmapstart ≤ BBLOCK b sb := Layout.bmapstart_le
    rw [hlow w (by omega), Sound.allocDisk_of_ne (by omega) (by omega)]
  · have hfree : freeBlocks sb disk' + 1 = freeBlocks sb disk := by
      rw [freeBlocks_congr hsame]
      exact freeBlocks_mark hb hclear hbits
    have hfull : missing (listing sb disk' (Function.update V i d')) i {k} =
        0 := by
      apply missing_eq_zero
      intro k' hk'
      rw [Finset.mem_singleton.mp hk', hslot]
      exact hpos
    rw [missing_singleton hempty, hfull, hfree, Nat.add_zero]

section Slots

variable (h : Owned sb disk V) (hb : b < sb.size)
variable (hclear : bmapBit sb disk b = false)
include h hb hclear

/-- An entry of the indirect block `ind` has got its block. -/
theorem entry {ind j : ℕ} (hind : listing sb disk V i NDIRECT = ind)
    (hne : ind ≠ 0) (hj : j < NINDIRECT)
    (hempty : listing sb disk V i (NDIRECT + 1 + j) = 0) :
    Fills sb i (NDIRECT + 1 + j) b disk V
      (Function.update (Sound.allocDisk sb disk b) ind
        ((disk ind).setWord (4 * j) (BitVec.ofNat 32 b))) (V i) := by
  have hX : ¬False := fun hf => hf
  have hlist : slots (Sound.allocDisk sb disk b) (live sb V) =
      listing sb disk V := h.listing_allocDisk hb hX hclear
  obtain ⟨hmeta, hunlisted⟩ := h.of_clear hb hX hclear
  have hle : nmeta sb ≤ ind := by
    have := h.nmeta_le (i := i) (k := NDIRECT) (by decide)
    omega
  have hsame : Sound.allocDisk sb disk b ind = disk ind := by
    apply Sound.allocDisk_of_ne
    · have := h.layout.bblock_lt hb
      omega
    · rintro rfl
      exact hunlisted ⟨i, NDIRECT, by decide, hind⟩
  apply assign h hb hclear
  · have : NSLOT = NDIRECT + 1 + NINDIRECT := rfl
    omega
  · exact hempty
  · rfl
  · have hsep : (slots (Sound.allocDisk sb disk b) (live sb V)).Separate
        fun b => nmeta sb ≤ b ∧ b < sb.size := by
      rw [hlist]
      exact h.separate
    have hslot : slots (Sound.allocDisk sb disk b) (live sb V) i NDIRECT =
        ind := by
      rw [hlist, hind]
    have hset := slots_setEntry (v := BitVec.ofNat 32 b) hsep
      (by rwa [hslot]) hj
    rw [hslot, hsame, h.toNat_ofNat hb] at hset
    rw [Function.update_eq_self, listing, hset, hlist]
  · intro w
    by_cases hw : w = ind
    · exact .inr ⟨hw.trans hind.symm, hw ▸ hne⟩
    · exact .inl (Function.update_of_ne hw ..)

variable (hi : i < sb.ninodes) (ht : (V i).type ≠ 0)
include hi ht

/-- A direct slot has got its block. -/
theorem direct {k : Fin (NDIRECT + 1)} (hk : k.val < NDIRECT)
    (hempty : (V i).addrs k = 0) :
    Fills sb i k.val b disk V (Sound.allocDisk sb disk b)
      ((V i).setAddr k (BitVec.ofNat 32 b)) := by
  have hlive := live_of_type hi ht
  have hlist : slots (Sound.allocDisk sb disk b) (live sb V) =
      listing sb disk V := h.listing_allocDisk hb (fun hf => hf) hclear
  apply assign h hb hclear
  · exact lt_trans hk (by decide)
  · rw [listing, slots, hlive, Dinode.slot_direct (by omega), hempty]
    rfl
  · rfl
  · have hset : slots (Sound.allocDisk sb disk b)
        (Function.update (live sb V) i
          ((live sb V i).setAddr k (BitVec.ofNat 32 b))) = _ :=
      slots_setAddr_direct hk
    rw [hlive] at hset
    rw [listing, live_update (d := (V i).setAddr k _) hi ht, hset,
      h.toNat_ofNat hb, hlist]
  · intro w
    exact .inl rfl

/-- The inode has got an indirect block. -/
theorem indirect (hempty : (V i).addrs indirectSlot = 0) :
    Fills sb i NDIRECT b disk V (Sound.allocDisk sb disk b)
      ((V i).setAddr indirectSlot (BitVec.ofNat 32 b)) := by
  have hlive := live_of_type hi ht
  have hnat := h.toNat_ofNat hb
  have hlist : slots (Sound.allocDisk sb disk b) (live sb V) =
      listing sb disk V := h.listing_allocDisk hb (fun hf => hf) hclear
  apply assign h hb hclear
  · decide
  · rw [listing, slots, hlive]
    exact Dinode.addrs_indirectSlot_eq_zero.mp hempty
  · rfl
  · have hset : slots (Sound.allocDisk sb disk b)
        (Function.update (live sb V) i
          ((live sb V i).setAddr indirectSlot (BitVec.ofNat 32 b))) =
        (slots (Sound.allocDisk sb disk b) (live sb V)).assign i NDIRECT
          (BitVec.ofNat 32 b).toNat := by
      apply slots_setAddr_indirect
      · rw [slots, hlive]
        exact Dinode.addrs_indirectSlot_eq_zero.mp hempty
      · rw [hnat, Sound.allocDisk_self]
    rw [hlive, hnat] at hset
    rw [listing, live_update (d := (V i).setAddr indirectSlot _) hi ht, hset,
      hlist]
  · intro w
    exact .inl rfl

/-- An address of the inode has been filled in. -/
theorem addr {k : Fin (NDIRECT + 1)} (hempty : (V i).addrs k = 0) :
    Fills sb i k.val b disk V (Sound.allocDisk sb disk b)
      ((V i).setAddr k (BitVec.ofNat 32 b)) := by
  by_cases hk : k.val < NDIRECT
  · exact direct h hb hclear hi ht hk hempty
  · have hlast : k = indirectSlot := by
      apply Fin.ext
      rw [indirectSlot, Fin.val_last]
      omega
    subst hlast
    exact indirect h hb hclear hi ht hempty

end Slots

end Extends

/-! ## bmap -/

theorem listing_eq {sb : Superblock} (disk : ℕ → Block) {V : Table} {i : ℕ}
    (hi : i < sb.ninodes) (ht : (V i).type ≠ 0) (k : ℕ) :
    listing sb disk V i k = (V i).slot disk k := by
  rw [listing, slots, live_of_type hi ht]

/-- Slot `ip` holds the newest version of the allocated inode `i` of a sound
volume, and the caller has locked no buffer. -/
structure Ready (V : Table) (i : ℕ) (ip : Slot) (s : State P) : Prop where
  owned : Owned s.sb s.disk V
  inum : (s.icache ip).inum = i
  newest : (s.icache ip).din = V i
  lt : i < s.sb.ninodes
  type : (V i).type ≠ 0
  bufs : s.bufs = []

/-- The entries of the indirect block. -/
theorem Ready.listing_entry {V : Table} {i ind : ℕ} {ip : Slot}
    (h : Ready V i ip s) (hind : listing s.sb s.disk V i NDIRECT = ind)
    (hne : ind ≠ 0) (j : ℕ) :
    listing s.sb s.disk V i (NDIRECT + 1 + j) =
      ((s.disk ind).word (4 * j)).toNat := by
  rw [listing_eq s.disk h.lt h.type, Dinode.slot_entry, ← hind,
    listing_eq s.disk h.lt h.type]
  intro hzero
  apply hne
  rw [← hind, listing_eq s.disk h.lt h.type]
  exact Dinode.addrs_indirectSlot_eq_zero.mp hzero

/-- From `s` to `t`, inode `i` in slot `ip` has been extended, on the volume
that `V` describes; nothing else has happened. -/
structure Grown (V : Table) (i : ℕ) (ip : Slot) (R : Finset ℕ) (W : Prop)
    (s t : State P) : Prop where
  state : t = { s.setDin ip (t.icache ip).din with
    disk := t.disk, trace := t.trace }
  volume : Extends s.sb i R W s.disk V t.disk (t.icache ip).din

namespace Grown

variable {V : Table} {i : ℕ} {ip : Slot} {R R' : Finset ℕ} {W W' : Prop}
variable {t u : State P}

/-- The table after the step. -/
abbrev table (V : Table) (i : ℕ) (ip : Slot) (t : State P) : Table :=
  Function.update V i (t.icache ip).din

theorem intro (d' : Dinode) (disk' : ℕ → Block) (tr : List Event)
    (ht : t = { s.setDin ip d' with disk := disk', trace := tr })
    (h : Extends s.sb i R W s.disk V disk' d') : Grown V i ip R W s t := by
  subst ht
  have hd : ((s.setDin ip d').icache ip).din = d' := by
    rw [State.setDin, State.icache_setInode_self]
  constructor
  · simp only [hd]
  · simp only [hd]
    exact h

theorem sb (h : Grown V i ip R W s t) : t.sb = s.sb := by
  rw [h.state]
  rfl

theorem bufs (h : Grown V i ip R W s t) : t.bufs = s.bufs := by
  rw [h.state]
  rfl

/-- The inode in memory is as it was. -/
theorem of_disk (hs : Ready V i ip s)
    (ht : t = { s with disk := t.disk, trace := t.trace })
    (h : Extends s.sb i R W s.disk V t.disk (V i)) :
    Grown V i ip R W s t := by
  refine .intro (V i) t.disk t.trace ?_ h
  rw [State.setDin, ← hs.newest, State.setInode, Function.update_eq_self]
  exact ht

theorem refl (h : Ready V i ip s) : Grown V i ip R W s s :=
  .of_disk h rfl (.refl h.owned)

/-- The table is as it was, too. -/
theorem table_eq (hs : Ready V i ip s) (h : t.icache = s.icache) :
    table V i ip t = V := by
  rw [table, h, hs.newest, Function.update_eq_self]

theorem mono (h : Grown V i ip R W s t) (hR : R ⊆ R') (hW : W → W') :
    Grown V i ip R' W' s t :=
  ⟨h.state, h.volume.mono hR hW⟩

theorem trans (h : Grown V i ip R W s t)
    (h' : Grown (table V i ip t) i ip R W t u) : Grown V i ip R W s u := by
  have hvol := h'.volume
  rw [h.sb] at hvol
  refine .intro (u.icache ip).din u.disk u.trace ?_
    (h.volume.trans hvol)
  rw [h'.state, h.state]
  simp only [State.setDin, State.setInode, Function.update_self,
    Function.update_idem]

theorem ready (h : Grown V i ip R W s t) (hs : Ready V i ip s) :
    Ready (table V i ip t) i ip t where
  owned := by
    rw [h.sb]
    exact h.volume.owned
  inum := by
    rw [h.state]
    simp only [State.setDin, State.icache_setInode_self]
    exact hs.inum
  newest := by rw [table, Function.update_self]
  lt := by
    rw [h.sb]
    exact hs.lt
  type := by
    rw [table, Function.update_self, h.volume.fields]
    exact hs.type
  bufs := h.bufs.trans hs.bufs

/-- If the blocks do not suffice afterwards, they never did. -/
theorem exhausts (h : Grown V i ip R W s t) (hR : R' ⊆ R)
    (hlt : freeBlocks t.sb t.disk <
      missing (listing t.sb t.disk (table V i ip t)) i R') :
    freeBlocks s.sb s.disk < missing (listing s.sb s.disk V) i R := by
  have haccount := h.volume.account
  have hmono := missing_mono (i := i) hR
    (listing s.sb t.disk (table V i ip t))
  rw [h.sb] at hlt
  simp only [table] at hlt hmono
  omega

theorem listing_self (h : Grown V i ip R W s t) (hs : Ready V i ip s) (k : ℕ) :
    listing s.sb t.disk (table V i ip t) i k =
      (t.icache ip).din.slot t.disk k := by
  have hr := h.ready hs
  have heq := listing_eq t.disk hr.lt hr.type k
  rw [h.sb] at heq
  rw [heq, table, Function.update_self]

end Grown

/-- The step has put block `b` into slot `k` of inode `i`, or has found it
there. -/
structure Maps (V : Table) (i : ℕ) (ip : Slot) (k : ℕ) (R : Finset ℕ)
    (s : State P) (b : ℕ) (t : State P) : Prop where
  grown : Grown V i ip R False s t
  slot : listing s.sb t.disk (Grown.table V i ip t) i k = b
  pos : b ≠ 0

section Bmap

variable {V : Table} {i b k : ℕ} {ip : Slot} {R : Finset ℕ} {t : State P}

theorem Maps.of_disk (hs : Ready V i ip s)
    (ht : t = { s with disk := t.disk, trace := t.trace })
    (h : Extends s.sb i R False s.disk V t.disk (V i))
    (hslot : listing s.sb t.disk V i k = b) (hpos : b ≠ 0) :
    Maps V i ip k R s b t := by
  refine ⟨.of_disk hs ht h, ?_, hpos⟩
  rw [Grown.table_eq hs (by rw [ht])]
  exact hslot

/-- A step that leads to the block may follow another one. -/
theorem Maps.after {R' : Finset ℕ} {u : State P}
    (h : Grown V i ip R False s t)
    (h' : Maps (Grown.table V i ip t) i ip k R' t b u) (hR : R' ⊆ R) :
    Maps V i ip k R s b u := by
  refine ⟨h.trans (h'.grown.mono hR id), ?_, h'.pos⟩
  have hslot := h'.slot
  rwa [h.sb, Grown.table, Grown.table, Function.update_idem] at hslot

theorem Maps.mono {R' : Finset ℕ} (h : Maps V i ip k R s b t) (hR : R ⊆ R') :
    Maps V i ip k R' s b t :=
  ⟨h.grown.mono hR id, h.slot, h.pos⟩

/-- A new block for an address of the inode. -/
theorem setAddr_sat {k : Fin (NDIRECT + 1)} (h : Ready V i ip s)
    (hzero : (V i).addrs k = 0)
    (hE : Full s.sb s.disk → E (.panic "balloc: out of blocks")) :
    Sat (do
      let addr ← balloc
      let d ← getDin ip
      setDin ip (d.setAddr k (BitVec.ofNat 32 addr))
      pure addr) s (Maps V i ip k.val {k.val} s) E := by
  refine (balloc_sat ?_ ?_ hE).andThen ?_
  · rw [h.bufs]
    exact fun w hw => absurd hw List.not_mem_nil
  · rw [h.bufs]
    exact fun w hw => absurd hw List.not_mem_nil
  · rintro b _ ⟨hfree, tr, rfl⟩
    have hfill := Extends.addr h.owned hfree.lt hfree.clear h.lt h.type hzero
    apply getDin_bind
    apply setDin_bind
    refine Sat.pure ?_
    simp only [h.newest]
    refine ⟨.intro _ _ _ rfl hfill.toExtends, ?_, hfill.pos⟩
    rw [Grown.table, State.setDin, State.icache_setInode_self]
    exact hfill.slot

/-- An address of the inode that is there. -/
theorem Maps.found {k : Fin (NDIRECT + 1)} (h : Ready V i ip s) (hne : (V i).addrs k ≠ 0) :
    Maps V i ip k.val R s ((V i).addrs k).toNat s := by
  refine ⟨.refl h, ?_, ?_⟩
  · rw [Grown.table_eq h rfl, listing_eq s.disk h.lt h.type,
      Dinode.slot_direct k.isLt]
  · intro heq
    exact hne (BitVec.eq_of_toNat_eq heq)

/-- The indirect block is there afterwards. -/
theorem indirectBlock_sat (h : Ready V i ip s)
    (hE : Full s.sb s.disk → (V i).addrs indirectSlot = 0 →
      E (.panic "balloc: out of blocks")) :
    Sat (indirectBlock ip (V i)) s (Maps V i ip NDIRECT {NDIRECT} s) E := by
  apply Sat.ite
  · intro hzero
    exact setAddr_sat h hzero fun hfull => hE hfull hzero
  · intro hne
    exact Sat.pure (Maps.found h hne)

/-- The entry for block `j` of the indirect block is there afterwards. -/
theorem entry_sat {ind j : ℕ} (h : Ready V i ip s)
    (hind : listing s.sb s.disk V i NDIRECT = ind) (hne : ind ≠ 0)
    (hj : j < NINDIRECT)
    (hE : Full s.sb s.disk →
      listing s.sb s.disk V i (NDIRECT + 1 + j) = 0 →
      E (.panic "balloc: out of blocks")) :
    Sat (do
      let a ← bread ind
      if a.word (4 * j) = 0 then do
        let addr ← balloc
        logWrite ind (a.setWord (4 * j) (BitVec.ofNat 32 addr))
        brelse ind
        pure addr
      else do
        brelse ind
        pure (a.word (4 * j)).toNat) s
      (Maps V i ip (NDIRECT + 1 + j) {NDIRECT + 1 + j} s) E := by
  have howned := h.owned
  have hlow : nmeta s.sb ≤ ind := by
    have := howned.nmeta_le (i := i) (k := NDIRECT) (by decide)
    omega
  have hslot := h.listing_entry hind hne j
  apply bread_bind
  · rw [h.bufs]
    exact fun hmem => absurd hmem List.not_mem_nil
  · apply Sat.ite
    · intro hzero
      rw [hzero] at hslot
      refine (balloc_sat (s := { s.emit (.bread ind) with
        bufs := ind :: s.bufs }) ?_ ?_ fun hfull => hE hfull hslot).andThen ?_
      · intro w hw b hb
        rw [h.bufs] at hw
        rw [List.mem_singleton.mp hw]
        have := howned.layout.bblock_lt hb
        change b < s.sb.size at hb
        change ind ≠ BBLOCK b s.sb
        omega
      · intro w hw
        rw [h.bufs] at hw
        rw [List.mem_singleton.mp hw]
        have := howned.bit_of_listed (i := i) (k := NDIRECT) (by decide)
          (by rwa [hind]) (fun hf => hf)
        rwa [hind] at this
      · rintro b _ ⟨hfree, tr, rfl⟩
        have hfill := Extends.entry howned hfree.lt hfree.clear hind hne hj
          hslot
        apply logWrite_bind
        apply brelse_bind
        have hslot' := hfill.slot
        rw [Function.update_eq_self] at hslot'
        refine Sat.pure (.of_disk h ?_ hfill.toExtends hslot' hfill.pos)
        simp only [State.emit, State.setDisk, List.erase_cons_head]
    · intro hword
      apply brelse_bind
      refine Sat.pure (.of_disk h ?_ (.refl howned) hslot ?_)
      · simp only [State.emit, List.erase_cons_head]
      · intro heq
        exact hword (BitVec.eq_of_toNat_eq heq)

/-- The slots that `bmap` looks at for the block with index `bn`. -/
def bmapSlots (bn : ℕ) : Finset ℕ :=
  if bn < NDIRECT then {dataSlot bn} else {NDIRECT, dataSlot bn}

/-- `bmap` finds the block or allocates it; it stops only if the free blocks
do not suffice. -/
theorem bmap_sat {bn : ℕ} (h : Ready V i ip s) (hbn : bn < MAXFILE)
    (hE : freeBlocks s.sb s.disk <
        missing (listing s.sb s.disk V) i (bmapSlots bn) →
      E (.panic "balloc: out of blocks")) :
    Sat (bmap ip bn) s (Maps V i ip (dataSlot bn) (bmapSlots bn) s) E := by
  have hfail : ∀ k ∈ bmapSlots bn, listing s.sb s.disk V i k = 0 →
      Full s.sb s.disk → E (.panic "balloc: out of blocks") := by
    intro k hk hzero hfull
    apply hE
    rw [hfull.freeBlocks_eq_zero]
    exact missing_pos hk hzero
  apply getDin_bind
  rw [h.newest]
  apply Sat.ite
  · intro hlt
    have hval : (Fin.ofNat (NDIRECT + 1) bn).val = dataSlot bn := by
      rw [dataSlot, if_pos hlt]
      exact Nat.mod_eq_of_lt (by omega)
    have hslot := listing_eq s.disk h.lt h.type (dataSlot bn)
    rw [← hval, Dinode.slot_direct (Fin.isLt _)] at hslot
    rw [bmapSlots, if_pos hlt] at hfail ⊢
    rw [← hval] at hfail ⊢
    apply Sat.ite
    · intro hzero
      refine setAddr_sat h hzero (hfail _ (Finset.mem_singleton_self _) ?_)
      rw [hslot]
      exact congrArg BitVec.toNat hzero
    · intro hne
      exact Sat.pure (Maps.found h hne)
  · intro hge
    have hmax : MAXFILE = NDIRECT + NINDIRECT := rfl
    have hslot : dataSlot bn = NDIRECT + 1 + (bn - NDIRECT) := by
      rw [dataSlot, if_neg hge]
      omega
    rw [bmapSlots, if_neg hge] at hfail ⊢
    rw [hslot] at hfail ⊢
    apply Sat.ite
    · intro hj
      refine (indirectBlock_sat h ?_).andThen ?_
      · intro hfull hzero
        refine hfail NDIRECT (Finset.mem_insert_self ..) ?_ hfull
        rw [listing_eq s.disk h.lt h.type]
        exact Dinode.addrs_indirectSlot_eq_zero.mp hzero
      · rintro ind t ⟨hgrown, hind, hne⟩
        have hgrown' : Grown V i ip {NDIRECT, NDIRECT + 1 + (bn - NDIRECT)}
            False s t := by
          refine hgrown.mono ?_ id
          intro k hk
          rw [Finset.mem_singleton.mp hk]
          exact Finset.mem_insert_self ..
        have hsub : {NDIRECT + 1 + (bn - NDIRECT)} ⊆
            ({NDIRECT, NDIRECT + 1 + (bn - NDIRECT)} : Finset ℕ) :=
          Finset.subset_insert ..
        refine (entry_sat (hgrown.ready h) (by rwa [hgrown.sb]) hne hj ?_).imp
          fun b u hu => Maps.after hgrown' hu hsub
        intro hfull hzero
        rw [bmapSlots, if_neg hge, hslot] at hE
        apply hE
        apply hgrown'.exhausts hsub
        rw [hfull.freeBlocks_eq_zero]
        exact missing_pos (Finset.mem_singleton_self _) hzero
    · intro hj
      omega

end Bmap

end ZtlOs.Kernel
