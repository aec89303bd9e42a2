import ZtlOs.Kernel.OpenRuns

/-!
# Blocks keep their owners

The bitmap marks the metadata blocks and the blocks of the allocated inodes, no
block has two owners, and no file has a hole: every completed call keeps this,
as long as the directories of the volume name inodes that exist.
-/

namespace ZtlOs.Kernel

open ZtlOs.Support ZtlOs.Support.Program ZtlOs.Fs

section

variable {P : Type} [DecidableEq P] [Fintype P] {s t : State P}

/-- The volume with the newest version of every inode, which is the one in
memory where that is valid. -/
def State.Blocks (s : State P) : Prop :=
  Owned s.sb s.disk s.table

omit [DecidableEq P] [Fintype P] in
theorem Intact.blocks (h : Intact s) : s.Blocks := by
  rw [State.Blocks, h.table_eq]
  exact h.owned

/-- From a sound volume whose directories name inodes that exist, every run of
completed calls leads to a sound volume. -/
theorem blocks_owned {disk : ℕ → Block} {w : List (P × Call)}
    (hdisk : Formatted disk) (hrun : Run callStep (boot disk) w s) :
    s.Blocks :=
  (hdisk.atRest_run hrun).intact.blocks

end

/-- The file `/a/b` is unlinked, and a directory made under its name. -/
theorem blocks_owned_small : ∃ s : State Unit,
    Run callStep (boot smallVolume)
      [((), .unlink (some smallPath)), ((), .mkdir (some smallPath))] s ∧
      s.Blocks := by
  obtain ⟨s, hs, -⟩ := Run.exists_of_exec callStep (boot smallVolume)
    [((), .unlink (some smallPath)), ((), .mkdir (some smallPath))]
    (fun _ => true) (by decide +kernel)
  exact ⟨s, hs, blocks_owned smallVolume_formatted hs⟩

/-! ## A directory that names an inode that does not exist -/

/-- A volume whose root directory, in block 48, has an entry `a` with the
number of an inode that would lie in the bitmap block. -/
def strayVolume : ℕ → Block := fun b =>
  if b = 1 then
    ((((((Block.zero.setWord 0 64).setWord 4 53).setWord 8 64).setWord 16
      2).setWord 20 2).setWord 24 10)
  else if b = 2 then Block.zero.setDinode 1 (smallDir 48)
  else if b = 10 then
    ((Block.zero.setByte 0 0xff).setByte 1 0x07).setByte 6 0x01
  else if b = 48 then Block.zero.put 0 (smallEntries 1 1 [0x61] 64)
  else Block.zero

def straySb : Superblock :=
  ⟨64, 53, 64, 0, 2, 2, 10⟩

/-- `link("/a", "/b")`. -/
def strayLink : List (Unit × Call) :=
  [((), .link (some [0x2f, 0x61]) (some [0x2f, 0x62]))]

/-- What the proofs below read off the blocks of the volume. -/
class StrayVolume : Prop where
  addrs : ∀ i < 64, ∀ k, (live straySb (inodeOf straySb strayVolume) i).addrs k =
    if k = 0 ∧ i = 1 then 48 else 0
  superblock : (strayVolume 1).superblock = straySb
  bits : ∀ b < 64, bmapBit straySb strayVolume b = decide (b < 11 ∨ b = 48)
  blocks : ∀ i < 64, blocksOf (inodeOf straySb strayVolume i).size.toNat =
    if i = 1 then 1 else 0
  link : (Support.exec callStep (boot strayVolume) strayLink).any (fun t =>
    listing t.sb t.disk t.table 1 0 == 48 && !bmapBit t.sb t.disk 48) = true

instance strayVolume_read : StrayVolume where
  addrs := by decide +kernel
  superblock := by decide +kernel
  bits := by decide +kernel
  blocks := by decide +kernel
  link := by decide +kernel

theorem strayVolume_listing (i j : ℕ) :
    listing straySb strayVolume (inodeOf straySb strayVolume) i j =
      if j = 0 ∧ i = 1 then 48 else 0 := by
  have haddrs : ∀ i < straySb.ninodes, ∀ k,
      (live straySb (inodeOf straySb strayVolume) i).addrs k =
        if k = 0 then (if i = 1 then 48 else 0) else 0 := by
    intro i hi k
    rw [strayVolume_read.addrs i hi k]
    split_ifs <;> simp_all
  rw [listing_of_first haddrs, show straySb.ninodes = 64 from rfl]
  split_ifs <;> first | rfl | omega

theorem strayVolume_owned :
    Owned straySb strayVolume (inodeOf straySb strayVolume) := by
  have hlist := strayVolume_listing
  have hmeta : nmeta straySb = 11 := rfl
  have hsize : straySb.size = 64 := rfl
  constructor
  · constructor <;> decide
  · exact strayVolume_read.superblock
  · constructor
    · intro i k _ hne
      rw [hlist] at hne ⊢
      rw [hmeta, hsize]
      split_ifs at hne ⊢ <;> omega
    · intro i k i' k' _ _ hne heq
      rw [hlist] at hne
      rw [hlist, hlist] at heq
      split_ifs at hne heq <;> omega
  · intro b hb _
    rw [strayVolume_read.bits b hb, decide_eq_true_eq, hmeta]
    constructor
    · rintro (hlt | rfl)
      · exact .inl hlt
      · exact .inr ⟨1, 0, by decide, hlist 1 0⟩
    · rintro (hlt | ⟨i, k, -, heq⟩)
      · exact .inl hlt
      · rw [hlist] at heq
        split_ifs at heq <;> omega
  · intro i hi _ _ bn hbn
    rw [strayVolume_read.blocks i hi] at hbn
    rw [hlist]
    split at hbn
    · next hroot =>
        obtain rfl : bn = 0 := by omega
        subst hroot
        decide
    · omega

/-- The volume is sound, but a link to the stray inode counts in the bitmap:
block 48 of the root directory is no longer marked. -/
theorem blocks_not_always_owned :
    Owned (strayVolume 1).superblock strayVolume
      (inodeOf (strayVolume 1).superblock strayVolume) ∧
      ∃ s, Run callStep (boot strayVolume) strayLink s ∧ ¬s.Blocks := by
  rw [strayVolume_read.superblock]
  refine ⟨strayVolume_owned, ?_⟩
  obtain ⟨s, hs, hcheck⟩ := Run.exists_of_exec callStep (boot strayVolume)
    strayLink _ strayVolume_read.link
  simp only [Bool.and_eq_true, beq_iff_eq, Bool.not_eq_true'] at hcheck
  obtain ⟨hlist, hbit⟩ := hcheck
  refine ⟨s, hs, fun hblocks => ?_⟩
  have hslot : 0 < NSLOT := by decide
  have hbound := hblocks.bit_of_listed hslot (by rw [hlist]; decide) id
  rw [hlist, hbit] at hbound
  cases hbound

end ZtlOs.Kernel
