import ZtlOs.Kernel.EditRuns
import ZtlOs.Kernel.SoberEdits

/-!
# Volumes with one directory

A volume as `mkfs` makes it: its files are in the root directory, and each of
them has one name.
-/

namespace ZtlOs.Kernel

open ZtlOs.Support ZtlOs.Support.Program ZtlOs.Support.Bindings
open ZtlOs.Support.Hierarchy ZtlOs.Fs

variable {f : Nodes} {r : Node} {d i j : ℕ} {x : Bytes}

/-- The root directory `r` is the only directory, and it names every file
once. -/
structure Flat (f : Nodes) (r : Node) : Prop where
  root : f ROOTINO = some r
  type : r.type = T_DIR
  nlink : r.nlink = 1
  whole : Dirent.size ∣ r.data.length
  distinct : Distinct (bindings r.data)
  self : Binds (bindings r.data) 0 dot ROOTINO
  up : Binds (bindings r.data) 1 dotdot ROOTINO
  file : ∀ i n, f i = some n → i ≠ ROOTINO → n.type ≠ T_DIR ∧ n.nlink = 1
  named : ∀ i n, f i = some n → i ≠ ROOTINO →
    ∃ j x, Binds (bindings r.data) j x i
  once : ∀ i j x j' x', i ≠ ROOTINO → Binds (bindings r.data) j x i →
    Binds (bindings r.data) j' x' i → j = j'
  target : ∀ j x i, 2 ≤ j → Binds (bindings r.data) j x i →
    i ≠ ROOTINO ∧ f i ≠ none
  numbered : ∀ i n, f i = some n → 1 ≤ i ∧ i ≤ 65535

namespace Flat

variable (h : Flat f r)

include h

theorem isDir_iff : isDir f d = true ↔ d = ROOTINO := by
  rw [Kernel.isDir_iff]
  constructor
  · rintro ⟨n, hn, hdir⟩
    by_contra hd
    exact (h.file d n hn hd).1 hdir
  · rintro rfl
    exact ⟨r, h.root, h.type⟩

theorem namesAt_iff : NamesAt f d j x i ↔
    d = ROOTINO ∧ Binds (bindings r.data) j x i := by
  constructor
  · intro hat
    obtain rfl := h.isDir_iff.mp hat.isDir
    obtain ⟨n, hn, -, hb⟩ := hat
    obtain rfl := Option.some.inj (h.root.symm.trans hn)
    exact ⟨rfl, hb⟩
  · rintro ⟨rfl, hb⟩
    exact ⟨r, h.root, h.type, hb⟩

theorem linked_iff : (hierarchy f).Linked d ↔ d = ROOTINO := by
  rw [Kernel.linked_iff]
  constructor
  · rintro ⟨n, hn, hdir, -⟩
    exact h.isDir_iff.mp (Kernel.isDir_iff.mpr ⟨n, hn, hdir⟩)
  · rintro rfl
    refine ⟨r, h.root, h.type, ?_⟩
    rw [h.nlink]
    decide

theorem entry_iff : (hierarchy f).Entry d j x i ↔
    d = ROOTINO ∧ Binds (bindings r.data) j x i := by
  change (hierarchy f).Linked d ∧ NamesAt f d j x i ↔ _
  rw [h.linked_iff, h.namesAt_iff, ← and_assoc, and_self]

/-- The names of the files are proper. -/
theorem proper_iff (hb : Binds (bindings r.data) j x i) :
    Proper dots x ↔ 2 ≤ j := by
  constructor
  · rintro ⟨hself, hup⟩
    by_contra hj
    rcases (show j = 0 ∨ j = 1 by omega) with rfl | rfl
    · exact hself (hb.eq h.self).1
    · exact hup (hb.eq h.up).1
  · intro hj
    constructor
    · rintro rfl
      have := h.distinct _ _ _ _ _ hb h.self
      omega
    · rintro rfl
      have := h.distinct _ _ _ _ _ hb h.up
      omega

theorem child_iff : Child dots (hierarchy f) d j i ↔
    d = ROOTINO ∧ 2 ≤ j ∧ ∃ x, Binds (bindings r.data) j x i := by
  constructor
  · rintro ⟨x, hx, he⟩
    obtain ⟨hd, hb⟩ := h.entry_iff.mp he
    exact ⟨hd, (h.proper_iff hb).mp hx, x, hb⟩
  · rintro ⟨hd, hj, x, hb⟩
    exact ⟨x, (h.proper_iff hb).mpr hj, h.entry_iff.mpr ⟨hd, hb⟩⟩

theorem child_not_dir (hc : Child dots (hierarchy f) d j i) :
    ¬(hierarchy f).dir i := by
  obtain ⟨-, hj, x, hb⟩ := h.child_iff.mp hc
  exact fun hdir => (h.target j x i hj hb).1 (h.isDir_iff.mp hdir)

theorem named_root : Hierarchy.named dots (hierarchy f) ROOTINO =
    {(ROOTINO, 1)} := by
  ext ⟨d, j⟩
  rw [Set.mem_singleton_iff, Prod.mk.injEq]
  constructor
  · rintro ⟨x, hx, he⟩
    obtain ⟨hd, hb⟩ := h.entry_iff.mp he
    refine ⟨hd, ?_⟩
    by_contra hj
    by_cases hj' : 2 ≤ j
    · exact (h.target j x _ hj' hb).1 rfl
    · obtain rfl : j = 0 := by omega
      exact hx (hb.eq h.self).1
  · rintro ⟨rfl, rfl⟩
    exact ⟨dotdot, by decide, h.entry_iff.mpr ⟨rfl, h.up⟩⟩

theorem named_file {n : Node} (hn : f i = some n) (hi : i ≠ ROOTINO) :
    ∃ j, Hierarchy.named dots (hierarchy f) i = {(ROOTINO, j)} := by
  obtain ⟨j, x, hb⟩ := h.named i n hn hi
  refine ⟨j, ?_⟩
  ext ⟨d, j'⟩
  rw [Set.mem_singleton_iff, Prod.mk.injEq]
  constructor
  · rintro ⟨x', hx, he⟩
    obtain ⟨hd, hb'⟩ := h.entry_iff.mp he
    exact ⟨hd, h.once i j' x' j x hi hb' hb⟩
  · rintro ⟨rfl, rfl⟩
    refine ⟨x, ?_, h.entry_iff.mpr ⟨rfl, hb⟩⟩
    rintro rfl
    obtain rfl := h.distinct _ _ _ _ _ hb h.self
    exact hi (hb.eq h.self).2

theorem count (l : ℕ) (hl : (hierarchy f).links i = some l) :
    (l : ℕ∞) = (Hierarchy.named dots (hierarchy f) i).encard := by
  obtain ⟨n, hn, rfl⟩ := Option.map_eq_some_iff.mp hl
  by_cases hi : i = ROOTINO
  · subst hi
    obtain rfl := Option.some.inj (h.root.symm.trans hn)
    rw [h.named_root, Set.encard_singleton, h.nlink]
    rfl
  · obtain ⟨j, hj⟩ := h.named_file hn hi
    rw [hj, Set.encard_singleton, (h.file i n hn hi).2]
    rfl

theorem sound : Hierarchy.Sound dots (hierarchy f) where
  root := h.linked_iff.mpr rfl
  dir := fun d j x i hs => NamesAt.isDir hs
  exist := by
    intro d hdir hnone
    obtain rfl := h.isDir_iff.mp hdir
    have hsome : f ROOTINO = none := Option.map_eq_none_iff.mp hnone
    rw [h.root] at hsome
    cases hsome
  functional := fun d j x i x' i' h₁ h₂ => NamesAt.eq h₁ h₂
  distinct := fun d j j' x i i' h₁ h₂ => h.distinct _ _ _ _ _
    (h.entry_iff.mp h₁).2 (h.entry_iff.mp h₂).2
  self := by
    intro d hd
    obtain rfl := h.linked_iff.mp hd
    exact h.namesAt_iff.mpr ⟨rfl, h.self⟩
  up := by
    intro d hd
    obtain rfl := h.linked_iff.mp hd
    exact ⟨ROOTINO, h.namesAt_iff.mpr ⟨rfl, h.up⟩⟩
  top := h.namesAt_iff.mpr ⟨rfl, h.up⟩
  cleared := by
    intro d j x i hs hzero
    obtain rfl := h.isDir_iff.mp (NamesAt.isDir hs)
    exact absurd hzero (h.linked_iff.mpr rfl).ne_zero
  target := by
    intro d j x i he hnone
    have hgone : f i = none := Option.map_eq_none_iff.mp hnone
    obtain ⟨-, hb⟩ := h.entry_iff.mp he
    by_cases hj : 2 ≤ j
    · exact (h.target j x i hj hb).2 hgone
    · have hi : i = ROOTINO := by
        rcases (show j = 0 ∨ j = 1 by omega) with rfl | rfl
        · exact (hb.eq h.self).2
        · exact (hb.eq h.up).2
      rw [hi, h.root] at hgone
      cases hgone
  count := fun i l => h.count l
  parent := fun d j i hc hdir => absurd hdir (h.child_not_dir hc)
  unique := fun d j d' j' i hc _ hdir => absurd hdir (h.child_not_dir hc)
  notRoot := fun d j hc => h.child_not_dir hc (h.isDir_iff.mpr rfl)
  reach := by
    intro d hd
    obtain rfl := h.linked_iff.mp hd
    exact .root

/-- Such a volume is a tree with counted links. -/
theorem orderly : Orderly f where
  sound := h.sound
  whole := by
    intro d n hn hdir
    obtain rfl := h.isDir_iff.mp (Kernel.isDir_iff.mpr ⟨n, hn, hdir⟩)
    obtain rfl := Option.some.inj (h.root.symm.trans hn)
    exact h.whole
  numbered := h.numbered

end Flat

/-! ## A volume with one file -/

/-- A volume with the empty file `/a`. -/
def flatVolume : ℕ → Block := fun b =>
  if b = 2 then
    (Block.zero.setDinode 1 (smallDir 11)).setDinode 2
      { Dinode.zero with type := T_FILE, nlink := 1 }
  else if b = 10 then (Block.zero.setByte 0 0xff).setByte 1 0x0f
  else smallVolume b

/-- What the proofs below read off the blocks of the volume. -/
class FlatBlocks : Prop where
  superblock : (flatVolume 1).superblock = smallSb
  addrs : ∀ i < 64, ∀ k, (live smallSb (inodeOf smallSb flatVolume) i).addrs k =
    if k = 0 then if i = 1 then 11 else 0 else 0
  bits : ∀ b < 16, bmapBit smallSb flatVolume b = decide (b < 12)
  blocks : ∀ i < 64, blocksOf (inodeOf smallSb flatVolume i).size.toNat =
    if i = 1 then 1 else 0
  types : ∀ i < 64, (inodeOf smallSb flatVolume i).type =
    if i = 1 then T_DIR else if i = 2 then T_FILE else 0
  links : ∀ i < 64, i = 1 ∨ i = 2 → (inodeOf smallSb flatVolume i).nlink = 1
  bytes : (boot (P := Unit) flatVolume).bytes 1 = smallEntries 1 1 [0x61] 2

instance flatVolume_read : FlatBlocks where
  superblock := by decide +kernel
  addrs := by decide +kernel
  bits := by decide +kernel
  blocks := by decide +kernel
  types := by decide +kernel
  links := by decide +kernel
  bytes := by decide +kernel

theorem flatVolume_listing (i j : ℕ) :
    listing smallSb flatVolume (inodeOf smallSb flatVolume) i j =
      if j = 0 ∧ i = 1 then 11 else 0 := by
  rw [listing_of_first flatVolume_read.addrs,
    show smallSb.ninodes = 64 from rfl]
  split_ifs <;> first | rfl | omega

theorem flatVolume_owned :
    Owned smallSb flatVolume (inodeOf smallSb flatVolume) := by
  have hlist := flatVolume_listing
  have hmeta : nmeta smallSb = 11 := rfl
  have hsize : smallSb.size = 16 := rfl
  constructor
  · constructor <;> decide
  · exact flatVolume_read.superblock
  · constructor
    · intro i k _ hne
      rw [hlist] at hne ⊢
      rw [hmeta, hsize]
      split_ifs at hne ⊢ <;> omega
    · intro i k i' k' _ _ hne heq
      rw [hlist] at hne
      rw [hlist, hlist] at heq
      split_ifs at hne heq <;> omega
  · intro b hb _
    rw [flatVolume_read.bits b hb, decide_eq_true_eq, hmeta]
    constructor
    · intro hlt
      by_cases hdata : b < 11
      · exact .inl hdata
      · refine .inr ⟨1, 0, by decide, ?_⟩
        rw [hlist, if_pos ⟨rfl, rfl⟩]
        omega
    · rintro (hlt | ⟨i, k, -, heq⟩)
      · omega
      · rw [hlist] at heq
        split_ifs at heq <;> omega
  · intro i hi _ _ bn hbn
    rw [flatVolume_read.blocks i hi] at hbn
    rw [hlist]
    split at hbn
    · next hdir =>
        obtain rfl : bn = 0 := by omega
        subst hdir
        decide
    · omega

/-- The nodes of the volume. -/
theorem flatVolume_node {n : Node}
    (hn : (boot (P := Unit) flatVolume).node i = some n) :
    n.nlink = 1 ∧ (i = 1 ∧ n.type = T_DIR ∧ n.data = smallEntries 1 1 [0x61] 2 ∨
      i = 2 ∧ n.type = T_FILE) := by
  have hsb : (boot (P := Unit) flatVolume).sb = smallSb :=
    flatVolume_read.superblock
  obtain ⟨hi, htype, rfl⟩ := of_node_eq_some hn
  have hinode : (boot (P := Unit) flatVolume).inode i =
      inodeOf smallSb flatVolume i := by
    rw [State.inode, hsb]
    rfl
  rw [hsb] at hi
  change i < 64 at hi
  rw [hinode] at htype ⊢
  have htypes := flatVolume_read.types i hi
  by_cases h₁ : i = 1
  · subst h₁
    exact ⟨flatVolume_read.links 1 hi (.inl rfl), .inl ⟨rfl, htypes,
      flatVolume_read.bytes⟩⟩
  by_cases h₂ : i = 2
  · subst h₂
    exact ⟨flatVolume_read.links 2 hi (.inr rfl), .inr ⟨rfl, htypes⟩⟩
  · rw [htypes, if_neg h₁, if_neg h₂] at htype
    exact absurd rfl htype

theorem flatVolume_exists (hi : i = 1 ∨ i = 2) :
    ∃ n, (boot (P := Unit) flatVolume).node i = some n := by
  have hsb : (boot (P := Unit) flatVolume).sb = smallSb :=
    flatVolume_read.superblock
  refine ⟨_, node_eq_some ?_ ?_⟩
  · rw [hsb]
    rcases hi with rfl | rfl <;> decide
  · rw [State.inode, hsb]
    have htypes := flatVolume_read.types
    rcases hi with rfl | rfl
    · change (inodeOf smallSb flatVolume 1).type ≠ 0
      rw [htypes 1 (by decide)]
      decide
    · change (inodeOf smallSb flatVolume 2).type ≠ 0
      rw [htypes 2 (by decide)]
      decide

/-- The three names in the root directory. -/
theorem smallEntries_binds
    (h : Binds (bindings (smallEntries 1 1 [0x61] 2)) j x i) :
    j = 0 ∧ x = dot ∧ i = 1 ∨ j = 1 ∧ x = dotdot ∧ i = 1 ∨
      j = 2 ∧ x = [0x61] ∧ i = 2 := by
  rw [smallVolume_read.rootNames] at h
  rcases j with _ | _ | _ | j
  · obtain ⟨rfl, rfl⟩ := Prod.mk.inj (Option.some.inj (Option.some.inj h))
    exact .inl ⟨rfl, rfl, rfl⟩
  · obtain ⟨rfl, rfl⟩ := Prod.mk.inj (Option.some.inj (Option.some.inj h))
    exact .inr (.inl ⟨rfl, rfl, rfl⟩)
  · obtain ⟨rfl, rfl⟩ := Prod.mk.inj (Option.some.inj (Option.some.inj h))
    exact .inr (.inr ⟨rfl, rfl, rfl⟩)
  · cases h

theorem flatVolume_flat : ∃ r, Flat (boot (P := Unit) flatVolume).node r := by
  obtain ⟨r, hr⟩ := flatVolume_exists (.inl rfl)
  obtain ⟨hlink, ⟨-, htype, hdata⟩ | ⟨h, -⟩⟩ := flatVolume_node hr
  swap
  · cases h
  have hbinds := smallVolume_read.rootNames
  refine ⟨r, hr, htype, hlink, ?_, ?_, ?_, ?_, ?_, ?_, ?_, ?_, ?_⟩
  · rw [hdata]
    decide
  · rw [hdata, hbinds]
    exact distinct_of_keys (by decide)
  · rw [hdata, hbinds]
    rfl
  · rw [hdata, hbinds]
    rfl
  · intro i n hn hi
    obtain ⟨hlink, ⟨h, -⟩ | ⟨-, hfile⟩⟩ := flatVolume_node hn
    · exact absurd h hi
    · refine ⟨?_, hlink⟩
      rw [hfile]
      decide
  · intro i n hn hi
    obtain ⟨-, ⟨h, -⟩ | ⟨rfl, -⟩⟩ := flatVolume_node hn
    · exact absurd h hi
    · refine ⟨2, [0x61], ?_⟩
      rw [hdata, hbinds]
      rfl
  · intro i j x j' x' hi hb hb'
    rw [hdata] at hb hb'
    rcases smallEntries_binds hb with ⟨-, -, h⟩ | ⟨-, -, h⟩ | ⟨rfl, -, -⟩
    · exact absurd h hi
    · exact absurd h hi
    rcases smallEntries_binds hb' with ⟨-, -, h⟩ | ⟨-, -, h⟩ | ⟨rfl, -, -⟩
    · exact absurd h hi
    · exact absurd h hi
    · rfl
  · intro j x i hj hb
    rw [hdata] at hb
    rcases smallEntries_binds hb with ⟨rfl, -⟩ | ⟨rfl, -⟩ | ⟨-, -, rfl⟩
    · omega
    · omega
    · obtain ⟨n, hn⟩ := flatVolume_exists (.inr rfl)
      exact ⟨by decide, by rw [hn]; exact Option.some_ne_none n⟩
  · intro i n hn
    obtain ⟨-, ⟨rfl, -⟩ | ⟨rfl, -⟩⟩ := flatVolume_node hn
    · decide
    · decide

/-- A fresh disk whose directories form a tree with counted links. -/
structure Rooted (disk : ℕ → Block) : Prop extends Fresh disk where
  orderly : Orderly (boot (P := Unit) disk).node

theorem flatVolume_rooted : Rooted flatVolume where
  owned := by
    rw [flatVolume_read.superblock]
    exact flatVolume_owned
  entries := by
    intro i n hn hdir de hde
    rw [flatVolume_read.superblock]
    obtain ⟨-, ⟨-, -, hdata⟩ | ⟨-, hfile⟩⟩ := flatVolume_node hn
    · rw [hdata] at hde
      exact smallVolume_read.rootInums de hde
    · rw [hdir] at hfile
      exact absurd hfile (by decide)
  linked := by
    intro i n hn
    rw [(flatVolume_node hn).1]
    decide
  numbered := by
    rw [flatVolume_read.superblock]
    decide
  orderly := flatVolume_flat.choose_spec.orderly

end ZtlOs.Kernel
