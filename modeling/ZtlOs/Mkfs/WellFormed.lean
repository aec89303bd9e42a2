import Mathlib.Tactic.NormNum
import ZtlOs.Mkfs.Main

/-!
# When the image is well formed

The image that mkfs builds satisfies the layout of the kernel unless there are
more files than inodes, or the entries of the root directory fill their last
block exactly: then the rounded-up size covers a block that was never
allocated.
-/

namespace ZtlOs.Mkfs

open ZtlOs.Support ZtlOs.Fs

/-! ## The numbers that ialloc hands out -/

section Keeps

open Program (Keeps)

theorem wsect_keeps (sec : BitVec 32) (buf : Block) :
    Keeps State.freeinode (wsect sec buf) :=
  .modify fun _ => rfl

theorem rsect_keeps (sec : BitVec 32) : Keeps State.freeinode (rsect sec) :=
  .bind (.get _) fun _ => .ite (fun _ => .pure ..) fun _ => .throw ..

theorem assert_keeps (c : Prop) [Decidable c] :
    Keeps State.freeinode (assert c) :=
  .ite (fun _ => .pure ..) fun _ => .throw ..

theorem winode_keeps (inum : BitVec 32) (d : Dinode) :
    Keeps State.freeinode (winode inum d) :=
  .bind (rsect_keeps _) fun _ => wsect_keeps ..

theorem rinode_keeps (inum : BitVec 32) :
    Keeps State.freeinode (rinode inum) :=
  .bind (rsect_keeps _) fun _ => .pure ..

theorem takeBlock_keeps : Keeps State.freeinode takeBlock :=
  .bind (.get _) fun _ => .bind (.modify fun _ => rfl) fun _ => .pure ..

theorem entryFor_keeps (d : Dinode) (fbn : ℕ) :
    Keeps State.freeinode (entryFor d fbn) :=
  .bind (rsect_keeps _) fun _ => .ite
    (fun _ => .bind takeBlock_keeps fun _ => .bind (wsect_keeps ..) fun _ =>
      .pure ..)
    fun _ => .pure ..

theorem blockFor_keeps (d : Dinode) (fbn : ℕ) :
    Keeps State.freeinode (blockFor d fbn) := by
  rcases Nat.lt_or_ge fbn NDIRECT with hdir | hind
  · obtain ⟨k, rfl⟩ : ∃ k : Fin (NDIRECT + 1), k.val = fbn :=
      ⟨⟨fbn, by omega⟩, rfl⟩
    rw [blockFor_direct _ _ hdir]
    exact .ite (fun _ => .bind takeBlock_keeps fun _ => .pure ..)
      fun _ => .pure ..
  · rw [blockFor_indirect _ hind]
    refine .ite (fun _ => ?_) fun _ => ?_
    · exact .bind takeBlock_keeps fun _ => .bind (.pure ..) fun _ =>
        entryFor_keeps ..
    · exact .bind (.pure ..) fun _ => entryFor_keeps ..

theorem iappendLoop_keeps (fuel : ℕ) (p : List (BitVec 8)) (off : BitVec 32)
    (d : Dinode) : Keeps State.freeinode (iappendLoop fuel p off d) := by
  induction fuel generalizing p off d with
  | zero => exact .pure ..
  | succ fuel ih =>
      refine .ite (fun _ => .pure ..) fun _ => ?_
      exact .bind (assert_keeps _) fun _ => .bind (blockFor_keeps ..) fun _ =>
        .bind (rsect_keeps _) fun _ => .bind (wsect_keeps ..) fun _ => ih ..

theorem iappend_keeps (inum : BitVec 32) (p : List (BitVec 8)) :
    Keeps State.freeinode (iappend inum p) :=
  .bind (rinode_keeps _) fun _ => .bind (iappendLoop_keeps ..) fun _ =>
    winode_keeps ..

theorem appendAll_keeps (inum : BitVec 32) (fuel : ℕ)
    (rest : List (BitVec 8)) :
    Keeps State.freeinode (appendAll inum fuel rest) := by
  induction fuel generalizing rest with
  | zero => exact .pure ..
  | succ fuel ih =>
      exact .ite (fun _ => .pure ..) fun _ =>
        .bind (iappend_keeps ..) fun _ => ih _

theorem zeroSectors_keeps (n : ℕ) :
    Keeps State.freeinode (zeroSectors n) := by
  induction n with
  | zero => exact .pure ..
  | succ n ih => exact .bind ih fun _ => wsect_keeps ..

theorem format_keeps : Keeps State.freeinode format :=
  .bind (.modify fun _ => rfl) fun _ => .bind (zeroSectors_keeps _) fun _ =>
    wsect_keeps ..

theorem finish_keeps (rootino : BitVec 32) :
    Keeps State.freeinode (finish rootino) :=
  .bind (.bind (rinode_keeps _) fun _ => winode_keeps ..) fun _ =>
    .bind (.get _) fun _ => .bind (assert_keeps _) fun _ => wsect_keeps ..

end Keeps

section Inums

variable {s t : State} {inum rootino : BitVec 32} {files : List InputFile}
variable {inums : List (BitVec 32)}

theorem ialloc_freeinode {type : BitVec 16}
    (h : ialloc type s = .ok (inum, t)) :
    inum = s.freeinode ∧ t.freeinode = s.freeinode + 1 := by
  obtain ⟨_, s₁, h₁, h⟩ := Program.bind_eq_ok h
  cases h₁
  obtain ⟨_, s₂, h₂, h⟩ := Program.bind_eq_ok h
  cases h₂
  obtain ⟨_, s₃, h₃, h⟩ := Program.bind_eq_ok h
  have hkeep := (winode_keeps ..).eq _ _ _ h₃
  cases h
  exact ⟨rfl, hkeep⟩

theorem addFile_freeinode {file : InputFile}
    (h : addFile rootino file s = .ok (inum, t)) :
    inum = s.freeinode ∧ t.freeinode = s.freeinode + 1 := by
  obtain ⟨_, s₁, h₁, h⟩ := Program.bind_eq_ok h
  have hs₁ := (assert_keeps _).eq _ _ _ h₁
  cases hcontent : file.content with
  | none =>
      rw [hcontent] at h
      cases h
  | some content =>
      rw [hcontent] at h
      obtain ⟨inum', s₂, h₂, h⟩ := Program.bind_eq_ok h
      obtain ⟨rfl, hs₂⟩ := ialloc_freeinode h₂
      obtain ⟨_, s₃, h₃, h⟩ := Program.bind_eq_ok h
      have hs₃ := (iappend_keeps ..).eq _ _ _ h₃
      obtain ⟨_, s₄, h₄, h⟩ := Program.bind_eq_ok h
      have hs₄ := (appendAll_keeps ..).eq _ _ _ h₄
      cases h
      rw [hs₄, hs₃, hs₂, hs₁]
      exact ⟨rfl, rfl⟩

theorem addFiles_freeinode (h : addFiles rootino files s = .ok (inums, t)) :
    inums = inumsFrom s.freeinode files.length := by
  induction files generalizing s inums with
  | nil =>
      cases h
      rfl
  | cons file files ih =>
      obtain ⟨inum, s₁, h₁, h⟩ := Program.bind_eq_ok h
      obtain ⟨rfl, hs₁⟩ := addFile_freeinode h₁
      obtain ⟨rest, s₂, h₂, h⟩ := Program.bind_eq_ok h
      cases h
      rw [List.length_cons, inumsFrom_succ, ih h₂, hs₁]

/-- However many files there are, `ialloc` counts from one. -/
theorem main_inums (h : main files start = .ok (inums, t)) :
    inums = inumsFrom 1 (files.length + 1) := by
  obtain ⟨_, s₁, h₁, h⟩ := Program.bind_eq_ok h
  have hs₁ := format_keeps.eq _ _ _ h₁
  obtain ⟨rootino, s₂, h₂, h⟩ := Program.bind_eq_ok h
  obtain ⟨rfl, hs₂⟩ := ialloc_freeinode h₂
  obtain ⟨_, s₃, h₃, h⟩ := Program.bind_eq_ok h
  have hs₃ := (assert_keeps _).eq _ _ _ h₃
  obtain ⟨_, s₄, h₄, h⟩ := Program.bind_eq_ok h
  have hs₄ := (iappend_keeps ..).eq _ _ _ h₄
  obtain ⟨_, s₅, h₅, h⟩ := Program.bind_eq_ok h
  have hs₅ := (iappend_keeps ..).eq _ _ _ h₅
  obtain ⟨rest, s₆, h₆, h⟩ := Program.bind_eq_ok h
  have hrest := addFiles_freeinode h₆
  obtain ⟨_, s₇, h₇, h⟩ := Program.bind_eq_ok h
  cases h
  rw [hs₅, hs₄, hs₃, hs₂] at hrest
  rw [inumsFrom_succ, hrest, hs₁]
  rfl

end Inums

/-! ## The layout of the kernel -/

/-- The block with index `bn` of inode `i`, as `bmap` finds it. -/
def State.block (t : State) (i bn : ℕ) : ℕ :=
  (t.inode i).block t.sect bn

/-- The image satisfies the layout of the kernel, where `inums` are the inodes
used. -/
structure WellFormedImage (inums : List (BitVec 32)) (t : State) : Prop where
  superblock : (t.sect 1).superblock = sb
  inodes : ∀ inum ∈ inums, inum.toNat < sb.ninodes ∧
    sb.inodestart ≤ IBLOCK inum.toNat sb ∧ IBLOCK inum.toNat sb < sb.bmapstart
  mapped : ∀ inum ∈ inums, ∀ bn < blocksOf (t.inode inum.toNat).size.toNat,
    t.block inum.toNat bn ≠ 0 ∧ nmeta ≤ t.block inum.toNat bn ∧
      t.block inum.toNat bn < FSSIZE
  distinct : ∀ inum ∈ inums, ∀ bn < blocksOf (t.inode inum.toNat).size.toNat,
    ∀ inum' ∈ inums, ∀ bn' < blocksOf (t.inode inum'.toNat).size.toNat,
    t.block inum.toNat bn = t.block inum'.toNat bn' → inum = inum' ∧ bn = bn'
  bitmap : ∀ b < BPB,
    (t.sect sb.bmapstart).bit b = decide (b < t.freeblock.toNat)

section WellFormed

variable {files : List InputFile} {inums : List (BitVec 32)} {t : State}

theorem superblock_superblock : superblock.superblock = sb := by
  decide +kernel

theorem mem_inumsFrom {n : ℕ} {inum : BitVec 32} (hn : n < 2 ^ 32) :
    inum ∈ inumsFrom 1 n ↔ 1 ≤ inum.toNat ∧ inum.toNat ≤ n := by
  have hone : (1 : BitVec 32).toNat = 1 := rfl
  rw [inumsFrom, List.mem_map]
  constructor
  · rintro ⟨k, hk, rfl⟩
    rw [List.mem_range] at hk
    rw [BitVec.toNat_add, BitVec.toNat_ofNat, hone]
    omega
  · rintro ⟨h₁, h₂⟩
    refine ⟨inum.toNat - 1, List.mem_range.mpr (by omega), ?_⟩
    apply BitVec.eq_of_toNat_eq
    rw [BitVec.toNat_add, BitVec.toNat_ofNat, hone]
    omega

/-- The root directory covers only allocated blocks unless its entries fill
the last one. -/
theorem blocksOf_roundup {len : ℕ} (h : len % BSIZE ≠ 0) :
    blocksOf ((len / BSIZE + 1) * BSIZE) = blocksOf len := by
  simp only [blocksOf, BSIZE] at h ⊢
  omega

theorem lt_blocksOf_roundup (len : ℕ) :
    len / BSIZE < blocksOf ((len / BSIZE + 1) * BSIZE) := by
  simp only [blocksOf, BSIZE]
  omega

theorem blocksOf_exact {len : ℕ} (h : len % BSIZE = 0) :
    blocksOf len = len / BSIZE := by
  simp only [blocksOf, BSIZE] at h ⊢
  omega

/-- With few enough files every block of every inode is allocated. -/
theorem Built.wellFormed (hb : Built files inums t) (hlen : files.length ≤ 198)
    (hmod : (files.length + 2) % 32 ≠ 0) : WellFormedImage inums t := by
  obtain ⟨rfl, hino, hroot, s, hf⟩ := hb
  set c := addContents ROOTINO rootContents 2 files with hc
  have hlaid := hf.good.laid
  have hused : ∀ inum ∈ inumsFrom 1 (files.length + 1),
      t.Used inum.toNat := by
    intro inum hmem
    rw [mem_inumsFrom (by omega)] at hmem
    exact ⟨hmem.1, by omega⟩
  have hblock : ∀ inum ∈ inumsFrom 1 (files.length + 1), ∀ bn,
      t.block inum.toNat bn = slots t.sect t.view inum.toNat (dataSlot bn) := by
    intro inum hmem bn
    rw [slots, State.view_of_used (hused inum hmem)]
    rfl
  have hsize : ∀ inum ∈ inumsFrom 1 (files.length + 1),
      blocksOf (t.inode inum.toNat).size.toNat = nmapOf c inum.toNat := by
    intro inum hmem
    by_cases hi : inum.toNat = ROOTINO
    · rw [hi, hf.rootSize, blocksOf_roundup]
      · rfl
      · rw [hroot]
        simp only [Dirent.size, BSIZE]
        omega
    · rw [hf.sizes _ (hused inum hmem) hi]
      rfl
  constructor
  · rw [hf.superblock]
    exact superblock_superblock
  · intro inum hmem
    rw [mem_inumsFrom (by omega)] at hmem
    refine ⟨?_, inodestart_le _, iblock_lt ?_⟩
    · change inum.toNat < 200
      omega
    · change inum.toNat < 208
      omega
  · intro inum hmem bn hbn
    rw [hsize inum hmem] at hbn
    rw [hblock inum hmem]
    exact ⟨hlaid.mapped _ _ hbn, hlaid.nmeta_le hbn,
      lt_of_lt_of_le (hlaid.lt_free hbn) hf.good.full⟩
  · intro inum hmem bn hbn inum' hmem' bn' hbn' heq
    rw [hsize inum hmem] at hbn
    rw [hsize inum' hmem'] at hbn'
    rw [hblock inum hmem, hblock inum' hmem'] at heq
    obtain ⟨h₁, h₂⟩ := hlaid.separate.inj _ _ _ _
      (dataSlot_lt (lt_of_lt_of_le hbn (hlaid.bound _)))
      (dataSlot_lt (lt_of_lt_of_le hbn' (hlaid.bound _)))
      (hlaid.mapped _ _ hbn) heq
    exact ⟨BitVec.eq_of_toNat_eq h₁, dataSlot_injective h₂⟩
  · intro b _
    have hfull := hf.good.full
    rw [hf.bitmap, bit_bitmap (hfull.trans (by decide))]

/-- The entries fill their last block, and the size covers one more. -/
theorem Built.not_wellFormed (hb : Built files inums t)
    (hlen : files.length ≤ 198) (hmod : (files.length + 2) % 32 = 0) :
    ¬WellFormedImage inums t := by
  intro hwf
  obtain ⟨rfl, hino, hroot, s, hf⟩ := hb
  have hone : (1 : BitVec 32).toNat = ROOTINO := rfl
  have hmem : (1 : BitVec 32) ∈ inumsFrom 1 (files.length + 1) := by
    rw [mem_inumsFrom (by omega)]
    exact ⟨le_rfl, Nat.le_add_left ..⟩
  set c := addContents ROOTINO rootContents 2 files with hc
  have hfull : (c ROOTINO).length % BSIZE = 0 := by
    rw [hroot]
    simp only [Dirent.size, BSIZE]
    omega
  have hbn := lt_blocksOf_roundup (c ROOTINO).length
  have hmapped := (hwf.mapped 1 hmem ((c ROOTINO).length / BSIZE) (by
    rw [hone, hf.rootSize]
    exact hbn)).1
  apply hmapped
  have hslot := hf.good.laid.unmapped ROOTINO ((c ROOTINO).length / BSIZE)
    (blocksOf_exact hfull).le (by
      rw [hroot]
      simp only [Dirent.size, BSIZE, MAXFILE, NDIRECT, NINDIRECT]
      omega)
  rw [slots, State.view_of_used ⟨by decide, by
    rw [hino]
    change 1 < _
    omega⟩] at hslot
  exact hslot

/-- The image satisfies the layout of the kernel exactly when the inodes
suffice and the entries of the root directory do not fill their last block. -/
theorem image_wellFormed_iff (h : main files start = .ok (inums, t)) :
    WellFormedImage inums t ↔
      files.length ≤ 198 ∧ (files.length + 2) % 32 ≠ 0 := by
  have hinums := main_inums h
  rcases Nat.lt_or_ge 198 files.length with hlen | hlen
  · refine iff_of_false ?_ (fun hc => absurd hc.1 (not_le.mpr hlen))
    intro hwf
    have hmem : 1 + BitVec.ofNat 32 199 ∈ inums := by
      rw [hinums]
      exact List.mem_map.mpr ⟨199, List.mem_range.mpr (by omega), rfl⟩
    exact absurd (hwf.inodes _ hmem).1 (by decide)
  · have hbuilt := (main_spec (show files.length + 2 ≤ 208 by omega)).returns h
    by_cases hmod : (files.length + 2) % 32 = 0
    · exact iff_of_false (hbuilt.not_wellFormed hlen hmod)
        fun hc => hc.2 hmod
    · exact iff_of_true (hbuilt.wellFormed hlen hmod) ⟨hlen, hmod⟩

end WellFormed

/-- Empty files with distinct one-letter names. -/
def emptyFiles (n : ℕ) : List InputFile :=
  (List.range n).map fun k => ⟨[BitVec.ofNat 8 (0x61 + k)], some []⟩

theorem emptyFiles_exits {n : ℕ} (hn : n ≤ 30) :
    ∃ inums t, main (emptyFiles n) start = .ok (inums, t) ∧
      Built (emptyFiles n) inums t := by
  have hlen : (emptyFiles n).length = n := by simp [emptyFiles]
  have hneed : ((emptyFiles n).map InputFile.need).sum = 0 := by
    rw [List.sum_eq_zero_iff_forall_eq_nat]
    intro m hm
    obtain ⟨file, hfile, rfl⟩ := List.mem_map.mp hm
    obtain ⟨k, -, rfl⟩ := List.mem_map.mp hfile
    have hcost : cost (blocksOf 0) = 0 := by decide
    exact hcost
  refine main_exits ?_ ?_ ?_
  · rw [hlen]
    change n + 2 ≤ 208
    omega
  · intro file hfile
    obtain ⟨k, hk, rfl⟩ := List.mem_map.mp hfile
    rw [List.mem_range] at hk
    refine ⟨?_, [], rfl, Nat.zero_le _⟩
    rw [List.mem_singleton]
    intro h
    have h := congrArg BitVec.toNat h
    rw [BitVec.toNat_ofNat] at h
    change 47 = _ at h
    omega
  · have hmono := cost_mono (blocksOf_mono
      (Nat.mul_le_mul_left Dirent.size (show n + 2 ≤ 32 by omega)))
    have hroot : nmeta + cost (blocksOf (Dirent.size * 32)) ≤ FSSIZE := by
      decide
    rw [need, hlen, hneed]
    omega

/-- Three files give a well-formed image. -/
theorem image_wellFormed_iff_threeFiles :
    ∃ inums t, main (emptyFiles 3) start = .ok (inums, t) ∧
      (WellFormedImage inums t ↔ (emptyFiles 3).length ≤ 198 ∧
        ((emptyFiles 3).length + 2) % 32 ≠ 0) ∧ WellFormedImage inums t := by
  obtain ⟨inums, t, h, -⟩ := emptyFiles_exits (show 3 ≤ 30 by decide)
  have hiff := image_wellFormed_iff h
  exact ⟨inums, t, h, hiff, hiff.mpr (by decide)⟩

/-- The entries of thirty files fill the first block of the root directory. -/
theorem thirtyFiles_not_wellFormed :
    ∃ inums t, main (emptyFiles 30) start = .ok (inums, t) ∧
      ¬WellFormedImage inums t := by
  obtain ⟨inums, t, h, hbuilt⟩ := emptyFiles_exits (le_refl 30)
  exact ⟨inums, t, h, hbuilt.not_wellFormed (by decide) (by decide)⟩

end ZtlOs.Mkfs
