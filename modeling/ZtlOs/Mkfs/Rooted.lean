import ZtlOs.Kernel.TreeRuns
import ZtlOs.Mkfs.Tidy
import ZtlOs.Mkfs.WellFormed

/-!
# When the image is a rooted volume

The volume that mkfs builds is one from which the kernel keeps a tree of
directories with counted links, unless there are more files than inodes, the
entries of the root directory fill their last block exactly, or two of them
have the same name.
-/

namespace ZtlOs.Mkfs

open ZtlOs.Support ZtlOs.Support.Bindings ZtlOs.Support.Sequence ZtlOs.Fs

open Kernel (Bytes bindings bindingOf cutName cstring direntName dot dotdot)

/-! ## The entries of the root directory -/

theorem cstring_ofFn {n : ℕ} {name : Bytes} :
    cstring n (List.ofFn fun k : Fin n => name.getD k.val 0) =
      cstring n name := by
  induction n generalizing name with
  | zero => rfl
  | succ n ih =>
      have htail : (List.ofFn fun k : Fin n => name.getD (k.val + 1) 0) =
          List.ofFn fun k : Fin n => name.tail.getD k.val 0 := by
        cases name <;> rfl
      rw [Kernel.cstring_succ, Kernel.cstring_succ, List.ofFn_succ,
        List.headD_cons, List.tail_cons]
      change (if name.getD 0 0 = 0 then _ else _ :: cstring n
        (List.ofFn fun k : Fin n => name.getD (k.val + 1) 0)) = _
      rw [htail, ih]
      cases name <;> rfl

/-- The name in an entry, as the kernel reads it. -/
theorem bindingOf_dirent {inum : BitVec 32} {name : Bytes}
    (hpos : 1 ≤ inum.toNat) (hle : inum.toNat ≤ 65535) :
    bindingOf (dirent inum name) = some (cutName name, inum.toNat) := by
  have hnum : (dirent inum name).inum.toNat = inum.toNat := by
    rw [dirent, xshort_eq, BitVec.toNat_setWidth]
    exact Nat.mod_eq_of_lt (by omega)
  have hne : (dirent inum name).inum ≠ 0 := by
    intro hzero
    rw [hzero] at hnum
    change 0 = _ at hnum
    omega
  rw [bindingOf, if_neg hne, hnum]
  exact congrArg (fun x => some (x, inum.toNat)) cstring_ofFn

theorem bindings_append {l : Bytes} {de : Dirent}
    (h : Dirent.size ∣ l.length) :
    bindings (l ++ de.bytes) = bindings l ++ [bindingOf de] := by
  obtain ⟨j, hj⟩ := h
  have hsplice : splice l (Dirent.size * j) de.bytes = l ++ de.bytes := by
    rw [splice, ← hj, List.take_length, List.drop_eq_nil_of_le (by omega),
      List.append_nil]
  rw [bindings, ← hsplice, dirents_splice_append hj.symm, List.map_append]
  rfl

/-- Zeros behind the entries are free entries. -/
theorem bindings_append_zeros {l : Bytes} {m : ℕ}
    (h : Dirent.size ∣ l.length) :
    bindings (l ++ List.replicate (Dirent.size * m) 0) =
      bindings l ++ List.replicate m none := by
  induction m with
  | zero => rw [Nat.mul_zero, List.replicate_zero, List.append_nil,
      List.replicate_zero, List.append_nil]
  | succ m ih =>
      have hzero : List.replicate Dirent.size 0 = Dirent.zero.bytes := by decide
      rw [Nat.mul_succ, List.replicate_add, ← List.append_assoc, hzero,
        bindings_append, ih, List.append_assoc, List.replicate_succ']
      · rfl
      · rw [List.length_append, List.length_replicate]
        exact Nat.dvd_add h (Nat.dvd_mul_right ..)

/-- The names of the files, as the kernel reads them. -/
def fileNames (files : List InputFile) : List Bytes :=
  files.map fun file => cutName file.entryName

/-- The names in the root directory. -/
def rootNames (files : List InputFile) : List Bytes :=
  dot :: dotdot :: fileNames files

theorem bindings_addContents (files : List InputFile) (inum : BitVec 32)
    {c : Contents} (h : Dirent.size ∣ (c ROOTINO).length)
    (hpos : 2 ≤ inum.toNat) (hle : inum.toNat + files.length ≤ 65536) :
    Dirent.size ∣ (addContents ROOTINO c inum files ROOTINO).length ∧
      bindings (addContents ROOTINO c inum files ROOTINO) =
        bindings (c ROOTINO) ++
          ((fileNames files).zipIdx inum.toNat).map some := by
  induction files generalizing c inum with
  | nil => exact ⟨h, (List.append_nil _).symm⟩
  | cons file files ih =>
      rw [List.length_cons] at hle
      have hne : ROOTINO ≠ inum.toNat := by
        change 1 ≠ _
        omega
      have hself : addContent c ROOTINO file inum ROOTINO =
          c ROOTINO ++ (dirent inum file.entryName).bytes := by
        rw [addContent, Function.update_of_ne hne, Function.update_self]
      have hnext : (inum + 1).toNat = inum.toNat + 1 := by
        rw [BitVec.toNat_add, show (1 : BitVec 32).toNat = 1 from rfl]
        omega
      have hdvd : Dirent.size ∣
          (addContent c ROOTINO file inum ROOTINO).length := by
        rw [hself, List.length_append, Dirent.length_bytes]
        exact Nat.dvd_add h (Nat.dvd_refl _)
      obtain ⟨hwhole, hbind⟩ := ih (inum + 1) hdvd (by omega) (by omega)
      refine ⟨hwhole, ?_⟩
      rw [addContents, hbind, hself, bindings_append h,
        bindingOf_dirent (by omega) (by omega), hnext, List.append_assoc]
      rfl

/-- The slots of the root directory, the free ones at its end left out. -/
def rootBindings (files : List InputFile) : List (Option (Bytes × ℕ)) :=
  some (dot, ROOTINO) :: some (dotdot, ROOTINO) ::
    ((fileNames files).zipIdx 2).map some

section Root

variable {files : List InputFile} {i j : ℕ} {x : Bytes}

variable (files) in
/-- The root directory after the last file, its last block filled up. -/
theorem bindings_root (h : files.length ≤ 65534) :
    Dirent.size ∣
      (padded (addContents ROOTINO rootContents 2 files) ROOTINO).length ∧
    ∃ m, bindings (padded (addContents ROOTINO rootContents 2 files) ROOTINO) =
      rootBindings files ++ List.replicate m none := by
  have htwo : (2 : BitVec 32).toNat = 2 := rfl
  have hroot : rootContents ROOTINO =
      (dirent 1 dot).bytes ++ (dirent 1 dotdot).bytes :=
    Function.update_self ..
  have hlen : (rootContents ROOTINO).length = Dirent.size * 2 := by
    rw [hroot, List.length_append, Dirent.length_bytes, Dirent.length_bytes,
      Nat.mul_two]
  obtain ⟨hwhole, hbind⟩ := bindings_addContents files 2
    (Dvd.intro _ hlen.symm) le_rfl (by omega)
  obtain ⟨n, hn⟩ := hwhole
  set c := addContents ROOTINO rootContents 2 files with hc
  have hroom : (c ROOTINO).length ≤ blocksOf (c ROOTINO).length * BSIZE := by
    simp only [blocksOf, BSIZE]
    omega
  obtain ⟨m, hm⟩ : ∃ m, blocksOf (c ROOTINO).length * BSIZE -
      (c ROOTINO).length = Dirent.size * m := by
    refine ⟨blocksOf (c ROOTINO).length * 32 - n, ?_⟩
    rw [hn]
    simp only [Dirent.size, BSIZE]
    omega
  have hpadded : padded c ROOTINO =
      c ROOTINO ++ List.replicate (Dirent.size * m) 0 := by
    rw [padded, Function.update_self, hm]
  have hstart : bindings (rootContents ROOTINO) =
      [some (dot, ROOTINO), some (dotdot, ROOTINO)] := by
    rw [hroot]
    decide
  rw [hpadded]
  constructor
  · rw [List.length_append, List.length_replicate, hn]
    exact Nat.dvd_add (Nat.dvd_mul_right ..) (Nat.dvd_mul_right ..)
  · refine ⟨m, ?_⟩
    rw [bindings_append_zeros ⟨n, hn⟩, hbind, hstart, htwo]
    rfl

/-- Entry `j` of the root directory names inode `j`, but the second and the
first both name the directory itself. -/
theorem binds_rootBindings : Binds (rootBindings files) j x i ↔
    (rootNames files)[j]? = some x ∧ i = max j 1 := by
  rcases j with _ | _ | j
  · simp [Binds, rootBindings, rootNames, ROOTINO, eq_comm]
  · simp [Binds, rootBindings, rootNames, ROOTINO, eq_comm]
  · have hmax : max (j + 1 + 1) 1 = 2 + j := by omega
    rw [hmax, Binds, rootBindings, rootNames, List.getElem?_cons_succ,
      List.getElem?_cons_succ, List.getElem?_cons_succ,
      List.getElem?_cons_succ, List.getElem?_map, List.getElem?_zipIdx]
    cases (fileNames files)[j]? <;> simp [eq_comm]

theorem distinct_rootBindings :
    Distinct (rootBindings files) ↔ (rootNames files).Nodup := by
  rw [List.nodup_iff_getElem?_ne_getElem?]
  constructor
  · intro h i j hij hj heq
    have hx : (rootNames files)[j]? = some (rootNames files)[j] :=
      List.getElem?_eq_getElem hj
    have := h i j _ _ _ (binds_rootBindings.mpr ⟨heq.trans hx, rfl⟩)
      (binds_rootBindings.mpr ⟨hx, rfl⟩)
    omega
  · intro h i j x v w hi hj
    obtain ⟨hi, -⟩ := binds_rootBindings.mp hi
    obtain ⟨hj, -⟩ := binds_rootBindings.mp hj
    rcases Nat.lt_trichotomy i j with hlt | heq | hlt
    · exact absurd (hi.trans hj.symm)
        (h i j hlt (List.getElem?_eq_some_iff.mp hj).1)
    · exact heq
    · exact absurd (hj.trans hi.symm)
        (h j i hlt (List.getElem?_eq_some_iff.mp hi).1)

/-- The free slots at the end bind nothing. -/
theorem binds_root {m : ℕ} :
    Binds (rootBindings files ++ List.replicate m none) j x i ↔
      (rootNames files)[j]? = some x ∧ i = max j 1 :=
  binds_append_free.trans binds_rootBindings

end Root

/-! ## What the kernel finds in the image -/

/-- The image of a run of mkfs whose inodes are all in the inode area. -/
structure Mountable (files : List InputFile) (t : State) : Prop where
  area : files.length + 2 ≤ ninodeblocks * IPB
  used : ∀ i, t.Used i ↔ 1 ≤ i ∧ i < files.length + 2
  rootLength : (addContents ROOTINO rootContents 2 files ROOTINO).length =
    Dirent.size * (files.length + 2)
  tidy : Tidy t (addContents ROOTINO rootContents 2 files)
  finished : ∃ s, Finished s t (addContents ROOTINO rootContents 2 files)
    ROOTINO

namespace Mountable

variable {files : List InputFile} {t : State} {i j : ℕ} {x : Bytes}
variable {n : Node}

theorem of_main {inums : List (BitVec 32)}
    (h : main files start = .ok (inums, t))
    (hlen : files.length + 2 ≤ ninodeblocks * IPB) : Mountable files t := by
  have hbuilt := (main_spec hlen).returns h
  refine ⟨hlen, fun i => ?_, hbuilt.rootLength, (main_tidy hlen).returns h,
    hbuilt.finished⟩
  rw [State.Used, hbuilt.freeinode]

variable (h : Mountable files t)

include h

theorem superblock : (t.sect 1).superblock = sb := by
  obtain ⟨s, hf⟩ := h.finished
  rw [hf.superblock]
  exact superblock_superblock

theorem used_root : t.Used ROOTINO :=
  (h.used _).mpr ⟨le_rfl, Nat.le_add_left ..⟩

theorem used_lt (hlen : files.length ≤ 198) (hu : t.Used i) :
    i < sb.ninodes := by
  have := ((h.used i).mp hu).2
  change i < 200
  omega

/-- The kernel finds an inode of its table that mkfs has handed out. -/
theorem type_ne_zero (hi : i < sb.ninodes) :
    (t.inode i).type ≠ 0 ↔ t.Used i := by
  have harea : i < ninodeblocks * IPB := hi.trans (by decide)
  constructor
  · intro hne
    by_contra hu
    exact hne (h.tidy.blank i harea hu)
  · intro hu
    rw [h.tidy.type i hu]
    split <;> decide

theorem live_of_used (hi : i < sb.ninodes) (hu : t.Used i) :
    Kernel.live sb (Kernel.inodeOf sb t.sect) i = t.view i := by
  rw [State.view_of_used hu]
  exact Kernel.live_of_type hi ((h.type_ne_zero hi).mpr hu)

theorem listing_eq (hlen : files.length ≤ 198) :
    Kernel.listing sb t.sect (Kernel.inodeOf sb t.sect) =
      slots t.sect t.view := by
  have hlive : Kernel.live sb (Kernel.inodeOf sb t.sect) = t.view := by
    funext i
    by_cases hu : t.Used i
    · exact h.live_of_used (h.used_lt hlen hu) hu
    · rw [State.view, if_neg hu, Kernel.live_of_free]
      rintro ⟨hi, hne⟩
      exact hu ((h.type_ne_zero hi).mp hne)
  rw [Kernel.listing, hlive]

theorem listing_root (k : ℕ) :
    Kernel.listing sb t.sect (Kernel.inodeOf sb t.sect) ROOTINO k =
      slots t.sect t.view ROOTINO k := by
  rw [Kernel.listing, slots, h.live_of_used (by decide) h.used_root]
  rfl

/-! ### The blocks -/

/-- The bitmap has the blocks that are used, and no others. -/
theorem bmapBit {b : ℕ} (hb : b < sb.size) :
    Kernel.bmapBit sb t.sect b = true ↔
      b < nmeta ∨ (slots t.sect t.view).Lists b := by
  obtain ⟨s, hf⟩ := h.finished
  have hfull := hf.good.full
  have hlaid := hf.good.laid
  have hsmall : b < BPB := hb.trans (by decide)
  have hblock : BBLOCK b sb = sb.bmapstart := by
    rw [BBLOCK, Nat.div_eq_of_lt hsmall, Nat.zero_add]
  rw [Kernel.bmapBit, hblock, hf.bitmap, bit_bitmap (hfull.trans (by decide)),
    Nat.mod_eq_of_lt hsmall, decide_eq_true_eq]
  constructor
  · intro hlt
    rcases Nat.lt_or_ge b nmeta with hmeta | hmeta
    · exact .inl hmeta
    · exact .inr (hlaid.lists h.tidy.packed hmeta hlt)
  · rintro (hmeta | ⟨i, k, hk, rfl⟩)
    · exact hmeta.trans_le hlaid.above
    · by_cases hzero : slots t.sect t.view i k = 0
      · rw [hzero]
        exact lt_of_lt_of_le (by decide) hlaid.above
      · exact (hlaid.separate.inside i k hk hzero).2

/-- The volume is sound unless the root directory is rounded up too far. -/
theorem owned (hlen : files.length ≤ 198)
    (hmod : (files.length + 2) % 32 ≠ 0) :
    Kernel.Owned sb t.sect (Kernel.inodeOf sb t.sect) := by
  obtain ⟨s, hf⟩ := h.finished
  have hlaid := hf.good.laid
  have hfull := hf.good.full
  have hlist := h.listing_eq hlen
  constructor
  · constructor <;> decide
  · exact h.superblock
  · rw [hlist]
    refine ⟨fun i k hk hne => ?_, hlaid.separate.inj⟩
    obtain ⟨hlow, hhigh⟩ := hlaid.separate.inside i k hk hne
    exact ⟨hlow, hhigh.trans_le hfull⟩
  · intro b hb _
    rw [hlist]
    exact h.bmapBit hb
  · intro i hi htype _ bn hbn
    have hu : t.Used i := (h.type_ne_zero hi).mp htype
    rw [hlist]
    apply hlaid.mapped
    change bn < blocksOf (t.inode i).size.toNat at hbn
    by_cases hroot : i = ROOTINO
    · subst hroot
      rw [hf.rootSize, blocksOf_roundup] at hbn
      · exact hbn
      · rw [h.rootLength]
        simp only [Dirent.size, BSIZE]
        omega
    · rw [hf.sizes i hu hroot] at hbn
      exact hbn

/-- The root directory has a block that was never allocated. -/
theorem not_owned (hmod : (files.length + 2) % 32 = 0) :
    ¬Kernel.Owned sb t.sect (Kernel.inodeOf sb t.sect) := by
  intro howned
  obtain ⟨s, hf⟩ := h.finished
  set c := addContents ROOTINO rootContents 2 files with hc
  have hfull : (c ROOTINO).length % BSIZE = 0 := by
    rw [h.rootLength]
    simp only [Dirent.size, BSIZE]
    omega
  have htype : (t.inode ROOTINO).type = T_DIR := h.tidy.type _ h.used_root
  have hbn := lt_blocksOf_roundup (c ROOTINO).length
  rw [← hf.rootSize] at hbn
  have hmapped := howned.mapped ROOTINO (by decide)
    (fun hzero => absurd (htype.symm.trans hzero) (by decide))
    (fun hdev => absurd (htype.symm.trans hdev) (by decide)) _ hbn
  rw [h.listing_root] at hmapped
  apply hmapped
  apply hf.good.laid.unmapped ROOTINO
  · exact (blocksOf_exact hfull).le
  · have harea := h.area
    change files.length + 2 ≤ 208 at harea
    rw [h.rootLength]
    simp only [Dirent.size, BSIZE, MAXFILE, NDIRECT, NINDIRECT]
    omega

/-! ### The nodes -/

theorem boot_sb : (Kernel.boot (P := Unit) t.sect).sb = sb :=
  h.superblock

theorem boot_inode : (Kernel.boot (P := Unit) t.sect).inode = t.inode := by
  rw [Kernel.State.inode, h.boot_sb]
  rfl

theorem of_node (hn : (Kernel.boot (P := Unit) t.sect).node i = some n) :
    t.Used i ∧ n.type = (if i = ROOTINO then T_DIR else T_FILE) ∧
      n.nlink = 1 := by
  obtain ⟨hi, htype, rfl⟩ := Kernel.of_node_eq_some hn
  rw [h.boot_sb] at hi
  rw [h.boot_inode] at htype ⊢
  have hu := (h.type_ne_zero hi).mp htype
  exact ⟨hu, h.tidy.type i hu, h.tidy.nlink i hu⟩

theorem exists_node (hi : i < sb.ninodes) (hu : t.Used i) :
    ∃ n, (Kernel.boot (P := Unit) t.sect).node i = some n := by
  refine ⟨_, Kernel.node_eq_some ?_ ?_⟩
  · rw [h.boot_sb]
    exact hi
  · rw [h.boot_inode]
    exact (h.type_ne_zero hi).mpr hu

/-- The bytes that the size of an inode covers. -/
theorem bytes_eq (hi : i < sb.ninodes) (hu : t.Used i)
    (hsize : (t.inode i).size.toNat =
      (padded (addContents ROOTINO rootContents 2 files) i).length) :
    (Kernel.boot (P := Unit) t.sect).bytes i =
      padded (addContents ROOTINO rootContents 2 files) i := by
  rw [Kernel.State.bytes, h.boot_inode, h.boot_sb, hsize]
  apply List.ext_getElem
  · exact length_slice
  · intro k hk hk'
    rw [getElem_slice, Nat.zero_add, ← h.tidy.padded i k hk']
    exact congrArg (fun d => Dinode.byteAt t.sect d k) (h.live_of_used hi hu)

theorem bytes_root (hmod : (files.length + 2) % 32 ≠ 0) :
    (Kernel.boot (P := Unit) t.sect).bytes ROOTINO =
      padded (addContents ROOTINO rootContents 2 files) ROOTINO := by
  obtain ⟨s, hf⟩ := h.finished
  refine h.bytes_eq (by decide) h.used_root ?_
  rw [hf.rootSize, length_padded, h.rootLength]
  simp only [Dirent.size, blocksOf, BSIZE]
  omega

theorem bytes_file (hi : i < sb.ninodes) (hu : t.Used i) (hne : i ≠ ROOTINO) :
    (Kernel.boot (P := Unit) t.sect).bytes i =
      addContents ROOTINO rootContents 2 files i := by
  obtain ⟨s, hf⟩ := h.finished
  rw [h.bytes_eq hi hu (by rw [padded_of_ne hne, hf.sizes i hu hne]),
    padded_of_ne hne]

/-- The names in the root directory. -/
theorem binds_iff (hmod : (files.length + 2) % 32 ≠ 0) :
    Binds (bindings ((Kernel.boot (P := Unit) t.sect).bytes ROOTINO)) j x i ↔
      (rootNames files)[j]? = some x ∧ i = max j 1 := by
  have harea := h.area
  change files.length + 2 ≤ 208 at harea
  obtain ⟨-, m, hm⟩ := bindings_root files (by omega)
  rw [h.bytes_root hmod, hm, binds_root]

theorem root_node (hn : (Kernel.boot (P := Unit) t.sect).node ROOTINO =
    some n) : n.type = T_DIR ∧ n.nlink = 1 ∧
      n.data = (Kernel.boot (P := Unit) t.sect).bytes ROOTINO := by
  obtain ⟨-, htype, hlink⟩ := h.of_node hn
  obtain ⟨-, -, rfl⟩ := Kernel.of_node_eq_some hn
  exact ⟨htype, hlink, rfl⟩

/-- With different names, the volume has one directory. -/
theorem flat (hlen : files.length ≤ 198)
    (hmod : (files.length + 2) % 32 ≠ 0) (hnodup : (rootNames files).Nodup)
    (hn : (Kernel.boot (P := Unit) t.sect).node ROOTINO = some n) :
    Kernel.Flat (Kernel.boot (P := Unit) t.sect).node n := by
  obtain ⟨htype, hlink, hdata⟩ := h.root_node hn
  obtain ⟨hwhole, m, hm⟩ := bindings_root files (by omega)
  have hbinds : ∀ {j x i}, Binds (bindings n.data) j x i ↔
      (rootNames files)[j]? = some x ∧ i = max j 1 := by
    rw [hdata]
    exact h.binds_iff hmod
  have hcount : (rootNames files).length = files.length + 2 := by
    simp [rootNames, fileNames]
  have hfile : ∀ {j x i}, Binds (bindings n.data) j x i → i ≠ ROOTINO →
      i = j := by
    intro j x i hb hi
    have := (hbinds.mp hb).2
    change i ≠ 1 at hi
    omega
  constructor
  · exact hn
  · exact htype
  · exact hlink
  · rw [hdata, h.bytes_root hmod]
    exact hwhole
  · rw [hdata, h.bytes_root hmod, hm]
    intro i j x v w hi hj
    exact distinct_rootBindings.mpr hnodup i j x v w
      (binds_append_free.mp hi) (binds_append_free.mp hj)
  · exact hbinds.mpr ⟨rfl, rfl⟩
  · exact hbinds.mpr ⟨rfl, rfl⟩
  · intro i m hm hi
    obtain ⟨-, htype, hlink⟩ := h.of_node hm
    refine ⟨?_, hlink⟩
    rw [htype, if_neg hi]
    decide
  · intro i m hm hi
    obtain ⟨hpos, hlt⟩ := (h.used i).mp (h.of_node hm).1
    change i ≠ 1 at hi
    exact ⟨i, (rootNames files)[i], hbinds.mpr
      ⟨List.getElem?_eq_getElem (by omega), by omega⟩⟩
  · intro i j x j' x' hi hb hb'
    exact (hfile hb hi).symm.trans (hfile hb' hi)
  · intro j x i hj hb
    obtain ⟨hx, hi⟩ := hbinds.mp hb
    have hlt := (List.getElem?_eq_some_iff.mp hx).1
    have hu : t.Used i := (h.used i).mpr (by omega)
    obtain ⟨m, hm⟩ := h.exists_node (h.used_lt hlen hu) hu
    refine ⟨?_, by rw [hm]; exact Option.some_ne_none m⟩
    change i ≠ 1
    omega
  · intro i m hm
    obtain ⟨hpos, hlt⟩ := (h.used i).mp (h.of_node hm).1
    omega

theorem rooted (hlen : files.length ≤ 198)
    (hmod : (files.length + 2) % 32 ≠ 0) (hnodup : (rootNames files).Nodup) :
    Kernel.Rooted t.sect := by
  obtain ⟨r, hr⟩ := h.exists_node (by decide) h.used_root
  constructor
  · constructor
    · constructor
      · rw [h.superblock]
        exact h.owned hlen hmod
      · intro i n hn hdir de hde
        rw [h.superblock]
        obtain ⟨-, htype, -⟩ := h.of_node hn
        split at htype
        swap
        · rw [hdir] at htype
          exact absurd htype (by decide)
        next hi =>
          subst hi
          -- A free entry has number zero, and the others name inodes.
          by_cases hzero : de.inum = 0
          · rw [hzero]
            decide
          obtain ⟨j, hj⟩ := List.getElem?_of_mem
            (List.mem_map_of_mem (f := bindingOf) hde)
          rw [bindingOf, if_neg hzero] at hj
          have hb : Binds (bindings n.data) j _ _ := hj
          rw [(h.root_node hn).2.2, h.binds_iff hmod] at hb
          have hlt := (List.getElem?_eq_some_iff.mp hb.1).1
          rw [rootNames, fileNames, List.length_cons, List.length_cons,
            List.length_map] at hlt
          change _ < 200
          omega
    · intro i n hn
      rw [(h.of_node hn).2.2]
      decide
    · rw [h.superblock]
      decide
  · exact (h.flat hlen hmod hnodup hr).orderly

/-- What a rooted image says about the files. -/
theorem of_rooted (hrooted : Kernel.Rooted t.sect) :
    files.length ≤ 198 ∧ (files.length + 2) % 32 ≠ 0 ∧
      (rootNames files).Nodup := by
  obtain ⟨r, hr⟩ := h.exists_node (by decide) h.used_root
  obtain ⟨htype, hlink, hdata⟩ := h.root_node hr
  have hmod : (files.length + 2) % 32 ≠ 0 := by
    intro hmod
    have howned := hrooted.owned
    rw [h.superblock] at howned
    exact h.not_owned hmod howned
  refine ⟨?_, hmod, ?_⟩
  · by_contra hlen
    have hlt : 200 < (rootNames files).length := by
      rw [rootNames, fileNames, List.length_cons, List.length_cons,
        List.length_map]
      omega
    have hb : Binds (bindings r.data) 200 (rootNames files)[200] 200 := by
      rw [hdata]
      exact (h.binds_iff hmod).mpr ⟨List.getElem?_eq_getElem hlt, rfl⟩
    obtain ⟨de, hde, hbind⟩ := List.mem_map.mp (List.mem_of_getElem? hb)
    have hin := hrooted.entries ROOTINO r hr htype de hde
    rw [h.superblock] at hin
    rw [bindingOf] at hbind
    split at hbind
    · cases hbind
    · obtain ⟨-, hnum⟩ := Prod.mk.inj (Option.some.inj hbind)
      rw [hnum] at hin
      exact absurd hin (by decide)
  · have hlinked : (Kernel.hierarchy
        (Kernel.boot (P := Unit) t.sect).node).Linked ROOTINO := by
      refine Kernel.linked_iff.mpr ⟨r, hr, htype, ?_⟩
      rw [hlink]
      decide
    have hdistinct :=
      hrooted.orderly.distinct_bindings hlinked hr htype
    rw [hdata] at hdistinct
    rw [← distinct_rootBindings]
    intro i j x v w hi hj
    exact hdistinct i j x v w
      ((h.binds_iff hmod).mpr (binds_rootBindings.mp hi))
      ((h.binds_iff hmod).mpr (binds_rootBindings.mp hj))

end Mountable

/-! ## The theorem -/

section Main

variable {files : List InputFile} {inums : List (BitVec 32)} {t : State}

/-- As long as the inode area holds all inodes, the image is a rooted volume
exactly when the inodes suffice, the entries of the root directory do not fill
their last block, and their names, cut to the length of a name, differ. -/
theorem image_rooted_iff (h : main files start = .ok (inums, t))
    (hlen : files.length + 2 ≤ ninodeblocks * IPB) :
    Kernel.Rooted t.sect ↔
      files.length ≤ 198 ∧ (files.length + 2) % 32 ≠ 0 ∧
        (rootNames files).Nodup := by
  have hm := Mountable.of_main h hlen
  exact ⟨hm.of_rooted, fun ⟨h₁, h₂, h₃⟩ => hm.rooted h₁ h₂ h₃⟩

/-- Three files give a rooted volume. -/
theorem image_rooted_iff_threeFiles :
    ∃ inums t, main (emptyFiles 3) start = .ok (inums, t) ∧
      (Kernel.Rooted t.sect ↔ (emptyFiles 3).length ≤ 198 ∧
        ((emptyFiles 3).length + 2) % 32 ≠ 0 ∧
        (rootNames (emptyFiles 3)).Nodup) ∧ Kernel.Rooted t.sect := by
  obtain ⟨inums, t, h, -⟩ := emptyFiles_exits (show 3 ≤ 30 by decide)
  have hiff := image_rooted_iff h (by decide)
  exact ⟨inums, t, h, hiff, hiff.mpr (by decide)⟩

end Main

end ZtlOs.Mkfs
