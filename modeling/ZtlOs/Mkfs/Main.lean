import ZtlOs.Mkfs.Image

/-!
# The whole run of mkfs

From the formatted image, through the files of the command line, to the root
inode whose size is rounded up and the bitmap.
-/

namespace ZtlOs.Mkfs

open ZtlOs.Support ZtlOs.Fs

/-! ## Formatting -/

/-- The image before the first inode. -/
def formatted : State where
  sect := Function.update (fun _ => Block.zero) 1 superblock
  nsect := FSSIZE
  freeinode := 1
  freeblock := BitVec.ofNat 32 nmeta

theorem seek_ofNat {n : ℕ} (h : n < FSSIZE) : seek (BitVec.ofNat 32 n) = n := by
  have hn : (BitVec.ofNat 32 n).toNat = n := by
    simp only [FSSIZE] at h
    rw [BitVec.toNat_ofNat]
    omega
  rw [seek_eq (by omega), hn]

theorem zeroSectors_spec {E : Stop → Prop} {s : State} {n : ℕ}
    (hs : s.sect = fun _ => Block.zero) (hn : n ≤ FSSIZE) :
    Program.Sat (zeroSectors n) s
      (fun _ t => t = { s with nsect := max s.nsect n }) E := by
  induction n with
  | zero =>
      apply Program.Sat.pure
      rw [Nat.max_zero]
  | succ n ih =>
      refine (ih (by omega)).andThen ?_
      rintro _ t rfl
      unfold wsect
      apply Program.Sat.modify
      rw [seek_ofNat (by omega), State.mk.injEq]
      refine ⟨?_, ?_, rfl, rfl⟩
      · funext b
        rw [hs]
        by_cases hb : b = n
        · rw [hb, Function.update_self]
        · rw [Function.update_of_ne hb]
      · simp only
        omega

theorem format_spec {E : Stop → Prop} :
    Program.Sat format start (fun _ t => t = formatted) E := by
  have hzero := zeroSectors_spec (E := E) (n := FSSIZE)
    (s := { start with freeblock := BitVec.ofNat 32 nmeta }) rfl le_rfl
  unfold format
  apply Program.Sat.bind
  apply Program.Sat.modify
  refine hzero.andThen ?_
  · rintro _ t rfl
    refine Program.Sat.imp (wsect_spec ?_ ?_ _) ?_
    · exact max_eq_right (Nat.zero_le _)
    · decide
    · rintro _ t rfl
      rfl

theorem formatted_intact : Intact formatted fun _ => [] := by
  have hused : ∀ i, ¬formatted.Used i := by
    rintro i ⟨h₁, h₂⟩
    change i < 1 at h₂
    omega
  have hslots : ∀ i k, slots formatted.sect formatted.view i k = 0 := by
    intro i k
    rw [slots, State.view, if_neg (hused i), Dinode.slot_zero]
  have hfree : formatted.freeblock.toNat = nmeta := by decide
  have hnmap : ∀ i, nmapOf (fun _ => []) i = 0 := by
    intro i
    simp [nmapOf, blocksOf, BSIZE]
  constructor
  · constructor
    · constructor
      · constructor
        · exact fun i k _ h => absurd (hslots i k) h
        · exact fun i k _ _ _ _ h => absurd (hslots i k) h
      · intro i bn hbn
        rw [hnmap] at hbn
        omega
      · exact fun i bn _ _ => hslots i _
      · intro i
        rw [hnmap]
        exact Nat.zero_le _
      · intro b hb _
        have hne : b ≠ 1 := by
          rw [hfree] at hb
          have : 1 < nmeta := by decide
          omega
        simp only [formatted]
        exact Function.update_of_ne hne ..
      · exact hfree.ge
    · intro i j hj
      cases hj
    · rfl
    · decide
  · exact fun i hi => absurd hi (hused i)
  · exact fun _ _ => rfl
  · decide
  · simp only [formatted]
    exact Function.update_self ..

/-! ## Appending a whole file -/

section Files

variable {s t u : State} {c : Contents} {i : ℕ} {p q : List (BitVec 8)}

theorem State.Used.congr {j : ℕ} (h : s.Used j)
    (ht : t.freeinode = s.freeinode) : t.Used j := by
  unfold State.Used
  rw [ht]
  exact h

theorem AppendedTo.nil (h : Intact s c) : AppendedTo s s c i [] where
  intact := by
    rw [List.append_nil, Function.update_eq_self]
    exact h
  spent := le_rfl
  freeinode := rfl
  type := fun _ _ => rfl

theorem AppendedTo.trans (h : AppendedTo s t c i p)
    (h' : AppendedTo t u (Function.update c i (c i ++ p)) i q) :
    AppendedTo s u c i (p ++ q) := by
  have hself : Function.update c i (c i ++ p) i = c i ++ p :=
    Function.update_self ..
  obtain ⟨hint, hsp, hino, hty⟩ := h'
  rw [Function.update_idem, hself, List.append_assoc] at hint
  rw [hself, List.length_append] at hsp
  constructor
  · exact hint
  · have := h.spent
    rw [List.length_append, ← Nat.add_assoc]
    omega
  · exact hino.trans h.freeinode
  · intro j hj
    exact (hty j (hj.congr h.freeinode)).trans (h.type j hj)

theorem appendAll_spec {inum : BitVec 32} {fuel : ℕ}
    {rest : List (BitVec 8)} (hs : Intact s c) (hu : s.Used inum.toNat)
    (hfuel : rest.length ≤ fuel) :
    Program.Sat (appendAll inum fuel rest) s
      (fun _ t => AppendedTo s t c inum.toNat rest)
      (fun _ => NoRoom s (c inum.toNat).length rest.length) := by
  induction fuel generalizing s c rest with
  | zero =>
      obtain rfl : rest = [] := List.length_eq_zero_iff.mp (by omega)
      exact .pure (.nil hs)
  | succ fuel ih =>
      unfold appendAll
      apply Program.Sat.ite
      · intro hnil
        obtain rfl : rest = [] := List.length_eq_zero_iff.mp hnil
        exact .pure (.nil hs)
      · intro hne
        have hsplit : rest.length =
            (rest.take BSIZE).length + (rest.drop BSIZE).length := by
          rw [← List.length_append, List.take_append_drop]
        have hpos : 0 < BSIZE := by decide
        refine ((iappend_spec hs hu (rest.take BSIZE)).mono
          (fun _ _ hQ => hQ) ?_).andThen ?_
        · intro _ hE
          rw [hsplit]
          exact hE.mono (Nat.le_add_right ..)
        · intro _ t hfirst
          refine (ih hfirst.intact (hu.congr hfirst.freeinode) ?_).mono ?_ ?_
          · rw [List.length_drop]
            omega
          · intro _ u hrest
            have := hfirst.trans hrest
            rwa [List.take_append_drop] at this
          · intro _ hE
            rw [Function.update_self, List.length_append] at hE
            rw [hsplit]
            exact NoRoom.of_rest hfirst.spent hE

/-! ## The files of the command line -/

/-- The name that a file gets in the root directory. -/
def InputFile.entryName (file : InputFile) : List (BitVec 8) :=
  if file.name.head? = some underscore then file.name.tail else file.name

/-- The contents after `file` is added to the directory `root` as inode
`inum`. -/
def addContent (c : Contents) (root : ℕ) (file : InputFile)
    (inum : BitVec 32) : Contents :=
  Function.update
    (Function.update c root (c root ++ (dirent inum file.entryName).bytes))
    inum.toNat (file.content.getD [])

/-- mkfs does not give up on the file itself. -/
def InputFile.Readable (file : InputFile) : Prop :=
  slash ∉ file.name ∧
    ∃ content, file.content = some content ∧ content.length ≤ MAXFILE * BSIZE

/-- The blocks that the content of a file takes. -/
def InputFile.need (file : InputFile) : ℕ :=
  cost (blocksOf (file.content.getD []).length)

/-- What adding one file has done. -/
structure Added (s t : State) (c : Contents) (root : ℕ) (file : InputFile)
    (inum : BitVec 32) : Prop where
  inum_eq : inum = s.freeinode
  intact : Intact t (addContent c root file inum)
  freeinode : t.freeinode.toNat = s.freeinode.toNat + 1
  spent : t.freeblock.toNat + cost (blocksOf (c root).length) ≤
    s.freeblock.toNat + cost (blocksOf ((c root).length + Dirent.size)) +
      file.need

theorem addFile_spec {rootino : BitVec 32} (file : InputFile)
    (hs : Intact s c) (hroot : s.Used rootino.toNat)
    (hroom : s.freeinode.toNat < ninodeblocks * IPB) :
    Program.Sat (addFile rootino file) s
      (fun inum t => Added s t c rootino.toNat file inum)
      (fun _ => ¬file.Readable ∨
        MAXFILE * BSIZE < (c rootino.toNat).length + Dirent.size ∨
        FSSIZE + cost (blocksOf (c rootino.toNat).length) <
          s.freeblock.toNat +
            cost (blocksOf ((c rootino.toNat).length + Dirent.size)) +
            file.need) := by
  unfold addFile
  refine Program.Sat.andThen (Q := fun _ t => t = s ∧ slash ∉ file.name) ?_ ?_
  · unfold assert
    apply Program.Sat.ite
    · exact fun h => .pure ⟨rfl, h⟩
    · exact fun h => .throw (.inl fun hr => h hr.1)
  rintro _ t ⟨rfl, hslash⟩
  cases hcontent : file.content with
  | none =>
      refine .throw (.inl ?_)
      rintro ⟨-, content, h, -⟩
      rw [hcontent] at h
      cases h
  | some content =>
      have hneed : file.need = cost (blocksOf content.length) := by
        rw [InputFile.need, hcontent]
        rfl
      refine (ialloc_spec hs T_FILE hroom).andThen ?_
      rintro inum u ⟨rfl, hu, hino, hfree, hempty, -⟩
      have hrootu : u.Used rootino.toNat := by
        refine ⟨hroot.1, ?_⟩
        rw [hino]
        exact Nat.lt_succ_of_lt hroot.2
      have hne : t.freeinode.toNat ≠ rootino.toNat := by
        intro h
        have := hroot.2
        omega
      refine ((iappend_spec hu hrootu
        (dirent t.freeinode file.entryName).bytes).mono
          (fun _ _ hQ => hQ) ?_).andThen ?_
      · intro _ hE
        rw [Dirent.length_bytes] at hE
        rcases hE with hE | hE
        · exact .inr (.inl hE)
        · rw [hfree] at hE
          exact .inr (.inr (by omega))
      · intro _ v hv
        have hself : Function.update c rootino.toNat (c rootino.toNat ++
            (dirent t.freeinode file.entryName).bytes) t.freeinode.toNat = [] :=
          (Function.update_of_ne hne ..).trans hempty
        have hspent := hv.spent
        rw [hfree, Dirent.length_bytes] at hspent
        have hinum : v.Used t.freeinode.toNat := by
          refine ⟨hs.inodes.1, ?_⟩
          rw [hv.freeinode, hino]
          exact Nat.lt_succ_self _
        refine ((appendAll_spec hv.intact hinum le_rfl).mono
          (fun _ _ hQ => hQ) ?_).andThen ?_
        · intro _ hE
          rw [hself, List.length_nil, NoRoom, Nat.zero_add] at hE
          rcases hE with hE | hE
          · refine .inl ?_
            rintro ⟨-, content', h, hle⟩
            rw [hcontent] at h
            cases h
            omega
          · have hcost : cost (blocksOf 0) = 0 := by decide
            exact .inr (.inr (by omega))
        · intro _ w hw
          apply Program.Sat.pure
          have hspent' := hw.spent
          rw [hself, List.length_nil, Nat.zero_add] at hspent'
          have hcost : cost (blocksOf 0) = 0 := by decide
          have hintact := hw.intact
          rw [hself, List.nil_append] at hintact
          refine ⟨rfl, ?_, ?_, by omega⟩
          · rw [addContent, hcontent]
            exact hintact
          · rw [hw.freeinode, hv.freeinode, hino]

theorem length_addContent {root : ℕ} {file : InputFile} {inum : BitVec 32}
    (h : inum.toNat ≠ root) :
    (addContent c root file inum root).length =
      (c root).length + Dirent.size := by
  rw [addContent, Function.update_of_ne h.symm, Function.update_self,
    List.length_append, Dirent.length_bytes]

/-- The contents after all `files` are added, from inode `inum` on. -/
def addContents (root : ℕ) :
    Contents → BitVec 32 → List InputFile → Contents
  | c, _, [] => c
  | c, inum, file :: files =>
      addContents root (addContent c root file inum) (inum + 1) files

/-- The numbers of `n` inodes from `inum` on. -/
def inumsFrom (inum : BitVec 32) (n : ℕ) : List (BitVec 32) :=
  (List.range n).map fun k => inum + BitVec.ofNat 32 k

theorem inumsFrom_succ (inum : BitVec 32) (n : ℕ) :
    inumsFrom inum (n + 1) = inum :: inumsFrom (inum + 1) n := by
  rw [inumsFrom, List.range_succ_eq_map, List.map_cons, List.map_map]
  congr 1
  · simp
  · apply List.map_congr_left
    intro k _
    rw [Function.comp, Nat.succ_eq_one_add, BitVec.ofNat_add,
      ← BitVec.add_assoc]
    rfl

/-- What adding all files has done. -/
structure AddedAll (s t : State) (c : Contents) (root : ℕ)
    (files : List InputFile) (inums : List (BitVec 32)) : Prop where
  inums_eq : inums = inumsFrom s.freeinode files.length
  intact : Intact t (addContents root c s.freeinode files)
  length : (addContents root c s.freeinode files root).length =
    (c root).length + Dirent.size * files.length
  freeinode : t.freeinode.toNat = s.freeinode.toNat + files.length
  spent : t.freeblock.toNat + cost (blocksOf (c root).length) ≤
    s.freeblock.toNat +
      cost (blocksOf ((c root).length + Dirent.size * files.length)) +
      (files.map InputFile.need).sum

/-- Why mkfs gives up on the files when the root directory has `len` bytes. -/
def TooMuch (s : State) (len : ℕ) (files : List InputFile) : Prop :=
  (∃ file ∈ files, ¬file.Readable) ∨
    MAXFILE * BSIZE < len + Dirent.size * files.length ∨
    FSSIZE + cost (blocksOf len) < s.freeblock.toNat +
      cost (blocksOf (len + Dirent.size * files.length)) +
      (files.map InputFile.need).sum

theorem addFiles_spec {rootino : BitVec 32} (files : List InputFile)
    (hs : Intact s c) (hroot : s.Used rootino.toNat)
    (hroom : s.freeinode.toNat + files.length ≤ ninodeblocks * IPB) :
    Program.Sat (addFiles rootino files) s
      (fun inums t => AddedAll s t c rootino.toNat files inums)
      (fun _ => TooMuch s (c rootino.toNat).length files) := by
  induction files generalizing s c with
  | nil =>
      exact .pure ⟨rfl, hs, rfl, rfl, le_rfl⟩
  | cons file files ih =>
      rw [List.length_cons] at hroom
      have hmul : Dirent.size * (files.length + 1) =
          Dirent.size + Dirent.size * files.length := by
        rw [Nat.mul_add, Nat.mul_one, Nat.add_comm]
      unfold addFiles
      refine ((addFile_spec file hs hroot (by omega)).mono
        (fun _ _ hQ => hQ) ?_).andThen ?_
      · intro _ hE
        have hmono := cost_mono (blocksOf_mono (Nat.le_add_right
          ((c rootino.toNat).length + Dirent.size)
          (Dirent.size * files.length)))
        unfold TooMuch
        rw [List.length_cons, hmul, ← Nat.add_assoc, List.map_cons,
          List.sum_cons]
        rcases hE with hE | hE | hE
        · exact .inl ⟨file, List.mem_cons_self, hE⟩
        · exact .inr (.inl (by omega))
        · exact .inr (.inr (by omega))
      · rintro inum t ⟨rfl, hintact, hino, hspent⟩
        have hne : s.freeinode.toNat ≠ rootino.toNat := by
          intro h
          have := hroot.2
          omega
        have hlen : (addContent c rootino.toNat file s.freeinode
            rootino.toNat).length = (c rootino.toNat).length + Dirent.size :=
          length_addContent hne
        have hnext : t.freeinode = s.freeinode + 1 := by
          apply BitVec.eq_of_toNat_eq
          rw [hino, toNat_add_one]
          have hin := hs.inodes.2
          change _ ≤ 208 at hin
          simp only [FSSIZE]
          omega
        have hroot' : t.Used rootino.toNat :=
          ⟨hroot.1, by rw [hino]; exact Nat.lt_succ_of_lt hroot.2⟩
        refine ((ih hintact hroot' (by omega)).mono
          (fun _ _ hQ => hQ) ?_).andThen ?_
        · intro _ hE
          unfold TooMuch at hE ⊢
          rw [hlen] at hE
          rw [List.length_cons, hmul, ← Nat.add_assoc, List.map_cons,
            List.sum_cons]
          rcases hE with ⟨file', hmem, hbad⟩ | hE | hE
          · exact .inl ⟨file', List.mem_cons_of_mem _ hmem, hbad⟩
          · exact .inr (.inl hE)
          · exact .inr (.inr (by omega))
        · rintro inums u ⟨rfl, hi, hl, hf, hsp⟩
          apply Program.Sat.pure
          rw [hlen] at hl hsp
          rw [hnext] at hi hl
          constructor
          · rw [List.length_cons, inumsFrom_succ, hnext]
          · exact hi
          · rw [List.length_cons, hmul, ← Nat.add_assoc]
            exact hl
          · rw [List.length_cons]
            omega
          · rw [List.length_cons, hmul, ← Nat.add_assoc, List.map_cons,
              List.sum_cons]
            omega

end Files

/-! ## The end of the run -/

theorem bit_bitmap {n b : ℕ} (hn : n ≤ BPB) :
    (bitmap n).bit b = decide (b < n) := by
  induction n with
  | zero =>
      rw [bitmap, List.range_zero, List.foldl_nil, Block.bit_zero]
      rfl
  | succ n ih =>
      have hstep : bitmap (n + 1) = (bitmap n).setBit n := by
        rw [bitmap, List.range_succ, List.foldl_append]
        rfl
      rw [hstep, Block.bit_setBit (by omega), ih (by omega), Bool.eq_iff_iff]
      simp only [Bool.or_eq_true, decide_eq_true_eq]
      omega

/-- The image after `main` has fixed the size of the inode `root` and written
the bitmap. -/
structure Finished (s t : State) (c : Contents) (root : ℕ) : Prop where
  good : Good t t.view c
  rootSize : (t.inode root).size.toNat =
    ((c root).length / BSIZE + 1) * BSIZE
  sizes : ∀ i, t.Used i → i ≠ root → (t.inode i).size.toNat = (c i).length
  type : ∀ i, t.Used i → (t.inode i).type = (s.inode i).type
  bitmap : t.sect sb.bmapstart = bitmap t.freeblock.toNat
  superblock : t.sect 1 = superblock
  freeinode : t.freeinode = s.freeinode

section Finish

variable {s : State} {c : Contents} {rootino : BitVec 32}

theorem roundup_toNat {off : BitVec 32} (h : off.toNat ≤ MAXFILE * BSIZE) :
    ((off / BitVec.ofNat 32 BSIZE + 1) * BitVec.ofNat 32 BSIZE).toNat =
      (off.toNat / BSIZE + 1) * BSIZE := by
  have hone : (1 : BitVec 32).toNat = 1 := rfl
  have hsize : (BitVec.ofNat 32 BSIZE).toNat = BSIZE := rfl
  simp only [MAXFILE, NDIRECT, NINDIRECT] at h
  rw [BitVec.toNat_mul, BitVec.toNat_add, BitVec.toNat_udiv, hone, hsize]
  simp only [BSIZE] at h ⊢
  omega

theorem finish_spec {E : Stop → Prop} (hs : Intact s c)
    (hroot : s.Used rootino.toNat) :
    Program.Sat (finish rootino) s
      (fun _ t => Finished s t c rootino.toNat) E := by
  have harea : ∀ j, s.Used j → j < ninodeblocks * IPB := fun j hj =>
    lt_of_lt_of_le hj.2 hs.inodes.2
  have hfull := hs.good.full
  have hsize := hs.sizes _ hroot
  have hmax := blocksOf_le_maxfile.mp (hs.good.laid.bound rootino.toNat)
  unfold finish fixRoot
  simp only [xint_eq]
  refine Program.Sat.andThen (Q := fun _ t => t = s.setInode rootino.toNat
    { s.inode rootino.toNat with
      size := ((s.inode rootino.toNat).size / BitVec.ofNat 32 BSIZE + 1) *
        BitVec.ofNat 32 BSIZE }) ?_ ?_
  · refine (rinode_spec hs.good.nsect (harea _ hroot)).andThen ?_
    rintro d t ⟨rfl, rfl⟩
    exact winode_spec hs.good.nsect (harea _ hroot)
  rintro _ t ht
  apply Program.Sat.bind
  apply Program.Sat.get
  have hfreeblock : t.freeblock = s.freeblock := by
    rw [ht]
    rfl
  have hint : t.freeblock.toInt = t.freeblock.toNat := by
    rw [hfreeblock]
    simp only [FSSIZE] at hfull
    exact BitVec.toInt_eq_toNat_of_lt (by omega)
  unfold balloc
  refine Program.Sat.andThen (Q := fun _ u => u = t) ?_ ?_
  · unfold assert
    apply Program.Sat.ite
    · exact fun _ => .pure rfl
    · intro h
      refine absurd ?_ h
      rw [hint, hfreeblock]
      simp only [FSSIZE] at hfull
      change (s.freeblock.toNat : ℤ) < 4096
      omega
  rintro _ u rfl
  have hnsect : u.nsect = FSSIZE := by
    rw [ht]
    exact hs.good.nsect
  refine (wsect_spec hnsect (by decide) _).imp ?_
  rintro _ v rfl
  have hbm : (BitVec.ofNat 32 sb.bmapstart).toNat = sb.bmapstart := by decide
  rw [hbm, hint, Int.toNat_natCast]
  have hmeta := nmeta_eq
  have hinode : ∀ j, s.Used j →
      State.inode { u with
        sect := Function.update u.sect sb.bmapstart
          (bitmap u.freeblock.toNat) } j = u.inode j := by
    intro j hj
    have := iblock_lt (harea j hj)
    simp only [State.inode]
    rw [Function.update_of_ne (by omega)]
  have hsect : ∀ b, nmeta ≤ b →
      Function.update u.sect sb.bmapstart (bitmap u.freeblock.toNat) b =
        s.sect b := by
    intro b hb
    rw [Function.update_of_ne (by omega), ht]
    exact State.setInode_sect (harea _ hroot) hb
  have hused : ∀ j, u.Used j → s.Used j := by
    intro j hj
    rw [ht] at hj
    exact hj
  constructor
  · refine hs.good.congr ?_ hsect hfreeblock (hnsect.trans hs.good.nsect.symm)
    intro j
    by_cases hj : s.Used j
    · have hj' : State.Used { u with
          sect := Function.update u.sect sb.bmapstart
            (bitmap u.freeblock.toNat) } j := by
        change u.Used j
        rw [ht]
        exact hj
      rw [State.view_of_used hj', State.view_of_used hj, hinode j hj, ht,
        State.inode_setInode]
      split
      · next h => rw [h]
      · rfl
    · rw [State.view, State.view, if_neg hj, if_neg]
      exact fun h => hj (hused j h)
  · rw [hinode _ hroot, ht, State.inode_setInode, if_pos rfl]
    simp only
    rw [roundup_toNat (by rw [hsize]; exact hmax), hsize]
  · intro j hj hne
    have huj := hused j hj
    rw [hinode j huj, ht, State.inode_setInode, if_neg hne]
    exact hs.sizes j huj
  · intro j hj
    have huj := hused j hj
    rw [hinode j huj, ht, State.inode_setInode]
    split
    · next h => rw [h]
    · rfl
  · simp only [Function.update_self]
  · have hne : 1 ≠ sb.bmapstart := by decide
    simp only
    rw [Function.update_of_ne hne, ht, State.setInode_superblock]
    exact hs.superblock
  · rw [ht]
    rfl

end Finish

/-! ## The run -/

/-- The root directory before the first file. -/
def rootContents : Contents :=
  Function.update (fun _ => []) ROOTINO
    ((dirent 1 [0x2e]).bytes ++ (dirent 1 [0x2e, 0x2e]).bytes)

/-- What mkfs has built from `files`, when all inodes are in the inode area. -/
structure Built (files : List InputFile) (inums : List (BitVec 32))
    (t : State) : Prop where
  inums_eq : inums = inumsFrom 1 (files.length + 1)
  freeinode : t.freeinode.toNat = files.length + 2
  rootLength : (addContents ROOTINO rootContents 2 files ROOTINO).length =
    Dirent.size * (files.length + 2)
  finished : ∃ s, Finished s t (addContents ROOTINO rootContents 2 files)
    ROOTINO

/-- The blocks that `files` and their directory entries take. -/
def need (files : List InputFile) : ℕ :=
  cost (blocksOf (Dirent.size * (files.length + 2))) +
    (files.map InputFile.need).sum

theorem main_spec {files : List InputFile}
    (hlen : files.length + 2 ≤ ninodeblocks * IPB) :
    Program.Sat (main files) start (fun inums t => Built files inums t)
      (fun _ => (∃ file ∈ files, ¬file.Readable) ∨
        FSSIZE < nmeta + need files) := by
  unfold main
  refine format_spec.andThen ?_
  rintro _ s rfl
  refine (ialloc_spec formatted_intact T_DIR (by decide)).andThen ?_
  rintro rootino s ⟨rfl, hs, hino, hfree, -, -⟩
  have hone : formatted.freeinode.toNat = 1 := rfl
  have hnmeta : formatted.freeblock.toNat = nmeta := by decide
  refine Program.Sat.andThen (Q := fun _ t => t = s) ?_ ?_
  · unfold assert
    apply Program.Sat.ite
    · exact fun _ => .pure rfl
    · exact fun h => absurd rfl h
  rintro _ t rfl
  have hroot : t.Used formatted.freeinode.toNat :=
    ⟨by decide, by rw [hino]; decide⟩
  have hcost₀ : cost (blocksOf 0) = 0 := by decide
  have hcost₁ : cost (blocksOf Dirent.size) = 1 := by decide
  have hcost₂ : cost (blocksOf (Dirent.size + Dirent.size)) = 1 := by decide
  have hmax : Dirent.size + Dirent.size ≤ MAXFILE * BSIZE := by decide
  have hmeta : nmeta + 1 ≤ FSSIZE := by decide
  -- The entries for "." and ".." fit in the first block.
  refine ((iappend_spec hs hroot (dirent formatted.freeinode [0x2e]).bytes).mono
    (fun _ _ hQ => hQ) ?_).andThen ?_
  · intro _ hE
    rw [Dirent.length_bytes, List.length_nil, NoRoom, Nat.zero_add, hcost₀,
      hcost₁, hfree, hnmeta] at hE
    omega
  intro _ u hu
  have hspent := hu.spent
  rw [Dirent.length_bytes, List.length_nil, Nat.zero_add, hcost₀, hcost₁, hfree,
    hnmeta] at hspent
  refine ((iappend_spec hu.intact (hroot.congr hu.freeinode)
    (dirent formatted.freeinode [0x2e, 0x2e]).bytes).mono
    (fun _ _ hQ => hQ) ?_).andThen ?_
  · intro _ hE
    rw [Function.update_self, List.nil_append, Dirent.length_bytes,
      Dirent.length_bytes, NoRoom, hcost₁, hcost₂] at hE
    omega
  intro _ v hv
  have hspent' := hv.spent
  rw [Function.update_self, List.nil_append, Dirent.length_bytes,
    Dirent.length_bytes, hcost₁, hcost₂] at hspent'
  have hc : Function.update (Function.update (fun _ => ([] : List (BitVec 8)))
      formatted.freeinode.toNat ([] ++ (dirent formatted.freeinode [0x2e]).bytes))
      formatted.freeinode.toNat
      (Function.update (fun _ => []) formatted.freeinode.toNat
        ([] ++ (dirent formatted.freeinode [0x2e]).bytes)
        formatted.freeinode.toNat ++
          (dirent formatted.freeinode [0x2e, 0x2e]).bytes) = rootContents := by
    rw [Function.update_idem, Function.update_self, List.nil_append]
    rfl
  have hvi := hv.intact
  rw [hc] at hvi
  have hino' : v.freeinode.toNat = 2 := by
    rw [hv.freeinode, hu.freeinode, hino]
    rfl
  have hinoBv : v.freeinode = 2 := BitVec.eq_of_toNat_eq hino'
  have hrootlen : (rootContents ROOTINO).length = Dirent.size + Dirent.size := by
    rw [rootContents, Function.update_self, List.length_append,
      Dirent.length_bytes, Dirent.length_bytes]
  have hlen' : Dirent.size + Dirent.size + Dirent.size * files.length =
      Dirent.size * (files.length + 2) := by
    rw [Nat.mul_add, Nat.mul_two, Nat.add_comm]
  have hrootv : v.Used formatted.freeinode.toNat :=
    ⟨by decide, by rw [hino']; decide⟩
  refine ((addFiles_spec files hvi hrootv (by omega)).mono (fun _ _ hQ => hQ) ?_).andThen ?_
  · intro _ hE
    change TooMuch v (rootContents ROOTINO).length files at hE
    rw [hrootlen, TooMuch, hlen', hcost₂] at hE
    rcases hE with hE | hE | hE
    · exact .inl hE
    · change files.length + 2 ≤ 208 at hlen
      simp only [MAXFILE, NDIRECT, NINDIRECT, BSIZE, Dirent.size] at hE
      omega
    · exact .inr (by unfold need; omega)
  · rintro inums w ⟨rfl, hwi, hwl, hwf, -⟩
    rw [hinoBv] at hwi hwl
    change (addContents ROOTINO rootContents 2 files ROOTINO).length =
      (rootContents ROOTINO).length + _ at hwl
    rw [hrootlen, hlen'] at hwl
    have hrootw : w.Used formatted.freeinode.toNat := ⟨by decide, by omega⟩
    refine (finish_spec hwi hrootw).andThen ?_
    intro _ x hx
    apply Program.Sat.pure
    refine ⟨?_, ?_, hwl, w, hx⟩
    · rw [inumsFrom_succ, hinoBv]
      rfl
    · rw [hx.freeinode]
      omega

/-- mkfs reaches `exit(0)` when it can read the files and they fit. -/
theorem main_exits {files : List InputFile}
    (hlen : files.length + 2 ≤ ninodeblocks * IPB)
    (hread : ∀ file ∈ files, file.Readable)
    (hfit : nmeta + need files ≤ FSSIZE) :
    ∃ inums t, main files start = .ok (inums, t) ∧ Built files inums t := by
  refine (main_spec hlen).exists_ok ?_
  rintro _ (⟨file, hmem, hbad⟩ | hfull)
  · exact hbad (hread file hmem)
  · omega

end ZtlOs.Mkfs
