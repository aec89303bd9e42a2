import ZtlOs.Kernel.Writing

/-!
# Files as sequences of bytes

The newest version of an inode is the valid copy in the inode cache, or else
the one on disk.  For a locked file or directory of a sound volume, `readi`
and `writei` read and write a sequence of bytes.
-/

namespace ZtlOs.Kernel

open ZtlOs.Support ZtlOs.Support.Program ZtlOs.Support.Sequence ZtlOs.Fs

variable {P : Type} {s t : State P} {ip : Slot}

/-! ## The newest inodes -/

/-- The entry of the inode cache with a valid copy of inode `i`. -/
def State.cached (s : State P) (i : ℕ) : Option Slot :=
  (List.finRange NINODE).find? fun c => decide
    (0 < (s.icache c).ref ∧ (s.icache c).valid = true ∧ (s.icache c).inum = i)

/-- The newest version of every inode. -/
def State.table (s : State P) : Table := fun i =>
  match s.cached i with
  | some c => (s.icache c).din
  | none => inodeOf s.sb s.disk i

/-- The bytes of inode `i`. -/
def State.content (s : State P) (i : ℕ) : Bytes :=
  slice (contentByte s.sb s.disk s.table i) 0 (s.table i).size.toNat

/-- The block numbers in the slots of inode `i`. -/
def State.blocks (s : State P) (i k : ℕ) : ℕ :=
  listing s.sb s.disk s.table i k

/-- The volume is sound, and no inode is cached twice. -/
structure Consistent (s : State P) : Prop where
  owned : Owned s.sb s.disk s.table
  distinct : ∀ c c', 0 < (s.icache c).ref → 0 < (s.icache c').ref →
    (s.icache c).inum = (s.icache c').inum → c = c'

/-- The caller has locked the file or directory in slot `ip`, and no
buffer. -/
structure LockedFile (s : State P) (ip : Slot) : Prop where
  consistent : Consistent s
  ref : 0 < (s.icache ip).ref
  locked : (s.icache ip).locked = true
  valid : (s.icache ip).valid = true
  lt : (s.icache ip).inum < s.sb.ninodes
  type : (s.icache ip).din.type = T_FILE ∨ (s.icache ip).din.type = T_DIR
  bufs : s.bufs = []

theorem cached_some {i : ℕ} {c : Slot} (h : s.cached i = some c) :
    0 < (s.icache c).ref ∧ (s.icache c).valid = true ∧
      (s.icache c).inum = i := by
  simpa using List.find?_some h

/-- The copy that a caller has locked is the newest. -/
theorem Consistent.table_eq (h : Consistent s) (href : 0 < (s.icache ip).ref)
    (hvalid : (s.icache ip).valid = true) :
    s.cached (s.icache ip).inum = some ip ∧
      s.table (s.icache ip).inum = (s.icache ip).din := by
  have hcached : s.cached (s.icache ip).inum = some ip := by
    cases hc : s.cached (s.icache ip).inum with
    | none =>
        have := List.find?_eq_none.mp hc ip (List.mem_finRange ip)
        simp [href, hvalid] at this
    | some c =>
        obtain ⟨hpos, -, hinum⟩ := cached_some hc
        rw [h.distinct c ip hpos href hinum]
  refine ⟨hcached, ?_⟩
  rw [State.table, hcached]

/-- The entries of the cache, but for what they copy from the disk. -/
theorem cached_congr (h : ∀ c, (t.icache c).ref = (s.icache c).ref ∧
    (t.icache c).valid = (s.icache c).valid ∧
    (t.icache c).inum = (s.icache c).inum) : t.cached = s.cached := by
  funext i
  rw [State.cached, State.cached]
  congr 1
  funext c
  obtain ⟨href, hvalid, hinum⟩ := h c
  rw [href, hvalid, hinum]

namespace LockedFile

theorem ready (h : LockedFile s ip) :
    Ready s.table (s.icache ip).inum ip s where
  owned := h.consistent.owned
  inum := rfl
  newest := (h.consistent.table_eq h.ref h.valid).2.symm
  lt := h.lt
  type := by
    rw [(h.consistent.table_eq h.ref h.valid).2]
    rcases h.type with ht | ht <;> rw [ht] <;> decide
  bufs := h.bufs

theorem ne_dev (h : LockedFile s ip) :
    (s.table (s.icache ip).inum).type ≠ T_DEV := by
  rw [(h.consistent.table_eq h.ref h.valid).2]
  rcases h.type with ht | ht <;> rw [ht] <;> decide

end LockedFile

/-! ## Reading -/

/-- The bytes that `readi` copies. -/
theorem Ready.readResult_eq {V : Table} {i : ℕ} (h : Ready V i ip s)
    (off n : ℕ) : readResult s.disk (s.icache ip).din off n =
      if (s.icache ip).din.size.toNat < off ∨ 2 ^ 32 ≤ off + n then none
      else some (((slice (contentByte s.sb s.disk V i) 0
        (V i).size.toNat).drop off).take n) := by
  rw [readResult]
  congr 2
  rw [drop_slice, take_slice, Nat.zero_add, ← h.newest, bytesAt, slice]
  apply List.map_congr_left
  intro j _
  rw [contentByte, live_of_type h.lt h.type, ← h.newest]

theorem readResult_eq (h : LockedFile s ip) (off n : ℕ) :
    readResult s.disk (s.icache ip).din off n =
      if (s.icache ip).din.size.toNat < off ∨ 2 ^ 32 ≤ off + n then none
      else some (((s.content (s.icache ip).inum).drop off).take n) :=
  h.ready.readResult_eq off n

/-- A file or directory of a sound volume has no holes. -/
theorem Ready.mapped {V : Table} {i : ℕ} (h : Ready V i ip s)
    (hdev : (V i).type ≠ T_DEV) : Mapped s.disk (s.icache ip).din := by
  intro bn hbn
  have := h.owned.mapped _ h.lt h.type hdev bn
  rw [← h.newest, listing_eq s.disk h.lt h.type, ← h.newest] at this
  exact this hbn

theorem readi_content (h : LockedFile s ip) (off n : ℕ) :
    ∃ tr, readi ip off n s = .ok
      (if (s.icache ip).din.size.toNat < off ∨ 2 ^ 32 ≤ off + n then none
        else some (((s.content (s.icache ip).inum).drop off).take n),
      { s with trace := tr }) := by
  have hready := h.ready
  have hmap := hready.mapped h.ne_dev
  have hdev := h.ne_dev
  rw [← hready.newest] at hdev
  have hsat : Sat (readi ip off n) s _ fun _ => False :=
    readi_mapped rfl hdev hmap fun hne => hne h.bufs
  obtain ⟨r, t, hrun, rfl, ht⟩ := hsat.exists_ok fun _ hf => hf
  refine ⟨t.trace, ?_⟩
  rw [hrun, readResult_eq h, ← ht.state]

/-! ## Writing -/

/-- From `s` to `t`, the bytes `src` have been laid over the content of the
file in slot `ip` at offset `off`.  Nothing has happened to other files, and
the caller still has the file locked. -/
structure FileWritten (ip : Slot) (off : ℕ) (src : Bytes) (s t : State P) :
    Prop where
  content : t.content (s.icache ip).inum =
    (s.content (s.icache ip).inum).take off ++ src ++
      (s.content (s.icache ip).inum).drop (off + src.length)
  size : (t.table (s.icache ip).inum).size.toNat =
    max (s.table (s.icache ip).inum).size.toNat (off + src.length)
  fields : t.table (s.icache ip).inum = { s.table (s.icache ip).inum with
    size := (t.table (s.icache ip).inum).size
    addrs := (t.table (s.icache ip).inum).addrs }
  others : ∀ j < s.sb.ninodes, j ≠ (s.icache ip).inum →
    t.table j = s.table j ∧ t.content j = s.content j ∧
      ∀ k, t.blocks j k = s.blocks j k
  state : t = { s.setDin ip (t.icache ip).din with
    disk := t.disk, trace := t.trace }
  lockedFile : LockedFile t ip

/-- The number of blocks that `writei` has to allocate. -/
def State.needed (s : State P) (ip : Slot) (off n : ℕ) : ℕ :=
  missing s.blocks (s.icache ip).inum (rangeSlots off n)

section Written

variable {off : ℕ} {src : Bytes}

theorem Overlaid.table_eq (h : LockedFile s ip)
    (hw : Overlaid s.table (s.icache ip).inum ip off src s t) {j : ℕ}
    (hj : j < s.sb.ninodes) :
    t.table j = Grown.table s.table (s.icache ip).inum ip t j := by
  have hcached : t.cached = s.cached := by
    apply cached_congr
    intro c
    rw [hw.state]
    by_cases hc : c = ip
    · subst hc
      simp only [State.setDin, State.icache_setInode_self, and_self]
    · simp only [State.setDin, State.icache_setInode_of_ne _ hc, and_self]
  have hothers : ∀ c ≠ ip, t.icache c = s.icache c := by
    intro c hc
    rw [hw.state]
    simp only [State.setDin, State.icache_setInode_of_ne _ hc]
  by_cases hji : j = (s.icache ip).inum
  · subst hji
    rw [State.table, hcached, (h.consistent.table_eq h.ref h.valid).1,
      Grown.table, Function.update_self]
  · rw [Grown.table, Function.update_of_ne hji, State.table, State.table,
      hcached]
    cases hc : s.cached j with
    | none =>
        have hsb : t.sb = s.sb := by rw [hw.state]; rfl
        rw [hsb]
        exact hw.inodes j hj hji
    | some c =>
        have hne : c ≠ ip := by
          rintro rfl
          exact hji (cached_some hc).2.2.symm
        exact congrArg Inode.din (hothers c hne)

theorem Overlaid.fileWritten (h : LockedFile s ip)
    (hw : Overlaid s.table (s.icache ip).inum ip off src s t)
    (hoff : off ≤ (s.table (s.icache ip).inum).size.toNat) :
    FileWritten ip off src s t := by
  have htable : ∀ j < s.sb.ninodes, t.table j = _ :=
    fun j hj => hw.table_eq h hj
  have hsb : t.sb = s.sb := by
    rw [hw.state]
    rfl
  have hself : t.table (s.icache ip).inum = (t.icache ip).din := by
    rw [htable _ h.lt, Grown.table, Function.update_self]
  have hlive : live s.sb t.table =
      live s.sb (Grown.table s.table (s.icache ip).inum ip t) :=
    live_congr htable
  have hbyte : ∀ j k, contentByte s.sb t.disk t.table j k =
      contentByte s.sb t.disk
        (Grown.table s.table (s.icache ip).inum ip t) j k := by
    intro j k
    rw [contentByte, contentByte, hlive]
  have hinode : t.icache ip =
      { s.icache ip with din := (t.icache ip).din } := by
    rw [hw.state]
    simp only [State.setDin, State.icache_setInode_self]
  have hothers : ∀ c ≠ ip, t.icache c = s.icache c := by
    intro c hc
    rw [hw.state]
    simp only [State.setDin, State.icache_setInode_of_ne _ hc]
  have hsame : ∀ c, (t.icache c).ref = (s.icache c).ref ∧
      (t.icache c).inum = (s.icache c).inum := by
    intro c
    by_cases hc : c = ip
    · rw [hc, hinode]
      exact ⟨rfl, rfl⟩
    · rw [hothers c hc]
      exact ⟨rfl, rfl⟩
  constructor
  · rw [State.content, hself, hw.size, hsb, State.content,
      ← slice_overlay_max hoff]
    apply slice_congr
    intro k _ hk
    rw [hbyte]
    exact hw.bytes k (by omega)
  · rw [hself]
    exact hw.size
  · rw [hself]
    exact hw.fields
  · intro j hj hne
    have heq : t.table j = s.table j := by
      rw [htable j hj, Grown.table, Function.update_of_ne hne]
    refine ⟨heq, ?_, ?_⟩
    · rw [State.content, State.content, heq, hsb]
      apply slice_congr
      intro k _ _
      rw [hbyte]
      exact hw.contents j hne k
    · intro k
      rw [State.blocks, State.blocks, hsb, listing, hlive]
      exact hw.lists j hne k
  · exact hw.state
  · constructor
    · constructor
      · rw [hsb]
        refine hw.owned.congr (by rw [listing, listing, hlive]) rfl
          (fun _ _ => rfl) ?_
        intro j hj _ _
        rw [htable j hj]
        exact ⟨rfl, le_refl _⟩
      · intro c c' hc hc' heq
        rw [(hsame c).1] at hc
        rw [(hsame c').1] at hc'
        rw [(hsame c).2, (hsame c').2] at heq
        exact h.consistent.distinct c c' hc hc' heq
    · rw [hinode]
      exact h.ref
    · rw [hinode]
      exact h.locked
    · rw [hinode]
      exact h.valid
    · rw [hinode, hsb]
      exact h.lt
    · rw [hw.fields, ← h.ready.newest]
      exact h.type
    · rw [hw.state]
      exact h.bufs

/-- The three ways in which `writei` ends. -/
theorem writei_content (h : LockedFile s ip) (off : ℕ) (src : Bytes) :
    Sat (writei ip src off) s (fun r t =>
      if Refused (s.icache ip).din.size.toNat off src.length then
        r = none ∧ t = s
      else r = some src.length ∧ FileWritten ip off src s t)
      fun e => e = .panic "balloc: out of blocks" ∧
        ¬Refused (s.icache ip).din.size.toNat off src.length ∧
        freeBlocks s.sb s.disk < s.needed ip off src.length := by
  rw [h.ready.newest]
  refine (writei_sat h.ready h.ne_dev fun hacc hlt => ⟨rfl, hacc, hlt⟩).imp ?_
  intro r t hr
  by_cases hacc : Refused (s.table (s.icache ip).inum).size.toNat off src.length
  · rwa [if_pos hacc] at hr ⊢
  · rw [if_neg hacc] at hr ⊢
    refine ⟨hr.1, hr.2.fileWritten h ?_⟩
    by_contra hlt
    exact hacc (.inl (by omega))

/-- `readi` and `writei` on a locked file or directory of a sound volume. -/
theorem readi_writei_content (h : LockedFile s ip) (off : ℕ) :
    (∀ n, ∃ tr, readi ip off n s = .ok
      (if (s.icache ip).din.size.toNat < off ∨ 2 ^ 32 ≤ off + n then none
        else some (((s.content (s.icache ip).inum).drop off).take n),
      { s with trace := tr })) ∧
    ∀ src,
      (Refused (s.icache ip).din.size.toNat off src.length →
        writei ip src off s = .ok (none, s)) ∧
      (∀ t, writei ip src off s = .ok (none, t) →
        Refused (s.icache ip).din.size.toNat off src.length) ∧
      (¬Refused (s.icache ip).din.size.toNat off src.length →
        s.needed ip off src.length ≤ freeBlocks s.sb s.disk →
        ∃ t, writei ip src off s = .ok (some src.length, t) ∧
          FileWritten ip off src s t) := by
  refine ⟨readi_content h off, fun src => ?_⟩
  have hwrite := writei_content h off src
  refine ⟨?_, ?_, ?_⟩
  · intro href
    obtain ⟨r, t, hrun, hr⟩ := hwrite.exists_ok fun e he => he.2.1 href
    rw [if_pos href] at hr
    obtain ⟨rfl, rfl⟩ := hr
    exact hrun
  · intro t hrun
    have hr := hwrite.returns hrun
    by_contra hacc
    rw [if_neg hacc] at hr
    cases hr.1
  · intro hacc hfree
    obtain ⟨r, t, hrun, hr⟩ := hwrite.exists_ok fun e he => by
      have := he.2.2
      omega
    rw [if_neg hacc] at hr
    obtain ⟨rfl, hwritten⟩ := hr
    exact ⟨t, hrun, hwritten⟩

end Written

/-! ### An empty file -/

/-- A volume of sixteen blocks, of which the last twelve are free. -/
def emptyVolume : ℕ → Block := fun b =>
  if b = 1 then
    ((((((Block.zero.setWord 0 16).setWord 4 12).setWord 8 8).setWord 16
      2).setWord 20 2).setWord 24 3)
  else if b = 3 then Block.zero.setByte 0 0x0f
  else Block.zero

/-- The caller has just created inode 1, in the first slot, and locked it. -/
def emptyFile : State Unit where
  disk := emptyVolume
  sb := ⟨16, 12, 8, 0, 2, 2, 3⟩
  icache := fun c =>
    if c = 0 then
      { inum := 1, ref := 1, locked := true, valid := true
        din := { Dinode.zero with type := T_FILE, nlink := 1 } }
    else
      { inum := 0, ref := 0, locked := false, valid := false
        din := Dinode.zero }
  ftable := fun _ => ⟨.none, 0, false, false, 0, 0⟩
  ofile := fun _ _ => none
  cwd := fun _ => 1
  bufs := []
  input := []
  trace := [.beginOp]

/-- Inodes without content make a sound volume of a disk like the empty one. -/
theorem owned_of_empty {disk : ℕ → Block} {V : Table}
    (hsb : (disk 1).superblock = emptyFile.sb)
    (hbits : ∀ b < 16, bmapBit emptyFile.sb disk b = decide (b < 4))
    (haddrs : ∀ i < 8, (live emptyFile.sb V i).addrs = fun _ => 0)
    (hsize : ∀ i < 8, (V i).size = 0) : Owned emptyFile.sb disk V := by
  have hlist : ∀ i k, listing emptyFile.sb disk V i k = 0 := by
    intro i k
    have hall : (live emptyFile.sb V i).addrs = fun _ => 0 := by
      by_cases hi : i < emptyFile.sb.ninodes
      · exact haddrs i hi
      · rw [live_of_free fun h => hi h.1]
        rfl
    rw [listing, slots, Dinode.slot, hall]
    split
    · rfl
    · rfl
  constructor
  · constructor <;> decide
  · exact hsb
  · constructor
    · intro i k _ hne
      exact absurd (hlist i k) hne
    · intro i k _ _ _ _ hne
      exact absurd (hlist i k) hne
  · intro b hb _
    have hmeta : nmeta emptyFile.sb = 4 := rfl
    rw [hbits b hb, decide_eq_true_eq, hmeta]
    refine ⟨.inl, ?_⟩
    rintro (hlt | ⟨i, k, -, heq⟩)
    · exact hlt
    · rw [hlist i k] at heq
      omega
  · intro i hi _ _ bn hbn
    rw [hsize i hi] at hbn
    exact absurd hbn (Nat.not_lt_zero bn)

theorem emptyFile_owned {V : Table}
    (haddrs : ∀ i < 8, (live emptyFile.sb V i).addrs = fun _ => 0)
    (hsize : ∀ i < 8, (V i).size = 0) :
    Owned emptyFile.sb emptyFile.disk V :=
  owned_of_empty (by decide +kernel) (by decide +kernel) haddrs hsize

theorem emptyFile_locked : LockedFile emptyFile 0 := by
  have hone : ∀ c, 0 < (emptyFile.icache c).ref → c = 0 := by
    decide +kernel
  constructor
  · constructor
    · apply emptyFile_owned
      · decide +kernel
      · decide +kernel
    · intro c c' hc hc' _
      rw [hone c hc, hone c' hc']
  · decide
  · decide
  · decide
  · decide
  · decide
  · rfl

/-- Three bytes in an empty file. -/
theorem readi_writei_content_empty :
    ∃ t, writei 0 [1, 2, 3] 0 emptyFile = .ok (some 3, t) ∧
      t.content 1 = [1, 2, 3] := by
  obtain ⟨t, hrun, ht⟩ :=
    ((readi_writei_content emptyFile_locked 0).2 [1, 2, 3]).2.2 (by decide)
      (by decide +kernel)
  refine ⟨t, hrun, ?_⟩
  have hold : emptyFile.content 1 = [] := by decide +kernel
  have hnew := ht.content
  rw [show (emptyFile.icache 0).inum = 1 from rfl, hold] at hnew
  exact hnew

end ZtlOs.Kernel
