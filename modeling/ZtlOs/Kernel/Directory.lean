import ZtlOs.Kernel.Dir
import ZtlOs.Kernel.Holding
import ZtlOs.Support.Bindings

/-!
# A directory is a finite map

The entries of a directory are slots: an entry with an inode number binds its
name, of at most `DIRSIZ` bytes, to this number.  `dirlookup` finds the binding
of a name, `dirlink` adds one in the first free slot, and an entry that is
overwritten with zeros is removed.
-/

namespace ZtlOs.Kernel

open ZtlOs.Support ZtlOs.Support.Program ZtlOs.Support.Bindings ZtlOs.Fs

/-! ## Names -/

/-- The bytes of a string before its NUL, at most `n` of them. -/
def cstring (n : ℕ) (p : Bytes) : Bytes :=
  (p.take n).takeWhile fun c => c ≠ 0

/-- A name as a directory keeps it. -/
def cutName (name : Bytes) : Bytes :=
  cstring DIRSIZ name

section Strings

variable {n : ℕ} {p q : Bytes}

theorem cstring_succ : cstring (n + 1) p =
    if p.headD 0 = 0 then [] else p.headD 0 :: cstring n p.tail := by
  cases p with
  | nil => rfl
  | cons c p =>
      rw [cstring, List.take_succ_cons, List.takeWhile_cons]
      by_cases hc : c = 0
      · simp [hc]
      · simp [cstring]

/-- `strncmp` compares the strings up to `n` bytes. -/
theorem strncmp_eq_zero :
    strncmp n p q = 0 ↔ cstring n p = cstring n q := by
  induction n generalizing p q with
  | zero => exact iff_of_true rfl rfl
  | succ n ih =>
      rw [strncmp, cstring_succ, cstring_succ]
      by_cases heq : p.headD 0 = q.headD 0
      · by_cases hzero : p.headD 0 = 0
        · rw [if_neg fun h => h.1 hzero, if_pos hzero, if_pos (heq ▸ hzero),
            heq]
          exact iff_of_true (sub_self _) rfl
        · rw [if_pos ⟨hzero, heq⟩, if_neg hzero, if_neg (heq ▸ hzero), ih, heq,
            List.cons.injEq]
          exact (and_iff_right rfl).symm
      · have hne : ((p.headD 0).toNat : ℤ) - (q.headD 0).toNat ≠ 0 := by
          intro h
          apply heq
          apply BitVec.eq_of_toNat_eq
          omega
        rw [if_neg fun h => heq h.2]
        refine iff_of_false hne fun h => heq ?_
        split at h <;> split at h <;> simp_all

theorem cstring_strncpy : cstring n (strncpy n p) = cstring n p := by
  induction n generalizing p with
  | zero => rfl
  | succ n ih =>
      rw [strncpy, cstring_succ, cstring_succ]
      by_cases hzero : p.headD 0 = 0
      · rw [if_pos hzero, if_pos hzero, List.replicate_succ]
        exact if_pos rfl
      · rw [if_neg hzero, if_neg hzero]
        change (if p.headD 0 = 0 then [] else _) = _
        rw [if_neg hzero]
        exact congrArg _ ih

theorem length_strncpy : (strncpy n p).length = n := by
  induction n generalizing p with
  | zero => rfl
  | succ n ih =>
      rw [strncpy]
      split
      · exact List.length_replicate
      · rw [List.length_cons, ih]

theorem namecmp_eq_zero :
    namecmp p q = 0 ↔ cutName p = cutName q :=
  strncmp_eq_zero

theorem direntName_linkDirent (inum : ℕ) :
    direntName (linkDirent p inum) = strncpy DIRSIZ p := by
  apply List.ext_getElem
  · rw [direntName, List.length_ofFn, length_strncpy]
  · intro k hk hk'
    simp only [direntName, linkDirent, List.getElem_ofFn]
    exact (List.getElem_eq_getD 0).symm

end Strings

/-! ## Entries -/

/-- What an entry binds; one without an inode number is free. -/
def bindingOf (de : Dirent) : Option (Bytes × ℕ) :=
  if de.inum = 0 then none
  else some (cutName (direntName de), de.inum.toNat)

/-- The slots of a directory with these bytes. -/
def bindings (l : Bytes) : List (Option (Bytes × ℕ)) :=
  (dirents l).map bindingOf

theorem length_bindings {l : Bytes} :
    (bindings l).length = l.length / Dirent.size := by
  rw [bindings, List.length_map, length_dirents]

theorem getElem?_bindings {l : Bytes} {j : ℕ} (h : j < (bindings l).length) :
    (bindings l)[j]? = some (bindingOf (direntAt l j)) := by
  rw [bindings, List.length_map] at h
  rw [bindings, List.getElem?_map, List.getElem?_eq_getElem h,
    getElem_dirents h]
  rfl

theorem bindingOf_linkDirent {name : Bytes} {inum : ℕ} (hpos : 1 ≤ inum)
    (hle : inum ≤ 65535) :
    bindingOf (linkDirent name inum) = some (cutName name, inum) := by
  have hnat : (BitVec.ofNat 16 inum).toNat = inum := by
    rw [BitVec.toNat_ofNat]
    exact Nat.mod_eq_of_lt (by omega)
  have hne : (linkDirent name inum).inum ≠ 0 := by
    intro hzero
    have : (BitVec.ofNat 16 inum).toNat = 0 := by
      rw [show BitVec.ofNat 16 inum = 0 from hzero]
      rfl
    omega
  rw [bindingOf, if_neg hne, direntName_linkDirent, cutName, cstring_strncpy]
  exact congrArg (fun k => some (cutName name, k)) hnat

/-- An entry written behind or over the others. -/
theorem bindings_splice {l : Bytes} {j : ℕ} (de : Dirent)
    (hwhole : Dirent.size ∣ l.length) (hj : j ≤ (bindings l).length) :
    bindings (splice l (Dirent.size * j) de.bytes) =
      place (bindings l) j (bindingOf de) := by
  obtain ⟨n, hn⟩ := hwhole
  have hlen : (bindings l).length = n := by
    rw [length_bindings, hn]
    exact Nat.mul_div_cancel_left n (by decide)
  rw [hlen] at hj
  unfold place
  split
  · next hlt =>
      rw [hlen] at hlt
      rw [bindings, dirents_splice_set (by simp only [Dirent.size] at *; omega),
        List.map_set, bindings]
  · next hge =>
      obtain rfl : j = n := by omega
      rw [bindings, dirents_splice_append hn.symm, List.map_append, bindings]
      rfl

/-! ## Directories -/

variable {P : Type} {s t u : State P} {dp : Slot} {name : Bytes} {j : ℕ}

/-- The slots of the directory in slot `dp` of the inode cache. -/
def State.entries (s : State P) (dp : Slot) : List (Option (Bytes × ℕ)) :=
  bindings (s.content (s.icache dp).inum)

/-- The map of the directory in slot `dp` of the inode cache. -/
def State.names (s : State P) (dp : Slot) : Bytes → Option ℕ :=
  lookup (s.entries dp)

/-- The caller has locked a directory that consists of whole entries, no two of
them with the same name. -/
structure Directory (s : State P) (dp : Slot) : Prop where
  lockedFile : LockedFile s dp
  type : (s.icache dp).din.type = T_DIR
  whole : Dirent.size ∣ (s.icache dp).din.size.toNat
  distinct : Distinct (s.entries dp)

/-- The directory has room for one more entry: in a free slot or behind the
last entry, with free blocks as far as this needs some. -/
structure Room (s : State P) (dp : Slot) : Prop where
  fits : Dirent.size * firstFree (s.entries dp) + Dirent.size ≤
    MAXFILE * BSIZE
  blocks : s.needed dp (Dirent.size * firstFree (s.entries dp)) Dirent.size ≤
    freeBlocks s.sb s.disk

theorem entries_congr (h : SameFiles s t)
    (hinum : (t.icache dp).inum = (s.icache dp).inum) :
    t.entries dp = s.entries dp := by
  rw [State.entries, State.entries, h.content_eq, hinum]

theorem not_full {p : Prop} (hslot : ∃ c, (s.icache c).ref = 0)
    (hall : ∀ c, 0 < (s.icache c).ref) : p := by
  obtain ⟨c, hc⟩ := hslot
  have := hall c
  omega

/-- Only the trace has changed before the file is written. -/
theorem FileWritten.traced {off : ℕ} {src : Bytes}
    (h : FileWritten dp off src t u)
    (ht : t = { s with trace := t.trace }) : FileWritten dp off src s u := by
  rw [ht] at h
  exact ⟨h.content, h.size, h.fields, h.others, h.state, h.lockedFile⟩

namespace Directory

theorem table_eq (h : Directory s dp) :
    s.table (s.icache dp).inum = (s.icache dp).din :=
  (h.lockedFile.consistent.table_eq h.lockedFile.ref h.lockedFile.valid).2

theorem length_content (h : Directory s dp) :
    (s.content (s.icache dp).inum).length =
      (s.icache dp).din.size.toNat := by
  rw [State.content, Sequence.length_slice, h.table_eq]

theorem size_eq (h : Directory s dp) :
    (s.icache dp).din.size.toNat = Dirent.size * (s.entries dp).length := by
  rw [State.entries, length_bindings, h.length_content]
  exact (Nat.mul_div_cancel' h.whole).symm

/-- The directory is the same after a call that changes no file. -/
theorem sameFiles (h : Directory s dp) (hst : SameFiles s t) :
    Directory t dp ∧ t.entries dp = s.entries dp := by
  obtain ⟨hinum, hdin, -⟩ :=
    hst.same dp h.lockedFile.ref h.lockedFile.valid
  have hentries := entries_congr hst hinum
  refine ⟨⟨hst.lockedFile h.lockedFile, ?_, ?_, ?_⟩, hentries⟩
  · rw [hdin]
    exact h.type
  · rw [hdin]
    exact h.whole
  · rw [hentries]
    exact h.distinct

/-! ### Reading the entries -/

theorem readDirent_sat {E : Stop → Prop} (h : Directory s dp)
    (hj : j < (s.entries dp).length) (message : String) :
    Sat (readDirent message dp (Dirent.size * j)) s (fun de t =>
      (s.entries dp)[j]? = some (bindingOf de) ∧
        de = direntAt (s.content (s.icache dp).inum) j ∧
        t = { s with trace := t.trace }) E := by
  have hsize := h.size_eq
  have hlen := h.length_content
  have hlt := (s.icache dp).din.size.isLt
  obtain ⟨tr, hrun⟩ :=
    readi_content h.lockedFile (Dirent.size * j) Dirent.size
  rw [if_neg (by simp only [Dirent.size] at *; omega)] at hrun
  refine .bind (Sat.of_ok hrun ?_)
  have htake : (((s.content (s.icache dp).inum).drop
      (Dirent.size * j)).take Dirent.size).length = Dirent.size := by
    rw [List.length_take, List.length_drop, hlen, hsize]
    simp only [Dirent.size] at *
    omega
  change Sat (if _ then _ else _) _ _ _
  rw [if_pos htake]
  exact Sat.pure ⟨getElem?_bindings hj, rfl, rfl⟩

theorem offsets_eq (h : Directory s dp) :
    direntOffsets (s.icache dp).din.size.toNat =
      (List.range (s.entries dp).length).map (Dirent.size * ·) := by
  rw [direntOffsets, h.size_eq]
  congr 2
  simp only [Dirent.size]
  omega

/-- The loop of `dirlookup` finds the first of the slots `js` that binds the
name. -/
theorem dirlookupLoop_sat {E : Stop → Prop} (name : Bytes) (js : List ℕ)
    (h : Directory s dp) (hjs : ∀ j ∈ js, j < (s.entries dp).length)
    (hfull : (∀ c, 0 < (s.icache c).ref) → E (.panic "iget: no inodes")) :
    Sat (dirlookupLoop dp name (js.map (Dirent.size * ·))) s (fun r t =>
      (r = none ∧ t = { s with trace := t.trace } ∧
        ∀ j ∈ js, ∀ inum, ¬Binds (s.entries dp) j (cutName name) inum) ∨
      ∃ c j inum, r = some (c, Dirent.size * j) ∧
        Binds (s.entries dp) j (cutName name) inum ∧ Got inum c s t) E := by
  induction js generalizing s with
  | nil => exact Sat.pure (.inl ⟨rfl, rfl, fun j hj => nomatch hj⟩)
  | cons j js ih =>
      refine (h.readDirent_sat (hjs j List.mem_cons_self) _).andThen ?_
      rintro de t ⟨hentry, -, ht⟩
      have htraced : SameFiles s t := .traced ht
      have hrefs : ∀ c, (t.icache c).ref = (s.icache c).ref := by
        rw [ht]
        exact fun _ => rfl
      obtain ⟨hdir, hentries⟩ := h.sameFiles htraced
      -- The rest of the loop, for an entry with another name or none.
      have hrest : (∀ inum, ¬Binds (s.entries dp) j (cutName name) inum) →
          Sat (dirlookupLoop dp name (js.map (Dirent.size * ·))) t (fun r u =>
            (r = none ∧ u = { s with trace := u.trace } ∧ ∀ j' ∈ j :: js,
              ∀ inum, ¬Binds (s.entries dp) j' (cutName name) inum) ∨
            ∃ c j inum, r = some (c, Dirent.size * j) ∧
              Binds (s.entries dp) j (cutName name) inum ∧ Got inum c s u)
            E := by
        intro hnot
        refine (ih hdir ?_ ?_).imp ?_
        · rw [hentries]
          exact fun j' hj' => hjs j' (List.mem_cons_of_mem j hj')
        · intro hall
          exact hfull fun c => hrefs c ▸ hall c
        · rw [hentries]
          rintro r u (⟨rfl, hu, hnone⟩ | ⟨c, j', inum, rfl, hb, hgot⟩)
          · refine .inl ⟨rfl, ?_, ?_⟩
            · rw [hu, ht]
            · intro j' hj'
              rcases List.mem_cons.mp hj' with rfl | hj'
              · exact hnot
              · exact hnone j' hj'
          · exact .inr ⟨c, j', inum, rfl, hb, hgot.traced ht⟩
      apply Sat.ite
      · intro hzero
        apply hrest
        intro inum hb
        rw [Binds, hentry, bindingOf, if_pos hzero] at hb
        cases hb
      · intro hlive
        rw [bindingOf, if_neg hlive] at hentry
        apply Sat.ite
        · intro heq
          rw [namecmp_eq_zero] at heq
          refine (iget_got de.inum.toNat fun hall =>
            hfull fun c => hrefs c ▸ hall c).andThen ?_
          intro c u hgot
          refine Sat.pure (.inr ⟨c, j, de.inum.toNat, rfl, ?_,
            hgot.traced ht⟩)
          rw [Binds, hentry, heq]
        · intro hne
          apply hrest
          intro inum hb
          rw [Binds, hentry] at hb
          apply hne
          rw [namecmp_eq_zero]
          exact (Prod.mk.inj (Option.some.inj (Option.some.inj hb))).1.symm

/-- `dirlookup` on a locked directory. -/
theorem dirlookup_sat {E : Stop → Prop} (name : Bytes) (h : Directory s dp)
    (hfull : (∀ c, 0 < (s.icache c).ref) → E (.panic "iget: no inodes")) :
    Sat (dirlookup dp name) s (fun r t =>
      (r = none ∧ t = { s with trace := t.trace } ∧
        s.names dp (cutName name) = none) ∨
      ∃ c j inum, r = some (c, Dirent.size * j) ∧
        Binds (s.entries dp) j (cutName name) inum ∧
        s.names dp (cutName name) = some inum ∧ Got inum c s t) E := by
  apply getDin_bind
  rw [if_neg (not_not_intro h.type), h.offsets_eq]
  refine (h.dirlookupLoop_sat name _ (fun j hj => List.mem_range.mp hj)
    hfull).imp ?_
  rintro r t (⟨rfl, ht, hnone⟩ | ⟨c, j, inum, rfl, hb, hgot⟩)
  · refine .inl ⟨rfl, ht, lookup_eq_none.mpr fun j inum hb => ?_⟩
    exact hnone j (List.mem_range.mpr (lt_length_of_binds hb)) inum hb
  · exact .inr ⟨c, j, inum, rfl, hb, (lookup_eq_some h.distinct).mpr ⟨j, hb⟩,
      hgot⟩

/-- The loop of `dirlink` finds the first free slot. -/
theorem emptyDirent_sat {E : Stop → Prop} (m k : ℕ) (h : Directory s dp)
    (hkm : k + m = (s.entries dp).length)
    (hbefore : ∀ j < k, ¬Free (s.entries dp) j) :
    Sat (emptyDirent dp (Dirent.size * (s.entries dp).length)
      ((List.range' k m).map (Dirent.size * ·))) s (fun off t =>
        off = Dirent.size * firstFree (s.entries dp) ∧
          t = { s with trace := t.trace }) E := by
  induction m generalizing k s with
  | zero =>
      refine Sat.pure ⟨?_, rfl⟩
      rw [firstFree_eq_length]
      intro j hj
      have := (List.getElem?_eq_some_iff.mp hj).1
      exact hbefore j (by omega) hj
  | succ m ih =>
      refine (h.readDirent_sat (j := k) (by omega) _).andThen ?_
      rintro de t ⟨hentry, -, ht⟩
      obtain ⟨hdir, hentries⟩ := h.sameFiles (.traced ht)
      apply Sat.ite
      · intro hzero
        rw [bindingOf, if_pos hzero] at hentry
        refine Sat.pure ⟨?_, ht⟩
        rw [firstFree_eq_of_free hentry hbefore]
      · intro hlive
        rw [bindingOf, if_neg hlive] at hentry
        have hnext : ∀ j < k + 1, ¬Free (s.entries dp) j := by
          intro j hj hfree
          rcases Nat.lt_succ_iff_lt_or_eq.mp hj with hlt | rfl
          · exact hbefore j hlt hfree
          · rw [Free, hentry] at hfree
            cases hfree
        rw [← hentries] at hkm hnext ⊢
        refine (ih (k + 1) hdir (by omega) hnext).imp ?_
        rintro off u ⟨hoff, hu⟩
        refine ⟨hoff, ?_⟩
        rw [hu, ht]

/-! ### Writing an entry -/

/-- An entry is laid over slot `j`, which may be one behind the last. -/
theorem written {de : Dirent} (h : Directory s dp)
    (hj : j ≤ (s.entries dp).length)
    (hw : FileWritten dp (Dirent.size * j) de.bytes s t)
    (hd : Distinct (place (s.entries dp) j (bindingOf de))) :
    Directory t dp ∧
      t.entries dp = place (s.entries dp) j (bindingOf de) := by
  have hinum : (t.icache dp).inum = (s.icache dp).inum := by
    rw [hw.state]
    simp only [State.setDin, State.icache_setInode_self]
  have hdin : (t.icache dp).din = t.table (s.icache dp).inum := by
    rw [← hinum]
    exact (hw.lockedFile.consistent.table_eq hw.lockedFile.ref
      hw.lockedFile.valid).2.symm
  have hentries : t.entries dp = place (s.entries dp) j (bindingOf de) := by
    rw [State.entries, hinum, hw.content]
    apply bindings_splice de
    · rw [h.length_content]
      exact h.whole
    · exact hj
  refine ⟨⟨hw.lockedFile, ?_, ?_, ?_⟩, hentries⟩
  · rw [hdin, hw.fields, h.table_eq]
    exact h.type
  · rw [hdin, hw.size, h.table_eq, h.size_eq, de.length_bytes]
    simp only [Dirent.size]
    omega
  · rw [hentries]
    exact hd

theorem not_refused (h : Directory s dp) (hj : j ≤ (s.entries dp).length)
    (hfits : Dirent.size * j + Dirent.size ≤ MAXFILE * BSIZE) :
    ¬Refused (s.icache dp).din.size.toNat (Dirent.size * j) Dirent.size := by
  have hmax : MAXFILE * BSIZE < 2 ^ 32 := by decide
  rw [h.size_eq]
  rintro (hlt | hlt | hlt)
  · have := Nat.mul_le_mul_left Dirent.size hj
    omega
  · omega
  · omega

/-- `writei` of an entry at the end of a directory or over another entry. -/
theorem writei_entry {de : Dirent} (h : Directory s dp)
    (hj : j ≤ (s.entries dp).length)
    (hfits : Dirent.size * j + Dirent.size ≤ MAXFILE * BSIZE)
    (hblocks : s.needed dp (Dirent.size * j) Dirent.size ≤
      freeBlocks s.sb s.disk)
    (hd : Distinct (place (s.entries dp) j (bindingOf de))) :
    ∃ t, writei dp de.bytes (Dirent.size * j) s =
        .ok (some Dirent.size, t) ∧ Directory t dp ∧
      t.entries dp = place (s.entries dp) j (bindingOf de) ∧
      FileWritten dp (Dirent.size * j) de.bytes s t := by
  have hlen := de.length_bytes
  obtain ⟨t, hrun, hw⟩ :=
    ((readi_writei_content h.lockedFile (Dirent.size * j)).2 de.bytes).2.2
      (by rw [hlen]; exact h.not_refused hj hfits) (by rwa [hlen])
  rw [hlen] at hrun
  exact ⟨t, hrun, (h.written hj hw hd).1, (h.written hj hw hd).2, hw⟩

/-- No block is missing below the size of a directory. -/
theorem inside (h : Directory s dp) (hj : j < (s.entries dp).length) :
    Dirent.size * j + Dirent.size ≤ MAXFILE * BSIZE ∧
      s.needed dp (Dirent.size * j) Dirent.size = 0 := by
  have hsize := h.size_eq
  have hready := h.lockedFile.ready
  have hle : Dirent.size * j + Dirent.size ≤
      (s.table (s.icache dp).inum).size.toNat := by
    rw [h.table_eq, hsize]
    simp only [Dirent.size]
    omega
  constructor
  · by_contra hlt
    refine hready.there h.lockedFile.ne_dev (k := MAXFILE * BSIZE) (by omega) ?_
    exact listing_beyond (le_refl _)
  · apply missing_eq_zero
    intro k hk
    have hlen := Dirent.zero.length_bytes
    rw [← hlen] at hk hle
    exact hready.rangeSlots_ne_zero h.lockedFile.ne_dev (by
      rw [hlen] at hle ⊢
      exact hle) hk

/-! ### Calls on a directory -/

/-- `dirlink` of a name that is bound leaves the directory as it is. -/
theorem dirlink_present {inum : ℕ} (h : Directory s dp)
    (hslot : ∃ c, (s.icache c).ref = 0)
    (hname : s.names dp (cutName name) ≠ none) :
    ∃ t, dirlink dp name inum s = .ok (false, t) ∧ SameFiles s t ∧
      t.refs = s.refs := by
  have hsat : Sat (dirlink dp name inum) s (fun r t =>
      r = false ∧ SameFiles s t ∧ t.refs = s.refs) fun _ => False := by
    refine (h.dirlookup_sat name (not_full hslot)).andThen ?_
    rintro r t (⟨-, -, hnone⟩ | ⟨c, j, k, rfl, -, -, hgot⟩)
    · exact absurd hnone hname
    · refine hgot.iput_sat.andThen ?_
      rintro - u hu
      exact Sat.pure ⟨rfl, hu⟩
  obtain ⟨r, t, hrun, rfl, ht⟩ := hsat.exists_ok fun _ hf => hf
  exact ⟨t, hrun, ht⟩

/-- `dirlink` of a name that is not bound takes the first free slot. -/
theorem dirlink_absent {inum : ℕ} (h : Directory s dp)
    (hslot : ∃ c, (s.icache c).ref = 0) (hroom : Room s dp)
    (hpos : 1 ≤ inum) (hle : inum ≤ 65535)
    (hname : s.names dp (cutName name) = none) :
    ∃ t, dirlink dp name inum s = .ok (true, t) ∧ Directory t dp ∧
      t.entries dp = place (s.entries dp) (firstFree (s.entries dp))
        (some (cutName name, inum)) ∧
      FileWritten dp (Dirent.size * firstFree (s.entries dp))
        (linkDirent name inum).bytes s t := by
  have hbinding : bindingOf (linkDirent name inum) = _ :=
    bindingOf_linkDirent hpos hle
  -- The slot is found without a change, and then written.
  have hsat : Sat (dirlink dp name inum) s (fun r t => r = true ∧
      Directory t dp ∧ t.entries dp = place (s.entries dp)
        (firstFree (s.entries dp)) (some (cutName name, inum)) ∧
      FileWritten dp (Dirent.size * firstFree (s.entries dp))
        (linkDirent name inum).bytes s t) fun _ => False := by
    have hlookup : Sat (dirlookup dp name) s (fun r t =>
        r = none ∧ t = { s with trace := t.trace }) fun _ => False := by
      refine (h.dirlookup_sat name (not_full hslot)).imp ?_
      rintro r t (⟨hr, ht, -⟩ | ⟨c, j, k, -, -, hsome, -⟩)
      · exact ⟨hr, ht⟩
      · rw [hname] at hsome
        cases hsome
    refine hlookup.andThen ?_
    rintro r t ⟨rfl, ht⟩
    obtain ⟨hdir, hentries⟩ := h.sameFiles (.traced ht)
    apply getDin_bind
    rw [hdir.offsets_eq]
    simp only [List.length_map, List.length_range]
    have hempty := hdir.emptyDirent_sat (E := fun _ => False)
      (t.entries dp).length 0 (Nat.zero_add _) fun j hj => nomatch hj
    rw [← List.range_eq_range'] at hempty
    refine hempty.andThen ?_
    rintro off u ⟨rfl, hu⟩
    rw [ht] at hu
    obtain ⟨hdir', hentries'⟩ := h.sameFiles (.traced hu)
    rw [hentries]
    have hdistinct : Distinct (place (u.entries dp)
        (firstFree (s.entries dp)) (bindingOf (linkDirent name inum))) := by
      rw [hentries', hbinding]
      exact distinct_place_some h.distinct firstFree_le hname
    obtain ⟨v, hrun, hv, hplace, hwritten⟩ := hdir'.writei_entry
      (by rw [hentries']; exact firstFree_le) hroom.fits (by
        rw [hu]
        exact hroom.blocks) hdistinct
    refine .bind (Sat.of_ok hrun ?_)
    rw [if_pos rfl]
    refine Sat.pure ⟨rfl, hv, ?_, hwritten.traced hu⟩
    rw [hplace, hentries', hbinding]
  obtain ⟨r, t, hrun, rfl, ht⟩ := hsat.exists_ok fun _ hf => hf
  exact ⟨t, hrun, ht⟩

/-- An entry that is overwritten with zeros is free. -/
theorem writei_zero {key : Bytes} {inum : ℕ} (h : Directory s dp)
    (hb : Binds (s.entries dp) j key inum) :
    ∃ t, writei dp Dirent.zero.bytes (Dirent.size * j) s =
        .ok (some Dirent.size, t) ∧ Directory t dp ∧
      t.names dp = Function.update (s.names dp) key none ∧
      (t.entries dp).length = (s.entries dp).length := by
  have hlt := lt_length_of_binds hb
  obtain ⟨hfits, hneeded⟩ := h.inside hlt
  have hfree : bindingOf Dirent.zero = none := rfl
  have hdistinct : Distinct (place (s.entries dp) j
      (bindingOf Dirent.zero)) := by
    rw [hfree]
    exact distinct_place_none h.distinct (le_of_lt hlt)
  obtain ⟨t, hrun, ht, hentries, -⟩ :=
    h.writei_entry (le_of_lt hlt) hfits (by omega) hdistinct
  rw [hfree] at hentries
  refine ⟨t, hrun, ht, ?_, ?_⟩
  · rw [State.names, hentries]
    exact lookup_place_none h.distinct hb
  · rw [hentries, length_place, if_pos hlt]

end Directory

/-- A directory with room for one more entry is a map from names, cut to
`DIRSIZ` bytes, to inode numbers. -/
theorem directory_is_map (h : Directory s dp) (hroom : Room s dp)
    (hslot : ∃ c, (s.icache c).ref = 0) (name : Bytes) {inum : ℕ}
    (hpos : 1 ≤ inum) (hle : inum ≤ 65535) :
    (∃ r t, dirlookup dp name s = .ok (r, t) ∧ SameFiles s t ∧
      (r = none ↔ s.names dp (cutName name) = none) ∧
      ∀ ip off, r = some (ip, off) → ∃ j k, off = Dirent.size * j ∧
        Binds (s.entries dp) j (cutName name) k ∧
        s.names dp (cutName name) = some k ∧ Got k ip s t ∧
        -- The zeroing of `sys_unlink`, while the directory is as it was.
        ∀ u : State P, Directory u dp → u.entries dp = s.entries dp →
          ∃ v, writei dp Dirent.zero.bytes off u =
              .ok (some Dirent.size, v) ∧ Directory v dp ∧
            v.names dp = Function.update (s.names dp) (cutName name) none ∧
            (v.entries dp).length = (s.entries dp).length) ∧
    ∃ r t, dirlink dp name inum s = .ok (r, t) ∧ Directory t dp ∧
      (r = false ↔ s.names dp (cutName name) ≠ none) ∧
      (r = false → SameFiles s t ∧ t.entries dp = s.entries dp ∧
        t.refs = s.refs) ∧
      (r = true →
        t.names dp =
          Function.update (s.names dp) (cutName name) (some inum) ∧
        (t.entries dp).length =
          (if none ∈ s.entries dp then (s.entries dp).length
            else (s.entries dp).length + 1) ∧
        ∀ i < s.sb.ninodes, i ≠ (s.icache dp).inum →
          t.table i = s.table i ∧ t.content i = s.content i) := by
  constructor
  · have hsat := h.dirlookup_sat (E := fun _ => False) name (not_full hslot)
    obtain ⟨r, t, hrun, hr⟩ := hsat.exists_ok fun _ hf => hf
    refine ⟨r, t, hrun, ?_⟩
    rcases hr with ⟨rfl, ht, hnone⟩ | ⟨c, j, k, rfl, hb, hk, hgot⟩
    · exact ⟨.traced ht, iff_of_true rfl hnone, fun ip off hr => by cases hr⟩
    · refine ⟨hgot.files, iff_of_false (Option.some_ne_none _) ?_, ?_⟩
      · rw [hk]
        exact Option.some_ne_none k
      · rintro ip off hr
        obtain ⟨rfl, rfl⟩ := Prod.mk.inj (Option.some.inj hr)
        refine ⟨j, k, rfl, hb, hk, hgot, fun u hu hentries => ?_⟩
        have hzero := hu.writei_zero (hentries ▸ hb)
        rwa [State.names, hentries] at hzero
  · by_cases hname : s.names dp (cutName name) = none
    · obtain ⟨t, hrun, ht, hentries, hw⟩ :=
        h.dirlink_absent hslot hroom hpos hle hname
      refine ⟨true, t, hrun, ht, iff_of_false (by decide) (not_not_intro hname),
        fun hf => (by cases hf), fun _ => ⟨?_, ?_, ?_⟩⟩
      · rw [State.names, hentries]
        apply lookup_place_some h.distinct firstFree_le _ hname
        intro k w hb
        have hfree := free_firstFree (lt_length_of_binds hb)
        rw [Binds, hfree] at hb
        cases hb
      · rw [hentries, length_place]
        simp only [firstFree_lt_length]
      · intro i hi hne
        obtain ⟨htable, hcontent, -⟩ := hw.others i hi hne
        exact ⟨htable, hcontent⟩
    · obtain ⟨t, hrun, hfiles, hrefs⟩ := h.dirlink_present hslot hname
      obtain ⟨ht, hentries⟩ := h.sameFiles hfiles
      exact ⟨false, t, hrun, ht, iff_of_true rfl hname,
        fun _ => ⟨hfiles, hentries, hrefs⟩, fun hf => by cases hf⟩

/-- The caller has just created a directory without entries and locked it. -/
def emptyDirectory : State Unit :=
  { emptyFile with
    icache := fun c =>
      if c = 0 then
        { emptyFile.icache 0 with
          din := { Dinode.zero with type := T_DIR, nlink := 1 } }
      else emptyFile.icache c }

theorem emptyDirectory_entries : emptyDirectory.entries 0 = [] := by
  have hcontent : emptyDirectory.content 1 = [] := by decide +kernel
  rw [State.entries, show (emptyDirectory.icache 0).inum = 1 from rfl,
    hcontent]
  rfl

theorem emptyDirectory_directory : Directory emptyDirectory 0 := by
  have hone : ∀ c, 0 < (emptyDirectory.icache c).ref → c = 0 := by
    decide +kernel
  constructor
  · constructor
    · constructor
      · apply emptyFile_owned
        · decide +kernel
        · decide +kernel
      · intro c c' hc hc' _
        rw [hone c hc, hone c' hc']
    · decide
    · decide
    · decide
    · decide
    · decide
    · rfl
  · rfl
  · exact ⟨0, rfl⟩
  · rw [emptyDirectory_entries]
    intro i j k v w hi
    cases hi

/-- A first name in an empty directory. -/
theorem directory_is_map_empty :
    ∃ t, dirlink 0 [0x61] 7 emptyDirectory = .ok (true, t) ∧
      t.names 0 [0x61] = some 7 := by
  have hroom : Room emptyDirectory 0 := by
    constructor
    · rw [emptyDirectory_entries]
      decide
    · rw [emptyDirectory_entries]
      decide +kernel
  have hnone : emptyDirectory.names 0 (cutName [0x61]) = none := by
    rw [State.names, emptyDirectory_entries]
    rfl
  obtain ⟨-, r, t, hrun, -, hiff, -, htrue⟩ :=
    directory_is_map emptyDirectory_directory hroom ⟨1, by decide⟩ [0x61]
      (show 1 ≤ 7 by decide) (by decide)
  have hr : r = true := by
    rw [← Bool.not_eq_false, hiff]
    exact not_not_intro hnone
  subst hr
  refine ⟨t, hrun, ?_⟩
  rw [(htrue rfl).1]
  rfl

end ZtlOs.Kernel
