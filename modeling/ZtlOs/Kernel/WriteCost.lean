import ZtlOs.Kernel.Logged

/-!
# What a write passes to log_write

The blocks that `writei` passes to `log_write` for a file or a directory, on a
volume whose bitmap is one block, and how many they are.
-/

namespace ZtlOs.Kernel

open ZtlOs.Support ZtlOs.Support.Program ZtlOs.Fs

variable {P : Type} {s t u : State P} {ip : Slot}

/-! ## bmap -/

section Bmap

variable {V : Table} {i bn : ℕ}

/-- Block `w` is passed to `log_write` when the block with index `bn` is
written: it is that block, or that block is new and `w` lists it or marks it.
The slots of the inode are `g` before the write and `g'` afterwards. -/
def LogsBlock (sb : Superblock) (g g' : ℕ → ℕ) (bn w : ℕ) : Prop :=
  w = g' (dataSlot bn) ∨ g (dataSlot bn) = 0 ∧
    (w = sb.bmapstart ∨ w ∈ (bmapSlots bn).image g')

/-- What `bmap` has passed to `log_write`, apart from the block itself. -/
def LogsMap (V : Table) (i : ℕ) (ip : Slot) (k : ℕ) (R : Finset ℕ)
    (s t : State P) : Prop :=
  t.logs = if listing s.sb s.disk V i k = 0 then
    insert s.sb.bmapstart (R.image
      (listing s.sb t.disk (Grown.table V i ip t) i)) ∪ s.logs
  else s.logs

/-- An address of the inode. -/
theorem setAddr_maps {k : Fin (NDIRECT + 1)} (h : Ready V i ip s)
    (hzero : (V i).addrs k = 0) (hsize : s.sb.size ≤ BPB) :
    Sat (do
      let addr ← balloc
      let d ← getDin ip
      setDin ip (d.setAddr k (BitVec.ofNat 32 addr))
      pure addr) s (fun b t => Maps V i ip k.val {k.val} s b t ∧
        LogsMap V i ip k.val {k.val} s t) fun _ => True := by
  refine ((setAddr_sat h hzero fun _ => trivial).both
    (setAddr_logs ip k hsize)).imp ?_
  rintro b t ⟨hmaps, hlogs⟩
  have hnone : listing s.sb s.disk V i k.val = 0 := by
    rw [listing_eq s.disk h.lt h.type, Dinode.slot_direct k.isLt, hzero]
    rfl
  refine ⟨hmaps, ?_⟩
  rw [LogsMap, if_pos hnone, Finset.image_singleton, hmaps.slot, hlogs]
  ext w
  simp only [Finset.mem_insert, Finset.mem_union, Finset.mem_singleton]
  tauto

theorem Maps.found_logs {k : Fin (NDIRECT + 1)} (h : Ready V i ip s)
    (hne : (V i).addrs k ≠ 0) : LogsMap V i ip k.val {k.val} s s := by
  rw [LogsMap, if_neg]
  rw [listing_eq s.disk h.lt h.type, Dinode.slot_direct k.isLt]
  exact fun hzero => hne (BitVec.eq_of_toNat_eq hzero)

/-- An entry of the indirect block. -/
theorem entry_maps {ind j : ℕ} (h : Ready V i ip s)
    (hind : listing s.sb s.disk V i NDIRECT = ind) (hne : ind ≠ 0)
    (hj : j < NINDIRECT) (hsize : s.sb.size ≤ BPB) :
    Sat (do
      let a ← bread ind
      if a.word (4 * j) = 0 then do
        let addr ← balloc
        logWrite ind (a.setWord (4 * j) (BitVec.ofNat 32 addr))
        brelse ind
        pure addr
      else do
        brelse ind
        pure (a.word (4 * j)).toNat) s (fun b t =>
          Maps V i ip (NDIRECT + 1 + j) {NDIRECT + 1 + j} s b t ∧
            LogsMap V i ip (NDIRECT + 1 + j) {NDIRECT, NDIRECT + 1 + j} s t)
      fun _ => True := by
  refine ((entry_sat h hind hne hj fun _ _ => trivial).both
    (entry_logs ind j hsize)).imp ?_
  rintro b t ⟨hmaps, hlogs⟩
  refine ⟨hmaps, ?_⟩
  have hword := h.listing_entry hind hne j
  have hsame : listing s.sb t.disk (Grown.table V i ip t) i NDIRECT = ind := by
    rw [← hind]
    apply hmaps.grown.volume.only
    rw [Finset.mem_singleton]
    omega
  unfold LogsMap
  split
  · next hnone =>
      rw [hnone] at hword
      rw [hlogs, if_pos (BitVec.eq_of_toNat_eq hword.symm),
        Finset.image_insert, Finset.image_singleton, hsame, hmaps.slot]
      ext w
      simp only [Finset.mem_insert, Finset.mem_union, Finset.mem_singleton]
      tauto
  · next hsome =>
      rw [hlogs, if_neg]
      intro hzero
      rw [hzero] at hword
      exact hsome hword

/-- The indirect block, and then its entry. -/
theorem LogsMap.after {j : ℕ} (h : Ready V i ip s)
    (hgrown : Grown V i ip {NDIRECT} False s t)
    (hind : LogsMap V i ip NDIRECT {NDIRECT} s t)
    (hu : Grown (Grown.table V i ip t) i ip {NDIRECT + 1 + j} False t u)
    (hentry : LogsMap (Grown.table V i ip t) i ip (NDIRECT + 1 + j)
      {NDIRECT, NDIRECT + 1 + j} t u) :
    LogsMap V i ip (NDIRECT + 1 + j) {NDIRECT, NDIRECT + 1 + j} s u := by
  have hbefore : listing s.sb t.disk (Grown.table V i ip t) i
      (NDIRECT + 1 + j) = listing s.sb s.disk V i (NDIRECT + 1 + j) := by
    apply hgrown.volume.only
    rw [Finset.mem_singleton]
    omega
  have hafter : listing s.sb u.disk (Grown.table V i ip u) i NDIRECT =
      listing s.sb t.disk (Grown.table V i ip t) i NDIRECT := by
    have honly := hu.volume.only NDIRECT (by
      rw [Finset.mem_singleton]
      omega)
    rwa [hgrown.sb, Grown.table, Function.update_idem] at honly
  unfold LogsMap at hentry ⊢
  rw [hgrown.sb, hbefore, Grown.table, Grown.table,
    Function.update_idem] at hentry
  rw [hentry, hind]
  split
  · rw [Finset.image_insert, Finset.image_singleton, Finset.image_singleton,
      ← hafter]
    split
    · ext w
      simp only [Finset.mem_insert, Finset.mem_union, Finset.mem_singleton]
      tauto
    · rfl
  · next hsome =>
      have haddr : (V i).addrs indirectSlot ≠ 0 := by
        intro hzero
        apply hsome
        rw [listing_eq s.disk h.lt h.type]
        exact Dinode.slot_entry_none hzero _
      rw [if_neg]
      rw [listing_eq s.disk h.lt h.type]
      exact fun hzero => haddr (Dinode.addrs_indirectSlot_eq_zero.mpr hzero)

theorem bmap_logs (h : Ready V i ip s) (hbn : bn < MAXFILE)
    (hsize : s.sb.size ≤ BPB) :
    Sat (bmap ip bn) s (fun b t =>
      Maps V i ip (dataSlot bn) (bmapSlots bn) s b t ∧
        LogsMap V i ip (dataSlot bn) (bmapSlots bn) s t) fun _ => True := by
  apply getDin_bind
  rw [h.newest]
  apply Sat.ite
  · intro hlt
    have hval : (Fin.ofNat (NDIRECT + 1) bn).val = dataSlot bn := by
      rw [dataSlot, if_pos hlt]
      exact Nat.mod_eq_of_lt (by omega)
    rw [bmapSlots, if_pos hlt, ← hval]
    apply Sat.ite
    · intro hzero
      exact setAddr_maps h hzero hsize
    · intro hne
      exact Sat.pure ⟨Maps.found h hne, Maps.found_logs h hne⟩
  · intro hge
    have hmax : MAXFILE = NDIRECT + NINDIRECT := rfl
    have hslot : dataSlot bn = NDIRECT + 1 + (bn - NDIRECT) := by
      rw [dataSlot, if_neg hge]
      omega
    rw [bmapSlots, if_neg hge, hslot]
    apply Sat.ite
    · intro hj
      apply Sat.andThen (Q := fun b t => Maps V i ip NDIRECT {NDIRECT} s b t ∧
        LogsMap V i ip NDIRECT {NDIRECT} s t)
      · apply Sat.ite
        · intro hzero
          exact setAddr_maps h hzero hsize
        · intro hne
          exact Sat.pure ⟨Maps.found h hne, Maps.found_logs h hne⟩
      rintro ind t ⟨⟨hgrown, hind, hne⟩, hlogs⟩
      have hready := hgrown.ready h
      have hsb := hgrown.sb
      rw [← hsb] at hind hsize
      refine (entry_maps hready hind hne hj hsize).imp ?_
      rintro b u ⟨hu, hulogs⟩
      refine ⟨Maps.after (hgrown.mono ?_ id) hu (Finset.subset_insert ..),
        .after h hgrown hlogs hu.grown hulogs⟩
      exact Finset.singleton_subset_iff.mpr (Finset.mem_insert_self ..)
    · intro hj
      omega

end Bmap

/-! ## writei -/

/-- The indices of the blocks for `n` bytes from offset `off` on. -/
def touched (off n : ℕ) : Finset ℕ :=
  (Finset.range n).image fun j => (off + j) / BSIZE

theorem mem_touched {off n bn : ℕ} :
    bn ∈ touched off n ↔ ∃ j < n, (off + j) / BSIZE = bn := by
  simp [touched]

/-- The first block, and those behind it. -/
theorem touched_split {off n m : ℕ} (hn : 0 < n)
    (hm : m = min n (BSIZE - off % BSIZE)) :
    touched off n = insert (off / BSIZE) (touched (off + m) (n - m)) := by
  have hlt : off % BSIZE < BSIZE := Nat.mod_lt _ (by decide)
  ext bn
  rw [Finset.mem_insert, mem_touched, mem_touched]
  constructor
  · rintro ⟨j, hj, rfl⟩
    by_cases hjm : j < m
    · left
      simp only [BSIZE] at *
      omega
    · right
      exact ⟨j - m, by omega, by congr 1; omega⟩
  · rintro (rfl | ⟨j, hj, rfl⟩)
    · exact ⟨0, hn, rfl⟩
    · exact ⟨m + j, by omega, by rw [Nat.add_assoc]⟩

/-- The blocks behind the first one are other blocks. -/
theorem ne_of_mem_touched {off n m bn : ℕ}
    (hm : m = min n (BSIZE - off % BSIZE))
    (hbn : bn ∈ touched (off + m) (n - m)) : bn ≠ off / BSIZE := by
  have hlt : off % BSIZE < BSIZE := Nat.mod_lt _ (by decide)
  obtain ⟨j, hj, rfl⟩ := mem_touched.mp hbn
  simp only [BSIZE] at *
  omega

theorem dataSlot_mem_bmapSlots {bn bn' : ℕ} :
    dataSlot bn ∈ bmapSlots bn' ↔ bn = bn' := by
  unfold bmapSlots
  split
  · simp only [Finset.mem_singleton]
    exact ⟨dataSlot_injective, congrArg dataSlot⟩
  · simp only [Finset.mem_insert, Finset.mem_singleton]
    constructor
    · rintro (h | h)
      · exact absurd h (dataSlot_ne_indirect bn)
      · exact dataSlot_injective h
    · rintro rfl
      exact .inr rfl

/-- The slots for bytes of one block. -/
theorem rangeSlots_of_block {off n : ℕ} (hn : 0 < n)
    (hfit : off % BSIZE + n ≤ BSIZE) :
    rangeSlots off n = bmapSlots (off / BSIZE) := by
  apply Finset.Subset.antisymm
  · apply Finset.biUnion_subset.mpr
    intro j hj
    have hj := Finset.mem_range.mp hj
    rw [show (off + j) / BSIZE = off / BSIZE by
      simp only [BSIZE] at *
      omega]
  · exact bmapSlots_subset (le_refl _) (by omega)

section Loop

variable {V : Table} {i off n m : ℕ} {xs ys src : Bytes}

/-- Only the slots of the block matter. -/
theorem LogsBlock.congr {sb : Superblock} {f f' g g' : ℕ → ℕ} {bn w : ℕ}
    (hold : f' (dataSlot bn) = f (dataSlot bn))
    (hnew : ∀ j ∈ bmapSlots bn, g' j = g j) :
    LogsBlock sb f' g' bn w ↔ LogsBlock sb f g bn w := by
  unfold LogsBlock
  rw [hold, hnew _ (dataSlot_mem_bmapSlots.mpr rfl),
    Finset.image_congr hnew]

/-- From `s` to `t`, the blocks for `n` bytes from offset `off` on have been
passed to `log_write`, with those that list or mark them. -/
def LogsWrite (V : Table) (i : ℕ) (ip : Slot) (off n : ℕ) (s t : State P) :
    Prop :=
  ∀ w, w ∈ t.logs ↔ w ∈ s.logs ∨ ∃ bn ∈ touched off n,
    LogsBlock s.sb (listing s.sb s.disk V i)
      (listing s.sb t.disk (Grown.table V i ip t) i) bn w

/-- A block that has been written is listed. -/
theorem Wrote.listed (h : Ready V i ip s) (hw : Wrote V i ip off xs s t)
    (hpos : 0 < xs.length) {j : ℕ} (hj : j ∈ bmapSlots (off / BSIZE)) :
    listing s.sb t.disk (Grown.table V i ip t) i j ≠ 0 := by
  have hdata := hw.there off le_rfl (by omega)
  have hready := hw.grown.ready h
  rw [← hw.grown.sb] at hdata ⊢
  exact hready.bmapSlots_ne_zero hdata hj

/-- The first block, and then those behind it. -/
theorem LogsWrite.cons (h : Ready V i ip s) (hw : Wrote V i ip off xs s t)
    (hpos : 0 < xs.length) (hfit : off % BSIZE + xs.length ≤ BSIZE)
    (hlogs : ∀ w, w ∈ t.logs ↔ w ∈ s.logs ∨
      LogsBlock s.sb (listing s.sb s.disk V i)
        (listing s.sb t.disk (Grown.table V i ip t) i) (off / BSIZE) w)
    (hw' : Wrote (Grown.table V i ip t) i ip (off + xs.length) ys t u)
    (hxs : xs.length = min n (BSIZE - off % BSIZE))
    (hrest : LogsWrite (Grown.table V i ip t) i ip (off + xs.length)
      (n - xs.length) t u) : LogsWrite V i ip off n s u := by
  have hn : 0 < n := by omega
  have hkept := hw'.grown.volume.kept
  have honly := hw.grown.volume.only
  rw [rangeSlots_of_block hpos hfit] at honly
  simp only [LogsWrite, hw.grown.sb, Grown.table,
    Function.update_idem] at hkept hrest
  intro w
  rw [hrest, hlogs, or_assoc, touched_split hn hxs, Finset.exists_mem_insert]
  refine or_congr_right (or_congr ?_ ?_)
  · refine (LogsBlock.congr rfl fun j hj => ?_).symm
    exact hkept j (hw.listed h hpos hj)
  · refine exists_congr fun bn => and_congr_right fun hbn => ?_
    refine (LogsBlock.congr ?_ fun _ _ => rfl).symm
    refine (honly _ fun hmem => ?_).symm
    exact ne_of_mem_touched hxs hbn (dataSlot_mem_bmapSlots.mp hmem)

theorem LogsWrite.nil : LogsWrite V i ip off 0 s s := by
  intro w
  simp [touched]

/-- One round of the loop. -/
theorem writeRound_bind {α : Type} {Q : α → State P → Prop} {g : Unit → M P α}
    (h : Ready V i ip s) (hsize : s.sb.size ≤ BPB)
    (hpos : 0 < xs.length) (hfit : off % BSIZE + xs.length ≤ BSIZE)
    (hmax : off + xs.length ≤ MAXFILE * BSIZE)
    (hg : ∀ t, Wrote V i ip off xs s t →
      (∀ w, w ∈ t.logs ↔ w ∈ s.logs ∨
        LogsBlock s.sb (listing s.sb s.disk V i)
          (listing s.sb t.disk (Grown.table V i ip t) i) (off / BSIZE) w) →
      Sat (g ()) t Q fun _ => True) :
    Sat (do
      let b ← bmap ip (off / BSIZE)
      let bp ← bread b
      logWrite b (bp.put (off % BSIZE) xs)
      brelse b
      g ()) s Q fun _ => True := by
  have hbn : off / BSIZE < MAXFILE := by
    rw [Nat.div_lt_iff_lt_mul (by decide)]
    omega
  refine (bmap_logs h hbn hsize).andThen ?_
  rintro b t ⟨ht, hlogs⟩
  apply bread_bind fun _ => trivial
  apply logWrite_bind
  apply brelse_bind
  refine hg _ (.round h ht hpos hfit ?_) fun w => ?_
  · simp only [State.emit, State.setDisk, List.erase_cons_head]
  · have howned := ht.grown.volume.owned
    have hlist := Sound.listing_update_data (howned.ne_indirect hbn ht.slot
      ht.pos) ((t.disk b).put (off % BSIZE) xs)
    change w ∈ insert b t.logs ↔ _ ∨ LogsBlock s.sb _
      (listing s.sb (Function.update t.disk b _) (Grown.table V i ip t) i) _ w
    rw [hlist, hlogs, LogsBlock, ht.slot]
    split
    · next hnone =>
        simp only [Finset.mem_insert, Finset.mem_union, hnone, true_and]
        tauto
    · next hsome =>
        simp only [Finset.mem_insert, hsome, false_and, or_false]
        tauto

theorem writeLoop_logs {fuel : ℕ} (h : Ready V i ip s)
    (hsize : s.sb.size ≤ BPB) (hmax : off + src.length ≤ MAXFILE * BSIZE)
    (hfuel : src.length ≤ fuel) :
    Sat (writeLoop ip fuel off src) s (fun o t => o = off + src.length ∧
      Wrote V i ip off src s t ∧ LogsWrite V i ip off src.length s t)
      fun _ => True := by
  induction fuel generalizing s V off src with
  | zero =>
      obtain rfl : src = [] := List.length_eq_zero_iff.mp (by omega)
      exact Sat.pure ⟨rfl, .nil h, .nil⟩
  | succ fuel ih =>
      apply Sat.ite
      · intro hnil
        obtain rfl : src = [] := List.length_eq_zero_iff.mp hnil
        exact Sat.pure ⟨rfl, .nil h, .nil⟩
      intro hcons
      have hlt : off % BSIZE < BSIZE := Nat.mod_lt _ (by decide)
      dsimp only
      generalize hm : min src.length (BSIZE - off % BSIZE) = m
      have htake : (src.take m).length = m := by
        rw [List.length_take]
        omega
      have hdrop : (src.drop m).length = src.length - m := List.length_drop
      apply writeRound_bind (g := fun _ => writeLoop ip fuel (off + m)
        (src.drop m)) h hsize (by omega) (by omega) (by omega)
      intro t ht hlogs
      refine (ih (ht.grown.ready h) (ht.grown.sb ▸ hsize) (by omega)
        (by omega)).imp ?_
      rintro o u ⟨rfl, hu, hrest⟩
      rw [hdrop] at hrest
      rw [← htake] at hu hrest
      have hall := ht.append hu
      rw [htake, List.take_append_drop] at hall
      refine ⟨by omega, hall, ?_⟩
      exact LogsWrite.cons h ht (by omega) (by omega) hlogs hu
        (htake.trans hm.symm) hrest

/-! ### How many blocks -/

/-- The number of blocks that a write of `n` bytes at offset `off` passes to
`log_write`, for a file of `size` bytes with the blocks `g`: those for the
bytes, the bitmap block and the indirect block if one of them is new, and the
block of the inode if the file grows. -/
def writeCost (g : ℕ → ℕ) (size off n : ℕ) : ℕ :=
  (touched off n).card +
    (if ∃ bn ∈ touched off n, g (dataSlot bn) = 0 then 1 else 0) +
    (if ∃ bn ∈ touched off n, NDIRECT ≤ bn ∧ g (dataSlot bn) = 0 then 1
      else 0) +
    if size < off + n then 1 else 0

/-- The slots whose blocks are written: those for the bytes, and the one of the
indirect block if it gets an entry. -/
def writtenSlots (g : ℕ → ℕ) (off n : ℕ) : Finset ℕ :=
  (touched off n).image dataSlot ∪
    if ∃ bn ∈ touched off n, NDIRECT ≤ bn ∧ g (dataSlot bn) = 0 then {NDIRECT}
    else ∅

theorem card_writtenSlots (g : ℕ → ℕ) (off n : ℕ) :
    (writtenSlots g off n).card = (touched off n).card +
      if ∃ bn ∈ touched off n, NDIRECT ≤ bn ∧ g (dataSlot bn) = 0 then 1
      else 0 := by
  have hinj : Function.Injective dataSlot := fun _ _ => dataSlot_injective
  rw [writtenSlots, Finset.card_union_of_disjoint,
    Finset.card_image_of_injective _ hinj]
  · split <;> rfl
  · rw [Finset.disjoint_left]
    intro j hj hmem
    obtain ⟨bn, -, rfl⟩ := Finset.mem_image.mp hj
    split at hmem
    · exact dataSlot_ne_indirect bn (Finset.mem_singleton.mp hmem)
    · exact absurd hmem (Finset.notMem_empty _)

theorem mem_writtenSlots {g : ℕ → ℕ} {j : ℕ} :
    j ∈ writtenSlots g off n ↔ ∃ bn ∈ touched off n,
      j = dataSlot bn ∨ g (dataSlot bn) = 0 ∧ j ∈ bmapSlots bn := by
  rw [writtenSlots, Finset.mem_union, Finset.mem_image]
  constructor
  · rintro (⟨bn, hbn, rfl⟩ | hj)
    · exact ⟨bn, hbn, .inl rfl⟩
    · split at hj
      · next hnew =>
          obtain ⟨bn, hbn, hge, hnone⟩ := hnew
          rw [Finset.mem_singleton.mp hj]
          refine ⟨bn, hbn, .inr ⟨hnone, ?_⟩⟩
          rw [bmapSlots, if_neg (not_lt.mpr hge)]
          exact Finset.mem_insert_self ..
      · exact absurd hj (Finset.notMem_empty _)
  · rintro ⟨bn, hbn, rfl | ⟨hnone, hj⟩⟩
    · exact .inl ⟨bn, hbn, rfl⟩
    · unfold bmapSlots at hj
      split at hj
      · exact .inl ⟨bn, hbn, (Finset.mem_singleton.mp hj).symm⟩
      next hge =>
      rcases Finset.mem_insert.mp hj with rfl | hj
      · right
        rw [if_pos ⟨bn, hbn, not_lt.mp hge, hnone⟩]
        exact Finset.mem_singleton_self _
      · exact .inl ⟨bn, hbn, (Finset.mem_singleton.mp hj).symm⟩

/-- The blocks of a write, as a set. -/
theorem exists_logsBlock {sb : Superblock} {g g' : ℕ → ℕ} {w : ℕ} :
    (∃ bn ∈ touched off n, LogsBlock sb g g' bn w) ↔
      w ∈ (writtenSlots g off n).image g' ∨
        (∃ bn ∈ touched off n, g (dataSlot bn) = 0) ∧ w = sb.bmapstart := by
  simp only [LogsBlock, Finset.mem_image, mem_writtenSlots]
  constructor
  · rintro ⟨bn, hbn, rfl | ⟨hnone, rfl | ⟨j, hj, rfl⟩⟩⟩
    · exact .inl ⟨_, ⟨bn, hbn, .inl rfl⟩, rfl⟩
    · exact .inr ⟨⟨bn, hbn, hnone⟩, rfl⟩
    · exact .inl ⟨j, ⟨bn, hbn, .inr ⟨hnone, hj⟩⟩, rfl⟩
  · rintro (⟨j, ⟨bn, hbn, rfl | ⟨hnone, hj⟩⟩, rfl⟩ | ⟨⟨bn, hbn, hnone⟩, rfl⟩)
    · exact ⟨bn, hbn, .inl rfl⟩
    · exact ⟨bn, hbn, .inr ⟨hnone, .inr ⟨j, hj, rfl⟩⟩⟩
    · exact ⟨bn, hbn, .inr ⟨hnone, .inl rfl⟩⟩

/-- Every slot that is written has a block, which is not a block of
metadata. -/
theorem Wrote.written (h : Ready V i ip s) (hw : Wrote V i ip off src s t)
    (hmax : off + src.length ≤ MAXFILE * BSIZE) {j : ℕ}
    (hj : j ∈ writtenSlots (listing s.sb s.disk V i) off src.length) :
    j < NSLOT ∧ listing s.sb t.disk (Grown.table V i ip t) i j ≠ 0 := by
  obtain ⟨bn, hbn, hj⟩ := mem_writtenSlots.mp hj
  obtain ⟨l, hl, rfl⟩ := mem_touched.mp hbn
  have hlt : (off + l) / BSIZE < MAXFILE := by
    rw [Nat.div_lt_iff_lt_mul (by decide)]
    omega
  have hslot := dataSlot_lt hlt
  have hthere := hw.there (off + l) (by omega) (by omega)
  have hmem : j ∈ bmapSlots ((off + l) / BSIZE) := by
    rcases hj with rfl | ⟨-, hj⟩
    · exact dataSlot_mem_bmapSlots.mpr rfl
    · exact hj
  have hready := hw.grown.ready h
  rw [← hw.grown.sb] at hthere ⊢
  refine ⟨?_, hready.bmapSlots_ne_zero hthere hmem⟩
  unfold bmapSlots at hmem
  split at hmem
  · rwa [Finset.mem_singleton.mp hmem]
  · rcases Finset.mem_insert.mp hmem with rfl | hmem
    · decide
    · rwa [Finset.mem_singleton.mp hmem]

/-- The number of blocks, apart from the one of the inode. -/
theorem Wrote.card_logs (h : Ready V i ip s) (hw : Wrote V i ip off src s t)
    (hmax : off + src.length ≤ MAXFILE * BSIZE)
    (hlogs : LogsWrite V i ip off src.length s t) (hnone : s.logs = ∅) :
    IBLOCK i s.sb ∉ t.logs ∧
      t.logs.card = (touched off src.length).card +
        (if ∃ bn ∈ touched off src.length,
          listing s.sb s.disk V i (dataSlot bn) = 0 then 1 else 0) +
        if ∃ bn ∈ touched off src.length, NDIRECT ≤ bn ∧
          listing s.sb s.disk V i (dataSlot bn) = 0 then 1 else 0 := by
  have howned := hw.grown.volume.owned
  have hblock : ∀ j ∈ writtenSlots (listing s.sb s.disk V i) off src.length,
      nmeta s.sb ≤ listing s.sb t.disk (Grown.table V i ip t) i j ∧
        s.sb.bmapstart ≠ listing s.sb t.disk (Grown.table V i ip t) i j := by
    intro j hj
    obtain ⟨hslot, hne⟩ := hw.written h hmax hj
    have hle := howned.nmeta_le hslot hne
    have hlt := howned.layout.bblock_lt (howned.lt_size hslot hne)
    have hbm := lt_of_le_of_lt Layout.bmapstart_le (lt_of_lt_of_le hlt hle)
    exact ⟨hle, hbm.ne⟩
  have hset : t.logs = (writtenSlots (listing s.sb s.disk V i) off
        src.length).image (listing s.sb t.disk (Grown.table V i ip t) i) ∪
      if ∃ bn ∈ touched off src.length,
        listing s.sb s.disk V i (dataSlot bn) = 0 then {s.sb.bmapstart}
      else ∅ := by
    ext w
    rw [hlogs w, exists_logsBlock, hnone, Finset.mem_union]
    split
    · next hnew => simp [hnew]
    · next hold => simp [hold]
  rw [hset]
  constructor
  · rw [Finset.mem_union, not_or]
    constructor
    · intro hmem
      obtain ⟨j, hj, heq⟩ := Finset.mem_image.mp hmem
      have := howned.layout.iblock_lt_nmeta h.lt
      have := (hblock j hj).1
      omega
    · split
      · rw [Finset.mem_singleton]
        exact (howned.layout.iblock_lt h.lt).ne
      · exact Finset.notMem_empty _
  · rw [Finset.card_union_of_disjoint, Finset.card_image_of_injOn,
      card_writtenSlots]
    · rw [Nat.add_right_comm]
      congr 2
      split <;> rfl
    · intro j hj j' hj' heq
      obtain ⟨hslot, hne⟩ := hw.written h hmax hj
      obtain ⟨hslot', -⟩ := hw.written h hmax hj'
      exact (howned.separate.inj i j i j' hslot hslot' hne heq).2
    · rw [Finset.disjoint_left]
      intro w hw hmem
      obtain ⟨j, hj, rfl⟩ := Finset.mem_image.mp hw
      split at hmem
      · exact (hblock j hj).2 (Finset.mem_singleton.mp hmem).symm
      · exact absurd hmem (Finset.notMem_empty _)

/-- How many blocks `writei` passes to `log_write`. -/
theorem writei_logs (h : Ready V i ip s) (hdev : (V i).type ≠ T_DEV)
    (hsize : s.sb.size ≤ BPB) (hnone : s.logs = ∅) :
    Sat (writei ip src off) s (fun _ t => t.logs.card =
      if Refused (V i).size.toNat off src.length then 0
      else writeCost (listing s.sb s.disk V i) (V i).size.toNat off
        src.length) fun _ => True := by
  apply getDin_bind
  rw [h.newest, if_neg hdev]
  apply Sat.ite
  · intro hout
    refine Sat.pure ?_
    rw [hnone, if_pos (show Refused _ _ _ from hout.imp_right .inl)]
    rfl
  intro hin
  apply Sat.ite
  · intro hout
    refine Sat.pure ?_
    rw [hnone, if_pos (show Refused _ _ _ from .inr (.inr hout))]
    rfl
  intro hmax
  rw [not_or] at hin
  have hacc : ¬Refused (V i).size.toNat off src.length := by
    rintro (hc | hc | hc)
    · exact hin.1 hc
    · exact hin.2 hc
    · exact hmax hc
  simp only [if_neg hacc]
  refine (writeLoop_logs h hsize (by omega) (le_refl _)).andThen ?_
  rintro o t ⟨rfl, hw, hlogs⟩
  have hcard := hw.card_logs h (by omega) hlogs hnone
  have hdin : (t.icache ip).din.size = (V i).size := by
    rw [hw.grown.volume.fields]
  apply getDin_bind
  rw [hdin]
  apply Sat.ite
  · rintro ⟨-, hgrow⟩
    apply setDin_bind
    refine (iupdate_logs ip).andThen fun _ u hu => Sat.pure ?_
    have hinum := (hw.grown.ready h).inum
    rw [State.setDin, State.icache_setInode_self] at hu
    change u.logs = insert (IBLOCK (t.icache ip).inum t.sb) t.logs at hu
    rw [hinum, hw.grown.sb] at hu
    rw [hu, Finset.card_insert_of_notMem hcard.1, hcard.2, writeCost,
      if_pos hgrow]
  · intro hkeep
    have hfits : ¬(V i).size.toNat < off + src.length := by omega
    refine Sat.pure ?_
    rw [hcard.2, writeCost, if_neg hfits, Nat.add_zero]

end Loop

end ZtlOs.Kernel
