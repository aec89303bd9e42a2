import ZtlOs.Kernel.Allocation

/-!
# Writing

`writei` lays the bytes over the content of an inode, block by block, and
allocates the blocks that are not there yet.  What other inodes list and hold
stays as it is.
-/

namespace ZtlOs.Kernel

open ZtlOs.Support ZtlOs.Support.Program ZtlOs.Support.Sequence ZtlOs.Fs

variable {P : Type} {s t u : State P} {E : Stop → Prop}

/-! ## Bytes of an inode -/

/-- A byte of the content of an inode. -/
def contentByte (sb : Superblock) (disk : ℕ → Block) (V : Table) (i k : ℕ) :
    BitVec 8 :=
  (live sb V i).byteAt disk k

section Bytes

variable {sb : Superblock} {disk disk' : ℕ → Block} {V V' : Table}
variable {i j k bn b : ℕ} {d' : Dinode} {R : Finset ℕ} {W : Prop}

theorem contentByte_eq : contentByte sb disk V i k =
    (disk (listing sb disk V i (dataSlot (k / BSIZE)))).byte (k % BSIZE) :=
  rfl

/-- A byte stays where its block and the number of its block do. -/
theorem contentByte_congr
    (hlist : listing sb disk' V' i (dataSlot (k / BSIZE)) =
      listing sb disk V i (dataSlot (k / BSIZE)))
    (hdisk : disk' (listing sb disk V i (dataSlot (k / BSIZE))) =
      disk (listing sb disk V i (dataSlot (k / BSIZE)))) :
    contentByte sb disk' V' i k = contentByte sb disk V i k := by
  rw [contentByte_eq, contentByte_eq, hlist, hdisk]

theorem listing_beyond (hbn : MAXFILE ≤ bn) :
    listing sb disk V i (dataSlot bn) = 0 := by
  by_contra hne
  have := block_ne_zero (d := live sb V i) hne
  omega

/-- The bytes of other inodes, and those of `i` unless they were written. -/
theorem Extends.contentByte_eq (h : Extends sb i R W disk V disk' d')
    (hne : listing sb disk V j (dataSlot (k / BSIZE)) ≠ 0)
    (hW : j = i → ¬W) :
    contentByte sb disk' (Function.update V i d') j k =
      contentByte sb disk V j k := by
  have hlt : k / BSIZE < MAXFILE := by
    by_contra hge
    exact hne (listing_beyond (by omega))
  apply contentByte_congr
  · by_cases hj : j = i
    · subst hj
      exact h.kept _ hne
    · exact h.others j hj _
  · exact h.contents j _ (dataSlot_lt hlt) (dataSlot_ne_indirect _) hne hW

/-- The bytes of another inode, blocks or not. -/
theorem Extends.contentByte_other (h : Extends sb i R W disk V disk' d')
    (hj : j ≠ i) : contentByte sb disk' (Function.update V i d') j k =
      contentByte sb disk V j k := by
  by_cases hne : listing sb disk V j (dataSlot (k / BSIZE)) = 0
  · apply contentByte_congr (h.others j hj _)
    rw [hne]
    exact h.metadata 0 (lt_trans Nat.one_pos h.owned.layout.one_lt_bmapstart)
  · exact h.contentByte_eq hne fun heq => absurd heq hj

/-- A block of the content lists no blocks. -/
theorem Sound.ne_indirect (h : Owned sb disk V) (hbn : bn < MAXFILE)
    (hb : listing sb disk V i (dataSlot bn) = b) (hne : b ≠ 0) (j : ℕ) :
    listing sb disk V j NDIRECT ≠ b := by
  subst hb
  exact h.separate.ne_indirect hbn hne j

/-- A block of the content of `i` has been written. -/
theorem Extends.write (h : Owned sb disk V) (hbn : bn < MAXFILE)
    (hb : listing sb disk V i (dataSlot bn) = b) (hne : b ≠ 0) (x : Block) :
    Extends sb i R True disk V (Function.update disk b x) (V i) := by
  subst hb
  have hk := dataSlot_lt hbn
  have hle := h.nmeta_le hk hne
  have hlist : listing sb (Function.update disk
        (listing sb disk V i (dataSlot bn)) x) V = listing sb disk V :=
    Sound.listing_update_data (h.separate.ne_indirect hbn hne) x
  have hlow : ∀ w < nmeta sb, Function.update disk
      (listing sb disk V i (dataSlot bn)) x w = disk w := by
    intro w hw
    exact Function.update_of_ne (by omega) ..
  have hbits : ∀ b < sb.size, bmapBit sb (Function.update disk
      (listing sb disk V i (dataSlot bn)) x) b = bmapBit sb disk b :=
    fun b hb => Sound.bmapBit_update_data h.layout hle hb x
  constructor
  · rw [Function.update_eq_self]
    exact h.congr hlist (hlow 1 h.layout.one_lt_nmeta) hbits
      fun _ _ _ _ => ⟨rfl, le_refl _⟩
  · rfl
  · intro k _
    rw [Function.update_eq_self, hlist]
  · intro k _
    rw [Function.update_eq_self, hlist]
  · intro j _ k
    rw [Function.update_eq_self, hlist]
  · intro j k hk' _ hne' hj
    apply Function.update_of_ne
    intro heq
    exact hj (h.separate.inj j k i _ hk' hk hne' heq).1 trivial
  · intro w hw
    have := h.layout.bmapstart_le_nmeta
    exact hlow w (by omega)
  · rw [Function.update_eq_self, hlist, freeBlocks_congr hbits]

/-- The bytes after a block of the content of `i` has been written. -/
theorem contentByte_put (h : Owned sb disk V) {off : ℕ} {xs : Bytes}
    (hxs : off % BSIZE + xs.length ≤ BSIZE)
    (hb : listing sb disk V i (dataSlot (off / BSIZE)) = b) (hne : b ≠ 0) :
    contentByte sb (Function.update disk b
      ((disk b).put (off % BSIZE) xs)) V i =
      overlay (contentByte sb disk V i) off xs := by
  have hbn : off / BSIZE < MAXFILE := by
    by_contra hge
    exact hne (hb ▸ listing_beyond (by omega))
  have hlist := Sound.listing_update_data (h.ne_indirect hbn hb hne)
    ((disk b).put (off % BSIZE) xs)
  have hput : contentOf (Function.update
      (fun bn => disk (listing sb disk V i (dataSlot bn))) (off / BSIZE) _) =
      _ := contentOf_put hxs
  rw [hb] at hput
  refine Eq.trans ?_ hput
  funext k
  rw [contentByte_eq, hlist, contentOf]
  congr 1
  by_cases hk : k / BSIZE = off / BSIZE
  · rw [hk, hb, Function.update_self, Function.update_self]
  · rw [Function.update_of_ne hk, Function.update_of_ne]
    intro heq
    by_cases hlt : k / BSIZE < MAXFILE
    · have := (h.separate.inj i _ i _ (dataSlot_lt hlt) (dataSlot_lt hbn)
        (by rwa [heq]) (heq.trans hb.symm)).2
      exact hk (dataSlot_injective this)
    · exact hne (heq.symm.trans (listing_beyond (by omega)))

end Bytes

/-! ## The loop of writei -/

/-- The slots that the blocks for `n` bytes from offset `off` on need. -/
def rangeSlots (off n : ℕ) : Finset ℕ :=
  (Finset.range n).biUnion fun j => bmapSlots ((off + j) / BSIZE)

theorem bmapSlots_subset {off n k : ℕ} (h : off ≤ k) (h' : k < off + n) :
    bmapSlots (k / BSIZE) ⊆ rangeSlots off n := by
  obtain ⟨j, rfl⟩ := Nat.exists_eq_add_of_le h
  exact Finset.subset_biUnion_of_mem
    (fun j => bmapSlots ((off + j) / BSIZE)) (Finset.mem_range.mpr (by omega))

theorem rangeSlots_subset {off n off' n' : ℕ} (h : off ≤ off')
    (h' : off' + n' ≤ off + n) : rangeSlots off' n' ⊆ rangeSlots off n := by
  apply Finset.biUnion_subset.mpr
  intro j hj
  have := Finset.mem_range.mp hj
  exact bmapSlots_subset (by omega) (by omega)

/-- From `s` to `t`, the bytes `xs` have been written to inode `i` at offset
`off`. -/
structure Wrote (V : Table) (i : ℕ) (ip : Slot) (off : ℕ) (xs : Bytes)
    (s t : State P) : Prop where
  grown : Grown V i ip (rangeSlots off xs.length) True s t
  bytes : ∀ k, listing s.sb s.disk V i (dataSlot (k / BSIZE)) ≠ 0 ∨
      (off ≤ k ∧ k < off + xs.length) →
    contentByte s.sb t.disk (Grown.table V i ip t) i k =
      overlay (contentByte s.sb s.disk V i) off xs k
  there : ∀ k, off ≤ k → k < off + xs.length →
    listing s.sb t.disk (Grown.table V i ip t) i (dataSlot (k / BSIZE)) ≠ 0

namespace Wrote

variable {V : Table} {i off : ℕ} {ip : Slot} {xs ys : Bytes}

theorem nil (h : Ready V i ip s) : Wrote V i ip off [] s s where
  grown := .refl h
  bytes := by
    intro k _
    rw [Grown.table_eq h rfl, overlay_nil]
  there := by
    intro k hk hk'
    rw [List.length_nil] at hk'
    omega

/-- One range after the other. -/
theorem append (h : Wrote V i ip off xs s t)
    (h' : Wrote (Grown.table V i ip t) i ip (off + xs.length) ys t u) :
    Wrote V i ip off (xs ++ ys) s u := by
  have hlen : (xs ++ ys).length = xs.length + ys.length :=
    List.length_append ..
  have hbytes := h'.bytes
  have hthere := h'.there
  rw [h.grown.sb, Grown.table, Grown.table, Function.update_idem] at hbytes
  rw [h.grown.sb, Grown.table, Grown.table, Function.update_idem] at hthere
  have hgrown : Grown V i ip (rangeSlots off (xs ++ ys).length) True s u := by
    refine (h.grown.mono ?_ id).trans (h'.grown.mono ?_ id)
    · exact rangeSlots_subset (le_refl _) (by omega)
    · exact rangeSlots_subset (by omega) (by omega)
  -- What has a block after the first step.
  have hmid : ∀ k, listing s.sb s.disk V i (dataSlot (k / BSIZE)) ≠ 0 ∨
      (off ≤ k ∧ k < off + xs.length) →
      listing s.sb t.disk (Grown.table V i ip t) i (dataSlot (k / BSIZE)) ≠
        0 := by
    rintro k (hne | ⟨hk, hk'⟩)
    · rw [h.grown.volume.kept _ hne]
      exact hne
    · exact h.there k hk hk'
  constructor
  · exact hgrown
  · intro k hk
    rw [hlen] at hk
    by_cases hmem : off + xs.length ≤ k ∧ k < off + xs.length + ys.length
    · rw [hbytes k (.inr hmem), ← overlay_append]
      apply overlay_congr
      intro hout
      omega
    · have hfirst : listing s.sb s.disk V i (dataSlot (k / BSIZE)) ≠ 0 ∨
          (off ≤ k ∧ k < off + xs.length) := by
        rcases hk with hne | hk
        · exact .inl hne
        · exact .inr (by omega)
      rw [hbytes k (.inl (hmid k hfirst)), ← overlay_append]
      apply overlay_congr
      intro _
      exact h.bytes k hfirst
  · intro k hk hk'
    rw [hlen] at hk'
    by_cases hlt : k < off + xs.length
    · have hne := hmid k (.inr ⟨hk, hlt⟩)
      have hkept := h'.grown.volume.kept (dataSlot (k / BSIZE))
      rw [h.grown.sb, Grown.table, Function.update_idem] at hkept
      rw [hkept hne]
      exact hne
    · exact hthere k (by omega) (by omega)

/-- One round of the loop: `bmap` leads to block `b`, and the bytes are copied
into it. -/
theorem round {b : ℕ} (hs : Ready V i ip s)
    (h : Maps V i ip (dataSlot (off / BSIZE)) (bmapSlots (off / BSIZE)) s b t)
    (hpos : 0 < xs.length) (hfit : off % BSIZE + xs.length ≤ BSIZE)
    (hu : u = { t.setDisk b ((t.disk b).put (off % BSIZE) xs) with
      trace := u.trace }) :
    Wrote V i ip off xs s u := by
  have hready := h.grown.ready hs
  have hbn : off / BSIZE < MAXFILE := by
    by_contra hge
    exact h.pos (h.slot ▸ listing_beyond (by omega))
  have hslot := h.slot
  rw [← h.grown.sb] at hslot
  have hsecond : Grown (Grown.table V i ip t) i ip
      (bmapSlots (off / BSIZE)) True t u := by
    refine .of_disk hready ?_ ?_
    · rw [hu]
      rfl
    · rw [hu]
      exact .write hready.owned hbn hslot h.pos _
  have hgrown := (h.grown.mono (le_refl _) False.elim).trans hsecond
  have htable : Grown.table V i ip u = Grown.table V i ip t := by
    rw [Grown.table, Grown.table, hu]
    rfl
  have hdisk : u.disk = Function.update t.disk b
      ((t.disk b).put (off % BSIZE) xs) := by
    rw [hu]
    rfl
  have hput := contentByte_put hready.owned hfit hslot h.pos
  rw [h.grown.sb] at hput
  constructor
  · exact hgrown.mono (bmapSlots_subset (le_refl _) (by omega)) id
  · intro k hk
    rw [htable, hdisk, hput]
    apply overlay_congr
    intro hout
    rcases hk with hne | hk
    · exact h.grown.volume.contentByte_eq hne fun _ hf => hf
    · omega
  · intro k hk hk'
    have hdiv : k / BSIZE = off / BSIZE := by
      simp only [BSIZE] at hfit ⊢
      omega
    have hkept := hsecond.volume.kept (dataSlot (off / BSIZE)) (by
      rw [hslot]
      exact h.pos)
    rw [hslot, h.grown.sb, Grown.table, Function.update_idem] at hkept
    rw [hdiv, Grown.table, hkept]
    exact h.pos

end Wrote

/-- A block is read and written. -/
theorem rewrite_bind {α : Type} {Q : α → State P → Prop} {b : ℕ}
    {f : Block → Block} {g : Unit → M P α} (hb : b ∉ s.bufs)
    (h : ∀ t : State P, t = { s.setDisk b (f (s.disk b)) with
      trace := t.trace } → Sat (g ()) t Q E) :
    Sat (do
      let bp ← bread b
      logWrite b (f bp)
      brelse b
      g ()) s Q E := by
  apply bread_bind fun hmem => absurd hmem hb
  apply logWrite_bind
  apply brelse_bind
  apply h
  simp only [State.emit, State.setDisk, List.erase_cons_head]

section Loop

variable {V : Table} {i : ℕ} {ip : Slot}

theorem writeLoop_sat {fuel off : ℕ} {src : Bytes} (h : Ready V i ip s)
    (hmax : off + src.length ≤ MAXFILE * BSIZE) (hfuel : src.length ≤ fuel)
    (hE : freeBlocks s.sb s.disk <
        missing (listing s.sb s.disk V) i (rangeSlots off src.length) →
      E (.panic "balloc: out of blocks")) :
    Sat (writeLoop ip fuel off src) s (fun o t =>
      o = off + src.length ∧ Wrote V i ip off src s t) E := by
  induction fuel generalizing s V off src with
  | zero =>
      obtain rfl : src = [] := List.length_eq_zero_iff.mp (by omega)
      exact Sat.pure ⟨rfl, .nil h⟩
  | succ fuel ih =>
      apply Sat.ite
      · intro hnil
        obtain rfl : src = [] := List.length_eq_zero_iff.mp hnil
        exact Sat.pure ⟨rfl, .nil h⟩
      · intro hcons
        have hlt : off % BSIZE < BSIZE := Nat.mod_lt _ (by decide)
        have hbn : off / BSIZE < MAXFILE := by
          rw [Nat.div_lt_iff_lt_mul (by decide)]
          omega
        have hfirst := bmapSlots_subset (le_refl off)
          (show off < off + src.length by omega)
        refine (bmap_sat h hbn fun hlt => hE ?_).andThen ?_
        · exact lt_of_lt_of_le hlt (missing_mono hfirst _)
        · intro b t ht
          obtain ⟨m, hm⟩ : ∃ m, min src.length (BSIZE - off % BSIZE) = m :=
            ⟨_, rfl⟩
          refine rewrite_bind (f := fun bp => bp.put (off % BSIZE) (src.take
            (min src.length (BSIZE - off % BSIZE))))
            (g := fun _ => writeLoop ip fuel
              (off + min src.length (BSIZE - off % BSIZE))
              (src.drop (min src.length (BSIZE - off % BSIZE))))
            ?_ fun u hu => ?_
          · rw [ht.grown.bufs, h.bufs]
            exact List.not_mem_nil
          · rw [hm] at hu ⊢
            have htake : (src.take m).length = m := by
              rw [List.length_take]
              omega
            have hdrop : (src.drop m).length = src.length - m :=
              List.length_drop
            have hround : Wrote V i ip off (src.take m) s u :=
              .round h ht (by omega) (by omega) hu
            refine (ih (hround.grown.ready h) (by omega) (by omega) ?_).imp ?_
            · intro hlt
              refine hE ((hround.grown.mono ?_ id).exhausts ?_ hlt)
              · exact rangeSlots_subset (le_refl _) (by omega)
              · exact rangeSlots_subset (by omega) (by omega)
            · rintro o v ⟨rfl, hv⟩
              refine ⟨by omega, ?_⟩
              have hall := hround.append (by rwa [htake])
              rwa [List.take_append_drop] at hall

end Loop

/-! ## Storing the inode -/

section Store

variable {sb : Superblock} {disk : ℕ → Block} {V : Table} {i : ℕ}

theorem listing_resize (disk : ℕ → Block) (hi : i < sb.ninodes) (ht : (V i).type ≠ 0)
    (size : BitVec 32) :
    listing sb disk (Function.update V i { V i with size := size }) =
      listing sb disk V := by
  funext j k
  by_cases hj : j = i
  · subst hj
    rw [listing_eq disk hi (by rwa [Function.update_self]),
      listing_eq disk hi ht, Function.update_self]
    exact Dinode.slot_addrs rfl
  · rw [listing, listing, slots, slots, live, live, Function.update_of_ne hj]

/-- The size of an inode may grow as far as its blocks reach. -/
theorem Sound.resize (h : Owned sb disk V) (hi : i < sb.ninodes)
    (ht : (V i).type ≠ 0) {size : BitVec 32}
    (hmap : ∀ bn < blocksOf size.toNat,
      listing sb disk V i (dataSlot bn) ≠ 0) :
    Owned sb disk (Function.update V i { V i with size := size }) := by
  have hlist := listing_resize disk hi ht size
  constructor
  · exact h.layout
  · exact h.superblock
  · rw [hlist]
    exact h.separate
  · rw [hlist]
    exact h.bitmap
  · intro j hj hne hdev bn hbn
    rw [hlist]
    by_cases hji : j = i
    · subst hji
      rw [Function.update_self] at hbn
      exact hmap bn hbn
    · rw [Function.update_of_ne hji] at hne hdev hbn
      exact h.mapped j hj hne hdev bn hbn

/-- The disk after inode `i` has been stored. -/
def storeDisk (sb : Superblock) (disk : ℕ → Block) (i : ℕ) (d : Dinode) :
    ℕ → Block :=
  Function.update disk (IBLOCK i sb)
    ((disk (IBLOCK i sb)).setDinode (i % IPB) d)

theorem storeDisk_of_ne {w : ℕ} (hw : w ≠ IBLOCK i sb) (d : Dinode) :
    storeDisk sb disk i d w = disk w :=
  Function.update_of_ne hw ..

theorem inodeOf_storeDisk (j : ℕ) (d : Dinode) :
    inodeOf sb (storeDisk sb disk i d) j =
      if j = i then d else inodeOf sb disk j :=
  inodeOf_update

/-- An inode may be stored at any time. -/
theorem Sound.store (h : Owned sb disk V) (hi : i < sb.ninodes) (d : Dinode) :
    Owned sb (storeDisk sb disk i d) V := by
  apply h.congr
  · exact h.listing_update_meta (h.layout.iblock_lt_nmeta hi) _
  · exact storeDisk_of_ne (h.layout.one_lt_iblock).ne d
  · intro b _
    exact Sound.bmapBit_update_of_ne (h.layout.iblock_ne_bblock hi) _
  · exact fun _ _ _ _ => ⟨rfl, le_refl _⟩

end Store

/-- `iupdate` writes the inode block and nothing else. -/
theorem iupdate_sat {ip : Slot} (hE : s.bufs ≠ [] → E .sleep) :
    Sat (iupdate ip) s (fun _ t => ∃ tr,
      t = { s with
        disk := storeDisk s.sb s.disk (s.icache ip).inum (s.icache ip).din
        trace := tr }) E := by
  refine .bind (Sat.get ?_)
  apply bread_bind fun hmem => hE (List.ne_nil_of_mem hmem)
  apply logWrite_bind
  refine Sat.modify ⟨.brelse (IBLOCK (s.icache ip).inum s.sb) ::
    .logWrite (IBLOCK (s.icache ip).inum s.sb) ::
    .bread (IBLOCK (s.icache ip).inum s.sb) :: s.trace, ?_⟩
  simp only [State.emit, State.setDisk, List.erase_cons_head, storeDisk]

/-! ## writei -/

/-- The requests that `writei` refuses, for a file of `size` bytes. -/
def Refused (size off n : ℕ) : Prop :=
  size < off ∨ 2 ^ 32 ≤ off + n ∨ MAXFILE * BSIZE < off + n

instance (size off n : ℕ) : Decidable (Refused size off n) :=
  inferInstanceAs (Decidable (_ ∨ _ ∨ _))

/-- From `s` to `t`, the bytes `src` have been laid over the content of inode
`i` at offset `off`, and nothing else has changed. -/
structure Overlaid (V : Table) (i : ℕ) (ip : Slot) (off : ℕ) (src : Bytes)
    (s t : State P) : Prop where
  state : t = { s.setDin ip (t.icache ip).din with
    disk := t.disk, trace := t.trace }
  owned : Owned s.sb t.disk (Grown.table V i ip t)
  fields : (t.icache ip).din = { V i with
    size := (t.icache ip).din.size, addrs := (t.icache ip).din.addrs }
  size : (t.icache ip).din.size.toNat =
    max (V i).size.toNat (off + src.length)
  bytes : ∀ k < max (V i).size.toNat (off + src.length),
    contentByte s.sb t.disk (Grown.table V i ip t) i k =
      overlay (contentByte s.sb s.disk V i) off src k
  kept : ∀ k, listing s.sb s.disk V i k ≠ 0 →
    listing s.sb t.disk (Grown.table V i ip t) i k = listing s.sb s.disk V i k
  lists : ∀ j ≠ i, ∀ k, listing s.sb t.disk (Grown.table V i ip t) j k =
    listing s.sb s.disk V j k
  contents : ∀ j ≠ i, ∀ k,
    contentByte s.sb t.disk (Grown.table V i ip t) j k =
      contentByte s.sb s.disk V j k
  inodes : ∀ j < s.sb.ninodes, j ≠ i →
    inodeOf s.sb t.disk j = inodeOf s.sb s.disk j
  stored : inodeOf s.sb s.disk i = V i →
    inodeOf s.sb t.disk i = (t.icache ip).din

section Writei

variable {V : Table} {i off : ℕ} {ip : Slot} {src : Bytes}

/-- Every byte below the size has a block. -/
theorem Ready.there (h : Ready V i ip s) (hdev : (V i).type ≠ T_DEV) {k : ℕ}
    (hk : k < (V i).size.toNat) :
    listing s.sb s.disk V i (dataSlot (k / BSIZE)) ≠ 0 :=
  h.owned.mapped i h.lt h.type hdev _ (div_lt_blocksOf hk)

/-- The loop leaves the inodes on disk alone. -/
theorem Wrote.inodeOf_eq (h : Ready V i ip s)
    (hw : Wrote V i ip off src s t) {j : ℕ} (hj : j < s.sb.ninodes) :
    inodeOf s.sb t.disk j = inodeOf s.sb s.disk j :=
  inodeOf_congr (hw.grown.volume.metadata _ (h.owned.layout.iblock_lt hj))

/-- The slots that lead to a block are in use if the block is there. -/
theorem Ready.bmapSlots_ne_zero (h : Ready V i ip s) {bn k : ℕ}
    (hdata : listing s.sb s.disk V i (dataSlot bn) ≠ 0)
    (hk : k ∈ bmapSlots bn) : listing s.sb s.disk V i k ≠ 0 := by
  unfold bmapSlots at hk
  split at hk
  · rwa [Finset.mem_singleton.mp hk]
  next hbn =>
  rcases Finset.mem_insert.mp hk with rfl | hk
  · rw [listing_eq s.disk h.lt h.type] at hdata ⊢
    intro hnone
    refine hdata ?_
    obtain ⟨m, hm⟩ : ∃ m, dataSlot bn = NDIRECT + 1 + m := by
      refine Nat.exists_eq_add_of_le ?_
      rw [dataSlot, if_neg hbn]
      omega
    rw [hm]
    exact Dinode.slot_entry_none
      (Dinode.addrs_indirectSlot_eq_zero.mpr hnone) m
  · rwa [Finset.mem_singleton.mp hk]

/-- Below the size, `bmap` finds every slot in use. -/
theorem Ready.rangeSlots_ne_zero (h : Ready V i ip s)
    (hdev : (V i).type ≠ T_DEV) (hsize : off + src.length ≤ (V i).size.toNat)
    {k : ℕ} (hk : k ∈ rangeSlots off src.length) :
    listing s.sb s.disk V i k ≠ 0 := by
  obtain ⟨j, hj, hmem⟩ := Finset.mem_biUnion.mp hk
  have hj := Finset.mem_range.mp hj
  exact h.bmapSlots_ne_zero (h.there hdev (k := off + j) (by omega)) hmem

/-- Below the size, the inode stays as it is. -/
theorem Wrote.din_eq (h : Ready V i ip s) (hdev : (V i).type ≠ T_DEV)
    (hw : Wrote V i ip off src s t)
    (hsize : off + src.length ≤ (V i).size.toNat) :
    (t.icache ip).din = V i := by
  have hlist : ∀ k, listing s.sb t.disk (Grown.table V i ip t) i k =
      listing s.sb s.disk V i k := by
    intro k
    by_cases hk : k ∈ rangeSlots off src.length
    · exact hw.grown.volume.kept k (h.rangeSlots_ne_zero hdev hsize hk)
    · exact hw.grown.volume.only k hk
  have hready := hw.grown.ready h
  have haddrs : (t.icache ip).din.addrs = (V i).addrs := by
    funext k
    have hslot := hlist k.val
    rw [← hw.grown.sb, listing_eq t.disk hready.lt hready.type,
      hw.grown.sb, listing_eq s.disk h.lt h.type, Dinode.slot_direct k.isLt,
      Dinode.slot_direct k.isLt, ← hready.newest] at hslot
    exact BitVec.eq_of_toNat_eq hslot
  rw [hw.grown.volume.fields, haddrs]

/-- The size was large enough already. -/
theorem Wrote.overlaid (h : Ready V i ip s) (hdev : (V i).type ≠ T_DEV)
    (hw : Wrote V i ip off src s t)
    (hsize : off + src.length ≤ (V i).size.toNat) :
    Overlaid V i ip off src s t := by
  have hfields := hw.grown.volume.fields
  have hsz : (t.icache ip).din.size = (V i).size := by rw [hfields]
  constructor
  · exact hw.grown.state
  · exact hw.grown.volume.owned
  · rw [hsz]
    exact hfields
  · rw [hsz]
    omega
  · intro k hk
    exact hw.bytes k (.inl (h.there hdev (by omega)))
  · exact hw.grown.volume.kept
  · exact hw.grown.volume.others
  · intro j hj k
    exact hw.grown.volume.contentByte_other hj
  · intro j hj _
    exact hw.inodeOf_eq h hj
  · intro hstored
    rw [hw.inodeOf_eq h h.lt, hstored, hw.din_eq h hdev hsize]

/-- The size grows, and the inode is stored. -/
theorem Wrote.resized {d : Dinode} (h : Ready V i ip s)
    (hdev : (V i).type ≠ T_DEV) (hw : Wrote V i ip off src s t)
    (hin : off ≤ (V i).size.toNat)
    (hmax : off + src.length ≤ MAXFILE * BSIZE)
    (hsize : (V i).size.toNat ≤ off + src.length)
    (hd : d = { (t.icache ip).din with
      size := BitVec.ofNat 32 (off + src.length) })
    (hu : u = { t.setDin ip d with
      disk := storeDisk t.sb t.disk i d, trace := u.trace }) :
    Overlaid V i ip off src s u := by
  have hready := hw.grown.ready h
  have hlt : off + src.length < 2 ^ 32 :=
    lt_of_le_of_lt hmax (by decide)
  have hdin : (u.icache ip).din = d := by
    rw [hu]
    simp only [State.setDin, State.icache_setInode_self]
  have hsb := hw.grown.sb
  have hnat : d.size.toNat = off + src.length := by
    rw [hd, BitVec.toNat_ofNat]
    exact Nat.mod_eq_of_lt hlt
  have hdisk : u.disk = storeDisk s.sb t.disk i d := by
    rw [hu, ← hsb]
  have htable : Grown.table V i ip u =
      Function.update (Grown.table V i ip t) i d := by
    rw [Grown.table, Grown.table, hdin, Function.update_idem]
  have hself : d = { Grown.table V i ip t i with
      size := BitVec.ofNat 32 (off + src.length) } := by
    rw [hd, Grown.table, Function.update_self]
  have hthere : ∀ bn < blocksOf (off + src.length),
      listing s.sb t.disk (Grown.table V i ip t) i (dataSlot bn) ≠ 0 := by
    intro bn hbn
    rw [lt_blocksOf] at hbn
    have hdiv : bn * BSIZE / BSIZE = bn := Nat.mul_div_cancel _ (by decide)
    by_cases hold : bn * BSIZE < off
    · have hne := h.there hdev (lt_of_lt_of_le hold hin)
      rw [hdiv] at hne
      rw [hw.grown.volume.kept _ hne]
      exact hne
    · have hne := hw.there (bn * BSIZE) (by omega) hbn
      rwa [hdiv] at hne
  have hlist : listing s.sb u.disk (Grown.table V i ip u) =
      listing s.sb t.disk (Grown.table V i ip t) := by
    rw [htable, hself, listing_resize u.disk (hsb ▸ hready.lt) hready.type,
      hdisk]
    exact hw.grown.volume.owned.listing_update_meta
      (h.owned.layout.iblock_lt_nmeta h.lt) _
  have hkeep : ∀ j k, contentByte s.sb u.disk (Grown.table V i ip u) j k =
      contentByte s.sb t.disk (Grown.table V i ip t) j k := by
    intro j k
    apply contentByte_congr (by rw [hlist])
    rw [hdisk]
    apply storeDisk_of_ne
    have := h.owned.layout.one_lt_iblock (i := i)
    have := h.owned.layout.iblock_lt_nmeta h.lt
    by_cases hlt : k / BSIZE < MAXFILE
    · by_cases hne : listing s.sb t.disk (Grown.table V i ip t) j
          (dataSlot (k / BSIZE)) = 0
      · omega
      · have := hw.grown.volume.owned.nmeta_le (dataSlot_lt hlt) hne
        simp only [Grown.table] at this ⊢
        omega
    · rw [listing_beyond (by omega)]
      omega
  constructor
  · rw [hdin, hu, hw.grown.state]
    simp only [State.setDin, State.setInode, Function.update_self,
      Function.update_idem]
  · rw [htable, hself, hdisk]
    refine Sound.store (Sound.resize hw.grown.volume.owned h.lt ?_ ?_) h.lt _
    · exact hready.type
    · rw [BitVec.toNat_ofNat, Nat.mod_eq_of_lt hlt]
      exact hthere
  · rw [hdin, hd, hw.grown.volume.fields]
  · rw [hdin, hnat]
    omega
  · intro k hk
    rw [hkeep]
    apply hw.bytes
    by_cases hold : k < (V i).size.toNat
    · exact .inl (h.there hdev hold)
    · exact .inr (by omega)
  · intro k hne
    rw [hlist]
    exact hw.grown.volume.kept k hne
  · intro j hj k
    rw [hlist]
    exact hw.grown.volume.others j hj k
  · intro j hj k
    rw [hkeep]
    exact hw.grown.volume.contentByte_other hj
  · intro j hj hji
    rw [hdisk, inodeOf_storeDisk, if_neg hji]
    exact hw.inodeOf_eq h hj
  · intro _
    rw [hdisk, inodeOf_storeDisk, if_pos rfl, hdin]

/-- `writei` refuses a request, or lays the bytes over the content; it stops
only if the free blocks do not suffice. -/
theorem writei_sat (h : Ready V i ip s) (hdev : (V i).type ≠ T_DEV)
    (hE : ¬Refused (V i).size.toNat off src.length → freeBlocks s.sb s.disk <
        missing (listing s.sb s.disk V) i (rangeSlots off src.length) →
      E (.panic "balloc: out of blocks")) :
    Sat (writei ip src off) s (fun r t =>
      if Refused (V i).size.toNat off src.length then r = none ∧ t = s
      else r = some src.length ∧ Overlaid V i ip off src s t) E := by
  apply getDin_bind
  rw [h.newest, if_neg hdev]
  apply Sat.ite
  · intro hout
    refine Sat.pure ?_
    rw [if_pos]
    · exact ⟨rfl, rfl⟩
    · exact hout.imp_right .inl
  · intro hin
    apply Sat.ite
    · intro hout
      refine Sat.pure ?_
      rw [if_pos]
      · exact ⟨rfl, rfl⟩
      · exact .inr (.inr hout)
    · intro hmax
      rw [not_or] at hin
      have hacc : ¬Refused (V i).size.toNat off src.length := by
        rintro (hc | hc | hc)
        · exact hin.1 hc
        · exact hin.2 hc
        · exact hmax hc
      refine (writeLoop_sat h (by omega) (le_refl _) (hE hacc)).andThen ?_
      rintro o t ⟨rfl, hw⟩
      have hsize : (t.icache ip).din.size = (V i).size := by
        rw [hw.grown.volume.fields]
      simp only [if_neg hacc]
      apply getDin_bind
      rw [hsize]
      apply Sat.ite
      · rintro ⟨hpos, hgrow⟩
        apply setDin_bind
        have hinum := (hw.grown.ready h).inum
        have hbufs : (t.setDin ip { (t.icache ip).din with
            size := BitVec.ofNat 32 (off + src.length) }).bufs = [] :=
          (hw.grown.ready h).bufs
        apply (iupdate_sat fun hne => absurd hbufs hne).andThen
        rintro - _ ⟨tr, rfl⟩
        refine Sat.pure ⟨rfl, hw.resized h hdev (by omega) (by omega) (by omega)
          rfl ?_⟩
        simp only [State.setDin, State.icache_setInode_self, hinum]
        rfl
      · intro hkeep
        refine Sat.pure ⟨rfl, hw.overlaid h hdev ?_⟩
        omega

end Writei

end ZtlOs.Kernel
