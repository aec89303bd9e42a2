import ZtlOs.Kernel.Writing

/-!
# Freeing an inode

`itrunc` gives the blocks of an inode back to the bitmap and clears its
addresses.  The size counts as zero from the start, so that no block is
missed.  Only the bitmap and the inode are written.
-/

namespace ZtlOs.Kernel

open ZtlOs.Support ZtlOs.Support.Program ZtlOs.Fs

variable {P : Type} {s t : State P}

/-! ## Changes of the bitmap -/

/-- Only blocks of the bitmap have changed. -/
def BitsOnly (sb : Superblock) (disk disk' : ℕ → Block) : Prop :=
  ∀ w, (∀ b < sb.size, w ≠ BBLOCK b sb) → disk' w = disk w

section Bits

variable {sb : Superblock} {disk disk' disk₂ : ℕ → Block} {V : Table}
variable {i b : ℕ} {X : ℕ → Prop}

theorem BitsOnly.refl : BitsOnly sb disk disk :=
  fun _ _ => rfl

theorem BitsOnly.trans (h : BitsOnly sb disk disk')
    (h' : BitsOnly sb disk' disk₂) : BitsOnly sb disk disk₂ :=
  fun w hw => (h' w hw).trans (h w hw)

theorem BitsOnly.free (hb : b < sb.size) :
    BitsOnly sb disk (Sound.freeDisk sb disk b) :=
  fun _ hw => Sound.freeDisk_of_ne (hw b hb)

/-- Data blocks are as they were. -/
theorem BitsOnly.data (h : BitsOnly sb disk disk') (hl : Layout sb) {w : ℕ}
    (hw : nmeta sb ≤ w ∨ w < sb.bmapstart) : disk' w = disk w := by
  apply h
  intro b hb
  have := hl.bblock_lt hb
  have hle : sb.bmapstart ≤ BBLOCK b sb := Layout.bmapstart_le
  omega

/-- The lists are in data blocks. -/
theorem BitsOnly.listing_eq (h : BitsOnly sb disk disk')
    (hs : Sound sb disk V X) : listing sb disk' V = listing sb disk V := by
  funext i k
  apply Dinode.slot_congr
  intro hne
  exact h.data hs.layout (.inl
    (hs.nmeta_le (i := i) (k := NDIRECT) (by decide) hne))

/-- The bits that are clear stay clear when a block is freed. -/
theorem bmapBit_freeDisk (b' : ℕ) :
    bmapBit sb (Sound.freeDisk sb disk b) b' =
      (!decide (b' = b) && bmapBit sb disk b') :=
  Sound.bmapBit_clearBit b'

end Bits

/-- Free a block; its bit must be set. -/
theorem bfree_sat {b : ℕ} (hsuper : (s.disk 1).superblock = s.sb) :
    Sat (bfree b) s (fun _ t => ∃ tr,
      t = { s with disk := Sound.freeDisk s.sb s.disk b, trace := tr })
      fun _ => True := by
  apply Sat.bind
  apply bread_bind fun _ => trivial
  refine .bind (Sat.modify ?_)
  refine Sat.modify ?_
  refine .bind (Sat.get ?_)
  apply bread_bind fun _ => trivial
  apply Sat.ite
  · intro _
    exact Sat.throw trivial
  · intro _
    apply logWrite_bind
    refine Sat.modify ⟨.brelse (BBLOCK b s.sb) :: .logWrite (BBLOCK b s.sb) ::
      .bread (BBLOCK b s.sb) :: .brelse 1 :: .bread 1 :: s.trace, ?_⟩
    simp only [State.emit, State.setDisk, List.erase_cons_head, hsuper,
      Sound.freeDisk]

/-! ## The direct blocks -/

section Direct

variable {sb : Superblock} {disk : ℕ → Block} {V : Table} {i b : ℕ}

/-- A direct block is freed and its address is cleared. -/
theorem Sound.clearDirect (h : Owned sb disk V) (hi : i < sb.ninodes)
    (ht : (V i).type ≠ 0) (hsize : (V i).size = 0) {k : Fin (NDIRECT + 1)}
    (hk : k.val < NDIRECT) (hne : (V i).addrs k ≠ 0) :
    Owned sb (Sound.freeDisk sb disk ((V i).addrs k).toNat)
      (Function.update V i ((V i).setAddr k 0)) := by
  have hlive := live_of_type hi ht
  have hslot : listing sb disk V i k.val = ((V i).addrs k).toNat := by
    rw [listing_eq disk hi ht, Dinode.slot_direct k.isLt]
  have hslot0 : listing sb disk V i k.val ≠ 0 := by
    rw [hslot]
    exact fun h0 => hne (BitVec.eq_of_toNat_eq h0)
  have hkn : k.val < NSLOT := lt_trans hk (by decide)
  have hb := h.lt_size hkn hslot0
  rw [hslot] at hb
  have hlist : listing sb (Sound.freeDisk sb disk ((V i).addrs k).toNat) V =
      listing sb disk V := h.listing_freeDisk hb
  have hlist' : listing sb (Sound.freeDisk sb disk ((V i).addrs k).toNat)
      (Function.update V i ((V i).setAddr k 0)) =
      (listing sb disk V).assign i k.val 0 := by
    have hset : slots (Sound.freeDisk sb disk ((V i).addrs k).toNat)
        (Function.update (live sb V) i ((live sb V i).setAddr k 0)) = _ :=
      slots_setAddr_direct hk
    rw [hlive] at hset
    rw [listing, live_update (d := (V i).setAddr k 0) hi ht, hset]
    exact congrArg (fun f => Slots.assign f i k.val 0) hlist
  refine (h.free hb).unlist (i := i) (R := fun k' => k' = k.val) ?_ ?_ ?_ ?_
    rfl (fun _ _ => rfl) ?_ hsize
  · intro i' k'
    rw [hlist', hlist]
    by_cases hs : i' = i ∧ k' = k.val
    · exact .inr ⟨hs.1, hs.2, if_pos hs⟩
    · exact .inl (if_neg hs)
  · rintro _ rfl
    rw [hlist', Slots.assign_self]
  · rintro _ _ rfl _
    rw [hlist]
    exact .inr hslot
  · rintro b _ (hf | rfl)
    · exact hf.elim
    · refine ⟨fun h0 => hslot0 (hslot.trans h0), ?_, k.val, hkn, rfl, ?_⟩
      · rw [bmapBit_freeDisk, decide_eq_true rfl]
        rfl
      · rw [hlist]
        exact hslot
  · intro j _
    by_cases hj : j = i
    · subst hj
      rw [Function.update_self]
      exact ⟨rfl, rfl⟩
    · rw [Function.update_of_ne hj]
      exact ⟨rfl, rfl⟩

end Direct

/-- Slot `ip` holds the newest version of inode `i`, but for its size, which
counts as zero in `V`. -/
structure Truncating (V : Table) (i : ℕ) (ip : Slot) (s : State P) : Prop where
  owned : Owned s.sb s.disk V
  newest : V i = { (s.icache ip).din with size := 0 }
  lt : i < s.sb.ninodes
  type : (V i).type ≠ 0

/-- From `s` to `t`, the addresses in `K` have been cleared and their blocks
have been freed. -/
structure Cleared (V : Table) (i : ℕ) (ip : Slot)
    (K : Fin (NDIRECT + 1) → Prop) (s t : State P) : Prop where
  state : t = { s.setDin ip (t.icache ip).din with
    disk := t.disk, trace := t.trace }
  fields : (t.icache ip).din = { (s.icache ip).din with
    addrs := (t.icache ip).din.addrs }
  cleared : ∀ k, K k ∨ (s.icache ip).din.addrs k = 0 →
    (t.icache ip).din.addrs k = 0
  bits : BitsOnly s.sb s.disk t.disk
  owned : Owned s.sb t.disk
    (Function.update V i { (t.icache ip).din with size := 0 })

namespace Cleared

variable {V : Table} {i : ℕ} {ip : Slot} {K K' : Fin (NDIRECT + 1) → Prop}
variable {u : State P}

/-- The table in which the size of the inode counts as zero. -/
abbrev table (V : Table) (i : ℕ) (ip : Slot) (t : State P) : Table :=
  Function.update V i { (t.icache ip).din with size := 0 }

theorem intro (d' : Dinode) (disk' : ℕ → Block) (tr : List Event)
    (ht : t = { s.setDin ip d' with disk := disk', trace := tr })
    (hfields : d' = { (s.icache ip).din with addrs := d'.addrs })
    (hclear : ∀ k, K k ∨ (s.icache ip).din.addrs k = 0 → d'.addrs k = 0)
    (hbits : BitsOnly s.sb s.disk disk')
    (howned : Owned s.sb disk' (Function.update V i { d' with size := 0 })) :
    Cleared V i ip K s t := by
  subst ht
  have hdin : ((s.setDin ip d').icache ip).din = d' := by
    rw [State.setDin, State.icache_setInode_self]
  constructor
  · simp only [hdin]
  · simp only [hdin]
    exact hfields
  · simp only [hdin]
    exact hclear
  · exact hbits
  · simp only [hdin]
    exact howned

theorem sb (h : Cleared V i ip K s t) : t.sb = s.sb := by
  rw [h.state]
  rfl

theorem truncating (h : Cleared V i ip K s t) (hs : Truncating V i ip s) :
    Truncating (table V i ip t) i ip t where
  owned := by
    rw [h.sb]
    exact h.owned
  newest := by rw [table, Function.update_self]
  lt := by
    rw [h.sb]
    exact hs.lt
  type := by
    have htype := hs.type
    rw [hs.newest] at htype
    rw [table, Function.update_self, h.fields]
    exact htype

theorem refl (hs : Truncating V i ip s) (hK : ∀ k, ¬K k) :
    Cleared V i ip K s s where
  state := by rw [State.setDin, State.setInode, Function.update_eq_self]
  fields := rfl
  cleared := fun k hk => hk.resolve_left (hK k)
  bits := .refl
  owned := by
    rw [← hs.newest, Function.update_eq_self]
    exact hs.owned

theorem trans (h : Cleared V i ip K s t)
    (h' : Cleared (table V i ip t) i ip K' t u) :
    Cleared V i ip (fun k => K k ∨ K' k) s u where
  state := by
    rw [h'.state, h.state]
    simp only [State.setDin, State.setInode, Function.update_self,
      Function.update_idem]
  fields := by rw [h'.fields, h.fields]
  cleared := by
    rintro k ((hk | hk) | hk)
    · exact h'.cleared k (.inr (h.cleared k (.inl hk)))
    · exact h'.cleared k (.inl hk)
    · exact h'.cleared k (.inr (h.cleared k (.inr hk)))
  bits := h.bits.trans (h.sb ▸ h'.bits)
  owned := by
    have howned := h'.owned
    rw [h.sb, table, Function.update_idem] at howned
    exact howned

theorem mono (h : Cleared V i ip K s t) (hK : ∀ k, K' k → K k) :
    Cleared V i ip K' s t :=
  ⟨h.state, h.fields, fun k hk => h.cleared k (hk.imp_left (hK k)), h.bits,
    h.owned⟩

end Cleared

section Loops

variable {V : Table} {i : ℕ} {ip : Slot}

/-- One direct block. -/
theorem clearDirect_cleared {k : Fin (NDIRECT + 1)} (tr : List Event)
    (h : Truncating V i ip s) (hk : k.val < NDIRECT)
    (hne : (s.icache ip).din.addrs k ≠ 0)
    (ht : t = { s.setDin ip ((s.icache ip).din.setAddr k 0) with
      disk := Sound.freeDisk s.sb s.disk ((s.icache ip).din.addrs k).toNat
      trace := tr }) :
    Cleared V i ip (· = k) s t := by
  have hne' : (V i).addrs k ≠ 0 := by
    rw [h.newest]
    exact hne
  have hsize : (V i).size = 0 := by rw [h.newest]
  have hclear := h.owned.clearDirect h.lt h.type hsize hk hne'
  have hslot : listing s.sb s.disk V i k.val = ((V i).addrs k).toNat := by
    rw [listing_eq s.disk h.lt h.type, Dinode.slot_direct k.isLt]
  have hb := h.owned.lt_size (i := i) (lt_trans hk (by decide)) (by
    rw [hslot]
    exact fun h0 => hne' (BitVec.eq_of_toNat_eq h0))
  rw [hslot] at hb
  rw [h.newest] at hb hclear
  refine .intro _ _ _ ht rfl ?_ (.free hb) hclear
  rintro l (rfl | hl)
  · exact Dinode.addrs_setAddr_self
  · exact (if_congr Iff.rfl rfl hl).trans (ite_self _)

theorem itruncDirect_sat {ks : List (Fin (NDIRECT + 1))}
    (hks : ∀ k ∈ ks, k.val < NDIRECT) (h : Truncating V i ip s) :
    Sat (itruncDirect ip ks) s (fun _ t => Cleared V i ip (· ∈ ks) s t)
      fun _ => True := by
  induction ks generalizing s V with
  | nil => exact Sat.pure (.refl h fun _ => List.not_mem_nil)
  | cons k ks ih =>
      have hks' : ∀ l ∈ ks, l.val < NDIRECT :=
        fun l hl => hks l (List.mem_cons_of_mem k hl)
      apply getDin_bind
      apply Sat.ite
      · intro hzero
        refine (ih hks' h).imp fun _ t ht => ⟨ht.state, ht.fields, ?_, ht.bits,
          ht.owned⟩
        rintro l (hl | hl)
        · rcases List.mem_cons.mp hl with rfl | hl
          · exact ht.cleared l (.inr hzero)
          · exact ht.cleared l (.inl hl)
        · exact ht.cleared l (.inr hl)
      · intro hne
        refine (bfree_sat h.owned.superblock).andThen ?_
        rintro - _ ⟨tr, rfl⟩
        apply getDin_bind
        apply setDin_bind
        have hfirst : Cleared V i ip (· = k) s _ :=
          clearDirect_cleared tr h (hks k (List.mem_cons_self ..)) hne rfl
        refine (ih hks' (hfirst.truncating h)).imp fun _ t ht => ?_
        refine (hfirst.trans ht).mono fun l hl => ?_
        exact List.mem_cons.mp hl

/-! ## The indirect block -/

/-- Some blocks are no longer accounted for, and their bits are clear. -/
structure Freed (sb : Superblock) (disk : ℕ → Block) (V : Table)
    (X : ℕ → Prop) : Prop where
  sound : Sound sb disk V X
  clear : ∀ b, X b → bmapBit sb disk b = false

theorem Freed.free {sb : Superblock} {disk : ℕ → Block} {X : ℕ → Prop}
    {b : ℕ} (h : Freed sb disk V X) (hb : b < sb.size) :
    Freed sb (Sound.freeDisk sb disk b) V fun x => X x ∨ x = b where
  sound := h.sound.free hb
  clear := by
    rintro x (hx | rfl)
    · rw [bmapBit_freeDisk, h.clear x hx, Bool.and_false]
    · rw [bmapBit_freeDisk, decide_eq_true rfl]
      rfl

/-- The blocks of the entries `js` of the indirect block `a` are freed. -/
theorem itruncEntries_sat {a : Block} {js : List ℕ} {X : ℕ → Prop}
    (h : Freed s.sb s.disk V X)
    (hlt : ∀ j ∈ js, a.word (4 * j) ≠ 0 →
      (a.word (4 * j)).toNat < s.sb.size) :
    Sat (itruncEntries a js) s (fun _ t => ∃ disk' tr,
      t = { s with disk := disk', trace := tr } ∧
      BitsOnly s.sb s.disk disk' ∧
      Freed s.sb disk' V fun b => X b ∨
        ∃ j ∈ js, a.word (4 * j) ≠ 0 ∧ b = (a.word (4 * j)).toNat)
      fun _ => True := by
  induction js generalizing s X with
  | nil =>
      refine Sat.pure ⟨s.disk, s.trace, rfl, .refl, ?_⟩
      simpa using h
  | cons j js ih =>
      have hlt' := fun l hl => hlt l (List.mem_cons_of_mem j hl)
      apply Sat.ite
      · intro hzero
        refine (ih h hlt').imp ?_
        rintro - _ ⟨disk', tr, rfl, hbits, hfreed⟩
        refine ⟨disk', tr, rfl, hbits, ?_⟩
        simpa [hzero] using hfreed
      · intro hne
        refine (bfree_sat h.sound.superblock).andThen ?_
        rintro - _ ⟨tr, rfl⟩
        have hb := hlt j (List.mem_cons_self ..) hne
        refine (ih (s := { s with
          disk := Sound.freeDisk s.sb s.disk (a.word (4 * j)).toNat
          trace := tr }) (h.free hb) hlt').imp ?_
        rintro - _ ⟨disk', tr', rfl, hbits, hfreed⟩
        refine ⟨disk', tr', rfl, (BitsOnly.free hb).trans hbits, ?_⟩
        · have hne' : ¬a.word (4 * j) = 0#32 := hne
          simpa [hne', or_assoc] using hfreed

/-- Without its indirect block an inode lists its direct blocks only. -/
theorem slot_clearIndirect {d : Dinode} (disk : ℕ → Block) (k : ℕ) :
    (d.setAddr indirectSlot 0).slot disk k =
      if k < NDIRECT then d.slot disk k else 0 := by
  have hnone : (d.setAddr indirectSlot 0).addrs indirectSlot = 0 :=
    Dinode.addrs_setAddr_self
  by_cases hk : k < NDIRECT
  · rw [if_pos hk, Dinode.slot_direct (by omega), Dinode.slot_direct (by omega)]
    have hne : (⟨k, by omega⟩ : Fin (NDIRECT + 1)) ≠ indirectSlot := by
      intro heq
      have := congrArg Fin.val heq
      rw [indirectSlot, Fin.val_last] at this
      exact hk.ne this
    exact congrArg BitVec.toNat (if_neg hne)
  · rw [if_neg hk]
    by_cases hind : k = NDIRECT
    · rw [hind]
      exact Dinode.addrs_indirectSlot_eq_zero.mp hnone
    · obtain ⟨j, rfl⟩ : ∃ j, k = NDIRECT + 1 + j :=
        Nat.exists_eq_add_of_le (by omega)
      exact Dinode.slot_entry_none hnone j

/-- The blocks of the indirect block and its own are freed. -/
theorem Freed.clearIndirect {sb : Superblock} {disk : ℕ → Block}
    {X : ℕ → Prop} (h : Freed sb disk V X) (hi : i < sb.ninodes)
    (ht : (V i).type ≠ 0) (hsize : (V i).size = 0)
    (hX : ∀ b, X b ↔ ∃ k < NSLOT, NDIRECT ≤ k ∧ listing sb disk V i k = b ∧
      b ≠ 0) :
    Owned sb disk (Function.update V i ((V i).setAddr indirectSlot 0)) := by
  have hlist : ∀ i' k', listing sb disk
      (Function.update V i ((V i).setAddr indirectSlot 0)) i' k' =
      if i' = i ∧ NDIRECT ≤ k' then 0 else listing sb disk V i' k' := by
    intro i' k'
    rw [listing, live_update (d := (V i).setAddr indirectSlot 0) hi ht, slots]
    by_cases hi' : i' = i
    · subst hi'
      rw [Function.update_self, slot_clearIndirect, listing_eq disk hi ht]
      by_cases hk : k' < NDIRECT
      · rw [if_pos hk, if_neg (by omega)]
      · rw [if_neg hk, if_pos ⟨rfl, by omega⟩]
    · rw [Function.update_of_ne hi', if_neg fun hc => hi' hc.1]
      rfl
  refine h.sound.unlist (i := i) (R := fun k => NDIRECT ≤ k) ?_ ?_ ?_ ?_ rfl
    (fun _ _ => rfl) ?_ hsize
  · intro i' k'
    rw [hlist]
    by_cases hs : i' = i ∧ NDIRECT ≤ k'
    · exact .inr ⟨hs.1, hs.2, if_pos hs⟩
    · exact .inl (if_neg hs)
  · intro k hk
    rw [hlist, if_pos ⟨rfl, hk⟩]
  · intro k hk hR hne
    exact (hX _).mpr ⟨k, hk, hR, rfl, hne⟩
  · intro b _ hb
    obtain ⟨k, hk, hR, heq, hne⟩ := (hX b).mp hb
    exact ⟨hne, h.clear b hb, k, hk, hR, heq⟩
  · intro j _
    by_cases hj : j = i
    · subst hj
      rw [Function.update_self]
      exact ⟨rfl, rfl⟩
    · rw [Function.update_of_ne hj]
      exact ⟨rfl, rfl⟩

theorem itruncIndirect_sat (h : Truncating V i ip s) :
    Sat (itruncIndirect ip) s (fun _ t => Cleared V i ip (· = indirectSlot) s t)
      fun _ => True := by
  have haddr : (s.icache ip).din.addrs = (V i).addrs := by rw [h.newest]
  apply getDin_bind
  apply Sat.ite
  · intro hzero
    refine Sat.pure ?_
    have hrefl := Cleared.refl (K := fun _ => False) h fun _ hf => hf
    refine ⟨hrefl.state, hrefl.fields, ?_, hrefl.bits, hrefl.owned⟩
    rintro k (rfl | hk)
    · exact hzero
    · exact hk
  · intro hne
    rw [haddr] at hne ⊢
    obtain ⟨ind, hind⟩ : ∃ ind, ((V i).addrs indirectSlot).toNat = ind :=
      ⟨_, rfl⟩
    have hslot : listing s.sb s.disk V i NDIRECT = ind := by
      rw [listing_eq s.disk h.lt h.type, Dinode.slot_indirectSlot, hind]
    have hind0 : ind ≠ 0 := by
      rw [← hind]
      exact fun h0 => hne (BitVec.eq_of_toNat_eq h0)
    have hindlt : ind < s.sb.size := by
      have := h.owned.lt_size (i := i) (k := NDIRECT) (by decide)
      omega
    have hentry : ∀ j, listing s.sb s.disk V i (NDIRECT + 1 + j) =
        ((s.disk ind).word (4 * j)).toNat := by
      intro j
      rw [listing_eq s.disk h.lt h.type, Dinode.slot_entry hne,
        Dinode.slot_indirectSlot, hind]
    have hword : ∀ j, (s.disk ind).word (4 * j) ≠ 0 →
        listing s.sb s.disk V i (NDIRECT + 1 + j) ≠ 0 := by
      intro j hw
      rw [hentry]
      exact fun h0 => hw (BitVec.eq_of_toNat_eq h0)
    have hjlt : ∀ j ∈ List.range NINDIRECT, NDIRECT + 1 + j < NSLOT := by
      intro j hj
      have := List.mem_range.mp hj
      have hnslot : NSLOT = NDIRECT + 1 + NINDIRECT := rfl
      omega
    rw [hind]
    apply bread_bind fun _ => trivial
    have hstart : Freed s.sb s.disk V fun _ => False :=
      ⟨h.owned, fun _ hf => hf.elim⟩
    refine (itruncEntries_sat (s := { s.emit (.bread ind) with
      bufs := ind :: s.bufs }) hstart ?_).andThen ?_
    · intro j hj hw
      have := h.owned.lt_size (hjlt j hj) (hword j hw)
      rw [hentry] at this
      exact this
    · rintro - _ ⟨disk', tr', rfl, hbits, hfreed⟩
      simp only [State.emit] at hbits hfreed
      apply brelse_bind
      refine Sat.andThen (bfree_sat ?_) ?_
      · exact hfreed.sound.superblock
      rintro - _ ⟨tr, rfl⟩
      apply getDin_bind
      refine Sat.modify ?_
      have hall := hfreed.free hindlt
      have hlist : listing s.sb (Sound.freeDisk s.sb disk' ind) V =
          listing s.sb s.disk V :=
        (hbits.trans (.free hindlt)).listing_eq h.owned
      have howned := hall.clearIndirect h.lt h.type (by rw [h.newest]) (by
        intro b
        rw [hlist]
        constructor
        · rintro ((hf | ⟨j, hj, hw, rfl⟩) | rfl)
          · exact hf.elim
          · refine ⟨NDIRECT + 1 + j, hjlt j hj, by omega, hentry j, ?_⟩
            rw [← hentry j]
            exact hword j hw
          · exact ⟨NDIRECT, by decide, le_refl _, hslot, hind0⟩
        · rintro ⟨k, hk, hle, heq, hne'⟩
          by_cases hkn : k = NDIRECT
          · rw [hkn, hslot] at heq
            exact .inr heq.symm
          · obtain ⟨j, rfl⟩ : ∃ j, k = NDIRECT + 1 + j :=
              Nat.exists_eq_add_of_le (by omega)
            have hnslot : NSLOT = NDIRECT + 1 + NINDIRECT := rfl
            rw [hentry] at heq
            refine .inl (.inr ⟨j, List.mem_range.mpr (by omega), ?_, heq.symm⟩)
            intro h0
            rw [h0] at heq
            exact hne' heq.symm)
      rw [h.newest] at howned
      refine .intro ((s.icache ip).din.setAddr indirectSlot 0)
        (Sound.freeDisk s.sb disk' ind) tr ?_ rfl ?_
        (hbits.trans (.free hindlt)) howned
      · simp only [State.emit, State.setDin, State.setInode,
          List.erase_cons_head]
      · rintro k (rfl | hk)
        · exact Dinode.addrs_setAddr_self
        · exact (if_congr Iff.rfl rfl hk).trans (ite_self _)

end Loops

/-! ## Freeing an inode -/

/-- Inode `i`, without references and links, has been freed on disk, and its
copy in slot `ip` is no longer valid. -/
structure Erased (V : Table) (i : ℕ) (ip : Slot) (s t : State P) : Prop where
  state : t = { s.setInode ip { s.icache ip with
    valid := false, din := (t.icache ip).din } with
    disk := t.disk, trace := t.trace }
  owned : Owned s.sb t.disk (Function.update V i (t.icache ip).din)
  free : (t.icache ip).din.type = 0
  stored : inodeOf s.sb t.disk i = (t.icache ip).din
  inodes : ∀ j < s.sb.ninodes, j ≠ i →
    inodeOf s.sb t.disk j = inodeOf s.sb s.disk j
  data : ∀ w, w = 0 ∨ nmeta s.sb ≤ w → t.disk w = s.disk w

theorem Erased.intro {V : Table} {i : ℕ} {ip : Slot} (d' : Dinode)
    (disk' : ℕ → Block) (tr : List Event)
    (ht : t = { s.setInode ip { s.icache ip with valid := false, din := d' } with
      disk := disk', trace := tr })
    (howned : Owned s.sb disk' (Function.update V i d')) (hfree : d'.type = 0)
    (hstored : inodeOf s.sb disk' i = d')
    (hinodes : ∀ j < s.sb.ninodes, j ≠ i →
      inodeOf s.sb disk' j = inodeOf s.sb s.disk j)
    (hdata : ∀ w, w = 0 ∨ nmeta s.sb ≤ w → disk' w = s.disk w) :
    Erased V i ip s t := by
  subst ht
  have hdin : ((s.setInode ip { s.icache ip with
      valid := false, din := d' }).icache ip).din = d' := by
    rw [State.icache_setInode_self]
  constructor
  · simp only [hdin]
  · simp only [hdin]
    exact howned
  · simp only [hdin]
    exact hfree
  · simp only [hdin]
    exact hstored
  · exact hinodes
  · exact hdata

section Erase

variable {V : Table} {i : ℕ} {ip : Slot}

/-- The blocks of an inode are freed, and the empty inode is stored. -/
theorem itrunc_sat (howned : Owned s.sb s.disk V)
    (hinum : (s.icache ip).inum = i) (hnew : (s.icache ip).din = V i)
    (hi : i < s.sb.ninodes) (ht : (V i).type ≠ 0) :
    Sat (itrunc ip) s (fun _ t => ∃ disk' d tr,
      t = { s.setDin ip d with
        disk := storeDisk s.sb disk' i d, trace := tr } ∧
      d = { V i with size := 0, addrs := fun _ => 0 } ∧
      BitsOnly s.sb s.disk disk' ∧
      Owned s.sb disk' (Function.update V i d)) fun _ => True := by
  have hstart : Truncating (Function.update V i { V i with size := 0 }) i ip
      s := by
    constructor
    · refine howned.resize hi ht fun bn hbn => ?_
      exact absurd hbn (Nat.not_lt_zero bn)
    · rw [Function.update_self, hnew]
    · exact hi
    · rw [Function.update_self]
      exact ht
  have hdirect : ∀ k ∈ directSlots, k.val < NDIRECT := by decide
  refine (itruncDirect_sat hdirect hstart).andThen ?_
  rintro - t ht₁
  refine (itruncIndirect_sat (ht₁.truncating hstart)).andThen ?_
  rintro - u hu
  have hall := ht₁.trans hu
  have haddrs : (u.icache ip).din.addrs = fun _ => 0 := by
    funext k
    apply hall.cleared k (.inl _)
    revert k
    decide
  have hfields := hall.fields
  rw [haddrs, hnew] at hfields
  have hown := hall.owned
  rw [Function.update_idem, hfields] at hown
  apply getDin_bind
  apply setDin_bind
  refine (iupdate_sat fun _ => trivial).imp ?_
  rintro - _ ⟨tr, rfl⟩
  refine ⟨u.disk, _, tr, ?_, rfl, hall.bits, hown⟩
  obtain ⟨disk', d₀, tr', rfl⟩ : ∃ disk' d₀ tr',
      u = { s.setDin ip d₀ with disk := disk', trace := tr' } :=
    ⟨_, _, _, hall.state⟩
  simp only [State.setDin, State.setInode, Function.update_self,
    Function.update_idem, hinum] at hfields ⊢
  rw [hfields]

/-- An inode that lists no blocks may be freed. -/
theorem Sound.eraseType {sb : Superblock} {disk : ℕ → Block} {V : Table}
    {i : ℕ} (h : Owned sb disk V) (hempty : (V i).addrs = fun _ => 0) :
    Owned sb disk (Function.update V i { V i with type := 0 }) := by
  have hslot : ∀ d : Dinode, d.addrs = (fun _ => 0) → ∀ k,
      d.slot disk k = 0 := by
    intro d hd k
    have hzero : Dinode.zero.slot disk k = 0 := Dinode.slot_zero
    rw [← hzero]
    exact Dinode.slot_addrs hd
  apply h.congr
  · rw [listing, live_update_of_free (d := { V i with type := 0 }) rfl]
    funext j k
    by_cases hj : j = i
    · subst hj
      rw [slots, Function.update_self, Dinode.slot_zero, listing, slots, live]
      split
      · exact (hslot _ hempty k).symm
      · exact Dinode.slot_zero.symm
    · rw [slots, Function.update_of_ne hj]
      rfl
  · rfl
  · exact fun _ _ => rfl
  · intro j _ hne _
    by_cases hj : j = i
    · subst hj
      rw [Function.update_self] at hne
      exact absurd rfl hne
    · rw [Function.update_of_ne hj]
      exact ⟨rfl, le_refl _⟩

theorem iputFree_sat (howned : Owned s.sb s.disk V)
    (hinum : (s.icache ip).inum = i) (hnew : (s.icache ip).din = V i)
    (hi : i < s.sb.ninodes) (ht : (V i).type ≠ 0) :
    Sat (iputFree ip) s (fun _ t => Erased V i ip s t) fun _ => True := by
  refine (itrunc_sat howned hinum hnew hi ht).andThen ?_
  rintro - _ ⟨disk', d, tr, rfl, hd, hbits, hown⟩
  apply getDin_bind
  apply setDin_bind
  refine (iupdate_sat fun _ => trivial).andThen ?_
  rintro - _ ⟨tr', rfl⟩
  refine Sat.modify ?_
  have hsecond := (hown.store hi d).store hi { d with type := 0 }
  have haddrs : d.addrs = fun _ => 0 := by rw [hd]
  refine .intro { d with type := 0 }
    (storeDisk s.sb (storeDisk s.sb disk' i d) i { d with type := 0 }) tr' ?_ ?_
    rfl ?_ ?_ ?_
  · simp only [State.setDin, State.setInode, Function.update_self,
      Function.update_idem, hinum]
  · have hfree := hsecond.eraseType (i := i)
      (by rw [Function.update_self, haddrs])
    rwa [Function.update_self, Function.update_idem] at hfree
  · rw [inodeOf_storeDisk, if_pos rfl]
  · intro j hj hji
    rw [inodeOf_storeDisk, if_neg hji, inodeOf_storeDisk, if_neg hji]
    apply inodeOf_congr
    exact hbits.data howned.layout (.inr (howned.layout.iblock_lt hj))
  · intro w hw
    have h₁ := howned.layout.one_lt_iblock (i := i)
    have h₂ := howned.layout.iblock_lt_nmeta hi
    have h₃ := howned.layout.one_lt_bmapstart
    rw [storeDisk_of_ne (by omega), storeDisk_of_ne (by omega)]
    exact hbits.data howned.layout (by omega)

end Erase

end ZtlOs.Kernel
