import ZtlOs.Kernel.Turning

/-!
# Putting references

Putting the last reference to a node without links frees it, and logs the
block of its inode and the bitmap.  A reference to a node that somebody else
keeps is put without any change.
-/

namespace ZtlOs.Kernel

open ZtlOs.Support ZtlOs.Support.Program ZtlOs.Support.Bindings ZtlOs.Fs

variable {P : Type} {s t u : State P} {k k' k₂ k₃ : Ctx P} {ip dp c : Slot}
variable {i j d : ℕ} {n n' m : Node} {name : Bytes}

/-! ## Freeing an inode -/

section Trim

/-- From `s` to `t`, blocks of slot `ip` have been freed: only the bitmap has
been written. -/
structure Trimmed (ip : Slot) (s t : State P) : Prop where
  sb : t.sb = s.sb
  data : ∀ w ≠ s.sb.bmapstart, t.disk w = s.disk w
  inum : (t.icache ip).inum = (s.icache ip).inum
  addrs : ∀ k, (t.icache ip).din.addrs k = (s.icache ip).din.addrs k ∨
    (t.icache ip).din.addrs k = 0
  logs : t.logs ⊆ insert s.sb.bmapstart s.logs

theorem Trimmed.refl : Trimmed ip s s :=
  ⟨rfl, fun _ _ => rfl, rfl, fun _ => .inl rfl, Finset.subset_insert _ _⟩

theorem Trimmed.trans (h : Trimmed ip s t) (h' : Trimmed ip t u) :
    Trimmed ip s u where
  sb := h'.sb.trans h.sb
  data w hw := (h'.data w (by rwa [h.sb])).trans (h.data w hw)
  inum := h'.inum.trans h.inum
  addrs k := by
    rcases h'.addrs k with heq | hzero
    · rw [heq]
      exact h.addrs k
    · exact .inr hzero
  logs := by
    have hlogs := h'.logs
    rw [h.sb] at hlogs
    refine hlogs.trans (Finset.insert_subset ?_ h.logs)
    exact Finset.mem_insert_self _ _

/-- The copy of the superblock in memory is the one on disk, and the bitmap is
one block behind it. -/
structure OneBitmap (s : State P) : Prop where
  super : (s.disk 1).superblock = s.sb
  lt : 1 < s.sb.bmapstart

theorem Trimmed.oneBitmap (h : Trimmed ip s t) (hs : OneBitmap s) :
    OneBitmap t where
  super := by
    rw [h.data 1 (Nat.ne_of_lt hs.lt), h.sb]
    exact hs.super
  lt := h.sb ▸ hs.lt

theorem bfree_trimmed {b : ℕ} (ip : Slot) (hs : OneBitmap s) (hb : b < BPB) :
    Sat (bfree b) s (fun _ t => Trimmed ip s t) fun _ => True := by
  apply Sat.bind
  apply bread_bind fun _ => trivial
  refine .bind (Sat.modify (Sat.modify (.bind (Sat.get ?_))))
  apply bread_bind fun _ => trivial
  apply Sat.ite
  · intro _
    exact Sat.throw trivial
  intro _
  apply logWrite_bind
  refine Sat.modify ?_
  have hblock : BBLOCK b (s.disk 1).superblock = s.sb.bmapstart := by
    rw [BBLOCK_of_lt hb, hs.super]
  refine ⟨hs.super, fun w hw => ?_, rfl, fun _ => .inl rfl, ?_⟩
  · refine Function.update_of_ne ?_ ..
    change w ≠ BBLOCK b (s.disk 1).superblock
    rwa [hblock]
  · change insert (BBLOCK b (s.disk 1).superblock) s.logs ⊆ _
    rw [hblock]

theorem setAddr_trimmed (k : Fin (NDIRECT + 1)) {s : State P} :
    Trimmed ip s (s.setDin ip ((s.icache ip).din.setAddr k 0)) := by
  refine ⟨rfl, fun _ _ => rfl, ?_, fun l => ?_, Finset.subset_insert _ _⟩
  · rw [State.setDin, State.icache_setInode_self]
  · rw [State.setDin, State.icache_setInode_self]
    by_cases hl : l = k
    · subst hl
      exact .inr Dinode.addrs_setAddr_self
    · exact .inl (if_neg hl)

theorem itruncDirect_trimmed (ks : List (Fin (NDIRECT + 1)))
    (hs : OneBitmap s) (hlt : ∀ k, ((s.icache ip).din.addrs k).toNat < BPB) :
    Sat (itruncDirect ip ks) s (fun _ t => Trimmed ip s t) fun _ => True := by
  induction ks generalizing s with
  | nil => exact Sat.pure .refl
  | cons k ks ih =>
      apply getDin_bind
      apply Sat.ite
      · intro _
        exact ih hs hlt
      intro _
      refine (bfree_trimmed ip hs (hlt k)).andThen fun _ t ht => ?_
      apply getDin_bind
      apply setDin_bind
      have hboth := ht.trans (setAddr_trimmed k)
      refine (ih (hboth.oneBitmap hs) fun l => ?_).imp
        fun _ u hu => hboth.trans hu
      rcases hboth.addrs l with heq | hzero
      · rw [heq]
        exact hlt l
      · rw [hzero]
        decide

theorem itruncEntries_trimmed {a : Block} (ip : Slot) (js : List ℕ)
    (hs : OneBitmap s) (hlt : ∀ j ∈ js, (a.word (4 * j)).toNat < BPB) :
    Sat (itruncEntries a js) s (fun _ t => Trimmed ip s t) fun _ => True := by
  induction js generalizing s with
  | nil => exact Sat.pure .refl
  | cons j js ih =>
      have hlt' : ∀ j ∈ js, (a.word (4 * j)).toNat < BPB :=
        fun l hl => hlt l (List.mem_cons_of_mem j hl)
      apply Sat.ite
      · intro _
        exact ih hs hlt'
      intro _
      refine (bfree_trimmed ip hs (hlt j List.mem_cons_self)).andThen ?_
      intro _ t ht
      exact (ih (ht.oneBitmap hs) hlt').imp fun _ u hu => ht.trans hu

/-- All block numbers of the inode are below the size of one bitmap block. -/
structure Numbers (ip : Slot) (s : State P) : Prop where
  addrs : ∀ k, ((s.icache ip).din.addrs k).toNat < BPB
  entries : (s.icache ip).din.addrs indirectSlot ≠ 0 → ∀ j < NINDIRECT,
    ((s.disk ((s.icache ip).din.addrs indirectSlot).toNat).word
      (4 * j)).toNat < BPB
  indirect : ((s.icache ip).din.addrs indirectSlot).toNat ≠ s.sb.bmapstart

theorem itruncIndirect_trimmed (hs : OneBitmap s) (hn : Numbers ip s) :
    Sat (itruncIndirect ip) s (fun _ t => Trimmed ip s t) fun _ => True := by
  apply getDin_bind
  apply Sat.ite
  · intro _
    exact Sat.pure .refl
  intro hne
  apply bread_bind fun _ => trivial
  have hread : Trimmed ip s { s.emit
      (.bread ((s.icache ip).din.addrs indirectSlot).toNat) with
      bufs := ((s.icache ip).din.addrs indirectSlot).toNat :: s.bufs } :=
    ⟨rfl, fun _ _ => rfl, rfl, fun _ => .inl rfl, Finset.subset_insert _ _⟩
  refine (itruncEntries_trimmed ip _ (hread.oneBitmap hs) fun j hj =>
    hn.entries hne j (List.mem_range.mp hj)).andThen fun _ t ht => ?_
  apply brelse_bind
  have hboth := hread.trans ht
  have hrelse : Trimmed ip t { t.emit
      (.brelse ((s.icache ip).din.addrs indirectSlot).toNat) with
      bufs := t.bufs.erase ((s.icache ip).din.addrs indirectSlot).toNat } :=
    ⟨rfl, fun _ _ => rfl, rfl, fun _ => .inl rfl, Finset.subset_insert _ _⟩
  have hafter := hboth.trans hrelse
  refine (bfree_trimmed ip (hafter.oneBitmap hs)
    (hn.addrs indirectSlot)).andThen fun _ u hu => ?_
  apply getDin_bind
  exact Sat.modify ((hafter.trans hu).trans (setAddr_trimmed indirectSlot))

/-- From `s` to `t`, at most the bitmap and the block of the inode in slot `ip`
have been written. -/
structure Stores (ip : Slot) (s t : State P) : Prop where
  sb : t.sb = s.sb
  inum : (t.icache ip).inum = (s.icache ip).inum
  logs : t.logs ⊆ s.logs ∪
    (inodeBlock (s.icache ip).inum ⊔ bitmapBlock) s.sb

theorem Stores.trans (h : Stores ip s t) (h' : Stores ip t u) :
    Stores ip s u where
  sb := h'.sb.trans h.sb
  inum := h'.inum.trans h.inum
  logs := by
    have hlogs := h'.logs
    rw [h.inum, h.sb] at hlogs
    exact hlogs.trans (Finset.union_subset h.logs Finset.subset_union_right)

theorem Trimmed.stores (h : Trimmed ip s t) : Stores ip s t where
  sb := h.sb
  inum := h.inum
  logs := by
    refine h.logs.trans (Finset.insert_subset ?_ Finset.subset_union_left)
    exact Finset.mem_union_right _
      (Finset.mem_union_right _ (Finset.mem_singleton_self _))

/-- The copy of an inode is changed and stored. -/
theorem iupdate_stores (d : Dinode) : Sat (do
    setDin ip d
    iupdate ip) s (fun _ t => Stores ip s t) fun _ => True := by
  apply setDin_bind
  have hsat := (iupdate_logs ip).both
    (iupdate_sat (s := s.setDin ip d) (E := fun _ => True) fun _ => trivial)
  refine hsat.imp ?_
  rintro _ t ⟨hlog, tr, ht⟩
  rw [State.setDin, State.icache_setInode_self] at hlog
  refine ⟨by rw [ht]; rfl, ?_, ?_⟩
  · rw [ht]
    simp only [State.setDin, State.icache_setInode_self]
  · rw [hlog]
    refine Finset.insert_subset ?_ Finset.subset_union_left
    exact Finset.mem_union_right _
      (Finset.mem_union_left _ (Finset.mem_singleton_self _))

theorem Trimmed.numbers (h : Trimmed ip s t) (hs : OneBitmap s)
    (hn : Numbers ip s) : Numbers ip t := by
  have haddr := h.addrs indirectSlot
  refine ⟨fun l => ?_, fun hne j hj => ?_, ?_⟩
  · rcases h.addrs l with heq | hzero
    · rw [heq]
      exact hn.addrs l
    · rw [hzero]
      decide
  · have heq := haddr.resolve_right hne
    rw [heq] at hne ⊢
    rw [h.data _ hn.indirect]
    exact hn.entries hne j hj
  · rw [h.sb]
    rcases haddr with heq | hzero
    · rw [heq]
      exact hn.indirect
    · rw [hzero]
      have := hs.lt
      change 0 ≠ _
      omega

theorem itrunc_stores (hs : OneBitmap s) (hn : Numbers ip s) :
    Sat (itrunc ip) s (fun _ t => Stores ip s t) fun _ => True := by
  refine (itruncDirect_trimmed directSlots hs hn.addrs).andThen ?_
  intro _ t ht
  refine (itruncIndirect_trimmed (ht.oneBitmap hs)
    (ht.numbers hs hn)).andThen fun _ u hu => ?_
  apply getDin_bind
  exact (iupdate_stores _).imp fun _ v hv => (ht.trans hu).stores.trans hv

/-- Freeing an inode logs the bitmap and the block of the inode. -/
theorem iputFree_stores (hs : OneBitmap s) (hn : Numbers ip s) :
    Sat (iputFree ip) s (fun _ t => Stores ip s t) fun _ => True := by
  refine (itrunc_stores hs hn).andThen fun _ t ht => ?_
  apply getDin_bind
  apply Sat.assoc
  refine (iupdate_stores _).andThen fun _ u hu => Sat.modify ?_
  refine (ht.trans hu).trans ⟨rfl, ?_, Finset.subset_union_left⟩
  rw [State.icache_setInode_self]

end Trim

/-! ### Steps within one transaction -/

theorem readsb_brackets : Keeps State.brackets (readsb (P := P)) := by
  apply (bread_brackets 1).bind
  intro bp
  apply Keeps.bind
  · exact Keeps.modify fun _ => rfl
  · intro _
    exact brelse_brackets 1

theorem bfree_brackets (b : ℕ) : Keeps State.brackets (bfree (P := P) b) := by
  apply readsb_brackets.bind
  intro _
  apply (Keeps.get _).bind
  intro s
  apply (bread_brackets _).bind
  intro bp
  apply Keeps.ite
  · intro _
    exact Keeps.throw _ _
  · intro _
    apply (logWrite_brackets _ _).bind
    intro _
    exact brelse_brackets _

theorem itruncDirect_brackets (ip : Slot) (ks : List (Fin (NDIRECT + 1))) :
    Keeps State.brackets (itruncDirect (P := P) ip ks) := by
  induction ks with
  | nil => exact Keeps.pure _ _
  | cons k ks ih =>
      apply (getDin_brackets ip).bind
      intro d
      apply Keeps.ite
      · intro _
        exact ih
      · intro _
        apply (bfree_brackets _).bind
        intro _
        apply (getDin_brackets ip).bind
        intro d
        apply (setDin_brackets ip _).bind
        intro _
        exact ih

theorem itruncEntries_brackets (a : Block) (js : List ℕ) :
    Keeps State.brackets (itruncEntries (P := P) a js) := by
  induction js with
  | nil => exact Keeps.pure _ _
  | cons j js ih =>
      apply Keeps.ite
      · intro _
        exact ih
      · intro _
        apply (bfree_brackets _).bind
        intro _
        exact ih

theorem itruncIndirect_brackets (ip : Slot) :
    Keeps State.brackets (itruncIndirect (P := P) ip) := by
  apply (getDin_brackets ip).bind
  intro d
  apply Keeps.ite
  · intro _
    exact Keeps.pure _ _
  · intro _
    apply (bread_brackets _).bind
    intro a
    apply (itruncEntries_brackets a _).bind
    intro _
    apply (brelse_brackets _).bind
    intro _
    apply (bfree_brackets _).bind
    intro _
    apply (getDin_brackets ip).bind
    intro d
    exact setDin_brackets ip _

theorem itrunc_brackets (ip : Slot) :
    Keeps State.brackets (itrunc (P := P) ip) := by
  apply (itruncDirect_brackets ip _).bind
  intro _
  apply (itruncIndirect_brackets ip).bind
  intro _
  apply (getDin_brackets ip).bind
  intro d
  apply (setDin_brackets ip _).bind
  intro _
  exact iupdate_brackets ip

theorem iputFree_brackets (ip : Slot) :
    Keeps State.brackets (iputFree (P := P) ip) := by
  apply (itrunc_brackets ip).bind
  intro _
  apply (getDin_brackets ip).bind
  intro d
  apply (setDin_brackets ip _).bind
  intro _
  apply (iupdate_brackets ip).bind
  intro _
  exact Keeps.modify fun _ => rfl

theorem iput_brackets (ip : Slot) :
    Keeps State.brackets (iput (P := P) ip) := by
  apply Keeps.bind
  · exact Keeps.modify fun _ => rfl
  intro _
  apply (Keeps.get _).bind
  intro s
  apply Keeps.bind
  · apply Keeps.ite
    · intro _
      exact iputFree_brackets ip
    · intro _
      exact Keeps.pure _ _
  · intro _
    exact Keeps.modify fun _ => rfl

/-! ## Putting an inode -/

/-- This is the last reference to a node without links. -/
def Last (ip : Slot) (s : State P) : Prop :=
  (s.icache ip).ref = 1 ∧ (s.icache ip).valid = true ∧
    (s.icache ip).din.nlink = 0

theorem Loaded.numbers (h : Loaded s k ip i n) (hsize : s.sb.size ≤ BPB) :
    OneBitmap s ∧ Numbers ip s := by
  have howned := h.world.intact.owned
  have hsynced := h.synced
  have hlive : live s.sb s.inode i = (s.icache ip).din := by
    rw [hsynced.1]
    exact live_of_type h.lt (hsynced.1 ▸ hsynced.2)
  have hlt : ∀ l < NSLOT, (s.icache ip).din.slot s.disk l < BPB := by
    intro l hl
    rw [← hlive]
    by_cases hne : listing s.sb s.disk s.inode i l = 0
    · change listing s.sb s.disk s.inode i l < BPB
      rw [hne]
      decide
    · exact (howned.lt_size hl hne).trans_le hsize
  have hnslot : NSLOT = NDIRECT + 1 + NINDIRECT := rfl
  refine ⟨⟨howned.superblock, howned.layout.one_lt_bmapstart⟩, fun l => ?_,
    fun hne j hj => ?_, fun heq => ?_⟩
  · have := hlt l.val (by omega)
    rwa [Dinode.slot, dif_pos l.isLt] at this
  · have := hlt (NDIRECT + 1 + j) (by omega)
    rwa [Dinode.slot, dif_neg (by omega), if_neg hne,
      Nat.add_sub_cancel_left] at this
  · have hslot : (s.icache ip).din.slot s.disk NDIRECT = s.sb.bmapstart := by
      rw [Dinode.slot, dif_pos (Nat.lt_succ_self _), ← heq]
      rfl
    have hlist : listing s.sb s.disk s.inode i NDIRECT = s.sb.bmapstart := by
      rw [← hslot, ← hlive]
      rfl
    have hbitmap := howned.layout.one_lt_bmapstart
    have hmeta := howned.nmeta_le (i := i) (k := NDIRECT) (by decide) (by omega)
    have hle := howned.layout.bitmap
    have hpos : 0 < (s.sb.size + (BPB - 1)) / BPB := by
      have := howned.layout.one_lt_nmeta
      unfold nmeta at this
      simp only [BPB, BSIZE] at *
      omega
    omega

theorem iput_logs (h : World s (k.hold ip)) (hsize : s.sb.size ≤ BPB) :
    Sat (iput ip) s (fun _ t => t.logs ⊆ s.logs ∪
      (inodeBlock (s.icache ip).inum ⊔ bitmapBlock) s.sb) fun _ => True := by
  refine .bind (Sat.modify (.bind (Sat.get ?_)))
  apply Sat.bind
  apply Sat.ite
  · rintro ⟨-, hvalid, -⟩
    obtain ⟨n, hn⟩ := h.loaded (k.mem_hold ip) hvalid
    obtain ⟨hs, hnum⟩ := hn.numbers hsize
    have hs' : OneBitmap (s.emit (.iput ip)) := ⟨hs.super, hs.lt⟩
    have hnum' : Numbers ip (s.emit (.iput ip)) :=
      ⟨hnum.addrs, hnum.entries, hnum.indirect⟩
    exact (iputFree_stores hs' hnum').imp fun _ t ht => Sat.modify ht.logs
  · intro _
    exact Sat.pure (Sat.modify Finset.subset_union_left)

theorem iput_logging (h : ¬Last ip s) :
    Sat (iput ip) s (fun _ t => t.logging = s.logging) fun _ => True := by
  refine .bind (Sat.modify (.bind (Sat.get ?_)))
  apply Sat.bind
  apply Sat.ite
  · intro hlast
    exact absurd hlast h
  · intro _
    exact Sat.pure (Sat.modify rfl)

theorem Ctx.held_hold (k : Ctx P) (ip : Slot) :
    (k.hold ip).held s = insert (s.icache ip).inum (k.held s) := by
  ext i
  constructor
  · rintro ⟨c, hc, hinum⟩
    rcases Multiset.mem_cons.mp hc with rfl | hc
    · exact .inl hinum.symm
    · exact .inr ⟨c, hc, hinum⟩
  · rintro (rfl | ⟨c, hc, hinum⟩)
    · exact ⟨ip, k.mem_hold ip, rfl⟩
    · exact ⟨c, k.sub_hold ip c hc, hinum⟩

/-- Putting a reference frees its node, if nobody else refers to it. -/
theorem iput_sweeps (h : World s (k.hold ip)) (hop : k.op = true)
    (ha : Anchored ((k.hold ip).anchors s) s.node) :
    Sat (iput ip) s (fun _ t => Turns k k (swept (k.held s))
      (inodeBlock (s.icache ip).inum ⊔ bitmapBlock) s t ∧
        Anchored (k.anchors t) t.node) fun _ => True := by
  refine ((iput_brackets ip).also ((iput_dropped h hop).both
    (Sat.of_imp fun hsize => iput_logs h hsize))).imp ?_
  rintro _ t ⟨hold, ⟨hcalm, hdrop⟩, hlogs⟩
  have hnode : t.node = swept (k.held s) s.node := by
    funext j
    have hfree : ∀ m, s.node j = some m → m.nlink = 0 → j ∉ k.held s →
        t.node j = none := by
      intro m hm hlink hj
      obtain ⟨c, hc, rfl, hvalid⟩ := ha j m hm hlink
      rcases Multiset.mem_cons.mp hc with rfl | hc
      · refine hdrop (fun hc => hj ⟨c, hc, rfl⟩) hvalid m hm hlink
      · exact absurd ⟨c, hc, rfl⟩ hj
    by_cases hgone : j ∉ k.held s ∧ ∃ m, s.node j = some m ∧ m.nlink = 0
    · obtain ⟨hj, m, hm, hlink⟩ := hgone
      rw [hfree m hm hlink hj, swept_gone hj hm hlink]
    · rw [swept, if_neg hgone]
      refine (hcalm.frees j).resolve_right ?_
      rintro ⟨-, m, hm, hlink, hj⟩
      refine hgone ⟨?_, m, hm, hlink⟩
      rintro ⟨c, hc, hinum⟩
      exact hj c hc hinum
  refine ⟨⟨hcalm.world, hcalm.frame, hnode, hlogs, hold⟩, ?_⟩
  rw [hnode]
  refine anchored_swept fun j m hm hlink hj => ?_
  obtain ⟨c, hc, hinum, hvalid⟩ := ha j m hm hlink
  obtain ⟨c', hc', hinum'⟩ := hj
  have hcc : c = c' := h.intact.distinct c c' (h.ref_pos hc)
    (h.ref_pos (k.sub_hold ip c' hc')) (hinum.trans hinum'.symm)
  subst hcc
  exact hcalm.frame.anchors_subset ⟨c, hc', hinum, hvalid⟩

/-- A node that somebody else keeps stays. -/
theorem iput_quiet (h : World s (k.hold ip)) (hop : k.op = true)
    (ha : Anchored (k.anchors s) s.node) :
    Sat (iput ip) s (fun _ t => Quiet k k s t) fun _ => True := by
  have hlast : ¬Last ip s := by
    rintro ⟨hone, hvalid, hlink⟩
    obtain ⟨n, hn⟩ := h.loaded (k.mem_hold ip) hvalid
    obtain ⟨c, hc, hinum, -⟩ := ha _ n hn.node (hn.nlink_eq ▸ hlink)
    have hcip : c = ip := h.intact.distinct c ip
      (h.ref_pos (k.sub_hold ip c hc)) (h.ref_pos (k.mem_hold ip)) hinum
    have hcount := h.holds.ref ip
    rw [hone, Ctx.hold, Multiset.count_cons_self] at hcount
    have := Multiset.count_pos.mpr (hcip ▸ hc)
    omega
  refine ((iput_sweeps h hop (ha.mono (Ctx.anchors_mono (k.sub_hold ip)))).both
    (iput_logging hlast)).imp ?_
  rintro _ t ⟨⟨ht, -⟩, hlog⟩
  obtain ⟨hlogs, hold⟩ := State.logging_eq.mp hlog
  refine ⟨ht.world, ht.frame, ?_, fun _ => ?_, hold⟩
  · rw [ht.node]
    exact (ha.mono (k.anchors_subset s)).swept_eq
  · rw [hlogs]
    exact Finset.subset_union_left

theorem iunlockput_quiet (h : World s (k.own ip)) (hop : k.op = true)
    (ha : Anchored (k.anchors s) s.node) :
    Sat (iunlockput ip) s (fun _ t => Quiet k k s t) fun _ => True := by
  refine (iunlock_turns h).andThen fun _ t ht => ?_
  have ht' : Quiet k (k.hold ip) s t := ht.mono (k.sub_hold ip)
  refine (iput_quiet ht.world hop (ht'.anchored ha)).imp fun _ u hu => ?_
  exact hu.after ht' fun _ hc => hc

theorem iunlockput_sweeps (h : World s (k.own ip)) (hop : k.op = true)
    (ha : Anchored ((k.hold ip).anchors s) s.node) :
    Sat (iunlockput ip) s (fun _ t => Turns k k (swept (k.held s))
      (inodeBlock (s.icache ip).inum ⊔ bitmapBlock) s t ∧
        Anchored (k.anchors t) t.node) fun _ => True := by
  refine (iunlock_turns h).andThen fun _ t ht => ?_
  have ht' : Quiet k (k.hold ip) s t := ht.mono (k.sub_hold ip)
  have hsweep := iput_sweeps ht.world hop (ht.anchored ha)
  rw [ht'.frame.held_eq, ht.frame.inum ip (k.mem_hold ip)] at hsweep
  exact hsweep.imp fun _ u hu => ⟨hu.1.after ht' fun _ hc => hc, hu.2⟩

/-! ## Adding an entry -/

/-- `dirlink` gives up on a name that is present, and otherwise writes an entry
into a vacant slot. -/
theorem dirlink_turns {inum : ℕ} (name : Bytes)
    (h : Loaded s (k.lock dp) dp i n) (hop : k.op = true)
    (hinum : inum < s.sb.ninodes) (ha : Anchored (k.anchors s) s.node) :
    Sat (dirlink dp name inum) s (fun r t => n.type = T_DIR ∧
      if r = false then lookup (bindings n.data) (cutName name) ≠ none ∧
        Quiet (k.lock dp) (k.lock dp) s t
      else lookup (bindings n.data) (cutName name) = none ∧
        ∃ j, Vacant n.data j ∧ ∃ X : Finset ℕ, X.card ≤ 2 ∧
          Turns (k.lock dp) (k.lock dp)
            (revise i (Node.entered j (linkDirent name inum)))
            (inodeBlock i ⊔ bitmapBlock ⊔ fun _ => X) s t) fun _ => True := by
  refine (dirlookup_finds name h).andThen ?_
  rintro (_ | ⟨c, off⟩) t ⟨hdir, ht⟩
  · obtain ⟨hquiet, hnone⟩ := ht
    have hloaded := h.quiet hquiet h.mem h.mem
    apply getDin_bind
    rw [hloaded.offsets_eq]
    have hempty := emptyDirent_turns _ 0 hloaded hdir (Nat.zero_add _)
      (Nat.zero_le _)
    rw [Nat.zero_add, ← List.range_eq_range'] at hempty
    have hlen : ((slotRange n.data).map (Dirent.size * ·)).length =
        (n.data.length + (Dirent.size - 1)) / Dirent.size := by
      rw [List.length_map, slotRange, List.length_range]
    simp only [hlen]
    refine hempty.andThen ?_
    rintro _ u ⟨hu, j, rfl, hj⟩
    have hboth := hu.after hquiet fun _ hc => hc
    have hentries : ∀ de ∈ dirents (splice n.data (Dirent.size * j)
        (linkDirent name inum).bytes), de.inum.toNat < u.sb.ninodes := by
      intro de hde
      rw [hboth.frame.sb]
      rcases mem_dirents_splice hj.le hde with rfl | hold
      · refine lt_of_le_of_lt ?_ hinum
        change (BitVec.ofNat 16 inum).toNat ≤ inum
        rw [BitVec.toNat_ofNat]
        exact Nat.mod_le _ _
      · exact h.world.intact.entries i n h.node hdir de hold
    refine (writei_entry_turns (h.quiet hboth h.mem h.mem) hop hdir
      hentries).andThen ?_
    intro r v hr
    apply Sat.ite
    · intro hsize
      obtain ⟨X, hcard, hv⟩ := hr hsize
      refine Sat.pure ⟨hdir, ?_⟩
      rw [if_neg Bool.true_eq_false_eq_False]
      exact ⟨hnone, j, hj, X, hcard, hv.after hboth fun _ hc => hc⟩
    · intro _
      exact Sat.throw trivial
  · obtain ⟨j, v, -, -, hl, hquiet, -⟩ := ht
    refine (iput_quiet hquiet.world hop
      (hquiet.anchored (ha.mono (Ctx.anchors_mono fun _ hc => hc)))).andThen ?_
    intro _ u hu
    refine Sat.pure ⟨hdir, ?_⟩
    rw [if_pos rfl, hl]
    exact ⟨Option.some_ne_none v, hu.after hquiet fun _ hc => hc⟩

/-! ## Paths -/

/-- What `namex` returns, if `target` is at the end of the path: a reference to
it, and nothing has changed. -/
def Arrives (k : Ctx P) (nameiparent : Bool)
    (target : Option (ℕ × Option Bytes)) (r : Option (Slot × Bytes))
    (s t : State P) : Prop :=
  match r with
  | none => target = none ∧ Quiet k k s t
  | some (c, name) =>
      target = some ((t.icache c).inum,
        if nameiparent then some name else none) ∧
      (nameiparent = true → cutName name = name ∧ t.IsDir c) ∧
      Quiet k (k.hold c) s t

section Namex

variable {nameiparent : Bool} {target : Option (ℕ × Option Bytes)}

theorem Arrives.after {r : Option (Slot × Bytes)}
    (h' : Arrives k nameiparent target r t u) (h : Quiet k k₂ s t) :
    Arrives k nameiparent target r s u := by
  unfold Arrives at h' ⊢
  split
  · exact ⟨h'.1, h'.2.after h fun _ hc => hc⟩
  · exact ⟨h'.1, h'.2.1, h'.2.2.after h fun _ hc => hc⟩

theorem namexEnd_arrives (h : World s (k.hold ip)) (hop : k.op = true)
    (ha : Anchored (k.anchors s) s.node) (name : Bytes) :
    Sat (namexEnd nameiparent ip name) s (fun r t => Arrives k nameiparent
      (namexTarget s.node nameiparent (s.icache ip).inum []) r s t)
      fun _ => True := by
  cases nameiparent with
  | true =>
      refine (iput_quiet h hop ha).andThen fun _ t ht => ?_
      exact Sat.pure ⟨rfl, ht⟩
  | false =>
      refine Sat.pure ⟨rfl, ⟨fun hc => absurd hc Bool.false_ne_true, ?_⟩⟩
      exact (Turns.refl h).mono (k.sub_hold ip)

theorem namexLoop_arrives (hop : k.op = true) (fuel : ℕ) :
    ∀ (ip : Slot) (path name : Bytes) (s : State P), path.length ≤ fuel →
      World s (k.hold ip) → Anchored (k.anchors s) s.node →
        Sat (namexLoop nameiparent fuel ip path name) s
          (fun r t => Arrives k nameiparent (namexTarget s.node nameiparent
            (s.icache ip).inum (components path)) r s t) fun _ => True := by
  induction fuel with
  | zero =>
      intro ip path name s hlen h ha
      rw [List.length_eq_zero_iff.mp (Nat.le_zero.mp hlen)]
      exact namexEnd_arrives h hop ha name
  | succ fuel ih =>
      intro ip path name s hlen h ha
      rw [namexLoop]
      split
      · next hnone =>
          rw [skipelem_none hnone]
          exact namexEnd_arrives h hop ha name
      next name rest hskip =>
      obtain ⟨hcomp, hcut, hlt⟩ := skipelem_some hskip
      have hsub := k.sub_hold ip
      rw [hcomp]
      refine (ilock_own_turns h).andThen ?_
      rintro _ t ⟨ht, n, hn⟩
      have ht' : Quiet k (k.own ip) s t := ht.mono hsub
      have hat := ht'.anchored ha
      have hnode : s.node (s.icache ip).inum = some n := by
        rw [← hn.node, ht.node]
        rfl
      apply getDin_bind
      rw [hn.type_eq]
      apply Sat.ite
      · -- Not a directory.
        intro hdir
        have hnot : isDir s.node (s.icache ip).inum = false := by
          rw [isDir_eq hnode]
          exact beq_eq_false_iff_ne.mpr hdir
        refine (iunlockput_quiet ht.world hop hat).andThen fun _ u hu => ?_
        exact Sat.pure ⟨namexTarget_of_not_dir hnot,
          hu.after ht' fun _ hc => hc⟩
      intro hdir
      rw [not_not] at hdir
      have his : isDir s.node (s.icache ip).inum = true := by
        rw [isDir_eq hnode]
        exact beq_iff_eq.mpr hdir
      apply Sat.ite
      · -- The parent is found.
        rintro ⟨rfl, hend⟩
        rw [(skipelem_last hskip).mp hend]
        refine (iunlock_turns ht.world).andThen fun _ u hu => ?_
        have hboth : Quiet (k.hold ip) (k.hold ip) s u :=
          hu.after ht fun _ hc => hc
        have hlast := hn.quiet hu (k.mem_hold ip) (k.mem_hold ip)
        refine Sat.pure ⟨?_, fun _ => ⟨hcut, hlast.valid, n, ?_, hdir⟩,
          hboth.mono hsub⟩
        · rw [namexTarget_parent his, hlast.inum]
          rfl
        · rw [hlast.inum, hlast.node]
      intro hgo
      have hne : nameiparent = true → components rest ≠ [] := by
        intro hparent hempty
        exact hgo ⟨hparent, (skipelem_last hskip).mpr hempty⟩
      have hlookup : lookupAt s.node (s.icache ip).inum name =
          lookup (bindings n.data) (cutName name) := by
        rw [hcut, lookupAt_eq hnode hdir]
      refine (dirlookup_finds name hn).andThen ?_
      rintro (_ | ⟨next, off⟩) u ⟨-, hu⟩
      · -- The element is missing.
        obtain ⟨hquiet, hmiss⟩ := hu
        rw [← hlookup] at hmiss
        have hboth : Quiet k (k.own ip) s u := hquiet.after ht' (k.sub_own ip)
        refine (iunlockput_quiet hquiet.world hop
          (hboth.anchored ha)).andThen fun _ v hv => ?_
        exact Sat.pure ⟨namexTarget_of_none hmiss hne,
          hv.after hboth fun _ hc => hc⟩
      · -- One element further.
        obtain ⟨j, v, -, -, hfound, hquiet, hinum⟩ := hu
        rw [← hlookup] at hfound
        have hboth : Quiet k ((k.own ip).hold next) s u :=
          hquiet.after ht' (k.sub_own ip)
        rw [Ctx.own_hold] at hboth
        have hau := (hboth.anchored ha).mono
          (Ctx.anchors_mono (k.sub_hold next))
        refine (iunlockput_quiet hboth.world hop hau).andThen fun _ w hw => ?_
        have hall : Quiet k (k.hold next) s w :=
          hw.after hboth (k.sub_hold next)
        have hnext : (w.icache next).inum = v := by
          rw [hw.frame.inum next (k.mem_hold next), hinum]
        have hloop := ih next rest name w (by omega) hall.world
          (hall.anchored ha)
        rw [hall.node, id, hnext, ← namexTarget_of_some hfound hne] at hloop
        exact hloop.imp fun r x hx => hx.after hall

theorem namex_arrives (p : P) (path : Bytes) (h : World s k)
    (hop : k.op = true) (hcwd : s.cwd p ∈ k.refs)
    (ha : Anchored (k.anchors s) s.node) :
    Sat (namex p path nameiparent) s (fun r t => Arrives k nameiparent
      (namexTarget s.node nameiparent (s.startInum p path)
        (components path)) r s t) fun _ => True := by
  have hstart : Sat (if path.headD 0 = slash then iget ROOTINO
      else do
        let s ← get
        idup (s.cwd p)) s (fun c t => Quiet k (k.hold c) s t ∧
          (t.icache c).inum = s.startInum p path) fun _ => True := by
    unfold State.startInum
    apply Sat.ite
    · intro hroot
      rw [if_pos hroot]
      exact iget_turns h h.intact.owned.layout.root
    · intro hroot
      rw [if_neg hroot]
      refine .bind (Sat.get ((idup_turns h hcwd).imp ?_))
      rintro c t ⟨rfl, ht⟩
      exact ⟨ht, ht.frame.inum _ hcwd⟩
  refine hstart.andThen ?_
  rintro c t ⟨ht, hinum⟩
  have hloop : Sat (namexLoop nameiparent path.length c path []) t _ _ :=
    namexLoop_arrives hop path.length c path [] t le_rfl ht.world
      (ht.anchored ha)
  rw [ht.node, hinum, id] at hloop
  exact hloop.imp fun r u hu => hu.after ht

end Namex

end ZtlOs.Kernel
