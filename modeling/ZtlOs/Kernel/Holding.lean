import ZtlOs.Kernel.Intact

/-!
# References that free nothing

What `iget`, `idup` and `iput` do to the cache when no inode is freed: the
files stay as they are, and so do the valid copies of inodes; only the numbers
of references change.
-/

namespace ZtlOs.Kernel

open ZtlOs.Support ZtlOs.Support.Program ZtlOs.Fs

variable {P : Type} {s t u : State P} {ip c : Slot} {v : Inode}
variable {tr : List Event}

/-! ## Numbers of references -/

/-- The number of references to inode `i`. -/
def State.refs (s : State P) (i : ℕ) : ℕ :=
  ∑ c, if (s.icache c).inum = i then (s.icache c).ref else 0

/-- The number of slots of the inode cache that nobody refers to. -/
def State.freeSlots (s : State P) : ℕ :=
  (Finset.univ.filter fun c => (s.icache c).ref = 0).card

theorem refs_congr (h : t.icache = s.icache) : t.refs = s.refs := by
  funext i
  rw [State.refs, State.refs, h]

/-- What an entry counts for an inode. -/
def Inode.counts (v : Inode) (i : ℕ) : ℕ :=
  if v.inum = i then v.ref else 0

theorem refs_setInode (ip : Slot) (v : Inode) (i : ℕ) :
    (s.setInode ip v).refs i + (s.icache ip).counts i =
      s.refs i + v.counts i := by
  have hsum : ∀ u : State P, u.refs i = (u.icache ip).counts i +
      ∑ c ∈ Finset.univ.erase ip, (u.icache c).counts i := by
    intro u
    exact (Finset.add_sum_erase _ (fun c => (u.icache c).counts i)
      (Finset.mem_univ ip)).symm
  have hrest : ∑ c ∈ Finset.univ.erase ip,
        ((s.setInode ip v).icache c).counts i =
      ∑ c ∈ Finset.univ.erase ip, (s.icache c).counts i := by
    apply Finset.sum_congr rfl
    intro c hc
    rw [State.icache_setInode_of_ne s (Finset.ne_of_mem_erase hc)]
  rw [hsum, hsum, hrest, State.icache_setInode_self]
  omega

/-- One more reference to the inode of a slot. -/
theorem refs_setInode_succ (hinum : v.inum = (s.icache ip).inum)
    (href : v.ref = (s.icache ip).ref + 1) :
    (s.setInode ip v).refs = Function.update s.refs (s.icache ip).inum
      (s.refs (s.icache ip).inum + 1) := by
  funext i
  have hcount := refs_setInode (s := s) ip v i
  by_cases hi : (s.icache ip).inum = i
  · subst hi
    rw [Inode.counts, Inode.counts, if_pos rfl, if_pos hinum, href] at hcount
    rw [Function.update_self]
    omega
  · rw [Inode.counts, Inode.counts, if_neg hi, if_neg (hinum ▸ hi)] at hcount
    rw [Function.update_of_ne (Ne.symm hi)]
    omega

/-- The first reference to an inode. -/
theorem refs_setInode_one (hzero : (s.icache ip).ref = 0) (href : v.ref = 1) :
    (s.setInode ip v).refs =
      Function.update s.refs v.inum (s.refs v.inum + 1) := by
  funext i
  have hcount := refs_setInode (s := s) ip v i
  have hold : (s.icache ip).counts i = 0 := by
    rw [Inode.counts, hzero, ite_self]
  rw [hold] at hcount
  by_cases hi : v.inum = i
  · subst hi
    rw [Inode.counts, if_pos rfl, href] at hcount
    rw [Function.update_self]
    omega
  · rw [Inode.counts, if_neg hi] at hcount
    rw [Function.update_of_ne (Ne.symm hi)]
    omega

/-- One reference less. -/
theorem refs_setInode_pred (hinum : v.inum = (s.icache ip).inum)
    (href : v.ref + 1 = (s.icache ip).ref) :
    Function.update (s.setInode ip v).refs (s.icache ip).inum
      ((s.setInode ip v).refs (s.icache ip).inum + 1) = s.refs := by
  funext i
  have hcount := refs_setInode (s := s) ip v i
  by_cases hi : (s.icache ip).inum = i
  · subst hi
    rw [Inode.counts, Inode.counts, if_pos rfl, if_pos hinum] at hcount
    rw [Function.update_self]
    omega
  · rw [Inode.counts, Inode.counts, if_neg hi, if_neg (hinum ▸ hi)] at hcount
    rw [Function.update_of_ne (Ne.symm hi)]
    omega

/-! ## The files stay the same -/

/-- The disk is the same, and so are the valid copies of inodes. -/
structure SameFiles (s t : State P) : Prop where
  sb : t.sb = s.sb
  disk : t.disk = s.disk
  bufs : t.bufs = s.bufs
  copy : ∀ c, 0 < (t.icache c).ref ∧ (t.icache c).valid = true ↔
    0 < (s.icache c).ref ∧ (s.icache c).valid = true
  same : ∀ c, 0 < (s.icache c).ref → (s.icache c).valid = true →
    (t.icache c).inum = (s.icache c).inum ∧
      (t.icache c).din = (s.icache c).din ∧
      (t.icache c).locked = (s.icache c).locked
  distinct : (∀ c c', 0 < (s.icache c).ref → 0 < (s.icache c').ref →
      (s.icache c).inum = (s.icache c').inum → c = c') →
    ∀ c c', 0 < (t.icache c).ref → 0 < (t.icache c').ref →
      (t.icache c).inum = (t.icache c').inum → c = c'

namespace SameFiles

theorem refl : SameFiles s s :=
  ⟨rfl, rfl, rfl, fun _ => .rfl, fun _ _ _ => ⟨rfl, rfl, rfl⟩, id⟩

theorem traced (ht : t = { s with trace := t.trace }) : SameFiles s t := by
  rw [ht]
  exact ⟨rfl, rfl, rfl, fun _ => .rfl, fun _ _ _ => ⟨rfl, rfl, rfl⟩, id⟩

theorem trans (h : SameFiles s t) (h' : SameFiles t u) : SameFiles s u where
  sb := h'.sb.trans h.sb
  disk := h'.disk.trans h.disk
  bufs := h'.bufs.trans h.bufs
  copy c := (h'.copy c).trans (h.copy c)
  same c href hvalid := by
    obtain ⟨href', hvalid'⟩ := (h.copy c).mpr ⟨href, hvalid⟩
    obtain ⟨h₁, h₂, h₃⟩ := h.same c href hvalid
    obtain ⟨h₁', h₂', h₃'⟩ := h'.same c href' hvalid'
    exact ⟨h₁'.trans h₁, h₂'.trans h₂, h₃'.trans h₃⟩
  distinct hs := h'.distinct (h.distinct hs)

theorem cached_eq (h : SameFiles s t) : t.cached = s.cached := by
  funext i
  rw [State.cached, State.cached]
  congr 1
  funext c
  rw [decide_eq_decide]
  constructor
  · rintro ⟨href, hvalid, hinum⟩
    obtain ⟨href', hvalid'⟩ := (h.copy c).mp ⟨href, hvalid⟩
    exact ⟨href', hvalid', (h.same c href' hvalid').1.symm.trans hinum⟩
  · rintro ⟨href, hvalid, hinum⟩
    obtain ⟨href', hvalid'⟩ := (h.copy c).mpr ⟨href, hvalid⟩
    exact ⟨href', hvalid', (h.same c href hvalid).1.trans hinum⟩

theorem table_eq (h : SameFiles s t) : t.table = s.table := by
  funext i
  rw [State.table, State.table, h.cached_eq]
  cases hc : s.cached i with
  | none =>
      change inodeOf t.sb t.disk i = inodeOf s.sb s.disk i
      rw [h.sb, h.disk]
  | some c =>
      obtain ⟨href, hvalid, -⟩ := cached_some hc
      exact (h.same c href hvalid).2.1

theorem content_eq (h : SameFiles s t) : t.content = s.content := by
  funext i
  rw [State.content, State.content, h.table_eq, h.sb, h.disk]

theorem blocks_eq (h : SameFiles s t) : t.blocks = s.blocks := by
  funext i k
  rw [State.blocks, State.blocks, h.table_eq, h.sb, h.disk]

theorem lockedFile (h : SameFiles s t) (hip : LockedFile s ip) :
    LockedFile t ip := by
  obtain ⟨hinum, hdin, hlocked⟩ := h.same ip hip.ref hip.valid
  obtain ⟨href, hvalid⟩ := (h.copy ip).mpr ⟨hip.ref, hip.valid⟩
  constructor
  · constructor
    · rw [h.sb, h.disk, h.table_eq]
      exact hip.consistent.owned
    · exact h.distinct hip.consistent.distinct
  · exact href
  · rw [hlocked]
    exact hip.locked
  · exact hvalid
  · rw [hinum, h.sb]
    exact hip.lt
  · rw [hdin]
    exact hip.type
  · rw [h.bufs]
    exact hip.bufs

/-- One entry has another number of references, but neither gets its first nor
loses its last one. -/
theorem setInode (hinum : v.inum = (s.icache ip).inum)
    (hdin : v.din = (s.icache ip).din)
    (hvalid : v.valid = (s.icache ip).valid)
    (hlocked : v.locked = (s.icache ip).locked)
    (href : 0 < v.ref → 0 < (s.icache ip).ref)
    (hlast : 0 < (s.icache ip).ref → (s.icache ip).valid = true → 0 < v.ref) :
    SameFiles s { s.setInode ip v with trace := tr } := by
  have hself : (s.setInode ip v).icache ip = v := State.icache_setInode_self ..
  have hne : ∀ c ≠ ip, (s.setInode ip v).icache c = s.icache c :=
    fun c hc => State.icache_setInode_of_ne s hc v
  have hinums : ∀ c, ((s.setInode ip v).icache c).inum =
      (s.icache c).inum := by
    intro c
    by_cases hc : c = ip
    · rw [hc, hself, hinum]
    · rw [hne c hc]
  have hrefs : ∀ c, 0 < ((s.setInode ip v).icache c).ref →
      0 < (s.icache c).ref := by
    intro c
    by_cases hc : c = ip
    · rw [hc, hself]
      exact href
    · rw [hne c hc]
      exact id
  refine ⟨rfl, rfl, rfl, fun c => ?_, fun c _ _ => ⟨hinums c, ?_⟩, ?_⟩
  · change 0 < ((s.setInode ip v).icache c).ref ∧
      ((s.setInode ip v).icache c).valid = true ↔ _
    by_cases hc : c = ip
    · rw [hc, hself, hvalid]
      exact ⟨fun h => ⟨href h.1, h.2⟩, fun h => ⟨hlast h.1 h.2, h.2⟩⟩
    · rw [hne c hc]
  · change ((s.setInode ip v).icache c).din = _ ∧
      ((s.setInode ip v).icache c).locked = _
    by_cases hc : c = ip
    · rw [hc, hself]
      exact ⟨hdin, hlocked⟩
    · rw [hne c hc]
      exact ⟨rfl, rfl⟩
  · intro hs c c' hc hc' heq
    apply hs c c' (hrefs c hc) (hrefs c' hc')
    rw [← hinums c, ← hinums c']
    exact heq

/-- An entry without references is recycled. -/
theorem recycle {inum : ℕ} (hzero : (s.icache ip).ref = 0)
    (hinum : v.inum = inum) (hvalid : v.valid = false)
    (hnew : ∀ c, 0 < (s.icache c).ref → (s.icache c).inum ≠ inum) :
    SameFiles s (s.setInode ip v) := by
  have hself : (s.setInode ip v).icache ip = v := State.icache_setInode_self ..
  have hne : ∀ c ≠ ip, (s.setInode ip v).icache c = s.icache c :=
    fun c hc => State.icache_setInode_of_ne s hc v
  refine ⟨rfl, rfl, rfl, fun c => ?_, fun c hc _ => ?_, ?_⟩
  · by_cases hc : c = ip
    · subst hc
      rw [hself, hvalid, hzero]
      simp
    · rw [hne c hc]
  · have : c ≠ ip := by
      rintro rfl
      omega
    rw [hne c this]
    exact ⟨rfl, rfl, rfl⟩
  · intro hs c c' hc hc' heq
    by_cases hci : c = ip
    · by_cases hci' : c' = ip
      · rw [hci, hci']
      · subst hci
        rw [hne c' hci'] at hc' heq
        rw [hself, hinum] at heq
        exact absurd heq.symm (hnew c' hc')
    · by_cases hci' : c' = ip
      · subst hci'
        rw [hne c hci] at hc heq
        rw [hself, hinum] at heq
        exact absurd heq (hnew c hc)
      · rw [hne c hci] at hc heq
        rw [hne c' hci'] at hc' heq
        exact hs c c' hc hc' heq

end SameFiles

/-! ## Getting and putting a reference -/

/-- From `s` to `t`, the caller has got a reference to inode `inum`, in slot
`c`. -/
structure Got (inum : ℕ) (c : Slot) (s t : State P) : Prop where
  files : SameFiles s t
  refs : t.refs = Function.update s.refs inum (s.refs inum + 1)
  inum : (t.icache c).inum = inum
  pos : 0 < (t.icache c).ref
  /-- It is not the last one to a valid copy. -/
  kept : (t.icache c).valid = true → 1 < (t.icache c).ref
  locked : (t.icache c).locked = (s.icache c).locked
  others : ∀ c' ≠ c, t.icache c' = s.icache c'

/-- Reading before the reference is got changes nothing. -/
theorem Got.traced {inum : ℕ} (h : Got inum c t u)
    (ht : t = { s with trace := t.trace }) : Got inum c s u where
  files := (SameFiles.traced ht).trans h.files
  refs := by
    rw [h.refs, ht]
    rfl
  inum := h.inum
  pos := h.pos
  kept := h.kept
  locked := by
    rw [h.locked, ht]
  others c' hc' := by
    rw [h.others c' hc', ht]

theorem iget_got {E : Stop → Prop} (inum : ℕ)
    (hfull : (∀ c, 0 < (s.icache c).ref) → E (.panic "iget: no inodes")) :
    Sat (iget inum) s (fun c t => Got inum c s t) E := by
  refine (iget_sat inum hfull).imp ?_
  rintro c t (⟨href, rfl, rfl⟩ | ⟨hnew, hzero, rfl⟩)
  · refine ⟨.setInode rfl rfl rfl rfl (fun _ => href) fun _ _ =>
      Nat.succ_pos _, refs_setInode_succ rfl rfl, ?_, ?_, fun _ => ?_, ?_,
      fun c' hc' => State.icache_setInode_of_ne s hc' _⟩
    · rw [State.icache_setInode_self]
    · rw [State.icache_setInode_self]
      exact Nat.succ_pos _
    · rw [State.icache_setInode_self]
      exact Nat.succ_lt_succ href
    · rw [State.icache_setInode_self]
  · refine ⟨.recycle hzero rfl rfl hnew, refs_setInode_one hzero rfl, ?_, ?_,
      fun hvalid => ?_, ?_, fun c' hc' => State.icache_setInode_of_ne s hc' _⟩
    · rw [State.icache_setInode_self]
    · rw [State.icache_setInode_self]
      exact Nat.one_pos
    · rw [State.icache_setInode_self] at hvalid
      cases hvalid
    · rw [State.icache_setInode_self]

/-- `iput` of a reference that is not the last one to an inode without
links. -/
theorem iput_sat {E : Stop → Prop} (h : ¬((s.icache ip).ref = 1 ∧
    (s.icache ip).valid = true ∧ (s.icache ip).din.nlink = 0)) :
    Sat (iput ip) s (fun _ t => t = { s.setInode ip
      { s.icache ip with ref := (s.icache ip).ref - 1 } with
        trace := t.trace }) E := by
  refine .bind (Sat.modify (.bind (Sat.get (.bind ?_))))
  apply Sat.ite
  · intro hlast
    exact absurd hlast h
  · intro _
    exact Sat.pure (Sat.modify rfl)

/-- A reference that has just been got is put again. -/
theorem Got.iput_sat {E : Stop → Prop} {inum : ℕ} (h : Got inum c s t) :
    Sat (iput c) t (fun _ u => SameFiles s u ∧ u.refs = s.refs) E := by
  refine (Kernel.iput_sat fun hlast => ?_).imp ?_
  · have := h.kept hlast.2.1
    omega
  · rintro - u hu
    have hpos := h.pos
    refine ⟨h.files.trans ?_, ?_⟩
    · rw [hu]
      refine SameFiles.setInode rfl rfl rfl rfl (fun _ => hpos) ?_
      intro _ hvalid
      have := h.kept hvalid
      change 0 < (t.icache c).ref - 1
      omega
    · have hrefs : u.refs = (t.setInode c
          { t.icache c with ref := (t.icache c).ref - 1 }).refs := by
        rw [hu]
        rfl
      have hpred : Function.update (t.setInode c
          { t.icache c with ref := (t.icache c).ref - 1 }).refs
          (t.icache c).inum _ = t.refs :=
        refs_setInode_pred rfl (Nat.sub_add_cancel hpos)
      rw [← hrefs, h.inum, h.refs] at hpred
      funext i
      have hi := congrFun hpred i
      by_cases hin : i = inum
      · subst hin
        rw [Function.update_self, Function.update_self] at hi
        omega
      · rwa [Function.update_of_ne hin, Function.update_of_ne hin] at hi

end ZtlOs.Kernel
