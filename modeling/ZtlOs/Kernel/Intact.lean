import ZtlOs.Kernel.ByteFile
import ZtlOs.Kernel.Truncate
import ZtlOs.Kernel.Brackets
import ZtlOs.Fs.Nodes

/-!
# The volume during a call

Whenever no inode is being changed, the copies of inodes in memory are those on
disk, so that the nodes of the volume, its files and directories with their
bytes, are read off the disk.  This module says for the functions of `fs.c`
below the directories what they do to the nodes.
-/

namespace ZtlOs.Kernel

open ZtlOs.Support ZtlOs.Support.Program ZtlOs.Support.Sequence ZtlOs.Fs

variable {P : Type} {s t u : State P}

/-! ## Nodes -/

/-- The inodes on disk. -/
abbrev State.inode (s : State P) : Table :=
  inodeOf s.sb s.disk

/-- The bytes of an inode on disk. -/
def State.bytes (s : State P) (i : ℕ) : Bytes :=
  slice (contentByte s.sb s.disk s.inode i) 0 (s.inode i).size.toNat

/-- The block numbers in the slots of an inode on disk. -/
def State.lists (s : State P) (i k : ℕ) : ℕ :=
  listing s.sb s.disk s.inode i k

/-- The node of inode `i`, if it is allocated. -/
def State.node (s : State P) (i : ℕ) : Option Node :=
  if i < s.sb.ninodes ∧ (s.inode i).type ≠ 0 then
    some ⟨(s.inode i).type, (s.inode i).major, (s.inode i).minor,
      (s.inode i).nlink, s.bytes i⟩
  else none

/-- The volume is sound, the cached inodes are those on disk, and directories
name inodes that exist. -/
structure Intact (s : State P) : Prop where
  owned : Owned s.sb s.disk s.inode
  distinct : ∀ c c', 0 < (s.icache c).ref → 0 < (s.icache c').ref →
    (s.icache c).inum = (s.icache c').inum → c = c'
  inums : ∀ c, 0 < (s.icache c).ref → (s.icache c).inum < s.sb.ninodes
  synced : ∀ c, 0 < (s.icache c).ref → (s.icache c).valid = true →
    (s.icache c).din = s.inode (s.icache c).inum ∧ (s.icache c).din.type ≠ 0
  entries : ∀ i n, s.node i = some n → n.type = T_DIR →
    ∀ de ∈ dirents n.data, de.inum.toNat < s.sb.ninodes

theorem State.length_bytes (s : State P) (i : ℕ) :
    (s.bytes i).length = (s.inode i).size.toNat := by
  rw [State.bytes, length_slice]

/-- The nodes depend on the disk only. -/
theorem node_congr (hsb : t.sb = s.sb) (hdisk : t.disk = s.disk) :
    t.node = s.node := by
  funext i
  rw [State.node, State.node, State.bytes, State.bytes, State.inode,
    State.inode, hsb, hdisk]

theorem lists_congr (hsb : t.sb = s.sb) (hdisk : t.disk = s.disk) :
    t.lists = s.lists := by
  funext i k
  rw [State.lists, State.lists, State.inode, State.inode, hsb, hdisk]

theorem node_eq_some {i : ℕ} (hi : i < s.sb.ninodes)
    (ht : (s.inode i).type ≠ 0) :
    s.node i = some ⟨(s.inode i).type, (s.inode i).major, (s.inode i).minor,
      (s.inode i).nlink, s.bytes i⟩ :=
  if_pos ⟨hi, ht⟩

theorem node_eq_none {i : ℕ} :
    s.node i = none ↔ ¬(i < s.sb.ninodes ∧ (s.inode i).type ≠ 0) := by
  rw [State.node]
  split
  · next h => exact iff_of_false (Option.some_ne_none _) fun hn => hn h
  · next h => exact iff_of_true rfl h

theorem of_node_eq_some {i : ℕ} {n : Node} (h : s.node i = some n) :
    i < s.sb.ninodes ∧ (s.inode i).type ≠ 0 ∧
      n = ⟨(s.inode i).type, (s.inode i).major, (s.inode i).minor,
        (s.inode i).nlink, s.bytes i⟩ := by
  rw [State.node] at h
  split at h
  · next hc => exact ⟨hc.1, hc.2, (Option.some.inj h).symm⟩
  · cases h

namespace Intact

variable {ip : Slot}

/-- The newest inodes are those on disk. -/
theorem table_eq (h : Intact s) : s.table = s.inode := by
  funext i
  rw [State.table]
  cases hc : s.cached i with
  | none => rfl
  | some c =>
      obtain ⟨href, hvalid, rfl⟩ := cached_some hc
      exact (h.synced c href hvalid).1

theorem consistent (h : Intact s) : Consistent s where
  owned := by
    rw [h.table_eq]
    exact h.owned
  distinct := h.distinct

theorem content_eq (h : Intact s) : s.content = s.bytes := by
  funext i
  rw [State.content, State.bytes, h.table_eq]

theorem ready (h : Intact s) (href : 0 < (s.icache ip).ref)
    (hvalid : (s.icache ip).valid = true) (hbufs : s.bufs = []) :
    Ready s.inode (s.icache ip).inum ip s where
  owned := h.owned
  inum := rfl
  newest := (h.synced ip href hvalid).1
  lt := h.inums ip href
  type := by
    rw [← (h.synced ip href hvalid).1]
    exact (h.synced ip href hvalid).2
  bufs := hbufs

/-- What a valid copy says about its node. -/
theorem node_valid (h : Intact s) (href : 0 < (s.icache ip).ref)
    (hvalid : (s.icache ip).valid = true) :
    s.node (s.icache ip).inum = some ⟨(s.icache ip).din.type,
      (s.icache ip).din.major, (s.icache ip).din.minor,
      (s.icache ip).din.nlink, s.bytes (s.icache ip).inum⟩ := by
  obtain ⟨hdin, htype⟩ := h.synced ip href hvalid
  rw [hdin] at htype
  rw [node_eq_some (h.inums ip href) htype, hdin]

/-- Nothing changes on disk, and the cache still agrees with it. -/
theorem congr (h : Intact s) (hsb : t.sb = s.sb) (hdisk : t.disk = s.disk)
    (hdistinct : ∀ c c', 0 < (t.icache c).ref → 0 < (t.icache c').ref →
      (t.icache c).inum = (t.icache c').inum → c = c')
    (hinums : ∀ c, 0 < (t.icache c).ref → (t.icache c).inum < s.sb.ninodes)
    (hsynced : ∀ c, 0 < (t.icache c).ref → (t.icache c).valid = true →
      (t.icache c).din = s.inode (t.icache c).inum ∧
        (t.icache c).din.type ≠ 0) : Intact t where
  owned := by
    rw [State.inode, hsb, hdisk]
    exact h.owned
  distinct := hdistinct
  inums := by
    rw [hsb]
    exact hinums
  synced := by
    rw [State.inode, hsb, hdisk]
    exact hsynced
  entries := by
    rw [node_congr hsb hdisk, hsb]
    exact h.entries

/-- A change of one entry of the cache that keeps its inode. -/
theorem setInode (h : Intact s) {v : Inode} {tr : List Event}
    (hinum : v.inum = (s.icache ip).inum)
    (href : 0 < v.ref → 0 < (s.icache ip).ref)
    (hvalid : 0 < v.ref → v.valid = true →
      v.din = s.inode (s.icache ip).inum ∧ v.din.type ≠ 0) :
    Intact { s.setInode ip v with trace := tr } := by
  have hself : (s.setInode ip v).icache ip = v := State.icache_setInode_self ..
  have hne : ∀ c ≠ ip, (s.setInode ip v).icache c = s.icache c :=
    fun c hc => State.icache_setInode_of_ne s hc v
  have hsame : ∀ c, 0 < ((s.setInode ip v).icache c).ref →
      0 < (s.icache c).ref ∧
        ((s.setInode ip v).icache c).inum = (s.icache c).inum := by
    intro c hc
    by_cases hcip : c = ip
    · subst hcip
      rw [hself] at hc ⊢
      exact ⟨href hc, hinum⟩
    · rw [hne c hcip] at hc ⊢
      exact ⟨hc, rfl⟩
  refine h.congr rfl rfl ?_ ?_ ?_
  · intro c c' hc hc' heq
    have h₁ := hsame c hc
    have h₂ := hsame c' hc'
    rw [show (({ s.setInode ip v with trace := tr } : State P).icache c).inum =
      (s.icache c).inum from h₁.2, show (({ s.setInode ip v with
        trace := tr } : State P).icache c').inum = (s.icache c').inum
        from h₂.2] at heq
    exact h.distinct c c' h₁.1 h₂.1 heq
  · intro c hc
    have h₁ := hsame c hc
    rw [show (({ s.setInode ip v with trace := tr } : State P).icache c).inum =
      (s.icache c).inum from h₁.2]
    exact h.inums c h₁.1
  · intro c hc hv
    change ((s.setInode ip v).icache c).din =
      s.inode ((s.setInode ip v).icache c).inum ∧
      ((s.setInode ip v).icache c).din.type ≠ 0
    change 0 < ((s.setInode ip v).icache c).ref at hc
    change ((s.setInode ip v).icache c).valid = true at hv
    by_cases hcip : c = ip
    · subst hcip
      rw [hself] at hc hv ⊢
      rw [hinum]
      exact hvalid hc hv
    · rw [hne c hcip] at hc hv ⊢
      exact h.synced c hc hv

end Intact

/-! ## What a part of a call does -/

/-- The call holds `k`, but no buffer, and the volume is intact. -/
structure World (s : State P) (k : Ctx P) : Prop where
  holds : Holds s k
  intact : Intact s
  bufs : s.bufs = []

/-- What stays as it is as long as the references in `k` are held. -/
structure Frame (k : Ctx P) (s t : State P) : Prop where
  sb : t.sb = s.sb
  inum : ∀ c ∈ k.refs, (t.icache c).inum = (s.icache c).inum
  valid : ∀ c ∈ k.refs, (s.icache c).valid = true →
    (t.icache c).valid = true
  /-- No block is taken away. -/
  lists : ∀ c ∈ k.refs, ∀ j, s.lists (s.icache c).inum j ≠ 0 →
    t.lists (s.icache c).inum j = s.lists (s.icache c).inum j

/-- The nodes that are not there afterwards had no links, and no reference in
`k`; the others are as they were. -/
def Frees (k : Ctx P) (s t : State P) : Prop :=
  ∀ i, t.node i = s.node i ∨ t.node i = none ∧
    ∃ n, s.node i = some n ∧ n.nlink = 0 ∧
      ∀ c ∈ k.refs, (s.icache c).inum ≠ i

/-- The part of a call ends with `k'`, and only nodes without links have been
freed. -/
structure Calm (k k' : Ctx P) (s t : State P) : Prop where
  world : World t k'
  frame : Frame k s t
  frees : Frees k s t
  /-- No block is given to an inode. -/
  fewer : ∀ i j, t.lists i j ≠ 0 → t.lists i j = s.lists i j

section Calm

variable {k k' k₂ k₃ : Ctx P} {ip : Slot}

theorem Frame.refl : Frame k s s :=
  ⟨rfl, fun _ _ => rfl, fun _ _ h => h, fun _ _ _ _ => rfl⟩

theorem Frame.trans (h : Frame k s t) (h' : Frame k t u) : Frame k s u where
  sb := h'.sb.trans h.sb
  inum := fun c hc => (h'.inum c hc).trans (h.inum c hc)
  valid := fun c hc hv => h'.valid c hc (h.valid c hc hv)
  lists := fun c hc j hj => by
    have hfirst := h.lists c hc j hj
    have hsecond := h'.lists c hc j
    rw [h.inum c hc, hfirst] at hsecond
    exact hsecond hj

theorem Frame.mono (h : Frame k s t) (hk : ∀ c ∈ k'.refs, c ∈ k.refs) :
    Frame k' s t :=
  ⟨h.sb, fun c hc => h.inum c (hk c hc), fun c hc => h.valid c (hk c hc),
    fun c hc => h.lists c (hk c hc)⟩

theorem Frees.of_eq (h : t.node = s.node) : Frees k s t :=
  fun i => .inl (congrFun h i)

theorem Frees.trans (h : Frees k s t) (h' : Frees k t u)
    (hf : Frame k s t) : Frees k s u := by
  intro i
  rcases h' i with heq | ⟨hnone, n, hn, hlink, href⟩
  · rw [heq]
    exact h i
  · rcases h i with heq | ⟨hnone', -⟩
    · refine .inr ⟨hnone, n, heq ▸ hn, hlink, fun c hc => ?_⟩
      rw [← hf.inum c hc]
      exact href c hc
    · rw [hnone'] at hn
      cases hn

theorem Frees.mono (h : Frees k s t) (hk : ∀ c ∈ k'.refs, c ∈ k.refs) :
    Frees k' s t := by
  intro i
  refine (h i).imp_right ?_
  rintro ⟨hnone, n, hn, hlink, href⟩
  exact ⟨hnone, n, hn, hlink, fun c hc => href c (hk c hc)⟩

theorem Calm.trans (h : Calm k k₂ s t) (h' : Calm k k₃ t u) :
    Calm k k₃ s u where
  world := h'.world
  frame := h.frame.trans h'.frame
  frees := h.frees.trans h'.frees h.frame
  fewer i j hne := by
    have heq := h'.fewer i j hne
    rw [heq] at hne ⊢
    exact h.fewer i j hne

theorem Calm.mono (h : Calm k k₂ s t) (hk : ∀ c ∈ k'.refs, c ∈ k.refs) :
    Calm k' k₂ s t :=
  ⟨h.world, h.frame.mono hk, h.frees.mono hk, h.fewer⟩

theorem World.refl (h : World s k) : Calm k k s s :=
  ⟨h, .refl, .of_eq rfl, fun _ _ _ => rfl⟩

theorem World.ref_pos (h : World s k) (hip : ip ∈ k.refs) :
    0 < (s.icache ip).ref := by
  rw [h.holds.ref]
  exact Multiset.count_pos.mpr hip

/-- The part of a call ends with `k'`, and no node has changed. -/
structure Still (k k' : Ctx P) (s t : State P) : Prop where
  world : World t k'
  frame : Frame k s t
  node : t.node = s.node
  lists : t.lists = s.lists

theorem Still.calm (h : Still k k' s t) : Calm k k' s t :=
  ⟨h.world, h.frame, .of_eq h.node, fun _ _ _ => by rw [h.lists]⟩

theorem Still.refl (h : World s k) : Still k k s s :=
  ⟨h, .refl, rfl, rfl⟩

theorem Still.trans (h : Still k k₂ s t) (h' : Still k k₃ t u) :
    Still k k₃ s u :=
  ⟨h'.world, h.frame.trans h'.frame, h'.node.trans h.node,
    h'.lists.trans h.lists⟩

theorem Still.mono (h : Still k k₂ s t) (hk : ∀ c ∈ k'.refs, c ∈ k.refs) :
    Still k' k₂ s t :=
  ⟨h.world, h.frame.mono hk, h.node, h.lists⟩

/-- Nothing but the trace has changed. -/
theorem World.traced (h : World s k) (hholds : Holds t k')
    (ht : t = { s with trace := t.trace }) : Still k k' s t := by
  have hsb : t.sb = s.sb := by rw [ht]
  have hdisk : t.disk = s.disk := by rw [ht]
  have hcache : t.icache = s.icache := by rw [ht]
  refine ⟨⟨hholds, h.intact.congr hsb hdisk ?_ ?_ ?_, ?_⟩,
    ⟨hsb, fun c _ => ?_, fun c _ hv => ?_, fun c _ j _ => ?_⟩,
    node_congr hsb hdisk, lists_congr hsb hdisk⟩
  · rw [hcache]
    exact h.intact.distinct
  · rw [hcache]
    exact h.intact.inums
  · rw [hcache]
    exact h.intact.synced
  · rw [ht]
    exact h.bufs
  · rw [hcache]
  · rwa [hcache]
  · rw [lists_congr hsb hdisk]

/-- One entry of the cache has changed. -/
theorem World.setInode {v : Inode} {tr : List Event} (h : World s k)
    (hholds : Holds t k') (ht : t = { s.setInode ip v with trace := tr })
    (hinum : v.inum = (s.icache ip).inum)
    (href : 0 < v.ref → 0 < (s.icache ip).ref)
    (hold : (s.icache ip).valid = true → v.valid = true)
    (hvalid : 0 < v.ref → v.valid = true →
      v.din = s.inode (s.icache ip).inum ∧ v.din.type ≠ 0) :
    Still k k' s t := by
  subst ht
  have hself : (s.setInode ip v).icache ip = v := State.icache_setInode_self ..
  have hne : ∀ c ≠ ip, (s.setInode ip v).icache c = s.icache c :=
    fun c hc => State.icache_setInode_of_ne s hc v
  refine ⟨⟨hholds, h.intact.setInode hinum href hvalid, h.bufs⟩, ?_,
    node_congr rfl rfl, lists_congr rfl rfl⟩
  refine ⟨rfl, fun c _ => ?_, fun c _ hv => ?_, fun c _ j _ => ?_⟩
  · change ((s.setInode ip v).icache c).inum = _
    by_cases hc : c = ip
    · rw [hc, hself, hinum]
    · rw [hne c hc]
  · change ((s.setInode ip v).icache c).valid = true
    by_cases hc : c = ip
    · rw [hc] at hv ⊢
      rw [hself]
      exact hold hv
    · rwa [hne c hc]
  · exact congrFun (congrFun (lists_congr rfl rfl) _) j

end Calm

/-! ## Locks and references -/

section Locks

variable {k : Ctx P} {ip : Slot}

/-- `ilock` makes the copy valid. -/
theorem ilock_still (h : World s k) (hip : ip ∈ k.refs) :
    Sat (ilock ip) s (fun _ t => Still k (k.lock ip) s t ∧
      (t.icache ip).valid = true) fun _ => True := by
  have href := h.ref_pos hip
  have hnew : s.newest ip = s.inode (s.icache ip).inum := by
    rw [State.newest]
    split
    · next hv => exact (h.intact.synced ip href hv).1
    · rfl
  refine (((ilock_moves ip).sat s h.holds).and (ilock_sat
    (E := fun _ => True) ip (fun _ => trivial) (fun _ => trivial)
    (fun _ => trivial) fun _ _ => trivial)).mono ?_ fun _ _ => trivial
  rintro - t ⟨hholds, -, ht, htype⟩
  refine ⟨h.setInode hholds ht rfl id (fun _ => rfl) fun _ _ => ⟨hnew, ?_⟩, ?_⟩
  · by_cases hv : (s.icache ip).valid = true
    · have hdin := h.intact.synced ip href hv
      change (s.newest ip).type ≠ 0
      rw [hnew, ← hdin.1]
      exact hdin.2
    · exact htype (Bool.eq_false_of_not_eq_true hv)
  · rw [ht]
    exact congrArg Inode.valid (State.icache_setInode_self ..)

theorem iunlock_still (h : World s (k.lock ip)) :
    Sat (iunlock ip) s (fun _ t => Still k k s t) fun _ => True := by
  have hsat : Sat (iunlock ip) s (fun _ t => ∃ tr,
      t = { s.setInode ip { s.icache ip with locked := false } with
        trace := tr }) fun _ => True := by
    refine .bind (Sat.get ?_)
    apply Sat.ite
    · intro _
      exact Sat.throw trivial
    · intro _
      exact Sat.set ⟨_, rfl⟩
  refine ((iunlock_moves ip).also h.holds hsat).imp ?_
  rintro - t ⟨hholds, tr, ht⟩
  have hstill := h.setInode hholds ht rfl id id fun href hv =>
    h.intact.synced ip href hv
  exact hstill.mono fun _ hc => hc

theorem idup_still (h : World s k) (hip : ip ∈ k.refs) :
    Sat (idup ip) s (fun c t => c = ip ∧ Still k (k.hold ip) s t)
      fun _ => True := by
  have hsat : Sat (idup ip) s (fun c t => c = ip ∧
      t = s.setInode ip { s.icache ip with ref := (s.icache ip).ref + 1 })
      fun _ => True := .bind (Sat.modify (Sat.pure ⟨rfl, rfl⟩))
  refine ((idup_moves ip).also h.holds hsat).imp ?_
  rintro c t ⟨hholds, rfl, ht⟩
  have href := h.ref_pos hip
  exact ⟨rfl, h.setInode hholds ht rfl (fun _ => href) id fun _ hv =>
    h.intact.synced c href hv⟩

/-- What `iget` does with the cache. -/
theorem iget_sat {E : Stop → Prop} (inum : ℕ)
    (hfull : (∀ c, 0 < (s.icache c).ref) → E (.panic "iget: no inodes")) :
    Sat (iget inum) s (fun c t =>
      (0 < (s.icache c).ref ∧ (s.icache c).inum = inum ∧
        t = s.setInode c { s.icache c with ref := (s.icache c).ref + 1 }) ∨
      ((∀ c', 0 < (s.icache c').ref → (s.icache c').inum ≠ inum) ∧
        (s.icache c).ref = 0 ∧ t = s.setInode c
          { s.icache c with inum := inum, ref := 1, valid := false })) E := by
  refine .bind (Sat.get ?_)
  split
  · next c hfind =>
      have hfound := List.find?_some hfind
      have hmatch : 0 < (s.icache c).ref ∧ (s.icache c).inum = inum :=
        of_decide_eq_true hfound
      exact .bind (Sat.set (Sat.pure (.inl ⟨hmatch.1, hmatch.2, rfl⟩)))
  · next hnone =>
      have hnew : ∀ c', 0 < (s.icache c').ref →
          (s.icache c').inum ≠ inum := by
        intro c' href heq
        have := List.find?_eq_none.mp hnone c' (List.mem_finRange c')
        exact this (decide_eq_true ⟨href, heq⟩)
      split
      · next hused =>
          refine Sat.throw (hfull fun c => Nat.pos_of_ne_zero fun hzero => ?_)
          have := List.find?_eq_none.mp hused c (List.mem_finRange c)
          exact this (decide_eq_true hzero)
      · next c hfind =>
          have hfound := List.find?_some hfind
          have hzero : (s.icache c).ref = 0 := of_decide_eq_true hfound
          exact .bind (Sat.set (Sat.pure (.inr ⟨hnew, hzero, rfl⟩)))

/-- A recycled entry. -/
theorem Intact.recycle {inum : ℕ} (h : Intact s) (hi : inum < s.sb.ninodes)
    (hnew : ∀ c', 0 < (s.icache c').ref → (s.icache c').inum ≠ inum) :
    Intact (s.setInode ip { s.icache ip with
      inum := inum, ref := 1, valid := false }) := by
  have hne : ∀ v, ∀ c ≠ ip, (s.setInode ip v).icache c = s.icache c :=
    fun v c hc => State.icache_setInode_of_ne s hc v
  refine h.congr rfl rfl ?_ ?_ ?_
  · intro c c' hc hc' heq
    by_cases hci : c = ip
    · by_cases hci' : c' = ip
      · rw [hci, hci']
      · subst hci
        rw [hne _ c' hci'] at hc' heq
        rw [State.icache_setInode_self] at heq
        exact absurd heq.symm (hnew c' hc')
    · by_cases hci' : c' = ip
      · subst hci'
        rw [hne _ c hci] at hc heq
        rw [State.icache_setInode_self] at heq
        exact absurd heq (hnew c hc)
      · rw [hne _ c hci] at hc heq
        rw [hne _ c' hci'] at hc' heq
        exact h.distinct c c' hc hc' heq
  · intro c hc
    by_cases hci : c = ip
    · rw [hci, State.icache_setInode_self]
      exact hi
    · rw [hne _ c hci] at hc ⊢
      exact h.inums c hc
  · intro c hc hv
    by_cases hci : c = ip
    · rw [hci, State.icache_setInode_self] at hv
      cases hv
    · rw [hne _ c hci] at hc hv ⊢
      exact h.synced c hc hv

/-- `iget` finds the entry of an inode, or recycles one without references. -/
theorem iget_still {inum : ℕ} (h : World s k) (hi : inum < s.sb.ninodes) :
    Sat (iget inum) s (fun c t => Still k (k.hold c) s t ∧
      (t.icache c).inum = inum) fun _ => True := by
  refine (((iget_moves inum).sat s h.holds).and (iget_sat
    (E := fun _ => True) inum fun _ => trivial)).mono ?_
    fun _ _ => trivial
  rintro c t ⟨hholds, ⟨href, hinum, rfl⟩ | ⟨hnew, hzero, rfl⟩⟩
  · refine ⟨h.setInode hholds rfl rfl (fun _ => href) id fun _ hv =>
      h.intact.synced c href hv, ?_⟩
    rw [State.icache_setInode_self]
    exact hinum
  · have hmem : ∀ c' ∈ k.refs, c' ≠ c := by
      rintro c' hc' rfl
      have := h.ref_pos hc'
      omega
    refine ⟨⟨⟨hholds, h.intact.recycle hi hnew, h.bufs⟩, ?_,
      node_congr rfl rfl, lists_congr rfl rfl⟩, ?_⟩
    · refine ⟨rfl, fun c' hc' => ?_, fun c' hc' hv => ?_, fun c' _ j _ => ?_⟩
      · rw [State.icache_setInode_of_ne s (hmem c' hc')]
      · rwa [State.icache_setInode_of_ne s (hmem c' hc')]
      · exact congrFun (congrFun (lists_congr rfl rfl) _) j
    · rw [State.icache_setInode_self]

end Locks

end ZtlOs.Kernel
