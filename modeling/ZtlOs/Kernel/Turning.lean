import ZtlOs.Kernel.Edits
import ZtlOs.Kernel.Keeping
import ZtlOs.Kernel.WriteCost

/-!
# What a part of a call does, exactly

A part of a call changes the nodes in one known way and passes known blocks to
`log_write`.  As long as every node without links is referred to by somebody
else, putting a reference frees nothing.
-/

namespace ZtlOs.Kernel

open ZtlOs.Support ZtlOs.Support.Program ZtlOs.Support.Bindings ZtlOs.Fs

variable {P : Type} {s t u : State P} {k k' k₂ k₃ : Ctx P} {ip dp c : Slot}
variable {i j d : ℕ} {n n' m : Node} {name : Bytes}

/-! ## Turns -/

/-- Some blocks of every volume. -/
abbrev BlockSet := Superblock → Finset ℕ

def inodeBlock (i : ℕ) : BlockSet :=
  fun sb => {IBLOCK i sb}

def bitmapBlock : BlockSet :=
  fun sb => {sb.bmapstart}

/-- The part of a call ends with `k'`; it has changed the nodes by `φ`, and
passed to `log_write` only blocks of `B`, if the bitmap is one block. -/
structure Turns (k k' : Ctx P) (φ : Nodes → Nodes) (B : BlockSet)
    (s t : State P) : Prop where
  world : World t k'
  frame : Frame k s t
  node : t.node = φ s.node
  logs : s.sb.size ≤ BPB → t.logs ⊆ s.logs ∪ B s.sb
  brackets : t.brackets = s.brackets

/-- No node changes, and nothing is logged. -/
abbrev Quiet (k k' : Ctx P) (s t : State P) : Prop :=
  Turns k k' id ⊥ s t

namespace Turns

variable {φ ψ : Nodes → Nodes} {B B' C : BlockSet}

theorem of_still (h : Still k k' s t) (hlog : t.logging = s.logging) :
    Quiet k k' s t where
  world := h.world
  frame := h.frame
  node := h.node
  logs _ := by
    rw [(State.logging_eq.mp hlog).1]
    exact Finset.subset_union_left
  brackets := (State.logging_eq.mp hlog).2

theorem refl (h : World s k) : Quiet k k s s :=
  .of_still (.refl h) rfl

theorem mono (h : Turns k k₂ φ B s t) (hk : ∀ c ∈ k'.refs, c ∈ k.refs) :
    Turns k' k₂ φ B s t :=
  ⟨h.world, h.frame.mono hk, h.node, h.logs, h.brackets⟩

/-- Less can be said about the blocks. -/
theorem widen (h : Turns k k' φ B s t) (hB : ∀ sb, B sb ⊆ C sb) :
    Turns k k' φ C s t :=
  ⟨h.world, h.frame, h.node, fun hsize => (h.logs hsize).trans
    (Finset.union_subset_union_right (hB _)), h.brackets⟩

/-- The rest of a call may refer to more. -/
theorem trans (h : Turns k k₂ φ B s t) (h' : Turns k' k₃ ψ B' t u)
    (hk : ∀ c ∈ k.refs, c ∈ k'.refs) : Turns k k₃ (ψ ∘ φ) (B ⊔ B') s u where
  world := h'.world
  frame := h.frame.trans (h'.frame.mono hk)
  node := by rw [h'.node, h.node, Function.comp_apply]
  logs hsize := by
    have hlogs := h'.logs (h.frame.sb ▸ hsize)
    rw [h.frame.sb] at hlogs
    refine hlogs.trans ?_
    rw [Pi.sup_apply, Finset.sup_eq_union, ← Finset.union_assoc]
    exact Finset.union_subset_union_left (h.logs hsize)
  brackets := h'.brackets.trans h.brackets

/-- A quiet part comes first. -/
theorem after (h' : Turns k' k₃ φ B t u) (h : Quiet k k₂ s t)
    (hk : ∀ c ∈ k.refs, c ∈ k'.refs) : Turns k k₃ φ B s u := by
  have := h.trans h' hk
  rwa [bot_sup_eq] at this

/-- A quiet part follows. -/
theorem quiet (h : Turns k k₂ φ B s t) (h' : Quiet k' k₃ t u)
    (hk : ∀ c ∈ k.refs, c ∈ k'.refs) : Turns k k₃ φ B s u := by
  have := h.trans h' hk
  rwa [sup_bot_eq] at this

end Turns

theorem Changed.turns {B : BlockSet} (h : Changed k k' i n' s t)
    (hlogs : s.sb.size ≤ BPB → t.logs ⊆ s.logs ∪ B s.sb)
    (hold : t.brackets = s.brackets) {φ : Nodes → Nodes}
    (hφ : φ s.node = Function.update s.node i (some n')) :
    Turns k k' φ B s t :=
  ⟨h.world, h.frame, h.node.trans hφ.symm, hlogs, hold⟩

theorem Loaded.turned {φ : Nodes → Nodes} {B : BlockSet}
    (h : Loaded s k ip i n) (ht : Turns k' k₂ φ B s t)
    (hk' : ip ∈ k'.refs) (hk₂ : ip ∈ k₂.refs) (hn : φ s.node i = some n') :
    Loaded t k₂ ip i n' where
  world := ht.world
  mem := hk₂
  inum := (ht.frame.inum ip hk').trans h.inum
  valid := ht.frame.valid ip hk' h.valid
  node := by rw [ht.node, hn]

/-- A loaded node after a quiet part. -/
theorem Loaded.quiet (h : Loaded s k ip i n) (ht : Quiet k' k₂ s t)
    (hk' : ip ∈ k'.refs) (hk₂ : ip ∈ k₂.refs) : Loaded t k₂ ip i n :=
  h.turned ht hk' hk₂ h.node

/-- Two locked inodes are different ones. -/
theorem Loaded.ne (h : Loaded s ((k.own dp).own ip) ip i n)
    (h' : Loaded s ((k.own dp).own ip) dp d m) : i ≠ d := by
  intro heq
  have hslot := h.world.intact.distinct ip dp (h.world.ref_pos h.mem)
    (h.world.ref_pos h'.mem) (by rw [h.inum, h'.inum, heq])
  have hnodup : (ip ::ₘ dp ::ₘ k.locks).Nodup := h.world.holds.nodup
  rw [Multiset.nodup_cons] at hnodup
  exact hnodup.1 (hslot ▸ Multiset.mem_cons_self dp k.locks)

/-! ## Who refers to an inode -/

/-- The inodes that `k` refers to. -/
def Ctx.held (k : Ctx P) (s : State P) : Set ℕ :=
  {i | ∃ c ∈ k.refs, (s.icache c).inum = i}

/-- The inodes that `k` refers to through a valid copy. -/
def Ctx.anchors (k : Ctx P) (s : State P) : Set ℕ :=
  {i | ∃ c ∈ k.refs, (s.icache c).inum = i ∧ (s.icache c).valid = true}

theorem Ctx.anchors_subset (k : Ctx P) (s : State P) : k.anchors s ⊆ k.held s :=
  fun _ ⟨c, hc, hinum, _⟩ => ⟨c, hc, hinum⟩

theorem Frame.held_eq (h : Frame k s t) : k.held t = k.held s := by
  ext i
  refine exists_congr fun c => and_congr_right fun hc => ?_
  rw [h.inum c hc]

theorem Frame.anchors_subset (h : Frame k s t) : k.anchors s ⊆ k.anchors t :=
  fun _ ⟨c, hc, hinum, hv⟩ =>
    ⟨c, hc, (h.inum c hc).trans hinum, h.valid c hc hv⟩

theorem Ctx.held_mono (hk : ∀ c ∈ k.refs, c ∈ k'.refs) :
    k.held s ⊆ k'.held s :=
  fun _ ⟨c, hc, hinum⟩ => ⟨c, hk c hc, hinum⟩

theorem Ctx.anchors_mono (hk : ∀ c ∈ k.refs, c ∈ k'.refs) :
    k.anchors s ⊆ k'.anchors s :=
  fun _ ⟨c, hc, hinum⟩ => ⟨c, hk c hc, hinum⟩

theorem Loaded.mem_anchors (h : Loaded s k ip i n) : i ∈ k.anchors s :=
  ⟨ip, h.mem, h.inum, h.valid⟩

/-- What is anchored stays so while nothing changes. -/
theorem Turns.anchored (h : Quiet k k' s t)
    (ha : Anchored (k.anchors s) s.node) :
    Anchored (k.anchors t) t.node := by
  rw [h.node]
  exact ha.mono h.frame.anchors_subset

/-! ## Steps that log nothing -/

theorem iget_logging (inum : ℕ) :
    Keeps State.logging (iget (P := P) inum) := by
  apply Keeps.bind_get
  intro s
  split
  · exact .bind (Sat.set (Sat.pure rfl))
  · split
    · exact Sat.throw trivial
    · exact .bind (Sat.set (Sat.pure rfl))

theorem idup_logging (ip : Slot) : Keeps State.logging (idup (P := P) ip) := by
  apply Keeps.bind
  · exact Keeps.modify fun _ => rfl
  · intro _
    exact Keeps.pure _ _

theorem receive_logging : Keeps State.logging (receive (P := P)) := by
  apply Keeps.bind_get
  intro s
  split
  · exact Sat.pure rfl
  · exact .bind (Sat.set (Sat.pure rfl))

theorem ilock_own_turns (h : World s (k.hold ip)) :
    Sat (ilock ip) s (fun _ t => Quiet (k.hold ip) (k.own ip) s t ∧
      ∃ n, Loaded t (k.own ip) ip (s.icache ip).inum n) fun _ => True := by
  refine ((ilock_logging ip).also (ilock_own h)).imp ?_
  rintro _ t ⟨hlog, ht, hn⟩
  exact ⟨.of_still ht hlog, hn⟩

theorem iunlock_turns (h : World s (k.lock ip)) :
    Sat (iunlock ip) s (fun _ t => Quiet k k s t) fun _ => True :=
  ((iunlock_logging ip).also (iunlock_still h)).imp
    fun _ _ ht => .of_still ht.2 ht.1

theorem idup_turns (h : World s k) (hip : ip ∈ k.refs) :
    Sat (idup ip) s (fun c t => c = ip ∧ Quiet k (k.hold ip) s t)
      fun _ => True :=
  ((idup_logging ip).also (idup_still h hip)).imp
    fun _ _ ht => ⟨ht.2.1, .of_still ht.2.2 ht.1⟩

theorem iget_turns {inum : ℕ} (h : World s k) (hi : inum < s.sb.ninodes) :
    Sat (iget inum) s (fun c t => Quiet k (k.hold c) s t ∧
      (t.icache c).inum = inum) fun _ => True :=
  ((iget_logging inum).also (iget_still h hi)).imp
    fun _ _ ht => ⟨.of_still ht.2.1 ht.1, ht.2.2⟩

/-! ### Reading an inode -/

theorem brelse_logging (b : ℕ) : Keeps State.logging (brelse (P := P) b) :=
  Keeps.modify fun _ => rfl

theorem readLoop_brackets (ip : Slot) (fuel off m : ℕ) :
    Keeps State.brackets (readLoop (P := P) ip fuel off m) := by
  induction fuel generalizing off m with
  | zero => exact Keeps.pure _ _
  | succ fuel ih =>
      apply Keeps.ite
      · intro _
        exact Keeps.pure _ _
      · intro _
        apply (bmap_brackets ip _).bind
        intro b
        apply (bread_brackets b).bind
        intro bp
        apply (brelse_brackets b).bind
        intro _
        apply (ih _ _).bind
        intro rest
        exact Keeps.pure _ _

theorem readi_brackets (ip : Slot) (off m : ℕ) :
    Keeps State.brackets (readi (P := P) ip off m) := by
  apply (getDin_brackets ip).bind
  intro d
  apply Keeps.ite
  · intro _
    apply Keeps.ite
    · intro _
      apply (brackets_of_logging (iunlock_logging ip)).bind
      intro _
      apply Keeps.bind
      · apply Keeps.ite
        · intro _
          exact brackets_of_logging receive_logging
        · intro _
          exact Keeps.pure _ _
      · intro r
        apply (brackets_of_logging (ilock_logging ip)).bind
        intro _
        exact Keeps.pure _ _
    · intro _
      exact Keeps.pure _ _
  intro _
  apply Keeps.ite
  · intro _
    exact Keeps.pure _ _
  · intro _
    apply (readLoop_brackets ip _ _ _).bind
    intro bytes
    exact Keeps.pure _ _

/-- Reading an inode that is no device logs nothing. -/
theorem readi_turns (off l : ℕ) (h : Loaded s k ip i n)
    (hdev : n.type ≠ T_DEV) :
    Sat (readi ip off l) s (fun r t => r = n.fetched off l ∧ Quiet k k s t)
      fun _ => True := by
  have hready := h.ready
  have hdin := h.type_eq
  have hmap : Mapped s.disk (s.icache ip).din := by
    apply hready.mapped
    rw [← hready.newest, hdin]
    exact hdev
  have hlogs : Sat (readi ip off l) s (fun _ t => t.logs = s.logs)
      fun _ => True := by
    refine (readi_mapped (E := fun _ => True) rfl (by
      rw [hdin]
      exact hdev) hmap fun _ => trivial).imp ?_
    exact fun _ _ ht => ht.2.logged
  refine ((readi_brackets ip off l).also
    ((readi_still off l h hdev).both hlogs)).imp ?_
  rintro r t ⟨hold, ⟨hr, ht⟩, hlog⟩
  exact ⟨hr, .of_still ht (State.logging_eq.mpr ⟨hlog, hold⟩)⟩

/-! ### Looking up a name -/

theorem readDirent_turns (message : String) (h : Loaded s k dp i n)
    (hdev : n.type ≠ T_DEV) :
    Sat (readDirent message dp (Dirent.size * j)) s (fun de t =>
      Quiet k k s t ∧ Dirent.size * j + Dirent.size ≤ n.data.length ∧
        de = direntAt n.data j) fun _ => True := by
  have hquiet : Sat (readDirent message dp (Dirent.size * j)) s
      (fun _ t => Quiet k k s t) fun _ => True := by
    refine (readi_turns _ _ h hdev).andThen fun r t ht => ?_
    split
    · exact Sat.throw trivial
    · apply Sat.ite
      · intro _
        exact Sat.pure ht.2
      · intro _
        exact Sat.throw trivial
  refine (hquiet.both (readDirent_still (j := j) message h hdev)).imp ?_
  rintro de t ⟨ht, -, hde⟩
  exact ⟨ht, hde⟩

/-- What a search for a name finds in a directory: the first binding. -/
def Finds (k : Ctx P) (n : Node) (name : Bytes) (r : Option (Slot × ℕ))
    (s t : State P) : Prop :=
  match r with
  | none => Quiet k k s t ∧
      lookup (bindings n.data) (cutName name) = none
  | some (c, off) => ∃ j v, off = Dirent.size * j ∧
      Binds (bindings n.data) j (cutName name) v ∧
      lookup (bindings n.data) (cutName name) = some v ∧
      Quiet k (k.hold c) s t ∧ (t.icache c).inum = v

theorem Finds.after {r : Option (Slot × ℕ)} (h' : Finds k n name r t u)
    (h : Quiet k k s t) : Finds k n name r s u := by
  unfold Finds at h' ⊢
  split
  · exact ⟨h'.1.after h fun _ hc => hc, h'.2⟩
  · obtain ⟨j, v, hoff, hb, hl, hu, hinum⟩ := h'
    exact ⟨j, v, hoff, hb, hl, hu.after h fun _ hc => hc, hinum⟩

theorem dirlookupLoop_finds (name : Bytes) (l b : ℕ) (h : Loaded s k dp i n)
    (hdir : n.type = T_DIR)
    (hend : b + l = (n.data.length + (Dirent.size - 1)) / Dirent.size)
    (hbefore : ∀ j < b, ∀ v, ¬Binds (bindings n.data) j (cutName name) v) :
    Sat (dirlookupLoop dp name ((List.range' b l).map (Dirent.size * ·))) s
      (fun r t => Finds k n name r s t) fun _ => True := by
  induction l generalizing b s with
  | zero =>
      refine Sat.pure ⟨.refl h.world, lookup_eq_none.mpr fun j v hb => ?_⟩
      have hj := List.mem_range.mp (mem_slotRange hb)
      exact hbefore j (by omega) v hb
  | succ l ih =>
      have hdev : n.type ≠ T_DEV := by
        rw [hdir]
        decide
      refine (readDirent_turns (j := b) _ h hdev).andThen ?_
      rintro _ t ⟨ht, hin, rfl⟩
      have hentry := getElem?_bindings_of_le hin
      have hloaded := h.quiet ht h.mem h.mem
      -- The rest of the loop, for an entry with another name or none.
      have hrest : (∀ v, ¬Binds (bindings n.data) b (cutName name) v) →
          Sat (dirlookupLoop dp name
            ((List.range' (b + 1) l).map (Dirent.size * ·))) t
            (fun r u => Finds k n name r s u) fun _ => True := by
        intro hnot
        refine (ih (b + 1) hloaded (by omega) ?_).imp
          fun r u hu => hu.after ht
        intro j hj
        rcases Nat.lt_succ_iff_lt_or_eq.mp hj with hlt | rfl
        · exact hbefore j hlt
        · exact hnot
      apply Sat.ite
      · intro hzero
        apply hrest
        intro v hb
        rw [Binds, hentry, bindingOf, if_pos hzero] at hb
        cases hb
      · intro hlive
        rw [bindingOf, if_neg hlive] at hentry
        apply Sat.ite
        · intro heq
          rw [namecmp_eq_zero] at heq
          have hlt : (direntAt n.data b).inum.toNat < t.sb.ninodes :=
            hloaded.world.intact.entries i n hloaded.node hdir _
              (mem_dirents.mpr ⟨b, hin, rfl⟩)
          refine (iget_turns hloaded.world hlt).andThen ?_
          rintro c u ⟨hu, hinum⟩
          have hb : Binds (bindings n.data) b (cutName name)
              (direntAt n.data b).inum.toNat := by
            rw [Binds, hentry, heq]
          exact Sat.pure ⟨b, _, rfl, hb, lookup_of_first hb hbefore,
            hu.after ht fun _ hc => hc, hinum⟩
        · intro hne
          apply hrest
          intro v hb
          rw [Binds, hentry] at hb
          apply hne
          rw [namecmp_eq_zero]
          exact (Prod.mk.inj (Option.some.inj (Option.some.inj hb))).1.symm

theorem dirlookup_finds (name : Bytes) (h : Loaded s k dp i n) :
    Sat (dirlookup dp name) s (fun r t => n.type = T_DIR ∧
      Finds k n name r s t) fun _ => True := by
  apply getDin_bind
  rw [h.type_eq, h.offsets_eq]
  apply Sat.ite
  · intro _
    exact Sat.throw trivial
  · intro hdir
    rw [not_not] at hdir
    have hloop := dirlookupLoop_finds name _ 0 h hdir (Nat.zero_add _)
      fun j hj => absurd hj (Nat.not_lt_zero j)
    rw [← List.range_eq_range'] at hloop
    exact hloop.imp fun _ _ ht => ⟨hdir, ht⟩

/-! ## Storing an inode -/

/-- `ip->nlink = g(ip->nlink); iupdate(ip);` -/
theorem updateNlink_turns (g : BitVec 16 → BitVec 16) (h : Loaded s k ip i n)
    (hop : k.op = true) :
    Sat (updateNlink ip g) s (fun _ t =>
      Turns k k (revise i (Node.relinked g)) (inodeBlock i) s t)
      fun _ => True := by
  have hlogs : Sat (updateNlink ip g) s (fun _ t =>
      t.logs = insert (IBLOCK i s.sb) s.logs) fun _ => True := by
    apply getDin_bind
    apply setDin_bind
    refine (iupdate_logs ip).imp fun _ t ht => ?_
    rw [State.setDin, State.icache_setInode_self] at ht
    rw [← h.inum]
    exact ht
  have hbrackets : Keeps State.brackets (updateNlink (P := P) ip g) := by
    apply (getDin_brackets ip).bind
    intro d
    apply (setDin_brackets ip _).bind
    intro _
    exact iupdate_brackets ip
  refine (hbrackets.also ((updateNlink_changed g h hop).both hlogs)).imp ?_
  rintro _ t ⟨hold, ht, hlog⟩
  refine ht.turns (fun _ => ?_) hold (revise_eq h.node)
  rw [hlog, Finset.insert_eq, Finset.union_comm]
  exact Finset.Subset.refl _

/-! ## Writing an entry -/

/-- An entry lies in one block. -/
theorem touched_entry {bn : ℕ} (hbn : bn ∈ touched (Dirent.size * j)
    Dirent.size) : bn = Dirent.size * j / BSIZE := by
  obtain ⟨l, hl, rfl⟩ := mem_touched.mp hbn
  simp only [Dirent.size, BSIZE] at *
  omega

theorem card_bmapSlots_le (bn : ℕ) : (bmapSlots bn).card ≤ 2 := by
  unfold bmapSlots
  split
  · exact le_of_eq_of_le (Finset.card_singleton _) (by decide)
  · exact Finset.card_le_two

/-- What a write of one entry logs. -/
theorem LogsWrite.entry {V : Table} (h : LogsWrite V i ip (Dirent.size * j)
    Dirent.size s t) : ∃ X : Finset ℕ, X.card ≤ 2 ∧
      t.logs ⊆ s.logs ∪ (bitmapBlock ⊔ fun _ => X) s.sb := by
  refine ⟨(bmapSlots (Dirent.size * j / BSIZE)).image
    (listing s.sb t.disk (Grown.table V i ip t) i),
    Finset.card_image_le.trans (card_bmapSlots_le _), fun w hw => ?_⟩
  rw [Finset.mem_union]
  refine ((h w).mp hw).imp_right ?_
  rintro ⟨bn, hbn, hblock⟩
  rw [touched_entry hbn] at hblock
  rw [Pi.sup_apply, Finset.sup_eq_union, Finset.mem_union, bitmapBlock,
    Finset.mem_singleton]
  rcases hblock with rfl | ⟨-, hw | hw⟩
  · exact .inr (Finset.mem_image_of_mem _ (dataSlot_mem_bmapSlots.mpr rfl))
  · exact .inl hw
  · exact .inr hw

theorem writei_entry_logs {V : Table} {de : Dirent} (h : Ready V i ip s)
    (hdev : (V i).type ≠ T_DEV) (hsize : s.sb.size ≤ BPB) :
    Sat (writei ip de.bytes (Dirent.size * j)) s (fun _ t =>
      ∃ X : Finset ℕ, X.card ≤ 2 ∧ t.logs ⊆ s.logs ∪
        (inodeBlock i ⊔ bitmapBlock ⊔ fun _ => X) s.sb) fun _ => True := by
  have hnone : ∃ X : Finset ℕ, X.card ≤ 2 ∧ s.logs ⊆ s.logs ∪
      (inodeBlock i ⊔ bitmapBlock ⊔ fun _ => X) s.sb :=
    ⟨∅, Nat.zero_le 2, Finset.subset_union_left⟩
  have hlen := de.length_bytes
  apply getDin_bind
  rw [h.newest, if_neg hdev]
  apply Sat.ite
  · intro _
    exact Sat.pure hnone
  intro _
  apply Sat.ite
  · intro _
    exact Sat.pure hnone
  intro hmax
  refine (writeLoop_logs h hsize (by omega) (le_refl _)).andThen ?_
  rintro o t ⟨-, hw, hlogs⟩
  rw [hlen] at hlogs
  obtain ⟨X, hcard, hX⟩ := hlogs.entry
  have hwiden : ∀ {B : Finset ℕ}, B ⊆ {IBLOCK i s.sb} ∪ t.logs →
      B ⊆ s.logs ∪ (inodeBlock i ⊔ bitmapBlock ⊔ fun _ => X) s.sb := by
    intro B hB
    refine hB.trans (Finset.union_subset ?_ (hX.trans ?_))
    · exact Finset.subset_union_left.trans
        (Finset.subset_union_left.trans Finset.subset_union_right)
    · rw [sup_assoc]
      exact Finset.union_subset_union_right Finset.subset_union_right
  apply getDin_bind
  apply Sat.ite
  · intro _
    apply setDin_bind
    refine (iupdate_logs ip).andThen fun _ u hu => Sat.pure ⟨X, hcard, ?_⟩
    have hinum := (hw.grown.ready h).inum
    rw [State.setDin, State.icache_setInode_self] at hu
    change u.logs = insert (IBLOCK (t.icache ip).inum t.sb) t.logs at hu
    rw [hinum, hw.grown.sb, Finset.insert_eq] at hu
    exact hwiden (Finset.subset_of_eq hu)
  · intro _
    exact Sat.pure ⟨X, hcard, hwiden Finset.subset_union_right⟩

/-- An entry is written: the blocks are those of the inode and the bitmap, and
at most two of the directory's own. -/
theorem writei_entry_turns {de : Dirent} (h : Loaded s (k.lock dp) dp i n)
    (hop : k.op = true) (hdir : n.type = T_DIR)
    (hentries : ∀ de' ∈ dirents (splice n.data (Dirent.size * j) de.bytes),
      de'.inum.toNat < s.sb.ninodes) :
    Sat (writei dp de.bytes (Dirent.size * j)) s (fun r t =>
      r = some Dirent.size → ∃ X : Finset ℕ, X.card ≤ 2 ∧
        Turns (k.lock dp) (k.lock dp) (revise i (Node.entered j de))
          (inodeBlock i ⊔ bitmapBlock ⊔ fun _ => X) s t) fun _ => True := by
  have hdev : n.type ≠ T_DEV := by
    rw [hdir]
    decide
  have hdev' : (s.inode i).type ≠ T_DEV := by
    rw [← h.synced.1, h.type_eq]
    exact hdev
  have hlogs : s.sb.size ≤ BPB → Sat (writei dp de.bytes (Dirent.size * j)) s
      (fun _ t => ∃ X : Finset ℕ, X.card ≤ 2 ∧
        t.logs ⊆ s.logs ∪ (inodeBlock i ⊔ bitmapBlock ⊔ fun _ => X) s.sb)
      fun _ => True := fun hsize => writei_entry_logs h.ready hdev' hsize
  refine ((writei_brackets dp de.bytes _).also
    ((writei_changed _ _ h hop hdev fun _ => hentries).both
      (Sat.of_imp hlogs))).imp ?_
  rintro r t ⟨hold, hr, hlog⟩ rfl
  split at hr
  · cases hr.1
  · have hφ := revise_eq (h := Node.entered j de) h.node
    by_cases hsize : s.sb.size ≤ BPB
    · obtain ⟨X, hcard, hX⟩ := hlog hsize
      exact ⟨X, hcard, hr.2.turns (fun _ => hX) hold hφ⟩
    · exact ⟨∅, Nat.zero_le 2,
        hr.2.turns (fun hc => absurd hc hsize) hold hφ⟩

/-- The slot that `dirlink` finds for a new entry. -/
theorem emptyDirent_turns (l b : ℕ) (h : Loaded s k dp i n)
    (hdir : n.type = T_DIR)
    (hend : b + l = (n.data.length + (Dirent.size - 1)) / Dirent.size)
    (hread : Dirent.size * b ≤ n.data.length) :
    Sat (emptyDirent dp (Dirent.size * (b + l))
      ((List.range' b l).map (Dirent.size * ·))) s (fun off t =>
        Quiet k k s t ∧ ∃ j, off = Dirent.size * j ∧ Vacant n.data j)
      fun _ => True := by
  induction l generalizing b s with
  | zero =>
      refine Sat.pure ⟨.refl h.world, b, rfl, .inr ?_⟩
      simp only [Dirent.size] at *
      omega
  | succ l ih =>
      have hdev : n.type ≠ T_DEV := by
        rw [hdir]
        decide
      refine (readDirent_turns (j := b) _ h hdev).andThen ?_
      rintro _ t ⟨ht, hin, rfl⟩
      apply Sat.ite
      · intro hzero
        refine Sat.pure ⟨ht, b, rfl, .inl ?_⟩
        rw [Free, getElem?_bindings_of_le hin, bindingOf, if_pos hzero]
      · intro _
        have hrest := ih (b + 1) (h.quiet ht h.mem h.mem) (by omega) (by
          simp only [Dirent.size] at *
          omega)
        rw [show b + 1 + l = b + (l + 1) by omega] at hrest
        refine hrest.imp ?_
        rintro off u ⟨hu, hj⟩
        exact ⟨hu.after ht fun _ hc => hc, hj⟩

/-! ## New inodes -/

theorem iallocLoop_logs (type : BitVec 16) (rounds b : ℕ) :
    Sat (iallocLoop type rounds b) s (fun c t =>
      t.logs = insert (IBLOCK (t.icache c).inum s.sb) s.logs ∧
        t.brackets = s.brackets) fun _ => True := by
  induction rounds generalizing s b with
  | zero => exact Sat.throw trivial
  | succ rounds ih =>
      refine .bind (Sat.get ?_)
      apply bread_bind fun _ => trivial
      apply Sat.ite
      · intro _
        apply logWrite_bind
        apply brelse_bind
        refine ((iget_logging b).also (iget_sat (E := fun _ => True) b
          fun _ => trivial)).imp ?_
        rintro c t ⟨hlog, hgot⟩
        obtain ⟨hlogs, hold⟩ := State.logging_eq.mp hlog
        have hinum : (t.icache c).inum = b := by
          rcases hgot with ⟨-, hinum, rfl⟩ | ⟨-, -, rfl⟩
          · rw [State.icache_setInode_self]
            exact hinum
          · rw [State.icache_setInode_self]
        rw [hinum, hlogs, hold]
        exact ⟨rfl, rfl⟩
      · intro _
        apply brelse_bind
        exact ih (b + 1)

/-- The rule for the new inode of `create`. -/
theorem allocate_turns {type major minor : BitVec 16} {α : Type}
    {rest : Slot → M P α} {Q : α → State P → Prop} (h : World s k)
    (hop : k.op = true) (htype : type ≠ 0)
    (hrest : ∀ ip t j, 0 < j → s.node j = none →
      Turns k (k.own ip) (plant j ⟨type, major, minor, 1, []⟩) (inodeBlock j)
        s t → Loaded t (k.own ip) ip j ⟨type, major, minor, 1, []⟩ →
          Sat (rest ip) t Q fun _ => True) :
    Sat (do
      let ip ← ialloc type
      ilock ip
      let d ← getDin ip
      setDin ip { d with major := major, minor := minor, nlink := 1 }
      iupdate ip
      rest ip) s Q fun _ => True := by
  have hlogs : Sat (ialloc type) s (fun c t =>
      t.logs = insert (IBLOCK (t.icache c).inum s.sb) s.logs ∧
        t.brackets = s.brackets) fun _ => True :=
    .bind (Sat.get (iallocLoop_logs type _ _))
  refine ((ialloc_allocated htype hop h).both hlogs).andThen ?_
  rintro ip t ⟨⟨j, hj⟩, hlog, hold⟩
  rw [hj.inum] at hlog
  have hnew : Turns k (k.hold ip) (plant j ⟨type, 0, 0, 0, []⟩) (inodeBlock j)
      s t := by
    refine hj.changed.turns (fun _ => ?_) hold rfl
    rw [hlog, Finset.insert_eq, Finset.union_comm]
    exact Finset.Subset.refl _
  refine (ilock_own_turns hnew.world).andThen ?_
  rintro _ u ⟨hu, n, hn⟩
  rw [hj.inum] at hn
  have hnode : n = ⟨type, 0, 0, 0, []⟩ := by
    have heq := hn.node
    rw [hu.node, hnew.node, id, plant_self] at heq
    exact (Option.some.inj heq).symm
  subst hnode
  apply getDin_bind
  apply Sat.assoc
  have hstore : Sat (do
      setDin ip { (u.icache ip).din with
        major := major, minor := minor, nlink := 1 }
      iupdate ip) u (fun _ v => v.logs = insert (IBLOCK j u.sb) u.logs)
      fun _ => True := by
    apply setDin_bind
    refine (iupdate_logs ip).imp fun _ v hv => ?_
    rw [State.setDin, State.icache_setInode_self] at hv
    rw [← hn.inum]
    exact hv
  have hkeeps : Keeps State.brackets (do
      setDin ip { (u.icache ip).din with
        major := major, minor := minor, nlink := 1 }
      iupdate ip : M P Unit) := by
    apply (setDin_brackets ip _).bind
    intro _
    exact iupdate_brackets ip
  have hchanged := hn.iupdate_changed (d := { (u.icache ip).din with
    major := major, minor := minor, nlink := 1 }) hop rfl rfl rfl
  refine (hkeeps.also (hchanged.both hstore)).andThen ?_
  rintro _ v ⟨hold', hv, hlog'⟩
  have hboth := hnew.quiet hu (k.sub_hold ip)
  have hfree : s.node j = none := hj.free
  refine hrest ip v j hj.pos hfree ?_ (hn.changed hv hn.mem hn.mem)
  have hsb := hboth.frame.sb
  refine ⟨hv.world, hboth.frame.trans (hv.frame.mono (k.sub_own ip)), ?_, ?_,
    hold'.trans hboth.brackets⟩
  · rw [hv.node, hboth.node, plant, plant, Function.update_idem]
  · intro hsize
    rw [hlog', hsb]
    refine Finset.insert_subset ?_ (hboth.logs hsize)
    exact Finset.mem_union_right _ (Finset.mem_singleton_self _)

end ZtlOs.Kernel
