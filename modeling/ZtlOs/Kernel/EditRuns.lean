import ZtlOs.Kernel.CallEdits

/-!
# Runs of edits

From a volume in which every inode has links, every call of every run edits the
name space as its arguments ask.  An inode without links is open or a current
directory; otherwise it is gone.  Each transaction of a call other than `write`
logs fewer blocks than `begin_op` reserves.
-/

namespace ZtlOs.Kernel

open ZtlOs.Support ZtlOs.Support.Program ZtlOs.Fs

variable {P : Type} [DecidableEq P] [Fintype P]
variable {s t : State P} {i : ℕ} {n : Node} {p : P} {c : Call} {r : ℤ}
variable {disk : ℕ → Block} {v : List (P × Call)}

/-- A formatted disk, as `mkfs` makes it: every inode has links, and its number
fits into a directory entry. -/
structure Fresh (disk : ℕ → Block) : Prop extends Formatted disk where
  linked : ∀ i n, (boot (P := Unit) disk).node i = some n → n.nlink ≠ 0
  numbered : (disk 1).superblock.ninodes ≤ 65536

/-- Between two calls of a run from a fresh disk. -/
structure Tended (s : State P) : Prop extends AtRest s where
  anchored : Anchored s.Anchors s.node
  numbered : s.sb.ninodes ≤ 65536

omit [DecidableEq P] in
theorem Fresh.tended (h : Fresh disk) : Tended (boot (P := P) disk) where
  toAtRest := h.toFormatted.atRest
  anchored := fun i n hn hzero => absurd hzero (h.linked i n hn)
  numbered := h.numbered

omit [DecidableEq P] [Fintype P] in
/-- A call starts with an empty trace, which no edit depends on. -/
theorem Call.Edits.of_start {e : Edit} (h : c.Edits p s.start r e) :
    c.Edits p s r e := by
  have hfile : ∀ {fd f i m}, s.FileAt p fd f i m → s.start.FileAt p fd f i m :=
    fun hf => ⟨hf.file, hf.writable, hf.type, hf.inum, hf.node, hf.dev⟩
  cases c with
  | write fd addr =>
      cases h with
      | other hnot => exact .other fun f i m hf => hnot f i m (hfile hf)
      | written hf hdir hl hall =>
          exact .written ⟨hf.file, hf.writable, hf.type, hf.inum, hf.node,
            hf.dev⟩ hdir hl hall
  | link old new => cases old <;> cases new <;> exact h
  | unlink path | mkdir path | «open» path omode => cases path <;> exact h
  | mknod path major minor =>
      cases path <;> cases major <;> cases minor <;> exact h
  | _ => exact h

namespace Tended

/-- A call that returns. -/
theorem call (h : Tended s) (hrun : c.run p s.start = .ok (r, t)) :
    Tended t ∧ ∃ e, c.Edits p s r e ∧ Makes e s t ∧
      (c.Bounded → Acts e s.start t) := by
  obtain ⟨k, hk, hworld⟩ := h.world
  obtain ⟨e, he, ht, hacts⟩ := (call_makes p c hk hworld h.files_start
    h.anchored h.numbered).returns hrun
  refine ⟨⟨(h.toAtRest.call hrun).1, ht.anchored, ?_⟩, e, he.of_start, ⟨ht.node,
    ht.anchored, ht.sb⟩, hacts⟩
  rw [ht.sb]
  exact h.numbered

theorem step {a : P × Call} (h : Tended s)
    (hstep : callStep s a = .next t) : Tended t := by
  obtain ⟨r, hrun⟩ := callStep_eq_next hstep
  exact (h.call hrun).1

end Tended

theorem Fresh.tended_run (h : Fresh disk)
    (hrun : Run callStep (boot disk) v s) : Tended s :=
  hrun.invariant (fun _ _ _ hs hstep => hs.step hstep) h.tended

/-! ## Every call makes its edit -/

/-- In every run from a fresh disk, a call that returns has made the edit that
its arguments and its result ask for, and then the nodes without links that
nobody refers to are gone. -/
theorem calls_make_edits (hdisk : Fresh disk)
    (hs : Run callStep (boot disk) v s)
    (hrun : c.run p s.start = .ok (r, t)) : ∃ e, c.Edits p s r e ∧
      e.Legal s.node ∧
        t.node = swept {i | t.Referenced i} (e.apply s.node) := by
  obtain ⟨-, e, he, ht, -⟩ := (hdisk.tended_run hs).call hrun
  exact ⟨e, he, he.legal, ht.node⟩

/-! ### A name of the small volume is removed -/

theorem smallVolume_fresh : Fresh smallVolume where
  toFormatted := smallVolume_formatted
  linked := by
    have hsb : (smallVolume 1).superblock = smallSb :=
      smallVolume_read.superblock
    have hnode : (boot (P := Unit) smallVolume).node = (smallState 0).node :=
      node_congr hsb rfl
    intro i m hm
    rw [hnode] at hm
    obtain ⟨hi, htype, -⟩ := of_node_eq_some hm
    have hcases : i = 1 ∨ i = 2 ∨ i = 3 := by
      by_contra hnot
      rw [not_or, not_or] at hnot
      rw [smallState_types i hi, if_neg (by tauto), if_neg hnot.2.2] at htype
      exact htype rfl
    obtain ⟨m', hm', hlink⟩ := smallState_node (n := 0) hcases
    obtain rfl := Option.some.inj (hm.symm.trans hm')
    exact hlink
  numbered := by
    rw [smallVolume_read.superblock]
    decide

/-- The call returns `r`. -/
def Call.returns (c : Call) (p : P) (s : State P) (r : ℤ) : Bool :=
  match c.run p s.start with
  | .ok (r', _) => decide (r' = r)
  | .error _ => false

omit [Fintype P] in
theorem Call.exists_of_returns (h : c.returns p s r = true) :
    ∃ t, c.run p s.start = .ok (r, t) := by
  unfold Call.returns at h
  split at h
  · next r' t hrun =>
      obtain rfl := of_decide_eq_true h
      exact ⟨t, hrun⟩
  · cases h

theorem calls_make_edits_unlink : ∃ s t e,
    Run callStep (boot smallVolume) smallOpens s ∧
      (Call.unlink (some smallPath)).run () s.start = .ok (0, t) ∧
        (Call.unlink (some smallPath)).Edits () s 0 e ∧
          t.node = swept {i | t.Referenced i} (e.apply s.node) := by
  obtain ⟨s, hs, hcheck⟩ := Run.exists_of_exec callStep (boot smallVolume)
    smallOpens (fun s => (Call.unlink (some smallPath)).returns () s 0)
    (by decide +kernel)
  obtain ⟨t, ht⟩ := Call.exists_of_returns hcheck
  obtain ⟨e, he, -, hnode⟩ := calls_make_edits smallVolume_fresh hs ht
  exact ⟨s, t, e, hs, ht, he, hnode⟩

/-! ## Inodes without links -/

/-- The inode is the current directory of a process. -/
def State.IsCwd (s : State P) (i : ℕ) : Prop :=
  ∃ p, (s.icache (s.cwd p)).inum = i

omit [DecidableEq P] in
/-- A reference between two calls is stored. -/
theorem Settled.stored_cases {ip : Slot} (h : Settled s)
    (href : 0 < (s.icache ip).ref) :
    (∃ f, (s.ftable f).refersTo ip) ∨ ∃ p, s.cwd p = ip := by
  rw [h.ref, stored] at href
  by_contra hnot
  rw [not_or, not_exists, not_exists] at hnot
  simp only [hnot.1, hnot.2, if_false, Finset.sum_const_zero] at href
  exact absurd href (lt_irrefl 0)

omit [DecidableEq P] in
theorem Settled.referenced_cases (h : Settled s) (hi : s.Referenced i) :
    s.Opened i ∨ s.IsCwd i := by
  obtain ⟨c, href, hinum⟩ := hi
  rcases h.stored_cases href with ⟨f, hf⟩ | ⟨p, rfl⟩
  · exact .inl ⟨f, c, hf, hinum⟩
  · exact .inr ⟨p, hinum⟩

/-- In every run from a fresh disk, an inode without links is open, or it is
the current directory of a process. -/
theorem unlinked_inodes_referenced (hdisk : Fresh disk)
    (hs : Run callStep (boot disk) v s) (hn : s.node i = some n)
    (hlink : n.nlink = 0) : s.Opened i ∨ s.IsCwd i := by
  have hrest := hdisk.tended_run hs
  obtain ⟨c, href, hinum, -⟩ := hrest.anchored i n hn hlink
  exact hrest.settled.referenced_cases ⟨c, href, hinum⟩

/-- The file `/a/b` is open after its name has been removed. -/
theorem unlinked_inodes_referenced_small : ∃ s n,
    Run callStep (boot smallVolume)
      (smallOpens ++ [((), .unlink (some smallPath))]) s ∧
        s.node 3 = some n ∧ n.nlink = 0 ∧ (s.Opened 3 ∨ s.IsCwd 3) := by
  obtain ⟨s, hs, hcheck⟩ := Run.exists_of_exec callStep (boot smallVolume)
    (smallOpens ++ [((), .unlink (some smallPath))])
    (fun s => smallFile s false) (by decide +kernel)
  obtain ⟨n, hn, -, hlink⟩ := smallFile_node hcheck
  exact ⟨s, n, hs, hn, hlink rfl,
    unlinked_inodes_referenced smallVolume_fresh hs hn (hlink rfl)⟩

/-! ## Transactions -/

/-- On a volume whose bitmap is one block, in every run from a fresh disk, each
transaction of a call other than `write` passes fewer than `MAXOPBLOCKS` blocks
to `log_write`. -/
theorem calls_log_fewer_blocks (hdisk : Fresh disk)
    (hs : Run callStep (boot disk) v s) (hsize : s.sb.size ≤ BPB)
    (hc : c.Bounded) (hrun : c.run p s.start = .ok (r, t)) :
    ∀ B ∈ brackets t.trace, B.card < MAXOPBLOCKS := by
  obtain ⟨-, e, -, -, hacts⟩ := (hdisk.tended_run hs).call hrun
  obtain ⟨Bs, hBs, hfew⟩ := (hacts hc).brackets
  intro B hB
  change B ∈ t.brackets at hB
  rw [hBs] at hB
  have hmem : B ∈ Bs := (List.mem_append.mp hB).resolve_right List.not_mem_nil
  obtain ⟨X, hX, hsub⟩ := hfew hsize B hmem
  have hempty : s.start.logs = ∅ := rfl
  rw [hempty, Finset.empty_union] at hsub
  have hle := Finset.card_le_card hsub
  have hmax : MAXOPBLOCKS = 10 := rfl
  omega

/-- The directory `/c` is created. -/
theorem calls_log_fewer_blocks_mkdir : ∃ t,
    (Call.mkdir (some [0x2f, 0x63])).run () (boot smallVolume).start =
      .ok (0, t) ∧ brackets t.trace ≠ [] ∧
        ∀ B ∈ brackets t.trace, B.card < MAXOPBLOCKS := by
  have hcheck : (match (Call.mkdir (some [0x2f, 0x63])).run ()
      (boot smallVolume).start with
    | .ok (r, t) => decide (r = 0 ∧ brackets t.trace ≠ [])
    | .error _ => false) = true := by decide +kernel
  split at hcheck
  · next r t hrun =>
      obtain ⟨rfl, hne⟩ := of_decide_eq_true hcheck
      have hc : (Call.mkdir (some [0x2f, 0x63])).Bounded := trivial
      exact ⟨t, hrun, hne, calls_log_fewer_blocks smallVolume_fresh (.nil _)
        (by decide +kernel) hc hrun⟩
  · cases hcheck

end ZtlOs.Kernel
