import ZtlOs.Kernel.OpenRuns
import ZtlOs.Kernel.Sweeping

/-!
# What a call does to the name space

Every call makes one edit, in at most one transaction, and the nodes without
links that nobody refers to any more are gone.
-/

namespace ZtlOs.Kernel

open ZtlOs.Support ZtlOs.Support.Program ZtlOs.Support.Bindings ZtlOs.Fs

variable {P : Type} {s t u : State P} {k k' k₂ k₃ : Ctx P} {ip dp c : Slot}
variable {i j d : ℕ} {n n' m : Node} {name : Bytes} {e : Edit}
variable {φ ψ : Nodes → Nodes} {B : BlockSet}

/-! ## References between calls -/

/-- The inodes that have a valid copy which somebody refers to. -/
def State.Anchors (s : State P) : Set ℕ :=
  {i | ∃ c, 0 < (s.icache c).ref ∧ (s.icache c).inum = i ∧
    (s.icache c).valid = true}

theorem World.mem_refs (h : World s k) : c ∈ k.refs ↔ 0 < (s.icache c).ref := by
  rw [h.holds.ref, Multiset.count_pos]

theorem World.held_eq (h : World s k) : k.held s = {i | s.Referenced i} := by
  ext i
  exact exists_congr fun c => and_congr_left' h.mem_refs

theorem World.anchors_eq (h : World s k) : k.anchors s = s.Anchors := by
  ext i
  exact exists_congr fun c => and_congr_left' h.mem_refs

/-! ## Transactions -/

/-- A call has made the edit `e`. -/
structure Makes (e : Edit) (s t : State P) : Prop where
  node : t.node = swept {i | t.Referenced i} (e.apply s.node)
  anchored : Anchored t.Anchors t.node
  sb : t.sb = s.sb

/-- The transactions that the call has ended, the newest first, have logged
few blocks besides those that were logged before. -/
structure Acts (e : Edit) (s t : State P) : Prop extends Makes e s t where
  brackets : ∃ Ls, t.brackets = Ls ++ s.brackets ∧ (s.sb.size ≤ BPB →
    ∀ L ∈ Ls, ∃ X : Finset ℕ, X.card ≤ 9 ∧ L ⊆ s.logs ∪ X)

/-- The same before the end of the transaction. -/
structure Edited (k' : Ctx P) (e : Edit) (s t : State P) : Prop where
  world : World t k'
  sb : t.sb = s.sb
  node : t.node = swept (k'.held t) (e.apply s.node)
  anchored : Anchored (k'.anchors t) t.node
  brackets : t.brackets = s.brackets
  logs : s.sb.size ≤ BPB →
    ∃ X : Finset ℕ, X.card ≤ 9 ∧ t.logs ⊆ s.logs ∪ X

/-- The blocks of two inodes, the bitmap, and some blocks of directories. -/
def area (i d : ℕ) (X : Finset ℕ) : BlockSet :=
  inodeBlock i ⊔ inodeBlock d ⊔ bitmapBlock ⊔ fun _ => X

section Area

variable {X Y : Finset ℕ}

theorem card_area (hX : X.card ≤ 6) (sb : Superblock) :
    (area i d X sb).card ≤ 9 := by
  have h₁ := Finset.card_union_le ({IBLOCK i sb} ∪ {IBLOCK d sb} ∪
    {sb.bmapstart}) X
  have h₂ := Finset.card_union_le ({IBLOCK i sb} ∪ {IBLOCK d sb})
    {sb.bmapstart}
  have h₃ := Finset.card_union_le {IBLOCK i sb} {IBLOCK d sb}
  rw [Finset.card_singleton] at h₂
  rw [Finset.card_singleton, Finset.card_singleton] at h₃
  change (({IBLOCK i sb} ∪ {IBLOCK d sb} ∪ {sb.bmapstart}) ∪ X).card ≤ 9
  omega

theorem card_area_empty (sb : Superblock) : (area i d ∅ sb).card ≤ 9 :=
  card_area (by decide) sb

theorem inode_le_area : inodeBlock i ≤ area i d X :=
  le_sup_left.trans (le_sup_left.trans le_sup_left)

theorem parent_le_area : inodeBlock d ≤ area i d X :=
  le_sup_right.trans (le_sup_left.trans le_sup_left)

theorem bitmap_le_area : bitmapBlock ≤ area i d X :=
  le_sup_right.trans le_sup_left

theorem area_le_area : area i i ∅ ≤ area i d X :=
  sup_le (sup_le (sup_le inode_le_area inode_le_area) bitmap_le_area)
    (le_trans (fun _ => Finset.empty_subset X) le_sup_right)

theorem data_le_area (hY : Y ⊆ X) : (fun _ => Y : BlockSet) ≤ area i d X :=
  le_trans (fun _ => hY) le_sup_right

theorem entry_le_area (hY : Y ⊆ X) :
    inodeBlock d ⊔ bitmapBlock ⊔ (fun _ => Y) ≤ area i d X :=
  sup_le (sup_le parent_le_area bitmap_le_area) (data_le_area hY)

theorem dots_le_area (hY : Y ⊆ X) :
    inodeBlock i ⊔ bitmapBlock ⊔ (fun _ => Y) ≤ area i d X :=
  sup_le (sup_le inode_le_area bitmap_le_area) (data_le_area hY)

theorem area_mono (hX : X ⊆ Y) : area i d X ≤ area i d Y :=
  sup_le_sup le_rfl fun _ => hX

end Area

namespace Turns

/-- A change that comes to the same. -/
theorem recast (h : Turns k k' φ B s t) (heq : φ s.node = ψ s.node) :
    Turns k k' ψ B s t :=
  ⟨h.world, h.frame, h.node.trans heq, h.logs, h.brackets⟩

/-- Both parts keep to the same blocks. -/
theorem within (h : Turns k k₂ φ B s t) (h' : Turns k' k₃ ψ B t u)
    (hk : ∀ c ∈ k.refs, c ∈ k'.refs) : Turns k k₃ (ψ ∘ φ) B s u := by
  have := h.trans h' hk
  rwa [sup_idem] at this

theorem edited (h : Turns k k' φ B s t) (hB : (B s.sb).card ≤ 9)
    (heq : φ s.node = swept (k'.held t) (e.apply s.node))
    (ha : Anchored (k'.anchors t) t.node) : Edited k' e s t where
  world := h.world
  sb := h.frame.sb
  node := h.node.trans heq
  anchored := ha
  brackets := h.brackets
  logs hsize := ⟨B s.sb, hB, h.logs hsize⟩

theorem unedited (h : Turns k k' id B s t) (hB : (B s.sb).card ≤ 9)
    (ha : Anchored (k'.anchors t) t.node) : Edited k' .none s t := by
  refine h.edited hB ?_ ha
  have hnode := (ha.mono (k'.anchors_subset t)).swept_eq
  rw [h.node] at hnode
  exact hnode.symm

/-- An entry changes the number of links of no node. -/
theorem entered {de : Dirent} (h : Turns k k' (revise d (Node.entered j de)) B
    s t) (ha : Anchored (k.anchors s) s.node) :
    Anchored (k.anchors t) t.node := by
  rw [h.node]
  refine (ha.mono h.frame.anchors_subset).revise fun n hn hzero => ?_
  exact h.frame.anchors_subset (ha d n hn hzero)

theorem cwd_mem {p : P} (h : Turns k k' φ B s t) (hcwd : k'.cwd p ∈ k'.refs) :
    t.cwd p ∈ k'.refs :=
  h.world.cwd_mem hcwd

/-- A path starts at the same inode as before. -/
theorem startInum {p : P} (h : Turns k k' φ B s t) (hs : World s k)
    (hcwd : k.cwd p ∈ k.refs) (heq : k'.cwd = k.cwd) (path : Bytes) :
    t.startInum p path = s.startInum p path := by
  unfold State.startInum
  rw [h.world.holds.cwd, hs.holds.cwd, heq, h.frame.inum _ hcwd]

end Turns

/-- The end of a transaction. -/
theorem endOp_acts (h : Edited k.inOp e s t) (hk : k.toMon = .idle) :
    Sat endOp t (fun _ u => Acts e s u) fun _ => True := by
  have hend : Sat endOp t (fun _ u => u.logs = t.logs ∧
      u.brackets = t.logs :: t.brackets) fun _ => True := Sat.modify ⟨rfl, rfl⟩
  refine ((endOp_still h.world hk).both hend).imp ?_
  rintro _ u ⟨hu, -, hlogs⟩
  have hheld : k.held u = k.held t := hu.frame.held_eq
  have hanchors : k.anchors t ⊆ k.anchors u := hu.frame.anchors_subset
  refine ⟨⟨?_, ?_, hu.frame.sb.trans h.sb⟩, ?_⟩
  · rw [← hu.world.held_eq, hheld, hu.node]
    exact h.node
  · rw [← hu.world.anchors_eq, hu.node]
    exact h.anchored.mono hanchors
  · refine ⟨[t.logs], ?_, fun hsize L hL => ?_⟩
    · rw [hlogs, h.brackets]
      rfl
    · rw [List.mem_singleton.mp hL]
      exact h.logs hsize

/-- The end of a transaction and of the call. -/
theorem endOp_returns {α : Type} (a : α) (h : Edited k.inOp e s t)
    (hk : k.toMon = .idle) :
    Sat (do
      endOp
      pure a : M P α) t (fun r u => r = a ∧ Acts e s u) fun _ => True :=
  (endOp_acts h hk).andThen fun _ _ hu => Sat.pure ⟨rfl, hu⟩

/-- A transaction has begun. -/
structure Begun (k : Ctx P) (s t : State P) : Prop where
  still : Still k k.inOp s t
  logs : t.logs = ∅
  brackets : t.brackets = s.brackets

theorem beginOp_begun (h : World s k) (hk : k.toMon = .idle) :
    Sat beginOp s (fun _ t => Begun k s t) fun _ => True := by
  have hbegin : Sat beginOp s (fun _ t => t.logs = ∅ ∧
      t.brackets = s.brackets) fun _ => True := Sat.modify ⟨rfl, rfl⟩
  refine ((beginOp_still h hk).both hbegin).imp ?_
  rintro _ t ⟨ht, hlogs, hold⟩
  exact ⟨ht, hlogs, hold⟩

theorem Begun.anchored (h : Begun k s t) (ha : Anchored (k.anchors s) s.node) :
    Anchored (k.anchors t) t.node := by
  rw [h.still.node]
  exact ha.mono h.still.frame.anchors_subset

theorem Begun.startInum {p : P} (h : Begun k s t) (hs : World s k)
    (hcwd : k.cwd p ∈ k.refs) (path : Bytes) :
    t.startInum p path = s.startInum p path := by
  unfold State.startInum
  rw [h.still.world.holds.cwd, hs.holds.cwd, ← h.still.frame.inum _ hcwd]
  rfl

theorem Acts.begun (h' : Acts e t u) (h : Begun k s t) : Acts e s u where
  node := by
    rw [h'.node, h.still.node]
  anchored := h'.anchored
  sb := h'.sb.trans h.still.frame.sb
  brackets := by
    obtain ⟨Ls, hold, hLs⟩ := h'.brackets
    refine ⟨Ls, by rw [hold, h.brackets], fun hsize L hL => ?_⟩
    rw [← h.still.frame.sb] at hsize
    obtain ⟨X, hcard, hX⟩ := hLs hsize L hL
    rw [h.logs, Finset.empty_union] at hX
    exact ⟨X, hcard, hX.trans Finset.subset_union_right⟩

/-- The tables of files and directories do not matter. -/
theorem Acts.same (h : Acts e s t) (hvolume : u.volume = t.volume)
    (htrace : u.trace = t.trace) : Acts e s u := by
  simp only [State.volume, Prod.mk.injEq] at hvolume
  obtain ⟨hsb, hdisk, hcache, -⟩ := hvolume
  have hnode := node_congr hsb hdisk
  have href : ∀ i, u.Referenced i ↔ t.Referenced i := by
    intro i
    unfold State.Referenced
    rw [hcache]
  refine ⟨⟨?_, ?_, hsb.trans h.sb⟩, ?_⟩
  · simp only [href]
    rw [hnode, h.node]
  · unfold State.Anchors
    rw [hnode, hcache]
    exact h.anchored
  · rw [State.brackets, htrace]
    exact h.brackets

/-- Nothing has been done to the nodes. -/
theorem Still.makes (h : Still k k' s t) (ha : Anchored s.Anchors s.node)
    (hs : World s k) (hrefs : ∀ c ∈ k.refs, c ∈ k'.refs) :
    Makes .none s t := by
  have hanchored : Anchored t.Anchors t.node := by
    rw [h.node, ← h.world.anchors_eq]
    rw [← hs.anchors_eq] at ha
    exact ha.mono (h.frame.anchors_subset.trans (Ctx.anchors_mono hrefs))
  refine ⟨?_, hanchored, h.frame.sb⟩
  have hswept := (hanchored.mono fun i hi => ?_).swept_eq (S :=
    {i | t.Referenced i})
  · rw [hswept.symm, h.node]
    rfl
  · obtain ⟨c, hc, hinum, -⟩ := hi
    exact ⟨c, hc, hinum⟩

/-- Nothing has been done, outside of a transaction. -/
theorem Still.acts (h : Still k k' s t) (ha : Anchored s.Anchors s.node)
    (hs : World s k) (hrefs : ∀ c ∈ k.refs, c ∈ k'.refs)
    (hold : t.brackets = s.brackets) : Acts .none s t :=
  ⟨h.makes ha hs hrefs, [], hold, fun _ _ hL => absurd hL List.not_mem_nil⟩

/-! ## Paths -/

theorem Turns.target {p : P} {path : Bytes} {b : Bool}
    (h : Turns k k' φ B s t) (hs : World s k) (hcwd : k.cwd p ∈ k.refs)
    (heq : k'.cwd = k.cwd) :
    namexTarget t.node b (t.startInum p path) (components path) =
      namexTarget (φ s.node) b (s.startInum p path) (components path) := by
  rw [h.node, h.startInum hs hcwd heq]

/-- What `namei` returns. -/
theorem namei_arrives (p : P) (path : Bytes) (h : World s k)
    (hop : k.op = true) (hcwd : s.cwd p ∈ k.refs)
    (ha : Anchored (k.anchors s) s.node) :
    Sat (namei p path) s (fun r t =>
      walk s.node (s.startInum p path) (components path) =
        r.map (fun c => (t.icache c).inum) ∧
      Quiet k (k.holds r) s t) fun _ => True := by
  refine (namex_arrives p path h hop hcwd ha).andThen ?_
  rintro (_ | ⟨c, nm⟩) t ht
  · exact Sat.pure ⟨Option.map_eq_none_iff.mp ht.1, ht.2⟩
  · obtain ⟨htarget, -, hquiet⟩ := ht
    obtain ⟨v, hv, heq⟩ := Option.map_eq_some_iff.mp htarget
    refine Sat.pure ⟨?_, hquiet⟩
    rw [hv, (Prod.mk.inj heq).1]
    rfl

/-- What `nameiparent` returns: a directory, and a name to look up in it. -/
def Parent (k : Ctx P) (f : Nodes) (a : ℕ) (path : List Bytes)
    (r : Option (Slot × Bytes)) (s t : State P) : Prop :=
  match r with
  | none => walkParent f a path = none ∧ Quiet k k s t
  | some (c, name) => walkParent f a path = some ((t.icache c).inum, name) ∧
      cutName name = name ∧ t.IsDir c ∧ Quiet k (k.hold c) s t

theorem nameiparent_arrives (p : P) (path : Bytes) (h : World s k)
    (hop : k.op = true) (hcwd : s.cwd p ∈ k.refs)
    (ha : Anchored (k.anchors s) s.node) :
    Sat (nameiparent p path) s (fun r t => Parent k s.node
      (s.startInum p path) (components path) r s t) fun _ => True := by
  refine (namex_arrives p path h hop hcwd ha).imp ?_
  rintro (_ | ⟨c, nm⟩) t ht
  · exact ⟨Option.map_eq_none_iff.mp ht.1, ht.2⟩
  · obtain ⟨htarget, hparent, hquiet⟩ := ht
    obtain ⟨hcut, hdir⟩ := hparent rfl
    obtain ⟨⟨v, w⟩, hv, heq⟩ := Option.map_eq_some_iff.mp htarget
    obtain ⟨rfl, hname⟩ := Prod.mk.inj heq
    rw [if_pos rfl] at hname
    obtain rfl := Option.some.inj hname
    exact ⟨hv, hcut, hdir, hquiet⟩

/-- The directory that `nameiparent` returns, locked. -/
theorem ilock_parent (h : World s (k.hold dp)) (hdir : s.IsDir dp) :
    Sat (ilock dp) s (fun _ t => Quiet (k.hold dp) (k.own dp) s t ∧
      ∃ n, n.type = T_DIR ∧ Loaded t (k.own dp) dp (s.icache dp).inum n)
      fun _ => True := by
  refine (ilock_own_turns h).imp ?_
  rintro _ t ⟨ht, n, hn⟩
  obtain ⟨-, m, hm, htype⟩ := hdir
  have hnode := hn.node
  rw [ht.node, id, hm] at hnode
  obtain rfl := Option.some.inj hnode
  exact ⟨ht, m, htype, hn⟩

/-! ## Giving up -/

/-- `iunlockput(dp); end_op(); return -1;` when nothing has been done. -/
theorem unlinkBad_acts (h : Turns k.inOp (k.inOp.own dp) id B s t)
    (hB : (B s.sb).card ≤ 9) (hk : k.toMon = .idle)
    (ha : Anchored (k.anchors s) s.node) :
    Sat (unlinkBad dp) t (fun r u => r = -1 ∧ Acts .none s u)
      fun _ => True := by
  have hat : Anchored (k.inOp.anchors t) t.node := by
    rw [h.node]
    exact ha.mono h.frame.anchors_subset
  refine (iunlockput_quiet h.world rfl hat).andThen fun _ u hu => ?_
  have hall := h.quiet hu fun _ hc => hc
  have hau : Anchored (k.inOp.anchors u) u.node := hu.anchored hat
  exact endOp_returns (-1) (hall.unedited hB hau) hk

/-! ## link -/

/-- The link count is as it was before. -/
theorem relinked_back : Node.relinked (· - 1) ∘ Node.relinked (· + 1) = id := by
  funext n
  simp [Node.relinked]

/-- The label `bad` of `sys_link`: the additional link is taken back. -/
theorem linkBad_acts (h : Turns k.inOp (k.inOp.hold ip)
      (revise i (Node.relinked (· + 1))) (area i i ∅) s t)
    (hinum : (t.icache ip).inum = i) (hk : k.toMon = .idle)
    (ha : Anchored (k.anchors s) s.node) :
    Sat (linkBad ip) t (fun r u => r = -1 ∧ Acts .none s u)
      fun _ => True := by
  refine (ilock_own_turns h.world).andThen ?_
  rintro _ v ⟨hv, n, hn⟩
  rw [hinum] at hn
  refine (updateNlink_turns (· - 1) hn rfl).andThen fun _ w hw => ?_
  have hlocked := h.quiet hv (k.inOp.sub_hold ip)
  have hback := hlocked.within (hw.widen inode_le_area) (k.inOp.sub_own ip)
  refine unlinkBad_acts (hback.recast (ψ := id) ?_)
    (card_area_empty _) hk ha
  rw [Function.comp_apply, revise_revise, relinked_back, revise_id]
  rfl

/-- What is left of `sys_link` when the file has one more link. -/
theorem linkEnd_acts {name : Bytes} {a b : ℕ} {old new : List Bytes}
    (h : Turns k.inOp (k.inOp.hold ip) (revise i (Node.relinked (· + 1)))
      (area i i ∅) s t)
    (hinum : (t.icache ip).inum = i) (hk : k.toMon = .idle)
    (ha : Anchored (k.anchors s) s.node)
    (hat : Anchored ((k.inOp.hold ip).anchors t) t.node)
    (hold : walk s.node a old = some i) (hn : s.node i = some n)
    (hfile : n.type ≠ T_DIR)
    (hr : Parent (k.inOp.hold ip) t.node b new (some (dp, name)) t u) :
    Sat (do
      ilock dp
      let s ← get
      let ok ← dirlink dp name (s.icache ip).inum
      iunlockput dp
      if ok then do
        iput ip
        endOp
        pure 0
      else linkBad ip) u (fun r v => ∃ e, LinkEdit s.node a b old new r e ∧
        Acts e s v) fun _ => True := by
  obtain ⟨hparent, hcut, hdir, hu⟩ := hr
  have hmem := Ctx.mem_hold k.inOp ip
  have hisdir : isDir s.node i = false := by
    rw [isDir_eq hn]
    exact beq_eq_false_iff_ne.mpr hfile
  rw [h.node, walkParent_relinked] at hparent
  refine (ilock_parent hu.world hdir).andThen ?_
  rintro _ v ⟨hv, m, htype, hm⟩
  have hlocked := hv.after hu (Ctx.sub_hold _ dp)
  have hiv : (v.icache ip).inum = i := by
    rw [hlocked.frame.inum ip hmem, hinum]
  have hlookup : lookupAt s.node (u.icache dp).inum name =
      lookup (bindings m.data) (cutName name) := by
    rw [← lookupAt_relinked (i := i) (g := (· + 1)), ← h.node, hcut]
    refine lookupAt_eq ?_ htype
    rw [← hm.node, hlocked.node]
    rfl
  have hav := hlocked.anchored hat
  refine .bind (Sat.get ?_)
  rw [hiv]
  refine (dirlink_turns (k := (k.inOp.hold ip).hold dp) name hm rfl ?_
    (hav.mono (Ctx.anchors_mono (Ctx.sub_hold _ dp)))).andThen ?_
  · rw [← hiv]
    exact hlocked.world.inum_lt (Ctx.sub_hold _ dp ip hmem)
  rintro ok w ⟨-, hw⟩
  cases ok with
  | false =>
      rw [if_pos rfl] at hw
      obtain ⟨hpresent, hw⟩ := hw
      have hall := hw.after hlocked (Ctx.sub_hold _ dp)
      refine (iunlockput_quiet (k := k.inOp.hold ip) hall.world rfl
        (hall.anchored hat)).andThen fun _ x hx => ?_
      have hend := hx.after hall fun _ hc => hc
      refine (linkBad_acts (h.quiet hend (k.inOp.sub_hold ip)) ?_ hk ha).imp ?_
      · rw [hend.frame.inum ip hmem, hinum]
      · rintro r y ⟨rfl, hy⟩
        refine ⟨.none, .present hold hisdir hparent ?_, hy⟩
        rwa [hlookup]
  | true =>
      rw [if_neg Bool.true_eq_false_eq_False] at hw
      obtain ⟨habsent, j, hj, X, hcard, hw⟩ := hw
      have hroom : RoomAt s.node (u.icache dp).inum j name := by
        rw [← roomAt_relinked (i := i) (g := (· + 1)), ← h.node]
        refine ⟨hcut, ?_, m, ?_, htype, hj⟩
        · rw [h.node, lookupAt_relinked, hlookup, habsent]
        · rw [← hm.node, hlocked.node]
          rfl
      have hentered := (hw.widen (entry_le_area (i := i)
        (subset_refl X))).after hlocked (Ctx.sub_own _ dp)
      have haw := hentered.entered hat
      have hall := (h.widen area_le_area).within hentered (k.inOp.sub_hold ip)
      refine (iunlockput_quiet (k := k.inOp.hold ip) hall.world rfl
        haw).andThen fun _ x hx => ?_
      have hend := hall.quiet hx (k.inOp.sub_hold ip)
      have hix : (x.icache ip).inum = i := by
        rw [hx.frame.inum ip hmem, hentered.frame.inum ip hmem, hinum]
      have hput := iput_sweeps (k := k.inOp) hend.world rfl (hx.anchored haw)
      rw [hix] at hput
      refine hput.andThen ?_
      rintro _ y ⟨hy, hay⟩
      have hdone := hend.within (hy.widen (sup_le inode_le_area
        bitmap_le_area)) fun _ hc => hc
      have hedited : Edited k.inOp (.link i (u.icache dp).inum j name) s y := by
        refine hdone.edited (card_area (by omega) _) ?_ hay
        rw [hy.frame.held_eq]
        rfl
      refine (endOp_returns 0 hedited hk).imp ?_
      rintro r z ⟨rfl, hz⟩
      exact ⟨_, .linked hold hn hfile hparent hroom, hz⟩

theorem sysLink_acts (p : P) (old new : Bytes) (h : World s k)
    (hk : k.toMon = .idle) (hcwd : k.cwd p ∈ k.refs)
    (ha : Anchored (k.anchors s) s.node) :
    Sat (sysLink p (some old) (some new)) s (fun r t => ∃ e,
      LinkEdit s.node (s.startInum p old) (s.startInum p new)
        (components old) (components new) r e ∧ Acts e s t)
      fun _ => True := by
  refine (beginOp_begun h hk).andThen fun _ s₁ h₁ => ?_
  have ha₁ := h₁.anchored ha
  have hw₁ := h₁.still.world
  rw [← h₁.still.node, ← h₁.startInum h hcwd old, ← h₁.startInum h hcwd new]
  suffices hrest : Sat _ s₁ (fun r t => ∃ e,
      LinkEdit s₁.node (s₁.startInum p old) (s₁.startInum p new)
        (components old) (components new) r e ∧ Acts e s₁ t)
      fun _ => True from hrest.imp fun r t ht => by
    obtain ⟨e, he, hacts⟩ := ht
    exact ⟨e, he, hacts.begun h₁⟩
  refine (namei_arrives p old hw₁ rfl (hw₁.cwd_mem hcwd) ha₁).andThen ?_
  rintro (_ | ip) s₂ ⟨hwalk, h₂⟩
  · refine (endOp_returns (-1) (h₂.unedited (Nat.zero_le 9)
      (h₂.anchored ha₁)) hk).imp ?_
    rintro r t ⟨rfl, ht⟩
    exact ⟨.none, .missing hwalk, ht⟩
  have hfirst : Quiet k.inOp (k.inOp.hold ip) s₁ s₂ := h₂
  refine (ilock_own_turns hfirst.world).andThen ?_
  rintro _ s₃ ⟨h₃, n, hn⟩
  have hlocked := h₃.after hfirst (k.inOp.sub_hold ip)
  have hnode : s₁.node (s₂.icache ip).inum = some n := by
    rw [← hn.node, hlocked.node]
    rfl
  apply getDin_bind
  rw [hn.type_eq]
  apply Sat.ite
  · intro hdir
    refine (unlinkBad_acts hlocked (Nat.zero_le 9) hk ha₁).imp ?_
    rintro r t ⟨rfl, ht⟩
    refine ⟨.none, .directory hwalk ?_, ht⟩
    rw [isDir_eq hnode]
    exact beq_iff_eq.mpr hdir
  intro hfile
  refine (updateNlink_turns (· + 1) hn rfl).andThen fun _ s₄ h₄ => ?_
  refine (iunlock_turns (k := k.inOp.hold ip) h₄.world).andThen ?_
  intro _ s₅ h₅
  have hlinked := ((h₄.widen (C := area (s₂.icache ip).inum
    (s₂.icache ip).inum ∅) inode_le_area).after hlocked
      (k.inOp.sub_own ip)).quiet h₅ (k.inOp.sub_hold ip)
  have hinum : (s₅.icache ip).inum = (s₂.icache ip).inum := by
    rw [h₅.frame.inum ip (Ctx.mem_hold _ ip),
      h₄.frame.inum ip (Ctx.mem_hold _ ip), hn.inum]
  have ha₅ : Anchored ((k.inOp.hold ip).anchors s₅) s₅.node := by
    rw [hlinked.node]
    refine (ha₁.mono ?_).revise fun m hm _ => ?_
    · exact hlinked.frame.anchors_subset.trans
        (Ctx.anchors_mono (k.inOp.sub_hold ip))
    · refine ⟨ip, Ctx.mem_hold _ ip, hinum, ?_⟩
      exact h₅.frame.valid ip (Ctx.mem_hold _ ip)
        (h₄.frame.valid ip (Ctx.mem_hold _ ip) hn.valid)
  have hcwd' : k.cwd p ∈ (k.inOp.hold ip).refs := k.inOp.sub_hold ip _ hcwd
  have hparent := nameiparent_arrives p new hlinked.world rfl
    (hlinked.world.cwd_mem hcwd') ha₅
  rw [hlinked.startInum hw₁ hcwd rfl] at hparent
  refine hparent.andThen ?_
  rintro (_ | ⟨dp, name⟩) s₆ h₆
  · obtain ⟨hnone, h₆⟩ := h₆
    rw [hlinked.node, walkParent_relinked] at hnone
    refine (linkBad_acts (hlinked.quiet h₆ (k.inOp.sub_hold ip)) ?_ hk
      ha₁).imp ?_
    · rw [h₆.frame.inum ip (Ctx.mem_hold _ ip), hinum]
    · rintro r t ⟨rfl, ht⟩
      refine ⟨.none, .orphan hwalk ?_ hnone, ht⟩
      rw [isDir_eq hnode]
      exact beq_eq_false_iff_ne.mpr hfile
  · exact linkEnd_acts hlinked hinum hk ha₁ ha₅ hwalk hnode hfile h₆

/-! ## unlink -/

/-- The loop of `isdirempty`, from entry `b` on. -/
theorem isdiremptyLoop_turns (l b : ℕ) (h : Loaded s k dp i n)
    (hdev : n.type ≠ T_DEV) :
    Sat (isdiremptyLoop dp ((List.range' b l).map (Dirent.size * ·))) s
      (fun r t => Quiet k k s t ∧ (r = true ↔ ∀ j, b ≤ j → j < b + l →
        ∀ name v, ¬Binds (bindings n.data) j name v)) fun _ => True := by
  induction l generalizing b s with
  | zero =>
      refine Sat.pure ⟨.refl h.world, iff_of_true rfl ?_⟩
      exact fun j hj hlt => absurd hlt (by omega)
  | succ l ih =>
      refine (readDirent_turns (j := b) _ h hdev).andThen ?_
      rintro _ t ⟨ht, hin, rfl⟩
      have hentry := getElem?_bindings_of_le hin
      apply Sat.ite
      · intro hlive
        refine Sat.pure ⟨ht, iff_of_false Bool.false_ne_true fun hall => ?_⟩
        rw [bindingOf, if_neg hlive] at hentry
        exact hall b (le_refl b) (by omega) _ _ hentry
      · intro hzero
        rw [not_not] at hzero
        rw [bindingOf, if_pos hzero] at hentry
        refine (ih (b + 1) (h.quiet ht h.mem h.mem)).imp ?_
        rintro r u ⟨hu, hr⟩
        refine ⟨hu.after ht fun _ hc => hc, hr.trans ⟨fun hall j hj hlt => ?_,
          fun hall j hj hlt => hall j (by omega) (by omega)⟩⟩
        rcases Nat.eq_or_lt_of_le hj with rfl | hlt'
        · intro name v hb
          rw [Binds, hentry] at hb
          cases hb
        · exact hall j hlt' (by omega)

theorem isdirempty_turns (h : Loaded s k dp i n) (hdir : n.type = T_DIR) :
    Sat (isdirempty dp) s (fun r t => Quiet k k s t ∧
      (r = true ↔ ∀ j, 2 ≤ j → ∀ name v, ¬Binds (bindings n.data) j name v))
      fun _ => True := by
  have hdev : n.type ≠ T_DEV := by
    rw [hdir]
    decide
  apply getDin_bind
  rw [h.offsets_eq, ← List.map_drop, slotRange, List.range_eq_range',
    List.drop_range']
  refine (isdiremptyLoop_turns _ _ h hdev).imp ?_
  rintro r t ⟨ht, hr⟩
  refine ⟨ht, hr.trans ⟨fun hall j hj name v hb => ?_,
    fun hall j hj _ => hall j (by omega)⟩⟩
  have hlt := List.mem_range.mp (mem_slotRange hb)
  exact hall j (by omega) (by omega) name v hb

/-- An entry is cleared. -/
theorem writei_zero_turns (h : Loaded s (k.lock dp) dp i n)
    (hop : k.op = true) (hdir : n.type = T_DIR)
    (hj : Dirent.size * j ≤ n.data.length) :
    Sat (writei dp Dirent.zero.bytes (Dirent.size * j)) s (fun r t =>
      r = some Dirent.size → ∃ X : Finset ℕ, X.card ≤ 2 ∧
        Turns (k.lock dp) (k.lock dp) (revise i (Node.entered j Dirent.zero))
          (inodeBlock i ⊔ bitmapBlock ⊔ fun _ => X) s t) fun _ => True := by
  refine writei_entry_turns h hop hdir fun de hde => ?_
  rcases mem_dirents_splice hj hde with rfl | hold
  · exact Nat.lt_of_le_of_lt (Nat.zero_le i) h.lt
  · exact h.world.intact.entries i n h.node hdir de hold

theorem namecmp_dot (hcut : cutName name = name) :
    (namecmp name dot = 0 ∨ namecmp name dotdot = 0) ↔
      (name = dot ∨ name = dotdot) := by
  rw [namecmp_eq_zero, namecmp_eq_zero, hcut]
  exact Iff.rfl

/-- The links of a directory change with a directory in it. -/
theorem relinkDir_turns {type : BitVec 16} (g : BitVec 16 → BitVec 16)
    (h : Loaded s k ip i n) (hop : k.op = true) :
    Sat (if type = T_DIR then updateNlink ip g else pure ()) s (fun _ t =>
      Turns k k (relinkDir (some type) i g) (inodeBlock i) s t)
      fun _ => True := by
  unfold relinkDir
  by_cases hdir : type = T_DIR
  · rw [if_pos hdir, if_pos (congrArg some hdir)]
    exact updateNlink_turns g h hop
  · rw [if_neg hdir, if_neg fun hc => hdir (Option.some.inj hc)]
    exact Sat.pure ((Turns.refl h.world).widen fun _ => Finset.empty_subset _)

/-- The end of `sys_unlink`, after the entry has been cleared. -/
theorem unlinkEnd_acts {type : BitVec 16} {X : Finset ℕ}
    (h : Turns k.inOp ((k.inOp.own ip).own dp)
      (revise d (Node.entered j Dirent.zero)) (area i d X) s t)
    (hdp : Loaded t ((k.inOp.own ip).own dp) dp d n)
    (hip : Loaded t ((k.inOp.own ip).own dp) ip i m) (hk : k.toMon = .idle)
    (hX : X.card ≤ 6) (ha : Anchored (k.anchors s) s.node)
    (htype : (s.node i).map Node.type = some type) :
    Sat (do
      (if type = T_DIR then updateNlink dp (· - 1) else pure ())
      iunlockput dp
      updateNlink ip (· - 1)
      iunlockput ip
      endOp
      pure 0 : M P ℤ) t (fun r u => r = 0 ∧ Acts (.unlink i d j) s u)
      fun _ => True := by
  have hne : i ≠ d := by
    have hw := hip.world
    rw [Ctx.own_comm] at hw
    exact Loaded.ne (hip.of_world hw (Ctx.mem_hold _ ip))
      (hdp.of_world hw (Ctx.sub_hold _ ip dp (Ctx.mem_hold _ dp)))
  have hsub := Ctx.sub_own k.inOp ip
  have hsub' := Ctx.sub_own (k.inOp.own ip) dp
  have hmem := Ctx.mem_hold k.inOp ip
  refine (relinkDir_turns (· - 1) hdp rfl).andThen fun _ u hu => ?_
  have hat : Anchored (((k.inOp.own ip).own dp).anchors t) t.node :=
    (h.entered ha).mono (Ctx.anchors_mono fun c hc => hsub' c (hsub c hc))
  have hau : Anchored (((k.inOp.own ip).hold dp).anchors u) u.node := by
    have hmono := hat.mono hu.frame.anchors_subset
    rw [hu.node]
    refine hmono.relinkDir ?_
    exact ⟨dp, Ctx.mem_hold _ dp, (hu.frame.inum dp hdp.mem).trans hdp.inum,
      hu.frame.valid dp hdp.mem hdp.valid⟩
  have hdu : (u.icache dp).inum = d :=
    (hu.frame.inum dp hdp.mem).trans hdp.inum
  refine (iunlockput_sweeps (k := k.inOp.own ip) hu.world rfl hau).andThen ?_
  rintro _ v ⟨hv, hav⟩
  rw [hdu] at hv
  have hiu : (u.icache ip).inum = i :=
    (hu.frame.inum ip hip.mem).trans hip.inum
  have hheld : (k.inOp.own ip).held u = insert i (k.inOp.held u) := by
    rw [← hiu]
    exact Ctx.held_hold k.inOp ip
  rw [hheld] at hv
  have hipu : Loaded u ((k.inOp.own ip).own dp) ip i m :=
    hip.turned hu hip.mem hip.mem ((relinkDir_of_ne hne).trans hip.node)
  have hipv : Loaded v (k.inOp.own ip) ip i m :=
    hipu.turned hv hmem hmem ((swept_of_mem (.inl rfl)).trans hipu.node)
  refine (updateNlink_turns (· - 1) hipv rfl).andThen fun _ w hw => ?_
  have hiw : (w.icache ip).inum = i :=
    (hw.frame.inum ip hmem).trans hipv.inum
  have haw : Anchored ((k.inOp.hold ip).anchors w) w.node := by
    rw [hw.node]
    refine (hav.mono hw.frame.anchors_subset).revise fun _ _ _ => ?_
    exact ⟨ip, hmem, hiw, hw.frame.valid ip hmem hipv.valid⟩
  have hlast := iunlockput_sweeps (k := k.inOp) hw.world rfl haw
  rw [hiw] at hlast
  refine hlast.andThen ?_
  rintro _ x ⟨hx, hax⟩
  have hcleared := h.within (hu.widen parent_le_area)
    fun c hc => hsub' c (hsub c hc)
  have hput := hcleared.within
    (hv.widen (sup_le parent_le_area bitmap_le_area)) hsub
  have hstored := hput.within (hw.widen inode_le_area) hsub
  have hdone := hstored.within
    (hx.widen (sup_le inode_le_area bitmap_le_area)) fun _ hc => hc
  have hsame : k.inOp.held w = k.inOp.held u :=
    ((hv.frame.trans hw.frame).mono hsub).held_eq
  have hedited : Edited k.inOp (.unlink i d j) s x := by
    refine hdone.edited (card_area hX _) ?_ hax
    rw [hx.frame.held_eq, hsame, Edit.apply, htype]
    exact swept_revise_swept
  exact endOp_returns 0 hedited hk

theorem sysUnlink_acts (p : P) (path : Bytes) (h : World s k)
    (hk : k.toMon = .idle) (hcwd : k.cwd p ∈ k.refs)
    (ha : Anchored (k.anchors s) s.node) :
    Sat (sysUnlink p (some path)) s (fun r t => ∃ e,
      UnlinkEdit s.node (s.startInum p path) (components path) r e ∧
        Acts e s t) fun _ => True := by
  refine (beginOp_begun h hk).andThen fun _ s₁ h₁ => ?_
  have ha₁ := h₁.anchored ha
  have hw₁ := h₁.still.world
  rw [← h₁.still.node, ← h₁.startInum h hcwd path]
  suffices hrest : Sat _ s₁ (fun r t => ∃ e,
      UnlinkEdit s₁.node (s₁.startInum p path) (components path) r e ∧
        Acts e s₁ t) fun _ => True from hrest.imp fun r t ht => by
    obtain ⟨e, he, hacts⟩ := ht
    exact ⟨e, he, hacts.begun h₁⟩
  refine (nameiparent_arrives p path hw₁ rfl (hw₁.cwd_mem hcwd) ha₁).andThen ?_
  rintro (_ | ⟨dp, name⟩) s₂ h₂
  · obtain ⟨hnone, h₂⟩ := h₂
    refine (endOp_returns (-1) (h₂.unedited (Nat.zero_le 9)
      (h₂.anchored ha₁)) hk).imp ?_
    rintro r t ⟨rfl, ht⟩
    exact ⟨.none, .orphan hnone, ht⟩
  obtain ⟨hparent, hcut, hisdir, h₂⟩ := h₂
  refine (ilock_parent h₂.world hisdir).andThen ?_
  rintro _ s₃ ⟨h₃, n, hdir, hn⟩
  have hlocked := h₃.after h₂ (k.inOp.sub_hold dp)
  have hbad : ∀ {u}, Quiet k.inOp (k.inOp.own dp) s₁ u →
      UnlinkEdit s₁.node (s₁.startInum p path) (components path) (-1) .none →
        Sat (unlinkBad dp) u (fun r t => ∃ e,
          UnlinkEdit s₁.node (s₁.startInum p path) (components path) r e ∧
            Acts e s₁ t) fun _ => True := by
    intro u hu he
    refine (unlinkBad_acts hu (Nat.zero_le 9) hk ha₁).imp ?_
    rintro r t ⟨rfl, ht⟩
    exact ⟨.none, he, ht⟩
  apply Sat.ite
  · intro hdots
    exact hbad hlocked (.dots hparent ((namecmp_dot hcut).mp hdots))
  intro hdots
  rw [namecmp_dot hcut, not_or] at hdots
  have hnode : s₁.node (s₂.icache dp).inum = some n := by
    rw [← hn.node, hlocked.node]
    rfl
  have hlookup : lookupAt s₁.node (s₂.icache dp).inum name =
      lookup (bindings n.data) (cutName name) := by
    rw [hcut, lookupAt_eq hnode hdir]
  refine (dirlookup_finds name hn).andThen ?_
  rintro (_ | ⟨ip, off⟩) s₄ ⟨-, h₄⟩
  · obtain ⟨h₄, hmiss⟩ := h₄
    exact hbad (h₄.after hlocked (k.inOp.sub_own dp))
      (.missing hparent (hlookup.trans hmiss))
  obtain ⟨j, v, rfl, hb, hfound, h₄, hinum⟩ := h₄
  rw [hcut] at hb
  have hlookup' : lookupAt s₁.node (s₂.icache dp).inum name = some v :=
    hlookup.trans hfound
  refine (ilock_own_turns h₄.world).andThen ?_
  rintro _ s₅ ⟨h₅, m, hm⟩
  rw [hinum] at hm
  have hsub := k.inOp.sub_own dp
  have hsub' := Ctx.sub_hold (k.inOp.own dp) ip
  have hheld := h₄.after hlocked hsub
  have hfirst := h₅.after hheld fun c hc => hsub' c (hsub c hc)
  have hnode' : s₁.node v = some m := by
    rw [← hm.node, hfirst.node]
    rfl
  apply getDin_bind
  apply Sat.ite
  · intro _
    exact Sat.throw trivial
  intro hlink
  have hlinked : m.nlink ≠ 0 := by
    rw [hm.nlink_eq] at hlink
    intro hzero
    rw [hzero] at hlink
    exact hlink (by decide)
  have hempty : Sat (if (s₅.icache ip).din.type = T_DIR then isdirempty ip
      else pure true) s₅ (fun r t =>
        Quiet ((k.inOp.own dp).own ip) ((k.inOp.own dp).own ip) s₅ t ∧
          (r = true ↔ (m.type = T_DIR → Bare s₁.node v))) fun _ => True := by
    rw [hm.type_eq]
    apply Sat.ite
    · intro htype
      refine (isdirempty_turns hm htype).imp ?_
      rintro r t ⟨ht, hr⟩
      refine ⟨ht, hr.trans ⟨fun hall _ => ?_, fun hbare j hj name w hb => ?_⟩⟩
      · rintro j name w ⟨m', hm', -, hb⟩
        obtain rfl := Option.some.inj (hnode'.symm.trans hm')
        by_contra hj
        exact hall j (not_lt.mp hj) name w hb
      · exact absurd (hbare htype j name w ⟨m, hnode', htype, hb⟩)
          (not_lt.mpr hj)
    · intro htype
      exact Sat.pure ⟨.refl hm.world, iff_of_true rfl fun hc =>
        absurd hc htype⟩
  refine hempty.andThen ?_
  rintro empty s₆ ⟨h₆, hr⟩
  have hread := h₆.after hfirst fun c hc => hsub' c (hsub c hc)
  apply Sat.ite
  · rintro rfl
    have hfull : ¬(m.type = T_DIR → Bare s₁.node v) :=
      fun hc => Bool.false_ne_true (hr.mpr hc)
    rw [Classical.not_imp] at hfull
    refine (iunlockput_quiet (k := k.inOp.own dp) h₆.world rfl
      ((hread.anchored ha₁).mono (Ctx.anchors_mono hsub))).andThen ?_
    intro _ t ht
    refine hbad (ht.after hread hsub) (.occupied hparent hlookup' ?_ hfull.2)
    rw [isDir_eq hnode']
    exact beq_iff_eq.mpr hfull.1
  intro hbare
  have hbare := hr.mp (Bool.eq_true_of_not_eq_false hbare)
  have hmem := Ctx.mem_hold k.inOp dp
  have hdp₅ : Loaded s₆ ((k.inOp.own dp).own ip) dp (s₂.icache dp).inum n :=
    ((hn.quiet h₄ hn.mem (hsub' dp hn.mem)).quiet h₅ (hsub' dp hn.mem)
      (hsub' dp hn.mem)).quiet h₆ (hsub' dp hn.mem) (hsub' dp hn.mem)
  have hip₅ := hm.quiet h₆ hm.mem hm.mem
  rw [Ctx.own_comm] at hdp₅ hip₅ hread
  have hj : Dirent.size * j ≤ n.data.length := by
    have := lt_length_of_binds hb
    rw [length_bindings] at this
    simp only [Dirent.size] at *
    omega
  refine (writei_zero_turns (k := (k.inOp.own ip).hold dp) hdp₅ rfl hdir
    hj).andThen fun r s₇ h₇ => ?_
  apply Sat.ite
  · intro _
    exact Sat.throw trivial
  intro hsize
  obtain ⟨X, hX, h₇⟩ := h₇ (not_not.mp hsize)
  have hne : v ≠ (s₂.icache dp).inum := by
    have hw := hdp₅.world
    rw [Ctx.own_comm] at hw
    exact Loaded.ne (hip₅.of_world hw (Ctx.mem_hold _ ip))
      (hdp₅.of_world hw (Ctx.sub_hold _ ip dp (Ctx.mem_hold _ dp)))
  have hcleared := (h₇.widen (entry_le_area (i := v)
    (subset_refl X))).after hread fun c hc => Ctx.sub_own _ dp c (k.inOp.sub_own ip c hc)
  have hdp₇ := hdp₅.turned h₇ hdp₅.mem hdp₅.mem (revise_self hdp₅.node)
  have hip₇ : Loaded s₇ ((k.inOp.own ip).own dp) ip v m :=
    hip₅.turned h₇ hip₅.mem hip₅.mem ((revise_of_ne hne).trans hip₅.node)
  have htype : (s₁.node v).map Node.type = some (s₅.icache ip).din.type := by
    rw [hnode', hm.type_eq]
    rfl
  refine (unlinkEnd_acts hcleared hdp₇ hip₇ hk (by omega) ha₁ htype).imp ?_
  rintro r t ⟨rfl, ht⟩
  exact ⟨_, .removed hparent hdots.1 hdots.2 hlookup' ⟨n, hnode, hdir, hb⟩
    hnode' hlinked hbare, ht⟩

/-! ## New files -/

theorem bindings_nil : bindings [] = [] :=
  rfl

/-- The only vacant slot of an empty directory. -/
theorem Vacant.eq_zero (h : Vacant [] j) : j = 0 := by
  rcases h with hfree | hend
  · rw [Free, bindings_nil] at hfree
    cases hfree
  · simpa [Dirent.size] using hend

/-- The bytes of a directory with one entry. -/
theorem bindings_single {de : Dirent} :
    bindings (splice [] (Dirent.size * 0) de.bytes) = [bindingOf de] := by
  rw [bindings_splice de (dvd_zero _) (Nat.zero_le _)]
  rfl

/-- The vacant slot of a directory with one entry. -/
theorem Vacant.eq_one {de : Dirent} (hlive : bindingOf de ≠ none)
    (h : Vacant (splice [] (Dirent.size * 0) de.bytes) j) : j = 1 := by
  have hlen : (splice [] (Dirent.size * 0) de.bytes).length = Dirent.size := by
    rw [length_splice (show Dirent.size * 0 ≤ ([] : Bytes).length from
      le_refl 0), de.length_bytes]
    rfl
  rcases h with hfree | hend
  · rw [Free, bindings_single] at hfree
    rcases j with _ | j
    · exact absurd (Option.some.inj hfree) hlive
    · cases hfree
  · rw [hlen] at hend
    simp only [Dirent.size] at hend
    omega

/-- The first two entries of the new directory `ip`. -/
theorem createDots_turns (h : Loaded s (k.lock ip) ip i m)
    (hdp : Loaded s (k.lock ip) dp d n) (hne : i ≠ d) (hop : k.op = true)
    (hm : m.data = []) (hpos : 1 ≤ i) (hi : i ≤ 65535)
    (ha : Anchored (k.anchors s) s.node) :
    Sat (createDots ip dp) s (fun _ t => ∃ X : Finset ℕ, X.card ≤ 4 ∧
      Turns (k.lock ip) (k.lock ip)
        (revise i (fun m => { m with data := dotsData i d }) ∘
          revise d (Node.relinked (· + 1))) (area i d X) s t)
      fun _ => True := by
  refine (updateNlink_turns (· + 1) hdp hop).andThen fun _ t ht => ?_
  have hat : Anchored (k.anchors t) t.node := by
    rw [ht.node]
    refine (ha.mono ht.frame.anchors_subset).revise fun _ _ _ => ?_
    exact ⟨dp, hdp.mem, (ht.frame.inum dp hdp.mem).trans hdp.inum,
      ht.frame.valid dp hdp.mem hdp.valid⟩
  have hip : Loaded t (k.lock ip) ip i m :=
    h.turned ht h.mem h.mem ((revise_of_ne hne).trans h.node)
  refine .bind (Sat.get ?_)
  rw [hip.inum]
  refine (dirlink_turns dot hip hop hip.lt hat).andThen ?_
  rintro ok u ⟨-, hu⟩
  apply Sat.ite
  · intro _
    exact Sat.throw trivial
  intro hok
  rw [if_neg hok, hm] at hu
  obtain ⟨-, j, hj, X, hX, hu⟩ := hu
  obtain rfl := hj.eq_zero
  have hau := hu.entered hat
  have hiu : Loaded u (k.lock ip) ip i (Node.entered 0 (linkDirent dot i) m) :=
    hip.turned hu h.mem h.mem (revise_self hip.node)
  have hdu : (t.icache dp).inum = d :=
    (ht.frame.inum dp hdp.mem).trans hdp.inum
  have hdd : (u.icache dp).inum = d :=
    (hu.frame.inum dp hdp.mem).trans hdu
  have hlive : bindingOf (linkDirent dot i) ≠ none := by
    rw [bindingOf_linkDirent hpos hi]
    exact Option.some_ne_none _
  rw [hdu]
  refine (dirlink_turns dotdot hiu hop ?_ hau).andThen ?_
  · rw [← hdd]
    exact hu.world.inum_lt hdp.mem
  rintro ok v ⟨-, hv⟩
  apply Sat.ite
  · intro _
    exact Sat.throw trivial
  intro hok
  rw [if_neg hok, Node.entered, hm] at hv
  obtain ⟨-, j, hj, Y, hY, hv⟩ := hv
  obtain rfl := hj.eq_one hlive
  have hcard := Finset.card_union_le X Y
  refine Sat.pure ⟨X ∪ Y, by omega, ?_⟩
  have hlinked := ht.widen (C := area i d (X ∪ Y)) parent_le_area
  have hboth := (hlinked.within (hu.widen (dots_le_area
    Finset.subset_union_left)) fun _ hc => hc).within (hv.widen (dots_le_area
      Finset.subset_union_right)) fun _ hc => hc
  refine hboth.recast ?_
  have hnode : revise d (Node.relinked (· + 1)) s.node i = some m :=
    (revise_of_ne hne).trans h.node
  rw [Function.comp_apply, Function.comp_apply, Function.comp_apply,
    revise_revise, revise_eq hnode, revise_eq hnode, Function.comp_apply,
    Node.entered, Node.entered, hm]
  rfl

/-- What `create` and `sys_open` have obtained: the inode `i`, locked. -/
structure Obtained (k : Ctx P) (ip : Slot) (i : ℕ) (e : Edit) (s t : State P) :
    Prop where
  loaded : ∃ n, Loaded t (k.own ip) ip i n
  turns : ∃ d, ∃ X : Finset ℕ, X.card ≤ 6 ∧ Turns k (k.own ip)
    (fun f => swept ((k.own ip).held t) (e.apply f)) (area i d X) s t
  anchored : Anchored ((k.own ip).anchors t) t.node

theorem Obtained.of_quiet (h : Quiet k (k.own ip) s t)
    (hn : Loaded t (k.own ip) ip i n) (ha : Anchored (k.anchors s) s.node) :
    Obtained k ip i .none s t := by
  have hat := h.anchored ha
  refine ⟨⟨n, hn⟩, ⟨0, ∅, Nat.zero_le 6, ?_⟩,
    hat.mono (Ctx.anchors_mono (k.sub_own ip))⟩
  refine (h.widen fun _ => Finset.empty_subset _).recast ?_
  have hswept := (hat.mono ((Ctx.anchors_mono (k.sub_own ip)).trans
    ((k.own ip).anchors_subset t))).swept_eq
  rw [h.node] at hswept
  exact hswept.symm

/-- The new inode of `create` gets its name. -/
theorem createEnd_obtained {type major minor : BitVec 16}
    (h : Quiet k (k.own dp) s t) (hdp : Loaded t (k.own dp) dp d n)
    (hop : k.op = true) (htype : type ≠ 0) (hsize : s.sb.ninodes ≤ 65536)
    (ha : Anchored (k.anchors s) s.node) (hdir : n.type = T_DIR)
    (hcut : cutName name = name)
    (hnew : lookup (bindings n.data) (cutName name) = none) :
    Sat (do
      let ip ← ialloc type
      ilock ip
      let d ← getDin ip
      setDin ip { d with major := major, minor := minor, nlink := 1 }
      iupdate ip
      (if type = T_DIR then createDots ip dp else pure ())
      let s ← get
      let ok ← dirlink dp name (s.icache ip).inum
      if ok = false then panic "create: dirlink"
      else do
        iunlockput dp
        pure (some ip)) t (fun r u => ∃ ip i j, r = some ip ∧
          s.node i = none ∧ 0 < i ∧ RoomAt s.node d j name ∧
            Obtained k ip i (.create i d j name type major minor) s u)
      fun _ => True := by
  have hat := h.anchored ha
  have hnode : s.node d = some n := by
    rw [← hdp.node, h.node]
    rfl
  refine allocate_turns h.world hop htype ?_
  intro ip u i hpos hfree hu hip
  have hne : i ≠ d := by
    rintro rfl
    rw [hdp.node] at hfree
    cases hfree
  have hsub := (k.own dp).sub_own ip
  have hau : Anchored (((k.own dp).hold ip).anchors u) u.node := by
    rw [hu.node]
    refine Anchored.plant ?_ (show (1 : BitVec 16) ≠ 0 by decide)
    exact (hat.mono (Ctx.anchors_mono (k.sub_own dp))).mono
      (hu.frame.anchors_subset.trans (Ctx.anchors_mono hsub))
  have hdpu : Loaded u ((k.own dp).own ip) dp d n :=
    hdp.turned hu hdp.mem (hsub dp hdp.mem)
      ((plant_of_ne hne.symm).trans hdp.node)
  have hfields : Sat (if type = T_DIR then createDots ip dp else pure ()) u
      (fun _ v => Loaded v ((k.own dp).own ip) ip i
          (newNode i d type major minor) ∧ ∃ X : Finset ℕ, X.card ≤ 4 ∧
        Turns (k.own dp) ((k.own dp).own ip)
          (fun f => relinkDir (some type) d (· + 1)
            (plant i (newNode i d type major minor) f)) (area i d X) t v)
      fun _ => True := by
    by_cases htdir : type = T_DIR
    · subst htdir
      have hlt : i < 65536 := by
        refine lt_of_lt_of_le hip.lt ?_
        rw [hu.frame.sb, h.frame.sb]
        exact hsize
      rw [if_pos rfl]
      refine (createDots_turns (k := (k.own dp).hold ip) hip hdpu hne hop rfl
        hpos (by omega) hau).imp ?_
      rintro _ v ⟨X, hX, hv⟩
      refine ⟨hip.turned hv hip.mem hip.mem ?_, X, hX,
        ((hu.widen inode_le_area).within hv hsub).recast ?_⟩
      · rw [Function.comp_apply,
          revise_self ((revise_of_ne hne).trans hip.node), newNode, if_pos rfl]
      · rw [Function.comp_apply, Function.comp_apply, revise_comm hne,
          revise_plant, relinkDir, if_pos rfl, newNode, if_pos rfl]
    · have hnew : newNode i d type major minor =
          ⟨type, major, minor, 1, []⟩ := by
        rw [newNode, if_neg htdir]
      rw [if_neg htdir, hnew]
      refine Sat.pure ⟨hip, ∅, Nat.zero_le 4,
        (hu.widen inode_le_area).recast ?_⟩
      rw [relinkDir, if_neg fun hc => htdir (Option.some.inj hc)]
      rfl
  refine hfields.andThen ?_
  rintro _ v ⟨hipv, X, hX, hv⟩
  obtain ⟨n', hn', htype', hdata'⟩ : ∃ n', relinkDir (some type) d (· + 1)
      (plant i (newNode i d type major minor) t.node) d = some n' ∧
        n'.type = n.type ∧ n'.data = n.data :=
    relinkDir_self ((plant_of_ne hne.symm).trans hdp.node)
  have hdpv : Loaded v ((k.own dp).own ip) dp d n' :=
    hdp.turned hv hdp.mem (hsub dp hdp.mem) hn'
  have hav : Anchored (((k.own ip).hold dp).anchors v) v.node := by
    have hd : d ∈ ((k.own ip).hold dp).anchors v :=
      ⟨dp, Ctx.mem_hold _ dp, hdpv.inum, hdpv.valid⟩
    rw [hv.node]
    refine Anchored.relinkDir (Anchored.plant ?_ ?_) hd
    · refine (hat.mono (Ctx.anchors_mono (k.sub_own dp))).mono
        (hv.frame.anchors_subset.trans ?_)
      rintro l ⟨c, hc, hl⟩
      rcases Multiset.mem_cons.mp hc with rfl | hc
      · exact ⟨c, Ctx.mem_hold _ c, hl⟩
      · exact ⟨c, Ctx.sub_hold _ dp c (k.sub_own ip c hc), hl⟩
    · exact show (1 : BitVec 16) ≠ 0 by decide
  rw [Ctx.own_comm] at hdpv hipv hv
  refine .bind (Sat.get ?_)
  rw [hipv.inum]
  refine (dirlink_turns (k := (k.own ip).hold dp) name hdpv hop hipv.lt
    hav).andThen ?_
  rintro ok w ⟨-, hw⟩
  apply Sat.ite
  · intro _
    exact Sat.throw trivial
  intro hok
  rw [if_neg hok, hdata'] at hw
  obtain ⟨-, j, hj, Y, hY, hw⟩ := hw
  have haw := hw.entered (hav.mono (Ctx.anchors_mono fun _ hc => hc))
  have hdw : (w.icache dp).inum = d :=
    (hw.frame.inum dp hdpv.mem).trans hdpv.inum
  have hput := iunlockput_sweeps (k := k.own ip) hw.world hop haw
  rw [hdw] at hput
  refine hput.andThen ?_
  rintro _ x ⟨hx, hax⟩
  have hsub' : ∀ c ∈ k.refs, c ∈ ((k.own ip).own dp).refs :=
    fun c hc => Ctx.sub_own _ dp c (k.sub_own ip c hc)
  have hcard := Finset.card_union_le X Y
  have hmade := (hv.widen (area_mono (Y := X ∪ Y)
    Finset.subset_union_left)).after h (k.sub_own dp)
  have hnamed := hmade.within (hw.widen (entry_le_area
    Finset.subset_union_right)) hsub'
  have hdone := hnamed.within (hx.widen (sup_le parent_le_area
    bitmap_le_area)) (k.sub_own ip)
  have hipw : Loaded w ((k.own ip).own dp) ip i
      (newNode i d type major minor) :=
    hipv.turned hw hipv.mem hipv.mem ((revise_of_ne hne).trans hipv.node)
  have hipx : Loaded x (k.own ip) ip i (newNode i d type major minor) := by
    refine hipw.turned hx (k.mem_hold ip) (k.mem_hold ip) ?_
    rw [swept_of_links hipw.node]
    exact show (1 : BitVec 16) ≠ 0 by decide
  refine Sat.pure ⟨ip, i, j, rfl, ?_, hpos, ?_, ⟨_, hipx⟩, ⟨d, X ∪ Y, by omega,
    hdone.recast ?_⟩, hax⟩
  · rw [← hfree, h.node]
    rfl
  · refine ⟨hcut, ?_, n, hnode, hdir, hj⟩
    rw [lookupAt_eq hnode hdir, ← hnew, hcut]
  · rw [hx.frame.held_eq]
    rfl

/-- What a part of a call that looks for an inode returns. -/
inductive Gives (k : Ctx P) (s t : State P) :
    Option Slot → Option ℕ → Edit → Prop
  | nothing (h : Quiet k k s t) : Gives k s t none none .none
  | inode {ip : Slot} {i : ℕ} {e : Edit} (h : Obtained k ip i e s t) :
      Gives k s t (some ip) (some i) e

theorem create_gives (p : P) (path : Bytes) (type major minor : BitVec 16)
    (h : World s k) (hop : k.op = true) (hcwd : s.cwd p ∈ k.refs)
    (ha : Anchored (k.anchors s) s.node) (htype : type ≠ 0)
    (hsize : s.sb.ninodes ≤ 65536) :
    Sat (create p path type major minor) s (fun r t => ∃ o e,
      CreateEdit s.node (s.startInum p path) (components path) type major minor
        o e ∧ Gives k s t r o e) fun _ => True := by
  refine (nameiparent_arrives p path h hop hcwd ha).andThen ?_
  rintro (_ | ⟨dp, name⟩) t ht
  · exact Sat.pure ⟨none, .none, .orphan ht.1, .nothing ht.2⟩
  obtain ⟨hparent, hcut, hisdir, ht⟩ := ht
  refine (ilock_parent ht.world hisdir).andThen ?_
  rintro _ u ⟨hu, n, hdir, hn⟩
  have hlocked := hu.after ht (k.sub_hold dp)
  have hnode : s.node (t.icache dp).inum = some n := by
    rw [← hn.node, hlocked.node]
    rfl
  have hlookup : lookupAt s.node (t.icache dp).inum name =
      lookup (bindings n.data) (cutName name) := by
    rw [hcut, lookupAt_eq hnode hdir]
  refine (dirlookup_finds name hn).andThen ?_
  rintro (_ | ⟨ip, off⟩) v ⟨-, hv⟩
  · obtain ⟨hv, hmiss⟩ := hv
    have hall := hv.after hlocked (k.sub_own dp)
    refine (createEnd_obtained hall (hn.quiet hv hn.mem hn.mem) hop htype hsize
      ha hdir hcut hmiss).imp ?_
    rintro _ w ⟨ip, i, j, rfl, hfree, hpos, hroom, hw⟩
    exact ⟨some i, _, .created hparent hroom hfree hpos, .inode hw⟩
  · obtain ⟨j, i, -, -, hfound, hv, hinum⟩ := hv
    have hall := hv.after hlocked (k.sub_own dp)
    rw [Ctx.own_hold] at hall
    refine (iunlockput_quiet (k := k.hold ip) hall.world hop
      ((hall.anchored ha).mono (Ctx.anchors_mono (k.sub_hold ip)))).andThen ?_
    intro _ w hw
    have hheld := hw.after hall (k.sub_hold ip)
    refine (ilock_own_turns hw.world).andThen ?_
    rintro _ x ⟨hx, m, hm⟩
    have hend := hx.after hheld (k.sub_hold ip)
    have hiw : (w.icache ip).inum = i :=
      (hw.frame.inum ip (k.mem_hold ip)).trans hinum
    rw [hiw] at hm
    have hnode' : s.node i = some m := by
      rw [← hm.node, hend.node]
      rfl
    apply getDin_bind
    rw [hm.type_eq]
    apply Sat.ite
    · rintro ⟨htf, hfile⟩
      exact Sat.pure ⟨some i, .none, .opened hparent (hlookup.trans hfound)
        hnode' htf hfile, .inode (.of_quiet hend hm ha)⟩
    · intro hnot
      refine (iunlockput_quiet (k := k) hm.world hop
        (hend.anchored ha)).andThen fun _ y hy => ?_
      exact Sat.pure ⟨none, .none, .present hparent (hlookup.trans hfound)
        hnode' hnot, .nothing (hy.after hend fun _ hc => hc)⟩

theorem openInode_gives (p : P) (path : Bytes) (omode : BitVec 32)
    (h : World s k) (hop : k.op = true) (hcwd : s.cwd p ∈ k.refs)
    (ha : Anchored (k.anchors s) s.node) (hsize : s.sb.ninodes ≤ 65536) :
    Sat (openInode p path omode) s (fun r t => ∃ o e,
      OpenEdit s.node (s.startInum p path) (components path) omode o e ∧
        Gives k s t r o e) fun _ => True := by
  apply Sat.ite
  · intro hmode
    refine (create_gives p path T_FILE 0 0 h hop hcwd ha (by decide)
      hsize).imp ?_
    rintro r t ⟨o, e, he, hr⟩
    exact ⟨o, e, .create hmode he, hr⟩
  · intro hmode
    rw [not_not] at hmode
    refine (namei_arrives p path h hop hcwd ha).andThen ?_
    rintro (_ | ip) t ⟨hwalk, ht⟩
    · exact Sat.pure ⟨none, .none, .missing hmode hwalk, .nothing ht⟩
    refine (ilock_own_turns ht.world).andThen ?_
    rintro _ u ⟨hu, n, hn⟩
    have hlocked := hu.after ht (k.sub_hold ip)
    have hnode : s.node (t.icache ip).inum = some n := by
      rw [← hn.node, hlocked.node]
      rfl
    apply getDin_bind
    rw [hn.type_eq]
    apply Sat.ite
    · rintro ⟨hdir, hwrite⟩
      refine (iunlockput_quiet (k := k) hn.world hop
        (hlocked.anchored ha)).andThen fun _ v hv => ?_
      refine Sat.pure ⟨none, .none, .directory hmode hwalk ?_ hwrite,
        .nothing (hv.after hlocked fun _ hc => hc)⟩
      rw [isDir_eq hnode]
      exact beq_iff_eq.mpr hdir
    · intro hnot
      refine Sat.pure ⟨_, .none, .opened hmode hwalk fun hisdir => ?_,
        .inode (.of_quiet hlocked hn ha)⟩
      rw [isDir_eq hnode, beq_iff_eq] at hisdir
      by_contra hmode'
      exact hnot ⟨hisdir, hmode'⟩

end ZtlOs.Kernel
