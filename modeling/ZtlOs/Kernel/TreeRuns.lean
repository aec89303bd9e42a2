import ZtlOs.Kernel.FlatVolume

/-!
# Runs that keep the tree

In every run of sober calls from a rooted disk the names form a tree, so that
there is one path to every directory, and an inode to which there is no path
is open or a current directory.
-/

namespace ZtlOs.Kernel

open ZtlOs.Support ZtlOs.Support.Program ZtlOs.Support.Bindings
open ZtlOs.Support.Hierarchy ZtlOs.Fs

variable {f : Nodes} {d i j k : ℕ} {n : Node} {x : Bytes} {xs : List Bytes}

/-! ## Paths -/

theorem walk_append : walk f i (xs ++ [x]) =
    (walk f i xs).bind fun k => lookupAt f k x := by
  induction xs generalizing i with
  | nil =>
      rw [List.nil_append, walk, walk, Option.bind_some]
      cases lookupAt f i x with
      | none => rfl
      | some k => rfl
  | cons y xs ih =>
      rw [List.cons_append, walk, walk, Option.bind_assoc]
      exact congrArg _ (funext fun k => ih)

theorem exists_namesAt (h : lookupAt f d x = some i) :
    ∃ j, NamesAt f d j x i := by
  unfold lookupAt at h
  split at h
  · cases h
  · next n hn =>
      split at h
      · next hdir =>
          obtain ⟨j, hj⟩ := exists_binds_of_lookup h
          exact ⟨j, n, hn, hdir, hj⟩
      · cases h

namespace Orderly

variable (ho : Orderly f)

include ho

/-- A directory with links has no name twice. -/
theorem distinct_bindings {n : Node} (hl : (hierarchy f).Linked d)
    (hn : f d = some n) (hdir : n.type = T_DIR) : Distinct (bindings n.data) :=
  fun _ _ _ _ _ h₁ h₂ => ho.sound.distinct d _ _ _ _ _
    ⟨hl, n, hn, hdir, h₁⟩ ⟨hl, n, hn, hdir, h₂⟩

theorem lookupAt_eq (he : (hierarchy f).Entry d j x i) :
    lookupAt f d x = some i := by
  obtain ⟨n, hn, hdir, hb⟩ := he.2
  have hdistinct := ho.distinct_bindings he.1 hn hdir
  rw [Kernel.lookupAt_eq hn hdir]
  exact (lookup_eq_some hdistinct).mpr ⟨j, hb⟩

/-- The names of a path lead where the path does. -/
theorem walk_of_route (hp : Route dots (hierarchy f) xs i) :
    walk f ROOTINO xs.reverse = some i := by
  induction hp with
  | root => rfl
  | child _ _ he ih =>
      rw [List.reverse_cons, walk_append, ih, Option.bind_some,
        ho.lookupAt_eq he]

theorem route_of_walk (hx : ∀ x ∈ xs, Proper dots x)
    (hw : walk f ROOTINO xs.reverse = some i) :
    Route dots (hierarchy f) xs i := by
  induction xs generalizing i with
  | nil =>
      obtain rfl := Option.some.inj hw
      exact .root
  | cons x xs ih =>
      obtain ⟨hproper, hrest⟩ := List.forall_mem_cons.mp hx
      rw [List.reverse_cons, walk_append] at hw
      obtain ⟨d, hd, hi⟩ := Option.bind_eq_some_iff.mp hw
      obtain ⟨j, hj⟩ := exists_namesAt hi
      have hp := ih hrest hd
      exact hp.child hproper ⟨hp.linked ho.sound hj.isDir, hj⟩

end Orderly

/-! ## Sober calls -/

section Runs

variable {P : Type} [DecidableEq P] [Fintype P] {s t : State P}
variable {disk : ℕ → Block} {v : List (P × Call)} {e : Edit} {p : P} {c : Call}
variable {r : ℤ}

/-- A call whose new entry, if any, is in a directory that has links, and which
lets no number of links overflow. -/
def SoberCall (s : State P) (a : P × Call) : Prop :=
  ∀ r e, a.2.Edits a.1 s r e → e.Sober s.node

omit [DecidableEq P] [Fintype P] in
/-- Numbers of inodes fit into directory entries. -/
theorem Makes.numbered (h : Makes e s t) (hsize : s.sb.ninodes ≤ 65536) :
    Numbered (e.apply s.node) := by
  intro i n hn hlink
  have ht : t.node i = some n := by
    rw [h.node]
    exact swept_of_links hn hlink
  have hlt := (of_node_eq_some ht).1
  rw [h.sb] at hlt
  omega

/-- A call keeps the tree if and only if its edit is sober. -/
theorem Tended.orderly_iff (h : Tended s) (ho : Orderly s.node)
    (hrun : c.run p s.start = .ok (r, t)) : ∃ e, c.Edits p s r e ∧
      Makes e s t ∧ (Orderly t.node ↔ e.Sober s.node) := by
  obtain ⟨-, e, he, ht, -⟩ := h.call hrun
  have hnum := ht.numbered h.numbered
  refine ⟨e, he, ht, ?_⟩
  rw [ht.node]
  exact ⟨fun ho' => ho.sober he.legal hnum ho',
    fun hsober => (ho.apply he.legal hsober hnum).swept⟩

theorem Rooted.orderly_run (hdisk : Rooted disk)
    (hs : Run callStep (boot disk) v s)
    (hsober : Meets callStep SoberCall (boot disk) v) :
    Tended s ∧ Orderly s.node := by
  refine hs.invariant_of_meets (I := fun s => Tended s ∧ Orderly s.node) ?_
    hsober ⟨hdisk.toFresh.tended, hdisk.orderly⟩
  rintro s a t ⟨h, ho⟩ hC hstep
  obtain ⟨r, hrun⟩ := callStep_eq_next hstep
  obtain ⟨e, he, -, hiff⟩ := h.orderly_iff ho hrun
  exact ⟨h.step hstep, hiff.mpr (hC r e he)⟩

/-! ### Calls on the volume with one file -/

/-- All nodes have links, and none has as many as can be counted. -/
def State.linksInRange (s : State P) : Bool :=
  (List.range s.sb.ninodes).all fun i =>
    match s.node i with
    | none => true
    | some n => decide (n.nlink ≠ 0 ∧ n.nlink ≠ 0xffff)

omit [DecidableEq P] [Fintype P] in
theorem State.nlink_of_linksInRange (h : s.linksInRange = true) {i : ℕ}
    {n : Node} (hn : s.node i = some n) : n.nlink ≠ 0 ∧ n.nlink ≠ 0xffff := by
  have hi := List.all_eq_true.mp h i
    (List.mem_range.mpr (of_node_eq_some hn).1)
  rw [hn] at hi
  exact of_decide_eq_true hi

omit [DecidableEq P] [Fintype P] in
theorem soberCall_of_linksInRange {a : P × Call}
    (h : s.linksInRange = true) : SoberCall s a := by
  intro r e _
  cases e with
  | none | unlink | write => trivial
  | link i d j name =>
      exact ⟨fun n hn => (State.nlink_of_linksInRange h hn).1,
        fun n hn => (State.nlink_of_linksInRange h hn).2⟩
  | create i d j name type major minor =>
      exact ⟨fun n hn => (State.nlink_of_linksInRange h hn).1,
        fun _ n hn => (State.nlink_of_linksInRange h hn).2⟩

omit [Fintype P] in
/-- A run between states in which all numbers of links are in range. -/
theorem meets_sober
    (h : Meets callStep (fun s _ => s.linksInRange = true) s v) :
    Meets callStep SoberCall s v :=
  h.imp_of_invariant (I := fun _ => True) (fun _ _ _ _ _ _ => trivial)
    (fun _ _ _ hs => soberCall_of_linksInRange hs) trivial

end Runs

/-- The file `/a` gets a name in the new directory `/d`. -/
def flatCalls : List (Unit × Call) :=
  [((), .mkdir (some [0x2f, 0x64])),
    ((), .link (some [0x2f, 0x61]) (some [0x2f, 0x64, 0x2f, 0x62]))]

theorem flatCalls_sober :
    Meets callStep SoberCall (boot flatVolume) flatCalls := by
  have hlinks : Meets callStep (fun s _ => s.linksInRange = true)
      (boot flatVolume) flatCalls := by decide +kernel
  exact meets_sober hlinks

/-- Inode 3 is the directory `/d`, and `/d/b` is inode 2. -/
def checkFlat (s : State Unit) : Bool :=
  decide (walk s.node ROOTINO [[0x64], [0x62]] = some 2) &&
    (s.node 3).any fun n => decide (n.type = T_DIR ∧ n.nlink ≠ 0)

theorem flatCalls_run : ∃ s, Run callStep (boot flatVolume) flatCalls s ∧
    walk s.node ROOTINO [[0x64], [0x62]] = some 2 ∧
      ∃ n, s.node 3 = some n ∧ n.type = T_DIR ∧ n.nlink ≠ 0 := by
  obtain ⟨s, hs, hcheck⟩ := Run.exists_of_exec callStep (boot flatVolume)
    flatCalls checkFlat (by decide +kernel)
  rw [checkFlat, Bool.and_eq_true, decide_eq_true_eq] at hcheck
  obtain ⟨n, hn, hdir⟩ := (Option.any_eq_true _ _).mp hcheck.2
  exact ⟨s, hs, hcheck.1, n, hn, of_decide_eq_true hdir⟩

section Runs

variable {P : Type} [DecidableEq P] [Fintype P] {s t : State P}
variable {disk : ℕ → Block} {v : List (P × Call)} {p : P} {c : Call} {r : ℤ}

/-- In every run of sober calls from a rooted disk, the directories that have
links form a tree, and every inode has as many links as there are names for it
in them. -/
theorem names_form_tree (hdisk : Rooted disk)
    (hs : Run callStep (boot disk) v s)
    (hsober : Meets callStep SoberCall (boot disk) v) : Orderly s.node :=
  (hdisk.orderly_run hs hsober).2

theorem names_form_tree_flat : ∃ s,
    Run callStep (boot flatVolume) flatCalls s ∧
      walk s.node ROOTINO [[0x64], [0x62]] = some 2 ∧ Orderly s.node := by
  obtain ⟨s, hs, hwalk, -⟩ := flatCalls_run
  exact ⟨s, hs, hwalk, names_form_tree flatVolume_rooted hs flatCalls_sober⟩

/-- While the names form a tree, a call that returns keeps it a tree if and
only if its edit is sober. -/
theorem calls_keep_tree_iff (hdisk : Fresh disk)
    (hs : Run callStep (boot disk) v s) (ho : Orderly s.node)
    (hrun : c.run p s.start = .ok (r, t)) :
    ∃ e, c.Edits p s r e ∧ (Orderly t.node ↔ e.Sober s.node) := by
  obtain ⟨e, he, -, hiff⟩ := (hdisk.tended_run hs).orderly_iff ho hrun
  exact ⟨e, he, hiff⟩

/-! ### A file in a removed directory -/

/-- The new directory `/d` is the current directory when its name is removed. -/
def removedCalls : List (Unit × Call) :=
  [((), .mkdir (some [0x2f, 0x64])), ((), .chdir (some [0x2f, 0x64])),
    ((), .unlink (some [0x2f, 0x64]))]

theorem removedCalls_sober :
    Meets callStep SoberCall (boot flatVolume) removedCalls := by
  have hlinks : Meets callStep (fun s _ => s.linksInRange = true)
      (boot flatVolume) removedCalls := by decide +kernel
  exact meets_sober hlinks

/-- The call that creates the file `f` in the current directory. -/
def createHere : Call :=
  .open (some [0x66]) (O_CREATE ||| O_RDWR)

/-- The call succeeds, in a directory that has no links. -/
def checkRemoved (s : State Unit) : Bool :=
  createHere.returns () s 0 &&
    (walkParent s.node (s.startInum () [0x66]) (components [0x66])).any fun r =>
      decide (lookupAt s.node r.1 r.2 = none) &&
        (s.node r.1).any fun n => decide (n.nlink = 0)

/-- Its edit is not sober. -/
theorem createHere_not_sober {s : State Unit} {e : Edit}
    (hcheck : checkRemoved s = true) (he : createHere.Edits () s 0 e) :
    ¬e.Sober s.node := by
  rw [checkRemoved, Bool.and_eq_true] at hcheck
  obtain ⟨⟨d, name⟩, hparent, hrest⟩ := (Option.any_eq_true _ _).mp hcheck.2
  rw [Bool.and_eq_true, decide_eq_true_eq] at hrest
  obtain ⟨n, hn, hzero⟩ := (Option.any_eq_true _ _).mp hrest.2
  have hnames : ∀ {d' name'}, walkParent s.node (s.startInum () [0x66])
      (components [0x66]) = some (d', name') → d = d' ∧ name = name' :=
    fun h => Prod.mk.inj (Option.some.inj (hparent.symm.trans h))
  obtain ⟨o, ho, hr⟩ := he
  have hsome : o ≠ none := fun hnone => absurd (hr hnone) (by decide)
  cases ho with
  | missing hmode | directory hmode | opened hmode =>
      exact absurd hmode (by decide)
  | create _ hcreate =>
      cases hcreate with
      | orphan | present => exact absurd rfl hsome
      | opened h hname =>
          obtain ⟨rfl, rfl⟩ := hnames h
          rw [hrest.1] at hname
          cases hname
      | created h =>
          obtain ⟨rfl, rfl⟩ := hnames h
          exact fun hsober => hsober.1 n hn (of_decide_eq_true hzero)

theorem calls_keep_tree_iff_removed : ∃ s t,
    Run callStep (boot flatVolume) removedCalls s ∧ Orderly s.node ∧
      createHere.run () s.start = .ok (0, t) ∧ ¬Orderly t.node := by
  obtain ⟨s, hs, hcheck⟩ := Run.exists_of_exec callStep (boot flatVolume)
    removedCalls checkRemoved (by decide +kernel)
  obtain ⟨t, ht⟩ := Call.exists_of_returns (Bool.and_eq_true_iff.mp hcheck).1
  have ho := (flatVolume_rooted.orderly_run hs removedCalls_sober).2
  obtain ⟨e, he, hiff⟩ :=
    calls_keep_tree_iff flatVolume_rooted.toFresh hs ho ht
  exact ⟨s, t, hs, ho, ht, fun ho' =>
    createHere_not_sober hcheck he (hiff.mp ho')⟩

/-! ## No inode is lost -/

/-- Proper names lead from the root directory to inode `i`. -/
def HasPath (f : Nodes) (i : ℕ) : Prop :=
  ∃ names, (∀ x ∈ names, Proper dots x) ∧ walk f ROOTINO names = some i

theorem Orderly.hasPath (ho : Orderly f) (hn : f i = some n)
    (hlink : n.nlink ≠ 0) : HasPath f i := by
  have hl : (hierarchy f).links i = some n.nlink.toNat :=
    congrArg (Option.map _) hn
  obtain ⟨xs, hxs⟩ := ho.sound.exists_route hl fun hzero =>
    hlink (BitVec.eq_of_toNat_eq hzero)
  exact ⟨xs.reverse, fun x hx => hxs.proper x (List.mem_reverse.mp hx),
    ho.walk_of_route hxs⟩

/-- In every run of sober calls from a rooted disk, there is a path to every
inode that is neither open nor a current directory. -/
theorem no_inode_is_lost (hdisk : Rooted disk)
    (hs : Run callStep (boot disk) v s)
    (hsober : Meets callStep SoberCall (boot disk) v)
    (hn : s.node i = some n) :
    HasPath s.node i ∨ s.Opened i ∨ s.IsCwd i := by
  obtain ⟨h, ho⟩ := hdisk.orderly_run hs hsober
  by_cases hlink : n.nlink = 0
  · obtain ⟨c, href, hinum, -⟩ := h.anchored i n hn hlink
    exact .inr (h.settled.referenced_cases ⟨c, href, hinum⟩)
  · exact .inl (ho.hasPath hn hlink)

theorem no_inode_is_lost_flat : ∃ s,
    Run callStep (boot flatVolume) flatCalls s ∧
      (HasPath s.node 3 ∨ s.Opened 3 ∨ s.IsCwd 3) := by
  obtain ⟨s, hs, -, n, hn, -⟩ := flatCalls_run
  exact ⟨s, hs, no_inode_is_lost flatVolume_rooted hs flatCalls_sober hn⟩

/-! ## Directories have one path -/

theorem Orderly.path_unique (ho : Orderly f) {xs ys : List Bytes}
    (hdir : isDir f i = true) (hx : ∀ x ∈ xs, Proper dots x)
    (hy : ∀ y ∈ ys, Proper dots y) (hwx : walk f ROOTINO xs = some i)
    (hwy : walk f ROOTINO ys = some i) : xs = ys := by
  have hroute : ∀ {zs : List Bytes}, (∀ z ∈ zs, Proper dots z) →
      walk f ROOTINO zs = some i →
        Route dots (hierarchy f) zs.reverse i := by
    intro zs hz hw
    refine ho.route_of_walk (fun z hmem => hz z (List.mem_reverse.mp hmem)) ?_
    rwa [List.reverse_reverse]
  exact List.reverse_injective
    ((hroute hx hwx).unique (hroute hy hwy) ho.sound hdir)

/-- The name for the parent takes off the last name of a path. -/
theorem Orderly.lookupAt_up (ho : Orderly f) {xs : List Bytes}
    (hdir : isDir f i = true) (hx : ∀ y ∈ xs ++ [x], Proper dots y)
    (hw : walk f ROOTINO (xs ++ [x]) = some i) :
    lookupAt f i dotdot = walk f ROOTINO xs := by
  have hroute : Route dots (hierarchy f) (x :: xs.reverse) i := by
    refine ho.route_of_walk (fun y hy => hx y ?_) ?_
    · rcases List.mem_cons.mp hy with rfl | hy
      · exact List.mem_append_right xs (List.mem_singleton_self y)
      · exact List.mem_append_left _ (List.mem_reverse.mp hy)
    · rwa [List.reverse_cons, List.reverse_reverse]
  have hlinked := hroute.linked ho.sound hdir
  obtain ⟨d, hd⟩ := ho.sound.up i hlinked
  have hparent := ho.walk_of_route (hroute.up ho.sound hdir hd)
  rw [List.reverse_reverse] at hparent
  rw [hparent]
  exact ho.lookupAt_eq ⟨hlinked, hd⟩

/-- In every run of sober calls from a rooted disk, there is exactly one path to
a directory that has links, and its name for its parent takes off the last name
of the path. -/
theorem directories_have_one_path (hdisk : Rooted disk)
    (hs : Run callStep (boot disk) v s)
    (hsober : Meets callStep SoberCall (boot disk) v)
    (hn : s.node d = some n) (hdir : n.type = T_DIR) (hlink : n.nlink ≠ 0) :
    (∃! names, (∀ x ∈ names, Proper dots x) ∧
      walk s.node ROOTINO names = some d) ∧
    ∀ names x, (∀ y ∈ names ++ [x], Proper dots y) →
      walk s.node ROOTINO (names ++ [x]) = some d →
        lookupAt s.node d dotdot = walk s.node ROOTINO names := by
  have ho := (hdisk.orderly_run hs hsober).2
  have hisDir := isDir_iff.mpr ⟨n, hn, hdir⟩
  obtain ⟨xs, hx, hwx⟩ := ho.hasPath hn hlink
  refine ⟨⟨xs, ⟨hx, hwx⟩, ?_⟩, fun names x => ho.lookupAt_up hisDir⟩
  rintro ys ⟨hy, hwy⟩
  exact ho.path_unique hisDir hy hx hwy hwx

theorem directories_have_one_path_flat : ∃ s,
    Run callStep (boot flatVolume) flatCalls s ∧
      ∃! names, (∀ x ∈ names, Proper dots x) ∧
        walk s.node ROOTINO names = some 3 := by
  obtain ⟨s, hs, -, n, hn, hdir, hlink⟩ := flatCalls_run
  exact ⟨s, hs, (directories_have_one_path flatVolume_rooted hs
    flatCalls_sober hn hdir hlink).1⟩

end Runs

end ZtlOs.Kernel
