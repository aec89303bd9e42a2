import ZtlOs.Kernel.TreeRuns

/-!
# Restarts

Between two calls the disk has everything: a restart finds the same files and
directories.  Only the inodes that were removed while they were open or a
current directory are lost by it, for nobody refers to them any more.
-/

namespace ZtlOs.Kernel

open ZtlOs.Support ZtlOs.Support.Hierarchy ZtlOs.Fs

/-! ## The disk between two calls -/

section AtRest

variable {P : Type} {s : State P} {i : ℕ} {n : Node}

/-- The nodes are read off the disk again. -/
theorem Intact.node_boot {Q : Type} [Fintype Q] (h : Intact s) :
    (boot (P := Q) s.disk).node = s.node := by
  have hsb := h.owned.superblock
  funext i
  unfold State.node State.bytes State.inode boot
  dsimp only
  rw [hsb]

theorem Intact.formatted (h : Intact s) : Formatted s.disk where
  owned := by
    rw [h.owned.superblock]
    exact h.owned
  entries := by
    rw [h.node_boot, h.owned.superblock]
    exact h.entries

/-- An inode with a path has links. -/
theorem HasPath.nlink_ne_zero (hpath : HasPath s.node i)
    (ho : Orderly s.node) (hn : s.node i = some n) : n.nlink ≠ 0 := by
  obtain ⟨names, hx, hw⟩ := hpath
  have hroute : Route dots (hierarchy s.node) names.reverse i := by
    refine ho.route_of_walk (fun x hmem => hx x (List.mem_reverse.mp hmem)) ?_
    rwa [List.reverse_reverse]
  obtain ⟨l, hl, hne⟩ := hroute.exists_links ho.sound
  have hlinks : (hierarchy s.node).links i = some n.nlink.toNat :=
    congrArg (Option.map _) hn
  obtain rfl := Option.some.inj (hlinks.symm.trans hl)
  exact fun hzero => hne (congrArg BitVec.toNat hzero)

variable [Fintype P]

/-- The disk is fresh again when all nodes have links. -/
theorem Tended.fresh_iff (h : Tended s) :
    Fresh s.disk ↔ ∀ i n, s.node i = some n → n.nlink ≠ 0 := by
  constructor
  · intro hfresh
    have hlinked := hfresh.linked
    rwa [h.intact.node_boot] at hlinked
  · intro hlinked
    refine ⟨h.intact.formatted, ?_, ?_⟩
    · rwa [h.intact.node_boot]
    · rw [h.intact.owned.superblock]
      exact h.numbered

/-- It is rooted again when there is a path to every node. -/
theorem Tended.rooted_iff (h : Tended s) (ho : Orderly s.node) :
    Rooted s.disk ↔ ∀ i, s.node i ≠ none → HasPath s.node i := by
  constructor
  · intro hrooted i hi
    obtain ⟨n, hn⟩ := Option.ne_none_iff_exists'.mp hi
    exact ho.hasPath hn (h.fresh_iff.mp hrooted.toFresh i n hn)
  · intro hpath
    refine ⟨h.fresh_iff.mpr fun i n hn => ?_, ?_⟩
    · exact (hpath i (by rw [hn]; exact Option.some_ne_none n)).nlink_ne_zero
        ho hn
    · rwa [h.intact.node_boot]

end AtRest

/-! ## Sessions -/

section Sessions

variable {P : Type} [DecidableEq P] [Fintype P] {s t : State P}
variable {disk : ℕ → Block}

/-- What happens to a machine. -/
inductive Act (P : Type) where
  | call (p : P) (c : Call)
  /-- The machine stops between two calls and is started again. -/
  | restart

def sessionStep (s : State P) : Act P → Outcome (State P)
  | .call p c => callStep s (p, c)
  | .restart => .next (boot s.disk)

/-- Calls are sober, and a restart loses no inode. -/
def SoberAct (s : State P) : Act P → Prop
  | .call p c => SoberCall s (p, c)
  | .restart => ∀ i, s.node i ≠ none → HasPath s.node i

omit [DecidableEq P] in
theorem Rooted.tended_boot (h : Rooted disk) :
    Tended (boot (P := P) disk) ∧ Orderly (boot (P := P) disk).node :=
  ⟨h.toFresh.tended, h.orderly⟩

/-- One step keeps the tree. -/
theorem Tended.session {a : Act P} (h : Tended s ∧ Orderly s.node)
    (ha : SoberAct s a) (hstep : sessionStep s a = .next t) :
    Tended t ∧ Orderly t.node := by
  cases a with
  | call p c =>
      obtain ⟨r, hrun⟩ := callStep_eq_next hstep
      obtain ⟨e, he, -, hiff⟩ := h.1.orderly_iff h.2 hrun
      exact ⟨h.1.step hstep, hiff.mpr (ha r e he)⟩
  | restart =>
      obtain rfl := Outcome.next.inj hstep
      exact ((h.1.rooted_iff h.2).mpr ha).tended_boot

/-- In every run of sober calls and restarts from a rooted disk the names form
a tree.  A restart in any state of the run finds the same files and
directories, and the disk is rooted again if and only if there is a path to
every inode. -/
theorem restarts_keep_tree {v : List (Act P)} (hdisk : Rooted disk)
    (hs : Run sessionStep (boot disk) v s)
    (hsober : Meets sessionStep SoberAct (boot disk) v) :
    Orderly s.node ∧ (boot (P := P) s.disk).node = s.node ∧
      (Rooted s.disk ↔ ∀ i, s.node i ≠ none → HasPath s.node i) := by
  have h := hs.invariant_of_meets (I := fun s => Tended s ∧ Orderly s.node)
    (fun _ _ _ hI hC hstep => Tended.session hI hC hstep) hsober
    hdisk.tended_boot
  exact ⟨h.2, h.1.intact.node_boot, h.1.rooted_iff h.2⟩

/-- A run between states in which all numbers of links are in range. -/
theorem Rooted.meets_sober {v : List (Act P)} (hdisk : Rooted disk)
    (h : Meets sessionStep (fun s _ => s.linksInRange = true) (boot disk) v) :
    Meets sessionStep SoberAct (boot (P := P) disk) v := by
  have hsober : ∀ {s : State P} {a : Act P}, Tended s ∧ Orderly s.node →
      s.linksInRange = true → SoberAct s a := by
    intro s a hs hlinks
    cases a with
    | call p c => exact soberCall_of_linksInRange hlinks
    | restart =>
        intro i hi
        obtain ⟨n, hn⟩ := Option.ne_none_iff_exists'.mp hi
        exact hs.2.hasPath hn (State.nlink_of_linksInRange hlinks hn).1
  refine h.imp_of_invariant (I := fun s => Tended s ∧ Orderly s.node) ?_
    (fun s a => hsober) hdisk.tended_boot
  exact fun s a t hs hlinks hstep => Tended.session hs (hsober hs hlinks) hstep

end Sessions

/-- A restart would lose the directory that was removed while it was the
current directory. -/
theorem removed_not_rooted : ∃ s,
    Run callStep (boot flatVolume) removedCalls s ∧ ¬Rooted s.disk := by
  obtain ⟨s, hs, hcheck⟩ := Run.exists_of_exec callStep (boot flatVolume)
    removedCalls checkRemoved (by decide +kernel)
  rw [checkRemoved, Bool.and_eq_true] at hcheck
  obtain ⟨⟨d, name⟩, -, hrest⟩ := (Option.any_eq_true _ _).mp hcheck.2
  rw [Bool.and_eq_true] at hrest
  obtain ⟨n, hn, hzero⟩ := (Option.any_eq_true _ _).mp hrest.2
  have h := flatVolume_rooted.toFresh.tended_run hs
  exact ⟨s, hs, fun hrooted => h.fresh_iff.mp hrooted.toFresh d n hn
    (of_decide_eq_true hzero)⟩

/-- The file `/a` gets a name in the directory `/d`, which was made before the
restart. -/
def flatSessions : List (Act Unit) :=
  [.call () (.mkdir (some [0x2f, 0x64])), .restart,
    .call () (.link (some [0x2f, 0x61]) (some [0x2f, 0x64, 0x2f, 0x62]))]

theorem flatSessions_links :
    Meets sessionStep (fun s _ => s.linksInRange = true)
      (boot flatVolume) flatSessions := by
  decide +kernel

theorem restarts_keep_tree_flat : ∃ s,
    Run sessionStep (boot flatVolume) flatSessions s ∧
      walk s.node ROOTINO [[0x64], [0x62]] = some 2 ∧ Orderly s.node := by
  obtain ⟨s, hs, hcheck⟩ := Run.exists_of_exec sessionStep (boot flatVolume)
    flatSessions checkFlat (by decide +kernel)
  rw [checkFlat, Bool.and_eq_true, decide_eq_true_eq] at hcheck
  exact ⟨s, hs, hcheck.1, (restarts_keep_tree flatVolume_rooted hs
    (flatVolume_rooted.meets_sober flatSessions_links)).1⟩

end ZtlOs.Kernel
