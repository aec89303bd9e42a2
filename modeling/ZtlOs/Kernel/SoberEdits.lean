import ZtlOs.Kernel.NameSpace

/-!
# Edits that keep the tree

An edit keeps the tree of names if and only if its new entry is in a directory
that has links and no number of links overflows.
-/

namespace ZtlOs.Kernel

open ZtlOs.Support ZtlOs.Support.Bindings ZtlOs.Support.Hierarchy ZtlOs.Fs

variable {f g : Nodes} {d d' i j j' k : ℕ} {n m : Node} {name x : Bytes}
variable {S : Set ℕ} {e : Edit}

/-! ## Every edit -/

/-- The directory that gets a new entry has links, and no number of links
overflows. -/
def Edit.Sober (f : Nodes) : Edit → Prop
  | .link i d _ _ => (∀ n, f d = some n → n.nlink ≠ 0) ∧
      ∀ n, f i = some n → n.nlink ≠ 0xffff
  | .create _ d _ _ type _ _ => (∀ n, f d = some n → n.nlink ≠ 0) ∧
      (type = T_DIR → ∀ n, f d = some n → n.nlink ≠ 0xffff)
  | _ => True

/-- The numbers of the nodes fit into directory entries. -/
def Numbered (f : Nodes) : Prop :=
  ∀ i n, f i = some n → n.nlink ≠ 0 → i ≤ 65535

theorem RoomAt.free (h : RoomAt f d j name) :
    ∀ x k, ¬NamesAt f d j x k := by
  obtain ⟨-, -, n, hn, -, hvacant⟩ := h
  rintro x k ⟨m, hm, -, hb⟩
  obtain rfl := Option.some.inj (hn.symm.trans hm)
  exact hvacant.not_binds hb

theorem RoomAt.fresh (h : RoomAt f d j name) :
    ∀ j' k, ¬NamesAt f d j' name k := by
  obtain ⟨-, hnone, n, hn, hdir, -⟩ := h
  rintro j' k ⟨m, hm, -, hb⟩
  obtain rfl := Option.some.inj (hn.symm.trans hm)
  rw [lookupAt_eq hn hdir, lookup_eq_none] at hnone
  exact hnone j' k hb

theorem RoomAt.dir (h : RoomAt f d j name) :
    ∃ n, f d = some n ∧ n.type = T_DIR := by
  obtain ⟨-, -, n, hn, hdir, -⟩ := h
  exact ⟨n, hn, hdir⟩

/-- A directory with links. -/
theorem linked_iff : (hierarchy f).Linked d ↔
    ∃ n, f d = some n ∧ n.type = T_DIR ∧ n.nlink ≠ 0 := by
  constructor
  · rintro ⟨hdir, l, hl, hne⟩
    obtain ⟨n, hn, htype⟩ := isDir_iff.mp hdir
    refine ⟨n, hn, htype, fun hzero => hne ?_⟩
    have := links_eq_zero.mpr ⟨n, hn, hzero⟩
    rw [hl] at this
    exact Option.some.inj this
  · rintro ⟨n, hn, htype, hne⟩
    refine ⟨isDir_iff.mpr ⟨n, hn, htype⟩, n.nlink.toNat, ?_, fun hzero => ?_⟩
    · exact congrArg (Option.map _) hn
    · exact hne (BitVec.eq_of_toNat_eq hzero)

theorem RoomAt.linked (h : RoomAt f d j name)
    (hlinks : ∀ n, f d = some n → n.nlink ≠ 0) : (hierarchy f).Linked d := by
  obtain ⟨n, hn, hdir⟩ := h.dir
  exact linked_iff.mpr ⟨n, hn, hdir, hlinks n hn⟩

namespace Orderly

theorem adds_linked (ho : Orderly f) (hlegal : (Edit.link i d j name).Legal f)
    (hlinked : (hierarchy f).Linked d) :
    Adds dots (hierarchy f) d j name i := by
  obtain ⟨⟨m, hm, hfile⟩, hroom⟩ := hlegal
  refine ⟨ho.sound, hlinked, hroom.free, hroom.fresh, ?_, fun hdir => ?_⟩
  · change (f i).map _ ≠ none
    rw [hm]
    exact Option.some_ne_none _
  · obtain ⟨n, hn, htype⟩ := isDir_iff.mp hdir
    obtain rfl := Option.some.inj (hm.symm.trans hn)
    exact absurd htype hfile

theorem adds_created {type major minor : BitVec 16} (ho : Orderly f)
    (hlegal : (Edit.create i d j name type major minor).Legal f)
    (hlinked : (hierarchy f).Linked d) :
    Adds dots ((hierarchy f).plant i (type = T_DIR) (NewSlot i d type)) d j
      name i := by
  have hne := hlegal.create_ne
  obtain ⟨-, hfree, -, hroom⟩ := hlegal
  have hnone : (hierarchy f).links i = none := congrArg (Option.map _) hfree
  have hslot : ((hierarchy f).plant i (type = T_DIR) (NewSlot i d type)).slot
      d = NamesAt f d := if_neg hne
  have hself : ((hierarchy f).plant i (type = T_DIR) (NewSlot i d type)).slot
      i = NewSlot i d type := if_pos rfl
  have hlinks : ((hierarchy f).plant i (type = T_DIR) (NewSlot i d type)).links
      i = some 0 := plant_links_self
  constructor
  · refine ho.sound.plant hnone ?_ ?_
    · rintro j' x k ⟨htype, ⟨-, rfl, -⟩ | ⟨-, rfl, -⟩⟩
      · exact ⟨htype, fun hx => hx.1 rfl⟩
      · exact ⟨htype, fun hx => hx.2 rfl⟩
    · rintro j' x k x' k' ⟨-, ⟨rfl, rfl, rfl⟩ | ⟨rfl, rfl, rfl⟩⟩ ⟨-, h'⟩
      · rcases h' with ⟨-, rfl, rfl⟩ | ⟨h, -⟩
        · exact ⟨rfl, rfl⟩
        · cases h
      · rcases h' with ⟨h, -⟩ | ⟨-, rfl, rfl⟩
        · cases h
        · exact ⟨rfl, rfl⟩
  · exact (plant_linked_iff hnone).mpr hlinked
  · rw [hslot]
    exact hroom.free
  · rw [hslot]
    exact hroom.fresh
  · rw [hlinks]
    exact Option.some_ne_none 0
  · intro hdir
    have htype : type = T_DIR := by
      simpa only [Hierarchy.plant, if_true] using hdir
    refine ⟨hlinks, ?_, ?_, ?_⟩
    · rw [hself]
      exact ⟨htype, .inl ⟨rfl, rfl, rfl⟩⟩
    · rw [hself]
      exact ⟨htype, .inr ⟨rfl, rfl, rfl⟩⟩
    · rw [hself]
      exact fun j' x k h => h.2

end Orderly

/-! ### Whole entries -/

section Whole

theorem Whole.of_body (hf : Whole f)
    (hbody : ∀ k, (g k).map Node.body = (f k).map Node.body) : Whole g := by
  intro k n hn hdir
  have hk := hbody k
  rw [hn] at hk
  obtain ⟨m, hm, heq⟩ := Option.map_eq_some_iff.mp hk.symm
  obtain ⟨htype, hdata⟩ := Prod.mk.inj heq
  rw [← hdata]
  exact hf k m hm (htype.trans hdir)

theorem Whole.entered {de : Dirent} (hf : Whole f) (hn : f d = some n)
    (hj : Dirent.size * j ≤ n.data.length) :
    Whole (revise d (Node.entered j de) f) := by
  intro k m hm hdir
  by_cases hk : k = d
  · subst hk
    rw [revise_self hn] at hm
    obtain rfl := Option.some.inj hm
    obtain ⟨c, hc⟩ := hf k n hn hdir
    change Dirent.size ∣ (splice n.data (Dirent.size * j) de.bytes).length
    rw [length_splice hj, de.length_bytes, hc]
    rcases max_choice (Dirent.size * c) (Dirent.size * j + Dirent.size) with
      h | h
    · rw [h]
      exact Dvd.intro c rfl
    · rw [h]
      exact Dvd.intro (j + 1) rfl
  · rw [revise_of_ne hk] at hm
    exact hf k m hm hdir

theorem Whole.planted {type major minor : BitVec 16} (hf : Whole f) :
    Whole (plant i (newNode i d type major minor) f) := by
  intro k n hn hdir
  by_cases hk : k = i
  · subst hk
    rw [plant_self] at hn
    obtain rfl := Option.some.inj hn
    change type = T_DIR at hdir
    have hfirst : (splice [] 0 (linkDirent dot k).bytes).length =
        Dirent.size := by
      rw [length_splice (le_refl 0), Dirent.length_bytes]
      rfl
    simp only [newNode, if_pos hdir, dotsData]
    rw [length_splice hfirst.ge, hfirst, Dirent.length_bytes]
    decide
  · rw [plant_of_ne hk] at hn
    exact hf k n hn hdir

theorem Whole.written {off : ℕ} {src : Bytes} (hf : Whole f)
    (hi : ∀ n, f i = some n → n.type ≠ T_DIR) :
    Whole (revise i (fun n => n.written off src) f) := by
  intro k n hn hdir
  by_cases hk : k = i
  · subst hk
    rw [revise, Function.update_self] at hn
    obtain ⟨m, hm, rfl⟩ := Option.map_eq_some_iff.mp hn
    exact absurd hdir (hi m hm)
  · rw [revise_of_ne hk] at hn
    exact hf k n hn hdir

theorem Whole.apply (hf : Whole f) (hlegal : e.Legal f) :
    Whole (e.apply f) := by
  cases e with
  | none => exact hf
  | link i d j name =>
      have hne := hlegal.link_ne
      obtain ⟨-, -, -, n, hn, -, hvacant⟩ := hlegal
      exact (hf.of_body fun k => body_relinked).entered
        ((revise_of_ne hne).trans hn) hvacant.le
  | unlink i d j =>
      obtain ⟨name, -, -, -, ⟨n, hn, -, hb⟩, -⟩ := hlegal
      have hlt := lt_length_of_binds hb
      rw [length_bindings] at hlt
      have hj := Nat.mul_le_of_le_div _ _ _ hlt.le
      rw [Nat.mul_comm] at hj
      exact (hf.entered hn hj).of_body fun k =>
        body_relinked.trans body_relinkDir
  | create i d j name type major minor =>
      have hparent := fun n => hlegal.parent (n := n)
      obtain ⟨-, -, -, -, -, n, hn, -, hvacant⟩ := hlegal
      obtain ⟨n', hn', -, hdata⟩ := hparent n hn
      rw [← hdata] at hvacant
      exact (hf.planted.of_body fun k => body_relinkDir).entered hn' hvacant.le
  | write i off src =>
      obtain ⟨n, hn, hdir⟩ := hlegal
      refine hf.written fun m hm => ?_
      obtain rfl := Option.some.inj (hn.symm.trans hm)
      exact hdir

end Whole

/-! ### The tree -/

theorem relinkDir_eq_none {l : BitVec 16 → BitVec 16}
    {type : Option (BitVec 16)} :
    relinkDir type d l f k = none ↔ f k = none := by
  unfold relinkDir
  split
  · exact revise_eq_none
  · exact Iff.rfl

/-- An edit adds at most one node, which has a link. -/
theorem apply_cases (hlegal : e.Legal f) (hn : e.apply f k = some n) :
    f k ≠ none ∨ 0 < k ∧ n.nlink ≠ 0 := by
  rw [or_iff_not_imp_left, not_not]
  intro hnone
  cases e with
  | none =>
      change f k = some n at hn
      rw [hnone] at hn
      cases hn
  | link i d j name =>
      have hgone : (Edit.link i d j name).apply f k = none :=
        revise_eq_none.mpr (revise_eq_none.mpr hnone)
      rw [hgone] at hn
      cases hn
  | unlink i d j =>
      have hgone : (Edit.unlink i d j).apply f k = none :=
        revise_eq_none.mpr (relinkDir_eq_none.mpr (revise_eq_none.mpr hnone))
      rw [hgone] at hn
      cases hn
  | create i d j name type major minor =>
      obtain ⟨-, -, hpos, hroom⟩ := hlegal
      obtain ⟨m, hm, -⟩ := hroom.dir
      have hd : k ≠ d := by
        rintro rfl
        rw [hnone] at hm
        cases hm
      rw [Edit.apply, revise_of_ne hd, relinkDir_of_ne hd] at hn
      by_cases hk : k = i
      · subst hk
        rw [plant_self] at hn
        obtain rfl := Option.some.inj hn
        exact ⟨hpos, show (1 : BitVec 16) ≠ 0 by decide⟩
      · rw [plant_of_ne hk, hnone] at hn
        cases hn
  | write i off src =>
      have hgone : (Edit.write i off src).apply f k = none :=
        revise_eq_none.mpr hnone
      rw [hgone] at hn
      cases hn

namespace Orderly

/-- A sober edit keeps the tree. -/
theorem apply (ho : Orderly f) (hlegal : e.Legal f) (hsober : e.Sober f)
    (hnum : Numbered (e.apply f)) : Orderly (e.apply f) where
  whole := ho.whole.apply hlegal
  numbered := by
    intro k n hn
    rcases apply_cases hlegal hn with hsome | ⟨hpos, hlink⟩
    · obtain ⟨m, hm⟩ := Option.ne_none_iff_exists'.mp hsome
      exact ho.numbered k m hm
    · exact ⟨hpos, hnum k n hn hlink⟩
  sound := by
    cases e with
    | none => exact ho.sound
    | link i d j name =>
        rw [hierarchy_linked ho hlegal hsober.2]
        exact .link (ho.adds_linked hlegal (hlegal.2.linked hsober.1))
    | unlink i d j =>
        rw [hierarchy_unlinked ho hlegal]
        exact .unlink (ho.removes hlegal)
    | create i d j name type major minor =>
        obtain ⟨-, -, -, hroom⟩ := id hlegal
        have hne : i ≠ d := hlegal.create_ne.symm
        have hi : i ≤ 65535 := by
          refine hnum i (newNode i d type major minor) ?_
            (show (1 : BitVec 16) ≠ 0 by decide)
          rw [Edit.apply, revise_of_ne hne, relinkDir_of_ne hne, plant_self]
        rw [hierarchy_created ho hlegal hi hsober.2]
        exact .link (ho.adds_created hlegal (hroom.linked hsober.1))
    | write i off src =>
        obtain ⟨n, hn, hdir⟩ := hlegal
        rw [hierarchy_written hn hdir]
        exact ho.sound

end Orderly

/-! ### Only sober edits keep the tree -/

/-- The directories that have links, unless theirs change. -/
theorem linked_congr (hdir : isDir g d = isDir f d)
    (hlinks : (hierarchy g).links d = (hierarchy f).links d) :
    (hierarchy g).Linked d ↔ (hierarchy f).Linked d := by
  unfold Hierarchy.Linked
  rw [hlinks]
  change isDir g d = true ∧ _ ↔ isDir f d = true ∧ _
  rw [hdir]

/-- What is named in a tree after a sweep had links before. -/
theorem Orderly.links_named (ht : Orderly (Kernel.swept S g))
    (he : (hierarchy g).Entry d j x i) (hx : x ≠ dot) :
    ∃ n, g i = some n ∧ n.nlink ≠ 0 := by
  have hs := ht.sound
  rw [hierarchy_swept] at hs
  obtain ⟨l, hl, hne⟩ := hs.links_pos (sweep_entry_iff.mpr he) hx
  obtain ⟨n, hn, rfl⟩ := Option.map_eq_some_iff.mp (sweep_links_some hl).1
  exact ⟨n, hn, fun hzero => hne (by rw [hzero]; rfl)⟩

/-- A sweep leaves the links that are to be counted. -/
theorem Orderly.count_named (ht : Orderly (Kernel.swept S g))
    (hn : g i = some n) (hne : n.nlink ≠ 0) :
    (n.nlink.toNat : ℕ∞) = (named dots (hierarchy g) i).encard := by
  have hs := ht.sound.count i n.nlink.toNat
    (congrArg (Option.map _) (swept_of_links hn hne))
  rw [hs, hierarchy_swept]
  congr 1
  ext ⟨d', j'⟩
  exact exists_congr fun _ => and_congr_right fun _ => sweep_entry_iff

section Link

variable (ho : Orderly f) (hlegal : (Edit.link i d j name).Legal f)

include hlegal

theorem linked_of_linked :
    (hierarchy ((Edit.link i d j name).apply f)).Linked d' ↔
      (hierarchy f).Linked d' := by
  have hdir : isDir ((Edit.link i d j name).apply f) d' = isDir f d' := by
    rw [Edit.apply, isDir_entered, isDir_relinked]
  by_cases hd : d' = i
  · subst hd
    obtain ⟨⟨m, hm, hfile⟩, -⟩ := hlegal
    have hnot : ¬isDir f d' = true := by
      rw [isDir_eq hm, beq_iff_eq]
      exact hfile
    exact iff_of_false (fun hl => hnot (hdir.symm.trans hl.1))
      fun hl => hnot hl.1
  · refine linked_congr hdir ?_
    rw [Edit.apply, links_entered]
    exact congrArg (Option.map _) (revise_of_ne hd)

include ho

theorem entry_of_linked : (hierarchy ((Edit.link i d j name).apply f)).Entry
    d' j' x k ↔ (hierarchy f).Entry d' j' x k ∨
      (hierarchy f).Linked d ∧ d' = d ∧ j' = j ∧ x = name ∧ k = i := by
  unfold Hierarchy.Entry
  rw [linked_of_linked hlegal]
  change _ ∧ NamesAt _ d' j' x k ↔ _ ∧ NamesAt f d' j' x k ∨ _
  rw [namesAt_linked ho hlegal, and_or_left]
  refine or_congr_right ⟨?_, ?_⟩
  · rintro ⟨hl, rfl, hrest⟩
    exact ⟨hl, rfl, hrest⟩
  · rintro ⟨hl, rfl, hrest⟩
    exact ⟨hl, rfl, hrest⟩

variable (ht : Orderly (Kernel.swept S ((Edit.link i d j name).apply f)))

include ht

/-- A file with all the links that can be counted gets no other name. -/
theorem Orderly.not_full (hn : f i = some n) : n.nlink ≠ 0xffff := by
  intro hfull
  have hcount := ho.sound.count i n.nlink.toNat (congrArg (Option.map _) hn)
  have hnonempty : (named dots (hierarchy f) i).Nonempty := by
    rw [← Set.encard_ne_zero, ← hcount, hfull]
    exact Nat.cast_ne_zero.mpr (by decide)
  obtain ⟨⟨d', j'⟩, x, hx, he⟩ := hnonempty
  obtain ⟨m, hm, hpos⟩ := ht.links_named
    ((entry_of_linked ho hlegal).mpr (.inl he)) hx
  rw [Edit.apply, revise_of_ne hlegal.link_ne.symm, revise_self hn] at hm
  obtain rfl := Option.some.inj hm
  apply hpos
  change n.nlink + 1 = 0
  rw [hfull]
  rfl

/-- A file gets no name in a directory without links. -/
theorem Orderly.linked_of_link (hn : f d = some n) : n.nlink ≠ 0 := by
  intro hzero
  obtain ⟨⟨m, hm, -⟩, -⟩ := id hlegal
  have hnode : (Edit.link i d j name).apply f i =
      some (Node.relinked (· + 1) m) := by
    rw [Edit.apply, revise_of_ne hlegal.link_ne.symm, revise_self hm]
  have hsucc : (Node.relinked (· + 1) m).nlink.toNat = m.nlink.toNat + 1 :=
    toNat_succ (ho.not_full hlegal ht hm)
  have hcount := ht.count_named hnode fun hc => by
    rw [hc] at hsucc
    exact absurd hsucc.symm (Nat.succ_ne_zero _)
  have hnamed : named dots (hierarchy ((Edit.link i d j name).apply f)) i =
      named dots (hierarchy f) i := by
    ext ⟨d', j'⟩
    refine exists_congr fun x => and_congr_right fun _ => ?_
    rw [entry_of_linked ho hlegal]
    refine or_iff_left fun hc => ?_
    obtain ⟨n', hn', -, hne⟩ := linked_iff.mp hc.1
    obtain rfl := Option.some.inj (hn.symm.trans hn')
    exact hne hzero
  have hold := ho.sound.count i m.nlink.toNat (congrArg (Option.map _) hm)
  rw [hnamed, ← hold, hsucc] at hcount
  exact absurd (Nat.cast_injective hcount) (Nat.succ_ne_self _)

end Link

section Create

variable {type major minor : BitVec 16} (ho : Orderly f) (hi : i ≤ 65535)
variable (hlegal : (Edit.create i d j name type major minor).Legal f)

/-- Old directories, unless the parent's links change. -/
theorem linked_of_created (hd : d' ≠ i) (hsame : d' = d → type ≠ T_DIR) :
    (hierarchy ((Edit.create i d j name type major minor).apply f)).Linked d' ↔
      (hierarchy f).Linked d' := by
  have hrelink : relinkDir (some type) d (· + 1)
      (plant i (newNode i d type major minor) f) d' = f d' := by
    by_cases hdd : d' = d
    · rw [relinkDir, if_neg fun hc => hsame hdd (Option.some.inj hc), id_eq,
        plant_of_ne hd]
    · rw [relinkDir_of_ne hdd, plant_of_ne hd]
  refine linked_congr ?_ ?_
  · rw [Edit.apply, isDir_entered]
    exact isDir_congr (by rw [hrelink])
  · rw [Edit.apply, links_entered]
    exact congrArg (Option.map _) hrelink

include hlegal

theorem created_self :
    (Edit.create i d j name type major minor).apply f i =
      some (newNode i d type major minor) := by
  have hne := hlegal.create_ne.symm
  rw [Edit.apply, revise_of_ne hne, relinkDir_of_ne hne, plant_self]

/-- The parent of a new directory has one link more. -/
theorem created_parent (hn : f d = some n) (htype : type = T_DIR) :
    ∃ m, (Edit.create i d j name type major minor).apply f d = some m ∧
      m.nlink = n.nlink + 1 := by
  refine ⟨Node.entered j (linkDirent name i) (Node.relinked (· + 1) n), ?_, rfl⟩
  rw [Edit.apply, relinkDir, if_pos (congrArg some htype)]
  exact revise_self (revise_self ((plant_of_ne hlegal.create_ne).trans hn))

variable (ht : Orderly (Kernel.swept S
  ((Edit.create i d j name type major minor).apply f)))

include ho hi ht

/-- A directory with all the links that can be counted gets no directory. -/
theorem Orderly.parent_not_full (htype : type = T_DIR) (hn : f d = some n) :
    n.nlink ≠ 0xffff := by
  intro hfull
  have hlinked : (hierarchy ((Edit.create i d j name type major
      minor).apply f)).Linked i :=
    linked_iff.mpr ⟨_, created_self hlegal, htype,
      show (1 : BitVec 16) ≠ 0 by decide⟩
  have hup : NamesAt ((Edit.create i d j name type major minor).apply f) i 1
      dotdot d := by
    refine (namesAt_created ho hlegal hi).mpr (.inl ?_)
    simp only [Hierarchy.plant, if_true]
    exact ⟨htype, .inr ⟨rfl, rfl, rfl⟩⟩
  obtain ⟨m, hm, hpos⟩ := ht.links_named ⟨hlinked, hup⟩ (by decide)
  obtain ⟨m', hm', hlink⟩ := created_parent hlegal hn htype
  obtain rfl := Option.some.inj (hm.symm.trans hm')
  apply hpos
  rw [hlink, hfull]
  rfl

/-- A directory without links gets no file. -/
theorem Orderly.linked_of_file (htype : type ≠ T_DIR) (hn : f d = some n) :
    n.nlink ≠ 0 := by
  intro hzero
  have hcount := ht.count_named (created_self hlegal)
    (show (1 : BitVec 16) ≠ 0 by decide)
  have hnonempty : (named dots (hierarchy ((Edit.create i d j name type major
      minor).apply f)) i).Nonempty := by
    rw [← Set.encard_ne_zero, ← hcount]
    exact Nat.cast_ne_zero.mpr (show (1 : BitVec 16).toNat ≠ 0 by decide)
  obtain ⟨⟨d', j'⟩, x, hx, hl, hs⟩ := hnonempty
  have hd' : d' ≠ i := by
    rintro rfl
    obtain ⟨m, hm, hdir, -⟩ := linked_iff.mp hl
    rw [created_self hlegal] at hm
    obtain rfl := Option.some.inj hm
    exact htype hdir
  rw [linked_of_created hd' fun _ => htype] at hl
  rcases (namesAt_created ho hlegal hi).mp hs with hs | ⟨rfl, -⟩
  · simp only [Hierarchy.plant, if_neg hd'] at hs
    exact ho.sound.target d' j' x i ⟨hl, hs⟩
      (congrArg (Option.map _) hlegal.2.1)
  · obtain ⟨m, hm, -, hne⟩ := linked_iff.mp hl
    obtain rfl := Option.some.inj (hn.symm.trans hm)
    exact hne hzero

/-- Nor does it get a directory, which would not be reached. -/
theorem Orderly.linked_of_directory (htype : type = T_DIR)
    (hn : f d = some n) : n.nlink ≠ 0 := by
  intro hzero
  have hlinks : (hierarchy f).links d = some 0 :=
    links_eq_zero.mpr ⟨n, hn, hzero⟩
  obtain ⟨m, hm, hlink⟩ := created_parent hlegal hn htype
  obtain ⟨m', hm', hdir'⟩ := hlegal.2.2.2.dir
  obtain rfl := Option.some.inj (hn.symm.trans hm')
  have hlinked : (hierarchy ((Edit.create i d j name type major
      minor).apply f)).Linked d := by
    refine linked_iff.mpr ⟨m, hm, ?_, ?_⟩
    · have hdir : isDir ((Edit.create i d j name type major minor).apply f) d =
          isDir f d := by
        rw [Edit.apply, isDir_entered, isDir_relinkDir]
        exact isDir_congr (by rw [plant_of_ne hlegal.create_ne])
      rw [isDir_eq hm, isDir_eq hn, hdir', beq_self_eq_true] at hdir
      exact beq_iff_eq.mp hdir
    · rw [hlink, hzero]
      decide
  have hroot : d ≠ dots.root := by
    rintro rfl
    exact ho.sound.root.ne_zero hlinks
  have hs := ht.sound
  rw [hierarchy_swept] at hs
  obtain ⟨e, j', hc⟩ := hs.exists_child (sweep_linked_iff.mpr hlinked) hroot
  rw [sweep_child_iff] at hc
  obtain ⟨x, hx, hl, hat⟩ := hc
  rcases (namesAt_created ho hlegal hi).mp hat with hslot | ⟨-, -, -, heq⟩
  · by_cases hei : e = i
    · subst hei
      simp only [Hierarchy.plant, if_true] at hslot
      rcases hslot.2 with ⟨-, hname, -⟩ | ⟨-, hname, -⟩
      · exact hx.1 hname
      · exact hx.2 hname
    simp only [Hierarchy.plant, if_neg hei] at hslot
    by_cases hed : e = d
    · subst hed
      exact ho.sound.cleared e j' x e hslot hlinks hx
    · rw [linked_of_created hei fun hc => absurd hc hed] at hl
      obtain ⟨l, hl', hne⟩ := ho.sound.links_pos ⟨hl, hslot⟩ hx.1
      rw [hlinks] at hl'
      exact hne (Option.some.inj hl').symm
  · exact hlegal.create_ne heq

end Create

/-- An edit keeps the tree only if it is sober. -/
theorem Orderly.sober (ho : Orderly f) (hlegal : e.Legal f)
    (hnum : Numbered (e.apply f)) (ht : Orderly (Kernel.swept S (e.apply f))) :
    e.Sober f := by
  cases e with
  | none | unlink | write => trivial
  | link i d j name =>
      exact ⟨fun n hn => ho.linked_of_link hlegal ht hn,
        fun n hn => ho.not_full hlegal ht hn⟩
  | create i d j name type major minor =>
      have hi := hnum i _ (created_self hlegal)
        (show (1 : BitVec 16) ≠ 0 by decide)
      refine ⟨fun n hn => ?_, fun htype n hn =>
        ho.parent_not_full hi hlegal ht htype hn⟩
      by_cases htype : type = T_DIR
      · exact ho.linked_of_directory hi hlegal ht htype hn
      · exact ho.linked_of_file hi hlegal ht htype hn

end ZtlOs.Kernel
