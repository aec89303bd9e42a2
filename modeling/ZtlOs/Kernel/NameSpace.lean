import ZtlOs.Support.Hierarchy
import ZtlOs.Kernel.NameCalls

/-!
# The name space is a tree

The directories that have links form a tree, and every inode has as many links
as there are names for it.  An edit adds a name to this hierarchy or takes one
away.
-/

namespace ZtlOs.Kernel

open ZtlOs.Support ZtlOs.Support.Bindings ZtlOs.Support.Hierarchy ZtlOs.Fs

variable {f g : Nodes} {d d' i j j' k : ℕ} {n m : Node} {name x : Bytes}
variable {h : Node → Node} {S : Set ℕ} {e : Edit}

/-- The directories, the names in them and the links. -/
def hierarchy (f : Nodes) : Hierarchy ℕ Bytes where
  dir i := isDir f i = true
  slot := NamesAt f
  links i := (f i).map fun n => n.nlink.toNat

def dots : Dots ℕ Bytes where
  self := dot
  up := dotdot
  ne := by decide
  root := ROOTINO

/-- Directories are made of whole entries. -/
def Whole (f : Nodes) : Prop :=
  ∀ d n, f d = some n → n.type = T_DIR → Dirent.size ∣ n.data.length

/-- The name space is a tree with counted links. -/
structure Orderly (f : Nodes) : Prop where
  sound : Hierarchy.Sound dots (hierarchy f)
  whole : Whole f
  numbered : ∀ i n, f i = some n → 1 ≤ i ∧ i ≤ 65535

/-! ## What an edit changes -/

theorem isDir_iff : isDir f i = true ↔ ∃ n, f i = some n ∧ n.type = T_DIR := by
  rcases hn : f i with _ | n
  · simp [isDir, hn]
  · simp [isDir_eq hn]

theorem isDir_congr (h : (g i).map Node.type = (f i).map Node.type) :
    isDir g i = isDir f i := by
  rcases hf : f i with _ | n
  · rw [hf, Option.map_none, Option.map_eq_none_iff] at h
    rw [isDir, isDir, h, hf]
  · rw [hf] at h
    obtain ⟨m, hm, htype⟩ := Option.map_eq_some_iff.mp h
    rw [isDir_eq hf, isDir_eq hm, htype]

theorem NamesAt.isDir (h : NamesAt f d j x i) : isDir f d = true := by
  obtain ⟨n, hn, hdir, -⟩ := h
  exact isDir_iff.mpr ⟨n, hn, hdir⟩

theorem NamesAt.eq (h : NamesAt f d j x i) (h' : NamesAt f d j name k) :
    x = name ∧ i = k := by
  obtain ⟨n, hn, -, hb⟩ := h
  obtain ⟨n', hn', -, hb'⟩ := h'
  obtain rfl := Option.some.inj (hn.symm.trans hn')
  exact hb.eq hb'

/-- What a directory says is in its type and its bytes. -/
def Node.body (n : Node) : BitVec 16 × Bytes :=
  (n.type, n.data)

theorem NamesAt.of_body (hd : (g d).map Node.body = (f d).map Node.body)
    (h : NamesAt f d j x i) : NamesAt g d j x i := by
  obtain ⟨n, hn, hdir, hb⟩ := h
  rw [hn] at hd
  obtain ⟨m, hm, hbody⟩ := Option.map_eq_some_iff.mp hd
  obtain ⟨htype, hdata⟩ := Prod.mk.inj hbody
  exact ⟨m, hm, htype.trans hdir, by rwa [hdata]⟩

theorem namesAt_congr (hd : (g d).map Node.body = (f d).map Node.body) :
    NamesAt g d j x i ↔ NamesAt f d j x i :=
  ⟨.of_body hd.symm, .of_body hd⟩

/-- A projection of the nodes that a change of one of them keeps. -/
theorem revise_map {α : Type} {φ : Node → α} (hφ : ∀ n, φ (h n) = φ n) :
    (revise i h f k).map φ = (f k).map φ := by
  by_cases hk : k = i
  · subst hk
    rw [revise, Function.update_self, Option.map_map]
    exact congrArg (Option.map · (f k)) (funext hφ)
  · rw [revise_of_ne hk]

theorem relinkDir_map {α : Type} {φ : Node → α} {type : Option (BitVec 16)}
    {l : BitVec 16 → BitVec 16} (hφ : ∀ n, φ (Node.relinked l n) = φ n) :
    (relinkDir type d l f k).map φ = (f k).map φ := by
  unfold relinkDir
  split
  · exact revise_map hφ
  · rfl

theorem isDir_entered {de : Dirent} :
    isDir (revise i (Node.entered j de) f) k = isDir f k :=
  isDir_congr (revise_map fun _ => rfl)

theorem isDir_relinkDir {type : Option (BitVec 16)}
    {l : BitVec 16 → BitVec 16} :
    isDir (relinkDir type d l f) k = isDir f k :=
  isDir_congr (relinkDir_map fun _ => rfl)

theorem body_relinked {l : BitVec 16 → BitVec 16} :
    (revise i (Node.relinked l) f k).map Node.body = (f k).map Node.body :=
  revise_map fun _ => rfl

theorem body_relinkDir {type : Option (BitVec 16)}
    {l : BitVec 16 → BitVec 16} :
    (relinkDir type d l f k).map Node.body = (f k).map Node.body :=
  relinkDir_map fun _ => rfl

theorem Vacant.not_binds {l : Bytes} (hj : Vacant l j) :
    ¬Binds (bindings l) j x i := by
  intro hb
  rcases hj with hfree | hlen
  · rw [Free] at hfree
    rw [Binds, hfree] at hb
    cases hb
  · have hlt := lt_length_of_binds hb
    rw [length_bindings, ← hlen, Nat.mul_div_cancel_left j (by decide)] at hlt
    exact lt_irrefl j hlt

theorem Vacant.le_length {l : Bytes} (hj : Vacant l j) :
    j ≤ (bindings l).length := by
  rw [length_bindings, Nat.le_div_iff_mul_le (by decide), Nat.mul_comm]
  exact hj.le

/-- One entry of a directory is overwritten. -/
theorem namesAt_entered {de : Dirent} (hn : f d = some n)
    (hdir : n.type = T_DIR) (hwhole : Dirent.size ∣ n.data.length)
    (hj : j ≤ (bindings n.data).length) :
    NamesAt (revise d (Node.entered j de) f) d' j' x k ↔
      if d' = d ∧ j' = j then bindingOf de = some (x, k)
      else NamesAt f d' j' x k := by
  by_cases hd : d' = d
  · subst hd
    have hbinds : NamesAt (revise d' (Node.entered j de) f) d' j' x k ↔
        Binds (place (bindings n.data) j (bindingOf de)) j' x k := by
      rw [← bindings_splice de hwhole hj]
      constructor
      · rintro ⟨m, hm, -, hb⟩
        obtain rfl := Option.some.inj ((revise_self hn).symm.trans hm)
        exact hb
      · intro hb
        exact ⟨_, revise_self hn, hdir, hb⟩
    rw [hbinds, binds_place hj]
    simp only [true_and]
    split
    · rfl
    · constructor
      · intro hb
        exact ⟨n, hn, hdir, hb⟩
      · rintro ⟨m, hm, -, hb⟩
        obtain rfl := Option.some.inj (hn.symm.trans hm)
        exact hb
  · rw [if_neg fun hc => hd hc.1]
    exact namesAt_congr (by rw [revise_of_ne hd])

/-- A vacant slot of a directory gets a name. -/
theorem namesAt_new_entry (hn : f d = some n) (hdir : n.type = T_DIR)
    (hwhole : Dirent.size ∣ n.data.length) (hvacant : Vacant n.data j)
    (hcut : cutName name = name) (hi : 1 ≤ i) (hi' : i ≤ 65535) :
    NamesAt (revise d (Node.entered j (linkDirent name i)) f) d' j' x k ↔
      NamesAt f d' j' x k ∨ d' = d ∧ j' = j ∧ x = name ∧ k = i := by
  rw [namesAt_entered hn hdir hwhole hvacant.le_length,
    bindingOf_linkDirent hi hi', hcut, Option.some.injEq, Prod.mk.injEq]
  split
  · next hd =>
      obtain ⟨rfl, rfl⟩ := hd
      constructor
      · rintro ⟨rfl, rfl⟩
        exact .inr ⟨rfl, rfl, rfl, rfl⟩
      · rintro (⟨m, hm, -, hb⟩ | ⟨-, -, rfl, rfl⟩)
        · obtain rfl := Option.some.inj (hn.symm.trans hm)
          exact absurd hb hvacant.not_binds
        · exact ⟨rfl, rfl⟩
  · next hd =>
      refine (or_iff_left ?_).symm
      rintro ⟨rfl, rfl, -, -⟩
      exact hd ⟨rfl, rfl⟩

/-! ### Sweeping -/

theorem links_eq_zero : (hierarchy f).links k = some 0 ↔
    ∃ n, f k = some n ∧ n.nlink = 0 := by
  change (f k).map (fun n => n.nlink.toNat) = some 0 ↔ _
  rw [Option.map_eq_some_iff]
  refine exists_congr fun n => and_congr_right fun _ => ?_
  rw [← BitVec.toNat_inj]
  rfl

theorem swept_cases (S : Set ℕ) (f : Nodes) (k : ℕ) :
    ((hierarchy f).links k = some 0 ∧ k ∉ S ∧ swept S f k = none) ∨
      (((hierarchy f).links k = some 0 → k ∈ S) ∧ swept S f k = f k) := by
  by_cases hgone : k ∉ S ∧ ∃ n, f k = some n ∧ n.nlink = 0
  · obtain ⟨hk, n, hn, hlink⟩ := hgone
    exact .inl ⟨links_eq_zero.mpr ⟨n, hn, hlink⟩, hk, swept_gone hk hn hlink⟩
  · refine .inr ⟨fun hzero => ?_, if_neg hgone⟩
    by_contra hk
    exact hgone ⟨hk, links_eq_zero.mp hzero⟩

theorem hierarchy_swept :
    hierarchy (swept S f) = (hierarchy f).sweep S := by
  ext k
  · rcases swept_cases S f k with ⟨hzero, hk, hnone⟩ | ⟨hkept, heq⟩
    · refine iff_of_false ?_ fun hc => hk (hc.2 hzero)
      intro hdir
      obtain ⟨n, hn, -⟩ := isDir_iff.mp hdir
      rw [hnone] at hn
      cases hn
    · have hdir : isDir (swept S f) k = isDir f k := isDir_congr (by rw [heq])
      change isDir (swept S f) k = true ↔ isDir f k = true ∧ _
      rw [hdir]
      exact (and_iff_left hkept).symm
  · rcases swept_cases S f k with ⟨hzero, hk, hnone⟩ | ⟨hkept, heq⟩
    · refine iff_of_false ?_ fun hc => hk (hc.2 hzero)
      rintro ⟨n, hn, -⟩
      rw [hnone] at hn
      cases hn
    · refine (namesAt_congr (by rw [heq])).trans ?_
      exact (and_iff_left hkept).symm
  · rcases swept_cases S f k with ⟨hzero, hk, hnone⟩ | ⟨hkept, heq⟩
    · have hgone : ((hierarchy f).sweep S).links k = none :=
        if_pos ⟨hzero, hk⟩
      rw [hgone]
      change (Option.map _ (swept S f k) = _) ↔ _
      rw [hnone]
      rfl
    · have hlinks : ((hierarchy f).sweep S).links k = (hierarchy f).links k :=
        if_neg fun hc => hc.2 (hkept hc.1)
      rw [hlinks]
      change (Option.map _ (swept S f k) = _) ↔ _
      rw [heq]
      rfl

theorem Orderly.swept (h : Orderly f) : Orderly (swept S f) where
  sound := by
    rw [hierarchy_swept]
    exact h.sound.sweep
  whole := fun d n hn => h.whole d n (of_swept hn).1
  numbered := fun i n hn => h.numbered i n (of_swept hn).1

/-! ### Links -/

/-- The links of one node change. -/
theorem links_relinked {l : BitVec 16 → BitVec 16} {c : ℕ → ℕ}
    (hl : ∀ n, f i = some n → (l n.nlink).toNat = c n.nlink.toNat) :
    (hierarchy (revise i (Node.relinked l) f)).links k =
      if k = i then ((hierarchy f).links k).map c
      else (hierarchy f).links k := by
  change (revise i _ f k).map _ =
    if k = i then ((f k).map _).map c else (f k).map _
  split
  · next hk =>
      subst hk
      rw [revise, Function.update_self, Option.map_map, Option.map_map]
      rcases hn : f k with _ | n
      · rfl
      · exact congrArg some (hl n hn)
  · next hk => rw [revise_of_ne hk]

theorem links_relinkDir {type : Option (BitVec 16)} {l : BitVec 16 → BitVec 16}
    {c : ℕ → ℕ} (hl : type = some T_DIR → ∀ n, f d = some n →
      (l n.nlink).toNat = c n.nlink.toNat) :
    (hierarchy (relinkDir type d l f)).links k =
      if k = d ∧ type = some T_DIR then ((hierarchy f).links k).map c
      else (hierarchy f).links k := by
  unfold relinkDir
  split
  · next htype =>
      rw [links_relinked (hl htype)]
      simp only [htype, and_true]
  · next htype =>
      rw [if_neg fun hc => htype hc.2]
      rfl

theorem links_entered {de : Dirent} :
    (hierarchy (revise d (Node.entered j de) f)).links k =
      (hierarchy f).links k :=
  revise_map fun _ => rfl

/-- One link more. -/
theorem toNat_succ {l : BitVec 16} (hl : l ≠ 0xffff) :
    (l + 1).toNat = l.toNat + 1 := by
  bv_omega

/-- One link less. -/
theorem toNat_pred {l : BitVec 16} (hl : l ≠ 0) :
    (l - 1).toNat = l.toNat - 1 := by
  bv_omega

/-! ## Each edit -/

/-- The bytes of files say nothing about the tree. -/
theorem hierarchy_written {off : ℕ} {src : Bytes} (hn : f i = some n)
    (hdir : n.type ≠ T_DIR) :
    hierarchy ((Edit.write i off src).apply f) = hierarchy f := by
  have hisDir : ∀ k, isDir ((Edit.write i off src).apply f) k = isDir f k :=
    fun k => isDir_congr (revise_map fun _ => rfl)
  ext k
  · change isDir _ k = true ↔ isDir f k = true
    rw [hisDir]
  · by_cases hk : k = i
    · subst hk
      have hnot : isDir f k = false := by
        rw [isDir_eq hn]
        exact beq_eq_false_iff_ne.mpr hdir
      refine iff_of_false (fun hc => ?_) fun hc => ?_
      · have := hc.isDir
        rw [hisDir, hnot] at this
        cases this
      · have := hc.isDir
        rw [hnot] at this
        cases this
    · exact namesAt_congr (by rw [Edit.apply, revise_of_ne hk])
  · change Option.map _ (revise i _ f k) = _ ↔ _
    rw [revise_map (h := fun n => n.written off src) (φ := fun n =>
      n.nlink.toNat) fun _ => rfl]
    rfl

/-- A directory is no file that gets a new name. -/
theorem Edit.Legal.link_ne (hlegal : (Edit.link i d j name).Legal f) :
    d ≠ i := by
  obtain ⟨⟨m, hm, hfile⟩, -, -, n, hn, hdir, -⟩ := hlegal
  rintro rfl
  obtain rfl := Option.some.inj (hn.symm.trans hm)
  exact hfile hdir

theorem namesAt_linked (ho : Orderly f)
    (hlegal : (Edit.link i d j name).Legal f) :
    NamesAt ((Edit.link i d j name).apply f) d' j' x k ↔
      NamesAt f d' j' x k ∨ d' = d ∧ j' = j ∧ x = name ∧ k = i := by
  have hne := hlegal.link_ne
  obtain ⟨⟨m, hm, -⟩, hcut, -, n, hn, hdir, hvacant⟩ := hlegal
  obtain ⟨hi, hi'⟩ := ho.numbered i m hm
  refine (namesAt_new_entry ((revise_of_ne hne).trans hn) hdir
    (ho.whole d n hn hdir) hvacant hcut hi hi').trans ?_
  exact or_congr_left (namesAt_congr body_relinked)

/-- A new name for a file. -/
theorem hierarchy_linked (ho : Orderly f)
    (hlegal : (Edit.link i d j name).Legal f)
    (hmax : ∀ n, f i = some n → n.nlink ≠ 0xffff) :
    hierarchy ((Edit.link i d j name).apply f) =
      (hierarchy f).link d j name i := by
  have hnot : ¬(hierarchy f).dir i := by
    intro hdir
    obtain ⟨m, hm, htype⟩ := isDir_iff.mp hdir
    obtain ⟨⟨m', hm', hfile⟩, -⟩ := hlegal
    obtain rfl := Option.some.inj (hm.symm.trans hm')
    exact hfile htype
  ext k j' x k'
  · change isDir _ k = true ↔ isDir f k = true
    rw [Edit.apply, isDir_entered, isDir_relinked]
  · exact namesAt_linked ho hlegal
  · have hlinks : (hierarchy ((Edit.link i d j name).apply f)).links k =
        ((hierarchy f).link d j name i).links k := by
      rw [Edit.apply, links_entered, links_relinked (c := (· + 1)) fun n hn =>
        toNat_succ (hmax n hn)]
      simp only [Hierarchy.link, hnot, and_false, or_false]
    rw [hlinks]

/-- What is removed is a file or an empty directory. -/
theorem Orderly.removes (ho : Orderly f)
    (hlegal : (Edit.unlink i d j).Legal f) :
    Hierarchy.Removes dots (hierarchy f) d j i := by
  obtain ⟨name, n, hdot, hdotdot, hat, hn, hbare⟩ := hlegal
  have hproper : Proper dots name := ⟨hdot, hdotdot⟩
  have hdir : (hierarchy f).dir d := hat.isDir
  have hlinked : (hierarchy f).Linked d := by
    obtain ⟨l, hl⟩ := Option.ne_none_iff_exists'.mp (ho.sound.exist d hdir)
    refine ⟨hdir, l, hl, ?_⟩
    rintro rfl
    exact ho.sound.cleared d j name i hat hl hproper
  have hchild : Child dots (hierarchy f) d j i := ⟨name, hproper, hlinked, hat⟩
  refine ⟨ho.sound, hchild, ?_⟩
  rintro hdiri j' k ⟨x, hx, he⟩
  obtain ⟨n', hn', htype⟩ := isDir_iff.mp hdiri
  obtain rfl := Option.some.inj (hn.symm.trans hn')
  have hlt := hbare htype j' x k he.2
  obtain ⟨e, hup⟩ := ho.sound.up i he.1
  have hself := ho.sound.self i he.1
  rcases (show j' = 0 ∨ j' = 1 by omega) with rfl | rfl
  · exact hx.1 (NamesAt.eq he.2 hself).1
  · exact hx.2 (NamesAt.eq he.2 hup).1

/-- A name is removed. -/
theorem hierarchy_unlinked (ho : Orderly f)
    (hlegal : (Edit.unlink i d j).Legal f) :
    hierarchy ((Edit.unlink i d j).apply f) = (hierarchy f).unlink d j i := by
  have hremoves := ho.removes hlegal
  obtain ⟨name, m, -, -, ⟨n, hn, hdir, hb⟩, hm, -⟩ := hlegal
  have hne : i ≠ d := hremoves.ne.symm
  have hj : j ≤ (bindings n.data).length := (lt_length_of_binds hb).le
  have hisDir : (f i).map Node.type = some T_DIR ↔ (hierarchy f).dir i := by
    change _ ↔ isDir f i = true
    rw [hm, isDir_eq hm, Option.map_some, Option.some.injEq, beq_iff_eq]
  ext k j' x k'
  · change isDir _ k = true ↔ isDir f k = true
    rw [Edit.apply, isDir_relinked, isDir_relinkDir, isDir_entered]
  · have hbody : ((Edit.unlink i d j).apply f k).map Node.body =
        (revise d (Node.entered j Dirent.zero) f k).map Node.body := by
      rw [Edit.apply, body_relinked, body_relinkDir]
    refine (namesAt_congr hbody).trans ((namesAt_entered hn hdir
      (ho.whole d n hn hdir) hj).trans ?_)
    change _ ↔ NamesAt f k j' x k' ∧ _
    split
    · next hk =>
        refine iff_of_false (fun hc => ?_) fun hc => hc.2 hk
        cases hc
    · next hk => exact (and_iff_left hk).symm
  · have hpos : m.nlink ≠ 0 := by
      obtain ⟨x, hx, he⟩ := hremoves.child
      obtain ⟨l, hl, hl0⟩ := ho.sound.links_pos he hx.1
      intro hzero
      have := links_eq_zero.mpr ⟨m, hm, hzero⟩
      rw [hl] at this
      exact hl0 (Option.some.inj this)
    have hposd : (f i).map Node.type = some T_DIR → n.nlink ≠ 0 := by
      intro htype hzero
      obtain ⟨l, hl⟩ := hremoves.two_le_links (hisDir.mp htype)
      have := links_eq_zero.mpr ⟨n, hn, hzero⟩
      rw [hl] at this
      exact absurd (Option.some.inj this) (Nat.succ_ne_zero _)
    have hlinks : (hierarchy ((Edit.unlink i d j).apply f)).links k =
        ((hierarchy f).unlink d j i).links k := by
      rw [Edit.apply, links_relinked (c := (· - 1)), links_relinkDir
        (c := (· - 1)), links_entered]
      · by_cases hk : k = i
        · subst hk
          rw [if_pos rfl, if_neg fun hc => hne hc.1, unlink_links_self]
        rw [if_neg hk]
        by_cases hd : k = d ∧ (hierarchy f).dir i
        · rw [if_pos ⟨hd.1, hisDir.mpr hd.2⟩, hd.1, unlink_links_parent hd.2]
        · rw [if_neg fun hc => hd ⟨hc.1, hisDir.mp hc.2⟩,
            unlink_links_of_ne hk fun heq hdiri => hd ⟨heq, hdiri⟩]
      · intro htype n' hn'
        rw [revise_self hn] at hn'
        obtain rfl := Option.some.inj hn'
        exact toNat_pred (hposd htype)
      · intro n' hn'
        rw [relinkDir_of_ne hne, revise_of_ne hne, hm] at hn'
        obtain rfl := Option.some.inj hn'
        exact toNat_pred hpos
    rw [hlinks]

/-! ### New inodes -/

/-- The entries of a new inode `i` in directory `d`. -/
def NewSlot (i d : ℕ) (type : BitVec 16) (j : ℕ) (x : Bytes) (k : ℕ) : Prop :=
  type = T_DIR ∧ (j = 0 ∧ x = dot ∧ k = i ∨ j = 1 ∧ x = dotdot ∧ k = d)

theorem bindings_dotsData (hi : 1 ≤ i) (hi' : i ≤ 65535) (hd : 1 ≤ d)
    (hd' : d ≤ 65535) :
    bindings (dotsData i d) = [some (dot, i), some (dotdot, d)] := by
  have hlen : (splice [] 0 (linkDirent dot i).bytes).length = Dirent.size := by
    rw [length_splice (le_refl 0), Dirent.length_bytes]
    rfl
  have hfirst : bindings (splice [] 0 (linkDirent dot i).bytes) =
      [some (dot, i)] := by
    rw [show (0 : ℕ) = Dirent.size * 0 from rfl, bindings_single,
      bindingOf_linkDirent hi hi']
    rfl
  have hsecond := bindings_splice (l := splice [] 0 (linkDirent dot i).bytes)
    (j := 1) (linkDirent dotdot d) (by rw [hlen]) (by rw [hfirst]; rfl)
  rw [Nat.mul_one, hfirst, bindingOf_linkDirent hd hd'] at hsecond
  exact hsecond

section Create

variable {type major minor : BitVec 16}

theorem namesAt_plant_self (hi : 1 ≤ i) (hi' : i ≤ 65535) (hd : 1 ≤ d)
    (hd' : d ≤ 65535) :
    NamesAt (plant i (newNode i d type major minor) f) i j x k ↔
      NewSlot i d type j x k := by
  constructor
  · rintro ⟨n, hn, hdir, hb⟩
    rw [plant_self] at hn
    obtain rfl := Option.some.inj hn
    change type = T_DIR at hdir
    refine ⟨hdir, ?_⟩
    simp only [newNode, if_pos hdir, bindings_dotsData hi hi' hd hd'] at hb
    rcases j with _ | _ | j
    · obtain ⟨rfl, rfl⟩ := Prod.mk.inj (Option.some.inj (Option.some.inj hb))
      exact .inl ⟨rfl, rfl, rfl⟩
    · obtain ⟨rfl, rfl⟩ := Prod.mk.inj (Option.some.inj (Option.some.inj hb))
      exact .inr ⟨rfl, rfl, rfl⟩
    · cases hb
  · rintro ⟨hdir, hslot⟩
    refine ⟨_, plant_self, hdir, ?_⟩
    simp only [newNode, if_pos hdir, bindings_dotsData hi hi' hd hd']
    rcases hslot with ⟨rfl, rfl, rfl⟩ | ⟨rfl, rfl, rfl⟩
    · rfl
    · rfl

theorem isDir_plant_self :
    isDir (plant i (newNode i d type major minor) f) i = true ↔
      type = T_DIR := by
  rw [isDir_eq plant_self, beq_iff_eq]
  rfl

theorem links_planted :
    (hierarchy (plant i (newNode i d type major minor) f)).links i =
      some 1 :=
  congrArg (Option.map _) plant_self

theorem links_planted_of_ne (hk : k ≠ i) :
    (hierarchy (plant i (newNode i d type major minor) f)).links k =
      (hierarchy f).links k :=
  congrArg (Option.map _) (plant_of_ne hk)

theorem hierarchy_planted (f : Nodes) (type major minor : BitVec 16)
    (hi : 1 ≤ i) (hi' : i ≤ 65535) (hd : 1 ≤ d) (hd' : d ≤ 65535) :
    (hierarchy (plant i (newNode i d type major minor) f)).dir =
        ((hierarchy f).plant i (type = T_DIR) (NewSlot i d type)).dir ∧
      (hierarchy (plant i (newNode i d type major minor) f)).slot =
        ((hierarchy f).plant i (type = T_DIR) (NewSlot i d type)).slot := by
  constructor
  · funext k
    by_cases hk : k = i
    · subst hk
      simp only [Hierarchy.plant, if_true]
      exact propext isDir_plant_self
    · simp only [Hierarchy.plant, if_neg hk]
      change (isDir _ k = true) = (isDir f k = true)
      rw [isDir_congr (by rw [plant_of_ne hk])]
  · funext k j x k'
    by_cases hk : k = i
    · subst hk
      simp only [Hierarchy.plant, if_true]
      exact propext (namesAt_plant_self hi hi' hd hd')
    · simp only [Hierarchy.plant, if_neg hk]
      exact propext (namesAt_congr (by rw [plant_of_ne hk]))

theorem Edit.Legal.create_ne
    (hlegal : (Edit.create i d j name type major minor).Legal f) : d ≠ i := by
  obtain ⟨-, hfree, -, -, -, n, hn, -⟩ := hlegal
  rintro rfl
  rw [hn] at hfree
  cases hfree

/-- The directory of a new inode keeps its entries at first. -/
theorem Edit.Legal.parent (hlegal :
    (Edit.create i d j name type major minor).Legal f) (hn : f d = some n) :
    ∃ n', relinkDir (some type) d (· + 1)
      (plant i (newNode i d type major minor) f) d = some n' ∧
        n'.type = n.type ∧ n'.data = n.data :=
  relinkDir_self ((plant_of_ne hlegal.create_ne).trans hn)

theorem namesAt_created (ho : Orderly f)
    (hlegal : (Edit.create i d j name type major minor).Legal f)
    (hi : i ≤ 65535) :
    NamesAt ((Edit.create i d j name type major minor).apply f) d' j' x k ↔
      ((hierarchy f).plant i (type = T_DIR) (NewSlot i d type)).slot d' j' x
        k ∨ d' = d ∧ j' = j ∧ x = name ∧ k = i := by
  have hparent := fun n => hlegal.parent (n := n)
  obtain ⟨-, -, hpos, hcut, -, n, hn, hdir, hvacant⟩ := hlegal
  obtain ⟨hd, hd'⟩ := ho.numbered d n hn
  obtain ⟨n', hn', htype, hdata⟩ := hparent n hn
  have hwhole := ho.whole d n hn hdir
  rw [← hdata] at hwhole hvacant
  refine (namesAt_new_entry hn' (htype.trans hdir) hwhole hvacant hcut hpos
    hi).trans (or_congr_left ?_)
  rw [namesAt_congr body_relinkDir,
    ← (hierarchy_planted f type major minor hpos hi hd hd').2]
  exact Iff.rfl

/-- A new file or directory. -/
theorem hierarchy_created (ho : Orderly f)
    (hlegal : (Edit.create i d j name type major minor).Legal f)
    (hi : i ≤ 65535)
    (hmax : type = T_DIR → ∀ n, f d = some n → n.nlink ≠ 0xffff) :
    hierarchy ((Edit.create i d j name type major minor).apply f) =
      ((hierarchy f).plant i (type = T_DIR) (NewSlot i d type)).link d j name
        i := by
  have hne := hlegal.create_ne
  obtain ⟨-, -, hpos, -, -, n, hn, -⟩ := id hlegal
  obtain ⟨hd, hd'⟩ := ho.numbered d n hn
  have hdirs := (hierarchy_planted f type major minor hpos hi hd hd').1
  ext k j' x k'
  · change isDir _ k = true ↔ _
    rw [Edit.apply, isDir_entered, isDir_relinkDir]
    exact iff_of_eq (congrFun hdirs k)
  · exact namesAt_created ho hlegal hi
  · have hdiri : ((hierarchy f).plant i (type = T_DIR)
        (NewSlot i d type)).dir i ↔ type = T_DIR := by
      simp only [Hierarchy.plant, if_true]
    have hlinks : (hierarchy ((Edit.create i d j name type major
        minor).apply f)).links k = (((hierarchy f).plant i (type = T_DIR)
          (NewSlot i d type)).link d j name i).links k := by
      rw [Edit.apply, links_entered, links_relinkDir (c := (· + 1))]
      · by_cases hk : k = i
        · subst hk
          rw [if_neg fun hc => hne hc.1.symm, link_links_self, links_planted,
            plant_links_self]
          rfl
        · by_cases hc : k = d ∧ type = T_DIR
          · rw [if_pos ⟨hc.1, congrArg some hc.2⟩, links_planted_of_ne hk, hc.1,
              link_links_parent (hdiri.mpr hc.2), plant_links_of_ne hne]
          · rw [if_neg fun h => hc ⟨h.1, Option.some.inj h.2⟩,
              links_planted_of_ne hk, link_links_of_ne hk fun heq h =>
                hc ⟨heq, hdiri.mp h⟩, plant_links_of_ne hk]
      · intro hsome m hm
        rw [plant_of_ne hne] at hm
        exact toNat_succ (hmax (Option.some.inj hsome) m hm)
    rw [hlinks]

end Create

end ZtlOs.Kernel
