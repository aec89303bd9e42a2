import ZtlOs.Kernel.Names
import ZtlOs.Kernel.Resolution

/-!
# Edits of a name space

What the calls are for, said about the nodes of a volume alone: a call edits
one entry of a directory and the links of the inode that it names, and the
nodes that are left without links stay as long as somebody refers to them.
-/

namespace ZtlOs.Kernel

open ZtlOs.Support ZtlOs.Support.Bindings ZtlOs.Fs

/-- The files and directories of a volume. -/
abbrev Nodes := ℕ → Option Node

/-! ## Changes of one node -/

/-- Node `i` is changed by `h`, if it is there. -/
def revise (i : ℕ) (h : Node → Node) (f : Nodes) : Nodes :=
  Function.update f i ((f i).map h)

/-- Node `i` is new. -/
def plant (i : ℕ) (n : Node) (f : Nodes) : Nodes :=
  Function.update f i (some n)

/-- The node with another number of links. -/
def Node.relinked (g : BitVec 16 → BitVec 16) (n : Node) : Node :=
  { n with nlink := g n.nlink }

/-- The node with entry `j` overwritten. -/
def Node.entered (j : ℕ) (de : Dirent) (n : Node) : Node :=
  { n with data := splice n.data (Dirent.size * j) de.bytes }

section Revise

variable {f : Nodes} {i k : ℕ} {n m : Node} {h h' : Node → Node}

theorem revise_self (hn : f i = some n) : revise i h f i = some (h n) := by
  rw [revise, Function.update_self, hn]
  rfl

theorem revise_of_ne (hk : k ≠ i) : revise i h f k = f k :=
  Function.update_of_ne hk ..

theorem revise_eq (hn : f i = some n) :
    revise i h f = Function.update f i (some (h n)) := by
  rw [revise, hn]
  rfl

theorem revise_eq_none : revise i h f k = none ↔ f k = none := by
  by_cases hk : k = i
  · subst hk
    rw [revise, Function.update_self, Option.map_eq_none_iff]
  · rw [revise_of_ne hk]

/-- Changing a node twice. -/
theorem revise_revise : revise i h (revise i h' f) = revise i (h ∘ h') f := by
  simp only [revise, Function.update_self, Function.update_idem, Option.map_map]

theorem revise_id : revise i id f = f := by
  rw [revise, Option.map_id, id_eq, Function.update_eq_self]

/-- A change that leaves the node as it is. -/
theorem revise_eq_self (hn : f i = some n) (hh : h n = n) :
    revise i h f = f := by
  rw [revise_eq hn, hh, ← hn, Function.update_eq_self]

theorem revise_comm (hik : i ≠ k) :
    revise i h (revise k h' f) = revise k h' (revise i h f) := by
  simp only [revise, Function.update_of_ne hik, Function.update_of_ne hik.symm]
  exact Function.update_comm hik.symm ..

theorem plant_self : plant i n f i = some n :=
  Function.update_self ..

theorem plant_of_ne (hk : k ≠ i) : plant i n f k = f k :=
  Function.update_of_ne hk ..

theorem revise_plant : revise i h (plant i n f) = plant i (h n) f := by
  rw [revise_eq plant_self, plant, plant, Function.update_idem]

end Revise

/-! ## Nodes without links -/

open Classical in
/-- The nodes without links that are not in `S` are gone. -/
noncomputable def swept (S : Set ℕ) (f : Nodes) : Nodes := fun i =>
  if i ∉ S ∧ ∃ n, f i = some n ∧ n.nlink = 0 then none else f i

/-- Every node without links is in `S`. -/
def Anchored (S : Set ℕ) (f : Nodes) : Prop :=
  ∀ i n, f i = some n → n.nlink = 0 → i ∈ S

section Swept

variable {S S' : Set ℕ} {f : Nodes} {i : ℕ} {n : Node}

theorem swept_of_mem (hi : i ∈ S) : swept S f i = f i :=
  if_neg fun hc => hc.1 hi

theorem swept_of_links (hn : f i = some n) (hlink : n.nlink ≠ 0) :
    swept S f i = some n := by
  rw [swept, if_neg, hn]
  rintro ⟨-, m, hm, hzero⟩
  obtain rfl := Option.some.inj (hn.symm.trans hm)
  exact hlink hzero

theorem swept_of_none (hn : f i = none) : swept S f i = none := by
  rw [swept, if_neg, hn]
  rintro ⟨-, m, hm, -⟩
  rw [hn] at hm
  cases hm

theorem swept_gone (hi : i ∉ S) (hn : f i = some n) (hlink : n.nlink = 0) :
    swept S f i = none :=
  if_pos ⟨hi, n, hn, hlink⟩

theorem swept_congr {g : Nodes} (h : f i = g i) :
    swept S f i = swept S g i := by
  rw [swept, swept, h]

theorem swept_swept (hS : S ⊆ S') : swept S (swept S' f) = swept S f := by
  funext k
  by_cases hgone : k ∉ S' ∧ ∃ n, f k = some n ∧ n.nlink = 0
  · obtain ⟨hk, n, hn, hlink⟩ := hgone
    rw [swept_of_none (swept_gone hk hn hlink),
      swept_gone (fun hc => hk (hS hc)) hn hlink]
  · exact swept_congr (if_neg hgone)

/-- A node is changed between two times. -/
theorem swept_revise_swept {h : Node → Node} :
    swept S (revise i h (swept (insert i S) f)) = swept S (revise i h f) := by
  funext k
  by_cases hk : k = i
  · subst hk
    apply swept_congr
    rw [revise, revise, Function.update_self, Function.update_self,
      swept_of_mem (Set.mem_insert k S)]
  · by_cases hgone : k ∉ S ∧ ∃ n, f k = some n ∧ n.nlink = 0
    · obtain ⟨hS, n, hn, hlink⟩ := hgone
      have hnone : swept (insert i S) f k = none :=
        swept_gone (fun hc => hc.elim hk hS) hn hlink
      rw [swept_of_none, swept_gone hS (n := n) _ hlink]
      · rw [revise_of_ne hk, hn]
      · rw [revise_of_ne hk, hnone]
    · apply swept_congr
      rw [revise_of_ne hk, revise_of_ne hk]
      refine if_neg fun hc => hgone ⟨fun hS => hc.1 (.inr hS), hc.2⟩

/-- What stays is as it was. -/
theorem of_swept (hn : swept S f i = some n) :
    f i = some n ∧ (n.nlink = 0 → i ∈ S) := by
  unfold swept at hn
  split at hn
  · cases hn
  · next hc =>
      refine ⟨hn, fun hzero => ?_⟩
      by_contra hi
      exact hc ⟨hi, n, hn, hzero⟩

theorem anchored_swept (hS : ∀ i n, f i = some n → n.nlink = 0 → i ∈ S →
    i ∈ S') : Anchored S' (swept S f) := by
  intro i n hn hzero
  obtain ⟨hf, hi⟩ := of_swept hn
  exact hS i n hf hzero (hi hzero)

/-- Nothing is to be swept. -/
theorem Anchored.swept_eq (h : Anchored S f) : swept S f = f := by
  funext i
  refine if_neg ?_
  rintro ⟨hi, n, hn, hzero⟩
  exact hi (h i n hn hzero)

theorem Anchored.mono (h : Anchored S f) (hS : S ⊆ S') : Anchored S' f :=
  fun i n hn hzero => hS (h i n hn hzero)

/-- A change that leaves no other node without links. -/
theorem Anchored.revise {h' : Node → Node} (h : Anchored S f)
    (hi : ∀ n, f i = some n → (h' n).nlink = 0 → i ∈ S) :
    Anchored S (revise i h' f) := by
  intro k m hm hzero
  by_cases hk : k = i
  · subst hk
    rw [Kernel.revise, Function.update_self] at hm
    obtain ⟨n, hn, rfl⟩ := Option.map_eq_some_iff.mp hm
    exact hi n hn hzero
  · rw [revise_of_ne hk] at hm
    exact h k m hm hzero

theorem Anchored.plant (h : Anchored S f) (hn : n.nlink ≠ 0) :
    Anchored S (plant i n f) := by
  intro k m hm hzero
  by_cases hk : k = i
  · subst hk
    rw [plant_self] at hm
    obtain rfl := Option.some.inj hm
    exact absurd hzero hn
  · rw [plant_of_ne hk] at hm
    exact h k m hm hzero

end Swept

/-! ## Edits -/

/-- The bytes of a new directory `i` in `d`. -/
def dotsData (i d : ℕ) : Bytes :=
  splice (splice [] 0 (linkDirent dot i).bytes) Dirent.size
    (linkDirent dotdot d).bytes

/-- A new node with one link; a directory has its two entries. -/
def newNode (i d : ℕ) (type major minor : BitVec 16) : Node :=
  ⟨type, major, minor, 1, if type = T_DIR then dotsData i d else []⟩

/-- What a call does to a name space. -/
inductive Edit where
  | none
  /-- Entry `j` of directory `d` names the file `i`. -/
  | link (i d j : ℕ) (name : Bytes)
  /-- Entry `j` of directory `d`, which names `i`, is removed. -/
  | unlink (i d j : ℕ)
  /-- Entry `j` of directory `d` names the new inode `i`. -/
  | create (i d j : ℕ) (name : Bytes) (type major minor : BitVec 16)
  /-- Bytes are written to the file `i`. -/
  | write (i off : ℕ) (src : Bytes)

/-- The directory's own links change with those of a directory in it. -/
def relinkDir (type : Option (BitVec 16)) (d : ℕ)
    (g : BitVec 16 → BitVec 16) : Nodes → Nodes :=
  if type = some T_DIR then revise d (Node.relinked g) else id

theorem Anchored.relinkDir {S : Set ℕ} {type : Option (BitVec 16)} {d : ℕ}
    {g : BitVec 16 → BitVec 16} {f : Nodes} (h : Anchored S f) (hd : d ∈ S) :
    Anchored S (relinkDir type d g f) := by
  unfold Kernel.relinkDir
  split
  · exact h.revise fun _ _ _ => hd
  · exact h

theorem relinkDir_of_ne {type : Option (BitVec 16)} {i d : ℕ}
    {g : BitVec 16 → BitVec 16} {f : Nodes} (hi : i ≠ d) :
    relinkDir type d g f i = f i := by
  unfold relinkDir
  split
  · exact revise_of_ne hi
  · rfl

/-- A directory keeps its entries. -/
theorem relinkDir_self {type : Option (BitVec 16)} {d : ℕ}
    {g : BitVec 16 → BitVec 16} {f : Nodes} {n : Node} (hn : f d = some n) :
    ∃ n', relinkDir type d g f d = some n' ∧ n'.type = n.type ∧
      n'.data = n.data := by
  unfold relinkDir
  split
  · exact ⟨_, revise_self hn, rfl, rfl⟩
  · exact ⟨n, hn, rfl, rfl⟩

def Edit.apply : Edit → Nodes → Nodes
  | .none, f => f
  | .link i d j name, f =>
      revise d (Node.entered j (linkDirent name i))
        (revise i (Node.relinked (· + 1)) f)
  | .unlink i d j, f =>
      revise i (Node.relinked (· - 1))
        (relinkDir ((f i).map Node.type) d (· - 1)
          (revise d (Node.entered j Dirent.zero) f))
  | .create i d j name type major minor, f =>
      revise d (Node.entered j (linkDirent name i))
        (relinkDir (some type) d (· + 1)
          (plant i (newNode i d type major minor) f))
  | .write i off src, f => revise i (fun n => n.written off src) f

/-! ## What the calls ask for

`f` are the nodes before the call, and `a` is where the path starts. -/

/-- Slot `j` of directory `d` names `i`. -/
def NamesAt (f : Nodes) (d j : ℕ) (name : Bytes) (i : ℕ) : Prop :=
  ∃ n, f d = some n ∧ n.type = T_DIR ∧ Binds (bindings n.data) j name i

/-- Directory `d` has no entry `name`, and slot `j` is free or just behind the
last entry. -/
def RoomAt (f : Nodes) (d j : ℕ) (name : Bytes) : Prop :=
  cutName name = name ∧ lookupAt f d name = none ∧
    ∃ n, f d = some n ∧ n.type = T_DIR ∧ Vacant n.data j

/-- Nothing is in the directory but its first two entries. -/
def Bare (f : Nodes) (i : ℕ) : Prop :=
  ∀ j name k, NamesAt f i j name k → j < 2

/-- What `sys_link` returns, and what it does. -/
inductive LinkEdit (f : Nodes) (a b : ℕ) (old new : List Bytes) :
    ℤ → Edit → Prop
  | missing (h : walk f a old = none) : LinkEdit f a b old new (-1) .none
  | directory {i : ℕ} (h : walk f a old = some i) (hdir : isDir f i = true) :
      LinkEdit f a b old new (-1) .none
  | orphan {i : ℕ} (h : walk f a old = some i) (hdir : isDir f i = false)
      (hnew : walkParent f b new = none) : LinkEdit f a b old new (-1) .none
  | present {i d : ℕ} {name : Bytes} (h : walk f a old = some i)
      (hdir : isDir f i = false) (hnew : walkParent f b new = some (d, name))
      (hname : lookupAt f d name ≠ none) : LinkEdit f a b old new (-1) .none
  | linked {i d j : ℕ} {name : Bytes} {n : Node} (h : walk f a old = some i)
      (hn : f i = some n) (hdir : n.type ≠ T_DIR)
      (hnew : walkParent f b new = some (d, name)) (hroom : RoomAt f d j name) :
      LinkEdit f a b old new 0 (.link i d j name)

/-- What `sys_unlink` returns, and what it does. -/
inductive UnlinkEdit (f : Nodes) (a : ℕ) (path : List Bytes) :
    ℤ → Edit → Prop
  | orphan (h : walkParent f a path = none) : UnlinkEdit f a path (-1) .none
  | dots {d : ℕ} {name : Bytes} (h : walkParent f a path = some (d, name))
      (hname : name = dot ∨ name = dotdot) : UnlinkEdit f a path (-1) .none
  | missing {d : ℕ} {name : Bytes} (h : walkParent f a path = some (d, name))
      (hname : lookupAt f d name = none) : UnlinkEdit f a path (-1) .none
  | occupied {d i : ℕ} {name : Bytes} (h : walkParent f a path = some (d, name))
      (hname : lookupAt f d name = some i) (hdir : isDir f i = true)
      (hbare : ¬Bare f i) : UnlinkEdit f a path (-1) .none
  | removed {d i j : ℕ} {name : Bytes} {n : Node}
      (h : walkParent f a path = some (d, name)) (hdot : name ≠ dot)
      (hdotdot : name ≠ dotdot) (hname : lookupAt f d name = some i)
      (hat : NamesAt f d j name i) (hn : f i = some n) (hlink : n.nlink ≠ 0)
      (hbare : n.type = T_DIR → Bare f i) :
      UnlinkEdit f a path 0 (.unlink i d j)

/-- The inode that `create` returns, and what it does. -/
inductive CreateEdit (f : Nodes) (a : ℕ) (path : List Bytes)
    (type major minor : BitVec 16) : Option ℕ → Edit → Prop
  | orphan (h : walkParent f a path = none) :
      CreateEdit f a path type major minor none .none
  | present {d i : ℕ} {name : Bytes} {n : Node}
      (h : walkParent f a path = some (d, name))
      (hname : lookupAt f d name = some i) (hn : f i = some n)
      (htype : ¬(type = T_FILE ∧ n.type = T_FILE)) :
      CreateEdit f a path type major minor none .none
  | opened {d i : ℕ} {name : Bytes} {n : Node}
      (h : walkParent f a path = some (d, name))
      (hname : lookupAt f d name = some i) (hn : f i = some n)
      (htype : type = T_FILE) (hfile : n.type = T_FILE) :
      CreateEdit f a path type major minor (some i) .none
  | created {d i j : ℕ} {name : Bytes}
      (h : walkParent f a path = some (d, name)) (hroom : RoomAt f d j name)
      (hfree : f i = none) (hpos : 0 < i) :
      CreateEdit f a path type major minor (some i)
        (.create i d j name type major minor)

/-- The inode that `sys_open` opens, and what it does. -/
inductive OpenEdit (f : Nodes) (a : ℕ) (path : List Bytes)
    (omode : BitVec 32) : Option ℕ → Edit → Prop
  | create {o : Option ℕ} {e : Edit} (hmode : omode &&& O_CREATE ≠ 0)
      (h : CreateEdit f a path T_FILE 0 0 o e) : OpenEdit f a path omode o e
  | missing (hmode : omode &&& O_CREATE = 0) (h : walk f a path = none) :
      OpenEdit f a path omode none .none
  | directory {i : ℕ} (hmode : omode &&& O_CREATE = 0)
      (h : walk f a path = some i) (hdir : isDir f i = true)
      (hwrite : omode ≠ O_RDONLY) : OpenEdit f a path omode none .none
  | opened {i : ℕ} (hmode : omode &&& O_CREATE = 0)
      (h : walk f a path = some i)
      (hread : isDir f i = true → omode = O_RDONLY) :
      OpenEdit f a path omode (some i) .none

/-- The edits that calls make. -/
def Edit.Legal (f : Nodes) : Edit → Prop
  | .none => True
  | .link i d j name =>
      (∃ n, f i = some n ∧ n.type ≠ T_DIR) ∧ RoomAt f d j name
  | .unlink i d j => ∃ name n, name ≠ dot ∧ name ≠ dotdot ∧
      NamesAt f d j name i ∧ f i = some n ∧ (n.type = T_DIR → Bare f i)
  | .create i d j name type _ _ =>
      type ≠ 0 ∧ f i = Option.none ∧ 0 < i ∧ RoomAt f d j name
  | .write i _ _ => ∃ n, f i = some n ∧ n.type ≠ T_DIR

section Legal

variable {f : Nodes} {a b : ℕ} {old new path : List Bytes} {r : ℤ}
variable {o : Option ℕ} {e : Edit} {type major minor : BitVec 16}
variable {omode : BitVec 32}

theorem LinkEdit.legal (h : LinkEdit f a b old new r e) : e.Legal f := by
  cases h with
  | missing | directory | orphan | present => trivial
  | linked _ hn hdir _ hroom => exact ⟨⟨_, hn, hdir⟩, hroom⟩

theorem UnlinkEdit.legal (h : UnlinkEdit f a path r e) : e.Legal f := by
  cases h with
  | orphan | dots | missing | occupied => trivial
  | removed _ hdot hdotdot _ hat hn _ hbare =>
      exact ⟨_, _, hdot, hdotdot, hat, hn, hbare⟩

theorem CreateEdit.legal (h : CreateEdit f a path type major minor o e)
    (htype : type ≠ 0) : e.Legal f := by
  cases h with
  | orphan | present | opened => trivial
  | created _ hroom hfree hpos => exact ⟨htype, hfree, hpos, hroom⟩

theorem OpenEdit.legal (h : OpenEdit f a path omode o e) : e.Legal f := by
  cases h with
  | missing | directory | opened => trivial
  | create _ hcreate => exact hcreate.legal (by decide)

end Legal

/-! ### The number of links matters to no path -/

section Relinked

variable {f : Nodes} {g : BitVec 16 → BitVec 16} {i d j k : ℕ} {name : Bytes}
variable {names : List Bytes}

theorem relinked_cases (f : Nodes) (g : BitVec 16 → BitVec 16) (i k : ℕ) :
    revise i (Node.relinked g) f k = f k ∨
      ∃ n, f k = some n ∧ revise i (Node.relinked g) f k =
        some (Node.relinked g n) := by
  by_cases hk : k = i
  · subst hk
    rcases hn : f k with _ | n
    · exact .inl (revise_eq_none.mpr hn)
    · exact .inr ⟨n, rfl, revise_self hn⟩
  · exact .inl (revise_of_ne hk)

theorem lookupAt_relinked :
    lookupAt (revise i (Node.relinked g) f) k name = lookupAt f k name := by
  unfold lookupAt
  rcases relinked_cases f g i k with heq | ⟨n, hn, heq⟩
  · rw [heq]
  · rw [heq, hn]
    rfl

theorem isDir_relinked :
    isDir (revise i (Node.relinked g) f) k = isDir f k := by
  unfold isDir
  rcases relinked_cases f g i k with heq | ⟨n, hn, heq⟩
  · rw [heq]
  · rw [heq, hn]
    rfl

theorem walk_relinked :
    walk (revise i (Node.relinked g) f) k names = walk f k names := by
  induction names generalizing k with
  | nil => rfl
  | cons name names ih => simp only [walk, lookupAt_relinked, ih]

theorem walkParent_relinked :
    walkParent (revise i (Node.relinked g) f) k names =
      walkParent f k names := by
  simp only [walkParent, walk_relinked, isDir_relinked]

theorem roomAt_relinked :
    RoomAt (revise i (Node.relinked g) f) d j name ↔ RoomAt f d j name := by
  unfold RoomAt
  rw [lookupAt_relinked]
  refine and_congr_right fun _ => and_congr_right fun _ => ?_
  rcases relinked_cases f g i d with heq | ⟨n, hn, heq⟩
  · rw [heq]
  · rw [heq, hn]
    constructor
    · rintro ⟨_, ⟨⟩, hdir, hj⟩
      exact ⟨n, rfl, hdir, hj⟩
    · rintro ⟨_, ⟨⟩, hdir, hj⟩
      exact ⟨_, rfl, hdir, hj⟩

end Relinked

end ZtlOs.Kernel
