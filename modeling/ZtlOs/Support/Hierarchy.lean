import Mathlib.Data.Set.Card

/-!
# Hierarchies with counted links

Files, some of which are directories: they have slots that bind names to files.
A file counts its links, which are to be the entries that name it in the
directories that are linked themselves.  The linked directories form a tree.
-/

namespace ZtlOs.Support

/-- The existing directories, the bindings in their slots, and the existing
files with their numbers of links. -/
@[ext] structure Hierarchy (I N : Type) where
  dir : I → Prop
  slot : I → ℕ → N → I → Prop
  links : I → Option ℕ

/-- What a directory calls itself and its parent, and the first directory. -/
structure Dots (I N : Type) where
  self : N
  up : N
  ne : self ≠ up
  root : I

namespace Hierarchy

variable {I N : Type} {H : Hierarchy I N} {D : Dots I N}
variable {c d d' e i : I} {j j' : ℕ} {x x' : N}

/-! ## Entries -/

/-- A directory that has links. -/
def Linked (H : Hierarchy I N) (d : I) : Prop :=
  H.dir d ∧ ∃ l, H.links d = some l ∧ l ≠ 0

/-- Slot `j` of the linked directory `d` binds `x` to `i`. -/
def Entry (H : Hierarchy I N) (d : I) (j : ℕ) (x : N) (i : I) : Prop :=
  H.Linked d ∧ H.slot d j x i

/-- Neither of the two names that every directory has. -/
def Proper (D : Dots I N) (x : N) : Prop :=
  x ≠ D.self ∧ x ≠ D.up

/-- The entries that name `i`, apart from a directory's name for itself. -/
def named (D : Dots I N) (H : Hierarchy I N) (i : I) : Set (I × ℕ) :=
  {a | ∃ x, x ≠ D.self ∧ H.Entry a.1 a.2 x i}

/-- Slot `j` of directory `d` has a name for `i` other than these two. -/
def Child (D : Dots I N) (H : Hierarchy I N) (d : I) (j : ℕ) (i : I) : Prop :=
  ∃ x, Proper D x ∧ H.Entry d j x i

/-- What names lead to from the first directory. -/
inductive Reach (D : Dots I N) (H : Hierarchy I N) : I → Prop
  | root : Reach D H D.root
  | child {d : I} {j : ℕ} {i : I} (head : Reach D H d)
      (tail : Child D H d j i) : Reach D H i

/-- The slots are functional, the links are counted, and the linked directories
form a tree. -/
structure Sound (D : Dots I N) (H : Hierarchy I N) : Prop where
  root : H.Linked D.root
  dir : ∀ d j x i, H.slot d j x i → H.dir d
  exist : ∀ d, H.dir d → H.links d ≠ none
  functional : ∀ d j x i x' i', H.slot d j x i → H.slot d j x' i' →
    x = x' ∧ i = i'
  distinct : ∀ d j j' x i i', H.Entry d j x i → H.Entry d j' x i' → j = j'
  self : ∀ d, H.Linked d → H.slot d 0 D.self d
  up : ∀ d, H.Linked d → ∃ e, H.slot d 1 D.up e
  top : H.slot D.root 1 D.up D.root
  cleared : ∀ d j x i, H.slot d j x i → H.links d = some 0 → ¬Proper D x
  target : ∀ d j x i, H.Entry d j x i → H.links i ≠ none
  count : ∀ i l, H.links i = some l → (l : ℕ∞) = (named D H i).encard
  parent : ∀ d j i, Child D H d j i → H.dir i → H.slot i 1 D.up d
  unique : ∀ d j d' j' i, Child D H d j i → Child D H d' j' i → H.dir i →
    d = d' ∧ j = j'
  notRoot : ∀ d j, ¬Child D H d j D.root
  reach : ∀ d, H.Linked d → Reach D H d

theorem mem_named : (d, j) ∈ named D H i ↔
    ∃ x, x ≠ D.self ∧ H.Entry d j x i :=
  Iff.rfl

theorem Child.mem_named (h : Child D H d j i) : (d, j) ∈ named D H i := by
  obtain ⟨x, hx, he⟩ := h
  exact ⟨x, hx.1, he⟩

theorem Child.linked (h : Child D H d j i) : H.Linked d := by
  obtain ⟨x, -, he⟩ := h
  exact he.1

theorem Child.slot (h : Child D H d j i) :
    ∃ x, Proper D x ∧ H.slot d j x i := by
  obtain ⟨x, hx, he⟩ := h
  exact ⟨x, hx, he.2⟩

theorem Reach.mono {H' : Hierarchy I N} (h : Reach D H i)
    (hmono : ∀ d j i, Child D H d j i → Child D H' d j i) :
    Reach D H' i := by
  induction h with
  | root => exact .root
  | child _ htail ih => exact .child ih (hmono _ _ _ htail)

namespace Sound

/-- What an entry names has links, unless it is the directory itself. -/
theorem links_pos (h : Sound D H) (he : H.Entry d j x i) (hx : x ≠ D.self) :
    ∃ l, H.links i = some l ∧ l ≠ 0 := by
  obtain ⟨l, hl⟩ := Option.ne_none_iff_exists'.mp (h.target d j x i he)
  refine ⟨l, hl, ?_⟩
  have hcount := h.count i l hl
  have hne : named D H i ≠ ∅ :=
    Set.nonempty_iff_ne_empty.mp ⟨(d, j), x, hx, he⟩
  rintro rfl
  exact hne (Set.encard_eq_zero.mp hcount.symm)

theorem child_linked (h : Sound D H) (hc : Child D H d j i) (hdir : H.dir i) :
    H.Linked i := by
  obtain ⟨x, hx, he⟩ := hc
  exact ⟨hdir, h.links_pos he hx.1⟩

theorem ne_root (h : Sound D H) (hc : Child D H d j i) : i ≠ D.root := by
  rintro rfl
  exact h.notRoot d j hc

/-- A directory's name for itself names no other one. -/
theorem self_eq (h : Sound D H) (he : H.Entry d j D.self i) : i = d := by
  have hself := h.self d he.1
  obtain rfl := h.distinct d j 0 D.self i d he ⟨he.1, hself⟩
  exact (h.functional d 0 D.self i D.self d he.2 hself).2

/-- A name for the parent is in slot 1. -/
theorem up_eq (h : Sound D H) (he : H.Entry d j D.up i) : j = 1 := by
  obtain ⟨e, hup⟩ := h.up d he.1
  exact h.distinct d j 1 D.up i e he ⟨he.1, hup⟩

/-- Every linked directory but the first has a name, in its parent. -/
theorem exists_child (h : Sound D H) (hl : H.Linked d) (hd : d ≠ D.root) :
    ∃ e j, Child D H e j d := by
  have hreach := h.reach d hl
  generalize hd' : d = d' at hreach
  induction hreach with
  | root => exact absurd hd' hd
  | child _ htail _ =>
      subst hd'
      exact ⟨_, _, htail⟩

/-- What a linked directory calls its parent is a linked directory, which has
a name for it unless it is the first. -/
theorem up_child (h : Sound D H) (hl : H.Linked d) (hup : H.slot d 1 D.up e) :
    H.Linked e ∧ (d ≠ D.root → ∃ j, Child D H e j d) ∧
      (d = D.root → e = D.root) := by
  by_cases hd : d = D.root
  · subst hd
    have htop := (h.functional _ 1 D.up e D.up _ hup h.top).2
    subst htop
    exact ⟨h.root, fun hne => absurd rfl hne, fun _ => rfl⟩
  · obtain ⟨e', j, hc⟩ := h.exists_child hl hd
    have hparent := h.parent e' j d hc hl.1
    have heq := (h.functional d 1 D.up e D.up e' hup hparent).2
    subst heq
    exact ⟨hc.linked, fun _ => ⟨j, hc⟩, fun hr => absurd hr hd⟩

/-- A linked directory without children has one link. -/
theorem named_of_empty (h : Sound D H) (hc : Child D H d j i) (hdir : H.dir i)
    (hempty : ∀ j k, ¬Child D H i j k) : named D H i = {(d, j)} := by
  apply Set.Subset.antisymm
  · rintro ⟨d', j'⟩ ⟨x, hx, he⟩
    by_cases hup : x = D.up
    · subst hup
      obtain rfl := h.up_eq he
      obtain ⟨-, hname, htop⟩ := h.up_child he.1 he.2
      by_cases hroot : d' = D.root
      · have hi := htop hroot
        exact absurd hi (h.ne_root hc)
      · obtain ⟨k, hk⟩ := hname hroot
        exact absurd hk (hempty k d')
    · obtain ⟨rfl, rfl⟩ := h.unique d j d' j' i hc ⟨x, ⟨hx, hup⟩, he⟩ hdir
      rfl
  · rintro _ rfl
    exact hc.mem_named

end Sound

/-! ## Paths -/

/-- The names `xs`, the last one first, lead from the first directory to `i`. -/
inductive Route (D : Dots I N) (H : Hierarchy I N) : List N → I → Prop
  | root : Route D H [] D.root
  | child {xs : List N} {d : I} {x : N} {j : ℕ} {i : I} (head : Route D H xs d)
      (hx : Proper D x) (he : H.Entry d j x i) : Route D H (x :: xs) i

section Route

variable {xs ys : List N}

theorem Route.proper (h : Route D H xs i) : ∀ x ∈ xs, Proper D x := by
  induction h with
  | root => exact fun x hx => absurd hx List.not_mem_nil
  | child _ hx _ ih => exact List.forall_mem_cons.mpr ⟨hx, ih⟩

/-- A directory on a path has links. -/
theorem Route.linked (hp : Route D H xs i) (h : Sound D H) (hdir : H.dir i) :
    H.Linked i := by
  cases hp with
  | root => exact h.root
  | child _ hx he => exact h.child_linked ⟨_, hx, he⟩ hdir

theorem Reach.exists_route (hr : Reach D H i) : ∃ xs, Route D H xs i := by
  induction hr with
  | root => exact ⟨[], .root⟩
  | child _ htail ih =>
      obtain ⟨xs, hxs⟩ := ih
      obtain ⟨x, hx, he⟩ := htail
      exact ⟨x :: xs, hxs.child hx he⟩

/-- There is a path to everything that has links. -/
theorem Sound.exists_route {l : ℕ} (h : Sound D H) (hl : H.links i = some l)
    (hne : l ≠ 0) : ∃ xs, Route D H xs i := by
  have hnonempty : (named D H i).Nonempty := by
    rw [← Set.encard_ne_zero, ← h.count i l hl]
    exact Nat.cast_ne_zero.mpr hne
  obtain ⟨⟨d, j⟩, x, hx, he⟩ := hnonempty
  by_cases hup : x = D.up
  · subst hup
    obtain rfl := h.up_eq he
    exact (h.reach i (h.up_child he.1 he.2).1).exists_route
  · obtain ⟨xs, hxs⟩ := (h.reach d he.1).exists_route
    exact ⟨x :: xs, hxs.child ⟨hx, hup⟩ he⟩

/-- Whatever there is a path to has links. -/
theorem Route.exists_links (hp : Route D H xs i) (h : Sound D H) :
    ∃ l, H.links i = some l ∧ l ≠ 0 := by
  cases hp with
  | root => exact h.root.2
  | child _ hx he => exact h.links_pos he hx.1

/-- There is only one path to a directory. -/
theorem Route.unique (hx : Route D H xs i) (hy : Route D H ys i)
    (h : Sound D H) (hdir : H.dir i) : xs = ys := by
  induction hx generalizing ys with
  | root =>
      cases hy with
      | root => rfl
      | child _ hy he => exact absurd ⟨_, hy, he⟩ (h.notRoot _ _)
  | child _ hx he ih =>
      cases hy with
      | root => exact absurd ⟨_, hx, he⟩ (h.notRoot _ _)
      | child hy hy' he' =>
          obtain ⟨rfl, rfl⟩ := h.unique _ _ _ _ _ ⟨_, hx, he⟩ ⟨_, hy', he'⟩ hdir
          obtain ⟨rfl, -⟩ := h.functional _ _ _ _ _ _ he.2 he'.2
          rw [ih hy he.1.1]

/-- A directory's name for its parent takes off the last name of its path. -/
theorem Route.up {d : I} (hp : Route D H (x :: xs) i) (h : Sound D H)
    (hdir : H.dir i) (hup : H.slot i 1 D.up d) : Route D H xs d := by
  cases hp with
  | child hp hx he =>
      have hparent := h.parent _ _ _ ⟨_, hx, he⟩ hdir
      obtain ⟨-, rfl⟩ := h.functional _ _ _ _ _ _ hup hparent
      exact hp

end Route

/-! ## A name is added -/

section Link

open Classical in
/-- Slot `j` of directory `d` names `i`.  If this is a directory, its name for
its parent counts from now on. -/
noncomputable def link (H : Hierarchy I N) (d : I) (j : ℕ) (x : N) (i : I) :
    Hierarchy I N where
  dir := H.dir
  slot d' j' x' i' := H.slot d' j' x' i' ∨
    d' = d ∧ j' = j ∧ x' = x ∧ i' = i
  links k := if k = i ∨ k = d ∧ H.dir i then (H.links k).map (· + 1)
    else H.links k

theorem link_links_self :
    (H.link d j x i).links i = (H.links i).map (· + 1) :=
  if_pos (.inl rfl)

theorem link_links_parent (hdir : H.dir i) :
    (H.link d j x i).links d = (H.links d).map (· + 1) :=
  if_pos (.inr ⟨rfl, hdir⟩)

theorem link_links_of_ne (hk : e ≠ i) (hk' : e = d → ¬H.dir i) :
    (H.link d j x i).links e = H.links e := by
  refine if_neg ?_
  rintro (heq | ⟨heq, hdir⟩)
  · exact hk heq
  · exact hk' heq hdir

/-- The links of a file are those before, or one more. -/
theorem link_links_cases (H : Hierarchy I N) (d : I) (j : ℕ) (x : N) (i e : I) :
    (H.link d j x i).links e = H.links e ∨
      (H.link d j x i).links e = (H.links e).map (· + 1) := by
  unfold link
  dsimp only
  split
  · exact .inr rfl
  · exact .inl rfl

/-- A new directory in `d`. -/
structure Newborn (D : Dots I N) (H : Hierarchy I N) (d i : I) : Prop where
  links : H.links i = some 0
  self : H.slot i 0 D.self i
  up : H.slot i 1 D.up d
  only : ∀ j x k, H.slot i j x k →
    j = 0 ∧ x = D.self ∧ k = i ∨ j = 1 ∧ x = D.up ∧ k = d

/-- Slot `j` of the linked directory `d` is free, the name `x` is new, and `i`
is a file or a new directory. -/
structure Adds (D : Dots I N) (H : Hierarchy I N) (d : I) (j : ℕ) (x : N)
    (i : I) : Prop where
  sound : Sound D H
  linked : H.Linked d
  free : ∀ x' i', ¬H.slot d j x' i'
  fresh : ∀ j' i', ¬H.slot d j' x i'
  exist : H.links i ≠ none
  newborn : H.dir i → Newborn D H d i

namespace Adds

variable (h : Adds D H d j x i)

include h

theorem proper : Proper D x := by
  constructor
  · rintro rfl
    exact h.fresh 0 d (h.sound.self d h.linked)
  · rintro rfl
    obtain ⟨e, he⟩ := h.sound.up d h.linked
    exact h.fresh 1 e he

theorem not_linked : ¬H.Linked i := by
  rintro ⟨hdir, l, hl, hne⟩
  rw [(h.newborn hdir).links] at hl
  exact hne (Option.some.inj hl).symm

theorem ne : d ≠ i := by
  rintro rfl
  exact h.not_linked h.linked

theorem linked_iff : (H.link d j x i).Linked d' ↔
    H.Linked d' ∨ d' = i ∧ H.dir i := by
  by_cases hi : d' = i
  · subst hi
    rw [Linked, link_links_self]
    constructor
    · rintro ⟨hdir, -⟩
      exact .inr ⟨rfl, hdir⟩
    · rintro (hl | ⟨-, hdir⟩)
      · exact absurd hl h.not_linked
      · rw [(h.newborn hdir).links]
        exact ⟨hdir, 1, rfl, Nat.one_ne_zero⟩
  rw [or_iff_left fun hc => hi hc.1]
  by_cases hd : d' = d ∧ H.dir i
  · obtain ⟨rfl, hdir⟩ := hd
    obtain ⟨hdir', l, hl, -⟩ := id h.linked
    refine iff_of_true ⟨hdir', l + 1, ?_, Nat.succ_ne_zero l⟩ h.linked
    rw [link_links_parent hdir, hl]
    rfl
  · rw [Linked, link_links_of_ne hi fun heq hdir => hd ⟨heq, hdir⟩]
    exact Iff.rfl

theorem entry_iff {k : I} : (H.link d j x i).Entry d' j' x' k ↔
    H.Entry d' j' x' k ∨ (d' = d ∧ j' = j ∧ x' = x ∧ k = i) ∨
      H.dir i ∧ d' = i ∧ H.slot i j' x' k := by
  rw [Entry, h.linked_iff, Entry]
  constructor
  · rintro ⟨hl, hs | hs⟩
    · rcases hl with hl | ⟨rfl, hdir⟩
      · exact .inl ⟨hl, hs⟩
      · exact .inr (.inr ⟨hdir, rfl, hs⟩)
    · exact .inr (.inl hs)
  · rintro (⟨hl, hs⟩ | ⟨rfl, rfl, rfl, rfl⟩ | ⟨hdir, rfl, hs⟩)
    · exact ⟨.inl hl, .inl hs⟩
    · exact ⟨.inl h.linked, .inr ⟨rfl, rfl, rfl, rfl⟩⟩
    · exact ⟨.inr ⟨rfl, hdir⟩, .inl hs⟩

theorem child_iff {k : I} : Child D (H.link d j x i) d' j' k ↔
    Child D H d' j' k ∨ d' = d ∧ j' = j ∧ k = i := by
  constructor
  · rintro ⟨x', hx, he⟩
    rcases h.entry_iff.mp he with he | ⟨rfl, rfl, -, rfl⟩ | ⟨hdir, rfl, hs⟩
    · exact .inl ⟨x', hx, he⟩
    · exact .inr ⟨rfl, rfl, rfl⟩
    · rcases (h.newborn hdir).only j' x' k hs with ⟨-, rfl, -⟩ | ⟨-, rfl, -⟩
      · exact absurd rfl hx.1
      · exact absurd rfl hx.2
  · rintro (⟨x', hx, he⟩ | ⟨rfl, rfl, rfl⟩)
    · exact ⟨x', hx, h.entry_iff.mpr (.inl he)⟩
    · exact ⟨x, h.proper, h.entry_iff.mpr (.inr (.inl ⟨rfl, rfl, rfl, rfl⟩))⟩

theorem mem_named_iff {k : I} : (d', j') ∈ named D (H.link d j x i) k ↔
    (d', j') ∈ named D H k ∨ (d' = d ∧ j' = j ∧ k = i) ∨
      H.dir i ∧ d' = i ∧ j' = 1 ∧ k = d := by
  constructor
  · rintro ⟨x', hx, he⟩
    rcases h.entry_iff.mp he with he | ⟨rfl, rfl, -, rfl⟩ | ⟨hdir, rfl, hs⟩
    · exact .inl ⟨x', hx, he⟩
    · exact .inr (.inl ⟨rfl, rfl, rfl⟩)
    · rcases (h.newborn hdir).only j' x' k hs with ⟨-, rfl, -⟩ | ⟨rfl, -, rfl⟩
      · exact absurd rfl hx
      · exact .inr (.inr ⟨hdir, rfl, rfl, rfl⟩)
  · rintro (⟨x', hx, he⟩ | ⟨rfl, rfl, rfl⟩ | ⟨hdir, rfl, rfl, rfl⟩)
    · exact ⟨x', hx, h.entry_iff.mpr (.inl he)⟩
    · exact ⟨x, h.proper.1,
        h.entry_iff.mpr (.inr (.inl ⟨rfl, rfl, rfl, rfl⟩))⟩
    · exact ⟨D.up, D.ne.symm,
        h.entry_iff.mpr (.inr (.inr ⟨hdir, rfl, (h.newborn hdir).up⟩))⟩

/-- The file has one more link. -/
theorem named_self : named D (H.link d j x i) i =
    insert (d, j) (named D H i) := by
  ext ⟨d', j'⟩
  rw [h.mem_named_iff, Set.mem_insert_iff, Prod.mk.injEq]
  constructor
  · rintro (hm | ⟨hd, hj, -⟩ | ⟨-, -, -, heq⟩)
    · exact .inr hm
    · exact .inl ⟨hd, hj⟩
    · exact absurd heq.symm h.ne
  · rintro (⟨hd, hj⟩ | hm)
    · exact .inr (.inl ⟨hd, hj, rfl⟩)
    · exact .inl hm

/-- So has the parent of a new directory. -/
theorem named_parent (hdir : H.dir i) : named D (H.link d j x i) d =
    insert (i, 1) (named D H d) := by
  ext ⟨d', j'⟩
  rw [h.mem_named_iff, Set.mem_insert_iff, Prod.mk.injEq]
  constructor
  · rintro (hm | ⟨-, -, heq⟩ | ⟨-, hd, hj, -⟩)
    · exact .inr hm
    · exact absurd heq h.ne
    · exact .inl ⟨hd, hj⟩
  · rintro (⟨hd, hj⟩ | hm)
    · exact .inr (.inr ⟨hdir, hd, hj, rfl⟩)
    · exact .inl hm

theorem named_of_ne (hk : e ≠ i) (hk' : e = d → ¬H.dir i) :
    named D (H.link d j x i) e = named D H e := by
  ext ⟨d', j'⟩
  rw [h.mem_named_iff]
  refine or_iff_left ?_
  rintro (⟨-, -, heq⟩ | ⟨hdir, -, -, heq⟩)
  · exact hk heq
  · exact hk' heq hdir

theorem distinct {i' : I} {j₁ j₂ : ℕ}
    (he₁ : (H.link d j x i).Entry d' j₁ x' e)
    (he₂ : (H.link d j x i).Entry d' j₂ x' i') : j₁ = j₂ := by
  rcases h.entry_iff.mp he₁ with h₁ | ⟨rfl, rfl, rfl, -⟩ | ⟨hdir, rfl, h₁⟩
  · rcases h.entry_iff.mp he₂ with h₂ | ⟨rfl, -, rfl, -⟩ | ⟨-, rfl, -⟩
    · exact h.sound.distinct _ _ _ _ _ _ h₁ h₂
    · exact absurd h₁.2 (h.fresh _ _)
    · exact absurd h₁.1 h.not_linked
  · rcases h.entry_iff.mp he₂ with h₂ | ⟨-, rfl, -, -⟩ | ⟨-, heq, -⟩
    · exact absurd h₂.2 (h.fresh _ _)
    · rfl
    · exact absurd heq h.ne
  · rcases h.entry_iff.mp he₂ with h₂ | ⟨heq, -, -, -⟩ | ⟨-, -, h₂⟩
    · exact absurd h₂.1 h.not_linked
    · exact absurd heq.symm h.ne
    · have hnew := h.newborn hdir
      rcases hnew.only _ _ _ h₁ with ⟨rfl, hx, -⟩ | ⟨rfl, hx, -⟩
      · rcases hnew.only _ _ _ h₂ with ⟨rfl, -, -⟩ | ⟨-, hx', -⟩
        · rfl
        · exact absurd (hx.symm.trans hx') D.ne
      · rcases hnew.only _ _ _ h₂ with ⟨-, hx', -⟩ | ⟨rfl, -, -⟩
        · exact absurd (hx'.symm.trans hx) D.ne
        · rfl

theorem count (l : ℕ) (hl : (H.link d j x i).links e = some l) :
    (l : ℕ∞) = (named D (H.link d j x i) e).encard := by
  by_cases hk : e = i
  · subst hk
    rw [link_links_self] at hl
    obtain ⟨l', hl', rfl⟩ := Option.map_eq_some_iff.mp hl
    have hnot : (d, j) ∉ named D H e := by
      rintro ⟨x', -, he⟩
      exact h.free x' e he.2
    rw [h.named_self, Set.encard_insert_of_notMem hnot,
      ← h.sound.count e l' hl']
    exact Nat.cast_succ l'
  by_cases hd : e = d ∧ H.dir i
  · obtain ⟨rfl, hdir⟩ := hd
    rw [link_links_parent hdir] at hl
    obtain ⟨l', hl', rfl⟩ := Option.map_eq_some_iff.mp hl
    have hnot : (i, 1) ∉ named D H e := by
      rintro ⟨x', -, he⟩
      exact h.not_linked he.1
    rw [h.named_parent hdir, Set.encard_insert_of_notMem hnot,
      ← h.sound.count e l' hl']
    exact Nat.cast_succ l'
  · have hd' : e = d → ¬H.dir i := fun heq hdir => hd ⟨heq, hdir⟩
    rw [link_links_of_ne hk hd'] at hl
    rw [h.named_of_ne hk hd']
    exact h.sound.count e l hl

end Adds

/-- A name for a file or for a new directory keeps the hierarchy sound. -/
theorem Sound.link (h : Adds D H d j x i) : Sound D (H.link d j x i) := by
  have hs := h.sound
  constructor
  · exact h.linked_iff.mpr (.inl hs.root)
  · intro d' j' x' k hslot
    rcases hslot with hslot | ⟨rfl, -, -, -⟩
    · exact hs.dir d' j' x' k hslot
    · exact h.linked.1
  · intro d' hd' hnone
    rcases link_links_cases H d j x i d' with heq | heq
    · exact hs.exist d' hd' (heq ▸ hnone)
    · rw [heq, Option.map_eq_none_iff] at hnone
      exact hs.exist d' hd' hnone
  · intro d' j' x₁ i₁ x₂ i₂ h₁ h₂
    rcases h₁ with h₁ | ⟨hd, hj, hx₁, hi₁⟩
    · rcases h₂ with h₂ | ⟨hd, hj, -, -⟩
      · exact hs.functional _ _ _ _ _ _ h₁ h₂
      · subst hd hj
        exact absurd h₁ (h.free _ _)
    · rcases h₂ with h₂ | ⟨-, -, hx₂, hi₂⟩
      · subst hd hj
        exact absurd h₂ (h.free _ _)
      · exact ⟨hx₁.trans hx₂.symm, hi₁.trans hi₂.symm⟩
  · exact fun d' j₁ j₂ x' i₁ i₂ => h.distinct
  · intro d' hd'
    rcases h.linked_iff.mp hd' with hd' | ⟨rfl, hdir⟩
    · exact .inl (hs.self d' hd')
    · exact .inl (h.newborn hdir).self
  · intro d' hd'
    rcases h.linked_iff.mp hd' with hd' | ⟨rfl, hdir⟩
    · obtain ⟨e, he⟩ := hs.up d' hd'
      exact ⟨e, .inl he⟩
    · exact ⟨d, .inl (h.newborn hdir).up⟩
  · exact .inl hs.top
  · intro d' j' x' k hslot hzero
    have hold : H.links d' = some 0 := by
      rcases link_links_cases H d j x i d' with heq | heq
      · rwa [← heq]
      · rw [heq] at hzero
        obtain ⟨l, -, hl⟩ := Option.map_eq_some_iff.mp hzero
        exact absurd hl (Nat.succ_ne_zero l)
    rcases hslot with hslot | ⟨rfl, -, -, -⟩
    · exact hs.cleared d' j' x' k hslot hold
    · obtain ⟨-, l, hl, hne⟩ := h.linked
      rw [hl] at hold
      exact absurd (Option.some.inj hold) hne
  · intro d' j' x' k he hlinks
    have hnone : H.links k = none := by
      rcases link_links_cases H d j x i k with heq | heq
      · rwa [← heq]
      · rwa [heq, Option.map_eq_none_iff] at hlinks
    rcases h.entry_iff.mp he with he | ⟨-, -, -, rfl⟩ | ⟨hdir, rfl, hslot⟩
    · exact hs.target d' j' x' k he hnone
    · exact h.exist hnone
    · rcases (h.newborn hdir).only j' x' k hslot with ⟨-, -, rfl⟩ | ⟨-, -, rfl⟩
      · exact h.exist hnone
      · obtain ⟨-, l, hl, -⟩ := h.linked
        rw [hl] at hnone
        cases hnone
  · exact fun e l => h.count l
  · intro d' j' k hc hdir
    rcases h.child_iff.mp hc with hc | ⟨rfl, -, rfl⟩
    · exact .inl (hs.parent d' j' k hc hdir)
    · exact .inl (h.newborn hdir).up
  · intro d₁ j₁ d₂ j₂ k hc₁ hc₂ hdir
    have hnew : ∀ {e j'}, Child D H e j' i → ¬H.dir i :=
      fun hc hdir => h.not_linked (hs.child_linked hc hdir)
    rcases h.child_iff.mp hc₁ with h₁ | ⟨rfl, rfl, rfl⟩
    · rcases h.child_iff.mp hc₂ with h₂ | ⟨-, -, rfl⟩
      · exact hs.unique _ _ _ _ k h₁ h₂ hdir
      · exact absurd hdir (hnew h₁)
    · rcases h.child_iff.mp hc₂ with h₂ | ⟨rfl, rfl, -⟩
      · exact absurd hdir (hnew h₂)
      · exact ⟨rfl, rfl⟩
  · intro d' j' hc
    rcases h.child_iff.mp hc with hc | ⟨-, -, heq⟩
    · exact hs.notRoot d' j' hc
    · exact h.not_linked (heq ▸ hs.root)
  · intro d' hd'
    have hold : ∀ {e}, Reach D H e → Reach D (H.link d j x i) e :=
      fun hr => hr.mono fun _ _ _ hc => h.child_iff.mpr (.inl hc)
    rcases h.linked_iff.mp hd' with hd' | ⟨rfl, -⟩
    · exact hold (hs.reach d' hd')
    · exact (hold (hs.reach d h.linked)).child
        (h.child_iff.mpr (.inr ⟨rfl, rfl, rfl⟩))

end Link

/-! ## A name is removed -/

section Unlink

open Classical in
/-- Slot `j` of directory `d` no longer names `i`.  If this is a directory, its
name for its parent no longer counts. -/
noncomputable def unlink (H : Hierarchy I N) (d : I) (j : ℕ) (i : I) :
    Hierarchy I N where
  dir := H.dir
  slot d' j' x' i' := H.slot d' j' x' i' ∧ ¬(d' = d ∧ j' = j)
  links k := if k = i ∨ k = d ∧ H.dir i then (H.links k).map (· - 1)
    else H.links k

theorem unlink_links_self :
    (H.unlink d j i).links i = (H.links i).map (· - 1) :=
  if_pos (.inl rfl)

theorem unlink_links_parent (hdir : H.dir i) :
    (H.unlink d j i).links d = (H.links d).map (· - 1) :=
  if_pos (.inr ⟨rfl, hdir⟩)

theorem unlink_links_of_ne (hk : e ≠ i) (hk' : e = d → ¬H.dir i) :
    (H.unlink d j i).links e = H.links e := by
  refine if_neg ?_
  rintro (heq | ⟨heq, hdir⟩)
  · exact hk heq
  · exact hk' heq hdir

theorem unlink_links_eq_none :
    (H.unlink d j i).links e = none ↔ H.links e = none := by
  unfold unlink
  dsimp only
  split
  · exact Option.map_eq_none_iff
  · exact Iff.rfl

/-- Slot `j` of directory `d` names a file or an empty directory. -/
structure Removes (D : Dots I N) (H : Hierarchy I N) (d : I) (j : ℕ) (i : I) :
    Prop where
  sound : Sound D H
  child : Child D H d j i
  empty : H.dir i → ∀ j' k, ¬Child D H i j' k

namespace Removes

variable (h : Removes D H d j i)

include h

theorem ne : d ≠ i := by
  rintro rfl
  exact h.empty h.child.linked.1 j d h.child

/-- The slot names nothing else. -/
theorem eq {k : I} (hslot : H.slot d j x k) : Proper D x ∧ k = i := by
  obtain ⟨x', hx', hs⟩ := h.child.slot
  obtain ⟨rfl, rfl⟩ := h.sound.functional d j x k x' i hslot hs
  exact ⟨hx', rfl⟩

theorem named_dir (hdir : H.dir i) : named D H i = {(d, j)} :=
  h.sound.named_of_empty h.child hdir (h.empty hdir)

theorem links_dir (hdir : H.dir i) : H.links i = some 1 := by
  obtain ⟨x, hx, he⟩ := h.child
  obtain ⟨l, hl, -⟩ := h.sound.links_pos he hx.1
  have hcount := h.sound.count i l hl
  rw [h.named_dir hdir, Set.encard_singleton] at hcount
  rw [hl, Nat.cast_eq_one.mp hcount]

theorem dir_up (hdir : H.dir i) : H.slot i 1 D.up d :=
  h.sound.parent d j i h.child hdir

theorem mem_named_parent (hdir : H.dir i) : (i, 1) ∈ named D H d :=
  ⟨D.up, D.ne.symm, h.sound.child_linked h.child hdir, h.dir_up hdir⟩

/-- An empty directory names only itself and its parent. -/
theorem dir_entry {k : I} (hdir : H.dir i) (he : H.Entry i j' x k) :
    x = D.self ∨ x = D.up ∧ j' = 1 ∧ k = d := by
  by_cases hself : x = D.self
  · exact .inl hself
  by_cases hup : x = D.up
  · subst hup
    obtain rfl := h.sound.up_eq he
    have := h.sound.functional i 1 D.up k D.up d he.2 (h.dir_up hdir)
    exact .inr ⟨rfl, rfl, this.2⟩
  · exact absurd ⟨x, ⟨hself, hup⟩, he⟩ (h.empty hdir j' k)

/-- The parent of an empty directory has another link. -/
theorem two_le_links (hdir : H.dir i) : ∃ l, H.links d = some (l + 2) := by
  have hs := h.sound
  have hlinked := h.child.linked
  obtain ⟨hdird, l, hl, -⟩ := id hlinked
  have hother : ∃ a ∈ named D H d, a ≠ (i, 1) := by
    by_cases hroot : d = D.root
    · refine ⟨(d, 1), ?_, fun heq => h.ne (Prod.mk.inj heq).1⟩
      exact ⟨D.up, D.ne.symm, hlinked, by
        rw [hroot]
        exact hs.top⟩
    · obtain ⟨e, j', hc⟩ := hs.exists_child hlinked hroot
      refine ⟨(e, j'), hc.mem_named, fun heq => ?_⟩
      obtain ⟨rfl, -⟩ := Prod.mk.inj heq
      exact h.empty hdir j' d hc
  obtain ⟨a, ha, hne⟩ := hother
  have htwo : (2 : ℕ∞) ≤ (named D H d).encard := by
    rw [← Set.encard_pair hne]
    refine Set.encard_le_encard ?_
    rintro b (rfl | rfl)
    · exact ha
    · exact h.mem_named_parent hdir
  rw [← hs.count d l hl] at htwo
  have hle : 2 ≤ l := Nat.cast_le.mp htwo
  exact ⟨l - 2, by rw [hl, Nat.sub_add_cancel hle]⟩

theorem linked_iff : (H.unlink d j i).Linked e ↔
    H.Linked e ∧ ¬(e = i ∧ H.dir i) := by
  by_cases hi : e = i ∧ H.dir i
  · obtain ⟨rfl, hdir⟩ := hi
    refine iff_of_false ?_ fun hc => hc.2 ⟨rfl, hdir⟩
    rintro ⟨-, l, hl, hne⟩
    rw [unlink_links_self, h.links_dir hdir] at hl
    exact hne (Option.some.inj hl).symm
  rw [and_iff_left hi]
  by_cases hd : e = d ∧ H.dir i
  · obtain ⟨rfl, hdir⟩ := hd
    have hlinked := h.child.linked
    obtain ⟨l, hl⟩ := h.two_le_links hdir
    refine iff_of_true ⟨hlinked.1, l + 1, ?_, Nat.succ_ne_zero l⟩ hlinked
    rw [unlink_links_parent hdir, hl]
    rfl
  · by_cases hei : e = i
    · subst hei
      have hnot : ¬H.dir e := fun hdir => hi ⟨rfl, hdir⟩
      exact iff_of_false (fun hc => hnot hc.1) fun hc => hnot hc.1
    · rw [Linked, unlink_links_of_ne hei fun heq hdir => hd ⟨heq, hdir⟩]
      exact Iff.rfl

theorem entry_iff {k : I} : (H.unlink d j i).Entry d' j' x' k ↔
    H.Entry d' j' x' k ∧ ¬(d' = d ∧ j' = j) ∧ ¬(d' = i ∧ H.dir i) := by
  rw [Entry, h.linked_iff]
  constructor
  · rintro ⟨⟨hl, hi⟩, hs, hd⟩
    exact ⟨⟨hl, hs⟩, hd, hi⟩
  · rintro ⟨⟨hl, hs⟩, hd, hi⟩
    exact ⟨⟨hl, hi⟩, hs, hd⟩

theorem child_iff {k : I} : Child D (H.unlink d j i) d' j' k ↔
    Child D H d' j' k ∧ ¬(d' = d ∧ j' = j) := by
  constructor
  · rintro ⟨x', hx, he⟩
    obtain ⟨he, hd, -⟩ := h.entry_iff.mp he
    exact ⟨⟨x', hx, he⟩, hd⟩
  · rintro ⟨hc, hd⟩
    obtain ⟨x', hx, he⟩ := id hc
    refine ⟨x', hx, h.entry_iff.mpr ⟨he, hd, ?_⟩⟩
    rintro ⟨rfl, hdir⟩
    exact h.empty hdir j' k hc

/-- The file has one link less. -/
theorem named_self : named D (H.unlink d j i) i = named D H i \ {(d, j)} := by
  ext ⟨d', j'⟩
  rw [Set.mem_sdiff, Set.mem_singleton_iff, Prod.mk.injEq]
  constructor
  · rintro ⟨x', hx, he⟩
    obtain ⟨he, hd, -⟩ := h.entry_iff.mp he
    exact ⟨⟨x', hx, he⟩, hd⟩
  · rintro ⟨⟨x', hx, he⟩, hd⟩
    refine ⟨x', hx, h.entry_iff.mpr ⟨he, hd, ?_⟩⟩
    rintro ⟨rfl, hdir⟩
    rcases h.dir_entry hdir he with rfl | ⟨-, -, heq⟩
    · exact hx rfl
    · exact h.ne heq.symm

/-- So has the parent of a directory. -/
theorem named_parent (hdir : H.dir i) :
    named D (H.unlink d j i) d = named D H d \ {(i, 1)} := by
  ext ⟨d', j'⟩
  rw [Set.mem_sdiff, Set.mem_singleton_iff, Prod.mk.injEq]
  constructor
  · rintro ⟨x', hx, he⟩
    obtain ⟨he, -, hi⟩ := h.entry_iff.mp he
    exact ⟨⟨x', hx, he⟩, fun hc => hi ⟨hc.1, hdir⟩⟩
  · rintro ⟨⟨x', hx, he⟩, hi⟩
    refine ⟨x', hx, h.entry_iff.mpr ⟨he, ?_, ?_⟩⟩
    · rintro ⟨rfl, rfl⟩
      exact h.ne (h.eq he.2).2
    · rintro ⟨rfl, -⟩
      rcases h.dir_entry hdir he with rfl | ⟨-, rfl, -⟩
      · exact hx rfl
      · exact hi ⟨rfl, rfl⟩

theorem named_of_ne (hk : e ≠ i) (hk' : e = d → ¬H.dir i) :
    named D (H.unlink d j i) e = named D H e := by
  ext ⟨d', j'⟩
  refine exists_congr fun x' => and_congr_right fun hx => ?_
  rw [h.entry_iff]
  refine and_iff_left_of_imp fun he => ⟨?_, ?_⟩
  · rintro ⟨rfl, rfl⟩
    exact hk (h.eq he.2).2
  · rintro ⟨rfl, hdir⟩
    rcases h.dir_entry hdir he with rfl | ⟨-, -, heq⟩
    · exact hx rfl
    · exact hk' heq hdir

theorem count (l : ℕ) (hl : (H.unlink d j i).links e = some l) :
    (l : ℕ∞) = (named D (H.unlink d j i) e).encard := by
  have hcard : ∀ {a}, a ∈ named D H e → ∀ l', H.links e = some l' →
      ((l' - 1 : ℕ) : ℕ∞) = (named D H e \ {a}).encard := by
    intro a ha l' hl'
    rw [Set.encard_sdiff_singleton_of_mem ha, ← h.sound.count e l' hl']
    exact ENat.natCast_sub l' 1
  by_cases hk : e = i
  · subst hk
    rw [unlink_links_self] at hl
    obtain ⟨l', hl', rfl⟩ := Option.map_eq_some_iff.mp hl
    rw [h.named_self]
    exact hcard h.child.mem_named l' hl'
  by_cases hd : e = d ∧ H.dir i
  · obtain ⟨rfl, hdir⟩ := hd
    rw [unlink_links_parent hdir] at hl
    obtain ⟨l', hl', rfl⟩ := Option.map_eq_some_iff.mp hl
    rw [h.named_parent hdir]
    exact hcard (h.mem_named_parent hdir) l' hl'
  · have hd' : e = d → ¬H.dir i := fun heq hdir => hd ⟨heq, hdir⟩
    rw [unlink_links_of_ne hk hd'] at hl
    rw [h.named_of_ne hk hd']
    exact h.sound.count e l hl

theorem reach (hr : Reach D H e) (hl : H.Linked e)
    (hi : ¬(e = i ∧ H.dir i)) : Reach D (H.unlink d j i) e := by
  induction hr with
  | root => exact .root
  | @child d' j' e _ htail ih =>
      have hd' : ¬(d' = i ∧ H.dir i) := by
        rintro ⟨rfl, hdir⟩
        exact h.empty hdir j' e htail
      refine (ih htail.linked hd').child (h.child_iff.mpr ⟨htail, ?_⟩)
      rintro ⟨rfl, rfl⟩
      obtain ⟨x', -, hs⟩ := htail.slot
      obtain rfl := (h.eq hs).2
      exact hi ⟨rfl, hl.1⟩

end Removes

/-- Removing the name of a file or of an empty directory keeps the hierarchy
sound. -/
theorem Sound.unlink (h : Removes D H d j i) : Sound D (H.unlink d j i) := by
  have hs := h.sound
  have hdots : ∀ {d' j' x' k}, H.slot d' j' x' k → ¬Proper D x' →
      (H.unlink d j i).slot d' j' x' k := by
    intro d' j' x' k hslot hx
    refine ⟨hslot, ?_⟩
    rintro ⟨rfl, rfl⟩
    exact hx (h.eq hslot).1
  have hup : ¬Proper D D.up := fun hx => hx.2 rfl
  constructor
  · exact h.linked_iff.mpr ⟨hs.root, fun hc => hs.ne_root h.child hc.1.symm⟩
  · exact fun d' j' x' k hslot => hs.dir d' j' x' k hslot.1
  · exact fun d' hd' hnone =>
      hs.exist d' hd' (unlink_links_eq_none.mp hnone)
  · exact fun _ _ _ _ _ _ h₁ h₂ => hs.functional _ _ _ _ _ _ h₁.1 h₂.1
  · intro _ _ _ _ _ _ h₁ h₂
    exact hs.distinct _ _ _ _ _ _ (h.entry_iff.mp h₁).1 (h.entry_iff.mp h₂).1
  · intro d' hd'
    exact hdots (hs.self d' (h.linked_iff.mp hd').1) fun hx => hx.1 rfl
  · intro d' hd'
    obtain ⟨e, he⟩ := hs.up d' (h.linked_iff.mp hd').1
    exact ⟨e, hdots he hup⟩
  · exact hdots hs.top hup
  · intro d' j' x' k hslot hzero hx
    by_cases hl : H.Linked d'
    · by_cases hi : d' = i ∧ H.dir i
      · obtain ⟨rfl, hdir⟩ := hi
        exact h.empty hdir j' k ⟨x', hx, hl, hslot.1⟩
      · obtain ⟨-, l, hl', hne⟩ := h.linked_iff.mpr ⟨hl, hi⟩
        rw [hzero] at hl'
        exact hne (Option.some.inj hl').symm
    · have hdir := hs.dir d' j' x' k hslot.1
      have hsome : H.links d' ≠ none := by
        intro hnone
        rw [unlink_links_eq_none.mpr hnone] at hzero
        cases hzero
      obtain ⟨l, hl'⟩ := Option.ne_none_iff_exists'.mp hsome
      have hl0 : l = 0 := by
        by_contra hne
        exact hl ⟨hdir, l, hl', hne⟩
      rw [hl0] at hl'
      exact hs.cleared d' j' x' k hslot.1 hl' hx
  · intro d' j' x' k he
    rw [ne_eq, unlink_links_eq_none]
    exact hs.target d' j' x' k (h.entry_iff.mp he).1
  · exact fun e l => h.count l
  · intro d' j' k hc hdir
    exact hdots (hs.parent d' j' k (h.child_iff.mp hc).1 hdir) hup
  · intro d₁ j₁ d₂ j₂ k h₁ h₂
    exact hs.unique _ _ _ _ k (h.child_iff.mp h₁).1 (h.child_iff.mp h₂).1
  · exact fun d' j' hc => hs.notRoot d' j' (h.child_iff.mp hc).1
  · intro d' hd'
    obtain ⟨hl, hi⟩ := h.linked_iff.mp hd'
    exact h.reach (hs.reach d' hl) hl hi

end Unlink

/-! ## Files come and go -/

section Plant

open Classical in
/-- The file `i` is new, and has no links. -/
noncomputable def plant (H : Hierarchy I N) (i : I) (isDir : Prop)
    (slot : ℕ → N → I → Prop) : Hierarchy I N where
  dir k := if k = i then isDir else H.dir k
  slot k := if k = i then slot else H.slot k
  links k := if k = i then some 0 else H.links k

variable {isDir : Prop} {slot : ℕ → N → I → Prop}

theorem plant_links_self : (H.plant i isDir slot).links i = some 0 :=
  if_pos rfl

theorem plant_links_of_ne (hk : e ≠ i) :
    (H.plant i isDir slot).links e = H.links e :=
  if_neg hk

theorem plant_linked_iff (hi : H.links i = none) :
    (H.plant i isDir slot).Linked d ↔ H.Linked d := by
  by_cases hdi : d = i
  · subst hdi
    refine iff_of_false ?_ ?_
    · rintro ⟨-, l, hl, hne⟩
      have hzero : (H.plant d isDir slot).links d = some 0 := if_pos rfl
      rw [hzero] at hl
      exact hne (Option.some.inj hl).symm
    · rintro ⟨-, l, hl, -⟩
      rw [hi] at hl
      cases hl
  · simp only [Linked, plant, if_neg hdi]

theorem plant_entry_iff (hi : H.links i = none) {k : I} :
    (H.plant i isDir slot).Entry d j x k ↔ H.Entry d j x k := by
  rw [Entry, plant_linked_iff hi, Entry]
  refine and_congr_right fun hl => ?_
  have hdi : d ≠ i := by
    rintro rfl
    obtain ⟨-, l, hl, -⟩ := hl
    rw [hi] at hl
    cases hl
  simp only [plant, if_neg hdi]

theorem plant_child_iff (hi : H.links i = none) {k : I} :
    Child D (H.plant i isDir slot) d j k ↔ Child D H d j k :=
  exists_congr fun _ => and_congr_right fun _ => plant_entry_iff hi

/-- A new file, or a new directory with its two names, keeps the hierarchy
sound. -/
theorem Sound.plant (h : Sound D H) (hi : H.links i = none)
    (hdir : ∀ j x k, slot j x k → isDir ∧ ¬Proper D x)
    (hfun : ∀ j x k x' k', slot j x k → slot j x' k' → x = x' ∧ k = k') :
    Sound D (H.plant i isDir slot) := by
  have hold : ∀ {k}, k ≠ i → (H.plant i isDir slot).dir k = H.dir k ∧
      (H.plant i isDir slot).slot k = H.slot k ∧
        (H.plant i isDir slot).links k = H.links k := by
    intro k hk
    simp only [Hierarchy.plant, if_neg hk, and_self]
  have hnew : (H.plant i isDir slot).dir i = isDir ∧
      (H.plant i isDir slot).slot i = slot ∧
        (H.plant i isDir slot).links i = some 0 := by
    simp only [Hierarchy.plant, if_true, and_self]
  have hlinked : ∀ {k}, H.Linked k → k ≠ i := by
    rintro _ ⟨-, l, hl, -⟩ rfl
    rw [hi] at hl
    cases hl
  have hunnamed : ∀ {d j x}, ¬H.Entry d j x i :=
    fun he => h.target _ _ _ _ he hi
  constructor
  · exact (plant_linked_iff hi).mpr h.root
  · intro k j' x' e hslot
    by_cases hk : k = i
    · subst hk
      rw [hnew.2.1] at hslot
      rw [hnew.1]
      exact (hdir j' x' e hslot).1
    · rw [(hold hk).2.1] at hslot
      rw [(hold hk).1]
      exact h.dir k j' x' e hslot
  · intro k hk
    by_cases hki : k = i
    · subst hki
      rw [hnew.2.2]
      exact Option.some_ne_none 0
    · rw [(hold hki).1] at hk
      rw [(hold hki).2.2]
      exact h.exist k hk
  · intro k j' x₁ i₁ x₂ i₂ h₁ h₂
    by_cases hk : k = i
    · subst hk
      rw [hnew.2.1] at h₁ h₂
      exact hfun j' x₁ i₁ x₂ i₂ h₁ h₂
    · rw [(hold hk).2.1] at h₁ h₂
      exact h.functional k j' x₁ i₁ x₂ i₂ h₁ h₂
  · intro k j₁ j₂ x' i₁ i₂ h₁ h₂
    rw [plant_entry_iff hi] at h₁ h₂
    exact h.distinct k j₁ j₂ x' i₁ i₂ h₁ h₂
  · intro k hk
    rw [plant_linked_iff hi] at hk
    rw [(hold (hlinked hk)).2.1]
    exact h.self k hk
  · intro k hk
    rw [plant_linked_iff hi] at hk
    rw [(hold (hlinked hk)).2.1]
    exact h.up k hk
  · rw [(hold (hlinked h.root)).2.1]
    exact h.top
  · intro k j' x' e hslot hzero
    by_cases hk : k = i
    · subst hk
      rw [hnew.2.1] at hslot
      exact (hdir j' x' e hslot).2
    · rw [(hold hk).2.1] at hslot
      rw [(hold hk).2.2] at hzero
      exact h.cleared k j' x' e hslot hzero
  · intro k j' x' e he
    rw [plant_entry_iff hi] at he
    have hne : e ≠ i := by
      rintro rfl
      exact hunnamed he
    rw [(hold hne).2.2]
    exact h.target k j' x' e he
  · intro k l hl
    have hset : named D (H.plant i isDir slot) k = named D H k := by
      ext ⟨d', j'⟩
      exact exists_congr fun _ => and_congr_right fun _ => plant_entry_iff hi
    rw [hset]
    by_cases hk : k = i
    · subst hk
      rw [hnew.2.2] at hl
      obtain rfl := Option.some.inj hl
      have hempty : named D H k = ∅ :=
        Set.eq_empty_iff_forall_notMem.mpr fun _ ⟨_, _, he⟩ => hunnamed he
      rw [hempty, Set.encard_empty]
      rfl
    · rw [(hold hk).2.2] at hl
      exact h.count k l hl
  · intro k j' e hc he
    rw [plant_child_iff hi] at hc
    have hne : e ≠ i := by
      rintro rfl
      obtain ⟨x', -, hentry⟩ := hc
      exact hunnamed hentry
    rw [(hold hne).1] at he
    rw [(hold hne).2.1]
    exact h.parent k j' e hc he
  · intro d₁ j₁ d₂ j₂ e h₁ h₂ he
    rw [plant_child_iff hi] at h₁ h₂
    have hne : e ≠ i := by
      rintro rfl
      obtain ⟨x', -, hentry⟩ := h₁
      exact hunnamed hentry
    rw [(hold hne).1] at he
    exact h.unique d₁ j₁ d₂ j₂ e h₁ h₂ he
  · intro k j' hc
    rw [plant_child_iff hi] at hc
    exact h.notRoot k j' hc
  · intro k hk
    rw [plant_linked_iff hi] at hk
    exact (h.reach k hk).mono fun _ _ _ hc => (plant_child_iff hi).mpr hc

end Plant

section Sweep

variable {S : Set I}

open Classical in
/-- The files without links that are not in `S` are gone. -/
noncomputable def sweep (H : Hierarchy I N) (S : Set I) : Hierarchy I N where
  dir k := H.dir k ∧ (H.links k = some 0 → k ∈ S)
  slot k j x i := H.slot k j x i ∧ (H.links k = some 0 → k ∈ S)
  links k := if H.links k = some 0 ∧ k ∉ S then none else H.links k

/-- What stays has the links that it had. -/
theorem sweep_links (hd : H.links d ≠ some 0 ∨ d ∈ S) :
    (H.sweep S).links d = H.links d := by
  refine if_neg ?_
  rintro ⟨hzero, hnot⟩
  rcases hd with hd | hd
  · exact hd hzero
  · exact hnot hd

theorem sweep_links_some {l : ℕ} (hl : (H.sweep S).links d = some l) :
    H.links d = some l ∧ (l = 0 → d ∈ S) := by
  unfold sweep at hl
  dsimp only at hl
  split at hl
  · cases hl
  · next hc =>
      refine ⟨hl, ?_⟩
      rintro rfl
      by_contra hnot
      exact hc ⟨hl, hnot⟩

theorem Linked.ne_zero (h : H.Linked d) : H.links d ≠ some 0 := by
  obtain ⟨-, l, hl, hne⟩ := h
  rw [hl]
  exact fun heq => hne (Option.some.inj heq)

theorem sweep_linked_iff : (H.sweep S).Linked d ↔ H.Linked d := by
  constructor
  · rintro ⟨⟨hdir, -⟩, l, hl, hne⟩
    exact ⟨hdir, l, (sweep_links_some hl).1, hne⟩
  · intro h
    obtain ⟨hdir, l, hl, hne⟩ := id h
    refine ⟨⟨hdir, fun hzero => absurd hzero h.ne_zero⟩, l, ?_, hne⟩
    rw [sweep_links (.inl h.ne_zero), hl]

theorem sweep_entry_iff : (H.sweep S).Entry d j x i ↔ H.Entry d j x i := by
  rw [Entry, sweep_linked_iff, Entry]
  refine and_congr_right fun hl => ?_
  exact and_iff_left fun hzero => absurd hzero hl.ne_zero

theorem sweep_child_iff : Child D (H.sweep S) d j i ↔ Child D H d j i :=
  exists_congr fun _ => and_congr_right fun _ => sweep_entry_iff

/-- Removing what has no links keeps the hierarchy sound. -/
theorem Sound.sweep (h : Sound D H) : Sound D (H.sweep S) := by
  have hslot : ∀ {d j x i}, H.Linked d → H.slot d j x i →
      (H.sweep S).slot d j x i :=
    fun hl hs => ⟨hs, fun hzero => absurd hzero hl.ne_zero⟩
  constructor
  · exact sweep_linked_iff.mpr h.root
  · exact fun d j x i hs => ⟨h.dir d j x i hs.1, hs.2⟩
  · rintro d ⟨hdir, hkept⟩
    have hd : H.links d ≠ some 0 ∨ d ∈ S :=
      or_iff_not_imp_left.mpr fun hzero => hkept (not_not.mp hzero)
    rw [sweep_links hd]
    exact h.exist d hdir
  · exact fun _ _ _ _ _ _ h₁ h₂ => h.functional _ _ _ _ _ _ h₁.1 h₂.1
  · intro _ _ _ _ _ _ h₁ h₂
    rw [sweep_entry_iff] at h₁ h₂
    exact h.distinct _ _ _ _ _ _ h₁ h₂
  · intro d hd
    rw [sweep_linked_iff] at hd
    exact hslot hd (h.self d hd)
  · intro d hd
    rw [sweep_linked_iff] at hd
    obtain ⟨e, he⟩ := h.up d hd
    exact ⟨e, hslot hd he⟩
  · exact hslot h.root h.top
  · intro d j x i hs hzero
    exact h.cleared d j x i hs.1 (sweep_links_some hzero).1
  · intro d j x i he
    rw [sweep_entry_iff] at he
    have hne : H.links i ≠ some 0 := by
      by_cases hx : x = D.self
      · subst hx
        obtain rfl := h.self_eq he
        exact he.1.ne_zero
      · obtain ⟨l, hl, hl0⟩ := h.links_pos he hx
        rw [hl]
        exact fun heq => hl0 (Option.some.inj heq)
    rw [sweep_links (.inl hne)]
    exact h.target d j x i he
  · intro i l hl
    have hset : named D (H.sweep S) i = named D H i := by
      ext ⟨d, j⟩
      exact exists_congr fun _ => and_congr_right fun _ => sweep_entry_iff
    rw [hset]
    exact h.count i l (sweep_links_some hl).1
  · intro d j i hc hdir
    rw [sweep_child_iff] at hc
    exact hslot (h.child_linked hc hdir.1) (h.parent d j i hc hdir.1)
  · intro d j d' j' i h₁ h₂ hdir
    rw [sweep_child_iff] at h₁ h₂
    exact h.unique d j d' j' i h₁ h₂ hdir.1
  · intro d j hc
    rw [sweep_child_iff] at hc
    exact h.notRoot d j hc
  · intro d hd
    rw [sweep_linked_iff] at hd
    exact (h.reach d hd).mono fun _ _ _ hc => sweep_child_iff.mpr hc

end Sweep

end Hierarchy

end ZtlOs.Support
