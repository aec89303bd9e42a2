import Mathlib.Data.List.Perm.Subperm
import ZtlOs.User.FreeList

/-!
# malloc and free

The units that `sbrk` has provided are those of the free and of the live blocks.
`free` and `malloc` only move them between the two.
-/

namespace ZtlOs.Umalloc

open ZtlOs.Support ZtlOs.Support.Extent

/-- What calls of `sbrk` with less than `L` bytes have returned. -/
def granted (L : ℕ) (calls : List Call) : List Block :=
  calls.filterMap fun c =>
    if c.1 < L then c.2.map fun p => (p, c.1 / 8) else none

/-- The heap has the free blocks `free` and the live blocks `live`. -/
structure Shape (L base : ℕ) (s : Heap) (free live : List Block) : Prop where
  base_pos : 0 < base
  base_lt : base < 2 ^ 32
  ring : InMemory s.mem ((base, 0) :: free) base
  freep : s.freep ∈ ((base, 0) :: free).map Prod.fst
  sorted : Sorted ((base, 0) :: free)
  sizes : ∀ b ∈ live, (s.mem b.1).size = b.2
  pos : ∀ b ∈ free ++ live, 0 < b.2
  covers : ((free ++ live).flatMap (cells 8)).Perm
    ((granted L s.calls).flatMap (cells 8))
  spaced : Spaced 8 (granted L s.calls)
  bounds : ∀ x ∈ (granted L s.calls).flatMap (cells 8),
    base + 8 ≤ x ∧ x + 8 < 2 ^ 32

section Shape

variable {L base : ℕ} {s s' : Heap} {free live : List Block} {b c : Block}

theorem Sorted.length_le {l : List Block} {N : ℕ} (h : Sorted l)
    (hl : ∀ x ∈ l, x.1 < N) : l.length ≤ N := by
  have hnodup : (l.map Prod.fst).Nodup := by
    rw [List.Nodup, List.pairwise_map]
    apply h.imp
    intro x y hxy heq
    rw [stop] at hxy
    omega
  have hsub : l.map Prod.fst ⊆ List.range N := by
    intro a ha
    obtain ⟨x, hx, rfl⟩ := List.mem_map.mp ha
    exact List.mem_range.mpr (hl x hx)
  simpa using (List.subperm_of_subset hnodup hsub).length_le

namespace Shape

variable (h : Shape L base s free live)
include h

theorem spaced_blocks : Spaced 8 (free ++ live) :=
  h.spaced.perm h.covers

theorem pairwise : (free ++ live).Pairwise fun b c =>
    stop 8 b ≤ c.1 ∨ stop 8 c ≤ b.1 :=
  h.spaced_blocks.pairwise (by decide) h.pos

theorem apart (hb : b ∈ free ++ live) (hc : c ∈ free ++ live) (hne : b ≠ c) :
    stop 8 b ≤ c.1 ∨ stop 8 c ≤ b.1 :=
  h.spaced_blocks.apart (by decide) h.pos hb hc hne

theorem block_bounds (hb : b ∈ free ++ live) :
    base + 8 ≤ b.1 ∧ stop 8 b < 2 ^ 32 := by
  have hcells : ∀ x ∈ cells 8 b, base + 8 ≤ x ∧ x + 8 ≤ 2 ^ 32 - 1 := by
    intro x hx
    have := h.bounds x
      (h.covers.mem_iff.mp (List.mem_flatMap.mpr ⟨b, hb, hx⟩))
    omega
  have := Extent.bounds (h.pos b hb) hcells
  omega

theorem freep_pos : 0 < s.freep := by
  obtain ⟨b, hb, heq⟩ := List.mem_map.mp h.freep
  rw [← heq]
  rcases List.mem_cons.mp hb with rfl | hb
  · exact h.base_pos
  · have := h.block_bounds (List.mem_append_left live hb)
    omega

/-- A call of `sbrk` that fails. -/
theorem failed {k : ℕ} :
    Shape L base { s with calls := (k, none) :: s.calls } free live := by
  have hgrant : granted L ((k, none) :: s.calls) = granted L s.calls := by
    simp [granted]
  exact
    { h with
      covers := hgrant ▸ h.covers
      spaced := hgrant ▸ h.spaced
      bounds := hgrant ▸ h.bounds }

/-- The live blocks are a set. -/
theorem perm {live' : List Block} (hperm : live'.Perm live) :
    Shape L base s free live' where
  base_pos := h.base_pos
  base_lt := h.base_lt
  ring := h.ring
  freep := h.freep
  sorted := h.sorted
  sizes := fun b hb => h.sizes b (hperm.mem_iff.mp hb)
  pos := fun b hb => h.pos b ((hperm.append_left free).mem_iff.mp hb)
  covers := ((hperm.append_left free).flatMap_right _).trans h.covers
  spaced := h.spaced
  bounds := h.bounds

end Shape

/-- The header of a live block is not one of the ring. -/
theorem Shape.fst_ne (h : Shape L base s free live)
    (hb : b ∈ (base, 0) :: free) (hc : c ∈ live) : b.1 ≠ c.1 := by
  have hbounds := h.block_bounds (List.mem_append_right free hc)
  rcases List.mem_cons.mp hb with rfl | hb
  · dsimp only
    omega
  · have hpair := (List.pairwise_append.mp h.pairwise).2.2 b hb c hc
    have hbpos := h.pos b (List.mem_append_left live hb)
    have hcpos := h.pos c (List.mem_append_right free hc)
    simp only [stop] at hpair
    omega

/-- The free blocks lie before or behind a live block. -/
theorem Shape.beside (h : Shape L base s free (b :: live)) :
    ∀ x ∈ (base, 0) :: free, stop 8 x ≤ b.1 ∨ stop 8 b ≤ x.1 := by
  have hb := h.block_bounds (b := b) (by simp)
  rw [List.forall_mem_cons]
  constructor
  · left
    rw [stop]
    omega
  · intro x hx
    have hpair := List.pairwise_append.mp h.pairwise
    exact hpair.2.2 x hx b List.mem_cons_self

/-- A live block has its place in the ring. -/
theorem Shape.between (h : Shape L base s free (b :: live)) :
    ∃ l₁ p l₂, (base, 0) :: free = l₁ ++ p :: l₂ ∧
      Between base b p l₁ l₂ := by
  have hb := h.block_bounds (b := b) (by simp)
  have hpos := h.pos b (by simp)
  obtain ⟨low, high, hsplit, hlow, hhigh⟩ := h.sorted.split h.beside
  rcases List.eq_nil_or_concat low with rfl | ⟨l₁, p, rfl⟩
  · have hbase : (base, 0) ∈ high := by
      rw [List.nil_append] at hsplit
      rw [← hsplit]
      exact List.mem_cons_self
    have hle := hhigh _ hbase
    rw [stop] at hle
    omega
  · have hring : (base, 0) :: free = l₁ ++ p :: high := by
      simpa using hsplit
    refine ⟨l₁, p, high, hring, ?_⟩
    have hplace : stop 8 p ≤ b.1 := hlow p (by simp)
    constructor
    · omega
    · rw [← hring]
      exact h.sorted
    · exact fun x hx => hlow x (by simp [hx])
    · exact hplace
    · have hp : p ∈ (base, 0) :: free := by simp [hring]
      rcases List.mem_cons.mp hp with rfl | hp
      · dsimp only
        omega
      · have := h.pos p (List.mem_append_left _ hp)
        rw [stop] at hplace
        omega
    · exact hhigh
    · exact hpos

theorem free_eq {n ap bp p : ℕ} (hbp : headerOf ap = bp)
    (hp : findPlace s.mem bp n s.freep = some p) :
    Umalloc.free n s ap = some { s with
      mem := joinLower (joinUpper s.mem bp p) bp p
      freep := p } := by
  simp only [Umalloc.free, hbp, hp]

theorem headerOf_add {a : ℕ} (h : a < 2 ^ 32) : headerOf (a + 8) = a := by
  rw [headerOf]
  omega

/-- `free` makes a live block a part of the free blocks. -/
theorem Shape.freed (h : Shape L base s free (b :: live)) {n : ℕ}
    (hn : 2 ^ 32 ≤ n) :
    ∃ s' free', Umalloc.free n s (b.1 + 8) = some s' ∧
      Shape L base s' free' live ∧ s'.calls = s.calls ∧
      ∃ d ∈ free', b.2 ≤ d.2 := by
  obtain ⟨l₁, p, l₂, hsplit, hbetween⟩ := h.between
  have hring := h.ring
  have hfreep := h.freep
  have hsorted := h.sorted
  have hbase := h.base_lt
  have hb := h.block_bounds (b := b) (by simp)
  have hblocks : ∀ x ∈ (base, 0) :: free, stop 8 x < 2 ^ 32 := by
    rw [List.forall_mem_cons]
    exact ⟨hbase, fun x hx => (h.block_bounds (by simp [hx])).2⟩
  have haddr : ∀ x ∈ (base, 0) :: free, x.1 < 2 ^ 32 := by
    intro x hx
    have := hblocks x hx
    rw [stop] at this
    omega
  have hlow : ∀ x ∈ (base, 0) :: free, base ≤ x.1 := by
    rw [List.forall_mem_cons]
    refine ⟨le_rfl, fun x hx => ?_⟩
    have := h.block_bounds (b := x) (by simp [hx])
    omega
  have hlen := hsorted.length_le haddr
  have hpos : ∀ x ∈ (base, 0) :: free, x = (base, 0) ∨ 0 < x.2 := by
    intro x hx
    rcases List.mem_cons.mp hx with rfl | hx
    · exact .inl rfl
    · exact .inr (h.pos x (by simp [hx]))
  have hfirst : first (l₁ ++ p :: l₂) base = base := by
    rw [← hsplit]
    rfl
  rw [hsplit] at hring hfreep hsorted hblocks hlow hlen hpos
  obtain ⟨c, l, hupper, hjoined⟩ := hbetween.joinUpper hring
    (h.sizes b List.mem_cons_self) hb.2 fun y hy => hblocks y (by simp [hy])
  have hc : stop 8 c < 2 ^ 32 := by
    obtain ⟨q, hq, heq⟩ := hjoined.stop_eq
    rw [heq]
    rcases List.mem_cons.mp hq with rfl | hq
    · exact hb.2
    · exact hblocks q (by simp [hq])
  obtain ⟨ms, hins⟩ := hbetween.joinLower hring hjoined hc
  -- `base` is still the first block of the ring.
  obtain ⟨free', hfree'⟩ : ∃ free', l₁ ++ ms = (base, 0) :: free' := by
    cases l₁ with
    | nil =>
        obtain ⟨rfl, -⟩ := List.cons.inj hsplit
        obtain ⟨m, rfl⟩ := hins.head (by
          rw [stop]
          omega)
        exact ⟨m, rfl⟩
    | cons x l₁ =>
        obtain ⟨rfl, -⟩ := List.cons.inj hsplit
        exact ⟨l₁ ++ ms, rfl⟩
  have hplace : findPlace s.mem b.1 n s.freep = some p.1 :=
    hbetween.findPlace_eq hring hfirst (hlow p (by simp)) hfreep (hlen.trans hn)
  have hheader : headerOf (b.1 + 8) = b.1 := headerOf_add (by
    have := hb.2
    rw [stop] at this
    omega)
  rw [← hupper] at hins
  refine ⟨_, free', free_eq hheader hplace, ?_, rfl, ?_⟩
  · have hsorted' : Sorted ((base, 0) :: free') := hfree' ▸ hins.sorted
    constructor
    · exact h.base_pos
    · exact hbase
    · exact hfree' ▸ hins.ring
    · rw [← hfree', List.map_append]
      exact List.mem_append_right _ hins.fst_mem
    · exact hsorted'
    · -- The headers of the other live blocks have not changed.
      intro x hx
      have hxp : x.1 ≠ p.1 := by
        have hp : p ∈ (base, 0) :: free := by simp [hsplit]
        exact (h.fst_ne hp (List.mem_cons_of_mem b hx)).symm
      have hne : x.1 ≠ b.1 := by
        have hxb := (List.pairwise_cons.mp
          (List.pairwise_append.mp h.pairwise).2.1).1 x hx
        have hxpos := h.pos x (by simp [hx])
        have hbpos := hbetween.pos
        simp only [stop] at hxb
        omega
      have hsame := hins.frame x.1 hne hxp
      dsimp only
      rw [hsame]
      exact h.sizes x (List.mem_cons_of_mem b hx)
    · intro d hd
      rcases List.mem_append.mp hd with hd | hd
      · have hbehind := (List.pairwise_cons.mp hsorted').1 d hd
        have hd' : d ∈ l₁ ++ ms := by
          rw [hfree']
          exact List.mem_cons_of_mem _ hd
        have hne : d ≠ (base, 0) := by
          rintro rfl
          rw [stop] at hbehind
          omega
        have hpos₂ : ∀ y ∈ l₂, 0 < y.2 := by
          intro y hy
          have hlt := hsorted.lt hy
          have hle := hlow p (by simp)
          refine (hpos y (by simp [hy])).resolve_left ?_
          rintro rfl
          omega
        rcases List.mem_append.mp hd' with hd' | hd'
        · exact (hpos d (by simp [hd'])).resolve_left hne
        · rcases hins.pos hpos₂ d hd' with rfl | hd'
          · exact (hpos d (by simp)).resolve_left hne
          · exact hd'
      · exact h.pos d (by simp [hd])
    · have hold : ((base, 0) :: free).flatMap (cells 8) =
          (l₁ ++ p :: l₂).flatMap (cells 8) := by rw [hsplit]
      have hnew : ((base, 0) :: free').flatMap (cells 8) =
          (l₁ ++ ms).flatMap (cells 8) := by rw [hfree']
      refine List.Perm.trans ?_ h.covers
      rw [List.perm_iff_count]
      intro x
      have hold' := congrArg (List.count x) hold
      have hnew' := congrArg (List.count x) hnew
      have hx := hins.covers x
      simp only [List.flatMap_append, List.flatMap_cons, List.count_append,
        cells_zero, List.count_nil] at hold' hnew' hx ⊢
      omega
    · exact h.spaced
    · exact h.bounds
  · obtain ⟨d, hd, hle⟩ := hins.big
    have hd' : d ∈ (base, 0) :: free' := by
      rw [← hfree']
      exact List.mem_append_right _ hd
    rcases List.mem_cons.mp hd' with rfl | hd'
    · have := hbetween.pos
      dsimp only at hle
      omega
    · exact ⟨d, hd', hle⟩

end Shape

/-! ## morecore -/

/-- What `sbrk` promises for less than `L` bytes: it fails, or the bytes lie
behind `base` and behind everything that it has returned before. -/
def Fresh (L base : ℕ) (sbrk : List Call → ℕ → Option ℕ) : Prop :=
  ∀ calls k p, sbrk calls k = some p → k < L →
    base + 8 ≤ p ∧ p + k < 2 ^ 32 ∧ ∀ c ∈ granted L calls, stop 8 c ≤ p

section Morecore

variable {L base : ℕ} {s : Heap} {free live : List Block}
variable {sbrk : List Call → ℕ → Option ℕ}

/-- A new block behind all others. -/
theorem Shape.grow (h : Shape L base s free live) (hsbrk : Fresh L base sbrk)
    {nu p : ℕ} (hnu : 0 < nu) (hL : nu * 8 < L)
    (hp : sbrk s.calls (nu * 8) = some p) :
    Shape L base { s with
      mem := s.mem.setSize p nu
      calls := (nu * 8, some p) :: s.calls } free ((p, nu) :: live) := by
  obtain ⟨hbase, hend, hbehind⟩ := hsbrk _ _ _ hp hL
  have hgrant : granted L ((nu * 8, some p) :: s.calls) =
      (p, nu) :: granted L s.calls := by
    simp [granted, hL]
  have hlt : ∀ b ∈ free ++ live, b.1 < p := by
    intro b hb
    have hcell : b.1 ∈ (granted L s.calls).flatMap (cells 8) :=
      h.covers.mem_iff.mp
        (List.mem_flatMap.mpr ⟨b, hb, fst_mem_cells (h.pos b hb)⟩)
    obtain ⟨c, hc, hmem⟩ := List.mem_flatMap.mp hcell
    obtain ⟨i, hi, heq⟩ := mem_cells.mp hmem
    have := hbehind c hc
    rw [stop] at this
    omega
  have hkeep : ∀ a, a < p → s.mem.setSize p nu a = s.mem a := fun a ha =>
    Function.update_of_ne ha.ne ..
  constructor
  · exact h.base_pos
  · exact h.base_lt
  · apply h.ring.congr
    rw [List.forall_mem_cons]
    constructor
    · dsimp only
      rw [hkeep base (by omega)]
      exact ⟨rfl, rfl⟩
    · intro b hb
      dsimp only
      rw [hkeep b.1 (hlt b (by simp [hb]))]
      exact ⟨rfl, rfl⟩
  · exact h.freep
  · exact h.sorted
  · rw [List.forall_mem_cons]
    constructor
    · simp [Mem.setSize]
    · intro b hb
      dsimp only
      rw [hkeep b.1 (hlt b (by simp [hb]))]
      exact h.sizes b hb
  · intro b hb
    simp only [List.mem_append, List.mem_cons] at hb
    rcases hb with hb | rfl | hb
    · exact h.pos b (by simp [hb])
    · exact hnu
    · exact h.pos b (by simp [hb])
  · rw [hgrant]
    exact (List.perm_middle.flatMap_right _).trans (h.covers.append_left _)
  · rw [hgrant]
    exact h.spaced.cons hbehind
  · rw [hgrant]
    intro x hx
    rw [List.flatMap_cons, List.mem_append] at hx
    rcases hx with hx | hx
    · obtain ⟨i, hi, rfl⟩ := mem_cells.mp hx
      dsimp only at hi ⊢
      omega
    · exact h.bounds x hx

/-- `morecore` fails if `sbrk` does, or makes a block of the size free. -/
theorem Shape.morecore (h : Shape L base s free live)
    (hsbrk : Fresh L base sbrk) (hL : L ≤ 2 ^ 32) {n nu : ℕ} (hn : 2 ^ 32 ≤ n)
    (hask : sbrk s.calls (max nu 4096 * 8 % 2 ^ 32) = none ∨
      max nu 4096 * 8 < L) :
    (sbrk s.calls (max nu 4096 * 8 % 2 ^ 32) = none ∧
      Umalloc.morecore sbrk n s nu = some (0, { s with
        calls := (max nu 4096 * 8 % 2 ^ 32, none) :: s.calls })) ∨
      sbrk s.calls (max nu 4096 * 8 % 2 ^ 32) ≠ none ∧
      ∃ s' free', Umalloc.morecore sbrk n s nu = some (s'.freep, s') ∧
        Shape L base s' free' live ∧ ∃ d ∈ free', nu ≤ d.2 := by
  have hmax : (if nu < 4096 then 4096 else nu) = max nu 4096 := by
    split <;> omega
  cases hp : sbrk s.calls (max nu 4096 * 8 % 2 ^ 32) with
  | none =>
      left
      refine ⟨rfl, ?_⟩
      simp only [Umalloc.morecore, hmax, hp]
  | some p =>
      right
      have hlt : max nu 4096 * 8 < L :=
        hask.resolve_left (hp ▸ Option.some_ne_none p)
      have hmod : max nu 4096 * 8 % 2 ^ 32 = max nu 4096 * 8 :=
        Nat.mod_eq_of_lt (hlt.trans_le hL)
      rw [hmod] at hp
      have hend := (hsbrk _ _ _ hp hlt).2.1
      have hoffset : offset p 1 = p + 8 := by
        rw [offset]
        omega
      obtain ⟨s', free', hfree, hshape, -, d, hd, hle⟩ :=
        (h.grow hsbrk (by omega) hlt hp).freed hn
      refine ⟨Option.some_ne_none p, s', free', ?_, hshape, d, hd, ?_⟩
      · simp only [Umalloc.morecore, hmax, hmod, hp, hoffset, hfree]
      · dsimp only at hle
        omega

end Morecore

/-! ## Taking a block -/

section Take

variable {L base n : ℕ} {s : Heap} {free live : List Block} {P b c d : Block}
variable {l m : List Block}

/-- A shorter block takes the place of a block. -/
theorem Sorted.shrink (h : Sorted (l ++ c :: m)) (hfst : d.1 = c.1)
    (hstop : stop 8 d ≤ stop 8 c) : Sorted (l ++ d :: m) := by
  rw [Sorted, List.pairwise_append, List.pairwise_cons] at h ⊢
  obtain ⟨hl, ⟨hc, hm⟩, hcross⟩ := h
  refine ⟨hl, ⟨fun y hy => lt_of_le_of_lt hstop (hc y hy), hm⟩, ?_⟩
  intro x hx y hy
  rcases List.mem_cons.mp hy with rfl | hy
  · rw [hfst]
    exact hcross x hx c List.mem_cons_self
  · exact hcross x hx y (List.mem_cons_of_mem c hy)

/-- The heap after a block has been taken: `ds` is what stays free of it. -/
theorem Shape.of_taken (h : Shape L base s free live)
    (hsplit : (base, 0) :: free = l ++ P :: c :: m) {mem : Mem} {t : Block}
    (ds : List Block) (hring : InMemory mem (l ++ P :: (ds ++ m)) base)
    (hsorted : Sorted (l ++ P :: (ds ++ m))) (hds : ∀ d ∈ ds, 0 < d.2)
    (hsizes : ∀ b ∈ live, mem b.1 = s.mem b.1) (ht : 0 < t.2)
    (htsize : (mem t.1).size = t.2)
    (hcells : cells 8 c = ds.flatMap (cells 8) ++ cells 8 t) :
    ∃ free', Shape L base { s with mem := mem, freep := P.1 } free'
      (t :: live) := by
  obtain ⟨free', hfree', hsub⟩ : ∃ free',
      l ++ P :: (ds ++ m) = (base, 0) :: free' ∧
        ∀ d ∈ free', d ∈ ds ∨ d ∈ free := by
    cases l with
    | nil =>
        obtain ⟨rfl, rfl⟩ := List.cons.inj hsplit
        refine ⟨ds ++ m, rfl, fun d hd => ?_⟩
        rw [List.mem_append] at hd
        exact hd.imp_right (List.mem_cons_of_mem c)
    | cons x l =>
        rw [List.cons_append, List.cons.injEq] at hsplit
        obtain ⟨rfl, rfl⟩ := hsplit
        refine ⟨l ++ P :: (ds ++ m), rfl, fun d hd => ?_⟩
        simp only [List.mem_append, List.mem_cons] at hd ⊢
        tauto
  refine ⟨free', ?_⟩
  constructor
  · exact h.base_pos
  · exact h.base_lt
  · rw [← hfree']
    exact hring
  · rw [← hfree']
    simp
  · rw [← hfree']
    exact hsorted
  · rw [List.forall_mem_cons]
    refine ⟨htsize, fun b hb => ?_⟩
    dsimp only
    rw [hsizes b hb]
    exact h.sizes b hb
  · intro b hb
    simp only [List.mem_append, List.mem_cons] at hb
    rcases hb with hb | rfl | hb
    · rcases hsub b hb with hb | hb
      · exact hds b hb
      · exact h.pos b (by simp [hb])
    · exact ht
    · exact h.pos b (by simp [hb])
  · refine List.Perm.trans ?_ h.covers
    rw [List.perm_iff_count]
    intro x
    have hold := congrArg (fun r => List.count x (r.flatMap (cells 8))) hsplit
    have hnew := congrArg (fun r => List.count x (r.flatMap (cells 8))) hfree'
    have hc := congrArg (List.count x) hcells
    simp only [List.flatMap_append, List.flatMap_cons, List.count_append,
      cells_zero, List.count_nil] at hold hnew hc ⊢
    omega
  · exact h.spaced
  · exact h.bounds

/-- The block behind another one of the ring is free. -/
theorem mem_of_split (hsplit : (base, 0) :: free = l ++ P :: c :: m) :
    c ∈ free := by
  cases l with
  | nil =>
      rw [(List.cons.inj hsplit).2]
      exact List.mem_cons_self
  | cons x l =>
      rw [(List.cons.inj hsplit).2]
      simp

/-- `malloc` takes the block `c`, or its tail, which it makes live. -/
theorem Shape.take (h : Shape L base s free live)
    (hsplit : (base, 0) :: free = l ++ P :: c :: m) (hn : 0 < n) (hc : n ≤ c.2) :
    ∃ s' free' t, Umalloc.take s n P.1 c.1 = (t.1 + 8, s') ∧ t.2 = n ∧
      s'.calls = s.calls ∧ Shape L base s' free' (t :: live) := by
  have hring := h.ring
  have hsorted := h.sorted
  have hfree : ∀ x ∈ (base, 0) :: free, ∀ b ∈ live, b.1 ≠ x.1 :=
    fun x hx b hb => (h.fst_ne hx hb).symm
  rw [hsplit] at hring hsorted hfree
  have hcfree := mem_of_split hsplit
  have hbounds := h.block_bounds (List.mem_append_left live hcfree)
  obtain ⟨hring₁, hPptr, hPsize, hcptr, hcsize, hring₂⟩ :=
    Threaded.append_iff.mp hring
  have hptr : (s.mem c.1).ptr = first m base := hcptr
  have hsize : (s.mem c.1).size = c.2 := hcsize
  have hPc : P.1 < c.1 := hsorted.lt List.mem_cons_self
  -- The other nodes of the ring lie before or behind the block.
  have hlow : ∀ x ∈ l, x.1 < P.1 := by
    intro x hx
    have hxP := (List.pairwise_append.mp hsorted).2.2 x hx P List.mem_cons_self
    rw [stop] at hxP
    omega
  have hhigh : ∀ y ∈ m, stop 8 c < y.1 := (List.pairwise_cons.mp
    (List.pairwise_cons.mp (List.pairwise_append.mp hsorted).2.1).2).1
  rw [stop] at hbounds
  by_cases hexact : c.2 = n
  · have hmem : s.mem.setPtr P.1 (s.mem c.1).ptr =
        Function.update s.mem P.1 ⟨first m base, P.2⟩ := by
      rw [setPtr_eq, hptr, show (s.mem P.1).size = P.2 from hPsize]
    have hring' : InMemory (Function.update s.mem P.1 ⟨first m base, P.2⟩)
        (l ++ P :: m) base := by
      apply InMemory.set hring₁ hring₂
      intro x hx
      rcases List.mem_append.mp hx with hx | hx
      · exact (hlow x hx).ne
      · have := hhigh x hx
        rw [stop] at this
        omega
    obtain ⟨free', hshape⟩ := h.of_taken hsplit [] (t := c) hring'
      (hsorted.sublist (by simp)) (by simp)
      (fun b hb => Function.update_of_ne (hfree P (by simp) b hb) ..)
      (by omega) (by rw [Function.update_of_ne hPc.ne', hsize]) (by simp)
    have hoffset : offset c.1 1 = c.1 + 8 := by
      rw [offset]
      omega
    refine ⟨_, free', c, ?_, hexact, ?_, hshape⟩
    · rw [Umalloc.take, if_pos (hsize.trans hexact), hmem, hoffset]
    · rfl
  · have hmem : s.mem.setSize c.1 (c.2 - n) =
        Function.update s.mem c.1 ⟨first m base, c.2 - n⟩ := by
      simp only [Mem.setSize, hptr]
    have hself : (Function.update s.mem c.1 ⟨first m base, c.2 - n⟩ c.1).size =
        c.2 - n := by
      rw [Function.update_self]
    have htail : offset c.1 (c.2 - n) = c.1 + 8 * (c.2 - n) := by
      rw [offset]
      omega
    have hoffset : offset (c.1 + 8 * (c.2 - n)) 1 = c.1 + 8 * (c.2 - n) + 8 := by
      rw [offset]
      omega
    have hrun : Umalloc.take s n P.1 c.1 = (c.1 + 8 * (c.2 - n) + 8, { s with
        mem := Mem.setSize (Function.update s.mem c.1 ⟨first m base, c.2 - n⟩)
          (c.1 + 8 * (c.2 - n)) n
        freep := P.1 }) := by
      rw [Umalloc.take, if_neg (by rwa [hsize])]
      simp only [hsize, hmem, hself, htail, hoffset]
    -- The header of the tail is a new one.
    have hring' : InMemory (Mem.setSize (Function.update s.mem c.1
        ⟨first m base, c.2 - n⟩) (c.1 + 8 * (c.2 - n)) n)
        (l ++ [P] ++ (c.1, c.2 - n) :: m) base := by
      apply InMemory.frame
      · apply InMemory.set (b := (c.1, c.2 - n)) _ hring₂
        · intro x hx
          simp only [List.mem_append, List.mem_singleton] at hx
          rcases hx with (hx | rfl) | hx
          · exact ((hlow x hx).trans hPc).ne
          · exact hPc.ne
          · have := hhigh x hx
            rw [stop] at this
            dsimp only
            omega
        · rw [InMemory, Threaded.append_iff]
          exact ⟨hring₁, hPptr, hPsize, trivial⟩
      · intro x hx
        simp only [List.mem_append, List.mem_cons, List.not_mem_nil,
          or_false] at hx
        rcases hx with (hx | rfl) | rfl | hx
        · have := hlow x hx
          omega
        · omega
        · dsimp only
          omega
        · have := hhigh x hx
          rw [stop] at this
          omega
    have hsorted' : Sorted (l ++ [P] ++ (c.1, c.2 - n) :: m) := by
      have hlast : Sorted (l ++ [P] ++ c :: m) := by simpa using hsorted
      apply hlast.shrink (d := (c.1, c.2 - n)) rfl
      simp only [stop]
      omega
    obtain ⟨free', hshape⟩ := h.of_taken hsplit [(c.1, c.2 - n)]
      (t := (c.1 + 8 * (c.2 - n), n)) (by simpa using hring') (by simpa using hsorted')
      (by
        intro d hd
        rw [List.mem_singleton.mp hd]
        dsimp only
        omega)
      (by
        intro b hb
        have hbpos := h.pos b (List.mem_append_right free hb)
        have hcb := (List.pairwise_append.mp h.pairwise).2.2 c hcfree b hb
        simp only [stop] at hcb
        rw [Mem.setSize, Function.update_of_ne (by omega),
          Function.update_of_ne (by omega)])
      hn (by simp [Mem.setSize])
      (by
        have hparts := cells_add (u := 8) c.1 (c.2 - n) n
        rw [Nat.sub_add_cancel hc] at hparts
        simpa using hparts)
    exact ⟨_, free', (c.1 + 8 * (c.2 - n), n), hrun, rfl, rfl, hshape⟩

end Take

/-! ## The loop of malloc -/

section Search

variable {L base n k rounds z : ℕ} {s : Heap} {free live : List Block}
variable {b c f : Block} {l m : List Block} {sbrk : List Call → ℕ → Option ℕ}

/-- The loop goes past blocks that are too small. -/
theorem search_walk (sbrk : List Call → ℕ → Option ℕ) (rounds : ℕ)
    (h : InMemory s.mem (b :: l ++ c :: m) z)
    (hl : ∀ x ∈ l, x.2 < n ∧ x.1 ≠ s.freep) :
    ∃ q ∈ b :: l, (s.mem q.1).ptr = c.1 ∧
      search sbrk rounds n (l.length + k) s b.1 (first (l ++ c :: m) z) =
        search sbrk rounds n k s q.1 c.1 := by
  induction l generalizing b with
  | nil =>
      refine ⟨b, List.mem_cons_self, h.1, ?_⟩
      rw [List.length_nil, Nat.zero_add, List.nil_append, first_cons]
  | cons x l ih =>
      obtain ⟨⟨hsmall, hne⟩, hl⟩ := List.forall_mem_cons.mp hl
      obtain ⟨q, hq, hnext, hrun⟩ := ih (b := x) h.2.2 hl
      refine ⟨q, List.mem_cons_of_mem b hq, hnext, ?_⟩
      have hsize : (s.mem x.1).size = x.2 := h.2.2.2.1
      have hptr : (s.mem x.1).ptr = first (l ++ c :: m) z := h.2.2.1
      rw [List.cons_append, first_cons, List.length_cons, Nat.add_right_comm,
        search, if_neg (by omega), if_neg hne, hptr]
      exact hrun

/-- The first block of a list that is big enough. -/
theorem exists_first_big (n : ℕ) (l : List Block) :
    (∀ x ∈ l, x.2 < n) ∨
      ∃ xs c ys, l = xs ++ c :: ys ∧ (∀ x ∈ xs, x.2 < n) ∧ n ≤ c.2 := by
  induction l with
  | nil => simp
  | cons x l ih =>
      by_cases hx : x.2 < n
      · rcases ih with ih | ⟨xs, c, ys, rfl, hxs, hc⟩
        · left
          rw [List.forall_mem_cons]
          exact ⟨hx, ih⟩
        · right
          refine ⟨x :: xs, c, ys, rfl, ?_, hc⟩
          rw [List.forall_mem_cons]
          exact ⟨hx, hxs⟩
      · exact .inr ⟨[], x, l, rfl, by simp, not_lt.mp hx⟩

/-- The ring as the loop of `malloc` sees it: `f` is the block of `freep`, and
it comes again behind all others. -/
theorem Shape.walk (h : Shape L base s free live) :
    ∃ f l, f.1 = s.freep ∧ (f :: l).Perm ((base, 0) :: free) ∧
      InMemory s.mem (f :: l ++ [f]) (s.mem f.1).ptr ∧
      ∀ x ∈ l, x.1 ≠ s.freep := by
  obtain ⟨f, hf, heq⟩ := List.mem_map.mp h.freep
  obtain ⟨m₁, m₂, hsplit⟩ := List.append_of_mem hf
  have hring := h.ring
  have hsorted := h.sorted
  rw [hsplit] at hring hsorted
  have hclosed : InMemory s.mem (f :: m₂ ++ m₁) f.1 := Threaded.rotate (by
    have hfirst : first (m₁ ++ f :: m₂) base = base := by
      rw [← hsplit]
      rfl
    rwa [hfirst])
  refine ⟨f, m₂ ++ m₁, heq, ?_, ?_, ?_⟩
  · rw [hsplit]
    have hcomm : (f :: m₂ ++ m₁).Perm (m₁ ++ f :: m₂) := List.perm_append_comm
    exact hcomm
  · rw [InMemory, Threaded.append_iff]
    exact ⟨hclosed, rfl, hclosed.2.1, trivial⟩
  · intro x hx
    rw [← heq]
    rcases List.mem_append.mp hx with hx | hx
    · exact (hsorted.lt hx).ne'
    · have hlt := (List.pairwise_append.mp hsorted).2.2 x hx f
        List.mem_cons_self
      rw [stop] at hlt
      omega

variable (h : Shape L base s free live) (hn : 0 < n)
include h

theorem Shape.length_le : ((base, 0) :: free).length ≤ 2 ^ 32 := by
  apply h.sorted.length_le
  rw [List.forall_mem_cons]
  refine ⟨h.base_lt, fun x hx => ?_⟩
  have := (h.block_bounds (List.mem_append_left live hx)).2
  rw [stop] at this
  omega

/-- If a node of the ring points to the free block `c`, then it is the one
before it. -/
theorem Shape.exists_split (hc : c ∈ free) (hb : b ∈ (base, 0) :: free)
    (hptr : (s.mem b.1).ptr = c.1) :
    ∃ l P m, (base, 0) :: free = l ++ P :: c :: m ∧ b.1 = P.1 := by
  obtain ⟨xs, m, rfl⟩ := List.append_of_mem hc
  obtain ⟨l, P, hlast⟩ : ∃ l P, (base, 0) :: xs = l ++ [P] :=
    ⟨_, _, (List.dropLast_append_getLast (by simp)).symm⟩
  have hsplit : (base, 0) :: (xs ++ c :: m) = l ++ P :: c :: m := by
    rw [← List.cons_append, hlast, List.append_assoc]
    rfl
  refine ⟨l, P, m, hsplit, ?_⟩
  have hring := h.ring
  have hsorted := h.sorted
  have hfirst : first (l ++ P :: c :: m) base = base := by
    rw [← hsplit]
    rfl
  rw [hsplit] at hring hsorted hb
  rw [← hfirst] at hring
  apply hring.eq_of_next_eq _ hb hptr
  rw [List.Nodup, List.pairwise_map]
  apply hsorted.imp
  intro x y hxy heq
  rw [stop] at hxy
  omega

include hn

/-- The loop finds a block that is big enough. -/
theorem Shape.search_found (sbrk : List Call → ℕ → Option ℕ) (rounds : ℕ)
    (hbig : ∃ d ∈ free, n ≤ d.2)
    (hrounds : 2 ^ 32 ≤ k) :
    ∃ s' free' t, search sbrk rounds n k s s.freep (s.mem s.freep).ptr =
        some (t.1 + 8, s') ∧ t.2 = n ∧ s'.calls = s.calls ∧
      Shape L base s' free' (t :: live) := by
  obtain ⟨f, l, hf, hperm, hwalk, hne⟩ := h.walk
  have hlen := hperm.length_eq
  have hle := h.length_le
  rw [List.length_cons] at hlen
  rcases exists_first_big n (l ++ [f]) with hsmall | ⟨xs, c, ys, hsplit, hxs, hc⟩
  · obtain ⟨d, hd, hle⟩ := hbig
    have hmem : d ∈ f :: l := hperm.mem_iff.mpr (List.mem_cons_of_mem _ hd)
    have hlt := hsmall d (by
      simp only [List.mem_append, List.mem_cons, List.not_mem_nil,
        or_false] at hmem ⊢
      tauto)
    omega
  · have hsub : ∀ x ∈ xs, x ∈ l := by
      intro x hx
      rcases List.eq_nil_or_concat ys with rfl | ⟨ys, y, rfl⟩
      · rw [(List.append_inj' hsplit rfl).1]
        exact hx
      · have hcut : l ++ [f] = (xs ++ c :: ys) ++ [y] := by simpa using hsplit
        rw [(List.append_inj' hcut rfl).1]
        exact List.mem_append_left _ hx
    have hxlen : xs.length ≤ l.length := by
      have := congrArg List.length hsplit
      simp only [List.length_append, List.length_cons, List.length_nil] at this
      omega
    have hstart : (s.mem f.1).ptr = first (xs ++ c :: ys) (s.mem f.1).ptr := by
      rw [← hsplit]
      exact hwalk.1
    rw [List.cons_append, hsplit] at hwalk
    obtain ⟨q, hq, hnext, hrun⟩ := search_walk sbrk rounds
      (k := k - xs.length) (n := n) (by simpa using hwalk) fun x hx =>
        ⟨hxs x hx, hne x (hsub x hx)⟩
    have hcfree : c ∈ free := by
      have hmem : c ∈ (base, 0) :: free := by
        rw [← hperm.mem_iff]
        have hin : c ∈ l ++ [f] := by simp [hsplit]
        simp only [List.mem_append, List.mem_cons, List.not_mem_nil,
          or_false] at hin ⊢
        tauto
      rcases List.mem_cons.mp hmem with rfl | hmem
      · dsimp only at hc
        omega
      · exact hmem
    have hqring : q ∈ (base, 0) :: free := by
      rw [← hperm.mem_iff]
      rcases List.mem_cons.mp hq with rfl | hq
      · exact List.mem_cons_self
      · exact List.mem_cons_of_mem f (hsub q hq)
    obtain ⟨l', P, m, hring, hP⟩ := h.exists_split hcfree hqring hnext
    obtain ⟨s', free', t, htake, ht, hcalls, hshape⟩ := h.take hring hn hc
    refine ⟨s', free', t, ?_, ht, hcalls, hshape⟩
    obtain ⟨j, hj⟩ : ∃ j, k - xs.length = j + 1 := ⟨k - xs.length - 1, by omega⟩
    have hsize : (s.mem c.1).size = c.2 := by
      apply h.ring.val_eq
      exact List.mem_cons_of_mem _ hcfree
    rw [Nat.add_sub_cancel' (by omega), ← hstart, hf] at hrun
    rw [hrun, hj, search, if_pos (by omega), hP, htake]

/-- The loop comes back to `freep` if no block is big enough. -/
theorem Shape.search_small (sbrk : List Call → ℕ → Option ℕ) (rounds : ℕ)
    (hsmall : ∀ d ∈ free, d.2 < n) (hk : 2 ^ 32 ≤ k) :
    (s.mem s.freep).size < n ∧ ∃ j q, k ≤ j + 2 ^ 32 ∧
      search sbrk rounds n k s s.freep (s.mem s.freep).ptr =
        search sbrk rounds n (j + 1) s q s.freep := by
  obtain ⟨f, l, hf, hperm, hwalk, hne⟩ := h.walk
  have hlen := hperm.length_eq
  have hle := h.length_le
  rw [List.length_cons] at hlen
  have hring : ∀ x ∈ f :: l, x.2 < n := by
    intro x hx
    rcases List.mem_cons.mp (hperm.mem_iff.mp hx) with rfl | hx
    · exact hn
    · exact hsmall x hx
  have hstart : (s.mem f.1).ptr = first (l ++ [f]) (s.mem f.1).ptr := hwalk.1
  have hsize : (s.mem f.1).size = f.2 := hwalk.2.1
  obtain ⟨q, -, -, hrun⟩ := search_walk sbrk rounds
    (k := k - l.length) (n := n) hwalk fun x hx =>
      ⟨hring x (List.mem_cons_of_mem f hx), hne x hx⟩
  have hround : k - l.length = (k - l.length - 1) + 1 := by omega
  rw [Nat.add_sub_cancel' (by omega), ← hstart, hf, hround] at hrun
  refine ⟨?_, k - l.length - 1, q.1, by omega, hrun⟩
  rw [← hf, hsize]
  exact hring f List.mem_cons_self

/-- The loop of `malloc`: no block is big enough and `sbrk` fails, or a block of
`n` units becomes live. -/
theorem Shape.search (hsbrk : Fresh L base sbrk) (hL : L ≤ 2 ^ 32)
    (hrounds : 2 ^ 32 ≤ rounds) (hk : 2 ^ 33 ≤ k)
    (hask : (∃ d ∈ free, n ≤ d.2) ∨
      sbrk s.calls (max n 4096 * 8 % 2 ^ 32) = none ∨ max n 4096 * 8 < L) :
    ((¬∃ d ∈ free, n ≤ d.2) ∧ sbrk s.calls (max n 4096 * 8 % 2 ^ 32) = none ∧
      Umalloc.search sbrk rounds n k s s.freep (s.mem s.freep).ptr =
        some (0, { s with
          calls := (max n 4096 * 8 % 2 ^ 32, none) :: s.calls })) ∨
    ((∃ d ∈ free, n ≤ d.2) ∨
        sbrk s.calls (max n 4096 * 8 % 2 ^ 32) ≠ none) ∧
      ∃ s' free' t, Umalloc.search sbrk rounds n k s s.freep
          (s.mem s.freep).ptr = some (t.1 + 8, s') ∧ t.2 = n ∧
        Shape L base s' free' (t :: live) := by
  by_cases hbig : ∃ d ∈ free, n ≤ d.2
  · right
    obtain ⟨s', free', t, hrun, ht, -, hshape⟩ :=
      h.search_found hn sbrk rounds hbig (k := k) (by omega)
    exact ⟨.inl hbig, s', free', t, hrun, ht, hshape⟩
  · have hsmall : ∀ d ∈ free, d.2 < n := by simpa using hbig
    obtain ⟨hsize, j, q, hj, hrun⟩ :=
      h.search_small hn sbrk rounds hsmall (k := k)
        (by omega)
    rw [hrun, Umalloc.search, if_neg (not_le.mpr hsize), if_pos rfl]
    rcases h.morecore hsbrk hL hrounds (hask.resolve_left hbig) with
      ⟨hfail, hmore⟩ | ⟨hcall, s', free', hmore, hshape, hd⟩
    · left
      refine ⟨hbig, hfail, ?_⟩
      simp only [hmore, if_pos]
    · right
      have hpos : s'.freep ≠ 0 := (hshape.freep_pos).ne'
      obtain ⟨s'', free'', t, hfound, ht, -, hshape'⟩ :=
        hshape.search_found hn sbrk rounds hd (k := j)
          (by omega)
      refine ⟨.inr hcall, s'', free'', t, ?_, ht, hshape'⟩
      simp only [hmore, if_neg hpos, hfound]

end Search

end ZtlOs.Umalloc
