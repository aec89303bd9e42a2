import ZtlOs.Support.Extents
import ZtlOs.Support.Threaded
import ZtlOs.User.Umalloc

/-!
# The free list

The free blocks and the static header `base` make up a ring in increasing order
of addresses.  A block is given by its address and by its number of units of
eight bytes; `base` has none.  `free` finds the place of a block in the ring and
joins it to the blocks that it touches there.
-/

namespace ZtlOs.Umalloc

open ZtlOs.Support ZtlOs.Support.Extent

/-- A block: the address of its header, and its units. -/
abbrev Block := ℕ × ℕ

/-- The blocks are threaded through the headers. -/
abbrev InMemory (mem : Mem) (l : List Block) (z : ℕ) : Prop :=
  Threaded (fun a => (mem a).ptr) (fun a => (mem a).size) l z

/-- The blocks are in increasing order, and no two of them touch. -/
abbrev Sorted (l : List Block) : Prop :=
  l.Pairwise fun b c => stop 8 b < c.1

section InMemory

variable {mem : Mem} {a z : ℕ} {b : Block} {l m : List Block} {v : Header}

/-- Writing to another address. -/
theorem InMemory.frame (h : InMemory mem l z) (ha : ∀ x ∈ l, x.1 ≠ a) :
    InMemory (Function.update mem a v) l z := by
  apply h.congr
  intro x hx
  rw [Function.update_of_ne (ha x hx)]
  exact ⟨rfl, rfl⟩

/-- Writing the header of one block. -/
theorem InMemory.set (hl : InMemory mem l b.1) (hm : InMemory mem m z)
    (hne : ∀ x ∈ l ++ m, x.1 ≠ b.1) :
    InMemory (Function.update mem b.1 ⟨first m z, b.2⟩) (l ++ b :: m) z := by
  rw [InMemory, Threaded.append_iff, first_cons]
  refine ⟨hl.frame fun x hx => hne x (by simp [hx]), ?_, ?_,
    hm.frame fun x hx => hne x (by simp [hx])⟩
  · simp
  · simp

end InMemory

/-! ## The loop of free -/

/-- `free` puts the block at `bp` behind the one at `p`. -/
def Stops (mem : Mem) (bp p : ℕ) : Prop :=
  (bp > p ∧ bp < (mem p).ptr) ∨
    (p ≥ (mem p).ptr ∧ (bp > p ∨ bp < (mem p).ptr))

section Loops

variable {mem : Mem} {bp z n : ℕ} {l m : List Block} {p : Block}

theorem findPlace_of_stops (h : Stops mem bp p.1) :
    findPlace mem bp (n + 1) p.1 = some p.1 := by
  rw [findPlace]
  by_cases hbetween : bp > p.1 ∧ bp < (mem p.1).ptr
  · exact if_pos hbetween
  · rw [Stops, or_iff_right hbetween] at h
    simp only [if_neg hbetween, if_pos h]

theorem findPlace_of_not_stops (h : ¬Stops mem bp p.1) :
    findPlace mem bp (n + 1) p.1 = findPlace mem bp n (mem p.1).ptr := by
  rw [Stops, not_or] at h
  rw [findPlace]
  simp only [if_neg h.1, if_neg h.2]

/-- The loop goes along the list up to the first block where it stops. -/
theorem findPlace_eq (h : InMemory mem (l ++ p :: m) z)
    (hl : ∀ x ∈ l, ¬Stops mem bp x.1) (hp : Stops mem bp p.1)
    (hn : l.length < n) :
    findPlace mem bp n (first (l ++ p :: m) z) = some p.1 := by
  induction l generalizing n with
  | nil =>
      obtain ⟨n, rfl⟩ := Nat.exists_eq_succ_of_ne_zero hn.ne'
      exact findPlace_of_stops hp
  | cons x l ih =>
      obtain ⟨n, rfl⟩ := Nat.exists_eq_succ_of_ne_zero (Nat.ne_zero_of_lt hn)
      rw [List.forall_mem_cons] at hl
      rw [List.cons_append, first_cons, findPlace_of_not_stops hl.1]
      have hnext : (mem x.1).ptr = first (l ++ p :: m) z := h.1
      rw [hnext]
      exact ih h.2.2 hl.2 (Nat.lt_of_succ_lt_succ hn)

end Loops

/-! ## The place of a block -/

section Place

variable {base n : ℕ} {b p x : Block} {l l₁ l₂ : List Block} {mem : Mem}

theorem Sorted.lt (h : Sorted (l₁ ++ x :: l₂)) {y : Block} (hy : y ∈ l₂) :
    x.1 < y.1 := by
  rw [Sorted, List.pairwise_append, List.pairwise_cons] at h
  have := h.2.1.1 y hy
  rw [stop] at this
  omega

/-- A sorted list is split where a block belongs. -/
theorem Sorted.split (h : Sorted l)
    (hl : ∀ x ∈ l, stop 8 x ≤ b.1 ∨ stop 8 b ≤ x.1) :
    ∃ l₁ l₂, l = l₁ ++ l₂ ∧ (∀ x ∈ l₁, stop 8 x ≤ b.1) ∧
      ∀ y ∈ l₂, stop 8 b ≤ y.1 := by
  induction l with
  | nil => exact ⟨[], [], rfl, by simp, by simp⟩
  | cons x l ih =>
      rw [List.forall_mem_cons] at hl
      rcases hl.1 with hlow | hhigh
      · obtain ⟨l₁, l₂, rfl, h₁, h₂⟩ := ih h.of_cons hl.2
        refine ⟨x :: l₁, l₂, rfl, ?_, h₂⟩
        rw [List.forall_mem_cons]
        exact ⟨hlow, h₁⟩
      · refine ⟨[], x :: l, rfl, by simp, ?_⟩
        intro y hy
        rcases List.mem_cons.mp hy with rfl | hy
        · exact hhigh
        · have hlt := (List.pairwise_cons.mp h).1 y hy
          rw [stop] at hlt
          omega

/-- The block `b` belongs behind `p` in the ring. -/
structure Between (base : ℕ) (b p : Block) (l₁ l₂ : List Block) : Prop where
  base_lt : base < b.1
  sorted : Sorted (l₁ ++ p :: l₂)
  lower : ∀ x ∈ l₁, stop 8 x ≤ b.1
  place : stop 8 p ≤ b.1
  lt : p.1 < b.1
  upper : ∀ y ∈ l₂, stop 8 b ≤ y.1
  pos : 0 < b.2

namespace Between

variable (h : Between base b p l₁ l₂)
variable (hring : InMemory mem (l₁ ++ p :: l₂) base)
include h hring

theorem stops (hbase : base ≤ p.1) : Stops mem b.1 p.1 := by
  have hnext : (mem p.1).ptr = first l₂ base := hring.next_eq
  have hpos := h.pos
  rw [Stops, hnext]
  cases l₂ with
  | nil => exact .inr ⟨hbase, .inl h.lt⟩
  | cons y l₂ =>
      have hy := h.upper y List.mem_cons_self
      rw [stop] at hy
      refine .inl ⟨h.lt, ?_⟩
      rw [first_cons]
      omega

theorem not_stops_of_lower (hx : x ∈ l₁) : ¬Stops mem b.1 x.1 := by
  obtain ⟨a, c, rfl⟩ := List.append_of_mem hx
  rw [List.append_assoc, List.cons_append] at hring
  have hsorted := h.sorted
  rw [List.append_assoc, List.cons_append] at hsorted
  -- The block behind `x` is still below `b`.
  obtain ⟨y, hy, hnext, hle⟩ : ∃ y ∈ c ++ p :: l₂,
      (mem x.1).ptr = y.1 ∧ y.1 ≤ b.1 := by
    have hnext : (mem x.1).ptr = first (c ++ p :: l₂) base := hring.next_eq
    cases c with
    | nil => exact ⟨p, by simp, hnext, h.lt.le⟩
    | cons y c =>
        have hle := h.lower y (by simp)
        rw [stop] at hle
        exact ⟨y, by simp, hnext, by omega⟩
  have hlt := hsorted.lt hy
  rw [Stops, hnext]
  omega

theorem not_stops_of_upper (hx : x ∈ l₂) : ¬Stops mem b.1 x.1 := by
  have hhigh := h.upper x hx
  have hbase := h.base_lt
  rw [stop] at hhigh
  obtain ⟨a, c, rfl⟩ := List.append_of_mem hx
  have hsplit : l₁ ++ p :: (a ++ x :: c) = l₁ ++ p :: a ++ x :: c := by simp
  have hsorted := h.sorted
  rw [hsplit] at hring hsorted
  have hnext : (mem x.1).ptr = first c base := hring.next_eq
  have hpos := h.pos
  rw [Stops, hnext]
  cases c with
  | nil =>
      rw [first_nil]
      omega
  | cons y c =>
      have hlt := hsorted.lt (List.mem_cons_self (a := y))
      rw [first_cons]
      omega

/-- The loop of `free` finds the place from any block of the ring. -/
theorem findPlace_eq (hfirst : first (l₁ ++ p :: l₂) base = base)
    (hbase : base ≤ p.1) {f : ℕ} (hf : f ∈ (l₁ ++ p :: l₂).map Prod.fst)
    (hn : (l₁ ++ p :: l₂).length ≤ n) :
    findPlace mem b.1 n f = some p.1 := by
  have hstops := h.stops hring hbase
  have hnot : ∀ x ∈ l₁ ++ p :: l₂, x ≠ p → ¬Stops mem b.1 x.1 := by
    intro x hx hne
    rw [List.mem_append, List.mem_cons] at hx
    rcases hx with hx | hx | hx
    · exact h.not_stops_of_lower hring hx
    · exact absurd hx hne
    · exact h.not_stops_of_upper hring hx
  have hnodup : (l₁ ++ p :: l₂).Nodup := h.sorted.imp fun {x y} hxy heq => by
    rw [heq, stop] at hxy
    omega
  have hp : p ∈ l₁ ++ p :: l₂ := by simp
  generalize l₁ ++ p :: l₂ = ring at *
  obtain ⟨x, hx, rfl⟩ := List.mem_map.mp hf
  -- The walk takes the ring from the block of `freep` on.
  obtain ⟨m₁, m₂, rfl⟩ := List.append_of_mem hx
  have hwalk : InMemory mem (x :: m₂ ++ m₁) x.1 :=
    Threaded.rotate (by rwa [hfirst])
  have hperm : (x :: m₂ ++ m₁).Perm (m₁ ++ x :: m₂) := List.perm_append_comm
  obtain ⟨xs, ys, hsplit⟩ := List.append_of_mem (hperm.mem_iff.mpr hp)
  have hstart : first (xs ++ p :: ys) x.1 = x.1 := by
    rw [← hsplit]
    rfl
  rw [hsplit] at hwalk hperm
  have hlen := hperm.length_eq
  rw [← hstart]
  apply Umalloc.findPlace_eq hwalk _ hstops
  · rw [List.length_append, List.length_cons] at hlen
    omega
  · intro y hy
    apply hnot y (hperm.mem_iff.mp (List.mem_append_left _ hy))
    rintro rfl
    have hdup := hperm.nodup_iff.mpr hnodup
    rw [List.nodup_append] at hdup
    exact hdup.2.2 y hy y List.mem_cons_self rfl

end Between

end Place

/-! ## Joining neighbours -/

section Join

variable {mem : Mem} {base bp p : ℕ}

theorem setPtr_setSize (mem : Mem) (a v w : ℕ) :
    (mem.setSize a w).setPtr a v = Function.update mem a ⟨v, w⟩ := by
  simp [Mem.setPtr, Mem.setSize]

theorem setPtr_eq (mem : Mem) (a v : ℕ) :
    mem.setPtr a v = Function.update mem a ⟨v, (mem a).size⟩ :=
  rfl

theorem joinUpper_of_eq (hp : p ≠ bp) (hq : (mem p).ptr ≠ bp)
    (h : offset bp (mem bp).size = (mem p).ptr) :
    joinUpper mem bp p = Function.update mem bp ⟨(mem (mem p).ptr).ptr,
      ((mem bp).size + (mem (mem p).ptr).size) % 2 ^ 32⟩ := by
  rw [joinUpper, if_pos h]
  simp [Mem.setPtr, Mem.setSize, Function.update_of_ne hp,
    Function.update_of_ne hq]

theorem joinUpper_of_ne (h : offset bp (mem bp).size ≠ (mem p).ptr) :
    joinUpper mem bp p = Function.update mem bp ⟨(mem p).ptr, (mem bp).size⟩ := by
  rw [joinUpper, if_neg h, setPtr_eq]

theorem joinLower_of_eq (hp : p ≠ bp) (h : offset p (mem p).size = bp) :
    joinLower mem bp p = Function.update mem p
      ⟨(mem bp).ptr, ((mem p).size + (mem bp).size) % 2 ^ 32⟩ := by
  rw [joinLower, if_pos h]
  simp [Mem.setPtr, Mem.setSize, Function.update_of_ne hp.symm]

theorem joinLower_of_ne (h : offset p (mem p).size ≠ bp) :
    joinLower mem bp p = Function.update mem p ⟨bp, (mem p).size⟩ := by
  rw [joinLower, if_neg h, setPtr_eq]

variable {b c P : Block} {l₁ l₂ l : List Block}

/-- The block `c` begins with the cells of `b`; it and the blocks `l` take the
place of `b` and the blocks `l₂`. -/
structure Joined (b : Block) (l₂ : List Block) (c : Block) (l : List Block) :
    Prop where
  fst_eq : c.1 = b.1
  le : b.2 ≤ c.2
  suffix : l <:+ l₂
  stop_eq : ∃ q ∈ b :: l₂, stop 8 c = stop 8 q
  apart : ∀ y ∈ l, stop 8 c < y.1
  covers : ∀ x, List.count x (cells 8 c) + List.count x (l.flatMap (cells 8)) =
    List.count x (cells 8 b) + List.count x (l₂.flatMap (cells 8))

/-- The block is joined to its upper neighbour if they touch. -/
theorem Between.joinUpper (h : Between base b P l₁ l₂)
    (hring : InMemory mem (l₁ ++ P :: l₂) base)
    (hsize : (mem b.1).size = b.2) (hstop : stop 8 b < 2 ^ 32)
    (hstops : ∀ y ∈ l₂, stop 8 y < 2 ^ 32) :
    ∃ c l, Umalloc.joinUpper mem b.1 P.1 =
        Function.update mem b.1 ⟨first l base, c.2⟩ ∧ Joined b l₂ c l := by
  have hnext : (mem P.1).ptr = first l₂ base := hring.next_eq
  have hoffset : offset b.1 (mem b.1).size = stop 8 b := by
    rw [hsize, offset, ← stop, Nat.mod_eq_of_lt hstop]
  have hpos := h.pos
  have hbase := h.base_lt
  by_cases htouch : stop 8 b = first l₂ base
  · obtain ⟨q, l, rfl⟩ : ∃ q l, l₂ = q :: l := by
      cases l₂ with
      | nil =>
          rw [first_nil, stop] at htouch
          omega
      | cons q l => exact ⟨q, l, rfl⟩
    rw [first_cons] at htouch hnext
    have hq : (mem q.1).ptr = first l base ∧ (mem q.1).size = q.2 := by
      have hupper := (Threaded.append_iff.mp hring).2.2.2
      exact ⟨hupper.1, hupper.2.1⟩
    have hqstop := hstops q List.mem_cons_self
    have hjoined : stop 8 (b.1, b.2 + q.2) = stop 8 q := by
      rw [stop] at htouch
      simp only [stop]
      omega
    have hwidth : b.2 + q.2 < 2 ^ 32 := by
      rw [← hjoined, stop] at hqstop
      dsimp only at hqstop
      omega
    refine ⟨(b.1, b.2 + q.2), l, ?_, rfl, Nat.le_add_right .., ?_,
      ⟨q, by simp, hjoined⟩, ?_, ?_⟩
    · rw [joinUpper_of_eq (ne_of_lt h.lt) _ (hoffset.trans (htouch.trans
        hnext.symm)), hnext, hq.1, hq.2, hsize, Nat.mod_eq_of_lt hwidth]
      rw [hnext, ← htouch, stop]
      omega
    · exact List.suffix_cons q l
    · intro y hy
      rw [hjoined]
      have hsorted := h.sorted
      rw [Sorted, List.pairwise_append] at hsorted
      exact (List.pairwise_cons.mp (List.pairwise_cons.mp hsorted.2.1).2).1 y hy
    · intro x
      have hcells : cells 8 (b.1, b.2 + q.2) = cells 8 b ++ cells 8 q := by
        rw [cells_add, ← stop, htouch]
      rw [hcells, List.count_append, List.flatMap_cons, List.count_append]
      omega
  · refine ⟨b, l₂, ?_, rfl, le_rfl, List.suffix_refl l₂,
      ⟨b, by simp, rfl⟩, ?_, fun x => rfl⟩
    · rw [joinUpper_of_ne (by rwa [hoffset, hnext]), hnext, hsize]
    · intro y hy
      refine lt_of_le_of_ne (h.upper y hy) fun heq => ?_
      cases l₂ with
      | nil => cases hy
      | cons q l =>
          rw [first_cons] at htouch
          rcases List.mem_cons.mp hy with rfl | hy
          · exact htouch heq
          · have hbehind := (List.pairwise_cons.mp
              (List.pairwise_append.mp h.sorted).2.1).2
            have hlt := (List.pairwise_cons.mp hbehind).1 y hy
            rw [stop] at hlt
            have := h.upper q List.mem_cons_self
            omega

/-- The ring goes on with `ms` in the place of `p` and the blocks behind it, of
which `b` has become a part. -/
structure Inserted (base : ℕ) (b p : Block) (l₁ l₂ ms : List Block)
    (mem mem' : Mem) : Prop where
  ring : InMemory mem' (l₁ ++ ms) base
  sorted : Sorted (l₁ ++ ms)
  fst_mem : p.1 ∈ ms.map Prod.fst
  head : stop 8 p < b.1 → ∃ m, ms = p :: m
  pos : (∀ y ∈ l₂, 0 < y.2) → ∀ d ∈ ms, d = p ∨ 0 < d.2
  big : ∃ d ∈ ms, b.2 ≤ d.2
  covers : ∀ x, List.count x (ms.flatMap (cells 8)) =
    List.count x (cells 8 b) + List.count x ((p :: l₂).flatMap (cells 8))
  frame : ∀ a, a ≠ b.1 → a ≠ p.1 → mem' a = mem a

/-- The block is joined to its lower neighbour if they touch. -/
theorem Between.joinLower (h : Between base b P l₁ l₂)
    (hring : InMemory mem (l₁ ++ P :: l₂) base) (hj : Joined b l₂ c l)
    (hstop : stop 8 c < 2 ^ 32) :
    ∃ ms, Inserted base b P l₁ l₂ ms mem (Umalloc.joinLower
      (Function.update mem b.1 ⟨first l base, c.2⟩) b.1 P.1) := by
  have hlt := h.lt
  have hpos := h.pos
  have hP : P.1 ≠ b.1 := ne_of_lt hlt
  have hfst := hj.fst_eq
  have hle := hj.le
  have hplace := h.place
  obtain ⟨hring₁, hnode, hval, hring₂⟩ := Threaded.append_iff.mp hring
  obtain ⟨hsorted₁, hsorted₂, hcross⟩ := List.pairwise_append.mp h.sorted
  have hsuffix : ∀ y ∈ l, stop 8 b ≤ y.1 := fun y hy =>
    h.upper y (hj.suffix.mem hy)
  have hl : InMemory mem l base := by
    obtain ⟨t, rfl⟩ := hj.suffix
    exact (Threaded.append_iff.mp hring₂).2
  have hsorted : Sorted l :=
    (List.pairwise_cons.mp hsorted₂).2.sublist hj.suffix.sublist
  -- The nodes that stay differ from the two that are written.
  have hlow : ∀ x ∈ l₁, x.1 ≠ b.1 ∧ x.1 ≠ P.1 := by
    intro x hx
    have hxP := hcross x hx P List.mem_cons_self
    rw [stop] at hxP
    omega
  have hhigh : ∀ y ∈ l, y.1 ≠ b.1 ∧ y.1 ≠ P.1 := by
    intro y hy
    have hby := hsuffix y hy
    rw [stop] at hby
    omega
  have hkeep : ∀ node a, a ≠ b.1 → a ≠ P.1 → Function.update (Function.update
      mem b.1 ⟨first l base, c.2⟩) P.1 node a = mem a := by
    intro node a hb hp
    rw [Function.update_of_ne hp, Function.update_of_ne hb]
  have hsize : (Function.update mem b.1 ⟨first l base, c.2⟩ P.1).size = P.2 := by
    rw [Function.update_of_ne hP]
    exact hval
  have hring' : ∀ node, InMemory (Function.update (Function.update
      mem b.1 ⟨first l base, c.2⟩) P.1 node) l₁ P.1 ∧ InMemory (Function.update
      (Function.update mem b.1 ⟨first l base, c.2⟩) P.1 node) l base := by
    intro node
    constructor
    · apply hring₁.congr
      intro x hx
      rw [hkeep node x.1 (hlow x hx).1 (hlow x hx).2]
      exact ⟨rfl, rfl⟩
    · apply hl.congr
      intro y hy
      rw [hkeep node y.1 (hhigh y hy).1 (hhigh y hy).2]
      exact ⟨rfl, rfl⟩
  have hoffset : offset P.1 P.2 = stop 8 P := by
    rw [offset, ← stop, Nat.mod_eq_of_lt]
    rw [stop] at hstop
    omega
  by_cases htouch : stop 8 P = b.1
  · have hjoin : stop 8 (P.1, P.2 + c.2) = stop 8 c := by
      rw [stop] at htouch
      simp only [stop]
      omega
    have hwidth : P.2 + c.2 < 2 ^ 32 := by
      rw [← hjoin, stop] at hstop
      dsimp only at hstop
      omega
    refine ⟨(P.1, P.2 + c.2) :: l, ?_⟩
    rw [joinLower_of_eq hP (by rw [hsize, hoffset, htouch]), hsize,
      Function.update_self, Nat.mod_eq_of_lt hwidth]
    constructor
    · rw [InMemory, Threaded.append_iff, first_cons]
      refine ⟨(hring' _).1, ?_, ?_, (hring' _).2⟩
      · simp
      · simp
    · rw [Sorted, List.pairwise_append, List.pairwise_cons]
      refine ⟨hsorted₁, ⟨?_, hsorted⟩, ?_⟩
      · intro y hy
        rw [hjoin]
        exact hj.apart y hy
      · intro x hx y hy
        rcases List.mem_cons.mp hy with rfl | hy
        · exact hcross x hx P List.mem_cons_self
        · have hxP := hcross x hx P List.mem_cons_self
          have hby := hsuffix y hy
          rw [stop] at hby
          omega
    · exact List.mem_cons_self
    · intro hne
      omega
    · intro hl₂ d hd
      rcases List.mem_cons.mp hd with rfl | hd
      · exact .inr (by dsimp only; omega)
      · exact .inr (hl₂ d (hj.suffix.mem hd))
    · exact ⟨(P.1, P.2 + c.2), List.mem_cons_self, by dsimp only; omega⟩
    · intro x
      have hcells : cells 8 (P.1, P.2 + c.2) = cells 8 P ++ cells 8 c := by
        rw [cells_add, ← stop, htouch, ← hfst]
      have hcount := hj.covers x
      rw [List.flatMap_cons, List.flatMap_cons, hcells, List.count_append,
        List.count_append, List.count_append]
      omega
    · exact fun a hb hp => hkeep _ a hb hp
  · have hlt' : stop 8 P < b.1 := lt_of_le_of_ne hplace htouch
    refine ⟨P :: c :: l, ?_⟩
    rw [joinLower_of_ne (by rwa [hsize, hoffset]), hsize]
    constructor
    · rw [InMemory, Threaded.append_iff, first_cons]
      refine ⟨(hring' _).1, ?_, ?_, ?_, ?_, (hring' _).2⟩
      · simp [hfst]
      · simp
      · simp [hfst, Function.update_of_ne hP.symm]
      · simp [hfst, Function.update_of_ne hP.symm]
    · rw [Sorted, List.pairwise_append, List.pairwise_cons, List.pairwise_cons]
      have hbehind : ∀ y ∈ c :: l, b.1 ≤ y.1 := by
        intro y hy
        rcases List.mem_cons.mp hy with rfl | hy
        · exact hfst.ge
        · have hby := hsuffix y hy
          rw [stop] at hby
          omega
      refine ⟨hsorted₁, ⟨?_, hj.apart, hsorted⟩, ?_⟩
      · intro y hy
        exact lt_of_lt_of_le hlt' (hbehind y hy)
      · intro x hx y hy
        have hxP := hcross x hx P List.mem_cons_self
        rcases List.mem_cons.mp hy with rfl | hy
        · exact hxP
        · have := hbehind y hy
          omega
    · exact List.mem_cons_self
    · exact fun _ => ⟨c :: l, rfl⟩
    · intro hl₂ d hd
      rcases List.mem_cons.mp hd with rfl | hd
      · exact .inl rfl
      · rcases List.mem_cons.mp hd with rfl | hd
        · exact .inr (by omega)
        · exact .inr (hl₂ d (hj.suffix.mem hd))
    · exact ⟨c, by simp, hle⟩
    · intro x
      have hcount := hj.covers x
      rw [List.flatMap_cons, List.flatMap_cons, List.flatMap_cons,
        List.count_append, List.count_append, List.count_append]
      omega
    · exact fun a hb hp => hkeep _ a hb hp

end Join

end ZtlOs.Umalloc
