import Mathlib.Algebra.Ring.Nat
import Mathlib.Data.List.Count
import Mathlib.Data.List.Flatten
import Mathlib.Data.List.Nodup
import Mathlib.Data.List.Pairwise
import Mathlib.Data.List.Perm.Basic
import Mathlib.Order.Nat
import Mathlib.Tactic.Common

/-!
# Extents of cells

An extent is a run of cells of `u` addresses each, given by the address of its
first cell and by the number of its cells.  What a set of extents covers is
followed as a list of cells: splitting, joining and moving extents only permutes
it.
-/

namespace ZtlOs.Support

namespace Extent

/-- The address behind the extent. -/
def stop (u : ℕ) (b : ℕ × ℕ) : ℕ :=
  b.1 + u * b.2

/-- The addresses of the cells of an extent. -/
def cells (u : ℕ) (b : ℕ × ℕ) : List ℕ :=
  (List.range b.2).map fun i => b.1 + u * i

/-- Two cells do not overlap. -/
def Apart (u x y : ℕ) : Prop :=
  x + u ≤ y ∨ y + u ≤ x

variable {u : ℕ} {b c : ℕ × ℕ} {bs cs : List (ℕ × ℕ)} {x lo hi : ℕ}

theorem mem_cells : x ∈ cells u b ↔ ∃ i < b.2, b.1 + u * i = x := by
  simp [cells]

theorem fst_mem_cells (h : 0 < b.2) : b.1 ∈ cells u b :=
  mem_cells.mpr ⟨0, h, by simp⟩

@[simp] theorem length_cells : (cells u b).length = b.2 := by
  simp [cells]

@[simp] theorem cells_zero (a : ℕ) : cells u (a, 0) = [] :=
  rfl

/-- An extent is two extents one behind the other. -/
theorem cells_add (a n m : ℕ) :
    cells u (a, n + m) = cells u (a, n) ++ cells u (a + u * n, m) := by
  simp [cells, List.range_add, Nat.mul_add, Nat.add_assoc]

theorem Apart.symm {x y : ℕ} (h : Apart u x y) : Apart u y x :=
  Or.symm h

/-- Extents whose cells do not overlap lie one before the other. -/
theorem separate (hu : 0 < u) (hb : 0 < b.2) (hc : 0 < c.2)
    (h : ∀ x ∈ cells u b, ∀ y ∈ cells u c, Apart u x y) :
    stop u b ≤ c.1 ∨ stop u c ≤ b.1 := by
  -- The cell of the lower extent at which the other one would begin.
  have hmeet : ∀ {b c : ℕ × ℕ}, 0 < c.2 → b.1 ≤ c.1 →
      (∀ x ∈ cells u b, ∀ y ∈ cells u c, Apart u x y) → stop u b ≤ c.1 := by
    intro b c hc hle h
    by_contra hlt
    rw [stop, not_le] at hlt
    have hi : (c.1 - b.1) / u < b.2 := by
      rw [Nat.div_lt_iff_lt_mul hu, Nat.mul_comm]
      omega
    have hdiv := Nat.div_add_mod (c.1 - b.1) u
    have hmod := Nat.mod_lt (c.1 - b.1) hu
    have hapart := h _ (mem_cells.mpr ⟨_, hi, rfl⟩) _ (fst_mem_cells hc)
    rcases hapart with hapart | hapart
    · omega
    · omega
  rcases Nat.le_total b.1 c.1 with hle | hle
  · exact .inl (hmeet hc hle h)
  · exact .inr (hmeet hb hle fun x hx y hy => (h y hy x hx).symm)

/-- The cells of the extents do not overlap. -/
def Spaced (u : ℕ) (bs : List (ℕ × ℕ)) : Prop :=
  (bs.flatMap (cells u)).Pairwise (Apart u)

theorem Spaced.perm (h : Spaced u bs)
    (hperm : (cs.flatMap (cells u)).Perm (bs.flatMap (cells u))) :
    Spaced u cs :=
  (hperm.pairwise_iff Apart.symm).mpr h

/-- The extents themselves do not overlap. -/
theorem Spaced.pairwise (hu : 0 < u) (h : Spaced u bs)
    (hpos : ∀ b ∈ bs, 0 < b.2) :
    bs.Pairwise fun b c => stop u b ≤ c.1 ∨ stop u c ≤ b.1 := by
  rw [Spaced, List.pairwise_flatMap] at h
  apply h.2.imp_of_mem
  intro b c hb hc hbc
  exact separate hu (hpos b hb) (hpos c hc) hbc

/-- Two different extents of the list. -/
theorem Spaced.apart (hu : 0 < u) (h : Spaced u bs) (hpos : ∀ b ∈ bs, 0 < b.2)
    (hb : b ∈ bs) (hc : c ∈ bs) (hne : b ≠ c) :
    stop u b ≤ c.1 ∨ stop u c ≤ b.1 := by
  have hsymm : Std.Symm fun b c : ℕ × ℕ => stop u b ≤ c.1 ∨ stop u c ≤ b.1 :=
    ⟨fun _ _ => Or.symm⟩
  exact (h.pairwise hu hpos).forall hb hc hne

/-- A new extent behind all others. -/
theorem Spaced.cons (h : Spaced u bs) (hb : ∀ c ∈ bs, stop u c ≤ b.1) :
    Spaced u (b :: bs) := by
  rw [Spaced, List.flatMap_cons, List.pairwise_append]
  refine ⟨?_, h, ?_⟩
  · rw [cells, List.pairwise_map]
    apply List.pairwise_lt_range.imp
    intro i j hij
    have : u * (i + 1) ≤ u * j := Nat.mul_le_mul_left u hij
    rw [Nat.mul_succ] at this
    exact .inl (by omega)
  · intro x hx y hy
    obtain ⟨i, -, rfl⟩ := mem_cells.mp hx
    obtain ⟨c, hc, hyc⟩ := List.mem_flatMap.mp hy
    obtain ⟨j, hj, rfl⟩ := mem_cells.mp hyc
    have hstop := hb c hc
    have : u * (j + 1) ≤ u * c.2 := Nat.mul_le_mul_left u hj
    rw [Nat.mul_succ] at this
    rw [stop] at hstop
    exact .inr (by omega)

/-- Every cell of the extent lies between two bounds. -/
theorem bounds (hb : 0 < b.2) (h : ∀ x ∈ cells u b, lo ≤ x ∧ x + u ≤ hi) :
    lo ≤ b.1 ∧ stop u b ≤ hi := by
  refine ⟨(h _ (fst_mem_cells hb)).1, ?_⟩
  obtain ⟨n, hn⟩ := Nat.exists_eq_succ_of_ne_zero hb.ne'
  have hlast := (h (b.1 + u * n) (mem_cells.mpr ⟨n, by omega, rfl⟩)).2
  rw [stop, hn, Nat.mul_succ]
  omega

theorem length_flatMap_cells :
    (bs.flatMap (cells u)).length = (bs.map Prod.snd).sum := by
  simp [List.length_flatMap]

end Extent

end ZtlOs.Support
