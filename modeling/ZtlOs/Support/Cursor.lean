import Mathlib.Data.List.Basic
import Mathlib.Data.List.GetD
import Mathlib.Data.List.Pairwise

/-!
# Sequences shared through a cursor

A sequence of values is a function from positions.  A transfer through a cursor
writes some values from the position of the cursor on, or reads some, and moves
the cursor behind them.  After any number of transfers their ranges follow one
another without gap or overlap.
-/

namespace ZtlOs.Support

/-! ## Sequences -/

namespace Sequence

variable {β : Type*}

/-- `f` with `xs` laid over it from position `p` on. -/
def overlay (f : ℕ → β) (p : ℕ) (xs : List β) : ℕ → β :=
  fun k => if p ≤ k then xs.getD (k - p) (f k) else f k

/-- The `n` values from position `p` on. -/
def slice (f : ℕ → β) (p n : ℕ) : List β :=
  (List.range n).map fun i => f (p + i)

variable {f g : ℕ → β} {p k n m : ℕ} {xs ys : List β}

theorem overlay_of_lt (h : k < p) : overlay f p xs k = f k :=
  if_neg (Nat.not_le.mpr h)

theorem overlay_of_le (h : p + xs.length ≤ k) : overlay f p xs k = f k := by
  rw [overlay, if_pos (by omega), List.getD_eq_default _ _ (by omega)]

theorem overlay_add (h : k < xs.length) : overlay f p xs (p + k) = xs[k] := by
  rw [overlay, if_pos (Nat.le_add_right p k), Nat.add_sub_cancel_left,
    List.getD_eq_getElem _ _ h]

@[simp] theorem overlay_nil : overlay f p [] = f := by
  funext k
  simp [overlay]

theorem overlay_append :
    overlay (overlay f p xs) (p + xs.length) ys = overlay f p (xs ++ ys) := by
  funext k
  by_cases hp : k < p
  · rw [overlay_of_lt (by omega), overlay_of_lt hp, overlay_of_lt hp]
  · obtain ⟨j, rfl⟩ := Nat.exists_eq_add_of_le (Nat.not_lt.mp hp)
    by_cases hx : j < xs.length
    · rw [overlay_of_lt (by omega), overlay_add hx,
        overlay_add (by rw [List.length_append]; omega),
        List.getElem_append_left hx]
    · by_cases hy : j < xs.length + ys.length
      · obtain ⟨i, rfl⟩ := Nat.exists_eq_add_of_le (Nat.not_lt.mp hx)
        rw [overlay_add (by rw [List.length_append]; omega), ← Nat.add_assoc,
          overlay_add (by omega), List.getElem_append_right (by omega)]
        simp only [Nat.add_sub_cancel_left]
      · rw [overlay_of_le (by omega), overlay_of_le (by omega),
          overlay_of_le (by rw [List.length_append]; omega)]

/-- A value depends on the sequence below only outside the range. -/
theorem overlay_congr (h : k < p ∨ p + xs.length ≤ k → f k = g k) :
    overlay f p xs k = overlay g p xs k := by
  by_cases hp : k < p
  · rw [overlay_of_lt hp, overlay_of_lt hp, h (.inl hp)]
  · by_cases hk : p + xs.length ≤ k
    · rw [overlay_of_le hk, overlay_of_le hk, h (.inr hk)]
    · obtain ⟨j, rfl⟩ := Nat.exists_eq_add_of_le (Nat.not_lt.mp hp)
      rw [overlay_add (by omega), overlay_add (by omega)]

@[simp] theorem length_slice : (slice f p n).length = n := by
  simp [slice]

theorem getElem_slice (h : k < (slice f p n).length) :
    (slice f p n)[k] = f (p + k) := by
  simp [slice]

theorem slice_zero : slice f p 0 = [] :=
  rfl

theorem slice_add : slice f p (n + m) = slice f p n ++ slice f (p + n) m := by
  simp [slice, List.range_add, Nat.add_assoc]

theorem take_slice : (slice f p n).take m = slice f p (min m n) := by
  rw [slice, slice, ← List.map_take, List.take_range]

theorem drop_slice : (slice f p n).drop m = slice f (p + m) (n - m) := by
  apply List.ext_getElem
  · simp
  · intro k hk hk'
    rw [List.getElem_drop, getElem_slice, getElem_slice, Nat.add_assoc]

theorem slice_congr (h : ∀ k, p ≤ k → k < p + n → f k = g k) :
    slice f p n = slice g p n := by
  apply List.map_congr_left
  intro i hi
  have := List.mem_range.mp hi
  exact h (p + i) (by omega) (by omega)

theorem slice_overlay : slice (overlay f p xs) p xs.length = xs := by
  apply List.ext_getElem
  · simp
  · intro k hk hk'
    rw [getElem_slice, overlay_add hk']

/-- The first values of a sequence, after `xs` has been laid over them. -/
theorem slice_overlay_max (hp : p ≤ n) :
    slice (overlay f p xs) 0 (max n (p + xs.length)) =
      (slice f 0 n).take p ++ xs ++ (slice f 0 n).drop (p + xs.length) := by
  have hsplit : max n (p + xs.length) =
      p + xs.length + (n - (p + xs.length)) := by omega
  rw [hsplit, slice_add, slice_add, Nat.zero_add, slice_overlay, take_slice,
    drop_slice, Nat.min_eq_left hp, Nat.zero_add]
  congr 1
  · congr 1
    apply slice_congr
    intro k _ hk
    exact overlay_of_lt (by omega)
  · apply slice_congr
    intro k hk _
    exact overlay_of_le hk

end Sequence

/-! ## Transfers -/

open Sequence

/-- One transfer through a cursor, by `who`, at the position `pos`. -/
structure Chunk (P β : Type*) where
  who : P
  /-- Whether the values were written. -/
  written : Bool
  pos : ℕ
  vals : List β

variable {P β : Type*} {f g : ℕ → β} {p q : ℕ} {cs : List (Chunk P β)}

/-- From the sequence `f` with the cursor at `p`, the transfers `cs` one after
the other lead to the sequence `g` with the cursor at `q`. -/
inductive Transfers (f : ℕ → β) (p : ℕ) :
    List (Chunk P β) → (ℕ → β) → ℕ → Prop where
  | nil : Transfers f p [] f p
  | write {cs : List (Chunk P β)} {g : ℕ → β} {q : ℕ}
      (before : Transfers f p cs g q) (who : P) (xs : List β) :
      Transfers f p (cs ++ [⟨who, true, q, xs⟩]) (overlay g q xs)
        (q + xs.length)
  | read {cs : List (Chunk P β)} {g : ℕ → β} {q : ℕ}
      (before : Transfers f p cs g q) (who : P) (n : ℕ) :
      Transfers f p (cs ++ [⟨who, false, q, slice g q n⟩]) g (q + n)

namespace Transfers

/-- All values transferred, in order. -/
def all (cs : List (Chunk P β)) : List β :=
  cs.flatMap Chunk.vals

@[simp] theorem all_nil : all ([] : List (Chunk P β)) = [] :=
  rfl

@[simp] theorem all_snoc (c : Chunk P β) :
    all (cs ++ [c]) = all cs ++ c.vals := by
  simp [all]

/-- The cursor has moved by the number of values transferred. -/
theorem cursor (h : Transfers f p cs g q) : q = p + (all cs).length := by
  induction h with
  | nil => simp
  | write before who xs ih =>
      rw [ih, all_snoc, List.length_append, Nat.add_assoc]
  | read before who n ih =>
      rw [ih, all_snoc, List.length_append, length_slice, Nat.add_assoc]

/-- A transfer begins where those before it end. -/
theorem pos_eq (h : Transfers f p cs g q) {cs₁ cs₂ : List (Chunk P β)}
    {c : Chunk P β} (hcs : cs = cs₁ ++ c :: cs₂) :
    c.pos = p + (all cs₁).length := by
  induction h generalizing cs₂ with
  | nil => simp at hcs
  | write before who xs ih =>
      obtain rfl | ⟨cs₃, d, rfl⟩ := List.eq_nil_or_concat' cs₂
      · obtain ⟨rfl, hc⟩ := List.append_inj' hcs rfl
        cases hc
        exact before.cursor
      · rw [← List.cons_append, ← List.append_assoc] at hcs
        exact ih (List.append_inj' hcs rfl).1
  | read before who n ih =>
      obtain rfl | ⟨cs₃, d, rfl⟩ := List.eq_nil_or_concat' cs₂
      · obtain ⟨rfl, hc⟩ := List.append_inj' hcs rfl
        cases hc
        exact before.cursor
      · rw [← List.cons_append, ← List.append_assoc] at hcs
        exact ih (List.append_inj' hcs rfl).1

/-- A transfer ends where the cursor is at the latest. -/
theorem end_le (h : Transfers f p cs g q) {c : Chunk P β} (hc : c ∈ cs) :
    p ≤ c.pos ∧ c.pos + c.vals.length ≤ q := by
  obtain ⟨cs₁, cs₂, rfl⟩ := List.append_of_mem hc
  have hpos := h.pos_eq rfl
  have hcur := h.cursor
  simp only [all, List.flatMap_append, List.flatMap_cons, List.length_append]
    at hcur hpos
  omega

/-- No two transfers overlap. -/
theorem disjoint (h : Transfers f p cs g q) :
    cs.Pairwise fun c d => c.pos + c.vals.length ≤ d.pos := by
  induction h with
  | nil => exact .nil
  | write before who xs ih =>
      rw [List.pairwise_append]
      refine ⟨ih, List.pairwise_singleton .., ?_⟩
      intro c hc d hd
      rw [List.mem_singleton.mp hd]
      exact (before.end_le hc).2
  | read before who n ih =>
      rw [List.pairwise_append]
      refine ⟨ih, List.pairwise_singleton .., ?_⟩
      intro c hc d hd
      rw [List.mem_singleton.mp hd]
      exact (before.end_le hc).2

/-- No position that the cursor has passed is skipped. -/
theorem covers (h : Transfers f p cs g q) {k : ℕ} (hp : p ≤ k) (hq : k < q) :
    ∃ c ∈ cs, c.pos ≤ k ∧ k < c.pos + c.vals.length := by
  induction h with
  | nil => omega
  | @write cs g q before who xs ih =>
      by_cases hk : k < q
      · obtain ⟨c, hc, hrange⟩ := ih hk
        exact ⟨c, List.mem_append_left _ hc, hrange⟩
      · exact ⟨_, List.mem_append_right _ (List.mem_singleton_self _),
          Nat.not_lt.mp hk, hq⟩
  | @read cs g q before who n ih =>
      by_cases hk : k < q
      · obtain ⟨c, hc, hrange⟩ := ih hk
        exact ⟨c, List.mem_append_left _ hc, hrange⟩
      · refine ⟨_, List.mem_append_right _ (List.mem_singleton_self _),
          Nat.not_lt.mp hk, ?_⟩
        rw [length_slice]
        exact hq

/-- What lies outside the transfers is left alone. -/
theorem outside (h : Transfers f p cs g q) {k : ℕ} (hk : k < p ∨ q ≤ k) :
    g k = f k := by
  induction h with
  | nil => rfl
  | @write cs g q before who xs ih =>
      have hle := before.cursor
      rcases hk with hk | hk
      · rw [overlay_of_lt (by omega), ih (.inl hk)]
      · rw [overlay_of_le hk, ih (.inr (by omega))]
  | @read cs g q before who n ih =>
      apply ih
      rcases hk with hk | hk
      · exact .inl hk
      · exact .inr (by omega)

/-- What was transferred is what the sequence holds there from then on. -/
theorem holds (h : Transfers f p cs g q) {c : Chunk P β} (hc : c ∈ cs) :
    slice g c.pos c.vals.length = c.vals := by
  induction h with
  | nil => cases hc
  | @write cs g q before who xs ih =>
      rcases List.mem_append.mp hc with hc | hc
      · refine (slice_congr ?_).trans (ih hc)
        intro k _ hk
        have := (before.end_le hc).2
        exact overlay_of_lt (by omega)
      · rw [List.mem_singleton.mp hc]
        exact slice_overlay
  | @read cs g q before who n ih =>
      rcases List.mem_append.mp hc with hc | hc
      · exact ih hc
      · rw [List.mem_singleton.mp hc, length_slice]

/-- Writing alone lays the values over the sequence. -/
theorem of_writes (h : Transfers f p cs g q)
    (hw : ∀ c ∈ cs, c.written = true) : g = overlay f p (all cs) := by
  induction h with
  | nil => simp
  | @write cs g q before who xs ih =>
      rw [ih fun c hc => hw c (List.mem_append_left _ hc), before.cursor,
        all_snoc, overlay_append]
  | read before who n ih =>
      have := hw _ (List.mem_append_right _ (List.mem_singleton_self _))
      cases this

/-- Reading alone partitions what the cursor passes. -/
theorem of_reads (h : Transfers f p cs g q)
    (hr : ∀ c ∈ cs, c.written = false) :
    g = f ∧ all cs = slice f p (all cs).length := by
  induction h with
  | nil => exact ⟨rfl, rfl⟩
  | write before who xs ih =>
      have := hr _ (List.mem_append_right _ (List.mem_singleton_self _))
      cases this
  | @read cs g q before who n ih =>
      obtain ⟨rfl, hall⟩ := ih fun c hc => hr c (List.mem_append_left _ hc)
      refine ⟨rfl, ?_⟩
      rw [all_snoc, List.length_append, slice_add, ← hall, length_slice,
        before.cursor]

end Transfers

end ZtlOs.Support
