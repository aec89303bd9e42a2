import Mathlib.Logic.Function.Basic
import Mathlib.Order.Nat
import Mathlib.Tactic.Common

/-!
# Copying one element after the other

A loop copies the elements at the addresses `src 0, src 1, ...` to the
addresses `dst 0, dst 1, ...`, in this order.  Where the two ranges overlap, a
later step may read what an earlier one has written.  The lemmas say when the
loop nevertheless does what copying all elements at once does.
-/

namespace ZtlOs.Support

variable {A β : Type*} [DecidableEq A]

/-- The memory after the first steps of the loop. -/
def copySeq (mem : A → β) (dst src : ℕ → A) : ℕ → (A → β)
  | 0 => mem
  | n + 1 =>
      let m := copySeq mem dst src n
      Function.update m (dst n) (m (src n))

omit [DecidableEq A] in
/-- All elements have been copied at once, and nothing else has changed. -/
structure Copied (mem : A → β) (dst src : ℕ → A) (n : ℕ) (mem' : A → β) :
    Prop where
  copied : ∀ i < n, mem' (dst i) = mem (src i)
  frame : ∀ a, (∀ i < n, a ≠ dst i) → mem' a = mem a

variable {mem mem' : A → β} {dst src : ℕ → A} {n : ℕ}

omit [DecidableEq A] in
theorem Copied.unique (h : Copied mem dst src n mem') {mem'' : A → β}
    (h' : Copied mem dst src n mem'') : mem' = mem'' := by
  funext a
  by_cases ha : ∃ i < n, a = dst i
  · obtain ⟨i, hi, rfl⟩ := ha
    rw [h.copied i hi, h'.copied i hi]
  · have hne : ∀ i < n, a ≠ dst i := fun i hi heq => ha ⟨i, hi, heq⟩
    rw [h.frame a hne, h'.frame a hne]

omit [DecidableEq A] in
/-- The order of the copies does not matter for what has been copied. -/
theorem Copied.reindex {dst' src' : ℕ → A} (h : Copied mem dst' src' n mem')
    (hto : ∀ i < n, ∃ j < n, dst' j = dst i ∧ src' j = src i)
    (hfrom : ∀ j < n, ∃ i < n, dst' j = dst i) :
    Copied mem dst src n mem' := by
  constructor
  · intro i hi
    obtain ⟨j, hj, hdst, hsrc⟩ := hto i hi
    rw [← hdst, ← hsrc]
    exact h.copied j hj
  · intro a ha
    apply h.frame
    intro j hj heq
    obtain ⟨i, hi, hdst⟩ := hfrom j hj
    exact ha i hi (heq.trans hdst)

/-- The first step of the loop taken apart from the others. -/
theorem copySeq_succ_left :
    copySeq mem dst src (n + 1) =
      copySeq (Function.update mem (dst 0) (mem (src 0)))
        (fun i => dst (i + 1)) (fun i => src (i + 1)) n := by
  induction n with
  | zero => rfl
  | succ n ih =>
      rw [copySeq, ih]
      rfl

theorem copySeq_frame {a : A} (h : ∀ i < n, a ≠ dst i) :
    copySeq mem dst src n a = mem a := by
  induction n with
  | zero => rfl
  | succ n ih =>
      have hlast : a ≠ dst n := h n (Nat.lt_succ_self n)
      simp only [copySeq, Function.update_of_ne hlast]
      exact ih fun i hi => h i (Nat.lt_succ_of_lt hi)

section Injective

variable (hinj : ∀ i < n, ∀ j < n, dst i = dst j → i = j)
include hinj

/-- Each destination keeps what is written to it at its own step. -/
theorem copySeq_dst {i k : ℕ} (hi : i < k) (hk : k ≤ n) :
    copySeq mem dst src k (dst i) = copySeq mem dst src i (src i) := by
  induction k with
  | zero => omega
  | succ k ih =>
      by_cases hik : i = k
      · subst hik
        simp [copySeq]
      · have hne : dst i ≠ dst k :=
          fun heq => hik (hinj i (by omega) k (by omega) heq)
        simp only [copySeq, Function.update_of_ne hne]
        exact ih (by omega) (by omega)

/-- The loop is right if no step reads what an earlier one has written. -/
theorem copied_of_unread (h : ∀ i < n, ∀ j < i, src i ≠ dst j) :
    Copied mem dst src n (copySeq mem dst src n) := by
  constructor
  · intro i hi
    rw [copySeq_dst hinj hi le_rfl]
    exact copySeq_frame (h i hi)
  · intro a ha
    exact copySeq_frame ha

/-- If the destination begins `d` elements after the source, then the loop
repeats the first `d` elements; it is right only if these are repeated
anyway. -/
theorem copied_iff_periodic {d : ℕ} (hd : 0 < d)
    (hoverlap : ∀ i, i + d < n → src (i + d) = dst i)
    (hbefore : ∀ i < n, i < d → ∀ j < n, src i ≠ dst j) :
    Copied mem dst src n (copySeq mem dst src n) ↔
      ∀ i, i + d < n → mem (src (i + d)) = mem (src i) := by
  have hfirst : ∀ i < n, i < d →
      copySeq mem dst src n (dst i) = mem (src i) := by
    intro i hi hid
    rw [copySeq_dst hinj hi le_rfl]
    exact copySeq_frame fun j hj => hbefore i hi hid j (by omega)
  have hrepeat : ∀ i, i + d < n →
      copySeq mem dst src n (dst (i + d)) =
        copySeq mem dst src n (dst i) := by
    intro i hi
    rw [copySeq_dst hinj hi le_rfl, hoverlap i hi,
      copySeq_dst hinj (by omega) (by omega),
      copySeq_dst hinj (by omega) le_rfl]
  constructor
  · intro h i hi
    rw [← h.copied (i + d) hi, hrepeat i hi, h.copied i (by omega)]
  · intro h
    refine ⟨?_, fun a ha => copySeq_frame ha⟩
    intro i
    induction i using Nat.strongRecOn with
    | _ i ih =>
        intro hi
        by_cases hid : i < d
        · exact hfirst i hi hid
        · obtain ⟨j, rfl⟩ := Nat.exists_eq_add_of_le' (not_lt.mp hid)
          rw [hrepeat j hi, ih j (by omega) (by omega), h j hi]

end Injective

end ZtlOs.Support
