import Mathlib.Data.List.Nodup
import Mathlib.Logic.Function.Basic

/-!
# Lists linked through a pointer

A list whose elements name their successors.  The lemmas follow a queue that
is read at its head and extended at its end.
-/

namespace ZtlOs.Support

variable {β : Type*}

/-- The list that starts at the pointer `head` and goes on through `next`. -/
def Linked (next : β → Option β) : Option β → List β → Prop
  | head, [] => head = none
  | head, b :: l => head = some b ∧ Linked next (next b) l

namespace Linked

variable {next next' : β → Option β} {head : Option β} {l l' : List β}
variable {b c : β}

theorem head_eq (h : Linked next head l) : head = l.head? := by
  cases l with
  | nil => exact h
  | cons b l => exact h.1

theorem congr (h : Linked next head l) (heq : ∀ x ∈ l, next' x = next x) :
    Linked next' head l := by
  induction l generalizing head with
  | nil => exact h
  | cons b l ih =>
      refine ⟨h.1, ?_⟩
      rw [heq b List.mem_cons_self]
      exact ih h.2 fun x hx => heq x (List.mem_cons_of_mem _ hx)

/-- What an element inside of the list points to. -/
theorem next_eq (h : Linked next head (l ++ c :: l')) :
    next c = l'.head? := by
  induction l generalizing head with
  | nil => exact h.2.head_eq
  | cons b l ih => exact ih h.2

variable [DecidableEq β]

/-- Linking a new element to the last one extends the list. -/
theorem concat (h : Linked next head (l ++ [c])) (hnodup : (l ++ [c]).Nodup)
    (hb : b ∉ l ++ [c]) (hnext : next b = none) :
    Linked (Function.update next c (some b)) head (l ++ [c] ++ [b]) := by
  induction l generalizing head with
  | nil =>
      obtain ⟨hhead, -⟩ := h
      have hbc : b ≠ c := by simpa using hb
      refine ⟨hhead, ?_, ?_⟩
      · rw [Function.update_self]
      · rwa [Function.update_of_ne hbc]
  | cons d l ih =>
      obtain ⟨hhead, htail⟩ := h
      have hdc : d ≠ c := by
        rintro rfl
        simp at hnodup
      refine ⟨hhead, ?_⟩
      rw [Function.update_of_ne hdc]
      exact ih htail (List.nodup_cons.mp hnodup).2
        fun hmem => hb (List.mem_cons_of_mem _ hmem)

end Linked

end ZtlOs.Support
