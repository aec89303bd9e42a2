import Mathlib.Data.List.Nodup
import Mathlib.Logic.Function.Basic
import Mathlib.Logic.Function.Iterate
import Mathlib.Tactic.Common

/-!
# Lists threaded through a memory

A list of nodes, each given by its address and its value.  In memory a node
names the address of its successor, and the last one names a given address: that
of the first node if the list is circular.
-/

namespace ZtlOs.Support

variable {A V : Type*}

/-- The address of the first node, or `z`. -/
def first (l : List (A × V)) (z : A) : A :=
  (l.map Prod.fst).headD z

/-- The nodes are in memory, and the last one points to `z`. -/
def Threaded (next : A → A) (val : A → V) : List (A × V) → A → Prop
  | [], _ => True
  | b :: l, z => next b.1 = first l z ∧ val b.1 = b.2 ∧ Threaded next val l z

section First

variable {l m : List (A × V)} {b : A × V} {z : A}

@[simp] theorem first_nil : first ([] : List (A × V)) z = z :=
  rfl

@[simp] theorem first_cons : first (b :: l) z = b.1 :=
  rfl

theorem first_mem (h : l ≠ []) : first l z ∈ l.map Prod.fst := by
  obtain ⟨b, l, rfl⟩ := List.exists_cons_of_ne_nil h
  exact List.mem_cons_self

theorem first_append : first (l ++ m) z = first l (first m z) := by
  cases l with
  | nil => rfl
  | cons b l => rfl

end First

namespace Threaded

variable {next next' : A → A} {val val' : A → V} {l m : List (A × V)}
variable {b c : A × V} {z : A}

theorem append_iff : Threaded next val (l ++ m) z ↔
    Threaded next val l (first m z) ∧ Threaded next val m z := by
  induction l with
  | nil => simp [Threaded]
  | cons b l ih =>
      simp only [List.cons_append, Threaded, ih, first_append, and_assoc]

/-- Only the nodes of the list matter. -/
theorem congr (h : Threaded next val l z)
    (heq : ∀ b ∈ l, next' b.1 = next b.1 ∧ val' b.1 = val b.1) :
    Threaded next' val' l z := by
  induction l with
  | nil => trivial
  | cons b l ih =>
      rw [List.forall_mem_cons] at heq
      refine ⟨heq.1.1.trans h.1, heq.1.2.trans h.2.1, ih h.2.2 heq.2⟩

theorem val_eq (h : Threaded next val l z) (hb : b ∈ l) : val b.1 = b.2 := by
  obtain ⟨l₁, l₂, rfl⟩ := List.append_of_mem hb
  exact (append_iff.mp h).2.2.1

theorem next_eq (h : Threaded next val (l ++ b :: m) z) :
    next b.1 = first m z :=
  (append_iff.mp h).2.1

/-- A circular list may be started at any node. -/
theorem rotate (h : Threaded next val (l ++ b :: m)
      (first (l ++ b :: m) z)) :
    Threaded next val (b :: m ++ l) b.1 := by
  rw [append_iff] at h ⊢
  refine ⟨?_, h.1⟩
  rw [first_append] at h
  exact h.2

/-- The node behind `l`. -/
theorem iterate_eq (h : Threaded next val (l ++ b :: m) z) :
    next^[l.length] (first (l ++ b :: m) z) = b.1 := by
  induction l with
  | nil => rfl
  | cons c l ih =>
      have hnext : next c.1 = first (l ++ b :: m) z := h.1
      rw [List.cons_append, first_cons, List.length_cons,
        Function.iterate_succ_apply, hnext]
      exact ih h.2.2

theorem next_mem (h : Threaded next val l (first l z)) {a : A}
    (ha : a ∈ l.map Prod.fst) : next a ∈ l.map Prod.fst := by
  obtain ⟨b, hb, rfl⟩ := List.mem_map.mp ha
  obtain ⟨l₁, l₂, rfl⟩ := List.append_of_mem hb
  rw [h.next_eq]
  by_cases hlast : l₂ = []
  · subst hlast
    exact first_mem (by simp)
  · have hmem := first_mem (z := first (l₁ ++ b :: l₂) z) hlast
    rw [List.map_append, List.map_cons]
    exact List.mem_append_right _ (List.mem_cons_of_mem _ hmem)

/-- From any node of a circular list one comes to its nodes, and to no other
address. -/
theorem exists_iterate_iff (h : Threaded next val l (first l z)) {a : A}
    (ha : a ∈ l.map Prod.fst) {c : A} :
    (∃ k, next^[k] a = c) ↔ c ∈ l.map Prod.fst := by
  constructor
  · rintro ⟨k, rfl⟩
    induction k with
    | zero => exact ha
    | succ k ih =>
        rw [Function.iterate_succ_apply']
        exact h.next_mem ih
  · intro hc
    obtain ⟨b, hb, rfl⟩ := List.mem_map.mp ha
    obtain ⟨l₁, l₂, rfl⟩ := List.append_of_mem hb
    have hring := h.rotate
    have hmem : c ∈ (b :: l₂ ++ l₁).map Prod.fst := by
      simp only [List.map_append, List.map_cons, List.mem_append,
        List.mem_cons] at hc ⊢
      tauto
    obtain ⟨d, hd, rfl⟩ := List.mem_map.mp hmem
    obtain ⟨m₁, m₂, hsplit⟩ := List.append_of_mem hd
    have hstart : first (m₁ ++ d :: m₂) b.1 = b.1 := by
      rw [← hsplit]
      rfl
    rw [hsplit] at hring
    refine ⟨m₁.length, ?_⟩
    have := hring.iterate_eq
    rwa [hstart] at this

/-- In a circular list the node before `c` is the only one that points
to `c`. -/
theorem eq_of_next_eq (h : Threaded next val (l ++ b :: c :: m)
      (first (l ++ b :: c :: m) z))
    (hnodup : ((l ++ b :: c :: m).map Prod.fst).Nodup) {d : A × V}
    (hd : d ∈ l ++ b :: c :: m) (hnext : next d.1 = c.1) : d.1 = b.1 := by
  have hsplit : l ++ b :: c :: m = l ++ [b] ++ c :: m := by simp
  rw [hsplit] at h hnodup hd
  have hring : Threaded next val (c :: (m ++ l) ++ [b]) c.1 := by
    simpa using h.rotate
  have hcomm : (l ++ [b] ++ c :: m).Perm (c :: m ++ (l ++ [b])) :=
    List.perm_append_comm
  have hc : c.1 ∉ (m ++ l ++ [b]).map Prod.fst := by
    have hperm : ((l ++ [b] ++ c :: m).map Prod.fst).Perm
        ((c :: (m ++ l ++ [b])).map Prod.fst) := by
      simpa using hcomm.map Prod.fst
    rw [hperm.nodup_iff, List.map_cons, List.nodup_cons] at hnodup
    exact hnodup.1
  have hd' : d ∈ c :: (m ++ l) ∨ d = b := by
    simp only [List.mem_append, List.mem_cons, List.not_mem_nil, or_false]
      at hd ⊢
    tauto
  rcases hd' with hd' | rfl
  · -- Otherwise the successor of `d` is another node behind `c`.
    obtain ⟨e, f, hef⟩ := List.append_of_mem hd'
    rw [hef, List.append_assoc, List.cons_append] at hring
    have hsub : f ⊆ m ++ l := by
      intro x hx
      cases e with
      | nil =>
          rw [(List.cons.inj hef).2]
          exact hx
      | cons y e =>
          rw [(List.cons.inj hef).2]
          exact List.mem_append_right e (List.mem_cons_of_mem d hx)
    have hmem : c.1 ∈ (f ++ [b]).map Prod.fst := by
      rw [← hnext, hring.next_eq]
      exact first_mem (by simp)
    have hsub' : f ++ [b] ⊆ m ++ l ++ [b] :=
      List.append_subset.mpr ⟨List.subset_append_of_subset_left [b] hsub,
        List.subset_append_right ..⟩
    exact absurd (List.map_subset Prod.fst hsub' hmem) hc
  · rfl

end Threaded

end ZtlOs.Support
