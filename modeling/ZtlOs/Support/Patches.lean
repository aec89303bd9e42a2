import Mathlib.Data.List.Basic
import Mathlib.Tactic.Common

/-!
# Patches of a memory

A patch gives new values to some addresses.  Where several patches are applied
one after the other, an address has the value from the last patch that covers
it.
-/

namespace ZtlOs.Support

variable {A β : Type*}

/-- New values for some addresses. -/
abbrev Patch (A β : Type*) := A → Option β

namespace Patch

/-- The memory after the patch. -/
def apply (p : Patch A β) (mem : A → β) : A → β :=
  fun a => (p a).getD (mem a)

/-- The memory after the patches, from the first to the last. -/
def applyAll (ps : List (Patch A β)) (mem : A → β) : A → β :=
  ps.foldl (fun m p => p.apply m) mem

/-- What the last patch that covers an address gives to it. -/
def last : List (Patch A β) → Patch A β
  | [] => fun _ => none
  | p :: ps => fun a => (last ps a).or (p a)

variable {p q : Patch A β} {ps qs : List (Patch A β)} {mem : A → β} {a : A}
variable {v : β}

theorem apply_of_none (h : p a = none) : p.apply mem a = mem a := by
  rw [apply, h, Option.getD_none]

theorem apply_of_some (h : p a = some v) : p.apply mem a = v := by
  rw [apply, h, Option.getD_some]

/-- Of two patches the second one counts. -/
theorem apply_apply : q.apply (p.apply mem) =
    apply (fun a => (q a).or (p a)) mem := by
  funext a
  cases hq : q a with
  | none => simp [apply, hq]
  | some v => simp [apply, hq]

theorem applyAll_eq : applyAll ps mem = (last ps).apply mem := by
  induction ps generalizing mem with
  | nil => rfl
  | cons p ps ih =>
      rw [applyAll, List.foldl_cons, ← applyAll, ih, apply_apply]
      rfl

theorem last_cons : last (p :: ps) a = (last ps a).or (p a) :=
  rfl

theorem last_append : last (ps ++ qs) a = (last qs a).or (last ps a) := by
  induction ps with
  | nil => simp [last]
  | cons p ps ih => rw [List.cons_append, last_cons, ih, last_cons, Option.or_assoc]

theorem last_eq_none (h : ∀ p ∈ ps, p a = none) : last ps a = none := by
  induction ps with
  | nil => rfl
  | cons p ps ih =>
      rw [List.forall_mem_cons] at h
      rw [last_cons, ih h.2, h.1, Option.none_or]

/-- Patches that agree at an address. -/
theorem last_map_congr {ι : Type*} {f g : ι → Patch A β} {is : List ι}
    (h : ∀ i ∈ is, f i a = g i a) : last (is.map f) a = last (is.map g) a := by
  induction is with
  | nil => rfl
  | cons i is ih =>
      rw [List.forall_mem_cons] at h
      rw [List.map_cons, List.map_cons, last_cons, last_cons, ih h.2, h.1]

/-- An address keeps the value from `p` if the later patches that cover it end
up with this value. -/
theorem applyAll_eq_iff (hp : p a = some v) :
    applyAll (ps ++ p :: qs) mem a = v ↔ ∀ w, last qs a = some w → w = v := by
  rw [applyAll_eq, apply, last_append, last_cons, hp]
  cases last qs a with
  | none => simp
  | some w => simp

end Patch

end ZtlOs.Support
