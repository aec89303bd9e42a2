import Mathlib.Data.List.Basic
import Mathlib.Logic.Function.Basic

/-!
# Maps kept in slots

A table of slots, each of which is free or binds a key to a value, stands for
a finite map.  A new binding takes the first free slot; a removed one leaves a
free slot behind.
-/

namespace ZtlOs.Support.Bindings

variable {K V : Type} {l : List (Option (K × V))} {i j : ℕ} {k k' : K}
variable {v w : V}

/-- Slot `i` binds `k` to `v`. -/
def Binds (l : List (Option (K × V))) (i : ℕ) (k : K) (v : V) : Prop :=
  l[i]? = some (some (k, v))

/-- Slot `i` is free. -/
def Free (l : List (Option (K × V))) (i : ℕ) : Prop :=
  l[i]? = some none

/-- No key is bound twice. -/
def Distinct (l : List (Option (K × V))) : Prop :=
  ∀ i j k v w, Binds l i k v → Binds l j k w → i = j

/-- The first free slot, or the number of slots. -/
def firstFree (l : List (Option (K × V))) : ℕ :=
  l.findIdx Option.isNone

/-- The new binding goes into slot `i`, which may be one behind the last. -/
def place (l : List (Option (K × V))) (i : ℕ) (b : Option (K × V)) :
    List (Option (K × V)) :=
  if i < l.length then l.set i b else l ++ [b]

theorem firstFree_le : firstFree l ≤ l.length :=
  List.findIdx_le_length

theorem free_firstFree (h : firstFree l < l.length) : Free l (firstFree l) := by
  have hnone : (l[firstFree l]).isNone = true := List.findIdx_getElem
  rw [Free, List.getElem?_eq_getElem h, Option.isNone_iff_eq_none.mp hnone]

theorem firstFree_lt_length : firstFree l < l.length ↔ none ∈ l := by
  rw [firstFree, List.findIdx_lt_length]
  constructor
  · rintro ⟨b, hb, hnone⟩
    rwa [← Option.isNone_iff_eq_none.mp hnone]
  · intro hmem
    exact ⟨none, hmem, rfl⟩

theorem lt_length_of_binds (h : Binds l i k v) : i < l.length :=
  (List.getElem?_eq_some_iff.mp h).1

/-- A slot binds one key to one value. -/
theorem Binds.eq (h : Binds l i k v) (h' : Binds l i k' w) :
    k = k' ∧ v = w :=
  Prod.mk.inj (Option.some.inj (Option.some.inj (h.symm.trans h')))

/-- Free slots behind the others bind nothing. -/
theorem binds_append_free {m : ℕ} :
    Binds (l ++ List.replicate m none) i k v ↔ Binds l i k v := by
  unfold Binds
  by_cases hi : i < l.length
  · rw [List.getElem?_append_left hi]
  · rw [List.getElem?_append_right (by omega), List.getElem?_replicate,
      List.getElem?_eq_none (by omega)]
    split <;> simp

/-- The first free slot has no free slot before it. -/
theorem firstFree_eq_of_free (hi : Free l i)
    (hbefore : ∀ j < i, ¬Free l j) : firstFree l = i := by
  obtain ⟨hlt, hnone⟩ := List.getElem?_eq_some_iff.mp hi
  rw [firstFree, List.findIdx_eq hlt]
  refine ⟨by rw [hnone]; rfl, fun j hj => ?_⟩
  rw [Option.isNone_eq_false_iff, Option.isSome_iff_ne_none]
  intro hjn
  apply hbefore j hj
  rw [Free, List.getElem?_eq_getElem (by omega), hjn]

theorem firstFree_eq_length (h : ∀ i, ¬Free l i) :
    firstFree l = l.length := by
  by_contra hne
  exact h _ (free_firstFree (Nat.lt_of_le_of_ne firstFree_le hne))

/-- No two slots have the same key. -/
theorem distinct_of_keys (h : ∀ i < l.length, ∀ j < l.length,
    l[i]?.join.map Prod.fst = l[j]?.join.map Prod.fst → i = j) :
    Distinct l := by
  intro i j k v w hi hj
  apply h i (lt_length_of_binds hi) j (lt_length_of_binds hj)
  rw [show l[i]? = some (some (k, v)) from hi,
    show l[j]? = some (some (k, w)) from hj]
  rfl

/-! ## Writing one slot -/

theorem binds_place {b : Option (K × V)} (hi : i ≤ l.length) :
    Binds (place l i b) j k v ↔
      if j = i then b = some (k, v) else Binds l j k v := by
  unfold place Binds
  split
  · next hlt =>
      rw [List.getElem?_set]
      by_cases hji : j = i
      · subst hji
        rw [if_pos rfl, if_pos hlt, if_pos rfl, Option.some.injEq]
      · rw [if_neg (Ne.symm hji), if_neg hji]
  · next hge =>
      obtain rfl : i = l.length := by omega
      by_cases hji : j = l.length
      · subst hji
        rw [if_pos rfl, List.getElem?_append_right (Nat.le_refl _), Nat.sub_self]
        exact Option.some_inj
      · rw [if_neg hji]
        by_cases hlt : j < l.length
        · rw [List.getElem?_append_left hlt]
        · rw [List.getElem?_eq_none (by simp; omega),
            List.getElem?_eq_none (by omega)]

theorem length_place {b : Option (K × V)} : (place l i b).length =
    if i < l.length then l.length else l.length + 1 := by
  unfold place
  split
  · exact List.length_set
  · exact List.length_append

theorem distinct_place_none (h : Distinct l) (hi : i ≤ l.length) :
    Distinct (place l i none) := by
  intro a b k' v' w ha hb
  rw [binds_place hi] at ha hb
  split at ha
  · cases ha
  · split at hb
    · cases hb
    · exact h a b k' v' w ha hb

/-! ## The map -/

section Lookup

variable [DecidableEq K]

/-- The map of the table. -/
def lookup (l : List (Option (K × V))) (k : K) : Option V :=
  l.findSome? fun b => b.bind fun kv => if kv.1 = k then some kv.2 else none

theorem exists_binds_of_lookup (h : lookup l k = some v) :
    ∃ i, Binds l i k v := by
  obtain ⟨b, hb, hkv⟩ := List.exists_of_findSome?_eq_some h
  obtain ⟨kv, rfl, hif⟩ := Option.bind_eq_some_iff.mp hkv
  split at hif
  · next hk =>
      obtain ⟨i, hi⟩ := List.getElem?_of_mem hb
      refine ⟨i, ?_⟩
      rw [Binds, hi, ← hk, ← Option.some.inj hif]
  · cases hif

theorem lookup_eq_none : lookup l k = none ↔ ∀ i v, ¬Binds l i k v := by
  constructor
  · intro h i v hb
    have hmem := List.mem_of_getElem? hb
    have hnone := List.findSome?_eq_none_iff.mp h _ hmem
    simp at hnone
  · intro h
    cases hl : lookup l k with
    | none => rfl
    | some v =>
        obtain ⟨i, hi⟩ := exists_binds_of_lookup hl
        exact absurd hi (h i v)

/-- The first binding of a key is what the map says of it. -/
theorem lookup_of_first (hi : Binds l i k v)
    (hbefore : ∀ j < i, ∀ w, ¬Binds l j k w) : lookup l k = some v := by
  obtain ⟨hlt, hb⟩ := List.getElem?_eq_some_iff.mp hi
  rw [lookup, List.findSome?_eq_some_iff]
  refine ⟨l.take i, l[i], l.drop (i + 1), ?_, ?_, fun b hmem => ?_⟩
  · rw [← List.drop_eq_getElem_cons hlt, List.take_append_drop]
  · rw [hb, Option.bind_some, if_pos rfl]
  · obtain ⟨j, hj, rfl⟩ := List.mem_take_iff_getElem.mp hmem
    have hji : j < i := by omega
    rw [Option.bind_eq_none_iff]
    rintro ⟨k', w⟩ hkv
    refine if_neg ?_
    rintro rfl
    exact hbefore j hji w
      ((List.getElem?_eq_getElem (by omega)).trans (congrArg some hkv))

/-- A binding is what the map says of its key. -/
theorem lookup_eq_some (h : Distinct l) :
    lookup l k = some v ↔ ∃ i, Binds l i k v := by
  refine ⟨exists_binds_of_lookup, ?_⟩
  rintro ⟨i, hi⟩
  cases hl : lookup l k with
  | none => exact absurd hi (lookup_eq_none.mp hl i v)
  | some w =>
      obtain ⟨j, hj⟩ := exists_binds_of_lookup hl
      obtain rfl := h i j k v w hi hj
      rw [Binds, hi] at hj
      obtain ⟨-, rfl⟩ := Prod.mk.inj (Option.some.inj (Option.some.inj hj))
      rfl

/-- Two tables without double keys that bind the same have the same map. -/
theorem lookup_eq_iff (h : Distinct l) {m : K → Option V}
    (hm : ∀ k v, m k = some v ↔ ∃ i, Binds l i k v) : lookup l = m := by
  funext k
  apply Option.ext
  intro v
  rw [lookup_eq_some h, hm]

/-! ### Adding and removing a binding -/

/-- A key that is not bound gets a binding. -/
theorem distinct_place_some (h : Distinct l) (hi : i ≤ l.length)
    (hk : lookup l k = none) : Distinct (place l i (some (k, v))) := by
  have hnot := lookup_eq_none.mp hk
  intro a b k' v' w ha hb
  rw [binds_place hi] at ha hb
  split at ha <;> split at hb
  · next hai hbi => rw [hai, hbi]
  · obtain ⟨rfl, -⟩ := Prod.mk.inj (Option.some.inj ha)
    exact absurd hb (hnot _ _)
  · obtain ⟨rfl, -⟩ := Prod.mk.inj (Option.some.inj hb)
    exact absurd ha (hnot _ _)
  · exact h a b k' v' w ha hb

theorem lookup_place_some (h : Distinct l) (hi : i ≤ l.length)
    (hfree : ∀ k w, ¬Binds l i k w) (hk : lookup l k = none) :
    lookup (place l i (some (k, v))) =
      Function.update (lookup l) k (some v) := by
  apply lookup_eq_iff (distinct_place_some h hi hk)
  intro k' w
  by_cases hkk : k' = k
  · subst hkk
    rw [Function.update_self]
    constructor
    · intro hvw
      refine ⟨i, (binds_place hi).mpr ?_⟩
      rw [if_pos rfl, Option.some.inj hvw]
    · rintro ⟨j, hj⟩
      rw [binds_place hi] at hj
      split at hj
      · rw [(Prod.mk.inj (Option.some.inj hj)).2]
      · exact absurd hj (lookup_eq_none.mp hk _ _)
  · rw [Function.update_of_ne hkk, lookup_eq_some h]
    constructor
    · rintro ⟨j, hj⟩
      refine ⟨j, (binds_place hi).mpr ?_⟩
      have hji : j ≠ i := by
        rintro rfl
        exact hfree _ _ hj
      rwa [if_neg hji]
    · rintro ⟨j, hj⟩
      rw [binds_place hi] at hj
      split at hj
      · exact absurd (Prod.mk.inj (Option.some.inj hj)).1.symm hkk
      · exact ⟨j, hj⟩

/-- A slot is freed. -/
theorem lookup_place_none (h : Distinct l) (hb : Binds l i k v) :
    lookup (place l i none) = Function.update (lookup l) k none := by
  have hi : i ≤ l.length := Nat.le_of_lt (lt_length_of_binds hb)
  apply lookup_eq_iff (distinct_place_none h hi)
  intro k' w
  by_cases hkk : k' = k
  · subst hkk
    rw [Function.update_self]
    refine iff_of_false (Option.some_ne_none _).symm ?_
    rintro ⟨j, hj⟩
    rw [binds_place hi] at hj
    split at hj
    · cases hj
    · next hji => exact hji (h j i k' w v hj hb)
  · rw [Function.update_of_ne hkk, lookup_eq_some h]
    constructor
    · rintro ⟨j, hj⟩
      refine ⟨j, (binds_place hi).mpr ?_⟩
      have hji : j ≠ i := by
        rintro rfl
        rw [Binds, hb] at hj
        exact hkk (Prod.mk.inj (Option.some.inj (Option.some.inj hj))).1.symm
      rwa [if_neg hji]
    · rintro ⟨j, hj⟩
      rw [binds_place hi] at hj
      split at hj
      · cases hj
      · exact ⟨j, hj⟩

end Lookup

end ZtlOs.Support.Bindings
