import Mathlib.Data.List.Chain
import Mathlib.Data.List.Nodup
import Mathlib.Logic.Function.Basic

/-!
# Circular doubly linked lists

A list that is threaded through the `next` and `prev` pointers of its elements
and closed by a head element.  The head is `none`, the element `i` is
`some i`.  The two edits are those of a list that keeps its elements in the
order of their last use: take an element out, and put one behind the head.
-/

namespace ZtlOs.Support

variable {ι : Type*}

/-- The pointers of the head and of the elements. -/
structure Links (ι : Type*) where
  next : Option ι → Option ι
  prev : Option ι → Option ι

namespace Links

/-- The two elements point to each other. -/
def Joined (L : Links ι) (a b : Option ι) : Prop :=
  L.next a = b ∧ L.prev b = a

/-- The elements that one meets from the head back to the head. -/
def cycle (l : List ι) : List (Option ι) :=
  none :: (l.map some ++ [none])

/-- The circular list that starts at the head has the elements `l`. -/
def Ring (L : Links ι) (l : List ι) : Prop :=
  (cycle l).IsChain L.Joined

/-- The list read backwards. -/
def swap (L : Links ι) : Links ι where
  next := L.prev
  prev := L.next

section Edit

variable [DecidableEq ι]

def setNext (L : Links ι) (a b : Option ι) : Links ι :=
  { L with next := Function.update L.next a b }

def setPrev (L : Links ι) (a b : Option ι) : Links ι :=
  { L with prev := Function.update L.prev a b }

/-- Take the element `i` out of its list. -/
def unlink (L : Links ι) (i : ι) : Links ι :=
  let L := L.setPrev (L.next (some i)) (L.prev (some i))
  L.setNext (L.prev (some i)) (L.next (some i))

/-- Put the element `i` behind the head. -/
def pushFront (L : Links ι) (i : ι) : Links ι :=
  let L := L.setNext (some i) (L.next none)
  let L := L.setPrev (some i) none
  let L := L.setPrev (L.next none) (some i)
  L.setNext none (some i)

end Edit

/-! ## Walking along the list -/

/-- How a walk along the list ends. -/
inductive Walk (ι : Type*) where
  | found (i : ι)
  /-- The walk is back at the head. -/
  | atHead
  /-- The bound on the number of elements is spent. -/
  | running

/-- Go on from `a` along the pointers `step` to the first element that
satisfies `p`. -/
def walk (step : Option ι → Option ι) (p : ι → Bool) :
    ℕ → Option ι → Walk ι
  | 0, _ => .running
  | _ + 1, none => .atHead
  | fuel + 1, some i =>
      if p i then .found i else walk step p fuel (step (some i))

def Walk.ofFind : Option ι → Walk ι
  | some i => .found i
  | none => .atHead

section Ring

variable {L L' : Links ι} {l l₁ l₂ : List ι} {i : ι}

theorem Ring.first (h : L.Ring l) : L.next none = l.head? := by
  cases l with
  | nil => exact (List.isChain_cons_cons.mp h).1.1
  | cons i l => exact (List.isChain_cons_cons.mp h).1.1

theorem Ring.swap (h : L.Ring l) : L.swap.Ring l.reverse := by
  have hrev : cycle l.reverse = (cycle l).reverse := by
    simp [cycle]
  rw [Ring, hrev, List.isChain_reverse]
  exact List.IsChain.imp (fun _ _ hab => ⟨hab.2, hab.1⟩) h

/-- A walk that starts at an element of the list. -/
theorem walk_eq_of_isChain {a : Option ι} {p : ι → Bool} {fuel : ℕ}
    (h : (a :: (l.map some ++ [none])).IsChain L.Joined)
    (hfuel : l.length < fuel) :
    walk L.next p fuel (L.next a) = .ofFind (l.find? p) := by
  induction l generalizing a fuel with
  | nil =>
      have hend : L.next a = none := (List.isChain_cons_cons.mp h).1.1
      obtain ⟨fuel, rfl⟩ := Nat.exists_eq_succ_of_ne_zero (Nat.ne_of_gt hfuel)
      rw [hend]
      rfl
  | cons i l ih =>
      obtain ⟨hjoin, htail⟩ := List.isChain_cons_cons.mp h
      rw [List.length_cons] at hfuel
      obtain ⟨fuel, rfl⟩ :=
        Nat.exists_eq_succ_of_ne_zero (Nat.ne_of_gt (Nat.zero_lt_of_lt hfuel))
      rw [hjoin.1, walk, List.find?_cons]
      cases hp : p i with
      | true => rfl
      | false => exact ih htail (Nat.lt_of_succ_lt_succ hfuel)

/-- Walking forwards from the head finds the first match. -/
theorem Ring.walk_next (h : L.Ring l) (p : ι → Bool) {fuel : ℕ}
    (hfuel : l.length < fuel) :
    walk L.next p fuel (L.next none) = .ofFind (l.find? p) :=
  walk_eq_of_isChain h hfuel

/-- Walking backwards from the head finds the last match. -/
theorem Ring.walk_prev (h : L.Ring l) (p : ι → Bool) {fuel : ℕ}
    (hfuel : l.length < fuel) :
    walk L.prev p fuel (L.prev none) = .ofFind (l.reverse.find? p) :=
  h.swap.walk_next p (by rwa [List.length_reverse])

/-! ## The two edits -/

variable [DecidableEq ι]

/-- The list around one of its elements. -/
theorem cycle_append_cons (l₁ l₂ : List ι) (i : ι) :
    ∃ pre x y post, cycle (l₁ ++ i :: l₂) = pre ++ x :: some i :: y :: post ∧
      cycle (l₁ ++ l₂) = pre ++ x :: y :: post ∧
      pre ++ [x] = none :: l₁.map some ∧ y :: post = l₂.map some ++ [none] := by
  obtain ⟨pre, x, hpre⟩ : ∃ pre x, pre ++ [x] = none :: l₁.map some := by
    have hne : (none :: l₁.map some) ≠ [] := List.cons_ne_nil _ _
    exact ⟨_, _, List.dropLast_append_getLast hne⟩
  obtain ⟨y, post, hpost⟩ : ∃ y post, y :: post = l₂.map some ++ [none] := by
    cases l₂ with
    | nil => exact ⟨none, [], rfl⟩
    | cons j l₂ => exact ⟨some j, l₂.map some ++ [none], rfl⟩
  refine ⟨pre, x, y, post, ?_, ?_, hpre, hpost⟩
  · have hjoin : pre ++ x :: some i :: y :: post =
        (pre ++ [x]) ++ some i :: (y :: post) := by simp
    rw [hjoin, hpre, hpost]
    simp [cycle]
  · have hjoin : pre ++ x :: y :: post = (pre ++ [x]) ++ (y :: post) := by simp
    rw [hjoin, hpre, hpost]
    simp [cycle]

/-- Taking an element out joins its neighbours. -/
theorem Ring.unlink (h : L.Ring (l₁ ++ i :: l₂))
    (hnodup : (l₁ ++ i :: l₂).Nodup) : (L.unlink i).Ring (l₁ ++ l₂) := by
  obtain ⟨pre, x, y, post, hcycle, hcycle', hpre, hpost⟩ :=
    cycle_append_cons l₁ l₂ i
  have hi₁ : i ∉ l₁ ∧ i ∉ l₂ := by
    have := (List.nodup_middle.mp hnodup)
    simpa [not_or] using (List.nodup_cons.mp this).1
  have hi_pre : some i ∉ pre ++ [x] := by
    rw [hpre]
    simpa using hi₁.1
  have hi_post : some i ∉ y :: post := by
    rw [hpost]
    simpa using hi₁.2
  rw [Ring, hcycle, List.isChain_append_cons_cons, List.isChain_cons_cons]
    at h
  obtain ⟨hleft, ⟨hxi, hix⟩, ⟨hiy, hyi⟩, hright⟩ := h
  have hyne : y ≠ some i := fun heq => hi_post (heq ▸ List.mem_cons_self)
  have hlinks : L.unlink i = (L.setPrev y x).setNext x y := by
    have hprev : (L.setPrev y x).prev (some i) = x := by
      simp only [setPrev, Function.update_of_ne hyne.symm, hix]
    rw [Links.unlink, hiy, hix]
    simp only [hprev]
    rw [setPrev, hiy]
  -- Pairs away from `i` are joined as before.
  have hsame : ∀ a b, a ≠ some i → b ≠ some i → L.Joined a b →
      ((L.setPrev y x).setNext x y).Joined a b := by
    rintro a b ha hb ⟨hab, hba⟩
    have hax : a ≠ x := by
      rintro rfl
      exact hb (hab.symm.trans hxi)
    have hby : b ≠ y := by
      rintro rfl
      exact ha (hba.symm.trans hyi)
    constructor
    · simp only [setNext, setPrev, Function.update_of_ne hax, hab]
    · simp only [setNext, setPrev, Function.update_of_ne hby, hba]
  rw [hlinks, Ring, hcycle', List.isChain_append_cons_cons]
  refine ⟨?_, ⟨?_, ?_⟩, ?_⟩
  · apply hleft.imp_of_mem_imp
    intro a b ha hb
    exact hsame a b (fun heq => hi_pre (heq ▸ ha)) fun heq => hi_pre (heq ▸ hb)
  · simp [setNext]
  · simp [setNext, setPrev]
  · apply hright.imp_of_mem_imp
    intro a b ha hb
    exact hsame a b (fun heq => hi_post (heq ▸ ha))
      fun heq => hi_post (heq ▸ hb)

/-- An element that is not in the list becomes its first one. -/
theorem Ring.pushFront (h : L.Ring l) (hnodup : l.Nodup) (hi : i ∉ l) :
    (L.pushFront i).Ring (i :: l) := by
  obtain ⟨y, rest, hrest⟩ : ∃ y rest, l.map some ++ [none] = y :: rest := by
    cases l with
    | nil => exact ⟨none, [], rfl⟩
    | cons j l => exact ⟨some j, l.map some ++ [none], rfl⟩
  have hi_rest : some i ∉ y :: rest := by
    rw [← hrest]
    simpa using hi
  have hy_rest : y ∉ rest := by
    have hall : (l.map some ++ [none]).Nodup := by
      rw [List.nodup_append]
      refine ⟨hnodup.map (fun _ _ => Option.some.inj), by simp, ?_⟩
      rintro a ha b hb rfl
      simp only [List.mem_singleton] at hb
      subst hb
      simp at ha
    rw [hrest] at hall
    exact (List.nodup_cons.mp hall).1
  rw [Ring, cycle, hrest, List.isChain_cons_cons] at h
  obtain ⟨⟨hnext, -⟩, htail⟩ := h
  have hyne : y ≠ some i := fun heq => hi_rest (heq ▸ List.mem_cons_self)
  have hcycle : cycle (i :: l) = none :: some i :: y :: rest := by
    rw [cycle, List.map_cons, List.cons_append, hrest]
  have hlinks : L.pushFront i =
      { next := Function.update (Function.update L.next (some i) y) none
          (some i)
        prev := Function.update (Function.update L.prev (some i) none) y
          (some i) } := by
    have hhead : Function.update L.next (some i) y none = y := by
      rw [Function.update_of_ne (by simp), hnext]
    simp only [Links.pushFront, setNext, setPrev, hnext, hhead]
  rw [Ring, hcycle, hlinks, List.isChain_cons_cons, List.isChain_cons_cons]
  refine ⟨⟨?_, ?_⟩, ⟨?_, ?_⟩, ?_⟩
  · simp
  · simp [Function.update_of_ne hyne.symm]
  · simp
  · simp
  · apply htail.imp_of_mem_tail_imp
    rintro a b ha hb ⟨hab, hba⟩
    have hb' : b ∈ rest := hb
    have hane : a ≠ none := by
      rintro rfl
      exact hy_rest (hnext ▸ hab ▸ hb')
    have hai : a ≠ some i := fun heq => hi_rest (heq ▸ ha)
    have hbi : b ≠ some i := fun heq =>
      hi_rest (heq ▸ List.mem_cons_of_mem y hb')
    have hby : b ≠ y := fun heq => hy_rest (heq ▸ hb')
    constructor
    · simp only [Function.update_of_ne hane, Function.update_of_ne hai, hab]
    · simp only [Function.update_of_ne hby, Function.update_of_ne hbi, hba]

/-- Elements put behind the head one after the other stand in reverse. -/
theorem Ring.pushFrontAll (h : L.Ring l) (hnodup : (l₁.reverse ++ l).Nodup) :
    (l₁.foldl Links.pushFront L).Ring (l₁.reverse ++ l) := by
  induction l₁ generalizing L l with
  | nil => exact h
  | cons i l₁ ih =>
      rw [List.reverse_cons, List.append_assoc, List.singleton_append]
        at hnodup ⊢
      have htail := (List.nodup_append.mp hnodup).2.1
      obtain ⟨hi, hl⟩ := List.nodup_cons.mp htail
      exact ih (h.pushFront hl hi) hnodup

/-- Moving an element of the list behind the head. -/
theorem Ring.moveFront (h : L.Ring l) (hnodup : l.Nodup) (hi : i ∈ l) :
    ((L.unlink i).pushFront i).Ring (i :: l.erase i) := by
  obtain ⟨l₁, l₂, hnot, rfl, herase⟩ := List.exists_erase_eq hi
  rw [herase]
  have hnodup' : (l₁ ++ l₂).Nodup := herase ▸ hnodup.erase i
  have hi' : i ∉ l₁ ++ l₂ := herase ▸ hnodup.not_mem_erase
  exact (h.unlink hnodup).pushFront hnodup' hi'

end Ring

end Links

end ZtlOs.Support
