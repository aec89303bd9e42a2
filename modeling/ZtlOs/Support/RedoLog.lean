import Mathlib.Logic.Function.Basic
import Mathlib.Data.List.Basic

/-!
# Redo logs

A redo log keeps on the disk a list of blocks, together with a slot of its own
for the new contents of each of them.  The disk *replays* to some contents of
the other blocks if copying the slots of the list to their blocks leads there.
The lemmas say how the writes of a commit and of a recovery keep this.
-/

namespace ZtlOs.Support

/-- The place of a log on a disk with blocks `B` and contents `D`.  The list
is kept in the block `head`. -/
structure RedoLog (B D : Type*) where
  head : B
  slot : ℕ → B
  capacity : ℕ
  home : B → Prop
  decode : D → List B
  head_not_home : ¬ home head
  slot_not_home : ∀ j, j < capacity → ¬ home (slot j)
  slot_ne_head : ∀ j, slot j ≠ head

namespace RedoLog

variable {B D : Type*} (l : RedoLog B D)

/-- The blocks on the list that is on the disk. -/
def listed (disk : B → D) : List B :=
  l.decode (disk l.head)

/-- Recovery of the disk leads to the contents `target`. -/
structure Replays (disk target : B → D) : Prop where
  length_le : (l.listed disk).length ≤ l.capacity
  home : ∀ b ∈ l.listed disk, l.home b
  slot_eq : ∀ j b, (l.listed disk)[j]? = some b → disk (l.slot j) = target b
  rest_eq : ∀ b, l.home b → b ∉ l.listed disk → disk b = target b

/-- The log is empty and the disk has the contents `target`. -/
structure Settled (disk target : B → D) : Prop where
  listed_eq : l.listed disk = []
  home_eq : ∀ b, l.home b → disk b = target b

variable {l} {disk disk' target target' : B → D} {b : B} {data : D}

theorem Settled.replays (h : l.Settled disk target) :
    l.Replays disk target where
  length_le := by simp [h.listed_eq]
  home b hb := by simp [h.listed_eq] at hb
  slot_eq j b hb := by simp [h.listed_eq] at hb
  rest_eq b hb _ := h.home_eq b hb

theorem Settled.congr (h : l.Settled disk target)
    (heq : ∀ b, l.home b → target b = target' b) : l.Settled disk target' where
  listed_eq := h.listed_eq
  home_eq b hb := (h.home_eq b hb).trans (heq b hb)

theorem Replays.congr (h : l.Replays disk target)
    (heq : ∀ b, l.home b → target b = target' b) :
    l.Replays disk target' where
  length_le := h.length_le
  home := h.home
  slot_eq j b hb :=
    (h.slot_eq j b hb).trans (heq b (h.home b (List.mem_of_getElem? hb)))
  rest_eq b hb hnot := (h.rest_eq b hb hnot).trans (heq b hb)

section Write

variable [DecidableEq B]

theorem listed_update (hb : b ≠ l.head) :
    l.listed (Function.update disk b data) = l.listed disk := by
  rw [listed, listed, Function.update_of_ne hb.symm]

theorem listed_update_head :
    l.listed (Function.update disk l.head data) = l.decode data := by
  rw [listed, Function.update_self]

/-- Outside of a commit, the slots do not matter. -/
theorem Settled.write_slot (h : l.Settled disk target) {j : ℕ}
    (hj : j < l.capacity) :
    l.Settled (Function.update disk (l.slot j) data) target where
  listed_eq := (listed_update (l.slot_ne_head j)).trans h.listed_eq
  home_eq b hb := by
    have hne : b ≠ l.slot j := fun e => l.slot_not_home j hj (e ▸ hb)
    rw [Function.update_of_ne hne]
    exact h.home_eq b hb

/-- The write of the list is the commit point: from here on the disk replays
to the new contents. -/
theorem Settled.write_head (h : l.Settled disk target)
    (hlength : (l.decode data).length ≤ l.capacity)
    (hhome : ∀ b ∈ l.decode data, l.home b)
    (hslot : ∀ j b, (l.decode data)[j]? = some b →
      disk (l.slot j) = target' b)
    (hrest : ∀ b, l.home b → b ∉ l.decode data → target b = target' b) :
    l.Replays (Function.update disk l.head data) target' where
  length_le := by rwa [listed_update_head]
  home := by rwa [listed_update_head]
  slot_eq j b hb := by
    rw [listed_update_head] at hb
    rw [Function.update_of_ne (l.slot_ne_head j)]
    exact hslot j b hb
  rest_eq b hb hnot := by
    rw [listed_update_head] at hnot
    have hne : b ≠ l.head := fun e => l.head_not_home (e ▸ hb)
    rw [Function.update_of_ne hne, h.home_eq b hb]
    exact hrest b hb hnot

/-- Whatever is written to a block of the list, the disk replays to the same
contents. -/
theorem Replays.install (h : l.Replays disk target) (hb : b ∈ l.listed disk) :
    l.Replays (Function.update disk b data) target := by
  have hhome := h.home b hb
  have hhead : b ≠ l.head := fun e => l.head_not_home (e ▸ hhome)
  have hlisted : l.listed (Function.update disk b data) = l.listed disk :=
    listed_update hhead
  refine ⟨hlisted ▸ h.length_le, hlisted ▸ h.home, ?_, ?_⟩
  · intro j c hc
    rw [hlisted] at hc
    have hj : j < l.capacity :=
      Nat.lt_of_lt_of_le (List.getElem?_eq_some_iff.mp hc).1 h.length_le
    have hne : l.slot j ≠ b := fun e => l.slot_not_home j hj (e ▸ hhome)
    rw [Function.update_of_ne hne]
    exact h.slot_eq j c hc
  · intro c hc hnot
    rw [hlisted] at hnot
    have hne : c ≠ b := by
      rintro rfl
      exact hnot hb
    rw [Function.update_of_ne hne]
    exact h.rest_eq c hc hnot

/-- The list can be erased when its blocks have their contents. -/
theorem Replays.erase (h : l.Replays disk target) (hdata : l.decode data = [])
    (hinstalled : ∀ b ∈ l.listed disk, disk b = target b) :
    l.Settled (Function.update disk l.head data) target where
  listed_eq := listed_update_head.trans hdata
  home_eq b hb := by
    have hne : b ≠ l.head := fun e => l.head_not_home (e ▸ hb)
    rw [Function.update_of_ne hne]
    by_cases hmem : b ∈ l.listed disk
    · exact hinstalled b hmem
    · exact h.rest_eq b hb hmem

end Write

end RedoLog

end ZtlOs.Support
