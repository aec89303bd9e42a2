import Mathlib.Data.BitVec
import Mathlib.Tactic.Common

/-!
# Ring buffers with wrapping counters

A queue kept in an array of `size` cells by two counters of `w` bits that only
count up and wrap.  The size divides `2 ^ w`, so that the cell of a count is
the same after the counter has wrapped.
-/

namespace ZtlOs.Support.Ring

variable {α : Type*} {size w : ℕ} [NeZero size]

/-- The cell of a count. -/
def cell (size : ℕ) [NeZero size] (count : BitVec w) : Fin size :=
  Fin.ofNat size count.toNat

/-- The array holds `queue` from the count `nread` on, up to `nwrite`. -/
structure Holds (data : Fin size → α) (nread nwrite : BitVec w)
    (queue : List α) : Prop where
  length_le : queue.length ≤ size
  nwrite_eq : nwrite = nread + BitVec.ofNat w queue.length
  data_eq : ∀ k (h : k < queue.length),
    data (cell size (nread + BitVec.ofNat w k)) = queue[k]

theorem Holds.nil (data : Fin size → α) (count : BitVec w) :
    Holds data count count [] where
  length_le := Nat.zero_le _
  nwrite_eq := by simp
  data_eq k h := by simp at h

theorem add_ofNat_inj {count : BitVec w} {i j : ℕ} (hi : i < 2 ^ w)
    (hj : j < 2 ^ w)
    (h : count + BitVec.ofNat w i = count + BitVec.ofNat w j) : i = j := by
  have hij : BitVec.ofNat w i = BitVec.ofNat w j := by
    simpa using congrArg (· - count) h
  have hnat := congrArg BitVec.toNat hij
  rwa [BitVec.toNat_ofNat, BitVec.toNat_ofNat, Nat.mod_eq_of_lt hi,
    Nat.mod_eq_of_lt hj] at hnat

/-- Counts less than `size` apart have different cells. -/
theorem cell_add_inj (hsize : size ∣ 2 ^ w) {count : BitVec w} {i j : ℕ}
    (hi : i < size) (hj : j < size)
    (h : cell size (count + BitVec.ofNat w i) =
      cell size (count + BitVec.ofNat w j)) : i = j := by
  have hmod : (count.toNat + i) % size = (count.toNat + j) % size := by
    have := congrArg Fin.val h
    simp only [cell, Fin.val_ofNat, BitVec.toNat_add, BitVec.toNat_ofNat,
      Nat.add_mod_mod, Nat.mod_mod_of_dvd _ hsize] at this
    exact this
  have hmod' : i ≡ j [MOD size] := Nat.ModEq.add_left_cancel' count.toNat hmod
  rwa [Nat.ModEq, Nat.mod_eq_of_lt hi, Nat.mod_eq_of_lt hj] at hmod'

variable {data : Fin size → α} {nread nwrite : BitVec w} {queue : List α}
variable {x : α}

/-- The counters are equal exactly when the queue is empty. -/
theorem Holds.eq_iff_nil (h : Holds data nread nwrite queue)
    (hlt : size < 2 ^ w) : nread = nwrite ↔ queue = [] := by
  constructor
  · intro heq
    have hsame : nread + BitVec.ofNat w 0 =
        nread + BitVec.ofNat w queue.length := by
      rw [← h.nwrite_eq, ← heq]
      simp
    have hzero := add_ofNat_inj (by omega) (h.length_le.trans_lt hlt) hsame
    exact List.length_eq_zero_iff.mp hzero.symm
  · rintro rfl
    simpa using h.nwrite_eq.symm

/-- The counters are `size` apart exactly when the queue is full. -/
theorem Holds.eq_add_iff_full (h : Holds data nread nwrite queue)
    (hlt : size < 2 ^ w) :
    nwrite = nread + BitVec.ofNat w size ↔ queue.length = size := by
  rw [h.nwrite_eq]
  constructor
  · exact add_ofNat_inj (h.length_le.trans_lt hlt) hlt
  · intro heq
    rw [heq]

theorem Holds.push (h : Holds data nread nwrite queue) (hsize : size ∣ 2 ^ w)
    (hroom : queue.length < size) :
    Holds (Function.update data (cell size nwrite) x) nread (nwrite + 1)
      (queue ++ [x]) where
  length_le := by
    rw [List.length_append]
    exact hroom
  nwrite_eq := by
    rw [h.nwrite_eq, List.length_append, List.length_singleton,
      BitVec.ofNat_add, BitVec.add_assoc]
    rfl
  data_eq k hk := by
    rw [h.nwrite_eq]
    by_cases hlast : k = queue.length
    · subst hlast
      rw [Function.update_self]
      simp
    · have hlt : k < queue.length := by
        rw [List.length_append, List.length_singleton] at hk
        omega
      have hne : cell size (nread + BitVec.ofNat w k) ≠
          cell size (nread + BitVec.ofNat w queue.length) := fun e =>
        hlast (cell_add_inj hsize (hlt.trans hroom) hroom e)
      rw [Function.update_of_ne hne, h.data_eq k hlt,
        List.getElem_append_left hlt]

theorem Holds.pop (h : Holds data nread nwrite (x :: queue)) :
    data (cell size nread) = x ∧ Holds data (nread + 1) nwrite queue := by
  have hshift : ∀ k : ℕ, nread + 1 + BitVec.ofNat w k =
      nread + BitVec.ofNat w (k + 1) := by
    intro k
    rw [BitVec.ofNat_add, BitVec.add_assoc,
      BitVec.add_comm (1 : BitVec w) (BitVec.ofNat w k)]
    rfl
  constructor
  · calc data (cell size nread)
        = data (cell size (nread + BitVec.ofNat w 0)) := by simp
      _ = x := h.data_eq 0 (by simp)
  · exact
      { length_le := Nat.le_of_succ_le h.length_le
        nwrite_eq := by rw [h.nwrite_eq, hshift, List.length_cons]
        data_eq := by
          intro k hk
          rw [hshift, h.data_eq (k + 1) (by simpa using hk)]
          rfl }

/-- The counters are as far apart as the queue is long. -/
theorem Holds.toNat_sub (h : Holds data nread nwrite queue)
    (hlt : size < 2 ^ w) : (nwrite - nread).toNat = queue.length := by
  have hsub : nwrite - nread = BitVec.ofNat w queue.length := by
    rw [h.nwrite_eq, BitVec.add_comm, BitVec.add_sub_cancel]
  rw [hsub, BitVec.toNat_ofNat, Nat.mod_eq_of_lt (h.length_le.trans_lt hlt)]

/-- The element that was put in last can be taken back. -/
theorem Holds.unpush (h : Holds data nread nwrite (queue ++ [x])) :
    data (cell size (nwrite - 1)) = x ∧ Holds data nread (nwrite - 1) queue := by
  have hback : nwrite - 1 = nread + BitVec.ofNat w queue.length := by
    rw [h.nwrite_eq, List.length_append, List.length_singleton,
      BitVec.ofNat_add, ← BitVec.add_assoc]
    exact BitVec.add_sub_cancel _ _
  have hlen : queue.length < (queue ++ [x]).length := by simp
  constructor
  · rw [hback, h.data_eq queue.length hlen]
    simp
  · exact
      { length_le := hlen.le.trans h.length_le
        nwrite_eq := hback
        data_eq := by
          intro k hk
          rw [h.data_eq k (hk.trans hlen), List.getElem_append_left hk] }

end ZtlOs.Support.Ring
