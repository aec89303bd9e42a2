import Mathlib.Data.BitVec
import Mathlib.Tactic.Abel
import ZtlOs.Memory.Layout
import ZtlOs.Support.Copying

/-!
# memmove

The kernel has a `memmove` in `string.c` and the user library one in `ulib.c`.
The kernel chooses the direction of its loop from the two pointers; the user
library always copies upwards.
-/

namespace ZtlOs

open ZtlOs.Memory ZtlOs.Support

section Loops

variable {A : Type*} [DecidableEq A]

/-- `while(n-- > 0) *dst++ = *src++;` -/
def copyUp [Add A] [One A] (mem : A → BitVec 8) (dst src : A) :
    ℕ → (A → BitVec 8)
  | 0 => mem
  | n + 1 =>
      copyUp (Function.update mem dst (mem src)) (dst + 1) (src + 1) n

/-- `while(n-- > 0) *--d = *--s;` -/
def copyDown [Sub A] [One A] (mem : A → BitVec 8) (d s : A) :
    ℕ → (A → BitVec 8)
  | 0 => mem
  | n + 1 =>
      let d := d - 1
      let s := s - 1
      copyDown (Function.update mem d (mem s)) d s n

end Loops

/-- `memmove` of `string.c`; the result is `dst` and the memory. -/
def Memory.memmove (mem : Word → BitVec 8) (dst src n : Word) :
    Word × (Word → BitVec 8) :=
  let s := src
  let d := dst
  if s < d ∧ s + n > d then
    let s := s + n
    let d := d + n
    (dst, copyDown mem d s n.toNat)
  else
    (dst, copyUp mem d s n.toNat)

/-- `memmove` of `ulib.c`; here `n` is an `int`. -/
def Ulib.memmove {A : Type*} [DecidableEq A] [Add A] [One A]
    (mem : A → BitVec 8) (vdst vsrc : A) (n : ℤ) : A × (A → BitVec 8) :=
  (vdst, copyUp mem vdst vsrc n.toNat)

/-! ## The loops as sequences of copies -/

section Sequences

variable {A : Type*} [DecidableEq A] {mem : A → BitVec 8} {dst src : A}

theorem copyUp_eq [AddCommMonoidWithOne A] (n : ℕ) :
    copyUp mem dst src n =
      copySeq mem (fun i => dst + (i : A)) (fun i => src + (i : A)) n := by
  induction n generalizing mem dst src with
  | zero => rfl
  | succ n ih =>
      have hshift : ∀ (a : A) (i : ℕ), a + 1 + i = a + (i + 1 : ℕ) := by
        intro a i
        rw [Nat.cast_succ, add_assoc, add_comm 1]
      rw [copyUp, ih, copySeq_succ_left]
      simp only [Nat.cast_zero, add_zero, hshift]

theorem copyDown_eq [AddCommGroupWithOne A] (n : ℕ) :
    copyDown mem dst src n =
      copySeq mem (fun i => dst - (i + 1 : ℕ)) (fun i => src - (i + 1 : ℕ))
        n := by
  induction n generalizing mem dst src with
  | zero => rfl
  | succ n ih =>
      have hshift : ∀ (a : A) (i : ℕ),
          a - 1 - (i + 1 : ℕ) = a - (i + 1 + 1 : ℕ) := by
        intro a i
        rw [Nat.cast_succ (i + 1), sub_sub, add_comm 1]
      rw [copyDown, ih, copySeq_succ_left]
      simp only [zero_add, Nat.cast_one, hshift]

end Sequences

/-! ## The two functions -/

namespace Memory

variable {mem : Word → BitVec 8} {dst src n : Word}

/-- `dst[0..n)` holds what `src[0..n)` held, and all other bytes are as they
were. -/
abbrev Copies (mem : Word → BitVec 8) (dst src n : Word)
    (mem' : Word → BitVec 8) : Prop :=
  Copied mem (fun i => dst + (i : Word)) (fun i => src + (i : Word)) n.toNat
    mem'

section NoWrap

variable (hsrc : src.toNat + n.toNat ≤ 2 ^ 32)
variable (hdst : dst.toNat + n.toNat ≤ 2 ^ 32)
include hdst

theorem dst_injective : ∀ i < n.toNat, ∀ j < n.toNat,
    dst + (i : Word) = dst + (j : Word) → i = j := by
  intro i hi j hj heq
  have := (add_natCast_eq_iff (by omega) (by omega)).mp heq
  omega

include hsrc

/-- The upward loop is right where it does not overtake its source. -/
theorem copyUp_copies
    (h : dst.toNat ≤ src.toNat ∨ src.toNat + n.toNat ≤ dst.toNat) :
    Copies mem dst src n (copyUp mem dst src n.toNat) := by
  rw [copyUp_eq]
  apply copied_of_unread (dst_injective hdst)
  intro i hi j hj heq
  have := (add_natCast_eq_iff (by omega) (by omega)).mp heq
  omega

theorem copyDown_copies (h : src.toNat ≤ dst.toNat) :
    Copies mem dst src n (copyDown mem (dst + n) (src + n) n.toNat) := by
  -- Step `i` of the downward loop copies the element `n - (i + 1)`.
  have hback : ∀ (a : Word), ∀ i < n.toNat,
      a + n - (i + 1 : ℕ) = a + (n.toNat - (i + 1) : ℕ) := by
    intro a i hi
    have hn : (n.toNat : Word) = n := by simp
    rw [Nat.cast_sub hi, hn, add_sub_assoc]
  have hseq : Copied mem (fun i => dst + n - (i + 1 : ℕ))
      (fun i => src + n - (i + 1 : ℕ)) n.toNat
      (copyDown mem (dst + n) (src + n) n.toNat) := by
    rw [copyDown_eq]
    apply copied_of_unread
    · intro i hi j hj heq
      simp only [hback _ i hi, hback _ j hj] at heq
      have := dst_injective hdst _ (by omega) _ (by omega) heq
      omega
    · intro i hi j hj heq
      simp only [hback _ i hi, hback _ j (by omega)] at heq
      have := (add_natCast_eq_iff (by omega) (by omega)).mp heq
      omega
  apply hseq.reindex
  · intro i hi
    refine ⟨n.toNat - (i + 1), by omega, ?_, ?_⟩
    · simp only [hback _ _ (show n.toNat - (i + 1) < n.toNat by omega)]
      congr 2
      omega
    · simp only [hback _ _ (show n.toNat - (i + 1) < n.toNat by omega)]
      congr 2
      omega
  · intro i hi
    exact ⟨n.toNat - (i + 1), by omega, hback dst i hi⟩

/-- The kernel's `memmove` copies right for every overlap. -/
theorem memmove_copies : Copies mem dst src n (memmove mem dst src n).2 := by
  have hsum : src.toNat + n.toNat < 2 ^ 32 →
      (src + n).toNat = src.toNat + n.toNat := by
    intro hlt
    rw [BitVec.toNat_add, Nat.mod_eq_of_lt hlt]
  simp only [memmove]
  split
  · next hup =>
      have hlt : src.toNat < dst.toNat := BitVec.lt_def.mp hup.1
      exact copyDown_copies hsrc hdst hlt.le
  · next hup =>
      apply copyUp_copies hsrc hdst
      by_contra hover
      push Not at hover
      apply hup
      constructor
      · exact BitVec.lt_def.mpr hover.1
      · apply BitVec.lt_def.mpr
        rw [hsum (by omega)]
        exact hover.2

/-- The user library's `memmove` is right unless the destination begins inside
of the source; then it is right only if the source repeats itself. -/
theorem ulib_memmove_copies_iff (hn : 0 ≤ n.toInt) :
    Copies mem dst src n (Ulib.memmove mem dst src n.toInt).2 ↔
      dst.toNat ≤ src.toNat ∨ src.toNat + n.toNat ≤ dst.toNat ∨
        ∀ i, i + (dst.toNat - src.toNat) < n.toNat →
          mem (src + (i + (dst.toNat - src.toNat) : ℕ)) =
            mem (src + (i : Word)) := by
  have hcount : n.toInt.toNat = n.toNat := by
    have := BitVec.toInt_eq_toNat_cond n
    split at this <;> omega
  simp only [Ulib.memmove, hcount]
  by_cases hover : dst.toNat ≤ src.toNat ∨ src.toNat + n.toNat ≤ dst.toNat
  · refine iff_of_true (copyUp_copies hsrc hdst hover) ?_
    exact hover.imp_right .inl
  · push Not at hover
    rw [copyUp_eq, Copies, copied_iff_periodic (dst_injective hdst)
      (d := dst.toNat - src.toNat) (by omega)]
    · constructor
      · exact fun h => .inr (.inr h)
      · rintro (hle | hle | h)
        · omega
        · omega
        · exact h
    · intro i hi
      exact (add_natCast_eq_iff (by omega) (by omega)).mpr (by omega)
    · intro i hi hid j hj heq
      have := (add_natCast_eq_iff (by omega) (by omega)).mp heq
      omega

end NoWrap

/-- The kernel's `memmove` copies `src[0..n)` to `dst[0..n)` and changes
nothing else; for an `n` that is an `int`, the one of the user library does so
too, and the two agree. -/
def MemmoveCorrect (mem : Word → BitVec 8) (dst src n : Word) : Prop :=
  Copies mem dst src n (memmove mem dst src n).2 ∧
    (0 ≤ n.toInt →
      Copies mem dst src n (Ulib.memmove mem dst src n.toInt).2 ∧
        Ulib.memmove mem dst src n.toInt = memmove mem dst src n)

/-- Both functions copy right exactly if the destination does not begin inside
of the source, or the source repeats itself. -/
theorem memmove_correct_iff (mem : Word → BitVec 8) (dst src n : Word)
    (hsrc : src.toNat + n.toNat ≤ 2 ^ 32)
    (hdst : dst.toNat + n.toNat ≤ 2 ^ 32) :
    MemmoveCorrect mem dst src n ↔
      (0 ≤ n.toInt →
        dst.toNat ≤ src.toNat ∨ src.toNat + n.toNat ≤ dst.toNat ∨
          ∀ i, i + (dst.toNat - src.toNat) < n.toNat →
            mem (src + (i + (dst.toNat - src.toNat) : ℕ)) =
              mem (src + (i : Word))) := by
  have hkernel : Copies mem dst src n (memmove mem dst src n).2 :=
    memmove_copies hsrc hdst
  constructor
  · intro h hn
    exact (ulib_memmove_copies_iff hsrc hdst hn).mp (h.2 hn).1
  · intro h
    refine ⟨hkernel, fun hn => ?_⟩
    have huser := (ulib_memmove_copies_iff hsrc hdst hn).mpr (h hn)
    refine ⟨huser, Prod.ext ?_ (huser.unique hkernel)⟩
    simp only [Ulib.memmove, memmove]
    split <;> rfl

/-- Zeros are copied right, although the destination begins in the source. -/
theorem memmove_correct_zeros :
    MemmoveCorrect (fun _ => 0) 0x1001 0x1000 3 :=
  (memmove_correct_iff (fun _ => 0) 0x1001 0x1000 3 (by decide)
    (by decide)).mpr fun _ => .inr (.inr fun _ _ => rfl)

/-- Two different bytes are not moved up by one byte. -/
theorem memmove_not_always_correct :
    ¬ MemmoveCorrect (fun a => a.setWidth 8) 0x1001 0x1000 2 := by
  intro h
  have hcopied := (h.2 (by decide)).1.copied 1 (by decide)
  revert hcopied
  decide

end Memory

end ZtlOs
