import Mathlib.Data.BitVec
import Mathlib.Tactic.Common

/-!
# Addresses, pages and page table entries

The constants and macros of `memlayout.h` and `mmu.h` that the virtual memory
code uses, on 32-bit words.  Each macro comes with its value as a natural
number, which is what the proofs about page tables compute with.
-/

namespace ZtlOs.Memory

/-- An `uint` of the source: an address, a page table entry, a size. -/
abbrev Word := BitVec 32

def EXTMEM : Word := 0x100000#32
def PHYSTOP : Word := 0xE000000#32
def DEVSPACE : Word := 0xFE000000#32
def KERNBASE : Word := 0x80000000#32
def KERNLINK : Word := KERNBASE + EXTMEM

def V2P (a : Word) : Word := a - KERNBASE
def P2V (a : Word) : Word := a + KERNBASE

def PGSIZE : Word := 4096#32
def PDXSHIFT : ℕ := 22
def PTXSHIFT : ℕ := 12

def PDX (va : Word) : Word := (va >>> PDXSHIFT) &&& 0x3FF#32
def PTX (va : Word) : Word := (va >>> PTXSHIFT) &&& 0x3FF#32

def PGROUNDDOWN (a : Word) : Word := a &&& ~~~(PGSIZE - 1)

def PTE_P : Word := 0x001#32
def PTE_W : Word := 0x002#32
def PTE_U : Word := 0x004#32

def PTE_ADDR (pte : Word) : Word := pte &&& ~~~0xFFF#32

/-- The address is the first one of a page. -/
def PageAligned (a : Word) : Prop := a.toNat % 4096 = 0

instance (a : Word) : Decidable (PageAligned a) :=
  inferInstanceAs (Decidable (_ = _))

/-- The present bit of an entry is set. -/
def Present (pte : Word) : Prop := pte &&& PTE_P ≠ 0

instance (pte : Word) : Decidable (Present pte) :=
  inferInstanceAs (Decidable (¬ _))

/-! ## Addresses at a distance -/

theorem toNat_add_natCast {a : Word} {i : ℕ} (h : a.toNat + i < 2 ^ 32) :
    (a + (i : Word)).toNat = a.toNat + i := by
  rw [BitVec.natCast_eq_ofNat, BitVec.toNat_add, BitVec.toNat_ofNat,
    Nat.mod_eq_of_lt (show i < 2 ^ 32 by omega), Nat.mod_eq_of_lt h]

/-- Addresses of two ranges without wrap are compared as numbers. -/
theorem add_natCast_eq_iff {a b : Word} {i j : ℕ} (hi : a.toNat + i < 2 ^ 32)
    (hj : b.toNat + j < 2 ^ 32) :
    a + (i : Word) = b + (j : Word) ↔ a.toNat + i = b.toNat + j := by
  rw [← toNat_add_natCast hi, ← toNat_add_natCast hj]
  exact BitVec.toNat_inj.symm

/-! ## The macros as natural numbers -/

theorem toNat_and_low (x : Word) (k : ℕ) (hk : k ≤ 32) :
    (x &&& BitVec.ofNat 32 (2 ^ k - 1)).toNat = x.toNat % 2 ^ k := by
  have hpow : 2 ^ k ≤ 2 ^ 32 := Nat.pow_le_pow_right (by omega) hk
  have hpos : 0 < 2 ^ k := Nat.two_pow_pos k
  rw [BitVec.toNat_and, BitVec.toNat_ofNat,
    Nat.mod_eq_of_lt (by omega : 2 ^ k - 1 < 2 ^ 32),
    Nat.and_two_pow_sub_one_eq_mod]

theorem toNat_PDX (va : Word) : (PDX va).toNat = va.toNat / 2 ^ 22 := by
  have hva := va.isLt
  have hmask : 0x3FF#32 = BitVec.ofNat 32 (2 ^ 10 - 1) := rfl
  rw [PDX, hmask, toNat_and_low _ 10 (by omega), BitVec.toNat_ushiftRight,
    Nat.shiftRight_eq_div_pow, PDXSHIFT]
  omega

theorem toNat_PTX (va : Word) :
    (PTX va).toNat = va.toNat / 4096 % 1024 := by
  have hmask : 0x3FF#32 = BitVec.ofNat 32 (2 ^ 10 - 1) := rfl
  rw [PTX, hmask, toNat_and_low _ 10 (by omega), BitVec.toNat_ushiftRight,
    Nat.shiftRight_eq_div_pow, PTXSHIFT]
  rfl

/-- Clearing the low bits rounds down to a multiple of a power of two. -/
theorem toNat_clear (x : Word) (k : ℕ) (hk : k ≤ 32) :
    (x &&& ~~~BitVec.ofNat 32 (2 ^ k - 1)).toNat =
      x.toNat / 2 ^ k * 2 ^ k := by
  have hsplit : ∀ m : Word, x = (x &&& ~~~m) + (x &&& m) := by
    intro m
    have hor : x = (x &&& ~~~m) ||| (x &&& m) := by
      ext i
      simp only [BitVec.getElem_or, BitVec.getElem_and, BitVec.getElem_not]
      cases x[i] <;> cases m[i] <;> rfl
    have hdisj : (x &&& ~~~m) &&& (x &&& m) = 0#32 := by
      ext i
      simp only [BitVec.getElem_and, BitVec.getElem_not,
        BitVec.getElem_zero]
      cases x[i] <;> cases m[i] <;> rfl
    rw [BitVec.add_eq_or_of_and_eq_zero _ _ hdisj]
    exact hor
  have hadd := congrArg BitVec.toNat (hsplit (BitVec.ofNat 32 (2 ^ k - 1)))
  rw [BitVec.toNat_add, toNat_and_low x k hk] at hadd
  have hle : (x &&& ~~~BitVec.ofNat 32 (2 ^ k - 1)).toNat ≤ x.toNat := by
    rw [BitVec.toNat_and]
    exact Nat.and_le_left
  have hx := x.isLt
  have hmod := Nat.div_add_mod' x.toNat (2 ^ k)
  omega

/-- Clearing the low twelve bits rounds down to a page. -/
theorem toNat_clear_low (x : Word) :
    (x &&& ~~~0xFFF#32).toNat = x.toNat / 4096 * 4096 :=
  toNat_clear x 12 (by omega)

theorem toNat_PGROUNDDOWN (a : Word) :
    (PGROUNDDOWN a).toNat = a.toNat / 4096 * 4096 :=
  toNat_clear_low a

theorem PTE_ADDR_eq_PGROUNDDOWN (pte : Word) :
    PTE_ADDR pte = PGROUNDDOWN pte :=
  rfl

theorem pageAligned_PGROUNDDOWN (a : Word) : PageAligned (PGROUNDDOWN a) := by
  unfold PageAligned
  rw [toNat_PGROUNDDOWN]
  omega

theorem PGROUNDDOWN_of_aligned {a : Word} (h : PageAligned a) :
    PGROUNDDOWN a = a := by
  apply BitVec.eq_of_toNat_eq
  unfold PageAligned at h
  rw [toNat_PGROUNDDOWN]
  omega

theorem pageAligned_add_PGSIZE {a : Word} (h : PageAligned a) :
    PageAligned (a + PGSIZE) := by
  unfold PageAligned at h ⊢
  rw [BitVec.toNat_add]
  have : PGSIZE.toNat = 4096 := rfl
  omega

/-! ## Slots of a page of entries -/

/-- `&p[i]` for a page `p` of words. -/
def slot (p i : Word) : Word := p + 4 * i

theorem toNat_slot {p i : Word} (hp : PageAligned p) (hi : i.toNat < 1024) :
    (slot p i).toNat = p.toNat + 4 * i.toNat := by
  unfold PageAligned at hp
  have hlt := p.isLt
  have hfour : (4 : Word).toNat = 4 := rfl
  rw [slot, BitVec.toNat_add, BitVec.toNat_mul, hfour]
  omega

theorem PGROUNDDOWN_slot {p i : Word} (hp : PageAligned p)
    (hi : i.toNat < 1024) : PGROUNDDOWN (slot p i) = p := by
  apply BitVec.eq_of_toNat_eq
  rw [toNat_PGROUNDDOWN, toNat_slot hp hi]
  unfold PageAligned at hp
  omega

theorem slot_injective {p q i j : Word} (hp : PageAligned p)
    (hq : PageAligned q) (hi : i.toNat < 1024) (hj : j.toNat < 1024)
    (h : slot p i = slot q j) : p = q ∧ i = j := by
  have hnat := congrArg BitVec.toNat h
  rw [toNat_slot hp hi, toNat_slot hq hj] at hnat
  unfold PageAligned at hp hq
  constructor <;> apply BitVec.eq_of_toNat_eq <;> omega

theorem toNat_PDX_lt (va : Word) : (PDX va).toNat < 1024 := by
  rw [toNat_PDX]
  have := va.isLt
  omega

theorem toNat_PTX_lt (va : Word) : (PTX va).toNat < 1024 := by
  rw [toNat_PTX]
  omega

/-- The two indices together name the page of an address. -/
theorem page_eq_of_index_eq {va vb : Word} (hd : PDX va = PDX vb)
    (ht : PTX va = PTX vb) : PGROUNDDOWN va = PGROUNDDOWN vb := by
  apply BitVec.eq_of_toNat_eq
  have hd' := congrArg BitVec.toNat hd
  have ht' := congrArg BitVec.toNat ht
  rw [toNat_PDX, toNat_PDX] at hd'
  rw [toNat_PTX, toNat_PTX] at ht'
  rw [toNat_PGROUNDDOWN, toNat_PGROUNDDOWN]
  omega

theorem index_eq_of_page_eq {va vb : Word}
    (h : PGROUNDDOWN va = PGROUNDDOWN vb) : PDX va = PDX vb ∧ PTX va = PTX vb := by
  have hnat := congrArg BitVec.toNat h
  rw [toNat_PGROUNDDOWN, toNat_PGROUNDDOWN] at hnat
  constructor <;> apply BitVec.eq_of_toNat_eq
  · rw [toNat_PDX, toNat_PDX]
    omega
  · rw [toNat_PTX, toNat_PTX]
    omega

/-! ## Entries that point to a page -/

/-- The directory entry that `walkpgdir` writes for the page table `p` leads
back to `p`. -/
theorem P2V_PTE_ADDR {p flags : Word} (hp : PageAligned p)
    (hflags : flags &&& ~~~0xFFF#32 = 0) :
    P2V (PTE_ADDR (V2P p ||| flags)) = p := by
  have hdist : (V2P p ||| flags) &&& ~~~0xFFF#32 = V2P p &&& ~~~0xFFF#32 := by
    have : (V2P p ||| flags) &&& ~~~0xFFF#32 =
        (V2P p &&& ~~~0xFFF#32) ||| (flags &&& ~~~0xFFF#32) := by
      ext i
      simp only [BitVec.getElem_or, BitVec.getElem_and]
      cases (V2P p)[i] <;> cases flags[i] <;> simp
    rw [this, hflags]
    simp
  have hV2P : PageAligned (V2P p) := by
    unfold PageAligned at hp ⊢
    have hK : KERNBASE.toNat = 2147483648 := rfl
    rw [V2P, BitVec.toNat_sub, hK]
    omega
  unfold PTE_ADDR
  rw [hdist]
  have hround : V2P p &&& ~~~0xFFF#32 = V2P p := PGROUNDDOWN_of_aligned hV2P
  rw [hround]
  exact BitVec.sub_add_cancel p KERNBASE

theorem present_or_PTE_P (x : Word) : Present (x ||| PTE_P) := by
  intro h
  have hbit := congrArg (fun w : Word => w[0]) h
  simp [PTE_P] at hbit

end ZtlOs.Memory
