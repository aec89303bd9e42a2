import ZtlOs.Memory.Layout
import Mathlib.Data.List.Nodup
import Mathlib.Logic.Function.Basic

/-!
# The page allocator

`kmem` of `kalloc.c`: a list of free pages that is threaded through the first
word of each free page.  Memory is kept word by word, which is how the
allocator and the page table code read and write it.  The code modelled here
runs on one CPU, so `kmem.lock` is left out.
-/

namespace ZtlOs.Memory

/-- The words of memory, by kernel virtual address, and `kmem.freelist`. -/
structure Kmem where
  mem : Word → Word
  freelist : Word

namespace Kmem

/-- `*a = v`. -/
def store (s : Kmem) (a v : Word) : Kmem :=
  { s with mem := Function.update s.mem a v }

/-- `memset(p, 0, PGSIZE)` for a page `p`. -/
def zeroPage (s : Kmem) (p : Word) : Kmem :=
  { s with mem := fun x => if PGROUNDDOWN x = p then 0 else s.mem x }

@[simp] theorem store_freelist (s : Kmem) (a v : Word) :
    (s.store a v).freelist = s.freelist :=
  rfl

@[simp] theorem zeroPage_freelist (s : Kmem) (p : Word) :
    (s.zeroPage p).freelist = s.freelist :=
  rfl

theorem store_mem_self (s : Kmem) (a v : Word) : (s.store a v).mem a = v := by
  simp [store]

theorem store_mem_of_ne {s : Kmem} {a v x : Word} (h : x ≠ a) :
    (s.store a v).mem x = s.mem x := by
  simp [store, h]

theorem zeroPage_mem (s : Kmem) (p x : Word) :
    (s.zeroPage p).mem x = if PGROUNDDOWN x = p then 0 else s.mem x :=
  rfl

end Kmem

/-- `kalloc`: the first free page, or 0. -/
def kalloc (s : Kmem) : Word × Kmem :=
  let r := s.freelist
  if r ≠ 0 then (r, { s with freelist := s.mem r }) else (r, s)

/-- The free list that starts at `head` consists of `pages`, in order. -/
def FreeChain (mem : Word → Word) : Word → List Word → Prop
  | head, [] => head = 0
  | head, p :: pages => head = p ∧ p ≠ 0 ∧ FreeChain mem (mem p) pages

/-- A chain does not depend on words outside its own pages. -/
theorem FreeChain.congr {mem mem' : Word → Word} {head : Word}
    {pages : List Word} (h : FreeChain mem head pages)
    (hsame : ∀ p ∈ pages, mem' p = mem p) : FreeChain mem' head pages := by
  induction pages generalizing head with
  | nil => exact h
  | cons p pages ih =>
      obtain ⟨hhead, hp, htail⟩ := h
      refine ⟨hhead, hp, ?_⟩
      rw [hsame p List.mem_cons_self]
      exact ih htail fun q hq => hsame q (List.mem_cons_of_mem p hq)

theorem FreeChain.ne_zero {mem : Word → Word} {head : Word}
    {pages : List Word} (h : FreeChain mem head pages) :
    ∀ p ∈ pages, p ≠ 0 := by
  induction pages generalizing head with
  | nil =>
      intro p hp
      cases hp
  | cons q pages ih =>
      intro p hp
      rcases List.mem_cons.mp hp with rfl | hp
      · exact h.2.1
      · exact ih h.2.2 p hp

theorem kalloc_nil {s : Kmem} (h : FreeChain s.mem s.freelist []) :
    kalloc s = (0, s) := by
  have hz : s.freelist = 0 := h
  simp [kalloc, hz]

theorem kalloc_cons {s : Kmem} {p : Word} {pages : List Word}
    (h : FreeChain s.mem s.freelist (p :: pages)) :
    kalloc s = (p, { s with freelist := s.mem p }) := by
  obtain ⟨hhead, hp, -⟩ := h
  simp only [kalloc, hhead]
  exact if_pos hp

/-- The free pages of `kmem` are `pages`: distinct, page aligned, and linked
in this order. -/
structure FreePages (s : Kmem) (pages : List Word) : Prop where
  chain : FreeChain s.mem s.freelist pages
  nodup : pages.Nodup
  aligned : ∀ p ∈ pages, PageAligned p

end ZtlOs.Memory
