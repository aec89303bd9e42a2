import Mathlib.Algebra.Ring.Nat
import Mathlib.Logic.Function.Basic
import Mathlib.Order.Nat
import Mathlib.Tactic.Common

/-!
# umalloc.c

Addresses and sizes are numbers below `2 ^ 32`, and the arithmetic of the source
on them wraps.  The memory is taken as headers: the one at an address is made of
the eight bytes from there on.  `sbrk` belongs to the kernel: here it is a
function from the earlier calls and from the number of bytes, and `none` is -1.
-/

namespace ZtlOs.Umalloc

/-- `union header` -/
structure Header where
  ptr : ℕ
  size : ℕ

abbrev Mem := ℕ → Header

/-- A call of `sbrk`: the number of bytes and the result. -/
abbrev Call := ℕ × Option ℕ

/-- The variables of the allocator.  The static header `base` is a part of the
memory, and a null pointer is zero. -/
structure Heap where
  mem : Mem
  freep : ℕ
  /-- The calls of `sbrk`, the newest first. -/
  calls : List Call

def Mem.setPtr (mem : Mem) (p v : ℕ) : Mem :=
  Function.update mem p { mem p with ptr := v }

def Mem.setSize (mem : Mem) (p v : ℕ) : Mem :=
  Function.update mem p { mem p with size := v }

/-- `p + n` for a `Header *p`. -/
def offset (p n : ℕ) : ℕ :=
  (p + 8 * n) % 2 ^ 32

/-- `(Header*)ap - 1` -/
def headerOf (ap : ℕ) : ℕ :=
  (ap + 2 ^ 32 - 8) % 2 ^ 32

/-- The loop of `free` from `p` on.  Every loop here is given a number of rounds
and has no result if they are not enough. -/
def findPlace (mem : Mem) (bp : ℕ) : ℕ → ℕ → Option ℕ
  | 0, _ => none
  | n + 1, p =>
      let next := (mem p).ptr
      if bp > p ∧ bp < next then some p
      else if p ≥ next ∧ (bp > p ∨ bp < next) then some p
      else findPlace mem bp n next

/-- `free` behind its loop: join the block to its upper neighbour. -/
def joinUpper (mem : Mem) (bp p : ℕ) : Mem :=
  if offset bp (mem bp).size = (mem p).ptr then
    let mem := mem.setSize bp
      (((mem bp).size + (mem (mem p).ptr).size) % 2 ^ 32)
    mem.setPtr bp (mem (mem p).ptr).ptr
  else mem.setPtr bp (mem p).ptr

/-- `free` behind its loop: join the block to its lower neighbour. -/
def joinLower (mem : Mem) (bp p : ℕ) : Mem :=
  if offset p (mem p).size = bp then
    let mem := mem.setSize p (((mem p).size + (mem bp).size) % 2 ^ 32)
    mem.setPtr p (mem bp).ptr
  else mem.setPtr p bp

def free (rounds : ℕ) (s : Heap) (ap : ℕ) : Option Heap :=
  let bp := headerOf ap
  match findPlace s.mem bp rounds s.freep with
  | none => none
  | some p =>
      let mem := joinUpper s.mem bp p
      let mem := joinLower mem bp p
      some { s with mem := mem, freep := p }

section Sbrk

variable (sbrk : List Call → ℕ → Option ℕ) (rounds : ℕ)

/-- The result is `freep`, or zero if `sbrk` fails. -/
def morecore (s : Heap) (nu : ℕ) : Option (ℕ × Heap) :=
  let nu := if nu < 4096 then 4096 else nu
  let k := nu * 8 % 2 ^ 32
  let r := sbrk s.calls k
  let s := { s with calls := (k, r) :: s.calls }
  match r with
  | none => some (0, s)
  | some hp =>
      match free rounds { s with mem := s.mem.setSize hp nu } (offset hp 1) with
      | none => none
      | some s => some (s.freep, s)

/-- `malloc` when the block at `p` is big enough. -/
def take (s : Heap) (nunits prevp p : ℕ) : ℕ × Heap :=
  if (s.mem p).size = nunits then
    (offset p 1,
      { s with mem := s.mem.setPtr prevp (s.mem p).ptr, freep := prevp })
  else
    let mem := s.mem.setSize p ((s.mem p).size - nunits)
    let p := offset p (mem p).size
    (offset p 1, { s with mem := mem.setSize p nunits, freep := prevp })

/-- The loop of `malloc`. -/
def search (nunits : ℕ) : ℕ → Heap → ℕ → ℕ → Option (ℕ × Heap)
  | 0, _, _, _ => none
  | n + 1, s, prevp, p =>
      if (s.mem p).size ≥ nunits then some (take s nunits prevp p)
      else if p = s.freep then
        match morecore sbrk rounds s nunits with
        | none => none
        | some (p, s) =>
            if p = 0 then some (0, s)
            else search nunits n s p (s.mem p).ptr
      else search nunits n s p (s.mem p).ptr

/-- `nunits` -/
def units (nbytes : ℕ) : ℕ :=
  (nbytes + 8 - 1) % 2 ^ 32 / 8 + 1

/-- The list of free blocks is empty before the first call of `malloc`. -/
def start (base : ℕ) (s : Heap) : Heap :=
  if s.freep = 0 then
    { s with mem := Function.update s.mem base ⟨base, 0⟩, freep := base }
  else s

def malloc (base : ℕ) (s : Heap) (nbytes : ℕ) : Option (ℕ × Heap) :=
  let s := start base s
  search sbrk rounds (units nbytes) rounds s s.freep (s.mem s.freep).ptr

end Sbrk

end ZtlOs.Umalloc
