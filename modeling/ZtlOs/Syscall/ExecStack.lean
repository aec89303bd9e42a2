import ZtlOs.Memory.Allocator
import ZtlOs.Syscall.Arguments

/-!
# The argument stack of exec

The part of `exec` that allocates the user stack and pushes the arguments.  The
functions `allocuvm`, `clearpteu` and `copyout` are parameters; `Vm.Lawful`
says what `exec` relies on.
-/

namespace ZtlOs.Syscall

open ZtlOs.Memory

def MAXARG : ℕ := 32

/-- A NUL-terminated string as `fetchstr` accepts it: its length is an `int`. -/
structure CString where
  /-- The bytes before the NUL. -/
  bytes : List (BitVec 8)
  nonzero : 0 ∉ bytes
  short : bytes.length < 2 ^ 31

namespace CString

def strlen (s : CString) : Word := BitVec.ofNat 32 s.bytes.length

/-- The first `strlen(s) + 1` bytes at `s`. -/
def stored (s : CString) : List (BitVec 8) := s.bytes ++ [0]

end CString

/-- The functions on a page directory, with the user memory that it maps. -/
structure Vm (σ : Type*) where
  allocuvm : σ → Word → Word → Word × σ
  clearpteu : σ → Word → σ
  copyout : σ → Word → List (BitVec 8) → ℤ × σ
  mem : σ → Word → BitVec 8
  /-- The address is in a page that a user may access. -/
  user : σ → Word → Prop

variable {σ : Type*}

/-- The memory has some bytes at an address. -/
def Holds (mem : Word → BitVec 8) (a : Word) (l : List (BitVec 8)) : Prop :=
  ∀ k (h : k < l.length), mem (a + BitVec.ofNat 32 k) = l[k]

namespace Vm

/-- Exactly some bytes have been stored at an address of user pages. -/
structure Stores (vm : Vm σ) (s : σ) (va : Word) (src : List (BitVec 8))
    (t : σ) : Prop where
  accessible : ∀ k < src.length, vm.user s (va + BitVec.ofNat 32 k)
  stored : Holds (vm.mem t) va src
  frame : ∀ a, (∀ k < src.length, a ≠ va + BitVec.ofNat 32 k) →
    vm.mem t a = vm.mem s a
  user : ∀ a, vm.user t a ↔ vm.user s a

/-- The image grows to the requested size, the page of `clearpteu` is closed to
the user, and `copyout` stores what it is told to, or fails. -/
structure Lawful (vm : Vm σ) : Prop where
  allocuvm : ∀ s oldsz newsz,
    (vm.allocuvm s oldsz newsz).1 = 0 ∨ (vm.allocuvm s oldsz newsz).1 = newsz
  clearpteu : ∀ s uva a, PGROUNDDOWN a = PGROUNDDOWN uva →
    ¬ vm.user (vm.clearpteu s uva) a
  copyout : ∀ s va src, (vm.copyout s va src).1 = -1 ∨
    vm.Stores s va src (vm.copyout s va src).2

end Vm

/-- The four bytes of a word, the low one first. -/
def bytesOf (w : Word) : List (BitVec 8) :=
  [w.extractLsb' 0 8, w.extractLsb' 8 8, w.extractLsb' 16 8,
    w.extractLsb' 24 8]

/-- Push argument strings; the result is `argc`, `sp`, the pointers in
`ustack`, and the page directory. -/
def pushArgs (vm : Vm σ) : List CString → ℕ → Word → List Word → σ →
    Option (ℕ × Word × List Word × σ)
  | [], argc, sp, ustack, pgdir => some (argc, sp, ustack, pgdir)
  | arg :: argv, argc, sp, ustack, pgdir =>
      if argc ≥ MAXARG then none
      else
        let sp := (sp - (arg.strlen + 1)) &&& ~~~3
        let r := vm.copyout pgdir sp arg.stored
        if r.1 < 0 then none
        else pushArgs vm argv (argc + 1) sp (ustack ++ [sp]) r.2

/-- The image that `exec` commits to. -/
structure Image (σ : Type*) where
  pgdir : σ
  sz : Word
  esp : Word

/-- `exec` after the program is loaded, which has the size `sz`. -/
def execStack (vm : Vm σ) (pgdir : σ) (sz : Word) (argv : List CString) :
    Option (Image σ) :=
  -- Allocate two pages at the next page boundary.
  let sz := PGROUNDUP sz
  let r := vm.allocuvm pgdir sz (sz + 2 * PGSIZE)
  let sz := r.1
  if sz = 0 then none
  else
    let pgdir := vm.clearpteu r.2 (sz - 2 * PGSIZE)
    match pushArgs vm argv 0 sz [] pgdir with
    | none => none
    | some (argc, sp, args, pgdir) =>
        let n := BitVec.ofNat 32 argc
        let ustack : List Word :=
          [0xffffffff, n, sp - (n + 1) * 4] ++ args ++ [0]
        let sp := sp - (3 + n + 1) * 4
        let r := vm.copyout pgdir sp (ustack.flatMap bytesOf)
        if r.1 < 0 then none
        else some { pgdir := r.2, sz := sz, esp := sp }

/-! ## What a program finds -/

/-- A range of addresses. -/
structure Region where
  start : Word
  size : ℕ

namespace Region

/-- The address after the last one. -/
def last (r : Region) : ℕ := r.start.toNat + r.size

def Disjoint (r q : Region) : Prop :=
  r.last ≤ q.start.toNat ∨ q.last ≤ r.start.toNat

end Region

/-- What the program reads from its stack: the return address, `argc`, `argv`,
the pointers at `argv`, and the strings. -/
structure Decodes (u : User) (argv : Word) (ptrs : List Word)
    (args : List CString) : Prop where
  pc : u.wordAt u.esp = 0xffffffff
  argc : u.wordAt (u.esp + 4) = BitVec.ofNat 32 args.length
  pointer : u.wordAt (u.esp + 8) = argv
  length : ptrs.length = args.length
  array : ∀ i (h : i < ptrs.length),
    u.wordAt (argv + BitVec.ofNat 32 (4 * i)) = ptrs[i]
  null : u.wordAt (argv + BitVec.ofNat 32 (4 * ptrs.length)) = 0
  strings : ∀ x ∈ ptrs.zip args, Holds u.mem x.1 x.2.stored

/-- The regions of the stack. -/
def regions (u : User) (argv : Word) (ptrs : List Word)
    (args : List CString) : List Region :=
  ⟨u.esp, 12⟩ :: ⟨argv, 4 * (args.length + 1)⟩ ::
    (ptrs.zip args).map fun x => ⟨x.1, x.2.stored.length⟩

/-- The arguments are on the page above the guard page. -/
structure ArgumentStack (u : User) (argv : Word) (ptrs : List Word)
    (args : List CString) : Prop where
  decodes : Decodes u argv ptrs args
  aligned : ∀ r ∈ regions u argv ptrs args, r.start.toNat % 4 = 0
  disjoint : (regions u argv ptrs args).Pairwise Region.Disjoint
  above : ∀ r ∈ regions u argv ptrs args,
    (u.sz - PGSIZE).toNat ≤ r.start.toNat
  below : ∀ r ∈ regions u argv ptrs args, r.last ≤ u.sz.toNat

/-- The memory of an image. -/
def Image.process (vm : Vm σ) (image : Image σ) : User :=
  { sz := image.sz, esp := image.esp, mem := vm.mem image.pgdir }

/-! ## Words and bytes in memory -/

section Memory

variable {mem : Word → BitVec 8} {a : Word} {l l' : List (BitVec 8)}

theorem add_ofNat (a : Word) (k n : ℕ) :
    a + BitVec.ofNat 32 k + BitVec.ofNat 32 n = a + BitVec.ofNat 32 (k + n) := by
  rw [BitVec.add_assoc, BitVec.ofNat_add]

theorem Holds.append (h : Holds mem a (l ++ l')) :
    Holds mem a l ∧ Holds mem (a + BitVec.ofNat 32 l.length) l' := by
  constructor
  · intro k hk
    have := h k (by rw [List.length_append]; omega)
    rwa [List.getElem_append_left hk] at this
  · intro k hk
    have := h (l.length + k) (by rw [List.length_append]; omega)
    rw [List.getElem_append_right (by omega)] at this
    simpa only [add_ofNat, Nat.add_sub_cancel_left] using this

theorem length_bytesOf (w : Word) : (bytesOf w).length = 4 := rfl

theorem wordAt_of_holds {u : User} {w : Word} (h : Holds u.mem a (bytesOf w)) :
    u.wordAt a = w := by
  have h₀ := h 0 (by rw [length_bytesOf]; omega)
  have h₁ := h 1 (by rw [length_bytesOf]; omega)
  have h₂ := h 2 (by rw [length_bytesOf]; omega)
  have h₃ := h 3 (by rw [length_bytesOf]; omega)
  have hzero : a + BitVec.ofNat 32 0 = a := BitVec.add_zero a
  rw [hzero] at h₀
  have hword : u.wordAt a = (u.mem (a + BitVec.ofNat 32 3) ++
      u.mem (a + BitVec.ofNat 32 2) : BitVec 16) ++
      (u.mem (a + BitVec.ofNat 32 1) ++ u.mem a : BitVec 16) := rfl
  rw [hword, h₀, h₁, h₂, h₃]
  simp only [bytesOf, List.getElem_cons_zero, List.getElem_cons_succ]
  ext i hi
  simp only [BitVec.getElem_append, BitVec.getElem_extractLsb']
  split
  · split
    · rw [BitVec.getLsbD_eq_getElem (by omega)]
      congr 1
      omega
    · rw [BitVec.getLsbD_eq_getElem (by omega)]
      congr 1
      omega
  · split
    · rw [BitVec.getLsbD_eq_getElem (by omega)]
      congr 1
      omega
    · rw [BitVec.getLsbD_eq_getElem (by omega)]
      congr 1
      omega

theorem length_flatMap_bytesOf (ws : List Word) :
    (ws.flatMap bytesOf).length = 4 * ws.length := by
  induction ws with
  | nil => rfl
  | cons w ws ih =>
      rw [List.flatMap_cons, List.length_append, ih, List.length_cons,
        length_bytesOf]
      omega

theorem wordAt_of_holds_flatMap {u : User} {ws : List Word}
    (h : Holds u.mem a (ws.flatMap bytesOf)) (i : ℕ) (hi : i < ws.length) :
    u.wordAt (a + BitVec.ofNat 32 (4 * i)) = ws[i] := by
  induction ws generalizing a i with
  | nil => cases hi
  | cons w ws ih =>
      rw [List.flatMap_cons] at h
      obtain ⟨hw, hws⟩ := h.append
      cases i with
      | zero =>
          rw [Nat.mul_zero, BitVec.add_zero]
          exact wordAt_of_holds hw
      | succ i =>
          have := ih hws i (by simpa using hi)
          rw [add_ofNat] at this
          rw [List.getElem_cons_succ, ← this, Nat.mul_succ, Nat.add_comm]
          rfl

end Memory

/-! ## Pushing -/

/-- A length, rounded up to whole words. -/
def wordsUp (n : ℕ) : ℕ := (n + 3) / 4 * 4

/-- The stack pointer after a string: it goes down by whole words. -/
theorem sub_and_eq {sp : Word} {n : ℕ} (h : sp.toNat % 4 = 0)
    (hn : n ≤ 2 ^ 31) :
    (sp - BitVec.ofNat 32 n) &&& ~~~3 = sp - BitVec.ofNat 32 (wordsUp n) := by
  apply BitVec.eq_of_toNat_eq
  have hclear := toNat_clear (sp - BitVec.ofNat 32 n) 2 (by omega)
  have hmask : (BitVec.ofNat 32 (2 ^ 2 - 1) : Word) = 3 := rfl
  rw [hmask] at hclear
  have hsp := sp.isLt
  rw [hclear, BitVec.toNat_sub, BitVec.toNat_sub, BitVec.toNat_ofNat,
    BitVec.toNat_ofNat, Nat.mod_eq_of_lt (show n < 2 ^ 32 by omega), wordsUp,
    Nat.mod_eq_of_lt (show (n + 3) / 4 * 4 < 2 ^ 32 by omega)]
  omega

theorem toNat_sub_ofNat {sp : Word} {n : ℕ} (h : n ≤ sp.toNat) :
    (sp - BitVec.ofNat 32 n).toNat = sp.toNat - n := by
  have hsp := sp.isLt
  have hn : (BitVec.ofNat 32 n : Word).toNat = n := by
    rw [BitVec.toNat_ofNat, Nat.mod_eq_of_lt (by omega)]
  rw [BitVec.toNat_sub_of_le (by
    change (BitVec.ofNat 32 n : Word).toNat ≤ sp.toNat
    omega), hn]

section Stack

variable {vm : Vm σ} {s t : σ} {base sz sp : Word}
  {args : List CString} {ptrs : List Word}

/-- The stack page, above a guard page that is closed to the user. -/
structure StackPage (vm : Vm σ) (s : σ) (base : Word) : Prop where
  aligned : base.toNat % 4 = 0
  guard : ¬ vm.user s (base - 4)

/-- What is stored below `sp`, down to a whole number of words, does not reach
below the stack page: it would have hit the guard page. -/
theorem StackPage.le_of_stores {src : List (BitVec 8)}
    (h : StackPage vm s base) (hbase : base.toNat ≤ sp.toNat)
    (hsp : sp.toNat % 4 = 0) (hshort : src.length ≤ 2 ^ 31)
    (hstores : vm.Stores s (sp - BitVec.ofNat 32 (wordsUp src.length)) src t) :
    base.toNat + wordsUp src.length ≤ sp.toNat := by
  by_contra hlt
  have haligned := h.aligned
  have hlow := sp.isLt
  -- the word below the stack page is at the index `k` of what is stored
  obtain ⟨k, hk⟩ : ∃ k, wordsUp src.length = sp.toNat - base.toNat + 4 + k := by
    refine ⟨wordsUp src.length - (sp.toNat - base.toNat) - 4, ?_⟩
    rw [wordsUp] at hlt ⊢
    omega
  have hkl : k < src.length := by
    rw [wordsUp] at hk
    omega
  apply h.guard
  have haddr : sp - BitVec.ofNat 32 (wordsUp src.length) + BitVec.ofNat 32 k =
      base - 4 := by
    apply BitVec.eq_of_toNat_eq
    have h4 : (4 : Word).toNat = 4 := rfl
    rw [wordsUp] at hk
    rw [BitVec.toNat_add, BitVec.toNat_sub, BitVec.toNat_sub,
      BitVec.toNat_ofNat, BitVec.toNat_ofNat, h4, wordsUp,
      Nat.mod_eq_of_lt (show (src.length + 3) / 4 * 4 < 2 ^ 32 by omega),
      Nat.mod_eq_of_lt (show k < 2 ^ 32 by omega)]
    omega
  rw [← haddr]
  exact hstores.accessible k hkl

/-- The strings that have been pushed so far. -/
structure Pushed (vm : Vm σ) (base sz : Word) (s : σ) (sp : Word)
    (ptrs : List Word) (args : List CString) : Prop where
  page : StackPage vm s base
  aligned : sp.toNat % 4 = 0
  above : base.toNat ≤ sp.toNat
  below : sp.toNat ≤ sz.toNat
  length : ptrs.length = args.length
  copies : ∀ x ∈ ptrs.zip args, x.1.toNat % 4 = 0 ∧ sp.toNat ≤ x.1.toNat ∧
    x.1.toNat + x.2.stored.length ≤ sz.toNat ∧ Holds (vm.mem s) x.1 x.2.stored
  /-- Each string lies below the ones before it. -/
  downward : (ptrs.zip args).Pairwise fun x y =>
    y.1.toNat + y.2.stored.length ≤ x.1.toNat

/-- What is stored below `sp` leaves the strings above it alone. -/
theorem Pushed.store {src : List (BitVec 8)} {va : Word}
    (h : Pushed vm base sz s sp ptrs args)
    (hbelow : va.toNat + src.length ≤ sp.toNat)
    (hstores : vm.Stores s va src t) :
    ∀ x ∈ ptrs.zip args, Holds (vm.mem t) x.1 x.2.stored := by
  intro x hx k hk
  obtain ⟨-, hsp, hend, hholds⟩ := h.copies x hx
  have hsz := sz.isLt
  rw [hstores.frame]
  · exact hholds k hk
  · intro j hj heq
    have heq := congrArg BitVec.toNat heq
    have hsp' := sp.isLt
    rw [BitVec.toNat_add, BitVec.toNat_add, BitVec.toNat_ofNat,
      BitVec.toNat_ofNat] at heq
    omega

theorem Pushed.push {arg : CString} (h : Pushed vm base sz s sp ptrs args)
    (hstores : vm.Stores s
      (sp - BitVec.ofNat 32 (wordsUp arg.stored.length)) arg.stored t) :
    Pushed vm base sz t (sp - BitVec.ofNat 32 (wordsUp arg.stored.length))
      (ptrs ++ [sp - BitVec.ofNat 32 (wordsUp arg.stored.length)])
      (args ++ [arg]) := by
  have hlen : arg.stored.length ≤ 2 ^ 31 := by
    have := arg.short
    rw [CString.stored, List.length_append, List.length_singleton]
    omega
  have hle := h.page.le_of_stores h.above h.aligned hlen hstores
  have hsp := toNat_sub_ofNat (show wordsUp arg.stored.length ≤ sp.toNat by
    omega)
  have hup : arg.stored.length ≤ wordsUp arg.stored.length ∧
      wordsUp arg.stored.length % 4 = 0 := by
    rw [wordsUp]
    omega
  have haligned := h.aligned
  have hbelow := h.below
  have hkept := h.store (by omega) hstores
  have hzip : (ptrs ++ [sp - BitVec.ofNat 32 (wordsUp arg.stored.length)]).zip
      (args ++ [arg]) = ptrs.zip args ++
        [(sp - BitVec.ofNat 32 (wordsUp arg.stored.length), arg)] :=
    List.zip_append h.length
  refine ⟨⟨h.page.aligned, ?_⟩, by omega, by omega, by omega, ?_, ?_, ?_⟩
  · rw [hstores.user]
    exact h.page.guard
  · rw [List.length_append, List.length_append, h.length]
    rfl
  · intro x hx
    rw [hzip, List.mem_append, List.mem_singleton] at hx
    rcases hx with hx | rfl
    · obtain ⟨halign, hge, hend, -⟩ := h.copies x hx
      exact ⟨halign, by omega, hend, hkept x hx⟩
    · refine ⟨?_, le_rfl, ?_, hstores.stored⟩
      · dsimp only
        omega
      · dsimp only
        omega
  · rw [hzip, List.pairwise_append]
    refine ⟨h.downward, List.pairwise_singleton _ _, ?_⟩
    intro x hx y hy
    rw [List.mem_singleton.mp hy]
    have := (h.copies x hx).2.1
    change (sp - BitVec.ofNat 32 (wordsUp arg.stored.length)).toNat +
      arg.stored.length ≤ _
    omega

/-- The loop over `argv` pushes all strings, or fails. -/
theorem Pushed.pushArgs (hvm : vm.Lawful) {argv : List CString}
    {argc n : ℕ} {sp' : Word} {ptrs' : List Word}
    (h : Pushed vm base sz s sp ptrs args) (hargc : argc = args.length)
    (hrun : pushArgs vm argv argc sp ptrs s = some (n, sp', ptrs', t)) :
    Pushed vm base sz t sp' ptrs' (args ++ argv) ∧
      n = (args ++ argv).length ∧ n ≤ max argc MAXARG := by
  induction argv generalizing argc sp ptrs args s with
  | nil =>
      simp only [Syscall.pushArgs, Option.some.injEq, Prod.mk.injEq] at hrun
      obtain ⟨rfl, rfl, rfl, rfl⟩ := hrun
      rw [List.append_nil]
      exact ⟨h, hargc, le_max_left _ _⟩
  | cons arg argv ih =>
      simp only [Syscall.pushArgs] at hrun
      split at hrun
      · cases hrun
      · next hmax =>
          split at hrun
          · cases hrun
          · next hok =>
              have hsp : (sp - (arg.strlen + 1)) &&& ~~~3 =
                  sp - BitVec.ofNat 32 (wordsUp arg.stored.length) := by
                have hlen : arg.stored.length = arg.bytes.length + 1 := by
                  rw [CString.stored, List.length_append]
                  rfl
                rw [← sub_and_eq h.aligned (by have := arg.short; omega), hlen,
                  BitVec.ofNat_add]
                rfl
              rw [hsp] at hrun hok
              have hstores := (hvm.copyout s
                (sp - BitVec.ofNat 32 (wordsUp arg.stored.length))
                arg.stored).resolve_left (by omega)
              have hpush := ih (h.push hstores)
                (by rw [List.length_append, hargc]; rfl) hrun
              rw [List.append_assoc] at hpush
              exact ⟨hpush.1, hpush.2.1, by omega⟩

/-- The words that `exec` stores below the strings. -/
def ustack (sp : Word) (ptrs : List Word) : List Word :=
  [0xffffffff, BitVec.ofNat 32 ptrs.length,
    sp - BitVec.ofNat 32 (4 * (ptrs.length + 1))] ++ ptrs ++ [0]

theorem length_ustack (sp : Word) (ptrs : List Word) :
    (ustack sp ptrs).length = ptrs.length + 4 := by
  rw [ustack, List.length_append, List.length_append]
  change 3 + _ + 1 = _
  omega

theorem words_add_one (n : ℕ) :
    (BitVec.ofNat 32 n + 1) * 4 = BitVec.ofNat 32 (4 * (n + 1)) := by
  rw [Nat.mul_comm, BitVec.ofNat_mul, BitVec.ofNat_add]
  rfl

theorem words_add_four (n : ℕ) :
    (3 + BitVec.ofNat 32 n + 1) * 4 = BitVec.ofNat 32 (4 * (n + 4)) := by
  rw [Nat.mul_comm, BitVec.ofNat_mul, BitVec.ofNat_add, BitVec.add_comm 3,
    BitVec.add_assoc]
  rfl

/-- The argument pointer in `ustack` is the address of its fourth word. -/
theorem argv_eq (sp : Word) (n : ℕ) :
    sp - BitVec.ofNat 32 (4 * (n + 1)) =
      sp - BitVec.ofNat 32 (4 * (n + 4)) + BitVec.ofNat 32 12 := by
  have hsplit : 4 * (n + 4) = 4 * (n + 1) + 12 := by omega
  rw [hsplit, BitVec.ofNat_add, sub_add_eq_sub_sub, sub_add_cancel]

theorem Pushed.finish {n : ℕ} (h : Pushed vm base sz s sp ptrs args)
    (hn : args.length ≤ MAXARG) (hlen : n = 4 * (ptrs.length + 4))
    (hbase : base = sz - PGSIZE)
    (hstores : vm.Stores s (sp - BitVec.ofNat 32 n)
      ((ustack sp ptrs).flatMap bytesOf) t) :
    ArgumentStack { sz := sz, esp := sp - BitVec.ofNat 32 n, mem := vm.mem t }
      (sp - BitVec.ofNat 32 (4 * (ptrs.length + 1))) ptrs args := by
  have hbytes : ((ustack sp ptrs).flatMap bytesOf).length = n := by
    rw [length_flatMap_bytesOf, length_ustack, hlen]
  have hup : wordsUp n = n := by
    rw [wordsUp]
    omega
  have hsmall : ptrs.length ≤ 32 := h.length.trans_le hn
  have hle : base.toNat + n ≤ sp.toNat := by
    have := h.page.le_of_stores h.above h.aligned
      (show ((ustack sp ptrs).flatMap bytesOf).length ≤ 2 ^ 31 by omega)
      (by rw [hbytes, hup]; exact hstores)
    rwa [hbytes, hup] at this
  have hesp := toNat_sub_ofNat (show n ≤ sp.toNat by omega)
  have hargv := toNat_sub_ofNat (show 4 * (ptrs.length + 1) ≤ sp.toNat by omega)
  have hkept := h.store (by omega) hstores
  have haligned := h.aligned
  have hbelow := h.below
  have hlength := h.length
  have hword : ∀ i (hi : i < (ustack sp ptrs).length),
      User.wordAt ⟨sz, sp - BitVec.ofNat 32 n, vm.mem t⟩
        (sp - BitVec.ofNat 32 n + BitVec.ofNat 32 (4 * i)) =
        (ustack sp ptrs)[i] :=
    wordAt_of_holds_flatMap hstores.stored
  have hshift : ∀ i, sp - BitVec.ofNat 32 (4 * (ptrs.length + 1)) +
      BitVec.ofNat 32 (4 * i) =
      sp - BitVec.ofNat 32 n + BitVec.ofNat 32 (4 * (i + 3)) := by
    intro i
    rw [hlen, argv_eq, add_ofNat]
    congr 2
    omega
  have hstring : ∀ x ∈ (ptrs.zip args).map
      (fun x => (⟨x.1, x.2.stored.length⟩ : Region)),
      x.start.toNat % 4 = 0 ∧ sp.toNat ≤ x.start.toNat ∧
        x.last ≤ sz.toNat := by
    intro x hx
    obtain ⟨y, hy, rfl⟩ := List.mem_map.mp hx
    obtain ⟨halign, hge, hend, -⟩ := h.copies y hy
    exact ⟨halign, hge, hend⟩
  constructor
  · constructor
    · have := hword 0 (by rw [length_ustack]; omega)
      rwa [Nat.mul_zero, BitVec.add_zero] at this
    · have := hword 1 (by rw [length_ustack]; omega)
      rw [← hlength]
      exact this
    · exact hword 2 (by rw [length_ustack]; omega)
    · exact hlength
    · intro i hi
      rw [hshift, hword (i + 3) (by rw [length_ustack]; omega)]
      exact List.getElem_append_left hi
    · rw [hshift, hword (ptrs.length + 3) (by rw [length_ustack]; omega)]
      simp [ustack]
    · exact hkept
  · intro r hr
    simp only [regions, List.mem_cons] at hr
    rcases hr with rfl | rfl | hr
    · dsimp only
      omega
    · dsimp only
      omega
    · exact (hstring r hr).1
  · refine List.pairwise_cons.mpr ⟨?_, List.pairwise_cons.mpr ⟨?_, ?_⟩⟩
    · intro r hr
      left
      rw [Region.last]
      rcases List.mem_cons.mp hr with rfl | hr
      · dsimp only
        omega
      · have := (hstring r hr).2.1
        dsimp only
        omega
    · intro r hr
      left
      have := (hstring r hr).2.1
      rw [Region.last]
      dsimp only
      omega
    · rw [List.pairwise_map]
      exact h.downward.imp fun hxy => .inr hxy
  · intro r hr
    simp only [regions, List.mem_cons] at hr
    rw [← hbase]
    rcases hr with rfl | rfl | hr
    · dsimp only
      omega
    · dsimp only
      omega
    · exact h.above.trans (hstring r hr).2.1
  · intro r hr
    simp only [regions, List.mem_cons] at hr
    rcases hr with rfl | rfl | hr
    · rw [Region.last]
      dsimp only
      omega
    · rw [Region.last]
      dsimp only
      omega
    · exact (hstring r hr).2.2

end Stack

/-- If `exec` succeeds, the program finds its arguments. -/
theorem exec_argument_stack (vm : Vm σ) (hvm : vm.Lawful) (pgdir : σ)
    (sz : Word) (argv : List CString) (image : Image σ)
    (h : execStack vm pgdir sz argv = some image) :
    ∃ p ptrs, ArgumentStack (image.process vm) p ptrs argv := by
  simp only [execStack] at h
  split at h
  · cases h
  · next hsz =>
      have hnew := (hvm.allocuvm pgdir (PGROUNDUP sz)
        (PGROUNDUP sz + 2 * PGSIZE)).resolve_left hsz
      generalize vm.allocuvm pgdir (PGROUNDUP sz)
        (PGROUNDUP sz + 2 * PGSIZE) = r at h hsz hnew
      obtain ⟨sz', s⟩ := r
      dsimp only at h hsz hnew
      have hP : PGSIZE.toNat = 4096 := rfl
      have hpage : sz'.toNat % 4096 = 0 := by
        have hup : (PGROUNDUP sz).toNat % 4096 = 0 :=
          pageAligned_PGROUNDDOWN (sz + PGSIZE - 1)
        have h2 : (2 * PGSIZE).toNat = 8192 := rfl
        rw [hnew, BitVec.toNat_add, h2]
        omega
      have hpos : 4096 ≤ sz'.toNat := by
        have : sz'.toNat ≠ 0 := fun h0 => hsz (BitVec.eq_of_toNat_eq h0)
        omega
      have hbase : (sz' - PGSIZE).toNat = sz'.toNat - 4096 :=
        BitVec.toNat_sub_of_le (show PGSIZE.toNat ≤ sz'.toNat by omega)
      split at h
      · cases h
      · next argc sp ptrs s' hpush =>
          have hstart : Pushed vm (sz' - PGSIZE) sz'
              (vm.clearpteu s (sz' - 2 * PGSIZE)) sz' [] [] := by
            refine ⟨⟨by omega, hvm.clearpteu _ _ _ ?_⟩, by omega, by omega,
              le_rfl, rfl, by simp, by simp⟩
            apply BitVec.eq_of_toNat_eq
            have h2 : (2 * PGSIZE).toNat = 8192 := rfl
            have h4 : (4 : Word).toNat = 4 := rfl
            have hlt := sz'.isLt
            rw [toNat_PGROUNDDOWN, toNat_PGROUNDDOWN, BitVec.toNat_sub, hbase,
              BitVec.toNat_sub, h2, h4]
            omega
          obtain ⟨hpushed, hargc, hmax⟩ := hstart.pushArgs hvm rfl hpush
          rw [List.nil_append] at hpushed hargc
          have hlen : argc = ptrs.length := hargc.trans hpushed.length.symm
          subst hlen
          split at h
          · cases h
          · next hok =>
              rw [words_add_four, words_add_one] at h hok
              have hstores := (hvm.copyout s'
                (sp - BitVec.ofNat 32 (4 * (ptrs.length + 4)))
                ((ustack sp ptrs).flatMap bytesOf)).resolve_left
                fun hfail => hok (by rw [ustack] at hfail; omega)
              obtain rfl := Option.some.inj h
              refine ⟨_, ptrs, hpushed.finish ?_ rfl rfl hstores⟩
              rw [← hargc]
              simpa using hmax

/-! ## A page directory as a whole memory -/

/-- User pages up to `sz`, except a guard page. -/
structure Flat where
  mem : Word → BitVec 8
  sz : Word
  guard : Option Word

namespace Flat

def User (s : Flat) (a : Word) : Prop :=
  a < s.sz ∧ s.guard ≠ some (PGROUNDDOWN a)

instance (s : Flat) (a : Word) : Decidable (s.User a) :=
  inferInstanceAs (Decidable (_ ∧ _))

def vm : Vm Flat where
  allocuvm s oldsz newsz :=
    if newsz < oldsz ∨ newsz ≥ KERNBASE then (0, s)
    else (newsz, { s with sz := newsz })
  clearpteu s uva := { s with guard := some (PGROUNDDOWN uva) }
  copyout s va src :=
    if src.length < 2 ^ 32 ∧
        ∀ k < src.length, s.User (va + BitVec.ofNat 32 k) then
      (0, { s with mem := fun a => src.getD (a - va).toNat (s.mem a) })
    else (-1, s)
  mem := mem
  user := User

theorem vm_lawful : vm.Lawful where
  allocuvm s oldsz newsz := by
    simp only [vm]
    split
    · exact .inl rfl
    · exact .inr rfl
  clearpteu s uva a ha := by
    rintro ⟨-, hguard⟩
    exact hguard (congrArg some ha.symm)
  copyout s va src := by
    simp only [vm]
    split
    · next hok =>
        have hindex : ∀ k < src.length,
            (va + BitVec.ofNat 32 k - va).toNat = k := by
          intro k hk
          rw [add_sub_cancel_left, BitVec.toNat_ofNat]
          exact Nat.mod_eq_of_lt (by omega)
        refine .inr ⟨hok.2, ?_, ?_, fun a => Iff.rfl⟩
        · intro k hk
          simp only [hindex k hk, List.getD, List.getElem?_eq_getElem hk,
            Option.getD_some]
        · intro a ha
          have hout : src.length ≤ (a - va).toNat := by
            by_contra hlt
            refine ha (a - va).toNat (by omega) ?_
            rw [BitVec.ofNat_toNat, BitVec.setWidth_eq, add_sub_cancel]
          simp only [List.getD, List.getElem?_eq_none hout, Option.getD_none]
    · exact .inl rfl

end Flat

/-- The arguments of `echo a`. -/
theorem exec_argument_stack_echo :
    ∃ image, execStack Flat.vm ⟨fun _ => 0, 0, none⟩ 0x1234
        [⟨[0x65, 0x63, 0x68, 0x6f], by decide, by decide⟩,
          ⟨[0x61], by decide, by decide⟩] = some image ∧
      ∃ p ptrs, ArgumentStack (image.process Flat.vm) p ptrs
        [⟨[0x65, 0x63, 0x68, 0x6f], by decide, by decide⟩,
          ⟨[0x61], by decide, by decide⟩] := by
  obtain ⟨image, himage⟩ := Option.isSome_iff_exists.mp
    (show (execStack Flat.vm ⟨fun _ => 0, 0, none⟩ 0x1234
        [⟨[0x65, 0x63, 0x68, 0x6f], by decide, by decide⟩,
          ⟨[0x61], by decide, by decide⟩]).isSome = true by decide +kernel)
  exact ⟨image, himage, exec_argument_stack Flat.vm Flat.vm_lawful _ _ _ image
    himage⟩

end ZtlOs.Syscall
