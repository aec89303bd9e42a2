import Mathlib.Order.MinMax
import ZtlOs.Support.Runs
import ZtlOs.User.Malloc

/-!
# Histories of the user heap

A process calls `malloc` and `free` in any order, and between the calls it
writes to the memory that it has been given.  What holds for every history
follows from what one call does to the shape of the heap.
-/

namespace ZtlOs.Umalloc

open ZtlOs.Support ZtlOs.Support.Extent

/-- The heap of a process, and the live results of `malloc` with the numbers of
bytes that were asked for. -/
structure Process where
  heap : Heap
  live : List (ℕ × ℕ)

/-- A call of the process, or new contents for the memory of live blocks. -/
inductive Action where
  | malloc (nbytes : ℕ)
  | free (ap : ℕ)
  | write (contents : Mem)

/-- The block of a result of `malloc`. -/
def blockOf (x : ℕ × ℕ) : Block :=
  (headerOf x.1, units x.2)

namespace Process

def init (mem : Mem) : Process :=
  ⟨⟨mem, 0, []⟩, []⟩

/-- The live blocks. -/
def blocks (p : Process) : List Block :=
  p.live.map blockOf

/-- The eight bytes at `a` reach into what lies behind the header of a live
block. -/
def Writable (p : Process) (a : ℕ) : Prop :=
  ∃ b ∈ p.blocks, b.1 < a ∧ a < stop 8 b

instance (p : Process) : DecidablePred p.Writable := fun a =>
  inferInstanceAs (Decidable (∃ b ∈ p.blocks, b.1 < a ∧ a < stop 8 b))

/-- The memory after the process has written to its blocks. -/
def overwrite (p : Process) (contents : Mem) : Mem := fun a =>
  if p.Writable a then contents a else p.heap.mem a

/-- Only live blocks are freed. -/
def step (sbrk : List Call → ℕ → Option ℕ) (rounds base : ℕ) (p : Process) :
    Action → Outcome Process
  | .malloc nbytes =>
      if nbytes < 2 ^ 32 then
        match malloc sbrk rounds base p.heap nbytes with
        | none => .blocked
        | some (r, s) =>
            .next ⟨s, if r = 0 then p.live else (r, nbytes) :: p.live⟩
      else .blocked
  | .free ap =>
      if ∃ x ∈ p.live, x.1 = ap then
        match free rounds p.heap ap with
        | none => .blocked
        | some s => .next ⟨s, p.live.eraseP fun x => x.1 = ap⟩
      else .blocked
  | .write contents =>
      .next { p with heap := { p.heap with mem := p.overwrite contents } }

end Process

/-! ## Requests -/

/-- On the way from `freep` there is a block of `n` units. -/
def Offers (s : Heap) (n : ℕ) : Prop :=
  ∃ k, n ≤ (s.mem ((fun a => (s.mem a).ptr)^[k] s.freep)).size

/-- The number of bytes for which `morecore` asks. -/
def request (nbytes : ℕ) : ℕ :=
  max (units nbytes) 4096 * 8

/-- Either there is nothing for the request and `sbrk` fails, or the rounding to
units does not wrap and the units are there or are fewer than `L` bytes. -/
def Fitting (L base : ℕ) (sbrk : List Call → ℕ → Option ℕ) (s : Heap)
    (nbytes : ℕ) : Prop :=
  (¬Offers (start base s) (units nbytes) ∧
      sbrk s.calls (request nbytes % 2 ^ 32) = none) ∨
    (nbytes + 7 < 2 ^ 32 ∧
      (Offers (start base s) (units nbytes) ∨ request nbytes < L))

/-- Every request of a history is of this kind. -/
def Fits (L base : ℕ) (sbrk : List Call → ℕ → Option ℕ) (p : Process) :
    Action → Prop
  | .malloc nbytes => Fitting L base sbrk p.heap nbytes
  | _ => True

/-- The units of the request, as they would be without any wrap, are fewer than
`2 ^ 32` bytes. -/
def Small (nbytes : ℕ) : Prop :=
  ((nbytes + 7) / 8 + 1) * 8 < 2 ^ 32

section Requests

variable {L base n nbytes : ℕ} {s : Heap} {free live : List Block}
variable {sbrk : List Call → ℕ → Option ℕ}

theorem units_pos (nbytes : ℕ) : 0 < units nbytes :=
  Nat.succ_pos _

theorem units_of_lt (h : nbytes + 7 < 2 ^ 32) :
    units nbytes = (nbytes + 7) / 8 + 1 := by
  rw [units]
  omega

/-- The block has a header and at least the bytes that were asked for. -/
theorem le_units (h : nbytes + 7 < 2 ^ 32) :
    nbytes + 8 ≤ 8 * units nbytes := by
  rw [units_of_lt h]
  omega

theorem Fitting.ask (h : Fitting L base sbrk s nbytes) :
    Offers (start base s) (units nbytes) ∨
      sbrk s.calls (request nbytes % 2 ^ 32) = none ∨ request nbytes < L := by
  rcases h with ⟨-, hnone⟩ | ⟨-, hask⟩
  · exact .inr (.inl hnone)
  · exact hask.imp_right .inr

theorem Small.lt (h : Small nbytes) : nbytes + 7 < 2 ^ 32 := by
  rw [Small] at h
  omega

theorem Small.fitting (h : Small nbytes) :
    Fitting (2 ^ 32) base sbrk s nbytes := by
  refine .inr ⟨h.lt, .inr ?_⟩
  rw [request, units_of_lt h.lt]
  rw [Small] at h
  omega

namespace Shape

variable (h : Shape L base s free live)
include h

/-- From `freep` one comes to all blocks of the ring. -/
theorem exists_iterate_iff {a : ℕ} :
    (∃ k, (fun a => (s.mem a).ptr)^[k] s.freep = a) ↔
      a ∈ ((base, 0) :: free).map Prod.fst :=
  Threaded.exists_iterate_iff (z := base) h.ring h.freep

theorem offers_iff (hn : 0 < n) :
    Offers s n ↔ ∃ b ∈ free, n ≤ b.2 := by
  constructor
  · rintro ⟨k, hk⟩
    obtain ⟨b, hb, heq⟩ := List.mem_map.mp (h.exists_iterate_iff.mp ⟨k, rfl⟩)
    have hsize : (s.mem b.1).size = b.2 := h.ring.val_eq hb
    rw [← heq, hsize] at hk
    rcases List.mem_cons.mp hb with rfl | hb
    · dsimp only at hk
      omega
    · exact ⟨b, hb, hk⟩
  · rintro ⟨b, hb, hle⟩
    have hmem : b ∈ (base, 0) :: free := List.mem_cons_of_mem _ hb
    obtain ⟨k, hk⟩ := h.exists_iterate_iff.mpr (List.mem_map_of_mem hmem)
    have hsize : (s.mem b.1).size = b.2 := h.ring.val_eq hmem
    refine ⟨k, ?_⟩
    rw [hk, hsize]
    exact hle

/-- `malloc` fails, or a block of the units of the request becomes live. -/
theorem malloc {rounds : ℕ} (hsbrk : Fresh L base sbrk) (hL : L ≤ 2 ^ 32)
    (hrounds : 2 ^ 33 ≤ rounds)
    (hask : Offers s (units nbytes) ∨
      sbrk s.calls (request nbytes % 2 ^ 32) = none ∨ request nbytes < L) :
    (¬Offers s (units nbytes) ∧
      sbrk s.calls (request nbytes % 2 ^ 32) = none ∧
      Umalloc.search sbrk rounds (units nbytes) rounds s s.freep
          (s.mem s.freep).ptr =
        some (0, { s with
          calls := (request nbytes % 2 ^ 32, none) :: s.calls })) ∨
    (Offers s (units nbytes) ∨
        sbrk s.calls (request nbytes % 2 ^ 32) ≠ none) ∧
      ∃ s' free' a, Umalloc.search sbrk rounds (units nbytes) rounds s s.freep
          (s.mem s.freep).ptr = some (a + 8, s') ∧
        Shape L base s' free' ((a, units nbytes) :: live) := by
  rw [h.offers_iff (units_pos nbytes)] at hask ⊢
  have hlt : 2 ^ 32 ≤ rounds := by omega
  rcases h.search (units_pos nbytes) hsbrk hL hlt hrounds hask with
    hfail | ⟨hwhy, s', free', t, hrun, ht, hshape⟩
  · exact .inl hfail
  · refine .inr ⟨hwhy, s', free', t.1, hrun, ?_⟩
    rwa [← ht]

end Shape

end Requests

/-! ## The invariant of histories -/

theorem start_eq {base : ℕ} {s : Heap} (h : s.freep ≠ 0) : start base s = s :=
  if_neg h

theorem start_calls (base : ℕ) (s : Heap) : (start base s).calls = s.calls := by
  rw [start]
  split <;> rfl

/-- What `malloc` makes of the heap before it looks for a block. -/
theorem Shape.start {L base : ℕ} {s : Heap} (hbase : 0 < base)
    (hlt : base < 2 ^ 32) (hfreep : s.freep = 0) (hcalls : s.calls = []) :
    Shape L base (start base s) [] [] := by
  rw [Umalloc.start, if_pos hfreep]
  constructor
  · exact hbase
  · exact hlt
  · simp [InMemory, Threaded]
  · simp
  · simp
  · simp
  · simp
  · simp [hcalls, granted]
  · simp [hcalls, granted, Spaced]
  · simp [hcalls, granted]

/-- The invariant of the histories. -/
structure Process.Sound (L base : ℕ) (p : Process) : Prop where
  fresh : p.heap.freep = 0 → p.live = []
  header : ∀ x ∈ p.live, headerOf x.1 + 8 = x.1
  shape : ∃ free, Shape L base (start base p.heap) free p.blocks

namespace Process

section Steps

variable {L base rounds nbytes ap : ℕ} {p p' : Process} {mem : Mem}
variable {sbrk : List Call → ℕ → Option ℕ}

theorem sound_init (hbase : 0 < base) (hlt : base < 2 ^ 32) :
    (init mem).Sound L base where
  fresh _ := rfl
  header := by simp [init]
  shape := ⟨[], Shape.start hbase hlt rfl rfl⟩

namespace Sound

variable (h : p.Sound L base)
include h

theorem started (hlive : p.live ≠ []) : start base p.heap = p.heap :=
  start_eq fun hzero => hlive (h.fresh hzero)

/-- The results of `malloc` on a sound heap. -/
theorem malloc (hsbrk : Fresh L base sbrk) (hL : L ≤ 2 ^ 32)
    (hrounds : 2 ^ 33 ≤ rounds)
    (hask : Offers (start base p.heap) (units nbytes) ∨
      sbrk p.heap.calls (request nbytes % 2 ^ 32) = none ∨
        request nbytes < L) :
    (¬Offers (start base p.heap) (units nbytes) ∧
      sbrk p.heap.calls (request nbytes % 2 ^ 32) = none ∧
      ∃ s' free', Umalloc.malloc sbrk rounds base p.heap nbytes =
          some (0, s') ∧ s'.freep ≠ 0 ∧
        s'.calls = (request nbytes % 2 ^ 32, none) :: p.heap.calls ∧
        Shape L base s' free' p.blocks) ∨
    (Offers (start base p.heap) (units nbytes) ∨
        sbrk p.heap.calls (request nbytes % 2 ^ 32) ≠ none) ∧
      ∃ s' free' a, Umalloc.malloc sbrk rounds base p.heap nbytes =
          some (a + 8, s') ∧
        Shape L base s' free' ((a, units nbytes) :: p.blocks) := by
  obtain ⟨free, hshape⟩ := h.shape
  rw [← start_calls base p.heap] at hask ⊢
  rcases hshape.malloc hsbrk hL hrounds hask with
    ⟨hnone, hcall, hrun⟩ | hrun
  · exact .inl ⟨hnone, hcall, _, free, hrun, hshape.freep_pos.ne', rfl, hshape.failed⟩
  · exact .inr hrun

/-- A live block can be freed. -/
theorem free (hrounds : 2 ^ 33 ≤ rounds) {x : ℕ × ℕ} {live : List (ℕ × ℕ)}
    (hperm : p.live.Perm (x :: live)) :
    ∃ s' free', Umalloc.free rounds p.heap x.1 = some s' ∧ s'.freep ≠ 0 ∧
      Shape L base s' free' (live.map blockOf) := by
  have hx : x ∈ p.live := hperm.mem_iff.mpr List.mem_cons_self
  obtain ⟨free, hshape⟩ := h.shape
  rw [h.started (List.ne_nil_of_mem hx)] at hshape
  obtain ⟨s', free', hrun, hshape', -, -⟩ :=
    (hshape.perm (hperm.map blockOf).symm).freed (n := rounds) (by omega)
  refine ⟨s', free', ?_, hshape'.freep_pos.ne', hshape'⟩
  rwa [blockOf, h.header x hx] at hrun

omit h in
/-- The process writes only behind the headers of its blocks. -/
theorem overwrite_eq {contents : Mem} {free : List Block}
    (hshape : Shape L base p.heap free p.blocks) {b : Block}
    (hb : b ∈ (base, 0) :: free ∨ b ∈ p.blocks) :
    p.overwrite contents b.1 = p.heap.mem b.1 := by
  apply if_neg
  rintro ⟨c, hc, hlt, hstop⟩
  have hbounds := hshape.block_bounds (List.mem_append_right free hc)
  rcases hb with hb | hb
  · rcases List.mem_cons.mp hb with rfl | hb
    · dsimp only at hlt
      omega
    · have hpair := (List.pairwise_append.mp hshape.pairwise).2.2 b hb c hc
      have hpos := hshape.pos b (List.mem_append_left _ hb)
      simp only [stop] at hpair hstop
      omega
  · have hpos := hshape.pos b (List.mem_append_right _ hb)
    by_cases heq : b = c
    · rw [heq] at hlt
      omega
    · have hpair := hshape.apart (List.mem_append_right _ hb)
        (List.mem_append_right _ hc) heq
      simp only [stop] at hpair hstop
      omega

/-- Writing to live blocks. -/
theorem write (contents : Mem) : Sound L base
    { p with heap := { p.heap with mem := p.overwrite contents } } where
  fresh := h.fresh
  header := h.header
  shape := by
    obtain ⟨free, hshape⟩ := h.shape
    by_cases hzero : p.heap.freep = 0
    · have hsame : p.overwrite contents = p.heap.mem := by
        funext a
        simp [overwrite, Writable, blocks, h.fresh hzero]
      rw [hsame]
      exact ⟨free, hshape⟩
    · rw [start_eq hzero] at hshape
      have hstart : start base { p.heap with mem := p.overwrite contents } =
          { p.heap with mem := p.overwrite contents } := start_eq hzero
      refine ⟨free, hstart.symm ▸ { hshape with ring := ?_, sizes := ?_ }⟩
      · apply hshape.ring.congr
        intro b hb
        dsimp only
        rw [overwrite_eq hshape (.inl hb)]
        exact ⟨rfl, rfl⟩
      · intro b hb
        dsimp only
        rw [overwrite_eq hshape (.inr hb)]
        exact hshape.sizes b hb

/-- Every step of a history keeps the invariant, if its requests are fitting
ones. -/
theorem step (hsbrk : Fresh L base sbrk) (hL : L ≤ 2 ^ 32)
    (hrounds : 2 ^ 33 ≤ rounds) {a : Action} (hfits : Fits L base sbrk p a)
    (hstep : p.step sbrk rounds base a = .next p') : p'.Sound L base := by
  cases a with
  | malloc nbytes =>
      rw [Process.step] at hstep
      split at hstep
      · rcases h.malloc hsbrk hL hrounds hfits.ask with
          ⟨-, -, s', free', hrun, hne, -, hshape⟩ |
          ⟨-, s', free', a, hrun, hshape⟩
        · rw [hrun] at hstep
          obtain rfl := Outcome.next.inj hstep
          exact ⟨fun hzero => absurd hzero hne, h.header, free',
            (start_eq hne).symm ▸ hshape⟩
        · rw [hrun] at hstep
          obtain rfl := Outcome.next.inj hstep
          have hlt := (hshape.block_bounds (b := (a, units nbytes)) (by simp)).2
          rw [stop] at hlt
          have ha : headerOf (a + 8) = a := headerOf_add (by omega)
          have hne := hshape.freep_pos.ne'
          refine ⟨fun hzero => absurd hzero hne, ?_, free', ?_⟩
          · simp only [if_neg (Nat.succ_ne_zero (a + 7)), List.forall_mem_cons]
            exact ⟨by rw [ha], h.header⟩
          · simpa [blocks, blockOf, ha, start_eq hne] using hshape
      · cases hstep
  | free ap =>
      rw [Process.step] at hstep
      split at hstep
      · next hlive =>
          obtain ⟨x, hx, rfl⟩ := hlive
          obtain ⟨y, l₁, l₂, -, hy, hsplit, herase⟩ := List.exists_of_eraseP
            (p := fun y => decide (y.1 = x.1)) hx (by simp)
          have hperm : p.live.Perm (y :: (l₁ ++ l₂)) := by
            rw [hsplit]
            exact List.perm_middle
          obtain ⟨s', free', hrun, hne, hshape⟩ := h.free hrounds hperm
          have hyx : y.1 = x.1 := by simpa using hy
          rw [hyx] at hrun
          rw [hrun, herase] at hstep
          obtain rfl := Outcome.next.inj hstep
          refine ⟨fun hzero => absurd hzero hne, fun z hz => ?_, free',
            (start_eq hne).symm ▸ hshape⟩
          exact h.header z (hperm.mem_iff.mpr (List.mem_cons_of_mem y hz))
      · cases hstep
  | write contents =>
      obtain rfl := Outcome.next.inj hstep
      exact h.write contents

end Sound

/-- The invariant holds after every history of fitting requests. -/
theorem sound_of_run (hbase : 0 < base) (hlt : base < 2 ^ 32)
    (hsbrk : Fresh L base sbrk) (hL : L ≤ 2 ^ 32) (hrounds : 2 ^ 33 ≤ rounds)
    {w : List Action} (hrun : Run (step sbrk rounds base) (init mem) w p)
    (hw : Meets (step sbrk rounds base) (Fits L base sbrk) (init mem) w) :
    p.Sound L base :=
  hrun.invariant_of_meets
    (fun _ _ _ h hfits hstep => h.step hsbrk hL hrounds hfits hstep) hw
    (sound_init hbase hlt)

end Steps

/-! ## The free list and the live blocks -/

/-- The free list consists of `base` and of the blocks `free`. -/
structure FreeList (L base : ℕ) (p : Process) (free : List Block) : Prop where
  ring : InMemory p.heap.mem ((base, 0) :: free) base
  reached : ∀ a, (∃ k, (fun a => (p.heap.mem a).ptr)^[k] p.heap.freep = a) ↔
    a ∈ ((base, 0) :: free).map Prod.fst
  sorted : Sorted ((base, 0) :: free)
  above : ∀ b ∈ free ++ p.blocks, base + 8 ≤ b.1
  apart : (free ++ p.blocks).Pairwise fun b c =>
    stop 8 b ≤ c.1 ∨ stop 8 c ≤ b.1
  sum : (free.map Prod.snd).sum + (p.blocks.map Prod.snd).sum =
    ((granted L p.heap.calls).map Prod.snd).sum

/-- The block of the result `r` has room for `nbytes` bytes behind its header,
and all its units come from `sbrk`. -/
structure Backed (L : ℕ) (s : Heap) (nbytes r : ℕ) : Prop where
  header : headerOf r + 8 = r
  size : nbytes + 8 ≤ 8 * (s.mem (headerOf r)).size
  granted : ∀ x ∈ cells 8 (headerOf r, (s.mem (headerOf r)).size),
    x ∈ (granted L s.calls).flatMap (cells 8)

/-- `malloc` returns zero, or a block for the request. -/
def MallocSafe (L base rounds : ℕ) (sbrk : List Call → ℕ → Option ℕ)
    (p : Process) (nbytes : ℕ) : Prop :=
  ∃ r s', malloc sbrk rounds base p.heap nbytes = some (r, s') ∧
    (r = 0 ∨ Backed L s' nbytes r)

section Results

variable {L base rounds nbytes : ℕ} {p : Process} {free : List Block}
variable {sbrk : List Call → ℕ → Option ℕ}

theorem freeList_of_shape (h : Shape L base p.heap free p.blocks) :
    FreeList L base p free where
  ring := h.ring
  reached _ := h.exists_iterate_iff
  sorted := h.sorted
  above _ hb := (h.block_bounds hb).1
  apart := h.pairwise
  sum := by
    have hlen := h.covers.length_eq
    rw [length_flatMap_cells, length_flatMap_cells, List.map_append,
      List.sum_append] at hlen
    exact hlen

/-- The block that `malloc` has made live. -/
theorem result_of_shape {s : Heap} {a n : ℕ} {live : List Block}
    (h : Shape L base s free ((a, n) :: live)) :
    headerOf (a + 8) = a ∧ (s.mem a).size = n ∧
      (∀ x ∈ cells 8 (a, n), x ∈ (granted L s.calls).flatMap (cells 8)) ∧
      ∀ c ∈ live, stop 8 (a, n) ≤ c.1 ∨ stop 8 c ≤ a := by
  have hlt := (h.block_bounds (b := (a, n)) (by simp)).2
  rw [stop] at hlt
  refine ⟨headerOf_add (by omega), h.sizes (a, n) List.mem_cons_self, ?_, ?_⟩
  · intro x hx
    rw [← h.covers.mem_iff]
    exact List.mem_flatMap.mpr ⟨(a, n), by simp, hx⟩
  · have hpair := (List.pairwise_append.mp h.pairwise).2.1
    exact (List.pairwise_cons.mp hpair).1

theorem backed_of_shape {s : Heap} {a : ℕ} {live : List Block}
    (h : Shape L base s free ((a, units nbytes) :: live))
    (hn : nbytes + 7 < 2 ^ 32) : Backed L s nbytes (a + 8) := by
  obtain ⟨hheader, hsize, hgranted, -⟩ := result_of_shape h
  constructor
  · rw [hheader]
  · rw [hheader, hsize]
    exact le_units hn
  · rw [hheader, hsize]
    exact hgranted

theorem Sound.safe_of_fitting (h : p.Sound L base) (hsbrk : Fresh L base sbrk)
    (hL : L ≤ 2 ^ 32) (hrounds : 2 ^ 33 ≤ rounds)
    (hfit : Fitting L base sbrk p.heap nbytes) :
    MallocSafe L base rounds sbrk p nbytes := by
  rcases h.malloc hsbrk hL hrounds hfit.ask with
    ⟨-, -, s', -, hrun, -⟩ | ⟨hwhy, s', free', a, hrun, hshape⟩
  · exact ⟨0, s', hrun, .inl rfl⟩
  · refine ⟨a + 8, s', hrun, .inr (backed_of_shape hshape ?_)⟩
    rcases hfit with ⟨hoffers, hnone⟩ | ⟨hn, -⟩
    · exact absurd hnone (hwhy.resolve_left hoffers)
    · exact hn

/-- The rounding to units wraps to a block of a header only. -/
theorem units_of_wrap (hn : nbytes < 2 ^ 32) (hwrap : 2 ^ 32 ≤ nbytes + 7) :
    units nbytes = 1 := by
  rw [units]
  omega

theorem Sound.fitting_of_safe (h : p.Sound L base) (hsbrk : Fresh L base sbrk)
    (hL : L ≤ 2 ^ 32) (hrounds : 2 ^ 33 ≤ rounds) (hlarge : 4096 * 8 < L)
    (hn : nbytes < 2 ^ 32) (hwrap : 2 ^ 32 ≤ nbytes + 7)
    (hsafe : MallocSafe L base rounds sbrk p nbytes) :
    Fitting L base sbrk p.heap nbytes := by
  have hunits := units_of_wrap hn hwrap
  have hrequest : request nbytes < L := by
    rw [request, hunits]
    exact hlarge
  obtain ⟨r, s, hrun, hr⟩ := hsafe
  rcases h.malloc hsbrk hL hrounds (.inr (.inr hrequest)) with
    ⟨hoffers, hnone, -⟩ | ⟨-, s', free', a, hrun', hshape⟩
  · exact .inl ⟨hoffers, hnone⟩
  · rw [hrun] at hrun'
    obtain ⟨rfl, rfl⟩ := Prod.mk.inj (Option.some.inj hrun')
    obtain ⟨hheader, hsize, -⟩ := result_of_shape hshape
    have hbacked := (hr.resolve_left (Nat.succ_ne_zero _)).size
    rw [hheader, hsize, hunits] at hbacked
    omega

end Results

end Process

/-! ## An example of sbrk -/

/-- The end of the memory of a process that begins its heap at 4096. -/
def brk (calls : List Call) : ℕ :=
  calls.foldr (fun c a => max a ((c.2.map (· + c.1)).getD 0)) 4096

/-- Every call moves the end of the memory, but not up to `KERNBASE`. -/
def simpleSbrk (calls : List Call) (k : ℕ) : Option ℕ :=
  if brk calls + k < 2 ^ 31 then some (brk calls) else none

theorem le_brk (calls : List Call) : 4096 ≤ brk calls := by
  induction calls with
  | nil => exact le_rfl
  | cons c calls ih => exact ih.trans (le_max_left _ _)

theorem add_le_brk {calls : List Call} {c : Call} {p : ℕ} (hc : c ∈ calls)
    (hp : c.2 = some p) : p + c.1 ≤ brk calls := by
  induction calls with
  | nil => cases hc
  | cons d calls ih =>
      have hbrk : brk (d :: calls) =
          max (brk calls) ((d.2.map (· + d.1)).getD 0) := rfl
      rw [hbrk, le_max_iff]
      rcases List.mem_cons.mp hc with rfl | hc
      · right
        rw [hp]
        exact le_rfl
      · exact .inl (ih hc)

theorem stop_le_brk {L : ℕ} {calls : List Call} {b : Block}
    (hb : b ∈ granted L calls) : stop 8 b ≤ brk calls := by
  obtain ⟨c, hc, heq⟩ := List.mem_filterMap.mp hb
  split at heq
  · obtain ⟨p, hp, rfl⟩ := Option.map_eq_some_iff.mp heq
    have hle := add_le_brk hc hp
    rw [stop]
    omega
  · cases heq

theorem fresh_simpleSbrk (L : ℕ) : Fresh L 1024 simpleSbrk := by
  intro calls k p hp _
  rw [simpleSbrk] at hp
  split at hp
  · obtain rfl := Option.some.inj hp
    have := le_brk calls
    exact ⟨by omega, by omega, fun c hc => stop_le_brk hc⟩
  · cases hp

namespace Process

/-- A memory of zeros. -/
def zeros : Mem := fun _ => ⟨0, 0⟩

theorem exists_run_malloc {rounds : ℕ} (hrounds : 2 ^ 33 ≤ rounds) :
    ∃ p, Run (step simpleSbrk rounds 1024) (init zeros) [.malloc 100] p := by
  have h : (init zeros).Sound (2 ^ 32) 1024 := sound_init (by decide) (by decide)
  have hfit : Small 100 := by
    rw [Small]
    decide
  rcases h.malloc (fresh_simpleSbrk _) le_rfl hrounds hfit.fitting.ask with
    ⟨-, -, s', -, hrun, -⟩ | ⟨-, s', -, a, hrun, -⟩
  · exact ⟨_, Run.single (by simp only [step, hrun]; rfl)⟩
  · exact ⟨_, Run.single (by simp only [step, hrun]; rfl)⟩

/-! ## Every history -/

section Histories

variable {L base rounds nbytes : ℕ} {p : Process} {mem : Mem} {w : List Action}
variable {sbrk : List Call → ℕ → Option ℕ}

/-- The heap after every history whose requests are small enough, and what the
next call of `malloc` or of `free` does to it. -/
theorem heap_correct (hbase : 0 < base) (hlt : base < 2 ^ 32)
    (hsbrk : Fresh (2 ^ 32) base sbrk) (hrounds : 2 ^ 33 ≤ rounds)
    (hrun : Run (step sbrk rounds base) (init mem) w p)
    (hw : ∀ nbytes, Action.malloc nbytes ∈ w → Small nbytes) :
    (p.heap.freep = 0 ∧ p.live = [] ∨
      ∃ free, FreeList (2 ^ 32) base p free) ∧
    (∀ nbytes, Small nbytes → ∃ r s',
      malloc sbrk rounds base p.heap nbytes = some (r, s') ∧
        (r = 0 → ∃ k, sbrk p.heap.calls k = none ∧
          s'.calls = (k, none) :: p.heap.calls) ∧
        (r ≠ 0 → Backed (2 ^ 32) s' nbytes r ∧ ∀ c ∈ p.blocks,
          stop 8 (headerOf r, (s'.mem (headerOf r)).size) ≤ c.1 ∨
            stop 8 c ≤ headerOf r)) ∧
    ∀ x ∈ p.live, ∃ s', free rounds p.heap x.1 = some s' := by
  have hmeets : Meets (step sbrk rounds base) (Fits (2 ^ 32) base sbrk)
      (init mem) w := by
    apply Meets.of_forall
    intro q a ha
    cases a with
    | malloc nbytes => exact (hw nbytes ha).fitting
    | free ap => trivial
    | write contents => trivial
  have h := sound_of_run hbase hlt hsbrk le_rfl hrounds hrun hmeets
  refine ⟨?_, ?_, ?_⟩
  · by_cases hzero : p.heap.freep = 0
    · exact .inl ⟨hzero, h.fresh hzero⟩
    · obtain ⟨free, hshape⟩ := h.shape
      rw [start_eq hzero] at hshape
      exact .inr ⟨free, freeList_of_shape hshape⟩
  · intro nbytes hsmall
    have hfit : Fitting (2 ^ 32) base sbrk p.heap nbytes := hsmall.fitting
    rcases h.malloc hsbrk le_rfl hrounds hfit.ask with
      ⟨-, hnone, s', free', hmalloc, -, hcalls, -⟩ |
        ⟨-, s', free', a, hmalloc, hshape⟩
    · exact ⟨0, s', hmalloc, fun _ => ⟨_, hnone, hcalls⟩,
        fun hne => absurd rfl hne⟩
    · obtain ⟨hheader, hsize, -, hapart⟩ := result_of_shape hshape
      refine ⟨a + 8, s', hmalloc, fun hzero => absurd hzero (Nat.succ_ne_zero _),
        fun _ => ⟨backed_of_shape hshape hsmall.lt, ?_⟩⟩
      rw [hheader, hsize]
      exact hapart
  · intro x hx
    obtain ⟨l₁, l₂, hsplit⟩ := List.append_of_mem hx
    have hperm : p.live.Perm (x :: (l₁ ++ l₂)) := by
      rw [hsplit]
      exact List.perm_middle
    obtain ⟨s', free', hfree, -⟩ := h.free hrounds hperm
    exact ⟨s', hfree⟩

theorem heap_correct_one : ∃ rounds p,
    Run (step simpleSbrk rounds 1024) (init zeros) [.malloc 100] p ∧
      (p.heap.freep = 0 ∧ p.live = [] ∨
        ∃ free, FreeList (2 ^ 32) 1024 p free) := by
  obtain ⟨rounds, hrounds⟩ : ∃ n, 2 ^ 33 ≤ n := ⟨_, le_rfl⟩
  obtain ⟨p, hrun⟩ := exists_run_malloc hrounds
  refine ⟨rounds, p, hrun, ?_⟩
  exact (heap_correct (by decide) (by decide) (fresh_simpleSbrk _) hrounds hrun (by
    intro nbytes hmem
    obtain rfl : nbytes = 100 := by simpa using hmem
    rw [Small]
    decide)).1

/-- After every history of fitting requests, a request for which the rounding
wraps is safe only if it is a fitting one, and every fitting request is safe. -/
theorem malloc_safe (hbase : 0 < base) (hlt : base < 2 ^ 32)
    (hsbrk : Fresh L base sbrk) (hL : L ≤ 2 ^ 32) (hrounds : 2 ^ 33 ≤ rounds)
    (hrun : Run (step sbrk rounds base) (init mem) w p)
    (hw : Meets (step sbrk rounds base) (Fits L base sbrk) (init mem) w)
    (hn : nbytes < 2 ^ 32) :
    (Fitting L base sbrk p.heap nbytes →
      MallocSafe L base rounds sbrk p nbytes) ∧
    (4096 * 8 < L → 2 ^ 32 ≤ nbytes + 7 →
      MallocSafe L base rounds sbrk p nbytes →
        Fitting L base sbrk p.heap nbytes) := by
  have h := sound_of_run hbase hlt hsbrk hL hrounds hrun hw
  exact ⟨h.safe_of_fitting hsbrk hL hrounds,
    fun hlarge => h.fitting_of_safe hsbrk hL hrounds hlarge hn⟩

theorem malloc_safe_one : ∃ rounds p,
    Run (step simpleSbrk rounds 1024) (init zeros) [.malloc 100] p ∧
      MallocSafe (2 ^ 31) 1024 rounds simpleSbrk p 1000 := by
  obtain ⟨rounds, hrounds⟩ : ∃ n, 2 ^ 33 ≤ n := ⟨_, le_rfl⟩
  obtain ⟨p, hrun⟩ := exists_run_malloc hrounds
  refine ⟨rounds, p, hrun, ?_⟩
  have hfit : ∀ q : Process, ∀ nbytes ≤ 1000,
      Fitting (2 ^ 31) 1024 simpleSbrk q.heap nbytes := by
    intro q nbytes hle
    refine .inr ⟨by omega, .inr ?_⟩
    rw [request, units]
    omega
  apply (malloc_safe (by decide) (by decide) (fresh_simpleSbrk _) (by decide) hrounds
    hrun _ (by decide)).1 (hfit p 1000 le_rfl)
  exact ⟨hfit _ 100 (by decide), fun _ _ => trivial⟩

/-- For almost `2 ^ 32` bytes `malloc` returns a block without any room. -/
theorem malloc_not_always_safe : ¬∀ (base rounds : ℕ)
    (sbrk : List Call → ℕ → Option ℕ) (mem : Mem) (w : List Action)
    (p : Process) (nbytes : ℕ), 0 < base → base < 2 ^ 32 →
      Fresh (2 ^ 32) base sbrk → 2 ^ 33 ≤ rounds →
      Run (step sbrk rounds base) (init mem) w p → nbytes < 2 ^ 32 →
        MallocSafe (2 ^ 32) base rounds sbrk p nbytes := by
  intro hall
  obtain ⟨rounds, hrounds⟩ : ∃ n, 2 ^ 33 ≤ n := ⟨_, le_rfl⟩
  have hsafe := hall 1024 rounds simpleSbrk zeros [] (init zeros) 0xFFFFFFFF
    (by decide) (by decide) (fresh_simpleSbrk _) hrounds (.nil _) (by decide)
  have h : (init zeros).Sound (2 ^ 32) 1024 := sound_init (by decide) (by decide)
  rcases h.fitting_of_safe (fresh_simpleSbrk _) le_rfl hrounds (by decide) (by decide)
    (by decide) hsafe with ⟨-, hnone⟩ | ⟨hlt, -⟩
  · rw [request, units_of_wrap (by decide) (by decide)] at hnone
    simp [simpleSbrk, init, brk] at hnone
  · omega

end Histories

end Process

end ZtlOs.Umalloc
