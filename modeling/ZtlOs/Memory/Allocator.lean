import ZtlOs.Memory.Vm
import ZtlOs.Support.Runs
import Mathlib.Data.Finset.Insert

/-!
# Freeing pages

`kfree`, `freerange` and `kinit1` of `kalloc.c`, and what the allocator keeps
over any history of calls.  The linker symbol `end` is a parameter (`bound`);
the kernel is linked at `KERNLINK` and ends above it.

A history also holds steps in which the owners of allocated pages write to
them.  The pages handed out so far are recorded beside the state of the
allocator; the code itself keeps no such record.
-/

namespace ZtlOs.Memory

open Support

def PGROUNDUP (sz : Word) : Word := (sz + PGSIZE - 1) &&& ~~~(PGSIZE - 1)

theorem toNat_PGROUNDUP {sz : Word} (h : sz.toNat + 4095 < 2 ^ 32) :
    (PGROUNDUP sz).toNat = (sz.toNat + 4095) / 4096 * 4096 := by
  have hround : PGROUNDUP sz = PGROUNDDOWN (sz + 4095#32) := by
    have hsum : sz + PGSIZE - 1 = sz + 4095#32 := by
      unfold PGSIZE
      bv_omega
    rw [PGROUNDUP, hsum, PGROUNDDOWN]
  rw [hround, toNat_PGROUNDDOWN, BitVec.toNat_add]
  have hconst : (4095#32).toNat = 4095 := rfl
  rw [hconst, Nat.mod_eq_of_lt h]

/-- `memset(p, 1, PGSIZE)` for a page `p`. -/
def Kmem.junkPage (s : Kmem) (p : Word) : Kmem :=
  { s with mem := fun x => if PGROUNDDOWN x = p then 0x01010101#32 else s.mem x }

/-- New contents for the words of the pages `held`. -/
def Kmem.overwrite (s : Kmem) (held : Finset Word) (contents : Word → Word) :
    Kmem :=
  { s with
    mem := fun x => if PGROUNDDOWN x ∈ held then contents x else s.mem x }

/-- `kfree`. -/
def kfree (bound v : Word) (s : Kmem) : Result Unit :=
  if ¬ PageAligned v ∨ v < bound ∨ PHYSTOP ≤ V2P v then
    .panic "kfree"
  else
    let s := s.junkPage v
    let s := s.store v s.freelist
    .ret () { s with freelist := v }

/-- The loop of `freerange`, from page `p` on. -/
def freerangeLoop (bound vend : Word) : ℕ → Word → Kmem → Result Unit
  | 0, _, _ => .running
  | fuel + 1, p, s =>
      if p + PGSIZE ≤ vend then
        match kfree bound p s with
        | .ret _ s => freerangeLoop bound vend fuel (p + PGSIZE) s
        | .panic message => .panic message
        | .running => .running
      else .ret () s

def freerange (bound vstart vend : Word) (s : Kmem) : Result Unit :=
  freerangeLoop bound vend addressSpacePages (PGROUNDUP vstart) s

/-- `kinit1`. -/
def kinit1 (bound vstart vend : Word) (s : Kmem) : Result Unit :=
  freerange bound vstart vend s

/-! ## Histories -/

/-- The allocator and the pages that it has handed out. -/
structure Heap where
  kmem : Kmem
  allocated : Finset Word

/-- A call of the allocator, or a write by the owners of allocated pages. -/
inductive Action where
  | kalloc
  | kfree (v : Word)
  /-- New contents for the allocated pages. -/
  | write (contents : Word → Word)

/-- One step of a history.  Only allocated pages are freed. -/
def Heap.step (bound : Word) (h : Heap) : Action → Outcome Heap
  | .kalloc =>
      let (r, s) := Memory.kalloc h.kmem
      .next ⟨s, if r = 0 then h.allocated else insert r h.allocated⟩
  | .kfree v =>
      if v ∈ h.allocated then
        match Memory.kfree bound v h.kmem with
        | .ret _ s => .next ⟨s, h.allocated.erase v⟩
        | .panic message => .panic message
        | .running => .blocked
      else .blocked
  | .write contents => .next ⟨h.kmem.overwrite h.allocated contents, h.allocated⟩

/-- `p` is a page that lies wholly between `PGROUNDUP(vstart)` and `vend`. -/
def WholePage (vstart vend p : Word) : Prop :=
  PageAligned p ∧ PGROUNDUP vstart ≤ p ∧ p.toNat + 4096 ≤ vend.toNat

/-- The free list consists of the pages `free`, which together with the
allocated ones are the pages `P`, each of them once. -/
structure Pool (P : Word → Prop) (h : Heap) (free : List Word) : Prop where
  pages : FreePages h.kmem free
  disjoint : ∀ p ∈ free, p ∉ h.allocated
  all : ∀ p, p ∈ free ∨ p ∈ h.allocated ↔ P p

/-- What `kfree` needs of the pages that it is given. -/
structure Freeable (bound : Word) (P : Word → Prop) : Prop where
  aligned : ∀ p, P p → PageAligned p
  above : ∀ p, P p → bound ≤ p
  below : ∀ p, P p → V2P p < PHYSTOP
  nonzero : ∀ p, P p → p ≠ 0

theorem FreePages.congr {s t : Kmem} {pages : List Word} (h : FreePages s pages)
    (hlist : t.freelist = s.freelist)
    (hsame : ∀ p ∈ pages, t.mem p = s.mem p) : FreePages t pages where
  chain := by
    rw [hlist]
    exact h.chain.congr hsame
  nodup := h.nodup
  aligned := h.aligned

/-- `kfree` puts the page in front of the free list. -/
theorem kfree_ret {bound v : Word} {s : Kmem} {pages : List Word}
    (h : FreePages s pages) (haligned : PageAligned v) (habove : bound ≤ v)
    (hbelow : V2P v < PHYSTOP) (hzero : v ≠ 0) (hnew : v ∉ pages) :
    ∃ t, kfree bound v s = .ret () t ∧ FreePages t (v :: pages) := by
  have hguard : ¬ (¬ PageAligned v ∨ v < bound ∨ PHYSTOP ≤ V2P v) := by
    rintro (h | h | h)
    · exact h haligned
    · exact absurd habove (BitVec.not_le.mpr h)
    · exact absurd hbelow (BitVec.not_lt.mpr h)
  rw [kfree, if_neg hguard]
  refine ⟨_, rfl, ⟨⟨rfl, hzero, ?_⟩, ?_, ?_⟩⟩
  · -- The link of the page is the old head; the rest of the list is elsewhere.
    have hhead : ((s.junkPage v).store v (s.junkPage v).freelist).mem v =
        s.freelist :=
      Kmem.store_mem_self _ _ _
    dsimp only
    rw [hhead]
    apply h.chain.congr
    intro p hp
    have hne : p ≠ v := fun heq => hnew (heq ▸ hp)
    rw [Kmem.store_mem_of_ne hne]
    simp only [Kmem.junkPage, PGROUNDDOWN_of_aligned (h.aligned p hp),
      if_neg hne]
  · exact List.nodup_cons.mpr ⟨hnew, h.nodup⟩
  · intro p hp
    rcases List.mem_cons.mp hp with rfl | hp
    · exact haligned
    · exact h.aligned p hp

namespace Pool

variable {bound : Word} {P : Word → Prop} {h h' : Heap} {free : List Word}

/-- `kalloc` finds a page unless all of them are allocated. -/
theorem kalloc_cases (hpool : Pool P h free) :
    (free = [] ∧ kalloc h.kmem = (0, h.kmem)) ∨
      ∃ p rest, free = p :: rest ∧ p ≠ 0 ∧
        kalloc h.kmem = (p, { h.kmem with freelist := h.kmem.mem p }) := by
  cases free with
  | nil => exact .inl ⟨rfl, kalloc_nil hpool.pages.chain⟩
  | cons p rest =>
      have hp : p ≠ 0 := hpool.pages.chain.ne_zero p List.mem_cons_self
      exact .inr ⟨p, rest, rfl, hp, kalloc_cons hpool.pages.chain⟩

theorem kalloc_eq_zero_iff (hpool : Pool P h free) :
    (kalloc h.kmem).1 = 0 ↔ ∀ p, P p → p ∈ h.allocated := by
  rcases hpool.kalloc_cases with ⟨rfl, hk⟩ | ⟨p, rest, rfl, hp, hk⟩
  · rw [hk]
    refine ⟨fun _ p hp => ?_, fun _ => rfl⟩
    rcases (hpool.all p).mpr hp with hmem | hmem
    · cases hmem
    · exact hmem
  · rw [hk]
    have hfree : p ∈ p :: rest := List.mem_cons_self
    constructor
    · intro hz
      exact absurd hz hp
    · intro hall
      have hmem := hall p ((hpool.all p).mp (.inl hfree))
      exact absurd hmem (hpool.disjoint p hfree)

theorem kalloc_fresh (hpool : Pool P h free) (hr : (kalloc h.kmem).1 ≠ 0) :
    P (kalloc h.kmem).1 ∧ (kalloc h.kmem).1 ∉ h.allocated := by
  rcases hpool.kalloc_cases with ⟨-, hk⟩ | ⟨p, rest, rfl, -, hk⟩
  · rw [hk] at hr
    exact absurd rfl hr
  · rw [hk]
    have hfree : p ∈ p :: rest := List.mem_cons_self
    exact ⟨(hpool.all p).mp (.inl hfree), hpool.disjoint p hfree⟩

theorem step_kalloc (hpool : Pool P h free)
    (hstep : h.step bound .kalloc = .next h') : ∃ free', Pool P h' free' := by
  rcases hpool.kalloc_cases with ⟨rfl, hk⟩ | ⟨p, rest, rfl, hp, hk⟩
  · simp only [Heap.step, hk, if_pos] at hstep
    cases hstep
    exact ⟨[], hpool⟩
  · simp only [Heap.step, hk, if_neg hp] at hstep
    cases hstep
    obtain ⟨hnot, hnodup⟩ := List.nodup_cons.mp hpool.pages.nodup
    refine ⟨rest, ⟨hpool.pages.chain.2.2, hnodup, ?_⟩, ?_, ?_⟩
    · intro q hq
      exact hpool.pages.aligned q (List.mem_cons_of_mem p hq)
    · intro q hq hmem
      rcases Finset.mem_insert.mp hmem with rfl | hmem
      · exact hnot hq
      · exact hpool.disjoint q (List.mem_cons_of_mem p hq) hmem
    · intro q
      rw [← hpool.all q, List.mem_cons, Finset.mem_insert]
      tauto

/-- Freeing an allocated page does not panic. -/
theorem step_kfree (hF : Freeable bound P) (hpool : Pool P h free) {v : Word}
    (hv : v ∈ h.allocated) :
    ∃ t, h.step bound (.kfree v) = .next t ∧ Pool P t (v :: free) := by
  have hP : P v := (hpool.all v).mp (.inr hv)
  have hnew : v ∉ free := fun hmem => hpool.disjoint v hmem hv
  obtain ⟨t, ht, hpages⟩ := kfree_ret hpool.pages (hF.aligned v hP)
    (hF.above v hP) (hF.below v hP) (hF.nonzero v hP) hnew
  refine ⟨⟨t, h.allocated.erase v⟩, ?_, hpages, ?_, ?_⟩
  · simp only [Heap.step, if_pos hv, ht]
  · intro q hq hmem
    obtain ⟨hne, hmem⟩ := Finset.mem_erase.mp hmem
    rcases List.mem_cons.mp hq with rfl | hq
    · exact hne rfl
    · exact hpool.disjoint q hq hmem
  · intro q
    rw [← hpool.all q, List.mem_cons, Finset.mem_erase]
    by_cases hq : q = v
    · simp [hq, hv]
    · simp [hq]

theorem step_write (hpool : Pool P h free) (contents : Word → Word)
    (hstep : h.step bound (.write contents) = .next h') : Pool P h' free := by
  cases hstep
  refine ⟨hpool.pages.congr rfl ?_, hpool.disjoint, hpool.all⟩
  intro p hp
  have hpage := PGROUNDDOWN_of_aligned (hpool.pages.aligned p hp)
  simp only [Kmem.overwrite, hpage, if_neg (hpool.disjoint p hp)]

/-- Every step of a history keeps the pool of pages together. -/
theorem step (hF : Freeable bound P) (hpool : Pool P h free) {a : Action}
    (hstep : h.step bound a = .next h') : ∃ free', Pool P h' free' := by
  cases a with
  | kalloc => exact hpool.step_kalloc hstep
  | kfree v =>
      by_cases hv : v ∈ h.allocated
      · obtain ⟨t, ht, hpool'⟩ := hpool.step_kfree hF hv
        rw [ht] at hstep
        cases hstep
        exact ⟨_, hpool'⟩
      · simp only [Heap.step, if_neg hv] at hstep
        cases hstep
  | write contents => exact ⟨free, hpool.step_write contents hstep⟩

/-- No step of a history panics. -/
theorem no_panic (hF : Freeable bound P) (hpool : Pool P h free) (a : Action)
    (message : String) : h.step bound a ≠ .panic message := by
  cases a with
  | kalloc => exact fun h => by cases h
  | kfree v =>
      by_cases hv : v ∈ h.allocated
      · obtain ⟨t, ht, -⟩ := hpool.step_kfree hF hv
        rw [ht]
        exact fun h => by cases h
      · simp only [Heap.step, if_neg hv]
        exact fun h => by cases h
  | write contents => exact fun h => by cases h

end Pool

/-! ## Filling the free list -/

theorem le_iff_toNat {a b : Word} : a ≤ b ↔ a.toNat ≤ b.toNat :=
  BitVec.le_def

/-- Physical addresses up to `PHYSTOP` are the kernel addresses from
`KERNBASE` on. -/
theorem toNat_of_V2P_le {a : Word} (h : V2P a ≤ PHYSTOP) :
    0x80000000 ≤ a.toNat ∧ a.toNat ≤ 0x8E000000 := by
  rw [le_iff_toNat, V2P, BitVec.toNat_sub] at h
  have hbase : KERNBASE.toNat = 0x80000000 := rfl
  have htop : PHYSTOP.toNat = 0xE000000 := rfl
  have ha := a.isLt
  omega

theorem V2P_lt_PHYSTOP {a : Word} (hlow : 0x80000000 ≤ a.toNat)
    (hhigh : a.toNat < 0x8E000000) : V2P a < PHYSTOP := by
  rw [BitVec.lt_def, V2P, BitVec.toNat_sub]
  have hbase : KERNBASE.toNat = 0x80000000 := rfl
  have htop : PHYSTOP.toNat = 0xE000000 := rfl
  omega

section Freerange

variable {bound vstart vend : Word}

/-- The whole pages of the range below `p`. -/
def PagesBelow (vstart vend p : Word) (pages : List Word) : Prop :=
  ∀ q, q ∈ pages ↔ WholePage vstart vend q ∧ q < p

theorem freeable_wholePage (hbound : KERNLINK ≤ bound)
    (hstart : bound ≤ PGROUNDUP vstart) (hvend : V2P vend ≤ PHYSTOP) :
    Freeable bound (WholePage vstart vend) := by
  have hlink : KERNLINK.toNat = 0x80100000 := rfl
  obtain ⟨-, htop⟩ := toNat_of_V2P_le hvend
  rw [le_iff_toNat] at hbound hstart
  refine ⟨fun p hp => hp.1, ?_, ?_, ?_⟩
  · rintro p ⟨-, hlow, -⟩
    rw [le_iff_toNat] at hlow ⊢
    omega
  · rintro p ⟨-, hlow, hhigh⟩
    rw [le_iff_toNat] at hlow
    apply V2P_lt_PHYSTOP <;> omega
  · rintro p ⟨-, hlow, -⟩ rfl
    rw [le_iff_toNat] at hlow
    have hzero : (0 : Word).toNat = 0 := rfl
    omega

/-- The loop frees the whole pages of the range from `p` on. -/
theorem freerangeLoop_ret
    (hF : Freeable bound (WholePage vstart vend)) {fuel : ℕ} {p : Word}
    {s : Kmem} {pages : List Word} (hp : PageAligned p)
    (hlow : PGROUNDUP vstart ≤ p) (hwrap : p.toNat + 4096 < 2 ^ 32)
    (htop : vend.toNat + 4096 < 2 ^ 32)
    (hpages : FreePages s pages) (hbelow : PagesBelow vstart vend p pages)
    (hfuel : (vend.toNat - p.toNat) / 4096 < fuel) :
    ∃ t pages', freerangeLoop bound vend fuel p s = .ret () t ∧
      FreePages t pages' ∧ ∀ q, q ∈ pages' ↔ WholePage vstart vend q := by
  have hsize : PGSIZE.toNat = 4096 := rfl
  induction fuel generalizing p s pages with
  | zero => omega
  | succ fuel ih =>
      have hnext : (p + PGSIZE).toNat = p.toNat + 4096 := by
        rw [BitVec.toNat_add, hsize, Nat.mod_eq_of_lt hwrap]
      by_cases hin : p + PGSIZE ≤ vend
      · have hin' : p.toNat + 4096 ≤ vend.toNat := by
          rw [le_iff_toNat, hnext] at hin
          exact hin
        have hwhole : WholePage vstart vend p := ⟨hp, hlow, hin'⟩
        have hnew : p ∉ pages := by
          intro hmem
          have hlt := ((hbelow p).mp hmem).2
          rw [BitVec.lt_def] at hlt
          omega
        obtain ⟨t, ht, hpages'⟩ := kfree_ret hpages hp (hF.above p hwhole)
          (hF.below p hwhole) (hF.nonzero p hwhole) hnew
        simp only [freerangeLoop, if_pos hin, ht]
        apply ih (pageAligned_add_PGSIZE hp) _ (by omega) hpages' _ (by omega)
        · rw [le_iff_toNat] at hlow ⊢
          omega
        · intro q
          rw [List.mem_cons, hbelow q]
          -- The page just freed is the only one between `p` and the next.
          constructor
          · rintro (rfl | ⟨hq, hlt⟩)
            · refine ⟨hwhole, ?_⟩
              rw [BitVec.lt_def]
              omega
            · refine ⟨hq, ?_⟩
              rw [BitVec.lt_def] at hlt ⊢
              omega
          · rintro ⟨hq, hlt⟩
            have haligned := hq.1
            unfold PageAligned at haligned hp
            rw [BitVec.lt_def, hnext] at hlt
            by_cases heq : q.toNat = p.toNat
            · exact .inl (BitVec.eq_of_toNat_eq heq)
            · refine .inr ⟨hq, ?_⟩
              rw [BitVec.lt_def]
              omega
      · have hout : vend.toNat < p.toNat + 4096 := by
          rw [le_iff_toNat, hnext] at hin
          omega
        simp only [freerangeLoop, if_neg hin]
        refine ⟨s, pages, rfl, hpages, fun q => ?_⟩
        rw [hbelow q]
        refine ⟨fun h => h.1, fun hq => ⟨hq, ?_⟩⟩
        have := hq.2.2
        rw [BitVec.lt_def]
        omega

end Freerange

/-- `kinit1` leaves exactly the whole pages of its range free, provided that
rounding up `vstart` and going one page further stay below 2^32. -/
theorem kinit1_ret {bound vstart vend : Word} {s : Kmem}
    (hbound : KERNLINK ≤ bound) (hstart : bound ≤ vstart)
    (hwrap : vstart ≤ 0xFFFFE000#32) (hvend : V2P vend ≤ PHYSTOP)
    (hempty : s.freelist = 0) :
    Freeable bound (WholePage vstart vend) ∧
      ∃ t free, kinit1 bound vstart vend s = .ret () t ∧
        Pool (WholePage vstart vend) ⟨t, ∅⟩ free := by
  obtain ⟨-, htop⟩ := toNat_of_V2P_le hvend
  have hlimit : (0xFFFFE000#32 : Word).toNat = 0xFFFFE000 := rfl
  rw [le_iff_toNat, hlimit] at hwrap
  have hround := toNat_PGROUNDUP (show vstart.toNat + 4095 < 2 ^ 32 by omega)
  have hup : bound ≤ PGROUNDUP vstart := by
    rw [le_iff_toNat] at hstart ⊢
    omega
  have hF : Freeable bound (WholePage vstart vend) :=
    freeable_wholePage hbound hup hvend
  have hchain : FreeChain s.mem s.freelist [] := hempty
  have hnone : PagesBelow vstart vend (PGROUNDUP vstart) [] := by
    intro q
    refine ⟨fun h => absurd h List.not_mem_nil, ?_⟩
    rintro ⟨⟨-, hlow, -⟩, hlt⟩
    exact absurd hlow (BitVec.not_le.mpr hlt)
  have haligned : PageAligned (PGROUNDUP vstart) := by
    unfold PageAligned
    omega
  obtain ⟨t, free, hret, hpages, hall⟩ := freerangeLoop_ret hF haligned
    (BitVec.le_refl _) (by omega) (by omega)
    ⟨hchain, List.nodup_nil, fun p hp => by cases hp⟩ hnone
    (show (vend.toNat - (PGROUNDUP vstart).toNat) / 4096 <
      addressSpacePages by
        unfold addressSpacePages
        omega)
  refine ⟨hF, t, free, hret, hpages, ?_, ?_⟩
  · intro p _ hmem
    cases hmem
  · intro p
    rw [← hall p]
    simp

/-- What holds of the allocator at every point of a history: its free list is
a finite chain of distinct pages, which with the allocated ones make up the
range; `kalloc` returns 0 exactly when all are allocated, and otherwise a page
that nobody holds; and no call panics. -/
structure Sane (bound vstart vend : Word) (h : Heap) : Prop where
  pool : ∃ free, Pool (WholePage vstart vend) h free
  full : (kalloc h.kmem).1 = 0 ↔
    ∀ p, WholePage vstart vend p → p ∈ h.allocated
  fresh : (kalloc h.kmem).1 ≠ 0 →
    WholePage vstart vend (kalloc h.kmem).1 ∧
      (kalloc h.kmem).1 ∉ h.allocated
  calm : ∀ a message, h.step bound a ≠ .panic message

theorem Pool.sane {bound vstart vend : Word} {h : Heap} {free : List Word}
    (hF : Freeable bound (WholePage vstart vend))
    (hpool : Pool (WholePage vstart vend) h free) :
    Sane bound vstart vend h where
  pool := ⟨free, hpool⟩
  full := hpool.kalloc_eq_zero_iff
  fresh := hpool.kalloc_fresh
  calm := hpool.no_panic hF

/-- The allocator is sane after `kinit1` and after every history of calls. -/
theorem kinit1_sane (bound vstart vend : Word) (s : Kmem)
    (hbound : KERNLINK ≤ bound) (hstart : bound ≤ vstart)
    (hwrap : vstart ≤ 0xFFFFE000#32) (hvend : V2P vend ≤ PHYSTOP)
    (hempty : s.freelist = 0) :
    ∃ t, kinit1 bound vstart vend s = .ret () t ∧
      ∀ w h, Run (Heap.step bound) ⟨t, ∅⟩ w h → Sane bound vstart vend h := by
  obtain ⟨hF, t, free, hret, hpool⟩ :=
    kinit1_ret hbound hstart hwrap hvend hempty
  refine ⟨t, hret, fun w h hrun => ?_⟩
  obtain ⟨free', hpool'⟩ := hrun.invariant
    (I := fun h => ∃ free, Pool (WholePage vstart vend) h free)
    (fun h a h' ⟨free, hpool⟩ hstep => hpool.step hF hstep) ⟨free, hpool⟩
  exact hpool'.sane hF

/-- The range that `main` gives to `kinit1`. -/
theorem kinit1_sane_boot :
    ∃ t, kinit1 0x80108000#32 0x80108000#32 (P2V 0x400000#32)
        ⟨fun _ => 0, 0⟩ = .ret () t ∧
      ∀ w h, Run (Heap.step 0x80108000#32) ⟨t, ∅⟩ w h →
        Sane 0x80108000#32 0x80108000#32 (P2V 0x400000#32) h :=
  kinit1_sane _ _ _ _ (by decide) (by decide) (by decide) (by decide) rfl

/-- A start address in the last two pages makes `PGROUNDUP(vstart)` or the
end of the first page wrap around to 0, and `kfree` panics. -/
theorem kinit1_panics {bound vstart vend : Word} {s : Kmem}
    (hwrap : 0xFFFFE000#32 < vstart) (hvend : V2P vend ≤ PHYSTOP) :
    kinit1 bound vstart vend s = .panic "kfree" := by
  obtain ⟨hbase, -⟩ := toNat_of_V2P_le hvend
  have hin : PGROUNDUP vstart + PGSIZE ≤ vend ∧
      PHYSTOP ≤ V2P (PGROUNDUP vstart) := by
    have hcases : PGROUNDUP vstart = 0 ∨ PGROUNDUP vstart = 0xFFFFF000#32 := by
      by_cases hlast : vstart.toNat ≤ 0xFFFFF000
      · right
        have hlow : (0xFFFFE000#32 : Word).toNat = 0xFFFFE000 := rfl
        rw [BitVec.lt_def, hlow] at hwrap
        apply BitVec.eq_of_toNat_eq
        rw [toNat_PGROUNDUP (by omega)]
        show _ = 0xFFFFF000
        omega
      · left
        have hround : PGROUNDUP vstart = PGROUNDDOWN (vstart + 4095#32) := by
          have hsum : vstart + PGSIZE - 1 = vstart + 4095#32 := by
            unfold PGSIZE
            bv_omega
          rw [PGROUNDUP, hsum, PGROUNDDOWN]
        have hlt := vstart.isLt
        have hconst : (4095#32).toNat = 4095 := rfl
        apply BitVec.eq_of_toNat_eq
        rw [hround, toNat_PGROUNDDOWN, BitVec.toNat_add, hconst]
        show _ = 0
        omega
    rcases hcases with h | h <;> rw [h]
    · constructor
      · rw [le_iff_toNat]
        have : ((0 : Word) + PGSIZE).toNat = 4096 := rfl
        omega
      · decide
    · constructor
      · rw [le_iff_toNat]
        have : ((0xFFFFF000#32 : Word) + PGSIZE).toNat = 0 := rfl
        omega
      · decide
  obtain ⟨n, hn⟩ := addressSpacePages_eq_succ
  have hfree : kfree bound (PGROUNDUP vstart) s = .panic "kfree" := by
    rw [kfree, if_pos (.inr (.inr hin.2))]
  rw [kinit1, freerange, hn]
  simp only [freerangeLoop, if_pos hin.1, hfree]

/-- Not every range with `end <= vstart` and `V2P(vend) <= PHYSTOP` is
accepted. -/
theorem kinit1_not_always_sane :
    ¬ ∀ (bound vstart vend : Word) (s : Kmem), KERNLINK ≤ bound →
      bound ≤ vstart → V2P vend ≤ PHYSTOP → s.freelist = 0 →
      ∀ message, kinit1 bound vstart vend s ≠ .panic message := by
  intro h
  exact h 0x80108000#32 0xFFFFFFFF#32 (P2V 0x400000#32) ⟨fun _ => 0, 0⟩
    (by decide) (by decide) (by decide) rfl "kfree"
    (kinit1_panics (by decide) (by decide))

end ZtlOs.Memory
