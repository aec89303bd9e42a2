import ZtlOs.Memory.Vm

/-!
# The kernel part of an address space

`setupkvm` of `vm.c` with its table `kmap`.  The linker symbol `data` is a
parameter.

The first entry of the table is mapped with a last page that is computed from
its physical address, so the loop runs on past the end of the address space
and maps the pages of the second entry as well.  What `setupkvm` can do after
that is stated in `setupkvm_result`.
-/

namespace ZtlOs.Memory

/-- `struct kmap`. -/
structure Kmap where
  virt : Word
  phys_start : Word
  phys_end : Word
  perm : Word

def kmap (data : Word) : List Kmap :=
  [ { virt := KERNBASE, phys_start := 0, phys_end := EXTMEM, perm := PTE_W },
    { virt := KERNLINK, phys_start := V2P KERNLINK, phys_end := V2P data,
      perm := 0 },
    { virt := data, phys_start := V2P data, phys_end := PHYSTOP,
      perm := PTE_W },
    { virt := DEVSPACE, phys_start := DEVSPACE, phys_end := 0,
      perm := PTE_W } ]

/-- The loop of `setupkvm` over the entries of `kmap`. -/
def setupkvmLoop (pgdir : Word) : List Kmap → Kmem → Result Word
  | [], s => .ret pgdir s
  | k :: rest, s =>
      match mappages pgdir k.virt (k.phys_end - k.phys_start) k.phys_start
          k.perm s with
      | .ret r s => if r < 0 then .ret 0 s else setupkvmLoop pgdir rest s
      | .panic message => .panic message
      | .running => .running

def setupkvm (data : Word) (s : Kmem) : Result Word :=
  let (pgdir, s) := kalloc s
  if pgdir = 0 then
    .ret 0 s
  else
    let s := s.zeroPage pgdir
    if DEVSPACE < P2V PHYSTOP then
      .panic "PHYSTOP too high"
    else
      setupkvmLoop pgdir (kmap data) s

/-- The address lies in the range that the entry maps. -/
def Kmap.Covers (k : Kmap) (va : Word) : Prop :=
  (va - k.virt).toNat < (k.phys_end - k.phys_start).toNat

/-- The translation of `pgdir` is exactly the table `kmap`. -/
structure MapsKmap (data : Word) (s : Kmem) (pgdir : Word) : Prop where
  entries : ∀ k ∈ kmap data, ∀ va, PageAligned va → k.Covers va →
    pteOf s pgdir va = (k.phys_start + (va - k.virt)) ||| k.perm ||| PTE_P
  nothingElse : ∀ va, (∀ k ∈ kmap data, ¬ k.Covers va) →
    ¬ Present (pteOf s pgdir va)

/-- `setupkvm` returns a page directory for the table `kmap`. -/
def SetsUpKmap (data : Word) (s : Kmem) : Prop :=
  ∃ pgdir s', setupkvm data s = .ret pgdir s' ∧ pgdir ≠ 0 ∧
    MapsKmap data s' pgdir

/-- The page directory that `setupkvm` starts from: one page, all of whose
entries are absent. -/
theorem addressSpace_zeroPage {s : Kmem} {p : Word} {free : List Word}
    (h : FreePages s (p :: free)) :
    AddressSpace (({ s with freelist := s.mem p } : Kmem).zeroPage p)
      p [] free := by
  have hpa : PageAligned p := h.aligned p List.mem_cons_self
  have habsent : ∀ va, ¬ Present ((({ s with freelist := s.mem p } :
      Kmem).zeroPage p).mem (slot p (PDX va))) := by
    intro va hva
    rw [Kmem.zeroPage_mem, PGROUNDDOWN_slot hpa (toNat_PDX_lt va),
      if_pos rfl] at hva
    exact hva (by decide)
  refine ⟨?_, h.nodup, h.aligned, ?_, ?_, ?_⟩
  · refine FreeChain.congr h.chain.2.2 ?_
    intro q hq
    have hne : q ≠ p := by
      rintro rfl
      exact (List.nodup_cons.mp h.nodup).1 hq
    rw [Kmem.zeroPage_mem,
      PGROUNDDOWN_of_aligned (h.aligned q (List.mem_cons_of_mem p hq)),
      if_neg hne]
  · intro q hq
    cases hq
  · intro va hva
    exact absurd hva (habsent va)
  · intro va vb hva
    exact absurd hva (habsent va)

/-- `mappages` panics when the first page of its range is already mapped. -/
theorem mappages_remap {s : Kmem} {pgdir va : Word}
    {tables free : List Word} (size pa perm : Word)
    (h : AddressSpace s pgdir tables free)
    (ha : PageAligned va) (hva : Present (pteOf s pgdir va)) :
    mappages pgdir va size pa perm s = .panic "remap" := by
  have hdir : Present (s.mem (slot pgdir (PDX va))) := by
    by_contra habsent
    rw [pteOf, if_neg habsent] at hva
    exact hva (by decide)
  have htab := h.owned va hdir
  have hq : slot (tableOf s pgdir va) (PTX va) ≠ 0 :=
    AddressSpace.slot_ne_zero (h.table_aligned htab) (h.nonzero _ htab)
      (toNat_PTX_lt va)
  have hwalk : walkpgdir pgdir va true s =
      (slot (tableOf s pgdir va) (PTX va), s) := by
    simp only [walkpgdir, if_pos hdir]
    rfl
  have hpte : Present (s.mem (slot (tableOf s pgdir va) (PTX va))) := by
    rw [pteOf, if_pos hdir] at hva
    exact hva
  obtain ⟨n, hn⟩ := addressSpacePages_eq_succ
  rw [mappages, PGROUNDDOWN_of_aligned ha, hn]
  simp only [mappagesLoop, hwalk, if_neg hq, if_pos hpte]

/-- Mapping the first entry of `kmap`, if it succeeds, also maps the first
page of the second one. -/
theorem mappages_first_entry {s s' : Kmem} {pgdir : Word}
    {tables free : List Word} {r : Int}
    (h : AddressSpace s pgdir tables free)
    (hret : mappages pgdir KERNBASE (EXTMEM - 0) 0 PTE_W s = .ret r s') :
    r = -1 ∨ (r = 0 ∧ ∃ tables' free', AddressSpace s' pgdir tables' free' ∧
      Present (pteOf s' pgdir KERNLINK)) := by
  rcases mappagesLoop_ret (pageAligned_PGROUNDDOWN _)
      (pageAligned_PGROUNDDOWN _) h hret with
    hfail | ⟨hr, tables', free', h', hall⟩
  · exact Or.inl hfail
  · right
    refine ⟨hr, tables', free', h', ?_⟩
    rw [hall KERNLINK, if_pos (by decide)]
    exact present_or_PTE_P _

/-- Whatever the free list holds, `setupkvm` runs out of pages or panics. -/
theorem setupkvm_result (data : Word) {s : Kmem} {pages : List Word}
    (h : FreePages s pages) :
    (∃ s', setupkvm data s = .ret 0 s') ∨
      setupkvm data s = .panic "remap" := by
  cases pages with
  | nil =>
      left
      refine ⟨s, ?_⟩
      simp only [setupkvm, kalloc_nil h.chain]
      rfl
  | cons p free =>
      have hp : p ≠ 0 := h.chain.ne_zero p List.mem_cons_self
      have hspace := addressSpace_zeroPage h
      have hlow : ¬ DEVSPACE < P2V PHYSTOP := by decide
      simp only [setupkvm, kalloc_cons h.chain, if_neg hp, if_neg hlow, kmap,
        setupkvmLoop]
      cases hfirst : mappages p KERNBASE (EXTMEM - 0) 0 PTE_W
          (({ s with freelist := s.mem p } : Kmem).zeroPage p) with
      | running => exact absurd hfirst (mappages_ne_running _ _ _ _ _ _)
      | panic message =>
          right
          rw [mappagesLoop_panic hfirst]
      | ret r s₁ =>
          rcases mappages_first_entry hspace hfirst with
            rfl | ⟨rfl, tables, free', h₁, hmapped⟩
          · left
            exact ⟨s₁, rfl⟩
          · right
            have hsecond := mappages_remap (V2P data - V2P KERNLINK)
              (V2P KERNLINK) 0 h₁ (by decide) hmapped
            simp only [hsecond]
            rfl

/-- `setupkvm` builds the table `kmap` from no free list: the end of each range
is computed from its physical address. -/
theorem setupkvm_never_sets_up_kmap (data : Word) (s : Kmem)
    (pages : List Word) (h : FreePages s pages) : ¬ SetsUpKmap data s := by
  rintro ⟨pgdir, s', hret, hpgdir, -⟩
  rcases setupkvm_result data h with ⟨s₁, hzero⟩ | hpanic
  · rw [hzero] at hret
    cases hret
    exact hpgdir rfl
  · rw [hpanic] at hret
    cases hret

/-! ## A free list as the allocator leaves it at boot -/

def contiguousPages : ℕ → Word → List Word
  | 0, _ => []
  | n + 1, base => base :: contiguousPages n (base + PGSIZE)

/-- Each page below `limit` links to the next one. -/
def linkedUpTo (limit : Word) (x : Word) : Word :=
  if x + PGSIZE = limit then 0 else x + PGSIZE

section Contiguous

variable {n : ℕ} {base limit : Word}

theorem toNat_next_page (h : base.toNat + 4096 * (n + 1) = limit.toNat) :
    (base + PGSIZE).toNat = base.toNat + 4096 := by
  have hsize : PGSIZE.toNat = 4096 := rfl
  have hlimit := limit.isLt
  rw [BitVec.toNat_add, hsize]
  omega

theorem le_of_mem_contiguousPages
    (h : base.toNat + 4096 * n = limit.toNat) :
    ∀ x ∈ contiguousPages n base, base.toNat ≤ x.toNat := by
  induction n generalizing base with
  | zero =>
      intro x hx
      cases hx
  | succ n ih =>
      have hnext := toNat_next_page h
      intro x hx
      rcases List.mem_cons.mp hx with rfl | hx
      · exact le_refl _
      · have := ih (by omega) x hx
        omega

theorem nodup_contiguousPages (h : base.toNat + 4096 * n = limit.toNat) :
    (contiguousPages n base).Nodup := by
  induction n generalizing base with
  | zero => exact List.nodup_nil
  | succ n ih =>
      have hnext := toNat_next_page h
      have htail : (base + PGSIZE).toNat + 4096 * n = limit.toNat := by
        omega
      refine List.nodup_cons.mpr ⟨fun hmem => ?_, ih htail⟩
      have := le_of_mem_contiguousPages htail base hmem
      omega

theorem aligned_contiguousPages (hbase : PageAligned base) :
    ∀ x ∈ contiguousPages n base, PageAligned x := by
  induction n generalizing base with
  | zero =>
      intro x hx
      cases hx
  | succ n ih =>
      intro x hx
      rcases List.mem_cons.mp hx with rfl | hx
      · exact hbase
      · exact ih (pageAligned_add_PGSIZE hbase) x hx

theorem freeChain_contiguousPages (hbase : base ≠ 0)
    (h : base.toNat + 4096 * n = limit.toNat) :
    FreeChain (linkedUpTo limit) (if base = limit then 0 else base)
      (contiguousPages n base) := by
  induction n generalizing base with
  | zero =>
      have heq : base = limit := BitVec.eq_of_toNat_eq (by omega)
      rw [if_pos heq]
      rfl
  | succ n ih =>
      have hnext := toNat_next_page h
      have hne : base ≠ limit := by
        rintro rfl
        omega
      have hpos : base + PGSIZE ≠ 0 := by
        intro hz
        rw [hz] at hnext
        simp at hnext
      rw [if_neg hne]
      exact ⟨rfl, hbase, ih hpos (by omega)⟩

theorem freePages_contiguousPages (hbase : base ≠ 0)
    (haligned : PageAligned base) (hne : base ≠ limit)
    (h : base.toNat + 4096 * n = limit.toNat) :
    FreePages { mem := linkedUpTo limit, freelist := base }
      (contiguousPages n base) where
  chain := by
    have hchain := freeChain_contiguousPages hbase h
    rw [if_neg hne] at hchain
    dsimp only
    exact hchain
  nodup := nodup_contiguousPages h
  aligned := aligned_contiguousPages haligned

theorem length_contiguousPages (n : ℕ) (base : Word) :
    (contiguousPages n base).length = n := by
  induction n generalizing base with
  | zero => rfl
  | succ n ih => exact congrArg Nat.succ (ih (base + PGSIZE))

end Contiguous

/-- A free list of 1024 pages from 0x80400000 on. -/
def bootKmem : Kmem where
  mem := linkedUpTo 0x80800000#32
  freelist := 0x80400000#32

theorem freePages_bootKmem :
    FreePages bootKmem (contiguousPages 1024 0x80400000#32) :=
  freePages_contiguousPages (by decide) (by decide) (by decide)
    (show (0x80400000#32).toNat + 4096 * 1024 = (0x80800000#32).toNat from rfl)

theorem setupkvm_bootKmem_fails : ¬ SetsUpKmap 0x80108000#32 bootKmem :=
  setupkvm_never_sets_up_kmap _ _ _ freePages_bootKmem

/-- The page directory and the page tables of the ranges of `kmap` take 65
pages, but no free list of that length is enough. -/
theorem setupkvm_not_functional :
    ¬ ∀ (data : Word) (s : Kmem) (pages : List Word),
      PageAligned data → KERNLINK < data → data < P2V PHYSTOP →
      FreePages s pages → 65 ≤ pages.length → SetsUpKmap data s := by
  intro h
  have hlen : 65 ≤ (contiguousPages 1024 0x80400000#32).length := by
    rw [length_contiguousPages]
    decide
  obtain ⟨pgdir, s', hret, hpgdir, -⟩ := h 0x80108000#32 bootKmem _
    (by decide) (by decide) (by decide) freePages_bootKmem hlen
  rcases setupkvm_result 0x80108000#32 freePages_bootKmem with
    ⟨s₁, hzero⟩ | hpanic
  · rw [hzero] at hret
    cases hret
    exact hpgdir rfl
  · rw [hpanic] at hret
    cases hret

end ZtlOs.Memory
