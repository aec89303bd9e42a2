import ZtlOs.Memory.Mappages

/-!
# What `setupkvm` leaves behind when it fails

`setupkvm` returns 0 as soon as a page is missing and frees nothing.  The first
entry of `kmap` takes 513 page tables (`mappages` runs on past the end of the
address space), so that with the page directory 514 pages are needed to get
beyond it.
-/

namespace ZtlOs.Memory

/-- A free list is determined by its links. -/
theorem FreeChain.unique {mem : Word → Word} {head : Word}
    {pages pages' : List Word} (h : FreeChain mem head pages)
    (h' : FreeChain mem head pages') : pages = pages' := by
  induction pages generalizing head pages' with
  | nil =>
      cases pages' with
      | nil => rfl
      | cons q pages' => exact absurd (h'.1.symm.trans h) h'.2.1
  | cons p pages ih =>
      cases pages' with
      | nil => exact absurd (h.1.symm.trans h') h.2.1
      | cons q pages' =>
          obtain ⟨rfl, -, htail⟩ := h
          obtain ⟨rfl, -, htail'⟩ := h'
          rw [ih htail htail']

theorem AddressSpace.freePages {s : Kmem} {pgdir : Word}
    {tables free : List Word} (h : AddressSpace s pgdir tables free) :
    FreePages s free where
  chain := h.chain
  nodup := (List.nodup_cons.mp h.nodup).2.of_append_right
  aligned := fun _ hp => h.free_aligned hp

/-! ## The first entry of `kmap` -/

/-- The state of `setupkvm` when it begins to map: the page directory has been
taken from the free list and cleared. -/
def cleared (s : Kmem) (p : Word) : Kmem :=
  ({ s with freelist := s.mem p } : Kmem).zeroPage p

/-- The slots of the page directory between `KERNBASE` and the last page that
is computed for the first entry, counted with wraparound. -/
def firstTables : Finset ℕ := insert 0 (Finset.Icc 512 1023)

theorem card_firstTables : firstTables.card = 513 := by
  rw [firstTables, Finset.card_insert_of_notMem (by simp), Nat.card_Icc]

theorem lt_of_mem_firstTables : ∀ d ∈ firstTables, d < 1024 := by
  intro d hd
  rw [firstTables, Finset.mem_insert, Finset.mem_Icc] at hd
  omega

theorem toNat_sub_KERNBASE (x : Word) :
    (x - PGROUNDDOWN KERNBASE).toNat =
      if 2 ^ 31 ≤ x.toNat then x.toNat - 2 ^ 31 else x.toNat + 2 ^ 31 := by
  have hbase : (PGROUNDDOWN KERNBASE).toNat = 2 ^ 31 := by decide
  have hx := x.isLt
  rw [BitVec.toNat_sub, hbase]
  split <;> omega

theorem lastPage_first :
    (PGROUNDDOWN (0 + (EXTMEM - 0) - 1) - PGROUNDDOWN KERNBASE).toNat =
      2 ^ 31 + 0xFF000 := by
  decide

theorem mem_firstTables {x : Word}
    (hle : (x - PGROUNDDOWN KERNBASE).toNat ≤
      (PGROUNDDOWN (0 + (EXTMEM - 0) - 1) - PGROUNDDOWN KERNBASE).toNat) :
    (PDX x).toNat ∈ firstTables := by
  have hx := x.isLt
  rw [lastPage_first, toNat_sub_KERNBASE] at hle
  rw [firstTables, Finset.mem_insert, Finset.mem_Icc, toNat_PDX]
  split at hle <;> omega

theorem exists_of_mem_firstTables {d : ℕ} (hd : d ∈ firstTables) :
    ∃ x, PageAligned x ∧ (x - PGROUNDDOWN KERNBASE).toNat ≤
      (PGROUNDDOWN (0 + (EXTMEM - 0) - 1) - PGROUNDDOWN KERNBASE).toNat ∧
      (PDX x).toNat = d := by
  have hlt := lt_of_mem_firstTables d hd
  have hx : (BitVec.ofNat 32 (d * 2 ^ 22)).toNat = d * 2 ^ 22 := by
    rw [BitVec.toNat_ofNat]
    omega
  rw [firstTables, Finset.mem_insert, Finset.mem_Icc] at hd
  refine ⟨BitVec.ofNat 32 (d * 2 ^ 22), ?_, ?_, ?_⟩
  · unfold PageAligned
    omega
  · rw [lastPage_first, toNat_sub_KERNBASE, hx]
    split <;> omega
  · rw [toNat_PDX, hx]
    omega

section FirstEntry

variable {s : Kmem} {p : Word} {free : List Word}

theorem cleared_absent (s : Kmem) (hp : PageAligned p) (d : ℕ) (hd : d < 1024) :
    ¬ HasTable (cleared s p) p d := by
  obtain ⟨x, rfl⟩ := exists_PDX_eq hd
  rw [hasTable_PDX, cleared, Kmem.zeroPage_mem,
    PGROUNDDOWN_slot hp (toNat_PDX_lt x), if_pos rfl]
  decide

theorem cleared_unmapped (hp : PageAligned p) (a last : Word) :
    Unmapped (cleared s p) p a last := by
  intro x _ _
  have habsent := cleared_absent s hp _ (toNat_PDX_lt x)
  rw [hasTable_PDX] at habsent
  rw [pteOf, if_neg habsent]
  decide

theorem card_missing_first (hp : PageAligned p) :
    (missing (cleared s p) p firstTables).card = 513 := by
  have hall : missing (cleared s p) p firstTables = firstTables :=
    Finset.filter_true_of_mem fun d hd =>
      cleared_absent s hp d (lt_of_mem_firstTables d hd)
  rw [hall, card_firstTables]

/-- With 513 free pages the first entry is mapped. -/
theorem mappages_first_of_room (h : FreePages s (p :: free))
    (hroom : 513 ≤ free.length) :
    ∃ s', mappages p KERNBASE (EXTMEM - 0) 0 PTE_W (cleared s p) =
      .ret 0 s' := by
  have hp : PageAligned p := h.aligned p List.mem_cons_self
  apply mappagesLoop_enough (pageAligned_PGROUNDDOWN _)
    (pageAligned_PGROUNDDOWN _) (addressSpace_zeroPage h) _
    (cleared_unmapped hp _ _) lt_of_mem_firstTables
    (fun x _ hle => mem_firstTables hle)
  · exact (card_missing_first hp).le.trans hroom
  · rw [lastPage_first]
    unfold addressSpacePages
    omega

/-- With fewer it fails, and the page directory is not free afterwards. -/
theorem mappages_first_of_short (h : FreePages s (p :: free))
    (hshort : free.length < 513) :
    ∃ s' pages', mappages p KERNBASE (EXTMEM - 0) 0 PTE_W (cleared s p) =
      .ret (-1) s' ∧ FreePages s' pages' ∧ p ∉ pages' := by
  have hp : PageAligned p := h.aligned p List.mem_cons_self
  have hspace := addressSpace_zeroPage h
  have hloop : (∀ message, mappages p KERNBASE (EXTMEM - 0) 0 PTE_W
        (cleared s p) ≠ .panic message) ∧
      (PGROUNDDOWN (0 + (EXTMEM - 0) - 1) = PGROUNDDOWN (0 + (EXTMEM - 0) - 1) →
        ∀ s', mappages p KERNBASE (EXTMEM - 0) 0 PTE_W (cleared s p) ≠
          .ret 0 s') :=
    mappagesLoop_short (pageAligned_PGROUNDDOWN _)
      (pageAligned_PGROUNDDOWN KERNBASE) hspace (cleared_unmapped hp _ _)
      lt_of_mem_firstTables
      (fun d hd => .inr (exists_of_mem_firstTables hd))
      (hshort.trans_le (card_missing_first hp).ge)
  cases hcall : mappages p KERNBASE (EXTMEM - 0) 0 PTE_W (cleared s p) with
  | running => exact absurd hcall (mappages_ne_running _ _ _ _ _ _)
  | panic message => exact absurd hcall (hloop.1 message)
  | ret r s' =>
      obtain ⟨tables', free', h'⟩ :=
        mappagesLoop_space (pageAligned_PGROUNDDOWN KERNBASE) hspace hcall
      have hnot : p ∉ free' := fun hmem =>
        (List.nodup_cons.mp h'.nodup).1 (List.mem_append_right _ hmem)
      rcases mappages_first_entry hspace hcall with rfl | ⟨rfl, -⟩
      · exact ⟨s', free', rfl, h'.freePages, hnot⟩
      · exact absurd hcall (hloop.2 rfl s')

end FirstEntry

/-! ## The call -/

/-- Whenever `setupkvm` returns 0, the free pages are those from before the
call. -/
def GivesBack (data : Word) (s : Kmem) (pages : List Word) : Prop :=
  ∀ s', setupkvm data s = .ret 0 s' →
    ∃ pages', FreePages s' pages' ∧ ∀ p, p ∈ pages' ↔ p ∈ pages

/-- `setupkvm` returns 0 after mapping a part of the first entry. -/
theorem setupkvm_short (data : Word) {p : Word} {s : Kmem} {free : List Word}
    (h : FreePages s (p :: free)) (hshort : free.length < 513) :
    ∃ s' pages', setupkvm data s = .ret 0 s' ∧ FreePages s' pages' ∧
      p ∉ pages' := by
  obtain ⟨s', pages', hcall, hpages, hnot⟩ := mappages_first_of_short h hshort
  refine ⟨s', pages', ?_, hpages, hnot⟩
  have hp : p ≠ 0 := h.chain.ne_zero p List.mem_cons_self
  have hlow : ¬ DEVSPACE < P2V PHYSTOP := by decide
  rw [cleared] at hcall
  simp only [setupkvm, kalloc_cons h.chain, if_neg hp, if_neg hlow, kmap,
    setupkvmLoop, hcall]
  rfl

/-- Beyond the first entry `setupkvm` panics. -/
theorem setupkvm_of_room {data p : Word} {s : Kmem} {free : List Word}
    (h : FreePages s (p :: free)) (hroom : 513 ≤ free.length) :
    setupkvm data s = .panic "remap" := by
  obtain ⟨s₁, hcall⟩ := mappages_first_of_room h hroom
  have hp : p ≠ 0 := h.chain.ne_zero p List.mem_cons_self
  have hlow : ¬ DEVSPACE < P2V PHYSTOP := by decide
  rcases mappages_first_entry (addressSpace_zeroPage h) hcall with
    hfail | ⟨-, tables, free', h₁, hmapped⟩
  · cases hfail
  have hsecond := mappages_remap (V2P data - V2P KERNLINK) (V2P KERNLINK) 0 h₁
    (by decide) hmapped
  rw [cleared] at hcall
  simp only [setupkvm, kalloc_cons h.chain, if_neg hp, if_neg hlow, kmap,
    setupkvmLoop, hcall, hsecond]
  rfl

/-- `setupkvm` that returns 0 has given back what it took exactly when it
could take nothing, or does not return 0 at all: with 514 pages or more it
panics. -/
theorem setupkvm_givesBack_iff (data : Word) (s : Kmem) (pages : List Word)
    (h : FreePages s pages) :
    GivesBack data s pages ↔ pages = [] ∨ 514 ≤ pages.length := by
  cases pages with
  | nil =>
      refine ⟨fun _ => .inl rfl, fun _ s' hret => ⟨[], ?_, fun _ => Iff.rfl⟩⟩
      simp only [setupkvm, kalloc_nil h.chain] at hret
      cases hret
      exact h
  | cons p free =>
      rw [List.length_cons]
      constructor
      · intro hback
        right
        by_contra hshort
        obtain ⟨s', pages', hret, hpages, hnot⟩ :=
          setupkvm_short data h (by omega)
        obtain ⟨pages'', hpages'', hsame⟩ := hback s' hret
        have heq := hpages.chain.unique hpages''.chain
        apply hnot
        rw [heq, hsame p]
        exact List.mem_cons_self
      · rintro (hnil | hroom) s' hret
        · cases hnil
        · rw [setupkvm_of_room h (by omega)] at hret
          cases hret

/-- One free page. -/
def onePage : Kmem where
  mem := linkedUpTo 0x80401000#32
  freelist := 0x80400000#32

theorem freePages_onePage :
    FreePages onePage (contiguousPages 1 0x80400000#32) :=
  freePages_contiguousPages (by decide) (by decide) (by decide)
    (show (0x80400000#32).toNat + 4096 * 1 = (0x80401000#32).toNat from rfl)

theorem setupkvm_givesBack_iff_onePage :
    GivesBack 0x80108000#32 onePage (contiguousPages 1 0x80400000#32) ↔
      contiguousPages 1 0x80400000#32 = [] ∨
        514 ≤ (contiguousPages 1 0x80400000#32).length :=
  setupkvm_givesBack_iff _ _ _ freePages_onePage

/-- With one free page `setupkvm` returns 0 and keeps it. -/
theorem setupkvm_not_always_givesBack :
    ¬ ∀ (data : Word) (s : Kmem) (pages : List Word),
      FreePages s pages → GivesBack data s pages := by
  intro h
  obtain ⟨s', pages', hret, hpages, hnot⟩ :=
    setupkvm_short 0x80108000#32 freePages_onePage (by decide)
  obtain ⟨pages'', hpages'', hsame⟩ := h _ _ _ freePages_onePage s' hret
  have heq := hpages.chain.unique hpages''.chain
  apply hnot
  rw [heq, hsame]
  exact List.mem_cons_self

end ZtlOs.Memory
