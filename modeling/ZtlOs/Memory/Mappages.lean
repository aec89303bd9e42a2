import ZtlOs.Memory.Setupkvm
import Mathlib.Order.Interval.Finset.Nat

/-!
# What `mappages` maps

`mappages` computes its last page from the physical address.  This module
settles when the call does what its comment says: which pages it maps, how
many page tables it takes for that, and when it can panic.  The same counts
tell when `setupkvm` fails and what it leaves behind.
-/

namespace ZtlOs.Memory

/-! ## One page -/

/-- Slot `d` of the page directory points to a page table. -/
def HasTable (s : Kmem) (pgdir : Word) (d : ℕ) : Prop :=
  Present (s.mem (slot pgdir (BitVec.ofNat 32 d)))

instance (s : Kmem) (pgdir : Word) (d : ℕ) : Decidable (HasTable s pgdir d) :=
  inferInstanceAs (Decidable (Present _))

theorem hasTable_PDX (s : Kmem) (pgdir va : Word) :
    HasTable s pgdir (PDX va).toNat ↔ Present (s.mem (slot pgdir (PDX va))) := by
  rw [HasTable, BitVec.ofNat_toNat, BitVec.setWidth_eq]

/-- The first address that uses slot `d` of the page directory. -/
theorem exists_PDX_eq {d : ℕ} (hd : d < 1024) :
    ∃ va : Word, (PDX va).toNat = d := by
  refine ⟨BitVec.ofNat 32 (d * 2 ^ 22), ?_⟩
  rw [toNat_PDX, BitVec.toNat_ofNat]
  omega

/-- What mapping the page `a` does: its entry becomes `v`, and its page table
is there, taken from the free list if it was missing. -/
structure MapsPage (s s' : Kmem) (pgdir a v : Word) (free free' : List Word) :
    Prop where
  pte : ∀ x, pteOf s' pgdir x =
    if PGROUNDDOWN x = a then v else pteOf s pgdir x
  table : ∀ d < 1024, HasTable s' pgdir d ↔
    d = (PDX a).toNat ∨ HasTable s pgdir d
  pages : HasTable s pgdir (PDX a).toNat ∧ free' = free ∨
    ¬ HasTable s pgdir (PDX a).toNat ∧ ∃ p, free = p :: free'

namespace AddressSpace

variable {s : Kmem} {pgdir a : Word} {tables free : List Word}

/-- `walkpgdir` fails if a page table is missing and no page is free. -/
theorem walkpgdir_none (h : AddressSpace s pgdir tables [])
    (ha : ¬ HasTable s pgdir (PDX a).toNat) :
    walkpgdir pgdir a true s = (0, s) := by
  rw [hasTable_PDX] at ha
  simp only [walkpgdir, if_neg ha, kalloc_nil h.chain]
  rfl

/-- Otherwise it returns the entry, and the page table is there. -/
theorem walkpgdir_table (h : AddressSpace s pgdir tables free)
    (hroom : HasTable s pgdir (PDX a).toNat ∨ free ≠ []) :
    ∃ s' tables' free',
      walkpgdir pgdir a true s =
        (slot (tableOf s' pgdir a) (PTX a), s') ∧
      slot (tableOf s' pgdir a) (PTX a) ≠ 0 ∧
      AddressSpace s' pgdir tables' free' ∧
      (∀ x, pteOf s' pgdir x = pteOf s pgdir x) ∧
      (∀ d < 1024, HasTable s' pgdir d ↔
        d = (PDX a).toNat ∨ HasTable s pgdir d) ∧
      (HasTable s pgdir (PDX a).toNat ∧ free' = free ∨
        ¬ HasTable s pgdir (PDX a).toNat ∧ ∃ p, free = p :: free') := by
  by_cases ha : HasTable s pgdir (PDX a).toNat
  · have ha' := (hasTable_PDX s pgdir a).mp ha
    have htab := h.owned a ha'
    refine ⟨s, tables, free, ?_, ?_, h, fun _ => rfl, ?_, .inl ⟨ha, rfl⟩⟩
    · simp only [walkpgdir, if_pos ha']
      rfl
    · exact slot_ne_zero (h.table_aligned htab) (h.nonzero _ htab)
        (toNat_PTX_lt a)
    · intro d _
      constructor
      · exact .inr
      · rintro (rfl | hd)
        · exact ha
        · exact hd
  · have ha' : ¬ Present (s.mem (slot pgdir (PDX a))) := fun hp =>
      ha ((hasTable_PDX s pgdir a).mpr hp)
    obtain _ | ⟨p, free⟩ := free
    · exact absurd rfl (hroom.resolve_left ha)
    obtain ⟨hspace, hpresent, htable, hsame⟩ := h.add_table ha'
    have hpf : p ∈ p :: free := List.mem_cons_self
    have hpz : p ≠ 0 := h.chain.ne_zero p hpf
    refine ⟨_, p :: tables, free, ?_, ?_, hspace, hsame, ?_,
      .inr ⟨ha, p, rfl⟩⟩
    · simp only [htable]
      simp only [walkpgdir, if_neg ha', kalloc_cons h.chain, if_neg hpz]
      rfl
    · rw [htable]
      exact slot_ne_zero (h.free_aligned hpf) hpz (toNat_PTX_lt a)
    · -- Only the slot of `a` is written outside the new page.
      intro d hd
      obtain ⟨x, rfl⟩ := exists_PDX_eq hd
      by_cases hx : PDX x = PDX a
      · rw [hx, hasTable_PDX]
        exact ⟨fun _ => .inl rfl, fun _ => hpresent⟩
      · have hxn : (PDX x).toNat ≠ (PDX a).toNat := fun heq =>
          hx (BitVec.eq_of_toNat_eq heq)
        rw [hasTable_PDX, hasTable_PDX, or_iff_right hxn]
        rw [show Kmem.mem _ (slot pgdir (PDX x)) = _ from
          Kmem.store_mem_of_ne fun heq => hx
            (slot_injective h.pgdir_aligned h.pgdir_aligned (toNat_PDX_lt x)
              (toNat_PDX_lt a) heq).2]
        rw [Kmem.zeroPage_mem,
          PGROUNDDOWN_slot h.pgdir_aligned (toNat_PDX_lt x),
          if_neg (h.free_ne_pgdir hpf).symm]

/-- One round of the loop of `mappages`. -/
theorem mappagesLoop_round (h : AddressSpace s pgdir tables free)
    (ha : PageAligned a) (last pa perm : Word) (fuel : ℕ) :
    (¬ HasTable s pgdir (PDX a).toNat ∧ free = [] ∧
      mappagesLoop pgdir last perm (fuel + 1) a pa s = .ret (-1) s) ∨
    (Present (pteOf s pgdir a) ∧
      mappagesLoop pgdir last perm (fuel + 1) a pa s = .panic "remap") ∨
    (¬ Present (pteOf s pgdir a) ∧ ∃ s' tables' free',
      AddressSpace s' pgdir tables' free' ∧
      MapsPage s s' pgdir a (pa ||| perm ||| PTE_P) free free' ∧
      mappagesLoop pgdir last perm (fuel + 1) a pa s =
        if a = last then .ret 0 s'
        else mappagesLoop pgdir last perm fuel (a + PGSIZE) (pa + PGSIZE)
          s') := by
  by_cases hroom : HasTable s pgdir (PDX a).toNat ∨ free ≠ []
  · right
    obtain ⟨s₁, tables₁, free₁, hwalk, hq, h₁, hsame, htable, hpages⟩ :=
      h.walkpgdir_table hroom
    have hdir : Present (s₁.mem (slot pgdir (PDX a))) := by
      rw [← hasTable_PDX, htable _ (toNat_PDX_lt a)]
      exact .inl rfl
    have hentry : s₁.mem (slot (tableOf s₁ pgdir a) (PTX a)) =
        pteOf s pgdir a := by
      rw [← hsame a, pteOf, if_pos hdir]
      rfl
    by_cases hmapped : Present (pteOf s pgdir a)
    · left
      refine ⟨hmapped, ?_⟩
      simp only [mappagesLoop, hwalk, if_neg hq, hentry, if_pos hmapped]
    · right
      obtain ⟨h₂, -, hstore⟩ := h₁.store_pte (pa ||| perm ||| PTE_P) hdir
      rw [PGROUNDDOWN_of_aligned ha] at hstore
      refine ⟨hmapped, _, tables₁, free₁, h₂, ⟨?_, ?_, hpages⟩, ?_⟩
      · intro x
        rw [hstore x, hsame x]
      · -- The entry is stored in the page table, not in the directory.
        intro d hd
        rw [← htable d hd]
        obtain ⟨x, rfl⟩ := exists_PDX_eq hd
        rw [hasTable_PDX, hasTable_PDX]
        have htab := h₁.owned a hdir
        rw [Kmem.store_mem_of_ne fun heq => h₁.table_ne_pgdir htab
          (slot_injective h₁.pgdir_aligned (h₁.table_aligned htab)
            (toNat_PDX_lt x) (toNat_PTX_lt a) heq).1.symm]
      · simp only [mappagesLoop, hwalk, if_neg hq, hentry, if_neg hmapped]
  · left
    rw [not_or, not_not] at hroom
    obtain ⟨hnone, rfl⟩ := hroom
    refine ⟨hnone, rfl, ?_⟩
    simp only [mappagesLoop, h.walkpgdir_none hnone, if_true]

end AddressSpace

/-! ## The page tables of a range -/

/-- The slots in `D` of the page directory that have no page table. -/
def missing (s : Kmem) (pgdir : Word) (D : Finset ℕ) : Finset ℕ :=
  D.filter fun d => ¬ HasTable s pgdir d

section Missing

variable {s s' : Kmem} {pgdir a v : Word} {free free' : List Word}
  {D : Finset ℕ}

theorem MapsPage.missing_eq (h : MapsPage s s' pgdir a v free free')
    (hD : ∀ d ∈ D, d < 1024) :
    missing s' pgdir D = (missing s pgdir D).erase (PDX a).toNat := by
  ext d
  simp only [missing, Finset.mem_filter, Finset.mem_erase]
  constructor
  · rintro ⟨hd, hno⟩
    rw [h.table d (hD d hd), not_or] at hno
    exact ⟨hno.1, hd, hno.2⟩
  · rintro ⟨hne, hd, hno⟩
    refine ⟨hd, ?_⟩
    rw [h.table d (hD d hd), not_or]
    exact ⟨hne, hno⟩

/-- As long as there are pages for the missing tables, there still are after
one of them has been taken. -/
theorem MapsPage.enough (h : MapsPage s s' pgdir a v free free')
    (hD : ∀ d ∈ D, d < 1024) (ha : (PDX a).toNat ∈ D)
    (hle : (missing s pgdir D).card ≤ free.length) :
    (missing s' pgdir D).card ≤ free'.length := by
  rw [h.missing_eq hD]
  rcases h.pages with ⟨-, rfl⟩ | ⟨hno, p, rfl⟩
  · exact (Finset.card_erase_le).trans hle
  · have hmem : (PDX a).toNat ∈ missing s pgdir D :=
      Finset.mem_filter.mpr ⟨ha, hno⟩
    rw [Finset.card_erase_of_mem hmem]
    rw [List.length_cons] at hle
    omega

/-- If there are too few pages, taking one does not change that. -/
theorem MapsPage.short (h : MapsPage s s' pgdir a v free free')
    (hD : ∀ d ∈ D, d < 1024)
    (hlt : free.length < (missing s pgdir D).card) :
    free'.length < (missing s' pgdir D).card := by
  rw [h.missing_eq hD]
  rcases h.pages with ⟨hhas, rfl⟩ | ⟨-, p, rfl⟩
  · have hnot : (PDX a).toNat ∉ missing s pgdir D := fun hmem =>
      (Finset.mem_filter.mp hmem).2 hhas
    rw [Finset.erase_eq_of_notMem hnot]
    exact hlt
  · have := Finset.pred_card_le_card_erase (s := missing s pgdir D)
      (a := (PDX a).toNat)
    rw [List.length_cons] at hlt
    omega

end Missing

/-! ## The loop -/

section Loop

variable {s s' : Kmem} {pgdir a pa last stop perm : Word}
  {tables free : List Word} {fuel : ℕ} {D : Finset ℕ} {r : Int}

/-- None of the pages from `a` up to `last`, counted with wraparound, is
present. -/
def Unmapped (s : Kmem) (pgdir a last : Word) : Prop :=
  ∀ x, PageAligned x → (x - a).toNat ≤ (last - a).toNat →
    ¬ Present (pteOf s pgdir x)

theorem sub_self_le (a b : Word) : (a - a).toNat ≤ b.toNat := by
  rw [BitVec.sub_self]
  exact Nat.zero_le _

theorem eq_of_sub_le_self {x : Word} (h : (x - a).toNat ≤ (a - a).toNat) :
    x = a := by
  have hself : (a - a).toNat = 0 := by
    rw [BitVec.sub_self]
    rfl
  apply BitVec.eq_of_toNat_eq
  have hx := x.isLt
  have ha := a.isLt
  rw [hself, BitVec.toNat_sub] at h
  omega

/-- A page between `a + PGSIZE` and `last` lies between `a` and `last`, and
is not `a`. -/
theorem range_tail {x : Word} (ha : PageAligned a) (hlast : PageAligned last)
    (hx : PageAligned x) (hne : a ≠ last)
    (hle : (x - (a + PGSIZE)).toNat ≤ (last - (a + PGSIZE)).toNat) :
    x ≠ a ∧ (x - a).toNat ≤ (last - a).toNat := by
  have hlast' := sub_add_PGSIZE ha hlast hne.symm
  have hxa : x ≠ a := by
    rintro rfl
    have hlt := (last - x).isLt
    have hself : (x - (x + PGSIZE)).toNat = 2 ^ 32 - 4096 := by
      have : x - (x + PGSIZE) = 0xFFFFF000#32 := by
        unfold PGSIZE
        bv_omega
      rw [this]
      rfl
    omega
  have hx' := sub_add_PGSIZE ha hx hxa
  exact ⟨hxa, by omega⟩

theorem MapsPage.unmapped {v : Word} {free' : List Word}
    (h : MapsPage s s' pgdir a v free free') (ha : PageAligned a)
    (hlast : PageAligned last) (hne : a ≠ last)
    (hun : Unmapped s pgdir a last) :
    Unmapped s' pgdir (a + PGSIZE) last := by
  intro x hx hle
  obtain ⟨hxa, hle⟩ := range_tail ha hlast hx hne hle
  rw [h.pte x, PGROUNDDOWN_of_aligned hx, if_neg hxa]
  exact hun x hx hle

/-- Whatever the loop returns, the address space is intact. -/
theorem mappagesLoop_space (ha : PageAligned a)
    (h : AddressSpace s pgdir tables free)
    (hret : mappagesLoop pgdir last perm fuel a pa s = .ret r s') :
    ∃ tables' free', AddressSpace s' pgdir tables' free' := by
  induction fuel generalizing a pa s tables free with
  | zero => cases hret
  | succ fuel ih =>
      rcases h.mappagesLoop_round ha last pa perm fuel with
        ⟨-, -, hres⟩ | ⟨-, hres⟩ | ⟨-, s₁, tables₁, free₁, h₁, -, hres⟩
      · rw [hres] at hret
        cases hret
        exact ⟨tables, free, h⟩
      · rw [hres] at hret
        cases hret
      · rw [hres] at hret
        split at hret
        · cases hret
          exact ⟨tables₁, free₁, h₁⟩
        · exact ih (pageAligned_add_PGSIZE ha) h₁ hret

/-- The loop succeeds only where nothing was mapped. -/
theorem mappagesLoop_unmapped (hlast : PageAligned last) (ha : PageAligned a)
    (h : AddressSpace s pgdir tables free)
    (hret : mappagesLoop pgdir last perm fuel a pa s = .ret 0 s') :
    Unmapped s pgdir a last := by
  induction fuel generalizing a pa s tables free with
  | zero => cases hret
  | succ fuel ih =>
      rcases h.mappagesLoop_round ha last pa perm fuel with
        ⟨-, -, hres⟩ | ⟨-, hres⟩ | ⟨hno, s₁, tables₁, free₁, h₁, hmaps, hres⟩
      · rw [hres] at hret
        cases hret
      · rw [hres] at hret
        cases hret
      · rw [hres] at hret
        intro x hx hle
        by_cases hxa : x = a
        · rw [hxa]
          exact hno
        have hold : pteOf s pgdir x = pteOf s₁ pgdir x := by
          rw [hmaps.pte x, PGROUNDDOWN_of_aligned hx, if_neg hxa]
        split at hret
        next heq =>
          -- No other page lies between `a` and itself.
          subst heq
          exact absurd (eq_of_sub_le_self hle) hxa
        next hne =>
          rw [hold]
          apply ih (pageAligned_add_PGSIZE ha) h₁ hret x hx
          have hlast' := sub_add_PGSIZE ha hlast (Ne.symm hne)
          have hx' := sub_add_PGSIZE ha hx hxa
          omega

/-- With pages enough for the missing tables, the loop maps an unmapped
range. -/
theorem mappagesLoop_enough (hlast : PageAligned last) (ha : PageAligned a)
    (h : AddressSpace s pgdir tables free)
    (hfuel : (last - a).toNat / 4096 < fuel)
    (hun : Unmapped s pgdir a last) (hD : ∀ d ∈ D, d < 1024)
    (hin : ∀ x, PageAligned x → (x - a).toNat ≤ (last - a).toNat →
      (PDX x).toNat ∈ D)
    (hle : (missing s pgdir D).card ≤ free.length) :
    ∃ s', mappagesLoop pgdir last perm fuel a pa s = .ret 0 s' := by
  induction fuel generalizing a pa s tables free with
  | zero => omega
  | succ fuel ih =>
      have haD : (PDX a).toNat ∈ D := hin a ha (sub_self_le a _)
      rcases h.mappagesLoop_round ha last pa perm fuel with
        ⟨hno, rfl, -⟩ | ⟨hyes, -⟩ | ⟨-, s₁, tables₁, free₁, h₁, hmaps, hres⟩
      · have hmem : (PDX a).toNat ∈ missing s pgdir D :=
          Finset.mem_filter.mpr ⟨haD, hno⟩
        have hpos := Finset.card_pos.mpr ⟨_, hmem⟩
        rw [List.length_nil] at hle
        omega
      · exact absurd hyes (hun a ha (sub_self_le a _))
      · rw [hres]
        split
        · exact ⟨s₁, rfl⟩
        next hne =>
          have hlast' := sub_add_PGSIZE ha hlast (Ne.symm hne)
          apply ih (pageAligned_add_PGSIZE ha) h₁ (by omega)
            (hmaps.unmapped ha hlast hne hun) _ (hmaps.enough hD haD hle)
          intro x hx hxle
          exact hin x hx (range_tail ha hlast hx hne hxle).2

/-- With too few pages for the tables of an unmapped range up to `stop`, the
loop does not get past `stop`: it does not panic, and it does not succeed if
`stop` is its last page. -/
theorem mappagesLoop_short (hstop : PageAligned stop) (ha : PageAligned a)
    (h : AddressSpace s pgdir tables free)
    (hun : Unmapped s pgdir a stop) (hD : ∀ d ∈ D, d < 1024)
    (hout : ∀ d ∈ D, HasTable s pgdir d ∨ ∃ x, PageAligned x ∧
      (x - a).toNat ≤ (stop - a).toNat ∧ (PDX x).toNat = d)
    (hlt : free.length < (missing s pgdir D).card) :
    (∀ message,
      mappagesLoop pgdir last perm fuel a pa s ≠ .panic message) ∧
    (last = stop →
      ∀ s', mappagesLoop pgdir last perm fuel a pa s ≠ .ret 0 s') := by
  induction fuel generalizing a pa s tables free with
  | zero => exact ⟨nofun, fun _ => nofun⟩
  | succ fuel ih =>
      rcases h.mappagesLoop_round ha last pa perm fuel with
        ⟨-, -, hres⟩ | ⟨hyes, -⟩ | ⟨-, s₁, tables₁, free₁, h₁, hmaps, hres⟩
      · rw [hres]
        exact ⟨nofun, fun _ => nofun⟩
      · exact absurd hyes (hun a ha (sub_self_le a _))
      · rw [hres]
        have hlt₁ := hmaps.short hD hlt
        have htables : ∀ d ∈ D, HasTable s₁ pgdir d ∨ a ≠ stop ∧
            ∃ x, PageAligned x ∧
              (x - (a + PGSIZE)).toNat ≤ (stop - (a + PGSIZE)).toNat ∧
              (PDX x).toNat = d := by
          intro d hd
          rcases hout d hd with hhas | ⟨x, hx, hxle, rfl⟩
          · exact .inl ((hmaps.table d (hD d hd)).mpr (.inr hhas))
          · by_cases hxa : x = a
            · subst hxa
              exact .inl ((hmaps.table _ (hD _ hd)).mpr (.inl rfl))
            · right
              have hne : a ≠ stop := by
                rintro rfl
                exact hxa (eq_of_sub_le_self hxle)
              have hstop' := sub_add_PGSIZE ha hstop hne.symm
              have hx' := sub_add_PGSIZE ha hx hxa
              exact ⟨hne, x, hx, by omega, rfl⟩
        -- At `stop` no table would be missing any more.
        have hbefore : a ≠ stop := by
          intro heq
          have hnone : missing s₁ pgdir D = ∅ := by
            apply Finset.filter_eq_empty_iff.mpr
            intro d hd hno
            rcases htables d hd with hhas | ⟨hne, -⟩
            · exact hno hhas
            · exact hne heq
          rw [hnone, Finset.card_empty] at hlt₁
          omega
        split
        next heq =>
          refine ⟨nofun, fun hls => ?_⟩
          exact absurd (heq.trans hls) hbefore
        next hne =>
          apply ih (pageAligned_add_PGSIZE ha) h₁
            (hmaps.unmapped ha hstop hbefore hun) _ hlt₁
          intro d hd
          rcases htables d hd with hhas | ⟨-, hx⟩
          · exact .inl hhas
          · exact .inr hx

end Loop

/-! ## The call -/

/-- The last page that `mappages` is to map. -/
def lastPage (va size : Word) : Word := PGROUNDDOWN (va + size - 1)

/-- The address lies in one of the pages that `mappages` is to map. -/
def InRange (va size x : Word) : Prop :=
  PGROUNDDOWN va ≤ PGROUNDDOWN x ∧ PGROUNDDOWN x ≤ lastPage va size

instance (va size x : Word) : Decidable (InRange va size x) :=
  inferInstanceAs (Decidable (_ ∧ _))

theorem pageAligned_lastPage (va size : Word) :
    PageAligned (lastPage va size) :=
  pageAligned_PGROUNDDOWN _

@[simp] theorem PGROUNDDOWN_lastPage (va size : Word) :
    PGROUNDDOWN (lastPage va size) = lastPage va size :=
  PGROUNDDOWN_of_aligned (pageAligned_lastPage va size)

/-- The slots of the page directory that the range uses. -/
def tablesOf (va size : Word) : Finset ℕ :=
  Finset.Icc (PDX va).toNat (PDX (lastPage va size)).toNat

/-- None of the pages of the range is present, and there are pages enough for
the page tables that it still needs. -/
structure Mappable (s : Kmem) (pgdir va size : Word) (free : List Word) :
    Prop where
  absent : ∀ x, InRange va size x → ¬ Present (pteOf s pgdir x)
  room : (missing s pgdir (tablesOf va size)).card ≤ free.length

/-- `mappages` maps its range page by page to physical pages from `pa` on and
leaves every other translation as it is; it panics only if a page of the range
is present already. -/
structure MapsRange (s : Kmem) (pgdir va size pa perm : Word)
    (free : List Word) : Prop where
  maps : Mappable s pgdir va size free → ∃ s' tables' free',
    mappages pgdir va size pa perm s = .ret 0 s' ∧
    AddressSpace s' pgdir tables' free' ∧
    ∀ x, pteOf s' pgdir x =
      if InRange va size x then
        (pa + (PGROUNDDOWN x - PGROUNDDOWN va)) ||| perm ||| PTE_P
      else pteOf s pgdir x
  panics : ∀ message,
    mappages pgdir va size pa perm s = .panic message →
    message = "remap" ∧
      ∃ x, InRange va size x ∧ Present (pteOf s pgdir x)

section Range

variable {s : Kmem} {pgdir va size pa perm x : Word} {tables free : List Word}

theorem toNat_last (hsize : 0 < size) (hwrap : va.toNat + size.toNat ≤ 2 ^ 32) :
    (va + size - 1).toNat = va.toNat + size.toNat - 1 := by
  have hpos : 0 < size.toNat := BitVec.lt_def.mp hsize
  have hone : (1 : Word).toNat = 1 := rfl
  rw [BitVec.toNat_sub, BitVec.toNat_add, hone]
  omega

/-- Counted from the first page with wraparound, the pages of the range are
the ones up to the last. -/
theorem inRange_iff (hsize : 0 < size)
    (hwrap : va.toNat + size.toNat ≤ 2 ^ 32) :
    InRange va size x ↔ (PGROUNDDOWN x - PGROUNDDOWN va).toNat ≤
      (lastPage va size - PGROUNDDOWN va).toNat := by
  have hpos : 0 < size.toNat := BitVec.lt_def.mp hsize
  have hlast : (lastPage va size).toNat =
      (va.toNat + size.toNat - 1) / 4096 * 4096 := by
    rw [lastPage, toNat_PGROUNDDOWN, toNat_last hsize hwrap]
  have hx := (PGROUNDDOWN x).isLt
  have hfirst := toNat_PGROUNDDOWN va
  unfold InRange
  rw [BitVec.le_def, BitVec.le_def, BitVec.toNat_sub, BitVec.toNat_sub]
  omega

theorem inRange_first (hsize : 0 < size)
    (hwrap : va.toNat + size.toNat ≤ 2 ^ 32) : InRange va size va := by
  rw [inRange_iff hsize hwrap]
  exact sub_self_le _ _

theorem inRange_last (hsize : 0 < size)
    (hwrap : va.toNat + size.toNat ≤ 2 ^ 32) :
    InRange va size (lastPage va size) := by
  rw [inRange_iff hsize hwrap, PGROUNDDOWN_lastPage]

theorem lt_of_mem_tablesOf {d : ℕ} (hd : d ∈ tablesOf va size) : d < 1024 := by
  have hle := (Finset.mem_Icc.mp hd).2
  have := toNat_PDX_lt (lastPage va size)
  omega

theorem mem_tablesOf (hx : InRange va size x) :
    (PDX x).toNat ∈ tablesOf va size := by
  obtain ⟨hlow, hhigh⟩ := hx
  rw [BitVec.le_def, toNat_PGROUNDDOWN, toNat_PGROUNDDOWN] at hlow
  rw [BitVec.le_def, toNat_PGROUNDDOWN] at hhigh
  rw [tablesOf, Finset.mem_Icc, toNat_PDX, toNat_PDX, toNat_PDX]
  omega

/-- Every slot between the first and the last is that of a page of the
range. -/
theorem exists_of_mem_tablesOf (hsize : 0 < size)
    (hwrap : va.toNat + size.toNat ≤ 2 ^ 32) {d : ℕ}
    (hd : d ∈ tablesOf va size) :
    ∃ x, PageAligned x ∧ InRange va size x ∧ (PDX x).toNat = d := by
  have hlt := lt_of_mem_tablesOf hd
  obtain ⟨hlow, hhigh⟩ := Finset.mem_Icc.mp hd
  by_cases hfirst : (PDX va).toNat = d
  · refine ⟨PGROUNDDOWN va, pageAligned_PGROUNDDOWN va, ?_, ?_⟩
    · rw [inRange_iff hsize hwrap,
        PGROUNDDOWN_of_aligned (pageAligned_PGROUNDDOWN va)]
      exact sub_self_le _ _
    · rw [← hfirst, toNat_PDX, toNat_PDX, toNat_PGROUNDDOWN]
      omega
  · -- A later slot begins after `va`.
    have hx : (BitVec.ofNat 32 (d * 2 ^ 22)).toNat = d * 2 ^ 22 := by
      rw [BitVec.toNat_ofNat]
      omega
    have haligned : PageAligned (BitVec.ofNat 32 (d * 2 ^ 22)) := by
      unfold PageAligned
      omega
    rw [toNat_PDX] at hlow hfirst hhigh
    refine ⟨_, haligned, ⟨?_, ?_⟩, ?_⟩
    · rw [BitVec.le_def, PGROUNDDOWN_of_aligned haligned, hx,
        toNat_PGROUNDDOWN]
      omega
    · rw [BitVec.le_def, PGROUNDDOWN_of_aligned haligned, hx]
      omega
    · rw [toNat_PDX, hx]
      omega

/-- The range is unmapped for the loop when none of its pages is present. -/
theorem unmapped_iff (hsize : 0 < size)
    (hwrap : va.toNat + size.toNat ≤ 2 ^ 32) :
    Unmapped s pgdir (PGROUNDDOWN va) (lastPage va size) ↔
      ∀ x, InRange va size x → ¬ Present (pteOf s pgdir x) := by
  constructor
  · intro h x hx
    rw [inRange_iff hsize hwrap] at hx
    have hpage : pteOf s pgdir x = pteOf s pgdir (PGROUNDDOWN x) :=
      pteOf_congr_page
        (PGROUNDDOWN_of_aligned (pageAligned_PGROUNDDOWN x)).symm
    rw [hpage]
    exact h _ (pageAligned_PGROUNDDOWN x) hx
  · intro h x hx hle
    apply h x
    rw [inRange_iff hsize hwrap, PGROUNDDOWN_of_aligned hx]
    exact hle

/-- With the right last page, `mappages` maps its range. -/
theorem maps_of_lastPage (perm : Word) (h : AddressSpace s pgdir tables free)
    (hsize : 0 < size) (hwrap : va.toNat + size.toNat ≤ 2 ^ 32)
    (hlast : lastPage pa size = lastPage va size)
    (hm : Mappable s pgdir va size free) : ∃ s' tables' free',
      mappages pgdir va size pa perm s = .ret 0 s' ∧
      AddressSpace s' pgdir tables' free' ∧
      ∀ x, pteOf s' pgdir x =
        if InRange va size x then
          (pa + (PGROUNDDOWN x - PGROUNDDOWN va)) ||| perm ||| PTE_P
        else pteOf s pgdir x := by
  have hcall : mappages pgdir va size pa perm s =
      mappagesLoop pgdir (lastPage va size) perm addressSpacePages
        (PGROUNDDOWN va) pa s := by
    rw [← hlast]
    rfl
  have hin : ∀ x, PageAligned x → (x - PGROUNDDOWN va).toNat ≤
      (lastPage va size - PGROUNDDOWN va).toNat →
      (PDX x).toNat ∈ tablesOf va size := by
    intro x hx hle
    apply mem_tablesOf
    rw [inRange_iff hsize hwrap, PGROUNDDOWN_of_aligned hx]
    exact hle
  have hfuel : (lastPage va size - PGROUNDDOWN va).toNat / 4096 <
      addressSpacePages := by
    have := (lastPage va size - PGROUNDDOWN va).isLt
    unfold addressSpacePages
    omega
  obtain ⟨s', hret⟩ : ∃ s', mappagesLoop pgdir (lastPage va size) perm
      addressSpacePages (PGROUNDDOWN va) pa s = .ret 0 s' :=
    mappagesLoop_enough (pageAligned_lastPage va size)
      (pageAligned_PGROUNDDOWN va) h hfuel
      ((unmapped_iff hsize hwrap).mpr hm.absent)
      (fun d hd => lt_of_mem_tablesOf hd) hin hm.room
  rcases mappagesLoop_ret (pageAligned_lastPage va size)
      (pageAligned_PGROUNDDOWN va) h hret with
    hfail | ⟨-, tables', free', h', hall⟩
  · cases hfail
  · refine ⟨s', tables', free', hcall.trans hret, h', fun x => ?_⟩
    rw [hall x]
    simp only [inRange_iff hsize hwrap]

/-- With another last page it does not. -/
theorem not_mapsRange (h : AddressSpace s pgdir tables free)
    (hsize : 0 < size) (hwrap : va.toNat + size.toNat ≤ 2 ^ 32)
    (hlast : lastPage pa size ≠ lastPage va size)
    (hm : Mappable s pgdir va size free) :
    ¬ MapsRange s pgdir va size pa perm free := by
  intro hspec
  obtain ⟨s', tables', free', hret, -, hall⟩ := hspec.maps hm
  rcases mappagesLoop_ret (pageAligned_lastPage pa size)
      (pageAligned_PGROUNDDOWN va) h hret with
    hfail | ⟨-, -, -, -, hdone⟩
  · cases hfail
  have hbefore := mappagesLoop_unmapped (pageAligned_lastPage pa size)
    (pageAligned_PGROUNDDOWN va) h hret
  -- The last page that is mapped and the last one of the range are the same.
  have hmapped : Present (pteOf s' pgdir (lastPage pa size)) := by
    rw [hdone, PGROUNDDOWN_lastPage, if_pos (le_refl _)]
    exact present_or_PTE_P _
  have hin : InRange va size (lastPage pa size) := by
    by_contra hout
    rw [hall, if_neg hout] at hmapped
    exact hbefore _ (pageAligned_lastPage pa size) (le_refl _) hmapped
  have hend : (lastPage va size - PGROUNDDOWN va).toNat ≤
      (lastPage pa size - PGROUNDDOWN va).toNat := by
    by_contra hout
    have hpresent : Present (pteOf s' pgdir (lastPage va size)) := by
      rw [hall, if_pos (inRange_last hsize hwrap)]
      exact present_or_PTE_P _
    rw [hdone, PGROUNDDOWN_lastPage, if_neg hout] at hpresent
    exact hm.absent _ (inRange_last hsize hwrap) hpresent
  rw [inRange_iff hsize hwrap, PGROUNDDOWN_lastPage] at hin
  apply hlast
  have hdist : lastPage pa size - PGROUNDDOWN va =
      lastPage va size - PGROUNDDOWN va :=
    BitVec.eq_of_toNat_eq (Nat.le_antisymm hin hend)
  exact (BitVec.sub_left_inj _).mp hdist

/-- Where `Mappable` fails, a panic is about a page of the range. -/
theorem panic_of_not_mappable (h : AddressSpace s pgdir tables free)
    (hsize : 0 < size) (hwrap : va.toNat + size.toNat ≤ 2 ^ 32)
    (hm : ¬ Mappable s pgdir va size free) {message : String}
    (hpanic : mappages pgdir va size pa perm s = .panic message) :
    ∃ x, InRange va size x ∧ Present (pteOf s pgdir x) := by
  by_contra hnone
  have habsent : ∀ x, InRange va size x → ¬ Present (pteOf s pgdir x) :=
    fun x hx hpresent => hnone ⟨x, hx, hpresent⟩
  have hlt : free.length < (missing s pgdir (tablesOf va size)).card := by
    by_contra hle
    exact hm ⟨habsent, Nat.le_of_not_lt hle⟩
  refine (mappagesLoop_short (pageAligned_lastPage va size)
    (pageAligned_PGROUNDDOWN va) h
    ((unmapped_iff hsize hwrap).mpr habsent)
    (fun d hd => lt_of_mem_tablesOf hd) ?_ hlt).1 message hpanic
  intro d hd
  obtain ⟨x, hx, hin, hdx⟩ := exists_of_mem_tablesOf hsize hwrap hd
  rw [inRange_iff hsize hwrap, PGROUNDDOWN_of_aligned hx] at hin
  exact .inr ⟨x, hx, hin, hdx⟩

end Range

/-- `mappages` does what its comment says exactly when the last page computed
from the physical address is the last page of the range (or the range cannot
be mapped at all). -/
theorem mapsRange_iff (s : Kmem) (pgdir va size pa perm : Word)
    (tables free : List Word) (h : AddressSpace s pgdir tables free)
    (hsize : 0 < size) (hwrap : va.toNat + size.toNat ≤ 2 ^ 32) :
    MapsRange s pgdir va size pa perm free ↔
      (Mappable s pgdir va size free →
        PGROUNDDOWN (pa + size - 1) = PGROUNDDOWN (va + size - 1)) := by
  constructor
  · intro hspec hm
    by_contra hlast
    exact not_mapsRange h hsize hwrap hlast hm hspec
  · intro hlast
    refine ⟨fun hm => maps_of_lastPage perm h hsize hwrap (hlast hm) hm, ?_⟩
    intro message hpanic
    refine ⟨mappagesLoop_panic hpanic, ?_⟩
    by_cases hm : Mappable s pgdir va size free
    · obtain ⟨s', -, -, hret, -⟩ :=
        maps_of_lastPage perm h hsize hwrap (hlast hm) hm
      rw [hret] at hpanic
      cases hpanic
    · exact panic_of_not_mappable h hsize hwrap hm hpanic

/-- An empty page directory at 0x80400000, with 1023 free pages. -/
def emptyDirectory : Kmem :=
  ({ bootKmem with freelist := bootKmem.mem 0x80400000#32 } : Kmem).zeroPage
    0x80400000#32

theorem addressSpace_emptyDirectory :
    AddressSpace emptyDirectory 0x80400000#32 []
      (contiguousPages 1023 0x80401000#32) :=
  addressSpace_zeroPage freePages_bootKmem

/-- The first entry of `kmap` in an empty page directory. -/
theorem mapsRange_iff_firstEntry :
    MapsRange emptyDirectory 0x80400000#32 KERNBASE EXTMEM 0 PTE_W
        (contiguousPages 1023 0x80401000#32) ↔
      (Mappable emptyDirectory 0x80400000#32 KERNBASE EXTMEM
          (contiguousPages 1023 0x80401000#32) →
        PGROUNDDOWN (0 + EXTMEM - 1) = PGROUNDDOWN (KERNBASE + EXTMEM - 1)) :=
  mapsRange_iff _ _ _ _ _ _ _ _ addressSpace_emptyDirectory (by decide)
    (by decide)

theorem mappable_firstEntry :
    Mappable emptyDirectory 0x80400000#32 KERNBASE EXTMEM
      (contiguousPages 1023 0x80401000#32) where
  absent := by
    intro x _
    have habsent : ¬ Present (emptyDirectory.mem
        (slot 0x80400000#32 (PDX x))) := by
      intro hx
      rw [emptyDirectory, Kmem.zeroPage_mem,
        PGROUNDDOWN_slot (by decide) (toNat_PDX_lt x), if_pos rfl] at hx
      exact hx (by decide)
    rw [pteOf, if_neg habsent]
    decide
  room := by
    rw [length_contiguousPages]
    have hone : (tablesOf KERNBASE EXTMEM).card = 1 := by decide
    have := Finset.card_filter_le (tablesOf KERNBASE EXTMEM)
      fun d => ¬ HasTable emptyDirectory 0x80400000#32 d
    rw [missing]
    omega

/-- Mapping the first entry of `kmap` in an empty page directory goes wrong. -/
theorem mappages_not_always_right :
    ¬ ∀ (s : Kmem) (pgdir va size pa perm : Word) (tables free : List Word),
      AddressSpace s pgdir tables free → PageAligned pa → 0 < size →
      va.toNat + size.toNat ≤ 2 ^ 32 →
      MapsRange s pgdir va size pa perm free := by
  intro h
  exact not_mapsRange addressSpace_emptyDirectory (by decide) (by decide)
    (by decide) mappable_firstEntry
    (h _ _ _ _ 0 PTE_W _ _ addressSpace_emptyDirectory (by decide)
      (by decide) (by decide))

end ZtlOs.Memory
