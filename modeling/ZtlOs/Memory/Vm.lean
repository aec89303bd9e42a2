import ZtlOs.Memory.Kalloc

/-!
# Page tables

`walkpgdir` and `mappages` of `vm.c`, and the translation that a page
directory defines.

The `for(;;)` loop of `mappages` ends when the address it maps equals `last`.
The loop is given a bound on its iterations here; `mappages` uses the number
of pages of the address space, which is always enough
(`mappages_ne_running`).
-/

namespace ZtlOs.Memory

/-- How a call of the virtual memory code ends. -/
inductive Result (α : Type*) where
  | ret (value : α) (s : Kmem)
  | panic (message : String)
  /-- The bound on loop iterations is spent. -/
  | running

/-- `walkpgdir`: the address of the entry for `va`, or 0. -/
def walkpgdir (pgdir va : Word) (alloc : Bool) (s : Kmem) : Word × Kmem :=
  let pde := slot pgdir (PDX va)
  if Present (s.mem pde) then
    (slot (P2V (PTE_ADDR (s.mem pde))) (PTX va), s)
  else if alloc = false then
    (0, s)
  else
    let (pgtab, s) := kalloc s
    if pgtab = 0 then
      (0, s)
    else
      let s := s.zeroPage pgtab
      let s := s.store pde (V2P pgtab ||| PTE_P ||| PTE_W ||| PTE_U)
      (slot pgtab (PTX va), s)

/-- The loop of `mappages`, from address `a` on. -/
def mappagesLoop (pgdir last perm : Word) :
    ℕ → Word → Word → Kmem → Result Int
  | 0, _, _, _ => .running
  | fuel + 1, a, pa, s =>
      let (pte, s) := walkpgdir pgdir a true s
      if pte = 0 then .ret (-1) s
      else if Present (s.mem pte) then .panic "remap"
      else
        let s := s.store pte (pa ||| perm ||| PTE_P)
        if a = last then .ret 0 s
        else mappagesLoop pgdir last perm fuel (a + PGSIZE) (pa + PGSIZE) s

/-- The number of pages of the address space. -/
@[irreducible] def addressSpacePages : ℕ := 2 ^ 20

theorem addressSpacePages_eq_succ : ∃ n, addressSpacePages = n + 1 := by
  unfold addressSpacePages
  exact ⟨2 ^ 20 - 1, rfl⟩

/-- `mappages`.  The last page is computed from `pa`, as in the source. -/
def mappages (pgdir va size pa perm : Word) (s : Kmem) : Result Int :=
  let a := PGROUNDDOWN va
  let last := PGROUNDDOWN (pa + size - 1)
  mappagesLoop pgdir last perm addressSpacePages a pa s

/-! ## The translation of a page directory -/

/-- The entry that the two-level table holds for `va`; an absent page table
holds no entry. -/
def pteOf (s : Kmem) (pgdir va : Word) : Word :=
  let pde := s.mem (slot pgdir (PDX va))
  if Present pde then s.mem (slot (P2V (PTE_ADDR pde)) (PTX va)) else 0

theorem pteOf_congr_page {s : Kmem} {pgdir va vb : Word}
    (h : PGROUNDDOWN va = PGROUNDDOWN vb) :
    pteOf s pgdir va = pteOf s pgdir vb := by
  obtain ⟨hd, ht⟩ := index_eq_of_page_eq h
  simp only [pteOf, hd, ht]

/-- The page table that `va` uses. -/
def tableOf (s : Kmem) (pgdir va : Word) : Word :=
  P2V (PTE_ADDR (s.mem (slot pgdir (PDX va))))

/-- The directory, its page tables and the free pages are pairwise different
pages, every present directory entry points to its own page table. -/
structure AddressSpace (s : Kmem) (pgdir : Word) (tables free : List Word) :
    Prop where
  chain : FreeChain s.mem s.freelist free
  nodup : (pgdir :: (tables ++ free)).Nodup
  aligned : ∀ p ∈ pgdir :: (tables ++ free), PageAligned p
  nonzero : ∀ p ∈ tables, p ≠ 0
  owned : ∀ va, Present (s.mem (slot pgdir (PDX va))) →
    tableOf s pgdir va ∈ tables
  unshared : ∀ va vb, Present (s.mem (slot pgdir (PDX va))) →
    Present (s.mem (slot pgdir (PDX vb))) →
    tableOf s pgdir va = tableOf s pgdir vb → PDX va = PDX vb

namespace AddressSpace

variable {s : Kmem} {pgdir : Word} {tables free : List Word}

theorem pgdir_aligned (h : AddressSpace s pgdir tables free) :
    PageAligned pgdir :=
  h.aligned pgdir List.mem_cons_self

theorem table_aligned (h : AddressSpace s pgdir tables free) {p : Word}
    (hp : p ∈ tables) : PageAligned p :=
  h.aligned p (List.mem_cons_of_mem _ (List.mem_append_left _ hp))

theorem free_aligned (h : AddressSpace s pgdir tables free) {p : Word}
    (hp : p ∈ free) : PageAligned p :=
  h.aligned p (List.mem_cons_of_mem _ (List.mem_append_right _ hp))

theorem table_ne_pgdir (h : AddressSpace s pgdir tables free) {p : Word}
    (hp : p ∈ tables) : p ≠ pgdir := by
  rintro rfl
  exact (List.nodup_cons.mp h.nodup).1 (List.mem_append_left _ hp)

theorem free_ne_pgdir (h : AddressSpace s pgdir tables free) {p : Word}
    (hp : p ∈ free) : p ≠ pgdir := by
  rintro rfl
  exact (List.nodup_cons.mp h.nodup).1 (List.mem_append_right _ hp)

theorem free_ne_table (h : AddressSpace s pgdir tables free) {p q : Word}
    (hp : p ∈ free) (hq : q ∈ tables) : p ≠ q := by
  rintro rfl
  exact List.disjoint_of_nodup_append (List.nodup_cons.mp h.nodup).2 hq hp

/-- A free page is not the page of any slot of a directory or table. -/
theorem free_ne_slot (h : AddressSpace s pgdir tables free) {p q i : Word}
    (hp : p ∈ free) (hq : q ∈ pgdir :: tables) (hi : i.toNat < 1024) :
    p ≠ slot q i := by
  have hqa : PageAligned q := by
    rcases List.mem_cons.mp hq with rfl | hq
    · exact h.pgdir_aligned
    · exact h.table_aligned hq
  intro heq
  have hpage := congrArg PGROUNDDOWN heq
  rw [PGROUNDDOWN_of_aligned (h.free_aligned hp),
    PGROUNDDOWN_slot hqa hi] at hpage
  rcases List.mem_cons.mp hq with rfl | hq
  · exact h.free_ne_pgdir hp hpage
  · exact h.free_ne_table hp hq hpage

theorem slot_ne_zero {q i : Word} (ha : PageAligned q) (hz : q ≠ 0)
    (hi : i.toNat < 1024) : slot q i ≠ 0 := by
  intro h
  have hnat := congrArg BitVec.toNat h
  rw [toNat_slot ha hi] at hnat
  have hq : q.toNat ≠ 0 := fun hq => hz (BitVec.eq_of_toNat_eq hq)
  simp at hnat
  omega

/-- Storing an entry in a page table changes the translation of its page and
of no other. -/
theorem store_pte (h : AddressSpace s pgdir tables free) {va : Word}
    (v : Word) (hva : Present (s.mem (slot pgdir (PDX va)))) :
    AddressSpace (s.store (slot (tableOf s pgdir va) (PTX va)) v)
        pgdir tables free ∧
      (s.store (slot (tableOf s pgdir va) (PTX va)) v).mem
          (slot pgdir (PDX va)) = s.mem (slot pgdir (PDX va)) ∧
      ∀ x, pteOf (s.store (slot (tableOf s pgdir va) (PTX va)) v) pgdir x =
        if PGROUNDDOWN x = PGROUNDDOWN va then v else pteOf s pgdir x := by
  have htab := h.owned va hva
  have htaba := h.table_aligned htab
  have hdir : ∀ x, (s.store (slot (tableOf s pgdir va) (PTX va)) v).mem
      (slot pgdir (PDX x)) = s.mem (slot pgdir (PDX x)) := by
    intro x
    apply Kmem.store_mem_of_ne
    intro heq
    exact h.table_ne_pgdir htab
      (slot_injective h.pgdir_aligned htaba (toNat_PDX_lt x)
        (toNat_PTX_lt va) heq).1.symm
  have htable : ∀ x, tableOf (s.store (slot (tableOf s pgdir va) (PTX va)) v)
      pgdir x = tableOf s pgdir x := by
    intro x
    simp only [tableOf] at hdir ⊢
    rw [hdir x]
  refine ⟨⟨?_, h.nodup, h.aligned, h.nonzero, ?_, ?_⟩, hdir va, ?_⟩
  · apply h.chain.congr
    intro p hp
    exact Kmem.store_mem_of_ne
      (h.free_ne_slot hp (List.mem_cons_of_mem _ htab) (toNat_PTX_lt va))
  · intro x hx
    rw [hdir x] at hx
    rw [htable x]
    exact h.owned x hx
  · intro x y hx hy
    rw [hdir x] at hx
    rw [hdir y] at hy
    rw [htable x, htable y]
    exact h.unshared x y hx hy
  · intro x
    by_cases hpage : PGROUNDDOWN x = PGROUNDDOWN va
    · obtain ⟨hd, ht⟩ := index_eq_of_page_eq hpage
      rw [if_pos hpage]
      simp only [pteOf]
      rw [hdir x, hd, ht, if_pos hva]
      exact Kmem.store_mem_self s _ v
    · rw [if_neg hpage]
      simp only [pteOf]
      rw [hdir x]
      split
      next hx =>
        apply Kmem.store_mem_of_ne
        intro heq
        obtain ⟨htt, hti⟩ := slot_injective
          (h.table_aligned (h.owned x hx)) htaba (toNat_PTX_lt x)
          (toNat_PTX_lt va) heq
        exact hpage (page_eq_of_index_eq (h.unshared x va hx hva htt) hti)
      next => rfl

/-- Adding an empty page table for `va` leaves the translation as it is. -/
theorem add_table {p : Word} (h : AddressSpace s pgdir tables (p :: free))
    {va : Word} (hva : ¬ Present (s.mem (slot pgdir (PDX va)))) :
    let s' := (({ s with freelist := s.mem p } : Kmem).zeroPage p).store
      (slot pgdir (PDX va)) (V2P p ||| PTE_P ||| PTE_W ||| PTE_U)
    AddressSpace s' pgdir (p :: tables) free ∧
      Present (s'.mem (slot pgdir (PDX va))) ∧
      tableOf s' pgdir va = p ∧
      ∀ x, pteOf s' pgdir x = pteOf s pgdir x := by
  intro s'
  have hpf : p ∈ p :: free := List.mem_cons_self
  have hpa : PageAligned p := h.free_aligned hpf
  have hpz : p ≠ 0 := h.chain.ne_zero p hpf
  -- The new entry is present and leads to `p`.
  have hnew : s'.mem (slot pgdir (PDX va)) =
      V2P p ||| PTE_P ||| PTE_W ||| PTE_U :=
    Kmem.store_mem_self _ _ _
  have hflags : V2P p ||| PTE_P ||| PTE_W ||| PTE_U = V2P p ||| 7#32 := by
    rw [BitVec.or_assoc, BitVec.or_assoc]
    rfl
  have hpresent : Present (s'.mem (slot pgdir (PDX va))) := by
    have hcomm : V2P p ||| 7#32 = (V2P p ||| 6#32) ||| PTE_P := by
      rw [BitVec.or_assoc]
      rfl
    rw [hnew, hflags, hcomm]
    exact present_or_PTE_P _
  have htable : tableOf s' pgdir va = p := by
    rw [tableOf, hnew, hflags]
    exact P2V_PTE_ADDR hpa (by decide)
  -- Every other directory slot is as before.
  have hdir : ∀ x, PDX x ≠ PDX va →
      s'.mem (slot pgdir (PDX x)) = s.mem (slot pgdir (PDX x)) := by
    intro x hx
    rw [show s'.mem (slot pgdir (PDX x)) = _ from
      Kmem.store_mem_of_ne fun heq => hx
        (slot_injective h.pgdir_aligned h.pgdir_aligned (toNat_PDX_lt x)
          (toNat_PDX_lt va) heq).2]
    rw [Kmem.zeroPage_mem, PGROUNDDOWN_slot h.pgdir_aligned (toNat_PDX_lt x),
      if_neg (h.free_ne_pgdir hpf).symm]
  -- The words of the old tables are as before.
  have hword : ∀ q ∈ tables, ∀ i : Word, i.toNat < 1024 →
      s'.mem (slot q i) = s.mem (slot q i) := by
    intro q hq i hi
    have hqa := h.table_aligned hq
    rw [show s'.mem (slot q i) = _ from
      Kmem.store_mem_of_ne fun heq => h.table_ne_pgdir hq
        (slot_injective hqa h.pgdir_aligned hi (toNat_PDX_lt va) heq).1]
    rw [Kmem.zeroPage_mem, PGROUNDDOWN_slot hqa hi,
      if_neg (h.free_ne_table hpf hq).symm]
  have hold : ∀ x, PDX x ≠ PDX va → tableOf s' pgdir x = tableOf s pgdir x := by
    intro x hx
    rw [tableOf, tableOf, hdir x hx]
  have hperm : (pgdir :: (p :: tables ++ free)).Perm
      (pgdir :: (tables ++ p :: free)) :=
    List.Perm.cons _ List.perm_middle.symm
  refine ⟨⟨?_, ?_, ?_, ?_, ?_, ?_⟩, hpresent, htable, ?_⟩
  · -- The rest of the free list is untouched.
    refine FreeChain.congr h.chain.2.2 ?_
    · intro q hq
      have hqf : q ∈ p :: free := List.mem_cons_of_mem p hq
      have hne : q ≠ p := by
        rintro rfl
        have hsub := ((List.nodup_cons.mp h.nodup).2).of_append_right
        exact (List.nodup_cons.mp hsub).1 hq
      rw [show s'.mem q = _ from Kmem.store_mem_of_ne
        (h.free_ne_slot hqf List.mem_cons_self (toNat_PDX_lt va))]
      rw [Kmem.zeroPage_mem, PGROUNDDOWN_of_aligned (h.free_aligned hqf),
        if_neg hne]
  · exact hperm.nodup_iff.mpr h.nodup
  · intro q hq
    exact h.aligned q (hperm.mem_iff.mp hq)
  · intro q hq
    rcases List.mem_cons.mp hq with rfl | hq
    · exact hpz
    · exact h.nonzero q hq
  · intro x hx
    by_cases hd : PDX x = PDX va
    · have hsame : tableOf s' pgdir x = p := by
        rw [← htable, tableOf, tableOf, hd]
      rw [hsame]
      exact List.mem_cons_self
    · rw [hdir x hd] at hx
      rw [hold x hd]
      exact List.mem_cons_of_mem p (h.owned x hx)
  · intro x y hx hy hxy
    by_cases hdx : PDX x = PDX va
    · by_cases hdy : PDX y = PDX va
      · exact hdx.trans hdy.symm
      · exfalso
        have hsame : tableOf s' pgdir x = p := by
          rw [← htable, tableOf, tableOf, hdx]
        rw [hdir y hdy] at hy
        rw [hsame, hold y hdy] at hxy
        exact h.free_ne_table hpf (h.owned y hy) hxy
    · by_cases hdy : PDX y = PDX va
      · exfalso
        have hsame : tableOf s' pgdir y = p := by
          rw [← htable, tableOf, tableOf, hdy]
        rw [hdir x hdx] at hx
        rw [hsame, hold x hdx] at hxy
        exact h.free_ne_table hpf (h.owned x hx) hxy.symm
      · rw [hdir x hdx] at hx
        rw [hdir y hdy] at hy
        rw [hold x hdx, hold y hdy] at hxy
        exact h.unshared x y hx hy hxy
  · intro x
    by_cases hd : PDX x = PDX va
    · -- The new table is empty, and there was none before.
      have hbefore : pteOf s pgdir x = 0 := by
        simp only [pteOf, hd, if_neg hva]
      have hafter : pteOf s' pgdir x = s'.mem (slot p (PTX x)) := by
        simp only [pteOf, hd, if_pos hpresent]
        rw [← htable]
        rfl
      rw [hbefore, hafter]
      rw [show s'.mem (slot p (PTX x)) = _ from
        Kmem.store_mem_of_ne fun heq => h.free_ne_pgdir hpf
          (slot_injective hpa h.pgdir_aligned (toNat_PTX_lt x)
            (toNat_PDX_lt va) heq).1]
      rw [Kmem.zeroPage_mem, PGROUNDDOWN_slot hpa (toNat_PTX_lt x),
        if_pos rfl]
    · simp only [pteOf]
      rw [hdir x hd]
      split
      next hx => exact hword _ (h.owned x hx) _ (toNat_PTX_lt x)
      next => rfl

/-- `walkpgdir` with allocation either finds no page for a missing table, or
returns the address of the entry for `va` without changing any translation. -/
theorem walkpgdir_cases (h : AddressSpace s pgdir tables free) (va : Word) :
    (free = [] ∧ walkpgdir pgdir va true s = (0, s)) ∨
      ∃ s' tables' free',
        walkpgdir pgdir va true s =
          (slot (tableOf s' pgdir va) (PTX va), s') ∧
        slot (tableOf s' pgdir va) (PTX va) ≠ 0 ∧
        AddressSpace s' pgdir tables' free' ∧
        Present (s'.mem (slot pgdir (PDX va))) ∧
        ∀ x, pteOf s' pgdir x = pteOf s pgdir x := by
  by_cases hva : Present (s.mem (slot pgdir (PDX va)))
  · right
    have htab := h.owned va hva
    refine ⟨s, tables, free, ?_, ?_, h, hva, fun _ => rfl⟩
    · simp only [walkpgdir, if_pos hva]
      rfl
    · exact slot_ne_zero (h.table_aligned htab) (h.nonzero _ htab)
        (toNat_PTX_lt va)
  · cases free with
    | nil =>
        left
        refine ⟨rfl, ?_⟩
        simp only [walkpgdir, if_neg hva, kalloc_nil h.chain]
        rfl
    | cons p free =>
        right
        obtain ⟨hspace, hpresent, htable, hsame⟩ := h.add_table hva
        have hpz : p ≠ 0 := h.chain.ne_zero p List.mem_cons_self
        refine ⟨_, p :: tables, free, ?_, ?_, hspace, hpresent, hsame⟩
        · simp only [htable]
          simp only [walkpgdir, if_neg hva, kalloc_cons h.chain, if_neg hpz]
          rfl
        · rw [htable]
          exact slot_ne_zero (h.free_aligned List.mem_cons_self) hpz
            (toNat_PTX_lt va)

end AddressSpace

/-! ## The loop of `mappages` -/

/-- Going one page further brings every other page one page nearer. -/
theorem sub_add_PGSIZE {a y : Word} (ha : PageAligned a) (hy : PageAligned y)
    (hne : y ≠ a) : (y - (a + PGSIZE)).toNat + 4096 = (y - a).toNat := by
  unfold PageAligned at ha hy
  have hnat : y.toNat ≠ a.toNat := fun h => hne (BitVec.eq_of_toNat_eq h)
  have hsize : PGSIZE.toNat = 4096 := rfl
  have hylt := y.isLt
  have halt := a.isLt
  rw [BitVec.toNat_sub, BitVec.toNat_sub, BitVec.toNat_add, hsize]
  omega

/-- As many iterations as pages lie ahead end the loop. -/
theorem mappagesLoop_ne_running {pgdir last perm : Word} (hlast : PageAligned last)
    {fuel : ℕ} {a pa : Word} {s : Kmem} (ha : PageAligned a)
    (hfuel : (last - a).toNat / 4096 < fuel) :
    mappagesLoop pgdir last perm fuel a pa s ≠ .running := by
  induction fuel generalizing a pa s with
  | zero => omega
  | succ fuel ih =>
      simp only [mappagesLoop]
      split
      · exact fun h => by cases h
      · split
        · exact fun h => by cases h
        · split
          · exact fun h => by cases h
          next hne =>
            apply ih (pageAligned_add_PGSIZE ha)
            have hstep := sub_add_PGSIZE ha hlast (Ne.symm hne)
            omega

/-- Every call of `mappages` comes to an end. -/
theorem mappages_ne_running (pgdir va size pa perm : Word) (s : Kmem) :
    mappages pgdir va size pa perm s ≠ .running := by
  apply mappagesLoop_ne_running (pageAligned_PGROUNDDOWN _)
    (pageAligned_PGROUNDDOWN _)
  have hlt := (PGROUNDDOWN (pa + size - 1) - PGROUNDDOWN va).isLt
  unfold addressSpacePages
  omega

/-- The loop has one panic. -/
theorem mappagesLoop_panic {pgdir last perm : Word} {fuel : ℕ} {a pa : Word}
    {s : Kmem} {message : String}
    (h : mappagesLoop pgdir last perm fuel a pa s = .panic message) :
    message = "remap" := by
  induction fuel generalizing a pa s with
  | zero => cases h
  | succ fuel ih =>
      simp only [mappagesLoop] at h
      split at h
      · cases h
      · split at h
        · cases h
          rfl
        · split at h
          · cases h
          · exact ih h

/-- What the loop has done when it returns: it failed, or it mapped exactly the
pages from `a` up to `last`, counted upwards with wraparound. -/
theorem mappagesLoop_ret {pgdir last perm : Word} (hlast : PageAligned last)
    {fuel : ℕ} {a pa : Word} {s s' : Kmem} {tables free : List Word} {r : Int}
    (ha : PageAligned a) (h : AddressSpace s pgdir tables free)
    (hret : mappagesLoop pgdir last perm fuel a pa s = .ret r s') :
    r = -1 ∨ (r = 0 ∧ ∃ tables' free', AddressSpace s' pgdir tables' free' ∧
      ∀ x, pteOf s' pgdir x =
        if (PGROUNDDOWN x - a).toNat ≤ (last - a).toNat then
          (pa + (PGROUNDDOWN x - a)) ||| perm ||| PTE_P
        else pteOf s pgdir x) := by
  induction fuel generalizing a pa s tables free with
  | zero =>
      simp only [mappagesLoop] at hret
      cases hret
  | succ fuel ih =>
      rcases h.walkpgdir_cases a with
        ⟨-, hwalk⟩ | ⟨s₁, tables₁, free₁, hwalk, hq, h₁, hpresent, hsame⟩
      · left
        simp only [mappagesLoop, hwalk, if_true] at hret
        cases hret
        rfl
      · simp only [mappagesLoop, hwalk, if_neg hq] at hret
        split at hret
        · cases hret
        · obtain ⟨h₂, -, hstore⟩ :=
            h₁.store_pte (pa ||| perm ||| PTE_P) hpresent
          rw [PGROUNDDOWN_of_aligned ha] at hstore
          split at hret
          next heq =>
            -- The page just mapped is the last one.
            right
            cases hret
            refine ⟨rfl, tables₁, free₁, h₂, ?_⟩
            intro x
            rw [hstore x, hsame x, ← heq]
            by_cases hx : PGROUNDDOWN x = a
            · simp [hx]
            · have hpos : ¬ (PGROUNDDOWN x - a).toNat ≤ (a - a).toNat := by
                have hnat : (PGROUNDDOWN x).toNat ≠ a.toNat := fun h =>
                  hx (BitVec.eq_of_toNat_eq h)
                have hxlt := (PGROUNDDOWN x).isLt
                have halt := a.isLt
                rw [BitVec.toNat_sub, BitVec.toNat_sub]
                omega
              rw [if_neg hx, if_neg hpos]
          next hne =>
            rcases ih (pageAligned_add_PGSIZE ha) h₂ hret with
              hfail | ⟨hr, tables', free', h', hall⟩
            · exact Or.inl hfail
            · right
              refine ⟨hr, tables', free', h', ?_⟩
              intro x
              have hnear := sub_add_PGSIZE ha hlast (Ne.symm hne)
              rw [hall x, hstore x, hsame x]
              by_cases hx : PGROUNDDOWN x = a
              · simp [hx]
              · have hxnear := sub_add_PGSIZE ha (pageAligned_PGROUNDDOWN x) hx
                have hiff : (PGROUNDDOWN x - (a + PGSIZE)).toNat ≤
                    (last - (a + PGSIZE)).toNat ↔
                    (PGROUNDDOWN x - a).toNat ≤ (last - a).toNat := by
                  omega
                have hentry : pa + PGSIZE + (PGROUNDDOWN x - (a + PGSIZE)) =
                    pa + (PGROUNDDOWN x - a) := by
                  bv_omega
                rw [if_neg hx, hentry]
                simp only [hiff]

end ZtlOs.Memory
