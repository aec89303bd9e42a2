import ZtlOs.Cache.Bcache

/-!
# The store that the cache stands for

Buffers and disk together hold one array of blocks: the contents last put
into each block.  The array is kept beside the state, and every step of the
cache is shown to respect it, whatever is evicted and recycled in between.
-/

namespace ZtlOs.Cache

open ZtlOs.Support ZtlOs.Fs

/-- The contents last put into each block, and the buffers that were changed
and neither pinned nor written since. -/
structure Shadow (D : Type*) where
  store : BlockId → D
  touched : Fin NBUF → Bool

def Shadow.record {P D : Type*} (g : Shadow D) (s : State P D) :
    Act P D → Shadow D
  | .modify _ i data =>
      { store := Function.update g.store (s.buf i).id data
        touched := Function.update g.touched i true }
  | .pin _ i | .bwrite _ i =>
      { g with touched := Function.update g.touched i false }
  | _ => g

/-- The cache and the disk hold the contents of the store between them. -/
structure Coherent {P D : Type*} (s : State P D) (g : Shadow D) : Prop where
  data_eq : ∀ i, (s.buf i).valid = true →
    (s.buf i).data = g.store (s.buf i).id
  disk_eq : ∀ id : BlockId, id.dev < 2 → s.disk id.sector = g.store id ∨
    ∃ i, (s.buf i).id = id ∧ (s.buf i).valid = true ∧
      ((s.buf i).dirty = true ∨ g.touched i = true)
  lock_of_touched : ∀ i, g.touched i = true →
    (s.buf i).lock ≠ none ∧ (s.buf i).valid = true

section Coherence

variable {P D : Type*} {s t : State P D} {g : Shadow D}

theorem BlockId.sector_inj {id id' : BlockId} (h : id.dev < 2)
    (h' : id'.dev < 2) (hs : id.sector = id'.sector) : id = id' := by
  cases id
  cases id'
  simp only [sector, Prod.mk.injEq] at h h' hs
  simp only [BlockId.mk.injEq]
  omega

theorem binit_coherent (zero : D) (disk : ℕ × ℕ → D) :
    Coherent (binit zero disk : State P D)
      ⟨fun id => disk id.sector, fun _ => false⟩ where
  data_eq i h := by simp [binit] at h
  disk_eq id _ := .inl rfl
  lock_of_touched i h := by simp at h

/-- A step that changes no contents and no flags, other than to forget the
contents of clean buffers, keeps the store. -/
theorem Coherent.of_forget (h : Coherent s g) (hdisk : t.disk = s.disk)
    (hbuf : ∀ i, (t.buf i).valid = true → (s.buf i).valid = true ∧
      (t.buf i).data = (s.buf i).data ∧ (t.buf i).id = (s.buf i).id)
    (hkeep : ∀ i, (s.buf i).valid = true →
      ((s.buf i).dirty = true ∨ g.touched i = true) →
      (t.buf i).id = (s.buf i).id ∧ (t.buf i).valid = true ∧
        ((t.buf i).dirty = true ∨ g.touched i = true))
    (hlock : ∀ i, g.touched i = true → (s.buf i).lock ≠ none →
      (t.buf i).lock ≠ none) : Coherent t g where
  data_eq i hi := by
    obtain ⟨hvalid, hdata, hid⟩ := hbuf i hi
    rw [hdata, hid]
    exact h.data_eq i hvalid
  disk_eq id hid := by
    rw [hdisk]
    refine (h.disk_eq id hid).imp_right ?_
    rintro ⟨i, rfl, hvalid, hi⟩
    exact ⟨i, hkeep i hvalid hi⟩
  lock_of_touched i hi := by
    obtain ⟨hl, hvalid⟩ := h.lock_of_touched i hi
    exact ⟨hlock i hi hl, (hkeep i hvalid (.inr hi)).2.1⟩

/-- A step that changes the references and the lock of one buffer only. -/
theorem Coherent.of_same (h : Coherent s g) {i : Fin NBUF} {b : Buf P D}
    (hbuf : t.buf = Function.update s.buf i b) (hdisk : t.disk = s.disk)
    (hid : b.id = (s.buf i).id) (hvalid : b.valid = (s.buf i).valid)
    (hdirty : b.dirty = (s.buf i).dirty) (hdata : b.data = (s.buf i).data)
    (hlock : g.touched i = true → (s.buf i).lock ≠ none → b.lock ≠ none) :
    Coherent t g := by
  have hsame : ∀ j, (t.buf j).id = (s.buf j).id ∧
      (t.buf j).valid = (s.buf j).valid ∧
      (t.buf j).dirty = (s.buf j).dirty ∧ (t.buf j).data = (s.buf j).data := by
    intro j
    rw [hbuf]
    by_cases hji : j = i
    · subst hji
      rw [Function.update_self]
      exact ⟨hid, hvalid, hdirty, hdata⟩
    · rw [Function.update_of_ne hji]
      exact ⟨rfl, rfl, rfl, rfl⟩
  refine h.of_forget hdisk ?_ ?_ ?_
  · intro j hj
    obtain ⟨hid, hvalid, -, hdata⟩ := hsame j
    exact ⟨hvalid ▸ hj, hdata, hid⟩
  · intro j hj hd
    obtain ⟨hid, hvalid, hdirty, -⟩ := hsame j
    rw [hid, hvalid, hdirty]
    exact ⟨rfl, hj, hd⟩
  · intro j hj hl
    by_cases hji : j = i
    · subst hji
      rw [hbuf, Function.update_self]
      exact hlock hj hl
    · rwa [hbuf, Function.update_of_ne hji]

variable [Fintype P] [DecidableEq P]

theorem Coherent.bread (h : Coherent s g) (hs : Inv s) {p : P}
    {id : BlockId} (ht : step s (.bread p id) = .next t) : Coherent t g := by
  simp only [step] at ht
  split_ifs at ht
  unfold State.bget at ht
  split at ht
  · next i _ =>
      cases ht
      refine h.of_same (i := i) (b := _) rfl rfl rfl rfl rfl rfl ?_
      exact fun _ hl => hl
  · split at ht
    · next i hi =>
        cases ht
        obtain ⟨href, hdirty⟩ : (s.buf i).refcnt = 0 ∧
            (s.buf i).dirty = false := by
          simpa using List.find?_some hi
        have hfree : g.touched i = false := by
          by_contra htouched
          obtain ⟨p, hp⟩ := Option.ne_none_iff_exists'.mp
            (h.lock_of_touched i (by simpa using htouched)).1
          have hcount := hs.refcnt_eq i
          simp only [href, Buf.lockCount, hp, Option.isSome_some,
            if_true] at hcount
          omega
        refine h.of_forget rfl ?_ ?_ ?_
        · intro j hj
          by_cases hji : j = i
          · subst hji
            simp [State.setCall, State.setBuf] at hj
          · simpa [State.setCall, State.setBuf, hji] using hj
        · intro j hj hd
          have hji : j ≠ i := by
            rintro rfl
            simp [hdirty, hfree] at hd
          simpa [State.setCall, State.setBuf, hji, hj] using hd
        · intro j hj hl
          have hji : j ≠ i := by
            rintro rfl
            simp [hfree] at hj
          simpa only [State.setCall, State.setBuf,
            Function.update_of_ne hji] using hl
    · cases ht

theorem Coherent.load (h : Coherent s g) (hs : Inv s) {p : P}
    (ht : step s (.load p) = .next t) : Coherent t g := by
  simp only [step] at ht
  split at ht
  · next i hp =>
      have hused := hs.used_of_lock (hs.lock_of_loading p i hp)
      split_ifs at ht with hvalid
      · cases ht
        exact h.of_same (i := i) (b := s.buf i)
          (Function.update_eq_self ..).symm rfl rfl rfl rfl rfl
          (fun _ hl => hl)
      · obtain ⟨u, hu, rfl⟩ := Outcome.map_eq_next ht
        obtain ⟨-, ⟨hdirty, -⟩ | ⟨-, -, rfl⟩⟩ := iderw_eq_next hu
        · exact absurd (hs.valid_of_dirty i hdirty) hvalid
        · have hne : ∀ j, (s.buf j).valid = true → j ≠ i := by
            rintro j hj rfl
            exact hvalid hj
          refine ⟨?_, ?_, ?_⟩
          · intro j hj
            by_cases hji : j = i
            · subst hji
              simp only [State.setCall, State.setBuf, Function.update_self]
              rcases h.disk_eq _ (hs.dev_lt j) with hd | ⟨k, hid, hk, -⟩
              · exact hd
              · -- Another buffer of this name would be used as well.
                exact absurd (hs.eq_of_id_eq (.inr hk) hused hid) (hne k hk)
            · simp only [State.setCall, State.setBuf,
                Function.update_of_ne hji] at hj ⊢
              exact h.data_eq j hj
          · intro id hid
            refine (h.disk_eq id hid).imp_right ?_
            rintro ⟨j, hj, hjv, hd⟩
            refine ⟨j, ?_⟩
            simp only [State.setCall, State.setBuf,
              Function.update_of_ne (hne j hjv)]
            exact ⟨hj, hjv, hd⟩
          · intro j hj
            have hjl := h.lock_of_touched j hj
            simpa only [State.setCall, State.setBuf,
              Function.update_of_ne (hne j hjl.2)] using hjl
  · cases ht

theorem Coherent.modify (h : Coherent s g) (hs : Inv s) {p : P}
    {i : Fin NBUF} {data : D} (ht : step s (.modify p i data) = .next t) :
    Coherent t (g.record s (.modify p i data)) := by
  simp only [step] at ht
  split_ifs at ht with hp
  cases ht
  have hvalid := hs.valid_of_holds hp
  refine ⟨?_, ?_, ?_⟩
  · intro j hj
    by_cases hji : j = i
    · subst hji
      simp [State.setBuf, Shadow.record]
    · simp only [State.setBuf, Shadow.record,
        Function.update_of_ne hji] at hj ⊢
      have hid : (s.buf j).id ≠ (s.buf i).id := fun e =>
        hji (hs.eq_of_id_eq (.inr hj) (.inr hvalid) e)
      rw [Function.update_of_ne hid]
      exact h.data_eq j hj
  · intro id hid
    simp only [Shadow.record, State.setBuf]
    by_cases hidi : id = (s.buf i).id
    · exact .inr ⟨i, by simp [hidi, hvalid]⟩
    · rw [Function.update_of_ne hidi]
      refine (h.disk_eq id hid).imp_right ?_
      rintro ⟨j, rfl, hjv, hd⟩
      have hji : j ≠ i := fun e => hidi (e ▸ rfl)
      exact ⟨j, by simpa [hji, hjv] using hd⟩
  · intro j hj
    simp only [State.setBuf]
    by_cases hji : j = i
    · subst hji
      simp [hp.2, hvalid]
    · simp only [Shadow.record, Function.update_of_ne hji] at hj ⊢
      exact h.lock_of_touched j hj

theorem Coherent.pin (h : Coherent s g) (hs : Inv s) {p : P}
    {i : Fin NBUF} (ht : step s (.pin p i) = .next t) :
    Coherent t (g.record s (.pin p i)) := by
  simp only [step] at ht
  split_ifs at ht with hp
  cases ht
  have hvalid := hs.valid_of_holds hp
  refine ⟨?_, ?_, ?_⟩
  · intro j hj
    by_cases hji : j = i
    · subst hji
      simpa [State.setBuf, Shadow.record] using h.data_eq j hvalid
    · simp only [State.setBuf, Shadow.record,
        Function.update_of_ne hji] at hj ⊢
      exact h.data_eq j hj
  · intro id hid
    simp only [Shadow.record, State.setBuf]
    refine (h.disk_eq id hid).imp_right ?_
    rintro ⟨j, rfl, hjv, hd⟩
    refine ⟨j, ?_⟩
    by_cases hji : j = i
    · subst hji
      simp [hvalid]
    · simpa [hji, hjv] using hd
  · intro j hj
    by_cases hji : j = i
    · subst hji
      simp [Shadow.record] at hj
    · simp only [State.setBuf, Shadow.record,
        Function.update_of_ne hji] at hj ⊢
      exact h.lock_of_touched j hj

theorem Coherent.bwrite (h : Coherent s g) (hs : Inv s) {p : P}
    {i : Fin NBUF} (ht : step s (.bwrite p i) = .next t) :
    Coherent t (g.record s (.bwrite p i)) := by
  simp only [step] at ht
  split_ifs at ht with hp
  have hvalid := hs.valid_of_holds hp
  obtain ⟨hbuf, hdisk, -, -⟩ := bwrite_eq_next ht
  refine ⟨?_, ?_, ?_⟩
  · intro j hj
    rw [hbuf] at hj ⊢
    by_cases hji : j = i
    · subst hji
      simpa [Shadow.record] using h.data_eq j hvalid
    · simp only [Shadow.record, Function.update_of_ne hji] at hj ⊢
      exact h.data_eq j hj
  · intro id hid
    rw [hdisk, hbuf]
    simp only [Shadow.record]
    by_cases hidi : id = (s.buf i).id
    · subst hidi
      rw [Function.update_self]
      exact .inl (h.data_eq i hvalid)
    · have hsector : id.sector ≠ (s.buf i).id.sector := fun e =>
        hidi (BlockId.sector_inj hid (hs.dev_lt i) e)
      rw [Function.update_of_ne hsector]
      refine (h.disk_eq id hid).imp_right ?_
      rintro ⟨j, rfl, hjv, hd⟩
      have hji : j ≠ i := fun e => hidi (e ▸ rfl)
      exact ⟨j, by simpa [hji, hjv] using hd⟩
  · intro j hj
    rw [hbuf]
    by_cases hji : j = i
    · subst hji
      simp [Shadow.record] at hj
    · simp only [Shadow.record, Function.update_of_ne hji] at hj ⊢
      exact h.lock_of_touched j hj

/-- Every step keeps the cache coherent, if no buffer is released between its
change and its `log_write` or `bwrite`. -/
theorem Coherent.step (h : Coherent s g) (hs : Inv s) {a : Act P D}
    (hclean : ∀ p i, a = .brelse p i → g.touched i = false)
    (ht : step s a = .next t) : Coherent t (g.record s a) := by
  cases a with
  | bread p id => exact h.bread hs ht
  | acquiresleep p =>
      simp only [Cache.step] at ht
      split at ht
      · split_ifs at ht
        cases ht
        exact h.of_same rfl rfl rfl rfl rfl rfl (by simp)
      · cases ht
  | load p => exact h.load hs ht
  | modify p i data => exact h.modify hs ht
  | pin p i => exact h.pin hs ht
  | bwrite p i => exact h.bwrite hs ht
  | brelse p i =>
      simp only [Cache.step] at ht
      split_ifs at ht
      cases ht
      exact h.of_same rfl rfl rfl rfl rfl rfl
        (by simp [hclean p i rfl])
  | release p =>
      simp only [Cache.step] at ht
      split at ht
      · next i _ =>
          cases ht
          exact h.of_same rfl rfl rfl rfl rfl rfl (fun _ hl => hl)
      · cases ht

omit [Fintype P] [DecidableEq P] in
/-- A buffer is changed by a process that holds it. -/
theorem touched_of_record {a : Act P D} {j : Fin NBUF}
    (hj : (g.record s a).touched j = true) :
    g.touched j = true ∨ ∃ data, a = .modify a.actor j data := by
  cases a with
  | modify p i data =>
      by_cases hji : j = i
      · exact .inr ⟨data, by rw [hji]; rfl⟩
      · left
        simpa [Shadow.record, hji] using hj
  | pin p i =>
      by_cases hji : j = i
      · simp [Shadow.record, hji] at hj
      · left
        simpa [Shadow.record, hji] using hj
  | bwrite p i =>
      by_cases hji : j = i
      · simp [Shadow.record, hji] at hj
      · left
        simpa [Shadow.record, hji] using hj
  | _ => exact .inl hj

end Coherence

end ZtlOs.Cache
