import ZtlOs.Cache.Linked

/-!
# What the buffer list looks like in every run

The names, reference counts and order of the buffers, for any processes and
any block numbers, from `binit` on.  A reference is held by a process from
`bget` to the end of `brelse`: it waits for the lock, holds it, or has given it
up and is still in `brelse`.
-/

namespace ZtlOs.Cache

open ZtlOs.Support ZtlOs.Fs

/-! ## Names and reference counts -/

/-- The part of `Inv` that does not speak of the disks. -/
structure Shape {P D : Type*} [Fintype P] (s : State P D) : Prop where
  refcnt_eq : ∀ i, (s.buf i).refcnt =
    (waiters s.call i).card + (s.buf i).lockCount
  lock_of_loading : ∀ p i, s.call p = .loading i → (s.buf i).lock = some p
  nodup_lru : s.lru.Nodup
  mem_lru : ∀ i, i ∈ s.lru
  cached_eq : ∀ i, (s.buf i).used → s.cached (s.buf i).id = some i

section Shape

variable {P D : Type*} [Fintype P] {s t : State P D}

theorem binit_shape (zero : D) (disk : ℕ × ℕ → D) :
    Shape (Cache.binit zero disk : State P D) :=
  have h := binit_inv (P := P) zero disk
  ⟨h.refcnt_eq, h.lock_of_loading, h.nodup_lru, h.mem_lru, h.cached_eq⟩

theorem Shape.used_of_refcnt {i : Fin NBUF} (h : (s.buf i).refcnt ≠ 0) :
    (s.buf i).used :=
  .inl h

theorem Shape.refcnt_of_lock (h : Shape s) {i : Fin NBUF} {p : P}
    (hl : (s.buf i).lock = some p) : (s.buf i).refcnt ≠ 0 := by
  rw [h.refcnt_eq i]
  simp [Buf.lockCount, hl]

theorem Shape.refcnt_of_waits (h : Shape s) {i : Fin NBUF} {p : P}
    (hw : (s.call p).waits i = true) : (s.buf i).refcnt ≠ 0 := by
  have hpos := Finset.card_pos.mpr ⟨p, mem_waiters.mpr hw⟩
  rw [h.refcnt_eq i]
  omega

/-- No two used buffers have the same name. -/
theorem Shape.eq_of_id_eq (h : Shape s) {i j : Fin NBUF} (hi : (s.buf i).used)
    (hj : (s.buf j).used) (hid : (s.buf i).id = (s.buf j).id) : i = j := by
  have hci := h.cached_eq i hi
  rw [hid, h.cached_eq j hj] at hci
  exact (Option.some.inj hci).symm

variable [DecidableEq P]

/-- One buffer and the call of one process change, with what the change has to
respect. -/
structure Touches (s t : State P D) (p : P) (i : Fin NBUF) (b : Buf P D)
    (c : Call) : Prop where
  buf : t.buf = Function.update s.buf i b
  call : t.call = Function.update s.call p c
  count : b.refcnt + ((s.call p).waits i).toNat + (s.buf i).lockCount =
    (s.buf i).refcnt + (c.waits i).toNat + b.lockCount
  other : ∀ j, j ≠ i → (s.call p).waits j = false ∧ c.waits j = false ∧
    c ≠ .loading j
  loading : c = .loading i → b.lock = some p
  lock : ∀ q, q ≠ p → (s.buf i).lock = some q → s.call q = .loading i →
    b.lock = some q

variable {p : P} {i : Fin NBUF} {b : Buf P D} {c : Call}

omit [Fintype P] in
theorem Touches.buf_self (h : Touches s t p i b c) : t.buf i = b := by
  rw [h.buf, Function.update_self]

omit [Fintype P] in
theorem Touches.buf_of_ne (h : Touches s t p i b c) {j : Fin NBUF}
    (hj : j ≠ i) : t.buf j = s.buf j := by
  rw [h.buf, Function.update_of_ne hj]

/-- Such a change keeps the reference counts. -/
theorem Shape.of_touches (h : Shape s) (ht : Touches s t p i b c)
    (hnodup : t.lru.Nodup) (hmem : ∀ j, j ∈ t.lru)
    (hcached : ∀ j, (t.buf j).used → t.cached (t.buf j).id = some j) :
    Shape t where
  refcnt_eq j := by
    have hcard := card_waiters_update s.call p c j
    have hj := h.refcnt_eq j
    rw [← ht.call] at hcard
    by_cases hji : j = i
    · subst hji
      have hcount := ht.count
      rw [ht.buf_self]
      omega
    · obtain ⟨hw, hw', -⟩ := ht.other j hji
      rw [hw, hw'] at hcard
      rw [ht.buf_of_ne hji, hj]
      omega
  lock_of_loading q j hq := by
    rw [ht.call] at hq
    by_cases hqp : q = p
    · subst hqp
      rw [Function.update_self] at hq
      by_cases hji : j = i
      · subst hji
        rw [ht.buf_self]
        exact ht.loading hq
      · exact absurd hq (ht.other j hji).2.2
    · rw [Function.update_of_ne hqp] at hq
      have hl := h.lock_of_loading q j hq
      by_cases hji : j = i
      · subst hji
        rw [ht.buf_self]
        exact ht.lock q hqp hl hq
      · rwa [ht.buf_of_ne hji]
  nodup_lru := hnodup
  mem_lru := hmem
  cached_eq := hcached

/-- If moreover the list and the names stay, the buffer has only to be the one
that is found under its name. -/
theorem Shape.of_touches_same (h : Shape s) (ht : Touches s t p i b c)
    (hlru : t.lru = s.lru) (hid : b.id = (s.buf i).id)
    (hfound : s.cached (s.buf i).id = some i) : Shape t := by
  have hids : ∀ j, (t.buf j).id = (s.buf j).id := by
    intro j
    by_cases hji : j = i
    · rw [hji, ht.buf_self, hid]
    · rw [ht.buf_of_ne hji]
  refine h.of_touches ht (hlru ▸ h.nodup_lru) (hlru ▸ h.mem_lru) ?_
  intro j hj
  rw [cached_congr hlru hids, hids]
  by_cases hji : j = i
  · rw [hji]
    exact hfound
  · rw [ht.buf_of_ne hji] at hj
    exact h.cached_eq j hj

theorem Shape.bread (h : Shape s) {id : BlockId}
    (ht : Cache.step s (.bread p id) = .next t) : Shape t := by
  simp only [Cache.step] at ht
  split_ifs at ht with hp
  unfold State.bget at ht
  split at ht
  next i hi =>
    cases ht
    have hfound : s.cached (s.buf i).id = some i := by
      rw [id_of_cached hi]
      exact hi
    refine h.of_touches_same (p := p) (i := i) (c := .locking i)
      ⟨rfl, rfl, ?_, ?_, by simp, fun _ _ hl _ => hl⟩ rfl rfl hfound
    · simp [hp, Call.waits, Buf.lockCount]
    · intro j hj
      simp [hp, Call.waits, Ne.symm hj]
  next hmiss =>
    split at ht
    next i hi =>
      cases ht
      obtain ⟨href, -⟩ : (s.buf i).refcnt = 0 ∧ (s.buf i).dirty = false := by
        simpa using List.find?_some hi
      have hlock : (s.buf i).lock = none := by
        by_contra hl
        obtain ⟨q, hq⟩ := Option.ne_none_iff_exists'.mp hl
        exact h.refcnt_of_lock hq href
      have hmiss' : ∀ j, (s.buf j).id ≠ id := by
        intro j
        simpa using List.find?_eq_none.mp hmiss j (h.mem_lru j)
      refine h.of_touches (p := p) (i := i) (c := .locking i)
        ⟨rfl, rfl, ?_, ?_, by simp, fun _ _ hl _ => hl⟩ h.nodup_lru h.mem_lru
        ?_
      · simp [hp, Call.waits, Buf.lockCount, href]
      · intro j hj
        simp [hp, Call.waits, Ne.symm hj]
      · intro j hj
        by_cases hji : j = i
        · -- No other buffer had the new name.
          subst hji
          refine find?_of_unique (h.mem_lru j) (by simp) ?_
          intro x _ hx
          by_contra hxj
          exact hmiss' x (by simpa [State.setCall, State.setBuf, hxj] using hx)
        · have hj' : (s.buf j).used := by
            simpa [State.setCall, State.setBuf, hji] using hj
          refine find?_of_imp (h.cached_eq j hj') ?_ (by simp)
          intro x _ hx
          by_cases hxi : x = i
          · subst hxi
            simp only [State.setCall, State.setBuf, decide_eq_true_eq,
              Function.update_self, Function.update_of_ne hji] at hx
            exact absurd hx.symm (hmiss' j)
          · simpa [State.setCall, State.setBuf, hxi, hji] using hx
    · cases ht

theorem Shape.acquiresleep (h : Shape s)
    (ht : Cache.step s (.acquiresleep p) = .next t) : Shape t := by
  simp only [Cache.step] at ht
  split at ht
  next i hp =>
    split_ifs at ht with hl
    cases ht
    have href : (s.buf i).refcnt ≠ 0 :=
      h.refcnt_of_waits (p := p) (by simp [hp, Call.waits])
    refine h.of_touches_same (p := p) (i := i) (c := .loading i)
      ⟨rfl, rfl, ?_, ?_, fun _ => rfl, ?_⟩ rfl rfl (h.cached_eq i (.inl href))
    · simp [hp, Call.waits, Buf.lockCount, hl]
    · intro j hj
      simp [hp, Call.waits, Ne.symm hj]
    · intro q _ hq
      rw [hl] at hq
      cases hq
  · cases ht

/-- A process that changes the flags or the data of a buffer it has locked. -/
theorem Shape.of_locked (h : Shape s) (hl : (s.buf i).lock = some p)
    (hbuf : t.buf = Function.update s.buf i b)
    (hcall : t.call = Function.update s.call p .idle) (hlru : t.lru = s.lru)
    (hid : b.id = (s.buf i).id) (href : b.refcnt = (s.buf i).refcnt)
    (hlock : b.lock = (s.buf i).lock)
    (hwaits : ∀ j, (s.call p).waits j = false) : Shape t := by
  refine h.of_touches_same (p := p) (i := i) (b := b) (c := .idle)
    ⟨hbuf, hcall, ?_, ?_, by simp, ?_⟩ hlru hid
    (h.cached_eq i (.inl (h.refcnt_of_lock hl)))
  · rw [hwaits i]
    simp [Call.waits, Buf.lockCount, href, hlock]
  · intro j _
    rw [hwaits j]
    simp [Call.waits]
  · intro q _ hq _
    rw [hlock]
    exact hq

theorem Shape.load (h : Shape s) (ht : Cache.step s (.load p) = .next t) :
    Shape t := by
  simp only [Cache.step] at ht
  split at ht
  next i hp =>
    have hl := h.lock_of_loading p i hp
    have hwaits : ∀ j, (s.call p).waits j = false := by
      intro j
      simp [hp, Call.waits]
    split_ifs at ht
    · cases ht
      exact h.of_locked (b := s.buf i) hl (Function.update_eq_self ..).symm rfl
        rfl rfl rfl rfl hwaits
    · obtain ⟨u, hu, rfl⟩ := Outcome.map_eq_next ht
      obtain ⟨-, ⟨-, rfl⟩ | ⟨-, -, rfl⟩⟩ := iderw_eq_next hu
      · exact h.of_locked hl rfl rfl rfl rfl rfl rfl hwaits
      · exact h.of_locked hl rfl rfl rfl rfl rfl rfl hwaits
  · cases ht

theorem Shape.of_holds (h : Shape s) (hp : s.holds p i)
    (hbuf : t.buf = Function.update s.buf i b) (hcall : t.call = s.call)
    (hlru : t.lru = s.lru) (hid : b.id = (s.buf i).id)
    (href : b.refcnt = (s.buf i).refcnt) (hlock : b.lock = (s.buf i).lock) :
    Shape t := by
  refine h.of_locked hp.2 hbuf (hcall.trans (call_eq_update hp.1)) hlru hid href
    hlock ?_
  intro j
  simp [hp.1, Call.waits]

theorem Shape.brelse (h : Shape s)
    (ht : Cache.step s (.brelse p i) = .next t) : Shape t := by
  simp only [Cache.step] at ht
  split_ifs at ht with hp
  cases ht
  have href := h.refcnt_of_lock hp.2
  refine h.of_touches_same (p := p) (i := i) (c := .releasing i)
    ⟨rfl, rfl, ?_, ?_, by simp, ?_⟩ rfl rfl (h.cached_eq i (.inl href))
  · simp [hp.1, hp.2, Call.waits, Buf.lockCount]
  · intro j hj
    simp [hp.1, Call.waits, Ne.symm hj]
  · intro q hqp hq
    rw [hp.2] at hq
    exact absurd (Option.some.inj hq).symm hqp

theorem Shape.release (h : Shape s)
    (ht : Cache.step s (.release p) = .next t) : Shape t := by
  simp only [Cache.step] at ht
  split at ht
  next i hp =>
    cases ht
    have hwaits : (s.call p).waits i = true := by simp [hp, Call.waits]
    have href := h.refcnt_of_waits hwaits
    have hused : (s.buf i).used := .inl href
    have hid : ∀ j, (((s.release i).setCall p .idle).buf j).id =
        (s.buf j).id := by
      intro j
      by_cases hji : j = i
      · subst hji
        simp [State.setCall, State.release, State.setBuf]
      · simp [State.setCall, State.release, State.setBuf, hji]
    have hused' : ∀ j, (((s.release i).setCall p .idle).buf j).used →
        (s.buf j).used := by
      intro j hj
      by_cases hji : j = i
      · exact hji ▸ hused
      · simpa [State.setCall, State.release, State.setBuf, hji] using hj
    refine h.of_touches (p := p) (i := i) (c := .idle)
      ⟨rfl, rfl, ?_, ?_, by simp, fun _ _ hl _ => hl⟩ ?_ ?_ ?_
    · rw [hwaits]
      simp only [Call.waits, Buf.lockCount, Bool.toNat_true]
      simp
      omega
    · intro j hj
      simp [hp, Call.waits, Ne.symm hj]
    · simp only [State.setCall, State.release]
      split_ifs
      · exact List.nodup_cons.mpr
          ⟨h.nodup_lru.not_mem_erase, h.nodup_lru.erase i⟩
      · exact h.nodup_lru
    · intro j
      simp only [State.setCall, State.release]
      split_ifs
      · by_cases hji : j = i
        · simp [hji]
        · exact List.mem_cons_of_mem _
            ((List.mem_erase_of_ne hji).mpr (h.mem_lru j))
      · exact h.mem_lru j
    · intro j hj
      have hj := hused' j hj
      have hfound := h.cached_eq j hj
      rw [hid j]
      simp only [State.cached, hid]
      simp only [State.setCall, State.release]
      split_ifs
      · -- The buffer moves to the front, where it hides no other one.
        by_cases hij : (s.buf i).id = (s.buf j).id
        · obtain rfl := h.eq_of_id_eq hused hj hij
          simp
        · rw [List.find?_cons_of_neg (by simpa using hij),
            find?_erase_of_false (by simpa using hij)]
          exact hfound
      · exact hfound
  · cases ht

/-- Every step keeps the shape, whatever block is asked for. -/
theorem Shape.step (h : Shape s) {a : Act P D}
    (ht : Cache.step s a = .next t) : Shape t := by
  cases a with
  | bread p id => exact h.bread ht
  | acquiresleep p => exact h.acquiresleep ht
  | load p => exact h.load ht
  | modify p i data =>
      simp only [Cache.step] at ht
      split_ifs at ht with hp
      cases ht
      exact h.of_holds hp rfl rfl rfl rfl rfl rfl
  | pin p i =>
      simp only [Cache.step] at ht
      split_ifs at ht with hp
      cases ht
      exact h.of_holds hp rfl rfl rfl rfl rfl rfl
  | bwrite p i =>
      simp only [Cache.step] at ht
      split_ifs at ht with hp
      obtain ⟨hbuf, -, hcall, hlru⟩ := bwrite_eq_next ht
      exact h.of_holds hp hbuf hcall hlru rfl rfl rfl
  | brelse p i => exact h.brelse ht
  | release p => exact h.release ht

end Shape

/-! ## The order of the list -/

/-- The cache, and the buffers whose last reference was given up, latest
first. -/
structure Recorded (P D : Type*) where
  cache : Linked P D
  released : List (Fin NBUF)

/-- The last reference to `i` was given up after the one to `j`, or neither has
ever been given up. -/
def MoreRecent (released : List (Fin NBUF)) (i j : Fin NBUF) : Prop :=
  released.idxOf i < released.idxOf j ∨ i ∉ released ∧ j ∉ released

/-- A release that names neither of two buffers does not change which is the
more recent. -/
theorem MoreRecent.cons {released : List (Fin NBUF)} {i j k : Fin NBUF}
    (h : MoreRecent released i j) (hi : i ≠ k) (hj : j ≠ k) :
    MoreRecent (k :: released) i j := by
  rcases h with hlt | ⟨hni, hnj⟩
  · left
    rw [List.idxOf_cons_ne _ hi.symm, List.idxOf_cons_ne _ hj.symm]
    omega
  · right
    simp [hi, hj, hni, hnj]

theorem MoreRecent.self_cons (released : List (Fin NBUF)) {i j : Fin NBUF}
    (hj : j ≠ i) : MoreRecent (i :: released) i j := by
  left
  rw [List.idxOf_cons_self, List.idxOf_cons_ne _ hj.symm]
  omega

/-- The buffer that is released moves to the front. -/
theorem pairwise_moveFront {released lru : List (Fin NBUF)} {i : Fin NBUF}
    (h : lru.Pairwise (MoreRecent released)) (hnodup : lru.Nodup) :
    (i :: lru.erase i).Pairwise (MoreRecent (i :: released)) := by
  have hne : ∀ j ∈ lru.erase i, j ≠ i := by
    rintro j hj rfl
    exact hnodup.not_mem_erase hj
  rw [List.pairwise_cons]
  refine ⟨fun j hj => .self_cons released (hne j hj), ?_⟩
  have hsub : (lru.erase i).Pairwise (MoreRecent released) :=
    h.sublist List.erase_sublist
  exact List.Pairwise.imp_of_mem
    (fun ha hb hab => hab.cons (hne _ ha) (hne _ hb)) hsub

section Run

variable {P D : Type*} [Fintype P] [DecidableEq P]

omit [Fintype P] in
def Recorded.step (r : Recorded P D) (a : Act P D) : Outcome (Recorded P D) :=
  (r.cache.step a).map fun l =>
    ⟨l, (r.cache.finalRelease a).toList ++ r.released⟩

omit [Fintype P] [DecidableEq P] in
def Recorded.binit (zero : D) (disk : ℕ × ℕ → D) (links : Links (Fin NBUF)) :
    Recorded P D where
  cache := Linked.binit zero disk links
  released := []

/-- The buffers are linked as `lru`, which has the shape of a cache and stands
in the order of the last releases. -/
structure Recorded.Inv (r : Recorded P D) (lru : List (Fin NBUF)) : Prop where
  ring : r.cache.links.Ring lru
  shape : Shape (r.cache.withList lru)
  order : lru.Pairwise (MoreRecent r.released)

theorem length_le_NBUF {lru : List (Fin NBUF)} (h : lru.Nodup) :
    lru.length ≤ NBUF := by
  have := h.length_le_card
  rwa [Fintype.card_fin] at this

omit [DecidableEq P] in
theorem Recorded.binit_inv (zero : D) (disk : ℕ × ℕ → D)
    (links : Links (Fin NBUF)) :
    (Recorded.binit zero disk links : Recorded P D).Inv
      (List.finRange NBUF).reverse where
  ring := by
    have hempty : ((links.setPrev none none).setNext none none).Ring [] := by
      simp [Links.Ring, Links.cycle, Links.Joined, Links.setPrev,
        Links.setNext]
    have hnodup : ((List.finRange NBUF).reverse ++ []).Nodup := by
      rw [List.append_nil, List.nodup_reverse]
      exact List.nodup_finRange NBUF
    have hring := hempty.pushFrontAll hnodup
    rw [List.append_nil] at hring
    exact hring
  shape := binit_shape zero disk
  order := by
    apply List.Pairwise.imp_of_mem (R := fun _ _ => True)
    · intro i j _ _ _
      right
      exact ⟨List.not_mem_nil, List.not_mem_nil⟩
    · simp [List.pairwise_iff_forall_sublist]

theorem Recorded.Inv.step {r r' : Recorded P D} {lru : List (Fin NBUF)}
    (h : r.Inv lru) {a : Act P D} (ht : r.step a = .next r') :
    r'.Inv (r.cache.listAfter lru a) := by
  obtain ⟨l, hl, rfl⟩ := Outcome.map_eq_next ht
  have hlen := length_le_NBUF h.shape.nodup_lru
  have habs := Linked.step_withList h.ring hlen a
  rw [hl] at habs
  refine ⟨Linked.step_ring h.ring h.shape.nodup_lru h.shape.mem_lru hl,
    h.shape.step habs, ?_⟩
  simp only [Linked.listAfter]
  cases r.cache.finalRelease a with
  | none => exact h.order
  | some i => exact pairwise_moveFront h.order h.shape.nodup_lru

/-- `bget` recycles the unused buffer that was released before all others. -/
theorem Recorded.Inv.recycles {r r' : Recorded P D} {lru : List (Fin NBUF)}
    (h : r.Inv lru) {p : P} {id : BlockId}
    (ht : r.step (.bread p id) = .next r')
    (hmiss : ∀ j, (r.cache.buf j).id ≠ id) :
    ∃ i, r'.cache.call p = .locking i ∧ (r.cache.buf i).refcnt = 0 ∧
      (r.cache.buf i).dirty = false ∧
      ∀ j, (r.cache.buf j).refcnt = 0 → (r.cache.buf j).dirty = false →
        j = i ∨ MoreRecent r.released j i := by
  obtain ⟨l, hl, rfl⟩ := Outcome.map_eq_next ht
  have hlen := length_le_NBUF h.shape.nodup_lru
  have hcached : (r.cache.withList lru).cached id = none := by
    rw [State.cached, List.find?_eq_none]
    intro j _ hj
    exact hmiss j (of_decide_eq_true hj)
  simp only [Linked.step] at hl
  split_ifs at hl
  unfold Linked.bget at hl
  rw [Linked.findCached_eq h.ring hlen, hcached,
    Linked.findUnused_eq h.ring hlen] at hl
  dsimp only [Links.Walk.ofFind] at hl
  cases hfind : (r.cache.withList lru).unused with
  | none =>
      rw [hfind] at hl
      cases hl
  | some i =>
      rw [hfind] at hl
      cases hl
      rw [State.unused, List.find?_eq_some_iff_append] at hfind
      obtain ⟨hi, back, front, hsplit, hback⟩ := hfind
      have hi : (r.cache.buf i).refcnt = 0 ∧
          (r.cache.buf i).dirty = false := by
        rw [Bool.and_eq_true] at hi
        exact ⟨of_decide_eq_true hi.1, by simpa [Linked.withList] using hi.2⟩
      refine ⟨i, by simp [Linked.setCall], hi.1, hi.2, ?_⟩
      intro j hj hdirty
      have hmem : j ∈ back ++ i :: front := by
        rw [← hsplit, List.mem_reverse]
        exact h.shape.mem_lru j
      rcases List.mem_append.mp hmem with hjb | hjf
      · have := hback j hjb
        simp [Linked.withList, hj, hdirty] at this
      · rcases List.mem_cons.mp hjf with rfl | hjf
        · exact .inl rfl
        · -- What is searched later stands further in front.
          right
          have horder := List.pairwise_reverse.mpr h.order
          have hrev : lru.reverse = back ++ i :: front := hsplit
          rw [hrev] at horder
          have htail := (List.pairwise_append.mp horder).2.1
          exact (List.pairwise_cons.mp htail).1 j hjf

/-- What holds of the buffers in every reachable state. -/
structure Structured (r : Recorded P D) : Prop where
  /-- The pointers close a circular list of all buffers, in the order of their
  last releases. -/
  list : ∃ lru, r.cache.links.Ring lru ∧ lru.Nodup ∧ (∀ i, i ∈ lru) ∧
    lru.Pairwise (MoreRecent r.released)
  unique : ∀ i j, (r.cache.buf i).used → (r.cache.buf j).used →
    (r.cache.buf i).id = (r.cache.buf j).id → i = j
  /-- One reference for the holder of the lock, one for each process that
  waits for it or is on its way out of `brelse`. -/
  references : ∀ i, (r.cache.buf i).refcnt =
    (waiters r.cache.call i).card + (r.cache.buf i).lockCount
  keepsName : ∀ a r', r.step a = .next r' → ∀ i,
    (r.cache.buf i).refcnt ≠ 0 → (r'.cache.buf i).id = (r.cache.buf i).id
  recycles : ∀ p id r', r.step (.bread p id) = .next r' →
    (∀ j, (r.cache.buf j).id ≠ id) →
    ∃ i, r'.cache.call p = .locking i ∧ (r.cache.buf i).refcnt = 0 ∧
      (r.cache.buf i).dirty = false ∧
      ∀ j, (r.cache.buf j).refcnt = 0 → (r.cache.buf j).dirty = false →
        j = i ∨ MoreRecent r.released j i

theorem Recorded.Inv.structured {r : Recorded P D} {lru : List (Fin NBUF)}
    (h : r.Inv lru) : Structured r where
  list := ⟨lru, h.ring, h.shape.nodup_lru, h.shape.mem_lru, h.order⟩
  unique := fun _ _ => h.shape.eq_of_id_eq
  references := h.shape.refcnt_eq
  keepsName := by
    intro a r' ht i hi
    obtain ⟨l, hl, rfl⟩ := Outcome.map_eq_next ht
    have habs := Linked.step_withList h.ring
      (length_le_NBUF h.shape.nodup_lru) a
    rw [hl] at habs
    exact step_id habs hi
  recycles := fun _ _ _ ht hmiss => h.recycles ht hmiss

/-- The buffer cache is structured in every state that is reached from
`binit`. -/
theorem buffers_structured (zero : D) (disk : ℕ × ℕ → D)
    (links : Links (Fin NBUF)) (w : List (Act P D)) (r : Recorded P D)
    (hrun : Run Recorded.step (Recorded.binit zero disk links) w r) :
    Structured r := by
  obtain ⟨lru, h⟩ := hrun.invariant (I := fun r => ∃ lru, r.Inv lru)
    (fun _ a _ ⟨lru, h⟩ ht => ⟨_, h.step ht⟩)
    ⟨_, Recorded.binit_inv zero disk links⟩
  exact h.structured

/-- A process that reads block 0 of device 0, the name that all buffers have at
first. -/
theorem buffers_structured_firstRead :
    ∃ r : Recorded (Fin 2) ℕ, Run Recorded.step
        (Recorded.binit 0 (fun _ => 0) ⟨fun _ => none, fun _ => none⟩)
        [.bread 0 ⟨0, 0⟩, .bread 1 ⟨1, 7⟩] r ∧ Structured r := by
  obtain ⟨r, hrun, -⟩ := Run.exists_of_exec Recorded.step
    (Recorded.binit (P := Fin 2) (D := ℕ) 0 (fun _ => 0)
      ⟨fun _ => none, fun _ => none⟩)
    [.bread 0 ⟨0, 0⟩, .bread 1 ⟨1, 7⟩] (fun _ => true) (by decide +kernel)
  exact ⟨r, hrun, buffers_structured _ _ _ _ r hrun⟩

end Run

end ZtlOs.Cache
