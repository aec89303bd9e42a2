import ZtlOs.Log.Protocol
import Mathlib.Algebra.BigOperators.Group.Finset.Basic
import Mathlib.Algebra.Order.BigOperators.Group.Finset
import Mathlib.Data.Finset.Union

/-!
# Admission to the log

`begin_op` admits an operation while `LOGSIZE` slots would hold ten blocks of
every operation admitted.  The log area of that size holds one block less,
since its first block is the header, and `log_write` makes its size test
before it looks for a block to absorb.  This module counts the distinct
blocks of the current transaction and compares the two.
-/

namespace ZtlOs.Logging

open ZtlOs.Support ZtlOs.Fs

variable {P : Type*}

/-- A state of the log with the blocks that the operations of the current
transaction have recorded: those still going on, each for itself, and those
that have ended. -/
structure Traced (P : Type*) where
  state : State P
  recorded : P → Finset ℕ
  ended : Finset ℕ

/-- The distinct blocks that the current transaction has recorded. -/
def Traced.logged [Fintype P] (s : Traced P) : Finset ℕ :=
  s.ended ∪ Finset.univ.biUnion s.recorded

section Step

variable [DecidableEq P]

/-- What the step `a` from `s` to `t` adds to the records. -/
def Traced.record (s : Traced P) (a : Act P) (t : State P) : Traced P :=
  match a with
  | .update p =>
      match s.state.pc p with
      | .logWrite blockno =>
          { s with
            state := t
            recorded := Function.update s.recorded p
              (insert blockno (s.recorded p)) }
      | _ => { s with state := t }
  | .endOp p =>
      { state := t
        recorded := Function.update s.recorded p ∅
        ended := s.ended ∪ s.recorded p }
  | .phase p =>
      if s.state.pc p = .committing .clear then
        { s with state := t, ended := ∅ }
      else
        { s with state := t }
  | _ => { s with state := t }

def Traced.step (s : Traced P) (a : Act P) : Outcome (Traced P) :=
  (Logging.step s.state a).map (s.record a)

/-- The log as `initlog` leaves it, with nothing recorded. -/
structure Traced.Ready (s : Traced P) : Prop where
  state : Logging.Ready s.state
  recorded : ∀ p, s.recorded p = ∅
  ended : s.ended = ∅

/-- An operation passes no more than `MAXOPBLOCKS` distinct blocks to
`log_write`. -/
def Modest (s : Traced P) : Act P → Prop
  | .logWrite p blockno =>
      s.state.pc p = .inside →
        (insert blockno (s.recorded p)).card ≤ MAXOPBLOCKS
  | _ => True

/-- What admission is to ensure for the step `a`. -/
structure Admitted (s : Traced P) (a : Act P) : Prop where
  no_panic : s.step a ≠ .panic "too big a transaction"
  fits : ∀ t, s.step a = .next t →
    t.state.log.lh.length ≤ t.state.log.size - 1
  target : ∀ p tail, a = .phase p →
    s.state.pc p = .committing (.writeLog tail) →
    tail < s.state.log.lh.length →
    s.state.log.start + tail + 1 < s.state.log.start + s.state.log.size

/-- The transaction has room: a `log_write` starts only while less than
`log.size - 1` distinct blocks are recorded, and its update leaves no more
than `log.size - 1`. -/
def HasRoom [Fintype P] (s : Traced P) : Act P → Prop
  | .logWrite p _ =>
      s.state.pc p = .inside → s.logged.card < s.state.log.size - 1
  | .update p =>
      ∀ blockno, s.state.pc p = .logWrite blockno →
        (insert blockno s.logged).card ≤ s.state.log.size - 1
  | _ => True

end Step

/-! ## The records and the header -/

/-- The records list what the header lists. -/
structure Traced.Inv [Fintype P] (s : Traced P) : Prop where
  state : Logging.Inv s.state
  booted : s.state.booted = true
  lh_eq : s.state.log.lh.toFinset = s.logged
  recorded_eq_empty : ∀ p, (s.state.pc p).isActive = false →
    s.recorded p = ∅

section Inv

variable [Fintype P] {s t : Traced P}

theorem Traced.Ready.inv (h : s.Ready) : s.Inv where
  state := h.state.inv
  booted := h.state.booted
  lh_eq := by
    ext b
    simp [Traced.logged, h.state.lh, h.recorded, h.ended]
  recorded_eq_empty p _ := h.recorded p

theorem Traced.Inv.card_logged (h : s.Inv) :
    s.logged.card = s.state.log.lh.length := by
  rw [← h.lh_eq]
  exact List.toFinset_card_of_nodup (h.state.nodup h.booted)

theorem Traced.Inv.length_absorb (h : s.Inv) (blockno : ℕ) :
    (absorb s.state.log.lh blockno).length =
      (insert blockno s.logged).card := by
  rw [← List.toFinset_card_of_nodup
    (nodup_absorb (h.state.nodup h.booted)), ← h.lh_eq]
  congr 1
  ext b
  simp [mem_absorb, or_comm]

variable [DecidableEq P]

theorem logged_insert (s : Traced P) (u : State P) (p : P) (blockno : ℕ) :
    Traced.logged { s with
      state := u
      recorded := Function.update s.recorded p
        (insert blockno (s.recorded p)) } = insert blockno s.logged := by
  ext b
  simp only [Traced.logged, Finset.mem_union, Finset.mem_biUnion,
    Finset.mem_univ, true_and, Finset.mem_insert]
  constructor
  · rintro (hb | ⟨q, hq⟩)
    · exact .inr (.inl hb)
    · by_cases hqp : q = p
      · subst hqp
        rw [Function.update_self, Finset.mem_insert] at hq
        exact hq.imp_right fun hb => .inr ⟨q, hb⟩
      · rw [Function.update_of_ne hqp] at hq
        exact .inr (.inr ⟨q, hq⟩)
  · rintro (rfl | hb | ⟨q, hq⟩)
    · exact .inr ⟨p, by simp⟩
    · exact .inl hb
    · refine .inr ⟨q, ?_⟩
      by_cases hqp : q = p
      · subst hqp
        simp [hq]
      · rwa [Function.update_of_ne hqp]

theorem logged_end (s : Traced P) (u : State P) (p : P) :
    Traced.logged
      { state := u
        recorded := Function.update s.recorded p ∅
        ended := s.ended ∪ s.recorded p } = s.logged := by
  ext b
  simp only [Traced.logged, Finset.mem_union, Finset.mem_biUnion,
    Finset.mem_univ, true_and, or_assoc]
  refine or_congr_right ?_
  constructor
  · rintro (hb | ⟨q, hq⟩)
    · exact ⟨p, hb⟩
    · by_cases hqp : q = p
      · subst hqp
        simp at hq
      · rw [Function.update_of_ne hqp] at hq
        exact ⟨q, hq⟩
  · rintro ⟨q, hq⟩
    by_cases hqp : q = p
    · subst hqp
      exact .inl hq
    · exact .inr ⟨q, by rwa [Function.update_of_ne hqp]⟩

omit [Fintype P] in
theorem Traced.step_eq_next {a : Act P} (ht : s.step a = .next t) :
    Logging.step s.state a = .next t.state ∧ t = s.record a t.state := by
  obtain ⟨u, hu, rfl⟩ := Outcome.map_eq_next ht
  have hstate : (s.record a u).state = u := by
    unfold Traced.record
    split
    · split <;> rfl
    · rfl
    · split_ifs <;> rfl
    · rfl
  exact ⟨hstate.symm ▸ hu, by rw [hstate]⟩

/-- The records of a process that is outside of every operation stay
empty. -/
theorem Traced.Inv.recorded_step (h : s.Inv) {a : Act P}
    (ht : s.step a = .next t) (q : P)
    (hq : (t.state.pc q).isActive = false) : t.recorded q = ∅ := by
  obtain ⟨hstep, hrecord⟩ := Traced.step_eq_next ht
  have hbefore : (s.state.pc q).isActive = false ∨ a = .endOp q := by
    by_cases hs : (s.state.pc q).isActive = true
    · rcases isActive_of_step hstep hs with h' | h'
      · simp [hq] at h'
      · exact .inr h'
    · exact .inl (by simpa using hs)
  rw [hrecord]
  rcases hbefore with hs | rfl
  · have hempty := h.recorded_eq_empty q hs
    unfold Traced.record
    split
    · next p =>
        split
        · next blockno hp =>
            have hqp : q ≠ p := by
              rintro rfl
              simp [hp, Pc.isActive] at hs
            simp only [Function.update_of_ne hqp, hempty]
        · exact hempty
    · next p =>
        by_cases hqp : q = p
        · subst hqp
          simp
        · simp only [Function.update_of_ne hqp, hempty]
    · split_ifs <;> exact hempty
    · exact hempty
  · simp [Traced.record]

omit [DecidableEq P] in
/-- Nothing is recorded for a process while a commit is going on. -/
theorem Traced.Inv.recorded_of_committing (h : s.Inv) {p : P} {phase : Phase}
    (hp : s.state.pc p = .committing phase) (q : P) : s.recorded q = ∅ := by
  refine h.recorded_eq_empty q ?_
  by_contra hq
  have hc := h.state.not_committing (p := q) (by simpa using hq)
  simp [h.state.committing_of_pc p phase hp] at hc

/-- The header goes on listing the recorded blocks. -/
theorem Traced.Inv.lh_step (h : s.Inv) {a : Act P}
    (ht : s.step a = .next t) : t.state.log.lh.toFinset = t.logged := by
  obtain ⟨hstep, hrecord⟩ := Traced.step_eq_next ht
  have hkeep : ∀ u : State P, t = { s with state := u } →
      u.log.lh = s.state.log.lh → t.state.log.lh.toFinset = t.logged := by
    rintro u rfl hu
    simp only [hu]
    exact h.lh_eq
  cases a with
  | beginOp p =>
      refine hkeep t.state hrecord ?_
      simp only [Logging.step] at hstep
      split_ifs at hstep
      rw [← Outcome.next.inj hstep]
      unfold State.beginOp
      split_ifs <;> rfl
  | logWrite p blockno =>
      refine hkeep t.state hrecord ?_
      simp only [Logging.step, State.logWrite] at hstep
      split_ifs at hstep
      rw [← Outcome.next.inj hstep]
      rfl
  | update p =>
      simp only [Logging.step] at hstep
      split at hstep
      · next blockno hp =>
          simp only [Traced.record, hp] at hrecord
          rw [hrecord, logged_insert, ← h.lh_eq, ← Outcome.next.inj hstep]
          ext b
          simp [State.update, mem_absorb, or_comm]
      · cases hstep
  | endOp p =>
      rw [hrecord, Traced.record, logged_end, ← h.lh_eq]
      simp only [Logging.step, State.endOp] at hstep
      split_ifs at hstep <;> rw [← Outcome.next.inj hstep]
  | readHead p header =>
      simp only [Logging.step] at hstep
      split_ifs at hstep with hp
      have := h.state.not_booted_of_pc p _ hp
      simp [h.booted] at this
  | phase p =>
      simp only [Logging.step] at hstep
      split at hstep
      · next hp =>
          refine hkeep t.state (by simpa [Traced.record, hp] using hrecord) ?_
          rw [← Outcome.next.inj hstep]
          rfl
      · next phase _ hp =>
          by_cases hclear : phase = .clear
          · subst hclear
            have hempty := h.recorded_of_committing hp
            simp only [Traced.record, hp, if_true] at hrecord
            rw [hrecord, ← Outcome.next.inj hstep]
            ext b
            simp [Traced.logged, Log.advance, hempty]
          · refine hkeep t.state
              (by simpa [Traced.record, hp, hclear] using hrecord) ?_
            rw [← Outcome.next.inj hstep]
            cases phase with
            | clear => exact absurd rfl hclear
            | _ => rfl
      · next hp =>
          have := h.state.not_booted_of_pc p _ hp
          simp [h.booted] at this
      · next hp =>
          have := h.state.not_booted_of_pc p _ hp
          simp [h.booted] at this
      · cases hstep

theorem Traced.Inv.step (h : s.Inv) {a : Act P} (ht : s.step a = .next t) :
    t.Inv where
  state := h.state.step (Traced.step_eq_next ht).1
  booted := step_booted (Traced.step_eq_next ht).1 h.booted
  lh_eq := h.lh_step ht
  recorded_eq_empty := h.recorded_step ht

/-- Only an update adds to the recorded blocks. -/
theorem Traced.logged_step {a : Act P} (ht : s.step a = .next t) :
    t.logged ⊆ s.logged ∨ ∃ p blockno, a = .update p ∧
      s.state.pc p = .logWrite blockno ∧
      t.logged = insert blockno s.logged := by
  obtain ⟨-, hrecord⟩ := Traced.step_eq_next ht
  rw [hrecord]
  unfold Traced.record
  split
  · next p =>
      split
      · next blockno hp =>
          exact .inr ⟨p, blockno, rfl, hp, logged_insert ..⟩
      · exact .inl subset_rfl
  · exact .inl (logged_end ..).subset
  · split_ifs
    · exact .inl (Finset.union_subset_union_left (Finset.empty_subset _))
    · exact .inl subset_rfl
  · exact .inl subset_rfl

/-! ## When the transaction has room -/

/-- The invariant of the runs in which the log has not overflowed. -/
structure Traced.Fits (s : Traced P) : Prop where
  inv : s.Inv
  size : s.state.log.size = LOGSIZE
  length_le : s.state.log.lh.length ≤ s.state.log.size - 1

omit [DecidableEq P] in
theorem Traced.Ready.fits (h : s.Ready)
    (hsize : s.state.log.size = LOGSIZE) : s.Fits where
  inv := h.inv
  size := hsize
  length_le := by simp [h.state.lh]

theorem Traced.Fits.step (h : s.Fits) {a : Act P} (ha : Admitted s a)
    (ht : s.step a = .next t) : t.Fits where
  inv := h.inv.step ht
  size := (step_area (Traced.step_eq_next ht).1).2.1.trans h.size
  length_le := ha.fits t ht

theorem Traced.Fits.admitted (h : s.Fits) {a : Act P} (ha : HasRoom s a) :
    Admitted s a where
  no_panic hpanic := by
    have hpanic := Outcome.map_eq_panic.mp hpanic
    cases a with
    | logWrite p blockno =>
        simp only [Logging.step, State.logWrite] at hpanic
        split_ifs at hpanic with hp hfull
        · have hroom := ha hp
          have hsize := h.size
          rw [h.inv.card_logged] at hroom
          omega
        · simp at hpanic
    | beginOp p =>
        simp only [Logging.step] at hpanic
        split_ifs at hpanic
    | update p =>
        simp only [Logging.step] at hpanic
        split at hpanic <;> cases hpanic
    | endOp p =>
        simp only [Logging.step, State.endOp] at hpanic
        split_ifs at hpanic
        simp at hpanic
    | readHead p header =>
        simp only [Logging.step] at hpanic
        split_ifs at hpanic
    | phase p =>
        simp only [Logging.step] at hpanic
        split at hpanic <;> cases hpanic
  fits t ht := by
    have hsize := (step_area (Traced.step_eq_next ht).1).2.1
    rw [← (h.inv.step ht).card_logged, hsize]
    rcases Traced.logged_step ht with hsub | ⟨p, blockno, rfl, hp, heq⟩
    · have hle := h.length_le
      rw [← h.inv.card_logged] at hle
      exact (Finset.card_le_card hsub).trans hle
    · rw [heq]
      exact ha blockno hp
  target p tail _ _ htail := by
    have hle := h.length_le
    omega

theorem Traced.Fits.hasRoom (h : s.Fits) {a : Act P} (ha : Admitted s a) :
    HasRoom s a := by
  cases a with
  | logWrite p blockno =>
      intro hp
      by_contra hfull
      refine ha.no_panic (Outcome.map_eq_panic.mpr ?_)
      rw [h.inv.card_logged] at hfull
      simp only [Logging.step, hp, if_true, State.logWrite]
      rw [if_pos (.inr (by omega))]
  | update p =>
      intro blockno hp
      have hstep : s.step (.update p) =
          .next (s.record (.update p) (s.state.update p blockno)) := by
        simp only [Traced.step, Logging.step, hp, Outcome.map]
      have hfits := ha.fits _ hstep
      rw [← h.inv.length_absorb]
      simpa only [Traced.record, hp, State.update, State.setPc] using hfits
  | _ => trivial

end Inv

/-- The reservation of `begin_op`: every operation going on has a slot for
each of its ten blocks that it has not recorded yet. -/
structure Traced.Reserved [Fintype P] (s : Traced P) : Prop where
  inv : s.Inv
  recorded_le : ∀ p, (s.recorded p).card ≤ MAXOPBLOCKS
  pending_le : ∀ p blockno, s.state.pc p = .logWrite blockno →
    (insert blockno (s.recorded p)).card ≤ MAXOPBLOCKS
  reserve : s.state.log.lh.length + s.state.log.outstanding * MAXOPBLOCKS ≤
    LOGSIZE + ∑ p, (s.recorded p).card

section Reserved

variable [Fintype P] {s t : Traced P}

theorem Traced.Ready.reserved (h : s.Ready) : s.Reserved where
  inv := h.inv
  recorded_le p := by simp [h.recorded]
  pending_le p _ hp := by simp [h.state.pc] at hp
  reserve := by simp [h.state.lh, h.state.outstanding]

/-- The reserved slots and the slots in use fit in `LOGSIZE`. -/
theorem Traced.Reserved.length_le (h : s.Reserved) :
    s.state.log.lh.length ≤ LOGSIZE := by
  have hsum : ∑ p, (s.recorded p).card ≤
      s.state.log.outstanding * MAXOPBLOCKS := by
    have hsub : ∑ p, (s.recorded p).card =
        ∑ p ∈ active s.state.pc, (s.recorded p).card := by
      refine (Finset.sum_subset (Finset.subset_univ _) ?_).symm
      intro p _ hp
      rw [mem_active, Bool.not_eq_true] at hp
      rw [h.inv.recorded_eq_empty p hp, Finset.card_empty]
    rw [hsub, h.inv.state.outstanding_eq]
    exact Finset.sum_le_card_nsmul _ _ _ fun p _ => h.recorded_le p
  have hreserve := h.reserve
  omega

variable [DecidableEq P]

theorem sum_card_update (recorded : P → Finset ℕ) (p : P) (v : Finset ℕ) :
    ∑ q, (Function.update recorded p v q).card + (recorded p).card =
      ∑ q, (recorded q).card + v.card := by
  rw [← Finset.add_sum_erase _ _ (Finset.mem_univ p),
    ← Finset.add_sum_erase _ (fun q => (recorded q).card)
      (Finset.mem_univ p), Function.update_self]
  have hrest : ∑ q ∈ Finset.univ.erase p,
      (Function.update recorded p v q).card =
      ∑ q ∈ Finset.univ.erase p, (recorded q).card :=
    Finset.sum_congr rfl fun q hq => by
      rw [Function.update_of_ne (Finset.ne_of_mem_erase hq)]
  omega

theorem Traced.Reserved.beginOp (h : s.Reserved) {p : P}
    (ht : s.step (.beginOp p) = .next t) : t.Reserved := by
  have hinv := h.inv.step ht
  obtain ⟨hstep, hrecord⟩ := Traced.step_eq_next ht
  simp only [Logging.step] at hstep
  split_ifs at hstep with hp
  have hstate := Outcome.next.inj hstep
  have hpending : ∀ q blockno, t.state.pc q = .logWrite blockno →
      s.state.pc q = .logWrite blockno := by
    intro q blockno hq
    by_cases hqp : q = p
    · subst hqp
      rw [← hstate] at hq
      unfold State.beginOp at hq
      split_ifs at hq <;> simp [State.setPc] at hq
    · rw [← hstate] at hq
      unfold State.beginOp at hq
      split_ifs at hq <;> simpa [State.setPc, hqp] using hq
  have hrecorded : t.recorded = s.recorded := by rw [hrecord]; rfl
  refine
    { inv := hinv
      recorded_le := fun q => hrecorded ▸ h.recorded_le q
      pending_le := fun q blockno hq =>
        hrecorded ▸ h.pending_le q blockno (hpending q blockno hq)
      reserve := ?_ }
  have hreserve := h.reserve
  rw [hrecorded, ← hstate]
  unfold State.beginOp
  split_ifs with hc hfull
  · exact hreserve
  · exact hreserve
  · simp only
    omega

theorem Traced.Reserved.logWrite (h : s.Reserved) {p : P} {blockno : ℕ}
    (ha : Modest s (.logWrite p blockno))
    (ht : s.step (.logWrite p blockno) = .next t) : t.Reserved := by
  have hinv := h.inv.step ht
  obtain ⟨hstep, hrecord⟩ := Traced.step_eq_next ht
  simp only [Logging.step, State.logWrite] at hstep
  split_ifs at hstep with hp
  have hstate := Outcome.next.inj hstep
  have hrecorded : t.recorded = s.recorded := by rw [hrecord]; rfl
  refine
    { inv := hinv
      recorded_le := fun q => hrecorded ▸ h.recorded_le q
      pending_le := fun q b hq => ?_
      reserve := ?_ }
  · rw [hrecorded]
    rw [← hstate] at hq
    by_cases hqp : q = p
    · subst hqp
      simp only [State.setPc, Function.update_self, Pc.logWrite.injEq] at hq
      exact hq ▸ ha hp
    · exact h.pending_le q b (by simpa [State.setPc, hqp] using hq)
  · rw [hrecorded, ← hstate]
    exact h.reserve

theorem Traced.Reserved.update (h : s.Reserved) {p : P}
    (ht : s.step (.update p) = .next t) : t.Reserved := by
  have hinv := h.inv.step ht
  obtain ⟨hstep, hrecord⟩ := Traced.step_eq_next ht
  simp only [Logging.step] at hstep
  split at hstep
  · next blockno hp =>
      have hstate := Outcome.next.inj hstep
      have hrecorded : t.recorded = Function.update s.recorded p
          (insert blockno (s.recorded p)) := by
        rw [hrecord]
        simp only [Traced.record, hp]
      refine
        { inv := hinv
          recorded_le := fun q => ?_
          pending_le := fun q b hq => ?_
          reserve := ?_ }
      · rw [hrecorded]
        by_cases hqp : q = p
        · subst hqp
          rw [Function.update_self]
          exact h.pending_le q blockno hp
        · rw [Function.update_of_ne hqp]
          exact h.recorded_le q
      · rw [← hstate] at hq
        by_cases hqp : q = p
        · subst hqp
          simp [State.update, State.setPc] at hq
        · rw [hrecorded, Function.update_of_ne hqp]
          exact h.pending_le q b
            (by simpa [State.update, State.setPc, hqp] using hq)
      · -- A slot is taken only for a block that this operation did not
        -- record before.
        have hsum := sum_card_update s.recorded p
          (insert blockno (s.recorded p))
        have hreserve := h.reserve
        have hsub : s.recorded p ⊆ s.state.log.lh.toFinset := by
          rw [h.inv.lh_eq]
          exact (Finset.subset_biUnion_of_mem s.recorded
            (Finset.mem_univ p)).trans Finset.subset_union_right
        rw [hrecorded, ← hstate]
        simp only [State.update]
        by_cases hmem : blockno ∈ s.state.log.lh
        · rw [absorb_of_mem hmem]
          have hle := Finset.card_le_card
            (Finset.subset_insert blockno (s.recorded p))
          omega
        · have hnot : blockno ∉ s.recorded p := fun hb =>
            hmem (List.mem_toFinset.mp (hsub hb))
          rw [Finset.card_insert_of_notMem hnot] at hsum
          rw [absorb_of_not_mem hmem, List.length_append,
            List.length_singleton]
          omega
  · cases hstep

theorem Traced.Reserved.endOp (h : s.Reserved) {p : P}
    (ht : s.step (.endOp p) = .next t) : t.Reserved := by
  have hinv := h.inv.step ht
  obtain ⟨hstep, hrecord⟩ := Traced.step_eq_next ht
  simp only [Logging.step] at hstep
  split_ifs at hstep with hp
  have hrecorded : t.recorded = Function.update s.recorded p ∅ := by
    rw [hrecord]
    rfl
  have hpos := h.inv.state.outstanding_pos (p := p)
    (by simp [hp, Pc.isActive])
  have hpc : ∀ q blockno, t.state.pc q = .logWrite blockno → q ≠ p ∧
      s.state.pc q = .logWrite blockno := by
    intro q blockno hq
    simp only [State.endOp] at hstep
    split_ifs at hstep
    · rw [← Outcome.next.inj hstep] at hq
      by_cases hqp : q = p
      · subst hqp
        simp [State.setPc] at hq
      · exact ⟨hqp, by simpa [State.setPc, hqp] using hq⟩
    · rw [← Outcome.next.inj hstep] at hq
      by_cases hqp : q = p
      · subst hqp
        simp at hq
      · simp only [Function.update_of_ne hqp] at hq
        rw [wakeup_eq_iff (by simp) (by simp)] at hq
        exact ⟨hqp, hq⟩
  refine
    { inv := hinv
      recorded_le := fun q => ?_
      pending_le := fun q b hq => ?_
      reserve := ?_ }
  · rw [hrecorded]
    by_cases hqp : q = p
    · subst hqp
      simp
    · rw [Function.update_of_ne hqp]
      exact h.recorded_le q
  · obtain ⟨hqp, hq⟩ := hpc q b hq
    rw [hrecorded, Function.update_of_ne hqp]
    exact h.pending_le q b hq
  · have hsum := sum_card_update s.recorded p ∅
    have hle := h.recorded_le p
    have hreserve := h.reserve
    have hlog : t.state.log.lh = s.state.log.lh ∧
        t.state.log.outstanding + 1 = s.state.log.outstanding := by
      simp only [State.endOp] at hstep
      split_ifs at hstep <;> rw [← Outcome.next.inj hstep] <;>
        exact ⟨rfl, Nat.sub_add_cancel hpos⟩
    rw [← hlog.2] at hreserve
    rw [hrecorded, hlog.1]
    simp only [Finset.card_empty, Nat.add_zero] at hsum
    rw [Nat.add_one_mul] at hreserve
    omega

theorem Traced.Reserved.phase (h : s.Reserved) {p : P}
    (ht : s.step (.phase p) = .next t) : t.Reserved := by
  have hinv := h.inv.step ht
  obtain ⟨hstep, hrecord⟩ := Traced.step_eq_next ht
  have hrecorded : t.recorded = s.recorded := by
    rw [hrecord]
    simp only [Traced.record]
    split_ifs <;> rfl
  simp only [Logging.step] at hstep
  have hcommit : ∀ phase, s.state.pc p = .committing phase →
      (∀ q blockno, t.state.pc q = .logWrite blockno →
        s.state.pc q = .logWrite blockno) →
      t.state.log.lh.length ≤ s.state.log.lh.length →
      t.state.log.outstanding = s.state.log.outstanding → t.Reserved := by
    intro phase hp hpending hle hout
    have hreserve := h.reserve
    refine
      { inv := hinv
        recorded_le := fun q => hrecorded ▸ h.recorded_le q
        pending_le := fun q b hq =>
          hrecorded ▸ h.pending_le q b (hpending q b hq)
        reserve := ?_ }
    rw [hrecorded, hout]
    omega
  split at hstep
  · next hp =>
      rw [← Outcome.next.inj hstep] at hcommit
      refine hcommit _ hp ?_ le_rfl rfl
      intro q b hq
      by_cases hqp : q = p
      · subst hqp
        simp [State.endCommit] at hq
      · simp only [State.endCommit, Function.update_of_ne hqp] at hq
        rwa [wakeup_eq_iff (by simp) (by simp)] at hq
  · next phase _ hp =>
      rw [← Outcome.next.inj hstep] at hcommit
      refine hcommit _ hp ?_ ?_ advance_outstanding
      · intro q b hq
        by_cases hqp : q = p
        · subst hqp
          simp [State.setPc] at hq
        · simpa [State.setPc, hqp] using hq
      · cases phase with
        | clear => exact Nat.zero_le _
        | _ => exact le_rfl
  · next hp =>
      have := h.inv.state.not_booted_of_pc p _ hp
      simp [h.inv.booted] at this
  · next hp =>
      have := h.inv.state.not_booted_of_pc p _ hp
      simp [h.inv.booted] at this
  · cases hstep

theorem Traced.Reserved.step (h : s.Reserved) {a : Act P}
    (ha : Modest s a) (ht : s.step a = .next t) : t.Reserved := by
  cases a with
  | beginOp p => exact h.beginOp ht
  | logWrite p blockno => exact h.logWrite ha ht
  | update p => exact h.update ht
  | endOp p => exact h.endOp ht
  | readHead p header =>
      simp only [Traced.step, Logging.step] at ht
      split_ifs at ht with hp
      · have := h.inv.state.not_booted_of_pc p _ hp
        simp [h.inv.booted] at this
      · cases ht
  | phase p => exact h.phase ht

/-- The header outgrows the log area by one block at most, and never its own
array. -/
theorem length_le_LOGSIZE {w : List (Act P)} (hs : s.Ready)
    (hrun : Run Traced.step s w t) (hw : Meets Traced.step Modest s w) :
    t.state.log.lh.length ≤ LOGSIZE :=
  (hrun.invariant_of_meets (I := Traced.Reserved)
    (fun _ _ _ h ha ht => h.step ha ht) hw hs.reserved).length_le

end Reserved

/-! ## Three operations of ten blocks -/

/-- The log of `mkfs`, with nothing in it. -/
def Traced.initial (P : Type*) : Traced P where
  state :=
    { log :=
        { start := 2, size := LOGSIZE, dev := ROOTDEV, outstanding := 0
          committing := false, lh := [] }
      booted := true
      pc := fun _ => .outside }
  recorded := fun _ => ∅
  ended := ∅

theorem Traced.initial_ready {P : Type*} : (Traced.initial P).Ready where
  state := ⟨rfl, rfl, rfl, rfl, fun _ => rfl⟩
  recorded _ := rfl
  ended := rfl

/-- Process `p` records `n` of its ten blocks, which start at block
`32 + 10 p`. -/
def logWrites (p : Fin 3) (n : ℕ) : List (Act (Fin 3)) :=
  (List.range n).flatMap fun i =>
    [.logWrite p (32 + 10 * p + i), .update p]

/-- Three operations begin, and record 29 distinct blocks. -/
def threeOperations : List (Act (Fin 3)) :=
  [.beginOp 0, .beginOp 1, .beginOp 2] ++
    (logWrites 0 10 ++ logWrites 1 10 ++ logWrites 2 9)

instance [DecidableEq P] (s : Traced P) :
    ∀ a, Decidable (Modest s a)
  | .logWrite _ _ => inferInstanceAs (Decidable (_ → _))
  | .beginOp _ | .update _ | .endOp _ | .readHead _ _ | .phase _ => .isTrue trivial

instance [Fintype P] [DecidableEq P] (s : Traced P) :
    ∀ a, Decidable (HasRoom s a)
  | .logWrite _ _ => inferInstanceAs (Decidable (_ → _))
  | .update p =>
      match h : s.state.pc p with
      | .logWrite blockno =>
          decidable_of_iff
            ((insert blockno s.logged).card ≤ s.state.log.size - 1)
            (by simp [HasRoom, h])
      | .outside | .asleep | .woken | .inside | .committing _
      | .recovering _ => .isTrue (by simp [HasRoom, h])
  | .beginOp _ | .endOp _ | .readHead _ _ | .phase _ => .isTrue trivial

end ZtlOs.Logging
