import ZtlOs.Log.Protocol

/-!
# Who waits for the log

A process asleep in `begin_op` waits for the end of an operation or of a
commit, and whoever is in one wakes it up.  Together with the invariant of the
log this describes every reachable state.
-/

namespace ZtlOs.Logging

open ZtlOs.Support ZtlOs.Fs

/-- The process is between its `begin_op` and the last `wakeup` of its
`end_op`. -/
def Pc.wakes : Pc → Prop
  | .inside | .logWrite _ | .committing _ => True
  | _ => False

/-- What `begin_op`, `log_write` and `end_op` keep in order. -/
structure Disciplined {P : Type*} [Fintype P] [DecidableEq P] (s : State P) :
    Prop where
  outstanding : s.log.outstanding =
    (Finset.univ.filter fun p => (s.pc p).isActive = true).card
  committing : s.log.committing = true → s.log.outstanding = 0 ∧
    ∃! p, ∃ phase, s.pc p = .committing phase
  /-- Neither the tests nor the critical section of a `log_write`. -/
  no_logWrite : s.log.committing = true → ∀ p t,
    (∀ blockno, step s (.logWrite p blockno) ≠ .next t) ∧
      step s (.update p) ≠ .next t
  no_panic : ∀ a, step s a ≠ .panic "log.committing"
  nodup : s.log.lh.Nodup
  idle : s.log.outstanding = 0 → s.log.committing = false → s.log.lh = []
  waiters : ∀ p, s.pc p = .asleep → ∃ q ≠ p, (s.pc q).wakes

section

variable {P : Type*} {s t : State P} {p : P}

/-- Somebody will wake up the processes that are asleep. -/
def Awaited (s : State P) : Prop :=
  ∀ p, s.pc p = .asleep → 0 < s.log.outstanding ∨ s.log.committing = true

/-- No step of `commit` and no `log_write` puts a process to sleep. -/
theorem Awaited.of_log (h : Awaited s)
    (hout : t.log.outstanding = s.log.outstanding)
    (hcom : t.log.committing = s.log.committing)
    (hpc : ∀ q, t.pc q = .asleep → s.pc q = .asleep) : Awaited t := by
  intro q hq
  rw [hout, hcom]
  exact h q (hpc q hq)

theorem wakeup_ne_asleep (pc : P → Pc) (p : P) : wakeup pc p ≠ .asleep := by
  unfold wakeup
  split
  · exact Pc.noConfusion
  · next h => exact h

variable [DecidableEq P]

/-- Nobody is asleep after a `wakeup`. -/
theorem Awaited.of_wakeup (hpc : t.pc = Function.update (wakeup s.pc) p .outside) :
    Awaited t := by
  intro q hq
  rw [hpc] at hq
  by_cases hqp : q = p
  · subst hqp
    rw [Function.update_self] at hq
    cases hq
  · rw [Function.update_of_ne hqp] at hq
    exact absurd hq (wakeup_ne_asleep s.pc q)

theorem asleep_of_update {v : Pc} {q : P} (hv : v ≠ .asleep)
    (h : Function.update s.pc p v q = .asleep) : s.pc q = .asleep := by
  by_cases hqp : q = p
  · subst hqp
    rw [Function.update_self] at h
    exact absurd h hv
  · rwa [Function.update_of_ne hqp] at h

variable [Fintype P]

/-- A process falls asleep only while another one is in an operation or in a
commit: the empty log has room for an operation. -/
theorem Awaited.beginOp (h : Awaited s) (hi : Inv s) (hs : s.booted = true) :
    Awaited (s.beginOp p) := by
  have hsleep : 0 < s.log.outstanding ∨ s.log.committing = true →
      Awaited (s.setPc p .asleep) := fun hwait _ _ => hwait
  unfold State.beginOp
  split
  · next hcom => exact hsleep (.inr hcom)
  · next hcom =>
      split
      · next hroom =>
          refine hsleep (.inl ?_)
          by_contra hzero
          have hempty := hi.idle hs (by omega) (by simpa using hcom)
          rw [hempty, Nat.eq_zero_of_not_pos hzero] at hroom
          exact absurd hroom (by decide)
      · intro q _
        exact .inl (Nat.succ_pos _)

theorem Awaited.endOp (h : Awaited s) (ht : s.endOp p = .next t) :
    Awaited t := by
  simp only [State.endOp] at ht
  split_ifs at ht
  · cases ht
    exact fun _ _ => .inr rfl
  · cases ht
    exact .of_wakeup rfl

theorem Awaited.step (h : Awaited s) (hi : Inv s) (hs : s.booted = true)
    {a : Act P} (ht : step s a = .next t) : Awaited t := by
  cases a with
  | beginOp q =>
      simp only [Logging.step] at ht
      split_ifs at ht
      cases ht
      exact h.beginOp hi hs
  | logWrite q blockno =>
      simp only [Logging.step, State.logWrite] at ht
      split_ifs at ht
      cases ht
      exact h.of_log rfl rfl fun _ => asleep_of_update Pc.noConfusion
  | update q =>
      simp only [Logging.step] at ht
      split at ht
      · cases ht
        exact h.of_log rfl rfl fun _ => asleep_of_update Pc.noConfusion
      · cases ht
  | endOp q =>
      simp only [Logging.step] at ht
      split_ifs at ht
      exact h.endOp ht
  | readHead q header =>
      simp only [Logging.step] at ht
      split_ifs at ht
      cases ht
      exact h.of_log rfl rfl fun _ => id
  | phase q =>
      simp only [Logging.step] at ht
      split at ht
      · cases ht
        exact .of_wakeup rfl
      · cases ht
        exact h.of_log advance_outstanding advance_committing
          fun _ => asleep_of_update Pc.noConfusion
      · cases ht
        exact h.of_log rfl rfl fun _ => asleep_of_update Pc.noConfusion
      · cases ht
        exact h.of_log advance_outstanding advance_committing
          fun _ => asleep_of_update Pc.noConfusion
      · cases ht

/-- `end_op` meets `log.committing` in no state that keeps the invariant. -/
theorem Inv.no_panic (h : Inv s) (a : Act P) :
    Logging.step s a ≠ .panic "log.committing" := by
  intro hpanic
  cases a with
  | beginOp q =>
      simp only [Logging.step] at hpanic
      split_ifs at hpanic
  | logWrite q blockno =>
      simp only [Logging.step, State.logWrite] at hpanic
      split_ifs at hpanic
      · exact absurd (Outcome.panic.inj hpanic) (by decide)
      · exact absurd (Outcome.panic.inj hpanic) (by decide)
  | update q =>
      simp only [Logging.step] at hpanic
      split at hpanic <;> cases hpanic
  | endOp q =>
      simp only [Logging.step, State.endOp] at hpanic
      split_ifs at hpanic with hpc hcom
      have hactive : (s.pc q).isActive = true := by
        rw [hpc]
        rfl
      rw [h.not_committing hactive] at hcom
      cases hcom
  | readHead q header =>
      simp only [Logging.step] at hpanic
      split_ifs at hpanic
  | phase q =>
      simp only [Logging.step] at hpanic
      split at hpanic <;> cases hpanic

/-- Log writes are made by processes inside an operation. -/
theorem Inv.no_logWrite (h : Inv s) (hcom : s.log.committing = true) (p : P)
    (t : State P) : (∀ blockno, Logging.step s (.logWrite p blockno) ≠ .next t) ∧
      Logging.step s (.update p) ≠ .next t := by
  have hinside : (s.pc p).isActive = false := by
    by_contra hp
    have := h.not_committing (Bool.eq_true_of_not_eq_false hp)
    rw [hcom] at this
    cases this
  constructor
  · intro blockno ht
    simp only [Logging.step] at ht
    split_ifs at ht with hp
    rw [hp] at hinside
    cases hinside
  · intro ht
    simp only [Logging.step] at ht
    split at ht
    · next hp =>
        rw [hp] at hinside
        cases hinside
    · cases ht

theorem Awaited.disciplined (h : Awaited s) (hi : Inv s)
    (hs : s.booted = true) : Disciplined s where
  outstanding := hi.outstanding_eq
  committing := by
    intro hcom
    refine ⟨hi.outstanding_eq_zero hcom, ?_⟩
    obtain ⟨q, phase, hq⟩ := hi.exists_pc_of_committing hcom
    refine ⟨q, ⟨phase, hq⟩, ?_⟩
    rintro q' ⟨phase', hq'⟩
    exact hi.committing_unique q' q phase' phase hq' hq
  no_logWrite := hi.no_logWrite
  no_panic := hi.no_panic
  nodup := hi.nodup hs
  idle := hi.idle hs
  waiters := by
    intro q hq
    rcases h q hq with hpos | hcom
    · rw [hi.outstanding_eq] at hpos
      obtain ⟨r, hr⟩ := Finset.card_pos.mp hpos
      have hactive := mem_active.mp hr
      refine ⟨r, ?_, ?_⟩
      · rintro rfl
        rw [hq] at hactive
        cases hactive
      · cases hpc : s.pc r <;> simp_all [Pc.isActive, Pc.wakes]
    · obtain ⟨r, phase, hr⟩ := hi.exists_pc_of_committing hcom
      refine ⟨r, ?_, ?_⟩
      · rintro rfl
        rw [hq] at hr
        cases hr
      · rw [hr]
        trivial

/-- In every state that the processes reach with the log that `initlog` has
left, the log is in order and every waiter has somebody to wake it up. -/
theorem log_disciplined {w : List (Act P)} (hs : Ready s)
    (hrun : Run Logging.step s w t) : Disciplined t := by
  have hkeep : Awaited t ∧ Inv t ∧ t.booted = true := by
    refine hrun.invariant (I := fun u => Awaited u ∧ Inv u ∧ u.booted = true)
      ?_ ⟨fun q hq => ?_, hs.inv, hs.booted⟩
    · rintro u a v ⟨hwait, hi, hb⟩ hv
      exact ⟨hwait.step hi hb hv, hi.step hv, step_booted hv hb⟩
    · rw [hs.pc] at hq
      cases hq
  exact hkeep.1.disciplined hkeep.2.1 hkeep.2.2

end

/-- The log of `mkfs`, with nothing in it. -/
def emptyLog : State (Fin 4) where
  log :=
    { start := 2, size := LOGSIZE, dev := ROOTDEV, outstanding := 0
      committing := false, lh := [] }
  booted := true
  pc := fun _ => .outside

/-- The log has room for three operations; the fourth process sleeps. -/
theorem log_disciplined_four : ∃ t,
    Run step emptyLog [.beginOp 0, .beginOp 1, .beginOp 2, .beginOp 3] t ∧
      t.pc 3 = .asleep ∧ Disciplined t := by
  have hrun : Run step emptyLog
      [.beginOp 0, .beginOp 1, .beginOp 2, .beginOp 3] _ :=
    .cons rfl (.cons rfl (.cons rfl (.cons rfl (.nil _))))
  exact ⟨_, hrun, rfl, log_disciplined ⟨rfl, rfl, rfl, rfl, fun _ => rfl⟩ hrun⟩

end ZtlOs.Logging
