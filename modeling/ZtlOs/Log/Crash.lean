import ZtlOs.Log.Recovery

/-!
# Crashes

The machine may stop at any point, in a commit or in a recovery, any number
of times.  When `initlog` is done, the home blocks have the contents that they
had just before or just after the transaction that was being committed.
-/

namespace ZtlOs.Transactions

open ZtlOs.Support ZtlOs.Fs ZtlOs.Cache ZtlOs.Logging

/-! ## Histories with crashes -/

/-- The machine with the logical contents after the last complete commit and,
from a crash on, those just before and just after the transaction that was
being committed. -/
structure Durable (P : Type*) where
  state : State P
  shadow : Shadow Block
  committed : ℕ → Block
  before : ℕ → Block
  after : ℕ → Block

/-- The step completes a commit or a recovery. -/
def State.completes {P : Type*} (s : State P) : Act P → Bool
  | .op p => phaseOf (s.log.pc p) = some .finish
  | _ => false

section Step

variable {P : Type*} [DecidableEq P]

def Durable.record (s : Durable P) (a : Act P) (t : State P) : Durable P where
  state := t
  shadow := nextShadow s.shadow s.state a
  committed :=
    if s.state.completes a then s.state.logical s.shadow else s.committed
  before :=
    match a with
    | .crash _ => if s.state.log.booted then s.committed else s.before
    | _ => s.before
  after :=
    match a with
    | .crash _ =>
        if s.state.log.booted then
          if s.state.log.log.committing then s.state.logical s.shadow
          else s.committed
        else s.after
    | _ => s.after

def Durable.step (s : Durable P) (a : Act P) : Outcome (Durable P) :=
  (Transactions.step s.state a).map (s.record a)

end Step

section Conditions

variable {P : Type*}

/-- A machine after `initlog`, with an empty log on disk. -/
structure Durable.Initial (s : Durable P) : Prop where
  booted : Booted s.state
  size_le : s.state.log.log.size - 1 ≤ LOGSIZE
  head : getHead (s.state.onDisk s.state.log.log.start) = []
  store : ∀ id, s.shadow.store id = s.state.cache.disk id.sector
  touched : ∀ i, s.shadow.touched i = false
  committed : s.committed = s.state.onDisk

/-- All writes go through `log_write`: blocks are changed inside of an
operation, on the logged device and outside of the log area, and are passed
to `log_write` before the operation ends. -/
def Journaled (s : Durable P) : Act P → Prop
  | .modify p i _ =>
      s.state.log.pc p = .inside ∧
        (s.state.cache.buf i).id.dev = s.state.log.log.dev ∧
        Outside s.state.log.log (s.state.cache.buf i).id.blockno
  | .bwrite _ _ => False
  | .logWrite _ i => (s.state.cache.buf i).id.dev = s.state.log.log.dev
  | .endOp p => ∀ i, s.shadow.touched i = true →
      (s.state.cache.buf i).lock ≠ some p
  | _ => True

def Atomic (s : Durable P) (a : Act P) : Prop :=
  Disciplined s.state s.shadow a ∧ Journaled s a

end Conditions

/-! ## The invariant -/

/-- What holds in every state of a run with crashes. -/
structure Durable.Inv {P : Type*} [Fintype P] (s : Durable P) : Prop where
  sound : Sound s.state s.shadow
  size_le : s.state.log.log.size - 1 ≤ LOGSIZE
  copied : Copied s.state s.shadow
  changing : ∀ i, s.shadow.touched i = true → Changing s.state i
  pinned : ∀ i, (s.state.cache.buf i).dirty = true → Pinned s.state i
  pending_dev : ∀ q b, s.state.log.pc q = .logWrite b →
    (s.state.cache.buf (s.state.reg q 0)).id.dev = s.state.log.log.dev
  filled : ∀ p phase, phaseOf (s.state.log.pc p) = some phase →
    phase = .writeHead ∨ phase = .eraseHead → 2 ≤ s.state.pos p →
    getHead (s.state.logical s.shadow s.state.log.log.start) =
      s.state.log.log.lh
  /-- Between commits, what is not on the disk is in the list in memory or
  about to be put there. -/
  idle : s.state.log.booted = true → s.state.log.log.committing = false →
    (redoLog s.state.log.log sound.size_pos).Settled s.state.onDisk
        s.committed ∧
      ∀ b, Outside s.state.log.log b →
        s.state.logical s.shadow b = s.committed b ∨
          b ∈ s.state.log.log.lh ∨
          ∃ i, s.shadow.touched i = true ∧
            (s.state.cache.buf i).id = ⟨s.state.log.log.dev, b⟩
  unlogged : ∀ p phase, s.state.log.pc p = .committing phase →
    stage phase (s.state.pos p) = .unlogged →
    (redoLog s.state.log.log sound.size_pos).Settled s.state.onDisk
        s.committed ∧
      ∀ b, Outside s.state.log.log b →
        s.state.logical s.shadow b = s.committed b ∨
          b ∈ s.state.log.log.lh
  logged : ∀ p phase, s.state.log.pc p = .committing phase →
    stage phase (s.state.pos p) ≠ .unlogged →
    Replaying (redoLog s.state.log.log sound.size_pos) s.state.log.log.lh phase
      (s.state.pos p) s.state.onDisk (s.state.logical s.shadow)
      (s.state.logical s.shadow)
  recovering : ∀ p phase, s.state.log.pc p = .recovering phase →
    ∃ target, (target = s.before ∨ target = s.after) ∧
      Replaying (redoLog s.state.log.log sound.size_pos) s.state.log.log.lh
        phase (s.state.pos p) s.state.onDisk (s.state.logical s.shadow) target

section Inv

variable {P : Type*} [Fintype P]

variable [DecidableEq P] {s t : Durable P} {a : Act P} {p : P}

omit [Fintype P] in
theorem Durable.step_eq_next (ht : s.step a = .next t) :
    Transactions.step s.state a = .next t.state ∧
      t = s.record a t.state := by
  obtain ⟨u, hu, rfl⟩ := Outcome.map_eq_next ht
  exact ⟨hu, rfl⟩

omit [DecidableEq P] in
theorem Durable.Initial.inv (h : s.Initial) : s.Inv where
  sound := by
    have hshadow : s.shadow =
        ⟨fun id => s.state.cache.disk id.sector, fun _ => false⟩ := by
      cases hg : s.shadow with
      | mk store touched =>
          congr
          · funext id
            simpa [hg] using h.store id
          · funext i
            simpa [hg] using h.touched i
    exact hshadow ▸ h.booted.sound
  size_le := h.size_le
  copied p phase hp := by simp [h.booted.log.pc] at hp
  changing i hi := by simp [h.touched] at hi
  pinned i hi := by
    rw [h.booted.cache] at hi
    simp [binit] at hi
  pending_dev q b hq := by simp [h.booted.log.pc] at hq
  filled p phase hp := by simp [h.booted.log.pc, phaseOf] at hp
  idle _ _ := by
    refine ⟨⟨h.head, fun b _ => by rw [h.committed]⟩, fun b _ => .inl ?_⟩
    rw [h.committed, State.logical, h.store]
    rfl
  unlogged p phase hp := by simp [h.booted.log.pc] at hp
  logged p phase hp := by simp [h.booted.log.pc] at hp
  recovering p phase hp := by simp [h.booted.log.pc] at hp

/-- The disk at the time of a crash replays to the contents just before or
just after the transaction. -/
theorem Durable.Inv.recoverable (h : s.Inv) (q : P) :
    ∃ target, (target = (s.record (.crash q) (s.state.restart q)).before ∨
        target = (s.record (.crash q) (s.state.restart q)).after) ∧
      Replaying (redoLog s.state.log.log h.sound.size_pos) [] .readHead 0
        s.state.onDisk s.state.onDisk target := by
  by_cases hb : s.state.log.booted = true
  · by_cases hc : s.state.log.log.committing = true
    · obtain ⟨p, phase, hp⟩ := h.sound.log.exists_pc_of_committing hc
      by_cases hs : stage phase (s.state.pos p) = .unlogged
      · refine ⟨s.committed, .inl (by simp [Durable.record, hb]), ?_⟩
        exact replaying_of_settled (h.unlogged p phase hp hs).1
      · refine ⟨s.state.logical s.shadow,
          .inr (by simp [Durable.record, hb, hc]), ?_⟩
        exact (h.logged p phase hp hs).restart hs
    · refine ⟨s.committed, .inl (by simp [Durable.record, hb]), ?_⟩
      exact replaying_of_settled (h.idle hb (by simpa using hc)).1
  · obtain ⟨p, phase, hp⟩ :=
      h.sound.log.recovering_of_not_booted (by simpa using hb)
    obtain ⟨target, htarget, hr⟩ := h.recovering p phase hp
    refine ⟨target, by simpa [Durable.record, hb] using htarget, ?_⟩
    exact hr.restart (stage_of_inRecovery (h.sound.log.inRecovery p _ hp))

theorem Durable.Inv.crash (h : s.Inv) (q : P) :
    (s.record (.crash q) (s.state.restart q)).Inv where
  sound := h.sound.restart q
  size_le := h.size_le
  copied p phase hp := by
    by_cases hpq : p = q
    · subst hpq
      simp [Durable.record, State.restart] at hp
    · simp [Durable.record, State.restart, hpq] at hp
  changing i hi := by simp [Durable.record, nextShadow] at hi
  pinned i hi := by simp [Durable.record, State.restart, binit] at hi
  pending_dev p b hp := by
    by_cases hpq : p = q
    · subst hpq
      simp [Durable.record, State.restart] at hp
    · simp [Durable.record, State.restart, hpq] at hp
  filled p phase _ _ hpos := by simp [Durable.record, State.restart] at hpos
  idle hb := by simp [Durable.record, State.restart] at hb
  unlogged p phase hp := by
    by_cases hpq : p = q
    · subst hpq
      simp [Durable.record, State.restart] at hp
    · simp [Durable.record, State.restart, hpq] at hp
  logged p phase hp := by
    by_cases hpq : p = q
    · subst hpq
      simp [Durable.record, State.restart] at hp
    · simp [Durable.record, State.restart, hpq] at hp
  recovering p phase hp := by
    obtain ⟨target, htarget, hr⟩ := h.recoverable q
    refine ⟨target, htarget, ?_⟩
    by_cases hpq : p = q
    · subst hpq
      obtain rfl : Phase.readHead = phase := by
        simpa [Durable.record, State.restart] using hp
      exact hr
    · simp [Durable.record, State.restart, hpq] at hp

/-! ## The other steps -/

omit [Fintype P] [DecidableEq P] in
theorem Atomic.honest (ha : Atomic s a) (hcrash : ∀ q, a ≠ .crash q) :
    Honest s.state a where
  modify := by
    rintro q i data rfl
    exact ha.2
  bwrite := by
    rintro q i rfl
    exact ha.2
  crash := hcrash

omit [Fintype P] in
theorem record_spec (hcrash : ∀ q, a ≠ .crash q) (ht : s.step a = .next t) :
    Transactions.step s.state a = .next t.state ∧
      t.shadow = nextShadow s.shadow s.state a ∧ t.before = s.before ∧
      t.after = s.after ∧
      t.committed = if s.state.completes a then s.state.logical s.shadow
        else s.committed := by
  obtain ⟨hstep, hrecord⟩ := Durable.step_eq_next ht
  refine ⟨hstep, ?_⟩
  rw [hrecord]
  cases a with
  | crash q => exact absurd rfl (hcrash q)
  | _ => exact ⟨rfl, rfl, rfl, rfl⟩

omit [DecidableEq P] in
/-- No block of the log area is dirty, and none at all once the list in
memory is cleared. -/
theorem Durable.Inv.clean (h : s.Inv) {phase : Phase}
    (hp : phaseOf (s.state.log.pc p) = some phase) {b : ℕ} {i : Fin NBUF}
    (hb : ¬ Outside s.state.log.log b ∨ phase = .eraseHead)
    (hi : (s.state.cache.buf i).id = ⟨s.state.log.log.dev, b⟩) :
    (s.state.cache.buf i).dirty = false := by
  by_contra hdirty
  obtain ⟨hbooted, -, j, hj, haw⟩ := h.pinned i (by simpa using hdirty)
  rw [hi] at hj
  rcases hb with hb | rfl
  · exact hb (h.sound.header.outside b (List.mem_of_getElem? hj))
  · rcases pc_of_phaseOf hp with hpc | hpc
    · exact haw p _ hpc
    · have := h.sound.log.not_booted_of_pc p _ hpc
      simp [hbooted] at this

omit [DecidableEq P] in
/-- In a phase, the disk has the blocks of the log area as they were last put
there, but for the one that is written next. -/
theorem Durable.Inv.onDisk_eq (h : s.Inv) {phase : Phase}
    (hp : phaseOf (s.state.log.pc p) = some phase) {b : ℕ}
    (hb : ¬ Outside s.state.log.log b)
    (hnext : ∀ r, s.state.current p = some (.bwrite r) →
      (s.state.cache.buf (s.state.reg p r)).id ≠ ⟨s.state.log.log.dev, b⟩) :
    s.state.onDisk b = s.state.logical s.shadow b := by
  refine onDisk_eq_logical h.sound fun i hi => ⟨h.clean hp (.inl hb) hi, ?_⟩
  by_contra htouched
  obtain ⟨r, hcur, hreg⟩ :=
    (h.changing i (by simpa using htouched)).eq_reg h.sound hp
  exact hnext r hcur (hreg ▸ hi)

theorem Durable.Inv.sound_step (h : s.Inv) (ha : Atomic s a)
    (hcrash : ∀ q, a ≠ .crash q) (ht : s.step a = .next t) :
    Sound t.state t.shadow := by
  obtain ⟨hstep, hshadow, -⟩ := record_spec hcrash ht
  rw [hshadow]
  refine h.sound.step ha.1 hcrash ?_ hstep
  intro q header hact
  have hidle := (Transactions.step_eq_next hcrash hstep).1
  cases a with
  | op q' =>
      simp only [State.logAct] at hact
      split at hact <;> cases hact
      next r hcur =>
        obtain ⟨hphase, -, hid⟩ := h.sound.readHead_spec hidle hcur
        have hdata := (h.sound.data_eq hidle hcur (r := r)
          (by simp [Op.uses])).2
        have hstart : s.state.onDisk s.state.log.log.start =
            s.state.logical s.shadow s.state.log.log.start := by
          have := h.sound.size_pos
          refine h.onDisk_eq hphase (by simp only [Outside]; omega) ?_
          intro r' hcur'
          simp [hcur] at hcur'
        rcases pc_of_phaseOf hphase with hpc | hpc
        · have := h.sound.log.inCommit q _ hpc
          simp [Phase.inCommit] at this
        · obtain ⟨target, -, hr⟩ := h.recovering q _ hpc
          have hheader : getHead (s.state.data q r) =
              (redoLog s.state.log.log h.sound.size_pos).listed
                s.state.onDisk := by
            rw [hdata, hid, ← hstart]
            rfl
          rw [hheader]
          exact ⟨hr.nodup, (hr.replays rfl).home, hr.lt,
            (hr.replays rfl).length_le⟩
  | _ => simp [State.logAct] at hact

theorem Durable.Inv.filled_step (h : s.Inv) (ha : Atomic s a)
    (hcrash : ∀ q, a ≠ .crash q) (ht : s.step a = .next t) {phase : Phase}
    (hp : phaseOf (t.state.log.pc p) = some phase)
    (hphase : phase = .writeHead ∨ phase = .eraseHead)
    (hpos : 2 ≤ t.state.pos p) :
    getHead (t.state.logical t.shadow t.state.log.log.start) =
      t.state.log.log.lh := by
  obtain ⟨hstep, hshadow, -⟩ := record_spec hcrash ht
  obtain ⟨hstart, -, -⟩ := log_area hcrash hstep
  have honest := ha.honest hcrash
  rw [hshadow, hstart]
  rcases phase_cases h.sound honest hstep hp with ⟨hop, hpc⟩ |
      ⟨o, rfl, ho, hpc⟩ | ⟨phase', rfl, -, hadv⟩ | ⟨-, -, hpc, -⟩
  · rw [hpc] at hp
    obtain ⟨hlog, -, -, hpos', -, hlogical⟩ :=
      step_quiet h.sound honest hstep hp hop
    rw [hlogical, hlog]
    exact h.filled p phase hp hphase (hpos' ▸ hpos)
  · have hidle := (Transactions.step_eq_next hcrash hstep).1
    rw [hpc] at hp
    obtain ⟨phase', hp', -, hget, -, hpos', -⟩ := op_shape ho hstep
    obtain rfl : phase' = phase := Option.some.inj (hp'.symm.trans hp)
    obtain ⟨-, hlogical, hlog, -⟩ := transfer_spec h.sound ho hstep
    rw [hlogical, hlog]
    rw [hpos'] at hpos
    by_cases hone : s.state.pos p = 1
    · -- `write_head` fills the block.
      obtain rfl : o = .fillHead 0 := by
        rw [hone] at hget
        rcases hphase with rfl | rfl <;>
          simpa [script] using hget.symm
      obtain ⟨-, -, -, hid⟩ := h.sound.fillHead_spec hidle ho
      simp only [State.logicalAfter, State.headerAfter, hid,
        Function.update_self]
      refine getHead_setHead (h.sound.header.length_le.trans h.size_le) ?_
      intro b hb
      exact (h.sound.header.lt b hb).trans (by decide)
    · have hold := h.filled p phase' hp hphase (by omega)
      have hrest : o = .bwrite 0 ∨ o = .brelse 0 := by
        rcases hphase with rfl | rfl
        · rcases hn : s.state.pos p with _ | _ | _ | _ | n <;>
            rw [hn] at hget hone hpos <;> simp [script] at hget hone hpos <;>
            simp [hget.symm]
        · rcases hn : s.state.pos p with _ | _ | _ | _ | n <;>
            rw [hn] at hget hone hpos <;> simp [script] at hget hone hpos <;>
            simp [hget.symm]
      rcases hrest with rfl | rfl
      · exact hold
      · exact hold
  · rw [hadv.pos_eq] at hpos
    omega
  · rw [hpc] at hp
    obtain rfl : Phase.commit = phase := by simpa [phaseOf] using hp
    rcases hphase with e | e <;> cases e

omit [DecidableEq P] in
/-- The transfers of a commit leave the contents of the home blocks alone. -/
theorem Durable.Inv.logical_home (h : s.Inv) {phase : Phase}
    (hp : s.state.log.pc p = .committing phase)
    (hidle : s.state.cache.call p = .idle) {o : Op}
    (ho : s.state.current p = some o) {b : ℕ}
    (hb : Outside s.state.log.log b) :
    s.state.logicalAfter s.shadow p o b = s.state.logical s.shadow b := by
  have hphase := phaseOf_of_committing hp
  cases o with
  | memmove dst src =>
      obtain ⟨tail, htail, -, ⟨-, -, hid, -⟩ | ⟨hph, -, hid, hdata⟩⟩ :=
        h.sound.memmove_spec hidle ho
      · have hne : b ≠ slot s.state.log.log tail := by
          rintro rfl
          exact slot_inside h.sound.header.length_le htail hb
        simp only [State.logicalAfter, hid, Function.update_of_ne hne]
      · obtain rfl := Option.some.inj (hphase.symm.trans hph)
        have hsame := h.copied p _ hp tail htail htail
        simp only [State.logicalAfter, hid, hdata, hsame]
        exact congrFun (Function.update_eq_self ..) b
  | fillHead r =>
      obtain ⟨-, -, -, hid⟩ := h.sound.fillHead_spec hidle ho
      have hne : b ≠ s.state.log.log.start := by
        rintro rfl
        have := h.sound.size_pos
        simp only [Outside] at hb
        omega
      simp only [State.logicalAfter, hid, Function.update_of_ne hne]
  | _ => rfl

omit [DecidableEq P] in
/-- The write of the header block is the commit point. -/
theorem Durable.Inv.commit_point (h : s.Inv)
    (hp : s.state.log.pc p = .committing .writeHead)
    (hpos : s.state.pos p = 2) (hidle : s.state.cache.call p = .idle)
    {r : Fin 2} (ho : s.state.current p = some (.bwrite r)) :
    Replaying (redoLog s.state.log.log h.sound.size_pos) s.state.log.log.lh
      .writeHead 3 (s.state.diskAfter p (.bwrite r))
      (s.state.logical s.shadow) (s.state.logical s.shadow) := by
  have hphase := phaseOf_of_committing hp
  obtain ⟨hsettled, hrest⟩ := h.unlogged p _ hp (by simp [stage, hpos])
  have hid : (s.state.cache.buf (s.state.reg p r)).id =
      ⟨s.state.log.log.dev, s.state.log.log.start⟩ := by
    obtain ⟨phase, hphase', ⟨_, rfl, -⟩ | ⟨_, rfl, -⟩ | ⟨-, -, hid⟩⟩ :=
      h.sound.bwrite_spec hidle ho
    · simp [hphase] at hphase'
    · simp [hphase] at hphase'
    · exact hid
  have hdata : getHead (s.state.data p r) = s.state.log.log.lh := by
    rw [(h.sound.data_eq hidle ho (r := r) (by simp [Op.uses])).2, hid]
    exact h.filled p _ hphase (.inl rfl) hpos.ge
  have hdecode : (redoLog s.state.log.log h.sound.size_pos).decode
      (s.state.data p r) = s.state.log.log.lh := hdata
  have hreplays : (redoLog s.state.log.log h.sound.size_pos).Replays
      (s.state.diskAfter p (.bwrite r)) (s.state.logical s.shadow) := by
    simp only [State.diskAfter, hid]
    refine hsettled.write_head ?_ ?_ ?_ ?_
    · exact hdecode ▸ h.sound.header.length_le
    · exact hdecode ▸ h.sound.header.outside
    · intro j b hj
      rw [hdecode] at hj
      have hlt := (List.getElem?_eq_some_iff.mp hj).1
      have hslot : s.state.onDisk (slot s.state.log.log j) =
          s.state.logical s.shadow (slot s.state.log.log j) := by
        refine h.onDisk_eq hphase
          (slot_inside h.sound.header.length_le hlt) ?_
        intro r' hcur e
        obtain rfl : r = r' := by simpa [ho] using hcur
        rw [hid] at e
        simp only [BlockId.mk.injEq, true_and, slot] at e
        omega
      have hcopy := h.copied p _ hp j hlt hlt
      have hhome : home s.state.log.log j = b := by
        simp [home, List.getD, hj]
      calc s.state.onDisk (slot s.state.log.log j)
          = s.state.logical s.shadow (slot s.state.log.log j) := hslot
        _ = s.state.logical s.shadow (home s.state.log.log j) := hcopy
        _ = s.state.logical s.shadow b := by rw [hhome]
    · intro b hb hnot
      rw [hdecode] at hnot
      exact ((hrest b hb).resolve_right hnot).symm
  have hlisted : (redoLog s.state.log.log h.sound.size_pos).listed
      (s.state.diskAfter p (.bwrite r)) = s.state.log.log.lh := by
    simp only [State.diskAfter, hid]
    exact RedoLog.listed_update_head.trans hdata
  exact
    { replays := fun _ => hreplays
      nodup := hlisted ▸ h.sound.header.nodup
      lt := hlisted ▸ h.sound.header.lt
      header_eq := fun _ => hlisted
      rest := fun _ _ => .inl rfl
      settled := fun e => by simp [stage] at e }

omit [DecidableEq P] in
/-- Before the commit point, a transfer leaves the home blocks on disk and
the list alone. -/
theorem Durable.Inv.unlogged_transfer (h : s.Inv) {phase : Phase}
    (hp : s.state.log.pc p = .committing phase)
    (hidle : s.state.cache.call p = .idle) {o : Op}
    (ho : s.state.current p = some o)
    (hstage : stage phase (s.state.pos p + 1) = .unlogged) :
    stage phase (s.state.pos p) = .unlogged ∧
      s.state.headerAfter p o = s.state.log.log ∧
      (redoLog s.state.log.log h.sound.size_pos).Settled
        (s.state.diskAfter p o) s.committed := by
  have hphase := phaseOf_of_committing hp
  have hstage' : stage phase (s.state.pos p) = .unlogged := by
    cases phase with
    | writeHead =>
        simp only [stage] at hstage ⊢
        split_ifs at hstage
        rw [if_neg (by omega)]
    | eraseHead =>
        simp only [stage] at hstage
        split_ifs at hstage
    | _ => exact hstage
  have hsettled := (h.unlogged p phase hp hstage').1
  refine ⟨hstage', ?_⟩
  cases o with
  | readHead r =>
      obtain ⟨hph, -⟩ := h.sound.readHead_spec hidle ho
      obtain rfl := Option.some.inj (hphase.symm.trans hph)
      cases hstage
  | bwrite r =>
      refine ⟨rfl, ?_⟩
      obtain ⟨ph, hph, hwhich⟩ := h.sound.bwrite_spec hidle ho
      obtain rfl := Option.some.inj (hphase.symm.trans hph)
      rcases hwhich with ⟨tail, rfl, htail, -, hid⟩ | ⟨tail, rfl, -⟩ |
          ⟨rfl | rfl, htwo, -⟩
      · simp only [State.diskAfter, hid]
        exact hsettled.write_slot (htail.trans_le h.sound.header.length_le)
      · cases hstage
      · simp [stage, htwo] at hstage
      · simp [stage, htwo] at hstage
  | _ => exact ⟨rfl, hsettled⟩

theorem Durable.Inv.recovering_step (h : s.Inv) (ha : Atomic s a)
    (hcrash : ∀ q, a ≠ .crash q) (ht : s.step a = .next t) {phase : Phase}
    (hp : t.state.log.pc p = .recovering phase)
    {hsize : 0 < t.state.log.log.size} :
    ∃ target, (target = t.before ∨ target = t.after) ∧
      Replaying (redoLog t.state.log.log hsize) t.state.log.log.lh phase
        (t.state.pos p) t.state.onDisk (t.state.logical t.shadow) target := by
  obtain ⟨hstep, hshadow, hbefore, hafter, -⟩ := record_spec hcrash ht
  obtain ⟨hstart, hz, -⟩ := log_area hcrash hstep
  have honest := ha.honest hcrash
  have hredo : redoLog t.state.log.log hsize =
      redoLog s.state.log.log h.sound.size_pos := redoLog_congr _ hstart hz
  have hphase : phaseOf (t.state.log.pc p) = some phase := by
    rw [hp]
    rfl
  rw [hshadow, hbefore, hafter, hredo]
  rcases phase_cases h.sound honest hstep hphase with ⟨hop, hpc⟩ |
      ⟨o, rfl, ho, hpc⟩ | ⟨phase', rfl, ho, hadv⟩ | ⟨-, -, hpc, -⟩
  · rw [hpc] at hp hphase
    obtain ⟨hlog, -, -, hpos, hdisk, hlogical⟩ :=
      step_quiet h.sound honest hstep hphase hop
    rw [hlogical, hlog, hpos, hdisk]
    exact h.recovering p phase hp
  · rw [hpc] at hp hphase
    obtain ⟨target, htarget, hr⟩ := h.recovering p phase hp
    refine ⟨target, htarget, ?_⟩
    refine hr.transfer h.sound rfl hphase
      (stage_of_inRecovery (h.sound.log.inRecovery p _ hp))
      (fun b i hb hi => h.clean hphase hb hi)
      (fun i hi => (h.changing i hi).eq_reg h.sound hphase) ?_ ho hstep
    rintro rfl htwo
    rw [h.filled p _ hphase (.inr rfl) htwo]
    exact h.sound.log.cleared p _ (.inr hp) (.inl rfl)
  · obtain ⟨hdisk, hlogical⟩ :=
      contents_of_op_none (g := s.shadow) ho hstep
    rcases hadv.pc with ⟨-, hpc⟩ | ⟨hs, hpc⟩
    · simp [hpc] at hp
    · obtain rfl : (s.state.log.log.advance phase').2 = phase := by
        simpa [hpc] using hp
      obtain ⟨target, htarget, hr⟩ := h.recovering p phase' hs
      refine ⟨target, htarget, ?_⟩
      rw [hadv.log_eq, hadv.pos_eq, hdisk, hlogical]
      exact hr.advance hadv.last
        (stage_of_inRecovery (h.sound.log.inRecovery p _ hs)) hadv.finish
  · simp [hpc] at hp

omit [DecidableEq P] in
theorem completes_eq_false (h : s.Inv) {phase : Phase}
    (hp : phaseOf (s.state.log.pc p) = some phase) (hphase : phase ≠ .finish) :
    s.state.completes a = false := by
  cases a with
  | op q =>
      simp only [State.completes, decide_eq_false_iff_not]
      intro hq
      obtain rfl := h.sound.log.phase_unique hp hq
      exact hphase (Option.some.inj (hp.symm.trans hq))
  | _ => rfl

omit [DecidableEq P] in
/-- The last operation of a transaction leaves no block changed but those in
the list. -/
theorem Durable.Inv.endOp_rest (h : s.Inv) (ha : Atomic s (.endOp p))
    (hp : s.state.log.pc p = .inside)
    (hlast : s.state.log.log.outstanding - 1 = 0) {i : Fin NBUF} :
    s.shadow.touched i = false := by
  by_contra htouched
  have htouched : s.shadow.touched i = true := by simpa using htouched
  have hactive : (s.state.log.pc p).isActive = true := by
    rw [hp]
    rfl
  have hcard : (active s.state.log.pc).card ≤ 1 := by
    rw [← h.sound.log.outstanding_eq]
    omega
  obtain ⟨q, hlock, hq⟩ := h.changing i htouched
  have hqp : q = p := by
    rcases hq with ⟨hq, -⟩ | ⟨r, hcur, -⟩
    · exact Finset.card_le_one.mp hcard q (mem_active.mpr hq) p
        (mem_active.mpr hactive)
    · obtain ⟨phase, hphase, -⟩ := current_eq_some hcur
      have := h.sound.not_active hphase p
      simp [hactive] at this
  exact ha.2 i htouched (hqp ▸ hlock)

theorem Durable.Inv.unlogged_step (h : s.Inv) (ha : Atomic s a)
    (hcrash : ∀ q, a ≠ .crash q) (ht : s.step a = .next t) {phase : Phase}
    (hp : t.state.log.pc p = .committing phase)
    (hstage : stage phase (t.state.pos p) = .unlogged)
    {hsize : 0 < t.state.log.log.size} :
    (redoLog t.state.log.log hsize).Settled t.state.onDisk t.committed ∧
      ∀ b, Outside t.state.log.log b →
        t.state.logical t.shadow b = t.committed b ∨
          b ∈ t.state.log.log.lh := by
  obtain ⟨hstep, hshadow, -, -, hcommitted⟩ := record_spec hcrash ht
  obtain ⟨hstart, hz, -⟩ := log_area hcrash hstep
  have honest := ha.honest hcrash
  have hout : Outside t.state.log.log = Outside s.state.log.log := by
    funext b
    rw [Outside, Outside, hstart, hz]
  rw [hshadow, hcommitted, hout,
    redoLog_congr h.sound.size_pos hstart hz]
  rcases phase_cases h.sound honest hstep (phaseOf_of_committing hp) with
    ⟨hop, hpc⟩ | ⟨o, rfl, ho, hpc⟩ | ⟨phase', rfl, ho, hadv⟩ |
    ⟨rfl, hpc, hpc', hlast, hlh⟩
  · rw [hpc] at hp
    have hphase := phaseOf_of_committing hp
    obtain ⟨hlog, -, -, hpos, hdisk, hlogical⟩ :=
      step_quiet h.sound honest hstep hphase hop
    rw [hpos] at hstage
    have hne : phase ≠ .finish := by
      rintro rfl
      cases hstage
    rw [completes_eq_false h hphase hne, hlogical, hlog, hdisk]
    exact h.unlogged p phase hp hstage
  · rw [hpc] at hp
    have hphase := phaseOf_of_committing hp
    have hidle := (Transactions.step_eq_next hcrash hstep).1
    have hpos : t.state.pos p = s.state.pos p + 1 := by
      obtain ⟨_, -, -, -, -, hpos, -⟩ := op_shape ho hstep
      exact hpos
    rw [hpos] at hstage
    have hne : phase ≠ .finish := by
      rintro rfl
      cases hstage
    obtain ⟨hstage', hheader, hsettled⟩ :=
      h.unlogged_transfer hp hidle ho hstage
    obtain ⟨hdisk, hlogical, hlog, -⟩ := transfer_spec h.sound ho hstep
    rw [completes_eq_false h hphase hne, hlogical, hlog, hheader, hdisk]
    refine ⟨hsettled, fun b hb => ?_⟩
    rw [h.logical_home hp hidle ho hb]
    exact (h.unlogged p phase hp hstage').2 b hb
  · obtain ⟨hdisk, hlogical⟩ :=
      contents_of_op_none (g := s.shadow) ho hstep
    rcases hadv.pc with ⟨hs, hpc⟩ | ⟨-, hpc⟩
    · obtain rfl : (s.state.log.log.advance phase').2 = phase := by
        simpa [hpc] using hp
      rw [completes_eq_false h (phaseOf_of_committing hs) hadv.finish,
        hdisk, hlogical, hadv.log_eq]
      have hbefore : stage phase' (s.state.pos p) = .unlogged ∧
          (s.state.log.log.advance phase').1 = s.state.log.log := by
        cases phase' with
        | commit => exact ⟨rfl, rfl⟩
        | writeLog tail => exact ⟨rfl, rfl⟩
        | installTrans tail =>
            simp only [Log.advance] at hstage
            split_ifs at hstage <;> cases hstage
        | finish => exact absurd rfl hadv.finish
        | eraseHead => cases hstage
        | readHead => cases hstage
        | writeHead => cases hstage
        | clear => simp [Log.advance, stage, hadv.pos_eq] at hstage
      rw [hbefore.2]
      exact h.unlogged p phase' hs hbefore.1
    · simp [hpc] at hp
  · have hactive : (s.state.log.pc p).isActive = true := by
      rw [hpc]
      rfl
    obtain ⟨hsettled, hrest⟩ := h.idle (h.sound.log.booted_of_isActive hactive)
      (h.sound.log.not_committing hactive)
    have hdisk : t.state.onDisk = s.state.onDisk := by
      rcases onDisk_step h.sound hcrash hstep with ⟨hdisk, -⟩ | ⟨_, _, e, -⟩
      · exact hdisk
      · simp [State.cacheAct] at e
    have hlogical : t.state.logical (nextShadow s.shadow s.state (.endOp p)) =
        s.state.logical s.shadow := by
      rcases logical_step (g := s.shadow) hcrash hstep with
        ⟨hlogical, -⟩ | ⟨_, _, _, e, -⟩
      · exact hlogical
      · simp [State.cacheAct] at e
    rw [hdisk, hlogical, hlh]
    refine ⟨hsettled, fun b hb => ?_⟩
    rcases hrest b hb with hb | hb | ⟨i, hi, -⟩
    · exact .inl hb
    · exact .inr hb
    · simp [h.endOp_rest ha hpc hlast] at hi

theorem Durable.Inv.logged_step (h : s.Inv) (ha : Atomic s a)
    (hcrash : ∀ q, a ≠ .crash q) (ht : s.step a = .next t) {phase : Phase}
    (hp : t.state.log.pc p = .committing phase)
    (hstage : stage phase (t.state.pos p) ≠ .unlogged)
    {hsize : 0 < t.state.log.log.size} :
    Replaying (redoLog t.state.log.log hsize) t.state.log.log.lh phase
      (t.state.pos p) t.state.onDisk (t.state.logical t.shadow)
      (t.state.logical t.shadow) := by
  obtain ⟨hstep, hshadow, -⟩ := record_spec hcrash ht
  obtain ⟨hstart, hz, -⟩ := log_area hcrash hstep
  have honest := ha.honest hcrash
  rw [hshadow, redoLog_congr h.sound.size_pos hstart hz]
  rcases phase_cases h.sound honest hstep (phaseOf_of_committing hp) with
    ⟨hop, hpc⟩ | ⟨o, rfl, ho, hpc⟩ | ⟨phase', rfl, ho, hadv⟩ |
    ⟨-, -, hpc, -⟩
  · rw [hpc] at hp
    obtain ⟨hlog, -, -, hpos, hdisk, hlogical⟩ :=
      step_quiet h.sound honest hstep (phaseOf_of_committing hp) hop
    rw [hpos] at hstage ⊢
    rw [hlogical, hlog, hdisk]
    exact h.logged p phase hp hstage
  · rw [hpc] at hp
    have hphase := phaseOf_of_committing hp
    have hidle := (Transactions.step_eq_next hcrash hstep).1
    obtain ⟨phase', hphase', -, hget, -, hpos, -⟩ := op_shape ho hstep
    obtain rfl := Option.some.inj (hphase'.symm.trans hphase)
    obtain ⟨hdisk, hlogical, hlog, -⟩ := transfer_spec h.sound ho hstep
    by_cases hs : stage phase' (s.state.pos p) = .unlogged
    · -- The commit point.
      obtain ⟨rfl, htwo⟩ : phase' = .writeHead ∧ s.state.pos p = 2 := by
        rw [hpos] at hstage
        cases phase' with
        | writeHead =>
            simp only [stage] at hs hstage
            split_ifs at hs hstage
            · exact ⟨rfl, by omega⟩
            · exact absurd rfl hstage
        | eraseHead =>
            simp only [stage] at hs
            split_ifs at hs
        | _ => exact absurd hs hstage
      obtain rfl : o = .bwrite 0 := by
        rw [htwo] at hget
        simpa [script] using hget.symm
      rw [hpos, htwo, hdisk, hlogical, hlog]
      exact h.commit_point hp htwo hidle ho
    · have hr := (h.logged p phase' hp hs).transfer h.sound rfl hphase hs
        (fun b i hb hi => h.clean hphase hb hi)
        (fun i hi => (h.changing i hi).eq_reg h.sound hphase)
        (fun e htwo => by
          subst e
          rw [h.filled p _ hphase (.inr rfl) htwo]
          exact h.sound.log.cleared p _ (.inl hp) (.inl rfl)) ho hstep
      refine hr.congr (fun _ _ => rfl) fun b hb => ?_
      rw [hlogical]
      exact (h.logical_home hp hidle ho hb).symm
  · obtain ⟨hdisk, hlogical⟩ :=
      contents_of_op_none (g := s.shadow) ho hstep
    rcases hadv.pc with ⟨hs, hpc⟩ | ⟨-, hpc⟩
    · obtain rfl : (s.state.log.log.advance phase').2 = phase := by
        simpa [hpc] using hp
      rw [hadv.log_eq, hadv.pos_eq, hdisk, hlogical]
      by_cases hst : stage phase' (s.state.pos p) = .unlogged
      · -- Only an empty transaction gets here before its commit point.
        obtain ⟨hsettled, hrest⟩ := h.unlogged p phase' hs hst
        rw [hadv.pos_eq] at hstage
        cases phase' with
        | commit =>
            have hempty : s.state.log.log.lh = [] := by
              by_contra hne
              have hpos := List.length_pos_iff.mpr hne
              exact hstage (by simp [Log.advance, hpos, stage])
            have hsame : ∀ b, Outside s.state.log.log b →
                s.state.logical s.shadow b = s.committed b := fun b hb =>
              (hrest b hb).resolve_right (by simp [hempty])
            have hsettled' := hsettled.congr fun b hb => (hsame b hb).symm
            simp only [Log.advance, hempty, List.length_nil, lt_irrefl,
              if_false]
            exact
              { replays := fun e => by cases e
                nodup := by simp [hsettled.listed_eq]
                lt := by simp [hsettled.listed_eq]
                header_eq := fun e => e.elim
                rest := fun _ _ => .inl rfl
                settled := fun _ => hsettled' }
        | writeLog tail =>
            exfalso
            apply hstage
            simp only [Log.advance]
            split_ifs <;> rfl
        | writeHead =>
            have hlast : 4 ≤ s.state.pos p := hadv.last
            simp only [stage] at hst
            split_ifs at hst
            omega
        | eraseHead =>
            simp only [stage] at hst
            split_ifs at hst
        | _ => cases hst
      · exact (h.logged p phase' hs hst).advance hadv.last hst hadv.finish
    · simp [hpc] at hp
  · rw [hpc] at hp
    obtain rfl : Phase.commit = phase := by simpa using hp
    exact absurd rfl hstage

omit [DecidableEq P] in
/-- The end of a commit or of a recovery. -/
theorem Durable.Inv.settled_of_completes (h : s.Inv)
    (hp : phaseOf (s.state.log.pc p) = some .finish) :
    (redoLog s.state.log.log h.sound.size_pos).Settled s.state.onDisk
      (s.state.logical s.shadow) := by
  rcases pc_of_phaseOf hp with hpc | hpc
  · exact (h.logged p _ hpc (by simp [stage])).settled rfl
  · obtain ⟨target, -, hr⟩ := h.recovering p _ hpc
    refine (hr.settled rfl).congr fun b hb => ?_
    have hnone := (hr.rest b hb).resolve_right (by
      rintro ⟨j, haw, -⟩
      exact haw)
    exact hnone.symm

/-- A block that a process has changed stays changed until it is in the
list. -/
theorem Durable.Inv.touched_step (h : s.Inv) (ha : Atomic s a)
    (hcrash : ∀ q, a ≠ .crash q) (ht : s.step a = .next t)
    (hbooted : s.state.log.booted = true)
    (hidle : s.state.log.log.committing = false) {i : Fin NBUF}
    (hi : s.shadow.touched i = true) :
    (t.state.cache.buf i).id = (s.state.cache.buf i).id ∧
      (t.shadow.touched i = true ∨
        (s.state.cache.buf i).id.blockno ∈ t.state.log.log.lh) := by
  obtain ⟨hstep, hshadow, -⟩ := record_spec hcrash ht
  obtain ⟨-, hlog, hcache, -⟩ := Transactions.step_eq_next hcrash hstep
  obtain ⟨q, hlock, -⟩ := h.changing i hi
  refine ⟨?_, ?_⟩
  · rcases hcache with ⟨-, hc⟩ | ⟨c, -, hc⟩
    · rw [hc]
    · exact step_id hc (h.sound.refcnt_ne_zero (.inl hlock))
  · rw [hshadow]
    by_contra hnot
    push Not at hnot
    obtain ⟨htouched, hlh⟩ := hnot
    cases hact : s.state.cacheAct a with
    | none =>
        rw [nextShadow_of_none hcrash hact] at htouched
        exact htouched hi
    | some c =>
        rw [nextShadow_of_some hcrash hact] at htouched
        cases c with
        | pin q' j =>
            have hij : i = j := by
              by_contra hij
              simp [Shadow.record, hij, hi] at htouched
            subst hij
            -- `log_write` adds the block to the list.
            obtain ⟨rfl, hreg⟩ : a = .update q' ∧ s.state.reg q' 0 = i := by
              cases a with
              | update q'' =>
                  simp only [State.cacheAct, Option.some.injEq,
                    Cache.Act.pin.injEq] at hact
                  exact ⟨by rw [hact.1], by rw [← hact.1]; exact hact.2⟩
              | op q'' =>
                  simp only [State.cacheAct] at hact
                  split at hact <;> cases hact
              | _ => simp [State.cacheAct] at hact
            rcases hlog with ⟨hnone, -⟩ | ⟨l, hl, hstep'⟩
            · simp [State.logAct] at hnone
            · obtain rfl : Logging.Act.update q' = l := by
                simpa [State.logAct] using hl
              simp only [Logging.step] at hstep'
              split at hstep'
              · next b hq =>
                  apply hlh
                  rw [← Outcome.next.inj hstep', ← hreg,
                    (h.sound.pending q' b hq).2.1]
                  exact mem_absorb.mpr (.inr rfl)
              · cases hstep'
        | bwrite q' j =>
            obtain ⟨-, r, hcur, -⟩ :=
              (ha.honest hcrash).unwritten.cacheAct_bwrite hact
            obtain ⟨phase, hphase, -⟩ := current_eq_some hcur
            rcases pc_of_phaseOf hphase with hpc | hpc
            · have := h.sound.log.committing_of_pc q' _ hpc
              simp [hidle] at this
            · have := h.sound.log.not_booted_of_pc q' _ hpc
              simp [hbooted] at this
        | modify q' j data =>
            by_cases hij : i = j
            · subst hij
              simp [Shadow.record] at htouched
            · simp [Shadow.record, hij, hi] at htouched
        | _ => simp [Shadow.record, hi] at htouched

theorem Durable.Inv.idle_step (h : s.Inv) (ha : Atomic s a)
    (hcrash : ∀ q, a ≠ .crash q) (ht : s.step a = .next t)
    (hbooted : t.state.log.booted = true)
    (hidle : t.state.log.log.committing = false)
    {hsize : 0 < t.state.log.log.size} :
    (redoLog t.state.log.log hsize).Settled t.state.onDisk t.committed ∧
      ∀ b, Outside t.state.log.log b →
        t.state.logical t.shadow b = t.committed b ∨
          b ∈ t.state.log.log.lh ∨
          ∃ i, t.shadow.touched i = true ∧
            (t.state.cache.buf i).id = ⟨t.state.log.log.dev, b⟩ := by
  obtain ⟨hstep, hshadow, -, -, hcommitted⟩ := record_spec hcrash ht
  obtain ⟨hstart, hz, hdev⟩ := log_area hcrash hstep
  have honest := ha.honest hcrash
  rw [redoLog_congr h.sound.size_pos hstart hz, hdev]
  rcases idle_cases h.sound honest hstep hbooted hidle with
    ⟨hb, hc⟩ | ⟨p, rfl, hp⟩
  · have hphase : ∀ q, phaseOf (s.state.log.pc q) = none := by
      intro q
      by_contra hq
      obtain ⟨phase, hq⟩ := Option.ne_none_iff_exists'.mp hq
      rcases pc_of_phaseOf hq with hpc | hpc
      · have := h.sound.log.committing_of_pc q _ hpc
        simp [hc] at this
      · have := h.sound.log.not_booted_of_pc q _ hpc
        simp [hb] at this
    have hcurrent : ∀ q, s.state.current q = none := by
      intro q
      simp [State.current, hphase q]
    have hcompletes : s.state.completes a = false := by
      cases a with
      | op q => simp [State.completes, hphase q]
      | _ => rfl
    obtain ⟨hsettled, hrest⟩ := h.idle hb hc
    have hdisk : t.state.onDisk = s.state.onDisk := by
      rcases onDisk_step h.sound hcrash hstep with ⟨hdisk, -⟩ |
          ⟨q, i, hact, -⟩
      · exact hdisk
      · obtain ⟨-, r, hcur, -⟩ := honest.unwritten.cacheAct_bwrite hact
        simp [hcurrent q] at hcur
    rw [hcommitted, hcompletes, hdisk]
    refine ⟨hsettled, fun b hb' => ?_⟩
    have hb' : Outside s.state.log.log b := by
      rwa [Outside, hstart, hz] at hb'
    -- A block that was changed before the step.
    have hkeep : s.state.logical s.shadow b ≠ s.committed b →
        b ∈ t.state.log.log.lh ∨ ∃ i, t.shadow.touched i = true ∧
          (t.state.cache.buf i).id = ⟨s.state.log.log.dev, b⟩ := by
      intro hne
      rcases (hrest b hb').resolve_left hne with hmem | ⟨i, hi, hid⟩
      · left
        obtain ⟨-, ⟨-, hl⟩ | ⟨l, hact, hl⟩, -⟩ :=
          Transactions.step_eq_next hcrash hstep
        · rwa [hl]
        · rcases step_lh hl with hlh | ⟨q, -, hq, -⟩ | ⟨q, b', -, -, hlh⟩ |
              ⟨q, header, rfl, -⟩
          · rwa [hlh]
          · simp [hphase q] at hq
          · rw [hlh]
            exact mem_absorb.mpr (.inl hmem)
          · simp only [Logging.step] at hl
            split_ifs at hl with hq
            have := hphase q
            simp [hq, phaseOf] at this
      · obtain ⟨hid', htouched | hmem⟩ :=
          h.touched_step ha hcrash ht hb hc hi
        · exact .inr ⟨i, htouched, hid'.trans hid⟩
        · rw [hid] at hmem
          exact .inl hmem
    rcases logical_step (g := s.shadow) hcrash hstep with
      ⟨hlogical, -⟩ | ⟨q, i, data, hact, hlogical⟩
    · rw [hshadow, hlogical, ← hshadow]
      by_cases hne : s.state.logical s.shadow b = s.committed b
      · exact .inl hne
      · exact .inr (hkeep hne)
    · obtain rfl : a = .modify q i data := by
        rcases cacheAct_modify hact with haq |
            ⟨-, ⟨_, _, hcur, -⟩ | ⟨_, hcur, -⟩⟩
        · exact haq
        · simp [hcurrent q] at hcur
        · simp [hcurrent q] at hcur
      obtain ⟨-, hidev, -⟩ := ha.2
      have hlogical := hlogical hidev
      rw [hshadow, hlogical, ← hshadow]
      by_cases hbi : b = (s.state.cache.buf i).id.blockno
      · right
        right
        have hid : (t.state.cache.buf i).id = (s.state.cache.buf i).id := by
          obtain ⟨-, -, ⟨hnone, -⟩ | ⟨c, hc', hcstep⟩, -⟩ :=
            Transactions.step_eq_next hcrash hstep
          · simp [State.cacheAct] at hnone
          · obtain rfl := Option.some.inj (hact.symm.trans hc')
            simp only [Cache.step] at hcstep
            split_ifs at hcstep
            rw [← Outcome.next.inj hcstep]
            simp [Cache.State.setBuf]
        refine ⟨i, ?_, ?_⟩
        · rw [hshadow]
          simp [nextShadow, State.cacheAct, Shadow.record]
        · rw [hid, hbi, ← hidev]
      · rw [Function.update_of_ne hbi]
        by_cases hne : s.state.logical s.shadow b = s.committed b
        · exact .inl hne
        · exact .inr (hkeep hne)
  · have ho : s.state.current p = none := by
      simp [State.current, hp, script]
    obtain ⟨hdisk, hlogical⟩ :=
      contents_of_op_none (g := s.shadow) ho hstep
    have hcompletes : s.state.completes (.op p) = true := by
      simp [State.completes, hp]
    rw [hcommitted, hcompletes, hshadow, hdisk, hlogical]
    exact ⟨h.settled_of_completes hp, fun _ _ => .inl rfl⟩

theorem Durable.Inv.step (h : s.Inv) (ha : Atomic s a)
    (ht : s.step a = .next t) : t.Inv := by
  by_cases hcrash : ∃ q, a = .crash q
  · obtain ⟨q, rfl⟩ := hcrash
    have hrecord := (Durable.step_eq_next ht).2
    have hstate : t.state = s.state.restart q :=
      (Outcome.next.inj (Durable.step_eq_next ht).1).symm
    rw [hrecord, hstate]
    exact h.crash q
  · have hcrash : ∀ q, a ≠ .crash q := fun q e => hcrash ⟨q, e⟩
    have honest := ha.honest hcrash
    obtain ⟨hstep, hshadow, -⟩ := record_spec hcrash ht
    obtain ⟨-, hz, -⟩ := log_area hcrash hstep
    have hend : ∀ q, a = .endOp q → ∀ i, s.shadow.touched i = true →
        (s.state.cache.buf i).lock ≠ some q := by
      rintro q rfl
      exact ha.2
    have hlogWrite : ∀ q i, a = .logWrite q i →
        (s.state.cache.buf i).id.dev = s.state.log.log.dev := by
      rintro q i rfl
      exact ha.2
    have hprotected : Protected s.state a := by
      cases a with
      | modify q i data =>
          intro _
          refine ⟨ha.2.2.2, fun hc => ?_⟩
          have hactive : (s.state.log.pc q).isActive = true := by
            rw [ha.2.1]
            rfl
          simp [h.sound.log.not_committing hactive] at hc
      | _ => exact trivial
    exact
      { sound := h.sound_step ha hcrash ht
        size_le := hz ▸ h.size_le
        copied := hshadow ▸ h.copied.step h.sound hcrash hprotected hstep
        changing := fun i hi => changing_step h.sound ha.1 honest hend hstep
          h.changing (hshadow ▸ hi)
        pinned := fun i hi => pinned_step h.sound honest.unwritten h.pending_dev hstep
          h.pinned hi
        pending_dev := fun q b hq => pending_dev_step h.sound honest.unwritten hlogWrite
          h.pending_dev hstep hq
        filled := fun p phase hp => h.filled_step ha hcrash ht hp
        idle := fun hb hc => h.idle_step ha hcrash ht hb hc
        unlogged := fun p phase hp hs => h.unlogged_step ha hcrash ht hp hs
        logged := fun p phase hp hs => h.logged_step ha hcrash ht hp hs
        recovering := fun p phase hp => h.recovering_step ha hcrash ht hp }

end Inv

/-! ## Crash atomicity -/

/-- Whenever `initlog` is done, after any number of crashes at any points,
the list on disk is empty and the home blocks have the contents just before or
just after the transaction that was being committed. -/
theorem initlog_restores {P : Type*} [Fintype P] [DecidableEq P]
    {s t u : Durable P} {w : List (Act P)} (hs : s.Initial)
    (hw : Meets Durable.step Atomic s w) (hrun : Run Durable.step s w t)
    {p : P} (hp : t.state.log.pc p = .recovering .finish)
    (ht : t.step (.op p) = .next u) :
    getHead (u.state.onDisk u.state.log.log.start) = [] ∧
      ((∀ b, Outside u.state.log.log b → u.state.onDisk b = u.before b) ∨
        ∀ b, Outside u.state.log.log b → u.state.onDisk b = u.after b) := by
  have hinv : t.Inv := hrun.invariant_of_meets (I := Durable.Inv)
    (fun _ _ _ h ha hstep => h.step ha hstep) hw hs.inv
  obtain ⟨hstep, -, hbefore, hafter, -⟩ := record_spec (by simp) ht
  obtain ⟨hstart, hsize, -⟩ := log_area (by simp) hstep
  have ho : t.state.current p = none := by
    simp [State.current, hp, phaseOf, script]
  have hdisk := (contents_of_op_none (g := t.shadow) ho hstep).1
  have hout : Outside u.state.log.log = Outside t.state.log.log := by
    funext b
    rw [Outside, Outside, hstart, hsize]
  obtain ⟨target, htarget, hr⟩ := hinv.recovering p _ hp
  have hsettled := hr.settled rfl
  rw [hdisk, hstart, hout, hbefore, hafter]
  refine ⟨hsettled.listed_eq, ?_⟩
  rcases htarget with rfl | rfl
  · exact .inl hsettled.home_eq
  · exact .inr hsettled.home_eq

instance {P : Type*} [DecidableEq P] (s : Durable P) :
    ∀ a, Decidable (Journaled s a)
  | .modify _ _ _ =>
      have : ∀ log b, Decidable (Outside log b) :=
        fun _ _ => inferInstanceAs (Decidable (_ ∨ _))
      inferInstanceAs (Decidable (_ ∧ _ ∧ _))
  | .bwrite _ _ => .isFalse id
  | .logWrite _ _ => inferInstanceAs (Decidable (_ = _))
  | .endOp _ => inferInstanceAs (Decidable (∀ _, _ → _))
  | .bread _ _ | .brelse _ _ | .update _ | .beginOp _ | .acquiresleep _
  | .load _ | .release _ | .op _ | .crash _ => .isTrue trivial

instance {P : Type*} [DecidableEq P] (s : Durable P) (a : Act P) :
    Decidable (Atomic s a) :=
  inferInstanceAs (Decidable (_ ∧ _))

/-- A machine after `initlog`, with an empty disk. -/
def Durable.zero (P : Type*) : Durable P where
  state := State.zero P
  shadow := ⟨fun _ => fun _ => 0, fun _ => false⟩
  committed := fun _ => fun _ => 0
  before := fun _ => fun _ => 0
  after := fun _ => fun _ => 0

theorem Durable.zero_initial {P : Type*} : (Durable.zero P).Initial where
  booted := State.zero_booted
  size_le := Nat.sub_le LOGSIZE 1
  head := by
    have hzero : getHead (fun _ => 0) = [] := by decide +kernel
    exact hzero
  store _ := rfl
  touched _ := rfl
  committed := rfl

/-- The read of the header in recovery. -/
def opReadHead {P : Type} (p : P) : List (Act P) :=
  opBreads p ++ [.op p, .op p, .release p, .op p]

/-- The end of recovery, from the last turn of `install_trans` on. -/
def opErase {P : Type} (p : P) : List (Act P) :=
  [.op p, .op p] ++ opBreads p ++ [.op p, .op p, .op p, .release p, .op p]

/-- The machine stops right after the commit point, and once more in the
middle of the recovery from that. -/
def twoCrashes : List (Act (Fin 2)) :=
  oneOperation 0 (fun _ => 1) ++ opLog 0 ++ [.crash 1] ++ opReadHead 1 ++
    opBreads 1 ++ opBreads 1 ++ [.op 1, .op 1, .crash 0] ++ opReadHead 0 ++
    opCopy 0 ++ opErase 0

/-- The first byte of block 40 before the transaction and on the disk, after
the recovery that process 0 is about to complete. -/
def restoredByte (t : Durable (Fin 2)) : Option (BitVec 8 × BitVec 8) :=
  match t.state.log.pc 0, t.step (.op 0) with
  | .recovering .finish, .next u =>
      some (u.before 40 ⟨0, BSIZE_pos⟩, u.state.onDisk 40 ⟨0, BSIZE_pos⟩)
  | _, _ => none

theorem initlog_restores_twoCrashes :
    ∃ t u, Run Durable.step (Durable.zero (Fin 2)) twoCrashes t ∧
      t.step (.op 0) = .next u ∧
      ((∀ b, Outside u.state.log.log b → u.state.onDisk b = u.before b) ∨
        ∀ b, Outside u.state.log.log b → u.state.onDisk b = u.after b) ∧
      u.before 40 ⟨0, by decide⟩ = 0 ∧
      u.state.onDisk 40 ⟨0, by decide⟩ = 1 := by
  obtain ⟨t, hrun, ht⟩ := Run.exists_of_exec Durable.step
    (Durable.zero (Fin 2)) twoCrashes
    (fun t => restoredByte t = some (0, 1)) (by decide +kernel)
  have ht : restoredByte t = some (0, 1) := by simpa using ht
  unfold restoredByte at ht
  split at ht
  · next u hp hu =>
      have hrestored := (initlog_restores Durable.zero_initial
        (by decide +kernel) hrun hp hu).2
      simp only [Option.some.injEq, Prod.mk.injEq] at ht
      exact ⟨t, u, hrun, hu, hrestored, ht.1, ht.2⟩
  · cases ht

end ZtlOs.Transactions
