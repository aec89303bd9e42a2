import ZtlOs.Log.Disk

/-!
# How a commit and a recovery proceed

What the transfers have done so far is read off the phase and the position in
it.  From the commit point on, the disk replays to the new contents, and the
lemmas here show that every transfer and every end of a phase keep this.
-/

namespace ZtlOs.Transactions

open ZtlOs.Support ZtlOs.Fs ZtlOs.Cache ZtlOs.Logging

/-! ## How far a commit or a recovery has come -/

/-- The list on the disk is that of the last transaction, is not empty, or is
empty again. -/
inductive Stage where
  | unlogged
  | logged
  | erased
  deriving DecidableEq

def stage : Phase → ℕ → Stage
  | .commit, _ | .writeLog _, _ => .unlogged
  | .writeHead, pos => if 3 ≤ pos then .logged else .unlogged
  | .readHead, _ | .installTrans _, _ | .clear, _ => .logged
  | .eraseHead, pos => if 3 ≤ pos then .erased else .logged
  | .finish, _ => .erased

/-- `install_trans` has not made its transfer `k` for the slot `j`. -/
def awaits (k : ℕ) : Phase → ℕ → ℕ → Prop
  | .installTrans tail, pos, j => if k < pos then tail < j else tail ≤ j
  | .clear, _, _ | .eraseHead, _, _ | .finish, _, _ => False
  | _, _, _ => True

/-- The list in memory is the one on the disk. -/
def hasHeader : Phase → ℕ → Prop
  | .readHead, pos => 2 ≤ pos
  | .writeHead, _ | .installTrans _, _ | .clear, _ => True
  | _, _ => False

/-- After the commit point, and in recovery: the disk replays to `target`, and
the store has these contents but for the blocks still to be copied. -/
structure Replaying (l : RedoLog ℕ Block) (lh : List ℕ) (phase : Phase)
    (pos : ℕ) (disk logical target : ℕ → Block) : Prop where
  replays : stage phase pos = .logged → l.Replays disk target
  nodup : (l.listed disk).Nodup
  lt : ∀ b ∈ l.listed disk, b < FSSIZE
  header_eq : hasHeader phase pos → l.listed disk = lh
  rest : ∀ b, l.home b → logical b = target b ∨
    ∃ j, awaits 2 phase pos j ∧ (l.listed disk)[j]? = some b
  settled : stage phase pos = .erased → l.Settled disk target

section Progress

variable {log : Log} {phase : Phase} {pos : ℕ} {o : Op}

/-- The transfers after which a phase has come further. -/
def Op.counts : Op → Bool
  | .bread _ _ | .brelse _ => false
  | _ => true

theorem progress_eq (h : (script log phase)[pos]? = some o)
    (ho : o.counts = false) :
    stage phase (pos + 1) = stage phase pos ∧
      (∀ j, awaits 2 phase (pos + 1) j ↔ awaits 2 phase pos j) ∧
      (∀ j, awaits 3 phase (pos + 1) j ↔ awaits 3 phase pos j) ∧
      (hasHeader phase (pos + 1) ↔ hasHeader phase pos) := by
  cases phase with
  | writeLog tail => exact ⟨rfl, fun _ => .rfl, fun _ => .rfl, .rfl⟩
  | installTrans tail =>
      simp only [script] at h
      split_ifs at h
      · rcases pos with _ | _ | _ | _ | _ | _ | pos <;> simp at h <;>
          subst h <;> simp [Op.counts] at ho <;> simp [stage, awaits, hasHeader]
      · simp at h
  | writeHead =>
      rcases pos with _ | _ | _ | _ | pos <;> simp [script] at h <;>
        subst h <;> simp [Op.counts] at ho <;> simp [stage, awaits, hasHeader]
  | eraseHead =>
      rcases pos with _ | _ | _ | _ | pos <;> simp [script] at h <;>
        subst h <;> simp [Op.counts] at ho <;> simp [stage, awaits, hasHeader]
  | readHead =>
      rcases pos with _ | _ | _ | pos <;> simp [script] at h <;>
        subst h <;> simp [Op.counts] at ho <;> simp [stage, awaits, hasHeader]
  | _ => simp [script] at h

end Progress

/-! ## Steps beside a commit or a recovery -/

section Quiet

variable {P : Type*} [Fintype P] {s t : State P} {g : Shadow Block}
variable {a : Act P} {p : P}

/-- Blocks are changed by processes inside of an operation, and written by
the log code. -/
structure Honest (s : State P) (a : Act P) : Prop where
  modify : ∀ q i data, a = .modify q i data → s.log.pc q = .inside ∧
    (s.cache.buf i).id.dev = s.log.log.dev ∧
    Outside s.log.log (s.cache.buf i).id.blockno
  bwrite : ∀ q i, a ≠ .bwrite q i
  crash : ∀ q, a ≠ .crash q

/-- Only the log code writes to the disk, and there is no crash. -/
structure Unwritten (a : Act P) : Prop where
  bwrite : ∀ q i, a ≠ .bwrite q i
  crash : ∀ q, a ≠ .crash q

omit [Fintype P] in
theorem Honest.unwritten (ha : Honest s a) : Unwritten a :=
  ⟨ha.bwrite, ha.crash⟩

omit [Fintype P] in
/-- Only a transfer writes to the disk. -/
theorem Unwritten.cacheAct_bwrite (ha : Unwritten a) {q : P} {i : Fin NBUF}
    (h : s.cacheAct a = some (.bwrite q i)) :
    a = .op q ∧ ∃ r, s.current q = some (.bwrite r) ∧ i = s.reg q r := by
  cases a with
  | bwrite p j => exact absurd rfl (ha.bwrite p j)
  | op p =>
      simp only [State.cacheAct] at h
      split at h <;> cases h
      next hcur => exact ⟨rfl, _, hcur, rfl⟩
  | _ => simp [State.cacheAct] at h

/-- While a process is in a phase, no process is in an operation. -/
theorem Sound.not_active (h : Sound s g) {phase : Phase}
    (hp : phaseOf (s.log.pc p) = some phase) (q : P) :
    (s.log.pc q).isActive = false := by
  by_contra hq
  have hq : (s.log.pc q).isActive = true := by simpa using hq
  rcases pc_of_phaseOf hp with hpc | hpc
  · have := h.log.not_committing hq
    simp [h.log.committing_of_pc p _ hpc] at this
  · have := h.log.booted_of_isActive hq
    simp [h.log.not_booted_of_pc p _ hpc] at this

/-- A buffer changed by an operation that has not yet passed it on, or by a
transfer that is followed by a write. -/
def Changing (s : State P) (i : Fin NBUF) : Prop :=
  ∃ q, (s.cache.buf i).lock = some q ∧
    ((s.log.pc q).isActive = true ∧
        (s.cache.buf i).id.dev = s.log.log.dev ∧
        Outside s.log.log (s.cache.buf i).id.blockno ∨
      ∃ r, s.current q = some (.bwrite r) ∧ s.reg q r = i)

/-- In a phase, only the buffer that is written next has been changed. -/
theorem Changing.eq_reg {i : Fin NBUF} (hi : Changing s i) (h : Sound s g) {phase : Phase}
    (hp : phaseOf (s.log.pc p) = some phase) :
    ∃ r, s.current p = some (.bwrite r) ∧ s.reg p r = i := by
  obtain ⟨q, -, ⟨hq, -⟩ | ⟨r, hcur, hreg⟩⟩ := hi
  · simp [h.not_active hp q] at hq
  · obtain ⟨phase', hphase', -⟩ := current_eq_some hcur
    obtain rfl := h.log.phase_unique hp hphase'
    exact ⟨r, hcur, hreg⟩

variable [DecidableEq P]

/-- What the others do, and the waits of the process itself, leave the log
and the disk alone. -/
theorem step_still (h : Sound s g) (ha : Unwritten a) (ht : step s a = .next t)
    {phase : Phase} (hp : phaseOf (s.log.pc p) = some phase)
    (hop : a ≠ .op p) :
    t.log.log = s.log.log ∧ t.log.booted = s.log.booted ∧
      t.log.pc p = s.log.pc p ∧ t.pos p = s.pos p ∧ t.onDisk = s.onDisk := by
  obtain ⟨-, hlog, -, hsettle⟩ := step_eq_next ha.crash ht
  have hdisk : t.onDisk = s.onDisk := by
    rcases onDisk_step h ha.crash ht with ⟨hdisk, -⟩ | ⟨q, i, hact, -⟩
    · exact hdisk
    · obtain ⟨haq, r, hcur, -⟩ := ha.cacheAct_bwrite (s := s) hact
      obtain ⟨phase', hphase', -⟩ := current_eq_some hcur
      obtain rfl := h.log.phase_unique hp hphase'
      exact absurd haq hop
  have hpos : t.pos p = s.pos p := by
    rw [hsettle]
    by_cases hactor : p = a.actor
    · cases a with
      | op q =>
          obtain rfl : p = q := hactor
          exact absurd rfl hop
      | _ => rfl
    · exact (settle_of_ne t.log t.cache hactor).2
  rcases hlog with ⟨-, hl⟩ | ⟨l, hact, hl⟩
  · rw [hl]
    exact ⟨rfl, rfl, rfl, hpos, hdisk⟩
  · have hactor : p ≠ a.actor := by
      intro hactor
      rcases eq_of_phase ha.crash ht hp hactor with rfl | rfl | rfl | rfl
      · simp [State.logAct] at hact
      · simp [State.logAct] at hact
      · simp [State.logAct] at hact
      · exact hop rfl
    obtain ⟨hlog, hbooted, hpc⟩ :=
      h.log.step_of_phase hl hp (logAct_actor hact ▸ hactor)
    exact ⟨hlog, hbooted, hpc, hpos, hdisk⟩

/-- They leave the contents of the store alone as well. -/
theorem step_quiet (h : Sound s g) (ha : Honest s a) (ht : step s a = .next t)
    {phase : Phase} (hp : phaseOf (s.log.pc p) = some phase)
    (hop : a ≠ .op p) :
    t.log.log = s.log.log ∧ t.log.booted = s.log.booted ∧
      t.log.pc p = s.log.pc p ∧ t.pos p = s.pos p ∧ t.onDisk = s.onDisk ∧
      t.logical (nextShadow g s a) = s.logical g := by
  obtain ⟨hlog, hbooted, hpc, hpos, hdisk⟩ :=
    step_still h ha.unwritten ht hp hop
  refine ⟨hlog, hbooted, hpc, hpos, hdisk, ?_⟩
  have hother : ∀ q o, a = .op q → s.current q ≠ some o := by
    rintro q o rfl hcur
    obtain ⟨phase', hphase', -⟩ := current_eq_some hcur
    exact hop (by rw [h.log.phase_unique hp hphase'])
  rcases logical_step (g := g) ha.crash ht with
    ⟨hlogical, -⟩ | ⟨q, i, data, hact, -⟩
  · exact hlogical
  · rcases cacheAct_modify hact with haq |
        ⟨haq, ⟨_, _, hcur, -⟩ | ⟨_, hcur, -⟩⟩
    · have := h.not_active hp q
      simp [(ha.modify q i data haq).1, Pc.isActive] at this
    · exact absurd hcur (hother q _ haq)
    · exact absurd hcur (hother q _ haq)

end Quiet

/-! ## Changed and dirty buffers -/

section Buffers

variable {P : Type*} [Fintype P] [DecidableEq P] {s t : State P}
variable {g : Shadow Block} {a : Act P} {p : P}

omit [Fintype P] in
theorem Changing.of_modify (ha : Honest s a)
    (ht : step s a = .next t) {q : P} {i : Fin NBUF} {data : Block}
    (hact : s.cacheAct a = some (.modify q i data)) : Changing t i := by
  obtain ⟨hstart, hsize, hdev⟩ := log_area ha.crash ht
  obtain ⟨-, hlog, hcache, hsettle⟩ := step_eq_next ha.crash ht
  have hbuf : (t.cache.buf i).lock = some q ∧
      (t.cache.buf i).id = (s.cache.buf i).id := by
    rcases hcache with ⟨hnone, -⟩ | ⟨c, hc, hstep⟩
    · simp [hact] at hnone
    · obtain rfl := Option.some.inj (hact.symm.trans hc)
      simp only [Cache.step] at hstep
      split_ifs at hstep with hholds
      rw [← Outcome.next.inj hstep]
      simpa [Cache.State.setBuf] using hholds.2
  rcases cacheAct_modify hact with rfl |
      ⟨rfl, hcur⟩
  · obtain ⟨hpc, hid, hout⟩ := ha.modify q i data rfl
    have hl : t.log = s.log := by
      rcases hlog with ⟨-, hl⟩ | ⟨l, hl, -⟩
      · exact hl
      · simp [State.logAct] at hl
    refine ⟨q, hbuf.1, .inl ⟨?_, ?_, ?_⟩⟩
    · rw [hl, hpc]
      rfl
    · rw [hbuf.2, hdev, hid]
    · rwa [hbuf.2, Outside, hstart, hsize]
  · have hgoal : ∀ {o r}, s.current q = some o → o.changes = some r →
        i = s.reg q r → Changing t i := by
      intro o r ho hr hi
      obtain ⟨phase, -, hphase', hop, hscript, hpos, -, -⟩ := op_shape ho ht
      refine ⟨q, hbuf.1, .inr ⟨r, ?_, ?_⟩⟩
      · simp only [State.current, hphase', Option.bind_some, hscript, hpos]
        exact script_changes hop hr
      · rw [hsettle, hi]
        cases o <;> simp [Op.changes] at hr <;> simp [State.settle, ho]
    rcases hcur with ⟨dst, src, hcur, hi, -⟩ | ⟨r, hcur, hi, -⟩
    · exact hgoal hcur rfl hi
    · exact hgoal hcur rfl hi

/-- A buffer that stays changed stays in the hands of its process. -/
theorem changing_step (h : Sound s g) (hd : Disciplined s g a)
    (ha : Honest s a)
    (hend : ∀ q, a = .endOp q → ∀ i, g.touched i = true →
      (s.cache.buf i).lock ≠ some q)
    (ht : step s a = .next t)
    (hchanging : ∀ i, g.touched i = true → Changing s i) {i : Fin NBUF}
    (hi : (nextShadow g s a).touched i = true) : Changing t i := by
  rcases touched_of_nextShadow ha.crash hi with hold | ⟨data, hact⟩
  · obtain ⟨hstart, hsize, hdev⟩ := log_area ha.crash ht
    obtain ⟨henabled, hlog, hcache, hsettle⟩ := step_eq_next ha.crash ht
    obtain ⟨q, hlock, hq⟩ := hchanging i hold
    have hid : (t.cache.buf i).id = (s.cache.buf i).id := by
      rcases hcache with ⟨-, hc⟩ | ⟨c, -, hc⟩
      · rw [hc]
      · exact step_id hc (h.refcnt_ne_zero (.inl hlock))
    have hlock' : (t.cache.buf i).lock = some q := by
      rcases hcache with ⟨-, hc⟩ | ⟨c, hact, hc⟩
      · rwa [hc]
      · refine (step_lock hc hlock).resolve_right ?_
        rintro rfl
        have := h.clean hd henabled hact
        simp [hold] at this
    refine ⟨q, hlock', ?_⟩
    rcases hq with ⟨hactive, hdev', hout⟩ | ⟨r, hcur, hreg⟩
    · left
      rw [hid, hdev]
      refine ⟨?_, hdev', ?_⟩
      · rcases hlog with ⟨-, hl⟩ | ⟨l, hact, hl⟩
        · rwa [hl]
        · refine (isActive_of_step hl hactive).resolve_right ?_
          rintro rfl
          cases a with
          | endOp q' =>
              simp only [State.logAct, Option.some.injEq,
                Logging.Act.endOp.injEq] at hact
              subst hact
              exact hend q' rfl i hold hlock
          | op q' =>
              simp only [State.logAct] at hact
              split at hact <;> cases hact
          | _ => simp [State.logAct] at hact
      · rwa [Outside, hstart, hsize]
    · right
      obtain ⟨phase, hphase, hop⟩ := current_eq_some hcur
      have hne : a ≠ .op q := by
        rintro rfl
        simp [nextShadow, State.cacheAct, hcur, Shadow.record, hreg] at hi
      obtain ⟨hlog', -, hpc, hpos, -⟩ := step_quiet h ha ht hphase hne
      refine ⟨r, ?_, ?_⟩
      · simp only [State.current, hpc, hphase, Option.bind_some, hlog', hpos]
        exact hop
      · have hreg' : t.reg q = s.reg q := by
          rw [hsettle]
          by_cases hactor : q = a.actor
          · rcases eq_of_phase ha.crash ht hphase hactor with
              rfl | rfl | rfl | rfl
            · rfl
            · rfl
            · rfl
            · exact absurd rfl hne
          · exact (settle_of_ne t.log t.cache hactor).1
        rw [hreg', hreg]
  · exact Changing.of_modify ha ht hact

/-- A dirty buffer holds a block of the header that has not been copied. -/
def Pinned (s : State P) (i : Fin NBUF) : Prop :=
  s.log.booted = true ∧ (s.cache.buf i).id.dev = s.log.log.dev ∧
    ∃ j, s.log.log.lh[j]? = some (s.cache.buf i).id.blockno ∧
      ∀ q phase, s.log.pc q = .committing phase → awaits 3 phase (s.pos q) j

/-- A slot still awaits its copy, unless a step writes its block. -/
theorem awaits_step (h : Sound s g) (ha : Unwritten a) (ht : step s a = .next t)
    {j b : ℕ} (hj : s.log.log.lh[j]? = some b)
    (hwrite : ∀ q r, a = .op q → s.current q = some (.bwrite r) →
      (s.cache.buf (s.reg q r)).id ≠ ⟨s.log.log.dev, b⟩)
    (hawaits : ∀ q phase, s.log.pc q = .committing phase →
      awaits 3 phase (s.pos q) j) {q : P} {phase : Phase}
    (hq : t.log.pc q = .committing phase) : awaits 3 phase (t.pos q) j := by
  obtain ⟨hidle, hlog, -, hsettle⟩ := step_eq_next ha.crash ht
  have hjlt : j < s.log.log.lh.length := (List.getElem?_eq_some_iff.mp hj).1
  by_cases hop : a = .op q
  · subst hop
    cases ho : s.current q with
    | some o =>
        have hs : s.log.pc q = .committing phase := pc_of_current ho ht ▸ hq
        have haw := hawaits q phase hs
        obtain ⟨phase', hphase, -, hget, -, hpos, -⟩ := op_shape ho ht
        obtain rfl : phase' = phase := by
          simpa [phaseOf_of_committing hs] using hphase.symm
        rw [hpos]
        cases phase' with
        | installTrans tail =>
            by_cases hthree : s.pos q = 3
            · -- The write of the home block of `tail`.
              obtain ⟨r, rfl⟩ : ∃ r, o = .bwrite r := by
                rw [hthree] at hget
                simp only [script] at hget
                split_ifs at hget
                · simp only [List.getElem?_cons_succ, List.getElem?_cons_zero,
                    Option.some.injEq] at hget
                  exact ⟨1, hget.symm⟩
                · simp at hget
              obtain ⟨ph, hph, hw⟩ := h.bwrite_spec hidle ho
              obtain rfl := Option.some.inj (hphase.symm.trans hph)
              rcases hw with ⟨_, e, -⟩ | ⟨tail', e, htail, -, hid⟩ | ⟨e, -⟩
              · cases e
              · cases e
                have hne := hwrite q r rfl ho
                rw [hid] at hne
                have hjt : j ≠ tail := by
                  rintro rfl
                  exact hne (by simp [home, List.getD, hj])
                simp only [awaits, hthree] at haw ⊢
                simp only [lt_irrefl, if_false] at haw
                simp only [Nat.lt_add_one, if_true]
                omega
              · rcases e with e | e <;> cases e
            · simp only [awaits] at haw ⊢
              split_ifs at haw ⊢ <;> omega
        | _ => exact haw
    | none =>
        have hpos : t.pos q = 0 := by
          rw [hsettle]
          simp [State.settle, ho]
        rw [hpos]
        rcases hlog with ⟨hnone, -⟩ | ⟨l, hact, hl⟩
        · simp [State.logAct, ho] at hnone
        · simp only [State.logAct, ho, Option.some.injEq] at hact
          subst hact
          rcases committing_of_step hl hq rfl with ⟨e, -⟩ |
              ⟨-, phase', hs, -, rfl, -⟩
          · cases e
          · have haw := hawaits q phase' hs
            have hlast : (script s.log.log phase').length ≤ s.pos q := by
              simpa [State.current, phaseOf_of_committing hs] using ho
            cases phase' with
            | commit =>
                simp only [Log.advance]
                rw [if_pos (by omega)]
                exact trivial
            | writeLog tail =>
                simp only [Log.advance]
                split_ifs <;> exact trivial
            | installTrans tail =>
                simp only [Log.advance]
                by_cases htail : tail < s.log.log.lh.length
                · simp only [script, htail, if_true, List.length_cons,
                    List.length_nil] at hlast
                  simp only [htail, if_true, awaits] at haw ⊢
                  rw [if_pos (by omega)] at haw
                  rw [if_neg (by omega)]
                  exact haw
                · exfalso
                  simp only [awaits] at haw
                  split_ifs at haw <;> omega
            | writeHead => simp [Log.advance, awaits]
            | readHead => simp [Log.advance, awaits]
            | clear => exact haw.elim
            | eraseHead => exact haw.elim
            | finish => exact haw.elim
  · cases hphase : phaseOf (s.log.pc q) with
    | some phase' =>
        obtain ⟨-, -, hpc, hpos, -⟩ := step_still h ha ht hphase hop
        rw [hpc] at hq
        rw [hpos]
        exact hawaits q phase hq
    | none =>
        have hcommit : phase = .commit := by
          rcases hlog with ⟨-, hl⟩ | ⟨l, hact, hl⟩
          · rw [hl] at hq
            simp [hq, phaseOf] at hphase
          · by_cases hactor : q = l.actor
            · rcases committing_of_step hl hq hactor with ⟨-, e, -⟩ |
                  ⟨-, phase', hs, -⟩
              · exact e
              · simp [hs, phaseOf] at hphase
            · rcases step_pc hl hactor with hpc | ⟨-, hpc⟩
              · rw [hpc] at hq
                simp [hq, phaseOf] at hphase
              · simp [hpc] at hq
        rw [hcommit]
        exact trivial

theorem pinned_step (h : Sound s g) (ha : Unwritten a)
    (hpending : ∀ q b, s.log.pc q = .logWrite b →
      (s.cache.buf (s.reg q 0)).id.dev = s.log.log.dev)
    (ht : step s a = .next t)
    (hpinned : ∀ i, (s.cache.buf i).dirty = true → Pinned s i)
    {i : Fin NBUF} (hi : (t.cache.buf i).dirty = true) : Pinned t i := by
  obtain ⟨-, -, hdev⟩ := log_area ha.crash ht
  obtain ⟨henabled, hlog, hcache, hsettle⟩ := step_eq_next ha.crash ht
  have hold : ∀ (hid : (t.cache.buf i).id = (s.cache.buf i).id),
      (s.cache.buf i).dirty = true →
      (∀ q, s.cacheAct a ≠ some (.bwrite q i)) → Pinned t i := by
    intro hid hdirty hnot
    obtain ⟨hbooted, hdev', j, hj, haw⟩ := hpinned i hdirty
    have hwrite : ∀ q r, a = .op q → s.current q = some (.bwrite r) →
        (s.cache.buf (s.reg q r)).id ≠
          ⟨s.log.log.dev, (s.cache.buf i).id.blockno⟩ := by
      rintro q r rfl hcur hid'
      obtain ⟨phase, b, -, -, -, hholds, -⟩ :=
        h.uses_spec henabled hcur (r := r) (by simp [Op.uses])
      have hsame : s.reg q r = i := by
        refine h.cache.eq_of_id_eq (h.cache.used_of_lock hholds.2)
          (.inr (h.cache.valid_of_dirty i hdirty)) ?_
        rw [hid', ← hdev']
      exact hnot q (by simp [State.cacheAct, hcur, hsame])
    refine ⟨?_, by rw [hid, hdev, hdev'], j, ?_, fun q phase hq =>
      awaits_step h ha ht hj hwrite haw hq⟩
    · rcases hlog with ⟨-, hl⟩ | ⟨l, -, hl⟩
      · rwa [hl]
      · exact step_booted hl hbooted
    · rw [hid]
      rcases hlog with ⟨-, hl⟩ | ⟨l, hact, hl⟩
      · rwa [hl]
      · rcases step_lh hl with hlh | ⟨q, -, hq, -⟩ | ⟨q, b, -, -, hlh⟩ |
            ⟨q, header, rfl, -⟩
        · rwa [hlh]
        · -- `clear` comes after the last copy.
          rcases pc_of_phaseOf hq with hq | hq
          · exact (haw q _ hq).elim
          · have := h.log.not_booted_of_pc q _ hq
            simp [hbooted] at this
        · rw [hlh]
          by_cases hb : b ∈ s.log.log.lh
          · rwa [absorb_of_mem hb]
          · rw [absorb_of_not_mem hb, List.getElem?_append_left
              (List.getElem?_eq_some_iff.mp hj).1]
            exact hj
        · simp only [Logging.step] at hl
          split_ifs at hl with hq
          have := h.log.not_booted_of_pc q _ hq
          simp [hbooted] at this
  rcases hcache with ⟨hnone, hc⟩ | ⟨c, hact, hc⟩
  · rw [hc] at hi
    exact hold (by rw [hc]) hi (by simp [hnone])
  · obtain ⟨hid, ⟨hdirty, hnot⟩ | ⟨q, rfl⟩⟩ := dirty_of_step h.cache hc hi
    · exact hold hid hdirty fun q e => hnot q (Option.some.inj (hact.symm.trans e))
    · -- `log_write` pins the buffer of the block that it adds.
      obtain ⟨rfl, rfl⟩ : a = .update q ∧ i = s.reg q 0 := by
        cases a with
        | update q' =>
            simp only [State.cacheAct, Option.some.injEq,
              Cache.Act.pin.injEq] at hact
            exact ⟨by rw [hact.1], by rw [← hact.2, hact.1]⟩
        | op q' =>
            simp only [State.cacheAct] at hact
            split at hact <;> cases hact
        | _ => simp [State.cacheAct] at hact
      rcases hlog with ⟨hnone, -⟩ | ⟨l, hl, hstep⟩
      · simp [State.logAct] at hnone
      · obtain rfl : Logging.Act.update q = l := by
          simpa [State.logAct] using hl
        have ht' := h.log.step hstep
        simp only [Logging.step] at hstep
        split at hstep
        · next b hq =>
            obtain ⟨-, hblockno, -⟩ := h.pending q b hq
            have hlog' := (Outcome.next.inj hstep).symm
            have hactive : (t.log.pc q).isActive = true := by
              rw [hlog']
              simp [Logging.State.update, Logging.State.setPc, Pc.isActive]
            obtain ⟨j, hj⟩ := List.getElem?_of_mem
              (mem_absorb.mpr (.inr rfl) : b ∈ absorb s.log.log.lh b)
            refine ⟨ht'.booted_of_isActive hactive, ?_, j, ?_, ?_⟩
            · rw [hid, hdev]
              exact hpending q b hq
            · rw [hid, hblockno, hlog']
              exact hj
            · intro q' phase hq'
              have := ht'.not_committing hactive
              simp [ht'.committing_of_pc q' _ hq'] at this
        · cases hstep

theorem pending_dev_step (h : Sound s g) (ha : Unwritten a)
    (hlogWrite : ∀ q i, a = .logWrite q i →
      (s.cache.buf i).id.dev = s.log.log.dev)
    (hpending : ∀ q b, s.log.pc q = .logWrite b →
      (s.cache.buf (s.reg q 0)).id.dev = s.log.log.dev)
    (ht : step s a = .next t) {q : P} {b : ℕ}
    (hq : t.log.pc q = .logWrite b) :
    (t.cache.buf (t.reg q 0)).id.dev = t.log.log.dev := by
  obtain ⟨-, -, hdev⟩ := log_area ha.crash ht
  obtain ⟨-, hlog, hcache, hsettle⟩ := step_eq_next ha.crash ht
  have hkeep : s.log.pc q = .logWrite b → q ≠ a.actor →
      (t.cache.buf (t.reg q 0)).id.dev = t.log.log.dev := by
    intro hs hactor
    obtain ⟨hholds, -⟩ := h.pending q b hs
    obtain ⟨-, -, hid⟩ := h.buf_of_ne ha.crash ht hactor (.inl hholds.2)
    rw [hsettle, (settle_of_ne t.log t.cache hactor).1, ← hsettle, hid, hdev]
    exact hpending q b hs
  rcases hlog with ⟨hnone, hl⟩ | ⟨l, hact, hl⟩
  · rw [hl] at hq
    refine hkeep hq fun hactor => ?_
    rw [h.eq_update ha.crash ht hq hactor] at hnone
    simp [State.logAct] at hnone
  · rcases logWrite_of_step hl hq with rfl | ⟨hactor, hs⟩
    · cases a with
      | logWrite q' i =>
          simp only [State.logAct, Option.some.injEq,
            Logging.Act.logWrite.injEq] at hact
          obtain ⟨rfl, -⟩ := hact
          have hc : t.cache = s.cache := by
            rcases hcache with ⟨-, hc⟩ | ⟨c, hc, -⟩
            · exact hc
            · simp [State.cacheAct] at hc
          have hreg : t.reg q' 0 = i := by
            rw [hsettle]
            simp [State.settle]
          rw [hreg, hc, hdev]
          exact hlogWrite q' i rfl
      | op q' =>
          simp only [State.logAct] at hact
          split at hact <;> cases hact
      | _ => simp [State.logAct] at hact
    · exact hkeep hs (logAct_actor hact ▸ hactor)

end Buffers

/-! ## Replaying -/

section Replaying

variable {P : Type*} [Fintype P] {s t : State P} {g : Shadow Block} {p : P}
variable {phase : Phase} {l : RedoLog ℕ Block} {target : ℕ → Block}

theorem script_installTrans_length {log : Log} {tail : ℕ}
    (h : tail < log.lh.length) :
    (script log (.installTrans tail)).length = 6 := by
  simp [script, h]

/-- The end of a phase. -/
theorem Replaying.advance {log : Log} {pos : ℕ}
    {disk logical : ℕ → Block}
    (hr : Replaying l log.lh phase pos disk logical target)
    (hlast : (script log phase).length ≤ pos)
    (hstage : stage phase pos ≠ .unlogged) (hfinish : phase ≠ .finish) :
    Replaying l (log.advance phase).1.lh (log.advance phase).2 0 disk logical
      target := by
  cases phase with
  | commit => exact absurd rfl hstage
  | writeLog tail => exact absurd rfl hstage
  | finish => exact absurd rfl hfinish
  | readHead =>
      have hpos : 2 < pos := hlast
      exact
        { replays := fun _ => hr.replays rfl
          nodup := hr.nodup
          lt := hr.lt
          header_eq := fun _ => hr.header_eq hpos.le
          rest := by
            intro b hb
            refine (hr.rest b hb).imp_right ?_
            rintro ⟨j, -, hj⟩
            exact ⟨j, Nat.zero_le j, hj⟩
          settled := fun e => by cases e }
  | writeHead =>
      have hpos : 3 < pos := hlast
      exact
        { replays := fun _ => hr.replays (by simp [stage, hpos.le])
          nodup := hr.nodup
          lt := hr.lt
          header_eq := fun _ => hr.header_eq trivial
          rest := by
            intro b hb
            refine (hr.rest b hb).imp_right ?_
            rintro ⟨j, -, hj⟩
            exact ⟨j, Nat.zero_le j, hj⟩
          settled := fun e => by cases e }
  | installTrans tail =>
      have hlisted := hr.header_eq trivial
      by_cases htail : tail < log.lh.length
      · rw [script_installTrans_length htail] at hlast
        simp only [Log.advance, htail, if_true]
        exact
          { replays := fun _ => hr.replays rfl
            nodup := hr.nodup
            lt := hr.lt
            header_eq := fun _ => hlisted
            rest := by
              intro b hb
              refine (hr.rest b hb).imp_right ?_
              rintro ⟨j, haw, hj⟩
              simp only [awaits] at haw
              rw [if_pos (by omega)] at haw
              exact ⟨j, haw, hj⟩
            settled := fun e => by cases e }
      · simp only [Log.advance, htail, if_false]
        exact
          { replays := fun _ => hr.replays rfl
            nodup := hr.nodup
            lt := hr.lt
            header_eq := fun _ => hlisted
            rest := by
              intro b hb
              refine .inl ((hr.rest b hb).resolve_right ?_)
              rintro ⟨j, haw, hj⟩
              have hlt := (List.getElem?_eq_some_iff.mp hj).1
              rw [hlisted] at hlt
              simp only [awaits] at haw
              split_ifs at haw <;> omega
            settled := fun e => by cases e }
  | clear =>
      exact
        { replays := fun _ => hr.replays rfl
          nodup := hr.nodup
          lt := hr.lt
          header_eq := fun e => e.elim
          rest := fun b hb => .inl ((hr.rest b hb).resolve_right (by
            rintro ⟨j, haw, -⟩
            exact haw))
          settled := fun e => by cases e }
  | eraseHead =>
      have hpos : 3 < pos := hlast
      exact
        { replays := fun e => by cases e
          nodup := hr.nodup
          lt := hr.lt
          header_eq := fun e => e.elim
          rest := fun b hb => .inl ((hr.rest b hb).resolve_right (by
            rintro ⟨j, haw, -⟩
            exact haw))
          settled := fun _ => hr.settled (by simp [stage, hpos.le]) }

theorem Replaying.congr {lh : List ℕ} {pos : ℕ} {disk logical logical' target' : ℕ → Block}
    (hr : Replaying l lh phase pos disk logical target)
    (hlogical : ∀ b, l.home b → logical' b = logical b)
    (htarget : ∀ b, l.home b → target b = target' b) :
    Replaying l lh phase pos disk logical' target' where
  replays e := (hr.replays e).congr htarget
  nodup := hr.nodup
  lt := hr.lt
  header_eq := hr.header_eq
  rest b hb := by
    rw [hlogical b hb, ← htarget b hb]
    exact hr.rest b hb
  settled e := (hr.settled e).congr htarget

/-- A crash loses what recovery had put into the store. -/
theorem Replaying.restart {lh : List ℕ} {pos : ℕ} {disk logical : ℕ → Block}
    (hr : Replaying l lh phase pos disk logical target)
    (hstage : stage phase pos ≠ .unlogged) :
    Replaying l [] .readHead 0 disk disk target := by
  have hreplays : l.Replays disk target := by
    cases hs : stage phase pos with
    | unlogged => exact absurd hs hstage
    | logged => exact hr.replays hs
    | erased => exact (hr.settled hs).replays
  exact
    { replays := fun _ => hreplays
      nodup := hr.nodup
      lt := hr.lt
      header_eq := fun e => absurd e (by simp [hasHeader])
      rest := by
        intro b hb
        by_cases hmem : b ∈ l.listed disk
        · obtain ⟨j, hj⟩ := List.getElem?_of_mem hmem
          exact .inr ⟨j, trivial, hj⟩
        · exact .inl (hreplays.rest_eq b hb hmem)
      settled := fun e => by cases e }

theorem replaying_of_settled {disk : ℕ → Block}
    (h : l.Settled disk target) :
    Replaying l [] .readHead 0 disk disk target where
  replays _ := h.replays
  nodup := by simp [h.listed_eq]
  lt := by simp [h.listed_eq]
  header_eq e := absurd e (by simp [hasHeader])
  rest b hb := .inl (h.home_eq b hb)
  settled e := by cases e

theorem stage_of_inRecovery {pos : ℕ}
    (h : phase.inRecovery = true) : stage phase pos ≠ .unlogged := by
  cases phase with
  | eraseHead =>
      simp only [stage]
      split_ifs <;> simp
  | _ => simp_all [stage, Phase.inRecovery]

variable [DecidableEq P]

/-- The transfers after the commit point and in recovery. -/
theorem Replaying.transfer (h : Sound s g) {hsize : 0 < s.log.log.size}
    (hl : l = redoLog s.log.log hsize)
    (hr : Replaying l s.log.log.lh phase (s.pos p) s.onDisk (s.logical g)
      target)
    (hphase : phaseOf (s.log.pc p) = some phase)
    (hstage : stage phase (s.pos p) ≠ .unlogged)
    (hclean : ∀ b i, ¬ Outside s.log.log b ∨ phase = .eraseHead →
      (s.cache.buf i).id = ⟨s.log.log.dev, b⟩ →
      (s.cache.buf i).dirty = false)
    (hchanging : ∀ i, g.touched i = true →
      ∃ r, s.current p = some (.bwrite r) ∧ s.reg p r = i)
    (hfilled : phase = .eraseHead → 2 ≤ s.pos p →
      getHead (s.logical g s.log.log.start) = [])
    {o : Op} (ho : s.current p = some o) (ht : step s (.op p) = .next t) :
    Replaying l t.log.log.lh phase (t.pos p) t.onDisk
      (t.logical (nextShadow g s (.op p))) target := by
  have hidle := (step_eq_next (by simp) ht).1
  obtain ⟨phase', hphase', -, hop, -, hpos, -, -⟩ := op_shape ho ht
  obtain rfl : phase' = phase := Option.some.inj (hphase'.symm.trans hphase)
  obtain ⟨hdisk, hlogical, hlog, -⟩ := transfer_spec h ho ht
  have hsame : ∀ {b}, ¬ Outside s.log.log b → (∀ r, o ≠ .bwrite r) →
      s.onDisk b = s.logical g b := by
    intro b hb hno
    refine onDisk_eq_logical h fun i hi => ⟨hclean b i (.inl hb) hi, ?_⟩
    by_contra htouched
    obtain ⟨r, hcur, -⟩ := hchanging i (by simpa using htouched)
    exact hno r (Option.some.inj (ho.symm.trans hcur))
  rw [hdisk, hlogical, hlog, hpos]
  cases o with
  | bread r b =>
      obtain ⟨hst, haw, -, hhas⟩ := progress_eq hop rfl
      exact
        { replays := fun e => hr.replays (hst ▸ e)
          nodup := hr.nodup
          lt := hr.lt
          header_eq := fun e => hr.header_eq (hhas.mp e)
          rest := fun b hb => (hr.rest b hb).imp_right (by
            rintro ⟨j, hj, hb⟩
            exact ⟨j, (haw j).mpr hj, hb⟩)
          settled := fun e => hr.settled (hst ▸ e) }
  | brelse r =>
      obtain ⟨hst, haw, -, hhas⟩ := progress_eq hop rfl
      exact
        { replays := fun e => hr.replays (hst ▸ e)
          nodup := hr.nodup
          lt := hr.lt
          header_eq := fun e => hr.header_eq (hhas.mp e)
          rest := fun b hb => (hr.rest b hb).imp_right (by
            rintro ⟨j, hj, hb⟩
            exact ⟨j, (haw j).mpr hj, hb⟩)
          settled := fun e => hr.settled (hst ▸ e) }
  | readHead r =>
      obtain ⟨hph, hone, hid⟩ := h.readHead_spec hidle ho
      obtain rfl := Option.some.inj (hphase.symm.trans hph)
      have hdata := (h.data_eq hidle ho (r := r) (by simp [Op.uses])).2
      have hstart : s.onDisk s.log.log.start = s.logical g s.log.log.start :=
        hsame (by simp [Outside]; omega) (by simp)
      rw [hid] at hdata
      exact
        { replays := fun _ => hr.replays rfl
          nodup := hr.nodup
          lt := hr.lt
          header_eq := fun _ => by
            change l.listed s.onDisk = getHead (s.data p r)
            rw [hdata, ← hstart, hl]
            rfl
          rest := hr.rest
          settled := fun e => by cases e }
  | memmove dst src =>
      simp only [State.diskAfter, State.logicalAfter, State.headerAfter]
      obtain ⟨tail, htail, htwo, ⟨hph, -⟩ | ⟨hph, -, hid, hdata⟩⟩ :=
        h.memmove_spec hidle ho
      · obtain rfl := Option.some.inj (hphase.symm.trans hph)
        exact absurd rfl hstage
      · obtain rfl := Option.some.inj (hphase.symm.trans hph)
        have hlisted := hr.header_eq trivial
        have hget : (l.listed s.onDisk)[tail]? = some (home s.log.log tail) := by
          rw [hlisted, home, List.getD, List.getElem?_eq_getElem htail]
          rfl
        have hslot : s.data p src = target (home s.log.log tail) := by
          have hreplay := (hr.replays rfl).slot_eq tail _ hget
          rw [hdata, ← hreplay]
          subst hl
          exact (hsame (slot_inside h.header.length_le htail) (by simp)).symm
        exact
          { replays := fun _ => hr.replays rfl
            nodup := hr.nodup
            lt := hr.lt
            header_eq := fun _ => hlisted
            rest := by
              intro b hb
              rw [hid]
              by_cases hbt : b = home s.log.log tail
              · left
                rw [hbt, Function.update_self, hslot]
              · rw [Function.update_of_ne hbt]
                refine (hr.rest b hb).imp_right ?_
                rintro ⟨j, haw, hj⟩
                refine ⟨j, ?_, hj⟩
                have hjt : j ≠ tail := by
                  rintro rfl
                  exact hbt (Option.some.inj (hj.symm.trans hget))
                simp only [awaits, htwo] at haw ⊢
                simp only [lt_irrefl, if_false] at haw
                simp only [Nat.lt_add_one, if_true]
                omega
            settled := fun e => by cases e }
  | fillHead r =>
      simp only [State.diskAfter, State.logicalAfter, State.headerAfter]
      obtain ⟨hwhich, hone, -, hid⟩ := h.fillHead_spec hidle ho
      rcases hwhich with hph | hph
      · obtain rfl := Option.some.inj (hphase.symm.trans hph)
        simp [stage, hone] at hstage
      · obtain rfl := Option.some.inj (hphase.symm.trans hph)
        exact
          { replays := fun _ => hr.replays (by simp [stage, hone])
            nodup := hr.nodup
            lt := hr.lt
            header_eq := fun e => e.elim
            rest := by
              intro b hb
              have hne : b ≠ s.log.log.start := by
                rintro rfl
                subst hl
                exact (redoLog _ hsize).head_not_home hb
              rw [hid, Function.update_of_ne hne]
              exact hr.rest b hb
            settled := fun e => by simp [stage, hone] at e }
  | bwrite r =>
      simp only [State.diskAfter, State.logicalAfter, State.headerAfter]
      have hdata := (h.data_eq hidle ho (r := r) (by simp [Op.uses])).2
      obtain ⟨ph, hph, hwhich⟩ := h.bwrite_spec hidle ho
      obtain rfl := Option.some.inj (hphase.symm.trans hph)
      rcases hwhich with ⟨tail, rfl, -⟩ | ⟨tail, rfl, htail, hthree, hid⟩ |
          ⟨rfl | rfl, htwo, hid⟩
      · exact absurd rfl hstage
      · have hlisted := hr.header_eq trivial
        have hmem : home s.log.log tail ∈ l.listed s.onDisk :=
          hlisted ▸ home_mem htail
        have hinstall : l.Replays (Function.update s.onDisk
            (home s.log.log tail) (s.data p r)) target :=
          (hr.replays rfl).install hmem
        have hne : home s.log.log tail ≠ l.head := by
          intro e
          exact l.head_not_home (e ▸ (hr.replays rfl).home _ hmem)
        rw [hid]
        have hlist : l.listed (Function.update s.onDisk
            (home s.log.log tail) (s.data p r)) = l.listed s.onDisk :=
          RedoLog.listed_update hne
        exact
          { replays := fun _ => hinstall
            nodup := hlist ▸ hr.nodup
            lt := hlist ▸ hr.lt
            header_eq := fun _ => hlist.trans hlisted
            rest := by
              intro b hb
              rw [hlist]
              refine (hr.rest b hb).imp_right ?_
              rintro ⟨j, haw, hj⟩
              refine ⟨j, ?_, hj⟩
              simp only [awaits, hthree] at haw ⊢
              simpa using haw
            settled := fun e => by cases e }
      · simp [stage, htwo] at hstage
      · have hrest : ∀ b, l.home b → s.logical g b = target b := fun b hb =>
          (hr.rest b hb).resolve_right (by
            rintro ⟨j, haw, -⟩
            exact haw)
        have hempty : getHead (s.data p r) = [] := by
          rw [hdata, hid]
          exact hfilled rfl htwo.ge
        have hinstalled : ∀ b, l.home b → s.onDisk b = target b := by
          intro b hb
          rw [← hrest b hb]
          refine onDisk_eq_logical h fun i hi =>
            ⟨hclean b i (.inr rfl) hi, ?_⟩
          by_contra htouched
          obtain ⟨r', hcur, hreg⟩ := hchanging i (by simpa using htouched)
          obtain rfl : r = r' := by simpa [ho] using hcur
          rw [← hreg, hid] at hi
          simp only [BlockId.mk.injEq, true_and] at hi
          subst hl hi
          exact (redoLog _ hsize).head_not_home hb
        have hreplays := hr.replays (by simp [stage, htwo])
        have hsettled : l.Settled (Function.update s.onDisk l.head
            (s.data p r)) target :=
          hreplays.erase (by subst hl; exact hempty)
            fun b hb => hinstalled b (hreplays.home b hb)
        have hhead : l.head = s.log.log.start := by
          subst hl
          rfl
        rw [hid, ← hhead]
        exact
          { replays := fun e => by simp [stage, htwo] at e
            nodup := by simp [hsettled.listed_eq]
            lt := by simp [hsettled.listed_eq]
            header_eq := fun e => e.elim
            rest := fun b hb => .inl (hrest b hb)
            settled := fun _ => hsettled }

end Replaying

/-! ## How phases follow one another -/

section Phases

variable {P : Type*} [Fintype P] [DecidableEq P] {s t : State P}
variable {g : Shadow Block} {a : Act P} {p : P}

/-- `p` goes from the phase `phase` on to the next one. -/
structure Advances (s t : State P) (p : P) (phase : Phase) : Prop where
  last : (script s.log.log phase).length ≤ s.pos p
  finish : phase ≠ .finish
  pc : s.log.pc p = .committing phase ∧
      t.log.pc p = .committing (s.log.log.advance phase).2 ∨
    s.log.pc p = .recovering phase ∧
      t.log.pc p = .recovering (s.log.log.advance phase).2
  log_eq : t.log.log = (s.log.log.advance phase).1
  booted_eq : t.log.booted = s.log.booted
  pos_eq : t.pos p = 0

omit [Fintype P] in
/-- The end of a phase leaves all contents alone. -/
theorem contents_of_op_none (ho : s.current p = none)
    (ht : step s (.op p) = .next t) :
    t.onDisk = s.onDisk ∧
      t.logical (nextShadow g s (.op p)) = s.logical g := by
  obtain ⟨-, -, hdev⟩ := log_area (by simp) ht
  have hshadow : nextShadow g s (.op p) = g := by
    simp [nextShadow, State.cacheAct, ho]
  obtain ⟨-, -, ⟨-, hc⟩ | ⟨c, hact, -⟩, -⟩ := step_eq_next (by simp) ht
  · constructor
    · funext b
      simp only [State.onDisk, hdev, hc]
    · funext b
      simp only [State.logical, hdev, hshadow]
  · simp [State.cacheAct, ho] at hact

omit [Fintype P] in
theorem advances_of_op_none (ho : s.current p = none)
    (ht : step s (.op p) = .next t) {phase : Phase}
    (hp : phaseOf (s.log.pc p) = some phase) :
    phase = .finish ∧ t.log.pc p = .outside ∧ t.log.log.lh = s.log.log.lh ∨
      Advances s t p phase := by
  obtain ⟨-, hlog, -, hsettle⟩ := step_eq_next (by simp) ht
  have hpos : t.pos p = 0 := by
    rw [hsettle]
    simp [State.settle, ho]
  have hlast : (script s.log.log phase).length ≤ s.pos p := by
    simpa [State.current, hp] using ho
  rcases hlog with ⟨hnone, -⟩ | ⟨l, hact, hl⟩
  · simp [State.logAct, ho] at hnone
  · obtain rfl : Logging.Act.phase p = l := by
      simpa [State.logAct, ho] using hact
    simp only [Logging.step] at hl
    split at hl
    · next hpc =>
        have hl := Outcome.next.inj hl
        obtain rfl : .finish = phase := by simpa [hpc, phaseOf] using hp
        left
        rw [← hl]
        simp [Logging.State.endCommit]
    · next phase' hne hpc =>
        have hl := Outcome.next.inj hl
        obtain rfl : phase' = phase := by simpa [hpc, phaseOf] using hp
        right
        refine ⟨hlast, fun e => hne e, .inl ⟨hpc, ?_⟩, ?_, ?_, hpos⟩ <;>
          rw [← hl] <;> simp [Logging.State.setPc]
    · next hpc =>
        have hl := Outcome.next.inj hl
        obtain rfl : .finish = phase := by simpa [hpc, phaseOf] using hp
        left
        rw [← hl]
        simp [Logging.State.setPc]
    · next phase' hne hpc =>
        have hl := Outcome.next.inj hl
        obtain rfl : phase' = phase := by simpa [hpc, phaseOf] using hp
        right
        refine ⟨hlast, fun e => hne e, .inr ⟨hpc, ?_⟩, ?_, ?_, hpos⟩ <;>
          rw [← hl] <;> simp [Logging.State.setPc]
    · cases hl

/-- How a process comes to be in a phase. -/
theorem phase_cases (h : Sound s g) (ha : Honest s a)
    (ht : step s a = .next t) {phase : Phase}
    (hp : phaseOf (t.log.pc p) = some phase) :
    (a ≠ .op p ∧ t.log.pc p = s.log.pc p) ∨
      (∃ o, a = .op p ∧ s.current p = some o ∧ t.log.pc p = s.log.pc p) ∨
      (∃ phase', a = .op p ∧ s.current p = none ∧ Advances s t p phase') ∨
      a = .endOp p ∧ s.log.pc p = .inside ∧
        t.log.pc p = .committing .commit ∧
        s.log.log.outstanding - 1 = 0 ∧ t.log.log.lh = s.log.log.lh := by
  obtain ⟨-, hlog, -, -⟩ := step_eq_next ha.crash ht
  by_cases hop : a = .op p
  · subst hop
    cases ho : s.current p with
    | some o => exact .inr (.inl ⟨o, rfl, rfl, pc_of_current ho ht⟩)
    | none =>
        right
        right
        left
        have hs : ∃ phase', phaseOf (s.log.pc p) = some phase' := by
          rcases hlog with ⟨hnone, -⟩ | ⟨l, hact, hl⟩
          · simp [State.logAct, ho] at hnone
          · obtain rfl : Logging.Act.phase p = l := by
              simpa [State.logAct, ho] using hact
            simp only [Logging.step] at hl
            split at hl
            · next hpc => exact ⟨_, by rw [hpc]; rfl⟩
            · next hpc => exact ⟨_, by rw [hpc]; rfl⟩
            · next hpc => exact ⟨_, by rw [hpc]; rfl⟩
            · next hpc => exact ⟨_, by rw [hpc]; rfl⟩
            · cases hl
        obtain ⟨phase', hs⟩ := hs
        rcases advances_of_op_none ho ht hs with ⟨-, hpc, -⟩ | hadv
        · simp [hpc, phaseOf] at hp
        · exact ⟨phase', rfl, rfl, hadv⟩
  · cases hs : phaseOf (s.log.pc p) with
    | some phase' =>
        obtain ⟨-, -, hpc, -⟩ := step_quiet h ha ht hs hop
        exact .inl ⟨hop, hpc⟩
    | none =>
        rcases hlog with ⟨-, hl⟩ | ⟨l, hact, hl⟩
        · exact .inl ⟨hop, by rw [hl]⟩
        · by_cases hactor : p = l.actor
          · right
            right
            right
            cases a with
            | endOp q =>
                obtain rfl : Logging.Act.endOp q = l := by
                  simpa [State.logAct] using hact
                obtain rfl : p = q := hactor
                simp only [Logging.step, Logging.State.endOp] at hl
                split_ifs at hl with hpc hcommitting hout
                · have hl := Outcome.next.inj hl
                  rw [← hl]
                  simp [Logging.State.setPc, hpc, hout]
                · rw [← Outcome.next.inj hl] at hp
                  simp [phaseOf] at hp
            | op q =>
                have := (logAct_actor hact).symm.trans hactor.symm
                exact absurd (by rw [show q = p from this]) hop
            | beginOp q =>
                obtain rfl : Logging.Act.beginOp q = l := by
                  simpa [State.logAct] using hact
                obtain rfl : p = q := hactor
                simp only [Logging.step] at hl
                split_ifs at hl
                rw [← Outcome.next.inj hl] at hp
                unfold Logging.State.beginOp at hp
                split_ifs at hp <;> simp [Logging.State.setPc, phaseOf] at hp
            | logWrite q i =>
                obtain rfl : Logging.Act.logWrite q
                    (s.cache.buf i).id.blockno = l := by
                  simpa [State.logAct] using hact
                obtain rfl : p = q := hactor
                simp only [Logging.step, Logging.State.logWrite] at hl
                split_ifs at hl
                rw [← Outcome.next.inj hl] at hp
                simp [Logging.State.setPc, phaseOf] at hp
            | update q =>
                obtain rfl : Logging.Act.update q = l := by
                  simpa [State.logAct] using hact
                obtain rfl : p = q := hactor
                simp only [Logging.step] at hl
                split at hl
                · rw [← Outcome.next.inj hl] at hp
                  simp [Logging.State.update, Logging.State.setPc,
                    phaseOf] at hp
                · cases hl
            | _ => simp [State.logAct] at hact
          · rcases step_pc hl hactor with hpc | ⟨-, hpc⟩
            · exact .inl ⟨hop, hpc⟩
            · simp [hpc, phaseOf] at hp

/-- Between commits: how the log comes to be idle. -/
theorem idle_cases (h : Sound s g) (ha : Honest s a) (ht : step s a = .next t)
    (hbooted : t.log.booted = true) (hidle : t.log.log.committing = false) :
    (s.log.booted = true ∧ s.log.log.committing = false) ∨
      ∃ p, a = .op p ∧ phaseOf (s.log.pc p) = some .finish := by
  by_cases hs : s.log.booted = true ∧ s.log.log.committing = false
  · exact .inl hs
  · right
    obtain ⟨p, phase, hp⟩ : ∃ p phase, phaseOf (s.log.pc p) = some phase := by
      by_cases hb : s.log.booted = true
      · have hc : s.log.log.committing = true := by
          simpa [hb] using hs
        obtain ⟨p, phase, hp⟩ := h.log.exists_pc_of_committing hc
        exact ⟨p, phase, phaseOf_of_committing hp⟩
      · obtain ⟨p, phase, hp⟩ :=
          h.log.recovering_of_not_booted (by simpa using hb)
        exact ⟨p, phase, by rw [hp]; rfl⟩
    by_cases hop : a = .op p
    · subst hop
      refine ⟨p, rfl, ?_⟩
      cases ho : s.current p with
      | some o =>
          obtain ⟨-, -, hlog, hb⟩ := transfer_spec h ho ht
          refine absurd ⟨hb ▸ hbooted, ?_⟩ hs
          rw [hlog] at hidle
          cases o <;> exact hidle
      | none =>
          rcases advances_of_op_none ho ht hp with ⟨rfl, -⟩ | hadv
          · exact hp
          · refine absurd ⟨hadv.booted_eq ▸ hbooted, ?_⟩ hs
            rw [hadv.log_eq, advance_committing] at hidle
            exact hidle
    · obtain ⟨hlog, hb, -⟩ := step_quiet h ha ht hp hop
      exact absurd ⟨hb ▸ hbooted, hlog ▸ hidle⟩ hs

end Phases

end ZtlOs.Transactions
