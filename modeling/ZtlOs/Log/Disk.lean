import ZtlOs.Log.Commit
import ZtlOs.Support.RedoLog

/-!
# What the transfers do to the disk

The blocks of the logged device, on disk and as last put, and the effect that
each transfer of a commit or of recovery has on them.
-/

namespace ZtlOs.Transactions

open ZtlOs.Support ZtlOs.Fs ZtlOs.Cache ZtlOs.Logging

/-! ## The log as a redo log -/

theorem not_outside_start {log : Log} (hsize : 0 < log.size) :
    ¬Outside log log.start := by
  simp only [Outside]
  omega

theorem not_outside_slot {log : Log} (hsize : 0 < log.size) :
    ∀ j < log.size - 1, ¬Outside log (slot log j) := by
  intro j hj
  simp only [Outside, slot]
  omega

theorem slot_ne_start (log : Log) (j : ℕ) : slot log j ≠ log.start := by
  simp only [slot]
  omega

/-- The log area of the disk. -/
def redoLog (log : Log) (hsize : 0 < log.size) : RedoLog ℕ Block where
  head := log.start
  slot := slot log
  capacity := log.size - 1
  home := Outside log
  decode := getHead
  head_not_home := not_outside_start hsize
  slot_not_home := not_outside_slot hsize
  slot_ne_head := slot_ne_start log

theorem redoLog_congr {log log' : Log} (hsize : 0 < log.size)
    {hsize' : 0 < log'.size} (hs : log'.start = log.start)
    (hz : log'.size = log.size) : redoLog log' hsize' = redoLog log hsize := by
  have hslot : slot log' = slot log := by
    funext tail
    simp only [slot, hs]
  have hhome : Outside log' = Outside log := by
    funext b
    simp only [Outside, hs, hz]
  simp only [redoLog, hslot, hhome, hs, hz]

/-! ## The two contents of a block -/

section Contents

variable {P : Type*}

/-- A block of the logged device as it is on the disk. -/
def State.onDisk (s : State P) (blockno : ℕ) : Block :=
  s.cache.disk (BlockId.sector ⟨s.log.log.dev, blockno⟩)

/-- A block of the logged device as it was last put into the store. -/
def State.logical (s : State P) (g : Shadow Block) (blockno : ℕ) : Block :=
  g.store ⟨s.log.log.dev, blockno⟩

/-- The disk after a transfer. -/
def State.diskAfter (s : State P) (p : P) : Op → ℕ → Block
  | .bwrite r => Function.update s.onDisk
      (s.cache.buf (s.reg p r)).id.blockno (s.data p r)
  | _ => s.onDisk

/-- The store after a transfer. -/
def State.logicalAfter (s : State P) (g : Shadow Block) (p : P) :
    Op → ℕ → Block
  | .memmove dst src => Function.update (s.logical g)
      (s.cache.buf (s.reg p dst)).id.blockno (s.data p src)
  | .fillHead r => Function.update (s.logical g)
      (s.cache.buf (s.reg p r)).id.blockno (setHead s.log.log.lh (s.data p r))
  | _ => s.logical g

/-- The log in memory after a transfer. -/
def State.headerAfter (s : State P) (p : P) : Op → Log
  | .readHead r => { s.log.log with lh := getHead (s.data p r) }
  | _ => s.log.log

variable {s t : State P} {g : Shadow Block} {a : Act P} {p : P}

/-- A block that is changed in no buffer is on the disk. -/
theorem onDisk_eq_logical [Fintype P] (h : Sound s g) {b : ℕ}
    (hb : ∀ i, (s.cache.buf i).id = ⟨s.log.log.dev, b⟩ →
      (s.cache.buf i).dirty = false ∧ g.touched i = false) :
    s.onDisk b = s.logical g b := by
  refine (h.coherent.disk_eq ⟨_, b⟩ h.dev_lt).resolve_right ?_
  rintro ⟨i, hid, -, hi⟩
  obtain ⟨hdirty, htouched⟩ := hb i hid
  simp [hdirty, htouched] at hi

/-- The contents of a register of the log code. -/
theorem Sound.data_eq [Fintype P] (h : Sound s g)
    (hcall : s.cache.call p = .idle) {o : Op} (ho : s.current p = some o)
    {r : Fin 2} (hr : r ∈ o.uses) :
    (s.cache.buf (s.reg p r)).id.dev = s.log.log.dev ∧
      s.data p r = s.logical g (s.cache.buf (s.reg p r)).id.blockno := by
  obtain ⟨phase, b, -, -, -, hholds, hid, -⟩ := h.uses_spec hcall ho hr
  refine ⟨by rw [hid], ?_⟩
  rw [State.data, h.coherent.data_eq _ (h.cache.valid_of_holds hholds),
    State.logical, hid]

end Contents

/-! ## The shape of the remaining transfers -/

section Script

variable {log : Log} {phase : Phase} {n : ℕ} {r : Fin 2}

/-- The writes of the log code. -/
theorem phase_of_bwrite (h : (script log phase)[n]? = some (.bwrite r)) :
    (∃ tail, phase = .writeLog tail ∧ tail < log.lh.length ∧ n = 3 ∧ r = 0 ∧
        held ((script log phase).take n) r = some (slot log tail)) ∨
      (∃ tail, phase = .installTrans tail ∧ tail < log.lh.length ∧ n = 3 ∧
        r = 1 ∧
        held ((script log phase).take n) r = some (home log tail)) ∨
      (phase = .writeHead ∨ phase = .eraseHead) ∧ n = 2 ∧ r = 0 ∧
        held ((script log phase).take n) r = some log.start := by
  cases phase with
  | writeLog tail =>
      simp only [script] at h ⊢
      split_ifs at h ⊢ with htail
      · rcases n with _ | _ | _ | _ | _ | _ | n <;> simp at h
        subst h
        exact .inl ⟨tail, rfl, htail, rfl, rfl, rfl⟩
      · simp at h
  | installTrans tail =>
      simp only [script] at h ⊢
      split_ifs at h ⊢ with htail
      · rcases n with _ | _ | _ | _ | _ | _ | n <;> simp at h
        subst h
        exact .inr (.inl ⟨tail, rfl, htail, rfl, rfl, rfl⟩)
      · simp at h
  | writeHead =>
      rcases n with _ | _ | _ | _ | n <;> simp [script] at h
      subst h
      exact .inr (.inr ⟨.inl rfl, rfl, rfl, rfl⟩)
  | eraseHead =>
      rcases n with _ | _ | _ | _ | n <;> simp [script] at h
      subst h
      exact .inr (.inr ⟨.inr rfl, rfl, rfl, rfl⟩)
  | readHead => rcases n with _ | _ | _ | n <;> simp [script] at h
  | _ => simp [script] at h

theorem phase_of_readHead (h : (script log phase)[n]? = some (.readHead r)) :
    phase = .readHead ∧ n = 1 ∧ r = 0 ∧
      held ((script log phase).take n) r = some log.start := by
  cases phase with
  | writeLog tail =>
      simp only [script] at h
      split_ifs at h
      · rcases n with _ | _ | _ | _ | _ | _ | n <;> simp at h
      · simp at h
  | installTrans tail =>
      simp only [script] at h
      split_ifs at h
      · rcases n with _ | _ | _ | _ | _ | _ | n <;> simp at h
      · simp at h
  | writeHead => rcases n with _ | _ | _ | _ | n <;> simp [script] at h
  | eraseHead => rcases n with _ | _ | _ | _ | n <;> simp [script] at h
  | readHead =>
      rcases n with _ | _ | _ | n <;> simp [script] at h
      subst h
      exact ⟨rfl, rfl, rfl, rfl⟩
  | _ => simp [script] at h

end Script

section Transfer

variable {P : Type*} [Fintype P] [DecidableEq P] {s t : State P}
variable {g : Shadow Block} {a : Act P} {p : P}

omit [DecidableEq P] in
/-- The block that a transfer writes. -/
theorem Sound.bwrite_spec (h : Sound s g) (hidle : s.cache.call p = .idle)
    {r : Fin 2} (ho : s.current p = some (.bwrite r)) :
    ∃ phase, phaseOf (s.log.pc p) = some phase ∧
      ((∃ tail, phase = .writeLog tail ∧ tail < s.log.log.lh.length ∧
          s.pos p = 3 ∧ (s.cache.buf (s.reg p r)).id =
            ⟨s.log.log.dev, slot s.log.log tail⟩) ∨
        (∃ tail, phase = .installTrans tail ∧ tail < s.log.log.lh.length ∧
          s.pos p = 3 ∧ (s.cache.buf (s.reg p r)).id =
            ⟨s.log.log.dev, home s.log.log tail⟩) ∨
        (phase = .writeHead ∨ phase = .eraseHead) ∧ s.pos p = 2 ∧
          (s.cache.buf (s.reg p r)).id =
            ⟨s.log.log.dev, s.log.log.start⟩) := by
  obtain ⟨phase, hphase, hop⟩ := current_eq_some ho
  refine ⟨phase, hphase, ?_⟩
  rcases phase_of_bwrite hop with ⟨tail, hph, htail, hpos, -, hheld⟩ |
      ⟨tail, hph, htail, hpos, -, hheld⟩ | ⟨hph, hpos, -, hheld⟩
  · exact .inl ⟨tail, hph, htail, hpos, (h.reg_spec hphase hidle hheld).2.1⟩
  · exact .inr (.inl
      ⟨tail, hph, htail, hpos, (h.reg_spec hphase hidle hheld).2.1⟩)
  · exact .inr (.inr ⟨hph, hpos, (h.reg_spec hphase hidle hheld).2.1⟩)

omit [DecidableEq P] in
theorem Sound.readHead_spec (h : Sound s g) (hidle : s.cache.call p = .idle)
    {r : Fin 2} (ho : s.current p = some (.readHead r)) :
    phaseOf (s.log.pc p) = some .readHead ∧ s.pos p = 1 ∧
      (s.cache.buf (s.reg p r)).id = ⟨s.log.log.dev, s.log.log.start⟩ := by
  obtain ⟨phase, hphase, hop⟩ := current_eq_some ho
  obtain ⟨rfl, hpos, -, hheld⟩ := phase_of_readHead hop
  exact ⟨hphase, hpos, (h.reg_spec hphase hidle hheld).2.1⟩

/-- What a step of the cache does to the disk. -/
theorem onDisk_step (h : Sound s g) (hcrash : ∀ p, a ≠ .crash p)
    (ht : step s a = .next t) :
    t.onDisk = s.onDisk ∧ (∀ q i, s.cacheAct a ≠ some (.bwrite q i)) ∨
      ∃ q i, s.cacheAct a = some (.bwrite q i) ∧
        ((s.cache.buf i).id.dev = s.log.log.dev →
          t.onDisk = Function.update s.onDisk (s.cache.buf i).id.blockno
            (s.cache.buf i).data) := by
  obtain ⟨-, -, hdev⟩ := log_area hcrash ht
  obtain ⟨-, -, hcache, -⟩ := step_eq_next hcrash ht
  rcases hcache with ⟨hnone, hc⟩ | ⟨c, hact, hc⟩
  · left
    refine ⟨?_, by simp [hnone]⟩
    funext b
    simp only [State.onDisk, hdev, hc]
  · rcases disk_of_step h.cache hc with ⟨hdisk, hno⟩ | ⟨q, i, rfl, hdisk⟩
    · left
      refine ⟨?_, fun q i e => hno q i (Option.some.inj (hact.symm.trans e))⟩
      funext b
      simp only [State.onDisk, hdev, hdisk]
    · right
      refine ⟨q, i, hact, fun hi => ?_⟩
      funext b
      simp only [State.onDisk, hdev, hdisk]
      by_cases hb : b = (s.cache.buf i).id.blockno
      · subst hb
        rw [← hi, Function.update_self, Function.update_self]
      · have hne : BlockId.sector ⟨s.log.log.dev, b⟩ ≠
            (s.cache.buf i).id.sector := by
          simpa [BlockId.sector] using fun _ => hb
        rw [Function.update_of_ne hb, Function.update_of_ne hne]
        rfl

omit [Fintype P] in
theorem logical_step (hcrash : ∀ p, a ≠ .crash p) (ht : step s a = .next t) :
    t.logical (nextShadow g s a) = s.logical g ∧
        (∀ q i data, s.cacheAct a ≠ some (.modify q i data)) ∨
      ∃ q i data, s.cacheAct a = some (.modify q i data) ∧
        ((s.cache.buf i).id.dev = s.log.log.dev →
          t.logical (nextShadow g s a) = Function.update (s.logical g)
            (s.cache.buf i).id.blockno data) := by
  obtain ⟨-, -, hdev⟩ := log_area hcrash ht
  rcases nextShadow_store (g := g) hcrash with
    ⟨q, i, data, hact, hstore⟩ | ⟨hno, hstore⟩
  · right
    refine ⟨q, i, data, hact, fun hi => ?_⟩
    funext b
    simp only [State.logical, hdev, hstore]
    by_cases hb : b = (s.cache.buf i).id.blockno
    · subst hb
      rw [← hi, Function.update_self, Function.update_self]
    · have hne : (⟨s.log.log.dev, b⟩ : BlockId) ≠ (s.cache.buf i).id := by
        intro e
        exact hb (by rw [← e])
      rw [Function.update_of_ne hb, Function.update_of_ne hne]
      rfl
  · left
    refine ⟨?_, hno⟩
    funext b
    simp only [State.logical, hdev, hstore]

/-- What a transfer does to the disk, to the store and to the header. -/
theorem transfer_spec (h : Sound s g) {o : Op}
    (ho : s.current p = some o) (ht : step s (.op p) = .next t) :
    t.onDisk = s.diskAfter p o ∧
      t.logical (nextShadow g s (.op p)) = s.logicalAfter g p o ∧
      t.log.log = s.headerAfter p o ∧ t.log.booted = s.log.booted := by
  obtain ⟨hidle, hlog, -, -⟩ := step_eq_next (by simp) ht
  have hdev : ∀ r ∈ o.uses,
      (s.cache.buf (s.reg p r)).id.dev = s.log.log.dev := fun r hr =>
    (h.data_eq hidle ho hr).1
  refine ⟨?_, ?_, ?_⟩
  · rcases onDisk_step h (by simp) ht with ⟨hdisk, hno⟩ | ⟨q, i, hact, hdisk⟩
    · rw [hdisk]
      cases o with
      | bwrite r => simp [State.cacheAct, ho] at hno
      | _ => rfl
    · simp only [State.cacheAct, ho] at hact
      cases o with
      | bwrite r =>
          simp only [Option.some.injEq, Cache.Act.bwrite.injEq] at hact
          obtain ⟨-, rfl⟩ := hact
          exact hdisk (hdev r (by simp [Op.uses]))
      | _ => simp at hact
  · rcases logical_step (g := g) (by simp) ht with
      ⟨hstore, hno⟩ | ⟨q, i, data, hact, hstore⟩
    · rw [hstore]
      cases o with
      | memmove dst src => simp [State.cacheAct, ho] at hno
      | fillHead r => simp [State.cacheAct, ho] at hno
      | _ => rfl
    · simp only [State.cacheAct, ho] at hact
      cases o with
      | memmove dst src =>
          simp only [Option.some.injEq, Cache.Act.modify.injEq] at hact
          obtain ⟨-, rfl, rfl⟩ := hact
          exact hstore (hdev dst (by simp [Op.uses]))
      | fillHead r =>
          simp only [Option.some.injEq, Cache.Act.modify.injEq] at hact
          obtain ⟨-, rfl, rfl⟩ := hact
          exact hstore (hdev r (by simp [Op.uses]))
      | _ => simp at hact
  · rcases hlog with ⟨hnone, hl⟩ | ⟨l, hact, hl⟩
    · rw [hl]
      cases o with
      | readHead r => simp [State.logAct, ho] at hnone
      | _ => exact ⟨rfl, rfl⟩
    · simp only [State.logAct, ho] at hact
      cases o with
      | readHead r =>
          simp only [Option.some.injEq] at hact
          subst hact
          simp only [Logging.step] at hl
          split_ifs at hl
          rw [← Outcome.next.inj hl]
          exact ⟨rfl, rfl⟩
      | _ => simp at hact

end Transfer

end ZtlOs.Transactions
