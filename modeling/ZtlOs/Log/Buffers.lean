import ZtlOs.Log.Coherence
import ZtlOs.Log.Recovery

/-!
# The buffers of a commit

The blocks of the header are pinned in the cache until `install_trans` has
copied them, one buffer each.  A commit that runs alone therefore finds a
buffer for every block that it reads, one more buffer than the log has room
for being enough.
-/

namespace ZtlOs.Transactions

open ZtlOs.Support ZtlOs.Fs ZtlOs.Cache ZtlOs.Logging

/-! ## The pinned blocks -/

/-- Blocks of the logged device are passed to `log_write`, and only the log
code writes. -/
def Unforced {P : Type*} (s : State P) : Act P → Prop
  | .bwrite _ _ => False
  | .logWrite _ i => (s.cache.buf i).id.dev = s.log.log.dev
  | _ => True

/-- A block of the header that `install_trans` has not copied is in a dirty
buffer. -/
def Pins {P : Type*} (s : State P) : Prop :=
  ∀ j b, s.log.log.lh[j]? = some b →
    (∀ q phase, s.log.pc q = .committing phase → awaits 3 phase (s.pos q) j) →
    ∃ i, (s.cache.buf i).id = ⟨s.log.log.dev, b⟩ ∧
      (s.cache.buf i).dirty = true

/-- The header and the dirty buffers belong together. -/
structure Kept {P : Type*} [Fintype P] (s : State P) (g : Shadow Block) :
    Prop where
  sound : Sound s g
  booted : s.log.booted = true
  pinned : ∀ i, (s.cache.buf i).dirty = true → Pinned s i
  pending_dev : ∀ q b, s.log.pc q = .logWrite b →
    (s.cache.buf (s.reg q 0)).id.dev = s.log.log.dev
  pins : Pins s

section Phase

variable {P : Type*} [DecidableEq P] {s t : Logging.State P} {p : P}
variable {phase : Phase}

/-- The end of a phase. -/
theorem phase_eq_next (hp : s.pc p = .committing phase)
    (hphase : phase ≠ .finish) :
    Logging.step s (.phase p) = .next { s with
      log := (s.log.advance phase).1
      pc := Function.update s.pc p
        (.committing (s.log.advance phase).2) } := by
  simp only [Logging.step, hp]
  cases phase with
  | finish => exact absurd rfl hphase
  | _ => rfl

end Phase

section Kept

variable {P : Type*} [Fintype P] [DecidableEq P] {s t : State P}
variable {g : Shadow Block} {a : Act P} {p q : P}

/-- The turn of `install_trans` for a slot lies ahead if it does after a
step. -/
theorem awaits_of_step (h : Sound s g) (ha : Unwritten a)
    (ht : step s a = .next t) {j b : ℕ} (hj : s.log.log.lh[j]? = some b)
    (hawaits : ∀ q phase, t.log.pc q = .committing phase →
      awaits 3 phase (t.pos q) j) {phase : Phase}
    (hq : s.log.pc q = .committing phase) : awaits 3 phase (s.pos q) j := by
  have hjlt : j < s.log.log.lh.length := (List.getElem?_eq_some_iff.mp hj).1
  have hne : s.log.log.lh ≠ [] := by
    rintro e
    rw [e] at hjlt
    cases hjlt
  by_cases hop : a = .op q
  · subst hop
    obtain ⟨hidle, hlog, -, hsettle⟩ := step_eq_next ha.crash ht
    cases ho : s.current q with
    | some o =>
        have hpc := pc_of_current ho ht
        obtain ⟨-, -, -, -, -, hpos, -⟩ := op_shape ho ht
        have haw := hawaits q phase (hpc.trans hq)
        rw [hpos] at haw
        cases phase with
        | installTrans tail =>
            simp only [awaits] at haw ⊢
            split_ifs at haw ⊢ <;> omega
        | _ => exact haw
    | none =>
        rcases hlog with ⟨hnone, -⟩ | ⟨l, hact, hl⟩
        · simp [State.logAct, ho] at hnone
        · simp only [State.logAct, ho, Option.some.injEq] at hact
          subst hact
          have hlast : (script s.log.log phase).length ≤ s.pos q := by
            simpa [State.current, phaseOf_of_committing hq] using ho
          have hnext : ∀ phase', phase ≠ .finish →
              (s.log.log.advance phase).2 = phase' →
              awaits 3 phase' (t.pos q) j := by
            intro phase' hfinish hphase'
            apply hawaits
            rw [phase_eq_next hq hfinish] at hl
            simp [← Outcome.next.inj hl, hphase']
          have hpos : t.pos q = 0 := by
            rw [hsettle]
            simp [State.settle, ho]
          rw [hpos] at hnext
          cases phase with
          | installTrans tail =>
              have haw := hnext _ (by simp) rfl
              simp only [Log.advance] at haw
              by_cases htail : tail < s.log.log.lh.length
              · simp only [htail, if_true, awaits] at haw ⊢
                rw [if_neg (by omega)] at haw
                split_ifs <;> omega
              · simp only [htail, if_false, awaits] at haw
          | clear => exact (hnext _ (by simp) rfl).elim
          | eraseHead =>
              exact absurd (h.log.cleared q _ (.inl hq) (.inl rfl)) hne
          | finish =>
              exact absurd (h.log.cleared q _ (.inl hq) (.inr rfl)) hne
          | _ => trivial
  · obtain ⟨-, -, hpc, hpos, -⟩ :=
      step_still h ha ht (phaseOf_of_committing hq) hop
    have haw := hawaits q phase (hpc.trans hq)
    rwa [hpos] at haw

omit [DecidableEq P] in
theorem Kept.not_recovering (h : Kept s g) {phase : Phase} :
    s.log.pc q ≠ .recovering phase := by
  intro hq
  have := h.sound.log.not_booted_of_pc q phase hq
  simp [h.booted] at this

omit [DecidableEq P] in
theorem Kept.pc_of_phaseOf (h : Kept s g) {phase : Phase}
    (hq : phaseOf (s.log.pc q) = some phase) :
    s.log.pc q = .committing phase :=
  (Logging.pc_of_phaseOf hq).resolve_right h.not_recovering

/-- A block that is still to be copied is not the one that is written. -/
theorem Kept.not_written (h : Kept s g) (ha : Unwritten a)
    (ht : step s a = .next t) {j b : ℕ} (hj : s.log.log.lh[j]? = some b)
    (hawaits : ∀ q phase, t.log.pc q = .committing phase →
      awaits 3 phase (t.pos q) j) {i : Fin NBUF}
    (hid : (s.cache.buf i).id = ⟨s.log.log.dev, b⟩) :
    s.cacheAct a ≠ some (.bwrite q i) := by
  intro hact
  obtain ⟨rfl, r, hcur, rfl⟩ := ha.cacheAct_bwrite hact
  obtain ⟨hidle, -⟩ := step_eq_next ha.crash ht
  have hout := h.sound.header.outside b (List.mem_of_getElem? hj)
  obtain ⟨phase, hphase, hwhich⟩ := h.sound.bwrite_spec hidle hcur
  have hq := h.pc_of_phaseOf hphase
  rcases hwhich with ⟨tail, rfl, htail, -, hslot⟩ |
      ⟨tail, rfl, htail, hthree, hhome⟩ | ⟨-, -, hhead⟩
  · rw [hid, BlockId.mk.injEq] at hslot
    exact slot_inside h.sound.header.length_le htail (hslot.2 ▸ hout)
  · rw [hid, BlockId.mk.injEq] at hhome
    obtain ⟨-, -, -, -, -, hpos, -⟩ := op_shape hcur ht
    have haw := hawaits q _ ((pc_of_current hcur ht).trans hq)
    rw [hpos, hthree] at haw
    have hlt : tail < j := haw
    have hjlt := (List.getElem?_eq_some_iff.mp hj).1
    have hget : s.log.log.lh[tail] = s.log.log.lh[j] := by
      rw [List.getElem?_eq_getElem hjlt] at hj
      rw [Option.some.inj hj, hhome.2]
      simp [home, List.getD, htail]
    exact hlt.ne ((h.sound.header.nodup.getElem_inj_iff).mp hget)
  · rw [hid, BlockId.mk.injEq] at hhead
    have hpos := h.sound.size_pos
    rw [hhead.2] at hout
    simp only [Outside] at hout
    omega

/-- A block of the header stays pinned. -/
theorem Kept.pins_old (h : Kept s g) (ha : Unwritten a)
    (ht : step s a = .next t) {j b : ℕ} (hj : s.log.log.lh[j]? = some b)
    (hs : ∀ q phase, s.log.pc q = .committing phase →
      awaits 3 phase (s.pos q) j)
    (hawaits : ∀ q phase, t.log.pc q = .committing phase →
      awaits 3 phase (t.pos q) j) :
    ∃ i, (t.cache.buf i).id = ⟨t.log.log.dev, b⟩ ∧
      (t.cache.buf i).dirty = true := by
  obtain ⟨i, hid, hdirty⟩ := h.pins j b hj hs
  obtain ⟨-, -, hdev⟩ := log_area ha.crash ht
  obtain ⟨-, -, hcache, -⟩ := step_eq_next ha.crash ht
  refine ⟨i, ?_⟩
  rw [hdev]
  rcases hcache with ⟨-, hc⟩ | ⟨c, hact, hc⟩
  · rw [hc]
    exact ⟨hid, hdirty⟩
  · rcases step_dirty h.sound.cache hc hdirty with ⟨hd, hi⟩ | ⟨q, rfl⟩
    · exact ⟨hi.trans hid, hd⟩
    · exact absurd hact (h.not_written ha ht hj hawaits hid)

theorem Kept.pins_step (h : Kept s g) (ha : Unwritten a)
    (ht : step s a = .next t) : Pins t := by
  intro j b hj hawaits
  obtain ⟨-, -, hdev⟩ := log_area ha.crash ht
  obtain ⟨-, hlog, hcache, hsettle⟩ := step_eq_next ha.crash ht
  have hsame : t.log.log.lh = s.log.log.lh →
      ∃ i, (t.cache.buf i).id = ⟨t.log.log.dev, b⟩ ∧
        (t.cache.buf i).dirty = true := by
    intro hlh
    rw [hlh] at hj
    exact h.pins_old ha ht hj
      (fun q phase hq => awaits_of_step h.sound ha ht hj hawaits hq)
      hawaits
  rcases hlog with ⟨-, hl⟩ | ⟨l, hl, hstep⟩
  · exact hsame (by rw [hl])
  · rcases step_lh hstep with hlh | ⟨q, -, -, hlh⟩ |
        ⟨q, blockno, rfl, hq, hlh⟩ | ⟨q, header, rfl, -⟩
    · exact hsame hlh
    · rw [hlh] at hj
      simp at hj
    · -- `log_write` pins the buffer of the block that it adds.
      have hactive : (s.log.pc q).isActive = true := by
        rw [hq]
        rfl
      have hnot : ∀ q' phase, s.log.pc q' = .committing phase →
          awaits 3 phase (s.pos q') j := by
        intro q' phase hq'
        have := h.sound.log.not_committing hactive
        simp [h.sound.log.committing_of_pc q' _ hq'] at this
      by_cases hmem : blockno ∈ s.log.log.lh
      · exact hsame (hlh.trans (absorb_of_mem hmem))
      · rw [hlh, absorb_of_not_mem hmem] at hj
        rcases lt_or_ge j s.log.log.lh.length with hjlt | hjge
        · rw [List.getElem?_append_left hjlt] at hj
          exact h.pins_old ha ht hj hnot hawaits
        · obtain rfl : b = blockno := by
            rw [List.getElem?_append_right hjge] at hj
            exact List.mem_singleton.mp (List.mem_of_getElem? hj)
          obtain rfl : a = .update q := by
            cases a with
            | update q' => simpa [State.logAct] using hl
            | op q' =>
                simp only [State.logAct] at hl
                split at hl <;> cases hl
            | _ => simp [State.logAct] at hl
          obtain ⟨-, hblockno, -⟩ := h.sound.pending q b hq
          refine ⟨s.reg q 0, ?_⟩
          rcases hcache with ⟨hnone, -⟩ | ⟨c, hact, hc⟩
          · simp [State.cacheAct] at hnone
          · obtain rfl : Cache.Act.pin q (s.reg q 0) = c := by
              simpa [State.cacheAct] using hact
            simp only [Cache.step] at hc
            split_ifs at hc
            rw [← Outcome.next.inj hc, hdev]
            simp only [Cache.State.setBuf, Function.update_self, and_true]
            rw [← hblockno, ← h.pending_dev q _ hq]
    · simp only [Logging.step] at hstep
      split_ifs at hstep with hq
      exact absurd hq h.not_recovering

/-- Every step of a disciplined run keeps the header and the dirty buffers
together. -/
theorem Kept.step (h : Kept s g) (hd : Disciplined s g a)
    (hf : Unforced s a) (hcrash : ∀ q, a ≠ .crash q)
    (ht : Transactions.step s a = .next t) : Kept t (nextShadow g s a) := by
  have ha : Unwritten a := by
    refine ⟨?_, hcrash⟩
    rintro q i rfl
    exact hf
  have hread : ∀ q header, s.logAct a = some (.readHead q header) →
      WellFormed s.log.log header := by
    intro q header hact
    cases a with
    | op q' =>
        simp only [State.logAct] at hact
        split at hact
        · cases hact
        · next r hcur =>
            obtain ⟨hidle, -⟩ := step_eq_next hcrash ht
            obtain ⟨hphase, -⟩ := h.sound.readHead_spec hidle hcur
            have := h.sound.log.inCommit q' _ (h.pc_of_phaseOf hphase)
            cases this
        · cases hact
    | _ => simp [State.logAct] at hact
  constructor
  case sound => exact h.sound.step hd hcrash hread ht
  case booted =>
    obtain ⟨-, hlog, -⟩ := step_eq_next hcrash ht
    rcases hlog with ⟨-, hl⟩ | ⟨l, -, hl⟩
    · rw [hl]
      exact h.booted
    · exact step_booted hl h.booted
  case pinned =>
    exact fun i hi => pinned_step h.sound ha h.pending_dev ht h.pinned hi
  case pending_dev =>
    intro q b hq
    refine pending_dev_step h.sound ha ?_ h.pending_dev ht hq
    rintro q i rfl
    exact hf
  case pins => exact h.pins_step ha ht

omit [DecidableEq P] in
theorem Booted.kept (h : Booted s) (hsound : Sound s g) : Kept s g where
  sound := hsound
  booted := h.log.booted
  pinned i hi := by
    rw [h.cache] at hi
    simp [binit] at hi
  pending_dev q b hq := by simp [h.log.pc] at hq
  pins j b hj := by simp [h.log.lh] at hj

end Kept

/-! ## A commit that runs alone -/

/-- The next step of a process in `commit`. -/
def State.turn {P : Type*} (s : State P) (p : P) : Act P :=
  match s.cache.call p with
  | .idle => .op p
  | .locking _ => .acquiresleep p
  | .loading _ => .load p
  | .releasing _ => .release p

/-- The block in a register of a process in a phase. -/
def State.holding {P : Type*} (s : State P) (p : P) (phase : Phase)
    (r : Fin 2) : Option ℕ :=
  held ((script s.log.log phase).take (s.pos p)) r

/-- No process but `p` uses the cache, and `p` locks what its registers
hold. -/
structure Alone {P : Type*} (s : State P) (p : P) (phase : Phase) : Prop where
  pc : s.log.pc p = .committing phase
  call_eq : ∀ q, q ≠ p → s.cache.call q = .idle
  locked : ∀ i q, (s.cache.buf i).lock = some q →
    q = p ∧ ∃ r b, s.holding p phase r = some b ∧ s.reg p r = i
  locking : ∀ i, s.cache.call p = .locking i →
    (s.cache.buf i).lock = none ∧
      ∃ r b, s.holding p phase r = some b ∧ s.reg p r = i

section Script

variable {log : Log} {phase : Phase} {n : ℕ} {r : Fin 2} {b : ℕ}

/-- A block is read into a free register, first one of the log area, and then
its home block. -/
theorem script_bread (h : (script log phase)[n]? = some (.bread r b)) :
    held ((script log phase).take n) r = none ∧
      (n = 0 ∨ ∃ tail, tail < log.lh.length ∧ b = home log tail ∧ n = 1 ∧
        (phase = .writeLog tail ∨ phase = .installTrans tail)) := by
  cases phase with
  | writeLog tail =>
      simp only [script] at h ⊢
      split_ifs at h ⊢ with htail
      · rcases n with _ | _ | _ | _ | _ | _ | n <;> simp at h
        · exact ⟨rfl, .inl rfl⟩
        · obtain ⟨rfl, rfl⟩ := h
          exact ⟨rfl, .inr ⟨tail, htail, rfl, rfl, .inl rfl⟩⟩
      · simp at h
  | installTrans tail =>
      simp only [script] at h ⊢
      split_ifs at h ⊢ with htail
      · rcases n with _ | _ | _ | _ | _ | _ | n <;> simp at h
        · exact ⟨rfl, .inl rfl⟩
        · obtain ⟨rfl, rfl⟩ := h
          exact ⟨rfl, .inr ⟨tail, htail, rfl, rfl, .inr rfl⟩⟩
      · simp at h
  | writeHead =>
      rcases n with _ | _ | _ | _ | n <;> simp [script] at h
      exact ⟨rfl, .inl rfl⟩
  | eraseHead =>
      rcases n with _ | _ | _ | _ | n <;> simp [script] at h
      exact ⟨rfl, .inl rfl⟩
  | readHead =>
      rcases n with _ | _ | _ | n <;> simp [script] at h
      exact ⟨rfl, .inl rfl⟩
  | _ => simp [script] at h

/-- A phase gives back all that it holds. -/
theorem script_released (h : (script log phase).length ≤ n) :
    held ((script log phase).take n) r = none := by
  rw [List.take_of_length_le h]
  have hr : r = 0 ∨ r = 1 := by
    revert r
    decide
  cases phase with
  | writeLog tail =>
      simp only [script]
      split_ifs <;> rcases hr with rfl | rfl <;> rfl
  | installTrans tail =>
      simp only [script]
      split_ifs <;> rcases hr with rfl | rfl <;> rfl
  | _ => rcases hr with rfl | rfl <;> rfl

theorem script_length_le : (script log phase).length ≤ 6 := by
  cases phase with
  | writeLog tail =>
      simp only [script]
      split_ifs <;> simp
  | installTrans tail =>
      simp only [script]
      split_ifs <;> simp
  | _ => simp [script]

/-- The blocks that the log code reads lie on the disk. -/
theorem blockno_lt_of_held (hlog : WellFormed log log.lh)
    (harea : log.start + log.size ≤ FSSIZE) (hsize : 0 < log.size)
    (h : held ((script log phase).take n) r = some b) : b < FSSIZE := by
  have hlength := hlog.length_le
  rcases blockno_of_mem_script (List.mem_of_mem_take (mem_of_held h)) with
    ⟨-, rfl | ⟨tail, htail, rfl⟩⟩ | ⟨-, tail, htail, rfl⟩
  · omega
  · simp only [slot]
    omega
  · exact hlog.lt _ (home_mem htail)

end Script

section Alone

variable {P : Type*} [Fintype P] [DecidableEq P] {s t : State P}
variable {g : Shadow Block} {a : Act P} {p q : P} {phase : Phase}

/-! ### Buffers for all blocks -/

omit [DecidableEq P] in
/-- There are fewer dirty buffers than buffers. -/
theorem Kept.exists_clean (h : Kept s g)
    (hlength : s.log.log.lh.length < NBUF) :
    ∃ i, (s.cache.buf i).dirty = false := by
  by_contra hall
  have hall : ∀ i, (s.cache.buf i).dirty = true := by simpa using hall
  have hinj : Function.Injective fun i => (s.cache.buf i).id.blockno := by
    intro i j hij
    have hused : ∀ k, (s.cache.buf k).used := fun k =>
      .inr (h.sound.cache.valid_of_dirty k (hall k))
    refine h.sound.cache.eq_of_id_eq (hused i) (hused j) ?_
    obtain ⟨-, hi, -⟩ := h.pinned i (hall i)
    obtain ⟨-, hj, -⟩ := h.pinned j (hall j)
    simp only at hij
    rw [← hj] at hi
    cases hidi : (s.cache.buf i).id
    cases hidj : (s.cache.buf j).id
    simp_all
  have hsub : Finset.univ.image (fun i => (s.cache.buf i).id.blockno) ⊆
      s.log.log.lh.toFinset := by
    intro b hb
    obtain ⟨i, -, rfl⟩ := Finset.mem_image.mp hb
    obtain ⟨-, -, j, hj, -⟩ := h.pinned i (hall i)
    exact List.mem_toFinset.mpr (List.mem_of_getElem? hj)
  have hcard := Finset.card_le_card hsub
  rw [Finset.card_image_of_injective _ hinj, Finset.card_univ,
    Fintype.card_fin] at hcard
  have := List.toFinset_card_le s.log.log.lh
  omega

omit [Fintype P] [DecidableEq P] in
theorem Alone.phaseOf_eq (hs : Alone s p phase) :
    phaseOf (s.log.pc p) = some phase :=
  phaseOf_of_committing hs.pc

omit [Fintype P] [DecidableEq P] in
theorem Alone.script_get (hs : Alone s p phase) {o : Op}
    (ho : s.current p = some o) :
    (script s.log.log phase)[s.pos p]? = some o := by
  obtain ⟨phase', hphase, hop⟩ := current_eq_some ho
  obtain rfl := Option.some.inj (hs.phaseOf_eq.symm.trans hphase)
  exact hop

omit [DecidableEq P] in
/-- With empty registers no buffer is referenced. -/
theorem Alone.unreferenced (h : Kept s g) (hs : Alone s p phase)
    (hidle : s.cache.call p = .idle)
    (hnone : ∀ r, s.holding p phase r = none) (i : Fin NBUF) :
    (s.cache.buf i).refcnt = 0 := by
  have hcall : ∀ q, s.cache.call q = .idle := by
    intro q
    by_cases hqp : q = p
    · rw [hqp, hidle]
    · exact hs.call_eq q hqp
  have hlock : (s.cache.buf i).lock = none := by
    by_contra hl
    obtain ⟨q, hq⟩ := Option.ne_none_iff_exists'.mp hl
    obtain ⟨-, r, b, hr, -⟩ := hs.locked i q hq
    rw [hnone] at hr
    cases hr
  have hwaiters : waiters s.cache.call i = ∅ := by
    ext q
    simp [mem_waiters, hcall, Call.waits]
  rw [h.sound.cache.refcnt_eq i, hwaiters, Buf.lockCount, hlock]
  rfl

omit [DecidableEq P] in
/-- `bget` finds the block or a buffer to recycle. -/
theorem Alone.supplied (h : Kept s g) (hs : Alone s p phase)
    (hlength : s.log.log.lh.length < NBUF)
    (hidle : s.cache.call p = .idle) {r : Fin 2} {b : ℕ}
    (hcur : s.current p = some (.bread r b)) :
    s.cache.cached ⟨s.log.log.dev, b⟩ ≠ none ∨ s.cache.unused ≠ none := by
  obtain ⟨-, hzero | ⟨tail, htail, rfl, hone, hphase⟩⟩ :=
    script_bread (hs.script_get hcur)
  · right
    obtain ⟨i, hclean⟩ := h.exists_clean hlength
    have href := hs.unreferenced h hidle (fun r => by
      rw [State.holding, hzero]
      rfl) i
    apply Option.ne_none_iff_isSome.mpr
    refine List.find?_isSome.mpr
      ⟨i, List.mem_reverse.mpr (h.sound.cache.mem_lru i), ?_⟩
    simp [href, hclean]
  · left
    have hget : s.log.log.lh[tail]? = some (home s.log.log tail) := by
      simp [home, List.getD, htail]
    obtain ⟨i, hid, hdirty⟩ := h.pins tail _ hget (by
      intro q phase' hq
      obtain rfl := h.sound.log.committing_unique q p _ _ hq hs.pc
      rw [hs.pc] at hq
      obtain rfl := Pc.committing.inj hq
      rw [hone]
      rcases hphase with rfl | rfl
      · trivial
      · simp [awaits])
    have hcached := h.sound.cache.cached_eq i
      (.inr (h.sound.cache.valid_of_dirty i hdirty))
    rw [hid] at hcached
    rw [hcached]
    exact Option.some_ne_none i

omit [Fintype P] in
theorem bget_eq_next {c : Cache.State P Block} {id : BlockId}
    (hidle : c.call p = .idle)
    (hfound : c.cached id ≠ none ∨ c.unused ≠ none) :
    ∃ u, Cache.step c (.bread p id) = .next u := by
  simp only [Cache.step, hidle, if_true, Cache.State.bget]
  cases hcached : c.cached id with
  | some i => exact ⟨_, rfl⟩
  | none =>
      obtain ⟨i, hi⟩ := Option.ne_none_iff_exists'.mp
        (hfound.resolve_left (by simp [hcached]))
      simp only [hi]
      exact ⟨_, rfl⟩

/-! ### Every step can be taken -/

omit [Fintype P] in
/-- A step that is one of the cache alone. -/
theorem step_of_cache {c : Cache.Act P Block} {u : Cache.State P Block}
    (hcrash : ∀ q, a ≠ .crash q) (henabled : s.enabled a)
    (hlog : s.logAct a = none) (hcache : s.cacheAct a = some c)
    (hu : Cache.step s.cache c = .next u) :
    step s a = .next (s.settle s.log u a) := by
  have hstep : (if s.enabled a then
      (stepOption Logging.step s.log (s.logAct a)).bind fun l =>
        (stepOption Cache.step s.cache (s.cacheAct a)).map fun c =>
          s.settle l c a
      else .blocked) = .next (s.settle s.log u a) := by
    rw [if_pos henabled, hlog, hcache]
    simp [stepOption, Outcome.bind, Outcome.map, hu]
  cases a with
  | crash q => exact absurd rfl (hcrash q)
  | _ => exact hstep

omit [Fintype P] [DecidableEq P] in
theorem iderw_next_of_lt {c : Cache.State P Block} {i : Fin NBUF}
    (hlock : (c.buf i).lock ≠ none)
    (hwork : (c.buf i).valid = false ∨ (c.buf i).dirty = true)
    (hlt : (c.buf i).id.blockno < FSSIZE) : ∃ u, c.iderw i = .next u := by
  have hclean : ¬ ((c.buf i).valid = true ∧ (c.buf i).dirty = false) := by
    rintro ⟨hvalid, hdirty⟩
    simp [hvalid, hdirty] at hwork
  simp only [Cache.State.iderw, if_neg hlock, if_neg hclean,
    if_neg (Nat.not_le.mpr hlt)]
  split_ifs <;> exact ⟨_, rfl⟩

omit [DecidableEq P] in
/-- The buffers in the registers hold blocks of the disk. -/
theorem Alone.blockno_lt (h : Kept s g) (hs : Alone s p phase)
    (harea : s.log.log.start + s.log.log.size ≤ FSSIZE) {i : Fin NBUF}
    (hlock : (s.cache.buf i).lock = some q) :
    (s.cache.buf i).id.blockno < FSSIZE := by
  obtain ⟨-, r, b, hr, rfl⟩ := hs.locked i q hlock
  obtain ⟨-, hid, -⟩ := h.sound.regs p phase hs.phaseOf_eq r b hr
  rw [hid]
  exact blockno_lt_of_held h.sound.header harea h.sound.size_pos hr

/-- The cache takes the transfer that `p` is about to make. -/
theorem Alone.transfer_next (h : Kept s g) (hs : Alone s p phase)
    (hlength : s.log.log.lh.length < NBUF)
    (harea : s.log.log.start + s.log.log.size ≤ FSSIZE)
    (hidle : s.cache.call p = .idle) {o : Op}
    (ho : s.current p = some o) :
    ∃ t, step s (.op p) = .next t := by
  have hholds : ∀ r ∈ o.uses, s.cache.holds p (s.reg p r) := by
    intro r hr
    obtain ⟨-, -, -, -, -, hholds, -⟩ := h.sound.uses_spec hidle ho hr
    exact hholds
  have hgoal : ∀ {c : Cache.Act P Block}, s.cacheAct (.op p) = some c →
      s.logAct (.op p) = none → (∃ u, Cache.step s.cache c = .next u) →
      ∃ t, step s (.op p) = .next t := by
    rintro c hc hl ⟨u, hu⟩
    exact ⟨_, step_of_cache (by simp) hidle hl hc hu⟩
  cases o with
  | bread r b =>
      apply hgoal (c := .bread p ⟨s.log.log.dev, b⟩)
        (by simp only [State.cacheAct, ho])
        (by simp only [State.logAct, ho])
      exact bget_eq_next hidle (hs.supplied h hlength hidle ho)
  | memmove dst src =>
      apply hgoal (c := .modify p (s.reg p dst) (s.data p src))
        (by simp only [State.cacheAct, ho])
        (by simp only [State.logAct, ho])
      simp [Cache.step, hholds dst (by simp [Op.uses])]
  | fillHead r =>
      apply hgoal (c := .modify p (s.reg p r) (setHead s.log.log.lh (s.data p r)))
        (by simp only [State.cacheAct, ho])
        (by simp only [State.logAct, ho])
      simp [Cache.step, hholds r (by simp [Op.uses])]
  | readHead r =>
      obtain ⟨rfl, -⟩ := phase_of_readHead (hs.script_get ho)
      cases h.sound.log.inCommit p _ hs.pc
  | bwrite r =>
      have hr := hholds r (by simp [Op.uses])
      apply hgoal (c := .bwrite p (s.reg p r))
        (by simp only [State.cacheAct, ho])
        (by simp only [State.logAct, ho])
      simp only [Cache.step, if_pos hr, Cache.State.bwrite]
      rw [if_neg (by rw [hr.2]; exact Option.some_ne_none p)]
      apply iderw_next_of_lt
      · simp [Cache.State.setBuf, hr.2]
      · simp [Cache.State.setBuf]
      · simpa [Cache.State.setBuf] using hs.blockno_lt h harea hr.2
  | brelse r =>
      apply hgoal (c := .brelse p (s.reg p r))
        (by simp only [State.cacheAct, ho])
        (by simp only [State.logAct, ho])
      simp [Cache.step, hholds r (by simp [Op.uses])]

omit [Fintype P] in
/-- The end of a phase. -/
theorem Alone.phase_next (hs : Alone s p phase) (hphase : phase ≠ .finish)
    (hidle : s.cache.call p = .idle) (ho : s.current p = none) :
    step s (.op p) = .next { s with
      log :=
        { s.log with
          log := (s.log.log.advance phase).1
          pc := Function.update s.log.pc p
            (.committing (s.log.log.advance phase).2) }
      pos := Function.update s.pos p 0 } := by
  have hlog : s.logAct (.op p) = some (.phase p) := by
    simp only [State.logAct, ho]
  have hcache : s.cacheAct (.op p) = none := by
    simp only [State.cacheAct, ho]
  have henabled : s.enabled (.op p) := hidle
  simp only [step, if_pos henabled, hlog, hcache, stepOption,
    phase_eq_next hs.pc hphase, Outcome.bind, Outcome.map, State.settle, ho]

/-- A commit that runs alone is never stuck. -/
theorem Alone.next (h : Kept s g) (hs : Alone s p phase)
    (hlength : s.log.log.lh.length < NBUF)
    (harea : s.log.log.start + s.log.log.size ≤ FSSIZE)
    (hfinish : ¬ (phase = .finish ∧ s.cache.call p = .idle)) :
    ∃ t, step s (s.turn p) = .next t := by
  cases hcall : s.cache.call p with
  | idle =>
      simp only [State.turn, hcall]
      cases ho : s.current p with
      | some o => exact hs.transfer_next h hlength harea hcall ho
      | none =>
          exact ⟨_, hs.phase_next (fun e => hfinish ⟨e, hcall⟩) hcall ho⟩
  | locking i =>
      simp only [State.turn, hcall]
      obtain ⟨u, hu⟩ : ∃ u, Cache.step s.cache (.acquiresleep p) = .next u := by
        simp [Cache.step, hcall, (hs.locking i hcall).1]
      exact ⟨_, step_of_cache (by simp) trivial rfl rfl hu⟩
  | loading i =>
      simp only [State.turn, hcall]
      have hlock := h.sound.cache.lock_of_loading p i hcall
      obtain ⟨u, hu⟩ : ∃ u, Cache.step s.cache (.load p) = .next u := by
        simp only [Cache.step, hcall]
        by_cases hvalid : (s.cache.buf i).valid = true
        · rw [if_pos hvalid]
          exact ⟨_, rfl⟩
        · rw [if_neg hvalid]
          obtain ⟨u, hu⟩ := iderw_next_of_lt
            (by rw [hlock]; exact Option.some_ne_none p)
            (.inl (by simpa using hvalid)) (hs.blockno_lt h harea hlock)
          rw [hu]
          exact ⟨_, rfl⟩
      exact ⟨_, step_of_cache (by simp) trivial rfl rfl hu⟩
  | releasing i =>
      simp only [State.turn, hcall]
      obtain ⟨u, hu⟩ : ∃ u, Cache.step s.cache (.release p) = .next u := by
        simp [Cache.step, hcall]
      exact ⟨_, step_of_cache (by simp) trivial rfl rfl hu⟩

/-! ### Every step leads further -/

/-- The steps that a process has to make before its next transfer. -/
def callWork : Call → ℕ
  | .idle => 0
  | .locking _ => 2
  | .loading _ | .releasing _ => 1

/-- The phases that are still to come, with `n` blocks in the header. -/
def phaseWork (n : ℕ) : Phase → ℕ
  | .commit => 2 * n + 6
  | .writeLog tail => n + 5 + (n - tail)
  | .writeHead => n + 4
  | .installTrans tail => 3 + (n - tail)
  | .clear => 2
  | .eraseHead => 1
  | .finish | .readHead => 0

/-- The work that is left to a process in a phase. -/
def State.work {P : Type*} (s : State P) (p : P) (phase : Phase) : ℕ :=
  100 * phaseWork s.log.log.lh.length phase + 10 * (6 - s.pos p) +
    callWork (s.cache.call p)

theorem phaseWork_advance {log : Log} (hphase : phase.inCommit = true)
    (hfinish : phase ≠ .finish) :
    phaseWork (log.advance phase).1.lh.length (log.advance phase).2 <
      phaseWork log.lh.length phase := by
  cases phase with
  | commit =>
      simp only [Log.advance]
      split_ifs <;> simp [phaseWork]
      omega
  | writeLog tail =>
      simp only [Log.advance]
      split_ifs <;> simp only [phaseWork] <;> omega
  | installTrans tail =>
      simp only [Log.advance]
      split_ifs <;> simp only [phaseWork] <;> omega
  | finish => exact absurd rfl hfinish
  | readHead => cases hphase
  | writeHead =>
      simp only [Log.advance, phaseWork]
      omega
  | clear => simp [Log.advance, phaseWork]
  | eraseHead => simp [Log.advance, phaseWork]

omit [Fintype P] in
/-- A step inside of a call of the cache. -/
theorem call_step (hcall : s.cache.call p ≠ .idle)
    (ht : step s (s.turn p) = .next t) :
    t.log = s.log ∧ t.pos = s.pos ∧ t.reg = s.reg ∧
      ∃ c : Cache.Act P Block, Cache.step s.cache c = .next t.cache ∧
        c.actor = p ∧ (∀ i, c ≠ .brelse p i) ∧
        ((∃ i, s.cache.call p = .locking i ∧ t.cache.call p = .loading i) ∨
          s.cache.call p ≠ .idle ∧ t.cache.call p = .idle) := by
  have hof : ∀ {a : Act P} {c : Cache.Act P Block}, s.turn p = a →
      (∀ q, a ≠ .crash q) → s.cacheAct a = some c → s.logAct a = none →
      t.log = s.log ∧ Cache.step s.cache c = .next t.cache ∧
        t = s.settle t.log t.cache a := by
    intro a c ha hcrash hact hnone
    rw [ha] at ht
    obtain ⟨-, hlog, hcache, hsettle⟩ := step_eq_next hcrash ht
    refine ⟨?_, ?_, hsettle⟩
    · rcases hlog with ⟨-, hl⟩ | ⟨l, hl, -⟩
      · exact hl
      · simp [hnone] at hl
    · rcases hcache with ⟨hc, -⟩ | ⟨c', hc, hstep⟩
      · simp [hact] at hc
      · obtain rfl := Option.some.inj (hact.symm.trans hc)
        exact hstep
  cases hc : s.cache.call p with
  | idle => exact absurd hc hcall
  | locking i =>
      obtain ⟨hlog, hstep, hsettle⟩ := hof (a := .acquiresleep p)
        (by simp [State.turn, hc]) (by simp) rfl rfl
      refine ⟨hlog, by rw [hsettle]; rfl, by rw [hsettle]; rfl, _, hstep, rfl,
        by simp, .inl ⟨i, rfl, ?_⟩⟩
      simp only [Cache.step, hc] at hstep
      split_ifs at hstep
      rw [← Outcome.next.inj hstep]
      simp [Cache.State.setCall]
  | loading i =>
      obtain ⟨hlog, hstep, hsettle⟩ := hof (a := .load p)
        (by simp [State.turn, hc]) (by simp) rfl rfl
      refine ⟨hlog, by rw [hsettle]; rfl, by rw [hsettle]; rfl, _, hstep, rfl,
        by simp, .inr ⟨by simp, ?_⟩⟩
      simp only [Cache.step, hc] at hstep
      split_ifs at hstep
      · rw [← Outcome.next.inj hstep]
        simp [Cache.State.setCall]
      · obtain ⟨u, -, hu⟩ := Outcome.map_eq_next hstep
        rw [hu]
        simp [Cache.State.setCall]
  | releasing i =>
      obtain ⟨hlog, hstep, hsettle⟩ := hof (a := .release p)
        (by simp [State.turn, hc]) (by simp) rfl rfl
      refine ⟨hlog, by rw [hsettle]; rfl, by rw [hsettle]; rfl, _, hstep, rfl,
        by simp, .inr ⟨by simp, ?_⟩⟩
      simp only [Cache.step, hc] at hstep
      rw [← Outcome.next.inj hstep]
      simp [Cache.State.setCall]

omit [Fintype P] in
theorem Alone.of_call (hs : Alone s p phase) (hcall : s.cache.call p ≠ .idle)
    (ht : step s (s.turn p) = .next t) :
    Alone t p phase ∧ t.work p phase < s.work p phase := by
  obtain ⟨hlog, hpos, hreg, c, hstep, hactor, -, hnext⟩ := call_step hcall ht
  have hholding : ∀ r, t.holding p phase r = s.holding p phase r := by
    intro r
    rw [State.holding, State.holding, hlog, hpos]
  constructor
  · constructor
    case pc => rw [hlog]; exact hs.pc
    case call_eq =>
      intro q hq
      rw [step_call hstep (hactor ▸ hq)]
      exact hs.call_eq q hq
    case locked =>
      intro i q hi
      rcases lock_of_step hstep hi with hi | ⟨hc, hq, -⟩
      · obtain ⟨hqp, r, b, hr, hri⟩ := hs.locked i q hi
        exact ⟨hqp, r, b, by rw [hholding, hr], by rw [hreg, hri]⟩
      · obtain rfl : q = p := by
          rw [← hactor, hc]
          rfl
        obtain ⟨-, r, b, hr, hri⟩ := hs.locking i hq
        exact ⟨rfl, r, b, by rw [hholding, hr], by rw [hreg, hri]⟩
    case locking =>
      intro i hi
      rcases hnext with ⟨j, -, hj⟩ | ⟨-, hj⟩
      · rw [hi] at hj
        cases hj
      · rw [hi] at hj
        cases hj
  · simp only [State.work, hlog, hpos]
    rcases hnext with ⟨j, hj, hj'⟩ | ⟨hj, hj'⟩
    · rw [hj, hj']
      simp [callWork]
    · rw [hj']
      cases hc : s.cache.call p with
      | idle => exact absurd hc hj
      | _ => simp [callWork]

omit [Fintype P] in
theorem Alone.of_phase (hs : Alone s p phase)
    (hphase : phase.inCommit = true) (hfinish : phase ≠ .finish)
    (hidle : s.cache.call p = .idle) (ho : s.current p = none)
    (ht : step s (.op p) = .next t) :
    ∃ phase', Alone t p phase' ∧ t.work p phase' < s.work p phase := by
  rw [hs.phase_next hfinish hidle ho] at ht
  have hlast : (script s.log.log phase).length ≤ s.pos p := by
    simpa [State.current, hs.phaseOf_eq] using ho
  have hfree : ∀ i, (s.cache.buf i).lock = none := by
    intro i
    by_contra hi
    obtain ⟨q, hq⟩ := Option.ne_none_iff_exists'.mp hi
    obtain ⟨-, r, b, hr, -⟩ := hs.locked i q hq
    rw [State.holding, script_released hlast] at hr
    cases hr
  refine ⟨(s.log.log.advance phase).2, ?_⟩
  rw [← Outcome.next.inj ht]
  constructor
  · constructor
    case pc => simp
    case call_eq => exact hs.call_eq
    case locked =>
      intro i q hi
      rw [hfree i] at hi
      cases hi
    case locking =>
      intro i hi
      rw [hidle] at hi
      cases hi
  · have : phaseWork (s.log.log.advance phase).1.lh.length
        (s.log.log.advance phase).2 < phaseWork s.log.log.lh.length phase :=
      phaseWork_advance hphase hfinish
    simp only [State.work, Function.update_self, hidle, callWork]
    omega

/-- A buffer that `bget` has picked is not locked. -/
theorem Alone.free_of_bread (h : Kept s g) (hs : Alone s p phase)
    (hidle : s.cache.call p = .idle) {r : Fin 2} {b : ℕ}
    (ho : s.current p = some (.bread r b)) {c : Cache.State P Block}
    (hc : Cache.step s.cache (.bread p ⟨s.log.log.dev, b⟩) = .next c)
    {i : Fin NBUF} (hi : c.call p = .locking i) :
    (s.cache.buf i).lock = none := by
  have hop := hs.script_get ho
  by_contra hlock
  obtain ⟨q, hq⟩ := Option.ne_none_iff_exists'.mp hlock
  obtain ⟨-, r', b', hr', rfl⟩ := hs.locked i q hq
  have href := h.sound.refcnt_ne_zero (.inl hq)
  have hid := (h.sound.reg_spec hs.phaseOf_eq hidle hr').2.1
  -- The block is cached in a buffer of the same name.
  obtain ⟨j, hcall, hj⟩ := bread_locking hc
  obtain rfl : j = s.reg p r' := Call.locking.inj (hcall.symm.trans hi)
  have hid' := step_id hc href
  rw [hj, hid, BlockId.mk.injEq] at hid'
  obtain rfl := hid'.2
  obtain ⟨hnone, -⟩ := script_bread hop
  have hne : r' ≠ r := by
    rintro rfl
    rw [State.holding, hnone] at hr'
    cases hr'
  have hheld : held ((script s.log.log phase).take (s.pos p + 1)) r' =
      some b := by
    rw [held_take_succ hop, Op.hold, Function.update_of_ne hne]
    exact hr'
  refine hne (script_distinct h.sound.header h.sound.size_pos hheld ?_)
  rw [held_take_succ hop, Op.hold, Function.update_self]

omit [Fintype P] in
theorem call_of_modify {c c' : Cache.State P Block} {i : Fin NBUF}
    {data : Block} (hc : Cache.step c (.modify p i data) = .next c') :
    c'.call = c.call := by
  simp only [Cache.step] at hc
  split_ifs at hc
  rw [← Outcome.next.inj hc]
  rfl

omit [Fintype P] in
theorem call_of_bwrite {c c' : Cache.State P Block} {i : Fin NBUF}
    (hc : Cache.step c (.bwrite p i) = .next c') : c'.call = c.call := by
  simp only [Cache.step] at hc
  split_ifs at hc
  exact (bwrite_eq_next hc).2.2.1

theorem Alone.of_op (h : Kept s g) (hs : Alone s p phase) {o : Op}
    (ho : s.current p = some o) (ht : step s (.op p) = .next t) :
    Alone t p phase ∧ t.work p phase < s.work p phase := by
  obtain ⟨hidle, hlog, -, hsettle⟩ := step_eq_next (by simp) ht
  have hop := hs.script_get ho
  obtain ⟨phase', hphase', -, -, -, hpos, -, hcache⟩ := op_shape ho ht
  have hread : ∀ r, o ≠ .readHead r := by
    rintro r rfl
    obtain ⟨rfl, -⟩ := phase_of_readHead hop
    cases h.sound.log.inCommit p _ hs.pc
  have hlog : t.log = s.log := by
    rcases hlog with ⟨-, hl⟩ | ⟨l, hact, -⟩
    · exact hl
    · simp only [State.logAct, ho] at hact
      cases o with
      | readHead r => exact absurd rfl (hread r)
      | _ => cases hact
  obtain ⟨c, hact, hstep⟩ := hcache.resolve_left
    (by rintro ⟨-, r, hr⟩; exact hread r hr)
  have hholding : ∀ r, t.holding p phase r = o.hold (s.holding p phase) r := by
    intro r
    rw [State.holding, hlog, hpos, held_take_succ hop]
    rfl
  have hactor : c.actor = p := cacheAct_actor hact
  have hother : ∀ q, q ≠ p → t.cache.call q = .idle := by
    intro q hq
    rw [step_call hstep (hactor ▸ hq)]
    exact hs.call_eq q hq
  have hold : ∀ i q, (t.cache.buf i).lock = some q →
      (s.cache.buf i).lock = some q := by
    intro i q hi
    refine (lock_of_step hstep hi).resolve_right ?_
    rintro ⟨-, hq, -⟩
    by_cases hqp : q = p
    · rw [hqp, hidle] at hq
      cases hq
    · rw [hs.call_eq q hqp] at hq
      cases hq
  have hlt : s.pos p < 6 := Nat.lt_of_lt_of_le
    (List.getElem?_eq_some_iff.mp hop).1 script_length_le
  have hwork : ∀ n, callWork (t.cache.call p) = n → n ≤ 2 →
      t.work p phase < s.work p phase := by
    intro n hn hle
    simp only [State.work, hlog, hpos, hn]
    omega
  have hpc : t.log.pc p = .committing phase := by
    rw [hlog]
    exact hs.pc
  -- A transfer that leaves the registers and the locks alone.
  have hquiet : t.cache.call p = .idle → t.reg = s.reg →
      o.hold (s.holding p phase) = s.holding p phase →
      Alone t p phase ∧ t.work p phase < s.work p phase := by
    intro hcall hreg hhold
    refine ⟨⟨hpc, hother, ?_, ?_⟩, hwork 0 (by rw [hcall]; rfl) (by omega)⟩
    · intro j q hj
      obtain ⟨hqp, r', b', hr', hreg'⟩ := hs.locked j q (hold j q hj)
      exact ⟨hqp, r', b', by rw [hholding, hhold, hr'], by rw [hreg, hreg']⟩
    · intro j hj
      rw [hcall] at hj
      cases hj
  cases o with
  | bread r b =>
      simp only [State.cacheAct, ho, Option.some.injEq] at hact
      subst hact
      obtain ⟨i, hcall, -⟩ := bread_locking hstep
      have hreg : t.reg p = Function.update (s.reg p) r i := by
        rw [hsettle]
        simp [State.settle, ho, hcall, bufferOf]
      refine ⟨⟨hpc, hother, ?_, ?_⟩, hwork 2 (by rw [hcall]; rfl) le_rfl⟩
      · intro j q hj
        obtain ⟨hqp, r', b', hr', hreg'⟩ := hs.locked j q (hold j q hj)
        have hne : r' ≠ r := by
          rintro rfl
          rw [State.holding, (script_bread hop).1] at hr'
          cases hr'
        refine ⟨hqp, r', b', ?_, ?_⟩
        · rw [hholding, Op.hold, Function.update_of_ne hne, hr']
        · rw [hreg, Function.update_of_ne hne, hreg']
      · intro j hj
        obtain rfl := Call.locking.inj (hcall.symm.trans hj)
        refine ⟨?_, r, b, ?_, ?_⟩
        · by_contra hlock
          obtain ⟨q, hq⟩ := Option.ne_none_iff_exists'.mp hlock
          have := hold i q hq
          rw [hs.free_of_bread h hidle ho hstep hcall] at this
          cases this
        · rw [hholding, Op.hold, Function.update_self]
        · rw [hreg, Function.update_self]
  | brelse r =>
      simp only [State.cacheAct, ho, Option.some.injEq] at hact
      subst hact
      have hreg : t.reg = s.reg := by
        rw [hsettle]
        simp [State.settle, ho]
      simp only [Cache.step] at hstep
      split_ifs at hstep
      have hc := Outcome.next.inj hstep
      have hcall : t.cache.call p = .releasing (s.reg p r) := by
        rw [← hc]
        simp [Cache.State.setCall]
      refine ⟨⟨hpc, hother, ?_, ?_⟩, hwork 1 (by rw [hcall]; rfl) (by omega)⟩
      · intro j q hj
        obtain ⟨hqp, r', b', hr', hreg'⟩ := hs.locked j q (hold j q hj)
        have hne : r' ≠ r := by
          rintro rfl
          rw [← hc, ← hreg'] at hj
          simp [Cache.State.setCall, Cache.State.setBuf] at hj
        refine ⟨hqp, r', b', ?_, by rw [hreg, hreg']⟩
        rw [hholding, Op.hold, Function.update_of_ne hne, hr']
      · intro j hj
        rw [hcall] at hj
        cases hj
  | readHead r => exact absurd rfl (hread r)
  | memmove dst src =>
      simp only [State.cacheAct, ho, Option.some.injEq] at hact
      subst hact
      exact hquiet (by rw [call_of_modify hstep, hidle])
        (by rw [hsettle]; simp [State.settle, ho]) rfl
  | fillHead r =>
      simp only [State.cacheAct, ho, Option.some.injEq] at hact
      subst hact
      exact hquiet (by rw [call_of_modify hstep, hidle])
        (by rw [hsettle]; simp [State.settle, ho]) rfl
  | bwrite r =>
      simp only [State.cacheAct, ho, Option.some.injEq] at hact
      subst hact
      exact hquiet (by rw [call_of_bwrite hstep, hidle])
        (by rw [hsettle]; simp [State.settle, ho]) rfl

/-- A buffer for every block that is read, and no pinned buffer gives way
before `install_trans` writes it. -/
structure Orderly (s : State P) (p : P) (a : Act P) : Prop where
  found : ∀ r b, s.cache.call p = .idle → s.current p = some (.bread r b) →
    s.cache.cached ⟨s.log.log.dev, b⟩ ≠ none ∨ s.cache.unused ≠ none
  kept : ∀ t i, step s a = .next t → (s.cache.buf i).dirty = true →
    (t.cache.buf i).dirty = true ∧
        (t.cache.buf i).id = (s.cache.buf i).id ∨
      ∃ tail, s.log.pc p = .committing (.installTrans tail) ∧
        (s.cache.buf i).id = ⟨s.log.log.dev, home s.log.log tail⟩ ∧
        s.cacheAct a = some (.bwrite p i)

omit [Fintype P] [DecidableEq P] in
theorem turn_unwritten : Unwritten (s.turn p) := by
  unfold State.turn
  split <;> exact ⟨by simp, by simp⟩

omit [Fintype P] [DecidableEq P] in
theorem turn_disciplined : Disciplined s g (s.turn p) := by
  unfold State.turn
  split <;> trivial

omit [Fintype P] [DecidableEq P] in
theorem turn_unforced : Unforced s (s.turn p) := by
  unfold State.turn
  split <;> trivial

/-- Only `install_trans` writes a pinned buffer. -/
theorem Alone.dirty_step (h : Kept s g) (hs : Alone s p phase)
    (ht : step s (s.turn p) = .next t) {i : Fin NBUF}
    (hi : (s.cache.buf i).dirty = true) :
    (t.cache.buf i).dirty = true ∧
        (t.cache.buf i).id = (s.cache.buf i).id ∨
      ∃ tail, s.log.pc p = .committing (.installTrans tail) ∧
        (s.cache.buf i).id = ⟨s.log.log.dev, home s.log.log tail⟩ ∧
        s.cacheAct (s.turn p) = some (.bwrite p i) := by
  have ha : Unwritten (s.turn p) := turn_unwritten
  obtain ⟨henabled, -, hcache, -⟩ := step_eq_next ha.crash ht
  rcases hcache with ⟨-, hc⟩ | ⟨c, hact, hc⟩
  · left
    rw [hc]
    exact ⟨hi, rfl⟩
  · refine (step_dirty h.sound.cache hc hi).imp_right ?_
    rintro ⟨q, rfl⟩
    obtain ⟨hop, r, hcur, rfl⟩ := ha.cacheAct_bwrite hact
    rw [hop] at henabled hact
    obtain ⟨phase', hphase, hwhich⟩ := h.sound.bwrite_spec henabled hcur
    have hpc := h.pc_of_phaseOf hphase
    obtain rfl := h.sound.log.committing_unique q p _ _ hpc hs.pc
    obtain ⟨-, -, j, hj, -⟩ := h.pinned _ hi
    have hout := h.sound.header.outside _ (List.mem_of_getElem? hj)
    rcases hwhich with ⟨tail, rfl, htail, -, hid⟩ | ⟨tail, rfl, -, -, hid⟩ |
        ⟨-, -, hid⟩
    · rw [hid] at hout
      exact absurd hout (slot_inside h.sound.header.length_le htail)
    · exact ⟨tail, hpc, hid, by rw [hop, hact]⟩
    · have hpos := h.sound.size_pos
      rw [hid] at hout
      simp only [Outside] at hout
      omega

theorem Alone.step (h : Kept s g) (hs : Alone s p phase)
    (hfinish : ¬ (phase = .finish ∧ s.cache.call p = .idle))
    (ht : Transactions.step s (s.turn p) = .next t) :
    ∃ phase', Alone t p phase' ∧ t.work p phase' < s.work p phase := by
  by_cases hcall : s.cache.call p = .idle
  · have hturn : s.turn p = .op p := by
      unfold State.turn
      rw [hcall]
    rw [hturn] at ht
    cases ho : s.current p with
    | some o => exact ⟨phase, hs.of_op h ho ht⟩
    | none =>
        exact hs.of_phase (h.sound.log.inCommit p _ hs.pc)
          (fun e => hfinish ⟨e, hcall⟩) hcall ho ht
  · exact ⟨phase, hs.of_call hcall ht⟩

end Alone

/-! ## The theorem -/

section Commit

variable {P : Type*} [Fintype P] [DecidableEq P]

/-- The work that is left to `p`. -/
def State.left (s : State P) (p : P) : ℕ :=
  match s.log.pc p with
  | .committing phase => s.work p phase
  | _ => 0

/-- A commit that runs alone gets to its end. -/
theorem Alone.finishes {s : State P} {g : Shadow Block} {p : P}
    {phase : Phase} (h : Kept s g) (hs : Alone s p phase)
    (hsize : s.log.log.size ≤ LOGSIZE)
    (harea : s.log.log.start + s.log.log.size ≤ FSSIZE) :
    ∃ v t, Run Transactions.step s v t ∧
      Meets Transactions.step (fun u a => a = u.turn p ∧ Orderly u p a) s v ∧
      (∃ g', Kept t g') ∧ t.log.pc p = .committing .finish ∧
      t.cache.call p = .idle := by
  obtain ⟨v, t, hrun, hmeets, ⟨g', phase', hk, ha, -⟩, hdone⟩ :=
    exists_run_of_measure Transactions.step
      (fun u => ∃ g phase, Kept u g ∧ Alone u p phase ∧
        u.log.log.size ≤ LOGSIZE ∧ u.log.log.start + u.log.log.size ≤ FSSIZE)
      (fun u => u.log.pc p = .committing .finish ∧ u.cache.call p = .idle)
      (fun u a => Orderly u p a) (fun u => u.turn p) (fun u => u.left p) (by
        rintro u ⟨g, phase, hk, ha, hsize, harea⟩ hnot
        have hfinish : ¬ (phase = .finish ∧ u.cache.call p = .idle) := by
          rintro ⟨rfl, hidle⟩
          exact hnot ⟨ha.pc, hidle⟩
        have hlength : u.log.log.lh.length < NBUF := by
          have := hk.sound.header.length_le
          have := hk.sound.size_pos
          simp only [LOGSIZE, NBUF] at hsize ⊢
          omega
        obtain ⟨t, ht⟩ := ha.next hk hlength harea hfinish
        obtain ⟨phase', hphase', hlt⟩ := ha.step hk hfinish ht
        have hturn : Unwritten (u.turn p) := turn_unwritten
        obtain ⟨hstart, hz, -⟩ := log_area hturn.crash ht
        have hk' := hk.step turn_disciplined turn_unforced hturn.crash ht
        refine ⟨⟨?_, ?_⟩, t, ht, ⟨_, phase', hk', hphase', ?_, ?_⟩, ?_⟩
        · exact fun r b hidle hcur => ha.supplied hk hlength hidle hcur
        · intro t' i ht' hi
          exact ha.dirty_step hk ht' hi
        · rw [hz]
          exact hsize
        · rw [hstart, hz]
          exact harea
        · simp only [State.left, ha.pc, hphase'.pc]
          exact hlt)
      s ⟨g, phase, h, hs, hsize, harea⟩
  exact ⟨v, t, hrun, hmeets, ⟨g', hk⟩, hdone⟩

/-- In a state in which no process holds a buffer, exactly the blocks of the
header are pinned, and a commit finds a buffer for each block that it reads,
writes every pinned buffer before it can be recycled, and ends with an empty
header and no dirty buffer. -/
theorem commit_never_out_of_buffers {s₀ s : Traced P} {w : List (Act P)}
    (hs₀ : s₀.Initial) (hsize : s₀.state.log.log.size ≤ LOGSIZE)
    (harea : s₀.state.log.log.start + s₀.state.log.log.size ≤ FSSIZE)
    (hrun : Run Traced.step s₀ w s)
    (hw : Meets Traced.step (fun s a => Stated s a ∧ Unforced s.state a) s₀ w)
    {p : P} (hp : s.state.log.pc p = .committing .commit)
    (hfree : ∀ i, (s.state.cache.buf i).refcnt = 0) :
    (∀ i, (s.state.cache.buf i).dirty = true →
        (s.state.cache.buf i).id.dev = s.state.log.log.dev ∧
          (s.state.cache.buf i).id.blockno ∈ s.state.log.log.lh) ∧
      (∀ b ∈ s.state.log.log.lh, ∃ i,
        (s.state.cache.buf i).id = ⟨s.state.log.log.dev, b⟩ ∧
          (s.state.cache.buf i).dirty = true) ∧
      ∃ v t, Run Transactions.step s.state v t ∧
        Meets Transactions.step (fun u a => a = u.turn p ∧ Orderly u p a)
          s.state v ∧
        t.log.pc p = .committing .finish ∧ t.cache.call p = .idle ∧
        t.log.log.lh = [] ∧ ∀ i, (t.cache.buf i).dirty = false := by
  obtain ⟨h, hz, ha⟩ : Kept s.state s.shadow ∧
      s.state.log.log.size ≤ LOGSIZE ∧
      s.state.log.log.start + s.state.log.log.size ≤ FSSIZE := by
    refine hrun.invariant_of_meets (I := fun s : Traced P =>
      Kept s.state s.shadow ∧ s.state.log.log.size ≤ LOGSIZE ∧
        s.state.log.log.start + s.state.log.log.size ≤ FSSIZE) ?_ hw
      ⟨hs₀.booted.kept hs₀.tracks.sound, hsize, harea⟩
    rintro s a t ⟨h, hz, ha⟩ ⟨⟨hd, hcrash⟩, hf⟩ ht
    obtain ⟨hstep, htrace⟩ := Traced.step_eq_next ht
    obtain ⟨hstart, hsize', -⟩ := log_area hcrash hstep
    have hshadow : t.shadow = nextShadow s.shadow s.state a := by
      rw [htrace]
      rfl
    rw [hshadow, hstart, hsize']
    exact ⟨h.step hd hf hcrash hstep, hz, ha⟩
  have hlock : ∀ i q, (s.state.cache.buf i).lock ≠ some q := by
    intro i q hq
    exact h.sound.refcnt_ne_zero (.inl hq) (hfree i)
  have hidle : ∀ q, s.state.cache.call q = .idle := by
    intro q
    cases hc : s.state.cache.call q with
    | idle => rfl
    | locking i =>
        exact absurd (hfree i) (h.sound.refcnt_ne_zero (.inr hc))
    | loading i =>
        exact absurd (h.sound.cache.lock_of_loading q i hc) (hlock i q)
    | releasing i =>
        have hused := h.sound.cache.refcnt_eq i
        have hpos := Finset.card_pos.mpr ⟨q, mem_waiters.mpr
          (by simp [hc, Call.waits] : (s.state.cache.call q).waits i = true)⟩
        have := hfree i
        omega
  have halone : Alone s.state p .commit := by
    refine ⟨hp, fun q _ => hidle q, fun i q hq => absurd hq (hlock i q), ?_⟩
    intro i hi
    rw [hidle p] at hi
    cases hi
  refine ⟨?_, ?_, ?_⟩
  · intro i hi
    obtain ⟨-, hdev, j, hj, -⟩ := h.pinned i hi
    exact ⟨hdev, List.mem_of_getElem? hj⟩
  · intro b hb
    obtain ⟨j, hj⟩ := List.getElem?_of_mem hb
    refine h.pins j b hj fun q phase hq => ?_
    obtain rfl := h.sound.log.committing_unique q p _ _ hq hp
    obtain rfl := Pc.committing.inj (hq.symm.trans hp)
    trivial
  · obtain ⟨v, t, hrun', hmeets, ⟨g', hk⟩, hfinish, hcall⟩ :=
      halone.finishes h hz ha
    refine ⟨v, t, hrun', hmeets, hfinish, hcall, ?_, ?_⟩
    · exact hk.sound.log.cleared p _ (.inl hfinish) (.inr rfl)
    · intro i
      by_contra hi
      obtain ⟨-, -, j, -, haw⟩ := hk.pinned i (by simpa using hi)
      exact haw p _ hfinish

end Commit

/-! ## A commit of one block -/

instance {P : Type*} (s : State P) : ∀ a, Decidable (Unforced s a)
  | .bwrite _ _ => .isFalse id
  | .logWrite _ _ => inferInstanceAs (Decidable (_ = _))
  | .bread _ _ | .brelse _ _ | .update _ | .modify _ _ _ | .beginOp _
  | .endOp _ | .acquiresleep _ | .load _ | .release _ | .op _ | .crash _ =>
      .isTrue trivial

theorem commit_never_out_of_buffers_oneOperation :
    ∃ s v t, Run Traced.step (Traced.zero (Fin 2))
        (oneOperation 0 (fun _ => 1)) s ∧ s.state.log.log.lh = [40] ∧
      Run step s.state v t ∧ t.log.pc 0 = .committing .finish ∧
      t.log.log.lh = [] ∧ ∀ i, (t.cache.buf i).dirty = false := by
  obtain ⟨s, hrun, hs⟩ := Run.exists_of_exec Traced.step
    (Traced.zero (Fin 2)) (oneOperation 0 (fun _ => 1))
    (fun s => s.state.log.pc 0 = .committing .commit &&
      s.state.log.log.lh = [40] &&
      (List.finRange NBUF).all fun i => (s.state.cache.buf i).refcnt = 0)
    (by decide +kernel)
  simp only [Bool.and_eq_true, decide_eq_true_eq, List.all_eq_true,
    List.mem_finRange, true_implies] at hs
  obtain ⟨⟨hp, hlh⟩, hfree⟩ := hs
  obtain ⟨-, -, v, t, hv, -, hfinish, -, hempty, hclean⟩ :=
    commit_never_out_of_buffers Traced.zero_initial (by decide) (by decide)
      hrun (by decide +kernel) hp hfree
  exact ⟨s, v, t, hrun, hlh, hv, hfinish, hempty, hclean⟩

end ZtlOs.Transactions
