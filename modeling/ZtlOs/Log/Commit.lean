import ZtlOs.Log.Transfers

/-!
# Copying to the log area and back

While a commit runs, the slots that `write_log` has filled have the contents
of the blocks of the header, so that `install_trans` puts into each block what
it has already.
-/

namespace ZtlOs.Transactions

open ZtlOs.Support ZtlOs.Fs ZtlOs.Cache ZtlOs.Logging

/-! ## The copies in the log area -/

/-- How many blocks have been copied to the log area when a process is at the
transfer `pos` of a phase. -/
def copied (n : ℕ) (pos : ℕ) : Phase → ℕ
  | .writeLog tail => if 3 ≤ pos then tail + 1 else tail
  | .writeHead | .installTrans _ => n
  | _ => 0

section Script

variable {log : Log} {tail n : ℕ} {dst src r : Fin 2}

theorem memmove_writeLog
    (h : (script log (.writeLog tail))[n]? = some (.memmove dst src)) :
    tail < log.lh.length ∧ n = 2 ∧ dst = 0 ∧ src = 1 ∧
      held ((script log (.writeLog tail)).take n) 0 =
        some (slot log tail) ∧
      held ((script log (.writeLog tail)).take n) 1 =
        some (home log tail) := by
  simp only [script] at h ⊢
  split_ifs at h ⊢ with htail
  · rcases n with _ | _ | _ | _ | _ | _ | n <;> simp at h
    obtain ⟨rfl, rfl⟩ := h
    exact ⟨htail, rfl, rfl, rfl, rfl, rfl⟩
  · simp at h

theorem memmove_installTrans
    (h : (script log (.installTrans tail))[n]? = some (.memmove dst src)) :
    tail < log.lh.length ∧ n = 2 ∧ dst = 1 ∧ src = 0 ∧
      held ((script log (.installTrans tail)).take n) 0 =
        some (slot log tail) ∧
      held ((script log (.installTrans tail)).take n) 1 =
        some (home log tail) := by
  simp only [script] at h ⊢
  split_ifs at h ⊢ with htail
  · rcases n with _ | _ | _ | _ | _ | _ | n <;> simp at h
    obtain ⟨rfl, rfl⟩ := h
    exact ⟨htail, rfl, rfl, rfl, rfl, rfl⟩
  · simp at h

/-- Only the two loops copy blocks. -/
theorem phase_of_memmove {phase : Phase}
    (h : (script log phase)[n]? = some (.memmove dst src)) :
    (∃ tail, phase = .writeLog tail) ∨ ∃ tail, phase = .installTrans tail := by
  cases phase with
  | writeLog tail => exact .inl ⟨tail, rfl⟩
  | installTrans tail => exact .inr ⟨tail, rfl⟩
  | _ =>
      exfalso
      rcases n with _ | _ | _ | _ | n <;> simp [script] at h

/-- Only `write_head` fills the header block. -/
theorem phase_of_fillHead {phase : Phase}
    (h : (script log phase)[n]? = some (.fillHead r)) :
    (phase = .writeHead ∨ phase = .eraseHead) ∧ n = 1 ∧ r = 0 ∧
      held ((script log phase).take n) 0 = some log.start := by
  cases phase with
  | writeLog tail =>
      exfalso
      simp only [script] at h
      split_ifs at h
      · rcases n with _ | _ | _ | _ | _ | _ | n <;> simp at h
      · simp at h
  | installTrans tail =>
      exfalso
      simp only [script] at h
      split_ifs at h
      · rcases n with _ | _ | _ | _ | _ | _ | n <;> simp at h
      · simp at h
  | writeHead =>
      rcases n with _ | _ | _ | _ | n <;> simp [script] at h
      exact ⟨.inl rfl, rfl, h.symm, rfl⟩
  | eraseHead =>
      rcases n with _ | _ | _ | _ | n <;> simp [script] at h
      exact ⟨.inr rfl, rfl, h.symm, rfl⟩
  | readHead =>
      exfalso
      rcases n with _ | _ | _ | n <;> simp [script] at h
  | _ => simp [script] at h

end Script

/-- No process outside of `log.c` changes a block of the log area, nor a block
of the header while a commit is running. -/
def Protected {P : Type*} (s : State P) : Act P → Prop
  | .modify _ i _ =>
      (s.cache.buf i).id.dev = s.log.log.dev →
        Outside s.log.log (s.cache.buf i).id.blockno ∧
          (s.log.log.committing = true →
            (s.cache.buf i).id.blockno ∉ s.log.log.lh)
  | _ => True

/-- The slots filled so far have the contents of the blocks of the header. -/
def Copied {P : Type*} (s : State P) (g : Shadow Block) : Prop :=
  ∀ p phase, s.log.pc p = .committing phase → ∀ j, j < s.log.log.lh.length →
    j < copied s.log.log.lh.length (s.pos p) phase →
    g.store ⟨s.log.log.dev, slot s.log.log j⟩ =
      g.store ⟨s.log.log.dev, home s.log.log j⟩

section Copied

variable {P : Type*} {s t : State P}
variable {g : Shadow Block} {a : Act P} {p : P}

/-- What a step puts into the store. -/
theorem nextShadow_store (hcrash : ∀ p, a ≠ .crash p) :
    (∃ q i data, s.cacheAct a = some (.modify q i data) ∧
      (nextShadow g s a).store =
        Function.update g.store (s.cache.buf i).id data) ∨
    (∀ q i data, s.cacheAct a ≠ some (.modify q i data)) ∧
      (nextShadow g s a).store = g.store := by
  cases hc : s.cacheAct a with
  | none =>
      rw [nextShadow_of_none hcrash hc]
      exact .inr ⟨by simp, rfl⟩
  | some c =>
      rw [nextShadow_of_some hcrash hc]
      cases c with
      | modify q i data => exact .inl ⟨q, i, data, rfl, rfl⟩
      | _ => exact .inr ⟨by simp, rfl⟩

/-- A change comes from a process outside of `log.c`, or from a transfer. -/
theorem cacheAct_modify {q : P} {i : Fin NBUF} {data : Block}
    (h : s.cacheAct a = some (.modify q i data)) :
    a = .modify q i data ∨ a = .op q ∧
      ((∃ dst src, s.current q = some (.memmove dst src) ∧
          i = s.reg q dst ∧ data = s.data q src) ∨
        ∃ r, s.current q = some (.fillHead r) ∧ i = s.reg q r ∧
          data = setHead s.log.log.lh (s.data q r)) := by
  cases a with
  | modify p j d =>
      simp only [State.cacheAct, Option.some.injEq, Cache.Act.modify.injEq] at h
      obtain ⟨rfl, rfl, rfl⟩ := h
      exact .inl rfl
  | op p =>
      simp only [State.cacheAct] at h
      split at h <;> cases h
      · next hcur => exact .inr ⟨rfl, .inl ⟨_, _, hcur, rfl, rfl⟩⟩
      · next hcur => exact .inr ⟨rfl, .inr ⟨_, hcur, rfl, rfl⟩⟩
  | _ => simp [State.cacheAct] at h

/-- A change outside of the blocks that a commit is about leaves them
alone. -/
theorem update_store_of_ne {id : BlockId} {data : Block}
    {b : ℕ} (hb : id ≠ ⟨s.log.log.dev, b⟩) :
    Function.update g.store id data ⟨s.log.log.dev, b⟩ =
      g.store ⟨s.log.log.dev, b⟩ :=
  Function.update_of_ne (Ne.symm hb) ..

variable [Fintype P]

/-- The two copies of a commit and of recovery. -/
theorem Sound.memmove_spec (h : Sound s g) (hidle : s.cache.call p = .idle)
    {dst src : Fin 2} (ho : s.current p = some (.memmove dst src)) :
    ∃ tail, tail < s.log.log.lh.length ∧ s.pos p = 2 ∧
      (phaseOf (s.log.pc p) = some (.writeLog tail) ∧ dst = 0 ∧
          (s.cache.buf (s.reg p dst)).id =
            ⟨s.log.log.dev, slot s.log.log tail⟩ ∧
          s.data p src = g.store ⟨s.log.log.dev, home s.log.log tail⟩ ∨
        phaseOf (s.log.pc p) = some (.installTrans tail) ∧ dst = 1 ∧
          (s.cache.buf (s.reg p dst)).id =
            ⟨s.log.log.dev, home s.log.log tail⟩ ∧
          s.data p src = g.store ⟨s.log.log.dev, slot s.log.log tail⟩) := by
  obtain ⟨phase, hphase, hop⟩ := current_eq_some ho
  have hdata : ∀ {r b}, held ((script s.log.log phase).take (s.pos p)) r =
      some b → (s.cache.buf (s.reg p r)).id = ⟨s.log.log.dev, b⟩ ∧
        s.data p r = g.store ⟨s.log.log.dev, b⟩ := by
    intro r b hr
    obtain ⟨hholds, hid, -⟩ := h.reg_spec hphase hidle hr
    refine ⟨hid, ?_⟩
    rw [State.data, h.coherent.data_eq _ (h.cache.valid_of_holds hholds), hid]
  rcases phase_of_memmove hop with ⟨tail, rfl⟩ | ⟨tail, rfl⟩
  · obtain ⟨htail, hpos, rfl, rfl, h0, h1⟩ := memmove_writeLog hop
    exact ⟨tail, htail, hpos,
      .inl ⟨hphase, rfl, (hdata h0).1, (hdata h1).2⟩⟩
  · obtain ⟨htail, hpos, rfl, rfl, h0, h1⟩ := memmove_installTrans hop
    exact ⟨tail, htail, hpos,
      .inr ⟨hphase, rfl, (hdata h1).1, (hdata h0).2⟩⟩

theorem Sound.fillHead_spec (h : Sound s g) (hidle : s.cache.call p = .idle)
    {r : Fin 2} (ho : s.current p = some (.fillHead r)) :
    (phaseOf (s.log.pc p) = some .writeHead ∨
        phaseOf (s.log.pc p) = some .eraseHead) ∧
      s.pos p = 1 ∧ r = 0 ∧
      (s.cache.buf (s.reg p r)).id = ⟨s.log.log.dev, s.log.log.start⟩ := by
  obtain ⟨phase, hphase, hop⟩ := current_eq_some ho
  obtain ⟨hwhich, hpos, rfl, hheld⟩ := phase_of_fillHead hop
  refine ⟨?_, hpos, rfl, (h.reg_spec hphase hidle hheld).2.1⟩
  rw [hphase]
  rcases hwhich with rfl | rfl
  · exact .inl rfl
  · exact .inr rfl

variable [DecidableEq P]

theorem Copied.of_ne (hc : Copied s g) (h : Sound s g)
    (hcrash : ∀ p, a ≠ .crash p) (hprot : Protected s a)
    (ht : step s a = .next t) {phase : Phase}
    (hp : t.log.pc p = .committing phase) (hactor : p ≠ a.actor) {j : ℕ}
    (hj : j < t.log.log.lh.length)
    (hcopied : j < copied t.log.log.lh.length (t.pos p) phase) :
    (nextShadow g s a).store ⟨t.log.log.dev, slot t.log.log j⟩ =
      (nextShadow g s a).store ⟨t.log.log.dev, home t.log.log j⟩ := by
  obtain ⟨-, hlog, -, hsettle⟩ := step_eq_next hcrash ht
  have hpos : t.pos p = s.pos p := by
    rw [hsettle]
    exact (settle_of_ne t.log t.cache hactor).2
  have hsame : s.log.pc p = .committing phase ∧ t.log.log = s.log.log := by
    rcases hlog with ⟨-, hl⟩ | ⟨l, hact, hl⟩
    · exact ⟨hl ▸ hp, by rw [hl]⟩
    · have hl' : p ≠ l.actor := logAct_actor hact ▸ hactor
      have hs : s.log.pc p = .committing phase := by
        rcases step_pc hl hl' with hpc | ⟨-, hpc⟩
        · rwa [hpc] at hp
        · simp [hpc] at hp
      exact ⟨hs,
        (h.log.step_of_phase hl (phaseOf_of_committing hs) hl').1⟩
  rw [hsame.2] at hj hcopied ⊢
  rw [hpos] at hcopied
  have heq := hc p phase hsame.1 j hj hcopied
  rcases nextShadow_store (g := g) hcrash with
    ⟨q, i, data, hact, hstore⟩ | ⟨-, hstore⟩
  · -- The change is made by a process outside of `log.c`.
    have hmodify : a = .modify q i data := by
      rcases cacheAct_modify hact with hmodify | ⟨haop, hcur⟩
      · exact hmodify
      · have hphase : ∃ phase', phaseOf (s.log.pc q) = some phase' := by
          rcases hcur with ⟨_, _, hcur, -⟩ | ⟨_, hcur, -⟩ <;>
            exact (current_eq_some hcur).imp fun _ h => h.1
        obtain ⟨phase', hphase⟩ := hphase
        have hqp := h.log.phase_unique hphase (phaseOf_of_committing hsame.1)
        exact absurd (haop ▸ hqp) hactor
    subst hmodify
    have hne : ∀ b, (¬ Outside s.log.log b ∨ b ∈ s.log.log.lh) →
        (s.cache.buf i).id ≠ ⟨s.log.log.dev, b⟩ := by
      intro b hb hid
      obtain ⟨hout, hlisted⟩ := hprot (by rw [hid])
      rw [hid] at hout hlisted
      rcases hb with hb | hb
      · exact hb hout
      · exact hlisted (h.log.committing_of_pc p _ hsame.1) hb
    rw [hstore, update_store_of_ne
        (hne _ (.inl (slot_inside h.header.length_le hj))),
      update_store_of_ne (hne _ (.inr (home_mem hj)))]
    exact heq
  · rw [hstore]
    exact heq

theorem Copied.of_transfer (hc : Copied s g) (h : Sound s g) {o : Op}
    (ho : s.current p = some o) (ht : step s (.op p) = .next t)
    {phase : Phase} (hp : s.log.pc p = .committing phase) {j : ℕ}
    (hj : j < s.log.log.lh.length)
    (hcopied : j < copied s.log.log.lh.length (t.pos p) phase) :
    (nextShadow g s (.op p)).store ⟨s.log.log.dev, slot s.log.log j⟩ =
      (nextShadow g s (.op p)).store ⟨s.log.log.dev, home s.log.log j⟩ := by
  obtain ⟨phase', hphase, -, hop, -, hpos, -⟩ := op_shape ho ht
  obtain rfl : phase' = phase := by
    simpa [phaseOf_of_committing hp] using hphase.symm
  have hidle : s.cache.call p = .idle := (step_eq_next (by simp) ht).1
  rw [hpos] at hcopied
  have hslot_ne : ∀ {i}, i < s.log.log.lh.length →
      home s.log.log i ≠ slot s.log.log j :=
    fun hi => home_ne_slot h.header hi hj
  have hhome_out := h.header.outside _ (home_mem hj)
  have hsize := h.size_pos
  rcases nextShadow_store (g := g) (a := .op p) (by simp) with
    ⟨q, i, data, hact, hstore⟩ | ⟨hno, hstore⟩
  · rw [hstore]
    rcases cacheAct_modify hact with hmodify |
        ⟨hq, ⟨dst, src, hcur, rfl, rfl⟩ | ⟨r, hcur, rfl, rfl⟩⟩
    · cases hmodify
    · obtain rfl : p = q := by simpa using hq
      obtain ⟨tail, htail, hpos2, ⟨hwhich, rfl, hid, hdata⟩ |
        ⟨hwhich, rfl, hid, hdata⟩⟩ := h.memmove_spec hidle hcur
      · -- `write_log` fills the slot of `tail`.
        obtain rfl : phase' = .writeLog tail := by
          simpa [hphase] using hwhich
        rw [hid, hdata]
        by_cases hjt : j = tail
        · subst hjt
          rw [Function.update_self, update_store_of_ne
            (by simpa using (hslot_ne hj).symm)]
        · have hjt' : j < tail := by
            simp only [copied] at hcopied
            split_ifs at hcopied <;> omega
          rw [update_store_of_ne (by simp [slot]; omega),
            update_store_of_ne (by
              simpa using (home_ne_slot h.header hj htail).symm)]
          exact hc p _ hp j hj (by simp [copied, hpos2, hjt'])
      · -- `install_trans` puts into a block what it has already.
        obtain rfl : phase' = .installTrans tail := by
          simpa [hphase] using hwhich
        have hsame := hc p _ hp tail htail (by simpa [copied] using htail)
        rw [hid, hdata, hsame, Function.update_eq_self]
        exact hc p _ hp j hj (by simpa [copied] using hj)
    · obtain rfl : p = q := by simpa using hq
      obtain ⟨hwhich, -, rfl, hid⟩ := h.fillHead_spec hidle hcur
      have hslot : slot s.log.log j ≠ s.log.log.start := by
        simp only [slot]
        omega
      have hhome : home s.log.log j ≠ s.log.log.start := by
        intro e
        rw [e, Outside] at hhome_out
        omega
      rw [hid, update_store_of_ne (by simpa using hslot.symm),
        update_store_of_ne (by simpa using hhome.symm)]
      rcases hwhich with hwhich | hwhich
      · obtain rfl : phase' = .writeHead := by simpa [hphase] using hwhich
        exact hc p _ hp j hj (by simpa [copied] using hj)
      · obtain rfl : phase' = .eraseHead := by simpa [hphase] using hwhich
        simp [copied] at hcopied
  · rw [hstore]
    refine hc p _ hp j hj ?_
    cases phase' with
    | writeLog tail =>
        have hne : s.pos p ≠ 2 := by
          intro e
          rw [e] at hop
          simp only [script] at hop
          split_ifs at hop
          · simp only [List.getElem?_cons_succ, List.getElem?_cons_zero,
              Option.some.injEq] at hop
            subst hop
            exact hno p (s.reg p 0) (s.data p 1)
              (by simp [State.cacheAct, ho])
          · simp at hop
        simp only [copied] at hcopied ⊢
        split_ifs at hcopied ⊢ <;> omega
    | _ => exact hcopied

omit [Fintype P] [DecidableEq P] in
theorem Copied.of_phase (hc : Copied s g) {phase : Phase}
    (hp : s.log.pc p = .committing phase) (hcommit : phase.inCommit = true)
    (ho : s.current p = none)
    {j : ℕ} (hj : j < (s.log.log.advance phase).1.lh.length)
    (hcopied : j < copied (s.log.log.advance phase).1.lh.length 0
      (s.log.log.advance phase).2) :
    g.store ⟨s.log.log.dev, slot s.log.log j⟩ =
      g.store ⟨s.log.log.dev, home s.log.log j⟩ := by
  have hlast : (script s.log.log phase).length ≤ s.pos p := by
    simpa [State.current, phaseOf_of_committing hp] using ho
  have hkeep := hc p phase hp j
  cases phase with
  | readHead => simp [Phase.inCommit] at hcommit
  | commit =>
      simp only [Log.advance] at hcopied
      split_ifs at hcopied <;> simp [copied] at hcopied
  | writeLog tail =>
      simp only [Log.advance] at hj hcopied
      by_cases htail : tail < s.log.log.lh.length
      · simp only [script, htail, if_true, List.length_cons,
          List.length_nil] at hlast
        simp only [htail, if_true, copied] at hcopied
        refine hkeep hj ?_
        simp only [copied]
        rw [if_pos (by omega)]
        simpa using hcopied
      · refine hkeep hj ?_
        simp only [copied]
        split_ifs <;> omega
  | writeHead => exact hkeep hj hj
  | installTrans tail => exact hkeep hj hj
  | clear => simp [Log.advance, copied] at hcopied
  | eraseHead => simp [Log.advance, copied] at hcopied
  | finish => simp [Log.advance, copied] at hcopied

/-- Every step keeps the copies, if the blocks of the header are not changed
while a commit is running. -/
theorem Copied.step (hc : Copied s g) (h : Sound s g)
    (hcrash : ∀ p, a ≠ .crash p) (hprot : Protected s a)
    (ht : Transactions.step s a = .next t) :
    Copied t (nextShadow g s a) := by
  intro p phase hp j hj hcopied
  by_cases hactor : p = a.actor
  · obtain ⟨-, hlog, -, hsettle⟩ := step_eq_next hcrash ht
    rcases hlog with ⟨hnone, hl⟩ | ⟨l, hact, hl⟩
    · rw [hl] at hp hj hcopied ⊢
      have hpos : a ≠ .op p → t.pos p = s.pos p := by
        intro hop
        rw [hsettle]
        cases a with
        | op q =>
            obtain rfl : p = q := hactor
            exact absurd rfl hop
        | _ => rfl
      have heq : a ≠ .op p → _ := fun hop =>
        hc p phase hp j hj (hpos hop ▸ hcopied)
      rcases eq_of_phase hcrash ht (phaseOf_of_committing hp) hactor with
        rfl | rfl | rfl | rfl
      · exact heq (by simp)
      · exact heq (by simp)
      · exact heq (by simp)
      · cases ho : s.current p with
        | none => simp [State.logAct, ho] at hnone
        | some o => exact hc.of_transfer h ho ht hp hj hcopied
    · have hactor' : p = l.actor := hactor.trans (logAct_actor hact).symm
      rcases committing_of_step hl hp hactor' with
        ⟨-, rfl, -⟩ | ⟨rfl, phase', hp', -, rfl, hl'⟩
      · simp [copied] at hcopied
      · have hop : a = .op p ∧ s.current p = none := by
          cases a with
          | op q =>
              obtain rfl : p = q := hactor
              refine ⟨rfl, ?_⟩
              cases ho : s.current p with
              | none => rfl
              | some o =>
                  simp only [State.logAct, ho] at hact
                  cases o <;> simp at hact
          | _ => simp [State.logAct] at hact
        obtain ⟨rfl, ho⟩ := hop
        have hpos : t.pos p = 0 := by
          rw [hsettle]
          simp [State.settle, ho]
        have hshadow : nextShadow g s (.op p) = g := by
          simp [nextShadow, State.cacheAct, ho]
        rw [hl', hpos] at hcopied
        rw [hl'] at hj ⊢
        rw [hshadow]
        have heq := hc.of_phase hp' (h.log.inCommit p _ hp') ho hj hcopied
        cases phase' with
        | clear => simp [Log.advance] at hj
        | _ => exact heq
  · exact hc.of_ne h hcrash hprot ht hp hactor hj hcopied

end Copied

/-! ## Schedules -/

instance {P : Type*} [DecidableEq P] (s : State P) (g : Shadow Block) :
    ∀ a, Decidable (Disciplined s g a)
  | .bread _ _ => inferInstanceAs (Decidable (_ < _))
  | .brelse _ _ => inferInstanceAs (Decidable (_ = _))
  | .logWrite _ _ => inferInstanceAs (Decidable (_ ∨ _))
  | .update p =>
      match h : s.log.pc p with
      | .logWrite blockno =>
          decidable_of_iff ((absorb s.log.log.lh blockno).length ≤
            s.log.log.size - 1) (by simp [Disciplined, h])
      | .outside | .asleep | .woken | .inside | .committing _
      | .recovering _ => .isTrue (by simp [Disciplined, h])
  | .modify _ _ _ | .bwrite _ _ | .beginOp _ | .endOp _ | .acquiresleep _
  | .load _ | .release _ | .op _ | .crash _ => .isTrue trivial

/-- A machine after `initlog`, with an empty disk. -/
def State.zero (P : Type*) : State P where
  log :=
    { log :=
        { start := 2, size := LOGSIZE, dev := ROOTDEV, outstanding := 0
          committing := false, lh := [] }
      booted := true
      pc := fun _ => .outside }
  cache := binit (fun _ => 0) fun _ => fun _ => 0
  reg := fun _ _ => ⟨0, NBUF_pos⟩
  pos := fun _ => 0

theorem State.zero_booted {P : Type*} : Booted (State.zero P) where
  log := ⟨rfl, rfl, rfl, rfl, fun _ => rfl⟩
  cache := rfl
  pos _ := rfl
  dev_lt := Nat.one_lt_two
  size_pos := Nat.succ_pos 29

section Schedule

variable {P : Type}

/-- `p` reads a block and waits for it. -/
def breads (p : P) (id : BlockId) : List (Act P) :=
  [.bread p id, .acquiresleep p, .load p]

/-- The same within `commit`. -/
def opBreads (p : P) : List (Act P) :=
  [.op p, .acquiresleep p, .load p]

/-- `p` changes block 40 in an operation of its own, and starts the commit. -/
def oneOperation (p : P) (data : Block) : List (Act P) :=
  [.beginOp p] ++ breads p ⟨1, 40⟩ ++
    [.modify p 0 data, .logWrite p 0, .update p, .brelse p 0, .release p,
      .endOp p]

/-- One turn of the loops of `commit`. -/
def opCopy (p : P) : List (Act P) :=
  opBreads p ++ opBreads p ++
    [.op p, .op p, .op p, .release p, .op p, .release p, .op p]

/-- `p` copies its block to the log and writes the header. -/
def opLog (p : P) : List (Act P) :=
  [.op p] ++ opCopy p ++ [.op p] ++ opBreads p ++
    [.op p, .op p, .op p, .release p, .op p]

end Schedule

end ZtlOs.Transactions
