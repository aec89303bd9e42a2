import ZtlOs.Log.Transactions

/-!
# The buffers that the log code holds

While a process runs `commit` or recovery, its local buffer pointers name
locked buffers of the blocks that it has read and not yet released, and a
buffer that it has changed is the one it is about to write.  This is shown
once for every phase, from the shape of its transfers.
-/

namespace ZtlOs.Transactions

open ZtlOs.Support ZtlOs.Fs ZtlOs.Cache ZtlOs.Logging

/-! ## The shape of the transfers -/

/-- The blocks in the registers after one more transfer. -/
def Op.hold (held : Fin 2 → Option ℕ) : Op → Fin 2 → Option ℕ
  | .bread r blockno => Function.update held r (some blockno)
  | .brelse r => Function.update held r none
  | _ => held

/-- The blocks in the registers after the transfers `ops`. -/
def held (ops : List Op) : Fin 2 → Option ℕ :=
  ops.foldl Op.hold fun _ => none

/-- The registers that a transfer reads. -/
def Op.uses : Op → List (Fin 2)
  | .bread _ _ => []
  | .memmove dst src => [dst, src]
  | .fillHead r | .readHead r | .bwrite r | .brelse r => [r]

/-- The register whose buffer a transfer changes. -/
def Op.changes : Op → Option (Fin 2)
  | .memmove dst _ => some dst
  | .fillHead r => some r
  | _ => none

/-- The transfers read registers that hold a block, and write a buffer right
after changing it. -/
def Typed : (Fin 2 → Option ℕ) → List Op → Prop
  | _, [] => True
  | held, o :: ops =>
      (∀ r ∈ o.uses, (held r).isSome = true) ∧
        (∀ r, o.changes = some r → ops.head? = some (.bwrite r)) ∧
        Typed (o.hold held) ops

/-- The block lies outside of the log area. -/
def Outside (log : Log) (blockno : ℕ) : Prop :=
  blockno < log.start ∨ log.start + log.size ≤ blockno

/-- A header that the log area has room for, and that lists no block of it. -/
structure WellFormed (log : Log) (lh : List ℕ) : Prop where
  nodup : lh.Nodup
  outside : ∀ blockno ∈ lh, Outside log blockno
  lt : ∀ blockno ∈ lh, blockno < FSSIZE
  length_le : lh.length ≤ log.size - 1

section Script

variable {log : Log} {phase : Phase} {n tail : ℕ}

theorem held_take_succ {ops : List Op} {o : Op} (h : ops[n]? = some o) :
    held (ops.take (n + 1)) = o.hold (held (ops.take n)) := by
  rw [held, List.take_add_one, h, Option.toList_some, List.foldl_append]
  rfl

theorem home_mem (h : tail < log.lh.length) : home log tail ∈ log.lh := by
  simp only [home, List.getD, List.getElem?_eq_getElem h, Option.getD_some]
  exact List.getElem_mem h

theorem slot_inside (hlog : log.lh.length ≤ log.size - 1)
    (h : tail < log.lh.length) : ¬ Outside log (slot log tail) := by
  simp only [Outside, slot]
  omega

theorem home_ne_slot (hlog : WellFormed log log.lh) {i j : ℕ}
    (hi : i < log.lh.length) (hj : j < log.lh.length) :
    home log i ≠ slot log j := by
  intro e
  exact slot_inside hlog.length_le hj (e ▸ hlog.outside _ (home_mem hi))

theorem mem_of_held {ops : List Op} {r : Fin 2} {b : ℕ}
    (h : held ops r = some b) : .bread r b ∈ ops := by
  induction ops using List.reverseRecOn with
  | nil => simp [held] at h
  | append_singleton ops o ih =>
      have hhold : held (ops ++ [o]) = o.hold (held ops) := by
        rw [held, List.foldl_append]
        rfl
      rw [hhold] at h
      cases o with
      | bread r' b' =>
          by_cases hr : r = r'
          · subst hr
            simp only [Op.hold, Function.update_self, Option.some.injEq] at h
            simp [h]
          · rw [Op.hold, Function.update_of_ne hr] at h
            exact List.mem_append_left _ (ih h)
      | brelse r' =>
          by_cases hr : r = r'
          · subst hr
            simp [Op.hold] at h
          · rw [Op.hold, Function.update_of_ne hr] at h
            exact List.mem_append_left _ (ih h)
      | _ => exact List.mem_append_left _ (ih h)

/-- The blocks that the log code reads. -/
theorem blockno_of_mem_script {r : Fin 2} {b : ℕ}
    (h : .bread r b ∈ script log phase) :
    r = 0 ∧ (b = log.start ∨
        ∃ tail, tail < log.lh.length ∧ b = slot log tail) ∨
      r = 1 ∧ ∃ tail, tail < log.lh.length ∧ b = home log tail := by
  cases phase with
  | writeLog tail =>
      simp only [script] at h
      split_ifs at h with htail
      · simp only [List.mem_cons, Op.bread.injEq, reduceCtorEq,
          List.not_mem_nil, or_false] at h
        rcases h with ⟨rfl, rfl⟩ | ⟨rfl, rfl⟩
        · exact .inl ⟨rfl, .inr ⟨tail, htail, rfl⟩⟩
        · exact .inr ⟨rfl, tail, htail, rfl⟩
      · simp at h
  | installTrans tail =>
      simp only [script] at h
      split_ifs at h with htail
      · simp only [List.mem_cons, Op.bread.injEq, reduceCtorEq,
          List.not_mem_nil, or_false] at h
        rcases h with ⟨rfl, rfl⟩ | ⟨rfl, rfl⟩
        · exact .inl ⟨rfl, .inr ⟨tail, htail, rfl⟩⟩
        · exact .inr ⟨rfl, tail, htail, rfl⟩
      · simp at h
  | readHead => simp_all [script]
  | writeHead => simp_all [script]
  | eraseHead => simp_all [script]
  | _ => simp [script] at h

/-- The two registers never hold the same block: register 0 is for the log
area, register 1 for home blocks. -/
theorem script_distinct (hlog : WellFormed log log.lh) (hsize : 0 < log.size)
    {r r' : Fin 2} {b : ℕ}
    (hr : held ((script log phase).take n) r = some b)
    (hr' : held ((script log phase).take n) r' = some b) : r = r' := by
  have harea : ∀ {b}, (b = log.start ∨
      ∃ tail, tail < log.lh.length ∧ b = slot log tail) → ¬ Outside log b := by
    rintro b (rfl | ⟨tail, htail, rfl⟩)
    · simp only [Outside]
      omega
    · exact slot_inside hlog.length_le htail
  have hhome : ∀ {b}, (∃ tail, tail < log.lh.length ∧ b = home log tail) →
      Outside log b := by
    rintro b ⟨tail, htail, rfl⟩
    exact hlog.outside _ (home_mem htail)
  have hmem := blockno_of_mem_script (List.mem_of_mem_take (mem_of_held hr))
  have hmem' := blockno_of_mem_script (List.mem_of_mem_take (mem_of_held hr'))
  rcases hmem with ⟨rfl, hb⟩ | ⟨rfl, hb⟩ <;>
    rcases hmem' with ⟨rfl, hb'⟩ | ⟨rfl, hb'⟩
  · rfl
  · exact absurd (hhome hb') (harea hb)
  · exact absurd (hhome hb) (harea hb')
  · rfl

theorem script_typed : Typed (fun _ => none) (script log phase) := by
  cases phase with
  | writeLog tail =>
      simp only [script]
      split_ifs <;> simp [Typed, Op.uses, Op.hold, Op.changes]
  | installTrans tail =>
      simp only [script]
      split_ifs <;> simp [Typed, Op.uses, Op.hold, Op.changes]
  | _ => simp [script, Typed, Op.uses, Op.hold, Op.changes]

theorem Typed.at {held : Fin 2 → Option ℕ} {ops : List Op} {o : Op}
    (h : Typed held ops) (ho : ops[n]? = some o) :
    (∀ r ∈ o.uses, ((ops.take n).foldl Op.hold held r).isSome = true) ∧
      ∀ r, o.changes = some r → ops[n + 1]? = some (.bwrite r) := by
  induction ops generalizing held n with
  | nil => simp at ho
  | cons o' ops ih =>
      cases n with
      | zero =>
          obtain rfl : o' = o := by simpa using ho
          refine ⟨by simpa using h.1, fun r hr => ?_⟩
          simpa [List.head?_eq_getElem?] using h.2.1 r hr
      | succ n =>
          simpa using ih h.2.2 (by simpa using ho)

/-- A transfer reads registers that hold a block. -/
theorem script_uses {o : Op} (h : (script log phase)[n]? = some o) :
    ∀ r ∈ o.uses, (held ((script log phase).take n) r).isSome = true :=
  (script_typed.at h).1

/-- A buffer that has been changed is written next. -/
theorem script_changes {o : Op} (h : (script log phase)[n]? = some o)
    {r : Fin 2} (hr : o.changes = some r) :
    (script log phase)[n + 1]? = some (.bwrite r) :=
  (script_typed.at h).2 r hr

end Script

/-! ## The parts of a step -/

/-- The process that makes a step. -/
def Act.actor {P : Type*} : Act P → P
  | .bread p _ | .modify p _ _ | .bwrite p _ | .brelse p _ | .beginOp p
  | .logWrite p _ | .endOp p | .update p | .acquiresleep p | .load p
  | .release p | .op p | .crash p => p

/-- The contents last put into each block, after one more step.  A crash
leaves what the disk has. -/
def nextShadow {P : Type*} (g : Shadow Block) (s : State P)
    (a : Act P) : Shadow Block :=
  match a with
  | .crash _ => ⟨fun id => s.cache.disk id.sector, fun _ => false⟩
  | _ =>
      match s.cacheAct a with
      | none => g
      | some c => g.record s.cache c

section Parts

variable {P : Type*} {s t : State P} {a : Act P}

theorem nextShadow_of_none {g : Shadow Block} (hcrash : ∀ p, a ≠ .crash p)
    (h : s.cacheAct a = none) : nextShadow g s a = g := by
  cases a with
  | crash p => exact absurd rfl (hcrash p)
  | _ => simp only [nextShadow, h]

theorem nextShadow_of_some {g : Shadow Block} {c : Cache.Act P Block}
    (hcrash : ∀ p, a ≠ .crash p) (h : s.cacheAct a = some c) :
    nextShadow g s a = g.record s.cache c := by
  cases a with
  | crash p => exact absurd rfl (hcrash p)
  | _ => simp only [nextShadow, h]

theorem cacheAct_actor {c : Cache.Act P Block} (h : s.cacheAct a = some c) :
    c.actor = a.actor := by
  cases a with
  | op p =>
      simp only [State.cacheAct] at h
      split at h <;> cases h <;> rfl
  | _ => simp only [State.cacheAct, Option.some.injEq, reduceCtorEq] at h <;>
      (subst h; rfl)

theorem logAct_actor {l : Logging.Act P} (h : s.logAct a = some l) :
    l.actor = a.actor := by
  cases a with
  | op p =>
      simp only [State.logAct] at h
      split at h <;> cases h <;> rfl
  | _ => simp only [State.logAct, Option.some.injEq, reduceCtorEq] at h <;>
      (subst h; rfl)

variable [DecidableEq P]

/-- A step other than a crash is a step of the log and a step of the cache,
each of which may be empty. -/
theorem step_eq_next (ha : ∀ p, a ≠ .crash p) (ht : step s a = .next t) :
    s.enabled a ∧
      (s.logAct a = none ∧ t.log = s.log ∨
        ∃ l, s.logAct a = some l ∧ Logging.step s.log l = .next t.log) ∧
      (s.cacheAct a = none ∧ t.cache = s.cache ∨
        ∃ c, s.cacheAct a = some c ∧ Cache.step s.cache c = .next t.cache) ∧
      t = s.settle t.log t.cache a := by
  have hsettle : ∀ l c, (s.settle l c a).log = l ∧
      (s.settle l c a).cache = c := by
    intro l c
    cases a with
    | op p =>
        simp only [State.settle]
        split <;> exact ⟨rfl, rfl⟩
    | _ => exact ⟨rfl, rfl⟩
  have ht' : (if s.enabled a then
      (stepOption Logging.step s.log (s.logAct a)).bind fun l =>
        (stepOption Cache.step s.cache (s.cacheAct a)).map fun c =>
          s.settle l c a
      else .blocked) = .next t := by
    cases a with
    | crash p => exact absurd rfl (ha p)
    | _ => exact ht
  split_ifs at ht' with henabled
  obtain ⟨l, hl, hrest⟩ := Outcome.bind_eq_next ht'
  obtain ⟨c, hc, rfl⟩ := Outcome.map_eq_next hrest
  obtain ⟨hlog, hcache⟩ := hsettle l c
  rw [hlog, hcache]
  exact ⟨henabled, stepOption_eq_next hl, stepOption_eq_next hc, rfl⟩

end Parts

/-! ## The invariant -/

/-- What `log.c` asks of its callers: blocks of the two disks, no release of
a buffer between its change and its `log_write`, no logging of the log area,
and no more blocks in a transaction than the log has room for. -/
def Disciplined {P : Type*} (s : State P) (g : Shadow Block) : Act P → Prop
  | .bread _ id => id.dev < 2
  | .brelse _ i => g.touched i = false
  | .logWrite _ i => Outside s.log.log (s.cache.buf i).id.blockno
  | .update p => ∀ blockno, s.log.pc p = .logWrite blockno →
      (absorb s.log.log.lh blockno).length ≤ s.log.log.size - 1
  | _ => True

/-- The registers of a process in `commit` or in recovery. -/
def Regs {P : Type*} (s : State P) (g : Shadow Block) (p : P)
    (phase : Phase) : Prop :=
  ∀ r blockno,
    held ((script s.log.log phase).take (s.pos p)) r = some blockno →
    ((s.cache.buf (s.reg p r)).lock = some p ∨
        s.cache.call p = .locking (s.reg p r)) ∧
      (s.cache.buf (s.reg p r)).id = ⟨s.log.log.dev, blockno⟩ ∧
      (g.touched (s.reg p r) = true →
        s.cache.call p ≠ .locking (s.reg p r) →
        (script s.log.log phase)[s.pos p]? = some (.bwrite r))

/-- What holds in every state of the combined machine. -/
structure Sound {P : Type*} [Fintype P] (s : State P) (g : Shadow Block) :
    Prop where
  log : Logging.Inv s.log
  cache : Cache.Inv s.cache
  coherent : Coherent s.cache g
  dev_lt : s.log.log.dev < 2
  size_pos : 0 < s.log.log.size
  header : WellFormed s.log.log s.log.log.lh
  pending : ∀ p blockno, s.log.pc p = .logWrite blockno →
    s.cache.holds p (s.reg p 0) ∧
      (s.cache.buf (s.reg p 0)).id.blockno = blockno ∧
      Outside s.log.log blockno
  pos_eq_zero : ∀ p, phaseOf (s.log.pc p) = none → s.pos p = 0
  regs : ∀ p phase, phaseOf (s.log.pc p) = some phase → Regs s g p phase

section Sound

variable {P : Type*} [Fintype P] {s t : State P} {g : Shadow Block}
variable {a : Act P} {p : P}

theorem Sound.refcnt_ne_zero (h : Sound s g) {i : Fin NBUF}
    (hi : (s.cache.buf i).lock = some p ∨ s.cache.call p = .locking i) :
    (s.cache.buf i).refcnt ≠ 0 := by
  rw [h.cache.refcnt_eq i]
  rcases hi with hi | hi
  · simp [Buf.lockCount, hi]
  · have hpos := Finset.card_pos.mpr
      ⟨p, mem_waiters.mpr (by simp [hi, Call.waits] : (s.cache.call p).waits i = true)⟩
    omega

/-- A register that holds a block, in the hands of a process that is not in a
call of the cache. -/
theorem Sound.reg_spec (h : Sound s g) {phase : Phase}
    (hp : phaseOf (s.log.pc p) = some phase) (hcall : s.cache.call p = .idle)
    {r : Fin 2} {blockno : ℕ}
    (hr : held ((script s.log.log phase).take (s.pos p)) r = some blockno) :
    s.cache.holds p (s.reg p r) ∧
      (s.cache.buf (s.reg p r)).id = ⟨s.log.log.dev, blockno⟩ ∧
      (g.touched (s.reg p r) = true →
        (script s.log.log phase)[s.pos p]? = some (.bwrite r)) := by
  obtain ⟨hlock, hid, htouched⟩ := h.regs p phase hp r blockno hr
  refine ⟨⟨hcall, hlock.resolve_right (by simp [hcall])⟩, hid, ?_⟩
  intro ht
  exact htouched ht (by simp [hcall])

omit [Fintype P] in
theorem current_eq_some {o : Op} (h : s.current p = some o) :
    ∃ phase, phaseOf (s.log.pc p) = some phase ∧
      (script s.log.log phase)[s.pos p]? = some o :=
  Option.bind_eq_some_iff.mp h

/-- The log code uses buffers that it holds. -/
theorem Sound.uses_spec (h : Sound s g) (hcall : s.cache.call p = .idle)
    {o : Op} (ho : s.current p = some o) {r : Fin 2} (hr : r ∈ o.uses) :
    ∃ phase blockno, phaseOf (s.log.pc p) = some phase ∧
      (script s.log.log phase)[s.pos p]? = some o ∧
      held ((script s.log.log phase).take (s.pos p)) r = some blockno ∧
      s.cache.holds p (s.reg p r) ∧
      (s.cache.buf (s.reg p r)).id = ⟨s.log.log.dev, blockno⟩ ∧
      (g.touched (s.reg p r) = true → o = .bwrite r) := by
  obtain ⟨phase, hphase, hop⟩ := current_eq_some ho
  obtain ⟨blockno, hb⟩ := Option.isSome_iff_exists.mp
    (script_uses hop r hr)
  obtain ⟨hholds, hid, htouched⟩ := h.reg_spec hphase hcall hb
  refine ⟨phase, blockno, hphase, hop, hb, hholds, hid, fun ht => ?_⟩
  rw [htouched ht] at hop
  exact (Option.some.inj hop).symm

/-- The header stays well formed. -/
theorem WellFormed.congr {log log' : Log} {lh : List ℕ}
    (h : WellFormed log lh) (hstart : log'.start = log.start)
    (hsize : log'.size = log.size) : WellFormed log' lh where
  nodup := h.nodup
  outside b hb := by
    have := h.outside b hb
    rwa [Outside, hstart, hsize]
  lt := h.lt
  length_le := hsize ▸ h.length_le

theorem WellFormed.nil (log : Log) : WellFormed log [] where
  nodup := List.nodup_nil
  outside _ h := by simp at h
  lt _ h := by simp at h
  length_le := Nat.zero_le _

/-- The cache of the combined machine only releases untouched buffers. -/
theorem Sound.clean (h : Sound s g) (ha : Disciplined s g a)
    (henabled : s.enabled a) {q : P} {i : Fin NBUF}
    (hc : s.cacheAct a = some (.brelse q i)) : g.touched i = false := by
  cases a with
  | brelse p j =>
      simp only [State.cacheAct, Option.some.injEq, Cache.Act.brelse.injEq] at hc
      exact hc.2 ▸ ha
  | op p =>
      simp only [State.cacheAct] at hc
      split at hc <;> cases hc
      next r hcur =>
        obtain ⟨phase, b, -, -, -, -, -, htouched⟩ :=
          h.uses_spec henabled hcur (r := r) (by simp [Op.uses])
        by_contra ht
        have := htouched (by simpa using ht)
        simp at this
  | _ => simp [State.cacheAct] at hc

theorem Sound.bread_dev (h : Sound s g) (ha : Disciplined s g a) {q : P}
    {id : BlockId} (hc : s.cacheAct a = some (.bread q id)) : id.dev < 2 := by
  cases a with
  | bread p id' =>
      simp only [State.cacheAct, Option.some.injEq, Cache.Act.bread.injEq] at hc
      exact hc.2 ▸ ha
  | op p =>
      simp only [State.cacheAct] at hc
      split at hc <;> cases hc
      exact h.dev_lt
  | _ => simp [State.cacheAct] at hc

variable [DecidableEq P]

omit [Fintype P] in
theorem log_area (ha : ∀ p, a ≠ .crash p) (ht : step s a = .next t) :
    t.log.log.start = s.log.log.start ∧ t.log.log.size = s.log.log.size ∧
      t.log.log.dev = s.log.log.dev := by
  obtain ⟨-, ⟨-, hl⟩ | ⟨l, -, hl⟩, -⟩ := step_eq_next ha ht
  · rw [hl]
    exact ⟨rfl, rfl, rfl⟩
  · exact step_area hl

theorem Sound.header_step (h : Sound s g) (ha : Disciplined s g a)
    (hcrash : ∀ p, a ≠ .crash p)
    (hread : ∀ q header, s.logAct a = some (.readHead q header) →
      WellFormed s.log.log header)
    (ht : step s a = .next t) : WellFormed t.log.log t.log.log.lh := by
  obtain ⟨hstart, hsize, -⟩ := log_area hcrash ht
  obtain ⟨-, ⟨-, hl⟩ | ⟨l, hact, hl⟩, -⟩ := step_eq_next hcrash ht
  · rw [hl]
    exact h.header
  · refine WellFormed.congr ?_ hstart hsize
    rcases step_lh hl with hlh | ⟨q, -, -, hlh⟩ | ⟨q, blockno, rfl, hq, hlh⟩ |
        ⟨q, header, rfl, hlh⟩
    · exact hlh ▸ h.header
    · exact hlh ▸ WellFormed.nil _
    · rw [hlh]
      obtain ⟨hholds, hid, houtside⟩ := h.pending q blockno hq
      have hlt := h.cache.blockno_lt _ (h.cache.valid_of_holds hholds)
      rw [hid] at hlt
      have hmem : ∀ b ∈ absorb s.log.log.lh blockno,
          b ∈ s.log.log.lh ∨ b = blockno := fun b hb => mem_absorb.mp hb
      refine ⟨nodup_absorb h.header.nodup, ?_, ?_, ?_⟩
      · intro b hb
        rcases hmem b hb with hb | rfl
        · exact h.header.outside b hb
        · exact houtside
      · intro b hb
        rcases hmem b hb with hb | rfl
        · exact h.header.lt b hb
        · exact hlt
      · have haq : a = .update q := by
          cases a with
          | op p =>
              simp only [State.logAct] at hact
              split at hact <;> cases hact
          | update p => simpa [State.logAct] using hact
          | _ => simp [State.logAct] at hact
        subst haq
        exact ha blockno hq
    · exact hlh ▸ hread q header hact

omit [Fintype P] in
theorem settle_of_ne (l : Logging.State P) (c : Cache.State P Block)
    (hp : p ≠ a.actor) : (s.settle l c a).reg p = s.reg p ∧
      (s.settle l c a).pos p = s.pos p := by
  cases a with
  | op q =>
      have hp : p ≠ q := hp
      simp only [State.settle]
      split
      · exact ⟨rfl, Function.update_of_ne hp ..⟩
      · exact ⟨Function.update_of_ne hp .., Function.update_of_ne hp ..⟩
      · exact ⟨rfl, Function.update_of_ne hp ..⟩
  | logWrite q i =>
      have hp : p ≠ q := hp
      exact ⟨Function.update_of_ne hp .., rfl⟩
  | _ => exact ⟨rfl, rfl⟩

/-- In the middle of `log_write`, a process can only go on with it. -/
theorem Sound.eq_update (h : Sound s g) (hcrash : ∀ p, a ≠ .crash p)
    (ht : step s a = .next t) {blockno : ℕ}
    (hp : s.log.pc p = .logWrite blockno) (hactor : p = a.actor) :
    a = .update p := by
  obtain ⟨henabled, hlog, hcache, -⟩ := step_eq_next hcrash ht
  have hidle := (h.pending p blockno hp).1.1
  cases a with
  | update q => rw [hactor]; rfl
  | crash q => exact absurd rfl (hcrash q)
  | bread q id =>
      obtain rfl : p = q := hactor
      simp [State.enabled, State.isClient, hp] at henabled
  | modify q i data =>
      obtain rfl : p = q := hactor
      simp [State.enabled, State.isClient, hp] at henabled
  | bwrite q i =>
      obtain rfl : p = q := hactor
      simp [State.enabled, State.isClient, hp] at henabled
  | brelse q i =>
      obtain rfl : p = q := hactor
      simp [State.enabled, State.isClient, hp] at henabled
  | beginOp q =>
      obtain rfl : p = q := hactor
      simp [State.logAct, Logging.step, hp] at hlog
  | logWrite q i =>
      obtain rfl : p = q := hactor
      simp [State.logAct, Logging.step, hp] at hlog
  | endOp q =>
      obtain rfl : p = q := hactor
      simp [State.logAct, Logging.step, hp] at hlog
  | acquiresleep q =>
      obtain rfl : p = q := hactor
      simp [State.cacheAct, Cache.step, hidle] at hcache
  | load q =>
      obtain rfl : p = q := hactor
      simp [State.cacheAct, Cache.step, hidle] at hcache
  | release q =>
      obtain rfl : p = q := hactor
      simp [State.cacheAct, Cache.step, hidle] at hcache
  | op q =>
      obtain rfl : p = q := hactor
      have hcurrent : s.current p = none := by simp [State.current, hp, phaseOf]
      simp [State.logAct, hcurrent, Logging.step, hp] at hlog

/-- What a buffer of `p` keeps under the steps of the others. -/
theorem Sound.buf_of_ne (h : Sound s g) (hcrash : ∀ p, a ≠ .crash p)
    (ht : step s a = .next t) (hp : p ≠ a.actor) {i : Fin NBUF}
    (hi : (s.cache.buf i).lock = some p ∨ s.cache.call p = .locking i) :
    ((s.cache.buf i).lock = some p → (t.cache.buf i).lock = some p) ∧
      t.cache.call p = s.cache.call p ∧
      (t.cache.buf i).id = (s.cache.buf i).id := by
  obtain ⟨-, -, ⟨-, hc⟩ | ⟨c, hact, hc⟩, -⟩ := step_eq_next hcrash ht
  · rw [hc]
    exact ⟨fun hl => hl, rfl, rfl⟩
  · have hactor := cacheAct_actor hact
    refine ⟨fun hl => ?_, step_call hc (hactor ▸ hp),
      step_id hc (h.refcnt_ne_zero hi)⟩
    refine (step_lock hc hl).resolve_right ?_
    rintro rfl
    exact hp hactor

/-- A process in the middle of `log_write` keeps its buffer. -/
theorem Sound.pending_step (h : Sound s g) (ha : Disciplined s g a)
    (hcrash : ∀ p, a ≠ .crash p) (ht : step s a = .next t) {blockno : ℕ}
    (hp : t.log.pc p = .logWrite blockno) :
    t.cache.holds p (t.reg p 0) ∧
      (t.cache.buf (t.reg p 0)).id.blockno = blockno ∧
      Outside t.log.log blockno := by
  obtain ⟨hstart, hsize, -⟩ := log_area hcrash ht
  obtain ⟨henabled, hlog, hcache, hsettle⟩ := step_eq_next hcrash ht
  have houtside : Outside s.log.log blockno → Outside t.log.log blockno := by
    rw [Outside, Outside, hstart, hsize]
    exact fun h => h
  -- The case of a call that was already pending.
  have hkeep : s.log.pc p = .logWrite blockno → p ≠ a.actor →
      t.cache.holds p (t.reg p 0) ∧
        (t.cache.buf (t.reg p 0)).id.blockno = blockno ∧
        Outside t.log.log blockno := by
    intro hs hactor
    obtain ⟨hholds, hid, hout⟩ := h.pending p blockno hs
    obtain ⟨hlock, hcall, hid'⟩ := h.buf_of_ne hcrash ht hactor (.inl hholds.2)
    rw [hsettle, (settle_of_ne t.log t.cache hactor).1, ← hsettle]
    exact ⟨⟨hcall.trans hholds.1, hlock hholds.2⟩, hid' ▸ hid, houtside hout⟩
  rcases hlog with ⟨hact, hl⟩ | ⟨l, hact, hl⟩
  · rw [hl] at hp
    refine hkeep hp fun hactor => ?_
    have := h.eq_update hcrash ht hp hactor
    simp [this, State.logAct] at hact
  · rcases logWrite_of_step hl hp with rfl | ⟨hactor, hs⟩
    · cases a with
      | logWrite q i =>
          simp only [State.logAct, Option.some.injEq,
            Logging.Act.logWrite.injEq] at hact
          obtain ⟨rfl, hid⟩ := hact
          have hc : t.cache = s.cache := by
            rcases hcache with ⟨-, hc⟩ | ⟨c, hc, -⟩
            · exact hc
            · simp [State.cacheAct] at hc
          have hreg : t.reg q 0 = i := by
            rw [hsettle]
            simp [State.settle]
          rw [hreg, hc]
          exact ⟨henabled, hid, houtside (hid ▸ ha)⟩
      | op q =>
          simp only [State.logAct] at hact
          split at hact <;> cases hact
      | _ => simp [State.logAct] at hact
    · exact hkeep hs (logAct_actor hact ▸ hactor)

omit [Fintype P] in
/-- In `commit` and in recovery, a process goes on with its transfers. -/
theorem eq_of_phase (hcrash : ∀ p, a ≠ .crash p) (ht : step s a = .next t)
    {phase : Phase} (hp : phaseOf (s.log.pc p) = some phase)
    (hactor : p = a.actor) :
    a = .acquiresleep p ∨ a = .load p ∨ a = .release p ∨ a = .op p := by
  obtain ⟨henabled, hlog, -, -⟩ := step_eq_next hcrash ht
  have hpc : ∀ pc, phaseOf pc = none → s.log.pc p ≠ pc := by
    rintro pc hpc rfl
    simp [hp] at hpc
  have hclient : ¬ s.isClient p := by
    rintro ⟨-, hq | hq⟩
    · exact hpc .outside rfl hq
    · exact hpc .inside rfl hq
  have hinside := hpc .inside rfl
  have houtside := hpc .outside rfl
  have hwoken := hpc .woken rfl
  cases a with
  | crash q => exact absurd rfl (hcrash q)
  | bread q id =>
      obtain rfl : p = q := hactor
      exact absurd henabled hclient
  | modify q i data =>
      obtain rfl : p = q := hactor
      exact absurd henabled hclient
  | bwrite q i =>
      obtain rfl : p = q := hactor
      exact absurd henabled hclient
  | brelse q i =>
      obtain rfl : p = q := hactor
      exact absurd henabled hclient
  | beginOp q =>
      obtain rfl : p = q := hactor
      simp [State.logAct, Logging.step, houtside, hwoken] at hlog
  | logWrite q i =>
      obtain rfl : p = q := hactor
      simp [State.logAct, Logging.step, hinside] at hlog
  | endOp q =>
      obtain rfl : p = q := hactor
      simp [State.logAct, Logging.step, hinside] at hlog
  | update q =>
      obtain rfl : p = q := hactor
      rcases hlog with ⟨hl, -⟩ | ⟨l, hl, hl'⟩
      · cases hl
      · cases hl
        simp only [Logging.step] at hl'
        split at hl'
        · next b hb => exact absurd hb (hpc _ rfl)
        · cases hl'
  | acquiresleep q =>
      obtain rfl : p = q := hactor
      exact .inl rfl
  | load q =>
      obtain rfl : p = q := hactor
      exact .inr (.inl rfl)
  | release q =>
      obtain rfl : p = q := hactor
      exact .inr (.inr (.inl rfl))
  | op q =>
      obtain rfl : p = q := hactor
      exact .inr (.inr (.inr rfl))

omit [Fintype P] in
/-- Only the end of a phase moves a process within `log.c`. -/
theorem pc_of_current {o : Op}
    (ho : s.current p = some o) (ht : step s (.op p) = .next t) :
    t.log.pc p = s.log.pc p := by
  obtain ⟨-, ⟨-, hl⟩ | ⟨l, hact, hl⟩, -⟩ := step_eq_next (by simp) ht
  · rw [hl]
  · simp only [State.logAct, ho] at hact
    cases o with
    | readHead r =>
        cases hact
        simp only [Logging.step] at hl
        split_ifs at hl
        rw [← Outcome.next.inj hl]
    | _ => cases hact

theorem Sound.pos_step (h : Sound s g) (hcrash : ∀ p, a ≠ .crash p)
    (ht : step s a = .next t) (hp : phaseOf (t.log.pc p) = none) :
    t.pos p = 0 := by
  obtain ⟨henabled, hlog, -, hsettle⟩ := step_eq_next hcrash ht
  by_cases hop : a = .op p
  · subst hop
    cases ho : s.current p with
    | none =>
        rw [hsettle]
        simp [State.settle, ho]
    | some o =>
        obtain ⟨phase, hphase, -⟩ := current_eq_some ho
        rw [pc_of_current ho ht, hphase] at hp
        cases hp
  · have hpos : t.pos p = s.pos p := by
      rw [hsettle]
      by_cases hactor : p = a.actor
      · cases a with
        | op q =>
            obtain rfl : p = q := hactor
            exact absurd rfl hop
        | _ => rfl
      · exact (settle_of_ne t.log t.cache hactor).2
    rw [hpos]
    refine h.pos_eq_zero p ?_
    by_contra hs
    obtain ⟨phase, hs⟩ := Option.ne_none_iff_exists'.mp hs
    have hpc : t.log.pc p = s.log.pc p := by
      rcases hlog with ⟨-, hl⟩ | ⟨l, hact, hl⟩
      · rw [hl]
      · by_cases hactor : p = a.actor
        · rcases eq_of_phase hcrash ht hs hactor with rfl | rfl | rfl | rfl
          · cases hact
          · cases hact
          · cases hact
          · exact absurd rfl hop
        · exact (h.log.step_of_phase hl hs (logAct_actor hact ▸ hactor)).2.2
    rw [hpc, hs] at hp
    cases hp

omit [Fintype P] [DecidableEq P] in
theorem touched_of_nextShadow (hcrash : ∀ p, a ≠ .crash p) {i : Fin NBUF}
    (hi : (nextShadow g s a).touched i = true) :
    g.touched i = true ∨
      ∃ data, s.cacheAct a = some (.modify a.actor i data) := by
  have hi' : (match s.cacheAct a with
      | none => g
      | some c => g.record s.cache c).touched i = true := by
    cases a with
    | crash p => exact absurd rfl (hcrash p)
    | _ => exact hi
  cases hc : s.cacheAct a with
  | none =>
      rw [hc] at hi'
      exact .inl hi'
  | some c =>
      rw [hc] at hi'
      refine (touched_of_record hi').imp_right ?_
      rintro ⟨data, hmodify⟩
      exact ⟨data, by rw [← cacheAct_actor hc, ← hmodify]⟩

theorem Sound.regs_of_ne (h : Sound s g) (hcrash : ∀ p, a ≠ .crash p)
    (ht : step s a = .next t) (hactor : p ≠ a.actor) {phase : Phase}
    (hp : phaseOf (t.log.pc p) = some phase) :
    Regs t (nextShadow g s a) p phase := by
  obtain ⟨-, hlog, hcache, hsettle⟩ := step_eq_next hcrash ht
  obtain ⟨hreg, hpos⟩ := settle_of_ne t.log t.cache hactor
  rw [← hsettle] at hreg hpos
  have hsame : phaseOf (s.log.pc p) = some phase ∧ t.log.log = s.log.log := by
    rcases hlog with ⟨-, hl⟩ | ⟨l, hact, hl⟩
    · rw [hl] at hp ⊢
      exact ⟨hp, rfl⟩
    · have hl' : p ≠ l.actor := logAct_actor hact ▸ hactor
      have hs : phaseOf (s.log.pc p) = some phase := by
        rcases step_pc hl hl' with hpc | ⟨-, hpc⟩
        · rwa [hpc] at hp
        · simp [hpc, phaseOf] at hp
      exact ⟨hs, (h.log.step_of_phase hl hs hl').1⟩
  intro r blockno hr
  rw [hsame.2, hpos] at hr ⊢
  obtain ⟨hlock, hid, htouched⟩ := h.regs p phase hsame.1 r blockno hr
  obtain ⟨hlock', hcall, hid'⟩ := h.buf_of_ne hcrash ht hactor hlock
  rw [hreg, hcall]
  refine ⟨hlock.imp_left hlock', hid' ▸ hid, ?_⟩
  intro ht' hne
  rcases touched_of_nextShadow hcrash ht' with ht' | ⟨data, hact⟩
  · exact htouched ht' hne
  · -- Another process does not change a buffer that `p` has locked.
    have hlockp := hlock.resolve_right hne
    rcases hcache with ⟨hc, -⟩ | ⟨c, hc, hstep⟩
    · simp [hact] at hc
    · rw [hact] at hc
      cases hc
      simp only [Cache.step] at hstep
      split_ifs at hstep with hholds
      exact absurd (Option.some.inj (hlockp.symm.trans hholds.2)) hactor

theorem Sound.regs_call (h : Sound s g) {c : Cache.Act P Block}
    (hc : c = .acquiresleep p ∨ c = .load p ∨ c = .release p)
    (hstep : Cache.step s.cache c = .next t.cache) (hlog : t.log = s.log)
    (hreg : t.reg = s.reg) (hpos : t.pos = s.pos) {phase : Phase}
    (hp : phaseOf (s.log.pc p) = some phase) : Regs t g p phase := by
  intro r blockno hr
  rw [hlog, hpos] at hr ⊢
  rw [hreg]
  obtain ⟨hlock, hid, htouched⟩ := h.regs p phase hp r blockno hr
  have hkeep : (s.cache.buf (s.reg p r)).lock = some p →
      (t.cache.buf (s.reg p r)).lock = some p := by
    intro hl
    refine (step_lock hstep hl).resolve_right ?_
    rintro rfl
    simp at hc
  have hlocking : s.cache.call p = .locking (s.reg p r) →
      c = .acquiresleep p := by
    intro hcall
    rcases hc with rfl | rfl | rfl
    · rfl
    · simp [Cache.step, hcall] at hstep
    · simp [Cache.step, hcall] at hstep
  refine ⟨.inl ?_, step_id hstep (h.refcnt_ne_zero hlock) ▸ hid, ?_⟩
  · rcases hlock with hl | hcall
    · exact hkeep hl
    · obtain rfl := hlocking hcall
      exact (acquiresleep_lock hstep hcall).2
  · intro ht _
    refine htouched ht fun hcall => ?_
    obtain rfl := hlocking hcall
    exact (h.coherent.lock_of_touched _ ht).1
      (acquiresleep_lock hstep hcall).1

omit [Fintype P] in
/-- A transfer leaves the process in its phase, and that phase with the same
transfers. -/
theorem op_shape {o : Op} (ho : s.current p = some o)
    (ht : step s (.op p) = .next t) :
    ∃ phase, phaseOf (s.log.pc p) = some phase ∧
      phaseOf (t.log.pc p) = some phase ∧
      (script s.log.log phase)[s.pos p]? = some o ∧
      script t.log.log phase = script s.log.log phase ∧
      t.pos p = s.pos p + 1 ∧ t.log.log.dev = s.log.log.dev ∧
      (t.cache = s.cache ∧ (∃ r, o = .readHead r) ∨
        ∃ c, s.cacheAct (.op p) = some c ∧
          Cache.step s.cache c = .next t.cache) := by
  obtain ⟨phase, hphase, hop⟩ := current_eq_some ho
  have hpc := pc_of_current ho ht
  obtain ⟨-, hlog, hcache, hsettle⟩ := step_eq_next (by simp) ht
  refine ⟨phase, hphase, by rw [hpc, hphase], hop, ?_, ?_,
    (log_area (by simp) ht).2.2, ?_⟩
  · rcases hlog with ⟨-, hl⟩ | ⟨l, hact, hl⟩
    · rw [hl]
    · simp only [State.logAct, ho] at hact
      cases o with
      | readHead r =>
          cases hact
          simp only [Logging.step] at hl
          split_ifs at hl with hread
          rw [← Outcome.next.inj hl]
          rw [hread] at hphase
          cases hphase
          rfl
      | _ => cases hact
  · rw [hsettle]
    cases o <;> simp [State.settle, ho]
  · refine hcache.imp_left ?_
    rintro ⟨hnone, hc⟩
    refine ⟨hc, ?_⟩
    simp only [State.cacheAct, ho] at hnone
    cases o with
    | readHead r => exact ⟨r, rfl⟩
    | _ => cases hnone

omit [DecidableEq P] in
/-- Two registers in use are different buffers. -/
theorem Sound.reg_inj (h : Sound s g) {phase : Phase}
    (hp : phaseOf (s.log.pc p) = some phase) (hcall : s.cache.call p = .idle)
    {r r' : Fin 2} {b b' : ℕ}
    (hr : held ((script s.log.log phase).take (s.pos p)) r = some b)
    (hr' : held ((script s.log.log phase).take (s.pos p)) r' = some b')
    (hreg : s.reg p r = s.reg p r') : r = r' := by
  have hid := (h.reg_spec hp hcall hr).2.1
  rw [hreg, (h.reg_spec hp hcall hr').2.1] at hid
  simp only [BlockId.mk.injEq, true_and] at hid
  subst hid
  exact script_distinct h.header h.size_pos hr hr'

omit [DecidableEq P] in
/-- The registers after a transfer other than `bread`: the cache step `c` may
change the contents of one register, which is then written next, and may
release another one. -/
theorem Sound.regs_transfer (h : Sound s g) {o : Op} {phase : Phase}
    (hidle : s.cache.call p = .idle)
    (hp : phaseOf (s.log.pc p) = some phase)
    (hop : (script s.log.log phase)[s.pos p]? = some o)
    (hscript : script t.log.log phase = script s.log.log phase)
    (hpos : t.pos p = s.pos p + 1) (hreg : t.reg = s.reg)
    (hdev : t.log.log.dev = s.log.log.dev)
    (hbread : ∀ r b, o ≠ .bread r b)
    (hkeep : ∀ r b, held ((script s.log.log phase).take (s.pos p)) r =
        some b → o ≠ .brelse r →
      (t.cache.buf (s.reg p r)).lock = some p ∧
        (t.cache.buf (s.reg p r)).id = (s.cache.buf (s.reg p r)).id)
    (htouched : ∀ r b, held ((script s.log.log phase).take (s.pos p)) r =
        some b → (nextShadow g s (.op p)).touched (s.reg p r) = true →
      g.touched (s.reg p r) = true ∧ o ≠ .bwrite r ∨ o.changes = some r) :
    Regs t (nextShadow g s (.op p)) p phase := by
  intro r blockno hr
  rw [hscript, hpos, held_take_succ hop] at hr
  have hr' : held ((script s.log.log phase).take (s.pos p)) r =
      some blockno ∧ o ≠ .brelse r := by
    cases o with
    | bread r' b => exact absurd rfl (hbread r' b)
    | brelse r' =>
        by_cases hrr : r = r'
        · subst hrr
          simp [Op.hold] at hr
        · rw [Op.hold, Function.update_of_ne hrr] at hr
          exact ⟨hr, by simpa using Ne.symm hrr⟩
    | _ => exact ⟨hr, by simp⟩
  obtain ⟨hholds, hid, hwrite⟩ := h.reg_spec hp hidle hr'.1
  obtain ⟨hlock', hid'⟩ := hkeep r blockno hr'.1 hr'.2
  rw [hreg, hscript, hpos, hdev]
  refine ⟨.inl hlock', hid' ▸ hid, fun ht' _ => ?_⟩
  rcases htouched r blockno hr'.1 ht' with ⟨ht', hne⟩ | hchanges
  · have := hwrite ht'
    rw [hop] at this
    exact absurd (Option.some.inj this) hne
  · exact script_changes hop hchanges

theorem Sound.regs_bread (h : Sound s g) {r₀ : Fin 2} {b₀ : ℕ}
    {phase : Phase} (hidle : s.cache.call p = .idle)
    (ho : s.current p = some (.bread r₀ b₀))
    (hp : phaseOf (s.log.pc p) = some phase)
    (hop : (script s.log.log phase)[s.pos p]? = some (.bread r₀ b₀))
    (hscript : script t.log.log phase = script s.log.log phase)
    (hpos : t.pos p = s.pos p + 1) (hdev : t.log.log.dev = s.log.log.dev)
    (hreg : t.reg p = Function.update (s.reg p) r₀
      ((bufferOf (t.cache.call p)).getD (s.reg p r₀)))
    (hstep : Cache.step s.cache (.bread p ⟨s.log.log.dev, b₀⟩) =
      .next t.cache) : Regs t (nextShadow g s (.op p)) p phase := by
  obtain ⟨i, hcall, hi⟩ := bread_locking hstep
  intro r blockno hr
  rw [hscript, hpos, held_take_succ hop] at hr
  rw [hreg, hscript, hpos, hdev, hcall]
  by_cases hrr : r = r₀
  · subst hrr
    simp only [Op.hold, Function.update_self, Option.some.injEq] at hr
    subst hr
    simp only [bufferOf, Option.getD_some, Function.update_self]
    exact ⟨.inr trivial, hi, fun _ hne => absurd rfl hne⟩
  · rw [Op.hold, Function.update_of_ne hrr] at hr
    obtain ⟨hholds, hid, hwrite⟩ := h.reg_spec hp hidle hr
    rw [Function.update_of_ne hrr]
    refine ⟨.inl ((step_lock hstep hholds.2).resolve_right (by simp)), ?_, ?_⟩
    · exact step_id hstep (h.refcnt_ne_zero (.inl hholds.2)) ▸ hid
    · intro ht' _
      rcases touched_of_nextShadow (by simp) ht' with ht' | ⟨data, hact⟩
      · have := hwrite ht'
        rw [hop] at this
        simp at this
      · simp [State.cacheAct, ho] at hact

theorem Sound.regs_op (h : Sound s g) (ht : step s (.op p) = .next t)
    {phase : Phase} (hp : phaseOf (t.log.pc p) = some phase) :
    Regs t (nextShadow g s (.op p)) p phase := by
  obtain ⟨hidle, -, -, hsettle⟩ := step_eq_next (by simp) ht
  cases ho : s.current p with
  | none =>
      have hpos : t.pos p = 0 := by
        rw [hsettle]
        simp [State.settle, ho]
      intro r blockno hr
      simp [hpos, held] at hr
  | some o =>
      obtain ⟨phase', hphase, hphase', hop, hscript, hpos, hdev, hcache⟩ :=
        op_shape ho ht
      obtain rfl : phase' = phase := Option.some.inj (hphase'.symm.trans hp)
      by_cases hbread : ∃ r b, o = .bread r b
      · obtain ⟨r, b, rfl⟩ := hbread
        rcases hcache with ⟨-, r', hr'⟩ | ⟨c, hact, hstep⟩
        · cases hr'
        · simp only [State.cacheAct, ho, Option.some.injEq] at hact
          subst hact
          refine h.regs_bread hidle ho hphase hop hscript hpos hdev ?_ hstep
          rw [hsettle]
          simp [State.settle, ho]
      · have hreg : t.reg = s.reg := by
          rw [hsettle]
          cases o with
          | bread r b => exact absurd ⟨r, b, rfl⟩ hbread
          | _ => simp [State.settle, ho]
        refine h.regs_transfer hidle hphase hop hscript hpos hreg hdev
          (fun r b e => hbread ⟨r, b, e⟩) ?_ ?_
        · intro r b hr hne
          have hholds := (h.reg_spec hphase hidle hr).1
          rcases hcache with ⟨hc, -⟩ | ⟨c, hact, hstep⟩
          · rw [hc]
            exact ⟨hholds.2, rfl⟩
          · refine ⟨(step_lock hstep hholds.2).resolve_right ?_,
              step_id hstep (h.refcnt_ne_zero (.inl hholds.2))⟩
            rintro rfl
            simp only [State.cacheAct, ho] at hact
            cases o with
            | brelse r' =>
                simp only [Option.some.injEq, Cache.Act.brelse.injEq,
                  true_and] at hact
                obtain ⟨b', hb'⟩ := Option.isSome_iff_exists.mp
                  (script_uses hop r' (by simp [Op.uses]))
                exact hne (h.reg_inj hphase hidle hb' hr hact ▸ rfl)
            | _ => simp at hact
        · intro r b hr ht'
          rcases touched_of_nextShadow (by simp) ht' with ht'' | ⟨data, hact⟩
          · by_cases hw : o = .bwrite r
            · subst hw
              simp [nextShadow, State.cacheAct, ho, Shadow.record] at ht'
            · exact .inl ⟨ht'', hw⟩
          · right
            simp only [State.cacheAct, ho] at hact
            cases o with
            | memmove dst src =>
                simp only [Option.some.injEq, Cache.Act.modify.injEq] at hact
                obtain ⟨b', hb'⟩ := Option.isSome_iff_exists.mp
                  (script_uses hop dst (by simp [Op.uses]))
                rw [h.reg_inj hphase hidle hr hb' hact.2.1.symm]
                rfl
            | fillHead r' =>
                simp only [Option.some.injEq, Cache.Act.modify.injEq] at hact
                obtain ⟨b', hb'⟩ := Option.isSome_iff_exists.mp
                  (script_uses hop r' (by simp [Op.uses]))
                rw [h.reg_inj hphase hidle hr hb' hact.2.1.symm]
                rfl
            | _ => simp at hact

theorem Sound.regs_step (h : Sound s g) (hcrash : ∀ p, a ≠ .crash p)
    (ht : step s a = .next t) {phase : Phase}
    (hp : phaseOf (t.log.pc p) = some phase) :
    Regs t (nextShadow g s a) p phase := by
  by_cases hactor : p = a.actor
  · by_cases hop : a = .op p
    · subst hop
      exact h.regs_op ht hp
    · obtain ⟨-, hlog, hcache, hsettle⟩ := step_eq_next hcrash ht
      have hpos : t.pos = s.pos := by
        rw [hsettle]
        cases a with
        | op q =>
            obtain rfl : p = q := hactor
            exact absurd rfl hop
        | _ => rfl
      cases hs : phaseOf (s.log.pc p) with
      | none =>
          intro r blockno hr
          simp [hpos, h.pos_eq_zero p hs, held] at hr
      | some phase' =>
          have hcall : ∀ c : Cache.Act P Block,
              (c = .acquiresleep p ∨ c = .load p ∨ c = .release p) →
              s.cacheAct a = some c → s.logAct a = none → t.reg = s.reg →
              Regs t g p phase := by
            intro c hc hact hnone hreg
            rcases hlog with ⟨-, hl⟩ | ⟨l, hl, -⟩
            · rcases hcache with ⟨hc', -⟩ | ⟨c', hc', hstep⟩
              · simp [hact] at hc'
              · obtain rfl := Option.some.inj (hact.symm.trans hc')
                rw [hl] at hp
                exact h.regs_call hc hstep hl hreg hpos hp
            · simp [hnone] at hl
          rcases eq_of_phase hcrash ht hs hactor with rfl | rfl | rfl | rfl
          · exact hcall _ (.inl rfl) rfl rfl (by rw [hsettle]; rfl)
          · exact hcall _ (.inr (.inl rfl)) rfl rfl (by rw [hsettle]; rfl)
          · exact hcall _ (.inr (.inr rfl)) rfl rfl (by rw [hsettle]; rfl)
          · exact absurd rfl hop
  · exact h.regs_of_ne hcrash ht hactor hp

/-- Every step of a disciplined run other than a crash keeps the invariant,
if recovery finds a well-formed header. -/
theorem Sound.step (h : Sound s g) (ha : Disciplined s g a)
    (hcrash : ∀ p, a ≠ .crash p)
    (hread : ∀ q header, s.logAct a = some (.readHead q header) →
      WellFormed s.log.log header)
    (ht : Transactions.step s a = .next t) : Sound t (nextShadow g s a) := by
  obtain ⟨henabled, hlog, hcache, hsettle⟩ := step_eq_next hcrash ht
  obtain ⟨hstart, hsize, hdev⟩ := log_area hcrash ht
  exact
    { log := by
        rcases hlog with ⟨-, hl⟩ | ⟨l, -, hl⟩
        · exact hl ▸ h.log
        · exact h.log.step hl
      cache := by
        rcases hcache with ⟨-, hc⟩ | ⟨c, hact, hc⟩
        · exact hc ▸ h.cache
        · refine h.cache.step ?_ hc
          rintro q id rfl
          exact h.bread_dev ha hact
      coherent := by
        have hshadow : nextShadow g s a = match s.cacheAct a with
            | none => g
            | some c => g.record s.cache c := by
          cases a with
          | crash p => exact absurd rfl (hcrash p)
          | _ => rfl
        rw [hshadow]
        rcases hcache with ⟨hnone, hc⟩ | ⟨c, hact, hc⟩
        · rw [hnone, hc]
          exact h.coherent
        · rw [hact]
          refine h.coherent.step h.cache ?_ hc
          rintro q i rfl
          exact h.clean ha henabled hact
      dev_lt := hdev ▸ h.dev_lt
      size_pos := hsize ▸ h.size_pos
      header := h.header_step ha hcrash hread ht
      pending := fun _ _ hp => h.pending_step ha hcrash ht hp
      pos_eq_zero := fun _ hp => h.pos_step hcrash ht hp
      regs := fun _ _ hp => h.regs_step hcrash ht hp }

omit [Fintype P] in
theorem restart_restarted (s : State P) (p : P) :
    Restarted (s.restart p).log p where
  outstanding := rfl
  committing := rfl
  lh := rfl
  booted := rfl
  pc := by simp [State.restart]
  pc_other q hq := by simp [State.restart, hq]

/-- A restart leads to a sound state. -/
theorem Sound.restart (h : Sound s g) (p : P) :
    Sound (s.restart p) (nextShadow g s (.crash p)) where
  log := (restart_restarted s p).inv
  cache := binit_inv _ _
  coherent := binit_coherent _ _
  dev_lt := h.dev_lt
  size_pos := h.size_pos
  header := WellFormed.nil _
  pending q blockno hq := by
    by_cases hqp : q = p
    · subst hqp
      simp [State.restart] at hq
    · simp [State.restart, hqp] at hq
  pos_eq_zero _ _ := rfl
  regs q phase _ r blockno hr := by
    simp [State.restart, held] at hr

/-- A machine after `initlog`: nothing is cached or logged, and no process is
in a call. -/
structure Booted (s : State P) : Prop where
  log : Ready s.log
  cache : s.cache = binit (fun _ => 0) s.cache.disk
  pos : ∀ p, s.pos p = 0
  dev_lt : s.log.log.dev < 2
  size_pos : 0 < s.log.log.size

omit [DecidableEq P] in
theorem Booted.sound (h : Booted s) :
    Sound s ⟨fun id => s.cache.disk id.sector, fun _ => false⟩ where
  log := h.log.inv
  cache := h.cache ▸ binit_inv _ _
  coherent := by
    have := binit_coherent (P := P) (fun _ => 0 : Block) s.cache.disk
    rwa [← h.cache] at this
  dev_lt := h.dev_lt
  size_pos := h.size_pos
  header := h.log.lh ▸ WellFormed.nil _
  pending p blockno hp := by simp [h.log.pc] at hp
  pos_eq_zero p _ := h.pos p
  regs p phase hp := by simp [h.log.pc, phaseOf] at hp

end Sound

end ZtlOs.Transactions
