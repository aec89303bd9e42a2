import ZtlOs.Log.Commit

/-!
# The cache and the log as one store

The contents that processes write into blocks are kept beside the machine: a
change that a process makes in place counts, and so do the blocks that the log
code fills in its own area, but not the copies of `install_trans`, which only
move logged contents to their place.  A buffer that `bread` returns has the
contents last written, as long as no process changes a block of the header
while a commit is running.
-/

namespace ZtlOs.Transactions

open ZtlOs.Support ZtlOs.Fs ZtlOs.Cache ZtlOs.Logging

/-! ## Histories -/

/-- The machine with the contents last written to each block, and the block
that each process has asked for last. -/
structure Traced (P : Type*) where
  state : State P
  shadow : Shadow Block
  written : BlockId → Block
  asked : P → BlockId

/-- `p` is copying committed blocks to their place. -/
def State.installing {P : Type*} (s : State P) (p : P) : Bool :=
  match phaseOf (s.log.pc p) with
  | some (.installTrans _) => true
  | _ => false

section Step

variable {P : Type*} [DecidableEq P]

def Traced.record (s : Traced P) (a : Act P) (t : State P) : Traced P where
  state := t
  shadow := nextShadow s.shadow s.state a
  written :=
    match s.state.cacheAct a with
    | some (.modify p i data) =>
        if s.state.installing p then s.written
        else Function.update s.written (s.state.cache.buf i).id data
    | _ => s.written
  asked :=
    match s.state.cacheAct a with
    | some (.bread p id) => Function.update s.asked p id
    | _ => s.asked

def Traced.step (s : Traced P) (a : Act P) : Outcome (Traced P) :=
  (Transactions.step s.state a).map (s.record a)

/-- A machine after `initlog`, on which nothing has been written yet. -/
structure Traced.Initial (s : Traced P) : Prop where
  booted : Booted s.state
  store : ∀ id, s.shadow.store id = s.state.cache.disk id.sector
  touched : ∀ i, s.shadow.touched i = false
  written : ∀ id, s.written id = s.state.cache.disk id.sector

/-- What `log.c` asks of its callers, with no crash. -/
def Stated (s : Traced P) (a : Act P) : Prop :=
  Disciplined s.state s.shadow a ∧ ∀ p, a ≠ .crash p

/-- In addition, no process changes a block of the log area, nor a block of
the header while a commit is running. -/
def Permitted (s : Traced P) (a : Act P) : Prop :=
  Stated s a ∧ Protected s.state a

end Step

/-! ## The invariant -/

/-- The contents last written are those of the store. -/
structure Traced.Tracks {P : Type*} [Fintype P] (s : Traced P) : Prop where
  sound : Sound s.state s.shadow
  booted : s.state.log.booted = true
  copied : Copied s.state s.shadow
  written_eq : s.written = s.shadow.store
  asked_eq : ∀ p i, s.state.cache.call p = .locking i ∨
    s.state.cache.call p = .loading i →
    (s.state.cache.buf i).id = s.asked p

section Tracks

variable {P : Type*} [Fintype P] [DecidableEq P] {s t : Traced P}
variable {a : Act P}

omit [Fintype P] in
theorem Traced.step_eq_next (ht : s.step a = .next t) :
    Transactions.step s.state a = .next t.state ∧
      t = s.record a t.state := by
  obtain ⟨u, hu, rfl⟩ := Outcome.map_eq_next ht
  exact ⟨hu, rfl⟩

omit [DecidableEq P] in
theorem Traced.Initial.tracks (h : s.Initial) : s.Tracks where
  sound := by
    have hshadow : s.shadow =
        ⟨fun id => s.state.cache.disk id.sector, fun _ => false⟩ := by
      cases hg : s.shadow with
      | mk store touched =>
          congr
          · funext id
            simpa [hg] using h.store id
          · funext i
            simpa [hg] using h.touched i
    exact hshadow ▸ h.booted.sound
  booted := h.booted.log.booted
  copied p phase hp := by simp [h.booted.log.pc] at hp
  written_eq := by
    funext id
    rw [h.written, h.store]
  asked_eq p i hp := by
    rw [h.booted.cache] at hp
    simp [binit] at hp

/-- The copies of `install_trans` put into a block what was last written to
it. -/
theorem Traced.Tracks.written_step (h : s.Tracks)
    (hcrash : ∀ p, a ≠ .crash p) (ht : s.step a = .next t) :
    t.written = t.shadow.store := by
  obtain ⟨hstep, hrecord⟩ := Traced.step_eq_next ht
  have henabled := (Transactions.step_eq_next hcrash hstep).1
  rw [hrecord]
  simp only [Traced.record]
  rcases nextShadow_store (g := s.shadow) hcrash with
    ⟨p, i, data, hact, hstore⟩ | ⟨hno, hstore⟩
  · rw [hact, hstore]
    simp only [h.written_eq]
    split_ifs with hinstalling
    · obtain ⟨tail, hphase⟩ : ∃ tail,
          phaseOf (s.state.log.pc p) = some (.installTrans tail) := by
        unfold State.installing at hinstalling
        split at hinstalling
        · next tail hphase => exact ⟨tail, hphase⟩
        · cases hinstalling
      rcases cacheAct_modify hact with rfl |
          ⟨rfl, ⟨dst, src, hcur, rfl, rfl⟩ | ⟨r, hcur, rfl, rfl⟩⟩
      · rcases henabled.2 with hpc | hpc <;> simp [hpc, phaseOf] at hphase
      · obtain ⟨tail', htail, -, ⟨hwhich, -⟩ | ⟨hwhich, -, hid, hdata⟩⟩ :=
          h.sound.memmove_spec henabled hcur
        · simp [hphase] at hwhich
        · obtain rfl : tail = tail' := by simpa [hphase] using hwhich
          have hpc : s.state.log.pc p = .committing (.installTrans tail) := by
            refine (pc_of_phaseOf hphase).resolve_right fun hpc => ?_
            have := h.sound.log.not_booted_of_pc p _ hpc
            simp [h.booted] at this
          rw [hid, hdata, h.copied p _ hpc tail htail htail,
            Function.update_eq_self]
      · obtain ⟨hwhich, -⟩ := h.sound.fillHead_spec henabled hcur
        simp [hphase] at hwhich
    · rfl
  · rw [hstore, h.written_eq]
    split
    · next p i data hact => exact absurd hact (hno p i data)
    · rfl

theorem Traced.Tracks.asked_step (h : s.Tracks)
    (hcrash : ∀ p, a ≠ .crash p) (ht : s.step a = .next t) {p : P}
    {i : Fin NBUF} (hp : t.state.cache.call p = .locking i ∨
      t.state.cache.call p = .loading i) :
    (t.state.cache.buf i).id = t.asked p := by
  obtain ⟨hstep, hrecord⟩ := Traced.step_eq_next ht
  obtain ⟨-, -, hcache, -⟩ := Transactions.step_eq_next hcrash hstep
  have hasked : t.asked = match s.state.cacheAct a with
      | some (.bread p id) => Function.update s.asked p id
      | _ => s.asked := by
    rw [hrecord]
    rfl
  rcases hcache with ⟨hnone, hc⟩ | ⟨c, hact, hc⟩
  · rw [hasked, hnone, hc]
    rw [hc] at hp
    exact h.asked_eq p i hp
  · rcases waiting_of_step hc hp with hbread | ⟨hs, hne⟩
    · rw [hasked, hact, hbread]
      simp
    · have href : (s.state.cache.buf i).refcnt ≠ 0 := by
        refine h.sound.refcnt_ne_zero (p := p) ?_
        rcases hs with hs | hs
        · exact .inr hs
        · exact .inl (h.sound.cache.lock_of_loading p i hs)
      have hp' : t.asked p = s.asked p := by
        rw [hasked, hact]
        cases c with
        | bread q id =>
            refine Function.update_of_ne ?_ ..
            rintro rfl
            exact hne id rfl
        | _ => rfl
      rw [step_id hc href, hp']
      exact h.asked_eq p i hs

theorem Traced.Tracks.step (h : s.Tracks) (ha : Permitted s a)
    (ht : s.step a = .next t) : t.Tracks := by
  obtain ⟨hstep, hrecord⟩ := Traced.step_eq_next ht
  have hcrash := ha.1.2
  have hshadow : t.shadow = nextShadow s.shadow s.state a := by
    rw [hrecord]
    rfl
  exact
    { sound := by
        rw [hshadow]
        refine h.sound.step ha.1.1 hcrash ?_ hstep
        intro q header hact
        obtain ⟨-, ⟨hnone, -⟩ | ⟨l, hl, hlog⟩, -⟩ :=
          Transactions.step_eq_next hcrash hstep
        · simp [hact] at hnone
        · obtain rfl := Option.some.inj (hact.symm.trans hl)
          simp only [Logging.step] at hlog
          split_ifs at hlog with hq
          have := h.sound.log.not_booted_of_pc q _ hq
          simp [h.booted] at this
      booted := by
        obtain ⟨-, ⟨-, hlog⟩ | ⟨l, -, hlog⟩, -⟩ :=
          Transactions.step_eq_next hcrash hstep
        · rw [hlog]
          exact h.booted
        · exact step_booted hlog h.booted
      copied := hshadow ▸ h.copied.step h.sound hcrash ha.2 hstep
      written_eq := h.written_step hcrash ht
      asked_eq := fun p i hp => h.asked_step hcrash ht hp }

theorem load_valid (h : s.Tracks) {p : P} {i : Fin NBUF}
    (hp : s.state.cache.call p = .loading i)
    (ht : s.step (.load p) = .next t) :
    t.state.cache.holds p i ∧ t.written = s.written ∧
      (t.state.cache.buf i).id = (s.state.cache.buf i).id := by
  obtain ⟨hstep, hrecord⟩ := Traced.step_eq_next ht
  obtain ⟨-, -, ⟨hnone, -⟩ | ⟨c, hact, hc⟩, -⟩ :=
    Transactions.step_eq_next (by simp) hstep
  · simp [State.cacheAct] at hnone
  · cases hact
    have hlock := h.sound.cache.lock_of_loading p i hp
    have hidle : t.state.cache.call p = .idle := by
      simp only [Cache.step, hp] at hc
      split_ifs at hc
      · rw [← Outcome.next.inj hc]
        simp [State.setCall]
      · obtain ⟨v, -, hv⟩ := Outcome.map_eq_next hc
        rw [hv]
        simp [State.setCall]
    refine ⟨⟨hidle, (step_lock hc hlock).resolve_right (by simp)⟩, ?_,
      step_id hc (h.sound.refcnt_ne_zero (.inl hlock))⟩
    rw [hrecord]
    rfl

end Tracks

/-! ## What `bread` returns -/

/-- For any number of processes and any order of their steps, `bread` returns
a locked buffer of the block asked for, with the contents last written to that
block. -/
theorem bread_returns_written {P : Type*} [Fintype P] [DecidableEq P]
    {s t u : Traced P} {w : List (Act P)} (hs : s.Initial)
    (hw : Meets Traced.step Permitted s w) (hrun : Run Traced.step s w t)
    {p : P} {i : Fin NBUF} (hp : t.state.cache.call p = .loading i)
    (hload : t.step (.load p) = .next u) :
    u.state.cache.holds p i ∧ (u.state.cache.buf i).id = t.asked p ∧
      (u.state.cache.buf i).data = t.written (t.asked p) := by
  have ht : t.Tracks := hrun.invariant_of_meets (I := Traced.Tracks)
    (fun _ _ _ h ha hstep => h.step ha hstep) hw hs.tracks
  have hu : u.Tracks :=
    ht.step (a := .load p) ⟨⟨trivial, by simp⟩, trivial⟩ hload
  obtain ⟨hholds, hwritten, hid⟩ := load_valid ht hp hload
  have hasked := ht.asked_eq p i (.inr hp)
  refine ⟨hholds, hid.trans hasked, ?_⟩
  rw [hu.sound.coherent.data_eq i (hu.sound.cache.valid_of_holds hholds),
    ← hu.written_eq, hwritten, hid, hasked]

/-! ## A change that a commit undoes -/

instance {P : Type*} [DecidableEq P] (s : Traced P) :
    ∀ a, Decidable (Stated s a)
  | .crash p => .isFalse fun h => h.2 p rfl
  | .bread _ _ | .brelse _ _ | .logWrite _ _ | .update _ | .modify _ _ _
  | .bwrite _ _ | .beginOp _ | .endOp _ | .acquiresleep _ | .load _
  | .release _ | .op _ =>
      decidable_of_iff (Disciplined s.state s.shadow _)
        ⟨fun h => ⟨h, by simp⟩, fun h => h.1⟩

/-- A machine after `initlog`, with an empty disk. -/
def Traced.zero (P : Type*) : Traced P where
  state := State.zero P
  shadow := ⟨fun _ => fun _ => 0, fun _ => false⟩
  written := fun _ => fun _ => 0
  asked := fun _ => ⟨0, 0⟩

theorem Traced.zero_initial {P : Type*} : (Traced.zero P).Initial where
  booted := State.zero_booted
  store _ := rfl
  touched _ := rfl
  written _ := rfl

/-- The other process changes block 40 with `bwrite`. -/
def bwrites {P : Type} (p : P) (data : Block) : List (Act P) :=
  breads p ⟨1, 40⟩ ++
    [.modify p 0 data, .bwrite p 0, .brelse p 0, .release p]

/-- The first byte that the pending `bread` of process 1 returns, and the one
last written. -/
def lastByte (t : Traced (Fin 2)) : Option (BitVec 8 × BitVec 8) :=
  match t.state.cache.call 1, t.step (.load 1) with
  | .loading i, .next u =>
      some ((u.state.cache.buf i).data ⟨0, BSIZE_pos⟩,
        t.written (t.asked 1) ⟨0, BSIZE_pos⟩)
  | _, _ => none

instance {P : Type*} (s : State P) : ∀ a, Decidable (Protected s a)
  | .modify _ _ _ =>
      have : ∀ log b, Decidable (Outside log b) :=
        fun _ _ => inferInstanceAs (Decidable (_ ∨ _))
      inferInstanceAs (Decidable (_ → _))
  | .bread _ _ | .brelse _ _ | .logWrite _ _ | .update _ | .bwrite _ _
  | .beginOp _ | .endOp _ | .acquiresleep _ | .load _ | .release _ | .op _
  | .crash _ => .isTrue trivial

instance {P : Type*} [DecidableEq P] (s : Traced P) (a : Act P) :
    Decidable (Permitted s a) :=
  inferInstanceAs (Decidable (_ ∧ _))

/-- A `bread` while the block is on its way to the log. -/
theorem bread_returns_written_duringCommit :
    ∃ t u i, Run Traced.step (Traced.zero (Fin 2))
        (oneOperation 0 (fun _ => 1) ++ opLog 0 ++
          [.bread 1 ⟨1, 40⟩, .acquiresleep 1]) t ∧
      t.step (.load 1) = .next u ∧
      (u.state.cache.buf i).data = t.written (t.asked 1) ∧
      (u.state.cache.buf i).data ⟨0, by decide⟩ = 1 := by
  obtain ⟨t, hrun, ht⟩ := Run.exists_of_exec Traced.step
    (Traced.zero (Fin 2)) (oneOperation 0 (fun _ => 1) ++ opLog 0 ++
      [.bread 1 ⟨1, 40⟩, .acquiresleep 1])
    (fun t => lastByte t = some (1, 1)) (by decide +kernel)
  have ht : lastByte t = some (1, 1) := by simpa using ht
  unfold lastByte at ht
  split at ht
  · next i u hcall hload =>
      have hsame := (bread_returns_written Traced.zero_initial
        (by decide +kernel) hrun hcall hload).2.2
      simp only [Option.some.injEq, Prod.mk.injEq] at ht
      exact ⟨t, u, i, hrun, hload, hsame, ht.1⟩
  · cases ht

/-- A `bwrite` during the commit of the same block, and a `bread` after it. -/
def lostWrite : List (Act (Fin 2)) :=
  oneOperation 0 (fun _ => 1) ++ opLog 0 ++ bwrites 1 (fun _ => 2) ++
    opCopy 0 ++ [.bread 1 ⟨1, 40⟩, .acquiresleep 1]

/-- A process that writes a block with `bwrite` while a commit of that block
is running loses its change: `install_trans` puts the logged contents back. -/
theorem bread_not_always_written :
    ¬ ∀ (s t u : Traced (Fin 2)) (w : List (Act (Fin 2))) (p : Fin 2)
        (i : Fin NBUF), s.Initial → Meets Traced.step Stated s w →
        Run Traced.step s w t → t.state.cache.call p = .loading i →
        t.step (.load p) = .next u →
        (u.state.cache.buf i).data = t.written (t.asked p) := by
  intro hclaim
  have hstated : Meets Traced.step Stated (Traced.zero (Fin 2)) lostWrite := by
    decide +kernel
  obtain ⟨t, hrun, ht⟩ := Run.exists_of_exec Traced.step
    (Traced.zero (Fin 2)) lostWrite (fun t => lastByte t = some (1, 2))
    (by decide +kernel)
  have ht : lastByte t = some (1, 2) := by simpa using ht
  unfold lastByte at ht
  split at ht
  · next i u hcall hload =>
      have hsame := hclaim _ t u lostWrite 1 i Traced.zero_initial hstated
        hrun hcall hload
      rw [hsame] at ht
      simp only [Option.some.injEq, Prod.mk.injEq] at ht
      exact absurd (ht.1.symm.trans ht.2) (by decide)
  · cases ht

end ZtlOs.Transactions
