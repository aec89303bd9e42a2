import ZtlOs.Support.Runs
import ZtlOs.Fs.Format
import Mathlib.Data.Fintype.Card
import Mathlib.Data.Fintype.Pi
import Mathlib.Algebra.BigOperators.Group.Finset.Piecewise

/-!
# The log as a state machine

The control part of `log.c`: admission by `begin_op`, the two halves of
`log_write`, `end_op`, and the phases of `commit` and of recovery.  Every
critical section of `log.lock` is one step.  The block transfers of a phase
are left to the buffer cache; a phase here is over when they are.
-/

namespace ZtlOs.Logging

open ZtlOs.Support ZtlOs.Fs

/-- `struct log`.  The block numbers in use of its `struct logheader` are
`lh`, so that `log.lh.n` is the length of `lh`. -/
structure Log where
  start : ℕ
  size : ℕ
  dev : ℕ
  outstanding : ℕ
  committing : Bool
  lh : List ℕ
  deriving DecidableEq

/-- The points of `commit` and `recover_from_log` between block transfers.
The loops of `write_log` and `install_trans` carry their counter `tail`. -/
inductive Phase where
  | readHead
  | commit
  | writeLog (tail : ℕ)
  | writeHead
  | installTrans (tail : ℕ)
  | clear
  | eraseHead
  | finish
  deriving DecidableEq

/-- Where a process stands with respect to the log. -/
inductive Pc where
  | outside
  /-- Asleep on `&log` in `begin_op`. -/
  | asleep
  /-- Woken up in `begin_op`, about to test again. -/
  | woken
  /-- Between the return of `begin_op` and the call of `end_op`. -/
  | inside
  /-- In `log_write`, past its size test and before `acquire`. -/
  | logWrite (blockno : ℕ)
  | committing (phase : Phase)
  | recovering (phase : Phase)
  deriving DecidableEq

structure State (P : Type*) where
  log : Log
  booted : Bool
  pc : P → Pc

/-- The steps of the processes.  A `readHead` step carries the block numbers
that `read_head` finds in the header on disk. -/
inductive Act (P : Type*) where
  | beginOp (p : P)
  | logWrite (p : P) (blockno : ℕ)
  | update (p : P)
  | endOp (p : P)
  | readHead (p : P) (header : List ℕ)
  | phase (p : P)
  deriving DecidableEq

/-- The absorption loop of `log_write`. -/
def absorb (lh : List ℕ) (blockno : ℕ) : List ℕ :=
  let i := lh.idxOf blockno
  if i = lh.length then lh ++ [blockno] else lh.set i blockno

def wakeup {P : Type*} (pc : P → Pc) (p : P) : Pc :=
  if pc p = .asleep then .woken else pc p

/-- What one phase does to the log, and the phase that follows it. -/
def Log.advance (log : Log) : Phase → Log × Phase
  | .readHead => (log, .installTrans 0)
  | .commit => (log, if log.lh.length > 0 then .writeLog 0 else .finish)
  | .writeLog tail =>
      (log, if tail < log.lh.length then .writeLog (tail + 1) else .writeHead)
  | .writeHead => (log, .installTrans 0)
  | .installTrans tail =>
      (log, if tail < log.lh.length then .installTrans (tail + 1) else .clear)
  | .clear => ({ log with lh := [] }, .eraseHead)
  | .eraseHead => (log, .finish)
  | .finish => (log, .finish)

section Step

variable {P : Type*} [DecidableEq P]

def State.setPc (s : State P) (p : P) (pc : Pc) : State P :=
  { s with pc := Function.update s.pc p pc }

/-- One turn of the loop in `begin_op`. -/
def State.beginOp (s : State P) (p : P) : State P :=
  if s.log.committing then
    s.setPc p .asleep
  else if s.log.lh.length + (s.log.outstanding + 1) * MAXOPBLOCKS >
      LOGSIZE then
    s.setPc p .asleep
  else
    { s.setPc p .inside with
      log := { s.log with outstanding := s.log.outstanding + 1 } }

/-- The tests of `log_write`, which are made without the lock. -/
def State.logWrite (s : State P) (p : P) (blockno : ℕ) :
    Outcome (State P) :=
  if s.log.lh.length ≥ LOGSIZE ∨ s.log.lh.length ≥ s.log.size - 1 then
    .panic "too big a transaction"
  else if s.log.outstanding < 1 then
    .panic "log_write outside of trans"
  else
    .next (s.setPc p (.logWrite blockno))

/-- The critical section of `log_write`. -/
def State.update (s : State P) (p : P) (blockno : ℕ) : State P :=
  { s.setPc p .inside with
    log := { s.log with lh := absorb s.log.lh blockno } }

/-- The first critical section of `end_op`. -/
def State.endOp (s : State P) (p : P) : Outcome (State P) :=
  let outstanding := s.log.outstanding - 1
  if s.log.committing then
    .panic "log.committing"
  else if outstanding = 0 then
    .next { s.setPc p (.committing .commit) with
      log := { s.log with outstanding := outstanding, committing := true } }
  else
    .next { s with
      log := { s.log with outstanding := outstanding }
      pc := Function.update (wakeup s.pc) p .outside }

/-- The last critical section of `end_op`. -/
def State.endCommit (s : State P) (p : P) : State P :=
  { s with
    log := { s.log with committing := false }
    pc := Function.update (wakeup s.pc) p .outside }

def step (s : State P) : Act P → Outcome (State P)
  | .beginOp p =>
      if s.booted = true ∧ (s.pc p = .outside ∨ s.pc p = .woken) then
        .next (s.beginOp p)
      else .blocked
  | .logWrite p blockno =>
      if s.pc p = .inside then s.logWrite p blockno else .blocked
  | .update p =>
      match s.pc p with
      | .logWrite blockno => .next (s.update p blockno)
      | _ => .blocked
  | .endOp p => if s.pc p = .inside then s.endOp p else .blocked
  | .readHead p header =>
      if s.pc p = .recovering .readHead then
        .next { s with log := { s.log with lh := header } }
      else .blocked
  | .phase p =>
      match s.pc p with
      | .committing .finish => .next (s.endCommit p)
      | .committing phase =>
          let (log, next) := s.log.advance phase
          .next { s.setPc p (.committing next) with log := log }
      | .recovering .finish =>
          .next { s.setPc p .outside with booted := true }
      | .recovering phase =>
          let (log, next) := s.log.advance phase
          .next { s.setPc p (.recovering next) with log := log }
      | _ => .blocked

end Step

/-! ## Absorption -/

section Absorb

variable {lh : List ℕ} {blockno : ℕ}

theorem absorb_of_mem (h : blockno ∈ lh) : absorb lh blockno = lh := by
  have hlt : lh.idxOf blockno < lh.length := List.idxOf_lt_length_of_mem h
  calc absorb lh blockno
      = lh.set (lh.idxOf blockno) lh[lh.idxOf blockno] := by
        simp only [absorb, hlt.ne, if_false, List.getElem_idxOf]
    _ = lh := List.set_getElem_self hlt

theorem absorb_of_not_mem (h : blockno ∉ lh) :
    absorb lh blockno = lh ++ [blockno] := by
  simp [absorb, List.idxOf_eq_length h]

theorem mem_absorb {b : ℕ} : b ∈ absorb lh blockno ↔ b ∈ lh ∨ b = blockno := by
  by_cases h : blockno ∈ lh
  · rw [absorb_of_mem h]
    constructor
    · exact Or.inl
    · rintro (hb | rfl)
      · exact hb
      · exact h
  · simp [absorb_of_not_mem h]

theorem nodup_absorb (h : lh.Nodup) : (absorb lh blockno).Nodup := by
  by_cases hb : blockno ∈ lh
  · rwa [absorb_of_mem hb]
  · rw [absorb_of_not_mem hb]
    exact h.append (List.nodup_singleton _) (by simpa using hb)

end Absorb

/-! ## Processes inside an operation -/

def Pc.isActive : Pc → Bool
  | .inside | .logWrite _ => true
  | _ => false

/-- The processes between their `begin_op` and their `end_op`. -/
def active {P : Type*} [Fintype P] (pc : P → Pc) : Finset P :=
  Finset.univ.filter fun p => (pc p).isActive = true

section Active

variable {P : Type*} {pc : P → Pc} {p : P} {v : Pc}

theorem wakeup_eq_iff (hs : v ≠ .asleep) (hw : v ≠ .woken) :
    wakeup pc p = v ↔ pc p = v := by
  unfold wakeup
  split
  · next h =>
      rw [h]
      exact ⟨fun e => absurd e.symm hw, fun e => absurd e.symm hs⟩
  · rfl

variable [Fintype P]

theorem mem_active : p ∈ active pc ↔ (pc p).isActive = true := by
  simp [active]

theorem active_wakeup : active (wakeup pc) = active pc := by
  ext p
  simp only [mem_active, wakeup]
  split
  · next h => simp [h, Pc.isActive]
  · rfl

variable [DecidableEq P]

theorem active_update_of_active (hv : v.isActive = true) :
    active (Function.update pc p v) = insert p (active pc) := by
  ext q
  by_cases hq : q = p
  · subst hq
    simp [mem_active, hv]
  · simp [mem_active, hq]

theorem active_update_of_not_active (hv : v.isActive = false) :
    active (Function.update pc p v) = (active pc).erase p := by
  ext q
  by_cases hq : q = p
  · subst hq
    simp [mem_active, hv]
  · simp [mem_active, hq]

end Active

/-! ## The invariant -/

def Phase.inCommit : Phase → Bool
  | .readHead => false
  | _ => true

def Phase.inRecovery : Phase → Bool
  | .commit | .writeLog _ | .writeHead => false
  | _ => true

/-- What holds in every state that the processes reach. -/
structure Inv {P : Type*} [Fintype P] (s : State P) : Prop where
  outstanding_eq : s.log.outstanding = (active s.pc).card
  outstanding_eq_zero : s.log.committing = true → s.log.outstanding = 0
  committing_of_pc : ∀ p phase, s.pc p = .committing phase →
    s.log.committing = true
  exists_pc_of_committing : s.log.committing = true →
    ∃ p phase, s.pc p = .committing phase
  committing_unique : ∀ p q phase phase', s.pc p = .committing phase →
    s.pc q = .committing phase' → p = q
  not_booted_of_pc : ∀ p phase, s.pc p = .recovering phase →
    s.booted = false
  outside_of_recovering : ∀ p q phase, s.pc p = .recovering phase → q ≠ p →
    s.pc q = .outside
  recovering_of_not_booted : s.booted = false →
    ∃ p phase, s.pc p = .recovering phase
  inCommit : ∀ p phase, s.pc p = .committing phase → phase.inCommit = true
  inRecovery : ∀ p phase, s.pc p = .recovering phase →
    phase.inRecovery = true
  nodup : s.booted = true → s.log.lh.Nodup
  cleared : ∀ p phase, s.pc p = .committing phase ∨ s.pc p = .recovering phase →
    phase = .eraseHead ∨ phase = .finish → s.log.lh = []
  idle : s.booted = true → s.log.outstanding = 0 →
    s.log.committing = false → s.log.lh = []

/-- `v` is a point outside of `commit` and of recovery. -/
def Pc.isCall : Pc → Bool
  | .committing _ | .recovering _ => false
  | _ => true

section Preservation

variable {P : Type*} {s t : State P} {p : P}

section

variable [DecidableEq P]

theorem update_eq_committing_iff {pc : P → Pc} {v : Pc}
    (hold : (pc p).isCall = true) (hnew : v.isCall = true) (q : P)
    (phase : Phase) :
    Function.update pc p v q = .committing phase ↔
      pc q = .committing phase := by
  by_cases hq : q = p
  · subst hq
    rw [Function.update_self]
    constructor
    · intro e
      simp [e, Pc.isCall] at hnew
    · intro e
      simp [e, Pc.isCall] at hold
  · rw [Function.update_of_ne hq]

theorem update_eq_recovering {pc : P → Pc} {v : Pc}
    (hnew : v.isCall = true) (q : P) (phase : Phase)
    (h : Function.update pc p v q = .recovering phase) :
    pc q = .recovering phase := by
  by_cases hq : q = p
  · subst hq
    rw [Function.update_self] at h
    simp [h, Pc.isCall] at hnew
  · rwa [Function.update_of_ne hq] at h

end

variable [Fintype P]

/-- The part of the invariant that speaks of the points in `commit` and in
recovery carries over to a state that agrees on them. -/
theorem Inv.of_same_phases (h : Inv s) (hs : s.booted = true)
    (hbooted : t.booted = true)
    (hcommitting : ∀ p phase,
      t.pc p = .committing phase ↔ s.pc p = .committing phase)
    (hrecovering : ∀ p phase,
      t.pc p = .recovering phase → s.pc p = .recovering phase)
    (hlock : t.log.committing = s.log.committing)
    (hout : t.log.outstanding = (active t.pc).card)
    (hzero : s.log.committing = true → t.log.outstanding = 0)
    (hlh : s.log.committing = true → t.log.lh = s.log.lh)
    (hnodup : t.log.lh.Nodup)
    (hidle : t.log.outstanding = 0 → t.log.committing = false →
      t.log.lh = []) : Inv t where
  outstanding_eq := hout
  outstanding_eq_zero := fun hc => hzero (hlock ▸ hc)
  committing_of_pc p phase hp :=
    hlock ▸ h.committing_of_pc p phase ((hcommitting p phase).mp hp)
  exists_pc_of_committing hc := by
    obtain ⟨p, phase, hp⟩ := h.exists_pc_of_committing (hlock ▸ hc)
    exact ⟨p, phase, (hcommitting p phase).mpr hp⟩
  committing_unique p q phase phase' hp hq :=
    h.committing_unique p q phase phase' ((hcommitting p phase).mp hp)
      ((hcommitting q phase').mp hq)
  not_booted_of_pc p phase hp := by
    have := h.not_booted_of_pc p phase (hrecovering p phase hp)
    simp [hs] at this
  outside_of_recovering p q phase hp _ := by
    have := h.not_booted_of_pc p phase (hrecovering p phase hp)
    simp [hs] at this
  recovering_of_not_booted hf := by simp [hbooted] at hf
  inCommit p phase hp := h.inCommit p phase ((hcommitting p phase).mp hp)
  inRecovery p phase hp := h.inRecovery p phase (hrecovering p phase hp)
  nodup _ := hnodup
  cleared p phase hp hphase := by
    rcases hp with hp | hp
    · have hp := (hcommitting p phase).mp hp
      rw [hlh (h.committing_of_pc p phase hp)]
      exact h.cleared p phase (.inl hp) hphase
    · have := h.not_booted_of_pc p phase (hrecovering p phase hp)
      simp [hs] at this
  idle _ := hidle

theorem Inv.outstanding_pos (h : Inv s) (hp : (s.pc p).isActive = true) :
    0 < s.log.outstanding := by
  rw [h.outstanding_eq]
  exact Finset.card_pos.mpr ⟨p, mem_active.mpr hp⟩

theorem Inv.not_committing (h : Inv s) (hp : (s.pc p).isActive = true) :
    s.log.committing = false := by
  by_contra hc
  have hzero := h.outstanding_eq_zero (by simpa using hc)
  have hpos := h.outstanding_pos hp
  omega

theorem isCall_of_isActive {v : Pc} (h : v.isActive = true) :
    v.isCall = true := by
  cases v <;> simp_all [Pc.isActive, Pc.isCall]

theorem Inv.booted_of_ne_outside (h : Inv s) (hp : s.pc p ≠ .outside)
    (hr : ∀ phase, s.pc p ≠ .recovering phase) : s.booted = true := by
  by_contra hb
  obtain ⟨q, phase, hq⟩ := h.recovering_of_not_booted (by simpa using hb)
  by_cases hpq : p = q
  · subst hpq
    exact hr phase hq
  · exact hp (h.outside_of_recovering q p phase hq hpq)

theorem Inv.booted_of_isActive (h : Inv s) (hp : (s.pc p).isActive = true) :
    s.booted = true := by
  refine h.booted_of_ne_outside (p := p) ?_ ?_
  · intro e
    simp [e, Pc.isActive] at hp
  · intro phase e
    simp [e, Pc.isActive] at hp

variable [DecidableEq P]

theorem Inv.beginOp (h : Inv s) (hs : s.booted = true)
    (hp : s.pc p = .outside ∨ s.pc p = .woken) : Inv (s.beginOp p) := by
  have hcall : (s.pc p).isCall = true := by
    rcases hp with hp | hp <;> simp [hp, Pc.isCall]
  have hactive : (s.pc p).isActive = false := by
    rcases hp with hp | hp <;> simp [hp, Pc.isActive]
  have hmem : p ∉ active s.pc := by simp [mem_active, hactive]
  have hasleep : Inv (s.setPc p .asleep) := by
    refine h.of_same_phases hs hs
      (update_eq_committing_iff hcall rfl) (update_eq_recovering rfl) rfl ?_
      h.outstanding_eq_zero (fun _ => rfl) (h.nodup hs) (h.idle hs)
    simp only [State.setPc, active_update_of_not_active (v := .asleep) rfl,
      Finset.erase_eq_of_notMem hmem]
    exact h.outstanding_eq
  unfold State.beginOp
  split_ifs with hc hfull
  · exact hasleep
  · exact hasleep
  · refine h.of_same_phases hs hs
      (update_eq_committing_iff hcall rfl) (update_eq_recovering rfl) rfl ?_
      (fun e => absurd e hc) (fun _ => rfl) (h.nodup hs) ?_
    · simp only [State.setPc, active_update_of_active (v := .inside) rfl,
        Finset.card_insert_of_notMem hmem, h.outstanding_eq]
    · intro e
      exact absurd e (Nat.succ_ne_zero _)

theorem Inv.setPc_of_isActive (h : Inv s) (hp : (s.pc p).isActive = true)
    {v : Pc} (hv : v.isActive = true) {lh : List ℕ} (hlh : lh.Nodup) :
    Inv { s.setPc p v with log := { s.log with lh := lh } } := by
  have hs := h.booted_of_isActive hp
  have hc := h.not_committing hp
  refine h.of_same_phases hs hs
    (update_eq_committing_iff (isCall_of_isActive hp) (isCall_of_isActive hv))
    (update_eq_recovering (isCall_of_isActive hv)) rfl ?_ ?_ ?_ hlh ?_
  · simp only [State.setPc, active_update_of_active hv,
      Finset.insert_eq_of_mem (mem_active.mpr hp), h.outstanding_eq]
  · simp [hc]
  · simp [hc]
  · intro e
    exact absurd e (h.outstanding_pos hp).ne'

theorem Inv.logWrite (h : Inv s) (hp : s.pc p = .inside) {blockno : ℕ}
    (ht : s.logWrite p blockno = .next t) : Inv t := by
  have hactive : (s.pc p).isActive = true := by simp [hp, Pc.isActive]
  unfold State.logWrite at ht
  split_ifs at ht
  cases ht
  exact h.setPc_of_isActive hactive rfl
    (h.nodup (h.booted_of_isActive hactive))

theorem Inv.update (h : Inv s) {blockno : ℕ}
    (hp : s.pc p = .logWrite blockno) : Inv (s.update p blockno) := by
  have hactive : (s.pc p).isActive = true := by simp [hp, Pc.isActive]
  exact h.setPc_of_isActive hactive rfl
    (nodup_absorb (h.nodup (h.booted_of_isActive hactive)))

theorem Inv.endOp (h : Inv s) (hp : s.pc p = .inside)
    (ht : s.endOp p = .next t) : Inv t := by
  have hactive : (s.pc p).isActive = true := by simp [hp, Pc.isActive]
  have hs := h.booted_of_isActive hactive
  have hc := h.not_committing hactive
  have hmem : p ∈ active s.pc := mem_active.mpr hactive
  have hcard := Finset.card_erase_of_mem hmem
  have hno : ∀ q phase, s.pc q ≠ .committing phase := by
    intro q phase hq
    simp [h.committing_of_pc q phase hq] at hc
  have hnr : ∀ q phase, s.pc q ≠ .recovering phase := by
    intro q phase hq
    simp [h.not_booted_of_pc q phase hq] at hs
  unfold State.endOp at ht
  simp only [hc, Bool.false_eq_true, if_false] at ht
  split_ifs at ht with hlast
  · -- The last operation out starts the commit.
    cases ht
    have hpc : ∀ q phase, Function.update s.pc p (.committing .commit) q =
        .committing phase → q = p ∧ phase = .commit := by
      intro q phase hq
      by_cases hqp : q = p
      · subst hqp
        rw [Function.update_self] at hq
        cases hq
        exact ⟨rfl, rfl⟩
      · rw [Function.update_of_ne hqp] at hq
        exact absurd hq (hno q phase)
    have hrec : ∀ q phase, Function.update s.pc p (.committing .commit) q ≠
        .recovering phase := by
      intro q phase hq
      by_cases hqp : q = p
      · subst hqp
        simp at hq
      · rw [Function.update_of_ne hqp] at hq
        exact hnr q phase hq
    refine
      { outstanding_eq := ?_
        outstanding_eq_zero := fun _ => hlast
        committing_of_pc := fun _ _ _ => rfl
        exists_pc_of_committing := fun _ =>
          ⟨p, .commit, Function.update_self ..⟩
        committing_unique := fun q r _ _ hq hr =>
          (hpc q _ hq).1.trans (hpc r _ hr).1.symm
        not_booted_of_pc := fun q phase hq => absurd hq (hrec q phase)
        outside_of_recovering := fun q _ phase hq => absurd hq (hrec q phase)
        recovering_of_not_booted := fun e => by simp [State.setPc, hs] at e
        inCommit := fun q phase hq => (hpc q phase hq).2 ▸ rfl
        inRecovery := fun q phase hq => absurd hq (hrec q phase)
        nodup := fun _ => h.nodup hs
        cleared := ?_
        idle := fun _ _ e => nomatch e }
    · simp only [State.setPc,
        active_update_of_not_active (v := .committing .commit) rfl, hcard,
        h.outstanding_eq]
    · rintro q phase (hq | hq) hphase
      · rw [(hpc q phase hq).2] at hphase
        simp at hphase
      · exact absurd hq (hrec q phase)
  · cases ht
    refine h.of_same_phases hs hs ?_ ?_ hc.symm ?_ (by simp [hc])
      (by simp [hc]) (h.nodup hs) (fun e => absurd e hlast)
    · intro q phase
      rw [update_eq_committing_iff (by simp [wakeup, hp, Pc.isCall]) rfl,
        wakeup_eq_iff (by simp) (by simp)]
    · intro q phase hq
      exact (wakeup_eq_iff (by simp) (by simp)).mp
        (update_eq_recovering rfl q phase hq)
    · simp only [active_update_of_not_active (v := .outside) rfl,
        active_wakeup, hcard, h.outstanding_eq]

theorem Inv.endCommit (h : Inv s) (hp : s.pc p = .committing .finish) :
    Inv (s.endCommit p) := by
  have hs : s.booted = true :=
    h.booted_of_ne_outside (p := p) (by simp [hp]) (by simp [hp])
  have hc := h.committing_of_pc p _ hp
  have hmem : p ∉ active s.pc := by simp [mem_active, hp, Pc.isActive]
  have hno : ∀ q phase, Function.update (wakeup s.pc) p .outside q ≠
      .committing phase := by
    intro q phase hq
    by_cases hqp : q = p
    · subst hqp
      simp at hq
    · rw [Function.update_of_ne hqp,
        wakeup_eq_iff (by simp) (by simp)] at hq
      exact hqp (h.committing_unique q p _ _ hq hp)
  have hnr : ∀ q phase, Function.update (wakeup s.pc) p .outside q ≠
      .recovering phase := by
    intro q phase hq
    have hq := update_eq_recovering rfl q phase hq
    rw [wakeup_eq_iff (by simp) (by simp)] at hq
    simp [h.not_booted_of_pc q phase hq] at hs
  exact
    { outstanding_eq := by
        simp only [State.endCommit,
          active_update_of_not_active (v := .outside) rfl, active_wakeup,
          Finset.erase_eq_of_notMem hmem, h.outstanding_eq]
      outstanding_eq_zero := fun e => nomatch e
      committing_of_pc := fun q phase hq => absurd hq (hno q phase)
      exists_pc_of_committing := fun e => nomatch e
      committing_unique := fun q _ phase _ hq => absurd hq (hno q phase)
      not_booted_of_pc := fun q phase hq => absurd hq (hnr q phase)
      outside_of_recovering := fun q _ phase hq => absurd hq (hnr q phase)
      recovering_of_not_booted := fun e => by
        simp [State.endCommit, hs] at e
      inCommit := fun q phase hq => absurd hq (hno q phase)
      inRecovery := fun q phase hq => absurd hq (hnr q phase)
      nodup := fun _ => h.nodup hs
      cleared := fun q phase hq => by
        rcases hq with hq | hq
        · exact absurd hq (hno q phase)
        · exact absurd hq (hnr q phase)
      idle := fun _ _ _ => h.cleared p _ (.inl hp) (.inr rfl) }

section Advance

variable {log : Log} {phase : Phase}

@[simp]
theorem advance_outstanding :
    (log.advance phase).1.outstanding = log.outstanding := by
  cases phase <;> rfl

@[simp]
theorem advance_committing :
    (log.advance phase).1.committing = log.committing := by
  cases phase <;> rfl

theorem advance_inCommit : (log.advance phase).2.inCommit = true := by
  cases phase <;> simp only [Log.advance]
  all_goals try split_ifs
  all_goals rfl

theorem advance_inRecovery (h : phase.inRecovery = true) :
    (log.advance phase).2.inRecovery = true := by
  cases phase <;> simp only [Log.advance, Phase.inRecovery,
    Bool.false_eq_true] at h ⊢
  all_goals try split_ifs
  all_goals rfl

theorem advance_nodup (h : log.lh.Nodup) :
    (log.advance phase).1.lh.Nodup := by
  cases phase with
  | clear => exact List.nodup_nil
  | _ => exact h

/-- The log is empty wherever the phases after the `n = 0` of `commit` and of
recovery begin. -/
theorem advance_cleared
    (hcleared : phase = .eraseHead ∨ phase = .finish → log.lh = [])
    (hnext : (log.advance phase).2 = .eraseHead ∨
      (log.advance phase).2 = .finish) :
    (log.advance phase).1.lh = [] := by
  cases phase with
  | clear => rfl
  | eraseHead => exact hcleared (.inl rfl)
  | finish => exact hcleared (.inr rfl)
  | commit =>
      simp only [Log.advance] at hnext ⊢
      split_ifs at hnext with hn
      · simp at hnext
      · exact List.eq_nil_of_length_eq_zero (by omega)
  | readHead => simp [Log.advance] at hnext
  | writeHead => simp [Log.advance] at hnext
  | writeLog tail =>
      simp only [Log.advance] at hnext
      split_ifs at hnext <;> simp at hnext
  | installTrans tail =>
      simp only [Log.advance] at hnext
      split_ifs at hnext <;> simp at hnext

end Advance

theorem Inv.commitPhase (h : Inv s) {phase : Phase}
    (hp : s.pc p = .committing phase) :
    Inv { s.setPc p (.committing (s.log.advance phase).2) with
      log := (s.log.advance phase).1 } := by
  have hs : s.booted = true :=
    h.booted_of_ne_outside (p := p) (by simp [hp]) (by simp [hp])
  have hc := h.committing_of_pc p _ hp
  have hmem : p ∉ active s.pc := by simp [mem_active, hp, Pc.isActive]
  have hself : ∀ {v}, Function.update s.pc p v p = v :=
    Function.update_self ..
  have hpc : ∀ q phase', Function.update s.pc p
      (.committing (s.log.advance phase).2) q = .committing phase' →
      q = p := by
    intro q phase' hq
    by_contra hqp
    rw [Function.update_of_ne hqp] at hq
    exact hqp (h.committing_unique q p _ _ hq hp)
  have hnr : ∀ q phase', Function.update s.pc p
      (.committing (s.log.advance phase).2) q ≠
      .recovering phase' := by
    intro q phase' hq
    by_cases hqp : q = p
    · subst hqp
      simp at hq
    · rw [Function.update_of_ne hqp] at hq
      simp [h.not_booted_of_pc q phase' hq] at hs
  exact
    { outstanding_eq := by
        simp only [State.setPc, advance_outstanding,
          active_update_of_not_active (v := .committing _) rfl,
          Finset.erase_eq_of_notMem hmem, h.outstanding_eq]
      outstanding_eq_zero := fun _ => by
        simpa using h.outstanding_eq_zero hc
      committing_of_pc := fun _ _ _ => by simpa using hc
      exists_pc_of_committing := fun _ => ⟨p, _, hself⟩
      committing_unique := fun q r _ _ hq hr =>
        (hpc q _ hq).trans (hpc r _ hr).symm
      not_booted_of_pc := fun q phase' hq => absurd hq (hnr q phase')
      outside_of_recovering := fun q _ phase' hq => absurd hq (hnr q phase')
      recovering_of_not_booted := fun e => by simp [State.setPc, hs] at e
      inCommit := fun q phase' hq => by
        have hqp := hpc q _ hq
        subst hqp
        rw [← Pc.committing.inj (hself.symm.trans hq)]
        exact advance_inCommit
      inRecovery := fun q phase' hq => absurd hq (hnr q phase')
      nodup := fun _ => advance_nodup (h.nodup hs)
      cleared := fun q phase' hq hphase' => by
        rcases hq with hq | hq
        · have hqp := hpc q _ hq
          subst hqp
          rw [← Pc.committing.inj (hself.symm.trans hq)] at hphase'
          exact advance_cleared (h.cleared q phase (.inl hp)) hphase'
        · exact absurd hq (hnr q phase')
      idle := fun _ _ e => by simp [hc] at e }

theorem Inv.recoverPhase (h : Inv s) {phase : Phase}
    (hp : s.pc p = .recovering phase) :
    Inv { s.setPc p (.recovering (s.log.advance phase).2) with
      log := (s.log.advance phase).1 } := by
  have hb := h.not_booted_of_pc p _ hp
  have hmem : p ∉ active s.pc := by simp [mem_active, hp, Pc.isActive]
  have hself : ∀ {v}, Function.update s.pc p v p = v :=
    Function.update_self ..
  have hother : ∀ q, q ≠ p → Function.update s.pc p
      (.recovering (s.log.advance phase).2) q = .outside := by
    intro q hqp
    rw [Function.update_of_ne hqp]
    exact h.outside_of_recovering p q _ hp hqp
  have hno : ∀ q phase', Function.update s.pc p
      (.recovering (s.log.advance phase).2) q ≠
      .committing phase' := by
    intro q phase' hq
    by_cases hqp : q = p
    · subst hqp
      simp at hq
    · simp [hother q hqp] at hq
  have hpc : ∀ q phase', Function.update s.pc p
      (.recovering (s.log.advance phase).2) q = .recovering phase' →
      q = p := by
    intro q phase' hq
    by_contra hqp
    simp [hother q hqp] at hq
  have hc : s.log.committing = false := by
    by_contra hc
    obtain ⟨q, phase', hq⟩ := h.exists_pc_of_committing (by simpa using hc)
    by_cases hqp : q = p
    · subst hqp
      simp [hp] at hq
    · simp [h.outside_of_recovering p q _ hp hqp] at hq
  exact
    { outstanding_eq := by
        simp only [State.setPc, advance_outstanding,
          active_update_of_not_active (v := .recovering _) rfl,
          Finset.erase_eq_of_notMem hmem, h.outstanding_eq]
      outstanding_eq_zero := fun e => by simp [hc] at e
      committing_of_pc := fun q phase' hq => absurd hq (hno q phase')
      exists_pc_of_committing := fun e => by simp [hc] at e
      committing_unique := fun q _ phase' _ hq => absurd hq (hno q phase')
      not_booted_of_pc := fun _ _ _ => hb
      outside_of_recovering := fun q r phase' hq hr => by
        have hqp := hpc q _ hq
        subst hqp
        exact hother r hr
      recovering_of_not_booted := fun _ => ⟨p, _, hself⟩
      inCommit := fun q phase' hq => absurd hq (hno q phase')
      inRecovery := fun q phase' hq => by
        have hqp := hpc q _ hq
        subst hqp
        rw [← Pc.recovering.inj (hself.symm.trans hq)]
        exact advance_inRecovery (h.inRecovery q phase hp)
      nodup := fun e => by simp [State.setPc, hb] at e
      cleared := fun q phase' hq hphase' => by
        rcases hq with hq | hq
        · exact absurd hq (hno q phase')
        · have hqp := hpc q _ hq
          subst hqp
          rw [← Pc.recovering.inj (hself.symm.trans hq)] at hphase'
          exact advance_cleared (h.cleared q phase (.inr hp)) hphase'
      idle := fun e => by simp [State.setPc, hb] at e }

theorem Inv.readHead (h : Inv s) {header : List ℕ}
    (hp : s.pc p = .recovering .readHead) :
    Inv { s with log := { s.log with lh := header } } := by
  have hb := h.not_booted_of_pc p _ hp
  exact
    { h with
      nodup := fun e => by simp [hb] at e
      cleared := fun q phase hq hphase => by
        -- The only process in recovery is still reading the header.
        by_cases hqp : q = p
        · subst hqp
          simp only [hp, reduceCtorEq, false_or, Pc.recovering.injEq] at hq
          simp [← hq] at hphase
        · simp [h.outside_of_recovering p q _ hp hqp] at hq
      idle := fun e => by simp [hb] at e }

theorem Inv.endRecovery (h : Inv s) (hp : s.pc p = .recovering .finish) :
    Inv { s.setPc p .outside with booted := true } := by
  have hmem : p ∉ active s.pc := by simp [mem_active, hp, Pc.isActive]
  have hlh := h.cleared p _ (.inr hp) (.inr rfl)
  have hall : ∀ q, Function.update s.pc p .outside q = .outside := by
    intro q
    by_cases hqp : q = p
    · subst hqp
      exact Function.update_self ..
    · rw [Function.update_of_ne hqp]
      exact h.outside_of_recovering p q _ hp hqp
  have hc : s.log.committing = false := by
    by_contra hc
    obtain ⟨q, phase', hq⟩ := h.exists_pc_of_committing (by simpa using hc)
    by_cases hqp : q = p
    · subst hqp
      simp [hp] at hq
    · simp [h.outside_of_recovering p q _ hp hqp] at hq
  exact
    { outstanding_eq := by
        simp only [State.setPc,
          active_update_of_not_active (v := .outside) rfl,
          Finset.erase_eq_of_notMem hmem, h.outstanding_eq]
      outstanding_eq_zero := fun e => by simp [State.setPc, hc] at e
      committing_of_pc := fun q _ hq => by simp [State.setPc, hall q] at hq
      exists_pc_of_committing := fun e => by simp [State.setPc, hc] at e
      committing_unique := fun q _ _ _ hq => by
        simp [State.setPc, hall q] at hq
      not_booted_of_pc := fun q _ hq => by simp [State.setPc, hall q] at hq
      outside_of_recovering := fun q _ _ hq => by
        simp [State.setPc, hall q] at hq
      recovering_of_not_booted := fun e => nomatch e
      inCommit := fun q _ hq => by simp [State.setPc, hall q] at hq
      inRecovery := fun q _ hq => by simp [State.setPc, hall q] at hq
      nodup := fun _ => by simp [State.setPc, hlh]
      cleared := fun _ _ _ _ => hlh
      idle := fun _ _ _ => hlh }

/-- Every step keeps the invariant. -/
theorem Inv.step (h : Inv s) {a : Act P} (ht : step s a = .next t) :
    Inv t := by
  cases a with
  | beginOp p =>
      simp only [Logging.step] at ht
      split_ifs at ht with hp
      cases ht
      exact h.beginOp hp.1 hp.2
  | logWrite p blockno =>
      simp only [Logging.step] at ht
      split_ifs at ht with hp
      exact h.logWrite hp ht
  | update p =>
      simp only [Logging.step] at ht
      split at ht
      · next blockno hp =>
          cases ht
          exact h.update hp
      · cases ht
  | endOp p =>
      simp only [Logging.step] at ht
      split_ifs at ht with hp
      exact h.endOp hp ht
  | readHead p header =>
      simp only [Logging.step] at ht
      split_ifs at ht with hp
      cases ht
      exact h.readHead hp
  | phase p =>
      simp only [Logging.step] at ht
      split at ht
      · next hp =>
          cases ht
          exact h.endCommit hp
      · next hp =>
          cases ht
          exact h.commitPhase hp
      · next hp =>
          cases ht
          exact h.endRecovery hp
      · next hp =>
          cases ht
          exact h.recoverPhase hp
      · cases ht

end Preservation

/-! ## What a step leaves alone -/

section Frame

variable {P : Type*} [DecidableEq P] {s t : State P} {a : Act P}

/-- The place of the log on disk is fixed. -/
theorem step_area (ht : step s a = .next t) :
    t.log.start = s.log.start ∧ t.log.size = s.log.size ∧
      t.log.dev = s.log.dev := by
  have hadvance : ∀ phase,
      (s.log.advance phase).1.start = s.log.start ∧
        (s.log.advance phase).1.size = s.log.size ∧
        (s.log.advance phase).1.dev = s.log.dev := by
    intro phase
    cases phase <;> exact ⟨rfl, rfl, rfl⟩
  cases a with
  | beginOp p =>
      simp only [step] at ht
      split_ifs at ht
      cases ht
      unfold State.beginOp
      split_ifs <;> exact ⟨rfl, rfl, rfl⟩
  | logWrite p blockno =>
      simp only [step, State.logWrite] at ht
      split_ifs at ht
      cases ht
      exact ⟨rfl, rfl, rfl⟩
  | update p =>
      simp only [step] at ht
      split at ht <;> cases ht
      exact ⟨rfl, rfl, rfl⟩
  | endOp p =>
      simp only [step, State.endOp] at ht
      split_ifs at ht <;> cases ht <;> exact ⟨rfl, rfl, rfl⟩
  | readHead p header =>
      simp only [step] at ht
      split_ifs at ht
      cases ht
      exact ⟨rfl, rfl, rfl⟩
  | phase p =>
      simp only [step] at ht
      split at ht <;> cases ht
      · exact ⟨rfl, rfl, rfl⟩
      · exact hadvance ..
      · exact ⟨rfl, rfl, rfl⟩
      · exact hadvance ..

theorem step_booted (ht : step s a = .next t) (hs : s.booted = true) :
    t.booted = true := by
  cases a with
  | beginOp p =>
      simp only [step] at ht
      split_ifs at ht
      cases ht
      unfold State.beginOp
      split_ifs <;> exact hs
  | logWrite p blockno =>
      simp only [step, State.logWrite] at ht
      split_ifs at ht
      cases ht
      exact hs
  | update p =>
      simp only [step] at ht
      split at ht <;> cases ht
      exact hs
  | endOp p =>
      simp only [step, State.endOp] at ht
      split_ifs at ht <;> cases ht <;> exact hs
  | readHead p header =>
      simp only [step] at ht
      split_ifs at ht
      cases ht
      exact hs
  | phase p =>
      simp only [step] at ht
      split at ht <;> cases ht
      · exact hs
      · exact hs
      · rfl
      · exact hs

/-- A process leaves its operation by `end_op` only. -/
theorem isActive_of_step (ht : step s a = .next t) {q : P}
    (hq : (s.pc q).isActive = true) :
    (t.pc q).isActive = true ∨ a = .endOp q := by
  have hupdate : ∀ {pc : P → Pc} {p v}, (pc q).isActive = true →
      (q = p → v.isActive = true) →
      (Function.update pc p v q).isActive = true := by
    intro pc p v hpc hv
    by_cases hqp : q = p
    · subst hqp
      simpa using hv rfl
    · rwa [Function.update_of_ne hqp]
  have hwake : (wakeup s.pc q).isActive = true := by
    unfold wakeup
    split
    · next e => simp [e, Pc.isActive] at hq
    · exact hq
  have hne : ∀ {p v}, s.pc p = v → v.isActive = false → q ≠ p := by
    rintro p v hp hv rfl
    simp [hp, hv] at hq
  cases a with
  | beginOp p =>
      simp only [step] at ht
      split_ifs at ht with hp
      cases ht
      have hqp : q ≠ p := by
        rcases hp.2 with hp | hp
        · exact hne hp rfl
        · exact hne hp rfl
      left
      unfold State.beginOp
      split_ifs <;> exact hupdate hq fun e => absurd e hqp
  | logWrite p blockno =>
      simp only [step, State.logWrite] at ht
      split_ifs at ht
      cases ht
      exact .inl (hupdate hq fun _ => rfl)
  | update p =>
      simp only [step] at ht
      split at ht <;> cases ht
      exact .inl (hupdate hq fun _ => rfl)
  | endOp p =>
      by_cases hqp : q = p
      · exact .inr (hqp ▸ rfl)
      simp only [step, State.endOp] at ht
      split_ifs at ht <;> cases ht
      · exact .inl (hupdate hq fun e => absurd e hqp)
      · exact .inl (hupdate hwake fun e => absurd e hqp)
  | readHead p header =>
      simp only [step] at ht
      split_ifs at ht
      cases ht
      exact .inl hq
  | phase p =>
      simp only [step] at ht
      split at ht
      · next hp =>
          cases ht
          exact .inl (hupdate hwake fun e => absurd e (hne hp rfl))
      · next hp =>
          cases ht
          exact .inl (hupdate hq fun e => absurd e (hne hp rfl))
      · next hp =>
          cases ht
          exact .inl (hupdate hq fun e => absurd e (hne hp rfl))
      · next hp =>
          cases ht
          exact .inl (hupdate hq fun e => absurd e (hne hp rfl))
      · cases ht

end Frame

/-- The process that makes a step. -/
def Act.actor {P : Type*} : Act P → P
  | .beginOp p | .logWrite p _ | .update p | .endOp p | .readHead p _
  | .phase p => p

/-- The phase of `commit` or of recovery that a process is in. -/
def phaseOf : Pc → Option Phase
  | .committing phase | .recovering phase => some phase
  | _ => none

theorem pc_of_phaseOf {pc : Pc} {phase : Phase}
    (h : phaseOf pc = some phase) :
    pc = .committing phase ∨ pc = .recovering phase := by
  cases pc <;> simp_all [phaseOf]

theorem phaseOf_of_committing {pc : Pc} {phase : Phase}
    (h : pc = .committing phase) : phaseOf pc = some phase :=
  h ▸ rfl

section Frame

variable {P : Type*} [DecidableEq P] {s t : State P} {a : Act P}

/-- A step moves its own process, and may wake up others. -/
theorem step_pc (ht : step s a = .next t) {p : P} (hp : p ≠ a.actor) :
    t.pc p = s.pc p ∨ s.pc p = .asleep ∧ t.pc p = .woken := by
  have hwake : wakeup s.pc p = s.pc p ∨
      s.pc p = .asleep ∧ wakeup s.pc p = .woken := by
    unfold wakeup
    split_ifs with h
    · exact .inr ⟨h, rfl⟩
    · exact .inl rfl
  have hupdate : ∀ {v}, Function.update s.pc a.actor v p = s.pc p := by
    intro v
    exact Function.update_of_ne hp ..
  have hupdate' : ∀ {v}, Function.update (wakeup s.pc) a.actor v p =
      wakeup s.pc p := by
    intro v
    exact Function.update_of_ne hp ..
  cases a with
  | beginOp q =>
      simp only [step] at ht
      split_ifs at ht
      cases ht
      unfold State.beginOp
      split_ifs <;> exact .inl hupdate
  | logWrite q blockno =>
      simp only [step, State.logWrite] at ht
      split_ifs at ht
      cases ht
      exact .inl hupdate
  | update q =>
      simp only [step] at ht
      split at ht <;> cases ht
      exact .inl hupdate
  | endOp q =>
      simp only [step, State.endOp] at ht
      split_ifs at ht <;> cases ht
      · exact .inl hupdate
      · simp only [Act.actor] at hupdate'
        simp only [hupdate']
        exact hwake
  | readHead q header =>
      simp only [step] at ht
      split_ifs at ht
      cases ht
      exact .inl rfl
  | phase q =>
      simp only [step] at ht
      split at ht
      · cases ht
        simp only [Act.actor] at hupdate'
        simp only [State.endCommit, hupdate']
        exact hwake
      · cases ht
        exact .inl hupdate
      · cases ht
        exact .inl hupdate
      · cases ht
        exact .inl hupdate
      · cases ht

/-- What a step does to the header. -/
theorem step_lh (ht : step s a = .next t) :
    t.log.lh = s.log.lh ∨
      (∃ p, a = .phase p ∧ phaseOf (s.pc p) = some .clear ∧
        t.log.lh = []) ∨
      (∃ p blockno, a = .update p ∧ s.pc p = .logWrite blockno ∧
        t.log.lh = absorb s.log.lh blockno) ∨
      ∃ p header, a = .readHead p header ∧ t.log.lh = header := by
  cases a with
  | beginOp p =>
      simp only [step] at ht
      split_ifs at ht
      cases ht
      unfold State.beginOp
      split_ifs <;> exact .inl rfl
  | logWrite p blockno =>
      simp only [step, State.logWrite] at ht
      split_ifs at ht
      cases ht
      exact .inl rfl
  | update p =>
      simp only [step] at ht
      split at ht
      · next blockno hp =>
          cases ht
          exact .inr (.inr (.inl ⟨p, blockno, rfl, hp, rfl⟩))
      · cases ht
  | endOp p =>
      simp only [step, State.endOp] at ht
      split_ifs at ht <;> cases ht <;> exact .inl rfl
  | readHead p header =>
      simp only [step] at ht
      split_ifs at ht
      cases ht
      exact .inr (.inr (.inr ⟨p, header, rfl, rfl⟩))
  | phase p =>
      have hadvance : ∀ phase, phaseOf (s.pc p) = some phase →
          (s.log.advance phase).1.lh = s.log.lh ∨
            ∃ q, Act.phase p = .phase q ∧
              phaseOf (s.pc q) = some .clear ∧
              (s.log.advance phase).1.lh = [] := by
        intro phase hp
        cases phase with
        | clear => exact .inr ⟨p, rfl, hp, rfl⟩
        | _ => exact .inl rfl
      simp only [step] at ht
      split at ht
      · cases ht
        exact .inl rfl
      · next hp =>
          cases ht
          exact (hadvance _ (by rw [hp]; rfl)).imp_right .inl
      · cases ht
        exact .inl rfl
      · next hp =>
          cases ht
          exact (hadvance _ (by rw [hp]; rfl)).imp_right .inl
      · cases ht

/-- `log_write` is entered through its size test. -/
theorem logWrite_of_step (ht : step s a = .next t) {p : P} {blockno : ℕ}
    (hp : t.pc p = .logWrite blockno) :
    a = .logWrite p blockno ∨
      p ≠ a.actor ∧ s.pc p = .logWrite blockno := by
  by_cases hpa : p = a.actor
  · left
    cases a with
    | beginOp q =>
        simp only [step] at ht
        split_ifs at ht
        cases ht
        unfold State.beginOp at hp
        split_ifs at hp <;> simp [State.setPc, hpa, Act.actor] at hp
    | logWrite q b =>
        simp only [step, State.logWrite] at ht
        split_ifs at ht
        cases ht
        obtain rfl : p = q := hpa
        simp only [State.setPc, Function.update_self,
          Pc.logWrite.injEq] at hp
        rw [hp]
    | update q =>
        simp only [step] at ht
        split at ht <;> cases ht
        simp [State.update, State.setPc, hpa, Act.actor] at hp
    | endOp q =>
        simp only [step, State.endOp] at ht
        obtain rfl : p = q := hpa
        split_ifs at ht <;> cases ht <;> simp [State.setPc] at hp
    | readHead q header =>
        simp only [step] at ht
        split_ifs at ht with hq
        cases ht
        obtain rfl : p = q := hpa
        simp [hq] at hp
    | phase q =>
        simp only [step] at ht
        split at ht <;> cases ht <;>
          simp [State.setPc, State.endCommit, hpa, Act.actor] at hp
  · right
    refine ⟨hpa, ?_⟩
    rcases step_pc ht hpa with h | ⟨-, h⟩
    · rwa [h] at hp
    · simp [h] at hp

/-- How a process gets to a point of `commit`. -/
theorem committing_of_step (ht : step s a = .next t) {p : P} {phase : Phase}
    (hp : t.pc p = .committing phase) (hactor : p = a.actor) :
    a = .endOp p ∧ phase = .commit ∧ t.log.lh = s.log.lh ∨
      a = .phase p ∧ ∃ phase', s.pc p = .committing phase' ∧
        phase' ≠ .finish ∧ phase = (s.log.advance phase').2 ∧
        t.log = (s.log.advance phase').1 := by
  cases a with
  | beginOp q =>
      obtain rfl : p = q := hactor
      simp only [step] at ht
      split_ifs at ht
      cases ht
      unfold State.beginOp at hp
      split_ifs at hp <;> simp [State.setPc] at hp
  | logWrite q b =>
      obtain rfl : p = q := hactor
      simp only [step, State.logWrite] at ht
      split_ifs at ht
      cases ht
      simp [State.setPc] at hp
  | update q =>
      obtain rfl : p = q := hactor
      simp only [step] at ht
      split at ht <;> cases ht
      simp [State.update, State.setPc] at hp
  | endOp q =>
      obtain rfl : p = q := hactor
      simp only [step, State.endOp] at ht
      split_ifs at ht <;> cases ht
      · simp only [State.setPc, Function.update_self,
          Pc.committing.injEq] at hp
        exact .inl ⟨rfl, hp.symm, rfl⟩
      · simp at hp
  | readHead q header =>
      obtain rfl : p = q := hactor
      simp only [step] at ht
      split_ifs at ht with hq
      cases ht
      simp [hq] at hp
  | phase q =>
      obtain rfl : p = q := hactor
      simp only [step] at ht
      split at ht
      · cases ht
        simp [State.endCommit] at hp
      · next phase' hne hq =>
          cases ht
          simp only [State.setPc, Function.update_self,
            Pc.committing.injEq] at hp
          exact .inr ⟨rfl, phase', hq, hne, hp.symm, rfl⟩
      · cases ht
        simp [State.setPc] at hp
      · cases ht
        simp [State.setPc] at hp
      · cases ht

end Frame

/-- No two processes are in `commit` or in recovery. -/
theorem Inv.phase_unique {P : Type*} [Fintype P] {s : State P} (h : Inv s)
    {p q : P} {phase phase' : Phase} (hp : phaseOf (s.pc p) = some phase)
    (hq : phaseOf (s.pc q) = some phase') : q = p := by
  by_contra hqp
  cases hpc : s.pc p with
  | committing ph =>
      have hb : s.booted = true :=
        h.booted_of_ne_outside (p := p) (by simp [hpc]) (by simp [hpc])
      cases hqc : s.pc q with
      | committing ph' => exact hqp (h.committing_unique q p _ _ hqc hpc)
      | recovering ph' => simp [h.not_booted_of_pc q _ hqc] at hb
      | _ => simp [hqc, phaseOf] at hq
  | recovering ph =>
      simp [h.outside_of_recovering p q _ hpc hqp, phaseOf] at hq
  | _ => simp [hpc, phaseOf] at hp

/-- While a process is in `commit` or in recovery, the others neither change
the log nor its place in it. -/
theorem Inv.step_of_phase {P : Type*} [Fintype P] [DecidableEq P]
    {s t : State P} (h : Inv s) {a : Act P} (ht : Logging.step s a = .next t) {p : P}
    {phase : Phase} (hp : phaseOf (s.pc p) = some phase)
    (ha : p ≠ a.actor) :
    t.log = s.log ∧ t.booted = s.booted ∧ t.pc p = s.pc p := by
  have hp' := pc_of_phaseOf hp
  have hinactive : ∀ q, (s.pc q).isActive = false := by
    intro q
    by_contra hq
    have hq : (s.pc q).isActive = true := by simpa using hq
    rcases hp' with hp' | hp'
    · have hc := h.not_committing hq
      simp [h.committing_of_pc p _ hp'] at hc
    · have hb := h.booted_of_isActive hq
      simp [h.not_booted_of_pc p _ hp'] at hb
  have hlone : ∀ q phase', phaseOf (s.pc q) = some phase' → q = p :=
    fun q phase' hq => h.phase_unique hp hq
  cases a with
  | beginOp q =>
      simp only [Logging.step] at ht
      split_ifs at ht with hq
      cases ht
      rcases hp' with hp' | hp'
      · unfold State.beginOp
        rw [if_pos (h.committing_of_pc p _ hp')]
        exact ⟨rfl, rfl, Function.update_of_ne ha ..⟩
      · simp [h.not_booted_of_pc p _ hp'] at hq
  | logWrite q blockno =>
      simp only [Logging.step] at ht
      split_ifs at ht with hq
      have := hinactive q
      simp [hq, Pc.isActive] at this
  | update q =>
      simp only [Logging.step] at ht
      split at ht
      · next hq =>
          have := hinactive q
          simp [hq, Pc.isActive] at this
      · cases ht
  | endOp q =>
      simp only [Logging.step] at ht
      split_ifs at ht with hq
      have := hinactive q
      simp [hq, Pc.isActive] at this
  | readHead q header =>
      simp only [Logging.step] at ht
      split_ifs at ht with hq
      exact absurd (hlone q .readHead (by simp [hq, phaseOf])) ha.symm
  | phase q =>
      have hq : phaseOf (s.pc q) = none := by
        by_contra hq
        obtain ⟨phase', hq⟩ := Option.ne_none_iff_exists'.mp hq
        exact ha (hlone q phase' hq).symm
      simp only [Logging.step] at ht
      split at ht <;> simp_all [phaseOf]

/-! ## Initial states -/

/-- The log as `initlog` finds it after a restart, in the process `p`. -/
structure Restarted {P : Type*} (s : State P) (p : P) : Prop where
  outstanding : s.log.outstanding = 0
  committing : s.log.committing = false
  lh : s.log.lh = []
  booted : s.booted = false
  pc : s.pc p = .recovering .readHead
  pc_other : ∀ q, q ≠ p → s.pc q = .outside

theorem Restarted.inv {P : Type*} [Fintype P] [DecidableEq P] {s : State P}
    {p : P} (h : Restarted s p) : Inv s := by
  have hpc : ∀ q, s.pc q = .recovering .readHead ∧ q = p ∨
      s.pc q = .outside ∧ q ≠ p := by
    intro q
    by_cases hq : q = p
    · exact .inl ⟨hq ▸ h.pc, hq⟩
    · exact .inr ⟨h.pc_other q hq, hq⟩
  have hactive : ∀ q, (s.pc q).isActive = false := by
    intro q
    rcases hpc q with ⟨hq, -⟩ | ⟨hq, -⟩ <;> simp [hq, Pc.isActive]
  have hno : ∀ q phase, s.pc q ≠ .committing phase := by
    intro q phase
    rcases hpc q with ⟨hq, -⟩ | ⟨hq, -⟩ <;> simp [hq]
  have heq : ∀ q phase, s.pc q = .recovering phase → q = p := by
    intro q phase hq
    rcases hpc q with ⟨-, hqp⟩ | ⟨hq', -⟩
    · exact hqp
    · simp [hq'] at hq
  exact
    { outstanding_eq := by
        have hempty : active s.pc = ∅ := by
          ext q
          simp [mem_active, hactive q]
        rw [hempty, h.outstanding, Finset.card_empty]
      outstanding_eq_zero := fun _ => h.outstanding
      committing_of_pc := fun q phase hq => absurd hq (hno q phase)
      exists_pc_of_committing := fun e => by simp [h.committing] at e
      committing_unique := fun q _ phase _ hq => absurd hq (hno q phase)
      not_booted_of_pc := fun _ _ _ => h.booted
      outside_of_recovering := fun q r phase hq hr =>
        h.pc_other r (heq q phase hq ▸ hr)
      recovering_of_not_booted := fun _ => ⟨p, _, h.pc⟩
      inCommit := fun q phase hq => absurd hq (hno q phase)
      inRecovery := fun q phase hq => by
        obtain rfl := heq q phase hq
        rw [h.pc] at hq
        exact Pc.recovering.inj hq ▸ rfl
      nodup := fun e => by simp [h.booted] at e
      cleared := fun _ _ _ _ => h.lh
      idle := fun _ _ _ => h.lh }

/-- The log as `initlog` leaves it, before the first operation. -/
structure Ready {P : Type*} (s : State P) : Prop where
  outstanding : s.log.outstanding = 0
  committing : s.log.committing = false
  lh : s.log.lh = []
  booted : s.booted = true
  pc : ∀ p, s.pc p = .outside

theorem Ready.inv {P : Type*} [Fintype P] {s : State P} (h : Ready s) :
    Inv s where
  outstanding_eq := by
    have : active s.pc = ∅ := by
      ext p
      simp [mem_active, h.pc, Pc.isActive]
    rw [h.outstanding, this, Finset.card_empty]
  outstanding_eq_zero := fun _ => h.outstanding
  committing_of_pc := fun p _ hp => by simp [h.pc] at hp
  exists_pc_of_committing := fun e => by simp [h.committing] at e
  committing_unique := fun p _ _ _ hp => by simp [h.pc] at hp
  not_booted_of_pc := fun p _ hp => by simp [h.pc] at hp
  outside_of_recovering := fun p _ _ hp => by simp [h.pc] at hp
  recovering_of_not_booted := fun e => by simp [h.booted] at e
  inCommit := fun p _ hp => by simp [h.pc] at hp
  inRecovery := fun p _ hp => by simp [h.pc] at hp
  nodup := fun _ => by simp [h.lh]
  cleared := fun _ _ _ _ => h.lh
  idle := fun _ _ _ => h.lh

end ZtlOs.Logging
