import ZtlOs.Sync.Spinlock

/-!
# Spin locks between processors

The single steps of `acquire`, `release`, `holding`, `pushcli` and `popcli` on
any number of CPUs, each with a stack of interrupt handlers.
-/

namespace ZtlOs.Processors

open ZtlOs.Support ZtlOs.Spinlock

/-- The functions of `spinlock.c`. -/
inductive Call (L : Type*) where
  | pushcli
  | popcli
  | acquire (lock : L)
  | release (lock : L)
  | holding (lock : L)
  deriving DecidableEq

/-- Who has called `holding`. -/
inductive Caller where
  | acquire
  | release
  | other
  deriving DecidableEq

/-- Where a thread of control stands.  `pushcli` and `popcli` are called for a
lock, or by themselves. -/
inductive Pc (L : Type*) where
  | ready
  /-- Before `readeflags()`. -/
  | pushRead (k : Option L)
  | pushCli (k : Option L) (eflags : BitVec 32)
  /-- Before the test of `ncli`. -/
  | pushSave (k : Option L) (eflags : BitVec 32)
  | pushInc (k : Option L)
  /-- In `holding`, before `locked` is read. -/
  | holdLocked (caller : Caller) (lock : L)
  | holdCpu (caller : Caller) (lock : L)
  /-- Before the `xchg`. -/
  | spin (lock : L)
  | setCpu (lock : L)
  | acqReturn (lock : L)
  | clearCpu (lock : L)
  /-- Before `locked = 0`. -/
  | unlock (lock : L)
  | popTest (k : Option L)
  | popDec (k : Option L)
  | popSti
  deriving DecidableEq

/-- A CPU, with the threads of control that interrupts have suspended. -/
structure Processor (L : Type*) where
  cpu : Cpu
  pc : Pc L
  /-- The suspended threads and their saved EFLAGS, the last one first. -/
  suspended : List (Pc L × BitVec 32)
  /-- The levels that `pushcli` has opened by itself. -/
  pushes : ℕ
  /-- The locks for which `acquire` has returned, up to `locked = 0` in
  `release`. -/
  held : List L

structure State (L : Type*) where
  proc : ℕ → Processor L
  lock : L → Lock

inductive Act (L : Type*) where
  | call (c : ℕ) (call : Call L)
  /-- The next step of the function that has been called. -/
  | run (c : ℕ)
  | interrupt (c : ℕ)
  /-- The interrupt handler returns. -/
  | iret (c : ℕ)
  deriving DecidableEq

section Step

variable {L : Type*}

def Call.start : Call L → Pc L
  | .pushcli => .pushRead none
  | .popcli => .popTest none
  | .acquire lock => .pushRead (some lock)
  | .release lock => .holdLocked .release lock
  | .holding lock => .holdLocked .other lock

/-- The caller goes on with the result of `holding`. -/
def answer (p : Processor L) (lock : L) (r : Bool) :
    Caller → Outcome (Processor L)
  | .acquire => if r then .panic "acquire" else .next { p with pc := .spin lock }
  | .release =>
      if r then .next { p with pc := .clearCpu lock } else .panic "release"
  | .other => .next { p with pc := .ready }

variable [DecidableEq L]

def State.set (s : State L) (c : ℕ) (p : Processor L) : State L :=
  { s with proc := Function.update s.proc c p }

def State.setLock (s : State L) (lock : L) (value : Lock) : State L :=
  { s with lock := Function.update s.lock lock value }

def State.run (s : State L) (c : ℕ) : Outcome (State L) :=
  let p := s.proc c
  match p.pc with
  | .ready => .blocked
  | .pushRead k => .next (s.set c { p with pc := .pushCli k p.cpu.eflags })
  | .pushCli k eflags =>
      .next (s.set c { p with cpu := p.cpu.cli, pc := .pushSave k eflags })
  | .pushSave k eflags =>
      .next (s.set c { p with
        cpu :=
          if p.cpu.ncli = 0 then { p.cpu with intena := eflags &&& FL_IF }
          else p.cpu
        pc := .pushInc k })
  | .pushInc none =>
      .next (s.set c { p with
        cpu := { p.cpu with ncli := p.cpu.ncli + 1 }
        pc := .ready
        pushes := p.pushes + 1 })
  | .pushInc (some lock) =>
      .next (s.set c { p with
        cpu := { p.cpu with ncli := p.cpu.ncli + 1 }
        pc := .holdLocked .acquire lock })
  | .holdLocked caller lock =>
      if (s.lock lock).locked = 0 then (answer p lock false caller).map (s.set c)
      else .next (s.set c { p with pc := .holdCpu caller lock })
  | .holdCpu caller lock =>
      (answer p lock ((s.lock lock).cpu = some c) caller).map (s.set c)
  | .spin lock =>
      let t := s.setLock lock { s.lock lock with locked := 1 }
      if (s.lock lock).locked ≠ 0 then .next t
      else .next (t.set c { p with pc := .setCpu lock })
  | .setCpu lock =>
      .next ((s.setLock lock { s.lock lock with cpu := some c }).set c
        { p with pc := .acqReturn lock })
  | .acqReturn lock =>
      .next (s.set c { p with pc := .ready, held := lock :: p.held })
  | .clearCpu lock =>
      .next ((s.setLock lock { s.lock lock with cpu := none }).set c
        { p with pc := .unlock lock })
  | .unlock lock =>
      .next ((s.setLock lock { s.lock lock with locked := 0 }).set c
        { p with pc := .popTest (some lock), held := p.held.erase lock })
  | .popTest k =>
      if p.cpu.interruptFlag then .panic "popcli - interruptible"
      else .next (s.set c { p with pc := .popDec k })
  | .popDec k =>
      let cpu := { p.cpu with ncli := p.cpu.ncli - 1 }
      if cpu.ncli.toInt < 0 then .panic "popcli"
      else
        .next (s.set c { p with
          cpu := cpu
          pc := .popSti
          pushes := if k = none then p.pushes - 1 else p.pushes })
  | .popSti =>
      .next (s.set c { p with
        cpu := if p.cpu.ncli = 0 then p.cpu.sti else p.cpu
        pc := .ready })

def step (s : State L) : Act L → Outcome (State L)
  | .call c call =>
      let p := s.proc c
      match p.pc with
      | .ready => .next (s.set c { p with pc := call.start })
      | _ => .blocked
  | .run c => s.run c
  | .interrupt c =>
      let p := s.proc c
      if p.cpu.interruptFlag then
        .next (s.set c { p with
          cpu := p.cpu.cli
          pc := .ready
          suspended := (p.pc, p.cpu.eflags) :: p.suspended })
      else .blocked
  | .iret c =>
      let p := s.proc c
      match p.pc, p.suspended with
      | .ready, (pc, eflags) :: suspended =>
          .next (s.set c { p with
            cpu := { p.cpu with eflags := eflags }
            pc := pc
            suspended := suspended })
      | _, _ => .blocked

/-- The result of `holding`, if the next step of a CPU returns one to a caller
outside of `acquire` and `release`. -/
def State.returns (s : State L) (c : ℕ) : Option (L × Bool) :=
  match (s.proc c).pc with
  | .holdLocked .other lock =>
      if (s.lock lock).locked = 0 then some (lock, false) else none
  | .holdCpu .other lock => some (lock, (s.lock lock).cpu = some c)
  | _ => none

/-- The machine before the first call; interrupts may be enabled or not. -/
structure Booted (s : State L) : Prop where
  ncli : ∀ c, (s.proc c).cpu.ncli = 0
  pc : ∀ c, (s.proc c).pc = .ready
  suspended : ∀ c, (s.proc c).suspended = []
  pushes : ∀ c, (s.proc c).pushes = 0
  held : ∀ c, (s.proc c).held = []
  lock : ∀ lock, s.lock lock = initlock

/-- A CPU releases only locks that it holds. -/
def Releases (s : State L) : Act L → Prop
  | .call c (.release lock) => lock ∈ (s.proc c).held
  | _ => True

/-- Moreover `popcli` undoes a `pushcli`, a handler returns without locks and
levels, and no counter overflows. -/
def Matched (s : State L) : Act L → Prop
  | .call c call =>
      match call with
      | .release lock => lock ∈ (s.proc c).held
      | .popcli => 0 < (s.proc c).pushes
      | .holding _ => True
      | _ => (s.proc c).pushes + (s.proc c).held.length + 1 < 2 ^ 31
  | .iret c => (s.proc c).pushes = 0 ∧ (s.proc c).held = []
  | _ => True

instance (s : State L) (a : Act L) : Decidable (Releases s a) := by
  unfold Releases
  split <;> infer_instance

instance (s : State L) (a : Act L) : Decidable (Matched s a) := by
  unfold Matched
  split
  · split <;> infer_instance
  · infer_instance
  · infer_instance

/-- What spin locks are for. -/
structure Disciplined (s : State L) : Prop where
  exclusive : ∀ c c' lock, lock ∈ (s.proc c).held → lock ∈ (s.proc c').held →
    c = c'
  holding : ∀ c lock r, s.returns c = some (lock, r) →
    (r = true ↔ lock ∈ (s.proc c).held)
  disabled : ∀ c, (s.proc c).held ≠ [] →
    (s.proc c).cpu.interruptFlag = false ∧ 1 ≤ (s.proc c).cpu.ncli.toInt
  interrupt : ∀ c t, step s (.interrupt c) = .next t → (t.proc c).held = []
  spinning : ∀ c lock, (s.proc c).pc = .spin lock → lock ∉ (s.proc c).held

end Step

/-! ## One processor -/

section Processor

variable {L : Type*}

/-- The level that the call in progress has opened and not closed, where no
lock in `held` and no `pushcli` accounts for it. -/
def Pc.level : Pc L → ℕ
  | .holdLocked .acquire _ | .holdCpu .acquire _ | .spin _ | .setCpu _
  | .acqReturn _ | .popTest (some _) | .popDec (some _) => 1
  | _ => 0

/-- A level that is about to be opened. -/
def Pc.pending : Pc L → ℕ
  | .pushRead _ | .pushCli _ _ | .pushSave _ _ | .pushInc _ => 1
  | _ => 0

/-- Interrupts may be enabled here. -/
def Pc.open : Pc L → Prop
  | .ready | .pushRead _ | .pushCli _ _ | .holdLocked .other _
  | .holdCpu .other _ => True
  | _ => False

/-- The lock that the call in progress is releasing. -/
def Pc.releasing : Pc L → Option L
  | .holdLocked .release lock | .holdCpu .release lock | .clearCpu lock
  | .unlock lock => some lock
  | _ => none

/-- The lock that the call in progress is about to hold. -/
def Pc.acquiring : Pc L → Option L
  | .spin lock | .setCpu lock | .acqReturn lock => some lock
  | _ => none

/-- The call in progress closes a level of `pushcli`. -/
def Pc.pops : Pc L → Prop
  | .popTest none | .popDec none => True
  | _ => False

/-- The levels of a CPU are counted by `ncli`; interrupts are enabled only
where there are none. -/
structure Processor.Inv (p : Processor L) : Prop where
  ncli : p.cpu.ncli.toNat = p.pushes + p.held.length + p.pc.level
  bound : p.pushes + p.held.length + p.pc.level + p.pc.pending < 2 ^ 31
  enabled : p.cpu.interruptFlag = true →
    p.pushes = 0 ∧ p.held = [] ∧ p.pc.open
  suspended : ∀ f ∈ p.suspended, f.1.open
  pops : p.pc.pops → 0 < p.pushes
  releasing : ∀ lock, p.pc.releasing = some lock → lock ∈ p.held
  acquiring : ∀ lock, p.pc.acquiring = some lock → lock ∉ p.held
  nodup : p.held.Nodup

variable {p q : Processor L}

theorem Pc.level_of_open {pc : Pc L} (h : pc.open) :
    pc.level = 0 ∧ pc.pending ≤ 1 ∧ ¬ pc.pops ∧ pc.releasing = none ∧
      pc.acquiring = none := by
  cases pc with
  | holdLocked caller lock =>
      cases caller <;> first | exact h.elim | exact ⟨rfl, Nat.zero_le _, id, rfl, rfl⟩
  | holdCpu caller lock =>
      cases caller <;> first | exact h.elim | exact ⟨rfl, Nat.zero_le _, id, rfl, rfl⟩
  | ready => exact ⟨rfl, Nat.zero_le _, id, rfl, rfl⟩
  | pushRead k => exact ⟨rfl, le_rfl, id, rfl, rfl⟩
  | pushCli k e => exact ⟨rfl, le_rfl, id, rfl, rfl⟩
  | _ => exact h.elim

theorem one_ne_zero_word : (1 : BitVec 32) ≠ 0 := by decide

theorem toNat_succ_ncli {n : BitVec 32} (h : n.toNat + 1 < 2 ^ 31) :
    (n + 1).toNat = n.toNat + 1 := by
  rw [BitVec.toNat_add]
  exact Nat.mod_eq_of_lt (by simp; omega)

theorem toNat_pred_ncli {n : BitVec 32} (h : 0 < n.toNat) :
    (n - 1).toNat = n.toNat - 1 := by
  have hn := n.isLt
  have h1 : (1 : BitVec 32).toNat = 1 := rfl
  rw [BitVec.toNat_sub, h1]
  omega

/-- A call begins. -/
theorem Processor.Inv.call (h : p.Inv) (hpc : p.pc = .ready) {call : Call L}
    (hrelease : ∀ lock, call = .release lock → lock ∈ p.held)
    (hpop : call = .popcli → 0 < p.pushes)
    (hpush : call = .pushcli ∨ (∃ lock, call = .acquire lock) →
      p.pushes + p.held.length + 1 < 2 ^ 31) :
    Processor.Inv { p with pc := call.start } := by
  have hlevel : call.start.level = 0 := by cases call <;> rfl
  have hncli := h.ncli
  have hbound := h.bound
  rw [hpc] at hncli hbound
  refine { h with
    ncli := ?_, bound := ?_, enabled := ?_, pops := ?_, releasing := ?_
    acquiring := ?_ }
  · rw [hlevel]
    exact hncli
  · rw [hlevel]
    cases call with
    | pushcli => exact hpush (.inl rfl)
    | acquire lock => exact hpush (.inr ⟨lock, rfl⟩)
    | popcli => exact hbound
    | release lock => exact hbound
    | holding lock => exact hbound
  · intro hif
    obtain ⟨hpushes, hheld, -⟩ := h.enabled hif
    refine ⟨hpushes, hheld, ?_⟩
    cases call with
    | popcli =>
        have := hpop rfl
        omega
    | release lock =>
        have := hrelease lock rfl
        rw [hheld] at this
        cases this
    | pushcli => trivial
    | acquire lock => trivial
    | holding lock => trivial
  · intro hpops
    cases call with
    | popcli => exact hpop rfl
    | pushcli => exact hpops.elim
    | acquire lock => exact hpops.elim
    | release lock => exact hpops.elim
    | holding lock => exact hpops.elim
  · intro lock hlock
    cases call with
    | release l =>
        obtain rfl := Option.some.inj hlock
        exact hrelease l rfl
    | pushcli => cases hlock
    | acquire l => cases hlock
    | popcli => cases hlock
    | holding l => cases hlock
  · intro lock hlock
    cases call <;> cases hlock

/-- Interrupts are off, so the CPU goes on with its call. -/
theorem Processor.Inv.goes {pc : Pc L} {cpu : Cpu} (h : p.Inv)
    (hoff : cpu.interruptFlag = false) (hncli : cpu.ncli = p.cpu.ncli)
    (hlevel : pc.level = p.pc.level) (hpending : pc.pending ≤ p.pc.pending)
    (hpops : pc.pops → p.pc.pops)
    (hreleasing : ∀ lock, pc.releasing = some lock →
      p.pc.releasing = some lock)
    (hacquiring : ∀ lock, pc.acquiring = some lock → lock ∉ p.held) :
    Processor.Inv { p with cpu := cpu, pc := pc } := by
  have hbound := h.bound
  refine { h with
    ncli := ?_, bound := ?_, enabled := ?_, pops := ?_, releasing := ?_
    acquiring := ?_ }
  · rw [hncli, hlevel]
    exact h.ncli
  · dsimp only
    omega
  · intro hif
    rw [hoff] at hif
    cases hif
  · exact fun hp => h.pops (hpops hp)
  · exact fun lock hlock => h.releasing lock (hreleasing lock hlock)
  · exact hacquiring

/-- The flag is clear at a place where interrupts are off. -/
theorem Processor.Inv.off (h : p.Inv) (hpc : ¬ p.pc.open) :
    p.cpu.interruptFlag = false :=
  Bool.eq_false_of_not_eq_true fun hif => hpc (h.enabled hif).2.2

/-- Between two places where interrupts may be on, nothing is counted. -/
theorem Processor.Inv.between {pc : Pc L} (h : p.Inv) (hp : p.pc.open)
    (hpc : pc.open) (hpending : pc.pending ≤ p.pc.pending) :
    Processor.Inv { p with pc := pc } := by
  obtain ⟨hlevel, -, hpops, hreleasing, hacquiring⟩ := Pc.level_of_open hpc
  have hlevel' := (Pc.level_of_open hp).1
  have hncli := h.ncli
  have hbound := h.bound
  rw [hlevel'] at hncli hbound
  refine { h with
    ncli := ?_, bound := ?_, enabled := ?_, pops := ?_, releasing := ?_
    acquiring := ?_ }
  · rw [hlevel]
    exact hncli
  · dsimp only
    omega
  · exact fun hif => ⟨(h.enabled hif).1, (h.enabled hif).2.1, hpc⟩
  · exact fun hp => absurd hp hpops
  · intro lock hlock
    rw [hreleasing] at hlock
    cases hlock
  · intro lock hlock
    rw [hacquiring] at hlock
    cases hlock

theorem Processor.Inv.interrupt (h : p.Inv)
    (hif : p.cpu.interruptFlag = true) :
    Processor.Inv { p with
      cpu := p.cpu.cli
      pc := .ready
      suspended := (p.pc, p.cpu.eflags) :: p.suspended } := by
  obtain ⟨hpushes, hheld, hopen⟩ := h.enabled hif
  have hncli := h.ncli
  have hbound := h.bound
  rw [(Pc.level_of_open hopen).1] at hncli hbound
  refine ⟨hncli, ?_, ?_, ?_, ?_, nofun, nofun, h.nodup⟩
  · change p.pushes + p.held.length + 0 + 0 < _
    omega
  · intro hoff
    rw [interruptFlag_cli] at hoff
    cases hoff
  · intro f hf
    rcases List.mem_cons.mp hf with rfl | hf
    · exact hopen
    · exact h.suspended f hf
  · exact fun hp => hp.elim

theorem Processor.Inv.iret {pc : Pc L} {eflags : BitVec 32}
    {suspended : List (Pc L × BitVec 32)} (h : p.Inv) (hready : p.pc = .ready)
    (hsuspended : p.suspended = (pc, eflags) :: suspended)
    (hpushes : p.pushes = 0) (hheld : p.held = []) :
    Processor.Inv { p with
      cpu := { p.cpu with eflags := eflags }
      pc := pc
      suspended := suspended } := by
  have hall := h.suspended
  rw [hsuspended] at hall
  have hopen : pc.open := hall _ List.mem_cons_self
  obtain ⟨hlevel, hpending, hpops, hreleasing, hacquiring⟩ :=
    Pc.level_of_open hopen
  have hncli := h.ncli
  rw [hready] at hncli
  refine ⟨?_, ?_, fun _ => ⟨hpushes, hheld, hopen⟩, ?_, ?_, ?_, ?_, h.nodup⟩
  · rw [hlevel]
    exact hncli
  · rw [hlevel, hpushes, hheld]
    change 0 + 0 + 0 + pc.pending < _
    omega
  · exact fun f hf => hall f (List.mem_cons_of_mem _ hf)
  · exact fun hp => absurd hp hpops
  · intro lock hlock
    rw [hreleasing] at hlock
    cases hlock
  · intro lock hlock
    rw [hacquiring] at hlock
    cases hlock

end Processor

/-! ## All processors -/

section Machine

variable {L : Type*}

/-- The processor has the lock from its `xchg` on. -/
def Processor.Owns (p : Processor L) (lock : L) : Prop :=
  lock ∈ p.held ∨ p.pc = .setCpu lock ∨ p.pc = .acqReturn lock

/-- The field `cpu` of the lock is the processor. -/
def Processor.Named (p : Processor L) (lock : L) : Prop :=
  lock ∈ p.held ∧ p.pc ≠ .unlock lock ∨ p.pc = .acqReturn lock

theorem Processor.Named.owns {p : Processor L} {lock : L}
    (h : p.Named lock) : p.Owns lock :=
  h.imp And.left .inr

/-- The fields of the locks agree with where the processors are. -/
structure Inv (s : State L) : Prop where
  proc : ∀ c, (s.proc c).Inv
  locked : ∀ lock, (s.lock lock).locked ≠ 0 ↔ ∃ c, (s.proc c).Owns lock
  unique : ∀ lock c c', (s.proc c).Owns lock → (s.proc c').Owns lock → c = c'
  cpu : ∀ lock c, (s.lock lock).cpu = some c ↔ (s.proc c).Named lock

variable {s t : State L} {c : ℕ} {q : Processor L}

variable [DecidableEq L]

omit [DecidableEq L] in
theorem Booted.inv (h : Booted s) : Inv s := by
  have hnot : ∀ lock c, ¬ (s.proc c).Owns lock := by
    intro lock c hown
    rw [Processor.Owns, h.held, h.pc] at hown
    rcases hown with hown | hown | hown <;> cases hown
  constructor
  · intro c
    refine ⟨?_, ?_, ?_, ?_, ?_, ?_, ?_, ?_⟩
    · rw [h.ncli, h.pushes, h.held, h.pc]
      rfl
    · rw [h.pushes, h.held, h.pc]
      change 0 + 0 + 0 + 0 < 2 ^ 31
      omega
    · intro _
      rw [h.pc]
      exact ⟨h.pushes c, h.held c, trivial⟩
    · rw [h.suspended]
      exact nofun
    · rw [h.pc]
      exact fun hp => hp.elim
    · rw [h.pc]
      exact nofun
    · rw [h.pc]
      exact nofun
    · rw [h.held]
      exact List.nodup_nil
  · intro lock
    rw [h.lock]
    exact iff_of_false (fun hne => hne rfl) fun ⟨c, hc⟩ => hnot lock c hc
  · exact fun lock c _ hc => absurd hc (hnot lock c)
  · intro lock c
    rw [h.lock]
    exact iff_of_false nofun fun hc => hnot lock c hc.owns

/-- One processor and one lock change; the lock belonged to no other. -/
theorem Inv.setLock {lock : L} {v : Lock} (h : Inv s) (hq : q.Inv)
    (hother : ∀ l ≠ lock, (q.Owns l ↔ (s.proc c).Owns l) ∧
      (q.Named l ↔ (s.proc c).Named l))
    (hfree : ∀ c' ≠ c, ¬ (s.proc c').Owns lock)
    (hlocked : v.locked ≠ 0 ↔ q.Owns lock)
    (hcpu : v.cpu = some c ↔ q.Named lock)
    (hcpu' : ∀ c' ≠ c, v.cpu ≠ some c') : Inv ((s.setLock lock v).set c q) := by
  have hself : ((s.setLock lock v).set c q).proc c = q :=
    Function.update_self ..
  have hne : ∀ c' ≠ c, ((s.setLock lock v).set c q).proc c' = s.proc c' :=
    fun c' hc => Function.update_of_ne hc ..
  have hlock : ((s.setLock lock v).set c q).lock lock = v :=
    Function.update_self ..
  have hlock' : ∀ l ≠ lock, ((s.setLock lock v).set c q).lock l = s.lock l :=
    fun l hl => Function.update_of_ne hl ..
  have howns : ∀ l ≠ lock, ∀ c', (((s.setLock lock v).set c q).proc c').Owns l ↔
      (s.proc c').Owns l := by
    intro l hl c'
    by_cases hc : c' = c
    · rw [hc, hself]
      exact (hother l hl).1
    · rw [hne c' hc]
  have honly : ∀ c', (((s.setLock lock v).set c q).proc c').Owns lock →
      c' = c := by
    intro c' hc'
    by_contra hc
    rw [hne c' hc] at hc'
    exact hfree c' hc hc'
  constructor
  · intro c'
    by_cases hc : c' = c
    · rw [hc, hself]
      exact hq
    · rw [hne c' hc]
      exact h.proc c'
  · intro l
    by_cases hl : l = lock
    · rw [hl, hlock, hlocked]
      constructor
      · exact fun hown => ⟨c, by rwa [hself]⟩
      · rintro ⟨c', hc'⟩
        obtain rfl := honly c' hc'
        rwa [hself] at hc'
    · rw [hlock' l hl, h.locked]
      exact exists_congr fun c' => (howns l hl c').symm
  · intro l c₁ c₂ h₁ h₂
    by_cases hl : l = lock
    · rw [hl] at h₁ h₂
      exact (honly c₁ h₁).trans (honly c₂ h₂).symm
    · exact h.unique l c₁ c₂ ((howns l hl c₁).mp h₁) ((howns l hl c₂).mp h₂)
  · intro l c'
    by_cases hl : l = lock
    · rw [hl, hlock]
      by_cases hc : c' = c
      · rw [hc, hself]
        exact hcpu
      · rw [hne c' hc]
        exact iff_of_false (hcpu' c' hc) fun hn => hfree c' hc hn.owns
    · rw [hlock' l hl, h.cpu]
      by_cases hc : c' = c
      · rw [hc, hself]
        exact (hother l hl).2.symm
      · rw [hne c' hc]

omit [DecidableEq L] in
/-- One processor changes, without a change to what it owns. -/
theorem Inv.set (h : Inv s) (hq : q.Inv)
    (howns : ∀ l, q.Owns l ↔ (s.proc c).Owns l)
    (hnamed : ∀ l, q.Named l ↔ (s.proc c).Named l) : Inv (s.set c q) := by
  have hself : (s.set c q).proc c = q := Function.update_self ..
  have hne : ∀ c' ≠ c, (s.set c q).proc c' = s.proc c' :=
    fun c' hc => Function.update_of_ne hc ..
  have howns' : ∀ l c', ((s.set c q).proc c').Owns l ↔ (s.proc c').Owns l := by
    intro l c'
    by_cases hc : c' = c
    · rw [hc, hself]
      exact howns l
    · rw [hne c' hc]
  constructor
  · intro c'
    by_cases hc : c' = c
    · rw [hc, hself]
      exact hq
    · rw [hne c' hc]
      exact h.proc c'
  · intro l
    refine (h.locked l).trans ?_
    exact exists_congr fun c' => (howns' l c').symm
  · exact fun l c₁ c₂ h₁ h₂ =>
      h.unique l c₁ c₂ ((howns' l c₁).mp h₁) ((howns' l c₂).mp h₂)
  · intro l c'
    refine (h.cpu l c').trans ?_
    by_cases hc : c' = c
    · rw [hc, hself]
      exact (hnamed l).symm
    · rw [hne c' hc]

/-- The place of a call says nothing about the locks, apart from the end of
`acquire` and of `release`. -/
def Pc.neutral : Pc L → Prop
  | .setCpu _ | .acqReturn _ | .unlock _ => False
  | _ => True

omit [DecidableEq L] in
theorem Processor.owns_iff {p : Processor L} (h : p.pc.neutral) (l : L) :
    p.Owns l ↔ l ∈ p.held := by
  refine or_iff_left ?_
  rintro (hpc | hpc)
  · rw [hpc] at h
    exact h
  · rw [hpc] at h
    exact h

omit [DecidableEq L] in
theorem Processor.named_iff {p : Processor L} (h : p.pc.neutral) (l : L) :
    p.Named l ↔ l ∈ p.held := by
  constructor
  · rintro (⟨hl, -⟩ | hpc)
    · exact hl
    · rw [hpc] at h
      exact h.elim
  · intro hl
    refine .inl ⟨hl, ?_⟩
    intro hpc
    rw [hpc] at h
    exact h

omit [DecidableEq L] in
theorem Inv.neutral (h : Inv s) (hq : q.Inv) (hpc : (s.proc c).pc.neutral)
    (hpc' : q.pc.neutral) (hheld : q.held = (s.proc c).held) :
    Inv (s.set c q) := by
  refine h.set hq (fun l => ?_) (fun l => ?_)
  · rw [Processor.owns_iff hpc, Processor.owns_iff hpc', hheld]
  · rw [Processor.named_iff hpc, Processor.named_iff hpc', hheld]

/-! ### Single steps -/

omit [DecidableEq L] in
theorem Inv.pushcli (h : Inv s) {k : Option L}
    (hpc : (s.proc c).pc = .pushInc k) {pc : Pc L} {n : ℕ}
    (hk : k = none ∧ pc = .ready ∧ n = (s.proc c).pushes + 1 ∨
      ∃ lock, k = some lock ∧ pc = .holdLocked .acquire lock ∧
        n = (s.proc c).pushes) :
    Inv (s.set c { s.proc c with
      cpu := { (s.proc c).cpu with ncli := (s.proc c).cpu.ncli + 1 }
      pc := pc
      pushes := n }) := by
  have hp := h.proc c
  have hncli := hp.ncli
  have hbound := hp.bound
  have hoff := hp.off (by rw [hpc]; exact id)
  rw [hpc] at hncli hbound
  change _ = _ + _ + 0 at hncli
  change _ + _ + 0 + 1 < _ at hbound
  have hsucc := toNat_succ_ncli
    (show (s.proc c).cpu.ncli.toNat + 1 < 2 ^ 31 by omega)
  refine h.neutral ?_ (by rw [hpc]; trivial) ?_ rfl
  · rcases hk with ⟨-, rfl, rfl⟩ | ⟨lock, -, rfl, rfl⟩
    · refine { hp with
        ncli := ?_, bound := ?_, enabled := ?_, pops := ?_, releasing := nofun
        acquiring := nofun }
      · change ((s.proc c).cpu.ncli + 1).toNat =
          (s.proc c).pushes + 1 + (s.proc c).held.length + 0
        omega
      · change (s.proc c).pushes + 1 + (s.proc c).held.length + 0 + 0 < _
        omega
      · intro hif
        rw [show (s.proc c).cpu.interruptFlag = true from hif] at hoff
        cases hoff
      · exact fun hpops => hpops.elim
    · refine { hp with
        ncli := ?_, bound := ?_, enabled := ?_, pops := ?_, releasing := nofun
        acquiring := nofun }
      · change ((s.proc c).cpu.ncli + 1).toNat =
          (s.proc c).pushes + (s.proc c).held.length + 1
        omega
      · change (s.proc c).pushes + (s.proc c).held.length + 1 + 0 < _
        omega
      · intro hif
        rw [show (s.proc c).cpu.interruptFlag = true from hif] at hoff
        cases hoff
      · exact fun hpops => hpops.elim
  · rcases hk with ⟨-, rfl, -⟩ | ⟨lock, -, rfl, -⟩ <;> trivial

omit [DecidableEq L] in
/-- `holding` has told the truth, and its caller goes on. -/
theorem Inv.answer (h : Inv s) {lock : L} {r : Bool} {caller : Caller}
    (hpc : (s.proc c).pc = .holdLocked caller lock ∨
      (s.proc c).pc = .holdCpu caller lock)
    (hr : r = true ↔ lock ∈ (s.proc c).held)
    (ht : Processors.answer (s.proc c) lock r caller = .next q) :
    Inv (s.set c q) := by
  have hp := h.proc c
  have hneutral : (s.proc c).pc.neutral := by
    rcases hpc with hpc | hpc
    · rw [hpc]
      trivial
    · rw [hpc]
      trivial
  cases caller with
  | acquire =>
      have hclosed : ¬ (s.proc c).pc.open := by
        rcases hpc with hpc | hpc
        · rw [hpc]
          exact id
        · rw [hpc]
          exact id
      cases r with
      | true => cases ht
      | false =>
          obtain rfl := Outcome.next.inj ht
          refine h.neutral ?_ hneutral trivial rfl
          refine hp.goes (hp.off hclosed) rfl ?_ (Nat.zero_le _)
            (fun hpops => hpops.elim) nofun ?_
          · rcases hpc with hpc | hpc
            · rw [hpc]
              rfl
            · rw [hpc]
              rfl
          · intro l hl
            obtain rfl := Option.some.inj hl
            exact fun hmem => Bool.false_ne_true (hr.mpr hmem)
  | release =>
      have hclosed : ¬ (s.proc c).pc.open := by
        rcases hpc with hpc | hpc
        · rw [hpc]
          exact id
        · rw [hpc]
          exact id
      cases r with
      | false => cases ht
      | true =>
          obtain rfl := Outcome.next.inj ht
          refine h.neutral ?_ hneutral trivial rfl
          refine hp.goes (hp.off hclosed) rfl ?_ (Nat.zero_le _)
            (fun hpops => hpops.elim) ?_ nofun
          · rcases hpc with hpc | hpc
            · rw [hpc]
              rfl
            · rw [hpc]
              rfl
          · intro l hl
            obtain rfl := Option.some.inj hl
            rcases hpc with hpc | hpc
            · rw [hpc]
              rfl
            · rw [hpc]
              rfl
  | other =>
      have hopen : (s.proc c).pc.open := by
        rcases hpc with hpc | hpc
        · rw [hpc]
          trivial
        · rw [hpc]
          trivial
      obtain rfl := Outcome.next.inj ht
      exact h.neutral (hp.between hopen trivial (Nat.zero_le _)) hneutral trivial
        rfl

omit [DecidableEq L] in
/-- In `holding`, a lock that is free is not held. -/
theorem Inv.not_mem_of_free (h : Inv s) {lock : L}
    (hfree : (s.lock lock).locked = 0) (c : ℕ) : ¬ (s.proc c).Owns lock :=
  fun hown => (h.locked lock).mpr ⟨c, hown⟩ hfree

omit [DecidableEq L] in
/-- In `holding`, the field `cpu` tells whether the lock is held. -/
theorem Inv.cpu_iff (h : Inv s) {lock : L} {caller : Caller}
    (hpc : (s.proc c).pc = .holdCpu caller lock) :
    decide ((s.lock lock).cpu = some c) = true ↔
      lock ∈ (s.proc c).held := by
  rw [decide_eq_true_iff, h.cpu]
  exact Processor.named_iff (by rw [hpc]; trivial) lock

omit [DecidableEq L] in
/-- The call goes on where interrupts are off, and no lock changes. -/
theorem Inv.goes (h : Inv s) {pc : Pc L} {cpu : Cpu}
    (hneutral : (s.proc c).pc.neutral) (hpc : pc.neutral)
    (hoff : cpu.interruptFlag = false) (hncli : cpu.ncli = (s.proc c).cpu.ncli)
    (hlevel : pc.level = (s.proc c).pc.level)
    (hpending : pc.pending ≤ (s.proc c).pc.pending)
    (hpops : pc.pops → (s.proc c).pc.pops)
    (hreleasing : ∀ lock, pc.releasing = some lock →
      (s.proc c).pc.releasing = some lock)
    (hacquiring : pc.acquiring = none) :
    Inv (s.set c { s.proc c with cpu := cpu, pc := pc }) := by
  refine h.neutral ?_ hneutral hpc rfl
  refine (h.proc c).goes hoff hncli hlevel hpending hpops hreleasing ?_
  intro lock hlock
  rw [hacquiring] at hlock
  cases hlock

/-- The `xchg` finds the lock taken; it stays taken. -/
theorem Inv.spins (h : Inv s) {lock : L} (htaken : (s.lock lock).locked ≠ 0) :
    Inv (s.setLock lock { s.lock lock with locked := 1 }) := by
  have hlock : ∀ l,
      (((s.setLock lock { s.lock lock with locked := 1 }).lock l).locked ≠ 0 ↔
        (s.lock l).locked ≠ 0) ∧
      ((s.setLock lock { s.lock lock with locked := 1 }).lock l).cpu =
        (s.lock l).cpu := by
    intro l
    by_cases hl : l = lock
    · rw [hl, State.setLock]
      dsimp only
      rw [Function.update_self]
      exact ⟨iff_of_true one_ne_zero_word htaken, rfl⟩
    · rw [State.setLock]
      dsimp only
      rw [Function.update_of_ne hl]
      exact ⟨Iff.rfl, rfl⟩
  exact
    { proc := h.proc
      locked := fun l => (hlock l).1.trans (h.locked l)
      unique := h.unique
      cpu := fun l c => by
        rw [(hlock l).2]
        exact h.cpu l c }

/-- The `xchg` takes the lock. -/
theorem Inv.takes (h : Inv s) {lock : L} (hpc : (s.proc c).pc = .spin lock)
    (hfree : (s.lock lock).locked = 0) :
    Inv ((s.setLock lock { s.lock lock with locked := 1 }).set c
      { s.proc c with pc := .setCpu lock }) := by
  have hp := h.proc c
  have hnot := h.not_mem_of_free hfree
  have hneutral : (s.proc c).pc.neutral := by
    rw [hpc]
    trivial
  refine h.setLock ?_ (fun l hl => ⟨?_, ?_⟩) (fun c' _ => hnot c') ?_ ?_ ?_
  · refine hp.goes (hp.off (by rw [hpc]; exact id)) rfl (by rw [hpc]; rfl)
      (Nat.zero_le _) (fun hpops => hpops.elim) nofun ?_
    intro l hl
    obtain rfl := Option.some.inj hl
    exact fun hmem => hnot c (.inl hmem)
  · rw [Processor.owns_iff hneutral]
    refine or_iff_left ?_
    rintro (heq | heq)
    · exact hl (Pc.setCpu.inj heq).symm
    · cases heq
  · rw [Processor.named_iff hneutral]
    constructor
    · rintro (⟨hmem, -⟩ | heq)
      · exact hmem
      · cases heq
    · exact fun hmem => .inl ⟨hmem, nofun⟩
  · exact iff_of_true one_ne_zero_word (.inr (.inl rfl))
  · refine iff_of_false (fun heq => hnot c ((h.cpu lock c).mp heq).owns) ?_
    rintro (⟨hmem, -⟩ | heq)
    · exact hnot c (.inl hmem)
    · cases heq
  · exact fun c' _ heq => hnot c' ((h.cpu lock c').mp heq).owns

theorem Inv.setCpu (h : Inv s) {lock : L}
    (hpc : (s.proc c).pc = .setCpu lock) :
    Inv ((s.setLock lock { s.lock lock with cpu := some c }).set c
      { s.proc c with pc := .acqReturn lock }) := by
  have hp := h.proc c
  have hown : (s.proc c).Owns lock := .inr (.inl hpc)
  refine h.setLock ?_ (fun l hl => ⟨?_, ?_⟩) ?_ ?_ ?_ ?_
  · refine hp.goes (hp.off (by rw [hpc]; exact id)) rfl (by rw [hpc]; rfl)
      (Nat.zero_le _) (fun hpops => hpops.elim) nofun ?_
    intro l hl
    apply hp.acquiring
    rw [hpc]
    exact hl
  · refine or_congr Iff.rfl (iff_of_false ?_ ?_)
    · rintro (heq | heq)
      · cases heq
      · exact hl (Pc.acqReturn.inj heq).symm
    · rw [hpc]
      rintro (heq | heq)
      · exact hl (Pc.setCpu.inj heq).symm
      · cases heq
  · refine or_congr (and_congr_right fun _ => ?_) (iff_of_false ?_ ?_)
    · exact iff_of_true nofun (by rw [hpc]; exact nofun)
    · intro heq
      exact hl (Pc.acqReturn.inj heq).symm
    · rw [hpc]
      exact nofun
  · exact fun c' hc hown' => hc (h.unique lock c' c hown' hown)
  · exact iff_of_true ((h.locked lock).mpr ⟨c, hown⟩) (.inr (.inr rfl))
  · exact iff_of_true rfl (.inr rfl)
  · intro c' hc heq
    exact hc (Option.some.inj heq).symm

omit [DecidableEq L] in
theorem Inv.acqReturn (h : Inv s) {lock : L}
    (hpc : (s.proc c).pc = .acqReturn lock) :
    Inv (s.set c { s.proc c with
      pc := .ready, held := lock :: (s.proc c).held }) := by
  have hp := h.proc c
  have hncli := hp.ncli
  have hbound := hp.bound
  have hoff := hp.off (by rw [hpc]; exact id)
  rw [hpc] at hncli hbound
  change _ = _ + _ + 1 at hncli
  change _ + _ + 1 + 0 < _ at hbound
  refine h.set ?_ (fun l => ?_) (fun l => ?_)
  · refine { hp with
      ncli := ?_, bound := ?_, enabled := ?_, pops := ?_, releasing := nofun
      acquiring := nofun, nodup := ?_ }
    · change _ = (s.proc c).pushes + ((s.proc c).held.length + 1) + 0
      omega
    · change (s.proc c).pushes + ((s.proc c).held.length + 1) + 0 + 0 < _
      omega
    · intro hif
      rw [show (s.proc c).cpu.interruptFlag = true from hif] at hoff
      cases hoff
    · exact fun hpops => hpops.elim
    · exact List.nodup_cons.mpr
        ⟨hp.acquiring lock (by rw [hpc]; rfl), hp.nodup⟩
  · rw [Processor.Owns, Processor.Owns, hpc, List.mem_cons]
    constructor
    · rintro ((rfl | hmem) | heq | heq)
      · exact .inr (.inr rfl)
      · exact .inl hmem
      · cases heq
      · cases heq
    · rintro (hmem | heq | heq)
      · exact .inl (.inr hmem)
      · cases heq
      · exact .inl (.inl (Pc.acqReturn.inj heq).symm)
  · rw [Processor.Named, Processor.Named, hpc, List.mem_cons]
    constructor
    · rintro (⟨rfl | hmem, -⟩ | heq)
      · exact .inr rfl
      · exact .inl ⟨hmem, nofun⟩
      · cases heq
    · rintro (⟨hmem, -⟩ | heq)
      · exact .inl ⟨.inr hmem, nofun⟩
      · exact .inl ⟨.inl (Pc.acqReturn.inj heq).symm, nofun⟩

theorem Inv.clearCpu (h : Inv s) {lock : L}
    (hpc : (s.proc c).pc = .clearCpu lock) :
    Inv ((s.setLock lock { s.lock lock with cpu := none }).set c
      { s.proc c with pc := .unlock lock }) := by
  have hp := h.proc c
  have hmem : lock ∈ (s.proc c).held := hp.releasing lock (by rw [hpc]; rfl)
  have hown : (s.proc c).Owns lock := .inl hmem
  refine h.setLock ?_ (fun l hl => ⟨?_, ?_⟩) ?_ ?_ ?_ nofun
  · refine hp.goes (hp.off (by rw [hpc]; exact id)) rfl (by rw [hpc]; rfl)
      (Nat.zero_le _) (fun hpops => hpops.elim) ?_ nofun
    intro l hl
    rw [hpc]
    exact hl
  · refine or_congr Iff.rfl (iff_of_false ?_ ?_)
    · rintro (heq | heq) <;> cases heq
    · rw [hpc]
      rintro (heq | heq) <;> cases heq
  · refine or_congr (and_congr_right fun _ => ?_) (iff_of_false nofun ?_)
    · refine iff_of_true (fun heq => hl (Pc.unlock.inj heq).symm) ?_
      rw [hpc]
      exact nofun
    · rw [hpc]
      exact nofun
  · exact fun c' hc hown' => hc (h.unique lock c' c hown' hown)
  · exact iff_of_true ((h.locked lock).mpr ⟨c, hown⟩) (.inl hmem)
  · refine iff_of_false nofun ?_
    rintro (⟨-, hne⟩ | heq)
    · exact hne rfl
    · cases heq

theorem Inv.unlock (h : Inv s) {lock : L}
    (hpc : (s.proc c).pc = .unlock lock) :
    Inv ((s.setLock lock { s.lock lock with locked := 0 }).set c
      { s.proc c with
        pc := .popTest (some lock), held := (s.proc c).held.erase lock }) := by
  have hp := h.proc c
  have hmem : lock ∈ (s.proc c).held := hp.releasing lock (by rw [hpc]; rfl)
  have hown : (s.proc c).Owns lock := .inl hmem
  have hncli := hp.ncli
  have hbound := hp.bound
  have hoff := hp.off (by rw [hpc]; exact id)
  rw [hpc] at hncli hbound
  change _ = _ + _ + 0 at hncli
  change _ + _ + 0 + 0 < _ at hbound
  have hlength := List.length_erase_of_mem hmem
  have hpos : 0 < (s.proc c).held.length := List.length_pos_of_mem hmem
  have herase : ∀ l ≠ lock, l ∈ (s.proc c).held.erase lock ↔
      l ∈ (s.proc c).held :=
    fun l hl => List.mem_erase_of_ne hl
  have hout : lock ∉ (s.proc c).held.erase lock := hp.nodup.not_mem_erase
  refine h.setLock ?_ (fun l hl => ⟨?_, ?_⟩) ?_ ?_ ?_ ?_
  · refine { hp with
      ncli := ?_, bound := ?_, enabled := ?_, pops := ?_, releasing := nofun
      acquiring := nofun, nodup := hp.nodup.erase lock }
    · change (s.proc c).cpu.ncli.toNat =
        (s.proc c).pushes + ((s.proc c).held.erase lock).length + 1
      omega
    · change (s.proc c).pushes + ((s.proc c).held.erase lock).length + 1 + 0 < _
      omega
    · intro hif
      rw [show (s.proc c).cpu.interruptFlag = true from hif] at hoff
      cases hoff
    · exact fun hpops => hpops.elim
  · refine or_congr (herase l hl) (iff_of_false ?_ ?_)
    · rintro (heq | heq) <;> cases heq
    · rw [hpc]
      rintro (heq | heq) <;> cases heq
  · refine or_congr (and_congr (herase l hl) ?_) (iff_of_false nofun ?_)
    · refine iff_of_true nofun ?_
      rw [hpc]
      exact fun heq => hl (Pc.unlock.inj heq).symm
    · rw [hpc]
      exact nofun
  · exact fun c' hc hown' => hc (h.unique lock c' c hown' hown)
  · refine iff_of_false (fun hne => hne rfl) ?_
    rintro (hin | heq | heq)
    · exact hout hin
    · cases heq
    · cases heq
  · refine iff_of_false (fun heq => ?_) ?_
    · rcases (h.cpu lock c).mp heq with ⟨-, hne⟩ | heq
      · exact hne hpc
      · rw [hpc] at heq
        cases heq
    · rintro (⟨hin, -⟩ | heq)
      · exact hout hin
      · cases heq
  · exact fun c' hc heq =>
      hc (h.unique lock c' c ((h.cpu lock c').mp heq).owns hown)

omit [DecidableEq L] in
theorem Inv.popDec (h : Inv s) {k : Option L}
    (hpc : (s.proc c).pc = .popDec k) :
    Inv (s.set c { s.proc c with
      cpu := { (s.proc c).cpu with ncli := (s.proc c).cpu.ncli - 1 }
      pc := .popSti
      pushes :=
        if k = none then (s.proc c).pushes - 1 else (s.proc c).pushes }) := by
  have hp := h.proc c
  have hncli := hp.ncli
  have hbound := hp.bound
  have hoff := hp.off (by rw [hpc]; exact id)
  have hlevel : 0 < (s.proc c).cpu.ncli.toNat ∧
      (s.proc c).cpu.ncli.toNat - 1 =
        (if k = none then (s.proc c).pushes - 1 else (s.proc c).pushes) +
          (s.proc c).held.length := by
    rw [hpc] at hncli
    cases k with
    | none =>
        have := hp.pops (by rw [hpc]; trivial)
        change _ = _ + _ + 0 at hncli
        rw [if_pos rfl]
        omega
    | some lock =>
        change _ = _ + _ + 1 at hncli
        rw [if_neg nofun]
        omega
  have hpred := toNat_pred_ncli hlevel.1
  refine h.neutral ?_ (by rw [hpc]; trivial) trivial rfl
  refine { hp with
    ncli := ?_, bound := ?_, enabled := ?_, pops := ?_, releasing := nofun
    acquiring := nofun }
  · exact hpred.trans hlevel.2
  · refine lt_of_eq_of_lt hlevel.2.symm ?_
    omega
  · intro hif
    rw [show (s.proc c).cpu.interruptFlag = true from hif] at hoff
    cases hoff
  · exact fun hpops => hpops.elim

omit [DecidableEq L] in
/-- Interrupts go on only where no level is open. -/
theorem Inv.popSti (h : Inv s) (hpc : (s.proc c).pc = .popSti) :
    Inv (s.set c { s.proc c with
      cpu := if (s.proc c).cpu.ncli = 0 then (s.proc c).cpu.sti
        else (s.proc c).cpu
      pc := .ready }) := by
  have hp := h.proc c
  have hncli := hp.ncli
  have hbound := hp.bound
  have hoff := hp.off (by rw [hpc]; exact id)
  rw [hpc] at hncli hbound
  change _ = _ + _ + 0 at hncli
  refine h.neutral ?_ (by rw [hpc]; trivial) trivial rfl
  have hsame : (if (s.proc c).cpu.ncli = 0 then (s.proc c).cpu.sti
      else (s.proc c).cpu).ncli = (s.proc c).cpu.ncli := by
    split <;> rfl
  refine { hp with
    ncli := ?_, bound := hbound, enabled := ?_, pops := ?_, releasing := nofun
    acquiring := nofun }
  · rw [hsame]
    exact hncli
  · intro hif
    have hzero : (s.proc c).cpu.ncli = 0 := by
      by_contra hne
      rw [if_neg hne, hoff] at hif
      cases hif
    have hz : (s.proc c).cpu.ncli.toNat = 0 := by
      rw [hzero]
      rfl
    refine ⟨?_, ?_, trivial⟩
    · change (s.proc c).pushes = 0
      omega
    · apply List.eq_nil_of_length_eq_zero
      change (s.proc c).held.length = 0
      omega
  · exact fun hpops => hpops.elim

theorem Inv.run (h : Inv s) (ht : s.run c = .next t) : Inv t := by
  have hp := h.proc c
  unfold State.run at ht
  dsimp only at ht
  split at ht
  · cases ht
  · next k hpc =>
      rw [← Outcome.next.inj ht]
      exact h.neutral (hp.between (by rw [hpc]; trivial) trivial
        (by rw [hpc]; exact le_rfl)) (by rw [hpc]; trivial) trivial rfl
  · next k eflags hpc =>
      rw [← Outcome.next.inj ht]
      exact h.goes (by rw [hpc]; trivial) trivial (interruptFlag_cli _) rfl
        (by rw [hpc]; rfl) (by rw [hpc]; exact le_rfl) (fun hpops => hpops.elim)
        nofun rfl
  · next k eflags hpc =>
      rw [← Outcome.next.inj ht]
      refine h.goes (by rw [hpc]; trivial) trivial ?_ ?_ (by rw [hpc]; rfl)
        (by rw [hpc]; exact le_rfl) (fun hpops => hpops.elim) nofun rfl
      · have hoff := hp.off (by rw [hpc]; exact id)
        split
        · exact hoff
        · exact hoff
      · split <;> rfl
  · next hpc =>
      rw [← Outcome.next.inj ht]
      exact h.pushcli hpc (.inl ⟨rfl, rfl, rfl⟩)
  · next lock hpc =>
      rw [← Outcome.next.inj ht]
      exact h.pushcli hpc (.inr ⟨lock, rfl, rfl, rfl⟩)
  · next caller lock hpc =>
      split at ht
      · next hfree =>
          obtain ⟨q, hq, rfl⟩ := Outcome.map_eq_next ht
          refine h.answer (.inl hpc) ?_ hq
          exact iff_of_false Bool.false_ne_true
            fun hmem => h.not_mem_of_free hfree c (.inl hmem)
      · rw [← Outcome.next.inj ht]
        cases caller with
        | acquire =>
            exact h.goes (by rw [hpc]; trivial) trivial
              (hp.off (by rw [hpc]; exact id)) rfl (by rw [hpc]; rfl)
              (Nat.zero_le _) (fun hpops => hpops.elim) nofun rfl
        | release =>
            exact h.goes (by rw [hpc]; trivial) trivial
              (hp.off (by rw [hpc]; exact id)) rfl (by rw [hpc]; rfl)
              (Nat.zero_le _) (fun hpops => hpops.elim)
              (fun l hl => by rw [hpc]; exact hl) rfl
        | other =>
            exact h.neutral (hp.between (by rw [hpc]; trivial) trivial
              (Nat.zero_le _)) (by rw [hpc]; trivial) trivial rfl
  · next caller lock hpc =>
      obtain ⟨q, hq, rfl⟩ := Outcome.map_eq_next ht
      exact h.answer (.inr hpc) (h.cpu_iff hpc) hq
  · next lock hpc =>
      split at ht
      · next htaken =>
          rw [← Outcome.next.inj ht]
          exact h.spins htaken
      · next hfree =>
          rw [← Outcome.next.inj ht]
          exact h.takes hpc (not_not.mp hfree)
  · next lock hpc =>
      rw [← Outcome.next.inj ht]
      exact h.setCpu hpc
  · next lock hpc =>
      rw [← Outcome.next.inj ht]
      exact h.acqReturn hpc
  · next lock hpc =>
      rw [← Outcome.next.inj ht]
      exact h.clearCpu hpc
  · next lock hpc =>
      rw [← Outcome.next.inj ht]
      exact h.unlock hpc
  · next k hpc =>
      split at ht
      · cases ht
      · rw [← Outcome.next.inj ht]
        refine h.goes (by rw [hpc]; trivial) trivial
          (hp.off (by rw [hpc]; exact id)) rfl ?_ (Nat.zero_le _) ?_ nofun rfl
        · rw [hpc]
          cases k <;> rfl
        · rw [hpc]
          cases k <;> exact id
  · next k hpc =>
      split at ht
      · cases ht
      · rw [← Outcome.next.inj ht]
        exact h.popDec hpc
  · next hpc =>
      rw [← Outcome.next.inj ht]
      exact h.popSti hpc

/-- Every step of a matched run keeps the invariant. -/
theorem Inv.step {a : Act L} (h : Inv s) (ha : Matched s a)
    (ht : Processors.step s a = .next t) : Inv t := by
  cases a with
  | call c call =>
      simp only [Processors.step] at ht
      split at ht
      · next hpc =>
          rw [← Outcome.next.inj ht]
          refine h.neutral ((h.proc c).call hpc ?_ ?_ ?_) (by rw [hpc]; trivial)
            (by cases call <;> trivial) rfl
          · rintro lock rfl
            exact ha
          · rintro rfl
            exact ha
          · rintro (rfl | ⟨lock, rfl⟩) <;> exact ha
      · cases ht
  | run c => exact h.run ht
  | interrupt c =>
      simp only [Processors.step] at ht
      split at ht
      · next hif =>
          rw [← Outcome.next.inj ht]
          refine h.neutral ((h.proc c).interrupt hif) ?_ trivial rfl
          have hopen := ((h.proc c).enabled hif).2.2
          generalize (s.proc c).pc = pc at hopen
          cases pc <;> trivial
      · cases ht
  | iret c =>
      simp only [Processors.step] at ht
      split at ht
      · next pc eflags suspended hpc hsuspended =>
          rw [← Outcome.next.inj ht]
          refine h.neutral ((h.proc c).iret hpc hsuspended ha.1 ha.2)
            (by rw [hpc]; trivial) ?_ rfl
          have hopen : pc.open := (h.proc c).suspended (pc, eflags) (by
            rw [hsuspended]
            exact List.mem_cons_self)
          cases pc <;> trivial
      · cases ht

theorem Inv.disciplined (h : Inv s) : Disciplined s := by
  constructor
  · exact fun c c' lock hc hc' => h.unique lock c c' (.inl hc) (.inl hc')
  · intro c lock r hr
    simp only [State.returns] at hr
    split at hr
    · next l hpc =>
        split at hr
        · next hfree =>
            obtain ⟨rfl, rfl⟩ := Prod.mk.inj (Option.some.inj hr)
            exact iff_of_false Bool.false_ne_true
              fun hmem => h.not_mem_of_free hfree c (.inl hmem)
        · cases hr
    · next l hpc =>
        obtain ⟨rfl, rfl⟩ := Prod.mk.inj (Option.some.inj hr)
        exact h.cpu_iff hpc
    · cases hr
  · intro c hheld
    have hp := h.proc c
    have hncli := hp.ncli
    have hbound := hp.bound
    have hpos := List.length_pos_iff.mpr hheld
    refine ⟨Bool.eq_false_of_not_eq_true fun hif =>
      hheld (hp.enabled hif).2.1, ?_⟩
    rw [BitVec.toInt_eq_toNat_of_lt (by omega)]
    omega
  · intro c t ht
    simp only [Processors.step] at ht
    split at ht
    · next hif =>
        rw [← Outcome.next.inj ht]
        simp only [State.set, Function.update_self]
        exact ((h.proc c).enabled hif).2.1
    · cases ht
  · intro c lock hpc
    exact (h.proc c).acquiring lock (by rw [hpc]; rfl)

end Machine

/-- Spin locks exclude each other's holders, and keep interrupts off. -/
theorem spinlocks_disciplined {L : Type*} [DecidableEq L] {s t : State L}
    {w : List (Act L)} (hs : Booted s) (hrun : Run step s w t)
    (hw : Meets step Matched s w) : Disciplined t :=
  (hrun.invariant_of_meets (fun _ _ _ hI ha ht => Inv.step hI ha ht) hw
    hs.inv).disciplined

/-- One lock; interrupts are enabled. -/
def State.boot : State Unit where
  proc _ :=
    { cpu := { ncli := 0, intena := 0, eflags := FL_IF }
      pc := .ready, suspended := [], pushes := 0, held := [] }
  lock _ := initlock

theorem State.boot_booted : Booted State.boot where
  ncli _ := rfl
  pc _ := rfl
  suspended _ := rfl
  pushes _ := rfl
  held _ := rfl
  lock _ := rfl

/-- A CPU acquires the lock. -/
def acquired (c : ℕ) : List (Act Unit) :=
  .call c (.acquire ()) :: List.replicate 8 (.run c)

/-- CPU 0 has the lock, and CPU 1 spins. -/
theorem spinlocks_disciplined_two :
    ∃ t, Run step State.boot (acquired 0 ++ acquired 1) t ∧ Disciplined t ∧
      (t.proc 0).held = [()] ∧ (t.proc 1).pc = .spin () := by
  obtain ⟨t, hrun, ht⟩ := Run.exists_of_exec step State.boot
    (acquired 0 ++ acquired 1)
    (fun t => (t.proc 0).held = [()] && (t.proc 1).pc = .spin ())
    (by decide +kernel)
  have hw : Meets step Matched State.boot (acquired 0 ++ acquired 1) := by
    decide +kernel
  simp only [Bool.and_eq_true, decide_eq_true_eq] at ht
  exact ⟨t, hrun, spinlocks_disciplined State.boot_booted hrun hw, ht⟩

/-- A `popcli` that no `pushcli` goes with enables interrupts while the CPU
holds a lock. -/
theorem unmatched_popcli_enables :
    ¬ ∀ (s t : State Unit) (w : List (Act Unit)),
      Booted s → Run step s w t → Meets step Releases s w → Disciplined t := by
  intro h
  obtain ⟨t, hrun, ht⟩ := Run.exists_of_exec step State.boot
    (acquired 0 ++ .call 0 .popcli :: List.replicate 3 (.run 0))
    (fun t => (t.proc 0).held = [()] && (t.proc 0).cpu.interruptFlag)
    (by decide +kernel)
  have hw : Meets step Releases State.boot
      (acquired 0 ++ .call 0 .popcli :: List.replicate 3 (.run 0)) := by
    decide +kernel
  simp only [Bool.and_eq_true, decide_eq_true_eq] at ht
  have hoff := ((h _ t _ State.boot_booted hrun hw).disabled 0 (by
    rw [ht.1]
    exact nofun)).1
  rw [ht.2] at hoff
  cases hoff

end ZtlOs.Processors
