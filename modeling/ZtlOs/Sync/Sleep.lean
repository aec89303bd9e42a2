import ZtlOs.Support.Runs
import Mathlib.Tactic.Common

/-!
# sleep and wakeup

`sleep`, `wakeup` and `sched` of `proc.c`, for processes that wait for
conditions or make them true.  A channel `c` belongs to a condition, which the
lock `lk c` protects.  In `sched` a process gives up its CPU, and `ptable.lock`
is handed on to the scheduler, until the scheduler dispatches the process.
-/

namespace ZtlOs.Sleep

open ZtlOs.Support

inductive ProcState where
  | sleeping
  | runnable
  | running
  deriving DecidableEq

/-- Where a process stands; `c` is the channel. -/
inductive Pc (C : Type*) where
  | idle
  /-- A consumer, before `acquire(lk)`. -/
  | enter (c : C)
  /-- Before `while(!cond)`. -/
  | test (c : C)
  /-- In `sleep`, before `acquire(&ptable.lock)`. -/
  | table (c : C)
  /-- Before `release(lock)`. -/
  | letGo (c : C)
  | setChan (c : C)
  | setState (c : C)
  | sched (c : C)
  /-- Off the CPU. -/
  | off (c : C)
  /-- Before `proc->chan = 0`. -/
  | tidy (c : C)
  | untable (c : C)
  /-- Before `acquire(lock)`. -/
  | again (c : C)
  /-- Behind the loop, with the lock. -/
  | body (c : C)
  /-- A producer, before `acquire(lk)`. -/
  | begin (c : C)
  /-- Before the condition is made true. -/
  | set (c : C)
  /-- In `wakeup`, before `acquire(&ptable.lock)`. -/
  | wakeup (c : C)
  /-- In `wakeup1`, before the test of the loop. -/
  | loop (c : C) (i : ℕ)
  | woken (c : C)
  /-- Before the last `release(lk)`. -/
  | leave (c : C)
  deriving DecidableEq

/-- Who has a spin lock. -/
inductive Owner (n : ℕ) where
  | proc (p : Fin n)
  /-- A CPU in `scheduler`. -/
  | scheduler
  deriving DecidableEq

structure State (n : ℕ) (C L : Type*) where
  cond : C → Bool
  lock : L → Option (Owner n)
  state : Fin n → ProcState
  chan : Fin n → Option C
  /-- The depth of `pushcli`, which is saved while a process is off. -/
  ncli : Fin n → ℕ
  pc : Fin n → Pc C

inductive Act (n : ℕ) (C : Type*) where
  | consume (p : Fin n) (c : C)
  | produce (p : Fin n) (c : C)
  /-- The next step of a process. -/
  | run (p : Fin n)
  /-- A consumer makes a condition false. -/
  | clear (p : Fin n) (c : C)
  /-- A scheduler acquires `ptable.lock`. -/
  | schedule
  | dispatch (p : Fin n)
  /-- A scheduler releases `ptable.lock`. -/
  | unschedule
  deriving DecidableEq

section Step

variable {n : ℕ} {C L : Type*} [DecidableEq C] [DecidableEq L]

def State.setPc (s : State n C L) (p : Fin n) (pc : Pc C) : State n C L :=
  { s with pc := Function.update s.pc p pc }

def State.setLock (s : State n C L) (l : L) (o : Option (Owner n)) :
    State n C L :=
  { s with lock := Function.update s.lock l o }

def State.setNcli (s : State n C L) (p : Fin n) (d : ℕ) : State n C L :=
  { s with ncli := Function.update s.ncli p d }

def State.setCond (s : State n C L) (c : C) (v : Bool) : State n C L :=
  { s with cond := Function.update s.cond c v }

def State.setChan (s : State n C L) (p : Fin n) (c : Option C) : State n C L :=
  { s with chan := Function.update s.chan p c }

def State.setState (s : State n C L) (p : Fin n) (v : ProcState) :
    State n C L :=
  { s with state := Function.update s.state p v }

def State.acquire (s : State n C L) (p : Fin n) (l : L) (pc : Pc C) :
    Outcome (State n C L) :=
  if s.lock l = some (.proc p) then .panic "acquire"
  else if s.lock l ≠ none then .blocked
  else
    .next (((s.setLock l (some (.proc p))).setNcli p (s.ncli p + 1)).setPc p pc)

def State.release (s : State n C L) (p : Fin n) (l : L) (pc : Pc C) :
    Outcome (State n C L) :=
  if s.lock l = some (.proc p) then
    .next (((s.setLock l none).setNcli p (s.ncli p - 1)).setPc p pc)
  else .panic "release"

variable (ptable : L) (lk : C → L)

/-- `sched`, up to the switch to the scheduler.  Interrupts are off as long as
`ncli` is not 0. -/
def State.sched (s : State n C L) (p : Fin n) (pc : Pc C) :
    Outcome (State n C L) :=
  if s.lock ptable ≠ some (.proc p) then .panic "sched ptable.lock"
  else if s.ncli p ≠ 1 then .panic "sched locks"
  else if s.state p = .running then .panic "sched running"
  else .next ((s.setLock ptable (some .scheduler)).setPc p pc)

/-- The body of the loop in `wakeup1`. -/
def State.wake (s : State n C L) (c : C) (q : Fin n) : State n C L :=
  if s.state q = .sleeping ∧ s.chan q = some c then s.setState q .runnable
  else s

def State.run (s : State n C L) (p : Fin n) : Outcome (State n C L) :=
  match s.pc p with
  | .idle => .blocked
  | .enter c => s.acquire p (lk c) (.test c)
  | .test c =>
      if s.cond c then .next (s.setPc p (.body c))
      else if lk c ≠ ptable then .next (s.setPc p (.table c))
      else .next (s.setPc p (.setChan c))
  | .table c => s.acquire p ptable (.letGo c)
  | .letGo c => s.release p (lk c) (.setChan c)
  | .setChan c => .next ((s.setChan p (some c)).setPc p (.setState c))
  | .setState c => .next ((s.setState p .sleeping).setPc p (.sched c))
  | .sched c => s.sched ptable p (.off c)
  | .off _ => .blocked
  | .tidy c =>
      .next ((s.setChan p none).setPc p
        (if lk c ≠ ptable then .untable c else .test c))
  | .untable c => s.release p ptable (.again c)
  | .again c => s.acquire p (lk c) (.test c)
  | .body c => s.release p (lk c) .idle
  | .begin c => s.acquire p (lk c) (.set c)
  | .set c => .next ((s.setCond c true).setPc p (.wakeup c))
  | .wakeup c => s.acquire p ptable (.loop c 0)
  | .loop c i =>
      if h : i < n then .next ((s.wake c ⟨i, h⟩).setPc p (.loop c (i + 1)))
      else .next (s.setPc p (.woken c))
  | .woken c => s.release p ptable (.leave c)
  | .leave c => s.release p (lk c) .idle

def step (s : State n C L) : Act n C → Outcome (State n C L)
  | .consume p c =>
      if s.pc p = .idle then .next (s.setPc p (.enter c)) else .blocked
  | .produce p c =>
      if s.pc p = .idle then .next (s.setPc p (.begin c)) else .blocked
  | .run p => s.run ptable lk p
  | .clear p c =>
      match s.pc p with
      | .body d => if lk d = lk c then .next (s.setCond c false) else .blocked
      | _ => .blocked
  | .schedule =>
      if s.lock ptable = none then
        .next (s.setLock ptable (some .scheduler))
      else .blocked
  | .dispatch p =>
      match s.pc p with
      | .off c =>
          if s.lock ptable = some .scheduler ∧ s.state p = .runnable then
            .next (((s.setLock ptable (some (.proc p))).setState p .running).setPc
              p (.tidy c))
          else .blocked
      | _ => .blocked
  | .unschedule =>
      if s.lock ptable = some .scheduler then .next (s.setLock ptable none)
      else .blocked

omit [DecidableEq C] [DecidableEq L] in
/-- All processes run, outside of the locks. -/
structure Booted (s : State n C L) : Prop where
  lock : ∀ l, s.lock l = none
  state : ∀ p, s.state p = .running
  chan : ∀ p, s.chan p = none
  ncli : ∀ p, s.ncli p = 0
  pc : ∀ p, s.pc p = .idle

/-- A producer is between the change of the condition and the end of its
`wakeup`. -/
def Pc.waking (c : C) : Pc C → Prop
  | .wakeup d => d = c
  | .loop d _ => d = c
  | _ => False

/-- No wakeup is lost; `sleep` returns, to the test of the loop, with its lock
and no other, and with `chan` cleared; and `sched` finds what it asks for. -/
structure NoLostWakeup (s : State n C L) : Prop where
  waking : ∀ p c, s.state p = .sleeping → s.chan p = some c →
    s.cond c = true → ∃ q, s.lock (lk c) = some (.proc q) ∧ (s.pc q).waking c
  returned : ∀ p c, s.pc p = .test c →
    (∀ l, s.lock l = some (.proc p) ↔ l = lk c) ∧ s.chan p = none
  sched : ∀ p c, s.pc p = .sched c →
    ∃ t, step ptable lk s (.run p) = .next t

end Step

/-! ## Places -/

section Places

variable {n : ℕ} {C L : Type*}

/-- The locks that a process has. -/
def Pc.holds (ptable : L) (lk : C → L) : Pc C → List L
  | .test c | .table c | .body c | .set c | .wakeup c | .leave c => [lk c]
  | .letGo c | .loop c _ | .woken c => [lk c, ptable]
  | .setChan _ | .setState _ | .sched _ | .tidy _ | .untable _ => [ptable]
  | _ => []

def Pc.depth : Pc C → ℕ
  | .letGo _ | .loop _ _ | .woken _ => 2
  | .idle | .enter _ | .again _ | .begin _ => 0
  | _ => 1

/-- The lock of the channel is not `ptable.lock` here. -/
def Pc.apart : Pc C → Option C
  | .table c | .letGo c | .untable c | .again c | .loop c _ | .woken c => some c
  | _ => none

def Pc.chan : Pc C → Option C
  | .setState c | .sched c | .off c | .tidy c => some c
  | _ => none

def Pc.admits : Pc C → ProcState → Prop
  | .sched _, v => v = .sleeping
  | .off _, v => v ≠ .running
  | _, v => v = .running

/-- The process has found the condition false and is about to sleep, or
sleeps. -/
def Pc.going (c : C) : Pc C → ProcState → Prop
  | .table d, _ | .letGo d, _ | .setChan d, _ | .setState d, _
  | .sched d, _ => d = c
  | .off d, v => d = c ∧ v = .sleeping
  | _, _ => False

/-- A producer that has still to wake up the process `r`. -/
def Pc.wakes (r : Fin n) (c : C) : Pc C → Prop
  | .wakeup d => d = c
  | .loop d i => d = c ∧ i ≤ r
  | _ => False

variable (ptable : L) (lk : C → L)

structure Inv (s : State n C L) : Prop where
  held : ∀ p l, s.lock l = some (.proc p) ↔ l ∈ (s.pc p).holds ptable lk
  ncli : ∀ p, s.ncli p = (s.pc p).depth
  apart : ∀ p c, (s.pc p).apart = some c → lk c ≠ ptable
  chan : ∀ p, s.chan p = (s.pc p).chan
  state : ∀ p, (s.pc p).admits (s.state p)
  asleep : ∀ r c, (s.pc r).going c (s.state r) → s.cond c = true →
    ∃ q, (s.pc q).wakes r c

variable {ptable lk} {s t : State n C L} {p : Fin n} {pc : Pc C} {l : L}

theorem Booted.inv (h : Booted s) : Inv ptable lk s := by
  constructor
  · intro p l
    rw [h.lock, h.pc]
    exact iff_of_false nofun List.not_mem_nil
  · intro p
    rw [h.ncli, h.pc]
    rfl
  · intro p c
    rw [h.pc]
    exact nofun
  · intro p
    rw [h.chan, h.pc]
    rfl
  · intro p
    rw [h.pc]
    exact h.state p
  · intro r c
    rw [h.pc]
    exact fun hgoing => hgoing.elim

/-- A step of one process, for what is not about the locks. -/
theorem Inv.act (h : Inv ptable lk s)
    (hheld : ∀ q l, t.lock l = some (.proc q) ↔ l ∈ (t.pc q).holds ptable lk)
    (hncli : ∀ q, t.ncli q = (t.pc q).depth)
    (hpc : ∀ q ≠ p, t.pc q = s.pc q)
    (hstate : ∀ q ≠ p, t.state q = s.state q)
    (hchan : ∀ q ≠ p, t.chan q = s.chan q)
    (hapart : ∀ c, (t.pc p).apart = some c → lk c ≠ ptable)
    (hchan' : t.chan p = (t.pc p).chan)
    (hstate' : (t.pc p).admits (t.state p))
    (hcond : ∀ c, t.cond c = true → s.cond c = true ∨ (t.pc p) = .wakeup c)
    (hgoing : ∀ c, (t.pc p).going c (t.state p) → t.cond c = true →
      (s.pc p).going c (s.state p))
    (hwakes : ∀ r c, (s.pc p).wakes r c → (t.pc r).going c (t.state r) →
      (t.pc p).wakes r c) : Inv ptable lk t := by
  constructor
  · exact hheld
  · exact hncli
  · intro q c hq
    by_cases hqp : q = p
    · rw [hqp] at hq
      exact hapart c hq
    · rw [hpc q hqp] at hq
      exact h.apart q c hq
  · intro q
    by_cases hqp : q = p
    · rw [hqp]
      exact hchan'
    · rw [hchan q hqp, hpc q hqp]
      exact h.chan q
  · intro q
    by_cases hqp : q = p
    · rw [hqp]
      exact hstate'
    · rw [hstate q hqp, hpc q hqp]
      exact h.state q
  · intro r c hr hc
    rcases hcond c hc with hold | hnew
    · have hr' : (s.pc r).going c (s.state r) := by
        by_cases hrp : r = p
        · rw [hrp] at hr ⊢
          exact hgoing c hr hc
        · rwa [hpc r hrp, hstate r hrp] at hr
      obtain ⟨q, hq⟩ := h.asleep r c hr' hold
      by_cases hqp : q = p
      · rw [hqp] at hq
        exact ⟨p, hwakes r c hq hr⟩
      · exact ⟨q, by rwa [hpc q hqp]⟩
    · refine ⟨p, ?_⟩
      rw [hnew]
      rfl

/-- The process that has a lock is the only one. -/
theorem Inv.only (h : Inv ptable lk s) {q : Fin n}
    (hp : l ∈ (s.pc p).holds ptable lk) (hq : l ∈ (s.pc q).holds ptable lk) :
    p = q := by
  have hp := (h.held p l).mpr hp
  rw [(h.held q l).mpr hq] at hp
  exact (Owner.proc.inj (Option.some.inj hp)).symm

variable [DecidableEq L]

omit [DecidableEq L] in
theorem ncli_setPc (h : ∀ q, s.ncli q = (s.pc q).depth)
    (hdepth : pc.depth = (s.pc p).depth) (q : Fin n) :
    (s.setPc p pc).ncli q = ((s.setPc p pc).pc q).depth := by
  simp only [State.setPc]
  by_cases hq : q = p
  · rw [hq, Function.update_self, hdepth]
    exact h p
  · rw [Function.update_of_ne hq]
    exact h q

omit [DecidableEq L] in
theorem held_setPc
    (h : ∀ q l, s.lock l = some (.proc q) ↔ l ∈ (s.pc q).holds ptable lk)
    (hholds : pc.holds ptable lk = (s.pc p).holds ptable lk) (q : Fin n)
    (l : L) : (s.setPc p pc).lock l = some (.proc q) ↔
      l ∈ ((s.setPc p pc).pc q).holds ptable lk := by
  simp only [State.setPc]
  by_cases hq : q = p
  · rw [hq, Function.update_self, hholds]
    exact h p l
  · rw [Function.update_of_ne hq]
    exact h q l

theorem ncli_setNcli {d : ℕ} (h : Inv ptable lk s) (hdepth : pc.depth = d)
    (q : Fin n) (o : Option (Owner n)) :
    (((s.setLock l o).setNcli p d).setPc p pc).ncli q =
      ((((s.setLock l o).setNcli p d).setPc p pc).pc q).depth := by
  simp only [State.setPc, State.setNcli, State.setLock]
  by_cases hq : q = p
  · rw [hq, Function.update_self, Function.update_self, hdepth]
  · rw [Function.update_of_ne hq, Function.update_of_ne hq]
    exact h.ncli q

/-- A process acquires a lock, at a place where it is running. -/
theorem Inv.acquire (h : Inv ptable lk s) (ht : s.acquire p l pc = .next t)
    (hholds : ∀ l', l' ∈ pc.holds ptable lk ↔
      l' = l ∨ l' ∈ (s.pc p).holds ptable lk)
    (hdepth : pc.depth = (s.pc p).depth + 1)
    (hapart : ∀ c, pc.apart = some c → l ∉ (s.pc p).holds ptable lk →
      lk c ≠ ptable)
    (hchan : pc.chan = (s.pc p).chan)
    (hstate : ∀ v, (s.pc p).admits v → pc.admits v)
    (hgoing : ∀ c v, pc.going c v → (s.pc p).going c v)
    (hwakes : ∀ (r : Fin n) c, (s.pc p).wakes r c → pc.wakes r c) :
    Inv ptable lk t := by
  simp only [State.acquire] at ht
  split at ht
  · cases ht
  · next hself =>
      split at ht
      · cases ht
      · next hfree =>
          have hfree := not_not.mp hfree
          have hmem : l ∉ (s.pc p).holds ptable lk := fun hmem =>
            hself ((h.held p l).mpr hmem)
          rw [← Outcome.next.inj ht]
          have hpcp : (((s.setLock l (some (.proc p))).setNcli p
              (s.ncli p + 1)).setPc p pc).pc p = pc := Function.update_self ..
          refine h.act (p := p) ?_ ?_ (fun q hq => Function.update_of_ne hq ..)
            (fun _ _ => rfl) (fun _ _ => rfl) ?_ ?_ ?_ (fun _ hc => .inl hc) ?_ ?_
          · intro q l'
            simp only [State.setPc, State.setNcli, State.setLock]
            by_cases hl : l' = l
            · rw [hl, Function.update_self]
              by_cases hq : q = p
              · rw [hq, Function.update_self]
                exact iff_of_true rfl ((hholds l).mpr (.inl rfl))
              · rw [Function.update_of_ne hq]
                refine iff_of_false (fun heq => hq
                  (Owner.proc.inj (Option.some.inj heq)).symm) fun hql => ?_
                rw [(h.held q l).mpr hql] at hfree
                cases hfree
            · rw [Function.update_of_ne hl]
              by_cases hq : q = p
              · rw [hq, Function.update_self, hholds, or_iff_right hl]
                exact h.held p l'
              · rw [Function.update_of_ne hq]
                exact h.held q l'
          · exact fun q => ncli_setNcli h (by rw [hdepth, h.ncli]) q _
          · rw [hpcp]
            exact fun c hc => hapart c hc hmem
          · rw [hpcp, hchan]
            exact h.chan p
          · rw [hpcp]
            exact hstate _ (h.state p)
          · rw [hpcp]
            exact fun c hc _ => hgoing c _ hc
          · rw [hpcp]
            exact fun r c hr _ => hwakes r c hr

/-- A process releases a lock, at a place where it is running. -/
theorem Inv.release (h : Inv ptable lk s) (ht : s.release p l pc = .next t)
    (hholds : ∀ l', l' ∈ pc.holds ptable lk ↔
      l' ≠ l ∧ l' ∈ (s.pc p).holds ptable lk)
    (hdepth : pc.depth = (s.pc p).depth - 1)
    (hapart : ∀ c, pc.apart = some c → (s.pc p).apart = some c)
    (hchan : pc.chan = (s.pc p).chan)
    (hstate : ∀ v, (s.pc p).admits v → pc.admits v)
    (hgoing : ∀ c v, pc.going c v → (s.pc p).going c v)
    (hwakes : ∀ (r : Fin n) c, ¬ (s.pc p).wakes r c) :
    Inv ptable lk t := by
  simp only [State.release] at ht
  split at ht
  · next hself =>
      rw [← Outcome.next.inj ht]
      have hpcp : (((s.setLock l none).setNcli p (s.ncli p - 1)).setPc p pc).pc p =
          pc := Function.update_self ..
      refine h.act (p := p) ?_ ?_ (fun q hq => Function.update_of_ne hq ..)
        (fun _ _ => rfl) (fun _ _ => rfl) ?_ ?_ ?_ (fun _ hc => .inl hc) ?_ ?_
      · intro q l'
        simp only [State.setPc, State.setNcli, State.setLock]
        by_cases hl : l' = l
        · rw [hl, Function.update_self]
          refine iff_of_false nofun ?_
          by_cases hq : q = p
          · rw [hq, Function.update_self, hholds]
            exact fun hand => hand.1 rfl
          · rw [Function.update_of_ne hq]
            intro hql
            have := (h.held q l).mpr hql
            rw [hself] at this
            exact hq (Owner.proc.inj (Option.some.inj this)).symm
        · rw [Function.update_of_ne hl]
          by_cases hq : q = p
          · rw [hq, Function.update_self, hholds, and_iff_right hl]
            exact h.held p l'
          · rw [Function.update_of_ne hq]
            exact h.held q l'
      · exact fun q => ncli_setNcli h (by rw [hdepth, h.ncli]) q _
      · rw [hpcp]
        exact fun c hc => h.apart p c (hapart c hc)
      · rw [hpcp, hchan]
        exact h.chan p
      · rw [hpcp]
        exact hstate _ (h.state p)
      · rw [hpcp]
        exact fun c hc _ => hgoing c _ hc
      · exact fun r c hr _ => absurd hr (hwakes r c)
  · cases ht

omit [DecidableEq L] in
/-- A step that only moves a process on. -/
theorem Inv.setPc (h : Inv ptable lk s)
    (hholds : pc.holds ptable lk = (s.pc p).holds ptable lk)
    (hdepth : pc.depth = (s.pc p).depth)
    (hapart : ∀ c, pc.apart = some c → lk c ≠ ptable)
    (hchan : pc.chan = (s.pc p).chan)
    (hstate : ∀ v, (s.pc p).admits v → pc.admits v)
    (hgoing : ∀ c v, pc.going c v → s.cond c = true → (s.pc p).going c v)
    (hwakes : ∀ (r : Fin n) c, ¬ (s.pc p).wakes r c) :
    Inv ptable lk (s.setPc p pc) := by
  have hpcp : (s.setPc p pc).pc p = pc := Function.update_self ..
  refine h.act (p := p) (held_setPc h.held hholds) (ncli_setPc h.ncli hdepth)
    (fun q hq => Function.update_of_ne hq ..) (fun _ _ => rfl) (fun _ _ => rfl)
    ?_ ?_ ?_ (fun _ hc => .inl hc) ?_ ?_
  · rw [hpcp]
    exact hapart
  · rw [hpcp, hchan]
    exact h.chan p
  · rw [hpcp]
    exact hstate _ (h.state p)
  · rw [hpcp]
    exact fun c hc htrue => hgoing c _ hc htrue
  · exact fun r c hr _ => absurd hr (hwakes r c)

theorem Inv.test [DecidableEq C] {c : C} (h : Inv ptable lk s)
    (hpc : s.pc p = .test c) (ht : s.run ptable lk p = .next t) :
    Inv ptable lk t := by
  simp only [State.run, hpc] at ht
  split at ht
  · rw [← Outcome.next.inj ht]
    exact h.setPc (by rw [hpc]; rfl) (by rw [hpc]; rfl) nofun (by rw [hpc]; rfl)
      (by rw [hpc]; exact fun _ hv => hv) (fun _ _ hgo => hgo.elim)
      (by rw [hpc]; exact fun _ _ => id)
  · next hfalse =>
      split at ht
      · next hne =>
          rw [← Outcome.next.inj ht]
          refine h.setPc (by rw [hpc]; rfl) (by rw [hpc]; rfl) ?_
            (by rw [hpc]; rfl) (by rw [hpc]; exact fun _ hv => hv) ?_
            (by rw [hpc]; exact fun _ _ => id)
          · intro d hd
            rwa [← Option.some.inj hd]
          · rintro d v rfl htrue
            exact absurd htrue hfalse
      · next heq =>
          rw [← Outcome.next.inj ht]
          refine h.setPc ?_ (by rw [hpc]; rfl) nofun
            (by rw [hpc]; rfl) (by rw [hpc]; exact fun _ hv => hv) ?_
            (by rw [hpc]; exact fun _ _ => id)
          · rw [hpc]
            exact congrArg (fun l => [l]) (not_not.mp heq).symm
          · rintro d v rfl htrue
            exact absurd htrue hfalse

omit [DecidableEq L] in
/-- `proc->chan = c`, before and after the sleep. -/
theorem Inv.setChan {v : Option C} (h : Inv ptable lk s)
    (hholds : pc.holds ptable lk = (s.pc p).holds ptable lk)
    (hdepth : pc.depth = (s.pc p).depth)
    (hapart : ∀ c, pc.apart = some c → lk c ≠ ptable)
    (hchan : v = pc.chan)
    (hstate : ∀ v, (s.pc p).admits v → pc.admits v)
    (hgoing : ∀ c v, pc.going c v → (s.pc p).going c v)
    (hwakes : ∀ (r : Fin n) c, ¬ (s.pc p).wakes r c) :
    Inv ptable lk ((s.setChan p v).setPc p pc) := by
  have hpcp : ((s.setChan p v).setPc p pc).pc p = pc := Function.update_self ..
  have hheld := held_setPc (s := s) (p := p) h.held hholds
  have hncli := ncli_setPc (s := s) (p := p) h.ncli hdepth
  refine h.act (p := p) hheld hncli
    (fun q hq => Function.update_of_ne hq ..) (fun _ _ => rfl)
    (fun q hq => Function.update_of_ne hq ..) ?_ ?_ ?_
    (fun _ hc => .inl hc) ?_ ?_
  · rw [hpcp]
    exact hapart
  · rw [hpcp, ← hchan]
    exact Function.update_self ..
  · rw [hpcp]
    exact hstate _ (h.state p)
  · rw [hpcp]
    exact fun c hc _ => hgoing c _ hc
  · exact fun r c hr _ => absurd hr (hwakes r c)

omit [DecidableEq L] in
theorem Inv.setState {c : C} (h : Inv ptable lk s)
    (hpc : s.pc p = .setState c) :
    Inv ptable lk ((s.setState p .sleeping).setPc p (.sched c)) := by
  have hpcp : ((s.setState p .sleeping).setPc p (.sched c)).pc p = .sched c :=
    Function.update_self ..
  have hheld := held_setPc (p := p) h.held
    (show (Pc.sched c).holds ptable lk = (s.pc p).holds ptable lk by
      rw [hpc]
      rfl)
  have hncli := ncli_setPc (p := p) h.ncli
    (show (Pc.sched c).depth = (s.pc p).depth by
      rw [hpc]
      rfl)
  refine h.act (p := p) hheld hncli
    (fun q hq => Function.update_of_ne hq ..)
    (fun q hq => Function.update_of_ne hq ..) (fun _ _ => rfl) ?_ ?_ ?_
    (fun _ hc => .inl hc) ?_ ?_
  · rw [hpcp]
    exact nofun
  · rw [hpcp]
    refine (h.chan p).trans ?_
    rw [hpc]
    rfl
  · rw [hpcp]
    exact Function.update_self ..
  · rw [hpcp, hpc]
    exact fun d hd _ => hd
  · rw [hpc]
    exact fun _ _ hr _ => hr.elim

/-- The lock of the process table goes from a process to the scheduler. -/
theorem Inv.off {c : C} (h : Inv ptable lk s) (hpc : s.pc p = .sched c) :
    Inv ptable lk
      ((s.setLock ptable (some .scheduler)).setPc p (.off c)) := by
  have hpcp : ((s.setLock ptable (some .scheduler)).setPc p (.off c)).pc p =
    .off c := Function.update_self ..
  have hncli := ncli_setPc (p := p) h.ncli
    (show (Pc.off c).depth = (s.pc p).depth by
      rw [hpc]
      rfl)
  have hmem : ptable ∈ (s.pc p).holds ptable lk := by
    rw [hpc]
    exact List.mem_singleton_self ptable
  have hsleeping : s.state p = .sleeping := by
    have := h.state p
    rwa [hpc] at this
  refine h.act (p := p) ?_ hncli (fun q hq => Function.update_of_ne hq ..)
    (fun _ _ => rfl) (fun _ _ => rfl) ?_ ?_ ?_ (fun _ hc => .inl hc) ?_ ?_
  · intro q l
    simp only [State.setPc, State.setLock]
    by_cases hl : l = ptable
    · rw [hl, Function.update_self]
      refine iff_of_false nofun ?_
      by_cases hq : q = p
      · rw [hq, Function.update_self]
        exact List.not_mem_nil
      · rw [Function.update_of_ne hq]
        exact fun hmem' => hq (h.only hmem' hmem)
    · rw [Function.update_of_ne hl]
      by_cases hq : q = p
      · rw [hq, Function.update_self, h.held, hpc]
        exact iff_of_false (fun hmem' => hl (List.mem_singleton.mp hmem'))
          List.not_mem_nil
      · rw [Function.update_of_ne hq]
        exact h.held q l
  · rw [hpcp]
    exact nofun
  · rw [hpcp]
    refine (h.chan p).trans ?_
    rw [hpc]
    rfl
  · rw [hpcp]
    change s.state p ≠ .running
    rw [hsleeping]
    exact nofun
  · rw [hpcp, hpc]
    exact fun d hd _ => hd.1
  · rw [hpc]
    exact fun _ _ hr _ => hr.elim

/-- The scheduler hands the lock of the process table on to a process. -/
theorem Inv.dispatch {c : C} (h : Inv ptable lk s) (hpc : s.pc p = .off c)
    (hlock : s.lock ptable = some .scheduler) :
    Inv ptable lk (((s.setLock ptable (some (.proc p))).setState p
      .running).setPc p (.tidy c)) := by
  have hpcp : (((s.setLock ptable (some (.proc p))).setState p
      .running).setPc p (.tidy c)).pc p = .tidy c := Function.update_self ..
  have hncli := ncli_setPc (p := p) h.ncli
    (show (Pc.tidy c).depth = (s.pc p).depth by
      rw [hpc]
      rfl)
  refine h.act (p := p) ?_ hncli (fun q hq => Function.update_of_ne hq ..)
    (fun q hq => Function.update_of_ne hq ..) (fun _ _ => rfl) ?_ ?_ ?_
    (fun _ hc => .inl hc) ?_ ?_
  · intro q l
    simp only [State.setPc, State.setState, State.setLock]
    by_cases hl : l = ptable
    · rw [hl, Function.update_self]
      by_cases hq : q = p
      · rw [hq, Function.update_self]
        exact iff_of_true rfl (List.mem_singleton_self ptable)
      · rw [Function.update_of_ne hq]
        refine iff_of_false (fun heq =>
          hq (Owner.proc.inj (Option.some.inj heq)).symm) fun hmem => ?_
        rw [(h.held q ptable).mpr hmem] at hlock
        cases hlock
    · rw [Function.update_of_ne hl]
      by_cases hq : q = p
      · rw [hq, Function.update_self, h.held, hpc]
        exact iff_of_false List.not_mem_nil
          fun hmem => hl (List.mem_singleton.mp hmem)
      · rw [Function.update_of_ne hq]
        exact h.held q l
  · rw [hpcp]
    exact nofun
  · rw [hpcp]
    refine (h.chan p).trans ?_
    rw [hpc]
    rfl
  · rw [hpcp]
    exact Function.update_self ..
  · rw [hpcp]
    exact fun _ hd _ => hd.elim
  · rw [hpc]
    exact fun _ _ hr _ => hr.elim

/-- A step of a scheduler that has nothing to do with a process. -/
theorem Inv.scheduler {o : Option (Owner n)} (h : Inv ptable lk s)
    (hold : ∀ q, s.lock ptable ≠ some (.proc q)) (hnew : ∀ q, o ≠ some (.proc q)) :
    Inv ptable lk (s.setLock ptable o) := by
  refine { h with held := ?_ }
  intro q l
  simp only [State.setLock]
  by_cases hl : l = ptable
  · rw [hl, Function.update_self]
    exact iff_of_false (hnew q) fun hmem => hold q ((h.held q ptable).mpr hmem)
  · rw [Function.update_of_ne hl]
    exact h.held q l

/-! ### Conditions and wakeups -/

variable [DecidableEq C]

omit [DecidableEq L] in
theorem Inv.clear (h : Inv ptable lk s) (c : C) :
    Inv ptable lk (s.setCond c false) := by
  refine { h with asleep := ?_ }
  intro r d hr hd
  by_cases hdc : d = c
  · rw [hdc] at hd
    simp only [State.setCond, Function.update_self] at hd
    cases hd
  · simp only [State.setCond, Function.update_of_ne hdc] at hd
    exact h.asleep r d hr hd

omit [DecidableEq L] in
theorem Inv.set {c : C} (h : Inv ptable lk s) (hpc : s.pc p = .set c) :
    Inv ptable lk ((s.setCond c true).setPc p (.wakeup c)) := by
  have hpcp : ((s.setCond c true).setPc p (.wakeup c)).pc p = .wakeup c :=
    Function.update_self ..
  have hheld := held_setPc (p := p) h.held
    (show (Pc.wakeup c).holds ptable lk = (s.pc p).holds ptable lk by
      rw [hpc]
      rfl)
  have hncli := ncli_setPc (p := p) h.ncli
    (show (Pc.wakeup c).depth = (s.pc p).depth by
      rw [hpc]
      rfl)
  refine h.act (p := p) hheld hncli (fun q hq => Function.update_of_ne hq ..)
    (fun _ _ => rfl) (fun _ _ => rfl) ?_ ?_ ?_ ?_ ?_ ?_
  · rw [hpcp]
    exact nofun
  · rw [hpcp]
    refine (h.chan p).trans ?_
    rw [hpc]
    rfl
  · rw [hpcp]
    have := h.state p
    rwa [hpc] at this
  · intro d hd
    by_cases hdc : d = c
    · right
      rw [hpcp, hdc]
    · left
      simp only [State.setPc, State.setCond, Function.update_of_ne hdc] at hd
      exact hd
  · rw [hpcp]
    exact fun _ hd _ => hd.elim
  · rw [hpc]
    exact fun _ _ hr _ => hr.elim

omit [DecidableEq L] in
/-- A sleeper that is found by the loop is off its CPU. -/
theorem Inv.wake {c : C} {i : ℕ} (h : Inv ptable lk s)
    (hpc : s.pc p = .loop c i) (q : Fin n) : Inv ptable lk (s.wake c q) := by
  simp only [State.wake]
  split
  · next hsleep =>
      -- whoever is still in `sleep` has the lock that `p` has
      have hmem : ptable ∈ (s.pc p).holds ptable lk := by
        rw [hpc]
        exact List.mem_cons_of_mem _ (List.mem_singleton_self ptable)
      have hoff : s.pc q = .off c := by
        have hchan := h.chan q
        have hstate := h.state q
        rw [hsleep.2] at hchan
        rw [hsleep.1] at hstate
        cases hq : s.pc q with
        | off d =>
            rw [hq] at hchan
            rw [← Option.some.inj hchan]
        | sched d =>
            have hmem' : ptable ∈ (s.pc q).holds ptable lk := by
              rw [hq]
              exact List.mem_singleton_self ptable
            rw [h.only hmem' hmem, hpc] at hq
            cases hq
        | _ =>
            rw [hq] at hstate
            cases hstate
      refine { h with state := ?_, asleep := ?_ }
      · intro r
        simp only [State.setState]
        by_cases hr : r = q
        · rw [hr, Function.update_self, hoff]
          exact nofun
        · rw [Function.update_of_ne hr]
          exact h.state r
      · intro r d hr hd
        refine h.asleep r d ?_ hd
        simp only [State.setState] at hr
        by_cases hrq : r = q
        · rw [hrq, Function.update_self, hoff] at hr
          cases hr.2
        · rwa [Function.update_of_ne hrq] at hr
  · exact h

omit [DecidableEq L] in
/-- Behind the body of the loop, its process neither sleeps on the channel nor
is about to. -/
theorem Inv.not_going {c : C} {i : ℕ} {q : Fin n}
    (h : Inv ptable lk (s.wake c q)) (hpc : (s.wake c q).pc p = .loop c i)
    (hqp : q ≠ p) :
    ¬ ((s.wake c q).pc q).going c ((s.wake c q).state q) := by
  have hlk : lk c ∈ ((s.wake c q).pc p).holds ptable lk := by
    rw [hpc]
    exact List.mem_cons_self
  have htable : ptable ∈ ((s.wake c q).pc p).holds ptable lk := by
    rw [hpc]
    exact List.mem_cons_of_mem _ (List.mem_singleton_self ptable)
  intro hgoing
  cases hq : (s.wake c q).pc q with
  | table d =>
      rw [hq] at hgoing
      obtain rfl := hgoing
      refine hqp (h.only ?_ hlk)
      rw [hq]
      exact List.mem_singleton_self (lk d)
  | letGo d =>
      rw [hq] at hgoing
      obtain rfl := hgoing
      refine hqp (h.only ?_ hlk)
      rw [hq]
      exact List.mem_cons_self
  | setChan d =>
      refine hqp (h.only ?_ htable)
      rw [hq]
      exact List.mem_singleton_self ptable
  | setState d =>
      refine hqp (h.only ?_ htable)
      rw [hq]
      exact List.mem_singleton_self ptable
  | sched d =>
      refine hqp (h.only ?_ htable)
      rw [hq]
      exact List.mem_singleton_self ptable
  | off d =>
      rw [hq] at hgoing
      obtain ⟨rfl, hsleeping⟩ := hgoing
      have hchan := h.chan q
      rw [hq] at hchan
      simp only [State.wake] at hsleeping hchan
      split at hsleeping
      · simp only [State.setState, Function.update_self] at hsleeping
        cases hsleeping
      · next hnot =>
          rw [if_neg hnot] at hchan
          exact hnot ⟨hsleeping, hchan⟩
  | _ =>
      rw [hq] at hgoing
      exact hgoing

omit [DecidableEq L] in
/-- The loop of `wakeup1` goes on to the next process. -/
theorem Inv.loop {c : C} {i : ℕ} (h : Inv ptable lk s)
    (hpc : s.pc p = .loop c i) (hi : i < n) :
    Inv ptable lk ((s.wake c ⟨i, hi⟩).setPc p (.loop c (i + 1))) := by
  have hw := h.wake hpc ⟨i, hi⟩
  have hpc' : (s.wake c ⟨i, hi⟩).pc p = .loop c i := by
    simp only [State.wake]
    split
    · exact hpc
    · exact hpc
  have hpcp : ((s.wake c ⟨i, hi⟩).setPc p (.loop c (i + 1))).pc p =
    .loop c (i + 1) := Function.update_self ..
  have hheld := held_setPc (p := p) hw.held
    (show (Pc.loop c (i + 1)).holds ptable lk =
      ((s.wake c ⟨i, hi⟩).pc p).holds ptable lk by
      rw [hpc']
      rfl)
  have hncli := ncli_setPc (p := p) hw.ncli
    (show (Pc.loop c (i + 1)).depth = ((s.wake c ⟨i, hi⟩).pc p).depth by
      rw [hpc']
      rfl)
  refine hw.act (p := p) hheld hncli (fun q hq => Function.update_of_ne hq ..)
    (fun _ _ => rfl) (fun _ _ => rfl) ?_ ?_ ?_ (fun _ hc => .inl hc) ?_ ?_
  · rw [hpcp]
    intro d hd
    apply hw.apart p d
    rw [hpc']
    exact hd
  · rw [hpcp]
    refine (hw.chan p).trans ?_
    rw [hpc']
    rfl
  · rw [hpcp]
    have := hw.state p
    rwa [hpc'] at this
  · rw [hpcp]
    exact fun _ hd _ => hd.elim
  · intro r d hr hgoing
    rw [hpc'] at hr
    obtain ⟨rfl, hle⟩ := hr
    rw [hpcp]
    refine ⟨rfl, ?_⟩
    by_contra hlt
    -- the process `i` does not sleep any more
    have hri : r = ⟨i, hi⟩ := Fin.ext (show r.val = i by omega)
    have hrp : r ≠ p := by
      rintro rfl
      rw [hpcp] at hgoing
      exact hgoing
    have hpcr : ((s.wake c ⟨i, hi⟩).setPc p (.loop c (i + 1))).pc r =
        (s.wake c ⟨i, hi⟩).pc r := Function.update_of_ne hrp ..
    rw [hpcr] at hgoing
    subst hri
    exact hw.not_going hpc' hrp hgoing

theorem Inv.run (h : Inv ptable lk s) (ht : s.run ptable lk p = .next t) :
    Inv ptable lk t := by
  cases hpc : s.pc p with
  | idle =>
      simp only [State.run, hpc] at ht
      cases ht
  | enter c =>
      simp only [State.run, hpc] at ht
      refine h.acquire ht ?_ (by rw [hpc]; rfl) nofun (by rw [hpc]; rfl)
        (by rw [hpc]; exact fun _ hv => hv) (fun _ _ hgo => hgo.elim)
        (by rw [hpc]; exact fun _ _ hr => hr.elim)
      rw [hpc]
      exact fun l' => List.mem_cons
  | test c => exact h.test hpc ht
  | table c =>
      have hne := h.apart p c (by rw [hpc]; rfl)
      simp only [State.run, hpc] at ht
      refine h.acquire ht ?_ (by rw [hpc]; rfl) ?_ (by rw [hpc]; rfl)
        (by rw [hpc]; exact fun _ hv => hv) (by rw [hpc]; exact fun _ _ hgo => hgo)
        (by rw [hpc]; exact fun _ _ hr => hr.elim)
      · rw [hpc]
        intro l'
        simp only [Pc.holds, List.mem_cons, List.not_mem_nil, or_false]
        exact or_comm
      · intro d hd _
        rwa [← Option.some.inj hd]
  | letGo c =>
      have hne := h.apart p c (by rw [hpc]; rfl)
      simp only [State.run, hpc] at ht
      refine h.release ht ?_ (by rw [hpc]; rfl) nofun (by rw [hpc]; rfl)
        (by rw [hpc]; exact fun _ hv => hv) (by rw [hpc]; exact fun _ _ hgo => hgo)
        (by rw [hpc]; exact fun _ _ => id)
      rw [hpc]
      intro l'
      simp only [Pc.holds, List.mem_cons, List.not_mem_nil, or_false]
      constructor
      · rintro rfl
        exact ⟨hne.symm, .inr rfl⟩
      · exact fun hand => hand.2.resolve_left hand.1
  | setChan c =>
      simp only [State.run, hpc] at ht
      rw [← Outcome.next.inj ht]
      exact h.setChan (by rw [hpc]; rfl) (by rw [hpc]; rfl) nofun rfl
        (by rw [hpc]; exact fun _ hv => hv) (by rw [hpc]; exact fun _ _ hgo => hgo)
        (by rw [hpc]; exact fun _ _ => id)
  | setState c =>
      simp only [State.run, hpc] at ht
      rw [← Outcome.next.inj ht]
      exact h.setState hpc
  | sched c =>
      simp only [State.run, hpc, State.sched] at ht
      split_ifs at ht
      rw [← Outcome.next.inj ht]
      exact h.off hpc
  | off c =>
      simp only [State.run, hpc] at ht
      cases ht
  | tidy c =>
      simp only [State.run, hpc] at ht
      rw [← Outcome.next.inj ht]
      split
      · next hne =>
          refine h.setChan (by rw [hpc]; rfl) (by rw [hpc]; rfl) ?_ rfl
            (by rw [hpc]; exact fun _ hv => hv) (fun _ _ hgo => hgo.elim)
            (by rw [hpc]; exact fun _ _ => id)
          intro d hd
          rwa [← Option.some.inj hd]
      · next heq =>
          refine h.setChan ?_ (by rw [hpc]; rfl) nofun rfl
            (by rw [hpc]; exact fun _ hv => hv) (fun _ _ hgo => hgo.elim)
            (by rw [hpc]; exact fun _ _ => id)
          rw [hpc]
          exact congrArg (fun l => [l]) (not_not.mp heq)
  | untable c =>
      have hne := h.apart p c (by rw [hpc]; rfl)
      simp only [State.run, hpc] at ht
      refine h.release ht ?_ (by rw [hpc]; rfl) ?_ (by rw [hpc]; rfl)
        (by rw [hpc]; exact fun _ hv => hv) (fun _ _ hgo => hgo.elim)
        (by rw [hpc]; exact fun _ _ => id)
      · rw [hpc]
        intro l'
        simp only [Pc.holds, List.mem_cons, List.not_mem_nil, or_false]
        exact iff_of_false id fun hand => hand.1 hand.2
      · rw [hpc]
        exact fun _ hd => hd
  | again c =>
      simp only [State.run, hpc] at ht
      refine h.acquire ht ?_ (by rw [hpc]; rfl) nofun (by rw [hpc]; rfl)
        (by rw [hpc]; exact fun _ hv => hv) (fun _ _ hgo => hgo.elim)
        (by rw [hpc]; exact fun _ _ hr => hr.elim)
      rw [hpc]
      exact fun l' => List.mem_cons
  | body c =>
      simp only [State.run, hpc] at ht
      refine h.release ht ?_ (by rw [hpc]; rfl) nofun (by rw [hpc]; rfl)
        (by rw [hpc]; exact fun _ hv => hv) (fun _ _ hgo => hgo.elim)
        (by rw [hpc]; exact fun _ _ => id)
      rw [hpc]
      intro l'
      simp only [Pc.holds, List.mem_cons, List.not_mem_nil, or_false]
      exact iff_of_false id fun hand => hand.1 hand.2
  | begin c =>
      simp only [State.run, hpc] at ht
      refine h.acquire ht ?_ (by rw [hpc]; rfl) nofun (by rw [hpc]; rfl)
        (by rw [hpc]; exact fun _ hv => hv) (fun _ _ hgo => hgo.elim)
        (by rw [hpc]; exact fun _ _ hr => hr.elim)
      rw [hpc]
      exact fun l' => List.mem_cons
  | set c =>
      simp only [State.run, hpc] at ht
      rw [← Outcome.next.inj ht]
      exact h.set hpc
  | wakeup c =>
      simp only [State.run, hpc] at ht
      refine h.acquire ht ?_ (by rw [hpc]; rfl) ?_ (by rw [hpc]; rfl)
        (by rw [hpc]; exact fun _ hv => hv) (fun _ _ hgo => hgo.elim) ?_
      · rw [hpc]
        intro l'
        simp only [Pc.holds, List.mem_cons, List.not_mem_nil, or_false]
        exact or_comm
      · rw [hpc]
        intro d hd hnot heq
        rw [← Option.some.inj hd] at heq
        exact hnot (by rw [← heq]; exact List.mem_singleton_self (lk c))
      · rw [hpc]
        exact fun r d hr => ⟨hr, Nat.zero_le _⟩
  | loop c i =>
      simp only [State.run, hpc] at ht
      split at ht
      · next hi =>
          rw [← Outcome.next.inj ht]
          exact h.loop hpc hi
      · next hi =>
          rw [← Outcome.next.inj ht]
          refine h.setPc (by rw [hpc]; rfl) (by rw [hpc]; rfl) ?_
            (by rw [hpc]; rfl) (by rw [hpc]; exact fun _ hv => hv)
            (fun _ _ hgo => hgo.elim) ?_
          · intro d hd
            apply h.apart p d
            rw [hpc]
            exact hd
          · rw [hpc]
            rintro r d ⟨-, hle⟩
            have := r.isLt
            omega
  | woken c =>
      have hne := h.apart p c (by rw [hpc]; rfl)
      simp only [State.run, hpc] at ht
      refine h.release ht ?_ (by rw [hpc]; rfl) nofun (by rw [hpc]; rfl)
        (by rw [hpc]; exact fun _ hv => hv) (fun _ _ hgo => hgo.elim)
        (by rw [hpc]; exact fun _ _ => id)
      rw [hpc]
      intro l'
      simp only [Pc.holds, List.mem_cons, List.not_mem_nil, or_false]
      constructor
      · rintro rfl
        exact ⟨hne, .inl rfl⟩
      · exact fun hand => hand.2.resolve_right hand.1
  | leave c =>
      simp only [State.run, hpc] at ht
      refine h.release ht ?_ (by rw [hpc]; rfl) nofun (by rw [hpc]; rfl)
        (by rw [hpc]; exact fun _ hv => hv) (fun _ _ hgo => hgo.elim)
        (by rw [hpc]; exact fun _ _ => id)
      rw [hpc]
      intro l'
      simp only [Pc.holds, List.mem_cons, List.not_mem_nil, or_false]
      exact iff_of_false id fun hand => hand.1 hand.2

theorem Inv.step {a : Act n C} (h : Inv ptable lk s)
    (ht : Sleep.step ptable lk s a = .next t) : Inv ptable lk t := by
  cases a with
  | consume p c =>
      simp only [Sleep.step] at ht
      split at ht
      · next hpc =>
          rw [← Outcome.next.inj ht]
          exact h.setPc (by rw [hpc]; rfl) (by rw [hpc]; rfl) nofun
            (by rw [hpc]; rfl) (by rw [hpc]; exact fun _ hv => hv)
            (fun _ _ hgo => hgo.elim) (by rw [hpc]; exact fun _ _ => id)
      · cases ht
  | produce p c =>
      simp only [Sleep.step] at ht
      split at ht
      · next hpc =>
          rw [← Outcome.next.inj ht]
          exact h.setPc (by rw [hpc]; rfl) (by rw [hpc]; rfl) nofun
            (by rw [hpc]; rfl) (by rw [hpc]; exact fun _ hv => hv)
            (fun _ _ hgo => hgo.elim) (by rw [hpc]; exact fun _ _ => id)
      · cases ht
  | run p => exact h.run ht
  | clear p c =>
      simp only [Sleep.step] at ht
      split at ht
      · split at ht
        · rw [← Outcome.next.inj ht]
          exact h.clear c
        · cases ht
      · cases ht
  | schedule =>
      simp only [Sleep.step] at ht
      split at ht
      · next hfree =>
          rw [← Outcome.next.inj ht]
          exact h.scheduler (by rw [hfree]; exact nofun) nofun
      · cases ht
  | dispatch p =>
      simp only [Sleep.step] at ht
      split at ht
      · next c hpc =>
          split at ht
          · next hready =>
              rw [← Outcome.next.inj ht]
              exact h.dispatch hpc hready.1
          · cases ht
      · cases ht
  | unschedule =>
      simp only [Sleep.step] at ht
      split at ht
      · next hlock =>
          rw [← Outcome.next.inj ht]
          exact h.scheduler (by rw [hlock]; exact nofun) nofun
      · cases ht

theorem Inv.noLostWakeup (h : Inv ptable lk s) : NoLostWakeup ptable lk s := by
  constructor
  · intro r c hsleeping hchan hcond
    have hgoing : (s.pc r).going c (s.state r) := by
      have hchan' := h.chan r
      have hstate := h.state r
      rw [hchan] at hchan'
      rw [hsleeping] at hstate
      cases hr : s.pc r with
      | off d =>
          rw [hr] at hchan'
          exact ⟨(Option.some.inj hchan').symm, hsleeping⟩
      | sched d =>
          rw [hr] at hchan'
          exact (Option.some.inj hchan').symm
      | _ =>
          rw [hr] at hstate
          cases hstate
    obtain ⟨q, hq⟩ := h.asleep r c hgoing hcond
    refine ⟨q, (h.held q (lk c)).mpr ?_, ?_⟩
    · cases hpc : s.pc q with
      | wakeup d =>
          rw [hpc] at hq
          obtain rfl := hq
          exact List.mem_singleton_self (lk d)
      | loop d i =>
          rw [hpc] at hq
          obtain ⟨rfl, -⟩ := hq
          exact List.mem_cons_self
      | _ =>
          rw [hpc] at hq
          exact hq.elim
    · cases hpc : s.pc q with
      | wakeup d =>
          rw [hpc] at hq
          exact hq
      | loop d i =>
          rw [hpc] at hq
          exact hq.1
      | _ =>
          rw [hpc] at hq
          exact hq.elim
  · intro p c hpc
    constructor
    · intro l
      rw [h.held, hpc]
      exact List.mem_singleton
    · rw [h.chan, hpc]
      rfl
  · intro p c hpc
    have hlock := (h.held p ptable).mpr (by
      rw [hpc]
      exact List.mem_singleton_self ptable)
    have hncli := h.ncli p
    have hstate := h.state p
    rw [hpc] at hncli hstate
    refine ⟨(s.setLock ptable (some .scheduler)).setPc p (.off c), ?_⟩
    simp only [Sleep.step, State.run, hpc, State.sched]
    rw [if_neg (fun hne => hne hlock), if_neg (fun hne => hne hncli), if_neg]
    intro heq
    rw [show s.state p = .sleeping from hstate] at heq
    cases heq

end Places

/-- Two processes, one condition, and the locks `true` of the process table and
`false` of the condition. -/
def State.boot : State 2 Unit Bool where
  cond _ := false
  lock _ := none
  state _ := .running
  chan _ := none
  ncli _ := 0
  pc _ := .idle

theorem State.boot_booted : Booted State.boot where
  lock _ := rfl
  state _ := rfl
  chan _ := rfl
  ncli _ := rfl
  pc _ := rfl

/-- Process 0 sleeps until process 1 has made the condition true. -/
def handshake : List (Act 2 Unit) :=
  .consume 0 () :: List.replicate 7 (.run 0) ++
    .unschedule :: .produce 1 () :: List.replicate 8 (.run 1) ++
    .schedule :: .dispatch 0 :: List.replicate 3 (.run 0)

end ZtlOs.Sleep
