import ZtlOs.Support.Runs
import ZtlOs.Support.Ring

/-!
# Pipes

`pipewrite`, `piperead` and `pipeclose` of `pipe.c` for any number of
processes.  Taking and dropping `p->lock` and every turn of a loop in between
are steps of their own.  A sleeping process may go on at any time, whether it
has been woken up or not, so that `wakeup` has no effect of its own.
-/

namespace ZtlOs.Pipes

open ZtlOs.Support

def PIPESIZE : ℕ := 512

instance : NeZero PIPESIZE := ⟨by decide⟩

/-- `struct pipe` without its lock. -/
structure Pipe where
  data : Fin PIPESIZE → BitVec 8
  nread : BitVec 32
  nwrite : BitVec 32
  readopen : Bool
  writeopen : Bool

/-- Where a process stands in its call.  The arguments `addr` of a write are
the bytes from that address on. -/
inductive Pc where
  | idle
  /-- At the test of the loop of `pipewrite`, with the lock. -/
  | write (addr : ℕ → BitVec 8) (n : ℤ) (i : ℕ)
  | writeSleep (addr : ℕ → BitVec 8) (n : ℤ) (i : ℕ)
  /-- At the test of the first loop of `piperead`, with the lock. -/
  | read (n : ℤ)
  | readSleep (n : ℤ)
  /-- At the test of the second loop of `piperead`, with the lock. -/
  | copy (n : ℤ) (buf : List (BitVec 8))

structure State (P : Type*) where
  pipe : Pipe
  lock : Option P
  killed : P → Bool
  pc : P → Pc

inductive Act (P : Type*) where
  | pipewrite (p : P) (addr : ℕ → BitVec 8) (n : ℤ)
  | piperead (p : P) (n : ℤ)
  | pipeclose (writable : Bool)
  | kill (p : P)
  /-- The next step of a call. -/
  | run (p : P)

def Pipe.full (pipe : Pipe) : Prop :=
  pipe.nwrite = pipe.nread + BitVec.ofNat 32 PIPESIZE

def Pipe.empty (pipe : Pipe) : Prop :=
  pipe.nread = pipe.nwrite

instance (pipe : Pipe) : Decidable pipe.full :=
  inferInstanceAs (Decidable (_ = _))

instance (pipe : Pipe) : Decidable pipe.empty :=
  inferInstanceAs (Decidable (_ = _))

/-- When both ends are closed, the page of the pipe is freed, and no process
has the pipe any more. -/
def Pipe.allocated (pipe : Pipe) : Bool :=
  pipe.readopen || pipe.writeopen

/-- `p->data[p->nwrite++ % PIPESIZE] = c` -/
def Pipe.put (pipe : Pipe) (c : BitVec 8) : Pipe :=
  { pipe with
    data := Function.update pipe.data (Ring.cell PIPESIZE pipe.nwrite) c
    nwrite := pipe.nwrite + 1 }

/-- `p->data[p->nread % PIPESIZE]` -/
def Pipe.next (pipe : Pipe) : BitVec 8 :=
  pipe.data (Ring.cell PIPESIZE pipe.nread)

section Step

variable {P : Type*} [DecidableEq P]

/-- `p` takes the lock and goes to `pc`. -/
def State.acquire (s : State P) (p : P) (pc : Pc) : Outcome (State P) :=
  if s.pipe.allocated = true ∧ s.lock = none then
    .next { s with lock := some p, pc := Function.update s.pc p pc }
  else .blocked

def State.release (s : State P) (p : P) (pc : Pc) : State P :=
  { s with lock := none, pc := Function.update s.pc p pc }

/-- `p` goes on with the lock in its hands. -/
def State.goto (s : State P) (p : P) (pipe : Pipe) (pc : Pc) : State P :=
  { s with pipe := pipe, pc := Function.update s.pc p pc }

def State.pipewrite (s : State P) (p : P) (addr : ℕ → BitVec 8) (n : ℤ)
    (i : ℕ) : State P :=
  if i < n then
    if s.pipe.full then
      if s.pipe.readopen = false ∨ s.killed p = true then
        s.release p .idle
      else s.release p (.writeSleep addr n i)
    else s.goto p (s.pipe.put (addr i)) (.write addr n (i + 1))
  else s.release p .idle

def State.piperead (s : State P) (p : P) (n : ℤ) : State P :=
  if s.pipe.empty ∧ s.pipe.writeopen = true then
    if s.killed p = true then s.release p .idle
    else s.release p (.readSleep n)
  else s.goto p s.pipe (.copy n [])

def State.copy (s : State P) (p : P) (n : ℤ) (buf : List (BitVec 8)) :
    State P :=
  if buf.length < n ∧ ¬ s.pipe.empty then
    s.goto p { s.pipe with nread := s.pipe.nread + 1 }
      (.copy n (buf ++ [s.pipe.next]))
  else s.release p .idle

def step (s : State P) : Act P → Outcome (State P)
  | .pipewrite p addr n =>
      match s.pc p with
      | .idle => s.acquire p (.write addr n 0)
      | _ => .blocked
  | .piperead p n =>
      match s.pc p with
      | .idle => s.acquire p (.read n)
      | _ => .blocked
  | .pipeclose writable =>
      if s.pipe.allocated = true ∧ s.lock = none then
        .next { s with
          pipe :=
            if writable then { s.pipe with writeopen := false }
            else { s.pipe with readopen := false } }
      else .blocked
  | .kill p => .next { s with killed := Function.update s.killed p true }
  | .run p =>
      match s.pc p with
      | .idle => .blocked
      | .write addr n i => .next (s.pipewrite p addr n i)
      | .writeSleep addr n i => s.acquire p (.write addr n i)
      | .read n => .next (s.piperead p n)
      | .readSleep n => s.acquire p (.read n)
      | .copy n buf => .next (s.copy p n buf)

end Step

/-! ## Histories -/

/-- The machine with the writes so far, the bytes stored and the results of
the reads.  A stored byte carries the number of its write. -/
structure Traced (P : Type*) where
  state : State P
  writes : List ((ℕ → BitVec 8) × ℤ)
  /-- The number of the write that a process is in. -/
  current : P → ℕ
  stored : List (ℕ × BitVec 8)
  reads : List (List (BitVec 8))

section Traced

variable {P : Type*}

/-- The byte that the next step of `p` stores. -/
def State.stores (s : State P) (p : P) : Option (BitVec 8) :=
  match s.pc p with
  | .write addr n i => if i < n ∧ ¬ s.pipe.full then some (addr i) else none
  | _ => none

/-- The bytes that `piperead` returns in the next step of `p`. -/
def State.returns (s : State P) (p : P) : Option (List (BitVec 8)) :=
  match s.pc p with
  | .copy n buf =>
      if buf.length < n ∧ ¬ s.pipe.empty then none else some buf
  | _ => none

variable [DecidableEq P]

def Traced.record (s : Traced P) (a : Act P) (t : State P) : Traced P :=
  match a with
  | .pipewrite p addr n =>
      { s with
        state := t
        writes := s.writes ++ [(addr, n)]
        current := Function.update s.current p s.writes.length }
  | .run p =>
      { s with
        state := t
        stored := s.stored ++
          ((s.state.stores p).map fun c => (s.current p, c)).toList
        reads := s.reads ++ (s.state.returns p).toList }
  | _ => { s with state := t }

def Traced.step (s : Traced P) (a : Act P) : Outcome (Traced P) :=
  (Pipes.step s.state a).map (s.record a)

/-- A pipe that has just been made: the counters are equal and no call is in
progress. -/
structure Traced.Initial (s : Traced P) : Prop where
  counters : s.state.pipe.nread = s.state.pipe.nwrite
  lock : s.state.lock = none
  pc : ∀ p, s.state.pc p = .idle
  writes : s.writes = []
  stored : s.stored = []
  reads : s.reads = []

end Traced

/-! ## The invariant -/

/-- `p->lock` is held at this point. -/
def Pc.locked : Pc → Bool
  | .write _ _ _ | .read _ | .copy _ _ => true
  | _ => false

/-- The write that a process is in, and how many bytes it has stored. -/
def Pc.writing : Pc → Option ((ℕ → BitVec 8) × ℤ × ℕ)
  | .write addr n i | .writeSleep addr n i => some (addr, n, i)
  | _ => none

/-- The bytes that have been taken out by a read that has not returned. -/
def State.copied {P : Type*} (s : State P) : List (BitVec 8) :=
  match s.lock with
  | none => []
  | some p =>
      match s.pc p with
      | .copy _ buf => buf
      | _ => []

/-- The bytes that a write has stored. -/
def bytesOf (stored : List (ℕ × BitVec 8)) (c : ℕ) : List (BitVec 8) :=
  (stored.filter fun x => x.1 = c).map Prod.snd

/-- What holds in every state of a pipe. -/
structure Traced.Inv {P : Type*} (s : Traced P) : Prop where
  lock_of_locked : ∀ p, (s.state.pc p).locked = true → s.state.lock = some p
  holds : ∃ queue,
    Ring.Holds s.state.pipe.data s.state.pipe.nread s.state.pipe.nwrite queue ∧
      s.stored.map Prod.snd = s.reads.flatten ++ s.state.copied ++ queue
  writing : ∀ p addr n i, (s.state.pc p).writing = some (addr, n, i) →
    s.writes[s.current p]? = some (addr, n) ∧ i ≤ n.toNat ∧
      bytesOf s.stored (s.current p) = (List.range i).map addr
  current_inj : ∀ p q, (s.state.pc p).writing.isSome = true →
    (s.state.pc q).writing.isSome = true → s.current p = s.current q → p = q
  bytes : ∀ (c : ℕ) addr n, s.writes[c]? = some (addr, n) →
    ∃ m, m ≤ n.toNat ∧ bytesOf s.stored c = (List.range m).map addr
  started : ∀ x ∈ s.stored, x.1 < s.writes.length
  /-- A read gets to its copying loop with something to copy, or when no more
  will come. -/
  copy_nil : ∀ p n, s.state.pc p = .copy n [] →
    ¬ (s.state.pipe.empty ∧ s.state.pipe.writeopen = true)

section Inv

variable {P : Type*} [DecidableEq P] {s t : Traced P} {p : P}

omit [DecidableEq P] in
theorem bytesOf_of_lt {c : ℕ} (h : ∀ x ∈ s.stored, x.1 < c) :
    bytesOf s.stored c = [] := by
  have hfilter : s.stored.filter (fun x => x.1 = c) = [] := by
    rw [List.filter_eq_nil_iff]
    intro x hx
    simpa using (h x hx).ne
  rw [bytesOf, hfilter, List.map_nil]

theorem bytesOf_append_self {stored : List (ℕ × BitVec 8)} {c : ℕ}
    {b : BitVec 8} :
    bytesOf (stored ++ [(c, b)]) c = bytesOf stored c ++ [b] := by
  simp [bytesOf]

theorem bytesOf_append_of_ne {stored : List (ℕ × BitVec 8)} {c d : ℕ}
    {b : BitVec 8} (h : d ≠ c) :
    bytesOf (stored ++ [(d, b)]) c = bytesOf stored c := by
  simp [bytesOf, h]

omit [DecidableEq P] in
theorem Traced.Initial.inv (h : s.Initial) : s.Inv where
  lock_of_locked p hp := by simp [h.pc, Pc.locked] at hp
  holds := by
    refine ⟨[], ?_, ?_⟩
    · rw [h.counters]
      exact .nil _ _
    · simp [h.stored, h.reads, State.copied, h.lock]
  writing p addr n i hp := by simp [h.pc, Pc.writing] at hp
  current_inj p q hp := by simp [h.pc, Pc.writing] at hp
  bytes c addr n hc := by simp [h.writes] at hc
  started x hx := by simp [h.stored] at hx
  copy_nil p n hp := by simp [h.pc] at hp

/-- A step in which a process moves to a point of the same write, or to one
outside of any write, and nothing is stored or taken out. -/
theorem Traced.Inv.of_move (h : s.Inv) {pc : Pc}
    (hpc : t.state.pc = Function.update s.state.pc p pc)
    (hlocked : ∀ q, (Function.update s.state.pc p pc q).locked = true →
      t.state.lock = some q)
    (hpipe : t.state.pipe = s.state.pipe)
    (hwriting : pc.writing = none ∨ pc.writing = (s.state.pc p).writing)
    (htaken : t.reads.flatten ++ t.state.copied =
      s.reads.flatten ++ s.state.copied)
    (hcopy : ∀ n, pc = .copy n [] →
      ¬ (s.state.pipe.empty ∧ s.state.pipe.writeopen = true))
    (hwrites : t.writes = s.writes) (hcurrent : t.current = s.current)
    (hstored : t.stored = s.stored) : t.Inv := by
  have hold : ∀ q x, (t.state.pc q).writing = some x →
      (s.state.pc q).writing = some x := by
    intro q x hq
    rw [hpc] at hq
    by_cases hqp : q = p
    · subst hqp
      rw [Function.update_self] at hq
      rcases hwriting with hw | hw
      · simp [hw] at hq
      · exact hw ▸ hq
    · rwa [Function.update_of_ne hqp] at hq
  exact
    { lock_of_locked := by
        intro q hq
        rw [hpc] at hq
        exact hlocked q hq
      holds := by
        obtain ⟨queue, hring, heq⟩ := h.holds
        refine ⟨queue, hpipe ▸ hring, ?_⟩
        rw [hstored, htaken, heq]
      writing := by
        intro q addr n i hq
        rw [hwrites, hcurrent, hstored]
        exact h.writing q addr n i (hold q _ hq)
      current_inj := by
        intro q r hq hr heq
        obtain ⟨x, hq⟩ := Option.isSome_iff_exists.mp hq
        obtain ⟨y, hr⟩ := Option.isSome_iff_exists.mp hr
        rw [hcurrent] at heq
        exact h.current_inj q r (by simp [hold q x hq]) (by simp [hold r y hr])
          heq
      bytes := by
        rw [hwrites, hstored]
        exact h.bytes
      started := by
        rw [hwrites, hstored]
        exact h.started
      copy_nil := by
        intro q n hq
        rw [hpipe]
        rw [hpc] at hq
        by_cases hqp : q = p
        · subst hqp
          rw [Function.update_self] at hq
          exact hcopy n hq
        · rw [Function.update_of_ne hqp] at hq
          exact h.copy_nil q n hq }

omit [DecidableEq P] in
/-- With the lock free, no process is at a point where it holds it. -/
theorem Traced.Inv.not_locked (h : s.Inv) (hlock : s.state.lock = none)
    (q : P) : (s.state.pc q).locked = false := by
  by_contra hq
  have := h.lock_of_locked q (by simpa using hq)
  simp [hlock] at this

/-- The point `pc` of `p` is the only one with the lock. -/
theorem locked_update_some (h : s.Inv) {pc : Pc} (hlock : s.state.lock = none ∨
    s.state.lock = some p) (q : P)
    (hq : (Function.update s.state.pc p pc q).locked = true) :
    some p = some q := by
  by_cases hqp : q = p
  · rw [hqp]
  · rw [Function.update_of_ne hqp] at hq
    rcases hlock with hlock | hlock
    · simp [h.not_locked hlock q] at hq
    · exact hlock.symm.trans (h.lock_of_locked q hq)

theorem locked_update_none (h : s.Inv) {pc : Pc} (hpc : pc.locked = false)
    (hlock : s.state.lock = some p) (q : P) :
    (Function.update s.state.pc p pc q).locked = false := by
  by_cases hqp : q = p
  · subst hqp
    rwa [Function.update_self]
  · rw [Function.update_of_ne hqp]
    by_contra hq
    have := h.lock_of_locked q (by simpa using hq)
    rw [hlock] at this
    exact hqp (Option.some.inj this).symm

theorem Traced.Inv.pipewrite (h : s.Inv) {addr : ℕ → BitVec 8} {n : ℤ}
    (ht : s.step (.pipewrite p addr n) = .next t) : t.Inv := by
  obtain ⟨u, hu, rfl⟩ := Outcome.map_eq_next ht
  simp only [Pipes.step] at hu
  split at hu
  · next hpc =>
      simp only [State.acquire] at hu
      split_ifs at hu with hfree
      obtain rfl := Outcome.next.inj hu
      have hnew : ∀ q x, (Function.update s.state.pc p (.write addr n 0)
          q).writing = some x → q = p ∧ x = (addr, n, 0) ∨
            q ≠ p ∧ (s.state.pc q).writing = some x := by
        intro q x hq
        by_cases hqp : q = p
        · subst hqp
          rw [Function.update_self] at hq
          exact .inl ⟨rfl, (Option.some.inj hq).symm⟩
        · rw [Function.update_of_ne hqp] at hq
          exact .inr ⟨hqp, hq⟩
      have hcurrent : ∀ q x, (s.state.pc q).writing = some x →
          s.current q < s.writes.length := by
        rintro q ⟨addr', n', i⟩ hq
        exact (List.getElem?_eq_some_iff.mp (h.writing q _ _ _ hq).1).1
      exact
        { lock_of_locked := fun q hq =>
            locked_update_some h (.inl hfree.2) q hq
          holds := by
            obtain ⟨queue, hring, heq⟩ := h.holds
            refine ⟨queue, hring, ?_⟩
            simp only [State.copied, hfree.2] at heq
            simpa [Traced.record, State.copied] using heq
          writing := by
            intro q addr' n' i hq
            rcases hnew q _ hq with ⟨rfl, hx⟩ | ⟨hqp, hq⟩
            · obtain ⟨rfl, rfl, rfl⟩ : addr' = addr ∧ n' = n ∧ i = 0 := by
                simpa using hx
              simp [Traced.record, bytesOf_of_lt h.started]
            · obtain ⟨hw, hi, hb⟩ := h.writing q _ _ _ hq
              simp only [Traced.record, Function.update_of_ne hqp]
              refine ⟨?_, hi, hb⟩
              rw [List.getElem?_append_left (hcurrent q _ hq)]
              exact hw
          current_inj := by
            intro q r hq hr heq
            obtain ⟨x, hq⟩ := Option.isSome_iff_exists.mp hq
            obtain ⟨y, hr⟩ := Option.isSome_iff_exists.mp hr
            simp only [Traced.record] at heq
            rcases hnew q x hq with ⟨rfl, -⟩ | ⟨hqp, hq'⟩ <;>
              rcases hnew r y hr with ⟨rfl, -⟩ | ⟨hrp, hr'⟩
            · rfl
            · rw [Function.update_self, Function.update_of_ne hrp] at heq
              exact absurd heq.symm (hcurrent r _ hr').ne
            · rw [Function.update_self, Function.update_of_ne hqp] at heq
              exact absurd heq (hcurrent q _ hq').ne
            · rw [Function.update_of_ne hqp, Function.update_of_ne hrp] at heq
              exact h.current_inj q r (by simp [hq']) (by simp [hr']) heq
          bytes := by
            intro c addr' n' hc
            simp only [Traced.record] at hc ⊢
            by_cases hlt : c < s.writes.length
            · rw [List.getElem?_append_left hlt] at hc
              exact h.bytes c addr' n' hc
            · refine ⟨0, Nat.zero_le _, ?_⟩
              rw [bytesOf_of_lt fun x hx => ?_]
              · rfl
              · have := h.started x hx
                omega
          started := by
            intro x hx
            simp only [Traced.record, List.length_append]
            exact (h.started x hx).trans_le (Nat.le_add_right _ _)
          copy_nil := by
            intro q m hq
            have hqp : q ≠ p := by
              rintro rfl
              simp [Traced.record] at hq
            simp only [Traced.record, Function.update_of_ne hqp] at hq
            exact h.copy_nil q m hq }
  · cases hu

theorem Traced.Inv.piperead (h : s.Inv) {n : ℤ}
    (ht : s.step (.piperead p n) = .next t) : t.Inv := by
  obtain ⟨u, hu, rfl⟩ := Outcome.map_eq_next ht
  simp only [Pipes.step] at hu
  split at hu
  · simp only [State.acquire] at hu
    split_ifs at hu with hfree
    obtain rfl := Outcome.next.inj hu
    refine h.of_move (p := p) rfl
      (fun q hq => locked_update_some h (.inl hfree.2) q hq) rfl (.inl rfl) ?_
      (by simp) rfl rfl rfl
    simp [Traced.record, State.copied, hfree.2]
  · cases hu

theorem Traced.Inv.pipeclose (h : s.Inv) {writable : Bool}
    (ht : s.step (.pipeclose writable) = .next t) : t.Inv := by
  obtain ⟨u, hu, rfl⟩ := Outcome.map_eq_next ht
  simp only [Pipes.step] at hu
  split_ifs at hu with hfree hw
  all_goals
    obtain rfl := Outcome.next.inj hu
    exact
      { lock_of_locked := h.lock_of_locked
        holds := h.holds
        writing := h.writing
        current_inj := h.current_inj
        bytes := h.bytes
        started := h.started
        copy_nil := by
          intro q n hq
          have := h.not_locked hfree.2 q
          simp only [Traced.record] at hq
          simp [hq, Pc.locked] at this }

/-- A turn of the loop of `pipewrite`. -/
theorem Traced.Inv.write (h : s.Inv) {addr : ℕ → BitVec 8} {n : ℤ} {i : ℕ}
    (hp : s.state.pc p = .write addr n i) :
    (s.record (.run p) (s.state.pipewrite p addr n i)).Inv := by
  have hlock : s.state.lock = some p := h.lock_of_locked p (by rw [hp]; rfl)
  have hreturns : s.state.returns p = none := by simp [State.returns, hp]
  have hcopied : s.state.copied = [] := by simp [State.copied, hlock, hp]
  by_cases hput : i < n ∧ ¬ s.state.pipe.full
  · have hstores : s.state.stores p = some (addr i) := by
      simp [State.stores, hp, hput]
    have hu : s.state.pipewrite p addr n i =
        s.state.goto p (s.state.pipe.put (addr i)) (.write addr n (i + 1)) := by
      simp [State.pipewrite, hput.1, hput.2]
    have hwriting : (s.state.pc p).writing = some (addr, n, i) := by
      rw [hp]
      rfl
    obtain ⟨hw, hi, hb⟩ := h.writing p addr n i hwriting
    have hold : ∀ q x, q ≠ p → (Function.update s.state.pc p
        (.write addr n (i + 1)) q).writing = some x →
        (s.state.pc q).writing = some x ∧ s.current q ≠ s.current p := by
      intro q x hqp hq
      rw [Function.update_of_ne hqp] at hq
      refine ⟨hq, fun heq => hqp ?_⟩
      exact h.current_inj q p (by simp [hq]) (by simp [hwriting]) heq
    rw [hu]
    exact
      { lock_of_locked := by
          intro q hq
          exact hlock.trans (locked_update_some h (.inr hlock) q hq)
        holds := by
          obtain ⟨queue, hring, heq⟩ := h.holds
          have hroom : queue.length < PIPESIZE := by
            refine lt_of_le_of_ne hring.length_le fun e => hput.2 ?_
            exact (hring.eq_add_iff_full (by decide)).mpr e
          refine ⟨queue ++ [addr i], hring.push ⟨2 ^ 23, rfl⟩ hroom, ?_⟩
          simp only [Traced.record, hstores, hreturns, Option.map_some,
            Option.toList_some, Option.toList_none, List.append_nil,
            List.map_append, heq, hcopied]
          simp [State.copied, State.goto, hlock]
        writing := by
          intro q addr' n' j hq
          simp only [Traced.record, hstores, Option.map_some,
            Option.toList_some]
          by_cases hqp : q = p
          · subst hqp
            obtain ⟨rfl, rfl, rfl⟩ : addr' = addr ∧ n' = n ∧ j = i + 1 := by
              have := hq
              simp only [Traced.record, State.goto, Function.update_self,
                Pc.writing, Option.some.injEq, Prod.mk.injEq] at this
              exact ⟨this.1.symm, this.2.1.symm, this.2.2.symm⟩
            refine ⟨hw, by omega, ?_⟩
            rw [bytesOf_append_self, hb, List.range_succ, List.map_append]
            rfl
          · obtain ⟨hq, hne⟩ := hold q _ hqp hq
            rw [bytesOf_append_of_ne hne.symm]
            exact h.writing q _ _ _ hq
        current_inj := by
          intro q r hq hr heq
          have hback : ∀ q, (Function.update s.state.pc p
              (.write addr n (i + 1)) q).writing.isSome = true →
              (s.state.pc q).writing.isSome = true := by
            intro q hq
            by_cases hqp : q = p
            · rw [hqp, hwriting]
              rfl
            · rwa [Function.update_of_ne hqp] at hq
          exact h.current_inj q r (hback q hq) (hback r hr) heq
        bytes := by
          intro c addr' n' hc
          simp only [Traced.record, hstores, Option.map_some,
            Option.toList_some] at hc ⊢
          by_cases hcp : c = s.current p
          · subst hcp
            obtain ⟨rfl, rfl⟩ : addr' = addr ∧ n' = n := by
              simpa [hw, eq_comm] using hc
            refine ⟨i + 1, by omega, ?_⟩
            rw [bytesOf_append_self, hb, List.range_succ, List.map_append]
            rfl
          · rw [bytesOf_append_of_ne (Ne.symm hcp)]
            exact h.bytes c addr' n' hc
        started := by
          intro x hx
          simp only [Traced.record, hstores, Option.map_some,
            Option.toList_some, List.mem_append, List.mem_singleton] at hx ⊢
          rcases hx with hx | rfl
          · exact h.started x hx
          · exact (List.getElem?_eq_some_iff.mp hw).1
        copy_nil := by
          intro q m hq
          simp only [Traced.record, State.goto] at hq
          by_cases hqp : q = p
          · subst hqp
            simp at hq
          · rw [Function.update_of_ne hqp] at hq
            have := h.lock_of_locked q (by rw [hq]; rfl)
            rw [hlock] at this
            exact absurd (Option.some.inj this).symm hqp }
  · have hstores : s.state.stores p = none := by
      simp only [State.stores, hp]
      rw [if_neg hput]
    -- The process returns or goes to sleep.
    obtain ⟨pc, hpc, hpc', hu⟩ : ∃ pc : Pc, pc.locked = false ∧
        (pc.writing = none ∨ pc.writing = (s.state.pc p).writing) ∧
        s.state.pipewrite p addr n i = s.state.release p pc := by
      simp only [State.pipewrite, hp]
      split_ifs with hn hfull hfail
      · exact ⟨.idle, rfl, .inl rfl, rfl⟩
      · exact ⟨.writeSleep addr n i, rfl, .inr rfl, rfl⟩
      · exact absurd ⟨hn, hfull⟩ hput
      · exact ⟨.idle, rfl, .inl rfl, rfl⟩
    rw [hu]
    refine h.of_move (p := p) rfl ?_ rfl hpc' ?_ ?_ rfl rfl ?_
    · intro q hq
      simp [locked_update_none h hpc hlock q] at hq
    · rw [hcopied]
      simp [Traced.record, hreturns, State.copied, State.release]
    · rintro m rfl
      simp [Pc.locked] at hpc
    · simp [Traced.record, hstores]

/-- The test at the head of `piperead`. -/
theorem Traced.Inv.read (h : s.Inv) {n : ℤ} (hp : s.state.pc p = .read n) :
    (s.record (.run p) (s.state.piperead p n)).Inv := by
  have hlock : s.state.lock = some p := h.lock_of_locked p (by rw [hp]; rfl)
  have hreturns : s.state.returns p = none := by simp [State.returns, hp]
  have hstores : s.state.stores p = none := by simp [State.stores, hp]
  have hcopied : s.state.copied = [] := by simp [State.copied, hlock, hp]
  by_cases hwait : s.state.pipe.empty ∧ s.state.pipe.writeopen = true
  · obtain ⟨pc, hpc, hpc', hu⟩ : ∃ pc : Pc, pc.locked = false ∧
        pc.writing = none ∧
        s.state.piperead p n = s.state.release p pc := by
      simp only [State.piperead, if_pos hwait]
      split_ifs
      · exact ⟨.idle, rfl, rfl, rfl⟩
      · exact ⟨.readSleep n, rfl, rfl, rfl⟩
    rw [hu]
    refine h.of_move (p := p) rfl ?_ rfl (.inl hpc') ?_ ?_ rfl rfl ?_
    · intro q hq
      simp [locked_update_none h hpc hlock q] at hq
    · rw [hcopied]
      simp [Traced.record, hreturns, State.copied, State.release]
    · rintro m rfl
      simp [Pc.locked] at hpc
    · simp [Traced.record, hstores]
  · have hu : s.state.piperead p n = s.state.goto p s.state.pipe (.copy n []) := by
      rw [State.piperead, if_neg hwait]
    rw [hu]
    refine h.of_move (p := p) rfl ?_ rfl (.inl rfl) ?_
      (fun _ _ => hwait) rfl rfl ?_
    · exact fun q hq => hlock.trans (locked_update_some h (.inr hlock) q hq)
    · rw [hcopied]
      simp [Traced.record, hreturns, State.copied, State.goto, hlock]
    · simp [Traced.record, hstores]

/-- A turn of the copying loop of `piperead`. -/
theorem Traced.Inv.copy (h : s.Inv) {n : ℤ} {buf : List (BitVec 8)}
    (hp : s.state.pc p = .copy n buf) :
    (s.record (.run p) (s.state.copy p n buf)).Inv := by
  have hlock : s.state.lock = some p := h.lock_of_locked p (by rw [hp]; rfl)
  have hstores : s.state.stores p = none := by simp [State.stores, hp]
  have hcopied : s.state.copied = buf := by simp [State.copied, hlock, hp]
  by_cases htake : buf.length < n ∧ ¬ s.state.pipe.empty
  · have hreturns : s.state.returns p = none := by
      simp only [State.returns, hp]
      rw [if_pos htake]
    rw [State.copy, if_pos htake]
    obtain ⟨queue, hring, heq⟩ := h.holds
    obtain ⟨x, rest, rfl⟩ : ∃ x rest, queue = x :: rest := by
      refine List.exists_cons_of_ne_nil fun e => htake.2 ?_
      exact (hring.eq_iff_nil (by decide)).mpr e
    obtain ⟨hx, hring'⟩ := hring.pop
    have hsame : ∀ q y, (Function.update s.state.pc p
        (.copy n (buf ++ [s.state.pipe.next])) q).writing = some y →
        (s.state.pc q).writing = some y := by
      intro q y hq
      by_cases hqp : q = p
      · subst hqp
        simp [Pc.writing] at hq
      · rwa [Function.update_of_ne hqp] at hq
    have hstored : (s.record (.run p) (s.state.goto p
        { s.state.pipe with nread := s.state.pipe.nread + 1 }
        (.copy n (buf ++ [s.state.pipe.next])))).stored = s.stored := by
      simp [Traced.record, hstores]
    exact
      { lock_of_locked := fun q hq =>
          hlock.trans (locked_update_some h (.inr hlock) q hq)
        holds := by
          refine ⟨rest, hring', ?_⟩
          rw [hstored, heq, hcopied]
          simp [Traced.record, hreturns, State.copied, State.goto, hlock,
            Pipe.next, hx]
        writing := by
          intro q addr' n' i hq
          rw [hstored]
          exact h.writing q _ _ _ (hsame q _ hq)
        current_inj := by
          intro q r hq hr heq
          obtain ⟨y, hq⟩ := Option.isSome_iff_exists.mp hq
          obtain ⟨z, hr⟩ := Option.isSome_iff_exists.mp hr
          exact h.current_inj q r (by simp [hsame q y hq])
            (by simp [hsame r z hr]) heq
        bytes := by
          rw [hstored]
          exact h.bytes
        started := by
          rw [hstored]
          exact h.started
        copy_nil := by
          intro q m hq
          simp only [Traced.record, State.goto] at hq
          by_cases hqp : q = p
          · subst hqp
            simp at hq
          · rw [Function.update_of_ne hqp] at hq
            have := h.lock_of_locked q (by rw [hq]; rfl)
            rw [hlock] at this
            exact absurd (Option.some.inj this).symm hqp }
  · have hreturns : s.state.returns p = some buf := by
      simp only [State.returns, hp]
      rw [if_neg htake]
    rw [State.copy, if_neg htake]
    refine h.of_move (p := p) rfl ?_ rfl (.inl rfl) ?_ (by simp)
      rfl rfl ?_
    · intro q hq
      rw [locked_update_none h rfl hlock q] at hq
      cases hq
    · rw [hcopied]
      simp [Traced.record, hreturns, State.copied, State.release]
    · simp [Traced.record, hstores]

theorem Traced.Inv.step (h : s.Inv) {a : Act P} (ht : s.step a = .next t) :
    t.Inv := by
  cases a with
  | pipewrite p addr n => exact h.pipewrite ht
  | piperead p n => exact h.piperead ht
  | pipeclose writable => exact h.pipeclose ht
  | kill p =>
      obtain ⟨u, hu, rfl⟩ := Outcome.map_eq_next ht
      obtain rfl := Outcome.next.inj hu
      exact
        { lock_of_locked := h.lock_of_locked
          holds := h.holds
          writing := h.writing
          current_inj := h.current_inj
          bytes := h.bytes
          started := h.started
          copy_nil := h.copy_nil }
  | run p =>
      obtain ⟨u, hu, rfl⟩ := Outcome.map_eq_next ht
      simp only [Pipes.step] at hu
      split at hu
      · cases hu
      · next hp =>
          obtain rfl := Outcome.next.inj hu
          exact h.write hp
      · next addr n i hp =>
          simp only [State.acquire] at hu
          split_ifs at hu with hfree
          obtain rfl := Outcome.next.inj hu
          refine h.of_move (p := p) rfl
            (fun q hq => locked_update_some h (.inl hfree.2) q hq) rfl ?_ ?_
            (by simp) rfl rfl ?_
          · right
            rw [hp]
            rfl
          · simp [Traced.record, State.returns, hp, State.copied, hfree.2]
          · simp [Traced.record, State.stores, hp]
      · next hp =>
          obtain rfl := Outcome.next.inj hu
          exact h.read hp
      · next n hp =>
          simp only [State.acquire] at hu
          split_ifs at hu with hfree
          obtain rfl := Outcome.next.inj hu
          refine h.of_move (p := p) rfl
            (fun q hq => locked_update_some h (.inl hfree.2) q hq) rfl
            (.inl rfl) ?_ (by simp) rfl rfl ?_
          · simp [Traced.record, State.returns, hp, State.copied, hfree.2]
          · simp [Traced.record, State.stores, hp]
      · next hp =>
          obtain rfl := Outcome.next.inj hu
          exact h.copy hp

end Inv

/-! ## Pipes lose nothing -/

/-- For any number of readers and writers, any interleaving, any counts and
any equal initial counters: what reads return is a prefix of what was stored,
the bytes of a write are stored in their order, there are never more than
`PIPESIZE` unread bytes, and only a drained pipe without a writer reads as
empty. -/
theorem pipe_lossless {P : Type*} [DecidableEq P] {s t : Traced P}
    {w : List (Act P)} (hs : s.Initial) (hrun : Run Traced.step s w t) :
    t.reads.flatten <+: t.stored.map Prod.snd ∧
      (∀ (c : ℕ) addr n, t.writes[c]? = some (addr, n) →
        ∃ m, m ≤ n.toNat ∧ bytesOf t.stored c = (List.range m).map addr) ∧
      (t.reads.flatten ++ t.state.copied).length +
          (t.state.pipe.nwrite - t.state.pipe.nread).toNat =
        t.stored.length ∧
      (t.state.pipe.nwrite - t.state.pipe.nread).toNat ≤ PIPESIZE ∧
      ∀ p n buf, t.state.pc p = .copy n buf → 0 < n →
        t.state.returns p = some [] →
        t.state.pipe.writeopen = false ∧
          t.reads.flatten = t.stored.map Prod.snd := by
  have ht : t.Inv := hrun.invariant (I := Traced.Inv)
    (fun _ _ _ h hstep => h.step hstep) hs.inv
  obtain ⟨queue, hring, heq⟩ := ht.holds
  have hunread : (t.state.pipe.nwrite - t.state.pipe.nread).toNat =
      queue.length := by
    have hlt : queue.length < 2 ^ 32 :=
      hring.length_le.trans_lt (by decide)
    rw [hring.nwrite_eq, BitVec.add_comm, BitVec.add_sub_cancel,
      BitVec.toNat_ofNat,
      Nat.mod_eq_of_lt hlt]
  refine ⟨?_, ht.bytes, ?_, ?_, ?_⟩
  · rw [heq, List.append_assoc]
    exact List.prefix_append _ _
  · rw [hunread, ← List.length_append, ← heq, List.length_map]
  · exact hunread ▸ hring.length_le
  · intro p n buf hp hn hreturns
    have hlock : t.state.lock = some p :=
      ht.lock_of_locked p (by rw [hp]; rfl)
    have hstop : ¬ (buf.length < n ∧ ¬ t.state.pipe.empty) ∧ buf = [] := by
      simp only [State.returns, hp] at hreturns
      split_ifs at hreturns with htake
      exact ⟨htake, Option.some.inj hreturns⟩
    obtain ⟨hstop, rfl⟩ := hstop
    have hempty : t.state.pipe.empty := by
      by_contra hne
      exact hstop ⟨by simpa using hn, hne⟩
    obtain rfl := (hring.eq_iff_nil (by decide)).mp hempty
    have hcopied : t.state.copied = [] := by
      simp [State.copied, hlock, hp]
    refine ⟨?_, ?_⟩
    · by_contra hopen
      exact ht.copy_nil p n hp ⟨hempty, by simpa using hopen⟩
    · rw [heq, hcopied]
      simp

/-- A pipe whose counters are about to wrap. -/
def Traced.wrapping : Traced (Fin 2) where
  state :=
    { pipe :=
        { data := fun _ => 0, nread := BitVec.allOnes 32
          nwrite := BitVec.allOnes 32, readopen := true, writeopen := true }
      lock := none
      killed := fun _ => false
      pc := fun _ => .idle }
  writes := []
  current := fun _ => 0
  stored := []
  reads := []

theorem pipe_lossless_wrapping :
    ∃ t, Run Traced.step Traced.wrapping
        ([.pipewrite 0 (fun i => BitVec.ofNat 8 (i + 7)) 2, .run 0, .run 0,
          .run 0, .piperead 1 5] ++ List.replicate 4 (.run 1)) t ∧
      t.reads.flatten <+: t.stored.map Prod.snd ∧ t.reads = [[7, 8]] ∧
      t.state.pipe.nread = 1 := by
  obtain ⟨t, hrun, ht⟩ := Run.exists_of_exec Traced.step Traced.wrapping
    ([.pipewrite 0 (fun i => BitVec.ofNat 8 (i + 7)) 2, .run 0, .run 0,
      .run 0, .piperead 1 5] ++ List.replicate 4 (.run 1))
    (fun t => t.reads = [[7, 8]] && t.state.pipe.nread = 1)
    (by decide +kernel)
  have hs : Traced.wrapping.Initial := ⟨rfl, rfl, fun _ => rfl, rfl, rfl, rfl⟩
  have hreads := (pipe_lossless hs hrun).1
  simp only [Bool.and_eq_true, decide_eq_true_eq] at ht
  exact ⟨t, hrun, hreads, ht.1, ht.2⟩

end ZtlOs.Pipes
