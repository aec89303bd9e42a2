import ZtlOs.Support.Runs
import Mathlib.Tactic.Common

/-!
# Sleep locks

`sleeplock.c` with its inner spin lock, and the functions of `bio.c`, `fs.c`
and `ide.c` that test `holdingsleep` first.  A transfer to or from the disk is
one step.
-/

namespace ZtlOs.Sleeplock

open ZtlOs.Support

/-- `struct sleeplock`; `lock` is the process with the inner spin lock. -/
structure SleepLock (P : Type*) where
  locked : Bool
  pid : Option P
  lock : Option P

/-- The fields of `struct buf` that `iderw` reads. -/
structure Buf (D : Type*) where
  dev : ℕ
  blockno : ℕ
  valid : Bool
  dirty : Bool
  data : D

/-- The sleep lock of a buffer or of an inode. -/
inductive Key (B I : Type*) where
  | buf (b : B)
  | inode (ip : I)
  deriving DecidableEq

/-- The functions that must be called with the sleep lock of a buffer or of an
inode. -/
inductive Guarded (B I : Type*) where
  | brelse (b : B)
  | bwrite (b : B)
  | iderw (b : B)
  | iunlock (ip : I)
  deriving DecidableEq

section Guarded

variable {B I : Type*}

/-- The lock that a function tests. -/
def Guarded.lock : Guarded B I → Key B I
  | .brelse b | .bwrite b | .iderw b => .buf b
  | .iunlock ip => .inode ip

def Guarded.message : Guarded B I → String
  | .brelse _ => "brelse"
  | .bwrite _ => "bwrite"
  | .iderw _ => "iderw: buf not locked"
  | .iunlock _ => "iunlock"

end Guarded

/-- Where a process stands. -/
inductive Pc (B I : Type*) where
  | idle
  /-- In `acquiresleep`, before `acquire(&lock->lock)`. -/
  | acqEnter (k : Key B I)
  | acqTest (k : Key B I)
  | asleep (k : Key B I)
  /-- In `sleep`, before the spin lock is acquired again. -/
  | woken (k : Key B I)
  | acqLeave (k : Key B I)
  /-- In `releasesleep`, before `acquire(&lock->lock)`. -/
  | relEnter (k : Key B I)
  | relClear (k : Key B I)
  | relWake (k : Key B I)
  | relLeave (k : Key B I)
  /-- In `holdingsleep`, before `acquire(&lock->lock)`. -/
  | holdEnter (g : Guarded B I)
  | holdRead (g : Guarded B I)
  | holdLeave (g : Guarded B I) (r : Bool)
  /-- In `bwrite`, after its test. -/
  | setDirty (b : B)
  /-- In `iderw`, after its tests. -/
  | transfer (b : B)
  deriving DecidableEq

structure State (P B I D : Type*) where
  lock : Key B I → SleepLock P
  buf : B → Buf D
  disk : ℕ → ℕ → D
  havedisk1 : Bool
  ref : I → ℕ
  pc : P → Pc B I
  /-- The locks for which `acquiresleep` has returned, up to `locked = 0` in
  `releasesleep`. -/
  held : P → List (Key B I)

inductive Act (P B I D : Type*) where
  | acquiresleep (p : P) (k : Key B I)
  | releasesleep (p : P) (k : Key B I)
  | call (p : P) (g : Guarded B I)
  /-- The next step of a process. -/
  | run (p : P)
  /-- What the holders and the caches do to a buffer and to a `ref`. -/
  | modify (b : B) (v : Buf D)
  | count (ip : I) (ref : ℕ)

section Step

variable {P B I D : Type*} [DecidableEq P] [DecidableEq B] [DecidableEq I]

def State.setPc (s : State P B I D) (p : P) (pc : Pc B I) : State P B I D :=
  { s with pc := Function.update s.pc p pc }

def State.setLock (s : State P B I D) (k : Key B I) (v : SleepLock P) :
    State P B I D :=
  { s with lock := Function.update s.lock k v }

def State.setHeld (s : State P B I D) (p : P) (held : List (Key B I)) :
    State P B I D :=
  { s with held := Function.update s.held p held }

def State.setBuf (s : State P B I D) (b : B) (v : Buf D) : State P B I D :=
  { s with buf := Function.update s.buf b v }

/-- `acquire(&lock->lock)`; it spins while another process has the lock. -/
def State.acquire (s : State P B I D) (p : P) (k : Key B I) (pc : Pc B I) :
    Outcome (State P B I D) :=
  if (s.lock k).lock = none then
    .next ((s.setLock k { s.lock k with lock := some p }).setPc p pc)
  else .blocked

/-- `release(&lock->lock)`. -/
def State.release (s : State P B I D) (p : P) (k : Key B I) (pc : Pc B I) :
    State P B I D :=
  (s.setLock k { s.lock k with lock := none }).setPc p pc

/-- `wakeup(lock)`. -/
def State.wakeup (s : State P B I D) (k : Key B I) : State P B I D :=
  { s with pc := fun q => if s.pc q = .asleep k then .woken k else s.pc q }

/-- A request of `iderw` is served. -/
def State.transfer (s : State P B I D) (b : B) : State P B I D :=
  let v := s.buf b
  if v.dirty then
    { s.setBuf b { v with valid := true, dirty := false } with
      disk := Function.update s.disk v.dev
        (Function.update (s.disk v.dev) v.blockno v.data) }
  else
    s.setBuf b { v with valid := true, data := s.disk v.dev v.blockno }

/-- What follows the test of `holdingsleep`. -/
def State.guarded (s : State P B I D) (p : P) :
    Guarded B I → Outcome (State P B I D)
  | .brelse b => .next (s.setPc p (.relEnter (.buf b)))
  | .bwrite b => .next (s.setPc p (.setDirty b))
  | .iderw b =>
      if (s.buf b).valid ∧ (s.buf b).dirty = false then
        .panic "iderw: nothing to do"
      else if (s.buf b).dev ≠ 0 ∧ s.havedisk1 = false then
        .panic "iderw: ide disk 1 not present"
      else .next (s.setPc p (.transfer b))
  | .iunlock ip =>
      if s.ref ip < 1 then .panic "iunlock"
      else .next (s.setPc p (.relEnter (.inode ip)))

def State.run (s : State P B I D) (p : P) : Outcome (State P B I D) :=
  match s.pc p with
  | .idle => .blocked
  | .acqEnter k => s.acquire p k (.acqTest k)
  | .acqTest k =>
      if (s.lock k).locked then .next (s.release p k (.asleep k))
      else
        .next ((s.setLock k { s.lock k with locked := true, pid := some p }).setPc
          p (.acqLeave k))
  | .asleep _ => .blocked
  | .woken k => s.acquire p k (.acqTest k)
  | .acqLeave k =>
      .next ((s.release p k .idle).setHeld p (k :: s.held p))
  | .relEnter k => s.acquire p k (.relClear k)
  | .relClear k =>
      .next (((s.setLock k { s.lock k with locked := false, pid := none }).setPc
        p (.relWake k)).setHeld p ((s.held p).erase k))
  | .relWake k => .next ((s.wakeup k).setPc p (.relLeave k))
  | .relLeave k => .next (s.release p k .idle)
  | .holdEnter g => s.acquire p g.lock (.holdRead g)
  | .holdRead g => .next (s.setPc p (.holdLeave g (s.lock g.lock).locked))
  | .holdLeave g r =>
      let t := s.release p g.lock .idle
      if r then t.guarded p g else .panic g.message
  | .setDirty b =>
      .next ((s.setBuf b { s.buf b with dirty := true }).setPc p
        (.holdEnter (.iderw b)))
  | .transfer b => .next ((s.transfer b).setPc p .idle)

def step (s : State P B I D) : Act P B I D → Outcome (State P B I D)
  | .acquiresleep p k =>
      if s.pc p = .idle then .next (s.setPc p (.acqEnter k)) else .blocked
  | .releasesleep p k =>
      if s.pc p = .idle then .next (s.setPc p (.relEnter k)) else .blocked
  | .call p g =>
      if s.pc p = .idle then .next (s.setPc p (.holdEnter g)) else .blocked
  | .run p => s.run p
  | .modify b v => .next (s.setBuf b v)
  | .count ip ref => .next { s with ref := Function.update s.ref ip ref }

/-- No lock has been acquired yet. -/
structure Booted (s : State P B I D) : Prop where
  lock : ∀ k, (s.lock k).locked = false ∧ (s.lock k).lock = none
  pc : ∀ p, s.pc p = .idle
  held : ∀ p, s.held p = []

/-- A process releases only a lock that it holds. -/
def Releases (s : State P B I D) : Act P B I D → Prop
  | .run p => ∀ k, s.pc p = .relClear k → k ∈ s.held p
  | _ => True

instance (s : State P B I D) (a : Act P B I D) : Decidable (Releases s a) := by
  unfold Releases
  split
  · next p =>
      cases hpc : s.pc p with
      | relClear k =>
          exact decidable_of_iff (k ∈ s.held p)
            ⟨fun hmem l hl => Pc.relClear.inj hl ▸ hmem, fun h => h k rfl⟩
      | _ => exact .isTrue nofun
  · exact .isTrue trivial

/-- The holders exclude each other, and the guards reject every caller that
does not hold the lock. -/
structure Strict (s : State P B I D) : Prop where
  exclusive : ∀ k p q, k ∈ s.held p → k ∈ s.held q → p = q
  reject : ∀ p g r, s.pc p = .holdLeave g r → g.lock ∉ s.held p →
    ∃ message, step s (.run p) = .panic message

/-- The holders exclude each other; `holdingsleep` tells whether the lock is
held at all, and the guards reject every caller if it is not. -/
structure Disciplined (s : State P B I D) : Prop where
  exclusive : ∀ k p q, k ∈ s.held p → k ∈ s.held q → p = q
  answer : ∀ p g, s.pc p = .holdRead g →
    ((s.lock g.lock).locked = true ↔ ∃ q, g.lock ∈ s.held q)
  reads : ∀ p g, s.pc p = .holdRead g → (∀ q, g.lock ∉ s.held q) →
    step s (.run p) = .next (s.setPc p (.holdLeave g false))
  reject : ∀ p g, s.pc p = .holdLeave g false →
    step s (.run p) = .panic g.message

end Step

/-! ## The inner spin lock -/

section Spin

variable {P B I D : Type*}

/-- The lock whose inner spin lock a process has. -/
def Pc.spin : Pc B I → Option (Key B I)
  | .acqTest k | .acqLeave k | .relClear k | .relWake k | .relLeave k => some k
  | .holdRead g | .holdLeave g _ => some g.lock
  | _ => none

/-- The spin locks are with the processes that are between their `acquire` and
`release`. -/
def State.Spins (s : State P B I D) : Prop :=
  ∀ k p, (s.lock k).lock = some p ↔ (s.pc p).spin = some k

variable {s t : State P B I D} {p : P} {k : Key B I} {pc : Pc B I}

theorem State.Spins.keep (h : s.Spins)
    (hlock : ∀ k, (t.lock k).lock = (s.lock k).lock)
    (hpc : ∀ q, (t.pc q).spin = (s.pc q).spin) : t.Spins := by
  intro k q
  rw [hlock, hpc]
  exact h k q

variable [DecidableEq P]

theorem spin_setPc (h : pc.spin = (s.pc p).spin) (q : P) :
    ((s.setPc p pc).pc q).spin = (s.pc q).spin := by
  simp only [State.setPc]
  by_cases hq : q = p
  · rw [hq, Function.update_self]
    exact h
  · rw [Function.update_of_ne hq]

variable [DecidableEq B] [DecidableEq I]

theorem State.Spins.acquire (h : s.Spins) (hfree : (s.lock k).lock = none)
    (hp : (s.pc p).spin = none) (hpc : pc.spin = some k) :
    ((s.setLock k { s.lock k with lock := some p }).setPc p pc).Spins := by
  intro l q
  simp only [State.setPc, State.setLock]
  by_cases hl : l = k
  · rw [hl, Function.update_self]
    by_cases hq : q = p
    · rw [hq, Function.update_self]
      exact iff_of_true rfl hpc
    · rw [Function.update_of_ne hq]
      refine iff_of_false (fun heq => hq (Option.some.inj heq).symm) ?_
      intro heq
      rw [(h k q).mpr heq] at hfree
      cases hfree
  · rw [Function.update_of_ne hl]
    by_cases hq : q = p
    · rw [hq, Function.update_self, h, hp, hpc]
      exact iff_of_false nofun fun heq => hl (Option.some.inj heq).symm
    · rw [Function.update_of_ne hq]
      exact h l q

theorem State.Spins.release (h : s.Spins) (hp : (s.pc p).spin = some k)
    (hpc : pc.spin = none) : (s.release p k pc).Spins := by
  intro l q
  simp only [State.release, State.setPc, State.setLock]
  by_cases hl : l = k
  · rw [hl, Function.update_self]
    refine iff_of_false nofun ?_
    by_cases hq : q = p
    · rw [hq, Function.update_self, hpc]
      exact nofun
    · rw [Function.update_of_ne hq]
      intro heq
      have hother := (h k q).mpr heq
      rw [(h k p).mpr hp] at hother
      exact hq (Option.some.inj hother).symm
  · rw [Function.update_of_ne hl]
    by_cases hq : q = p
    · rw [hq, Function.update_self, h, hp, hpc]
      exact iff_of_false (fun heq => hl (Option.some.inj heq).symm) nofun
    · rw [Function.update_of_ne hq]
      exact h l q

end Spin

/-! ## Owners -/

section Owners

variable {P B I D : Type*}

/-- The process has the sleep lock from `locked = 1` on. -/
def State.Owns (s : State P B I D) (p : P) (k : Key B I) : Prop :=
  k ∈ s.held p ∨ s.pc p = .acqLeave k

structure Inv (s : State P B I D) : Prop where
  spins : s.Spins
  locked : ∀ k, (s.lock k).locked = true ↔ ∃ p, s.Owns p k
  unique : ∀ k p q, s.Owns p k → s.Owns q k → p = q
  nodup : ∀ p, (s.held p).Nodup
  fresh : ∀ p k, s.pc p = .acqLeave k → k ∉ s.held p

variable {s t : State P B I D} {p : P} {k : Key B I}

/-- A step that leaves `locked` alone, and acquires and releases nothing. -/
theorem Inv.keep (h : Inv s) (hspins : t.Spins)
    (hlocked : ∀ k, (t.lock k).locked = (s.lock k).locked)
    (hheld : t.held = s.held)
    (hpc : ∀ q k, t.pc q = .acqLeave k ↔ s.pc q = .acqLeave k) : Inv t := by
  have howns : ∀ q k, t.Owns q k ↔ s.Owns q k := by
    intro q k
    rw [State.Owns, State.Owns, hheld, hpc]
  constructor
  · exact hspins
  · intro k
    rw [hlocked, h.locked]
    exact exists_congr fun q => (howns q k).symm
  · intro k q r hq hr
    exact h.unique k q r ((howns q k).mp hq) ((howns r k).mp hr)
  · intro q
    rw [hheld]
    exact h.nodup q
  · intro q k hq
    rw [hheld]
    exact h.fresh q k ((hpc q k).mp hq)

/-- A step that only changes what the locks protect. -/
theorem Inv.same (h : Inv s) (hlock : t.lock = s.lock) (hpc : t.pc = s.pc)
    (hheld : t.held = s.held) : Inv t := by
  refine h.keep (h.spins.keep ?_ ?_) ?_ hheld ?_
  · rw [hlock]
    exact fun _ => rfl
  · rw [hpc]
    exact fun _ => rfl
  · rw [hlock]
    exact fun _ => rfl
  · rw [hpc]
    exact fun _ _ => Iff.rfl

variable [DecidableEq P]

theorem acqLeave_setPc {pc : Pc B I} (hold : ∀ k, s.pc p ≠ .acqLeave k)
    (hnew : ∀ k, pc ≠ .acqLeave k) (q : P) (k : Key B I) :
    (s.setPc p pc).pc q = .acqLeave k ↔ s.pc q = .acqLeave k := by
  simp only [State.setPc]
  by_cases hq : q = p
  · rw [hq, Function.update_self]
    exact iff_of_false (hnew k) (hold k)
  · rw [Function.update_of_ne hq]

/-- A process goes on, outside of the spin locks or inside. -/
theorem Inv.setPc {pc : Pc B I} (h : Inv s) (hspin : pc.spin = (s.pc p).spin)
    (hold : ∀ k, s.pc p ≠ .acqLeave k) (hnew : ∀ k, pc ≠ .acqLeave k) :
    Inv (s.setPc p pc) :=
  h.keep (h.spins.keep (fun _ => rfl) (spin_setPc hspin)) (fun _ => rfl) rfl
    (acqLeave_setPc hold hnew)

variable [DecidableEq B] [DecidableEq I]

omit [DecidableEq P] in
theorem locked_setLock {v : SleepLock P} (h : v.locked = (s.lock k).locked)
    (l : Key B I) :
    ((s.setLock k v).lock l).locked = (s.lock l).locked := by
  simp only [State.setLock]
  by_cases hl : l = k
  · rw [hl, Function.update_self, h]
  · rw [Function.update_of_ne hl]

theorem Inv.acquire {pc : Pc B I} (h : Inv s)
    (ht : s.acquire p k pc = .next t) (hp : (s.pc p).spin = none)
    (hpc : pc.spin = some k) (hnew : ∀ k, pc ≠ .acqLeave k) : Inv t := by
  simp only [State.acquire] at ht
  split at ht
  · next hfree =>
      rw [← Outcome.next.inj ht]
      refine h.keep (h.spins.acquire hfree hp hpc) (locked_setLock rfl) rfl ?_
      refine acqLeave_setPc (fun l hl => ?_) hnew
      rw [show s.pc p = .acqLeave l from hl] at hp
      cases hp
  · cases ht

theorem Inv.release {pc : Pc B I} (h : Inv s) (hp : (s.pc p).spin = some k)
    (hold : ∀ k, s.pc p ≠ .acqLeave k) (hpc : pc.spin = none)
    (hnew : ∀ k, pc ≠ .acqLeave k) : Inv (s.release p k pc) :=
  h.keep (h.spins.release hp hpc) (locked_setLock rfl) rfl
    (acqLeave_setPc hold hnew)

/-- `locked = 1`. -/
theorem Inv.lock (h : Inv s) (hpc : s.pc p = .acqTest k)
    (hfree : (s.lock k).locked = false) :
    Inv ((s.setLock k { s.lock k with locked := true, pid := some p }).setPc p
      (.acqLeave k)) := by
  have hnot : ∀ q, ¬ s.Owns q k := by
    intro q hq
    rw [(h.locked k).mpr ⟨q, hq⟩] at hfree
    cases hfree
  have howns : ∀ q l, ((s.setLock k { s.lock k with
      locked := true, pid := some p }).setPc p (.acqLeave k)).Owns q l ↔
      s.Owns q l ∨ q = p ∧ l = k := by
    intro q l
    simp only [State.Owns, State.setPc, State.setLock]
    by_cases hq : q = p
    · rw [hq, Function.update_self, hpc]
      constructor
      · rintro (hmem | heq)
        · exact .inl (.inl hmem)
        · exact .inr ⟨rfl, (Pc.acqLeave.inj heq).symm⟩
      · rintro ((hmem | heq) | ⟨-, rfl⟩)
        · exact .inl hmem
        · cases heq
        · exact .inr rfl
    · rw [Function.update_of_ne hq]
      exact ⟨.inl, fun hor => hor.resolve_right fun hand => hq hand.1⟩
  constructor
  · refine h.spins.keep (fun l => ?_) (spin_setPc ?_)
    · simp only [State.setPc, State.setLock]
      by_cases hl : l = k
      · rw [hl, Function.update_self]
      · rw [Function.update_of_ne hl]
    · change some k = (s.pc p).spin
      rw [hpc]
      rfl
  · intro l
    simp only [howns]
    by_cases hl : l = k
    · refine iff_of_true ?_ ⟨p, .inr ⟨rfl, hl⟩⟩
      simp only [State.setPc, State.setLock, hl, Function.update_self]
    · simp only [State.setPc, State.setLock, Function.update_of_ne hl, h.locked]
      exact exists_congr fun q => (or_iff_left fun hand => hl hand.2).symm
  · intro l q r hq hr
    rw [howns] at hq hr
    by_cases hl : l = k
    · subst hl
      have hq := (hq.resolve_left (hnot q)).1
      have hr := (hr.resolve_left (hnot r)).1
      exact hq.trans hr.symm
    · exact h.unique l q r (hq.resolve_right fun hand => hl hand.2)
        (hr.resolve_right fun hand => hl hand.2)
  · exact h.nodup
  · intro q l hq hmem
    have hown := (howns q l).mp (.inr hq)
    rcases hown with (hmem' | hq') | ⟨-, rfl⟩
    · by_cases hqp : q = p
      · simp only [State.setPc, State.setLock, hqp, Function.update_self] at hq
        rw [← Pc.acqLeave.inj hq] at hmem
        exact hnot q (.inl hmem)
      · simp only [State.setPc, State.setLock, Function.update_of_ne hqp] at hq
        exact h.fresh q l hq hmem
    · exact h.fresh q l hq' hmem
    · exact hnot q (.inl hmem)

/-- `acquiresleep` returns. -/
theorem Inv.acqLeave (h : Inv s) (hpc : s.pc p = .acqLeave k) :
    Inv ((s.release p k .idle).setHeld p (k :: s.held p)) := by
  have howns : ∀ q l,
      ((s.release p k .idle).setHeld p (k :: s.held p)).Owns q l ↔
        s.Owns q l := by
    intro q l
    simp only [State.Owns, State.setHeld, State.release, State.setPc,
      State.setLock]
    by_cases hq : q = p
    · rw [hq, Function.update_self, Function.update_self, hpc, List.mem_cons]
      constructor
      · rintro ((rfl | hmem) | heq)
        · exact .inr rfl
        · exact .inl hmem
        · cases heq
      · rintro (hmem | heq)
        · exact .inl (.inr hmem)
        · exact .inl (.inl (Pc.acqLeave.inj heq).symm)
    · rw [Function.update_of_ne hq, Function.update_of_ne hq]
  have hspin : (s.pc p).spin = some k := by
    rw [hpc]
    rfl
  constructor
  · have hspins : (s.release p k .idle).Spins := h.spins.release hspin rfl
    exact hspins.keep (fun _ => rfl) fun _ => rfl
  · intro l
    simp only [howns]
    rw [← h.locked]
    exact Bool.eq_iff_iff.mp
      (locked_setLock (v := { s.lock k with lock := none }) rfl l)
  · intro l q r hq hr
    rw [howns] at hq hr
    exact h.unique l q r hq hr
  · intro q
    simp only [State.setHeld]
    by_cases hq : q = p
    · rw [hq, Function.update_self]
      exact List.nodup_cons.mpr ⟨h.fresh p k hpc, h.nodup p⟩
    · rw [Function.update_of_ne hq]
      exact h.nodup q
  · intro q l hq
    simp only [State.setHeld, State.release, State.setPc, State.setLock] at hq ⊢
    by_cases hqp : q = p
    · rw [hqp, Function.update_self] at hq
      cases hq
    · rw [Function.update_of_ne hqp] at hq ⊢
      exact h.fresh q l hq

/-- `locked = 0`, by the process that has the lock. -/
theorem Inv.relClear (h : Inv s) (hpc : s.pc p = .relClear k)
    (hmem : k ∈ s.held p) :
    Inv (((s.setLock k { s.lock k with locked := false, pid := none }).setPc p
      (.relWake k)).setHeld p ((s.held p).erase k)) := by
  have hother : ∀ q, s.Owns q k → q = p :=
    fun q hq => h.unique k q p hq (.inl hmem)
  have hout : k ∉ (s.held p).erase k := (h.nodup p).not_mem_erase
  have howns : ∀ q l, (((s.setLock k { s.lock k with
      locked := false, pid := none }).setPc p (.relWake k)).setHeld p
      ((s.held p).erase k)).Owns q l ↔ s.Owns q l ∧ l ≠ k := by
    intro q l
    simp only [State.Owns, State.setHeld, State.setPc, State.setLock]
    by_cases hq : q = p
    · rw [hq, Function.update_self, Function.update_self, hpc]
      constructor
      · rintro (hin | heq)
        · refine ⟨.inl (List.mem_of_mem_erase hin), ?_⟩
          rintro rfl
          exact hout hin
        · cases heq
      · rintro ⟨hin | heq, hl⟩
        · exact .inl ((List.mem_erase_of_ne hl).mpr hin)
        · cases heq
    · rw [Function.update_of_ne hq, Function.update_of_ne hq]
      refine ⟨fun hown => ⟨hown, ?_⟩, And.left⟩
      rintro rfl
      exact hq (hother q hown)
  constructor
  · refine h.spins.keep (fun l => ?_) (spin_setPc ?_)
    · simp only [State.setHeld, State.setPc, State.setLock]
      by_cases hl : l = k
      · rw [hl, Function.update_self]
      · rw [Function.update_of_ne hl]
    · change some k = (s.pc p).spin
      rw [hpc]
      rfl
  · intro l
    simp only [howns]
    by_cases hl : l = k
    · refine iff_of_false ?_ fun ⟨q, hq⟩ => hq.2 hl
      simp only [State.setHeld, State.setPc, State.setLock, hl,
        Function.update_self]
      exact Bool.false_ne_true
    · simp only [State.setHeld, State.setPc, State.setLock,
        Function.update_of_ne hl, h.locked]
      exact exists_congr fun q => (and_iff_left hl).symm
  · intro l q r hq hr
    rw [howns] at hq hr
    exact h.unique l q r hq.1 hr.1
  · intro q
    simp only [State.setHeld]
    by_cases hq : q = p
    · rw [hq, Function.update_self]
      exact (h.nodup p).erase k
    · rw [Function.update_of_ne hq]
      exact h.nodup q
  · intro q l hq
    simp only [State.setHeld, State.setPc, State.setLock] at hq ⊢
    by_cases hqp : q = p
    · rw [hqp, Function.update_self] at hq
      cases hq
    · rw [Function.update_of_ne hqp] at hq ⊢
      exact h.fresh q l hq

omit [DecidableEq P] in
/-- The sleepers wake up. -/
theorem Inv.wakeup (h : Inv s) (k : Key B I) : Inv (s.wakeup k) := by
  have hpc : ∀ q, (s.wakeup k).pc q = s.pc q ∨
      s.pc q = .asleep k ∧ (s.wakeup k).pc q = .woken k := by
    intro q
    simp only [State.wakeup]
    split
    · next hq => exact .inr ⟨hq, rfl⟩
    · exact .inl rfl
  refine h.keep (h.spins.keep (fun _ => rfl) fun q => ?_) (fun _ => rfl) rfl
    fun q l => ?_
  · rcases hpc q with heq | ⟨hold, hnew⟩
    · rw [heq]
    · rw [hold, hnew]
      rfl
  · rcases hpc q with heq | ⟨hold, hnew⟩
    · rw [heq]
    · rw [hold, hnew]
      exact iff_of_false nofun nofun

omit [DecidableEq B] [DecidableEq I] in
/-- A guard has let its caller pass. -/
theorem Inv.guarded (h : Inv s) {g : Guarded B I} (hp : s.pc p = .idle)
    (ht : s.guarded p g = .next t) : Inv t := by
  have hold : ∀ k, s.pc p ≠ .acqLeave k := by
    rw [hp]
    exact nofun
  cases g with
  | brelse b =>
      rw [← Outcome.next.inj ht]
      exact h.setPc (by rw [hp]; rfl) hold nofun
  | bwrite b =>
      rw [← Outcome.next.inj ht]
      exact h.setPc (by rw [hp]; rfl) hold nofun
  | iderw b =>
      simp only [State.guarded] at ht
      split_ifs at ht
      rw [← Outcome.next.inj ht]
      exact h.setPc (by rw [hp]; rfl) hold nofun
  | iunlock ip =>
      simp only [State.guarded] at ht
      split_ifs at ht
      rw [← Outcome.next.inj ht]
      exact h.setPc (by rw [hp]; rfl) hold nofun

theorem Inv.run (h : Inv s) (hrel : ∀ k, s.pc p = .relClear k → k ∈ s.held p)
    (ht : s.run p = .next t) : Inv t := by
  unfold State.run at ht
  split at ht
  · cases ht
  · next k hpc => exact h.acquire ht (by rw [hpc]; rfl) rfl nofun
  · next k hpc =>
      split at ht
      · rw [← Outcome.next.inj ht]
        exact h.release (by rw [hpc]; rfl) (by rw [hpc]; exact nofun) rfl nofun
      · next hfree =>
          rw [← Outcome.next.inj ht]
          exact h.lock hpc (Bool.eq_false_iff.mpr hfree)
  · cases ht
  · next k hpc => exact h.acquire ht (by rw [hpc]; rfl) rfl nofun
  · next k hpc =>
      rw [← Outcome.next.inj ht]
      exact h.acqLeave hpc
  · next k hpc => exact h.acquire ht (by rw [hpc]; rfl) rfl nofun
  · next k hpc =>
      rw [← Outcome.next.inj ht]
      exact h.relClear hpc (hrel k hpc)
  · next k hpc =>
      rw [← Outcome.next.inj ht]
      have hsame : (s.wakeup k).pc p = .relWake k := by
        simp only [State.wakeup]
        rw [if_neg (by rw [hpc]; exact nofun), hpc]
      exact (h.wakeup k).setPc (by rw [hsame]; rfl) (by rw [hsame]; exact nofun)
        nofun
  · next k hpc =>
      rw [← Outcome.next.inj ht]
      exact h.release (by rw [hpc]; rfl) (by rw [hpc]; exact nofun) rfl nofun
  · next g hpc => exact h.acquire ht (by rw [hpc]; rfl) rfl nofun
  · next g hpc =>
      rw [← Outcome.next.inj ht]
      exact h.setPc (by rw [hpc]; rfl) (by rw [hpc]; exact nofun) nofun
  · next g r hpc =>
      split at ht
      · have hreleased : Inv (s.release p g.lock .idle) :=
          h.release (by rw [hpc]; rfl) (by rw [hpc]; exact nofun) rfl nofun
        exact hreleased.guarded (Function.update_self ..) ht
      · cases ht
  · next b hpc =>
      rw [← Outcome.next.inj ht]
      have hsame : Inv (s.setBuf b { s.buf b with dirty := true }) :=
        h.same rfl rfl rfl
      have hpc' : (s.setBuf b { s.buf b with dirty := true }).pc p =
        .setDirty b := hpc
      exact hsame.setPc (by rw [hpc']; rfl) (by rw [hpc']; exact nofun) nofun
  · next b hpc =>
      rw [← Outcome.next.inj ht]
      have hsame : Inv (s.transfer b) := by
        simp only [State.transfer]
        split
        · exact h.same rfl rfl rfl
        · exact h.same rfl rfl rfl
      have hpc' : (s.transfer b).pc p = .transfer b := by
        simp only [State.transfer]
        split
        · exact hpc
        · exact hpc
      exact hsame.setPc (by rw [hpc']; rfl) (by rw [hpc']; exact nofun) nofun

/-- Every step that releases no lock of another process keeps the
invariant. -/
theorem Inv.step {a : Act P B I D} (h : Inv s) (ha : Releases s a)
    (ht : Sleeplock.step s a = .next t) : Inv t := by
  cases a with
  | acquiresleep p k =>
      simp only [Sleeplock.step] at ht
      split at ht
      · next hp =>
          rw [← Outcome.next.inj ht]
          exact h.setPc (by rw [hp]; rfl) (by rw [hp]; exact nofun) nofun
      · cases ht
  | releasesleep p k =>
      simp only [Sleeplock.step] at ht
      split at ht
      · next hp =>
          rw [← Outcome.next.inj ht]
          exact h.setPc (by rw [hp]; rfl) (by rw [hp]; exact nofun) nofun
      · cases ht
  | call p g =>
      simp only [Sleeplock.step] at ht
      split at ht
      · next hp =>
          rw [← Outcome.next.inj ht]
          exact h.setPc (by rw [hp]; rfl) (by rw [hp]; exact nofun) nofun
      · cases ht
  | run p => exact h.run ha ht
  | modify b v =>
      rw [← Outcome.next.inj ht]
      exact h.same rfl rfl rfl
  | count ip ref =>
      rw [← Outcome.next.inj ht]
      exact h.same rfl rfl rfl

omit [DecidableEq P] [DecidableEq B] [DecidableEq I] in
theorem Booted.inv (h : Booted s) : Inv s := by
  have hnot : ∀ p k, ¬ s.Owns p k := by
    intro p k hown
    rw [State.Owns, h.held, h.pc] at hown
    rcases hown with hown | hown <;> cases hown
  constructor
  · intro k p
    rw [(h.lock k).2, h.pc]
    exact iff_of_false nofun nofun
  · intro k
    rw [(h.lock k).1]
    exact iff_of_false Bool.false_ne_true fun ⟨p, hp⟩ => hnot p k hp
  · exact fun k p _ hp => absurd hp (hnot p k)
  · intro p
    rw [h.held]
    exact List.nodup_nil
  · intro p k hp
    exact absurd (.inr hp) (hnot p k)

theorem Inv.disciplined (h : Inv s) : Disciplined s := by
  have hanswer : ∀ p g, s.pc p = .holdRead g →
      ((s.lock g.lock).locked = true ↔ ∃ q, g.lock ∈ s.held q) := by
    intro p g hpc
    rw [h.locked]
    refine exists_congr fun q => or_iff_left ?_
    -- whoever is about to return from `acquiresleep` has the spin lock
    intro hq
    have h₁ := (h.spins g.lock q).mpr (by rw [hq]; rfl)
    have h₂ := (h.spins g.lock p).mpr (by rw [hpc]; rfl)
    rw [h₁] at h₂
    rw [Option.some.inj h₂, hpc] at hq
    cases hq
  constructor
  · exact fun k p q hp hq => h.unique k p q (.inl hp) (.inl hq)
  · exact hanswer
  · intro p g hpc hnone
    have hfree : (s.lock g.lock).locked = false := by
      refine Bool.eq_false_iff.mpr fun hlocked => ?_
      obtain ⟨q, hq⟩ := (hanswer p g hpc).mp hlocked
      exact hnone q hq
    simp only [Sleeplock.step, State.run, hpc, hfree]
  · intro p g hpc
    simp only [Sleeplock.step, State.run, hpc]
    rfl

end Owners

/-- Sleep locks exclude each other's holders, and the guards reject the callers
of a lock that is free. -/
theorem sleeplocks_disciplined {P B I D : Type*} [DecidableEq P]
    [DecidableEq B] [DecidableEq I] {s t : State P B I D}
    {w : List (Act P B I D)} (hs : Booted s) (hrun : Run step s w t)
    (hw : Meets step Releases s w) : Disciplined t :=
  (hrun.invariant_of_meets (fun _ _ _ hI ha ht => Inv.step hI ha ht) hw
    hs.inv).disciplined

/-- One buffer, and no inode. -/
def State.boot : State (Fin 2) Unit Empty ℕ where
  lock _ := { locked := false, pid := none, lock := none }
  buf _ := { dev := 0, blockno := 0, valid := false, dirty := false, data := 0 }
  disk _ _ := 0
  havedisk1 := false
  ref _ := 0
  pc _ := .idle
  held _ := []

theorem State.boot_booted : Booted State.boot where
  lock _ := ⟨rfl, rfl⟩
  pc _ := rfl
  held _ := rfl

/-- Process 0 has the buffer, and process 1 has called `brelse`. -/
def released : List (Act (Fin 2) Unit Empty ℕ) :=
  [.acquiresleep 0 (.buf ()), .run 0, .run 0, .run 0, .call 1 (.brelse ()),
    .run 1, .run 1]

theorem sleeplocks_disciplined_released :
    ∃ t, Run step State.boot released t ∧ Disciplined t ∧
      t.held 0 = [.buf ()] := by
  obtain ⟨t, hrun, ht⟩ := Run.exists_of_exec step State.boot released
    (fun t => t.held 0 = [.buf ()]) (by decide +kernel)
  have hw : Meets step Releases State.boot released := by
    decide +kernel
  exact ⟨t, hrun, sleeplocks_disciplined State.boot_booted hrun hw,
    of_decide_eq_true ht⟩

/-- The guard of `brelse` lets a process pass that does not hold the lock,
because another process does. -/
theorem guard_passes_other :
    ¬ ∀ (s t : State (Fin 2) Unit Empty ℕ) (w : List (Act (Fin 2) Unit Empty ℕ)),
      Booted s → Run step s w t → Meets step Releases s w → Strict t := by
  intro h
  obtain ⟨t, hrun, ht⟩ := Run.exists_of_exec step State.boot released
    (fun t => t.pc 1 = .holdLeave (.brelse ()) true && t.held 1 = [])
    (by decide +kernel)
  have hw : Meets step Releases State.boot released := by
    decide +kernel
  simp only [Bool.and_eq_true, decide_eq_true_eq] at ht
  obtain ⟨message, hpanic⟩ :=
    (h _ t _ State.boot_booted hrun hw).reject 1 (.brelse ()) true ht.1 (by
      rw [ht.2]
      exact List.not_mem_nil)
  simp only [step, State.run, ht.1] at hpanic
  cases hpanic

end ZtlOs.Sleeplock
