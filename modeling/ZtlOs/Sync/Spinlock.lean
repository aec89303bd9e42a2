import ZtlOs.Support.Runs
import Mathlib.Tactic.Common
import Mathlib.Data.BitVec

/-!
# Spin locks and the nesting of `pushcli`

One CPU's view of `spinlock.c`: its `struct cpu`, its EFLAGS register, and the
spin locks of the machine.  The other CPUs appear as steps that change locks
which this CPU does not hold.

The nesting depth `ncli` is an `int` of the source and is kept here as a
32-bit word, so that it wraps where the machine's counter wraps.
-/

namespace ZtlOs.Spinlock

open ZtlOs.Support

/-- The interrupt enable bit of EFLAGS. -/
def FL_IF : BitVec 32 := 0x200#32

/-- `struct cpu`, with the EFLAGS register of that CPU. -/
structure Cpu where
  ncli : BitVec 32
  intena : BitVec 32
  eflags : BitVec 32
  deriving DecidableEq, Repr

/-- `struct spinlock`, less the fields kept for debugging only. -/
structure Lock where
  locked : BitVec 32
  cpu : Option ℕ
  deriving DecidableEq, Repr

def Cpu.interruptFlag (c : Cpu) : Bool :=
  c.eflags &&& FL_IF != 0

def Cpu.cli (c : Cpu) : Cpu :=
  { c with eflags := c.eflags &&& ~~~FL_IF }

def Cpu.sti (c : Cpu) : Cpu :=
  { c with eflags := c.eflags ||| FL_IF }

def initlock : Lock := { locked := 0, cpu := none }

/-- Whether CPU `me` is holding the lock. -/
def holding (me : ℕ) (lock : Lock) : Bool :=
  lock.locked != 0 && lock.cpu == some me

def pushcli (c : Cpu) : Cpu :=
  { c.cli with
    intena := if c.ncli = 0 then c.eflags &&& FL_IF else c.intena
    ncli := c.ncli + 1 }

/-- `popcli` enables interrupts whenever the depth is back at zero; it does
not look at `intena`. -/
def popcli (c : Cpu) : Outcome Cpu :=
  if c.interruptFlag then
    .panic "popcli - interruptible"
  else
    let c := { c with ncli := c.ncli - 1 }
    if c.ncli.toInt < 0 then
      .panic "popcli"
    else
      .next (if c.ncli = 0 then c.sti else c)

/-- A CPU together with all spin locks, which are named by `L`. -/
structure Machine (L : Type*) where
  cpu : Cpu
  locks : L → Lock

/-- The calls of one CPU, and what the other CPUs do between them. -/
inductive Call (L : Type*) where
  | pushcli
  | popcli
  | acquire (lock : L)
  | release (lock : L)
  /-- The other CPUs leave `lock` in the state `value`. -/
  | others (lock : L) (value : Lock)
  deriving DecidableEq

namespace Call

variable {L : Type*}

/-- The call opens a level of nesting. -/
def opens : Call L → Bool
  | .pushcli | .acquire _ => true
  | _ => false

/-- The call closes a level of nesting. -/
def closes : Call L → Bool
  | .popcli | .release _ => true
  | _ => false

end Call

section Machine

variable {L : Type*} [DecidableEq L]

def Machine.setLock (m : Machine L) (lock : L) (value : Lock) : Machine L :=
  { m with locks := Function.update m.locks lock value }

/-- `acquire` on CPU `me`.  The `xchg` loop ends when the lock is found free,
so the call is blocked while another CPU has it. -/
def acquire (me : ℕ) (m : Machine L) (lock : L) : Outcome (Machine L) :=
  let c := pushcli m.cpu
  if holding me (m.locks lock) then
    .panic "acquire"
  else if (m.locks lock).locked ≠ 0 then
    .blocked
  else
    .next { m.setLock lock { locked := 1, cpu := some me } with cpu := c }

def release (me : ℕ) (m : Machine L) (lock : L) : Outcome (Machine L) :=
  if holding me (m.locks lock) = false then
    .panic "release"
  else
    match popcli m.cpu with
    | .next c => .next { m.setLock lock initlock with cpu := c }
    | .panic message => .panic message
    | .blocked => .blocked

/-- One call of CPU `me`, or one change made by the other CPUs.  Those neither
take a lock from `me` nor take one in its name. -/
def step (me : ℕ) (m : Machine L) : Call L → Outcome (Machine L)
  | .pushcli => .next { m with cpu := pushcli m.cpu }
  | .popcli =>
      match popcli m.cpu with
      | .next c => .next { m with cpu := c }
      | .panic message => .panic message
      | .blocked => .blocked
  | .acquire lock => acquire me m lock
  | .release lock => release me m lock
  | .others lock value =>
      if holding me (m.locks lock) || holding me value then .blocked
      else .next (m.setLock lock value)

end Machine

/-! ## Nesting -/

section Nesting

variable {L : Type*}

/-- The depth after the calls `w`, started at depth `d`; `none` when some call
closes a level that is not open. -/
def depthAfter : ℕ → List (Call L) → Option ℕ
  | d, [] => some d
  | d, c :: w =>
      if c.opens then depthAfter (d + 1) w
      else if c.closes then
        match d with
        | 0 => none
        | d + 1 => depthAfter d w
      else depthAfter d w

/-- Every opened level is closed again and no other level is closed. -/
def WellNested (w : List (Call L)) : Prop :=
  depthAfter 0 w = some 0

instance (w : List (Call L)) : Decidable (WellNested w) :=
  inferInstanceAs (Decidable (depthAfter 0 w = some 0))

theorem depthAfter_opens {c : Call L} (ho : c.opens = true) (d : ℕ)
    (w : List (Call L)) : depthAfter d (c :: w) = depthAfter (d + 1) w := by
  simp [depthAfter, ho]

theorem depthAfter_closes {c : Call L} (hc : c.closes = true) (d : ℕ)
    (w : List (Call L)) : depthAfter (d + 1) (c :: w) = depthAfter d w := by
  cases c <;> first | rfl | cases hc

theorem depthAfter_closes_zero {c : Call L} (hc : c.closes = true)
    (w : List (Call L)) : depthAfter 0 (c :: w) = none := by
  cases c <;> first | rfl | cases hc

theorem depthAfter_others {c : Call L} (ho : c.opens = false)
    (hc : c.closes = false) (d : ℕ) (w : List (Call L)) :
    depthAfter d (c :: w) = depthAfter d w := by
  simp [depthAfter, ho, hc]

/-- Some call of this CPU occurs in `w`. -/
def HasCall (w : List (Call L)) : Prop :=
  ∃ c ∈ w, c.opens = true ∨ c.closes = true

theorem depthAfter_of_no_call {w : List (Call L)} (h : ¬ HasCall w) (d : ℕ) :
    depthAfter d w = some d := by
  induction w with
  | nil => rfl
  | cons c w ih =>
      have hc : ¬ (c.opens = true ∨ c.closes = true) := fun hc =>
        h ⟨c, List.mem_cons_self, hc⟩
      have hw : ¬ HasCall w := fun ⟨e, he, hcall⟩ =>
        h ⟨e, List.mem_cons_of_mem c he, hcall⟩
      rw [not_or, Bool.not_eq_true, Bool.not_eq_true] at hc
      rw [depthAfter_others hc.1 hc.2]
      exact ih hw

end Nesting

/-! ## What each call does to the CPU -/

@[simp] theorem interruptFlag_cli (c : Cpu) : c.cli.interruptFlag = false := by
  have h : c.eflags &&& ~~~FL_IF &&& FL_IF = 0 := by
    ext i hi
    simp only [BitVec.getElem_and, BitVec.getElem_not]
    cases FL_IF[i] <;> simp
  simp [Cpu.interruptFlag, Cpu.cli, h]

@[simp] theorem interruptFlag_sti (c : Cpu) : c.sti.interruptFlag = true := by
  have h : (c.eflags ||| FL_IF) &&& FL_IF = FL_IF := by
    ext i hi
    simp only [BitVec.getElem_and, BitVec.getElem_or]
    cases FL_IF[i] <;> simp
  simp only [Cpu.interruptFlag, Cpu.sti, h]
  decide

@[simp] theorem ncli_pushcli (c : Cpu) : (pushcli c).ncli = c.ncli + 1 :=
  rfl

@[simp] theorem interruptFlag_pushcli (c : Cpu) :
    (pushcli c).interruptFlag = false :=
  interruptFlag_cli c

/-- A `popcli` that returns has lowered the depth by one, and has enabled
interrupts if that made it zero. -/
theorem popcli_next {c c' : Cpu} (h : popcli c = .next c') :
    c'.ncli = c.ncli - 1 ∧
      (c'.ncli = 0 → c'.interruptFlag = true) := by
  unfold popcli at h
  split at h
  · cases h
  · dsimp only at h
    split at h
    · cases h
    · cases h
      split
      next hzero => exact ⟨rfl, fun _ => interruptFlag_sti _⟩
      next hpos => exact ⟨rfl, fun hz => absurd hz hpos⟩

section Steps

variable {L : Type*} [DecidableEq L] {me : ℕ} {m m' : Machine L}

/-- A call that opens a level raises the depth by one. -/
theorem step_opens {c : Call L} (hc : c.opens = true)
    (h : step me m c = .next m') : m'.cpu.ncli = m.cpu.ncli + 1 := by
  cases c with
  | pushcli =>
      cases h
      exact ncli_pushcli m.cpu
  | acquire lock =>
      simp only [step, acquire] at h
      split at h
      · cases h
      · split at h
        · cases h
        · cases h
          exact ncli_pushcli m.cpu
  | popcli => cases hc
  | release lock => cases hc
  | others lock value => cases hc

/-- A call that closes a level lowers the depth by one, and enables interrupts
if that made it zero. -/
theorem step_closes {c : Call L} (hc : c.closes = true)
    (h : step me m c = .next m') :
    m'.cpu.ncli = m.cpu.ncli - 1 ∧
      (m'.cpu.ncli = 0 → m'.cpu.interruptFlag = true) := by
  cases c with
  | popcli =>
      simp only [step] at h
      cases hp : popcli m.cpu with
      | next c' =>
          rw [hp] at h
          cases h
          exact popcli_next hp
      | panic message => rw [hp] at h; cases h
      | blocked => rw [hp] at h; cases h
  | release lock =>
      simp only [step, release] at h
      split at h
      · cases h
      · cases hp : popcli m.cpu with
        | next c' =>
            rw [hp] at h
            cases h
            exact popcli_next hp
        | panic message => rw [hp] at h; cases h
        | blocked => rw [hp] at h; cases h
  | pushcli => cases hc
  | acquire lock => cases hc
  | others lock value => cases hc

/-- The other CPUs do not touch this CPU. -/
theorem step_others {c : Call L} (ho : c.opens = false) (hc : c.closes = false)
    (h : step me m c = .next m') : m'.cpu = m.cpu := by
  cases c with
  | others lock value =>
      simp only [step] at h
      split at h
      · cases h
      · cases h
        rfl
  | pushcli => cases ho
  | acquire lock => cases ho
  | popcli => cases hc
  | release lock => cases hc

/-! ## The interrupt flag after a well-nested sequence -/

/-- A completed sequence that ends at depth zero either made no call and kept
the flag, or ended with interrupts enabled. -/
theorem interruptFlag_of_depthAfter {w : List (Call L)} {d : ℕ}
    (hrun : Run (step me) m w m') (hd : depthAfter d w = some 0)
    (hncli : m.cpu.ncli = BitVec.ofNat 32 d) :
    (HasCall w ∧ m'.cpu.interruptFlag = true) ∨
      (¬ HasCall w ∧ m'.cpu = m.cpu) := by
  induction w generalizing m d with
  | nil =>
      right
      refine ⟨?_, by rw [hrun.nil_inv]⟩
      rintro ⟨c, hc, -⟩
      cases hc
  | cons c w ih =>
      obtain ⟨t, head, tail⟩ := hrun.cons_inv
      by_cases ho : c.opens = true
      · -- The level opened here has to be closed later in `w`.
        rw [depthAfter_opens ho] at hd
        have ht : t.cpu.ncli = BitVec.ofNat 32 (d + 1) := by
          rw [step_opens ho head, hncli, BitVec.ofNat_add]
          rfl
        rcases ih tail hd ht with ⟨-, hflag⟩ | ⟨hno, -⟩
        · exact Or.inl ⟨⟨c, List.mem_cons_self, Or.inl ho⟩, hflag⟩
        · rw [depthAfter_of_no_call hno] at hd
          cases hd
      · by_cases hc : c.closes = true
        · cases d with
          | zero =>
              rw [depthAfter_closes_zero hc] at hd
              cases hd
          | succ d =>
              rw [depthAfter_closes hc] at hd
              obtain ⟨hdepth, hsti⟩ := step_closes hc head
              have ht : t.cpu.ncli = BitVec.ofNat 32 d := by
                rw [hdepth, hncli, BitVec.ofNat_add]
                exact BitVec.add_sub_cancel _ _
              left
              refine ⟨⟨c, List.mem_cons_self, Or.inr hc⟩, ?_⟩
              rcases ih tail hd ht with ⟨-, hflag⟩ | ⟨hno, hsame⟩
              · exact hflag
              · -- No call follows, so this one has brought the depth to zero.
                rw [depthAfter_of_no_call hno] at hd
                cases hd
                rw [hsame]
                exact hsti ht
        · rw [Bool.not_eq_true] at ho hc
          rw [depthAfter_others ho hc] at hd
          have hsame := step_others ho hc head
          rcases ih tail hd (by rw [hsame]; exact hncli) with
            ⟨⟨e, he, hcall⟩, hflag⟩ | ⟨hno, hkept⟩
          · exact Or.inl ⟨⟨e, List.mem_cons_of_mem c he, hcall⟩, hflag⟩
          · right
            refine ⟨?_, hkept.trans hsame⟩
            rintro ⟨e, he, hcall⟩
            rcases List.mem_cons.mp he with rfl | he
            · rcases hcall with h | h
              · rw [ho] at h
                cases h
              · rw [hc] at h
                cases h
            · exact hno ⟨e, he, hcall⟩

/-- A completed well-nested sequence gives the interrupt flag back exactly
when interrupts were on before it or it made no call at all: `popcli` enables
interrupts at depth zero whatever they were before. -/
theorem interruptFlag_restored_iff {w : List (Call L)}
    (hncli : m.cpu.ncli = 0) (hw : WellNested w)
    (hrun : Run (step me) m w m') :
    m'.cpu.interruptFlag = m.cpu.interruptFlag ↔
      m.cpu.interruptFlag = true ∨ ¬ HasCall w := by
  rcases interruptFlag_of_depthAfter hrun hw hncli with
    ⟨hcall, hflag⟩ | ⟨hno, hsame⟩
  · rw [hflag]
    constructor
    · exact fun h => Or.inl h.symm
    · rintro (h | h)
      · exact h.symm
      · exact absurd hcall h
  · rw [hsame]
    exact iff_of_true rfl (Or.inr hno)

end Steps

/-- CPU 0 with interrupts off, and one lock, which is free. -/
def interruptsOff : Machine Unit where
  cpu := { ncli := 0, intena := 0, eflags := 0x2#32 }
  locks := fun _ => initlock

/-- The same CPU after it has acquired and released the lock. -/
def interruptsOffAfter : Machine Unit where
  cpu := { ncli := 0, intena := 0, eflags := 0x202#32 }
  locks := Function.update (Function.update (fun _ => initlock) ()
    { locked := 1, cpu := some 0 }) () initlock

theorem interruptsOff_acquire_release :
    Run (step 0) interruptsOff [.acquire (), .release ()]
      interruptsOffAfter :=
  .cons rfl (.cons rfl (.nil _))

theorem interruptFlag_restored_iff_acquire_release :
    interruptsOffAfter.cpu.interruptFlag =
        interruptsOff.cpu.interruptFlag ↔
      interruptsOff.cpu.interruptFlag = true ∨
        ¬ HasCall [Call.acquire (), Call.release ()] :=
  interruptFlag_restored_iff rfl (by decide) interruptsOff_acquire_release

/-- Interrupts that were off before one `acquire` and its `release` are on
after them. -/
theorem interruptFlag_not_always_restored :
    ¬ ∀ (m m' : Machine Unit) (w : List (Call Unit)),
      m.cpu.ncli = 0 → WellNested w → Run (step 0) m w m' →
        m'.cpu.interruptFlag = m.cpu.interruptFlag := by
  intro h
  have hflag := h interruptsOff interruptsOffAfter _ rfl (by decide)
    interruptsOff_acquire_release
  exact absurd hflag (by decide)

/-! ## Nested sequences complete -/

section Completion

variable {L : Type*} [DecidableEq L] {me : ℕ}

/-- What `pushcli` and `popcli` keep at depth `d`: the counter is the depth,
and interrupts are off while a level is open. -/
structure AtDepth (c : Cpu) (d : ℕ) : Prop where
  ncli : c.ncli = BitVec.ofNat 32 d
  off : 0 < d → c.interruptFlag = false

theorem AtDepth.pushcli {c : Cpu} {d : ℕ} (h : AtDepth c d) :
    AtDepth (pushcli c) (d + 1) where
  ncli := by rw [ncli_pushcli, h.ncli, BitVec.ofNat_add]; rfl
  off := fun _ => interruptFlag_pushcli c

/-- Below the range of `int`, closing an open level does not panic. -/
theorem AtDepth.popcli {c : Cpu} {d : ℕ} (h : AtDepth c (d + 1))
    (hd : d < 2 ^ 31) : ∃ c', popcli c = .next c' ∧ AtDepth c' d := by
  have hncli : c.ncli - 1 = BitVec.ofNat 32 d := by
    rw [h.ncli, BitVec.ofNat_add]
    exact BitVec.add_sub_cancel _ _
  have hsign : ¬ (BitVec.ofNat 32 d).toInt < 0 := by
    rw [BitVec.toInt_ofNat']
    simp only [Int.bmod_def]
    omega
  simp only [Spinlock.popcli, h.off (Nat.succ_pos d), hncli,
    Bool.false_eq_true, if_false, hsign]
  refine ⟨_, rfl, ?_⟩
  split
  next hzero =>
    refine ⟨rfl, fun hpos => ?_⟩
    -- A depth in the range of `int` that is zero as a word is zero.
    have hz : d % 2 ^ 32 = 0 := by
      simpa using congrArg BitVec.toNat hzero
    omega
  next => exact ⟨rfl, fun _ => h.off (Nat.succ_pos d)⟩

/-- A sequence of `pushcli` and `popcli` calls that closes only open levels
and stays in the range of `int` runs to its end. -/
theorem exists_run_of_depthAfter {w : List (Call L)} {d e : ℕ}
    (hcalls : ∀ c ∈ w, c = .pushcli ∨ c = .popcli)
    (hd : depthAfter d w = some e)
    (hint : ∀ v k, v <+: w → depthAfter d v = some k → k < 2 ^ 31)
    (m : Machine L) (hm : AtDepth m.cpu d) :
    ∃ m', Run (step me) m w m' := by
  induction w generalizing m d with
  | nil => exact ⟨m, .nil m⟩
  | cons c w ih =>
      have htail : ∀ c ∈ w, c = .pushcli ∨ c = .popcli := fun e he =>
        hcalls e (List.mem_cons_of_mem c he)
      rcases hcalls c List.mem_cons_self with rfl | rfl
      · rw [depthAfter_opens rfl] at hd
        obtain ⟨m', hrun⟩ := ih htail hd
          (fun v k hv hk => hint (.pushcli :: v) k
            (List.cons_prefix_cons.mpr ⟨rfl, hv⟩)
            ((depthAfter_opens rfl d v).trans hk))
          { m with cpu := pushcli m.cpu } hm.pushcli
        exact ⟨m', .cons rfl hrun⟩
      · cases d with
        | zero =>
            rw [depthAfter_closes_zero rfl] at hd
            cases hd
        | succ d =>
            rw [depthAfter_closes rfl] at hd
            have hlt : d < 2 ^ 31 := by
              have := hint [] (d + 1) List.nil_prefix rfl
              omega
            obtain ⟨c', hpop, hc'⟩ := hm.popcli hlt
            obtain ⟨m', hrun⟩ := ih htail hd
              (fun v k hv hk => hint (.popcli :: v) k
                (List.cons_prefix_cons.mpr ⟨rfl, hv⟩)
                ((depthAfter_closes rfl d v).trans hk))
              { m with cpu := c' } hc'
            have hstep : step me m .popcli = .next { m with cpu := c' } := by
              simp only [step, hpop]
            exact ⟨m', .cons hstep hrun⟩

end Completion

end ZtlOs.Spinlock
