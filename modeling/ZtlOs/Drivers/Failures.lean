import ZtlOs.Drivers.Ide

/-!
# Disk errors

`bread` and `bwrite` over `ide.c`, with a disk that may end a command with an
error, in which case nothing has been transferred.  What happens under
`idelock` is one step here, and `idequeue` is a list.  The buffer cache keeps
at most one buffer for a block.
-/

namespace ZtlOs.Drivers.Failures

open ZtlOs.Support ZtlOs.Fs ZtlOs.Drivers.Ide

/-- Where a process stands in `iderw`. -/
inductive Pc (B : Type*) where
  | idle
  /-- Before `acquire(&idelock)`. -/
  | enter (b : B)
  | sleep (b : B)
  deriving DecidableEq

structure State (P B D : Type*) where
  buf : B → Buf P D
  idequeue : List B
  havedisk1 : Bool
  device : Device D
  /-- `IDE_DF` or `IDE_ERR` in the status of the last command. -/
  error : Bool
  disk : ℕ → ℕ → D
  pc : P → Pc B

inductive Act (P B D : Type*) where
  /-- `bread` of a block, for which `bget` finds or recycles the buffer `b`. -/
  | bread (p : P) (b : B) (dev blockno : BitVec 32)
  /-- `bwrite` of the data that the holder has put into the buffer. -/
  | bwrite (p : P) (b : B) (data : D)
  | brelse (p : P) (b : B)
  /-- The next step of a process in `iderw`. -/
  | run (p : P)
  /-- The disk ends its command, with an error or without. -/
  | complete (error : Bool)
  | ideintr
  deriving DecidableEq

section Step

variable {P B D : Type*} [DecidableEq B]

def State.setBuf (s : State P B D) (b : B) (v : Buf P D) : State P B D :=
  { s with buf := Function.update s.buf b v }

/-- The contents of the block of a buffer. -/
def State.block (s : State P B D) (b : B) : D :=
  s.disk ((s.buf b).dev.toNat % 2) (s.buf b).blockno.toNat

def State.idestart (s : State P B D) (b : B) : Outcome (State P B D) :=
  let v := s.buf b
  if v.blockno.toNat ≥ FSSIZE then
    .panic "incorrect blockno"
  else if s.device.status = .busy then
    .blocked
  else
    .next { s with
      error := false
      device :=
        { s.device with
          status := .busy
          regs := regs v.dev v.blockno
          write := if v.dirty then some v.data else none } }

/-- The disk ends its command. -/
def State.complete (s : State P B D) (error : Bool) : State P B D :=
  let r := s.device.regs
  if error then
    { s with error := true, device := { s.device with status := .done } }
  else
    match s.device.write with
    | some d =>
        { s with
          device := { s.device with status := .done }
          disk := Function.update s.disk r.drive
            (Function.update (s.disk r.drive) r.sector d) }
    | none =>
        { s with
          device :=
            { s.device with status := .done, fifo := s.disk r.drive r.sector } }

/-- The data after the handler: it reads from the disk if the buffer is not
dirty and `idewait(1)` reports no error. -/
def State.intrData (s : State P B D) (b : B) : D :=
  if (s.buf b).dirty = false ∧ s.error = false then s.device.fifo
  else (s.buf b).data

def State.ideintr (s : State P B D) : Outcome (State P B D) :=
  match s.idequeue with
  | [] => .next { s with device := { s.device with status := .idle } }
  | b :: q =>
      let t :=
        { s.setBuf b { s.buf b with
            data := s.intrData b, valid := true, dirty := false } with
          idequeue := q
          device := { s.device with status := .idle } }
      match q with
      | [] => .next t
      | c :: _ => t.idestart c

variable [DecidableEq P]

def State.setPc (s : State P B D) (p : P) (pc : Pc B) : State P B D :=
  { s with pc := Function.update s.pc p pc }

/-- `iderw` up to `acquire(&idelock)`, for the holder of the buffer. -/
def State.iderw (s : State P B D) (p : P) (b : B) : Outcome (State P B D) :=
  if (s.buf b).clean then
    .panic "iderw: nothing to do"
  else if (s.buf b).dev ≠ 0 ∧ s.havedisk1 = false then
    .panic "iderw: ide disk 1 not present"
  else
    .next (s.setPc p (.enter b))

/-- The buffer has been used for a block. -/
def State.used (s : State P B D) (b : B) : Bool :=
  (s.buf b).valid || (s.buf b).lock.isSome

/-- `bget` may return `b` for the block: no other buffer is used for it. -/
def State.Gets [Fintype B] (s : State P B D) (b : B) (dev blockno : BitVec 32) :
    Prop :=
  (s.buf b).lock = none ∧ dev.toNat < 2 ∧ ∀ c ≠ b, s.used c = true →
    ¬((s.buf c).dev = dev ∧ (s.buf c).blockno = blockno)

instance [Fintype B] (s : State P B D) (b : B) (dev blockno : BitVec 32) :
    Decidable (s.Gets b dev blockno) :=
  inferInstanceAs (Decidable (_ ∧ _))

/-- The buffer as `bget` returns it; a recycled one has no flags. -/
def State.bget (s : State P B D) (p : P) (b : B) (dev blockno : BitVec 32) :
    Buf P D :=
  if (s.buf b).dev = dev ∧ (s.buf b).blockno = blockno then
    { s.buf b with lock := some p }
  else
    { dev := dev, blockno := blockno, lock := some p, valid := false
      dirty := false, data := (s.buf b).data }

def State.run (s : State P B D) (p : P) : Outcome (State P B D) :=
  match s.pc p with
  | .idle => .blocked
  | .enter b =>
      let t := { s.setPc p (.sleep b) with idequeue := s.idequeue ++ [b] }
      -- Start disk if necessary.
      if s.idequeue = [] then t.idestart b else .next t
  | .sleep b =>
      if (s.buf b).clean then .next (s.setPc p .idle) else .blocked

def step [Fintype B] (s : State P B D) : Act P B D → Outcome (State P B D)
  | .bread p b dev blockno =>
      if s.pc p = .idle ∧ s.Gets b dev blockno then
        let t := s.setBuf b (s.bget p b dev blockno)
        if (t.buf b).valid then .next t else t.iderw p b
      else .blocked
  | .bwrite p b data =>
      if s.pc p = .idle ∧ (s.buf b).lock = some p then
        (s.setBuf b { s.buf b with data := data, dirty := true }).iderw p b
      else .blocked
  | .brelse p b =>
      if s.pc p = .idle ∧ (s.buf b).lock = some p then
        .next (s.setBuf b { s.buf b with lock := none })
      else .blocked
  | .run p => s.run p
  | .complete error =>
      if s.device.status = .busy then .next (s.complete error) else .blocked
  | .ideintr =>
      if s.device.status = .done ∨ s.idequeue = [] then s.ideintr else .blocked

/-- The buffer that a step returns from `bread` or `bwrite`. -/
def State.returned (s t : State P B D) : Act P B D → Option B
  | .bread p b _ _ => if t.pc p = .idle then some b else none
  | .run p =>
      match s.pc p with
      | .sleep b => some b
      | _ => none
  | _ => none

end Step

/-- No buffer is in use, and the disk does nothing. -/
structure Booted {P B D : Type*} (s : State P B D) : Prop where
  pc : ∀ p, s.pc p = .idle
  idequeue : s.idequeue = []
  status : s.device.status = .idle
  buf : ∀ b, (s.buf b).lock = none ∧ (s.buf b).valid = false ∧
    (s.buf b).dirty = false

/-- The step is not a failure of the disk. -/
def NoError {P B D : Type*} (_ : State P B D) (a : Act P B D) : Prop :=
  a ≠ .complete true

instance {P B D : Type*} (s : State P B D) (a : Act P B D) :
    Decidable (NoError s a) := by
  unfold NoError
  cases a with
  | complete error =>
      exact decidable_of_iff (error = false) (by cases error <;> simp)
  | _ => exact .isTrue (by simp)

/-- A buffer that is valid and not dirty has the contents of its block, and so
has every buffer that `bread` and `bwrite` return. -/
structure Faithful {P B D : Type*} [DecidableEq P] [DecidableEq B] [Fintype B]
    (s : State P B D) : Prop where
  clean : ∀ b, (s.buf b).clean = true → (s.buf b).data = s.block b
  returned : ∀ a t b, step s a = .next t → s.returned t a = some b →
    (t.buf b).clean = true ∧ (t.buf b).data = t.block b

/-! ## Without failures -/

section Invariant

variable {P B D : Type*} {s t : State P B D} {p : P} {b c : B}

/-- The last command was for a buffer. -/
structure State.Commanded (s : State P B D) (b : B) : Prop where
  blockno : (s.buf b).blockno.toNat < FSSIZE
  regs : s.device.regs = regs (s.buf b).dev (s.buf b).blockno
  write : s.device.write =
    if (s.buf b).dirty then some (s.buf b).data else none
  done : s.device.status = .done →
    if (s.buf b).dirty then s.block b = (s.buf b).data
    else s.device.fifo = s.block b

/-- What the steps keep as long as no command fails. -/
structure Inv (s : State P B D) : Prop where
  nodup : s.idequeue.Nodup
  queued : ∀ b ∈ s.idequeue, (s.buf b).clean = false ∧ ∃ p, s.pc p = .sleep b
  entering : ∀ p b, s.pc p = .enter b → (s.buf b).lock = some p ∧
    b ∉ s.idequeue ∧ (s.buf b).clean = false
  asleep : ∀ p b, s.pc p = .sleep b → (s.buf b).lock = some p ∧
    (b ∈ s.idequeue ∨ (s.buf b).clean = true)
  status : s.device.status = .idle ↔ s.idequeue = []
  error : s.device.status ≠ .idle → s.error = false
  command : ∀ b q, s.idequeue = b :: q → s.Commanded b
  dev : ∀ b, s.used b = true → (s.buf b).dev.toNat < 2
  unique : ∀ b c, s.used b = true → s.used c = true →
    (s.buf b).dev = (s.buf c).dev → (s.buf b).blockno = (s.buf c).blockno →
    b = c
  dirty : ∀ b, (s.buf b).dirty = true →
    ∃ p, s.pc p = .enter b ∨ s.pc p = .sleep b
  faithful : ∀ b, (s.buf b).clean = true → (s.buf b).data = s.block b

theorem idestart_eq_next (h : s.idestart b = .next t) :
    (s.buf b).blockno.toNat < FSSIZE ∧ t = { s with
      error := false
      device :=
        { s.device with
          status := .busy
          regs := regs (s.buf b).dev (s.buf b).blockno
          write := if (s.buf b).dirty then some (s.buf b).data else none } } := by
  simp only [State.idestart] at h
  split at h
  · cases h
  · next hblock =>
      split at h
      · cases h
      · exact ⟨by omega, (Outcome.next.inj h).symm⟩

theorem Booted.inv (h : Booted s) : Inv s := by
  have hclean : ∀ b, (s.buf b).clean = false := by
    intro b
    rw [Buf.clean, (h.buf b).2.1]
    rfl
  have hunused : ∀ b, s.used b = false := by
    intro b
    rw [State.used, (h.buf b).1, (h.buf b).2.1]
    rfl
  constructor
  · rw [h.idequeue]
    exact List.nodup_nil
  · rw [h.idequeue]
    exact fun b hb => absurd hb List.not_mem_nil
  · intro p b hp
    rw [h.pc] at hp
    cases hp
  · intro p b hp
    rw [h.pc] at hp
    cases hp
  · exact iff_of_true h.status h.idequeue
  · exact fun hne => absurd h.status hne
  · intro b q hq
    rw [h.idequeue] at hq
    cases hq
  · intro b hb
    rw [hunused] at hb
    cases hb
  · intro b c hb
    rw [hunused] at hb
    cases hb
  · intro b hb
    rw [(h.buf b).2.2] at hb
    cases hb
  · intro b hb
    rw [hclean] at hb
    cases hb

theorem lock_used (h : (s.buf b).lock = some p) : s.used b = true := by
  rw [State.used, h]
  exact Bool.or_true _

theorem clean_used (h : (s.buf b).clean = true) : s.used b = true := by
  have hvalid := (Bool.and_eq_true_iff.mp h).1
  rw [State.used, hvalid]
  rfl

theorem Inv.used_of_mem (h : Inv s) (hb : b ∈ s.idequeue) :
    s.used b = true := by
  obtain ⟨-, p, hp⟩ := h.queued b hb
  exact lock_used (h.asleep p b hp).1

/-- The block that the disk writes belongs to no other buffer. -/
theorem Inv.block_of_ne (h : Inv s) (hb : s.used b = true)
    (hc : s.used c = true) (hne : c ≠ b) {d : D}
    (hblock : (s.buf b).blockno.toNat < FSSIZE) :
    let r := regs (s.buf b).dev (s.buf b).blockno
    Function.update s.disk r.drive (Function.update (s.disk r.drive) r.sector d)
      ((s.buf c).dev.toNat % 2) (s.buf c).blockno.toNat = s.block c := by
  intro r
  rw [show r.drive = _ from regs_drive hblock,
    show r.sector = _ from regs_sector hblock]
  by_cases hdev : (s.buf c).dev.toNat % 2 = (s.buf b).dev.toNat % 2
  · rw [hdev, Function.update_self, Function.update_of_ne, State.block, hdev]
    intro heq
    have h₁ := h.dev b hb
    have h₂ := h.dev c hc
    exact hne (h.unique c b hc hb (BitVec.eq_of_toNat_eq (by omega))
      (BitVec.eq_of_toNat_eq heq))
  · rw [Function.update_of_ne hdev]
    rfl

/-- A command ends without an error. -/
theorem Inv.complete (h : Inv s) (hbusy : s.device.status = .busy) :
    Inv (s.complete false) := by
  have hqueue : s.idequeue ≠ [] := by
    intro hq
    have := h.status.mpr hq
    rw [hbusy] at this
    cases this
  obtain ⟨b, q, hq⟩ := List.exists_cons_of_ne_nil hqueue
  have hcommand := h.command b q hq
  have hmem : b ∈ s.idequeue := by
    rw [hq]
    exact List.mem_cons_self
  have herror := h.error (by rw [hbusy]; exact nofun)
  have hnotClean := (h.queued b hmem).1
  by_cases hd : (s.buf b).dirty = true
  · have hwrite := hcommand.write
    rw [if_pos hd] at hwrite
    have heq : s.complete false = { s with
        device := { s.device with status := .done }
        disk := Function.update s.disk s.device.regs.drive
          (Function.update (s.disk s.device.regs.drive)
            s.device.regs.sector (s.buf b).data) } := by
      simp only [State.complete, hwrite, Bool.false_eq_true, if_false]
    rw [heq, hcommand.regs]
    refine { h with
      status := iff_of_false nofun hqueue
      error := fun _ => herror
      command := ?_
      faithful := ?_ }
    · intro c q' hc
      obtain ⟨rfl, -⟩ := List.cons.inj (hq.symm.trans hc)
      refine ⟨hcommand.blockno, hcommand.regs, hcommand.write, fun _ => ?_⟩
      change if (s.buf b).dirty then _ else _
      rw [if_pos hd, State.block]
      dsimp only
      rw [regs_drive hcommand.blockno, regs_sector hcommand.blockno,
        Function.update_self, Function.update_self]
    · intro c hc
      have hne : c ≠ b := by
        rintro rfl
        have : (s.buf c).clean = true := hc
        rw [hnotClean] at this
        cases this
      refine (h.faithful c hc).trans ?_
      exact (h.block_of_ne (h.used_of_mem hmem) (clean_used hc) hne
        hcommand.blockno).symm
  · have hwrite := hcommand.write
    rw [if_neg hd] at hwrite
    have heq : s.complete false = { s with
        device :=
          { s.device with
            status := .done
            fifo := s.disk s.device.regs.drive s.device.regs.sector } } := by
      simp only [State.complete, hwrite, Bool.false_eq_true, if_false]
    rw [heq]
    refine { h with
      status := iff_of_false nofun hqueue
      error := fun _ => herror
      command := ?_ }
    intro c q' hc
    obtain ⟨rfl, -⟩ := List.cons.inj (hq.symm.trans hc)
    refine ⟨hcommand.blockno, hcommand.regs, hcommand.write, fun _ => ?_⟩
    change if (s.buf b).dirty then _ else _
    rw [if_neg hd, hcommand.regs, regs_drive hcommand.blockno,
      regs_sector hcommand.blockno]
    rfl

variable [DecidableEq B]

omit [DecidableEq B] in
/-- The disk is started for a buffer at the head of the queue. -/
theorem Inv.of_started {q : List B} (h : (s.buf b).blockno.toNat < FSSIZE)
    (hq : s.idequeue = b :: q)
    (ht : t = { s with
      error := false
      device :=
        { s.device with
          status := .busy
          regs := regs (s.buf b).dev (s.buf b).blockno
          write := if (s.buf b).dirty then some (s.buf b).data else none } })
    (hrest : ∀ u : State P B D, u.buf = s.buf → u.idequeue = s.idequeue →
      u.disk = s.disk → u.pc = s.pc →
      (u.device.status = .idle ↔ u.idequeue = []) →
      (u.device.status ≠ .idle → u.error = false) →
      (∀ b q, u.idequeue = b :: q → u.Commanded b) → Inv u) : Inv t := by
  refine hrest t (by rw [ht]) (by rw [ht]) (by rw [ht]) (by rw [ht]) ?_ ?_ ?_
  · rw [ht]
    exact iff_of_false nofun (by rw [hq]; exact nofun)
  · rw [ht]
    exact fun _ => rfl
  · intro c q' hc
    rw [ht] at hc ⊢
    obtain ⟨rfl, -⟩ := List.cons.inj (hq.symm.trans hc)
    exact ⟨h, rfl, rfl, nofun⟩

/-- The interrupt handler takes the head out of the queue. -/
theorem Inv.dequeue {q : List B} {u : State P B D} (h : Inv s)
    (hq : s.idequeue = b :: q) (hdone : s.device.status = .done)
    (hbuf : u.buf = Function.update s.buf b
      { s.buf b with data := s.intrData b, valid := true, dirty := false })
    (hqueue : u.idequeue = q) (hdisk : u.disk = s.disk) (hpc : u.pc = s.pc)
    (hstatus : u.device.status = .idle ↔ u.idequeue = [])
    (herror : u.device.status ≠ .idle → u.error = false)
    (hcommand : ∀ b q, u.idequeue = b :: q → u.Commanded b) : Inv u := by
  have hnodup := h.nodup
  rw [hq] at hnodup
  obtain ⟨hout, hnodup⟩ := List.nodup_cons.mp hnodup
  have hmem : b ∈ s.idequeue := by
    rw [hq]
    exact List.mem_cons_self
  have hself : u.buf b =
      { s.buf b with data := s.intrData b, valid := true, dirty := false } := by
    rw [hbuf, Function.update_self]
  have hne : ∀ c ≠ b, u.buf c = s.buf c := by
    intro c hc
    rw [hbuf, Function.update_of_ne hc]
  have hclean : (u.buf b).clean = true := by
    rw [hself]
    rfl
  have hlock : ∀ c, (u.buf c).lock = (s.buf c).lock ∧
      (u.buf c).dev = (s.buf c).dev ∧
      (u.buf c).blockno = (s.buf c).blockno := by
    intro c
    by_cases hc : c = b
    · rw [hc, hself]
      exact ⟨rfl, rfl, rfl⟩
    · rw [hne c hc]
      exact ⟨rfl, rfl, rfl⟩
  have hused : ∀ c, u.used c = true → s.used c = true := by
    intro c hc
    by_cases hcb : c = b
    · rw [hcb]
      exact h.used_of_mem hmem
    · rwa [State.used, hne c hcb] at hc
  have hblock : ∀ c, u.block c = s.block c := by
    intro c
    rw [State.block, State.block, hdisk, (hlock c).2.1, (hlock c).2.2]
  have hdata : s.intrData b = s.block b := by
    have htransferred := (h.command b q hq).done hdone
    have hok := h.error (by rw [hdone]; exact nofun)
    rw [State.intrData, hok]
    by_cases hd : (s.buf b).dirty = true
    · rw [if_pos hd] at htransferred
      rw [if_neg (by simp [hd]), htransferred]
    · rw [if_neg hd] at htransferred
      rw [if_pos ⟨Bool.eq_false_of_not_eq_true hd, rfl⟩, htransferred]
  constructor
  · rwa [hqueue]
  · intro c hc
    rw [hqueue] at hc
    have hcb : c ≠ b := fun heq => hout (heq ▸ hc)
    rw [hne c hcb, hpc]
    exact h.queued c (hq ▸ List.mem_cons_of_mem b hc)
  · intro r c hr
    rw [hpc] at hr
    obtain ⟨hl, hc, hdirty⟩ := h.entering r c hr
    have hcb : c ≠ b := fun heq => hc (heq ▸ hmem)
    rw [hne c hcb, hqueue]
    exact ⟨hl, fun hcq => hc (hq ▸ List.mem_cons_of_mem b hcq), hdirty⟩
  · intro r c hr
    rw [hpc] at hr
    obtain ⟨hl, hc⟩ := h.asleep r c hr
    refine ⟨(hlock c).1.trans hl, ?_⟩
    by_cases hcb : c = b
    · rw [hcb]
      exact .inr hclean
    · rw [hne c hcb, hqueue]
      refine hc.imp_left fun hmem => ?_
      rw [hq] at hmem
      exact (List.mem_cons.mp hmem).resolve_left hcb
  · exact hstatus
  · exact herror
  · exact hcommand
  · intro c hc
    rw [(hlock c).2.1]
    exact h.dev c (hused c hc)
  · intro c c' hc hc' hd hb
    rw [(hlock c).2.1, (hlock c').2.1] at hd
    rw [(hlock c).2.2, (hlock c').2.2] at hb
    exact h.unique c c' (hused c hc) (hused c' hc') hd hb
  · intro c hc
    rw [hpc]
    by_cases hcb : c = b
    · rw [hcb, hself] at hc
      cases hc
    · rw [hne c hcb] at hc
      exact h.dirty c hc
  · intro c hc
    rw [hblock]
    by_cases hcb : c = b
    · rw [hcb, hself]
      exact hdata
    · rw [hne c hcb] at hc ⊢
      exact h.faithful c hc

theorem Inv.ideintr (h : Inv s)
    (hcause : s.device.status = .done ∨ s.idequeue = [])
    (ht : s.ideintr = .next t) : Inv t := by
  unfold State.ideintr at ht
  cases hq : s.idequeue with
  | nil =>
      rw [hq] at ht
      have hidle := h.status.mpr hq
      have heq : t = s := by
        rw [← Outcome.next.inj ht, ← hidle, ← hq]
      rwa [heq]
  | cons b q =>
      have hdone := hcause.resolve_right (by rw [hq]; exact nofun)
      rw [hq] at ht
      cases q with
      | nil =>
          have ht := (Outcome.next.inj ht).symm
          refine h.dequeue hq hdone (by rw [ht]; rfl) (by rw [ht])
            (by rw [ht]; rfl) (by rw [ht]; rfl) ?_ ?_ ?_
          · rw [ht]
            exact iff_of_true rfl rfl
          · rw [ht]
            exact fun hne => absurd rfl hne
          · rw [ht]
            exact nofun
      | cons c q =>
          obtain ⟨hblock, hu⟩ := idestart_eq_next ht
          refine .of_started hblock rfl hu ?_
          intro u hbuf hqueue hdisk hpc hstatus herror hcommand
          exact h.dequeue hq hdone hbuf hqueue hdisk hpc hstatus herror hcommand

/-! ### Steps of processes -/

variable [DecidableEq P]

/-- A process that is not in `iderw` takes, changes or gives back a buffer
that no other process holds, and may pass it to `iderw`. -/
theorem Inv.hand {v : Buf P D} {pc : Pc B} (h : Inv s) (hp : s.pc p = .idle)
    (hown : ∀ r, (s.buf b).lock = some r → r = p) (hdev : v.dev.toNat < 2)
    (hunique : ∀ c ≠ b, s.used c = true →
      ¬((s.buf c).dev = v.dev ∧ (s.buf c).blockno = v.blockno))
    (hpc : pc = .idle ∧ v.dirty = false ∧ (v.clean = true →
        v.data = s.disk (v.dev.toNat % 2) v.blockno.toNat) ∨
      pc = .enter b ∧ v.lock = some p ∧ v.clean = false) :
    Inv ((s.setBuf b v).setPc p pc) := by
  have hself : (s.setBuf b v).buf b = v := Function.update_self ..
  have hne : ∀ c ≠ b, (s.setBuf b v).buf c = s.buf c :=
    fun c hc => Function.update_of_ne hc ..
  have hout : ∀ r, s.pc r ≠ .enter b ∧ s.pc r ≠ .sleep b := by
    intro r
    constructor
    · intro hr
      obtain rfl := hown r (h.entering r b hr).1
      rw [hp] at hr
      cases hr
    · intro hr
      obtain rfl := hown r (h.asleep r b hr).1
      rw [hp] at hr
      cases hr
  have hmem : b ∉ s.idequeue := by
    intro hb
    obtain ⟨-, r, hr⟩ := h.queued b hb
    exact (hout r).2 hr
  have hother : ∀ r c, (s.pc r = .enter c ∨ s.pc r = .sleep c) → r ≠ p := by
    rintro r c hr rfl
    rw [hp] at hr
    rcases hr with hr | hr <;> cases hr
  have hpcs : ∀ r ≠ p, ((s.setBuf b v).setPc p pc).pc r = s.pc r :=
    fun r hr => Function.update_of_ne hr ..
  have hpcp : ((s.setBuf b v).setPc p pc).pc p = pc := Function.update_self ..
  have hused : ∀ c ≠ b, ((s.setBuf b v).setPc p pc).used c = s.used c := by
    intro c hc
    rw [State.used, State.used]
    change (((s.setBuf b v).buf c).valid ||
      ((s.setBuf b v).buf c).lock.isSome) = _
    rw [hne c hc]
  refine { h with
    queued := ?_, entering := ?_, asleep := ?_, command := ?_, dev := ?_
    unique := ?_, dirty := ?_, faithful := ?_ }
  · intro c hc
    have hcb : c ≠ b := fun heq => hmem (heq ▸ hc)
    obtain ⟨hclean, r, hr⟩ := h.queued c hc
    refine ⟨?_, r, ?_⟩
    · change ((s.setBuf b v).buf c).clean = false
      rwa [hne c hcb]
    · rwa [hpcs r (hother r c (.inr hr))]
  · intro r c hr
    change ((s.setBuf b v).buf c).lock = some r ∧ c ∉ s.idequeue ∧
      ((s.setBuf b v).buf c).clean = false
    by_cases hrp : r = p
    · subst hrp
      rw [hpcp] at hr
      rcases hpc with ⟨rfl, -⟩ | ⟨rfl, hlock, hclean⟩
      · cases hr
      · obtain rfl := Pc.enter.inj hr
        rw [hself]
        exact ⟨hlock, hmem, hclean⟩
    · rw [hpcs r hrp] at hr
      have hcb : c ≠ b := fun heq => (hout r).1 (heq ▸ hr)
      rw [hne c hcb]
      exact h.entering r c hr
  · intro r c hr
    change ((s.setBuf b v).buf c).lock = some r ∧ (c ∈ s.idequeue ∨
      ((s.setBuf b v).buf c).clean = true)
    by_cases hrp : r = p
    · subst hrp
      rw [hpcp] at hr
      rcases hpc with ⟨rfl, -⟩ | ⟨rfl, -⟩ <;> cases hr
    · rw [hpcs r hrp] at hr
      have hcb : c ≠ b := fun heq => (hout r).2 (heq ▸ hr)
      rw [hne c hcb]
      exact h.asleep r c hr
  · intro c q hq
    have hc := h.command c q hq
    have hcb : (s.setBuf b v).buf c = s.buf c := by
      apply hne
      rintro rfl
      apply hmem
      rw [show s.idequeue = _ from hq]
      exact List.mem_cons_self
    constructor
    · change ((s.setBuf b v).buf c).blockno.toNat < FSSIZE
      rw [hcb]
      exact hc.blockno
    · change s.device.regs = regs ((s.setBuf b v).buf c).dev
        ((s.setBuf b v).buf c).blockno
      rw [hcb]
      exact hc.regs
    · change s.device.write = if ((s.setBuf b v).buf c).dirty then
        some ((s.setBuf b v).buf c).data else none
      rw [hcb]
      exact hc.write
    · intro hdone
      have := hc.done hdone
      rw [State.block] at this ⊢
      change if ((s.setBuf b v).buf c).dirty then
        s.disk (((s.setBuf b v).buf c).dev.toNat % 2)
          ((s.setBuf b v).buf c).blockno.toNat =
          ((s.setBuf b v).buf c).data else
        s.device.fifo = s.disk (((s.setBuf b v).buf c).dev.toNat % 2)
          ((s.setBuf b v).buf c).blockno.toNat
      rwa [hcb]
  · intro c hc
    change ((s.setBuf b v).buf c).dev.toNat < 2
    by_cases hcb : c = b
    · rw [hcb, hself]
      exact hdev
    · rw [hne c hcb]
      exact h.dev c ((hused c hcb).symm.trans hc)
  · intro c c' hc hc' hd hb
    change ((s.setBuf b v).buf c).dev = ((s.setBuf b v).buf c').dev at hd
    change ((s.setBuf b v).buf c).blockno =
      ((s.setBuf b v).buf c').blockno at hb
    by_cases hcb : c = b
    · by_cases hcb' : c' = b
      · rw [hcb, hcb']
      · rw [hcb, hself, hne c' hcb'] at hd hb
        exact absurd ⟨hd.symm, hb.symm⟩
          (hunique c' hcb' ((hused c' hcb').symm.trans hc'))
    · by_cases hcb' : c' = b
      · rw [hcb', hself, hne c hcb] at hd hb
        exact absurd ⟨hd, hb⟩ (hunique c hcb ((hused c hcb).symm.trans hc))
      · rw [hne c hcb, hne c' hcb'] at hd hb
        exact h.unique c c' ((hused c hcb).symm.trans hc)
          ((hused c' hcb').symm.trans hc') hd hb
  · intro c hc
    change ((s.setBuf b v).buf c).dirty = true at hc
    by_cases hcb : c = b
    · rw [hcb, hself] at hc
      rw [hcb]
      rcases hpc with ⟨-, hdirty, -⟩ | ⟨rfl, -⟩
      · rw [hdirty] at hc
        cases hc
      · exact ⟨p, .inl hpcp⟩
    · rw [hne c hcb] at hc
      obtain ⟨r, hr⟩ := h.dirty c hc
      exact ⟨r, by rwa [hpcs r (hother r c hr)]⟩
  · intro c hc
    change ((s.setBuf b v).buf c).clean = true at hc
    rw [State.block]
    change ((s.setBuf b v).buf c).data =
      s.disk (((s.setBuf b v).buf c).dev.toNat % 2)
        ((s.setBuf b v).buf c).blockno.toNat
    by_cases hcb : c = b
    · rw [hcb, hself] at hc ⊢
      rcases hpc with ⟨-, -, hdata⟩ | ⟨-, -, hclean⟩
      · exact hdata hc
      · rw [hclean] at hc
        cases hc
    · rw [hne c hcb] at hc ⊢
      exact h.faithful c hc

omit [DecidableEq B] in
theorem iderw_eq_next (h : s.iderw p b = .next t) :
    (s.buf b).clean = false ∧ t = s.setPc p (.enter b) := by
  simp only [State.iderw] at h
  split_ifs at h with hclean hdisk
  exact ⟨Bool.eq_false_of_not_eq_true hclean, (Outcome.next.inj h).symm⟩

theorem Inv.bread [Fintype B] {dev blockno : BitVec 32} (h : Inv s)
    (hp : s.pc p = .idle) (hget : s.Gets b dev blockno)
    (ht : (let u := s.setBuf b (s.bget p b dev blockno)
      if (u.buf b).valid then .next u else u.iderw p b) = Outcome.next t) :
    Inv t := by
  obtain ⟨hfree, hdev, hother⟩ := hget
  have hself : (s.setBuf b (s.bget p b dev blockno)).buf b =
      s.bget p b dev blockno := Function.update_self ..
  have hdirty : (s.buf b).dirty = false := by
    by_contra hd
    obtain ⟨r, hr | hr⟩ := h.dirty b (Bool.eq_true_of_not_eq_false hd)
    · rw [(h.entering r b hr).1] at hfree
      cases hfree
    · rw [(h.asleep r b hr).1] at hfree
      cases hfree
  have hid : (s.bget p b dev blockno).dev = dev ∧
      (s.bget p b dev blockno).blockno = blockno ∧
      (s.bget p b dev blockno).lock = some p ∧
      (s.bget p b dev blockno).dirty = false := by
    rw [State.bget]
    split
    · next heq => exact ⟨heq.1, heq.2, rfl, hdirty⟩
    · exact ⟨rfl, rfl, rfl, rfl⟩
  have hhand : ∀ pc, (pc = .idle ∧ (s.bget p b dev blockno).dirty = false ∧
        ((s.bget p b dev blockno).clean = true →
          (s.bget p b dev blockno).data =
            s.disk ((s.bget p b dev blockno).dev.toNat % 2)
              (s.bget p b dev blockno).blockno.toNat) ∨
      pc = .enter b ∧ (s.bget p b dev blockno).lock = some p ∧
        (s.bget p b dev blockno).clean = false) →
      Inv ((s.setBuf b (s.bget p b dev blockno)).setPc p pc) := by
    intro pc
    apply h.hand hp
    · intro r hr
      rw [hfree] at hr
      cases hr
    · rw [hid.1]
      exact hdev
    · rw [hid.1, hid.2.1]
      exact hother
  dsimp only at ht
  split at ht
  · next hvalid =>
      rw [hself] at hvalid
      have hkept : s.bget p b dev blockno = { s.buf b with lock := some p } := by
        rw [State.bget] at hvalid ⊢
        split
        · rfl
        · next hne =>
            rw [if_neg hne] at hvalid
            cases hvalid
      have heq : t = (s.setBuf b (s.bget p b dev blockno)).setPc p .idle := by
        rw [← Outcome.next.inj ht]
        simp only [State.setPc, State.setBuf]
        rw [← hp, Function.update_eq_self]
      rw [heq]
      refine hhand .idle (.inl ⟨rfl, hid.2.2.2, fun hclean => ?_⟩)
      rw [hkept] at hclean ⊢
      exact h.faithful b hclean
  · obtain ⟨hclean, rfl⟩ := iderw_eq_next ht
    rw [hself] at hclean
    exact hhand (.enter b) (.inr ⟨rfl, hid.2.2.1, hclean⟩)

theorem Inv.bwrite {data : D} (h : Inv s) (hp : s.pc p = .idle)
    (hlock : (s.buf b).lock = some p)
    (ht : (s.setBuf b { s.buf b with data := data, dirty := true }).iderw p b =
      .next t) : Inv t := by
  obtain ⟨-, rfl⟩ := iderw_eq_next ht
  have hused := lock_used hlock
  refine h.hand hp (fun r hr => ?_) (h.dev b hused) ?_
    (.inr ⟨rfl, hlock, Bool.and_false _⟩)
  · rw [hlock] at hr
    exact (Option.some.inj hr).symm
  · rintro c hc hcu ⟨hd, hb⟩
    exact hc (h.unique c b hcu hused hd hb)

theorem Inv.brelse (h : Inv s) (hp : s.pc p = .idle)
    (hlock : (s.buf b).lock = some p) :
    Inv (s.setBuf b { s.buf b with lock := none }) := by
  have hused := lock_used hlock
  have heq : s.setBuf b { s.buf b with lock := none } =
      (s.setBuf b { s.buf b with lock := none }).setPc p .idle := by
    simp only [State.setPc, State.setBuf]
    rw [← hp, Function.update_eq_self]
  have hdirty : (s.buf b).dirty = false := by
    by_contra hd
    obtain ⟨r, hr⟩ := h.dirty b (Bool.eq_true_of_not_eq_false hd)
    have hr' : (s.buf b).lock = some r :=
      hr.elim (fun hr => (h.entering r b hr).1) fun hr => (h.asleep r b hr).1
    rw [hlock] at hr'
    obtain rfl := Option.some.inj hr'
    rw [hp] at hr
    rcases hr with hr | hr <;> cases hr
  rw [heq]
  refine h.hand hp (fun r hr => ?_) (h.dev b hused) ?_
    (.inl ⟨rfl, hdirty, h.faithful b⟩)
  · rw [hlock] at hr
    exact (Option.some.inj hr).symm
  · rintro c hc hcu ⟨hd, hb⟩
    exact hc (h.unique c b hcu hused hd hb)

omit [DecidableEq B] in
/-- A process appends its buffer to the queue. -/
theorem Inv.append {u : State P B D} (h : Inv s) (hp : s.pc p = .enter b)
    (hbuf : u.buf = s.buf) (hqueue : u.idequeue = s.idequeue ++ [b])
    (hdisk : u.disk = s.disk) (hpc : u.pc = Function.update s.pc p (.sleep b))
    (hstatus : u.device.status = .idle ↔ u.idequeue = [])
    (herror : u.device.status ≠ .idle → u.error = false)
    (hcommand : ∀ b q, u.idequeue = b :: q → u.Commanded b) : Inv u := by
  obtain ⟨hlock, hmem, hnotClean⟩ := h.entering p b hp
  have hself : u.pc p = .sleep b := by rw [hpc, Function.update_self]
  have hne : ∀ r ≠ p, u.pc r = s.pc r := by
    intro r hr
    rw [hpc, Function.update_of_ne hr]
  have hblock : ∀ c, u.block c = s.block c := by
    intro c
    rw [State.block, State.block, hdisk, hbuf]
  have hused : ∀ c, u.used c = s.used c := by
    intro c
    rw [State.used, State.used, hbuf]
  constructor
  · rw [hqueue]
    refine List.nodup_append.mpr ⟨h.nodup, List.nodup_singleton b, ?_⟩
    rintro c hc c' hc' rfl
    rw [List.mem_singleton.mp hc'] at hc
    exact hmem hc
  · intro c hc
    rw [hqueue, List.mem_append, List.mem_singleton] at hc
    rw [hbuf]
    rcases hc with hc | rfl
    · obtain ⟨hclean, r, hr⟩ := h.queued c hc
      refine ⟨hclean, r, ?_⟩
      rwa [hne r]
      rintro rfl
      rw [hp] at hr
      cases hr
    · exact ⟨hnotClean, p, hself⟩
  · intro r c hr
    by_cases hrp : r = p
    · rw [hrp, hself] at hr
      cases hr
    · rw [hne r hrp] at hr
      obtain ⟨hl, hc, hclean⟩ := h.entering r c hr
      rw [hbuf, hqueue, List.mem_append, List.mem_singleton]
      refine ⟨hl, ?_, hclean⟩
      rintro (hcq | rfl)
      · exact hc hcq
      · rw [hlock] at hl
        exact hrp (Option.some.inj hl).symm
  · intro r c hr
    rw [hbuf, hqueue, List.mem_append, List.mem_singleton]
    by_cases hrp : r = p
    · rw [hrp, hself] at hr
      obtain rfl := Pc.sleep.inj hr
      rw [hrp]
      exact ⟨hlock, .inl (.inr rfl)⟩
    · rw [hne r hrp] at hr
      obtain ⟨hl, hc⟩ := h.asleep r c hr
      exact ⟨hl, hc.imp_left .inl⟩
  · exact hstatus
  · exact herror
  · exact hcommand
  · intro c hc
    rw [hbuf]
    rw [hused] at hc
    exact h.dev c hc
  · intro c c' hc hc' hd hb
    rw [hused] at hc hc'
    rw [hbuf] at hd hb
    exact h.unique c c' hc hc' hd hb
  · intro c hc
    rw [hbuf] at hc
    obtain ⟨r, hr⟩ := h.dirty c hc
    by_cases hrp : r = p
    · subst hrp
      rw [hp] at hr
      rcases hr with hr | hr
      · obtain rfl := Pc.enter.inj hr
        exact ⟨r, .inr hself⟩
      · cases hr
    · exact ⟨r, by rwa [hne r hrp]⟩
  · intro c hc
    rw [hblock, hbuf]
    rw [hbuf] at hc
    exact h.faithful c hc

omit [DecidableEq B] in
theorem Inv.enter (h : Inv s) (hp : s.pc p = .enter b)
    (ht : s.run p = .next t) : Inv t := by
  simp only [State.run, hp] at ht
  split at ht
  · next hq =>
      obtain ⟨hblock, hu⟩ := idestart_eq_next ht
      refine .of_started (q := []) hblock ?_ hu ?_
      · rw [hq]
        rfl
      intro u hbuf hqueue hdisk hpc hstatus herror hcommand
      exact h.append hp hbuf hqueue hdisk hpc hstatus herror hcommand
  · next hq =>
      rw [← Outcome.next.inj ht]
      obtain ⟨c, q, hc⟩ := List.exists_cons_of_ne_nil hq
      refine h.append hp rfl rfl rfl rfl ?_ h.error ?_
      · exact iff_of_false (fun hidle => hq (h.status.mp hidle)) (by simp)
      · intro c' q' hc'
        have heq : c' = c := by
          simp only [hc, List.cons_append] at hc'
          exact (List.cons.inj hc').1.symm
        obtain ⟨hblock, hregs, hwrite, hdone⟩ := h.command c q hc
        rw [heq]
        exact ⟨hblock, hregs, hwrite, hdone⟩

omit [DecidableEq B] in
/-- A process returns from `iderw`. -/
theorem Inv.wake (h : Inv s) (hp : s.pc p = .sleep b)
    (hclean : (s.buf b).clean = true) : Inv (s.setPc p .idle) := by
  have hself : (s.setPc p .idle).pc p = .idle := Function.update_self ..
  have hne : ∀ r ≠ p, (s.setPc p .idle).pc r = s.pc r :=
    fun r hr => Function.update_of_ne hr ..
  refine { h with
    queued := ?_, entering := ?_, asleep := ?_, command := ?_, dirty := ?_ }
  · intro c hc
    obtain ⟨hc', r, hr⟩ := h.queued c hc
    refine ⟨hc', r, ?_⟩
    rwa [hne r]
    rintro rfl
    rw [hp] at hr
    rw [← Pc.sleep.inj hr, hclean] at hc'
    cases hc'
  · intro r c hr
    by_cases hrp : r = p
    · rw [hrp, hself] at hr
      cases hr
    · rw [hne r hrp] at hr
      exact h.entering r c hr
  · intro r c hr
    by_cases hrp : r = p
    · rw [hrp, hself] at hr
      cases hr
    · rw [hne r hrp] at hr
      exact h.asleep r c hr
  · intro c q hq
    obtain ⟨hblock, hregs, hwrite, hdone⟩ := h.command c q hq
    exact ⟨hblock, hregs, hwrite, hdone⟩
  · intro c hc
    obtain ⟨r, hr⟩ := h.dirty c hc
    refine ⟨r, ?_⟩
    rwa [hne r]
    rintro rfl
    rw [hp] at hr
    rcases hr with hr | hr
    · cases hr
    · rw [Pc.sleep.inj hr, Buf.clean] at hclean
      rw [show (s.buf c).dirty = true from hc] at hclean
      simp at hclean

/-- Every step but a failure of the disk keeps the invariant. -/
theorem Inv.step [Fintype B] {a : Act P B D} (h : Inv s)
    (ht : Failures.step s a = .next t) (ha : NoError s a) : Inv t := by
  cases a with
  | bread p b dev blockno =>
      simp only [Failures.step] at ht
      split at ht
      · next hpre => exact h.bread hpre.1 hpre.2 ht
      · cases ht
  | bwrite p b data =>
      simp only [Failures.step] at ht
      split at ht
      · next hpre => exact h.bwrite hpre.1 hpre.2 ht
      · cases ht
  | brelse p b =>
      simp only [Failures.step] at ht
      split at ht
      · next hpre =>
          rw [← Outcome.next.inj ht]
          exact h.brelse hpre.1 hpre.2
      · cases ht
  | run p =>
      simp only [Failures.step] at ht
      cases hp : s.pc p with
      | idle =>
          simp only [State.run, hp] at ht
          cases ht
      | enter b => exact h.enter hp ht
      | sleep b =>
          simp only [State.run, hp] at ht
          split at ht
          · next hclean =>
              rw [← Outcome.next.inj ht]
              exact h.wake hp hclean
          · cases ht
  | complete error =>
      cases error with
      | true => exact absurd rfl ha
      | false =>
          simp only [Failures.step] at ht
          split at ht
          · next hbusy =>
              rw [← Outcome.next.inj ht]
              exact h.complete hbusy
          · cases ht
  | ideintr =>
      simp only [Failures.step] at ht
      split at ht
      · next hcause => exact h.ideintr hcause ht
      · cases ht

theorem Inv.to_faithful [Fintype B] (h : Inv s) : Faithful s := by
  refine ⟨h.faithful, ?_⟩
  intro a t b ht hb
  have hclean : (t.buf b).clean = true := by
    cases a with
    | bread p c dev blockno =>
        simp only [State.returned] at hb
        split at hb
        · next hidle =>
            obtain rfl := Option.some.inj hb
            simp only [Failures.step] at ht
            split at ht
            · next hpre =>
                split at ht
                · next hvalid =>
                    have hinv := h.bread (p := p) hpre.1 hpre.2 (t := t)
                      (by rw [if_pos hvalid]; exact ht)
                    obtain rfl := Outcome.next.inj ht
                    rw [Buf.clean, hvalid]
                    by_contra hd
                    obtain ⟨r, hr⟩ := hinv.dirty c (by simpa using hd)
                    have hl : ((s.setBuf c (s.bget p c dev blockno)).buf c).lock =
                        some r :=
                      hr.elim (fun hr => (hinv.entering r c hr).1)
                        fun hr => (hinv.asleep r c hr).1
                    have hlp : ((s.setBuf c (s.bget p c dev blockno)).buf c).lock =
                        some p := by
                      simp only [State.setBuf, Function.update_self, State.bget]
                      split <;> rfl
                    rw [hlp] at hl
                    rw [← Option.some.inj hl, hidle] at hr
                    rcases hr with hr | hr <;> cases hr
                · obtain ⟨-, rfl⟩ := iderw_eq_next ht
                  simp only [State.setPc, Function.update_self] at hidle
                  cases hidle
            · cases ht
        · cases hb
    | run p =>
        simp only [State.returned] at hb
        split at hb
        · next c hp =>
            obtain rfl := Option.some.inj hb
            simp only [Failures.step, State.run, hp] at ht
            split at ht
            · next hclean =>
                obtain rfl := Outcome.next.inj ht
                exact hclean
            · cases ht
        · cases hb
    | bwrite p c data => cases hb
    | brelse p c => cases hb
    | complete error => cases hb
    | ideintr => cases hb
  have ha : NoError s a := by
    rintro rfl
    cases hb
  exact ⟨hclean, (h.step ht ha).faithful b hclean⟩

end Invariant

/-- Without failures of the disk, valid buffers and returned buffers have the
contents of their blocks. -/
theorem faithful_of_noError {P B D : Type*} [DecidableEq P] [DecidableEq B]
    [Fintype B] {s t : State P B D} {w : List (Act P B D)} (hs : Booted s)
    (hrun : Run step s w t) (hw : Meets step NoError s w) : Faithful t :=
  (hrun.invariant_of_meets (fun _ _ _ hI ha ht => Inv.step hI ht ha)
    hw hs.inv).to_faithful

/-- One process and one buffer; the disk holds ones, the memory zeros. -/
def State.fresh : State Unit Unit ℕ where
  buf _ :=
    { dev := 0, blockno := 0, lock := none, valid := false, dirty := false
      data := 0 }
  idequeue := []
  havedisk1 := false
  device := { status := .idle, regs := regs 0 0, write := none, fifo := 0 }
  error := false
  disk _ _ := 1
  pc _ := .idle

theorem State.fresh_booted : Booted State.fresh where
  pc _ := rfl
  idequeue := rfl
  status := rfl
  buf _ := ⟨rfl, rfl, rfl⟩

theorem faithful_of_noError_read :
    ∃ t : State Unit Unit ℕ,
      Run step State.fresh
        [.bread () () 0 5, .run (), .complete false, .ideintr, .run ()] t ∧
      Faithful t := by
  obtain ⟨t, hrun, -⟩ := Run.exists_of_exec step State.fresh
    [.bread () () 0 5, .run (), .complete false, .ideintr, .run ()]
    (fun _ => true) (by decide +kernel)
  have hw : Meets step NoError State.fresh
      [.bread () () 0 5, .run (), .complete false, .ideintr, .run ()] := by
    decide +kernel
  exact ⟨t, hrun, faithful_of_noError State.fresh_booted hrun hw⟩

/-- After a read that the disk ends with an error, `bread` returns what the
buffer had in memory before. -/
theorem failed_read_returned :
    ¬ ∀ (s t : State Unit Unit ℕ) (w : List (Act Unit Unit ℕ)),
      Booted s → Run step s w t → Faithful t := by
  intro h
  obtain ⟨t, hrun, ht⟩ := Run.exists_of_exec step State.fresh
    [.bread () () 0 5, .run (), .complete true, .ideintr, .run ()]
    (fun t => (t.buf ()).clean && (t.buf ()).data == 0 && t.block () == 1)
    (by decide +kernel)
  simp only [Bool.and_eq_true, beq_iff_eq] at ht
  have hdata := (h _ _ _ State.fresh_booted hrun).clean () ht.1.1
  rw [ht.1.2, ht.2] at hdata
  cases hdata

end ZtlOs.Drivers.Failures
