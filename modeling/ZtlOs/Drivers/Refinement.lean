import ZtlOs.Drivers.Ide

/-!
# The interrupt-driven disk is the disk in memory

The ghosts of a run of `ide.c` are the calls in the order in which they take
effect: a call of `iderw` takes effect where its buffer is linked into the
queue.  Running `memide.c` on these calls gives the same buffers and the same
disk, up to the transfers that are still in the queue.
-/

namespace ZtlOs.Drivers.Ide

open ZtlOs.Support ZtlOs.Fs

variable {P B D : Type*} [DecidableEq P] [DecidableEq B]

/-! ## Ghosts -/

/-- A run of the driver with its history. -/
structure Traced (P B D : Type*) where
  state : State P B D
  /-- The calls, each where it takes effect. -/
  calls : List (Call P B D)
  /-- The buffers linked into the queue, in order. -/
  arrived : List B
  /-- The buffers for which the disk was started. -/
  started : List B
  /-- The buffers that the interrupt handler has taken out of the queue. -/
  handled : List B
  /-- The place of a process' own request in `arrived`. -/
  ticket : P → ℕ

/-- The buffer that a step links into the queue. -/
def State.arrival (s : State P B D) : Act P B D → Option (P × B)
  | .run p =>
      match s.pc p with
      | .append b pp => if s.deref pp = none then some (p, b) else none
      | _ => none
  | _ => none

/-- The call that takes effect in a step. -/
def State.effect (s : State P B D) : Act P B D → Option (Call P B D)
  | .call (.iderw _ _) => none
  | .call c => some c
  | a => (s.arrival a).map fun r => .iderw r.1 r.2

/-- The buffer for which a step starts the disk. -/
def State.starts (s : State P B D) : Act P B D → Option B
  | .run p =>
      match s.pc p with
      | .start b => if s.idequeue = some b then some b else none
      | _ => none
  | .ideintr => s.idequeue.bind s.qnext
  | _ => none

/-- The buffer that a step takes out of the queue. -/
def State.handles (s : State P B D) : Act P B D → Option B
  | .ideintr => s.idequeue
  | _ => none

/-- The history after a step to `u`. -/
def Traced.record (t : Traced P B D) (a : Act P B D) (u : State P B D) :
    Traced P B D where
  state := u
  calls := t.calls ++ (t.state.effect a).toList
  arrived := t.arrived ++ ((t.state.arrival a).map Prod.snd).toList
  started := t.started ++ (t.state.starts a).toList
  handled := t.handled ++ (t.state.handles a).toList
  ticket :=
    match t.state.arrival a with
    | some r => Function.update t.ticket r.1 t.arrived.length
    | none => t.ticket

def Traced.step (t : Traced P B D) (a : Act P B D) : Outcome (Traced P B D) :=
  (Ide.step t.state a).map (t.record a)

def Traced.boot (s : State P B D) : Traced P B D where
  state := s
  calls := []
  arrived := []
  started := []
  handled := []
  ticket := fun _ => 0

/-- The requests that have not been handled. -/
def Traced.pending (t : Traced P B D) : List B :=
  t.arrived.drop t.handled.length

/-- Before the first request. -/
structure Booted (s : State P B D) : Prop where
  pc : ∀ p, s.pc p = .idle
  idequeue : s.idequeue = none
  idelock : s.idelock = none
  status : s.device.status = .idle

/-- A request is for a block of disk 1. -/
def Permitted (t : Traced P B D) : Act P B D → Prop
  | .call (.iderw _ b) =>
      (t.state.buf b).dev = 1 ∧ (t.state.buf b).blockno.toNat < FSSIZE
  | _ => True

/-- The disk in memory that holds the same. -/
def State.memide (s : State P B D) : Memide.State P B D where
  memdisk := s.disk 1
  buf := s.buf

/-- The buffer of a request. -/
def requested : Call P B D → Option B
  | .iderw _ b => some b
  | _ => none

/-! ## The invariant -/

/-- The buffer that a process has passed to `iderw`. -/
def Pc.asks : Pc B → Option B
  | .idle => none
  | .enter b => some b
  | .append b _ => some b
  | .start b => some b
  | .wait b => some b
  | .sleep b => some b

/-- The process holds the sleep lock of a buffer that can be transferred. -/
structure State.Owns (s : State P B D) (p : P) (b : B) : Prop where
  lock : (s.buf b).lock = some p
  dev : (s.buf b).dev = 1
  blockno : (s.buf b).blockno.toNat < FSSIZE

/-- What a process relies on at a place of `iderw`, for the queue `q`. -/
def Traced.Fits (t : Traced P B D) (q : List B) (p : P) : Pc B → Prop
  | .idle => True
  | .enter b => b ∉ q ∧ (t.state.buf b).clean = false
  | .append b pp =>
      t.state.idelock = some p ∧ b ∉ q ∧ (t.state.buf b).clean = false ∧
        t.state.qnext b = none ∧ ∃ l l', q = l ++ l' ∧ pp = l.getLast?
  | .start b =>
      t.state.idelock = some p ∧ t.arrived[t.ticket p]? = some b ∧
        ∃ l, q = l ++ [b] ∧ (t.state.device.status = .idle ↔ l = [])
  | .wait b =>
      t.state.idelock = some p ∧ t.arrived[t.ticket p]? = some b ∧
        (b ∈ q ∨ (t.state.buf b).clean = true)
  | .sleep b =>
      t.arrived[t.ticket p]? = some b ∧
        (b ∈ q ∨ (t.state.buf b).clean = true)

/-- The command for a buffer. -/
structure State.Commanded (s : State P B D) (b : B) : Prop where
  regs : s.device.regs = regs (s.buf b).dev (s.buf b).blockno
  write : s.device.write =
    if (s.buf b).dirty then some (s.buf b).data else none

/-- The transfer for a buffer has reached the disk. -/
structure State.Transferred (s : State P B D) (b : B) : Prop where
  written : (s.buf b).dirty = true →
    s.disk 1 (s.buf b).blockno.toNat = (s.buf b).data
  read : (s.buf b).dirty = false →
    s.device.fifo = s.disk 1 (s.buf b).blockno.toNat

/-- A process is on its way to wait for the transfer of a buffer. -/
def Pc.awaits (b : B) (pc : Pc B) : Prop :=
  pc = .start b ∨ pc = .wait b ∨ pc = .sleep b

/-- The state of the driver with the queue `q`, and the state `m` of the disk
in memory. -/
structure Traced.Inv (s₀ : State P B D) (t : Traced P B D) (q : List B)
    (m : Memide.State P B D) : Prop where
  linked : Linked t.state.qnext t.state.idequeue q
  nodup : q.Nodup
  owns : ∀ p b, (t.state.pc p).asks = some b → t.state.Owns p b
  fits : ∀ p, t.Fits q p (t.state.pc p)
  queued : ∀ b ∈ q, (t.state.buf b).clean = false ∧
    ∃ p, (t.state.pc p).awaits b
  idle : t.state.device.status = .idle →
    q = [] ∨ ∃ p b, t.state.pc p = .start b ∧ q = [b]
  command : t.state.device.status ≠ .idle →
    ∃ b l, q = b :: l ∧ t.state.Commanded b ∧
      (t.state.device.status = .done → t.state.Transferred b)
  arrived : t.arrived = t.handled ++ q
  started : t.started =
    t.handled ++ if t.state.device.status = .idle then [] else q.take 1
  transfers : t.state.memide.transfers q = m
  run : Run Memide.step s₀.memide t.calls m
  requests : t.calls.filterMap requested = t.arrived

variable {s s₀ u : State P B D} {t t' : Traced P B D} {q q' : List B}
variable {m : Memide.State P B D} {p r : P} {b c : B} {pc pc₀ : Pc B}

/-! ### Steps on the history -/

theorem Traced.step_eq_next {a : Act P B D} (h : t.step a = .next t') :
    ∃ u, Ide.step t.state a = .next u ∧ t' = t.record a u :=
  Outcome.map_eq_next h

theorem Traced.record_of_quiet {a : Act P B D}
    (heffect : t.state.effect a = none) (harrival : t.state.arrival a = none)
    (hstarts : t.state.starts a = none)
    (hhandles : t.state.handles a = none) :
    t.record a u = { t with state := u } := by
  simp [Traced.record, heffect, harrival, hstarts, hhandles]

/-- The state after the disk has been started for a buffer. -/
def State.command (s : State P B D) (b : B) : State P B D :=
  { s with
    device :=
      { s.device with
        status := .busy
        regs := regs (s.buf b).dev (s.buf b).blockno
        write := if (s.buf b).dirty then some (s.buf b).data else none } }

omit [DecidableEq P] [DecidableEq B] in
theorem idestart_eq_next (h : s.idestart b = .next u) :
    s.device.status ≠ .busy ∧ u = s.command b := by
  unfold State.idestart at h
  by_cases hblockno : (s.buf b).blockno.toNat ≥ FSSIZE
  · simp only [if_pos hblockno] at h
    cases h
  · by_cases hbusy : s.device.status = .busy
    · simp only [if_neg hblockno, if_pos hbusy] at h
      cases h
    · simp only [if_neg hblockno, if_neg hbusy] at h
      exact ⟨hbusy, (Outcome.next.inj h).symm⟩

omit [DecidableEq P] [DecidableEq B] in
theorem idestart_ne_panic (h : (s.buf b).blockno.toNat < FSSIZE)
    (message : String) : s.idestart b ≠ .panic message := by
  simp only [State.idestart, if_neg (Nat.not_le.mpr h)]
  split_ifs <;> simp

/-! ### What a process relies on -/

omit [DecidableEq P] [DecidableEq B] in
/-- Without `idelock` a process is not inside of its critical sections. -/
theorem Traced.Fits.unlocked (h : t.Fits q p pc)
    (hlock : t.state.idelock ≠ some p) :
    pc = .idle ∨ (∃ b, pc = .enter b) ∨ ∃ b, pc = .sleep b := by
  cases pc with
  | idle => exact .inl rfl
  | enter b => exact .inr (.inl ⟨b, rfl⟩)
  | append b pp => exact absurd h.1 hlock
  | start b => exact absurd h.1 hlock
  | wait b => exact absurd h.1 hlock
  | sleep b => exact .inr (.inr ⟨b, rfl⟩)

omit [DecidableEq P] [DecidableEq B] in
theorem Traced.Fits.frame (h : t.Fits q r pc)
    (hlock : t.state.idelock ≠ some r)
    (henter : ∀ b, pc = .enter b → b ∉ q → (t.state.buf b).clean = false →
      b ∉ q' ∧ (t'.state.buf b).clean = false)
    (hsleep : ∀ b, pc = .sleep b →
      (b ∈ q ∨ (t.state.buf b).clean = true) →
      (b ∈ q' ∨ (t'.state.buf b).clean = true))
    (hticket : ∀ b, t.arrived[t.ticket r]? = some b →
      t'.arrived[t'.ticket r]? = some b) : t'.Fits q' r pc := by
  obtain rfl | ⟨b, rfl⟩ | ⟨b, rfl⟩ := h.unlocked hlock
  · trivial
  · exact henter b rfl h.1 h.2
  · exact ⟨hticket b h.1, hsleep b rfl h.2⟩

omit [DecidableEq P] [DecidableEq B] in
/-- Another process is not concerned by a step that changes no buffer and not
the queue. -/
theorem Traced.Fits.other (h : t.Fits q r pc)
    (hlock : t.state.idelock ≠ some r) (hbuf : t'.state.buf = t.state.buf)
    (harrived : t'.arrived = t.arrived) (hticket : t'.ticket = t.ticket) :
    t'.Fits q r pc := by
  apply h.frame hlock
  · intro b _ hb hclean
    exact ⟨hb, by rwa [hbuf]⟩
  · intro b _ hb
    rwa [hbuf]
  · intro b hb
    rwa [harrived, hticket]

namespace Traced.Inv

theorem not_mem_of_not_asked (h : t.Inv s₀ q m)
    (hb : ∀ p, (t.state.pc p).asks ≠ some b) : b ∉ q := by
  intro hmem
  obtain ⟨-, p, hp | hp | hp⟩ := h.queued b hmem
  · exact hb p (by rw [hp]; rfl)
  · exact hb p (by rw [hp]; rfl)
  · exact hb p (by rw [hp]; rfl)

/-- Nobody else has passed a buffer to `iderw` that a process holds. -/
theorem asks_eq (h : t.Inv s₀ q m) (hlock : (t.state.buf b).lock = some p)
    (hr : (t.state.pc r).asks = some b) : r = p :=
  Option.some.inj ((h.owns r b hr).lock.symm.trans hlock)

theorem mem_buf (h : t.Inv s₀ q m) (hb : b ∉ q) :
    m.buf b = t.state.buf b := by
  rw [← h.transfers]
  exact Memide.transfers_buf_of_not_mem hb

/-! ### The calls that touch a buffer at once -/

/-- A call changes a buffer that nobody has passed to `iderw`. -/
theorem setBuf (h : t.Inv s₀ q m) {c : Call P B D} {v : Buf P D}
    (hb : ∀ p, (t.state.pc p).asks ≠ some b)
    (hm : Memide.step m c = .next (m.setBuf b v))
    (hc : requested c = none) :
    Traced.Inv s₀
      { t with state := t.state.setBuf b v, calls := t.calls ++ [c] } q
      (m.setBuf b v) := by
  have hq := h.not_mem_of_not_asked hb
  have hbuf : ∀ d, d ≠ b → (t.state.setBuf b v).buf d = t.state.buf d :=
    fun d hd => Function.update_of_ne hd ..
  have hasks : ∀ p d, (t.state.pc p).asks = some d → d ≠ b := by
    rintro p d hd rfl
    exact hb p hd
  have hmem : ∀ d ∈ q, d ≠ b := by
    rintro d hd rfl
    exact hq hd
  constructor
  case linked => exact h.linked
  case nodup => exact h.nodup
  case owns =>
    intro p d hd
    have ho := h.owns p d hd
    have heq := hbuf d (hasks p d hd)
    exact ⟨by rw [heq]; exact ho.lock, by rw [heq]; exact ho.dev,
      by rw [heq]; exact ho.blockno⟩
  case fits =>
    intro p
    have hf := h.fits p
    have hp := hasks p
    show Traced.Fits _ q p (t.state.pc p)
    generalize t.state.pc p = pc at hf hp
    cases pc with
    | idle => trivial
    | enter d => exact ⟨hf.1, by rw [hbuf d (hp d rfl)]; exact hf.2⟩
    | append d pp =>
        obtain ⟨hlock, hd, hclean, hrest⟩ := hf
        exact ⟨hlock, hd, by rw [hbuf d (hp d rfl)]; exact hclean, hrest⟩
    | start d => exact hf
    | wait d =>
        obtain ⟨hlock, hticket, hd⟩ := hf
        exact ⟨hlock, hticket, by rw [hbuf d (hp d rfl)]; exact hd⟩
    | sleep d =>
        obtain ⟨hticket, hd⟩ := hf
        exact ⟨hticket, by rw [hbuf d (hp d rfl)]; exact hd⟩
  case queued =>
    intro d hd
    have := h.queued d hd
    exact ⟨by rw [hbuf d (hmem d hd)]; exact this.1, this.2⟩
  case idle => exact h.idle
  case command =>
    intro hstatus
    obtain ⟨d, l, rfl, hcommand, hdone⟩ := h.command hstatus
    have heq := hbuf d (hmem d List.mem_cons_self)
    refine ⟨d, l, rfl, ⟨?_, ?_⟩, fun hstatus => ⟨?_, ?_⟩⟩
    · rw [heq]; exact hcommand.regs
    · rw [heq]; exact hcommand.write
    · rw [heq]; exact (hdone hstatus).written
    · rw [heq]; exact (hdone hstatus).read
  case arrived => exact h.arrived
  case started => exact h.started
  case transfers =>
    rw [← h.transfers]
    show (t.state.memide.setBuf b v).transfers q = _
    exact Memide.transfers_setBuf hq
  case run => exact h.run.snoc hm
  case requests => simp [h.requests, hc]

theorem not_asked_of_lock (h : t.Inv s₀ q m) (hp : t.state.pc p = .idle)
    (hlock : (t.state.buf b).lock = some p) :
    ∀ r, (t.state.pc r).asks ≠ some b := by
  intro r hr
  have := h.asks_eq hlock hr
  subst this
  rw [hp] at hr
  cases hr

theorem not_asked_of_unlocked (h : t.Inv s₀ q m)
    (hlock : (t.state.buf b).lock = none) :
    ∀ r, (t.state.pc r).asks ≠ some b := by
  intro r hr
  have := (h.owns r b hr).lock
  rw [hlock] at this
  cases this

/-- A process moves on in `iderw`, taking or dropping `idelock`. -/
theorem move (h : t.Inv s₀ q m) {lock : Option P}
    {qnext : B → Option B}
    (hqnext : ∀ b ∈ q, qnext b = t.state.qnext b)
    (howns : ∀ b, pc.asks = some b → t.state.Owns p b)
    (hstart : t.state.device.status = .idle → ∀ b, t.state.pc p ≠ .start b)
    (hawaits : ∀ b ∈ q, (t.state.pc p).awaits b → pc.awaits b)
    (ht : t' = { t with
      state := { t.state with
        idelock := lock
        qnext := qnext
        pc := Function.update t.state.pc p pc } })
    (hfits : t'.Fits q p pc)
    (hothers : ∀ r, r ≠ p → t'.Fits q r (t.state.pc r)) :
    t'.Inv s₀ q m := by
  subst ht
  constructor
  case linked => exact h.linked.congr hqnext
  case nodup => exact h.nodup
  case owns =>
    intro r b hr
    by_cases hrp : r = p
    · subst hrp
      simp only [Function.update_self] at hr
      have ho := howns b hr
      exact ⟨ho.lock, ho.dev, ho.blockno⟩
    · simp only [Function.update_of_ne hrp] at hr
      have ho := h.owns r b hr
      exact ⟨ho.lock, ho.dev, ho.blockno⟩
  case fits =>
    intro r
    by_cases hrp : r = p
    · subst hrp
      simp only [Function.update_self]
      exact hfits
    · simp only [Function.update_of_ne hrp]
      exact hothers r hrp
  case queued =>
    intro b hb
    obtain ⟨hclean, r, hr⟩ := h.queued b hb
    refine ⟨hclean, r, ?_⟩
    by_cases hrp : r = p
    · subst hrp
      simp only [Function.update_self]
      exact hawaits b hb hr
    · simp only [Function.update_of_ne hrp]
      exact hr
  case idle =>
    intro hstatus
    obtain hq | ⟨r, b, hr, hq⟩ := h.idle hstatus
    · exact .inl hq
    · have hrp : r ≠ p := by
        rintro rfl
        exact hstart hstatus b hr
      refine .inr ⟨r, b, ?_, hq⟩
      simp only [Function.update_of_ne hrp]
      exact hr
  case command =>
    intro hstatus
    obtain ⟨b, l, hq, hcommand, hdone⟩ := h.command hstatus
    exact ⟨b, l, hq, ⟨hcommand.regs, hcommand.write⟩, fun hs =>
      ⟨(hdone hs).written, (hdone hs).read⟩⟩
  case arrived => exact h.arrived
  case started => exact h.started
  case transfers => exact h.transfers
  case run => exact h.run
  case requests => exact h.requests

/-- A process changes a buffer that it holds, or takes the sleep lock of a
buffer that is free. -/
theorem call_setBuf (h : t.Inv s₀ q m) {c : Call P B D} {v : Buf P D}
    (hb : ∀ p, (t.state.pc p).asks ≠ some b)
    (hm : m.buf b = t.state.buf b →
      Memide.step m c = .next (m.setBuf b v))
    (hc : requested c = none) :
    ∃ m', (t.record (.call c) (t.state.setBuf b v)).Inv s₀ q m' := by
  have hrec := h.setBuf hb (hm (h.mem_buf (h.not_mem_of_not_asked hb))) hc
  refine ⟨m.setBuf b v, ?_⟩
  cases c with
  | iderw p b => cases hc
  | acquiresleep p b =>
      simpa [record, State.effect, State.arrival, State.starts,
        State.handles] using hrec
  | releasesleep p b =>
      simpa [record, State.effect, State.arrival, State.starts,
        State.handles] using hrec
  | fill p b c =>
      simpa [record, State.effect, State.arrival, State.starts,
        State.handles] using hrec

/-- `iderw` up to `acquire(&idelock)`. -/
theorem enter (h : t.Inv s₀ q m) (hp : t.state.pc p = .idle)
    (hu : t.state.iderw p b = .next u)
    (hper : Permitted t (.call (.iderw p b))) :
    (t.record (.call (.iderw p b)) u).Inv s₀ q m := by
  simp only [State.iderw] at hu
  split_ifs at hu with hlock hclean _
  have hlock := not_ne_iff.mp hlock
  have hclean := Bool.eq_false_iff.mpr hclean
  have hq := h.not_mem_of_not_asked (h.not_asked_of_lock hp hlock)
  rw [record_of_quiet rfl rfl rfl rfl]
  apply h.move (p := p)
  case hqnext => exact fun _ _ => rfl
  case ht => rw [← Outcome.next.inj hu]; rfl
  case howns =>
    intro c hc
    cases hc
    exact ⟨hlock, hper.1, hper.2⟩
  case hstart => simp [hp]
  case hawaits => simp [hp, Pc.awaits]
  case hfits =>
    cases hu
    exact ⟨hq, hclean⟩
  case hothers =>
    intro r hrp
    have hf := h.fits r
    cases hu
    generalize t.state.pc r = pc at hf ⊢
    cases pc <;> exact hf

theorem call (h : t.Inv s₀ q m) {c : Call P B D}
    (hu : t.state.call c = .next u) (hper : Permitted t (.call c)) :
    ∃ m', (t.record (.call c) u).Inv s₀ q m' := by
  cases c with
  | acquiresleep p b =>
      simp only [State.call] at hu
      split_ifs at hu with hc
      cases hu
      apply h.call_setBuf (h.not_asked_of_unlocked hc.2) _ rfl
      intro hbuf
      simp [Memide.step, hbuf, hc.2]
  | releasesleep p b =>
      simp only [State.call] at hu
      split_ifs at hu with hc
      cases hu
      apply h.call_setBuf (h.not_asked_of_lock hc.1 hc.2) _ rfl
      intro hbuf
      simp [Memide.step, hbuf, hc.2]
  | fill p b c =>
      simp only [State.call] at hu
      split_ifs at hu with hc
      cases hu
      apply h.call_setBuf (h.not_asked_of_lock hc.1 hc.2) _ rfl
      intro hbuf
      simp [Memide.step, hbuf, hc.2]
  | iderw p b =>
      simp only [State.call] at hu
      split_ifs at hu with hp
      exact ⟨m, h.enter hp hu hper⟩

/-! ### The steps inside of `iderw` -/

/-- While a process holds `idelock`, or nobody does, another process is not
concerned by its moves. -/
theorem others (h : t.Inv s₀ q m) {t' : Traced P B D}
    (hlock : t.state.idelock = none ∨ t.state.idelock = some p)
    (hbuf : t'.state.buf = t.state.buf) (harrived : t'.arrived = t.arrived)
    (hticket : t'.ticket = t.ticket) :
    ∀ r, r ≠ p → t'.Fits q r (t.state.pc r) := by
  intro r hrp
  refine (h.fits r).other ?_ hbuf harrived hticket
  rintro hr
  rcases hlock with hlock | hlock
  · rw [hlock] at hr
    cases hr
  · rw [hlock] at hr
    exact hrp (Option.some.inj hr).symm

/-- `acquire(&idelock); b->qnext = 0;` -/
theorem run_enter (h : t.Inv s₀ q m) (hp : t.state.pc p = .enter b)
    (hu : t.state.run p = .next u) :
    (t.record (.run p) u).Inv s₀ q m := by
  simp only [State.run, hp] at hu
  split_ifs at hu with hlock
  have hf := h.fits p
  rw [hp] at hf
  obtain ⟨hq, hclean⟩ := hf
  rw [record_of_quiet (by simp [State.effect, State.arrival, hp])
    (by simp [State.arrival, hp]) (by simp [State.starts, hp]) rfl]
  apply h.move (p := p)
  case ht => rw [← Outcome.next.inj hu]; rfl
  case hqnext =>
    intro c hc
    have hcb : c ≠ b := by
      rintro rfl
      exact hq hc
    exact Function.update_of_ne hcb ..
  case howns =>
    intro c hc
    apply h.owns p c
    rw [hp]
    exact hc
  case hstart => simp [hp]
  case hawaits => simp [hp, Pc.awaits]
  case hfits =>
    cases hu
    refine ⟨rfl, hq, hclean, Function.update_self .., [], q, rfl, rfl⟩
  case hothers =>
    exact h.others (.inl hlock) (by cases hu; rfl) rfl rfl

/-- A turn of the loop that looks for the end of the queue. -/
theorem run_append (h : t.Inv s₀ q m) {pp : Option B}
    (hp : t.state.pc p = .append b pp) (hc : t.state.deref pp = some c)
    (hu : t.state.run p = .next u) :
    (t.record (.run p) u).Inv s₀ q m := by
  simp only [State.run, hp, hc] at hu
  have hf := h.fits p
  rw [hp] at hf
  obtain ⟨hlock, hq, hclean, hnext, l, l', rfl, rfl⟩ := hf
  have hl' : l'.head? = some c := by
    rw [← hc]
    cases l using List.reverseRecOn with
    | nil => exact h.linked.head_eq.symm
    | append_singleton l d =>
        have := h.linked
        rw [List.append_assoc] at this
        simpa [State.deref] using this.next_eq.symm
  obtain ⟨l', rfl⟩ : ∃ l₂, l' = c :: l₂ := by
    cases l' with
    | nil => cases hl'
    | cons d l₂ =>
        cases hl'
        exact ⟨l₂, rfl⟩
  rw [record_of_quiet (by simp [State.effect, State.arrival, hp, hc])
    (by simp [State.arrival, hp, hc]) (by simp [State.starts, hp]) rfl]
  apply h.move (p := p)
  case hqnext => exact fun _ _ => rfl
  case ht => rw [← Outcome.next.inj hu]; rfl
  case howns =>
    intro d hd
    apply h.owns p d
    rw [hp]
    exact hd
  case hstart => simp [hp]
  case hawaits => simp [hp, Pc.awaits]
  case hfits =>
    cases hu
    exact ⟨hlock, hq, hclean, hnext, l ++ [c], l', by simp, by simp⟩
  case hothers =>
    exact h.others (.inr hlock) (by cases hu; rfl) rfl rfl

/-- `while(...) sleep(b, &idelock); release(&idelock);` -/
theorem run_wait (h : t.Inv s₀ q m) (hp : t.state.pc p = .wait b)
    (hu : t.state.run p = .next u) :
    (t.record (.run p) u).Inv s₀ q m := by
  have hf := h.fits p
  rw [hp] at hf
  obtain ⟨hlock, hticket, hb⟩ := hf
  simp only [State.run, hp] at hu
  rw [record_of_quiet (by simp [State.effect, State.arrival, hp])
    (by simp [State.arrival, hp]) (by simp [State.starts, hp]) rfl]
  split_ifs at hu with hclean
  · apply h.move (p := p)
    case hqnext => exact fun _ _ => rfl
    case ht => rw [← Outcome.next.inj hu]; rfl
    case howns => exact fun d hd => by cases hd
    case hstart => simp [hp]
    case hawaits =>
      intro c hc hpc
      obtain rfl : b = c := by simpa [hp, Pc.awaits] using hpc
      rw [(h.queued b hc).1] at hclean
      cases hclean
    case hfits => trivial
    case hothers =>
      exact h.others (.inr hlock) (by cases hu; rfl) rfl rfl
  · apply h.move (p := p)
    case hqnext => exact fun _ _ => rfl
    case ht => rw [← Outcome.next.inj hu]; rfl
    case howns =>
      intro d hd
      apply h.owns p d
      rw [hp]
      exact hd
    case hstart => simp [hp]
    case hawaits => simp [hp, Pc.awaits]
    case hfits =>
      cases hu
      exact ⟨hticket, hb⟩
    case hothers =>
      exact h.others (.inr hlock) (by cases hu; rfl) rfl rfl

/-- A sleeping process takes `idelock` and looks again. -/
theorem run_sleep (h : t.Inv s₀ q m) (hp : t.state.pc p = .sleep b)
    (hu : t.state.run p = .next u) :
    (t.record (.run p) u).Inv s₀ q m := by
  have hf := h.fits p
  rw [hp] at hf
  simp only [State.run, hp] at hu
  split_ifs at hu with hlock
  rw [record_of_quiet (by simp [State.effect, State.arrival, hp])
    (by simp [State.arrival, hp]) (by simp [State.starts, hp]) rfl]
  apply h.move (p := p)
  case hqnext => exact fun _ _ => rfl
  case ht => rw [← Outcome.next.inj hu]; rfl
  case howns =>
    intro d hd
    apply h.owns p d
    rw [hp]
    exact hd
  case hstart => simp [hp]
  case hawaits => simp [hp, Pc.awaits]
  case hfits =>
    cases hu
    exact ⟨rfl, hf.1, hf.2⟩
  case hothers =>
    exact h.others (.inl hlock) (by cases hu; rfl) rfl rfl

theorem head_eq_none (h : t.Inv s₀ q m) {l l' : List B}
    (hq : q = l ++ l') (hc : t.state.deref l.getLast? = none) : l' = [] := by
  subst hq
  have hl' : l'.head? = none := by
    rw [← hc]
    cases l using List.reverseRecOn with
    | nil => exact h.linked.head_eq.symm
    | append_singleton l d =>
        have := h.linked
        rw [List.append_assoc] at this
        simpa [State.deref] using this.next_eq.symm
  exact List.head?_eq_none_iff.mp hl'

/-- The device is idle exactly while the queue is empty, where no process is
about to start it. -/
theorem idle_iff (h : t.Inv s₀ q m)
    (hstart : ∀ p b, t.state.pc p ≠ .start b) :
    t.state.device.status = .idle ↔ q = [] := by
  constructor
  · intro hstatus
    obtain hq | ⟨p, b, hp, -⟩ := h.idle hstatus
    · exact hq
    · exact absurd hp (hstart p b)
  · rintro rfl
    by_contra hstatus
    obtain ⟨b, l, hq, -⟩ := h.command hstatus
    cases hq

theorem lock_of_start (h : t.Inv s₀ q m) (hr : t.state.pc r = .start b) :
    t.state.idelock = some r := by
  have hf := h.fits r
  rw [hr] at hf
  exact hf.1

theorem linked_link (h : t.Inv s₀ q m) (hb : b ∉ q)
    (hnext : t.state.qnext b = none) :
    Linked (t.state.link q.getLast? b).qnext
      (t.state.link q.getLast? b).idequeue (q ++ [b]) := by
  have hlinked := h.linked
  have hnodup := h.nodup
  cases q using List.reverseRecOn with
  | nil => exact ⟨rfl, hnext⟩
  | append_singleton l d =>
      simp only [List.getLast?_append_cons, List.getLast?_singleton]
      exact hlinked.concat hnodup hb hnext

/-- `*pp = b;` -/
theorem run_link (h : t.Inv s₀ q m) {pp : Option B}
    (hp : t.state.pc p = .append b pp) (hc : t.state.deref pp = none)
    (hu : t.state.run p = .next u) :
    (t.record (.run p) u).Inv s₀ (q ++ [b]) (m.transfer b) := by
  have hf := h.fits p
  rw [hp] at hf
  obtain ⟨hlock, hb, hclean, hnext, l, l', hq, rfl⟩ := hf
  obtain rfl := h.head_eq_none hq hc
  obtain rfl : q = l := by simpa using hq
  have howns := h.owns p b (by rw [hp]; rfl)
  have hidle : t.state.device.status = .idle ↔ q = [] := by
    apply h.idle_iff
    intro r d hr
    have := h.lock_of_start hr
    obtain rfl : p = r := Option.some.inj (hlock.symm.trans this)
    rw [hp] at hr
    cases hr
  have hm : Memide.step m (.iderw p b) = .next (m.transfer b) := by
    have hbuf := h.mem_buf hb
    have hne : ¬ FSSIZE ≤ (t.state.buf b).blockno.toNat :=
      Nat.not_le.mpr howns.blockno
    simp [Memide.step, Memide.State.iderw, hbuf, howns.lock, howns.dev,
      hclean, hne]
  simp only [State.run, hp, hc] at hu
  have hu := (Outcome.next.inj hu).symm
  have hbuf : u.buf = t.state.buf := by
    rw [hu]; cases q.getLast? <;> rfl
  have hdevice : u.device = t.state.device := by
    rw [hu]; cases q.getLast? <;> rfl
  have hdisk : u.disk = t.state.disk := by
    rw [hu]; cases q.getLast? <;> rfl
  have hidelock : u.idelock = t.state.idelock := by
    rw [hu]; cases q.getLast? <;> rfl
  have hpc : u.pc = Function.update t.state.pc p (.start b) := by
    rw [hu]; cases q.getLast? <;> rfl
  have hother : ∀ r, r ≠ p → u.pc r = t.state.pc r := by
    intro r hrp
    rw [hpc, Function.update_of_ne hrp]
  have hself : u.pc p = .start b := by
    rw [hpc, Function.update_self]
  have hrec : t.record (.run p) u =
      { state := u
        calls := t.calls ++ [.iderw p b]
        arrived := t.arrived ++ [b]
        started := t.started
        handled := t.handled
        ticket := Function.update t.ticket p t.arrived.length } := by
    simp [record, State.effect, State.arrival, State.starts, State.handles,
      hp, hc]
  rw [hrec]
  constructor
  case linked =>
    rw [hu]
    exact h.linked_link hb hnext
  case nodup =>
    rw [List.nodup_append]
    refine ⟨h.nodup, List.nodup_singleton b, ?_⟩
    rintro c hcq d hd rfl
    exact hb (List.mem_singleton.mp hd ▸ hcq)
  case owns =>
    intro r c hrc
    by_cases hrp : r = p
    · subst hrp
      rw [hself] at hrc
      cases hrc
      exact ⟨by rw [hbuf]; exact howns.lock, by rw [hbuf]; exact howns.dev,
        by rw [hbuf]; exact howns.blockno⟩
    · rw [hother r hrp] at hrc
      have ho := h.owns r c hrc
      exact ⟨by rw [hbuf]; exact ho.lock, by rw [hbuf]; exact ho.dev,
        by rw [hbuf]; exact ho.blockno⟩
  case fits =>
    intro r
    by_cases hrp : r = p
    · subst hrp
      rw [hself]
      refine ⟨hidelock.trans hlock, by simp, q, rfl, ?_⟩
      rw [hdevice]
      exact hidle
    · rw [hother r hrp]
      have hne : ∀ c, (t.state.pc r).asks = some c → c ≠ b := by
        rintro c hrc rfl
        exact hrp (h.asks_eq howns.lock hrc)
      apply (h.fits r).frame
      · intro hr
        exact hrp (Option.some.inj (hr.symm.trans hlock))
      · intro c hrc hcq hcc
        have : c ≠ b := hne c (by rw [hrc]; rfl)
        exact ⟨by simp [hcq, this], by rw [hbuf]; exact hcc⟩
      · intro c hrc hcq
        rw [hbuf]
        exact hcq.imp_left (List.mem_append_left _)
      · intro c hrc
        have hlt := (List.getElem?_eq_some_iff.mp hrc).1
        simp only [Function.update_of_ne hrp]
        rw [List.getElem?_append_left hlt]
        exact hrc
  case queued =>
    intro c hcq
    rw [hbuf]
    rcases List.mem_append.mp hcq with hcq | hcq
    · obtain ⟨hcc, r, hr⟩ := h.queued c hcq
      refine ⟨hcc, r, ?_⟩
      have hrp : r ≠ p := by
        rintro rfl
        simp [hp, Pc.awaits] at hr
      show (u.pc r).awaits c
      rw [hother r hrp]
      exact hr
    · obtain rfl := List.mem_singleton.mp hcq
      exact ⟨hclean, p, .inl hself⟩
  case idle =>
    intro hstatus
    rw [hdevice] at hstatus
    rw [hidle.mp hstatus]
    exact .inr ⟨p, b, hself, rfl⟩
  case command =>
    intro hstatus
    rw [hdevice] at hstatus
    obtain ⟨c, l, rfl, hcommand, hdone⟩ := h.command hstatus
    refine ⟨c, l ++ [b], rfl, ⟨?_, ?_⟩, fun hs => ⟨?_, ?_⟩⟩
    · rw [hdevice, hbuf]; exact hcommand.regs
    · rw [hdevice, hbuf]; exact hcommand.write
    · rw [hdevice] at hs; rw [hdisk, hbuf]; exact (hdone hs).written
    · rw [hdevice] at hs; rw [hdevice, hdisk, hbuf]; exact (hdone hs).read
  case arrived =>
    show t.arrived ++ [b] = t.handled ++ (q ++ [b])
    rw [h.arrived, List.append_assoc]
  case started =>
    show t.started = t.handled ++ _
    rw [h.started, hdevice]
    by_cases hstatus : t.state.device.status = .idle
    · simp [hstatus]
    · obtain ⟨c, l, rfl, -⟩ := h.command hstatus
      simp [hstatus]
  case transfers =>
    rw [Memide.transfers_append, ← h.transfers]
    simp only [State.memide, hbuf, hdisk]
  case run => exact h.run.snoc hm
  case requests => simp [h.requests, requested]

/-- `if(idequeue == b) idestart(b);` for the first buffer of the queue. -/
theorem run_start (h : t.Inv s₀ q m) (hp : t.state.pc p = .start b)
    (hhead : t.state.idequeue = some b)
    (hu : t.state.run p = .next u) :
    (t.record (.run p) u).Inv s₀ q m := by
  have hf := h.fits p
  rw [hp] at hf
  obtain ⟨hlock, hticket, l, rfl, hidle⟩ := hf
  obtain rfl : l = [] := by
    have hq := h.linked.head_eq
    rw [hhead] at hq
    cases l with
    | nil => rfl
    | cons c l =>
        obtain rfl : b = c := by simpa using hq
        have hnodup := h.nodup
        simp at hnodup
  have hstatus := hidle.mpr rfl
  simp only [State.run, hp, hhead, if_true] at hu
  obtain ⟨v, hv, hu⟩ := Outcome.map_eq_next hu
  obtain ⟨-, rfl⟩ := idestart_eq_next hv
  have hrec : t.record (.run p) u =
      { t with state := u, started := t.started ++ [b] } := by
    simp [record, State.effect, State.arrival, State.starts, State.handles,
      hp, hhead]
  rw [hrec, hu]
  constructor
  case linked => exact h.linked
  case nodup => exact h.nodup
  case owns =>
    intro r c hrc
    by_cases hrp : r = p
    · subst hrp
      simp only [State.setPc, Function.update_self] at hrc
      have ho := h.owns r c (by rw [hp]; exact hrc)
      exact ⟨ho.lock, ho.dev, ho.blockno⟩
    · simp only [State.setPc, Function.update_of_ne hrp] at hrc
      have ho := h.owns r c hrc
      exact ⟨ho.lock, ho.dev, ho.blockno⟩
  case fits =>
    intro r
    by_cases hrp : r = p
    · subst hrp
      simp only [State.setPc, Function.update_self]
      exact ⟨hlock, hticket, .inl (List.mem_singleton_self b)⟩
    · simp only [State.setPc, Function.update_of_ne hrp]
      apply h.others (.inr hlock) _ _ _ r hrp <;> rfl
  case queued =>
    intro c hc
    obtain ⟨hclean, -⟩ := h.queued c hc
    obtain rfl : c = b := by simpa using hc
    exact ⟨hclean, p, .inr (.inl (Function.update_self ..))⟩
  case idle => rintro ⟨⟩
  case command =>
    intro _
    exact ⟨b, [], rfl, ⟨rfl, rfl⟩, by rintro ⟨⟩⟩
  case arrived => exact h.arrived
  case started => simp [State.setPc, State.command, h.started, hstatus]
  case transfers => exact h.transfers
  case run => exact h.run
  case requests => exact h.requests

/-- `if(idequeue == b) idestart(b);` for another buffer. -/
theorem run_start_behind (h : t.Inv s₀ q m) (hp : t.state.pc p = .start b)
    (hhead : t.state.idequeue ≠ some b)
    (hu : t.state.run p = .next u) :
    (t.record (.run p) u).Inv s₀ q m := by
  have hf := h.fits p
  rw [hp] at hf
  obtain ⟨hlock, hticket, l, rfl, hidle⟩ := hf
  simp only [State.run, hp, if_neg hhead] at hu
  rw [record_of_quiet (by simp [State.effect, State.arrival, hp])
    (by simp [State.arrival, hp]) (by simp [State.starts, hp, hhead]) rfl]
  apply h.move (p := p)
  case ht => rw [← Outcome.next.inj hu]; rfl
  case hqnext => exact fun _ _ => rfl
  case howns =>
    intro d hd
    apply h.owns p d
    rw [hp]
    exact hd
  case hstart =>
    intro hstatus
    obtain rfl := hidle.mp hstatus
    exact absurd h.linked.head_eq hhead
  case hawaits => simp [hp, Pc.awaits]
  case hfits =>
    cases hu
    exact ⟨hlock, hticket, .inl (by simp)⟩
  case hothers =>
    exact h.others (.inr hlock) (by cases hu; rfl) rfl rfl

theorem run_step (h : t.Inv s₀ q m) (hu : t.state.run p = .next u) :
    ∃ q' m', (t.record (.run p) u).Inv s₀ q' m' := by
  match hp : t.state.pc p with
  | .idle =>
      simp only [State.run, hp] at hu
      cases hu
  | .enter b => exact ⟨q, m, h.run_enter hp hu⟩
  | .append b pp =>
      match hc : t.state.deref pp with
      | none => exact ⟨q ++ [b], m.transfer b, h.run_link hp hc hu⟩
      | some c => exact ⟨q, m, h.run_append hp hc hu⟩
  | .start b =>
      by_cases hhead : t.state.idequeue = some b
      · exact ⟨q, m, h.run_start hp hhead hu⟩
      · exact ⟨q, m, h.run_start_behind hp hhead hu⟩
  | .wait b => exact ⟨q, m, h.run_wait hp hu⟩
  | .sleep b => exact ⟨q, m, h.run_sleep hp hu⟩

/-! ### The disk and its interrupts -/

omit [DecidableEq P] [DecidableEq B] in
/-- What the completion of a command for `b` leaves. -/
theorem complete_eq (hcommand : t.state.Commanded b)
    (howns : t.state.Owns p b) :
    t.state.complete =
      { t.state with
        device :=
          { t.state.device with
            status := .done
            fifo :=
              if (t.state.buf b).dirty then t.state.device.fifo
              else t.state.disk 1 (t.state.buf b).blockno.toNat }
        disk :=
          if (t.state.buf b).dirty then
            Function.update t.state.disk 1
              (Function.update (t.state.disk 1)
                (t.state.buf b).blockno.toNat (t.state.buf b).data)
          else t.state.disk } := by
  have hsector : t.state.device.regs.sector =
      (t.state.buf b).blockno.toNat := by
    rw [hcommand.regs]
    exact regs_sector howns.blockno
  have hdrive : t.state.device.regs.drive = 1 := by
    rw [hcommand.regs, regs_drive howns.blockno, howns.dev]
    rfl
  simp only [State.complete, hcommand.write, hsector, hdrive]
  cases (t.state.buf b).dirty <;> rfl

theorem complete (h : t.Inv s₀ q m) (hbusy : t.state.device.status = .busy) :
    (t.record .complete t.state.complete).Inv s₀ q m := by
  have hne : t.state.device.status ≠ .idle := by
    rw [hbusy]
    exact Status.noConfusion
  obtain ⟨b, l, rfl, hcommand, -⟩ := h.command hne
  obtain ⟨-, r, hr⟩ := h.queued b List.mem_cons_self
  have howns := h.owns r b (by
    obtain hr | hr | hr := hr <;> rw [hr] <;> rfl)
  have hu := complete_eq hcommand howns
  rw [record_of_quiet rfl rfl rfl rfl]
  generalize t.state.complete = u at hu
  have hstatus : u.device.status = .done := by rw [hu]
  have hbuf : u.buf = t.state.buf := by rw [hu]
  have hpc : u.pc = t.state.pc := by rw [hu]
  constructor
  case linked =>
    subst hu
    exact h.linked
  case nodup => exact h.nodup
  case owns =>
    intro p c hc
    have ho := h.owns p c (by rw [← hpc]; exact hc)
    exact ⟨by rw [hbuf]; exact ho.lock, by rw [hbuf]; exact ho.dev,
      by rw [hbuf]; exact ho.blockno⟩
  case fits =>
    intro p
    have hf := h.fits p
    rw [← hpc] at hf
    show Traced.Fits _ (b :: l) p (u.pc p)
    generalize u.pc p = pc at hf
    subst hu
    cases pc with
    | start c =>
        obtain ⟨hlock, hticket, l', hl', hidle⟩ := hf
        refine ⟨hlock, hticket, l', hl', ?_⟩
        rw [← hidle]
        exact iff_of_false Status.noConfusion hne
    | _ => exact hf
  case queued =>
    intro c hc
    show (u.buf c).clean = false ∧ ∃ p, (u.pc p).awaits c
    rw [hbuf, hpc]
    exact h.queued c hc
  case idle =>
    intro hidle
    exact absurd (hidle.symm.trans hstatus) Status.noConfusion
  case command =>
    intro _
    refine ⟨b, l, rfl, ⟨?_, ?_⟩, fun _ => ⟨?_, ?_⟩⟩
    · subst hu; exact hcommand.regs
    · subst hu; exact hcommand.write
    · intro hdirty
      subst hu
      simp only at hdirty
      simp [hdirty]
    · intro hdirty
      subst hu
      simp only at hdirty
      simp [hdirty]
  case arrived => exact h.arrived
  case started =>
    show t.started = t.handled ++ _
    rw [h.started, if_neg hne, if_neg]
    rw [hstatus]
    exact Status.noConfusion
  case transfers =>
    rw [← h.transfers]
    subst hu
    simp only [State.memide, Memide.State.transfers, List.foldl_cons]
    congr 1
    cases hdirty : (t.state.buf b).dirty with
    | false => simp [Memide.State.transfer, hdirty]
    | true => simp [Memide.State.transfer, Memide.State.setBuf, hdirty]
  case run => exact h.run
  case requests => exact h.requests

/-- The head of the queue is done, and the disk is started for the next. -/
theorem dequeue {l : List B} (h : t.Inv s₀ (b :: l) m)
    (hlock : t.state.idelock = none) (hdone : t.state.device.status = .done)
    (hu : u =
      { t.state.setBuf b { t.state.buf b with
          data := t.state.intrData b, valid := true, dirty := false } with
        idequeue := t.state.qnext b
        device := u.device })
    (hidle : u.device.status = .idle ↔ l = [])
    (hcommand : ∀ c l', l = c :: l' →
      u.Commanded c ∧ u.device.status = .busy)
    (hstarted : t'.started = t.started ++ l.take 1)
    (hhandled : t'.handled = t.handled ++ [b])
    (harrived : t'.arrived = t.arrived) (hcalls : t'.calls = t.calls)
    (hticket : t'.ticket = t.ticket) (hstate : t'.state = u) :
    t'.Inv s₀ l m := by
  have hne : t.state.device.status ≠ .idle := by
    rw [hdone]
    exact Status.noConfusion
  obtain ⟨hb, hnodup⟩ := List.nodup_cons.mp h.nodup
  have htransferred : t.state.Transferred b := by
    obtain ⟨c, l', hl, -, hc⟩ := h.command hne
    cases hl
    exact hc hdone
  have hother : ∀ c, c ≠ b → u.buf c = t.state.buf c := by
    intro c hc
    rw [hu]
    exact Function.update_of_ne hc ..
  have hself : u.buf b = { t.state.buf b with
      data := t.state.intrData b, valid := true, dirty := false } := by
    rw [hu]
    exact Function.update_self ..
  have hpc : u.pc = t.state.pc := by
    rw [hu]
    rfl
  have hmem : ∀ c ∈ l, c ≠ b := by
    rintro c hc rfl
    exact hb hc
  constructor
  case linked =>
    rw [hstate, hu]
    exact h.linked.2
  case nodup => exact hnodup
  case owns =>
    intro p c hc
    rw [hstate, hpc] at hc
    have ho := h.owns p c hc
    rw [hstate]
    by_cases hcb : c = b
    · subst hcb
      exact ⟨by rw [hself]; exact ho.lock, by rw [hself]; exact ho.dev,
        by rw [hself]; exact ho.blockno⟩
    · have heq := hother c hcb
      exact ⟨by rw [heq]; exact ho.lock, by rw [heq]; exact ho.dev,
        by rw [heq]; exact ho.blockno⟩
  case fits =>
    intro p
    rw [hstate, hpc]
    apply (h.fits p).frame
    · rw [hlock]
      exact nofun
    · intro c _ hcq hcc
      obtain ⟨hcb, hcl⟩ := not_or.mp (List.mem_cons.not.mp hcq)
      exact ⟨hcl, by rw [hstate, hother c hcb]; exact hcc⟩
    · intro c _ hcq
      by_cases hcb : c = b
      · subst hcb
        right
        rw [hstate, hself]
        rfl
      · rw [hstate, hother c hcb]
        exact hcq.imp_left fun hc => (List.mem_cons.mp hc).resolve_left hcb
    · intro c hc
      rw [harrived, hticket]
      exact hc
  case queued =>
    intro c hc
    rw [hstate, hother c (hmem c hc), hpc]
    exact h.queued c (List.mem_cons_of_mem _ hc)
  case idle =>
    rw [hstate]
    exact fun hstatus => .inl (hidle.mp hstatus)
  case command =>
    rw [hstate]
    intro hstatus
    cases l with
    | nil => exact absurd (hidle.mpr rfl) hstatus
    | cons c l =>
        obtain ⟨hc, hbusy⟩ := hcommand c l rfl
        refine ⟨c, l, rfl, hc, ?_⟩
        rw [hbusy]
        rintro ⟨⟩
  case arrived => rw [harrived, hhandled, h.arrived, List.append_assoc]; rfl
  case started =>
    rw [hstarted, hhandled, h.started, if_neg hne, hstate]
    by_cases hl : l = []
    · simp [hl]
    · simp [hidle, hl]
  case transfers =>
    rw [← h.transfers]
    show Memide.State.transfers _ l =
      (t.state.memide.transfer b).transfers l
    congr 1
    rw [hstate, hu]
    cases hdirty : (t.state.buf b).dirty with
    | false =>
        simp [State.memide, State.setBuf, Memide.State.transfer,
          Memide.State.setBuf, State.intrData, hdirty,
          htransferred.read hdirty]
    | true =>
        simp [State.memide, State.setBuf, Memide.State.transfer,
          Memide.State.setBuf, State.intrData, hdirty,
          ← htransferred.written hdirty]
  case run => rw [hcalls]; exact h.run
  case requests => rw [hcalls, harrived]; exact h.requests

theorem ideintr (h : t.Inv s₀ q m) (hlock : t.state.idelock = none)
    (hcause : t.state.device.status = .done ∨ t.state.idequeue = none)
    (hu : t.state.ideintr = .next u) :
    ∃ q', (t.record .ideintr u).Inv s₀ q' m := by
  cases q with
  | nil =>
      have hqueue : t.state.idequeue = none := h.linked
      have hstatus : t.state.device.status = .idle := by
        by_contra hne
        obtain ⟨b, l, hq, -⟩ := h.command hne
        cases hq
      simp only [State.ideintr, hqueue] at hu
      rw [record_of_quiet rfl rfl (by simp [State.starts, hqueue])
        (by simp [State.handles, hqueue])]
      have heq : t.state = u := by
        rw [← Outcome.next.inj hu, ← hstatus, ← hqueue]
      rw [← heq]
      exact ⟨[], h⟩
  | cons b l =>
      have hhead : t.state.idequeue = some b := h.linked.1
      have hnext : t.state.qnext b = l.head? := h.linked.2.head_eq
      have hdone := hcause.resolve_right (by rw [hhead]; exact nofun)
      simp only [State.ideintr, hhead] at hu
      have hhandled : (t.record .ideintr u).handled = t.handled ++ [b] := by
        simp [record, State.handles, hhead]
      have hstarted : (t.record .ideintr u).started =
          t.started ++ l.take 1 := by
        cases l <;> simp [record, State.starts, hhead, hnext]
      have hcalls : (t.record .ideintr u).calls = t.calls := by
        simp [record, State.effect, State.arrival]
      have harrived : (t.record .ideintr u).arrived = t.arrived := by
        simp [record, State.arrival]
      refine ⟨l, ?_⟩
      cases l with
      | nil =>
          simp only [hnext, List.head?_nil] at hu
          have hu := (Outcome.next.inj hu).symm
          apply h.dequeue hlock hdone (u := u) _ _ _ hstarted hhandled
            harrived hcalls rfl rfl
          · rw [hu, hnext]; rfl
          · exact iff_of_true (by rw [hu]) rfl
          · rintro c l' ⟨⟩
      | cons c l =>
          simp only [hnext, List.head?_cons] at hu
          obtain ⟨-, hu⟩ := idestart_eq_next hu
          apply h.dequeue hlock hdone (u := u) _ _ _ hstarted hhandled
            harrived hcalls rfl rfl
          · rw [hu, hnext]; rfl
          · exact iff_of_false (by rw [hu]; rintro ⟨⟩) (by simp)
          · rintro d l' ⟨⟩
            rw [hu]
            exact ⟨⟨rfl, rfl⟩, rfl⟩

theorem boot (hs : Booted s₀) : (Traced.boot s₀).Inv s₀ [] s₀.memide where
  linked := hs.idequeue
  nodup := List.nodup_nil
  owns := by
    intro p b hp
    have hp : (s₀.pc p).asks = some b := hp
    rw [hs.pc p] at hp
    cases hp
  fits := by
    intro p
    show Traced.Fits _ _ p (s₀.pc p)
    rw [hs.pc p]
    trivial
  queued := by simp
  idle := fun _ => .inl rfl
  command := fun hne => absurd hs.status hne
  arrived := rfl
  started := by simp [Traced.boot]
  transfers := rfl
  run := .nil _
  requests := rfl

theorem step (h : t.Inv s₀ q m) {a : Act P B D} (hper : Permitted t a)
    (ha : t.step a = .next t') : ∃ q' m', t'.Inv s₀ q' m' := by
  obtain ⟨u, hu, rfl⟩ := step_eq_next ha
  cases a with
  | call c =>
      obtain ⟨m', hm'⟩ := h.call hu hper
      exact ⟨q, m', hm'⟩
  | run p => exact h.run_step hu
  | complete =>
      simp only [Ide.step] at hu
      split_ifs at hu with hbusy
      rw [← Outcome.next.inj hu]
      exact ⟨q, m, h.complete hbusy⟩
  | ideintr =>
      simp only [Ide.step] at hu
      split_ifs at hu with hc
      obtain ⟨q', hq'⟩ := h.ideintr hc.1 hc.2 hu
      exact ⟨q', m, hq'⟩

theorem of_run {w : List (Act P B D)} (hs : Booted s₀)
    (hrun : Run Traced.step (Traced.boot s₀) w t)
    (hw : Meets Traced.step Permitted (Traced.boot s₀) w) :
    ∃ q m, t.Inv s₀ q m := by
  apply hrun.invariant_of_meets (I := fun t => ∃ q m, t.Inv s₀ q m) _ hw
  · exact ⟨[], s₀.memide, boot hs⟩
  · rintro t a t' ⟨q, m, h⟩ hper ha
    exact h.step hper ha

theorem pending_eq (h : t.Inv s₀ q m) : t.pending = q := by
  rw [Traced.pending, h.arrived, List.drop_left]

theorem run_ne_panic (h : t.Inv s₀ q m) (p : P) (message : String) :
    t.state.run p ≠ .panic message := by
  match hp : t.state.pc p with
  | .idle => simp [State.run, hp]
  | .enter b =>
      simp only [State.run, hp]
      split_ifs <;> simp
  | .append b pp =>
      simp only [State.run, hp]
      split <;> simp
  | .start b =>
      have howns := h.owns p b (by rw [hp]; rfl)
      simp only [State.run, hp]
      split_ifs
      · rw [Ne, Outcome.map_eq_panic]
        exact idestart_ne_panic howns.blockno message
      · simp
  | .wait b =>
      simp only [State.run, hp]
      split_ifs <;> simp
  | .sleep b =>
      simp only [State.run, hp]
      split_ifs <;> simp

theorem ideintr_ne_panic (h : t.Inv s₀ q m) (message : String) :
    t.state.ideintr ≠ .panic message := by
  cases q with
  | nil =>
      have hqueue : t.state.idequeue = none := h.linked
      simp [State.ideintr, hqueue]
  | cons b l =>
      have hhead : t.state.idequeue = some b := h.linked.1
      have hnext : t.state.qnext b = l.head? := h.linked.2.head_eq
      cases l with
      | nil => simp [State.ideintr, hhead, hnext]
      | cons c l =>
          simp only [State.ideintr, hhead, hnext, List.head?_cons]
          have hcb : c ≠ b := by
            rintro rfl
            exact (List.nodup_cons.mp h.nodup).1 List.mem_cons_self
          obtain ⟨-, r, hr⟩ := h.queued c (by simp)
          have howns := h.owns r c (by
            obtain hr | hr | hr := hr <;> rw [hr] <;> rfl)
          apply idestart_ne_panic
          simp only [State.setBuf, Function.update_of_ne hcb]
          exact howns.blockno

/-- The driver does not stop the machine once a request is accepted. -/
theorem safe (h : t.Inv s₀ q m) {a : Act P B D} (ha : ∀ c, a ≠ .call c)
    (message : String) : t.step a ≠ .panic message := by
  rw [Traced.step, Ne, Outcome.map_eq_panic]
  cases a with
  | call c => exact absurd rfl (ha c)
  | run p => exact h.run_ne_panic p message
  | complete =>
      simp only [Ide.step]
      split_ifs <;> simp
  | ideintr =>
      simp only [Ide.step]
      split_ifs
      · exact h.ideintr_ne_panic message
      · simp

end Traced.Inv

/-! ## The refinement -/

/-- The requests are served one by one in the order of their arrival. -/
structure Traced.Served (t : Traced P B D) : Prop where
  /-- The queue holds what has not been handled, each request once. -/
  queue : Linked t.state.qnext t.state.idequeue t.pending
  nodup : t.pending.Nodup
  /-- The disk is started in the order of arrival, once for each request. -/
  started : t.started <+: t.arrived
  handled : t.handled <+: t.started
  /-- There is at most one command outstanding. -/
  outstanding : t.started.length ≤ t.handled.length + 1
  /-- A command is for the head of the queue. -/
  command : t.state.device.status ≠ .idle → ∃ b,
    t.state.idequeue = some b ∧ t.started = t.handled ++ [b] ∧
      t.state.Commanded b
  idle : t.state.device.status = .idle → t.started = t.handled
  /-- While nobody is inside of the driver, the disk works on the queue. -/
  working : t.state.idelock = none → t.state.idequeue ≠ none →
    t.state.device.status ≠ .idle
  waiting : ∀ b ∈ t.pending, ∃ p, (t.state.pc p).awaits b
  /-- A process leaves `iderw` after its own transfer. -/
  leaves : ∀ p b, t.state.pc p = .wait b →
    (t.state.buf b).clean = true →
    t.arrived[t.ticket p]? = some b ∧ t.ticket p < t.handled.length
  safe : ∀ a, (∀ c, a ≠ .call c) → ∀ message, t.step a ≠ .panic message

/-- The disk in memory, run on the same calls, ends in the state `m`. -/
structure Traced.Agrees (s₀ : State P B D) (t : Traced P B D)
    (m : Memide.State P B D) : Prop where
  run : Run Memide.step s₀.memide t.calls m
  requests : t.calls.filterMap requested = t.arrived
  /-- The transfers in the queue make up for the difference. -/
  transfers : t.state.memide.transfers t.pending = m
  buffers : ∀ b, b ∉ t.pending → t.state.buf b = m.buf b
  done : t.pending = [] → t.state.memide = m

/-- Every run of the interrupt-driven driver serves the requests in order, and
does what the disk in memory does on the same requests. -/
theorem ide_refines_memide {w : List (Act P B D)} (hs : Booted s)
    (hrun : Run Traced.step (Traced.boot s) w t)
    (hw : Meets Traced.step Permitted (Traced.boot s) w) :
    t.Served ∧ ∃ m, t.Agrees s m := by
  obtain ⟨q, m, h⟩ := Traced.Inv.of_run hs hrun hw
  have hq := h.pending_eq
  refine ⟨?_, m, ?_⟩
  · constructor
    case queue => rw [hq]; exact h.linked
    case nodup => rw [hq]; exact h.nodup
    case started =>
      rw [h.started, h.arrived, List.prefix_append_right_inj]
      split_ifs
      · exact List.nil_prefix
      · exact List.take_prefix 1 q
    case handled => rw [h.started]; exact List.prefix_append ..
    case outstanding =>
      rw [h.started, List.length_append]
      split_ifs
      · simp
      · simp only [List.length_take]
        omega
    case command =>
      intro hne
      obtain ⟨b, l, rfl, hcommand, -⟩ := h.command hne
      exact ⟨b, h.linked.1, by rw [h.started, if_neg hne]; rfl, hcommand⟩
    case idle =>
      intro hidle
      rw [h.started, if_pos hidle, List.append_nil]
    case working =>
      intro hlock hhead hidle
      obtain rfl | ⟨p, b, hp, -⟩ := h.idle hidle
      · exact hhead h.linked
      · rw [h.lock_of_start hp] at hlock
        cases hlock
    case waiting => rw [hq]; exact fun b hb => (h.queued b hb).2
    case leaves =>
      intro p b hp hclean
      have hf := h.fits p
      rw [hp] at hf
      obtain ⟨-, hticket, -⟩ := hf
      refine ⟨hticket, ?_⟩
      by_contra hle
      rw [h.arrived, List.getElem?_append_right (Nat.not_lt.mp hle)]
        at hticket
      have := (h.queued b (List.mem_of_getElem? hticket)).1
      rw [hclean] at this
      cases this
    case safe => exact fun a ha message => h.safe ha message
  · constructor
    case run => exact h.run
    case requests => exact h.requests
    case transfers => rw [hq]; exact h.transfers
    case buffers => rw [hq]; exact fun b hb => (h.mem_buf hb).symm
    case done =>
      rw [hq]
      rintro rfl
      exact h.transfers

/-! ### Two requests at once -/

instance (t : Traced P B D) : DecidablePred (Permitted t)
  | .call (.iderw _ b) =>
      inferInstanceAs
        (Decidable ((t.state.buf b).dev = 1 ∧
          (t.state.buf b).blockno.toNat < FSSIZE))
  | .call (.acquiresleep _ _) => .isTrue trivial
  | .call (.releasesleep _ _) => .isTrue trivial
  | .call (.fill _ _ _) => .isTrue trivial
  | .run _ => .isTrue trivial
  | .complete => .isTrue trivial
  | .ideintr => .isTrue trivial

/-- Two processes, two buffers and an empty disk. -/
def State.fresh : State (Fin 2) (Fin 2) ℕ where
  buf := fun _ =>
    { dev := 1, blockno := 0, lock := none, valid := false, dirty := false
      data := 0 }
  qnext := fun _ => none
  idequeue := none
  idelock := none
  havedisk1 := true
  device := { status := .idle, regs := regs 0 0, write := none, fifo := 0 }
  disk := fun _ _ => 0
  pc := fun _ => .idle

/-- A write of block 7 and a read of block 7, both in the queue before the
first interrupt. -/
def twoRequests : List (Act (Fin 2) (Fin 2) ℕ) :=
  [.call (.acquiresleep 0 0), .call (.acquiresleep 1 1),
    .call (.fill 0 0 ⟨1, 7, true, true, 5⟩),
    .call (.fill 1 1 ⟨1, 7, false, false, 0⟩),
    .call (.iderw 0 0), .call (.iderw 1 1), .run 0, .run 0, .run 0, .run 0,
    .run 1, .run 1, .complete, .run 1, .run 1, .run 1, .ideintr, .complete,
    .run 0, .run 0, .ideintr, .run 1, .run 1]

theorem ide_refines_memide_twoRequests :
    ∃ t, Run Traced.step (Traced.boot State.fresh) twoRequests t ∧
      (t.Served ∧ ∃ m, t.Agrees State.fresh m) ∧
      t.arrived = [0, 1] ∧ t.handled = [0, 1] ∧
      (t.state.buf 1).data = 5 := by
  obtain ⟨t, hrun, ht⟩ := Run.exists_of_exec Traced.step
    (Traced.boot State.fresh) twoRequests
    (fun t => t.arrived = [0, 1] && t.handled = [0, 1] &&
      (t.state.buf 1).data = 5)
    (by decide +kernel)
  have hs : Booted State.fresh := ⟨fun _ => rfl, rfl, rfl, rfl⟩
  have hw : Meets Traced.step Permitted (Traced.boot State.fresh)
      twoRequests := by
    decide +kernel
  simp only [Bool.and_eq_true, decide_eq_true_eq] at ht
  exact ⟨t, hrun, ide_refines_memide hs hrun hw, ht.1.1, ht.1.2, ht.2⟩

end ZtlOs.Drivers.Ide
