import ZtlOs.Support.Runs
import ZtlOs.Fs.Format
import Mathlib.Data.Fintype.Card
import Mathlib.Data.Fintype.Pi
import Mathlib.Data.List.FinRange
import Mathlib.Data.List.Nodup

/-!
# The buffer cache

`bio.c` over a disk whose requests do not fail.  Every critical section of
`bcache.lock`, every change of a sleep lock and every completed disk request
is one step, so that the calls of several processes interleave between them.
The contents of a block are of an arbitrary type here.
-/

namespace ZtlOs.Cache

open ZtlOs.Support ZtlOs.Fs

structure BlockId where
  dev : ℕ
  blockno : ℕ
  deriving DecidableEq

/-- The driver selects one of its two disks by `b->dev & 1`. -/
def BlockId.sector (id : BlockId) : ℕ × ℕ :=
  (id.dev % 2, id.blockno)

/-- `struct buf`.  The sleep lock names the process that holds it. -/
structure Buf (P D : Type*) where
  id : BlockId
  refcnt : ℕ
  lock : Option P
  valid : Bool
  dirty : Bool
  data : D

/-- Where a process stands in its current call of `bread` or `brelse`. -/
inductive Call where
  | idle
  /-- In `acquiresleep`, after `bget` has picked the buffer. -/
  | locking (i : Fin NBUF)
  /-- In `bread`, with the buffer locked. -/
  | loading (i : Fin NBUF)
  /-- In `brelse`, after `releasesleep`. -/
  | releasing (i : Fin NBUF)
  deriving DecidableEq

/-- `bcache`, the disks, and the calls in progress.  `lru` lists the buffers
from the most recently used one on. -/
structure State (P D : Type*) where
  buf : Fin NBUF → Buf P D
  lru : List (Fin NBUF)
  disk : ℕ × ℕ → D
  call : P → Call

inductive Act (P D : Type*) where
  | bread (p : P) (id : BlockId)
  | acquiresleep (p : P)
  | load (p : P)
  /-- `p` changes the data of a buffer that it holds. -/
  | modify (p : P) (i : Fin NBUF) (data : D)
  /-- `log_write` sets `B_DIRTY` in a buffer that `p` holds. -/
  | pin (p : P) (i : Fin NBUF)
  | bwrite (p : P) (i : Fin NBUF)
  | brelse (p : P) (i : Fin NBUF)
  | release (p : P)

section Step

variable {P D : Type*}

def State.setBuf (s : State P D) (i : Fin NBUF) (b : Buf P D) : State P D :=
  { s with buf := Function.update s.buf i b }

/-- `p` is not in a call and holds the lock of buffer `i`. -/
def State.holds (s : State P D) (p : P) (i : Fin NBUF) : Prop :=
  s.call p = .idle ∧ (s.buf i).lock = some p

instance [DecidableEq P] (s : State P D) (p : P) (i : Fin NBUF) :
    Decidable (s.holds p i) :=
  inferInstanceAs (Decidable (_ ∧ _))

/-- A buffer that is referenced or has been read. -/
def Buf.used (b : Buf P D) : Prop :=
  b.refcnt ≠ 0 ∨ b.valid = true

/-- `binit`: the buffers are zero, and the last one is at the head. -/
def binit (zero : D) (disk : ℕ × ℕ → D) : State P D where
  buf := fun _ =>
    { id := ⟨0, 0⟩, refcnt := 0, lock := none, valid := false
      dirty := false, data := zero }
  lru := (List.finRange NBUF).reverse
  disk := disk
  call := fun _ => .idle

/-- The buffer that `bget` finds for a block. -/
def State.cached (s : State P D) (id : BlockId) : Option (Fin NBUF) :=
  s.lru.find? fun i => (s.buf i).id = id

/-- The buffer that `bget` recycles. -/
def State.unused (s : State P D) : Option (Fin NBUF) :=
  s.lru.reverse.find? fun i => (s.buf i).refcnt = 0 && !(s.buf i).dirty

variable [DecidableEq P]

def State.setCall (s : State P D) (p : P) (call : Call) : State P D :=
  { s with call := Function.update s.call p call }

/-- The critical section of `bget`. -/
def State.bget (s : State P D) (p : P) (id : BlockId) :
    Outcome (State P D) :=
  match s.cached id with
  | some i =>
      .next ((s.setBuf i
        { s.buf i with refcnt := (s.buf i).refcnt + 1 }).setCall p
          (.locking i))
  | none =>
      match s.unused with
      | some i =>
          .next ((s.setBuf i
            { s.buf i with
              id := id, valid := false, dirty := false, refcnt := 1 }).setCall
              p (.locking i))
      | none => .panic "bget: no buffers"

/-- A request that has been served: a dirty buffer is written, any other one
is read. -/
def State.iderw (s : State P D) (i : Fin NBUF) : Outcome (State P D) :=
  let b := s.buf i
  if b.lock = none then
    .panic "iderw: buf not locked"
  else if b.valid = true ∧ b.dirty = false then
    .panic "iderw: nothing to do"
  else if b.id.blockno ≥ FSSIZE then
    .panic "incorrect blockno"
  else if b.dirty then
    .next { s.setBuf i { b with valid := true, dirty := false } with
      disk := Function.update s.disk b.id.sector b.data }
  else
    .next (s.setBuf i { b with valid := true, data := s.disk b.id.sector })

def State.bwrite (s : State P D) (i : Fin NBUF) : Outcome (State P D) :=
  if (s.buf i).lock = none then
    .panic "bwrite"
  else
    (s.setBuf i { s.buf i with dirty := true }).iderw i

/-- The second half of `brelse`. -/
def State.release (s : State P D) (i : Fin NBUF) : State P D :=
  let refcnt := (s.buf i).refcnt - 1
  { s.setBuf i { s.buf i with refcnt := refcnt } with
    lru := if refcnt = 0 then i :: s.lru.erase i else s.lru }

def step (s : State P D) : Act P D → Outcome (State P D)
  | .bread p id => if s.call p = .idle then s.bget p id else .blocked
  | .acquiresleep p =>
      match s.call p with
      | .locking i =>
          if (s.buf i).lock = none then
            .next ((s.setBuf i { s.buf i with lock := some p }).setCall p
              (.loading i))
          else .blocked
      | _ => .blocked
  | .load p =>
      match s.call p with
      | .loading i =>
          if (s.buf i).valid then .next (s.setCall p .idle)
          else (s.iderw i).map fun t => t.setCall p .idle
      | _ => .blocked
  | .modify p i data =>
      if s.holds p i then
        .next (s.setBuf i { s.buf i with data := data })
      else .blocked
  | .pin p i =>
      if s.holds p i then
        .next (s.setBuf i { s.buf i with dirty := true })
      else .blocked
  | .bwrite p i => if s.holds p i then s.bwrite i else .blocked
  | .brelse p i =>
      if s.holds p i then
        .next ((s.setBuf i { s.buf i with lock := none }).setCall p
          (.releasing i))
      else .blocked
  | .release p =>
      match s.call p with
      | .releasing i => .next ((s.release i).setCall p .idle)
      | _ => .blocked

end Step

/-! ## Reference counts -/

/-- The call counts as a reference to buffer `i` without holding its lock. -/
def Call.waits (c : Call) (i : Fin NBUF) : Bool :=
  c = .locking i || c = .releasing i

/-- The processes whose call counts as a reference to buffer `i`. -/
def waiters {P : Type*} [Fintype P] (call : P → Call) (i : Fin NBUF) :
    Finset P :=
  Finset.univ.filter fun p => (call p).waits i = true

section Waiters

variable {P : Type*} [Fintype P] {call : P → Call} {p : P} {c : Call}
variable {i : Fin NBUF}

theorem mem_waiters : p ∈ waiters call i ↔ (call p).waits i = true := by
  simp [waiters]

theorem card_waiters_update [DecidableEq P] (call : P → Call) (p : P)
    (c : Call) (i : Fin NBUF) :
    (waiters (Function.update call p c) i).card + ((call p).waits i).toNat =
      (waiters call i).card + (c.waits i).toNat := by
  have herase : (waiters (Function.update call p c) i).erase p =
      (waiters call i).erase p := by
    ext q
    by_cases hq : q = p
    · simp [hq]
    · simp [mem_waiters, hq]
  have hcard : ∀ call' : P → Call, (waiters call' i).card =
      ((waiters call' i).erase p).card + ((call' p).waits i).toNat := by
    intro call'
    cases hw : (call' p).waits i with
    | true =>
        rw [Finset.card_erase_add_one (mem_waiters.mpr hw) |>.symm]
        rfl
    | false =>
        rw [Finset.erase_eq_of_notMem (by simp [mem_waiters, hw])]
        rfl
  rw [hcard (Function.update call p c), hcard call, herase,
    Function.update_self]
  omega

end Waiters

/-! ## Searching the list -/

section Find

variable {α : Type*} {l : List α} {p q : α → Bool} {a : α}

/-- The first match stays the first one when others stop matching. -/
theorem find?_of_imp (h : l.find? p = some a)
    (hqp : ∀ x ∈ l, q x = true → p x = true) (ha : q a = true) :
    l.find? q = some a := by
  rw [List.find?_eq_some_iff_append] at h ⊢
  obtain ⟨-, as, bs, rfl, has⟩ := h
  refine ⟨ha, as, bs, rfl, fun x hx => ?_⟩
  have hpx := has x hx
  simp only [Bool.not_eq_eq_eq_not, Bool.not_true] at hpx ⊢
  by_contra hqx
  have := hqp x (by simp [hx]) (by simpa using hqx)
  simp [hpx] at this

theorem find?_of_unique (hmem : a ∈ l) (ha : p a = true)
    (hunique : ∀ x ∈ l, p x = true → x = a) : l.find? p = some a := by
  obtain ⟨b, hb⟩ := Option.isSome_iff_exists.mp
    (List.find?_isSome.mpr ⟨a, hmem, ha⟩)
  rw [hb, hunique b (List.mem_of_find?_eq_some hb) (List.find?_some hb)]

theorem find?_erase_of_false [DecidableEq α] (ha : p a = false) :
    (l.erase a).find? p = l.find? p := by
  induction l with
  | nil => rfl
  | cons b l ih =>
      by_cases hba : b = a
      · subst hba
        rw [List.erase_cons_head, List.find?_cons_of_neg (by simp [ha])]
      · rw [List.erase_cons_tail (by simpa using hba), List.find?_cons,
          List.find?_cons, ih]

end Find

/-! ## The invariant -/

def Buf.lockCount {P D : Type*} (b : Buf P D) : ℕ :=
  if b.lock.isSome then 1 else 0

/-- What holds in every state of the cache. -/
structure Inv {P D : Type*} [Fintype P] (s : State P D) : Prop where
  refcnt_eq : ∀ i, (s.buf i).refcnt =
    (waiters s.call i).card + (s.buf i).lockCount
  lock_of_loading : ∀ p i, s.call p = .loading i → (s.buf i).lock = some p
  valid_of_lock : ∀ p i, (s.buf i).lock = some p → s.call p ≠ .loading i →
    (s.buf i).valid = true
  valid_of_dirty : ∀ i, (s.buf i).dirty = true → (s.buf i).valid = true
  nodup_lru : s.lru.Nodup
  mem_lru : ∀ i, i ∈ s.lru
  /-- `bget` finds a used buffer before any other one of the same name. -/
  cached_eq : ∀ i, (s.buf i).used → s.cached (s.buf i).id = some i
  dev_lt : ∀ i, (s.buf i).id.dev < 2
  blockno_lt : ∀ i, (s.buf i).valid = true → (s.buf i).id.blockno < FSSIZE

section Preservation

variable {P D : Type*} [Fintype P] {s t : State P D}

theorem binit_inv (zero : D) (disk : ℕ × ℕ → D) :
    Inv (binit zero disk : State P D) where
  refcnt_eq i := by
    have : waiters (P := P) (fun _ => Call.idle) i = ∅ := by
      ext p
      simp [mem_waiters, Call.waits]
    simp [binit, this, Buf.lockCount]
  lock_of_loading p i h := by simp [binit] at h
  valid_of_lock p i h := by simp [binit] at h
  valid_of_dirty i h := by simp [binit] at h
  nodup_lru := by simpa [binit] using List.nodup_finRange NBUF
  mem_lru i := by simp [binit]
  cached_eq i h := by simp [binit, Buf.used] at h
  dev_lt i := by simp [binit]
  blockno_lt i h := by simp [binit] at h

theorem Inv.used_of_lock (h : Inv s) {i : Fin NBUF} {p : P}
    (hl : (s.buf i).lock = some p) : (s.buf i).used := by
  left
  rw [h.refcnt_eq i]
  simp [Buf.lockCount, hl]

theorem Inv.used_of_waits (h : Inv s) {i : Fin NBUF} {p : P}
    (hw : (s.call p).waits i = true) : (s.buf i).used := by
  left
  rw [h.refcnt_eq i]
  have hpos := Finset.card_pos.mpr ⟨p, mem_waiters.mpr hw⟩
  omega

/-- No two used buffers have the same name. -/
theorem Inv.eq_of_id_eq (h : Inv s) {i j : Fin NBUF} (hi : (s.buf i).used)
    (hj : (s.buf j).used) (hid : (s.buf i).id = (s.buf j).id) : i = j := by
  have hci := h.cached_eq i hi
  rw [hid, h.cached_eq j hj] at hci
  exact (Option.some.inj hci).symm

variable [DecidableEq P]

/-- The common shape of the steps: one buffer and the call of one process
change.  Every hypothesis is the part of the invariant that speaks of
them. -/
theorem Inv.of_update (h : Inv s) {p : P} {i : Fin NBUF} {b : Buf P D}
    {c : Call} (hbuf : t.buf = Function.update s.buf i b)
    (hcall : t.call = Function.update s.call p c)
    (hcount : b.refcnt + ((s.call p).waits i).toNat + (s.buf i).lockCount =
      (s.buf i).refcnt + (c.waits i).toNat + b.lockCount)
    (hother : ∀ j, j ≠ i → (s.call p).waits j = false ∧ c.waits j = false ∧
      s.call p ≠ .loading j ∧ c ≠ .loading j)
    (hloading : c = .loading i → b.lock = some p)
    (hlock : ∀ q, q ≠ p → s.call q = .loading i →
      (s.buf i).lock = some q → b.lock = some q)
    (hvalid : ∀ q, b.lock = some q → t.call q ≠ .loading i → b.valid = true)
    (hdirty : b.dirty = true → b.valid = true)
    (hnodup : t.lru.Nodup) (hmem : ∀ j, j ∈ t.lru)
    (hcached : ∀ j, (t.buf j).used → t.cached (t.buf j).id = some j)
    (hdev : b.id.dev < 2) (hblockno : b.valid = true → b.id.blockno < FSSIZE) :
    Inv t where
  refcnt_eq j := by
    have hcard := card_waiters_update s.call p c j
    have hj := h.refcnt_eq j
    rw [← hcall] at hcard
    by_cases hji : j = i
    · subst hji
      rw [hbuf, Function.update_self]
      omega
    · obtain ⟨hw, hw', -, -⟩ := hother j hji
      rw [hw, hw'] at hcard
      rw [hbuf, Function.update_of_ne hji, hj]
      omega
  lock_of_loading q j hq := by
    rw [hcall] at hq
    by_cases hqp : q = p
    · subst hqp
      rw [Function.update_self] at hq
      by_cases hji : j = i
      · subst hji
        rw [hbuf, Function.update_self]
        exact hloading hq
      · exact absurd hq (hother j hji).2.2.2
    · rw [Function.update_of_ne hqp] at hq
      have hl := h.lock_of_loading q j hq
      by_cases hji : j = i
      · subst hji
        rw [hbuf, Function.update_self]
        exact hlock q hqp hq hl
      · rwa [hbuf, Function.update_of_ne hji]
  valid_of_lock q j hl hq := by
    by_cases hji : j = i
    · subst hji
      rw [hbuf, Function.update_self] at hl ⊢
      exact hvalid q hl hq
    · rw [hbuf, Function.update_of_ne hji] at hl ⊢
      refine h.valid_of_lock q j hl ?_
      rw [hcall] at hq
      by_cases hqp : q = p
      · subst hqp
        exact (hother j hji).2.2.1
      · rwa [Function.update_of_ne hqp] at hq
  valid_of_dirty j hj := by
    by_cases hji : j = i
    · subst hji
      rw [hbuf, Function.update_self] at hj ⊢
      exact hdirty hj
    · rw [hbuf, Function.update_of_ne hji] at hj ⊢
      exact h.valid_of_dirty j hj
  nodup_lru := hnodup
  mem_lru := hmem
  cached_eq := hcached
  dev_lt j := by
    by_cases hji : j = i
    · subst hji
      rwa [hbuf, Function.update_self]
    · rw [hbuf, Function.update_of_ne hji]
      exact h.dev_lt j
  blockno_lt j hj := by
    by_cases hji : j = i
    · subst hji
      rw [hbuf, Function.update_self] at hj ⊢
      exact hblockno hj
    · rw [hbuf, Function.update_of_ne hji] at hj ⊢
      exact h.blockno_lt j hj

omit [Fintype P] [DecidableEq P] in
theorem cached_congr (hlru : t.lru = s.lru)
    (hid : ∀ i, (t.buf i).id = (s.buf i).id) (id : BlockId) :
    t.cached id = s.cached id := by
  simp only [State.cached, hlru, hid]

omit [Fintype P] [DecidableEq P] in
theorem id_of_cached {id : BlockId} {i : Fin NBUF}
    (h : s.cached id = some i) : (s.buf i).id = id := by
  simpa using List.find?_some h

/-- The steps after which every buffer has the name it had. -/
theorem Inv.of_update_same_id (h : Inv s) {p : P} {i : Fin NBUF}
    {b : Buf P D} {c : Call} (hbuf : t.buf = Function.update s.buf i b)
    (hcall : t.call = Function.update s.call p c) (hlru : t.lru = s.lru)
    (hid : b.id = (s.buf i).id)
    (hcount : b.refcnt + ((s.call p).waits i).toNat + (s.buf i).lockCount =
      (s.buf i).refcnt + (c.waits i).toNat + b.lockCount)
    (hother : ∀ j, j ≠ i → (s.call p).waits j = false ∧ c.waits j = false ∧
      s.call p ≠ .loading j ∧ c ≠ .loading j)
    (hloading : c = .loading i → b.lock = some p)
    (hlock : ∀ q, q ≠ p → s.call q = .loading i →
      (s.buf i).lock = some q → b.lock = some q)
    (hvalid : ∀ q, b.lock = some q → t.call q ≠ .loading i → b.valid = true)
    (hdirty : b.dirty = true → b.valid = true)
    (hused : b.used → s.cached (s.buf i).id = some i)
    (hblockno : b.valid = true → b.id.blockno < FSSIZE) : Inv t := by
  have hid' : ∀ j, (t.buf j).id = (s.buf j).id := by
    intro j
    by_cases hji : j = i
    · subst hji
      rw [hbuf, Function.update_self, hid]
    · rw [hbuf, Function.update_of_ne hji]
  refine h.of_update hbuf hcall hcount hother hloading hlock hvalid hdirty
    (hlru ▸ h.nodup_lru) (hlru ▸ h.mem_lru) ?_ (hid ▸ h.dev_lt i) hblockno
  intro j hj
  rw [cached_congr hlru hid', hid']
  by_cases hji : j = i
  · subst hji
    rw [hbuf, Function.update_self] at hj
    exact hused hj
  · rw [hbuf, Function.update_of_ne hji] at hj
    exact h.cached_eq j hj

theorem Inv.bread (h : Inv s) {p : P} {id : BlockId} (hdev : id.dev < 2)
    (ht : step s (.bread p id) = .next t) : Inv t := by
  simp only [step] at ht
  split_ifs at ht with hp
  unfold State.bget at ht
  split at ht
  · next i hi =>
      cases ht
      have hid := id_of_cached hi
      refine h.of_update_same_id (p := p) (c := .locking i) rfl rfl rfl rfl
        ?_ ?_ (by simp) (fun _ _ _ hl => hl) ?_ (h.valid_of_dirty i) ?_
        (h.blockno_lt i)
      · simp [hp, Call.waits, Buf.lockCount]
      · intro j hj
        simp [hp, Call.waits, Ne.symm hj]
      · intro q hl hq
        refine h.valid_of_lock q i hl ?_
        intro e
        by_cases hqp : q = p
        · subst hqp
          simp [hp] at e
        · simp [State.setCall, Function.update_of_ne hqp, e,
            State.setBuf] at hq
      · intro _
        rw [hid]
        exact hi
  · next hmiss =>
      split at ht
      · next i hi =>
          cases ht
          obtain ⟨href, hdirty⟩ : (s.buf i).refcnt = 0 ∧
              (s.buf i).dirty = false := by
            simpa using List.find?_some hi
          have hcount := h.refcnt_eq i
          have hmiss' : ∀ j, (s.buf j).id ≠ id := by
            intro j
            simpa using List.find?_eq_none.mp hmiss j (h.mem_lru j)
          have hlock : (s.buf i).lock = none := by
            by_contra hl
            obtain ⟨q, hq⟩ := Option.ne_none_iff_exists'.mp hl
            simp only [href, Buf.lockCount, hq, Option.isSome_some,
              if_true] at hcount
            omega
          refine h.of_update (p := p) (i := i) (c := .locking i) rfl rfl
            ?_ ?_ (by simp) ?_ (by simp [hlock]) (by simp) h.nodup_lru
            h.mem_lru ?_ hdev (by simp)
          · simp [hp, Call.waits, Buf.lockCount, href]
          · intro j hj
            simp [hp, Call.waits, Ne.symm hj]
          · simp [hlock]
          · intro j hj
            by_cases hji : j = i
            · subst hji
              refine find?_of_unique (h.mem_lru j) (by simp) ?_
              intro x _ hx
              by_contra hxj
              exact hmiss' x
                (by simpa [State.setCall, State.setBuf, hxj] using hx)
            · have hj' : (s.buf j).used := by
                simpa [State.setCall, State.setBuf, hji] using hj
              refine find?_of_imp (h.cached_eq j hj') ?_ (by simp)
              intro x _ hx
              by_cases hxi : x = i
              · subst hxi
                simp only [State.setCall, State.setBuf, decide_eq_true_eq,
                  Function.update_self, Function.update_of_ne hji] at hx
                exact absurd hx.symm (hmiss' j)
              · simpa [State.setCall, State.setBuf, hxi, hji] using hx
      · cases ht

theorem Inv.acquiresleep (h : Inv s) {p : P}
    (ht : step s (.acquiresleep p) = .next t) : Inv t := by
  simp only [step] at ht
  split at ht
  · next i hp =>
      split_ifs at ht with hl
      cases ht
      refine h.of_update_same_id (p := p) (c := .loading i) rfl rfl rfl rfl
        ?_ ?_ (fun _ => rfl) (by simp [hl]) ?_ (h.valid_of_dirty i) ?_
        (h.blockno_lt i)
      · simp [hp, Call.waits, Buf.lockCount, hl]
      · intro j hj
        simp [hp, Call.waits, Ne.symm hj]
      · intro q hq hcall
        obtain rfl : p = q := by simpa using hq
        simp [State.setCall] at hcall
      · intro _
        exact h.cached_eq i (h.used_of_waits (p := p) (by simp [hp, Call.waits]))
  · cases ht

omit [Fintype P] in
/-- A step that leaves the calls alone, in the form of `Inv.of_update`. -/
theorem call_eq_update {p : P} (hp : s.call p = .idle) :
    s.call = Function.update s.call p .idle := by
  rw [← hp, Function.update_eq_self]

omit [Fintype P] [DecidableEq P] in
/-- What a served request does. -/
theorem iderw_eq_next {i : Fin NBUF} (ht : s.iderw i = .next t) :
    (s.buf i).id.blockno < FSSIZE ∧
      ((s.buf i).dirty = true ∧
          t = { s.setBuf i { s.buf i with valid := true, dirty := false } with
            disk := Function.update s.disk (s.buf i).id.sector
              (s.buf i).data } ∨
        (s.buf i).dirty = false ∧ (s.buf i).valid = false ∧
          t = s.setBuf i
            { s.buf i with
              valid := true, data := s.disk (s.buf i).id.sector }) := by
  simp only [State.iderw] at ht
  split_ifs at ht with hl hclean hblockno hdirty
  · exact ⟨by omega, .inl ⟨hdirty, (Outcome.next.inj ht).symm⟩⟩
  · have hdirty : (s.buf i).dirty = false := by simpa using hdirty
    refine ⟨by omega, .inr ⟨hdirty, ?_, (Outcome.next.inj ht).symm⟩⟩
    simpa [hdirty] using hclean

theorem Inv.load (h : Inv s) {p : P} (ht : step s (.load p) = .next t) :
    Inv t := by
  simp only [step] at ht
  split at ht
  · next i hp =>
      have hl := h.lock_of_loading p i hp
      have hother : ∀ j, j ≠ i → (s.call p).waits j = false ∧
          Call.idle.waits j = false ∧ s.call p ≠ .loading j ∧
          Call.idle ≠ .loading j := by
        intro j hj
        simp [hp, Call.waits, Ne.symm hj]
      split_ifs at ht with hvalid
      · cases ht
        refine h.of_update_same_id (p := p) (i := i) (b := s.buf i)
          (c := .idle) (Function.update_eq_self ..).symm rfl rfl rfl ?_ hother
          (by simp) (fun _ _ _ hl => hl) (fun _ _ _ => hvalid)
          (h.valid_of_dirty i) (fun _ => h.cached_eq i (h.used_of_lock hl))
          (h.blockno_lt i)
        simp [hp, Call.waits]
      · obtain ⟨u, hu, rfl⟩ := Outcome.map_eq_next ht
        obtain ⟨hblockno, ⟨hdirty, rfl⟩ | ⟨hdirty, -, rfl⟩⟩ :=
          iderw_eq_next hu
        · exact absurd (h.valid_of_dirty i hdirty) hvalid
        · refine h.of_update_same_id (p := p) (i := i) (c := .idle) rfl rfl
            rfl rfl ?_ hother (by simp) (fun _ _ _ hl => hl)
            (fun _ _ _ => rfl) (fun _ => rfl)
            (fun _ => h.cached_eq i (h.used_of_lock hl)) (fun _ => hblockno)
          simp [hp, Call.waits, Buf.lockCount]
  · cases ht

/-- A change of the data and the flags of a buffer that `p` holds. -/
theorem Inv.of_holds (h : Inv s) {p : P} {i : Fin NBUF} {b : Buf P D}
    (hp : s.holds p i) (hid : b.id = (s.buf i).id)
    (href : b.refcnt = (s.buf i).refcnt) (hlock : b.lock = (s.buf i).lock)
    (hvalid : b.valid = true) (hbuf : t.buf = Function.update s.buf i b)
    (hcall : t.call = s.call) (hlru : t.lru = s.lru) : Inv t := by
  have hblockno := h.blockno_lt i
    (h.valid_of_lock p i hp.2 (by simp [hp.1]))
  refine h.of_update_same_id (p := p) (c := .idle) hbuf
    (hcall.trans (call_eq_update hp.1)) hlru hid ?_ ?_ (by simp)
    (fun _ _ _ hl => hlock ▸ hl) (fun _ _ _ => hvalid) (fun _ => hvalid)
    (fun _ => h.cached_eq i (h.used_of_lock hp.2)) (fun _ => hid ▸ hblockno)
  · simp [hp.1, Call.waits, Buf.lockCount, hlock, href]
  · intro j _
    simp [hp.1, Call.waits]

omit [DecidableEq P] in
theorem Inv.valid_of_holds (h : Inv s) {p : P} {i : Fin NBUF}
    (hp : s.holds p i) : (s.buf i).valid = true :=
  h.valid_of_lock p i hp.2 (by simp [hp.1])

omit [Fintype P] [DecidableEq P] in
/-- `bwrite` writes the buffer out. -/
theorem bwrite_eq_next {i : Fin NBUF} (ht : s.bwrite i = .next t) :
    t.buf = Function.update s.buf i
        { s.buf i with valid := true, dirty := false } ∧
      t.disk = Function.update s.disk (s.buf i).id.sector (s.buf i).data ∧
      t.call = s.call ∧ t.lru = s.lru := by
  unfold State.bwrite at ht
  split_ifs at ht
  obtain ⟨-, ⟨-, rfl⟩ | ⟨hd, -, -⟩⟩ := iderw_eq_next ht
  · simp [State.setBuf]
  · simp [State.setBuf] at hd

theorem Inv.brelse (h : Inv s) {p : P} {i : Fin NBUF}
    (ht : step s (.brelse p i) = .next t) : Inv t := by
  simp only [step] at ht
  split_ifs at ht with hp
  cases ht
  have hused := h.used_of_lock hp.2
  have hvalid := h.valid_of_holds hp
  refine h.of_update_same_id (p := p) (i := i) (c := .releasing i) rfl rfl
    rfl rfl ?_ ?_ (by simp) ?_ (by simp) (h.valid_of_dirty i)
    (fun _ => h.cached_eq i hused) (h.blockno_lt i)
  · simp [hp.1, hp.2, Call.waits, Buf.lockCount]
  · intro j hj
    simp [hp.1, Call.waits, Ne.symm hj]
  · intro q hqp _ hl
    exact absurd (Option.some.inj (hl.symm.trans hp.2)) hqp

theorem Inv.release (h : Inv s) {p : P}
    (ht : step s (.release p) = .next t) : Inv t := by
  simp only [step] at ht
  split at ht
  · next i hp =>
      cases ht
      have hwaits : (s.call p).waits i = true := by simp [hp, Call.waits]
      have hused := h.used_of_waits hwaits
      have hcount := h.refcnt_eq i
      have hpos := Finset.card_pos.mpr ⟨p, mem_waiters.mpr hwaits⟩
      have hid : ∀ j, (((s.release i).setCall p .idle).buf j).id =
          (s.buf j).id := by
        intro j
        by_cases hji : j = i
        · subst hji
          simp [State.setCall, State.release, State.setBuf]
        · simp [State.setCall, State.release, State.setBuf, hji]
      have hused' : ∀ j, (((s.release i).setCall p .idle).buf j).used →
          (s.buf j).used := by
        intro j hj
        by_cases hji : j = i
        · exact hji ▸ hused
        · simpa [State.setCall, State.release, State.setBuf, hji] using hj
      refine h.of_update (p := p) (i := i) (c := .idle) rfl rfl ?_ ?_
        (by simp) (fun _ _ _ hl => hl) ?_ (h.valid_of_dirty i) ?_ ?_ ?_
        (h.dev_lt i) (h.blockno_lt i)
      · rw [hwaits]
        simp only [Call.waits, Buf.lockCount, Bool.toNat_true] at hcount ⊢
        simp
        omega
      · intro j hj
        simp [hp, Call.waits, Ne.symm hj]
      · intro q hl hq
        refine h.valid_of_lock q i hl ?_
        intro e
        by_cases hqp : q = p
        · subst hqp
          simp [hp] at e
        · simp [State.setCall, State.release, State.setBuf, hqp, e] at hq
      · simp only [State.setCall, State.release]
        split_ifs
        · exact List.nodup_cons.mpr
            ⟨h.nodup_lru.not_mem_erase, h.nodup_lru.erase i⟩
        · exact h.nodup_lru
      · intro j
        simp only [State.setCall, State.release]
        split_ifs
        · by_cases hji : j = i
          · simp [hji]
          · exact List.mem_cons_of_mem _
              ((List.mem_erase_of_ne hji).mpr (h.mem_lru j))
        · exact h.mem_lru j
      · intro j hj
        have hj := hused' j hj
        have hfound := h.cached_eq j hj
        rw [hid j]
        simp only [State.cached, hid]
        simp only [State.setCall, State.release]
        split_ifs
        · -- The buffer moves to the front, where it hides no other one.
          by_cases hij : (s.buf i).id = (s.buf j).id
          · obtain rfl := h.eq_of_id_eq hused hj hij
            simp
          · rw [List.find?_cons_of_neg (by simpa using hij),
              find?_erase_of_false (by simpa using hij)]
            exact hfound
        · exact hfound
  · cases ht

/-- Every step keeps the invariant, if the blocks asked for are on one of the
two disks. -/
theorem Inv.step (h : Inv s) {a : Act P D}
    (hdev : ∀ p id, a = .bread p id → id.dev < 2)
    (ht : step s a = .next t) : Inv t := by
  cases a with
  | bread p id => exact h.bread (hdev p id rfl) ht
  | acquiresleep p => exact h.acquiresleep ht
  | load p => exact h.load ht
  | modify p i data =>
      simp only [Cache.step] at ht
      split_ifs at ht with hp
      cases ht
      exact h.of_holds (b := { s.buf i with data := data }) hp rfl rfl rfl
        (h.valid_of_holds hp) rfl rfl rfl
  | pin p i =>
      simp only [Cache.step] at ht
      split_ifs at ht with hp
      cases ht
      exact h.of_holds (b := { s.buf i with dirty := true }) hp rfl rfl rfl
        (h.valid_of_holds hp) rfl rfl rfl
  | bwrite p i =>
      simp only [Cache.step] at ht
      split_ifs at ht with hp
      obtain ⟨hbuf, -, hcall, hlru⟩ := bwrite_eq_next ht
      exact h.of_holds hp (b := { s.buf i with valid := true, dirty := false })
        rfl rfl rfl rfl hbuf hcall hlru
  | brelse p i => exact h.brelse ht
  | release p => exact h.release ht

end Preservation

/-! ## What a step leaves alone -/

/-- The process that makes a step. -/
def Act.actor {P D : Type*} : Act P D → P
  | .bread p _ | .acquiresleep p | .load p | .modify p _ _ | .pin p _
  | .bwrite p _ | .brelse p _ | .release p => p

section Frame

variable {P D : Type*} [DecidableEq P] {s t : State P D} {a : Act P D}

/-- A step changes one buffer and the call of its process. -/
theorem step_shape (ht : step s a = .next t) :
    ∃ i b c, t.buf = Function.update s.buf i b ∧
      t.call = Function.update s.call a.actor c ∧
      (b.id = (s.buf i).id ∨ (s.buf i).refcnt = 0) ∧
      (b.lock = (s.buf i).lock ∨
        a = .acquiresleep a.actor ∧ s.call a.actor = .locking i ∧
          (s.buf i).lock = none ∧ b.lock = some a.actor ∨
        a = .brelse a.actor i ∧ (s.buf i).lock = some a.actor) ∧
      (b.data = (s.buf i).data ∨ s.call a.actor = .loading i ∨
        (s.buf i).lock = some a.actor) := by
  have hsame : ∀ {p}, s.call p = .idle →
      s.call = Function.update s.call p .idle := by
    intro p hp
    rw [← hp, Function.update_eq_self]
  cases a with
  | bread p id =>
      simp only [step] at ht
      split_ifs at ht
      unfold State.bget at ht
      split at ht
      · next i _ =>
          cases ht
          exact ⟨i, _, _, rfl, rfl, .inl rfl, .inl rfl, .inl rfl⟩
      · split at ht
        · next i hi =>
            cases ht
            have href : (s.buf i).refcnt = 0 := by
              have := List.find?_some hi
              simp only [Bool.and_eq_true, decide_eq_true_eq] at this
              exact this.1
            exact ⟨i, _, _, rfl, rfl, .inr href, .inl rfl, .inl rfl⟩
        · cases ht
  | acquiresleep p =>
      simp only [step] at ht
      split at ht
      · next i hp =>
          split_ifs at ht with hl
          cases ht
          exact ⟨i, _, _, rfl, rfl, .inl rfl, .inr (.inl ⟨rfl, hp, hl, rfl⟩),
            .inl rfl⟩
      · cases ht
  | load p =>
      simp only [step] at ht
      split at ht
      · next i hp =>
          split_ifs at ht
          · cases ht
            exact ⟨i, s.buf i, _, (Function.update_eq_self ..).symm, rfl,
              .inl rfl, .inl rfl, .inl rfl⟩
          · obtain ⟨u, hu, rfl⟩ := Outcome.map_eq_next ht
            obtain ⟨-, ⟨-, rfl⟩ | ⟨-, -, rfl⟩⟩ := iderw_eq_next hu
            · exact ⟨i, _, _, rfl, rfl, .inl rfl, .inl rfl, .inl rfl⟩
            · exact ⟨i, _, _, rfl, rfl, .inl rfl, .inl rfl, .inr (.inl hp)⟩
      · cases ht
  | modify p i data =>
      simp only [step] at ht
      split_ifs at ht with hp
      cases ht
      exact ⟨i, _, _, rfl, hsame hp.1, .inl rfl, .inl rfl,
        .inr (.inr hp.2)⟩
  | pin p i =>
      simp only [step] at ht
      split_ifs at ht with hp
      cases ht
      exact ⟨i, _, _, rfl, hsame hp.1, .inl rfl, .inl rfl, .inl rfl⟩
  | bwrite p i =>
      simp only [step] at ht
      split_ifs at ht with hp
      obtain ⟨hbuf, -, hcall, -⟩ := bwrite_eq_next ht
      exact ⟨i, _, _, hbuf, hcall.trans (hsame hp.1), .inl rfl, .inl rfl,
        .inl rfl⟩
  | brelse p i =>
      simp only [step] at ht
      split_ifs at ht with hp
      cases ht
      exact ⟨i, _, _, rfl, rfl, .inl rfl, .inr (.inr ⟨rfl, hp.2⟩),
        .inl rfl⟩
  | release p =>
      simp only [step] at ht
      split at ht
      · next i _ =>
          cases ht
          exact ⟨i, _, _, rfl, rfl, .inl rfl, .inl rfl, .inl rfl⟩
      · cases ht

theorem step_call (ht : step s a = .next t) {p : P} (hp : p ≠ a.actor) :
    t.call p = s.call p := by
  obtain ⟨i, b, c, -, hcall, -⟩ := step_shape ht
  rw [hcall, Function.update_of_ne hp]

/-- A referenced buffer keeps its name. -/
theorem step_id (ht : step s a = .next t) {j : Fin NBUF}
    (hj : (s.buf j).refcnt ≠ 0) : (t.buf j).id = (s.buf j).id := by
  obtain ⟨i, b, c, hbuf, -, hid, -⟩ := step_shape ht
  rw [hbuf]
  by_cases hji : j = i
  · subst hji
    rw [Function.update_self]
    exact hid.resolve_right hj
  · rw [Function.update_of_ne hji]

/-- A lock is given up by its holder's `brelse` only. -/
theorem step_lock (ht : step s a = .next t) {j : Fin NBUF} {p : P}
    (hj : (s.buf j).lock = some p) :
    (t.buf j).lock = some p ∨ a = .brelse p j := by
  obtain ⟨i, b, c, hbuf, -, -, hlock, -⟩ := step_shape ht
  rw [hbuf]
  by_cases hji : j = i
  · subst hji
    rw [Function.update_self]
    rcases hlock with hlock | ⟨-, -, hlock, -⟩ | ⟨ha, hlock⟩
    · exact .inl (hlock.trans hj)
    · simp [hj] at hlock
    · right
      rw [hj] at hlock
      rw [Option.some.inj hlock]
      exact ha
  · rw [Function.update_of_ne hji]
    exact .inl hj

/-- A lock is taken by a process that waits for it. -/
theorem lock_of_step (ht : step s a = .next t) {j : Fin NBUF} {p : P}
    (hj : (t.buf j).lock = some p) : (s.buf j).lock = some p ∨
      a = .acquiresleep p ∧ s.call p = .locking j ∧
        (s.buf j).lock = none := by
  cases a with
  | brelse q i =>
      simp only [step] at ht
      split_ifs at ht
      cases ht
      by_cases hji : j = i
      · subst hji
        simp [State.setCall, State.setBuf] at hj
      · left
        simpa [State.setCall, State.setBuf, hji] using hj
  | _ =>
      obtain ⟨i, b, c, hbuf, -, -, hlock, -⟩ := step_shape ht
      rw [hbuf] at hj
      by_cases hji : j = i
      · subst hji
        rw [Function.update_self] at hj
        rcases hlock with hlock | ⟨ha, hcall, hfree, hlock⟩ | ⟨ha, -⟩
        · exact .inl (hlock ▸ hj)
        · rw [hj] at hlock
          rw [← Option.some.inj hlock] at ha hcall
          exact .inr ⟨ha, hcall, hfree⟩
        · cases ha
      · rw [Function.update_of_ne hji] at hj
        exact .inl hj

/-- The contents of a locked buffer are changed by the holder only. -/
theorem step_data [Fintype P] (h : Inv s) (ht : step s a = .next t)
    {j : Fin NBUF} {p : P} (hj : (s.buf j).lock = some p)
    (hp : p ≠ a.actor) : (t.buf j).data = (s.buf j).data := by
  obtain ⟨i, b, c, hbuf, -, -, -, hdata⟩ := step_shape ht
  rw [hbuf]
  by_cases hji : j = i
  · subst hji
    rw [Function.update_self]
    rcases hdata with hdata | hload | hlock
    · exact hdata
    · have := h.lock_of_loading _ _ hload
      rw [hj] at this
      exact absurd (Option.some.inj this) hp
    · rw [hj] at hlock
      exact absurd (Option.some.inj hlock) hp
  · rw [Function.update_of_ne hji]

/-- The buffer that `bget` picks has the name asked for. -/
theorem bread_locking {p : P} {id : BlockId}
    (ht : step s (.bread p id) = .next t) :
    ∃ i, t.call p = .locking i ∧ (t.buf i).id = id := by
  simp only [step] at ht
  split_ifs at ht
  unfold State.bget at ht
  split at ht
  · next i hi =>
      cases ht
      exact ⟨i, by simp [State.setCall],
        by simpa [State.setCall, State.setBuf] using id_of_cached hi⟩
  · split at ht
    · next i _ =>
        cases ht
        exact ⟨i, by simp [State.setCall],
          by simp [State.setCall, State.setBuf]⟩
    · cases ht

/-- A process on its way to a buffer has asked for it before. -/
theorem waiting_of_step (ht : step s a = .next t) {p : P} {i : Fin NBUF}
    (hp : t.call p = .locking i ∨ t.call p = .loading i) :
    a = .bread p (t.buf i).id ∨
      (s.call p = .locking i ∨ s.call p = .loading i) ∧
        ∀ id, a ≠ .bread p id := by
  by_cases hactor : p = a.actor
  · cases a with
    | bread q id =>
        obtain rfl : p = q := hactor
        obtain ⟨j, hj, hid⟩ := bread_locking ht
        obtain rfl : i = j := by
          rcases hp with hp | hp
          · simpa [hp] using hj
          · simp [hp] at hj
        exact .inl (hid ▸ rfl)
    | acquiresleep q =>
        obtain rfl : p = q := hactor
        simp only [step] at ht
        split at ht
        · next j hj =>
            split_ifs at ht
            cases ht
            obtain rfl : i = j := by simpa [State.setCall, eq_comm] using hp
            exact .inr ⟨.inl hj, by simp⟩
        · cases ht
    | load q =>
        obtain rfl : p = q := hactor
        have hidle : t.call p = .idle := by
          simp only [step] at ht
          split at ht
          · split_ifs at ht
            · cases ht
              simp [State.setCall]
            · obtain ⟨u, -, rfl⟩ := Outcome.map_eq_next ht
              simp [State.setCall]
          · cases ht
        simp [hidle] at hp
    | modify q j data =>
        obtain rfl : p = q := hactor
        simp only [step] at ht
        split_ifs at ht with hq
        cases ht
        simp [State.setBuf, hq.1] at hp
    | pin q j =>
        obtain rfl : p = q := hactor
        simp only [step] at ht
        split_ifs at ht with hq
        cases ht
        simp [State.setBuf, hq.1] at hp
    | bwrite q j =>
        obtain rfl : p = q := hactor
        simp only [step] at ht
        split_ifs at ht with hq
        simp [(bwrite_eq_next ht).2.2.1, hq.1] at hp
    | brelse q j =>
        obtain rfl : p = q := hactor
        simp only [step] at ht
        split_ifs at ht with hq
        cases ht
        simp [State.setCall] at hp
    | release q =>
        obtain rfl : p = q := hactor
        simp only [step] at ht
        split at ht
        · cases ht
          simp [State.setCall] at hp
        · cases ht
  · rw [step_call ht hactor] at hp
    refine .inr ⟨hp, ?_⟩
    rintro id rfl
    exact hactor rfl

theorem acquiresleep_lock {p : P} {i : Fin NBUF}
    (ht : step s (.acquiresleep p) = .next t) (hp : s.call p = .locking i) :
    (s.buf i).lock = none ∧ (t.buf i).lock = some p := by
  simp only [step, hp] at ht
  split_ifs at ht with hl
  cases ht
  exact ⟨hl, by simp [State.setCall, State.setBuf]⟩

/-- A dirty buffer has been pinned and not been written since, and it keeps
its name. -/
theorem dirty_of_step [Fintype P] (h : Inv s) (ht : step s a = .next t)
    {j : Fin NBUF} (hj : (t.buf j).dirty = true) :
    (t.buf j).id = (s.buf j).id ∧
      ((s.buf j).dirty = true ∧ (∀ p, a ≠ .bwrite p j) ∨
        ∃ p, a = .pin p j) := by
  -- A step that leaves the flag of its buffer `i` alone.
  have hsame : ∀ {i : Fin NBUF} {b : Buf P D},
      (Function.update s.buf i b j).dirty = true → b.id = (s.buf i).id →
      b.dirty = (s.buf i).dirty →
      (Function.update s.buf i b j).id = (s.buf j).id ∧
        (s.buf j).dirty = true := by
    intro i b hb hid hdirty
    by_cases hji : j = i
    · subst hji
      rw [Function.update_self] at hb ⊢
      exact ⟨hid, hdirty ▸ hb⟩
    · rw [Function.update_of_ne hji] at hb ⊢
      exact ⟨rfl, hb⟩
  cases a with
  | bread p id =>
      simp only [step] at ht
      split_ifs at ht
      unfold State.bget at ht
      split at ht
      · cases ht
        exact (hsame hj rfl rfl).imp_right fun hd => .inl ⟨hd, by simp⟩
      · split at ht <;> cases ht
        next i _ =>
          by_cases hji : j = i
          · subst hji
            simp [State.setCall, State.setBuf] at hj
          · simp only [State.setCall, State.setBuf,
              Function.update_of_ne hji] at hj ⊢
            exact ⟨trivial, .inl ⟨hj, by simp⟩⟩
  | acquiresleep p =>
      simp only [step] at ht
      split at ht
      · split_ifs at ht
        cases ht
        exact (hsame hj rfl rfl).imp_right fun hd => .inl ⟨hd, by simp⟩
      · cases ht
  | load p =>
      simp only [step] at ht
      split at ht
      · next i hp =>
          split_ifs at ht with hvalid
          · cases ht
            exact ⟨rfl, .inl ⟨hj, by simp⟩⟩
          · obtain ⟨u, hu, rfl⟩ := Outcome.map_eq_next ht
            obtain ⟨-, ⟨hd, -⟩ | ⟨-, -, rfl⟩⟩ := iderw_eq_next hu
            · exact absurd (h.valid_of_dirty i hd) hvalid
            · exact (hsame hj rfl rfl).imp_right fun hd => .inl ⟨hd, by simp⟩
      · cases ht
  | modify p i data =>
      simp only [step] at ht
      split_ifs at ht
      cases ht
      exact (hsame hj rfl rfl).imp_right fun hd => .inl ⟨hd, by simp⟩
  | pin p i =>
      simp only [step] at ht
      split_ifs at ht
      cases ht
      by_cases hji : j = i
      · subst hji
        exact ⟨by simp [State.setBuf], .inr ⟨p, rfl⟩⟩
      · simp only [State.setBuf, Function.update_of_ne hji] at hj ⊢
        exact ⟨trivial, .inl ⟨hj, by simp⟩⟩
  | bwrite p i =>
      simp only [step] at ht
      split_ifs at ht
      obtain ⟨hbuf, -⟩ := bwrite_eq_next ht
      rw [hbuf] at hj ⊢
      by_cases hji : j = i
      · subst hji
        simp at hj
      · rw [Function.update_of_ne hji] at hj ⊢
        exact ⟨rfl, .inl ⟨hj, by simpa using Ne.symm hji⟩⟩
  | brelse p i =>
      simp only [step] at ht
      split_ifs at ht
      cases ht
      exact (hsame hj rfl rfl).imp_right fun hd => .inl ⟨hd, by simp⟩
  | release p =>
      simp only [step] at ht
      split at ht
      · cases ht
        exact (hsame hj rfl rfl).imp_right fun hd => .inl ⟨hd, by simp⟩
      · cases ht

/-- Conversely, a dirty buffer stays what it is until it is written. -/
theorem step_dirty [Fintype P] (h : Inv s) (ht : step s a = .next t)
    {j : Fin NBUF} (hj : (s.buf j).dirty = true) :
    (t.buf j).dirty = true ∧ (t.buf j).id = (s.buf j).id ∨
      ∃ p, a = .bwrite p j := by
  have hsame : ∀ {i : Fin NBUF} {b : Buf P D}, b.id = (s.buf i).id →
      (j = i → b.dirty = true) →
      (Function.update s.buf i b j).dirty = true ∧
        (Function.update s.buf i b j).id = (s.buf j).id := by
    intro i b hid hdirty
    by_cases hji : j = i
    · subst hji
      rw [Function.update_self]
      exact ⟨hdirty rfl, hid⟩
    · rw [Function.update_of_ne hji]
      exact ⟨hj, rfl⟩
  cases a with
  | bread p id =>
      left
      simp only [step] at ht
      split_ifs at ht
      unfold State.bget at ht
      split at ht
      · cases ht
        exact hsame rfl fun e => e ▸ hj
      · split at ht <;> cases ht
        next i hi =>
          have hji : j ≠ i := by
            rintro rfl
            have := List.find?_some hi
            simp [hj] at this
          simpa only [State.setCall, State.setBuf,
            Function.update_of_ne hji] using ⟨hj, trivial⟩
  | acquiresleep p =>
      left
      simp only [step] at ht
      split at ht
      · split_ifs at ht
        cases ht
        exact hsame rfl fun e => e ▸ hj
      · cases ht
  | load p =>
      left
      simp only [step] at ht
      split at ht
      · next i hp =>
          split_ifs at ht with hvalid
          · cases ht
            exact ⟨hj, rfl⟩
          · obtain ⟨u, hu, rfl⟩ := Outcome.map_eq_next ht
            obtain ⟨-, ⟨hd, -⟩ | ⟨-, -, rfl⟩⟩ := iderw_eq_next hu
            · exact absurd (h.valid_of_dirty i hd) hvalid
            · exact hsame rfl fun e => e ▸ hj
      · cases ht
  | modify p i data =>
      left
      simp only [step] at ht
      split_ifs at ht
      cases ht
      exact hsame rfl fun e => e ▸ hj
  | pin p i =>
      left
      simp only [step] at ht
      split_ifs at ht
      cases ht
      exact hsame rfl fun _ => rfl
  | bwrite p i =>
      simp only [step] at ht
      split_ifs at ht
      obtain ⟨hbuf, -⟩ := bwrite_eq_next ht
      by_cases hji : j = i
      · exact .inr ⟨p, by rw [hji]⟩
      · left
        rw [hbuf, Function.update_of_ne hji]
        exact ⟨hj, rfl⟩
  | brelse p i =>
      left
      simp only [step] at ht
      split_ifs at ht
      cases ht
      exact hsame rfl fun e => e ▸ hj
  | release p =>
      left
      simp only [step] at ht
      split at ht
      · cases ht
        exact hsame rfl fun e => e ▸ hj
      · cases ht

/-- Only `bwrite` changes the disk. -/
theorem disk_of_step [Fintype P] (h : Inv s) (ht : step s a = .next t) :
    t.disk = s.disk ∧ (∀ p i, a ≠ .bwrite p i) ∨
      ∃ p i, a = .bwrite p i ∧ t.disk =
        Function.update s.disk (s.buf i).id.sector (s.buf i).data := by
  cases a with
  | bread p id =>
      simp only [step] at ht
      split_ifs at ht
      unfold State.bget at ht
      split at ht
      · cases ht
        exact .inl ⟨rfl, by simp⟩
      · split at ht <;> cases ht
        exact .inl ⟨rfl, by simp⟩
  | acquiresleep p =>
      simp only [step] at ht
      split at ht
      · split_ifs at ht
        cases ht
        exact .inl ⟨rfl, by simp⟩
      · cases ht
  | load p =>
      simp only [step] at ht
      split at ht
      · next i hp =>
          split_ifs at ht with hvalid
          · cases ht
            exact .inl ⟨rfl, by simp⟩
          · obtain ⟨u, hu, rfl⟩ := Outcome.map_eq_next ht
            obtain ⟨-, ⟨hd, -⟩ | ⟨-, -, rfl⟩⟩ := iderw_eq_next hu
            · exact absurd (h.valid_of_dirty i hd) hvalid
            · exact .inl ⟨rfl, by simp⟩
      · cases ht
  | modify p i data =>
      simp only [step] at ht
      split_ifs at ht
      cases ht
      exact .inl ⟨rfl, by simp⟩
  | pin p i =>
      simp only [step] at ht
      split_ifs at ht
      cases ht
      exact .inl ⟨rfl, by simp⟩
  | bwrite p i =>
      simp only [step] at ht
      split_ifs at ht
      exact .inr ⟨p, i, rfl, (bwrite_eq_next ht).2.1⟩
  | brelse p i =>
      simp only [step] at ht
      split_ifs at ht
      cases ht
      exact .inl ⟨rfl, by simp⟩
  | release p =>
      simp only [step] at ht
      split at ht
      · cases ht
        exact .inl ⟨rfl, by simp⟩
      · cases ht

end Frame

end ZtlOs.Cache
