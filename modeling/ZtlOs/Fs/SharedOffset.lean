import ZtlOs.Fs.Content
import ZtlOs.Support.Runs

/-!
# A file shared by several processes

`filewrite` and `fileread` of `file.c` on one `struct file` of a regular file,
with `writei` and `readi` of `fs.c`, for any number of processes `P`.

One step is what a process does between two points where another one can
interfere: the test of a loop, `begin_op`, the taking and the dropping of the
inode's lock, and, with the lock, the tests of `writei` and `readi`, the copying
of one block, the update of the size and that of `f->off`.  A process waits as
long as it likes before it goes on, so that what `begin_op` and `end_op` wait
for needs no state.  The content of the inode is given block by block; `bmap`
maps different indices to different blocks, and there are enough of them.
-/

namespace ZtlOs.Fs.SharedOffset

open ZtlOs.Support ZtlOs.Support.Sequence

abbrev Bytes := List (BitVec 8)

/-- The most bytes that `filewrite` writes at a time. -/
def maxWrite : ℕ := (LOGSIZE - 1 - 1 - 2) / 2 * 512

/-- The next `n1` bytes that `filewrite` is to write. -/
def piece (src : Bytes) (i : ℕ) : Bytes :=
  (src.drop i).take (min (src.length - i) maxWrite)

/-- Where a process is; `src` are the bytes it writes and `i` of them are
written, `pos` is the offset given to `writei` or `readi`. -/
inductive Pc where
  | idle
  /-- At the test of the loop of `filewrite`. -/
  | test (src : Bytes) (i : ℕ)
  /-- After `begin_op`. -/
  | ilock (src : Bytes) (i : ℕ)
  | writei (src : Bytes) (i : ℕ)
  /-- At the test of the loop of `writei`, with `tot` bytes copied. -/
  | copy (src : Bytes) (i pos tot : ℕ)
  /-- After the loop of `writei`. -/
  | extend (src : Bytes) (i pos : ℕ)
  /-- `writei` has returned `r`. -/
  | advance (src : Bytes) (i pos r : ℕ)
  | iunlock (src : Bytes) (i : ℕ) (r : Option ℕ)
  | endOp (src : Bytes) (i : ℕ) (r : Option ℕ)
  | readLock (n : ℕ)
  | readi (n : ℕ)
  /-- At the test of the loop of `readi`, with `dst` copied. -/
  | readCopy (n pos : ℕ) (dst : Bytes)
  /-- `readi` has returned. -/
  | readAdvance (pos : ℕ) (dst : Bytes)
  | readUnlock (r : Option Bytes)
  | readRet (r : Option Bytes)

/-- A call that has returned. -/
inductive Call where
  /-- The file is not open for it. -/
  | refused
  /-- `filewrite` has written the first `done` of the bytes `src`. -/
  | filewrite (src : Bytes) (done : ℕ)
  /-- `fileread` has read `r`, none for -1. -/
  | fileread (r : Option Bytes)

/-- What `filewrite` or `fileread` returns. -/
def Call.result : Call → ℤ
  | .refused => -1
  | .filewrite src done => if done = src.length then src.length else -1
  | .fileread r =>
      match r with
      | none => -1
      | some dst => dst.length

inductive Event (P : Type) where
  /-- The lock of the inode is taken. -/
  | ilock (p : P)
  /-- `f->off += r`, after these bytes have been written or read. -/
  | chunk (c : Chunk P (BitVec 8))
  | ret (p : P) (call : Call)

/-- `trace` has the newest event last. -/
structure State (P : Type) where
  readable : Bool
  writable : Bool
  off : ℕ
  size : ℕ
  /-- The blocks of the inode's content. -/
  block : ℕ → Block
  /-- Who holds the lock of the inode. -/
  lock : Option P
  pc : P → Pc
  trace : List (Event P)

inductive Act (P : Type) where
  | filewrite (p : P) (src : Bytes)
  | fileread (p : P) (n : ℕ)
  /-- The next step of a call. -/
  | run (p : P)

variable {P : Type} [DecidableEq P]

namespace State

def goto (s : State P) (p : P) (pc : Pc) : State P :=
  { s with pc := Function.update s.pc p pc }

omit [DecidableEq P] in
def emit (s : State P) (e : Event P) : State P :=
  { s with trace := s.trace ++ [e] }

def ret (s : State P) (p : P) (call : Call) : State P :=
  (s.emit (.ret p call)).goto p .idle

omit [DecidableEq P] in
/-- The bytes of the content. -/
def content (s : State P) : ℕ → BitVec 8 :=
  contentOf s.block

/-- One step of a process in `filewrite` or `fileread`. -/
def run (s : State P) (p : P) : Outcome (State P) :=
  match s.pc p with
  | .idle => .blocked
  | .test src i =>
      if i < src.length then .next (s.goto p (.ilock src i))
      else .next (s.ret p (.filewrite src i))
  | .ilock src i =>
      if s.lock.isSome then .blocked
      else
        .next ({ s.emit (.ilock p) with lock := some p }.goto p (.writei src i))
  | .writei src i =>
      let n := (piece src i).length
      if s.size < s.off ∨ 2 ^ 32 ≤ s.off + n then
        .next (s.goto p (.iunlock src i none))
      else if MAXFILE * BSIZE < s.off + n then
        .next (s.goto p (.iunlock src i none))
      else .next (s.goto p (.copy src i s.off 0))
  | .copy src i pos tot =>
      let n := (piece src i).length
      let off := pos + tot
      if tot < n then
        let m := min (n - tot) (BSIZE - off % BSIZE)
        .next ({ s with
          block := Function.update s.block (off / BSIZE)
            ((s.block (off / BSIZE)).put (off % BSIZE)
              (((piece src i).drop tot).take m)) }.goto p
            (.copy src i pos (tot + m)))
      else .next (s.goto p (.extend src i pos))
  | .extend src i pos =>
      let n := (piece src i).length
      if 0 < n ∧ s.size < pos + n then
        .next ({ s with size := pos + n }.goto p (.advance src i pos n))
      else .next (s.goto p (.advance src i pos n))
  | .advance src i pos r =>
      if 0 < r then
        .next ({ s.emit (.chunk ⟨p, true, pos, piece src i⟩) with
          off := (s.off + r) % 2 ^ 32 }.goto p (.iunlock src i (some r)))
      else .next (s.goto p (.iunlock src i (some r)))
  | .iunlock src i r => .next ({ s with lock := none }.goto p (.endOp src i r))
  | .endOp src i r =>
      match r with
      | none => .next (s.ret p (.filewrite src i))
      | some r =>
          if r ≠ (piece src i).length then .panic "short filewrite"
          else .next (s.goto p (.test src (i + r)))
  | .readLock n =>
      if s.lock.isSome then .blocked
      else .next ({ s.emit (.ilock p) with lock := some p }.goto p (.readi n))
  | .readi n =>
      if s.size < s.off ∨ 2 ^ 32 ≤ s.off + n then
        .next (s.goto p (.readUnlock none))
      else .next (s.goto p (.readCopy (min n (s.size - s.off)) s.off []))
  | .readCopy n pos dst =>
      let off := pos + dst.length
      if dst.length < n then
        let m := min (n - dst.length) (BSIZE - off % BSIZE)
        .next (s.goto p (.readCopy n pos
          (dst ++ (s.block (off / BSIZE)).get (off % BSIZE) m)))
      else .next (s.goto p (.readAdvance pos dst))
  | .readAdvance pos dst =>
      if 0 < dst.length then
        .next ({ s.emit (.chunk ⟨p, false, pos, dst⟩) with
          off := (s.off + dst.length) % 2 ^ 32 }.goto p (.readUnlock (some dst)))
      else .next (s.goto p (.readUnlock (some dst)))
  | .readUnlock r => .next ({ s with lock := none }.goto p (.readRet r))
  | .readRet r => .next (s.ret p (.fileread r))

/-- A process that is in no call may begin one. -/
def step (s : State P) : Act P → Outcome (State P)
  | .filewrite p src =>
      match s.pc p with
      | .idle =>
          if s.writable then .next (s.goto p (.test src 0))
          else .next (s.ret p .refused)
      | _ => .blocked
  | .fileread p n =>
      match s.pc p with
      | .idle =>
          if s.readable then .next (s.goto p (.readLock n))
          else .next (s.ret p .refused)
      | _ => .blocked
  | .run p => s.run p

end State

/-! ## What the trace says -/

/-- What was written and read, in the order of the updates of `f->off`. -/
def chunks : List (Event P) → List (Chunk P (BitVec 8)) :=
  List.filterMap fun e =>
    match e with
    | .chunk c => some c
    | _ => none

/-- Who took the lock of the inode, in order. -/
def lockers : List (Event P) → List P :=
  List.filterMap fun e =>
    match e with
    | .ilock p => some p
    | _ => none

/-- The bytes that a call has written or read. -/
def Call.moved : Call → Bytes
  | .refused => []
  | .filewrite src done => src.take done
  | .fileread r => r.getD []

/-- The bytes of the chunks of one process. -/
def movedBy (p : P) (tr : List (Event P)) : Bytes :=
  Transfers.all ((chunks tr).filter fun c => c.who = p)

/-- The bytes that the completed calls of one process have written or read. -/
def completedBy (p : P) : List (Event P) → Bytes :=
  List.flatMap fun e =>
    match e with
    | .ret q call => if q = p then call.moved else []
    | _ => []

/-! ## The invariant -/

namespace Pc

/-- The process holds the lock of the inode. -/
def locked : Pc → Bool
  | .writei _ _ | .copy _ _ _ _ | .extend _ _ _ | .advance _ _ _ _
  | .iunlock _ _ _ | .readi _ | .readCopy _ _ _ | .readAdvance _ _
  | .readUnlock _ => true
  | _ => false

/-- What the process has copied into the file and not yet counted in
`f->off`. -/
def pending : Pc → Bytes
  | .copy src i _ tot => (piece src i).take tot
  | .extend src i _ | .advance src i _ _ => piece src i
  | _ => []

/-- The process has the lock and has not got to `f->off += r`. -/
def undecided : Pc → Bool
  | .writei _ _ | .copy _ _ _ _ | .extend _ _ _ | .advance _ _ _ _
  | .readi _ | .readCopy _ _ _ | .readAdvance _ _ => true
  | _ => false

/-- What the call has written or read so far. -/
def moved : Pc → Bytes
  | .test src i | .ilock src i | .writei src i | .copy src i _ _
  | .extend src i _ | .advance src i _ _ => src.take i
  | .iunlock src i r | .endOp src i r => src.take (i + r.getD 0)
  | .readUnlock r | .readRet r => r.getD []
  | _ => []

end Pc

/-- What is true of a process at each place. -/
def PcOk (s : State P) : Pc → Prop
  | .test src i => i ≤ src.length
  | .ilock src i | .writei src i => i < src.length
  | .copy src i pos tot =>
      i < src.length ∧ pos = s.off ∧ tot ≤ (piece src i).length ∧
        pos + (piece src i).length < 2 ^ 32
  | .extend src i pos =>
      i < src.length ∧ pos = s.off ∧ pos + (piece src i).length < 2 ^ 32
  | .advance src i pos r =>
      i < src.length ∧ pos = s.off ∧ r = (piece src i).length ∧
        pos + (piece src i).length < 2 ^ 32
  | .iunlock src i r | .endOp src i r =>
      i < src.length ∧ (r = none ∨ r = some (piece src i).length)
  | .readCopy n pos dst =>
      pos = s.off ∧ dst.length ≤ n ∧ pos + n < 2 ^ 32 ∧
        dst = slice s.content pos dst.length
  | .readAdvance pos dst =>
      pos = s.off ∧ pos + dst.length < 2 ^ 32 ∧
        dst = slice s.content pos dst.length
  | _ => True

/-- What the holder of the lock has copied and not yet counted. -/
def State.pending (s : State P) : Bytes :=
  match s.lock with
  | none => []
  | some p => (s.pc p).pending

/-- The holder of the lock, until it gets to `f->off += r`. -/
def State.undecided (s : State P) : List P :=
  match s.lock with
  | none => []
  | some p => if (s.pc p).undecided then [p] else []

/-- `t` has come about from `s`. -/
structure Inv (s t : State P) : Prop where
  lock : ∀ p, (t.pc p).locked = true ↔ t.lock = some p
  pcs : ∀ p, PcOk t (t.pc p)
  transfers : ∃ g, Transfers s.content s.off (chunks t.trace) g t.off ∧
    t.content = overlay g t.off t.pending
  order : ∃ l, lockers t.trace = l ++ t.undecided ∧
    ((chunks t.trace).map Chunk.who).Sublist l
  calls : ∀ p, movedBy p t.trace = completedBy p t.trace ++ (t.pc p).moved

/-! ## Steps that only move a process -/

section Moves

variable {s t u : State P} {p : P} {pc : Pc}

omit [DecidableEq P] in
theorem PcOk.of_unlocked (h : PcOk t pc) (hpc : pc.locked = false) :
    PcOk u pc := by
  cases pc <;> first | exact h | cases hpc

/-- What has to be shown of a step of `p`. -/
theorem Inv.of_update (h : Inv s t) (hpc : u.pc = Function.update t.pc p pc)
    (hself : pc.locked = true ↔ u.lock = some p)
    (hlock : ∀ q, q ≠ p → (u.lock = some q ↔ t.lock = some q))
    (hframe : t.lock = some p ∨ u.off = t.off ∧ u.block = t.block)
    (hok : PcOk u pc)
    (htransfers : ∃ g, Transfers s.content s.off (chunks u.trace) g u.off ∧
      u.content = overlay g u.off u.pending)
    (horder : ∃ l, lockers u.trace = l ++ u.undecided ∧
      ((chunks u.trace).map Chunk.who).Sublist l)
    (hcalls : movedBy p u.trace = completedBy p u.trace ++ pc.moved)
    (hothers : ∀ q, q ≠ p → movedBy q u.trace = movedBy q t.trace ∧
      completedBy q u.trace = completedBy q t.trace) : Inv s u where
  lock q := by
    by_cases hq : q = p
    · subst hq
      rw [hpc, Function.update_self]
      exact hself
    · rw [hpc, Function.update_of_ne hq, hlock q hq]
      exact h.lock q
  pcs q := by
    by_cases hq : q = p
    · subst hq
      rw [hpc, Function.update_self]
      exact hok
    · rw [hpc, Function.update_of_ne hq]
      rcases hframe with hheld | ⟨hoff, hblock⟩
      · apply (h.pcs q).of_unlocked
        apply Bool.eq_false_of_not_eq_true
        intro hlocked
        have := (h.lock q).mp hlocked
        rw [hheld] at this
        exact hq (Option.some.inj this).symm
      · have hsame : ∀ pc, PcOk t pc → PcOk u pc := by
          intro pc hpc
          unfold PcOk State.content at hpc ⊢
          rw [hoff, hblock]
          exact hpc
        exact hsame _ (h.pcs q)
  transfers := htransfers
  order := horder
  calls q := by
    by_cases hq : q = p
    · subst hq
      rw [hpc, Function.update_self]
      exact hcalls
    · obtain ⟨hmoved, hcompleted⟩ := hothers q hq
      rw [hpc, Function.update_of_ne hq, hmoved, hcompleted]
      exact h.calls q

/-- The process goes on without changing anything. -/
theorem Inv.goto (h : Inv s t) {pc₀ : Pc} (hpc : t.pc p = pc₀)
    (hlocked : pc.locked = pc₀.locked) (hpending : pc.pending = pc₀.pending)
    (hundecided : pc.undecided = pc₀.undecided ∨ pc.undecided = false)
    (hmoved : pc.moved = pc₀.moved) (hok : PcOk t pc) :
    Inv s (t.goto p pc) := by
  subst hpc
  have hpend : (t.goto p pc).pending = t.pending := by
    unfold State.pending State.goto
    cases t.lock with
    | none => rfl
    | some q =>
        by_cases hq : q = p
        · subst hq
          simp [hpending]
        · simp [hq]
  have hund : (t.goto p pc).undecided = t.undecided ∨
      (t.goto p pc).undecided = [] := by
    unfold State.undecided State.goto
    cases t.lock with
    | none => exact .inl rfl
    | some q =>
        by_cases hq : q = p
        · subst hq
          rcases hundecided with hsame | hgone
          · exact .inl (by simp [hsame])
          · exact .inr (by simp [hgone])
        · exact .inl (by simp [hq])
  refine h.of_update rfl ?_ (fun _ _ => Iff.rfl) (.inr ⟨rfl, rfl⟩) ?_ ?_ ?_ ?_
    (fun _ _ => ⟨rfl, rfl⟩)
  · rw [hlocked]
    exact h.lock p
  · cases pc <;> exact hok
  · rw [hpend]
    exact h.transfers
  · obtain ⟨l, hl, hsub⟩ := h.order
    rcases hund with hund | hund
    · rw [hund]
      exact ⟨l, hl, hsub⟩
    · rw [hund]
      exact ⟨l ++ t.undecided, by rw [List.append_nil]; exact hl,
        hsub.trans (List.sublist_append_left ..)⟩
  · rw [hmoved]
    exact h.calls p

/-- The size of the inode does not matter. -/
theorem Inv.setSize (h : Inv s t) (size : ℕ) : Inv s { t with size } where
  lock := h.lock
  pcs q := by
    have := h.pcs q
    cases hq : t.pc q <;> rw [hq] at this <;> exact this
  transfers := h.transfers
  order := h.order
  calls := h.calls

end Moves

/-! ## The other steps -/

section Steps

variable {s t : State P} {p : P} {pc : Pc}

section Snoc

variable (tr : List (Event P)) (p q : P) (c : Chunk P (BitVec 8)) (call : Call)

omit [DecidableEq P] in
theorem chunks_snoc_ilock : chunks (tr ++ [.ilock p]) = chunks tr := by
  simp [chunks]

omit [DecidableEq P] in
theorem chunks_snoc_chunk : chunks (tr ++ [.chunk c]) = chunks tr ++ [c] := by
  simp [chunks]

omit [DecidableEq P] in
theorem chunks_snoc_ret : chunks (tr ++ [.ret p call]) = chunks tr := by
  simp [chunks]

omit [DecidableEq P] in
theorem lockers_snoc_ilock :
    lockers (tr ++ [.ilock p]) = lockers tr ++ [p] := by
  simp [lockers]

omit [DecidableEq P] in
theorem lockers_snoc_chunk : lockers (tr ++ [.chunk c]) = lockers tr := by
  simp [lockers]

omit [DecidableEq P] in
theorem lockers_snoc_ret : lockers (tr ++ [.ret p call]) = lockers tr := by
  simp [lockers]

theorem movedBy_snoc_ilock :
    movedBy q (tr ++ [.ilock p]) = movedBy q tr := by
  rw [movedBy, chunks_snoc_ilock, movedBy]

theorem movedBy_snoc_chunk :
    movedBy q (tr ++ [.chunk c]) =
      movedBy q tr ++ if c.who = q then c.vals else [] := by
  rw [movedBy, chunks_snoc_chunk, List.filter_append]
  split
  · next h => simp [movedBy, Transfers.all, h]
  · next h => simp [movedBy, Transfers.all, h]

theorem movedBy_snoc_ret :
    movedBy q (tr ++ [.ret p call]) = movedBy q tr := by
  rw [movedBy, chunks_snoc_ret, movedBy]

theorem completedBy_snoc_ilock :
    completedBy q (tr ++ [.ilock p]) = completedBy q tr := by
  simp [completedBy]

theorem completedBy_snoc_chunk :
    completedBy q (tr ++ [.chunk c]) = completedBy q tr := by
  simp [completedBy]

theorem completedBy_snoc_ret :
    completedBy q (tr ++ [.ret p call]) =
      completedBy q tr ++ if p = q then call.moved else [] := by
  simp [completedBy]

end Snoc

/-- The inode is locked. -/
theorem Inv.ilock (h : Inv s t) {pc₀ : Pc} (hpc : t.pc p = pc₀)
    (hfree : t.lock = none) (hlocked : pc.locked = true)
    (hpending : pc.pending = []) (hundecided : pc.undecided = true)
    (hmoved : pc.moved = pc₀.moved) (hok : PcOk t pc) :
    Inv s ({ t.emit (.ilock p) with lock := some p }.goto p pc) := by
  subst hpc
  refine h.of_update rfl ?_ ?_ (.inr ⟨rfl, rfl⟩) ?_ ?_ ?_ ?_ ?_
  · exact iff_of_true hlocked rfl
  · intro q hq
    rw [hfree]
    simp [State.goto, Ne.symm hq]
  · cases pc <;> exact hok
  · obtain ⟨g, hg, hcontent⟩ := h.transfers
    refine ⟨g, ?_, ?_⟩
    · change Transfers _ _ (chunks (t.trace ++ [.ilock p])) g t.off
      rw [chunks_snoc_ilock]
      exact hg
    · simpa [State.goto, State.emit, State.content, State.pending, hpending,
        hfree] using hcontent
  · obtain ⟨l, hl, hsub⟩ := h.order
    refine ⟨l, ?_, ?_⟩
    · change lockers (t.trace ++ [.ilock p]) = _
      rw [lockers_snoc_ilock, hl]
      simp [State.goto, State.undecided, hundecided, hfree]
    · change ((chunks (t.trace ++ [.ilock p])).map Chunk.who).Sublist l
      rw [chunks_snoc_ilock]
      exact hsub
  · change movedBy p (t.trace ++ [.ilock p]) =
      completedBy p (t.trace ++ [.ilock p]) ++ pc.moved
    rw [movedBy_snoc_ilock, completedBy_snoc_ilock, hmoved]
    exact h.calls p
  · intro q _
    exact ⟨movedBy_snoc_ilock t.trace p q, completedBy_snoc_ilock t.trace p q⟩

/-- The inode is unlocked. -/
theorem Inv.iunlock (h : Inv s t) {pc₀ : Pc} (hpc : t.pc p = pc₀)
    (hlock : pc₀.locked = true) (hlocked : pc.locked = false)
    (hpending : pc₀.pending = []) (hundecided : pc₀.undecided = false)
    (hmoved : pc.moved = pc₀.moved) (hok : PcOk t pc) :
    Inv s ({ t with lock := none }.goto p pc) := by
  subst hpc
  rw [h.lock p] at hlock
  refine h.of_update rfl ?_ ?_ (.inr ⟨rfl, rfl⟩) ?_ ?_ ?_ ?_
    (fun _ _ => ⟨rfl, rfl⟩)
  · simp [State.goto, hlocked]
  · intro q hq
    rw [hlock]
    simp [State.goto, Ne.symm hq]
  · exact hok.of_unlocked hlocked
  · obtain ⟨g, hg, hcontent⟩ := h.transfers
    refine ⟨g, hg, ?_⟩
    simpa [State.goto, State.content, State.pending, hlock, hpending] using
      hcontent
  · obtain ⟨l, hl, hsub⟩ := h.order
    refine ⟨l, ?_, hsub⟩
    simpa [State.goto, State.undecided, hlock, hundecided] using hl
  · rw [hmoved]
    exact h.calls p

/-- A call returns. -/
theorem Inv.ret (h : Inv s t) {pc₀ : Pc} (hpc : t.pc p = pc₀) {call : Call}
    (hlocked : pc₀.locked = false) (hmoved : call.moved = pc₀.moved) :
    Inv s (t.ret p call) := by
  subst hpc
  have hne : t.lock ≠ some p := by
    intro hlock
    rw [(h.lock p).mpr hlock] at hlocked
    cases hlocked
  have hpend : (t.ret p call).pending = t.pending := by
    unfold State.pending State.ret State.goto State.emit
    cases hl : t.lock with
    | none => rfl
    | some q =>
        have hq : q ≠ p := by
          rintro rfl
          exact hne hl
        simp [hq]
  have hund : (t.ret p call).undecided = t.undecided := by
    unfold State.undecided State.ret State.goto State.emit
    cases hl : t.lock with
    | none => rfl
    | some q =>
        have hq : q ≠ p := by
          rintro rfl
          exact hne hl
        simp [hq]
  have hpc : (t.ret p call).pc = Function.update t.pc p .idle := rfl
  refine h.of_update hpc ?_ (fun _ _ => Iff.rfl) (.inr ⟨rfl, rfl⟩) trivial ?_ ?_
    ?_ ?_
  · exact iff_of_false nofun hne
  · change ∃ g, Transfers _ _ (chunks (t.trace ++ [.ret p call])) g t.off ∧
      t.content = overlay g t.off (t.ret p call).pending
    rw [hpend, chunks_snoc_ret]
    exact h.transfers
  · change ∃ l, lockers (t.trace ++ [.ret p call]) = _ ∧
      ((chunks (t.trace ++ [.ret p call])).map Chunk.who).Sublist l
    rw [hund, chunks_snoc_ret, lockers_snoc_ret]
    exact h.order
  · change movedBy p (t.trace ++ [.ret p call]) =
      completedBy p (t.trace ++ [.ret p call]) ++ []
    rw [movedBy_snoc_ret, completedBy_snoc_ret, if_pos rfl, hmoved,
      List.append_nil]
    exact h.calls p
  · intro q hq
    refine ⟨movedBy_snoc_ret t.trace p q call, ?_⟩
    change completedBy q (t.trace ++ [.ret p call]) = _
    rw [completedBy_snoc_ret, if_neg (Ne.symm hq), List.append_nil]

/-- What has been written or read is counted in `f->off`. -/
theorem Inv.advance (h : Inv s t) {pc₀ : Pc} (hpc : t.pc p = pc₀)
    {c : Chunk P (BitVec 8)} (hlock : pc₀.locked = true) (hwho : c.who = p)
    (hpos : c.pos = t.off) (hundecided : pc₀.undecided = true)
    (hvals : c.written = true ∧ pc₀.pending = c.vals ∨
      c.written = false ∧ pc₀.pending = [] ∧
        c.vals = slice t.content c.pos c.vals.length)
    (hbound : c.pos + c.vals.length < 2 ^ 32) (hlocked : pc.locked = true)
    (hpending : pc.pending = []) (hgone : pc.undecided = false)
    (hmoved : pc.moved = pc₀.moved ++ c.vals)
    (hok : ∀ u : State P, PcOk u pc) :
    Inv s ({ t.emit (.chunk c) with
      off := (t.off + c.vals.length) % 2 ^ 32 }.goto p pc) := by
  subst hpc
  rw [h.lock p] at hlock
  have hoff : (t.off + c.vals.length) % 2 ^ 32 = t.off + c.vals.length := by
    apply Nat.mod_eq_of_lt
    omega
  rw [hoff]
  refine h.of_update rfl ?_ (fun _ _ => Iff.rfl) (.inl hlock) (hok _) ?_ ?_ ?_ ?_
  · exact iff_of_true hlocked hlock
  · obtain ⟨g, hg, hcontent⟩ := h.transfers
    have hpend : t.pending = (t.pc p).pending := by
      simp [State.pending, hlock]
    have hnone : ({ t.emit (.chunk c) with
        off := t.off + c.vals.length }.goto p pc).pending = [] := by
      simp [State.pending, State.goto, State.emit, hlock, hpending]
    rw [hpend] at hcontent
    obtain ⟨who, written, pos, vals⟩ := c
    cases hwho
    cases hpos
    refine ⟨t.content, ?_, ?_⟩
    · change Transfers _ _ (chunks (t.trace ++ [.chunk _])) t.content
        (t.off + vals.length)
      rw [chunks_snoc_chunk]
      rcases hvals with ⟨hw, hv⟩ | ⟨hw, hv, hslice⟩
      · cases hw
        rw [hcontent, hv]
        exact hg.write who vals
      · cases hw
        rw [hv, overlay_nil] at hcontent
        rw [hcontent] at hslice ⊢
        have := hg.read who vals.length
        rwa [← hslice] at this
    · rw [hnone, overlay_nil]
      rfl
  · obtain ⟨l, hl, hsub⟩ := h.order
    refine ⟨l ++ [p], ?_, ?_⟩
    · change lockers (t.trace ++ [.chunk c]) = _
      rw [lockers_snoc_chunk, hl]
      simp [State.undecided, State.goto, State.emit, hlock, hundecided, hgone]
    · change ((chunks (t.trace ++ [.chunk c])).map Chunk.who).Sublist _
      rw [chunks_snoc_chunk, List.map_append, List.map_singleton, hwho]
      exact hsub.append (List.Sublist.refl _)
  · change movedBy p (t.trace ++ [.chunk c]) =
      completedBy p (t.trace ++ [.chunk c]) ++ pc.moved
    rw [movedBy_snoc_chunk, completedBy_snoc_chunk, if_pos hwho, h.calls p,
      hmoved, List.append_assoc]
  · intro q hq
    refine ⟨?_, completedBy_snoc_chunk t.trace q c⟩
    change movedBy q (t.trace ++ [.chunk c]) = _
    rw [movedBy_snoc_chunk, if_neg (hwho ▸ Ne.symm hq), List.append_nil]

omit [DecidableEq P] in
theorem length_piece (src : Bytes) (i : ℕ) :
    (piece src i).length = min (src.length - i) maxWrite := by
  simp [piece]

omit [DecidableEq P] in
theorem piece_pos {src : Bytes} {i : ℕ} (h : i < src.length) :
    0 < (piece src i).length := by
  have : 0 < maxWrite := by decide
  rw [length_piece]
  omega

omit [DecidableEq P] in
theorem take_piece (src : Bytes) (i : ℕ) :
    src.take (i + (piece src i).length) = src.take i ++ piece src i := by
  rw [List.take_add, length_piece, piece]

omit [DecidableEq P] in
/-- The bytes copied to one block are within it. -/
theorem round_le (off n : ℕ) :
    off % BSIZE + min n (BSIZE - off % BSIZE) ≤ BSIZE := by
  have := Nat.mod_lt off (show 0 < BSIZE by decide)
  omega

/-- `writei` copies to one block. -/
theorem Inv.copy (h : Inv s t) {src : Bytes} {i pos tot : ℕ}
    (hpc : t.pc p = .copy src i pos tot) (htot : tot < (piece src i).length) :
    Inv s ({ t with
      block := Function.update t.block ((pos + tot) / BSIZE)
        ((t.block ((pos + tot) / BSIZE)).put ((pos + tot) % BSIZE)
          (((piece src i).drop tot).take
            (min ((piece src i).length - tot)
              (BSIZE - (pos + tot) % BSIZE)))) }.goto p
      (.copy src i pos (tot + min ((piece src i).length - tot)
        (BSIZE - (pos + tot) % BSIZE)))) := by
  have hlock : t.lock = some p := by
    apply (h.lock p).mp
    rw [hpc]
    rfl
  obtain ⟨hi, hpos, hle, hbound⟩ : PcOk t (.copy src i pos tot) := by
    rw [← hpc]
    exact h.pcs p
  have hround := round_le (pos + tot) ((piece src i).length - tot)
  refine h.of_update rfl (iff_of_true rfl hlock) (fun _ _ => Iff.rfl)
    (.inl hlock) ⟨hi, hpos, by omega, hbound⟩ ?_ ?_ ?_ (fun _ _ => ⟨rfl, rfl⟩)
  · obtain ⟨g, hg, hcontent⟩ := h.transfers
    refine ⟨g, hg, ?_⟩
    have hpend : t.pending = (piece src i).take tot := by
      simp [State.pending, hlock, hpc, Pc.pending]
    have hlen : ((piece src i).take tot).length = tot := by
      rw [List.length_take]
      omega
    rw [hpend] at hcontent
    change contentOf (Function.update t.block _ _) = _
    rw [contentOf_put (by rw [List.length_take, List.length_drop]; omega)]
    change overlay t.content _ _ = _
    rw [hcontent, hpos]
    nth_rewrite 2 [← hlen]
    rw [overlay_append, ← List.take_add]
    simp [State.pending, State.goto, hlock, Pc.pending]
  · obtain ⟨l, hl, hsub⟩ := h.order
    refine ⟨l, ?_, hsub⟩
    change lockers t.trace = _
    rw [hl]
    simp [State.undecided, State.goto, hlock, hpc, Pc.undecided]
  · have := h.calls p
    rw [hpc] at this
    exact this

/-- One step of a process keeps the invariant and does not panic. -/
theorem Inv.run (h : Inv s t) (p : P) :
    t.run p = .blocked ∨ ∃ u, t.run p = .next u ∧ Inv s u := by
  have hok := h.pcs p
  unfold State.run
  cases hpc : t.pc p with
  | idle => exact .inl rfl
  | test src i =>
      dsimp only
      split
      · next hlt =>
          exact .inr ⟨_, rfl, h.goto hpc rfl rfl (.inl rfl) rfl hlt⟩
      · exact .inr ⟨_, rfl, h.ret hpc rfl rfl⟩
  | ilock src i =>
      rw [hpc] at hok
      dsimp only
      split
      · exact .inl rfl
      · next hnone =>
          have hfree : t.lock = none := by simpa using hnone
          exact .inr ⟨_, rfl, h.ilock hpc hfree rfl rfl rfl rfl hok⟩
  | writei src i =>
      rw [hpc] at hok
      have hfail : Inv s (t.goto p (.iunlock src i none)) :=
        h.goto hpc rfl rfl (.inr rfl) rfl ⟨hok, .inl rfl⟩
      dsimp only
      split
      · exact .inr ⟨_, rfl, hfail⟩
      · next hfits =>
          split
          · exact .inr ⟨_, rfl, hfail⟩
          · exact .inr ⟨_, rfl, h.goto hpc rfl rfl (.inl rfl) rfl
              ⟨hok, rfl, Nat.zero_le _, by omega⟩⟩
  | copy src i pos tot =>
      rw [hpc] at hok
      obtain ⟨hi, hpos, hle, hbound⟩ := hok
      dsimp only
      split
      · next htot => exact .inr ⟨_, rfl, h.copy hpc htot⟩
      · next htot =>
          have hall : piece src i = (piece src i).take tot :=
            (List.take_of_length_le (by omega)).symm
          exact .inr ⟨_, rfl,
            h.goto hpc rfl hall (.inl rfl) rfl ⟨hi, hpos, hbound⟩⟩
  | extend src i pos =>
      rw [hpc] at hok
      obtain ⟨hi, hpos, hbound⟩ := hok
      have hgoto : ∀ size, Inv s (({ t with size } : State P).goto p
          (.advance src i pos (piece src i).length)) := fun size =>
        (h.setSize size).goto hpc rfl rfl (.inl rfl) rfl ⟨hi, hpos, rfl, hbound⟩
      dsimp only
      split
      · exact .inr ⟨_, rfl, hgoto _⟩
      · exact .inr ⟨_, rfl, hgoto t.size⟩
  | advance src i pos r =>
      rw [hpc] at hok
      obtain ⟨hi, hpos, rfl, hbound⟩ := hok
      dsimp only
      rw [if_pos (piece_pos hi)]
      exact .inr ⟨_, rfl, h.advance hpc (c := ⟨p, true, pos, piece src i⟩)
        rfl rfl hpos rfl (.inl ⟨rfl, rfl⟩) hbound rfl rfl rfl
        (take_piece src i) fun _ => ⟨hi, .inr rfl⟩⟩
  | iunlock src i r =>
      rw [hpc] at hok
      exact .inr ⟨_, rfl, h.iunlock hpc rfl rfl rfl rfl rfl hok⟩
  | endOp src i r =>
      rw [hpc] at hok
      obtain ⟨hi, rfl | rfl⟩ := hok
      · exact .inr ⟨_, rfl, h.ret hpc rfl rfl⟩
      · dsimp only
        rw [if_neg (not_not.mpr rfl)]
        have := length_piece src i
        have hle : i + (piece src i).length ≤ src.length := by omega
        exact .inr ⟨_, rfl, h.goto hpc rfl rfl (.inl rfl) rfl hle⟩
  | readLock n =>
      dsimp only
      split
      · exact .inl rfl
      · next hnone =>
          have hfree : t.lock = none := by simpa using hnone
          exact .inr ⟨_, rfl, h.ilock hpc hfree rfl rfl rfl rfl trivial⟩
  | readi n =>
      dsimp only
      split
      · exact .inr ⟨_, rfl, h.goto hpc rfl rfl (.inr rfl) rfl trivial⟩
      · next hfits =>
          exact .inr ⟨_, rfl, h.goto hpc rfl rfl (.inl rfl) rfl
            ⟨rfl, Nat.zero_le _, by omega, rfl⟩⟩
  | readCopy n pos dst =>
      rw [hpc] at hok
      obtain ⟨hpos, hle, hbound, hdst⟩ := hok
      have hround := round_le (pos + dst.length) (n - dst.length)
      dsimp only
      split
      · next htot =>
          refine .inr ⟨_, rfl, h.goto hpc rfl rfl (.inl rfl) rfl
            ⟨hpos, ?_, hbound, ?_⟩⟩
          · rw [List.length_append, Block.length_get]
            omega
          · rw [List.length_append, Block.length_get, slice_add, ← hdst,
              get_eq_slice hround]
            rfl
      · exact .inr ⟨_, rfl,
          h.goto hpc rfl rfl (.inl rfl) rfl ⟨hpos, by omega, hdst⟩⟩
  | readAdvance pos dst =>
      rw [hpc] at hok
      obtain ⟨hpos, hbound, hdst⟩ := hok
      dsimp only
      split
      · exact .inr ⟨_, rfl, h.advance hpc (c := ⟨p, false, pos, dst⟩) rfl rfl
          hpos rfl (.inr ⟨rfl, rfl, hdst⟩) hbound rfl rfl rfl rfl
          fun _ => trivial⟩
      · next hempty =>
          obtain rfl : dst = [] := List.length_eq_zero_iff.mp (by omega)
          exact .inr ⟨_, rfl, h.goto hpc rfl rfl (.inr rfl) rfl trivial⟩
  | readUnlock r =>
      exact .inr ⟨_, rfl, h.iunlock hpc rfl rfl rfl rfl rfl trivial⟩
  | readRet r => exact .inr ⟨_, rfl, h.ret hpc rfl rfl⟩

theorem Inv.step (h : Inv s t) (a : Act P) :
    t.step a = .blocked ∨ ∃ u, t.step a = .next u ∧ Inv s u := by
  cases a with
  | filewrite p src =>
      simp only [State.step]
      cases hpc : t.pc p with
      | idle =>
          dsimp only
          split
          · exact .inr ⟨_, rfl,
              h.goto hpc rfl rfl (.inl rfl) rfl (Nat.zero_le src.length)⟩
          · exact .inr ⟨_, rfl, h.ret hpc rfl rfl⟩
      | _ => exact .inl rfl
  | fileread p n =>
      simp only [State.step]
      cases hpc : t.pc p with
      | idle =>
          dsimp only
          split
          · exact .inr ⟨_, rfl, h.goto hpc rfl rfl (.inl rfl) rfl trivial⟩
          · exact .inr ⟨_, rfl, h.ret hpc rfl rfl⟩
      | _ => exact .inl rfl
  | run p => exact h.run p

end Steps

/-! ## Runs of one kind of call -/

section Kinds

/-- Whether a call writes the file or reads it. -/
def Pc.kind : Pc → Option Bool
  | .idle => none
  | .readLock _ | .readi _ | .readCopy _ _ _ | .readAdvance _ _ | .readUnlock _
  | .readRet _ => some false
  | _ => some true

theorem Pc.pending_of_kind {pc : Pc} (h : pc.kind ≠ some true) :
    pc.pending = [] := by
  cases pc <;> first | rfl | exact absurd rfl h

/-- A new call would read or write the file. -/
def Act.kind : Act P → Option Bool
  | .filewrite _ _ => some true
  | .fileread _ _ => some false
  | .run _ => none

/-- All calls are of one kind. -/
structure Uniform (b : Bool) (t : State P) : Prop where
  pcs : ∀ p, (t.pc p).kind ≠ some !b
  chunks : ∀ c ∈ chunks t.trace, c.written = b

variable {s t u : State P} {p : P} {b : Bool}

theorem Uniform.of_update {pc : Pc} (h : Uniform b t)
    (hpc : u.pc = Function.update t.pc p pc) (hkind : pc.kind ≠ some !b)
    (hchunks : ∀ c ∈ SharedOffset.chunks u.trace,
      c ∈ SharedOffset.chunks t.trace ∨ c.written = b) : Uniform b u where
  pcs q := by
    by_cases hq : q = p
    · subst hq
      rw [hpc, Function.update_self]
      exact hkind
    · rw [hpc, Function.update_of_ne hq]
      exact h.pcs q
  chunks c hc := (hchunks c hc).elim (h.chunks c) id

/-- A process goes on with the call that it is in, and its chunks are of its
kind. -/
theorem run_kind (hrun : t.run p = .next u) :
    ∃ pc, u.pc = Function.update t.pc p pc ∧
      (pc.kind = none ∨ pc.kind = (t.pc p).kind) ∧
      ∀ c ∈ chunks u.trace,
        c ∈ chunks t.trace ∨ (t.pc p).kind = some c.written := by
  have hkeep : ∀ c ∈ chunks t.trace,
      c ∈ chunks t.trace ∨ (t.pc p).kind = some c.written :=
    fun c hc => .inl hc
  have hlock : ∀ c ∈ chunks (t.trace ++ [.ilock p]),
      c ∈ chunks t.trace ∨ (t.pc p).kind = some c.written := by
    rw [chunks_snoc_ilock]
    exact hkeep
  have hret : ∀ call, ∀ c ∈ chunks (t.trace ++ [.ret p call]),
      c ∈ chunks t.trace ∨ (t.pc p).kind = some c.written := by
    intro call
    rw [chunks_snoc_ret]
    exact hkeep
  have hchunk : ∀ d : Chunk P (BitVec 8), (t.pc p).kind = some d.written →
      ∀ c ∈ chunks (t.trace ++ [.chunk d]),
        c ∈ chunks t.trace ∨ (t.pc p).kind = some c.written := by
    intro d hd c hc
    rw [chunks_snoc_chunk] at hc
    rcases List.mem_append.mp hc with hc | hc
    · exact .inl hc
    · rw [List.mem_singleton.mp hc]
      exact .inr hd
  unfold State.run at hrun
  cases hpc : t.pc p <;> rw [hpc] at hrun hkeep hlock hret hchunk <;>
    dsimp only at hrun
  case idle => cases hrun
  case test =>
    split at hrun <;> cases hrun
    · exact ⟨_, rfl, .inr rfl, hkeep⟩
    · exact ⟨_, rfl, .inl rfl, hret _⟩
  case ilock =>
    split at hrun <;> cases hrun
    exact ⟨_, rfl, .inr rfl, hlock⟩
  case writei =>
    split at hrun
    · cases hrun
      exact ⟨_, rfl, .inr rfl, hkeep⟩
    · split at hrun <;> cases hrun <;> exact ⟨_, rfl, .inr rfl, hkeep⟩
  case copy | extend =>
    split at hrun <;> cases hrun <;> exact ⟨_, rfl, .inr rfl, hkeep⟩
  case advance =>
    split at hrun <;> cases hrun
    · exact ⟨_, rfl, .inr rfl, hchunk _ rfl⟩
    · exact ⟨_, rfl, .inr rfl, hkeep⟩
  case iunlock =>
    cases hrun
    exact ⟨_, rfl, .inr rfl, hkeep⟩
  case endOp =>
    split at hrun
    · cases hrun
      exact ⟨_, rfl, .inl rfl, hret _⟩
    · split at hrun <;> cases hrun
      exact ⟨_, rfl, .inr rfl, hkeep⟩
  case readLock =>
    split at hrun <;> cases hrun
    exact ⟨_, rfl, .inr rfl, hlock⟩
  case readi | readCopy =>
    split at hrun <;> cases hrun <;> exact ⟨_, rfl, .inr rfl, hkeep⟩
  case readAdvance =>
    split at hrun <;> cases hrun
    · exact ⟨_, rfl, .inr rfl, hchunk _ rfl⟩
    · exact ⟨_, rfl, .inr rfl, hkeep⟩
  case readUnlock =>
    cases hrun
    exact ⟨_, rfl, .inr rfl, hkeep⟩
  case readRet =>
    cases hrun
    exact ⟨_, rfl, .inl rfl, hret _⟩

theorem Uniform.ret (h : Uniform b t) (p : P) (call : Call) :
    Uniform b (t.ret p call) := by
  have hpc : (t.ret p call).pc = Function.update t.pc p .idle := rfl
  refine h.of_update hpc nofun ?_
  change ∀ c ∈ SharedOffset.chunks (t.trace ++ [.ret p call]), _
  rw [chunks_snoc_ret]
  exact fun c hc => .inl hc

/-- Calls stay of one kind when no call of the other kind begins. -/
theorem Uniform.step (h : Uniform b t) {a : Act P} (ha : a.kind ≠ some !b)
    (hstep : t.step a = .next u) : Uniform b u := by
  cases a with
  | filewrite p src =>
      simp only [State.step] at hstep
      split at hstep
      · split at hstep
        · cases hstep
          exact h.of_update rfl ha fun c hc => .inl hc
        · cases hstep
          exact h.ret p .refused
      · cases hstep
  | fileread p n =>
      simp only [State.step] at hstep
      split at hstep
      · split at hstep
        · cases hstep
          exact h.of_update rfl ha fun c hc => .inl hc
        · cases hstep
          exact h.ret p .refused
      · cases hstep
  | run p =>
      obtain ⟨pc, hpc, hkind, hchunks⟩ := run_kind hstep
      refine h.of_update hpc ?_ ?_
      · rcases hkind with hkind | hkind
        · rw [hkind]
          nofun
        · rw [hkind]
          exact h.pcs p
      · intro c hc
        refine (hchunks c hc).imp_right fun hkind => ?_
        have := h.pcs p
        rw [hkind] at this
        cases hw : c.written <;> cases b <;> simp_all

end Kinds

/-! ## Whole runs -/

section Runs

variable {s t : State P} {acts : List (Act P)}

/-- No process is in a call. -/
structure State.Initial (s : State P) : Prop where
  pc : ∀ p, s.pc p = .idle
  lock : s.lock = none
  trace : s.trace = []

/-- The chunks partition the part of the file that the offset has passed since
`s`, in the order in which their processes locked the inode. -/
structure Partition (s t : State P) : Prop where
  consecutive : ∀ before c after, chunks t.trace = before ++ c :: after →
    c.pos = s.off + (Transfers.all before).length
  off : t.off = s.off + (Transfers.all (chunks t.trace)).length
  disjoint : (chunks t.trace).Pairwise fun c d =>
    c.pos + c.vals.length ≤ d.pos
  covers : ∀ k, s.off ≤ k → k < t.off →
    ∃ c ∈ chunks t.trace, c.pos ≤ k ∧ k < c.pos + c.vals.length
  order : ((chunks t.trace).map Chunk.who).Sublist (lockers t.trace)
  /-- The file holds every chunk as it was written or read. -/
  unmodified : ∀ c ∈ chunks t.trace,
    slice t.content c.pos c.vals.length = c.vals
  /-- The chunks of a process are what its calls wrote or read. -/
  calls : ∀ p, movedBy p t.trace = completedBy p t.trace ++ (t.pc p).moved

theorem State.Initial.inv (h : s.Initial) : Inv s s where
  lock p := by simp [h.pc, h.lock, Pc.locked]
  pcs p := by
    rw [h.pc]
    trivial
  transfers := by
    refine ⟨s.content, ?_, ?_⟩
    · rw [h.trace]
      exact .nil
    · simp [State.pending, h.lock]
  order := ⟨[], by simp [h.trace, State.undecided, h.lock, lockers, chunks]⟩
  calls p := by
    rw [h.trace, h.pc]
    rfl

omit [DecidableEq P] in
theorem State.Initial.uniform (h : s.Initial) (b : Bool) : Uniform b s where
  pcs p := by
    rw [h.pc]
    nofun
  chunks c hc := by
    rw [h.trace] at hc
    cases hc

theorem Inv.partition (h : Inv s t) : Partition s t := by
  obtain ⟨g, hg, hcontent⟩ := h.transfers
  constructor
  case consecutive => exact fun _ _ _ => hg.pos_eq
  case off => exact hg.cursor
  case disjoint => exact hg.disjoint
  case covers => exact fun k => hg.covers
  case order =>
    obtain ⟨l, hl, hsub⟩ := h.order
    rw [hl]
    exact hsub.trans (List.sublist_append_left ..)
  case unmodified =>
    intro c hc
    refine (slice_congr ?_).trans (hg.holds hc)
    intro k _ hk
    have := (hg.end_le hc).2
    rw [hcontent, overlay_of_lt (by omega)]
  case calls => exact h.calls

theorem Inv.of_run (hs : s.Initial) (hrun : Run State.step s acts t) :
    Inv s t := by
  refine Run.invariant (I := Inv s) ?_ hrun hs.inv
  intro t a u h hstep
  obtain hblocked | ⟨u', hnext, h'⟩ := h.step a
  · rw [hblocked] at hstep
    cases hstep
  · rw [hnext] at hstep
    cases hstep
    exact h'

theorem Uniform.of_run {b : Bool} (hs : s.Initial)
    (hacts : ∀ a ∈ acts, a.kind ≠ some !b)
    (hrun : Run State.step s acts t) : Uniform b t := by
  have hinit := hs.uniform b
  clear hs
  induction hrun with
  | nil s => exact hinit
  | cons head _ ih =>
      apply ih
      · exact fun a ha => hacts a (List.mem_cons_of_mem _ ha)
      · exact hinit.step (hacts _ (List.mem_cons_self ..)) head

/-- An empty file that nobody uses. -/
def State.empty : State P where
  readable := true
  writable := true
  off := 0
  size := 0
  block _ := Block.zero
  lock := none
  pc _ := .idle
  trace := []

/-- Two processes write two bytes and one byte, and the second begins before the
first has returned. -/
def twoWrites : List (Act Bool) :=
  [.filewrite true [1, 2], .filewrite false [3], .run true, .run false] ++
    List.replicate 7 (.run true) ++ List.replicate 9 (.run false) ++
    List.replicate 2 (.run true)

end Runs

end ZtlOs.Fs.SharedOffset
