import ZtlOs.Cache.Store
import ZtlOs.Fs.Block
import ZtlOs.Log.Protocol

/-!
# The log over the buffer cache

`log.c` with its block transfers: the phases of `commit` and of recovery run
as sequences of `bread`, `memmove`, `bwrite` and `brelse` on the buffer cache,
while other processes use the cache.  A crash keeps the disk only, and one
process then runs `initlog`.
-/

namespace ZtlOs.Transactions

open ZtlOs.Support ZtlOs.Fs ZtlOs.Cache ZtlOs.Logging

/-! ## The header block -/

/-- The block numbers that `read_head` copies, from offset `off` on. -/
def getBlocks (b : Block) : ℕ → ℕ → List ℕ
  | 0, _ => []
  | n + 1, off => (b.word off).toNat :: getBlocks b n (off + 4)

/-- The block numbers that `write_head` copies, from offset `off` on. -/
def setBlocks : List ℕ → ℕ → Block → Block
  | [], _, b => b
  | blockno :: lh, off, b =>
      setBlocks lh (off + 4) (b.setWord off (BitVec.ofNat 32 blockno))

/-- The `struct logheader` in a block. -/
def getHead (b : Block) : List ℕ :=
  getBlocks b (b.word 0).toInt.toNat 4

/-- The block in which `write_head` has stored the header. -/
def setHead (lh : List ℕ) (b : Block) : Block :=
  setBlocks lh 4 (b.setWord 0 (BitVec.ofNat 32 lh.length))

section Header

variable {lh : List ℕ} {b b' : Block} {off off' n : ℕ}

theorem word_setBlocks (h : off' + 4 ≤ off) :
    (setBlocks lh off b).word off' = b.word off' := by
  induction lh generalizing off b with
  | nil => rfl
  | cons blockno lh ih =>
      rw [setBlocks, ih (by omega), Block.word_setWord_of_disjoint (by omega)]

theorem getBlocks_setBlocks (hoff : off + 4 * lh.length ≤ BSIZE)
    (hlt : ∀ blockno ∈ lh, blockno < 2 ^ 32) :
    getBlocks (setBlocks lh off b) lh.length off = lh := by
  induction lh generalizing off b with
  | nil => rfl
  | cons blockno lh ih =>
      rw [List.length_cons] at hoff ⊢
      rw [setBlocks, getBlocks, word_setBlocks (by omega),
        Block.word_setWord_self (by omega), BitVec.toNat_ofNat,
        Nat.mod_eq_of_lt (hlt blockno List.mem_cons_self),
        ih (by omega) fun x hx => hlt x (List.mem_cons_of_mem _ hx)]

/-- What `write_head` stores, `read_head` reads. -/
theorem getHead_setHead (hlen : lh.length ≤ LOGSIZE)
    (hlt : ∀ blockno ∈ lh, blockno < 2 ^ 32) :
    getHead (setHead lh b) = lh := by
  have hlen' : lh.length ≤ 30 := hlen
  have hn : ((setHead lh b).word 0).toInt.toNat = lh.length := by
    rw [setHead, word_setBlocks (by omega),
      Block.word_setWord_self (by decide), BitVec.toInt_eq_toNat_of_lt]
    · simp only [BitVec.toNat_ofNat, Int.toNat_natCast]
      omega
    · simp only [BitVec.toNat_ofNat]
      omega
  rw [getHead, hn, setHead]
  exact getBlocks_setBlocks (by simp only [BSIZE]; omega) hlt

end Header

/-! ## The block transfers of the log code -/

/-- The buffer operations of `log.c`.  A register stands for a local variable
of type `struct buf *`. -/
inductive Op where
  | bread (r : Fin 2) (blockno : ℕ)
  | memmove (dst src : Fin 2)
  | fillHead (r : Fin 2)
  | readHead (r : Fin 2)
  | bwrite (r : Fin 2)
  | brelse (r : Fin 2)
  deriving DecidableEq

/-- The block of the log area that belongs to slot `tail` of the header. -/
def slot (log : Log) (tail : ℕ) : ℕ :=
  log.start + tail + 1

/-- The home block of slot `tail`. -/
def home (log : Log) (tail : ℕ) : ℕ :=
  log.lh.getD tail 0

/-- The transfers of one phase, or of one turn of its loop. -/
def script (log : Log) : Phase → List Op
  | .readHead => [.bread 0 log.start, .readHead 0, .brelse 0]
  | .writeLog tail =>
      if tail < log.lh.length then
        [.bread 0 (slot log tail), .bread 1 (home log tail), .memmove 0 1,
          .bwrite 0, .brelse 1, .brelse 0]
      else []
  | .installTrans tail =>
      if tail < log.lh.length then
        [.bread 0 (slot log tail), .bread 1 (home log tail), .memmove 1 0,
          .bwrite 1, .brelse 0, .brelse 1]
      else []
  | .writeHead | .eraseHead =>
      [.bread 0 log.start, .fillHead 0, .bwrite 0, .brelse 0]
  | .commit | .clear | .finish => []

/-! ## The combined machine -/

/-- The log, the buffer cache, and for each process its local buffer pointers
and its position in the current phase. -/
structure State (P : Type*) where
  log : Logging.State P
  cache : Cache.State P Block
  reg : P → Fin 2 → Fin NBUF
  pos : P → ℕ

inductive Act (P : Type*) where
  /-- The calls of a process outside of `log.c`. -/
  | bread (p : P) (id : BlockId)
  | modify (p : P) (i : Fin NBUF) (data : Block)
  | bwrite (p : P) (i : Fin NBUF)
  | brelse (p : P) (i : Fin NBUF)
  | beginOp (p : P)
  | logWrite (p : P) (i : Fin NBUF)
  | endOp (p : P)
  /-- The steps inside of a call. -/
  | update (p : P)
  | acquiresleep (p : P)
  | load (p : P)
  | release (p : P)
  /-- The next transfer or phase of `commit` or of recovery. -/
  | op (p : P)
  /-- The machine stops, and `p` runs `initlog` after the restart. -/
  | crash (p : P)

def bufferOf : Call → Option (Fin NBUF)
  | .idle => none
  | .locking i | .loading i | .releasing i => some i

section Step

variable {P : Type*}

/-- The transfer that `p` is about to make. -/
def State.current (s : State P) (p : P) : Option Op :=
  (phaseOf (s.log.pc p)).bind fun phase =>
    (script s.log.log phase)[s.pos p]?

/-- The process runs, and is in no function of `log.c`. -/
def State.isClient (s : State P) (p : P) : Prop :=
  s.log.booted = true ∧ (s.log.pc p = .outside ∨ s.log.pc p = .inside)

instance (s : State P) (p : P) : Decidable (s.isClient p) :=
  inferInstanceAs (Decidable (_ ∧ _))

def State.data (s : State P) (p : P) (r : Fin 2) : Block :=
  (s.cache.buf (s.reg p r)).data

/-- What a step does to the cache. -/
def State.cacheAct (s : State P) : Act P → Option (Cache.Act P Block)
  | .bread p id => some (.bread p id)
  | .modify p i data => some (.modify p i data)
  | .bwrite p i => some (.bwrite p i)
  | .brelse p i => some (.brelse p i)
  | .update p => some (.pin p (s.reg p 0))
  | .acquiresleep p => some (.acquiresleep p)
  | .load p => some (.load p)
  | .release p => some (.release p)
  | .op p =>
      match s.current p with
      | some (.bread _ blockno) => some (.bread p ⟨s.log.log.dev, blockno⟩)
      | some (.memmove dst src) => some (.modify p (s.reg p dst) (s.data p src))
      | some (.fillHead r) =>
          some (.modify p (s.reg p r) (setHead s.log.log.lh (s.data p r)))
      | some (.bwrite r) => some (.bwrite p (s.reg p r))
      | some (.brelse r) => some (.brelse p (s.reg p r))
      | some (.readHead _) | none => none
  | .beginOp _ | .logWrite _ _ | .endOp _ | .crash _ => none

/-- What a step does to the log. -/
def State.logAct (s : State P) : Act P → Option (Logging.Act P)
  | .beginOp p => some (.beginOp p)
  | .logWrite p i => some (.logWrite p (s.cache.buf i).id.blockno)
  | .update p => some (.update p)
  | .endOp p => some (.endOp p)
  | .op p =>
      match s.current p with
      | none => some (.phase p)
      | some (.readHead r) => some (.readHead p (getHead (s.data p r)))
      | _ => none
  | _ => none

/-- When a step can be tried. -/
def State.enabled (s : State P) : Act P → Prop
  | .bread p _ | .modify p _ _ | .bwrite p _ | .brelse p _ => s.isClient p
  | .beginOp p | .endOp p | .op p => s.cache.call p = .idle
  | .logWrite p i => s.cache.call p = .idle ∧ (s.cache.buf i).lock = some p
  | _ => True

instance [DecidableEq P] (s : State P) : ∀ a, Decidable (s.enabled a)
  | .bread p _ | .modify p _ _ | .bwrite p _ | .brelse p _ =>
      inferInstanceAs (Decidable (s.isClient p))
  | .beginOp _ | .endOp _ | .op _ => inferInstanceAs (Decidable (_ = _))
  | .logWrite _ _ => inferInstanceAs (Decidable (_ ∧ _))
  | .update _ | .acquiresleep _ | .load _ | .release _ | .crash _ =>
      .isTrue trivial

variable [DecidableEq P]

/-- The local variables after a step that has led to the log `l` and the cache
`c`. -/
def State.settle (s : State P) (l : Logging.State P)
    (c : Cache.State P Block) : Act P → State P
  | .logWrite p i =>
      { s with
        log := l, cache := c
        reg := Function.update s.reg p (Function.update (s.reg p) 0 i) }
  | .op p =>
      match s.current p with
      | none => { s with log := l, cache := c, pos := Function.update s.pos p 0 }
      | some (.bread r _) =>
          { log := l, cache := c
            reg := Function.update s.reg p
              (Function.update (s.reg p) r
                ((bufferOf (c.call p)).getD (s.reg p r)))
            pos := Function.update s.pos p (s.pos p + 1) }
      | some _ =>
          { s with
            log := l, cache := c
            pos := Function.update s.pos p (s.pos p + 1) }
  | _ => { s with log := l, cache := c }

/-- After a crash the disk is what it was, the memory is that of a machine that
has just started, and `p` is in `recover_from_log`. -/
def State.restart (s : State P) (p : P) : State P where
  log :=
    { log := { s.log.log with outstanding := 0, committing := false, lh := [] }
      booted := false
      pc := Function.update (fun _ => .outside) p (.recovering .readHead) }
  cache := binit (fun _ => 0) s.cache.disk
  reg := fun _ _ => ⟨0, NBUF_pos⟩
  pos := fun _ => 0

def step (s : State P) (a : Act P) : Outcome (State P) :=
  match a with
  | .crash p => .next (s.restart p)
  | _ =>
      if s.enabled a then
        (stepOption Logging.step s.log (s.logAct a)).bind fun l =>
          (stepOption Cache.step s.cache (s.cacheAct a)).map fun c =>
            s.settle l c a
      else .blocked

end Step

end ZtlOs.Transactions
