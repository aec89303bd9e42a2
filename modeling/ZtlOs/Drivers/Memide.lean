import ZtlOs.Support.Runs
import ZtlOs.Fs.Format

/-!
# The disk in memory

`memide.c`: a disk that serves each request at once.  The contents of a block
are of an arbitrary type.
-/

namespace ZtlOs.Drivers

open ZtlOs.Support ZtlOs.Fs

/-- The part of `struct buf` that the drivers read and write, but for
`qnext`. -/
structure Buf (P D : Type*) where
  dev : BitVec 32
  blockno : BitVec 32
  lock : Option P
  valid : Bool
  dirty : Bool
  data : D

/-- There is nothing to transfer for the buffer. -/
def Buf.clean {P D : Type*} (v : Buf P D) : Bool :=
  v.valid && !v.dirty

/-- What a process that holds a buffer puts into it. -/
structure Contents (D : Type*) where
  dev : BitVec 32
  blockno : BitVec 32
  valid : Bool
  dirty : Bool
  data : D

/-- The calls on buffers. -/
inductive Call (P B D : Type*) where
  | acquiresleep (p : P) (b : B)
  | releasesleep (p : P) (b : B)
  | fill (p : P) (b : B) (c : Contents D)
  | iderw (p : P) (b : B)

section Fill

variable {P D : Type*}

def Buf.fill (v : Buf P D) (c : Contents D) : Buf P D where
  dev := c.dev
  blockno := c.blockno
  lock := v.lock
  valid := c.valid
  dirty := c.dirty
  data := c.data

end Fill

namespace Memide

structure State (P B D : Type*) where
  memdisk : ℕ → D
  buf : B → Buf P D

variable {P B D : Type*} [DecidableEq B]

def State.setBuf (s : State P B D) (b : B) (v : Buf P D) : State P B D :=
  { s with buf := Function.update s.buf b v }

/-- The transfer of `iderw`. -/
def State.transfer (s : State P B D) (b : B) : State P B D :=
  let v := s.buf b
  if v.dirty then
    { s.setBuf b { v with dirty := false, valid := true } with
      memdisk := Function.update s.memdisk v.blockno.toNat v.data }
  else
    s.setBuf b { v with data := s.memdisk v.blockno.toNat, valid := true }

/-- `iderw` of `memide.c`, for a disk of `FSSIZE` blocks. -/
def State.iderw [DecidableEq P] (s : State P B D) (p : P) (b : B) : Outcome (State P B D) :=
  if (s.buf b).lock ≠ some p then
    .panic "iderw: buf not locked"
  else if (s.buf b).clean then
    .panic "iderw: nothing to do"
  else if (s.buf b).dev ≠ 1 then
    .panic "iderw: request not for disk 1"
  else if (s.buf b).blockno.toNat ≥ FSSIZE then
    .panic "iderw: block out of range"
  else
    .next (s.transfer b)

def step [DecidableEq P] (s : State P B D) : Call P B D → Outcome (State P B D)
  | .acquiresleep p b =>
      if (s.buf b).lock = none then
        .next (s.setBuf b { s.buf b with lock := some p })
      else .blocked
  | .releasesleep p b =>
      if (s.buf b).lock = some p then
        .next (s.setBuf b { s.buf b with lock := none })
      else .blocked
  | .fill p b c =>
      if (s.buf b).lock = some p then .next (s.setBuf b ((s.buf b).fill c))
      else .blocked
  | .iderw p b => s.iderw p b

/-! ## A queue of transfers -/

/-- The transfers for the buffers of a queue, in order. -/
def State.transfers (s : State P B D) (q : List B) : State P B D :=
  q.foldl State.transfer s

variable {s : State P B D} {b c : B} {q : List B} {v : Buf P D}

theorem transfers_append :
    s.transfers (q ++ [b]) = (s.transfers q).transfer b := by
  simp [State.transfers]

theorem transfer_buf_of_ne (h : c ≠ b) : (s.transfer b).buf c = s.buf c := by
  simp only [State.transfer]
  split_ifs <;> exact Function.update_of_ne h ..

/-- The buffers outside of the queue stay as they are. -/
theorem transfers_buf_of_not_mem (h : c ∉ q) :
    (s.transfers q).buf c = s.buf c := by
  induction q generalizing s with
  | nil => rfl
  | cons b q ih =>
      obtain ⟨hcb, hcq⟩ := not_or.mp (List.mem_cons.not.mp h)
      exact (ih hcq).trans (transfer_buf_of_ne hcb)

theorem transfer_setBuf (h : c ≠ b) :
    (s.setBuf c v).transfer b = (s.transfer b).setBuf c v := by
  have hb : (s.setBuf c v).buf b = s.buf b := Function.update_of_ne h.symm ..
  simp only [State.transfer, hb]
  split_ifs
  · simp only [State.setBuf]
    rw [Function.update_comm h]
  · simp only [State.setBuf]
    rw [Function.update_comm h]

/-- A change of a buffer outside of the queue does not matter to the
transfers. -/
theorem transfers_setBuf (h : c ∉ q) :
    (s.setBuf c v).transfers q = (s.transfers q).setBuf c v := by
  induction q generalizing s with
  | nil => rfl
  | cons b q ih =>
      obtain ⟨hcb, hcq⟩ := not_or.mp (List.mem_cons.not.mp h)
      simp only [State.transfers, List.foldl_cons] at ih ⊢
      rw [transfer_setBuf hcb]
      exact ih hcq

end Memide

end ZtlOs.Drivers
