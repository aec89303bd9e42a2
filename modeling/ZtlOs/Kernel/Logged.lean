import ZtlOs.Kernel.Writing

/-!
# Blocks passed to log_write

What the trace says about the blocks that a transaction passes to `log_write`.
A block that is passed again counts once.
-/

namespace ZtlOs.Kernel

open ZtlOs.Support ZtlOs.Support.Program ZtlOs.Fs

variable {P : Type} {s t : State P}

/-! ## Transactions -/

/-- The blocks passed to `log_write` between `begin_op` and `end_op`, for every
transaction that has ended, the newest first. -/
def brackets : List Event → List (Finset ℕ)
  | [] => []
  | .endOp :: tr => logged tr :: brackets tr
  | _ :: tr => brackets tr

/-- No transaction has passed more blocks to `log_write` than `begin_op`
reserves. -/
def Fits (tr : List Event) : Prop :=
  ∀ B ∈ brackets tr, B.card ≤ MAXOPBLOCKS

instance (tr : List Event) : Decidable (Fits tr) :=
  inferInstanceAs (Decidable (∀ B ∈ brackets tr, B.card ≤ MAXOPBLOCKS))

/-- The blocks passed to `log_write` in the current transaction. -/
abbrev State.logs (s : State P) : Finset ℕ :=
  logged s.trace

abbrev State.brackets (s : State P) : List (Finset ℕ) :=
  Kernel.brackets s.trace

/-- What the log has been told. -/
def State.logging (s : State P) : Finset ℕ × List (Finset ℕ) :=
  (s.logs, s.brackets)

theorem State.logging_eq : t.logging = s.logging ↔
    t.logs = s.logs ∧ t.brackets = s.brackets :=
  Prod.mk_inj

/-! ### Steps between begin_op and end_op -/

theorem bread_brackets (b : ℕ) : Keeps State.brackets (bread (P := P) b) := by
  apply Keeps.bind_get
  intro s
  apply Sat.ite
  · intro _
    exact Sat.throw trivial
  · intro _
    exact .bind (Sat.set (Sat.pure rfl))

theorem brelse_brackets (b : ℕ) :
    Keeps State.brackets (brelse (P := P) b) :=
  Keeps.modify fun _ => rfl

theorem logWrite_brackets (b : ℕ) (data : Block) :
    Keeps State.brackets (logWrite (P := P) b data) :=
  Keeps.modify fun _ => rfl

theorem bzero_brackets (b : ℕ) : Keeps State.brackets (bzero (P := P) b) := by
  apply (bread_brackets b).bind
  intro _
  apply (logWrite_brackets b _).bind
  intro _
  exact brelse_brackets b

theorem ballocLoop_brackets (n b : ℕ) :
    Keeps State.brackets (ballocLoop (P := P) n b) := by
  induction n generalizing b with
  | zero => exact Keeps.throw _ _
  | succ n ih =>
      apply (Keeps.get _).bind
      intro s
      apply (bread_brackets _).bind
      intro bp
      split
      · apply (logWrite_brackets _ _).bind
        intro _
        apply (brelse_brackets _).bind
        intro _
        apply (bzero_brackets _).bind
        intro _
        exact Keeps.pure _ _
      · apply (brelse_brackets _).bind
        intro _
        exact ih _

theorem balloc_brackets : Keeps State.brackets (balloc (P := P)) := by
  apply (Keeps.get _).bind
  intro s
  exact ballocLoop_brackets _ _

theorem getDin_brackets (ip : Slot) :
    Keeps State.brackets (getDin (P := P) ip) := by
  apply (Keeps.get _).bind
  intro s
  exact Keeps.pure _ _

theorem setDin_brackets (ip : Slot) (d : Dinode) :
    Keeps State.brackets (setDin (P := P) ip d) :=
  Keeps.modify fun _ => rfl

theorem iupdate_brackets (ip : Slot) :
    Keeps State.brackets (iupdate (P := P) ip) := by
  apply (Keeps.get _).bind
  intro s
  apply (bread_brackets _).bind
  intro _
  apply (logWrite_brackets _ _).bind
  intro _
  exact brelse_brackets _

/-- `balloc`, and then the new address is stored. -/
theorem setAddr_brackets (ip : Slot) (j : Fin (NDIRECT + 1)) :
    Keeps (γ := List (Finset ℕ)) State.brackets (do
      let addr ← balloc
      let d ← getDin ip
      setDin ip (d.setAddr j (BitVec.ofNat 32 addr))
      pure addr : M P ℕ) := by
  apply balloc_brackets.bind
  intro addr
  apply (getDin_brackets ip).bind
  intro d
  apply (setDin_brackets ip _).bind
  intro _
  exact Keeps.pure _ _

theorem bmap_brackets (ip : Slot) (bn : ℕ) :
    Keeps State.brackets (bmap (P := P) ip bn) := by
  apply (getDin_brackets ip).bind
  intro d
  apply Keeps.ite
  · intro _
    apply Keeps.ite
    · intro _
      exact setAddr_brackets ip _
    · intro _
      exact Keeps.pure _ _
  · intro _
    apply Keeps.ite
    · intro _
      apply Keeps.bind
      · apply Keeps.ite
        · intro _
          exact setAddr_brackets ip _
        · intro _
          exact Keeps.pure _ _
      · intro ind
        apply (bread_brackets ind).bind
        intro a
        apply Keeps.ite
        · intro _
          apply balloc_brackets.bind
          intro addr
          apply (logWrite_brackets _ _).bind
          intro _
          apply (brelse_brackets _).bind
          intro _
          exact Keeps.pure _ _
        · intro _
          apply (brelse_brackets _).bind
          intro _
          exact Keeps.pure _ _
    · intro _
      exact Keeps.throw _ _

theorem writeLoop_brackets (ip : Slot) (fuel off : ℕ) (src : Bytes) :
    Keeps State.brackets (writeLoop (P := P) ip fuel off src) := by
  induction fuel generalizing off src with
  | zero => exact Keeps.pure _ _
  | succ fuel ih =>
      apply Keeps.ite
      · intro _
        exact Keeps.pure _ _
      · intro _
        apply (bmap_brackets ip _).bind
        intro b
        apply (bread_brackets b).bind
        intro bp
        apply (logWrite_brackets b _).bind
        intro _
        apply (brelse_brackets b).bind
        intro _
        exact ih _ _

/-! ### Steps that log nothing -/

theorem brackets_of_logging {α : Type} {x : M P α}
    (h : Keeps State.logging x) : Keeps State.brackets x :=
  ⟨fun s a t hx => (State.logging_eq.mp (h.eq s a t hx)).2⟩

theorem bread_logging (b : ℕ) : Keeps State.logging (bread (P := P) b) := by
  apply Keeps.bind_get
  intro s
  apply Sat.ite
  · intro _
    exact Sat.throw trivial
  · intro _
    exact .bind (Sat.set (Sat.pure rfl))

theorem ilock_logging (ip : Slot) :
    Keeps State.logging (ilock (P := P) ip) := by
  apply Keeps.bind_get
  intro s
  apply Sat.ite
  · intro _
    exact Sat.throw trivial
  intro _
  apply Sat.ite
  · intro _
    exact Sat.throw trivial
  intro _
  refine .bind (Sat.set ?_)
  apply Sat.ite
  · intro _
    exact Sat.pure rfl
  intro _
  apply bread_bind fun _ => trivial
  refine .bind (Sat.modify ?_)
  apply brelse_bind
  refine .bind (Sat.modify ?_)
  apply Sat.ite
  · intro _
    exact Sat.throw trivial
  · intro _
    exact Sat.pure rfl

theorem iunlock_logging (ip : Slot) :
    Keeps State.logging (iunlock (P := P) ip) := by
  apply Keeps.bind_get
  intro s
  apply Sat.ite
  · intro _
    exact Sat.throw trivial
  · intro _
    exact Sat.set rfl

theorem advance_logging (f : FileSlot) (r : ℕ) :
    Keeps State.logging (advance (P := P) f r) :=
  Keeps.modify fun _ => rfl

theorem writei_brackets (ip : Slot) (src : Bytes) (off : ℕ) :
    Keeps State.brackets (writei (P := P) ip src off) := by
  apply (getDin_brackets ip).bind
  intro d
  apply Keeps.ite
  · intro _
    apply Keeps.ite
    · intro _
      apply (brackets_of_logging (iunlock_logging ip)).bind
      intro _
      apply (brackets_of_logging (ilock_logging ip)).bind
      intro _
      exact Keeps.pure _ _
    · intro _
      exact Keeps.pure _ _
  intro _
  apply Keeps.ite
  · intro _
    exact Keeps.pure _ _
  intro _
  apply Keeps.ite
  · intro _
    exact Keeps.pure _ _
  intro _
  apply (writeLoop_brackets ip _ _ _).bind
  intro off'
  apply (getDin_brackets ip).bind
  intro d'
  apply Keeps.ite
  · intro _
    apply (setDin_brackets ip _).bind
    intro _
    apply (iupdate_brackets ip).bind
    intro _
    exact Keeps.pure _ _
  · intro _
    exact Keeps.pure _ _

/-! ## Blocks -/

/-- With one bitmap block. -/
theorem BBLOCK_of_lt {sb : Superblock} {b : ℕ} (h : b < BPB) :
    BBLOCK b sb = sb.bmapstart := by
  rw [BBLOCK, Nat.div_eq_of_lt h, Nat.zero_add]

theorem bzero_logs (b : ℕ) :
    Sat (bzero b) s (fun _ t => t.logs = insert b s.logs) fun _ => True := by
  apply bread_bind fun _ => trivial
  apply logWrite_bind
  exact Sat.modify rfl

theorem ballocLoop_logs (n b : ℕ) (hsize : s.sb.size ≤ BPB) :
    Sat (ballocLoop n b) s (fun r t =>
      t.logs = insert r (insert s.sb.bmapstart s.logs)) fun _ => True := by
  induction n generalizing s b with
  | zero => exact Sat.throw trivial
  | succ n ih =>
      refine .bind (Sat.get ?_)
      apply bread_bind fun _ => trivial
      split
      · next bi hfirst =>
          rw [firstClear, List.find?_range_eq_some] at hfirst
          have hbi := List.mem_range.mp hfirst.2.1
          rw [BBLOCK_of_lt (show b < BPB by omega)]
          apply logWrite_bind
          apply brelse_bind
          exact (bzero_logs _).andThen fun _ t ht => Sat.pure ht
      · apply brelse_bind
        exact ih (b + BPB) hsize

/-- `balloc` writes the bitmap block and the new block. -/
theorem balloc_logs (hsize : s.sb.size ≤ BPB) :
    Sat balloc s (fun r t =>
      t.logs = insert r (insert s.sb.bmapstart s.logs)) fun _ => True :=
  .bind (Sat.get (ballocLoop_logs _ _ hsize))

/-- `iupdate` writes the block of the inode. -/
theorem iupdate_logs (ip : Slot) :
    Sat (iupdate ip) s (fun _ t =>
      t.logs = insert (IBLOCK (s.icache ip).inum s.sb) s.logs)
      fun _ => True := by
  refine .bind (Sat.get ?_)
  apply bread_bind fun _ => trivial
  apply logWrite_bind
  exact Sat.modify rfl

/-- A new block is put into an address of the inode. -/
theorem setAddr_logs (ip : Slot) (j : Fin (NDIRECT + 1))
    (hsize : s.sb.size ≤ BPB) :
    Sat (do
      let addr ← balloc
      let d ← getDin ip
      setDin ip (d.setAddr j (BitVec.ofNat 32 addr))
      pure addr) s (fun r t =>
        t.logs = insert r (insert s.sb.bmapstart s.logs)) fun _ => True := by
  refine (balloc_logs hsize).andThen fun r t ht => ?_
  apply getDin_bind
  apply setDin_bind
  exact Sat.pure ht

/-- A new entry is put into the indirect block. -/
theorem entry_logs (ind j : ℕ) (hsize : s.sb.size ≤ BPB) :
    Sat (do
      let a ← bread ind
      if a.word (4 * j) = 0 then do
        let addr ← balloc
        logWrite ind (a.setWord (4 * j) (BitVec.ofNat 32 addr))
        brelse ind
        pure addr
      else do
        brelse ind
        pure (a.word (4 * j)).toNat) s (fun r t => t.logs =
          if (s.disk ind).word (4 * j) = 0 then
            insert ind (insert r (insert s.sb.bmapstart s.logs))
          else s.logs) fun _ => True := by
  apply bread_bind fun _ => trivial
  apply Sat.ite
  · intro hzero
    simp only [if_pos hzero]
    have hnew := balloc_logs
      (s := { s.emit (.bread ind) with bufs := ind :: s.bufs }) hsize
    refine hnew.andThen fun r t ht => ?_
    apply logWrite_bind
    apply brelse_bind
    exact Sat.pure (congrArg (insert ind) ht)
  · intro hne
    apply brelse_bind
    exact Sat.pure (if_neg hne).symm

end ZtlOs.Kernel
