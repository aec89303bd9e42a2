import ZtlOs.Kernel.Reading

/-!
# What every function does with locks and references

Each function turns what the caller holds into what it holds afterwards, on
every path that does not panic.  Only inside a transaction may blocks be
allocated, so reading a file outside of one needs a file without holes.
-/

namespace ZtlOs.Kernel

open ZtlOs.Support ZtlOs.Support.Program ZtlOs.Fs

variable {P : Type} {k : Ctx P}

/-! ## Buffers and the log -/

theorem bread_moves (b : ℕ) : Moves Holds k (bread b) fun _ => k.buf b := by
  apply Moves.bind_get
  intro s hs
  apply Sat.ite
  · intro _
    exact Sat.throw trivial
  · intro _
    refine .bind (Sat.set (Sat.pure ?_))
    exact {
      mon := mon_cons hs.mon rfl
      bufs := congrArg _ hs.bufs
      locked := hs.locked
      nodup := hs.nodup
      ref := hs.ref
      ftable := hs.ftable
      ofile := hs.ofile
      cwd := hs.cwd
      free := hs.free }

theorem brelse_moves (b : ℕ) : Moves Holds (k.buf b) (brelse b) fun _ => k := by
  apply Moves.modify
  intro s hs
  have herase : (k.buf b).bufs.erase b = k.bufs := List.erase_cons_head ..
  have hmem : b ∈ (k.buf b).bufs := List.mem_cons_self
  exact {
    mon := mon_cons hs.mon ((if_pos hmem).trans (by rw [herase]; rfl))
    bufs := by
      change s.bufs.erase b = k.bufs
      rw [hs.bufs, herase]
    locked := hs.locked
    nodup := hs.nodup
    ref := hs.ref
    ftable := hs.ftable
    ofile := hs.ofile
    cwd := hs.cwd
    free := hs.free }

theorem logWrite_moves (b : ℕ) (data : Block) (hop : k.op = true) :
    Moves Holds (k.buf b) (logWrite b data) fun _ => k.buf b := by
  apply Moves.modify
  intro s hs
  have hb : b ∈ (k.buf b).bufs := List.mem_cons_self
  exact (hs.setDisk b data).emit (if_pos ⟨hop, hb⟩) rfl rfl

theorem beginOp_moves (hk : k.toMon = .idle) :
    Moves Holds k beginOp fun _ => k.inOp := by
  apply Moves.modify
  intro s hs
  refine hs.emit ?_ rfl rfl
  rw [hk]
  rfl

theorem endOp_moves (hk : k.toMon = .idle) :
    Moves Holds k.inOp endOp fun _ => k := by
  apply Moves.modify
  intro s hs
  refine hs.emit ?_ rfl rfl
  rw [Ctx.inOp, hk]
  rfl

theorem receive_moves : Moves Holds k (receive (P := P)) fun _ => k := by
  apply Moves.bind_get
  intro s hs
  split
  · exact Sat.pure hs
  · refine .bind (Sat.set (Sat.pure ?_))
    exact hs.congr rfl rfl (fun _ => rfl) (fun _ => rfl) rfl rfl rfl

/-! ## Blocks -/

theorem readsb_moves : Moves Holds k (readsb (P := P)) fun _ => k := by
  apply (bread_moves 1).bind
  intro bp
  apply Moves.bind
  · apply Moves.modify (l := k.buf 1)
    intro s hs
    exact hs.congr rfl rfl (fun _ => rfl) (fun _ => rfl) rfl rfl rfl
  · intro _
    exact brelse_moves 1

theorem bzero_moves (bno : ℕ) (hop : k.op = true) :
    Moves Holds k (bzero bno) fun _ => k := by
  apply (bread_moves bno).bind
  intro bp
  apply (logWrite_moves bno _ hop).bind
  intro _
  exact brelse_moves bno

theorem ballocLoop_moves (hop : k.op = true) (n b : ℕ) :
    Moves Holds k (ballocLoop n b) fun _ => k := by
  induction n generalizing b with
  | zero => exact Moves.throw _
  | succ n ih =>
      apply Moves.bind Moves.get
      intro s
      apply (bread_moves _).bind
      intro bp
      split
      · next bi _ =>
          apply (logWrite_moves _ _ hop).bind
          intro _
          apply (brelse_moves _).bind
          intro _
          apply (bzero_moves _ hop).bind
          intro _
          exact Moves.pure rfl
      · apply (brelse_moves _).bind
        intro _
        exact ih _

theorem balloc_moves (hop : k.op = true) :
    Moves Holds k (balloc (P := P)) fun _ => k := by
  apply Moves.bind Moves.get
  intro s
  exact ballocLoop_moves hop _ _

theorem bfree_moves (b : ℕ) (hop : k.op = true) :
    Moves Holds k (bfree b) fun _ => k := by
  apply readsb_moves.bind
  intro _
  apply Moves.bind Moves.get
  intro s
  apply (bread_moves _).bind
  intro bp
  apply Moves.ite
  · intro _
    exact Moves.throw _
  · intro _
    apply (logWrite_moves _ _ hop).bind
    intro _
    exact brelse_moves _

/-! ## Inodes -/

theorem iget_moves (inum : ℕ) :
    Moves Holds k (iget inum) fun c => k.hold c := by
  apply Moves.bind_get
  intro s hs
  split
  · next c _ =>
      refine .bind (Sat.set (Sat.pure ?_))
      exact hs.hold rfl rfl
  · split
    · exact Sat.throw trivial
    · next c hfind =>
        have hfound := List.find?_some hfind
        have href : (s.icache c).ref = 0 := of_decide_eq_true hfound
        refine .bind (Sat.set (Sat.pure ?_))
        exact hs.hold rfl (by rw [href])

theorem iallocLoop_moves (type : BitVec 16) (hop : k.op = true) (n inum : ℕ) :
    Moves Holds k (iallocLoop type n inum) fun c => k.hold c := by
  induction n generalizing inum with
  | zero => exact Moves.throw _
  | succ n ih =>
      apply Moves.bind Moves.get
      intro s
      apply (bread_moves _).bind
      intro bp
      apply Moves.ite
      · intro _
        apply (logWrite_moves _ _ hop).bind
        intro _
        apply (brelse_moves _).bind
        intro _
        exact iget_moves inum
      · intro _
        apply (brelse_moves _).bind
        intro _
        exact ih _

theorem ialloc_moves (type : BitVec 16) (hop : k.op = true) :
    Moves Holds k (ialloc type) fun c => k.hold c := by
  apply Moves.bind Moves.get
  intro s
  exact iallocLoop_moves type hop _ _

theorem iupdate_moves (ip : Slot) (hop : k.op = true) :
    Moves Holds k (iupdate ip) fun _ => k := by
  apply Moves.bind Moves.get
  intro s
  apply (bread_moves _).bind
  intro bp
  apply (logWrite_moves _ _ hop).bind
  intro _
  exact brelse_moves _

theorem idup_moves (ip : Slot) :
    Moves Holds k (idup ip) fun c => k.hold c := by
  apply Moves.bind (m := fun _ => k.hold ip)
  · apply Moves.modify
    intro s hs
    exact hs.hold rfl rfl
  · intro _
    exact Moves.pure rfl

theorem ilock_moves (ip : Slot) :
    Moves Holds k (ilock ip) fun _ => k.lock ip := by
  apply Moves.bind_get
  intro s hs
  apply Sat.ite
  · intro _
    exact Sat.throw trivial
  · intro _
    apply Sat.ite
    · intro _
      exact Sat.throw trivial
    · intro hfree
      refine .bind (Sat.set ?_)
      have hlock := hs.lock (Bool.eq_false_of_not_eq_true hfree)
      apply Sat.ite
      · intro _
        exact Sat.pure hlock
      · intro _
        refine Moves.sat ?_ _ hlock
        apply (bread_moves _).bind
        intro bp
        apply Moves.bind (Moves.modify fun s hs => hs.setDin _)
        intro _
        apply (brelse_moves _).bind
        intro _
        apply Moves.bind (Moves.modify fun s hs => hs.setInode rfl rfl)
        intro _
        apply Moves.ite
        · intro _
          exact Moves.throw _
        · intro _
          exact Moves.pure rfl

theorem iunlock_moves (ip : Slot) :
    Moves Holds (k.lock ip) (iunlock ip) fun _ => k := by
  apply Moves.bind_get
  intro s hs
  apply Sat.ite
  · intro _
    exact Sat.throw trivial
  · intro _
    exact Sat.set hs.unlock

theorem getDin_moves (ip : Slot) : Moves Holds k (getDin ip) fun _ => k := by
  apply Moves.bind Moves.get
  intro s
  exact Moves.pure rfl

theorem setDin_moves (ip : Slot) (d : Dinode) :
    Moves Holds k (setDin ip d) fun _ => k := by
  apply Moves.modify
  intro s hs
  exact hs.setDin d

/-! ## Inode content -/

theorem indirectBlock_moves (ip : Slot) (d : Dinode) (hop : k.op = true) :
    Moves Holds k (indirectBlock ip d) fun _ => k := by
  apply Moves.ite
  · intro _
    apply (balloc_moves hop).bind
    intro addr
    apply (getDin_moves ip).bind
    intro d
    apply (setDin_moves ip _).bind
    intro _
    exact Moves.pure rfl
  · intro _
    exact Moves.pure rfl

theorem bmap_moves (ip : Slot) (bn : ℕ) (hop : k.op = true) :
    Moves Holds k (bmap ip bn) fun _ => k := by
  apply (getDin_moves ip).bind
  intro d
  apply Moves.ite
  · intro _
    apply Moves.ite
    · intro _
      apply (balloc_moves hop).bind
      intro addr
      apply (getDin_moves ip).bind
      intro d
      apply (setDin_moves ip _).bind
      intro _
      exact Moves.pure rfl
    · intro _
      exact Moves.pure rfl
  · intro _
    apply Moves.ite
    · intro _
      apply (indirectBlock_moves ip d hop).bind
      intro ind
      apply (bread_moves ind).bind
      intro a
      apply Moves.ite
      · intro _
        apply (balloc_moves (k := k.buf ind) hop).bind
        intro addr
        apply (logWrite_moves ind _ hop).bind
        intro _
        apply (brelse_moves ind).bind
        intro _
        exact Moves.pure rfl
      · intro _
        apply (brelse_moves ind).bind
        intro _
        exact Moves.pure rfl
    · intro _
      exact Moves.throw _

theorem itruncDirect_moves (ip : Slot) (hop : k.op = true)
    (ks : List (Fin (NDIRECT + 1))) :
    Moves Holds k (itruncDirect ip ks) fun _ => k := by
  induction ks with
  | nil => exact Moves.pure rfl
  | cons j js ih =>
      apply (getDin_moves ip).bind
      intro d
      apply Moves.ite
      · intro _
        exact ih
      · intro _
        apply (bfree_moves _ hop).bind
        intro _
        apply (getDin_moves ip).bind
        intro d
        apply (setDin_moves ip _).bind
        intro _
        exact ih

theorem itruncEntries_moves (a : Block) (hop : k.op = true) (js : List ℕ) :
    Moves Holds k (itruncEntries a js) fun _ => k := by
  induction js with
  | nil => exact Moves.pure rfl
  | cons j js ih =>
      apply Moves.ite
      · intro _
        exact ih
      · intro _
        apply (bfree_moves _ hop).bind
        intro _
        exact ih

theorem itruncIndirect_moves (ip : Slot) (hop : k.op = true) :
    Moves Holds k (itruncIndirect ip) fun _ => k := by
  apply (getDin_moves ip).bind
  intro d
  apply Moves.ite
  · intro _
    exact Moves.pure rfl
  · intro _
    apply (bread_moves _).bind
    intro a
    apply (itruncEntries_moves (k := k.buf _) a hop _).bind
    intro _
    apply (brelse_moves _).bind
    intro _
    apply (bfree_moves _ hop).bind
    intro _
    apply (getDin_moves ip).bind
    intro d
    exact setDin_moves ip _

theorem itrunc_moves (ip : Slot) (hop : k.op = true) :
    Moves Holds k (itrunc ip) fun _ => k := by
  apply (itruncDirect_moves ip hop _).bind
  intro _
  apply (itruncIndirect_moves ip hop).bind
  intro _
  apply (getDin_moves ip).bind
  intro d
  apply (setDin_moves ip _).bind
  intro _
  exact iupdate_moves ip hop

theorem iputFree_moves (ip : Slot) (hop : k.op = true) :
    Moves Holds k (iputFree ip) fun _ => k := by
  apply (itrunc_moves ip hop).bind
  intro _
  apply (getDin_moves ip).bind
  intro d
  apply (setDin_moves ip _).bind
  intro _
  apply (iupdate_moves ip hop).bind
  intro _
  apply Moves.modify
  intro s hs
  exact hs.setInode rfl rfl

theorem iput_moves (ip : Slot) (hop : k.op = true) :
    Moves Holds (k.hold ip) (iput ip) fun _ => k := by
  apply Moves.bind (m := fun _ => k.hold ip)
  · apply Moves.modify
    intro s hs
    exact hs.emit (if_pos hop) rfl rfl
  intro _
  apply Moves.bind Moves.get
  intro s
  apply Moves.bind (m := fun _ => k.hold ip)
  · apply Moves.ite
    · intro _
      exact iputFree_moves (k := k.hold ip) ip hop
    · intro _
      exact Moves.pure rfl
  · intro _
    apply Moves.modify
    intro s hs
    exact hs.drop rfl rfl

theorem iunlockput_moves (ip : Slot) (hop : k.op = true) :
    Moves Holds ((k.hold ip).lock ip) (iunlockput ip) fun _ => k := by
  apply (iunlock_moves ip).bind
  intro _
  exact iput_moves ip hop

theorem consoleread_moves (ip : Slot) (n : ℕ) :
    Moves Holds (k.lock ip) (consoleread ip n) fun _ => k.lock ip := by
  apply (iunlock_moves ip).bind
  intro _
  apply Moves.bind (m := fun _ => k)
  · apply Moves.ite
    · intro _
      exact receive_moves
    · intro _
      exact Moves.pure rfl
  · intro r
    apply (ilock_moves ip).bind
    intro _
    exact Moves.pure rfl

theorem consolewrite_moves (ip : Slot) (src : Bytes) :
    Moves Holds (k.lock ip) (consolewrite ip src) fun _ => k.lock ip := by
  apply (iunlock_moves ip).bind
  intro _
  apply (ilock_moves ip).bind
  intro _
  exact Moves.pure rfl

theorem readLoop_moves (ip : Slot) (hop : k.op = true) (fuel off n : ℕ) :
    Moves Holds k (readLoop ip fuel off n) fun _ => k := by
  induction fuel generalizing off n with
  | zero => exact Moves.pure rfl
  | succ fuel ih =>
      apply Moves.ite
      · intro _
        exact Moves.pure rfl
      · intro _
        apply (bmap_moves ip _ hop).bind
        intro b
        apply (bread_moves b).bind
        intro bp
        apply (brelse_moves b).bind
        intro _
        apply (ih _ _).bind
        intro rest
        exact Moves.pure rfl

theorem readi_moves (ip : Slot) (off n : ℕ) (hop : k.op = true) :
    Moves Holds (k.lock ip) (readi ip off n) fun _ => k.lock ip := by
  apply (getDin_moves ip).bind
  intro d
  apply Moves.ite
  · intro _
    apply Moves.ite
    · intro _
      exact consoleread_moves ip n
    · intro _
      exact Moves.pure rfl
  · intro _
    apply Moves.ite
    · intro _
      exact Moves.pure rfl
    · intro _
      apply (readLoop_moves (k := k.lock ip) ip hop _ _ _).bind
      intro bytes
      exact Moves.pure rfl

theorem writeLoop_moves (ip : Slot) (hop : k.op = true) (fuel off : ℕ)
    (src : Bytes) : Moves Holds k (writeLoop ip fuel off src) fun _ => k := by
  induction fuel generalizing off src with
  | zero => exact Moves.pure rfl
  | succ fuel ih =>
      apply Moves.ite
      · intro _
        exact Moves.pure rfl
      · intro _
        apply (bmap_moves ip _ hop).bind
        intro b
        apply (bread_moves b).bind
        intro bp
        apply (logWrite_moves b _ hop).bind
        intro _
        apply (brelse_moves b).bind
        intro _
        exact ih _ _

theorem writei_moves (ip : Slot) (src : Bytes) (off : ℕ) (hop : k.op = true) :
    Moves Holds (k.lock ip) (writei ip src off) fun _ => k.lock ip := by
  apply (getDin_moves ip).bind
  intro d
  apply Moves.ite
  · intro _
    apply Moves.ite
    · intro _
      exact consolewrite_moves ip src
    · intro _
      exact Moves.pure rfl
  · intro _
    apply Moves.ite
    · intro _
      exact Moves.pure rfl
    · intro _
      apply Moves.ite
      · intro _
        exact Moves.pure rfl
      · intro _
        apply (writeLoop_moves (k := k.lock ip) ip hop _ _ _).bind
        intro off
        apply (getDin_moves ip).bind
        intro d
        apply Moves.ite
        · intro _
          apply (setDin_moves ip _).bind
          intro _
          apply (iupdate_moves (k := k.lock ip) ip hop).bind
          intro _
          exact Moves.pure rfl
        · intro _
          exact Moves.pure rfl

/-! ## Directories and paths -/

theorem readDirent_moves (message : String) (dp : Slot) (off : ℕ)
    (hop : k.op = true) :
    Moves Holds (k.lock dp) (readDirent message dp off)
      fun _ => k.lock dp := by
  apply (readi_moves dp off _ hop).bind
  intro r
  split
  · exact Moves.throw _
  · apply Moves.ite
    · intro _
      exact Moves.pure rfl
    · intro _
      exact Moves.throw _

theorem dirlookupLoop_moves (dp : Slot) (name : Bytes) (hop : k.op = true)
    (offs : List ℕ) :
    Moves Holds (k.lock dp) (dirlookupLoop dp name offs)
      fun r => (k.lock dp).holds (r.map Prod.fst) := by
  induction offs with
  | nil => exact Moves.pure rfl
  | cons off offs ih =>
      apply (readDirent_moves _ dp off hop).bind
      intro de
      apply Moves.ite
      · intro _
        exact ih
      · intro _
        apply Moves.ite
        · intro _
          apply (iget_moves _).bind
          intro ip
          exact Moves.pure rfl
        · intro _
          exact ih

theorem dirlookup_moves (dp : Slot) (name : Bytes) (hop : k.op = true) :
    Moves Holds (k.lock dp) (dirlookup dp name)
      fun r => (k.lock dp).holds (r.map Prod.fst) := by
  apply (getDin_moves dp).bind
  intro d
  apply Moves.ite
  · intro _
    exact Moves.throw _
  · intro _
    exact dirlookupLoop_moves dp name hop _

theorem emptyDirent_moves (dp : Slot) (eod : ℕ) (hop : k.op = true)
    (offs : List ℕ) :
    Moves Holds (k.lock dp) (emptyDirent dp eod offs)
      fun _ => k.lock dp := by
  induction offs with
  | nil => exact Moves.pure rfl
  | cons off offs ih =>
      apply (readDirent_moves _ dp off hop).bind
      intro de
      apply Moves.ite
      · intro _
        exact Moves.pure rfl
      · intro _
        exact ih

theorem dirlink_moves (dp : Slot) (name : Bytes) (inum : ℕ)
    (hop : k.op = true) :
    Moves Holds (k.lock dp) (dirlink dp name inum) fun _ => k.lock dp := by
  apply (dirlookup_moves dp name hop).bind
  intro r
  split
  · next ip _ =>
      apply (iput_moves (k := k.lock dp) ip hop).bind
      intro _
      exact Moves.pure rfl
  · apply (getDin_moves dp).bind
    intro d
    apply (emptyDirent_moves dp _ hop _).bind
    intro off
    apply (writei_moves dp _ off hop).bind
    intro r
    apply Moves.ite
    · intro _
      exact Moves.pure rfl
    · intro _
      exact Moves.throw _

theorem namexEnd_moves (parent : Bool) (ip : Slot) (name : Bytes)
    (hop : k.op = true) :
    Moves Holds (k.hold ip) (namexEnd parent ip name)
      fun r => k.holds (r.map Prod.fst) := by
  apply Moves.ite
  · intro _
    apply (iput_moves ip hop).bind
    intro _
    exact Moves.pure rfl
  · intro _
    exact Moves.pure rfl

theorem namexLoop_moves (parent : Bool) (hop : k.op = true) (fuel : ℕ)
    (ip : Slot) (path name : Bytes) :
    Moves Holds (k.hold ip) (namexLoop parent fuel ip path name)
      fun r => k.holds (r.map Prod.fst) := by
  induction fuel generalizing ip path name with
  | zero => exact namexEnd_moves parent ip name hop
  | succ fuel ih =>
      unfold namexLoop
      split
      · exact namexEnd_moves parent ip name hop
      · next name path _ =>
          apply (ilock_moves ip).bind
          intro _
          apply (getDin_moves ip).bind
          intro d
          apply Moves.ite
          · intro _
            apply (iunlockput_moves ip hop).bind
            intro _
            exact Moves.pure rfl
          · intro _
            apply Moves.ite
            · intro _
              apply (iunlock_moves ip).bind
              intro _
              exact Moves.pure rfl
            · intro _
              apply (dirlookup_moves (k := k.hold ip) ip name hop).bind
              intro r
              split
              · apply (iunlockput_moves ip hop).bind
                intro _
                exact Moves.pure rfl
              · next next off =>
                  have hswap : ((k.hold ip).lock ip).hold next =
                      ((k.hold next).hold ip).lock ip := by
                    rw [← Ctx.hold_lock, Ctx.hold_comm]
                  change Moves Holds (((k.hold ip).lock ip).hold next) _ _
                  rw [hswap]
                  apply (iunlockput_moves (k := k.hold next) ip hop).bind
                  intro _
                  exact ih _ _ _

theorem namex_moves (p : P) (path : Bytes) (parent : Bool)
    (hop : k.op = true) :
    Moves Holds k (namex p path parent)
      fun r => k.holds (r.map Prod.fst) := by
  apply Moves.bind (m := fun ip => k.hold ip)
  · apply Moves.ite
    · intro _
      exact iget_moves _
    · intro _
      apply Moves.bind Moves.get
      intro s
      exact idup_moves _
  · intro ip
    exact namexLoop_moves parent hop _ ip path _

theorem namei_moves (p : P) (path : Bytes) (hop : k.op = true) :
    Moves Holds k (namei p path) fun r => k.holds r := by
  apply (namex_moves p path false hop).bind
  intro r
  exact Moves.pure rfl

theorem nameiparent_moves (p : P) (path : Bytes) (hop : k.op = true) :
    Moves Holds k (nameiparent p path)
      fun r => k.holds (r.map Prod.fst) :=
  namex_moves p path true hop

/-! ## Whole calls -/

/-- From `k`, the program returns with nothing held. -/
structure Settles [Fintype P] (k : Ctx P) {α : Type} (x : M P α) : Prop where
  sat : ∀ s, Holds s k →
    Sat x s (fun _ t => ∃ k' : Ctx P, k'.Idle ∧ Holds t k') fun _ => True

namespace Settles

variable [Fintype P] {α β : Type} {x y : M P α} {f : α → M P β}

protected theorem pure (hk : k.Idle) (a : α) :
    Settles k (pure a : M P α) :=
  ⟨fun _ hs => Sat.pure ⟨k, hk, hs⟩⟩

protected theorem throw (e : Stop) : Settles k (throw e : M P α) :=
  ⟨fun _ _ => Sat.throw trivial⟩

theorem of_moves {k' : α → Ctx P} (h : Moves Holds k x k')
    (hk' : ∀ a, (k' a).Idle) : Settles k x :=
  ⟨fun s hs => (h.sat s hs).imp fun a _ ht => ⟨k' a, hk' a, ht⟩⟩

protected theorem bind {m : α → Ctx P} (hx : Moves Holds k x m)
    (hf : ∀ a, Settles (m a) (f a)) : Settles k (x >>= f) :=
  ⟨fun s hs => (hx.sat s hs).andThen fun a t ht => (hf a).sat t ht⟩

/-- Two parts of a call with nothing held in between. -/
theorem andThen (hx : Settles k x)
    (hf : ∀ k' : Ctx P, k'.Idle → ∀ a, Settles k' (f a)) :
    Settles k (x >>= f) :=
  ⟨fun s hs => (hx.sat s hs).andThen fun a t ht => by
    obtain ⟨k', hk', ht⟩ := ht
    exact (hf k' hk' a).sat t ht⟩

protected theorem ite {c : Prop} [Decidable c] (hx : c → Settles k x)
    (hy : ¬c → Settles k y) : Settles k (if c then x else y) := by
  split
  · next hc => exact hx hc
  · next hc => exact hy hc

end Settles

section File

variable [Fintype P]

/-- The call gives back what it holds and ends the transaction. -/
theorem endOp_settles {α : Type} (hk : k.Idle) (a : α) :
    Settles k.inOp (do
      endOp
      pure a) := by
  apply Settles.bind (endOp_moves hk.mon)
  intro _
  exact Settles.pure hk a

theorem Ctx.Idle.setFile (hk : k.Idle) {f : FileSlot} {v : File}
    (h : ∀ ip, v.refersTo ip ↔ (k.ftable f).refersTo ip) :
    (k.setFile f v).Idle where
  mon := hk.mon
  refs := fun ip => by
    rw [Ctx.setFile, stored_update_file (h ip)]
    exact hk.refs ip

theorem Ctx.Idle.setOfile [DecidableEq P] (hk : k.Idle) (p : P)
    (fd : Fin NOFILE) (f : Option FileSlot) : (k.setOfile p fd f).Idle where
  mon := hk.mon
  refs := hk.refs

omit [Fintype P] in
/-- A change of a file in the table. -/
theorem setFile_moves (f : FileSlot) (g : File → File)
    (hg : 0 < (g (k.ftable f)).ref) :
    Moves Holds k (modify fun s => s.setFile f (g (s.ftable f)) : M P Unit)
      fun _ => k.setFile f (g (k.ftable f)) := by
  apply Moves.modify
  intro s hs
  rw [hs.ftable]
  exact hs.setFile fun hzero => absurd hzero (by omega)

omit [Fintype P] in
/-- `filealloc` takes a free file, which has no type. -/
theorem filealloc_sat {s : State P} (hs : Holds s k) :
    Sat (filealloc (P := P)) s (fun r t => match r with
      | none => Holds t k
      | some f => (k.ftable f).ref = 0 ∧ (k.ftable f).type = .none ∧
          Holds t (k.setFile f { k.ftable f with ref := 1 }))
      fun _ => True := by
  refine .bind (Sat.get ?_)
  split
  · exact Sat.pure hs
  · next f hfind =>
      have hfound := List.find?_some hfind
      have href : (s.ftable f).ref = 0 := of_decide_eq_true hfound
      refine .bind (Sat.set (Sat.pure ?_))
      rw [hs.ftable] at href ⊢
      exact ⟨href, hs.free f href, hs.setFile fun hzero =>
        absurd (show (1 : ℕ) = 0 from hzero) Nat.one_ne_zero⟩

omit [Fintype P] in
/-- Closing a file that has not been opened takes the allocation back. -/
theorem fileclose_unused (f : FileSlot) (href : (k.ftable f).ref = 0)
    (htype : (k.ftable f).type = .none) :
    Moves Holds (k.setFile f { k.ftable f with ref := 1 }) (fileclose f)
      fun _ => k := by
  apply Moves.bind_get
  intro s hs
  have hfile : s.ftable f = { k.ftable f with ref := 1 } := by
    rw [hs.ftable, Ctx.setFile_ftable_self]
  rw [hfile]
  apply Sat.ite
  · intro _
    exact Sat.throw trivial
  · intro _
    apply Sat.ite
    · intro hlt
      exact absurd hlt (lt_irrefl 0)
    · intro _
      refine .bind (Sat.set ?_)
      simp only [htype, reduceCtorEq, if_false]
      have hback : k = (k.setFile f { k.ftable f with ref := 1 }).setFile f
          { k.ftable f with ref := 0, type := .none } := by
        have hself : k.ftable f =
            { k.ftable f with ref := 0, type := .none } := by
          cases hf : k.ftable f with
          | mk type ref readable writable ip off =>
              rw [hf] at href htype
              simp only at href htype
              rw [href, htype]
        rw [Ctx.setFile, Ctx.setFile, Function.update_idem, ← hself,
          Function.update_eq_self]
      have hset := hs.setFile (f := f)
        (v := { k.ftable f with ref := 0, type := .none }) fun _ => rfl
      rw [← hback] at hset
      exact Sat.pure hset

/-- What the caller holds after the reference of a file has been taken out. -/
def Ctx.closed (k : Ctx P) (f : FileSlot) : Ctx P :=
  { k.setFile f { k.ftable f with ref := 0, type := .none } with
    refs := k.refs.erase (k.ftable f).ip }

theorem Ctx.Idle.hold_closed (hk : k.Idle) {f : FileSlot}
    (hopen : (k.ftable f).refersTo (k.ftable f).ip) :
    (k.closed f).Idle ∧
      k.setFile f { k.ftable f with ref := 0, type := .none } =
        (k.closed f).hold (k.ftable f).ip := by
  have hclosed : ∀ ip, ¬File.refersTo
      { k.ftable f with ref := 0, type := .none } ip :=
    fun ip h => lt_irrefl 0 h.1
  have hstored := stored_close k.cwd hopen hclosed
  have hmem : (k.ftable f).ip ∈ k.refs := by
    have := hstored (k.ftable f).ip
    rw [← hk.refs, Multiset.count_singleton_self] at this
    rw [← Multiset.one_le_count_iff_mem]
    omega
  refine ⟨⟨hk.mon, fun ip => ?_⟩, ?_⟩
  · have := hstored ip
    rw [← hk.refs, ← Multiset.cons_erase hmem, ← Multiset.singleton_add,
      Multiset.count_add] at this
    change Multiset.count ip (k.refs.erase (k.ftable f).ip) =
      stored (Function.update k.ftable f _) k.cwd ip
    omega
  · simp only [Ctx.closed, Ctx.hold, Ctx.setFile, Multiset.cons_erase hmem]

/-- Closing a file drops what it refers to. -/
theorem fileclose_settles (f : FileSlot) (hk : k.Idle) :
    Settles k (fileclose f) := by
  refine ⟨fun s hs => .bind (Sat.get ?_)⟩
  rw [hs.ftable]
  apply Sat.ite
  · intro _
    exact Sat.throw trivial
  · intro hpos
    apply Sat.ite
    · intro hlt
      refine Sat.set ⟨_, hk.setFile fun ip => ?_, hs.setFile fun hzero => ?_⟩
      · exact and_congr_left' ⟨fun _ => by omega, fun _ => hlt⟩
      · exact absurd (show (k.ftable f).ref - 1 = 0 from hzero) (by omega)
    · intro _
      refine .bind (Sat.set ?_)
      have hclosed : ∀ ip, ¬File.refersTo
          { k.ftable f with ref := 0, type := .none } ip :=
        fun ip h => lt_irrefl 0 h.1
      have hset := hs.setFile (f := f)
        (v := { k.ftable f with ref := 0, type := .none }) fun _ => rfl
      apply Sat.ite
      · intro hinode
        obtain ⟨hidle, heq⟩ := hk.hold_closed (f := f)
          ⟨by omega, hinode, rfl⟩
        rw [heq] at hset
        refine Settles.sat ?_ _ hset
        apply Settles.bind (beginOp_moves (k := (k.closed f).hold _)
          hidle.mon)
        intro _
        apply Settles.bind (iput_moves (k := (k.closed f).inOp) _ rfl)
        intro _
        exact Settles.of_moves (endOp_moves hidle.mon) fun _ => hidle
      · intro hother
        refine Sat.pure ⟨_, hk.setFile fun ip => ?_, hset⟩
        exact iff_of_false (hclosed ip) fun h => hother h.2.1

theorem filestat_settles (f : FileSlot) (hk : k.Idle) :
    Settles k (filestat f : M P _) := by
  apply Settles.bind Moves.get
  intro s
  apply Settles.ite
  · intro _
    apply Settles.bind (ilock_moves _)
    intro _
    apply Settles.bind (m := fun _ => k.lock _)
    · apply Moves.bind Moves.get
      intro _
      exact Moves.pure rfl
    · intro st
      apply Settles.bind (iunlock_moves _)
      intro _
      exact Settles.pure hk _
  · intro _
    exact Settles.pure hk _

omit [Fintype P] in
/-- The offset of a file moves. -/
theorem advance_moves (f : FileSlot) (r : ℕ) :
    Moves Holds k (advance f r) fun _ => k.setFile f
      { k.ftable f with off := ((k.ftable f).off + r) % 2 ^ 32 } := by
  apply Moves.modify
  intro s hs
  rw [hs.ftable]
  exact hs.setFile fun hzero => hs.free f hzero

/-- No open file or directory has an unmapped block below its size. -/
def NoHoles (s : State P) : Prop :=
  ∀ f, 0 < (s.ftable f).ref → (s.ftable f).type = .inode →
    (s.newest (s.ftable f).ip).type ≠ T_DEV →
      Mapped s.disk (s.newest (s.ftable f).ip)

/-- The offset of a file moves by what has been transferred. -/
def Ctx.advance (k : Ctx P) (f : FileSlot) (r : Option ℕ) : Ctx P :=
  match r with
  | none => k
  | some r => k.setFile f
      { k.ftable f with off := ((k.ftable f).off + r) % 2 ^ 32 }

theorem Ctx.Idle.advance (hk : k.Idle) (f : FileSlot) (r : Option ℕ) :
    (k.advance f r).Idle := by
  cases r with
  | none => exact hk
  | some r => exact hk.setFile fun _ => Iff.rfl

omit [Fintype P] in
/-- Reading a locked file needs no transaction if it has no holes. -/
theorem readi_holds {s : State P} {ip : Slot} (off n : ℕ)
    (hs : Holds s (k.lock ip))
    (hmap : (s.icache ip).din.type ≠ T_DEV → Mapped s.disk (s.icache ip).din) :
    Sat (readi ip off n) s (fun _ t => Holds t (k.lock ip))
      fun _ => True := by
  by_cases hdev : (s.icache ip).din.type = T_DEV
  · apply getDin_bind
    rw [if_pos hdev]
    apply Sat.ite
    · intro _
      exact (consoleread_moves ip n).sat s hs
    · intro _
      exact Sat.pure hs
  · exact (readi_mapped rfl hdev (hmap hdev) fun _ => trivial).imp
      fun _ t ht => ht.2.holds hs

theorem fileread_sat {s : State P} (f : FileSlot) (n : ℕ) (hk : k.Idle)
    (hs : Holds s k) (hm : NoHoles s) :
    Sat (fileread f n) s (fun _ t => ∃ k' : Ctx P, k'.Idle ∧ Holds t k')
      fun _ => True := by
  refine .bind (Sat.get ?_)
  apply Sat.ite
  · intro _
    exact Sat.pure ⟨k, hk, hs⟩
  · intro _
    split
    · refine Settles.sat ?_ s hs
      apply Settles.bind receive_moves
      intro r
      exact Settles.pure hk _
    · next htype =>
        have href : 0 < (s.ftable f).ref := by
          by_contra hzero
          have hnone := hs.free f
          rw [← hs.ftable] at hnone
          have := hnone (by omega)
          rw [htype] at this
          cases this
        have hlock := (ilock_sat (s.ftable f).ip (s := s)
          (E := fun _ => True) (fun _ => trivial) (fun _ => trivial)
          (fun _ => trivial) fun _ _ => trivial).and
          ((ilock_moves (s.ftable f).ip).sat s hs)
        refine (hlock.mono (fun _ _ h => h) fun _ _ => trivial).andThen ?_
        rintro _ t ⟨⟨-, ht, -⟩, hholds⟩
        have hdisk : t.disk = s.disk := by rw [ht]; rfl
        have hdin : (t.icache (s.ftable f).ip).din =
            s.newest (s.ftable f).ip := by
          rw [ht]
          simp [State.setInode, State.lockedInode]
        have hread := readi_holds (s.ftable f).off n hholds (by
          rw [hdisk, hdin]
          exact hm f href htype)
        refine hread.andThen fun r u hu => Settles.sat ?_ u hu
        apply Settles.bind (m := fun _ =>
          (k.lock (s.ftable f).ip).advance f (r.map List.length))
        · cases r with
          | none => exact Moves.pure rfl
          | some bytes => exact advance_moves f bytes.length
        · intro _
          have hswap : (k.lock (s.ftable f).ip).advance f
              (r.map List.length) =
              (k.advance f (r.map List.length)).lock (s.ftable f).ip := by
            cases r <;> rfl
          rw [hswap]
          apply Settles.bind (iunlock_moves _)
          intro _
          exact Settles.pure (hk.advance f _) r
    · exact Sat.throw trivial

theorem filewriteLoop_settles (f : FileSlot) (hk : k.Idle) (fuel : ℕ)
    (addr : Bytes) : Settles k (filewriteLoop f fuel addr) := by
  induction fuel generalizing k addr with
  | zero => exact Settles.pure hk true
  | succ fuel ih =>
      apply Settles.ite
      · intro _
        exact Settles.pure hk true
      · intro _
        apply Settles.bind (beginOp_moves hk.mon)
        intro _
        apply Settles.bind Moves.get
        intro s
        apply Settles.bind (ilock_moves _)
        intro _
        apply Settles.bind (writei_moves (k := k.inOp) _ _ _ rfl)
        intro r
        apply Settles.bind (m := fun _ =>
          ((k.advance f r).inOp).lock (s.ftable f).ip)
        · cases r with
          | none => exact Moves.pure rfl
          | some r => exact advance_moves f r
        intro _
        apply Settles.bind (iunlock_moves _)
        intro _
        have hidle := hk.advance f r
        apply Settles.bind (endOp_moves hidle.mon)
        intro _
        split
        · exact Settles.pure hidle false
        · apply Settles.ite
          · intro _
            exact Settles.throw _
          · intro _
            exact ih hidle _

theorem filewrite_settles (f : FileSlot) (addr : Bytes) (hk : k.Idle) :
    Settles k (filewrite f addr) := by
  apply Settles.bind Moves.get
  intro s
  apply Settles.ite
  · intro _
    exact Settles.pure hk _
  · intro _
    split
    · apply Settles.bind receive_moves
      intro r
      exact Settles.pure hk _
    · apply (filewriteLoop_settles f hk _ _).andThen
      intro k' hk' ok
      apply Settles.ite
      · intro _
        exact Settles.pure hk' _
      · intro _
        exact Settles.pure hk' _
    · exact Settles.throw _

end File

end ZtlOs.Kernel
