import ZtlOs.Kernel.Brackets

/-!
# The system calls

Every call of `sysfile.c` and `exec`, run by a process, gives back the locks
and the references that it does not store, and ends its transaction.
-/

namespace ZtlOs.Kernel

open ZtlOs.Support ZtlOs.Support.Program ZtlOs.Fs

variable {P : Type} [DecidableEq P]

/-- The file system calls with their arguments. -/
inductive Call where
  | dup (fd : ℤ)
  | read (fd : ℤ) (n : ℕ)
  | write (fd : ℤ) (addr : Bytes)
  | close (fd : ℤ)
  | fstat (fd : ℤ)
  | link (old new : Option Bytes)
  | unlink (path : Option Bytes)
  | open (path : Option Bytes) (omode : BitVec 32)
  | mkdir (path : Option Bytes)
  | mknod (path : Option Bytes) (major minor : Option (BitVec 32))
  | chdir (path : Option Bytes)
  | exec (path : Bytes) (vm : Vm)
  | pipe (page : Bool)

/-- What a process does for a call. -/
def Call.run (p : P) : Call → M P ℤ
  | .dup fd => sysDup p fd
  | .read fd n => sysRead p fd n
  | .write fd addr => sysWrite p fd addr
  | .close fd => sysClose p fd
  | .fstat fd => sysFstat p fd
  | .link old new => sysLink p old new
  | .unlink path => sysUnlink p path
  | .open path omode => sysOpen p path omode
  | .mkdir path => sysMkdir p path
  | .mknod path major minor => sysMknod p path major minor
  | .chdir path => sysChdir p path
  | .exec path vm => Kernel.exec p path vm
  | .pipe page => sysPipe p page

/-- The state in which a call starts. -/
def State.start (s : State P) : State P :=
  { s with trace := [] }

/-- Between calls no inode and no buffer is locked, every reference is stored
in a file or is a current directory, and a free file has no type. -/
structure Settled [Fintype P] (s : State P) : Prop where
  bufs : s.bufs = []
  unlocked : ∀ ip, (s.icache ip).locked = false
  ref : ∀ ip, (s.icache ip).ref = stored s.ftable s.cwd ip
  free : ∀ f, (s.ftable f).ref = 0 → (s.ftable f).type = .none

section

variable {k : Ctx P}

/-- With a locked inode that the caller has a reference to. -/
def Ctx.own (k : Ctx P) (ip : Slot) : Ctx P :=
  (k.hold ip).lock ip

/-- With what `create` returns. -/
def Ctx.owns (k : Ctx P) (r : Option Slot) : Ctx P :=
  match r with
  | none => k
  | some ip => k.own ip

omit [DecidableEq P] in
theorem Ctx.own_hold (k : Ctx P) (ip jp : Slot) :
    (k.own ip).hold jp = (k.hold jp).own ip := by
  rw [Ctx.own, Ctx.own, ← Ctx.hold_lock, Ctx.hold_comm]

omit [DecidableEq P] in
theorem Ctx.own_comm (k : Ctx P) (ip jp : Slot) :
    (k.own ip).own jp = (k.own jp).own ip := by
  have h : ((k.hold ip).lock ip).hold jp = ((k.hold jp).hold ip).lock ip :=
    k.own_hold ip jp
  rw [own, own, own, own, h, Ctx.lock_comm, Ctx.hold_lock]

/-! ## File descriptors -/

omit [DecidableEq P] in
theorem argfd_moves (p : P) (fd : ℤ) : Moves Holds k (argfd p fd) fun _ => k := by
  apply Moves.bind Moves.get
  intro s
  split
  · split
    · exact Moves.pure rfl
    · exact Moves.pure rfl
  · exact Moves.pure rfl

/-- The descriptor table after `fdalloc`. -/
def Ctx.installed (k : Ctx P) (p : P) (f : FileSlot)
    (r : Option (Fin NOFILE)) : Ctx P :=
  match r with
  | none => k
  | some fd => k.setOfile p fd (some f)

theorem fdalloc_moves (p : P) (f : FileSlot) :
    Moves Holds k (fdalloc p f) fun r => k.installed p f r := by
  apply Moves.bind_get
  intro s hs
  split
  · exact Sat.pure hs
  · next fd _ =>
      exact .bind (Sat.set (Sat.pure (hs.setOfile p fd (some f))))

variable [Fintype P]

theorem Ctx.Idle.installed (hk : k.Idle) (p : P) (f : FileSlot)
    (r : Option (Fin NOFILE)) : (k.installed p f r).Idle := by
  cases r with
  | none => exact hk
  | some fd => exact hk.setOfile p fd (some f)

omit [DecidableEq P] in
theorem filedup_settles (f : FileSlot) (hk : k.Idle) :
    Settles k (filedup f) := by
  refine ⟨fun s hs => .bind (Sat.get ?_)⟩
  rw [hs.ftable]
  apply Sat.ite
  · intro _
    exact Sat.throw trivial
  · intro hpos
    refine Sat.set ⟨_, hk.setFile fun ip => ?_, hs.setFile fun hzero => ?_⟩
    · exact and_congr_left' ⟨fun _ => by omega, fun _ => Nat.succ_pos _⟩
    · exact absurd (show (k.ftable f).ref + 1 = 0 from hzero) (by omega)

theorem sysDup_settles (p : P) (fd : ℤ) (hk : k.Idle) :
    Settles k (sysDup p fd) := by
  apply Settles.bind (argfd_moves p fd)
  intro r
  split
  · exact Settles.pure hk _
  · next f =>
      apply Settles.bind (fdalloc_moves p f)
      intro r
      have hidle := hk.installed p f r
      split
      · exact Settles.pure hidle _
      · apply (filedup_settles f hidle).andThen
        intro k' hk' _
        exact Settles.pure hk' _

omit [DecidableEq P] in
theorem sysRead_sat {s : State P} (p : P) (fd : ℤ) (n : ℕ) (hk : k.Idle)
    (hs : Holds s k) (hm : NoHoles s) :
    Sat (sysRead p fd n) s (fun _ t => ∃ k' : Ctx P, k'.Idle ∧ Holds t k')
      fun _ => True := by
  have hargfd : Sat (argfd p fd) s (fun _ t => t = s) fun _ => True := by
    refine .bind (Sat.get ?_)
    split
    · split <;> exact Sat.pure rfl
    · exact Sat.pure rfl
  refine hargfd.andThen fun r t ht => ?_
  subst ht
  split
  · exact Sat.pure ⟨k, hk, hs⟩
  · next f =>
      refine (fileread_sat f n hk hs hm).andThen fun r t ht => ?_
      obtain ⟨k', hk', ht⟩ := ht
      split
      · exact Sat.pure ⟨k', hk', ht⟩
      · exact Sat.pure ⟨k', hk', ht⟩

omit [DecidableEq P] in
theorem sysWrite_settles (p : P) (fd : ℤ) (addr : Bytes) (hk : k.Idle) :
    Settles k (sysWrite p fd addr) := by
  apply Settles.bind (argfd_moves p fd)
  intro r
  split
  · exact Settles.pure hk _
  · next f =>
      apply (filewrite_settles f addr hk).andThen
      intro k' hk' r
      split
      · exact Settles.pure hk' _
      · exact Settles.pure hk' _

theorem sysClose_settles (p : P) (fd : ℤ) (hk : k.Idle) :
    Settles k (sysClose p fd) := by
  apply Settles.bind (argfd_moves p fd)
  intro r
  split
  · exact Settles.pure hk _
  · next fd f =>
      apply Settles.bind (Moves.modify fun s hs => hs.setOfile p fd none)
      intro _
      apply (fileclose_settles f (hk.setOfile p fd none)).andThen
      intro k' hk' _
      exact Settles.pure hk' _

omit [DecidableEq P] in
theorem sysFstat_settles (p : P) (fd : ℤ) (hk : k.Idle) :
    Settles k (sysFstat p fd) := by
  apply Settles.bind (argfd_moves p fd)
  intro r
  split
  · exact Settles.pure hk _
  · next f =>
      apply (filestat_settles f hk).andThen
      intro k' hk' r
      split
      · exact Settles.pure hk' _
      · exact Settles.pure hk' _

/-! ## Links -/

omit [DecidableEq P] [Fintype P] in
theorem updateNlink_moves (ip : Slot) (f : BitVec 16 → BitVec 16)
    (hop : k.op = true) : Moves Holds k (updateNlink ip f) fun _ => k := by
  apply (getDin_moves ip).bind
  intro d
  apply (setDin_moves ip _).bind
  intro _
  exact iupdate_moves ip hop

omit [DecidableEq P] in
/-- A failed call puts its inode and ends the transaction. -/
theorem unlinkBad_settles (dp : Slot) (hk : k.Idle) :
    Settles (k.inOp.own dp) (unlinkBad dp : M P ℤ) := by
  apply Settles.bind (iunlockput_moves (k := k.inOp) dp rfl)
  intro _
  exact endOp_settles hk _

omit [DecidableEq P] in
theorem linkBad_settles (ip : Slot) (hk : k.Idle) :
    Settles (k.inOp.hold ip) (linkBad ip : M P ℤ) := by
  apply Settles.bind (ilock_moves ip)
  intro _
  apply Settles.bind (updateNlink_moves ip _ rfl)
  intro _
  exact unlinkBad_settles ip hk

omit [DecidableEq P] in
theorem sysLink_settles (p : P) (old new : Option Bytes) (hk : k.Idle) :
    Settles k (sysLink p old new) := by
  unfold sysLink
  split
  · next old new =>
      apply Settles.bind (beginOp_moves hk.mon)
      intro _
      apply Settles.bind (namei_moves p old rfl)
      intro r
      split
      · exact endOp_settles hk _
      · next ip =>
          apply Settles.bind (ilock_moves ip)
          intro _
          apply Settles.bind (getDin_moves ip)
          intro d
          apply Settles.ite
          · intro _
            exact unlinkBad_settles ip hk
          · intro _
            apply Settles.bind (updateNlink_moves ip _ rfl)
            intro _
            apply Settles.bind (iunlock_moves ip)
            intro _
            apply Settles.bind (nameiparent_moves (k := k.inOp.hold ip) p new
              rfl)
            intro r
            split
            · exact linkBad_settles ip hk
            · next dp name =>
                apply Settles.bind (ilock_moves dp)
                intro _
                apply Settles.bind Moves.get
                intro s
                apply Settles.bind (dirlink_moves dp name _ rfl)
                intro ok
                apply Settles.bind (iunlockput_moves (k := k.inOp.hold ip) dp
                  rfl)
                intro _
                apply Settles.ite
                · intro _
                  apply Settles.bind (iput_moves (k := k.inOp) ip rfl)
                  intro _
                  exact endOp_settles hk _
                · intro _
                  exact linkBad_settles ip hk
  · exact Settles.pure hk _

omit [DecidableEq P] [Fintype P] in
theorem isdiremptyLoop_moves (dp : Slot) (hop : k.op = true) (offs : List ℕ) :
    Moves Holds (k.lock dp) (isdiremptyLoop dp offs) fun _ => k.lock dp := by
  induction offs with
  | nil => exact Moves.pure rfl
  | cons off offs ih =>
      apply (readDirent_moves _ dp off hop).bind
      intro de
      apply Moves.ite
      · intro _
        exact Moves.pure rfl
      · intro _
        exact ih

omit [DecidableEq P] [Fintype P] in
theorem isdirempty_moves (dp : Slot) (hop : k.op = true) :
    Moves Holds (k.lock dp) (isdirempty dp) fun _ => k.lock dp := by
  apply (getDin_moves dp).bind
  intro d
  exact isdiremptyLoop_moves dp hop _

omit [DecidableEq P] in
theorem sysUnlink_settles (p : P) (path : Option Bytes) (hk : k.Idle) :
    Settles k (sysUnlink p path) := by
  unfold sysUnlink
  split
  · exact Settles.pure hk _
  · next path =>
      apply Settles.bind (beginOp_moves hk.mon)
      intro _
      apply Settles.bind (nameiparent_moves p path rfl)
      intro r
      split
      · exact endOp_settles hk _
      · next dp name =>
          apply Settles.bind (ilock_moves dp)
          intro _
          apply Settles.ite
          · intro _
            exact unlinkBad_settles dp hk
          · intro _
            apply Settles.bind (dirlookup_moves (k := k.inOp.hold dp) dp name
              rfl)
            intro r
            split
            · exact unlinkBad_settles dp hk
            · next ip off =>
                apply Settles.bind (ilock_moves ip)
                intro _
                change Settles ((k.inOp.own dp).own ip) _
                apply Settles.bind (getDin_moves ip)
                intro d
                apply Settles.ite
                · intro _
                  exact Settles.throw _
                intro _
                apply Settles.bind (m := fun _ => (k.inOp.own dp).own ip)
                · apply Moves.ite
                  · intro _
                    exact isdirempty_moves ip rfl
                  · intro _
                    exact Moves.pure rfl
                intro empty
                apply Settles.ite
                · intro _
                  apply Settles.bind (iunlockput_moves (k := k.inOp.own dp) ip
                    rfl)
                  intro _
                  exact unlinkBad_settles dp hk
                · intro _
                  rw [Ctx.own_comm]
                  apply Settles.bind (writei_moves dp _ off rfl)
                  intro r
                  apply Settles.ite
                  · intro _
                    exact Settles.throw _
                  · intro _
                    apply Settles.bind (m := fun _ =>
                      (k.inOp.own ip).own dp)
                    · apply Moves.ite
                      · intro _
                        exact updateNlink_moves dp _ rfl
                      · intro _
                        exact Moves.pure rfl
                    intro _
                    apply Settles.bind (iunlockput_moves (k := k.inOp.own ip)
                      dp rfl)
                    intro _
                    apply Settles.bind (updateNlink_moves ip _ rfl)
                    intro _
                    apply Settles.bind (iunlockput_moves (k := k.inOp) ip rfl)
                    intro _
                    exact endOp_settles hk _

/-! ## New files -/

omit [DecidableEq P] [Fintype P] in
theorem createDots_moves (ip dp : Slot) (hop : k.op = true) :
    Moves Holds (k.lock ip) (createDots ip dp) fun _ => k.lock ip := by
  apply (updateNlink_moves (k := k.lock ip) dp _ hop).bind
  intro _
  apply Moves.bind Moves.get
  intro s
  apply (dirlink_moves ip _ _ hop).bind
  intro ok
  apply Moves.ite
  · intro _
    exact Moves.throw _
  · intro _
    apply (dirlink_moves ip _ _ hop).bind
    intro ok
    apply Moves.ite
    · intro _
      exact Moves.throw _
    · intro _
      exact Moves.pure rfl

omit [DecidableEq P] [Fintype P] in
theorem create_moves (p : P) (path : Bytes) (type major minor : BitVec 16)
    (hop : k.op = true) :
    Moves Holds k (create p path type major minor) fun r => k.owns r := by
  apply (nameiparent_moves p path hop).bind
  intro r
  split
  · exact Moves.pure rfl
  · next dp name =>
      apply (ilock_moves dp).bind
      intro _
      apply (dirlookup_moves (k := k.hold dp) dp name hop).bind
      intro r
      split
      · next ip _ =>
          change Moves Holds ((k.own dp).hold ip) _ _
          rw [Ctx.own_hold]
          apply (iunlockput_moves (k := k.hold ip) dp hop).bind
          intro _
          apply (ilock_moves ip).bind
          intro _
          apply (getDin_moves ip).bind
          intro d
          apply Moves.ite
          · intro _
            exact Moves.pure rfl
          · intro _
            apply (iunlockput_moves (k := k) ip hop).bind
            intro _
            exact Moves.pure rfl
      · change Moves Holds (k.own dp) _ _
        apply (ialloc_moves (k := k.own dp) type hop).bind
        intro ip
        apply (ilock_moves ip).bind
        intro _
        change Moves Holds ((k.own dp).own ip) _ _
        apply (getDin_moves ip).bind
        intro d
        apply (setDin_moves ip _).bind
        intro _
        apply (iupdate_moves (k := (k.own dp).own ip) ip hop).bind
        intro _
        apply Moves.bind (m := fun _ => (k.own dp).own ip)
        · apply Moves.ite
          · intro _
            exact createDots_moves ip dp hop
          · intro _
            exact Moves.pure rfl
        intro _
        apply Moves.bind Moves.get
        intro s
        rw [Ctx.own_comm]
        apply (dirlink_moves (k := (k.own ip).hold dp) dp name _ hop).bind
        intro ok
        apply Moves.ite
        · intro _
          exact Moves.throw _
        · intro _
          apply (iunlockput_moves (k := k.own ip) dp hop).bind
          intro _
          exact Moves.pure rfl

/-! ## Opening files -/

omit [DecidableEq P] [Fintype P] in
theorem openInode_moves (p : P) (path : Bytes) (omode : BitVec 32)
    (hop : k.op = true) :
    Moves Holds k (openInode p path omode) fun r => k.owns r := by
  apply Moves.ite
  · intro _
    exact create_moves p path _ _ _ hop
  · intro _
    apply (namei_moves p path hop).bind
    intro r
    split
    · exact Moves.pure rfl
    · next ip =>
        apply (ilock_moves ip).bind
        intro _
        apply (getDin_moves ip).bind
        intro d
        apply Moves.ite
        · intro _
          apply (iunlockput_moves (k := k) ip hop).bind
          intro _
          exact Moves.pure rfl
        · intro _
          exact Moves.pure rfl

/-- With a new file and its descriptor. -/
def Ctx.fresh (k : Ctx P) (p : P) (f : FileSlot) (fd : Fin NOFILE) : Ctx P :=
  (k.setFile f { k.ftable f with ref := 1 }).setOfile p fd (some f)

omit [Fintype P] in
/-- `filealloc` and `fdalloc` take a free file and a descriptor, or nothing. -/
theorem openFile_sat {s : State P} (p : P) (hs : Holds s k) :
    Sat (openFile p) s (fun r t => match r with
      | none => Holds t k
      | some (f, fd) => (k.ftable f).ref = 0 ∧ Holds t (k.fresh p f fd))
      fun _ => True := by
  refine (filealloc_sat hs).andThen fun r t ht => ?_
  cases r with
  | none => exact Sat.pure ht
  | some f =>
      obtain ⟨href, htype, ht⟩ := ht
      refine ((fdalloc_moves p f).sat t ht).andThen fun r u hu => ?_
      cases r with
      | none =>
          refine ((fileclose_unused f href htype).sat u hu).andThen ?_
          intro _ v hv
          exact Sat.pure hv
      | some fd => exact Sat.pure ⟨href, hu⟩

/-- The file that `sys_open` sets up. -/
def File.opened (v : File) (ip : Slot) (omode : BitVec 32) : File :=
  { v with
    type := .inode
    ip := ip
    off := 0
    readable := decide (omode &&& O_WRONLY = 0)
    writable := decide (omode &&& O_WRONLY ≠ 0 ∨ omode &&& O_RDWR ≠ 0) }

/-- The held reference has been stored in the file. -/
theorem Ctx.Idle.opened (hk : k.Idle) {p : P} {f : FileSlot} {fd : Fin NOFILE}
    {ip : Slot} {v : File} (href : (k.ftable f).ref = 0)
    (hv : v.refersTo ip) :
    (((k.fresh p f fd).hold ip).setFile f v).Idle where
  mon := hk.mon
  refs := by
    intro jp
    have hnot : ∀ ip, ¬(k.ftable f).refersTo ip := fun ip h => by
      have := h.1
      omega
    have hstored := stored_open k.cwd hnot hv jp
    change Multiset.count jp (ip ::ₘ k.refs) =
      stored (Function.update (Function.update k.ftable f _) f v) k.cwd jp
    rw [Function.update_idem, hstored, ← hk.refs, ← Multiset.singleton_add,
      Multiset.count_add, Nat.add_comm]

theorem sysOpen_settles (p : P) (path : Option Bytes) (omode : BitVec 32)
    (hk : k.Idle) : Settles k (sysOpen p path omode) := by
  unfold sysOpen
  split
  · exact Settles.pure hk _
  · next path =>
      apply Settles.bind (beginOp_moves hk.mon)
      intro _
      apply Settles.bind (openInode_moves p path omode rfl)
      intro r
      split
      · exact endOp_settles hk _
      · next ip =>
          refine ⟨fun s hs => (openFile_sat p hs).andThen fun r t ht => ?_⟩
          cases r with
          | none => exact (unlinkBad_settles ip hk).sat t ht
          | some r =>
              obtain ⟨f, fd⟩ := r
              obtain ⟨href, ht⟩ := ht
              change Holds t (((k.fresh p f fd).hold ip).inOp.lock ip) at ht
              refine Settles.sat ?_ t ht
              apply Settles.bind (iunlock_moves ip)
              intro _
              apply Settles.bind (endOp_moves
                (k := (k.fresh p f fd).hold ip) hk.mon)
              intro _
              refine ⟨fun u hu => .bind (Sat.modify (Sat.pure ?_))⟩
              have hone : (u.ftable f).ref = 1 := by
                rw [hu.ftable]
                change (Function.update k.ftable f _ f).ref = 1
                rw [Function.update_self]
              have hrefers : ((u.ftable f).opened ip omode).refersTo ip :=
                ⟨by rw [File.opened, hone]; exact Nat.one_pos, rfl, rfl⟩
              refine ⟨_, hk.opened href hrefers, hu.setFile fun hzero => ?_⟩
              exact absurd (hone.symm.trans hzero) Nat.one_ne_zero

omit [DecidableEq P] in
/-- `iunlockput(ip); end_op();` at the end of `sys_mkdir` and `sys_mknod`. -/
theorem create_settles (p : P) (path : Bytes) (type major minor : BitVec 16)
    (hk : k.Idle) :
    Settles k.inOp (do
      let r ← create p path type major minor
      match r with
      | none => do
          endOp
          pure (-1)
      | some ip => do
          iunlockput ip
          endOp
          pure 0 : M P ℤ) := by
  apply Settles.bind (create_moves p path type major minor rfl)
  intro r
  split
  · exact endOp_settles hk _
  · next ip =>
      apply Settles.bind (iunlockput_moves (k := k.inOp) ip rfl)
      intro _
      exact endOp_settles hk _

omit [DecidableEq P] in
theorem sysMkdir_settles (p : P) (path : Option Bytes) (hk : k.Idle) :
    Settles k (sysMkdir p path) := by
  apply Settles.bind (beginOp_moves hk.mon)
  intro _
  split
  · exact endOp_settles hk _
  · next path => exact create_settles p path _ _ _ hk

omit [DecidableEq P] in
theorem sysMknod_settles (p : P) (path : Option Bytes)
    (major minor : Option (BitVec 32)) (hk : k.Idle) :
    Settles k (sysMknod p path major minor) := by
  apply Settles.bind (beginOp_moves hk.mon)
  intro _
  split
  · exact create_settles p _ _ _ _ hk
  · exact endOp_settles hk _

/-- The current directory is replaced by the held inode. -/
theorem Ctx.Idle.chdir (hk : k.Idle) (p : P) (ip : Slot) :
    ∃ k' : Ctx P, k.hold ip = k'.hold (k.cwd p) ∧
      ({ k' with cwd := Function.update k.cwd p ip }).Idle ∧
      k'.toMon = .idle ∧ k'.cwd = k.cwd := by
  have hcount : ∀ jp, (k.hold ip).refs.count jp =
      stored k.ftable k.cwd jp + Multiset.count jp {ip} := by
    intro jp
    rw [Ctx.hold, ← Multiset.singleton_add, Multiset.count_add, hk.refs,
      Nat.add_comm]
  have hstored := stored_chdir k.ftable k.cwd p ip
  have hmem : k.cwd p ∈ (k.hold ip).refs := by
    have := hstored (k.cwd p)
    rw [← hcount, Multiset.count_singleton_self] at this
    rw [← Multiset.one_le_count_iff_mem]
    omega
  refine ⟨{ k with refs := (k.hold ip).refs.erase (k.cwd p) }, ?_,
    ⟨hk.mon, fun jp => ?_⟩, hk.mon, rfl⟩
  · simp only [Ctx.hold] at hmem ⊢
    rw [Multiset.cons_erase hmem]
  have := hstored jp
  rw [← hcount, ← Multiset.cons_erase hmem, ← Multiset.singleton_add,
    Multiset.count_add] at this
  change Multiset.count jp ((k.hold ip).refs.erase (k.cwd p)) =
    stored k.ftable (Function.update k.cwd p ip) jp
  omega

theorem sysChdir_settles (p : P) (path : Option Bytes) (hk : k.Idle) :
    Settles k (sysChdir p path) := by
  apply Settles.bind (beginOp_moves hk.mon)
  intro _
  split
  · exact endOp_settles hk _
  · next path =>
      apply Settles.bind (namei_moves p path rfl)
      intro r
      split
      · exact endOp_settles hk _
      · next ip =>
          apply Settles.bind (ilock_moves ip)
          intro _
          apply Settles.bind (getDin_moves ip)
          intro d
          apply Settles.ite
          · intro _
            exact unlinkBad_settles ip hk
          · intro _
            apply Settles.bind (iunlock_moves ip)
            intro _
            refine ⟨fun s hs => .bind (Sat.get ?_)⟩
            obtain ⟨k', heq, hidle, hmon, hcwd⟩ := hk.chdir p ip
            have hop : k.inOp.hold ip = (k'.inOp).hold (k.cwd p) :=
              congrArg Ctx.inOp heq
            have hdir : s.cwd p = k.cwd p := congrFun hs.cwd p
            rw [hdir]
            change Holds s (k.inOp.hold ip) at hs
            rw [hop] at hs
            refine Settles.sat ?_ s hs
            apply Settles.bind (iput_moves (k := k'.inOp) _ rfl)
            intro _
            apply Settles.bind (endOp_moves hmon)
            intro _
            apply Settles.bind (Moves.modify fun s hs => hs.chdir p ip)
            intro _
            rw [hcwd]
            exact Settles.pure hidle 0

/-! ## Pipes -/

omit [DecidableEq P] in
/-- A file without a type refers to no inode. -/
theorem Ctx.Idle.setFile_of_type (hk : k.Idle) {f : FileSlot} {v : File}
    (htype : (k.ftable f).type ≠ .inode) (hv : v.type ≠ .inode) :
    (k.setFile f v).Idle :=
  hk.setFile fun _ => iff_of_false (fun h => hv h.2.1) fun h => htype h.2.1

omit [DecidableEq P] in
/-- An allocated file becomes an end of a pipe. -/
theorem pipe_settles (f : FileSlot) (readable writable : Bool)
    (hk : k.Idle) (href : (k.ftable f).ref = 1)
    (htype : (k.ftable f).type ≠ .inode) {α : Type} {x : M P α}
    (hx : ∀ k' : Ctx P, k'.Idle → (∀ f' ≠ f, k'.ftable f' = k.ftable f') →
      Settles k' x) :
    Settles k (do
      modify fun s => s.setFile f
        { s.ftable f with
          type := .pipe, readable := readable, writable := writable }
      x) := by
  have hpos : 0 < (k.ftable f).ref := by omega
  apply Settles.bind (setFile_moves f (fun v => { v with
    type := .pipe, readable := readable, writable := writable }) hpos)
  intro _
  refine hx _ (hk.setFile_of_type htype ?_) fun f' hf' => ?_
  · exact fun h => by cases h
  · exact Ctx.setFile_ftable_of_ne k hf' _

omit [DecidableEq P] in
theorem pipealloc_settles (page : Bool) (hk : k.Idle) :
    Settles k (pipealloc (P := P) page) := by
  refine ⟨fun s hs => (filealloc_sat hs).andThen fun r t ht => ?_⟩
  cases r with
  | none => exact Sat.pure ⟨k, hk, ht⟩
  | some f₀ =>
      obtain ⟨href₀, htype₀, ht⟩ := ht
      have hnot₀ : (k.ftable f₀).type ≠ .inode := by
        rw [htype₀]
        exact fun h => by cases h
      have hk₁ : (k.setFile f₀ { k.ftable f₀ with ref := 1 }).Idle :=
        hk.setFile_of_type hnot₀ hnot₀
      have hf₀ := Ctx.setFile_ftable_self k f₀
        { k.ftable f₀ with ref := 1 }
      generalize hk' : k.setFile f₀ { k.ftable f₀ with ref := 1 } = k₁
        at ht hk₁ hf₀
      refine (filealloc_sat ht).andThen fun r u hu => ?_
      cases r with
      | none =>
          refine Settles.sat ?_ u hu
          apply (fileclose_settles f₀ hk₁).andThen
          intro k₂ hk₂ _
          exact Settles.pure hk₂ _
      | some f₁ =>
          obtain ⟨href₁, htype₁, hu⟩ := hu
          have hnot₁ : (k₁.ftable f₁).type ≠ .inode := by
            rw [htype₁]
            exact fun h => by cases h
          have hk₂ : (k₁.setFile f₁ { k₁.ftable f₁ with ref := 1 }).Idle :=
            hk₁.setFile_of_type hnot₁ hnot₁
          have hne : f₁ ≠ f₀ := by
            rintro rfl
            rw [hf₀] at href₁
            exact absurd href₁ Nat.one_ne_zero
          have hkeep := Ctx.setFile_ftable_of_ne k₁ hne.symm
            { k₁.ftable f₁ with ref := 1 }
          have hf₁ := Ctx.setFile_ftable_self k₁ f₁
            { k₁.ftable f₁ with ref := 1 }
          generalize k₁.setFile f₁ { k₁.ftable f₁ with ref := 1 } = k₂
            at hu hk₂ hkeep hf₁
          refine Settles.sat ?_ u hu
          apply Settles.ite
          · intro _
            apply (fileclose_settles f₀ hk₂).andThen
            intro k₃ hk₃ _
            apply (fileclose_settles f₁ hk₃).andThen
            intro k₄ hk₄ _
            exact Settles.pure hk₄ _
          · intro _
            rw [hf₀] at hkeep
            apply pipe_settles f₀ _ _ hk₂
            · rw [hkeep]
            · rw [hkeep]
              exact hnot₀
            intro k₃ hk₃ hsame
            rw [← hsame f₁ hne] at hf₁
            apply pipe_settles f₁ _ _ hk₃
            · rw [hf₁]
            · rw [hf₁]
              exact hnot₁
            intro k₄ hk₄ _
            exact Settles.pure hk₄ _

theorem sysPipe_settles (p : P) (page : Bool) (hk : k.Idle) :
    Settles k (sysPipe p page) := by
  apply (pipealloc_settles page hk).andThen
  intro k₁ hk₁ r
  split
  · exact Settles.pure hk₁ _
  · next rf wf =>
      apply Settles.bind (fdalloc_moves p rf)
      intro r
      have hk₂ := hk₁.installed p rf r
      split
      · apply (fileclose_settles rf hk₂).andThen
        intro k₃ hk₃ _
        apply (fileclose_settles wf hk₃).andThen
        intro k₄ hk₄ _
        exact Settles.pure hk₄ _
      · next fd₀ =>
          apply Settles.bind (fdalloc_moves p wf)
          intro r
          have hk₃ := hk₂.installed p wf r
          split
          · apply Settles.bind (Moves.modify fun s hs =>
              hs.setOfile p fd₀ none)
            intro _
            apply (fileclose_settles rf (hk₃.setOfile p fd₀ none)).andThen
            intro k₄ hk₄ _
            apply (fileclose_settles wf hk₄).andThen
            intro k₅ hk₅ _
            exact Settles.pure hk₅ _
          · exact Settles.pure hk₃ _

/-! ## exec -/

omit [DecidableEq P] [Fintype P] in
theorem loadSegment_moves (ip : Slot) (hop : k.op = true)
    (reads : List (ℕ × ℕ)) :
    Moves Holds (k.lock ip) (loadSegment ip reads) fun _ => k.lock ip := by
  induction reads with
  | nil => exact Moves.pure rfl
  | cons r reads ih =>
      apply (readi_moves ip _ _ hop).bind
      intro _
      exact ih

omit [DecidableEq P] [Fintype P] in
theorem loadProgram_moves (ip : Slot) (vm : Vm) (hop : k.op = true)
    (n i : ℕ) (off : BitVec 32) :
    Moves Holds (k.lock ip) (loadProgram ip vm n i off)
      fun _ => k.lock ip := by
  induction n generalizing i off with
  | zero => exact Moves.pure rfl
  | succ n ih =>
      apply (readi_moves ip _ _ hop).bind
      intro r
      split
      · exact Moves.pure rfl
      · apply Moves.ite
        · intro _
          exact Moves.pure rfl
        intro _
        apply Moves.ite
        · intro _
          exact ih _ _
        intro _
        apply Moves.ite
        · intro _
          exact Moves.pure rfl
        intro _
        apply Moves.ite
        · intro _
          exact Moves.pure rfl
        intro _
        apply Moves.ite
        · intro _
          exact Moves.pure rfl
        intro _
        apply Moves.ite
        · intro _
          exact Moves.pure rfl
        intro _
        apply (loadSegment_moves ip hop _).bind
        intro _
        apply Moves.ite
        · intro _
          exact Moves.pure rfl
        · intro _
          exact ih _ _

omit [DecidableEq P] [Fintype P] in
theorem loadElf_moves (ip : Slot) (vm : Vm) (hop : k.op = true) :
    Moves Holds (k.lock ip) (loadElf ip vm) fun _ => k.lock ip := by
  apply (readi_moves ip _ _ hop).bind
  intro r
  split
  · exact Moves.pure rfl
  · apply Moves.ite
    · intro _
      exact Moves.pure rfl
    intro _
    apply Moves.ite
    · intro _
      exact Moves.pure rfl
    intro _
    apply Moves.ite
    · intro _
      exact Moves.pure rfl
    · intro _
      exact loadProgram_moves ip vm hop _ _ _

omit [DecidableEq P] in
theorem exec_settles (p : P) (path : Bytes) (vm : Vm) (hk : k.Idle) :
    Settles k (exec p path vm) := by
  apply Settles.bind (beginOp_moves hk.mon)
  intro _
  apply Settles.bind (namei_moves p path rfl)
  intro r
  split
  · exact endOp_settles hk _
  · next ip =>
      apply Settles.bind (ilock_moves ip)
      intro _
      apply Settles.bind (loadElf_moves (k := k.inOp.hold ip) ip vm rfl)
      intro ok
      apply Settles.bind (iunlockput_moves (k := k.inOp) ip rfl)
      intro _
      apply Settles.bind (endOp_moves hk.mon)
      intro _
      apply Settles.ite
      · intro _
        exact Settles.pure hk _
      · intro _
        apply Settles.ite
        · intro _
          exact Settles.pure hk _
        · intro _
          exact Settles.pure hk _

end

/-! ## Every call -/

section

variable [Fintype P] {s t : State P}

omit [DecidableEq P] in
theorem Settled.holds (h : Settled s) :
    ∃ k : Ctx P, k.Idle ∧ Holds s.start k := by
  let Q : Multiset Slot := ∑ ip, stored s.ftable s.cwd ip • {ip}
  have hQ : ∀ ip, Q.count ip = stored s.ftable s.cwd ip := by
    intro ip
    simp only [Q, Multiset.count_sum', Multiset.count_nsmul,
      Multiset.count_singleton]
    simp
  refine ⟨⟨.idle, Q, s.ftable, s.ofile, s.cwd⟩, ⟨rfl, hQ⟩, ?_⟩
  constructor
  · rfl
  · exact h.bufs
  · intro ip
    refine iff_of_false ?_ (Multiset.notMem_zero ip)
    change (s.icache ip).locked ≠ true
    rw [h.unlocked]
    exact Bool.false_ne_true
  · exact Multiset.nodup_zero
  · intro ip
    exact (h.ref ip).trans (hQ ip).symm
  · rfl
  · rfl
  · rfl
  · exact h.free

omit [DecidableEq P] in
theorem Holds.settled {k : Ctx P} (hk : k.Idle) (h : Holds t k) :
    Bracketed t.trace ∧ Settled t := by
  refine ⟨h.mon.trans (congrArg some hk.mon), ?_⟩
  constructor
  · rw [h.bufs, hk.mon]
    rfl
  · intro ip
    have hnot : ip ∉ k.locks := by
      rw [hk.mon]
      exact Multiset.notMem_zero ip
    rw [← h.locked] at hnot
    exact Bool.eq_false_of_not_eq_true hnot
  · intro ip
    rw [h.ref, hk.refs, h.ftable, h.cwd]
  · rw [h.ftable]
    exact h.free

theorem call_settles (p : P) (c : Call) {k : Ctx P} (hk : k.Idle)
    (hs : Holds s k) (hm : NoHoles s) :
    Sat (c.run p) s (fun _ t => ∃ k' : Ctx P, k'.Idle ∧ Holds t k')
      fun _ => True := by
  cases c with
  | dup fd => exact (sysDup_settles p fd hk).sat s hs
  | read fd n => exact sysRead_sat p fd n hk hs hm
  | write fd addr => exact (sysWrite_settles p fd addr hk).sat s hs
  | close fd => exact (sysClose_settles p fd hk).sat s hs
  | fstat fd => exact (sysFstat_settles p fd hk).sat s hs
  | link old new => exact (sysLink_settles p old new hk).sat s hs
  | unlink path => exact (sysUnlink_settles p path hk).sat s hs
  | «open» path omode => exact (sysOpen_settles p path omode hk).sat s hs
  | mkdir path => exact (sysMkdir_settles p path hk).sat s hs
  | mknod path major minor =>
      exact (sysMknod_settles p path major minor hk).sat s hs
  | chdir path => exact (sysChdir_settles p path hk).sat s hs
  | exec path vm => exact (exec_settles p path vm hk).sat s hs
  | pipe page => exact (sysPipe_settles p page hk).sat s hs

/-- Every call that returns has put its `begin_op` and `end_op` in pairs, with
every `log_write` and `iput` between them and no lock held around them; it has
given back all locks, and the references to every inode have changed by those
stored in files and current directories. -/
theorem call_bracketed (p : P) (c : Call) {r : ℤ} (hs : Settled s)
    (hm : NoHoles s) (h : c.run p s.start = .ok (r, t)) :
    Bracketed t.trace ∧ Settled t ∧
      ∀ ip, (t.icache ip).ref + stored s.ftable s.cwd ip =
        (s.icache ip).ref + stored t.ftable t.cwd ip := by
  obtain ⟨k, hk, hstart⟩ := hs.holds
  obtain ⟨k', hk', ht⟩ := (call_settles p c hk hstart hm).returns h
  obtain ⟨hbracketed, hsettled⟩ := ht.settled hk'
  refine ⟨hbracketed, hsettled, fun ip => ?_⟩
  rw [hs.ref, hsettled.ref, Nat.add_comm]

end

/-! ## The first state -/

section

variable [Fintype P]

/-- No file is open, and every process is in the root directory, which has not
been read yet. -/
def boot (disk : ℕ → Block) : State P where
  disk := disk
  sb := (disk 1).superblock
  icache := fun ip =>
    if ip = 0 then ⟨ROOTINO, Fintype.card P, false, false, .zero⟩
    else ⟨0, 0, false, false, .zero⟩
  ftable := fun _ => ⟨.none, 0, false, false, 0, 0⟩
  ofile := fun _ _ => none
  cwd := fun _ => 0
  bufs := []
  input := []
  trace := []

omit [DecidableEq P] in
theorem boot_settled (disk : ℕ → Block) : Settled (boot (P := P) disk) where
  bufs := rfl
  unlocked := by
    intro ip
    unfold boot
    dsimp only
    split <;> rfl
  ref := by
    intro ip
    have hclosed : ∀ f, ¬((boot (P := P) disk).ftable f).refersTo ip :=
      fun f h => lt_irrefl 0 h.1
    simp only [stored, hclosed, if_false, Finset.sum_const_zero, Nat.zero_add]
    by_cases hip : ip = 0
    · subst hip
      simp [boot]
    · have hne : ¬(0 : Slot) = ip := fun h => hip h.symm
      simp [boot, hip, hne]
  free := fun _ _ => rfl

omit [DecidableEq P] in
theorem boot_noHoles (disk : ℕ → Block) : NoHoles (boot (P := P) disk) :=
  fun _ h => absurd h (lt_irrefl 0)

end

/-- The empty path has no parent. -/
theorem call_bracketed_unlink :
    ∃ t : State Unit, (Call.unlink (some [])).run ()
        (boot fun _ => .zero).start = .ok (-1, t) ∧ Bracketed t.trace := by
  have h : (Call.unlink (some [])).run () (boot fun _ => .zero).start =
      .ok (_, _) := rfl
  exact ⟨_, h, (call_bracketed () _ (boot_settled _) (boot_noHoles _) h).1⟩

end ZtlOs.Kernel
