import Mathlib.Algebra.BigOperators.Group.Finset.Basic
import Mathlib.Data.Fintype.BigOperators
import Mathlib.Data.Multiset.AddSub
import ZtlOs.Kernel.Sysfile
import ZtlOs.Kernel.Exec

/-!
# What a call holds

A call may hold buffers, locks and references to inodes, and it may be inside
a transaction.  A trace is checked by a monitor that follows these; `Holds`
says that the monitor and the state agree.
-/

namespace ZtlOs.Kernel

open ZtlOs.Support ZtlOs.Support.Program ZtlOs.Fs

/-! ## The monitor -/

/-- What the monitor knows after some events. -/
structure Mon where
  /-- Between `begin_op` and `end_op`. -/
  op : Bool
  /-- The inodes locked by the caller. -/
  locks : Multiset Slot
  /-- The buffers locked by the caller. -/
  bufs : List ℕ
  deriving DecidableEq

/-- Outside a transaction, without locks. -/
def Mon.idle : Mon where
  op := false
  locks := 0
  bufs := []

/-- What an event does; none if the event may not happen here.  `begin_op` and
`end_op` alternate and come without locks, `log_write` and `iput` come between
them, and only what is locked is written or unlocked. -/
def Mon.step (m : Mon) : Event → Option Mon
  | .beginOp =>
      if m.op = false ∧ m.locks = 0 ∧ m.bufs = [] then
        some { m with op := true }
      else none
  | .endOp =>
      if m.op = true ∧ m.locks = 0 ∧ m.bufs = [] then
        some { m with op := false }
      else none
  | .bread b => some { m with bufs := b :: m.bufs }
  | .brelse b =>
      if b ∈ m.bufs then some { m with bufs := m.bufs.erase b } else none
  | .logWrite b => if m.op = true ∧ b ∈ m.bufs then some m else none
  | .ilock ip =>
      if ip ∈ m.locks then none
      else some { m with locks := ip ::ₘ m.locks }
  | .iunlock ip =>
      if ip ∈ m.locks then some { m with locks := m.locks.erase ip } else none
  | .iput _ => if m.op = true then some m else none

/-- The monitor after a trace, whose newest event comes first. -/
def mon : List Event → Option Mon
  | [] => some .idle
  | e :: tr => (mon tr).bind fun m => m.step e

/-- The trace is that of a call that returns with everything given back. -/
def Bracketed (tr : List Event) : Prop :=
  mon tr = some .idle

theorem mon_cons {tr : List Event} {e : Event} {m m' : Mon}
    (h : mon tr = some m) (he : m.step e = some m') :
    mon (e :: tr) = some m' := by
  rw [mon, h]
  exact he

/-- The blocks passed to `log_write` since the last `begin_op`. -/
def logged : List Event → Finset ℕ
  | [] => ∅
  | .beginOp :: _ => ∅
  | .logWrite b :: tr => insert b (logged tr)
  | _ :: tr => logged tr

/-! ## Stored references -/

variable {P : Type}

/-- Whether an open file refers to the inode. -/
def File.refersTo (f : File) (ip : Slot) : Prop :=
  0 < f.ref ∧ f.type = .inode ∧ f.ip = ip

instance (f : File) (ip : Slot) : Decidable (f.refersTo ip) := by
  unfold File.refersTo
  infer_instance

/-- The number of open files and current directories that refer to the
inode. -/
def stored [Fintype P] (ftable : FileSlot → File) (cwd : P → Slot)
    (ip : Slot) : ℕ :=
  (∑ f, if (ftable f).refersTo ip then 1 else 0) +
    ∑ p, if cwd p = ip then 1 else 0

/-- A sum after one of its terms has changed. -/
theorem sum_update {ι β : Type} [Fintype ι] [DecidableEq ι] (F : ι → β)
    (i : ι) (v : β) (g : β → ℕ) :
    (∑ j, g (Function.update F i v j)) + g (F i) = (∑ j, g (F j)) + g v := by
  have hrest : ∑ j ∈ Finset.univ.erase i, g (Function.update F i v j) =
      ∑ j ∈ Finset.univ.erase i, g (F j) := by
    apply Finset.sum_congr rfl
    intro j hj
    rw [Function.update_of_ne (Finset.ne_of_mem_erase hj)]
  rw [← Finset.add_sum_erase _ _ (Finset.mem_univ i), hrest,
    ← Finset.add_sum_erase Finset.univ (fun j => g (F j)) (Finset.mem_univ i),
    Function.update_self]
  omega

section Stored

variable [Fintype P] {ftable : FileSlot → File} {cwd : P → Slot}
variable {f : FileSlot} {v : File} {ip : Slot}

/-- Nothing is stored by a change that keeps what a file refers to. -/
theorem stored_update_file
    (h : v.refersTo ip ↔ (ftable f).refersTo ip) :
    stored (Function.update ftable f v) cwd ip = stored ftable cwd ip := by
  have := sum_update ftable f v fun v => if v.refersTo ip then 1 else 0
  simp only [h] at this
  unfold stored
  omega

variable (cwd)

/-- A reference is put into a file that had none. -/
theorem stored_open (hold : ∀ ip, ¬(ftable f).refersTo ip)
    (hnew : v.refersTo ip) (ip' : Slot) :
    stored (Function.update ftable f v) cwd ip' =
      stored ftable cwd ip' + Multiset.count ip' {ip} := by
  have := sum_update ftable f v fun v => if v.refersTo ip' then 1 else 0
  simp only [hold, if_false] at this
  have hiff : v.refersTo ip' ↔ ip' = ip :=
    ⟨fun h => h.2.2.symm.trans hnew.2.2, fun h => h ▸ hnew⟩
  rw [Multiset.count_singleton]
  simp only [hiff] at this
  unfold stored
  omega

/-- The reference of a file is taken out. -/
theorem stored_close (hold : (ftable f).refersTo ip)
    (hnew : ∀ ip, ¬v.refersTo ip) (ip' : Slot) :
    stored (Function.update ftable f v) cwd ip' + Multiset.count ip' {ip} =
      stored ftable cwd ip' := by
  have := sum_update ftable f v fun v => if v.refersTo ip' then 1 else 0
  simp only [hnew, if_false] at this
  have hiff : (ftable f).refersTo ip' ↔ ip' = ip :=
    ⟨fun h => h.2.2.symm.trans hold.2.2, fun h => h ▸ hold⟩
  rw [Multiset.count_singleton]
  simp only [hiff] at this
  unfold stored
  omega

variable (ftable)

/-- Another current directory. -/
theorem stored_chdir [DecidableEq P] (p : P) (ip ip' : Slot) :
    stored ftable (Function.update cwd p ip) ip' +
        Multiset.count ip' {cwd p} =
      stored ftable cwd ip' + Multiset.count ip' {ip} := by
  have := sum_update cwd p ip fun c => if c = ip' then 1 else 0
  simp only [Multiset.count_singleton, eq_comm (a := ip')]
  unfold stored
  omega

end Stored

/-! ## What a call holds -/

/-- What a call holds, and the tables of files and directories. -/
structure Ctx (P : Type) extends Mon where
  /-- The references to inodes: the stored ones and those of the call. -/
  refs : Multiset Slot
  ftable : FileSlot → File
  ofile : P → Fin NOFILE → Option FileSlot
  cwd : P → Slot

namespace Ctx

def hold (k : Ctx P) (ip : Slot) : Ctx P :=
  { k with refs := ip ::ₘ k.refs }

def lock (k : Ctx P) (ip : Slot) : Ctx P :=
  { k with locks := ip ::ₘ k.locks }

def buf (k : Ctx P) (b : ℕ) : Ctx P :=
  { k with bufs := b :: k.bufs }

def setFile (k : Ctx P) (f : FileSlot) (v : File) : Ctx P :=
  { k with ftable := Function.update k.ftable f v }

def setOfile [DecidableEq P] (k : Ctx P) (p : P) (fd : Fin NOFILE)
    (f : Option FileSlot) : Ctx P :=
  { k with
    ofile := Function.update k.ofile p (Function.update (k.ofile p) fd f) }

/-- Nothing is held, outside a transaction, and all references are stored. -/
structure Idle [Fintype P] (k : Ctx P) : Prop where
  mon : k.toMon = .idle
  refs : ∀ ip, k.refs.count ip = stored k.ftable k.cwd ip

/-- The same inside a transaction. -/
def inOp (k : Ctx P) : Ctx P :=
  { k with op := true }

/-- With the references that `r` returns. -/
def holds (k : Ctx P) (r : Option Slot) : Ctx P :=
  match r with
  | none => k
  | some ip => k.hold ip

@[simp] theorem setFile_ftable_self (k : Ctx P) (f : FileSlot) (v : File) :
    (k.setFile f v).ftable f = v :=
  Function.update_self ..

@[simp] theorem setFile_ftable_of_ne (k : Ctx P) {f f' : FileSlot}
    (h : f' ≠ f) (v : File) : (k.setFile f v).ftable f' = k.ftable f' :=
  Function.update_of_ne h ..

theorem hold_lock (k : Ctx P) (ip jp : Slot) :
    (k.hold ip).lock jp = (k.lock jp).hold ip :=
  rfl

theorem hold_comm (k : Ctx P) (ip jp : Slot) :
    (k.hold ip).hold jp = (k.hold jp).hold ip := by
  simp only [hold, Multiset.cons_swap]

theorem lock_comm (k : Ctx P) (ip jp : Slot) :
    (k.lock ip).lock jp = (k.lock jp).lock ip := by
  simp only [lock, Multiset.cons_swap]

end Ctx

/-- The state and its trace agree with `k`. -/
structure Holds (s : State P) (k : Ctx P) : Prop where
  mon : mon s.trace = some k.toMon
  bufs : s.bufs = k.bufs
  locked : ∀ ip, (s.icache ip).locked = true ↔ ip ∈ k.locks
  nodup : k.locks.Nodup
  ref : ∀ ip, (s.icache ip).ref = k.refs.count ip
  ftable : s.ftable = k.ftable
  ofile : s.ofile = k.ofile
  cwd : s.cwd = k.cwd
  /-- A free file has no type. -/
  free : ∀ f, (k.ftable f).ref = 0 → (k.ftable f).type = .none

namespace Holds

variable {s t : State P} {k : Ctx P} {ip : Slot}

/-- Only the parts that `Holds` speaks of matter. -/
theorem congr (h : Holds s k) (htrace : t.trace = s.trace)
    (hbufs : t.bufs = s.bufs)
    (hlocked : ∀ ip, (t.icache ip).locked = (s.icache ip).locked)
    (href : ∀ ip, (t.icache ip).ref = (s.icache ip).ref)
    (hftable : t.ftable = s.ftable) (hofile : t.ofile = s.ofile)
    (hcwd : t.cwd = s.cwd) : Holds t k where
  mon := htrace ▸ h.mon
  bufs := hbufs.trans h.bufs
  locked := fun ip => by
    rw [hlocked]
    exact h.locked ip
  nodup := h.nodup
  ref := fun ip => (href ip).trans (h.ref ip)
  ftable := hftable.trans h.ftable
  ofile := hofile.trans h.ofile
  cwd := hcwd.trans h.cwd
  free := h.free

/-- An event that the monitor allows and that takes no lock. -/
theorem emit (h : Holds s k) {e : Event} {m : Mon}
    (he : k.toMon.step e = some m) (hlocks : m.locks = k.locks)
    (hbufs : m.bufs = k.bufs) : Holds (s.emit e) { k with toMon := m } where
  mon := mon_cons h.mon he
  bufs := h.bufs.trans hbufs.symm
  locked := fun ip => by
    rw [show ({ k with toMon := m } : Ctx P).locks = k.locks from hlocks]
    exact h.locked ip
  nodup := by
    rw [show ({ k with toMon := m } : Ctx P).locks = k.locks from hlocks]
    exact h.nodup
  ref := h.ref
  ftable := h.ftable
  ofile := h.ofile
  cwd := h.cwd
  free := h.free

/-- A write to the disk moves nothing. -/
theorem setDisk (h : Holds s k) (b : ℕ) (v : Block) :
    Holds (s.setDisk b v) k :=
  h.congr rfl rfl (fun _ => rfl) (fun _ => rfl) rfl rfl rfl

/-- A change of an entry of the inode cache that keeps its lock and its
references. -/
theorem setInode (h : Holds s k) {v : Inode}
    (hlocked : v.locked = (s.icache ip).locked)
    (href : v.ref = (s.icache ip).ref) : Holds (s.setInode ip v) k := by
  have hcases : ∀ jp, ((s.setInode ip v).icache jp).locked =
      (s.icache jp).locked ∧
      ((s.setInode ip v).icache jp).ref = (s.icache jp).ref := by
    intro jp
    by_cases hj : jp = ip
    · subst hj
      rw [State.icache_setInode_self]
      exact ⟨hlocked, href⟩
    · rw [State.icache_setInode_of_ne s hj]
      exact ⟨rfl, rfl⟩
  exact h.congr rfl rfl (fun jp => (hcases jp).1) (fun jp => (hcases jp).2)
    rfl rfl rfl

theorem setDin (h : Holds s k) (d : Dinode) : Holds (s.setDin ip d) k :=
  h.setInode rfl rfl

/-- A change of the references to one inode. -/
theorem setRef (h : Holds s k) {v : Inode} {Q : Multiset Slot}
    (hlocked : v.locked = (s.icache ip).locked)
    (href : v.ref = Q.count ip)
    (hQ : ∀ jp ≠ ip, Q.count jp = k.refs.count jp) :
    Holds (s.setInode ip v) { k with refs := Q } := by
  have hother : ∀ jp ≠ ip, (s.setInode ip v).icache jp = s.icache jp :=
    fun jp hj => State.icache_setInode_of_ne s hj v
  have hself := State.icache_setInode_self s ip v
  constructor
  · exact h.mon
  · exact h.bufs
  · intro jp
    by_cases hj : jp = ip
    · rw [hj, hself, hlocked]
      exact h.locked ip
    · rw [hother jp hj]
      exact h.locked jp
  · exact h.nodup
  · intro jp
    by_cases hj : jp = ip
    · rw [hj, hself]
      exact href
    · rw [hother jp hj, h.ref jp]
      exact (hQ jp hj).symm
  · exact h.ftable
  · exact h.ofile
  · exact h.cwd
  · exact h.free

theorem hold (h : Holds s k) {v : Inode}
    (hlocked : v.locked = (s.icache ip).locked)
    (href : v.ref = (s.icache ip).ref + 1) :
    Holds (s.setInode ip v) (k.hold ip) := by
  refine h.setRef hlocked ?_ ?_
  · rw [href, h.ref, Multiset.count_cons_self]
  · intro jp hj
    rw [Multiset.count_cons_of_ne hj]

theorem drop (h : Holds s (k.hold ip)) {v : Inode}
    (hlocked : v.locked = (s.icache ip).locked)
    (href : v.ref = (s.icache ip).ref - 1) :
    Holds (s.setInode ip v) k := by
  refine h.setRef hlocked ?_ ?_
  · rw [href, h.ref, Ctx.hold, Multiset.count_cons_self]
    exact Nat.add_sub_cancel ..
  · intro jp hj
    rw [Ctx.hold, Multiset.count_cons_of_ne hj]

/-- The inode that the call holds a reference to has one. -/
theorem one_le_ref (h : Holds s (k.hold ip)) : 1 ≤ (s.icache ip).ref := by
  rw [h.ref, Ctx.hold, Multiset.count_cons_self]
  omega

theorem lock (h : Holds s k) (hfree : (s.icache ip).locked = false) :
    Holds ((s.setInode ip { s.icache ip with locked := true }).emit
      (.ilock ip)) (k.lock ip) := by
  have hnot : ip ∉ k.locks := by
    rw [← h.locked, hfree]
    exact Bool.false_ne_true
  constructor
  · exact mon_cons h.mon (if_neg hnot)
  · exact h.bufs
  · intro jp
    change (Function.update s.icache ip _ jp).locked = true ↔ _
    rw [Ctx.lock, Multiset.mem_cons]
    by_cases hj : jp = ip
    · subst hj
      simp
    · rw [Function.update_of_ne hj, h.locked]
      simp [hj]
  · exact Multiset.nodup_cons.mpr ⟨hnot, h.nodup⟩
  · intro jp
    change (Function.update s.icache ip _ jp).ref = _
    rw [Function.update_apply]
    split
    · next hj =>
        subst hj
        exact h.ref jp
    · exact h.ref jp
  · exact h.ftable
  · exact h.ofile
  · exact h.cwd
  · exact h.free

theorem unlock (h : Holds s (k.lock ip)) :
    Holds ((s.setInode ip { s.icache ip with locked := false }).emit
      (.iunlock ip)) k := by
  obtain ⟨hnot, hnodup⟩ := Multiset.nodup_cons.mp h.nodup
  have hmem : ip ∈ (k.lock ip).locks := Multiset.mem_cons_self ip k.locks
  constructor
  · refine mon_cons h.mon ((if_pos hmem).trans ?_)
    simp [Ctx.lock]
  · exact h.bufs
  · intro jp
    change (Function.update s.icache ip _ jp).locked = true ↔ _
    by_cases hj : jp = ip
    · subst hj
      simp [hnot]
    · rw [Function.update_of_ne hj, h.locked, Ctx.lock, Multiset.mem_cons]
      simp [hj]
  · exact hnodup
  · intro jp
    change (Function.update s.icache ip _ jp).ref = _
    rw [Function.update_apply]
    split
    · next hj =>
        subst hj
        exact h.ref jp
    · exact h.ref jp
  · exact h.ftable
  · exact h.ofile
  · exact h.cwd
  · exact h.free

theorem setFile (h : Holds s k) {f : FileSlot} {v : File}
    (hfree : v.ref = 0 → v.type = .none) :
    Holds (s.setFile f v) (k.setFile f v) where
  mon := h.mon
  bufs := h.bufs
  locked := h.locked
  nodup := h.nodup
  ref := h.ref
  ftable := by rw [State.setFile, h.ftable]; rfl
  ofile := h.ofile
  cwd := h.cwd
  free := by
    intro f'
    by_cases hf : f' = f
    · subst hf
      rw [Ctx.setFile_ftable_self]
      exact hfree
    · rw [Ctx.setFile_ftable_of_ne k hf]
      exact h.free f'

theorem setOfile [DecidableEq P] (h : Holds s k) (p : P) (fd : Fin NOFILE)
    (f : Option FileSlot) : Holds (s.setOfile p fd f) (k.setOfile p fd f) where
  mon := h.mon
  bufs := h.bufs
  locked := h.locked
  nodup := h.nodup
  ref := h.ref
  ftable := h.ftable
  ofile := by
    rw [State.setOfile, h.ofile]
    rfl
  cwd := h.cwd
  free := h.free

theorem chdir [DecidableEq P] (h : Holds s k) (p : P) (ip : Slot) :
    Holds { s with cwd := Function.update s.cwd p ip }
      { k with cwd := Function.update k.cwd p ip } where
  mon := h.mon
  bufs := h.bufs
  locked := h.locked
  nodup := h.nodup
  ref := h.ref
  ftable := h.ftable
  ofile := h.ofile
  cwd := by
    change Function.update s.cwd p ip = _
    rw [h.cwd]
  free := h.free

end Holds

/-! ## Reading -/

/-- Between `s` and `t` blocks have been read and released. -/
structure Reads (s t : State P) : Prop where
  state : t = { s with trace := t.trace }
  mon : ∀ m, mon s.trace = some m → mon t.trace = some m
  logged : logged t.trace = logged s.trace

namespace Reads

variable {s t u : State P} {k : Ctx P}

theorem refl (s : State P) : Reads s s where
  state := rfl
  mon := fun _ h => h
  logged := rfl

theorem trans (h : Reads s t) (h' : Reads t u) : Reads s u where
  state := by
    rw [h'.state, h.state]
  mon := fun m hm => h'.mon m (h.mon m hm)
  logged := h'.logged.trans h.logged

theorem disk (h : Reads s t) : t.disk = s.disk := by
  rw [h.state]

theorem icache (h : Reads s t) : t.icache = s.icache := by
  rw [h.state]

theorem bufs (h : Reads s t) : t.bufs = s.bufs := by
  rw [h.state]

theorem holds (h : Reads s t) (hs : Holds s k) : Holds t k := by
  rw [h.state]
  exact {
    mon := h.mon _ hs.mon
    bufs := hs.bufs
    locked := hs.locked
    nodup := hs.nodup
    ref := hs.ref
    ftable := hs.ftable
    ofile := hs.ofile
    cwd := hs.cwd
    free := hs.free }

/-- A block is read and released at once. -/
theorem block (s : State P) (b : ℕ) :
    Reads s { s with trace := .brelse b :: .bread b :: s.trace } where
  state := rfl
  mon := by
    intro m hm
    refine mon_cons (mon_cons hm rfl) ?_
    simp [Mon.step]
  logged := rfl

end Reads

/-! ## Rules for a first step -/

section Buffers

variable {s : State P} {E : Stop → Prop} {α : Type} {Q : α → State P → Prop}

theorem bread_bind {b : ℕ} {f : Block → M P α} (hE : b ∈ s.bufs → E .sleep)
    (h : Sat (f (s.disk b)) { s.emit (.bread b) with bufs := b :: s.bufs }
      Q E) : Sat (bread b >>= f) s Q E := by
  refine .bind (.bind (Sat.get ?_))
  apply Sat.ite
  · intro hb
    exact Sat.throw (hE hb)
  · intro _
    exact .bind (Sat.set (Sat.pure h))

theorem brelse_bind {b : ℕ} {f : Unit → M P α}
    (h : Sat (f ()) { s.emit (.brelse b) with bufs := s.bufs.erase b } Q E) :
    Sat (brelse b >>= f) s Q E :=
  .bind (Sat.modify h)

theorem logWrite_bind {b : ℕ} {data : Block} {f : Unit → M P α}
    (h : Sat (f ()) ((s.setDisk b data).emit (.logWrite b)) Q E) :
    Sat (logWrite b data >>= f) s Q E :=
  .bind (Sat.modify h)

theorem getDin_bind {ip : Slot} {f : Dinode → M P α}
    (h : Sat (f (s.icache ip).din) s Q E) : Sat (getDin ip >>= f) s Q E :=
  .bind (.bind (Sat.get (Sat.pure h)))

theorem setDin_bind {ip : Slot} {d : Dinode} {f : Unit → M P α}
    (h : Sat (f ()) (s.setDin ip d) Q E) : Sat (setDin ip d >>= f) s Q E :=
  .bind (Sat.modify h)

/-- A block is read, and nothing else is done with its buffer. -/
theorem bread_brelse_bind {b : ℕ} {f : Block → M P α}
    (hE : b ∈ s.bufs → E .sleep)
    (h : ∀ t, Reads s t → Sat (f (s.disk b)) t Q E) :
    Sat (do
      let bp ← bread b
      brelse b
      f bp) s Q E := by
  apply bread_bind hE
  apply brelse_bind
  refine h _ ?_
  have herase : (b :: s.bufs).erase b = s.bufs := List.erase_cons_head ..
  have hblock := Reads.block s b
  simpa only [State.emit, herase] using hblock

end Buffers

end ZtlOs.Kernel
