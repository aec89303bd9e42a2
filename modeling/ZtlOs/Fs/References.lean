import Mathlib.Algebra.Order.BigOperators.Group.Finset
import ZtlOs.Fs.Icache
import ZtlOs.Kernel.Trace

/-!
# Who holds a reference to a cached inode

`rules` say which references a process needs for a step and which it has
afterwards.  Every call keeps to them, whatever the steps of the other
processes, so that the reference counts agree with the open files, the current
directories and the calls in progress in every reachable state.
-/

namespace ZtlOs.Fs.Icache

open ZtlOs.Support ZtlOs.Support.Thread

/-! ## The rules -/

/-- What a process must have for a step. -/
def Op.Pre (v : View) : Op → Prop
  | .idup ip => ip ∈ v.inodes ∨ v.live = true ∧ ip = v.cwd
  | .iputTest ip | .iputDrop ip => ip ∈ v.inodes
  | .giveCwd => v.live = true
  | .setCwd ip => v.live = false ∧ ip ∈ v.inodes
  | .setInode f ip => v.fresh = some f ∧ ip ∈ v.inodes
  | .filedup f | .closeFile f => f ∈ v.files
  | _ => True

/-- What the result of a step says about the process itself. -/
def Op.Fact (v : View) : (o : Op) → o.Res → Prop
  | .panic _, _ => False
  | .cwd, r => r = v.cwd
  | .giveCwd, r => r = v.cwd
  | .ofile fd, r => r = v.ofile fd
  | .fdalloc _, r => ∀ fd, r = some fd → v.ofile fd = none
  | _, _ => True

def rules : Rules Op Op.Res View where
  pre o v := o.Pre v
  post o v r v' := v' = v.after o r ∧ o.Fact v r

/-- What belongs to a process between calls. -/
structure View.Settled (v : View) : Prop where
  inodes : v.inodes = 0
  live : v.live = true
  files : ∀ f, v.files.count f = v.slots f

/-! ## The calls keep to the rules -/

namespace View

variable {v : View} {ip jp : Slot} {f : FileSlot} {fd : Fin NOFILE}

theorem slots_setOfile (v : View) (fd : Fin NOFILE) (o : Option FileSlot)
    (f : FileSlot) :
    (v.setOfile fd o).slots f + (if v.ofile fd = some f then 1 else 0) =
      v.slots f + if o = some f then 1 else 0 := by
  simp only [slots, Finset.card_filter]
  exact Kernel.sum_update v.ofile fd o fun o => if o = some f then 1 else 0

/-- A file to which a descriptor of the process points is one that it owns. -/
theorem Settled.mem_files (hv : v.Settled) (hfd : v.ofile fd = some f) :
    f ∈ v.files := by
  rw [← Multiset.count_pos, hv.files, slots, Finset.card_pos]
  exact ⟨fd, by simpa using hfd⟩

/-- The reference that a function returns, if it returns one. -/
def addOption (v : View) (r : Option Slot) : View :=
  r.elim v v.addInode

@[simp] theorem dropInode_addInode : (v.addInode ip).dropInode ip = v := by
  simp [addInode, dropInode]

theorem addInode_comm :
    (v.addInode ip).addInode jp = (v.addInode jp).addInode ip := by
  simp [addInode, Multiset.cons_swap]

theorem mem_addInode : ip ∈ (v.addInode ip).inodes :=
  Multiset.mem_cons_self ..

end View

section Calls

variable {v : View} {ip dp : Slot} {f : FileSlot} {β : Type}

/-- A step that needs nothing and leaves what belongs to the process alone. -/
theorem request_safe {o : Op} {g : o.Res → Prog β} {Q : β → View → Prop}
    (hpre : o.Pre v) (hafter : ∀ r, v.after o r = v)
    (h : ∀ r, o.Fact v r → Safe rules (g r) v Q) :
    Safe rules (call o >>= g) v Q := by
  refine Safe.request_bind hpre ?_
  rintro r v' ⟨rfl, hfact⟩
  rw [hafter]
  exact h r hfact

theorem ilock_safe (ip : Slot) :
    Safe rules (ilock ip) v fun _ v' => v' = v := by
  refine request_safe trivial (fun _ => rfl) fun _ _ => ?_
  exact Safe.request trivial fun _ _ h => h.1

theorem iput_safe (ip : Slot) :
    Safe rules (iput ip) (v.addInode ip) fun _ v' => v' = v := by
  refine Safe.request_bind View.mem_addInode ?_
  rintro freeing v' ⟨rfl, -⟩
  cases freeing with
  | false => exact View.dropInode_addInode
  | true =>
      refine request_safe trivial (fun _ => rfl) fun _ _ => ?_
      refine Safe.request View.mem_addInode ?_
      rintro _ v' ⟨rfl, -⟩
      exact View.dropInode_addInode

theorem iunlockput_safe (ip : Slot) :
    Safe rules (iunlockput ip) (v.addInode ip) fun _ v' => v' = v :=
  request_safe trivial (fun _ => rfl) fun _ _ => iput_safe ip

/-- A panic comes instead of the rest. -/
theorem panic_safe {m : String} {g : Unit → Prog β} {Q : β → View → Prop} :
    Safe rules (call (.panic m) >>= g) v Q :=
  request_safe trivial (fun _ => rfl) fun _ h => h.elim

/-- A test that may panic comes before the rest. -/
theorem panicIf_safe {p : Bool} {m : String} {g : Unit → Prog β}
    {Q : β → View → Prop} (h : Safe rules (g ()) v Q) :
    Safe rules (panicIf p m >>= g) v Q := by
  cases p with
  | false => exact h
  | true => exact panic_safe

theorem dirlookup_safe (dp : Slot) :
    Safe rules (dirlookup dp) v fun r v' => v' = v.addOption r := by
  refine request_safe trivial (fun _ => rfl) fun d _ => ?_
  refine Safe.ite (fun _ => panic_safe) fun _ => ?_
  refine request_safe trivial (fun _ => rfl) fun inum _ => ?_
  refine Safe.ite (fun _ => rfl) fun _ => ?_
  refine Safe.request_bind trivial ?_
  rintro ip v' ⟨rfl, -⟩
  rfl

theorem dirlink_safe (dp : Slot) :
    Safe rules (dirlink dp) v fun _ v' => v' = v := by
  refine (dirlookup_safe dp).bind ?_
  rintro (_ | ip) v' rfl
  · rfl
  · refine (iput_safe ip).bind ?_
    rintro _ v' rfl
    rfl

theorem ialloc_safe (dev : ℕ) :
    Safe rules (ialloc dev) v fun ip v' => v' = v.addInode ip := by
  refine request_safe trivial (fun _ => rfl) fun inum _ => ?_
  refine panicIf_safe ?_
  exact Safe.request trivial fun _ _ h => h.1

theorem namexLoop_safe (parent : Bool) (n : ℕ) (ip : Slot) :
    Safe rules (namexLoop parent n ip) (v.addInode ip) fun r v' =>
      v' = v.addOption r := by
  induction n generalizing ip with
  | zero =>
      rw [namexLoop]
      split
      · refine (iput_safe ip).bind ?_
        rintro _ v' rfl
        rfl
      · rfl
  | succ n ih =>
      rw [namexLoop]
      refine (ilock_safe ip).bind ?_
      rintro _ v' rfl
      refine request_safe trivial (fun _ => rfl) fun i _ => ?_
      refine Safe.ite (fun _ => ?_) fun _ => Safe.ite (fun _ => ?_) fun _ => ?_
      · refine (iunlockput_safe ip).bind ?_
        rintro _ v' rfl
        rfl
      · exact request_safe trivial (fun _ => rfl) fun _ _ => rfl
      · refine (dirlookup_safe ip).bind ?_
        rintro (_ | next) v' rfl
        · refine (iunlockput_safe ip).bind ?_
          rintro _ v' rfl
          rfl
        · change Safe rules _ ((v.addInode ip).addInode next) _
          rw [View.addInode_comm]
          refine (iunlockput_safe ip).bind ?_
          rintro _ v' rfl
          exact ih next

theorem namex_safe (hv : v.live = true) (parent : Bool) :
    Safe rules (namex parent) v fun r v' => v' = v.addOption r := by
  refine request_safe trivial (fun _ => rfl) fun absolute _ => ?_
  refine request_safe trivial (fun _ => rfl) fun n _ => ?_
  have hstart : ∀ absolute,
      Safe rules (namexStart absolute) v fun ip v' => v' = v.addInode ip := by
    intro absolute
    refine Safe.ite (fun _ => ?_) fun _ => ?_
    · exact Safe.request trivial fun _ _ h => h.1
    · refine request_safe trivial (fun _ => rfl) fun ip hip => ?_
      refine Safe.request_bind (.inr ⟨hv, hip⟩) ?_
      rintro _ v' ⟨rfl, -⟩
      rfl
  refine (hstart _).bind ?_
  rintro ip v' rfl
  exact namexLoop_safe parent n ip

theorem linkBad_safe (ip : Slot) :
    Safe rules (linkBad ip) (v.addInode ip) fun _ v' => v' = v := by
  refine (ilock_safe ip).bind ?_
  rintro _ v' rfl
  refine request_safe trivial (fun _ => rfl) fun i _ => ?_
  refine request_safe trivial (fun _ => rfl) fun _ _ => ?_
  exact iunlockput_safe ip

theorem sysLink_safe (hv : v.live = true) :
    Safe rules sysLink v fun _ v' => v' = v := by
  refine (namex_safe hv false).bind ?_
  rintro (_ | ip) v' rfl
  · rfl
  · refine (ilock_safe ip).bind ?_
    rintro _ v' rfl
    refine request_safe trivial (fun _ => rfl) fun i _ => ?_
    refine Safe.ite (fun _ => iunlockput_safe ip) fun _ => ?_
    refine request_safe trivial (fun _ => rfl) fun _ _ => ?_
    refine request_safe trivial (fun _ => rfl) fun _ _ => ?_
    have hlive : (v.addInode ip).live = true := hv
    refine (namex_safe hlive true).bind ?_
    rintro (_ | dp) v' rfl
    · exact linkBad_safe ip
    · change Safe rules _ ((v.addInode ip).addInode dp) _
      refine (ilock_safe dp).bind ?_
      rintro _ v' rfl
      refine request_safe trivial (fun _ => rfl) fun d _ => ?_
      refine Safe.ite (fun _ => ?_) fun _ => ?_
      · refine (iunlockput_safe dp).bind ?_
        rintro _ v' rfl
        exact linkBad_safe ip
      · refine (dirlink_safe dp).bind ?_
        rintro linked v' rfl
        refine Safe.ite (fun _ => ?_) fun _ => ?_
        · refine (iunlockput_safe dp).bind ?_
          rintro _ v' rfl
          exact iput_safe ip
        · refine (iunlockput_safe dp).bind ?_
          rintro _ v' rfl
          exact linkBad_safe ip

theorem unlinkEnd_safe (dp ip : Slot) (type : BitVec 16) :
    Safe rules (unlinkEnd dp ip type) ((v.addInode dp).addInode ip)
      fun _ v' => v' = v := by
  have hparent : Safe rules (if type = T_DIR then do
      let d ← call (.inode dp)
      call (.setNlink dp (d.nlink - 1))
    else pure ()) ((v.addInode dp).addInode ip)
      fun _ v' => v' = (v.addInode dp).addInode ip := by
    refine Safe.ite (fun _ => ?_) fun _ => rfl
    refine request_safe trivial (fun _ => rfl) fun d _ => ?_
    exact Safe.request trivial fun _ _ h => h.1
  refine hparent.bind ?_
  rintro _ v' rfl
  rw [View.addInode_comm]
  refine (iunlockput_safe dp).bind ?_
  rintro _ v' rfl
  refine request_safe trivial (fun _ => rfl) fun i _ => ?_
  refine request_safe trivial (fun _ => rfl) fun _ _ => ?_
  exact iunlockput_safe ip

theorem sysUnlink_safe (hv : v.live = true) :
    Safe rules sysUnlink v fun _ v' => v' = v := by
  refine (namex_safe hv true).bind ?_
  rintro (_ | dp) v' rfl
  · rfl
  · refine (ilock_safe dp).bind ?_
    rintro _ v' rfl
    refine request_safe trivial (fun _ => rfl) fun dots _ => ?_
    refine Safe.ite (fun _ => iunlockput_safe dp) fun _ => ?_
    refine (dirlookup_safe dp).bind ?_
    rintro (_ | ip) v' rfl
    · exact iunlockput_safe dp
    · refine (ilock_safe ip).bind ?_
      rintro _ v' rfl
      refine request_safe trivial (fun _ => rfl) fun i _ => ?_
      refine panicIf_safe ?_
      refine request_safe trivial (fun _ => rfl) fun empty _ => ?_
      refine Safe.ite (fun _ => ?_) fun _ => unlinkEnd_safe dp ip i.type
      refine (iunlockput_safe ip).bind ?_
      rintro _ v' rfl
      exact iunlockput_safe dp

theorem createDots_safe (dp ip : Slot) :
    Safe rules (createDots dp ip) v fun _ v' => v' = v := by
  refine request_safe trivial (fun _ => rfl) fun d _ => ?_
  refine request_safe trivial (fun _ => rfl) fun _ _ => ?_
  refine (dirlink_safe ip).bind ?_
  rintro dot v' rfl
  refine panicIf_safe ?_
  refine (dirlink_safe ip).bind ?_
  rintro dotdot v' rfl
  cases dotdot with
  | false => exact panic_safe (g := .ret)
  | true => rfl

theorem create_safe (hv : v.live = true) (type : BitVec 16) :
    Safe rules (create type) v fun r v' => v' = v.addOption r := by
  refine (namex_safe hv true).bind ?_
  rintro (_ | dp) v' rfl
  · rfl
  · refine (ilock_safe dp).bind ?_
    rintro _ v' rfl
    refine (dirlookup_safe dp).bind ?_
    rintro (_ | ip) v' rfl
    · refine request_safe trivial (fun _ => rfl) fun d _ => ?_
      refine (ialloc_safe d.dev).bind ?_
      rintro ip v' rfl
      refine (ilock_safe ip).bind ?_
      rintro _ v' rfl
      refine request_safe trivial (fun _ => rfl) fun _ _ => ?_
      have hdots : Safe rules
          (if type = T_DIR then createDots dp ip else pure ())
          ((v.addInode dp).addInode ip)
          fun _ v' => v' = (v.addInode dp).addInode ip :=
        Safe.ite (fun _ => createDots_safe dp ip) fun _ => rfl
      refine hdots.bind ?_
      rintro _ v' rfl
      refine (dirlink_safe dp).bind ?_
      rintro linked v' rfl
      refine panicIf_safe ?_
      rw [View.addInode_comm]
      refine (iunlockput_safe dp).bind ?_
      rintro _ v' rfl
      rfl
    · change Safe rules _ ((v.addInode dp).addInode ip) _
      rw [View.addInode_comm]
      refine (iunlockput_safe dp).bind ?_
      rintro _ v' rfl
      refine (ilock_safe ip).bind ?_
      rintro _ v' rfl
      refine request_safe trivial (fun _ => rfl) fun i _ => ?_
      refine Safe.ite (fun _ => rfl) fun _ => ?_
      refine (iunlockput_safe ip).bind ?_
      rintro _ v' rfl
      rfl

theorem sysMake_safe (hv : v.live = true) (type : BitVec 16) :
    Safe rules (sysMake type) v fun _ v' => v' = v := by
  refine (create_safe hv type).bind ?_
  rintro (_ | ip) v' rfl
  · rfl
  · exact iunlockput_safe ip

theorem exec_safe (hv : v.live = true) :
    Safe rules exec v fun _ v' => v' = v := by
  refine (namex_safe hv false).bind ?_
  rintro (_ | ip) v' rfl
  · rfl
  · refine (ilock_safe ip).bind ?_
    rintro _ v' rfl
    exact iunlockput_safe ip

theorem sysUse_safe (fd : Fin NOFILE) (n : ℕ) :
    Safe rules (sysUse fd n) v fun _ v' => v' = v := by
  refine request_safe trivial (fun _ => rfl) ?_
  rintro (_ | f) -
  · rfl
  · change Safe rules (sysUse.useLoop f n) v _
    induction n with
    | zero => rfl
    | succ n ih =>
        rw [sysUse.useLoop]
        refine request_safe trivial (fun _ => rfl) ?_
        rintro (_ | ip) -
        · rfl
        · refine (ilock_safe ip).bind ?_
          rintro _ v' rfl
          exact request_safe trivial (fun _ => rfl) fun _ _ => ih

theorem sysChdir_safe (hv : v.Settled) :
    Safe rules sysChdir v fun _ v' => v'.Settled := by
  refine (namex_safe hv.live false).bind ?_
  rintro (_ | ip) v' rfl
  · exact hv
  · refine (ilock_safe ip).bind ?_
    rintro _ v' rfl
    refine request_safe trivial (fun _ => rfl) fun i _ => ?_
    refine Safe.ite (fun _ => ?_) fun _ => ?_
    · refine (iunlockput_safe ip).mono ?_
      rintro _ v' rfl
      exact hv
    · refine request_safe trivial (fun _ => rfl) fun _ _ => ?_
      have hlive : (v.addInode ip).live = true := hv.live
      refine Safe.request_bind hlive ?_
      rintro old v' ⟨rfl, -⟩
      change Safe rules _
        (({ v with live := false }.addInode ip).addInode old) _
      refine (iput_safe old).bind ?_
      rintro _ v' rfl
      refine Safe.request ⟨rfl, View.mem_addInode⟩ ?_
      rintro _ v' ⟨rfl, -⟩
      have hinodes : (({ v with live := false }.addInode ip).dropInode ip).inodes
          = 0 := by
        rw [View.dropInode_addInode]
        exact hv.inodes
      exact ⟨hinodes, rfl, hv.files⟩

/-- The process gives up a reference to a file. -/
def View.closed (v : View) (f : FileSlot) : View :=
  { v with
    files := v.files.erase f
    fresh := if v.fresh = some f then none else v.fresh }

theorem View.after_closeFile (v : View) (f : FileSlot) (r : Option Slot) :
    v.after (.closeFile f) r = (v.closed f).addOption r := by
  cases r with
  | none => rfl
  | some ip => rfl

theorem fileclose_safe (hf : f ∈ v.files) :
    Safe rules (fileclose f) v fun _ v' => v' = v.closed f := by
  refine Safe.request_bind hf ?_
  rintro r v' ⟨rfl, -⟩
  rw [View.after_closeFile]
  cases r with
  | none => rfl
  | some ip => exact iput_safe ip

theorem sysClose_safe (hv : v.Settled) (fd : Fin NOFILE) :
    Safe rules (sysClose fd) v fun _ v' => v'.Settled := by
  refine request_safe trivial (fun _ => rfl) ?_
  rintro (_ | f) hfd
  · exact hv
  · have hfd : v.ofile fd = some f := hfd.symm
    refine Safe.request_bind trivial ?_
    rintro _ v' ⟨rfl, -⟩
    have hmem : f ∈ (v.setOfile fd none).files := hv.mem_files hfd
    refine (fileclose_safe hmem).mono ?_
    rintro _ v' rfl
    refine ⟨hv.inodes, hv.live, ?_⟩
    intro g
    change (v.files.erase f).count g = (v.setOfile fd none).slots g
    have hslots := v.slots_setOfile fd none g
    have hcount := hv.files g
    have hpos := Multiset.count_pos.mpr (hv.mem_files hfd)
    by_cases hg : g = f
    · subst hg
      rw [Multiset.count_erase_self]
      simp only [hfd, if_true, reduceCtorEq, if_false] at hslots
      omega
    · rw [Multiset.count_erase_of_ne hg]
      simp only [hfd, Option.some_inj, Ne.symm hg, if_false, reduceCtorEq]
        at hslots
      omega

/-- Another descriptor points to a file of which the process gets one more
reference. -/
theorem View.Settled.point (hv : v.Settled) {fd : Fin NOFILE}
    (hfd : v.ofile fd = none) (f : FileSlot) (fresh : Option FileSlot) :
    View.Settled
      { v.setOfile fd (some f) with files := f ::ₘ v.files, fresh } where
  inodes := hv.inodes
  live := hv.live
  files g := by
    change (f ::ₘ v.files).count g = (v.setOfile fd (some f)).slots g
    have hslots := v.slots_setOfile fd (some f) g
    rw [Multiset.count_cons, hv.files]
    simp only [hfd, reduceCtorEq, if_false, Option.some_inj,
      eq_comm (a := f)] at hslots
    omega

theorem sysDup_safe (hv : v.Settled) (fd : Fin NOFILE) :
    Safe rules (sysDup fd) v fun _ v' => v'.Settled := by
  refine request_safe trivial (fun _ => rfl) ?_
  rintro (_ | f) hfd
  · exact hv
  · have hfd : v.ofile fd = some f := hfd.symm
    refine Safe.request_bind trivial ?_
    rintro (_ | fd') v' ⟨rfl, hempty⟩
    · exact hv
    · refine Safe.request (hv.mem_files hfd) ?_
      rintro _ v' ⟨rfl, -⟩
      exact hv.point (hempty fd' rfl) f v.fresh

theorem openInode_safe (hv : v.live = true) (o_create rdonly : Bool) :
    Safe rules (openInode o_create rdonly) v fun r v' =>
      v' = v.addOption r := by
  unfold openInode
  refine Safe.ite (fun _ => create_safe hv T_FILE) fun _ => ?_
  refine (namex_safe hv false).bind ?_
  rintro (_ | ip) v' rfl
  · rfl
  · refine (ilock_safe ip).bind ?_
    rintro _ v' rfl
    refine request_safe trivial (fun _ => rfl) fun i _ => ?_
    refine Safe.ite (fun _ => ?_) fun _ => rfl
    refine (iunlockput_safe ip).bind ?_
    rintro _ v' rfl
    rfl

theorem sysOpen_safe (hv : v.Settled) (o_create rdonly : Bool) :
    Safe rules (sysOpen o_create rdonly) v fun _ v' => v'.Settled := by
  refine (openInode_safe hv.live o_create rdonly).bind ?_
  rintro (_ | ip) v' rfl
  · exact hv
  · refine Safe.request_bind trivial ?_
    rintro (_ | f) v' ⟨rfl, -⟩
    · refine (iunlockput_safe ip).mono ?_
      rintro _ v' rfl
      exact hv
    · -- the file is the process's own until a descriptor points to it
      let u : View := { v with files := f ::ₘ v.files, fresh := some f }
      change Safe rules _ (u.addInode ip) _
      refine Safe.request_bind trivial ?_
      rintro (_ | fd) v' ⟨rfl, hempty⟩
      · have hmem : f ∈ (u.addInode ip).files := Multiset.mem_cons_self ..
        refine (fileclose_safe hmem).bind ?_
        rintro _ v' rfl
        change Safe rules _ ((u.closed f).addInode ip) _
        refine (iunlockput_safe ip).mono ?_
        rintro _ v' rfl
        have hfiles : (u.closed f).files = v.files :=
          Multiset.erase_cons_head ..
        refine ⟨hv.inodes, hv.live, ?_⟩
        rw [hfiles]
        exact hv.files
      · refine request_safe trivial (fun _ => rfl) fun _ _ => ?_
        change Safe rules _ ((u.setOfile fd (some f)).addInode ip) _
        refine Safe.request ⟨rfl, View.mem_addInode⟩ ?_
        rintro _ v' ⟨rfl, -⟩
        change View.Settled { ((u.setOfile fd (some f)).addInode ip).dropInode ip
          with fresh := none }
        rw [View.dropInode_addInode]
        exact hv.point (hempty fd rfl) f none

/-- Every call keeps to the rules and gives back what it got. -/
theorem syscall_safe (hv : v.Settled) (c : Syscall) :
    Safe rules c.prog v fun _ v' => v'.Settled := by
  have hsame : ∀ {x : Prog Unit}, Safe rules x v (fun _ v' => v' = v) →
      Safe rules x v fun _ v' => v'.Settled := by
    intro x hx
    refine hx.mono ?_
    rintro _ v' rfl
    exact hv
  cases c with
  | link => exact hsame (sysLink_safe hv.live)
  | unlink => exact hsame (sysUnlink_safe hv.live)
  | «open» o_create rdonly => exact sysOpen_safe hv o_create rdonly
  | mkdir => exact hsame (sysMake_safe hv.live T_DIR)
  | mknod => exact hsame (sysMake_safe hv.live T_DEV)
  | chdir => exact sysChdir_safe hv
  | exec => exact hsame (exec_safe hv.live)
  | close fd => exact sysClose_safe hv fd
  | dup fd => exact sysDup_safe hv fd
  | use fd n => exact hsame (sysUse_safe fd n)

end Calls

/-! ## The books -/

/-- The references to an inode that a process has. -/
def View.points (v : View) (ip : Slot) : ℕ :=
  (if v.live = true ∧ v.cwd = ip then 1 else 0) + v.inodes.count ip

section Books

variable {P : Type} [Fintype P] [DecidableEq P]

omit [Fintype P] [DecidableEq P] in
@[simp] theorem Shared.icache_setInode_self (s : Shared P) (c : Slot)
    (i : Inode P) : (s.setInode c i).icache c = i :=
  Function.update_self ..

omit [Fintype P] [DecidableEq P] in
@[simp] theorem Shared.icache_setInode_of_ne (s : Shared P) {c d : Slot}
    (h : d ≠ c) (i : Inode P) : (s.setInode c i).icache d = s.icache d :=
  Function.update_of_ne h ..

/-- The open files of an inode. -/
def openFiles (s : Shared P) (ip : Slot) : ℕ :=
  ∑ f, if (s.ftable f).ip = some ip then 1 else 0

/-- The counts of the tables agree with what belongs to the processes. -/
structure Books (s : Shared P) (view : P → View) : Prop where
  ref : ∀ ip, (s.icache ip).ref = openFiles s ip + ∑ p, (view p).points ip
  files : ∀ f, (s.ftable f).ref = ∑ p, (view p).files.count f
  closed : ∀ f, (s.ftable f).ref = 0 → (s.ftable f).ip = none
  fresh : ∀ p f, (view p).fresh = some f →
    f ∈ (view p).files ∧ (s.ftable f).ip = none
  fresh_inj : ∀ p q f, (view p).fresh = some f → (view q).fresh = some f → p = q
  unique : ∀ c d, 0 < (s.icache c).ref → 0 < (s.icache d).ref →
    (s.icache c).dev = (s.icache d).dev →
    (s.icache c).inum = (s.icache d).inum → c = d

variable {s t : Shared P} {view : P → View} {p : P} {v : View} {c : Slot}
variable {i : Inode P}

/-- What has to be shown when the process `p` changes the tables. -/
theorem Books.of_update (h : Books s view)
    (href : ∀ ip, (t.icache ip).ref + openFiles s ip + (view p).points ip =
      (s.icache ip).ref + openFiles t ip + v.points ip)
    (hfiles : ∀ f, (t.ftable f).ref + (view p).files.count f =
      (s.ftable f).ref + v.files.count f)
    (hclosed : ∀ f, (t.ftable f).ref = 0 → (t.ftable f).ip = none)
    (hfresh : ∀ f, v.fresh = some f →
      f ∈ v.files ∧ (t.ftable f).ip = none ∧
        ∀ q, q ≠ p → (view q).fresh ≠ some f)
    (hothers : ∀ q f, q ≠ p → (view q).fresh = some f → (t.ftable f).ip = none)
    (hunique : ∀ c d, 0 < (t.icache c).ref → 0 < (t.icache d).ref →
      (t.icache c).dev = (t.icache d).dev →
      (t.icache c).inum = (t.icache d).inum → c = d) :
    Books t (Function.update view p v) where
  ref ip := by
    have := Kernel.sum_update view p v fun v => v.points ip
    have := h.ref ip
    have := href ip
    omega
  files f := by
    have := Kernel.sum_update view p v fun v => v.files.count f
    have := h.files f
    have := hfiles f
    omega
  closed := hclosed
  fresh q f hq := by
    by_cases hp : q = p
    · subst hp
      rw [Function.update_self] at hq ⊢
      exact ⟨(hfresh f hq).1, (hfresh f hq).2.1⟩
    · rw [Function.update_of_ne hp] at hq ⊢
      exact ⟨(h.fresh q f hq).1, hothers q f hp hq⟩
  fresh_inj q r f hq hr := by
    by_cases hqp : q = p
    · subst hqp
      rw [Function.update_self] at hq
      by_contra hne
      rw [Function.update_of_ne (Ne.symm hne)] at hr
      exact (hfresh f hq).2.2 r (Ne.symm hne) hr
    · rw [Function.update_of_ne hqp] at hq
      by_cases hrp : r = p
      · subst hrp
        rw [Function.update_self] at hr
        exact absurd hq ((hfresh f hr).2.2 q hqp)
      · rw [Function.update_of_ne hrp] at hr
        exact h.fresh_inj q r f hq hr
  unique := hunique

/-- A step that changes what belongs to the process, but not its
references. -/
theorem Books.setView (h : Books s view)
    (hpoints : ∀ ip, v.points ip = (view p).points ip)
    (hfiles : v.files = (view p).files) (hfresh : v.fresh = (view p).fresh) :
    Books s (Function.update view p v) := by
  refine h.of_update ?_ ?_ h.closed ?_ ?_ h.unique
  · intro ip
    rw [hpoints]
  · intro f
    rw [hfiles]
  · intro f hf
    rw [hfresh] at hf
    rw [hfiles]
    refine ⟨(h.fresh p f hf).1, (h.fresh p f hf).2, ?_⟩
    intro q hq hqf
    exact hq (h.fresh_inj q p f hqf hf)
  · exact fun q f _ hqf => (h.fresh q f hqf).2

/-- A step that changes one entry of the inode cache. -/
theorem Books.setInode (h : Books s view)
    (hpoints : ∀ ip, (if ip = c then i.ref else 0) + (view p).points ip =
      (if ip = c then (s.icache c).ref else 0) + v.points ip)
    (hfiles : v.files = (view p).files) (hfresh : v.fresh = (view p).fresh)
    (hid : 0 < i.ref → ∀ d, d ≠ c → 0 < (s.icache d).ref →
      i.dev = (s.icache d).dev → i.inum ≠ (s.icache d).inum) :
    Books (s.setInode c i) (Function.update view p v) := by
  have hself := s.icache_setInode_self c i
  have hother : ∀ d, d ≠ c → (s.setInode c i).icache d = s.icache d :=
    fun d hd => s.icache_setInode_of_ne hd i
  refine h.of_update ?_ ?_ h.closed ?_ ?_ ?_
  · intro ip
    have := hpoints ip
    change ((s.setInode c i).icache ip).ref + openFiles s ip + _ =
      (s.icache ip).ref + openFiles s ip + _
    by_cases hip : ip = c
    · subst hip
      rw [hself]
      simp only [if_true] at this
      omega
    · rw [hother ip hip]
      simp only [hip, if_false] at this
      omega
  · intro f
    rw [hfiles]
    rfl
  · intro f hf
    rw [hfresh] at hf
    rw [hfiles]
    refine ⟨(h.fresh p f hf).1, (h.fresh p f hf).2, ?_⟩
    intro q hq hqf
    exact hq (h.fresh_inj q p f hqf hf)
  · exact fun q f _ hqf => (h.fresh q f hqf).2
  · intro a b ha hb hdev hinum
    by_cases hac : a = c
    · subst hac
      by_contra hne
      rw [hself] at ha hdev hinum
      rw [hother b (Ne.symm hne)] at hb hdev hinum
      exact hid ha b (Ne.symm hne) hb hdev hinum
    · rw [hother a hac] at ha hdev hinum
      by_cases hbc : b = c
      · subst hbc
        rw [hself] at hb hdev hinum
        exact absurd hinum.symm (hid hb a hac ha hdev.symm)
      · rw [hother b hbc] at hb hdev hinum
        exact h.unique a b ha hb hdev hinum

/-- A step that leaves the references to an entry and its identity alone. -/
theorem Books.touchInode (h : Books s view) (href : i.ref = (s.icache c).ref)
    (hdev : i.dev = (s.icache c).dev) (hinum : i.inum = (s.icache c).inum) :
    Books (s.setInode c i) (Function.update view p (view p)) := by
  refine h.setInode ?_ rfl rfl ?_
  · intro ip
    rw [href]
  · intro hpos d hne hd hdd hdi
    rw [href] at hpos
    rw [hdev] at hdd
    rw [hinum] at hdi
    exact hne (h.unique c d hpos hd hdd hdi).symm

/-- A free entry is recycled for an inode that is not in the cache. -/
theorem Books.recycle (h : Books s view) {dev inum : ℕ}
    (hzero : (s.icache c).ref = 0)
    (hnew : ∀ d, 0 < (s.icache d).ref → dev = (s.icache d).dev →
      inum ≠ (s.icache d).inum) :
    Books (s.setInode c { s.icache c with
        dev := dev, inum := inum, ref := 1, valid := false })
      (Function.update view p ((view p).addInode c)) := by
  refine h.setInode ?_ rfl rfl ?_
  · intro ip
    unfold View.points View.addInode
    rw [Multiset.count_cons]
    by_cases hip : ip = c
    · simp only [hip, if_true, hzero]
      omega
    · simp only [hip, if_false]
      omega
  · exact fun _ d _ => hnew d

/-- One more reference to an entry that has some. -/
theorem Books.idup (h : Books s view) (hpos : 0 < (s.icache c).ref) :
    Books (s.setInode c { s.icache c with ref := (s.icache c).ref + 1 })
      (Function.update view p ((view p).addInode c)) := by
  refine h.setInode ?_ rfl rfl ?_
  · intro ip
    unfold View.points View.addInode
    rw [Multiset.count_cons]
    by_cases hip : ip = c
    · simp only [hip, if_true]
      omega
    · simp only [hip, if_false]
      omega
  · intro _ d hne hd hdd hdi
    exact hne (h.unique c d hpos hd hdd hdi).symm

/-- One reference to an entry less. -/
theorem Books.drop (h : Books s view) (hmem : c ∈ (view p).inodes)
    (href : i.ref = (s.icache c).ref - 1) (hdev : i.dev = (s.icache c).dev)
    (hinum : i.inum = (s.icache c).inum) :
    Books (s.setInode c i) (Function.update view p ((view p).dropInode c)) := by
  have hcount := Multiset.count_pos.mpr hmem
  have hpos : (view p).points c ≤ (s.icache c).ref := by
    rw [h.ref c]
    have := Finset.single_le_sum (f := fun q => (view q).points c)
      (fun _ _ => Nat.zero_le _) (Finset.mem_univ p)
    omega
  unfold View.points at hpos
  refine h.setInode ?_ rfl rfl ?_
  · intro ip
    unfold View.points View.dropInode
    by_cases hip : ip = c
    · simp only [hip, if_true, Multiset.count_erase_self]
      omega
    · simp only [hip, if_false, Multiset.count_erase_of_ne hip]
  · intro hlt d hne hd hdd hdi
    rw [hdev] at hdd
    rw [hinum] at hdi
    exact hne (h.unique c d (by omega) hd hdd hdi).symm

omit [DecidableEq P] in
/-- An entry to which a process has a reference is not free. -/
theorem Books.inode_pos (h : Books s view) (q : P)
    (hq : 0 < (view q).points c) : 0 < (s.icache c).ref := by
  rw [h.ref c]
  have := Finset.single_le_sum (f := fun q => (view q).points c)
    (fun _ _ => Nat.zero_le _) (Finset.mem_univ q)
  omega

omit [DecidableEq P] in
theorem Books.count_le (h : Books s view) (f : FileSlot) (q : P) :
    (view q).files.count f ≤ (s.ftable f).ref := by
  rw [h.files]
  exact Finset.single_le_sum (f := fun q => (view q).files.count f)
    (fun _ _ => Nat.zero_le _) (Finset.mem_univ q)

omit [DecidableEq P] in
/-- A file to which a process has a reference is not free. -/
theorem Books.ref_pos (h : Books s view) {f : FileSlot} {q : P}
    (hf : f ∈ (view q).files) : 0 < (s.ftable f).ref := by
  have := h.count_le f q
  have := Multiset.count_pos.mpr hf
  omega

/-- A step that changes one file. -/
theorem Books.setFile (h : Books s view) {f : FileSlot} {w : File}
    (hpoints : ∀ ip, (if w.ip = some ip then 1 else 0) + v.points ip =
      (if (s.ftable f).ip = some ip then 1 else 0) + (view p).points ip)
    (hfiles : ∀ g, (if g = f then w.ref else 0) + (view p).files.count g =
      (if g = f then (s.ftable f).ref else 0) + v.files.count g)
    (hclosed : w.ref = 0 → w.ip = none)
    (hfresh : ∀ g, v.fresh = some g → g ∈ v.files ∧ (g = f → w.ip = none) ∧
      ((view p).fresh = some g ∨ g = f ∧ (s.ftable f).ref = 0))
    (hothers : ∀ q, q ≠ p → (view q).fresh = some f → w.ip = none) :
    Books (s.setFile f w) (Function.update view p v) := by
  have hself : (s.setFile f w).ftable f = w := Function.update_self ..
  have hother : ∀ g, g ≠ f → (s.setFile f w).ftable g = s.ftable g := by
    intro g hg
    exact Function.update_of_ne hg ..
  refine h.of_update ?_ ?_ ?_ ?_ ?_ h.unique
  · intro ip
    have hsum : openFiles (s.setFile f w) ip +
        (if (s.ftable f).ip = some ip then 1 else 0) = openFiles s ip +
        if w.ip = some ip then 1 else 0 :=
      Kernel.sum_update s.ftable f w fun w => if w.ip = some ip then 1 else 0
    have := hpoints ip
    change (s.icache ip).ref + _ + _ = _
    omega
  · intro g
    have := hfiles g
    by_cases hg : g = f
    · subst hg
      rw [hself]
      simpa using this
    · rw [hother g hg]
      simp only [hg, if_false] at this
      omega
  · intro g
    by_cases hg : g = f
    · subst hg
      rw [hself]
      exact hclosed
    · rw [hother g hg]
      exact h.closed g
  · intro g hg
    obtain ⟨hmem, hip, hwas⟩ := hfresh g hg
    refine ⟨hmem, ?_, ?_⟩
    · by_cases hgf : g = f
      · subst hgf
        rw [hself]
        exact hip rfl
      · rw [hother g hgf]
        rcases hwas with hwas | ⟨rfl, -⟩
        · exact (h.fresh p g hwas).2
        · exact absurd rfl hgf
    · intro q hq hqg
      rcases hwas with hwas | ⟨rfl, hzero⟩
      · exact hq (h.fresh_inj q p g hqg hwas)
      · have := h.ref_pos (h.fresh q g hqg).1
        omega
  · intro q g hq hqg
    by_cases hgf : g = f
    · subst hgf
      rw [hself]
      exact hothers q hq hqg
    · rw [hother g hgf]
      exact (h.fresh q g hqg).2

theorem Books.filealloc (h : Books s view) {f : FileSlot}
    (hzero : (s.ftable f).ref = 0) :
    Books (s.setFile f { s.ftable f with ref := 1 })
      (Function.update view p
        { view p with files := f ::ₘ (view p).files, fresh := some f }) := by
  have hnone := h.closed f hzero
  refine h.setFile ?_ ?_ (fun h => absurd h Nat.one_ne_zero) ?_
    (fun _ _ _ => hnone)
  · intro ip
    rfl
  · intro g
    rw [Multiset.count_cons]
    by_cases hg : g = f
    · simp only [hg, if_true]
      omega
    · simp only [hg, if_false]
      omega
  · intro g hg
    cases hg
    exact ⟨Multiset.mem_cons_self .., fun _ => hnone, .inr ⟨rfl, hzero⟩⟩

theorem Books.install (h : Books s view) {f : FileSlot}
    (hfresh : (view p).fresh = some f) (hmem : c ∈ (view p).inodes) :
    Books (s.setFile f { s.ftable f with ip := some c })
      (Function.update view p
        { (view p).dropInode c with fresh := none }) := by
  obtain ⟨hf, hnone⟩ := h.fresh p f hfresh
  have hcount := Multiset.count_pos.mpr hmem
  refine h.setFile ?_ ?_ ?_ nofun ?_
  · intro ip
    unfold View.points View.dropInode
    simp only [hnone, reduceCtorEq, if_false, Option.some_inj]
    by_cases hip : c = ip
    · subst hip
      simp only [if_true, Multiset.count_erase_self]
      omega
    · rw [if_neg hip, Multiset.count_erase_of_ne (Ne.symm hip)]
  · intro g
    rfl
  · intro hzero
    have := h.ref_pos hf
    simp only at hzero
    omega
  · intro q hq hqf
    exact absurd (h.fresh_inj q p f hqf hfresh) hq

theorem Books.filedup (h : Books s view) {f : FileSlot}
    (hf : f ∈ (view p).files) :
    Books (s.setFile f { s.ftable f with ref := (s.ftable f).ref + 1 })
      (Function.update view p
        { view p with files := f ::ₘ (view p).files }) := by
  refine h.setFile (fun _ => rfl) ?_ nofun ?_
    (fun q _ hq => (h.fresh q f hq).2)
  · intro g
    rw [Multiset.count_cons]
    by_cases hg : g = f
    · simp only [hg, if_true]
      omega
    · simp only [hg, if_false]
      omega
  · intro g hg
    obtain ⟨hmem, hnone⟩ := h.fresh p g hg
    refine ⟨Multiset.mem_cons_of_mem hmem, ?_, .inl hg⟩
    rintro rfl
    exact hnone

/-- A reference to a file is given up; with the last one, the reference of the
file to its inode goes to the process. -/
theorem Books.closeFile (h : Books s view) {f : FileSlot} {w : File}
    {r : Option Slot} (hf : f ∈ (view p).files)
    (hw : w.ref = (s.ftable f).ref - 1)
    (hip : 0 < w.ref ∧ w.ip = (s.ftable f).ip ∧ r = none ∨
      w.ip = none ∧ r = (s.ftable f).ip) :
    Books (s.setFile f w)
      (Function.update view p (((view p).closed f).addOption r)) := by
  have hpos := h.ref_pos hf
  have hmem := Multiset.count_pos.mpr hf
  have hfiles : (((view p).closed f).addOption r).files =
      (view p).files.erase f := by cases r <;> rfl
  have hfresh : (((view p).closed f).addOption r).fresh =
      if (view p).fresh = some f then none else (view p).fresh := by
    cases r <;> rfl
  refine h.setFile ?_ ?_ ?_ ?_ ?_
  · intro ip
    rcases hip with ⟨-, hsame, rfl⟩ | ⟨hnone, rfl⟩
    · rw [hsame]
      rfl
    · rw [hnone]
      cases hold : (s.ftable f).ip with
      | none => rfl
      | some jp =>
          change _ + View.points (((view p).closed f).addInode jp) ip = _
          unfold View.points View.addInode
          rw [Multiset.count_cons]
          simp only [reduceCtorEq, if_false, Option.some_inj,
            eq_comm (a := jp)]
          change 0 + ((if (view p).live = true ∧ (view p).cwd = ip then 1 else 0) +
            ((view p).inodes.count ip + _)) = _
          omega
  · intro g
    rw [hfiles]
    by_cases hg : g = f
    · subst hg
      simp only [if_true, Multiset.count_erase_self]
      omega
    · rw [Multiset.count_erase_of_ne hg]
      simp only [hg, if_false]
  · intro hzero
    rcases hip with ⟨hlt, -⟩ | ⟨hnone, -⟩
    · omega
    · exact hnone
  · intro g hg
    rw [hfresh] at hg
    split at hg
    · cases hg
    · next hne =>
        have hgf : g ≠ f := by
          rintro rfl
          exact hne hg
        rw [hfiles]
        exact ⟨(Multiset.mem_erase_of_ne hgf).mpr (h.fresh p g hg).1,
          fun heq => absurd heq hgf, .inl hg⟩
  · intro q _ hq
    have hnone := (h.fresh q f hq).2
    rcases hip with ⟨-, hsame, -⟩ | ⟨hw, -⟩
    · rw [hsame]
      exact hnone
    · exact hw

/-- What a result says about the process, and the books after it. -/
theorem Books.perform {o : Op} {r : o.Res} {e : Env} (h : Books s view)
    (hpre : o.Pre (view p)) (hrun : s.perform p (view p) e o = .next (r, t)) :
    o.Fact (view p) r ∧
      Books t (Function.update view p ((view p).after o r)) := by
  have hself : Books s (Function.update view p (view p)) :=
    h.setView (fun _ => rfl) rfl rfl
  cases o with
  | ask | inode ip | cwd | ofile fd | fileInode f =>
      cases hrun
      exact ⟨by trivial, hself⟩
  | panic m => cases hrun
  | iget dev inum =>
      refine ⟨trivial, ?_⟩
      simp only [Shared.perform] at hrun
      split at hrun
      · next c hfind =>
          cases hrun
          have hc := List.find?_some hfind
          rw [decide_eq_true_eq] at hc
          exact h.idup hc.1
      · next hnone =>
          split at hrun
          · cases hrun
          · next c hfind =>
              cases hrun
              have hzero := List.find?_some hfind
              rw [decide_eq_true_eq] at hzero
              exact h.recycle hzero fun d hd hdev hinum => by
                have := List.find?_eq_none.mp hnone d (List.mem_finRange d)
                rw [decide_eq_true_eq] at this
                exact this ⟨hd, hdev.symm, hinum.symm⟩
  | idup ip =>
      cases hrun
      refine ⟨trivial, h.idup (h.inode_pos p ?_)⟩
      unfold View.points
      rcases hpre with hmem | ⟨hlive, rfl⟩
      · have := Multiset.count_pos.mpr hmem
        omega
      · rw [if_pos ⟨hlive, rfl⟩]
        omega
  | iputTest ip =>
      refine ⟨trivial, ?_⟩
      simp only [Shared.perform] at hrun
      split at hrun
      · cases hrun
        exact hself
      · cases hrun
        exact h.drop hpre rfl rfl rfl
  | iputDrop ip =>
      cases hrun
      exact ⟨trivial, h.drop hpre rfl rfl rfl⟩
  | ilock ip =>
      refine ⟨trivial, ?_⟩
      simp only [Shared.perform] at hrun
      split at hrun
      · cases hrun
      · split at hrun
        · cases hrun
        · cases hrun
          exact h.touchInode rfl rfl rfl
  | iload ip =>
      refine ⟨trivial, ?_⟩
      simp only [Shared.perform] at hrun
      split at hrun
      · cases hrun
        exact hself
      · split at hrun
        · cases hrun
        · cases hrun
          exact h.touchInode rfl rfl rfl
  | iunlock ip =>
      refine ⟨trivial, ?_⟩
      simp only [Shared.perform] at hrun
      split at hrun
      · cases hrun
      · cases hrun
        exact h.touchInode rfl rfl rfl
  | setType ip type | setNlink ip nlink =>
      cases hrun
      exact ⟨trivial, h.touchInode rfl rfl rfl⟩
  | giveCwd =>
      cases hrun
      refine ⟨rfl, h.setView ?_ rfl rfl⟩
      intro ip
      have hlive : (view p).live = true := hpre
      change 0 + ((view p).cwd ::ₘ (view p).inodes).count ip = _
      unfold View.points
      rw [Multiset.count_cons]
      simp only [hlive, true_and, eq_comm (a := ip)]
      omega
  | setCwd ip =>
      cases hrun
      refine ⟨trivial, h.setView ?_ rfl rfl⟩
      intro jp
      have hlive : (view p).live = false := hpre.1
      have hcount := Multiset.count_pos.mpr hpre.2
      change (if true = true ∧ ip = jp then 1 else 0) +
        ((view p).inodes.erase ip).count jp = _
      unfold View.points
      simp only [hlive, Bool.false_eq_true, false_and, if_false, true_and]
      by_cases hip : ip = jp
      · subst hip
        rw [if_pos rfl, Multiset.count_erase_self]
        omega
      · rw [if_neg hip, Multiset.count_erase_of_ne (Ne.symm hip)]
  | filealloc =>
      refine ⟨trivial, ?_⟩
      simp only [Shared.perform] at hrun
      split at hrun
      · cases hrun
        exact hself
      · next f hfind =>
          cases hrun
          exact h.filealloc (by simpa using List.find?_some hfind)
  | fdalloc f =>
      cases hrun
      refine ⟨?_, ?_⟩
      · intro fd hfd
        simpa using List.find?_some hfd
      · cases (List.finRange NOFILE).find? fun fd => ((view p).ofile fd).isNone
        · exact hself
        · exact h.setView (fun _ => rfl) rfl rfl
  | setInode f ip =>
      cases hrun
      exact ⟨trivial, h.install hpre.1 hpre.2⟩
  | clearFd fd =>
      cases hrun
      exact ⟨trivial, h.setView (fun _ => rfl) rfl rfl⟩
  | filedup f =>
      refine ⟨trivial, ?_⟩
      simp only [Shared.perform] at hrun
      split at hrun
      · cases hrun
      · cases hrun
        exact h.filedup hpre
  | closeFile f =>
      refine ⟨trivial, ?_⟩
      simp only [Shared.perform] at hrun
      split at hrun
      · cases hrun
      · split at hrun
        · next hlt =>
            cases hrun
            rw [View.after_closeFile]
            exact h.closeFile hpre rfl (.inl ⟨hlt, rfl, rfl⟩)
        · next hlt =>
            have hzero : 0 = (s.ftable f).ref - 1 := by omega
            cases hrun
            rw [View.after_closeFile]
            exact h.closeFile hpre hzero (.inr ⟨rfl, rfl⟩)

end Books

/-! ## Whole runs -/

section Runs

variable {P : Type} [DecidableEq P]

/-- The inode of an entry is the same. -/
def SameInode (s t : Shared P) (ip : Slot) : Prop :=
  (t.icache ip).dev = (s.icache ip).dev ∧
    (t.icache ip).inum = (s.icache ip).inum

omit [DecidableEq P] in
theorem sameInode_setInode {s : Shared P} {c : Slot} {i : Inode P} (ip : Slot)
    (h : ip = c → i.dev = (s.icache c).dev ∧ i.inum = (s.icache c).inum) :
    SameInode s (s.setInode c i) ip := by
  unfold SameInode
  by_cases hip : ip = c
  · subst hip
    rw [Shared.icache_setInode_self]
    exact h rfl
  · rw [Shared.icache_setInode_of_ne s hip]
    exact ⟨rfl, rfl⟩

/-- Only a free entry gets another inode. -/
theorem perform_sameInode {s t : Shared P} {p : P} {v : View} {e : Env} {o : Op}
    {r : o.Res} (hrun : s.perform p v e o = .next (r, t)) {ip : Slot}
    (hpos : 0 < (s.icache ip).ref) : SameInode s t ip := by
  have hsame : SameInode s s ip := ⟨rfl, rfl⟩
  cases o with
  | ask | inode | cwd | giveCwd | setCwd | ofile | fdalloc | fileInode | clearFd
  | setInode =>
      cases hrun
      exact hsame
  | panic => cases hrun
  | iget dev inum =>
      simp only [Shared.perform] at hrun
      split at hrun
      · cases hrun
        exact sameInode_setInode ip fun _ => ⟨rfl, rfl⟩
      · split at hrun
        · cases hrun
        · next c hfind =>
            cases hrun
            have hzero := List.find?_some hfind
            rw [decide_eq_true_eq] at hzero
            apply sameInode_setInode
            rintro rfl
            omega
  | idup | iputDrop | setType | setNlink =>
      cases hrun
      exact sameInode_setInode ip fun _ => ⟨rfl, rfl⟩
  | iputTest | iload =>
      simp only [Shared.perform] at hrun
      split at hrun
      · cases hrun
        exact hsame
      · first
          | cases hrun
            exact sameInode_setInode ip fun _ => ⟨rfl, rfl⟩
          | split at hrun
            · cases hrun
            · cases hrun
              exact sameInode_setInode ip fun _ => ⟨rfl, rfl⟩
  | ilock =>
      simp only [Shared.perform] at hrun
      split at hrun
      · cases hrun
      · split at hrun
        · cases hrun
        · cases hrun
          exact sameInode_setInode ip fun _ => ⟨rfl, rfl⟩
  | iunlock =>
      simp only [Shared.perform] at hrun
      split at hrun
      · cases hrun
      · cases hrun
        exact sameInode_setInode ip fun _ => ⟨rfl, rfl⟩
  | filealloc =>
      simp only [Shared.perform] at hrun
      split at hrun <;> cases hrun <;> exact hsame
  | filedup =>
      simp only [Shared.perform] at hrun
      split at hrun
      · cases hrun
      · cases hrun
        exact hsame
  | closeFile =>
      simp only [Shared.perform] at hrun
      split at hrun
      · cases hrun
      · split at hrun <;> cases hrun <;> exact hsame

variable [Fintype P] {s t : State P} {acts : List (Act P)}

/-- No process is in a call, and the counts agree with the open files, the
descriptors and the current directories. -/
structure State.Initial (s : State P) : Prop where
  thread : ∀ p, s.thread p = .ret ()
  settled : ∀ p, (s.view p).Settled
  fresh : ∀ p, (s.view p).fresh = none
  ref : ∀ ip, (s.icache ip).ref =
    openFiles s.toShared ip + ∑ p, (s.view p).points ip
  files : ∀ f, (s.ftable f).ref = ∑ p, (s.view p).slots f
  closed : ∀ f, (s.ftable f).ref = 0 → (s.ftable f).ip = none
  unique : ∀ c d, 0 < (s.icache c).ref → 0 < (s.icache d).ref →
    (s.icache c).dev = (s.icache d).dev →
    (s.icache c).inum = (s.icache d).inum → c = d

/-- The reference counts of the inode cache are right. -/
structure State.Accounted (s : State P) : Prop where
  unique : ∀ c d, 0 < (s.icache c).ref → 0 < (s.icache d).ref →
    (s.icache c).dev = (s.icache d).dev →
    (s.icache c).inum = (s.icache d).inum → c = d
  /-- The open files, and what each process has: its current directory and what
  its call holds. -/
  ref : ∀ ip, (s.icache ip).ref =
    openFiles s.toShared ip + ∑ p, (s.view p).points ip
  /-- Between calls, a process holds nothing but its current directory. -/
  idle : ∀ p, s.thread p = .ret () →
    (s.view p).inodes = 0 ∧ (s.view p).live = true
  /-- A call uses, puts and hands over only what it holds. -/
  pre : ∀ p o k, s.thread p = .op o k → o.Pre (s.view p)

/-- The process has the one reference to the entry. -/
structure State.OnlyHolder (s : State P) (p : P) (ip : Slot) : Prop where
  ref : (s.icache ip).ref = 1
  mem : ip ∈ (s.view p).inodes
  points : (s.view p).points ip = 1
  files : openFiles s.toShared ip = 0
  others : ∀ q, q ≠ p → (s.view q).points ip = 0

structure State.Inv (s : State P) : Prop where
  books : Books s.toShared s.view
  safe : ∀ p, Safe rules (s.thread p) (s.view p) fun _ v => v.Settled

omit [DecidableEq P] in
theorem State.Initial.inv (h : s.Initial) : s.Inv where
  books :=
    { ref := h.ref
      files := by
        intro f
        rw [h.files]
        exact Finset.sum_congr rfl fun p _ => ((h.settled p).files f).symm
      closed := h.closed
      fresh := by
        intro p f hf
        rw [h.fresh p] at hf
        cases hf
      fresh_inj := by
        intro p q f hf
        rw [h.fresh p] at hf
        cases hf
      unique := h.unique }
  safe p := by
    rw [h.thread p]
    exact h.settled p

theorem State.Inv.step (h : s.Inv) {a : Act P} (hstep : s.step a = .next t) :
    t.Inv := by
  cases a with
  | call p c =>
      simp only [State.step, State.begin] at hstep
      split at hstep
      · next u hu =>
          cases hstep
          refine ⟨h.books, ?_⟩
          intro q
          by_cases hq : q = p
          · subst hq
            have hsettled := h.safe q
            rw [hu] at hsettled
            change Safe rules (Function.update s.thread q c.prog q) _ _
            rw [Function.update_self]
            exact syscall_safe hsettled c
          · change Safe rules (Function.update s.thread p c.prog q) _ _
            rw [Function.update_of_ne hq]
            exact h.safe q
      · cases hstep
  | run p e =>
      simp only [State.step, State.run] at hstep
      split at hstep
      · cases hstep
      · next o k hop =>
          obtain ⟨⟨r, sh⟩, hperform, rfl⟩ := Outcome.map_eq_next hstep
          have hsafe := h.safe p
          rw [hop] at hsafe
          obtain ⟨hfact, hbooks⟩ := h.books.perform hsafe.1 hperform
          refine ⟨hbooks, ?_⟩
          intro q
          by_cases hq : q = p
          · subst hq
            change Safe rules (Function.update s.thread q (k r) q)
              (Function.update s.view q _ q) _
            rw [Function.update_self, Function.update_self]
            exact hsafe.2 r _ ⟨rfl, hfact⟩
          · change Safe rules (Function.update s.thread p (k r) q)
              (Function.update s.view p _ q) _
            rw [Function.update_of_ne hq, Function.update_of_ne hq]
            exact h.safe q

omit [DecidableEq P] in
theorem State.Inv.accounted (h : s.Inv) : s.Accounted where
  unique := h.books.unique
  ref := h.books.ref
  idle p hp := by
    have := h.safe p
    rw [hp] at this
    exact ⟨this.inodes, this.live⟩
  pre p o k hop := by
    have := h.safe p
    rw [hop] at this
    exact this.1

/-- The one reference that is left is that of the process that puts it. -/
theorem State.Accounted.onlyHolder (h : s.Accounted) {p : P} {ip : Slot}
    (hmem : ip ∈ (s.view p).inodes) (hone : (s.icache ip).ref = 1) :
    s.OnlyHolder p ip := by
  have href := h.ref ip
  have hpos : 1 ≤ (s.view p).points ip := by
    have := Multiset.count_pos.mpr hmem
    unfold View.points
    omega
  have hsplit := Finset.add_sum_erase Finset.univ
    (fun q => (s.view q).points ip) (Finset.mem_univ p)
  refine ⟨hone, hmem, by omega, by omega, ?_⟩
  intro q hq
  have hle := Finset.single_le_sum (f := fun q => (s.view q).points ip)
    (fun _ _ => Nat.zero_le _)
    (Finset.mem_erase.mpr ⟨hq, Finset.mem_univ q⟩)
  omega

/-- Whatever calls the processes make and however their steps interleave, the
reference counts of the inode cache are right, an entry in use keeps its inode,
and `iput` frees an inode only for the holder of the only reference to an inode
without links. -/
theorem references_accounted (hs : s.Initial)
    (hrun : Run State.step s acts t) :
    t.Accounted ∧
      (∀ a u, t.step a = .next u → ∀ ip, 0 < (t.icache ip).ref →
        SameInode t.toShared u.toShared ip) ∧
      ∀ p ip k e sh, t.thread p = .op (.iputTest ip) k →
        t.perform p (t.view p) e (.iputTest ip) = .next (true, sh) →
        t.OnlyHolder p ip ∧ (t.icache ip).valid = true ∧
          (t.icache ip).nlink = 0 := by
  have hinv : t.Inv :=
    Run.invariant (I := State.Inv) (fun _ _ _ h hstep => h.step hstep) hrun
      hs.inv
  refine ⟨hinv.accounted, ?_, ?_⟩
  · intro a u hstep ip hpos
    cases a with
    | call p c =>
        simp only [State.step, State.begin] at hstep
        split at hstep <;> cases hstep
        exact ⟨rfl, rfl⟩
    | run p e =>
        simp only [State.step, State.run] at hstep
        split at hstep
        · cases hstep
        · obtain ⟨⟨r, sh⟩, hperform, rfl⟩ := Outcome.map_eq_next hstep
          exact perform_sameInode hperform hpos
  · intro p ip k e sh hop hfree
    simp only [Shared.perform] at hfree
    split at hfree
    · next htest =>
        have hmem := hinv.accounted.pre p _ k hop
        exact ⟨hinv.accounted.onlyHolder hmem htest.1, htest.2.1, htest.2.2⟩
    · cases hfree

/-- A process in the root directory, and nothing else in use. -/
def State.boot : State Unit where
  icache ip :=
    { dev := ROOTDEV, inum := if ip = 0 then ROOTINO else 0
      type := 0, nlink := 0, ref := if ip = 0 then 1 else 0
      valid := false, lock := none }
  ftable _ := { ref := 0, ip := none }
  view _ :=
    { cwd := 0, ofile := fun _ => none, inodes := 0, files := 0, live := true
      fresh := none }
  thread _ := .ret ()

/-- `mkdir` with a relative path of no elements has a second reference to the
current directory, and is to put it. -/
theorem references_accounted_boot :
    ∃ t, Run State.step State.boot
        [.call () .mkdir, .run () ⟨0, 0, 0⟩, .run () ⟨0, 0, 0⟩,
          .run () ⟨0, 0, 0⟩, .run () ⟨0, 0, 0⟩] t ∧
      (t.icache 0).ref = 2 ∧ t.Accounted := by
  obtain ⟨t, hrun, href⟩ := Run.exists_of_exec State.step State.boot
    [.call () .mkdir, .run () ⟨0, 0, 0⟩, .run () ⟨0, 0, 0⟩, .run () ⟨0, 0, 0⟩,
      .run () ⟨0, 0, 0⟩]
    (fun t => (t.icache 0).ref = 2) (by decide +kernel)
  have hs : State.boot.Initial := by
    constructor
    case thread => exact fun _ => rfl
    case settled =>
      intro p
      exact ⟨rfl, rfl, fun f => by simp [State.boot, View.slots]⟩
    case fresh => exact fun _ => rfl
    case ref =>
      intro ip
      simp [State.boot, openFiles, View.points, eq_comm]
    case files => exact fun f => by simp [State.boot, View.slots]
    case closed => exact fun _ _ => rfl
    case unique =>
      intro c d hc hd _ _
      simp only [State.boot] at hc hd
      split at hc
      · next h =>
          split at hd
          · next h' => rw [h, h']
          · cases hd
      · cases hc
  exact ⟨t, hrun, by simpa using href, (references_accounted hs hrun).1⟩

end Runs

end ZtlOs.Fs.Icache
