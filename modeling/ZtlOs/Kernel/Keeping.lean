import ZtlOs.Kernel.Calls
import ZtlOs.Kernel.Names

/-!
# Nodes that a call refers to

A call may change the links of a node, add and remove the entries of a
directory, and make and free other nodes.  A node that it refers to keeps its
type, its blocks and, unless it is a directory, its bytes.
-/

namespace ZtlOs.Kernel

open ZtlOs.Support ZtlOs.Support.Program ZtlOs.Support.Bindings ZtlOs.Fs

variable {P : Type} {s t u : State P} {k k' k₂ k₃ : Ctx P} {ip dp c : Slot}
variable {i j : ℕ} {n n' m : Node} {name : Bytes}

/-! ## Nodes that are alike -/

/-- The same node up to its links, its device numbers and the entries of a
directory. -/
structure Alike (n n' : Node) : Prop where
  type : n'.type = n.type
  data : n.type ≠ T_DIR → n'.data = n.data

theorem Alike.refl (n : Node) : Alike n n :=
  ⟨rfl, fun _ => rfl⟩

theorem Alike.trans (h : Alike n n') (h' : Alike n' m) : Alike n m where
  type := h'.type.trans h.type
  data hn := (h'.data (by rwa [h.type])).trans (h.data hn)

/-- The part of a call ends with `k'`, and the nodes that `k` refers to are
still alike. -/
structure Mild (k k' : Ctx P) (s t : State P) : Prop where
  world : World t k'
  frame : Frame k s t
  alike : ∀ c ∈ k.refs, ∀ n, s.node (s.icache c).inum = some n →
    ∃ n', t.node (s.icache c).inum = some n' ∧ Alike n n'

theorem Calm.mild (h : Calm k k' s t) : Mild k k' s t where
  world := h.world
  frame := h.frame
  alike c hc n hn := by
    rcases h.frees (s.icache c).inum with heq | ⟨-, -, -, -, href⟩
    · exact ⟨n, heq.trans hn, .refl n⟩
    · exact absurd rfl (href c hc)

theorem Still.mild (h : Still k k' s t) : Mild k k' s t :=
  h.calm.mild

theorem Changed.mild (h : Changed k k' i n' s t)
    (hn : ∀ n, s.node i = some n → Alike n n') : Mild k k' s t where
  world := h.world
  frame := h.frame
  alike c _ m hm := by
    rw [h.node]
    by_cases hc : (s.icache c).inum = i
    · rw [hc] at hm ⊢
      exact ⟨n', Function.update_self .., hn m hm⟩
    · exact ⟨m, (Function.update_of_ne hc ..).trans hm, .refl m⟩

namespace Mild

theorem refl (h : World s k) : Mild k k s s :=
  (Still.refl h).mild

theorem mono (h : Mild k k₂ s t) (hk : ∀ c ∈ k'.refs, c ∈ k.refs) :
    Mild k' k₂ s t :=
  ⟨h.world, h.frame.mono hk, fun c hc => h.alike c (hk c hc)⟩

theorem trans (h : Mild k k₂ s t) (h' : Mild k k₃ t u) : Mild k k₃ s u where
  world := h'.world
  frame := h.frame.trans h'.frame
  alike c hc n hn := by
    obtain ⟨n', hn', halike⟩ := h.alike c hc n hn
    rw [← h.frame.inum c hc] at hn'
    obtain ⟨m, hm, halike'⟩ := h'.alike c hc n' hn'
    rw [h.frame.inum c hc] at hm
    exact ⟨m, hm, halike.trans halike'⟩

/-- The rest of a call may refer to more. -/
theorem andThen (h : Mild k k₂ s t) (h' : Mild k' k₃ t u)
    (hk : ∀ c ∈ k.refs, c ∈ k'.refs) : Mild k k₃ s u :=
  h.trans (h'.mono hk)

end Mild

/-- A loaded node is still loaded. -/
theorem Loaded.mild (h : Loaded s k ip i n) (hm : Mild k' k₂ s t)
    (hk' : ip ∈ k'.refs) (hk₂ : ip ∈ k₂.refs) :
    ∃ n', Alike n n' ∧ Loaded t k₂ ip i n' := by
  obtain ⟨n', hn', halike⟩ := hm.alike ip hk' n (h.inum.symm ▸ h.node)
  exact ⟨n', halike, hm.world, hk₂, (hm.frame.inum ip hk').trans h.inum,
    hm.frame.valid ip hk' h.valid, h.inum ▸ hn'⟩

/-! ## The tables of files and descriptors -/

/-- What the nodes depend on. -/
def State.volume (s : State P) :
    Superblock × (ℕ → Block) × (Slot → Inode) × List ℕ :=
  (s.sb, s.disk, s.icache, s.bufs)

/-- Neither the disk nor the cache has changed. -/
theorem World.same (h : World s k) (hholds : Holds t k')
    (heq : t.volume = s.volume) : Still k k' s t := by
  obtain ⟨hsb, hdisk, hcache, hbufs⟩ : t.sb = s.sb ∧ t.disk = s.disk ∧
      t.icache = s.icache ∧ t.bufs = s.bufs := by
    simpa only [State.volume, Prod.mk.injEq] using heq
  have hlists := lists_congr hsb hdisk
  refine ⟨⟨hholds, h.intact.congr hsb hdisk ?_ ?_ ?_, hbufs.trans h.bufs⟩,
    ⟨hsb, fun c _ => ?_, fun c _ hv => ?_, fun c _ j _ => ?_⟩,
    node_congr hsb hdisk, hlists⟩
  · rw [hcache]
    exact h.intact.distinct
  · rw [hcache]
    exact h.intact.inums
  · rw [hcache]
    exact h.intact.synced
  · rw [hcache]
  · rwa [hcache]
  · rw [hlists]

section Same

variable {α : Type} {x : M P α} {l : α → Ctx P} {Q : α → State P → Prop}

/-- A part of a call that uses neither the disk nor the cache. -/
theorem World.keeps (h : World s k) (hx : Keeps State.volume x)
    (hsat : Sat x s Q fun _ => True) :
    Sat x s (fun a t => Q a t ∧ ∀ k', Holds t k' → Still k k' s t)
      fun _ => True := by
  refine (hx.also hsat).imp ?_
  rintro a t ⟨heq, hq⟩
  exact ⟨hq, fun k' hholds => h.same hholds heq⟩

theorem World.moves (h : World s k) (hx : Keeps State.volume x)
    (hm : Moves Holds k x l) :
    Sat x s (fun a t => Still k (l a) s t) fun _ => True := by
  refine (h.keeps hx (hm.sat s h.holds)).imp ?_
  rintro a t ⟨hholds, hstill⟩
  exact hstill _ hholds

end Same

theorem beginOp_still (h : World s k) (hk : k.toMon = .idle) :
    Sat beginOp s (fun _ t => Still k k.inOp s t) fun _ => True :=
  h.moves (Keeps.modify fun _ => rfl) (beginOp_moves hk)

theorem endOp_still (h : World s k.inOp) (hk : k.toMon = .idle) :
    Sat endOp s (fun _ t => Still k k s t) fun _ => True := by
  have hkeeps : Keeps State.volume (endOp (P := P)) :=
    Keeps.modify fun _ => rfl
  exact (h.moves hkeeps (endOp_moves hk)).imp fun _ _ ht =>
    ht.mono fun _ hc => hc

/-! ## Devices -/

theorem receive_keeps : Keeps State.volume (receive (P := P)) := by
  apply Keeps.bind_get
  intro s
  split
  · exact Sat.pure rfl
  · exact .bind (Sat.set (Sat.pure rfl))

theorem receive_still (h : World s k) :
    Sat receive s (fun _ t => Still k k s t) fun _ => True :=
  h.moves receive_keeps receive_moves

/-- Reading from a device leaves the volume as it is. -/
theorem consoleread_still (m : ℕ) (h : World s (k.lock ip))
    (hip : ip ∈ k.refs) :
    Sat (consoleread ip m) s (fun _ t => Still (k.lock ip) (k.lock ip) s t)
      fun _ => True := by
  refine (iunlock_still h).andThen ?_
  intro _ t ht
  have hinput : Sat (if m < 2 ^ 31 then receive else pure (some [])) t
      (fun _ u => Still k k t u) fun _ => True := by
    apply Sat.ite
    · intro _
      exact receive_still ht.world
    · intro _
      exact Sat.pure (.refl ht.world)
  refine hinput.andThen fun r u hu => ?_
  refine (ilock_still hu.world hip).andThen ?_
  intro _ v hv
  exact Sat.pure ((ht.trans (hu.trans hv.1)).mono fun _ hc => hc)

theorem consolewrite_still (src : Bytes) (h : World s (k.lock ip))
    (hip : ip ∈ k.refs) :
    Sat (consolewrite ip src) s (fun r t => r = some src.length ∧
      Still (k.lock ip) (k.lock ip) s t) fun _ => True := by
  refine (iunlock_still h).andThen ?_
  intro _ t ht
  refine (ilock_still ht.world hip).andThen ?_
  intro _ u hu
  exact Sat.pure ⟨rfl, (ht.trans hu.1).mono fun _ hc => hc⟩

/-- Reading changes no node. -/
theorem readi_any_still (off m : ℕ) (h : Loaded s (k.lock ip) ip i n) :
    Sat (readi ip off m) s (fun _ t => Still (k.lock ip) (k.lock ip) s t)
      fun _ => True := by
  by_cases hdev : n.type = T_DEV
  · apply getDin_bind
    rw [h.type_eq, if_pos hdev]
    apply Sat.ite
    · intro _
      exact consoleread_still m h.world h.mem
    · intro _
      exact Sat.pure (.refl h.world)
  · exact (readi_still off m h hdev).imp fun _ _ ht => ht.2

/-! ## References -/

theorem Ctx.sub_hold (k : Ctx P) (ip : Slot) :
    ∀ c ∈ k.refs, c ∈ (k.hold ip).refs :=
  fun _ hc => Multiset.mem_cons_of_mem hc

theorem Ctx.mem_hold (k : Ctx P) (ip : Slot) : ip ∈ (k.hold ip).refs :=
  Multiset.mem_cons_self ip k.refs

theorem Ctx.sub_own (k : Ctx P) (ip : Slot) :
    ∀ c ∈ k.refs, c ∈ (k.own ip).refs :=
  k.sub_hold ip

/-! ## Links and directories -/

theorem updateNlink_mild (f : BitVec 16 → BitVec 16) (h : Loaded s k ip i n)
    (hop : k.op = true) :
    Sat (updateNlink ip f) s (fun _ t => Mild k k s t) fun _ => True := by
  refine (updateNlink_changed f h hop).imp fun _ t ht => ht.mild ?_
  intro n' hn'
  obtain rfl := Option.some.inj (h.node.symm.trans hn')
  exact ⟨rfl, fun _ => rfl⟩

theorem dirlink_mild {inum : ℕ} (name : Bytes)
    (h : Loaded s (k.lock dp) dp i n) (hop : k.op = true)
    (hinum : inum < s.sb.ninodes) :
    Sat (dirlink dp name inum) s
      (fun _ t => Mild (k.lock dp) (k.lock dp) s t) fun _ => True := by
  refine (dirlink_changed name h hop hinum).imp ?_
  rintro r t ⟨hdir, ht⟩
  split at ht
  · exact ht.mild
  · obtain ⟨-, j, -, hchanged⟩ := ht
    apply hchanged.mild
    intro n' hn'
    obtain rfl := Option.some.inj (h.node.symm.trans hn')
    exact ⟨rfl, fun hnot => absurd hdir hnot⟩

/-- The number of a referenced inode. -/
theorem World.inum_lt (h : World s k) (hip : ip ∈ k.refs) :
    (s.icache ip).inum < s.sb.ninodes :=
  h.intact.inums ip (h.ref_pos hip)

/-- `dirlink` of a referenced inode. -/
theorem dirlink_mild_of_mem (ip : Slot) (name : Bytes) (h : Loaded s (k.lock dp) dp i n)
    (hop : k.op = true) (hip : ip ∈ k.refs) :
    Sat (dirlink dp name (s.icache ip).inum) s
      (fun _ t => Mild (k.lock dp) (k.lock dp) s t) fun _ => True :=
  dirlink_mild name h hop (h.world.inum_lt (k := k.lock dp) hip)

theorem createDots_mild (h : Loaded s (k.lock ip) ip j m)
    (hdp : Loaded s (k.lock ip) dp i n) (hop : k.op = true) :
    Sat (createDots ip dp) s (fun _ t => Mild (k.lock ip) (k.lock ip) s t)
      fun _ => True := by
  refine (updateNlink_mild _ hdp hop).andThen fun _ t ht => ?_
  obtain ⟨m', -, hm'⟩ := h.mild ht h.mem h.mem
  refine .bind (Sat.get ?_)
  refine (dirlink_mild_of_mem ip dot hm' hop h.mem).andThen fun ok u hu => ?_
  have hboth := ht.trans hu
  obtain ⟨m₂, -, hm₂⟩ := h.mild hboth h.mem h.mem
  apply Sat.ite
  · intro _
    exact Sat.throw trivial
  intro _
  have hdots := dirlink_mild_of_mem (k := k) dp dotdot hm₂ hop hdp.mem
  rw [hu.frame.inum dp hdp.mem] at hdots
  refine hdots.andThen fun ok v hv => ?_
  apply Sat.ite
  · intro _
    exact Sat.throw trivial
  · intro _
    exact Sat.pure (hboth.trans hv)

/-! ## New files -/

/-- Locking an inode that has just been obtained. -/
theorem ilock_own (h : World s (k.hold ip)) :
    Sat (ilock ip) s (fun _ t => Still (k.hold ip) (k.own ip) s t ∧
      ∃ n, Loaded t (k.own ip) ip (s.icache ip).inum n) fun _ => True := by
  have hmem := k.mem_hold ip
  refine (ilock_still h hmem).imp ?_
  rintro _ t ⟨ht, hvalid⟩
  obtain ⟨n, hn⟩ := ht.world.loaded hmem hvalid
  rw [ht.frame.inum ip hmem] at hn
  exact ⟨ht, n, hn⟩

/-- The rule for the new inode of `create`. -/
theorem allocate_bind {type major minor : BitVec 16} {α : Type}
    {rest : Slot → M P α} {Q : α → State P → Prop} (h : World s k)
    (hop : k.op = true) (htype : type ≠ 0)
    (hrest : ∀ ip t j, Mild k (k.own ip) s t →
      Loaded t (k.own ip) ip j ⟨type, major, minor, 1, []⟩ →
        Sat (rest ip) t Q fun _ => True) :
    Sat (do
      let ip ← ialloc type
      ilock ip
      let d ← getDin ip
      setDin ip { d with major := major, minor := minor, nlink := 1 }
      iupdate ip
      rest ip) s Q fun _ => True := by
  refine (ialloc_allocated htype hop h).andThen ?_
  rintro ip t ⟨j, hj⟩
  have hnew : Mild k (k.hold ip) s t := hj.changed.mild fun n hn => by
    rw [hj.free] at hn
    cases hn
  refine (ilock_own hnew.world).andThen ?_
  rintro _ u ⟨hu, n, hn⟩
  rw [hj.inum] at hn
  have hnode : n = ⟨type, 0, 0, 0, []⟩ := by
    have := hn.node
    rw [hu.node, hj.changed.node, Function.update_self] at this
    exact (Option.some.inj this).symm
  subst hnode
  apply getDin_bind
  apply Sat.assoc
  refine (hn.iupdate_changed (d := { (u.icache ip).din with
    major := major, minor := minor, nlink := 1 }) hop rfl rfl rfl).andThen ?_
  intro _ v hv
  refine hrest ip v j ?_ (hn.changed hv hn.mem hn.mem)
  have hown : Mild (k.own ip) (k.own ip) u v := hv.mild fun n' hn' => by
    obtain rfl := Option.some.inj (hn.node.symm.trans hn')
    exact ⟨rfl, fun _ => rfl⟩
  exact (hnew.andThen hu.mild (k.sub_hold ip)).andThen hown (k.sub_own ip)

/-- What `create` returns is locked, and a file if it was asked for one. -/
def Created (k : Ctx P) (type : BitVec 16) (r : Option Slot) (s t : State P) :
    Prop :=
  Mild k (k.owns r) s t ∧ ∀ ip, r = some ip →
    ∃ i n, Loaded t (k.own ip) ip i n ∧ (type = T_FILE → n.type = T_FILE)

theorem create_created (p : P) (path : Bytes) (type major minor : BitVec 16)
    (h : World s k) (hop : k.op = true) (hcwd : s.cwd p ∈ k.refs)
    (htype : type ≠ 0) :
    Sat (create p path type major minor) s
      (fun r t => Created k type r s t) fun _ => True := by
  refine (namex_named p path h hop hcwd).andThen ?_
  rintro (_ | ⟨dp, name⟩) t ⟨ht, -⟩
  · exact Sat.pure ⟨ht.mild, fun ip hr => nomatch hr⟩
  refine (ilock_own ht.world).andThen ?_
  rintro _ u ⟨hu, n, hn⟩
  have hown : Mild k (k.own dp) s u :=
    ht.mild.andThen hu.mild (k.sub_hold dp)
  refine (dirlookup_searched name hn).andThen ?_
  rintro (_ | ⟨ip, off⟩) v ⟨hdir, hv⟩
  · obtain ⟨hstill, -⟩ := hv
    have hdp := hn.still hstill hn.mem hn.mem
    refine allocate_bind (k := k.own dp) hdp.world hop htype ?_
    intro ip w j hnew hip
    obtain ⟨n', hn', hdp'⟩ := hdp.mild hnew hn.mem
      (Ctx.sub_own _ ip dp hn.mem)
    have hfields : Sat (if type = T_DIR then createDots ip dp else pure ()) w
        (fun _ x => Mild ((k.own dp).own ip) ((k.own dp).own ip) w x)
        fun _ => True := by
      apply Sat.ite
      · intro _
        exact createDots_mild (k := (k.own dp).hold ip) hip hdp' hop
      · intro _
        exact Sat.pure (.refl hip.world)
    refine hfields.andThen fun _ x hx => ?_
    have hall : Mild k ((k.own dp).own ip) s x := by
      refine (hown.andThen hstill.mild (k.sub_own dp)).andThen ?_ (k.sub_own dp)
      exact hnew.andThen hx (Ctx.sub_own _ ip)
    obtain ⟨m, hm, hip'⟩ := hip.mild hx hip.mem hip.mem
    obtain ⟨n₂, -, hdp₂⟩ := hdp'.mild hx hdp'.mem hdp'.mem
    rw [Ctx.own_comm] at hdp₂ hall
    refine .bind (Sat.get ?_)
    refine (dirlink_mild_of_mem (k := (k.own ip).hold dp) ip name hdp₂ hop
      (Ctx.sub_hold _ dp ip (k.mem_hold ip))).andThen ?_
    intro ok y hy
    apply Sat.ite
    · intro _
      exact Sat.throw trivial
    intro _
    refine (iunlockput_calm (k := k.own ip) hy.world hop).andThen ?_
    intro _ z hz
    have hend : Mild (k.own ip) (k.own ip) x z :=
      Mild.trans (hy.mono (Ctx.sub_hold (k.own ip) dp)) hz.mild
    obtain ⟨m', hm', hlast⟩ := hip'.mild hend (k.mem_hold ip) (k.mem_hold ip)
    refine Sat.pure ⟨hall.andThen hend (k.sub_own ip), ?_⟩
    rintro _ ⟨⟩
    exact ⟨j, m', hlast, fun hfile => (hm.trans hm').type.trans hfile⟩
  · obtain ⟨j, inum, -, -, hstill, -⟩ := hv
    have hworld := hstill.world
    rw [Ctx.own_hold] at hworld
    refine (iunlockput_calm (k := k.hold ip) hworld hop).andThen ?_
    intro _ w hw
    refine (ilock_own hw.world).andThen ?_
    rintro _ x ⟨hx, n', hn'⟩
    have hheld : Mild k (k.own ip) s x := by
      have hnext := hown.andThen hstill.mild (k.sub_own dp)
      exact (hnext.andThen hw.mild (k.sub_hold ip)).andThen hx.mild
        (k.sub_hold ip)
    apply getDin_bind
    apply Sat.ite
    · rintro ⟨-, hfile⟩
      refine Sat.pure ⟨hheld, ?_⟩
      rintro _ ⟨⟩
      exact ⟨_, n', hn', fun _ => hn'.type_eq.symm.trans hfile⟩
    · intro _
      refine (iunlockput_calm (k := k) hn'.world hop).andThen fun _ y hy => ?_
      exact Sat.pure ⟨hheld.trans hy.mild, fun ip hr => nomatch hr⟩

/-- An inode that is opened is locked, and a directory is only read. -/
theorem openInode_mild (p : P) (path : Bytes) (omode : BitVec 32)
    (h : World s k) (hop : k.op = true) (hcwd : s.cwd p ∈ k.refs) :
    Sat (openInode p path omode) s (fun r t => Mild k (k.owns r) s t ∧
      ∀ ip, r = some ip → ∃ i n, Loaded t (k.own ip) ip i n ∧
        (n.type = T_DIR → omode = O_RDONLY)) fun _ => True := by
  apply Sat.ite
  · intro _
    refine (create_created p path T_FILE 0 0 h hop hcwd (by decide)).imp ?_
    rintro r t ⟨ht, hr⟩
    refine ⟨ht, fun ip hip => ?_⟩
    obtain ⟨i, n, hn, hfile⟩ := hr ip hip
    refine ⟨i, n, hn, fun hdir => ?_⟩
    have hne : T_FILE ≠ T_DIR := by decide
    exact absurd ((hfile rfl).symm.trans hdir) hne
  · intro _
    refine (namei_calm p path h hop hcwd).andThen ?_
    rintro (_ | ip) t ht
    · exact Sat.pure ⟨ht.mild, fun ip hr => nomatch hr⟩
    refine (ilock_own ht.world).andThen ?_
    rintro _ u ⟨hu, n, hn⟩
    have hheld := ht.mild.andThen hu.mild (k.sub_hold ip)
    apply getDin_bind
    rw [hn.type_eq]
    apply Sat.ite
    · intro _
      refine (iunlockput_calm (k := k) hn.world hop).andThen fun _ v hv => ?_
      exact Sat.pure ⟨hheld.trans hv.mild, fun ip hr => nomatch hr⟩
    · intro hnot
      refine Sat.pure ⟨hheld, ?_⟩
      rintro _ ⟨⟩
      exact ⟨_, n, hn, fun hdir => by_contra fun hmode => hnot ⟨hdir, hmode⟩⟩

/-! ## Calls that return without a new reference -/

theorem World.cwd_mem {p : P} (h : World s k) (hcwd : k.cwd p ∈ k.refs) :
    s.cwd p ∈ k.refs := by
  rwa [h.holds.cwd]

/-- The end of a transaction and of the call. -/
theorem endOp_mild {α : Type} (a : α) (h : World s k.inOp)
    (hk : k.toMon = .idle) :
    Sat (do
      endOp
      pure a : M P α) s (fun _ t => Mild k k s t) fun _ => True := by
  refine (endOp_still h hk).andThen fun _ t ht => ?_
  exact Sat.pure ht.mild

theorem unlinkBad_mild (h : World s (k.inOp.own dp)) (hk : k.toMon = .idle) :
    Sat (unlinkBad dp) s (fun _ t => Mild k k s t) fun _ => True := by
  refine (iunlockput_calm (k := k.inOp) h rfl).andThen fun _ t ht => ?_
  refine (endOp_mild (-1) ht.world hk).imp fun _ u hu => ?_
  exact Mild.trans (ht.mild.mono fun _ hc => hc) hu

theorem linkBad_mild (h : World s (k.inOp.hold ip)) (hk : k.toMon = .idle) :
    Sat (linkBad ip) s (fun _ t => Mild k k s t) fun _ => True := by
  refine (ilock_own h).andThen ?_
  rintro _ t ⟨ht, n, hn⟩
  refine (updateNlink_mild _ hn rfl).andThen fun _ u hu => ?_
  have hboth := ht.mild.trans (hu.mono fun _ hc => hc)
  refine (unlinkBad_mild hu.world hk).imp fun _ v hv => ?_
  exact Mild.trans (hboth.mono (k.sub_hold ip)) hv

theorem sysLink_mild (p : P) (old new : Option Bytes) (h : World s k)
    (hk : k.toMon = .idle) (hcwd : k.cwd p ∈ k.refs) :
    Sat (sysLink p old new) s (fun _ t => Mild k k s t) fun _ => True := by
  unfold sysLink
  split
  · next old new =>
      refine (beginOp_still h hk).andThen fun _ s₁ h₁ => ?_
      refine (namei_calm p old h₁.world rfl
        (h₁.world.cwd_mem hcwd)).andThen ?_
      rintro (_ | ip) s₂ h₂
      · refine (endOp_mild (-1) h₂.world hk).imp fun _ t ht => ?_
        exact (h₁.mild.andThen h₂.mild fun _ hc => hc).trans ht
      have hfirst : Mild k (k.inOp.hold ip) s s₂ :=
        h₁.mild.andThen h₂.mild fun _ hc => hc
      refine (ilock_own h₂.world).andThen ?_
      rintro _ s₃ ⟨h₃, n, hn⟩
      have hlocked := hfirst.andThen h₃.mild (k.sub_hold ip)
      apply getDin_bind
      apply Sat.ite
      · intro _
        refine (unlinkBad_mild hlocked.world hk).imp fun _ t ht => ?_
        exact hlocked.trans ht
      intro _
      refine (updateNlink_mild _ hn rfl).andThen fun _ s₄ h₄ => ?_
      refine (iunlock_still (k := k.inOp.hold ip) h₄.world).andThen ?_
      intro _ s₅ h₅
      have hlinked : Mild k (k.inOp.hold ip) s s₅ :=
        (hlocked.andThen h₄ (k.sub_own ip)).andThen h₅.mild (k.sub_hold ip)
      have hcwd' : k.cwd p ∈ (k.inOp.hold ip).refs := k.sub_hold ip _ hcwd
      refine (namex_named p new h₅.world rfl
        (h₅.world.cwd_mem hcwd')).andThen ?_
      rintro (_ | ⟨dp, name⟩) s₆ ⟨h₆, -⟩
      · have hall := hlinked.andThen h₆.mild (k.sub_hold ip)
        refine (linkBad_mild hall.world hk).imp fun _ t ht => ?_
        exact hall.trans ht
      refine (ilock_own (k := k.inOp.hold ip) h₆.world).andThen ?_
      rintro _ s₇ ⟨h₇, m, hm⟩
      refine .bind (Sat.get ?_)
      refine (dirlink_mild_of_mem (k := (k.inOp.hold ip).hold dp) ip name hm
        rfl ?_).andThen fun ok s₈ h₈ => ?_
      · exact Ctx.sub_hold _ dp ip (k.mem_hold ip)
      refine (iunlockput_calm (k := k.inOp.hold ip) h₈.world rfl).andThen ?_
      intro _ s₉ h₉
      have hentered : Mild (k.inOp.hold ip) ((k.inOp.hold ip).own dp) s₅ s₇ :=
        h₆.mild.andThen h₇.mild (Ctx.sub_hold _ dp)
      have hput : Mild (k.inOp.hold ip) (k.inOp.hold ip) s₅ s₉ :=
        (hentered.andThen h₈ (Ctx.sub_own _ dp)).trans h₉.mild
      have hall := hlinked.andThen hput (k.sub_hold ip)
      apply Sat.ite
      · intro _
        refine (iput_calm (k := k.inOp) hall.world rfl).andThen fun _ t ht => ?_
        refine (endOp_mild 0 ht.world hk).imp fun _ u hu => ?_
        exact (hall.andThen ht.mild fun _ hc => hc).trans hu
      · intro _
        refine (linkBad_mild hall.world hk).imp fun _ t ht => ?_
        exact hall.trans ht
  · exact Sat.pure (.refl h)

theorem isdirempty_still (h : Loaded s k dp i n) (hdir : n.type = T_DIR) :
    Sat (isdirempty dp) s (fun _ t => Still k k s t) fun _ => True := by
  have hloop : ∀ (js : List ℕ) (s : State P), Loaded s k dp i n →
      Sat (isdiremptyLoop dp (js.map (Dirent.size * ·))) s
        (fun _ t => Still k k s t) fun _ => True := by
    intro js
    induction js with
    | nil => exact fun s h => Sat.pure (.refl h.world)
    | cons j js ih =>
        intro s h
        have hdev : n.type ≠ T_DEV := by
          rw [hdir]
          decide
        refine (readDirent_still _ h hdev).andThen ?_
        rintro de t ⟨ht, -⟩
        apply Sat.ite
        · intro _
          exact Sat.pure ht
        · intro _
          exact (ih t (h.still ht h.mem h.mem)).imp fun _ _ hu => ht.trans hu
  apply getDin_bind
  rw [h.offsets_eq, ← List.map_drop]
  exact hloop _ s h

/-- Clearing an entry of a directory. -/
theorem writei_zero_mild (h : Loaded s (k.lock dp) dp i n) (hop : k.op = true)
    (hdir : n.type = T_DIR) (hj : Dirent.size * j ≤ n.data.length) :
    Sat (writei dp Dirent.zero.bytes (Dirent.size * j)) s
      (fun _ t => Mild (k.lock dp) (k.lock dp) s t) fun _ => True := by
  have hentries : ∀ de ∈ dirents
      (splice n.data (Dirent.size * j) Dirent.zero.bytes),
      de.inum.toNat < s.sb.ninodes := by
    intro de hde
    rcases mem_dirents_splice hj hde with rfl | hold
    · have := h.lt
      exact Nat.lt_of_le_of_lt (Nat.zero_le i) this
    · exact h.world.intact.entries i n h.node hdir de hold
  refine (writei_changed _ _ h hop (by
    rw [hdir]
    decide) fun _ => hentries).imp fun r t ht => ?_
  split at ht
  · obtain ⟨-, rfl⟩ := ht
    exact .refl h.world
  · refine ht.2.mild fun n' hn' => ?_
    obtain rfl := Option.some.inj (h.node.symm.trans hn')
    exact ⟨rfl, fun hnot => absurd hdir hnot⟩

/-- The end of `sys_unlink`, after the entry has been cleared. -/
theorem unlinkEnd_mild (isDir : Prop) [Decidable isDir]
    (hdp : Loaded s ((k.inOp.own ip).own dp) dp i n)
    (hip : Loaded s ((k.inOp.own ip).own dp) ip j m) (hk : k.toMon = .idle) :
    Sat (do
      (if isDir then updateNlink dp (· - 1) else pure ())
      iunlockput dp
      updateNlink ip (· - 1)
      iunlockput ip
      endOp
      pure 0 : M P ℤ) s (fun _ t => Mild k k s t) fun _ => True := by
  have hparent : Sat (if isDir then updateNlink dp (· - 1) else pure ()) s
      (fun _ t => Mild ((k.inOp.own ip).own dp) ((k.inOp.own ip).own dp) s t)
      fun _ => True := by
    apply Sat.ite
    · intro _
      exact updateNlink_mild _ hdp rfl
    · intro _
      exact Sat.pure (.refl hdp.world)
  refine hparent.andThen fun _ s₁ h₁ => ?_
  refine (iunlockput_calm (k := k.inOp.own ip) h₁.world rfl).andThen ?_
  intro _ s₂ h₂
  have hput : Mild (k.inOp.own ip) (k.inOp.own ip) s s₂ :=
    Mild.trans (h₁.mono (Ctx.sub_own _ dp)) h₂.mild
  have hmem := Ctx.mem_hold k.inOp ip
  obtain ⟨m', -, hm'⟩ := hip.mild hput hmem hmem
  refine (updateNlink_mild _ hm' rfl).andThen fun _ s₃ h₃ => ?_
  have hall := (hput.trans h₃).mono (Ctx.sub_own _ ip)
  refine (iunlockput_calm (k := k.inOp) h₃.world rfl).andThen fun _ s₄ h₄ => ?_
  have hend : Mild k k.inOp s s₄ := (hall.trans h₄.mild).mono fun _ hc => hc
  exact (endOp_mild 0 h₄.world hk).imp fun _ _ ht => hend.trans ht

theorem sysUnlink_mild (p : P) (path : Option Bytes) (h : World s k)
    (hk : k.toMon = .idle) (hcwd : k.cwd p ∈ k.refs) :
    Sat (sysUnlink p path) s (fun _ t => Mild k k s t) fun _ => True := by
  unfold sysUnlink
  split
  · exact Sat.pure (.refl h)
  next path =>
  refine (beginOp_still h hk).andThen fun _ s₁ h₁ => ?_
  refine (namex_named p path h₁.world rfl
    (h₁.world.cwd_mem hcwd)).andThen ?_
  rintro (_ | ⟨dp, name⟩) s₂ ⟨h₂, -⟩
  · refine (endOp_mild (-1) h₂.world hk).imp fun _ t ht => ?_
    exact (h₁.mild.andThen h₂.mild fun _ hc => hc).trans ht
  have hfirst : Mild k (k.inOp.hold dp) s s₂ :=
    h₁.mild.andThen h₂.mild fun _ hc => hc
  refine (ilock_own h₂.world).andThen ?_
  rintro _ s₃ ⟨h₃, n, hn⟩
  have hlocked := hfirst.andThen h₃.mild (k.sub_hold dp)
  have hbad : ∀ u, Mild k (k.inOp.own dp) s u →
      Sat (unlinkBad dp) u (fun _ t => Mild k k s t) fun _ => True := by
    intro u hu
    exact (unlinkBad_mild hu.world hk).imp fun _ t ht => hu.trans ht
  apply Sat.ite
  · intro _
    exact hbad s₃ hlocked
  intro _
  refine (dirlookup_searched name hn).andThen ?_
  rintro (_ | ⟨ip, off⟩) s₄ ⟨hdir, h₄⟩
  · exact hbad s₄ (hlocked.andThen h₄.1.mild (k.sub_own dp))
  obtain ⟨j, inum, rfl, hb, hstill, -⟩ := h₄
  refine (ilock_own hstill.world).andThen ?_
  rintro _ s₅ ⟨h₅, m, hm⟩
  have hfound : Mild k ((k.inOp.own dp).own ip) s s₅ :=
    (hlocked.andThen hstill.mild (k.sub_own dp)).andThen h₅.mild
      fun _ hc => Ctx.sub_hold _ ip _ (k.sub_own dp _ hc)
  apply getDin_bind
  apply Sat.ite
  · intro _
    exact Sat.throw trivial
  intro _
  have hempty : Sat (if (s₅.icache ip).din.type = T_DIR then isdirempty ip
      else pure true) s₅ (fun _ t => Still ((k.inOp.own dp).own ip)
        ((k.inOp.own dp).own ip) s₅ t) fun _ => True := by
    rw [hm.type_eq]
    apply Sat.ite
    · intro hisdir
      exact isdirempty_still hm hisdir
    · intro _
      exact Sat.pure (.refl hm.world)
  refine hempty.andThen fun empty s₆ h₆ => ?_
  have hread := hfound.andThen h₆.mild
    fun _ hc => Ctx.sub_own _ ip _ (k.sub_own dp _ hc)
  apply Sat.ite
  · intro _
    refine (iunlockput_calm (k := k.inOp.own dp) h₆.world rfl).andThen ?_
    intro _ t ht
    exact hbad t (hread.andThen ht.mild (k.sub_own dp))
  intro _
  have hboth := hstill.trans (h₅.mono (Ctx.sub_hold _ ip))
  have hdp₆ := (hn.still hboth hn.mem (Ctx.sub_own _ ip dp hn.mem)).still h₆
    (Ctx.sub_own _ ip dp hn.mem) (Ctx.sub_own _ ip dp hn.mem)
  have hip₆ := hm.still h₆ hm.mem hm.mem
  rw [Ctx.own_comm] at hdp₆ hip₆ hread
  have hj : Dirent.size * j ≤ n.data.length := by
    have := lt_length_of_binds hb
    rw [length_bindings] at this
    simp only [Dirent.size] at *
    omega
  refine (writei_zero_mild (k := (k.inOp.own ip).hold dp) hdp₆ rfl hdir
    hj).andThen fun r s₇ h₇ => ?_
  apply Sat.ite
  · intro _
    exact Sat.throw trivial
  intro _
  obtain ⟨n', -, hn'⟩ := hdp₆.mild h₇ hdp₆.mem hdp₆.mem
  obtain ⟨m', -, hm'⟩ := hip₆.mild h₇ hip₆.mem hip₆.mem
  refine (unlinkEnd_mild _ hn' hm' hk).imp fun _ t ht => ?_
  exact (hread.andThen h₇ fun _ hc =>
    Ctx.sub_own _ dp _ (k.sub_own ip _ hc)).trans ht

/-- `iunlockput(ip); end_op();` at the end of `sys_mkdir` and `sys_mknod`. -/
theorem create_mild (p : P) (path : Bytes) (type major minor : BitVec 16)
    (h : World s k.inOp) (hk : k.toMon = .idle) (hcwd : k.cwd p ∈ k.refs)
    (htype : type ≠ 0) :
    Sat (do
      let r ← create p path type major minor
      match r with
      | none => do
          endOp
          pure (-1)
      | some ip => do
          iunlockput ip
          endOp
          pure 0 : M P ℤ) s (fun _ t => Mild k k s t) fun _ => True := by
  refine (create_created p path type major minor h rfl (h.cwd_mem hcwd)
    htype).andThen ?_
  rintro (_ | ip) t ⟨ht, -⟩
  · have hend : Mild k k.inOp s t := ht.mono fun _ hc => hc
    exact (endOp_mild (-1) ht.world hk).imp fun _ _ hu => hend.trans hu
  · refine (iunlockput_calm (k := k.inOp) ht.world rfl).andThen fun _ u hu => ?_
    have hend : Mild k k.inOp s u :=
      Mild.trans (ht.mono fun _ hc => hc) (hu.mild.mono fun _ hc => hc)
    exact (endOp_mild 0 hu.world hk).imp fun _ _ hv => hend.trans hv

theorem sysMkdir_mild (p : P) (path : Option Bytes) (h : World s k)
    (hk : k.toMon = .idle) (hcwd : k.cwd p ∈ k.refs) :
    Sat (sysMkdir p path) s (fun _ t => Mild k k s t) fun _ => True := by
  refine (beginOp_still h hk).andThen fun _ t ht => ?_
  split
  · exact (endOp_mild (-1) ht.world hk).imp fun _ _ hu => ht.mild.trans hu
  · next path =>
      exact (create_mild p path _ _ _ ht.world hk hcwd (by decide)).imp
        fun _ _ hu => ht.mild.trans hu

theorem sysMknod_mild (p : P) (path : Option Bytes)
    (major minor : Option (BitVec 32)) (h : World s k)
    (hk : k.toMon = .idle) (hcwd : k.cwd p ∈ k.refs) :
    Sat (sysMknod p path major minor) s (fun _ t => Mild k k s t)
      fun _ => True := by
  refine (beginOp_still h hk).andThen fun _ t ht => ?_
  split
  · exact (create_mild p _ _ _ _ ht.world hk hcwd (by decide)).imp
      fun _ _ hu => ht.mild.trans hu
  · exact (endOp_mild (-1) ht.world hk).imp fun _ _ hu => ht.mild.trans hu

/-! ## exec -/

/-- The program only reads the locked inode. -/
def Peeks (k : Ctx P) (ip : Slot) {α : Type} (x : M P α) : Prop :=
  ∀ s i n, Loaded s (k.lock ip) ip i n →
    Sat x s (fun _ t => Still (k.lock ip) (k.lock ip) s t) fun _ => True

namespace Peeks

variable {α β : Type}

theorem of_pure (k : Ctx P) (ip : Slot) (a : α) :
    Peeks k ip (pure a : M P α) :=
  fun _ _ _ h => Sat.pure (.refl h.world)

theorem readi_bind {off l : ℕ} {f : Option Bytes → M P α}
    (hf : ∀ r, Peeks k ip (f r)) : Peeks k ip (readi ip off l >>= f) := by
  intro s i n h
  refine (readi_any_still off l h).andThen fun r t ht => ?_
  exact (hf r t i n (h.still ht h.mem h.mem)).imp fun _ _ hu => ht.trans hu

theorem bind {x : M P α} {f : α → M P β} (hx : Peeks k ip x)
    (hf : ∀ a, Peeks k ip (f a)) : Peeks k ip (x >>= f) := by
  intro s i n h
  refine (hx s i n h).andThen fun a t ht => ?_
  exact (hf a t i n (h.still ht h.mem h.mem)).imp fun _ _ hu => ht.trans hu

theorem ite {p : Prop} [Decidable p] {x y : M P α} (hx : p → Peeks k ip x)
    (hy : ¬p → Peeks k ip y) : Peeks k ip (if p then x else y) := by
  split
  · next hp => exact hx hp
  · next hp => exact hy hp

end Peeks

theorem loadSegment_peeks (reads : List (ℕ × ℕ)) :
    Peeks k ip (loadSegment ip reads) := by
  induction reads with
  | nil => exact .of_pure k ip _
  | cons r reads ih => exact .readi_bind fun _ => ih

theorem loadProgram_peeks (vm : Vm) (rounds l : ℕ) (off : BitVec 32) :
    Peeks k ip (loadProgram ip vm rounds l off) := by
  induction rounds generalizing l off with
  | zero => exact .of_pure k ip _
  | succ rounds ih =>
      refine .readi_bind fun r => ?_
      split
      · exact .of_pure k ip _
      refine .ite (fun _ => .of_pure k ip _) fun _ => ?_
      refine .ite (fun _ => ih _ _) fun _ => ?_
      refine .ite (fun _ => .of_pure k ip _) fun _ => ?_
      refine .ite (fun _ => .of_pure k ip _) fun _ => ?_
      refine .ite (fun _ => .of_pure k ip _) fun _ => ?_
      refine .ite (fun _ => .of_pure k ip _) fun _ => ?_
      refine (loadSegment_peeks _).bind fun _ => ?_
      exact .ite (fun _ => .of_pure k ip _) fun _ => ih _ _

theorem loadElf_peeks (vm : Vm) : Peeks k ip (loadElf ip vm) := by
  refine .readi_bind fun r => ?_
  split
  · exact .of_pure k ip _
  refine .ite (fun _ => .of_pure k ip _) fun _ => ?_
  refine .ite (fun _ => .of_pure k ip _) fun _ => ?_
  refine .ite (fun _ => .of_pure k ip _) fun _ => ?_
  exact loadProgram_peeks vm _ _ _

theorem exec_mild (p : P) (path : Bytes) (vm : Vm) (h : World s k)
    (hk : k.toMon = .idle) (hcwd : k.cwd p ∈ k.refs) :
    Sat (exec p path vm) s (fun _ t => Mild k k s t) fun _ => True := by
  refine (beginOp_still h hk).andThen fun _ s₁ h₁ => ?_
  refine (namei_calm p path h₁.world rfl (h₁.world.cwd_mem hcwd)).andThen ?_
  rintro (_ | ip) s₂ h₂
  · refine (endOp_mild (-1) h₂.world hk).imp fun _ t ht => ?_
    exact (h₁.mild.andThen h₂.mild fun _ hc => hc).trans ht
  have hfirst : Mild k (k.inOp.hold ip) s s₂ :=
    h₁.mild.andThen h₂.mild fun _ hc => hc
  refine (ilock_own h₂.world).andThen ?_
  rintro _ s₃ ⟨h₃, n, hn⟩
  have hlocked := hfirst.andThen h₃.mild (k.sub_hold ip)
  refine (loadElf_peeks vm s₃ _ n hn).andThen fun ok s₄ h₄ => ?_
  refine (iunlockput_calm (k := k.inOp) h₄.world rfl).andThen fun _ s₅ h₅ => ?_
  refine (endOp_still h₅.world hk).andThen fun _ t ht => ?_
  have hput := (hlocked.andThen h₄.mild (k.sub_own ip)).andThen h₅.mild
    fun _ hc => hc
  have hall : Mild k k s t := hput.trans (ht.mild.mono fun _ hc => hc)
  apply Sat.ite
  · intro _
    exact Sat.pure hall
  · intro _
    apply Sat.ite
    · intro _
      exact Sat.pure hall
    · intro _
      exact Sat.pure hall

end ZtlOs.Kernel
