import ZtlOs.Kernel.NameCalls

/-!
# Every call is an edit

The remaining calls, and what all of them do from one call to the next: the
nodes are edited as the arguments ask, and nothing else happens to them.
-/

namespace ZtlOs.Kernel

open ZtlOs.Support ZtlOs.Support.Program ZtlOs.Support.Bindings ZtlOs.Fs

variable {P : Type} {s t u : State P} {k k' k₂ k₃ : Ctx P} {ip dp c : Slot}
variable {f : FileSlot} {i j d : ℕ} {n n' m : Node} {name : Bytes} {e : Edit}

/-! ## New files -/

/-- `iunlockput(ip); end_op();` -/
theorem Obtained.put {α : Type} (a : α) (h : Obtained k.inOp ip i e s t)
    (hk : k.toMon = .idle) :
    Sat (do
      iunlockput ip
      endOp
      pure a : M P α) t (fun r u => r = a ∧ Acts e s u) fun _ => True := by
  obtain ⟨n, hn⟩ := h.loaded
  obtain ⟨d, X, hX, ht⟩ := h.turns
  have hput := iunlockput_sweeps (k := k.inOp) ht.world rfl h.anchored
  rw [hn.inum] at hput
  refine hput.andThen ?_
  rintro _ u ⟨hu, hau⟩
  have hdone := ht.within (hu.widen (sup_le inode_le_area bitmap_le_area))
    fun _ hc => hc
  refine endOp_returns a (hdone.edited (card_area hX _) ?_ hau) hk
  rw [hu.frame.held_eq, Function.comp_apply]
  exact swept_swept (Ctx.held_mono (k.inOp.sub_own ip))

/-- What `sys_mkdir` and `sys_mknod` do with a path. -/
theorem create_acts (p : P) (path : Bytes) (type major minor : BitVec 16)
    (h : World s k.inOp) (hk : k.toMon = .idle) (hcwd : k.cwd p ∈ k.refs)
    (ha : Anchored (k.anchors s) s.node) (htype : type ≠ 0)
    (hsize : s.sb.ninodes ≤ 65536) :
    Sat (do
      let r ← create p path type major minor
      match r with
      | none => do
          endOp
          pure (-1)
      | some ip => do
          iunlockput ip
          endOp
          pure 0 : M P ℤ) s (fun r t => ∃ o e,
        CreateEdit s.node (s.startInum p path) (components path) type major
          minor o e ∧ r = (if o = none then -1 else 0) ∧ Acts e s t)
      fun _ => True := by
  refine (create_gives p path type major minor h rfl (h.cwd_mem hcwd) ha htype
    hsize).andThen ?_
  rintro r t ⟨o, e, he, hr⟩
  cases hr with
  | nothing ht =>
      refine (endOp_returns (-1) (ht.unedited (Nat.zero_le 9)
        (ht.anchored ha)) hk).imp ?_
      rintro r u ⟨rfl, hu⟩
      exact ⟨none, .none, he, rfl, hu⟩
  | inode ht =>
      refine (ht.put 0 hk).imp ?_
      rintro r u ⟨rfl, hu⟩
      exact ⟨_, _, he, by rw [if_neg (Option.some_ne_none _)], hu⟩

/-- A call with a bad argument. -/
theorem badArgument_acts (h : World s k) (hk : k.toMon = .idle)
    (ha : Anchored (k.anchors s) s.node) :
    Sat (do
      beginOp
      endOp
      pure (-1) : M P ℤ) s (fun r t => r = -1 ∧ Acts .none s t)
      fun _ => True := by
  refine (beginOp_begun h hk).andThen fun _ s₁ h₁ => ?_
  have hrefl := Turns.refl h₁.still.world
  refine (endOp_returns (-1) (hrefl.unedited (Nat.zero_le 9)
    (h₁.anchored ha)) hk).imp ?_
  rintro r t ⟨rfl, ht⟩
  exact ⟨rfl, ht.begun h₁⟩

/-- `begin_op` before `sys_mkdir` and `sys_mknod` create a file. -/
theorem beginOp_create_acts (p : P) (path : Bytes)
    (type major minor : BitVec 16) (h : World s k) (hk : k.toMon = .idle)
    (hcwd : k.cwd p ∈ k.refs) (ha : Anchored (k.anchors s) s.node)
    (htype : type ≠ 0) (hsize : s.sb.ninodes ≤ 65536) :
    Sat (do
      beginOp
      let r ← create p path type major minor
      match r with
      | none => do
          endOp
          pure (-1)
      | some ip => do
          iunlockput ip
          endOp
          pure 0 : M P ℤ) s (fun r t => ∃ o e,
        CreateEdit s.node (s.startInum p path) (components path) type major
          minor o e ∧ r = (if o = none then -1 else 0) ∧ Acts e s t)
      fun _ => True := by
  refine (beginOp_begun h hk).andThen fun _ s₁ h₁ => ?_
  have hsize₁ : s₁.sb.ninodes ≤ 65536 := by
    rwa [h₁.still.frame.sb]
  refine (create_acts p path type major minor h₁.still.world hk hcwd
    (h₁.anchored ha) htype hsize₁).imp ?_
  rintro r t ⟨o, e, he, hr, ht⟩
  rw [h₁.still.node, h₁.startInum h hcwd path] at he
  exact ⟨o, e, he, hr, ht.begun h₁⟩

/-! ## Reading -/

theorem consoleread_logging (ip : Slot) (l : ℕ) :
    Keeps State.logging (consoleread (P := P) ip l) := by
  apply (iunlock_logging ip).bind
  intro _
  apply Keeps.bind
  · apply Keeps.ite
    · intro _
      exact receive_logging
    · intro _
      exact Keeps.pure _ _
  · intro r
    apply (ilock_logging ip).bind
    intro _
    exact Keeps.pure _ _

/-- Reading the locked inode leaves everything as it is. -/
theorem readi_any_turns (off l : ℕ) (h : Loaded s (k.lock ip) ip i n) :
    Sat (readi ip off l) s (fun _ t => Quiet (k.lock ip) (k.lock ip) s t)
      fun _ => True := by
  by_cases hdev : n.type = T_DEV
  · have hlog : Sat (readi ip off l) s (fun _ t => t.logging = s.logging)
        fun _ => True := by
      apply getDin_bind
      rw [h.type_eq, if_pos hdev]
      apply Sat.ite
      · intro _
        exact .intro (fun r t hok => (consoleread_logging ip l).eq s r t hok)
          fun _ _ => trivial
      · intro _
        exact Sat.pure rfl
    exact (hlog.both (readi_any_still off l h)).imp fun _ _ ht =>
      .of_still ht.2 ht.1
  · exact (readi_turns off l h hdev).imp fun _ _ ht => ht.2

/-- A part of `exec` that only reads the inode `ip`, which it has locked. -/
def Looks (k : Ctx P) (ip : Slot) {α : Type} (x : M P α) : Prop :=
  ∀ s i n, Loaded s (k.lock ip) ip i n →
    Sat x s (fun _ t => Quiet (k.lock ip) (k.lock ip) s t) fun _ => True

namespace Looks

variable {α β : Type}

theorem of_pure (k : Ctx P) (ip : Slot) (a : α) :
    Looks k ip (pure a : M P α) :=
  fun _ _ _ h => Sat.pure (.refl h.world)

theorem readi_bind {off l : ℕ} {g : Option Bytes → M P α}
    (hg : ∀ r, Looks k ip (g r)) : Looks k ip (readi ip off l >>= g) := by
  intro s i n h
  refine (readi_any_turns off l h).andThen fun r t ht => ?_
  exact (hg r t i n (h.quiet ht h.mem h.mem)).imp fun _ _ hu =>
    hu.after ht fun _ hc => hc

theorem bind {x : M P α} {g : α → M P β} (hx : Looks k ip x)
    (hg : ∀ a, Looks k ip (g a)) : Looks k ip (x >>= g) := by
  intro s i n h
  refine (hx s i n h).andThen fun a t ht => ?_
  exact (hg a t i n (h.quiet ht h.mem h.mem)).imp fun _ _ hu =>
    hu.after ht fun _ hc => hc

theorem ite {p : Prop} [Decidable p] {x y : M P α} (hx : p → Looks k ip x)
    (hy : ¬p → Looks k ip y) : Looks k ip (if p then x else y) := by
  intro s i n h
  apply Sat.ite
  · intro hp
    exact hx hp s i n h
  · intro hp
    exact hy hp s i n h

end Looks

theorem loadSegment_looks (reads : List (ℕ × ℕ)) :
    Looks k ip (loadSegment ip reads) := by
  induction reads with
  | nil => exact Looks.of_pure k ip ()
  | cons r reads ih => exact Looks.readi_bind fun _ => ih

theorem loadProgram_looks (vm : Vm) (rounds l : ℕ) (off : BitVec 32) :
    Looks k ip (loadProgram ip vm rounds l off) := by
  induction rounds generalizing l off with
  | zero => exact Looks.of_pure k ip true
  | succ rounds ih =>
      apply Looks.readi_bind
      intro r
      split
      · exact Looks.of_pure k ip false
      · apply Looks.ite
        · intro _
          exact Looks.of_pure k ip false
        intro _
        apply Looks.ite
        · intro _
          exact ih _ _
        intro _
        apply Looks.ite
        · intro _
          exact Looks.of_pure k ip false
        intro _
        apply Looks.ite
        · intro _
          exact Looks.of_pure k ip false
        intro _
        apply Looks.ite
        · intro _
          exact Looks.of_pure k ip false
        intro _
        apply Looks.ite
        · intro _
          exact Looks.of_pure k ip false
        intro _
        apply Looks.bind (loadSegment_looks _)
        intro _
        apply Looks.ite
        · intro _
          exact Looks.of_pure k ip false
        · intro _
          exact ih _ _

theorem loadElf_looks (vm : Vm) : Looks k ip (loadElf ip vm) := by
  apply Looks.readi_bind
  intro r
  split
  · exact Looks.of_pure k ip false
  · apply Looks.ite
    · intro _
      exact Looks.of_pure k ip false
    intro _
    apply Looks.ite
    · intro _
      exact Looks.of_pure k ip false
    intro _
    apply Looks.ite
    · intro _
      exact Looks.of_pure k ip false
    · intro _
      exact loadProgram_looks vm _ _ _

theorem exec_acts (p : P) (path : Bytes) (vm : Vm) (h : World s k)
    (hk : k.toMon = .idle) (hcwd : k.cwd p ∈ k.refs)
    (ha : Anchored (k.anchors s) s.node) :
    Sat (exec p path vm) s (fun _ t => Acts .none s t) fun _ => True := by
  refine (beginOp_begun h hk).andThen fun _ s₁ h₁ => ?_
  have ha₁ := h₁.anchored ha
  have hw₁ := h₁.still.world
  refine (namei_arrives p path hw₁ rfl (hw₁.cwd_mem hcwd) ha₁).andThen ?_
  rintro (_ | ip) s₂ ⟨-, h₂⟩
  · refine (endOp_returns (-1) (h₂.unedited (Nat.zero_le 9)
      (h₂.anchored ha₁)) hk).imp ?_
    rintro r t ⟨-, ht⟩
    exact ht.begun h₁
  have hfirst : Quiet k.inOp (k.inOp.hold ip) s₁ s₂ := h₂
  refine (ilock_own_turns hfirst.world).andThen ?_
  rintro _ s₃ ⟨h₃, n, hn⟩
  have hlocked := h₃.after hfirst (k.inOp.sub_hold ip)
  refine (loadElf_looks (k := k.inOp.hold ip) vm s₃ _ n hn).andThen ?_
  intro ok s₄ h₄
  have hread : Quiet k.inOp (k.inOp.own ip) s₁ s₄ :=
    h₄.after hlocked (k.inOp.sub_own ip)
  refine (iunlockput_quiet (k := k.inOp) hread.world rfl
    (hread.anchored ha₁)).andThen fun _ s₅ h₅ => ?_
  have hend := h₅.after hread fun _ hc => hc
  refine (endOp_acts (hend.unedited (Nat.zero_le 9) (hend.anchored ha₁))
    hk).andThen fun _ t ht => ?_
  have hdone := ht.begun h₁
  apply Sat.ite
  · intro _
    exact Sat.pure hdone
  · intro _
    apply Sat.ite
    · intro _
      exact Sat.pure hdone
    · intro _
      exact Sat.pure hdone

theorem fileread_brackets (f : FileSlot) (l : ℕ) :
    Keeps State.brackets (fileread (P := P) f l) := by
  apply (Keeps.get _).bind
  intro s
  apply Keeps.ite
  · intro _
    exact Keeps.pure _ _
  intro _
  split
  · apply (brackets_of_logging receive_logging).bind
    intro r
    exact Keeps.pure _ _
  · apply (brackets_of_logging (ilock_logging _)).bind
    intro _
    apply (readi_brackets _ _ _).bind
    intro r
    apply Keeps.bind
    · split
      · exact Keeps.pure _ _
      · exact brackets_of_logging (advance_logging _ _)
    · intro _
      apply (brackets_of_logging (iunlock_logging _)).bind
      intro _
      exact Keeps.pure _ _
  · exact Keeps.throw _ _

theorem filestat_brackets (f : FileSlot) :
    Keeps State.brackets (filestat (P := P) f) := by
  apply (Keeps.get _).bind
  intro s
  apply Keeps.ite
  · intro _
    apply (brackets_of_logging (ilock_logging _)).bind
    intro _
    apply Keeps.bind
    · apply (Keeps.get _).bind
      intro s
      exact Keeps.pure _ _
    · intro st
      apply (brackets_of_logging (iunlock_logging _)).bind
      intro _
      exact Keeps.pure _ _
  · intro _
    exact Keeps.pure _ _

/-! ## Files and descriptors -/

/-- Nothing is done to the volume, and no inode file is opened. -/
structure Unlogged (s t : State P) : Prop where
  trace : t.trace = s.trace
  volume : t.volume = s.volume
  types : ∀ f, (s.ftable f).type ≠ .inode → (t.ftable f).type ≠ .inode

/-- A free file has no type. -/
def FreeFiles (s : State P) : Prop :=
  ∀ f, (s.ftable f).ref = 0 → (s.ftable f).type = .none

/-- A call that does nothing to the volume edits nothing. -/
theorem acts_of_same (hvolume : t.volume = s.volume)
    (htrace : t.trace = s.trace) (ha : Anchored s.Anchors s.node) : Acts .none s t := by
  have hrefl : Acts .none s s := by
    refine ⟨⟨?_, ha, rfl⟩, [], rfl, fun _ L hL => ?_⟩
    · refine (Anchored.swept_eq (ha.mono ?_)).symm
      rintro i ⟨c, hc, hinum, -⟩
      exact ⟨c, hc, hinum⟩
    · exact absurd hL List.not_mem_nil
  exact hrefl.same hvolume htrace

namespace Unlogged

theorem refl : Unlogged s s :=
  ⟨rfl, rfl, fun _ h => h⟩

theorem trans (h : Unlogged s t) (h' : Unlogged t u) : Unlogged s u :=
  ⟨h'.trace.trans h.trace, h'.volume.trans h.volume,
    fun f hf => h'.types f (h.types f hf)⟩

theorem setFile {v : File} (hv : v.type ≠ .inode) :
    Unlogged s (s.setFile f v) := by
  refine ⟨rfl, rfl, fun f' hf => ?_⟩
  by_cases hff : f' = f
  · subst hff
    have hself : (s.setFile f' v).ftable f' = v := Function.update_self ..
    rwa [hself]
  · have hother : (s.setFile f v).ftable f' = s.ftable f' :=
      Function.update_of_ne hff ..
    rwa [hother]

theorem acts (h : Unlogged s t) (ha : Anchored s.Anchors s.node) :
    Acts .none s t :=
  acts_of_same h.volume h.trace ha

end Unlogged

theorem filealloc_unlogged (hfree : FreeFiles s) :
    Sat filealloc s (fun r t => Unlogged s t ∧ FreeFiles t ∧
      ∀ f, r = some f → (t.ftable f).type ≠ .inode) fun _ => True := by
  refine .bind (Sat.get ?_)
  split
  · exact Sat.pure ⟨.refl, hfree, fun f hf => by cases hf⟩
  · next f hfind =>
      have hzero : (s.ftable f).ref = 0 := by
        simpa using List.find?_some hfind
      have htype : (s.ftable f).type ≠ .inode := by
        rw [hfree f hzero]
        exact fun h => by cases h
      have hself : ∀ v, (s.setFile f v).ftable f = v :=
        fun v => Function.update_self ..
      refine .bind (Sat.set (Sat.pure ⟨.setFile htype, fun f' hf' => ?_, ?_⟩))
      · by_cases hff : f' = f
        · subst hff
          rw [hself] at hf'
          exact absurd hf' Nat.one_ne_zero
        · have hother : ∀ v, (s.setFile f v).ftable f' = s.ftable f' :=
            fun v => Function.update_of_ne hff ..
          rw [hother] at hf' ⊢
          exact hfree f' hf'
      · rintro _ ⟨⟩
        rwa [hself]

theorem fileclose_unlogged (h : (s.ftable f).type ≠ .inode) :
    Sat (fileclose f) s (fun _ t => Unlogged s t) fun _ => True := by
  refine .bind (Sat.get ?_)
  apply Sat.ite
  · intro _
    exact Sat.throw trivial
  intro _
  apply Sat.ite
  · intro _
    exact Sat.set (.setFile h)
  · intro _
    refine .bind (Sat.set ?_)
    rw [if_neg h]
    exact Sat.pure (.setFile fun hc => by cases hc)

/-- Two files are closed. -/
theorem closeBoth_unlogged {α : Type} {rf wf : FileSlot} (a : α)
    (h : Unlogged s t) (hrf : (t.ftable rf).type ≠ .inode)
    (hwf : (t.ftable wf).type ≠ .inode) :
    Sat (do
      fileclose rf
      fileclose wf
      pure a : M P α) t (fun r u => r = a ∧ Unlogged s u) fun _ => True := by
  refine (fileclose_unlogged hrf).andThen fun _ u hu => ?_
  refine (fileclose_unlogged (hu.types wf hwf)).andThen fun _ v hv => ?_
  exact Sat.pure ⟨rfl, h.trans (hu.trans hv)⟩

theorem pipealloc_unlogged (page : Bool) (hfree : FreeFiles s) :
    Sat (pipealloc (P := P) page) s (fun r t => Unlogged s t ∧ ∀ rf wf,
      r = some (rf, wf) → (t.ftable rf).type ≠ .inode ∧
        (t.ftable wf).type ≠ .inode) fun _ => True := by
  refine (filealloc_unlogged hfree).andThen ?_
  rintro (_ | f₀) s₁ ⟨h₁, hfree₁, htype₀⟩
  · exact Sat.pure ⟨h₁, fun _ _ hr => by cases hr⟩
  have htype₀ := htype₀ f₀ rfl
  refine (filealloc_unlogged hfree₁).andThen ?_
  rintro (_ | f₁) s₂ ⟨h₂, -, htype₁⟩
  · refine (fileclose_unlogged (h₂.types f₀ htype₀)).andThen fun _ s₃ h₃ => ?_
    exact Sat.pure ⟨h₁.trans (h₂.trans h₃), fun _ _ hr => by cases hr⟩
  have htype₁ := htype₁ f₁ rfl
  have htype₀ := h₂.types f₀ htype₀
  have hboth := h₁.trans h₂
  apply Sat.ite
  · intro _
    refine (closeBoth_unlogged none hboth htype₀ htype₁).imp ?_
    rintro _ t ⟨rfl, ht⟩
    exact ⟨ht, fun _ _ hr => by cases hr⟩
  · intro _
    have hpipe : FileType.pipe ≠ .inode := fun h => by cases h
    refine .bind (Sat.modify (.bind (Sat.modify (Sat.pure ?_))))
    have hread : Unlogged s₂ (s₂.setFile f₀ { s₂.ftable f₀ with
        type := .pipe, readable := true, writable := false }) :=
      .setFile hpipe
    have hset := hread.trans (.setFile (f := f₁) (v := {
      (s₂.setFile f₀ { s₂.ftable f₀ with
        type := .pipe, readable := true, writable := false }).ftable f₁ with
      type := .pipe, readable := false, writable := true }) hpipe)
    refine ⟨hboth.trans hset, ?_⟩
    rintro _ _ ⟨⟩
    exact ⟨hset.types f₀ htype₀, hset.types f₁ htype₁⟩

variable [DecidableEq P]

theorem setOfile_unlogged (p : P) (fd : Fin NOFILE) (v : Option FileSlot) :
    Unlogged s (s.setOfile p fd v) :=
  ⟨rfl, rfl, fun _ h => h⟩

theorem fdalloc_unlogged (p : P) (f : FileSlot) :
    Sat (fdalloc p f) s (fun _ t => Unlogged s t) fun _ => True := by
  refine .bind (Sat.get ?_)
  split
  · exact Sat.pure .refl
  · next fd _ =>
      exact .bind (Sat.set (Sat.pure (setOfile_unlogged p fd (some f))))

theorem sysPipe_unlogged (p : P) (page : Bool) (hfree : FreeFiles s) :
    Sat (sysPipe p page) s (fun _ t => Unlogged s t) fun _ => True := by
  refine (pipealloc_unlogged page hfree).andThen ?_
  rintro (_ | ⟨rf, wf⟩) s₁ ⟨h₁, htypes⟩
  · exact Sat.pure h₁
  obtain ⟨hrf, hwf⟩ := htypes rf wf rfl
  refine (fdalloc_unlogged p rf).andThen ?_
  rintro (_ | fd₀) s₂ h₂
  · exact (closeBoth_unlogged _ (h₁.trans h₂) (h₂.types rf hrf)
      (h₂.types wf hwf)).imp fun _ _ ht => ht.2
  refine (fdalloc_unlogged p wf).andThen ?_
  rintro (_ | fd₁) s₃ h₃
  · have hset := h₃.trans (setOfile_unlogged p fd₀ none)
    refine .bind (Sat.modify ?_)
    exact (closeBoth_unlogged _ (h₁.trans (h₂.trans hset))
      (hset.types rf (h₂.types rf hrf)) (hset.types wf (h₂.types wf hwf))).imp
      fun _ _ ht => ht.2
  · exact Sat.pure (h₁.trans (h₂.trans h₃))

/-- `filealloc` and `fdalloc` of `sys_open`. -/
theorem openFile_unlogged (p : P) (hfree : FreeFiles s) :
    Sat (openFile p) s (fun _ t => Unlogged s t) fun _ => True := by
  refine (filealloc_unlogged hfree).andThen ?_
  rintro (_ | f) s₁ ⟨h₁, -, htype⟩
  · exact Sat.pure h₁
  refine (fdalloc_unlogged p f).andThen ?_
  rintro (_ | fd) s₂ h₂
  · refine (fileclose_unlogged (h₂.types f (htype f rfl))).andThen ?_
    intro _ s₃ h₃
    exact Sat.pure (h₁.trans (h₂.trans h₃))
  · exact Sat.pure (h₁.trans h₂)

theorem sysDup_acts (p : P) (fd : ℤ) (ha : Anchored s.Anchors s.node) :
    Sat (sysDup p fd) s (fun _ t => Acts .none s t) fun _ => True := by
  refine argfd_bind fun r _ => ?_
  rcases r with _ | ⟨fd', f⟩
  · exact Sat.pure (acts_of_same rfl rfl ha)
  refine (fdalloc_unlogged p f).andThen ?_
  rintro (_ | fd₁) t ht
  · exact Sat.pure (ht.acts ha)
  refine .bind (.bind (Sat.get ?_))
  apply Sat.ite
  · intro _
    exact Sat.throw trivial
  · intro _
    exact Sat.set (Sat.pure (acts_of_same ht.volume ht.trace ha))

/-! ## Opening and closing -/

section Closing

omit [DecidableEq P]

theorem Ctx.held_congr (h : k'.refs = k.refs) : k'.held s = k.held s := by
  rw [Ctx.held, Ctx.held, h]

theorem Ctx.anchors_congr (h : k'.refs = k.refs) :
    k'.anchors s = k.anchors s := by
  rw [Ctx.anchors, Ctx.anchors, h]

/-- Nothing has happened since the inode was obtained. -/
theorem Obtained.edited (h : Obtained k ip i e s t)
    (hu : Quiet (k.own ip) k' t u) (hrefs : k'.refs = (k.own ip).refs) :
    Edited k' e s u := by
  obtain ⟨d, X, hX, ht⟩ := h.turns
  have hau := hu.anchored h.anchored
  rw [← Ctx.anchors_congr hrefs] at hau
  refine (ht.quiet hu (k.sub_own ip)).edited (card_area hX _) ?_ hau
  rw [Ctx.held_congr hrefs, hu.frame.held_eq]

theorem Obtained.quiet (h : Obtained k ip i e s t)
    (hu : Quiet (k.own ip) (k.own ip) t u) : Obtained k ip i e s u := by
  obtain ⟨n, hn⟩ := h.loaded
  obtain ⟨d, X, hX, ht⟩ := h.turns
  refine ⟨⟨n, hn.quiet hu hn.mem hn.mem⟩, ⟨d, X, hX, ?_⟩,
    hu.anchored h.anchored⟩
  have hboth := ht.quiet hu (k.sub_own ip)
  rwa [← hu.frame.held_eq] at hboth

/-- A reference is put by a call that has done nothing else. -/
theorem Turns.put {B : BlockSet} (h : Quiet k k₂ s t)
    (h' : Turns k' k' (swept (k'.held t)) B t u) (hB : (B t.sb).card ≤ 9)
    (ha : Anchored (k'.anchors u) u.node) : Edited k' .none s u where
  world := h'.world
  sb := h'.frame.sb.trans h.frame.sb
  node := by
    rw [h'.node, h.node, h'.frame.held_eq]
    rfl
  anchored := ha
  brackets := h'.brackets.trans h.brackets
  logs hsize := by
    have hlogs := h'.logs (h.frame.sb ▸ hsize)
    refine ⟨B t.sb, hB, hlogs.trans (Finset.union_subset_union_left ?_)⟩
    have hbefore := h.logs hsize
    rwa [Pi.bot_apply, Finset.bot_eq_empty, Finset.union_empty] at hbefore

theorem card_iput (i : ℕ) (sb : Superblock) :
    ((inodeBlock i ⊔ bitmapBlock) sb).card ≤ 9 := by
  refine le_trans (Finset.card_le_card ?_)
    (card_area_empty (i := i) (d := i) sb)
  exact (sup_le inode_le_area bitmap_le_area : _ ≤ area i i ∅) sb

theorem fileclose_acts [Fintype P] (hk : k.Idle) (hs : World s k)
    (ha : Anchored (k.anchors s) s.node) :
    Sat (fileclose f) s (fun _ t => Acts .none s t) fun _ => True := by
  have hanchored := ha
  rw [hs.anchors_eq] at hanchored
  have hftable := hs.holds.ftable
  by_cases htype : (k.ftable f).type = .inode
  case neg =>
    refine (fileclose_unlogged (hftable ▸ htype)).imp fun _ t ht => ?_
    exact ht.acts hanchored
  refine .bind (Sat.get ?_)
  rw [hftable]
  apply Sat.ite
  · intro _
    exact Sat.throw trivial
  intro hpos
  apply Sat.ite
  · intro _
    exact Sat.set (acts_of_same rfl rfl hanchored)
  · intro _
    refine .bind (Sat.set ?_)
    rw [if_pos htype]
    have hopen : (k.ftable f).refersTo (k.ftable f).ip :=
      ⟨by omega, htype, rfl⟩
    obtain ⟨hidle, heq⟩ := hk.hold_closed hopen
    have hset := hs.holds.setFile (f := f)
      (v := { k.ftable f with ref := 0, type := .none }) fun _ => rfl
    rw [heq] at hset
    have h₀ := hs.same hset rfl
    have hrefs : ((k.closed f).hold (k.ftable f).ip).refs = k.refs :=
      (congrArg Ctx.refs heq).symm
    have ha₀ := ha
    rw [← Ctx.anchors_congr hrefs] at ha₀
    refine (beginOp_begun h₀.world hidle.mon).andThen fun _ s₁ h₁ => ?_
    have hw₁ := h₁.still.world
    refine (iput_sweeps (k := (k.closed f).inOp) hw₁ rfl
      (h₁.anchored ha₀)).andThen ?_
    rintro _ u ⟨hu, hau⟩
    have hput := (Turns.refl hw₁).put hu (card_iput _ _) hau
    refine (endOp_acts hput hidle.mon).imp fun _ t ht => ?_
    have hdone := ht.begun h₁
    exact ⟨⟨hdone.node, hdone.anchored, hdone.sb⟩, hdone.brackets⟩

end Closing

variable [Fintype P]

theorem sysChdir_acts (p : P) (path : Bytes) (hk : k.Idle) (hs : World s k)
    (ha : Anchored (k.anchors s) s.node) :
    Sat (sysChdir p (some path)) s (fun _ t => Acts .none s t)
      fun _ => True := by
  refine (beginOp_begun hs hk.mon).andThen fun _ s₁ h₁ => ?_
  have ha₁ := h₁.anchored ha
  have hw₁ := h₁.still.world
  refine (namei_arrives p path hw₁ rfl (hw₁.cwd_mem (hk.cwd_mem p))
    ha₁).andThen ?_
  rintro (_ | ip) s₂ ⟨-, h₂⟩
  · refine (endOp_returns (-1) (h₂.unedited (Nat.zero_le 9)
      (h₂.anchored ha₁)) hk.mon).imp ?_
    rintro r t ⟨-, ht⟩
    exact ht.begun h₁
  have hfirst : Quiet k.inOp (k.inOp.hold ip) s₁ s₂ := h₂
  refine (ilock_own_turns hfirst.world).andThen ?_
  rintro _ s₃ ⟨h₃, n, hn⟩
  have hlocked := h₃.after hfirst (k.inOp.sub_hold ip)
  apply getDin_bind
  apply Sat.ite
  · intro _
    refine (unlinkBad_acts hlocked (Nat.zero_le 9) hk.mon ha₁).imp ?_
    rintro r t ⟨-, ht⟩
    exact ht.begun h₁
  intro _
  refine (iunlock_turns (k := k.inOp.hold ip) h₃.world).andThen ?_
  intro _ s₄ h₄
  have hheld : Quiet k.inOp (k.inOp.hold ip) s₁ s₄ :=
    h₄.after hlocked (k.inOp.sub_hold ip)
  obtain ⟨k', heq, hidle, hmon, hcwd⟩ := hk.chdir p ip
  have hop : k.inOp.hold ip = k'.inOp.hold (k.cwd p) := congrArg Ctx.inOp heq
  refine .bind (Sat.get ?_)
  rw [hheld.world.holds.cwd]
  change Sat (iput (k.cwd p) >>= _) s₄ _ _
  have hworld := hheld.world
  have ha₄ := (hheld.anchored ha₁).mono (Ctx.anchors_mono (k.inOp.sub_hold ip))
  rw [hop] at hworld ha₄
  refine (iput_sweeps (k := k'.inOp) hworld rfl ha₄).andThen ?_
  rintro _ s₅ ⟨h₅, ha₅⟩
  have hput := hheld.put h₅ (card_iput _ _) ha₅
  refine (endOp_acts hput hmon).andThen fun _ s₆ h₆ => ?_
  exact .bind (Sat.modify (Sat.pure ((h₆.begun h₁).same rfl rfl)))

theorem sysOpen_acts (p : P) (path : Bytes) (omode : BitVec 32) (hk : k.Idle)
    (hs : World s k) (ha : Anchored (k.anchors s) s.node)
    (hsize : s.sb.ninodes ≤ 65536) :
    Sat (sysOpen p (some path) omode) s (fun r t => ∃ o e,
      OpenEdit s.node (s.startInum p path) (components path) omode o e ∧
        (o = none → r = -1) ∧ Acts e s t) fun _ => True := by
  refine (beginOp_begun hs hk.mon).andThen fun _ s₁ h₁ => ?_
  have ha₁ := h₁.anchored ha
  have hw₁ := h₁.still.world
  have hsize₁ : s₁.sb.ninodes ≤ 65536 := by
    rwa [h₁.still.frame.sb]
  rw [← h₁.still.node, ← h₁.startInum hs (hk.cwd_mem p) path]
  refine (openInode_gives p path omode hw₁ rfl (hw₁.cwd_mem (hk.cwd_mem p))
    ha₁ hsize₁).andThen ?_
  rintro r s₂ ⟨o, e, he, hr⟩
  cases hr with
  | nothing h₂ =>
      refine (endOp_returns (-1) (h₂.unedited (Nat.zero_le 9)
        (h₂.anchored ha₁)) hk.mon).imp ?_
      rintro r t ⟨rfl, ht⟩
      exact ⟨none, .none, he, fun _ => rfl, ht.begun h₁⟩
  | @inode ip i _ h₂ =>
      obtain ⟨n, hn⟩ := h₂.loaded
      have hfree : FreeFiles s₂ := by
        rw [FreeFiles, hn.world.holds.ftable]
        exact hn.world.holds.free
      refine ((openFile_still p hn.world).both
        (openFile_unlogged p hfree)).andThen ?_
      rintro (_ | ⟨f, fd⟩) s₃ ⟨h₃, hlog⟩
      · have hlog' : s₃.logging = s₂.logging := by
          rw [State.logging, State.logging, State.logs, State.brackets,
            hlog.trace]
        refine ((h₂.quiet (.of_still h₃ hlog')).put (-1) hk.mon).imp ?_
        rintro r t ⟨rfl, ht⟩
        exact ⟨some i, e, he, fun ho => absurd ho (Option.some_ne_none i),
          ht.begun h₁⟩
      · obtain ⟨-, h₃⟩ := h₃
        have hlog' : s₃.logging = s₂.logging := by
          rw [State.logging, State.logging, State.logs, State.brackets,
            hlog.trace]
        have hq₃ : Quiet (k.inOp.own ip)
            (((k.fresh p f fd).hold ip).inOp.lock ip) s₂ s₃ :=
          .of_still h₃ hlog'
        refine (iunlock_turns hq₃.world).andThen fun _ s₄ h₄ => ?_
        have hunlocked := h₂.edited (h₄.after hq₃ fun _ hc => hc) rfl
        refine (endOp_acts hunlocked hk.mon).andThen fun _ s₅ h₅ => ?_
        refine .bind (Sat.modify (Sat.pure ⟨some i, e, he,
          fun ho => absurd ho (Option.some_ne_none i), ?_⟩))
        exact (h₅.begun h₁).same rfl rfl

theorem sysClose_acts (p : P) (fd : ℤ) (hk : k.Idle) (hs : World s k)
    (ha : Anchored (k.anchors s) s.node) :
    Sat (sysClose p fd) s (fun _ t => Acts .none s t) fun _ => True := by
  refine argfd_bind fun r _ => ?_
  rcases r with _ | ⟨fd', f⟩
  · exact Sat.pure (acts_of_same rfl rfl (hs.anchors_eq ▸ ha))
  have h₀ := hs.same (hs.holds.setOfile p fd' none) rfl
  refine .bind (Sat.modify ?_)
  refine (fileclose_acts (hk.setOfile p fd' none) h₀.world ha).andThen ?_
  intro _ t ht
  exact Sat.pure ⟨⟨ht.node, ht.anchored, ht.sb⟩, ht.brackets⟩

omit [DecidableEq P] in
theorem sysRead_acts (p : P) (fd : ℤ) (l : ℕ) (hk : k.Idle) (hs : World s k)
    (ha : Anchored s.Anchors s.node) :
    Sat (sysRead p fd l) s (fun _ t => Acts .none s t) fun _ => True := by
  refine argfd_bind fun r _ => ?_
  rcases r with _ | ⟨fd', f⟩
  · exact Sat.pure (acts_of_same rfl rfl ha)
  refine ((fileread_brackets f l).also (fileread_still l hs fun htype =>
    hs.mem_of_inode hk htype)).andThen ?_
  rintro r t ⟨hold, -, off, ht⟩
  have hacts := ht.acts ha hs (fun _ hc => hc) hold
  split
  · exact Sat.pure hacts
  · exact Sat.pure hacts

omit [DecidableEq P] in
theorem sysFstat_acts (p : P) (fd : ℤ) (hk : k.Idle) (hs : World s k)
    (ha : Anchored s.Anchors s.node) :
    Sat (sysFstat p fd) s (fun _ t => Acts .none s t) fun _ => True := by
  refine argfd_bind fun r _ => ?_
  rcases r with _ | ⟨fd', f⟩
  · exact Sat.pure (acts_of_same rfl rfl ha)
  refine ((filestat_brackets f).also (filestat_still hs fun htype =>
    hs.mem_of_inode hk htype)).andThen ?_
  rintro r t ⟨hold, ht⟩
  have hacts := ht.acts ha hs (fun _ hc => hc) hold
  split
  · exact Sat.pure hacts
  · exact Sat.pure hacts

/-! ## Writing -/

/-- The descriptor is open for writing, and stands for a file on the volume. -/
structure State.FileAt (s : State P) (p : P) (fd : ℤ) (f : FileSlot) (i : ℕ)
    (n : Node) : Prop where
  file : s.fileOf p fd = some f
  writable : (s.ftable f).writable = true
  type : (s.ftable f).type = .inode
  inum : (s.icache (s.ftable f).ip).inum = i
  node : s.node i = some n
  dev : n.type ≠ T_DEV

/-- What `sys_write` returns, and what it does. -/
inductive WriteEdit (s : State P) (p : P) (fd : ℤ) (addr : Bytes) :
    ℤ → Edit → Prop
  | other {r : ℤ} (h : ∀ f i n, ¬s.FileAt p fd f i n) :
      WriteEdit s p fd addr r .none
  | written {r : ℤ} {f : FileSlot} {i l : ℕ} {n : Node}
      (h : s.FileAt p fd f i n) (hdir : n.type ≠ T_DIR)
      (hl : l ≤ addr.length) (hall : r ≠ -1 → l = addr.length) :
      WriteEdit s p fd addr r (.write i (s.ftable f).off (addr.take l))

omit [DecidableEq P] [Fintype P] in
/-- Bytes written to a file do not change its links. -/
theorem Changed.makes {off : ℕ} {src : Bytes}
    (h : Changed k k' i (n.written off src) s t) (hn : s.node i = some n)
    (hs : World s k) (hrefs : k'.refs = k.refs)
    (ha : Anchored s.Anchors s.node) : Makes (.write i off src) s t := by
  have hnode : t.node = (Edit.write i off src).apply s.node := by
    rw [h.node, Edit.apply, revise_eq hn]
  have hat : Anchored t.Anchors t.node := by
    rw [← h.world.anchors_eq, Ctx.anchors_congr hrefs, hnode]
    rw [← hs.anchors_eq] at ha
    refine (ha.mono h.frame.anchors_subset).revise fun m hm hzero => ?_
    exact h.frame.anchors_subset (ha i m hm hzero)
  refine ⟨?_, hat, h.frame.sb⟩
  rw [← hnode]
  refine (Anchored.swept_eq (hat.mono ?_)).symm
  rintro i ⟨c, hc, hinum, -⟩
  exact ⟨c, hc, hinum⟩

omit [DecidableEq P] in
theorem filewrite_makes (p : P) (fd : ℤ) (addr : Bytes) (hk : k.Idle)
    (hs : World s k) (hf : Files s) (ha : Anchored s.Anchors s.node)
    (hfile : s.fileOf p fd = some f) :
    Sat (filewrite f addr) s (fun r t => ∃ e, Makes e s t ∧
      ∀ v, (r = none → v = -1) → WriteEdit s p fd addr v e)
      fun _ => True := by
  have hftable := hs.holds.ftable
  have hother : ∀ {r t off}, Still k (k.seek f off) s t →
      (∀ i n, ¬s.FileAt p fd f i n) → ∃ e, Makes e s t ∧
        ∀ v : ℤ, (r = (none : Option ℕ) → v = -1) →
          WriteEdit s p fd addr v e := by
    intro r t off ht hnot
    refine ⟨.none, ht.makes ha hs fun _ hc => hc, fun v _ => .other ?_⟩
    intro f' i n hat
    obtain rfl := Option.some.inj (hfile.symm.trans hat.file)
    exact hnot i n hat
  have hsame : ∀ {t}, Still k k s t →
      Still k (k.seek f (k.ftable f).off) s t := by
    intro t ht
    rwa [Ctx.seek_self]
  refine .bind (Sat.get ?_)
  apply Sat.ite
  · intro hclosed
    refine Sat.pure (hother (hsame (.refl hs)) fun i n hat => ?_)
    rw [hat.writable] at hclosed
    cases hclosed
  intro hwritable
  rw [Bool.not_eq_false] at hwritable
  split
  · next hpipe =>
      refine (receive_still hs).andThen fun r t ht => ?_
      refine Sat.pure (hother (hsame ht) fun i n hat => ?_)
      rw [hat.type] at hpipe
      cases hpipe
  · next htype =>
      rw [hftable] at htype
      have href : (k.ftable f).refersTo (k.ftable f).ip := by
        refine ⟨Nat.pos_of_ne_zero fun hzero => ?_, htype, rfl⟩
        rw [hs.holds.free f hzero] at htype
        cases htype
      have hvalid := hf.valid f (k.ftable f).ip (hftable ▸ href)
      obtain ⟨n, hn⟩ := hs.loaded (hs.mem_of_inode hk htype) hvalid
      have hdir := hf.readOnly f _ (hftable ▸ href) hwritable n hn.node
      by_cases hdev : n.type = T_DEV
      · refine (filewriteLoop_still hk.mon hdev _ addr hn).andThen ?_
        rintro ok t ⟨off, ht⟩
        have hnot : ∀ i m, ¬s.FileAt p fd f i m := by
          intro i m hat
          have hm := hat.node
          rw [← hat.inum, hftable, hn.node] at hm
          obtain rfl := Option.some.inj hm
          exact hat.dev hdev
        apply Sat.ite
        · intro _
          exact Sat.pure (hother ht hnot)
        · intro _
          exact Sat.pure (hother ht hnot)
      · refine (filewriteLoop_wrote hk.mon hdir hdev _ addr hn
          le_rfl).andThen ?_
        rintro ok t ⟨l, hl, hall, ht⟩
        have hmakes := ht.makes hn.node hs rfl ha
        have hat : s.FileAt p fd f (s.icache (k.ftable f).ip).inum n :=
          ⟨hfile, hwritable, hftable ▸ htype, by rw [hftable], hn.node, hdev⟩
        have hoff : (k.ftable f).off = (s.ftable f).off := by
          rw [hftable]
        rw [hoff] at hmakes
        apply Sat.ite
        · intro hok
          exact Sat.pure ⟨_, hmakes, fun v _ =>
            .written hat hdir hl fun _ => hall hok⟩
        · intro _
          exact Sat.pure ⟨_, hmakes, fun v hv =>
            .written hat hdir hl fun hne => absurd (hv rfl) hne⟩
  · exact Sat.throw trivial

omit [DecidableEq P] in
theorem sysWrite_makes (p : P) (fd : ℤ) (addr : Bytes) (hk : k.Idle)
    (hs : World s k) (hf : Files s) (ha : Anchored s.Anchors s.node) :
    Sat (sysWrite p fd addr) s (fun r t => ∃ e,
      WriteEdit s p fd addr r e ∧ Makes e s t) fun _ => True := by
  refine argfd_bind fun r hr => ?_
  rcases r with _ | ⟨fd', f⟩
  · refine Sat.pure ⟨.none, .other fun f i n hat => ?_,
      (Still.refl hs).makes ha hs fun _ hc => hc⟩
    rw [hat.file] at hr
    cases hr
  refine (filewrite_makes p fd addr hk hs hf ha hr.symm).andThen ?_
  rintro r t ⟨e, ht, he⟩
  split
  · exact Sat.pure ⟨e, he _ fun _ => rfl, ht⟩
  · next l =>
      exact Sat.pure ⟨e, he _ fun hc => absurd hc (Option.some_ne_none l), ht⟩

/-! ## Every call -/

/-- The edit that a call makes in state `s`, if it returns `r`. -/
def Call.Edits (p : P) (s : State P) : Call → ℤ → Edit → Prop
  | .link (some old) (some new), r, e =>
      LinkEdit s.node (s.startInum p old) (s.startInum p new)
        (components old) (components new) r e
  | .unlink (some path), r, e =>
      UnlinkEdit s.node (s.startInum p path) (components path) r e
  | .open (some path) omode, r, e => ∃ o,
      OpenEdit s.node (s.startInum p path) (components path) omode o e ∧
        (o = none → r = -1)
  | .mkdir (some path), r, e => ∃ o,
      CreateEdit s.node (s.startInum p path) (components path) T_DIR 0 0 o e ∧
        r = (if o = none then -1 else 0)
  | .mknod (some path) (some major) (some minor), r, e => ∃ o,
      CreateEdit s.node (s.startInum p path) (components path) T_DEV
        (major.setWidth 16) (minor.setWidth 16) o e ∧
        r = (if o = none then -1 else 0)
  | .write fd addr, r, e => WriteEdit s p fd addr r e
  | _, _, e => e = .none

/-- A call that writes no file. -/
def Call.Bounded : Call → Prop
  | .write _ _ => False
  | _ => True

/-- Every call that returns makes the edit that its arguments ask for. -/
theorem call_makes (p : P) (c : Call) (hk : k.Idle) (hs : World s k)
    (hf : Files s) (ha : Anchored s.Anchors s.node)
    (hsize : s.sb.ninodes ≤ 65536) :
    Sat (c.run p) s (fun r t => ∃ e, c.Edits p s r e ∧ Makes e s t ∧
      (c.Bounded → Acts e s t)) fun _ => True := by
  have hanchored := ha
  rw [← hs.anchors_eq] at hanchored
  have hcwd := hk.cwd_mem p
  have hnone : ∀ {x : M P ℤ}, Sat x s (fun _ t => Acts .none s t)
      (fun _ => True) → (∀ r, c.Edits p s r .none) →
        Sat x s (fun r t => ∃ e, c.Edits p s r e ∧ Makes e s t ∧
          (c.Bounded → Acts e s t)) fun _ => True :=
    fun hx hc => hx.imp fun r _ ht => ⟨.none, hc r, ht.toMakes, fun _ => ht⟩
  cases c with
  | dup fd => exact hnone (sysDup_acts p fd ha) fun _ => rfl
  | read fd n => exact hnone (sysRead_acts p fd n hk hs ha) fun _ => rfl
  | write fd addr =>
      refine (sysWrite_makes p fd addr hk hs hf ha).imp ?_
      rintro r t ⟨e, he, ht⟩
      exact ⟨e, he, ht, False.elim⟩
  | close fd => exact hnone (sysClose_acts p fd hk hs hanchored) fun _ => rfl
  | fstat fd => exact hnone (sysFstat_acts p fd hk hs ha) fun _ => rfl
  | link old new =>
      rcases old with _ | old
      · exact hnone (Sat.pure (acts_of_same rfl rfl ha)) fun _ => rfl
      rcases new with _ | new
      · exact hnone (Sat.pure (acts_of_same rfl rfl ha)) fun _ => rfl
      refine (sysLink_acts p old new hs hk.mon hcwd hanchored).imp ?_
      rintro r t ⟨e, he, ht⟩
      exact ⟨e, he, ht.toMakes, fun _ => ht⟩
  | unlink path =>
      rcases path with _ | path
      · exact hnone (Sat.pure (acts_of_same rfl rfl ha)) fun _ => rfl
      refine (sysUnlink_acts p path hs hk.mon hcwd hanchored).imp ?_
      rintro r t ⟨e, he, ht⟩
      exact ⟨e, he, ht.toMakes, fun _ => ht⟩
  | «open» path omode =>
      rcases path with _ | path
      · exact hnone (Sat.pure (acts_of_same rfl rfl ha)) fun _ => rfl
      refine (sysOpen_acts p path omode hk hs hanchored hsize).imp ?_
      rintro r t ⟨o, e, he, hr, ht⟩
      exact ⟨e, ⟨o, he, hr⟩, ht.toMakes, fun _ => ht⟩
  | mkdir path =>
      rcases path with _ | path
      · exact hnone ((badArgument_acts hs hk.mon hanchored).imp
          fun _ _ ht => ht.2) fun _ => rfl
      refine (beginOp_create_acts p path T_DIR 0 0 hs hk.mon hcwd hanchored
        (by decide) hsize).imp ?_
      rintro r t ⟨o, e, he, hr, ht⟩
      exact ⟨e, ⟨o, he, hr⟩, ht.toMakes, fun _ => ht⟩
  | mknod path major minor =>
      have hdone : Sat (do
          beginOp
          endOp
          pure (-1) : M P ℤ) s (fun _ t => Acts .none s t) fun _ => True :=
        (badArgument_acts hs hk.mon hanchored).imp fun _ _ ht => ht.2
      rcases path with _ | path
      · exact hnone hdone fun _ => rfl
      rcases major with _ | major
      · exact hnone hdone fun _ => rfl
      rcases minor with _ | minor
      · exact hnone hdone fun _ => rfl
      refine (beginOp_create_acts p path T_DEV (major.setWidth 16)
        (minor.setWidth 16) hs hk.mon hcwd hanchored (by decide) hsize).imp ?_
      rintro r t ⟨o, e, he, hr, ht⟩
      exact ⟨e, ⟨o, he, hr⟩, ht.toMakes, fun _ => ht⟩
  | chdir path =>
      rcases path with _ | path
      · exact hnone ((badArgument_acts hs hk.mon hanchored).imp
          fun _ _ ht => ht.2) fun _ => rfl
      exact hnone (sysChdir_acts p path hk hs hanchored) fun _ => rfl
  | exec path vm =>
      exact hnone (exec_acts p path vm hs hk.mon hcwd hanchored) fun _ => rfl
  | pipe page =>
      have hfree : FreeFiles s := by
        rw [FreeFiles, hs.holds.ftable]
        exact hs.holds.free
      exact hnone ((sysPipe_unlogged p page hfree).imp
        fun _ _ ht => ht.acts ha) fun _ => rfl

omit [DecidableEq P] [Fintype P] in
/-- Such an edit is legal. -/
theorem Call.Edits.legal {p : P} {c : Call} {r : ℤ} (h : c.Edits p s r e) :
    e.Legal s.node := by
  unfold Call.Edits at h
  split at h
  · exact h.legal
  · exact h.legal
  · obtain ⟨o, he, -⟩ := h
    exact he.legal
  · obtain ⟨o, he, -⟩ := h
    exact he.legal (by decide)
  · obtain ⟨o, he, -⟩ := h
    exact he.legal (by decide)
  · cases h with
    | other => trivial
    | written hat hdir => exact ⟨_, hat.node, hdir⟩
  · rw [h]
    trivial

end ZtlOs.Kernel
