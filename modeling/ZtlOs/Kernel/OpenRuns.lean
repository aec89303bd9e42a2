import ZtlOs.Kernel.Lifetime
import ZtlOs.Kernel.Resolution
import ZtlOs.Support.Runs

/-!
# Runs of calls with open files

The calls that open files, pipes and directories, and from one call to the
next what a run does to a file that stays open.
-/

namespace ZtlOs.Kernel

open ZtlOs.Support ZtlOs.Support.Program ZtlOs.Fs

variable {P : Type} [DecidableEq P] [Fintype P]
variable {s t u : State P} {k k' k₀ : Ctx P} {ip c : Slot}
variable {f : FileSlot} {i j : ℕ} {n n' : Node}

/-! ## The current directory -/

omit [DecidableEq P] in
/-- The files stay as they are, and some other references change. -/
theorem Mild.leaves_of_refs (h : Mild k₀ k' s t) (hk : k.Idle)
    (hk' : k'.Idle) (hs : World s k) (hf : Files s)
    (hftable : k'.ftable = k.ftable)
    (hrefs : ∀ c, c ∈ k₀.refs ↔ c ∈ k.refs ∧ c ∈ k'.refs) :
    Leaves (fun _ => []) s t := by
  have hopen : ∀ f c, (k.ftable f).refersTo c → c ∈ k₀.refs := by
    intro f c href
    refine (hrefs c).mpr ⟨hk.mem_refs href, hk'.mem_refs (f := f) ?_⟩
    rwa [hftable]
  have hold : k.NoNewFiles k' := by
    intro f c href
    rw [hftable] at href ⊢
    exact ⟨href, id⟩
  refine ⟨⟨k', hk', h.world⟩, ?_, ?_⟩
  · refine hf.tracks hs h.tracks hold (fun c hc => ((hrefs c).mp hc).1) ?_
    rwa [hftable]
  · exact h.tracks.outlives hs hopen fun c hc => ((hrefs c).mp hc).2

theorem sysChdir_leaves (p : P) (path : Option Bytes) (hk : k.Idle)
    (hs : World s k) (hf : Files s) :
    Sat (sysChdir p path) s (fun _ t => Leaves (fun _ => []) s t)
      fun _ => True := by
  refine (beginOp_still hs hk.mon).andThen fun _ s₁ h₁ => ?_
  split
  · exact (endOp_mild (-1) h₁.world hk.mon).imp fun _ _ ht =>
      (h₁.mild.trans ht).leaves hk hs hf
  next path =>
  refine (namei_calm p path h₁.world rfl
    (h₁.world.cwd_mem (hk.cwd_mem p))).andThen ?_
  rintro (_ | ip) s₂ h₂
  · refine (endOp_mild (-1) h₂.world hk.mon).imp fun _ t ht => ?_
    have hall := (h₁.mild.andThen h₂.mild fun _ hc => hc).trans ht
    exact hall.leaves hk hs hf
  have hfirst : Mild k (k.inOp.hold ip) s s₂ :=
    h₁.mild.andThen h₂.mild fun _ hc => hc
  refine (ilock_own h₂.world).andThen ?_
  rintro _ s₃ ⟨h₃, n, hn⟩
  have hlocked := hfirst.andThen h₃.mild (k.sub_hold ip)
  apply getDin_bind
  apply Sat.ite
  · intro _
    refine (unlinkBad_mild hlocked.world hk.mon).imp fun _ t ht => ?_
    exact (hlocked.trans ht).leaves hk hs hf
  intro _
  refine (iunlock_still (k := k.inOp.hold ip) h₃.world).andThen ?_
  intro _ s₄ h₄
  have hheld : Mild k (k.inOp.hold ip) s s₄ :=
    hlocked.andThen h₄.mild (k.sub_hold ip)
  obtain ⟨k', heq, hidle, hmon, hcwd⟩ := hk.chdir p ip
  have hop : k.inOp.hold ip = k'.inOp.hold (k.cwd p) := congrArg Ctx.inOp heq
  have hftable : k'.ftable = k.ftable := (congrArg Ctx.ftable heq).symm
  refine .bind (Sat.get ?_)
  rw [h₄.world.holds.cwd]
  change Sat (iput (k.cwd p) >>= _) s₄ _ _
  have hworld := h₄.world
  rw [hop] at hworld
  refine (iput_calm (k := k'.inOp) hworld rfl).andThen fun _ s₅ h₅ => ?_
  refine (endOp_still h₅.world hmon).andThen fun _ s₆ h₆ => ?_
  have hchdir := h₆.world.same (h₆.world.holds.chdir p ip) rfl
  rw [hcwd] at hchdir
  refine .bind (Sat.modify (Sat.pure ?_))
  have hput : Mild k' k'.inOp s₄ s₅ := h₅.mild.mono fun _ hc => hc
  have hend := hput.andThen h₆.mild fun _ hc => hc
  have hlast := hend.trans hchdir.mild
  have hleft : ∀ c ∈ k.refs ∩ k'.refs, c ∈ k.refs :=
    fun c hc => (Multiset.mem_inter.mp hc).1
  have hright : ∀ c ∈ k.refs ∩ k'.refs, c ∈ k'.refs :=
    fun c hc => (Multiset.mem_inter.mp hc).2
  have hall : Mild { k with refs := k.refs ∩ k'.refs } _ s _ :=
    (hheld.mono hleft).andThen hlast hright
  exact hall.leaves_of_refs hk hidle hs hf hftable fun c => Multiset.mem_inter

/-! ## Opening files -/

omit [Fintype P] in
/-- `filealloc` and `fdalloc` leave the volume as it is. -/
theorem openFile_still (p : P) (hs : World s k) :
    Sat (openFile p) s (fun r t => match r with
      | none => Still k k s t
      | some (f, fd) => (k.ftable f).ref = 0 ∧ Still k (k.fresh p f fd) s t)
      fun _ => True := by
  refine (filealloc_still hs).andThen ?_
  rintro (_ | f) s₁ h₁
  · exact Sat.pure h₁
  obtain ⟨href, htype, h₁⟩ := h₁
  refine (fdalloc_still p f h₁.world).andThen ?_
  rintro (_ | fd) s₂ h₂
  · have hnot : (s₂.ftable f).type ≠ .inode := by
      rw [h₂.world.holds.ftable]
      change ((k.setFile f { k.ftable f with ref := 1 }).ftable f).type ≠ _
      rw [Ctx.setFile_ftable_self, htype]
      exact fun h => by cases h
    refine (((fileclose_unused f href htype).also h₂.world.holds
      (fileclose_volume hnot))).andThen ?_
    rintro _ s₃ ⟨hholds, heq⟩
    have h₃ := h₂.world.same hholds heq
    exact Sat.pure ((h₁.trans (h₂.mono fun _ hc => hc)).trans
      (h₃.mono fun _ hc => hc))
  · exact Sat.pure ⟨href, h₁.trans (h₂.mono fun _ hc => hc)⟩

/-- A file that is opened for a directory is only read. -/
theorem File.writable_opened {v : File} {omode : BitVec 32}
    (h : (v.opened ip omode).writable = true) : omode ≠ O_RDONLY := by
  rintro rfl
  revert h
  simp [File.opened, O_RDONLY]

omit [DecidableEq P] in
/-- One more file refers to a valid copy. -/
theorem Files.opened {v : File} (hf : Files s) (hs : World s k)
    (h : Mild k k' s t) (hk : k.Idle) (hip : Loaded t k' ip i n)
    (hftable : k'.ftable = Function.update k.ftable f v)
    (hv : v.refersTo ip) (hdir : v.writable = true → n.type ≠ T_DIR) :
    Files t := by
  have hbefore := hs.holds.ftable
  have hcases : ∀ f' c, (t.ftable f').refersTo c →
      (f' = f ∧ c = ip ∧ t.ftable f' = v) ∨
        (s.ftable f').refersTo c ∧ t.ftable f' = s.ftable f' := by
    intro f' c href
    rw [h.world.holds.ftable, hftable] at href ⊢
    by_cases hff : f' = f
    · subst hff
      rw [Function.update_self] at href ⊢
      exact .inl ⟨rfl, href.2.2.symm.trans hv.2.2, rfl⟩
    · rw [Function.update_of_ne hff] at href ⊢
      rw [hbefore]
      exact .inr ⟨href, rfl⟩
  constructor
  · intro f' c href
    rcases hcases f' c href with ⟨-, rfl, -⟩ | ⟨hold, -⟩
    · exact hip.valid
    · have hvalid := hf.valid f' c hold
      rw [hbefore] at hold
      exact h.frame.valid c (hk.mem_refs hold) hvalid
  · intro f' c href hwritable n' hn'
    rcases hcases f' c href with ⟨-, rfl, heq⟩ | ⟨hold, heq⟩
    · rw [hip.inum, hip.node] at hn'
      obtain rfl := Option.some.inj hn'
      rw [heq] at hwritable
      exact hdir hwritable
    · have hvalid := hf.valid f' c hold
      have hread := hf.readOnly f' c hold (heq ▸ hwritable)
      rw [hbefore] at hold
      have hc := hk.mem_refs hold
      obtain ⟨m, hm⟩ := hs.loaded hc hvalid
      obtain ⟨m', hm', halike⟩ := h.alike c hc m hm.node
      rw [h.frame.inum c hc, hm'] at hn'
      obtain rfl := Option.some.inj hn'
      rw [halike.type]
      exact hread m hm.node

theorem sysOpen_leaves (p : P) (path : Option Bytes) (omode : BitVec 32)
    (hk : k.Idle) (hs : World s k) (hf : Files s) :
    Sat (sysOpen p path omode) s (fun _ t => Leaves (fun _ => []) s t)
      fun _ => True := by
  unfold sysOpen
  split
  · exact Sat.pure ((Mild.refl hs).leaves hk hs hf)
  next path =>
  refine (beginOp_still hs hk.mon).andThen fun _ s₁ h₁ => ?_
  refine (openInode_mild p path omode h₁.world rfl
    (h₁.world.cwd_mem (hk.cwd_mem p))).andThen ?_
  rintro (_ | ip) s₂ ⟨h₂, hr⟩
  · refine (endOp_mild (-1) h₂.world hk.mon).imp fun _ t ht => ?_
    have hall := (h₁.mild.andThen h₂ fun _ hc => hc).trans ht
    exact hall.leaves hk hs hf
  obtain ⟨i, n, hn, hdir⟩ := hr ip rfl
  have hfirst : Mild k (k.inOp.own ip) s s₂ :=
    h₁.mild.andThen h₂ fun _ hc => hc
  refine (openFile_still p hn.world).andThen ?_
  rintro (_ | ⟨f, fd⟩) s₃ h₃
  · have hlocked := hfirst.andThen h₃.mild (k.sub_own ip)
    refine (unlinkBad_mild h₃.world hk.mon).imp fun _ t ht => ?_
    exact (hlocked.trans ht).leaves hk hs hf
  obtain ⟨href, h₃⟩ := h₃
  change Still (k.inOp.own ip) (((k.fresh p f fd).hold ip).inOp.lock ip)
    s₂ s₃ at h₃
  refine (iunlock_still h₃.world).andThen fun _ s₄ h₄ => ?_
  refine (endOp_still (k := (k.fresh p f fd).hold ip) h₄.world
    hk.mon).andThen fun _ s₅ h₅ => ?_
  have hone : (s₅.ftable f).ref = 1 := by
    rw [h₅.world.holds.ftable]
    change (Function.update k.ftable f _ f).ref = 1
    rw [Function.update_self]
  have hv : ((s₅.ftable f).opened ip omode).refersTo ip :=
    ⟨by rw [File.opened, hone]; exact Nat.one_pos, rfl, rfl⟩
  have hset := h₅.world.holds.setFile (f := f)
    (v := (s₅.ftable f).opened ip omode) fun hzero =>
      absurd (hone.symm.trans hzero) Nat.one_ne_zero
  have h₆ := h₅.world.same hset rfl
  refine .bind (Sat.modify (Sat.pure ?_))
  have hafter := (h₃.trans (h₄.mono fun _ hc => hc)).trans
    (h₅.mono fun _ hc => hc)
  have hstill := hafter.trans (h₆.mono fun _ hc => hc)
  have hmild := hfirst.andThen hstill.mild (k.sub_own ip)
  have hidle : (((k.fresh p f fd).hold ip).setFile f
      ((s₅.ftable f).opened ip omode)).Idle := hk.opened href hv
  have hmem : ip ∈ ((k.fresh p f fd).hold ip).refs := Ctx.mem_hold _ ip
  have hloaded := hn.still hstill hn.mem hmem
  refine ⟨⟨_, hidle, hmild.world⟩, ?_, ?_⟩
  · refine hf.opened hs hmild hk hloaded (Function.update_idem ..) hv ?_
    exact fun hw hisdir => File.writable_opened hw (hdir hisdir)
  · exact hmild.tracks.outlives hs (fun f c href => hk.mem_refs href)
      (k.sub_hold ip)

/-! ## Pipes -/

omit [DecidableEq P] [Fintype P] in
/-- Putting a reference to a file opens no inode. -/
theorem Ctx.unref_type {f' : FileSlot} (h : (k.ftable f').type ≠ .inode) :
    ((k.unref f).ftable f').type ≠ .inode := by
  rw [Ctx.unref]
  by_cases hff : f' = f
  · subst hff
    split
    · rwa [Ctx.setFile_ftable_self]
    · rw [Ctx.setFile_ftable_self]
      exact fun h => by cases h
  · split <;> rwa [Ctx.setFile_ftable_of_ne k hff]

omit [DecidableEq P] [Fintype P] in
/-- A file is given another one's fields. -/
theorem Ctx.setFile_type {f' : FileSlot} {v : File}
    (h : (k.ftable f').type ≠ .inode) (hv : v.type ≠ .inode) :
    ((k.setFile f v).ftable f').type ≠ .inode := by
  by_cases hff : f' = f
  · subst hff
    rwa [Ctx.setFile_ftable_self]
  · rwa [Ctx.setFile_ftable_of_ne k hff]

omit [DecidableEq P] [Fintype P] in
theorem State.ref_setFile (s : State P) {v : File}
    (hv : v.ref = (s.ftable f).ref) (f' : FileSlot) :
    ((s.setFile f v).ftable f').ref = (s.ftable f').ref := by
  by_cases hff : f' = f
  · subst hff
    exact (congrArg File.ref (Function.update_self ..)).trans hv
  · exact congrArg File.ref (Function.update_of_ne hff ..)

/-- The files of a pipe refer to no inode. -/
def Ends (k k' : Ctx P) (rf wf : FileSlot) (s t : State P) : Prop :=
  Shuffles k k' s t ∧ (k'.ftable rf).type ≠ .inode ∧
    (k'.ftable wf).type ≠ .inode

section Ends

variable {k₂ : Ctx P} {rf wf : FileSlot}

omit [DecidableEq P] in
theorem Ends.swap (h : Ends k k' rf wf s t) : Ends k k' wf rf s t :=
  ⟨h.1, h.2.2, h.2.1⟩

omit [DecidableEq P] in
/-- `filealloc` for one end of a pipe. -/
theorem filealloc_shuffles (hk : k.Idle) (hs : World s k) :
    Sat (filealloc (P := P)) s (fun r t => match r with
      | none => Shuffles k k s t
      | some f => (k.ftable f).type ≠ .inode ∧
          Shuffles k (k.setFile f { k.ftable f with ref := 1 }) s t)
      fun _ => True := by
  refine (filealloc_still hs).imp ?_
  rintro (_ | f) t ht
  · exact (Shuffles.refl hk hs).trans ⟨ht, hk, fun _ _ href => ⟨href, id⟩, rfl⟩
  · obtain ⟨-, htype, hstill⟩ := ht
    have hnot : (k.ftable f).type ≠ .inode := by
      rw [htype]
      exact fun h => by cases h
    exact ⟨hnot, hstill.shuffles_setFile hk hnot hnot⟩

omit [DecidableEq P] in
/-- An end of a pipe is set up. -/
theorem Ends.setFile (readable writable : Bool) (h : Ends k k' rf wf s t)
    (hpos : (t.ftable rf).ref ≠ 0) :
    ∃ k₂ : Ctx P, Ends k k₂ rf wf s (t.setFile rf { t.ftable rf with
      type := .pipe, readable := readable, writable := writable }) := by
  obtain ⟨hs, hrf, hwf⟩ := h
  have hset := hs.still.world.holds.setFile (f := rf) (v := { t.ftable rf with
    type := .pipe, readable := readable, writable := writable })
    fun hzero => absurd hzero hpos
  have hpipe : FileType.pipe ≠ .inode := fun h => by cases h
  have hnext := hs.still.world.same hset rfl
  exact ⟨_, hs.trans (hnext.shuffles_setFile hs.idle hrf hpipe),
    Ctx.setFile_type hrf hpipe, Ctx.setFile_type hwf hpipe⟩

omit [DecidableEq P] in
/-- Both ends of a pipe are closed. -/
theorem Ends.close (h : Ends k k' rf wf s t) {α : Type} (a : α) :
    Sat (do
      fileclose rf
      fileclose wf
      pure a : M P α) t (fun r u => r = a ∧ ∃ k₂ : Ctx P, Shuffles k k₂ s u)
      fun _ => True := by
  obtain ⟨hs, hrf, hwf⟩ := h
  refine (fileclose_shuffles hs.idle hs.still.world hrf).andThen ?_
  intro _ u hu
  refine (fileclose_shuffles hu.idle hu.still.world
    (Ctx.unref_type hwf)).andThen fun _ v hv => ?_
  exact Sat.pure ⟨rfl, _, hs.trans (hu.trans hv)⟩

end Ends

omit [DecidableEq P] in
theorem pipealloc_shuffles (page : Bool) (hk : k.Idle) (hs : World s k) :
    Sat (pipealloc (P := P) page) s (fun r t => match r with
      | none => ∃ k' : Ctx P, Shuffles k k' s t
      | some (rf, wf) => ∃ k' : Ctx P, Ends k k' rf wf s t)
      fun _ => True := by
  refine (filealloc_shuffles hk hs).andThen ?_
  rintro (_ | f₀) s₁ h₁
  · exact Sat.pure ⟨k, h₁⟩
  obtain ⟨hnot₀, h₁⟩ := h₁
  have htype₀ := Ctx.setFile_type (f := f₀)
    (v := { k.ftable f₀ with ref := 1 }) hnot₀ hnot₀
  have hone := Ctx.setFile_ftable_self k f₀ { k.ftable f₀ with ref := 1 }
  generalize k.setFile f₀ { k.ftable f₀ with ref := 1 } = k₁ at h₁ htype₀ hone
  refine (filealloc_shuffles h₁.idle h₁.still.world).andThen ?_
  rintro (_ | f₁) s₂ h₂
  · have hboth := h₁.trans h₂
    refine (fileclose_shuffles hboth.idle h₂.still.world htype₀).andThen ?_
    intro _ s₃ h₃
    exact Sat.pure ⟨_, hboth.trans h₃⟩
  obtain ⟨hnot₁, h₂⟩ := h₂
  have hends : Ends k _ f₀ f₁ s s₂ := ⟨h₁.trans h₂,
    Ctx.setFile_type htype₀ hnot₁, Ctx.setFile_type hnot₁ hnot₁⟩
  apply Sat.ite
  · intro _
    refine (hends.close none).imp ?_
    rintro _ t ⟨rfl, ht⟩
    exact ht
  intro _
  have href : ∀ f, f = f₀ ∨ f = f₁ → (s₂.ftable f).ref ≠ 0 := by
    intro f hf
    rw [h₂.still.world.holds.ftable]
    by_cases hff : f = f₁
    · subst hff
      rw [Ctx.setFile_ftable_self]
      exact Nat.one_ne_zero
    · rw [Ctx.setFile_ftable_of_ne k₁ hff, hf.resolve_right hff, hone]
      exact Nat.one_ne_zero
  obtain ⟨k₃, h₃⟩ := hends.setFile true false (href f₀ (.inl rfl))
  refine .bind (Sat.modify (.bind (Sat.modify (Sat.pure ?_))))
  have hsame := State.ref_setFile s₂ (f := f₀) (v := { s₂.ftable f₀ with
    type := .pipe, readable := true, writable := false }) rfl f₁
  have hkept := hsame.trans_ne (href f₁ (.inr rfl))
  obtain ⟨k₄, h₄⟩ := h₃.swap.setFile false true hkept
  exact ⟨k₄, h₄.swap⟩

theorem sysPipe_leaves (p : P) (page : Bool) (hk : k.Idle)
    (hs : World s k) (hf : Files s) :
    Sat (sysPipe p page) s (fun _ t => Leaves (fun _ => []) s t)
      fun _ => True := by
  have hdone : ∀ t, (∃ k' : Ctx P, Shuffles k k' s t) →
      Leaves (fun _ => []) s t := by
    rintro t ⟨k', ht⟩
    exact ht.leaves hk hs hf
  refine (pipealloc_shuffles page hk hs).andThen ?_
  rintro (_ | ⟨rf, wf⟩) s₁ h₁
  · exact Sat.pure (hdone s₁ h₁)
  obtain ⟨k₁, h₁, hrf, hwf⟩ := h₁
  refine (fdalloc_shuffles p rf h₁.idle h₁.still.world).andThen ?_
  rintro (_ | fd₀) s₂ h₂
  · have hends : Ends k k₁ rf wf s s₂ := ⟨h₁.trans h₂, hrf, hwf⟩
    exact (hends.close _).imp fun _ t ht => hdone t ht.2
  refine (fdalloc_shuffles p wf h₂.idle h₂.still.world).andThen ?_
  rintro (_ | fd₁) s₃ h₃
  · have hboth := (h₁.trans h₂).trans h₃
    have hset := hboth.still.world.same
      (hboth.still.world.holds.setOfile p fd₀ none) rfl
    refine .bind (Sat.modify ?_)
    have hlast : Shuffles k _ s _ := hboth.trans ⟨hset,
      hboth.idle.setOfile p fd₀ none, fun _ _ href => ⟨href, id⟩, rfl⟩
    have hends : Ends k _ rf wf s _ := ⟨hlast, hrf, hwf⟩
    exact (hends.close _).imp fun _ t ht => hdone t ht.2
  · exact Sat.pure (hdone s₃ ⟨_, (h₁.trans h₂).trans h₃⟩)

/-! ## Every call -/

theorem call_leaves (p : P) (c : Call) (hk : k.Idle) (hs : World s k)
    (hf : Files s) :
    Sat (c.run p) s (fun _ t => Leaves (c.writes p s t) s t)
      fun _ => True := by
  have hmon := hk.mon
  have hcwd := hk.cwd_mem p
  cases c with
  | dup fd => exact sysDup_leaves p fd hk hs hf
  | read fd n => exact sysRead_leaves p fd n hk hs hf
  | write fd addr =>
      exact (sysWrite_leaves p fd addr hk hs hf).imp fun _ _ ht => ht.1
  | close fd => exact sysClose_leaves p fd hk hs hf
  | fstat fd => exact sysFstat_leaves p fd hk hs hf
  | link old new =>
      exact (sysLink_mild p old new hs hmon hcwd).imp fun _ _ ht =>
        ht.leaves hk hs hf
  | unlink path =>
      exact (sysUnlink_mild p path hs hmon hcwd).imp fun _ _ ht =>
        ht.leaves hk hs hf
  | «open» path omode => exact sysOpen_leaves p path omode hk hs hf
  | mkdir path =>
      exact (sysMkdir_mild p path hs hmon hcwd).imp fun _ _ ht =>
        ht.leaves hk hs hf
  | mknod path major minor =>
      exact (sysMknod_mild p path major minor hs hmon hcwd).imp fun _ _ ht =>
        ht.leaves hk hs hf
  | chdir path => exact sysChdir_leaves p path hk hs hf
  | exec path vm =>
      exact (exec_mild p path vm hs hmon hcwd).imp fun _ _ ht =>
        ht.leaves hk hs hf
  | pipe page => exact sysPipe_leaves p page hk hs hf

/-- Between two calls. -/
structure AtRest (s : State P) : Prop where
  settled : Settled s
  intact : Intact s
  files : Files s

omit [DecidableEq P] in
theorem AtRest.world (h : AtRest s) :
    ∃ k : Ctx P, k.Idle ∧ World s.start k := by
  obtain ⟨k, hk, hholds⟩ := h.settled.holds
  have hi := h.intact
  exact ⟨k, hk, hholds, hi.congr rfl rfl hi.distinct hi.inums hi.synced,
    h.settled.bufs⟩

omit [DecidableEq P] in
theorem AtRest.files_start (h : AtRest s) : Files s.start :=
  ⟨h.files.valid, h.files.readOnly⟩

/-- A call that returns. -/
theorem AtRest.call {p : P} {c : Call} {r : ℤ} (h : AtRest s)
    (hrun : c.run p s.start = .ok (r, t)) :
    AtRest t ∧ Outlives (c.writes p s t) s t := by
  obtain ⟨k, hk, hworld⟩ := h.world
  have hleaves := (call_leaves p c hk hworld h.files_start).returns hrun
  have hs : Leaves (c.writes p s t) s t :=
    Leaves.of_same (s := s) (t := s.start) hleaves rfl rfl rfl rfl
  obtain ⟨⟨k', hk', ht⟩, hfiles, houtlives⟩ := hs
  exact ⟨⟨(ht.holds.settled hk').2, ht.intact, hfiles⟩, houtlives⟩

/-! ## Runs -/

/-- A process makes a call; one that sleeps forever is not completed. -/
def callStep (s : State P) (a : P × Call) : Outcome (State P) :=
  match a.2.run a.1 s.start with
  | .ok (_, t) => .next t
  | .error (.panic message) => .panic message
  | .error .sleep => .blocked

omit [Fintype P] in
theorem callStep_eq_next {a : P × Call} (h : callStep s a = .next t) :
    ∃ r, a.2.run a.1 s.start = .ok (r, t) := by
  unfold callStep at h
  split at h
  · next r u hrun =>
      cases h
      exact ⟨r, hrun⟩
  · cases h
  · cases h

theorem AtRest.step {a : P × Call} (h : AtRest s)
    (hstep : callStep s a = .next t) :
    AtRest t ∧ Outlives (a.2.writes a.1 s t) s t := by
  obtain ⟨r, hrun⟩ := callStep_eq_next hstep
  exact h.call hrun

/-- A disk with a sound volume whose directories name inodes that exist. -/
structure Formatted (disk : ℕ → Block) : Prop where
  owned : Owned (disk 1).superblock disk (inodeOf (disk 1).superblock disk)
  entries : ∀ i n, (boot (P := Unit) disk).node i = some n →
    n.type = T_DIR → ∀ de ∈ dirents n.data,
      de.inum.toNat < (disk 1).superblock.ninodes

omit [DecidableEq P] in
/-- Nothing has been opened when the system starts. -/
theorem Formatted.atRest {disk : ℕ → Block} (h : Formatted disk) :
    AtRest (boot (P := P) disk) := by
  have hslot : ∀ c, 0 < ((boot (P := P) disk).icache c).ref → c = 0 := by
    intro c href
    by_contra hc
    simp [boot, hc] at href
  have hvalid : ∀ c, ((boot (P := P) disk).icache c).valid = false := by
    intro c
    unfold boot
    dsimp only
    split <;> rfl
  refine ⟨boot_settled disk, ⟨h.owned, ?_, ?_, ?_, h.entries⟩, ?_, ?_⟩
  · intro c c' href href' _
    rw [hslot c href, hslot c' href']
  · intro c href
    rw [hslot c href]
    exact h.owned.layout.root
  · intro c _ hv
    rw [hvalid c] at hv
    cases hv
  · exact fun f c href => absurd href.1 (lt_irrefl 0)
  · exact fun f c href => absurd href.1 (lt_irrefl 0)

theorem Formatted.atRest_run {disk : ℕ → Block} {w : List (P × Call)}
    (h : Formatted disk) (hrun : Run callStep (boot disk) w s) : AtRest s :=
  hrun.invariant (fun _ _ _ hs hstep => (hs.step hstep).1) h.atRest

/-! ## Files that stay open -/

/-- What the calls of a run write to inode `i`. -/
def runWrites (i : ℕ) : State P → List (P × Call) → Writes
  | _, [] => []
  | s, a :: w =>
      match callStep s a with
      | .next t => a.2.writes a.1 s t i ++ runWrites i t w
      | _ => []

/-- The inode is open in this state. -/
def WhileOpen (i : ℕ) (s : State P) (_ : P × Call) : Prop :=
  s.Opened i

/-- The file `i`, which was `n` in `s`, is still a file in `t`, with the bytes
written since laid over its old ones; its blocks are its own and marked, and
they are what is read through a file. -/
structure Lasting (i : ℕ) (n : Node) (ws : Writes) (s t : State P) :
    Prop where
  node : ∃ n', t.node i = some n' ∧ n'.type = T_FILE ∧
    n'.data = laid n.data ws
  blocks : ∀ j, s.lists i j ≠ 0 → t.lists i j = s.lists i j ∧
    bmapBit t.sb t.disk (s.lists i j) = true ∧
    ∀ i' j', t.lists i' j' = s.lists i j → i' = i ∧ j' = j
  read : ∀ f c l r u, (t.ftable f).refersTo c → (t.icache c).inum = i →
    (t.ftable f).readable = true → fileread f l t.start = .ok (r, u) →
    ∃ n', t.node i = some n' ∧ r = n'.fetched (t.ftable f).off l

/-- Inode `i` and the blocks that it listed in `s` are free in `t`. -/
structure Released (i : ℕ) (s t : State P) : Prop where
  node : t.node i = none
  blocks : ∀ j, s.lists i j ≠ 0 → bmapBit t.sb t.disk (s.lists i j) = false

omit [DecidableEq P] [Fintype P] in
theorem lt_of_lists (h : s.lists i j ≠ 0) : j < NSLOT := by
  by_contra hj
  exact h (Sound.slot_beyond (not_lt.mp hj))

omit [DecidableEq P] [Fintype P] in
/-- The slots that have a block do not share it. -/
theorem Intact.lists_inj (h : Intact s) {i' j' : ℕ} (hne : s.lists i j ≠ 0)
    (heq : s.lists i' j' = s.lists i j) : i' = i ∧ j' = j := by
  have hne' : s.lists i' j' ≠ 0 := by rwa [heq]
  exact h.owned.separate.inj i' j' i j (lt_of_lists hne') (lt_of_lists hne)
    hne' heq

omit [DecidableEq P] in
/-- Reading through a file returns the bytes of its node. -/
theorem AtRest.fileread (h : AtRest s) {l : ℕ} {r : Option Bytes}
    (href : (s.ftable f).refersTo c) (hread : (s.ftable f).readable = true)
    (hn : s.node (s.icache c).inum = some n) (hdev : n.type ≠ T_DEV)
    (hrun : fileread f l s.start = .ok (r, t)) :
    r = n.fetched (s.ftable f).off l := by
  obtain ⟨k, hk, hworld⟩ := h.world
  have hleaves := fileread_leaves (f := f) l hk hworld h.files_start
  have hret := (hleaves.returns hrun).1
  have hftable : k.ftable = s.ftable := hworld.holds.ftable.symm
  rw [Returned, hftable] at hret
  refine hret hread href.2.1 n ?_ hdev
  rw [href.2.2]
  exact hn

/-- A file that stays open through a run. -/
theorem AtRest.lasting {w : List (P × Call)} (h : AtRest s)
    (hrun : Run callStep s w t)
    (hopen : Meets callStep (WhileOpen i) s w) (hlast : t.Opened i)
    (hn : s.node i = some n) (hfile : n.type = T_FILE) :
    Lasting i n (runWrites i s w) s t := by
  induction hrun generalizing n with
  | nil s =>
      have hblock := h.intact.owned
      refine ⟨⟨n, hn, hfile, rfl⟩, fun j hj => ⟨rfl, ?_, fun i' j' =>
        h.intact.lists_inj hj⟩, ?_⟩
      · exact hblock.bit_of_listed (lt_of_lists hj) hj id
      · rintro f c l r u href rfl hread hrun
        refine ⟨n, hn, h.fileread href hread hn ?_ hrun⟩
        rw [hfile]
        decide
  | cons head tail ih =>
      next s t u a w =>
      obtain ⟨hopened, hmeets⟩ := hopen
      have hmid : t.Opened i := by
        cases tail with
        | nil => exact hlast
        | cons head' tail' => exact (hmeets t head).1
      obtain ⟨ht, hout⟩ := h.step head
      obtain ⟨n', hn', htype, hdata⟩ := hout.kept i n hopened hmid hn hfile
      have hrest := ih ht (hmeets t head) hlast hn' htype
      obtain ⟨⟨m, hm, hmtype, hmdata⟩, hblocks, hread⟩ := hrest
      refine ⟨⟨m, hm, hmtype, ?_⟩, fun j hj => ?_, hread⟩
      · rw [hmdata, hdata, ← laid_append, runWrites, head]
      · have hsame := hout.blocks i hopened hmid j hj
        have hnext := hblocks j (by rwa [hsame])
        rwa [hsame] at hnext

/-- The call that drops the last reference to a file without links. -/
theorem AtRest.released {a : P × Call} (h : AtRest s)
    (hstep : callStep s a = .next t) (hopen : s.Opened i)
    (hlast : ¬t.Referenced i) (hn : s.node i = some n)
    (hlink : n.nlink = 0) : Released i s t := by
  obtain ⟨ht, hout⟩ := h.step hstep
  obtain ⟨hnone, hfewer⟩ := hout.freed i n hopen hlast hn hlink
  refine ⟨hnone, fun j hj => ?_⟩
  have hdata : nmeta t.sb ≤ s.lists i j := by
    rw [hout.sb]
    exact h.intact.owned.nmeta_le (lt_of_lists hj) hj
  have hlt : s.lists i j < t.sb.size := by
    rw [hout.sb]
    exact h.intact.owned.lt_size (lt_of_lists hj) hj
  have hiff := ht.intact.owned.bitmap _ hlt id
  refine Bool.eq_false_of_not_eq_true fun hbit => ?_
  rcases hiff.mp hbit with hmeta | ⟨i', j', -, heq⟩
  · exact absurd hdata (not_le.mpr hmeta)
  · change t.lists i' j' = s.lists i j at heq
    have hne : t.lists i' j' ≠ 0 := by rwa [heq]
    have hold := hfewer i' j' hne
    have hself := (h.intact.lists_inj hj (hold.symm.trans heq)).1
    rw [hself] at hne
    exact hne (lists_of_node_none hnone j')

/-- A write that succeeds has laid all its bytes at the offset of the file. -/
theorem AtRest.write {p : P} {fd r : ℤ} {addr : Bytes} (h : AtRest s)
    (hfd : s.fileOf p fd = some f)
    (href : (s.ftable f).refersTo (s.ftable f).ip)
    (hn : s.node (s.icache (s.ftable f).ip).inum = some n)
    (hfile : n.type = T_FILE)
    (hrun : (Call.write fd addr).run p s.start = .ok (r, t)) (hr : r ≠ -1) :
    (Call.write fd addr).writes p s t (s.icache (s.ftable f).ip).inum =
      [((s.ftable f).off, addr)] := by
  obtain ⟨k, hk, hworld⟩ := h.world
  have hsat := sysWrite_leaves p fd addr hk hworld h.files_start
  have hwritten := (hsat.returns hrun).2 hr f hfd
  have hoff : (t.ftable f).off = (s.ftable f).off + addr.length :=
    hwritten.2 trivial n href hn hfile
  have hwrites : (Call.write fd addr).writes p s t =
      (s.ftable f).writes (s.icache (s.ftable f).ip).inum addr
        (t.ftable f).off := by
    funext i
    rw [Call.writes, hfd]
  rw [hwrites, File.writes, if_pos ⟨href.1, href.2.1, rfl⟩, hoff,
    Nat.add_sub_cancel_left, List.take_length]

/-- In every run from a formatted disk, a file that stays open stays a file
with its own blocks, and what is read from it is what has been written, whether
it has links or not; a successful write writes all its bytes.  The call that
drops the last reference to a file without links frees it and its blocks. -/
theorem files_outlive_names {disk : ℕ → Block} {v : List (P × Call)}
    (hdisk : Formatted disk) (hs : Run callStep (boot disk) v s)
    (hn : s.node i = some n) (hfile : n.type = T_FILE) :
    (∀ w t, Run callStep s w t → Meets callStep (WhileOpen i) s w →
      t.Opened i → Lasting i n (runWrites i s w) s t) ∧
    (∀ p fd addr f r t, s.fileOf p fd = some f →
      (s.ftable f).refersTo (s.ftable f).ip →
      (s.icache (s.ftable f).ip).inum = i →
      (Call.write fd addr).run p s.start = .ok (r, t) → r ≠ -1 →
      (Call.write fd addr).writes p s t i = [((s.ftable f).off, addr)]) ∧
    ∀ a t, callStep s a = .next t → s.Opened i → ¬t.Referenced i →
      n.nlink = 0 → Released i s t := by
  have hrest := hdisk.atRest_run hs
  refine ⟨?_, ?_, ?_⟩
  · intro w t hrun hopen hlast
    exact hrest.lasting hrun hopen hlast hn hfile
  · rintro p fd addr f r t hfd href rfl hrun hr
    exact hrest.write hfd href hn hfile hrun hr
  · intro a t hstep hopen hlast hlink
    exact hrest.released hstep hopen hlast hn hlink

/-! ### A file of the small volume -/

theorem smallVolume_formatted : Formatted smallVolume := by
  have hsb : (smallVolume 1).superblock = smallSb :=
    smallVolume_read.superblock
  constructor
  · rw [hsb]
    exact smallVolume_owned
  · intro i m hm hdir
    have hnode : (boot (P := Unit) smallVolume).node = (smallState 0).node :=
      node_congr hsb rfl
    rw [hnode] at hm
    rw [hsb]
    exact (smallState_tree Nat.one_pos).intact.entries i m hm hdir

instance : Decidable (s.Opened i) :=
  inferInstanceAs (Decidable (∃ f c, (s.ftable f).refersTo c ∧
    (s.icache c).inum = i))

instance : Decidable (s.Referenced i) :=
  inferInstanceAs (Decidable (∃ c, 0 < (s.icache c).ref ∧
    (s.icache c).inum = i))

instance (a : P × Call) : Decidable (WhileOpen i s a) :=
  inferInstanceAs (Decidable (s.Opened i))

/-- Inode 3 is a file, with links or without. -/
def smallFile (s : State Unit) (linked : Bool) : Bool :=
  match s.node 3 with
  | some n => decide (n.type = T_FILE) && (decide (n.nlink ≠ 0) == linked)
  | none => false

/-- The file `/a/b` is opened, unlinked, written and closed. -/
def smallOpens : List (Unit × Call) :=
  [((), .open (some smallPath) O_RDWR)]

def smallUnlinks : List (Unit × Call) :=
  [((), .unlink (some smallPath)), ((), .write 0 [0x78])]

theorem smallFile_node {s : State Unit} {linked : Bool}
    (h : smallFile s linked = true) :
    ∃ n, s.node 3 = some n ∧ n.type = T_FILE ∧
      (linked = false → n.nlink = 0) := by
  unfold smallFile at h
  split at h
  · next n hn =>
      rw [Bool.and_eq_true, decide_eq_true_eq, beq_iff_eq] at h
      refine ⟨n, hn, h.1, fun hlinked => ?_⟩
      rw [hlinked] at h
      simpa using h.2
  · cases h

theorem files_outlive_names_unlinked : ∃ s t u n,
    Run callStep (boot smallVolume) smallOpens s ∧ s.node 3 = some n ∧
      Run callStep s smallUnlinks t ∧
        Lasting 3 n (runWrites 3 s smallUnlinks) s t ∧
          callStep t ((), .close 0) = .next u ∧ Released 3 t u := by
  obtain ⟨s, hs, hcheck⟩ := Run.exists_of_exec callStep (boot smallVolume)
    smallOpens (fun s => smallFile s true &&
      decide (Meets callStep (WhileOpen 3) s smallUnlinks) &&
        (Support.exec callStep s smallUnlinks).any fun t =>
          smallFile t false && decide (t.Opened 3) &&
            (Support.exec callStep t [((), .close 0)]).any
              fun u : State Unit => decide ¬u.Referenced 3) (by decide +kernel)
  simp only [Bool.and_eq_true, decide_eq_true_eq] at hcheck
  obtain ⟨⟨hfile, hopen⟩, hrest⟩ := hcheck
  obtain ⟨t, ht, hcheck⟩ := Run.exists_of_exec callStep s _ _ hrest
  simp only [Bool.and_eq_true, decide_eq_true_eq] at hcheck
  obtain ⟨⟨hfile', hopened⟩, hclose⟩ := hcheck
  obtain ⟨u, hu, hgone⟩ := Run.exists_of_exec callStep t _ _ hclose
  obtain ⟨u', hstep, hnil⟩ := hu.cons_inv
  obtain rfl := hnil.nil_inv
  obtain ⟨n, hn, htype, -⟩ := smallFile_node hfile
  obtain ⟨n', hn', htype', hlink⟩ := smallFile_node hfile'
  have hlasts := files_outlive_names smallVolume_formatted hs hn htype
  have hfrees := files_outlive_names smallVolume_formatted (hs.append ht)
    hn' htype'
  exact ⟨s, t, u, n, hs, hn, ht, hlasts.1 _ t ht hopen hopened, hstep,
    hfrees.2.2 _ u hstep hopened (of_decide_eq_true hgone) (hlink rfl)⟩

end ZtlOs.Kernel
