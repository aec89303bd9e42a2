import Mathlib.Algebra.Order.BigOperators.Group.Finset
import ZtlOs.Kernel.OpenFiles

/-!
# Open files outlive their names

What a whole call does to the files that are open before and after it.  Between
calls an open file refers to a valid copy of its inode, and no directory is
open for writing.
-/

namespace ZtlOs.Kernel

open ZtlOs.Support ZtlOs.Support.Program ZtlOs.Fs

variable {P : Type} {s t u : State P} {k k' k₀ : Ctx P} {ip c : Slot}
variable {f : FileSlot} {i j : ℕ} {n n' : Node}

/-! ## Writes -/

/-- What has been written to a file: offsets and bytes, the oldest first. -/
abbrev Writes := List (ℕ × Bytes)

/-- The bytes of a file after some writes. -/
def laid (l : Bytes) (ws : Writes) : Bytes :=
  ws.foldl (fun l w => splice l w.1 w.2) l

@[simp] theorem laid_nil (l : Bytes) : laid l [] = l :=
  rfl

theorem laid_append (l : Bytes) (ws ws' : Writes) :
    laid l (ws ++ ws') = laid (laid l ws) ws' :=
  List.foldl_append

/-- The file of a descriptor. -/
def State.fileOf (s : State P) (p : P) (fd : ℤ) : Option FileSlot :=
  if h : 0 ≤ fd ∧ fd.toNat < NOFILE then s.ofile p ⟨fd.toNat, fd_lt h⟩ else none

/-- What a write through a file has put into inode `i`, told by the offset of
the file. -/
def File.writes (v : File) (inum : ℕ) (addr : Bytes) (off i : ℕ) : Writes :=
  if 0 < v.ref ∧ v.type = .inode ∧ inum = i then
    [(v.off, addr.take (off - v.off))]
  else []

/-- What a call from `s` to `t` has written to inode `i`. -/
def Call.writes (p : P) (call : Call) (s t : State P) (i : ℕ) : Writes :=
  match call with
  | .write fd addr =>
      match s.fileOf p fd with
      | none => []
      | some f => (s.ftable f).writes (s.icache (s.ftable f).ip).inum addr
          (t.ftable f).off i
  | _ => []

/-! ## Files that are open -/

/-- A struct file refers to inode `i`. -/
def State.Opened (s : State P) (i : ℕ) : Prop :=
  ∃ f c, (s.ftable f).refersTo c ∧ (s.icache c).inum = i

/-- Somebody refers to inode `i`. -/
def State.Referenced (s : State P) (i : ℕ) : Prop :=
  ∃ c, 0 < (s.icache c).ref ∧ (s.icache c).inum = i

/-- Open files refer to valid copies, and no directory is open for writing. -/
structure Files (s : State P) : Prop where
  valid : ∀ f c, (s.ftable f).refersTo c → (s.icache c).valid = true
  readOnly : ∀ f c, (s.ftable f).refersTo c → (s.ftable f).writable = true →
    ∀ n, s.node (s.icache c).inum = some n → n.type ≠ T_DIR

/-- The nodes that `k` refers to keep their types, and the bytes of files are
those before with `ws` laid over them. -/
structure Tracks (ws : ℕ → Writes) (k k' : Ctx P) (s t : State P) : Prop where
  world : World t k'
  frame : Frame k s t
  node : ∀ c ∈ k.refs, ∀ n, s.node (s.icache c).inum = some n →
    ∃ n', t.node (s.icache c).inum = some n' ∧ n'.type = n.type ∧
      (n.type = T_FILE → n'.data = laid n.data (ws (s.icache c).inum))

theorem Mild.tracks (h : Mild k k' s t) : Tracks (fun _ => []) k k' s t where
  world := h.world
  frame := h.frame
  node c hc n hn := by
    obtain ⟨n', hn', halike⟩ := h.alike c hc n hn
    refine ⟨n', hn', halike.type, fun hfile => halike.data ?_⟩
    rw [hfile]
    decide

/-- From `s` to `t`, what is open before and after stays as it is but for the
writes `ws`; a file without links is freed with its last reference. -/
structure Outlives (ws : ℕ → Writes) (s t : State P) : Prop where
  sb : t.sb = s.sb
  kept : ∀ i n, s.Opened i → t.Opened i → s.node i = some n →
    n.type = T_FILE → ∃ n', t.node i = some n' ∧ n'.type = T_FILE ∧
      n'.data = laid n.data (ws i)
  blocks : ∀ i, s.Opened i → t.Opened i → ∀ j, s.lists i j ≠ 0 →
    t.lists i j = s.lists i j
  freed : ∀ i n, s.Opened i → ¬t.Referenced i → s.node i = some n →
    n.nlink = 0 → t.node i = none ∧
      ∀ i' j, t.lists i' j ≠ 0 → t.lists i' j = s.lists i' j

section Tracks

variable {ws : ℕ → Writes}

/-- Everything that was open is still referred to. -/
theorem Tracks.outlives (h : Tracks ws k₀ k' s t) (hs : World s k)
    (hopen : ∀ f c, (k.ftable f).refersTo c → c ∈ k₀.refs)
    (hsub : ∀ c ∈ k₀.refs, c ∈ k'.refs) : Outlives ws s t := by
  have hmem : ∀ f c, (s.ftable f).refersTo c → c ∈ k₀.refs := by
    rw [hs.holds.ftable]
    exact hopen
  refine ⟨h.frame.sb, ?_, ?_, ?_⟩
  · rintro _ n ⟨f, c, hf, rfl⟩ - hn hfile
    obtain ⟨n', hn', htype, hdata⟩ := h.node c (hmem f c hf) n hn
    exact ⟨n', hn', htype.trans hfile, hdata hfile⟩
  · rintro _ ⟨f, c, hf, rfl⟩ - j hj
    exact h.frame.lists c (hmem f c hf) j hj
  · rintro _ n ⟨f, c, hf, rfl⟩ hnot - -
    have hc := hmem f c hf
    refine absurd ⟨c, h.world.ref_pos (hsub c hc), ?_⟩ hnot
    exact h.frame.inum c hc

/-- A reference has been dropped. -/
theorem Calm.outlives (h : Calm k' k' s t) (hs : World s k)
    (hrefs : k.refs = ip ::ₘ k'.refs)
    (hopen : ∀ f c, (s.ftable f).refersTo c → c ∈ k.refs)
    (hopen' : ∀ f c, (t.ftable f).refersTo c → c ∈ k'.refs)
    (hvalid : ∀ f c, (s.ftable f).refersTo c → (s.icache c).valid = true)
    (hdrop : Dropped k' ip s t) : Outlives (fun _ => []) s t := by
  have hslot : ∀ {f c f' c'}, (s.ftable f).refersTo c →
      (t.ftable f').refersTo c' →
      (t.icache c').inum = (s.icache c).inum → c ∈ k'.refs := by
    intro f c f' c' hf hf' heq
    have hc' := hopen' f' c' hf'
    rw [h.frame.inum c' hc'] at heq
    have hbefore : c' ∈ k.refs := by
      rw [hrefs]
      exact Multiset.mem_cons_of_mem hc'
    have := hs.intact.distinct c' c (hs.ref_pos hbefore)
      (hs.ref_pos (hopen f c hf)) heq
    exact this ▸ hc'
  have htracks := h.mild.tracks
  refine ⟨h.frame.sb, ?_, ?_, ?_⟩
  · rintro _ n ⟨f, c, hf, rfl⟩ ⟨f', c', hf', heq⟩ hn hfile
    obtain ⟨n', hn', htype, hdata⟩ := htracks.node c (hslot hf hf' heq) n hn
    exact ⟨n', hn', htype.trans hfile, hdata hfile⟩
  · rintro _ ⟨f, c, hf, rfl⟩ ⟨f', c', hf', heq⟩ j hj
    exact h.frame.lists c (hslot hf hf' heq) j hj
  · rintro _ n ⟨f, c, hf, rfl⟩ hnot hn hlink
    have hout : c ∉ k'.refs := fun hc =>
      hnot ⟨c, h.world.ref_pos hc, h.frame.inum c hc⟩
    have hcip : c = ip := by
      have hmem := hopen f c hf
      rw [hrefs] at hmem
      exact (Multiset.mem_cons.mp hmem).resolve_right hout
    subst hcip
    exact ⟨hdrop hout (hvalid f c hf) n hn hlink, h.fewer⟩

end Tracks

/-! ## Whole calls -/

/-- Every file of `k'` that refers to an inode is one of `k`. -/
def Ctx.NoNewFiles (k k' : Ctx P) : Prop :=
  ∀ f c, (k'.ftable f).refersTo c → (k.ftable f).refersTo c ∧
    ((k'.ftable f).writable = true → (k.ftable f).writable = true)

/-- The files are still valid. -/
theorem Files.tracks {ws : ℕ → Writes} (hf : Files s) (hs : World s k)
    (h : Tracks ws k₀ k' s t) (hold : k.NoNewFiles k')
    (hsub : ∀ c ∈ k₀.refs, c ∈ k.refs)
    (hopen : ∀ f c, (k'.ftable f).refersTo c → c ∈ k₀.refs) : Files t := by
  have hftable := hs.holds.ftable
  have hftable' := h.world.holds.ftable
  constructor
  · intro f c href
    rw [hftable'] at href
    have hbefore := (hold f c href).1
    rw [← hftable] at hbefore
    exact h.frame.valid c (hopen f c href) (hf.valid f c hbefore)
  · intro f c href hwritable n' hn'
    rw [hftable'] at href hwritable
    obtain ⟨hbefore, hw⟩ := hold f c href
    rw [← hftable] at hbefore hw
    have hc := hopen f c href
    obtain ⟨n, hn⟩ := hs.loaded (hsub c hc) (hf.valid f c hbefore)
    obtain ⟨m, hm, htype, -⟩ := h.node c hc n hn.node
    rw [h.frame.inum c hc, hm] at hn'
    obtain rfl := Option.some.inj hn'
    rw [htype]
    exact hf.readOnly f c hbefore (hw hwritable) n hn.node

section

variable [Fintype P]

theorem Ctx.Idle.mem_refs (hk : k.Idle) (h : (k.ftable f).refersTo c) :
    c ∈ k.refs := by
  rw [← Multiset.one_le_count_iff_mem, hk.refs, stored]
  have hle : (if (k.ftable f).refersTo c then 1 else 0) ≤
      ∑ f, if (k.ftable f).refersTo c then 1 else 0 :=
    Finset.single_le_sum (f := fun f =>
      if (k.ftable f).refersTo c then 1 else 0) (fun _ _ => Nat.zero_le _)
      (Finset.mem_univ f)
  rw [if_pos h] at hle
  omega

theorem Ctx.Idle.cwd_mem (hk : k.Idle) (p : P) : k.cwd p ∈ k.refs := by
  rw [← Multiset.one_le_count_iff_mem, hk.refs, stored]
  have hle : (if k.cwd p = k.cwd p then 1 else 0) ≤
      ∑ q, if k.cwd q = k.cwd p then 1 else 0 :=
    Finset.single_le_sum (f := fun q =>
      if k.cwd q = k.cwd p then 1 else 0) (fun _ _ => Nat.zero_le _)
      (Finset.mem_univ p)
  rw [if_pos rfl] at hle
  omega

/-- The call has given back what it does not store, the files are valid, and
what is open stays. -/
def Leaves (ws : ℕ → Writes) (s t : State P) : Prop :=
  (∃ k : Ctx P, k.Idle ∧ World t k) ∧ Files t ∧ Outlives ws s t

theorem Tracks.leaves {ws : ℕ → Writes} (h : Tracks ws k k' s t)
    (hk : k.Idle) (hk' : k'.Idle) (hs : World s k) (hf : Files s)
    (hold : k.NoNewFiles k') (hsub : ∀ c ∈ k.refs, c ∈ k'.refs) :
    Leaves ws s t := by
  refine ⟨⟨k', hk', h.world⟩, ?_, ?_⟩
  · exact hf.tracks hs h hold (fun _ hc => hc) fun f c href =>
      hk.mem_refs (hold f c href).1
  · exact h.outlives hs (fun f c href => hk.mem_refs href) hsub

theorem Mild.leaves (h : Mild k k s t) (hk : k.Idle) (hs : World s k)
    (hf : Files s) : Leaves (fun _ => []) s t :=
  h.tracks.leaves hk hk hs hf (fun _ _ href => ⟨href, id⟩) fun _ hc => hc

theorem Leaves.congr {ws ws' : ℕ → Writes} (h : Leaves ws s t)
    (hws : ∀ i l, laid l (ws' i) = laid l (ws i)) : Leaves ws' s t := by
  obtain ⟨hk, hf, hsb, hkept, hblocks, hfreed⟩ := h
  refine ⟨hk, hf, hsb, fun i n ho ho' hn hfile => ?_, hblocks, hfreed⟩
  rw [hws]
  exact hkept i n ho ho' hn hfile

/-- The call starts with other descriptors. -/
theorem Leaves.of_same {ws : ℕ → Writes} (h : Leaves ws t u)
    (hftable : t.ftable = s.ftable) (hcache : t.icache = s.icache)
    (hsb : t.sb = s.sb) (hdisk : t.disk = s.disk) : Leaves ws s u := by
  have hopen : ∀ i, s.Opened i → t.Opened i := by
    intro i hi
    rwa [State.Opened, hftable, hcache]
  have hnode : t.node = s.node := node_congr hsb hdisk
  have hlists : t.lists = s.lists := lists_congr hsb hdisk
  obtain ⟨hk, hf, hsbu, hkept, hblocks, hfreed⟩ := h
  rw [hnode] at hkept hfreed
  rw [hlists] at hblocks hfreed
  exact ⟨hk, hf, hsbu.trans hsb, fun i n ho => hkept i n (hopen i ho),
    fun i ho => hblocks i (hopen i ho), fun i n ho => hfreed i n (hopen i ho)⟩

/-! ### Reading and writing -/

omit [Fintype P] in
theorem Ctx.noNewFiles_setFile {v : File}
    (h : ∀ c, v.refersTo c → (k.ftable f).refersTo c ∧
      (v.writable = true → (k.ftable f).writable = true)) :
    k.NoNewFiles (k.setFile f v) := by
  intro f' c href
  by_cases hff : f' = f
  · subst hff
    rw [Ctx.setFile_ftable_self] at href ⊢
    exact h c href
  · rw [Ctx.setFile_ftable_of_ne k hff] at href ⊢
    exact ⟨href, id⟩

theorem Ctx.Idle.seek (hk : k.Idle) (f : FileSlot) (off : ℕ) :
    (k.seek f off).Idle :=
  hk.setFile fun _ => Iff.rfl

/-- Only an offset has moved. -/
theorem Tracks.leaves_seek {ws : ℕ → Writes} {off : ℕ}
    (h : Tracks ws k (k.seek f off) s t) (hk : k.Idle) (hs : World s k)
    (hf : Files s) : Leaves ws s t :=
  h.leaves hk (hk.seek f off) hs hf
    (Ctx.noNewFiles_setFile fun _ href => ⟨href, id⟩) fun _ hc => hc

theorem World.mem_of_inode (hs : World s k) (hk : k.Idle)
    (htype : (k.ftable f).type = .inode) : (k.ftable f).ip ∈ k.refs := by
  apply hk.mem_refs (f := f)
  refine ⟨Nat.pos_of_ne_zero fun hzero => ?_, htype, rfl⟩
  have := hs.holds.free f hzero
  rw [this] at htype
  cases htype

theorem fileread_leaves (l : ℕ) (hk : k.Idle) (hs : World s k)
    (hf : Files s) :
    Sat (fileread f l) s (fun r t => Returned k f l s r ∧
      Leaves (fun _ => []) s t) fun _ => True := by
  refine (fileread_still l hs fun htype => hs.mem_of_inode hk htype).imp ?_
  rintro r t ⟨hr, off, ht⟩
  exact ⟨hr, ht.mild.tracks.leaves_seek hk hs hf⟩

omit [Fintype P] in
/-- Nothing has been written if the offset has not moved. -/
theorem File.laid_writes_self (v : File) (inum : ℕ) (addr l : Bytes) (i : ℕ) :
    laid l (v.writes inum addr v.off i) = l := by
  rw [File.writes]
  split
  · rw [Nat.sub_self, List.take_zero]
    exact splice_nil l _
  · rfl

omit [Fintype P] in
/-- A write through a file that is not a device. -/
theorem WroteFile.tracks {addr : Bytes} {whole : Bool} (hs : World s k)
    (h : WroteFile k f i n addr whole s t)
    (hopen : (k.ftable f).refersTo (k.ftable f).ip)
    (hn : s.node i = some n) :
    ∃ off, (t.ftable f).off = off ∧
      (whole = true → off = (k.ftable f).off + addr.length) ∧
      Tracks ((s.ftable f).writes i addr off) k (k.seek f off) s t := by
  obtain ⟨l, hl, hwhole, hc⟩ := h
  have hoff : (t.ftable f).off = (k.ftable f).off + l := by
    rw [hc.world.holds.ftable, Ctx.seek_ftable]
  refine ⟨_, hoff, fun hw => by rw [hwhole hw], ⟨hc.world, hc.frame, ?_⟩⟩
  intro c hcmem m hm
  rw [hc.node, File.writes, hs.holds.ftable]
  by_cases hci : (s.icache c).inum = i
  · rw [hci] at hm ⊢
    obtain rfl := Option.some.inj (hn.symm.trans hm)
    refine ⟨_, Function.update_self .., rfl, fun _ => ?_⟩
    rw [if_pos ⟨hopen.1, hopen.2.1, rfl⟩, Nat.add_sub_cancel_left]
    rfl
  · refine ⟨m, (Function.update_of_ne hci ..).trans hm, rfl, fun _ => ?_⟩
    rw [if_neg fun hc => hci hc.2.2.symm]
    rfl

/-- A write through file `f` leaves what is open as it is but for its bytes,
and the offset moves by their number when all have been written. -/
def Written (f : FileSlot) (addr : Bytes) (whole : Prop) (s t : State P) :
    Prop :=
  Leaves ((s.ftable f).writes (s.icache (s.ftable f).ip).inum addr
      (t.ftable f).off) s t ∧
    (whole → ∀ n, (s.ftable f).refersTo (s.ftable f).ip →
      s.node (s.icache (s.ftable f).ip).inum = some n → n.type = T_FILE →
        (t.ftable f).off = (s.ftable f).off + addr.length)

/-- Nothing has been written. -/
theorem Still.written {addr : Bytes} {whole : Prop} (h : Still k k s t)
    (hk : k.Idle) (hs : World s k) (hf : Files s)
    (hno : ¬whole ∨ (s.ftable f).type ≠ .inode) :
    Written f addr whole s t := by
  have hftable : t.ftable = s.ftable :=
    h.world.holds.ftable.trans hs.holds.ftable.symm
  refine ⟨(h.mild.leaves hk hs hf).congr fun i l => ?_, ?_⟩
  · rw [hftable, File.laid_writes_self]
    rfl
  · intro hw n href
    rcases hno with hnot | htype
    · exact absurd hw hnot
    · exact absurd href.2.1 htype

theorem filewriteLoop_written (addr : Bytes) (hk : k.Idle) (hs : World s k)
    (hf : Files s) (htype : (k.ftable f).type = .inode)
    (hwritable : (k.ftable f).writable = true) :
    Sat (filewriteLoop f addr.length addr) s
      (fun r t => Written f addr (r = true) s t) fun _ => True := by
  have hftable := hs.holds.ftable
  have hmem := hs.mem_of_inode hk htype
  have href : (k.ftable f).refersTo (k.ftable f).ip := by
    refine ⟨Nat.pos_of_ne_zero fun hzero => ?_, htype, rfl⟩
    have := hs.holds.free f hzero
    rw [this] at htype
    cases htype
  have hvalid := hf.valid f (k.ftable f).ip (hftable ▸ href)
  obtain ⟨n, hn⟩ := hs.loaded hmem hvalid
  have hdir := hf.readOnly f _ (hftable ▸ href) (hftable ▸ hwritable) n hn.node
  by_cases hdev : n.type = T_DEV
  · refine (filewriteLoop_still hk.mon hdev _ addr hn).imp ?_
    rintro r t ⟨off, ht⟩
    have hmild := ht.mild
    have hne : ∀ m, s.node (s.icache (k.ftable f).ip).inum = some m →
        m.type ≠ T_FILE := by
      intro m hm
      obtain rfl := Option.some.inj (hn.node.symm.trans hm)
      rw [hdev]
      decide
    have htracks : Tracks ((s.ftable f).writes
        (s.icache (s.ftable f).ip).inum addr (t.ftable f).off) k
        (k.seek f off) s t := by
      refine ⟨hmild.world, hmild.frame, fun c hc m hm => ?_⟩
      obtain ⟨m', hm', halike⟩ := hmild.alike c hc m hm
      refine ⟨m', hm', halike.type, fun hfile => ?_⟩
      have hci : (s.icache (s.ftable f).ip).inum ≠ (s.icache c).inum := by
        intro heq
        rw [← heq, hftable] at hm
        exact hne m hm hfile
      rw [File.writes, if_neg fun h => hci h.2.2]
      refine halike.data ?_
      rw [hfile]
      decide
    refine ⟨htracks.leaves_seek hk hs hf, fun _ m _ hm hfile => ?_⟩
    rw [hftable] at hm
    exact absurd hfile (hne m hm)
  · refine (filewriteLoop_wrote hk.mon hdir hdev _ addr hn le_rfl).imp ?_
    intro r t ht
    obtain ⟨off, rfl, hwhole, htracks⟩ := ht.tracks hs href hn.node
    rw [hftable] at htracks
    rw [Written, hftable]
    exact ⟨htracks.leaves_seek hk hs hf, fun hr _ _ _ _ => hwhole hr⟩

theorem filewrite_written (addr : Bytes) (hk : k.Idle) (hs : World s k)
    (hf : Files s) :
    Sat (filewrite f addr) s (fun r t => (∀ l, r = some l → l = addr.length) ∧
      Written f addr (r.isSome = true) s t) fun _ => True := by
  have hftable := hs.holds.ftable
  refine .bind (Sat.get ?_)
  rw [hftable]
  apply Sat.ite
  · intro _
    refine Sat.pure ⟨fun l hl => (nomatch hl), ?_⟩
    exact (Still.refl hs).written hk hs hf (.inl Bool.false_ne_true)
  intro hwritable
  rw [Bool.not_eq_false] at hwritable
  split
  · next htype =>
      refine (receive_still hs).andThen fun r t ht => Sat.pure ⟨?_, ?_⟩
      · intro l hl
        cases r with
        | none => cases hl
        | some r => exact (Option.some.inj hl).symm
      · refine ht.written hk hs hf (.inr ?_)
        rw [hftable, htype]
        exact fun h => by cases h
  · next htype =>
      refine (filewriteLoop_written addr hk hs hf htype
        hwritable).andThen fun ok t ht => ?_
      apply Sat.ite
      · intro hok
        refine Sat.pure ⟨fun l hl => (Option.some.inj hl).symm, ht.1, ?_⟩
        exact fun _ => ht.2 hok
      · intro _
        refine Sat.pure ⟨fun l hl => (nomatch hl), ht.1, ?_⟩
        exact fun h => absurd h Bool.false_ne_true
  · exact Sat.throw trivial

/-! ### The file table -/

/-- The files and descriptors have changed, but not what they refer to. -/
structure Shuffles (k k' : Ctx P) (s t : State P) : Prop where
  still : Still k k' s t
  idle : k'.Idle
  files : k.NoNewFiles k'
  refs : k'.refs = k.refs

namespace Shuffles

variable {k₂ : Ctx P}

theorem refl (hk : k.Idle) (hs : World s k) : Shuffles k k s s :=
  ⟨.refl hs, hk, fun _ _ href => ⟨href, id⟩, rfl⟩

theorem trans (h : Shuffles k k₂ s t) (h' : Shuffles k₂ k' t u) :
    Shuffles k k' s u where
  still := h.still.trans (h'.still.mono fun c hc => by rwa [h.refs])
  idle := h'.idle
  files f c href := by
    obtain ⟨h₁, h₂⟩ := h'.files f c href
    obtain ⟨h₃, h₄⟩ := h.files f c h₁
    exact ⟨h₃, fun hw => h₄ (h₂ hw)⟩
  refs := h'.refs.trans h.refs

theorem leaves (h : Shuffles k k' s t) (hk : k.Idle) (hs : World s k)
    (hf : Files s) : Leaves (fun _ => []) s t :=
  h.still.mild.tracks.leaves hk h.idle hs hf h.files fun c hc => by
    rwa [h.refs]

end Shuffles

/-- A file that refers to no inode has changed. -/
theorem Still.shuffles_setFile {v : File} (h : Still k (k.setFile f v) s t)
    (hk : k.Idle) (hold : (k.ftable f).type ≠ .inode)
    (hnew : v.type ≠ .inode) : Shuffles k (k.setFile f v) s t where
  still := h
  idle := hk.setFile_of_type hold hnew
  files := Ctx.noNewFiles_setFile fun _ href => absurd href.2.1 hnew
  refs := rfl

omit [Fintype P] in
theorem filealloc_keeps : Keeps State.volume (filealloc (P := P)) := by
  apply Keeps.bind_get
  intro s
  split
  · exact Sat.pure rfl
  · exact .bind (Sat.set (Sat.pure rfl))

omit [Fintype P] in
theorem filealloc_still (hs : World s k) :
    Sat (filealloc (P := P)) s (fun r t => match r with
      | none => Still k k s t
      | some f => (k.ftable f).ref = 0 ∧ (k.ftable f).type = .none ∧
          Still k (k.setFile f { k.ftable f with ref := 1 }) s t)
      fun _ => True := by
  refine (hs.keeps filealloc_keeps (filealloc_sat hs.holds)).imp ?_
  rintro (_ | f) t ⟨ht, hstill⟩
  · exact hstill _ ht
  · exact ⟨ht.1, ht.2.1, hstill _ ht.2.2⟩

omit [Fintype P] in
/-- Closing a file that refers to no inode. -/
theorem fileclose_volume (h : (s.ftable f).type ≠ .inode) :
    Sat (fileclose f) s (fun _ t => t.volume = s.volume) fun _ => True := by
  refine .bind (Sat.get ?_)
  apply Sat.ite
  · intro _
    exact Sat.throw trivial
  intro _
  apply Sat.ite
  · intro _
    exact Sat.set rfl
  · intro _
    refine .bind (Sat.set ?_)
    rw [if_neg h]
    exact Sat.pure rfl

/-- A file table with one reference less to a file. -/
def Ctx.unref (k : Ctx P) (f : FileSlot) : Ctx P :=
  if 0 < (k.ftable f).ref - 1 then
    k.setFile f { k.ftable f with ref := (k.ftable f).ref - 1 }
  else k.setFile f { k.ftable f with ref := 0, type := .none }

omit [Fintype P] in
theorem fileclose_moves (h : (k.ftable f).type ≠ .inode) :
    Moves Holds k (fileclose f) fun _ => k.unref f := by
  apply Moves.bind_get
  intro s hs
  rw [hs.ftable]
  apply Sat.ite
  · intro _
    exact Sat.throw trivial
  intro _
  rw [Ctx.unref]
  apply Sat.ite
  · intro hlt
    rw [if_pos hlt]
    refine Sat.set (hs.setFile fun hzero => ?_)
    exact absurd (show (k.ftable f).ref - 1 = 0 from hzero) (by omega)
  · intro hlast
    rw [if_neg hlast]
    refine .bind (Sat.set ?_)
    rw [if_neg h]
    exact Sat.pure (hs.setFile fun _ => rfl)

theorem fileclose_shuffles (hk : k.Idle) (hs : World s k)
    (h : (k.ftable f).type ≠ .inode) :
    Sat (fileclose f) s (fun _ t => Shuffles k (k.unref f) s t)
      fun _ => True := by
  have hvolume := fileclose_volume (s := s) (f := f)
    (by rw [hs.holds.ftable]; exact h)
  refine ((fileclose_moves h).also hs.holds hvolume).imp ?_
  rintro _ t ⟨hholds, heq⟩
  have hstill := hs.same hholds heq
  unfold Ctx.unref at hstill ⊢
  split
  · next hlt =>
      rw [if_pos hlt] at hstill
      exact hstill.shuffles_setFile hk h h
  · next hlast =>
      rw [if_neg hlast] at hstill
      exact hstill.shuffles_setFile hk h fun h => by cases h

/-- The last reference of a file to an inode goes. -/
theorem fileclose_leaves (hk : k.Idle) (hs : World s k) (hf : Files s) :
    Sat (fileclose f) s (fun _ t => Leaves (fun _ => []) s t)
      fun _ => True := by
  by_cases htype : (k.ftable f).type = .inode
  case neg =>
    exact (fileclose_shuffles hk hs htype).imp fun _ _ ht =>
      ht.leaves hk hs hf
  have hftable := hs.holds.ftable
  refine .bind (Sat.get ?_)
  rw [hftable]
  apply Sat.ite
  · intro _
    exact Sat.throw trivial
  intro hpos
  apply Sat.ite
  · intro hlt
    have hset := hs.holds.setFile (f := f)
      (v := { k.ftable f with ref := (k.ftable f).ref - 1 })
      fun hzero => absurd (show (k.ftable f).ref - 1 = 0 from hzero) (by omega)
    refine Sat.set ((hs.same hset rfl).mild.tracks.leaves hk ?_ hs hf ?_ ?_)
    · refine hk.setFile fun ip => and_congr_left' ?_
      exact ⟨fun _ => by omega, fun _ => hlt⟩
    · refine Ctx.noNewFiles_setFile fun c href => ⟨⟨?_, href.2⟩, id⟩
      omega
    · exact fun c hc => hc
  · intro _
    refine .bind (Sat.set ?_)
    rw [if_pos htype]
    have hopen : (k.ftable f).refersTo (k.ftable f).ip :=
      ⟨by omega, htype, rfl⟩
    obtain ⟨hidle, heq⟩ := hk.hold_closed hopen
    have hset := hs.holds.setFile (f := f)
      (v := { k.ftable f with ref := 0, type := .none }) fun _ => rfl
    rw [heq] at hset
    have h₀ := hs.same hset rfl
    refine (beginOp_still h₀.world hidle.mon).andThen fun _ s₁ h₁ => ?_
    refine (iput_dropped (k := (k.closed f).inOp) h₁.world rfl).andThen ?_
    rintro _ s₂ ⟨h₂, hdrop⟩
    refine (endOp_still h₂.world hidle.mon).imp fun _ t ht => ?_
    have hrefs : k.refs = (k.ftable f).ip ::ₘ (k.closed f).refs :=
      congrArg Ctx.refs heq
    have hsub : ∀ c ∈ (k.closed f).refs, c ∈ k.refs := by
      rw [hrefs]
      exact fun c hc => Multiset.mem_cons_of_mem hc
    have hmem : (k.ftable f).ip ∈ k.refs := hk.mem_refs hopen
    have hfirst : Still k ((k.closed f).inOp.hold (k.ftable f).ip) s s₁ :=
      h₀.trans (h₁.mono fun c hc => by
        rw [hrefs] at hc
        exact hc)
    have hcalm : Calm (k.closed f) (k.closed f) s t :=
      Calm.trans (hfirst.mono hsub).calm (Calm.trans
        (h₂.mono fun _ hc => hc) (ht.calm.mono fun _ hc => hc))
    have hall : Dropped (k.closed f) (k.ftable f).ip s t := by
      intro hlast hvalid n hn hlink
      have hinum := hfirst.frame.inum _ hmem
      rw [ht.node, ← hinum]
      refine hdrop hlast (hfirst.frame.valid _ hmem hvalid) n ?_ hlink
      rw [hfirst.node, hinum]
      exact hn
    have hnew : k.NoNewFiles (k.closed f) :=
      Ctx.noNewFiles_setFile fun c href => absurd href.1 (lt_irrefl 0)
    refine ⟨⟨_, hidle, ht.world⟩, ?_, ?_⟩
    · exact hf.tracks hs hcalm.mild.tracks hnew hsub fun f c href =>
        hidle.mem_refs href
    · refine hcalm.outlives hs hrefs ?_ ?_ hf.valid hall
      · rw [hftable]
        exact fun f c href => hk.mem_refs href
      · rw [ht.world.holds.ftable]
        exact fun f c href => hidle.mem_refs href

/-! ### Descriptors -/

omit [Fintype P] in
theorem argfd_sat {E : Stop → Prop} (p : P) (fd : ℤ) :
    Sat (argfd p fd) s (fun r t => t = s ∧
      r.map Prod.snd = s.fileOf p fd) E := by
  refine .bind (Sat.get ?_)
  rw [State.fileOf]
  split
  · split
    · next hnone => exact Sat.pure ⟨rfl, hnone.symm⟩
    · next hsome => exact Sat.pure ⟨rfl, hsome.symm⟩
  · exact Sat.pure ⟨rfl, rfl⟩

omit [Fintype P] in
/-- The rule for `argfd` at the beginning of a call. -/
theorem argfd_bind {α : Type} {p : P} {fd : ℤ}
    {x : Option (Fin NOFILE × FileSlot) → M P α} {Q : α → State P → Prop}
    (h : ∀ r, r.map Prod.snd = s.fileOf p fd → Sat (x r) s Q fun _ => True) :
    Sat (argfd p fd >>= x) s Q fun _ => True := by
  refine (argfd_sat p fd).andThen ?_
  rintro r _ ⟨rfl, hr⟩
  exact h r hr

theorem sysRead_leaves (p : P) (fd : ℤ) (l : ℕ) (hk : k.Idle)
    (hs : World s k) (hf : Files s) :
    Sat (sysRead p fd l) s (fun _ t => Leaves (fun _ => []) s t)
      fun _ => True := by
  refine argfd_bind fun r _ => ?_
  rcases r with _ | ⟨fd', f⟩
  · exact Sat.pure ((Mild.refl hs).leaves hk hs hf)
  · refine (fileread_leaves l hk hs hf).andThen fun r t ht => ?_
    split <;> exact Sat.pure ht.2

theorem sysFstat_leaves (p : P) (fd : ℤ) (hk : k.Idle) (hs : World s k)
    (hf : Files s) :
    Sat (sysFstat p fd) s (fun _ t => Leaves (fun _ => []) s t)
      fun _ => True := by
  refine argfd_bind fun r _ => ?_
  rcases r with _ | ⟨fd', f⟩
  · exact Sat.pure ((Mild.refl hs).leaves hk hs hf)
  · refine (filestat_still hs fun htype =>
      hs.mem_of_inode hk htype).andThen fun r t ht => ?_
    have := ht.mild.leaves hk hs hf
    split <;> exact Sat.pure this

theorem sysWrite_leaves (p : P) (fd : ℤ) (addr : Bytes) (hk : k.Idle)
    (hs : World s k) (hf : Files s) :
    Sat (sysWrite p fd addr) s (fun r t =>
      Leaves ((Call.write fd addr).writes p s t) s t ∧
        (r ≠ -1 → ∀ f, s.fileOf p fd = some f →
          Written f addr True s t)) fun _ => True := by
  refine argfd_bind fun r hr => ?_
  rcases r with _ | ⟨fd', f⟩
  · refine Sat.pure ⟨?_, fun h => absurd rfl h⟩
    refine ((Mild.refl hs).leaves hk hs hf).congr fun i l => ?_
    rw [Call.writes, ← hr]
    rfl
  · refine (filewrite_written addr hk hs hf).andThen fun r t ht => ?_
    obtain ⟨-, hwritten⟩ := ht
    have hleaves : Leaves ((Call.write fd addr).writes p s t) s t := by
      refine hwritten.1.congr fun i l => ?_
      rw [Call.writes, ← hr]
      rfl
    split
    · exact Sat.pure ⟨hleaves, fun h => absurd rfl h⟩
    · refine Sat.pure ⟨hleaves, fun _ f' hf' => ?_⟩
      obtain rfl := Option.some.inj (hr.trans hf')
      exact ⟨hwritten.1, fun _ => hwritten.2 rfl⟩

variable [DecidableEq P]

omit [Fintype P] in
theorem fdalloc_still (p : P) (f : FileSlot) (hs : World s k) :
    Sat (fdalloc p f) s (fun r t => Still k (k.installed p f r) s t)
      fun _ => True := by
  refine hs.moves ?_ (fdalloc_moves p f)
  apply Keeps.bind_get
  intro s
  split
  · exact Sat.pure rfl
  · exact .bind (Sat.set (Sat.pure rfl))

theorem fdalloc_shuffles (p : P) (f : FileSlot) (hk : k.Idle)
    (hs : World s k) :
    Sat (fdalloc p f) s (fun r t => Shuffles k (k.installed p f r) s t)
      fun _ => True := by
  refine (fdalloc_still p f hs).imp fun r t ht => ?_
  refine ⟨ht, hk.installed p f r, ?_, ?_⟩
  · cases r <;> exact fun _ _ href => ⟨href, id⟩
  · cases r <;> rfl

theorem sysDup_leaves (p : P) (fd : ℤ) (hk : k.Idle) (hs : World s k)
    (hf : Files s) :
    Sat (sysDup p fd) s (fun _ t => Leaves (fun _ => []) s t)
      fun _ => True := by
  refine argfd_bind fun r _ => ?_
  rcases r with _ | ⟨fd', f⟩
  · exact Sat.pure ((Mild.refl hs).leaves hk hs hf)
  refine (fdalloc_shuffles p f hk hs).andThen fun r t ht => ?_
  rcases r with _ | fd₂
  · exact Sat.pure (ht.leaves hk hs hf)
  refine .bind (.bind (Sat.get ?_))
  rw [ht.still.world.holds.ftable]
  apply Sat.ite
  · intro _
    exact Sat.throw trivial
  intro hpos
  have hset := ht.still.world.holds.setFile (f := f)
    (v := { k.ftable f with ref := (k.ftable f).ref + 1 })
    fun hzero => absurd hzero (Nat.succ_ne_zero _)
  have hdup := ht.still.world.same hset rfl
  refine Sat.set (Sat.pure ?_)
  have hlast : Shuffles (k.installed p f (some fd₂)) _ t _ :=
    ⟨hdup, ht.idle.setFile fun ip => and_congr_left'
      ⟨fun _ => by omega, fun _ => Nat.succ_pos _⟩,
      Ctx.noNewFiles_setFile fun c href => ⟨⟨by omega, href.2⟩, id⟩, rfl⟩
  exact (ht.trans hlast).leaves hk hs hf

theorem sysClose_leaves (p : P) (fd : ℤ) (hk : k.Idle) (hs : World s k)
    (hf : Files s) :
    Sat (sysClose p fd) s (fun _ t => Leaves (fun _ => []) s t)
      fun _ => True := by
  refine argfd_bind fun r _ => ?_
  rcases r with _ | ⟨fd', f⟩
  · exact Sat.pure ((Mild.refl hs).leaves hk hs hf)
  have hset := hs.same (hs.holds.setOfile p fd' none) rfl
  refine .bind (Sat.modify ?_)
  refine (fileclose_leaves (hk.setOfile p fd' none) hset.world
    ⟨hf.valid, hf.readOnly⟩).andThen fun _ t ht => ?_
  exact Sat.pure (ht.of_same rfl rfl rfl rfl)

end

end ZtlOs.Kernel
