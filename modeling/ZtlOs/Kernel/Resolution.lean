import ZtlOs.Kernel.Paths

/-!
# Path resolution

A path is resolved by looking up its elements one after another.  `namex` does
this with references and locks taken and given back hand over hand: it ends
with no lock, and with one more reference to the inode that it returns.
-/

namespace ZtlOs.Kernel

open ZtlOs.Support ZtlOs.Support.Program ZtlOs.Support.Bindings ZtlOs.Fs

/-! ## Walks through a tree of nodes -/

section Walk

variable {f : ℕ → Option Node} {i k : ℕ} {name name' : Bytes}
variable {names : List Bytes}

/-- Inode `i` is a directory. -/
def isDir (f : ℕ → Option Node) (i : ℕ) : Bool :=
  match f i with
  | none => false
  | some n => n.type == T_DIR

/-- The inode that the directory `i` binds to a name. -/
def lookupAt (f : ℕ → Option Node) (i : ℕ) (name : Bytes) : Option ℕ :=
  match f i with
  | none => none
  | some n => if n.type = T_DIR then lookup (bindings n.data) name else none

/-- The inode to which the names lead from inode `i`, one after another. -/
def walk (f : ℕ → Option Node) : ℕ → List Bytes → Option ℕ
  | i, [] => some i
  | i, name :: names => (lookupAt f i name).bind fun k => walk f k names

/-- The directory to which all but the last of the names lead from inode `i`,
and the last name. -/
def walkParent (f : ℕ → Option Node) (i : ℕ) (names : List Bytes) :
    Option (ℕ × Bytes) :=
  names.getLast?.bind fun name =>
    (walk f i names.dropLast).bind fun k =>
      if isDir f k then some (k, name) else none

theorem lookupAt_eq {n : Node} (hn : f i = some n) (hdir : n.type = T_DIR) :
    lookupAt f i name = lookup (bindings n.data) name := by
  rw [lookupAt, hn]
  exact if_pos hdir

theorem isDir_eq {n : Node} (hn : f i = some n) :
    isDir f i = (n.type == T_DIR) := by
  rw [isDir, hn]

theorem lookupAt_of_not_dir (h : isDir f i = false) :
    lookupAt f i name = none := by
  unfold lookupAt
  unfold isDir at h
  split
  · rfl
  · next n hn =>
      rw [hn] at h
      rw [if_neg (beq_eq_false_iff_ne.mp h)]

theorem walk_of_lookupAt_none (h : lookupAt f i name = none) :
    walk f i (name :: names) = none := by
  rw [walk, h]
  rfl

theorem walk_of_lookupAt (h : lookupAt f i name = some k) :
    walk f i (name :: names) = walk f k names := by
  rw [walk, h]
  rfl

@[simp] theorem walkParent_nil : walkParent f i [] = none :=
  rfl

theorem walkParent_singleton :
    walkParent f i [name] = if isDir f i then some (i, name) else none :=
  rfl

theorem walkParent_cons_cons :
    walkParent f i (name :: name' :: names) =
      (lookupAt f i name).bind fun k => walkParent f k (name' :: names) := by
  rw [walkParent, List.getLast?_cons_cons, List.dropLast_cons_cons, walk]
  cases lookupAt f i name with
  | none =>
      cases (name' :: names).getLast? with
      | none => rfl
      | some _ => rfl
  | some k => rfl

/-- Nothing is found through a name that is missing. -/
theorem walkParent_of_lookupAt_none (h : lookupAt f i name = none)
    (hne : names ≠ []) : walkParent f i (name :: names) = none := by
  obtain ⟨name', names, rfl⟩ := List.exists_cons_of_ne_nil hne
  rw [walkParent_cons_cons, h]
  rfl

theorem walkParent_of_lookupAt (h : lookupAt f i name = some k)
    (hne : names ≠ []) :
    walkParent f i (name :: names) = walkParent f k names := by
  obtain ⟨name', names, rfl⟩ := List.exists_cons_of_ne_nil hne
  rw [walkParent_cons_cons, h]
  rfl

/-- What `namex` looks for: with `nameiparent` the parent and the last name,
otherwise the inode. -/
def namexTarget (f : ℕ → Option Node) (nameiparent : Bool) (i : ℕ)
    (names : List Bytes) : Option (ℕ × Option Bytes) :=
  if nameiparent then
    (walkParent f i names).map fun r => (r.1, some r.2)
  else (walk f i names).map fun k => (k, none)

theorem walkParent_of_not_dir (h : isDir f i = false) :
    walkParent f i (name :: names) = none := by
  cases names with
  | nil => rw [walkParent_singleton, if_neg (by rw [h]; decide)]
  | cons name' names =>
      exact walkParent_of_lookupAt_none (lookupAt_of_not_dir h)
        (List.cons_ne_nil _ _)

variable {nameiparent : Bool}

theorem namexTarget_of_not_dir (h : isDir f i = false) :
    namexTarget f nameiparent i (name :: names) = none := by
  cases nameiparent with
  | true =>
      change (walkParent f i (name :: names)).map _ = none
      rw [walkParent_of_not_dir h]
      rfl
  | false =>
      change (walk f i (name :: names)).map _ = none
      rw [walk_of_lookupAt_none (lookupAt_of_not_dir h)]
      rfl

/-- The parent is not looked up further. -/
theorem namexTarget_parent (h : isDir f i = true) :
    namexTarget f true i [name] = some (i, some name) := by
  change (walkParent f i [name]).map _ = _
  rw [walkParent_singleton, if_pos h]
  rfl

theorem namexTarget_of_none (h : lookupAt f i name = none)
    (hne : nameiparent = true → names ≠ []) :
    namexTarget f nameiparent i (name :: names) = none := by
  cases nameiparent with
  | true =>
      change (walkParent f i (name :: names)).map _ = none
      rw [walkParent_of_lookupAt_none h (hne rfl)]
      rfl
  | false =>
      change (walk f i (name :: names)).map _ = none
      rw [walk_of_lookupAt_none h]
      rfl

theorem namexTarget_of_some (h : lookupAt f i name = some k)
    (hne : nameiparent = true → names ≠ []) :
    namexTarget f nameiparent i (name :: names) =
      namexTarget f nameiparent k names := by
  cases nameiparent with
  | true =>
      change (walkParent f i (name :: names)).map _ = _
      rw [walkParent_of_lookupAt h (hne rfl)]
      rfl
  | false =>
      change (walk f i (name :: names)).map _ = _
      rw [walk_of_lookupAt h]
      rfl

end Walk

variable {P : Type} {s t u : State P} {ip c : Slot} {i k : ℕ}
variable {r : ℕ → ℕ} {L : Option Slot} {E : Stop → Prop}

/-! ## Trees at rest -/

/-- Inode `i` is allocated, and a reference that is put does not free it: it
has links, or is referred to already. -/
def State.Lasts (s : State P) (i : ℕ) : Prop :=
  ∃ n, s.node i = some n ∧ (n.nlink ≠ 0 ∨ 0 < s.refs i)

/-- A well-formed directory tree, while no call is in progress, and the current
directory of process `p`. -/
structure Tree (s : State P) (p : P) : Prop where
  intact : Intact s
  bufs : s.bufs = []
  unlocked : ∀ c, (s.icache c).locked = false
  whole : ∀ i n, s.node i = some n → n.type = T_DIR →
    Dirent.size ∣ n.data.length
  distinct : ∀ i n, s.node i = some n → n.type = T_DIR →
    Distinct (bindings n.data)
  named : ∀ i name k, lookupAt s.node i name = some k → s.Lasts k
  root : s.Lasts ROOTINO
  cwd : 0 < (s.icache (s.cwd p)).ref
  cwdNode : s.node (s.icache (s.cwd p)).inum ≠ none

/-- The inode with which the resolution of a path starts. -/
def State.startInum (s : State P) (p : P) (path : Bytes) : ℕ :=
  if path.headD 0 = slash then ROOTINO else (s.icache (s.cwd p)).inum

/-- The references to an inode are those that its slot counts. -/
theorem Intact.refs_eq (h : Intact s) (href : 0 < (s.icache c).ref) :
    s.refs (s.icache c).inum = (s.icache c).ref := by
  rw [State.refs, Finset.sum_eq_single c]
  · exact if_pos rfl
  · intro c' _ hne
    split
    · next heq =>
        by_contra hpos
        exact hne (h.distinct c' c (Nat.pos_of_ne_zero hpos) href heq)
    · rfl
  · exact fun hc => absurd (Finset.mem_univ c) hc

/-- Every inode with references has a slot. -/
theorem exists_slot (h : 0 < s.refs i) :
    ∃ c, 0 < (s.icache c).ref ∧ (s.icache c).inum = i := by
  obtain ⟨c, -, hc⟩ := Finset.exists_ne_zero_of_sum_ne_zero (by
    rw [State.refs] at h
    exact Nat.pos_iff_ne_zero.mp h)
  split at hc
  · next hinum => exact ⟨c, Nat.pos_of_ne_zero hc, hinum⟩
  · exact absurd rfl hc

/-! ## On the way -/

/-- In `t`, the volume and the cache are those of `s`, but for the numbers of
references `r`, and one inode may be locked. -/
structure Walking (s : State P) (r : ℕ → ℕ) (L : Option Slot) (t : State P) :
    Prop where
  intact : Intact t
  sb : t.sb = s.sb
  disk : t.disk = s.disk
  bufs : t.bufs = []
  refs : t.refs = r
  locks : ∀ c, (t.icache c).locked = decide (L = some c)

namespace Walking

theorem node_eq (h : Walking s r L t) : t.node = s.node :=
  node_congr h.sb h.disk

/-- Only the trace has changed. -/
theorem traced (h : Walking s r L t) (hu : u = { t with trace := u.trace }) :
    Walking s r L u := by
  have hcache : u.icache = t.icache := by rw [hu]
  have hsb : u.sb = t.sb := by rw [hu]
  have hdisk : u.disk = t.disk := by rw [hu]
  refine ⟨h.intact.congr hsb hdisk ?_ ?_ ?_, hsb.trans h.sb,
    hdisk.trans h.disk, ?_, (refs_congr hcache).trans h.refs, ?_⟩
  · rw [hcache]
    exact h.intact.distinct
  · rw [hcache]
    exact h.intact.inums
  · rw [hcache]
    exact h.intact.synced
  · rw [hu]
    exact h.bufs
  · rw [hcache]
    exact h.locks

/-- One entry has changed, but not its inode. -/
theorem setInode {r' : ℕ → ℕ} {L' : Option Slot} {v : Inode}
    (h : Walking s r L t)
    (hu : u = { t.setInode ip v with trace := u.trace })
    (hinum : v.inum = (t.icache ip).inum)
    (href : 0 < v.ref → 0 < (t.icache ip).ref)
    (hvalid : 0 < v.ref → v.valid = true →
      v.din = t.inode (t.icache ip).inum ∧ v.din.type ≠ 0)
    (hrefs : (t.setInode ip v).refs = r')
    (hlocked : v.locked = decide (L' = some ip))
    (hlocks : ∀ c ≠ ip, (t.icache c).locked = decide (L' = some c)) :
    Walking s r' L' u := by
  have hcache : u.icache = (t.setInode ip v).icache := by rw [hu]
  refine ⟨?_, ?_, ?_, ?_, (refs_congr hcache).trans hrefs, fun c => ?_⟩
  · rw [hu]
    exact h.intact.setInode hinum href hvalid
  · rw [hu]
    exact h.sb
  · rw [hu]
    exact h.disk
  · rw [hu]
    exact h.bufs
  · rw [hcache]
    by_cases hc : c = ip
    · rw [hc, State.icache_setInode_self, hlocked]
    · rw [State.icache_setInode_of_ne t hc]
      exact hlocks c hc

/-- `ilock` of an inode with a reference. -/
theorem ilock_sat (h : Walking s r none t) (href : 0 < (t.icache ip).ref)
    (hnode : s.node (t.icache ip).inum ≠ none) :
    Sat (ilock ip) t (fun _ u => Walking s r (some ip) u ∧
      (u.icache ip).valid = true ∧ ∀ c, (u.icache c).inum =
        (t.icache c).inum ∧ (u.icache c).ref = (t.icache c).ref) E := by
  have hnew : t.newest ip = t.inode (t.icache ip).inum := by
    rw [State.newest]
    split
    · next hv => exact (h.intact.synced ip href hv).1
    · rfl
  have htype : (t.newest ip).type ≠ 0 := by
    rw [← h.node_eq, Ne, node_eq_none, not_not] at hnode
    rw [hnew]
    exact hnode.2
  have hlocks := h.locks
  refine (Kernel.ilock_sat ip (fun hlt => absurd href (by omega))
    (fun hl => ?_) (fun hb => absurd h.bufs hb)
    fun _ hzero => absurd hzero htype).imp ?_
  · rw [hlocks ip] at hl
    cases hl
  · rintro - u ⟨-, hu, -⟩
    have hcache : u.icache = (t.setInode ip (t.lockedInode ip)).icache := by
      rw [hu]
    have hsame : ∀ c, (u.icache c).inum = (t.icache c).inum ∧
        (u.icache c).ref = (t.icache c).ref := by
      intro c
      rw [hcache]
      by_cases hc : c = ip
      · subst hc
        rw [State.icache_setInode_self]
        exact ⟨rfl, rfl⟩
      · rw [State.icache_setInode_of_ne t hc]
        exact ⟨rfl, rfl⟩
    refine ⟨h.setInode hu rfl id (fun _ _ => ⟨hnew, htype⟩) ?_ ?_ ?_, ?_,
      hsame⟩
    · rw [← h.refs]
      funext i
      rw [State.refs, State.refs, ← hcache]
      apply Finset.sum_congr rfl
      intro c _
      rw [(hsame c).1, (hsame c).2]
    · exact (decide_eq_true rfl).symm
    · intro c hc
      rw [hlocks c]
      exact (decide_eq_false fun hsome => hc (Option.some.inj hsome).symm).symm
    · rw [hcache, State.icache_setInode_self]
      rfl

/-- `iunlock` of the inode that is locked. -/
theorem iunlock_sat (h : Walking s r (some ip) t)
    (href : 0 < (t.icache ip).ref) :
    Sat (iunlock ip) t (fun _ u => Walking s r none u ∧ ∀ c, (u.icache c).inum =
      (t.icache c).inum ∧ (u.icache c).ref = (t.icache c).ref ∧
        (u.icache c).valid = (t.icache c).valid) E := by
  have hlocked : (t.icache ip).locked = true := by
    rw [h.locks ip]
    exact decide_eq_true rfl
  refine .bind (Sat.get (.ite (fun hbad => ?_) fun _ => Sat.set ?_))
  · rw [hlocked] at hbad
    rcases hbad with hl | hlt
    · cases hl
    · omega
  · have hsame : ∀ c, ((t.setInode ip
          { t.icache ip with locked := false }).icache c).inum =
          (t.icache c).inum ∧ ((t.setInode ip
          { t.icache ip with locked := false }).icache c).ref =
          (t.icache c).ref ∧ ((t.setInode ip
          { t.icache ip with locked := false }).icache c).valid =
          (t.icache c).valid := by
      intro c
      by_cases hc : c = ip
      · subst hc
        rw [State.icache_setInode_self]
        exact ⟨rfl, rfl, rfl⟩
      · rw [State.icache_setInode_of_ne t hc]
        exact ⟨rfl, rfl, rfl⟩
    refine ⟨h.setInode rfl rfl id (h.intact.synced ip) ?_ ?_ ?_, hsame⟩
    · rw [← h.refs]
      funext i
      rw [State.refs, State.refs]
      apply Finset.sum_congr rfl
      intro c _
      rw [(hsame c).1, (hsame c).2.1]
    · rfl
    · intro c hc
      rw [h.locks c]
      refine (decide_eq_false fun hsome => ?_).trans (decide_eq_false ?_).symm
      · exact hc (Option.some.inj hsome).symm
      · exact (Option.some_ne_none _).symm

/-- `iput` of a reference that frees nothing. -/
theorem iput_sat (h : Walking s r L t) (href : 0 < (t.icache ip).ref)
    (hlast : (t.icache ip).ref = 1 → ∃ n,
      s.node (t.icache ip).inum = some n ∧ n.nlink ≠ 0) :
    Sat (iput ip) t (fun _ u =>
      Walking s (Function.update r (t.icache ip).inum
        (r (t.icache ip).inum - 1)) L u ∧
      (∀ c, (u.icache c).inum = (t.icache c).inum) ∧
      (∀ c ≠ ip, (u.icache c).ref = (t.icache c).ref) ∧
      (u.icache ip).ref = (t.icache ip).ref - 1) E := by
  refine (Kernel.iput_sat ?_).imp ?_
  · rintro ⟨hone, hvalid, hlink⟩
    obtain ⟨n, hn, hne⟩ := hlast hone
    have hnode := h.intact.node_valid href hvalid
    rw [h.node_eq, hn] at hnode
    rw [Option.some.inj hnode] at hne
    exact hne hlink
  · rintro - u hu
    have hcache : u.icache = (t.setInode ip
        { t.icache ip with ref := (t.icache ip).ref - 1 }).icache := by
      rw [hu]
    have hothers : ∀ c ≠ ip, u.icache c = t.icache c := by
      intro c hc
      rw [hcache, State.icache_setInode_of_ne t hc]
    have hself : u.icache ip =
        { t.icache ip with ref := (t.icache ip).ref - 1 } := by
      rw [hcache, State.icache_setInode_self]
    refine ⟨?_, fun c => ?_, fun c hc => ?_, ?_⟩
    · refine h.setInode hu rfl (fun _ => href) (fun _ => h.intact.synced ip href)
        ?_ (h.locks ip) fun c _ => h.locks c
      rw [← h.refs]
      have hpred : Function.update (t.setInode ip
          { t.icache ip with ref := (t.icache ip).ref - 1 }).refs
          (t.icache ip).inum _ = t.refs :=
        refs_setInode_pred rfl (Nat.sub_add_cancel href)
      rw [← hpred, Function.update_self, Nat.add_sub_cancel,
        Function.update_idem, Function.update_eq_self]
    · by_cases hc : c = ip
      · rw [hc, hself]
      · rw [hothers c hc]
    · rw [hothers c hc]
    · rw [hself]

/-- A reference to another inode. -/
theorem got (h : Walking s r L t) (hg : Got k c t u)
    (hk : k < s.sb.ninodes) :
    Walking s (Function.update r k (r k + 1)) L u := by
  have hsb : u.sb = t.sb := hg.files.sb
  have hdisk : u.disk = t.disk := hg.files.disk
  refine ⟨h.intact.congr hsb hdisk (hg.files.distinct h.intact.distinct) ?_ ?_,
    hsb.trans h.sb, hdisk.trans h.disk, hg.files.bufs.trans h.bufs, ?_, ?_⟩
  · intro c' hc'
    by_cases hc : c' = c
    · rw [hc, hg.inum, h.sb]
      exact hk
    · rw [hg.others c' hc] at hc' ⊢
      exact h.intact.inums c' hc'
  · intro c' hc' hv
    obtain ⟨href, hvalid⟩ := (hg.files.copy c').mp ⟨hc', hv⟩
    obtain ⟨hinum, hdin, -⟩ := hg.files.same c' href hvalid
    rw [hinum, hdin]
    exact h.intact.synced c' href hvalid
  · rw [hg.refs, h.refs]
  · intro c'
    by_cases hc : c' = c
    · rw [hc, hg.locked]
      exact h.locks c
    · rw [hg.others c' hc]
      exact h.locks c'

/-- A locked inode of a directory is a locked directory. -/
theorem directory {n : Node} (h : Walking s r (some ip) t)
    (href : 0 < (t.icache ip).ref) (hvalid : (t.icache ip).valid = true)
    (hn : s.node (t.icache ip).inum = some n) (hdir : n.type = T_DIR)
    (hwhole : Dirent.size ∣ n.data.length)
    (hdistinct : Distinct (bindings n.data)) :
    Directory t ip ∧ t.entries ip = bindings n.data := by
  have hnode := h.intact.node_valid href hvalid
  rw [h.node_eq, hn] at hnode
  obtain rfl := Option.some.inj hnode
  have hentries : t.entries ip =
      bindings (t.bytes (t.icache ip).inum) := by
    rw [State.entries, h.intact.content_eq]
  refine ⟨⟨⟨h.intact.consistent, href, ?_, hvalid, h.intact.inums ip href,
    .inr hdir, h.bufs⟩, hdir, ?_, ?_⟩, hentries⟩
  · rw [h.locks ip]
    exact decide_eq_true rfl
  · rw [State.length_bytes] at hwhole
    rwa [(h.intact.synced ip href hvalid).1]
  · rw [hentries]
    exact hdistinct

end Walking

/-- A reference that is put is not the last one to an inode that lasts. -/
theorem State.Lasts.not_last (hi : s.Lasts i) (h : Walking s r L t)
    (href : 0 < (t.icache ip).ref) (hinum : (t.icache ip).inum = i)
    (hr : s.refs i < r i) (hone : (t.icache ip).ref = 1) :
    ∃ n, s.node (t.icache ip).inum = some n ∧ n.nlink ≠ 0 := by
  obtain ⟨n, hn, hlink | hpos⟩ := hi
  · exact ⟨n, hinum ▸ hn, hlink⟩
  · have hrefs := h.intact.refs_eq href
    rw [h.refs, hinum, hone] at hrefs
    omega

theorem Walking.iunlockput_sat (h : Walking s r (some ip) t)
    (href : 0 < (t.icache ip).ref) (hinum : (t.icache ip).inum = i)
    (hi : s.Lasts i) (hr : s.refs i < r i) :
    Sat (iunlockput ip) t (fun _ u =>
      Walking s (Function.update r i (r i - 1)) none u ∧
      (∀ c, (u.icache c).inum = (t.icache c).inum) ∧
      (∀ c ≠ ip, (u.icache c).ref = (t.icache c).ref) ∧
      (u.icache ip).ref = (t.icache ip).ref - 1) E := by
  refine (h.iunlock_sat href).andThen ?_
  rintro - u ⟨hu, hsame⟩
  have hpos : 0 < (u.icache ip).ref := by
    rw [(hsame ip).2.1]
    exact href
  have hinum' : (u.icache ip).inum = i := (hsame ip).1.trans hinum
  have hput := hu.iput_sat (E := E) hpos (hi.not_last hu hpos hinum' hr)
  rw [hinum'] at hput
  refine hput.imp ?_
  rintro - v ⟨hv, hinums, hrefs, hself⟩
  refine ⟨hv, fun c => (hinums c).trans (hsame c).1,
    fun c hc => (hrefs c hc).trans (hsame c).2.1, ?_⟩
  rw [hself, (hsame ip).2.1]

/-- If every slot is in use when one more inode than in `s` is referred to, then
at most one slot was free in `s`. -/
theorem freeSlots_lt (ht : Intact t)
    (hrefs : t.refs = Function.update s.refs i (s.refs i + 1))
    (hfull : ∀ c, 0 < (t.icache c).ref) : s.freeSlots < 2 := by
  have hsum : s.freeSlots +
      (Finset.univ.filter fun c => ¬(s.icache c).ref = 0).card = NINODE := by
    rw [State.freeSlots, Finset.card_filter_add_card_filter_not,
      Finset.card_univ, Fintype.card_fin]
  have himage : (Finset.univ.image fun c => (t.icache c).inum) ⊆
      insert i ((Finset.univ.filter fun c => ¬(s.icache c).ref = 0).image
        fun c => (s.icache c).inum) := by
    intro j hj
    obtain ⟨c, -, rfl⟩ := Finset.mem_image.mp hj
    by_cases hc : (t.icache c).inum = i
    · rw [hc]
      exact Finset.mem_insert_self ..
    · have hpos : 0 < s.refs (t.icache c).inum := by
        have := ht.refs_eq (hfull c)
        rw [hrefs, Function.update_of_ne hc] at this
        rw [this]
        exact hfull c
      obtain ⟨c', href, hinum⟩ := exists_slot hpos
      apply Finset.mem_insert_of_mem
      rw [← hinum]
      apply Finset.mem_image_of_mem
      exact Finset.mem_filter.mpr
        ⟨Finset.mem_univ c', Nat.pos_iff_ne_zero.mp href⟩
  have hcard := Finset.card_le_card himage
  rw [Finset.card_image_of_injective _ fun c c' heq =>
    ht.distinct c c' (hfull c) (hfull c') heq, Finset.card_univ,
    Fintype.card_fin] at hcard
  have hinsert := Finset.card_insert_le i
    ((Finset.univ.filter fun c => ¬(s.icache c).ref = 0).image
      fun c => (s.icache c).inum)
  have hle : ((Finset.univ.filter fun c => ¬(s.icache c).ref = 0).image
      fun c => (s.icache c).inum).card ≤ _ := Finset.card_image_le
  omega

/-! ## namex -/

/-- The call has one more reference than in `s`, to inode `i` in slot `c`, and
no lock. -/
structure Held (s : State P) (i : ℕ) (c : Slot) (t : State P) : Prop where
  walking : Walking s (Function.update s.refs i (s.refs i + 1)) none t
  inum : (t.icache c).inum = i
  pos : 0 < (t.icache c).ref

/-- How `namex` ends: with a reference to the target, or without one. -/
def NamexEnd (s : State P) (nameiparent : Bool)
    (target : Option (ℕ × Option Bytes)) (r : Option (Slot × Bytes))
    (t : State P) : Prop :=
  match r with
  | none => target = none ∧ Walking s s.refs none t
  | some (c, name) => ∃ k,
      target = some (k, if nameiparent then some name else none) ∧ Held s k c t

theorem update_back (r : ℕ → ℕ) (i : ℕ) :
    Function.update (Function.update r i (r i + 1)) i
      (Function.update r i (r i + 1) i - 1) = r := by
  rw [Function.update_self, Nat.add_sub_cancel, Function.update_idem,
    Function.update_eq_self]

theorem lt_update_succ {m : ℕ} (h : m < r i) :
    m < Function.update r k (r k + 1) i := by
  by_cases hik : i = k
  · rw [hik, Function.update_self]
    rw [hik] at h
    omega
  · rwa [Function.update_of_ne hik]

/-- A reference is exchanged for another one. -/
theorem update_exchange (r : ℕ → ℕ) (i k : ℕ) :
    Function.update (Function.update (Function.update r i (r i + 1)) k
        (Function.update r i (r i + 1) k + 1)) i
      (Function.update (Function.update r i (r i + 1)) k
        (Function.update r i (r i + 1) k + 1) i - 1) =
      Function.update r k (r k + 1) := by
  funext j
  by_cases hik : i = k
  · subst hik
    by_cases hj : j = i
    · simp [hj]
    · simp [hj]
  · by_cases hj : j = i
    · simp [hj, hik]
    · by_cases hj' : j = k
      · simp [hj', Ne.symm hik]
      · simp [hj, hj']

section Namex

variable {p : P} {path name : Bytes} {nameiparent : Bool}

theorem Held.put (h : Held s i ip t) (hi : s.Lasts i) :
    Sat (iput ip) t (fun _ u => Walking s s.refs none u) E := by
  have hput := h.walking.iput_sat (E := E) h.pos
    (hi.not_last h.walking h.pos h.inum (by
      rw [Function.update_self]
      exact Nat.lt_succ_self _))
  rw [h.inum, update_back] at hput
  exact hput.imp fun _ _ hu => hu.1

theorem namexEnd_sat (h : Held s i ip t) (hi : s.Lasts i) :
    Sat (namexEnd nameiparent ip name) t
      (NamexEnd s nameiparent (namexTarget s.node nameiparent i [])) E := by
  cases nameiparent with
  | true =>
      refine (h.put hi).andThen ?_
      intro _ u hu
      exact Sat.pure ⟨rfl, hu⟩
  | false => exact Sat.pure ⟨i, rfl, h⟩

theorem namexLoop_sat (h : Tree s p)
    (hE : s.freeSlots < 2 → E (.panic "iget: no inodes")) (fuel : ℕ) :
    ∀ path name i ip t, path.length ≤ fuel → s.Lasts i → Held s i ip t →
      Sat (namexLoop nameiparent fuel ip path name) t (NamexEnd s nameiparent
        (namexTarget s.node nameiparent i (components path))) E := by
  induction fuel with
  | zero =>
      intro path name i ip t hlen hi ht
      rw [List.length_eq_zero_iff.mp (Nat.le_zero.mp hlen)]
      exact namexEnd_sat ht hi
  | succ fuel ih =>
      intro path name i ip t hlen hi ht
      rw [namexLoop]
      split
      · next hnone =>
          rw [skipelem_none hnone]
          exact namexEnd_sat ht hi
      next name rest hskip =>
      obtain ⟨hcomp, hcut, hlt⟩ := skipelem_some hskip
      obtain ⟨n, hn, -⟩ := id hi
      have hmore : s.refs i < Function.update s.refs i (s.refs i + 1) i := by
        rw [Function.update_self]
        exact Nat.lt_succ_self _
      rw [hcomp]
      refine (ht.walking.ilock_sat ht.pos (by
        rw [ht.inum, hn]
        exact Option.some_ne_none n)).andThen ?_
      rintro - u ⟨hu, hvalid, hsame⟩
      have hinum : (u.icache ip).inum = i := (hsame ip).1.trans ht.inum
      have hpos : 0 < (u.icache ip).ref := by
        rw [(hsame ip).2]
        exact ht.pos
      have hnode : s.node (u.icache ip).inum = some n := by rw [hinum, hn]
      have htype : (u.icache ip).din.type = n.type := by
        have := hu.intact.node_valid hpos hvalid
        rw [hu.node_eq, hnode] at this
        rw [Option.some.inj this]
      apply getDin_bind
      rw [htype]
      apply Sat.ite
      · -- Not a directory.
        intro hdir
        have hnot : isDir s.node i = false := by
          rw [isDir_eq hn]
          exact beq_eq_false_iff_ne.mpr hdir
        refine (hu.iunlockput_sat hpos hinum hi hmore).andThen ?_
        rintro - v ⟨hv, -⟩
        rw [update_back] at hv
        exact Sat.pure ⟨namexTarget_of_not_dir hnot, hv⟩
      intro hdir
      rw [not_not] at hdir
      have his : isDir s.node i = true := by
        rw [isDir_eq hn]
        exact beq_iff_eq.mpr hdir
      apply Sat.ite
      · -- The parent is found.
        rintro ⟨rfl, hend⟩
        rw [(skipelem_last hskip).mp hend]
        refine (hu.iunlock_sat hpos).andThen ?_
        rintro - v ⟨hv, hsame'⟩
        refine Sat.pure ⟨i, namexTarget_parent his, hv, ?_, ?_⟩
        · rw [(hsame' ip).1, hinum]
        · rw [(hsame' ip).2.1]
          exact hpos
      intro hgo
      have hne : nameiparent = true → components rest ≠ [] := by
        intro hparent hempty
        exact hgo ⟨hparent, (skipelem_last hskip).mpr hempty⟩
      obtain ⟨hdirectory, hentries⟩ := hu.directory hpos hvalid hnode hdir
        (h.whole i n hn hdir) (h.distinct i n hn hdir)
      have hnames : u.names ip (cutName name) = lookupAt s.node i name := by
        rw [State.names, hentries, hcut, lookupAt_eq hn hdir]
      refine (hdirectory.dirlookup_sat name fun hfull =>
        hE (freeSlots_lt hu.intact hu.refs hfull)).andThen ?_
      rintro r v (⟨rfl, hv, hmiss⟩ | ⟨next, j, k, rfl, -, hfound, hgot⟩)
      · -- The element is missing.
        rw [hnames] at hmiss
        have hw := hu.traced hv
        have hcache : v.icache = u.icache := by rw [hv]
        refine (hw.iunlockput_sat (by rwa [hcache]) (by rwa [hcache]) hi
          hmore).andThen ?_
        rintro - w ⟨hput, -⟩
        rw [update_back] at hput
        exact Sat.pure ⟨namexTarget_of_none hmiss hne, hput⟩
      · -- One element further.
        rw [hnames] at hfound
        have hk : s.Lasts k := h.named i name k hfound
        have hklt : k < s.sb.ninodes := by
          obtain ⟨m, hm, -⟩ := id hk
          exact (of_node_eq_some hm).1
        have hstep := hu.got hgot hklt
        obtain ⟨hpos', hvalid'⟩ := (hgot.files.copy ip).mpr ⟨hpos, hvalid⟩
        have hinum' : (v.icache ip).inum = i :=
          (hgot.files.same ip hpos hvalid).1.trans hinum
        refine (hstep.iunlockput_sat hpos' hinum' hi
          (lt_update_succ hmore)).andThen ?_
        rintro - w ⟨hw, hinums, hrefs, hself⟩
        rw [update_exchange] at hw
        rw [namexTarget_of_some hfound hne]
        refine ih rest name k next w (by omega) hk ⟨hw, ?_, ?_⟩
        · rw [hinums, hgot.inum]
        · by_cases hnext : next = ip
          · have hki : k = i := by rw [← hgot.inum, hnext, hinum']
            have hcount := hstep.intact.refs_eq hpos'
            rw [hstep.refs, hinum', hki, Function.update_self,
              Function.update_self] at hcount
            rw [hnext, hself]
            omega
          · rw [hrefs next hnext]
            exact hgot.pos

theorem Tree.walking (h : Tree s p) : Walking s s.refs none s where
  intact := h.intact
  sb := rfl
  disk := rfl
  bufs := h.bufs
  refs := rfl
  locks c := by
    rw [h.unlocked c]
    rfl

/-- The current directory lasts: the process refers to it. -/
theorem Tree.lasts_cwd (h : Tree s p) :
    s.Lasts (s.icache (s.cwd p)).inum := by
  obtain ⟨n, hn⟩ := Option.ne_none_iff_exists'.mp h.cwdNode
  refine ⟨n, hn, .inr ?_⟩
  rw [h.intact.refs_eq h.cwd]
  exact h.cwd

theorem Tree.idup_sat (h : Tree s p) (href : 0 < (s.icache ip).ref) :
    Sat (idup ip) s (fun c t => Held s (s.icache ip).inum c t) E := by
  refine .bind (Sat.modify (Sat.pure ⟨?_, ?_, ?_⟩))
  · exact h.walking.setInode rfl rfl (fun _ => href)
      (fun _ => h.intact.synced ip href) (refs_setInode_succ rfl rfl)
      (h.walking.locks ip) fun c _ => h.walking.locks c
  · rw [State.icache_setInode_self]
  · rw [State.icache_setInode_self]
    exact Nat.succ_pos _

theorem namex_sat (h : Tree s p)
    (hE : s.freeSlots < 2 → E (.panic "iget: no inodes")) (path : Bytes) :
    Sat (namex p path nameiparent) s (NamexEnd s nameiparent
      (namexTarget s.node nameiparent (s.startInum p path)
        (components path))) E := by
  have hstart : Sat (if path.headD 0 = slash then iget ROOTINO
      else do
        let s ← get
        idup (s.cwd p)) s (fun c t => s.Lasts (s.startInum p path) ∧
          Held s (s.startInum p path) c t) E := by
    apply Sat.ite
    · intro hslash
      rw [State.startInum, if_pos hslash]
      refine (iget_got ROOTINO fun hfull => hE ?_).imp ?_
      · have hnone : s.freeSlots = 0 := by
          rw [State.freeSlots, Finset.card_eq_zero,
            Finset.filter_eq_empty_iff]
          exact fun c _ => Nat.pos_iff_ne_zero.mp (hfull c)
        omega
      · intro c t hg
        exact ⟨h.root, h.walking.got hg h.intact.owned.layout.root, hg.inum,
          hg.pos⟩
    · intro hslash
      rw [State.startInum, if_neg hslash]
      refine .bind (Sat.get ((h.idup_sat h.cwd).imp fun c t ht => ?_))
      exact ⟨h.lasts_cwd, ht⟩
  refine hstart.andThen ?_
  rintro c t ⟨hlasts, ht⟩
  exact namexLoop_sat h hE _ path [] _ c t (le_refl _) hlasts ht

end Namex

/-- `skipelem` yields the elements of a path.  `namei` finds the inode to which
they lead, and `nameiparent` the directory before the last of them; both give
back all other references and every lock.  They stop only if fewer than two
slots of the inode cache are free. -/
theorem path_resolution {p : P} (h : Tree s p) (path : Bytes) :
    skipelems path.length path = components path ∧
    Sat (namei p path) s (fun r t =>
      match r with
      | none => walk s.node (s.startInum p path) (components path) = none ∧
          Walking s s.refs none t
      | some c => ∃ i,
          walk s.node (s.startInum p path) (components path) = some i ∧
          Held s i c t)
      (fun e => e = .panic "iget: no inodes" ∧ s.freeSlots < 2) ∧
    Sat (nameiparent p path) s (fun r t =>
      match r with
      | none =>
          walkParent s.node (s.startInum p path) (components path) = none ∧
          Walking s s.refs none t
      | some (c, name) => ∃ i,
          walkParent s.node (s.startInum p path) (components path) =
            some (i, name) ∧ Held s i c t)
      (fun e => e = .panic "iget: no inodes" ∧ s.freeSlots < 2) := by
  refine ⟨skipelems_eq (le_refl _), ?_, ?_⟩
  · refine (namex_sat h (fun hfew => ⟨rfl, hfew⟩) path).andThen ?_
    rintro (_ | ⟨c, name⟩) t ht
    · obtain ⟨htarget, hw⟩ := ht
      exact Sat.pure ⟨Option.map_eq_none_iff.mp htarget, hw⟩
    · obtain ⟨k, htarget, hheld⟩ := ht
      obtain ⟨i, hi, heq⟩ := Option.map_eq_some_iff.mp htarget
      obtain ⟨rfl, -⟩ := Prod.mk.inj heq
      exact Sat.pure ⟨i, hi, hheld⟩
  · refine (namex_sat h (fun hfew => ⟨rfl, hfew⟩) path).imp ?_
    rintro (_ | ⟨c, name⟩) t ht
    · obtain ⟨htarget, hw⟩ := ht
      exact ⟨Option.map_eq_none_iff.mp htarget, hw⟩
    · obtain ⟨k, htarget, hheld⟩ := ht
      obtain ⟨⟨i, name'⟩, hi, heq⟩ := Option.map_eq_some_iff.mp htarget
      obtain ⟨rfl, hname⟩ := Prod.mk.inj heq
      obtain rfl := Option.some.inj hname
      exact ⟨i, hi, hheld⟩

/-! ### A small tree -/

/-- The entries of a directory with one file or directory in it. -/
def smallEntries (self parent : ℕ) (name : Bytes) (inum : ℕ) : Bytes :=
  (linkDirent [0x2e] self).bytes ++ (linkDirent [0x2e, 0x2e] parent).bytes ++
    (linkDirent name inum).bytes

/-- A directory whose entries are in block `b`. -/
def smallDir (b : BitVec 32) : Dinode :=
  { Dinode.zero with
    type := T_DIR
    nlink := 1
    size := 48
    addrs := fun k => if k = 0 then b else 0 }

/-- A volume with the directory `/a` and the empty file `/a/b`. -/
def smallVolume : ℕ → Block := fun b =>
  if b = 1 then
    ((((((Block.zero.setWord 0 16).setWord 4 5).setWord 8 64).setWord 16
      2).setWord 20 2).setWord 24 10)
  else if b = 2 then
    ((Block.zero.setDinode 1 (smallDir 11)).setDinode 2
      (smallDir 12)).setDinode 3 { Dinode.zero with type := T_FILE, nlink := 1 }
  else if b = 10 then (Block.zero.setByte 0 0xff).setByte 1 0x1f
  else if b = 11 then Block.zero.put 0 (smallEntries 1 1 [0x61] 2)
  else if b = 12 then Block.zero.put 0 (smallEntries 2 1 [0x62] 3)
  else Block.zero

def smallSb : Superblock :=
  ⟨16, 5, 64, 0, 2, 2, 10⟩

/-- The volume while `n` slots of the inode cache are in use, one of them for
the root directory, which is the current directory. -/
def smallState (n : ℕ) : State Unit where
  disk := smallVolume
  sb := smallSb
  icache := fun c =>
    { inum := if c = 0 then ROOTINO else c.val + 8
      ref := if c.val < n then 1 else 0
      locked := false
      valid := false
      din := Dinode.zero }
  ftable := fun _ => ⟨.none, 0, false, false, 0, 0⟩
  ofile := fun _ _ => none
  cwd := fun _ => 0
  bufs := []
  input := []
  trace := []

/-- The path `/a/b`. -/
def smallPath : Bytes := [0x2f, 0x61, 0x2f, 0x62]

/-- What the proofs below read off the blocks of the volume. -/
class SmallVolume : Prop where
  addrs : ∀ i < 64, ∀ k, (live smallSb (inodeOf smallSb smallVolume) i).addrs k =
    if k = 0 ∧ i = 1 then 11 else if k = 0 ∧ i = 2 then 12 else 0
  superblock : (smallVolume 1).superblock = smallSb
  bits : ∀ b < 16, bmapBit smallSb smallVolume b = decide (b < 13)
  blocks : ∀ i < 64, blocksOf (inodeOf smallSb smallVolume i).size.toNat =
    if i = 1 ∨ i = 2 then 1 else 0
  types : ∀ i < 64, (inodeOf smallSb smallVolume i).type =
    if i = 1 ∨ i = 2 then T_DIR else if i = 3 then T_FILE else 0
  nodes : ∀ i ∈ [1, 2, 3], i < 64 ∧
    (inodeOf smallSb smallVolume i).type ≠ 0 ∧
    (inodeOf smallSb smallVolume i).nlink ≠ 0
  root : (smallState 0).bytes 1 = smallEntries 1 1 [0x61] 2
  sub : (smallState 0).bytes 2 = smallEntries 2 1 [0x62] 3
  rootNames : bindings (smallEntries 1 1 [0x61] 2) =
    [some ([0x2e], 1), some ([0x2e, 0x2e], 1), some ([0x61], 2)]
  subNames : bindings (smallEntries 2 1 [0x62] 3) =
    [some ([0x2e], 2), some ([0x2e, 0x2e], 1), some ([0x62], 3)]
  rootInums : ∀ de ∈ dirents (smallEntries 1 1 [0x61] 2), de.inum.toNat < 64
  subInums : ∀ de ∈ dirents (smallEntries 2 1 [0x62] 3), de.inum.toNat < 64
  walk : walk (smallState 0).node ((smallState 0).startInum () smallPath)
    (components smallPath) = some 3
  freeSlots : (smallState 1).freeSlots = 49 ∧ (smallState 49).freeSlots = 1
  stops : (match namei () smallPath (smallState 49) with
    | .ok _ => none
    | .error e => some e) = some (Stop.panic "iget: no inodes")

instance smallVolume_read : SmallVolume where
  addrs := by decide +kernel
  superblock := by decide +kernel
  bits := by decide +kernel
  blocks := by decide +kernel
  types := by decide +kernel
  nodes := by decide +kernel
  root := by decide +kernel
  sub := by decide +kernel
  rootNames := by decide +kernel
  subNames := by decide +kernel
  rootInums := by decide +kernel
  subInums := by decide +kernel
  walk := by decide +kernel
  freeSlots := by decide +kernel
  stops := by decide +kernel

/-- A volume whose inodes have a block in their first slot at most. -/
theorem listing_of_first {sb : Superblock} {disk : ℕ → Block} {V : Table}
    {g : ℕ → BitVec 32} (h : ∀ i < sb.ninodes, ∀ k,
      (live sb V i).addrs k = if k = 0 then g i else 0) (i j : ℕ) :
    listing sb disk V i j =
      if j = 0 ∧ i < sb.ninodes then (g i).toNat else 0 := by
  by_cases hi : i < sb.ninodes
  · rw [listing, slots, Dinode.slot]
    split
    · next hj =>
        have hzero : (⟨j, hj⟩ : Fin (NDIRECT + 1)) = 0 ↔ j = 0 :=
          Fin.mk_eq_zero
        rw [h i hi]
        simp only [hzero, hi, and_true]
        split <;> rfl
    · next hj =>
        have hind := h i hi indirectSlot
        rw [if_neg (by decide)] at hind
        rw [if_pos hind, if_neg]
        rintro ⟨rfl, -⟩
        exact hj (by decide)
  · rw [listing, slots, live_of_free fun hc => hi hc.1,
      if_neg fun hc => hi hc.2]
    exact Dinode.slot_zero

theorem smallVolume_listing (i j : ℕ) :
    listing smallSb smallVolume (inodeOf smallSb smallVolume) i j =
      if j = 0 ∧ i = 1 then 11 else if j = 0 ∧ i = 2 then 12 else 0 := by
  have haddrs : ∀ i < smallSb.ninodes, ∀ k,
      (live smallSb (inodeOf smallSb smallVolume) i).addrs k =
        if k = 0 then (if i = 1 then 11 else if i = 2 then 12 else 0)
        else 0 := by
    intro i hi k
    rw [smallVolume_read.addrs i hi k]
    split_ifs <;> simp_all
  rw [listing_of_first haddrs, show smallSb.ninodes = 64 from rfl]
  split_ifs <;> first | rfl | omega

theorem smallVolume_owned :
    Owned smallSb smallVolume (inodeOf smallSb smallVolume) := by
  have hlist := smallVolume_listing
  have hmeta : nmeta smallSb = 11 := rfl
  have hsize : smallSb.size = 16 := rfl
  constructor
  · constructor <;> decide
  · exact smallVolume_read.superblock
  · constructor
    · intro i k _ hne
      rw [hlist] at hne ⊢
      rw [hmeta, hsize]
      split_ifs at hne ⊢ <;> omega
    · intro i k i' k' _ _ hne heq
      rw [hlist] at hne
      rw [hlist, hlist] at heq
      split_ifs at hne heq <;> omega
  · intro b hb _
    rw [smallVolume_read.bits b hb, decide_eq_true_eq, hmeta]
    constructor
    · intro hlt
      by_cases hdata : b < 11
      · exact .inl hdata
      · refine .inr ⟨b - 10, 0, by decide, ?_⟩
        rw [hlist]
        split_ifs <;> omega
    · rintro (hlt | ⟨i, k, -, heq⟩)
      · omega
      · rw [hlist] at heq
        split_ifs at heq <;> omega
  · intro i hi _ _ bn hbn
    rw [smallVolume_read.blocks i hi] at hbn
    rw [hlist]
    split at hbn
    · next hdir =>
        obtain rfl : bn = 0 := by omega
        rcases hdir with rfl | rfl <;> decide
    · omega

variable {n : ℕ}

theorem smallState_types : ∀ i < 64, ((smallState n).inode i).type =
    if i = 1 ∨ i = 2 then T_DIR else if i = 3 then T_FILE else 0 :=
  smallVolume_read.types

theorem smallState_node {i : ℕ} (hi : i = 1 ∨ i = 2 ∨ i = 3) :
    ∃ m, (smallState n).node i = some m ∧ m.nlink ≠ 0 := by
  obtain ⟨hlt, htype, hlink⟩ :=
    smallVolume_read.nodes i (by simpa using hi)
  exact ⟨_, node_eq_some hlt htype, hlink⟩

theorem smallState_dir {i : ℕ} {m : Node} (hm : (smallState n).node i = some m)
    (hdir : m.type = T_DIR) :
    (i = 1 ∧ m.data = smallEntries 1 1 [0x61] 2) ∨
      (i = 2 ∧ m.data = smallEntries 2 1 [0x62] 3) := by
  have hbytes := And.intro smallVolume_read.root smallVolume_read.sub
  have hsame : (smallState n).bytes = (smallState 0).bytes := rfl
  rw [← hsame] at hbytes
  obtain ⟨hlt, -, rfl⟩ := of_node_eq_some hm
  have htype := smallState_types (n := n) i hlt
  rw [show ((smallState n).inode i).type = T_DIR from hdir] at htype
  split_ifs at htype with hi hi'
  · rcases hi with rfl | rfl
    · exact .inl ⟨rfl, hbytes.1⟩
    · exact .inr ⟨rfl, hbytes.2⟩
  · exact absurd htype (by decide)
  · exact absurd htype (by decide)

/-- The names in the small tree lead to its three inodes. -/
theorem smallState_lookup {i k : ℕ} {name : Bytes}
    (h : lookupAt (smallState n).node i name = some k) :
    k = 1 ∨ k = 2 ∨ k = 3 := by
  unfold lookupAt at h
  split at h
  · cases h
  next m hm =>
  split at h
  · next hdir =>
      obtain ⟨j, hj⟩ := exists_binds_of_lookup h
      have hmem := List.mem_of_getElem? hj
      rcases smallState_dir hm hdir with ⟨-, hdata⟩ | ⟨-, hdata⟩
      · rw [hdata, smallVolume_read.rootNames] at hmem
        simp at hmem
        omega
      · rw [hdata, smallVolume_read.subNames] at hmem
        simp at hmem
        omega
  · cases h

theorem smallState_tree (hn : 0 < n) : Tree (smallState n) () := by
  constructor
  · constructor
    · exact smallVolume_owned
    · intro c c' _ _ heq
      change (if c = 0 then ROOTINO else c.val + 8) =
        (if c' = 0 then ROOTINO else c'.val + 8) at heq
      simp only [ROOTINO] at heq
      split_ifs at heq with hc hc'
      · rw [hc, hc']
      · omega
      · omega
      · exact Fin.ext (by omega)
    · intro c _
      change (if c = 0 then ROOTINO else c.val + 8) < 64
      have hlt : c.val < 50 := c.isLt
      simp only [ROOTINO]
      split_ifs <;> omega
    · intro c _ hv
      cases hv
    · intro i m hm hdir
      change ∀ de ∈ dirents m.data, de.inum.toNat < smallSb.ninodes
      rcases smallState_dir hm hdir with ⟨-, h⟩ | ⟨-, h⟩
      · rw [h]
        exact smallVolume_read.rootInums
      · rw [h]
        exact smallVolume_read.subInums
  · rfl
  · exact fun c => rfl
  · intro i m hm hdir
    rcases smallState_dir hm hdir with ⟨-, h⟩ | ⟨-, h⟩
    · rw [h]
      decide
    · rw [h]
      decide
  · intro i m hm hdir
    rcases smallState_dir hm hdir with ⟨-, h⟩ | ⟨-, h⟩
    · rw [h, smallVolume_read.rootNames]
      exact distinct_of_keys (by decide)
    · rw [h, smallVolume_read.subNames]
      exact distinct_of_keys (by decide)
  · intro i name k hk
    obtain ⟨m, hm, hlink⟩ := smallState_node (n := n) (smallState_lookup hk)
    exact ⟨m, hm, .inl hlink⟩
  · obtain ⟨m, hm, hlink⟩ := smallState_node (n := n) (.inl rfl)
    exact ⟨m, hm, .inl hlink⟩
  · change 0 < if 0 < n then 1 else 0
    rw [if_pos hn]
    exact Nat.one_pos
  · obtain ⟨m, hm, -⟩ := smallState_node (n := n) (.inl rfl)
    change (smallState n).node 1 ≠ none
    rw [hm]
    exact Option.some_ne_none m

theorem smallPath_walk :
    walk (smallState n).node ((smallState n).startInum () smallPath)
      (components smallPath) = some 3 :=
  smallVolume_read.walk

/-- With most of the inode cache free, `namei` finds `/a/b`. -/
theorem path_resolution_small : ∃ c t,
    namei () smallPath (smallState 1) = .ok (some c, t) ∧
      Held (smallState 1) 3 c t := by
  obtain ⟨-, hnamei, -⟩ :=
    path_resolution (smallState_tree Nat.one_pos) smallPath
  have hfree := smallVolume_read.freeSlots.1
  obtain ⟨r, t, hrun, hr⟩ := hnamei.exists_ok fun e he => by
    have := he.2
    omega
  rw [smallPath_walk] at hr
  cases r with
  | none => cases hr.1
  | some c =>
      obtain ⟨i, hi, hheld⟩ := hr
      obtain rfl := Option.some.inj hi
      exact ⟨c, t, hrun, hheld⟩

/-- With one free slot, `namei` stops at `/a/b`, which exists. -/
theorem one_free_slot_panics : Tree (smallState 49) () ∧
    (smallState 49).freeSlots = 1 ∧
    walk (smallState 49).node ((smallState 49).startInum () smallPath)
      (components smallPath) = some 3 ∧
    namei () smallPath (smallState 49) =
      .error (.panic "iget: no inodes") := by
  have hstop := smallVolume_read.stops
  refine ⟨smallState_tree (by decide), smallVolume_read.freeSlots.2,
    smallPath_walk, ?_⟩
  cases hrun : namei () smallPath (smallState 49) with
  | ok r =>
      rw [hrun] at hstop
      cases hstop
  | error e =>
      rw [hrun] at hstop
      rw [Option.some.inj hstop]

end ZtlOs.Kernel
