import ZtlOs.Kernel.Directory
import ZtlOs.Kernel.Inodes

/-!
# Names in the volume

What the directory layer does to the nodes of a volume: looking up names
changes no node that somebody refers to, and `dirlink` adds one entry.  A
directory need not be well-formed here.
-/

namespace ZtlOs.Kernel

open ZtlOs.Support ZtlOs.Support.Program ZtlOs.Support.Bindings ZtlOs.Fs

variable {P : Type} {s t u : State P} {k k' k₂ : Ctx P} {ip dp c : Slot}
variable {i j : ℕ} {n n' : Node} {name : Bytes}

theorem Still.changed (h : Still k k₂ s t) (h' : Changed k k' i n' t u) :
    Changed k k' i n' s u :=
  ⟨h'.world, h.frame.trans h'.frame, by rw [h'.node, h.node]⟩

/-! ## Reading entries -/

theorem readDirent_still (message : String) (h : Loaded s k dp i n)
    (hdev : n.type ≠ T_DEV) :
    Sat (readDirent message dp (Dirent.size * j)) s (fun de t =>
      Still k k s t ∧ Dirent.size * j + Dirent.size ≤ n.data.length ∧
        de = direntAt n.data j) fun _ => True := by
  refine (readi_still (Dirent.size * j) Dirent.size h hdev).andThen ?_
  rintro r t ⟨rfl, ht⟩
  split
  · exact Sat.throw trivial
  · next bytes hbytes =>
      split at hbytes
      · cases hbytes
      · next hin =>
          obtain rfl := Option.some.inj hbytes
          apply Sat.ite
          · intro hlen
            rw [List.length_take, List.length_drop] at hlen
            refine Sat.pure ⟨ht, ?_, rfl⟩
            simp only [Dirent.size] at *
            omega
          · intro _
            exact Sat.throw trivial

/-- The slot of an entry that can be read. -/
theorem getElem?_bindings_of_le {l : Bytes}
    (h : Dirent.size * j + Dirent.size ≤ l.length) :
    (bindings l)[j]? = some (bindingOf (direntAt l j)) := by
  apply getElem?_bindings
  rw [length_bindings]
  simp only [Dirent.size] at *
  omega

/-- What a search for a name finds among the slots `js` of a directory. -/
def Searched (k : Ctx P) (n : Node) (name : Bytes) (js : List ℕ)
    (r : Option (Slot × ℕ)) (s t : State P) : Prop :=
  match r with
  | none => Still k k s t ∧
      ∀ j ∈ js, ∀ inum, ¬Binds (bindings n.data) j (cutName name) inum
  | some (c, off) => ∃ j inum, off = Dirent.size * j ∧
      Binds (bindings n.data) j (cutName name) inum ∧
      Still k (k.hold c) s t ∧ (t.icache c).inum = inum

theorem Still.searched {js : List ℕ} {r : Option (Slot × ℕ)}
    (h : Still k k s t) (h' : Searched k n name js r t u)
    (hj : ∀ inum, ¬Binds (bindings n.data) j (cutName name) inum) :
    Searched k n name (j :: js) r s u := by
  unfold Searched at h' ⊢
  split
  · obtain ⟨hstill, hnone⟩ := h'
    refine ⟨h.trans hstill, fun j' hj' => ?_⟩
    rcases List.mem_cons.mp hj' with rfl | hj'
    · exact hj
    · exact hnone j' hj'
  · obtain ⟨j', inum, hoff, hb, hstill, hinum⟩ := h'
    exact ⟨j', inum, hoff, hb, h.trans hstill, hinum⟩

theorem dirlookupLoop_searched (name : Bytes) (js : List ℕ)
    (h : Loaded s k dp i n) (hdir : n.type = T_DIR) :
    Sat (dirlookupLoop dp name (js.map (Dirent.size * ·))) s
      (fun r t => Searched k n name js r s t) fun _ => True := by
  induction js generalizing s with
  | nil => exact Sat.pure ⟨.refl h.world, fun j hj => nomatch hj⟩
  | cons j js ih =>
      have hdev : n.type ≠ T_DEV := by
        rw [hdir]
        decide
      refine (readDirent_still _ h hdev).andThen ?_
      rintro _ t ⟨ht, hin, rfl⟩
      have hentry := getElem?_bindings_of_le hin
      have hloaded := h.still ht h.mem h.mem
      apply Sat.ite
      · intro hzero
        refine (ih hloaded).imp fun r u hu => ht.searched hu ?_
        intro inum hb
        rw [Binds, hentry, bindingOf, if_pos hzero] at hb
        cases hb
      · intro hlive
        rw [bindingOf, if_neg hlive] at hentry
        apply Sat.ite
        · intro heq
          rw [namecmp_eq_zero] at heq
          have hlt : (direntAt n.data j).inum.toNat < t.sb.ninodes :=
            hloaded.world.intact.entries i n hloaded.node hdir _
              (mem_dirents.mpr ⟨j, hin, rfl⟩)
          refine (iget_still hloaded.world hlt).andThen ?_
          rintro c u ⟨hu, hinum⟩
          refine Sat.pure ⟨j, _, rfl, ?_, ht.trans hu, hinum⟩
          rw [Binds, hentry, heq]
        · intro hne
          refine (ih hloaded).imp fun r u hu => ht.searched hu ?_
          intro inum hb
          rw [Binds, hentry] at hb
          apply hne
          rw [namecmp_eq_zero]
          exact (Prod.mk.inj (Option.some.inj (Option.some.inj hb))).1.symm

/-- The slots that `dirlookup` and `dirlink` read. -/
def slotRange (l : Bytes) : List ℕ :=
  List.range ((l.length + (Dirent.size - 1)) / Dirent.size)

theorem Loaded.offsets_eq (h : Loaded s k dp i n) :
    direntOffsets (s.icache dp).din.size.toNat =
      (slotRange n.data).map (Dirent.size * ·) := by
  rw [direntOffsets, h.size_eq, slotRange]

theorem mem_slotRange {l : Bytes} {v : ℕ}
    (h : Binds (bindings l) j name v) : j ∈ slotRange l := by
  have := lt_length_of_binds h
  rw [length_bindings] at this
  rw [slotRange, List.mem_range]
  simp only [Dirent.size] at *
  omega

theorem dirlookup_searched (name : Bytes) (h : Loaded s k dp i n) :
    Sat (dirlookup dp name) s (fun r t => n.type = T_DIR ∧
      Searched k n name (slotRange n.data) r s t) fun _ => True := by
  apply getDin_bind
  rw [h.type_eq, h.offsets_eq]
  apply Sat.ite
  · intro _
    exact Sat.throw trivial
  · intro hdir
    rw [not_not] at hdir
    exact (dirlookupLoop_searched name _ h hdir).imp fun _ _ ht => ⟨hdir, ht⟩

/-! ## Adding an entry -/

/-- The entries after one has been written. -/
theorem mem_dirents_splice {l : Bytes} {de de' : Dirent}
    (hj : Dirent.size * j ≤ l.length)
    (h : de ∈ dirents (splice l (Dirent.size * j) de'.bytes)) :
    de = de' ∨ de ∈ dirents l := by
  obtain ⟨m, hm, rfl⟩ := mem_dirents.mp h
  by_cases hmj : m = j
  · subst hmj
    exact .inl (direntAt_splice_self hj)
  · right
    rw [direntAt_splice_of_ne hj de'.length_bytes hmj]
    refine mem_dirents.mpr ⟨m, ?_, rfl⟩
    rw [length_splice hj, de'.length_bytes] at hm
    simp only [Dirent.size] at *
    omega

/-- Slot `j` is free, or the one behind the last. -/
def Vacant (l : Bytes) (j : ℕ) : Prop :=
  Free (bindings l) j ∨ Dirent.size * j = l.length

theorem Vacant.le {l : Bytes} (h : Vacant l j) :
    Dirent.size * j ≤ l.length := by
  rcases h with hfree | heq
  · have := (List.getElem?_eq_some_iff.mp hfree).1
    rw [length_bindings] at this
    simp only [Dirent.size] at *
    omega
  · exact le_of_eq heq

theorem emptyDirent_vacant (m b : ℕ) (h : Loaded s k dp i n)
    (hdir : n.type = T_DIR)
    (hend : b + m = (n.data.length + (Dirent.size - 1)) / Dirent.size)
    (hread : Dirent.size * b ≤ n.data.length) :
    Sat (emptyDirent dp (Dirent.size * (b + m))
      ((List.range' b m).map (Dirent.size * ·))) s (fun off t =>
        Still k k s t ∧ ∃ j, off = Dirent.size * j ∧ Vacant n.data j)
      fun _ => True := by
  induction m generalizing b s with
  | zero =>
      refine Sat.pure ⟨.refl h.world, b, rfl, .inr ?_⟩
      simp only [Dirent.size] at *
      omega
  | succ m ih =>
      have hdev : n.type ≠ T_DEV := by
        rw [hdir]
        decide
      refine (readDirent_still (j := b) _ h hdev).andThen ?_
      rintro _ t ⟨ht, hin, rfl⟩
      apply Sat.ite
      · intro hzero
        refine Sat.pure ⟨ht, b, rfl, .inl ?_⟩
        rw [Free, getElem?_bindings_of_le hin, bindingOf, if_pos hzero]
      · intro _
        have hrest := ih (b + 1) (h.still ht h.mem h.mem) (by omega) (by
          simp only [Dirent.size] at *
          omega)
        rw [show b + 1 + m = b + (m + 1) by omega] at hrest
        refine hrest.imp ?_
        rintro off u ⟨hu, hj⟩
        exact ⟨ht.trans hu, hj⟩

/-- A directory with a new entry in slot `j`. -/
def linkedNode (n : Node) (j : ℕ) (name : Bytes) (inum : ℕ) : Node :=
  { n with
    data := splice n.data (Dirent.size * j) (linkDirent name inum).bytes }

/-- `dirlink` gives up on a name that is present, and otherwise writes an entry
into a vacant slot. -/
theorem dirlink_changed {inum : ℕ} (name : Bytes)
    (h : Loaded s (k.lock dp) dp i n) (hop : k.op = true)
    (hinum : inum < s.sb.ninodes) :
    Sat (dirlink dp name inum) s (fun r t => n.type = T_DIR ∧
      if r = false then Calm (k.lock dp) (k.lock dp) s t
      else (∀ j inum, ¬Binds (bindings n.data) j (cutName name) inum) ∧
        ∃ j, Vacant n.data j ∧ Changed (k.lock dp) (k.lock dp) i
          (linkedNode n j name inum) s t) fun _ => True := by
  refine (dirlookup_searched name h).andThen ?_
  rintro (_ | ⟨c, off⟩) t ⟨hdir, ht⟩
  · obtain ⟨hstill, hnone⟩ := ht
    have hloaded := h.still hstill h.mem h.mem
    apply getDin_bind
    rw [hloaded.offsets_eq]
    have hempty := emptyDirent_vacant _ 0 hloaded hdir (Nat.zero_add _)
      (Nat.zero_le _)
    rw [Nat.zero_add, ← List.range_eq_range'] at hempty
    have hlen : ((slotRange n.data).map (Dirent.size * ·)).length =
        (n.data.length + (Dirent.size - 1)) / Dirent.size := by
      rw [List.length_map, slotRange, List.length_range]
    simp only [hlen]
    refine hempty.andThen ?_
    rintro _ u ⟨hu, j, rfl, hj⟩
    have hboth := hstill.trans hu
    have hentries : ∀ de ∈ dirents (splice n.data (Dirent.size * j)
        (linkDirent name inum).bytes), de.inum.toNat < u.sb.ninodes := by
      intro de hde
      rw [hboth.frame.sb]
      rcases mem_dirents_splice hj.le hde with rfl | hold
      · refine lt_of_le_of_lt ?_ hinum
        change (BitVec.ofNat 16 inum).toNat ≤ inum
        rw [BitVec.toNat_ofNat]
        exact Nat.mod_le _ _
      · exact h.world.intact.entries i n h.node hdir de hold
    refine (writei_changed _ _ (h.still hboth h.mem h.mem) hop (by
      rw [hdir]
      decide) fun _ => hentries).andThen ?_
    intro r v hr
    split at hr
    · rw [hr.1]
      exact Sat.throw trivial
    · obtain ⟨rfl, hv⟩ := hr
      rw [(linkDirent name inum).length_bytes, if_pos rfl]
      refine Sat.pure ⟨hdir, ?_⟩
      rw [if_neg (by decide)]
      refine ⟨fun j inum hb => hnone j (mem_slotRange hb) inum hb, j, hj, ?_⟩
      exact hboth.changed hv
  · obtain ⟨j, m, -, -, hstill, -⟩ := ht
    refine (iput_calm hstill.world hop).andThen ?_
    rintro - u hu
    refine Sat.pure ⟨hdir, ?_⟩
    rw [if_pos rfl]
    exact hstill.calm.trans hu

/-! ## Paths -/

/-- The inode in slot `c` is a valid copy of a directory. -/
def State.IsDir (s : State P) (c : Slot) : Prop :=
  (s.icache c).valid = true ∧
    ∃ n, s.node (s.icache c).inum = some n ∧ n.type = T_DIR

/-- What `namex` returns; with `nameiparent` this is a directory. -/
def Named (k : Ctx P) (nameiparent : Bool) (r : Option (Slot × Bytes))
    (s t : State P) : Prop :=
  Calm k (k.holds (r.map Prod.fst)) s t ∧
    ∀ c name, r = some (c, name) → nameiparent = true → t.IsDir c

section Namex

variable {nameiparent : Bool}

theorem Calm.named {r : Option (Slot × Bytes)} (h : Calm k k₂ s t)
    (h' : Named k nameiparent r t u) : Named k nameiparent r s u :=
  ⟨h.trans h'.1, h'.2⟩

theorem namexEnd_named (h : World s (k.hold ip)) (hop : k.op = true)
    (name : Bytes) :
    Sat (namexEnd nameiparent ip name) s
      (fun r t => Named k nameiparent r s t) fun _ => True := by
  apply Sat.ite
  · intro _
    refine (iput_calm h hop).andThen ?_
    rintro - t ht
    exact Sat.pure ⟨ht, fun c name hr => nomatch hr⟩
  · intro hnot
    refine Sat.pure ⟨?_, fun _ _ _ hparent => absurd hparent hnot⟩
    exact (Still.refl h).calm.mono fun c hc => Multiset.mem_cons_of_mem hc

theorem namexLoop_named (hop : k.op = true) (fuel : ℕ) :
    ∀ (ip : Slot) (path name : Bytes) (s : State P), World s (k.hold ip) →
      Sat (namexLoop nameiparent fuel ip path name) s
        (fun r t => Named k nameiparent r s t) fun _ => True := by
  induction fuel with
  | zero => exact fun ip path name s h => namexEnd_named h hop name
  | succ fuel ih =>
      intro ip path name s h
      have hmem : ip ∈ (k.hold ip).refs := Multiset.mem_cons_self ip k.refs
      have hsub : ∀ c ∈ k.refs, c ∈ (k.hold ip).refs :=
        fun c hc => Multiset.mem_cons_of_mem hc
      rw [namexLoop]
      split
      · exact namexEnd_named h hop name
      next name rest _ =>
      refine (ilock_still h hmem).andThen ?_
      rintro - t ⟨ht, hvalid⟩
      obtain ⟨n, hn⟩ := ht.world.loaded hmem hvalid
      apply getDin_bind
      rw [hn.type_eq]
      apply Sat.ite
      · intro _
        refine (iunlockput_calm ht.world hop).andThen ?_
        rintro - u hu
        exact Sat.pure ⟨(ht.mono hsub).calm.trans hu, fun c nm hr => by cases hr⟩
      intro hdir
      rw [not_not] at hdir
      apply Sat.ite
      · intro _
        refine (iunlock_still ht.world).andThen ?_
        rintro - u hu
        have hboth : Still (k.hold ip) (k.hold ip) s u := ht.trans hu
        have hlast := hn.still hu hmem hmem
        refine Sat.pure ⟨(hboth.mono hsub).calm, fun c nm hr _ => ?_⟩
        obtain ⟨rfl, -⟩ := Prod.mk.inj (Option.some.inj hr)
        exact ⟨hlast.valid, n, by rw [hlast.inum, hlast.node], hdir⟩
      intro _
      refine (dirlookup_searched name hn).andThen ?_
      rintro (_ | ⟨next, off⟩) u ⟨-, hu⟩
      · obtain ⟨hstill, -⟩ := hu
        refine (iunlockput_calm hstill.world hop).andThen ?_
        rintro - v hv
        have hboth : Still (k.hold ip) ((k.hold ip).lock ip) s u :=
          ht.trans (hstill.mono fun _ hc => hc)
        exact Sat.pure ⟨(hboth.mono hsub).calm.trans hv,
          fun c nm hr => by cases hr⟩
      · obtain ⟨j, inum, -, -, hstill, -⟩ := hu
        have hboth : Still (k.hold ip) (((k.hold ip).lock ip).hold next) s u :=
          ht.trans (hstill.mono fun _ hc => hc)
        have hworld := hboth.world
        rw [← Ctx.hold_lock, Ctx.hold_comm] at hworld
        refine (iunlockput_calm (k := k.hold next) hworld hop).andThen ?_
        rintro - v hv
        have hnext : Calm k (k.hold next) s v := (hboth.mono hsub).calm.trans
          (hv.mono fun c hc => Multiset.mem_cons_of_mem hc)
        exact (ih next rest name v hnext.world).imp fun _ _ hw =>
          hnext.named hw

/-- Looking up a path changes no node that somebody refers to. -/
theorem namex_named (p : P) (path : Bytes) (h : World s k)
    (hop : k.op = true) (hcwd : s.cwd p ∈ k.refs) :
    Sat (namex p path nameiparent) s
      (fun r t => Named k nameiparent r s t) fun _ => True := by
  have hstart : Sat (if path.headD 0 = slash then iget ROOTINO
      else do
        let s ← get
        idup (s.cwd p)) s (fun c t => Still k (k.hold c) s t)
      fun _ => True := by
    apply Sat.ite
    · intro _
      exact (iget_still h h.intact.owned.layout.root).imp fun _ _ ht => ht.1
    · intro _
      refine .bind (Sat.get ((idup_still h hcwd).imp ?_))
      rintro c t ⟨rfl, ht⟩
      exact ht
  refine hstart.andThen fun c t ht => ?_
  exact (namexLoop_named hop _ c path [] t ht.world).imp fun _ _ hu =>
    ht.calm.named hu

theorem namei_calm (p : P) (path : Bytes) (h : World s k)
    (hop : k.op = true) (hcwd : s.cwd p ∈ k.refs) :
    Sat (namei p path) s (fun r t => Calm k (k.holds r) s t)
      fun _ => True := by
  refine (namex_named p path h hop hcwd).andThen ?_
  intro r t ht
  exact Sat.pure ht.1

end Namex

end ZtlOs.Kernel
