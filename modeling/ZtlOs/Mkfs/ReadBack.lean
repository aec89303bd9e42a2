import ZtlOs.Kernel.Reading
import ZtlOs.Mkfs.WellFormed

/-!
# Reading an image in the kernel

mkfs and the kernel implement the same format twice.  Whatever is passed to
`iappend`, in whatever pieces, is what `ilock` and `readi` find in the image.
-/

namespace ZtlOs.Mkfs

open ZtlOs.Support ZtlOs.Fs

/-- What mkfs can have done before `finish`: after `format`, `n` calls of
`ialloc` and any calls of `iappend`, where `c i` is what has been passed for
inode `i`. -/
inductive Building : State → Contents → ℕ → Prop
  | format {s : State} : format start = .ok ((), s) →
      Building s (fun _ => []) 0
  | ialloc {s t : State} {c : Contents} {n : ℕ} {type : BitVec 16}
      {inum : BitVec 32} : Building s c n → type = T_DIR ∨ type = T_FILE →
      ialloc type s = .ok (inum, t) → Building t c (n + 1)
  | iappend {s t : State} {c : Contents} {n : ℕ} {inum : BitVec 32}
      {p : List (BitVec 8)} : Building s c n → 1 ≤ inum.toNat →
      inum.toNat ≤ n → iappend inum p s = .ok ((), t) →
      Building t (Function.update c inum.toNat (c inum.toNat ++ p)) n

/-- The inodes of the image are directories and files. -/
def Typed (s : State) : Prop :=
  ∀ i, s.Used i → (s.inode i).type = T_DIR ∨ (s.inode i).type = T_FILE

section Building

variable {s t : State} {c : Contents} {n : ℕ} {rootino : BitVec 32}

/-- As long as the numbers of the inodes lie in the inode area, the image is
intact. -/
theorem Building.intact (h : Building s c n)
    (hn : n < ninodeblocks * IPB) :
    Intact s c ∧ s.freeinode.toNat = n + 1 ∧ Typed s := by
  induction h with
  | format hs =>
      obtain rfl := format_spec (E := fun _ => True) |>.returns hs
      refine ⟨formatted_intact, rfl, ?_⟩
      rintro i ⟨h₁, h₂⟩
      change i < 1 at h₂
      omega
  | @ialloc s t c n type inum _ htype hs ih =>
      obtain ⟨hintact, hfree, htyped⟩ := ih (by omega)
      have hspec := ialloc_spec (E := fun _ => True) hintact type
        (by rw [hfree]; exact hn)
      have halloc := hspec.returns hs
      refine ⟨halloc.intact, by rw [halloc.freeinode, hfree], ?_⟩
      intro i hi
      rw [halloc.type i hi]
      split
      · exact htype
      · next hne =>
          refine htyped i ⟨hi.1, ?_⟩
          have := hi.2
          rw [halloc.freeinode] at this
          rw [halloc.inum_eq] at hne
          omega
  | @iappend s t c n inum p _ h₁ h₂ hs ih =>
      obtain ⟨hintact, hfree, htyped⟩ := ih hn
      have hused : s.Used inum.toNat := ⟨h₁, by omega⟩
      have happ := (iappend_spec hintact hused p).returns hs
      refine ⟨happ.intact, by rw [happ.freeinode, hfree], ?_⟩
      intro i hi
      have hold := hi.congr happ.freeinode.symm
      rw [happ.type i hold]
      exact htyped i hold

end Building

/-! ## The kernel -/

open ZtlOs.Kernel (Bytes Slot Mapped bytesAt)

section Kernel

variable {P : Type} {c : Contents} {i : ℕ}

/-- `ilock(ip)` and then `readi(ip, dst, off, n)`. -/
def lockRead (ip : Slot) (off n : ℕ) : Kernel.M P (Option Bytes) := do
  Kernel.ilock ip
  Kernel.readi ip off n

/-- A kernel that runs on the image `t`, where `iget` has just returned the
entry `ip` for inode `i`. -/
structure Mounted (s : Kernel.State P) (t : State) (ip : Slot) (i : ℕ) :
    Prop where
  disk : s.disk = t.sect
  sb : s.sb = (t.sect 1).superblock
  inum : (s.icache ip).inum = i
  ref : 1 ≤ (s.icache ip).ref
  locked : (s.icache ip).locked = false
  valid : (s.icache ip).valid = false
  bufs : s.bufs = []

/-- The blocks of a content are those that the kernel looks for. -/
theorem Good.mapped {t : State} (h : Good t t.view c) (hu : t.Used i)
    (hsize : (t.inode i).size.toNat = (c i).length) :
    Mapped t.sect (t.inode i) := by
  intro bn hbn
  rw [hsize] at hbn
  have := h.laid.mapped i bn hbn
  rw [slots, State.view_of_used hu] at this
  exact this

theorem Good.bytesAt_eq {t : State} (h : Good t t.view c) (hu : t.Used i)
    {off n : ℕ} (hoff : off ≤ (c i).length) :
    bytesAt t.sect (t.inode i) off (min n ((c i).length - off)) =
      ((c i).drop off).take n := by
  apply List.ext_getElem
  · rw [bytesAt, List.length_map, List.length_range, List.length_take,
      List.length_drop]
  · intro j hj _
    rw [bytesAt, List.length_map, List.length_range] at hj
    have hlt : off + j < (c i).length := by omega
    have := h.holds i (off + j) hlt
    rw [State.view_of_used hu] at this
    rw [List.getElem_take, List.getElem_drop, ← this]
    simp [bytesAt]

/-- The kernel reads the bytes of a content from the image. -/
theorem lockRead_spec {s : Kernel.State P} {t : State} {ip : Slot}
    (hm : Mounted s t ip i) (h : Good t t.view c) (hu : t.Used i)
    (hsb : t.sect 1 = superblock)
    (hsize : (t.inode i).size.toNat = (c i).length)
    (htype : (t.inode i).type = T_DIR ∨ (t.inode i).type = T_FILE)
    {off n : ℕ} (hoff : off ≤ (c i).length) (hn : off + n < 2 ^ 32) :
    ∃ u, lockRead ip off n s = .ok (some (((c i).drop off).take n), u) := by
  have hnewest : s.newest ip = t.inode i := by
    rw [Kernel.State.newest, hm.valid, if_neg Bool.false_ne_true, hm.disk,
      hm.sb, hm.inum, hsb, superblock_superblock]
    rfl
  have hne : (t.inode i).type ≠ 0 ∧ (t.inode i).type ≠ T_DEV := by
    rcases htype with h | h <;> rw [h] <;> decide
  have hbufs : ¬s.bufs ≠ [] := fun hb => hb hm.bufs
  have hspec : Program.Sat (lockRead ip off n) s
      (fun r _ => r = some (((c i).drop off).take n)) fun _ => False := by
    refine (Kernel.ilock_sat ip ?_ ?_ hbufs ?_).andThen ?_
    · intro hlt
      have := hm.ref
      omega
    · intro hlock
      rw [hm.locked] at hlock
      cases hlock
    · intro _ hzero
      rw [hnewest] at hzero
      exact hne.1 hzero
    · rintro _ u ⟨-, hu', -⟩
      have hdin : (u.icache ip).din = t.inode i := by
        rw [hu', ← hnewest]
        simp [Kernel.State.setInode, Kernel.State.lockedInode]
      have hdisk : u.disk = t.sect := by
        rw [hu', ← hm.disk]
        rfl
      have hbufs' : ¬u.bufs ≠ [] := by
        rw [hu']
        exact hbufs
      have hmapped := h.mapped hu hsize
      rw [← hdisk] at hmapped
      refine (Kernel.readi_mapped hdin hne.2 hmapped hbufs').imp ?_
      rintro r v ⟨rfl, -⟩
      rw [Kernel.readResult, hsize, if_neg (by omega), hdisk,
        h.bytesAt_eq hu hoff]
  obtain ⟨r, u, hrun, rfl⟩ := hspec.exists_ok fun _ => id
  exact ⟨u, hrun⟩

/-- What has been passed to `iappend` for an inode other than the root is what
the kernel reads, as long as all inodes are in the inode area. -/
theorem readBack {s t : State} {ks : Kernel.State P} {ip : Slot} {n : ℕ}
    {off m : ℕ} (hb : Building s c n) (hn : n < ninodeblocks * IPB)
    (hfinish : finish (BitVec.ofNat 32 ROOTINO) s = .ok ((), t))
    (hi : ROOTINO < i) (hle : i ≤ n) (hm : Mounted ks t ip i)
    (hoff : off ≤ (c i).length) (hlt : off + m < 2 ^ 32) :
    ∃ u, lockRead ip off m ks = .ok (some (((c i).drop off).take m), u) := by
  obtain ⟨hintact, hfree, htyped⟩ := hb.intact hn
  have hroot : s.Used (BitVec.ofNat 32 ROOTINO).toNat := by
    change 1 ≤ 1 ∧ 1 < s.freeinode.toNat
    change 1 < i at hi
    omega
  have hfin := (finish_spec (E := fun _ => True) hintact hroot).returns hfinish
  have hused : s.Used i := ⟨hi.le, by omega⟩
  have hused' : t.Used i := hused.congr hfin.freeinode
  refine lockRead_spec hm hfin.good hused' hfin.superblock ?_ ?_ hoff hlt
  · exact hfin.sizes i hused' (by exact hi.ne')
  · rw [hfin.type i hused']
    exact htyped i hused

end Kernel

/-! ## Too many inodes -/

section Crowded

/-- A kernel that has just started on the image, with inode `i` in its first
entry. -/
def mounted (t : State) (i : ℕ) : Kernel.State Unit where
  disk := t.sect
  sb := (t.sect 1).superblock
  icache := fun _ => ⟨i, 1, false, false, .zero⟩
  ftable := fun _ => ⟨.none, 0, false, false, 0, 0⟩
  ofile := fun _ _ => none
  cwd := fun _ => 0
  bufs := []
  input := []
  trace := []

theorem mounted_mounted (t : State) (i : ℕ) : Mounted (mounted t i) t 0 i :=
  ⟨rfl, rfl, rfl, le_rfl, rfl, rfl, rfl⟩

/-- `n` files are created. -/
def createFiles : ℕ → M Unit
  | 0 => pure ()
  | n + 1 => do
      let _ ← ialloc T_FILE
      createFiles n

theorem Building.createFiles {s t : State} {c : Contents} {k n : ℕ}
    (h : Building s c k) (hrun : createFiles n s = .ok ((), t)) :
    Building t c (k + n) := by
  induction n generalizing s k with
  | zero =>
      cases hrun
      exact h
  | succ n ih =>
      obtain ⟨inum, u, hu, ht⟩ := Program.bind_eq_ok hrun
      have := ih (h.ialloc (.inr rfl) hu) ht
      rwa [Nat.add_right_comm] at this

/-- `n` files are created, and the last one gets the bytes `p`. -/
def image (n : ℕ) (p : List (BitVec 8)) : M Unit := do
  createFiles n
  iappend (BitVec.ofNat 32 n) p
  finish (BitVec.ofNat 32 ROOTINO)

/-- What the kernel reads from the last file. -/
def imageRead (n : ℕ) (p : List (BitVec 8)) (off m : ℕ) :
    Option (Option Bytes) :=
  match image n p formatted with
  | .error _ => none
  | .ok (_, t) =>
      match lockRead 0 off m (mounted t n) with
      | .error _ => none
      | .ok (r, _) => some r

/-- The run of `image` as one that the kernel can read back. -/
theorem image_building {n : ℕ} {p : List (BitVec 8)} {t : State}
    (hn : 1 ≤ (BitVec.ofNat 32 n).toNat) (hle : (BitVec.ofNat 32 n).toNat ≤ n)
    (h : image n p formatted = .ok ((), t)) :
    ∃ s, Building s (Function.update (fun _ => []) (BitVec.ofNat 32 n).toNat p)
        n ∧ finish (BitVec.ofNat 32 ROOTINO) s = .ok ((), t) := by
  obtain ⟨_, s₁, h₁, hrun⟩ := Program.bind_eq_ok h
  obtain ⟨_, s₂, h₂, h₃⟩ := Program.bind_eq_ok hrun
  obtain ⟨_, s₀, h₀, rfl⟩ := format_spec.exists_ok fun _ => id
  have hb := (Building.format h₀).createFiles h₁
  rw [Nat.zero_add] at hb
  exact ⟨s₂, hb.iappend hn hle h₂, h₃⟩

/-- Two files; the second one holds three bytes. -/
theorem readBack_image : ∃ t u, image 2 [5, 6, 7] formatted = .ok ((), t) ∧
    lockRead 0 1 9 (mounted t 2) = .ok (some [6, 7], u) := by
  have hrun : (image 2 [5, 6, 7] formatted).isOk = true := by
    decide +kernel
  cases h : image 2 [5, 6, 7] formatted with
  | error e =>
      rw [h] at hrun
      cases hrun
  | ok r =>
      obtain ⟨s, hb, hfinish⟩ := image_building (by decide) (by decide) h
      have hlt : 1 + 9 < 2 ^ 32 := by decide
      obtain ⟨u, hu⟩ := readBack hb (by decide) hfinish (by decide)
        (by decide) (mounted_mounted r.2 2) (by decide) hlt
      exact ⟨r.2, u, rfl, hu⟩

set_option maxRecDepth 100000 in
/-- The inode with number 208 is stored in the bitmap block, and is gone when
the bitmap is written. -/
theorem imageRead_crowded : imageRead 208 [1] 0 1 = some (some []) := by
  decide +kernel

/-- With 208 inodes the last one is not read back. -/
theorem readBack_crowded :
    ¬∀ (s t : State) (c : Contents) (n i : ℕ) (ks : Kernel.State Unit)
      (ip : Slot) (off m : ℕ), Building s c n →
      finish (BitVec.ofNat 32 ROOTINO) s = .ok ((), t) → ROOTINO < i →
      i ≤ n → Mounted ks t ip i → off ≤ (c i).length → off + m < 2 ^ 32 →
      ∃ u, lockRead ip off m ks = .ok (some (((c i).drop off).take m), u) := by
  intro hall
  have hread := imageRead_crowded
  unfold imageRead at hread
  split at hread
  · cases hread
  · next t hrun =>
      obtain ⟨s, hb, hfinish⟩ := image_building (by decide) (by decide) hrun
      obtain ⟨u, hu⟩ := hall _ _ _ _ 208 _ 0 0 1 hb hfinish (by decide)
        (by decide) (mounted_mounted t 208) (Nat.zero_le _) (by decide)
      rw [hu] at hread
      have hnil := Option.some.inj (Option.some.inj hread)
      exact absurd hnil (by decide)

end Crowded

end ZtlOs.Mkfs
