import ZtlOs.Kernel.OpenRuns

/-!
# The reservation of filewrite

`filewrite` splits a write into transactions by a formula over `LOGSIZE`, but
`begin_op` reserves `MAXOPBLOCKS` blocks for each.  Which writes keep to the
reservation.
-/

namespace ZtlOs.Kernel

open ZtlOs.Support ZtlOs.Support.Program ZtlOs.Fs

section

variable {P : Type} {s t : State P} {k : Ctx P} {f : FileSlot} {i : ℕ}
variable {n : Node} {addr : Bytes}

/-! ## One transaction -/

/-- Bytes touch at least as many blocks as they fill. -/
theorem le_card_touched (off n : ℕ) : n / BSIZE ≤ (touched off n).card := by
  have hsub : (Finset.range (n / BSIZE)).image (fun j => off / BSIZE + j) ⊆
      touched off n := by
    intro bn hbn
    obtain ⟨j, hj, rfl⟩ := Finset.mem_image.mp hbn
    have hj := Finset.mem_range.mp hj
    refine mem_touched.mpr ⟨j * BSIZE, ?_, ?_⟩
    · simp only [BSIZE] at *
      omega
    · exact Nat.add_mul_div_right _ _ (by decide)
  have hinj : Function.Injective fun j => off / BSIZE + j :=
    add_right_injective _
  have hcard := Finset.card_le_card hsub
  rwa [Finset.card_image_of_injective _ hinj, Finset.card_range] at hcard

/-- A full chunk is too large, wherever it lies. -/
theorem lt_writeCost (g : ℕ → ℕ) (size off : ℕ) :
    MAXOPBLOCKS < writeCost g size off maxWrite := by
  have hcard := le_card_touched off maxWrite
  have hfull : MAXOPBLOCKS < maxWrite / BSIZE := by decide
  rw [writeCost]
  omega

/-- The write of `l` bytes at offset `off` keeps to the reservation, or is
refused. -/
def KeepsReservation (g : ℕ → ℕ) (size off l : ℕ) : Prop :=
  Refused size off l ∨ writeCost g size off l ≤ MAXOPBLOCKS

instance (g : ℕ → ℕ) (size off l : ℕ) :
    Decidable (KeepsReservation g size off l) :=
  inferInstanceAs (Decidable (_ ∨ _))

theorem WroteOp.fits_iff {off l : ℕ} (h : WroteOp i n off l s t)
    (hsize : s.sb.size ≤ BPB) : Fits t.trace ↔
      KeepsReservation (s.lists i) n.data.length off l ∧ Fits s.trace := by
  obtain ⟨B, hB, hcard⟩ := h
  have hcost : B.card ≤ MAXOPBLOCKS ↔
      KeepsReservation (s.lists i) n.data.length off l := by
    rw [hcard hsize, KeepsReservation]
    split
    · next href => simp [href]
    · next hacc => simp [hacc]
  change (∀ B ∈ t.brackets, B.card ≤ MAXOPBLOCKS) ↔ _
  rw [hB, List.forall_mem_cons, hcost]
  rfl

/-- Nothing is written. -/
theorem keepsReservation_zero (g : ℕ → ℕ) (size off : ℕ) :
    KeepsReservation g size off 0 := by
  by_cases hlt : size < off
  · exact .inl (.inl hlt)
  · right
    simp [writeCost, touched, hlt]

/-! ## filewrite -/

theorem filewriteLoop_nil (f : FileSlot) (fuel : ℕ) :
    filewriteLoop (P := P) f fuel [] = pure true := by
  cases fuel <;> rfl

/-- What has been passed to `log_write` stays in the trace. -/
theorem filewriteLoop_fits_before (hk : k.toMon = .idle)
    (hdir : n.type ≠ T_DIR) (hdev : n.type ≠ T_DEV) (fuel : ℕ) (addr : Bytes)
    (h : Loaded s k (k.ftable f).ip i n) (hsize : s.sb.size ≤ BPB) :
    Sat (filewriteLoop f fuel addr) s
      (fun _ t => Fits t.trace → Fits s.trace) fun _ => True := by
  induction fuel generalizing k n s addr with
  | zero => exact Sat.pure id
  | succ fuel ih =>
      apply Sat.ite
      · intro _
        exact Sat.pure id
      intro _
      refine filewriteRound_bind hk hdir hdev _ h ?_ ?_
      · intro _ t _ ht
        exact Sat.pure fun hfits => ((ht.fits_iff hsize).mp hfits).2
      intro _ t hdone ht
      apply Sat.ite
      · intro _
        exact Sat.throw trivial
      intro _
      have hslot : ((k.seek f ((k.ftable f).off +
          (addr.take (min addr.length maxWrite)).length)).ftable f).ip =
          (k.ftable f).ip := by
        rw [Ctx.seek_ftable]
      have hloaded := h.changed hdone h.mem h.mem
      rw [← hslot] at hloaded
      refine (ih (k := k.seek f _) (n := n.written _ _) hk hdir hdev _ hloaded
        (hdone.frame.sb ▸ hsize)).imp fun _ u hu hfits => ?_
      exact ((ht.fits_iff hsize).mp (hu hfits)).2

/-- The first transaction decides. -/
theorem filewriteLoop_fits (hk : k.toMon = .idle)
    (hdir : n.type ≠ T_DIR) (hdev : n.type ≠ T_DEV) (addr : Bytes)
    (h : Loaded s k (k.ftable f).ip i n) (hsize : s.sb.size ≤ BPB)
    (hfits : Fits s.trace) :
    Sat (filewriteLoop f addr.length addr) s (fun _ t => Fits t.trace ↔
      KeepsReservation (s.lists i) n.data.length (k.ftable f).off
        (min addr.length maxWrite)) fun _ => True := by
  cases hlen : addr.length with
  | zero =>
      rw [Nat.zero_min]
      exact Sat.pure (iff_of_true hfits (keepsReservation_zero ..))
  | succ m =>
      have htake : (addr.take (min (m + 1) maxWrite)).length =
          min (m + 1) maxWrite := by
        rw [List.length_take]
        omega
      apply Sat.ite
      · intro hnil
        omega
      intro _
      rw [hlen]
      refine filewriteRound_bind hk hdir hdev _ h ?_ ?_
      · rw [htake]
        intro hout t _ ht
        exact Sat.pure (iff_of_true ((ht.fits_iff hsize).mpr
          ⟨.inl hout, hfits⟩) (.inl hout))
      rw [htake]
      intro hacc t hdone ht
      have hiff := ht.fits_iff hsize
      simp only [ne_eq, not_true_eq_false, if_false]
      by_cases hle : m + 1 ≤ maxWrite
      · rw [List.drop_of_length_le (by omega), filewriteLoop_nil]
        exact Sat.pure (hiff.trans (and_iff_left hfits))
      · have hbig : ¬KeepsReservation (s.lists i) n.data.length
            (k.ftable f).off (min (m + 1) maxWrite) := by
          rw [KeepsReservation, not_or, not_le]
          refine ⟨hacc, ?_⟩
          rw [Nat.min_eq_right (by omega)]
          exact lt_writeCost ..
        have hslot : ((k.seek f ((k.ftable f).off +
            min (m + 1) maxWrite)).ftable f).ip = (k.ftable f).ip := by
          rw [Ctx.seek_ftable]
        have hloaded := h.changed hdone h.mem h.mem
        rw [← hslot] at hloaded
        refine (filewriteLoop_fits_before (k := k.seek f _)
          (n := n.written _ _) hk hdir hdev _ _ hloaded
            (hdone.frame.sb ▸ hsize)).imp fun _ u hu => ?_
        refine iff_of_false (fun hlate => hbig ?_) hbig
        exact (hiff.mp (hu hlate)).1

theorem filewrite_fits [Fintype P] (addr : Bytes) (hk : k.Idle)
    (hs : World s k) (hf : Files s) (hsize : s.sb.size ≤ BPB)
    (hfits : Fits s.trace) (href : (s.ftable f).refersTo (s.ftable f).ip)
    (hn : s.node (s.icache (s.ftable f).ip).inum = some n)
    (hfile : n.type = T_FILE) :
    Sat (filewrite f addr) s (fun _ t => Fits t.trace ↔
      (s.ftable f).writable = false ∨
        KeepsReservation (s.lists (s.icache (s.ftable f).ip).inum)
          n.data.length (s.ftable f).off (min addr.length maxWrite))
      fun _ => True := by
  have hvalid := hf.valid f _ href
  have hftable := hs.holds.ftable
  refine .bind (Sat.get ?_)
  rw [hftable] at href hn hvalid ⊢
  apply Sat.ite
  · intro hclosed
    exact Sat.pure (iff_of_true hfits (.inl hclosed))
  intro hwritable
  simp only [hwritable, false_or]
  rw [href.2.1]
  obtain ⟨n', hn'⟩ := hs.loaded (hk.mem_refs href) hvalid
  obtain rfl := Option.some.inj (hn.symm.trans hn'.node)
  refine (filewriteLoop_fits hk.mon ?_ ?_ addr hn' hsize hfits).andThen ?_
  · rw [hfile]
    decide
  · rw [hfile]
    decide
  · intro ok t ht
    apply Sat.ite <;> exact fun _ => Sat.pure ht

/-- On a volume whose bitmap is one block, a write to an open file keeps to
the reservation if and only if its first chunk is refused or passes at most
`MAXOPBLOCKS` blocks to `log_write`. -/
theorem filewrite_fits_iff [DecidableEq P] [Fintype P] {disk : ℕ → Block}
    {v : List (P × Call)} {r : Option ℕ} (hdisk : Formatted disk)
    (hs : Run callStep (boot disk) v s) (hsize : s.sb.size ≤ BPB)
    (href : (s.ftable f).refersTo (s.ftable f).ip)
    (hn : s.node (s.icache (s.ftable f).ip).inum = some n)
    (hfile : n.type = T_FILE)
    (hrun : filewrite f addr s.start = .ok (r, t)) : Fits t.trace ↔
      (s.ftable f).writable = false ∨
        KeepsReservation (s.lists (s.icache (s.ftable f).ip).inum)
          n.data.length (s.ftable f).off (min addr.length maxWrite) := by
  have hrest := hdisk.atRest_run hs
  obtain ⟨k, hk, hworld⟩ := hrest.world
  have hstart : Fits s.start.trace := fun B hB => absurd hB List.not_mem_nil
  exact (filewrite_fits addr hk hworld hrest.files_start hsize hstart href hn
    hfile).returns hrun

end

/-! ## A write of 4097 bytes -/

/-- A volume with an empty root directory and twelve free blocks. -/
def rootVolume : ℕ → Block := fun b =>
  if b = 2 then
    Block.zero.setDinode 1 { Dinode.zero with type := T_DIR, nlink := 1 }
  else emptyVolume b

/-- The file `/a` is created. -/
def rootOpens : List (Unit × Call) :=
  [((), .open (some [0x2f, 0x61]) (O_CREATE ||| O_RDWR))]

/-- The first entry of the file table. -/
def firstFile : FileSlot :=
  ⟨0, by decide⟩

/-- The node of the file in the first entry of the file table. -/
def State.firstNode (s : State Unit) : Option Node :=
  s.node (s.icache (s.ftable firstFile).ip).inum

/-- The first entry of the file table is an open file, and a write to it leaves
a trace that passes the test. -/
def checkWrite (addr : Bytes) (test : Node → List Event → Bool)
    (s : State Unit) : Bool :=
  match s.firstNode, filewrite firstFile addr s.start with
  | some n, .ok (_, t) =>
      decide (s.sb.size ≤ BPB ∧ n.type = T_FILE ∧
        (s.ftable firstFile).refersTo (s.ftable firstFile).ip) &&
      test n t.trace
  | _, _ => false

theorem of_checkWrite {s : State Unit} {addr : Bytes}
    {test : Node → List Event → Bool} (h : checkWrite addr test s = true) :
    ∃ n r t, s.firstNode = some n ∧
      filewrite firstFile addr s.start = .ok (r, t) ∧ s.sb.size ≤ BPB ∧
      n.type = T_FILE ∧
      (s.ftable firstFile).refersTo (s.ftable firstFile).ip ∧
      test n t.trace = true := by
  unfold checkWrite at h
  split at h
  · next n r t hn hrun =>
      rw [Bool.and_eq_true, decide_eq_true_eq] at h
      obtain ⟨⟨hsize, hfile, href⟩, htest⟩ := h
      exact ⟨n, r, t, hn, hrun, hsize, hfile, href, htest⟩
  · cases h

theorem rootVolume_formatted : Formatted rootVolume := by
  have hsb : (rootVolume 1).superblock = emptyFile.sb := by decide +kernel
  have haddrs : ∀ i < 8, ∀ k, (live emptyFile.sb
      (inodeOf emptyFile.sb rootVolume) i).addrs k = 0 := by decide +kernel
  have hsize : ∀ i < 8, (inodeOf emptyFile.sb rootVolume i).size = 0 := by
    decide +kernel
  constructor
  · rw [hsb]
    exact owned_of_empty hsb (by decide +kernel)
      (fun i hi => funext (haddrs i hi)) hsize
  · intro i n hn _ de hde
    obtain ⟨hi, -, rfl⟩ := of_node_eq_some hn
    have hlen := (boot (P := Unit) rootVolume).length_bytes i
    change _ = (inodeOf (rootVolume 1).superblock rootVolume i).size.toNat
      at hlen
    change i < (rootVolume 1).superblock.ninodes at hi
    rw [hsb] at hlen hi
    rw [hsize i hi] at hlen
    rw [List.length_eq_zero_iff.mp hlen] at hde
    simp [dirents] at hde

/-- Three bytes at the beginning of a new file. -/
theorem filewrite_fits_iff_root : ∃ (s t : State Unit) (r : Option ℕ),
    Run callStep (boot rootVolume) rootOpens s ∧
      filewrite firstFile [1, 2, 3] s.start = .ok (r, t) ∧ Fits t.trace := by
  obtain ⟨s, hs, hcheck⟩ := Run.exists_of_exec callStep (boot rootVolume)
    rootOpens (fun s => checkWrite [1, 2, 3] (fun n _ =>
      decide (KeepsReservation (s.lists (s.icache (s.ftable firstFile).ip).inum)
        n.data.length (s.ftable firstFile).off 3)) s) (by decide +kernel)
  obtain ⟨n, r, t, hn, hrun, hsize, hfile, href, htest⟩ := of_checkWrite hcheck
  have hiff := filewrite_fits_iff rootVolume_formatted hs hsize href hn hfile
    hrun
  exact ⟨s, t, r, hs, hrun, hiff.mpr (.inr (of_decide_eq_true htest))⟩

/-- One byte more takes an eleventh block, in one transaction. -/
theorem filewrite_exceeds_reservation : Formatted rootVolume ∧
    ∃ (s t : State Unit) (n : Node) (r : Option ℕ),
      Run callStep (boot rootVolume) rootOpens s ∧ s.sb.size ≤ BPB ∧
        (s.ftable firstFile).refersTo (s.ftable firstFile).ip ∧
        s.firstNode = some n ∧ n.type = T_FILE ∧
        (s.ftable firstFile).off ≤ n.data.length ∧
        filewrite firstFile (List.replicate 4097 0) s.start = .ok (r, t) ∧
        ¬Fits t.trace := by
  refine ⟨rootVolume_formatted, ?_⟩
  obtain ⟨s, hs, hcheck⟩ := Run.exists_of_exec callStep (boot rootVolume)
    rootOpens (fun s => checkWrite (List.replicate 4097 0) (fun n tr =>
      decide ((s.ftable firstFile).off ≤ n.data.length ∧ ¬Fits tr)) s)
    (by decide +kernel)
  obtain ⟨n, r, t, hn, hrun, hsize, hfile, href, htest⟩ := of_checkWrite hcheck
  obtain ⟨hoff, hfits⟩ := of_decide_eq_true htest
  exact ⟨s, t, n, r, hs, hsize, href, hn, hfile, hoff, hrun, hfits⟩

end ZtlOs.Kernel
