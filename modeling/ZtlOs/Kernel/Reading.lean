import ZtlOs.Kernel.Trace
import ZtlOs.Kernel.Volume

/-!
# Reading

An inode whose blocks are there is read without changing anything: `bmap`
finds the blocks, and `readi` returns the bytes of the content.
-/

namespace ZtlOs.Kernel

open ZtlOs.Support ZtlOs.Support.Program ZtlOs.Fs

variable {P : Type} {s : State P} {ip : Slot} {d : Dinode}
variable {E : Stop → Prop}

/-- The slot of a block that is there. -/
theorem block_ne_zero {disk : ℕ → Block} {bn : ℕ}
    (h : d.block disk bn ≠ 0) : bn < MAXFILE := by
  by_contra hle
  apply h
  apply Sound.slot_beyond
  have hmax : MAXFILE = NDIRECT + NINDIRECT := rfl
  have hslot : NSLOT = NDIRECT + 1 + NINDIRECT := rfl
  rw [dataSlot, if_neg (by omega)]
  omega

theorem block_direct {disk : ℕ → Block} {bn : ℕ} (h : bn < NDIRECT) :
    d.block disk bn = (d.addrs (Fin.ofNat (NDIRECT + 1) bn)).toNat := by
  rw [Dinode.block, dataSlot, if_pos h, Dinode.slot_direct (by omega)]
  congr 3
  exact (Nat.mod_eq_of_lt (by omega)).symm

theorem block_entry {disk : ℕ → Block} {bn : ℕ} (h : ¬bn < NDIRECT)
    (hind : d.addrs indirectSlot ≠ 0) :
    d.block disk bn = ((disk (d.addrs indirectSlot).toNat).word
      (4 * (bn - NDIRECT))).toNat := by
  rw [Dinode.block, dataSlot, if_neg h, Dinode.slot, dif_neg (by omega),
    if_neg hind, Nat.add_sub_add_right]

/-- A block that is there is found. -/
theorem bmap_mapped {bn : ℕ} (hd : (s.icache ip).din = d)
    (hne : d.block s.disk bn ≠ 0) (hE : s.bufs ≠ [] → E .sleep) :
    Sat (bmap ip bn) s (fun b t => b = d.block s.disk bn ∧ Reads s t) E := by
  apply getDin_bind
  rw [hd]
  apply Sat.ite
  · intro hlt
    rw [block_direct hlt] at hne ⊢
    apply Sat.ite
    · intro hzero
      rw [hzero] at hne
      exact absurd rfl hne
    · intro _
      exact Sat.pure ⟨rfl, Reads.refl s⟩
  · intro hge
    have hmax := block_ne_zero hne
    have hind : d.addrs indirectSlot ≠ 0 := by
      intro hzero
      apply hne
      rw [Dinode.block, dataSlot, if_neg hge, Nat.add_comm bn 1]
      have : d.slot s.disk (NDIRECT + 1 + (bn - NDIRECT)) = 0 :=
        Dinode.slot_entry_none hzero _
      rwa [show NDIRECT + 1 + (bn - NDIRECT) = 1 + bn by omega] at this
    rw [block_entry hge hind] at hne ⊢
    apply Sat.ite
    · intro _
      rw [indirectBlock, if_neg hind]
      refine .bind (Sat.pure ?_)
      apply bread_bind fun hb => hE (List.ne_nil_of_mem hb)
      apply Sat.ite
      · intro hzero
        rw [hzero] at hne
        exact absurd rfl hne
      · intro _
        apply brelse_bind
        refine Sat.pure ⟨rfl, ?_⟩
        have hblock := Reads.block s (d.addrs indirectSlot).toNat
        simpa only [State.emit, List.erase_cons_head] using hblock
    · intro hout
      have : MAXFILE = NDIRECT + NINDIRECT := rfl
      omega

/-- The `n` bytes of the content from offset `off` on. -/
def bytesAt (disk : ℕ → Block) (d : Dinode) (off n : ℕ) : Bytes :=
  (List.range n).map fun j => d.byteAt disk (off + j)

theorem bytesAt_add (disk : ℕ → Block) (d : Dinode) (off m n : ℕ) :
    bytesAt disk d off m ++ bytesAt disk d (off + m) n =
      bytesAt disk d off (m + n) := by
  simp only [bytesAt, List.range_add, List.map_append, List.map_map]
  congr 1
  apply List.map_congr_left
  intro j _
  simp only [Function.comp, Nat.add_assoc]

/-- The bytes in one block. -/
theorem get_eq_bytesAt {disk : ℕ → Block} {off m : ℕ}
    (hm : off % BSIZE + m ≤ BSIZE) :
    (disk (d.block disk (off / BSIZE))).get (off % BSIZE) m =
      bytesAt disk d off m := by
  apply List.map_congr_left
  intro j hj
  rw [List.mem_range] at hj
  have hdiv : (off + j) / BSIZE = off / BSIZE := by
    simp only [BSIZE] at hm ⊢
    omega
  have hmod : (off + j) % BSIZE = off % BSIZE + j := by
    simp only [BSIZE] at hm ⊢
    omega
  rw [Dinode.byteAt, hdiv, hmod]

theorem readLoop_mapped {fuel off n : ℕ} (hd : (s.icache ip).din = d)
    (hmap : ∀ o, off ≤ o → o < off + n → d.block s.disk (o / BSIZE) ≠ 0)
    (hfuel : n ≤ fuel) (hE : s.bufs ≠ [] → E .sleep) :
    Sat (readLoop ip fuel off n) s (fun bytes t =>
      bytes = bytesAt s.disk d off n ∧ Reads s t) E := by
  induction fuel generalizing s off n with
  | zero =>
      have hn : n = 0 := by omega
      subst hn
      exact Sat.pure ⟨rfl, Reads.refl s⟩
  | succ fuel ih =>
      apply Sat.ite
      · intro hn
        subst hn
        exact Sat.pure ⟨rfl, Reads.refl s⟩
      · intro hn
        have hlt : off % BSIZE < BSIZE := Nat.mod_lt _ (by decide)
        have hblock := hmap off (le_refl off) (by omega)
        apply (bmap_mapped hd hblock hE).andThen
        rintro b t ⟨rfl, ht⟩
        refine bread_brelse_bind (fun hb => hE ?_) fun u hu => ?_
        · rw [← ht.bufs]
          exact List.ne_nil_of_mem hb
        have hread := ht.trans hu
        have hdisk := hread.disk
        have hmin : min n (BSIZE - off % BSIZE) ≤ n := Nat.min_le_left ..
        have hmin' : min n (BSIZE - off % BSIZE) ≤ BSIZE - off % BSIZE :=
          Nat.min_le_right ..
        have hpos : 0 < min n (BSIZE - off % BSIZE) := by omega
        refine (ih (by rw [hread.icache, hd]) ?_ (by omega) ?_).andThen ?_
        · intro o ho ho'
          rw [hdisk]
          exact hmap o (by omega) (by omega)
        · rw [hread.bufs]
          exact hE
        · rintro rest v ⟨rfl, hv⟩
          refine Sat.pure ⟨?_, hread.trans hv⟩
          rw [ht.disk, hdisk, get_eq_bytesAt (by omega), bytesAt_add]
          congr 1
          omega

/-- What `readi` returns for a file or directory. -/
def readResult (disk : ℕ → Block) (d : Dinode) (off n : ℕ) : Option Bytes :=
  if d.size.toNat < off ∨ 2 ^ 32 ≤ off + n then none
  else some (bytesAt disk d off (min n (d.size.toNat - off)))

/-- No block below the size is missing. -/
def Mapped (disk : ℕ → Block) (d : Dinode) : Prop :=
  ∀ bn < blocksOf d.size.toNat, d.block disk bn ≠ 0

theorem readi_mapped {off n : ℕ} (hd : (s.icache ip).din = d)
    (hdev : d.type ≠ T_DEV) (hmap : Mapped s.disk d)
    (hE : s.bufs ≠ [] → E .sleep) :
    Sat (readi ip off n) s (fun r t =>
      r = readResult s.disk d off n ∧ Reads s t) E := by
  apply getDin_bind
  rw [hd, if_neg hdev, readResult]
  apply Sat.ite
  · intro hout
    rw [if_pos hout]
    exact Sat.pure ⟨rfl, Reads.refl s⟩
  · intro hin
    rw [if_neg hin]
    refine (readLoop_mapped hd ?_ (le_refl _) hE).andThen ?_
    · intro o _ ho
      exact hmap _ (div_lt_blocksOf (by omega))
    · rintro bytes t ⟨rfl, ht⟩
      exact Sat.pure ⟨rfl, ht⟩

/-! ## Locking an inode -/

/-- The newest version of a cached inode: the one in memory if it is valid,
otherwise the one on disk. -/
def State.newest (s : State P) (ip : Slot) : Dinode :=
  if (s.icache ip).valid then (s.icache ip).din
  else inodeOf s.sb s.disk (s.icache ip).inum

/-- The entry of an inode after `ilock`. -/
def State.lockedInode (s : State P) (ip : Slot) : Inode :=
  { s.icache ip with locked := true, valid := true, din := s.newest ip }

/-- `ilock` makes the newest version visible. -/
theorem ilock_sat (ip : Slot) (href : (s.icache ip).ref < 1 → E (.panic "ilock"))
    (hlocked : (s.icache ip).locked = true → E .sleep)
    (hbufs : s.bufs ≠ [] → E .sleep)
    (htype : (s.icache ip).valid = false → (s.newest ip).type = 0 →
      E (.panic "ilock: no type")) :
    Sat (ilock ip) s (fun _ t => logged t.trace = logged s.trace ∧
      t = { s.setInode ip (s.lockedInode ip) with trace := t.trace } ∧
      ((s.icache ip).valid = false → (s.newest ip).type ≠ 0)) E := by
  refine .bind (Sat.get ?_)
  apply Sat.ite
  · intro hlt
    exact Sat.throw (href hlt)
  · intro _
    apply Sat.ite
    · intro hlock
      exact Sat.throw (hlocked hlock)
    · intro _
      refine .bind (Sat.set ?_)
      apply Sat.ite
      · intro hvalid
        refine Sat.pure ⟨rfl, ?_, ?_⟩
        · rw [State.lockedInode, State.newest, if_pos hvalid]
          simp only [State.emit, State.setInode, hvalid]
        · intro hnot
          rw [hvalid] at hnot
          exact absurd hnot (by decide)
      · intro hvalid
        have hnewest : s.newest ip =
            inodeOf s.sb s.disk (s.icache ip).inum := if_neg hvalid
        refine bread_bind (fun hb => hbufs (List.ne_nil_of_mem hb)) ?_
        refine .bind (Sat.modify ?_)
        apply brelse_bind
        refine .bind (Sat.modify ?_)
        apply Sat.ite
        · intro hzero
          refine Sat.throw (htype (Bool.eq_false_of_not_eq_true hvalid) ?_)
          rw [hnewest]
          exact hzero
        · intro hne
          refine Sat.pure ⟨rfl, ?_, ?_⟩
          · simp only [State.emit, State.setInode, State.setDin,
              Function.update_self, Function.update_idem,
              List.erase_cons_head]
            rw [State.lockedInode, hnewest]
            rfl
          · intro _
            rw [hnewest]
            exact hne

end ZtlOs.Kernel
