import ZtlOs.Mkfs.Main
import Mathlib.Algebra.BigOperators.Group.Finset.Piecewise
import Mathlib.Algebra.BigOperators.Group.Finset.Sigma
import Mathlib.Order.Interval.Finset.Nat

/-!
# Nothing else is in the image

mkfs hands out no block that it does not use, leaves the inodes that it does not
hand out free, and fills the last block of the root directory with zeros.
-/

namespace ZtlOs.Mkfs

open ZtlOs.Support ZtlOs.Fs

/-! ## No block is wasted -/

/-- The slots that an inode with `m` data blocks fills. -/
def ownSlots (m : ℕ) : Finset ℕ :=
  (Finset.range m).image dataSlot ∪ if NDIRECT < m then {NDIRECT} else ∅

theorem card_ownSlots (m : ℕ) : (ownSlots m).card = cost m := by
  have hdisjoint : Disjoint ((Finset.range m).image dataSlot)
      (if NDIRECT < m then {NDIRECT} else ∅) := by
    rw [Finset.disjoint_left]
    intro k hk hk'
    obtain ⟨bn, -, rfl⟩ := Finset.mem_image.mp hk
    split at hk'
    · exact dataSlot_ne_indirect bn (Finset.mem_singleton.mp hk')
    · exact absurd hk' (Finset.notMem_empty _)
  have hinj : Function.Injective dataSlot := fun _ _ => dataSlot_injective
  rw [ownSlots, Finset.card_union_of_disjoint hdisjoint,
    Finset.card_image_of_injective _ hinj, Finset.card_range, cost]
  split <;> rfl

section Laid

variable {sect : ℕ → Block} {V : ℕ → Dinode} {free i k b m : ℕ}
variable {nmap : ℕ → ℕ}

theorem Laid.ownSlots_ne_zero (h : Laid sect V free nmap)
    (hk : k ∈ ownSlots (nmap i)) : k < NSLOT ∧ slots sect V i k ≠ 0 := by
  rcases Finset.mem_union.mp hk with hk | hk
  · obtain ⟨bn, hbn, rfl⟩ := Finset.mem_image.mp hk
    have hlt := Finset.mem_range.mp hbn
    exact ⟨dataSlot_lt (lt_of_lt_of_le hlt (h.bound i)), h.mapped i bn hlt⟩
  · split at hk
    · next hind =>
        obtain rfl := Finset.mem_singleton.mp hk
        refine ⟨by decide, fun hzero => h.mapped i NDIRECT hind ?_⟩
        exact Dinode.slot_entry_none
          (Dinode.addrs_indirectSlot_eq_zero.mpr hzero) 0
    · exact absurd hk (Finset.notMem_empty _)

/-- When no more blocks have been handed out than the inodes need, every one
of them is listed. -/
theorem Laid.lists (h : Laid sect V free nmap)
    (hcost : free ≤ nmeta + ∑ i ∈ Finset.range m, cost (nmap i))
    (hb : nmeta ≤ b) (hb' : b < free) : (slots sect V).Lists b := by
  let owners := (Finset.range m).sigma fun i => ownSlots (nmap i)
  have hcard : (Finset.Ico nmeta free).card ≤ owners.card := by
    rw [Finset.card_sigma, Nat.card_Ico]
    simp only [card_ownSlots]
    omega
  have hmaps : Set.MapsTo (fun a : (_ : ℕ) × ℕ => slots sect V a.1 a.2)
      owners (Finset.Ico nmeta free) := by
    rintro ⟨i, k⟩ ha
    obtain ⟨hk, hne⟩ := h.ownSlots_ne_zero (Finset.mem_sigma.mp ha).2
    exact Finset.mem_coe.mpr (Finset.mem_Ico.mpr (h.separate.inside i k hk hne))
  have hinj : Set.InjOn (fun a : (_ : ℕ) × ℕ => slots sect V a.1 a.2)
      owners := by
    rintro ⟨i, k⟩ ha ⟨i', k'⟩ ha' heq
    obtain ⟨hk, hne⟩ := h.ownSlots_ne_zero (Finset.mem_sigma.mp ha).2
    obtain ⟨hk', -⟩ := h.ownSlots_ne_zero (Finset.mem_sigma.mp ha').2
    obtain ⟨rfl, rfl⟩ := h.separate.inj i k i' k' hk hk' hne heq
    rfl
  obtain ⟨⟨i, k⟩, ha, heq⟩ := Finset.surjOn_of_injOn_of_card_le _ hmaps hinj
    hcard (Finset.mem_coe.mpr (Finset.mem_Ico.mpr ⟨hb, hb'⟩))
  exact ⟨i, k, (h.ownSlots_ne_zero (Finset.mem_sigma.mp ha).2).1, heq⟩

end Laid

/-! ## The last block of the root directory -/

/-- The contents with the last block of the root directory filled up with
zeros. -/
def padded (c : Contents) : Contents :=
  Function.update c ROOTINO (c ROOTINO ++
    List.replicate (blocksOf (c ROOTINO).length * BSIZE - (c ROOTINO).length) 0)

section Padded

variable {c : Contents} {i : ℕ} {p : List (BitVec 8)}

theorem padded_of_ne (h : i ≠ ROOTINO) : padded c i = c i :=
  Function.update_of_ne h ..

theorem length_padded :
    (padded c ROOTINO).length = blocksOf (c ROOTINO).length * BSIZE := by
  have hle : (c ROOTINO).length ≤ blocksOf (c ROOTINO).length * BSIZE := by
    simp only [blocksOf, BSIZE]
    omega
  rw [padded, Function.update_self, List.length_append, List.length_replicate]
  omega

theorem nmapOf_padded : nmapOf (padded c) = nmapOf c := by
  funext i
  by_cases hi : i = ROOTINO
  · subst hi
    rw [nmapOf, nmapOf, length_padded]
    simp only [blocksOf, BSIZE]
    omega
  · rw [nmapOf, nmapOf, padded_of_ne hi]

theorem padded_update_of_ne (h : i ≠ ROOTINO) :
    padded (Function.update c i p) = Function.update (padded c) i p := by
  rw [padded, Function.update_of_ne h.symm, padded, Function.update_comm h]

/-- What there is to show about zeros. -/
theorem holds_padded {sect : ℕ → Block} {V : ℕ → Dinode}
    (h : Holds sect V c) (hzero : ∀ off, (c ROOTINO).length ≤ off →
      off < blocksOf (c ROOTINO).length * BSIZE →
        (V ROOTINO).byteAt sect off = 0) : Holds sect V (padded c) := by
  intro i j hj
  by_cases hi : i = ROOTINO
  · subst hi
    rw [length_padded] at hj
    simp only [padded, Function.update_self]
    by_cases hlt : j < (c ROOTINO).length
    · rw [List.getElem_append_left hlt]
      exact h _ _ hlt
    · rw [List.getElem_append_right (by omega), List.getElem_replicate]
      exact hzero j (by omega) hj
  · simp only [padded_of_ne hi] at hj ⊢
    exact h i j hj

theorem Good.padded {s : State} {V : ℕ → Dinode} (h : Good s V c)
    (hpad : Holds s.sect V (padded c)) : Good s V (padded c) where
  laid := by
    rw [nmapOf_padded]
    exact h.laid
  holds := hpad
  nsect := h.nsect
  full := h.full

end Padded

/-! ## Appending to a file or to the root directory -/

section Loop

variable {s : State} {V : ℕ → Dinode} {c : Contents} {i fuel : ℕ}
variable {p : List (BitVec 8)} {off : BitVec 32}

/-- The root directory is left alone when something else is appended to. -/
theorem iappendLoop_padded_of_ne (hg : Good s V c)
    (hpad : Holds s.sect V (padded c)) (hi : i ≠ ROOTINO)
    (hoff : off.toNat = (c i).length) (hp : p.length ≤ fuel) :
    Program.Sat (iappendLoop fuel p off (V i)) s
      (fun r t => Holds t.sect (Function.update V i r.2)
        (padded (Function.update c i (c i ++ p)))) fun _ => True := by
  have hoff' : off.toNat = (padded c i).length := by rw [padded_of_ne hi, hoff]
  refine (iappendLoop_spec (hg.padded hpad) hoff' hp).mono ?_ fun _ _ => trivial
  rintro ⟨off', d⟩ t ht
  rw [padded_update_of_ne hi, ← padded_of_ne (c := c) hi]
  exact ht.good.holds

theorem iappendLoop_nil {din : Dinode} :
    iappendLoop fuel [] off din = pure (off, din) := by
  cases fuel with
  | zero => rfl
  | succ fuel => exact if_pos rfl

/-- The block that an entry of the root directory goes to has zeros from the
end of the directory on. -/
theorem blockFor_root (hg : Good s V c) (hpad : Holds s.sect V (padded c))
    (k : Fin (NDIRECT + 1)) (hk : k.val < NDIRECT) :
    Program.Sat (blockFor (V ROOTINO) k.val) s
      (fun r t => t.sect = s.sect ∧ t.nsect = s.nsect ∧ r.2.addrs k = r.1 ∧
        r.1.toNat ≤ FSSIZE ∧ (r.1.toNat < FSSIZE →
          ∀ off, (c ROOTINO).length ≤ off → off / BSIZE = k.val →
            (s.sect r.1.toNat).byte (off % BSIZE) = 0)) fun _ => True := by
  have hfull := hg.full
  have hdata : dataSlot k.val = k.val := if_pos hk
  have hslot : slots s.sect V ROOTINO (dataSlot k.val) =
      ((V ROOTINO).addrs k).toNat := by
    rw [hdata]
    exact Dinode.slot_direct k.isLt
  rw [blockFor_direct _ _ hk]
  apply Program.Sat.ite
  · intro hzero
    refine takeBlock_spec.andThen ?_
    rintro b t ⟨rfl, rfl⟩
    refine Program.Sat.pure ⟨rfl, rfl, rfl, ?_, fun hlt off _ _ => ?_⟩
    · rw [Dinode.addrs_setAddr_self]
      exact hfull
    · rw [Dinode.addrs_setAddr_self] at hlt ⊢
      rw [hg.laid.fresh _ le_rfl hlt]
      exact Block.byte_zero
  · intro hsome
    have hmapped : k.val < nmapOf c ROOTINO := by
      by_contra hge
      apply hsome
      apply BitVec.eq_of_toNat_eq
      rw [← hslot, hg.laid.unmapped ROOTINO k.val (not_lt.mp hge)
        (lt_trans hk (by decide))]
      rfl
    have hfree := hg.laid.lt_free hmapped
    rw [hslot] at hfree
    refine Program.Sat.pure ⟨rfl, rfl, rfl, (hfree.trans_le hfull).le,
      fun _ off hoff hdiv => ?_⟩
    have hlt : off < blocksOf (c ROOTINO).length * BSIZE :=
      (Nat.div_lt_iff_lt_mul (by decide)).mp (by rw [hdiv]; exact hmapped)
    have hbyte := hpad ROOTINO off (by rwa [length_padded])
    rw [byteAt_eq, hdiv, hslot] at hbyte
    rw [hbyte]
    simp only [padded, Function.update_self]
    rw [List.getElem_append_right hoff, List.getElem_replicate]

variable (fuel) in
/-- An entry is appended to the root directory: it does not cross the end of a
block. -/
theorem iappendLoop_entry (hg : Good s V c) (hpad : Holds s.sect V (padded c))
    (hlen : Dirent.size ∣ (c ROOTINO).length) (hp : p.length = Dirent.size)
    (hmax : (c ROOTINO).length + Dirent.size ≤ NDIRECT * BSIZE)
    (hoff : off.toNat = (c ROOTINO).length) :
    Program.Sat (iappendLoop (fuel + 1) p off (V ROOTINO)) s
      (fun r t => ∀ off, (c ROOTINO).length + Dirent.size ≤ off →
        off < blocksOf ((c ROOTINO).length + Dirent.size) * BSIZE →
          r.2.byteAt t.sect off = 0) fun _ => True := by
  have hdir : (c ROOTINO).length / BSIZE < NDIRECT := by
    rw [Nat.div_lt_iff_lt_mul (by decide)]
    simp only [Dirent.size] at hmax
    omega
  let k : Fin (NDIRECT + 1) := ⟨(c ROOTINO).length / BSIZE, by omega⟩
  have hk : k.val = (c ROOTINO).length / BSIZE := rfl
  have hn : min p.length (((c ROOTINO).length / BSIZE + 1) * BSIZE -
      (c ROOTINO).length) = p.length := by
    rw [hp]
    simp only [Dirent.size, BSIZE] at hlen ⊢
    omega
  unfold iappendLoop
  rw [if_neg (by rw [hp]; decide), hoff, ← hk]
  refine Program.Sat.andThen (Q := fun _ t => t = s) ?_ ?_
  · unfold assert
    exact .ite (fun _ => .pure rfl) fun _ => .throw trivial
  rintro _ t rfl
  refine (blockFor_root hg hpad k hdir).andThen ?_
  rintro ⟨x, d⟩ u ⟨hsect, hnsect, haddr, hx, hzero⟩
  have hnu := hnsect.trans hg.nsect
  refine (rsect_spec hnu hx).onReturn.andThen ?_
  rintro buf u ⟨rfl, rfl, hlt⟩
  refine (wsect_spec hnu hlt _).andThen ?_
  rintro _ v rfl
  rw [hk, hn, List.drop_length, iappendLoop_nil, List.take_length]
  refine .pure fun off' hle hlt' => ?_
  have hdiv : off' / BSIZE = k.val := by
    rw [hk]
    simp only [Dirent.size, BSIZE, blocksOf] at hlen hle hlt' ⊢
    omega
  have hblock : ∀ disk, d.block disk (off' / BSIZE) = x.toNat := by
    intro disk
    rw [hdiv, Dinode.block, dataSlot, if_pos hdir, Dinode.slot_direct k.isLt]
    exact congrArg BitVec.toNat haddr
  rw [Dinode.byteAt, hblock]
  simp only [Function.update_self]
  rw [Block.byte_put_of_not_mem, hsect]
  · exact hzero hlt off' (by omega) hdiv
  · refine .inr ?_
    rw [hk] at hdiv
    rw [hp]
    have hmod := Nat.div_add_mod' off' BSIZE
    have hle' := Nat.div_mul_le_self (c ROOTINO).length BSIZE
    rw [hdiv] at hmod
    omega

/-- After an entry is appended, the rest of the last block is zero. -/
theorem iappendLoop_padded_root (hg : Good s V c)
    (hpad : Holds s.sect V (padded c)) (hlen : Dirent.size ∣ (c ROOTINO).length)
    (hp : p.length = Dirent.size)
    (hmax : (c ROOTINO).length + Dirent.size ≤ NDIRECT * BSIZE)
    (hoff : off.toNat = (c ROOTINO).length) :
    Program.Sat (iappendLoop p.length p off (V ROOTINO)) s
      (fun r t => Holds t.sect (Function.update V ROOTINO r.2)
        (padded (Function.update c ROOTINO (c ROOTINO ++ p))))
      fun _ => True := by
  have happ := (iappendLoop_spec hg hoff (le_refl p.length)).onReturn
  have hzero := iappendLoop_entry 15 hg hpad hlen hp hmax hoff
  rw [show 15 + 1 = p.length from hp.symm] at hzero
  refine (happ.both hzero).imp fun r t ht =>
    holds_padded ht.1.good.holds fun off hle hlt => ?_
  rw [Function.update_self, List.length_append, hp] at hle hlt
  rw [Function.update_self]
  exact ht.2 off hle hlt

end Loop

/-! ## The inodes -/

/-- The root directory is the only directory, every inode that has been handed
out has one link, and all others are free; no block has been handed out in
vain. -/
structure Tidy (s : State) (c : Contents) : Prop where
  padded : Holds s.sect s.view (padded c)
  type : ∀ i, s.Used i →
    (s.inode i).type = if i = ROOTINO then T_DIR else T_FILE
  nlink : ∀ i, s.Used i → (s.inode i).nlink = 1
  blank : ∀ i < ninodeblocks * IPB, ¬s.Used i → (s.inode i).type = 0
  packed : s.freeblock.toNat ≤ nmeta +
    ∑ i ∈ Finset.range s.freeinode.toNat, cost (nmapOf c i)

section Inodes

variable {s t : State} {c : Contents} {inum : BitVec 32}
variable {p : List (BitVec 8)}

theorem formatted_tidy : Tidy formatted fun _ => [] := by
  have hused : ∀ i, ¬formatted.Used i := by
    rintro i ⟨h₁, h₂⟩
    change i < 1 at h₂
    omega
  refine ⟨holds_padded formatted_intact.good.holds ?_, ?_, ?_, ?_, ?_⟩
  · intro off _ hlt
    rw [List.length_nil, show blocksOf 0 = 0 by decide, Nat.zero_mul] at hlt
    omega
  · exact fun i hi => absurd hi (hused i)
  · exact fun i hi => absurd hi (hused i)
  · intro i _ _
    have hne : IBLOCK i sb ≠ 1 := by
      have := inodestart_le i
      change 32 ≤ _ at this
      omega
    have hsect : formatted.sect (IBLOCK i sb) = Block.zero := by
      simp only [formatted]
      exact Function.update_of_ne hne ..
    rw [State.inode, hsect]
    exact Block.half_zero
  · decide

/-- The inode that is written is in use. -/
theorem State.view_setInode {i : ℕ} {d : Dinode} (hu : s.Used i)
    (hi : s.freeinode.toNat ≤ ninodeblocks * IPB)
    (ht : t.freeinode = s.freeinode)
    (hl : ∀ b < nmeta, t.sect b = s.sect b) :
    (t.setInode i d).view = Function.update s.view i d := by
  funext j
  have hused : (t.setInode i d).Used j ↔ s.Used j := by
    unfold State.Used
    rw [← ht]
    rfl
  by_cases hj : j = i
  · subst hj
    rw [State.view_of_used (hused.mpr hu), State.inode_setInode, if_pos rfl,
      Function.update_self]
  · rw [Function.update_of_ne hj]
    by_cases huj : s.Used j
    · have hlt := iblock_lt (lt_of_lt_of_le huj.2 hi)
      have hmeta := nmeta_eq
      rw [State.view_of_used (hused.mpr huj), State.inode_setInode, if_neg hj,
        State.view_of_used huj, State.inode, hl _ (by omega)]
      rfl
    · rw [State.view, if_neg (fun h => huj (hused.mp h)), State.view,
        if_neg huj]

/-- The inode area is not touched before the inode is written back. -/
theorem State.inode_congr {i : ℕ} (hi : i < ninodeblocks * IPB)
    (hl : ∀ b < nmeta, t.sect b = s.sect b) : t.inode i = s.inode i := by
  have hlt := iblock_lt hi
  have hmeta := nmeta_eq
  rw [State.inode, hl _ (by omega)]
  rfl

/-- What `iappend` appends to the root directory is one entry. -/
def EntryOnly (c : Contents) (i : ℕ) (p : List (BitVec 8)) : Prop :=
  i = ROOTINO → p.length = Dirent.size ∧ Dirent.size ∣ (c ROOTINO).length ∧
    (c ROOTINO).length + Dirent.size ≤ NDIRECT * BSIZE

theorem sum_cost_append {i n : ℕ} (hi : i < n) :
    ∑ j ∈ Finset.range n,
        cost (nmapOf (Function.update c i (c i ++ p)) j) +
        cost (blocksOf (c i).length) =
      ∑ j ∈ Finset.range n, cost (nmapOf c j) +
        cost (blocksOf ((c i).length + p.length)) := by
  have hfun : (fun j => cost (nmapOf (Function.update c i (c i ++ p)) j)) =
      Function.update (fun j => cost (nmapOf c j)) i
        (cost (blocksOf ((c i).length + p.length))) := by
    funext j
    by_cases hj : j = i
    · subst hj
      rw [nmapOf, Function.update_self, Function.update_self,
        List.length_append]
    · rw [nmapOf, Function.update_of_ne hj, Function.update_of_ne hj]
      rfl
  have hmem := Finset.mem_range.mpr hi
  rw [hfun, Finset.sum_update_of_mem hmem,
    Finset.sum_eq_add_sum_sdiff_singleton_of_mem hmem]
  simp only [nmapOf]
  omega

theorem iappend_tidy (hs : Intact s c) (h : Tidy s c)
    (hu : s.Used inum.toNat) (hp : EntryOnly c inum.toNat p) :
    Program.Sat (iappend inum p) s
      (fun _ t => Tidy t
        (Function.update c inum.toNat (c inum.toNat ++ p))) fun _ => True := by
  have harea := hs.inodes.2
  have hlt : inum.toNat < ninodeblocks * IPB := lt_of_lt_of_le hu.2 harea
  have hview := State.view_of_used hu
  have hoff : (s.view inum.toNat).size.toNat = (c inum.toNat).length := by
    rw [hview]
    exact hs.sizes _ hu
  have hloop : Program.Sat
      (iappendLoop p.length p (s.view inum.toNat).size (s.view inum.toNat)) s
      (fun r t => Holds t.sect (Function.update s.view inum.toNat r.2)
        (padded (Function.update c inum.toNat (c inum.toNat ++ p))))
      fun _ => True := by
    by_cases hi : inum.toNat = ROOTINO
    · obtain ⟨hlen, hdvd, hmax⟩ := hp hi
      rw [hi] at hoff ⊢
      exact iappendLoop_padded_root hs.good h.padded hdvd hlen hmax hoff
    · exact iappendLoop_padded_of_ne hs.good h.padded hi hoff le_rfl
  unfold iappend
  simp only [xint_eq]
  refine (rinode_spec hs.good.nsect hlt).andThen ?_
  rintro d t ⟨rfl, rfl⟩
  rw [← hview]
  refine ((iappendLoop_spec hs.good hoff le_rfl).onReturn.both
    hloop).andThen ?_
  rintro ⟨off, d⟩ u ⟨happ, hpad⟩
  refine (winode_spec happ.good.nsect hlt).imp ?_
  rintro _ v rfl
  have hused : ∀ j, (u.setInode inum.toNat { d with size := off }).Used j ↔
      t.Used j := by
    intro j
    unfold State.Used
    rw [← happ.freeinode]
    rfl
  -- The fields other than the size and the addresses stay.
  have hkeep : ∀ j < ninodeblocks * IPB,
      ((u.setInode inum.toNat { d with size := off }).inode j).type =
          (t.inode j).type ∧
        ((u.setInode inum.toNat { d with size := off }).inode j).nlink =
          (t.inode j).nlink := by
    intro j hj
    rw [State.inode_setInode]
    split
    · next heq =>
        subst heq
        have haddrs : d = { t.view inum.toNat with addrs := d.addrs } :=
          happ.addrs
        rw [haddrs, hview]
        exact ⟨rfl, rfl⟩
    · rw [State.inode_congr hj happ.low]
      exact ⟨rfl, rfl⟩
  have hall : ∀ j, t.Used j → j < ninodeblocks * IPB := fun j hj =>
    lt_of_lt_of_le hj.2 harea
  constructor
  · refine ((happ.good.padded hpad).congr ?_
      (fun b hb => State.setInode_sect hlt hb) rfl rfl).holds
    intro j
    rw [State.view_setInode hu harea happ.freeinode happ.low]
    by_cases hj : j = inum.toNat
    · rw [hj, Function.update_self, Function.update_self]
    · rw [Function.update_of_ne hj, Function.update_of_ne hj]
  · intro j hj
    have huj := (hused j).mp hj
    rw [(hkeep j (hall j huj)).1]
    exact h.type j huj
  · intro j hj
    have huj := (hused j).mp hj
    rw [(hkeep j (hall j huj)).2]
    exact h.nlink j huj
  · intro j hlt hj
    rw [(hkeep j hlt).1]
    exact h.blank j hlt fun huj => hj ((hused j).mpr huj)
  · have hsum := sum_cost_append (c := c) (p := p) hu.2
    have hspent := happ.spent
    have hpacked := h.packed
    change u.freeblock.toNat ≤ nmeta + ∑ j ∈ Finset.range u.freeinode.toNat, _
    rw [happ.freeinode]
    omega

/-- The root directory is the first inode. -/
theorem ialloc_tidy (hs : Intact s c) (h : Tidy s c) {type : BitVec 16}
    (htype : type = if s.freeinode.toNat = ROOTINO then T_DIR else T_FILE)
    (hroom : s.freeinode.toNat < ninodeblocks * IPB) :
    Program.Sat (ialloc type) s (fun _ t => Tidy t c) fun _ => True := by
  have hadd : (s.freeinode + 1).toNat = s.freeinode.toNat + 1 := by
    apply toNat_add_one
    change _ < 208 at hroom
    simp only [FSSIZE]
    omega
  have hfresh : ¬s.Used s.freeinode.toNat := fun hu => lt_irrefl _ hu.2
  have hempty := hs.unused _ hfresh
  unfold ialloc
  apply Program.Sat.bind
  apply Program.Sat.get
  apply Program.Sat.bind
  apply Program.Sat.modify
  simp only [xshort_eq, xint_eq]
  refine Program.Sat.andThen (winode_spec ?_ hroom) ?_
  · exact hs.good.nsect
  rintro _ t rfl
  apply Program.Sat.pure
  set d : Dinode := { Dinode.zero with type := type, nlink := 1, size := 0 }
  set s' : State := { s with freeinode := s.freeinode + 1 }
  have hused : ∀ j, (s'.setInode s.freeinode.toNat d).Used j ↔
      s.Used j ∨ j = s.freeinode.toNat := by
    intro j
    have := hs.inodes.1
    change (1 ≤ j ∧ j < (s.freeinode + 1).toNat) ↔ _
    rw [hadd]
    unfold State.Used
    omega
  have hinode : ∀ j, (s'.setInode s.freeinode.toNat d).inode j =
      if j = s.freeinode.toNat then d else s.inode j := fun j =>
    State.inode_setInode s' _ j d
  have hne : ∀ {j}, s.Used j → j ≠ s.freeinode.toNat := fun huj heq =>
    hfresh (heq ▸ huj)
  constructor
  · refine ((hs.good.padded h.padded).congr ?_
      (fun b hb => State.setInode_sect hroom hb) rfl rfl).holds
    intro j
    by_cases hj : j = s.freeinode.toNat
    · rw [State.view_of_used ((hused j).mpr (.inr hj)), hinode, if_pos hj,
        State.view, if_neg (hj ▸ hfresh)]
    · by_cases huj : s.Used j
      · rw [State.view_of_used ((hused j).mpr (.inl huj)), hinode, if_neg hj,
          State.view_of_used huj]
      · rw [State.view, State.view, if_neg huj, if_neg]
        exact fun hu => ((hused j).mp hu).elim huj hj
  · intro j hj
    rw [hinode]
    rcases (hused j).mp hj with huj | rfl
    · rw [if_neg (hne huj)]
      exact h.type j huj
    · rw [if_pos rfl]
      exact htype
  · intro j hj
    rw [hinode]
    rcases (hused j).mp hj with huj | rfl
    · rw [if_neg (hne huj)]
      exact h.nlink j huj
    · rw [if_pos rfl]
  · intro j hlt hj
    rw [hinode, if_neg fun heq => hj ((hused j).mpr (.inr heq))]
    exact h.blank j hlt fun huj => hj ((hused j).mpr (.inl huj))
  · change s.freeblock.toNat ≤ nmeta +
      ∑ j ∈ Finset.range (s.freeinode + 1).toNat, _
    have hpacked := h.packed
    rw [hadd, Finset.sum_range_succ]
    omega

end Inodes

/-! ## The run -/

section Run

variable {s : State} {c : Contents} {inum rootino : BitVec 32} {fuel : ℕ}

theorem appendAll_tidy {rest : List (BitVec 8)} (hs : Intact s c)
    (h : Tidy s c) (hu : s.Used inum.toNat) (hi : inum.toNat ≠ ROOTINO)
    (hfuel : rest.length ≤ fuel) :
    Program.Sat (appendAll inum fuel rest) s
      (fun _ t => Tidy t
        (Function.update c inum.toNat (c inum.toNat ++ rest)))
      fun _ => True := by
  have hnil : Tidy s (Function.update c inum.toNat (c inum.toNat ++ [])) := by
    rw [List.append_nil, Function.update_eq_self]
    exact h
  induction fuel generalizing s c rest with
  | zero =>
      obtain rfl : rest = [] := List.length_eq_zero_iff.mp (by omega)
      exact .pure hnil
  | succ fuel ih =>
      unfold appendAll
      apply Program.Sat.ite
      · intro hlen
        obtain rfl : rest = [] := List.length_eq_zero_iff.mp hlen
        exact .pure hnil
      · intro hlen
        refine ((iappend_spec hs hu (rest.take BSIZE)).onReturn.both
          (iappend_tidy hs h hu fun heq => absurd heq hi)).andThen ?_
        rintro _ t ⟨happ, ht⟩
        have hpos : 0 < BSIZE := by decide
        have hfuel' : (rest.drop BSIZE).length ≤ fuel := by
          rw [List.length_drop]
          omega
        have hrest := ih happ.intact ht (hu.congr happ.freeinode) hfuel'
          (by rwa [List.append_nil, Function.update_eq_self])
        rwa [Function.update_self, Function.update_idem, List.append_assoc,
          List.take_append_drop] at hrest

theorem addFile_tidy (file : InputFile) (hs : Intact s c) (h : Tidy s c)
    (hino : rootino.toNat = ROOTINO) (hroot : s.Used ROOTINO)
    (hroom : s.freeinode.toNat < ninodeblocks * IPB)
    (hdvd : Dirent.size ∣ (c ROOTINO).length)
    (hmax : (c ROOTINO).length + Dirent.size ≤ NDIRECT * BSIZE) :
    Program.Sat (addFile rootino file) s
      (fun inum t => Tidy t (addContent c ROOTINO file inum))
      fun _ => True := by
  unfold addFile
  refine Program.Sat.andThen (Q := fun _ t => t = s) ?_ ?_
  · unfold assert
    exact .ite (fun _ => .pure rfl) fun _ => .throw trivial
  rintro _ t rfl
  cases hcontent : file.content with
  | none => exact .throw trivial
  | some content =>
      have hne : t.freeinode.toNat ≠ ROOTINO := by
        have := hroot.2
        omega
      refine ((ialloc_spec hs T_FILE hroom).both
        (ialloc_tidy hs h (if_neg hne).symm hroom)).andThen ?_
      rintro inum u ⟨⟨rfl, hu, hfree, -, hempty, -⟩, htidy⟩
      have hrootu : u.Used rootino.toNat := by
        rw [hino]
        refine ⟨hroot.1, ?_⟩
        rw [hfree]
        exact Nat.lt_succ_of_lt hroot.2
      refine ((iappend_spec hu hrootu
        (dirent t.freeinode file.entryName).bytes).onReturn.both
        (iappend_tidy hu htidy hrootu fun _ =>
          ⟨Dirent.length_bytes _, hdvd, hmax⟩)).andThen ?_
      rw [hino]
      rintro _ v ⟨hv, hvt⟩
      have hself : Function.update c ROOTINO (c ROOTINO ++
          (dirent t.freeinode file.entryName).bytes) t.freeinode.toNat = [] :=
        (Function.update_of_ne hne ..).trans hempty
      have hinum : v.Used t.freeinode.toNat := by
        refine ⟨hs.inodes.1, ?_⟩
        rw [hv.freeinode, hfree]
        exact Nat.lt_succ_self _
      refine (appendAll_tidy hv.intact hvt hinum hne le_rfl).andThen ?_
      intro _ w hw
      rw [hself, List.nil_append] at hw
      refine .pure ?_
      rw [addContent, hcontent]
      exact hw

theorem addFiles_tidy (files : List InputFile) (hs : Intact s c)
    (h : Tidy s c) (hino : rootino.toNat = ROOTINO) (hroot : s.Used ROOTINO)
    (hroom : s.freeinode.toNat + files.length ≤ ninodeblocks * IPB)
    (hdvd : Dirent.size ∣ (c ROOTINO).length)
    (hmax : (c ROOTINO).length + Dirent.size * files.length ≤
      NDIRECT * BSIZE) :
    Program.Sat (addFiles rootino files) s
      (fun _ t => Tidy t (addContents ROOTINO c s.freeinode files))
      fun _ => True := by
  induction files generalizing s c with
  | nil => exact .pure h
  | cons file files ih =>
      rw [List.length_cons] at hroom hmax
      rw [Nat.mul_succ] at hmax
      have hrootu : s.Used rootino.toNat := by rwa [hino]
      unfold addFiles
      refine ((addFile_spec file hs hrootu (by omega)).onReturn.both
        (addFile_tidy file hs h hino hroot (by omega) hdvd
          (by omega))).andThen ?_
      rw [hino]
      rintro inum t ⟨⟨rfl, hintact, hfree, -⟩, ht⟩
      have hne : s.freeinode.toNat ≠ ROOTINO := by
        have := hroot.2
        omega
      have hlen : (addContent c ROOTINO file s.freeinode ROOTINO).length =
          (c ROOTINO).length + Dirent.size := length_addContent hne
      have hnext : t.freeinode = s.freeinode + 1 := by
        apply BitVec.eq_of_toNat_eq
        rw [hfree, toNat_add_one]
        have hin := hs.inodes.2
        change _ ≤ 208 at hin
        simp only [FSSIZE]
        omega
      refine (ih hintact ht ?_ ?_ ?_ ?_).andThen ?_
      · exact ⟨hroot.1, by rw [hfree]; exact Nat.lt_succ_of_lt hroot.2⟩
      · omega
      · rw [hlen]
        exact Nat.dvd_add hdvd (dvd_refl _)
      · omega
      · intro _ u hu
        rw [hnext] at hu
        exact .pure hu

/-- Only the size of an inode and the bitmap have changed. -/
theorem Tidy.congr {t : State} (h : Tidy s c) (hs : Good s s.view c)
    (haddrs : ∀ i, (t.view i).addrs = (s.view i).addrs)
    (hkeep : ∀ i < ninodeblocks * IPB, (t.inode i).type = (s.inode i).type ∧
      (t.inode i).nlink = (s.inode i).nlink)
    (hi : s.freeinode.toNat ≤ ninodeblocks * IPB)
    (hsect : ∀ b, nmeta ≤ b → t.sect b = s.sect b)
    (hfreeblock : t.freeblock = s.freeblock)
    (hfreeinode : t.freeinode = s.freeinode) (hn : t.nsect = s.nsect) :
    Tidy t c := by
  have hused : ∀ j, t.Used j ↔ s.Used j := by
    intro j
    unfold State.Used
    rw [hfreeinode]
  have hall : ∀ j, s.Used j → j < ninodeblocks * IPB := fun j hj =>
    lt_of_lt_of_le hj.2 hi
  constructor
  · exact ((hs.padded h.padded).congr haddrs hsect hfreeblock hn).holds
  · intro j hj
    have huj := (hused j).mp hj
    rw [(hkeep j (hall j huj)).1]
    exact h.type j huj
  · intro j hj
    have huj := (hused j).mp hj
    rw [(hkeep j (hall j huj)).2]
    exact h.nlink j huj
  · intro j hlt hj
    rw [(hkeep j hlt).1]
    exact h.blank j hlt fun huj => hj ((hused j).mpr huj)
  · rw [hfreeblock, hfreeinode]
    exact h.packed

/-- Fixing the size of the root directory. -/
theorem fixRoot_tidy (hs : Good s s.view c) (h : Tidy s c)
    (hroot : s.Used rootino.toNat)
    (hi : s.freeinode.toNat ≤ ninodeblocks * IPB) :
    Program.Sat (fixRoot rootino) s (fun _ t => Tidy t c ∧ Good t t.view c ∧
      t.freeinode = s.freeinode) fun _ => True := by
  have hlt : rootino.toNat < ninodeblocks * IPB := lt_of_lt_of_le hroot.2 hi
  unfold fixRoot
  simp only [xint_eq]
  refine (rinode_spec hs.nsect hlt).andThen ?_
  rintro d t ⟨rfl, rfl⟩
  refine (winode_spec hs.nsect hlt).imp ?_
  rintro _ u rfl
  set d : Dinode := { t.inode rootino.toNat with
    size := ((t.inode rootino.toNat).size / BitVec.ofNat 32 BSIZE + 1) *
      BitVec.ofNat 32 BSIZE }
  have haddrs : ∀ j, ((t.setInode rootino.toNat d).view j).addrs =
      (t.view j).addrs := by
    intro j
    rw [State.view_setInode hroot hi rfl fun _ _ => rfl]
    by_cases hj : j = rootino.toNat
    · rw [hj, Function.update_self, State.view_of_used hroot]
    · rw [Function.update_of_ne hj]
  have hsect : ∀ b, nmeta ≤ b →
      (t.setInode rootino.toNat d).sect b = t.sect b := fun b hb =>
    State.setInode_sect hlt hb
  refine ⟨h.congr hs haddrs ?_ hi hsect rfl rfl rfl,
    hs.congr haddrs hsect rfl rfl, rfl⟩
  intro j _
  rw [State.inode_setInode]
  split
  · next heq => rw [heq]; exact ⟨rfl, rfl⟩
  · exact ⟨rfl, rfl⟩

/-- Writing the bitmap. -/
theorem balloc_tidy {used : BitVec 32} (hs : Good s s.view c) (h : Tidy s c)
    (hi : s.freeinode.toNat ≤ ninodeblocks * IPB) :
    Program.Sat (balloc used) s (fun _ t => Tidy t c) fun _ => True := by
  unfold balloc
  refine Program.Sat.andThen (Q := fun _ t => t = s) ?_ ?_
  · unfold assert
    exact .ite (fun _ => .pure rfl) fun _ => .throw trivial
  rintro _ t rfl
  have hbm : (BitVec.ofNat 32 sb.bmapstart).toNat = sb.bmapstart := by decide
  have hmeta := nmeta_eq
  refine (wsect_spec hs.nsect (by rw [hbm]; decide) _).imp ?_
  rintro _ u rfl
  rw [hbm]
  set u : State := { t with
    sect := Function.update t.sect sb.bmapstart (bitmap used.toInt.toNat) }
  have hinode : ∀ j < ninodeblocks * IPB, u.inode j = t.inode j := by
    intro j hj
    have hlt := iblock_lt hj
    rw [State.inode, State.inode]
    exact congrArg (fun b => Block.dinode b (j % IPB))
      (Function.update_of_ne (by omega) ..)
  refine h.congr hs ?_ ?_ hi ?_ rfl rfl rfl
  · intro j
    by_cases hj : t.Used j
    · rw [State.view_of_used hj, State.view_of_used (s := u) hj,
        hinode j (lt_of_lt_of_le hj.2 hi)]
    · rw [State.view, State.view, if_neg hj]
      exact congrArg Dinode.addrs (if_neg hj)
  · intro j hj
    rw [hinode j hj]
    exact ⟨rfl, rfl⟩
  · intro b hb
    exact Function.update_of_ne (by omega) ..

/-- Nothing but the files and the root directory is in the image. -/
theorem main_tidy {files : List InputFile}
    (hlen : files.length + 2 ≤ ninodeblocks * IPB) :
    Program.Sat (main files) start
      (fun _ t => Tidy t (addContents ROOTINO rootContents 2 files))
      fun _ => True := by
  have hone : formatted.freeinode.toNat = ROOTINO := rfl
  have hdot : ∀ name, (dirent formatted.freeinode name).bytes.length =
      Dirent.size := fun _ => Dirent.length_bytes _
  unfold main
  refine format_spec.andThen ?_
  rintro _ s rfl
  refine ((ialloc_spec formatted_intact T_DIR (by decide)).both
    (ialloc_tidy formatted_intact formatted_tidy (if_pos hone).symm
      (by decide))).andThen ?_
  rintro rootino s ⟨⟨rfl, hs, hfree, -, -, -⟩, hst⟩
  refine Program.Sat.andThen (Q := fun _ t => t = s) ?_ ?_
  · unfold assert
    exact .ite (fun _ => .pure rfl) fun _ => .throw trivial
  rintro _ t rfl
  have hroot : t.Used formatted.freeinode.toNat :=
    ⟨by decide, by rw [hfree]; decide⟩
  -- The entries for "." and "..".
  have hempty : ∀ name, EntryOnly (fun _ => []) formatted.freeinode.toNat
      (dirent formatted.freeinode name).bytes := fun name _ =>
    ⟨hdot name, Nat.dvd_zero _, Nat.le_of_ble_eq_true rfl⟩
  refine ((iappend_spec hs hroot
    (dirent formatted.freeinode [0x2e]).bytes).onReturn.both
      (iappend_tidy hs hst hroot (hempty _))).andThen ?_
  rintro _ u ⟨hu, hut⟩
  have hentry : EntryOnly (Function.update (fun _ => [])
      formatted.freeinode.toNat
      ([] ++ (dirent formatted.freeinode [0x2e]).bytes))
      formatted.freeinode.toNat
      (dirent formatted.freeinode [0x2e, 0x2e]).bytes := by
    intro _
    rw [hone, Function.update_self, List.nil_append, hdot]
    exact ⟨rfl, dvd_refl _, Nat.le_of_ble_eq_true rfl⟩
  have hrootu : u.Used formatted.freeinode.toNat := hroot.congr hu.freeinode
  refine ((iappend_spec hu.intact hrootu
    (dirent formatted.freeinode [0x2e, 0x2e]).bytes).onReturn.both
      (iappend_tidy hu.intact hut hrootu hentry)).andThen ?_
  rintro _ v ⟨hv, hvt⟩
  have hc : Function.update (Function.update (fun _ => ([] : List (BitVec 8)))
      formatted.freeinode.toNat
      ([] ++ (dirent formatted.freeinode [0x2e]).bytes))
      formatted.freeinode.toNat
      (Function.update (fun _ => []) formatted.freeinode.toNat
        ([] ++ (dirent formatted.freeinode [0x2e]).bytes)
        formatted.freeinode.toNat ++
          (dirent formatted.freeinode [0x2e, 0x2e]).bytes) = rootContents := by
    rw [Function.update_idem, Function.update_self, List.nil_append]
    rfl
  have hvi := hv.intact
  rw [hc] at hvi hvt
  have hino : v.freeinode.toNat = 2 := by
    rw [hv.freeinode, hu.freeinode, hfree]
    rfl
  have hinoBv : v.freeinode = 2 := BitVec.eq_of_toNat_eq hino
  have hrootlen : (rootContents ROOTINO).length = Dirent.size * 2 := by
    rw [rootContents, Function.update_self, List.length_append,
      Dirent.length_bytes, Dirent.length_bytes]
    rfl
  have hrootv : v.Used formatted.freeinode.toNat :=
    ⟨by decide, by rw [hino]; decide⟩
  have hmax : (rootContents ROOTINO).length + Dirent.size * files.length ≤
      NDIRECT * BSIZE := by
    change _ ≤ 208 at hlen
    rw [hrootlen]
    simp only [Dirent.size, NDIRECT, BSIZE]
    omega
  refine ((addFiles_spec files hvi hrootv (by omega)).onReturn.both
      (addFiles_tidy files hvi hvt hone hrootv (by omega)
        (by rw [hrootlen]; exact dvd_mul_right ..) hmax)).andThen ?_
  rw [hinoBv]
  rintro inums w ⟨⟨-, hwi, -, hwf, -⟩, hwt⟩
  rw [hinoBv] at hwi
  have hrootw : w.Used formatted.freeinode.toNat := by
    refine ⟨by decide, ?_⟩
    change 1 < _
    omega
  refine Program.Sat.andThen (Q := fun _ t => Tidy t _) ?_
    fun _ _ ht => .pure ht
  unfold finish
  refine (fixRoot_tidy hwi.good hwt hrootw hwi.inodes.2).andThen ?_
  rintro _ x ⟨hxt, hxg, hxf⟩
  apply Program.Sat.bind
  apply Program.Sat.get
  exact balloc_tidy hxg hxt (by rw [hxf]; exact hwi.inodes.2)

end Run

end ZtlOs.Mkfs
