import ZtlOs.Mkfs.Mkfs

/-!
# The image that mkfs builds

While mkfs runs, the blocks of every inode are distinct blocks between the meta
blocks and `freeblock`, an inode has as many blocks as its content needs, and
every block from `freeblock` on is zero.  The proofs follow the rounds of
`iappend`: a block is found or taken, then bytes are stored in it.
-/

namespace ZtlOs.Mkfs

open ZtlOs.Support ZtlOs.Fs

/-- The content of each inode. -/
abbrev Contents := ℕ → List (BitVec 8)

/-! ## The data area -/

/-- The blocks below `free` are handed out to the inodes `V`; inode `i` has
its first `nmap i` blocks. -/
structure Laid (sect : ℕ → Block) (V : ℕ → Dinode) (free : ℕ)
    (nmap : ℕ → ℕ) : Prop where
  separate : (slots sect V).Separate fun b => nmeta ≤ b ∧ b < free
  mapped : ∀ i bn, bn < nmap i → slots sect V i (dataSlot bn) ≠ 0
  unmapped : ∀ i bn, nmap i ≤ bn → bn < MAXFILE →
    slots sect V i (dataSlot bn) = 0
  bound : ∀ i, nmap i ≤ MAXFILE
  fresh : ∀ b, free ≤ b → b < FSSIZE → sect b = Block.zero
  above : nmeta ≤ free

/-- The content of every inode is `c`. -/
def Holds (sect : ℕ → Block) (V : ℕ → Dinode) (c : Contents) : Prop :=
  ∀ i j, (h : j < (c i).length) → (V i).byteAt sect j = (c i)[j]

namespace Laid

variable {sect sect' : ℕ → Block} {V : ℕ → Dinode} {free : ℕ} {nmap : ℕ → ℕ}
variable {i fbn : ℕ} {v : BitVec 32} {c : Contents}

theorem not_lists (h : Laid sect V free nmap) (hf : free ≤ v.toNat) :
    ¬(slots sect V).Lists v.toNat := by
  rintro ⟨i, k, hk, heq⟩
  have hpos : nmeta ≤ free := h.above
  have hmeta : 0 < nmeta := by decide
  have hlt := (h.separate.inside i k hk (by omega)).2
  omega

theorem lt_free (h : Laid sect V free nmap) (hbn : fbn < nmap i) :
    slots sect V i (dataSlot fbn) < free :=
  (h.separate.inside i _ (dataSlot_lt (lt_of_lt_of_le hbn (h.bound i)))
    (h.mapped i fbn hbn)).2

theorem nmeta_le (h : Laid sect V free nmap) (hbn : fbn < nmap i) :
    nmeta ≤ slots sect V i (dataSlot fbn) :=
  (h.separate.inside i _ (dataSlot_lt (lt_of_lt_of_le hbn (h.bound i)))
    (h.mapped i fbn hbn)).1

/-- The block with index `nmap i` is put into its slot. -/
theorem assign (h : Laid sect V free nmap) (hv : v.toNat = free)
    (hbn : nmap i < MAXFILE) {sect' : ℕ → Block} {V' : ℕ → Dinode}
    (hslots : slots sect' V' =
      (slots sect V).assign i (dataSlot (nmap i)) v.toNat)
    (hsect : ∀ b, free ≤ b → b < FSSIZE → sect' b = sect b) :
    Laid sect' V' (free + 1) (Function.update nmap i (nmap i + 1)) where
  separate := by
    rw [hslots]
    refine (h.separate.mono ?_).assign (h.not_lists hv.ge) ?_
    · rintro b ⟨h₁, h₂⟩
      exact ⟨h₁, by omega⟩
    · exact ⟨by rw [hv]; exact h.above, by omega⟩
  mapped := by
    intro i' bn hlt
    rw [hslots]
    by_cases hi : i' = i
    · subst hi
      rw [Function.update_self] at hlt
      by_cases hbn' : bn = nmap i'
      · subst hbn'
        have hmeta : 0 < nmeta := by decide
        have := h.above
        rw [Slots.assign_self]
        omega
      · rw [Slots.assign_of_ne
          (.inr fun heq => hbn' (dataSlot_injective heq))]
        exact h.mapped i' bn (by omega)
    · rw [Function.update_of_ne hi] at hlt
      rw [Slots.assign_of_ne (.inl hi)]
      exact h.mapped i' bn hlt
  unmapped := by
    intro i' bn hle hmax
    rw [hslots]
    by_cases hi : i' = i
    · subst hi
      rw [Function.update_self] at hle
      rw [Slots.assign_of_ne (.inr fun heq => by
        have := dataSlot_injective heq
        omega)]
      exact h.unmapped i' bn (by omega) hmax
    · rw [Function.update_of_ne hi] at hle
      rw [Slots.assign_of_ne (.inl hi)]
      exact h.unmapped i' bn hle hmax
  bound := by
    intro i'
    by_cases hi : i' = i
    · subst hi
      rw [Function.update_self]
      omega
    · rw [Function.update_of_ne hi]
      exact h.bound i'
  fresh := by
    intro b hb hlt
    rw [hsect b (by omega) hlt]
    exact h.fresh b (by omega) hlt
  above := Nat.le_succ_of_le h.above

/-- The indirect block is put into its slot. -/
theorem assignIndirect (h : Laid sect V free nmap) (hv : v.toNat = free)
    {V' : ℕ → Dinode}
    (hslots : slots sect V' = (slots sect V).assign i NDIRECT v.toNat) :
    Laid sect V' (free + 1) nmap where
  separate := by
    rw [hslots]
    refine (h.separate.mono ?_).assign (h.not_lists hv.ge) ?_
    · rintro b ⟨h₁, h₂⟩
      exact ⟨h₁, by omega⟩
    · exact ⟨by rw [hv]; exact h.above, by omega⟩
  mapped := by
    intro i' bn hlt
    rw [hslots, Slots.assign_of_ne (.inr (dataSlot_ne_indirect bn))]
    exact h.mapped i' bn hlt
  unmapped := by
    intro i' bn hle hmax
    rw [hslots, Slots.assign_of_ne (.inr (dataSlot_ne_indirect bn))]
    exact h.unmapped i' bn hle hmax
  bound := h.bound
  fresh := fun b hb hlt => h.fresh b (by omega) hlt
  above := Nat.le_succ_of_le h.above

theorem slots_store (h : Laid sect V free nmap) (hbn : fbn < nmap i)
    (x : Block) :
    slots (Function.update sect (slots sect V i (dataSlot fbn)) x) V =
      slots sect V := by
  apply slots_update
  intro i' heq
  exact absurd heq (h.separate.ne_indirect
    (lt_of_lt_of_le hbn (h.bound i)) (h.mapped i fbn hbn) i')

/-- Storing bytes in a data block. -/
theorem store (h : Laid sect V free nmap) (hbn : fbn < nmap i) (x : Block) :
    Laid (Function.update sect (slots sect V i (dataSlot fbn)) x) V free
      nmap := by
  have hslots := h.slots_store hbn x
  have hlt := h.lt_free hbn
  constructor
  · rw [hslots]
    exact h.separate
  · rw [hslots]
    exact h.mapped
  · rw [hslots]
    exact h.unmapped
  · exact h.bound
  · intro b hb hb'
    rw [Function.update_of_ne (by omega)]
    exact h.fresh b hb hb'
  · exact h.above

end Laid

/-! ## Sectors -/

section Sectors

variable {s : State} {sec : BitVec 32}

theorem seek_eq (h : sec.toNat ≤ FSSIZE) : seek sec = sec.toNat := by
  simp only [FSSIZE] at h
  rw [seek, BitVec.toNat_mul, BitVec.toNat_ofNat, BSIZE]
  omega

/-- Sectors beyond the end of the image cannot be read. -/
theorem rsect_spec (hn : s.nsect = FSSIZE) (h : sec.toNat ≤ FSSIZE) :
    Program.Sat (rsect sec) s
      (fun b t => t = s ∧ b = s.sect sec.toNat ∧ sec.toNat < FSSIZE)
      (fun _ => sec.toNat = FSSIZE) := by
  unfold rsect
  apply Program.Sat.bind
  apply Program.Sat.get
  rw [seek_eq h, hn]
  apply Program.Sat.ite
  · intro hlt
    exact .pure ⟨rfl, rfl, hlt⟩
  · intro hge
    exact .throw (by omega)

theorem wsect_spec {E : Stop → Prop} (hn : s.nsect = FSSIZE)
    (h : sec.toNat < FSSIZE) (buf : Block) :
    Program.Sat (wsect sec buf) s
      (fun _ t => t =
        { s with sect := Function.update s.sect sec.toNat buf }) E := by
  unfold wsect
  apply Program.Sat.modify
  rw [seek_eq h.le, hn, max_eq_left (by omega), ← hn]

theorem takeBlock_spec {E : Stop → Prop} :
    Program.Sat takeBlock s
      (fun b t => b = s.freeblock ∧
        t = { s with freeblock := s.freeblock + 1 }) E := by
  unfold takeBlock
  apply Program.Sat.bind
  apply Program.Sat.get
  apply Program.Sat.bind
  apply Program.Sat.modify
  exact .pure ⟨rfl, rfl⟩

theorem toNat_add_one {v : BitVec 32} (h : v.toNat ≤ FSSIZE) :
    (v + 1).toNat = v.toNat + 1 := by
  simp only [FSSIZE] at h
  have hone : (1 : BitVec 32).toNat = 1 := rfl
  rw [BitVec.toNat_add, hone]
  omega

end Sectors

/-! ## Finding a block -/

/-- The blocks that an inode with `m` data blocks takes. -/
def cost (m : ℕ) : ℕ :=
  m + if NDIRECT < m then 1 else 0

theorem cost_mono {m n : ℕ} (h : m ≤ n) : cost m ≤ cost n := by
  unfold cost
  split <;> split <;> omega

theorem cost_succ_direct {m : ℕ} (h : m < NDIRECT) :
    cost (m + 1) = cost m + 1 := by
  unfold cost
  rw [if_neg (by omega), if_neg (by omega)]

theorem cost_succ_indirect {m : ℕ} (h : NDIRECT ≤ m) :
    cost m + 1 ≤ cost (m + 1) := by
  unfold cost
  split <;> split <;> omega

theorem cost_first_indirect : cost (NDIRECT + 1) = cost NDIRECT + 2 := by
  decide

/-- A content stays where its blocks stay. -/
theorem Holds.of_blocks {sect sect' : ℕ → Block} {V V' : ℕ → Dinode}
    {nmap : ℕ → ℕ} {c : Contents} (h : Holds sect V c)
    (hc : ∀ i, blocksOf (c i).length ≤ nmap i)
    (hslot : ∀ i bn, bn < nmap i →
      slots sect' V' i (dataSlot bn) = slots sect V i (dataSlot bn))
    (hsect : ∀ i bn, bn < nmap i → sect' (slots sect V i (dataSlot bn)) =
      sect (slots sect V i (dataSlot bn))) : Holds sect' V' c := by
  intro i j hj
  have hbn : j / BSIZE < nmap i :=
    lt_of_lt_of_le (div_lt_blocksOf hj) (hc i)
  rw [← h i j hj]
  change (sect' (slots sect' V' i (dataSlot (j / BSIZE)))).byte _ =
    (sect (slots sect V i (dataSlot (j / BSIZE)))).byte _
  rw [hslot i _ hbn, hsect i _ hbn]

/-- What `blockFor` leaves: block `x` has index `fbn` in inode `i`, now `d`,
and the contents are where they were. -/
structure Found (s t : State) (V : ℕ → Dinode) (nmap : ℕ → ℕ) (i fbn : ℕ)
    (x : BitVec 32) (d : Dinode) : Prop where
  slot : slots t.sect (Function.update V i d) i (dataSlot fbn) = x.toNat
  laid : Laid t.sect (Function.update V i d) t.freeblock.toNat
    (Function.update nmap i (max (nmap i) (fbn + 1)))
  spent : t.freeblock.toNat + cost (nmap i) ≤
    s.freeblock.toNat + cost (max (nmap i) (fbn + 1))
  within : x.toNat ≤ FSSIZE
  top : t.freeblock.toNat ≤ max FSSIZE (x.toNat + 1)
  nsect : t.nsect = s.nsect
  freeinode : t.freeinode = s.freeinode
  holds : ∀ c : Contents, (∀ i, blocksOf (c i).length ≤ nmap i) →
    Holds s.sect V c → Holds t.sect (Function.update V i d) c
  low : ∀ b < nmeta, t.sect b = s.sect b
  addrs : d = { V i with addrs := d.addrs }

section BlockFor

variable {s : State} {V : ℕ → Dinode} {nmap : ℕ → ℕ} {i fbn : ℕ}

/-- The block is there. -/
theorem Found.of_mapped {x : BitVec 32}
    (h : Laid s.sect V s.freeblock.toNat nmap)
    (hfree : s.freeblock.toNat ≤ FSSIZE) (hlt : fbn < nmap i)
    (hx : slots s.sect V i (dataSlot fbn) = x.toNat) :
    Found s s V nmap i fbn x (V i) := by
  have hmax : max (nmap i) (fbn + 1) = nmap i := max_eq_left hlt
  constructor
  · rw [Function.update_eq_self]
    exact hx
  · rw [hmax, Function.update_eq_self, Function.update_eq_self]
    exact h
  · rw [hmax]
  · rw [← hx]
    exact (h.lt_free hlt).le.trans hfree
  · exact le_max_of_le_left hfree
  · rfl
  · rfl
  · intro c _ hc
    rw [Function.update_eq_self]
    exact hc
  · exact fun b _ => rfl
  · rfl

/-- A direct block is taken. -/
theorem Found.of_direct (h : Laid s.sect V s.freeblock.toNat nmap)
    (hfree : s.freeblock.toNat ≤ FSSIZE) (hdir : nmap i < NDIRECT)
    (k : Fin (NDIRECT + 1)) (hk : k.val = nmap i) :
    Found s { s with freeblock := s.freeblock + 1 } V nmap i (nmap i)
      s.freeblock ((V i).setAddr k s.freeblock) := by
  have hdata : dataSlot (nmap i) = k.val := by
    rw [dataSlot, if_pos hdir, hk]
  have hslots : slots s.sect
      (Function.update V i ((V i).setAddr k s.freeblock)) =
      (slots s.sect V).assign i k.val s.freeblock.toNat :=
    slots_setAddr_direct (by omega)
  have hmax : max (nmap i) (nmap i + 1) = nmap i + 1 := max_eq_right (by omega)
  have hadd := toNat_add_one hfree
  constructor
  · rw [hslots, hdata]
    exact Slots.assign_self
  · rw [hmax]
    simp only [hadd]
    refine h.assign rfl ?_ ?_ fun _ _ _ => rfl
    · exact lt_of_lt_of_le hdir (by decide)
    · rw [hdata]
      exact hslots
  · rw [hmax, cost_succ_direct hdir]
    simp only [hadd]
    omega
  · exact hfree
  · simp only [hadd]
    exact le_max_right ..
  · rfl
  · rfl
  · intro c hc hholds
    refine hholds.of_blocks hc ?_ fun _ _ _ => rfl
    intro i' bn hbn
    rw [hslots]
    apply Slots.assign_of_ne
    by_cases hi : i' = i
    · subst hi
      refine .inr fun heq => ?_
      rw [← hdata] at heq
      have := dataSlot_injective heq
      omega
    · exact .inl hi
  · exact fun b _ => rfl
  · rfl

/-- A block is taken and its address stored in the indirect block. -/
theorem Found.of_entry (h : Laid s.sect V s.freeblock.toNat nmap)
    (hfree : s.freeblock.toNat ≤ FSSIZE) (hind : NDIRECT ≤ nmap i)
    (hmax : nmap i < MAXFILE) (hne : slots s.sect V i NDIRECT ≠ 0) :
    Found s
      { s with
        freeblock := s.freeblock + 1
        sect := Function.update s.sect (slots s.sect V i NDIRECT)
          ((s.sect (slots s.sect V i NDIRECT)).setWord
            (4 * (nmap i - NDIRECT)) s.freeblock) }
      V nmap i (nmap i) s.freeblock (V i) := by
  have hj : nmap i - NDIRECT < NINDIRECT := by
    have : MAXFILE = NDIRECT + NINDIRECT := rfl
    omega
  have hdata : dataSlot (nmap i) = NDIRECT + 1 + (nmap i - NDIRECT) := by
    rw [dataSlot, if_neg (by omega)]
    omega
  have hslots := slots_setEntry h.separate hne hj (v := s.freeblock)
  rw [← hdata] at hslots
  have hup : max (nmap i) (nmap i + 1) = nmap i + 1 := max_eq_right (by omega)
  have hadd := toNat_add_one hfree
  have hrange := h.separate.inside i NDIRECT (by decide) hne
  constructor
  · rw [Function.update_eq_self, hslots]
    exact Slots.assign_self
  · rw [hup, Function.update_eq_self]
    simp only [hadd]
    refine h.assign rfl hmax hslots ?_
    intro b hb _
    exact Function.update_of_ne (by omega) ..
  · rw [hup]
    simp only [hadd]
    have := cost_succ_indirect hind
    omega
  · exact hfree
  · simp only [hadd]
    exact le_max_right ..
  · rfl
  · rfl
  · intro c hc hholds
    rw [Function.update_eq_self]
    refine hholds.of_blocks hc ?_ ?_
    · intro i' bn hbn
      rw [hslots]
      apply Slots.assign_of_ne
      by_cases hi : i' = i
      · subst hi
        refine .inr fun heq => ?_
        have := dataSlot_injective heq
        omega
      · exact .inl hi
    · intro i' bn hbn
      refine Function.update_of_ne ?_ ..
      exact (h.separate.ne_indirect (lt_of_lt_of_le hbn (h.bound i'))
        (h.mapped i' bn hbn) i).symm
  · intro b hb
    exact Function.update_of_ne (by omega) ..
  · rfl

/-- The indirect block is taken first. -/
theorem Found.of_indirect {t : State} {x : BitVec 32} {d : Dinode}
    (hnmap : nmap i = NDIRECT)
    (hslots : slots s.sect
        (Function.update V i ((V i).setAddr indirectSlot s.freeblock)) =
      (slots s.sect V).assign i NDIRECT s.freeblock.toNat)
    (hf : Found { s with freeblock := s.freeblock + 1 } t
      (Function.update V i ((V i).setAddr indirectSlot s.freeblock)) nmap i
      (nmap i) x d)
    (ht : t.freeblock.toNat ≤ s.freeblock.toNat + 2) :
    Found s t V nmap i (nmap i) x d := by
  constructor
  · have := hf.slot
    rwa [Function.update_idem] at this
  · have := hf.laid
    rwa [Function.update_idem] at this
  · rw [max_eq_right (by omega), hnmap, cost_first_indirect]
    omega
  · exact hf.within
  · exact hf.top
  · exact hf.nsect
  · exact hf.freeinode
  · intro c hc hholds
    have := hf.holds c hc (hholds.of_blocks hc ?_ fun _ _ _ => rfl)
    · rwa [Function.update_idem] at this
    · intro i' bn _
      rw [hslots]
      exact Slots.assign_of_ne (.inr (dataSlot_ne_indirect bn))
  · exact hf.low
  · have := hf.addrs
    rwa [Function.update_self] at this

/-- The part of `blockFor` after the indirect block is there. -/
def entryFor (din : Dinode) (fbn : ℕ) : M (BitVec 32 × Dinode) := do
  let indirect ← rsect (din.addrs indirectSlot)
  if indirect.word (4 * (fbn - NDIRECT)) = 0 then do
    let b ← takeBlock
    wsect (din.addrs indirectSlot) (indirect.setWord (4 * (fbn - NDIRECT)) b)
    pure (b, din)
  else pure (indirect.word (4 * (fbn - NDIRECT)), din)

theorem blockFor_direct (din : Dinode) (k : Fin (NDIRECT + 1))
    (hk : k.val < NDIRECT) :
    blockFor din k.val =
      if din.addrs k = 0 then do
        let b ← takeBlock
        pure ((din.setAddr k b).addrs k, din.setAddr k b)
      else pure (din.addrs k, din) := by
  have hfin : Fin.ofNat (NDIRECT + 1) k.val = k := by
    ext
    exact Nat.mod_eq_of_lt k.isLt
  rw [blockFor, if_pos hk, hfin]
  simp only [xint_eq]

theorem blockFor_indirect (din : Dinode) {fbn : ℕ} (hfbn : NDIRECT ≤ fbn) :
    blockFor din fbn = (do
      let din ←
        if din.addrs indirectSlot = 0 then do
          let b ← takeBlock
          pure (din.setAddr indirectSlot b)
        else pure din
      entryFor din fbn) := by
  rw [blockFor, if_neg (by omega)]
  simp only [xint_eq]
  rfl

theorem entryFor_spec {E : Stop → Prop}
    (h : Laid s.sect V s.freeblock.toNat nmap) (hn : s.nsect = FSSIZE)
    (hfree : s.freeblock.toNat ≤ FSSIZE) (hind : NDIRECT ≤ fbn)
    (hmax : fbn < MAXFILE) (hle : fbn ≤ nmap i)
    (hne : slots s.sect V i NDIRECT ≠ 0) :
    Program.Sat (entryFor (V i) fbn) s
      (fun r t => Found s t V nmap i fbn r.1 r.2 ∧
        t.freeblock.toNat ≤ s.freeblock.toNat + 1) E := by
  have hslot : ((V i).addrs indirectSlot).toNat = slots s.sect V i NDIRECT :=
    Dinode.slot_indirectSlot.symm
  have hlt := (h.separate.inside i NDIRECT (by decide) hne).2
  have hdata : dataSlot fbn = NDIRECT + 1 + (fbn - NDIRECT) := by
    rw [dataSlot, if_neg (by omega)]
    omega
  have hentry : slots s.sect V i (dataSlot fbn) =
      ((s.sect (slots s.sect V i NDIRECT)).word (4 * (fbn - NDIRECT))).toNat :=
    by
      rw [hdata]
      exact Dinode.slot_entry
        (fun h0 => hne (Dinode.addrs_indirectSlot_eq_zero.mp h0)) _
  unfold entryFor
  refine ((rsect_spec hn (by omega)).mono (fun _ _ hQ => hQ) ?_).andThen ?_
  · intro e he
    omega
  · rintro indirect t ⟨rfl, rfl, hread⟩
    rw [hslot] at hread ⊢
    apply Program.Sat.ite
    · intro hzero
      have hnmap : nmap i = fbn := by
        by_contra hne'
        apply h.mapped i fbn (by omega)
        rw [hentry, hzero]
        rfl
      subst hnmap
      refine takeBlock_spec.andThen ?_
      rintro b t ⟨rfl, rfl⟩
      refine (wsect_spec (E := E) ?_ ?_ _).andThen ?_
      · exact hn
      · omega
      rintro _ t rfl
      apply Program.Sat.pure
      rw [hslot]
      refine ⟨Found.of_entry h hfree hind hmax hne, ?_⟩
      simp only [toNat_add_one hfree]
      exact le_rfl
    · intro hentry0
      apply Program.Sat.pure
      refine ⟨Found.of_mapped h hfree ?_ hentry, Nat.le_succ _⟩
      by_contra hge
      apply hentry0
      apply BitVec.eq_of_toNat_eq
      rw [← hentry, h.unmapped i fbn (by omega) hmax]
      rfl

/-- The block for index `fbn` is found, unless the disk is full. -/
theorem blockFor_spec (h : Laid s.sect V s.freeblock.toNat nmap)
    (hn : s.nsect = FSSIZE) (hfree : s.freeblock.toNat ≤ FSSIZE)
    (hmax : fbn < MAXFILE) (hle : fbn ≤ nmap i) :
    Program.Sat (blockFor (V i) fbn) s
      (fun r t => Found s t V nmap i fbn r.1 r.2)
      (fun _ => FSSIZE + cost (nmap i) <
        s.freeblock.toNat + cost (max (nmap i) (fbn + 1))) := by
  rcases Nat.lt_or_ge fbn NDIRECT with hdir | hind
  · obtain ⟨k, rfl⟩ : ∃ k : Fin (NDIRECT + 1), k.val = fbn :=
      ⟨⟨fbn, by omega⟩, rfl⟩
    have hdata : dataSlot k.val = k.val := if_pos hdir
    have hslot : slots s.sect V i (dataSlot k.val) =
        ((V i).addrs k).toNat := by
      rw [hdata]
      exact Dinode.slot_direct k.isLt
    rw [blockFor_direct _ _ hdir]
    apply Program.Sat.ite
    · intro hzero
      have hnmap : nmap i = k.val := by
        by_contra hne
        apply h.mapped i k.val (by omega)
        rw [hslot, hzero]
        rfl
      refine takeBlock_spec.andThen ?_
      rintro b t ⟨rfl, rfl⟩
      apply Program.Sat.pure
      rw [Dinode.addrs_setAddr_self, ← hnmap]
      exact Found.of_direct h hfree (by omega) k hnmap.symm
    · intro hsome
      apply Program.Sat.pure
      refine Found.of_mapped h hfree ?_ hslot
      by_contra hge
      apply hsome
      apply BitVec.eq_of_toNat_eq
      rw [← hslot, h.unmapped i k.val (by omega) hmax]
      rfl
  · rw [blockFor_indirect _ hind]
    by_cases hzero : (V i).addrs indirectSlot = 0
    · have hnone : slots s.sect V i NDIRECT = 0 :=
        Dinode.addrs_indirectSlot_eq_zero.mp hzero
      have hnmap : nmap i = NDIRECT := by
        by_contra hne
        apply h.mapped i NDIRECT (by omega)
        exact Dinode.slot_entry_none hzero 0
      obtain rfl : fbn = nmap i := by omega
      rw [if_pos hzero]
      refine takeBlock_spec.andThen ?_
      rintro b t ⟨rfl, rfl⟩
      apply Program.Sat.bind
      apply Program.Sat.pure
      have hself : (Function.update V i
          ((V i).setAddr indirectSlot s.freeblock)) i =
          (V i).setAddr indirectSlot s.freeblock := Function.update_self ..
      have hadd := toNat_add_one hfree
      rcases Nat.lt_or_ge s.freeblock.toNat FSSIZE with hlt | hge
      · have hslots := slots_setAddr_indirect (v := s.freeblock) hnone
          (h.fresh _ le_rfl hlt)
        have hlaid := h.assignIndirect rfl hslots
        rw [← hadd] at hlaid
        have hmeta := h.above
        have hpos : 0 < nmeta := by decide
        rw [← hself]
        refine Program.Sat.imp (entryFor_spec (i := i)
          (s := { s with freeblock := s.freeblock + 1 }) ?_ ?_ ?_ hind hmax
          le_rfl ?_) ?_
        · exact hlaid
        · exact hn
        · simp only [hadd]
          omega
        · rw [hslots, Slots.assign_self]
          omega
        · rintro ⟨x, d⟩ t ⟨hfound, ht⟩
          refine hfound.of_indirect hnmap hslots ?_
          simp only [hadd] at ht
          omega
      · refine Program.Sat.bind ((rsect_spec ?_ ?_).mono ?_ ?_)
        · exact hn
        · rw [Dinode.addrs_setAddr_self]
          exact hfree
        · rintro _ _ ⟨-, -, hlt⟩
          rw [Dinode.addrs_setAddr_self] at hlt
          omega
        · intro _ _
          rw [max_eq_right (by omega), hnmap, cost_first_indirect]
          omega
    · have hne : slots s.sect V i NDIRECT ≠ 0 := fun h0 =>
        hzero (Dinode.addrs_indirectSlot_eq_zero.mpr h0)
      rw [if_neg hzero]
      refine Program.Sat.andThen (Q := fun d t => d = V i ∧ t = s)
        (.pure ⟨rfl, rfl⟩) ?_
      rintro d t ⟨rfl, rfl⟩
      exact (entryFor_spec h hn hfree hind hmax hle hne).imp
        fun _ _ hQ => hQ.1

end BlockFor

/-! ## Storing bytes -/

/-- The bytes `q` are stored after the content of inode `i`, in its last
block. -/
theorem Holds.store {sect : ℕ → Block} {V : ℕ → Dinode} {free : ℕ}
    {nmap : ℕ → ℕ} {c : Contents} {i fbn : ℕ} {q : List (BitVec 8)}
    (hL : Laid sect V free nmap) (h : Holds sect V c)
    (hc : ∀ i, blocksOf (c i).length ≤ nmap i) (hi : nmap i = fbn + 1)
    (hlen : fbn * BSIZE ≤ (c i).length)
    (hq : (c i).length + q.length ≤ (fbn + 1) * BSIZE) :
    Holds (Function.update sect (slots sect V i (dataSlot fbn))
        ((sect (slots sect V i (dataSlot fbn))).put
          ((c i).length - fbn * BSIZE) q))
      V (Function.update c i (c i ++ q)) := by
  have hfbn : fbn < nmap i := by omega
  rw [Nat.add_mul, Nat.one_mul] at hq
  -- A mapped block other than the one written keeps its bytes.
  have hother : ∀ i' bn, bn < nmap i' → (i' ≠ i ∨ bn ≠ fbn) →
      slots sect V i' (dataSlot bn) ≠ slots sect V i (dataSlot fbn) := by
    intro i' bn hbn hne heq
    have hmax := lt_of_lt_of_le hbn (hL.bound i')
    have hmax' := lt_of_lt_of_le hfbn (hL.bound i)
    obtain ⟨h₁, h₂⟩ := hL.separate.inj i' _ i _ (dataSlot_lt hmax)
      (dataSlot_lt hmax') (hL.mapped i' bn hbn) heq
    rcases hne with hne | hne
    · exact hne h₁
    · exact hne (dataSlot_injective h₂)
  intro i' j hj
  have hold : ∀ i' j, (h' : j < (c i').length) →
      (sect (slots sect V i' (dataSlot (j / BSIZE)))).byte (j % BSIZE) =
        (c i')[j] := fun i' j h' => (byteAt_eq sect V i' j).symm.trans (h i' j h')
  rw [byteAt_eq, hL.slots_store hfbn]
  by_cases hi' : i' = i
  · subst hi'
    have hj' : j < (c i').length + q.length := by simpa using hj
    simp only [Function.update_self]
    by_cases hbn : j / BSIZE = fbn
    · have hjeq : j = fbn * BSIZE + j % BSIZE := by
        rw [← hbn]
        exact (Nat.div_add_mod' j BSIZE).symm
      have hmod : j % BSIZE < BSIZE := Nat.mod_lt _ (by decide)
      rw [hbn, Function.update_self]
      by_cases hlt : j < (c i').length
      · rw [Block.byte_put_of_not_mem (by omega), List.getElem_append_left hlt,
          ← hold i' j hlt, hbn]
      · have hoff : j % BSIZE =
            (c i').length - fbn * BSIZE + (j - (c i').length) := by omega
        rw [List.getElem_append_right (by omega), hoff,
          Block.byte_put_of_mem (by omega) (by omega)]
    · have hle : j / BSIZE < fbn + 1 :=
        (Nat.div_lt_iff_lt_mul (by decide)).mpr (by
          rw [Nat.add_mul, Nat.one_mul]
          omega)
      have hlt : j < (c i').length :=
        lt_of_lt_of_le ((Nat.div_lt_iff_lt_mul (by decide)).mp
          (show j / BSIZE < fbn by omega)) hlen
      rw [Function.update_of_ne (hother i' _ (by omega) (.inr hbn)),
        List.getElem_append_left hlt, ← hold i' j hlt]
  · have hj' : j < (c i').length := by simpa [Function.update_of_ne hi'] using hj
    simp only [Function.update_of_ne hi']
    have hbn : j / BSIZE < nmap i' :=
      lt_of_lt_of_le (div_lt_blocksOf hj') (hc i')
    rw [Function.update_of_ne (hother i' _ hbn (.inl hi')), ← hold i' j hj']

/-! ## The loop of iappend -/

/-- The number of blocks of each inode. -/
def nmapOf (c : Contents) : ℕ → ℕ :=
  fun i => blocksOf (c i).length

/-- The inodes `V` have the contents `c`. -/
structure Good (s : State) (V : ℕ → Dinode) (c : Contents) : Prop where
  laid : Laid s.sect V s.freeblock.toNat (nmapOf c)
  holds : Holds s.sect V c
  nsect : s.nsect = FSSIZE
  full : s.freeblock.toNat ≤ FSSIZE

/-- The bytes `p` have been appended to inode `i`, now `d`. -/
structure Appended (s t : State) (V : ℕ → Dinode) (c : Contents) (i : ℕ)
    (p : List (BitVec 8)) (off : BitVec 32) (d : Dinode) : Prop where
  good : Good t (Function.update V i d) (Function.update c i (c i ++ p))
  off_eq : off.toNat = (c i).length + p.length
  spent : t.freeblock.toNat + cost (blocksOf (c i).length) ≤
    s.freeblock.toNat + cost (blocksOf ((c i).length + p.length))
  freeinode : t.freeinode = s.freeinode
  low : ∀ b < nmeta, t.sect b = s.sect b
  addrs : d = { V i with addrs := d.addrs }

/-- There is no room to append `n` bytes to a content of `len` bytes. -/
def NoRoom (s : State) (len n : ℕ) : Prop :=
  MAXFILE * BSIZE < len + n ∨
    FSSIZE + cost (blocksOf len) < s.freeblock.toNat + cost (blocksOf (len + n))

/-- A round that fills the block with index `len / BSIZE` up to at most its
end. -/
theorem blocksOf_round {len n : ℕ} (hn : 0 < n)
    (hle : len + n ≤ (len / BSIZE + 1) * BSIZE) :
    blocksOf (len + n) = max (blocksOf len) (len / BSIZE + 1) := by
  simp only [blocksOf, BSIZE] at hle ⊢
  omega

section Loop

variable {s : State} {V : ℕ → Dinode} {c : Contents} {i fuel : ℕ}
variable {p : List (BitVec 8)} {off : BitVec 32}

theorem Appended.nil (hg : Good s V c) (hoff : off.toNat = (c i).length) :
    Appended s s V c i [] off (V i) where
  good := by
    rw [Function.update_eq_self, List.append_nil, Function.update_eq_self]
    exact hg
  off_eq := hoff
  spent := le_rfl
  freeinode := rfl
  low := fun _ _ => rfl
  addrs := rfl

/-- The first `n` bytes of `p` are stored in the block that was found. -/
theorem Good.round {t : State} {n : ℕ} {x : BitVec 32} {d : Dinode}
    (hg : Good s V c)
    (hf : Found s t V (nmapOf c) i ((c i).length / BSIZE) x d)
    (hn : 0 < n) (hnp : n ≤ p.length)
    (hle : (c i).length + n ≤ ((c i).length / BSIZE + 1) * BSIZE)
    (hx : x.toNat < FSSIZE) :
    Good
      { t with
        sect := Function.update t.sect x.toNat
          ((t.sect x.toNat).put
            ((c i).length - (c i).length / BSIZE * BSIZE) (p.take n)) }
      (Function.update V i d)
      (Function.update c i (c i ++ p.take n)) := by
  have hlen : (p.take n).length = n := List.length_take_of_le hnp
  have hnmap : nmapOf (Function.update c i (c i ++ p.take n)) =
      Function.update (nmapOf c) i
        (max (nmapOf c i) ((c i).length / BSIZE + 1)) := by
    funext i'
    by_cases hi : i' = i
    · subst hi
      rw [Function.update_self, nmapOf, Function.update_self,
        List.length_append, hlen, blocksOf_round hn hle]
      rfl
    · rw [Function.update_of_ne hi, nmapOf, Function.update_of_ne hi]
      rfl
  have hfbn : (c i).length / BSIZE <
      Function.update (nmapOf c) i
        (max (nmapOf c i) ((c i).length / BSIZE + 1)) i := by
    rw [Function.update_self]
    exact lt_of_lt_of_le (Nat.lt_succ_self _) (le_max_right ..)
  have hold : nmapOf c i ≤ (c i).length / BSIZE + 1 := by
    simp only [nmapOf, blocksOf, BSIZE]
    omega
  constructor
  · rw [hnmap, ← hf.slot]
    exact hf.laid.store hfbn _
  · rw [← hf.slot]
    refine Holds.store hf.laid (hf.holds c (fun _ => le_rfl) hg.holds) ?_ ?_
      (Nat.div_mul_le_self ..) ?_
    · intro i'
      by_cases hi : i' = i
      · subst hi
        rw [Function.update_self]
        exact le_max_left ..
      · rw [Function.update_of_ne hi]
        exact le_rfl
    · rw [Function.update_self]
      exact max_eq_right hold
    · rw [hlen]
      exact hle
  · exact hf.nsect.trans hg.nsect
  · exact hf.top.trans (max_le le_rfl (by omega))

/-- One round before the rest of the bytes. -/
theorem Appended.cons {s' u : State} {q q' : List (BitVec 8)} {d d' : Dinode}
    (h : Appended s' u (Function.update V i d)
      (Function.update c i (c i ++ q)) i q' off d')
    (hspent : s'.freeblock.toNat + cost (blocksOf (c i).length) ≤
      s.freeblock.toNat + cost (blocksOf ((c i).length + q.length)))
    (hinode : s'.freeinode = s.freeinode)
    (hlow : ∀ b < nmeta, s'.sect b = s.sect b)
    (haddrs : d = { V i with addrs := d.addrs }) :
    Appended s u V c i (q ++ q') off d' := by
  have hself : Function.update c i (c i ++ q) i = c i ++ q :=
    Function.update_self ..
  obtain ⟨hgood, hoff, hsp, hino, hl, had⟩ := h
  rw [hself, List.length_append] at hoff hsp
  constructor
  · rw [Function.update_idem, Function.update_idem, hself, List.append_assoc]
      at hgood
    exact hgood
  · rw [hoff, List.length_append, Nat.add_assoc]
  · rw [List.length_append, ← Nat.add_assoc]
    omega
  · exact hino.trans hinode
  · exact fun b hb => (hl b hb).trans (hlow b hb)
  · rw [Function.update_self] at had
    rw [had, haddrs]

theorem NoRoom.of_rest {s' : State} {len n m : ℕ}
    (hspent : s'.freeblock.toNat + cost (blocksOf len) ≤
      s.freeblock.toNat + cost (blocksOf (len + n)))
    (h : NoRoom s' (len + n) m) : NoRoom s len (n + m) := by
  unfold NoRoom at h ⊢
  rw [← Nat.add_assoc]
  rcases h with h | h
  · exact .inl h
  · exact .inr (by omega)

theorem NoRoom.mono {len n m : ℕ} (h : NoRoom s len n) (hle : n ≤ m) :
    NoRoom s len m := by
  have hcost := cost_mono (blocksOf_mono (Nat.add_le_add_left hle len))
  unfold NoRoom at h ⊢
  omega

theorem NoRoom.of_block {len n : ℕ} (hn : 0 < n)
    (h : FSSIZE + cost (blocksOf len) <
      s.freeblock.toNat + cost (max (blocksOf len) (len / BSIZE + 1))) :
    NoRoom s len n := by
  refine .inr (lt_of_lt_of_le h (Nat.add_le_add_left (cost_mono ?_) _))
  apply max_le (blocksOf_mono (Nat.le_add_right ..))
  exact Nat.succ_le_of_lt (div_lt_blocksOf (by omega))

theorem iappendLoop_spec (hg : Good s V c) (hoff : off.toNat = (c i).length)
    (hp : p.length ≤ fuel) :
    Program.Sat (iappendLoop fuel p off (V i)) s
      (fun r t => Appended s t V c i p r.1 r.2)
      (fun _ => NoRoom s (c i).length p.length) := by
  induction fuel generalizing s V c p off with
  | zero =>
      obtain rfl : p = [] := List.length_eq_zero_iff.mp (by omega)
      exact .pure (.nil hg hoff)
  | succ fuel ih =>
      unfold iappendLoop
      apply Program.Sat.ite
      · intro hnil
        obtain rfl : p = [] := List.length_eq_zero_iff.mp hnil
        exact .pure (.nil hg hoff)
      · intro hne
        rw [hoff]
        have hmod : (c i).length / BSIZE * BSIZE ≤ (c i).length :=
          Nat.div_mul_le_self ..
        have hmod' : (c i).length < ((c i).length / BSIZE + 1) * BSIZE :=
          (Nat.div_lt_iff_lt_mul (by decide)).mp (Nat.lt_succ_self _)
        have hbound := blocksOf_le_maxfile.mp (hg.laid.bound i)
        refine Program.Sat.andThen (Q := fun _ t => t = s ∧
          (c i).length / BSIZE < MAXFILE) ?_ ?_
        · unfold assert
          apply Program.Sat.ite
          · exact fun hlt => .pure ⟨rfl, hlt⟩
          · intro hge
            have := (Nat.le_div_iff_mul_le (by decide)).mp (not_lt.mp hge)
            exact .throw (.inl (by omega))
        · rintro _ t ⟨rfl, hmax⟩
          refine ((blockFor_spec hg.laid hg.nsect hg.full hmax ?_).mono
            (fun _ _ hQ => hQ) ?_).andThen ?_
          · simp only [nmapOf, blocksOf, BSIZE]
            omega
          · exact fun _ hE => .of_block (by omega) hE
          · rintro ⟨x, d⟩ u hf
            set n := min p.length
              (((c i).length / BSIZE + 1) * BSIZE - (c i).length) with hn
            have hmapped : (c i).length / BSIZE < Function.update (nmapOf c) i
                (max (nmapOf c i) ((c i).length / BSIZE + 1)) i := by
              rw [Function.update_self]
              omega
            have hfree := hf.laid.lt_free hmapped
            have hmeta := hf.laid.nmeta_le hmapped
            rw [hf.slot] at hfree hmeta
            have hn0 : 0 < n := by omega
            have hnp : n ≤ p.length := min_le_left ..
            have hle : (c i).length + n ≤
                ((c i).length / BSIZE + 1) * BSIZE := by omega
            refine ((rsect_spec (hf.nsect.trans hg.nsect) hf.within).mono
              (fun _ _ hQ => hQ) ?_).andThen ?_
            · intro _ hfull
              refine .of_block (by omega) ?_
              have hspent := hf.spent
              simp only [nmapOf] at hspent
              omega
            · rintro buf u ⟨rfl, rfl, hx⟩
              refine (wsect_spec (hf.nsect.trans hg.nsect) hx _).andThen ?_
              rintro _ u rfl
              have hround := hg.round hf hn0 hnp hle hx
              have hlen : (p.take n).length = n := List.length_take_of_le hnp
              have hself : Function.update c i (c i ++ p.take n) i =
                  c i ++ p.take n := Function.update_self ..
              have hspent := hf.spent
              simp only [nmapOf] at hspent
              rw [← blocksOf_round hn0 hle, ← hlen] at hspent
              have hoff' : (off + BitVec.ofNat 32 n).toNat =
                  (Function.update c i (c i ++ p.take n) i).length := by
                have hbound' := blocksOf_le_maxfile.mp (hround.laid.bound i)
                rw [hself, List.length_append, hlen] at hbound' ⊢
                simp only [MAXFILE, NDIRECT, NINDIRECT, BSIZE] at hbound'
                rw [BitVec.toNat_add, BitVec.toNat_ofNat]
                omega
              have hrest := ih (p := p.drop n) hround hoff' (by
                rw [List.length_drop]
                omega)
              rw [Function.update_self, hself, List.length_append] at hrest
              refine hrest.mono ?_ ?_
              · rintro ⟨off', d'⟩ w hw
                have hcons := hw.cons hspent hf.freeinode ?_ hf.addrs
                · rwa [List.take_append_drop] at hcons
                · intro b hb
                  refine (Function.update_of_ne ?_ ..).trans (hf.low b hb)
                  omega
              · intro _ hE
                have hrest := NoRoom.of_rest hspent hE
                rwa [← List.length_append, List.take_append_drop] at hrest

end Loop

/-! ## The inode area -/

/-- Inode `i` as it is stored in the image. -/
def State.inode (s : State) (i : ℕ) : Dinode :=
  (s.sect (IBLOCK i sb)).dinode (i % IPB)

/-- Inode `i` has been handed out by `ialloc`. -/
def State.Used (s : State) (i : ℕ) : Prop :=
  1 ≤ i ∧ i < s.freeinode.toNat

instance (s : State) (i : ℕ) : Decidable (s.Used i) :=
  inferInstanceAs (Decidable (_ ∧ _))

/-- The inodes that have been handed out. -/
def State.view (s : State) (i : ℕ) : Dinode :=
  if s.Used i then s.inode i else Dinode.zero

/-- The image holds the contents `c` as long as all inodes are in the inode
area. -/
structure Intact (s : State) (c : Contents) : Prop where
  good : Good s s.view c
  sizes : ∀ i, s.Used i → (s.inode i).size.toNat = (c i).length
  unused : ∀ i, ¬s.Used i → c i = []
  inodes : 1 ≤ s.freeinode.toNat ∧ s.freeinode.toNat ≤ ninodeblocks * IPB
  superblock : s.sect 1 = superblock

theorem iblock_lt {i : ℕ} (h : i < ninodeblocks * IPB) :
    IBLOCK i sb < sb.bmapstart := by
  change i / 8 + 32 < 58
  change i < 208 at h
  omega

theorem inodestart_le (i : ℕ) : sb.inodestart ≤ IBLOCK i sb :=
  Nat.le_add_left ..

/-- The bitmap block is the last meta block. -/
theorem nmeta_eq : nmeta = sb.bmapstart + 1 := by
  decide

section Inodes

variable {s t : State} {V V' : ℕ → Dinode} {c : Contents} {inum : BitVec 32}
variable {d : Dinode}

/-- The contents depend on the addresses and on the data area only. -/
theorem Good.congr (h : Good s V c) (haddrs : ∀ i, (V' i).addrs = (V i).addrs)
    (hsect : ∀ b, nmeta ≤ b → t.sect b = s.sect b)
    (hfree : t.freeblock = s.freeblock) (hn : t.nsect = s.nsect) :
    Good t V' c := by
  have hslots : slots t.sect V' = slots s.sect V := by
    funext i k
    rw [slots, slots, Dinode.slot_addrs (haddrs i)]
    apply Dinode.slot_congr
    intro hne
    exact hsect _ (h.laid.separate.inside i NDIRECT (by decide) hne).1
  constructor
  · constructor
    · rw [hslots, hfree]
      exact h.laid.separate
    · rw [hslots]
      exact h.laid.mapped
    · rw [hslots]
      exact h.laid.unmapped
    · exact h.laid.bound
    · intro b hb hlt
      rw [hfree] at hb
      rw [hsect b (h.laid.above.trans hb)]
      exact h.laid.fresh b hb hlt
    · rw [hfree]
      exact h.laid.above
  · refine h.holds.of_blocks (fun _ => le_rfl) ?_ ?_
    · intro i bn _
      rw [hslots]
    · intro i bn hbn
      exact hsect _ (h.laid.nmeta_le hbn)
  · exact hn.trans h.nsect
  · rw [hfree]
    exact h.full

theorem rinode_spec {E : Stop → Prop} (hn : s.nsect = FSSIZE)
    (h : inum.toNat < ninodeblocks * IPB) :
    Program.Sat (rinode inum) s
      (fun d t => t = s ∧ d = s.inode inum.toNat) E := by
  have hlt := iblock_lt h
  have hbn : (BitVec.ofNat 32 (IBLOCK inum.toNat sb)).toNat =
      IBLOCK inum.toNat sb := by
    change _ < 58 at hlt
    rw [BitVec.toNat_ofNat]
    omega
  have hbm : sb.bmapstart < FSSIZE := by decide
  unfold rinode
  refine ((rsect_spec hn (by omega)).mono (fun _ _ hQ => hQ) ?_).andThen ?_
  · intro _ hE
    omega
  · rintro b t ⟨rfl, rfl, -⟩
    rw [hbn]
    exact .pure ⟨rfl, rfl⟩

/-- The state after inode `i` is written. -/
def State.setInode (s : State) (i : ℕ) (d : Dinode) : State :=
  { s with
    sect := Function.update s.sect (IBLOCK i sb)
      ((s.sect (IBLOCK i sb)).setDinode (i % IPB) d) }

theorem winode_spec {E : Stop → Prop} (hn : s.nsect = FSSIZE)
    (h : inum.toNat < ninodeblocks * IPB) :
    Program.Sat (winode inum d) s
      (fun _ t => t = s.setInode inum.toNat d) E := by
  have hlt := iblock_lt h
  have hbn : (BitVec.ofNat 32 (IBLOCK inum.toNat sb)).toNat =
      IBLOCK inum.toNat sb := by
    change _ < 58 at hlt
    rw [BitVec.toNat_ofNat]
    omega
  have hbm : sb.bmapstart < FSSIZE := by decide
  unfold winode
  refine ((rsect_spec hn (by omega)).mono (fun _ _ hQ => hQ) ?_).andThen ?_
  · intro _ hE
    omega
  · rintro b t ⟨rfl, rfl, -⟩
    refine (wsect_spec hn (by omega) _).imp ?_
    rintro _ t rfl
    rw [hbn]
    rfl

theorem State.inode_setInode (s : State) (i j : ℕ) (d : Dinode) :
    (s.setInode i d).inode j = if j = i then d else s.inode j := by
  have hmod : ∀ i : ℕ, i % IPB < IPB := fun i => Nat.mod_lt _ (by decide)
  by_cases hblk : IBLOCK j sb = IBLOCK i sb
  · simp only [State.inode, State.setInode]
    rw [hblk, Function.update_self]
    split
    · next h =>
        rw [h]
        exact Block.dinode_setDinode_self (hmod i)
    · next h =>
        apply Block.dinode_setDinode_of_ne
        simp only [IBLOCK, IPB] at hblk ⊢
        omega
  · simp only [State.inode, State.setInode]
    rw [Function.update_of_ne hblk, if_neg (fun h => hblk (by rw [h]))]

/-- Writing an inode of the inode area leaves the data area alone. -/
theorem State.setInode_sect {i b : ℕ} (h : i < ninodeblocks * IPB)
    (hb : nmeta ≤ b) : (s.setInode i d).sect b = s.sect b := by
  have hlt := iblock_lt h
  have := nmeta_eq
  exact Function.update_of_ne (by omega) ..

theorem State.setInode_superblock (i : ℕ) :
    (s.setInode i d).sect 1 = s.sect 1 := by
  have hne : 1 ≠ IBLOCK i sb := by
    change 1 ≠ i / 8 + 32
    omega
  simp only [State.setInode]
  exact Function.update_of_ne hne ..

theorem State.view_of_used {i : ℕ} (h : s.Used i) : s.view i = s.inode i :=
  if_pos h

/-- Writing an inode with the addresses it had in memory. -/
theorem Intact.setInode {i : ℕ} (hs : Intact s c) (hu : s.Used i)
    (ht : t.freeinode = s.freeinode) (hl : ∀ b < nmeta, t.sect b = s.sect b)
    {c' : Contents} (hg : Good t (Function.update s.view i d) c')
    (hc : ∀ j, j ≠ i → c' j = c j) {d' : Dinode} (haddrs : d'.addrs = d.addrs)
    (hsize : d'.size.toNat = (c' i).length) :
    Intact (t.setInode i d') c' := by
  have harea : ∀ j, s.Used j → j < ninodeblocks * IPB := fun j hj =>
    lt_of_lt_of_le hj.2 hs.inodes.2
  have hused : ∀ j, (t.setInode i d').Used j ↔ s.Used j := by
    intro j
    unfold State.Used
    rw [← ht]
    rfl
  have hinode : ∀ j, s.Used j → t.inode j = s.inode j := by
    intro j hj
    have := iblock_lt (harea j hj)
    have := nmeta_eq
    rw [State.inode, hl _ (by omega)]
    rfl
  constructor
  · refine hg.congr ?_ (fun b hb => State.setInode_sect (harea i hu) hb) rfl rfl
    intro j
    by_cases hj : j = i
    · subst hj
      rw [State.view_of_used ((hused j).mpr hu), State.inode_setInode,
        if_pos rfl, Function.update_self]
      exact haddrs
    · rw [Function.update_of_ne hj]
      by_cases huj : s.Used j
      · rw [State.view_of_used ((hused j).mpr huj), State.inode_setInode,
          if_neg hj, hinode j huj, State.view_of_used huj]
      · rw [State.view, if_neg (fun h => huj ((hused j).mp h)), State.view,
          if_neg huj]
  · intro j hj
    rw [State.inode_setInode]
    by_cases hji : j = i
    · subst hji
      rw [if_pos rfl]
      exact hsize
    · have huj := (hused j).mp hj
      rw [if_neg hji, hinode j huj, hc j hji]
      exact hs.sizes j huj
  · intro j hj
    have huj : ¬s.Used j := fun h => hj ((hused j).mpr h)
    rw [hc j (fun h => huj (h ▸ hu))]
    exact hs.unused j huj
  · have hino := hs.inodes
    rw [← ht] at hino
    exact hino
  · rw [State.setInode_superblock, hl 1 (by decide)]
    exact hs.superblock

/-- What `iappend` has done to inode `i`. -/
structure AppendedTo (s t : State) (c : Contents) (i : ℕ)
    (p : List (BitVec 8)) : Prop where
  intact : Intact t (Function.update c i (c i ++ p))
  spent : t.freeblock.toNat + cost (blocksOf (c i).length) ≤
    s.freeblock.toNat + cost (blocksOf ((c i).length + p.length))
  freeinode : t.freeinode = s.freeinode
  type : ∀ j, s.Used j → (t.inode j).type = (s.inode j).type

theorem iappend_spec (hs : Intact s c) (hu : s.Used inum.toNat)
    (p : List (BitVec 8)) :
    Program.Sat (iappend inum p) s
      (fun _ t => AppendedTo s t c inum.toNat p)
      (fun _ => NoRoom s (c inum.toNat).length p.length) := by
  have harea : ∀ j, s.Used j → j < ninodeblocks * IPB := fun j hj =>
    lt_of_lt_of_le hj.2 hs.inodes.2
  have hview := State.view_of_used hu
  unfold iappend
  simp only [xint_eq]
  refine (rinode_spec hs.good.nsect (harea _ hu)).andThen ?_
  rintro d t ⟨rfl, rfl⟩
  rw [← hview]
  refine (iappendLoop_spec hs.good ?_ le_rfl).andThen ?_
  · rw [hview]
    exact hs.sizes _ hu
  · rintro ⟨off, d⟩ u happ
    refine (winode_spec happ.good.nsect (harea _ hu)).imp ?_
    rintro _ v rfl
    constructor
    · refine hs.setInode hu happ.freeinode happ.low happ.good ?_ rfl ?_
      · exact fun j hj => Function.update_of_ne hj ..
      · rw [Function.update_self, List.length_append]
        exact happ.off_eq
    · exact happ.spent
    · exact happ.freeinode
    · intro j hj
      rw [State.inode_setInode]
      split
      · next h =>
          subst h
          have haddrs : d = { t.view inum.toNat with addrs := d.addrs } :=
            happ.addrs
          rw [← hview]
          simp only
          rw [haddrs]
      · have := iblock_lt (harea j hj)
        have := nmeta_eq
        rw [State.inode, happ.low _ (by omega)]
        rfl

/-- What `ialloc` has done. -/
structure Allocated (s t : State) (c : Contents) (type : BitVec 16)
    (inum : BitVec 32) : Prop where
  inum_eq : inum = s.freeinode
  intact : Intact t c
  freeinode : t.freeinode.toNat = s.freeinode.toNat + 1
  freeblock : t.freeblock = s.freeblock
  empty : c s.freeinode.toNat = []
  type : ∀ j, t.Used j →
    (t.inode j).type = if j = inum.toNat then type else (s.inode j).type

theorem ialloc_spec {E : Stop → Prop} (hs : Intact s c) (type : BitVec 16)
    (hroom : s.freeinode.toNat < ninodeblocks * IPB) :
    Program.Sat (ialloc type) s
      (fun inum t => Allocated s t c type inum) E := by
  have hadd : (s.freeinode + 1).toNat = s.freeinode.toNat + 1 := by
    apply toNat_add_one
    change _ < 208 at hroom
    simp only [FSSIZE]
    omega
  have hfresh : ¬s.Used s.freeinode.toNat := fun h => lt_irrefl _ h.2
  have hempty := hs.unused _ hfresh
  unfold ialloc
  apply Program.Sat.bind
  apply Program.Sat.get
  apply Program.Sat.bind
  apply Program.Sat.modify
  simp only [xshort_eq, xint_eq]
  refine Program.Sat.andThen (winode_spec ?_ hroom) ?_
  · exact hs.good.nsect
  rintro _ t rfl
  apply Program.Sat.pure
  set d : Dinode := { Dinode.zero with type := type, nlink := 1, size := 0 }
    with hd
  set s' : State := { s with freeinode := s.freeinode + 1 } with hs'
  have hused : ∀ j, (s'.setInode s.freeinode.toNat d).Used j ↔
      s.Used j ∨ j = s.freeinode.toNat := by
    intro j
    have := hs.inodes.1
    change (1 ≤ j ∧ j < (s.freeinode + 1).toNat) ↔ _
    rw [hadd]
    unfold State.Used
    omega
  have hinode : ∀ j, (s'.setInode s.freeinode.toNat d).inode j =
      if j = s.freeinode.toNat then d else s.inode j := fun j =>
    State.inode_setInode s' _ j d
  constructor
  · rfl
  · constructor
    · refine hs.good.congr ?_ (fun b hb => State.setInode_sect hroom hb)
        rfl rfl
      intro j
      by_cases hj : j = s.freeinode.toNat
      · rw [State.view_of_used ((hused j).mpr (.inr hj)), hinode, if_pos hj,
          State.view, if_neg (hj ▸ hfresh)]
      · by_cases huj : s.Used j
        · rw [State.view_of_used ((hused j).mpr (.inl huj)), hinode, if_neg hj,
            State.view_of_used huj]
        · rw [State.view, State.view, if_neg huj, if_neg]
          exact fun h => ((hused j).mp h).elim huj hj
    · intro j hj
      rw [hinode]
      rcases (hused j).mp hj with huj | rfl
      · have hne : j ≠ s.freeinode.toNat := fun h => hfresh (h ▸ huj)
        rw [if_neg hne]
        exact hs.sizes j huj
      · rw [if_pos rfl, hempty]
        rfl
    · intro j hj
      exact hs.unused j fun huj => hj ((hused j).mpr (.inl huj))
    · refine ⟨?_, ?_⟩
      · change 1 ≤ (s.freeinode + 1).toNat
        omega
      · change (s.freeinode + 1).toNat ≤ _
        omega
    · rw [State.setInode_superblock]
      exact hs.superblock
  · exact hadd
  · rfl
  · exact hempty
  · intro j _
    rw [hinode]
    split <;> rfl

end Inodes

end ZtlOs.Mkfs
