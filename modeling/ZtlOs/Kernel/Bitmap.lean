import ZtlOs.Kernel.Truncate

/-!
# The block bitmap

`balloc` searches the bitmap with two nested loops, and `bfree` finds a bit by
a division.  Here both are taken as they are written, with block numbers that
wrap like a `uint`: the block of the bitmap for a block is then a number below
`2 ^ 32` for every superblock.
-/

namespace ZtlOs.Kernel.Bitmap

open ZtlOs.Support ZtlOs.Support.Program ZtlOs.Fs

variable {P : Type}

/-- `BBLOCK(b, sb)`, a `uint`. -/
def BBLOCK (b : ℕ) (sb : Superblock) : ℕ :=
  (b / BPB + sb.bmapstart) % 2 ^ 32

/-- The inner loop of `balloc` from bit `bi` on, in the bitmap block `bp` for
`b`; `n` rounds are left. -/
def scan (bp : Block) (size b : ℕ) : ℕ → ℕ → Option ℕ
  | 0, _ => none
  | n + 1, bi =>
      if b + bi < size then
        -- Is block free?
        if bp.byte (bi / 8) &&& Block.mask bi = 0 then some bi
        else scan bp size b n (bi + 1)
      else none

/-- The outer loop of `balloc` from `b` on; there are `n` more bitmap blocks.
If `sb.size` is below `2 ^ 31 - BPB` then no `int` overflows. -/
def ballocLoop : ℕ → ℕ → M P ℕ
  | 0, _ => panic "balloc: out of blocks"
  | n + 1, b => do
      let s ← get
      let bp ← bread (BBLOCK b s.sb)
      match scan bp s.sb.size b BPB 0 with
      | some bi => do
          logWrite (BBLOCK b s.sb)
            (bp.setByte (bi / 8) (bp.byte (bi / 8) ||| Block.mask bi))
          brelse (BBLOCK b s.sb)
          bzero (b + bi)
          pure (b + bi)
      | none => do
          brelse (BBLOCK b s.sb)
          ballocLoop n (b + BPB)

def balloc : M P ℕ := do
  let s ← get
  ballocLoop ((s.sb.size + (BPB - 1)) / BPB) 0

def bfree (b : ℕ) : M P Unit := do
  readsb
  let s ← get
  let bp ← bread (BBLOCK b s.sb)
  let bi := b % BPB
  if bp.byte (bi / 8) &&& Block.mask bi = 0 then panic "freeing free block"
  else do
    logWrite (BBLOCK b s.sb)
      (bp.setByte (bi / 8) (bp.byte (bi / 8) &&& ~~~Block.mask bi))
    brelse (BBLOCK b s.sb)

/-! ## The bit of a block -/

/-- The bit of block `b`. -/
def bit (sb : Superblock) (disk : ℕ → Block) (b : ℕ) : Bool :=
  (disk (BBLOCK b sb)).bit (b % BPB)

section Bits

variable {sb : Superblock} {disk : ℕ → Block} {b b' bi n size : ℕ}
variable {bp : Block}

theorem and_mask_eq_zero : bp.byte (bi / 8) &&& Block.mask bi = 0 ↔
    bp.bit bi = false := by
  simp [Block.bit]

/-- The inner loop finds the first clear bit. -/
theorem scan_eq : scan bp size b n bi =
    (List.range' bi (min n (size - (b + bi)))).find? fun bj => !bp.bit bj := by
  induction n generalizing bi with
  | zero => simp [scan]
  | succ n ih =>
      by_cases hlt : b + bi < size
      · have hmin : min (n + 1) (size - (b + bi)) =
            min n (size - (b + (bi + 1))) + 1 := by omega
        rw [scan, if_pos hlt, hmin, List.range'_succ, List.find?_cons, ih]
        by_cases hclear : bp.bit bi = false
        · rw [if_pos (and_mask_eq_zero.mpr hclear)]
          simp [hclear]
        · rw [if_neg fun h => hclear (and_mask_eq_zero.mp h)]
          simp [hclear]
      · have hmin : min (n + 1) (size - (b + bi)) = 0 := by omega
        rw [scan, if_neg hlt, hmin]
        simp

theorem scan_eq_firstClear :
    scan bp size b BPB 0 = firstClear bp (min BPB (size - b)) := by
  rw [scan_eq, firstClear, List.range_eq_range', Nat.add_zero]

/-- Two blocks have one bitmap block if they have one quotient. -/
theorem bblock_inj (hb : b < 2 ^ 31) (hb' : b' < 2 ^ 31) :
    BBLOCK b sb = BBLOCK b' sb ↔ b / BPB = b' / BPB := by
  simp only [BBLOCK, BPB, BSIZE]
  omega

theorem bblock_mod_inj (hb : b < 2 ^ 31) (hb' : b' < 2 ^ 31) :
    BBLOCK b sb = BBLOCK b' sb ∧ b % BPB = b' % BPB ↔ b = b' := by
  rw [bblock_inj hb hb']
  constructor
  · rintro ⟨hdiv, hmod⟩
    rw [← Nat.div_add_mod b BPB, ← Nat.div_add_mod b' BPB, hdiv, hmod]
  · rintro rfl
    exact ⟨rfl, rfl⟩

theorem bit_update_setBit {v w bj : ℕ} (hbi : bi < BPB) :
    (Function.update disk v ((disk v).setBit bi) w).bit bj =
      (decide (w = v ∧ bj = bi) || (disk w).bit bj) := by
  by_cases hw : w = v
  · subst hw
    simp [Block.bit_setBit hbi]
  · simp [hw]

theorem bit_update_clearBit {v w bj : ℕ} (hbi : bi < BPB) :
    (Function.update disk v ((disk v).clearBit bi) w).bit bj =
      (!decide (w = v ∧ bj = bi) && (disk w).bit bj) := by
  by_cases hw : w = v
  · subst hw
    simp [Block.bit_clearBit hbi]
  · simp [hw]

theorem bit_add (sb : Superblock) (disk : ℕ → Block) (hb : b % BPB = 0) (hbi : bi < BPB) :
    BBLOCK (b + bi) sb = BBLOCK b sb ∧ (b + bi) % BPB = bi ∧
      bit sb disk (b + bi) = (disk (BBLOCK b sb)).bit bi := by
  have hblock : BBLOCK (b + bi) sb = BBLOCK b sb := by
    simp only [BBLOCK, BPB, BSIZE] at *
    omega
  have hmod : (b + bi) % BPB = bi := by
    simp only [BPB, BSIZE] at *
    omega
  exact ⟨hblock, hmod, by rw [bit, hblock, hmod]⟩

end Bits

/-! ## Bitmaps that do not wrap -/

section NoWrap

variable {s : State P} {b n : ℕ}

theorem bblock_eq {sb : Superblock} (h : b / BPB + sb.bmapstart < 2 ^ 32) :
    BBLOCK b sb = Fs.BBLOCK b sb :=
  Nat.mod_eq_of_lt h

theorem bread_keeps_sb : Keeps State.sb (bread (P := P) b) := by
  apply Keeps.bind_get
  intro s
  apply Sat.ite
  · intro _
    exact Sat.throw trivial
  · intro _
    exact .bind (Sat.set (Sat.pure rfl))

theorem sb_of_readsb {t : State P} (h : readsb s = .ok ((), t)) :
    t.sb = (s.disk 1).superblock := by
  have hsat : Sat readsb s (fun _ t => t.sb = (s.disk 1).superblock)
      fun _ => True := by
    apply bread_bind fun _ => trivial
    exact .bind (Sat.modify (Sat.modify rfl))
  exact hsat.returns h

theorem ballocLoop_eq (h : b / BPB + n + s.sb.bmapstart ≤ 2 ^ 32) :
    ballocLoop n b s = Kernel.ballocLoop n b s := by
  induction n generalizing b s with
  | zero => rfl
  | succ n ih =>
      have hblock : BBLOCK b s.sb = Fs.BBLOCK b s.sb := bblock_eq (by omega)
      apply Program.bind_congr
      intro s' t hget
      obtain ⟨rfl, rfl⟩ : s = s' ∧ s = t := by
        cases hget
        exact ⟨rfl, rfl⟩
      rw [hblock]
      apply Program.bind_congr
      intro bp t hread
      rw [scan_eq_firstClear]
      cases firstClear bp (min BPB (s.sb.size - b)) with
      | some bi => rfl
      | none =>
          apply Program.bind_congr
          intro _ u hrelse
          have hsb : u.sb = s.sb := by
            rw [← bread_keeps_sb.eq s bp t hread]
            cases hrelse
            rfl
          refine ih ?_
          rw [hsb]
          simp only [BPB, BSIZE] at h ⊢
          omega

/-- For a bitmap below block `2 ^ 32` this is `balloc` of the model with
natural numbers. -/
theorem balloc_eq (h : (s.sb.size + (BPB - 1)) / BPB + s.sb.bmapstart ≤ 2 ^ 32) :
    balloc s = Kernel.balloc s := by
  apply Program.bind_congr
  intro s' t hget
  obtain ⟨rfl, rfl⟩ : s = s' ∧ s = t := by
    cases hget
    exact ⟨rfl, rfl⟩
  exact ballocLoop_eq (by rwa [Nat.zero_div, Nat.zero_add])

theorem bfree_eq (h : b / BPB + (s.disk 1).superblock.bmapstart < 2 ^ 32) :
    bfree b s = Kernel.bfree b s := by
  apply Program.bind_congr
  intro _ t hread
  apply Program.bind_congr
  intro s' t' hget
  obtain ⟨rfl, rfl⟩ : t = s' ∧ t = t' := by
    cases hget
    exact ⟨rfl, rfl⟩
  rw [bblock_eq (by rw [sb_of_readsb hread]; exact h)]
  apply Program.bind_congr
  intro bp u _
  by_cases hclear : bp.bit (b % BPB) = false
  · simp only [if_pos (and_mask_eq_zero.mpr hclear), if_pos hclear]
  · simp only [if_neg (mt and_mask_eq_zero.mp hclear), if_neg hclear]
    rfl

end NoWrap

/-! ## What the functions do -/

/-- Block `r` is the first one whose bit is clear. -/
structure Lowest (sb : Superblock) (disk : ℕ → Block) (r : ℕ) : Prop where
  lt : r < sb.size
  clear : bit sb disk r = false
  first : ∀ b < r, bit sb disk b = true

/-- No bit is clear. -/
def Full (sb : Superblock) (disk : ℕ → Block) : Prop :=
  ∀ b < sb.size, bit sb disk b = true

/-- Block `r` is zeroed, its bit is set, and no other bit of the disk has
changed. -/
structure Taken (sb : Superblock) (disk disk' : ℕ → Block) (r : ℕ) : Prop where
  zeroed : disk' r = Block.zero
  marked : ∀ b < sb.size, bit sb disk' b = (decide (b = r) || bit sb disk b)
  others : ∀ w ≠ r, ∀ bj, (disk' w).bit bj =
    (decide (w = BBLOCK r sb ∧ bj = r % BPB) || (disk w).bit bj)

/-- The bit of block `b` is cleared, and no other bit of the disk has
changed. -/
structure Freed (sb : Superblock) (disk disk' : ℕ → Block) (b : ℕ) : Prop where
  unmarked : ∀ b' < sb.size,
    bit sb disk' b' = (!decide (b' = b) && bit sb disk b')
  others : ∀ w bj, (disk' w).bit bj =
    (!decide (w = BBLOCK b sb ∧ bj = b % BPB) && (disk w).bit bj)

/-- The superblock has been read, the bits of the bitmap blocks are set, and
the caller holds no buffer that it could be given. -/
structure Ready (s : State P) : Prop where
  size : s.sb.size < 2 ^ 31 - BPB
  superblock : (s.disk 1).superblock = s.sb
  bitmap : ∀ b < s.sb.size, BBLOCK b s.sb < s.sb.size →
    bit s.sb s.disk (BBLOCK b s.sb) = true
  unlocked : ∀ w ∈ s.bufs, w ≠ 1 ∧ (∀ b < s.sb.size, w ≠ BBLOCK b s.sb) ∧
    (w < s.sb.size → bit s.sb s.disk w = true)

/-- `balloc` takes the first block whose bit is clear and panics if there is
none; `bfree` clears the bit of a block and panics if it is clear; and `bfree`
undoes what `balloc` has done to the bitmap. -/
structure BitmapCorrect (s : State P) : Prop where
  full : Full s.sb s.disk →
    balloc s = .error (.panic "balloc: out of blocks")
  takes : ¬Full s.sb s.disk → ∃ r t, balloc s = .ok (r, t) ∧
    Lowest s.sb s.disk r ∧ Taken s.sb s.disk t.disk r
  clear : ∀ b < s.sb.size, bit s.sb s.disk b = false →
    bfree b s = .error (.panic "freeing free block")
  frees : ∀ b < s.sb.size, bit s.sb s.disk b = true →
    ∃ t, bfree b s = .ok ((), t) ∧ Freed s.sb s.disk t.disk b
  restores : ∀ r t, balloc s = .ok (r, t) → ∃ u, bfree r t = .ok ((), u) ∧
    ∀ w ≠ r, ∀ bj, (u.disk w).bit bj = (s.disk w).bit bj

section Specs

variable {s : State P}

/-- The outer loop, when the bits below `b` are set. -/
theorem ballocLoop_sat {n b : ℕ} (hb : b % BPB = 0)
    (hn : n = (s.sb.size - b + (BPB - 1)) / BPB)
    (hlow : ∀ b' < b, b' < s.sb.size → bit s.sb s.disk b' = true)
    (hbitmap : ∀ w ∈ s.bufs, ∀ b < s.sb.size, w ≠ BBLOCK b s.sb)
    (hused : ∀ w ∈ s.bufs, w < s.sb.size → bit s.sb s.disk w = true) :
    Sat (ballocLoop n b) s (fun r t => Lowest s.sb s.disk r ∧
      ∃ tr, t = { s with
        disk := Function.update (Function.update s.disk (BBLOCK r s.sb)
          ((s.disk (BBLOCK r s.sb)).setBit (r % BPB))) r Block.zero
        trace := tr })
      fun e => e = .panic "balloc: out of blocks" ∧ Full s.sb s.disk := by
  induction n generalizing s b with
  | zero =>
      refine Sat.throw ⟨rfl, fun b' hb' => hlow b' ?_ hb'⟩
      simp only [BPB, BSIZE] at hn
      omega
  | succ n ih =>
      have hlt : b < s.sb.size := by
        simp only [BPB, BSIZE] at hn
        omega
      refine .bind (Sat.get ?_)
      apply bread_bind fun hmem => absurd rfl (hbitmap _ hmem b hlt)
      rw [scan_eq_firstClear]
      cases hfirst : firstClear (s.disk (BBLOCK b s.sb))
          (min BPB (s.sb.size - b)) with
      | some bi =>
          rw [firstClear, List.find?_range_eq_some] at hfirst
          obtain ⟨hclear, hmem, hbefore⟩ := hfirst
          have hbi := List.mem_range.mp hmem
          obtain ⟨hblock, hmod, hbit⟩ := bit_add s.sb s.disk hb
            (lt_of_lt_of_le hbi (Nat.min_le_left ..))
          have hfree : Lowest s.sb s.disk (b + bi) := by
            constructor
            · omega
            · rw [hbit]
              simpa using hclear
            · intro b' hb'
              by_cases hlow' : b' < b
              · exact hlow b' hlow' (by omega)
              · obtain ⟨j, rfl⟩ := Nat.exists_eq_add_of_le (not_lt.mp hlow')
                rw [(bit_add _ _ hb (by omega)).2.2]
                simpa using hbefore j (by omega)
          apply logWrite_bind
          apply brelse_bind
          refine (bzero_sat ?_).andThen ?_
          · intro hmem
            have hmem' : b + bi ∈ s.bufs := by
              simpa [State.emit, State.setDisk] using hmem
            have := hused _ hmem' hfree.lt
            rw [hfree.clear] at this
            cases this
          · rintro - _ ⟨tr, rfl⟩
            refine Sat.pure ⟨hfree, tr, ?_⟩
            rw [hblock, hmod]
            simp only [State.emit, State.setDisk, List.erase_cons_head,
              Block.setBit]
      | none =>
          rw [firstClear, List.find?_eq_none] at hfirst
          apply brelse_bind
          simp only [State.emit, List.erase_cons_head]
          refine ih (s := { s with
            trace := .brelse (BBLOCK b s.sb) :: .bread (BBLOCK b s.sb) ::
              s.trace }) ?_ ?_ ?_ hbitmap hused
          · simp only [BPB, BSIZE] at hb ⊢
            omega
          · simp only [BPB, BSIZE] at hn ⊢
            omega
          · intro b' hb' hsize
            by_cases hlow' : b' < b
            · exact hlow b' hlow' hsize
            · obtain ⟨j, rfl⟩ := Nat.exists_eq_add_of_le (not_lt.mp hlow')
              have hsize' : b + j < s.sb.size := hsize
              have := hfirst j (List.mem_range.mpr (by omega))
              rw [(bit_add _ _ hb (by omega)).2.2]
              simpa using this

/-- `bfree` reads the superblock and clears the bit of `b`, if it is set. -/
theorem bfree_sat {b : ℕ} {sb : Superblock} (h1 : 1 ∉ s.bufs)
    (hsuper : (s.disk 1).superblock = sb) (hb : BBLOCK b sb ∉ s.bufs) :
    Sat (bfree b) s (fun _ t => bit sb s.disk b = true ∧ ∃ tr, t = { s with
        disk := Function.update s.disk (BBLOCK b sb)
          ((s.disk (BBLOCK b sb)).clearBit (b % BPB))
        sb := sb
        trace := tr })
      fun e => e = .panic "freeing free block" ∧ bit sb s.disk b = false := by
  apply Sat.bind
  apply bread_bind fun hmem => absurd hmem h1
  refine .bind (Sat.modify ?_)
  refine Sat.modify ?_
  refine .bind (Sat.get ?_)
  simp only [State.emit, List.erase_cons_head, hsuper]
  refine bread_bind (fun hmem => absurd hmem hb) ?_
  apply Sat.ite
  · intro hclear
    exact Sat.throw ⟨rfl, and_mask_eq_zero.mp hclear⟩
  · intro hset
    apply logWrite_bind
    refine Sat.modify ⟨?_, .brelse (BBLOCK b sb) :: .logWrite (BBLOCK b sb) ::
      .bread (BBLOCK b sb) :: .brelse 1 :: .bread 1 :: s.trace, ?_⟩
    · exact Bool.eq_true_of_not_eq_false fun h =>
        hset (and_mask_eq_zero.mpr h)
    · simp only [State.emit, State.setDisk, List.erase_cons_head,
        Block.clearBit]

theorem Lowest.not_full {r : ℕ} (h : Lowest s.sb s.disk r) :
    ¬Full s.sb s.disk := by
  intro hfull
  have := hfull r h.lt
  rw [h.clear] at this
  cases this

namespace Ready

variable (h : Ready s)
include h

/-- A block whose bit is clear is not a block of the bitmap. -/
theorem bblock_ne {r b : ℕ} (hr : r < s.sb.size)
    (hclear : bit s.sb s.disk r = false) (hb : b < s.sb.size) :
    BBLOCK b s.sb ≠ r := by
  rintro rfl
  have := h.bitmap b hb hr
  rw [hclear] at this
  cases this

theorem lt_of_size : s.sb.size < 2 ^ 31 :=
  lt_of_lt_of_le h.size (Nat.sub_le ..)

theorem lt_of_lt_size {b : ℕ} (hb : b < s.sb.size) : b < 2 ^ 31 :=
  hb.trans h.lt_of_size

theorem taken {r : ℕ} (hr : Lowest s.sb s.disk r) :
    Taken s.sb s.disk (Function.update
      (Function.update s.disk (BBLOCK r s.sb)
        ((s.disk (BBLOCK r s.sb)).setBit (r % BPB))) r Block.zero) r := by
  have hmod : r % BPB < BPB := Nat.mod_lt _ (by decide)
  constructor
  · exact Function.update_self ..
  · intro b hb
    rw [bit, Function.update_of_ne (h.bblock_ne hr.lt hr.clear hb),
      bit_update_setBit hmod]
    simp only [bblock_mod_inj (h.lt_of_lt_size hb) (h.lt_of_lt_size hr.lt), bit]
  · intro w hw bj
    rw [Function.update_of_ne hw, bit_update_setBit hmod]

theorem freed {b : ℕ} (hb : b < s.sb.size) :
    Freed s.sb s.disk (Function.update s.disk (BBLOCK b s.sb)
      ((s.disk (BBLOCK b s.sb)).clearBit (b % BPB))) b := by
  have hmod : b % BPB < BPB := Nat.mod_lt _ (by decide)
  constructor
  · intro b' hb'
    rw [bit, bit_update_clearBit hmod]
    simp only [bblock_mod_inj (h.lt_of_lt_size hb') (h.lt_of_lt_size hb), bit]
  · intro w bj
    exact bit_update_clearBit hmod

theorem balloc_sat :
    Sat balloc s (fun r t => Lowest s.sb s.disk r ∧
      ∃ tr, t = { s with
        disk := Function.update (Function.update s.disk (BBLOCK r s.sb)
          ((s.disk (BBLOCK r s.sb)).setBit (r % BPB))) r Block.zero
        trace := tr })
      fun e => e = .panic "balloc: out of blocks" ∧ Full s.sb s.disk := by
  refine .bind (Sat.get ?_)
  apply ballocLoop_sat (Nat.zero_mod _) rfl
  · intro b' hb'
    exact absurd hb' (Nat.not_lt_zero b')
  · exact fun w hw => (h.unlocked w hw).2.1
  · exact fun w hw => (h.unlocked w hw).2.2

/-- `balloc` takes the first block whose bit is clear, if there is one. -/
theorem balloc_takes :
    (Full s.sb s.disk → balloc s = .error (.panic "balloc: out of blocks")) ∧
      (¬Full s.sb s.disk → ∃ r t, balloc s = .ok (r, t) ∧
        Lowest s.sb s.disk r ∧ Taken s.sb s.disk t.disk r) := by
  cases hrun : balloc s with
  | ok res =>
      obtain ⟨hlow, tr, ht⟩ := h.balloc_sat.returns hrun
      refine ⟨fun hfull => absurd hfull hlow.not_full,
        fun _ => ⟨res.1, res.2, rfl, hlow, ?_⟩⟩
      rw [ht]
      exact h.taken hlow
  | error e =>
      obtain ⟨rfl, hfull⟩ := h.balloc_sat.stops hrun
      exact ⟨fun _ => rfl, fun hnot => absurd hfull hnot⟩

theorem bblock_notMem {b : ℕ} (hb : b < s.sb.size) :
    BBLOCK b s.sb ∉ s.bufs :=
  fun hmem => (h.unlocked _ hmem).2.1 b hb rfl

theorem one_notMem : 1 ∉ s.bufs :=
  fun hmem => (h.unlocked 1 hmem).1 rfl

/-- `bfree` clears the bit of a block, if it is set. -/
theorem bfree_frees {b : ℕ} (hb : b < s.sb.size) :
    (bit s.sb s.disk b = false →
      bfree b s = .error (.panic "freeing free block")) ∧
      (bit s.sb s.disk b = true → ∃ t, bfree b s = .ok ((), t) ∧
        Freed s.sb s.disk t.disk b) := by
  have hsat := bfree_sat h.one_notMem h.superblock (h.bblock_notMem hb)
  cases hrun : bfree b s with
  | ok res =>
      obtain ⟨hset, tr, ht⟩ := hsat.returns hrun
      refine ⟨fun hclear => ?_, fun _ => ⟨res.2, rfl, ?_⟩⟩
      · rw [hset] at hclear
        cases hclear
      · rw [ht]
        exact h.freed hb
  | error e =>
      obtain ⟨rfl, hclear⟩ := hsat.stops hrun
      refine ⟨fun _ => rfl, fun hset => ?_⟩
      rw [hclear] at hset
      cases hset

/-- If the superblock is a bitmap block, too, then the first clear bit of it
lies in its first word: `sb.size` is not negative as an `int`. -/
theorem mod_le_of_superblock {r : ℕ} (hr : Lowest s.sb s.disk r)
    (h1 : BBLOCK r s.sb = 1) : r % BPB ≤ 31 := by
  by_contra hlt
  have hbase : (r - r % BPB) % BPB = 0 := by
    simp only [BPB, BSIZE]
    omega
  have hblock : BBLOCK (r - r % BPB) s.sb = 1 := by
    have hmod : r % BPB < BPB := Nat.mod_lt _ (by decide)
    have := (bit_add s.sb s.disk hbase hmod).1
    rw [Nat.sub_add_cancel (Nat.mod_le r BPB)] at this
    rw [← this, h1]
  have hset := hr.first (r - r % BPB + 31) (by
    have := Nat.mod_le r BPB
    omega)
  rw [(bit_add _ _ hbase (by decide)).2.2, hblock, Block.bit_eq_getLsbD] at hset
  have hsize : ((s.disk 1).word 0).toNat < 2 ^ 31 := by
    have hsb : ((s.disk 1).word 0).toNat = s.sb.size :=
      congrArg Superblock.size h.superblock
    exact hsb ▸ h.lt_of_size
  have hhigh : ((s.disk 1).word 0).getLsbD 31 = false := by
    rw [BitVec.getLsbD, Nat.testBit_lt_two_pow hsize]
  rw [Block.word, Block.half, Block.half, BitVec.getLsbD_append,
    BitVec.getLsbD_append, BitVec.getLsbD_append] at hhigh
  have hbit : ((s.disk 1).byte 3).getLsbD 7 = false := hhigh
  rw [hbit] at hset
  cases hset

/-- `balloc` does not change where the bitmap starts, unless it takes the
superblock itself. -/
theorem bmapstart_taken {r : ℕ} (hr : Lowest s.sb s.disk r) (h1 : r ≠ 1) :
    (Function.update (Function.update s.disk (BBLOCK r s.sb)
      ((s.disk (BBLOCK r s.sb)).setBit (r % BPB))) r Block.zero
        1).superblock.bmapstart = s.sb.bmapstart := by
  rw [Function.update_of_ne h1.symm]
  by_cases hblock : BBLOCK r s.sb = 1
  · have hlow : r % BPB / 8 ≤ 3 := by
      have := h.mod_le_of_superblock hr hblock
      omega
    have hword : ((s.disk 1).setBit (r % BPB)).word 24 = (s.disk 1).word 24 := by
      simp only [Block.setBit, Block.word, Block.half]
      rw [Block.byte_setByte_of_ne (by omega),
        Block.byte_setByte_of_ne (by omega),
        Block.byte_setByte_of_ne (by omega),
        Block.byte_setByte_of_ne (by omega)]
    rw [hblock, Function.update_self]
    simp only [Block.superblock, hword]
    rw [← h.superblock, Block.superblock]
  · rw [Function.update_of_ne (Ne.symm hblock), h.superblock]

/-- `bfree` undoes what `balloc` has done to the bitmap. -/
theorem balloc_bfree (hsuper : 1 < s.sb.size → bit s.sb s.disk 1 = true) {r : ℕ}
    {t : State P} (hrun : balloc s = .ok (r, t)) :
    ∃ u, bfree r t = .ok ((), u) ∧
      ∀ w ≠ r, ∀ bj, (u.disk w).bit bj = (s.disk w).bit bj := by
  obtain ⟨hr, tr, ht⟩ := h.balloc_sat.returns hrun
  have h1 : r ≠ 1 := by
    rintro rfl
    have := hsuper hr.lt
    rw [hr.clear] at this
    cases this
  have htaken := h.taken hr
  have hstart : (t.disk 1).superblock.bmapstart = s.sb.bmapstart := by
    rw [ht]
    exact h.bmapstart_taken hr h1
  have hblock : BBLOCK r (t.disk 1).superblock = BBLOCK r s.sb := by
    rw [BBLOCK, BBLOCK, hstart]
  have hset : bit (t.disk 1).superblock t.disk r = true := by
    have hmarked := htaken.marked r hr.lt
    rw [decide_eq_true rfl, Bool.true_or, bit] at hmarked
    rw [bit, hblock, ht]
    exact hmarked
  have hsat := bfree_sat (s := t) (b := r) (by rw [ht]; exact h.one_notMem) rfl
    (by rw [hblock, ht]; exact h.bblock_notMem hr.lt)
  cases hfree : bfree r t with
  | ok res =>
      obtain ⟨-, tr', hu⟩ := hsat.returns hfree
      refine ⟨res.2, rfl, fun w hw bj => ?_⟩
      have hclear : (s.disk (BBLOCK r s.sb)).bit (r % BPB) = false := hr.clear
      have hmod : r % BPB < BPB := Nat.mod_lt _ (by decide)
      rw [hu]
      simp only [hblock]
      rw [bit_update_clearBit hmod, ht]
      simp only [htaken.others w hw]
      by_cases hbit : w = BBLOCK r s.sb ∧ bj = r % BPB
      · rw [hbit.1, hbit.2, hclear]
        simp
      · simp [hbit]
  | error e =>
      have := (hsat.stops hfree).2
      rw [hset] at this
      cases this

end Ready

/-- The functions are right if the superblock is marked as in use. -/
theorem bitmap_correct (s : State P) (h : Ready s)
    (hsuper : 1 < s.sb.size → bit s.sb s.disk 1 = true) : BitmapCorrect s where
  full := h.balloc_takes.1
  takes := h.balloc_takes.2
  clear := fun _ hb => (h.bfree_frees hb).1
  frees := fun _ hb => (h.bfree_frees hb).2
  restores := fun _ _ hrun => h.balloc_bfree hsuper hrun

end Specs

/-! ## A small volume -/

/-- A volume of four blocks with its bitmap in block 2; the bits that are set
are those of `byte`. -/
def small (byte : BitVec 8) : State Unit where
  disk := fun w =>
    if w = 1 then (Block.zero.setWord 0 4).setWord 24 2
    else if w = 2 then Block.zero.setByte 0 byte
    else Block.zero
  sb := ⟨4, 0, 0, 0, 0, 0, 2⟩
  icache := fun _ => ⟨0, 0, false, false, Dinode.zero⟩
  ftable := fun _ => ⟨.none, 0, false, false, 0, 0⟩
  ofile := fun _ _ => none
  cwd := fun _ => 0
  bufs := []
  input := []
  trace := []

theorem small_bblock {byte : BitVec 8} {b : ℕ} (hb : b < 4) :
    BBLOCK b (small byte).sb = 2 := by
  simp only [BBLOCK, small, BPB, BSIZE]
  omega

theorem small_bit {byte : BitVec 8} {b : ℕ} (hb : b < 4) :
    bit (small byte).sb (small byte).disk b = byte.getLsbD b := by
  have hmod : b % BPB = b := Nat.mod_eq_of_lt (hb.trans (by decide))
  have hdiv : b / 8 = 0 := by omega
  have hsmall : (small byte).disk 2 = Block.zero.setByte 0 byte := rfl
  rw [bit, small_bblock hb, hmod, hsmall, Block.bit_eq_getLsbD, hdiv,
    Block.byte_setByte_self (by decide), Nat.mod_eq_of_lt (by omega)]

theorem small_ready {byte : BitVec 8} (h : byte.getLsbD 2 = true) :
    Ready (small byte) where
  size := by
    have hsize : (4 : ℕ) < 2 ^ 31 - BPB := by decide
    exact hsize
  superblock := by
    have hsuper : ((Block.zero.setWord 0 4).setWord 24 2).superblock =
        ⟨4, 0, 0, 0, 0, 0, 2⟩ := by decide
    exact hsuper
  bitmap := by
    intro b hb _
    rw [small_bblock hb, small_bit (by decide), h]
  unlocked := by simp [small]

/-- Block 3 is free. -/
theorem bitmap_correct_small : BitmapCorrect (small 0b0111) :=
  bitmap_correct (small 0b0111) (small_ready (by decide)) fun _ => by
    rw [small_bit (by decide)]
    decide

/-- Block 1 is free: `balloc` zeroes the superblock, and `bfree` looks for the
bit in another block. -/
theorem bitmap_not_always_correct :
    ¬ ∀ s : State Unit, Ready s → BitmapCorrect s := by
  intro h
  have hready : Ready (small 0b1101) := small_ready (by decide)
  have hclear : bit (small 0b1101).sb (small 0b1101).disk 1 = false := by
    rw [small_bit (by decide)]
    decide
  have hfull : ¬Full (small 0b1101).sb (small 0b1101).disk := by
    intro hfull
    have := hfull 1 (by decide)
    rw [hclear] at this
    cases this
  obtain ⟨r, t, hrun, hlow, htaken⟩ := (h _ hready).takes hfull
  obtain rfl : r = 1 := by
    have honly : ∀ r < 4, (0b1101 : BitVec 8).getLsbD r = false → r = 1 := by
      decide
    have hnot := hlow.clear
    rw [small_bit hlow.lt] at hnot
    exact honly r hlow.lt hnot
  obtain ⟨u, hfree, -⟩ := (h _ hready).restores 1 t hrun
  obtain ⟨-, tr, ht⟩ := hready.balloc_sat.returns hrun
  have hsuper : (t.disk 1).superblock = ⟨0, 0, 0, 0, 0, 0, 0⟩ := by
    rw [htaken.zeroed]
    decide
  have hbufs : t.bufs = [] := by
    rw [ht]
    rfl
  have hset := ((bfree_sat (by simp [hbufs]) hsuper
    (by simp [hbufs])).returns hfree).1
  have hzero : (t.disk 0).bit 1 = false := by
    rw [htaken.others 0 (by decide), small_bblock (by decide)]
    decide
  have hblock : BBLOCK 1 ⟨0, 0, 0, 0, 0, 0, 0⟩ = 0 := by decide
  rw [bit, hblock] at hset
  rw [show 1 % BPB = 1 from rfl, hzero] at hset
  cases hset

end ZtlOs.Kernel.Bitmap
