import Mathlib.Tactic.IntervalCases
import ZtlOs.Boot.Bootmain
import ZtlOs.Support.Patches

/-!
# What the boot loader leaves in memory

Each segment is a patch of whole sectors and a patch of zeros.  The sectors of
a segment may cover bytes of the segments before it: the loader is right
exactly if they bring there what belongs there anyway.
-/

namespace ZtlOs.Boot

open ZtlOs.Memory ZtlOs.Support

/-! ## Sectors -/

section Sectors

variable {drives : Bool → Drive} {mem : Mem} {offset pa epa : Word}

theorem transfer_eq (h : offset.toNat < 2 ^ 28) :
    transfer drives (offset.setWidth 8) ((offset >>> 8).setWidth 8)
      ((offset >>> 16).setWidth 8) ((offset >>> 24 ||| 0xE0).setWidth 8) =
        drives false offset.toNat := by
  have hhigh : ∀ i, 28 ≤ i → offset.getLsbD i = false := fun i hi =>
    Nat.testBit_lt_two_pow (h.trans_le (Nat.pow_le_pow_right (by decide) hi))
  have hdrive : ((offset >>> 24 ||| 0xE0).setWidth 8).getLsbD 4 = false := by
    simpa using hhigh 28 le_rfl
  have hsector : ((offset >>> 24 ||| 0xE0).setWidth 8).extractLsb' 0 4 ++
      (offset >>> 16).setWidth 8 ++ (offset >>> 8).setWidth 8 ++
        offset.setWidth 8 = offset.setWidth 28 := by
    apply BitVec.eq_of_getLsbD_eq
    intro i hi
    simp only [BitVec.getLsbD_append, BitVec.getLsbD_setWidth,
      BitVec.getLsbD_ushiftRight, BitVec.getLsbD_extractLsb',
      BitVec.getLsbD_or]
    interval_cases i <;> simp
  rw [transfer, hdrive, hsector, BitVec.toNat_setWidth, Nat.mod_eq_of_lt h]

/-- The distance of an address from the start of a range. -/
theorem sub_toNat_lt_iff {a b : Word} {n : ℕ} (h : b.toNat + n ≤ 2 ^ 32) :
    (a - b).toNat < n ↔ b.toNat ≤ a.toNat ∧ a.toNat < b.toNat + n := by
  rw [BitVec.toNat_sub]
  have := a.isLt
  have := b.isLt
  omega

theorem sub_toNat_of_le {a b : Word} (h : b.toNat ≤ a.toNat) :
    (a - b).toNat = a.toNat - b.toNat := by
  rw [BitVec.toNat_sub]
  have := a.isLt
  omega

/-- The `k` sectors of `d` from the sector `first` on, at the address
`start`. -/
def sectorsPatch (d : Drive) (start k first : ℕ) : Patch Word (BitVec 8) :=
  fun a =>
    if start ≤ a.toNat ∧ a.toNat < start + 512 * k then
      some (d (first + (a.toNat - start) / 512) ((a.toNat - start) % 512))
    else none

theorem sectorsPatch_succ (d : Drive) (start k first : ℕ) :
    (fun a => (sectorsPatch d (start + 512) k (first + 1) a).or
      (sectorsPatch d start 1 first a)) = sectorsPatch d start (k + 1) first := by
  funext a
  simp only [sectorsPatch]
  by_cases hfirst : a.toNat < start + 512
  · rw [if_neg (by omega), Option.none_or]
    exact if_congr (by omega) rfl rfl
  · have hdiv : first + 1 + (a.toNat - (start + 512)) / 512 =
        first + (a.toNat - start) / 512 := by omega
    have hmod : (a.toNat - (start + 512)) % 512 = (a.toNat - start) % 512 := by
      omega
    have hrest : ¬(start ≤ a.toNat ∧ a.toNat < start + 512 * 1) := by omega
    rw [hdiv, hmod, if_neg hrest, Option.or_none]
    exact if_congr (by omega) rfl rfl

theorem readsect_eq (hoff : offset.toNat < 2 ^ 28)
    (hfit : pa.toNat + 512 ≤ 2 ^ 32) :
    readsect drives mem pa offset =
      (sectorsPatch (drives false) pa.toNat 1 offset.toNat).apply mem := by
  funext a
  have hsect : SECTSIZE.toNat = 512 := rfl
  rw [readsect, transfer_eq hoff, insl, Patch.apply, sectorsPatch, hsect]
  by_cases ha : pa.toNat ≤ a.toNat ∧ a.toNat < pa.toNat + 512
  · have hdiv : (a.toNat - pa.toNat) / 512 = 0 := by omega
    have hmod : (a.toNat - pa.toNat) % 512 = a.toNat - pa.toNat := by omega
    rw [if_pos ((sub_toNat_lt_iff hfit).mpr ha), if_pos ha,
      sub_toNat_of_le ha.1, hdiv, hmod]
    rfl
  · rw [if_neg (mt (sub_toNat_lt_iff hfit).mp ha), if_neg ha]
    rfl

/-- The loop reads the sectors until it has passed `epa`. -/
theorem readsegLoop_eq {k n : ℕ} (hk : k < n)
    (hfit : pa.toNat + 512 * k < 2 ^ 32) (hend : epa.toNat ≤ pa.toNat + 512 * k)
    (hbefore : ∀ j < k, pa.toNat + 512 * j < epa.toNat)
    (hoff : offset.toNat + k ≤ 2 ^ 28) :
    readsegLoop drives n mem pa epa offset =
      some ((sectorsPatch (drives false) pa.toNat k offset.toNat).apply mem) := by
  induction k generalizing n mem pa offset with
  | zero =>
      obtain ⟨n, rfl⟩ := Nat.exists_eq_succ_of_ne_zero hk.ne'
      have hdone : ¬pa < epa := by
        rw [BitVec.lt_def]
        omega
      have hnone : sectorsPatch (drives false) pa.toNat 0 offset.toNat =
          fun _ => none := by
        funext a
        exact if_neg (by omega)
      rw [readsegLoop, if_neg hdone, hnone]
      rfl
  | succ k ih =>
      obtain ⟨n, rfl⟩ := Nat.exists_eq_succ_of_ne_zero (Nat.ne_zero_of_lt hk)
      have hmore : pa < epa := by
        rw [BitVec.lt_def]
        simpa using hbefore 0 (Nat.succ_pos k)
      have hpa : (pa + SECTSIZE).toNat = pa.toNat + 512 := by
        rw [BitVec.toNat_add, show SECTSIZE.toNat = 512 from rfl]
        omega
      have hoffset : (offset + 1).toNat = offset.toNat + 1 := by
        rw [BitVec.toNat_add, show (1 : Word).toNat = 1 from rfl]
        omega
      rw [readsegLoop, if_pos hmore, ih (by omega) (by omega) (by omega)
        (fun j hj => by
          have := hbefore (j + 1) (by omega)
          omega) (by omega),
        readsect_eq (by omega) (by omega), Patch.apply_apply, hpa, hoffset,
        sectorsPatch_succ]

end Sectors

/-! ## Segments -/

/-- The file that is stored from sector 1 of a drive on. -/
def image (d : Drive) : ℕ → BitVec 8 :=
  fun off => d (1 + off / 512) (off % 512)

namespace Proghdr

/-- Where the sectors of the segment go. -/
def start (p : Proghdr) : ℕ :=
  p.paddr.toNat - p.off.toNat % 512

/-- The number of sectors that are read for the segment. -/
def sectors (p : Proghdr) : ℕ :=
  (p.filesz.toNat + p.off.toNat % 512 + 511) / 512

/-- The address belongs to the segment. -/
def Owns (p : Proghdr) (a : ℕ) : Prop :=
  p.paddr.toNat ≤ a ∧ a < p.paddr.toNat + p.memsz.toNat

/-- The address is written by the sectors of the segment. -/
def Covers (p : Proghdr) (a : ℕ) : Prop :=
  p.start ≤ a ∧ a < p.start + 512 * p.sectors

instance (p : Proghdr) (a : ℕ) : Decidable (p.Owns a) :=
  inferInstanceAs (Decidable (_ ∧ _))

instance (p : Proghdr) (a : ℕ) : Decidable (p.Covers a) :=
  inferInstanceAs (Decidable (_ ∧ _))

/-- The byte that belongs at offset `k` of the segment. -/
def content (file : ℕ → BitVec 8) (p : Proghdr) (k : ℕ) : BitVec 8 :=
  if k < p.filesz.toNat then file (p.off.toNat + k) else 0

/-- What the sectors of the segment bring into memory. -/
def brings (file : ℕ → BitVec 8) (p : Proghdr) : Patch Word (BitVec 8) :=
  fun a =>
    if p.Covers a.toNat then
      some (file (p.off.toNat / 512 * 512 + (a.toNat - p.start)))
    else none

/-- The zeros behind the bytes of the file. -/
def zeros (p : Proghdr) : Patch Word (BitVec 8) := fun a =>
  if p.Owns a.toNat ∧ p.paddr.toNat + p.filesz.toNat ≤ a.toNat then some 0
  else none

def loads (file : ℕ → BitVec 8) (p : Proghdr) : Patch Word (BitVec 8) :=
  fun a => (p.zeros a).or (p.brings file a)

/-- The segment and the sectors that are read for it do not wrap. -/
structure Fits (p : Proghdr) : Prop where
  filesz : p.filesz.toNat ≤ p.memsz.toNat
  memory : p.paddr.toNat + p.memsz.toNat ≤ 2 ^ 32
  low : p.off.toNat % 512 ≤ p.paddr.toNat
  high : p.start + 512 * p.sectors < 2 ^ 32

/-- Neither the segment nor its sectors touch the scratch space. -/
def Away (p : Proghdr) : Prop :=
  ∀ k < 4096, ¬p.Owns (0x10000 + k) ∧ ¬p.Covers (0x10000 + k)

section Loads

variable {drives : Bool → Drive} {file : ℕ → BitVec 8} {mem : Mem}
variable {p : Proghdr} {a : Word} {k : ℕ}

theorem Fits.owns_covers (h : p.Fits) (hk : k < p.filesz.toNat) :
    p.Covers (p.paddr.toNat + k) := by
  have := h.low
  simp only [Covers, start, sectors]
  omega

/-- An address of the segment. -/
theorem Fits.toNat_add (h : p.Fits) (hk : k < p.memsz.toNat) :
    (p.paddr + (k : Word)).toNat = p.paddr.toNat + k := by
  have := h.memory
  exact toNat_add_natCast (by omega)

/-- A segment brings its own content. -/
theorem Fits.loads_self (h : p.Fits) (hk : k < p.memsz.toNat) :
    p.loads file (p.paddr + (k : Word)) = some (p.content file k) := by
  have hlow := h.low
  simp only [loads, zeros, brings, content, h.toNat_add hk]
  by_cases hfile : k < p.filesz.toNat
  · have hzero : ¬(p.Owns (p.paddr.toNat + k) ∧
        p.paddr.toNat + p.filesz.toNat ≤ p.paddr.toNat + k) := by omega
    have hoff : p.off.toNat / 512 * 512 + (p.paddr.toNat + k - p.start) =
        p.off.toNat + k := by
      simp only [start]
      omega
    rw [if_neg hzero, if_pos (h.owns_covers hfile), if_pos hfile, hoff,
      Option.none_or]
  · have hzero : p.Owns (p.paddr.toNat + k) ∧
        p.paddr.toNat + p.filesz.toNat ≤ p.paddr.toNat + k := by
      refine ⟨⟨?_, ?_⟩, ?_⟩
      all_goals omega
    rw [if_pos hzero, if_neg hfile, Option.some_or]

/-- Outside of the segment only its sectors count. -/
theorem loads_of_not_owns (h : ¬p.Owns a.toNat) :
    p.loads file a = p.brings file a := by
  rw [loads, zeros, if_neg fun hzero => h hzero.1, Option.none_or]

theorem away_of_le (h : 0x11000 ≤ p.start) : p.Away := by
  intro k hk
  have hle : p.start ≤ p.paddr.toNat := Nat.sub_le ..
  simp only [Owns, Covers]
  omega

/-- Neither step of the loading changes the scratch space. -/
theorem Away.brings_none (file : ℕ → BitVec 8) (h : p.Away) (hk : k < 4096) :
    p.brings file (scratch + (k : Word)) = none ∧
      p.zeros (scratch + (k : Word)) = none := by
  have ha : (scratch + (k : Word)).toNat = 0x10000 + k :=
    toNat_add_natCast (by
      rw [show scratch.toNat = 0x10000 from rfl]
      omega)
  rw [brings, zeros, ha, if_neg (h k hk).2, if_neg fun hz => (h k hk).1 hz.1]
  exact ⟨rfl, rfl⟩

/-- `readseg` brings the sectors of the segment into memory. -/
theorem readseg_eq (h : p.Fits) :
    readseg drives mem p.paddr p.filesz p.off =
      some ((p.brings (image (drives false))).apply mem) := by
  have hlow := h.low
  have hhigh := h.high
  have hsect : SECTSIZE.toNat = 512 := rfl
  have hstart : (p.paddr - p.off % SECTSIZE).toNat = p.start := by
    rw [sub_toNat_of_le, BitVec.toNat_umod, hsect, start]
    rw [BitVec.toNat_umod, hsect]
    exact hlow
  have hfirst : (p.off / SECTSIZE + 1).toNat = p.off.toNat / 512 + 1 := by
    have := p.off.isLt
    rw [BitVec.toNat_add, BitVec.toNat_udiv, hsect,
      show (1 : Word).toNat = 1 from rfl]
    omega
  have hend : (p.paddr + p.filesz).toNat = p.paddr.toNat + p.filesz.toNat := by
    rw [BitVec.toNat_add]
    simp only [start, sectors] at hhigh
    omega
  have hpatch : sectorsPatch (drives false) p.start p.sectors
      (p.off.toNat / 512 + 1) = p.brings (image (drives false)) := by
    funext a
    have hdiv : p.off.toNat / 512 + 1 + (a.toNat - p.start) / 512 =
        1 + (p.off.toNat / 512 * 512 + (a.toNat - p.start)) / 512 := by omega
    have hmod : (a.toNat - p.start) % 512 =
        (p.off.toNat / 512 * 512 + (a.toNat - p.start)) % 512 := by omega
    rw [sectorsPatch, hdiv, hmod]
    rfl
  rw [readseg, readsegLoop_eq (k := p.sectors), hstart, hfirst, hpatch]
  · omega
  · rw [hstart]
    exact hhigh
  · rw [hstart, hend]
    simp only [start, sectors]
    omega
  · intro j hj
    rw [hstart, hend]
    simp only [start, sectors] at hj ⊢
    omega
  · rw [hfirst]
    have := p.off.isLt
    omega

/-- `stosb` writes the zeros. -/
theorem stosb_eq (h : p.Fits) :
    (if p.memsz > p.filesz then
        stosb mem (p.paddr + p.filesz) 0 (p.memsz - p.filesz)
      else mem) = p.zeros.apply mem := by
  have hle := h.filesz
  have hmem := h.memory
  by_cases hmore : p.memsz > p.filesz
  · have hlt : p.filesz.toNat < p.memsz.toNat := BitVec.lt_def.mp hmore
    have hend : (p.paddr + p.filesz).toNat =
        p.paddr.toNat + p.filesz.toNat := by
      rw [BitVec.toNat_add]
      omega
    funext a
    rw [if_pos hmore, stosb, Patch.apply, zeros, sub_toNat_of_le hle]
    by_cases ha : p.Owns a.toNat ∧ p.paddr.toNat + p.filesz.toNat ≤ a.toNat
    · have hin := ha.1.2
      rw [if_pos ha, if_pos, Option.getD_some]
      rw [sub_toNat_lt_iff (by omega), hend]
      omega
    · rw [if_neg ha, if_neg, Option.getD_none]
      rw [sub_toNat_lt_iff (by omega), hend]
      simp only [Owns] at ha
      omega
  · have heq : ¬p.filesz.toNat < p.memsz.toNat := fun hlt =>
      hmore (BitVec.lt_def.mpr hlt)
    funext a
    rw [if_neg hmore, Patch.apply, zeros, if_neg, Option.getD_none]
    simp only [Owns]
    omega

end Loads

end Proghdr

/-! ## The program headers -/

/-- The program header `i` in the file. -/
def header (file : ℕ → BitVec 8) (i : ℕ) : Proghdr :=
  proghdr fun k => file ((elfhdr file).phoff.toNat + 32 * i + k)

/-- The segments of the file. -/
def segments (file : ℕ → BitVec 8) : List Proghdr :=
  (List.range (elfhdr file).phnum.toNat).map (header file)

/-- The scratch space holds the first page of the file. -/
def Scratch (file : ℕ → BitVec 8) (mem : Mem) : Prop :=
  ∀ k : ℕ, k < 4096 → mem (scratch + (k : Word)) = file k

section Headers

variable {drives : Bool → Drive} {file bytes bytes' : ℕ → BitVec 8} {mem : Mem}
variable {p : Proghdr} {off : ℕ}

theorem proghdr_congr (h : ∀ k < 32, bytes k = bytes' k) :
    proghdr bytes = proghdr bytes' := by
  simp only [proghdr, uint]
  simp (disch := omega) only [h]

theorem elfhdr_congr (h : ∀ k < 52, bytes k = bytes' k) :
    elfhdr bytes = elfhdr bytes' := by
  simp only [elfhdr, uint, ushort]
  simp (disch := omega) only [h]

/-- A structure in the first page is read from the scratch space. -/
theorem Scratch.bytesAt (h : Scratch file mem) {n : ℕ} (hn : off + n ≤ 4096) :
    ∀ k < n, bytesAt mem (scratch + (off : Word)) k = file (off + k) := by
  intro k hk
  rw [Boot.bytesAt, ← h (off + k) (by omega), Nat.cast_add, add_assoc]

theorem Scratch.elfhdr (h : Scratch file mem) :
    elfhdr (Boot.bytesAt mem scratch) = elfhdr file := by
  apply elfhdr_congr
  intro k hk
  exact h k (by omega)

theorem Scratch.apply (h : Scratch file mem) {q : Patch Word (BitVec 8)}
    (hq : ∀ k : ℕ, k < 4096 → q (scratch + (k : Word)) = none) :
    Scratch file (q.apply mem) := by
  intro k hk
  rw [Patch.apply_of_none (hq k hk), h k hk]

/-- The first page of the file as a segment. -/
def page : Proghdr where
  off := 0
  paddr := scratch
  filesz := 4096
  memsz := 4096

theorem page_fits : page.Fits := by
  constructor
  all_goals decide

/-- The first page is read. -/
theorem readseg_page :
    readseg drives mem scratch 4096 0 =
      some ((page.brings (image (drives false))).apply mem) :=
  have hpaddr : page.paddr = scratch := rfl
  have hfilesz : page.filesz = 4096 := rfl
  have hoff : page.off = 0 := rfl
  hpaddr ▸ hfilesz ▸ hoff ▸ Proghdr.readseg_eq page_fits

theorem scratch_page : Scratch file ((page.brings file).apply mem) := by
  intro k hk
  have hcover : page.Covers (page.paddr.toNat + k) :=
    page_fits.owns_covers hk
  have ha : (page.paddr + (k : Word)).toNat = page.paddr.toNat + k :=
    page_fits.toNat_add hk
  apply Patch.apply_of_some
  have hstart : page.paddr.toNat + k - page.start = k := by
    rw [show page.start = page.paddr.toNat from rfl]
    omega
  change page.brings file (page.paddr + (k : Word)) = _
  rw [Proghdr.brings, ha, if_pos hcover, hstart,
    show page.off.toNat / 512 * 512 = 0 from rfl, Nat.zero_add]

/-- The loop loads the segments from header `i` on. -/
theorem loadLoop_eq (hphoff : (elfhdr file).phoff.toNat +
      32 * (elfhdr file).phnum.toNat ≤ 4096) (hfile : file = image (drives false))
    (hseg : ∀ p ∈ segments file, p.Fits ∧ p.Away) {i n : ℕ}
    (hi : i + n = (elfhdr file).phnum.toNat) (hscratch : Scratch file mem) :
    ∃ mem', loadLoop drives n mem
        (scratch + (((elfhdr file).phoff.toNat + 32 * i : ℕ) : Word))
        (scratch + (elfhdr file).phoff +
          32 * (elfhdr file).phnum.setWidth 32) = some mem' ∧
      mem' = Patch.applyAll (((List.range' i n).map (header file)).map
        (Proghdr.loads file)) mem ∧ Scratch file mem' := by
  induction n generalizing i mem with
  | zero => exact ⟨mem, rfl, rfl, hscratch⟩
  | succ n ih =>
      have hbase : scratch.toNat = 0x10000 := rfl
      have hph : (scratch +
          (((elfhdr file).phoff.toNat + 32 * i : ℕ) : Word)).toNat =
            0x10000 + ((elfhdr file).phoff.toNat + 32 * i) :=
        toNat_add_natCast (by omega)
      have heph : (scratch + (elfhdr file).phoff +
          32 * (elfhdr file).phnum.setWidth 32).toNat =
            0x10000 + (elfhdr file).phoff.toNat +
              32 * (elfhdr file).phnum.toNat := by
        rw [BitVec.toNat_add, BitVec.toNat_add, BitVec.toNat_mul,
          BitVec.toNat_setWidth, hbase, show (32 : Word).toNat = 32 from rfl]
        omega
      have hlt : scratch + (((elfhdr file).phoff.toNat + 32 * i : ℕ) : Word) <
          scratch + (elfhdr file).phoff +
            32 * (elfhdr file).phnum.setWidth 32 := by
        rw [BitVec.lt_def, hph, heph]
        omega
      have hread : ∀ {m : Mem}, Scratch file m → proghdr (bytesAt m (scratch +
          (((elfhdr file).phoff.toNat + 32 * i : ℕ) : Word))) =
            header file i := fun hm =>
        proghdr_congr (hm.bytesAt (by omega))
      have hmem : header file i ∈ segments file :=
        List.mem_map_of_mem (List.mem_range.mpr (by omega))
      obtain ⟨hfits, haway⟩ := hseg _ hmem
      have hnext : scratch + (((elfhdr file).phoff.toNat + 32 * i : ℕ) : Word) +
          32 = scratch +
            (((elfhdr file).phoff.toNat + 32 * (i + 1) : ℕ) : Word) := by
        rw [Nat.mul_succ, ← Nat.add_assoc,
          Nat.cast_add ((elfhdr file).phoff.toNat + 32 * i) 32, ← add_assoc]
        rfl
      have hbrought : Scratch file (((header file i).brings file).apply mem) :=
        hscratch.apply fun k hk => (haway.brings_none file hk).1
      have hloaded : Scratch file (((header file i).zeros).apply
          (((header file i).brings file).apply mem)) :=
        hbrought.apply fun k hk => (haway.brings_none file hk).2
      obtain ⟨mem', hrun, hmem', hscratch'⟩ :=
        ih (i := i + 1) (by omega) hloaded
      refine ⟨mem', ?_, ?_, hscratch'⟩
      · rw [loadLoop, if_pos hlt]
        simp only [hread hscratch, Proghdr.readseg_eq hfits, ← hfile,
          hread hbrought, Proghdr.stosb_eq hfits, hnext]
        exact hrun
      · rw [hmem', Patch.apply_apply, List.range'_succ, List.map_cons,
          List.map_cons, Patch.applyAll, Patch.applyAll, List.foldl_cons]
        rfl

/-- The memory when the entry point is called. -/
def loaded (file : ℕ → BitVec 8) (mem : Mem) : Mem :=
  Patch.applyAll ((segments file).map (Proghdr.loads file))
    ((page.brings file).apply mem)

/-- `bootmain` loads all segments and calls the entry point. -/
theorem bootmain_eq (mem : Mem) (hmagic : (elfhdr file).magic = ELF_MAGIC)
    (hphoff : (elfhdr file).phoff.toNat +
      32 * (elfhdr file).phnum.toNat ≤ 4096) (hfile : file = image (drives false))
    (hseg : ∀ p ∈ segments file, p.Fits ∧ p.Away) :
    bootmain drives mem =
      some (.entered (elfhdr file).entry (loaded file mem)) := by
  have hscratch : Scratch file ((page.brings file).apply mem) := scratch_page
  obtain ⟨mem', hrun, hmem', hscratch'⟩ :=
    loadLoop_eq hphoff hfile hseg (Nat.zero_add _) hscratch
  have hph : scratch + (((elfhdr file).phoff.toNat + 32 * 0 : ℕ) : Word) =
      scratch + (elfhdr file).phoff := by
    simp
  rw [hph] at hrun
  rw [bootmain, readseg_page, ← hfile]
  simp only [hscratch.elfhdr, hmagic, ne_eq, not_true_eq_false, if_false, hrun,
    hscratch'.elfhdr]
  rw [hmem', loaded, segments, List.range_eq_range']

end Headers

/-! ## When the segments are right -/

/-- The memory holds the bytes of the file and then zeros. -/
def Loaded (file : ℕ → BitVec 8) (mem : Mem) (p : Proghdr) : Prop :=
  ∀ k : ℕ, k < p.memsz.toNat → mem (p.paddr + (k : Word)) = p.content file k

/-- Where sectors of later segments cover bytes of a segment, the last of them
brings the byte that belongs there. -/
def Harmless (file : ℕ → BitVec 8) (ps : List Proghdr) : Prop :=
  ∀ pre p post, ps = pre ++ p :: post →
    ∀ k : ℕ, k < p.memsz.toNat → ∀ b,
      Patch.last (post.map (Proghdr.brings file)) (p.paddr + (k : Word)) =
        some b → b = p.content file k

/-- The segments do not overlap. -/
def Disjoint (p q : Proghdr) : Prop :=
  ∀ a, ¬(p.Owns a ∧ q.Owns a)

section Right

variable {file : ℕ → BitVec 8} {mem : Mem} {ps : List Proghdr}

theorem loaded_iff (mem : Mem) (hfits : ∀ p ∈ segments file, p.Fits)
    (hdisj : (segments file).Pairwise Disjoint) :
    (∀ p ∈ segments file, Loaded file (loaded file mem) p) ↔
      Harmless file (segments file) := by
  have hkey : ∀ pre p post, segments file = pre ++ p :: post → ∀ k : ℕ,
      k < p.memsz.toNat → (loaded file mem (p.paddr + (k : Word)) =
        p.content file k ↔ ∀ b, Patch.last (post.map (Proghdr.brings file))
          (p.paddr + (k : Word)) = some b → b = p.content file k) := by
    intro pre p post hsplit k hk
    have hp : p.Fits := hfits p (by simp [hsplit])
    have hlater : ∀ q ∈ post, q.loads file (p.paddr + (k : Word)) =
        q.brings file (p.paddr + (k : Word)) := by
      intro q hq
      apply Proghdr.loads_of_not_owns
      rw [hsplit, List.pairwise_append] at hdisj
      have hpq := (List.pairwise_cons.mp hdisj.2.1).1 q hq
      rw [hp.toNat_add hk]
      exact fun hown => hpq _ ⟨⟨by omega, by omega⟩, hown⟩
    rw [loaded, hsplit, List.map_append, List.map_cons,
      Patch.applyAll_eq_iff (hp.loads_self hk), Patch.last_map_congr hlater]
  constructor
  · intro h pre p post hsplit k hk
    exact (hkey pre p post hsplit k hk).mp (h p (by simp [hsplit]) k hk)
  · intro h p hp k hk
    obtain ⟨pre, post, hsplit⟩ := List.append_of_mem hp
    exact (hkey pre p post hsplit k hk).mpr (h pre p post hsplit k hk)

/-- No harm is done if the sectors of each segment begin behind the segments
before it, as they do when the segments are sector-aligned. -/
theorem harmless_of_apart
    (h : ps.Pairwise fun p q => p.paddr.toNat + p.memsz.toNat ≤ q.start)
    (hfits : ∀ p ∈ ps, p.Fits) : Harmless file ps := by
  rintro pre p post rfl k hk b hb
  have hnone : Patch.last (post.map (Proghdr.brings file))
      (p.paddr + (k : Word)) = none := by
    apply Patch.last_eq_none
    intro r hr
    obtain ⟨q, hq, rfl⟩ := List.mem_map.mp hr
    rw [List.pairwise_append] at h
    have hpq := (List.pairwise_cons.mp h.2.1).1 q hq
    have hp : p.Fits := hfits p (by simp)
    rw [Proghdr.brings, hp.toNat_add hk, if_neg]
    simp only [Proghdr.Covers]
    omega
  rw [hnone] at hb
  cases hb

end Right

/-- The bytes of a number, the least significant one first. -/
def le32 (v : Word) : List (BitVec 8) :=
  [v.extractLsb' 0 8, v.extractLsb' 8 8, v.extractLsb' 16 8, v.extractLsb' 24 8]

/-- The headers of a file with a segment of 16 bytes and 16 zeros at
0x100000 and a segment of one byte at `paddr`, which is not sector-aligned in
the file. -/
def smallHeaders (paddr : Word) : List (BitVec 8) :=
  le32 ELF_MAGIC ++ List.replicate 20 0 ++ le32 0x10000C ++ le32 52 ++
    List.replicate 12 0 ++ [2, 0] ++ List.replicate 6 0 ++
    le32 1 ++ le32 0x1000 ++ le32 0 ++ le32 0x100000 ++ le32 16 ++ le32 32 ++
    le32 0 ++ le32 0 ++
    le32 1 ++ le32 0x1001 ++ le32 0 ++ le32 paddr ++ le32 1 ++ le32 1

def smallFile (paddr : Word) (off : ℕ) : BitVec 8 :=
  if off = 0x1000 then 1 else (smallHeaders paddr).getD off 0

def smallDrives (paddr : Word) (_ : Bool) : Drive :=
  fun sector k => smallFile paddr ((sector - 1) * 512 + k)

theorem image_small (paddr : Word) :
    image (smallDrives paddr false) = smallFile paddr := by
  funext off
  have hoff : (1 + off / 512 - 1) * 512 + off % 512 = off := by omega
  rw [image, smallDrives, hoff]

def smallSegment : Proghdr where
  off := 0x1000
  paddr := 0x100000
  filesz := 16
  memsz := 32

def smallByte (paddr : Word) : Proghdr where
  off := 0x1001
  paddr := paddr
  filesz := 1
  memsz := 1

theorem small_elfhdr :
    elfhdr (smallFile 0x100200) = ⟨ELF_MAGIC, 0x10000C, 52, 2⟩ ∧
      elfhdr (smallFile 0x100020) = ⟨ELF_MAGIC, 0x10000C, 52, 2⟩ := by
  decide

theorem small_segments :
    segments (smallFile 0x100200) = [smallSegment, smallByte 0x100200] ∧
      segments (smallFile 0x100020) = [smallSegment, smallByte 0x100020] := by
  decide

theorem small_fits {p : Proghdr} (h : p = smallSegment ∨
      p = smallByte 0x100200 ∨ p = smallByte 0x100020) :
    p.Fits ∧ p.Away := by
  rcases h with rfl | rfl | rfl
  all_goals
    exact ⟨⟨by decide, by decide, by decide, by decide⟩,
      Proghdr.away_of_le (by decide)⟩

theorem small_disjoint {paddr : Word} (h : 0x100020 ≤ paddr.toNat) :
    [smallSegment, smallByte paddr].Pairwise Disjoint := by
  rw [List.pairwise_pair]
  rintro a ⟨hfirst, hsecond⟩
  have hlt : a < 0x100020 := hfirst.2
  have hle : paddr.toNat ≤ a := hsecond.1
  omega

end ZtlOs.Boot
