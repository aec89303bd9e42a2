import ZtlOs.Fs.Format
import ZtlOs.Support.Runs

/-!
# Freeing an inode while its number is reused

The inode cache of `fs.c` while one process runs the freeing branch of `iput`
and any number of others run the part of `create` that obtains a new inode.

One step is what a process does between two points where another one can
interfere: a critical section under `icache.lock`, the use of one disk block
under its buffer lock, or the assignments to the fields of an in-memory inode.
There is one device, so device numbers are left out.
-/

namespace ZtlOs.Fs.InodeReuse

open ZtlOs.Support

/-- An entry of the inode cache: `struct inode`, whose fields copied from the
disk are kept together. -/
structure Inode where
  inum : ℕ
  ref : ℕ
  locked : Bool
  valid : Bool
  din : Dinode

abbrev Slot := Fin NINODE

/-- Where the freeing process is in `iput`. -/
inductive FreerPc where
  /-- Before the test under `icache.lock`. -/
  | test
  /-- `itrunc` is to discard the blocks and the size. -/
  | trunc
  /-- The `iupdate` at the end of `itrunc`. -/
  | truncUpdate
  /-- `ip->type = 0`. -/
  | clearType
  /-- The `iupdate` that frees the inode on disk. -/
  | update
  /-- `ip->flags = 0; ip->ref--` under `icache.lock`. -/
  | invalidate
  | done
  deriving DecidableEq

/-- The arguments of `create` that it stores in the inode. -/
structure Request where
  type : BitVec 16
  major : BitVec 16
  minor : BitVec 16

/-- Where a creating process is. -/
inductive CreatorPc where
  | idle
  /-- The loop of `ialloc`, about to read inode `inum`. -/
  | scan (r : Request) (inum : ℕ)
  /-- `ialloc` has marked `inum` on disk and is to call `iget`. -/
  | iget (r : Request) (inum : ℕ)
  /-- `ilock` is to acquire the sleep lock. -/
  | ilock (r : Request) (ip : Slot)
  /-- `ilock` holds the sleep lock and is to test `I_VALID`. -/
  | ilockRead (r : Request) (ip : Slot)
  /-- The fields are to be assigned. -/
  | fields (r : Request) (ip : Slot)
  /-- The fields are to be written with `iupdate`. -/
  | update (r : Request) (ip : Slot)
  /-- `create` has returned `ip`, which is still locked. -/
  | returned (r : Request) (ip : Slot)

structure State (P : Type*) where
  icache : Slot → Inode
  disk : ℕ → Dinode
  freer : FreerPc
  creators : P → CreatorPc

/-- Who takes a step; the creators choose their arguments. -/
inductive Act (P : Type*) where
  | freer
  | call (p : P) (r : Request)
  | creator (p : P)
  | unlock (p : P)

section Step

variable {P : Type*} [DecidableEq P]

namespace State

def setInode (s : State P) (ip : Slot) (v : Inode) : State P :=
  { s with icache := fun c => if c = ip then v else s.icache c }

def setDisk (s : State P) (inum : ℕ) (v : Dinode) : State P :=
  { s with disk := fun i => if i = inum then v else s.disk i }

def setCreator (s : State P) (p : P) (pc : CreatorPc) : State P :=
  { s with creators := fun q => if q = p then pc else s.creators q }

end State

/-- `iget`: the referenced entry for `inum` if there is one, otherwise the
first entry without references, recycled. -/
def iget (s : State P) (inum : ℕ) : Option (Slot × Inode) :=
  match (List.finRange NINODE).find? fun c =>
      decide (0 < (s.icache c).ref ∧ (s.icache c).inum = inum) with
  | some c => some (c, { s.icache c with ref := (s.icache c).ref + 1 })
  | none =>
      match (List.finRange NINODE).find? fun c =>
          decide ((s.icache c).ref = 0) with
      | some c =>
          some (c, { s.icache c with inum := inum, ref := 1, valid := false })
      | none => none

/-- One step of the process in `iput(ip)`. -/
def freerStep (ip : Slot) (s : State P) : Outcome (State P) :=
  let node := s.icache ip
  match s.freer with
  | .test =>
      if node.ref = 1 ∧ node.valid = true ∧ node.din.nlink = 0 then
        .next { s with freer := .trunc }
      else
        .next { s.setInode ip { node with ref := node.ref - 1 } with
          freer := .done }
  | .trunc =>
      .next { s.setInode ip { node with
        din := { node.din with addrs := fun _ => 0, size := 0 } } with
          freer := .truncUpdate }
  | .truncUpdate =>
      .next { s.setDisk node.inum node.din with freer := .clearType }
  | .clearType =>
      .next { s.setInode ip { node with din := { node.din with type := 0 } }
        with freer := .update }
  | .update =>
      .next { s.setDisk node.inum node.din with freer := .invalidate }
  | .invalidate =>
      .next { s.setInode ip { node with valid := false, ref := node.ref - 1 }
        with freer := .done }
  | .done => .blocked

/-- One step of process `p` in `create`. -/
def creatorStep (ninodes : ℕ) (s : State P) (p : P) : Outcome (State P) :=
  match s.creators p with
  | .idle => .blocked
  | .scan r inum =>
      if inum < ninodes then
        if (s.disk inum).type = 0 then
          .next ((s.setDisk inum { Dinode.zero with type := r.type }).setCreator
            p (.iget r inum))
        else
          .next (s.setCreator p (.scan r (inum + 1)))
      else
        .panic "ialloc: no inodes"
  | .iget r inum =>
      match iget s inum with
      | some (ip, node) => .next ((s.setInode ip node).setCreator p (.ilock r ip))
      | none => .panic "iget: no inodes"
  | .ilock r ip =>
      if (s.icache ip).ref < 1 then
        .panic "ilock"
      else if (s.icache ip).locked = true then
        .blocked
      else
        .next ((s.setInode ip { s.icache ip with locked := true }).setCreator
          p (.ilockRead r ip))
  | .ilockRead r ip =>
      if (s.icache ip).valid = true then
        .next (s.setCreator p (.fields r ip))
      else if (s.disk (s.icache ip).inum).type = 0 then
        .panic "ilock: no type"
      else
        .next ((s.setInode ip { s.icache ip with
          valid := true, din := s.disk (s.icache ip).inum }).setCreator
            p (.fields r ip))
  | .fields r ip =>
      .next ((s.setInode ip { s.icache ip with
        din := { (s.icache ip).din with
          major := r.major, minor := r.minor, nlink := 1 } }).setCreator
            p (.update r ip))
  | .update r ip =>
      .next ((s.setDisk (s.icache ip).inum (s.icache ip).din).setCreator
        p (.returned r ip))
  | .returned _ _ => .blocked

/-- `create` is called with a file type, so never with a type of zero. -/
def step (ninodes : ℕ) (ip : Slot) (s : State P) : Act P → Outcome (State P)
  | .freer => freerStep ip s
  | .call p r =>
      match s.creators p with
      | .idle =>
          if r.type = 0 then .blocked else .next (s.setCreator p (.scan r 1))
      | _ => .blocked
  | .creator p => creatorStep ninodes s p
  | .unlock p =>
      match s.creators p with
      | .returned _ c =>
          if (s.icache c).locked = false ∨ (s.icache c).ref < 1 then
            .panic "iunlock"
          else
            .next ((s.setInode c { s.icache c with locked := false }).setCreator
              p .idle)
      | _ => .blocked

end Step

/-! ## The property and the condition -/

section Property

variable {P : Type*}

/-- A creator that has locked its inode finds it valid and of the requested
type, and so does the disk once `create` has returned. -/
def CreatorServed (s : State P) (p : P) : Prop :=
  match s.creators p with
  | .fields r c | .update r c =>
      (s.icache c).valid = true ∧ (s.icache c).din.type = r.type
  | .returned r c =>
      ((s.icache c).valid = true ∧ (s.icache c).din.type = r.type) ∧
        (s.disk (s.icache c).inum).type = r.type
  | _ => True

/-- Every creating process gets what it asked for. -/
def Served (s : State P) : Prop := ∀ p, CreatorServed s p

/-- The step is a creator testing `I_VALID` of the entry that is being freed,
between the `iupdate` that frees it on disk and the end of `iput`. -/
def TestsInWindow (ip : Slot) (s : State P) (a : Act P) : Prop :=
  ∃ p r, a = .creator p ∧ s.creators p = .ilockRead r ip ∧
    s.freer = .invalidate

end Property

/-! ## The invariant of runs without such a test -/

namespace CreatorPc

/-- The request and the entry of a creator that has obtained one. -/
def entry : CreatorPc → Option (Request × Slot)
  | .ilock r c | .ilockRead r c | .fields r c | .update r c
  | .returned r c => some (r, c)
  | _ => none

end CreatorPc

section Invariant

variable {P : Type*}

/-- The freeing process is past its last change of the disk and has not yet
invalidated the entry. -/
def Window (ip c : Slot) (s : State P) : Prop :=
  c = ip ∧ s.freer = .invalidate

/-- The inode that a creator has allocated. -/
def allocates (s : State P) (pc : CreatorPc) : Option ℕ :=
  match pc with
  | .iget _ i => some i
  | pc => pc.entry.map fun e => (s.icache e.2).inum

/-- The entry `c` is referenced and names an inode of the requested type. -/
def Holds (s : State P) (r : Request) (c : Slot) : Prop :=
  r.type ≠ 0 ∧ 0 < (s.icache c).ref ∧
    (s.disk (s.icache c).inum).type = r.type

/-- What is true of a creator at each place, as long as none has tested
`I_VALID` in the window. -/
def PcOk (ip : Slot) (s : State P) (pc : CreatorPc) : Prop :=
  match pc with
  | .idle => True
  | .scan r _ => r.type ≠ 0
  | .iget r i => r.type ≠ 0 ∧ (s.disk i).type = r.type ∧
      ∀ c, 0 < (s.icache c).ref → (s.icache c).inum = i → Window ip c s
  | .ilock r c | .ilockRead r c => Holds s r c ∧
      ((s.icache c).valid = false ∨ Window ip c s) ∧
      (c = ip → s.freer ≠ .done →
        s.freer = .invalidate ∧ 2 ≤ (s.icache ip).ref)
  | .fields r c | .update r c | .returned r c => Holds s r c ∧
      ((s.icache c).valid = true ∧ (s.icache c).din.type = r.type) ∧
      (c = ip → s.freer = .done)

/-- What is true of the entry that is being freed, at each place of `iput`. -/
def FreerOk (ip : Slot) (s : State P) (node : Inode) : Prop :=
  match s.freer with
  | .test => 0 < node.ref ∧ (node.valid = true → node.din.type ≠ 0)
  | .trunc | .truncUpdate | .clearType =>
      node.ref = 1 ∧ node.valid = true ∧ node.din.type ≠ 0
  | .update => node.ref = 1 ∧ node.valid = true ∧ node.din.type = 0
  | .invalidate => 0 < node.ref ∧ node.valid = true ∧ node.din.type = 0 ∧
      (node.ref = 1 ∨ ∃ p r, (s.creators p).entry = some (r, ip))
  | .done => True

structure Inv (ip : Slot) (s : State P) : Prop where
  unique : ∀ c d, 0 < (s.icache c).ref → 0 < (s.icache d).ref →
    (s.icache c).inum = (s.icache d).inum → c = d
  allocated : ∀ c, 0 < (s.icache c).ref →
    Window ip c s ∨ (s.disk (s.icache c).inum).type ≠ 0
  freer : FreerOk ip s (s.icache ip)
  creators : ∀ p, PcOk ip s (s.creators p)
  distinct : ∀ p q i, allocates s (s.creators p) = some i →
    allocates s (s.creators q) = some i → p = q

end Invariant

section Frame

variable {P : Type*} {ip : Slot} {s s' : State P} {pc : CreatorPc}

theorem allocates_of_entry {r : Request} {c : Slot}
    (h : pc.entry = some (r, c)) :
    allocates s pc = some (s.icache c).inum := by
  cases pc <;> cases h <;> rfl

theorem allocates_congr
    (h : ∀ r c, pc.entry = some (r, c) →
      (s'.icache c).inum = (s.icache c).inum) :
    allocates s' pc = allocates s pc := by
  cases pc <;> first | rfl | exact congrArg some (h _ _ rfl)

theorem allocates_cases {i : ℕ} (h : allocates s pc = some i) :
    (∃ r, pc = .iget r i) ∨
      ∃ r c, pc.entry = some (r, c) ∧ (s.icache c).inum = i := by
  cases pc with
  | idle | scan => cases h
  | iget r j =>
      cases h
      exact Or.inl ⟨r, rfl⟩
  | ilock r c | ilockRead r c | fields r c | update r c | returned r c =>
      cases h
      exact Or.inr ⟨r, c, rfl, rfl⟩

theorem PcOk.holds {r : Request} {c : Slot} (h : PcOk ip s pc)
    (hpc : pc.entry = some (r, c)) : Holds s r c := by
  cases pc <;> cases hpc <;> exact h.1

/-- A creator at the entry that is being freed is there in the window. -/
theorem PcOk.freed {r : Request} (h : PcOk ip s pc)
    (hpc : pc.entry = some (r, ip)) (hf : s.freer ≠ .done) :
    s.freer = .invalidate ∧ 2 ≤ (s.icache ip).ref := by
  cases pc with
  | ilock | ilockRead =>
      cases hpc
      exact h.2.2 rfl hf
  | fields | update | returned =>
      cases hpc
      exact absurd (h.2.2 rfl) hf
  | idle | scan | iget => cases hpc

/-- An allocated inode has a type on disk. -/
theorem PcOk.typed {i : ℕ} (h : PcOk ip s pc)
    (hi : allocates s pc = some i) : (s.disk i).type ≠ 0 := by
  rcases allocates_cases hi with ⟨r, rfl⟩ | ⟨r, c, hpc, rfl⟩
  · rw [h.2.1]
    exact h.1
  · obtain ⟨hr, -, htype⟩ := h.holds hpc
    rw [htype]
    exact hr

/-- A creator keeps what it has when a step leaves its entry and the type of
its inode on disk alone and gives no reference to an inode it has marked. -/
theorem PcOk.frame (h : PcOk ip s pc)
    (hdisk : ∀ i, allocates s pc = some i →
      (s'.disk i).type = (s.disk i).type)
    (hslot : ∀ r c, pc.entry = some (r, c) → s'.icache c = s.icache c)
    (hnew : ∀ r i, pc = .iget r i → ∀ c, 0 < (s'.icache c).ref →
      (s'.icache c).inum = i → Window ip c s')
    (hfreer : s'.freer = s.freer ∨ ∀ r, pc.entry ≠ some (r, ip)) :
    PcOk ip s' pc := by
  have hentry : ∀ r c, pc.entry = some (r, c) →
      s'.icache c = s.icache c ∧
        (s'.disk (s.icache c).inum).type = (s.disk (s.icache c).inum).type ∧
        (c = ip → s'.freer = s.freer) := by
    intro r c hpc
    refine ⟨hslot r c hpc, hdisk _ (allocates_of_entry hpc), ?_⟩
    rintro rfl
    exact hfreer.resolve_right fun hno => hno r hpc
  cases pc with
  | idle => trivial
  | scan r i => exact h
  | iget r i => exact ⟨h.1, (hdisk i rfl).trans h.2.1, hnew r i rfl⟩
  | ilock r c | ilockRead r c =>
      obtain ⟨hi, hd, hf⟩ := hentry r c rfl
      obtain ⟨⟨hr, href, htype⟩, hunread, hfreed⟩ := h
      refine ⟨⟨hr, ?_, ?_⟩, ?_, ?_⟩
      · rw [hi]
        exact href
      · rw [hi, hd]
        exact htype
      · rw [hi]
        rcases hunread with hv | ⟨rfl, hw⟩
        · exact Or.inl hv
        · exact Or.inr ⟨rfl, (hf rfl).trans hw⟩
      · rintro rfl
        rw [hi, hf rfl]
        exact hfreed rfl
  | fields r c | update r c | returned r c =>
      obtain ⟨hi, hd, hf⟩ := hentry r c rfl
      obtain ⟨⟨hr, href, htype⟩, hread, hfreed⟩ := h
      refine ⟨⟨hr, ?_, ?_⟩, ?_, ?_⟩
      · rw [hi]
        exact href
      · rw [hi, hd]
        exact htype
      · rw [hi]
        exact hread
      · rintro rfl
        rw [hf rfl]
        exact hfreed rfl

theorem FreerOk.ref_pos (h : FreerOk ip s (s.icache ip))
    (hf : s.freer ≠ .done) : 0 < (s.icache ip).ref := by
  unfold FreerOk at h
  cases hpc : s.freer with
  | test | invalidate =>
      rw [hpc] at h
      exact h.1
  | trunc | truncUpdate | clearType | update =>
      rw [hpc] at h
      exact h.1.symm ▸ Nat.one_pos
  | done => exact absurd hpc hf

theorem FreerOk.frame {node node' : Inode} (h : FreerOk ip s node)
    (hfreer : s'.freer = s.freer) (href : node'.ref = node.ref)
    (hvalid : node'.valid = node.valid)
    (htype : node'.din.type = node.din.type)
    (hholder : ∀ p r, (s.creators p).entry = some (r, ip) →
      (s'.creators p).entry = some (r, ip)) : FreerOk ip s' node' := by
  unfold FreerOk at h ⊢
  rw [hfreer, href, hvalid, htype]
  cases hf : s.freer with
  | invalidate =>
      rw [hf] at h
      obtain ⟨hr, hv, ht, hh⟩ := h
      exact ⟨hr, hv, ht, hh.imp id fun ⟨p, r, hp⟩ => ⟨p, r, hholder p r hp⟩⟩
  | _ => rw [hf] at h; exact h

/-- Before the window no creator has allocated the inode that is being
freed. -/
theorem Inv.not_allocates_freed (h : Inv ip s) (hdone : s.freer ≠ .done)
    (hwin : s.freer ≠ .invalidate) (p : P) :
    allocates s (s.creators p) ≠ some (s.icache ip).inum := by
  intro hi
  have href := h.freer.ref_pos hdone
  have hp := h.creators p
  rcases allocates_cases hi with ⟨r, hpc⟩ | ⟨r, c, hpc, hc⟩
  · rw [hpc] at hp
    exact hwin (hp.2.2 ip href rfl).2
  · have heq : c = ip := h.unique c ip (hp.holds hpc).2.1 href hc
    rw [heq] at hpc
    exact hwin (hp.freed hpc hdone).1

/-- A step of the freeing process before the window changes its own entry and
its own inode on disk, which no creator uses. -/
theorem Inv.of_freer_step (h : Inv ip s) (hdone : s.freer ≠ .done)
    (hwin : s.freer ≠ .invalidate) (hcreators : s'.creators = s.creators)
    (hother : ∀ c, c ≠ ip → s'.icache c = s.icache c)
    (hinum : (s'.icache ip).inum = (s.icache ip).inum)
    (href : (s'.icache ip).ref ≤ (s.icache ip).ref)
    (hdisk : ∀ i, i ≠ (s.icache ip).inum → s'.disk i = s.disk i)
    (halloc : s'.freer = .invalidate ∨
      (s'.disk (s.icache ip).inum).type ≠ 0)
    (hfreer : FreerOk ip s' (s'.icache ip)) : Inv ip s' := by
  have hrefs : ∀ c, 0 < (s'.icache c).ref →
      0 < (s.icache c).ref ∧ (s'.icache c).inum = (s.icache c).inum := by
    intro c hc
    by_cases hci : c = ip
    · subst hci
      exact ⟨lt_of_lt_of_le hc href, hinum⟩
    · rw [hother c hci] at hc ⊢
      exact ⟨hc, rfl⟩
  have hno := h.not_allocates_freed hdone hwin
  have hentry : ∀ p r, (s.creators p).entry ≠ some (r, ip) :=
    fun p r hpc => hno p (allocates_of_entry hpc)
  have hkeep : ∀ p r c, (s.creators p).entry = some (r, c) →
      s'.icache c = s.icache c := by
    intro p r c hpc
    apply hother
    rintro rfl
    exact hentry p r hpc
  have hsame : ∀ p, allocates s' (s.creators p) = allocates s (s.creators p) := by
    intro p
    apply allocates_congr
    intro r c hpc
    rw [hkeep p r c hpc]
  constructor
  case unique =>
    intro c d hc hd hcd
    obtain ⟨hc', hci⟩ := hrefs c hc
    obtain ⟨hd', hdi⟩ := hrefs d hd
    exact h.unique c d hc' hd' (by rw [← hci, ← hdi, hcd])
  case allocated =>
    intro c hc
    obtain ⟨hc', hci⟩ := hrefs c hc
    rw [hci]
    by_cases hfreed : (s.icache c).inum = (s.icache ip).inum
    · have heq : c = ip := h.unique c ip hc' (h.freer.ref_pos hdone) hfreed
      subst heq
      exact halloc.imp (fun hw => ⟨rfl, hw⟩) id
    · rw [hdisk _ hfreed]
      rcases h.allocated c hc' with ⟨-, hw⟩ | ht
      · exact absurd hw hwin
      · exact Or.inr ht
  case freer => exact hfreer
  case creators =>
    intro p
    rw [hcreators]
    refine (h.creators p).frame ?_ (hkeep p) ?_ (Or.inr (hentry p))
    · intro i hi
      rw [hdisk i fun heq => hno p (heq ▸ hi)]
    · intro r i hpc c hc hci
      obtain ⟨hc', hsi⟩ := hrefs c hc
      have hp := h.creators p
      rw [hpc] at hp
      exact absurd (hp.2.2 c hc' (hsi ▸ hci)).2 hwin
  case distinct =>
    intro p q i hp hq
    rw [hcreators, hsame] at hp hq
    exact h.distinct p q i hp hq

/-- The last step of `iput`: whoever found the entry in the window now finds it
not valid, and keeps it. -/
theorem Inv.invalidate (h : Inv ip s) (hf : s.freer = .invalidate) :
    Inv ip { s.setInode ip { s.icache ip with
      valid := false, ref := (s.icache ip).ref - 1 } with freer := .done } := by
  have hfreed := h.freer
  rw [FreerOk, hf] at hfreed
  obtain ⟨href, hvalid, htype, hholder⟩ := hfreed
  have hdone : s.freer ≠ .done := by
    rw [hf]
    decide
  have hother : ∀ c, c ≠ ip → ({ s.setInode ip { s.icache ip with
      valid := false, ref := (s.icache ip).ref - 1 } with
        freer := .done } : State P).icache c = s.icache c := by
    intro c hc
    simp [State.setInode, hc]
  have hself : ({ s.setInode ip { s.icache ip with
      valid := false, ref := (s.icache ip).ref - 1 } with
        freer := .done } : State P).icache ip = { s.icache ip with
          valid := false, ref := (s.icache ip).ref - 1 } := by
    simp [State.setInode]
  generalize hs' : ({ s.setInode ip { s.icache ip with
      valid := false, ref := (s.icache ip).ref - 1 } with
        freer := .done } : State P) = s' at hother hself
  have hcreators : s'.creators = s.creators := by
    rw [← hs']
    rfl
  have hdisk : s'.disk = s.disk := by
    rw [← hs']
    rfl
  have hfreer' : s'.freer = .done := by
    rw [← hs']
  have hrefs : ∀ c, 0 < (s'.icache c).ref →
      0 < (s.icache c).ref ∧ (c = ip → 2 ≤ (s.icache ip).ref) := by
    intro c hc
    by_cases hci : c = ip
    · subst hci
      rw [hself] at hc
      dsimp only at hc
      exact ⟨by omega, fun _ => by omega⟩
    · rw [hother c hci] at hc
      exact ⟨hc, fun heq => absurd heq hci⟩
  have hinum : ∀ c, (s'.icache c).inum = (s.icache c).inum := by
    intro c
    by_cases hci : c = ip
    · rw [hci, hself]
    · rw [hother c hci]
  -- A second reference is held by a creator, so the inode has a type again.
  have htwo : 2 ≤ (s.icache ip).ref →
      ∃ p r, (s.creators p).entry = some (r, ip) := by
    intro h2
    rcases hholder with h1 | hp
    · omega
    · exact hp
  have hsame : ∀ pc, allocates s' pc = allocates s pc :=
    fun pc => allocates_congr fun _ c _ => hinum c
  constructor
  case unique =>
    intro c d hc hd hcd
    rw [hinum, hinum] at hcd
    exact h.unique c d (hrefs c hc).1 (hrefs d hd).1 hcd
  case allocated =>
    intro c hc
    right
    rw [hinum, hdisk]
    obtain ⟨hc', h2⟩ := hrefs c hc
    rcases h.allocated c hc' with ⟨rfl, -⟩ | ht
    · obtain ⟨p, r, hpc⟩ := htwo (h2 rfl)
      exact (h.creators p).typed (allocates_of_entry hpc)
    · exact ht
  case freer =>
    rw [FreerOk, hfreer']
    trivial
  case creators =>
    intro p
    rw [hcreators]
    have hp := h.creators p
    by_cases hpe : ∃ r, (s.creators p).entry = some (r, ip)
    · obtain ⟨r, hpe⟩ := hpe
      have h2 := (hp.freed hpe hdone).2
      have hholds := hp.holds hpe
      have hnew : Holds s' r ip := by
        refine ⟨hholds.1, ?_, ?_⟩
        · rw [hself]
          exact Nat.sub_pos_of_lt h2
        · rw [hinum, hdisk]
          exact hholds.2.2
      have hunread : (s'.icache ip).valid = false := by
        rw [hself]
      cases hpc : s.creators p with
      | ilock r' c | ilockRead r' c =>
          rw [hpc] at hpe
          cases hpe
          exact ⟨hnew, Or.inl hunread, fun _ hne => absurd hfreer' hne⟩
      | fields r' c | update r' c | returned r' c =>
          rw [hpc] at hp hpe
          cases hpe
          exact absurd (hp.2.2 rfl) hdone
      | idle | scan | iget =>
          rw [hpc] at hpe
          cases hpe
    · refine hp.frame ?_ ?_ ?_ (Or.inr fun r hr => hpe ⟨r, hr⟩)
      · intro i _
        rw [hdisk]
      · intro r c hpc
        apply hother
        rintro rfl
        exact hpe ⟨r, hpc⟩
      · intro r i hpc c hc hci
        exfalso
        rw [hinum] at hci
        obtain ⟨hc', h2⟩ := hrefs c hc
        rw [hpc] at hp
        obtain ⟨rfl, -⟩ := hp.2.2 c hc' hci
        -- Another creator would have allocated the same inode.
        obtain ⟨q, r', hq⟩ := htwo (h2 rfl)
        have hqi := allocates_of_entry (s := s) hq
        have hpi : allocates s (s.creators p) = some i := by rw [hpc]; rfl
        rw [hci] at hqi
        rw [h.distinct q p i hqi hpi, hpc] at hq
        cases hq
  case distinct =>
    intro p q i hp hq
    rw [hcreators, hsame] at hp hq
    exact h.distinct p q i hp hq

/-- What one creator does leaves the others as they are, when it keeps away from
their entries and inodes. -/
theorem Inv.of_creator_step (h : Inv ip s) {p : P}
    (hothers : ∀ q, q ≠ p → s'.creators q = s.creators q)
    (hfreer : s'.freer = s.freer)
    (hdisk : ∀ q, q ≠ p → ∀ i, allocates s (s.creators q) = some i →
      (s'.disk i).type = (s.disk i).type)
    (hslot : ∀ q, q ≠ p → ∀ r c, (s.creators q).entry = some (r, c) →
      s'.icache c = s.icache c)
    (hnew : ∀ q, q ≠ p → ∀ r i, s.creators q = .iget r i → ∀ c,
      0 < (s'.icache c).ref → (s'.icache c).inum = i → Window ip c s')
    (hdistinct : ∀ q, q ≠ p → ∀ i,
      allocates s' (s'.creators p) = some i →
        allocates s (s.creators q) ≠ some i)
    (hunique : ∀ c d, 0 < (s'.icache c).ref → 0 < (s'.icache d).ref →
      (s'.icache c).inum = (s'.icache d).inum → c = d)
    (halloc : ∀ c, 0 < (s'.icache c).ref →
      Window ip c s' ∨ (s'.disk (s'.icache c).inum).type ≠ 0)
    (hfreed : FreerOk ip s' (s'.icache ip))
    (hp : PcOk ip s' (s'.creators p)) : Inv ip s' := by
  have hsame : ∀ q, q ≠ p →
      allocates s' (s'.creators q) = allocates s (s.creators q) := by
    intro q hq
    rw [hothers q hq]
    apply allocates_congr
    intro r c hpc
    rw [hslot q hq r c hpc]
  constructor
  case unique => exact hunique
  case allocated => exact halloc
  case freer => exact hfreed
  case creators =>
    intro q
    by_cases hq : q = p
    · rw [hq]
      exact hp
    · rw [hothers q hq]
      exact (h.creators q).frame (hdisk q hq) (hslot q hq) (hnew q hq)
        (Or.inl hfreer)
  case distinct =>
    intro q q' i hqi hqi'
    by_cases hq : q = p
    · by_cases hq' : q' = p
      · rw [hq, hq']
      · rw [hq] at hqi
        rw [hsame q' hq'] at hqi'
        exact absurd hqi' (hdistinct q' hq' i hqi)
    · by_cases hq' : q' = p
      · rw [hq'] at hqi'
        rw [hsame q hq] at hqi
        exact absurd hqi (hdistinct q hq i hqi')
      · rw [hsame q hq] at hqi
        rw [hsame q' hq'] at hqi'
        exact h.distinct q q' i hqi hqi'

/-- The entry of one creator is not the entry of another. -/
theorem Inv.entry_ne (h : Inv ip s) {p q : P} {r r' : Request} {c d : Slot}
    (hp : (s.creators p).entry = some (r, c))
    (hq : (s.creators q).entry = some (r', d)) (hqp : q ≠ p) : d ≠ c := by
  rintro rfl
  exact hqp (h.distinct q p _ (allocates_of_entry hq) (allocates_of_entry hp))

end Frame

section CreatorSteps

variable {P : Type*} [DecidableEq P] {ip : Slot} {s : State P} {p : P}

@[simp] theorem setCreator_self (s : State P) (p : P) (pc : CreatorPc) :
    (s.setCreator p pc).creators p = pc := by
  simp [State.setCreator]

theorem setCreator_of_ne {s : State P} {p q : P} (h : q ≠ p)
    (pc : CreatorPc) : (s.setCreator p pc).creators q = s.creators q := by
  simp [State.setCreator, h]

/-- A creator that has no entry moves on without touching anything. -/
theorem Inv.move (h : Inv ip s) {pc : CreatorPc}
    (hold : (s.creators p).entry = none) (hpc : PcOk ip s pc)
    (hnone : ∀ i, allocates s pc ≠ some i) :
    Inv ip (s.setCreator p pc) := by
  refine h.of_creator_step (p := p) (fun q hq => setCreator_of_ne hq pc) rfl
    (fun _ _ _ _ => rfl) (fun _ _ _ _ _ => rfl) ?_ ?_ h.unique h.allocated ?_ ?_
  · intro q _ r i hq c hc hi
    have hok := h.creators q
    rw [hq] at hok
    exact hok.2.2 c hc hi
  · intro q _ i hi
    rw [setCreator_self] at hi
    exact absurd hi (hnone i)
  · refine h.freer.frame rfl rfl rfl rfl fun q r hq => ?_
    rw [setCreator_of_ne]
    · exact hq
    · rintro rfl
      rw [hold] at hq
      cases hq
  · rw [setCreator_self]
    cases pc <;> exact hpc

/-- `ialloc` marks a free inode: no creator has it, and no entry references it
except in the window. -/
theorem Inv.mark (h : Inv ip s) {r : Request} {inum : ℕ}
    (hp : s.creators p = .scan r inum) (hfree : (s.disk inum).type = 0) :
    Inv ip ((s.setDisk inum { Dinode.zero with type := r.type }).setCreator p
      (.iget r inum)) := by
  have hr : r.type ≠ 0 := by
    have hok := h.creators p
    rw [hp] at hok
    exact hok
  have hwin : ∀ c, 0 < (s.icache c).ref → (s.icache c).inum = inum →
      Window ip c s := by
    intro c hc hi
    rcases h.allocated c hc with hw | ht
    · exact hw
    · rw [hi] at ht
      exact absurd hfree ht
  have hnone : ∀ q, allocates s (s.creators q) ≠ some inum :=
    fun q hq => (h.creators q).typed hq hfree
  refine h.of_creator_step (p := p) (fun q hq => setCreator_of_ne hq _) rfl
    ?_ (fun _ _ _ _ _ => rfl) ?_ ?_ h.unique ?_ ?_ ?_
  · intro q _ i hi
    have hne : i ≠ inum := fun heq => hnone q (heq ▸ hi)
    simp [State.setDisk, State.setCreator, hne]
  · intro q _ r' i hq c hc hi
    have hok := h.creators q
    rw [hq] at hok
    exact hok.2.2 c hc hi
  · intro q _ i hi hq
    rw [setCreator_self] at hi
    cases hi
    exact hnone q hq
  · intro c hc
    rcases h.allocated c hc with hw | ht
    · exact Or.inl hw
    · by_cases hi : (s.icache c).inum = inum
      · exact Or.inl (hwin c hc hi)
      · right
        simpa [State.setDisk, State.setCreator, hi] using ht
  · refine h.freer.frame rfl rfl rfl rfl fun q r' hq => ?_
    rw [setCreator_of_ne]
    · exact hq
    · rintro rfl
      rw [hp] at hq
      cases hq
  · rw [setCreator_self]
    refine ⟨hr, ?_, hwin⟩
    simp [State.setDisk, State.setCreator]

/-- `iget` finds a referenced entry for a marked inode only in the window, and
then adds a reference to it. -/
theorem Inv.iget_found (h : Inv ip s) {r : Request} {inum : ℕ} {c : Slot}
    (hp : s.creators p = .iget r inum) (hc : 0 < (s.icache c).ref)
    (hi : (s.icache c).inum = inum) :
    Inv ip ((s.setInode c { s.icache c with
      ref := (s.icache c).ref + 1 }).setCreator p (.ilock r c)) := by
  have hok := h.creators p
  rw [hp] at hok
  obtain ⟨hr, htype, hwin⟩ := hok
  obtain ⟨rfl, hf⟩ := hwin c hc hi
  have hpi : allocates s (s.creators p) = some inum := by
    rw [hp]
    rfl
  have hinum : ∀ d, ((s.setInode c { s.icache c with
      ref := (s.icache c).ref + 1 }).icache d).inum = (s.icache d).inum := by
    intro d
    by_cases hd : d = c <;> simp [State.setInode, hd]
  have href : ∀ d, 0 < ((s.setInode c { s.icache c with
      ref := (s.icache c).ref + 1 }).icache d).ref → 0 < (s.icache d).ref := by
    intro d hd
    by_cases hdc : d = c
    · rw [hdc]
      exact hc
    · simpa [State.setInode, hdc] using hd
  refine h.of_creator_step (p := p) (fun q hq => setCreator_of_ne hq _) rfl
    (fun _ _ _ _ => rfl) ?_ ?_ ?_ ?_ ?_ ?_ ?_
  · intro q hq r' d hqe
    have hdc : d ≠ c := by
      rintro rfl
      have hqi := allocates_of_entry (s := s) hqe
      rw [hi] at hqi
      exact hq (h.distinct q p inum hqi hpi)
    simp [State.setInode, State.setCreator, hdc]
  · intro q hq r' j hqj d hd hdj
    have hqok := h.creators q
    rw [hqj] at hqok
    exact hqok.2.2 d (href d hd) ((hinum d).symm.trans hdj)
  · intro q hq j hj hqj
    rw [setCreator_self] at hj
    have hji : j = inum := by
      rw [← hi]
      simpa [allocates, CreatorPc.entry, State.setInode,
        State.setCreator] using hj.symm
    rw [hji] at hqj
    exact hq (h.distinct q p inum hqj hpi)
  · intro d e hd he hde
    exact h.unique d e (href d hd) (href e he)
      ((hinum d).symm.trans (hde.trans (hinum e)))
  · intro d hd
    have := h.allocated d (href d hd)
    rw [show (((s.setInode c { s.icache c with
      ref := (s.icache c).ref + 1 }).setCreator p (.ilock r c)).icache d).inum =
        (s.icache d).inum from hinum d]
    exact this
  · have hfreed := h.freer
    unfold FreerOk at hfreed ⊢
    rw [hf] at hfreed
    simp only [State.setCreator, State.setInode, hf, if_true]
    refine ⟨Nat.succ_pos _, hfreed.2.1, hfreed.2.2.1, Or.inr ⟨p, r, ?_⟩⟩
    rw [if_pos rfl]
    rfl
  · rw [setCreator_self]
    refine ⟨⟨hr, ?_, ?_⟩, Or.inr ⟨rfl, hf⟩, fun _ _ => ⟨hf, ?_⟩⟩
    · simp [State.setCreator, State.setInode]
    · simpa [State.setCreator, State.setInode, hi] using htype
    · simpa [State.setCreator, State.setInode] using Nat.succ_le_of_lt hc

/-- `iget` recycles an entry without references for a marked inode. -/
theorem Inv.iget_recycled (h : Inv ip s) {r : Request} {inum : ℕ} {c : Slot}
    (hp : s.creators p = .iget r inum) (hc : (s.icache c).ref = 0)
    (hno : ∀ d, 0 < (s.icache d).ref → (s.icache d).inum ≠ inum) :
    Inv ip ((s.setInode c { s.icache c with
      inum := inum, ref := 1, valid := false }).setCreator p (.ilock r c)) := by
  have hok := h.creators p
  rw [hp] at hok
  obtain ⟨hr, htype, -⟩ := hok
  have hpi : allocates s (s.creators p) = some inum := by
    rw [hp]
    rfl
  have hfreed : s.freer ≠ .done → ip ≠ c := by
    rintro hf rfl
    have := h.freer.ref_pos hf
    omega
  have hother : ∀ d, d ≠ c → ((s.setInode c { s.icache c with
      inum := inum, ref := 1, valid := false }).icache d) = s.icache d := by
    intro d hd
    simp [State.setInode, hd]
  have hself : ((s.setInode c { s.icache c with
      inum := inum, ref := 1, valid := false }).icache c) =
        { s.icache c with inum := inum, ref := 1, valid := false } := by
    simp [State.setInode]
  refine h.of_creator_step (p := p) (fun q hq => setCreator_of_ne hq _) rfl
    (fun _ _ _ _ => rfl) ?_ ?_ ?_ ?_ ?_ ?_ ?_
  · intro q hq r' d hqe
    apply hother
    rintro rfl
    have := ((h.creators q).holds hqe).2.1
    omega
  · intro q hq r' j hqj d hd hdj
    have hqok := h.creators q
    rw [hqj] at hqok
    by_cases hdc : d = c
    · subst hdc
      exfalso
      have hj : inum = j := by
        rw [← hdj]
        exact (congrArg Inode.inum hself).symm
      have hqi : allocates s (s.creators q) = some j := by
        rw [hqj]
        rfl
      exact hq (h.distinct q p inum (hj ▸ hqi) hpi)
    · rw [show ((s.setInode c _).setCreator p _).icache d = _ from
        hother d hdc] at hd hdj
      exact hqok.2.2 d hd hdj
  · intro q hq j hj hqj
    rw [setCreator_self] at hj
    have hji : j = inum := by
      simpa [allocates, CreatorPc.entry, State.setInode,
        State.setCreator] using hj.symm
    rw [hji] at hqj
    exact hq (h.distinct q p inum hqj hpi)
  · intro d e hd he hde
    by_cases hdc : d = c
    · by_cases hec : e = c
      · rw [hdc, hec]
      · rw [hdc] at hde
        rw [show ((s.setInode c _).setCreator p _).icache e = _ from
          hother e hec] at he hde
        rw [show ((s.setInode c _).setCreator p _).icache c = _ from
          hself] at hde
        exact absurd hde.symm (hno e he)
    · rw [show ((s.setInode c _).setCreator p _).icache d = _ from
        hother d hdc] at hd hde
      by_cases hec : e = c
      · rw [hec, show ((s.setInode c _).setCreator p _).icache c = _ from
          hself] at hde
        exact absurd hde (hno d hd)
      · rw [show ((s.setInode c _).setCreator p _).icache e = _ from
          hother e hec] at he hde
        exact h.unique d e hd he hde
  · intro d hd
    by_cases hdc : d = c
    · right
      rw [hdc, show ((s.setInode c _).setCreator p _).icache c = _ from hself]
      change (s.disk inum).type ≠ 0
      rw [htype]
      exact hr
    · rw [show ((s.setInode c _).setCreator p _).icache d = _ from
        hother d hdc] at hd ⊢
      exact h.allocated d hd
  · by_cases hf : s.freer = .done
    · unfold FreerOk
      simp only [State.setCreator, State.setInode, hf]
    · rw [show ((s.setInode c _).setCreator p _).icache ip = _ from
        hother ip (hfreed hf)]
      refine h.freer.frame rfl rfl rfl rfl fun q r' hq => ?_
      rw [setCreator_of_ne]
      · exact hq
      · rintro rfl
        rw [hp] at hq
        cases hq
  · rw [setCreator_self]
    have hentry : ((s.setInode c { s.icache c with
        inum := inum, ref := 1, valid := false }).setCreator p
          (.ilock r c)).icache c = _ := hself
    refine ⟨⟨hr, ?_, ?_⟩, Or.inl ?_, ?_⟩
    · rw [hentry]
      exact Nat.one_pos
    · rw [hentry]
      exact htype
    · rw [hentry]
    · rintro rfl hf
      exact absurd rfl (hfreed hf)

/-- A creator changes the contents of its own entry, or gives it up. -/
theorem Inv.own_entry (h : Inv ip s) {r : Request} {c : Slot} {v : Inode}
    {pc : CreatorPc} (hp : (s.creators p).entry = some (r, c))
    (hinum : v.inum = (s.icache c).inum) (href : v.ref = (s.icache c).ref)
    (hpc : pc.entry = some (r, c) ∨ pc = .idle)
    (hfreed : c = ip → s.freer ≠ .done → pc.entry = some (r, c) ∧
      v.valid = (s.icache c).valid ∧ v.din.type = (s.icache c).din.type)
    (hok : PcOk ip ((s.setInode c v).setCreator p pc) pc) :
    Inv ip ((s.setInode c v).setCreator p pc) := by
  have hother : ∀ d, d ≠ c → (s.setInode c v).icache d = s.icache d := by
    intro d hd
    simp [State.setInode, hd]
  have hself : (s.setInode c v).icache c = v := by
    simp [State.setInode]
  have hinums : ∀ d, ((s.setInode c v).icache d).inum = (s.icache d).inum := by
    intro d
    by_cases hd : d = c
    · rw [hd, hself, hinum]
    · rw [hother d hd]
  have hrefs : ∀ d, ((s.setInode c v).icache d).ref = (s.icache d).ref := by
    intro d
    by_cases hd : d = c
    · rw [hd, hself, href]
    · rw [hother d hd]
  refine h.of_creator_step (p := p) (fun q hq => setCreator_of_ne hq _) rfl
    (fun _ _ _ _ => rfl) ?_ ?_ ?_ ?_ ?_ ?_ ?_
  · intro q hq r' d hqe
    exact hother d (h.entry_ne hp hqe hq)
  · intro q hq r' j hqj d hd hdj
    have hqok := h.creators q
    rw [hqj] at hqok
    exact hqok.2.2 d ((hrefs d) ▸ hd) ((hinums d) ▸ hdj)
  · intro q hq j hj hqj
    rw [setCreator_self] at hj
    rcases hpc with hpc | rfl
    · rw [allocates_of_entry hpc] at hj
      have hpj : allocates s (s.creators p) = some j := by
        rw [allocates_of_entry hp, ← hj]
        exact congrArg some (hinums c).symm
      exact hq (h.distinct q p j hqj hpj)
    · cases hj
  · intro d e hd he hde
    exact h.unique d e ((hrefs d) ▸ hd) ((hrefs e) ▸ he)
      ((hinums d) ▸ (hinums e) ▸ hde)
  · intro d hd
    have hd' := h.allocated d ((hrefs d) ▸ hd)
    rw [show ((((s.setInode c v).setCreator p pc).icache d).inum) =
      (s.icache d).inum from hinums d]
    exact hd'
  · by_cases hf : s.freer = .done
    · unfold FreerOk
      simp only [State.setCreator, State.setInode, hf]
    · have hholder : ∀ q r', (s.creators q).entry = some (r', ip) →
          (((s.setInode c v).setCreator p pc).creators q).entry =
            some (r', ip) := by
        intro q r' hq
        by_cases hqp : q = p
        · subst hqp
          rw [hp] at hq
          cases hq
          rw [setCreator_self]
          exact (hfreed rfl hf).1
        · rw [setCreator_of_ne hqp]
          exact hq
      by_cases hci : c = ip
      · subst hci
        obtain ⟨-, hv, ht⟩ := hfreed rfl hf
        rw [show ((s.setInode c v).setCreator p pc).icache c = v from hself]
        exact h.freer.frame rfl href hv ht hholder
      · rw [show ((s.setInode c v).setCreator p pc).icache ip = _ from
          hother ip (Ne.symm hci)]
        exact h.freer.frame rfl rfl rfl rfl hholder
  · rw [setCreator_self]
    exact hok

/-- `iupdate` by a creator writes an inode of the type that the disk already
has for it. -/
theorem Inv.write_back (h : Inv ip s) {r : Request} {c : Slot}
    (hp : s.creators p = .update r c) :
    Inv ip ((s.setDisk (s.icache c).inum (s.icache c).din).setCreator p
      (.returned r c)) := by
  have hok := h.creators p
  rw [hp] at hok
  obtain ⟨⟨hr, href, htype⟩, hread, hfreed⟩ := hok
  have hdisk : ∀ i, (((s.setDisk (s.icache c).inum
      (s.icache c).din).setCreator p (.returned r c)).disk i).type =
        (s.disk i).type := by
    intro i
    by_cases hi : i = (s.icache c).inum
    · subst hi
      simp only [State.setDisk, State.setCreator, if_true]
      rw [hread.2, htype]
    · simp [State.setDisk, State.setCreator, hi]
  refine h.of_creator_step (p := p) (fun q hq => setCreator_of_ne hq _) rfl
    (fun _ _ i _ => hdisk i) (fun _ _ _ _ _ => rfl) ?_ ?_ h.unique ?_ ?_ ?_
  · intro q _ r' j hqj d hd hdj
    have hqok := h.creators q
    rw [hqj] at hqok
    exact hqok.2.2 d hd hdj
  · intro q hq j hj hqj
    rw [setCreator_self] at hj
    have hpj : allocates s (s.creators p) = some j := by
      rw [hp]
      exact hj
    exact hq (h.distinct q p j hqj hpj)
  · intro d hd
    rw [hdisk]
    exact h.allocated d hd
  · refine h.freer.frame rfl rfl rfl rfl fun q r' hq => ?_
    by_cases hqp : q = p
    · subst hqp
      rw [hp] at hq
      rw [setCreator_self]
      exact hq
    · rw [setCreator_of_ne hqp]
      exact hq
  · rw [setCreator_self]
    exact ⟨⟨hr, href, (hdisk _).trans htype⟩, hread, hfreed⟩

omit [DecidableEq P] in
/-- What `iget` can return. -/
theorem iget_some {inum : ℕ} {c : Slot} {node : Inode}
    (hg : iget s inum = some (c, node)) :
    (0 < (s.icache c).ref ∧ (s.icache c).inum = inum ∧
        node = { s.icache c with ref := (s.icache c).ref + 1 }) ∨
      ((s.icache c).ref = 0 ∧
        (∀ d, 0 < (s.icache d).ref → (s.icache d).inum ≠ inum) ∧
        node = { s.icache c with inum := inum, ref := 1, valid := false }) := by
  unfold iget at hg
  split at hg
  next d hfind =>
    cases hg
    have hd := List.find?_some hfind
    rw [decide_eq_true_eq] at hd
    exact Or.inl ⟨hd.1, hd.2, rfl⟩
  next hnone =>
    split at hg
    next d hfind =>
      cases hg
      have hd := List.find?_some hfind
      rw [decide_eq_true_eq] at hd
      refine Or.inr ⟨hd, ?_, rfl⟩
      intro e he hi
      have := List.find?_eq_none.mp hnone e (List.mem_finRange e)
      exact this (decide_eq_true ⟨he, hi⟩)
    next => cases hg

omit [DecidableEq P] in
/-- Every step outside the window of a test keeps the invariant: the freeing
process. -/
theorem Inv.freerStep (h : Inv ip s) {t : State P}
    (hstep : freerStep ip s = .next t) : Inv ip t := by
  have hfreed := h.freer
  unfold FreerOk at hfreed
  unfold InodeReuse.freerStep at hstep
  cases hf : s.freer with
  | test =>
      rw [hf] at hfreed
      simp only [hf] at hstep
      split at hstep
      next hcond =>
        cases hstep
        refine h.of_freer_step (by simp [hf]) (by simp [hf]) rfl
          (fun _ _ => rfl) rfl (le_refl _) (fun _ _ => rfl) (Or.inr ?_) ?_
        · rcases h.allocated ip hfreed.1 with ⟨-, hw⟩ | ht
          · rw [hf] at hw
            cases hw
          · exact ht
        · exact ⟨hcond.1, hcond.2.1, hfreed.2 hcond.2.1⟩
      next =>
        cases hstep
        refine h.of_freer_step (by simp [hf]) (by simp [hf]) rfl ?_ ?_ ?_
          (fun _ _ => rfl) (Or.inr ?_) trivial
        · intro c hc
          simp [State.setInode, hc]
        · simp [State.setInode]
        · simp [State.setInode]
        · rcases h.allocated ip hfreed.1 with ⟨-, hw⟩ | ht
          · rw [hf] at hw
            cases hw
          · exact ht
  | trunc =>
      rw [hf] at hfreed
      simp only [hf] at hstep
      cases hstep
      refine h.of_freer_step (by simp [hf]) (by simp [hf]) rfl ?_ ?_ ?_
        (fun _ _ => rfl) (Or.inr ?_) ?_
      · intro c hc
        simp [State.setInode, hc]
      · simp [State.setInode]
      · simp [State.setInode]
      · rcases h.allocated ip (by omega) with ⟨-, hw⟩ | ht
        · rw [hf] at hw
          cases hw
        · exact ht
      · simp only [FreerOk, State.setInode, if_true]
        exact hfreed
  | truncUpdate =>
      rw [hf] at hfreed
      simp only [hf] at hstep
      cases hstep
      refine h.of_freer_step (by simp [hf]) (by simp [hf]) rfl
        (fun _ _ => rfl) rfl (le_refl _) ?_ (Or.inr ?_) hfreed
      · intro i hi
        simp [State.setDisk, hi]
      · simpa [State.setDisk] using hfreed.2.2
  | clearType =>
      rw [hf] at hfreed
      simp only [hf] at hstep
      cases hstep
      refine h.of_freer_step (by simp [hf]) (by simp [hf]) rfl ?_ ?_ ?_
        (fun _ _ => rfl) (Or.inr ?_) ?_
      · intro c hc
        simp [State.setInode, hc]
      · simp [State.setInode]
      · simp [State.setInode]
      · rcases h.allocated ip (by omega) with ⟨-, hw⟩ | ht
        · rw [hf] at hw
          cases hw
        · exact ht
      · simp only [FreerOk, State.setInode, if_true]
        exact ⟨hfreed.1, hfreed.2.1, trivial⟩
  | update =>
      rw [hf] at hfreed
      simp only [hf] at hstep
      cases hstep
      refine h.of_freer_step (by simp [hf]) (by simp [hf]) rfl
        (fun _ _ => rfl) rfl (le_refl _) ?_ (Or.inl rfl) ?_
      · intro i hi
        simp [State.setDisk, hi]
      · obtain ⟨href, hvalid, htype⟩ := hfreed
        exact ⟨by simp only [State.setDisk]; omega, hvalid, htype,
          Or.inl href⟩
  | invalidate =>
      simp only [hf] at hstep
      cases hstep
      exact h.invalidate hf
  | done =>
      simp only [hf] at hstep
      cases hstep

/-- The same for a creating process. -/
theorem Inv.creatorStep {ninodes : ℕ} (h : Inv ip s) {t : State P}
    (hno : ¬ TestsInWindow ip s (.creator p))
    (hstep : creatorStep ninodes s p = .next t) : Inv ip t := by
  have hok := h.creators p
  unfold InodeReuse.creatorStep at hstep
  cases hp : s.creators p with
  | idle =>
      simp only [hp] at hstep
      cases hstep
  | scan r inum =>
      rw [hp] at hok
      simp only [hp] at hstep
      split at hstep
      · split at hstep
        next hfree =>
          cases hstep
          exact h.mark hp hfree
        next =>
          cases hstep
          exact h.move (by rw [hp]; rfl) hok fun i hi => by cases hi
      · cases hstep
  | iget r inum =>
      simp only [hp] at hstep
      split at hstep
      next c node hg =>
        cases hstep
        rcases iget_some hg with ⟨hc, hi, rfl⟩ | ⟨hc, hnone, rfl⟩
        · exact h.iget_found hp hc hi
        · exact h.iget_recycled hp hc hnone
      next => cases hstep
  | ilock r c =>
      rw [hp] at hok
      simp only [hp] at hstep
      split at hstep
      · cases hstep
      · split at hstep
        · cases hstep
        · cases hstep
          refine h.own_entry (by rw [hp]; rfl) rfl rfl (Or.inl rfl)
            (fun _ _ => ⟨rfl, rfl, rfl⟩) ?_
          obtain ⟨⟨hr, href, htype⟩, hunread, hfreed⟩ := hok
          refine ⟨⟨hr, ?_, ?_⟩, ?_, ?_⟩
          · simpa [State.setInode, State.setCreator] using href
          · simpa [State.setInode, State.setDisk, State.setCreator] using htype
          · simpa [State.setInode, State.setCreator, Window] using hunread
          · rintro rfl
            simpa [State.setInode, State.setCreator] using hfreed rfl
  | ilockRead r c =>
      rw [hp] at hok
      obtain ⟨⟨hr, href, htype⟩, hunread, hfreed⟩ := hok
      -- The test does not fall into the window, so the entry is not valid.
      have hout : ¬ Window ip c s := by
        rintro ⟨rfl, hw⟩
        exact hno ⟨p, r, rfl, hp, hw⟩
      have hvalid := hunread.resolve_right hout
      have hdone : c = ip → s.freer = .done := by
        rintro rfl
        by_contra hf
        exact hout ⟨rfl, (hfreed rfl hf).1⟩
      simp only [hp, hvalid, Bool.false_eq_true, if_false] at hstep
      split at hstep
      · cases hstep
      · cases hstep
        refine h.own_entry (by rw [hp]; rfl) rfl rfl (Or.inl rfl)
          (fun heq hf => absurd (hdone heq) hf) ?_
        refine ⟨⟨hr, ?_, ?_⟩, ?_, hdone⟩
        · simpa [State.setInode, State.setCreator] using href
        · simpa [State.setInode, State.setCreator] using htype
        · simpa [State.setInode, State.setCreator] using htype
  | fields r c =>
      rw [hp] at hok
      simp only [hp] at hstep
      cases hstep
      obtain ⟨⟨hr, href, htype⟩, hread, hdone⟩ := hok
      refine h.own_entry (by rw [hp]; rfl) rfl rfl (Or.inl rfl)
        (fun heq hf => absurd (hdone heq) hf) ?_
      refine ⟨⟨hr, ?_, ?_⟩, ?_, hdone⟩
      · simpa [State.setInode, State.setCreator] using href
      · simpa [State.setInode, State.setCreator] using htype
      · simpa [State.setInode, State.setCreator] using hread
  | update r c =>
      simp only [hp] at hstep
      cases hstep
      exact h.write_back hp
  | returned r c =>
      simp only [hp] at hstep
      cases hstep

theorem Inv.step {ninodes : ℕ} (h : Inv ip s) {a : Act P} {t : State P}
    (hno : ¬ TestsInWindow ip s a)
    (hstep : step ninodes ip s a = .next t) : Inv ip t := by
  cases a with
  | freer => exact h.freerStep hstep
  | creator p => exact h.creatorStep hno hstep
  | call p r =>
      simp only [InodeReuse.step] at hstep
      split at hstep
      next hp =>
        split at hstep
        · cases hstep
        next hr =>
          cases hstep
          exact h.move (by rw [hp]; rfl) hr fun i hi => by cases hi
      · cases hstep
  | unlock p =>
      simp only [InodeReuse.step] at hstep
      split at hstep
      next r c hp =>
        split at hstep
        · cases hstep
        · cases hstep
          have hok := h.creators p
          rw [hp] at hok
          exact h.own_entry (by rw [hp]; rfl) rfl rfl (Or.inr rfl)
            (fun heq hf => absurd (hok.2.2 heq) hf) trivial
      · cases hstep

end CreatorSteps

section Main

variable {P : Type*} [DecidableEq P] {ip : Slot} {s : State P}

omit [DecidableEq P] in
theorem Inv.served (h : Inv ip s) : Served s := by
  intro p
  have hok := h.creators p
  unfold CreatorServed
  cases hp : s.creators p with
  | fields r c | update r c =>
      rw [hp] at hok
      exact hok.2.1
  | returned r c =>
      rw [hp] at hok
      exact ⟨hok.2.1, hok.1.2.2⟩
  | _ => trivial

/-- A test in the window gives the creator an inode of type zero. -/
theorem Inv.not_served_of_test (ninodes : ℕ) (h : Inv ip s) {a : Act P}
    (ha : TestsInWindow ip s a) :
    ∃ t, InodeReuse.step ninodes ip s a = .next t ∧ ¬ Served t := by
  obtain ⟨p, r, rfl, hp, hf⟩ := ha
  have hok := h.creators p
  have hfreed := h.freer
  rw [hp] at hok
  rw [FreerOk, hf] at hfreed
  refine ⟨s.setCreator p (.fields r ip), ?_, ?_⟩
  · simp only [InodeReuse.step, InodeReuse.creatorStep, hp, hfreed.2.1,
      if_true]
  · intro hserved
    have hsp := hserved p
    rw [CreatorServed, setCreator_self] at hsp
    exact hok.1.1 (hsp.2.symm.trans hfreed.2.2.1)

/-- The state before the freeing process enters `iput`: no two entries cache
one inode, every cached inode is allocated, and no process is in `create`. -/
structure Init (ip : Slot) (s : State P) : Prop where
  unique : ∀ c d, 0 < (s.icache c).ref → 0 < (s.icache d).ref →
    (s.icache c).inum = (s.icache d).inum → c = d
  allocated : ∀ c, 0 < (s.icache c).ref →
    (s.disk (s.icache c).inum).type ≠ 0
  freer : s.freer = .test
  held : 0 < (s.icache ip).ref
  typed : (s.icache ip).valid = true → (s.icache ip).din.type ≠ 0
  creators : ∀ p, s.creators p = .idle

omit [DecidableEq P] in
theorem Init.inv (h : Init ip s) : Inv ip s where
  unique := h.unique
  allocated := fun c hc => Or.inr (h.allocated c hc)
  freer := by
    unfold FreerOk
    rw [h.freer]
    exact ⟨h.held, h.typed⟩
  creators := fun p => by
    rw [h.creators p]
    trivial
  distinct := by
    intro p q i hp
    rw [h.creators p] at hp
    cases hp

/-- Along every schedule, the inodes that `create` obtains have their requested
types and stay valid in every state reached exactly when no creator tests
`I_VALID` of the freed entry between the `iupdate` that frees it on disk and
the end of `iput`. -/
theorem served_iff_no_test_in_window (ninodes : ℕ) (h : Init ip s)
    (w : List (Act P)) :
    Meets (step ninodes ip)
        (fun s a => ∀ t, step ninodes ip s a = .next t → Served t) s w ↔
      Meets (step ninodes ip) (fun s a => ¬ TestsInWindow ip s a) s w := by
  refine (Meets.iff_of_invariant (fun s a t hI hC => hI.step hC) ?_ h.inv w).symm
  intro s a hI
  constructor
  · intro hno t ht
    exact (hI.step hno ht).served
  · intro hserved ha
    obtain ⟨t, ht, hbad⟩ := hI.not_served_of_test ninodes ha
    exact hbad (hserved t ht)

end Main

/-! ## The window is reached -/

/-- Inode 2 is cached in entry 0, has no links left, and is referenced only by
the process about to call `iput`. -/
def lastReference : State Unit where
  icache := fun c =>
    { inum := if c = 0 then 2 else 0, ref := if c = 0 then 1 else 0,
      locked := false, valid := decide (c = 0),
      din := { Dinode.zero with type := T_FILE } }
  disk := fun i =>
    if i = 1 then { Dinode.zero with type := T_DIR, nlink := 1 }
    else if i = 2 then { Dinode.zero with type := T_FILE }
    else Dinode.zero
  freer := .test
  creators := fun _ => .idle

theorem init_lastReference : Init 0 lastReference where
  unique := by
    intro c d hc hd _
    have href : ∀ c, 0 < (lastReference.icache c).ref → c = 0 := by
      intro c hc
      by_contra hne
      simp [lastReference, hne] at hc
    rw [href c hc, href d hd]
  allocated := by
    intro c hc
    have hzero : c = 0 := by
      by_contra hne
      simp [lastReference, hne] at hc
    rw [hzero]
    decide
  freer := rfl
  held := by decide
  typed := by decide
  creators := fun _ => rfl

/-- A directory is requested while the file is being freed. -/
def directory : Request := { type := T_DIR, major := 0, minor := 0 }

/-- `iput` up to the `iupdate` that frees the inode, then a `create` up to its
test of `I_VALID`. -/
def racySchedule : List (Act Unit) :=
  [.freer, .freer, .freer, .freer, .freer, .call () directory, .creator (),
    .creator (), .creator (), .creator ()]

theorem served_iff_no_test_lastReference :
    Meets (step 200 0)
        (fun s a => ∀ t, step 200 0 s a = .next t → Served t) lastReference
        (racySchedule ++ [.creator ()]) ↔
      Meets (step 200 0) (fun s a => ¬ TestsInWindow 0 s a) lastReference
        (racySchedule ++ [.creator ()]) :=
  served_iff_no_test_in_window 200 init_lastReference _

theorem create_not_always_served :
    ¬ ∀ (s : State Unit) (w : List (Act Unit)), Init 0 s →
      Meets (step 200 0)
        (fun s a => ∀ t, step 200 0 s a = .next t → Served t) s w := by
  intro h
  have hmeets := h lastReference (racySchedule ++ [.creator ()])
    init_lastReference
  have hserved := hmeets.at_prefix
    (.cons rfl (.cons rfl (.cons rfl (.cons rfl (.cons rfl (.cons rfl
      (.cons rfl (.cons rfl (.cons rfl (.cons rfl (.nil _))))))))))) _ rfl ()
  exact absurd hserved.2 (by decide)

end ZtlOs.Fs.InodeReuse
