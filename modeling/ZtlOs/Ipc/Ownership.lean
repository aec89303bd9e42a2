import Mathlib.Algebra.BigOperators.Group.Finset.Piecewise
import ZtlOs.Ipc.Descriptors

/-!
# Who owns a file

A call passes references to files from hand to hand: `filealloc` gives one to
its caller, `fdalloc` puts it into a descriptor, and `fileclose` takes it back.
The accounts below count the references of the call in progress next to those
of the descriptors, and compare the ends of pipes and the open inodes with the
trace.
-/

namespace ZtlOs.Descriptors

open ZtlOs.Support ZtlOs.Fs ZtlOs.Kernel ZtlOs.Pipes

variable {P Page I : Type}

namespace File

/-- The read end of a pipe, or its write end. -/
def IsEnd (v : File Page I) (page : Page) (writable : Bool) : Prop :=
  v.type = .pipe ∧ v.pipe = some page ∧ v.writable = writable

/-- The file of an opened inode. -/
def IsOn (v : File Page I) (ip : I) : Prop :=
  v.type = .inode ∧ v.ip = some ip

/-- The fields that the type of the file asks for are set. -/
def Complete (v : File Page I) : Prop :=
  (v.type = .pipe → v.pipe.isSome) ∧ (v.type = .inode → v.ip.isSome)

instance [DecidableEq Page] (v : File Page I) (page : Page) (w : Bool) :
    Decidable (v.IsEnd page w) :=
  inferInstanceAs (Decidable (_ ∧ _ ∧ _))

instance [DecidableEq I] (v : File Page I) (ip : I) : Decidable (v.IsOn ip) :=
  inferInstanceAs (Decidable (_ ∧ _))

end File

/-- Whether `pipeclose` has yet to be called for one end of a pipe. -/
def isOpen (pipe : Pipe) (writable : Bool) : Bool :=
  if writable then pipe.writeopen else pipe.readopen

namespace State

@[simp] theorem ftable_setFile_self (s : State P Page I) (f : FileSlot)
    (v : File Page I) : (s.setFile f v).ftable f = v :=
  Function.update_self ..

@[simp] theorem ftable_emit (s : State P Page I) (e : Event Page I) :
    (s.emit e).ftable = s.ftable :=
  rfl

@[simp] theorem ftable_setFile_of_ne (s : State P Page I) {f g : FileSlot}
    (h : g ≠ f) (v : File Page I) :
    (s.setFile f v).ftable g = s.ftable g :=
  Function.update_of_ne h ..

variable [DecidableEq Page] [DecidableEq I]

/-- The files that are one end of the pipe on a page. -/
def ends (s : State P Page I) (page : Page) (w : Bool) : ℕ :=
  ∑ f, if (s.ftable f).IsEnd page w then 1 else 0

/-- The open files of an inode. -/
def openOn (s : State P Page I) (ip : I) : ℕ :=
  ∑ f, if (s.ftable f).IsOn ip then 1 else 0

variable {s : State P Page I} {f : FileSlot} {v : File Page I}

omit [DecidableEq I] in
theorem ends_setFile (s : State P Page I) (f : FileSlot) (v : File Page I)
    (page : Page) (w : Bool) :
    (s.setFile f v).ends page w +
        (if (s.ftable f).IsEnd page w then 1 else 0) =
      s.ends page w + if v.IsEnd page w then 1 else 0 :=
  sum_update s.ftable f v fun v => if v.IsEnd page w then 1 else 0

omit [DecidableEq Page] in
theorem openOn_setFile (s : State P Page I) (f : FileSlot) (v : File Page I)
    (ip : I) :
    (s.setFile f v).openOn ip + (if (s.ftable f).IsOn ip then 1 else 0) =
      s.openOn ip + if v.IsOn ip then 1 else 0 :=
  sum_update s.ftable f v fun v => if v.IsOn ip then 1 else 0

omit [DecidableEq I] in
theorem ends_eq_card (s : State P Page I) (page : Page) (w : Bool) :
    s.ends page w =
      (Finset.univ.filter fun f => (s.ftable f).IsEnd page w).card :=
  (Finset.card_filter ..).symm

omit [DecidableEq I] in
theorem ends_pos_iff {page : Page} {w : Bool} :
    0 < s.ends page w ↔ ∃ f, (s.ftable f).IsEnd page w := by
  rw [ends_eq_card, Finset.card_pos]
  simp [Finset.Nonempty]

omit [DecidableEq I] in
/-- Two files that are the same end of a pipe would be counted twice. -/
theorem eq_of_ends_le_one {page : Page} {w : Bool} {g : FileSlot}
    (hle : s.ends page w ≤ 1) (hf : (s.ftable f).IsEnd page w)
    (hg : (s.ftable g).IsEnd page w) : f = g := by
  rw [ends_eq_card, Finset.card_le_one] at hle
  apply hle
  · simpa using hf
  · simpa using hg

end State

/-! ## The trace -/

/-- The pipe on a page has been allocated and not yet freed. -/
def Taken [DecidableEq Page] [DecidableEq I] (tr : List (Event Page I))
    (page : Page) : Prop :=
  tr.count (.kfree page) < tr.count (.kalloc page)

/-- Every event of a trace happens when it may: a file is handed out while no
descriptor points to it, an end of a pipe is closed and an inode is put no more
often than it was opened, and the page of a pipe is freed once, with both ends
closed, and used only before that. -/
def Proper [DecidableEq Page] [DecidableEq I] : List (Event Page I) → Prop
  | [] => True
  | e :: tr =>
      (match e with
      | .kalloc page => ¬Taken tr page
      | .kfree page =>
          Taken tr page ∧
            ∀ w, tr.count (.pipeclose page w) = tr.count (.kalloc page)
      | .pipeclose page w =>
          tr.count (.pipeclose page w) < tr.count (.kalloc page)
      | .opened _ => True
      | .iput ip => tr.count (.iput ip) < tr.count (.opened ip)
      | .filealloc _ n => n = 0
      | .piperead page | .pipewrite page => Taken tr page) ∧ Proper tr

/-- A trace agrees with the ends `ends` and the open inodes `on` that are
left, and with the pipes. -/
structure Balanced [DecidableEq Page] [DecidableEq I]
    (tr : List (Event Page I)) (pipe : Page → Pipe)
    (ends : Page → Bool → ℕ) (on : I → ℕ) : Prop where
  le_one : ∀ page w, ends page w ≤ 1
  closed : ∀ page w,
    tr.count (.kalloc page) = tr.count (.pipeclose page w) + ends page w
  freed : ∀ page,
    tr.count (.kalloc page) =
      tr.count (.kfree page) + max (ends page false) (ends page true)
  isOpen : ∀ page w, 0 < max (ends page false) (ends page true) →
    (isOpen (pipe page) w = true ↔ ends page w = 1)
  iput : ∀ ip, tr.count (.opened ip) = tr.count (.iput ip) + on ip
  proper : Proper tr

/-- The event takes and gives back nothing. -/
def Event.Quiet : Event Page I → Prop
  | .filealloc _ _ | .piperead _ | .pipewrite _ => True
  | _ => False

namespace Balanced

variable [DecidableEq Page] [DecidableEq I] {tr : List (Event Page I)}
variable {pipe pipe' : Page → Pipe} {ends ends' : Page → Bool → ℕ}
variable {on : I → ℕ} {page : Page} {ip : I} {e : Event Page I}

theorem quiet (h : Balanced tr pipe ends on) (he : e.Quiet)
    (hproper : Proper (e :: tr)) : Balanced (e :: tr) pipe ends on where
  le_one := h.le_one
  closed page w := by
    cases e <;> simp [h.closed page w, Event.Quiet] at he ⊢
  freed page := by
    cases e <;> simp [h.freed page, Event.Quiet] at he ⊢
  isOpen := h.isOpen
  iput ip := by
    cases e <;> simp [h.iput ip, Event.Quiet] at he ⊢
  proper := hproper

theorem congr {on' : I → ℕ} (h : Balanced tr pipe ends on)
    (hends : ∀ page w, ends' page w = ends page w)
    (hon : ∀ ip, on' ip = on ip) : Balanced tr pipe ends' on' := by
  rw [funext₂ hends, funext hon]
  exact h

/-- The page of a pipe with an open end is not free. -/
theorem taken {w : Bool} (h : Balanced tr pipe ends on)
    (hpos : 0 < ends page w) : Taken tr page := by
  have := h.freed page
  unfold Taken
  cases w with
  | false => omega
  | true => omega

/-- What else is in a pipe does not matter. -/
theorem setPipe (h : Balanced tr pipe ends on)
    (hopen : ∀ page w, Descriptors.isOpen (pipe' page) w =
      Descriptors.isOpen (pipe page) w) : Balanced tr pipe' ends on where
  le_one := h.le_one
  closed := h.closed
  freed := h.freed
  isOpen page w hpos := by
    rw [hopen]
    exact h.isOpen page w hpos
  iput := h.iput
  proper := h.proper

theorem emit_opened (h : Balanced tr pipe ends on) (ip : I) :
    Balanced (.opened ip :: tr) pipe ends (on + Pi.single ip 1) where
  le_one := h.le_one
  closed page w := by simpa using h.closed page w
  freed page := by simpa using h.freed page
  isOpen := h.isOpen
  iput jp := by
    have := h.iput jp
    by_cases hj : jp = ip
    · subst hj
      simp
      omega
    · simp [hj, Ne.symm hj]
      exact this
  proper := ⟨trivial, h.proper⟩

theorem emit_iput (h : Balanced tr pipe ends (on + Pi.single ip 1)) :
    Balanced (.iput ip :: tr) pipe ends on where
  le_one := h.le_one
  closed page w := by simpa using h.closed page w
  freed page := by simpa using h.freed page
  isOpen := h.isOpen
  iput jp := by
    have := h.iput jp
    by_cases hj : jp = ip
    · subst hj
      simp at this ⊢
      omega
    · simpa [hj, Ne.symm hj] using this
  proper := by
    have := h.iput ip
    simp only [Pi.add_apply, Pi.single_eq_same] at this
    exact ⟨by omega, h.proper⟩

/-- Both ends of a pipe on a new page are open. -/
theorem kalloc (h : Balanced tr pipe ends on) (hfree : ¬Taken tr page)
    {v : Pipe} (hv : v.readopen = true ∧ v.writeopen = true)
    (hends : ∀ page' w,
      ends' page' w = ends page' w + if page' = page then 1 else 0) :
    Balanced (.kalloc page :: tr) (Function.update pipe page v) ends' on := by
  have hzero : ∀ w, ends page w = 0 := by
    intro w
    have := h.freed page
    unfold Taken at hfree
    cases w <;> omega
  constructor
  case le_one =>
    intro page' w
    have := h.le_one page' w
    rw [hends]
    split
    · next heq => rw [heq, hzero w]
    · omega
  case closed =>
    intro page' w
    have := h.closed page' w
    rw [hends]
    by_cases heq : page' = page
    · subst heq
      simp
      omega
    · simpa [heq, Ne.symm heq] using this
  case freed =>
    intro page'
    have := h.freed page'
    simp only [hends]
    by_cases heq : page' = page
    · subst heq
      simp [hzero] at this ⊢
      omega
    · simpa [heq, Ne.symm heq] using this
  case isOpen =>
    intro page' w hpos
    by_cases heq : page' = page
    · subst heq
      rw [Function.update_self, hends, hzero, if_pos rfl]
      cases w <;> simp [Descriptors.isOpen, hv]
    · rw [hends, hends, if_neg heq] at hpos
      rw [Function.update_of_ne heq, hends, if_neg heq]
      exact h.isOpen page' w hpos
  case iput =>
    intro ip
    simpa using h.iput ip
  case proper => exact ⟨hfree, h.proper⟩

end Balanced

theorem isOpen_close (v : Pipe) (w w' : Bool) :
    isOpen (if w then { v with writeopen := false }
      else { v with readopen := false }) w' =
      (isOpen v w' && (w' != w)) := by
  cases w <;> cases w' <;> simp [isOpen]

namespace State

variable [DecidableEq Page] (s : State P Page I) (page : Page) (w : Bool)

theorem tables_pipeclose :
    (s.pipeclose page w).ftable = s.ftable ∧
      (s.pipeclose page w).ofile = s.ofile := by
  cases w <;>
    simp only [pipeclose, emit, State.setPipe, if_true, Bool.false_eq_true,
      if_false] <;>
    split <;> exact ⟨rfl, rfl⟩

theorem isOpen_pipeclose (page' : Page) (w' : Bool) :
    isOpen ((s.pipeclose page w).pipe page') w' =
      (isOpen (s.pipe page') w' && !decide (page' = page ∧ w' = w)) := by
  have hpipe : (s.pipeclose page w).pipe =
      Function.update s.pipe page
        (if w then { s.pipe page with writeopen := false }
        else { s.pipe page with readopen := false }) := by
    cases w <;>
      simp only [pipeclose, emit, State.setPipe, if_true, Bool.false_eq_true,
        if_false] <;>
      split <;> rfl
  rw [hpipe]
  by_cases heq : page' = page
  · subst heq
    rw [Function.update_self, isOpen_close]
    cases w <;> cases w' <;> simp
  · simp [heq]

theorem trace_pipeclose :
    (s.pipeclose page w).trace =
      if isOpen (s.pipe page) (!w) then .pipeclose page w :: s.trace
      else .kfree page :: .pipeclose page w :: s.trace := by
  cases w with
  | false =>
      cases hw : (s.pipe page).writeopen <;>
        simp [pipeclose, emit, State.setPipe, isOpen, hw]
  | true =>
      cases hr : (s.pipe page).readopen <;>
        simp [pipeclose, emit, State.setPipe, isOpen, hr]

end State

/-- One end of a pipe is closed, and the page is freed with the second. -/
theorem Balanced.pipeclose [DecidableEq Page] [DecidableEq I]
    {s : State P Page I} {ends ends' : Page → Bool → ℕ} {on : I → ℕ}
    {page : Page} {w : Bool} (h : Balanced s.trace s.pipe ends on)
    (hends : ∀ page' w', ends' page' w' +
      (if page' = page ∧ w' = w then 1 else 0) = ends page' w') :
    Balanced (s.pipeclose page w).trace (s.pipeclose page w).pipe ends' on := by
  have hself : ends' page w + 1 = ends page w := by simpa using hends page w
  have hother : ends' page (!w) = ends page (!w) := by
    simpa using hends page (!w)
  have hle := h.le_one page w
  have hmax : ∀ e : Bool → ℕ, max (e false) (e true) = max (e w) (e (!w)) := by
    intro e
    cases w
    · rfl
    · exact max_comm ..
  have hopen : Descriptors.isOpen (s.pipe page) (!w) = true ↔
      ends page (!w) = 1 := by
    apply h.isOpen
    rw [hmax]
    omega
  constructor
  case le_one =>
    intro page' w'
    have := h.le_one page' w'
    have := hends page' w'
    omega
  case closed =>
    intro page' w'
    have := h.closed page' w'
    have := hends page' w'
    rw [State.trace_pipeclose]
    by_cases heq : page' = page ∧ w' = w
    · obtain ⟨rfl, rfl⟩ := heq
      split <;> simp <;> omega
    · rw [if_neg heq] at this
      have hne : ¬(page = page' ∧ w = w') := by tauto
      split <;> simp [hne] <;> omega
  case freed =>
    intro page'
    have := h.freed page'
    rw [State.trace_pipeclose]
    by_cases heq : page' = page
    · subst heq
      rw [hmax] at this ⊢
      have := h.le_one page' (!w)
      split
      · next hwas =>
          have := hopen.mp hwas
          simp
          omega
      · next hnot =>
          have := mt hopen.mpr hnot
          simp
          omega
    · have hkeep : ∀ w', ends' page' w' = ends page' w' := by
        intro w'
        simpa [heq] using hends page' w'
      rw [hkeep, hkeep]
      split <;> simpa [Ne.symm heq] using this
  case isOpen =>
    intro page' w' hpos
    rw [State.isOpen_pipeclose]
    have hend := hends page' w'
    have hpos' : 0 < max (ends page' false) (ends page' true) := by
      have := hends page' false
      have := hends page' true
      omega
    by_cases heq : page' = page ∧ w' = w
    · obtain ⟨rfl, rfl⟩ := heq
      simp
      omega
    · rw [if_neg heq] at hend
      rw [decide_eq_false heq, Bool.not_false, Bool.and_true,
        show ends' page' w' = ends page' w' from hend]
      exact h.isOpen page' w' hpos'
  case iput =>
    intro ip
    rw [State.trace_pipeclose]
    split <;> simpa using h.iput ip
  case proper =>
    have hw := h.closed page w
    have hlt : s.trace.count (.pipeclose page w) <
        s.trace.count (.kalloc page) := by omega
    rw [State.trace_pipeclose]
    split
    · exact ⟨hlt, h.proper⟩
    · next hnot =>
        have hone := mt hopen.mpr hnot
        have hfreed := h.freed page
        rw [hmax] at hfreed
        have hclosed := h.closed page (!w)
        have := h.le_one page (!w)
        refine ⟨⟨?_, ?_⟩, hlt, h.proper⟩
        · simp [Taken]
          omega
        · intro w'
          obtain rfl | rfl := Bool.eq_or_eq_not w' w
          · simp
            omega
          · simp
            omega

/-! ## The accounts -/

/-- The two records differ in their reference counts or offsets only. -/
structure File.Same (v v' : File Page I) : Prop where
  type : v.type = v'.type
  writable : v.writable = v'.writable
  pipe : v.pipe = v'.pipe
  ip : v.ip = v'.ip

/-- The call in progress has `held` references to files of its own. -/
structure Tables [Fintype P] (s : State P Page I) (held : FileSlot → ℕ) :
    Prop where
  ref : ∀ f, (s.ftable f).ref = s.slots f + held f
  idle : ∀ f, (s.ftable f).ref = 0 → (s.ftable f).type = .none
  typed : ∀ f, 0 < s.slots f → (s.ftable f).type ≠ .none
  complete : ∀ f, (s.ftable f).Complete

/-- The call in progress has `held` references to files and `refs` references
to inodes of its own. -/
structure Accounts [Fintype P] [DecidableEq Page] [DecidableEq I]
    (s : State P Page I) (held : FileSlot → ℕ) (refs : I → ℕ) : Prop
    extends Tables s held where
  balanced : Balanced s.trace s.pipe s.ends (s.openOn + refs)

section Rules

variable [Fintype P] [DecidableEq P] [DecidableEq Page] [DecidableEq I]
variable {s t : State P Page I} {held held' : FileSlot → ℕ} {refs : I → ℕ}
variable {f g : FileSlot} {v : File Page I} {p : P} {fd : Fin NOFILE}

omit [DecidableEq Page] [DecidableEq I] in
theorem State.slots_setOfile (s : State P Page I) (p : P) (fd : Fin NOFILE)
    (o : Option FileSlot) (f : FileSlot) :
    (s.setOfile p fd o).slots f + (if s.ofile p fd = some f then 1 else 0) =
      s.slots f + if o = some f then 1 else 0 := by
  have hrow := sum_update (s.ofile p) fd o fun o => if o = some f then 1 else 0
  have htab : (s.setOfile p fd o).slots f +
      (∑ j, if s.ofile p j = some f then 1 else 0) = s.slots f +
      ∑ j, if Function.update (s.ofile p) fd o j = some f then 1 else 0 :=
    sum_update s.ofile p (Function.update (s.ofile p) fd o)
      fun row => ∑ fd, if row fd = some f then 1 else 0
  omega

omit [DecidableEq P] [DecidableEq Page] [DecidableEq I] in
theorem State.slots_pos_iff :
    0 < s.slots f ↔ ∃ p fd, s.ofile p fd = some f := by
  simp [State.slots, Nat.pos_iff_ne_zero]

omit [DecidableEq P] [DecidableEq Page] [DecidableEq I] in
/-- One file changes. -/
theorem Tables.setFile (h : Tables s held)
    (href : v.ref = s.slots f + held' f) (hidle : v.ref = 0 → v.type = .none)
    (htyped : 0 < s.slots f → v.type ≠ .none) (hcomplete : v.Complete)
    (hrest : ∀ g, g ≠ f → held' g = held g) :
    Tables (s.setFile f v) held' := by
  constructor
  case ref =>
    intro g
    by_cases hg : g = f
    · subst hg
      rw [State.ftable_setFile_self]
      exact href
    · rw [State.ftable_setFile_of_ne s hg, hrest g hg]
      exact h.ref g
  case idle =>
    intro g
    by_cases hg : g = f
    · subst hg
      rw [State.ftable_setFile_self]
      exact hidle
    · rw [State.ftable_setFile_of_ne s hg]
      exact h.idle g
  case typed =>
    intro g
    by_cases hg : g = f
    · subst hg
      rw [State.ftable_setFile_self]
      exact htyped
    · rw [State.ftable_setFile_of_ne s hg]
      exact h.typed g
  case complete =>
    intro g
    by_cases hg : g = f
    · subst hg
      rw [State.ftable_setFile_self]
      exact hcomplete
    · rw [State.ftable_setFile_of_ne s hg]
      exact h.complete g

omit [DecidableEq P] [DecidableEq I] [DecidableEq Page] in
theorem Tables.congr (h : Tables s held) (hf : t.ftable = s.ftable)
    (ho : t.ofile = s.ofile) : Tables t held := by
  have hslots : t.slots = s.slots := by
    funext f
    rw [State.slots, ho]
    rfl
  constructor
  case ref =>
    rw [hf, hslots]
    exact h.ref
  case idle =>
    rw [hf]
    exact h.idle
  case typed =>
    rw [hf, hslots]
    exact h.typed
  case complete =>
    rw [hf]
    exact h.complete

omit [Fintype P] [DecidableEq P] [DecidableEq Page] [DecidableEq I] in
theorem State.ofile_of_argfd {n : ℤ} (h : s.argfd p n = some (fd, f)) :
    s.ofile p fd = some f := by
  unfold State.argfd at h
  split at h
  · obtain ⟨g, hg, heq⟩ := Option.map_eq_some_iff.mp h
    cases heq
    exact hg
  · cases h

omit [DecidableEq P] [DecidableEq Page] [DecidableEq I] in
/-- `filealloc` takes a file with no references. -/
theorem State.filealloc_some (h : s.filealloc = (some f, t)) :
    (s.ftable f).ref = 0 ∧
      t = (s.setFile f { s.ftable f with ref := 1 }).emit
        (.filealloc f (s.slots f)) := by
  unfold State.filealloc at h
  split at h
  · cases h
  · next f' hfind =>
      cases h
      exact ⟨by simpa using List.find?_some hfind, rfl⟩

omit [Fintype P] [DecidableEq Page] [DecidableEq I] in
/-- `fdalloc` takes an empty descriptor. -/
theorem State.fdalloc_some (h : s.fdalloc p f = (some fd, t)) :
    s.ofile p fd = none ∧ t = s.setOfile p fd (some f) := by
  unfold State.fdalloc at h
  split at h
  · cases h
  · next fd' hfind =>
      cases h
      exact ⟨by simpa using List.find?_some hfind, rfl⟩

omit [Fintype P] [DecidableEq Page] [DecidableEq I] in
theorem State.fdalloc_none (h : s.fdalloc p f = (none, t)) : t = s := by
  unfold State.fdalloc at h
  split at h
  · cases h
    rfl
  · cases h

omit [DecidableEq P] [DecidableEq Page] [DecidableEq I] in
theorem State.filealloc_none (h : s.filealloc = (none, t)) : t = s := by
  unfold State.filealloc at h
  split at h
  · cases h
    rfl
  · cases h

namespace Accounts

/-- A reference is taken out of a descriptor. -/
theorem setOfile_none (h : Accounts s held refs)
    (ho : s.ofile p fd = some f) :
    Accounts (s.setOfile p fd none) (held + Pi.single f 1) refs := by
  have hslots : ∀ g, s.slots g =
      (s.setOfile p fd none).slots g + if f = g then 1 else 0 := by
    intro g
    simpa [ho] using (s.slots_setOfile p fd none g).symm
  refine ⟨⟨?ref, h.idle, ?typed, h.complete⟩, h.balanced⟩
  case ref =>
    intro g
    have := h.ref g
    rw [hslots] at this
    rw [Pi.add_apply, Pi.single_apply]
    simp only [eq_comm (a := g)]
    change (s.ftable g).ref = _
    omega
  case typed =>
    intro g hpos
    apply h.typed
    rw [hslots]
    omega

/-- A reference is put into a descriptor. -/
theorem setOfile_some (h : Accounts s (held + Pi.single f 1) refs)
    (ho : s.ofile p fd = none) (htype : (s.ftable f).type ≠ .none) :
    Accounts (s.setOfile p fd (some f)) held refs := by
  have hslots : ∀ g, (s.setOfile p fd (some f)).slots g =
      s.slots g + if f = g then 1 else 0 := by
    intro g
    simpa [ho] using s.slots_setOfile p fd (some f) g
  refine ⟨⟨?ref, h.idle, ?typed, h.complete⟩, h.balanced⟩
  case ref =>
    intro g
    have := h.ref g
    rw [Pi.add_apply, Pi.single_apply] at this
    simp only [eq_comm (a := g)] at this
    rw [hslots]
    change (s.ftable g).ref = _
    omega
  case typed =>
    intro g hpos
    by_cases hg : f = g
    · subst hg
      exact htype
    · rw [hslots, if_neg hg] at hpos
      exact h.typed g hpos

omit [DecidableEq P] in
/-- The reference count of a file or its offset changes. -/
theorem setFile_same (h : Accounts s held refs) (hsame : v.Same (s.ftable f))
    (href : v.ref = s.slots f + held' f) (hpos : 0 < v.ref)
    (hrest : ∀ g, g ≠ f → held' g = held g) :
    Accounts (s.setFile f v) held' refs := by
  have hend : ∀ page w, (s.setFile f v).ends page w = s.ends page w := by
    intro page w
    have := s.ends_setFile f v page w
    simp only [File.IsEnd, hsame.type, hsame.pipe, hsame.writable] at this
    exact Nat.add_right_cancel this
  have hon : ∀ ip, (s.setFile f v).openOn ip = s.openOn ip := by
    intro ip
    have := s.openOn_setFile f v ip
    simp only [File.IsOn, hsame.type, hsame.ip] at this
    exact Nat.add_right_cancel this
  refine ⟨h.toTables.setFile href ?_ ?_ ?_ hrest, ?_⟩
  · omega
  · rw [hsame.type]
    exact h.typed f
  · unfold File.Complete
    rw [hsame.type, hsame.pipe, hsame.ip]
    exact h.complete f
  · rw [show (s.setFile f v).ends = s.ends from funext₂ hend,
      show (s.setFile f v).openOn = s.openOn from funext hon]
    exact h.balanced

omit [DecidableEq P] in
theorem filedup (h : Accounts s held refs) (hpos : 0 < (s.ftable f).ref) :
    ∃ t, s.filedup f = .next t ∧ t.ofile = s.ofile ∧
      (t.ftable f).type = (s.ftable f).type ∧
      Accounts t (held + Pi.single f 1) refs := by
  refine ⟨_, if_neg (by omega), rfl, ?_, ?_⟩
  · rw [State.ftable_setFile_self]
  · refine h.setFile_same ⟨rfl, rfl, rfl, rfl⟩ ?_ (Nat.succ_pos _) ?_
    · have := h.ref f
      simp only [Pi.add_apply, Pi.single_eq_same]
      omega
    · intro g hg
      simp [hg]

omit [DecidableEq P] in
/-- The trace goes on with something that takes and gives back nothing. -/
theorem emit_quiet (h : Accounts s held refs) {e : Event Page I}
    (he : e.Quiet) (hproper : Proper (e :: s.trace)) :
    Accounts (s.emit e) held refs :=
  ⟨h.toTables.congr rfl rfl, h.balanced.quiet he hproper⟩

omit [DecidableEq P] in
theorem emit_opened (h : Accounts s held refs) (ip : I) :
    Accounts (s.emit (.opened ip)) held (refs + Pi.single ip 1) := by
  refine ⟨h.toTables.congr rfl rfl, ?_⟩
  rw [← add_assoc]
  exact h.balanced.emit_opened ip

omit [DecidableEq P] in
theorem emit_iput {ip : I} (h : Accounts s held (refs + Pi.single ip 1)) :
    Accounts (s.emit (.iput ip)) held refs := by
  refine ⟨h.toTables.congr rfl rfl, ?_⟩
  apply Balanced.emit_iput
  rw [add_assoc]
  exact h.balanced

omit [DecidableEq P] in
/-- `filealloc` hands out a file that nothing points to. -/
theorem filealloc (h : Accounts s held refs)
    (hf : s.filealloc = (some f, t)) :
    Accounts t (held + Pi.single f 1) refs ∧
      (t.ftable f).type = .none ∧ (t.ftable f).ref = 1 := by
  obtain ⟨hzero, rfl⟩ := State.filealloc_some hf
  have href := h.ref f
  refine ⟨?_, ?_, ?_⟩
  · apply emit_quiet
    · refine h.setFile_same ⟨rfl, rfl, rfl, rfl⟩ ?_ Nat.one_pos ?_
      · simp only [Pi.add_apply, Pi.single_eq_same]
        omega
      · intro g hg
        simp [hg]
    · trivial
    · refine ⟨?_, h.balanced.proper⟩
      change s.slots f = 0
      omega
  · rw [State.ftable_emit, State.ftable_setFile_self]
    exact h.idle f hzero
  · rw [State.ftable_emit, State.ftable_setFile_self]

omit [DecidableEq P] in
/-- Closing the last reference closes what the file was for. -/
theorem closeLast {ff : File Page I} (h : Tables s held)
    (hb : Balanced s.trace s.pipe
      (fun page w => s.ends page w + if ff.IsEnd page w then 1 else 0)
      (fun ip => s.openOn ip + refs ip + if ff.IsOn ip then 1 else 0))
    (hff : ff.Complete) : Accounts (s.closeLast ff) held refs := by
  cases htype : ff.type with
  | none =>
      have hend : ∀ page w, ¬ff.IsEnd page w := by simp [File.IsEnd, htype]
      have hon : ∀ ip, ¬ff.IsOn ip := by simp [File.IsOn, htype]
      have hclose : s.closeLast ff = s := by simp [State.closeLast, htype]
      rw [hclose]
      refine ⟨h, hb.congr ?_ ?_⟩
      · simp [hend]
      · simp [hon]
  | pipe =>
      obtain ⟨page, hpage⟩ := Option.isSome_iff_exists.mp (hff.1 htype)
      have hon : ∀ ip, ¬ff.IsOn ip := by simp [File.IsOn, htype]
      have hclose : s.closeLast ff = s.pipeclose page ff.writable := by
        simp [State.closeLast, htype, hpage]
      have htab := s.tables_pipeclose page ff.writable
      have hends : (s.pipeclose page ff.writable).ends = s.ends := by
        unfold State.ends
        rw [htab.1]
      have hopen : (s.pipeclose page ff.writable).openOn = s.openOn := by
        unfold State.openOn
        rw [htab.1]
      rw [hclose]
      refine ⟨h.congr htab.1 htab.2, ?_⟩
      rw [hends, hopen]
      refine Balanced.pipeclose
        (hb.congr (fun _ _ => rfl) ?_) ?_
      · simp [hon]
      · intro page' w
        simp [File.IsEnd, htype, hpage, eq_comm]
  | inode =>
      obtain ⟨ip, hip⟩ := Option.isSome_iff_exists.mp (hff.2 htype)
      have hend : ∀ page w, ¬ff.IsEnd page w := by simp [File.IsEnd, htype]
      have hclose : s.closeLast ff = s.emit (.iput ip) := by
        simp [State.closeLast, htype, hip]
      rw [hclose]
      apply emit_iput
      refine ⟨h, hb.congr ?_ ?_⟩
      · simp [hend]
      · intro jp
        simp [File.IsOn, htype, hip, Pi.single_apply, eq_comm, add_assoc]

omit [DecidableEq P] in
/-- `fileclose` takes back a reference. -/
theorem fileclose (h : Accounts s (held + Pi.single f 1) refs) :
    ∃ t, s.fileclose f = .next t ∧ Accounts t held refs := by
  have href := h.ref f
  simp only [Pi.add_apply, Pi.single_eq_same] at href
  have hrest : ∀ g, g ≠ f →
      held g = (held + Pi.single f 1 : FileSlot → ℕ) g := by
    intro g hg
    simp [hg]
  by_cases hlast : 0 < (s.ftable f).ref - 1
  · refine ⟨_, (if_neg (by omega)).trans (if_pos hlast), ?_⟩
    refine h.setFile_same ⟨rfl, rfl, rfl, rfl⟩ ?_ hlast hrest
    simp only
    omega
  · refine ⟨_, (if_neg (by omega)).trans (if_neg hlast), ?_⟩
    apply closeLast
    · refine h.toTables.setFile ?_ (fun _ => rfl) ?_ ?_ hrest
      · simp only
        omega
      · intro hpos
        omega
      · exact ⟨nofun, nofun⟩
    · refine h.balanced.congr ?_ ?_
      · intro page w
        have := s.ends_setFile f
          { s.ftable f with ref := 0, type := .none } page w
        simpa [File.IsEnd] using this
      · intro ip
        have := s.openOn_setFile f
          { s.ftable f with ref := 0, type := .none } ip
        simp only [File.IsOn, reduceCtorEq, false_and, if_false,
          add_zero] at this
        rw [add_right_comm, Pi.add_apply]
        exact congrArg (· + refs ip) this
    · exact h.complete f

omit [DecidableEq P] in
/-- A file without a type becomes the file of an opened inode. -/
theorem opening {ip : I} (h : Accounts s held (refs + Pi.single ip 1))
    (hnone : (s.ftable f).type = .none) (hpos : 0 < (s.ftable f).ref)
    (href : v.ref = (s.ftable f).ref) (htype : v.type = .inode)
    (hip : v.ip = some ip) : Accounts (s.setFile f v) held refs := by
  have hcomplete : v.Complete := by simp [File.Complete, htype, hip]
  refine ⟨h.toTables.setFile ?_ ?_ ?_ hcomplete (fun _ _ => rfl), ?_⟩
  · rw [href]
    exact h.ref f
  · omega
  · simp [htype]
  · refine h.balanced.congr ?_ ?_
    · intro page w
      have := s.ends_setFile f v page w
      simpa [File.IsEnd, hnone, htype] using this
    · intro jp
      have := s.openOn_setFile f v jp
      simp only [File.IsOn, hnone, htype, hip, reduceCtorEq, false_and,
        if_false, add_zero, true_and, Option.some_inj] at this
      simp only [Pi.add_apply, Pi.single_apply, eq_comm (a := jp)]
      omega

omit [DecidableEq P] in
/-- Two files without a type become the ends of a pipe on a new page. -/
theorem newPipe {f0 f1 : FileSlot} {page : Page} {v0 v1 : File Page I}
    {pp : Pipe} (h : Accounts s held refs) (hne : f0 ≠ f1)
    (hnone0 : (s.ftable f0).type = .none) (hnone1 : (s.ftable f1).type = .none)
    (hpos0 : 0 < (s.ftable f0).ref) (hpos1 : 0 < (s.ftable f1).ref)
    (hfree : ¬Taken s.trace page)
    (hpp : pp.readopen = true ∧ pp.writeopen = true)
    (hv0 : v0.ref = (s.ftable f0).ref ∧ v0.IsEnd page false)
    (hv1 : v1.ref = (s.ftable f1).ref ∧ v1.IsEnd page true) :
    Accounts
      ((((s.emit (.kalloc page)).setPipe page pp).setFile f0 v0).setFile f1 v1)
      held refs := by
  have hcomplete0 : v0.Complete := by
    simp [File.Complete, hv0.2.1, hv0.2.2.1]
  have hcomplete1 : v1.Complete := by
    simp [File.Complete, hv1.2.1, hv1.2.2.1]
  let u := (s.emit (.kalloc page)).setPipe page pp
  have hu : Tables u held := h.toTables.congr rfl rfl
  have hu0 : Tables (u.setFile f0 v0) held := by
    refine hu.setFile ?_ ?_ ?_ hcomplete0 (fun _ _ => rfl)
    · rw [hv0.1]
      exact h.ref f0
    · omega
    · simp [hv0.2.1]
  have hf1 : (u.setFile f0 v0).ftable f1 = s.ftable f1 :=
    State.ftable_setFile_of_ne u hne.symm v0
  refine ⟨hu0.setFile ?_ ?_ ?_ hcomplete1 (fun _ _ => rfl), ?_⟩
  · rw [hv1.1]
    exact h.ref f1
  · omega
  · simp [hv1.2.1]
  · have hsame : ∀ page' w, u.ends page' w = s.ends page' w := fun _ _ => rfl
    have hon : ∀ ip, u.openOn ip = s.openOn ip := fun _ => rfl
    refine (h.balanced.kalloc hfree hpp ?_).congr (fun _ _ => rfl) ?_
    · intro page' w
      have h0 := u.ends_setFile f0 v0 page' w
      have h1 := (u.setFile f0 v0).ends_setFile f1 v1 page' w
      rw [hf1] at h1
      rw [show u.ftable f0 = s.ftable f0 from rfl] at h0
      simp only [File.IsEnd, hnone0, hnone1, hv0.2.1, hv0.2.2.1, hv0.2.2.2,
        hv1.2.1, hv1.2.2.1, hv1.2.2.2, reduceCtorEq, false_and, if_false,
        add_zero, true_and, Option.some_inj] at h0 h1
      rw [hsame] at h0
      rw [h1, h0]
      cases w <;> simp [eq_comm]
    · intro ip
      have h0 := u.openOn_setFile f0 v0 ip
      have h1 := (u.setFile f0 v0).openOn_setFile f1 v1 ip
      rw [hf1] at h1
      rw [show u.ftable f0 = s.ftable f0 from rfl] at h0
      simp only [File.IsOn, hnone0, hnone1, hv0.2.1, hv1.2.1, reduceCtorEq,
        false_and, if_false, add_zero] at h0 h1
      rw [Pi.add_apply, Pi.add_apply, h1, h0, hon]

omit [DecidableEq P] in
/-- `pipealloc` gives a reference to each end, or nothing. -/
theorem pipealloc (h : Accounts s held refs) (page : Option Page)
    (hfree : ∀ pg, page = some pg → ¬Taken s.trace pg) :
    (∃ t, s.pipealloc page = .next (none, t) ∧ Accounts t held refs) ∨
      ∃ f0 f1 t, s.pipealloc page = .next (some (f0, f1), t) ∧
        Accounts t (held + Pi.single f0 1 + Pi.single f1 1) refs ∧
        (t.ftable f0).type ≠ .none ∧ (t.ftable f1).type ≠ .none := by
  unfold State.pipealloc
  split
  · next s' h0 =>
      cases State.filealloc_none h0
      exact .inl ⟨s, rfl, h⟩
  · next f0 s0 h0 =>
      obtain ⟨acc0, hnone0, href0⟩ := h.filealloc h0
      split
      · next s1 h1 =>
          cases State.filealloc_none h1
          obtain ⟨t, ht, acc⟩ := acc0.fileclose
          rw [ht]
          exact .inl ⟨t, rfl, acc⟩
      · next f1 s1 h1 =>
          obtain ⟨acc1, hnone1, href1⟩ := acc0.filealloc h1
          split
          · rw [add_right_comm] at acc1
            obtain ⟨t, ht, acc⟩ := acc1.fileclose
            obtain ⟨t', ht', acc'⟩ := acc.fileclose
            rw [ht, Outcome.bind, ht']
            exact .inl ⟨t', rfl, acc'⟩
          · next pg =>
              obtain ⟨hzero, hs0⟩ := State.filealloc_some h0
              obtain ⟨hzero1, hs1⟩ := State.filealloc_some h1
              have hne : f0 ≠ f1 := by
                rintro rfl
                omega
              have hkeep : s1.ftable f0 = s0.ftable f0 := by
                rw [hs1, State.ftable_emit, State.ftable_setFile_of_ne _ hne]
              have hnot : ¬Taken s1.trace pg := by
                have := hfree pg rfl
                rw [hs1, hs0]
                simpa [Taken, State.emit, State.setFile] using this
              refine .inr ⟨f0, f1, _, rfl, ?_, ?_, ?_⟩
              · refine acc1.newPipe hne ?_ hnone1 ?_ ?_ hnot ⟨rfl, rfl⟩
                  ⟨rfl, rfl, rfl, rfl⟩ ⟨?_, rfl, rfl, rfl⟩
                · rw [hkeep]
                  exact hnone0
                · rw [hkeep]
                  omega
                · omega
                · dsimp only
                  rw [State.ftable_setFile_of_ne _ hne.symm]
                  rfl
              · simp [hne]
              · simp

/-! ## The calls -/

omit [DecidableEq P] in
/-- A file to which a descriptor points is in use. -/
theorem in_use (h : Accounts s held refs) (ho : s.ofile p fd = some f) :
    0 < (s.ftable f).ref ∧ (s.ftable f).type ≠ .none := by
  have hpos : 0 < s.slots f := State.slots_pos_iff.mpr ⟨p, fd, ho⟩
  have := h.ref f
  exact ⟨by omega, h.typed f hpos⟩

theorem sysDup (h : Accounts s 0 0) (p : P) (fd : ℤ) :
    ∃ r t, s.sysDup p fd = .next (r, t) ∧ Accounts t 0 0 := by
  unfold State.sysDup
  split
  · exact ⟨-1, s, rfl, h⟩
  · next fd' f hfd =>
      have ho := State.ofile_of_argfd hfd
      obtain ⟨hpos, htype⟩ := h.in_use ho
      split
      · next s' hnone =>
          cases State.fdalloc_none hnone
          exact ⟨-1, s, rfl, h⟩
      · next fd'' s' hsome =>
          obtain ⟨hempty, rfl⟩ := State.fdalloc_some hsome
          -- the reference is counted before it is in the descriptor
          obtain ⟨t, ht, hofile, hsame, acc⟩ := h.filedup hpos
          have hdup : (s.setOfile p fd'' (some f)).filedup f =
              .next (t.setOfile p fd'' (some f)) := by
            unfold State.filedup at ht ⊢
            split at ht
            · cases ht
            · next hnot =>
                cases ht
                exact if_neg hnot
          rw [hdup]
          refine ⟨_, _, rfl, acc.setOfile_some ?_ ?_⟩
          · rw [hofile]
            exact hempty
          · rw [hsame]
            exact htype

theorem sysClose (h : Accounts s 0 0) (p : P) (fd : ℤ) :
    ∃ r t, s.sysClose p fd = .next (r, t) ∧ Accounts t 0 0 := by
  unfold State.sysClose
  split
  · exact ⟨-1, s, rfl, h⟩
  · next fd' f hfd =>
      have ho := State.ofile_of_argfd hfd
      obtain ⟨t, ht, acc⟩ := (h.setOfile_none ho).fileclose
      rw [ht]
      exact ⟨0, t, rfl, acc⟩

theorem sysOpen (h : Accounts s 0 0) (p : P) (found : Option I)
    (omode : BitVec 32) :
    ∃ r t, s.sysOpen p found omode = .next (r, t) ∧ Accounts t 0 0 := by
  unfold State.sysOpen
  split
  · exact ⟨-1, s, rfl, h⟩
  · next ip =>
      have hopened := h.emit_opened ip
      split
      · next s' hnone =>
          cases State.filealloc_none hnone
          exact ⟨-1, _, rfl, hopened.emit_iput⟩
      · next f s0 h0 =>
          obtain ⟨acc0, hnone0, href0⟩ := hopened.filealloc h0
          split
          · next s' hnone =>
              cases State.fdalloc_none hnone
              obtain ⟨t, ht, acc⟩ := acc0.fileclose
              rw [ht]
              exact ⟨-1, _, rfl, acc.emit_iput⟩
          · next fd s1 h1 =>
              obtain ⟨hempty, rfl⟩ := State.fdalloc_some h1
              refine ⟨_, _, rfl, ?_⟩
              -- the type is set before the descriptor points to the file
              apply setOfile_some (s := s0.setFile f _)
              · exact acc0.opening hnone0 (by omega) rfl rfl rfl
              · exact hempty
              · rw [State.ftable_setFile_self]
                nofun

theorem sysPipe (h : Accounts s 0 0) (p : P) (fd : Bool) (page : Option Page)
    (hfree : ∀ pg, page = some pg → ¬Taken s.trace pg) :
    ∃ r t, s.sysPipe p fd page = .next (r, t) ∧ Accounts t 0 0 := by
  unfold State.sysPipe
  split
  · exact ⟨-1, s, rfl, h⟩
  · obtain ⟨s0, h0, acc⟩ | ⟨rf, wf, s0, h0, acc, hrf, hwf⟩ :=
      h.pipealloc page hfree
    · rw [h0]
      exact ⟨-1, s0, rfl, acc⟩
    · rw [h0]
      simp only [Outcome.bind]
      rw [add_right_comm] at acc
      split
      · next s1 hnone =>
          cases State.fdalloc_none hnone
          obtain ⟨t, ht, acc⟩ := acc.fileclose
          obtain ⟨t', ht', acc⟩ := acc.fileclose
          rw [ht]
          simp only [ht']
          exact ⟨-1, t', rfl, acc⟩
      · next fd0 s1 hsome =>
          obtain ⟨hempty, rfl⟩ := State.fdalloc_some hsome
          have acc1 := acc.setOfile_some hempty hrf
          split
          · next s2 hnone =>
              cases State.fdalloc_none hnone
              have hset : (s0.setOfile p fd0 (some rf)).ofile p fd0 =
                  some rf := by simp [State.setOfile]
              have acc2 := acc1.setOfile_none hset
              obtain ⟨t, ht, acc⟩ := acc2.fileclose
              obtain ⟨t', ht', acc⟩ := acc.fileclose
              rw [ht]
              simp only [ht']
              exact ⟨-1, t', rfl, acc⟩
          · next fd1 s2 hsome =>
              obtain ⟨hempty', rfl⟩ := State.fdalloc_some hsome
              exact ⟨0, _, rfl, acc1.setOfile_some hempty' hwf⟩

omit [DecidableEq P] in
/-- A read or write uses a pipe only while it is allocated. -/
theorem transfer (h : Accounts s 0 0) (htype : (s.ftable f).type ≠ .none)
    (hpos : 0 < (s.ftable f).ref) (allowed : Bool) (message : String)
    (x : Transfer) {use : Page → Event Page I} (hquiet : ∀ pg, (use pg).Quiet)
    (huse : ∀ pg tr, Taken tr pg → Proper tr → Proper (use pg :: tr)) :
    ∃ r t, s.transfer f allowed use message x = .next (r, t) ∧
      Accounts t 0 0 := by
  have hcomplete := h.complete f
  unfold State.transfer
  dsimp only
  split
  · exact ⟨-1, s, rfl, h⟩
  · split
    · next pg hpipe hpg =>
        have hend : (s.ftable f).IsEnd pg (s.ftable f).writable :=
          ⟨hpipe, hpg, rfl⟩
        have acc := h.emit_quiet (hquiet pg)
          (huse pg s.trace (h.balanced.taken (State.ends_pos_iff.mpr ⟨f, hend⟩))
            h.balanced.proper)
        refine ⟨_, _, rfl, acc.toTables.congr rfl rfl, ?_⟩
        apply acc.balanced.setPipe
        intro page w
        by_cases hp : page = pg
        · subst hp
          simp [State.setPipe, isOpen, State.emit]
        · simp [State.setPipe, hp, isOpen, State.emit]
    · next hinode =>
        refine ⟨_, _, rfl, ?_⟩
        exact h.setFile_same ⟨rfl, rfl, rfl, rfl⟩ (h.ref f) hpos
          (fun _ _ => rfl)
    · next hpipe hinode =>
        exfalso
        cases hcase : (s.ftable f).type with
        | none => exact htype hcase
        | pipe =>
            obtain ⟨pg, hpg⟩ := Option.isSome_iff_exists.mp (hcomplete.1 hcase)
            exact hinode pg hcase hpg
        | inode => exact hpipe hcase

theorem run (h : Accounts s 0 0) (c : Call P Page I) :
    s.run c = .blocked ∨
      ∃ r t, s.run c = .next (r, t) ∧ Accounts t 0 0 := by
  cases c with
  | «open» p found omode => exact .inr (h.sysOpen p found omode)
  | dup p fd => exact .inr (h.sysDup p fd)
  | close p fd => exact .inr (h.sysClose p fd)
  | pipe p fd page =>
      simp only [State.run]
      split
      · exact .inl rfl
      · next hfree =>
          refine .inr (h.sysPipe p fd page ?_)
          rintro pg rfl
          simpa [State.taken, Taken] using hfree
  | read p fd x =>
      simp only [State.run, State.sysRead]
      split
      · exact .inr ⟨-1, s, rfl, h⟩
      · next fd' f hfd =>
          obtain ⟨hpos, htype⟩ := h.in_use (State.ofile_of_argfd hfd)
          exact .inr (h.transfer htype hpos _ _ x (fun _ => trivial)
            fun _ _ htaken hproper => ⟨htaken, hproper⟩)
  | write p fd x =>
      simp only [State.run, State.sysWrite]
      split
      · exact .inr ⟨-1, s, rfl, h⟩
      · next fd' f hfd =>
          obtain ⟨hpos, htype⟩ := h.in_use (State.ofile_of_argfd hfd)
          exact .inr (h.transfer htype hpos _ _ x (fun _ => trivial)
            fun _ _ htaken hproper => ⟨htaken, hproper⟩)

end Accounts

omit [DecidableEq P] in
/-- A file with a type is pointed to by a descriptor between calls. -/
theorem Accounts.slots_pos (h : Accounts s 0 refs)
    (htype : (s.ftable f).type ≠ .none) : 0 < s.slots f := by
  have := h.ref f
  have := mt (h.idle f) htype
  simp only [Pi.zero_apply] at *
  omega

end Rules

/-! ## Between calls -/

section Owned

variable [Fintype P] [DecidableEq P] [DecidableEq Page] [DecidableEq I]

/-- The files with descriptors that are one end of the pipe on a page. -/
def State.openEnds (s : State P Page I) (page : Page) (w : Bool) : ℕ :=
  ∑ f, if 0 < s.slots f ∧ (s.ftable f).IsEnd page w then 1 else 0

/-- The files with descriptors of an inode. -/
def State.openFiles (s : State P Page I) (ip : I) : ℕ :=
  ∑ f, if 0 < s.slots f ∧ (s.ftable f).IsOn ip then 1 else 0

/-- No descriptor points to a file and no file has been opened. -/
structure State.Fresh (s : State P Page I) : Prop where
  ref : ∀ f, (s.ftable f).ref = 0
  type : ∀ f, (s.ftable f).type = .none
  ofile : ∀ p fd, s.ofile p fd = none
  trace : s.trace = []

/-- The descriptors account for every reference, every end of a pipe and every
opened inode. -/
structure State.Owned (s : State P Page I) : Prop where
  ref : ∀ f, (s.ftable f).ref = s.slots f
  proper : Proper s.trace
  /-- An end that has not been closed has one file, and the file has
  descriptors. -/
  openEnds : ∀ page w, s.openEnds page w ≤ 1
  pipeclose : ∀ page w,
    s.trace.count (.kalloc page) =
      s.trace.count (.pipeclose page w) + s.openEnds page w
  kfree : ∀ page,
    s.trace.count (.kalloc page) =
      s.trace.count (.kfree page) +
        max (s.openEnds page false) (s.openEnds page true)
  iput : ∀ ip,
    s.trace.count (.opened ip) = s.trace.count (.iput ip) + s.openFiles ip

variable {s t : State P Page I}

omit [DecidableEq P] in
theorem Accounts.owned (h : Accounts s 0 0) : s.Owned := by
  have hends : ∀ page w, s.openEnds page w = s.ends page w := by
    intro page w
    apply Finset.sum_congr rfl
    intro f _
    have : (s.ftable f).IsEnd page w → 0 < s.slots f := by
      intro hend
      apply h.slots_pos
      rw [hend.1]
      nofun
    simp only [and_iff_right_of_imp this]
  have hfiles : ∀ ip, s.openFiles ip = s.openOn ip := by
    intro ip
    apply Finset.sum_congr rfl
    intro f _
    have : (s.ftable f).IsOn ip → 0 < s.slots f := by
      intro hon
      apply h.slots_pos
      rw [hon.1]
      nofun
    simp only [and_iff_right_of_imp this]
  constructor
  case ref => exact h.ref
  case proper => exact h.balanced.proper
  case openEnds =>
    intro page w
    rw [hends]
    exact h.balanced.le_one page w
  case pipeclose =>
    intro page w
    rw [hends]
    exact h.balanced.closed page w
  case kfree =>
    intro page
    rw [hends, hends]
    exact h.balanced.freed page
  case iput =>
    intro ip
    rw [hfiles]
    simpa using h.balanced.iput ip

omit [DecidableEq P] in
theorem State.Fresh.accounts (h : s.Fresh) : Accounts s 0 0 := by
  have hslots : ∀ f, s.slots f = 0 := by
    intro f
    simp [State.slots, h.ofile]
  have hends : ∀ page w, s.ends page w = 0 := by
    intro page w
    simp [State.ends, File.IsEnd, h.type]
  have hon : ∀ ip, s.openOn ip = 0 := by
    intro ip
    simp [State.openOn, File.IsOn, h.type]
  constructor
  case toTables =>
    constructor
    · intro f
      rw [h.ref, hslots]
      rfl
    · exact fun f _ => h.type f
    · intro f hpos
      rw [hslots] at hpos
      omega
    · intro f
      simp [File.Complete, h.type]
  case balanced =>
    rw [h.trace]
    constructor <;> simp [hends, hon, Proper]

/-- No call stops the machine, and the accounts are kept. -/
theorem Accounts.step (h : Accounts s 0 0) (c : Call P Page I) :
    s.step c = .blocked ∨ ∃ t, s.step c = .next t ∧ Accounts t 0 0 := by
  unfold State.step
  obtain hblocked | ⟨r, t, hrun, hacc⟩ := h.run c
  · rw [hblocked]
    exact .inl rfl
  · rw [hrun]
    exact .inr ⟨t, rfl, hacc⟩

/-- Whatever calls the processes make, every reference to a file is that of a
descriptor, and the ends of pipes and the opened inodes are closed once, with
their last descriptors; and no call stops the machine. -/
theorem descriptors_own {calls : List (Call P Page I)} (hs : s.Fresh)
    (hrun : Run State.step s calls t) :
    t.Owned ∧ ∀ c m, t.step c ≠ .panic m := by
  have hacc : Accounts t 0 0 := by
    refine Run.invariant (I := fun s => Accounts s 0 0) ?_ hrun hs.accounts
    intro s c t h hstep
    obtain hblocked | ⟨t', hnext, h'⟩ := h.step c
    · rw [hblocked] at hstep
      cases hstep
    · rw [hnext] at hstep
      cases hstep
      exact h'
  refine ⟨hacc.owned, ?_⟩
  intro c m hpanic
  obtain hblocked | ⟨t', hnext, h'⟩ := hacc.step c
  · rw [hblocked] at hpanic
    cases hpanic
  · rw [hnext] at hpanic
    cases hpanic

end Owned

/-- The tables as the kernel's zeroed memory holds them. -/
def State.zero : State P Page I where
  ftable _ :=
    { type := .none, ref := 0, readable := false, writable := false
      pipe := none, ip := none, off := 0 }
  ofile _ _ := none
  pipe _ :=
    { data := fun _ => 0, nread := 0, nwrite := 0
      readopen := false, writeopen := false }
  trace := []

/-- A pipe is made, its read end is dupped, and all three descriptors are
closed. -/
theorem descriptors_own_onePipe :
    ∃ t, Run State.step (State.zero : State Unit Unit Unit)
        [.pipe () true (some ()), .dup () 0, .close () 0, .close () 1,
          .close () 2] t ∧
      Event.kfree () ∈ t.trace ∧ t.Owned ∧ ∀ c m, t.step c ≠ .panic m := by
  obtain ⟨t, hrun, hfreed⟩ := Run.exists_of_exec State.step State.zero
    [.pipe () true (some ()), .dup () 0, .close () 0, .close () 1,
      .close () 2]
    (fun t : State Unit Unit Unit => .kfree () ∈ t.trace) (by decide +kernel)
  have hfresh : (State.zero : State Unit Unit Unit).Fresh :=
    ⟨fun _ => rfl, fun _ => rfl, fun _ _ => rfl, rfl⟩
  exact ⟨t, hrun, by simpa using hfreed, descriptors_own hfresh hrun⟩

end ZtlOs.Descriptors
