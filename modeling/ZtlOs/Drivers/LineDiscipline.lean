import ZtlOs.Drivers.Console

/-!
# The line discipline of the console

What is typed is edited in a line that is given to the readers when it is
complete.  `Editor` says so without the ring buffer: it has the line that is
being edited and all that has been committed so far.  The console is followed
along any schedule together with the editor, the characters that the readers
take, in order, and the results of the reads.
-/

namespace ZtlOs.Console

open ZtlOs.Support

/-! ## Editing -/

/-- The characters committed so far, and the line that is being edited. -/
structure Editor where
  committed : List (BitVec 8)
  line : List (BitVec 8)

/-- One character is typed, when `taken` of the committed ones have been
read. -/
def Editor.key (taken : ℕ) (ed : Editor) (c : BitVec 8) : Editor :=
  if c = C 'P' then ed
  else if c = C 'U' then { ed with line := [] }
  else if c = C 'H' ∨ c = delete then { ed with line := ed.line.dropLast }
  else if c ≠ 0 ∧ ed.committed.length - taken + ed.line.length < INPUT_BUF then
    let c := if c = carriageReturn then newline else c
    let line := ed.line ++ [c]
    if c = newline ∨ c = C 'D' ∨
        ed.committed.length - taken + line.length = INPUT_BUF then
      { committed := ed.committed ++ line, line := [] }
    else { ed with line := line }
  else ed

theorem Editor.eq_of_line_nil {ed : Editor} (h : ed.line = []) :
    ({ ed with line := [] } : Editor) = ed := by
  cases ed
  cases h
  rfl

/-- The ring buffer holds what is committed and not taken yet, and then the
line. -/
structure Matches (i : Input) (taken : List (BitVec 8)) (ed : Editor)
    (pending : List (BitVec 8)) : Prop where
  holds : Ring.Holds i.buf i.r i.e (pending ++ ed.line)
  write : i.w = i.r + BitVec.ofNat 32 pending.length
  committed : ed.committed = taken ++ pending
  open_line : newline ∉ ed.line

section Matches

variable {i : Input} {taken pending line : List (BitVec 8)} {ed : Editor}

theorem size_lt : INPUT_BUF < 2 ^ 32 := by decide

theorem size_dvd : INPUT_BUF ∣ 2 ^ 32 := by decide

theorem Matches.edit (h : Matches i taken ed pending) :
    i.e = i.w + BitVec.ofNat 32 ed.line.length := by
  rw [h.holds.nwrite_eq, h.write, List.length_append, BitVec.ofNat_add,
    BitVec.add_assoc]

theorem Matches.length_le (h : Matches i taken ed pending) :
    pending.length + ed.line.length ≤ INPUT_BUF := by
  rw [← List.length_append]
  exact h.holds.length_le

/-- The edit and write indices are equal exactly when the line is empty. -/
theorem Matches.edit_eq_iff (h : Matches i taken ed pending) :
    i.e = i.w ↔ ed.line = [] := by
  have hle := h.length_le
  have hsize := size_lt
  constructor
  · intro heq
    have hsame : i.w + BitVec.ofNat 32 ed.line.length =
        i.w + BitVec.ofNat 32 0 := by
      rw [← h.edit, heq]
      simp
    have := Ring.add_ofNat_inj (by omega) (by omega) hsame
    exact List.length_eq_zero_iff.mp this
  · intro hnil
    rw [h.edit, hnil]
    simp

/-- The read and write indices are equal exactly when nothing is pending. -/
theorem Matches.read_eq_iff (h : Matches i taken ed pending) :
    i.r = i.w ↔ pending = [] := by
  have hle := h.length_le
  have hsize := size_lt
  constructor
  · intro heq
    have hsame : i.r + BitVec.ofNat 32 pending.length =
        i.r + BitVec.ofNat 32 0 := by
      rw [← h.write, ← heq]
      simp
    have := Ring.add_ofNat_inj (by omega) (by omega) hsame
    exact List.length_eq_zero_iff.mp this
  · intro hnil
    rw [h.write, hnil]
    simp

/-- The indices as distances. -/
theorem Matches.indices (h : Matches i taken ed pending) :
    (i.w - i.r).toNat = pending.length ∧
      (i.e - i.r).toNat = pending.length + ed.line.length := by
  have hle := h.length_le
  have hsize := size_lt
  constructor
  · have hsub : i.w - i.r = BitVec.ofNat 32 pending.length := by
      rw [h.write, BitVec.add_comm, BitVec.add_sub_cancel]
    rw [hsub, BitVec.toNat_ofNat, Nat.mod_eq_of_lt (by omega)]
  · rw [h.holds.toNat_sub hsize, List.length_append]

theorem Matches.pending_length (h : Matches i taken ed pending) :
    ed.committed.length - taken.length = pending.length := by
  rw [h.committed, List.length_append]
  omega

/-- Going back by one character. -/
theorem Matches.back {c : BitVec 8} (h : Matches i taken ed pending)
    (hline : ed.line = line ++ [c]) :
    i.char (i.e - 1) = c ∧
      Matches { i with e := i.e - 1 } taken { ed with line := line } pending := by
  have hholds := h.holds
  rw [hline, ← List.append_assoc] at hholds
  obtain ⟨hchar, hback⟩ := hholds.unpush
  refine ⟨hchar, hback, h.write, h.committed, ?_⟩
  have hopen := h.open_line
  rw [hline] at hopen
  exact fun hmem => hopen (List.mem_append_left _ hmem)

/-- Killing the line takes back all of it. -/
theorem Matches.killLine {rounds : ℕ} (h : Matches i taken ed pending)
    (hrounds : ed.line.length ≤ rounds) :
    Matches (i.killLine rounds) taken { ed with line := [] } pending := by
  induction rounds generalizing i ed with
  | zero =>
      have hnil : ed.line = [] :=
        List.length_eq_zero_iff.mp (Nat.le_zero.mp hrounds)
      rw [Input.killLine, Editor.eq_of_line_nil hnil]
      exact h
  | succ rounds ih =>
      rcases List.eq_nil_or_concat' ed.line with hnil | ⟨line, c, hline⟩
      · have heq : i.e = i.w := h.edit_eq_iff.mpr hnil
        rw [Input.killLine, if_neg (fun hne => hne.1 heq),
          Editor.eq_of_line_nil hnil]
        exact h
      · obtain ⟨hchar, hback⟩ := h.back hline
        have hne : i.e ≠ i.w := by
          rw [Ne, h.edit_eq_iff, hline]
          simp
        have hc : c ≠ newline := by
          rintro rfl
          exact h.open_line (by simp [hline])
        rw [Input.killLine, if_pos ⟨hne, by rwa [hchar]⟩]
        have hle : line.length ≤ rounds := by
          rw [hline] at hrounds
          simpa using hrounds
        exact @ih _ { ed with line := line } hback hle

/-- A character is added to the line. -/
theorem Matches.add {c : BitVec 8} (h : Matches i taken ed pending)
    (hroom : pending.length + ed.line.length < INPUT_BUF) :
    Ring.Holds (Function.update i.buf (Ring.cell INPUT_BUF i.e) c) i.r
      (i.e + 1) (pending ++ (ed.line ++ [c])) := by
  rw [← List.append_assoc]
  exact h.holds.push size_dvd (by rwa [List.length_append])

/-- The console does with a character what the editor does with it. -/
theorem Matches.key (h : Matches i taken ed pending) (c : BitVec 8) :
    ∃ pending', Matches (i.key c) taken (ed.key taken.length c) pending' := by
  obtain ⟨-, hedit⟩ := h.indices
  have hwrite : i.e - i.w = BitVec.ofNat 32 ed.line.length := by
    rw [h.edit, BitVec.add_comm, BitVec.add_sub_cancel]
  unfold Input.key Editor.key
  by_cases hP : c = C 'P'
  · rw [if_pos hP, if_pos hP]
    exact ⟨pending, h⟩
  rw [if_neg hP, if_neg hP]
  by_cases hU : c = C 'U'
  · rw [if_pos hU, if_pos hU]
    refine ⟨pending, h.killLine ?_⟩
    have hle := h.length_le
    have hsize := size_lt
    rw [hwrite, BitVec.toNat_ofNat, Nat.mod_eq_of_lt (by omega)]
  rw [if_neg hU, if_neg hU]
  by_cases hH : c = C 'H' ∨ c = delete
  · rw [if_pos hH, if_pos hH]
    refine ⟨pending, ?_⟩
    rcases List.eq_nil_or_concat' ed.line with hnil | ⟨line, d, hline⟩
    · rw [if_neg (fun hne => hne (h.edit_eq_iff.mpr hnil))]
      rw [hnil, List.dropLast_nil, Editor.eq_of_line_nil hnil]
      exact h
    · have hne : i.e ≠ i.w := by
        rw [Ne, h.edit_eq_iff, hline]
        simp
      have hdrop : ed.line.dropLast = line := by
        rw [hline]
        simp
      rw [if_pos hne, hdrop]
      exact (h.back hline).2
  rw [if_neg hH, if_neg hH]
  rw [h.pending_length, hedit]
  by_cases hroom : c ≠ 0 ∧ pending.length + ed.line.length < INPUT_BUF
  · rw [if_pos hroom, if_pos hroom]
    dsimp only
    generalize (if c = carriageReturn then newline else c) = d
    have hadd := h.add (c := d) hroom.2
    have hfull : i.e + 1 = i.r + BitVec.ofNat 32 INPUT_BUF ↔
        pending.length + (ed.line ++ [d]).length = INPUT_BUF := by
      rw [hadd.eq_add_iff_full size_lt, List.length_append]
    simp only [hfull]
    split
    next hcommit =>
      refine ⟨pending ++ (ed.line ++ [d]), ?_, ?_, ?_, by simp⟩
      · simpa using hadd
      · exact hadd.nwrite_eq
      · rw [h.committed, List.append_assoc]
    next hcommit =>
      rw [not_or] at hcommit
      refine ⟨pending, hadd, h.write, h.committed, ?_⟩
      intro hmem
      rcases List.mem_append.mp hmem with hold | hnew
      · exact h.open_line hold
      · exact hcommit.1 (List.mem_singleton.mp hnew).symm
  · rw [if_neg hroom, if_neg hroom]
    exact ⟨pending, h⟩

theorem Matches.consoleintr (h : Matches i taken ed pending)
    (chars : List (BitVec 8)) :
    ∃ pending', Matches (Console.consoleintr i chars) taken
      (chars.foldl (Editor.key taken.length) ed) pending' := by
  induction chars generalizing i ed pending with
  | nil => exact ⟨pending, h⟩
  | cons c chars ih =>
      obtain ⟨pending₁, h₁⟩ := h.key c
      exact ih h₁

/-! ## Reading -/

/-- The ^D that ends a read, if it is taken. -/
def Stop.took : Stop → List (BitVec 8)
  | .eof => [C 'D']
  | _ => []

/-- Taking the first pending character. -/
theorem Matches.take {c : BitVec 8} (h : Matches i taken ed (c :: pending)) :
    i.char i.r = c ∧
      Matches { i with r := i.r + 1 } (taken ++ [c]) ed pending := by
  have hholds := h.holds
  rw [List.cons_append] at hholds
  obtain ⟨hchar, hrest⟩ := hholds.pop
  refine ⟨hchar, hrest, ?_, ?_, h.open_line⟩
  · rw [h.write, List.length_cons, BitVec.ofNat_add, BitVec.add_assoc,
      BitVec.add_comm 1]
    rfl
  · rw [h.committed]
    simp

/-- What the reasons for which the loop stops mean, for the characters `data`
that it has taken with `n` to go, after `got`. -/
def Stop.Sound (n : ℕ) (killed : Bool) (got data pending : List (BitVec 8)) :
    Stop → Prop
  | .done => data.length = n ∨ data.getLast? = some newline
  | .eof => 0 < n ∧ got = [] ∧ data = []
  | .eofLeft => got ++ data ≠ [] ∧ pending.head? = some (C 'D')
  | .killed => killed = true
  | .sleep left => left + data.length = n ∧ 0 < left ∧ newline ∉ data

/-- The loop takes characters from the front of what is pending, at most up to
the end of a line. -/
theorem Matches.readLoop {killed : Bool} {target n : ℕ}
    {got : List (BitVec 8)} (h : Matches i taken ed pending)
    (htarget : target = got.length + n) :
    ∃ data pending', (Console.readLoop killed target n got i).2.1 =
        got ++ data ∧
      Matches (Console.readLoop killed target n got i).1
        (taken ++ data ++ (Console.readLoop killed target n got i).2.2.took)
        ed pending' ∧
      data.length ≤ n ∧ C 'D' ∉ data ∧ newline ∉ data.dropLast ∧
      (Console.readLoop killed target n got i).2.2.Sound n killed got data
        pending' := by
  induction n generalizing i got taken pending with
  | zero =>
      have hres : Console.readLoop killed target 0 got i = (i, got, .done) :=
        rfl
      rw [hres]
      exact ⟨[], pending, by simp, by simpa [Stop.took] using h, by simp,
        by simp, by simp, .inl rfl⟩
  | succ n ih =>
      cases pending with
      | nil =>
          have heq : i.r = i.w := h.read_eq_iff.mpr rfl
          have hres : Console.readLoop killed target (n + 1) got i =
              (i, got, if killed then .killed else .sleep (n + 1)) := by
            simp only [Console.readLoop, if_pos heq]
            cases killed <;> rfl
          rw [hres]
          refine ⟨[], [], by simp, ?_, by simp, by simp, by simp, ?_⟩
          · cases killed <;> simpa [Stop.took] using h
          · cases killed <;> simp [Stop.Sound]
      | cons c rest =>
          have hne : i.r ≠ i.w := by
            rw [Ne, h.read_eq_iff]
            simp
          obtain ⟨hchar, htake⟩ := h.take
          by_cases hD : c = C 'D'
          · -- The end of file is taken only by a read that has nothing.
            by_cases hsome : n + 1 < target
            · have hback : ({ i with r := i.r + 1 - 1 } : Input) = i := by
                rw [BitVec.add_sub_cancel]
              have hres : Console.readLoop killed target (n + 1) got i =
                  (i, got, .eofLeft) := by
                simp only [Console.readLoop, if_neg hne, hchar, if_pos hD,
                  if_pos hsome, hback]
              rw [hres]
              refine ⟨[], c :: rest, by simp, by simpa [Stop.took] using h,
                by simp, by simp, by simp, ?_, ?_⟩
              · have hpos : 0 < got.length := by omega
                simpa using List.length_pos_iff.mp hpos
              · rw [hD]
                rfl
            · have hres : Console.readLoop killed target (n + 1) got i =
                  ({ i with r := i.r + 1 }, got, .eof) := by
                simp only [Console.readLoop, if_neg hne, hchar, if_pos hD,
                  if_neg hsome]
              have hnil : got = [] := List.length_eq_zero_iff.mp (by omega)
              rw [hres]
              refine ⟨[], rest, by simp, ?_, by simp, by simp, by simp,
                Nat.succ_pos n, hnil, rfl⟩
              rw [List.append_nil, Stop.took, ← hD]
              exact htake
          · by_cases hline : c = newline
            · have hres : Console.readLoop killed target (n + 1) got i =
                  ({ i with r := i.r + 1 }, got ++ [c], .done) := by
                simp only [Console.readLoop, if_neg hne, hchar, if_neg hD,
                  if_pos hline]
              rw [hres]
              refine ⟨[c], rest, rfl, by simpa [Stop.took] using htake, by simp,
                ?_, by simp, .inr ?_⟩
              · simpa using Ne.symm hD
              · rw [hline]
                rfl
            · have hres : Console.readLoop killed target (n + 1) got i =
                  Console.readLoop killed target n (got ++ [c])
                    { i with r := i.r + 1 } := by
                simp only [Console.readLoop, if_neg hne, hchar, if_neg hD,
                  if_neg hline]
              have htarget' : target = (got ++ [c]).length + n := by
                simp only [List.length_append, List.length_singleton]
                omega
              obtain ⟨data, pending', hgot, hmatch, hlen, hnoD, hone, hsound⟩ :=
                ih htake htarget'
              rw [hres]
              refine ⟨c :: data, pending', ?_, ?_, ?_, ?_, ?_, ?_⟩
              · rw [hgot]
                simp
              · simpa using hmatch
              · simpa using hlen
              · rw [List.mem_cons, not_or]
                exact ⟨Ne.symm hD, hnoD⟩
              · cases data with
                | nil => simp
                | cons d data =>
                    rw [List.dropLast_cons_of_ne_nil (by simp), List.mem_cons,
                      not_or]
                    exact ⟨Ne.symm hline, hone⟩
              · generalize (Console.readLoop killed target n (got ++ [c])
                  { i with r := i.r + 1 }).2.2 = stop at hsound ⊢
                cases stop with
                | done =>
                    rcases hsound with hall | hlast
                    · exact .inl (by simp [hall])
                    · right
                      rw [List.getLast?_cons, hlast]
                      rfl
                | eof => simp [Stop.Sound] at hsound
                | eofLeft =>
                    refine ⟨by simp, hsound.2⟩
                | killed => exact hsound
                | sleep left =>
                    obtain ⟨hleft, hpos, hno⟩ := hsound
                    refine ⟨?_, hpos, ?_⟩
                    · rw [List.length_cons]
                      omega
                    · rw [List.mem_cons, not_or]
                      exact ⟨Ne.symm hline, hno⟩

end Matches

/-! ## Histories -/

/-- What a call that stops returns. -/
def Stop.result (got : List (BitVec 8)) : Stop → Option (List (BitVec 8))
  | .done | .eof | .eofLeft => some got
  | .killed | .sleep _ => none

/-- The console with the editor, the characters that the readers have taken,
and the results of the reads in the order of their returns. -/
structure Traced (P : Type*) where
  console : State P
  editor : Editor
  taken : List (P × BitVec 8)
  returned : List (P × ℤ × List (BitVec 8))

section Traced

variable {P : Type*}

/-- The record after `p` has run the loop of `consoleread`. -/
def Traced.afterRead (t : Traced P) (s : State P) (p : P) (n : ℤ)
    (got : List (BitVec 8)) (res : Input × List (BitVec 8) × Stop) :
    Traced P where
  console := s
  editor := t.editor
  taken := t.taken ++
    (res.2.1.drop got.length ++ res.2.2.took).map fun c => (p, c)
  returned := t.returned ++
    ((res.2.2.result res.2.1).map fun data => (p, n, data)).toList

def Traced.record (t : Traced P) (a : Act P) (s : State P) : Traced P :=
  match a with
  | .consoleintr chars =>
      { t with
        console := s
        editor := chars.foldl (Editor.key t.taken.length) t.editor }
  | .kill _ => { t with console := s }
  | a =>
      match t.console.reads a with
      | some (p, n, left, got) =>
          t.afterRead s p n got (t.console.runLoop p n left got)
      | none => { t with console := s }

def Traced.step [DecidableEq P] (t : Traced P) (a : Act P) :
    Outcome (Traced P) :=
  (t.console.step a).map (t.record a)

/-- The indices are equal, whatever they are, and nobody is reading. -/
structure Traced.Initial (t : Traced P) : Prop where
  write : t.console.input.w = t.console.input.r
  edit : t.console.input.e = t.console.input.r
  reader : ∀ p, t.console.reader p = .idle
  killed : ∀ p, t.console.killed p = false
  editor : t.editor = ⟨[], []⟩
  taken : t.taken = []
  returned : t.returned = []

/-- The characters that `p` has taken. -/
def takenBy [DecidableEq P] (taken : List (P × BitVec 8)) (p : P) :
    List (BitVec 8) :=
  (taken.filter fun x => x.1 = p).map Prod.snd

/-- What the reads of `p` have returned, one after the other. -/
def dataOf [DecidableEq P] (returned : List (P × ℤ × List (BitVec 8)))
    (p : P) : List (BitVec 8) :=
  ((returned.filter fun x => x.1 = p).map fun x => x.2.2).flatten

/-- How often a read of `p` has returned 0 at the end of a file. -/
def eofsOf [DecidableEq P] (returned : List (P × ℤ × List (BitVec 8)))
    (p : P) : ℕ :=
  returned.countP fun x => x.1 = p ∧ 0 < x.2.1 ∧ x.2.2 = []

/-- The bytes of a read in progress. -/
def Reader.got : Reader → List (BitVec 8)
  | .idle => []
  | .asleep _ _ got => got

/-- The first pending character is ^D. -/
def Input.atEof (i : Input) : Prop :=
  i.r ≠ i.w ∧ i.char i.r = C 'D'

/-- The steps of the console, in the cases that matter for its readers. -/
theorem Traced.step_cases [DecidableEq P] {t t' : Traced P} {a : Act P}
    (ht : t.step a = .next t') :
    (∃ chars, a = .consoleintr chars ∧
      t' = { t with
        console :=
          { t.console with
            input := Console.consoleintr t.console.input chars }
        editor := chars.foldl (Editor.key t.taken.length) t.editor }) ∨
    (∃ p, a = .kill p ∧
      t' = { t with
        console :=
          { t.console with
            killed := Function.update t.console.killed p true } }) ∨
    (∃ p n left got, t.console.reads a = some (p, n, left, got) ∧
      t' = t.afterRead
        { t.console with
          input := (t.console.runLoop p n left got).1
          reader := Function.update t.console.reader p
            (.after n (t.console.runLoop p n left got).2.1
              (t.console.runLoop p n left got).2.2) }
        p n got (t.console.runLoop p n left got)) := by
  obtain ⟨s, hs, rfl⟩ := Outcome.map_eq_next ht
  have hread : (∀ chars, a ≠ .consoleintr chars) → (∀ p, a ≠ .kill p) →
      ∃ p n left got, t.console.reads a = some (p, n, left, got) ∧
        t.record a s = t.afterRead
          { t.console with
            input := (t.console.runLoop p n left got).1
            reader := Function.update t.console.reader p
              (.after n (t.console.runLoop p n left got).2.1
                (t.console.runLoop p n left got).2.2) }
          p n got (t.console.runLoop p n left got) := by
    intro hintr hkill
    have hstep : t.console.step a =
        match t.console.reads a with
        | some (p, n, left, got) =>
            .next
              { t.console with
                input := (t.console.runLoop p n left got).1
                reader := Function.update t.console.reader p
                  (.after n (t.console.runLoop p n left got).2.1
                    (t.console.runLoop p n left got).2.2) }
        | none => .blocked := by
      cases a with
      | consoleintr chars => exact absurd rfl (hintr chars)
      | kill p => exact absurd rfl (hkill p)
      | consoleread p n => rfl
      | wake p => rfl
    have hrecord : t.record a s =
        match t.console.reads a with
        | some (p, n, left, got) =>
            t.afterRead s p n got (t.console.runLoop p n left got)
        | none => { t with console := s } := by
      cases a with
      | consoleintr chars => exact absurd rfl (hintr chars)
      | kill p => exact absurd rfl (hkill p)
      | consoleread p n => rfl
      | wake p => rfl
    rw [hstep] at hs
    rw [hrecord]
    cases hr : t.console.reads a with
    | none =>
        rw [hr] at hs
        cases hs
    | some x =>
        obtain ⟨p, n, left, got⟩ := x
        rw [hr] at hs
        cases hs
        exact ⟨p, n, left, got, rfl, rfl⟩
  cases a with
  | consoleintr chars =>
      left
      cases hs
      exact ⟨chars, rfl, rfl⟩
  | kill p =>
      right; left
      cases hs
      exact ⟨p, rfl, rfl⟩
  | consoleread p n => exact .inr (.inr (hread (by simp) (by simp)))
  | wake p => exact .inr (.inr (hread (by simp) (by simp)))

/-! ## The invariant -/

/-- The ring buffer follows the editor, and what a sleeping reader has is a
part of one line. -/
structure Traced.Follows (t : Traced P) : Prop where
  matched : ∃ pending, Matches t.console.input (t.taken.map Prod.snd) t.editor
    pending
  asleep : ∀ p n left got, t.console.reader p = .asleep n left got →
    got.length + left = n.toNat ∧ C 'D' ∉ got ∧ newline ∉ got

theorem Traced.Initial.follows {t : Traced P} (h : t.Initial) : t.Follows where
  matched := by
    refine ⟨[], ?_, ?_, ?_, ?_⟩
    · rw [h.editor, h.edit]
      exact .nil _ _
    · rw [h.write]
      simp
    · rw [h.editor, h.taken]
      rfl
    · rw [h.editor]
      exact List.not_mem_nil
  asleep p n left got hp := by
    rw [h.reader p] at hp
    cases hp

section Invariant

variable {t t' : Traced P} {a : Act P} {p : P} {n : ℤ} {left : ℕ}
  {got : List (BitVec 8)}

/-- The call that goes on. -/
theorem Traced.Follows.reads (h : t.Follows)
    (ha : t.console.reads a = some (p, n, left, got)) :
    got.length + left = n.toNat ∧ C 'D' ∉ got ∧ newline ∉ got ∧
      (t.console.reader p).got = got := by
  cases a with
  | consoleintr chars => cases ha
  | kill q => cases ha
  | consoleread q m =>
      cases hq : t.console.reader q with
      | idle =>
          simp only [State.reads, hq, Option.some.injEq, Prod.mk.injEq] at ha
          obtain ⟨rfl, rfl, rfl, rfl⟩ := ha
          simp [hq, Reader.got]
      | asleep m' left' got' => simp [State.reads, hq] at ha
  | wake q =>
      cases hq : t.console.reader q with
      | idle => simp [State.reads, hq] at ha
      | asleep m' left' got' =>
          simp only [State.reads, hq, Option.some.injEq, Prod.mk.injEq] at ha
          obtain ⟨rfl, rfl, rfl, rfl⟩ := ha
          obtain ⟨hlen, hnoD, hno⟩ := h.asleep _ _ _ _ hq
          exact ⟨hlen, hnoD, hno, by rw [hq]; rfl⟩

/-- What running the loop does. -/
theorem Traced.Follows.runLoop (h : t.Follows)
    (ha : t.console.reads a = some (p, n, left, got)) :
    ∃ data pending, (t.console.runLoop p n left got).2.1 = got ++ data ∧
      Matches (t.console.runLoop p n left got).1
        (t.taken.map Prod.snd ++ data ++
          (t.console.runLoop p n left got).2.2.took) t.editor pending ∧
      data.length ≤ left ∧ C 'D' ∉ data ∧ newline ∉ data.dropLast ∧
      (t.console.runLoop p n left got).2.2.Sound left (t.console.killed p) got
        data pending := by
  obtain ⟨pending, hm⟩ := h.matched
  exact hm.readLoop (h.reads ha).1.symm

variable [DecidableEq P]

theorem Traced.Follows.step (h : t.Follows) (ht : t.step a = .next t') :
    t'.Follows := by
  rcases Traced.step_cases ht with
    ⟨chars, rfl, rfl⟩ | ⟨q, rfl, rfl⟩ | ⟨p, n, left, got, ha, rfl⟩
  · obtain ⟨pending, hm⟩ := h.matched
    refine ⟨?_, h.asleep⟩
    have hlen : (t.taken.map Prod.snd).length = t.taken.length :=
      List.length_map _
    rw [← hlen]
    exact hm.consoleintr chars
  · exact ⟨h.matched, h.asleep⟩
  · obtain ⟨hlen, hnoD, hno, -⟩ := h.reads ha
    obtain ⟨data, pending, hgot, hm, hle, hnoD', hone, hsound⟩ := h.runLoop ha
    constructor
    · refine ⟨pending, ?_⟩
      simp only [Traced.afterRead, hgot, List.drop_left, List.map_append,
        List.map_map, Function.comp_def, List.map_id']
      rw [← List.append_assoc]
      exact hm
    · intro q m left' got' hq
      simp only [Traced.afterRead] at hq
      by_cases hqp : q = p
      · subst hqp
        rw [Function.update_self, hgot] at hq
        generalize (t.console.runLoop q n left got).2.2 = stop at hq hsound
        cases stop with
        | sleep left'' =>
            obtain ⟨hleft, -, hnew⟩ := hsound
            simp only [Reader.after, Reader.asleep.injEq] at hq
            obtain ⟨rfl, rfl, rfl⟩ := hq
            refine ⟨?_, ?_, ?_⟩
            · rw [List.length_append]
              omega
            · rw [List.mem_append, not_or]
              exact ⟨hnoD, hnoD'⟩
            · rw [List.mem_append, not_or]
              exact ⟨hno, hnew⟩
        | done => cases hq
        | eof => cases hq
        | eofLeft => cases hq
        | killed => cases hq
      · rw [Function.update_of_ne hqp] at hq
        exact h.asleep q m left' got' hq

/-! ### What the readers get -/

theorem takenBy_append (taken : List (P × BitVec 8)) (p q : P)
    (chars : List (BitVec 8)) :
    takenBy (taken ++ chars.map fun c => (p, c)) q =
      takenBy taken q ++ if p = q then chars else [] := by
  have hnew : takenBy (chars.map fun c => (p, c)) q =
      if p = q then chars else [] := by
    by_cases hpq : p = q
    · simp [takenBy, hpq, List.filter_map, Function.comp_def]
    · simp [takenBy, hpq, List.filter_map, Function.comp_def]
  rw [← hnew]
  simp [takenBy]

theorem dataOf_append (returned : List (P × ℤ × List (BitVec 8))) (p q : P)
    (n : ℤ) (result : Option (List (BitVec 8))) :
    dataOf (returned ++ (result.map fun data => (p, n, data)).toList) q =
      dataOf returned q ++ if p = q then result.getD [] else [] := by
  cases result with
  | none => simp [dataOf]
  | some data =>
      by_cases hpq : p = q
      · simp [dataOf, hpq]
      · simp [dataOf, hpq]

theorem eofsOf_append (returned : List (P × ℤ × List (BitVec 8))) (p q : P)
    (n : ℤ) (result : Option (List (BitVec 8))) :
    eofsOf (returned ++ (result.map fun data => (p, n, data)).toList) q =
      eofsOf returned q + if p = q ∧ 0 < n ∧ result = some [] then 1 else 0 := by
  cases result with
  | none => simp [eofsOf]
  | some data => simp [eofsOf, List.countP_cons]

/-- The data of the reads are the characters that were taken. -/
structure Traced.Delivers (t : Traced P) : Prop where
  alive : ∀ p, t.console.killed p = false
  data : ∀ p, dataOf t.returned p ++ (t.console.reader p).got =
    (takenBy t.taken p).filter (· ≠ C 'D')
  lines : ∀ x ∈ t.returned, x.2.2.length ≤ x.2.1.toNat ∧ C 'D' ∉ x.2.2 ∧
    newline ∉ x.2.2.dropLast
  eofs : ∀ p, eofsOf t.returned p = (takenBy t.taken p).count (C 'D')

theorem Traced.Initial.delivers (h : t.Initial) : t.Delivers where
  alive := h.killed
  data p := by
    rw [h.returned, h.taken, h.reader p]
    rfl
  lines x hx := by
    rw [h.returned] at hx
    cases hx
  eofs p := by
    rw [h.returned, h.taken]
    rfl

theorem not_mem_dropLast_append {c : BitVec 8} {l l' : List (BitVec 8)}
    (h : c ∉ l) (h' : c ∉ l'.dropLast) : c ∉ (l ++ l').dropLast := by
  cases l' with
  | nil =>
      rw [List.append_nil]
      exact fun hmem => h (List.mem_of_mem_dropLast hmem)
  | cons d l' =>
      rw [List.dropLast_append_of_ne_nil (by simp), List.mem_append, not_or]
      exact ⟨h, h'⟩

/-- A read that goes on delivers what it takes. -/
theorem Traced.Delivers.read (hf : t.Follows) (h : t.Delivers) {s : State P}
    (ha : t.console.reads a = some (p, n, left, got))
    (hkilled : s.killed = t.console.killed)
    (hreader : s.reader = Function.update t.console.reader p
      (.after n (t.console.runLoop p n left got).2.1
        (t.console.runLoop p n left got).2.2)) :
    (t.afterRead s p n got (t.console.runLoop p n left got)).Delivers := by
  obtain ⟨hlen, hnoD, hno, hhas⟩ := hf.reads ha
  obtain ⟨data, pending, hgot, -, hle, hnoD', hone, hsound⟩ := hf.runLoop ha
  have hkeep : data.filter (· ≠ C 'D') = data := by
    rw [List.filter_eq_self]
    intro c hc
    have hne : c ≠ C 'D' := fun heq => hnoD' (heq ▸ hc)
    simpa using hne
  have hcount : data.count (C 'D') = 0 := List.count_eq_zero.mpr hnoD'
  have halive := h.alive p
  have hdrop : (got ++ data).drop got.length = data := List.drop_left
  generalize hstop : (t.console.runLoop p n left got).2.2 = stop
    at hreader hsound
  refine ⟨?_, ?_, ?_, ?_⟩
  · rw [Traced.afterRead, hkilled]
    exact h.alive
  · intro q
    have hq := h.data q
    simp only [Traced.afterRead, hgot, hstop, hdrop, dataOf_append,
      takenBy_append, hreader]
    by_cases hpq : p = q
    · subst hpq
      rw [hhas] at hq
      rw [Function.update_self, if_pos rfl, if_pos rfl, List.filter_append,
        List.filter_append, hkeep, ← hq]
      cases stop with
      | done => simp [Stop.result, Stop.took, Reader.after, Reader.got]
      | eof =>
          obtain ⟨-, hnil, hnil'⟩ := hsound
          simp [Stop.result, Stop.took, Reader.after, Reader.got, hnil, hnil']
      | eofLeft => simp [Stop.result, Stop.took, Reader.after, Reader.got]
      | killed =>
          rw [halive] at hsound
          cases hsound
      | sleep left' =>
          simp [Stop.result, Stop.took, Reader.after, Reader.got]
    · rw [Function.update_of_ne (Ne.symm hpq), if_neg hpq, if_neg hpq,
        List.append_nil, List.append_nil]
      exact hq
  · intro x hx
    simp only [Traced.afterRead, hgot, hstop] at hx
    rcases List.mem_append.mp hx with hold | hnew
    · exact h.lines x hold
    · have hx' : x = (p, n, got ++ data) := by
        cases stop <;> simp_all [Stop.result]
      rw [hx']
      refine ⟨?_, ?_, not_mem_dropLast_append hno hone⟩
      · dsimp only
        rw [List.length_append]
        omega
      · rw [List.mem_append, not_or]
        exact ⟨hnoD, hnoD'⟩
  · intro q
    have hq := h.eofs q
    simp only [Traced.afterRead, hgot, hstop, hdrop, eofsOf_append,
      takenBy_append]
    by_cases hpq : p = q
    · subst hpq
      rw [if_pos rfl, List.count_append, List.count_append, hcount, hq]
      cases stop with
      | done =>
          have hnot : 0 < n → got = [] → ¬ data = [] := by
            rintro hn rfl rfl
            rcases hsound with hall | hlast
            · simp only [List.length_nil] at hall hlen
              omega
            · cases hlast
          simpa [Stop.result, Stop.took] using hnot
      | eof =>
          obtain ⟨hpos, rfl, rfl⟩ := hsound
          have hn : 0 < n := by
            simp only [List.length_nil] at hlen
            omega
          simp [Stop.result, Stop.took, hn]
      | eofLeft =>
          have hne := hsound.1
          simp [Stop.result, Stop.took, hne]
      | killed =>
          rw [halive] at hsound
          cases hsound
      | sleep left' => simp [Stop.result, Stop.took]
    · rw [if_neg hpq, List.append_nil, if_neg (fun hand => hpq hand.1), hq,
        Nat.add_zero]

theorem Traced.Delivers.step (hf : t.Follows) (h : t.Delivers)
    (hkill : ∀ p, a ≠ .kill p) (ht : t.step a = .next t') : t'.Delivers := by
  rcases Traced.step_cases ht with
    ⟨chars, rfl, rfl⟩ | ⟨q, rfl, -⟩ | ⟨p, n, left, got, ha, rfl⟩
  · exact ⟨h.alive, h.data, h.lines, h.eofs⟩
  · exact absurd rfl (hkill q)
  · exact h.read hf ha rfl rfl

/-! ## The line discipline -/

/-- The indices, as distances. -/
def Input.Indexed (i : Input) : Prop :=
  (i.w - i.r).toNat ≤ (i.e - i.r).toNat ∧ (i.e - i.r).toNat ≤ INPUT_BUF

omit [DecidableEq P] in
theorem Traced.Follows.indexed (h : t.Follows) : t.console.input.Indexed := by
  obtain ⟨pending, hm⟩ := h.matched
  obtain ⟨hwrite, hedit⟩ := hm.indices
  have hle := hm.length_le
  constructor <;> omega

/-- What the readers get of what is typed. -/
structure Traced.Disciplined (t : Traced P) : Prop where
  /-- The characters taken, in their order, are the edited input up to the read
  index. -/
  stream : ∃ pending,
    t.editor.committed = t.taken.map Prod.snd ++ pending ∧
      Ring.Holds t.console.input.buf t.console.input.r t.console.input.e
        (pending ++ t.editor.line) ∧
      t.console.input.w =
        t.console.input.r + BitVec.ofNat 32 pending.length
  /-- The reads of a process return what it takes, but for the ^D. -/
  data : ∀ p, dataOf t.returned p ++ (t.console.reader p).got =
    (takenBy t.taken p).filter (· ≠ C 'D')
  /-- A read returns at most `n` bytes of at most one line. -/
  lines : ∀ x ∈ t.returned, x.2.2.length ≤ x.2.1.toNat ∧ C 'D' ∉ x.2.2 ∧
    newline ∉ x.2.2.dropLast
  /-- Each ^D that is taken is a read of some length that returns 0. -/
  eofs : ∀ p, eofsOf t.returned p = (takenBy t.taken p).count (C 'D')
  /-- A read that returns less than `n` bytes of a line has met a ^D, and takes
  it if it has nothing else. -/
  short : ∀ a t' p n data, t.step a = .next t' →
    t'.returned = t.returned ++ [(p, n, data)] →
    data.length = n.toNat ∨ data.getLast? = some newline ∨
      data = [] ∧ t'.taken = t.taken ++ [(p, C 'D')] ∨
      data ≠ [] ∧ t'.console.input.atEof
  /-- A read that meets a ^D ends: it takes it and returns 0 if it has no data,
  and otherwise leaves it and returns its data. -/
  atEof : t.console.input.atEof → ∀ a t' p n left got, 0 < left →
    t.console.reads a = some (p, n, left, got) → t.step a = .next t' →
    t'.returned = t.returned ++ [(p, n, got)] ∧
      (got = [] → t'.taken = t.taken ++ [(p, C 'D')]) ∧
      (got ≠ [] → t'.taken = t.taken ∧ t'.console.input = t.console.input)

/-- A character that is pending and first in line. -/
theorem Matches.atEof_iff {i : Input} {taken pending : List (BitVec 8)}
    {ed : Editor} (h : Matches i taken ed pending) :
    i.atEof ↔ pending.head? = some (C 'D') := by
  cases pending with
  | nil =>
      have heq : i.r = i.w := h.read_eq_iff.mpr rfl
      simp [Input.atEof, heq]
  | cons c rest =>
      have hne : i.r ≠ i.w := by
        rw [Ne, h.read_eq_iff]
        simp
      simp [Input.atEof, hne, h.take.1]

omit [DecidableEq P] in
/-- The loop at a ^D. -/
theorem State.runLoop_atEof {s : State P} (hD : s.input.atEof)
    (hlen : got.length + left = n.toNat) (hleft : 0 < left) :
    s.runLoop p n left got =
      if got = [] then ({ s.input with r := s.input.r + 1 }, got, .eof)
      else (s.input, got, .eofLeft) := by
  obtain ⟨hne, hchar⟩ := hD
  obtain ⟨left, rfl⟩ := Nat.exists_eq_succ_of_ne_zero (Nat.ne_of_gt hleft)
  have hback : ({ s.input with r := s.input.r + 1 - 1 } : Input) = s.input := by
    rw [BitVec.add_sub_cancel]
  have hgot : left + 1 < n.toNat ↔ got ≠ [] := by
    rw [← List.length_pos_iff]
    omega
  simp only [State.runLoop, Console.readLoop, if_neg hne, hchar, if_true, hgot,
    hback]
  by_cases hnil : got = []
  · rw [if_neg (fun h => h hnil), if_pos hnil]
  · rw [if_pos hnil, if_neg hnil]

/-- Why a read has returned. -/
theorem Traced.Follows.short (h : t.Follows) {data : List (BitVec 8)}
    (ht : t.step a = .next t')
    (hret : t'.returned = t.returned ++ [(p, n, data)]) :
    data.length = n.toNat ∨ data.getLast? = some newline ∨
      data = [] ∧ t'.taken = t.taken ++ [(p, C 'D')] ∨
      data ≠ [] ∧ t'.console.input.atEof := by
  have hone : ∀ {l : List (P × ℤ × List (BitVec 8))}, t.returned ++ l =
      t.returned ++ [(p, n, data)] → l = [(p, n, data)] :=
    fun heq => List.append_cancel_left heq
  rcases Traced.step_cases ht with
    ⟨chars, rfl, rfl⟩ | ⟨q, rfl, rfl⟩ | ⟨q, m, left, got, ha, rfl⟩
  · have := congrArg List.length hret
    simp at this
  · have := congrArg List.length hret
    simp at this
  · obtain ⟨hlen, hnoD, hno, -⟩ := h.reads ha
    obtain ⟨new, pending, hgot, hm, hle, hnoD', hline, hsound⟩ := h.runLoop ha
    have hret' := hone hret
    rw [hgot] at hret'
    have hdrop : (got ++ new).drop got.length = new := List.drop_left
    simp only [Traced.afterRead, hgot, hdrop]
    generalize (t.console.runLoop q m left got).2.2 = stop
      at hsound hret' hm ⊢
    cases stop with
    | done =>
        simp only [Stop.result, Option.map_some, Option.toList_some,
          List.cons.injEq, Prod.mk.injEq, and_true] at hret'
        obtain ⟨rfl, rfl, rfl⟩ := hret'
        rcases hsound with hall | hlast
        · left
          rw [List.length_append]
          omega
        · right; left
          rw [List.getLast?_append, hlast]
          rfl
    | eof =>
        simp only [Stop.result, Option.map_some, Option.toList_some,
          List.cons.injEq, Prod.mk.injEq, and_true] at hret'
        obtain ⟨rfl, rfl, rfl⟩ := hret'
        obtain ⟨-, rfl, rfl⟩ := hsound
        right; right; left
        exact ⟨rfl, rfl⟩
    | eofLeft =>
        simp only [Stop.result, Option.map_some, Option.toList_some,
          List.cons.injEq, Prod.mk.injEq, and_true] at hret'
        obtain ⟨rfl, rfl, rfl⟩ := hret'
        right; right; right
        exact ⟨hsound.1, hm.atEof_iff.mpr hsound.2⟩
    | killed => cases hret'
    | sleep left' => cases hret'

theorem Traced.Follows.disciplined (hf : t.Follows) (h : t.Delivers) :
    t.Disciplined where
  stream := by
    obtain ⟨pending, hm⟩ := hf.matched
    exact ⟨pending, hm.committed, hm.holds, hm.write⟩
  data := h.data
  lines := h.lines
  eofs := h.eofs
  short := fun _ _ _ _ _ ht hret => hf.short ht hret
  atEof := by
    intro hD a t' p n left got hleft ha ht
    obtain ⟨hlen, -, -, -⟩ := hf.reads ha
    have hloop := State.runLoop_atEof (p := p) hD hlen hleft
    rcases Traced.step_cases ht with
      ⟨chars, rfl, rfl⟩ | ⟨q, rfl, rfl⟩ | ⟨q, m, left', got', ha', rfl⟩
    · cases ha
    · cases ha
    · rw [ha] at ha'
      obtain ⟨rfl, rfl, rfl, rfl⟩ : p = q ∧ n = m ∧ left = left' ∧
          got = got' := by
        simpa using ha'
      simp only [Traced.afterRead, hloop]
      by_cases hnil : got = []
      · simp [hnil, Stop.result, Stop.took]
      · simp [hnil, Stop.result, Stop.took]

/-- The indices stay in order in every run, and as long as no reader is killed
the readers get exactly the edited input. -/
theorem console_disciplined (t₀ t : Traced P) (w : List (Act P))
    (h₀ : t₀.Initial) (hrun : Run Traced.step t₀ w t) :
    t.console.input.Indexed ∧
      ((∀ p, Act.kill p ∉ w) → t.Disciplined) := by
  have hf : t.Follows :=
    hrun.invariant (fun _ _ _ h ht => h.step ht) h₀.follows
  refine ⟨hf.indexed, fun hkill => ?_⟩
  have hboth : t.Follows ∧ t.Delivers := by
    clear hf
    have h := And.intro h₀.follows h₀.delivers
    clear h₀
    induction hrun with
    | nil s => exact h
    | cons head _ ih =>
        apply ih
        · exact fun p hp => hkill p (List.mem_cons_of_mem _ hp)
        · refine ⟨h.1.step head, h.2.step h.1 ?_ head⟩
          rintro p rfl
          exact hkill p List.mem_cons_self
  exact hboth.1.disciplined hboth.2

end Invariant

end Traced

/-! ## Overlapping reads -/

/-- A console that nobody has used. -/
def fresh : Traced (Fin 2) where
  console :=
    { input := { buf := fun _ => 0, r := 0, w := 0, e := 0 }
      killed := fun _ => false
      reader := fun _ => .idle }
  editor := ⟨[], []⟩
  taken := []
  returned := []

theorem fresh_initial : fresh.Initial where
  write := rfl
  edit := rfl
  reader _ := rfl
  killed _ := rfl
  editor := rfl
  taken := rfl
  returned := rfl

/-- A line with a correction, read in two parts. -/
theorem console_disciplined_twoReads :
    ∃ t : Traced (Fin 2), Run Traced.step fresh
        [.consoleread 0 2, .consoleintr [97, 98, 8, 99, 13], .wake 0,
          .consoleread 0 9] t ∧
      t.console.input.Indexed ∧
      ((∀ p : Fin 2, Act.kill p ∉ [Act.consoleread 0 2,
        .consoleintr [97, 98, 8, 99, 13], .wake 0, .consoleread 0 9]) →
        t.Disciplined) := by
  obtain ⟨t, hrun, -⟩ := Run.exists_of_exec Traced.step fresh
    [.consoleread 0 2, .consoleintr [97, 98, 8, 99, 13], .wake 0,
      .consoleread 0 9] (fun _ => true) (by decide +kernel)
  obtain ⟨hindex, hdisc⟩ := console_disciplined _ _ _ fresh_initial hrun
  exact ⟨t, hrun, hindex, hdisc⟩

/-- Two reads that have both taken a buffer full of characters, and still wait
for more. -/
def overlapping : List (Act (Fin 2)) :=
  [ .consoleread 0 300, .consoleread 1 300,
    .consoleintr (List.replicate 128 97), .wake 0,
    .consoleintr (List.replicate 128 98), .wake 1 ]

theorem overlapping_kill (p : Fin 2) (w : List (Act (Fin 2)))
    (hw : ∀ p, Act.kill p ∉ w) : Act.kill p ∉ overlapping ++ w := by
  simp [overlapping, hw p]

/-- A read of the first process that returns at a ^D, and one of the second
process after it. -/
def twoReturns (t : Traced (Fin 2)) : Option (Traced (Fin 2) × Traced (Fin 2)) :=
  match t.step (.wake 0) with
  | .next t' =>
      match t'.step (.wake 1) with
      | .next t'' => some (t', t'')
      | _ => none
  | _ => none

theorem twoReturns_eq_some {t t' t'' : Traced (Fin 2)}
    (h : twoReturns t = some (t', t'')) :
    t.step (.wake 0) = .next t' ∧ t'.step (.wake 1) = .next t'' := by
  unfold twoReturns at h
  split at h
  next u hu =>
    split at h
    next v hv =>
      cases h
      exact ⟨hu, hv⟩
    · cases h
  · cases h

/-- The data returned, in the order of the returns, are not the edited input
when reads overlap, and the read that returns after one that met a ^D need not
return 0. -/
theorem console_not_in_order :
    (¬ ∀ (t₀ t : Traced (Fin 2)) (w : List (Act (Fin 2))), t₀.Initial →
      Run Traced.step t₀ w t → (∀ p, Act.kill p ∉ w) →
      (t.returned.map fun x => x.2.2).flatten <+:
        t.editor.committed.filter (· ≠ C 'D')) ∧
    ¬ ∀ (t₀ t t' t'' : Traced (Fin 2)) (w : List (Act (Fin 2)))
      (a b : Act (Fin 2)) (p q : Fin 2) (n m : ℤ)
      (data data' : List (BitVec 8)), t₀.Initial →
      Run Traced.step t₀ w t → (∀ p, Act.kill p ∉ w) →
      t.step a = .next t' → t'.returned = t.returned ++ [(p, n, data)] →
      data ≠ [] → data.length < n → data.getLast? ≠ some newline →
      t'.console.input.atEof → t'.step b = .next t'' →
      t''.returned = t'.returned ++ [(q, m, data')] → data' = [] := by
  constructor
  · intro h
    obtain ⟨t, hrun, ht⟩ := Run.exists_of_exec Traced.step fresh
      (overlapping ++ [.consoleintr [10], .wake 1])
      (fun t => ¬ (t.returned.map fun x => x.2.2).flatten <+:
        t.editor.committed.filter (· ≠ C 'D')) (by decide +kernel)
    exact of_decide_eq_true ht
      (h fresh t _ fresh_initial hrun fun p => overlapping_kill p _ (by simp))
  · intro h
    obtain ⟨t, hrun, ht⟩ := Run.exists_of_exec Traced.step fresh
      (overlapping ++ [.consoleintr [4]])
      (fun t => (twoReturns t).any fun x =>
        x.1.returned = t.returned ++ [(0, 300, List.replicate 128 97)] ∧
        x.1.console.input.r ≠ x.1.console.input.w ∧
        x.1.console.input.char x.1.console.input.r = C 'D' ∧
        x.2.returned = x.1.returned ++ [(1, 300, List.replicate 128 98)])
      (by decide +kernel)
    obtain ⟨⟨t', t''⟩, hsome, hx⟩ := (Option.any_eq_true _ _).mp ht
    obtain ⟨hret, hne, hD, hret'⟩ := of_decide_eq_true hx
    obtain ⟨hstep, hstep'⟩ := twoReturns_eq_some hsome
    have hnil := h fresh t t' t'' _ _ _ _ _ _ _ _ _ fresh_initial hrun
      (fun p => overlapping_kill p _ (by simp)) hstep hret (by simp)
      (by simp) (by decide +kernel) ⟨hne, hD⟩ hstep' hret'
    simp at hnil

end ZtlOs.Console
