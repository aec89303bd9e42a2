import Mathlib.Data.List.Basic
import Mathlib.Data.List.Induction
import Mathlib.Order.Nat
import Mathlib.Tactic.Common

/-!
# Lines that arrive in pieces

A stream is cut into lines by a terminator, and it arrives in chunks that are
cut independently of the lines.  A reader that carries an unfinished line over
to the next chunk, but only if its chunk ends some line, loses what it has of a
line whenever a whole chunk falls inside of this line.
-/

namespace ZtlOs.Support

variable {α : Type*}

/-- The lines one after the other, each with its terminator. -/
def unlines (nl : α) (ls : List (List α)) : List α :=
  ls.flatMap (· ++ [nl])

/-- The stream `s` consists of the lines `ls` and of the unfinished line
`tail`. -/
structure Lines (nl : α) (s : List α) (ls : List (List α)) (tail : List α) :
    Prop where
  eq : s = unlines nl ls ++ tail
  ended : ∀ l ∈ ls, nl ∉ l
  unfinished : nl ∉ tail

section Lines

variable {nl : α} {s t l l' tail tail' : List α} {ls ls' : List (List α)}

@[simp] theorem unlines_nil : unlines nl [] = [] :=
  rfl

@[simp] theorem unlines_cons :
    unlines nl (l :: ls) = l ++ nl :: unlines nl ls := by
  simp [unlines]

@[simp] theorem unlines_append :
    unlines nl (ls ++ ls') = unlines nl ls ++ unlines nl ls' := by
  simp [unlines]

/-- A list is split in one way only at its first terminator. -/
theorem eq_of_append_cons_eq (hl : nl ∉ l) (hl' : nl ∉ l')
    (h : l ++ nl :: s = l' ++ nl :: t) : l = l' ∧ s = t := by
  induction l generalizing l' with
  | nil =>
      cases l' with
      | nil => exact ⟨rfl, (List.cons.inj h).2⟩
      | cons x l' =>
          rw [(List.cons.inj h).1] at hl'
          exact absurd List.mem_cons_self hl'
  | cons x l ih =>
      cases l' with
      | nil =>
          rw [← (List.cons.inj h).1] at hl
          exact absurd List.mem_cons_self hl
      | cons y l' =>
          obtain ⟨rfl, htail⟩ := List.cons.inj h
          obtain ⟨rfl, rfl⟩ := ih (List.not_mem_of_not_mem_cons hl)
            (List.not_mem_of_not_mem_cons hl') htail
          exact ⟨rfl, rfl⟩

/-- A stream has one division into lines. -/
theorem Lines.unique (h : Lines nl s ls tail) (h' : Lines nl s ls' tail') :
    ls = ls' ∧ tail = tail' := by
  obtain ⟨rfl, hls, htail⟩ := h
  obtain ⟨heq, hls', htail'⟩ := h'
  induction ls generalizing ls' with
  | nil =>
      cases ls' with
      | nil => exact ⟨rfl, by simpa using heq⟩
      | cons l ls' =>
          rw [unlines_nil, List.nil_append] at heq
          exact absurd (by simp [heq]) htail
  | cons l ls ih =>
      cases ls' with
      | nil =>
          rw [unlines_nil, List.nil_append] at heq
          exact absurd (by simp [← heq]) htail'
      | cons l' ls' =>
          rw [List.forall_mem_cons] at hls hls'
          simp only [unlines_cons, List.append_assoc, List.cons_append] at heq
          obtain ⟨rfl, hrest⟩ := eq_of_append_cons_eq hls.1 hls'.1 heq
          obtain ⟨rfl, rfl⟩ := ih hls.2 hrest hls'.2
          exact ⟨rfl, rfl⟩

theorem Lines.nil : Lines nl ([] : List α) [] [] :=
  ⟨rfl, by simp, by simp⟩

theorem Lines.of_not_mem (h : nl ∉ s) : Lines nl s [] s :=
  ⟨rfl, by simp, h⟩

theorem Lines.cons (hl : nl ∉ l) (h : Lines nl s ls tail) :
    Lines nl (l ++ nl :: s) (l :: ls) tail := by
  refine ⟨?_, ?_, h.unfinished⟩
  · rw [h.eq]
    simp
  · simpa only [List.forall_mem_cons] using And.intro hl h.ended

/-- What follows completes the unfinished line. -/
theorem Lines.append (h : Lines nl s ls tail)
    (h' : Lines nl (tail ++ t) ls' tail') :
    Lines nl (s ++ t) (ls ++ ls') tail' := by
  refine ⟨?_, ?_, h'.unfinished⟩
  · rw [h.eq, List.append_assoc, h'.eq]
    simp
  · intro l hl
    exact (List.mem_append.mp hl).elim (h.ended l) (h'.ended l)

/-- The first line, if any, is split where the stream is. -/
theorem exists_lines_append (hs : nl ∉ s) (ht : nl ∈ t) (h : Lines nl t ls tail) :
    ∃ l₀ ms, ls = l₀ :: ms ∧ Lines nl (s ++ t) ((s ++ l₀) :: ms) tail := by
  obtain ⟨rfl, hls, htail⟩ := h
  cases ls with
  | nil => exact absurd (by simpa using ht) htail
  | cons l ls =>
      rw [List.forall_mem_cons] at hls
      refine ⟨l, ls, rfl, ?_, ?_, htail⟩
      · simp
      · simpa only [List.forall_mem_cons, List.mem_append, not_or] using
          And.intro (And.intro hs hls.1) hls.2

/-- Division of a stream into lines. -/
def splitLines [DecidableEq α] (nl : α) : List α → List (List α) × List α
  | [] => ([], [])
  | x :: s =>
      let r := splitLines nl s
      if x = nl then ([] :: r.1, r.2)
      else
        match r.1 with
        | [] => ([], x :: r.2)
        | l :: ls => ((x :: l) :: ls, r.2)

theorem lines_splitLines [DecidableEq α] (nl : α) (s : List α) :
    Lines nl s (splitLines nl s).1 (splitLines nl s).2 := by
  induction s with
  | nil => exact .nil
  | cons x s ih =>
      obtain ⟨heq, hls, htail⟩ := ih
      by_cases hx : x = nl
      · simp only [splitLines, if_pos hx]
        subst hx
        exact Lines.cons (l := []) (by simp) ⟨heq, hls, htail⟩
      · simp only [splitLines, if_neg hx]
        split
        · next hnil =>
            rw [hnil, unlines_nil, List.nil_append] at heq
            refine ⟨by simp [← heq], by simp, ?_⟩
            simpa [eq_comm] using And.intro hx htail
        · next l ls hcons =>
            rw [hcons] at heq hls
            rw [List.forall_mem_cons] at hls
            refine ⟨?_, ?_, htail⟩
            · rw [unlines_cons] at heq ⊢
              rw [List.cons_append, List.cons_append, ← heq]
            · rw [List.forall_mem_cons]
              refine ⟨?_, hls.2⟩
              simpa [eq_comm] using And.intro hx hls.1

end Lines

/-! ## Chunks that fall inside of a line -/

/-- Where chunks begin and end, the first of them at `t`. -/
def spans (t : ℕ) : List (List α) → List (ℕ × ℕ)
  | [] => []
  | c :: cs => (t, t + c.length) :: spans (t + c.length) cs

/-- The end of the last chunk that lies between `a` and `b`, or `a` if there is
none. -/
def lastCut (sp : List (ℕ × ℕ)) (a b : ℕ) : ℕ :=
  sp.foldl (fun k s => if a ≤ s.1 ∧ s.2 ≤ b then s.2 else k) a

/-- What the lines, the first of them at `a`, contain behind the last chunk
that falls inside of them. -/
def remains (sp : List (ℕ × ℕ)) (a : ℕ) : List (List α) → List (List α)
  | [] => []
  | l :: ls =>
      l.drop (lastCut sp a (a + l.length) - a) ::
        remains sp (a + l.length + 1) ls

/-- The lines as the forgetful reader sees them, with `carry` left from the
chunks before. -/
def kept [DecidableEq α] (nl : α) (carry : List α) :
    List (List α) → List (List α)
  | [] => []
  | c :: cs =>
      let r := splitLines nl (carry ++ c)
      r.1 ++ kept nl (if r.1 = [] then [] else r.2) cs

section Spans

variable {cs ds : List (List α)} {sp : List (ℕ × ℕ)} {s : ℕ × ℕ}
variable {t a b b' : ℕ}

theorem spans_append :
    spans t (cs ++ ds) = spans t cs ++ spans (t + cs.flatten.length) ds := by
  induction cs generalizing t with
  | nil => simp [spans]
  | cons c cs ih => simp [spans, ih, Nat.add_assoc]

theorem le_of_mem_spans (h : s ∈ spans t cs) :
    s.1 ≤ s.2 ∧ s.2 ≤ t + cs.flatten.length := by
  induction cs generalizing t with
  | nil => simp [spans] at h
  | cons c cs ih =>
      simp only [spans, List.mem_cons] at h
      simp only [List.flatten_cons, List.length_append]
      rcases h with rfl | h
      · dsimp only
        omega
      · have := ih h
        omega

theorem lastCut_concat :
    lastCut (sp ++ [s]) a b =
      if a ≤ s.1 ∧ s.2 ≤ b then s.2 else lastCut sp a b := by
  simp [lastCut]

theorem lastCut_congr (b' : ℕ) (h : ∀ s ∈ sp, s.2 ≤ b ↔ s.2 ≤ b') :
    lastCut sp a b = lastCut sp a b' := by
  induction sp using List.reverseRecOn with
  | nil => rfl
  | append_singleton sp s ih =>
      rw [lastCut_concat, lastCut_concat, ih fun x hx => h x (by simp [hx])]
      simp only [h s (by simp)]

theorem lastCut_eq_self (h : ∀ s ∈ sp, s.1 < a) : lastCut sp a b = a := by
  induction sp using List.reverseRecOn with
  | nil => rfl
  | append_singleton sp s ih =>
      have hs := h s (by simp)
      rw [lastCut_concat, if_neg (by omega), ih fun x hx => h x (by simp [hx])]

theorem lastCut_le (h : a ≤ b) : lastCut sp a b ≤ b := by
  induction sp using List.reverseRecOn with
  | nil => exact h
  | append_singleton sp s ih =>
      rw [lastCut_concat]
      split
      · next hs => exact hs.2
      · exact ih

end Spans

section Remains

variable {nl : α} {ls ms : List (List α)} {sp : List (ℕ × ℕ)} {a t e : ℕ}

theorem remains_append :
    remains sp a (ls ++ ms) =
      remains sp a ls ++ remains sp (a + (unlines nl ls).length) ms := by
  induction ls generalizing a with
  | nil => simp [remains]
  | cons l ls ih =>
      have hstart : a + l.length + 1 + (unlines nl ls).length =
          a + (unlines nl (l :: ls)).length := by
        simp only [unlines_cons, List.length_append, List.length_cons]
        omega
      rw [List.cons_append, remains, remains, ih, hstart, List.cons_append]

/-- A later chunk does not matter to lines that have ended. -/
theorem remains_concat (nl : α) (ht : a + (unlines nl ls).length ≤ t)
    (he : t ≤ e) :
    remains (sp ++ [(t, e)]) a ls = remains sp a ls := by
  induction ls generalizing a with
  | nil => rfl
  | cons l ls ih =>
      simp only [unlines_cons, List.length_append, List.length_cons] at ht
      rw [remains, remains, ih (by omega), lastCut_concat, if_neg (by
        dsimp only
        omega)]

/-- No earlier chunk falls inside of lines that begin later. -/
theorem remains_eq_self (ls : List (List α)) (h : ∀ s ∈ sp, s.1 < a) :
    remains sp a ls = ls := by
  induction ls generalizing a with
  | nil => rfl
  | cons l ls ih =>
      rw [remains, lastCut_eq_self h, Nat.sub_self, List.drop_zero,
        ih fun s hs => Nat.lt_of_lt_of_le (h s hs) (by omega)]

/-- Each line that remains is the end of a line. -/
theorem suffix_of_mem_remains {l : List α} (h : l ∈ remains sp a ls) :
    ∃ l' ∈ ls, l <:+ l' := by
  induction ls generalizing a with
  | nil => simp [remains] at h
  | cons m ls ih =>
      rcases List.mem_cons.mp h with rfl | h
      · exact ⟨m, List.mem_cons_self, List.drop_suffix ..⟩
      · obtain ⟨l', hl', hsuffix⟩ := ih h
        exact ⟨l', List.mem_cons_of_mem m hl', hsuffix⟩

end Remains

section Kept

variable [DecidableEq α] {nl : α} {done todo ls all : List (List α)}
variable {tail tail' : List α}

/-- What the reader has of the line that has not ended. -/
def carried (nl : α) (done ls : List (List α)) (tail : List α) : List α :=
  tail.drop (lastCut (spans 0 done) (unlines nl ls).length
    done.flatten.length - (unlines nl ls).length)

/-- The reader takes the chunk `c`. -/
theorem kept_step {c : List α} (h : Lines nl done.flatten ls tail) :
    ∃ ms tail', Lines nl (done ++ [c]).flatten (ls ++ ms) tail' ∧
      remains (spans 0 (done ++ [c])) 0 (ls ++ ms) =
        remains (spans 0 done) 0 ls ++
          (splitLines nl (carried nl done ls tail ++ c)).1 ∧
      carried nl (done ++ [c]) (ls ++ ms) tail' =
        if (splitLines nl (carried nl done ls tail ++ c)).1 = [] then []
        else (splitLines nl (carried nl done ls tail ++ c)).2 := by
  have hlen : done.flatten.length = (unlines nl ls).length + tail.length := by
    rw [h.eq, List.length_append]
  have hflat : (done ++ [c]).flatten = done.flatten ++ c := by simp
  have hspans : spans 0 (done ++ [c]) = spans 0 done ++
      [(done.flatten.length, done.flatten.length + c.length)] := by
    simp [spans_append, spans]
  have hspan : ∀ s ∈ spans 0 done, s.1 ≤ s.2 ∧ s.2 ≤ done.flatten.length := by
    intro s hs
    simpa using le_of_mem_spans hs
  have hcarry : nl ∉ carried nl done ls tail := fun hmem =>
    h.unfinished (List.mem_of_mem_drop hmem)
  have hsplit := lines_splitLines nl (carried nl done ls tail ++ c)
  rw [hflat, hspans]
  by_cases hc : nl ∈ c
  · -- The line ends in `c`, and the lines behind it begin there.
    obtain ⟨l, ms, hls, hafter⟩ :=
      exists_lines_append h.unfinished hc (lines_splitLines nl c)
    obtain ⟨l', ms', hls', hkept⟩ :=
      exists_lines_append hcarry hc (lines_splitLines nl c)
    obtain ⟨rfl, rfl⟩ := List.cons.inj (hls.symm.trans hls')
    obtain ⟨hfst, hsnd⟩ := hsplit.unique hkept
    have hshort : l.length < c.length := by
      have := congrArg List.length (lines_splitLines nl c).eq
      simp only [hls, unlines_cons, List.length_append, List.length_cons] at this
      omega
    have hstart : ∀ s ∈ spans 0 done ++
        [(done.flatten.length, done.flatten.length + c.length)],
        s.1 ≤ done.flatten.length := by
      intro s hs
      rcases List.mem_append.mp hs with hs | hs
      · exact (hspan s hs).1.trans (hspan s hs).2
      · rw [List.mem_singleton.mp hs]
    refine ⟨_, _, h.append hafter, ?_, ?_⟩
    · have hhead : (tail ++ l).drop (lastCut (spans 0 done ++
          [(done.flatten.length, done.flatten.length + c.length)])
          (unlines nl ls).length
          ((unlines nl ls).length + (tail ++ l).length) -
            (unlines nl ls).length) = carried nl done ls tail ++ l := by
        rw [List.length_append, lastCut_concat, if_neg (by
            dsimp only
            omega),
          lastCut_congr done.flatten.length fun s hs => by
            have := hspan s hs
            omega]
        have hcut : lastCut (spans 0 done) (unlines nl ls).length
            done.flatten.length ≤ done.flatten.length :=
          lastCut_le (by omega)
        exact List.drop_append_of_le_length (by omega)
      rw [hfst, remains_append, remains_concat nl (by omega) (by omega), remains,
        Nat.zero_add, hhead, remains_eq_self ms]
      intro s hs
      have := hstart s hs
      rw [List.length_append]
      omega
    · rw [hfst, hsnd, if_neg (List.cons_ne_nil _ _), carried, hspans,
        lastCut_eq_self, Nat.sub_self, List.drop_zero]
      intro s hs
      have := hstart s hs
      simp only [unlines_append, unlines_cons, List.length_append,
        List.length_cons]
      omega
  · have hnone : nl ∉ carried nl done ls tail ++ c := by
      simpa only [List.mem_append, not_or] using And.intro hcarry hc
    have hfst := (hsplit.unique (.of_not_mem hnone)).1
    have hopen : nl ∉ tail ++ c := by
      simpa only [List.mem_append, not_or] using And.intro h.unfinished hc
    refine ⟨[], tail ++ c, h.append (.of_not_mem hopen), ?_, ?_⟩
    · rw [hfst, List.append_nil, List.append_nil,
        remains_concat nl (by omega) (by omega)]
    · rw [hfst, if_pos rfl, List.append_nil, carried, hspans, hflat,
        lastCut_concat, if_pos (by
          rw [List.length_append]
          omega)]
      apply List.drop_eq_nil_of_le
      rw [List.length_append]
      omega

/-- The reader has what the chunks inside of the lines leave. -/
theorem kept_eq (h : Lines nl done.flatten ls tail)
    (hall : Lines nl (done ++ todo).flatten all tail') :
    remains (spans 0 (done ++ todo)) 0 all =
      remains (spans 0 done) 0 ls ++ kept nl (carried nl done ls tail) todo := by
  induction todo generalizing done ls tail with
  | nil =>
      rw [List.append_nil] at hall ⊢
      rw [(hall.unique h).1, kept, List.append_nil]
  | cons c todo ih =>
      obtain ⟨ms, tail₁, hnext, hremains, hcarried⟩ := kept_step (c := c) h
      have hsplit : done ++ c :: todo = done ++ [c] ++ todo := by simp
      rw [hsplit] at hall ⊢
      rw [ih hnext hall, hremains, hcarried, kept, List.append_assoc]

theorem kept_eq_remains {chunks : List (List α)}
    (h : Lines nl chunks.flatten ls tail) :
    kept nl [] chunks = remains (spans 0 chunks) 0 ls := by
  have hnil : Lines nl ([] : List (List α)).flatten [] [] := .nil
  exact (kept_eq hnil h).symm

/-- The reader has all of the lines if every chunk ends one. -/
theorem kept_eq_lines {carry : List α} {chunks : List (List α)}
    (hc : ∀ c ∈ chunks, nl ∈ c) (hcarry : nl ∉ carry)
    (h : Lines nl (carry ++ chunks.flatten) ls tail) :
    kept nl carry chunks = ls := by
  induction chunks generalizing carry ls tail with
  | nil =>
      rw [List.flatten_nil, List.append_nil] at h
      exact (h.unique (.of_not_mem hcarry)).1.symm
  | cons c chunks ih =>
      rw [List.forall_mem_cons] at hc
      have hfirst := lines_splitLines nl (carry ++ c)
      have hrest := lines_splitLines nl
        ((splitLines nl (carry ++ c)).2 ++ chunks.flatten)
      have hall := hfirst.append hrest
      rw [List.append_assoc, ← List.flatten_cons] at hall
      have hended : (splitLines nl (carry ++ c)).1 ≠ [] := by
        intro hnil
        have heq := hfirst.eq
        rw [hnil, unlines_nil, List.nil_append] at heq
        exact hfirst.unfinished (heq ▸ List.mem_append_right carry hc.1)
      rw [kept, if_neg hended, ih hc.2 hfirst.unfinished hrest,
        (h.unique hall).1]

theorem remains_eq_lines {chunks : List (List α)} (hc : ∀ c ∈ chunks, nl ∈ c)
    (h : Lines nl chunks.flatten ls tail) :
    remains (spans 0 chunks) 0 ls = ls := by
  rw [← kept_eq_remains h]
  exact kept_eq_lines hc (by simp) h

end Kept

end ZtlOs.Support
