import ZtlOs.Support.Views
import ZtlOs.User.Sh

/-!
# The tokens of a command line

`Tokens buf es s ts` says that `ts` are the tokens of the text from `s` up to
`es`.  It is the view of the cursor under which the parsing functions are
specified: `peek` does not change what is ahead, and `gettoken` takes the first
token of it.
-/

namespace ZtlOs.Sh

open ZtlOs.Support ZtlOs.Support.Program

inductive Token where
  | word (w : Span)
  | lt
  | gt
  /-- `>>` -/
  | append
  | bar
  | amp
  | semi
  | lparen
  | rparen
  deriving DecidableEq

/-- The first character of a symbol. -/
def Token.first : Token → Option (BitVec 8)
  | .word _ => none
  | .lt => some Sh.lt
  | .gt => some Sh.gt
  | .append => some Sh.gt
  | .bar => some Sh.bar
  | .amp => some Sh.amp
  | .semi => some Sh.semi
  | .lparen => some Sh.lparen
  | .rparen => some Sh.rparen

/-- What `gettoken` returns for a token. -/
def Token.code : Token → BitVec 8
  | .word _ => letter
  | .lt => Sh.lt
  | .gt => Sh.gt
  | .append => plus
  | .bar => Sh.bar
  | .amp => Sh.amp
  | .semi => Sh.semi
  | .lparen => Sh.lparen
  | .rparen => Sh.rparen

/-- A character of a word. -/
def IsWord (c : BitVec 8) : Prop :=
  c ∉ whitespace ∧ c ∉ symbols

instance : DecidablePred IsWord :=
  fun c => inferInstanceAs (Decidable (c ∉ whitespace ∧ c ∉ symbols))

/-- The tokens of the text from `s` up to `es`. -/
inductive Tokens (buf : Text) (es : ℕ) : ℕ → List Token → Prop where
  | done : Tokens buf es es []
  | blank {s : ℕ} {ts : List Token} (hs : s < es) (hc : buf s ∈ whitespace)
      (h : Tokens buf es (s + 1) ts) : Tokens buf es s ts
  | symbol {s : ℕ} {t : Token} {ts : List Token} (hs : s < es)
      (hc : t.first = some (buf s)) (hgt : buf s ≠ Sh.gt)
      (h : Tokens buf es (s + 1) ts) : Tokens buf es s (t :: ts)
  | gt {s : ℕ} {ts : List Token} (hs : s < es) (hc : buf s = Sh.gt)
      (hn : ¬(s + 1 < es ∧ buf (s + 1) = Sh.gt)) (h : Tokens buf es (s + 1) ts) :
      Tokens buf es s (.gt :: ts)
  | append {s : ℕ} {ts : List Token} (hs : s + 1 < es) (hc : buf s = Sh.gt)
      (hn : buf (s + 1) = Sh.gt) (h : Tokens buf es (s + 2) ts) :
      Tokens buf es s (.append :: ts)
  /-- A word is a maximal run of its characters. -/
  | word {s e : ℕ} {ts : List Token} (hlt : s < e) (he : e ≤ es)
      (hw : ∀ i, s ≤ i → i < e → IsWord (buf i))
      (hmax : e = es ∨ ¬IsWord (buf e)) (h : Tokens buf es e ts) :
      Tokens buf es s (.word ⟨s, e⟩ :: ts)

/-- The first NUL is at `es`. -/
structure Terminated (buf : Text) (es : ℕ) : Prop where
  nul : buf es = 0
  ne : ∀ i, i < es → buf i ≠ 0

/-- The first of the tokens is a symbol that begins with one of `toks`. -/
def Starts (toks : Str) (ts : List Token) : Prop :=
  ∃ t ∈ ts.head?, ∃ c ∈ toks, t.first = some c

/-! ## Characters -/

@[simp] theorem isIn_iff {s : Str} {c : BitVec 8} : isIn s c = true ↔ c ∈ s := by
  induction s with
  | nil => simp [isIn, Ulib.strchr]
  | cons x s ih =>
      by_cases hx : x = c
      · simp [isIn, Ulib.strchr, hx]
      · have hne : c ≠ x := fun h => hx h.symm
        simpa [isIn, Ulib.strchr, hx, hne] using ih

theorem isIn_eq_false {s : Str} {c : BitVec 8} : isIn s c = false ↔ c ∉ s := by
  rw [← Bool.not_eq_true, isIn_iff]

theorem word_iff {c : BitVec 8} :
    (!isIn whitespace c && !isIn symbols c) = true ↔ IsWord c := by
  simp [IsWord, isIn_eq_false]

theorem not_blank_of_symbol {c : BitVec 8} (h : c ∈ symbols) :
    c ∉ whitespace := by
  simp only [symbols, List.mem_cons, List.not_mem_nil, or_false] at h
  rcases h with rfl | rfl | rfl | rfl | rfl | rfl | rfl <;> decide

theorem Token.first_mem {t : Token} {c : BitVec 8} (h : t.first = some c) :
    c ∈ symbols := by
  cases t <;> simp only [Token.first, Option.some.injEq, reduceCtorEq] at h <;>
    subst h <;> decide

@[simp] theorem not_starts_nil (toks : Str) : ¬Starts toks [] := by
  simp [Starts]

@[simp] theorem starts_cons {toks : Str} {t : Token} {ts : List Token} :
    Starts toks (t :: ts) ↔ ∃ c ∈ toks, t.first = some c := by
  simp [Starts]

/-! ## The loops -/

section Scan

variable {p : BitVec 8 → Bool} {buf : Text} {es s e : ℕ}

theorem scan_of_true (hs : s < es) (h : p (buf s) = true) :
    scan p buf es s = scan p buf es (s + 1) := by
  obtain ⟨n, hn⟩ : ∃ n, es - s = n + 1 := ⟨es - s - 1, by omega⟩
  have hn' : es - (s + 1) = n := by omega
  simp [scan, hn, hn', scanFrom, h]

theorem scan_of_false (h : p (buf s) = false) : scan p buf es s = s := by
  unfold scan
  cases es - s with
  | zero => rfl
  | succ n => simp [scanFrom, h]

theorem scan_end : scan p buf es es = es := by
  simp [scan, scanFrom]

/-- The loop stops behind a run that cannot be made longer. -/
theorem scan_eq (hse : s ≤ e) (he : e ≤ es)
    (hp : ∀ i, s ≤ i → i < e → p (buf i) = true)
    (hmax : e = es ∨ p (buf e) = false) : scan p buf es s = e := by
  induction hn : e - s generalizing s with
  | zero =>
      obtain rfl : s = e := by omega
      rcases hmax with rfl | hmax
      · exact scan_end
      · exact scan_of_false hmax
  | succ n ih =>
      rw [scan_of_true (by omega) (hp s le_rfl (by omega))]
      exact ih (by omega) (fun i hi hlt => hp i (by omega) hlt) (by omega)

variable (p buf) in
/-- There is a longest run from `s` on. -/
theorem exists_run (hs : s ≤ es) :
    ∃ e, s ≤ e ∧ e ≤ es ∧ (∀ i, s ≤ i → i < e → p (buf i) = true) ∧
      (e = es ∨ p (buf e) = false) := by
  induction hn : es - s generalizing s with
  | zero => exact ⟨es, hs, le_rfl, by omega, .inl rfl⟩
  | succ n ih =>
      cases hp : p (buf s) with
      | false => exact ⟨s, le_rfl, hs, by omega, .inr hp⟩
      | true =>
          obtain ⟨e, hse, he, hrun, hmax⟩ := ih (s := s + 1) (by omega) (by omega)
          refine ⟨e, by omega, he, fun i hi hlt => ?_, hmax⟩
          by_cases his : i = s
          · rw [his]
            exact hp
          · exact hrun i (by omega) hlt

end Scan

section

variable {buf : Text} {es s : ℕ} {ts us : List Token}

/-- The whitespace in front of a token. -/
theorem Tokens.skip (h : Tokens buf es s ts) :
    Tokens buf es (scan (isIn whitespace) buf es s) ts := by
  induction h with
  | done =>
      rw [scan_end]
      exact .done
  | blank hs hc _ ih =>
      rw [scan_of_true hs (isIn_iff.mpr hc)]
      exact ih
  | symbol hs hc hgt h =>
      have hblank := isIn_eq_false.mpr (not_blank_of_symbol (Token.first_mem hc))
      rw [scan_of_false hblank]
      exact .symbol hs hc hgt h
  | gt hs hc hn h =>
      rw [scan_of_false (by rw [hc]; decide)]
      exact .gt hs hc hn h
  | append hs hc hn h =>
      rw [scan_of_false (by rw [hc]; decide)]
      exact .append hs hc hn h
  | word hlt he hw hmax h =>
      rw [scan_of_false (isIn_eq_false.mpr (hw _ le_rfl hlt).1)]
      exact .word hlt he hw hmax h

theorem Tokens.le (h : Tokens buf es s ts) : s ≤ es := by
  induction h <;> omega

theorem scan_max {p : BitVec 8 → Bool} (hs : s ≤ es) :
    scan p buf es s = es ∨ p (buf (scan p buf es s)) = false := by
  obtain ⟨e, hse, he, hp, hmax⟩ := exists_run p buf hs
  rw [scan_eq hse he hp hmax]
  exact hmax

/-- Behind whitespace comes a token, or the end. -/
theorem Tokens.lead (h : Tokens buf es s ts) :
    scan (isIn whitespace) buf es s = es ∨
      buf (scan (isIn whitespace) buf es s) ∉ whitespace :=
  (scan_max h.le).imp_right isIn_eq_false.mp

/-! ## Peeking -/

theorem peek_eq (hb : Terminated buf es) {toks : Str} (hsym : toks ⊆ symbols)
    (h : Tokens buf es s ts) (hlead : s = es ∨ buf s ∉ whitespace) :
    (decide (buf s ≠ 0) && isIn toks (buf s)) = true ↔ Starts toks ts := by
  simp only [Bool.and_eq_true, decide_eq_true_eq, isIn_iff]
  cases h with
  | done => simp [hb.nul]
  | blank hs hc _ =>
      rcases hlead with rfl | hlead
      · omega
      · exact absurd hc hlead
  | symbol hs hc _ _ =>
      have hne := hb.ne s hs
      simpa [hc] using fun _ => hne
  | gt hs hc _ _ =>
      have hne : gt ≠ 0 := by decide
      simpa [Token.first, hc] using fun _ => hne
  | append hs hc _ _ =>
      have hne : gt ≠ 0 := by decide
      simpa [Token.first, hc] using fun _ => hne
  | word hlt he hw _ _ =>
      have hnot : buf s ∉ toks := fun hmem => (hw s le_rfl hlt).2 (hsym hmem)
      simp [Token.first, hnot]

theorem peek_reads (hb : Terminated buf es) {toks : Str}
    (hsym : toks ⊆ symbols) :
    Reads (Tokens buf es) ts (peek buf es toks)
      (fun b us => us = ts ∧ (b = true ↔ Starts toks ts)) fun _ => False := by
  refine ⟨fun s hs => .bind (Sat.get (.bind (Sat.set (Sat.pure ?_))))⟩
  exact ⟨ts, hs.skip, rfl, peek_eq hb hsym hs.skip hs.lead⟩

/-- The two branches behind a `peek`. -/
theorem reads_peek {α : Type} {x y : Parser α} {Q : α → List Token → Prop}
    {E : Stop → Prop} (hb : Terminated buf es) {toks : Str}
    (hsym : toks ⊆ symbols)
    (hx : Starts toks ts → Reads (Tokens buf es) ts x Q E)
    (hy : ¬Starts toks ts → Reads (Tokens buf es) ts y Q E) :
    Reads (Tokens buf es) ts
      (peek buf es toks >>= fun b => if b = true then x else y) Q E := by
  have hpeek : Reads (Tokens buf es) ts (peek buf es toks)
      (fun b us => us = ts ∧ (b = true ↔ Starts toks ts)) E :=
    (peek_reads hb hsym).mono (fun _ _ h => h) fun _ he => he.elim
  refine hpeek.bind fun b us h => ?_
  obtain ⟨rfl, hiff⟩ := h
  exact Reads.ite (fun hbt => hx (hiff.mp hbt)) fun hbf => hy (mt hiff.mpr hbf)

/-! ## Taking a token -/

theorem classify_single {c : BitVec 8} (hc : buf s = c)
    (h : c ∈ [Sh.bar, Sh.lparen, Sh.rparen, Sh.semi, Sh.amp, Sh.lt]) :
    classify buf es s = (c, s + 1) := by
  simp only [List.mem_cons, List.not_mem_nil, or_false] at h
  have hne : c ≠ 0 := by
    rcases h with rfl | rfl | rfl | rfl | rfl | rfl <;> decide
  simp only [classify, hc, if_neg hne, if_pos h]

theorem classify_gt (hc : buf s = gt) :
    classify buf es s =
      if buf (s + 1) = gt then (plus, s + 2) else (gt, s + 1) := by
  have hne : gt ≠ 0 := by decide
  have hother : ¬(gt = Sh.bar ∨ gt = Sh.lparen ∨ gt = Sh.rparen ∨ gt = Sh.semi ∨
      gt = Sh.amp ∨ gt = Sh.lt) := by decide
  simp only [classify, hc, if_neg hne, if_neg hother, if_true]

theorem classify_word {e : ℕ} (hne : buf s ≠ 0) (hlt : s < e) (he : e ≤ es)
    (hw : ∀ i, s ≤ i → i < e → IsWord (buf i))
    (hmax : e = es ∨ ¬IsWord (buf e)) : classify buf es s = (letter, e) := by
  have hsym := (hw s le_rfl hlt).2
  simp only [symbols, List.mem_cons, List.not_mem_nil, or_false, not_or] at hsym
  obtain ⟨h1, h2, h3, h4, h5, h6, h7⟩ := hsym
  simp only [classify, hne, h1, h2, h3, h4, h5, h6, h7, or_self, if_false,
    Prod.mk.injEq, true_and]
  exact scan_eq hlt.le he (fun i hi hie => word_iff.mpr (hw i hi hie))
    (hmax.imp_right fun h => Bool.eq_false_of_not_eq_true (mt word_iff.mp h))

/-- What `gettoken` does where a token begins. -/
theorem classify_cons (hb : Terminated buf es) {t : Token}
    (h : Tokens buf es s (t :: ts)) (hlead : s = es ∨ buf s ∉ whitespace) :
    (classify buf es s).1 = t.code ∧ Tokens buf es (classify buf es s).2 ts ∧
      ∀ w, t = .word w → ⟨s, (classify buf es s).2⟩ = w := by
  cases h with
  | blank hs hc _ =>
      rcases hlead with rfl | hlead
      · omega
      · exact absurd hc hlead
  | symbol hs hc hgt h =>
      cases t with
      | word w => cases hc
      | gt => exact absurd (Option.some.inj hc).symm hgt
      | append => exact absurd (Option.some.inj hc).symm hgt
      | _ =>
          rw [classify_single (Option.some.inj hc).symm (by decide)]
          exact ⟨rfl, h, fun w hw => by cases hw⟩
  | gt hs hc hn h =>
      have hnext : buf (s + 1) ≠ gt := by
        intro hgt
        have hend : s + 1 = es := by
          by_contra hne
          exact hn ⟨by omega, hgt⟩
        rw [hend, hb.nul] at hgt
        revert hgt
        decide
      rw [classify_gt hc, if_neg hnext]
      exact ⟨rfl, h, fun w hw => by cases hw⟩
  | append hs hc hn h =>
      rw [classify_gt hc, if_pos hn]
      exact ⟨rfl, h, fun w hw => by cases hw⟩
  | word hlt he hw hmax h =>
      rw [classify_word (hb.ne s (by omega)) hlt he hw hmax]
      exact ⟨rfl, h, fun w hw => Token.word.inj hw⟩

theorem classify_nil (hb : Terminated buf es) (h : Tokens buf es s [])
    (hlead : s = es ∨ buf s ∉ whitespace) : classify buf es s = (0, es) := by
  cases h with
  | done => simp [classify, hb.nul]
  | blank hs hc _ =>
      rcases hlead with rfl | hlead
      · omega
      · exact absurd hc hlead

/-- The first token of what is ahead is taken. -/
theorem reads_gettoken {α : Type} {f : Got → Parser α} {Q : α → List Token → Prop}
    {E : Stop → Prop} (hb : Terminated buf es) {t : Token}
    (h : ∀ q, (∀ w, t = .word w → q = w) →
      Reads (Tokens buf es) ts (f ⟨t.code, q⟩) Q E) :
    Reads (Tokens buf es) (t :: ts) (gettoken buf es >>= f) Q E := by
  have htake : Reads (Tokens buf es) (t :: ts) (gettoken buf es)
      (fun g us => us = ts ∧ g.tok = t.code ∧ ∀ w, t = .word w → g.span = w)
      E := by
    refine ⟨fun s hs => .bind (Sat.get (.bind (Sat.set (Sat.pure ?_))))⟩
    obtain ⟨hcode, hts, hw⟩ := classify_cons hb hs.skip hs.lead
    exact ⟨ts, hts.skip, rfl, hcode, hw⟩
  refine htake.bind fun g us hg => ?_
  obtain ⟨tok, q⟩ := g
  obtain ⟨rfl, rfl, hw⟩ := hg
  exact h q hw

/-- At the end of the text there is no token. -/
theorem reads_gettoken_nil {α : Type} {f : Got → Parser α}
    {Q : α → List Token → Prop} {E : Stop → Prop} (hb : Terminated buf es)
    (h : ∀ q, Reads (Tokens buf es) [] (f ⟨0, q⟩) Q E) :
    Reads (Tokens buf es) [] (gettoken buf es >>= f) Q E := by
  have htake : Reads (Tokens buf es) [] (gettoken buf es)
      (fun g us => us = [] ∧ g.tok = 0) E := by
    refine ⟨fun s hs => .bind (Sat.get (.bind (Sat.set (Sat.pure ?_))))⟩
    have hend := classify_nil hb hs.skip hs.lead
    refine ⟨[], ?_, rfl, ?_⟩
    · rw [hend, scan_end]
      exact .done
    · rw [hend]
  refine htake.bind fun g us hg => ?_
  obtain ⟨tok, q⟩ := g
  obtain ⟨rfl, rfl⟩ := hg
  exact h q

/-! ## Every text has its tokens -/

theorem Token.code_ne_zero (t : Token) : t.code ≠ 0 := by
  cases t <;> simp only [Token.code] <;> decide

/-- The result of `gettoken` tells the symbols apart. -/
theorem Token.eq_of_code {t u : Token} (h : t.code = u.code)
    (hw : ∀ w w', t = .word w → u = .word w' → w = w') : t = u := by
  cases t <;> cases u <;> first
    | rfl
    | exact congrArg Token.word (hw _ _ rfl rfl)
    | exact absurd h (by simp only [Token.code]; decide)

/-- The tokens of a text are determined by it. -/
theorem Tokens.unique (hb : Terminated buf es) (h : Tokens buf es s ts)
    (h' : Tokens buf es s us) : ts = us := by
  induction ts generalizing s us with
  | nil =>
      have hnil := classify_nil hb h.skip h.lead
      cases us with
      | nil => rfl
      | cons u us =>
          have hu := (classify_cons hb h'.skip h'.lead).1
          rw [hnil] at hu
          exact absurd hu.symm u.code_ne_zero
  | cons t ts ih =>
      obtain ⟨ht, hts, hword⟩ := classify_cons hb h.skip h.lead
      cases us with
      | nil =>
          rw [classify_nil hb h'.skip h'.lead] at ht
          exact absurd ht.symm t.code_ne_zero
      | cons u us =>
          obtain ⟨hu, hus, hword'⟩ := classify_cons hb h'.skip h'.lead
          have heq : t = u := Token.eq_of_code (ht.symm.trans hu)
            fun w w' hw hw' => (hword w hw).symm.trans (hword' w' hw')
          rw [heq, ih hts hus]

theorem exists_symbol {c : BitVec 8} (hc : c ∈ symbols) (hgt : c ≠ gt) :
    ∃ t : Token, t.first = some c := by
  simp only [symbols, List.mem_cons, List.not_mem_nil, or_false] at hc
  rcases hc with rfl | rfl | rfl | rfl | rfl | rfl | rfl
  · exact ⟨.lt, rfl⟩
  · exact ⟨.bar, rfl⟩
  · exact ⟨.gt, rfl⟩
  · exact ⟨.amp, rfl⟩
  · exact ⟨.semi, rfl⟩
  · exact ⟨.lparen, rfl⟩
  · exact ⟨.rparen, rfl⟩

variable (buf) in
/-- Every text has tokens. -/
theorem Tokens.exists (hs : s ≤ es) : ∃ ts, Tokens buf es s ts := by
  induction hn : es - s using Nat.strong_induction_on generalizing s with
  | _ n ih =>
      by_cases hend : s = es
      · rw [hend]
        exact ⟨[], .done⟩
      have hlt : s < es := by omega
      by_cases hblank : buf s ∈ whitespace
      · obtain ⟨ts, h⟩ := ih (es - (s + 1)) (by omega) hlt rfl
        exact ⟨ts, .blank hlt hblank h⟩
      by_cases hgt : buf s = Sh.gt
      · by_cases hnext : s + 1 < es ∧ buf (s + 1) = Sh.gt
        · obtain ⟨ts, h⟩ := ih (es - (s + 2)) (by omega) hnext.1 rfl
          exact ⟨.append :: ts, .append hnext.1 hgt hnext.2 h⟩
        · obtain ⟨ts, h⟩ := ih (es - (s + 1)) (by omega) hlt rfl
          exact ⟨.gt :: ts, .gt hlt hgt hnext h⟩
      by_cases hsym : buf s ∈ symbols
      · obtain ⟨t, ht⟩ := exists_symbol hsym hgt
        obtain ⟨ts, h⟩ := ih (es - (s + 1)) (by omega) hlt rfl
        exact ⟨t :: ts, .symbol hlt ht hgt h⟩
      · obtain ⟨e, hse, he, hrun, hmax⟩ := exists_run
          (fun c => !isIn whitespace c && !isIn symbols c) buf hs
        have hpos : s ≠ e := by
          rintro rfl
          rcases hmax with hmax | hmax
          · exact hend hmax
          · exact absurd (word_iff.mpr ⟨hblank, hsym⟩) (by rw [hmax]; simp)
        obtain ⟨ts, h⟩ := ih (es - e) (by omega) he rfl
        refine ⟨.word ⟨s, e⟩ :: ts, .word (by omega) he
          (fun i hi hie => word_iff.mp (hrun i hi hie)) ?_ h⟩
        refine hmax.imp_right fun hmax hw => ?_
        exact absurd (word_iff.mpr hw) (by rw [hmax]; simp)

/-- A text has at most as many tokens as characters. -/
theorem Tokens.length_le (h : Tokens buf es s ts) : s + ts.length ≤ es := by
  induction h with
  | done => exact le_rfl
  | blank _ _ _ ih => omega
  | symbol _ _ _ _ ih => rw [List.length_cons]; omega
  | gt _ _ _ _ ih => rw [List.length_cons]; omega
  | append _ _ _ _ ih => rw [List.length_cons]; omega
  | word _ _ _ _ _ ih => rw [List.length_cons]; omega

end

theorem terminated_text (line : Str) : Terminated (text line) (strlen line) := by
  induction line with
  | nil => exact ⟨rfl, fun i hi => absurd hi (Nat.not_lt_zero i)⟩
  | cons c s ih =>
      by_cases hc : c = 0
      · refine ⟨?_, ?_⟩ <;> simp [strlen, text, hc]
      · rw [strlen, if_neg hc]
        refine ⟨by simpa [text] using ih.nul, fun i hi => ?_⟩
        cases i with
        | zero => simpa [text] using hc
        | succ i => simpa [text] using ih.ne i (by omega)

end ZtlOs.Sh
