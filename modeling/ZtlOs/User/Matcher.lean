import Mathlib.Data.BitVec
import Mathlib.Data.List.Basic
import Mathlib.Tactic.Common

/-!
# The matcher of grep

A pointer into a NUL-terminated string is given by the bytes from it up to the
NUL.  A pattern is a sequence of items, and the matcher finds a part of the text
that the items match one after the other.
-/

namespace ZtlOs.Grep

/-- The bytes of a string before its NUL. -/
abbrev Str := List (BitVec 8)

def caret : BitVec 8 := 0x5e
def dollar : BitVec 8 := 0x24
def dot : BitVec 8 := 0x2e
def star : BitVec 8 := 0x2a

/-- The loop of `matchstar`; `here` is `matchhere` for the pattern `re`. -/
def starLoop (here : Str → Bool) (c : BitVec 8) : Str → Bool
  | [] => here []
  | t :: text =>
      here (t :: text) || (decide (t = c ∨ c = dot) && starLoop here c text)

/-- Search for `re` at beginning of `text`. -/
def matchhere : Str → Str → Bool
  | [], _ => true
  | [c], text =>
      if c = dollar then text.isEmpty
      else
        match text with
        | [] => false
        | t :: _ => decide (c = dot ∨ c = t)
  | c :: d :: re, text =>
      if d = star then starLoop (matchhere re) c text
      else
        match text with
        | [] => false
        | t :: text => decide (c = dot ∨ c = t) && matchhere (d :: re) text

/-- Search for `c*re` at beginning of `text`. -/
def matchstar (c : BitVec 8) (re : Str) : Str → Bool :=
  starLoop (matchhere re) c

/-- The loop of `match` over the suffixes of the text. -/
def matchLoop (re : Str) : Str → Bool
  | [] => matchhere re []  -- must look at empty string
  | t :: text => matchhere re (t :: text) || matchLoop re text

/-- `match` of `grep.c`. -/
def matchText : Str → Str → Bool
  | [], text => matchLoop [] text
  | c :: re, text =>
      if c = caret then matchhere re text else matchLoop (c :: re) text

/-! ## The pattern language -/

/-- What a pattern is made of. -/
inductive Item where
  /-- `c*`, any number of times. -/
  | star (c : BitVec 8)
  /-- A final `$`. -/
  | eot
  /-- `.` -/
  | any
  | char (c : BitVec 8)
  deriving DecidableEq

/-- `.` or a character that stands for itself. -/
def Item.ofChar (c : BitVec 8) : Item :=
  if c = dot then .any else .char c

/-- A pattern read as a sequence of items. -/
def items : Str → List Item
  | [] => []
  | [c] => if c = dollar then [.eot] else [.ofChar c]
  | c :: d :: re =>
      if d = star then .star c :: items re else .ofChar c :: items (d :: re)

/-- The items match `mid`, where the text goes on with `post`. -/
inductive Matches : List Item → Str → Str → Prop where
  | nil {post} : Matches [] [] post
  | star {c is rep mid post} (hrep : ∀ t ∈ rep, c = dot ∨ t = c) :
      Matches is mid post → Matches (.star c :: is) (rep ++ mid) post
  | eot {is} : Matches is [] [] → Matches (.eot :: is) [] []
  | any {t is mid post} :
      Matches is mid post → Matches (.any :: is) (t :: mid) post
  | char {c is mid post} :
      Matches is mid post → Matches (.char c :: is) (c :: mid) post

/-- The items match some beginning of the text. -/
def MatchesPrefix (is : List Item) (text : Str) : Prop :=
  ∃ mid post, text = mid ++ post ∧ Matches is mid post

/-- The pattern begins with `^`. -/
def Anchored (re : Str) : Prop := re.head? = some caret

instance (re : Str) : Decidable (Anchored re) :=
  inferInstanceAs (Decidable (_ = _))

/-- The pattern without a `^` at its start. -/
def body (re : Str) : Str :=
  if Anchored re then re.tail else re

/-! ## One item after the other -/

section Prefix

variable {is : List Item} {text : Str} {c : BitVec 8}

theorem matchesPrefix_nil : MatchesPrefix [] text :=
  ⟨[], text, rfl, .nil⟩

theorem matchesPrefix_star :
    MatchesPrefix (.star c :: is) text ↔
      ∃ rep rest, text = rep ++ rest ∧ (∀ t ∈ rep, c = dot ∨ t = c) ∧
        MatchesPrefix is rest := by
  constructor
  · rintro ⟨_, post, rfl, h⟩
    cases h with
    | star hrep h =>
        exact ⟨_, _, List.append_assoc .., hrep, _, post, rfl, h⟩
  · rintro ⟨rep, _, rfl, hrep, mid, post, rfl, h⟩
    exact ⟨rep ++ mid, post, (List.append_assoc ..).symm, .star hrep h⟩

theorem matchesPrefix_eot : MatchesPrefix [.eot] text ↔ text = [] := by
  constructor
  · rintro ⟨_, _, rfl, h⟩
    cases h
    rfl
  · rintro rfl
    exact ⟨[], [], rfl, .eot .nil⟩

/-- A character or `.` takes one character of the text. -/
theorem matchesPrefix_ofChar :
    MatchesPrefix (.ofChar c :: is) text ↔
      ∃ t rest, text = t :: rest ∧ (c = dot ∨ c = t) ∧
        MatchesPrefix is rest := by
  by_cases hc : c = dot
  · simp only [Item.ofChar, if_pos hc]
    constructor
    · rintro ⟨_, post, rfl, h⟩
      cases h with
      | any h => exact ⟨_, _, rfl, .inl hc, _, post, rfl, h⟩
    · rintro ⟨t, _, rfl, -, mid, post, rfl, h⟩
      exact ⟨t :: mid, post, rfl, .any h⟩
  · simp only [Item.ofChar, if_neg hc]
    constructor
    · rintro ⟨_, post, rfl, h⟩
      cases h with
      | char h => exact ⟨_, _, rfl, .inr rfl, _, post, rfl, h⟩
    · rintro ⟨t, _, rfl, hct, mid, post, rfl, h⟩
      obtain rfl := hct.resolve_left hc
      exact ⟨c :: mid, post, rfl, .char h⟩

end Prefix

/-! ## The matcher decides the language -/

section Matcher

variable {re text : Str} {c : BitVec 8}

/-- The loop of `matchstar` tries every number of repetitions. -/
theorem starLoop_iff {here : Str → Bool} :
    starLoop here c text = true ↔
      ∃ rep rest, text = rep ++ rest ∧ (∀ t ∈ rep, c = dot ∨ t = c) ∧
        here rest = true := by
  induction text with
  | nil =>
      simp only [starLoop]
      constructor
      · intro h
        exact ⟨[], [], rfl, by simp, h⟩
      · rintro ⟨rep, rest, heq, -, h⟩
        obtain ⟨-, rfl⟩ := List.append_eq_nil_iff.mp heq.symm
        exact h
  | cons t text ih =>
      simp only [starLoop, Bool.or_eq_true, Bool.and_eq_true,
        decide_eq_true_eq, ih]
      constructor
      · rintro (h | ⟨ht, rep, rest, rfl, hrep, h⟩)
        · exact ⟨[], t :: text, rfl, by simp, h⟩
        · refine ⟨t :: rep, rest, rfl, ?_, h⟩
          simpa only [List.forall_mem_cons] using And.intro ht.symm hrep
      · rintro ⟨rep, rest, heq, hrep, h⟩
        cases rep with
        | nil =>
            rw [List.nil_append] at heq
            exact .inl (heq ▸ h)
        | cons r rep =>
            obtain ⟨rfl, rfl⟩ := List.cons.inj heq
            rw [List.forall_mem_cons] at hrep
            exact .inr ⟨hrep.1.symm, rep, rest, rfl, hrep.2, h⟩

/-- `matchhere` finds the items at the beginning of the text. -/
theorem matchhere_iff :
    matchhere re text = true ↔ MatchesPrefix (items re) text := by
  induction re using items.induct generalizing text with
  | case1 =>
      simp only [matchhere, items]
      exact iff_of_true trivial matchesPrefix_nil
  | case2 =>
      simp only [matchhere, items, if_true, matchesPrefix_eot,
        List.isEmpty_iff]
  | case3 c hc =>
      simp only [matchhere, items, if_neg hc, matchesPrefix_ofChar]
      cases text with
      | nil => simp
      | cons t text => simp [matchesPrefix_nil]
  | case4 c re ih =>
      simp only [matchhere, items, if_true, starLoop_iff, ih,
        matchesPrefix_star]
  | case5 c d re hd ih =>
      simp only [matchhere, items, if_neg hd, matchesPrefix_ofChar]
      cases text with
      | nil => simp
      | cons t text => simp [ih]

/-- The loop of `match` tries every suffix of the text. -/
theorem matchLoop_iff :
    matchLoop re text = true ↔
      ∃ pre rest, text = pre ++ rest ∧ matchhere re rest = true := by
  induction text with
  | nil =>
      simp only [matchLoop]
      constructor
      · intro h
        exact ⟨[], [], rfl, h⟩
      · rintro ⟨pre, rest, heq, h⟩
        obtain ⟨-, rfl⟩ := List.append_eq_nil_iff.mp heq.symm
        exact h
  | cons t text ih =>
      simp only [matchLoop, Bool.or_eq_true, ih]
      constructor
      · rintro (h | ⟨pre, rest, rfl, h⟩)
        · exact ⟨[], t :: text, rfl, h⟩
        · exact ⟨t :: pre, rest, rfl, h⟩
      · rintro ⟨pre, rest, heq, h⟩
        cases pre with
        | nil =>
            rw [List.nil_append] at heq
            exact .inl (heq ▸ h)
        | cons p pre =>
            obtain ⟨rfl, rfl⟩ := List.cons.inj heq
            exact .inr ⟨pre, rest, rfl, h⟩

end Matcher

/-- `match` finds a part of the text that the items of the pattern match, at
the start of the text if the pattern begins with `^`. -/
theorem matchText_iff (re text : Str) :
    matchText re text = true ↔
      ∃ pre mid post, text = pre ++ mid ++ post ∧ (Anchored re → pre = []) ∧
        Matches (items (body re)) mid post := by
  by_cases hre : Anchored re
  · obtain ⟨re, rfl⟩ : ∃ re', re = caret :: re' := by
      cases re with
      | nil => cases hre
      | cons c re => exact ⟨re, by rw [Option.some.inj hre]⟩
    simp only [matchText, body, if_pos hre, if_true, List.tail_cons,
      matchhere_iff]
    constructor
    · rintro ⟨mid, post, rfl, h⟩
      exact ⟨[], mid, post, rfl, fun _ => rfl, h⟩
    · rintro ⟨pre, mid, post, rfl, hpre, h⟩
      rw [hpre hre]
      exact ⟨mid, post, rfl, h⟩
  · have hloop : matchText re text = matchLoop re text := by
      cases re with
      | nil => rfl
      | cons c re =>
          have hc : c ≠ caret := fun hc => hre (by rw [hc]; rfl)
          simp only [matchText, if_neg hc]
    rw [hloop, matchLoop_iff, body, if_neg hre]
    simp only [matchhere_iff]
    constructor
    · rintro ⟨pre, rest, rfl, mid, post, rfl, h⟩
      exact ⟨pre, mid, post, (List.append_assoc ..).symm,
        fun h => absurd h hre, h⟩
    · rintro ⟨pre, mid, post, rfl, -, h⟩
      exact ⟨pre, mid ++ post, List.append_assoc .., mid, post, rfl, h⟩

/-- The pattern `^a*b$` on two texts. -/
example : matchText [caret, 0x61, star, 0x62, dollar] [0x61, 0x61, 0x62] ∧
    ¬ matchText [caret, 0x61, star, 0x62, dollar] [0x61, 0x62, 0x63] := by
  decide

end ZtlOs.Grep
