import Mathlib.Data.Nat.Digits.Lemmas
import Mathlib.Data.List.Forall2
import Mathlib.Tactic.Ring

/-!
# Numerals

A numeral of the base `b` is a sequence of digits, the most significant one
first, with `-` before it if the number is negative.  Among all that denote a
number the shortest one is unique, up to the case of its letters.
-/

namespace ZtlOs.Support

namespace Numeral

/-! ## Digits -/

/-- The number that the digits denote. -/
def value (b : ℕ) (ds : List ℕ) : ℕ :=
  ds.foldl (fun v d => v * b + d) 0

/-- The digits of a number without leading zeros. -/
def digits (b x : ℕ) : List ℕ :=
  if x = 0 then [0] else (Nat.digits b x).reverse

section Digits

variable {b x k : ℕ} {ds : List ℕ}

theorem value_eq (b : ℕ) (ds : List ℕ) :
    value b ds = Nat.ofDigits b ds.reverse := by
  rw [Nat.ofDigits_eq_foldr, List.foldr_reverse, value]
  congr 1
  funext v d
  rw [Nat.cast_id, Nat.add_comm, Nat.mul_comm]

theorem value_digits (b x : ℕ) : value b (digits b x) = x := by
  rw [value_eq, digits]
  by_cases hx : x = 0
  · simp [hx]
  · rw [if_neg hx, List.reverse_reverse, Nat.ofDigits_digits]

theorem digits_ne_nil (b x : ℕ) : digits b x ≠ [] := by
  rw [digits]
  split
  · simp
  · next hx =>
      simpa [Nat.digits_ne_nil_iff_ne_zero] using hx

theorem digits_lt (hb : 1 < b) : ∀ d ∈ digits b x, d < b := by
  intro d hd
  rw [digits] at hd
  split at hd
  · rw [List.mem_singleton.mp hd]
    exact Nat.zero_lt_of_lt hb
  · exact Nat.digits_lt_base hb (List.mem_reverse.mp hd)

/-- The last digit is the remainder, and those before it are the digits of the
quotient. -/
theorem digits_eq (hb : 1 < b) (x : ℕ) :
    digits b x = (if x / b = 0 then [] else digits b (x / b)) ++ [x % b] := by
  by_cases hx : x = 0
  · simp [hx, digits]
  · have hcons := Nat.digits_eq_cons_digits_div hb hx
    rw [digits, if_neg hx, hcons, List.reverse_cons]
    by_cases hq : x / b = 0
    · simp [hq]
    · rw [if_neg hq, digits, if_neg hq]

theorem length_digits_le (hb : 1 < b) (hk : 0 < k) (hx : x < b ^ k) :
    (digits b x).length ≤ k := by
  rw [digits]
  split
  · exact hk
  · rw [List.length_reverse]
    exact (Nat.digits_length_le_iff hb x).mpr hx

theorem value_lt (hb : 1 < b) (hds : ∀ d ∈ ds, d < b) :
    value b ds < b ^ ds.length := by
  rw [value_eq, ← List.length_reverse]
  exact Nat.ofDigits_lt_base_pow_length hb fun d hd =>
    hds d (List.mem_reverse.mp hd)

/-- No digits for the number are fewer. -/
theorem length_digits_value_le (hb : 1 < b) (hne : ds ≠ [])
    (hds : ∀ d ∈ ds, d < b) :
    (digits b (value b ds)).length ≤ ds.length :=
  length_digits_le hb (List.length_pos_iff.mpr hne) (value_lt hb hds)

/-- No other digits for the number are as few. -/
theorem eq_digits_value (hb : 1 < b) (hds : ∀ d ∈ ds, d < b)
    (hlen : ds.length = (digits b (value b ds)).length) :
    ds = digits b (value b ds) := by
  apply List.reverse_injective
  apply Nat.ofDigits_inj_of_len_eq hb
  · simpa using hlen
  · exact fun d hd => hds d (List.mem_reverse.mp hd)
  · exact fun d hd => digits_lt hb d (List.mem_reverse.mp hd)
  · rw [← value_eq, ← value_eq, value_digits]

end Digits

/-! ## Characters -/

def alphabet : List Char :=
  "0123456789abcdef".toList

/-- The value of a digit; letters may be of either case. -/
def digit? (c : Char) : Option ℕ :=
  alphabet.idxOf? c.toLower

/-- The number that a sequence of digits of the base `b` denotes. -/
def magnitude (b : ℕ) (cs : List Char) : Option ℕ :=
  match cs.mapM digit? with
  | none => none
  | some ds =>
      if ds ≠ [] ∧ ∀ d ∈ ds, d < b then some (value b ds) else none

/-- The number that a numeral of the base `b` denotes. -/
def parse (b : ℕ) : List Char → Option ℤ
  | '-' :: cs => (magnitude b cs).map fun n : ℕ => -(n : ℤ)
  | cs => (magnitude b cs).map fun n : ℕ => (n : ℤ)

/-- The numeral of `v` without leading zeros, in the digits of `table`. -/
def numeral (table : List Char) (b : ℕ) (v : ℤ) : List Char :=
  let ds := (digits b v.natAbs).map fun d => table.getD d '0'
  if v < 0 then '-' :: ds else ds

/-- `cs` is the shortest numeral of `v`: there is no other one of its length but
for the case of the letters. -/
structure Shortest (b : ℕ) (v : ℤ) (cs : List Char) : Prop where
  parse : parse b cs = some v
  length_le : ∀ cs', Numeral.parse b cs' = some v → cs.length ≤ cs'.length
  unique : ∀ cs', Numeral.parse b cs' = some v → cs'.length = cs.length →
    cs'.map Char.toLower = cs.map Char.toLower

section Characters

variable {b n d : ℕ} {v : ℤ} {c : Char} {cs table : List Char} {ds : List ℕ}

theorem toLower_of_digit? (h : digit? c = some d) :
    c.toLower = alphabet.getD d '0' := by
  obtain ⟨hlt, heq, -⟩ := List.idxOf?_eq_some_iff.mp h
  simp [List.getD, hlt, heq]

theorem digits?_cons : (c :: cs).mapM digit? = some ds ↔
    ∃ d es, digit? c = some d ∧ cs.mapM digit? = some es ∧ ds = d :: es := by
  simp only [List.mapM_cons, Option.bind_eq_bind, Option.bind_eq_some_iff,
    Option.pure_def, Option.some.injEq, eq_comm (a := ds)]
  simp

theorem length_of_digits? (h : cs.mapM digit? = some ds) :
    cs.length = ds.length := by
  induction cs generalizing ds with
  | nil =>
      obtain rfl : ds = [] := by simpa [eq_comm] using h
      rfl
  | cons c cs ih =>
      obtain ⟨d, es, -, hes, rfl⟩ := digits?_cons.mp h
      simp [ih hes]

/-- The characters are the digits up to their case. -/
theorem toLower_of_digits? (h : cs.mapM digit? = some ds) :
    cs.map Char.toLower = ds.map fun d => alphabet.getD d '0' := by
  induction cs generalizing ds with
  | nil =>
      obtain rfl : ds = [] := by simpa [eq_comm] using h
      rfl
  | cons c cs ih =>
      obtain ⟨d, es, hd, hes, rfl⟩ := digits?_cons.mp h
      rw [List.map_cons, List.map_cons, ih hes, toLower_of_digit? hd]

theorem digits?_map (htable : ∀ d < b, digit? (table.getD d '0') = some d)
    (hds : ∀ d ∈ ds, d < b) :
    (ds.map fun d => table.getD d '0').mapM digit? = some ds := by
  induction ds with
  | nil => rfl
  | cons d ds ih =>
      rw [List.forall_mem_cons] at hds
      rw [List.map_cons, digits?_cons]
      exact ⟨d, ds, htable d hds.1, ih hds.2, rfl⟩

theorem magnitude_eq_some : magnitude b cs = some n ↔
    ∃ ds, cs.mapM digit? = some ds ∧ ds ≠ [] ∧ (∀ d ∈ ds, d < b) ∧
      value b ds = n := by
  rw [magnitude]
  cases hds : cs.mapM digit? with
  | none => simp
  | some ds => simp [and_assoc]

theorem magnitude_minus : magnitude b ('-' :: cs) = none := by
  have hminus : digit? '-' = none := by decide
  simp [magnitude, List.mapM_cons, hminus]

theorem parse_eq_some : parse b cs = some v ↔
    (∃ cs' n, cs = '-' :: cs' ∧ magnitude b cs' = some n ∧ v = -(n : ℤ)) ∨
      ∃ n, magnitude b cs = some n ∧ v = (n : ℤ) := by
  by_cases hminus : ∃ cs', cs = '-' :: cs'
  · obtain ⟨cs', rfl⟩ := hminus
    simp only [parse, magnitude_minus, Option.map_eq_some_iff]
    constructor
    · rintro ⟨n, hn, rfl⟩
      exact .inl ⟨cs', n, rfl, hn, rfl⟩
    · rintro (⟨cs'', n, hcs, hn, rfl⟩ | ⟨n, hn, -⟩)
      · exact ⟨n, (List.cons.inj hcs).2 ▸ hn, rfl⟩
      · cases hn
  · have hplain : parse b cs = (magnitude b cs).map fun n : ℕ => (n : ℤ) := by
      rw [parse]
      exact fun cs' hcs => hminus ⟨cs', hcs⟩
    rw [hplain, Option.map_eq_some_iff]
    constructor
    · rintro ⟨n, hn, rfl⟩
      exact .inr ⟨n, hn, rfl⟩
    · rintro (⟨cs', n, hcs, -⟩ | ⟨n, hn, rfl⟩)
      · exact absurd ⟨cs', hcs⟩ hminus
      · exact ⟨n, hn, rfl⟩

theorem magnitude_digits (hb : 1 < b)
    (htable : ∀ d < b, digit? (table.getD d '0') = some d) (n : ℕ) :
    magnitude b ((digits b n).map fun d => table.getD d '0') = some n :=
  magnitude_eq_some.mpr ⟨_, digits?_map htable (digits_lt hb),
    digits_ne_nil b n, digits_lt hb, value_digits b n⟩

theorem length_le_of_magnitude (hb : 1 < b) (h : magnitude b cs = some n) :
    (digits b n).length ≤ cs.length := by
  obtain ⟨ds, hds, hne, hlt, rfl⟩ := magnitude_eq_some.mp h
  rw [length_of_digits? hds]
  exact length_digits_value_le hb hne hlt

theorem toLower_of_magnitude (hb : 1 < b) (h : magnitude b cs = some n)
    (hlen : cs.length = (digits b n).length) :
    cs.map Char.toLower = (digits b n).map fun d => alphabet.getD d '0' := by
  obtain ⟨ds, hds, -, hlt, rfl⟩ := magnitude_eq_some.mp h
  rw [length_of_digits? hds] at hlen
  rw [toLower_of_digits? hds, ← eq_digits_value hb hlt hlen]

theorem length_numeral_le (table : List Char) (hb : 1 < b) {k : ℕ} (hk : 0 < k)
    (hv : v.natAbs < b ^ k) :
    (numeral table b v).length ≤ if v < 0 then k + 1 else k := by
  have hlen := length_digits_le hb hk hv
  rw [numeral]
  split
  · simpa using hlen
  · simpa using hlen

/-- Its digits make a numeral the shortest one. -/
theorem shortest_of_nonneg (hb : 1 < b) (h : magnitude b cs = some n)
    (hlen : cs.length = (digits b n).length) : Shortest b n cs where
  parse := parse_eq_some.mpr (.inr ⟨n, h, rfl⟩)
  length_le cs' hcs' := by
    rcases parse_eq_some.mp hcs' with ⟨cs'', m, rfl, hm, heq⟩ | ⟨m, hm, heq⟩
    · obtain rfl : n = m := by omega
      rw [hlen, List.length_cons]
      exact Nat.le_succ_of_le (length_le_of_magnitude hb hm)
    · obtain rfl : n = m := by omega
      rw [hlen]
      exact length_le_of_magnitude hb hm
  unique cs' hcs' heqlen := by
    rcases parse_eq_some.mp hcs' with ⟨cs'', m, rfl, hm, heq⟩ | ⟨m, hm, heq⟩
    · -- A sign before zero makes the numeral longer.
      obtain rfl : n = m := by omega
      have hle := length_le_of_magnitude hb hm
      rw [List.length_cons] at heqlen
      omega
    · obtain rfl : n = m := by omega
      rw [toLower_of_magnitude hb hm (heqlen.trans hlen),
        toLower_of_magnitude hb h hlen]

theorem shortest_of_neg (hb : 1 < b) (hn : 0 < n) (h : magnitude b cs = some n)
    (hlen : cs.length = (digits b n).length) :
    Shortest b (-n) ('-' :: cs) where
  parse := parse_eq_some.mpr (.inl ⟨cs, n, rfl, h, rfl⟩)
  length_le cs' hcs' := by
    rcases parse_eq_some.mp hcs' with ⟨cs'', m, rfl, hm, heq⟩ | ⟨m, hm, heq⟩
    · obtain rfl : n = m := by omega
      rw [List.length_cons, List.length_cons, hlen]
      exact Nat.succ_le_succ (length_le_of_magnitude hb hm)
    · omega
  unique cs' hcs' heqlen := by
    rcases parse_eq_some.mp hcs' with ⟨cs'', m, rfl, hm, heq⟩ | ⟨m, hm, heq⟩
    · obtain rfl : n = m := by omega
      have heqlen' := Nat.succ.inj heqlen
      rw [List.map_cons, List.map_cons,
        toLower_of_magnitude hb hm (heqlen'.trans hlen),
        toLower_of_magnitude hb h hlen]
    · omega

theorem numeral_shortest (hb : 1 < b)
    (htable : ∀ d < b, digit? (table.getD d '0') = some d) (v : ℤ) :
    Shortest b v (numeral table b v) := by
  have hdigits := magnitude_digits hb htable v.natAbs
  by_cases hv : v < 0
  · have habs : -(v.natAbs : ℤ) = v := by omega
    have hshort := shortest_of_neg hb (by omega) hdigits (by simp)
    rw [habs] at hshort
    simpa only [numeral, if_pos hv] using hshort
  · have habs : (v.natAbs : ℤ) = v := by omega
    have hshort := shortest_of_nonneg hb hdigits (by simp)
    rw [habs] at hshort
    simpa only [numeral, if_neg hv] using hshort

/-- Only the numeral of a negative number begins with `-`. -/
theorem head?_numeral (hb : 1 < b)
    (htable : ∀ d < b, digit? (table.getD d '0') = some d) :
    (numeral table b v).head? = some '-' ↔ v < 0 := by
  rw [numeral]
  by_cases hv : v < 0
  · simp [hv]
  · have hdigits := magnitude_digits hb htable v.natAbs
    simp only [hv, if_false, iff_false]
    intro hhead
    obtain ⟨cs, hcs⟩ := List.head?_eq_some_iff.mp hhead
    rw [hcs, magnitude_minus] at hdigits
    cases hdigits

/-- The numerals in the digits of two tables. -/
theorem map_numeral {f : Char → Char} {table' : List Char}
    (hminus : f '-' = '-') (hb : 1 < b)
    (hf : ∀ d < b, f (table.getD d '0') = table'.getD d '0') :
    (numeral table b v).map f = numeral table' b v := by
  have hdigits : ((digits b v.natAbs).map fun d => table.getD d '0').map f =
      (digits b v.natAbs).map fun d => table'.getD d '0' := by
    rw [List.map_map]
    exact List.map_congr_left fun d hd => hf d (digits_lt hb d hd)
  rw [numeral, numeral]
  by_cases hv : v < 0
  · simp only [if_pos hv, List.map_cons, hminus, hdigits]
  · simp only [if_neg hv, hdigits]

end Characters

end Numeral

end ZtlOs.Support
