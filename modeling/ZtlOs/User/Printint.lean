import ZtlOs.Support.Numerals

/-!
# printint

The functions `printint` of `console.c` and of `printf.c`.  Both store the digits
of a number in a buffer of 16 characters, the last digit first, and then print
what they have stored from behind.
-/

namespace ZtlOs

open ZtlOs.Support

namespace Printing

abbrev Word := BitVec 32

/-- `buf`, which is not initialized. -/
abbrev Buf := ℕ → Char

/-- `buf[i++] = c`, which has no result if the buffer is full. -/
def store (c : Char) (s : Buf × ℕ) : Option (Buf × ℕ) :=
  if s.2 < 16 then some (Function.update s.1 s.2 c, s.2 + 1) else none

/-- The loop over the quotients.  It is given a number of rounds and has no
result if they are not enough. -/
def storeDigits (digits : List Char) (base : Word) :
    ℕ → Word → Buf × ℕ → Option (Buf × ℕ)
  | 0, _, _ => none
  | n + 1, x, s =>
      match digits[(x % base).toNat]? with
      | none => none
      | some c =>
          match store c s with
          | none => none
          | some s =>
              if x / base ≠ 0 then storeDigits digits base n (x / base) s
              else some s

/-- The characters of the last loop, in its order. -/
def printed (buf : Buf) : ℕ → List Char
  | 0 => []
  | i + 1 => buf i :: printed buf i

/-- What follows the choice of `x` and of the sign. -/
def put (digits : List Char) (buf : Buf) (rounds : ℕ) (x base : Word)
    (neg : Bool) : Option (List Char) :=
  match storeDigits digits base rounds x (buf, 0) with
  | none => none
  | some s =>
      match if neg then store '-' s else some s with
      | none => none
      | some (buf, i) => some (printed buf i)

end Printing

namespace Console

open Printing

def digits : List Char :=
  "0123456789abcdef".toList

/-- The arguments of `consputc`.  The condition of the source assigns to `sign`
whether the argument is negative. -/
def printint (buf : Buf) (rounds : ℕ) (xx base sign : Word) :
    Option (List Char) :=
  let sign : Word :=
    if sign ≠ 0 then if xx.toInt < 0 then 1 else 0 else sign
  let x := if sign ≠ 0 then -xx else xx
  put digits buf rounds x base (sign ≠ 0)

end Console

namespace Printf

open Printing

def digits : List Char :=
  "0123456789ABCDEF".toList

/-- The character that `putc` writes, and the descriptor to which. -/
def putc (fd : Word) (c : Char) : Word × Char :=
  (fd, c)

def printint (buf : Buf) (rounds : ℕ) (fd xx base sgn : Word) :
    Option (List (Word × Char)) :=
  let neg := sgn ≠ 0 ∧ xx.toInt < 0
  let x := if neg then -xx else xx
  (put digits buf rounds x base neg).map fun cs => cs.map (putc fd)

end Printf

/-! ## The loops -/

namespace Printing

section Loops

variable {table : List Char} {buf : Buf} {base x : Word} {c : Char} {i j n : ℕ}

theorem printed_update (h : i ≤ j) :
    printed (Function.update buf j c) i = printed buf i := by
  induction i with
  | zero => rfl
  | succ i ih =>
      rw [printed, printed, Function.update_of_ne (by omega), ih (by omega)]

/-- A stored character is printed before those in front of it. -/
theorem exists_store (c : Char) (buf : Buf) (h : i < 16) :
    ∃ buf', store c (buf, i) = some (buf', i + 1) ∧
      printed buf' (i + 1) = c :: printed buf i := by
  refine ⟨_, if_pos h, ?_⟩
  rw [printed, Function.update_self, printed_update le_rfl]

theorem digits_eq (hbase : 1 < base.toNat) (x : Word) :
    Numeral.digits base.toNat x.toNat =
      (if x / base = 0 then [] else Numeral.digits base.toNat (x / base).toNat) ++
        [(x % base).toNat] := by
  have hzero : x / base = 0 ↔ x.toNat / base.toNat = 0 := by
    rw [← BitVec.toNat_udiv]
    exact ⟨fun h => congrArg BitVec.toNat h, fun h => BitVec.eq_of_toNat_eq h⟩
  simp only [Numeral.digits_eq hbase x.toNat, hzero, BitVec.toNat_udiv,
    BitVec.toNat_umod]

/-- If there is room for them, the loop stores the digits of `x`. -/
theorem exists_storeDigits (x : Word) (buf : Buf) (hbase : 1 < base.toNat)
    (htable : base.toNat ≤ table.length)
    (hn : (Numeral.digits base.toNat x.toNat).length ≤ n)
    (hi : i + (Numeral.digits base.toNat x.toNat).length ≤ 16) :
    ∃ buf' j, storeDigits table base n x (buf, i) = some (buf', j) ∧
      j = i + (Numeral.digits base.toNat x.toNat).length ∧
      printed buf' j = (Numeral.digits base.toNat x.toNat).map
        (fun d => table.getD d '0') ++ printed buf i := by
  induction n generalizing x buf i with
  | zero =>
      exact absurd (List.length_eq_zero_iff.mp (Nat.le_zero.mp hn))
        (Numeral.digits_ne_nil _ _)
  | succ n ih =>
      have hlt : (x % base).toNat < table.length := by
        rw [BitVec.toNat_umod]
        exact (Nat.mod_lt _ (Nat.zero_lt_of_lt hbase)).trans_le htable
      have hdigit : table[(x % base).toNat]? =
          some (table.getD (x % base).toNat '0') := by
        rw [List.getD_eq_getElem?_getD, List.getElem?_eq_getElem hlt,
          Option.getD_some]
      have hdigits := digits_eq hbase x
      have hlen := congrArg List.length hdigits
      rw [List.length_append, List.length_singleton] at hlen
      obtain ⟨buf', hstore, hprinted⟩ := exists_store
        (table.getD (x % base).toNat '0') buf (i := i) (by omega)
      by_cases hq : x / base = 0
      · rw [if_pos hq, List.nil_append] at hdigits
        refine ⟨buf', i + 1, ?_, ?_, ?_⟩
        · simp only [storeDigits, hdigit, hstore, hq, ne_eq, not_true_eq_false,
            if_false]
        · rw [hdigits, List.length_singleton]
        · rw [hprinted, hdigits]
          rfl
      · rw [if_neg hq] at hdigits hlen
        obtain ⟨buf'', j, hrun, hj, hout⟩ := ih (x / base) buf'
          (i := i + 1) (by omega) (by omega)
        refine ⟨buf'', j, ?_, ?_, ?_⟩
        · simp only [storeDigits, hdigit, hstore, ne_eq, hq, not_false_eq_true,
            if_true, hrun]
        · rw [hj, hlen]
          omega
        · rw [hout, hprinted, hdigits, List.map_append, List.append_assoc]
          rfl

/-- The sign is printed before the digits. -/
theorem put_eq {neg : Bool} {rounds : ℕ} (hbase : 1 < base.toNat)
    (htable : base.toNat ≤ table.length)
    (hlen : (Numeral.digits base.toNat x.toNat).length < 16)
    (hrounds : 16 ≤ rounds) :
    put table buf rounds x base neg =
      some ((if neg then ['-'] else []) ++
        (Numeral.digits base.toNat x.toNat).map fun d => table.getD d '0') := by
  obtain ⟨buf', j, hrun, hj, hout⟩ := exists_storeDigits x buf
    (n := rounds) (i := 0) hbase htable (by omega) (by omega)
  rw [Nat.zero_add] at hj
  rw [printed, List.append_nil] at hout
  cases neg with
  | false => simp [put, hrun, hout]
  | true =>
      obtain ⟨buf'', hstore, hprinted⟩ := exists_store '-' buf' (i := j)
        (by omega)
      simp [put, hrun, hstore, hprinted, hout]

end Loops

section Numerals

variable {table : List Char} {buf : Buf} {rounds : ℕ} {xx base : Word}

/-- The number that is printed: the argument as a signed or as an unsigned
one. -/
def argument (xx sign : Word) : ℤ :=
  if sign ≠ 0 then xx.toInt else xx.toNat

/-- Ten digits are enough. -/
theorem lt_pow {m : ℕ} (hbase : 10 ≤ base.toNat) (hm : m < 2 ^ 32) :
    m < base.toNat ^ 10 :=
  calc m < 2 ^ 32 := hm
    _ ≤ 10 ^ 10 := by decide
    _ ≤ base.toNat ^ 10 := Nat.pow_le_pow_left hbase 10

/-- `x` is the number without its sign. -/
theorem toNat_of_neg (h : xx.toInt < 0) : (-xx).toNat = xx.toInt.natAbs := by
  have hlt := xx.isLt
  rw [BitVec.toInt_eq_toNat_cond] at h ⊢
  rw [BitVec.toNat_neg]
  split at h
  · omega
  · rw [if_neg (by assumption)]
    omega

theorem toInt_of_nonneg (h : ¬xx.toInt < 0) : xx.toInt = xx.toNat := by
  rw [BitVec.toInt_eq_toNat_cond] at h ⊢
  split at h
  · exact if_pos (by assumption)
  · have hlt := xx.isLt
    omega

theorem argument_of_not_neg {sign : Word} (h : ¬(sign ≠ 0 ∧ xx.toInt < 0)) :
    argument xx sign = xx.toNat := by
  rw [argument]
  split
  · next hsign => exact toInt_of_nonneg fun hneg => h ⟨hsign, hneg⟩
  · rfl

/-- What is printed is the numeral of the argument. -/
theorem put_numeral (buf : Buf) (hbase : 10 ≤ base.toNat) (htable : base.toNat ≤ table.length)
    (hrounds : 16 ≤ rounds) (sign : Word) :
    put table buf rounds
        (if sign ≠ 0 ∧ xx.toInt < 0 then -xx else xx) base
        (decide (sign ≠ 0 ∧ xx.toInt < 0)) =
      some (Numeral.numeral table base.toNat (argument xx sign)) := by
  have hlen : ∀ x : Word, (Numeral.digits base.toNat x.toNat).length < 16 :=
    fun x => (Numeral.length_digits_le (by omega) (by decide)
      (lt_pow hbase x.isLt)).trans_lt (by decide)
  rw [put_eq (by omega) htable (hlen _) hrounds]
  by_cases hneg : sign ≠ 0 ∧ xx.toInt < 0
  · have harg : argument xx sign = xx.toInt := if_pos hneg.1
    rw [if_pos hneg, decide_eq_true hneg, if_pos rfl, harg, Numeral.numeral,
      if_pos hneg.2, toNat_of_neg hneg.2]
    rfl
  · have hnonneg : ¬(xx.toNat : ℤ) < 0 := by omega
    rw [if_neg hneg, decide_eq_false hneg, argument_of_not_neg hneg,
      Numeral.numeral, if_neg hnonneg, Int.natAbs_natCast]
    rfl

end Numerals

end Printing

/-! ## The two functions -/

section Printint

open Printing

variable {buf : Buf} {rounds : ℕ} {xx base sign : Word}

theorem Console.length_digits : Console.digits.length = 16 := by
  decide

theorem Printf.length_digits : Printf.digits.length = 16 := by
  decide

theorem Console.printint_eq (hlow : 10 ≤ base.toNat) (hhigh : base.toNat ≤ 16)
    (hrounds : 16 ≤ rounds) :
    Console.printint buf rounds xx base sign =
      some (Numeral.numeral Console.digits base.toNat (argument xx sign)) := by
  rw [← put_numeral buf hlow (hhigh.trans_eq length_digits.symm) hrounds,
    Console.printint]
  by_cases hsign : sign = 0#32
  · simp [hsign]
  · by_cases hneg : xx.toInt < 0
    · simp [hsign, hneg]
    · simp [hsign, hneg]

theorem Printf.printint_eq {fd : Word} (hlow : 10 ≤ base.toNat)
    (hhigh : base.toNat ≤ 16) (hrounds : 16 ≤ rounds) :
    Printf.printint buf rounds fd xx base sign =
      some ((Numeral.numeral Printf.digits base.toNat (argument xx sign)).map
        (Printf.putc fd)) := by
  rw [Printf.printint, put_numeral buf hlow (hhigh.trans_eq length_digits.symm)
    hrounds, Option.map_some]

theorem digit?_console : ∀ d < 16,
    Numeral.digit? (Console.digits.getD d '0') = some d := by
  decide

theorem digit?_printf : ∀ d < 16,
    Numeral.digit? (Printf.digits.getD d '0') = some d := by
  decide

theorem toUpper_console : ∀ d < 16,
    (Console.digits.getD d '0').toUpper = Printf.digits.getD d '0' := by
  decide

/-- The bases and signs with which `printint` is called, and the number that an
argument stands for. -/
def Called (xx base sign : Word) (v : ℤ) : Prop :=
  (base = 10 ∧ sign = 1 ∧ v = xx.toInt) ∨
    (base = 16 ∧ sign = 0 ∧ v = xx.toNat)

theorem Called.argument_eq {v : ℤ} (h : Called xx base sign v) :
    argument xx sign = v ∧ 10 ≤ base.toNat ∧ base.toNat ≤ 16 := by
  rcases h with ⟨rfl, rfl, rfl⟩ | ⟨rfl, rfl, rfl⟩
  · exact ⟨if_pos (by decide), by decide, by decide⟩
  · exact ⟨if_neg (by decide), by decide, by decide⟩

theorem Called.natAbs_lt {v : ℤ} (h : Called xx base sign v) :
    v.natAbs < 2 ^ 32 := by
  have hlt := xx.isLt
  rcases h with ⟨-, -, rfl⟩ | ⟨-, -, rfl⟩
  · rw [BitVec.toInt_eq_toNat_cond]
    split <;> omega
  · rwa [Int.natAbs_natCast]

/-- Both functions print the shortest numeral of their argument. -/
theorem printint_correct (buf buf' : Buf) (fd : Word) {v : ℤ}
    (h : Called xx base sign v) (hrounds : 16 ≤ rounds) :
    ∃ cs cs', Console.printint buf rounds xx base sign = some cs ∧
      Printf.printint buf' rounds fd xx base sign =
        some (cs'.map (Printf.putc fd)) ∧
      Numeral.Shortest base.toNat v cs ∧ Numeral.Shortest base.toNat v cs' ∧
      (cs.head? = some '-' ↔ v < 0) ∧ (cs'.head? = some '-' ↔ v < 0) ∧
      cs.length ≤ 16 ∧ cs' = cs.map Char.toUpper := by
  obtain ⟨hv, hlow, hhigh⟩ := h.argument_eq
  have hbase : 1 < base.toNat := by omega
  have hconsole : ∀ d < base.toNat,
      Numeral.digit? (Console.digits.getD d '0') = some d :=
    fun d hd => digit?_console d (hd.trans_le hhigh)
  have hprintf : ∀ d < base.toNat,
      Numeral.digit? (Printf.digits.getD d '0') = some d :=
    fun d hd => digit?_printf d (hd.trans_le hhigh)
  refine ⟨_, _, Console.printint_eq hlow hhigh hrounds,
    Printf.printint_eq hlow hhigh hrounds, ?_⟩
  rw [hv]
  refine ⟨Numeral.numeral_shortest hbase hconsole v,
    Numeral.numeral_shortest hbase hprintf v,
    Numeral.head?_numeral hbase hconsole, Numeral.head?_numeral hbase hprintf,
    ?_, ?_⟩
  · have hlen := Numeral.length_numeral_le Console.digits hbase
      (by decide) (lt_pow hlow h.natAbs_lt)
    split at hlen
    · omega
    · omega
  · exact (Numeral.map_numeral (by decide) hbase
      fun d hd => toUpper_console d (hd.trans_le hhigh)).symm

theorem printint_correct_min :
    Called 0x80000000 10 1 (-2147483648) ∧
      ∃ cs cs', Console.printint (fun _ => '0') 16 0x80000000 10 1 = some cs ∧
        Printf.printint (fun _ => '0') 16 1 0x80000000 10 1 =
          some (cs'.map (Printf.putc 1)) ∧
        Numeral.Shortest 10 (-2147483648) cs ∧
        Numeral.Shortest 10 (-2147483648) cs' ∧
        (cs.head? = some '-' ↔ (-2147483648 : ℤ) < 0) ∧
        (cs'.head? = some '-' ↔ (-2147483648 : ℤ) < 0) ∧
        cs.length ≤ 16 ∧ cs' = cs.map Char.toUpper :=
  have h : Called 0x80000000 10 1 (-2147483648) := .inl ⟨rfl, rfl, by decide⟩
  ⟨h, printint_correct _ _ 1 h le_rfl⟩

end Printint

end ZtlOs
