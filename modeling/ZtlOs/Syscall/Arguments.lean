import ZtlOs.Memory.Layout

/-!
# The arguments of system calls

The functions of `syscall.c` that fetch arguments from the memory of the
current process.  The kernel addresses this memory directly, so every address
that it reads is recorded.
-/

namespace ZtlOs.Syscall

open ZtlOs.Memory

/-- What the functions use of `proc`: its size, the saved stack pointer
`tf->esp`, and the bytes at its addresses. -/
structure User where
  sz : Word
  esp : Word
  mem : Word → BitVec 8

/-- A computation of the kernel; the state is the list of the addresses that
it has read. -/
abbrev Access := StateM (List Word)

namespace User

/-- `*s` for a `char *s`. -/
def byte (u : User) (s : Word) : Access (BitVec 8) :=
  fun read => (u.mem s, read ++ [s])

/-- `*(int*)(addr)`. -/
def int (u : User) (addr : Word) : Access Word := do
  let b₀ ← u.byte addr
  let b₁ ← u.byte (addr + 1)
  let b₂ ← u.byte (addr + 2)
  let b₃ ← u.byte (addr + 3)
  pure ((b₃ ++ b₂ : BitVec 16) ++ (b₁ ++ b₀ : BitVec 16))

/-- The value in `*ip`, if the result is 0. -/
def fetchint (u : User) (addr : Word) : Access (Option Word) := do
  if addr ≥ u.sz ∨ addr + 4 > u.sz then
    pure none
  else
    let i ← u.int addr
    pure (some i)

/-- The loop of `fetchstr`; `ep` is `proc->sz`. -/
def scan (u : User) (pp s : Word) : Access ℤ :=
  if s < u.sz then do
    let c ← u.byte s
    if c = 0 then pure (s - pp).toInt else u.scan pp (s + 1)
  else
    pure (-1)
termination_by u.sz.toNat - s.toNat
decreasing_by
  have hlt : s.toNat < u.sz.toNat := by assumption
  have := u.sz.isLt
  have hs : (s + 1).toNat = s.toNat + 1 := by
    rw [BitVec.toNat_add]
    exact Nat.mod_eq_of_lt (by simp; omega)
  omega

/-- The result, and the value in `*pp` if it has been set. -/
def fetchstr (u : User) (addr : Word) : Access (ℤ × Option Word) := do
  if addr ≥ u.sz then
    pure (-1, none)
  else
    let len ← u.scan addr addr
    pure (len, some addr)

def argint (u : User) (n : Word) : Access (Option Word) :=
  u.fetchint (u.esp + 4 + 4 * n)

/-- The value in `*pp`, if the result is 0. -/
def argptr (u : User) (n size : Word) : Access (Option Word) := do
  match ← u.argint n with
  | none => pure none
  | some i =>
      if size.toInt < 0 ∨ i ≥ u.sz ∨ i + size > u.sz then
        pure none
      else
        pure (some i)

def argstr (u : User) (n : Word) : Access (ℤ × Option Word) := do
  match ← u.argint n with
  | none => pure (-1, none)
  | some addr => u.fetchstr addr

end User

/-! ## What is accepted -/

/-- The result of a computation. -/
def value {α : Type} (x : Access α) : α :=
  (x []).1

/-- Every address that a computation reads lies below `sz`. -/
def Inside {α : Type} (sz : Word) (x : Access α) : Prop :=
  ∀ a ∈ (x []).2, a.toNat < sz.toNat

namespace User

/-- The range starts below `sz` and does not end above it. -/
def Contains (u : User) (p size : Word) : Prop :=
  p.toNat < u.sz.toNat ∧ p.toNat + size.toNat ≤ u.sz.toNat

/-- The four bytes at an address, as a little-endian number. -/
def wordAt (u : User) (addr : Word) : Word :=
  (u.mem (addr + 3) ++ u.mem (addr + 2) : BitVec 16) ++
    (u.mem (addr + 1) ++ u.mem addr : BitVec 16)

/-- The string of a length at an address lies below `sz`, and ends with the
first NUL. -/
structure StringAt (u : User) (p : Word) (len : ℕ) : Prop where
  lt : p.toNat + len < u.sz.toNat
  nul : u.mem (p + BitVec.ofNat 32 len) = 0
  first : ∀ k < len, u.mem (p + BitVec.ofNat 32 k) ≠ 0

/-- The address of an argument. -/
def argument (u : User) (n : Word) : Word :=
  u.esp + 4 + 4 * n

/-- The functions accept exactly what lies in the memory of the process, and
read nothing outside of it in any case. -/
structure Checked (u : User) : Prop where
  inside_fetchint : ∀ addr, Inside u.sz (u.fetchint addr)
  fetchint : ∀ addr i, value (u.fetchint addr) = some i ↔
    u.Contains addr 4 ∧ i = u.wordAt addr
  inside_argint : ∀ n, Inside u.sz (u.argint n)
  argint : ∀ n i, value (u.argint n) = some i ↔
    u.Contains (u.argument n) 4 ∧ i = u.wordAt (u.argument n)
  inside_argptr : ∀ n size, Inside u.sz (u.argptr n size)
  argptr : ∀ n size p, value (u.argptr n size) = some p ↔
    (u.Contains (u.argument n) 4 ∧ p = u.wordAt (u.argument n)) ∧
      0 ≤ size.toInt ∧ u.Contains p size
  inside_fetchstr : ∀ addr, Inside u.sz (u.fetchstr addr)
  fetchstr : ∀ addr (len : ℕ), (value (u.fetchstr addr)).1 = len ↔
    u.StringAt addr len
  fetchstr_pp : ∀ addr, 0 ≤ (value (u.fetchstr addr)).1 →
    (value (u.fetchstr addr)).2 = some addr
  inside_argstr : ∀ n, Inside u.sz (u.argstr n)
  argstr : ∀ n (len : ℕ), (value (u.argstr n)).1 = len ↔
    u.Contains (u.argument n) 4 ∧ u.StringAt (u.wordAt (u.argument n)) len
  argstr_pp : ∀ n, 0 ≤ (value (u.argstr n)).1 →
    (value (u.argstr n)).2 = some (u.wordAt (u.argument n))

end User

/-! ## Proofs -/

theorem bind_run {α β : Type} (x : Access α) (f : α → Access β)
    (read : List Word) : (x >>= f) read = f (x read).1 (x read).2 :=
  rfl

namespace User

variable {u : User} {addr n size p s : Word}

theorem toNat_add_of_lt {a b : Word} (h : a.toNat + b.toNat < 2 ^ 32) :
    (a + b).toNat = a.toNat + b.toNat := by
  rw [BitVec.toNat_add]
  exact Nat.mod_eq_of_lt h

/-- The bounds of a range are tested with sums that do not wrap. -/
theorem contains_iff (hsz : u.sz.toNat ≤ KERNBASE.toNat)
    (hsize : 0 ≤ size.toInt) :
    ¬(p ≥ u.sz ∨ p + size > u.sz) ↔ u.Contains p size := by
  have hK : KERNBASE.toNat = 2 ^ 31 := rfl
  have hsmall : size.toNat < 2 ^ 31 := by
    rw [BitVec.toInt_eq_toNat_cond] at hsize
    have := size.isLt
    split at hsize <;> omega
  simp only [not_or, ge_iff_le, gt_iff_lt, BitVec.not_le, BitVec.not_lt]
  constructor
  · rintro ⟨hp, hend⟩
    have hp : p.toNat < u.sz.toNat := hp
    have hend : (p + size).toNat ≤ u.sz.toNat := hend
    rw [toNat_add_of_lt (by omega)] at hend
    exact ⟨hp, hend⟩
  · rintro ⟨hp, hend⟩
    refine ⟨hp, ?_⟩
    change (p + size).toNat ≤ u.sz.toNat
    rwa [toNat_add_of_lt (by omega)]

theorem fetchint_run (hsz : u.sz.toNat ≤ KERNBASE.toNat) (addr : Word) :
    u.Contains addr 4 ∧
        u.fetchint addr [] =
          (some (u.wordAt addr), [addr, addr + 1, addr + 2, addr + 3]) ∨
      ¬ u.Contains addr 4 ∧ u.fetchint addr [] = (none, []) := by
  have hiff : ¬(addr ≥ u.sz ∨ addr + 4 > u.sz) ↔ u.Contains addr 4 :=
    contains_iff hsz (by decide)
  by_cases hc : addr ≥ u.sz ∨ addr + 4 > u.sz
  · refine .inr ⟨fun h => hiff.mpr h hc, ?_⟩
    rw [fetchint, if_pos hc]
    rfl
  · refine .inl ⟨hiff.mp hc, ?_⟩
    rw [fetchint, if_neg hc]
    rfl

theorem inside_word (hsz : u.sz.toNat ≤ KERNBASE.toNat)
    (h : u.Contains addr 4) :
    ∀ a ∈ [addr, addr + 1, addr + 2, addr + 3], a.toNat < u.sz.toNat := by
  have hK : KERNBASE.toNat = 2 ^ 31 := rfl
  obtain ⟨hlt, hend⟩ := h
  have h4 : (4 : Word).toNat = 4 := rfl
  have hstep : ∀ k : Word, k.toNat < 4 →
      (addr + k).toNat < u.sz.toNat := by
    intro k hk
    rw [toNat_add_of_lt (by omega)]
    omega
  intro a ha
  simp only [List.mem_cons, List.not_mem_nil, or_false] at ha
  rcases ha with rfl | rfl | rfl | rfl
  · exact hlt
  · exact hstep 1 (by decide)
  · exact hstep 2 (by decide)
  · exact hstep 3 (by decide)

theorem toNat_succ (h : s.toNat < u.sz.toNat) :
    (s + 1).toNat = s.toNat + 1 := by
  have := u.sz.isLt
  exact toNat_add_of_lt (by simp; omega)

theorem add_succ (s : Word) (k : ℕ) :
    s + 1 + BitVec.ofNat 32 k = s + BitVec.ofNat 32 (k + 1) := by
  rw [BitVec.add_assoc, Nat.add_comm k 1, BitVec.ofNat_add]
  rfl

theorem StringAt.of_nul (hlt : s.toNat < u.sz.toNat) (h : u.mem s = 0) :
    u.StringAt s 0 where
  lt := hlt
  nul := by simpa using h
  first := nofun

/-- A string that does not start with a NUL goes on with the next byte. -/
theorem stringAt_succ_iff (hlt : s.toNat < u.sz.toNat) (h : u.mem s ≠ 0)
    (k : ℕ) : u.StringAt (s + 1) k ↔ u.StringAt s (k + 1) := by
  have hs := toNat_succ hlt
  constructor
  · rintro ⟨hlt', hnul, hfirst⟩
    refine ⟨by omega, by rwa [← add_succ], ?_⟩
    intro j hj
    cases j with
    | zero => simpa using h
    | succ j =>
        rw [← add_succ]
        exact hfirst j (by omega)
  · rintro ⟨hlt', hnul, hfirst⟩
    refine ⟨by omega, by rwa [add_succ], ?_⟩
    intro j hj
    rw [add_succ]
    exact hfirst (j + 1) (by omega)

theorem StringAt.eq {k l : ℕ} (hk : u.StringAt s k) (hl : u.StringAt s l) :
    k = l := by
  rcases Nat.lt_trichotomy k l with hlt | heq | hlt
  · exact absurd hk.nul (hl.first k hlt)
  · exact heq
  · exact absurd hl.nul (hk.first l hlt)

theorem toInt_sub (h : p.toNat ≤ s.toNat) (hs : s.toNat < 2 ^ 31) :
    (s - p).toInt = (s.toNat - p.toNat : ℕ) := by
  have hsub : (s - p).toNat = s.toNat - p.toNat :=
    BitVec.toNat_sub_of_le h
  rw [BitVec.toInt_eq_toNat_of_lt (by omega), hsub]

/-- The loop finds the first NUL, and reads nothing at or above `sz`. -/
theorem scan_run (hsz : u.sz.toNat ≤ KERNBASE.toNat) (p s : Word)
    (hps : p.toNat ≤ s.toNat) (read : List Word) :
    ∃ r l, u.scan p s read = (r, read ++ l) ∧
      (∀ a ∈ l, a.toNat < u.sz.toNat) ∧
      ((∃ k : ℕ, r = (s.toNat - p.toNat + k : ℕ) ∧ u.StringAt s k) ∨
        r = -1 ∧ ∀ k, ¬ u.StringAt s k) := by
  induction hd : u.sz.toNat - s.toNat generalizing s read with
  | zero =>
      refine ⟨-1, [], ?_, by simp, .inr ⟨rfl, fun k hk => ?_⟩⟩
      · rw [scan, if_neg (BitVec.not_lt.mpr (show u.sz.toNat ≤ s.toNat by omega)),
          List.append_nil]
        rfl
      · have := hk.lt
        omega
  | succ d ih =>
      have hlt : s.toNat < u.sz.toNat := by omega
      have hs := toNat_succ hlt
      by_cases hnul : u.mem s = 0
      · refine ⟨(s - p).toInt, [s], ?_, by simpa using hlt,
          .inl ⟨0, ?_, .of_nul hlt hnul⟩⟩
        · rw [scan, if_pos (show s < u.sz from hlt)]
          change (if u.mem s = 0 then _ else _ : Access ℤ) (read ++ [s]) = _
          rw [if_pos hnul]
          rfl
        · have hK : KERNBASE.toNat = 2 ^ 31 := rfl
          exact toInt_sub hps (by omega)
      · obtain ⟨r, l, hrun, hl, hr⟩ := ih (s + 1) (by omega) (read ++ [s])
          (by omega)
        refine ⟨r, s :: l, ?_, ?_, ?_⟩
        · rw [scan, if_pos (show s < u.sz from hlt)]
          change (if u.mem s = 0 then _ else _ : Access ℤ) (read ++ [s]) = _
          rw [if_neg hnul, hrun, List.append_assoc]
          rfl
        · intro a ha
          rcases List.mem_cons.mp ha with rfl | ha
          · exact hlt
          · exact hl a ha
        · rcases hr with ⟨k, hk, hstring⟩ | ⟨hr, hnone⟩
          · refine .inl ⟨k + 1, ?_, (stringAt_succ_iff hlt hnul k).mp hstring⟩
            rw [hk, hs]
            congr 1
            omega
          · refine .inr ⟨hr, fun k hk => ?_⟩
            cases k with
            | zero =>
                have := hk.nul
                rw [BitVec.add_zero] at this
                exact hnul this
            | succ k => exact hnone k ((stringAt_succ_iff hlt hnul k).mpr hk)

theorem fetchstr_run (hsz : u.sz.toNat ≤ KERNBASE.toNat) (addr : Word)
    (read : List Word) :
    ∃ r pp l, u.fetchstr addr read = ((r, pp), read ++ l) ∧
      (∀ a ∈ l, a.toNat < u.sz.toNat) ∧
      (∀ len : ℕ, r = len ↔ u.StringAt addr len) ∧
      (0 ≤ r → pp = some addr) := by
  by_cases hc : addr ≥ u.sz
  · refine ⟨-1, none, [], ?_, by simp, fun len => ⟨fun h => ?_, fun h => ?_⟩,
      fun h => ?_⟩
    · rw [fetchstr, if_pos hc, List.append_nil]
      rfl
    · omega
    · have hle : u.sz.toNat ≤ addr.toNat := hc
      have := h.lt
      omega
    · omega
  · obtain ⟨r, l, hrun, hl, hr⟩ := scan_run hsz addr addr le_rfl read
    refine ⟨r, some addr, l, ?_, hl, ?_, fun _ => rfl⟩
    · rw [fetchstr, if_neg hc]
      rw [bind_run, hrun]
      rfl
    · intro len
      rcases hr with ⟨k, rfl, hk⟩ | ⟨rfl, hnone⟩
      · rw [Nat.sub_self, Nat.zero_add]
        constructor
        · intro h
          rwa [← Int.natCast_inj.mp h]
        · intro h
          rw [hk.eq h]
      · exact iff_of_false (by omega) (hnone len)

/-- After the argument word, a function goes on with its value, or fails. -/
theorem argint_run (hsz : u.sz.toNat ≤ KERNBASE.toNat) (n : Word) :
    u.Contains (u.argument n) 4 ∧ (∃ l, (∀ a ∈ l, a.toNat < u.sz.toNat) ∧
        u.argint n [] = (some (u.wordAt (u.argument n)), l)) ∨
      ¬ u.Contains (u.argument n) 4 ∧ u.argint n [] = (none, []) := by
  rcases fetchint_run hsz (u.argument n) with ⟨hc, hrun⟩ | h
  · exact .inl ⟨hc, _, inside_word hsz hc, hrun⟩
  · exact .inr h

theorem argptr_run (hsz : u.sz.toNat ≤ KERNBASE.toNat) (n size : Word) :
    ∃ r l, u.argptr n size [] = (r, l) ∧ (∀ a ∈ l, a.toNat < u.sz.toNat) ∧
      ∀ p, r = some p ↔
        (u.Contains (u.argument n) 4 ∧ p = u.wordAt (u.argument n)) ∧
          0 ≤ size.toInt ∧ u.Contains p size := by
  rcases argint_run hsz n with ⟨hc, l, hl, hrun⟩ | ⟨hc, hrun⟩
  · have hbind : u.argptr n size [] =
        (if size.toInt < 0 ∨ u.wordAt (u.argument n) ≥ u.sz ∨
          u.wordAt (u.argument n) + size > u.sz then none
        else some (u.wordAt (u.argument n)), l) := by
      rw [argptr, bind_run, hrun]
      dsimp only
      split <;> rfl
    refine ⟨_, l, hbind, hl, fun p => ?_⟩
    constructor
    · intro h
      split at h
      · cases h
      · next hok =>
          obtain rfl := Option.some.inj h
          obtain ⟨hsize, hok⟩ := not_or.mp hok
          exact ⟨⟨hc, rfl⟩, by omega, (contains_iff hsz (by omega)).mp hok⟩
    · rintro ⟨⟨-, rfl⟩, hsize, hp⟩
      rw [if_neg]
      rintro (h | h)
      · omega
      · exact (contains_iff hsz hsize).mpr hp h
  · refine ⟨none, [], ?_, by simp, fun p => ?_⟩
    · rw [argptr, bind_run, hrun]
      rfl
    · exact iff_of_false nofun fun h => hc h.1.1

theorem argstr_run (hsz : u.sz.toNat ≤ KERNBASE.toNat) (n : Word) :
    ∃ r pp l, u.argstr n [] = ((r, pp), l) ∧
      (∀ a ∈ l, a.toNat < u.sz.toNat) ∧
      (∀ len : ℕ, r = len ↔ u.Contains (u.argument n) 4 ∧
        u.StringAt (u.wordAt (u.argument n)) len) ∧
      (0 ≤ r → pp = some (u.wordAt (u.argument n))) := by
  rcases argint_run hsz n with ⟨hc, l, hl, hrun⟩ | ⟨hc, hrun⟩
  · obtain ⟨r, pp, l', hstr, hl', hr, hpp⟩ :=
      fetchstr_run hsz (u.wordAt (u.argument n)) l
    refine ⟨r, pp, l ++ l', ?_, ?_, fun len => ?_, hpp⟩
    · rw [← hstr]
      rw [argstr, bind_run, hrun]
    · intro a ha
      exact (List.mem_append.mp ha).elim (hl a) (hl' a)
    · rw [hr]
      exact (and_iff_right hc).symm
  · refine ⟨-1, none, [], ?_, by simp, fun len => ?_, fun h => ?_⟩
    · rw [argstr, bind_run, hrun]
      rfl
    · exact iff_of_false (by omega) fun h => hc h.1
    · omega

end User

/-- User pointers are validated: with an image below `KERNBASE`, no sum of the
checks wraps. -/
theorem user_pointers_checked (u : User)
    (hsz : u.sz.toNat ≤ KERNBASE.toNat) : u.Checked := by
  constructor
  · intro addr a ha
    rcases u.fetchint_run hsz addr with ⟨hc, hrun⟩ | ⟨-, hrun⟩
    · rw [hrun] at ha
      exact User.inside_word hsz hc a ha
    · rw [hrun] at ha
      cases ha
  · intro addr i
    rcases u.fetchint_run hsz addr with ⟨hc, hrun⟩ | ⟨hc, hrun⟩
    · rw [value, hrun, Option.some_inj]
      exact ⟨fun h => ⟨hc, h.symm⟩, fun h => h.2.symm⟩
    · rw [value, hrun]
      exact iff_of_false nofun fun h => hc h.1
  · intro n a ha
    rcases u.argint_run hsz n with ⟨-, l, hl, hrun⟩ | ⟨-, hrun⟩
    · rw [hrun] at ha
      exact hl a ha
    · rw [hrun] at ha
      cases ha
  · intro n i
    rcases u.argint_run hsz n with ⟨hc, l, -, hrun⟩ | ⟨hc, hrun⟩
    · rw [value, hrun, Option.some_inj]
      exact ⟨fun h => ⟨hc, h.symm⟩, fun h => h.2.symm⟩
    · rw [value, hrun]
      exact iff_of_false nofun fun h => hc h.1
  · intro n size a ha
    obtain ⟨r, l, hrun, hl, -⟩ := u.argptr_run hsz n size
    rw [hrun] at ha
    exact hl a ha
  · intro n size p
    obtain ⟨r, l, hrun, -, hr⟩ := u.argptr_run hsz n size
    rw [value, hrun]
    exact hr p
  · intro addr a ha
    obtain ⟨r, pp, l, hrun, hl, -⟩ := u.fetchstr_run hsz addr []
    rw [hrun] at ha
    exact hl a ha
  · intro addr len
    obtain ⟨r, pp, l, hrun, -, hr, -⟩ := u.fetchstr_run hsz addr []
    rw [value, hrun]
    exact hr len
  · intro addr hlen
    obtain ⟨r, pp, l, hrun, -, -, hpp⟩ := u.fetchstr_run hsz addr []
    rw [value, hrun] at hlen ⊢
    exact hpp hlen
  · intro n a ha
    obtain ⟨r, pp, l, hrun, hl, -⟩ := u.argstr_run hsz n
    rw [hrun] at ha
    exact hl a ha
  · intro n len
    obtain ⟨r, pp, l, hrun, -, hr, -⟩ := u.argstr_run hsz n
    rw [value, hrun]
    exact hr len
  · intro n hlen
    obtain ⟨r, pp, l, hrun, -, -, hpp⟩ := u.argstr_run hsz n
    rw [value, hrun] at hlen ⊢
    exact hpp hlen

/-- A process of one page full of zeros, with its stack pointer at the end. -/
theorem user_pointers_checked_page :
    User.Checked { sz := 4096, esp := 4088, mem := fun _ => 0 } :=
  user_pointers_checked _ (by decide)

end ZtlOs.Syscall
