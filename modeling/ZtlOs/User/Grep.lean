import ZtlOs.Memory.Memmove
import ZtlOs.Support.Cursor
import ZtlOs.Support.Lines
import ZtlOs.User.Matcher

/-!
# grep

The function `grep` reads its input in pieces, as `read` returns them, into a
buffer, and keeps an unfinished line at the start of the buffer for the next
piece.  Pointers into `buf` are indices.
-/

namespace ZtlOs

/-- `strchr` of `ulib.c`, as an offset. -/
def Ulib.strchr (c : BitVec 8) : Grep.Str → Option ℕ
  | [] => none
  | x :: s => if x = c then some 0 else (strchr c s).map (· + 1)

namespace Grep

open Support Support.Sequence

def newline : BitVec 8 := 0x0a

/-- `sizeof(buf)` -/
def BUFSIZE : ℕ := 1024

/-- The array `buf`. -/
abbrev Buf := ℕ → BitVec 8

/-- The string at `p`. -/
def cstr (buf : Buf) (p : ℕ) : Str :=
  (slice buf p (BUFSIZE - p)).takeWhile (· ≠ 0)

/-- A system call that `grep` makes. -/
inductive Call where
  /-- `read` of at most `n` bytes has returned `got`. -/
  | read (n : ℕ) (got : Str)
  /-- `write` to descriptor 1. -/
  | write (bytes : Str)

theorem strchr_lt {c : BitVec 8} {s : Str} {i : ℕ}
    (h : Ulib.strchr c s = some i) : i < s.length := by
  induction s generalizing i with
  | nil => cases h
  | cons x s ih =>
      simp only [Ulib.strchr] at h
      split at h
      · obtain rfl := Option.some.inj h
        exact Nat.succ_pos _
      · obtain ⟨j, hj, rfl⟩ := Option.map_eq_some_iff.mp h
        exact Nat.succ_lt_succ (ih hj)

theorem length_cstr_le (buf : Buf) (p : ℕ) :
    (cstr buf p).length ≤ BUFSIZE - p := by
  simpa [cstr] using
    (List.takeWhile_prefix (l := slice buf p (BUFSIZE - p)) (· ≠ 0)).length_le

/-- The loop over the lines in `buf` from `p` on; the result is what it writes,
the buffer, and `p`. -/
def scanLines (pattern : Str) (buf : Buf) (p : ℕ) : List Call × Buf × ℕ :=
  match _h : Ulib.strchr newline (cstr buf p) with
  | none => ([], buf, p)
  | some i =>
      let q := p + i
      let buf := Function.update buf q 0
      if matchText pattern (cstr buf p) then
        let buf := Function.update buf q newline
        let r := scanLines pattern buf (q + 1)
        (.write (slice buf p (q + 1 - p)) :: r.1, r.2)
      else scanLines pattern buf (q + 1)
termination_by BUFSIZE - p
decreasing_by
  all_goals
    have hlt := (strchr_lt _h).trans_le (length_cstr_le _ p)
    omega

/-- The loop of `grep`; `reads` is what `read` returns from here on, and
nothing at the end of the input. -/
def grepLoop (pattern : Str) : List Str → ℕ → Buf → List Call
  | [], m, _ => [.read (BUFSIZE - m - 1) []]
  | got :: reads, m, buf =>
      .read (BUFSIZE - m - 1) got ::
        if got.length = 0 then []
        else
          let buf := overlay buf m got
          let m := m + got.length
          let buf := Function.update buf m 0
          let r := scanLines pattern buf 0
          let buf := r.2.1
          let p := r.2.2
          let m := if p = 0 then 0 else m
          if m > 0 then
            let m := m - p
            r.1 ++ grepLoop pattern reads m (Ulib.memmove buf 0 p m).2
          else
            r.1 ++ grepLoop pattern reads m buf

/-- The system calls of `grep`. -/
def grep (pattern : Str) (reads : List Str) : List Call :=
  grepLoop pattern reads 0 fun _ => 0

/-- What has been written. -/
def output : List Call → Str
  | [] => []
  | .read _ _ :: calls => output calls
  | .write bytes :: calls => bytes ++ output calls

/-- The loop over the lines does not read. -/
theorem read_not_mem_scanLines (pattern : Str) (buf : Buf) (p n : ℕ)
    (got : Str) : .read n got ∉ (scanLines pattern buf p).1 := by
  fun_induction scanLines pattern buf p with
  | case1 => simp
  | case2 buf p i _ _ _ _ _ _ ih => simpa using ih
  | case3 buf p i _ _ _ _ ih => exact ih

/-- No `read` returns more than it was asked for. -/
def Legal (calls : List Call) : Prop :=
  ∀ n got, .read n got ∈ calls → got.length ≤ n

/-! ## One piece of the input -/

section Strings

variable {buf : Buf} {p : ℕ} {s t : Str}

theorem output_append (c d : List Call) :
    output (c ++ d) = output c ++ output d := by
  induction c with
  | nil => rfl
  | cons x c ih => cases x <;> simp [output, ih]

/-- The buffer holds two strings one behind the other. -/
theorem slice_append_iff :
    slice buf p (s ++ t).length = s ++ t ↔
      slice buf p s.length = s ∧
        slice buf (p + s.length) t.length = t := by
  rw [List.length_append, slice_add]
  constructor
  · intro h
    exact List.append_inj h length_slice
  · rintro ⟨hs, ht⟩
    rw [hs, ht]

/-- A string that ends at a NUL of the buffer. -/
theorem cstr_eq (hs : slice buf p s.length = s) (h0 : 0 ∉ s)
    (hnul : buf (p + s.length) = 0) (hlt : p + s.length < BUFSIZE) :
    cstr buf p = s := by
  obtain ⟨k, hk⟩ : ∃ k, BUFSIZE - p = s.length + (1 + k) :=
    ⟨BUFSIZE - p - s.length - 1, by omega⟩
  have hone : slice buf (p + s.length) 1 = [0] := by simp [slice, hnul]
  rw [cstr, hk, slice_add, hs, slice_add, hone, List.takeWhile_append_of_pos]
  · simp
  · intro x hx
    simpa using fun h : x = 0 => h0 (h ▸ hx)

theorem strchr_append (hs : newline ∉ s) :
    Ulib.strchr newline (s ++ newline :: t) = some s.length := by
  induction s with
  | nil => simp [Ulib.strchr]
  | cons x s ih =>
      rw [List.mem_cons, not_or] at hs
      simp [Ulib.strchr, Ne.symm hs.1, ih hs.2]

theorem strchr_eq_none (hs : newline ∉ s) : Ulib.strchr newline s = none := by
  induction s with
  | nil => rfl
  | cons x s ih =>
      rw [List.mem_cons, not_or] at hs
      simp [Ulib.strchr, Ne.symm hs.1, ih hs.2]

end Strings

theorem Legal.of_append {x : Call} {c d : List Call}
    (h : Legal (x :: (c ++ d))) : Legal d := fun n got hmem =>
  h n got (List.mem_cons_of_mem x (List.mem_append_right c hmem))

/-- The bytes from `p` on are moved to the start of the buffer. -/
theorem slice_memmove (buf : Buf) (p n : ℕ) :
    slice (Ulib.memmove buf 0 p n).2 0 n = slice buf p n := by
  have hcopied : Copied buf (fun i => 0 + i) (fun i => p + i) n
      (copySeq buf (fun i => 0 + i) (fun i => p + i) n) :=
    copied_of_unread (fun i _ j _ h => by omega) fun i _ j hj h => by omega
  simp only [Ulib.memmove, Int.toNat_natCast, copyUp_eq]
  apply List.map_congr_left
  intro i hi
  exact hcopied.copied i (List.mem_range.mp hi)

/-- The lines that `match` accepts, as `grep` writes them. -/
def matching (pattern : Str) (ls : List Str) : Str :=
  unlines newline (ls.filter (matchText pattern))

/-- The loop takes the line `l` at `p`. -/
theorem scanLines_cons (pattern : Str) {buf : Buf} {p : ℕ} {l rest : Str}
    (hcstr : cstr buf p = l ++ newline :: rest) (hl : newline ∉ l)
    (hline : slice buf p l.length = l) (h0 : 0 ∉ l)
    (hlt : p + l.length < BUFSIZE) :
    scanLines pattern buf p =
      if matchText pattern l then
        let r := scanLines pattern (Function.update
          (Function.update buf (p + l.length) 0) (p + l.length) newline)
          (p + l.length + 1)
        (.write (l ++ [newline]) :: r.1, r.2)
      else
        scanLines pattern (Function.update buf (p + l.length) 0)
          (p + l.length + 1) := by
  have hfind : Ulib.strchr newline (cstr buf p) = some l.length := by
    rw [hcstr]
    exact strchr_append hl
  -- The line, with a NUL in the place of its newline.
  have hline' : cstr (Function.update buf (p + l.length) 0) p = l := by
    apply cstr_eq _ h0 (Function.update_self ..) hlt
    rw [slice_congr (g := buf), hline]
    intro k _ hk
    exact Function.update_of_ne (by omega) ..
  have hwrite : slice (Function.update (Function.update buf (p + l.length) 0)
      (p + l.length) newline) p (p + l.length + 1 - p) = l ++ [newline] := by
    have hwidth : p + l.length + 1 - p = (l ++ [newline]).length := by
      rw [List.length_append, List.length_singleton]
      omega
    rw [hwidth, slice_append_iff]
    constructor
    · rw [slice_congr (g := buf), hline]
      intro k _ hk
      rw [Function.update_of_ne (by omega), Function.update_of_ne (by omega)]
    · simp [slice]
  rw [scanLines]
  split
  · next heq => simp [hfind] at heq
  · next i heq =>
      obtain rfl : l.length = i := by simpa [hfind] using heq
      simp only [hline', hwrite]

/-- The loop over the lines writes those that match, and leaves the rest of
the buffer alone. -/
theorem scanLines_spec (pattern : Str) {buf : Buf} {p : ℕ} {s tail : Str}
    {ls : List Str} (hs : slice buf p s.length = s) (h0 : 0 ∉ s)
    (hnul : buf (p + s.length) = 0) (hlt : p + s.length < BUFSIZE)
    (hls : Lines newline s ls tail) :
    ∃ calls buf', scanLines pattern buf p =
        (calls, buf', p + (unlines newline ls).length) ∧
      output calls = matching pattern ls ∧
      ∀ j, p + (unlines newline ls).length ≤ j → buf' j = buf j := by
  induction ls generalizing buf p s with
  | nil =>
      have hs' : s = tail := by simpa using hls.eq
      have hnone : Ulib.strchr newline (cstr buf p) = none := by
        rw [cstr_eq hs h0 hnul hlt]
        exact strchr_eq_none (hs' ▸ hls.unfinished)
      refine ⟨[], buf, ?_, rfl, fun j _ => rfl⟩
      rw [scanLines]
      split
      · rfl
      · next heq => simp [hnone] at heq
  | cons l ls ih =>
      have hl : newline ∉ l := hls.ended l List.mem_cons_self
      have hrest : Lines newline (unlines newline ls ++ tail) ls tail :=
        ⟨rfl, fun x hx => hls.ended x (List.mem_cons_of_mem l hx),
          hls.unfinished⟩
      obtain rfl : s = l ++ ([newline] ++ (unlines newline ls ++ tail)) := by
        simpa using hls.eq
      generalize unlines newline ls ++ tail = rest at hs h0 hnul hlt hrest
      have hcstr := cstr_eq hs h0 hnul hlt
      rw [slice_append_iff, slice_append_iff] at hs
      obtain ⟨hfirst, -, hnext⟩ := hs
      simp only [List.mem_append, not_or] at h0
      have hlen : (l ++ ([newline] ++ rest)).length =
          l.length + 1 + rest.length := by
        simp only [List.length_append, List.length_singleton]
        omega
      rw [hlen, ← Nat.add_assoc, ← Nat.add_assoc] at hnul hlt
      rw [List.length_singleton] at hnext
      have hend : p + l.length + 1 + (unlines newline ls).length =
          p + (unlines newline (l :: ls)).length := by
        simp only [unlines_cons, List.length_append, List.length_cons]
        omega
      -- The loop goes on behind the line, where nothing has changed.
      have hgoes : ∀ buf' : Buf, (∀ j, p + l.length + 1 ≤ j → buf' j = buf j) →
          ∃ calls buf'', scanLines pattern buf' (p + l.length + 1) =
              (calls, buf'', p + (unlines newline (l :: ls)).length) ∧
            output calls = matching pattern ls ∧
            ∀ j, p + (unlines newline (l :: ls)).length ≤ j →
              buf'' j = buf j := by
        intro buf' hsame
        have hslice : slice buf' (p + l.length + 1) rest.length = rest := by
          rw [slice_congr fun k hk _ => hsame k hk]
          exact hnext
        obtain ⟨calls, buf'', hrun, hout, hkeep⟩ :=
          ih hslice h0.2.2
            (by rw [hsame _ (by omega)]; exact hnul) hlt hrest
        rw [hend] at hrun hkeep
        refine ⟨calls, buf'', hrun, hout, fun j hj => ?_⟩
        rw [hkeep j hj, hsame j (by omega)]
      rw [scanLines_cons pattern hcstr hl hfirst h0.1 (by omega)]
      by_cases hmatch : matchText pattern l = true
      · obtain ⟨calls, buf', hrun, hout, hkeep⟩ := hgoes
          (Function.update (Function.update buf (p + l.length) 0)
            (p + l.length) newline) fun j hj => by
            rw [Function.update_of_ne (by omega),
              Function.update_of_ne (by omega)]
        refine ⟨_, buf', by rw [if_pos hmatch, hrun], ?_, hkeep⟩
        rw [output, hout, matching, matching, List.filter_cons_of_pos hmatch,
          unlines_cons]
        simp
      · obtain ⟨calls, buf', hrun, hout, hkeep⟩ := hgoes
          (Function.update buf (p + l.length) 0) fun j hj =>
            Function.update_of_ne (by omega) ..
        refine ⟨calls, buf', by rw [if_neg hmatch, hrun], ?_, hkeep⟩
        rw [hout, matching, matching, List.filter_cons_of_neg hmatch]

/-- One round of the loop of `grep` with `carry` at the start of the buffer. -/
theorem grepLoop_spec (pattern : Str) {reads : List Str} {carry : Str}
    {buf : Buf} (hcarry : slice buf 0 carry.length = carry)
    (hopen : newline ∉ carry) (h0 : 0 ∉ carry)
    (hreads : ∀ got ∈ reads, got ≠ [] ∧ 0 ∉ got)
    (hlegal : Legal (grepLoop pattern reads carry.length buf)) :
    output (grepLoop pattern reads carry.length buf) =
      matching pattern (kept newline carry reads) := by
  induction reads generalizing carry buf with
  | nil => simp [grepLoop, output, kept, matching]
  | cons got reads ih =>
      obtain ⟨hgot, hreads⟩ := List.forall_mem_cons.mp hreads
      have hne : got.length ≠ 0 := by simpa using hgot.1
      rw [grepLoop] at hlegal ⊢
      rw [if_neg hne] at hlegal ⊢
      have hroom : got.length ≤ BUFSIZE - carry.length - 1 :=
        hlegal _ _ List.mem_cons_self
      have hdata : slice (Function.update (overlay buf carry.length got)
          (carry.length + got.length) 0) 0 (carry ++ got).length =
            carry ++ got := by
        rw [slice_append_iff, Nat.zero_add]
        constructor
        · rw [slice_congr (g := buf), hcarry]
          intro k _ hk
          rw [Function.update_of_ne (by omega), overlay_of_lt (by omega)]
        · rw [slice_congr (g := overlay buf carry.length got), slice_overlay]
          intro k _ hk
          exact Function.update_of_ne (by omega) ..
      have hclean : 0 ∉ carry ++ got := by
        rw [List.mem_append, not_or]
        exact ⟨h0, hgot.2⟩
      obtain ⟨ls, tail, hsplit⟩ :
          ∃ ls tail, splitLines newline (carry ++ got) = (ls, tail) := ⟨_, _, rfl⟩
      have hlines : Lines newline (carry ++ got) ls tail := by
        simpa only [hsplit] using lines_splitLines newline (carry ++ got)
      have hcut : carry.length + got.length =
          (unlines newline ls).length + tail.length := by
        rw [← List.length_append, hlines.eq, List.length_append]
      obtain ⟨calls, buf', hscan, hout, hkeep⟩ :=
        scanLines_spec pattern hdata hclean
          (by rw [Nat.zero_add, List.length_append]; exact Function.update_self ..)
          (by rw [List.length_append]; omega) hlines
      rw [Nat.zero_add] at hscan hkeep
      rw [kept, hsplit]
      by_cases hnone : ls = []
      · -- No line has ended: the loop forgets what it has read.
        subst hnone
        simp only [hscan, unlines_nil, List.length_nil, if_pos, gt_iff_lt,
          lt_irrefl, if_false] at hlegal ⊢
        have hempty : slice buf' 0 ([] : Str).length = [] := rfl
        have hrest := ih hempty (by simp) (by simp) hreads (hlegal.of_append)
        rw [List.length_nil] at hrest
        rw [output, output_append, hout, hrest]
        simp [matching]
      · have hp : (unlines newline ls).length ≠ 0 := by
          obtain ⟨l, ls', rfl⟩ := List.exists_cons_of_ne_nil hnone
          simp
        have hm : carry.length + got.length - (unlines newline ls).length =
            tail.length := by omega
        have hmoved : slice (Ulib.memmove buf' 0 (unlines newline ls).length
            tail.length).2 0 tail.length = tail := by
          rw [slice_memmove, slice_congr (g := Function.update
            (overlay buf carry.length got) (carry.length + got.length) 0)
            fun k hk _ => hkeep k hk]
          have hend := hdata
          rw [hlines.eq, slice_append_iff, Nat.zero_add] at hend
          exact hend.2
        have hclean' : 0 ∉ tail := by
          rw [hlines.eq, List.mem_append, not_or] at hclean
          exact hclean.2
        simp only [hscan, if_neg hp, if_neg hnone, hm,
          if_pos (show carry.length + got.length > 0 by omega)] at hlegal ⊢
        rw [output, output_append, hout, ih hmoved hlines.unfinished hclean'
          hreads hlegal.of_append]
        simp [matching]

/-! ## The output of grep -/

section Output

variable {pattern : Str} {lines : List Str} {chunks : List Str}

theorem unlines_inj {ls ms : List Str} (hls : ∀ l ∈ ls, newline ∉ l)
    (hms : ∀ l ∈ ms, newline ∉ l) :
    unlines newline ls = unlines newline ms ↔ ls = ms := by
  constructor
  · intro h
    have hl : Lines newline (unlines newline ls) ls [] :=
      ⟨(List.append_nil _).symm, hls, by simp⟩
    have hm : Lines newline (unlines newline ls) ms [] :=
      ⟨by rw [h, List.append_nil], hms, by simp⟩
    exact (hl.unique hm).1
  · rintro rfl
    rfl

/-- grep writes the lines that match in what is left of the lines, when the
chunks that fall inside of them have been taken away. -/
theorem output_grep (hreads : ∀ got ∈ chunks, got ≠ [])
    (h0 : ∀ l ∈ lines, 0 ∉ l) (hnl : ∀ l ∈ lines, newline ∉ l)
    (hchunks : chunks.flatten = unlines newline lines)
    (hlegal : Legal (grep pattern chunks)) :
    output (grep pattern chunks) =
      matching pattern (remains (spans 0 chunks) 0 lines) := by
  have hlines : Lines newline chunks.flatten lines [] :=
    ⟨by rw [hchunks, List.append_nil], hnl, by simp⟩
  have hclean : ∀ got ∈ chunks, got ≠ [] ∧ 0 ∉ got := by
    intro got hgot
    refine ⟨hreads got hgot, fun h => ?_⟩
    have hmem : (0 : BitVec 8) ∈ unlines newline lines :=
      hchunks ▸ List.mem_flatten_of_mem hgot h
    obtain ⟨l, hl, hin⟩ := List.mem_flatMap.mp hmem
    rcases List.mem_append.mp hin with hin | hin
    · exact h0 l hl hin
    · exact absurd (List.mem_singleton.mp hin) (by decide)
  have hempty : ∀ buf : Buf, slice buf 0 ([] : Str).length = [] := fun _ => rfl
  rw [← kept_eq_remains hlines]
  exact grepLoop_spec pattern (hempty _) (by simp) (by simp) hclean hlegal

/-- The output is right when every chunk ends a line. -/
theorem output_grep_of_ended (h0 : ∀ l ∈ lines, 0 ∉ l)
    (hnl : ∀ l ∈ lines, newline ∉ l)
    (hchunks : chunks.flatten = unlines newline lines)
    (hlegal : Legal (grep pattern chunks)) (hended : ∀ c ∈ chunks, newline ∈ c) :
    output (grep pattern chunks) = matching pattern lines := by
  have hlines : Lines newline chunks.flatten lines [] :=
    ⟨by rw [hchunks, List.append_nil], hnl, by simp⟩
  rw [output_grep (fun got hgot => List.ne_nil_of_mem (hended got hgot)) h0 hnl
    hchunks hlegal, remains_eq_lines hended hlines]

/-- An input that fits into the buffer may arrive in any chunks. -/
theorem legal_grepLoop {m : ℕ} {buf : Buf}
    (h : m + chunks.flatten.length < BUFSIZE) :
    Legal (grepLoop pattern chunks m buf) := by
  induction chunks generalizing m buf with
  | nil => simp [grepLoop, Legal]
  | cons got chunks ih =>
      simp only [List.flatten_cons, List.length_append] at h
      intro n got' hmem
      rw [grepLoop, List.mem_cons] at hmem
      rcases hmem with heq | hmem
      · obtain ⟨rfl, rfl⟩ := Call.read.inj heq
        omega
      · by_cases hgot : got.length = 0
        · simp [hgot] at hmem
        · have hscan := read_not_mem_scanLines pattern (Function.update
            (overlay buf m got) (m + got.length) 0) 0 n got'
          simp only [if_neg hgot] at hmem
          generalize scanLines pattern _ 0 = r at hmem hscan
          by_cases hp : r.2.2 = 0
          · simp only [if_pos hp, gt_iff_lt, lt_irrefl, if_false,
              List.mem_append, hscan, false_or] at hmem
            exact ih (by omega) n got' hmem
          · have hm : m + got.length > 0 := by omega
            simp only [if_neg hp, if_pos hm, List.mem_append, hscan,
              false_or] at hmem
            exact ih (by omega) n got' hmem

/-- The output is what it should be exactly if the bytes that the chunks inside
of the lines take away do not matter to it. -/
theorem grep_output_iff (hreads : ∀ got ∈ chunks, got ≠ [])
    (h0 : ∀ l ∈ lines, 0 ∉ l) (hnl : ∀ l ∈ lines, newline ∉ l)
    (hchunks : chunks.flatten = unlines newline lines)
    (hlegal : Legal (grep pattern chunks)) :
    output (grep pattern chunks) = matching pattern lines ↔
      (remains (spans 0 chunks) 0 lines).filter (matchText pattern) =
        lines.filter (matchText pattern) := by
  rw [output_grep hreads h0 hnl hchunks hlegal]
  apply unlines_inj
  · intro l hl hmem
    obtain ⟨l', hl', hsuffix⟩ := suffix_of_mem_remains (List.mem_of_mem_filter hl)
    exact hnl l' hl' (hsuffix.mem hmem)
  · intro l hl
    exact hnl l (List.mem_of_mem_filter hl)

end Output

/-- `ab` is found in the line `ab` although the line `cd` arrives in parts. -/
theorem grep_output_ended :
    output (grep [0x61, 0x62] [[0x61, 0x62, 0x0a, 0x63], [0x64, 0x0a]]) =
      matching [0x61, 0x62] [[0x61, 0x62], [0x63, 0x64]] :=
  (grep_output_iff (by simp) (by decide) (by decide) (by decide)
    (legal_grepLoop (by decide))).mpr (by decide)

/-- `ab` is not found in the line `ab` when `a` and `b` are read one after the
other. -/
theorem grep_output_not_always :
    ¬ ∀ (pattern : Str) (lines chunks : List Str),
      (∀ l ∈ lines, 0 ∉ l ∧ newline ∉ l ∧ l.length < BUFSIZE - 1) →
      (∀ got ∈ chunks, got ≠ []) → chunks.flatten = unlines newline lines →
      Legal (grep pattern chunks) →
      output (grep pattern chunks) = matching pattern lines := by
  intro h
  have hlegal : Legal (grep [0x61, 0x62] [[0x61], [0x62, 0x0a]]) :=
    legal_grepLoop (by decide)
  have hout := h [0x61, 0x62] [[0x61, 0x62]] [[0x61], [0x62, 0x0a]]
    (by decide) (by simp) (by decide) hlegal
  have h0 : ∀ l ∈ ([[0x61, 0x62]] : List Str), 0 ∉ l := by decide
  rw [output_grep (by simp) h0 (by decide) (by decide) hlegal] at hout
  revert hout
  decide

end Grep

end ZtlOs
