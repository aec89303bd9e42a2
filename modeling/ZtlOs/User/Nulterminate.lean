import ZtlOs.Support.Cursor
import ZtlOs.User.Parsecmd

/-!
# The strings of a command

The strings of a command are the words of the line.  A word ends at a character
that is in no word, so the NUL that `nulterminate` writes there leaves every
other string as it is.
-/

namespace ZtlOs.Sh

open ZtlOs.Support ZtlOs.Support.Program ZtlOs.Support.Sequence

/-- The entries of `argv` and the files of all commands in the tree. -/
def Cmd.strings : Cmd → List Span
  | .exec argv => argv
  | .redir cmd file _ _ => cmd.strings ++ [file]
  | .pipe left right => left.strings ++ right.strings
  | .list left right => left.strings ++ right.strings
  | .back cmd => cmd.strings

def Token.words : List Token → List Span
  | [] => []
  | .word w :: ts => w :: words ts
  | _ :: ts => words ts

/-- The characters of a token. -/
def Span.chars (buf : Text) (w : Span) : Str :=
  slice buf w.start (w.stop - w.start)

/-- The NUL-terminated string at `p`. -/
structure StringAt (buf : Text) (p : ℕ) (s : Str) : Prop where
  chars : slice buf p s.length = s
  ne : 0 ∉ s
  nul : buf (p + s.length) = 0

/-! ## The strings are the words -/

@[simp] theorem words_append_tokens (ts us : List Token) :
    Token.words (ts ++ us) = Token.words ts ++ Token.words us := by
  induction ts with
  | nil => rfl
  | cons t ts ih => cases t <;> simp [Token.words, ih]

@[simp] theorem words_amps (k : ℕ) :
    Token.words (List.replicate k .amp) = [] := by
  induction k with
  | zero => rfl
  | succ k ih => exact ih

@[simp] theorem strings_back (k : ℕ) (c : Cmd) :
    (Cmd.back^[k] c).strings = c.strings := by
  induction k generalizing c with
  | zero => rfl
  | succ k ih => exact ih (.back c)

theorem strings_wrapAll (c : Cmd) (rs : List Redir) :
    (Redir.wrapAll c rs).strings = c.strings ++ rs.map Redir.file := by
  induction rs generalizing c with
  | nil => simp [Redir.wrapAll]
  | cons r rs ih =>
      have hr := ih (r.wrap c)
      simpa [Redir.wrapAll, Redir.wrap, Cmd.strings] using hr

theorem words_direction (d : Direction) (ts : List Token) :
    Token.words (d.token :: ts) = Token.words ts := by
  cases d <;> rfl

theorem words_redirs (rs : List Redir) :
    Token.words (rs.flatMap Redir.tokens) = rs.map Redir.file := by
  induction rs with
  | nil => rfl
  | cons r rs ih =>
      simp [Redir.tokens, words_direction, Token.words, ih]

theorem words_items (items : List Item) :
    (Item.words items ++ (Item.redirs items).map Redir.file).Perm
      (Token.words (items.flatMap Item.tokens)) := by
  induction items with
  | nil => exact .nil
  | cons item items ih =>
      cases item with
      | word w => simpa [Item.words, Item.redirs, Item.tokens, Token.words] using ih
      | redir r =>
          simpa [Item.words, Item.redirs, Item.tokens, Redir.tokens,
            words_direction, Token.words] using
            List.perm_middle.trans (ih.cons r.file)

/-- The strings of a command are the words that it is read from. -/
theorem Derives.strings_perm {N : Nonterminal} {ts : List Token} {c : Cmd}
    (h : Derives N ts c) : c.strings.Perm (Token.words ts) := by
  induction h with
  | line k h ih => simpa using ih
  | list k h h' ih ih' =>
      simpa [Cmd.strings, Token.words] using ih.append ih'
  | single h ih => exact ih
  | pipe h h' ih ih' => simpa [Cmd.strings, Token.words] using ih.append ih'
  | grouped h ih => exact ih
  | simple items h =>
      rw [strings_wrapAll]
      exact words_items items
  | block rs h ih =>
      rw [strings_wrapAll]
      simpa [Token.words, words_redirs] using ih.append_right (rs.map Redir.file)

/-! ## The words of a text -/

section

variable {buf : Text} {es s : ℕ} {ts : List Token} {w : Span}

/-- A maximal run of the characters of words. -/
structure Span.IsRun (buf : Text) (es : ℕ) (w : Span) : Prop where
  lt : w.start < w.stop
  le : w.stop ≤ es
  chars : ∀ i, w.start ≤ i → i < w.stop → IsWord (buf i)
  max : w.stop = es ∨ ¬IsWord (buf w.stop)

theorem words_symbol {t : Token} {c : BitVec 8} (h : t.first = some c)
    (ts : List Token) : Token.words (t :: ts) = Token.words ts := by
  cases t with
  | word w => cases h
  | _ => rfl

theorem Tokens.isRun (h : Tokens buf es s ts) (hw : w ∈ Token.words ts) :
    s ≤ w.start ∧ w.IsRun buf es := by
  induction h with
  | done => cases hw
  | blank hs hc h ih => exact ⟨by have := (ih hw).1; omega, (ih hw).2⟩
  | symbol hs hc hgt h ih =>
      rw [words_symbol hc] at hw
      exact ⟨by have := (ih hw).1; omega, (ih hw).2⟩
  | gt hs hc hn h ih => exact ⟨by have := (ih hw).1; omega, (ih hw).2⟩
  | append hs hc hn h ih => exact ⟨by have := (ih hw).1; omega, (ih hw).2⟩
  | word hlt he hchars hmax h ih =>
      rcases List.mem_cons.mp hw with rfl | hw
      · exact ⟨le_rfl, hlt, he, hchars, hmax⟩
      · exact ⟨by have := (ih hw).1; omega, (ih hw).2⟩

/-- The words follow one another. -/
theorem Tokens.pairwise_words (h : Tokens buf es s ts) :
    (Token.words ts).Pairwise fun v w => v.stop ≤ w.start := by
  induction h with
  | done => exact .nil
  | blank hs hc h ih => exact ih
  | symbol hs hc hgt h ih =>
      rw [words_symbol hc]
      exact ih
  | gt hs hc hn h ih => exact ih
  | append hs hc hn h ih => exact ih
  | word hlt he hchars hmax h ih =>
      exact .cons (fun w hw => (h.isRun hw).1) ih

theorem Tokens.nodup_words (h : Tokens buf es s ts) :
    (Token.words ts).Nodup := by
  refine h.pairwise_words.imp_of_mem fun hv hw hle heq => ?_
  have hlt := (h.isRun hv).2.lt
  subst heq
  omega

/-- No word goes on behind the end of another one. -/
theorem Span.IsRun.stop_ne {v : Span} (hv : v.IsRun buf es) (hw : w.IsRun buf es)
    {i : ℕ} (hi : w.start ≤ i) (hlt : i < w.stop) : v.stop ≠ i := by
  rintro rfl
  rcases hv.max with hend | hmax
  · have hle := hw.le
    omega
  · exact hmax (hw.chars _ hi hlt)

end

/-! ## Termination -/

theorem foldl_nul (argv : List Span) (buf : Text) (i : ℕ) :
    argv.foldl (fun buf w => Function.update buf w.stop 0) buf i =
      if ∃ w ∈ argv, w.stop = i then 0 else buf i := by
  induction argv generalizing buf with
  | nil => simp
  | cons w argv ih =>
      rw [List.foldl_cons, ih]
      by_cases hi : w.stop = i
      · simp [hi]
      · simp [hi, Function.update_of_ne (Ne.symm hi)]

/-- A NUL is put behind each of the strings, and nowhere else. -/
theorem nulterminate_eq (c : Cmd) (buf : Text) (i : ℕ) :
    nulterminate c buf i =
      if ∃ w ∈ c.strings, w.stop = i then 0 else buf i := by
  induction c generalizing buf with
  | exec argv => exact foldl_nul argv buf i
  | redir cmd file mode fd ih =>
      rw [nulterminate]
      by_cases hi : file.stop = i
      · simp [Cmd.strings, hi]
      · rw [Function.update_of_ne (Ne.symm hi), ih]
        simp [Cmd.strings, hi]
  | pipe left right ihl ihr =>
      rw [nulterminate, ihr, ihl]
      by_cases hr : ∃ w ∈ right.strings, w.stop = i
      · simp [Cmd.strings, hr, or_and_right, exists_or]
      · simp [Cmd.strings, hr, or_and_right, exists_or]
  | list left right ihl ihr =>
      rw [nulterminate, ihr, ihl]
      by_cases hr : ∃ w ∈ right.strings, w.stop = i
      · simp [Cmd.strings, hr, or_and_right, exists_or]
      · simp [Cmd.strings, hr, or_and_right, exists_or]
  | back cmd ih => exact ih buf

theorem stringAt_of_isRun {buf buf' : Text} {es : ℕ} {w : Span}
    (hb : Terminated buf es) (hw : w.IsRun buf es) (hnul : buf' w.stop = 0)
    (hkeep : ∀ i, w.start ≤ i → i < w.stop → buf' i = buf i) :
    StringAt buf' w.start (w.chars buf) := by
  have hlt := hw.lt
  have hle := hw.le
  have hlen : (w.chars buf).length = w.stop - w.start := by
    simp [Span.chars]
  refine ⟨?_, fun h0 => ?_, ?_⟩
  · rw [hlen]
    exact slice_congr fun i hi hi' => hkeep i hi (by omega)
  · obtain ⟨i, hi, hzero⟩ := List.mem_map.mp h0
    have hi := List.mem_range.mp hi
    exact hb.ne (w.start + i) (by omega) hzero
  · rw [hlen]
    rwa [Nat.add_sub_cancel' hlt.le]

/-- Every string of a command is the text of its own word. -/
theorem Derives.stringAt {line : Str} {ts : List Token} {c : Cmd} {w : Span}
    (hd : Derives .line ts c) (hts : Tokens (text line) (strlen line) 0 ts)
    (hw : w ∈ c.strings) :
    StringAt (nulterminate c (text line)) w.start (w.chars (text line)) := by
  have hmem := fun v => (hd.strings_perm.mem_iff (a := v)).mp
  have hrun := (hts.isRun (hmem w hw)).2
  refine stringAt_of_isRun (terminated_text line) hrun ?_ fun i hi hlt => ?_
  · rw [nulterminate_eq, if_pos ⟨w, hw, rfl⟩]
  · rw [nulterminate_eq, if_neg]
    rintro ⟨v, hv, hstop⟩
    exact (hts.isRun (hmem v hv)).2.stop_ne hrun hi hlt hstop

/-- After `nulterminate` the strings of the command are the words of the line,
each of them once, and every string is the text of its own word. -/
theorem strings_terminated {line : Str} {fuel : ℕ} {cmd : Cmd} {buf : Text}
    (hfuel : 4 * strlen line + 4 ≤ fuel)
    (h : parsecmd fuel line = .ok (cmd, buf)) :
    ∃ ts, Tokens (text line) (strlen line) 0 ts ∧
      cmd.strings.Perm (Token.words ts) ∧ (Token.words ts).Nodup ∧
      ∀ w ∈ cmd.strings, StringAt buf w.start (w.chars (text line)) := by
  obtain ⟨ts, hts⟩ := Tokens.exists (text line) (Nat.zero_le (strlen line))
  obtain ⟨hd, rfl⟩ := parsecmd_sound hfuel hts h
  exact ⟨ts, hts, hd.strings_perm, hts.nodup_words, fun w hw => hd.stringAt hts hw⟩

/-- `a>b` -/
theorem strings_terminated_redirection :
    ∃ ts, Tokens (text [letter, gt, 0x62]) 3 0 ts ∧
      [Span.mk 0 1, ⟨2, 3⟩].Perm (Token.words ts) ∧ (Token.words ts).Nodup ∧
      ∀ w ∈ [Span.mk 0 1, ⟨2, 3⟩], StringAt
        (nulterminate (.redir (.exec [⟨0, 1⟩]) ⟨2, 3⟩ (O_WRONLY ||| O_CREATE) 1)
          (text [letter, gt, 0x62])) w.start
        (w.chars (text [letter, gt, 0x62])) :=
  @strings_terminated [letter, gt, 0x62] 16 _ _ (by decide) rfl

end ZtlOs.Sh
