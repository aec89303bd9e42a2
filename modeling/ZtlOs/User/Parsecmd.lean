import ZtlOs.User.Grammar

/-!
# The parser recognises the grammar

The parsing functions only return trees of the grammar, and return at all if
they have fuel enough; both are shown by induction on the fuel.  That they
return the tree of every command is shown by induction on the derivation, for
what may follow the command.
-/

namespace ZtlOs.Sh

open ZtlOs.Support ZtlOs.Support.Program

section

variable {buf : Text} {es : ℕ} {ts : List Token} {fuel : ℕ}

/-! ## Soundness -/

/-- A function that stops has found an error. -/
def Halts (e : Stop) : Prop :=
  e ≠ .outOfFuel

theorem parseredirs_sound (hb : Terminated buf es) {cmd : Cmd}
    (hfuel : ts.length < fuel) :
    Reads (Tokens buf es) ts (parseredirs buf es fuel cmd)
      (fun c us => ∃ rs : List Redir,
        ts = rs.flatMap Redir.tokens ++ us ∧ c = Redir.wrapAll cmd rs)
      Halts := by
  induction fuel generalizing cmd ts with
  | zero => omega
  | succ fuel ih =>
      rw [parseredirs]
      refine reads_peek hb (by decide) (fun hstart => ?_) fun _ => ?_
      · obtain ⟨d, us, rfl⟩ := hstart.direction
        rw [List.length_cons] at hfuel
        refine reads_gettoken hb fun _ _ => ?_
        cases us with
        | nil =>
            have hnul : (0 : BitVec 8) ≠ letter := by decide
            exact reads_gettoken_nil hb fun _ => .ite
              (fun _ => .throw (by simp [Halts])) fun h => absurd hnul h
        | cons t us =>
            refine reads_gettoken hb fun q hq => .ite
              (fun _ => .throw (by simp [Halts])) fun hcode => ?_
            obtain ⟨w, rfl⟩ := eq_word_of_code (not_not.mp hcode)
            obtain rfl := hq w rfl
            rw [List.length_cons] at hfuel
            refine (ih (by omega)).imp fun c vs h => ?_
            obtain ⟨rs, rfl, rfl⟩ := h
            exact ⟨⟨d, q⟩ :: rs, rfl, by
              simp only [redirect_eq ⟨d, q⟩]
              rfl⟩
      · exact .pure ⟨[], rfl, rfl⟩

theorem backLoop_sound (hb : Terminated buf es) {cmd : Cmd}
    (hfuel : ts.length < fuel) :
    Reads (Tokens buf es) ts (backLoop buf es fuel cmd)
      (fun c us => ∃ k, ts = List.replicate k .amp ++ us ∧ c = Cmd.back^[k] cmd)
      Halts := by
  induction fuel generalizing cmd ts with
  | zero => omega
  | succ fuel ih =>
      rw [backLoop]
      refine reads_peek hb (by decide) (fun hstart => ?_) fun _ => ?_
      · obtain ⟨us, rfl⟩ := hstart.eq_cons (u := .amp) rfl (by decide)
        rw [List.length_cons] at hfuel
        refine reads_gettoken hb fun _ _ => (ih (by omega)).imp fun c vs h => ?_
        obtain ⟨k, rfl, rfl⟩ := h
        exact ⟨k + 1, rfl, rfl⟩
      · exact .pure ⟨0, rfl, rfl⟩

theorem execLoop_sound (hb : Terminated buf es) (argv : List Span)
    (rs : List Redir) (hfuel : ts.length < fuel) (hargs : argv.length < MAXARGS) :
    Reads (Tokens buf es) ts
      (execLoop buf es fuel (Redir.wrapAll (.exec argv) rs) argv.length)
      (fun c us => ∃ items : List Item,
        ts = items.flatMap Item.tokens ++ us ∧
        c = Redir.wrapAll (.exec (argv ++ Item.words items))
          (rs ++ Item.redirs items) ∧
        (argv ++ Item.words items).length < MAXARGS) Halts := by
  induction fuel generalizing argv rs ts with
  | zero => omega
  | succ fuel ih =>
      have hstop : ∃ items : List Item, ts = items.flatMap Item.tokens ++ ts ∧
          Redir.wrapAll (.exec argv) rs = Redir.wrapAll
            (.exec (argv ++ Item.words items)) (rs ++ Item.redirs items) ∧
          (argv ++ Item.words items).length < MAXARGS :=
        ⟨[], by simpa [Item.words, Item.redirs] using hargs⟩
      rw [execLoop]
      refine reads_peek hb (by decide) (fun _ => .pure hstop) fun _ => ?_
      cases ts with
      | nil =>
          exact reads_gettoken_nil hb fun _ => .ite (fun _ => .pure hstop)
            fun h => absurd rfl h
      | cons t us =>
          rw [List.length_cons] at hfuel
          refine reads_gettoken hb fun q hq => .ite
            (fun h => absurd h t.code_ne_zero) fun _ => .ite
            (fun _ => .throw (by simp [Halts])) fun hcode => .ite
            (fun _ => .throw (by simp [Halts])) fun hlt => ?_
          obtain ⟨w, rfl⟩ := eq_word_of_code (not_not.mp hcode)
          obtain rfl := hq w rfl
          rw [pushArg_wrapAll]
          refine (parseredirs_sound hb (by omega)).bind fun c vs h => ?_
          obtain ⟨rs', rfl, rfl⟩ := h
          rw [List.length_append] at hfuel
          have hlen : argv.length + 1 = (argv ++ [q]).length := by simp
          simp only [Cmd.pushArg, ← wrapAll_append, hlen]
          refine (ih (argv ++ [q]) (rs ++ rs') (by omega) (by omega)).imp
            fun c us h => ?_
          obtain ⟨items, rfl, rfl, hwords⟩ := h
          obtain ⟨htok, hw, hr⟩ := items_redir rs'
          refine ⟨.word q :: (rs'.map Item.redir ++ items), ?_, ?_, ?_⟩
          · simp [Item.tokens, htok]
          · simp [Item.words, Item.redirs, words_append, redirs_append, hw, hr]
          · simpa [Item.words, words_append, hw] using hwords

variable (buf es) in
/-- The parsing function of a nonterminal. -/
def parser : Nonterminal → ℕ → Parser Cmd
  | .line => parseline buf es
  | .pipe => parsepipe buf es
  | .exec => parseexec buf es
  | .block => parseblock buf es

/-- How many calls go by before a token is taken. -/
def Nonterminal.depth : Nonterminal → ℕ
  | .line => 4
  | .pipe => 3
  | .exec => 2
  | .block => 1

/-- `c` is a command that has been read. -/
def Parsed (N : Nonterminal) (ts : List Token) (c : Cmd) (us : List Token) :
    Prop :=
  ∃ pre, ts = pre ++ us ∧ Derives N pre c

theorem parser_sound (hb : Terminated buf es) (N : Nonterminal)
    (hfuel : 4 * ts.length + N.depth ≤ fuel) :
    Reads (Tokens buf es) ts (parser buf es N fuel) (Parsed N ts) Halts := by
  induction fuel generalizing N ts with
  | zero => cases N <;> simp only [Nonterminal.depth] at hfuel <;> omega
  | succ fuel ih =>
      cases N with
      | line =>
          simp only [Nonterminal.depth] at hfuel
          rw [parser, parseline]
          refine (ih .pipe (by simp only [Nonterminal.depth]; omega)).bind
            fun c us h => ?_
          obtain ⟨pre, rfl, hc⟩ := h
          rw [List.length_append] at hfuel
          refine (backLoop_sound hb (by omega)).bind fun c' vs h => ?_
          obtain ⟨k, rfl, rfl⟩ := h
          rw [List.length_append] at hfuel
          refine reads_peek hb (by decide) (fun hstart => ?_) fun _ => .pure
            ⟨_, (List.append_assoc ..).symm, .line k hc⟩
          obtain ⟨ws, rfl⟩ := hstart.eq_cons (u := .semi) rfl (by decide)
          rw [List.length_cons] at hfuel
          refine reads_gettoken hb fun _ _ => ?_
          refine (ih .line (by simp only [Nonterminal.depth]; omega)).bind
            fun d us h => .pure ?_
          obtain ⟨post, rfl, hd⟩ := h
          exact ⟨_, by simp, .list k hc hd⟩
      | pipe =>
          simp only [Nonterminal.depth] at hfuel
          rw [parser, parsepipe]
          refine (ih .exec (by simp only [Nonterminal.depth]; omega)).bind
            fun c us h => ?_
          obtain ⟨pre, rfl, hc⟩ := h
          rw [List.length_append] at hfuel
          refine reads_peek hb (by decide) (fun hstart => ?_) fun _ => .pure
            ⟨pre, rfl, .single hc⟩
          obtain ⟨vs, rfl⟩ := hstart.eq_cons (u := .bar) rfl (by decide)
          rw [List.length_cons] at hfuel
          refine reads_gettoken hb fun _ _ => ?_
          refine (ih .pipe (by simp only [Nonterminal.depth]; omega)).bind
            fun d us h => .pure ?_
          obtain ⟨post, rfl, hd⟩ := h
          exact ⟨_, by simp, .pipe hc hd⟩
      | exec =>
          simp only [Nonterminal.depth] at hfuel
          rw [parser, parseexec]
          refine reads_peek hb (by decide) (fun _ => ?_) fun _ => ?_
          · refine (ih .block (by simp only [Nonterminal.depth]; omega)).imp
              fun c us h => ?_
            obtain ⟨pre, rfl, hc⟩ := h
            exact ⟨pre, rfl, .grouped hc⟩
          · refine (parseredirs_sound hb (by omega)).bind fun c us h => ?_
            obtain ⟨rs, rfl, rfl⟩ := h
            rw [List.length_append] at hfuel
            refine (execLoop_sound hb [] rs (by omega) (by decide)).imp
              fun c vs h => ?_
            obtain ⟨items, rfl, rfl, hwords⟩ := h
            obtain ⟨htok, hw, hr⟩ := items_redir rs
            have hexec := Derives.simple (rs.map Item.redir ++ items)
              (by simpa [words_append, hw] using Nat.le_sub_one_of_lt hwords)
            simp only [List.flatMap_append, htok, words_append, hw,
              redirs_append, hr] at hexec
            exact ⟨_, by simp, hexec⟩
      | block =>
          simp only [Nonterminal.depth] at hfuel
          rw [parser, parseblock]
          refine reads_peek hb (by decide) (fun hstart => ?_) fun _ =>
            .throw (by simp [Halts])
          obtain ⟨us, rfl⟩ := hstart.eq_cons (u := .lparen) rfl (by decide)
          rw [List.length_cons] at hfuel
          refine reads_gettoken hb fun _ _ => ?_
          refine (ih .line (by simp only [Nonterminal.depth]; omega)).bind
            fun c vs h => ?_
          obtain ⟨pre, rfl, hc⟩ := h
          refine reads_peek hb (by decide) (fun hstart => ?_) fun _ =>
            .throw (by simp [Halts])
          obtain ⟨ws, rfl⟩ := hstart.eq_cons (u := .rparen) rfl (by decide)
          rw [List.length_append, List.length_cons] at hfuel
          refine reads_gettoken hb fun _ _ => ?_
          refine (parseredirs_sound hb (by omega)).imp fun d us h => ?_
          obtain ⟨rs, rfl, rfl⟩ := h
          exact ⟨_, by simp, .block rs hc⟩

/-! ## Completeness -/

/-- What the function of a nonterminal may leave. -/
def Follows : Nonterminal → List Token → Prop
  | .line, ts => ts = [] ∨ Starts [rparen] ts
  | .pipe, ts => ts = [] ∨ Starts [rparen, amp, semi] ts
  | .exec, ts => ts = [] ∨ Starts [rparen, amp, semi, bar] ts
  | .block, ts => ¬Starts [lt, gt] ts

/-- The function reads exactly `c`, from `ts` to `us`. -/
abbrev ReadsTo (buf : Text) (es : ℕ) (ts : List Token) (x : Parser Cmd) (c : Cmd)
    (us : List Token) : Prop :=
  Reads (Tokens buf es) ts x (fun a vs => a = c ∧ vs = us) fun _ => False

theorem parseredirs_reads (hb : Terminated buf es) {cmd : Cmd}
    (rs : List Redir) (hts : ¬Starts [lt, gt] ts) (hfuel : rs.length < fuel) :
    ReadsTo buf es (rs.flatMap Redir.tokens ++ ts)
      (parseredirs buf es fuel cmd) (Redir.wrapAll cmd rs) ts := by
  induction rs generalizing cmd fuel with
  | nil =>
      obtain ⟨n, rfl⟩ := Nat.exists_eq_succ_of_ne_zero hfuel.ne_bot
      rw [parseredirs]
      exact reads_peek hb (by decide) (fun h => absurd h hts)
        fun _ => .pure ⟨rfl, rfl⟩
  | cons r rs ih =>
      obtain ⟨n, rfl⟩ := Nat.exists_eq_succ_of_ne_zero (Nat.ne_zero_of_lt hfuel)
      rw [List.length_cons] at hfuel
      rw [parseredirs]
      refine reads_peek hb (by decide) (fun _ => ?_)
        fun h => absurd (starts_direction _ _) h
      refine reads_gettoken hb fun _ _ => reads_gettoken hb fun q hq =>
        .ite (fun h => absurd rfl h) fun _ => ?_
      obtain rfl := hq r.file rfl
      rw [redirect_eq]
      exact ih (by omega)

theorem backLoop_reads (hb : Terminated buf es) {cmd : Cmd} (k : ℕ)
    (hts : ¬Starts [amp] ts) (hfuel : k < fuel) :
    ReadsTo buf es (List.replicate k .amp ++ ts) (backLoop buf es fuel cmd)
      (Cmd.back^[k] cmd) ts := by
  induction k generalizing cmd fuel with
  | zero =>
      obtain ⟨n, rfl⟩ := Nat.exists_eq_succ_of_ne_zero (Nat.ne_zero_of_lt hfuel)
      rw [backLoop]
      exact reads_peek hb (by decide) (fun h => absurd h hts)
        fun _ => .pure ⟨rfl, rfl⟩
  | succ k ih =>
      obtain ⟨n, rfl⟩ := Nat.exists_eq_succ_of_ne_zero (Nat.ne_zero_of_lt hfuel)
      rw [backLoop]
      refine reads_peek hb (by decide) (fun _ => ?_)
        fun h => absurd (starts_of_first (c := amp) rfl (by decide) _) h
      exact reads_gettoken hb fun _ _ => ih (by omega)

/-- The redirections in front of the next word. -/
theorem exists_redirs (items : List Item) :
    ∃ (rs : List Redir) (tail : List Item),
      items = rs.map Item.redir ++ tail ∧
      (tail = [] ∨ ∃ w items', tail = .word w :: items') := by
  induction items with
  | nil => exact ⟨[], [], rfl, .inl rfl⟩
  | cons item items ih =>
      cases item with
      | word w => exact ⟨[], _, rfl, .inr ⟨w, items, rfl⟩⟩
      | redir r =>
          obtain ⟨rs, tail, rfl, htail⟩ := ih
          exact ⟨r :: rs, tail, rfl, htail⟩

theorem Follows.not_redir (h : Follows .exec ts) : ¬Starts [lt, gt] ts := by
  rcases h with rfl | h
  · exact not_starts_nil _
  · exact h.not (by decide)

theorem execLoop_nil (hb : Terminated buf es) {ret : Cmd} (argc : ℕ)
    (hts : Follows .exec ts) (hfuel : 0 < fuel) :
    ReadsTo buf es ts (execLoop buf es fuel ret argc) ret ts := by
  obtain ⟨n, rfl⟩ := Nat.exists_eq_succ_of_ne_zero hfuel.ne'
  rw [execLoop]
  refine reads_peek hb (by decide) (fun _ => .pure ⟨rfl, rfl⟩) fun hnot => ?_
  rcases hts with rfl | hts
  · exact reads_gettoken_nil hb fun _ => .ite (fun _ => .pure ⟨rfl, rfl⟩)
      fun h => absurd rfl h
  · exact absurd (hts.mono (by decide)) hnot

/-- The body of `parseexec`, for a command that has the arguments `argv` and the
redirections `rs` so far. -/
theorem items_reads (hb : Terminated buf es) (argv : List Span)
    (rs : List Redir) {m : ℕ} (items : List Item) (hts : Follows .exec ts)
    (hargs : (argv ++ Item.words items).length < MAXARGS)
    (hfuel : items.length < fuel) (hm : items.length < m) :
    ReadsTo buf es (items.flatMap Item.tokens ++ ts)
      (parseredirs buf es fuel (Redir.wrapAll (.exec argv) rs) >>= fun ret =>
        execLoop buf es m ret argv.length)
      (Redir.wrapAll (.exec (argv ++ Item.words items))
        (rs ++ Item.redirs items)) ts := by
  induction hn : items.length using Nat.strong_induction_on
    generalizing items argv rs fuel m with
  | h n ih =>
      obtain ⟨rs', tail, rfl, htail⟩ := exists_redirs items
      obtain ⟨htok, hw, hr⟩ := items_redir rs'
      rw [List.length_append, List.length_map] at hfuel hm hn
      simp only [List.flatMap_append, htok, words_append, hw, redirs_append, hr,
        List.nil_append, List.append_assoc] at hargs ⊢
      rcases htail with rfl | ⟨w, items, rfl⟩
      · refine (parseredirs_reads hb rs' hts.not_redir (by omega)).bind
          fun c us h => ?_
        obtain ⟨rfl, rfl⟩ := h
        rw [← wrapAll_append]
        simpa [Item.words, Item.redirs] using
          execLoop_nil hb argv.length hts (by omega)
      · refine (parseredirs_reads hb rs' (not_starts_word w _) (by omega)).bind
          fun c us h => ?_
        obtain ⟨rfl, rfl⟩ := h
        obtain ⟨m, rfl⟩ := Nat.exists_eq_succ_of_ne_zero (Nat.ne_zero_of_lt hm)
        rw [List.length_cons] at hfuel hm hn
        simp only [Item.words, List.length_append, List.length_cons] at hargs
        rw [execLoop]
        refine reads_peek hb (by decide) (fun h => absurd h (not_starts_word w _))
          fun _ => reads_gettoken hb fun q hq => .ite
          (fun h => absurd h (Token.code_ne_zero (.word w))) fun _ => .ite
          (fun h => absurd rfl h) fun _ => .ite (fun h => by omega) fun _ => ?_
        obtain rfl := hq w rfl
        rw [← wrapAll_append, pushArg_wrapAll]
        have hlen : argv.length + 1 = (argv ++ [q]).length := by simp
        have hargs' : (argv ++ [q] ++ Item.words items).length < MAXARGS := by
          simp only [List.length_append, List.length_singleton]
          omega
        have hrest := @ih items.length (by omega) m (argv ++ [q]) (rs ++ rs') m
          items hargs' (by omega) (by omega) rfl
        simp only [List.append_assoc, List.singleton_append] at hrest
        simp only [Cmd.pushArg, Item.words, Item.redirs, hlen]
        exact hrest

theorem Derives.exists_lparen {c : Cmd} (h : Derives .block ts c) :
    ∃ us, ts = .lparen :: us := by
  cases h with
  | block rs h => exact ⟨_, rfl⟩

/-- A simple command does not begin with a parenthesis. -/
theorem not_lparen (items : List Item) {us : List Token}
    (hus : Follows .exec us) :
    ¬Starts [lparen] (items.flatMap Item.tokens ++ us) := by
  cases items with
  | nil =>
      rcases hus with rfl | hus
      · exact not_starts_nil _
      · exact hus.not (by decide)
  | cons item items =>
      cases item with
      | word w => exact not_starts_word w _
      | redir r => exact (starts_direction r.direction _).not (by decide)

theorem length_items_le (items : List Item) :
    items.length ≤ (items.flatMap Item.tokens).length := by
  induction items with
  | nil => exact le_rfl
  | cons item items ih =>
      cases item <;>
        simp only [List.flatMap_cons, List.length_append, List.length_cons,
          Item.tokens, Redir.tokens] <;> omega

theorem length_redirs_le (rs : List Redir) :
    rs.length ≤ (rs.flatMap Redir.tokens).length := by
  induction rs with
  | nil => exact le_rfl
  | cons r rs ih =>
      simp only [List.flatMap_cons, List.length_append, List.length_cons,
        Redir.tokens]
      omega

theorem Follows.pipe (h : Follows .line ts) : Follows .pipe ts :=
  h.imp_right fun h => h.mono (by decide)

theorem Follows.exec (h : Follows .pipe ts) : Follows .exec ts :=
  h.imp_right fun h => h.mono (by decide)

theorem Follows.amps (k : ℕ) (h : Follows .pipe ts) :
    Follows .pipe (List.replicate k .amp ++ ts) := by
  cases k with
  | zero => exact h
  | succ k => exact .inr (starts_of_first (c := amp) rfl (by decide) _)

theorem Follows.line_not (h : Follows .line ts) :
    ¬Starts [amp] ts ∧ ¬Starts [semi] ts := by
  rcases h with rfl | h
  · exact ⟨not_starts_nil _, not_starts_nil _⟩
  · exact ⟨h.not (by decide), h.not (by decide)⟩

theorem Follows.pipe_not (h : Follows .pipe ts) : ¬Starts [bar] ts := by
  rcases h with rfl | h
  · exact not_starts_nil _
  · exact h.not (by decide)

theorem exists_fuel {n : ℕ} {N : Nonterminal} (h : n + N.depth ≤ fuel) :
    ∃ m, fuel = m + 1 := by
  refine ⟨fuel - 1, ?_⟩
  cases N <;> simp only [Nonterminal.depth] at h <;> omega

theorem parser_reads (hb : Terminated buf es) {N : Nonterminal} {c : Cmd}
    {us : List Token} (h : Derives N ts c) (hus : Follows N us)
    (hfuel : 4 * (ts ++ us).length + N.depth ≤ fuel) :
    ReadsTo buf es (ts ++ us) (parser buf es N fuel) c us := by
  induction h generalizing us fuel with
  | line k h ih =>
      obtain ⟨m, rfl⟩ := exists_fuel hfuel
      simp only [List.append_assoc, List.length_append, List.length_replicate,
        Nonterminal.depth] at hfuel ⊢
      rw [parser, parseline]
      refine (ih (hus.pipe.amps k) (by
        simp only [List.length_append, List.length_replicate,
          Nonterminal.depth]
        omega)).bind fun a vs h => ?_
      obtain ⟨rfl, rfl⟩ := h
      refine (backLoop_reads hb k hus.line_not.1 (by omega)).bind
        fun a vs h => ?_
      obtain ⟨rfl, rfl⟩ := h
      exact reads_peek hb (by decide) (fun h => absurd h hus.line_not.2)
        fun _ => .pure ⟨rfl, rfl⟩
  | @list ts ts' c d k h h' ih ih' =>
      obtain ⟨m, rfl⟩ := exists_fuel hfuel
      simp only [List.append_assoc, List.cons_append, List.length_append,
        List.length_cons, List.length_replicate, Nonterminal.depth] at hfuel ⊢
      have hsemi : Starts [semi] (.semi :: (ts' ++ us)) :=
        starts_of_first (c := semi) rfl (by decide) _
      rw [parser, parseline]
      refine (ih (.amps k (.inr (hsemi.mono (by decide)))) (by
        simp only [List.length_append, List.length_cons,
          List.length_replicate, Nonterminal.depth]
        omega)).bind fun a vs h => ?_
      obtain ⟨rfl, rfl⟩ := h
      refine (backLoop_reads hb k (hsemi.not (by decide)) (by omega)).bind
        fun a vs h => ?_
      obtain ⟨rfl, rfl⟩ := h
      refine reads_peek hb (by decide) (fun _ => ?_) fun h => absurd hsemi h
      refine reads_gettoken hb fun _ _ => ?_
      refine (ih' hus (by
        simp only [List.length_append, Nonterminal.depth]
        omega)).bind fun a vs h => .pure ?_
      obtain ⟨rfl, rfl⟩ := h
      exact ⟨rfl, rfl⟩
  | single h ih =>
      obtain ⟨m, rfl⟩ := exists_fuel hfuel
      simp only [Nonterminal.depth] at hfuel
      rw [parser, parsepipe]
      refine (ih hus.exec (by simp only [Nonterminal.depth]; omega)).bind
        fun a vs h => ?_
      obtain ⟨rfl, rfl⟩ := h
      exact reads_peek hb (by decide) (fun h => absurd h hus.pipe_not)
        fun _ => .pure ⟨rfl, rfl⟩
  | @pipe ts ts' c d h h' ih ih' =>
      obtain ⟨m, rfl⟩ := exists_fuel hfuel
      simp only [List.append_assoc, List.cons_append, List.length_append,
        List.length_cons, Nonterminal.depth] at hfuel ⊢
      have hbar : Starts [bar] (.bar :: (ts' ++ us)) :=
        starts_of_first (c := bar) rfl (by decide) _
      rw [parser, parsepipe]
      refine (ih (.inr (hbar.mono (by decide))) (by
        simp only [List.length_append, List.length_cons, Nonterminal.depth]
        omega)).bind fun a vs h => ?_
      obtain ⟨rfl, rfl⟩ := h
      refine reads_peek hb (by decide) (fun _ => ?_) fun h => absurd hbar h
      refine reads_gettoken hb fun _ _ => ?_
      refine (ih' hus (by
        simp only [List.length_append, Nonterminal.depth]
        omega)).bind fun a vs h => .pure ?_
      obtain ⟨rfl, rfl⟩ := h
      exact ⟨rfl, rfl⟩
  | grouped h ih =>
      obtain ⟨m, rfl⟩ := exists_fuel hfuel
      simp only [Nonterminal.depth] at hfuel
      obtain ⟨ts', rfl⟩ := h.exists_lparen
      rw [parser, parseexec]
      refine reads_peek hb (by decide) (fun _ => ?_) fun h =>
        absurd (starts_of_first (c := lparen) rfl (by decide) _) h
      exact ih hus.not_redir (by simp only [Nonterminal.depth]; omega)
  | simple items h =>
      obtain ⟨m, rfl⟩ := exists_fuel hfuel
      simp only [List.length_append, Nonterminal.depth] at hfuel
      have hlen := length_items_le items
      rw [parser, parseexec]
      refine reads_peek hb (by decide) (fun h => absurd h (not_lparen items hus))
        fun _ => ?_
      exact items_reads hb [] [] items hus
        (Nat.lt_of_le_sub_one (by decide) h) (by omega) (by omega)
  | @block ts c rs h ih =>
      obtain ⟨m, rfl⟩ := exists_fuel hfuel
      simp only [List.append_assoc, List.cons_append, List.length_append,
        List.length_cons, Nonterminal.depth] at hfuel ⊢
      have hlen := length_redirs_le rs
      have hclose : Starts [rparen]
          (.rparen :: (rs.flatMap Redir.tokens ++ us)) :=
        starts_of_first (c := rparen) rfl (by decide) _
      rw [parser, parseblock]
      refine reads_peek hb (by decide) (fun _ => ?_) fun h =>
        absurd (starts_of_first (c := lparen) rfl (by decide) _) h
      refine reads_gettoken hb fun _ _ => ?_
      refine (ih (.inr hclose) (by
        simp only [List.length_append, List.length_cons, Nonterminal.depth]
        omega)).bind fun a vs h => ?_
      obtain ⟨rfl, rfl⟩ := h
      refine reads_peek hb (by decide) (fun _ => ?_) fun h => absurd hclose h
      refine reads_gettoken hb fun _ _ => ?_
      exact parseredirs_reads hb rs hus (by omega)

/-! ## The whole line -/

theorem Tokens.eq_end {s : ℕ} (h : Tokens buf es s [])
    (hlead : s = es ∨ buf s ∉ whitespace) : s = es := by
  cases h with
  | done => rfl
  | blank hs hc _ => exact hlead.resolve_right fun hnot => hnot hc

theorem Tokens.eq_nil (h : Tokens buf es es ts) : ts = [] := by
  have hlen := h.length_le
  exact List.eq_nil_of_length_eq_zero (by omega)

/-- Behind the command there must be nothing. -/
theorem end_reads {cmd : Cmd} :
    Reads (Tokens buf es) ts
      (do let _ ← peek buf es []
          let s ← get
          if s ≠ es then throw (.panic "syntax") else return cmd)
      (fun c _ => c = cmd ∧ ts = [])
      fun e => ts ≠ [] ∧ e = .panic "syntax" := by
  refine ⟨fun s hs => .bind (.bind (Sat.get (.bind (Sat.set (Sat.pure
    (.bind (Sat.get (.ite (fun hne => .throw ?_) fun heq => .pure ?_))))))))⟩
  · refine ⟨?_, rfl⟩
    rintro rfl
    exact hne (hs.skip.eq_end hs.lead)
  · rw [not_not] at heq
    have hts := hs.skip
    rw [heq] at hts ⊢
    exact ⟨ts, hts, rfl, hts.eq_nil⟩

theorem parseall_sound (hb : Terminated buf es)
    (hfuel : 4 * ts.length + 4 ≤ fuel) :
    Reads (Tokens buf es) ts (parseall buf es fuel)
      (fun c _ => Derives .line ts c) Halts := by
  refine (parser_sound hb .line hfuel).bind fun c us h => ?_
  obtain ⟨pre, rfl, hc⟩ := h
  refine end_reads.mono (fun d vs h => ?_) fun e he => ?_
  · obtain ⟨rfl, rfl⟩ := h
    simpa using hc
  · rw [he.2]
    simp [Halts]

theorem parseall_reads (hb : Terminated buf es) {c : Cmd}
    (h : Derives .line ts c) (hfuel : 4 * ts.length + 4 ≤ fuel) :
    Reads (Tokens buf es) ts (parseall buf es fuel) (fun a _ => a = c)
      fun _ => False := by
  have hline : ReadsTo buf es (ts ++ []) (parser buf es .line fuel) c [] :=
    parser_reads hb h (.inl rfl) (by rwa [List.append_nil])
  rw [List.append_nil] at hline
  refine hline.bind fun a us ha => ?_
  obtain ⟨rfl, rfl⟩ := ha
  exact end_reads.mono (fun d vs hd => hd.1) fun e he => he.1 rfl

theorem parsecmd_ok {line : Str} {c : Cmd} {b : Text} :
    parsecmd fuel line = .ok (c, b) ↔
      (∃ s, parseall (text line) (strlen line) fuel 0 = .ok (c, s)) ∧
        b = nulterminate c (text line) := by
  dsimp only [parsecmd]
  cases parseall (text line) (strlen line) fuel 0 with
  | error e => simp [Except.map]
  | ok r =>
      obtain ⟨d, s⟩ := r
      simp only [Except.map, Except.ok.injEq, Prod.mk.injEq, exists_and_left,
        exists_eq', and_true]
      refine and_congr_right fun hd => ?_
      rw [hd, eq_comm]

theorem parsecmd_error {line : Str} {e : Stop} :
    parsecmd fuel line = .error e ↔
      parseall (text line) (strlen line) fuel 0 = .error e := by
  dsimp only [parsecmd]
  cases parseall (text line) (strlen line) fuel 0 with
  | error e' => simp [Except.map]
  | ok r => simp [Except.map]

/-- What is returned is the tree of the line. -/
theorem parsecmd_sound {line : Str} {c : Cmd} {b : Text}
    (hfuel : 4 * strlen line + 4 ≤ fuel)
    (hts : Tokens (text line) (strlen line) 0 ts)
    (h : parsecmd fuel line = .ok (c, b)) :
    Derives .line ts c ∧ b = nulterminate c (text line) := by
  obtain ⟨⟨s, hs⟩, hbuf⟩ := parsecmd_ok.mp h
  have hlen := hts.length_le
  have hsound := parseall_sound (terminated_text line)
    (show 4 * ts.length + 4 ≤ fuel by omega)
  obtain ⟨us, -, hd⟩ := hsound.returns hts hs
  exact ⟨hd, hbuf⟩

end

/-- The parser terminates on every line, and it returns exactly the tree that
the tokens of the line have in the grammar. -/
theorem parsecmd_recognises (line : Str) :
    ∃ ts, (∀ us, Tokens (text line) (strlen line) 0 us ↔ us = ts) ∧
      ∀ fuel, 4 * strlen line + 4 ≤ fuel →
        parsecmd fuel line ≠ .error .outOfFuel ∧
        ∀ cmd, (∃ buf, parsecmd fuel line = .ok (cmd, buf)) ↔
          Derives .line ts cmd := by
  have hb := terminated_text line
  obtain ⟨ts, hts⟩ := Tokens.exists (text line) (Nat.zero_le (strlen line))
  refine ⟨ts, fun us => ⟨fun h => h.unique hb hts, fun h => h ▸ hts⟩, ?_⟩
  intro fuel hfuel
  have hlen := hts.length_le
  refine ⟨fun herr => ?_, fun cmd => ⟨fun hok => ?_, fun hd => ?_⟩⟩
  · have hsound := parseall_sound hb (show 4 * ts.length + 4 ≤ fuel by omega)
    exact hsound.stops hts (parsecmd_error.mp herr) rfl
  · obtain ⟨b, hok⟩ := hok
    exact (parsecmd_sound hfuel hts hok).1
  · obtain ⟨c, s, us, hs, -, rfl⟩ :=
      (parseall_reads hb hd (show _ ≤ fuel by omega)).exists_ok hts
    exact ⟨_, parsecmd_ok.mpr ⟨⟨s, hs⟩, rfl⟩⟩

end ZtlOs.Sh
