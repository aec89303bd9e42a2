import Mathlib.Data.List.Palindrome
import ZtlOs.Support.Patches
import ZtlOs.Support.Threads
import ZtlOs.User.Nulterminate

/-!
# Running a command

`runcmd` descends the tree and redirects on the way, so of several redirections
the last one, which is outermost, comes first.
-/

namespace ZtlOs.Sh

open ZtlOs.Support ZtlOs.Support.Sequence

/-- The system calls of `runcmd`, and `printf`.  Strings are given by pointers. -/
inductive Call where
  | exit
  | exec (path : ℕ) (argv : List ℕ)
  | openFile (path mode : ℕ)
  | close (fd : ℤ)
  | dup (fd : ℤ)
  | pipe
  | fork
  | wait
  | printf (fd : ℤ) (format : String) (args : List ℕ)

/-- `pipe` returns its two descriptors besides its result. -/
abbrev Call.Res : Call → Type
  | .exit => Empty
  | .exec _ _ => ℤ
  | .openFile _ _ => ℤ
  | .close _ => ℤ
  | .dup _ => ℤ
  | .pipe => ℤ × ℤ × ℤ
  | .fork => ℤ
  | .wait => ℤ
  | .printf _ _ _ => Unit

abbrev Process := Thread Call Call.Res

def call (c : Call) : Process c.Res :=
  Thread.request c

def exit : Process Empty :=
  call .exit

def panic (message : String) : Process Empty := do
  call (.printf 2 message [])
  exit

/-- Fork but panics on failure. -/
def fork1 : Process ℤ := do
  let pid ← call .fork
  if pid = -1 then
    let e ← panic "fork"
    e.elim
  else return pid

/-- Execute `cmd`.  Never returns. -/
def runcmd : Cmd → Process Empty
  | .exec [] => exit
  | .exec (path :: argv) => do
      let _ ← call (.exec path.start (path.start :: argv.map Span.start))
      call (.printf 2 "exec %s failed\n" [path.start])
      exit
  | .redir cmd file mode fd => do
      let _ ← call (.close fd)
      let r ← call (.openFile file.start mode)
      if r < 0 then
        call (.printf 2 "open %s failed\n" [file.start])
        exit
      else runcmd cmd
  | .list left right => do
      let pid ← fork1
      if pid = 0 then runcmd left
      else
        let _ ← call .wait
        runcmd right
  | .pipe left right => do
      let r ← call .pipe
      let p := r.2
      if r.1 < 0 then panic "pipe"
      else
        let pid ← fork1
        if pid = 0 then
          let _ ← call (.close 1)
          let _ ← call (.dup p.2)
          let _ ← call (.close p.1)
          let _ ← call (.close p.2)
          runcmd left
        else
          let pid ← fork1
          if pid = 0 then
            let _ ← call (.close 0)
            let _ ← call (.dup p.1)
            let _ ← call (.close p.1)
            let _ ← call (.close p.2)
            runcmd right
          else
            let _ ← call (.close p.1)
            let _ ← call (.close p.2)
            let _ ← call .wait
            let _ ← call .wait
            exit
  | .back cmd => do
      let pid ← fork1
      if pid = 0 then runcmd cmd else exit

/-! ## The descriptors -/

/-- A file that has been opened, by its name. -/
structure Opened where
  name : Str
  mode : ℕ
  deriving DecidableEq

structure Descriptors where
  table : ℤ → Option Opened
  /-- The descriptor that has just been closed. -/
  closed : Option ℤ
  /-- The files opened, in this order. -/
  opened : List Opened

/-- The string at `p`. -/
def cstr (buf : Text) (es p : ℕ) : Str :=
  (slice buf p (es - p)).takeWhile (· ≠ 0)

/-- The descriptors at the first `exec`, if the process comes to it by closing
and opening files only.  Every `open` succeeds, and it returns the descriptor
that has just been closed. -/
def reach (buf : Text) (es : ℕ) :
    Process Empty → Descriptors → Option Descriptors
  | .op (.exec _ _) _, d => some d
  | .op (.close fd) k, d =>
      reach buf es (k 0)
        { d with table := Function.update d.table fd none, closed := some fd }
  | .op (.openFile path mode) k, d =>
      d.closed.bind fun fd =>
        let file : Opened := ⟨cstr buf es path, mode⟩
        reach buf es (k fd)
          { table := Function.update d.table fd (some file)
            closed := none
            opened := d.opened ++ [file] }
  | _, _ => none

theorem call_bind {c : Call} {α : Type} (f : c.Res → Process α) :
    (call c >>= f) = .op c f :=
  rfl

theorem reach_redir {buf : Text} {es : ℕ} {cmd : Cmd} {file : Span} {mode : ℕ}
    {fd : ℤ} {d : Descriptors} (hfd : ¬fd < 0) :
    reach buf es (runcmd (.redir cmd file mode fd)) d =
      reach buf es (runcmd cmd)
        { table := Function.update d.table fd
            (some ⟨cstr buf es file.start, mode⟩)
          closed := none
          opened := d.opened ++ [⟨cstr buf es file.start, mode⟩] } := by
  rw [runcmd, call_bind, reach, call_bind, reach]
  simp only [Option.bind_some, if_neg hfd, Function.update_idem]

/-! ## Simple commands -/

/-- A command without operators is a simple command. -/
theorem Derives.exists_items {N : Nonterminal} {ts : List Token} {c : Cmd}
    (h : Derives N ts c)
    (hts : ∀ t ∈ ts, t ∉ [Token.amp, .semi, .bar, .lparen]) :
    ∃ items : List Item, ts = items.flatMap Item.tokens ∧
      c = Redir.wrapAll (.exec (Item.words items)) (Item.redirs items) := by
  induction h with
  | line k h ih =>
      cases k with
      | zero => simpa using ih fun t ht => hts t (List.mem_append_left _ ht)
      | succ k => exact absurd (by simp) (hts .amp (by simp))
  | list k h h' ih ih' => exact absurd (by simp) (hts .semi (by simp))
  | single h ih => exact ih hts
  | pipe h h' ih ih' => exact absurd (by simp) (hts .bar (by simp))
  | grouped h ih => exact ih hts
  | simple items h => exact ⟨items, rfl, rfl⟩
  | block rs h ih => exact absurd (by simp) (hts .lparen (by simp))

theorem mem_direction {d : Direction} : d.token ∉ [Token.amp, .semi, .bar, .lparen] := by
  cases d <;> decide

theorem not_mem_items (items : List Item) :
    ∀ t ∈ items.flatMap Item.tokens, t ∉ [Token.amp, .semi, .bar, .lparen] := by
  intro t ht
  obtain ⟨item, -, ht⟩ := List.mem_flatMap.mp ht
  cases item with
  | word w =>
      obtain rfl := List.mem_singleton.mp ht
      simp
  | redir r =>
      rcases List.mem_cons.mp ht with rfl | ht
      · exact mem_direction
      · obtain rfl := List.mem_singleton.mp ht
        simp

theorem Direction.token_inj {d d' : Direction} (h : d.token = d'.token) :
    d = d' := by
  cases d <;> cases d' <;> first | rfl | cases h

theorem Item.tokens_inj {item item' : Item} {ts ts' : List Token}
    (h : item.tokens ++ ts = item'.tokens ++ ts') : item = item' ∧ ts = ts' := by
  cases item with
  | word w =>
      cases item' with
      | word w' => simpa [Item.tokens] using h
      | redir r' =>
          obtain ⟨d', f'⟩ := r'
          cases d' <;> cases h
  | redir r =>
      obtain ⟨d, f⟩ := r
      cases item' with
      | word w' => cases d <;> cases h
      | redir r' =>
          obtain ⟨d', f'⟩ := r'
          simp only [Item.tokens, Redir.tokens, List.cons_append, List.nil_append,
            List.cons.injEq, Token.word.injEq] at h
          obtain ⟨hd, rfl, hts⟩ := h
          rw [Direction.token_inj hd]
          exact ⟨rfl, hts⟩

/-- The tokens of a simple command determine its items. -/
theorem items_inj {items items' : List Item}
    (h : items.flatMap Item.tokens = items'.flatMap Item.tokens) :
    items = items' := by
  induction items generalizing items' with
  | nil =>
      cases items' with
      | nil => rfl
      | cons item' items' => cases item' <;> simp [Item.tokens, Redir.tokens] at h
  | cons item items ih =>
      cases items' with
      | nil => cases item <;> simp [Item.tokens, Redir.tokens] at h
      | cons item' items' =>
          simp only [List.flatMap_cons] at h
          obtain ⟨hitem, hrest⟩ := Item.tokens_inj h
          rw [hitem, ih hrest]

/-! ## What has been opened -/

/-- What a redirection of the line opens. -/
def Opened.of (line : Str) (r : Redir) : Opened :=
  ⟨r.file.chars (text line), r.direction.mode⟩

/-- The descriptor that is changed by a redirection. -/
def Opened.patch (o : Opened) : Patch ℤ (Option Opened) :=
  fun fd => if fd = (if o.mode = O_RDONLY then 0 else 1) then some (some o) else none

theorem patch_of (line : Str) (r : Redir) (fd : ℤ) :
    (Opened.of line r).patch fd =
      if fd = r.direction.fd then some (some (Opened.of line r)) else none := by
  obtain ⟨d, w⟩ := r
  cases d <;> rfl

theorem update_eq_apply (table : ℤ → Option Opened) (line : Str) (r : Redir) :
    Function.update table r.direction.fd (some (Opened.of line r)) =
      (Opened.of line r).patch.apply table := by
  funext fd
  rw [Patch.apply, patch_of]
  by_cases hfd : fd = r.direction.fd
  · simp [hfd]
  · simp [hfd]

theorem reach_wrapAll {buf : Text} {line : Str} {es : ℕ} {argv : List Span}
    (hargv : argv ≠ []) (rs : List Redir)
    (hname : ∀ r ∈ rs, cstr buf es r.file.start = r.file.chars (text line))
    (d : Descriptors) :
    ∃ e, reach buf es (runcmd (Redir.wrapAll (.exec argv) rs)) d = some e ∧
      e.table = Patch.applyAll
        ((rs.map (Opened.of line)).reverse.map Opened.patch) d.table ∧
      e.opened = d.opened ++ (rs.map (Opened.of line)).reverse := by
  induction rs using List.reverseRecOn generalizing d with
  | nil =>
      obtain ⟨path, argv, rfl⟩ := List.exists_cons_of_ne_nil hargv
      refine ⟨d, ?_, rfl, by simp⟩
      rw [Redir.wrapAll, List.foldl_nil, runcmd, call_bind, reach]
  | append_singleton rs r ih =>
      have hr := hname r (by simp)
      have hfd : ¬r.direction.fd < 0 := by cases r.direction <;> decide
      rw [wrapAll_append]
      change ∃ e, reach buf es (runcmd (.redir _ _ _ _)) d = some e ∧ _
      rw [reach_redir hfd, hr]
      obtain ⟨e, he, htable, hopened⟩ :=
        ih (fun r' hr' => hname r' (by simp [hr'])) _
      refine ⟨e, he, ?_, ?_⟩
      · rw [htable, List.map_append, List.reverse_append, List.map_append]
        exact congrArg (Patch.applyAll _) (update_eq_apply d.table line r)
      · rw [hopened]
        simp [Opened.of]

theorem cstr_eq {buf : Text} {es p : ℕ} {s : Str} (h : StringAt buf p s)
    (hle : p + s.length ≤ es) : cstr buf es p = s := by
  obtain ⟨m, hm⟩ := Nat.exists_eq_add_of_le hle
  have hlen : es - p = s.length + m := by omega
  have hs : ∀ c ∈ s, decide (c ≠ 0) = true := by
    intro c hc
    rw [decide_eq_true_eq]
    rintro rfl
    exact h.ne hc
  rw [cstr, hlen, slice_add, h.chars, List.takeWhile_append_of_pos hs]
  cases m with
  | zero => simp [slice_zero]
  | succ m =>
      have hhead : slice buf (p + s.length) 1 = [0] := congrArg (fun c => [c]) h.nul
      rw [Nat.add_comm m 1, slice_add, hhead]
      simp

/-- What `open` finds at the pointer to a string of the command. -/
theorem Derives.cstr_eq {line : Str} {ts : List Token} {c : Cmd} {w : Span}
    (hd : Derives .line ts c) (hts : Tokens (text line) (strlen line) 0 ts)
    (hw : w ∈ c.strings) :
    cstr (nulterminate c (text line)) (strlen line) w.start =
      w.chars (text line) := by
  have hrun := (hts.isRun (hd.strings_perm.mem_iff.mp hw)).2
  have hlt := hrun.lt
  have hle := hrun.le
  refine Sh.cstr_eq (hd.stringAt hts hw) ?_
  rw [Span.chars, length_slice]
  omega

/-- Every descriptor that is redirected refers to the file of its last
redirection, and the files have been opened in the order of the text. -/
structure LeftToRight (line : Str) (rs : List Redir) (d : Descriptors) : Prop where
  opened : d.opened = rs.map (Opened.of line)
  last : ∀ pre r post, rs = pre ++ r :: post →
    (∀ r' ∈ post, r'.direction.fd ≠ r.direction.fd) →
    d.table r.direction.fd = some (Opened.of line r)

theorem leftToRight_iff {line : Str} {rs : List Redir} {d : Descriptors}
    {table : ℤ → Option Opened}
    (htable : d.table = Patch.applyAll
      ((rs.map (Opened.of line)).reverse.map Opened.patch) table)
    (hopened : d.opened = (rs.map (Opened.of line)).reverse) :
    LeftToRight line rs d ↔ (rs.map (Opened.of line)).Palindrome := by
  constructor
  · intro h
    exact .of_reverse_eq (hopened.symm.trans h.opened)
  · intro h
    rw [h.reverse_eq] at htable hopened
    refine ⟨hopened, fun pre r post hrs hpost => ?_⟩
    rw [htable, hrs, List.map_append, List.map_cons, List.map_append, List.map_cons]
    have hr : (Opened.of line r).patch r.direction.fd =
        some (some (Opened.of line r)) := by simp [patch_of]
    refine (Patch.applyAll_eq_iff hr).mpr ?_
    have hnone : Patch.last ((post.map (Opened.of line)).map Opened.patch)
        r.direction.fd = none := by
      refine Patch.last_eq_none fun p hp => ?_
      rw [List.map_map] at hp
      obtain ⟨r', hr', rfl⟩ := List.mem_map.mp hp
      simp [patch_of, (hpost r' hr').symm]
    intro w hw
    rw [hnone] at hw
    cases hw

/-- The redirections of a simple command take effect from left to right exactly
if they are the same from right to left. -/
theorem redirections_leftToRight_iff {line : Str} {fuel : ℕ} {items : List Item}
    {cmd : Cmd} {buf : Text} {table : ℤ → Option Opened}
    (hfuel : 4 * strlen line + 4 ≤ fuel)
    (hts : Tokens (text line) (strlen line) 0 (items.flatMap Item.tokens))
    (hwords : Item.words items ≠ [])
    (h : parsecmd fuel line = .ok (cmd, buf)) :
    (∃ d, reach buf (strlen line) (runcmd cmd) ⟨table, none, []⟩ = some d ∧
      LeftToRight line (Item.redirs items) d) ↔
      ((Item.redirs items).map (Opened.of line)).Palindrome := by
  obtain ⟨hd, rfl⟩ := parsecmd_sound hfuel hts h
  obtain ⟨items', hitems, hcmd⟩ := hd.exists_items (not_mem_items items)
  obtain rfl := items_inj hitems
  have hname : ∀ r ∈ Item.redirs items, cstr (nulterminate cmd (text line))
      (strlen line) r.file.start = r.file.chars (text line) := by
    intro r hr
    refine hd.cstr_eq hts ?_
    rw [hcmd, strings_wrapAll]
    exact List.mem_append_right _ (List.mem_map_of_mem hr)
  obtain ⟨e, he, htable, hopened⟩ := reach_wrapAll hwords _ hname ⟨table, none, []⟩
  rw [← hcmd] at he
  rw [he]
  simpa using leftToRight_iff htable hopened

/-- A word of one character. -/
theorem Tokens.letter {buf : Text} {es s : ℕ} {ts : List Token} (hs : s < es)
    (hc : IsWord (buf s)) (hmax : s + 1 = es ∨ ¬IsWord (buf (s + 1)))
    (h : Tokens buf es (s + 1) ts) :
    Tokens buf es s (.word ⟨s, s + 1⟩ :: ts) := by
  refine .word (Nat.lt_succ_self s) hs (fun i hi hlt => ?_) hmax h
  obtain rfl : i = s := by omega
  exact hc

/-- `a>b<c>b` -/
theorem redirections_leftToRight_symmetric :
    ∃ d, reach
      (nulterminate (.redir (.redir (.redir (.exec [⟨0, 1⟩]) ⟨2, 3⟩ 0x201 1)
        ⟨4, 5⟩ 0 0) ⟨6, 7⟩ 0x201 1) (text [0x61, gt, 0x62, lt, 0x63, gt, 0x62])) 7
      (runcmd (.redir (.redir (.redir (.exec [⟨0, 1⟩]) ⟨2, 3⟩ 0x201 1)
        ⟨4, 5⟩ 0 0) ⟨6, 7⟩ 0x201 1)) ⟨fun _ => none, none, []⟩ = some d ∧
      LeftToRight [0x61, gt, 0x62, lt, 0x63, gt, 0x62]
        [⟨.output, ⟨2, 3⟩⟩, ⟨.input, ⟨4, 5⟩⟩, ⟨.output, ⟨6, 7⟩⟩] d :=
  (@redirections_leftToRight_iff [0x61, gt, 0x62, lt, 0x63, gt, 0x62] 32
    [.word ⟨0, 1⟩, .redir ⟨.output, ⟨2, 3⟩⟩, .redir ⟨.input, ⟨4, 5⟩⟩,
      .redir ⟨.output, ⟨6, 7⟩⟩] _ _ _ (by decide)
    (.letter (by decide) (by decide) (.inr (by decide))
      (.gt (by decide) rfl (by decide)
      (.letter (by decide) (by decide) (.inr (by decide))
      (.symbol (by decide) rfl (by decide)
      (.letter (by decide) (by decide) (.inr (by decide))
      (.gt (by decide) rfl (by decide)
      (.letter (by decide) (by decide) (.inl rfl) .done)))))))
    (by decide) rfl).mpr (.of_reverse_eq (by decide))

/-- `a>b>c` opens `c` before `b`. -/
theorem redirections_not_always_leftToRight :
    ¬ ∀ (line : Str) (fuel : ℕ) (items : List Item) (cmd : Cmd) (buf : Text)
      (table : ℤ → Option Opened), 4 * strlen line + 4 ≤ fuel →
      Tokens (text line) (strlen line) 0 (items.flatMap Item.tokens) →
      Item.words items ≠ [] → parsecmd fuel line = .ok (cmd, buf) →
      ∃ d, reach buf (strlen line) (runcmd cmd) ⟨table, none, []⟩ = some d ∧
        LeftToRight line (Item.redirs items) d := by
  intro h
  have htokens : Tokens (text [0x61, gt, 0x62, gt, 0x63]) 5 0
      [.word ⟨0, 1⟩, .gt, .word ⟨2, 3⟩, .gt, .word ⟨4, 5⟩] :=
    .letter (by decide) (by decide) (.inr (by decide))
      (.gt (by decide) rfl (by decide)
      (.letter (by decide) (by decide) (.inr (by decide))
      (.gt (by decide) rfl (by decide)
      (.letter (by decide) (by decide) (.inl rfl) .done))))
  obtain ⟨d, hd, hlr⟩ := h [0x61, gt, 0x62, gt, 0x63] 24
    [.word ⟨0, 1⟩, .redir ⟨.output, ⟨2, 3⟩⟩, .redir ⟨.output, ⟨4, 5⟩⟩]
    (.redir (.redir (.exec [⟨0, 1⟩]) ⟨2, 3⟩ 0x201 1) ⟨4, 5⟩ 0x201 1) _
    (fun _ => none) (by decide) htokens (by decide) rfl
  have hopened : (some d).map Descriptors.opened =
      some [⟨[0x63], 0x201⟩, ⟨[0x62], 0x201⟩] := by
    rw [← hd]
    rfl
  rw [Option.map_some, hlr.opened] at hopened
  exact absurd hopened (by decide)

end ZtlOs.Sh
