import Mathlib.Logic.Function.Iterate
import ZtlOs.User.Tokens

/-!
# The grammar of the shell

`Derives` says which token sequences are commands, and which tree each of them
has.  Which alternative applies is told by the first token.
-/

namespace ZtlOs.Sh

open ZtlOs.Support ZtlOs.Support.Program

/-- `<`, `>` and `>>` -/
inductive Direction where
  | input
  | output
  | append
  deriving DecidableEq

namespace Direction

def token : Direction → Token
  | input => .lt
  | output => .gt
  | append => .append

def mode : Direction → ℕ
  | input => O_RDONLY
  | output => O_WRONLY ||| O_CREATE
  | append => O_WRONLY ||| O_CREATE

def fd : Direction → ℤ
  | input => 0
  | output => 1
  | append => 1

end Direction

structure Redir where
  direction : Direction
  file : Span
  deriving DecidableEq

namespace Redir

def tokens (r : Redir) : List Token :=
  [r.direction.token, .word r.file]

/-- A redirection around a command. -/
def wrap (cmd : Cmd) (r : Redir) : Cmd :=
  .redir cmd r.file r.direction.mode r.direction.fd

/-- Redirections around a command, the first one innermost. -/
def wrapAll (cmd : Cmd) (rs : List Redir) : Cmd :=
  rs.foldl wrap cmd

end Redir

/-- What a simple command is made of. -/
inductive Item where
  | word (w : Span)
  | redir (r : Redir)
  deriving DecidableEq

namespace Item

def tokens : Item → List Token
  | word w => [.word w]
  | redir r => r.tokens

def words : List Item → List Span
  | [] => []
  | word w :: items => w :: words items
  | redir _ :: items => words items

def redirs : List Item → List Redir
  | [] => []
  | word _ :: items => redirs items
  | redir r :: items => r :: redirs items

end Item

inductive Nonterminal where
  | line
  | pipe
  | exec
  | block

/-- The commands of the grammar

    line  ::= pipe '&'* [';' line]
    pipe  ::= exec ['|' pipe]
    exec  ::= block | (word | redir)*
    block ::= '(' line ')' redir*

and their trees. -/
inductive Derives : Nonterminal → List Token → Cmd → Prop where
  | line {ts : List Token} {c : Cmd} (k : ℕ) (h : Derives .pipe ts c) :
      Derives .line (ts ++ List.replicate k .amp) (Cmd.back^[k] c)
  | list {ts us : List Token} {c d : Cmd} (k : ℕ) (h : Derives .pipe ts c)
      (h' : Derives .line us d) :
      Derives .line (ts ++ List.replicate k .amp ++ .semi :: us)
        (.list (Cmd.back^[k] c) d)
  | single {ts : List Token} {c : Cmd} (h : Derives .exec ts c) :
      Derives .pipe ts c
  | pipe {ts us : List Token} {c d : Cmd} (h : Derives .exec ts c)
      (h' : Derives .pipe us d) :
      Derives .pipe (ts ++ .bar :: us) (.pipe c d)
  | grouped {ts : List Token} {c : Cmd} (h : Derives .block ts c) :
      Derives .exec ts c
  | simple (items : List Item) (h : (Item.words items).length ≤ MAXARGS - 1) :
      Derives .exec (items.flatMap Item.tokens)
        (Redir.wrapAll (.exec (Item.words items)) (Item.redirs items))
  | block {ts : List Token} {c : Cmd} (rs : List Redir)
      (h : Derives .line ts c) :
      Derives .block (.lparen :: ts ++ .rparen :: rs.flatMap Redir.tokens)
        (Redir.wrapAll c rs)

/-! ## Redirections -/

theorem redirect_eq (r : Redir) (cmd : Cmd) :
    redirect r.direction.token.code cmd r.file = r.wrap cmd := by
  obtain ⟨d, f⟩ := r
  cases d <;> rfl

theorem pushArg_wrapAll (cmd : Cmd) (rs : List Redir) (q : Span) :
    (Redir.wrapAll cmd rs).pushArg q = Redir.wrapAll (cmd.pushArg q) rs := by
  induction rs generalizing cmd with
  | nil => rfl
  | cons r rs ih => exact ih (r.wrap cmd)

theorem wrapAll_append (cmd : Cmd) (rs rs' : List Redir) :
    Redir.wrapAll cmd (rs ++ rs') = Redir.wrapAll (Redir.wrapAll cmd rs) rs' :=
  List.foldl_append ..

theorem words_append (items items' : List Item) :
    Item.words (items ++ items') = Item.words items ++ Item.words items' := by
  induction items with
  | nil => rfl
  | cons item items ih => cases item <;> simp [Item.words, ih]

theorem redirs_append (items items' : List Item) :
    Item.redirs (items ++ items') = Item.redirs items ++ Item.redirs items' := by
  induction items with
  | nil => rfl
  | cons item items ih => cases item <;> simp [Item.redirs, ih]

/-- Redirections as items. -/
theorem items_redir (rs : List Redir) :
    (rs.map Item.redir).flatMap Item.tokens = rs.flatMap Redir.tokens ∧
      Item.words (rs.map Item.redir) = [] ∧
      Item.redirs (rs.map Item.redir) = rs := by
  induction rs with
  | nil => exact ⟨rfl, rfl, rfl⟩
  | cons r rs ih =>
      obtain ⟨htok, hwords, hredirs⟩ := ih
      simp [Item.words, Item.redirs, Item.tokens, htok, hwords, hredirs]

/-! ## The next token -/

section Next

variable {toks toks' : Str} {ts : List Token}

theorem Starts.mono (h : Starts toks ts) (hsub : toks ⊆ toks') :
    Starts toks' ts := by
  obtain ⟨t, ht, c, hc, hfirst⟩ := h
  exact ⟨t, ht, c, hsub hc, hfirst⟩

/-- One token does not begin with two characters. -/
theorem Starts.not (h : Starts toks ts) (hdis : ∀ c ∈ toks, c ∉ toks') :
    ¬Starts toks' ts := by
  obtain ⟨t, ht, c, hc, hfirst⟩ := h
  rintro ⟨u, hu, d, hd, hfirst'⟩
  obtain rfl : t = u := Option.some.inj (ht.symm.trans hu)
  obtain rfl : c = d := Option.some.inj (hfirst.symm.trans hfirst')
  exact hdis c hc hd

theorem starts_of_first {t : Token} {c : BitVec 8} (h : t.first = some c)
    (hc : c ∈ toks) (ts : List Token) : Starts toks (t :: ts) :=
  ⟨t, rfl, c, hc, h⟩

theorem Starts.exists_cons (h : Starts toks ts) :
    ∃ t us, ts = t :: us ∧ ∃ c ∈ toks, t.first = some c := by
  cases ts with
  | nil => exact absurd h (not_starts_nil toks)
  | cons t us => exact ⟨t, us, rfl, starts_cons.mp h⟩

theorem code_of_first {t : Token} {c : BitVec 8} (h : t.first = some c)
    (hgt : c ≠ gt) : t.code = c := by
  cases t with
  | word w => cases h
  | gt => exact absurd (Option.some.inj h).symm hgt
  | append => exact absurd (Option.some.inj h).symm hgt
  | _ => exact Option.some.inj h

/-- A symbol other than `>` is the token that begins with it. -/
theorem eq_of_first {t u : Token} {c : BitVec 8} (h : t.first = some c)
    (h' : u.first = some c) (hgt : c ≠ gt) : t = u := by
  have hcode : t.code = u.code :=
    (code_of_first h hgt).trans (code_of_first h' hgt).symm
  refine Token.eq_of_code hcode fun w w' hw _ => ?_
  rw [hw] at h
  cases h

theorem Starts.eq_cons {u : Token} {c : BitVec 8} (h : Starts [c] ts)
    (hu : u.first = some c) (hgt : c ≠ gt) : ∃ us, ts = u :: us := by
  obtain ⟨t, us, rfl, d, hd, ht⟩ := h.exists_cons
  obtain rfl := List.mem_singleton.mp hd
  exact ⟨us, by rw [eq_of_first ht hu hgt]⟩

theorem Starts.direction (h : Starts [lt, gt] ts) :
    ∃ (d : Direction) (us : List Token), ts = d.token :: us := by
  obtain ⟨t, us, rfl, c, hc, ht⟩ := h.exists_cons
  cases t with
  | lt => exact ⟨.input, us, rfl⟩
  | gt => exact ⟨.output, us, rfl⟩
  | append => exact ⟨.append, us, rfl⟩
  | word w => cases ht
  | _ =>
      obtain rfl := Option.some.inj ht
      exact absurd hc (by decide)

theorem starts_direction (d : Direction) (ts : List Token) :
    Starts [lt, gt] (d.token :: ts) := by
  cases d with
  | input => exact starts_of_first (c := lt) rfl (by decide) ts
  | output => exact starts_of_first (c := gt) rfl (by decide) ts
  | append => exact starts_of_first (c := gt) rfl (by decide) ts

theorem not_starts_word (w : Span) (ts : List Token) :
    ¬Starts toks (.word w :: ts) := by
  simp [Token.first]

theorem eq_word_of_code {t : Token} (h : t.code = letter) :
    ∃ w, t = .word w := by
  cases t with
  | word w => exact ⟨w, rfl⟩
  | _ => exact absurd h (by decide)

end Next

end ZtlOs.Sh
