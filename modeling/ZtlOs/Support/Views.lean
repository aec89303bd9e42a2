import ZtlOs.Support.Program

/-!
# Programs read through a view

A view relates the states of a program to what they show, such as a cursor into
a text to the tokens that are still ahead.  `Reads` is a specification that
mentions the states only through what they show, and its rules follow the
structure of a program.
-/

namespace ZtlOs.Support.Program

variable {σ ε α β κ : Type}

/-- Where `V` shows `k`, the program returns with `Q` for its value and for what
`V` shows then, or stops with `E`. -/
structure Reads (V : σ → κ → Prop) (k : κ) (x : Program σ ε α)
    (Q : α → κ → Prop) (E : ε → Prop) : Prop where
  sat : ∀ s, V s k → Sat x s (fun a t => ∃ l, V t l ∧ Q a l) E

namespace Reads

variable {V : σ → κ → Prop} {k : κ} {x y : Program σ ε α}
variable {f : α → Program σ ε β} {Q Q' : α → κ → Prop} {R : β → κ → Prop}
variable {E E' : ε → Prop}

theorem returns (h : Reads V k x Q E) {s t : σ} {a : α} (hs : V s k)
    (hx : x s = .ok (a, t)) : ∃ l, V t l ∧ Q a l :=
  (h.sat s hs).returns hx

theorem stops (h : Reads V k x Q E) {s : σ} {e : ε} (hs : V s k)
    (hx : x s = .error e) : E e :=
  (h.sat s hs).stops hx

/-- A program that cannot stop returns. -/
theorem exists_ok (h : Reads V k x Q fun _ => False) {s : σ} (hs : V s k) :
    ∃ a t l, x s = .ok (a, t) ∧ V t l ∧ Q a l := by
  obtain ⟨a, t, hx, l, hl, hQ⟩ := (h.sat s hs).exists_ok fun _ he => he
  exact ⟨a, t, l, hx, hl, hQ⟩

theorem mono (h : Reads V k x Q E) (hQ : ∀ a l, Q a l → Q' a l)
    (hE : ∀ e, E e → E' e) : Reads V k x Q' E' := by
  refine ⟨fun s hs => (h.sat s hs).mono ?_ hE⟩
  intro a t ht
  obtain ⟨l, hl, ha⟩ := ht
  exact ⟨l, hl, hQ a l ha⟩

theorem imp (h : Reads V k x Q E) (hQ : ∀ a l, Q a l → Q' a l) :
    Reads V k x Q' E :=
  h.mono hQ fun _ he => he

protected theorem pure {a : α} (h : Q a k) :
    Reads V k (pure a : Program σ ε α) Q E :=
  ⟨fun _ hs => Sat.pure ⟨k, hs, h⟩⟩

protected theorem throw {e : ε} (h : E e) :
    Reads V k (throw e : Program σ ε α) Q E :=
  ⟨fun _ _ => Sat.throw h⟩

/-- The rule for a sequence whose first part has the specification `Q`. -/
protected theorem bind (hx : Reads V k x Q E)
    (hf : ∀ a l, Q a l → Reads V l (f a) R E) : Reads V k (x >>= f) R E := by
  refine ⟨fun s hs => (hx.sat s hs).andThen ?_⟩
  intro a t ht
  obtain ⟨l, hl, ha⟩ := ht
  exact (hf a l ha).sat t hl

protected theorem ite {c : Prop} [Decidable c] (hx : c → Reads V k x Q E)
    (hy : ¬c → Reads V k y Q E) : Reads V k (if c then x else y) Q E := by
  split
  · next hc => exact hx hc
  · next hc => exact hy hc

end Reads

end ZtlOs.Support.Program
