import Mathlib.Data.List.Basic

/-!
# Programs that update a state and may stop

A program reads and updates a state and returns a value, or stops with an
error.  `Sat x s Q E` is its specification from the state `s`: if `x` returns
then `Q` holds of the value and the final state, and if it stops then `E` holds
of the error.  The rules below follow the structure of a program.
-/

namespace ZtlOs.Support

/-- A program over the state `σ` that may stop with an error of type `ε`. -/
abbrev Program (σ ε : Type) (α : Type) := StateT σ (Except ε) α

namespace Program

variable {σ ε α β γ : Type}

theorem bind_ok {x : Program σ ε α} {f : α → Program σ ε β} {s t : σ} {a : α}
    (h : x s = .ok (a, t)) : (x >>= f) s = f a t := by
  change (x s >>= fun p => f p.1 p.2) = _
  rw [h]
  rfl

theorem bind_error {x : Program σ ε α} {f : α → Program σ ε β} {s : σ} {e : ε}
    (h : x s = .error e) : (x >>= f) s = .error e := by
  change (x s >>= fun p => f p.1 p.2) = _
  rw [h]
  rfl

/-- Two sequences with one first part agree if they agree behind it. -/
theorem bind_congr {x : Program σ ε α} {f g : α → Program σ ε β} {s : σ}
    (h : ∀ a t, x s = .ok (a, t) → f a t = g a t) :
    (x >>= f) s = (x >>= g) s := by
  cases hx : x s with
  | ok r => rw [bind_ok hx, bind_ok hx, h r.1 r.2 hx]
  | error e => rw [bind_error hx, bind_error hx]

/-- From `s`, the program returns with `Q` or stops with `E`. -/
def Sat (x : Program σ ε α) (s : σ) (Q : α → σ → Prop) (E : ε → Prop) :
    Prop :=
  match x s with
  | .ok (a, t) => Q a t
  | .error e => E e

namespace Sat

variable {x : Program σ ε α} {f : α → Program σ ε β} {s t : σ} {a : α} {e : ε}
variable {Q Q' : α → σ → Prop} {R : β → σ → Prop} {E E' : ε → Prop}

theorem returns (h : Sat x s Q E) (hx : x s = .ok (a, t)) : Q a t := by
  unfold Sat at h
  rw [hx] at h
  exact h

theorem stops (h : Sat x s Q E) (hx : x s = .error e) : E e := by
  unfold Sat at h
  rw [hx] at h
  exact h

/-- A specification covers the two ways in which a program ends. -/
theorem intro (hok : ∀ a t, x s = .ok (a, t) → Q a t)
    (herr : ∀ e, x s = .error e → E e) : Sat x s Q E := by
  unfold Sat
  cases hx : x s with
  | ok r => exact hok r.1 r.2 hx
  | error e => exact herr e hx

theorem mono (h : Sat x s Q E) (hQ : ∀ a t, Q a t → Q' a t)
    (hE : ∀ e, E e → E' e) : Sat x s Q' E' :=
  intro (fun a t hx => hQ a t (h.returns hx)) (fun e hx => hE e (h.stops hx))

/-- A program that cannot stop returns. -/
theorem exists_ok (h : Sat x s Q E) (hE : ∀ e, ¬E e) :
    ∃ a t, x s = .ok (a, t) ∧ Q a t := by
  cases hx : x s with
  | ok r => exact ⟨r.1, r.2, rfl, h.returns hx⟩
  | error e => exact absurd (h.stops hx) (hE e)

theorem imp (h : Sat x s Q E) (hQ : ∀ a t, Q a t → Q' a t) : Sat x s Q' E :=
  h.mono hQ fun _ he => he

/-- What is said of a return holds whatever is said of the errors. -/
theorem onReturn (h : Sat x s Q E) : Sat x s Q fun _ => True :=
  h.mono (fun _ _ hQ => hQ) fun _ _ => trivial

theorem and (h : Sat x s Q E) (h' : Sat x s Q' E') :
    Sat x s (fun a t => Q a t ∧ Q' a t) (fun e => E e ∧ E' e) :=
  intro (fun _ _ hx => ⟨h.returns hx, h'.returns hx⟩)
    (fun _ hx => ⟨h.stops hx, h'.stops hx⟩)

/-- Two specifications that allow every error. -/
theorem both (h : Sat x s Q fun _ => True) (h' : Sat x s Q' fun _ => True) :
    Sat x s (fun a t => Q a t ∧ Q' a t) fun _ => True :=
  (h.and h').mono (fun _ _ ht => ht) fun _ _ => trivial

/-- A specification under an assumption about the state before. -/
theorem of_imp {c : Prop} (h : c → Sat x s Q fun _ => True) :
    Sat x s (fun a t => c → Q a t) fun _ => True :=
  intro (fun _ _ hx hc => (h hc).returns hx) fun _ _ => trivial

theorem of_ok (hx : x s = .ok (a, t)) (hQ : Q a t) : Sat x s Q E := by
  unfold Sat
  rw [hx]
  exact hQ

protected theorem pure (h : Q a s) : Sat (pure a : Program σ ε α) s Q E :=
  h

protected theorem bind (h : Sat x s (fun a t => Sat (f a) t R E) E) :
    Sat (x >>= f) s R E := by
  unfold Sat at h ⊢
  cases hx : x s with
  | ok r =>
      rw [hx] at h
      rw [bind_ok hx]
      exact h
  | error e =>
      rw [hx] at h
      rw [bind_error hx]
      exact h

/-- The rule for a sequence whose first part has the specification `Q`. -/
theorem andThen (h : Sat x s Q E) (hf : ∀ a t, Q a t → Sat (f a) t R E) :
    Sat (x >>= f) s R E :=
  .bind (h.imp hf)

/-- The first two parts of a program are taken together. -/
theorem assoc {g : α → Program σ ε β} {h : β → Program σ ε γ}
    {S : γ → σ → Prop} (hx : Sat ((x >>= g) >>= h) s S E) :
    Sat (x >>= fun a => g a >>= h) s S E := by
  rwa [bind_assoc] at hx

protected theorem get {Q : σ → σ → Prop} (h : Q s s) :
    Sat (get : Program σ ε σ) s Q E :=
  h

protected theorem set {Q : PUnit → σ → Prop} (h : Q ⟨⟩ t) :
    Sat (set t : Program σ ε PUnit) s Q E :=
  h

protected theorem modify {Q : PUnit → σ → Prop} {g : σ → σ} (h : Q ⟨⟩ (g s)) :
    Sat (modify g : Program σ ε PUnit) s Q E :=
  h

protected theorem throw (h : E e) :
    Sat (throw e : Program σ ε α) s Q E :=
  h

protected theorem ite {c : Prop} [Decidable c] {y : Program σ ε α}
    (hx : c → Sat x s Q E) (hy : ¬c → Sat y s Q E) :
    Sat (if c then x else y) s Q E := by
  split
  · next hc => exact hx hc
  · next hc => exact hy hc

end Sat

-- From here on specifications are built by the rules, never by running `x`.
attribute [irreducible] Sat

/-- A sequence that returns has an intermediate value and state. -/
theorem bind_eq_ok {x : Program σ ε α} {f : α → Program σ ε β} {s u : σ}
    {b : β} (h : (x >>= f) s = .ok (b, u)) :
    ∃ a t, x s = .ok (a, t) ∧ f a t = .ok (b, u) := by
  cases hx : x s with
  | ok r =>
      refine ⟨r.1, r.2, rfl, ?_⟩
      rwa [bind_ok hx] at h
  | error e =>
      rw [bind_error hx] at h
      cases h

/-- The program leaves the part `f` of the state as it is. -/
structure Keeps (f : σ → γ) (x : Program σ ε α) : Prop where
  eq : ∀ s a t, x s = .ok (a, t) → f t = f s

namespace Keeps

variable {f : σ → γ} {x y : Program σ ε α} {g : α → Program σ ε β}

/-- What stays the same besides another specification. -/
theorem also (h : Keeps f x) {s : σ} {Q : α → σ → Prop} {E : ε → Prop}
    (hx : Sat x s Q E) : Sat x s (fun a t => f t = f s ∧ Q a t) E :=
  .intro (fun a t hok => ⟨h.eq s a t hok, hx.returns hok⟩)
    fun _ herr => hx.stops herr

protected theorem pure (f : σ → γ) (a : α) :
    Keeps f (pure a : Program σ ε α) := by
  refine ⟨fun s b t h => ?_⟩
  cases h
  rfl

protected theorem get (f : σ → γ) : Keeps f (get : Program σ ε σ) := by
  refine ⟨fun s b t h => ?_⟩
  cases h
  rfl

/-- The rest of the program depends on the state that is read here. -/
protected theorem bind_get {r : σ → Program σ ε β}
    (h : ∀ s, Sat (r s) s (fun _ t => f t = f s) fun _ => True) :
    Keeps f (get >>= r) := by
  refine ⟨fun s b t hb => ?_⟩
  obtain ⟨_, _, hget, hr⟩ := bind_eq_ok hb
  cases hget
  exact (h s).returns hr

protected theorem throw (f : σ → γ) (e : ε) :
    Keeps f (throw e : Program σ ε α) := by
  refine ⟨fun s b t h => ?_⟩
  cases h

protected theorem modify {u : σ → σ} (h : ∀ s, f (u s) = f s) :
    Keeps f (modify u : Program σ ε PUnit) := by
  refine ⟨fun s b t hu => ?_⟩
  cases hu
  exact h s

protected theorem bind (hx : Keeps f x) (hg : ∀ a, Keeps f (g a)) :
    Keeps f (x >>= g) := by
  refine ⟨fun s b u h => ?_⟩
  obtain ⟨a, t, ht, hu⟩ := bind_eq_ok h
  exact ((hg a).eq t b u hu).trans (hx.eq s a t ht)

protected theorem ite {c : Prop} [Decidable c] (hx : c → Keeps f x)
    (hy : ¬c → Keeps f y) : Keeps f (if c then x else y) := by
  split
  · next hc => exact hx hc
  · next hc => exact hy hc

end Keeps

/-! ## Resources -/

variable {κ : Type}

/-- The program turns the resources `k` into `m a` when it returns `a`; the
state `s` has the resources `k` if `H s k`. -/
structure Moves (H : σ → κ → Prop) (k : κ) (x : Program σ ε α)
    (m : α → κ) : Prop where
  sat : ∀ s, H s k → Sat x s (fun a t => H t (m a)) fun _ => True

namespace Moves

variable {H : σ → κ → Prop} {k : κ} {x y : Program σ ε α} {m : α → κ}
variable {f : α → Program σ ε β} {n : β → κ}

theorem returns (h : Moves H k x m) {s t : σ} {a : α} (hs : H s k)
    (hx : x s = .ok (a, t)) : H t (m a) :=
  (h.sat s hs).returns hx

/-- The resources besides another specification. -/
theorem also (h : Moves H k x m) {s : σ} {Q : α → σ → Prop} {E : ε → Prop}
    (hs : H s k) (hx : Sat x s Q E) :
    Sat x s (fun a t => H t (m a) ∧ Q a t) E :=
  .intro (fun _ _ hok => ⟨h.returns hs hok, hx.returns hok⟩)
    fun _ herr => hx.stops herr

protected theorem pure {a : α} (h : k = m a) :
    Moves H k (pure a : Program σ ε α) m :=
  ⟨fun _ hs => Sat.pure (h ▸ hs)⟩

protected theorem get : Moves H k (get : Program σ ε σ) fun _ => k :=
  ⟨fun _ hs => Sat.get hs⟩

protected theorem throw (e : ε) : Moves H k (throw e : Program σ ε α) m :=
  ⟨fun _ _ => Sat.throw trivial⟩

protected theorem modify {u : σ → σ} {l : κ} (h : ∀ s, H s k → H (u s) l) :
    Moves H k (modify u : Program σ ε PUnit) fun _ => l :=
  ⟨fun s hs => Sat.modify (h s hs)⟩

protected theorem bind (hx : Moves H k x m)
    (hf : ∀ a, Moves H (m a) (f a) n) : Moves H k (x >>= f) n :=
  ⟨fun s hs => (hx.sat s hs).andThen fun a t ht => (hf a).sat t ht⟩

/-- The rest of the program depends on the state that is read here. -/
protected theorem bind_get {g : σ → Program σ ε β}
    (h : ∀ s, H s k → Sat (g s) s (fun b t => H t (n b)) fun _ => True) :
    Moves H k (get >>= g) n :=
  ⟨fun s hs => .bind (Sat.get (h s hs))⟩

protected theorem ite {c : Prop} [Decidable c] (hx : c → Moves H k x m)
    (hy : ¬c → Moves H k y m) : Moves H k (if c then x else y) m := by
  split
  · next hc => exact hx hc
  · next hc => exact hy hc

end Moves

end Program

end ZtlOs.Support
