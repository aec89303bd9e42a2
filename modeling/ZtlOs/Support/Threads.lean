import Mathlib.Data.List.Basic

/-!
# Threads that request operations

A thread requests one operation after another from a machine that it shares
with other threads, and goes on with the result of each.  `Rules` says, for a
thread that owns a part of the machine, when it may request an operation and
what it owns afterwards.  `Safe` is what follows for a whole thread; its rules
follow the structure of the thread.
-/

namespace ZtlOs.Support

/-- A thread over the operations `Op`, whose results are of the types `Res`. -/
inductive Thread (Op : Type) (Res : Op → Type) (α : Type) where
  | ret (a : α)
  | op (o : Op) (k : Res o → Thread Op Res α)

namespace Thread

variable {Op : Type} {Res : Op → Type} {ρ α β : Type}

def bind (x : Thread Op Res α) (f : α → Thread Op Res β) : Thread Op Res β :=
  match x with
  | .ret a => f a
  | .op o k => .op o fun r => (k r).bind f

instance : Monad (Thread Op Res) where
  pure := .ret
  bind := bind

/-- Request one operation and return its result. -/
def request (o : Op) : Thread Op Res (Res o) :=
  .op o .ret

/-- What a thread that owns `c` must have for an operation, and what may be its
result and what the thread owns then. -/
structure Rules (Op : Type) (Res : Op → Type) (ρ : Type) where
  pre : Op → ρ → Prop
  post : (o : Op) → ρ → Res o → ρ → Prop

/-- Owning `c`, the thread requests only what it may, and if it returns then
`Q` holds. -/
def Safe (R : Rules Op Res ρ) : Thread Op Res α → ρ → (α → ρ → Prop) → Prop
  | .ret a, c, Q => Q a c
  | .op o k, c, Q => R.pre o c ∧ ∀ r c', R.post o c r c' → Safe R (k r) c' Q

namespace Safe

variable {R : Rules Op Res ρ} {x : Thread Op Res α} {c : ρ}
variable {f : α → Thread Op Res β} {Q Q' : α → ρ → Prop} {T : β → ρ → Prop}

theorem mono (h : Safe R x c Q) (hQ : ∀ a c, Q a c → Q' a c) :
    Safe R x c Q' := by
  induction x generalizing c with
  | ret a => exact hQ a c h
  | op o k ih => exact ⟨h.1, fun r c' hpost => ih r (h.2 r c' hpost)⟩

theorem pure {a : α} (h : Q a c) :
    Safe R (Pure.pure a : Thread Op Res α) c Q :=
  h

theorem bind (h : Safe R x c Q) (hf : ∀ a c, Q a c → Safe R (f a) c T) :
    Safe R (x >>= f) c T := by
  induction x generalizing c with
  | ret a => exact hf a c h
  | op o k ih => exact ⟨h.1, fun r c' hpost => ih r (h.2 r c' hpost)⟩

theorem request {o : Op} {Q : Res o → ρ → Prop} (hpre : R.pre o c)
    (hpost : ∀ r c', R.post o c r c' → Q r c') :
    Safe R (request o : Thread Op Res (Res o)) c Q :=
  ⟨hpre, hpost⟩

/-- One operation followed by the rest of the thread. -/
theorem request_bind {o : Op} {g : Res o → Thread Op Res β} (hpre : R.pre o c)
    (h : ∀ r c', R.post o c r c' → Safe R (g r) c' T) :
    Safe R (Thread.request o >>= g) c T :=
  bind (request hpre fun _ _ hpost => hpost) h

theorem ite {p : Prop} [Decidable p] {y : Thread Op Res α}
    (hx : p → Safe R x c Q) (hy : ¬p → Safe R y c Q) :
    Safe R (if p then x else y) c Q := by
  split
  · next hp => exact hx hp
  · next hp => exact hy hp

end Safe

end Thread

end ZtlOs.Support
