import Mathlib.Algebra.Ring.Nat
import Mathlib.Data.List.Basic

/-!
# Runs of a deterministic step function

A program is given by a step function on an explicit state.  The label of a
step carries every choice that the program leaves open (which process moves,
what its environment supplies), so that a schedule is a list of labels.  An
attempted step is blocked, stops the machine, or leads to one next state.

The two predicates used below are `Run`, which relates the ends of a completed
schedule, and `Meets`, which states a condition at every point of a schedule.
-/

namespace ZtlOs.Support

variable {σ α : Type*}

/-- The numerals of `Fin 2`, the type of two processes. -/
instance neZero_two : NeZero 2 := ⟨by decide⟩

/-- The result of attempting one step. -/
inductive Outcome (σ : Type*) where
  /-- The step cannot be taken in this state. -/
  | blocked
  /-- The step stops the machine with a message. -/
  | panic (message : String)
  /-- The step leads to `state`. -/
  | next (state : σ)

namespace Outcome

variable {σ τ : Type*}

def map (f : σ → τ) : Outcome σ → Outcome τ
  | .blocked => .blocked
  | .panic message => .panic message
  | .next s => .next (f s)

def bind (o : Outcome σ) (f : σ → Outcome τ) : Outcome τ :=
  match o with
  | .blocked => .blocked
  | .panic message => .panic message
  | .next s => f s

theorem bind_eq_next {f : σ → Outcome τ} {o : Outcome σ} {t : τ}
    (h : o.bind f = .next t) : ∃ s, o = .next s ∧ f s = .next t := by
  cases o with
  | blocked => cases h
  | panic message => cases h
  | next s => exact ⟨s, rfl, h⟩

/-- The message of a step that stops the machine. -/
def message : Outcome σ → Option String
  | .panic message => some message
  | _ => none

theorem message_eq_some {o : Outcome σ} {m : String} :
    o.message = some m ↔ o = .panic m := by
  cases o <;> simp [message]

theorem map_eq_next {f : σ → τ} {o : Outcome σ} {t : τ}
    (h : o.map f = .next t) : ∃ s, o = .next s ∧ t = f s := by
  cases o with
  | blocked => cases h
  | panic message => cases h
  | next s => exact ⟨s, rfl, by cases h; rfl⟩

theorem map_eq_panic {f : σ → τ} {o : Outcome σ} {message : String} :
    o.map f = .panic message ↔ o = .panic message := by
  cases o <;> simp [map]

end Outcome

/-- A step of one part of a machine, which may have nothing to do. -/
def stepOption (step : σ → α → Outcome σ) (s : σ) : Option α → Outcome σ
  | none => .next s
  | some a => step s a

theorem stepOption_eq_next {step : σ → α → Outcome σ} {s t : σ}
    {a : Option α} (h : stepOption step s a = .next t) :
    a = none ∧ t = s ∨ ∃ b, a = some b ∧ step s b = .next t := by
  cases a with
  | none => exact .inl ⟨rfl, (Outcome.next.inj h).symm⟩
  | some b => exact .inr ⟨b, rfl, h⟩

/-- `Run step s w t`: every step of the schedule `w` can be taken from `s`
and the last one ends in `t`. -/
inductive Run (step : σ → α → Outcome σ) : σ → List α → σ → Prop where
  | nil (s : σ) : Run step s [] s
  | cons {s t u : σ} {a : α} {w : List α}
      (head : step s a = .next t) (tail : Run step t w u) :
      Run step s (a :: w) u

/-- `Meets step C s w`: the condition `C` holds of the state and the attempted
step at every point of the schedule `w` that is reached from `s`. -/
def Meets (step : σ → α → Outcome σ) (C : σ → α → Prop) :
    σ → List α → Prop
  | _, [] => True
  | s, a :: w => C s a ∧ ∀ t, step s a = .next t → Meets step C t w

/-- The state in which the schedule `w` ends, if all its steps can be
taken. -/
def exec (step : σ → α → Outcome σ) : σ → List α → Option σ
  | s, [] => some s
  | s, a :: w =>
      match step s a with
      | .next t => exec step t w
      | _ => none

namespace Run

variable {step : σ → α → Outcome σ} {s t u : σ} {a : α} {w v : List α}

theorem single (h : step s a = .next t) : Run step s [a] t :=
  .cons h (.nil t)

theorem append (hw : Run step s w t) (hv : Run step t v u) :
    Run step s (w ++ v) u := by
  induction hw with
  | nil s => exact hv
  | cons head _ ih => exact .cons head (ih hv)

theorem snoc (hw : Run step s w t) (ha : step t a = .next u) :
    Run step s (w ++ [a]) u :=
  hw.append (single ha)

theorem nil_inv (h : Run step s [] t) : t = s := by
  cases h
  rfl

theorem of_exec (h : exec step s w = some t) : Run step s w t := by
  induction w generalizing s with
  | nil =>
      cases h
      exact .nil _
  | cons a w ih =>
      simp only [exec] at h
      split at h
      · next r hr => exact .cons hr (ih h)
      · cases h

theorem exists_of_exec (step : σ → α → Outcome σ) (s : σ) (w : List α)
    (f : σ → Bool) (h : (exec step s w).any f = true) :
    ∃ t, Run step s w t ∧ f t = true := by
  obtain ⟨t, ht, hf⟩ := (Option.any_eq_true _ _).mp h
  exact ⟨t, of_exec ht, hf⟩

theorem panic_of_exec (step : σ → α → Outcome σ) (s : σ) (w : List α) (a : α)
    (m : String)
    (h : (exec step s w).bind (fun t => (step t a).message) = some m) :
    ∃ t, Run step s w t ∧ step t a = .panic m := by
  obtain ⟨t, ht, hm⟩ := Option.bind_eq_some_iff.mp h
  exact ⟨t, of_exec ht, Outcome.message_eq_some.mp hm⟩

theorem cons_inv (h : Run step s (a :: w) u) :
    ∃ t, step s a = .next t ∧ Run step t w u := by
  cases h with
  | cons head tail => exact ⟨_, head, tail⟩

theorem append_inv (h : Run step s (w ++ v) u) :
    ∃ t, Run step s w t ∧ Run step t v u := by
  induction w generalizing s with
  | nil => exact ⟨s, .nil s, h⟩
  | cons a w ih =>
      obtain ⟨t, head, tail⟩ := h.cons_inv
      obtain ⟨r, hw, hv⟩ := ih tail
      exact ⟨r, .cons head hw, hv⟩

/-- A property kept by every step holds at the end of every run. -/
theorem invariant {I : σ → Prop}
    (hstep : ∀ s a t, I s → step s a = .next t → I t)
    (hrun : Run step s w t) (hs : I s) : I t := by
  induction hrun with
  | nil s => exact hs
  | cons head _ ih => exact ih (hstep _ _ _ hs head)

/-- A property kept by every step that meets `C` holds at the end of every
run whose steps all meet `C`. -/
theorem invariant_of_meets {I : σ → Prop} {C : σ → α → Prop}
    (hstep : ∀ s a t, I s → C s a → step s a = .next t → I t)
    (hrun : Run step s w t) (hC : Meets step C s w) (hs : I s) : I t := by
  induction hrun with
  | nil s => exact hs
  | cons head _ ih =>
      exact ih (hC.2 _ head) (hstep _ _ _ hs hC.1 head)

end Run

/-- A machine that is driven by `next` gets to `done` when every step on the
way can be taken and brings the measure `μ` down. -/
theorem exists_run_of_measure (step : σ → α → Outcome σ) (I done : σ → Prop)
    (C : σ → α → Prop) (next : σ → α) (μ : σ → ℕ)
    (hstep : ∀ s, I s → ¬ done s → C s (next s) ∧
      ∃ t, step s (next s) = .next t ∧ I t ∧ μ t < μ s)
    (s : σ) (hs : I s) :
    ∃ w t, Run step s w t ∧
      Meets step (fun s a => a = next s ∧ C s a) s w ∧ I t ∧ done t := by
  induction hμ : μ s using Nat.strongRecOn generalizing s with
  | _ n ih =>
      by_cases hdone : done s
      · exact ⟨[], s, .nil s, trivial, hs, hdone⟩
      · obtain ⟨hC, t, ht, hI, hlt⟩ := hstep s hs hdone
        obtain ⟨w, u, hrun, hmeets, hu⟩ := ih (μ t) (hμ ▸ hlt) t hI rfl
        refine ⟨next s :: w, u, .cons ht hrun, ⟨⟨rfl, hC⟩, ?_⟩, hu⟩
        intro t' ht'
        rw [ht] at ht'
        cases ht'
        exact hmeets

namespace Meets

variable {step : σ → α → Outcome σ} {C D : σ → α → Prop}
variable {s t : σ} {w v : List α}

instance decidable (step : σ → α → Outcome σ) (C : σ → α → Prop)
    [∀ s a, Decidable (C s a)] : ∀ s w, Decidable (Meets step C s w)
  | _, [] => .isTrue trivial
  | s, a :: w =>
      match h : step s a with
      | .next t =>
          have : Decidable (Meets step C t w) := decidable step C t w
          decidable_of_iff (C s a ∧ Meets step C t w) (by simp [Meets, h])
      | .blocked => decidable_of_iff (C s a) (by simp [Meets, h])
      | .panic _ => decidable_of_iff (C s a) (by simp [Meets, h])

/-- A schedule of steps that are good in every state. -/
theorem of_forall (hC : ∀ s, ∀ a ∈ w, C s a) : Meets step C s w := by
  induction w generalizing s with
  | nil => trivial
  | cons a w ih =>
      exact ⟨hC s a List.mem_cons_self, fun t _ =>
        ih fun s b hb => hC s b (List.mem_cons_of_mem a hb)⟩

/-- A schedule meets every condition that an invariant implies. -/
theorem of_invariant {I : σ → Prop}
    (hstep : ∀ s a t, I s → step s a = .next t → I t)
    (hC : ∀ s a, I s → C s a) (hs : I s) (w : List α) :
    Meets step C s w := by
  induction w generalizing s with
  | nil => trivial
  | cons a w ih =>
      exact ⟨hC s a hs, fun t ht => ih (hstep s a t hs ht)⟩

/-- Where `C` keeps the invariant `I` and `I` turns `C` into `D`, a schedule
that meets `C` meets `D`. -/
theorem imp_of_invariant {I : σ → Prop}
    (hstep : ∀ s a t, I s → C s a → step s a = .next t → I t)
    (hCD : ∀ s a, I s → C s a → D s a) (hs : I s)
    (hw : Meets step C s w) : Meets step D s w := by
  induction w generalizing s with
  | nil => trivial
  | cons a w ih =>
      refine ⟨hCD s a hs hw.1, fun t ht => ?_⟩
      exact ih (hstep s a t hs hw.1 ht) (hw.2 t ht)

/-- Two conditions that agree wherever the invariant holds are met by the same
schedules. -/
theorem iff_of_invariant {I : σ → Prop}
    (hstep : ∀ s a t, I s → C s a → step s a = .next t → I t)
    (hCD : ∀ s a, I s → (C s a ↔ D s a)) (hs : I s) (w : List α) :
    Meets step C s w ↔ Meets step D s w := by
  constructor
  · exact imp_of_invariant hstep (fun s a hI hC => (hCD s a hI).mp hC) hs
  · refine imp_of_invariant ?_ (fun s a hI hD => (hCD s a hI).mpr hD) hs
    intro s a t hI hD
    exact hstep s a t hI ((hCD s a hI).mpr hD)

theorem append_right (h : Meets step C s (w ++ v)) (hrun : Run step s w t) :
    Meets step C t v := by
  induction hrun with
  | nil s => exact h
  | cons head _ ih => exact ih (h.2 _ head)

/-- The condition holds at the point that any prefix of the schedule
reaches. -/
theorem at_prefix {a : α} (h : Meets step C s (w ++ a :: v))
    (hrun : Run step s w t) : C t a :=
  (h.append_right hrun).1

end Meets

end ZtlOs.Support
