import Mathlib.Data.List.DropRight
import Mathlib.Data.List.TakeWhile
import ZtlOs.Kernel.Directory

/-!
# Path names

Repeated `skipelem` splits a path at its slashes: it yields the elements that
are not empty, each cut to `DIRSIZ` bytes.
-/

namespace ZtlOs.Kernel

open ZtlOs.Fs

variable {path rest e : Bytes} {n : ℕ}

/-- The pieces between the slashes that are not empty. -/
def pieces (l : Bytes) : List Bytes :=
  (l.splitOn slash).filter fun s => s ≠ []

/-- The bytes of a path before its NUL. -/
def pathText (path : Bytes) : Bytes :=
  path.takeWhile fun c => c ≠ 0

/-- The elements of a path. -/
def components (path : Bytes) : List Bytes :=
  (pieces (pathText path)).map (List.take DIRSIZ)

/-- Up to `n` elements of a path, one `skipelem` after another. -/
def skipelems : ℕ → Bytes → List Bytes
  | 0, _ => []
  | n + 1, path =>
      match skipelem path with
      | none => []
      | some (name, path) => name :: skipelems n path

/-! ## Pieces -/

theorem pieces_slash (l : Bytes) : pieces (slash :: l) = pieces l := by
  have hsplit := List.splitOn_append_cons_self_of_not_mem
    (List.not_mem_nil (a := slash)) l
  rw [List.nil_append] at hsplit
  rw [pieces, hsplit]
  rfl

theorem pieces_dropWhile (l : Bytes) :
    pieces (l.dropWhile fun c => c == slash) = pieces l := by
  induction l with
  | nil => rfl
  | cons c l ih =>
      rw [List.dropWhile_cons]
      split
      · next hc =>
          rw [eq_of_beq hc, pieces_slash, ih]
      · rfl

/-- A piece ends at a slash or at the end. -/
theorem pieces_append {s l : Bytes} (hne : s ≠ []) (hs : slash ∉ s)
    (hl : l = [] ∨ l.head? = some slash) :
    pieces (s ++ l) = s :: pieces l := by
  have hkeep : decide (s ≠ []) = true := decide_eq_true hne
  rcases hl with rfl | hl
  · rw [List.append_nil, pieces, List.splitOn_eq_singleton hs,
      List.filter_cons, if_pos hkeep]
    rfl
  · obtain ⟨l, rfl⟩ : ∃ l', l = slash :: l' := by
      cases l with
      | nil => cases hl
      | cons c l => exact ⟨l, by rw [Option.some.inj hl]⟩
    rw [pieces_slash, pieces,
      List.splitOn_append_cons_self_of_not_mem hs,
      List.filter_cons, if_pos hkeep, pieces]

/-! ## skipelem -/

theorem pathText_dropWhile_slash (path : Bytes) :
    pathText (path.dropWhile fun c => c == slash) =
      (pathText path).dropWhile fun c => c == slash := by
  induction path with
  | nil => rfl
  | cons c path ih =>
      rw [List.dropWhile_cons]
      split
      · next hc =>
          obtain rfl := eq_of_beq hc
          exact ih
      · next hc =>
          rw [pathText, List.takeWhile_cons]
          split
          · rw [List.dropWhile_cons, if_neg hc]
          · rfl

/-- The bytes of an element, and what follows them. -/
theorem pathText_eq (path : Bytes) :
    pathText path = path.takeWhile (fun c => c != slash && c != 0) ++
      pathText (path.dropWhile fun c => c != slash && c != 0) := by
  induction path with
  | nil => rfl
  | cons c path ih =>
      rw [List.takeWhile_cons, List.dropWhile_cons]
      split
      · next hc =>
          have hzero : c ≠ 0 := by simp_all
          rw [pathText, List.takeWhile_cons, if_pos (decide_eq_true hzero),
            List.cons_append]
          exact congrArg _ ih
      · rw [List.nil_append]

theorem components_dropWhile (path : Bytes) :
    components (path.dropWhile fun c => c == slash) = components path := by
  rw [components, pathText_dropWhile_slash, pieces_dropWhile, components]

theorem skipelem_eq (path : Bytes) : skipelem path =
    if (path.dropWhile fun c => c == slash).headD 0 = 0 then none
    else some (
      ((path.dropWhile fun c => c == slash).takeWhile
        fun c => c != slash && c != 0).take DIRSIZ,
      ((path.dropWhile fun c => c == slash).dropWhile
        fun c => c != slash && c != 0).dropWhile fun c => c == slash) :=
  rfl

theorem skipelem_none (h : skipelem path = none) : components path = [] := by
  rw [← components_dropWhile]
  rw [skipelem_eq] at h
  split at h
  · next hzero =>
      have htext : pathText (path.dropWhile fun c => c == slash) = [] := by
        generalize path.dropWhile (fun c => c == slash) = l at hzero
        cases l with
        | nil => rfl
        | cons c l =>
            obtain rfl : c = 0 := hzero
            rfl
      rw [components, htext]
      rfl
  · cases h

/-- What stops an element: a slash, or the end of the path. -/
theorem pathText_stop (l : Bytes) :
    pathText (l.dropWhile fun c => c != slash && c != 0) = [] ∨
      (pathText (l.dropWhile fun c => c != slash && c != 0)).head? =
        some slash := by
  have hhead := List.head?_dropWhile_not (fun c => c != slash && c != 0) l
  generalize (l.dropWhile fun c => c != slash && c != 0) = r at hhead
  cases r with
  | nil => exact .inl rfl
  | cons c r =>
      have hc : c = slash ∨ c = 0 :=
        or_iff_not_imp_left.mpr (by simpa using hhead)
      rcases hc with rfl | rfl
      · exact .inr rfl
      · exact .inl rfl

theorem skipelem_some (h : skipelem path = some (e, rest)) :
    components path = e :: components rest ∧ cutName e = e ∧
      rest.length < path.length := by
  rw [skipelem_eq] at h
  split at h
  · cases h
  · next hzero =>
      obtain ⟨rfl, rfl⟩ := Prod.mk.inj (Option.some.inj h)
      have hhead := List.head?_dropWhile_not (fun c => c == slash) path
      have hle := List.length_dropWhile_le (fun c => c == slash) path
      rw [components_dropWhile, ← components_dropWhile path]
      generalize path.dropWhile (fun c => c == slash) = l at hzero hhead hle ⊢
      have hmem : ∀ c ∈ l.takeWhile fun c => c != slash && c != 0,
          c ≠ slash ∧ c ≠ 0 := by
        intro c hc
        simpa using List.mem_takeWhile_imp hc
      have hfirst : l.takeWhile (fun c => c != slash && c != 0) ≠ [] := by
        cases l with
        | nil => exact absurd rfl hzero
        | cons c l =>
            have hne : c ≠ slash := by simpa using hhead
            have hkeep : (c != slash && c != 0) = true := by
              rw [Bool.and_eq_true]
              exact ⟨bne_iff_ne.mpr hne, bne_iff_ne.mpr hzero⟩
            rw [List.takeWhile_cons, if_pos hkeep]
            exact List.cons_ne_nil _ _
      refine ⟨?_, ?_, ?_⟩
      · rw [components, pathText_eq, pieces_append hfirst
          (fun hs => (hmem _ hs).1 rfl) (pathText_stop l), List.map_cons,
          components]
      · rw [cutName, cstring, List.take_take, Nat.min_self]
        apply List.takeWhile_eq_self_iff.mpr
        intro c hc
        exact decide_eq_true (hmem c (List.mem_of_mem_take hc)).2
      · have hdrop := List.length_dropWhile_le (fun c => c == slash)
          (l.dropWhile fun c => c != slash && c != 0)
        have hsplit := congrArg List.length (List.takeWhile_append_dropWhile
          (p := fun c => c != slash && c != 0) (l := l))
        have hpos := List.length_pos_iff.mpr hfirst
        rw [List.length_append] at hsplit
        omega

/-- The caller can check whether an element is the last one. -/
theorem skipelem_last (h : skipelem path = some (e, rest)) :
    rest.headD 0 = 0 ↔ components rest = [] := by
  have hdrop : (rest.dropWhile fun c => c == slash) = rest := by
    rw [skipelem_eq] at h
    split at h
    · cases h
    · rw [← (Prod.mk.inj (Option.some.inj h)).2]
      exact List.dropWhile_idempotent _ _
  have hnone : skipelem rest = none ↔ rest.headD 0 = 0 := by
    rw [skipelem_eq, hdrop]
    split
    · next hzero => exact iff_of_true rfl hzero
    · next hzero => exact iff_of_false (Option.some_ne_none _) hzero
  rw [← hnone]
  constructor
  · exact skipelem_none
  · intro hempty
    cases hs : skipelem rest with
    | none => rfl
    | some r =>
        obtain ⟨heq, -⟩ := skipelem_some hs
        rw [hempty] at heq
        cases heq

/-- Repeated `skipelem` yields the elements of the path. -/
theorem skipelems_eq (h : path.length ≤ n) :
    skipelems n path = components path := by
  induction n generalizing path with
  | zero =>
      rw [List.length_eq_zero_iff.mp (Nat.le_zero.mp h)]
      rfl
  | succ n ih =>
      rw [skipelems]
      split
      · next hnone => rw [skipelem_none hnone]
      · next name rest hsome =>
          obtain ⟨heq, -, hlt⟩ := skipelem_some hsome
          rw [heq, ih (by omega)]

end ZtlOs.Kernel
