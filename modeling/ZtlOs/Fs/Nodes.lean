import ZtlOs.Fs.Layout

/-!
# Files and directories

An allocated inode as the calls see it: its fields and its bytes.  The bytes of
a directory are a list of entries, of which those with an inode number are
live.
-/

namespace ZtlOs.Fs

/-- An allocated inode and its bytes. -/
structure Node where
  type : BitVec 16
  major : BitVec 16
  minor : BitVec 16
  nlink : BitVec 16
  data : List (BitVec 8)

/-! ## Bytes -/

/-- The bytes `l` with `xs` laid over them at offset `p`. -/
def splice (l : List (BitVec 8)) (p : ℕ) (xs : List (BitVec 8)) :
    List (BitVec 8) :=
  l.take p ++ xs ++ l.drop (p + xs.length)

section Splice

variable {l xs : List (BitVec 8)} {p k : ℕ}

theorem length_splice (hp : p ≤ l.length) :
    (splice l p xs).length = max l.length (p + xs.length) := by
  simp only [splice, List.length_append, List.length_take, List.length_drop]
  omega

theorem getElem?_splice_of_mem (hp : p ≤ l.length) (hk : k < xs.length) :
    (splice l p xs)[p + k]? = xs[k]? := by
  have htake : (l.take p).length = p := by
    rw [List.length_take]
    omega
  rw [splice, List.append_assoc, List.getElem?_append_right (by omega), htake,
    Nat.add_sub_cancel_left, List.getElem?_append_left hk]

theorem getElem?_splice_of_not_mem (hp : p ≤ l.length)
    (hk : k < p ∨ p + xs.length ≤ k) : (splice l p xs)[k]? = l[k]? := by
  have htake : (l.take p).length = p := by
    rw [List.length_take]
    omega
  rcases hk with hk | hk
  · rw [splice, List.append_assoc, List.getElem?_append_left (by omega),
      List.getElem?_take_of_lt hk]
  · have hlen : (l.take p ++ xs).length = p + xs.length := by
      rw [List.length_append, htake]
    rw [splice, List.getElem?_append_right (by omega), hlen,
      List.getElem?_drop]
    congr 1
    omega

/-- Laying nothing over the bytes. -/
@[simp] theorem splice_nil (l : List (BitVec 8)) (p : ℕ) :
    splice l p [] = l := by
  simp [splice]

/-- Laying bytes over others, and more behind them. -/
theorem splice_append (hp : p ≤ l.length) (ys : List (BitVec 8)) :
    splice (splice l p xs) (p + xs.length) ys = splice l p (xs ++ ys) := by
  have hlen : (l.take p ++ xs).length = p + xs.length := by
    rw [List.length_append, List.length_take]
    omega
  have hdrop : (splice l p xs).drop (p + xs.length + ys.length) =
      l.drop (p + (xs.length + ys.length)) := by
    rw [splice, ← List.drop_drop, List.drop_left' hlen, List.drop_drop,
      Nat.add_assoc]
  have htake : (splice l p xs).take (p + xs.length) = l.take p ++ xs := by
    rw [splice, List.take_left' hlen]
  rw [splice, hdrop, htake, splice, List.length_append]
  simp only [List.append_assoc]

end Splice

/-- A node that has been written from `off` on. -/
def Node.written (n : Node) (off : ℕ) (src : List (BitVec 8)) : Node :=
  { n with data := splice n.data off src }

/-- What reading `l` bytes of a node at an offset returns. -/
def Node.fetched (n : Node) (off l : ℕ) : Option (List (BitVec 8)) :=
  if n.data.length < off ∨ 2 ^ 32 ≤ off + l then none
  else some ((n.data.drop off).take l)

/-! ## Directory entries -/

/-- Entry `j` of a directory with these bytes. -/
def direntAt (l : List (BitVec 8)) (j : ℕ) : Dirent :=
  Dirent.ofBytes ((l.drop (Dirent.size * j)).take Dirent.size)

/-- The entries of a directory with these bytes. -/
def dirents (l : List (BitVec 8)) : List Dirent :=
  (List.range (l.length / Dirent.size)).map (direntAt l)

section Dirents

variable {l xs : List (BitVec 8)} {j : ℕ} {de : Dirent}

@[simp] theorem length_dirents : (dirents l).length = l.length / Dirent.size := by
  simp [dirents]

@[simp] theorem dirents_nil : dirents [] = [] :=
  rfl

theorem getElem_dirents (h : j < (dirents l).length) :
    (dirents l)[j] = direntAt l j := by
  simp [dirents]

theorem mem_dirents : de ∈ dirents l ↔
    ∃ j, Dirent.size * j + Dirent.size ≤ l.length ∧ direntAt l j = de := by
  have hdiv : ∀ j, j < l.length / Dirent.size ↔
      Dirent.size * j + Dirent.size ≤ l.length := by
    intro j
    simp only [Dirent.size]
    omega
  simp only [dirents, List.mem_map, List.mem_range, hdiv]

/-- An entry that is not written stays. -/
theorem direntAt_splice_of_ne {i : ℕ} (hp : Dirent.size * i ≤ l.length)
    (hxs : xs.length = Dirent.size) (hij : j ≠ i) :
    direntAt (splice l (Dirent.size * i) xs) j = direntAt l j := by
  unfold direntAt
  congr 1
  apply List.ext_getElem?
  intro k
  rw [List.getElem?_take, List.getElem?_take, List.getElem?_drop,
    List.getElem?_drop]
  split
  · next hk =>
      apply getElem?_splice_of_not_mem hp
      simp only [Dirent.size] at hk hxs ⊢
      omega
  · rfl

theorem direntAt_splice_self (hp : Dirent.size * j ≤ l.length) :
    direntAt (splice l (Dirent.size * j) de.bytes) j = de := by
  have hlen := de.length_bytes
  have hchunk : ((splice l (Dirent.size * j) de.bytes).drop
      (Dirent.size * j)).take Dirent.size = de.bytes := by
    apply List.ext_getElem?
    intro k
    rw [List.getElem?_take, List.getElem?_drop]
    split
    · next hk => exact getElem?_splice_of_mem hp (by omega)
    · next hk => exact (List.getElem?_eq_none (by omega)).symm
  rw [direntAt, hchunk, Dirent.ofBytes_bytes]

/-- Writing an entry over another one. -/
theorem dirents_splice_set (h : Dirent.size * j + Dirent.size ≤ l.length) :
    dirents (splice l (Dirent.size * j) de.bytes) = (dirents l).set j de := by
  have hlen : (splice l (Dirent.size * j) de.bytes).length = l.length := by
    rw [length_splice (by omega), de.length_bytes]
    omega
  apply List.ext_getElem
  · simp [hlen]
  · intro k hk hk'
    rw [getElem_dirents, List.getElem_set]
    by_cases hkj : j = k
    · subst hkj
      rw [if_pos rfl, direntAt_splice_self (by omega)]
    · rw [if_neg hkj, direntAt_splice_of_ne (by omega) de.length_bytes
        (Ne.symm hkj), getElem_dirents]

/-- Writing an entry behind the last one. -/
theorem dirents_splice_append (h : Dirent.size * j = l.length) :
    dirents (splice l (Dirent.size * j) de.bytes) = dirents l ++ [de] := by
  have hlen : (splice l (Dirent.size * j) de.bytes).length =
      l.length + Dirent.size := by
    rw [length_splice (by omega), de.length_bytes]
    omega
  have hdiv : l.length / Dirent.size = j := by
    simp only [Dirent.size] at h ⊢
    omega
  have hdiv' : (l.length + Dirent.size) / Dirent.size = j + 1 := by
    simp only [Dirent.size] at h ⊢
    omega
  apply List.ext_getElem
  · simp [hlen, hdiv, hdiv']
  · intro k hk hk'
    rw [length_dirents, hlen, hdiv'] at hk
    rw [getElem_dirents]
    by_cases hkj : k = j
    · subst hkj
      rw [direntAt_splice_self (by omega), List.getElem_append_right
        (by rw [length_dirents, hdiv])]
      simp
    · rw [direntAt_splice_of_ne (by omega) de.length_bytes hkj,
        List.getElem_append_left (by rw [length_dirents, hdiv]; omega),
        getElem_dirents]

end Dirents

end ZtlOs.Fs
