import ZtlOs.Cache.Bcache
import ZtlOs.Support.Circular

/-!
# The list of buffers

`bcache` as it is in memory: the buffers are threaded through their `next` and
`prev` pointers and the head element, `bget` walks along these pointers, and
`brelse` moves a buffer by changing them.  Everything else a process does is
as in `step`.

`step_withList` says that this machine does what `step` does with the list of
buffers that the pointers describe.  The buffers whose last reference was given
up are recorded, latest first, so that the order of the list can be stated.
-/

namespace ZtlOs.Cache

open ZtlOs.Support ZtlOs.Fs

/-- `bcache` with its pointers, the disks, and the calls in progress. -/
structure Linked (P D : Type*) where
  buf : Fin NBUF → Buf P D
  links : Links (Fin NBUF)
  disk : ℕ × ℕ → D
  call : P → Call

namespace Linked

variable {P D : Type*}

/-- The cache with its list of buffers spelled out. -/
def withList (l : Linked P D) (lru : List (Fin NBUF)) : State P D where
  buf := l.buf
  lru := lru
  disk := l.disk
  call := l.call

def ofState (links : Links (Fin NBUF)) (s : State P D) : Linked P D where
  buf := s.buf
  links := links
  disk := s.disk
  call := s.call

def setBuf (l : Linked P D) (i : Fin NBUF) (b : Buf P D) : Linked P D :=
  { l with buf := Function.update l.buf i b }

/-- `binit`, whatever the pointers are before. -/
def binit (zero : D) (disk : ℕ × ℕ → D) (links : Links (Fin NBUF)) :
    Linked P D :=
  let links := links.setPrev none none
  let links := links.setNext none none
  ofState ((List.finRange NBUF).foldl Links.pushFront links)
    (Cache.binit zero disk)

/-- The loop of `bget` that looks for a block, from the head on. -/
def findCached (l : Linked P D) (id : BlockId) : Links.Walk (Fin NBUF) :=
  Links.walk l.links.next (fun i => (l.buf i).id = id) (NBUF + 1)
    (l.links.next none)

/-- The loop of `bget` that looks for a buffer to recycle, from the end on. -/
def findUnused (l : Linked P D) : Links.Walk (Fin NBUF) :=
  Links.walk l.links.prev
    (fun i => (l.buf i).refcnt = 0 && !(l.buf i).dirty) (NBUF + 1)
    (l.links.prev none)

variable [DecidableEq P]

def setCall (l : Linked P D) (p : P) (call : Call) : Linked P D :=
  { l with call := Function.update l.call p call }

/-- The critical section of `bget`. -/
def bget (l : Linked P D) (p : P) (id : BlockId) : Outcome (Linked P D) :=
  match l.findCached id with
  | .found i =>
      .next ((l.setBuf i
        { l.buf i with refcnt := (l.buf i).refcnt + 1 }).setCall p
          (.locking i))
  | .running => .blocked
  | .atHead =>
      match l.findUnused with
      | .found i =>
          .next ((l.setBuf i
            { l.buf i with
              id := id, valid := false, dirty := false, refcnt := 1 }).setCall
              p (.locking i))
      | .running => .blocked
      | .atHead => .panic "bget: no buffers"

omit [DecidableEq P] in
/-- The second half of `brelse`. -/
def release (l : Linked P D) (i : Fin NBUF) : Linked P D :=
  let refcnt := (l.buf i).refcnt - 1
  { l.setBuf i { l.buf i with refcnt := refcnt } with
    links := if refcnt = 0 then (l.links.unlink i).pushFront i else l.links }

def step (l : Linked P D) (a : Act P D) : Outcome (Linked P D) :=
  match a with
  | .bread p id => if l.call p = .idle then l.bget p id else .blocked
  | .release p =>
      match l.call p with
      | .releasing i => .next ((l.release i).setCall p .idle)
      | _ => .blocked
  | a => (Cache.step (l.withList []) a).map (ofState l.links)

omit [DecidableEq P] in
/-- The buffer whose last reference a step gives up. -/
def finalRelease (l : Linked P D) : Act P D → Option (Fin NBUF)
  | .release p =>
      match l.call p with
      | .releasing i => if (l.buf i).refcnt - 1 = 0 then some i else none
      | _ => none
  | _ => none

omit [DecidableEq P] in
/-- The list of buffers after a step. -/
def listAfter (l : Linked P D) (lru : List (Fin NBUF)) (a : Act P D) :
    List (Fin NBUF) :=
  match l.finalRelease a with
  | some i => i :: lru.erase i
  | none => lru

/-! ## Refinement -/

section Refinement

variable {l l' : Linked P D} {lru : List (Fin NBUF)}

omit [DecidableEq P] in
theorem findCached_eq (h : l.links.Ring lru) (hlen : lru.length ≤ NBUF)
    (id : BlockId) :
    l.findCached id = .ofFind ((l.withList lru).cached id) :=
  h.walk_next _ (Nat.lt_succ_of_le hlen)

omit [DecidableEq P] in
theorem findUnused_eq (h : l.links.Ring lru) (hlen : lru.length ≤ NBUF) :
    l.findUnused = .ofFind (l.withList lru).unused :=
  h.walk_prev _ (Nat.lt_succ_of_le hlen)

theorem bget_withList (h : l.links.Ring lru) (hlen : lru.length ≤ NBUF)
    (p : P) (id : BlockId) :
    (l.withList lru).bget p id = (l.bget p id).map fun l' =>
      l'.withList lru := by
  unfold State.bget bget
  rw [findCached_eq h hlen id, findUnused_eq h hlen]
  cases (l.withList lru).cached id with
  | some i => rfl
  | none =>
      cases (l.withList lru).unused with
      | some i => rfl
      | none => rfl

theorem bget_links {p : P} {id : BlockId} (hb : l.bget p id = .next l') :
    l'.links = l.links := by
  unfold bget at hb
  split at hb
  · cases hb
    rfl
  · cases hb
  · split at hb
    · cases hb
      rfl
    · cases hb
    · cases hb

omit [DecidableEq P] in
theorem iderw_withList (lru : List (Fin NBUF)) (i : Fin NBUF) :
    (l.withList lru).iderw i =
      ((l.withList []).iderw i).map fun s => { s with lru := lru } := by
  simp only [State.iderw, apply_ite (Outcome.map _)]
  rfl

/-- The steps that do not touch the list do not depend on it. -/
theorem step_withList_other {a : Act P D} (hbread : ∀ p id, a ≠ .bread p id)
    (hrelease : ∀ p, a ≠ .release p) :
    Cache.step (l.withList lru) a =
      (l.step a).map fun l' => l'.withList lru := by
  have hmap : ∀ o : Outcome (State P D),
      (o.map (ofState l.links)).map (fun l' => l'.withList lru) =
        o.map fun s => { s with lru := lru } := by
    intro o
    cases o with
    | blocked => rfl
    | panic message => rfl
    | next s => rfl
  have hstep : l.step a =
      (Cache.step (l.withList []) a).map (ofState l.links) := by
    cases a with
    | bread p id => exact absurd rfl (hbread p id)
    | release p => exact absurd rfl (hrelease p)
    | _ => rfl
  rw [hstep, hmap]
  cases a with
  | bread p id => exact absurd rfl (hbread p id)
  | release p => exact absurd rfl (hrelease p)
  | acquiresleep p =>
      simp only [Cache.step]
      have hcall : (l.withList lru).call p = (l.withList []).call p := rfl
      rw [hcall]
      split
      · simp only [apply_ite (Outcome.map _)]
        rfl
      · rfl
  | load p =>
      simp only [Cache.step]
      have hcall : (l.withList lru).call p = (l.withList []).call p := rfl
      rw [hcall]
      split
      next i _ =>
        have hbuf : ((l.withList lru).buf i).valid =
            ((l.withList []).buf i).valid := rfl
        rw [hbuf]
        split
        · rfl
        · rw [iderw_withList lru i]
          cases (l.withList []).iderw i with
          | blocked => rfl
          | panic message => rfl
          | next s => rfl
      · rfl
  | modify p i data =>
      simp only [Cache.step, apply_ite (Outcome.map _)]
      rfl
  | pin p i =>
      simp only [Cache.step, apply_ite (Outcome.map _)]
      rfl
  | bwrite p i =>
      have hbwrite : (l.withList lru).bwrite i =
          ((l.withList []).bwrite i).map fun s => { s with lru := lru } := by
        simp only [State.bwrite, State.iderw, apply_ite (Outcome.map _)]
        rfl
      simp only [Cache.step, hbwrite, apply_ite (Outcome.map _)]
      rfl
  | brelse p i =>
      simp only [Cache.step, apply_ite (Outcome.map _)]
      rfl

/-- The machine with pointers does what the machine with a list does. -/
theorem step_withList (h : l.links.Ring lru) (hlen : lru.length ≤ NBUF)
    (a : Act P D) :
    Cache.step (l.withList lru) a =
      (l.step a).map fun l' => l'.withList (l.listAfter lru a) := by
  cases a with
  | bread p id =>
      simp only [Cache.step, step]
      have hcall : (l.withList lru).call p = l.call p := rfl
      rw [hcall]
      split
      · exact bget_withList h hlen p id
      · rfl
  | release p =>
      simp only [Cache.step, step]
      have hcall : (l.withList lru).call p = l.call p := rfl
      rw [hcall]
      cases hi : l.call p with
      | releasing i =>
          have hlist : l.listAfter lru (.release p) =
              if (l.buf i).refcnt - 1 = 0 then i :: lru.erase i else lru := by
            simp only [listAfter, finalRelease, hi]
            by_cases hzero : (l.buf i).refcnt - 1 = 0
            · simp only [if_pos hzero]
            · simp only [if_neg hzero]
          simp only [Outcome.map, hlist]
          rfl
      | idle => rfl
      | locking i => rfl
      | loading i => rfl
  | acquiresleep p => exact step_withList_other (by simp) (by simp)
  | load p => exact step_withList_other (by simp) (by simp)
  | modify p i data => exact step_withList_other (by simp) (by simp)
  | pin p i => exact step_withList_other (by simp) (by simp)
  | bwrite p i => exact step_withList_other (by simp) (by simp)
  | brelse p i => exact step_withList_other (by simp) (by simp)

/-- After a step the pointers describe the new list. -/
theorem step_ring (h : l.links.Ring lru) (hnodup : lru.Nodup)
    (hmem : ∀ i, i ∈ lru) {a : Act P D} (ht : l.step a = .next l') :
    l'.links.Ring (l.listAfter lru a) := by
  have hother : (l.step a = (Cache.step (l.withList []) a).map
      (ofState l.links)) → l.finalRelease a = none →
      l'.links.Ring (l.listAfter lru a) := by
    intro hstep hnone
    rw [hstep] at ht
    obtain ⟨s, -, rfl⟩ := Outcome.map_eq_next ht
    rw [listAfter, hnone]
    exact h
  cases a with
  | bread p id =>
      simp only [step] at ht
      split_ifs at ht
      rw [bget_links ht]
      exact h
  | release p =>
      simp only [step] at ht
      split at ht
      next i hi =>
        cases ht
        have hrelease : l.finalRelease (.release p) =
            if (l.buf i).refcnt - 1 = 0 then some i else none := by
          simp only [finalRelease, hi]
        simp only [listAfter, hrelease, setCall, release]
        split
        · exact h.moveFront hnodup (hmem i)
        · exact h
      · cases ht
  | acquiresleep p => exact hother rfl rfl
  | load p => exact hother rfl rfl
  | modify p i data => exact hother rfl rfl
  | pin p i => exact hother rfl rfl
  | bwrite p i => exact hother rfl rfl
  | brelse p i => exact hother rfl rfl

end Refinement

end Linked

end ZtlOs.Cache
