import ZtlOs.Kernel.Keeping
import ZtlOs.Kernel.WriteCost

/-!
# Open files

A struct file keeps its inode referenced.  What every call does to the nodes
that are open before it and after it, and what happens to a node when the last
reference to it goes.
-/

namespace ZtlOs.Kernel

open ZtlOs.Support ZtlOs.Support.Program ZtlOs.Fs

variable {P : Type} {s t u : State P} {k k' k₂ k₃ : Ctx P} {ip dp c : Slot}
variable {f : FileSlot} {i j : ℕ} {n n' m : Node}

/-! ## Writing through a file -/

/-- The file with another offset. -/
def Ctx.seek (k : Ctx P) (f : FileSlot) (off : ℕ) : Ctx P :=
  k.setFile f { k.ftable f with off := off }

@[simp] theorem Ctx.seek_ftable (k : Ctx P) (f : FileSlot) (off : ℕ) :
    (k.seek f off).ftable f = { k.ftable f with off := off } :=
  Ctx.setFile_ftable_self k f _

theorem Ctx.seek_self (k : Ctx P) (f : FileSlot) :
    k.seek f (k.ftable f).off = k := by
  rw [Ctx.seek, Ctx.setFile]
  simp only [Function.update_eq_self]

theorem Ctx.seek_seek (k : Ctx P) (f : FileSlot) (off off' : ℕ) :
    (k.seek f off).seek f off' = k.seek f off' := by
  simp only [Ctx.seek, Ctx.setFile, Function.update_self, Function.update_idem]

theorem advance_still (r : ℕ) (h : World s k) :
    Sat (advance f r) s (fun _ t =>
      Still k (k.seek f (((k.ftable f).off + r) % 2 ^ 32)) s t)
      fun _ => True :=
  h.moves (Keeps.modify fun _ => rfl) (advance_moves f r)

theorem Changed.still (h : Changed k k₂ i n' s t) (h' : Still k k' t u) :
    Changed k k' i n' s u :=
  ⟨h'.world, h.frame.trans h'.frame, h'.node.trans h.node⟩

theorem Changed.trans (h : Changed k k₂ i n s t) (h' : Changed k k' i n' t u) :
    Changed k k' i n' s u where
  world := h'.world
  frame := h.frame.trans h'.frame
  node := by rw [h'.node, h.node, Function.update_idem]

theorem Loaded.unchanged (h : Loaded s k ip i n) : Changed k k i n s s where
  world := h.world
  frame := .refl
  node := by rw [← h.node, Function.update_eq_self]

/-- A file has been written through, from its offset on, which has moved behind
the last byte. -/
def WroteFile (k : Ctx P) (f : FileSlot) (i : ℕ) (n : Node) (addr : Bytes)
    (whole : Bool) (s t : State P) : Prop :=
  ∃ l ≤ addr.length, (whole = true → l = addr.length) ∧
    Changed k (k.seek f ((k.ftable f).off + l)) i
      (n.written (k.ftable f).off (addr.take l)) s t

theorem Loaded.wrote_nothing {addr : Bytes} {whole : Bool}
    (h : Loaded s k ip i n) (hs : Still k k s t)
    (hwhole : whole = true → addr.length = 0) : WroteFile k f i n addr whole s t := by
  refine ⟨0, Nat.zero_le _, fun hw => (hwhole hw).symm, ?_⟩
  rw [List.take_zero, Node.written, splice_nil, Nat.add_zero, Ctx.seek_self]
  exact h.unchanged.still hs

/-- One more round. -/
theorem WroteFile.step {addr : Bytes} {whole : Bool} {l : ℕ}
    (hc : Changed k (k.seek f ((k.ftable f).off + l)) i
      (n.written (k.ftable f).off (addr.take l)) s t)
    (hl : l ≤ addr.length) (hoff : (k.ftable f).off ≤ n.data.length)
    (hw : WroteFile (k.seek f ((k.ftable f).off + l)) f i
      (n.written (k.ftable f).off (addr.take l)) (addr.drop l) whole t u) :
    WroteFile k f i n addr whole s u := by
  obtain ⟨l', hl', hwhole, hc'⟩ := hw
  rw [List.length_drop] at hl' hwhole
  have hself : ((k.seek f ((k.ftable f).off + l)).ftable f).off =
      (k.ftable f).off + l := by
    rw [Ctx.seek_ftable]
  have hlen : (addr.take l).length = l := by
    rw [List.length_take]
    omega
  have hboth : splice (splice n.data (k.ftable f).off (addr.take l))
      ((k.ftable f).off + (addr.take l).length) _ = _ :=
    splice_append hoff ((addr.drop l).take l')
  rw [hlen, ← List.take_add] at hboth
  refine ⟨l + l', by omega, fun h => ?_, ?_⟩
  · have := hwhole h
    omega
  · rw [hself, Ctx.seek_seek, Nat.add_assoc] at hc'
    have hnode : (n.written (k.ftable f).off (addr.take l)).written
        ((k.ftable f).off + l) ((addr.drop l).take l') =
        n.written (k.ftable f).off (addr.take (l + l')) := by
      rw [Node.written, Node.written, Node.written, hboth]
    rw [hnode] at hc'
    exact hc.trans (hc'.mono fun _ hc => hc)

/-- Between `s` and `t` there has been one transaction, which has written `l`
bytes to inode `i` at offset `off`. -/
def WroteOp (i : ℕ) (n : Node) (off l : ℕ) (s t : State P) : Prop :=
  ∃ B, t.brackets = B :: s.brackets ∧ (s.sb.size ≤ BPB → B.card =
    if Refused n.data.length off l then 0
    else writeCost (s.lists i) n.data.length off l)

/-- One round of `filewrite`. -/
theorem filewriteRound_bind {α : Type} {Q : α → State P → Prop}
    {g : Option ℕ → M P α} (hk : k.toMon = .idle) (hdir : n.type ≠ T_DIR)
    (hdev : n.type ≠ T_DEV) (src : Bytes)
    (h : Loaded s k (k.ftable f).ip i n)
    (hout : Refused n.data.length (k.ftable f).off src.length →
      ∀ t, Still k k s t → WroteOp i n (k.ftable f).off src.length s t →
        Sat (g none) t Q fun _ => True)
    (hin : ¬Refused n.data.length (k.ftable f).off src.length →
      ∀ t, Changed k (k.seek f ((k.ftable f).off + src.length)) i
          (n.written (k.ftable f).off src) s t →
        WroteOp i n (k.ftable f).off src.length s t →
          Sat (g (some src.length)) t Q fun _ => True) :
    Sat (do
      beginOp
      let s ← get
      ilock (s.ftable f).ip
      let r ← writei (s.ftable f).ip src (s.ftable f).off
      (match r with
        | none => pure ()
        | some r => advance f r)
      iunlock (s.ftable f).ip
      endOp
      g r) s Q fun _ => True := by
  have hbegin : Sat beginOp s (fun _ t => t.logging = (∅, s.brackets))
      fun _ => True := Sat.modify rfl
  refine ((beginOp_still h.world hk).both hbegin).andThen ?_
  rintro _ s₁ ⟨h₁, hlog₁⟩
  refine .bind (Sat.get ?_)
  have hftable : s₁.ftable = k.ftable := h₁.world.holds.ftable
  rw [hftable]
  refine ((ilock_logging _).also (ilock_still h₁.world h.mem)).andThen ?_
  rintro _ s₂ ⟨hlog₂, h₂, -⟩
  rw [hlog₁, State.logging, Prod.mk_inj] at hlog₂
  have hboth : Still k (k.inOp.lock (k.ftable f).ip) s s₂ :=
    h₁.trans (h₂.mono fun _ hc => hc)
  have hlocked := h.still hboth h.mem h.mem
  have hsize : (s₂.inode i).size.toNat = n.data.length := by
    rw [hlocked.data_eq, State.length_bytes]
  have hcost : s.sb.size ≤ BPB → Sat (writei (k.ftable f).ip src
      (k.ftable f).off) s₂ (fun _ t => t.logs.card =
        if Refused n.data.length (k.ftable f).off src.length then 0
        else writeCost (s.lists i) n.data.length (k.ftable f).off src.length)
      fun _ => True := by
    intro hbpb
    rw [← hboth.lists, ← hsize]
    refine writei_logs hlocked.ready ?_ (hboth.frame.sb ▸ hbpb) hlog₂.1
    rw [← hlocked.synced.1, hlocked.type_eq]
    exact hdev
  refine (((writei_brackets _ src _).also
    (writei_changed (k := k.inOp) _ src hlocked rfl hdev
      fun hisdir => absurd hisdir hdir)).both
        (Sat.of_imp hcost)).andThen ?_
  rintro r s₃ ⟨⟨hold₃, h₃⟩, hcard⟩
  have hend : ∀ u : State P, Sat endOp u (fun _ v =>
      v.brackets = u.logs :: u.brackets) fun _ => True :=
    fun u => Sat.modify rfl
  have hop : ∀ {u v : State P}, u.logging = s₃.logging →
      v.brackets = u.logs :: u.brackets →
        WroteOp i n (k.ftable f).off src.length s v := by
    intro u v hlog hv
    obtain ⟨hlogs, hold⟩ := State.logging_eq.mp hlog
    refine ⟨u.logs, ?_, fun hbpb => ?_⟩
    · rw [hv, hold, hold₃, hlog₂.2]
    · rw [hlogs]
      exact hcard hbpb
  by_cases hacc : Refused n.data.length (k.ftable f).off src.length
  · rw [if_pos hacc] at h₃
    obtain ⟨rfl, rfl⟩ := h₃
    refine .bind (Sat.pure ?_)
    refine ((iunlock_logging _).also (iunlock_still (k := k.inOp)
      h₂.world)).andThen ?_
    rintro _ s₄ ⟨hlog₄, h₄⟩
    refine ((endOp_still h₄.world hk).both (hend s₄)).andThen ?_
    rintro _ s₅ ⟨h₅, hlog₅⟩
    have hafter : Still k k s₃ s₅ :=
      Still.trans (h₄.mono fun _ hc => hc) (h₅.mono fun _ hc => hc)
    exact hout hacc s₅ (hboth.trans hafter) (hop hlog₄ hlog₅)
  rw [if_neg hacc] at h₃
  obtain ⟨rfl, h₃⟩ := h₃
  have hmod : ((k.ftable f).off + src.length) % 2 ^ 32 =
      (k.ftable f).off + src.length := by
    rw [Refused] at hacc
    omega
  refine ((advance_logging f _).also (advance_still _ h₃.world)).andThen ?_
  rintro _ s₄ ⟨hlog₄, h₄⟩
  change Still (k.inOp.lock (k.ftable f).ip)
    (((k.seek f (((k.ftable f).off + src.length) % 2 ^ 32)).inOp).lock
      (k.ftable f).ip) s₃ s₄ at h₄
  rw [hmod] at h₄
  refine ((iunlock_logging _).also (iunlock_still h₄.world)).andThen ?_
  rintro _ s₅ ⟨hlog₅, h₅⟩
  refine ((endOp_still h₅.world hk).both (hend s₅)).andThen ?_
  rintro _ s₆ ⟨h₆, hlog₆⟩
  refine hin hacc s₆ ?_ (hop (hlog₅.trans hlog₄) hlog₆)
  have hwrite := hboth.changed (h₃.mono fun _ hc => hc)
  have hafter := h₄.trans (h₅.mono fun _ hc => hc)
  exact (hwrite.still (hafter.mono fun _ hc => hc)).still
    (h₆.mono fun _ hc => hc)

theorem filewriteLoop_wrote (hk : k.toMon = .idle) (hdir : n.type ≠ T_DIR)
    (hdev : n.type ≠ T_DEV) (fuel : ℕ) (addr : Bytes)
    (h : Loaded s k (k.ftable f).ip i n) (hfuel : addr.length ≤ fuel) :
    Sat (filewriteLoop f fuel addr) s
      (fun r t => WroteFile k f i n addr r s t) fun _ => True := by
  induction fuel generalizing k n s addr with
  | zero =>
      refine Sat.pure (h.wrote_nothing (.refl h.world) fun _ => ?_)
      omega
  | succ fuel ih =>
      apply Sat.ite
      · intro hempty
        exact Sat.pure (h.wrote_nothing (.refl h.world) fun _ => hempty)
      intro hne
      have hlen : (addr.take (min addr.length maxWrite)).length =
          min addr.length maxWrite := by
        rw [List.length_take]
        omega
      have hle := Nat.min_le_left addr.length maxWrite
      have hpos : 0 < min addr.length maxWrite :=
        lt_min (Nat.pos_of_ne_zero hne) (by decide)
      refine filewriteRound_bind hk hdir hdev _ h ?_ ?_
      · intro _ t ht _
        exact Sat.pure (h.wrote_nothing ht Bool.noConfusion)
      rw [hlen]
      generalize min addr.length maxWrite = l at *
      intro hacc t hdone _
      simp only [ne_eq, not_true_eq_false, if_false]
      have hslot : ((k.seek f ((k.ftable f).off + l)).ftable f).ip =
          (k.ftable f).ip := by
        rw [Ctx.seek_ftable]
      have hloaded := h.changed hdone h.mem h.mem
      rw [← hslot] at hloaded
      have hoff : (k.ftable f).off ≤ n.data.length := by
        rw [Refused] at hacc
        omega
      refine (ih (k := k.seek f ((k.ftable f).off + l))
        (n := n.written (k.ftable f).off (addr.take l)) hk hdir hdev
        (addr.drop l) hloaded ?_).imp fun r t ht => ?_
      · rw [List.length_drop]
        omega
      · exact WroteFile.step hdone hle hoff ht

theorem writei_device_still (off : ℕ) (src : Bytes)
    (h : Loaded s (k.lock ip) ip i n) (hdev : n.type = T_DEV) :
    Sat (writei ip src off) s (fun _ t => Still (k.lock ip) (k.lock ip) s t)
      fun _ => True := by
  apply getDin_bind
  rw [h.type_eq, if_pos hdev]
  apply Sat.ite
  · intro _
    exact (consolewrite_still src h.world h.mem).imp fun _ _ ht => ht.2
  · intro _
    exact Sat.pure (.refl h.world)

/-- Writing to a device moves the offset of the file only. -/
theorem filewriteLoop_still (hk : k.toMon = .idle) (hdev : n.type = T_DEV)
    (fuel : ℕ) (addr : Bytes) (h : Loaded s k (k.ftable f).ip i n) :
    Sat (filewriteLoop f fuel addr) s
      (fun _ t => ∃ off, Still k (k.seek f off) s t) fun _ => True := by
  induction fuel generalizing k s addr with
  | zero =>
      refine Sat.pure ⟨(k.ftable f).off, ?_⟩
      rw [Ctx.seek_self]
      exact .refl h.world
  | succ fuel ih =>
      apply Sat.ite
      · intro _
        refine Sat.pure ⟨(k.ftable f).off, ?_⟩
        rw [Ctx.seek_self]
        exact .refl h.world
      intro _
      refine (beginOp_still h.world hk).andThen fun _ s₁ h₁ => ?_
      refine .bind (Sat.get ?_)
      have hftable : s₁.ftable = k.ftable := h₁.world.holds.ftable
      rw [hftable]
      refine (ilock_still h₁.world h.mem).andThen ?_
      rintro _ s₂ ⟨h₂, -⟩
      have hboth : Still k (k.inOp.lock (k.ftable f).ip) s s₂ :=
        h₁.trans (h₂.mono fun _ hc => hc)
      have hlocked := h.still hboth h.mem h.mem
      refine (writei_device_still (k := k.inOp) _ _ hlocked hdev).andThen ?_
      intro r s₃ h₃
      apply Sat.andThen (Q := fun _ t => ∃ off,
        Still (k.inOp.lock (k.ftable f).ip)
          (((k.seek f off).inOp).lock (k.ftable f).ip) s₃ t)
      · cases r with
        | none =>
            refine Sat.pure ⟨(k.ftable f).off, ?_⟩
            rw [Ctx.seek_self]
            exact .refl h₃.world
        | some r =>
            exact (advance_still r h₃.world).imp fun _ _ ht => ⟨_, ht⟩
      rintro _ s₄ ⟨off, h₄⟩
      refine (iunlock_still h₄.world).andThen fun _ s₅ h₅ => ?_
      refine (endOp_still h₅.world hk).andThen fun _ s₆ h₆ => ?_
      have hdone : Still k (k.seek f off) s s₆ := by
        have hfirst := hboth.trans (h₃.mono fun _ hc => hc)
        have hafter := h₄.trans (h₅.mono fun _ hc => hc)
        exact (hfirst.trans (hafter.mono fun _ hc => hc)).trans
          (h₆.mono fun _ hc => hc)
      split
      · exact Sat.pure ⟨off, hdone⟩
      apply Sat.ite
      · intro _
        exact Sat.throw trivial
      intro _
      have hloaded := h.still hdone h.mem h.mem
      have hslot : ((k.seek f off).ftable f).ip = (k.ftable f).ip := by
        rw [Ctx.seek_ftable]
      rw [← hslot] at hloaded
      refine (ih (k := k.seek f off) hk (addr.drop _) hloaded).imp ?_
      rintro _ t ⟨off', ht⟩
      rw [Ctx.seek_seek] at ht
      exact ⟨off', hdone.trans (ht.mono fun _ hc => hc)⟩

/-! ## Reading through a file -/

/-- `readi` of a locked inode. -/
theorem readi_fetched (off l : ℕ) (h : Loaded s (k.lock ip) ip i n) :
    Sat (readi ip off l) s (fun r t =>
      Still (k.lock ip) (k.lock ip) s t ∧
        (n.type ≠ T_DEV → r = n.fetched off l)) fun _ => True := by
  by_cases hdev : n.type = T_DEV
  · exact (readi_any_still off l h).imp fun _ _ ht =>
      ⟨ht, fun hne => absurd hdev hne⟩
  · exact (readi_still off l h hdev).imp fun _ _ ht => ⟨ht.2, fun _ => ht.1⟩

/-- What a file returns. -/
def Returned (k : Ctx P) (f : FileSlot) (l : ℕ) (s : State P)
    (r : Option Bytes) : Prop :=
  (k.ftable f).readable = true → (k.ftable f).type = .inode →
    ∀ n, s.node (s.icache (k.ftable f).ip).inum = some n → n.type ≠ T_DEV →
      r = n.fetched (k.ftable f).off l

/-- Reading from a file moves its offset only. -/
theorem fileread_still (l : ℕ) (h : World s k)
    (hmem : (k.ftable f).type = .inode → (k.ftable f).ip ∈ k.refs) :
    Sat (fileread f l) s (fun r t => Returned k f l s r ∧
      ∃ off, Still k (k.seek f off) s t) fun _ => True := by
  have hsame : ∀ {t}, Still k k s t → ∃ off, Still k (k.seek f off) s t := by
    intro t ht
    refine ⟨(k.ftable f).off, ?_⟩
    rwa [Ctx.seek_self]
  refine .bind (Sat.get ?_)
  rw [h.holds.ftable]
  apply Sat.ite
  · intro hclosed
    refine Sat.pure ⟨fun hopen => ?_, hsame (.refl h)⟩
    rw [hclosed] at hopen
    cases hopen
  intro _
  split
  · next hpipe =>
      refine (receive_still h).andThen fun r t ht => ?_
      refine Sat.pure ⟨fun _ hinode => ?_, hsame ht⟩
      rw [hpipe] at hinode
      cases hinode
  · next hinode =>
      have hip := hmem hinode
      refine (ilock_still h hip).andThen ?_
      rintro _ s₁ ⟨h₁, hvalid⟩
      obtain ⟨n, hn⟩ := h₁.world.loaded (k := k.lock _) hip hvalid
      refine (readi_fetched _ l hn).andThen ?_
      rintro r s₂ ⟨h₂, hr⟩
      apply Sat.andThen (Q := fun _ t => ∃ off,
        Still (k.lock (k.ftable f).ip)
          ((k.seek f off).lock (k.ftable f).ip) s₂ t)
      · cases r with
        | none =>
            refine Sat.pure ⟨(k.ftable f).off, ?_⟩
            rw [Ctx.seek_self]
            exact .refl h₂.world
        | some bytes =>
            exact (advance_still _ h₂.world).imp fun _ _ ht => ⟨_, ht⟩
      rintro _ s₃ ⟨off, h₃⟩
      refine (iunlock_still h₃.world).andThen fun _ s₄ h₄ => ?_
      refine Sat.pure ⟨fun _ _ m hm hdev => ?_, off, ?_⟩
      · rw [← h₁.node, ← h₁.frame.inum _ hip, hn.node] at hm
        obtain rfl := Option.some.inj hm
        exact hr hdev
      · have hafter := h₃.trans (h₄.mono fun _ hc => hc)
        exact (h₁.trans (h₂.mono fun _ hc => hc)).trans
          (hafter.mono fun _ hc => hc)
  · exact Sat.throw trivial

/-- Asking for the metadata of a file changes nothing. -/
theorem filestat_still (h : World s k)
    (hmem : (k.ftable f).type = .inode → (k.ftable f).ip ∈ k.refs) :
    Sat (filestat f) s (fun _ t => Still k k s t) fun _ => True := by
  refine .bind (Sat.get ?_)
  rw [h.holds.ftable]
  apply Sat.ite
  · intro hinode
    refine (ilock_still h (hmem hinode)).andThen ?_
    rintro _ s₁ ⟨h₁, -⟩
    refine .bind (.bind (Sat.get (Sat.pure ?_)))
    refine (iunlock_still h₁.world).andThen fun _ s₂ h₂ => ?_
    exact Sat.pure (h₁.trans (h₂.mono fun _ hc => hc))
  · intro _
    exact Sat.pure (.refl h)

end ZtlOs.Kernel
