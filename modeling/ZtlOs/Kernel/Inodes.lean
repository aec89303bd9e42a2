import ZtlOs.Kernel.Intact

/-!
# What the inode functions do to the nodes

A valid copy of an inode that the call refers to stands for a node, and stays
one while the call refers to it.  Changing the copy and storing it changes this
node only; putting the last reference to a node without links frees it.
-/

namespace ZtlOs.Kernel

open ZtlOs.Support ZtlOs.Support.Program ZtlOs.Support.Sequence ZtlOs.Fs

variable {P : Type} {s t u : State P} {k k' k₂ : Ctx P} {ip jp : Slot}
variable {i j : ℕ} {n n' m : Node}

/-! ## Copies of inodes -/

/-- The call refers to slot `ip`, a valid copy of inode `i`, whose node is
`n`. -/
structure Loaded (s : State P) (k : Ctx P) (ip : Slot) (i : ℕ) (n : Node) :
    Prop where
  world : World s k
  mem : ip ∈ k.refs
  inum : (s.icache ip).inum = i
  valid : (s.icache ip).valid = true
  node : s.node i = some n

/-- The part of a call ends with `k'`, and the node of inode `i` is now `n'`;
the other nodes are as they were. -/
structure Changed (k k' : Ctx P) (i : ℕ) (n' : Node) (s t : State P) :
    Prop where
  world : World t k'
  frame : Frame k s t
  node : t.node = Function.update s.node i (some n')

theorem Changed.mono (h : Changed k k₂ i n' s t)
    (hk : ∀ c ∈ k'.refs, c ∈ k.refs) : Changed k' k₂ i n' s t :=
  ⟨h.world, h.frame.mono hk, h.node⟩

namespace Loaded

theorem eq (h : Loaded s k ip i n) : n = ⟨(s.icache ip).din.type,
    (s.icache ip).din.major, (s.icache ip).din.minor, (s.icache ip).din.nlink,
    s.bytes i⟩ := by
  have hnode := h.world.intact.node_valid (h.world.ref_pos h.mem) h.valid
  rw [h.inum, h.node] at hnode
  exact Option.some.inj hnode

theorem type_eq (h : Loaded s k ip i n) : (s.icache ip).din.type = n.type := by
  rw [h.eq]

theorem nlink_eq (h : Loaded s k ip i n) :
    (s.icache ip).din.nlink = n.nlink := by
  rw [h.eq]

theorem data_eq (h : Loaded s k ip i n) : n.data = s.bytes i := by
  rw [h.eq]

theorem synced (h : Loaded s k ip i n) :
    (s.icache ip).din = s.inode i ∧ (s.icache ip).din.type ≠ 0 := by
  rw [← h.inum]
  exact h.world.intact.synced ip (h.world.ref_pos h.mem) h.valid

theorem size_eq (h : Loaded s k ip i n) :
    (s.icache ip).din.size.toNat = n.data.length := by
  rw [h.data_eq, State.length_bytes, h.synced.1]

theorem lt (h : Loaded s k ip i n) : i < s.sb.ninodes :=
  (of_node_eq_some h.node).1

theorem ready (h : Loaded s k ip i n) : Ready s.inode i ip s := by
  rw [← h.inum]
  exact h.world.intact.ready (h.world.ref_pos h.mem) h.valid h.world.bufs

theorem calm (h : Loaded s k ip i n) (hc : Calm k' k₂ s t)
    (hk' : ip ∈ k'.refs) (hk₂ : ip ∈ k₂.refs) : Loaded t k₂ ip i n where
  world := hc.world
  mem := hk₂
  inum := (hc.frame.inum ip hk').trans h.inum
  valid := hc.frame.valid ip hk' h.valid
  node := by
    rcases hc.frees i with heq | ⟨-, -, -, -, href⟩
    · rw [heq]
      exact h.node
    · exact absurd h.inum (href ip hk')

theorem still (h : Loaded s k ip i n) (hs : Still k' k₂ s t)
    (hk' : ip ∈ k'.refs) (hk₂ : ip ∈ k₂.refs) : Loaded t k₂ ip i n :=
  h.calm hs.calm hk' hk₂

theorem changed (h : Loaded s k ip i n) (hc : Changed k' k₂ i n' s t)
    (hk' : ip ∈ k'.refs) (hk₂ : ip ∈ k₂.refs) : Loaded t k₂ ip i n' where
  world := hc.world
  mem := hk₂
  inum := (hc.frame.inum ip hk').trans h.inum
  valid := hc.frame.valid ip hk' h.valid
  node := by rw [hc.node, Function.update_self]

theorem changed_of_ne (h : Loaded s k ip i n) (hc : Changed k' k₂ j n' s t)
    (hij : i ≠ j) (hk' : ip ∈ k'.refs) (hk₂ : ip ∈ k₂.refs) :
    Loaded t k₂ ip i n where
  world := hc.world
  mem := hk₂
  inum := (hc.frame.inum ip hk').trans h.inum
  valid := hc.frame.valid ip hk' h.valid
  node := by
    rw [hc.node, Function.update_of_ne hij]
    exact h.node

/-- The caller holds another set of references. -/
theorem of_world (h : Loaded s k ip i n) (hw : World s k')
    (hk' : ip ∈ k'.refs) : Loaded s k' ip i n :=
  ⟨hw, hk', h.inum, h.valid, h.node⟩

end Loaded

theorem World.loaded (h : World s k) (hip : ip ∈ k.refs)
    (hvalid : (s.icache ip).valid = true) :
    ∃ n, Loaded s k ip (s.icache ip).inum n :=
  ⟨_, h, hip, rfl, hvalid, h.intact.node_valid (h.ref_pos hip) hvalid⟩

/-! ## Storing an inode -/

/-- Blocks and bitmap do not care about the other fields. -/
theorem Sound.congr_table {sb : Superblock} {disk : ℕ → Block} {V V' : Table}
    (h : Owned sb disk V) (heq : ∀ j < sb.ninodes, (V' j).type = (V j).type ∧
      (V' j).size = (V j).size ∧ (V' j).addrs = (V j).addrs) :
    Owned sb disk V' := by
  apply h.congr
  · funext j k
    rw [listing, listing, slots, slots, live, live]
    by_cases hj : j < sb.ninodes
    · obtain ⟨htype, -, haddrs⟩ := heq j hj
      rw [htype]
      split
      · exact Dinode.slot_addrs haddrs
      · rfl
    · rw [if_neg fun hc => hj hc.1, if_neg fun hc => hj hc.1]
  · rfl
  · exact fun _ _ => rfl
  · intro j hj _ _
    obtain ⟨htype, hsize, -⟩ := heq j hj
    exact ⟨htype.symm, by rw [hsize]⟩

/-- The blocks of an inode whose addresses are the same. -/
theorem lists_congr_addrs (h : Owned s.sb s.disk s.inode) (hsb : t.sb = s.sb)
    (hdata : ∀ w, w = 0 ∨ nmeta s.sb ≤ w → t.disk w = s.disk w)
    (htype : (t.inode j).type = (s.inode j).type)
    (haddrs : (t.inode j).addrs = (s.inode j).addrs) (b : ℕ) :
    t.lists j b = s.lists j b := by
  have hind : t.disk (listing s.sb s.disk s.inode j NDIRECT) =
      s.disk (listing s.sb s.disk s.inode j NDIRECT) := by
    apply hdata
    by_cases hne : listing s.sb s.disk s.inode j NDIRECT = 0
    · exact .inl hne
    · exact .inr (h.nmeta_le (by decide) hne)
  rw [listing, slots] at hind
  have hslot : (live s.sb s.inode j).slot t.disk b =
      (live s.sb s.inode j).slot s.disk b := Dinode.slot_congr fun _ => hind
  rw [State.lists, State.lists, hsb, listing, listing, slots, slots, ← hslot]
  apply Dinode.slot_addrs
  rw [live, live, htype]
  split
  · exact haddrs
  · rfl

/-- An inode that is not allocated lists no blocks. -/
theorem lists_of_node_none (h : s.node j = none) (b : ℕ) :
    s.lists j b = 0 := by
  rw [State.lists, listing, slots, live_of_free (node_eq_none.mp h)]
  exact Dinode.slot_zero

/-- The bytes of an inode whose blocks are the same. -/
theorem bytes_congr (h : Owned s.sb s.disk s.inode) (hsb : t.sb = s.sb)
    (hdata : ∀ w, w = 0 ∨ nmeta s.sb ≤ w → t.disk w = s.disk w)
    (htype : (t.inode j).type = (s.inode j).type)
    (hsize : (t.inode j).size = (s.inode j).size)
    (haddrs : (t.inode j).addrs = (s.inode j).addrs) :
    t.bytes j = s.bytes j := by
  have hblock : ∀ {k}, k < NSLOT →
      t.disk (listing s.sb s.disk s.inode j k) =
        s.disk (listing s.sb s.disk s.inode j k) := by
    intro k hk
    apply hdata
    by_cases hne : listing s.sb s.disk s.inode j k = 0
    · exact .inl hne
    · exact .inr (h.nmeta_le hk hne)
  have hlist : ∀ b, listing t.sb t.disk t.inode j b =
      listing s.sb s.disk s.inode j b :=
    lists_congr_addrs h hsb hdata htype haddrs
  rw [State.bytes, State.bytes, hsize]
  apply slice_congr
  intro b _ hb
  rw [contentByte_eq, contentByte_eq, hlist]
  by_cases hbn : b / BSIZE < MAXFILE
  · rw [hblock (dataSlot_lt hbn)]
  · rw [listing_beyond (by omega), hdata 0 (.inl rfl)]

/-- The inode of slot `ip` changes in the cache and on disk. -/
theorem Intact.replace {v : Inode} (h : Intact s) (href : 0 < (s.icache ip).ref)
    (hinum : (s.icache ip).inum = i) (hsb : t.sb = s.sb)
    (hcache : t.icache = Function.update s.icache ip v)
    (hv : v.inum = i)
    (hvalid : 0 < v.ref → v.valid = true →
      v.din = t.inode i ∧ v.din.type ≠ 0)
    (howned : Owned s.sb t.disk t.inode)
    (hothers : ∀ j < s.sb.ninodes, j ≠ i → t.inode j = s.inode j)
    (hentries : ∀ j m, t.node j = some m → m.type = T_DIR →
      ∀ de ∈ dirents m.data, de.inum.toNat < s.sb.ninodes) : Intact t := by
  have hself : t.icache ip = v := by
    rw [hcache, Function.update_self]
  have hne : ∀ c ≠ ip, t.icache c = s.icache c := by
    intro c hc
    rw [hcache, Function.update_of_ne hc]
  have hsame : ∀ c, 0 < (t.icache c).ref → 0 < (s.icache c).ref ∧
      (t.icache c).inum = (s.icache c).inum := by
    intro c hc
    by_cases hcip : c = ip
    · subst hcip
      exact ⟨href, by rw [hself, hv, hinum]⟩
    · rw [hne c hcip] at hc ⊢
      exact ⟨hc, rfl⟩
  constructor
  · rw [hsb]
    exact howned
  · intro c c' hc hc' heq
    have h₁ := hsame c hc
    have h₂ := hsame c' hc'
    rw [h₁.2, h₂.2] at heq
    exact h.distinct c c' h₁.1 h₂.1 heq
  · intro c hc
    have h₁ := hsame c hc
    rw [h₁.2, hsb]
    exact h.inums c h₁.1
  · intro c hc hval
    by_cases hcip : c = ip
    · subst hcip
      rw [hself] at hc hval ⊢
      rw [hv]
      exact hvalid hc hval
    · rw [hne c hcip] at hc hval ⊢
      have hother : (s.icache c).inum ≠ i := by
        intro heq
        exact hcip (h.distinct c ip hc href (heq.trans hinum.symm))
      rw [hothers _ (h.inums c hc) hother]
      exact h.synced c hc hval
  · rw [hsb]
    exact hentries

/-- What a call refers to is the same after slot `ip` has changed. -/
theorem Frame.replace {v : Inode} (hsb : t.sb = s.sb)
    (hcache : t.icache = Function.update s.icache ip v)
    (hinum : v.inum = (s.icache ip).inum)
    (hvalid : (s.icache ip).valid = true → v.valid = true)
    (hlists : ∀ i j, s.lists i j ≠ 0 → t.lists i j = s.lists i j) :
    Frame k s t := by
  refine ⟨hsb, fun c _ => ?_, fun c _ hc => ?_, fun c _ => hlists _⟩
  · by_cases hcip : c = ip
    · rw [hcache, hcip, Function.update_self, hinum]
    · rw [hcache, Function.update_of_ne hcip]
  · by_cases hcip : c = ip
    · rw [hcip] at hc
      rw [hcache, hcip, Function.update_self]
      exact hvalid hc
    · rwa [hcache, Function.update_of_ne hcip]

/-- A change of the fields of an inode other than its type and its size. -/
theorem Loaded.store {d : Dinode} {tr : List Event} (h : Loaded s k ip i n)
    (hholds : Holds t k') (ht : t = { s.setDin ip d with
      disk := storeDisk s.sb s.disk i d, trace := tr })
    (htype : d.type = (s.icache ip).din.type)
    (hsize : d.size = (s.icache ip).din.size)
    (haddrs : d.addrs = (s.icache ip).din.addrs) :
    Changed k k' i ⟨n.type, d.major, d.minor, d.nlink, n.data⟩ s t := by
  have howned := h.world.intact.owned
  have hi := h.lt
  obtain ⟨hdin, hne⟩ := h.synced
  rw [hdin] at htype hsize haddrs hne
  have hsb : t.sb = s.sb := by rw [ht]; rfl
  have hinode : ∀ j, t.inode j = if j = i then d else s.inode j := by
    intro j
    rw [ht]
    exact inodeOf_storeDisk j d
  have hfields : ∀ j, (t.inode j).type = (s.inode j).type ∧
      (t.inode j).size = (s.inode j).size ∧
      (t.inode j).addrs = (s.inode j).addrs := by
    intro j
    rw [hinode]
    split
    · next hji =>
        rw [hji]
        exact ⟨htype, hsize, haddrs⟩
    · exact ⟨rfl, rfl, rfl⟩
  have hdata : ∀ w, w = 0 ∨ nmeta s.sb ≤ w → t.disk w = s.disk w := by
    intro w hw
    have h₁ := howned.layout.one_lt_iblock (i := i)
    have h₂ := howned.layout.iblock_lt_nmeta hi
    rw [ht]
    exact storeDisk_of_ne (by omega) d
  have hbytes : ∀ j, t.bytes j = s.bytes j := by
    intro j
    obtain ⟨h₁, h₂, h₃⟩ := hfields j
    exact bytes_congr howned hsb hdata h₁ h₂ h₃
  have hnode : t.node = Function.update s.node i
      (some ⟨n.type, d.major, d.minor, d.nlink, n.data⟩) := by
    funext j
    by_cases hji : j = i
    · subst hji
      rw [Function.update_self, node_eq_some (hsb ▸ hi) (by
        rw [(hfields j).1]
        exact hne), hbytes, ← h.data_eq, ← h.type_eq, hdin, ← htype,
        hinode, if_pos rfl]
    · rw [Function.update_of_ne hji, State.node, State.node, hsb, hbytes,
        hinode, if_neg hji]
  refine ⟨⟨hholds, ?_, ?_⟩, ?_, hnode⟩
  · have hstored : Owned s.sb t.disk s.inode := by
      rw [ht]
      exact howned.store hi d
    refine h.world.intact.replace (v := { s.icache ip with din := d })
      (h.world.ref_pos h.mem) h.inum hsb (by rw [ht]; rfl) h.inum
      (fun _ _ => ⟨by rw [hinode, if_pos rfl], ?_⟩)
      (hstored.congr_table fun j _ => hfields j)
      (fun j _ hji => by rw [hinode, if_neg hji]) ?_
    · change d.type ≠ 0
      rw [htype]
      exact hne
    · intro j m hm hdir
      rw [hnode] at hm
      by_cases hji : j = i
      · subst hji
        rw [Function.update_self] at hm
        obtain rfl := Option.some.inj hm
        exact h.world.intact.entries j n h.node hdir
      · rw [Function.update_of_ne hji] at hm
        exact h.world.intact.entries j m hm hdir
  · rw [ht]
    exact h.world.bufs
  · refine .replace hsb (v := { s.icache ip with din := d }) (by rw [ht]; rfl)
      rfl id fun j b _ => ?_
    exact lists_congr_addrs howned hsb hdata (hfields j).1 (hfields j).2.2 b

/-- `iupdate` after a change of the copy. -/
theorem Loaded.iupdate_changed {d : Dinode} (h : Loaded s k ip i n)
    (hop : k.op = true) (htype : d.type = (s.icache ip).din.type)
    (hsize : d.size = (s.icache ip).din.size)
    (haddrs : d.addrs = (s.icache ip).din.addrs) :
    Sat (do
      setDin ip d
      iupdate ip : M P Unit) s (fun _ t => Changed k k i
        ⟨n.type, d.major, d.minor, d.nlink, n.data⟩ s t) fun _ => True := by
  have hmoves : Moves Holds k (do
      setDin ip d
      iupdate ip : M P Unit) fun _ => k := by
    apply (setDin_moves ip d).bind
    intro _
    exact iupdate_moves ip hop
  have hsat : Sat (do
      setDin ip d
      iupdate ip : M P Unit) s (fun _ t => ∃ tr,
        t = { s.setDin ip d with
          disk := storeDisk s.sb s.disk i d, trace := tr }) fun _ => True := by
    apply setDin_bind
    refine (iupdate_sat fun _ => trivial).imp ?_
    rintro - _ ⟨tr, rfl⟩
    refine ⟨tr, ?_⟩
    simp only [State.setDin, State.icache_setInode_self, h.inum]
    rfl
  refine (hmoves.also h.world.holds hsat).imp ?_
  rintro - t ⟨hholds, tr, ht⟩
  exact h.store hholds ht htype hsize haddrs

theorem updateNlink_changed (f : BitVec 16 → BitVec 16)
    (h : Loaded s k ip i n) (hop : k.op = true) :
    Sat (updateNlink ip f) s (fun _ t =>
      Changed k k i { n with nlink := f n.nlink } s t) fun _ => True := by
  apply getDin_bind
  have hsat := h.iupdate_changed (d := { (s.icache ip).din with
    nlink := f (s.icache ip).din.nlink }) hop rfl rfl rfl
  refine hsat.imp ?_
  rintro - t ht
  rw [h.eq] at ht ⊢
  exact ht

/-! ## Reading an inode -/

theorem readi_still (off m : ℕ) (h : Loaded s k ip i n) (hdev : n.type ≠ T_DEV) :
    Sat (readi ip off m) s (fun r t =>
      r = (if n.data.length < off ∨ 2 ^ 32 ≤ off + m then none
        else some ((n.data.drop off).take m)) ∧ Still k k s t)
      fun _ => True := by
  have hready := h.ready
  have hdin := h.type_eq
  have hmap : Mapped s.disk (s.icache ip).din := by
    apply hready.mapped
    rw [← hready.newest, hdin]
    exact hdev
  have hsat : Sat (readi ip off m) s _ fun _ => True :=
    readi_mapped rfl (by rw [hdin]; exact hdev) hmap fun _ => trivial
  refine hsat.imp ?_
  rintro r t ⟨rfl, ht⟩
  refine ⟨?_, h.world.traced (ht.holds h.world.holds) ht.state⟩
  rw [hready.readResult_eq, h.size_eq, h.data_eq]
  rfl

/-! ## Writing to an inode -/

/-- `writei` lays its bytes over those of the node. -/
theorem Overlaid.changed {off : ℕ} {src : Bytes} (h : Loaded s k ip i n)
    (hw : Overlaid s.inode i ip off src s t) (hholds : Holds t k')
    (hoff : off ≤ n.data.length)
    (hentries : n.type = T_DIR → ∀ de ∈ dirents (splice n.data off src),
      de.inum.toNat < s.sb.ninodes) :
    Changed k k' i { n with data := splice n.data off src } s t := by
  have howned := h.world.intact.owned
  have hi := h.lt
  have hsb : t.sb = s.sb := by rw [hw.state]; rfl
  have hcache : t.icache = Function.update s.icache ip
      { s.icache ip with din := (t.icache ip).din } :=
    congrArg State.icache hw.state
  have hself : t.inode i = (t.icache ip).din := by
    rw [State.inode, hsb]
    exact hw.stored rfl
  have hfields := hw.fields
  rw [← h.synced.1] at hfields
  have hothers : ∀ j < s.sb.ninodes, j ≠ i → t.inode j = s.inode j := by
    intro j hj hji
    rw [State.inode, hsb]
    exact hw.inodes j hj hji
  have htable : ∀ j < s.sb.ninodes,
      t.inode j = Grown.table s.inode i ip t j := by
    intro j hj
    by_cases hji : j = i
    · rw [hji, Grown.table, Function.update_self, hself]
    · rw [Grown.table, Function.update_of_ne hji]
      exact hothers j hj hji
  have hbyte : ∀ j b, contentByte t.sb t.disk t.inode j b =
      contentByte s.sb t.disk (Grown.table s.inode i ip t) j b := by
    intro j b
    rw [hsb, contentByte, contentByte, live_congr htable]
  have hlen : (s.inode i).size.toNat = n.data.length := by
    rw [h.data_eq, State.length_bytes]
  have hbytes : t.bytes i = splice n.data off src := by
    rw [State.bytes, hself, hw.size, h.data_eq, State.bytes, splice,
      ← slice_overlay_max (hlen.symm ▸ hoff)]
    apply slice_congr
    intro b _ hb
    rw [hbyte]
    exact hw.bytes b (by omega)
  have hbytes_of_ne : ∀ j ≠ i, t.inode j = s.inode j →
      t.bytes j = s.bytes j := by
    intro j hji hj
    rw [State.bytes, State.bytes, hj]
    apply slice_congr
    intro b _ _
    rw [hbyte]
    exact hw.contents j hji b
  have hnode : t.node = Function.update s.node i
      (some { n with data := splice n.data off src }) := by
    funext j
    by_cases hji : j = i
    · subst hji
      have htype : (t.inode j).type ≠ 0 := by
        rw [hself, hfields]
        exact h.synced.2
      rw [Function.update_self, node_eq_some (hsb ▸ hi) htype, hbytes, hself,
        hfields, h.eq]
    · rw [Function.update_of_ne hji, State.node, State.node, hsb]
      by_cases hj : j < s.sb.ninodes
      · have heq := hothers j hj hji
        rw [hbytes_of_ne j hji heq, heq]
      · rw [if_neg fun hc => hj hc.1, if_neg fun hc => hj hc.1]
  refine ⟨⟨hholds, ?_, ?_⟩, ?_, hnode⟩
  · refine h.world.intact.replace (h.world.ref_pos h.mem) h.inum hsb hcache
      h.inum (fun _ _ => ⟨hself.symm, ?_⟩) ?_ hothers ?_
    · change (t.icache ip).din.type ≠ 0
      rw [hfields]
      exact h.synced.2
    · refine hw.owned.congr_table fun j hj => ?_
      rw [htable j hj]
      exact ⟨rfl, rfl, rfl⟩
    · intro j m hm hdir
      rw [hnode] at hm
      by_cases hji : j = i
      · subst hji
        rw [Function.update_self] at hm
        obtain rfl := Option.some.inj hm
        exact hentries hdir
      · rw [Function.update_of_ne hji] at hm
        exact h.world.intact.entries j m hm hdir
  · rw [hw.state]
    exact h.world.bufs
  · refine .replace hsb hcache rfl id fun j b hne => ?_
    have hlist : t.lists j b =
        listing s.sb t.disk (Grown.table s.inode i ip t) j b := by
      rw [State.lists, hsb, listing, live_congr htable, listing]
    rw [hlist]
    by_cases hji : j = i
    · subst hji
      exact hw.kept b hne
    · exact hw.lists j hji b

theorem writei_changed (off : ℕ) (src : Bytes)
    (h : Loaded s (k.lock ip) ip i n) (hop : k.op = true)
    (hdev : n.type ≠ T_DEV)
    (hentries : n.type = T_DIR → ∀ de ∈ dirents (splice n.data off src),
      de.inum.toNat < s.sb.ninodes) :
    Sat (writei ip src off) s (fun r t =>
      if Refused n.data.length off src.length then r = none ∧ t = s
      else r = some src.length ∧ Changed (k.lock ip) (k.lock ip) i
        { n with data := splice n.data off src } s t) fun _ => True := by
  have hlen : (s.inode i).size.toNat = n.data.length := by
    rw [h.data_eq, State.length_bytes]
  have hsat : Sat (writei ip src off) s _ fun _ => True :=
    writei_sat h.ready (by rw [← h.synced.1, h.type_eq]; exact hdev)
      fun _ _ => trivial
  refine ((writei_moves ip src off hop).also h.world.holds hsat).imp ?_
  rintro r t ⟨hholds, hr⟩
  rw [hlen] at hr
  by_cases href : Refused n.data.length off src.length
  · rwa [if_pos href] at hr ⊢
  · rw [if_neg href] at hr ⊢
    refine ⟨hr.1, hr.2.changed h hholds ?_ hentries⟩
    by_contra hlt
    exact href (.inl (by omega))

/-! ## New inodes -/

/-- An inode that lists no blocks is allocated. -/
theorem Sound.allocate {sb : Superblock} {disk : ℕ → Block} {V : Table}
    (h : Owned sb disk V) (hi : i < sb.ninodes) (hfree : (V i).type = 0)
    {type : BitVec 16} (ht : type ≠ 0) :
    Owned sb disk (Function.update V i { Dinode.zero with type := type }) := by
  have hlist : listing sb disk
      (Function.update V i { Dinode.zero with type := type }) =
      listing sb disk V := by
    rw [listing, live_update hi ht]
    funext j k
    by_cases hj : j = i
    · subst hj
      rw [listing, slots, slots, Function.update_self,
        live_of_free fun hc => hc.2 hfree]
      exact Dinode.slot_addrs rfl
    · rw [slots, Function.update_of_ne hj]
      rfl
  constructor
  · exact h.layout
  · exact h.superblock
  · rw [hlist]
    exact h.separate
  · rw [hlist]
    exact h.bitmap
  · intro j hj hne hdev bn hbn
    rw [hlist]
    by_cases hji : j = i
    · subst hji
      have hempty : blocksOf Dinode.zero.size.toNat = 0 := by decide
      rw [Function.update_self] at hbn
      change bn < blocksOf Dinode.zero.size.toNat at hbn
      omega
    · rw [Function.update_of_ne hji] at hne hdev hbn
      exact h.mapped j hj hne hdev bn hbn

/-- A free inode gets a type on disk. -/
theorem World.allocate {type : BitVec 16} {tr : List Event} (h : World s k)
    (hi : i < s.sb.ninodes) (hfree : (s.inode i).type = 0) (htype : type ≠ 0)
    (hholds : Holds t k) (ht : t = { s with
      disk := storeDisk s.sb s.disk i { Dinode.zero with type := type }
      trace := tr }) :
    Changed k k i ⟨type, 0, 0, 0, []⟩ s t := by
  have howned := h.intact.owned
  have hsb : t.sb = s.sb := by rw [ht]
  have hcache : t.icache = s.icache := by rw [ht]
  have hinode : ∀ j, t.inode j =
      Function.update s.inode i { Dinode.zero with type := type } j := by
    intro j
    rw [ht]
    refine (inodeOf_storeDisk j _).trans ?_
    by_cases hji : j = i
    · rw [if_pos hji, hji, Function.update_self]
    · rw [if_neg hji, Function.update_of_ne hji]
  have hothers : ∀ j ≠ i, t.inode j = s.inode j := by
    intro j hji
    rw [hinode, Function.update_of_ne hji]
  have hdata : ∀ w, w = 0 ∨ nmeta s.sb ≤ w → t.disk w = s.disk w := by
    intro w hw
    have h₁ := howned.layout.one_lt_iblock (i := i)
    have h₂ := howned.layout.iblock_lt_nmeta hi
    rw [ht]
    exact storeDisk_of_ne (by omega) _
  have hnode : t.node = Function.update s.node i
      (some ⟨type, 0, 0, 0, []⟩) := by
    funext j
    by_cases hji : j = i
    · subst hji
      have hself := hinode j
      rw [Function.update_self] at hself
      have hbytes : t.bytes j = [] := by
        rw [← List.length_eq_zero_iff, State.length_bytes, hself]
        rfl
      rw [Function.update_self, node_eq_some (hsb ▸ hi) (by
        rw [hself]
        exact htype), hbytes, hself]
      rfl
    · have heq := hothers j hji
      rw [Function.update_of_ne hji, State.node, State.node, hsb,
        bytes_congr howned hsb hdata (by rw [heq]) (by rw [heq])
        (by rw [heq]), heq]
  refine ⟨⟨hholds, ⟨?_, ?_, ?_, ?_, ?_⟩, ?_⟩, ⟨hsb, fun c _ => ?_,
    fun c _ hc => ?_, fun c _ b hne => ?_⟩, hnode⟩
  · rw [hsb]
    have hstored : Owned s.sb t.disk s.inode := by
      rw [ht]
      exact howned.store hi _
    refine (hstored.allocate hi hfree htype).congr_table fun j _ => ?_
    rw [hinode]
    exact ⟨rfl, rfl, rfl⟩
  · rw [hcache]
    exact h.intact.distinct
  · rw [hcache, hsb]
    exact h.intact.inums
  · rw [hcache]
    intro c hc hv
    obtain ⟨hdin, hne⟩ := h.intact.synced c hc hv
    rw [hothers]
    · exact ⟨hdin, hne⟩
    · intro heq
      rw [hdin, heq] at hne
      exact hne hfree
  · rw [hnode, hsb]
    intro j m hm hdir
    by_cases hji : j = i
    · subst hji
      rw [Function.update_self] at hm
      obtain rfl := Option.some.inj hm
      rw [dirents_nil]
      exact fun de hde => absurd hde List.not_mem_nil
    · rw [Function.update_of_ne hji] at hm
      exact h.intact.entries j m hm hdir
  · rw [ht]
    exact h.bufs
  · rw [hcache]
  · rwa [hcache]
  · have hold : (s.icache c).inum ≠ i := by
      intro heq
      rw [heq, State.lists, listing, slots,
        live_of_free fun hc => hc.2 hfree] at hne
      exact hne Dinode.slot_zero
    have heq := hothers _ hold
    exact lists_congr_addrs howned hsb hdata (by rw [heq]) (by rw [heq]) b

theorem bread_sat {b : ℕ} : Sat (bread b) s (fun a t => a = s.disk b ∧
    t = { s.emit (.bread b) with bufs := b :: s.bufs }) fun _ => True := by
  refine .bind (Sat.get ?_)
  apply Sat.ite
  · intro _
    exact Sat.throw trivial
  · intro _
    exact .bind (Sat.set (Sat.pure ⟨rfl, rfl⟩))

/-- What `ialloc` returns is a new inode. -/
structure Allocated (k : Ctx P) (c : Slot) (i : ℕ) (type : BitVec 16)
    (s t : State P) : Prop where
  changed : Changed k (k.hold c) i ⟨type, 0, 0, 0, []⟩ s t
  inum : (t.icache c).inum = i
  pos : 0 < i
  free : s.node i = none

theorem iallocLoop_allocated {type : BitVec 16} (htype : type ≠ 0)
    (hop : k.op = true) {rounds : ℕ} (h : World s k)
    (hend : i + rounds ≤ s.sb.ninodes) (hpos : 0 < i) :
    Sat (iallocLoop type rounds i) s
      (fun c t => ∃ j, Allocated k c j type s t) fun _ => True := by
  induction rounds generalizing s i with
  | zero => exact Sat.throw trivial
  | succ rounds ih =>
      have hi : i < s.sb.ninodes := by omega
      refine .bind (Sat.get ?_)
      refine ((bread_moves _).also h.holds bread_sat).andThen ?_
      rintro _ _ ⟨hbread, rfl, rfl⟩
      apply Sat.ite
      · intro hfree
        refine ((logWrite_moves _ _ hop).also hbread (Sat.modify
          (Q := fun _ t => t = _) rfl)).andThen ?_
        rintro - _ ⟨hwrite, rfl⟩
        refine ((brelse_moves _).also hwrite (Sat.modify
          (Q := fun _ t => t = _) rfl)).andThen ?_
        rintro - t ⟨hrelse, ht⟩
        have hstate : t = { s with
            disk := storeDisk s.sb s.disk i { Dinode.zero with type := type }
            trace := t.trace } := by
          rw [ht]
          simp only [State.emit, State.setDisk, List.erase_cons_head]
          rfl
        have hchanged := h.allocate hi hfree htype hrelse hstate
        refine (iget_still hchanged.world ?_).imp ?_
        · rw [hchanged.frame.sb]
          exact hi
        · rintro c u ⟨hstill, hinum⟩
          refine ⟨i, ⟨hstill.world, hchanged.frame.trans hstill.frame, ?_⟩,
            hinum, hpos, ?_⟩
          · rw [hstill.node, hchanged.node]
          · rw [node_eq_none]
            exact fun hc => hc.2 hfree
      · intro _
        refine ((brelse_moves _).also hbread (Sat.modify
          (Q := fun _ t => t = _) rfl)).andThen ?_
        rintro - t ⟨hrelse, ht⟩
        have hstill : Still k k s t := by
          refine h.traced hrelse ?_
          rw [ht]
          simp only [State.emit, List.erase_cons_head]
        refine (ih hstill.world ?_ (Nat.succ_pos i)).imp ?_
        · rw [hstill.frame.sb]
          omega
        · rintro c u ⟨j, hj⟩
          refine ⟨j, ⟨hj.changed.world, ?_, ?_⟩, hj.inum, hj.pos, ?_⟩
          · exact hstill.frame.trans hj.changed.frame
          · rw [hj.changed.node, hstill.node]
          · rw [← hstill.node]
            exact hj.free

theorem ialloc_allocated {type : BitVec 16} (htype : type ≠ 0)
    (hop : k.op = true) (h : World s k) :
    Sat (ialloc type) s (fun c t => ∃ j, Allocated k c j type s t)
      fun _ => True := by
  refine .bind (Sat.get ?_)
  have := h.intact.owned.layout.root
  exact iallocLoop_allocated htype hop h (by omega) Nat.one_pos

/-! ## Putting an inode -/

theorem Erased.node_none (he : Erased s.inode i ip s t)
    (hu : u = { t.setInode ip { t.icache ip with
      ref := (t.icache ip).ref - 1 } with trace := u.trace }) :
    u.node i = none := by
  have hinode : u.inode i = (t.icache ip).din := by
    rw [← he.stored, hu, State.inode]
    change inodeOf t.sb t.disk i = _
    rw [he.state]
    rfl
  rw [node_eq_none, hinode]
  exact fun hc => hc.2 he.free

/-- The last reference to a node without links is put. -/
theorem Erased.calm (h : World s (k.hold ip)) (hinum : (s.icache ip).inum = i)
    (hn : s.node i = some n) (hlink : n.nlink = 0)
    (hone : (s.icache ip).ref = 1) (he : Erased s.inode i ip s t)
    (hholds : Holds u k)
    (hu : u = { t.setInode ip { t.icache ip with
      ref := (t.icache ip).ref - 1 } with trace := u.trace }) :
    Calm k k s u := by
  have howned := h.intact.owned
  have hi := (of_node_eq_some hn).1
  have hstate := he.state
  have hdisk : u.disk = t.disk := by rw [hu]; rfl
  have hsb : u.sb = s.sb := by
    rw [hu, hstate]
    rfl
  have hinode : ∀ j < s.sb.ninodes,
      u.inode j = Function.update s.inode i (t.icache ip).din j := by
    intro j hj
    rw [State.inode, hsb, hdisk]
    by_cases hji : j = i
    · rw [hji, Function.update_self]
      exact he.stored
    · rw [Function.update_of_ne hji]
      exact he.inodes j hj hji
  have hdata : ∀ w, w = 0 ∨ nmeta s.sb ≤ w → u.disk w = s.disk w := by
    rw [hdisk]
    exact he.data
  have hnone : u.node i = none := he.node_none hu
  have hsame : ∀ j ≠ i, u.node j = s.node j := by
    intro j hji
    rw [State.node, State.node, hsb]
    by_cases hj : j < s.sb.ninodes
    · have heq : u.inode j = s.inode j := by
        rw [hinode j hj, Function.update_of_ne hji]
      rw [bytes_congr howned hsb hdata (by rw [heq]) (by rw [heq])
        (by rw [heq]), heq]
    · rw [if_neg fun hc => hj hc.1, if_neg fun hc => hj hc.1]
  have hout : ip ∉ k.refs := by
    intro hmem
    have hcount := h.holds.ref ip
    rw [hone, Ctx.hold, Multiset.count_cons_self] at hcount
    have := Multiset.count_pos.mpr hmem
    omega
  have hother : ∀ c ∈ k.refs, (s.icache c).inum ≠ i := by
    intro c hc heq
    have hpos : 0 < (s.icache c).ref :=
      h.ref_pos (Multiset.mem_cons_of_mem hc)
    have := h.intact.distinct c ip hpos (by omega) (heq.trans hinum.symm)
    exact hout (this ▸ hc)
  have hcache : u.icache = Function.update s.icache ip
      { t.icache ip with ref := (t.icache ip).ref - 1 } := by
    rw [hu]
    change Function.update t.icache ip _ = _
    rw [hstate]
    simp only [State.setInode, Function.update_self, Function.update_idem]
  have href : (t.icache ip).ref = 1 := by
    rw [hstate, ← hone]
    simp only [State.setInode, Function.update_self]
  refine ⟨⟨hholds, ?_, ?_⟩, ⟨hsb, fun c hc => ?_, fun c hc hv => ?_,
    fun c hc b _ => ?_⟩, fun j => ?_, fun j b hne => ?_⟩
  · refine h.intact.replace (i := i) (by omega) hinum hsb hcache ?_ ?_ ?_ ?_ ?_
    · rw [hstate, ← hinum]
      simp only [State.setInode, Function.update_self]
    · intro hpos
      change 0 < (t.icache ip).ref - 1 at hpos
      omega
    · rw [hdisk]
      refine he.owned.congr_table fun j hj => ?_
      rw [hinode j hj]
      exact ⟨rfl, rfl, rfl⟩
    · intro j hj hji
      rw [hinode j hj, Function.update_of_ne hji]
    · intro j m hm
      by_cases hji : j = i
      · rw [hji, hnone] at hm
        cases hm
      · rw [hsame j hji] at hm
        exact h.intact.entries j m hm
  · rw [hu, hstate]
    exact h.bufs
  · have hne : c ≠ ip := fun heq => hout (heq ▸ hc)
    rw [hcache, Function.update_of_ne hne]
  · have hne : c ≠ ip := fun heq => hout (heq ▸ hc)
    rwa [hcache, Function.update_of_ne hne]
  · have heq : u.inode (s.icache c).inum = s.inode (s.icache c).inum := by
      rw [hinode _ (h.intact.inums c (h.ref_pos (Multiset.mem_cons_of_mem hc))),
        Function.update_of_ne (hother c hc)]
    exact lists_congr_addrs howned hsb hdata (by rw [heq]) (by rw [heq]) b
  · by_cases hji : j = i
    · subst hji
      exact .inr ⟨hnone, n, hn, hlink, hother⟩
    · exact .inl (hsame j hji)
  · by_cases hnode : u.node j = none
    · exact absurd (lists_of_node_none hnode b) hne
    · have hji : j ≠ i := by
        rintro rfl
        exact hnode hnone
      obtain ⟨m, hm⟩ := Option.ne_none_iff_exists'.mp hnode
      have hj := (of_node_eq_some hm).1
      rw [hsb] at hj
      have heq : u.inode j = s.inode j := by
        rw [hinode j hj, Function.update_of_ne hji]
      exact lists_congr_addrs howned hsb hdata (by rw [heq]) (by rw [heq]) b

/-- If this was the last reference to a valid copy without links, the node is
gone. -/
def Dropped (k : Ctx P) (ip : Slot) (s t : State P) : Prop :=
  ip ∉ k.refs → (s.icache ip).valid = true →
    ∀ n, s.node (s.icache ip).inum = some n → n.nlink = 0 →
      t.node (s.icache ip).inum = none

/-- `iput` frees a node without links whose last reference it puts. -/
theorem iput_dropped (h : World s (k.hold ip)) (hop : k.op = true) :
    Sat (iput ip) s (fun _ t => Calm k k s t ∧ Dropped k ip s t)
      fun _ => True := by
  have hmem : ip ∈ (k.hold ip).refs := Multiset.mem_cons_self ip k.refs
  have hpos := h.ref_pos hmem
  have hsat : Sat (iput ip) s (fun _ u => ∀ hholds : Holds u k,
      Calm k k s u ∧ Dropped k ip s u) fun _ => True := by
    refine .bind (Sat.modify (.bind (Sat.get ?_)))
    change Sat (do
      (if (s.icache ip).ref = 1 ∧ (s.icache ip).valid ∧
          (s.icache ip).din.nlink = 0 then iputFree ip
        else pure ())
      modify fun s => s.setInode ip
        { s.icache ip with ref := (s.icache ip).ref - 1 } : M P Unit)
      (s.emit (.iput ip)) _ _
    by_cases hfree : (s.icache ip).ref = 1 ∧ (s.icache ip).valid ∧
        (s.icache ip).din.nlink = 0
    · obtain ⟨hone, hvalid, hlink⟩ := hfree
      obtain ⟨n, hn⟩ := h.loaded hmem hvalid
      rw [if_pos ⟨hone, hvalid, hlink⟩]
      have hsynced := hn.synced
      refine (iputFree_sat (s := s.emit (.iput ip)) (V := s.inode)
        h.intact.owned rfl hsynced.1 hn.lt ?_).andThen ?_
      · change (s.inode (s.icache ip).inum).type ≠ 0
        rw [← hsynced.1]
        exact hsynced.2
      · rintro - t ht
        refine Sat.modify fun hholds => ?_
        have hcalm : Calm k k (s.emit (.iput ip)) _ := ht.calm
          ⟨?_, h.intact.congr rfl rfl h.intact.distinct h.intact.inums
            h.intact.synced, h.bufs⟩ rfl hn.node (hn.nlink_eq ▸ hlink) hone
          hholds rfl
        · have hframe := hcalm.frame
          exact ⟨⟨hcalm.world, ⟨hframe.sb, hframe.inum, hframe.valid,
            hframe.lists⟩, hcalm.frees, hcalm.fewer⟩,
            fun _ _ _ _ _ => Erased.node_none (s := s.emit (.iput ip)) ht
              rfl⟩
        · exact h.holds.emit (if_pos hop) rfl rfl
    · rw [if_neg hfree]
      refine .bind (Sat.pure (Sat.modify fun hholds => ?_))
      have ht : (s.emit (.iput ip)).setInode ip
          { s.icache ip with ref := (s.icache ip).ref - 1 } =
          { s.setInode ip { s.icache ip with ref := (s.icache ip).ref - 1 }
            with trace := .iput ip :: s.trace } := rfl
      have hstill := h.setInode hholds ht rfl (fun _ => hpos) id
        fun _ hv => h.intact.synced ip hpos hv
      refine ⟨(hstill.mono fun c hc => Multiset.mem_cons_of_mem hc).calm, ?_⟩
      intro hlast hvalid n hn hlink
      refine absurd ⟨?_, hvalid, ?_⟩ hfree
      · rw [h.holds.ref, Ctx.hold, Multiset.count_cons_self,
          Multiset.count_eq_zero_of_notMem hlast]
      · obtain ⟨m, hm⟩ := h.loaded hmem hvalid
        rw [hm.nlink_eq, ← hlink]
        rw [hm.node] at hn
        rw [Option.some.inj hn]
  refine ((iput_moves ip hop).also h.holds hsat).imp ?_
  rintro - u ⟨hholds, hu⟩
  exact hu hholds

theorem iput_calm (h : World s (k.hold ip)) (hop : k.op = true) :
    Sat (iput ip) s (fun _ t => Calm k k s t) fun _ => True :=
  (iput_dropped h hop).imp fun _ _ ht => ht.1

theorem iunlockput_calm (h : World s ((k.hold ip).lock ip))
    (hop : k.op = true) :
    Sat (iunlockput ip) s (fun _ t => Calm k k s t) fun _ => True := by
  refine (iunlock_still h).andThen ?_
  rintro - t ht
  refine (iput_calm ht.world hop).imp ?_
  rintro - u hu
  have hmono : Still k (k.hold ip) s t :=
    ht.mono fun c hc => Multiset.mem_cons_of_mem hc
  exact hmono.calm.trans hu

end ZtlOs.Kernel
