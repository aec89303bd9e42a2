import ZtlOs.Mkfs.ReadBack
import ZtlOs.Mkfs.Rooted

/-!
# Finding the files in the kernel

What mkfs puts into the image under a name, the kernel that starts on the image
finds under a path with this name, and reads back.
-/

namespace ZtlOs.Mkfs

open ZtlOs.Support ZtlOs.Support.Program ZtlOs.Support.Bindings ZtlOs.Fs

open Kernel (Bytes bindings boot components cutName walk)

/-! ## The files of the command line -/

section Contents

variable {s t : State} {c : Contents} {files : List InputFile}
variable {inum rootino : BitVec 32} {inums : List (BitVec 32)} {k : ℕ}

/-- mkfs could open every file. -/
theorem addFiles_content (h : addFiles rootino files s = .ok (inums, t)) :
    ∀ file ∈ files, file.content ≠ none := by
  induction files generalizing s t inums with
  | nil =>
      intro file hmem
      cases hmem
  | cons file files ih =>
      obtain ⟨inum, s₁, h₁, h⟩ := bind_eq_ok h
      obtain ⟨rest, s₂, h₂, -⟩ := bind_eq_ok h
      intro file' hmem
      rcases List.mem_cons.mp hmem with rfl | hmem
      · intro hnone
        obtain ⟨_, s₃, -, h₁⟩ := bind_eq_ok h₁
        rw [hnone] at h₁
        cases h₁
      · exact ih h₂ file' hmem

theorem main_content (h : main files start = .ok (inums, t)) :
    ∀ file ∈ files, file.content ≠ none := by
  obtain ⟨_, s₁, -, h⟩ := bind_eq_ok h
  obtain ⟨rootino, s₂, -, h⟩ := bind_eq_ok h
  obtain ⟨_, s₃, -, h⟩ := bind_eq_ok h
  obtain ⟨_, s₄, -, h⟩ := bind_eq_ok h
  obtain ⟨_, s₅, -, h⟩ := bind_eq_ok h
  obtain ⟨rest, s₆, h₆, -⟩ := bind_eq_ok h
  exact addFiles_content h₆

/-- Adding files leaves the contents of the other inodes. -/
theorem addContents_of_lt {i : ℕ} (hroot : i ≠ ROOTINO)
    (hi : i < inum.toNat) (hle : inum.toNat + files.length < 2 ^ 32) :
    addContents ROOTINO c inum files i = c i := by
  induction files generalizing c inum with
  | nil => rfl
  | cons file files ih =>
      rw [List.length_cons] at hle
      have hnext : (inum + 1).toNat = inum.toNat + 1 := by
        rw [BitVec.toNat_add, show (1 : BitVec 32).toNat = 1 from rfl]
        omega
      rw [addContents, ih (by omega) (by omega), addContent,
        Function.update_of_ne (by omega), Function.update_of_ne hroot]

/-- The contents of the files go into consecutive inodes. -/
theorem addContents_getElem (inum : BitVec 32) (hk : k < files.length) (hpos : 2 ≤ inum.toNat)
    (hle : inum.toNat + files.length < 2 ^ 32) :
    addContents ROOTINO c inum files (inum.toNat + k) =
      files[k].content.getD [] := by
  induction files generalizing c inum k with
  | nil => cases hk
  | cons file files ih =>
      rw [List.length_cons] at hle hk
      have hnext : (inum + 1).toNat = inum.toNat + 1 := by
        rw [BitVec.toNat_add, show (1 : BitVec 32).toNat = 1 from rfl]
        omega
      rw [addContents]
      cases k with
      | zero =>
          have hroot : inum.toNat ≠ ROOTINO := by
            change inum.toNat ≠ 1
            omega
          rw [Nat.add_zero, addContents_of_lt hroot (by omega) (by omega),
            addContent, Function.update_self]
          rfl
      | succ k =>
          have := ih (c := addContent c ROOTINO file inum) (inum + 1)
            (k := k) (by omega) (by omega) (by omega)
          rw [hnext, Nat.add_right_comm] at this
          exact this

end Contents

/-! ## The kernel after the start -/

section Start

variable {P : Type} [Fintype P] {disk : ℕ → Block} {p : P} {path : Bytes}

/-- The kernel starts in the root directory, with all but one slot free. -/
theorem boot_freeSlots : 2 ≤ (boot (P := P) disk).freeSlots := by
  have hsub : Finset.univ.erase (0 : Kernel.Slot) ⊆
      Finset.univ.filter fun c => ((boot (P := P) disk).icache c).ref = 0 := by
    intro c hc
    refine Finset.mem_filter.mpr ⟨Finset.mem_univ c, ?_⟩
    simp [boot, Finset.ne_of_mem_erase hc]
  refine le_trans ?_ (Finset.card_le_card hsub)
  decide

theorem startInum_boot :
    (boot (P := P) disk).startInum p path = ROOTINO := by
  rw [Kernel.State.startInum]
  split <;> rfl

/-- The kernel starts with a tree that it can walk. -/
theorem Rooted.tree (h : Kernel.Rooted disk) (p : P) :
    Kernel.Tree (boot (P := P) disk) p := by
  have hrest := h.toFormatted.atRest (P := P)
  have hlasts : ∀ {i n}, (boot (P := P) disk).node i = some n →
      (boot (P := P) disk).Lasts i := fun {i n} hn =>
    ⟨n, hn, .inl (h.linked i n hn)⟩
  have hdir : ∀ {i n}, (boot (P := P) disk).node i = some n →
      n.type = T_DIR → (Kernel.hierarchy
        (boot (P := Unit) disk).node).Linked i := fun {i n} hn htype =>
    Kernel.linked_iff.mpr ⟨n, hn, htype, h.linked i n hn⟩
  obtain ⟨r, hr, -⟩ := Kernel.linked_iff.mp h.orderly.sound.root
  constructor
  · exact hrest.intact
  · exact hrest.settled.bufs
  · exact hrest.settled.unlocked
  · exact h.orderly.whole
  · intro i n hn htype
    exact h.orderly.distinct_bindings (hdir hn htype) hn htype
  · intro i name k hlook
    obtain ⟨j, hat⟩ := Kernel.exists_namesAt hlook
    obtain ⟨m, hm, htype⟩ := Kernel.isDir_iff.mp hat.isDir
    have hlink := h.orderly.sound.target i j name k ⟨hdir hm htype, hat⟩
    obtain ⟨n, hn⟩ := Option.ne_none_iff_exists'.mp
      fun hnone => hlink (Option.map_eq_none_iff.mpr hnone)
    exact hlasts hn
  · exact hlasts hr
  · exact Fintype.card_pos_iff.mpr ⟨p⟩
  · intro hnone
    exact absurd (hr.symm.trans hnone) (Option.some_ne_none r)

end Start

/-! ## Reading a file by its path -/

section Reading

variable {P : Type} {s t : Kernel.State P} {ip : Kernel.Slot} {i n : ℕ}
variable {p : P} {node : Node} {path : Bytes}

/-- `namei(path)`, and then `ilock(ip)` and `readi(ip, dst, 0, n)`. -/
def readPath (p : P) (path : Bytes) (n : ℕ) : Kernel.M P (Option Bytes) := do
  let r ← Kernel.namei p path
  match r with
  | none => pure none
  | some ip => lockRead ip 0 n

/-- What `readi` finds behind the reference that `namei` has returned. -/
theorem lockRead_held (h : Kernel.Held s i ip t) (hn : s.node i = some node)
    (htype : node.type = T_FILE ∨ node.type = T_DIR) (hlt : n < 2 ^ 32) :
    Sat (lockRead ip 0 n) t (fun r _ => r = some (node.data.take n))
      fun _ => False := by
  have hinum := h.inum
  refine (h.walking.ilock_sat h.pos ?_).andThen ?_
  · rw [hinum, hn]
    exact Option.some_ne_none node
  rintro _ u ⟨hu, hvalid, hsame⟩
  obtain ⟨hinum', href⟩ := hsame ip
  rw [hinum] at hinum'
  have hpos : 0 < (u.icache ip).ref := by
    rw [href]
    exact h.pos
  have hnode := hu.intact.node_valid hpos hvalid
  rw [hinum', hu.node_eq, hn] at hnode
  obtain rfl := Option.some.inj hnode
  have hlocked : Kernel.LockedFile u ip :=
    ⟨hu.intact.consistent, hpos, (hu.locks ip).trans (decide_eq_true rfl),
      hvalid, hu.intact.inums ip hpos, htype, hu.bufs⟩
  obtain ⟨tr, hrun⟩ := Kernel.readi_content hlocked 0 n
  rw [if_neg (by omega), hu.intact.content_eq, hinum', List.drop_zero] at hrun
  exact Sat.of_ok hrun rfl

/-- `namei` of a path that leads to inode `i`. -/
theorem namei_held (path : Bytes) (h : Kernel.Tree s p)
    (hfree : 2 ≤ s.freeSlots)
    (hwalk : walk s.node (s.startInum p path) (components path) = some i) :
    Sat (Kernel.namei p path) s
      (fun r t => ∃ ip, r = some ip ∧ Kernel.Held s i ip t)
      fun _ => False := by
  have hpanic : ¬s.freeSlots < 2 := by omega
  refine (Kernel.namex_sat h hpanic path).andThen ?_
  rintro (_ | ⟨ip, name⟩) t ht
  · have hnone := Option.map_eq_none_iff.mp ht.1
    rw [hwalk] at hnone
    cases hnone
  · obtain ⟨k, htarget, hheld⟩ := ht
    obtain ⟨i', hi', heq⟩ := Option.map_eq_some_iff.mp htarget
    rw [hwalk] at hi'
    obtain rfl := Option.some.inj hi'
    obtain ⟨rfl, -⟩ := Prod.mk.inj heq
    exact Sat.pure ⟨ip, rfl, hheld⟩

/-- The kernel has just started on a rooted volume. -/
theorem readPath_boot [Fintype P] {disk : ℕ → Block} (h : Kernel.Rooted disk)
    (hwalk : walk (boot (P := P) disk).node ROOTINO (components path) = some i)
    (hn : (boot (P := P) disk).node i = some node)
    (htype : node.type = T_FILE ∨ node.type = T_DIR) (hlt : n < 2 ^ 32) :
    ∃ u, readPath p path n (boot disk) =
      .ok (some (node.data.take n), u) := by
  have hspec : Sat (readPath p path n) (boot disk)
      (fun r _ => r = some (node.data.take n)) fun _ => False := by
    have hnamei := namei_held (i := i) path (Rooted.tree h p) boot_freeSlots
      (by rw [startInum_boot]; exact hwalk)
    refine hnamei.andThen ?_
    rintro _ t ⟨ip, rfl, hheld⟩
    exact lockRead_held hheld hn htype hlt
  obtain ⟨r, u, hrun, rfl⟩ := hspec.exists_ok fun _ => id
  exact ⟨u, hrun⟩

end Reading

/-! ## The files are found -/

section Files

variable {P : Type} [Fintype P] {files : List InputFile} {file : InputFile}
variable {inums : List (BitVec 32)} {t : State} {path : Bytes} {k n : ℕ}

/-- The path of a file is a path of one element. -/
theorem components_name {name : Bytes} (hne : name ≠ []) (hnul : 0 ∉ name)
    (hslash : slash ∉ name) :
    components (Kernel.slash :: name) = [cutName name] := by
  have hwhole : ∀ {l : Bytes}, 0 ∉ l → l.takeWhile (fun c => c ≠ 0) = l := by
    intro l hl
    refine List.takeWhile_eq_self_iff.mpr fun c hc => decide_eq_true ?_
    rintro rfl
    exact hl hc
  have htext : Kernel.pathText (Kernel.slash :: name) =
      Kernel.slash :: name := by
    apply hwhole
    rw [List.mem_cons, not_or]
    exact ⟨by decide, hnul⟩
  have hpieces : Kernel.pieces name = [name] := by
    have := Kernel.pieces_append (l := []) hne hslash (.inl rfl)
    rwa [List.append_nil] at this
  rw [components, htext, Kernel.pieces_slash, hpieces, List.map_singleton,
    cutName, Kernel.cstring,
    hwhole fun hmem => hnul (List.mem_of_mem_take hmem)]

theorem Mountable.walk_file (h : Mountable files t)
    (hlen : files.length ≤ 198) (hmod : (files.length + 2) % 32 ≠ 0)
    (hnodup : (rootNames files).Nodup) (hk : k < files.length) :
    walk (boot (P := Unit) t.sect).node ROOTINO
      [cutName files[k].entryName] = some (k + 2) := by
  obtain ⟨r, hr⟩ := h.exists_node (by decide) h.used_root
  obtain ⟨htype, -, hdata⟩ := h.root_node hr
  have hb : Binds (bindings r.data) (k + 2) (cutName files[k].entryName)
      (k + 2) := by
    rw [hdata, h.binds_iff hmod]
    exact ⟨by simp [rootNames, fileNames, hk], rfl⟩
  have hlook : Kernel.lookupAt (boot (P := Unit) t.sect).node ROOTINO
      (cutName files[k].entryName) = some (k + 2) := by
    rw [Kernel.lookupAt_eq hr htype]
    exact (lookup_eq_some (h.flat hlen hmod hnodup hr).distinct).mpr ⟨_, hb⟩
  rw [Kernel.walk_of_lookupAt hlook, walk]

/-- With names that differ, the kernel that starts on the image finds every
file under its name, and reads what mkfs has read. -/
theorem image_files_found (h : main files start = .ok (inums, t))
    (hlen : files.length ≤ 198) (hmod : (files.length + 2) % 32 ≠ 0)
    (hnodup : (rootNames files).Nodup) (hfile : file ∈ files)
    (hpath : components path = [cutName file.entryName]) (hn : n < 2 ^ 32)
    (p : P) :
    ∃ content u, file.content = some content ∧
      readPath p path n (boot t.sect) = .ok (some (content.take n), u) := by
  have hm := Mountable.of_main h
    ((Nat.add_le_add_right hlen 2).trans (by decide))
  obtain ⟨k, hk, rfl⟩ := List.getElem_of_mem hfile
  obtain ⟨content, hcontent⟩ :=
    Option.ne_none_iff_exists'.mp (main_content h _ hfile)
  have hu : t.Used (k + 2) := (hm.used _).mpr ⟨by omega, by omega⟩
  have hi := hm.used_lt hlen hu
  obtain ⟨node, hnode⟩ := hm.exists_node hi hu
  have hne : k + 2 ≠ ROOTINO := by
    change k + 2 ≠ 1
    omega
  have htype := (hm.of_node hnode).2.1
  rw [if_neg hne] at htype
  have hdata : node.data = content := by
    obtain ⟨-, -, rfl⟩ := Kernel.of_node_eq_some hnode
    have hcontents := addContents_getElem (c := rootContents) 2 hk le_rfl
      (by change 2 + _ < _; omega)
    rw [show (2 : BitVec 32).toNat + k = k + 2 from Nat.add_comm 2 k,
      hcontent] at hcontents
    exact (hm.bytes_file hi hu hne).trans hcontents
  have hwalk := hm.walk_file hlen hmod hnodup hk
  rw [← hpath] at hwalk
  obtain ⟨v, hv⟩ := readPath_boot (P := P) (p := p)
    (hm.rooted hlen hmod hnodup) hwalk hnode (.inl htype) hn
  rw [hdata] at hv
  exact ⟨content, v, hcontent, hv⟩

end Files

/-- One file, `_a`. -/
def oneFile : List InputFile :=
  [⟨[underscore, 0x61], some [5, 6, 7]⟩]

/-- The file is found under `/a`. -/
theorem image_files_found_oneFile :
    ∃ inums t u, main oneFile start = .ok (inums, t) ∧
      readPath () [slash, 0x61] 2 (boot t.sect) = .ok (some [5, 6], u) := by
  have hread : ∀ file ∈ oneFile, file.Readable := by
    intro file hmem
    obtain rfl := List.mem_singleton.mp hmem
    exact ⟨by decide, _, rfl, by decide⟩
  obtain ⟨inums, t, h, -⟩ := main_exits (by decide) hread (by decide)
  have hn : 2 < 2 ^ 32 := by decide
  have hpath : components [slash, 0x61] = [cutName [0x61]] :=
    components_name (by decide) (by decide) (by decide)
  obtain ⟨content, u, hcontent, hu⟩ := image_files_found h (by decide)
    (by decide) (by decide) List.mem_cons_self hpath hn ()
  obtain rfl := Option.some.inj hcontent
  exact ⟨inums, t, u, h, hu⟩

end ZtlOs.Mkfs
