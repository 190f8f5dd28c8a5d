import AlbumFS.Dirs.Removal
import AlbumFS.Lib.Names

/-!
# The namespace that a view shows

The directories of a view are the directories of a namespace: the live entries other than `.` and `..` are its
links, `..` is the recorded holder, and the inodes have its link counts. Each step of the operations on names is
a change of this namespace.

## Main definitions

* `ShowsAt`, `View.Shows`: the view shows a namespace.
* `SameElsewhere`: the inodes and blocks of the other numbers are as they were.

## Main results

* `View.Shows.lookup_link`, `View.Shows.lookup_none`: looking up a name.
* `View.Shows.added`, `View.Shows.taken`, `View.Shows.setInode`, `View.Shows.dropped`, `View.Shows.fileMade`,
  `View.Shows.dirMade`, `View.Shows.endsOn_updateDotdot`: what the steps do.
-/

namespace AlbumFS

open FirstFit Prog

/-- The inodes and the contents of the other numbers are as they were. -/
structure SameElsewhere (ino : Nat) (v w : View) : Prop where
  inodes_eq : ∀ j, j ≠ ino → w.inodes j = v.inodes j
  payload_eq : ∀ t : Slot, t.IsLeaf → t.ino ≠ ino → w.payload t = v.payload t

/-- The entry of a link. -/
def Link.entry (l : Link Nat String) : Entry := (l.node, l.name, if l.isDir then FILE_TYPE_DIR else FILE_TYPE_FILE)

/-- The entries that every directory has. -/
def dots (ino parent : Nat) : Multiset Entry := {(ino, ".", FILE_TYPE_DIR), (parent, "..", FILE_TYPE_DIR)}

/-- The records of the directory `ino` are those of a namespace. -/
structure Rows (A : Names Nat String) (ino : Nat) (dir : List (List DirEntry)) : Prop where
  entries_eq : (dirEntries dir : Multiset Entry) = dots ino (A.parent ino) + (A.links ino).map Link.entry
  dotdot : ∃ es, dir[0]? = some es ∧ ∃ a ∈ liveEntries es, a.2.1 = ".."
  proper : ∀ l ∈ A.links ino, l.name ≠ "." ∧ l.name ≠ ".."

/-- What the view shows of the inode `ino`. -/
structure ShowsAt (v : View) (A : Names Nat String) (ino : Nat) : Prop where
  node_eq : A.node ino = (v.inodes ino).map fun inode => (inode.isDir, inode.nlink.toNat)
  kind : ∀ inode, v.inodes ino = some inode → inode.mode &&& S_IFMT ≠ 0
  exists_rows : ∀ inode, v.inodes ino = some inode → inode.isDir = true → ∃ dir, v.Lists ino dir ∧ Rows A ino dir

/-- The view shows the namespace. -/
def View.Shows (v : View) (A : Names Nat String) : Prop := ∀ ino, ShowsAt v A ino

section Frame

variable {u v w : View} {ino : Nat} {inode : Inode} {A B : Names Nat String} {s : Slot} {block : Block}

theorem SameElsewhere.refl (ino : Nat) (v : View) : SameElsewhere ino v v := ⟨fun _ _ => rfl, fun _ _ _ => rfl⟩

theorem SameElsewhere.trans (h : SameElsewhere ino u v) (h' : SameElsewhere ino v w) : SameElsewhere ino u w :=
  ⟨fun j hj => (h'.inodes_eq j hj).trans (h.inodes_eq j hj),
    fun t ht hne => (h'.payload_eq t ht hne).trans (h.payload_eq t ht hne)⟩

/-- The contents behind a slot are as they were when its block and the contents of this block are. -/
theorem View.payload_congr {t : Slot} (hown : w.own t = v.own t) (hblock : w.blockOf t = v.blockOf t) :
    w.payload t = v.payload t := by
  rw [View.payload_eq_map, View.payload_eq_map, hown, hblock]

/-- The copy of an inode is stored after changes behind its slots. -/
theorem sameElsewhere_store {i : Inode} (hinodes : w.inodes = v.inodes) (hmode : inode.mode ≠ 0)
    (hp : ∀ r : Root, r.pointer inode = r.pointer i) (hown : ∀ t : Slot, t.ino ≠ ino → w.ownWith ino i t = v.own t)
    (hcontent : ∀ t : Slot, t.IsLeaf → t.ino ≠ ino → w.content ino i t = v.blockOf t) :
    SameElsewhere ino v (w.setInode ino inode) where
  inodes_eq j hj := by rw [View.inodes_setInode, Function.update_of_ne hj, hinodes]
  payload_eq t ht hne := by
    rw [View.payload_setInode hmode, View.ownWith_congr hp, View.content_congr hp, hown t hne, hcontent t ht hne,
      View.payload_eq_map]

theorem sameElsewhere_setInode (hmode : inode.mode ≠ 0) : SameElsewhere ino v (v.setInode ino inode) :=
  sameElsewhere_store rfl hmode (fun _ => rfl) (fun _ hne => View.ownWith_of_ne hne)
    fun _ _ hne => View.content_of_ne hne

theorem Edits.sameElsewhere (h : Edits s block v w) (hs : s.ino = ino) (hinodes : ∀ j, j ≠ ino → w.inodes j = v.inodes j) :
    SameElsewhere ino v w :=
  ⟨hinodes, fun t ht hne => h.payload_eq t ht fun hts => hne (hts ▸ hs)⟩

/-- All blocks of an inode are released and the inode is freed. -/
theorem AlbumFs.Dropped.sameElsewhere (h : AlbumFs.Dropped v ino inode w) (hm : Mapped v ino inode) :
    SameElsewhere ino v w ∧ w.inodes ino = none := by
  obtain ⟨v', inode', hr, rfl⟩ := h
  refine ⟨⟨fun j hj => ?_, fun t ht hne => View.payload_congr ?_ ?_⟩, ?_⟩
  · rw [View.inodes_setInode, Function.update_of_ne hj, hr.shrinks.inodes_eq]
  · rw [View.own_setInode_default, if_neg hne, ← hr.own_of_ne hne, View.ownWith_of_ne hne]
  · rw [View.blockOf_setInode_default hne, ← View.content_of_ne hne,
      hr.shrinks.content_eq hm ht (hr.kept_leaf ht fun h => absurd h hne), View.content_of_ne hne]
  · rw [View.inodes_setInode, Function.update_self, Inode.live_default]

/-- What the view shows depends on the inode and its blocks. -/
theorem ShowsAt.congr (h : ShowsAt v A ino) (hinode : w.inodes ino = v.inodes ino)
    (hpayload : ∀ t : Slot, t.IsLeaf → t.ino = ino → w.payload t = v.payload t) (hnode : B.node ino = A.node ino)
    (hparent : B.parent ino = A.parent ino) (hlinks : B.links ino = A.links ino) : ShowsAt w B ino where
  node_eq := by rw [hnode, hinode, h.node_eq]
  kind i hi := h.kind i (hinode ▸ hi)
  exists_rows i hi hdir := by
    rw [hinode] at hi
    obtain ⟨dir, hlists, hrows⟩ := h.exists_rows i hi hdir
    exact ⟨dir, hlists.frame (by rw [hinode]; exact hlists.exists_inode) hpayload,
      ⟨by rw [hparent, hlinks, hrows.entries_eq], hrows.dotdot, by rw [hlinks]; exact hrows.proper⟩⟩

/-- The view shows what it showed, but for one number. -/
theorem View.Shows.of_elsewhere (h : v.Shows A) (hsame : SameElsewhere ino v w)
    (hA : ∀ j, j ≠ ino → B.node j = A.node j ∧ B.parent j = A.parent j ∧ B.links j = A.links j)
    (hat : ShowsAt w B ino) : w.Shows B := by
  intro j
  by_cases hj : j = ino
  · exact hj ▸ hat
  · obtain ⟨hnode, hparent, hlinks⟩ := hA j hj
    exact (h j).congr (hsame.inodes_eq j hj) (fun t ht hino => hsame.payload_eq t ht (hino ▸ hj)) hnode hparent hlinks

end Frame

/-! ### Looking up -/

section Lookup

variable {v : View} {d ino : Nat} {name : String} {A : Names Nat String}

theorem Rows.mem_iff {dir : List (List DirEntry)} (h : Rows A d dir) {a : Entry} :
    a ∈ dirEntries dir ↔ a ∈ dots d (A.parent d) ∨ ∃ l ∈ A.links d, l.entry = a := by
  rw [← Multiset.mem_coe, h.entries_eq, Multiset.mem_add, Multiset.mem_map]

theorem mem_dots {a : Entry} {parent : Nat} :
    a ∈ dots d parent ↔ a = (d, ".", FILE_TYPE_DIR) ∨ a = (parent, "..", FILE_TYPE_DIR) := by
  rw [dots, Multiset.insert_eq_cons, Multiset.mem_cons, Multiset.mem_singleton]

/-- An entry with a name of its own is that of a link. -/
theorem Rows.exists_link {dir : List (List DirEntry)} (h : Rows A d dir) {a : Entry} (ha : a ∈ dirEntries dir)
    (hdot : a.2.1 ≠ ".") (hdotdot : a.2.1 ≠ "..") : ∃ l ∈ A.links d, l.entry = a := by
  rcases h.mem_iff.1 ha with hdots | hlink
  · rcases mem_dots.1 hdots with rfl | rfl
    · exact absurd rfl hdot
    · exact absurd rfl hdotdot
  · exact hlink

theorem View.Shows.isDir_iff (h : v.Shows A) : A.IsDir d ↔ ∃ inode, v.inodes d = some inode ∧ inode.isDir = true := by
  rw [Names.IsDir, (h d).node_eq]
  cases hd : v.inodes d with
  | none => simp
  | some inode => simp

theorem View.Shows.node_of_inode (h : v.Shows A) {inode : Inode} (hi : v.inodes d = some inode) :
    A.node d = some (inode.isDir, inode.nlink.toNat) := by
  rw [(h d).node_eq, hi, Option.map_some]

theorem View.Shows.node_eq_none (h : v.Shows A) : A.node d = none ↔ v.inodes d = none := by
  rw [(h d).node_eq, Option.map_eq_none_iff]

/-- The records of a directory that is looked into. -/
theorem View.Shows.exists_rows (h : v.Shows A) (hd : A.IsDir d) : ∃ dir, v.Lists d dir ∧ Rows A d dir := by
  obtain ⟨inode, hi, hdir⟩ := h.isDir_iff.1 hd
  exact (h d).exists_rows inode hi hdir

/-- A name that is found is the name of a link. -/
theorem View.Shows.exists_link (h : v.Shows A) (hlookup : v.lookup d name = .ok (some ino)) (hdot : name ≠ ".")
    (hdotdot : name ≠ "..") : ∃ l ∈ A.links d, l.name = name ∧ l.node = ino := by
  obtain ⟨inode, hi, hdir⟩ := View.parent_of_lookup hlookup
  obtain ⟨dir, hlists, hrows⟩ := (h d).exists_rows inode hi hdir
  rw [hlists.lookup_eq, Except.ok.injEq] at hlookup
  obtain ⟨a, ha, rfl⟩ := Option.map_eq_some_iff.1 hlookup
  have hname : a.2.1 = name := by simpa using List.find?_some ha
  obtain ⟨l, hl, rfl⟩ := hrows.exists_link (List.mem_of_find?_eq_some ha) (hname ▸ hdot) (hname ▸ hdotdot)
  exact ⟨l, hl, hname, rfl⟩

/-- A name that is not found is the name of no link, nor is it one of the two that every directory has. -/
theorem View.Shows.lookup_none (h : v.Shows A) (hlookup : v.lookup d name = .ok none) :
    A.IsDir d ∧ name ≠ "." ∧ name ≠ ".." ∧ ∀ l ∈ A.links d, l.name ≠ name := by
  obtain ⟨inode, hi, hdir⟩ := View.parent_of_lookup hlookup
  obtain ⟨dir, hlists, hrows⟩ := (h d).exists_rows inode hi hdir
  rw [hlists.lookup_eq, Except.ok.injEq, Option.map_eq_none_iff, List.find?_eq_none] at hlookup
  have hnot : ∀ a ∈ dirEntries dir, a.2.1 ≠ name := fun a ha => by simpa using hlookup a ha
  refine ⟨h.isDir_iff.2 ⟨inode, hi, hdir⟩, ?_, ?_, fun l hl => hnot l.entry (hrows.mem_iff.2 (.inr ⟨l, hl, rfl⟩))⟩
  · exact fun hname => hnot _ (hrows.mem_iff.2 (.inl (mem_dots.2 (.inl rfl)))) hname.symm
  · exact fun hname => hnot _ (hrows.mem_iff.2 (.inl (mem_dots.2 (.inr rfl)))) hname.symm

/-- Looking up the name of a link finds its node. -/
theorem View.Shows.lookup_link {root : Nat} (h : v.Shows A) (htidy : A.Tidy root) {l : Link Nat String}
    (hl : l ∈ A.links d) : v.lookup d l.name = .ok (some l.node) := by
  obtain ⟨dir, hlists, hrows⟩ := h.exists_rows (htidy.isDir_of_mem d l hl)
  rw [hlists.lookup_eq]
  cases hfind : (dirEntries dir).find? fun a => a.2.1 = l.name with
  | none =>
    rw [List.find?_eq_none] at hfind
    exact absurd (decide_eq_true rfl) (hfind l.entry (hrows.mem_iff.2 (.inr ⟨l, hl, rfl⟩)))
  | some a =>
    have hname : a.2.1 = l.name := by simpa using List.find?_some hfind
    obtain ⟨hdot, hdotdot⟩ := hrows.proper l hl
    obtain ⟨l', hl', rfl⟩ := hrows.exists_link (List.mem_of_find?_eq_some hfind) (hname ▸ hdot) (hname ▸ hdotdot)
    obtain rfl : l' = l := Multiset.inj_on_of_nodup_map (htidy.nodup d) l' hl' l hl hname
    rfl

end Lookup

/-! ### The steps -/

section Steps

variable {v w : View} {d ino parent : Nat} {inode inode' : Inode} {name : String} {A : Names Nat String}
  {l : Link Nat String}

/-- An inode is stored with another link count and other attributes. -/
theorem View.Shows.setInode (h : v.Shows A) (hi : v.inodes ino = some inode)
    (hpointer : ∀ r : Root, r.pointer inode' = r.pointer inode) (hsize : inode'.size = inode.size)
    (hkind : inode'.mode &&& S_IFMT = inode.mode &&& S_IFMT) :
    (v.setInode ino inode').Shows (A.recount ino inode'.nlink.toNat) := by
  have hkind' := (h ino).kind inode hi
  have hdir : inode'.isDir = inode.isDir := by rw [Inode.isDir, hkind, Inode.isDir]
  have hmode : inode'.mode ≠ 0 := by
    intro hzero
    rw [← hkind, hzero] at hkind'
    exact hkind' (by decide)
  have hinode : (v.setInode ino inode').inodes ino = some inode' := by
    rw [View.inodes_setInode, Function.update_self, Inode.live_of_ne hmode]
  refine h.of_elsewhere (sameElsewhere_setInode hmode) (fun j hj => ⟨?_, rfl, rfl⟩) ⟨?_, fun i hi' => ?_,
    fun i hi' hdir' => ?_⟩
  · rw [Names.node_recount, Function.update_of_ne hj]
  · rw [Names.node_recount, Function.update_self, h.node_of_inode hi, hinode, Option.map_some, Option.map_some, hdir]
  · rw [hinode, Option.some.injEq] at hi'
    rw [← hi', hkind]
    exact hkind'
  · rw [hinode, Option.some.injEq] at hi'
    subst hi'
    obtain ⟨dir, hlists, hrows⟩ := (h ino).exists_rows inode hi (hdir ▸ hdir')
    obtain ⟨-, hlength, -⟩ := hlists.divCeil_eq hi
    refine ⟨dir, hlists.frame ⟨inode', hinode, hdir', by rw [hsize, hlength]⟩ fun t ht _ => ?_,
      hrows.entries_eq, hrows.dotdot, hrows.proper⟩
    rw [View.payload_setInode hmode, View.ownWith_congr hpointer, View.content_congr hpointer,
      View.ownWith_self hi, View.content_self hi, View.payload_eq_map]

theorem View.Shows.setInode_sameMap (h : v.Shows A) (hi : v.inodes ino = some inode) (hsame : inode'.SameMap inode) :
    (v.setInode ino inode').Shows (A.recount ino inode'.nlink.toNat) :=
  h.setInode hi hsame.pointer_eq hsame.size_eq (by rw [hsame.mode_eq])

/-- A new file. -/
theorem View.Shows.fileMade {mode : UInt32} (h : v.Shows A) (hmade : AlbumFs.FileMade v d name mode ino w) :
    w.Shows (A.make ino false d) := by
  obtain ⟨-, hino, time, rfl⟩ := hmade
  have hmode := AlbumFs.mode_fileInode mode time
  have hinode : (v.setInode ino (AlbumFs.fileInode mode time)).inodes ino = some (AlbumFs.fileInode mode time) := by
    rw [View.inodes_setInode, Function.update_self, Inode.live_of_ne hmode]
  refine h.of_elsewhere (sameElsewhere_setInode hmode) (fun j hj => ⟨?_, ?_, rfl⟩) ⟨?_, fun i hi => ?_,
    fun i hi hdir => ?_⟩
  · rw [Names.node_make, Function.update_of_ne hj]
  · rw [Names.parent_make, Function.update_of_ne hj]
  · rw [Names.node_make, Function.update_self, hinode, Option.map_some, AlbumFs.isDir_fileInode]
    rfl
  · rw [hinode, Option.some.injEq] at hi
    rw [← hi, AlbumFs.fileInode, AlbumFs.kind_or_permissions]
    decide
  · rw [hinode, Option.some.injEq] at hi
    rw [← hi, AlbumFs.isDir_fileInode] at hdir
    cases hdir

theorem dirEntries_initialRecords (hino : 0 < ino ∧ ino < 2 ^ 64) (hparent : 0 < parent ∧ parent < 2 ^ 64) :
    dirEntries [initialRecords (UInt64.ofNat ino) (UInt64.ofNat parent)] =
      [(ino, ".", FILE_TYPE_DIR), (parent, "..", FILE_TYPE_DIR)] := by
  have hne : ∀ n, 0 < n ∧ n < 2 ^ 64 → UInt64.ofNat n ≠ 0 ∧ (UInt64.ofNat n).toNat = n := by
    rintro n ⟨hpos, hlt⟩
    have hnat := UInt64.toNat_ofNat_of_lt' hlt
    refine ⟨fun hzero => ?_, hnat⟩
    rw [hzero] at hnat
    exact hpos.ne hnat
  obtain ⟨hne₁, hnat₁⟩ := hne ino hino
  obtain ⟨hne₂, hnat₂⟩ := hne parent hparent
  rw [dirEntries, List.flatMap_singleton, liveEntries_eq, initialRecords]
  simp [hne₁, hne₂, DirEntry.entry, hnat₁, hnat₂]

/-- A new directory. -/
theorem View.Shows.dirMade {mode : UInt32} {time : UInt64} (h : v.Shows A) (hs : v.Sound) (hempty : A.links ino = 0)
    (hmade : AlbumFs.DirMade v d name mode ino time w) (hino : 0 < ino ∧ ino < 2 ^ 64)
    (hd : 0 < d ∧ d < 2 ^ 64) : w.Shows (A.make ino true d) := by
  obtain ⟨-, hfreeIno, block, payload, hin, hfree, hpayload, rfl⟩ := hmade
  have hdir := AlbumFs.isDir_dirInode mode time block
  have hmode := Inode.mode_ne_zero _ hdir
  obtain ⟨-, hown⟩ := hs.newDirectory (View.allocInode_ok hfreeIno).2.1 hin hfree
    (AlbumFs.pointer_dirInode mode time block) hmode payload
  generalize hw : ((v.setBitmap (v.bitmap.set block)).setData block payload).setInode ino
    (AlbumFs.dirInode mode time block) = w at hown ⊢
  have hinode : w.inodes ino = some (AlbumFs.dirInode mode time block) := by
    rw [← hw, View.inodes_setInode, Function.update_self, Inode.live_of_ne hmode]
  have hdata : ∀ c, w.data c = if c = block then payload else v.data c := by
    intro c
    rw [← hw, View.data_setInode, View.data_setData, View.setBitmap, Function.update_apply]
  have hpayloads : ∀ t : Slot, t ≠ Slot.direct ino 0 → w.payload t = v.payload t := by
    intro t ht
    rw [View.payload, hown, Function.update_of_ne ht, View.payload]
    cases hc : v.own t with
    | none => rfl
    | some c =>
      rw [Option.map_some, Option.map_some, hdata, if_neg]
      rintro rfl
      have hset := (hs.exclusive.marked hc).2
      rw [hfree] at hset
      cases hset
  have hsame : SameElsewhere ino v w := by
    refine ⟨fun j hj => ?_, fun t _ ht => hpayloads t ?_⟩
    · rw [← hw, View.inodes_setInode, Function.update_of_ne hj]
      rfl
    · rintro rfl
      exact ht rfl
  refine h.of_elsewhere hsame (fun j hj => ⟨?_, ?_, rfl⟩) ⟨?_, fun i hi => ?_, fun i hi _ => ?_⟩
  · rw [Names.node_make, Function.update_of_ne hj]
  · rw [Names.parent_make, Function.update_of_ne hj]
  · rw [Names.node_make, Function.update_self, hinode, Option.map_some, hdir]
    rfl
  · rw [hinode, Option.some.injEq] at hi
    rw [← hi, AlbumFs.dirInode, AlbumFs.kind_or_permissions]
    decide
  · refine ⟨[initialRecords (UInt64.ofNat ino) (UInt64.ofNat d)], ⟨⟨_, hinode, hdir, ?_⟩, fun k es hk => ?_⟩, ?_⟩
    · rw [List.length_singleton, Nat.one_mul]
      exact UB64_toNat
    · obtain ⟨hlt, rfl⟩ := List.getElem?_eq_some_iff.1 hk
      obtain rfl : k = 0 := Nat.lt_one_iff.1 hlt
      refine ⟨Slot.direct ino 0, payload, dataSlot_direct (by omega), ?_, isChain_initialDirectoryBlock hpayload⟩
      rw [View.payload, hown, Function.update_self, Option.map_some, hdata, if_pos rfl]
    · have hentries := dirEntries_initialRecords hino hd
      refine ⟨?_, ⟨_, rfl, (d, "..", FILE_TYPE_DIR), ?_, rfl⟩, ?_⟩
      · rw [hentries, Names.parent_make, Function.update_self, Names.links_make, hempty, Multiset.map_zero, add_zero]
        rfl
      · rw [dirEntries, List.flatMap_singleton] at hentries
        rw [hentries]
        simp
      · rw [Names.links_make, hempty]
        simp

/-- The first block keeps an entry called `..` when its row does. -/
theorem exists_dotdot_set {dir : List (List DirEntry)} {k : Nat} {es es' : List DirEntry}
    (h : ∃ es, dir[0]? = some es ∧ ∃ a ∈ liveEntries es, a.2.1 = "..") (hk : dir[k]? = some es)
    (hes : ∀ a ∈ liveEntries es, a.2.1 = ".." → ∃ b ∈ liveEntries es', b.2.1 = "..") :
    ∃ es, (dir.set k es')[0]? = some es ∧ ∃ a ∈ liveEntries es, a.2.1 = ".." := by
  obtain ⟨first, hfirst, a, ha, hname⟩ := h
  by_cases hzero : k = 0
  · subst hzero
    rw [hk, Option.some.injEq] at hfirst
    subst hfirst
    exact ⟨es', List.getElem?_set_self (List.getElem?_eq_some_iff.1 hk).1, hes a ha hname⟩
  · exact ⟨first, by rw [List.getElem?_set_ne hzero, hfirst], a, ha, hname⟩

/-- An entry is added. -/
theorem View.Shows.added (h : v.Shows A) (hs : v.Sound)
    (hadded : AlbumFs.Added v d l.node l.name (if l.isDir then FILE_TYPE_DIR else FILE_TYPE_FILE) w)
    (hino : 0 < l.node ∧ l.node < 2 ^ 64) (hname : nameLen l.name ≤ 255) (hproper : l.name ≠ "." ∧ l.name ≠ "..") :
    w.Shows (A.put d l) := by
  obtain ⟨parent, parent', hparent, hdir, hinodes, hmode, hnlink, -⟩ := hadded.inodes_eq
  obtain ⟨dir, hlists, hrows⟩ := (h d).exists_rows parent hparent hdir
  obtain ⟨k, s, block, hslot, hedits, hcases⟩ := hadded.lists hs hlists hino.1 hino.2 hname
  have hinode : w.inodes d = some parent' := by rw [hinodes, Function.update_self]
  have hrows' : ∀ dir', (dirEntries dir').Perm (l.entry :: dirEntries dir) →
      (∃ es, dir'[0]? = some es ∧ ∃ a ∈ liveEntries es, a.2.1 = "..") → Rows (A.put d l) d dir' := by
    intro dir' hperm hdotdot
    refine ⟨?_, hdotdot, fun l' hl' => ?_⟩
    · rw [Multiset.coe_eq_coe.2 hperm, ← Multiset.cons_coe, hrows.entries_eq, Names.parent_put, Names.links_put,
        Function.update_self, Multiset.map_cons, Multiset.add_cons]
    · rw [Names.links_put, Function.update_self, Multiset.mem_cons] at hl'
      rcases hl' with rfl | hl'
      · exact hproper
      · exact hrows.proper l' hl'
  refine h.of_elsewhere (hedits.sameElsewhere (isLeaf_of_dataSlot hslot).2 fun j hj => ?_) (fun j hj => ⟨rfl, rfl, ?_⟩)
    ⟨?_, fun i hi => ?_, fun i _ _ => ?_⟩
  · rw [hinodes, Function.update_of_ne hj]
  · rw [Names.links_put, Function.update_of_ne hj]
  · rw [Names.node_put, h.node_of_inode hparent, hinode, Option.map_some, hnlink, Inode.isDir, Inode.isDir, hmode]
  · rw [hinode, Option.some.injEq] at hi
    rw [← hi, hmode]
    exact (h d).kind parent hparent
  · rcases hcases with ⟨es, es', hk, hplace, hlists'⟩ | ⟨-, -, hlists'⟩
    · have hperm := contents_place hplace
      refine ⟨_, hlists', hrows' _ (perm_dirEntries_set hk hperm) (exists_dotdot_set hrows.dotdot hk
        fun a ha hname => ⟨a, hperm.mem_iff.2 (List.mem_cons_of_mem _ ha), hname⟩)⟩
    · have hlive : UInt64.ofNat l.node ≠ 0 := by
        intro hzero
        have hnat := congrArg UInt64.toNat hzero
        rw [UInt64.toNat_ofNat_of_lt' hino.2] at hnat
        exact hino.1.ne' hnat
      have hperm := perm_dirEntries_append dir (e := ⟨UInt64.ofNat l.node, UInt16.ofNat UB, l.name,
        if l.isDir then FILE_TYPE_DIR else FILE_TYPE_FILE⟩) hlive
      rw [DirEntry.entry, UInt64.toNat_ofNat_of_lt' hino.2] at hperm
      obtain ⟨first, hfirst, hdotdot⟩ := hrows.dotdot
      exact ⟨_, hlists', hrows' _ hperm ⟨first, by
        rw [List.getElem?_append_left (List.getElem?_eq_some_iff.1 hfirst).1, hfirst], hdotdot⟩⟩

/-- An entry is taken out of a directory without a gap before it. -/
theorem View.Shows.taken (h : v.Shows A) (hs : v.Sound) (htaken : AlbumFs.Taken v d name w)
    (hgap : ∀ dir, v.Lists d dir → ∀ es ∈ dir, Gapless name es) (hproper : name ≠ "." ∧ name ≠ "..") :
    ∃ l ∈ A.links d, l.name = name ∧ w.Shows (A.take d l) := by
  obtain ⟨parent, time, hparent, hdir, hinodes⟩ := htaken.inodes_eq
  obtain ⟨dir, hlists, hrows⟩ := (h d).exists_rows parent hparent hdir
  obtain ⟨k, s, block, es, es', before, a, after, hslot, hedits, hk, hlists', hes, hes', hname, herase⟩ :=
    htaken.lists hs hlists (hgap dir hlists)
  have hmem : a ∈ dirEntries dir := List.mem_flatMap.2 ⟨es, List.mem_of_getElem? hk, by simp [hes]⟩
  obtain ⟨l, hl, hentry⟩ : ∃ l ∈ A.links d, l.entry ∈ dirEntries dir ∧ l.name = name ∧
      (dirEntries dir).Perm (l.entry :: dirEntries (dir.set k es')) := by
    obtain ⟨b, front, back, -, hb, hsplit, hrest⟩ := List.exists_of_eraseP hmem
      (p := fun b => decide (b.2.1 = name)) (decide_eq_true hname)
    have hbname : b.2.1 = name := of_decide_eq_true hb
    have hbmem : b ∈ dirEntries dir := by simp [hsplit]
    obtain ⟨l, hl, rfl⟩ := hrows.exists_link hbmem (hbname ▸ hproper.1) (hbname ▸ hproper.2)
    refine ⟨l, hl, hbmem, hbname, ?_⟩
    rw [herase, hrest, hsplit]
    exact List.perm_middle
  obtain ⟨-, hlname, hperm⟩ := hentry
  have hinode : w.inodes d = some (parent.touched time) := by rw [hinodes, Function.update_self]
  refine ⟨l, hl, hlname, h.of_elsewhere (hedits.sameElsewhere (isLeaf_of_dataSlot hslot).2 fun j hj => ?_)
    (fun j hj => ⟨rfl, rfl, ?_⟩) ⟨?_, fun i hi => ?_, fun i _ _ => ⟨_, hlists', ?_, ?_, ?_⟩⟩⟩
  · rw [hinodes, Function.update_of_ne hj]
  · rw [Names.links_take, Function.update_of_ne hj]
  · rw [Names.node_take, h.node_of_inode hparent, hinode]
    rfl
  · rw [hinode, Option.some.injEq] at hi
    rw [← hi]
    exact (h d).kind parent hparent
  · have hentries := hrows.entries_eq
    rw [Multiset.coe_eq_coe.2 hperm, ← Multiset.cons_coe, ← Multiset.cons_erase hl, Multiset.map_cons,
      Multiset.add_cons] at hentries
    rw [Names.parent_take, Names.links_take, Function.update_self]
    exact (Multiset.cons_inj_right _).1 hentries
  · refine exists_dotdot_set hrows.dotdot hk fun b hb hb' => ⟨b, ?_, hb'⟩
    rw [hes, List.mem_append, List.mem_cons] at hb
    rw [hes', List.mem_append]
    rcases hb with hb | rfl | hb
    · exact .inl hb
    · exact absurd (hname.symm.trans hb') hproper.2
    · exact .inr hb
  · intro l' hl'
    rw [Names.links_take, Function.update_self] at hl'
    exact hrows.proper l' (Multiset.mem_of_mem_erase hl')

/-- The `..` entry of a directory is pointed elsewhere. -/
theorem View.Shows.endsOn_updateDotdot (h : v.Shows A) (hs : v.Sound) (hi : v.inodes ino = some inode)
    (hdir : inode.isDir = true) {directory : Inode}
    (hpointer : (Root.direct 0).pointer directory = (Root.direct 0).pointer inode)
    (hparent : 0 < parent ∧ parent < 2 ^ 64) :
    EndsOn AlbumFs.view (AlbumFs.updateDotdot directory parent) v
      (fun _ w => w.Sound ∧ w.sb = v.sb ∧ w.inodes = v.inodes ∧ w.Shows (A.reparent ino parent)) fun _ _ => False := by
  obtain ⟨dir, hlists, hrows⟩ := (h ino).exists_rows inode hi hdir
  obtain ⟨es, hes, hdotdot⟩ := hrows.dotdot
  refine (AlbumFs.endsOn_updateDotdot_found hs hlists hi hpointer hes hdotdot hparent.1 hparent.2).mono ?_
    fun _ _ hf => hf
  rintro _ w ⟨s, b, payload, es', before, a, after, hslot, hown, rfl, hedits, hlists', hlive, hname, hlive'⟩
  obtain ⟨rest, rfl⟩ : ∃ rest, dir = es :: rest := by
    cases dir with
    | nil => cases hes
    | cons row rest => exact ⟨rest, by rw [Option.some.inj hes]⟩
  have hmem : a ∈ dirEntries (es :: rest) :=
    List.mem_flatMap.2 ⟨es, List.mem_cons_self, by rw [hlive]; simp⟩
  obtain rfl : a = (A.parent ino, "..", FILE_TYPE_DIR) := by
    rcases hrows.mem_iff.1 hmem with hdots | ⟨l, hl, rfl⟩
    · rcases mem_dots.1 hdots with rfl | rfl
      · exact absurd hname (show "." ≠ ".." by decide)
      · rfl
    · exact absurd hname (hrows.proper l hl).2
  have hcons : ∀ row : List DirEntry, (dirEntries (row :: rest) : Multiset Entry) =
      (liveEntries row : Multiset Entry) + (dirEntries rest : Multiset Entry) := fun _ => rfl
  have hold := hrows.entries_eq
  have hmiddle : ∀ b : Entry, ((before ++ b :: after : List Entry) : Multiset Entry) =
      b ::ₘ ((before ++ after : List Entry) : Multiset Entry) := fun b => by
    rw [Multiset.cons_coe]
    exact Multiset.coe_eq_coe.2 List.perm_middle
  rw [hcons, hlive, hmiddle, dots, Multiset.insert_eq_cons, Multiset.cons_add, Multiset.cons_add, Multiset.singleton_add,
    Multiset.cons_swap, Multiset.cons_inj_right] at hold
  refine ⟨hs.setData hown (isLeaf_of_dataSlot hslot).1 payload, rfl, rfl, h.of_elsewhere
    (hedits.sameElsewhere (isLeaf_of_dataSlot hslot).2 fun _ _ => rfl) (fun j hj => ⟨rfl, ?_, rfl⟩)
    ⟨(h ino).node_eq, (h ino).kind, fun i _ _ => ⟨_, hlists', ?_, ?_, hrows.proper⟩⟩⟩
  · rw [Names.parent_reparent, Function.update_of_ne hj]
  · rw [List.set_cons_zero, hcons, hlive', hmiddle, Names.parent_reparent, Function.update_self, Names.links_reparent,
      dots, Multiset.insert_eq_cons, Multiset.cons_add, Multiset.cons_add, Multiset.singleton_add,
      Multiset.cons_swap, Multiset.cons_inj_right]
    exact hold
  · exact ⟨es', rfl, (parent, "..", FILE_TYPE_DIR), by rw [hlive']; simp, rfl⟩

/-- An inode is freed with its blocks. -/
theorem View.Shows.dropped (h : v.Shows A) (hdropped : AlbumFs.Dropped v ino inode w) (hm : Mapped v ino inode) :
    w.Shows (A.drop ino) := by
  obtain ⟨hsame, hnone⟩ := hdropped.sameElsewhere hm
  refine h.of_elsewhere hsame (fun j hj => ⟨?_, rfl, rfl⟩) ⟨?_, fun i hi => ?_, fun i hi => ?_⟩
  · rw [Names.node_drop, Function.update_of_ne hj]
  · rw [Names.node_drop, Function.update_self, hnone]
    rfl
  · rw [hnone] at hi
    cases hi
  · rw [hnone] at hi
    cases hi

/-- What happens to a file does not show. -/
theorem View.Shows.of_file (h : v.Shows A) (hsame : SameElsewhere ino v w) (hi : v.inodes ino = some inode)
    (hdir : inode.isDir = false) (hw : w.inodes ino = some inode') (hmode : inode'.mode = inode.mode)
    (hnlink : inode'.nlink = inode.nlink) : w.Shows A := by
  have hdir' : inode'.isDir = inode.isDir := by rw [Inode.isDir, hmode, Inode.isDir]
  refine h.of_elsewhere hsame (fun _ _ => ⟨rfl, rfl, rfl⟩) ⟨?_, fun i hi' => ?_, fun i hi' hdir'' => ?_⟩
  · rw [h.node_of_inode hi, hw, Option.map_some, hdir', hnlink]
  · rw [hw, Option.some.injEq] at hi'
    rw [← hi', hmode]
    exact (h ino).kind inode hi
  · rw [hw, Option.some.injEq] at hi'
    rw [← hi', hdir', hdir] at hdir''
    cases hdir''

/-- Nothing shows when no inode and no contents have changed. -/
theorem View.Shows.of_same (h : v.Shows A) (hinodes : w.inodes = v.inodes)
    (hpayload : ∀ t : Slot, t.IsLeaf → w.payload t = v.payload t) : w.Shows A := fun j =>
  (h j).congr (congrFun hinodes j) (fun t ht _ => hpayload t ht) rfl rfl rfl

end Steps

/-! ### Files -/

namespace AlbumFs

variable {v w : View} {ino : Nat} {A : Names Nat String} {offset newSize : UInt64} {data : List UInt8}

theorem Written.shows (h : Written v ino offset data w) (hv : v.Shows A) : w.Shows A := by
  obtain ⟨inode, inode', u, time, hi, hdir, hmode, -, hwrote, rfl⟩ := h
  have hattributes := hwrote.grows.attributes_eq
  generalize hstored : Inode.touched (if offset.toNat + data.length > inode'.size.toNat then
    { inode' with size := UInt64.ofNat (offset.toNat + data.length) } else inode') time = stored
  have hp : ∀ r : Root, r.pointer stored = r.pointer inode' := hstored ▸ pointer_written _ _ _ _
  have hmode' : stored.mode = inode.mode := by
    rw [← hstored, Inode.mode_touched, apply_ite Inode.mode, ite_self, Inode.mode_eq hattributes]
  have hnlink : stored.nlink = inode.nlink := by
    rw [← hstored, Inode.touched, apply_ite Inode.nlink, ite_self, Inode.nlink_eq hattributes]
  have hne : stored.mode ≠ 0 := hmode' ▸ hmode
  refine hv.of_file (sameElsewhere_store hwrote.grows.inodes_eq hne hp
    (fun t ht => hwrote.grows.own_of_ne ino_of_mem_slotsOver ht) fun t ht hino => ?_) hi hdir ?_ hmode' hnlink
  · rw [hwrote.content_eq t ht hino, View.content_of_ne hino]
  · rw [View.inodes_setInode, Function.update_self, Inode.live_of_ne hne]

theorem Truncated.shows (h : Truncated v ino newSize w) (hs : v.Sound) (hv : v.Shows A) : w.Shows A := by
  obtain ⟨inode, inode', u, time, hi, hdir, hmode, htrim, rfl⟩ := h
  have hpointer := pointer_truncated inode' newSize time
  have hstored : ∀ hne : inode'.mode ≠ 0, (u.setInode ino ({ inode' with size := newSize }.touched time)).inodes ino =
      some ({ inode' with size := newSize }.touched time) := fun hne => by
    rw [View.inodes_setInode, Function.update_self]
    exact Inode.live_of_ne hne
  rcases htrim with ⟨-, v', hremoved, hgrows, -, hcontent⟩ | ⟨-, rfl, rfl⟩
  · have hattributes := hremoved.shrinks.attributes_eq
    have hne : inode'.mode ≠ 0 := Inode.mode_eq hattributes ▸ hmode
    refine hv.of_file (sameElsewhere_store (hgrows.inodes_eq.trans hremoved.shrinks.inodes_eq) hne hpointer
      (fun t ht => ?_) fun t ht hino => ?_) hi hdir (hstored hne) (Inode.mode_eq hattributes :)
      (Inode.nlink_eq hattributes :)
    · rw [hgrows.own_of_not_mem t (by simp), hremoved.own_of_ne ht]
    · rw [hcontent t ht hino, hremoved.shrinks.content_eq (hs.mapped hi) ht
        (hremoved.kept_leaf ht fun h => absurd h hino), View.content_of_ne hino]
  · exact hv.of_file (sameElsewhere_store rfl hmode hpointer (fun t ht => View.ownWith_of_ne ht)
      fun t _ hino => View.content_of_ne hino) hi hdir (hstored hmode) rfl rfl

theorem WriteHalted.shows (h : WriteHalted v ino offset data w) (hs : v.Sound) (hv : v.Shows A) : w.Shows A := by
  obtain ⟨inode, n, u, i, before, i', hi, hdir, -, hwrote, hc, hg, -⟩ := h.exists_copy hs
  have hinodes := h.inodes_eq hs
  refine hv.of_file ⟨fun j _ => congrFun hinodes j, fun t ht hino => View.payload_congr (h.own_of_ne hs hino) ?_⟩ hi hdir
    (by rw [hinodes, hi]) rfl rfl
  rw [← (View.content_of_ne hino : w.content ino i' t = w.blockOf t), hc t ht, hwrote.content_eq t ht hino,
    View.content_of_ne hino]

/-- An operation that ran out of room for a block of a directory. -/
theorem AddHalted.shows (h : AddHalted v ino w) (hs : v.Sound) (hv : v.Shows A) : w.Shows A :=
  hv.of_same h.inodes_eq fun _ ht => h.payload_eq hs ht

end AlbumFs

end AlbumFS
