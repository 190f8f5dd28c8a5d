import AlbumFS.Ops.Files
import AlbumFS.Ops.Rename

/-!
# What the operations leave alone

The operations on names change directories, and at most one file: the one that is created, removed
or replaced. `write` and `truncate` change the file they are given. `SameFiles changed v w` says
that the files with numbers outside of `changed` have the same inodes and the same blocks in both
views, whatever happened to the directories.

## Main definitions

* `View.regular`: the inode of a live file that is not a directory.
* `View.blockOf`: the contents behind a slot.
* `SameFiles`: the files outside of a set are as they were.

## Main results

* `AlbumFs.Created.sameFiles`, `AlbumFs.DirCreated.sameFiles`, `AlbumFs.Unlinked.sameFiles`,
  `AlbumFs.DirRemoved.sameFiles`, `AlbumFs.Moved.sameFiles`, `AlbumFs.Written.sameFiles`,
  `AlbumFs.Truncated.sameFiles`.
-/

namespace AlbumFS

open BlockTree Ownership Prog

namespace View

/-- The inode of a live file that is not a directory. -/
def regular (v : View) (ino : Nat) : Option Inode := (v.inodes ino).filter fun inode => !inode.isDir

/-- The contents behind a slot of the stored inodes, zeros behind a slot that names no block. -/
def blockOf (v : View) (s : Slot) : Block :=
  match v.own s with
  | some b => v.data b
  | none => Block.zero

variable {v w : View} {ino : Nat} {inode inode' : Inode} {s : Slot}

theorem regular_eq_some_iff :
    v.regular ino = some inode ↔ v.inodes ino = some inode ∧ inode.isDir = false := by
  rw [regular, Option.filter_eq_some_iff, Bool.not_eq_true']

theorem regular_of_isDir (h : v.inodes ino = some inode) (hdir : inode.isDir = true) :
    v.regular ino = none := by
  rw [regular, h, Option.filter_some, hdir]
  rfl

theorem regular_of_none (h : v.inodes ino = none) : v.regular ino = none := by
  rw [regular, h, Option.filter_none]

theorem regular_congr (h : w.inodes ino = v.inodes ino) : w.regular ino = v.regular ino := by
  rw [regular, h, regular]

theorem file_eq_map (v : View) (ino : Nat) :
    v.file ino = (v.regular ino).map fun inode => v.bytesAt ino inode 0 inode.size.toNat := by
  unfold file regular
  cases v.inodes ino with
  | none => rfl
  | some inode => cases h : inode.isDir <;> simp [h]

theorem content_self (h : v.inodes ino = some inode) (s : Slot) :
    v.content ino inode s = v.blockOf s := by
  rw [content, ownWith_self h]
  rfl

theorem content_of_ne (h : s.ino ≠ ino) : v.content ino inode s = v.blockOf s := by
  rw [content, ownWith_of_ne h]
  rfl

theorem blockOf_setInode (hmode : inode.mode ≠ 0) (s : Slot) :
    (v.setInode ino inode).blockOf s = v.content ino inode s := by
  rw [blockOf, own_setInode hmode, content]
  rfl

theorem blockOf_setInode_default (h : s.ino ≠ ino) :
    (v.setInode ino Inode.default).blockOf s = v.blockOf s := by
  rw [blockOf, own_setInode_default, if_neg h, blockOf]
  rfl

theorem content_congr (hp : ∀ r : Root, r.pointer inode' = r.pointer inode) (s : Slot) :
    v.content ino inode' s = v.content ino inode s := by
  rw [content, ownWith_congr hp, content]

/-- The blocks of a stored file decide its bytes. -/
theorem byteAt_eq_of_blockOf (hv : v.inodes ino = some inode) (hw : w.inodes ino = some inode')
    (h : ∀ s : Slot, s.IsLeaf → s.ino = ino → w.blockOf s = v.blockOf s) (k : Nat) :
    w.byteAt ino inode' k = v.byteAt ino inode k :=
  byteAt_congr (fun s hs hino => by rw [content_self hw, content_self hv, h s hs hino]) k

end View

/-- The files with numbers outside of `changed` have the same inodes and blocks. -/
structure SameFiles (changed : Set Nat) (v w : View) : Prop where
  regular_eq : ∀ ino, ino ∉ changed → w.regular ino = v.regular ino
  blockOf_eq : ∀ s : Slot, s.IsLeaf → s.ino ∉ changed → v.regular s.ino ≠ none →
    w.blockOf s = v.blockOf s

section

variable {u v w : View} {ino b : Nat} {inode inode' inode'' : Inode} {changed changed' : Set Nat}

theorem SameFiles.refl (changed : Set Nat) (v : View) : SameFiles changed v v :=
  ⟨fun _ _ => rfl, fun _ _ _ _ => rfl⟩

theorem SameFiles.trans (h : SameFiles changed u v) (h' : SameFiles changed v w) :
    SameFiles changed u w where
  regular_eq ino hino := (h'.regular_eq ino hino).trans (h.regular_eq ino hino)
  blockOf_eq s hs hino hu := by
    rw [h'.blockOf_eq s hs hino (by rwa [h.regular_eq _ hino]), h.blockOf_eq s hs hino hu]

theorem SameFiles.mono (h : SameFiles changed v w) (hsub : changed ⊆ changed') :
    SameFiles changed' v w where
  regular_eq ino hino := h.regular_eq ino fun hmem => hino (hsub hmem)
  blockOf_eq s hs hino := h.blockOf_eq s hs fun hmem => hino (hsub hmem)

/-- What happens to a directory happens to no file. -/
theorem SameFiles.of_directory (h : SameFiles {ino} v w) (hv : v.regular ino = none)
    (hw : w.regular ino = none) : SameFiles ∅ v w where
  regular_eq ino' _ := by
    by_cases hino : ino' = ino
    · rw [hino, hv, hw]
    · exact h.regular_eq ino' hino
  blockOf_eq s hs _ hu := by
    refine h.blockOf_eq s hs ?_ hu
    rintro rfl
    exact hu hv

/-- The copy of an inode is stored; the blocks of the other inodes hold what they held. -/
theorem sameFiles_store (hinodes : w.inodes = v.inodes)
    (hc : ∀ s : Slot, s.IsLeaf → s.ino ≠ ino → w.content ino inode' s = v.content ino inode s)
    (hp : ∀ r : Root, r.pointer inode'' = r.pointer inode') (hmode : inode''.mode ≠ 0) :
    SameFiles {ino} v (w.setInode ino inode'') where
  regular_eq ino' hino := View.regular_congr (by
    rw [View.inodes_setInode, Function.update_of_ne hino, hinodes])
  blockOf_eq s hs hino _ := by
    rw [View.blockOf_setInode hmode, View.content_congr hp, hc s hs hino, View.content_of_ne hino]

/-- The inode of a directory is stored, its blocks have been written. -/
theorem sameFiles_storeDirectory (hinodes : w.inodes = v.inodes)
    (hc : ∀ s : Slot, s.IsLeaf → s.ino ≠ ino → w.content ino inode' s = v.content ino inode s)
    (hp : ∀ r : Root, r.pointer inode'' = r.pointer inode') (hi : v.inodes ino = some inode)
    (hdir : inode.isDir = true) (hdir' : inode''.isDir = true) :
    SameFiles ∅ v (w.setInode ino inode'') := by
  have hmode := Inode.mode_ne_zero _ hdir'
  refine (sameFiles_store hinodes hc hp hmode).of_directory (View.regular_of_isDir hi hdir)
    (View.regular_of_isDir ?_ hdir')
  rw [View.inodes_setInode, Function.update_self, Inode.live_of_ne hmode]

end

namespace AlbumFs

variable {u v w : View} {parentIno ino : Nat} {name : String} {fileType : UInt8}
  {mode : UInt32} {time : UInt64}

/-! ### Editing directories -/

theorem Added.sameFiles (h : Added v parentIno ino name fileType w) (hs : v.Sound) :
    SameFiles ∅ v w := by
  cases h with
  | insert hparent hdir hscan =>
    obtain ⟨i, s, -, -, hslot, hown, -, -⟩ := View.scan_some hscan
    obtain ⟨hleaf, hino⟩ := isLeaf_of_dataSlot hslot
    refine sameFiles_storeDirectory rfl (fun t _ ht => ?_) (Root.pointer_touched _ _) hparent hdir hdir
    rw [(hs.mapped hparent).content_setData hown hleaf, if_neg]
    rintro rfl
    exact ht hino
  | grow hparent hdir hscan hslot hown hgrows hcontent hput =>
    obtain ⟨hleaf, hino⟩ := isLeaf_of_dataSlot hslot
    refine sameFiles_storeDirectory hgrows.inodes_eq (fun t hleaf' ht => ?_) (Root.pointer_grown _ _)
      hparent hdir ((Inode.isDir_eq hgrows.attributes_eq).trans hdir)
    rw [hgrows.mapped.content_setData hown hleaf, if_neg, hcontent t hleaf']
    rintro rfl
    exact ht hino

theorem Taken.sameFiles (h : Taken v parentIno name w) (hs : v.Sound) : SameFiles ∅ v w := by
  cases h with
  | remove hparent hdir hscan =>
    obtain ⟨i, s, -, -, hslot, hown, -, -⟩ := View.scan_some hscan
    obtain ⟨hleaf, hino⟩ := isLeaf_of_dataSlot hslot
    refine sameFiles_storeDirectory rfl (fun t _ ht => ?_) (Root.pointer_touched _ _) hparent hdir hdir
    rw [(hs.mapped hparent).content_setData hown hleaf, if_neg]
    rintro rfl
    exact ht hino

/-- Setting the link count and the times of a directory. -/
theorem sameFiles_links {inode : Inode} (hi : v.inodes ino = some inode) (hdir : inode.isDir = true)
    (nlink : UInt32) (mtime ctime : UInt64) :
    SameFiles ∅ v (v.setInode ino { inode with nlink, mtime, ctime }) :=
  sameFiles_storeDirectory rfl (fun _ _ _ => rfl) (inode.sameMap_links nlink mtime ctime).pointer_eq
    hi hdir hdir

/-- Writing a block of a directory. -/
theorem sameFiles_setData {inode : Inode} {s : Slot} {b : Nat} (hs : v.Sound)
    (hi : v.inodes s.ino = some inode) (hdir : inode.isDir = true) (hown : v.own s = some b)
    (hleaf : s.IsLeaf) (block : Block) : SameFiles ∅ v (v.setData b block) where
  regular_eq _ _ := rfl
  blockOf_eq t _ _ ht := by
    have hts : t ≠ s := by
      rintro rfl
      exact ht (View.regular_of_isDir hi hdir)
    rw [View.blockOf, View.own_setData hs.exclusive hown hleaf, View.blockOf]
    cases hc : v.own t with
    | none => rfl
    | some c =>
      refine Function.update_of_ne ?_ _ _
      rintro rfl
      exact hts (hs.exclusive.inj hc hown)

/-! ### Creating entries -/

theorem FileMade.sameFiles (h : FileMade v parentIno name mode ino w) :
    SameFiles {ino} v w := by
  obtain ⟨-, hino, time, rfl⟩ := h
  refine ⟨fun ino' hino' => View.regular_congr ?_, fun s _ hsino _ => ?_⟩
  · rw [View.inodes_setInode, Function.update_of_ne hino']
  · rw [View.blockOf_setInode (mode_fileInode mode time), View.content_of_ne hsino]

/-- The file that was made has no bytes. -/
theorem FileMade.regular_eq (h : FileMade v parentIno name mode ino w) :
    ∃ time, w.regular ino = some (fileInode mode time) ∧
      ∀ k, w.byteAt ino (fileInode mode time) k = 0 := by
  obtain ⟨-, hino, time, rfl⟩ := h
  have hi : (v.setInode ino (fileInode mode time)).inodes ino = some (fileInode mode time) := by
    rw [View.inodes_setInode, Function.update_self, Inode.live_of_ne (mode_fileInode mode time)]
  refine ⟨time, View.regular_eq_some_iff.2 ⟨hi, isDir_fileInode mode time⟩, fun k => ?_⟩
  unfold View.byteAt
  cases hs : dataSlot ino (k / UB) with
  | none => rfl
  | some s =>
    have hnone : (v.setInode ino (fileInode mode time)).own s = none := by
      rw [View.own_new (View.allocInode_ok hino).2.1 (mode_fileInode mode time)
        (pointer_fileInode mode time)]
      exact View.own_eq_none (by rw [(isLeaf_of_dataSlot hs).2, (View.allocInode_ok hino).2.1])
    simp only [View.content, View.ownWith_self hi, hnone, Block.bytes_zero]
    rw [List.getD_eq_getElem?_getD, List.getElem?_replicate, if_pos (Nat.mod_lt k UB_pos),
      Option.getD_some]

theorem DirMade.sameFiles (h : DirMade v parentIno name mode ino time w) (hs : v.Sound) :
    SameFiles ∅ v w := by
  obtain ⟨-, hino, block, payload, hin, hfree, -, rfl⟩ := h
  have hdir := isDir_dirInode mode time block
  have hmode := Inode.mode_ne_zero _ hdir
  have hnone := (View.allocInode_ok hino).2.1
  obtain ⟨-, hown⟩ := hs.newDirectory hnone hin hfree (pointer_dirInode mode time block) hmode payload
  refine SameFiles.of_directory ⟨fun ino' hino' => View.regular_congr ?_, fun s _ hsino _ => ?_⟩
    (View.regular_of_none hnone) (View.regular_of_isDir ?_ hdir)
  · rw [View.inodes_setInode, Function.update_of_ne hino']
    rfl
  · have hne : s ≠ Slot.direct ino 0 := by
      rintro rfl
      exact hsino rfl
    rw [View.blockOf, hown, Function.update_of_ne hne, View.blockOf]
    cases hc : v.own s with
    | none => rfl
    | some c =>
      refine Function.update_of_ne ?_ _ _
      rintro rfl
      have hset := (hs.exclusive.marked hc).2
      rw [hfree] at hset
      cases hset
  · rw [View.inodes_setInode, Function.update_self, Inode.live_of_ne hmode]

/-- A new file is empty, and the others are as they were. -/
theorem Created.sameFiles (h : Created v parentIno name mode ino w) (hs : v.Sound) :
    SameFiles {ino} v w ∧ ∃ time, w.regular ino = some (fileInode mode time) ∧
      ∀ k, w.byteAt ino (fileInode mode time) k = 0 := by
  obtain ⟨u, hmade, hadded⟩ := h
  have hsame := hadded.sameFiles (hmade.sound hs)
  obtain ⟨time, hregular, hzero⟩ := hmade.regular_eq
  refine ⟨hmade.sameFiles.trans (hsame.mono (Set.empty_subset _)), time, ?_, fun k => ?_⟩
  · rw [hsame.regular_eq ino (Set.notMem_empty _), hregular]
  · have hu := (View.regular_eq_some_iff.1 hregular).1
    have hw := (View.regular_eq_some_iff.1 ((hsame.regular_eq ino (Set.notMem_empty _)).trans hregular)).1
    rw [View.byteAt_eq_of_blockOf hu hw fun s hleaf hsino => hsame.blockOf_eq s hleaf
      (Set.notMem_empty _) (by rw [hsino, hregular]; exact Option.some_ne_none _), hzero]

theorem DirCreated.sameFiles (h : DirCreated v parentIno name mode ino w) (hs : v.Sound) :
    SameFiles ∅ v w := by
  obtain ⟨time, u, u', parent, hmade, hadded, hparent, rfl⟩ := h
  have hdir : parent.isDir = true := by
    obtain ⟨old, new, -, hdir, hinodes, hmode, -⟩ := hadded.inodes_eq
    rw [hinodes, Function.update_self, Option.some.injEq] at hparent
    rw [← hparent, Inode.isDir, hmode]
    exact hdir
  exact ((hmade.sameFiles hs).trans (hadded.sameFiles (hmade.sound hs))).trans
    (sameFiles_links hparent hdir _ _ _)

/-! ### Removing entries -/

theorem Dropped.sameFiles {inode : Inode} (h : Dropped v ino inode w) (hm : Mapped v ino inode) :
    SameFiles {ino} v w ∧ w.inodes ino = none := by
  obtain ⟨v', inode', hr, rfl⟩ := h
  refine ⟨⟨fun ino' hino' => View.regular_congr ?_, fun s hleaf hsino _ => ?_⟩, ?_⟩
  · rw [View.inodes_setInode, Function.update_of_ne hino', hr.shrinks.inodes_eq]
  · rw [View.blockOf_setInode_default hsino, ← View.content_of_ne hsino,
      hr.shrinks.content_eq hm hleaf (hr.kept_leaf hleaf fun h => absurd h hsino),
      View.content_of_ne hsino]
  · rw [View.inodes_setInode, Function.update_self, Inode.live_default]

/-- The last link to a file is removed. -/
theorem Unlinked.sameFiles {inode : Inode} (h : Unlinked v parentIno name ino inode u w)
    (hs : v.Sound) (hlink : inode.nlink = 1) : SameFiles {ino} v w ∧ w.inodes ino = none := by
  have htaken := h.taken.sameFiles hs
  obtain ⟨inode', hi', hsame⟩ := h.taken.inode_eq h.inode_eq
  rcases h.outcome with ⟨-, hdrop⟩ | ⟨hne, -⟩
  · obtain ⟨hfiles, hnone⟩ := hdrop.sameFiles ((h.taken.sound hs).mapped_congr hi'
      ((inode.sameMap_links (saturatingPred inode.nlink) _ _).trans hsame.symm).pointer_eq)
    exact ⟨(htaken.mono (Set.empty_subset _)).trans hfiles, hnone⟩
  · rw [hlink] at hne
    exact absurd (by decide) hne

theorem DirRemoved.sameFiles {inode : Inode} (h : DirRemoved v parentIno name ino inode w)
    (hs : v.Sound) : SameFiles ∅ v w := by
  obtain ⟨u, u', parent, time, hdropped, hparent, rfl⟩ := h
  obtain ⟨inode', hi', hsame⟩ := hdropped.taken.inode_eq hdropped.inode_eq
  have hsound := hdropped.taken.sound hs
  obtain ⟨hfiles, hnone⟩ := hdropped.dropped.sameFiles
    (hsound.mapped_congr hi' hsame.symm.pointer_eq)
  have hregular := View.regular_of_isDir hi' (hsame.isDir_eq.trans hdropped.isDir_eq)
  exact ((hdropped.taken.sameFiles hs).trans (hfiles.of_directory hregular
    (View.regular_of_none hnone))).trans (sameFiles_links hparent (hdropped.parent hparent) _ _ _)

/-! ### Renaming -/

/-- The directories that a renaming touches are directories in each of its states. -/
theorem Moved.sameFiles_outcome {newParentIno : Nat} {newName : String} {source : Inode}
    {u₁ u₂ : View} (h : Moved v parentIno name newParentIno newName ino source u u₁ u₂ w)
    (hs : v.Sound) : SameFiles ∅ u₂ w := by
  have houtcome := h.outcome
  have hsteps₁ : Steps v u₁ := h.replaced.steps.tail (.added h.added)
  have hsteps₂ : Steps v u₂ := hsteps₁.tail (.taken h.taken)
  split_ifs at houtcome with hmove
  · obtain ⟨⟨b, payload, time, v₁, oldParent, newParent, hsome, -, hold, rfl, hnew, rfl⟩, -⟩ := houtcome
    obtain ⟨inode, hi, hdir, hroots⟩ :=
      (h.replaced.keeps.trans (h.added.keeps.trans h.taken.keeps)) source h.inode_eq
    have hown : u₂.own (Slot.direct ino 0) = some b := by
      rw [← View.ownWith_self hi, View.ownWith_direct]
      exact hroots (.direct 0) b hsome
    have holdDir : oldParent.isDir = true := by
      obtain ⟨parent, t, -, hpdir, hinodes⟩ := h.taken.inodes_eq
      rw [hinodes, Function.update_self, Option.some.injEq] at hold
      rw [← hold]
      exact hpdir
    have hnewDir : newParent.isDir = true := by
      obtain ⟨p, p', hp, hpdir, hinodes, hmode, -⟩ := h.added.inodes_eq
      have hp₁ : u₁.inodes newParentIno = some p' := by rw [hinodes, Function.update_self]
      have hkeeps : Keeps newParentIno u₁ ((u₂.setData b payload).setInode parentIno
          { oldParent with nlink := saturatingPred oldParent.nlink, mtime := time, ctime := time }) :=
        h.taken.keeps.trans (keeps_setInode (v := u₂.setData b payload) hold
          (oldParent.sameMap_links _ _ _) (Inode.mode_ne_zero _ holdDir))
      obtain ⟨p'', hp'', hdir'', -⟩ := hkeeps p' hp₁
      rw [hnew, Option.some.injEq] at hp''
      rw [hp'', hdir'', Inode.isDir, hmode]
      exact hpdir
    exact ((sameFiles_setData (s := Slot.direct ino 0) (hsteps₂.sound hs) hi (hdir.trans hmove.1) hown
      rfl payload).trans
      (sameFiles_links (v := u₂.setData b payload) hold holdDir _ _ _)).trans
      (sameFiles_links hnew hnewDir _ _ _)
  · rw [houtcome]
    exact .refl _ _

/-- A renaming changes no file but the one that it replaces. -/
theorem Moved.sameFiles {newParentIno : Nat} {newName : String} {source : Inode} {u₁ u₂ : View}
    (h : Moved v parentIno name newParentIno newName ino source u u₁ u₂ w) (hs : v.Sound) :
    SameFiles ∅ u w :=
  have hu := h.replaced.steps.sound hs
  ((h.added.sameFiles hu).trans (h.taken.sameFiles (h.added.sound hu))).trans (h.sameFiles_outcome hs)

/-! ### Changing files -/

theorem Written.sameFiles {offset : UInt64} {data : List UInt8} (h : Written v ino offset data w) :
    SameFiles {ino} v w := by
  obtain ⟨inode, inode', u, time, -, -, hmode, -, hwrote, rfl⟩ := h
  refine sameFiles_store hwrote.grows.inodes_eq hwrote.content_eq (pointer_written _ _ _ _) ?_
  rw [Inode.mode_touched, apply_ite Inode.mode, ite_self, Inode.mode_eq hwrote.grows.attributes_eq]
  exact hmode

theorem Truncated.sameFiles {newSize : UInt64} (h : Truncated v ino newSize w) (hs : v.Sound) :
    SameFiles {ino} v w := by
  obtain ⟨inode, inode', u, time, hi, -, hmode, htrim, rfl⟩ := h
  have hpointer := pointer_truncated inode' newSize time
  rcases htrim with ⟨-, v', hremoved, hgrows, -, hcontent⟩ | ⟨-, rfl, rfl⟩
  · refine sameFiles_store (hgrows.inodes_eq.trans hremoved.shrinks.inodes_eq)
      (fun s hleaf hsino => (?_ : _ = v.content ino inode s)) hpointer ?_
    · rw [hcontent s hleaf hsino, hremoved.shrinks.content_eq (hs.mapped hi) hleaf
        (hremoved.kept_leaf hleaf fun h => absurd h hsino)]
    · exact (Inode.mode_eq hremoved.shrinks.attributes_eq).trans_ne hmode
  · exact sameFiles_store rfl (fun _ _ _ => rfl) hpointer hmode

end AlbumFs

end AlbumFS
