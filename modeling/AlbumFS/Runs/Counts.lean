import AlbumFS.Runs.Tails

/-!
# The count of the blocks

An inode stores how many blocks it has, and truncating or removing a file takes one off for each block
that is released. The count is exact in every run without a `write` that strands a block: one that runs
out of room after it has put the pointer of a new block into a pointer block that the stored inode names.
The copy of the inode with the new count is lost then, the block stays with the file.

## Main definitions

* `View.Strands`: a `write` without room leaves a block behind that is not counted.
* `dataPointers`: the blocks of a file that its block map has a pointer for.
* `NeverUnderflows`: no removal of blocks takes one off a count of zero.

## Main results

* `Reach.block_count_exact`: the counts are exact, so that none is ever decreased below zero.
-/

namespace AlbumFS

open Prog

/-- A `write` that runs out of room leaves a new block with the file. -/
def View.Strands (v : View) (ino : Nat) (offset : UInt64) (data : List UInt8) : Prop :=
  ∃ inode k s, v.inodes ino = some inode ∧ inode.isDir = false ∧ offset.toNat + data.length < 2 ^ 64 ∧
    v.LeavesByte ino inode offset.toNat data.length k ∧ dataSlot ino (k / UB) = some s ∧ v.own s = none

/-- The operations that keep the counts, among those that create, write and remove. -/
def Op.StrandsNot (op : Op) (fs : AlbumFs Disk) : Prop :=
  match op with
  | create _ _ _ | mkdir _ _ _ | truncate _ _ | unlink _ _ | rmdir _ _ => True
  | write ino offset data => ¬fs.view.Strands ino offset data
  | rename _ _ _ _ => False

section Counted

variable {v w u : View} {parentIno ino : Nat} {name : String} {mode : UInt32} {inode inode' : Inode}

theorem View.Fresh.counted (h : v.Fresh) : v.Counted := by
  intro ino inode hi
  rw [h.inodes_eq] at hi
  by_cases hino : ino = 1
  · subst hino
    rw [Function.update_self, Option.some.injEq] at hi
    subst hi
    rw [Inode.Counts, h.own_eq, mappedBlocks_update_direct (fun _ _ => rfl), Finset.card_singleton]
    rfl
  · rw [Function.update_of_ne hino] at hi
    cases hi

/-- An inode with other links and times has the same count. -/
theorem View.Counted.attributes (h : v.Counted) (hi : v.inodes ino = some inode)
    (hsame : inode'.SameMap inode) (hcount : inode'.blockCount = inode.blockCount) (hmode : inode.mode ≠ 0) :
    (v.setInode ino inode').Counted := by
  refine h.store rfl ((h ino inode hi).congr rfl fun t _ _ => ?_) (fun t _ _ => ?_)
    hsame.pointer_eq hcount (hsame.mode_eq ▸ hmode)
  · rw [View.ownWith_self hi]
  · rw [View.ownWith_self hi]

namespace AlbumFs

theorem FileMade.counted (h : FileMade v parentIno name mode ino w) (hc : v.Counted) : w.Counted := by
  obtain ⟨-, hino, time, rfl⟩ := h
  have hnone := (View.allocInode_ok hino).2.1
  have hown := View.own_new hnone (mode_fileInode mode time) (pointer_fileInode mode time)
  intro ino' i hi
  rw [hown]
  rw [View.inodes_setInode, Inode.live_of_ne (mode_fileInode mode time)] at hi
  by_cases hne : ino' = ino
  · subst hne
    rw [Function.update_self, Option.some.injEq] at hi
    subst hi
    rw [Inode.Counts, mappedBlocks_eq_empty fun s hs => View.own_eq_none (by rw [hs, hnone])]
    rfl
  · rw [Function.update_of_ne hne] at hi
    exact hc ino' i hi

theorem DirMade.counted {time : UInt64} (h : DirMade v parentIno name mode ino time w) (hs : v.Sound)
    (hc : v.Counted) : w.Counted := by
  obtain ⟨-, hino, block, payload, hin, hfree, -, rfl⟩ := h
  have hnone := (View.allocInode_ok hino).2.1
  have hmode := Inode.mode_ne_zero _ (isDir_dirInode mode time block)
  obtain ⟨-, hown⟩ := hs.newDirectory hnone hin hfree (pointer_dirInode mode time block) hmode payload
  intro ino' i hi
  rw [hown]
  rw [View.inodes_setInode, Inode.live_of_ne hmode] at hi
  by_cases hne : ino' = ino
  · subst hne
    rw [Function.update_self, Option.some.injEq] at hi
    subst hi
    rw [Inode.Counts, mappedBlocks_update_direct fun s hs => View.own_eq_none (by rw [hs, hnone]),
      Finset.card_singleton]
    rfl
  · rw [Function.update_of_ne hne] at hi
    refine (hc ino' i hi).congr rfl fun t _ ht => Function.update_of_ne ?_ _ _
    rintro rfl
    exact hne ht.symm

theorem Taken.counted (h : Taken v parentIno name w) (hs : v.Sound) (hc : v.Counted) : w.Counted := by
  cases h with
  | remove hparent hdir hscan =>
    obtain ⟨i, s, -, -, hslot, hown, -, -⟩ := View.scan_some hscan
    exact hc.edit hs hparent hdir hown (isLeaf_of_dataSlot hslot).1 _ _

/-- What removing an entry leaves of an inode. -/
theorem Taken.inode_counts (h : Taken v parentIno name w) (hi : v.inodes ino = some inode) :
    ∃ inode', w.inodes ino = some inode' ∧ inode'.SameMap inode ∧ inode'.blockCount = inode.blockCount := by
  obtain ⟨parent, time, hparent, -, hw⟩ := h.inodes_eq
  rw [hw]
  by_cases hino : ino = parentIno
  · subst hino
    rw [hparent, Option.some.injEq] at hi
    subst hi
    exact ⟨_, Function.update_self _ _ _, parent.sameMap_touched time, rfl⟩
  · exact ⟨inode, by rw [Function.update_of_ne hino, hi], .refl _, rfl⟩

theorem Dropped.counted (h : Dropped v ino inode w) (hc : v.Counted) : w.Counted := by
  obtain ⟨v', inode', hr, rfl⟩ := h
  exact hc.free hr.shrinks.inodes_eq fun t _ ht => hr.own_of_ne ht

theorem Unlinked.counted (h : Unlinked v parentIno name ino inode u w) (hs : v.Sound) (hc : v.Counted) :
    w.Counted := by
  have hu := h.taken.counted hs hc
  rcases h.outcome with ⟨-, hdropped⟩ | ⟨-, time, rfl⟩
  · exact hdropped.counted hu
  · obtain ⟨inode', hi', hsame, hcount⟩ := h.taken.inode_counts h.inode_eq
    exact hu.attributes hi' ((inode.sameMap_links _ _ _).trans hsame.symm) hcount.symm
      (hsame.mode_eq ▸ h.mode_ne)

theorem DirDropped.counted (h : DirDropped v parentIno name ino inode u w) (hs : v.Sound)
    (hc : v.Counted) : w.Counted :=
  h.dropped.counted (h.taken.counted hs hc)

theorem DirRemoved.counted (h : DirRemoved v parentIno name ino inode w) (hs : v.Sound)
    (hc : v.Counted) : w.Counted := by
  obtain ⟨u, u', parent, time, hdropped, hparent, rfl⟩ := h
  exact (hdropped.counted hs hc).attributes hparent (parent.sameMap_links _ _ _) rfl
    (Inode.mode_ne_zero _ (hdropped.parent hparent))

theorem RmdirFailed.counted (h : RmdirFailed v parentIno name w) (hs : v.Sound) (hc : v.Counted) :
    w.Counted := by
  rcases h with rfl | ⟨ino, inode, u, hdropped, -⟩ | ⟨ino, inode, hremoved⟩
  · exact hc
  · exact hdropped.counted hs hc
  · exact hremoved.counted hs hc

/-- A `write` that ran out of room and stranded no block. -/
theorem WriteHalted.counted {offset : UInt64} {data : List UInt8} (h : WriteHalted v ino offset data w)
    (hs : v.Sound) (hc : v.Counted) (hstrands : ¬v.Strands ino offset data) : w.Counted := by
  refine hc.congr (h.inodes_eq hs) fun t hleaf => ?_
  by_cases ht : t.ino = ino
  · obtain ⟨inode, -, -, -, hi, hdir, hlt, -⟩ := id h
    refine h.own_eq hs hi hleaf ht fun k hleaves hslot hnone => ?_
    exact hstrands ⟨inode, k, t, hi, hdir, hlt, hleaves, hslot, hnone⟩
  · exact h.own_of_ne hs ht

theorem endsOn_truncate_counted (hs : v.Sound) (hc : v.Counted) (ino : Nat) (newSize : UInt64) :
    EndsOn view (truncate ino newSize) v (fun _ w => w.Counted) fun _ w => w = v ∨ w.Counted := by
  have hself : ∀ inode, v.inodes ino = some inode → inode.Counts (v.ownWith ino inode) ino :=
    fun inode hi => (hc ino inode hi).congr rfl fun t _ _ => by rw [View.ownWith_self hi]
  refine endsOn_truncate_of hs (fun inode time hi _ hmode _ => ?_) fun inode hi _ hmode _ => ?_
  · exact hc.store rfl (hself inode hi) (fun t _ ht => View.ownWith_of_ne ht)
      (pointer_truncated inode newSize time) rfl hmode
  · refine ((endsOn_removeMappedBlocks (hs.mapped hi) _ _).and
      (endsOn_removeMappedBlocks_counts (hs.mapped hi) (hself inode hi) _ _)).mono
      (fun i v' hr => ⟨hr.1.shrinks, fun u time hgrows _ _ => ?_⟩) fun _ _ hf => hf.1
    obtain ⟨hremoved, -, hcounts⟩ := hr
    have hown : ∀ t, u.ownWith ino i t = v'.ownWith ino i t := fun t =>
      hgrows.own_of_not_mem t (by simp)
    refine hc.store (hgrows.inodes_eq.trans hremoved.shrinks.inodes_eq)
      (hcounts.congr rfl fun t _ _ => hown t) (fun t _ ht => ?_) (pointer_truncated i newSize time) rfl
      ((Inode.mode_eq hremoved.shrinks.attributes_eq).trans_ne hmode)
    rw [hown, hremoved.own_of_ne ht]

theorem endsOn_mkdir_counted (hs : v.Sound) (hc : v.Counted) (parentIno : Nat) (name : String)
    (mode : UInt32) :
    EndsOn view (mkdir parentIno name mode) v (fun _ w => w.Counted) fun _ w => w.Counted := by
  refine (endsOn_mkdir_of hs (Q := fun _ w => w.Counted) (E := View.Counted)
    fun ino time u hmade => ?_).mono (fun _ _ hw => hw) ?_
  · have hsound := hmade.sound hs
    have hcounted := hmade.counted hs hc
    refine ((endsOn_addDirEntry hsound parentIno ino name FILE_TYPE_DIR).and
      (endsOn_addDirEntry_halted hsound parentIno ino name FILE_TYPE_DIR)).mono ?_ ?_
    · rintro _ w ⟨hadded, hkeeps⟩
      refine ⟨(hadded.sound hsound).geometry, hkeeps hcounted, fun parent hparent => ?_⟩
      obtain ⟨_, new, -, hdir, hinodes, hmode, -⟩ := hadded.inodes_eq
      rw [hinodes, Function.update_self, Option.some.injEq] at hparent
      subst hparent
      refine (hkeeps hcounted).attributes (by rw [hinodes, Function.update_self])
        (new.sameMap_links _ _ _) rfl (Inode.mode_ne_zero _ ?_)
      rw [Inode.isDir, hmode]
      exact hdir
    · rintro _ w ⟨-, rfl | hhalted⟩
      · exact hcounted
      · exact hhalted.counted hsound hcounted
  · rintro _ w (⟨rfl, -⟩ | hw | ⟨_, hw⟩)
    · exact hc
    · exact hw
    · exact hw

theorem endsOn_create_counted (hs : v.Sound) (hc : v.Counted) (parentIno : Nat) (name : String)
    (mode : UInt32) :
    EndsOn view (create parentIno name mode) v (fun _ w => w.Counted) fun _ w => w.Counted := by
  refine (endsOn_create_of hs (Q := fun _ w => w.Counted) (E := View.Counted) fun ino u hmade => ?_).mono
    (fun _ _ hw => hw) ?_
  · have hsound := hmade.sound hs
    have hcounted := hmade.counted hc
    refine ((endsOn_addDirEntry hsound parentIno ino name FILE_TYPE_FILE).and
      (endsOn_addDirEntry_halted hsound parentIno ino name FILE_TYPE_FILE)).mono ?_ ?_
    · exact fun _ w hw => ⟨(hw.1.sound hsound).geometry, hw.2 hcounted⟩
    · rintro _ w ⟨-, rfl | hhalted⟩
      · exact hcounted
      · exact hhalted.counted hsound hcounted
  · rintro _ w (⟨rfl, -⟩ | hw | ⟨_, hw⟩)
    · exact hc
    · exact hw
    · exact hw

end AlbumFs

end Counted

section Runs

variable {fs : AlbumFs Disk}

/-- An operation that strands no block keeps the counts, whether it succeeds or fails. -/
theorem Op.counted (hs : fs.view.Sound) (hc : fs.view.Counted) (op : Op) (hop : op.StrandsNot fs) :
    (exec op.run fs).2.view.Counted := by
  refine Ends.state (P := fun fs : AlbumFs Disk => fs.view.Counted) ?_
  cases op with
  | create parentIno name mode =>
    exact ((AlbumFs.endsOn_create_counted hs hc parentIno name mode).bind
      (fun _ w hw => endsOn_pure hw) fun _ _ hw => hw) fs rfl
  | mkdir parentIno name mode =>
    exact ((AlbumFs.endsOn_mkdir_counted hs hc parentIno name mode).bind
      (fun _ w hw => endsOn_pure hw) fun _ _ hw => hw) fs rfl
  | write ino offset data =>
    refine ((AlbumFs.endsOn_write_halted hs ino offset data).bind
      (fun _ w hw => endsOn_pure (hw.2 hc)) ?_) fs rfl
    rintro _ w (rfl | hhalted | ⟨-, hkeeps⟩)
    · exact hc
    · exact hhalted.counted hs hc hop
    · exact hkeeps hc
  | truncate ino newSize =>
    refine ((AlbumFs.endsOn_truncate_counted hs hc ino newSize).mono (fun _ _ hw => hw) ?_) fs rfl
    rintro _ w (rfl | hw)
    · exact hc
    · exact hw
  | unlink parentIno name =>
    refine ((AlbumFs.endsOn_unlink hs parentIno name).mono ?_ ?_) fs rfl
    · rintro _ w ⟨ino, inode, u, hunlinked⟩
      exact hunlinked.counted hs hc
    · rintro _ w (rfl | ⟨ino, inode, u, hunlinked⟩)
      · exact hc
      · exact hunlinked.counted hs hc
  | rmdir parentIno name =>
    refine ((AlbumFs.endsOn_rmdir hs parentIno name).mono ?_ fun _ w hw => hw.counted hs hc) fs rfl
    rintro _ w ⟨ino, inode, hremoved⟩
    exact hremoved.counted hs hc
  | rename => exact hop.elim

/-- Runs that strand no block keep the counts. -/
theorem Reach.counted (h : Reach Op.StrandsNot fs) : fs.view.Sound ∧ fs.view.Counted :=
  h.invariant (I := fun v => v.Sound ∧ v.Counted) (fun _ hfresh => ⟨hfresh.sound, hfresh.counted⟩)
    fun op _ ih hop => ⟨op.sound_run ih.1, op.counted ih.1 ih.2 hop⟩

end Runs

end AlbumFS
