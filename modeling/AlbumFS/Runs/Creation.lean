import AlbumFS.Runs.Counts

/-!
# Creations that fail

`create` and `mkdir` store the new inode before they add the entry to the directory. When the entry cannot
be added, since the name is too long or there is no room for another block of the directory, the inode
stays in use, and no entry leads to it. So a creation that fails leaves no trace if and only if it fails
before it takes an inode.

## Main definitions

* `NoTrace`: what is in use and what the directories list are as they were.
* `TakesInode`: the name is not there and an inode number is free.

## Main results

* `Reachable.no_trace_iff`: when a creation that fails leaves no trace.
-/

namespace AlbumFS

open Prog

/-- The inodes in use, the free blocks and the listings are as they were. -/
def NoTrace (fs fs' : AlbumFs Disk) : Prop :=
  (exec AlbumFs.usedInodes fs').1 = (exec AlbumFs.usedInodes fs).1 ∧ fs'.freeBlocks = fs.freeBlocks ∧
    ∀ ino, (exec (AlbumFs.readdir ino) fs').1 = (exec (AlbumFs.readdir ino) fs).1

/-- The directory has no entry of the name, and there is an inode number that is not in use. -/
def TakesInode (fs : AlbumFs Disk) (parentIno : Nat) (name : String) : Prop :=
  (exec (AlbumFs.lookup parentIno name) fs).1 = .ok none ∧
    ∃ ino, 0 < ino ∧ ino ≤ fs.sb.inodeCount.toNat ∧ (exec (AlbumFs.getattr ino) fs).1 = .error .notFound

/-- A block of the data region is free. -/
def HasFreeBlock (fs : AlbumFs Disk) : Prop :=
  ∃ b, fs.sb.dataStart.toNat ≤ b ∧ b < fs.sb.totalBlocks.toNat ∧ fs.bitmap.isSet b = false

section LiveInodes

variable {v w : View} {parentIno ino : Nat} {name : String} {mode : UInt32} {fileType : UInt8}

theorem View.mem_liveInodes : ino ∈ v.liveInodes ↔ v.ValidIno ino ∧ v.inodes ino ≠ none := by
  rw [liveInodes, Finset.mem_filter, Finset.mem_Ico, ValidIno, Nat.lt_succ_iff]
  rfl

/-- An inode that is stored under a number of its own. -/
theorem View.liveInodes_update {inode : Inode} (hsb : w.sb = v.sb)
    (hinodes : w.inodes = Function.update v.inodes ino (some inode)) (hvalid : v.ValidIno ino) :
    w.liveInodes = insert ino v.liveInodes := by
  ext j
  rw [Finset.mem_insert, mem_liveInodes, mem_liveInodes, hinodes, ValidIno, hsb, ← ValidIno]
  by_cases hj : j = ino
  · subst hj
    rw [Function.update_self]
    exact iff_of_true ⟨hvalid, Option.some_ne_none _⟩ (.inl rfl)
  · rw [Function.update_of_ne hj]
    exact (or_iff_right hj).symm

/-- An inode that is stored in the place of another. -/
theorem View.liveInodes_of_mem {inode : Inode} (hsb : w.sb = v.sb)
    (hinodes : w.inodes = Function.update v.inodes ino (some inode)) (hmem : ino ∈ v.liveInodes) :
    w.liveInodes = v.liveInodes := by
  rw [liveInodes_update hsb hinodes (mem_liveInodes.1 hmem).1, Finset.insert_eq_of_mem hmem]

theorem View.liveInodes_setInode {inode : Inode} (hmem : ino ∈ v.liveInodes) (hmode : inode.mode ≠ 0) :
    (v.setInode ino inode).liveInodes = v.liveInodes :=
  liveInodes_of_mem rfl (by rw [inodes_setInode, Inode.live_of_ne hmode]) hmem

namespace AlbumFs

theorem card_liveInodes_new {inode : Inode} (hino : v.allocInode = .ok ino) (hsb : w.sb = v.sb)
    (hinodes : w.inodes = Function.update v.inodes ino (some inode)) :
    w.liveInodes.card = v.liveInodes.card + 1 := by
  obtain ⟨hvalid, hnone, -⟩ := View.allocInode_ok hino
  rw [View.liveInodes_update hsb hinodes hvalid, Finset.card_insert_of_notMem fun hmem =>
    (View.mem_liveInodes.1 hmem).2 hnone]

theorem Added.liveInodes_eq (h : Added v parentIno ino name fileType w)
    (hvalid : ∀ i inode, v.inodes i = some inode → v.ValidIno i) : w.liveInodes = v.liveInodes := by
  obtain ⟨parent, parent', hparent, -, hinodes, -⟩ := h.inodes_eq
  have hsb : w.sb = v.sb := by
    cases h with
    | insert => rfl
    | grow hparent hdir hscan hs hown hgrows hcontent hput => exact hgrows.sb_eq
  refine View.liveInodes_of_mem hsb hinodes (View.mem_liveInodes.2 ⟨hvalid parentIno parent hparent, ?_⟩)
  rw [hparent]
  exact Option.some_ne_none _

theorem AddHalted.liveInodes_eq (h : AddHalted v parentIno w) : w.liveInodes = v.liveInodes := by
  obtain ⟨parent, -, -, before, s, rest, i', -, hg, -⟩ := h
  ext j
  rw [View.mem_liveInodes, View.mem_liveInodes, View.ValidIno, hg.sb_eq, hg.inodes_eq, View.ValidIno]

/-- Adding an entry changes no number of inodes, whether it succeeds or fails. -/
theorem endsOn_addDirEntry_live (h : v.Sound) (parentIno new : Nat) (name : String) (fileType : UInt8) :
    EndsOn view (addDirEntry parentIno new name fileType) v
      (fun _ w => Added v parentIno new name fileType w ∧ w.liveInodes = v.liveInodes)
      fun _ w => w.liveInodes = v.liveInodes := by
  refine endsOn_of_live fun hlive => ((endsOn_addDirEntry h parentIno new name fileType).and
    (endsOn_addDirEntry_halted h parentIno new name fileType)).mono ?_ ?_
  · exact fun _ w hw => ⟨hw.1, hw.1.liveInodes_eq fun i inode hi => (hlive i inode hi).1⟩
  · rintro _ w ⟨-, rfl | hhalted⟩
    · rfl
    · exact hhalted.liveInodes_eq

/-- A creation that fails has changed nothing, or it has taken an inode that stays. -/
theorem endsOn_create_live (hs : v.Sound) (parentIno : Nat) (name : String) (mode : UInt32) :
    EndsOn view (create parentIno name mode) v (fun _ _ => True) fun _ w =>
      w = v ∧ ¬TakesInode v parentIno name ∨
        TakesInode v parentIno name ∧ w.liveInodes.card = v.liveInodes.card + 1 := by
  refine (endsOn_create_of hs (Q := fun _ w => TakesInode v parentIno name ∧
    w.liveInodes.card = v.liveInodes.card + 1) (E := fun w => TakesInode v parentIno name ∧
    w.liveInodes.card = v.liveInodes.card + 1) fun ino u hmade => ?_).mono (fun _ _ _ => trivial) ?_
  · have hsound := hmade.sound hs
    obtain ⟨hlookup, hino, time, rfl⟩ := hmade
    have hvalid := View.allocInode_ok hino
    have hmode := mode_fileInode mode time
    have hcard := card_liveInodes_new (w := v.setInode ino (fileInode mode time)) hino rfl
      (by rw [View.inodes_setInode, Inode.live_of_ne hmode])
    have htakes : TakesInode v parentIno name := ⟨hlookup, ino, hvalid.1, hvalid.2.1⟩
    refine (endsOn_addDirEntry_live hsound parentIno ino name FILE_TYPE_FILE).mono ?_ ?_
    · exact fun _ w hw => ⟨(hw.1.sound hsound).geometry, htakes, by rw [hw.2, hcard]⟩
    · exact fun _ w hw => ⟨htakes, by rw [hw, hcard]⟩
  · rintro _ w (hw | hw | ⟨_, hw⟩)
    · exact .inl hw
    · exact .inr hw
    · exact .inr hw

theorem endsOn_mkdir_live (hs : v.Sound) (parentIno : Nat) (name : String) (mode : UInt32) :
    EndsOn view (mkdir parentIno name mode) v (fun _ _ => True) fun _ w =>
      w = v ∧ ¬(TakesInode v parentIno name ∧ ∃ b, v.InData b ∧ v.bitmap.isSet b = false) ∨
        (TakesInode v parentIno name ∧ ∃ b, v.InData b ∧ v.bitmap.isSet b = false) ∧
          w.liveInodes.card = v.liveInodes.card + 1 := by
  refine endsOn_of_live fun hlive => (endsOn_mkdir_of hs
    (Q := fun _ w => (TakesInode v parentIno name ∧ ∃ b, v.InData b ∧ v.bitmap.isSet b = false) ∧
      w.liveInodes.card = v.liveInodes.card + 1)
    (E := fun w => (TakesInode v parentIno name ∧ ∃ b, v.InData b ∧ v.bitmap.isSet b = false) ∧
      w.liveInodes.card = v.liveInodes.card + 1) fun ino time u hmade => ?_).mono (fun _ _ _ => trivial) ?_
  · have hsound := hmade.sound hs
    obtain ⟨hlookup, hino, block, payload, hin, hfree, -, hu⟩ := hmade
    have hvalid := View.allocInode_ok hino
    have hmode := Inode.mode_ne_zero _ (isDir_dirInode mode time block)
    have hsb : u.sb = v.sb := by
      rw [hu]
      rfl
    have hinodes : u.inodes = Function.update v.inodes ino (some (dirInode mode time block)) := by
      rw [hu, View.inodes_setInode, Inode.live_of_ne hmode]
      rfl
    have hcard := card_liveInodes_new hino hsb hinodes
    have htakes : TakesInode v parentIno name ∧ ∃ b, v.InData b ∧ v.bitmap.isSet b = false :=
      ⟨⟨hlookup, ino, hvalid.1, hvalid.2.1⟩, block, hin, hfree⟩
    refine (endsOn_addDirEntry_live hsound parentIno ino name FILE_TYPE_DIR).mono ?_ ?_
    · rintro _ w ⟨hadded, hlive'⟩
      refine ⟨(hadded.sound hsound).geometry, ⟨htakes, by rw [hlive', hcard]⟩, fun parent hparent =>
        ⟨htakes, ?_⟩⟩
      obtain ⟨stored, hstored, -⟩ := View.parent_of_lookup hlookup
      have hparentMem : parentIno ∈ w.liveInodes := by
        rw [hlive', View.liveInodes_update hsb hinodes hvalid.1]
        refine Finset.mem_insert_of_mem (View.mem_liveInodes.2 ⟨(hlive _ _ hstored).1, ?_⟩)
        rw [hstored]
        exact Option.some_ne_none _
      have hpmode : parent.mode ≠ 0 := by
        obtain ⟨_, new, -, hdir, hinodes, hmode', -⟩ := hadded.inodes_eq
        rw [hinodes, Function.update_self, Option.some.injEq] at hparent
        rw [← hparent, hmode']
        exact Inode.mode_ne_zero _ hdir
      have hkeep := View.liveInodes_setInode (v := w) hparentMem (show Inode.mode
        { parent with nlink := parent.nlink + 1, mtime := time, ctime := time } ≠ 0 from hpmode)
      rw [hkeep, hlive', hcard]
    · exact fun _ w hw => ⟨htakes, by rw [hw, hcard]⟩
  · rintro _ w (hw | hw | ⟨_, hw⟩)
    · exact .inl hw
    · exact .inr hw
    · exact .inr hw

end AlbumFs

end LiveInodes

section Traces

variable {fs fs' : AlbumFs Disk} {parentIno : Nat} {name : String}

theorem takesInode_iff (hs : fs.view.Sound) :
    TakesInode fs parentIno name ↔ AlbumFs.TakesInode fs.view parentIno name := by
  rw [TakesInode, AlbumFs.TakesInode, AlbumFs.reads_lookup hs parentIno name fs rfl]
  refine and_congr_right fun _ => exists_congr fun ino => ?_
  rw [AlbumFs.reads_getattr hs.geometry ino fs rfl, ← and_assoc]
  refine and_congr_right fun _ => ⟨fun hget => ?_, fun hnone => View.getattr_of_none hnone⟩
  cases hi : fs.view.inodes ino with
  | none => rfl
  | some inode =>
    rw [View.getattr_of_some hi] at hget
    cases hget

theorem hasFreeBlock_iff (hs : fs.view.Sound) :
    HasFreeBlock fs ↔ ∃ b, fs.view.InData b ∧ fs.view.bitmap.isSet b = false := by
  have htotal : fs.view.total = fs.sb.totalBlocks.toNat := hs.geometry.sb_totalBlocks_eq.symm
  refine exists_congr fun b => ?_
  rw [View.InData, htotal, and_assoc]
  rfl

/-- What depends on the view alone. -/
theorem noTrace_of_view (hs : fs.view.Sound) (hview : fs'.view = fs.view) : NoTrace fs fs' := by
  have hbitmap : fs'.bitmap = fs.bitmap := congrArg View.bitmap hview
  refine ⟨?_, congrArg Bitmap.countFree hbitmap, fun ino => ?_⟩
  · rw [AlbumFs.reads_usedInodes hs.geometry fs rfl, AlbumFs.reads_usedInodes hs.geometry fs' hview]
  · rw [AlbumFs.reads_readdir hs ino fs rfl, AlbumFs.reads_readdir hs ino fs' hview]

/-- The number of inodes in use tells that an inode was taken. -/
theorem not_noTrace_of_card (hs : fs.view.Sound) (hs' : fs'.view.Sound)
    (hcard : fs'.view.liveInodes.card = fs.view.liveInodes.card + 1) : ¬NoTrace fs fs' := by
  rintro ⟨hused, -⟩
  rw [AlbumFs.reads_usedInodes hs.geometry fs rfl, AlbumFs.reads_usedInodes hs'.geometry fs' rfl, hcard,
    Except.ok.injEq] at hused
  exact Nat.succ_ne_self _ hused

/-- An operation that fails and whose outcome is thrown away. -/
theorem sound_of_failed {α : Type} {m : FsM Disk α} {o : Op} {e : FsError}
    (hrun : o.run = (do let _ ← m : FsM Disk Unit)) (hs : fs.view.Sound)
    (hfail : exec m fs = (.error e, fs')) : fs'.view.Sound := by
  have hsound := o.sound_run hs
  rwa [hrun, exec_bind, hfail] at hsound

/-- A creation that fails leaves no trace if and only if it fails before it takes an inode. -/
theorem Reachable.no_trace_iff (h : Reachable fs) (parentIno : Nat) (name : String) (mode : UInt32) :
    (∀ e fs', exec (AlbumFs.create parentIno name mode) fs = (.error e, fs') →
      (NoTrace fs fs' ↔ ¬TakesInode fs parentIno name)) ∧
    ∀ e fs', exec (AlbumFs.mkdir parentIno name mode) fs = (.error e, fs') →
      (NoTrace fs fs' ↔ ¬(TakesInode fs parentIno name ∧ HasFreeBlock fs)) := by
  have hs := h.sound
  rw [takesInode_iff hs, hasFreeBlock_iff hs]
  refine ⟨fun e fs' hfail => ?_, fun e fs' hfail => ?_⟩
  · have hs' := sound_of_failed (o := .create parentIno name mode) rfl hs hfail
    rcases (AlbumFs.endsOn_create_live hs parentIno name mode).of_error hfail with
      ⟨hview, hnot⟩ | ⟨htakes, hcard⟩
    · exact iff_of_true (noTrace_of_view hs hview) hnot
    · exact iff_of_false (not_noTrace_of_card hs hs' hcard) (not_not_intro htakes)
  · have hs' := sound_of_failed (o := .mkdir parentIno name mode) rfl hs hfail
    rcases (AlbumFs.endsOn_mkdir_live hs parentIno name mode).of_error hfail with
      ⟨hview, hnot⟩ | ⟨htakes, hcard⟩
    · exact iff_of_true (noTrace_of_view hs hview) hnot
    · exact iff_of_false (not_noTrace_of_card hs hs' hcard) (not_not_intro htakes)

end Traces

/-- A name of 256 bytes. -/
def longName : String := String.ofList (List.replicate 256 'a')

/-- The entry cannot be added, and the inode stays. -/
theorem create_longName :
    (exec (AlbumFs.create 1 longName 0o644) smallPool).1 = .error .noSpace ∧
    (exec (AlbumFs.getattr 2) smallPool).1.map Inode.isDir = .error .notFound ∧
    (exec (AlbumFs.getattr 2) (exec (AlbumFs.create 1 longName 0o644) smallPool).2).1.map Inode.isDir =
      .ok false := by
  decide +kernel

/-- The theorem on the small pool, where a creation fails. -/
theorem Reachable.no_trace_iff_smallPool :
    exec (AlbumFs.create 1 longName 0o644) smallPool =
      (.error .noSpace, (exec (AlbumFs.create 1 longName 0o644) smallPool).2) ∧
    (NoTrace smallPool (exec (AlbumFs.create 1 longName 0o644) smallPool).2 ↔
      ¬TakesInode smallPool 1 longName) :=
  have hfail := exec_eq_of_fst create_longName.1
  ⟨hfail, ((Reachable.formatted formatted_smallPool).no_trace_iff 1 longName 0o644).1 _ _ hfail⟩

/-- A file with a name that is too long is not created, and its inode is taken all the same. -/
theorem not_noTrace_smallPool :
    ∃ fs fs' e, Reachable fs ∧ exec (AlbumFs.create 1 longName 0o644) fs = (.error e, fs') ∧
      ¬NoTrace fs fs' := by
  obtain ⟨hcreate, hbefore, hafter⟩ := create_longName
  have hfail := exec_eq_of_fst hcreate
  have hs := formatted_smallPool.fresh.sound
  refine ⟨smallPool, _, _, .formatted formatted_smallPool, hfail, ?_⟩
  have hs' := sound_of_failed (o := .create 1 longName 0o644) rfl hs hfail
  rcases (AlbumFs.endsOn_create_live hs 1 longName 0o644).of_error hfail with ⟨hview, -⟩ | ⟨-, hcard⟩
  · rw [AlbumFs.reads_getattr hs.geometry 2 _ hview] at hafter
    rw [AlbumFs.reads_getattr hs.geometry 2 _ rfl] at hbefore
    cases hbefore.symm.trans hafter
  · exact not_noTrace_of_card hs hs' hcard

end AlbumFS
