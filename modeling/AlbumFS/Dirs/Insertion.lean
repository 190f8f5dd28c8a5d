import AlbumFS.Dirs.Listing
import AlbumFS.Runs.Contents

/-!
# Adding an entry to a directory

For every layout of the records of a directory, `add_dir_entry` adds one entry and changes nothing else: at
most one block is rewritten, or a block is appended when no block has room for the entry. When it fails, no
block of a directory has changed.

## Main definitions

* `fileBlock`: the block of a file or directory with a number.
* `IsDirectory`: the records of a directory, block by block.

## Main results

* `addDirEntry_exact`: what adding an entry does to the records and the blocks.
-/

namespace AlbumFS

open FirstFit Prog

/-- The contents of the block numbered `index` of a file or a directory, if it has this block. -/
def fileBlock (ino index : Nat) : FsM Disk (Option Block) := do
  let inode ← AlbumFs.getattr ino
  let (block, _) ← AlbumFs.bmap inode index false
  match block with
  | none => pure none
  | some block => do
    let payload ← AlbumFs.readBlock block
    pure (some payload)

/-- The directory `ino` has no holes, and its blocks are the chains of the records `dir`. -/
structure IsDirectory (fs : AlbumFs Disk) (ino : Nat) (dir : List (List DirEntry)) : Prop where
  exists_inode : ∃ inode, (exec (AlbumFs.getattr ino) fs).1 = .ok inode ∧ inode.isDir = true ∧
    inode.size.toNat = dir.length * UB
  exists_chain : ∀ index es, dir[index]? = some es → ∃ block,
    (exec (fileBlock ino index) fs).1 = .ok (some block) ∧ IsChain block 0 es

/-- A record has no room for an entry of the name, neither as a free record nor behind its own entry. -/
def DirEntry.NoRoom (name : String) (e : DirEntry) : Prop :=
  (e.inode = 0 → e.recLen.toNat < requiredLen (nameLen name)) ∧
    (e.inode ≠ 0 → e.recLen.toNat - requiredLen (nameLen e.name) < requiredLen (nameLen name))

section

variable {v w : View} {fs fs' : AlbumFs Disk} {parentIno ino : Nat} {name : String} {fileType : UInt8}
  {dir : List (List DirEntry)}

/-- The block of a file in a view. -/
def View.fileBlock (v : View) (ino index : Nat) : Except FsError (Option Block) :=
  match v.inodes ino with
  | none => .error .notFound
  | some _ =>
    match dataSlot ino index with
    | none => .error (.badBlock index)
    | some s => .ok (v.payload s)

theorem reads_fileBlock (hs : v.Sound) (ino index : Nat) :
    Reads AlbumFs.view (fileBlock ino index) v (v.fileBlock ino index) := by
  have hget := AlbumFs.reads_getattr hs.geometry ino
  unfold View.fileBlock
  cases hi : v.inodes ino with
  | none =>
    rw [View.getattr_of_none hi] at hget
    exact hget.bind_error
  | some inode =>
    rw [View.getattr_of_some hi] at hget
    have hbmap := AlbumFs.reads_bmap (hs.mapped hi) index
    refine hget.bind ?_
    cases hslot : dataSlot ino index with
    | none =>
      rw [hslot] at hbmap
      exact hbmap.bind_error
    | some s =>
      rw [hslot] at hbmap
      refine hbmap.bind ?_
      dsimp only
      rw [View.payload, ← View.ownWith_self hi]
      cases hown : v.ownWith ino inode s with
      | none => exact reads_pure _ _
      | some b => exact (AlbumFs.reads_readBlock ((hs.mapped hi).inData hown)).bind (reads_pure _ _)

/-- A block is the same when what is behind its slot is. -/
theorem View.fileBlock_congr {index : Nat} (hlive : w.inodes ino = none ↔ v.inodes ino = none)
    (hpayload : ∀ s, dataSlot ino index = some s → w.payload s = v.payload s) :
    w.fileBlock ino index = v.fileBlock ino index := by
  unfold fileBlock
  cases hv : v.inodes ino with
  | none => rw [hlive.2 hv]
  | some inode =>
    obtain ⟨inode', hw⟩ := Option.ne_none_iff_exists'.1 fun hw => by
      rw [hlive.1 hw] at hv
      cases hv
    rw [hw]
    cases hslot : dataSlot ino index with
    | none => rfl
    | some s =>
      dsimp only
      rw [hpayload s hslot]

/-- The records of a directory are those of its view. -/
theorem isDirectory_iff (hs : fs.view.Sound) : IsDirectory fs ino dir ↔ fs.view.Lists ino dir := by
  have hget : ∀ inode, (exec (AlbumFs.getattr ino) fs).1 = .ok inode ↔ fs.view.inodes ino = some inode := by
    intro inode
    rw [AlbumFs.reads_getattr hs.geometry ino fs rfl]
    exact ⟨View.inodes_of_getattr, View.getattr_of_some⟩
  have hblock : ∀ index block, fs.view.inodes ino ≠ none →
      ((exec (fileBlock ino index) fs).1 = .ok (some block) ↔
        ∃ s, dataSlot ino index = some s ∧ fs.view.payload s = some block) := by
    intro index block hlive
    obtain ⟨inode, hi⟩ := Option.ne_none_iff_exists'.1 hlive
    rw [reads_fileBlock hs ino index fs rfl, View.fileBlock, hi]
    cases hslot : dataSlot ino index <;> simp
  constructor
  · rintro ⟨⟨inode, hi, hdir, hsize⟩, hchain⟩
    have hi' := (hget inode).1 hi
    refine ⟨⟨inode, hi', hdir, hsize⟩, fun k es hk => ?_⟩
    obtain ⟨block, hread, hes⟩ := hchain k es hk
    obtain ⟨s, hslot, hpayload⟩ := (hblock k block (by rw [hi']; exact Option.some_ne_none _)).1 hread
    exact ⟨s, block, hslot, hpayload, hes⟩
  · rintro ⟨⟨inode, hi, hdir, hsize⟩, hchain⟩
    refine ⟨⟨inode, (hget inode).2 hi, hdir, hsize⟩, fun k es hk => ?_⟩
    obtain ⟨s, block, hslot, hpayload, hes⟩ := hchain k es hk
    exact ⟨block, (hblock k block (by rw [hi]; exact Option.some_ne_none _)).2 ⟨s, hslot, hpayload⟩, hes⟩

/-- The rows of a directory with one row replaced. -/
theorem perm_dirEntries_set {k : Nat} {es es' : List DirEntry} {a : Entry} (hk : dir[k]? = some es)
    (hperm : (liveEntries es').Perm (a :: liveEntries es)) :
    (dirEntries (dir.set k es')).Perm (a :: dirEntries dir) := by
  induction dir generalizing k with
  | nil => cases hk
  | cons row dir ih =>
    cases k with
    | zero =>
      obtain rfl := Option.some.inj hk
      exact hperm.append_right _
    | succ k =>
      exact ((ih hk).append_left (liveEntries row)).trans List.perm_middle

theorem perm_dirEntries_append (dir : List (List DirEntry)) {e : DirEntry} (he : e.inode ≠ 0) :
    (dirEntries (dir ++ [[e]])).Perm (e.entry :: dirEntries dir) := by
  have hlast : liveEntries [e] = [e.entry] := by
    rw [liveEntries, List.map_singleton, DirEntry.chunk_of_live he]
    rfl
  rw [dirEntries, List.flatMap_append, List.flatMap_singleton, hlast]
  exact List.perm_append_singleton _ _

theorem noRoom_of_place {a : Entry} {es : List DirEntry}
    (h : place Entry.need a (es.map DirEntry.chunk) = none) : ∀ e ∈ es, e.NoRoom a.2.1 := by
  intro e he
  have hroom := place_eq_none_iff.1 h e.chunk (List.mem_map_of_mem he)
  refine ⟨fun hfree => ?_, fun hlive => ?_⟩
  · rw [DirEntry.chunk_of_free hfree] at hroom
    exact hroom
  · rw [DirEntry.chunk_of_live hlive] at hroom
    exact hroom

/-- What an operation that ran out of room leaves of a block. -/
theorem AlbumFs.AddHalted.payload_eq (h : AlbumFs.AddHalted v parentIno w) (hs : v.Sound) {t : Slot}
    (hleaf : t.IsLeaf) : w.payload t = v.payload t := by
  have hown := h.own_eq hs hleaf
  obtain ⟨parent, hi, -, before, s, rest, i', -, hg, hc, -⟩ := h
  rw [View.payload, View.payload, hown]
  cases hsome : v.own t with
  | none => rfl
  | some b =>
    have hv : v.ownWith parentIno parent t = some b := by rw [View.ownWith_self hi, hsome]
    have hcontent := hc t hleaf
    rw [View.content, hg.own_of_some t b hv, View.content, hv] at hcontent
    rw [Option.map_some, Option.map_some]
    exact congrArg some hcontent

/-- Adding an entry adds it to the entries of the directory, rewrites at most one block or appends one when
there is no room, and leaves every block as it was when it fails. -/
theorem addDirEntry_exact (hs : fs.view.Sound) (hdir : IsDirectory fs parentIno dir) (hpos : 0 < ino)
    (hlt : ino < 2 ^ 64) (hname : nameLen name ≤ 255) (fileType : UInt8) :
    (∀ fs', exec (AlbumFs.addDirEntry parentIno ino name fileType) fs = (.ok (), fs') → ∃ dir' k,
      IsDirectory fs' parentIno dir' ∧
      (dirEntries dir').Perm ((ino, name, fileType) :: dirEntries dir) ∧
      (∀ ino' index, ino' ≠ parentIno ∨ index ≠ k →
        (exec (fileBlock ino' index) fs').1 = (exec (fileBlock ino' index) fs).1) ∧
      (k < dir.length ∧ dir'.length = dir.length ∨
        k = dir.length ∧ dir'.length = dir.length + 1 ∧ ∀ es ∈ dir, ∀ e ∈ es, e.NoRoom name)) ∧
    ∀ e fs', exec (AlbumFs.addDirEntry parentIno ino name fileType) fs = (.error e, fs') →
      ∀ ino' index, (exec (fileBlock ino' index) fs').1 = (exec (fileBlock ino' index) fs).1 := by
  have hlists := (isDirectory_iff hs).1 hdir
  refine ⟨fun fs' hok => ?_, fun e fs' herror ino' index => ?_⟩
  · have hadded := (AlbumFs.endsOn_addDirEntry hs parentIno ino name fileType).of_ok hok
    have hs' := hadded.sound hs
    obtain ⟨k, s, block, hslot, hedits, hcases⟩ := hadded.lists hs hlists hpos hlt hname
    have hsame : ∀ ino' index, ino' ≠ parentIno ∨ index ≠ k →
        (exec (fileBlock ino' index) fs').1 = (exec (fileBlock ino' index) fs).1 := by
      intro ino' index hne
      rw [reads_fileBlock hs' ino' index fs' rfl, reads_fileBlock hs ino' index fs rfl]
      refine View.fileBlock_congr ?_ fun t ht => hedits.payload_eq t (isLeaf_of_dataSlot ht).1 ?_
      · obtain ⟨parent, parent', hparent, -, hinodes, -⟩ := hadded.inodes_eq
        rw [hinodes]
        by_cases hino : ino' = parentIno
        · rw [hino, Function.update_self, hparent]
          exact iff_of_false (Option.some_ne_none _) (Option.some_ne_none _)
        · rw [Function.update_of_ne hino]
      · rintro rfl
        have hino : ino' = parentIno :=
          (isLeaf_of_dataSlot ht).2.symm.trans (isLeaf_of_dataSlot hslot).2
        subst hino
        exact hne.elim (fun h => h rfl) fun h => h (dataSlot_injective ht hslot)
    rcases hcases with ⟨es, es', hk, hplace, hlists'⟩ | ⟨hk, hnone, hlists'⟩
    · refine ⟨_, k, (isDirectory_iff hs').2 hlists', perm_dirEntries_set hk (contents_place hplace), hsame,
        .inl ⟨(List.getElem?_eq_some_iff.1 hk).1, List.length_set ..⟩⟩
    · have hlive : UInt64.ofNat ino ≠ 0 := by
        intro hzero
        have hnat := congrArg UInt64.toNat hzero
        rw [UInt64.toNat_ofNat_of_lt' hlt] at hnat
        exact hpos.ne' hnat
      have hperm := perm_dirEntries_append dir (e := ⟨UInt64.ofNat ino, UInt16.ofNat UB, name, fileType⟩) hlive
      rw [DirEntry.entry, UInt64.toNat_ofNat_of_lt' hlt] at hperm
      refine ⟨_, k, (isDirectory_iff hs').2 hlists', hperm, hsame, .inr ⟨hk, ?_, fun es hes => ?_⟩⟩
      · rw [List.length_append, List.length_singleton]
      · exact noRoom_of_place (hnone es hes)
  · rcases (AlbumFs.endsOn_addDirEntry_halted hs parentIno ino name fileType).of_error herror with
      hview | hhalted
    · rw [reads_fileBlock hs ino' index fs' hview, reads_fileBlock hs ino' index fs rfl]
    · have hs' := hhalted.sound
      rw [reads_fileBlock hs' ino' index fs' rfl, reads_fileBlock hs ino' index fs rfl]
      refine View.fileBlock_congr (by rw [hhalted.inodes_eq]) fun t ht =>
        hhalted.payload_eq hs (isLeaf_of_dataSlot ht).1

/-- The root directory of a fresh view. -/
theorem View.Fresh.lists (h : v.Fresh) : v.Lists 1 [initialRecords 1 1] := by
  refine ⟨⟨rootInode v.sb.dataStart.toNat, by rw [h.inodes_eq, Function.update_self], isDir_rootInode _, ?_⟩,
    fun k es hk => ?_⟩
  · rw [List.length_singleton, Nat.one_mul]
    exact UB64_toNat
  · obtain ⟨hlt, rfl⟩ := List.getElem?_eq_some_iff.1 hk
    obtain rfl : k = 0 := Nat.lt_one_iff.1 hlt
    refine ⟨Slot.direct 1 0, v.data v.sb.dataStart.toNat, dataSlot_direct (by omega), ?_,
      isChain_initialDirectoryBlock h.data_eq⟩
    rw [View.payload, h.own_eq, Function.update_self, Option.map_some]

end

/-- The theorem on the root directory of the small pool. -/
theorem addDirEntry_exact_smallPool :
    IsDirectory smallPool 1 [initialRecords 1 1] ∧
    (∀ fs', exec (AlbumFs.addDirEntry 1 2 "a" FILE_TYPE_FILE) smallPool = (.ok (), fs') → ∃ dir' k,
      IsDirectory fs' 1 dir' ∧
      (dirEntries dir').Perm ((2, "a", FILE_TYPE_FILE) :: dirEntries [initialRecords 1 1]) ∧
      (∀ ino' index, ino' ≠ 1 ∨ index ≠ k →
        (exec (fileBlock ino' index) fs').1 = (exec (fileBlock ino' index) smallPool).1) ∧
      (k < 1 ∧ dir'.length = 1 ∨
        k = 1 ∧ dir'.length = 2 ∧ ∀ es ∈ [initialRecords 1 1], ∀ e ∈ es, e.NoRoom "a")) ∧
    ∀ e fs', exec (AlbumFs.addDirEntry 1 2 "a" FILE_TYPE_FILE) smallPool = (.error e, fs') →
      ∀ ino' index, (exec (fileBlock ino' index) fs').1 = (exec (fileBlock ino' index) smallPool).1 :=
  have hfresh := formatted_smallPool.fresh
  have hroot := (isDirectory_iff hfresh.sound).2 hfresh.lists
  ⟨hroot, addDirEntry_exact hfresh.sound hroot (by decide) (by decide) (by decide) FILE_TYPE_FILE⟩

end AlbumFS
