import AlbumFS.Fs.Operations
import AlbumFS.Space.Sound

/-!
# Reading and editing directories

What the directory code of `AlbumFS.Fs.Operations` does to the view. Reading a directory is a
function of the view. The three editors look for the first block that an edit of records changes;
`View.scan` says which block this is and what it is changed to.

## Main definitions

* `View.entries`, `View.lookup`, `View.readdir`: reading directories.
* `View.scan`: the block that an editor changes.

## Main results

* `AlbumFs.reads_lookup`, `AlbumFs.reads_readdir`.
* `AlbumFs.endsOn_addDirEntry`, `AlbumFs.endsOn_removeDirEntry`, `AlbumFs.endsOn_updateDotdot`.
-/

namespace AlbumFS

open BlockTree Ownership Prog

/-- The inode with a new modification time. -/
def Inode.touched (inode : Inode) (time : UInt64) : Inode :=
  { inode with mtime := time, ctime := time }

@[simp] theorem Inode.mode_touched (inode : Inode) (time : UInt64) :
    (inode.touched time).mode = inode.mode := rfl

@[simp] theorem Inode.size_touched (inode : Inode) (time : UInt64) :
    (inode.touched time).size = inode.size := rfl

@[simp] theorem Inode.isDir_touched (inode : Inode) (time : UInt64) :
    (inode.touched time).isDir = inode.isDir := rfl

theorem Root.pointer_touched (inode : Inode) (time : UInt64) (r : Root) :
    r.pointer (inode.touched time) = r.pointer inode := by
  cases r <;> rfl

/-- The inode of a directory with one more block. -/
def Inode.grown (inode : Inode) (time : UInt64) : Inode :=
  { inode with size := inode.size + UB64 }.touched time

@[simp] theorem Inode.mode_grown (inode : Inode) (time : UInt64) :
    (inode.grown time).mode = inode.mode := rfl

@[simp] theorem Inode.nlink_grown (inode : Inode) (time : UInt64) :
    (inode.grown time).nlink = inode.nlink := rfl

@[simp] theorem Inode.size_grown (inode : Inode) (time : UInt64) :
    (inode.grown time).size = inode.size + UB64 := rfl

@[simp] theorem Inode.isDir_grown (inode : Inode) (time : UInt64) :
    (inode.grown time).isDir = inode.isDir := rfl

theorem Root.pointer_grown (inode : Inode) (time : UInt64) (r : Root) :
    r.pointer (inode.grown time) = r.pointer inode := by
  cases r <;> rfl

/-- The inodes agree on what they are and where their blocks are. -/
structure Inode.SameMap (inode' inode : Inode) : Prop where
  pointer_eq : ∀ r : Root, r.pointer inode' = r.pointer inode
  size_eq : inode'.size = inode.size
  mode_eq : inode'.mode = inode.mode

theorem Inode.SameMap.refl (inode : Inode) : inode.SameMap inode := ⟨fun _ => rfl, rfl, rfl⟩

theorem Inode.SameMap.symm {inode inode' : Inode} (h : inode'.SameMap inode) : inode.SameMap inode' :=
  ⟨fun r => (h.pointer_eq r).symm, h.size_eq.symm, h.mode_eq.symm⟩

theorem Inode.SameMap.trans {inode inode' inode'' : Inode} (h : inode''.SameMap inode')
    (h' : inode'.SameMap inode) : inode''.SameMap inode :=
  ⟨fun r => (h.pointer_eq r).trans (h'.pointer_eq r), h.size_eq.trans h'.size_eq,
    h.mode_eq.trans h'.mode_eq⟩

theorem Inode.SameMap.isDir_eq {inode inode' : Inode} (h : inode'.SameMap inode) :
    inode'.isDir = inode.isDir := by
  rw [Inode.isDir, h.mode_eq, Inode.isDir]

theorem Inode.sameMap_touched (inode : Inode) (time : UInt64) :
    (inode.touched time).SameMap inode :=
  ⟨Root.pointer_touched inode time, rfl, rfl⟩

/-- The link count and the times have no part in the block map. -/
theorem Inode.sameMap_links (inode : Inode) (nlink : UInt32) (mtime ctime : UInt64) :
    { inode with nlink, mtime, ctime }.SameMap inode :=
  ⟨fun r => by cases r <;> rfl, rfl, rfl⟩

namespace View

/-- The block numbered `index` of a file. -/
def blockAt (v : View) (ino : Nat) (inode : Inode) (index : Nat) : Except FsError (Option Nat) :=
  match dataSlot ino index with
  | some s => .ok (v.ownWith ino inode s)
  | none => .error (.badBlock index)

/-- The entries of the `n` blocks of a directory from `logical` on. -/
def entriesFrom (v : View) (ino : Nat) (inode : Inode) :
    Nat → Nat → Except FsError (List (Nat × DirEntry))
  | _, 0 => .ok []
  | logical, n + 1 => do
    let block ← v.blockAt ino inode logical
    match block with
    | none => entriesFrom v ino inode (logical + 1) n
    | some b => do
      let records ← AlbumFs.blockRecords (v.data b) 0
      let rest ← entriesFrom v ino inode (logical + 1) n
      .ok (records.map (fun (offset, entry) => (logical * UB + offset, entry)) ++ rest)

def entries (v : View) (ino : Nat) (inode : Inode) : Except FsError (List (Nat × DirEntry)) :=
  v.entriesFrom ino inode 0 (divCeil inode.size.toNat UB)

def lookup (v : View) (parentIno : Nat) (name : String) : Except FsError (Option Nat) := do
  let parent ← v.getattr parentIno
  if !parent.isDir then
    .error .notDir
  else
    let entries ← v.entries parentIno parent
    .ok ((entries.find? fun (_, entry) => entry.inode ≠ 0 ∧ entry.name = name).map
      fun (_, entry) => entry.inode.toNat)

/-- A name is looked up in a directory. -/
theorem parent_of_lookup {v : View} {parentIno : Nat} {name : String} {found : Option Nat}
    (h : v.lookup parentIno name = .ok found) :
    ∃ parent, v.inodes parentIno = some parent ∧ parent.isDir = true := by
  unfold lookup at h
  cases hp : v.getattr parentIno with
  | error e =>
    rw [hp] at h
    cases h
  | ok parent =>
    refine ⟨parent, inodes_of_getattr hp, ?_⟩
    by_contra hdir
    rw [hp] at h
    simp only [bind, Except.bind, hdir, Bool.not_false, if_true] at h
    cases h

def readdir (v : View) (ino : Nat) : Except FsError (List (Nat × String × UInt8)) := do
  let inode ← v.getattr ino
  if !inode.isDir then
    .error .notDir
  else
    let entries ← v.entries ino inode
    .ok ((entries.filter fun (_, entry) => entry.inode ≠ 0).map
      fun (_, entry) => (entry.inode.toNat, entry.name, entry.fileType))

/-- The first block from `logical` on that `edit` changes, and what it is changed to. -/
def scan (v : View) (ino : Nat) (inode : Inode) (edit : Block → Except FsError (Option Block)) :
    Nat → Nat → Except FsError (Option (Nat × Block))
  | _, 0 => .ok none
  | logical, n + 1 => do
    let block ← v.blockAt ino inode logical
    match block with
    | none => .error (.manifest "directory has a hole")
    | some b => do
      let edited ← edit (v.data b)
      match edited with
      | some payload => .ok (some (b, payload))
      | none => scan v ino inode edit (logical + 1) n

end View

namespace AlbumFs

variable {v : View} {ino : Nat} {inode : Inode}

/-! ### Reading -/

theorem reads_blockAt (h : Mapped v ino inode) (index : Nat) :
    Reads view (bmap inode index false) v ((v.blockAt ino inode index).map fun b => (b, inode)) := by
  have hr := reads_bmap h index
  unfold View.blockAt
  cases hs : dataSlot ino index with
  | none =>
    rw [hs] at hr
    exact hr
  | some s =>
    rw [hs] at hr
    exact hr

theorem inData_of_blockAt (h : Mapped v ino inode) {index b : Nat}
    (hb : v.blockAt ino inode index = .ok (some b)) : v.InData b := by
  unfold View.blockAt at hb
  split at hb
  · exact h.inData (Except.ok.inj hb)
  · cases hb

theorem reads_directoryEntriesFrom (h : Mapped v ino inode) (logical n : Nat) :
    Reads view (directoryEntriesFrom inode logical n) v (v.entriesFrom ino inode logical n) := by
  induction n generalizing logical with
  | zero => exact reads_pure _ _
  | succ n ih =>
    have hr := reads_blockAt h logical
    rw [directoryEntriesFrom, View.entriesFrom]
    cases hb : v.blockAt ino inode logical with
    | error e =>
      rw [hb] at hr
      exact hr.bind_error
    | ok block =>
      rw [hb] at hr
      refine hr.bind ?_
      cases block with
      | none => exact ih (logical + 1)
      | some b =>
        refine (reads_readBlock (inData_of_blockAt h hb)).bind
          ((reads_ofExcept _ _).bind_except fun records _ => ?_)
        exact (ih (logical + 1)).bind_except fun rest _ => reads_pure _ _

theorem reads_directoryEntries (h : Mapped v ino inode) :
    Reads view (directoryEntries inode) v (v.entries ino inode) :=
  reads_directoryEntriesFrom h _ _

theorem reads_lookup (h : v.Sound) (parentIno : Nat) (name : String) :
    Reads view (lookup parentIno name) v (v.lookup parentIno name) := by
  refine (reads_getattr h.geometry parentIno).bind_except fun parent hp => ?_
  split_ifs
  · exact reads_throw _ _
  · exact (reads_directoryEntries (h.mapped (View.inodes_of_getattr hp))).bind_except
      fun _ _ => reads_pure _ _

theorem reads_readdir (h : v.Sound) (ino : Nat) :
    Reads view (readdir ino) v (v.readdir ino) := by
  refine (reads_getattr h.geometry ino).bind_except fun inode hp => ?_
  split_ifs
  · exact reads_throw _ _
  · exact (reads_directoryEntries (h.mapped (View.inodes_of_getattr hp))).bind_except
      fun _ _ => reads_pure _ _

/-! ### Editing -/

theorem endsOn_bumpDirectory (h : v.Geometry) (hi : v.inodes ino ≠ none)
    {Q : Unit → View → Prop} {E : FsError → View → Prop}
    (hQ : ∀ time, Q () (v.setInode ino (inode.touched time))) :
    EndsOn view (bumpDirectory ino inode) v Q E := by
  obtain ⟨stored, hs⟩ := Option.ne_none_iff_exists'.1 hi
  refine endsOn_of_live fun hlive => ?_
  refine (endsOn_now (Q := fun _ w => w = v) (E := fun _ _ => False) fun _ => rfl).bind ?_
    fun _ _ hf => hf.elim
  rintro time _ rfl
  exact endsOn_writeInode h (hlive ino stored hs).1 (hQ time)

/-- An editor of directories changes the block that `View.scan` finds. -/
theorem endsOn_editDirectory (h : v.Sound) (hi : v.inodes ino = some inode)
    (edit : Block → Except FsError (Option Block)) (logical n : Nat) :
    EndsOn view (editDirectory ino inode edit logical n) v
      (fun changed w =>
        (changed = false ∧ v.scan ino inode edit logical n = .ok none ∧ w = v) ∨
        (changed = true ∧ ∃ b payload time,
          v.scan ino inode edit logical n = .ok (some (b, payload)) ∧
            w = (v.setData b payload).setInode ino (inode.touched time)))
      fun e w => v.scan ino inode edit logical n = .error e ∧ w = v := by
  have hm := h.mapped hi
  induction n generalizing logical with
  | zero => exact endsOn_pure (.inl ⟨rfl, rfl, rfl⟩)
  | succ n ih =>
    have hr := reads_blockAt hm logical
    rw [editDirectory, View.scan]
    cases hb : v.blockAt ino inode logical with
    | error e =>
      rw [hb] at hr
      exact hr.bind_error.endsOn (by simp) (by rintro _ ⟨⟩; exact ⟨rfl, rfl⟩)
    | ok block =>
      rw [hb] at hr
      refine hr.bind_endsOn ?_
      cases block with
      | none => exact endsOn_throw ⟨rfl, rfl⟩
      | some b =>
        have hin := inData_of_blockAt hm hb
        refine (reads_readBlock hin).bind_endsOn ((reads_ofExcept (edit (v.data b)) v).bind_endsOn_except
          (fun edited hedit => ?_) fun e he => ?_)
        · cases edited with
          | none =>
            refine (ih (logical + 1)).mono (fun changed w hw => ?_) fun e w hw => ?_
            · simpa only [bind, Except.bind, hedit] using hw
            · simpa only [bind, Except.bind, hedit] using hw
          | some payload =>
            refine (endsOn_writeBlock_bytes h.geometry hin (Q := fun _ w => w = v.setData b payload)
              (E := fun _ _ => False) rfl).bind ?_ fun _ _ hf => hf.elim
            rintro _ _ rfl
            refine (@endsOn_bumpDirectory _ _ inode (h.geometry.setData b payload)
              (by rw [View.inodes_setData, hi]; exact Option.some_ne_none _)
              (fun _ w => ∃ time, w = (v.setData b payload).setInode ino (inode.touched time))
              (fun _ _ => False) fun time => ⟨time, rfl⟩).bind ?_ fun _ _ hf => hf.elim
            rintro _ _ ⟨time, rfl⟩
            refine endsOn_pure (.inr ⟨rfl, b, payload, time, ?_, rfl⟩)
            simp only [bind, Except.bind, hedit]
        · exact ⟨by simp only [bind, Except.bind, he], rfl⟩

/-- A record with room for its name is written. -/
theorem putRecord_eq_ok (payload : Block) (offset recLen : Nat) {name : String}
    (hname : nameLen name ≤ 255) (hroom : DirEntry.requiredLen (nameLen name) ≤ recLen)
    (hend : offset + recLen ≤ UB) (ino : UInt64) (fileType : UInt8) :
    ∃ block, putRecord payload offset ino name fileType recLen = .ok block := by
  rw [UB_eq] at hend
  have hlen : (UInt16.ofNat recLen).toNat = recLen := UInt16.toNat_ofNat_of_lt' (by
    rw [show UInt16.size = 65536 from rfl]
    omega)
  have hslice : (slice payload.bytes offset recLen).length = recLen := length_slice (by
    rw [payload.length_bytes, UB_eq]
    exact hend)
  unfold putRecord DirEntry.new
  rw [if_neg (by omega)]
  simp only [bind, Except.bind, DirEntry.encodeInto, hlen]
  rw [if_neg (by omega)]
  exact ⟨_, rfl⟩

/-- A directory gets a new block for an entry. -/
theorem endsOn_growDirectory (h : v.Sound) (hi : v.inodes ino = some inode) (logical new : Nat)
    {name : String} (hname : nameLen name ≤ 255) (fileType : UInt8) :
    EndsOn view (growDirectory ino inode logical new name fileType) v
      (fun _ w => ∃ s b v₁ inode' payload time, dataSlot ino logical = some s ∧
        v₁.ownWith ino inode' s = some b ∧ Grows ino (slotsTo ino logical) v inode v₁ inode' ∧
        SameContent ino v inode v₁ inode' ∧
        putRecord Block.zero 0 (UInt64.ofNat new) name fileType UB = .ok payload ∧
        w = (v₁.setData b payload).setInode ino
          (inode'.grown time))
      fun e w => (e = .noSpace ∧ Stops ino (slotsTo ino logical) v inode w) ∨
        (e = .badBlock logical ∧ dataSlot ino logical = none ∧ w = v) := by
  refine (endsOn_bmap (h.mapped hi) logical).bind ?_ fun _ _ he => he
  rintro ⟨block, inode'⟩ v₁ ⟨s, b, hs, rfl, hown, hg, hc⟩
  have hlen := DirEntry.requiredLen_lt (nameLen name)
  obtain ⟨payload, hp⟩ := putRecord_eq_ok Block.zero 0 UB hname
    (by rw [UB_eq]; omega) (by omega) (UInt64.ofNat new) fileType
  refine (reads_ofExcept_ok hp).bind_endsOn ?_
  have hin := hg.mapped.inData hown
  refine (endsOn_writeBlock_bytes hg.mapped.geometry hin (Q := fun _ w => w = v₁.setData b payload)
    (E := fun _ _ => False) rfl).bind ?_ fun _ _ hf => hf.elim
  rintro _ _ rfl
  refine endsOn_bumpDirectory (hg.mapped.geometry.setData b payload) ?_ fun time =>
    ⟨s, b, v₁, inode', payload, time, hs, hown, hg, hc, hp, rfl⟩
  rw [View.inodes_setData, hg.inodes_eq, hi]
  exact Option.some_ne_none _

/-- What a successful `add_dir_entry` does: it changes the first block with room for the entry, or
appends a block. -/
inductive Added (v : View) (parentIno ino : Nat) (name : String) (fileType : UInt8) : View → Prop
  | insert {parent : Inode} {b : Nat} {payload : Block} {time : UInt64}
      (hparent : v.inodes parentIno = some parent) (hdir : parent.isDir = true)
      (hscan : v.scan parentIno parent
        (fun payload => insertRecord (UInt64.ofNat ino) name fileType payload 0) 0
        (divCeil parent.size.toNat UB) = .ok (some (b, payload))) :
      Added v parentIno ino name fileType
        ((v.setData b payload).setInode parentIno (parent.touched time))
  | grow {parent parent' : Inode} {s : Slot} {b : Nat} {v₁ : View} {payload : Block} {time : UInt64}
      (hparent : v.inodes parentIno = some parent) (hdir : parent.isDir = true)
      (hscan : v.scan parentIno parent
        (fun payload => insertRecord (UInt64.ofNat ino) name fileType payload 0) 0
        (divCeil parent.size.toNat UB) = .ok none)
      (hs : dataSlot parentIno (divCeil parent.size.toNat UB) = some s)
      (hown : v₁.ownWith parentIno parent' s = some b)
      (hgrows : Grows parentIno (slotsTo parentIno (divCeil parent.size.toNat UB)) v parent v₁ parent')
      (hcontent : SameContent parentIno v parent v₁ parent')
      (hput : putRecord Block.zero 0 (UInt64.ofNat ino) name fileType UB = .ok payload) :
      Added v parentIno ino name fileType
        ((v₁.setData b payload).setInode parentIno
          (parent'.grown time))

/-- A failed `add_dir_entry` changes nothing, unless it was stopped while it appended a block. -/
def AddStopped (v : View) (parentIno ino : Nat) (name : String) (fileType : UInt8) (w : View) : Prop :=
  ∃ parent, v.inodes parentIno = some parent ∧ parent.isDir = true ∧
    v.scan parentIno parent
      (fun payload => insertRecord (UInt64.ofNat ino) name fileType payload 0) 0
      (divCeil parent.size.toNat UB) = .ok none ∧
    Stops parentIno (slotsTo parentIno (divCeil parent.size.toNat UB)) v parent w

theorem endsOn_addDirEntry (h : v.Sound) (parentIno new : Nat) (name : String) (fileType : UInt8) :
    EndsOn view (addDirEntry parentIno new name fileType) v
      (fun _ w => Added v parentIno new name fileType w)
      fun _ w => w = v ∨ AddStopped v parentIno new name fileType w := by
  refine (reads_getattr h.geometry parentIno).bind_endsOn_except (fun parent hp => ?_)
    fun _ _ => .inl rfl
  have hi := View.inodes_of_getattr hp
  by_cases hdir : parent.isDir = true
  · simp only [hdir, Bool.not_true, Bool.false_eq_true, if_false]
    by_cases hlong : DirEntry.requiredLen (nameLen name) > UB ∨ nameLen name > 255
    · rw [if_pos hlong]
      exact endsOn_throw (.inl rfl)
    · rw [if_neg hlong]
      refine (endsOn_editDirectory h hi _ _ _).bind ?_ fun _ _ he => .inl he.2
      rintro inserted w (⟨rfl, hscan, rfl⟩ | ⟨rfl, b, payload, time, hscan, rfl⟩)
      · simp only [Bool.false_eq_true, if_false]
        refine (endsOn_growDirectory h hi _ new (by omega) fileType).mono ?_ ?_
        · rintro _ w ⟨s, b, v₁, parent', payload, time, hs, hown, hg, hc, hput, rfl⟩
          exact .grow hi hdir hscan hs hown hg hc hput
        · rintro e w (⟨-, hstop⟩ | ⟨-, -, rfl⟩)
          · exact .inr ⟨parent, hi, hdir, hscan, hstop⟩
          · exact .inl rfl
      · simp only [if_true]
        exact endsOn_pure (.insert hi hdir hscan)
  · simp only [hdir, Bool.not_false, if_true]
    exact endsOn_throw (.inl rfl)

/-- What a successful `remove_dir_entry` does. -/
inductive Taken (v : View) (parentIno : Nat) (name : String) : View → Prop
  | remove {parent : Inode} {b : Nat} {payload : Block} {time : UInt64}
      (hparent : v.inodes parentIno = some parent) (hdir : parent.isDir = true)
      (hscan : v.scan parentIno parent (fun payload => removeRecord name payload 0 none) 0
        (divCeil parent.size.toNat UB) = .ok (some (b, payload))) :
      Taken v parentIno name ((v.setData b payload).setInode parentIno (parent.touched time))

theorem endsOn_removeDirEntry (h : v.Sound) (parentIno : Nat) (name : String) :
    EndsOn view (removeDirEntry parentIno name) v (fun _ w => Taken v parentIno name w)
      fun _ w => w = v := by
  refine (reads_getattr h.geometry parentIno).bind_endsOn_except (fun parent hp => ?_)
    fun _ _ => rfl
  have hi := View.inodes_of_getattr hp
  by_cases hdir : parent.isDir = true
  · simp only [hdir, Bool.not_true, Bool.false_eq_true, if_false]
    refine (endsOn_editDirectory h hi _ _ _).bind ?_ fun _ _ he => he.2
    rintro removed w (⟨rfl, -, rfl⟩ | ⟨rfl, b, payload, time, hscan, rfl⟩)
    · exact endsOn_throw rfl
    · exact endsOn_pure (.remove hi hdir hscan)
  · simp only [hdir, Bool.not_false, if_true]
    exact endsOn_throw rfl

/-- `update_dotdot` changes the first block of the directory it was given. -/
theorem endsOn_updateDotdot (h : v.Geometry) (directory : Inode) (newParent : Nat)
    (hin : ∀ b, thenSome ((Root.direct 0).pointer directory) = some b → v.InData b) :
    EndsOn view (updateDotdot directory newParent) v
      (fun _ w => ∃ b payload, thenSome ((Root.direct 0).pointer directory) = some b ∧
        repointDotdot (UInt64.ofNat newParent) (v.data b) 0 = .ok (some payload) ∧
        w = v.setData b payload)
      fun _ w => w = v := by
  have hbmap : (bmap directory 0 false : FsM Disk _) =
      pure (thenSome ((Root.direct 0).pointer directory), directory) := by
    simp [bmap, Root.pointer, Vector.get]
  rw [updateDotdot, hbmap]
  refine (reads_pure _ _).bind_endsOn ?_
  cases hb : thenSome ((Root.direct 0).pointer directory) with
  | none => exact endsOn_throw rfl
  | some b =>
    refine (reads_readBlock (hin b hb)).bind_endsOn ((reads_ofExcept _ _).bind_endsOn_except
      (fun edited hedit => ?_) fun _ _ => rfl)
    cases edited with
    | none => exact endsOn_throw rfl
    | some payload =>
      exact endsOn_writeBlock_bytes h (hin b hb) ⟨b, payload, rfl, hedit, rfl⟩

end AlbumFs

end AlbumFS
