import AlbumFS.Fs.Album

/-!
# Directories and the public operations

The directory code and the public operations of `fs/album.rs`: lookup, creation, removal and
renaming of entries, and reading, writing and truncating files.
-/

namespace AlbumFS

theorem DirEntry.recLen_pos_of_decode {block : Block} {offset : Nat} {e : DirEntry}
    (h : DirEntry.decode block.bytes offset = .ok e) : 0 < e.recLen.toNat := by
  have hlen : block.bytes.length ≤ 65535 := by
    rw [block.length_bytes]
    decide
  have := (DirEntry.isRecord_of_decode hlen h).recLen_ge
  omega

namespace AlbumFs

/-! ### The record loops -/

/-- The record loop of `directory_entries`: the records of a block from `offset` on with their
positions. -/
def blockRecords (payload : Block) (offset : Nat) : Except FsError (List (Nat × DirEntry)) :=
  if offset < UB then
    match _h : DirEntry.decode payload.bytes offset with
    | .error e => .error e
    | .ok entry => do
      let rest ← blockRecords payload (offset + entry.recLen.toNat)
      .ok ((offset, entry) :: rest)
  else
    .ok []
termination_by UB - offset
decreasing_by
  have := DirEntry.recLen_pos_of_decode _h
  omega

/-- Write a new record of length `recLen` at `offset`. -/
def putRecord (payload : Block) (offset : Nat) (ino : UInt64) (name : String) (fileType : UInt8)
    (recLen : Nat) : Except FsError Block := do
  let entry ← DirEntry.new ino name fileType recLen
  let record ← entry.encodeInto (slice payload.bytes offset recLen)
  .ok (payload.write offset record)

/-- The record loop of `add_dir_entry`: the block with the new entry put into the first free
record, or behind the first live record, that leaves enough room from `offset` on. -/
def insertRecord (ino : UInt64) (name : String) (fileType : UInt8) (payload : Block)
    (offset : Nat) : Except FsError (Option Block) :=
  let needed := DirEntry.requiredLen (nameLen name)
  if offset < UB then
    match _h : DirEntry.decode payload.bytes offset with
    | .error e => .error e
    | .ok entry =>
      let recLen := entry.recLen.toNat
      let minimal := DirEntry.requiredLen (nameLen entry.name)
      if entry.inode = 0 ∧ recLen ≥ needed then
        (putRecord payload offset ino name fileType recLen).map some
      else if entry.inode ≠ 0 ∧ recLen - minimal ≥ needed then
        let payload := payload.write (offset + 8) (u16LE (UInt16.ofNat minimal))
        (putRecord payload (offset + minimal) ino name fileType (recLen - minimal)).map some
      else
        insertRecord ino name fileType payload (offset + recLen)
  else
    .ok none
termination_by UB - offset
decreasing_by
  have := DirEntry.recLen_pos_of_decode _h
  omega

/-- The record loop of `remove_dir_entry`: the block without the live entry called `name`, the
live record last passed being at `previous`. -/
def removeRecord (name : String) (payload : Block) (offset : Nat) (previous : Option Nat) :
    Except FsError (Option Block) :=
  if offset < UB then
    match _h : DirEntry.decode payload.bytes offset with
    | .error e => .error e
    | .ok entry =>
      let recLen := entry.recLen.toNat
      if entry.inode ≠ 0 ∧ entry.name = name then
        match previous with
        | some previousOffset =>
          let oldLen := (u16At payload.bytes (previousOffset + 8)).toNat
          let combined := oldLen + recLen
          .ok (some (payload.write (previousOffset + 8) (u16LE (UInt16.ofNat combined))))
        | none => .ok (some (payload.write offset (List.replicate 8 0)))
      else
        removeRecord name payload (offset + recLen)
          (if entry.inode ≠ 0 then some offset else previous)
  else
    .ok none
termination_by UB - offset
decreasing_by
  have := DirEntry.recLen_pos_of_decode _h
  omega

/-- The record loop of `update_dotdot`. -/
def repointDotdot (newParent : UInt64) (payload : Block) (offset : Nat) :
    Except FsError (Option Block) :=
  if offset < UB then
    match _h : DirEntry.decode payload.bytes offset with
    | .error e => .error e
    | .ok entry =>
      if entry.inode ≠ 0 ∧ entry.name = ".." then
        .ok (some (payload.write offset (u64LE newParent)))
      else
        repointDotdot newParent payload (offset + entry.recLen.toNat)
  else
    .ok none
termination_by UB - offset
decreasing_by
  have := DirEntry.recLen_pos_of_decode _h
  omega

/-- `initial_directory_block`. -/
def initialDirectoryBlock (ino parent : UInt64) : Except FsError Block := do
  let dotLen := DirEntry.requiredLen 1
  let block ← putRecord Block.zero 0 ino "." FILE_TYPE_DIR dotLen
  putRecord block dotLen parent ".." FILE_TYPE_DIR (UB - dotLen)

variable {σ : Type} [BlockDevice σ]

/-! ### Directories -/

/-- The block loop of `directory_entries` over the `n` blocks from `logical` on. -/
def directoryEntriesFrom (inode : Inode) : Nat → Nat → FsM σ (List (Nat × DirEntry))
  | _, 0 => pure []
  | logical, n + 1 => do
    let (block, _) ← bmap inode logical false
    match block with
    | none => directoryEntriesFrom inode (logical + 1) n
    | some block => do
      let payload ← readBlock block
      let records ← Prog.ofExcept (blockRecords payload 0)
      let rest ← directoryEntriesFrom inode (logical + 1) n
      pure (records.map (fun (offset, entry) => (logical * UB + offset, entry)) ++ rest)

def directoryEntries (inode : Inode) : FsM σ (List (Nat × DirEntry)) :=
  directoryEntriesFrom inode 0 (divCeil inode.size.toNat UB)

def lookup (parentIno : Nat) (name : String) : FsM σ (Option Nat) := do
  let parent ← getattr parentIno
  if !parent.isDir then
    throw .notDir
  else
    let entries ← directoryEntries parent
    pure ((entries.find? fun (_, entry) => entry.inode ≠ 0 ∧ entry.name = name).map
      fun (_, entry) => entry.inode.toNat)

def readdir (ino : Nat) : FsM σ (List (Nat × String × UInt8)) := do
  let inode ← getattr ino
  if !inode.isDir then
    throw .notDir
  else
    let entries ← directoryEntries inode
    pure ((entries.filter fun (_, entry) => entry.inode ≠ 0).map
      fun (_, entry) => (entry.inode.toNat, entry.name, entry.fileType))

def bumpDirectory (ino : Nat) (inode : Inode) : FsM σ Unit := do
  let time ← now
  writeInode ino { inode with mtime := time, ctime := time }

/-- The block loop of the directory editors: apply `edit` to the blocks from `logical` on until one
of them changes, then store that block and touch the directory. -/
def editDirectory (parentIno : Nat) (parent : Inode) (edit : Block → Except FsError (Option Block)) :
    Nat → Nat → FsM σ Bool
  | _, 0 => pure false
  | logical, n + 1 => do
    let (block, _) ← bmap parent logical false
    match block with
    | none => throw (.manifest "directory has a hole")
    | some block => do
      let payload ← readBlock block
      let edited ← Prog.ofExcept (edit payload)
      match edited with
      | some payload => do
        writeBlock block payload.bytes
        bumpDirectory parentIno parent
        pure true
      | none => editDirectory parentIno parent edit (logical + 1) n

/-- The end of `add_dir_entry`: a new block for the entry. -/
def growDirectory (parentIno : Nat) (parent : Inode) (logical : Nat) (ino : Nat) (name : String)
    (fileType : UInt8) : FsM σ Unit := do
  let (block, parent) ← bmap parent logical true
  match block with
  | none => throw .noSpace
  | some block => do
    let payload ← Prog.ofExcept (putRecord Block.zero 0 (UInt64.ofNat ino) name fileType UB)
    writeBlock block payload.bytes
    bumpDirectory parentIno { parent with size := parent.size + UB64 }

def addDirEntry (parentIno ino : Nat) (name : String) (fileType : UInt8) : FsM σ Unit := do
  let parent ← getattr parentIno
  if !parent.isDir then
    throw .notDir
  else if DirEntry.requiredLen (nameLen name) > UB ∨ nameLen name > 255 then
    throw .noSpace
  else
    let blockCount := divCeil parent.size.toNat UB
    let inserted ← editDirectory parentIno parent
      (fun payload => insertRecord (UInt64.ofNat ino) name fileType payload 0) 0 blockCount
    if inserted then
      pure ()
    else
      growDirectory parentIno parent blockCount ino name fileType

def removeDirEntry (parentIno : Nat) (name : String) : FsM σ Unit := do
  let parent ← getattr parentIno
  if !parent.isDir then
    throw .notDir
  else
    let removed ← editDirectory parentIno parent
      (fun payload => removeRecord name payload 0 none) 0 (divCeil parent.size.toNat UB)
    if removed then pure () else throw .notFound

def updateDotdot (directory : Inode) (newParent : Nat) : FsM σ Unit := do
  let (block, _) ← bmap directory 0 false
  match block with
  | none => throw (.manifest "directory has no first block")
  | some block => do
    let payload ← readBlock block
    let edited ← Prog.ofExcept (repointDotdot (UInt64.ofNat newParent) payload 0)
    match edited with
    | some payload => writeBlock block payload.bytes
    | none => throw (.manifest "directory has no parent entry")

/-! ### Creating entries -/

def create (parentIno : Nat) (name : String) (mode : UInt32) : FsM σ Nat := do
  let found ← lookup parentIno name
  if found.isSome then
    throw .exists
  else
    let ino ← allocInode
    let time ← now
    writeInode ino
      { mode := S_IFREG ||| (mode &&& 0o7777)
        nlink := 1
        atime := time
        mtime := time
        ctime := time }
    addDirEntry parentIno ino name FILE_TYPE_FILE
    sync
    pure ino

def mkdir (parentIno : Nat) (name : String) (mode : UInt32) : FsM σ Nat := do
  let found ← lookup parentIno name
  if found.isSome then
    throw .exists
  else
    let parent ← getattr parentIno
    if !parent.isDir then
      throw .notDir
    else
      let ino ← allocInode
      let dataBlock ← allocateBlock
      let payload ← Prog.ofExcept
        (initialDirectoryBlock (UInt64.ofNat ino) (UInt64.ofNat parentIno))
      writeBlock dataBlock payload.bytes
      let time ← now
      writeInode ino
        { mode := S_IFDIR ||| (mode &&& 0o7777)
          nlink := 2
          size := UB64
          atime := time
          mtime := time
          ctime := time
          blockCount := 1
          direct := Inode.default.direct.set 0 (UInt64.ofNat dataBlock) }
      addDirEntry parentIno ino name FILE_TYPE_DIR
      let parent ← getattr parentIno
      writeInode parentIno { parent with nlink := parent.nlink + 1, mtime := time, ctime := time }
      sync
      pure ino

/-! ### File contents -/

/-- The loop of `read` from `position` to `stop`. -/
def readRange (inode : Inode) (position stop : Nat) : FsM σ (List UInt8) :=
  if position < stop then do
    let logical := position / UB
    let within := position % UB
    let take := min (stop - position) (UB - within)
    let (block, _) ← bmap inode logical false
    let piece ← (match block with
      | some block => do
        let payload ← readBlock block
        pure (slice payload.bytes within take)
      | none => pure (List.replicate take 0))
    let rest ← readRange inode (position + take) stop
    pure (piece ++ rest)
  else
    pure []
termination_by stop - position
decreasing_by
  have := Nat.mod_lt position UB_pos
  omega

def read (ino : Nat) (offset : UInt64) (len : Nat) : FsM σ (List UInt8) := do
  let inode ← getattr ino
  if inode.isDir then
    throw .isDir
  else if offset ≥ inode.size ∨ len = 0 then
    pure []
  else
    readRange inode offset.toNat (min inode.size.toNat (min (offset.toNat + len) (2 ^ 64 - 1)))

/-- The loop of `write`: store `data` from `position` on. -/
def writeRange (inode : Inode) (position : Nat) (data : List UInt8) : FsM σ Inode :=
  if data.length = 0 then
    pure inode
  else do
    let logical := position / UB
    let within := position % UB
    let take := min data.length (UB - within)
    let (block, inode) ← bmap inode logical true
    match block with
    | none => throw .noSpace
    | some block => do
      let payload ← readBlock block
      writeBlock block (payload.write within (data.take take)).bytes
      writeRange inode (position + take) (data.drop take)
termination_by data.length
decreasing_by
  have := Nat.mod_lt position UB_pos
  simp only [List.length_drop]
  omega

def write (ino : Nat) (offset : UInt64) (data : List UInt8) : FsM σ Nat := do
  let inode ← getattr ino
  if inode.isDir then
    throw .isDir
  else
    match checkedAdd offset.toNat data.length with
    | none => throw (.manifest "file offset overflow")
    | some stop => do
      let inode ← writeRange inode offset.toNat data
      let inode := if stop > inode.size.toNat then { inode with size := UInt64.ofNat stop } else inode
      let time ← now
      writeInode ino { inode with mtime := time, ctime := time }
      sync
      pure data.length

/-- Zero the kept block behind the new end of a file. -/
def zeroTail (inode : Inode) (newSize : Nat) : FsM σ Unit := do
  let tail := newSize % UB
  if tail ≠ 0 then
    let (block, _) ← bmap inode (divCeil newSize UB - 1) false
    match block with
    | none => pure ()
    | some block => do
      let payload ← readBlock block
      writeBlock block (payload.write tail (List.replicate (UB - tail) 0)).bytes
  else
    pure ()

def truncate (ino : Nat) (newSize : UInt64) : FsM σ Unit := do
  let inode ← getattr ino
  if inode.isDir then
    throw .isDir
  else
    let inode ← (if newSize < inode.size then do
        let keepBlocks := divCeil newSize.toNat UB
        let oldBlocks := divCeil inode.size.toNat UB
        let inode ← removeMappedBlocks inode keepBlocks (oldBlocks - keepBlocks)
        zeroTail inode newSize.toNat
        pure inode
      else pure inode)
    let time ← now
    writeInode ino { inode with size := newSize, mtime := time, ctime := time }
    sync

/-! ### Removing and renaming entries -/

/-- `u32::saturating_sub(1)`. -/
def saturatingPred (n : UInt32) : UInt32 := if n = 0 then 0 else n - 1

def unlink (parentIno : Nat) (name : String) : FsM σ Unit := do
  let found ← lookup parentIno name
  match found with
  | none => throw .notFound
  | some ino => do
    let inode ← getattr ino
    if inode.isDir then
      throw .isDir
    else
      removeDirEntry parentIno name
      let inode := { inode with nlink := saturatingPred inode.nlink }
      if inode.nlink = 0 then
        let _ ← freeAllBlocks inode
        freeInode ino
      else
        let time ← now
        writeInode ino { inode with ctime := time }
      sync

def rmdir (parentIno : Nat) (name : String) : FsM σ Unit := do
  let found ← lookup parentIno name
  match found with
  | none => throw .notFound
  | some ino => do
    let inode ← getattr ino
    if !inode.isDir then
      throw .notDir
    else
      let entries ← readdir ino
      if entries.any fun (_, entryName, _) => entryName ≠ "." ∧ entryName ≠ ".." then
        throw .notEmpty
      else
        removeDirEntry parentIno name
        let _ ← freeAllBlocks inode
        freeInode ino
        let parent ← getattr parentIno
        let time ← now
        writeInode parentIno
          { parent with nlink := saturatingPred parent.nlink, mtime := time, ctime := time }
        sync

/-- The part of `rename` that removes an existing target. The result says whether the renaming
goes on. -/
def replaceTarget (source : Inode) (ino newParentIno : Nat) (newName : String) : FsM σ Bool := do
  let target ← lookup newParentIno newName
  match target with
  | none => pure true
  | some targetIno =>
    if targetIno = ino then
      pure false
    else do
      let target ← getattr targetIno
      match source.isDir, target.isDir with
      | true, false => throw .notDir
      | false, true => throw .isDir
      | true, true => rmdir newParentIno newName
      | false, false => unlink newParentIno newName
      pure true

/-- The part of `rename` that moves a directory below another parent. -/
def moveDirectory (source : Inode) (parentIno newParentIno : Nat) : FsM σ Unit := do
  updateDotdot source newParentIno
  let time ← now
  let oldParent ← getattr parentIno
  writeInode parentIno
    { oldParent with nlink := saturatingPred oldParent.nlink, mtime := time, ctime := time }
  let newParent ← getattr newParentIno
  writeInode newParentIno
    { newParent with nlink := newParent.nlink + 1, mtime := time, ctime := time }

def rename (parentIno : Nat) (name : String) (newParentIno : Nat) (newName : String) :
    FsM σ Unit :=
  if parentIno = newParentIno ∧ name = newName then
    pure ()
  else do
    let found ← lookup parentIno name
    match found with
    | none => throw .notFound
    | some ino => do
      let source ← getattr ino
      let proceed ← replaceTarget source ino newParentIno newName
      if proceed then
        addDirEntry newParentIno ino newName (if source.isDir then FILE_TYPE_DIR else FILE_TYPE_FILE)
        removeDirEntry parentIno name
        if source.isDir ∧ parentIno ≠ newParentIno then
          moveDirectory source parentIno newParentIno
        sync
      else
        pure ()

end AlbumFs

end AlbumFS
