import AlbumFS.Dirs.Records

/-!
# Walks over any directory block

The record loops over a block of a directory are written here once more, with everything checked on which they
rely: that a slice or an index lies inside its bytes, that a copy has the length of its target, that a subtraction
does not go below zero, and that a record length that is built is at most that of a block. Where a check fails,
and when a loop comes to a 337th record, the walk ends with `none`, which is no error of the file system.

## Main definitions

* `Checked`: results that may also be failed checks.
* `blockRecordsChecked`, `insertRecordChecked`, `removeRecordChecked`, `repointDotdotChecked`: the loops of
  `directory_entries`, `add_dir_entry`, `remove_dir_entry` and `update_dotdot`.

## Main results

* `DirEntry.decodeChecked_eq`, `DirEntry.encodeIntoChecked_eq`: records are read and written inside their bytes.
* `directoryWalks_safe`: whatever the block holds, no check of a loop fails.
-/

namespace AlbumFS

/-- Results of code with checks; the error `none` is a check that failed. -/
abbrev Checked (α : Type) : Type := Except (Option FsError) α

namespace Checked

variable {α β : Type}

/-- A result that needs no check. -/
def ofResult (r : Except FsError α) : Checked α := r.mapError some

/-- A check. -/
def require (p : Prop) [Decidable p] : Checked Unit := if p then .ok () else .error none

/-- `bytes[start..stop]`. -/
def sliced (bytes : List UInt8) (start stop : Nat) : Checked (List UInt8) := do
  require (start ≤ stop ∧ stop ≤ bytes.length)
  .ok (slice bytes start (stop - start))

/-- `bytes[index]`. -/
def byteAt (bytes : List UInt8) (index : Nat) : Checked UInt8 := do
  require (index < bytes.length)
  .ok (bytes.getD index 0)

/-- `bytes[start..stop].copy_from_slice(source)`. -/
def copied (bytes : List UInt8) (start stop : Nat) (source : List UInt8) : Checked (List UInt8) := do
  require (start ≤ stop ∧ stop ≤ bytes.length ∧ source.length = stop - start)
  .ok (overwrite bytes start source)

/-- The same in a block. -/
def written (block : Block) (start stop : Nat) (source : List UInt8) : Checked Block := do
  require (start ≤ stop ∧ stop ≤ UB ∧ source.length = stop - start)
  .ok (block.write start source)

/-- `a - b`. -/
def minus (a b : Nat) : Checked Nat := do
  require (b ≤ a)
  .ok (a - b)

/-- `n as u16`, the length of a record. -/
def recLen (n : Nat) : Checked UInt16 := do
  require (n ≤ UB)
  .ok (UInt16.ofNat n)

theorem require_eq {p : Prop} [Decidable p] (h : p) : require p = .ok () := if_pos h

theorem ok_bind (a : α) (f : α → Checked β) : (Except.ok a : Checked α) >>= f = f a := rfl

theorem error_bind (e : Option FsError) (f : α → Checked β) : (Except.error e : Checked α) >>= f = .error e :=
  rfl

theorem ofResult_bind (r : Except FsError α) (f : α → Except FsError β) :
    ofResult (r >>= f) = ofResult r >>= fun a => ofResult (f a) := by
  cases r <;> rfl

theorem ofResult_map (r : Except FsError α) (f : α → β) : ofResult (r.map f) = (ofResult r).map f := by
  cases r <;> rfl

/-- No check has failed. -/
theorem ofResult_ne_none (r : Except FsError α) : ofResult r ≠ .error none := by
  cases r <;> simp [ofResult, Except.mapError]

variable {bytes source : List UInt8} {start stop : Nat}

theorem sliced_eq (h : start ≤ stop) (h' : stop ≤ bytes.length) :
    sliced bytes start stop = .ok (slice bytes start (stop - start)) := by
  rw [sliced, require_eq ⟨h, h'⟩, ok_bind]

theorem byteAt_eq {index : Nat} (h : index < bytes.length) : byteAt bytes index = .ok (bytes.getD index 0) := by
  rw [byteAt, require_eq h, ok_bind]

theorem copied_eq (h : start + source.length = stop) (h' : stop ≤ bytes.length) :
    copied bytes start stop source = .ok (overwrite bytes start source) := by
  rw [copied, require_eq ⟨by omega, h', by omega⟩, ok_bind]

theorem written_eq {block : Block} (h : start + source.length = stop) (h' : stop ≤ UB) :
    written block start stop source = .ok (block.write start source) := by
  rw [written, require_eq ⟨by omega, h', by omega⟩, ok_bind]

theorem minus_eq {a b : Nat} (h : b ≤ a) : minus a b = .ok (a - b) := by
  rw [minus, require_eq h, ok_bind]

theorem recLen_eq {n : Nat} (h : n ≤ UB) : recLen n = .ok (UInt16.ofNat n) := by
  rw [recLen, require_eq h, ok_bind]

end Checked

open Checked

/-! ### Records -/

namespace DirEntry

/-- `DirEntry::new` with its record length checked. -/
def newChecked (inode : UInt64) (name : String) (fileType : UInt8) (recLen : Nat) : Checked DirEntry :=
  if nameLen name > 255 ∨ recLen < requiredLen (nameLen name) ∨ recLen > 65535 then
    .error (some (.manifest "invalid directory entry size"))
  else do
    let recLen ← Checked.recLen recLen
    .ok { inode, recLen, name, fileType }

/-- `DirEntry::encode_into` with checked copies. -/
def encodeIntoChecked (entry : DirEntry) (target : List UInt8) : Checked (List UInt8) :=
  let recLen := entry.recLen.toNat
  if target.length < recLen ∨ recLen < requiredLen (nameLen entry.name) then
    .error (some (.manifest "directory entry does not fit"))
  else do
    let target ← copied target 0 recLen (List.replicate recLen 0)
    let target ← copied target 0 8 (u64LE entry.inode)
    let target ← copied target 8 10 (u16LE entry.recLen)
    let target ← copied target 10 11 [UInt8.ofNat (nameLen entry.name)]
    let target ← copied target 11 12 [entry.fileType]
    copied target 12 (12 + nameLen entry.name) (utf8 entry.name)

/-- `DirEntry::decode` with checked slices. -/
def decodeChecked (block : List UInt8) (offset : Nat) : Checked DirEntry := do
  let headerEnd ← ofResult (addOr offset 12 "directory entry offset overflow")
  if headerEnd > block.length then
    .error (some (.manifest "truncated directory entry"))
  else do
    let inode ← sliced block offset (offset + 8)
    let recLen ← sliced block (offset + 8) (offset + 10)
    let len ← byteAt block (offset + 10)
    let recEnd ← ofResult (addOr offset (u16At recLen 0).toNat "directory entry record overflow")
    if u16At recLen 0 = 0 ∨ ¬4 ∣ (u16At recLen 0).toNat ∨ recEnd > block.length ∨
        12 + len.toNat > (u16At recLen 0).toNat then
      .error (some (.manifest "invalid directory entry record"))
    else do
      let nameEnd ← ofResult (addOr headerEnd len.toNat "directory entry name overflow")
      let name ← sliced block headerEnd nameEnd
      match fromUtf8 name with
      | none => .error (some (.manifest "directory entry name is not UTF-8"))
      | some name => do
        let fileType ← byteAt block (offset + 11)
        .ok { inode := u64At inode 0, recLen := u16At recLen 0, name, fileType }

theorem newChecked_eq {inode : UInt64} {name : String} {fileType : UInt8} {recLen : Nat} (h : recLen ≤ UB) :
    newChecked inode name fileType recLen = ofResult (new inode name fileType recLen) := by
  unfold newChecked new
  split_ifs
  · rfl
  · rw [Checked.recLen_eq h, ok_bind]
    rfl

/-- A record is written inside its target. -/
theorem encodeIntoChecked_eq (entry : DirEntry) (target : List UInt8) :
    encodeIntoChecked entry target = ofResult (encodeInto entry target) := by
  unfold encodeIntoChecked encodeInto
  dsimp only
  split_ifs with h
  · rfl
  · have hneeded := requiredLen_ge (nameLen entry.name)
    have hname : (utf8 entry.name).length = nameLen entry.name := rfl
    rw [copied_eq (by rw [List.length_replicate, Nat.zero_add]) (by omega), ok_bind,
      copied_eq (by rw [length_u64LE]) (by rw [length_overwrite]; omega), ok_bind,
      copied_eq (by rw [length_u16LE]) (by simp only [length_overwrite]; omega), ok_bind,
      copied_eq (by rfl) (by simp only [length_overwrite]; omega), ok_bind,
      copied_eq (by rfl) (by simp only [length_overwrite]; omega), ok_bind,
      copied_eq (by rw [hname]) (by simp only [length_overwrite]; omega)]
    rfl

theorem length_encodeInto {entry : DirEntry} {target record : List UInt8}
    (h : entry.encodeInto target = .ok record) : record.length = target.length := by
  unfold encodeInto at h
  dsimp only at h
  split_ifs at h
  rw [← Except.ok.inj h, length_overwriteAll, length_overwrite]

/-- A record is read inside its block, whatever the block holds. -/
theorem decodeChecked_eq (block : List UInt8) (offset : Nat) :
    decodeChecked block offset = ofResult (decode block offset) := by
  unfold decodeChecked decode
  rw [ofResult_bind]
  cases hheader : addOr offset 12 "directory entry offset overflow" with
  | error e => rfl
  | ok headerEnd =>
    obtain rfl := le_of_addOr_eq_ok hheader
    change _ = ofResult (if offset + 12 > block.length then _ else _)
    change (if offset + 12 > block.length then _ else _ : Checked DirEntry) = _
    split_ifs with hlen
    · rfl
    have hrec : u16At (slice block (offset + 8) 2) 0 = u16At block (offset + 8) := by
      rw [u16At, u16At, slice_slice (Nat.le_refl 2), Nat.add_zero]
    have hino : u64At (slice block offset 8) 0 = u64At block offset := by
      rw [u64At, u64At, slice_slice (Nat.le_refl 8), Nat.add_zero]
    rw [sliced_eq (by omega) (by omega), ok_bind, sliced_eq (by omega) (by omega), ok_bind,
      byteAt_eq (by omega), ok_bind, Nat.add_sub_cancel_left, show offset + 10 - (offset + 8) = 2 by omega, hrec,
      hino, ofResult_bind]
    cases hend : addOr offset (u16At block (offset + 8)).toNat "directory entry record overflow" with
    | error e => rfl
    | ok recEnd =>
      obtain rfl := le_of_addOr_eq_ok hend
      change (if _ then _ else _ : Checked DirEntry) = ofResult (if _ then _ else _)
      split_ifs with hcheck
      · rfl
      simp only [not_or, Nat.not_lt] at hcheck
      rw [ofResult_bind]
      cases hname : addOr (offset + 12) (block.getD (offset + 10) 0).toNat "directory entry name overflow" with
      | error e => rfl
      | ok nameEnd =>
        obtain rfl := le_of_addOr_eq_ok hname
        change (sliced block (offset + 12) _ >>= _ : Checked DirEntry) = _
        rw [sliced_eq (by omega) (by omega), ok_bind]
        change _ = ofResult (match fromUtf8 (slice block (offset + 12) _) with | none => _ | some name => _)
        cases fromUtf8 (slice block (offset + 12)
            (offset + 12 + (block.getD (offset + 10) 0).toNat - (offset + 12))) with
        | none => rfl
        | some name =>
          dsimp only
          rw [byteAt_eq (by omega), ok_bind]
          rfl

end DirEntry

/-! ### The loops -/

namespace AlbumFs

/-- The loop of `directory_entries` over at most `n` more records. -/
def blockRecordsChecked (payload : Block) : Nat → Nat → Checked (List (Nat × DirEntry))
  | 0, offset => do
    require (¬offset < UB)
    .ok []
  | n + 1, offset =>
    if offset < UB then do
      let entry ← DirEntry.decodeChecked payload.bytes offset
      let rest ← blockRecordsChecked payload n (offset + entry.recLen.toNat)
      .ok ((offset, entry) :: rest)
    else
      .ok []

/-- `putRecord` with checks. -/
def putRecordChecked (payload : Block) (offset : Nat) (ino : UInt64) (name : String) (fileType : UInt8)
    (recLen : Nat) : Checked Block := do
  let entry ← DirEntry.newChecked ino name fileType recLen
  let target ← sliced payload.bytes offset (offset + recLen)
  let record ← entry.encodeIntoChecked target
  written payload offset (offset + recLen) record

theorem putRecordChecked_eq {payload : Block} {offset recLen : Nat} (h : offset + recLen ≤ UB) (ino : UInt64)
    (name : String) (fileType : UInt8) :
    putRecordChecked payload offset ino name fileType recLen =
      ofResult (putRecord payload offset ino name fileType recLen) := by
  have hlen := payload.length_bytes
  rw [putRecordChecked, putRecord, DirEntry.newChecked_eq (by omega), ofResult_bind]
  congr 1
  funext entry
  rw [sliced_eq (by omega) (by omega), ok_bind, Nat.add_sub_cancel_left, DirEntry.encodeIntoChecked_eq,
    ofResult_bind]
  cases hrecord : entry.encodeInto (slice payload.bytes offset recLen) with
  | error e => rfl
  | ok record =>
    have hrecord' : record.length = recLen := by
      rw [DirEntry.length_encodeInto hrecord, length_slice (by omega)]
    exact written_eq (by rw [hrecord']) h

/-- The loop of `add_dir_entry` over at most `n` more records. -/
def insertRecordChecked (ino : UInt64) (name : String) (fileType : UInt8) (payload : Block) :
    Nat → Nat → Checked (Option Block)
  | 0, offset => do
    require (¬offset < UB)
    .ok none
  | n + 1, offset =>
    let needed := DirEntry.requiredLen (nameLen name)
    if offset < UB then do
      let entry ← DirEntry.decodeChecked payload.bytes offset
      let recLen := entry.recLen.toNat
      if entry.inode = 0 ∧ recLen ≥ needed then
        (putRecordChecked payload offset ino name fileType recLen).map some
      else do
        let minimal := DirEntry.requiredLen (nameLen entry.name)
        -- The subtraction is only reached for live records.
        let fits ← (if entry.inode ≠ 0 then do
            let slack ← minus recLen minimal
            .ok (decide (slack ≥ needed))
          else .ok false)
        if fits then do
          let short ← Checked.recLen minimal
          let payload ← written payload (offset + 8) (offset + 10) (u16LE short)
          let newLen ← minus recLen minimal
          (putRecordChecked payload (offset + minimal) ino name fileType newLen).map some
        else
          insertRecordChecked ino name fileType payload n (offset + recLen)
    else
      .ok none

/-- The loop of `remove_dir_entry` over at most `n` more records. -/
def removeRecordChecked (name : String) (payload : Block) : Nat → Nat → Option Nat → Checked (Option Block)
  | 0, offset, _ => do
    require (¬offset < UB)
    .ok none
  | n + 1, offset, previous =>
    if offset < UB then do
      let entry ← DirEntry.decodeChecked payload.bytes offset
      let recLen := entry.recLen.toNat
      if entry.inode ≠ 0 ∧ entry.name = name then
        match previous with
        | some previousOffset => do
          let oldLen ← sliced payload.bytes (previousOffset + 8) (previousOffset + 10)
          let combined ← Checked.recLen ((u16At oldLen 0).toNat + recLen)
          let payload ← written payload (previousOffset + 8) (previousOffset + 10) (u16LE combined)
          .ok (some payload)
        | none => do
          let payload ← written payload offset (offset + 8) (List.replicate 8 0)
          .ok (some payload)
      else
        removeRecordChecked name payload n (offset + recLen) (if entry.inode ≠ 0 then some offset else previous)
    else
      .ok none

/-- The loop of `update_dotdot` over at most `n` more records. -/
def repointDotdotChecked (newParent : UInt64) (payload : Block) : Nat → Nat → Checked (Option Block)
  | 0, offset => do
    require (¬offset < UB)
    .ok none
  | n + 1, offset =>
    if offset < UB then do
      let entry ← DirEntry.decodeChecked payload.bytes offset
      if entry.inode ≠ 0 ∧ entry.name = ".." then do
        let payload ← written payload offset (offset + 8) (u64LE newParent)
        .ok (some payload)
      else
        repointDotdotChecked newParent payload n (offset + entry.recLen.toNat)
    else
      .ok none

/-! ### No check fails -/

variable {payload : Block} {offset n : Nat} {name : String}

/-- With twelve bytes for every record that may still come, the records reach the end of the block. -/
theorem blockRecordsChecked_eq (h : UB ≤ offset + 12 * n) :
    blockRecordsChecked payload n offset = ofResult (blockRecords payload offset) := by
  induction n generalizing offset with
  | zero =>
    have hend : ¬offset < UB := by omega
    rw [blockRecordsChecked, require_eq hend, ok_bind, blockRecords, if_neg hend]
    rfl
  | succ n ih =>
    rw [blockRecordsChecked, blockRecords]
    by_cases hlt : offset < UB
    · rw [if_pos hlt, if_pos hlt, DirEntry.decodeChecked_eq]
      cases hdecode : DirEntry.decode payload.bytes offset with
      | error e => rfl
      | ok entry =>
        have hge := (DirEntry.isRecord_of_decode payload.length_le hdecode).recLen_ge
        change blockRecordsChecked payload n _ >>= _ = ofResult (blockRecords payload _ >>= _)
        rw [ofResult_bind, ih (by omega)]
        rfl
    · rw [if_neg hlt, if_neg hlt]
      rfl

theorem insertRecordChecked_eq (h : UB ≤ offset + 12 * n) (ino : UInt64) (fileType : UInt8) :
    insertRecordChecked ino name fileType payload n offset =
      ofResult (insertRecord ino name fileType payload offset) := by
  induction n generalizing offset with
  | zero =>
    have hend : ¬offset < UB := by omega
    rw [insertRecordChecked, require_eq hend, ok_bind, insertRecord]
    dsimp only
    rw [if_neg hend]
    rfl
  | succ n ih =>
    rw [insertRecordChecked, insertRecord]
    dsimp only
    by_cases hlt : offset < UB
    · rw [if_pos hlt, if_pos hlt, DirEntry.decodeChecked_eq]
      cases hdecode : DirEntry.decode payload.bytes offset with
      | error e => rfl
      | ok entry =>
        have hrecord := DirEntry.isRecord_of_decode payload.length_le hdecode
        have hge := hrecord.recLen_ge
        have hend := hrecord.end_le
        rw [payload.length_bytes] at hend
        -- The name of an accepted record never needs more than the record has.
        have hminimal := hrecord.requiredLen_le
        have hheader := DirEntry.requiredLen_ge (nameLen entry.name)
        change (if _ then _ else _ : Checked (Option Block)) = ofResult (if _ then _ else _)
        by_cases hfree : entry.inode = 0 ∧ entry.recLen.toNat ≥ DirEntry.requiredLen (nameLen name)
        · rw [if_pos hfree, if_pos hfree, putRecordChecked_eq hend, ofResult_map]
        rw [if_neg hfree, if_neg hfree]
        by_cases hlive : entry.inode = 0
        · simp only [hlive, ne_eq, not_true, false_and, if_false, ok_bind, Bool.false_eq_true]
          exact ih (by omega)
        simp only [ne_eq, hlive, not_false_iff, true_and, if_true, minus_eq hminimal, ok_bind, decide_eq_true_eq]
        split_ifs with hfits
        · rw [Checked.recLen_eq (by omega), ok_bind, written_eq (by rw [length_u16LE]) (by omega), ok_bind,
            putRecordChecked_eq (by omega), ofResult_map]
        · exact ih (by omega)
    · rw [if_neg hlt, if_neg hlt]
      rfl

theorem repointDotdotChecked_eq (h : UB ≤ offset + 12 * n) (newParent : UInt64) :
    repointDotdotChecked newParent payload n offset = ofResult (repointDotdot newParent payload offset) := by
  induction n generalizing offset with
  | zero =>
    have hend : ¬offset < UB := by omega
    rw [repointDotdotChecked, require_eq hend, ok_bind, repointDotdot, if_neg hend]
    rfl
  | succ n ih =>
    rw [repointDotdotChecked, repointDotdot]
    by_cases hlt : offset < UB
    · rw [if_pos hlt, if_pos hlt, DirEntry.decodeChecked_eq]
      cases hdecode : DirEntry.decode payload.bytes offset with
      | error e => rfl
      | ok entry =>
        have hrecord := DirEntry.isRecord_of_decode payload.length_le hdecode
        have hge := hrecord.recLen_ge
        have hend := hrecord.end_le
        rw [payload.length_bytes] at hend
        change (if _ then _ else _ : Checked (Option Block)) = ofResult (if _ then _ else _)
        split_ifs with hfound
        · rw [written_eq (by rw [length_u64LE]) (by omega)]
          rfl
        · exact ih (by omega)
    · rw [if_neg hlt, if_neg hlt]
      rfl

/-- The live record last passed lies before the position of the walk. -/
theorem removeRecordChecked_eq {previous : Option Nat} (h : UB ≤ offset + 12 * n) (hoffset : offset ≤ UB)
    (hprevious : ∀ p, previous = some p → p + 10 ≤ offset ∧
      p + (u16At payload.bytes (p + 8)).toNat ≤ offset) :
    removeRecordChecked name payload n offset previous = ofResult (removeRecord name payload offset previous) := by
  induction n generalizing offset previous with
  | zero =>
    have hend : ¬offset < UB := by omega
    rw [removeRecordChecked, require_eq hend, ok_bind, removeRecord, if_neg hend]
    rfl
  | succ n ih =>
    rw [removeRecordChecked, removeRecord]
    by_cases hlt : offset < UB
    · rw [if_pos hlt, if_pos hlt, DirEntry.decodeChecked_eq]
      cases hdecode : DirEntry.decode payload.bytes offset with
      | error e => rfl
      | ok entry =>
        have hrecord := DirEntry.isRecord_of_decode payload.length_le hdecode
        have hge := hrecord.recLen_ge
        have hend := hrecord.end_le
        rw [payload.length_bytes] at hend
        change (if _ then _ else _ : Checked (Option Block)) = ofResult (if _ then _ else _)
        by_cases hfound : entry.inode ≠ 0 ∧ entry.name = name
        · rw [if_pos hfound, if_pos hfound]
          cases previous with
          | none =>
            dsimp only
            rw [written_eq (by rw [List.length_replicate]) (by omega)]
            rfl
          | some p =>
            obtain ⟨hheader, hlen⟩ := hprevious p rfl
            have holdLen : u16At (slice payload.bytes (p + 8) 2) 0 = u16At payload.bytes (p + 8) := by
              rw [u16At, u16At, slice_slice (Nat.le_refl 2), Nat.add_zero]
            dsimp only
            rw [sliced_eq (by omega) (by rw [payload.length_bytes]; omega), ok_bind,
              show p + 10 - (p + 8) = 2 by omega, holdLen, Checked.recLen_eq (by omega), ok_bind,
              written_eq (by rw [length_u16LE]) (by omega)]
            rfl
        · rw [if_neg hfound, if_neg hfound]
          refine ih (by omega) hend fun p hp => ?_
          split_ifs at hp with hlive
          · obtain rfl := Option.some.inj hp
            rw [u16At_eq hrecord.recLen_eq]
            omega
          · have := hprevious p hp
            omega
    · rw [if_neg hlt, if_neg hlt]
      rfl

end AlbumFs

/-- Whatever a block of a directory holds, and whatever the name, the four walks come to an end after at most 336
records, and what they return is a result of the file system: no check fails. -/
theorem directoryWalks_safe (payload : Block) (name : String) (ino newParent : UInt64) (fileType : UInt8) :
    AlbumFs.blockRecordsChecked payload 336 0 = ofResult (AlbumFs.blockRecords payload 0) ∧
    AlbumFs.insertRecordChecked ino name fileType payload 336 0 =
      ofResult (AlbumFs.insertRecord ino name fileType payload 0) ∧
    AlbumFs.removeRecordChecked name payload 336 0 none =
      ofResult (AlbumFs.removeRecord name payload 0 none) ∧
    AlbumFs.repointDotdotChecked newParent payload 336 0 =
      ofResult (AlbumFs.repointDotdot newParent payload 0) := by
  have hrecords : UB ≤ 0 + 12 * 336 := by rw [UB_eq]
  exact ⟨AlbumFs.blockRecordsChecked_eq hrecords, AlbumFs.insertRecordChecked_eq hrecords ino fileType,
    AlbumFs.removeRecordChecked_eq hrecords (Nat.zero_le _) (by rintro _ ⟨⟩),
    AlbumFs.repointDotdotChecked_eq hrecords newParent⟩

end AlbumFS
