import AlbumFS.Fs.Error
import AlbumFS.Lib.Bytes

/-!
# Directory records

The records of `fs/dirent.rs`. A record of length `recLen` holds, from its first byte, an inode
number in eight bytes, its own length in two, the length of the name, the type byte and the name.
A record whose inode number is zero is free.

## Main results

* `DirEntry.decode_eq_ok_iff`: what a decoded record says about the bytes it was read from.
* `DirEntry.decode_congr`: decoding depends on the bytes of the record only.
* `DirEntry.requiredLen_le`: an accepted record is long enough for its name.
-/

namespace AlbumFS

def FILE_TYPE_FILE : UInt8 := 1

def FILE_TYPE_DIR : UInt8 := 2

structure DirEntry where
  inode : UInt64
  recLen : UInt16
  name : String
  fileType : UInt8
  deriving DecidableEq, Repr

/-- `name.len()`, the length in bytes. -/
def nameLen (name : String) : Nat := (utf8 name).length

namespace DirEntry

/-- The record length a name of `nameLen` bytes needs. -/
def requiredLen (nameLen : Nat) : Nat := divCeil (12 + nameLen) 4 * 4

def new (inode : UInt64) (name : String) (fileType : UInt8) (recLen : Nat) :
    Except FsError DirEntry :=
  if nameLen name > 255 ∨ recLen < requiredLen (nameLen name) ∨ recLen > 65535 then
    .error (.manifest "invalid directory entry size")
  else
    .ok { inode, recLen := UInt16.ofNat recLen, name, fileType }

/-- Write the record over the front of `target`. -/
def encodeInto (entry : DirEntry) (target : List UInt8) : Except FsError (List UInt8) :=
  let recLen := entry.recLen.toNat
  if target.length < recLen ∨ recLen < requiredLen (nameLen entry.name) then
    .error (.manifest "directory entry does not fit")
  else
    let target := overwrite target 0 (List.replicate recLen 0)
    .ok (overwriteAll target
      [(0, u64LE entry.inode), (8, u16LE entry.recLen),
        (10, [UInt8.ofNat (nameLen entry.name)]), (11, [entry.fileType]),
        (12, utf8 entry.name)])

/-- `a.checked_add(b)`, the error carrying `message`. -/
def addOr (a b : Nat) (message : String) : Except FsError Nat :=
  match checkedAdd a b with
  | some n => .ok n
  | none => .error (.manifest message)

/-- Read the record at `offset` of a directory block. -/
def decode (block : List UInt8) (offset : Nat) : Except FsError DirEntry := do
  let headerEnd ← addOr offset 12 "directory entry offset overflow"
  if headerEnd > block.length then
    .error (.manifest "truncated directory entry")
  else
    let inode := u64At block offset
    let recLen := u16At block (offset + 8)
    let len := (block.getD (offset + 10) 0).toNat
    let recEnd ← addOr offset recLen.toNat "directory entry record overflow"
    if recLen = 0 ∨ ¬ 4 ∣ recLen.toNat ∨ recEnd > block.length ∨ 12 + len > recLen.toNat then
      .error (.manifest "invalid directory entry record")
    else
      let nameEnd ← addOr headerEnd len "directory entry name overflow"
      match fromUtf8 (slice block headerEnd (nameEnd - headerEnd)) with
      | none => .error (.manifest "directory entry name is not UTF-8")
      | some name => .ok { inode, recLen, name, fileType := block.getD (offset + 11) 0 }

theorem addOr_of_lt {a b : Nat} (message : String) (h : a + b < 2 ^ 64) :
    addOr a b message = .ok (a + b) := by
  rw [addOr, checkedAdd_of_lt h]

theorem le_of_addOr_eq_ok {a b n : Nat} {message : String} (h : addOr a b message = .ok n) :
    n = a + b := by
  unfold addOr checkedAdd at h
  split_ifs at h
  · exact (Except.ok.inj h).symm

theorem requiredLen_ge (n : Nat) : 12 + n ≤ requiredLen n := by
  unfold requiredLen divCeil
  omega

theorem dvd_requiredLen (n : Nat) : 4 ∣ requiredLen n := ⟨_, Nat.mul_comm _ _⟩

/-- A record whose length is a multiple of four and that holds its name is long enough. -/
theorem requiredLen_le {n r : Nat} (h : 12 + n ≤ r) (hr : 4 ∣ r) : requiredLen n ≤ r := by
  obtain ⟨k, rfl⟩ := hr
  unfold requiredLen divCeil
  omega

theorem requiredLen_lt (n : Nat) : requiredLen n < 12 + n + 4 := by
  unfold requiredLen divCeil
  omega

/-- The bytes of a buffer form the record `e` at `offset`. -/
structure IsRecord (block : List UInt8) (offset : Nat) (e : DirEntry) : Prop where
  inode_eq : slice block offset 8 = u64LE e.inode
  recLen_eq : slice block (offset + 8) 2 = u16LE e.recLen
  nameLen_eq : block[offset + 10]? = some (UInt8.ofNat (nameLen e.name))
  fileType_eq : block[offset + 11]? = some e.fileType
  name_eq : slice block (offset + 12) (nameLen e.name) = utf8 e.name
  nameLen_le : nameLen e.name ≤ 255
  name_fits : 12 + nameLen e.name ≤ e.recLen.toNat
  dvd_recLen : 4 ∣ e.recLen.toNat
  end_le : offset + e.recLen.toNat ≤ block.length

variable {block block' : List UInt8} {offset : Nat} {e : DirEntry}

theorem IsRecord.recLen_ge (h : IsRecord block offset e) : 12 ≤ e.recLen.toNat := by
  have := h.name_fits
  omega

theorem IsRecord.requiredLen_le (h : IsRecord block offset e) :
    requiredLen (nameLen e.name) ≤ e.recLen.toNat :=
  DirEntry.requiredLen_le h.name_fits h.dvd_recLen

/-- A successful decoding returns the record that the bytes form. -/
theorem isRecord_of_decode (hlen : block.length ≤ 65535)
    (h : decode block offset = .ok e) : IsRecord block offset e := by
  unfold decode at h
  cases hh : addOr offset 12 "directory entry offset overflow" with
  | error _ => simp [hh, bind, Except.bind] at h
  | ok headerEnd =>
    obtain rfl := le_of_addOr_eq_ok hh
    simp only [hh, bind, Except.bind] at h
    split at h
    · cases h
    rename_i hoff
    have hrec : (u16At block (offset + 8)).toNat < 65536 := UInt16.toNat_lt _
    have hnl : (block.getD (offset + 10) 0).toNat < 256 := UInt8.toNat_lt _
    rw [addOr_of_lt _ (by omega), addOr_of_lt _ (by omega)] at h
    simp only [Nat.add_sub_cancel_left] at h
    split at h
    · cases h
    rename_i hchk
    simp only [not_or, Decidable.not_not] at hchk
    obtain ⟨h0, h4, hend, hfit⟩ := hchk
    split at h
    · cases h
    rename_i name hname
    rw [fromUtf8_eq_some_iff] at hname
    simp only [Except.ok.injEq] at h
    subst h
    have hn : nameLen name = (block.getD (offset + 10) 0).toNat := by
      rw [nameLen, ← hname, length_slice (by omega)]
    have hle : nameLen name ≤ 255 := by omega
    have hfit' : 12 + nameLen name ≤ (u16At block (offset + 8)).toNat := by omega
    have hend' : offset + (u16At block (offset + 8)).toNat ≤ block.length := by omega
    refine ⟨(u64LE_u64At (by omega)).symm, (u16LE_u16At (by omega)).symm, ?_, ?_, ?_, hle, hfit',
      h4, hend'⟩
    · rw [hn, UInt8.ofNat_toNat, List.getD_eq_getElem?_getD, List.getElem?_eq_getElem (by omega),
        Option.getD_some]
    · rw [List.getD_eq_getElem?_getD, List.getElem?_eq_getElem (by omega), Option.getD_some]
    · rw [hn, hname]

/-- The record that the bytes form is decoded. -/
theorem decode_of_isRecord (hlen : block.length ≤ 65535) (h : IsRecord block offset e) :
    decode block offset = .ok e := by
  have hfit := h.name_fits
  have hend := h.end_le
  have hge := h.recLen_ge
  have hle := h.nameLen_le
  have hrl : u16At block (offset + 8) = e.recLen := u16At_eq h.recLen_eq
  have hino : u64At block offset = e.inode := u64At_eq h.inode_eq
  have hnl : (block.getD (offset + 10) 0).toNat = nameLen e.name := by
    rw [List.getD_eq_getElem?_getD, h.nameLen_eq, Option.getD_some]
    simp [Nat.mod_eq_of_lt (show nameLen e.name < 256 by omega)]
  have hft : block.getD (offset + 11) 0 = e.fileType := by
    rw [List.getD_eq_getElem?_getD, h.fileType_eq, Option.getD_some]
  have hrec : e.recLen.toNat < 65536 := UInt16.toNat_lt _
  have h0 : e.recLen ≠ 0 := by
    intro h0
    rw [h0] at hge
    exact absurd hge (by decide)
  have h4 := h.dvd_recLen
  unfold decode
  rw [addOr_of_lt _ (by omega)]
  simp only [bind, Except.bind]
  rw [if_neg (by omega), hrl, hino, hnl, hft, addOr_of_lt _ (by omega), addOr_of_lt _ (by omega)]
  simp only [Nat.add_sub_cancel_left, h.name_eq, fromUtf8_utf8]
  rw [if_neg]
  simp only [h0, h4, not_true, false_or]
  omega

theorem decode_eq_ok_iff (hlen : block.length ≤ 65535) :
    decode block offset = .ok e ↔ IsRecord block offset e :=
  ⟨isRecord_of_decode hlen, decode_of_isRecord hlen⟩

/-- Whether the bytes form a record depends on the bytes of the record only. -/
theorem IsRecord.congr (h : IsRecord block offset e) (hlen : offset + e.recLen.toNat ≤ block'.length)
    (heq : ∀ i, offset ≤ i → i < offset + e.recLen.toNat → block'[i]? = block[i]?) :
    IsRecord block' offset e := by
  have hfit := h.name_fits
  refine ⟨?_, ?_, ?_, ?_, ?_, h.nameLen_le, hfit, h.dvd_recLen, hlen⟩
  · rw [← h.inode_eq]
    exact slice_congr fun i hi hi' => heq i hi (by omega)
  · rw [← h.recLen_eq]
    exact slice_congr fun i hi hi' => heq i (by omega) (by omega)
  · rw [heq _ (by omega) (by omega), h.nameLen_eq]
  · rw [heq _ (by omega) (by omega), h.fileType_eq]
  · conv_rhs => rw [← h.name_eq]
    exact slice_congr fun i hi hi' => heq i (by omega) (by omega)

/-- Decoding depends on the bytes of the record only. -/
theorem decode_congr (h : decode block offset = .ok e) (hb : block.length ≤ 65535)
    (hlen : block'.length = block.length)
    (heq : ∀ i, offset ≤ i → i < offset + e.recLen.toNat → block'[i]? = block[i]?) :
    decode block' offset = .ok e := by
  have hr := (decode_eq_ok_iff hb).1 h
  rw [decode_eq_ok_iff (by omega)]
  exact hr.congr (by have := hr.end_le; omega) heq

end DirEntry

end AlbumFS
