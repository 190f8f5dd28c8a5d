import AlbumFS.Ops.Directory
import AlbumFS.Lib.FirstFit

/-!
# The records of a directory block

The records of a directory block follow one another from its first byte to its last. A row of records is a
row of chunks in the sense of `AlbumFS.Lib.FirstFit`: a record with inode number zero is free, and a live one
holds its entry. Adding an entry to the block is placing it in this row.

## Main definitions

* `IsChain`: records that follow one another up to the end of the block.
* `DirEntry.chunk`: a record as a chunk.

## Main results

* `blockRecords_eq_ok_iff`: the blocks that decode as a whole are those with a chain of records.
* `insertRecord_eq_place`: adding an entry to a block.
-/

namespace AlbumFS

open FirstFit

/-- What a live record says: a number, a name and a type. -/
abbrev Entry : Type := Nat × String × UInt8

/-- The record length that an entry needs. -/
def Entry.need (a : Entry) : Nat := DirEntry.requiredLen (nameLen a.2.1)

/-- The entry of a live record. -/
def DirEntry.entry (e : DirEntry) : Entry := (e.inode.toNat, e.name, e.fileType)

/-- A record as a chunk: free, or with its entry. -/
def DirEntry.chunk (e : DirEntry) : Chunk Entry :=
  ⟨e.recLen.toNat, if e.inode = 0 then none else some e.entry⟩

/-- Records follow one another from `offset` to the end of a block. -/
def IsChain (block : Block) : Nat → List DirEntry → Prop
  | offset, [] => offset = UB
  | offset, e :: es => DirEntry.IsRecord block.bytes offset e ∧ IsChain block (offset + e.recLen.toNat) es

/-- The entries of the live records. -/
def liveEntries (es : List DirEntry) : List Entry := contents (es.map DirEntry.chunk)

/-- The live entries of a block are those of its records in use. -/
theorem liveEntries_eq (es : List DirEntry) :
    liveEntries es = (es.filter fun e => e.inode ≠ 0).map DirEntry.entry := by
  rw [liveEntries, contents, List.filterMap_map]
  induction es with
  | nil => rfl
  | cons e es ih =>
    by_cases hfree : e.inode = 0
    · simp [DirEntry.chunk, hfree, ih]
    · simp [DirEntry.chunk, hfree, ih]

section Chains

variable {block block' : Block} {offset : Nat} {e : DirEntry} {es : List DirEntry}

theorem Block.length_le (block : Block) : block.bytes.length ≤ 65535 := by
  rw [block.length_bytes, UB_eq]
  omega

/-- Records are long enough for their entries. -/
theorem DirEntry.IsRecord.fits (h : DirEntry.IsRecord block.bytes offset e) : e.chunk.Fits Entry.need := by
  intro a ha
  unfold chunk at ha ⊢
  dsimp only at ha ⊢
  split_ifs at ha
  · cases ha
  · obtain rfl := Option.mem_some_iff.1 ha
    exact h.requiredLen_le

theorem IsChain.le (h : IsChain block offset es) : offset ≤ UB := by
  induction es generalizing offset with
  | nil => exact h.le
  | cons e es ih => exact (Nat.le_add_right _ _).trans (ih h.2)

theorem IsChain.fits (h : IsChain block offset es) : ∀ c ∈ es.map DirEntry.chunk, c.Fits Entry.need := by
  induction es generalizing offset with
  | nil => simp
  | cons e es ih =>
    rw [List.map_cons, List.forall_mem_cons]
    exact ⟨h.1.fits, ih h.2⟩

/-- The records take up the block. -/
theorem IsChain.size_eq (h : IsChain block offset es) : offset + size (es.map DirEntry.chunk) = UB := by
  induction es generalizing offset with
  | nil => exact h
  | cons e es ih =>
    rw [List.map_cons, size_cons, ← Nat.add_assoc]
    exact ih h.2

/-- The chain depends on the bytes from `offset` on. -/
theorem IsChain.congr (h : IsChain block offset es)
    (hbytes : ∀ i, offset ≤ i → block'.bytes[i]? = block.bytes[i]?) : IsChain block' offset es := by
  induction es generalizing offset with
  | nil => exact h
  | cons e es ih =>
    refine ⟨h.1.congr ?_ fun i hi _ => hbytes i hi, ih h.2 fun i hi => hbytes i (by omega)⟩
    rw [block'.length_bytes, ← block.length_bytes]
    exact h.1.end_le

/-- A block decodes as a whole if and only if it has a chain of records. -/
theorem blockRecords_eq_ok_iff (hoffset : offset ≤ UB) :
    (∃ rs, AlbumFs.blockRecords block offset = .ok rs ∧ rs.map Prod.snd = es) ↔ IsChain block offset es := by
  induction es generalizing offset with
  | nil =>
    rw [AlbumFs.blockRecords, IsChain]
    by_cases hlt : offset < UB
    · rw [if_pos hlt]
      refine iff_of_false ?_ hlt.ne
      rintro ⟨rs, hrs, hnil⟩
      split at hrs
      · cases hrs
      · cases hrest : AlbumFs.blockRecords block (offset + _) with
        | error _ =>
          rw [hrest] at hrs
          cases hrs
        | ok rest =>
          rw [hrest] at hrs
          cases hrs
          cases hnil
    · rw [if_neg hlt]
      exact iff_of_true ⟨[], rfl, rfl⟩ (Nat.le_antisymm hoffset (Nat.not_lt.1 hlt))
  | cons e es ih =>
    rw [AlbumFs.blockRecords, IsChain]
    by_cases hlt : offset < UB
    · rw [if_pos hlt]
      split
      · rename_i error herror
        refine iff_of_false ?_ fun h => ?_
        · rintro ⟨_, h, -⟩
          cases h
        rw [DirEntry.decode_of_isRecord block.length_le h.1] at herror
        cases herror
      · rename_i entry hentry
        have hrecord := DirEntry.isRecord_of_decode block.length_le hentry
        have hend : offset + entry.recLen.toNat ≤ UB := by
          rw [← block.length_bytes]
          exact hrecord.end_le
        constructor
        · rintro ⟨rs, hrs, hmap⟩
          cases hrest : AlbumFs.blockRecords block (offset + entry.recLen.toNat) with
          | error _ =>
            rw [hrest] at hrs
            cases hrs
          | ok rest =>
            rw [hrest] at hrs
            cases hrs
            obtain ⟨rfl, htail⟩ := List.cons.inj hmap
            exact ⟨hrecord, (ih hend).1 ⟨rest, hrest, htail⟩⟩
        · rintro ⟨he, hes⟩
          rw [DirEntry.decode_of_isRecord block.length_le he] at hentry
          cases hentry
          obtain ⟨rest, hrest, hmap⟩ := (ih hend).2 hes
          refine ⟨(offset, e) :: rest, ?_, by rw [List.map_cons, hmap]⟩
          rw [hrest]
          rfl
    · rw [if_neg hlt]
      refine iff_of_false ?_ fun h => hlt ?_
      · rintro ⟨_, hrs, hmap⟩
        cases hrs
        cases hmap
      · have hend := h.1.end_le
        have hge := h.1.recLen_ge
        rw [block.length_bytes] at hend
        omega

end Chains

/-! ### Writing a record -/

section Put

variable {block : List UInt8} {offset : Nat} {e : DirEntry}

/-- The bytes of an encoded record. -/
theorem DirEntry.isRecord_of_encodeInto {target record : List UInt8} (h : e.encodeInto target = .ok record)
    (hlen : target.length = e.recLen.toNat) (hname : nameLen e.name ≤ 255) (hdvd : 4 ∣ e.recLen.toNat) :
    IsRecord record 0 e ∧ record.length = e.recLen.toNat := by
  unfold encodeInto at h
  dsimp only at h
  split_ifs at h with hfits
  obtain ⟨-, hfits⟩ := not_or.1 hfits
  have hroom := requiredLen_ge (nameLen e.name)
  have hlength : (overwrite target 0 (List.replicate e.recLen.toNat 0)).length = e.recLen.toNat := by
    rw [length_overwrite, hlen]
  have hutf8 : (utf8 e.name).length = nameLen e.name := rfl
  obtain rfl := Except.ok.inj h
  generalize htarget : overwrite target 0 (List.replicate e.recLen.toNat 0) = target' at hlength
  generalize hws : [(0, u64LE e.inode), (8, u16LE e.recLen), (10, [UInt8.ofNat (nameLen e.name)]),
    (11, [e.fileType]), (12, utf8 e.name)] = ws
  have hpairwise : ws.Pairwise fun w w' => w.1 + w.2.length ≤ w'.1 ∨ w'.1 + w'.2.length ≤ w.1 := by
    rw [← hws]
    simp
  have hfield : ∀ off bs, (off, bs) ∈ ws → off + bs.length ≤ e.recLen.toNat →
      slice (overwriteAll target' ws) off bs.length = bs := fun _ _ hmem hle =>
    slice_overwriteAll hpairwise hmem (by rwa [hlength])
  have hbyte : ∀ {off b}, (off, [b]) ∈ ws → off + 1 ≤ e.recLen.toNat →
      (overwriteAll target' ws)[off]? = some b := fun {off b} hmem hle => by
    have hone := congrArg (·[0]?) (hfield _ _ hmem hle)
    simpa only [getElem?_slice, List.length_singleton, Nat.zero_lt_one, if_true, Nat.add_zero,
      List.getElem?_cons_zero] using hone
  have hnum : (overwriteAll target' ws).length = e.recLen.toNat := by rw [length_overwriteAll, hlength]
  refine ⟨⟨?_, ?_, ?_, ?_, ?_, hname, by omega, hdvd, by omega⟩, hnum⟩
  · have hinode := hfield 0 (u64LE e.inode) (by simp [← hws]) (by rw [length_u64LE]; omega)
    rwa [length_u64LE] at hinode
  · have hrecLen := hfield 8 (u16LE e.recLen) (by simp [← hws]) (by rw [length_u16LE]; omega)
    rwa [length_u16LE] at hrecLen
  · exact hbyte (by simp [← hws]) (by omega)
  · exact hbyte (by simp [← hws]) (by omega)
  · exact hfield _ _ (by simp [← hws]) (by omega)

/-- A record that was written somewhere. -/
theorem DirEntry.IsRecord.shift {record : List UInt8} (h : IsRecord record 0 e)
    (hend : offset + e.recLen.toNat ≤ block.length)
    (hbytes : ∀ i, i < e.recLen.toNat → block[offset + i]? = record[i]?) : IsRecord block offset e := by
  have hfit := h.name_fits
  have hslice : ∀ k len, k + len ≤ e.recLen.toNat → slice block (offset + k) len = slice record k len := by
    intro k len hk
    ext1 i
    rw [getElem?_slice, getElem?_slice]
    split_ifs with hi
    · rw [Nat.add_assoc, hbytes _ (by omega)]
    · rfl
  refine ⟨?_, ?_, ?_, ?_, ?_, h.nameLen_le, hfit, h.dvd_recLen, hend⟩
  · rw [← h.inode_eq]
    exact hslice 0 8 (by omega)
  · rw [← h.recLen_eq, Nat.zero_add]
    exact hslice 8 2 (by omega)
  · rw [hbytes 10 (by omega), ← h.nameLen_eq]
  · rw [hbytes 11 (by omega), ← h.fileType_eq]
  · conv_rhs => rw [← h.name_eq]
    rw [Nat.zero_add]
    exact hslice 12 _ (by omega)

end Put

section Insert

variable {payload : Block} {offset recLen : Nat} {e : DirEntry} {es : List DirEntry} {ino : UInt64} {name : String}
  {fileType : UInt8}

theorem toNat_ofNat_recLen (h : recLen ≤ UB) : (UInt16.ofNat recLen).toNat = recLen :=
  UInt16.toNat_ofNat_of_lt' (by
    rw [UB_eq] at h
    rw [show UInt16.size = 65536 from rfl]
    omega)

/-- The block with the new record in it. -/
theorem putRecord_spec (payload : Block) (offset recLen : Nat) (ino : UInt64) (fileType : UInt8)
    (hname : nameLen name ≤ 255) (hroom : DirEntry.requiredLen (nameLen name) ≤ recLen)
    (hend : offset + recLen ≤ UB) (hdvd : 4 ∣ recLen) :
    ∃ block, AlbumFs.putRecord payload offset ino name fileType recLen = .ok block ∧
      DirEntry.IsRecord block.bytes offset ⟨ino, UInt16.ofNat recLen, name, fileType⟩ ∧
      ∀ i, i < offset ∨ offset + recLen ≤ i → block.bytes[i]? = payload.bytes[i]? := by
  obtain ⟨block, hblock⟩ := AlbumFs.putRecord_eq_ok payload offset recLen hname hroom hend ino fileType
  refine ⟨block, hblock, ?_⟩
  have hlen : (UInt16.ofNat recLen).toNat = recLen := toNat_ofNat_recLen (by omega)
  unfold AlbumFs.putRecord DirEntry.new at hblock
  split_ifs at hblock with hnot
  · cases hblock
  dsimp only [bind, Except.bind] at hblock
  cases hrecord : (⟨ino, UInt16.ofNat recLen, name, fileType⟩ : DirEntry).encodeInto
      (slice payload.bytes offset recLen) with
  | error _ =>
    rw [hrecord] at hblock
    cases hblock
  | ok record =>
    rw [hrecord] at hblock
    obtain rfl := Except.ok.inj hblock
    have hslice : (slice payload.bytes offset recLen).length = recLen :=
      length_slice (by rw [payload.length_bytes]; exact hend)
    obtain ⟨hisRecord, hrecordLen⟩ := DirEntry.isRecord_of_encodeInto hrecord (hslice.trans hlen.symm) hname
      (by rw [hlen]; exact hdvd)
    rw [hlen] at hrecordLen
    refine ⟨hisRecord.shift ?_ fun i hi => ?_, fun i hi => ?_⟩
    · rw [Block.length_bytes, hlen]
      exact hend
    · rw [hlen] at hi
      rw [Block.bytes_write, getElem?_overwrite, if_pos ⟨by omega, by omega, by
        rw [payload.length_bytes]; omega⟩, Nat.add_sub_cancel_left]
    · rw [Block.bytes_write]
      rcases hi with hi | hi
      · exact getElem?_overwrite_of_lt hi
      · exact getElem?_overwrite_of_ge (by omega)

/-- A record that is cut down to `recLen` bytes. -/
theorem DirEntry.IsRecord.shorten (h : IsRecord payload.bytes offset e) (hle : recLen ≤ e.recLen.toNat)
    (hroom : DirEntry.requiredLen (nameLen e.name) ≤ recLen) (hdvd : 4 ∣ recLen) :
    IsRecord (payload.write (offset + 8) (u16LE (UInt16.ofNat recLen))).bytes offset
      { e with recLen := UInt16.ofNat recLen } := by
  have hend := h.end_le
  have hge := requiredLen_ge (nameLen e.name)
  rw [payload.length_bytes] at hend
  have hlen : (UInt16.ofNat recLen).toNat = recLen := toNat_ofNat_recLen (by omega)
  have htwo := length_u16LE (UInt16.ofNat recLen)
  refine ⟨?_, ?_, ?_, ?_, ?_, h.nameLen_le, ?_, ?_, ?_⟩
  · rw [Block.bytes_write, slice_overwrite_of_disjoint (by omega), h.inode_eq]
  · have hin : offset + 8 + (u16LE (UInt16.ofNat recLen)).length ≤ payload.bytes.length := by
      rw [htwo, payload.length_bytes]
      omega
    have hself := slice_overwrite_self hin
    rwa [htwo] at hself
  · rw [Block.bytes_write, getElem?_overwrite_of_ge (by omega), h.nameLen_eq]
  · rw [Block.bytes_write, getElem?_overwrite_of_ge (by omega), h.fileType_eq]
  · rw [Block.bytes_write, slice_overwrite_of_disjoint (by omega), h.name_eq]
  · change 12 + nameLen e.name ≤ (UInt16.ofNat recLen).toNat
    rw [hlen]
    omega
  · rw [hlen]
    exact hdvd
  · rw [hlen, Block.length_bytes]
    omega

theorem DirEntry.chunk_of_free (h : e.inode = 0) : e.chunk = ⟨e.recLen.toNat, none⟩ := by
  rw [chunk, if_pos h]

theorem DirEntry.chunk_of_live (h : e.inode ≠ 0) : e.chunk = ⟨e.recLen.toNat, some e.entry⟩ := by
  rw [chunk, if_neg h]

/-- The step of the record loop of `add_dir_entry`. -/
theorem insertRecord_step (h : DirEntry.IsRecord payload.bytes offset e) :
    AlbumFs.insertRecord ino name fileType payload offset =
      if e.inode = 0 ∧ e.recLen.toNat ≥ DirEntry.requiredLen (nameLen name) then
        (AlbumFs.putRecord payload offset ino name fileType e.recLen.toNat).map some
      else if e.inode ≠ 0 ∧ e.recLen.toNat - DirEntry.requiredLen (nameLen e.name) ≥
          DirEntry.requiredLen (nameLen name) then
        (AlbumFs.putRecord
          (payload.write (offset + 8) (u16LE (UInt16.ofNat (DirEntry.requiredLen (nameLen e.name)))))
          (offset + DirEntry.requiredLen (nameLen e.name)) ino name fileType
          (e.recLen.toNat - DirEntry.requiredLen (nameLen e.name))).map some
      else AlbumFs.insertRecord ino name fileType payload (offset + e.recLen.toNat) := by
  have hend := h.end_le
  have hge := h.recLen_ge
  rw [payload.length_bytes] at hend
  rw [AlbumFs.insertRecord, if_pos (show offset < UB by omega)]
  split
  · rename_i error herror
    rw [DirEntry.decode_of_isRecord payload.length_le h] at herror
    cases herror
  · rename_i entry hentry
    rw [DirEntry.decode_of_isRecord payload.length_le h] at hentry
    obtain rfl := Except.ok.inj hentry
    rfl

/-- Adding an entry to a block is placing it in the row of its records. -/
theorem insertRecord_eq_place (fileType : UInt8) (h : IsChain payload offset es) (hino : ino ≠ 0)
    (hname : nameLen name ≤ 255) :
    (place Entry.need (ino.toNat, name, fileType) (es.map DirEntry.chunk) = none →
      AlbumFs.insertRecord ino name fileType payload offset = .ok none) ∧
    ∀ cs, place Entry.need (ino.toNat, name, fileType) (es.map DirEntry.chunk) = some cs →
      ∃ payload' es', AlbumFs.insertRecord ino name fileType payload offset = .ok (some payload') ∧
        IsChain payload' offset es' ∧ es'.map DirEntry.chunk = cs ∧
        ∀ i < offset, payload'.bytes[i]? = payload.bytes[i]? := by
  induction es generalizing offset with
  | nil =>
    refine ⟨fun _ => ?_, fun _ h => by cases h⟩
    rw [AlbumFs.insertRecord, if_neg (by rw [show offset = UB from h]; exact Nat.lt_irrefl _)]
  | cons e es ih =>
    obtain ⟨hrecord, hes⟩ := h
    have hend := hrecord.end_le
    have hdvd := hrecord.dvd_recLen
    rw [payload.length_bytes] at hend
    have hsame : UInt16.ofNat e.recLen.toNat = e.recLen := UInt16.ofNat_toNat
    have hneed : Entry.need (ino.toNat, name, fileType) = DirEntry.requiredLen (nameLen name) := rfl
    have hrest : ¬e.chunk.room Entry.need ≥ DirEntry.requiredLen (nameLen name) →
        AlbumFs.insertRecord ino name fileType payload offset =
          AlbumFs.insertRecord ino name fileType payload (offset + e.recLen.toNat) := by
      intro hroom
      rw [insertRecord_step hrecord]
      by_cases hfree : e.inode = 0
      · rw [DirEntry.chunk_of_free hfree] at hroom
        rw [if_neg fun hc => hroom hc.2, if_neg fun hc => hc.1 hfree]
      · rw [DirEntry.chunk_of_live hfree] at hroom
        rw [if_neg fun hc => hfree hc.1, if_neg fun hc => hroom hc.2]
    rw [List.map_cons, place, hneed]
    by_cases hroom : e.chunk.room Entry.need ≥ DirEntry.requiredLen (nameLen name)
    · rw [if_pos hroom, insertRecord_step hrecord]
      refine ⟨fun hc => absurd hc (Option.some_ne_none _), fun cs hcs => ?_⟩
      obtain rfl := Option.some.inj hcs
      by_cases hfree : e.inode = 0
      · -- A free record is taken whole.
        rw [DirEntry.chunk_of_free hfree] at hroom ⊢
        replace hroom : DirEntry.requiredLen (nameLen name) ≤ e.recLen.toNat := hroom
        obtain ⟨block, hblock, hnew, hbytes⟩ :=
          putRecord_spec payload offset e.recLen.toNat ino fileType hname hroom hend hdvd
        rw [if_pos ⟨hfree, hroom⟩, hblock]
        refine ⟨block, ⟨ino, e.recLen, name, fileType⟩ :: es, rfl, ⟨hsame ▸ hnew, ?_⟩, ?_,
          fun i hi => hbytes i (.inl hi)⟩
        · exact hes.congr fun i hi => hbytes i (.inr hi)
        · rw [List.map_cons, DirEntry.chunk_of_live hino]
          rfl
      · -- A live record is cut down, and the entry gets the rest.
        have hcut := hrecord.requiredLen_le
        have hcutDvd := DirEntry.dvd_requiredLen (nameLen e.name)
        rw [DirEntry.chunk_of_live hfree] at hroom ⊢
        rw [if_neg fun hc => hfree hc.1, if_pos ⟨hfree, hroom⟩]
        have hshort := hrecord.shorten hcut (Nat.le_refl _) hcutDvd
        generalize hminimal : DirEntry.requiredLen (nameLen e.name) = minimal at hcut hcutDvd hshort ⊢
        replace hroom : DirEntry.requiredLen (nameLen name) ≤ e.recLen.toNat - minimal := by
          rw [← hminimal]
          exact hroom
        obtain ⟨block, hblock, hnew, hbytes⟩ := putRecord_spec
          (payload.write (offset + 8) (u16LE (UInt16.ofNat minimal))) (offset + minimal)
          (e.recLen.toNat - minimal) ino fileType hname hroom (by omega)
          (Nat.dvd_sub hdvd hcutDvd)
        have hfirst : (UInt16.ofNat minimal).toNat = minimal := toNat_ofNat_recLen (by omega)
        have hsecond : (UInt16.ofNat (e.recLen.toNat - minimal)).toNat = e.recLen.toNat - minimal :=
          toNat_ofNat_recLen (by omega)
        have hwrite : ∀ i, i < offset ∨ offset + minimal ≤ i →
            (payload.write (offset + 8) (u16LE (UInt16.ofNat minimal))).bytes[i]? = payload.bytes[i]? := by
          have htwo := length_u16LE (UInt16.ofNat minimal)
          have htwelve := DirEntry.requiredLen_ge (nameLen e.name)
          rintro i (hi | hi)
          · exact getElem?_overwrite_of_lt (by omega)
          · exact getElem?_overwrite_of_ge (by omega)
        rw [hblock]
        refine ⟨block, { e with recLen := UInt16.ofNat minimal } ::
          ⟨ino, UInt16.ofNat (e.recLen.toNat - minimal), name, fileType⟩ :: es, rfl, ⟨?_, ?_, ?_⟩, ?_, fun i hi => ?_⟩
        · refine hshort.congr ?_ fun i _ hi => hbytes i (.inl ?_)
          · rw [hfirst, Block.length_bytes]
            omega
          · rwa [hfirst] at hi
        · rw [hfirst]
          exact hnew
        · rw [hfirst, hsecond, Nat.add_assoc, Nat.add_sub_cancel' hcut]
          exact hes.congr fun i hi => (hbytes i (.inr (by omega))).trans (hwrite i (.inr (by omega)))
        · have hfit : Entry.need e.entry = minimal := hminimal
          have hold := DirEntry.chunk_of_live (e := { e with recLen := UInt16.ofNat minimal }) hfree
          have hnew := DirEntry.chunk_of_live
            (e := ⟨ino, UInt16.ofNat (e.recLen.toNat - minimal), name, fileType⟩) hino
          rw [List.map_cons, List.map_cons, hold, hnew, hfirst, hsecond, Chunk.put_used, hfit]
          rfl
        · rw [hbytes i (.inl (by omega)), hwrite i (.inl hi)]
    · rw [if_neg hroom, hrest hroom]
      obtain ⟨hnone, hsome⟩ := ih hes
      refine ⟨fun hc => hnone (Option.map_eq_none_iff.1 hc), fun cs hcs => ?_⟩
      obtain ⟨ds, hds, rfl⟩ := Option.map_eq_some_iff.1 hcs
      obtain ⟨payload', es', hinsert, hchain, hmap, hbytes⟩ := hsome ds hds
      refine ⟨payload', e :: es', hinsert, ⟨hrecord.congr ?_ fun i _ hi => hbytes i hi, hchain⟩,
        by rw [List.map_cons, hmap], fun i hi => hbytes i (by omega)⟩
      rw [payload'.length_bytes]
      exact hend

/-- The records of the block of a new directory. -/
def initialRecords (ino parent : UInt64) : List DirEntry :=
  [⟨ino, UInt16.ofNat (DirEntry.requiredLen 1), ".", FILE_TYPE_DIR⟩,
    ⟨parent, UInt16.ofNat (UB - DirEntry.requiredLen 1), "..", FILE_TYPE_DIR⟩]

theorem isChain_initialDirectoryBlock {ino parent : UInt64} {block : Block}
    (h : AlbumFs.initialDirectoryBlock ino parent = .ok block) : IsChain block 0 (initialRecords ino parent) := by
  have hdot : nameLen "." = 1 := by decide
  have hdotdot : nameLen ".." = 2 := by decide
  have hone : DirEntry.requiredLen 1 = 16 := by decide
  have htwo : DirEntry.requiredLen 2 = 16 := by decide
  have hfirst : (UInt16.ofNat 16).toNat = 16 := toNat_ofNat_recLen (by rw [UB_eq]; omega)
  have hsecond : (UInt16.ofNat (UB - 16)).toNat = UB - 16 := toNat_ofNat_recLen (Nat.sub_le _ _)
  unfold AlbumFs.initialDirectoryBlock at h
  rw [initialRecords]
  rw [hone] at h ⊢
  obtain ⟨dot, hputDot, hdotRecord, -⟩ := putRecord_spec Block.zero 0 16 ino FILE_TYPE_DIR
    (show nameLen "." ≤ 255 by omega) (by rw [hdot, hone])
    (by rw [UB_eq]; omega) ⟨4, rfl⟩
  obtain ⟨both, hputBoth, hdotdotRecord, hbytes⟩ := putRecord_spec dot 16 (UB - 16) parent FILE_TYPE_DIR
    (show nameLen ".." ≤ 255 by omega)
    (by rw [hdotdot, htwo, UB_eq]; omega) (by rw [UB_eq]) ⟨1004, by rw [UB_eq]⟩
  simp only [hputDot, hputBoth, bind, Except.bind, Except.ok.injEq] at h
  subst h
  refine ⟨hdotRecord.congr ?_ fun i _ hi => hbytes i (.inl ?_), ?_, ?_⟩
  · rw [hfirst, Block.length_bytes, UB_eq]
    omega
  · rw [hfirst] at hi
    omega
  · rw [hfirst]
    exact hdotdotRecord
  · rw [hfirst, hsecond, IsChain, UB_eq]

end Insert

end AlbumFS
