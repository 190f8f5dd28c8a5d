import AlbumFS.Fs.Superblock

/-!
# The codec of the superblock

The parser of `fs/superblock.rs` accepts exactly what the encoder produces. An encoded superblock is
a row of parts: the fields of the header, with the checksum among them, and the manifest entries.
The parser reads the parts one after the other at positions that it finds from the parts before,
so both directions compare a row of parts with the slices of the buffer at their positions.

`decodeIndexed` is the parser with every index operation checked, as the source has it.

## Main definitions

* `Superblock.Encodable`: the superblocks that the format can express.
* `Superblock.decodeIndexed`: the parser, returning `none` where the source would panic.

## Main results

* `Superblock.decode_encode`: an encoded superblock is read back, whatever follows it.
* `Superblock.encode_of_decode`: what is read is the encoding of the result.
* `Superblock.decodeIndexed_eq`: the parser does not index out of range.
-/

namespace AlbumFS.Superblock

variable {sb : Superblock} {buf tail : List UInt8} {version : UInt32} {offset : Nat}

/-! ### The row of parts -/

/-- The fields of the header in a row, the checksum being `crc`. -/
def headerParts (sb : Superblock) (crc : List UInt8) : List (List UInt8) :=
  [SB_MAGIC, u32LE sb.version, u32LE sb.blockSize, u32LE sb.usableSize, u64LE sb.totalBlocks,
    u64LE sb.inodeCount, u64LE sb.bitmapStart, u64LE sb.inodeTableStart, u64LE sb.dataStart,
    u64LE sb.rootInode, u32LE (UInt32.ofNat sb.manifest.length), u32LE sb.cryptoFlags, crc] ++
  if sb.version = 2 then
    [sb.salt.toList, u32LE sb.argon2MemKib, u32LE sb.argon2Iters, u32LE sb.argon2Parallel]
  else []

/-- The manifest entries in a row. -/
def entries (version : UInt32) (manifest : List CarrierRange) : List UInt8 :=
  manifest.flatMap (entryBytes version)

theorem headerLen_eq (sb : Superblock) : headerLen sb.version = if sb.version = 2 then 108 else 80 := by
  unfold headerLen V1_HEADER_LEN V2_HEADER_LEN V3_HEADER_LEN
  split_ifs with h₁ h₂
  · rw [h₁] at h₂
    exact absurd h₂ (by decide)
  all_goals rfl

theorem length_headerParts (sb : Superblock) {crc : List UInt8} (h : crc.length = 4) :
    (sb.headerParts crc).flatten.length = headerLen sb.version := by
  rw [headerLen_eq, headerParts]
  split_ifs <;> simp [SB_MAGIC, h]

/-- The positions of the parts of the header. -/
theorem placed_headerParts (sb : Superblock) {crc : List UInt8} (h : crc.length = 4) :
    placed 0 (sb.headerParts crc) =
      [(0, SB_MAGIC), (8, u32LE sb.version), (12, u32LE sb.blockSize), (16, u32LE sb.usableSize),
        (20, u64LE sb.totalBlocks), (28, u64LE sb.inodeCount), (36, u64LE sb.bitmapStart),
        (44, u64LE sb.inodeTableStart), (52, u64LE sb.dataStart), (60, u64LE sb.rootInode),
        (68, u32LE (UInt32.ofNat sb.manifest.length)), (72, u32LE sb.cryptoFlags), (76, crc)] ++
      if sb.version = 2 then
        [(80, sb.salt.toList), (96, u32LE sb.argon2MemKib), (100, u32LE sb.argon2Iters),
          (104, u32LE sb.argon2Parallel)]
      else [] := by
  rw [headerParts]
  split_ifs <;> simp [placed, SB_MAGIC, h]

theorem length_body (sb : Superblock) :
    sb.body.length = headerLen sb.version + (entries sb.version sb.manifest).length := by
  rw [body, List.length_append, length_overwriteAll, List.length_replicate, entries]

theorem length_encode (sb : Superblock) :
    sb.encode.length = headerLen sb.version + (entries sb.version sb.manifest).length := by
  rw [encode, length_overwrite, length_body]

theorem headerLen_ge (sb : Superblock) : 80 ≤ headerLen sb.version := by
  rw [headerLen_eq]
  split_ifs <;> decide

/-- Every field but the checksum is written at its position. -/
theorem mem_headerFields {w : Nat × List UInt8} {crc : List UInt8} (hcrc : crc.length = 4)
    (hw : w ∈ placed 0 (sb.headerParts crc)) : w ∈ sb.headerFields ∨ w = (76, crc) := by
  rw [placed_headerParts sb hcrc] at hw
  unfold headerFields
  simp only [List.mem_append, List.mem_cons, List.not_mem_nil, or_false] at hw ⊢
  tauto

theorem map_length_headerFields (sb : Superblock) :
    sb.headerFields.map (fun w => (w.1, w.2.length)) =
      [(0, 8), (8, 4), (12, 4), (16, 4), (20, 8), (28, 8), (36, 8), (44, 8), (52, 8), (60, 8), (68, 4),
        (72, 4)] ++ if sb.version = 2 then [(80, 16), (96, 4), (100, 4), (104, 4)] else [] := by
  unfold headerFields
  split_ifs <;> simp [SB_MAGIC]

theorem headerFields_pairwise (sb : Superblock) :
    sb.headerFields.Pairwise fun w w' => w.1 + w.2.length ≤ w'.1 ∨ w'.1 + w'.2.length ≤ w.1 := by
  have h : (sb.headerFields.map fun w => (w.1, w.2.length)).Pairwise
      fun w w' => w.1 + w.2 ≤ w'.1 ∨ w'.1 + w'.2 ≤ w.1 := by
    rw [map_length_headerFields]
    split_ifs <;> decide
  exact List.pairwise_map.1 h

/-- The fields lie in the header, and none of them in the place of the checksum. -/
theorem headerFields_range {w : Nat × List UInt8} (hw : w ∈ sb.headerFields) :
    w.1 + w.2.length ≤ headerLen sb.version ∧ (w.1 + w.2.length ≤ 76 ∨ 80 ≤ w.1) := by
  have hmem : (w.1, w.2.length) ∈ sb.headerFields.map fun w => (w.1, w.2.length) :=
    List.mem_map_of_mem hw
  rw [map_length_headerFields] at hmem
  rw [headerLen_eq]
  split_ifs at hmem ⊢ <;>
    simp only [List.mem_append, List.mem_cons, Prod.mk.injEq, List.not_mem_nil, or_false] at hmem <;>
    omega

theorem slice_body_header (hw : w ∈ sb.headerFields) : slice sb.body w.1 w.2.length = w.2 := by
  have hrange := (headerFields_range hw).1
  rw [body, slice_append_left (by rwa [length_overwriteAll, List.length_replicate])]
  exact slice_overwriteAll sb.headerFields_pairwise hw (by rwa [List.length_replicate])

/-- The place of the checksum is not written. -/
theorem slice_body_crc (sb : Superblock) : slice sb.body 76 4 = List.replicate 4 0 := by
  have hge := sb.headerLen_ge
  rw [body, slice_append_left (by rw [length_overwriteAll, List.length_replicate]; omega),
    slice_overwriteAll_of_disjoint]
  · rw [slice, List.drop_replicate, List.take_replicate, Nat.min_eq_left (by omega)]
  · intro w hw
    have := (headerFields_range hw).2
    omega

theorem body_eq (sb : Superblock) :
    sb.body = (sb.headerParts (List.replicate 4 0)).flatten ++ entries sb.version sb.manifest := by
  have hlen : (List.replicate 4 (0 : UInt8)).length = 4 := List.length_replicate
  have hheader : slice sb.body 0 (headerLen sb.version) =
      (sb.headerParts (List.replicate 4 0)).flatten := by
    rw [← sb.length_headerParts hlen, slice_eq_flatten_iff]
    intro w hw
    rcases mem_headerFields hlen hw with hw | rfl
    · exact slice_body_header hw
    · exact sb.slice_body_crc
  rw [← hheader, slice, List.drop_zero, body, List.take_append_of_le_length, List.take_of_length_le]
  · rfl
  all_goals rw [length_overwriteAll, List.length_replicate]

/-- Writing the checksum into the row of parts. -/
theorem overwrite_headerParts {crc crc' rest : List UInt8} (h : crc.length = 4) (h' : crc'.length = 4) :
    overwrite ((sb.headerParts crc).flatten ++ rest) 76 crc' = (sb.headerParts crc').flatten ++ rest := by
  obtain ⟨front, back, hlen, hparts⟩ : ∃ front back : List (List UInt8), front.flatten.length = 76 ∧
      ∀ c, sb.headerParts c = front ++ c :: back :=
    ⟨[SB_MAGIC, u32LE sb.version, u32LE sb.blockSize, u32LE sb.usableSize, u64LE sb.totalBlocks,
      u64LE sb.inodeCount, u64LE sb.bitmapStart, u64LE sb.inodeTableStart, u64LE sb.dataStart,
      u64LE sb.rootInode, u32LE (UInt32.ofNat sb.manifest.length), u32LE sb.cryptoFlags], _,
      by simp [SB_MAGIC], fun c => rfl⟩
  rw [hparts, hparts, List.flatten_append, List.flatten_append, List.flatten_cons, List.flatten_cons,
    List.append_assoc, List.append_assoc, ← hlen, overwrite_append]
  · rw [List.append_assoc, List.append_assoc, h', ← h, List.drop_left]
  · rw [List.length_append]
    omega

/-- An encoded superblock is the row of its parts. -/
theorem encode_eq (sb : Superblock) :
    sb.encode = (sb.headerParts (u32LE (crc32 sb.body))).flatten ++ entries sb.version sb.manifest := by
  rw [encode]
  conv_lhs => arg 1; rw [body_eq]
  exact overwrite_headerParts List.length_replicate (length_u32LE _)

/-- Clearing the checksum of an encoded superblock gives the bytes it was computed from. -/
theorem overwrite_encode (sb : Superblock) :
    overwrite sb.encode 76 (List.replicate 4 0) = sb.body := by
  rw [encode_eq, overwrite_headerParts (length_u32LE _) List.length_replicate, body_eq]

/-! ### The manifest -/

/-- The bytes of the name of a manifest entry. -/
def nameBytes (version : UInt32) (name : String) : List UInt8 :=
  if version ≥ MARKERLESS_FS_VERSION then u16LE (UInt16.ofNat (utf8 name).length) ++ utf8 name else []

/-- The names that the format can express. -/
def NameOk (version : UInt32) (name : String) : Prop :=
  if version ≥ MARKERLESS_FS_VERSION then validateName name = .ok () else name = ""

theorem length_of_validateName {name : String} (h : validateName name = .ok ()) :
    (utf8 name).length ≤ 65535 := by
  unfold validateName at h
  split_ifs at h with hbad
  simp only [not_or] at hbad
  omega

theorem length_nameBytes_le {name : String} (h : NameOk version name) :
    (nameBytes version name).length ≤ 65537 := by
  unfold nameBytes
  unfold NameOk at h
  split_ifs at h ⊢
  · have := length_of_validateName h
    rw [List.length_append, length_u16LE]
    omega
  · exact Nat.zero_le _

theorem entryBytes_eq (version : UInt32) (carrier : CarrierRange) :
    entryBytes version carrier = nameBytes version carrier.name ++
      [u32LE carrier.chunkIndex, u64LE carrier.blockStart, u64LE carrier.blockCount].flatten := by
  simp [entryBytes, nameBytes]

theorem entries_cons (version : UInt32) (carrier : CarrierRange) (manifest : List CarrierRange) :
    entries version (carrier :: manifest) = entryBytes version carrier ++ entries version manifest := rfl

theorem length_entryBytes (version : UInt32) (carrier : CarrierRange) :
    (entryBytes version carrier).length = (nameBytes version carrier.name).length + 20 := by
  simp [entryBytes_eq]

/-- A name is read where its bytes are. -/
theorem decodeName_eq_ok {name : String} (hname : NameOk version name)
    (hslice : slice buf offset (nameBytes version name).length = nameBytes version name)
    (hend : offset + (nameBytes version name).length ≤ buf.length)
    (hlt : offset + (nameBytes version name).length < 2 ^ 64) :
    decodeName version buf offset = .ok (name, offset + (nameBytes version name).length) := by
  unfold nameBytes at hslice hend hlt ⊢
  unfold NameOk at hname
  unfold decodeName
  split_ifs at hname hslice hend hlt ⊢ with hversion
  · have hlen := length_of_validateName hname
    rw [List.length_append, length_u16LE] at hslice hend hlt ⊢
    have hparts := (@slice_eq_flatten_iff _ buf offset
      [u16LE (UInt16.ofNat (utf8 name).length), utf8 name]).1 (by simpa using hslice)
    simp only [placed, length_u16LE, List.forall_mem_cons] at hparts
    obtain ⟨hcount, hbytes, -⟩ := hparts
    have hcount' : (u16At buf offset).toNat = (utf8 name).length := by
      rw [u16At_eq hcount, UInt16.toNat_ofNat_of_lt' (by rw [UInt16.size]; omega)]
    rw [checkedAdd_of_lt (by omega)]
    dsimp only
    rw [if_neg (by omega), hcount', checkedAdd_of_lt (by omega)]
    dsimp only
    rw [if_neg (by omega), Nat.add_sub_cancel_left, hbytes, fromUtf8_utf8]
    dsimp only
    rw [hname, Nat.add_assoc]
    rfl
  · rw [hname]
    rfl

/-- What is read as a name is the bytes of the name. -/
theorem decodeName_ok {name : String} {stop : Nat} (h : decodeName version buf offset = .ok (name, stop))
    (hle : offset ≤ buf.length) :
    NameOk version name ∧ stop = offset + (nameBytes version name).length ∧ stop ≤ buf.length ∧
      slice buf offset (nameBytes version name).length = nameBytes version name := by
  unfold decodeName at h
  unfold NameOk nameBytes
  split_ifs at h ⊢ with hversion
  · unfold checkedAdd at h
    split at h
    · cases h
    rename_i lenEnd hlenEnd
    split_ifs at hlenEnd with hlt
    obtain rfl := Option.some.inj hlenEnd
    split_ifs at h with hshort
    split at h
    · cases h
    rename_i nameEnd hnameEnd
    obtain rfl := Option.some.inj hnameEnd
    split_ifs at h with hlong
    split at h
    · cases h
    rename_i found hfound
    rw [fromUtf8_eq_some_iff, Nat.add_sub_cancel_left] at hfound
    cases hvalid : validateName found with
    | error e =>
      rw [hvalid] at h
      cases h
    | ok _ =>
      rw [hvalid] at h
      obtain ⟨rfl, rfl⟩ := Prod.mk.inj (Except.ok.inj h)
      have hlen : (utf8 found).length = (u16At buf offset).toNat := by
        rw [← hfound, length_slice (by omega)]
      have hcount : u16LE (UInt16.ofNat (utf8 found).length) = slice buf offset 2 := by
        rw [hlen, UInt16.ofNat_toNat, u16LE_u16At (by omega)]
      rw [List.length_append, length_u16LE, ← slice_append_slice, hcount, hlen, hfound]
      exact ⟨hvalid, by omega, by omega, rfl⟩
  · obtain ⟨rfl, rfl⟩ := Prod.mk.inj (Except.ok.inj h)
    exact ⟨rfl, rfl, hle, by simp [slice]⟩

/-- A row of manifest entries is read. -/
theorem decodeManifest_eq_ok {manifest : List CarrierRange} (hnames : ∀ c ∈ manifest, NameOk version c.name)
    (hslice : slice buf offset (entries version manifest).length = entries version manifest)
    (hend : offset + (entries version manifest).length ≤ buf.length)
    (hlt : offset + (entries version manifest).length < 2 ^ 64) :
    decodeManifest version buf manifest.length offset =
      .ok (manifest, offset + (entries version manifest).length) := by
  induction manifest generalizing offset with
  | nil => rfl
  | cons c manifest ih =>
    rw [List.forall_mem_cons] at hnames
    have hentry := length_entryBytes version c
    have hlen : (entries version (c :: manifest)).length =
        (nameBytes version c.name).length + 20 + (entries version manifest).length := by
      rw [entries_cons, List.length_append, hentry]
    have hrow : [nameBytes version c.name, u32LE c.chunkIndex, u64LE c.blockStart, u64LE c.blockCount,
        entries version manifest].flatten = entries version (c :: manifest) := by
      simp [entries_cons, entryBytes_eq]
    rw [← hrow, slice_eq_flatten_iff] at hslice
    simp only [placed, length_u32LE, length_u64LE, List.forall_mem_cons] at hslice
    obtain ⟨hname, hchunk, hstart, hcount, hrest, -⟩ := hslice
    have hih := @ih (offset + (nameBytes version c.name).length + 4 + 8 + 8) hnames.2 hrest
      (by omega) (by omega)
    rw [List.length_cons, decodeManifest, decodeName_eq_ok hnames.1 hname (by omega) (by omega)]
    simp only [bind, Except.bind]
    rw [checkedAdd_of_lt (by omega)]
    dsimp only
    rw [if_neg (by omega), show offset + (nameBytes version c.name).length + 20 =
      offset + (nameBytes version c.name).length + 4 + 8 + 8 by omega, hih, u32At_eq hchunk,
      u64At_eq hstart, u64At_eq hcount]
    simp only [Except.ok.injEq, Prod.mk.injEq, true_and]
    omega

/-- What is read as a manifest is the row of its entries. -/
theorem decodeManifest_ok {n stop : Nat} {manifest : List CarrierRange}
    (h : decodeManifest version buf n offset = .ok (manifest, stop)) (hle : offset ≤ buf.length) :
    manifest.length = n ∧ (∀ c ∈ manifest, NameOk version c.name) ∧
      stop = offset + (entries version manifest).length ∧ stop ≤ buf.length ∧
      slice buf offset (entries version manifest).length = entries version manifest := by
  induction n generalizing offset manifest with
  | zero =>
    obtain ⟨rfl, rfl⟩ := Prod.mk.inj (Except.ok.inj h)
    exact ⟨rfl, by simp, rfl, hle, rfl⟩
  | succ n ih =>
    rw [decodeManifest] at h
    cases hname : decodeName version buf offset with
    | error e => simp [hname, bind, Except.bind] at h
    | ok found =>
      obtain ⟨name, nameEnd⟩ := found
      obtain ⟨hok, rfl, hend, hslice⟩ := decodeName_ok hname hle
      simp only [hname, bind, Except.bind] at h
      unfold checkedAdd at h
      split at h
      · cases h
      rename_i entryEnd hentryEnd
      split_ifs at hentryEnd with hlt
      obtain rfl := Option.some.inj hentryEnd
      split_ifs at h with hshort
      rw [Nat.not_lt] at hshort
      cases hrest : decodeManifest version buf n (offset + (nameBytes version name).length + 20) with
      | error e => simp [hrest] at h
      | ok found =>
        obtain ⟨rest, restEnd⟩ := found
        simp only [hrest, Except.ok.injEq, Prod.mk.injEq] at h
        obtain ⟨rfl, rfl⟩ := h
        obtain ⟨hlen, hnames, rfl, hend', hslice'⟩ := ih hrest hshort
        rw [entries_cons, List.length_append, length_entryBytes]
        refine ⟨by rw [List.length_cons, hlen], List.forall_mem_cons.2 ⟨hok, hnames⟩,
          by dsimp only; omega, hend', ?_⟩
        have hrow := (@slice_eq_flatten_iff _ buf offset [nameBytes version name,
          slice buf (offset + (nameBytes version name).length) 4,
          slice buf (offset + (nameBytes version name).length + 4) 8,
          slice buf (offset + (nameBytes version name).length + 4 + 8) 8,
          entries version rest]).2 (by
            have hchunk : (slice buf (offset + (nameBytes version name).length) 4).length = 4 :=
              length_slice (by omega)
            have hstart : (slice buf (offset + (nameBytes version name).length + 4) 8).length = 8 :=
              length_slice (by omega)
            have hcount : (slice buf (offset + (nameBytes version name).length + 4 + 8) 8).length = 8 :=
              length_slice (by omega)
            simp only [placed, List.forall_mem_cons, hchunk, hstart, hcount]
            exact ⟨hslice, trivial, trivial, trivial, hslice', by simp⟩)
        rw [← u32LE_u32At (by omega), ← u64LE_u64At (by omega), ← u64LE_u64At (by omega)] at hrow
        have hflat : ∀ x y z : List UInt8, x.length = 4 → y.length = 8 → z.length = 8 →
            [nameBytes version name, x, y, z, entries version rest].flatten.length =
              (nameBytes version name).length + 20 + (entries version rest).length := by
          intro x y z hx hy hz
          simp only [List.flatten_cons, List.flatten_nil, List.length_append, List.length_nil, hx, hy, hz]
          omega
        rw [hflat _ _ _ (length_u32LE _) (length_u64LE _) (length_u64LE _)] at hrow
        rw [hrow, entryBytes_eq]
        simp [Nat.add_assoc]

/-! ### Both directions -/

/-- The superblocks that the format can express. -/
structure Encodable (sb : Superblock) : Prop where
  version_mem : sb.version = 1 ∨ sb.version = 2 ∨ sb.version = MARKERLESS_FS_VERSION
  names : ∀ c ∈ sb.manifest,
    if sb.version = MARKERLESS_FS_VERSION then validateName c.name = .ok () else c.name = ""
  salt : sb.version ≠ 2 → sb.salt = Vector.replicate 16 0
  argon2 : sb.version ≠ 2 → sb.argon2MemKib = 0 ∧ sb.argon2Iters = 0 ∧ sb.argon2Parallel = 0
  length_lt : sb.manifest.length < 2 ^ 32

/-- Outside version two the fields of the key derivation are clear. -/
theorem Encodable.clear_eq (h : sb.Encodable) (htwo : sb.version ≠ 2) :
    { sb with salt := Vector.replicate 16 0, argon2MemKib := 0, argon2Iters := 0, argon2Parallel := 0 } =
      sb := by
  have hsalt := h.salt htwo
  obtain ⟨hmem, hiters, hparallel⟩ := h.argon2 htwo
  cases sb
  dsimp only at hsalt hmem hiters hparallel
  rw [hsalt, hmem, hiters, hparallel]

theorem ge_markerless_iff (h : version = 1 ∨ version = 2 ∨ version = MARKERLESS_FS_VERSION) :
    version ≥ MARKERLESS_FS_VERSION ↔ version = MARKERLESS_FS_VERSION := by
  rcases h with rfl | rfl | rfl <;> decide

theorem nameOk_iff (h : version = 1 ∨ version = 2 ∨ version = MARKERLESS_FS_VERSION) {name : String} :
    NameOk version name ↔
      if version = MARKERLESS_FS_VERSION then validateName name = .ok () else name = "" := by
  unfold NameOk
  simp only [ge_markerless_iff h]

theorem length_entries_lt (hlen : sb.manifest.length < 2 ^ 32)
    (hnames : ∀ c ∈ sb.manifest, NameOk sb.version c.name) :
    headerLen sb.version + (entries sb.version sb.manifest).length < 2 ^ 64 := by
  have hbound : ∀ manifest : List CarrierRange, (∀ c ∈ manifest, NameOk sb.version c.name) →
      (entries sb.version manifest).length ≤ manifest.length * 65557 := by
    intro manifest h
    induction manifest with
    | nil => exact Nat.zero_le _
    | cons c manifest ih =>
      rw [List.forall_mem_cons] at h
      have hname := length_nameBytes_le h.1
      have hrest := ih h.2
      rw [entries_cons, List.length_append, length_entryBytes, List.length_cons]
      omega
  have hentries := hbound sb.manifest hnames
  rw [headerLen_eq]
  split_ifs <;> omega

/-- The parts of an encoded superblock lie at their positions, whatever follows it. -/
theorem slice_encode {w : Nat × List UInt8}
    (hw : w ∈ placed 0 (sb.headerParts (u32LE (crc32 sb.body)))) :
    slice (sb.encode ++ tail) w.1 w.2.length = w.2 := by
  have hlen := sb.length_headerParts (length_u32LE (crc32 sb.body))
  have hheader : slice (sb.encode ++ tail) 0 (sb.headerParts (u32LE (crc32 sb.body))).flatten.length =
      (sb.headerParts (u32LE (crc32 sb.body))).flatten := by
    rw [encode_eq, List.append_assoc, slice_append_left (by omega), slice_zero_length]
  exact slice_eq_flatten_iff.1 hheader w hw

/-- An encoded superblock is read back, whatever follows it. -/
theorem decode_encode (h : sb.Encodable) (tail : List UInt8) : decode (sb.encode ++ tail) = .ok sb := by
  have hnames : ∀ c ∈ sb.manifest, NameOk sb.version c.name := fun c hc =>
    (nameOk_iff h.version_mem).2 (h.names c hc)
  have hlen := sb.length_encode
  have hlt := length_entries_lt h.length_lt hnames
  have hheaderLen := sb.length_headerParts (length_u32LE (crc32 sb.body))
  have hge := sb.headerLen_ge
  have hbuf : (sb.encode ++ tail).length = sb.encode.length + tail.length := List.length_append
  have hentries : slice (sb.encode ++ tail) (headerLen sb.version)
      (entries sb.version sb.manifest).length = entries sb.version sb.manifest := by
    rw [encode_eq, List.append_assoc, ← hheaderLen, slice, List.drop_left, List.take_left]
  have hparts : ∀ w ∈ placed 0 (sb.headerParts (u32LE (crc32 sb.body))),
      slice (sb.encode ++ tail) w.1 w.2.length = w.2 := fun w hw => slice_encode hw
  rw [placed_headerParts sb (length_u32LE _), List.forall_mem_append] at hparts
  obtain ⟨hfixed, hparams⟩ := hparts
  simp only [List.forall_mem_cons, length_u32LE, length_u64LE] at hfixed
  obtain ⟨hmagic, hversion, hblock, husable, htotal, hinodes, hbitmap, htable, hdata, hroot, hcount,
    hflags, hcrc, -⟩ := hfixed
  have hstop : (u32At (sb.encode ++ tail) 68).toNat = sb.manifest.length := by
    rw [u32At_eq hcount, UInt32.toNat_ofNat_of_lt' (by rw [UInt32.size]; exact h.length_lt)]
  have htake : (sb.encode ++ tail).take
      (headerLen sb.version + (entries sb.version sb.manifest).length) = sb.encode := by
    rw [← hlen, List.take_left]
  unfold decode
  rw [if_neg (by rw [not_or, Nat.not_lt, not_not]; exact ⟨by unfold V1_HEADER_LEN; omega, hmagic⟩)]
  simp only [u32At_eq hversion]
  rw [if_neg fun hv => h.version_mem.elim hv.1 fun hv' => hv'.elim hv.2.1 hv.2.2, if_neg (by omega), hstop,
    decodeManifest_eq_ok hnames hentries (by omega) hlt]
  simp only [bind, Except.bind]
  rw [htake, overwrite_encode, u32At_eq hcrc, if_neg (fun hne => hne rfl), u32At_eq hblock,
    u32At_eq husable, u64At_eq htotal, u64At_eq hinodes, u64At_eq hbitmap, u64At_eq htable,
    u64At_eq hdata, u64At_eq hroot, u32At_eq hflags]
  by_cases htwo : sb.version = 2
  · simp only [htwo, if_true, List.forall_mem_cons, length_u32LE] at hparams
    obtain ⟨hsalt, hmem, hiters, hparallel, -⟩ := hparams
    have hofFn : Vector.ofFn (fun i : Fin 16 => (sb.encode ++ tail).getD (80 + i.val) 0) = sb.salt := by
      ext i hi
      have hget := congrArg (fun l : List UInt8 => l[i]?) hsalt
      simp only [getElem?_slice, Vector.length_toList, if_pos hi] at hget
      rw [Vector.getElem_ofFn, List.getD_eq_getElem?_getD, hget]
      simp [hi]
    simp only [htwo, if_true, hofFn, u32At_eq hmem, u32At_eq hiters, u32At_eq hparallel]
    rw [← htwo]
  · simp only [htwo, if_false]
    exact congrArg Except.ok (h.clear_eq htwo)

/-- What is read is the encoding of the result. -/
theorem encode_of_decode (h : decode buf = .ok sb) :
    sb.encode <+: buf ∧ (sb.version = 1 ∨ sb.version = 2 ∨ sb.version = MARKERLESS_FS_VERSION) ∧
      ∀ c ∈ sb.manifest, NameOk sb.version c.name := by
  unfold decode at h
  dsimp only at h
  split at h
  · cases h
  rename_i hmagic
  split at h
  · cases h
  rename_i hversion
  split at h
  · cases h
  rename_i hshort
  rw [not_or, Nat.not_lt, not_not] at hmagic
  rw [Nat.not_lt] at hshort
  have hver : u32At buf 8 = 1 ∨ u32At buf 8 = 2 ∨ u32At buf 8 = MARKERLESS_FS_VERSION := by
    by_contra hnot
    rw [not_or, not_or] at hnot
    exact hversion hnot
  cases hmanifest : decodeManifest (u32At buf 8) buf (u32At buf 68).toNat (headerLen (u32At buf 8)) with
  | error e => simp [hmanifest, bind, Except.bind] at h
  | ok found =>
    obtain ⟨manifest, stop⟩ := found
    obtain ⟨hlen, hnames, rfl, hstop, hslice⟩ := decodeManifest_ok hmanifest hshort
    simp only [hmanifest, bind, Except.bind] at h
    split at h
    · cases h
    rename_i hcrc
    rw [not_not] at hcrc
    have hsb := Except.ok.inj h
    have hver' : sb.version = u32At buf 8 := by rw [← hsb]
    have hman' : sb.manifest = manifest := by rw [← hsb]
    have hge := sb.headerLen_ge
    rw [hver'] at hge
    rw [hver', hman']
    refine ⟨?_, hver, hnames⟩
    -- the header of the buffer is the row of its parts
    have hcrcLen : (slice buf 76 4).length = 4 := length_slice (by omega)
    have hheader : slice buf 0 (headerLen (u32At buf 8)) = (sb.headerParts (slice buf 76 4)).flatten := by
      rw [← hver', ← sb.length_headerParts hcrcLen, slice_eq_flatten_iff, placed_headerParts sb hcrcLen,
        List.forall_mem_append]
      constructor
      · simp only [List.forall_mem_cons, length_u32LE, length_u64LE, hcrcLen]
        rw [← hsb]
        dsimp only
        rw [hlen, UInt32.ofNat_toNat]
        refine ⟨hmagic.2, (u32LE_u32At ?_).symm, (u32LE_u32At ?_).symm, (u32LE_u32At ?_).symm,
          (u64LE_u64At ?_).symm, (u64LE_u64At ?_).symm, (u64LE_u64At ?_).symm, (u64LE_u64At ?_).symm,
          (u64LE_u64At ?_).symm, (u64LE_u64At ?_).symm, (u32LE_u32At ?_).symm, (u32LE_u32At ?_).symm,
          trivial, by simp⟩ <;> omega
      · rw [hver']
        split_ifs with htwo
        · have hge' : 108 ≤ buf.length := by
            rw [htwo] at hshort
            exact hshort
          have hsalt : slice buf 80 16 = sb.salt.toList := by
            apply List.ext_getElem?
            intro i
            rw [← hsb, getElem?_slice]
            simp only [htwo, if_true, Vector.toList_ofFn, List.getElem?_ofFn]
            split_ifs with hi
            · rw [List.getD_eq_getElem?_getD, List.getElem?_eq_getElem (by omega)]
              rfl
            · rfl
          simp only [List.forall_mem_cons, length_u32LE, Vector.length_toList]
          refine ⟨hsalt, ?_, ?_, ?_, by simp⟩ <;> rw [← hsb] <;> simp only [htwo, if_true]
          all_goals exact (u32LE_u32At (by omega)).symm
        · simp
    -- so the checksum was computed from the same bytes
    have htake : buf.take (headerLen (u32At buf 8) + (entries (u32At buf 8) manifest).length) =
        (sb.headerParts (slice buf 76 4)).flatten ++ entries sb.version sb.manifest := by
      rw [← hheader, hver', hman', List.take_add, slice, List.drop_zero]
      exact congrArg _ hslice
    have hsum : u32LE (crc32 sb.body) = slice buf 76 4 := by
      rw [body_eq, ← overwrite_headerParts hcrcLen List.length_replicate, ← htake, hcrc,
        u32LE_u32At (by omega)]
    rw [encode_eq, hsum, ← htake]
    exact List.take_prefix _ _

/-! ### Index operations -/

/-- `buf[a..b].try_into().unwrap()` into an array of `n` bytes. -/
def arrayChecked (n : Nat) (buf : List UInt8) (a b : Nat) : Option (List UInt8) :=
  (sliceChecked buf a b).bind fun bytes => if bytes.length = n then some bytes else none

def u16Checked (buf : List UInt8) (a b : Nat) : Option UInt16 :=
  (arrayChecked 2 buf a b).map fun bytes => UInt16.ofNat (ofLE bytes)

def u32Checked (buf : List UInt8) (a b : Nat) : Option UInt32 :=
  (arrayChecked 4 buf a b).map fun bytes => UInt32.ofNat (ofLE bytes)

def u64Checked (buf : List UInt8) (a b : Nat) : Option UInt64 :=
  (arrayChecked 8 buf a b).map fun bytes => UInt64.ofNat (ofLE bytes)

theorem arrayChecked_eq {n a : Nat} (h : a + n ≤ buf.length) :
    arrayChecked n buf a (a + n) = some (slice buf a n) := by
  rw [arrayChecked, sliceChecked_eq (by omega) h, Nat.add_sub_cancel_left]
  exact if_pos (length_slice h)

theorem u16Checked_eq {a : Nat} (h : a + 2 ≤ buf.length) :
    u16Checked buf a (a + 2) = some (u16At buf a) := by
  rw [u16Checked, arrayChecked_eq h]
  rfl

theorem u32Checked_eq {a : Nat} (h : a + 4 ≤ buf.length) :
    u32Checked buf a (a + 4) = some (u32At buf a) := by
  rw [u32Checked, arrayChecked_eq h]
  rfl

theorem u64Checked_eq {a : Nat} (h : a + 8 ≤ buf.length) :
    u64Checked buf a (a + 8) = some (u64At buf a) := by
  rw [u64Checked, arrayChecked_eq h]
  rfl

/-- The name of a manifest entry, with checked index operations. -/
def decodeNameIndexed (version : UInt32) (buf : List UInt8) (offset : Nat) :
    Option (Except FsError (String × Nat)) :=
  if version ≥ MARKERLESS_FS_VERSION then
    match checkedAdd offset 2 with
    | none => some (.error (.manifest "manifest offset overflow"))
    | some lenEnd =>
      if lenEnd > buf.length then
        some (.error (.manifest "truncated manifest name length"))
      else do
        let nameLen ← u16Checked buf offset lenEnd
        match checkedAdd lenEnd nameLen.toNat with
        | none => some (.error (.manifest "manifest name overflow"))
        | some nameEnd =>
          if nameEnd > buf.length then
            some (.error (.manifest "truncated manifest name"))
          else do
            let bytes ← sliceChecked buf lenEnd nameEnd
            match fromUtf8 bytes with
            | none => some (.error (.manifest "manifest name is not UTF-8"))
            | some name => some ((validateName name).map fun _ => (name, nameEnd))
  else
    some (.ok ("", offset))

/-- The loop over the manifest entries, with checked index operations. -/
def decodeManifestIndexed (version : UInt32) (buf : List UInt8) :
    Nat → Nat → Option (Except FsError (List CarrierRange × Nat))
  | 0, offset => some (.ok ([], offset))
  | n + 1, offset => do
    match ← decodeNameIndexed version buf offset with
    | .error e => some (.error e)
    | .ok (name, offset) =>
      match checkedAdd offset 20 with
      | none => some (.error (.manifest "manifest entry overflow"))
      | some entryEnd =>
        if entryEnd > buf.length then
          some (.error (.manifest "truncated manifest"))
        else do
          let chunkIndex ← u32Checked buf offset (offset + 4)
          let blockStart ← u64Checked buf (offset + 4) (offset + 12)
          let blockCount ← u64Checked buf (offset + 12) (offset + 20)
          match ← decodeManifestIndexed version buf n entryEnd with
          | .error e => some (.error e)
          | .ok (rest, stop) => some (.ok ({ name, chunkIndex, blockStart, blockCount } :: rest, stop))

/-- The fields of the result, with checked index operations. -/
def fieldsIndexed (version : UInt32) (buf : List UInt8) (manifest : List CarrierRange) :
    Option Superblock := do
  let blockSize ← u32Checked buf 12 16
  let usableSize ← u32Checked buf 16 20
  let totalBlocks ← u64Checked buf 20 28
  let inodeCount ← u64Checked buf 28 36
  let bitmapStart ← u64Checked buf 36 44
  let inodeTableStart ← u64Checked buf 44 52
  let dataStart ← u64Checked buf 52 60
  let rootInode ← u64Checked buf 60 68
  let cryptoFlags ← u32Checked buf 72 76
  let salt ← if version = 2 then
      (arrayChecked 16 buf 80 96).map fun bytes => Vector.ofFn fun i => bytes.getD i.val 0
    else some (Vector.replicate 16 0)
  let argon2MemKib ← if version = 2 then u32Checked buf 96 100 else some 0
  let argon2Iters ← if version = 2 then u32Checked buf 100 104 else some 0
  let argon2Parallel ← if version = 2 then u32Checked buf 104 108 else some 0
  some
    { version, blockSize, usableSize, totalBlocks, inodeCount, bitmapStart, inodeTableStart,
      dataStart, rootInode, cryptoFlags, salt, argon2MemKib, argon2Iters, argon2Parallel, manifest }

/-- `Superblock::decode` with checked index operations: `none` where an index is out of range. -/
def decodeIndexed (buf : List UInt8) : Option (Except FsError Superblock) :=
  if buf.length < V1_HEADER_LEN then
    some (.error .badMagic)
  else do
    let magic ← sliceChecked buf 0 8
    if magic ≠ SB_MAGIC then
      some (.error .badMagic)
    else do
      let version ← u32Checked buf 8 12
      if version ≠ 1 ∧ version ≠ 2 ∧ version ≠ MARKERLESS_FS_VERSION then
        some (.error (.manifest ("unsupported filesystem version " ++ toString version)))
      else if buf.length < headerLen version then
        some (.error (.manifest "truncated superblock header"))
      else do
        let imageCount ← u32Checked buf 68 72
        match ← decodeManifestIndexed version buf imageCount.toNat (headerLen version) with
        | .error e => some (.error e)
        | .ok (manifest, offset) => do
          let stored ← u32Checked buf 76 80
          let check ← sliceChecked buf 0 offset
          let _ ← sliceChecked check 76 80
          if crc32 (overwrite check 76 (List.replicate 4 0)) ≠ stored then
            some (.error .superblockCrc)
          else do
            let sb ← fieldsIndexed version buf manifest
            some (.ok sb)

theorem decodeNameIndexed_eq (version : UInt32) (buf : List UInt8) (offset : Nat) :
    decodeNameIndexed version buf offset = some (decodeName version buf offset) := by
  unfold decodeNameIndexed decodeName
  split_ifs with hversion
  · cases hlen : checkedAdd offset 2 with
    | none => rfl
    | some lenEnd =>
      dsimp only
      split_ifs with hshort
      · rfl
      have hlenEnd : lenEnd = offset + 2 := by
        unfold checkedAdd at hlen
        split_ifs at hlen
        exact (Option.some.inj hlen).symm
      rw [hlenEnd] at hshort ⊢
      rw [u16Checked_eq (by omega)]
      simp only [bind, Option.bind]
      cases hname : checkedAdd (offset + 2) (u16At buf offset).toNat with
      | none => rfl
      | some nameEnd =>
        dsimp only
        split_ifs with hlong
        · rfl
        have hnameEnd : offset + 2 ≤ nameEnd := by
          unfold checkedAdd at hname
          split_ifs at hname
          have := Option.some.inj hname
          omega
        rw [sliceChecked_eq hnameEnd (by omega)]
        dsimp only
        cases fromUtf8 (slice buf (offset + 2) (nameEnd - (offset + 2))) <;> rfl
  · rfl

theorem decodeManifestIndexed_eq (version : UInt32) (buf : List UInt8) (n offset : Nat) :
    decodeManifestIndexed version buf n offset = some (decodeManifest version buf n offset) := by
  induction n generalizing offset with
  | zero => rfl
  | succ n ih =>
    rw [decodeManifestIndexed, decodeManifest, decodeNameIndexed_eq]
    simp only [bind, Option.bind, Except.bind]
    cases decodeName version buf offset with
    | error e => rfl
    | ok found =>
      obtain ⟨name, nameEnd⟩ := found
      dsimp only
      cases hentry : checkedAdd nameEnd 20 with
      | none => rfl
      | some entryEnd =>
        dsimp only
        split_ifs with hshort
        · rfl
        have hentryEnd : entryEnd = nameEnd + 20 := by
          unfold checkedAdd at hentry
          split_ifs at hentry
          exact (Option.some.inj hentry).symm
        rw [u32Checked_eq (by omega), u64Checked_eq (a := nameEnd + 4) (by omega),
          u64Checked_eq (a := nameEnd + 12) (by omega), ih]
        dsimp only
        cases decodeManifest version buf n entryEnd <;> rfl

theorem headerLen_le_of_decodeManifest {n stop : Nat} {manifest : List CarrierRange}
    (h : decodeManifest version buf n offset = .ok (manifest, stop)) (hle : offset ≤ buf.length) :
    offset ≤ stop ∧ stop ≤ buf.length := by
  obtain ⟨-, -, rfl, hstop, -⟩ := decodeManifest_ok h hle
  exact ⟨Nat.le_add_right _ _, hstop⟩

/-- The fields that the parser reads from a buffer. -/
def fieldsAt (version : UInt32) (buf : List UInt8) (manifest : List CarrierRange) : Superblock where
  version := version
  blockSize := u32At buf 12
  usableSize := u32At buf 16
  totalBlocks := u64At buf 20
  inodeCount := u64At buf 28
  bitmapStart := u64At buf 36
  inodeTableStart := u64At buf 44
  dataStart := u64At buf 52
  rootInode := u64At buf 60
  cryptoFlags := u32At buf 72
  salt := if version = 2 then Vector.ofFn fun i => buf.getD (80 + i.val) 0 else Vector.replicate 16 0
  argon2MemKib := if version = 2 then u32At buf 96 else 0
  argon2Iters := if version = 2 then u32At buf 100 else 0
  argon2Parallel := if version = 2 then u32At buf 104 else 0
  manifest := manifest

theorem fieldsIndexed_eq {manifest : List CarrierRange} (h : 80 ≤ buf.length)
    (htwo : version = 2 → 108 ≤ buf.length) :
    fieldsIndexed version buf manifest = some (fieldsAt version buf manifest) := by
  unfold fieldsIndexed fieldsAt
  rw [u32Checked_eq (by omega), u32Checked_eq (by omega), u64Checked_eq (by omega),
    u64Checked_eq (by omega), u64Checked_eq (by omega), u64Checked_eq (by omega),
    u64Checked_eq (by omega), u64Checked_eq (by omega), u32Checked_eq (by omega)]
  simp only [Option.bind_eq_bind, Option.bind_some]
  split_ifs with hversion
  · have hlen := htwo hversion
    have hsalt : (Vector.ofFn fun i : Fin 16 => (slice buf 80 16).getD i.val 0) =
        Vector.ofFn fun i : Fin 16 => buf.getD (80 + i.val) 0 := by
      ext i hi
      rw [Vector.getElem_ofFn, Vector.getElem_ofFn, List.getD_eq_getElem?_getD, getElem?_slice,
        if_pos hi, List.getD_eq_getElem?_getD]
    rw [arrayChecked_eq (n := 16) (by omega), u32Checked_eq (by omega), u32Checked_eq (by omega),
      u32Checked_eq (by omega), Option.map_some, hsalt]
    rfl
  · rfl

/-- The parser does not index out of range. -/
theorem decodeIndexed_eq (buf : List UInt8) : decodeIndexed buf = some (decode buf) := by
  unfold decodeIndexed decode
  by_cases hlen : buf.length < V1_HEADER_LEN
  · rw [if_pos hlen, if_pos (Or.inl hlen)]
  rw [if_neg hlen]
  have hge : 80 ≤ buf.length := Nat.not_lt.1 hlen
  rw [sliceChecked_eq (Nat.zero_le 8) (by omega), Option.bind_eq_bind, Option.bind_some]
  by_cases hmagic : slice buf 0 8 = SB_MAGIC
  · rw [if_neg (not_not.2 hmagic), if_neg (by rw [not_or]; exact ⟨hlen, not_not.2 hmagic⟩),
      u32Checked_eq (by omega), Option.bind_eq_bind, Option.bind_some]
    by_cases hversion : u32At buf 8 ≠ 1 ∧ u32At buf 8 ≠ 2 ∧ u32At buf 8 ≠ MARKERLESS_FS_VERSION
    · rw [if_pos hversion, if_pos hversion]
    rw [if_neg hversion, if_neg hversion]
    by_cases hshort : buf.length < headerLen (u32At buf 8)
    · rw [if_pos hshort, if_pos hshort]
    rw [if_neg hshort, if_neg hshort, u32Checked_eq (by omega), Option.bind_eq_bind, Option.bind_some,
      decodeManifestIndexed_eq, Option.bind_eq_bind, Option.bind_some]
    cases hmanifest : decodeManifest (u32At buf 8) buf (u32At buf 68).toNat (headerLen (u32At buf 8)) with
    | error e => rfl
    | ok found =>
      obtain ⟨manifest, stop⟩ := found
      obtain ⟨hstart, hstop⟩ := headerLen_le_of_decodeManifest hmanifest (Nat.not_lt.1 hshort)
      have hv : 80 ≤ headerLen (u32At buf 8) := by
        unfold headerLen V1_HEADER_LEN V2_HEADER_LEN V3_HEADER_LEN
        split_ifs <;> decide
      have hfields : fieldsIndexed (u32At buf 8) buf manifest = some (fieldsAt (u32At buf 8) buf manifest) := by
        refine fieldsIndexed_eq hge fun htwo => ?_
        rw [htwo] at hshort
        exact Nat.not_lt.1 hshort
      dsimp only
      rw [u32Checked_eq (by omega), sliceChecked_eq (Nat.zero_le _) hstop, Option.bind_some,
        Option.bind_some, sliceChecked_eq (by omega)
          (by rw [slice, Nat.sub_zero, List.drop_zero, List.length_take]; omega),
        Option.bind_some, hfields]
      have htake : slice buf 0 (stop - 0) = buf.take stop := rfl
      simp only [bind, Except.bind, Option.bind, htake]
      by_cases hcrc : crc32 (overwrite (buf.take stop) 76 (List.replicate 4 0)) = u32At buf 76
      · rw [if_neg (not_not.2 hcrc), if_neg (not_not.2 hcrc)]
        rfl
      · rw [if_pos hcrc, if_pos hcrc]
  · rw [if_pos hmagic, if_pos (Or.inr hmagic)]

/-- The parser accepts exactly what the encoder produces. It never indexes out of range, what it
accepts starts with the encoding of the result, and an encoded superblock is read back whatever
follows it. -/
theorem decode_exact :
    (∀ buf, decodeIndexed buf = some (decode buf)) ∧
      (∀ buf sb, decode buf = .ok sb → sb.encode <+: buf ∧
        (sb.version = 1 ∨ sb.version = 2 ∨ sb.version = 3) ∧
        (sb.version = 3 → ∀ c ∈ sb.manifest, validateName c.name = .ok ())) ∧
      ∀ sb : Superblock, sb.Encodable → ∀ tail, decode (sb.encode ++ tail) = .ok sb := by
  refine ⟨decodeIndexed_eq, fun buf sb h => ?_, fun sb h => decode_encode h⟩
  obtain ⟨hbytes, hversion, hnames⟩ := encode_of_decode h
  refine ⟨hbytes, hversion, fun hthree c hc => ?_⟩
  have hname := hnames c hc
  have hmarkerless : sb.version = MARKERLESS_FS_VERSION := hthree
  rwa [nameOk_iff hversion, if_pos hmarkerless] at hname

theorem decode_exact_plain :
    decode ((standard 8 16 1 2 3 [⟨"", 0, 0, 8⟩] false).encode ++ List.replicate 7 0) =
      .ok (standard 8 16 1 2 3 [⟨"", 0, 0, 8⟩] false) :=
  decode_exact.2.2 _ ⟨by decide, by decide, by decide, by decide, by decide⟩ _

end AlbumFS.Superblock
