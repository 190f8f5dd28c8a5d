import AlbumFS.Pool.RoundTrip

/-!
# Formatting and opening a plaintext pool

Opening finds the carriers of a plaintext pool by their framed chunks. A pool that was formatted is opened
again unless an image that formatting has skipped holds a framed chunk of its own.

## Main definitions

* `FramedFolder`: folders in which a framed payload fits its carrier.
* `Stamped`: slots whose carriers hold a chunk with their index and mark.

## Main results

* `Stamps.storeInvariant`: every chunk that a store writes is stamped.
* `openPlaintext_format_iff`: when a formatted plaintext pool can be opened.
-/

namespace AlbumFS

open CarrierFolder Prog

/-- An image in memory takes more than eight times its capacity, and a framed payload that can be read fits
the capacity of its carrier. -/
structure FramedFolder (κ : Type) [CarrierFolder κ] : Prop extends ExactFolder κ where
  rawCapacity_small : ∀ {folder : κ} {name : String} {n : Nat},
    rawCapacity folder name = .ok n → n < 2 ^ 61
  framed_le : ∀ {folder : κ} {name : String} {info : ChunkMeta} {payload : List UInt8},
    readChunk folder name .framed [] = .ok (info, payload) →
      ∃ available, capacity folder name = .ok available ∧ payload.length ≤ available

theorem ImageFolder.framed : FramedFolder ImageFolder where
  toExactFolder := ImageFolder.exact
  rawCapacity_small := by
    intro folder name n h
    cases hopen : folder.openCarrier name with
    | error e => simp [rawCapacity, hopen, bind, Except.bind] at h
    | ok carrier =>
      simp only [rawCapacity, hopen, bind, Except.bind] at h
      cases carrier with
      | png image =>
        obtain rfl := Except.ok.inj h
        have := image.size_lt
        rw [PngCodec.rawCapacity]
        omega
      | jpeg file =>
        obtain rfl := Except.ok.inj h
        exact file.rawCapacity_lt
  framed_le := by
    intro folder name info payload h
    cases hopen : folder.openCarrier name with
    | error e => simp [readChunk, hopen, bind, Except.bind] at h
    | ok carrier =>
      simp only [readChunk, hopen, bind, Except.bind] at h
      simp only [capacity, rawCapacity, hopen, bind, Except.bind]
      cases carrier with
      | png image =>
        dsimp only at h
        cases hread : PngCodec.readChunk folder.order image .framed [] with
        | none => simp [hread, finished] at h
        | some result =>
          rw [hread, finished] at h
          rw [h] at hread
          exact ⟨_, rfl, PngCodec.length_readChunk_framed hread⟩
      | jpeg file => exact ⟨_, rfl, JpegCodec.length_readChunk_framed h⟩

variable {κ : Type} [CarrierFolder κ] {crypto : Crypto}

/-! ### Chunks with a stamp -/

/-- The carrier of the slot holds a framed chunk with the index and the mark of the slot. -/
def Stamped (folder : κ) (slot : CarrierSlot) : Prop :=
  ∃ info payload, readChunk folder slot.path .framed [] = .ok (info, payload) ∧
    info.chunkIndex = slot.chunkIndex ∧ (info.flags &&& 1 != 0) = slot.isPrimary ∧
    payload.length = slot.expected

/-- The slots that agree with their carriers are stamped. -/
def Stamps (pool : Pool κ crypto) : Prop :=
  ∀ (i : Nat) slot, pool.store.carriers[i]? = some slot → slot.dirty = false → Stamped pool.folder slot

section Stamps

variable {base : BlockStore} {slot slot' : CarrierSlot} {folder folder' : κ}

theorem Stamped.of_unloaded (h : Stamped folder slot) (hslot : slot'.unloaded = slot.unloaded) :
    Stamped folder slot' := by
  obtain ⟨info, payload, hread, hindex, hmark, hlength⟩ := h
  have hpath : slot.path = slot'.path := (congrArg CarrierSlot.path hslot : slot'.unloaded.path = _).symm
  have hindex' : slot.chunkIndex = slot'.chunkIndex :=
    (congrArg CarrierSlot.chunkIndex hslot : slot'.unloaded.chunkIndex = _).symm
  have hmark' : slot.isPrimary = slot'.isPrimary :=
    (congrArg CarrierSlot.isPrimary hslot : slot'.unloaded.isPrimary = _).symm
  have hlength' : slot.expected = slot'.expected :=
    (congrArg CarrierSlot.expected hslot : slot'.unloaded.expected = _).symm
  exact ⟨info, payload, hpath ▸ hread, hindex.trans hindex', hmark.trans hmark', hlength.trans hlength'⟩

theorem Stamped.congr (h : Stamped folder slot)
    (hread : ∀ mode key, readChunk folder' slot.path mode key = readChunk folder slot.path mode key) :
    Stamped folder' slot := by
  obtain ⟨info, payload, hchunk, hstamp⟩ := h
  exact ⟨info, payload, (hread _ _).trans hchunk, hstamp⟩

/-- A chunk that a plaintext store writes is stamped. -/
theorem stamped_of_writeChunk (hchunks : ExactChunks κ) {store : BlockStore} {mode : ChunkWrite}
    {payload key : List UInt8} (hplain : store.encrypted = false)
    (hmode : store.writeMode slot = .ok (mode, key)) (hlength : payload.length = slot.expected)
    (hwrite : writeChunk folder slot.path mode payload key = (.ok (), folder')) :
    Stamped folder' slot := by
  rw [BlockStore.writeMode, hplain, if_neg Bool.false_ne_true] at hmode
  obtain ⟨rfl, rfl⟩ := Prod.mk.inj (Except.ok.inj hmode)
  refine ⟨_, payload, hchunks.read_write hwrite, rfl, ?_, hlength⟩
  rw [ChunkWrite.info]
  dsimp only
  cases slot.isPrimary <;> decide

/-- The chunks that a plaintext store writes are stamped. -/
theorem Stamps.storeInvariant (hchunks : ExactChunks κ) (hbase : base.Wellformed)
    (hplain : base.encrypted = false) :
    StoreInvariant fun pool : Pool κ crypto => Loaded pool base ∧ Stamps pool where
  length h hi hbuffer := h.1.length _ _ _ hi hbuffer
  setSlot := by
    intro pool i slot slot' h hi hslot hdirty _ hlength
    refine ⟨h.1.setSlot hi hslot hlength, fun j s hj hclean => ?_⟩
    rw [Pool.setSlot] at hj
    dsimp only at hj
    rw [List.getElem?_set] at hj
    split_ifs at hj
    · obtain rfl := Option.some.inj hj
      exact (h.2 i slot hi (hdirty hclean)).of_unloaded hslot
    · exact h.2 j s hj hclean
  draw h := ⟨⟨h.1.reopened, h.1.length⟩, h.2⟩
  tick _ h := ⟨⟨h.1.reopened, h.1.length⟩, h.2⟩
  written := by
    intro pool i slot mode payload key folder' h hi hbuffer hmode hwrite
    refine ⟨h.1.written hi, fun j s hj hclean => ?_⟩
    have hflag : pool.store.encrypted = false := by
      rw [← hplain, ← h.1.reopened]
      rfl
    rw [Pool.setSlot] at hj
    dsimp only at hj
    rw [List.getElem?_set] at hj
    split_ifs at hj with hji
    · obtain rfl := Option.some.inj hj
      exact (stamped_of_writeChunk hchunks hflag hmode (h.1.length i slot payload hi hbuffer)
        hwrite).of_unloaded rfl
    · refine (h.2 j s hj hclean).congr fun mode' key' => ?_
      have hpath : s.path ≠ slot.path := fun hpath =>
        hji (hbase.path_inj (h.1.base_slot hj) (h.1.base_slot hi) hpath).symm
      have hother := hchunks.read_other pool.folder mode payload key hpath mode' key'
      rwa [hwrite] at hother
  failed := by
    intro pool i slot mode payload key e folder' h hi hwrite
    refine ⟨⟨h.1.reopened, h.1.length⟩, fun j s hj hclean => ?_⟩
    refine (h.2 j s hj hclean).congr fun mode' key' => ?_
    by_cases hpath : s.path = slot.path
    · rw [hpath]
      exact hchunks.read_failed hwrite mode' key'
    · have hother := hchunks.read_other pool.folder mode payload key hpath mode' key'
      rwa [hwrite] at hother

end Stamps

theorem readChunk_of_fetch {store : BlockStore} {folder : κ} {slot : CarrierSlot} {payload : List UInt8}
    (hplain : store.encrypted = false) (h : store.fetch folder slot = .ok payload) :
    ∃ info, readChunk folder slot.path .framed [] = .ok (info, payload) := by
  rw [BlockStore.fetch, BlockStore.readMode, hplain, if_neg Bool.false_ne_true] at h
  obtain ⟨-, h⟩ := except_ite_ok h
  obtain ⟨⟨mode, key⟩, hmode, h⟩ := except_bind_ok h
  obtain ⟨rfl, rfl⟩ := Prod.mk.inj (Except.ok.inj hmode)
  obtain ⟨⟨info, payload'⟩, hread, h⟩ := except_bind_ok h
  obtain ⟨-, h⟩ := except_ite_ok h
  obtain ⟨-, h⟩ := except_ite_ok h
  obtain rfl := Except.ok.inj h
  exact ⟨info, except_mapError_ok hread⟩

/-! ### Formatting a plaintext pool -/

section Formatted

variable {random : Randomness} {folder folder' : κ} {requested : Option String} {force : Bool}
  {r : FormatResult} {plan : FormatPlan} {usable : List (String × String × Nat)} {pool : Pool κ crypto}
  {disk : Disk} {slot : CarrierSlot} {path : String} {info : ChunkMeta} {payload : List UInt8}

/-- Nothing of a new pool has been written. -/
theorem FormatPlan.stamps_pool (plan : FormatPlan) (random : Randomness) (folder : κ) :
    Stamps (plan.pool crypto random folder) := by
  intro i slot hi hclean
  rw [FormatPlan.pool, BlockStore.newForFormat, BlockStore.ofCarriers] at hi
  dsimp only at hi
  rw [List.getElem?_map, Option.map_eq_some_iff] at hi
  obtain ⟨_, -, rfl⟩ := hi
  cases hclean

/-- The superblock of a plaintext pool survives its encoding. -/
theorem FormatPlan.LaidOut.encodable_plaintext (h : plan.LaidOut folder false usable) :
    plan.superblock.Encodable := by
  have hversion : plan.superblock.version = 2 := (encrypted_layout h.layout).2.2.1 rfl
  refine ⟨Or.inr (Or.inl hversion), fun range hrange => ?_, fun hne => absurd hversion hne,
    fun hne => absurd hversion hne, ?_⟩
  · rw [if_neg (by rw [hversion]; decide)]
    rw [h.manifest] at hrange
    obtain ⟨carrier, hmem, hname, -⟩ := mem_buildManifest hrange
    rw [hname, (h.carriers carrier hmem).name]
    rfl
  · have hle := h.length_le
    rw [h.manifest, length_buildManifest]
    omega

/-- What a plaintext format leaves behind. -/
structure PlaintextDone (random : Randomness) (folder folder' : κ) (plan : FormatPlan)
    (usable : List (String × String × Nat)) (pool : Pool κ crypto) (disk : Disk) : Prop
    extends FormatDone random folder folder' false plan usable pool disk where
  keys : plan.keys = none
  anchor : plan.anchor = none
  same : folder' = pool.folder
  stamped : ∀ slot ∈ plan.base.carriers, Stamped folder' slot

/-- A plan without an anchor is carried out by filling the blocks. -/
theorem format_of_plan {passphrase : Option String}
    (hplan : planFormat crypto random folder passphrase requested force = .ok plan)
    (hexec : exec (formatStore plan.superblock) (plan.pool crypto random folder) = (.ok (), pool))
    (hanchor : plan.anchor = none) :
    formatWithAnchorOptions crypto random folder passphrase requested force =
      (.ok { superblock := plan.superblock, anchor := none }, pool.folder) := by
  rw [formatWithAnchorOptions, hplan]
  dsimp only
  rw [hexec, hanchor]

theorem formatPlaintext_ok (hfolder : ExactFolder κ) (hexact : crypto.Exact)
    (h : formatWithAnchorOptions crypto random folder none requested force = (.ok r, folder')) :
    ∃ (plan : FormatPlan) (usable : _) (pool : Pool κ crypto) (disk : Disk),
      r = { superblock := plan.superblock, anchor := none } ∧
      PlaintextDone random folder folder' plan usable pool disk := by
  obtain ⟨plan, usable, pool, disk, hplan, rfl, hdone⟩ := format_ok hfolder hexact h
  obtain ⟨-, -, -, -, -, hanchor, -, hkeys⟩ := planFormat_ok hplan
  have hsame : folder' = pool.folder := by
    rcases hdone.folder_eq with ⟨-, hsame⟩ | ⟨anchor, -, hsome, -⟩
    · exact hsame
    · rw [hanchor] at hsome
      cases hsome
  have hplain : plan.base.encrypted = false := by
    rw [FormatPlan.base, hkeys]
    rfl
  have hinvariant : StoreInvariant fun pool : Pool κ crypto => Loaded pool plan.base ∧ Stamps pool :=
    Stamps.storeInvariant hfolder.toExactChunks hdone.laidOut.wellformed_base hplain
  have hstate := (hinvariant.linkedDevices.formatStore plan.superblock (plan.pool crypto random folder) _
    ⟨rfl, plan.loaded_pool random folder, plan.stamps_pool random folder⟩).2.2.2.2
  rw [hdone.exec_eq] at hstate
  refine ⟨plan, usable, pool, disk, by rw [hanchor], hdone, hkeys, hanchor, hsame, fun slot hslot => ?_⟩
  -- every slot was written by the flush
  obtain ⟨i, hi⟩ := List.getElem?_of_mem hslot
  obtain ⟨payloads, hholds, -⟩ := hdone.mirrors.blocks
  obtain ⟨slot', hi', hunloaded⟩ := hholds.exists_slot hi
  have hreopened : slot.unloaded = slot := by
    rw [← hunloaded]
    rfl
  rw [hsame]
  exact (hstate i slot' hi' (hdone.clean i slot' hi')).of_unloaded (hreopened.trans hunloaded.symm)

/-- A framed chunk in an image without room for a block. Formatting skips the image, opening finds the
chunk. -/
def Leftover (folder : κ) (path : String) : Prop :=
  path ∈ carrierPaths folder ∧ (∃ available, capacity folder path = .ok available ∧ available < PB) ∧
    ∃ info payload, readChunk folder path .framed [] = .ok (info, payload)

namespace PlaintextDone

variable (h : PlaintextDone random folder folder' plan usable pool disk)
include h

theorem kept_paths : carrierPaths folder' = carrierPaths folder := by
  rw [h.same]
  exact h.kept.carrierPaths_eq

/-- The carriers of the slots are found, with their stamps. -/
theorem mem_scan_slot (hslot : slot ∈ plan.base.carriers) :
    ∃ info payload, (slot.path, info, payload) ∈ scan folder' := by
  obtain ⟨info, payload, hread, -⟩ := h.stamped slot hslot
  refine ⟨info, payload, mem_scan.2 ⟨?_, hread⟩⟩
  rw [h.kept_paths]
  have hpath : slot.path ∈ plan.paths := by
    rw [← h.laidOut.paths_base]
    exact List.mem_map_of_mem hslot
  rw [h.laidOut.paths] at hpath
  exact h.laidOut.listed.mem hpath

theorem stamp_of_mem (hslot : slot ∈ plan.base.carriers) (hmem : (slot.path, info, payload) ∈ scan folder') :
    info.chunkIndex = slot.chunkIndex ∧ (info.flags &&& 1 != 0) = slot.isPrimary ∧
      payload.length = slot.expected := by
  obtain ⟨info', payload', hread, hstamp⟩ := h.stamped slot hslot
  rw [(mem_scan.1 hmem).2] at hread
  obtain ⟨rfl, rfl⟩ := Prod.mk.inj (Except.ok.inj hread)
  exact hstamp

/-- What is found besides the carriers of the slots is left over from before. -/
theorem scan_cases (hfolder : FramedFolder κ) (hmem : (path, info, payload) ∈ scan folder') :
    (∃ slot ∈ plan.base.carriers, slot.path = path) ∨ Leftover folder path ∧ payload.length < PB := by
  obtain ⟨hlisted, hread⟩ := mem_scan.1 hmem
  rw [h.kept_paths] at hlisted
  by_cases hpath : path ∈ plan.paths
  · rw [← h.laidOut.paths_base] at hpath
    obtain ⟨slot, hslot, rfl⟩ := List.mem_map.1 hpath
    exact .inl ⟨slot, hslot, rfl⟩
  · have hkept := h.kept.readChunk_eq path hpath .framed []
    rw [← h.same, hread] at hkept
    rw [h.laidOut.paths] at hpath
    rcases h.laidOut.skipped path hlisted hpath with hanchor | ⟨available, hroom, hzero⟩
    · rw [h.anchor] at hanchor
      cases hanchor
    · have hlt : available < PB := by
        rw [show PB = 4096 from rfl] at hzero ⊢
        omega
      obtain ⟨available', hroom', hle⟩ := hfolder.framed_le hkept.symm
      have hsame : available = available' := Except.ok.inj (hroom.symm.trans hroom')
      exact .inr ⟨⟨hlisted, ⟨available, hroom, hlt⟩, info, payload, hkept.symm⟩, by omega⟩

/-- A carrier that was left over is none of the carriers of the slots. -/
theorem not_mem_paths (hleft : Leftover folder path) : path ∉ plan.paths := by
  intro hpath
  rw [h.laidOut.paths] at hpath
  obtain ⟨carrier, hcarrier, rfl⟩ := List.mem_map.1 hpath
  obtain ⟨-, ⟨available, hroom, hlt⟩, -⟩ := hleft
  obtain ⟨available', hroom', hcount⟩ := (h.laidOut.carriers carrier hcarrier).room
  have hsame : available = available' := Except.ok.inj (hroom.symm.trans hroom')
  have hpos := (h.laidOut.carriers carrier hcarrier).pos
  rw [show PB = 4096 from rfl] at hlt hcount
  omega

/-- As many chunks are found as there are slots, unless something was left over. -/
theorem length_scan_iff (hfolder : FramedFolder κ) :
    (scan folder').length = plan.superblock.manifest.length ↔ ∀ path, ¬Leftover folder path := by
  have hnodup : ((scan folder').map Prod.fst).Nodup := by
    refine List.Nodup.sublist ?_ (nodup_carrierPaths (hfolder.nodup_entries folder'))
    exact map_fst_scan_sublist folder'
  have hslots : plan.paths ⊆ (scan folder').map Prod.fst := by
    intro path hpath
    rw [← h.laidOut.paths_base] at hpath
    obtain ⟨slot, hslot, rfl⟩ := List.mem_map.1 hpath
    obtain ⟨info, payload, hmem⟩ := h.mem_scan_slot hslot
    exact List.mem_map_of_mem hmem
  have hdistinct : plan.paths.Nodup := by
    rw [h.laidOut.paths]
    exact h.laidOut.distinct
  have hlength : ((scan folder').map Prod.fst).length = (scan folder').length := List.length_map _
  rw [← h.laidOut.length_paths, ← hlength]
  constructor
  · rintro hlength path hleft
    have hmem : path ∈ (scan folder').map Prod.fst := by
      have hkept := h.kept.readChunk_eq path (h.not_mem_paths hleft) .framed []
      obtain ⟨hlisted, -, info, payload, hread⟩ := hleft
      rw [← h.same, hread] at hkept
      rw [← h.kept_paths] at hlisted
      exact List.mem_map_of_mem (mem_scan.2 ⟨hlisted, hkept⟩)
    have hle := (List.Nodup.subperm (List.nodup_cons.2 ⟨h.not_mem_paths hleft, hdistinct⟩)
      (List.cons_subset.2 ⟨hmem, hslots⟩)).length_le
    rw [List.length_cons] at hle
    omega
  · intro hnone
    refine Nat.le_antisymm (List.Nodup.subperm hnodup fun path hpath => ?_).length_le
      (hdistinct.subperm hslots).length_le
    obtain ⟨⟨path, info, payload⟩, hmem, rfl⟩ := List.mem_map.1 hpath
    rcases h.scan_cases hfolder hmem with ⟨slot, hslot, hpath⟩ | ⟨hleft, -⟩
    · rw [← h.laidOut.paths_base, ← hpath]
      exact List.mem_map_of_mem hslot
    · exact absurd hleft (hnone path)

/-- A formatted pool has a first slot. -/
theorem exists_primary : ∃ slot, plan.base.carriers[0]? = some slot := by
  refine ⟨_, List.getElem?_eq_getElem ?_⟩
  rw [h.laidOut.length_base]
  by_contra hlength
  obtain ⟨htiles, -⟩ := validateManifestGeometry_ok h.laidOut.valid
  rw [List.length_eq_zero_iff.1 (Nat.eq_zero_of_not_pos hlength)] at htiles
  have hsum := htiles.sum_eq
  obtain ⟨-, -, -, -, -, hlt⟩ := layout_eq_ok h.laidOut.layout (UInt64.toNat_lt _)
  rw [List.map_nil, List.map_nil, List.sum_nil] at hsum
  omega

/-- The first block of the primary carrier holds the superblock. -/
theorem decode_primary (hfolder : ExactFolder κ) (hslot : slot ∈ plan.base.carriers)
    (hprimary : slot.isPrimary = true) (hmem : (slot.path, info, payload) ∈ scan folder') :
    PB ≤ payload.length ∧ ∃ block, readPhysicalBlock 0 (payload.take PB) = .ok block ∧
      Superblock.decode block.bytes = .ok plan.superblock := by
  obtain ⟨i, hi⟩ := List.getElem?_of_mem hslot
  obtain ⟨carrier, range, hcarrier, hrange, hindex, hcount, heq⟩ := h.laidOut.slot_base hi
  have hlt : i < 2 ^ 32 := by
    have hlength := (List.getElem?_eq_some_iff.1 hcarrier).1
    have hle := h.laidOut.length_le
    omega
  obtain rfl : i = 0 := by
    rw [heq] at hprimary
    have hzero := congrArg UInt32.toNat (eq_of_beq hprimary)
    rwa [hindex, UInt32.toNat_ofNat_of_lt' (by rwa [UInt32.size])] at hzero
  -- the range of the primary carrier begins at block 0
  obtain ⟨htiles, hcounts⟩ := validateManifestGeometry_ok h.laidOut.valid
  have hpos : 0 < slot.blockCount.toNat := by
    rw [heq]
    exact Nat.pos_of_ne_zero (hcounts range (List.mem_of_getElem? hrange))
  have hstart : slot.blockStart.toNat = 0 := by
    rw [heq]
    exact htiles.start_eq (by rw [List.getElem?_map, hrange]; rfl)
  have hcovers : slot.blockStart.toNat ≤ 0 ∧ 0 < slot.blockStart.toNat + slot.blockCount.toNat := by
    omega
  have hbase := h.laidOut.wellformed_base
  obtain ⟨hoffset, hin⟩ := (h.laidOut.fits_base hfolder).offset_eq hi hcovers
  rw [Nat.zero_sub, Nat.zero_mul] at hoffset
  rw [hoffset, Nat.zero_add] at hin
  have hlength := (h.stamp_of_mem hslot hmem).2.2
  refine ⟨by omega, disk.blocks 0, ?_, ?_⟩
  · obtain ⟨payloads, hholds, hblocks⟩ := h.mirrors.blocks
    obtain ⟨slot', hi', hunloaded⟩ := hholds.exists_slot hi
    have hpath : slot'.path = slot.path :=
      (congrArg CarrierSlot.path hunloaded : slot'.unloaded.path = _)
    have hheld := hholds.held 0 slot' hi'
    have hread := readChunk_of_fetch (by rw [FormatPlan.base, h.keys]; rfl)
      (hheld.clean (h.clean 0 slot' hi'))
    obtain ⟨info', hread⟩ := hread
    rw [hpath, ← h.same, (mem_scan.1 hmem).2] at hread
    obtain ⟨-, rfl⟩ := Prod.mk.inj (Except.ok.inj hread)
    have htotal := hbase.contiguous.end_le hi
    have hblock := hblocks 0 (by omega)
    rw [readFrom, hbase.contiguous.carrierFor_of_mem hi hcovers] at hblock
    simp only [hi] at hblock
    rw [hoffset, Nat.zero_add, sliceChecked_eq (Nat.zero_le _) (by omega)] at hblock
    dsimp only at hblock
    rw [BlockStore.decodeBlock, if_neg (by rw [FormatPlan.base, h.keys]; exact Bool.false_ne_true)] at hblock
    exact except_mapError_ok hblock
  · obtain ⟨hle, hzero⟩ := h.blocks.superblock (encrypted_layout h.laidOut.layout).1
    rw [hzero, Block.pad]
    dsimp only
    rw [List.take_of_length_le hle]
    exact Superblock.decode_encode h.laidOut.encodable_plaintext _

/-- Without leftovers, the chunks that are found have distinct indices. -/
theorem scan_unique (hfolder : FramedFolder κ) (hnone : ∀ path, ¬Leftover folder path) {i : Nat}
    (hi : plan.base.carriers[i]? = some slot) (hmem : (slot.path, info, payload) ∈ scan folder')
    {chunk : String × ChunkMeta × List UInt8} (hchunk : chunk ∈ scan folder')
    (hindex : chunk.2.1.chunkIndex = UInt32.ofNat i) : chunk = (slot.path, info, payload) := by
  obtain ⟨path', info', payload'⟩ := chunk
  rcases h.scan_cases hfolder hchunk with ⟨slot', hslot', rfl⟩ | ⟨hleft, -⟩
  · obtain ⟨j, hj⟩ := List.getElem?_of_mem hslot'
    obtain ⟨carrier, -, hcarrier, -⟩ := h.laidOut.slot_base hi
    obtain ⟨carrier', range', hcarrier', -, hindex', -, heq'⟩ := h.laidOut.slot_base hj
    have hsame : UInt32.ofNat j = UInt32.ofNat i := by
      rw [← hindex', ← hindex, (h.stamp_of_mem hslot' hchunk).1, heq']
    have hle := h.laidOut.length_le
    have hilt := (List.getElem?_eq_some_iff.1 hcarrier).1
    have hjlt := (List.getElem?_eq_some_iff.1 hcarrier').1
    have hij := congrArg UInt32.toNat hsame
    rw [UInt32.toNat_ofNat_of_lt' (by rw [UInt32.size]; omega),
      UInt32.toNat_ofNat_of_lt' (by rw [UInt32.size]; omega)] at hij
    subst hij
    obtain rfl := Option.some.inj (hi.symm.trans hj)
    have hread := (mem_scan.1 hmem).2
    rw [(mem_scan.1 hchunk).2] at hread
    rw [Except.ok.inj hread]
  · exact absurd hleft (hnone path')

/-- Without leftovers, the primary chunk is the one with index 0. -/
theorem flag_eq (hfolder : FramedFolder κ) (hnone : ∀ path, ¬Leftover folder path)
    {chunk : String × ChunkMeta × List UInt8} (hchunk : chunk ∈ scan folder') :
    (chunk.2.1.flags &&& 1 != 0) = (chunk.2.1.chunkIndex == 0) := by
  obtain ⟨path', info', payload'⟩ := chunk
  rcases h.scan_cases hfolder hchunk with ⟨slot, hslot, rfl⟩ | ⟨hleft, -⟩
  · obtain ⟨i, hi⟩ := List.getElem?_of_mem hslot
    obtain ⟨_, _, _, _, _, _, heq⟩ := h.laidOut.slot_base hi
    obtain ⟨hindex, hflag, -⟩ := h.stamp_of_mem hslot hchunk
    rw [hflag, hindex, heq]
  · exact absurd hleft (hnone path')

/-- Without leftovers, a range is opened on the carrier of its slot. -/
theorem openRange_slot (hfolder : FramedFolder κ) (hnone : ∀ path, ¬Leftover folder path) {i : Nat}
    {range : CarrierRange} (hi : plan.base.carriers[i]? = some slot)
    (hrange : plan.superblock.manifest[i]? = some range) :
    openRange folder' (scan folder') range = .ok (slot.path, slot.isPrimary) := by
  have hslot := List.mem_of_getElem? hi
  obtain ⟨carrier, range', hcarrier, hrange', hindex, hcount, heq⟩ := h.laidOut.slot_base hi
  obtain rfl := Option.some.inj (hrange.symm.trans hrange')
  obtain ⟨info, payload, hmem⟩ := h.mem_scan_slot hslot
  obtain ⟨hchunk, hflag, hlength⟩ := h.stamp_of_mem hslot hmem
  have hfind : (scan folder').find? (fun carrier => decide (carrier.2.1.chunkIndex = range.chunkIndex)) =
      some (slot.path, info, payload) :=
    find?_of_unique hmem (decide_eq_true (by rw [hchunk, heq])) fun chunk hchunk' hindex' =>
      h.scan_unique hfolder hnone hi hmem hchunk' ((of_decide_eq_true hindex').trans hindex)
  have hexpected : payload.length = range.blockCount.toNat * PB % 2 ^ 64 := by
    rw [hlength, heq]
    rfl
  have husable := h.laidOut.carriers carrier (List.mem_of_getElem? hcarrier)
  obtain ⟨available, hroom, hdiv⟩ := husable.room
  have hlt := room_lt hfolder.rawCapacity_lt hroom
  have hcapacity : capacity folder' slot.path = .ok available := by
    have hraw : rawCapacity folder' slot.path = rawCapacity folder slot.path := by
      rw [h.same]
      exact h.kept.rawCapacity_eq _
    rw [capacity, hraw, heq]
    exact hroom
  have hfits : ¬available < range.blockCount.toNat * PB % 2 ^ 64 := by
    have hmod := Nat.mod_le (range.blockCount.toNat * PB) (2 ^ 64)
    have hmul := Nat.div_mul_le_self available PB
    rw [hcount, hdiv, UInt64.toNat_ofNat_of_lt' (Nat.lt_of_le_of_lt (Nat.div_le_self _ _) hlt)] at *
    omega
  rw [openRange, hfind]
  dsimp only
  rw [if_neg (not_not.2 hexpected), hcapacity]
  simp only [Except.mapError, bind, Except.bind]
  rw [if_neg hfits, hflag]

/-- Opening a plaintext pool that was formatted succeeds unless something was left over, and gives back the
superblock and the carriers. -/
theorem openPlaintext_iff (hfolder : FramedFolder κ) {opened : Superblock × BlockStore} :
    openPlaintext folder' = .ok opened ↔
      opened = (plan.superblock, plan.base) ∧ ∀ path, ¬Leftover folder path := by
  have hencrypted : plan.superblock.encrypted = false := (encrypted_layout h.laidOut.layout).1
  have hforward : ∀ opened, openPlaintext folder' = .ok opened → ∀ path, ¬Leftover folder path := by
    intro opened hopen
    rw [openPlaintext] at hopen
    split at hopen
    · cases hopen
    · rename_i path info payload hfind
      have hmem := List.mem_of_find?_eq_some hfind
      have hflag := List.find?_some hfind
      obtain ⟨hlength, hopen⟩ := except_ite_ok hopen
      rcases h.scan_cases hfolder hmem with ⟨slot, hslot, rfl⟩ | ⟨-, hlt⟩
      · have hprimary := (h.stamp_of_mem hslot hmem).2.1.symm.trans hflag
        obtain ⟨-, block, hblock, hdecode⟩ := h.decode_primary hfolder.toExactFolder hslot hprimary hmem
        simp only [hblock, hdecode, bind, Except.bind, hencrypted, Bool.false_eq_true, if_false] at hopen
        obtain ⟨hcount, -⟩ := except_ite_ok hopen
        exact (h.length_scan_iff hfolder).1 (not_not.1 hcount)
      · exact absurd hlt hlength
  have hbackward : (∀ path, ¬Leftover folder path) →
      openPlaintext folder' = .ok (plan.superblock, plan.base) := by
    intro hnone
    obtain ⟨slot, hi⟩ := h.exists_primary
    have hslot := List.mem_of_getElem? hi
    obtain ⟨info, payload, hmem⟩ := h.mem_scan_slot hslot
    obtain ⟨_, _, _, _, hzero, _, heq⟩ := h.laidOut.slot_base hi
    obtain ⟨hindex, hflag, -⟩ := h.stamp_of_mem hslot hmem
    have hprimary : slot.isPrimary = true := by
      rw [heq]
      exact beq_iff_eq.2 hzero
    obtain ⟨hlength, block, hblock, hdecode⟩ := h.decode_primary hfolder.toExactFolder hslot hprimary hmem
    have hfind : (scan folder').find? (fun carrier => carrier.2.1.flags &&& 1 != 0) =
        some (slot.path, info, payload) := by
      refine find?_of_unique hmem (hflag.trans hprimary) fun chunk hchunk hflag' => ?_
      rw [h.flag_eq hfolder hnone hchunk] at hflag'
      exact h.scan_unique hfolder hnone hi hmem hchunk (eq_of_beq hflag')
    have hpaths : plan.superblock.manifest.mapM (openRange folder' (scan folder')) =
        .ok (plan.paths.zip (plan.superblock.manifest.map fun range => range.chunkIndex == 0)) := by
      refine mapM_eq_ok h.laidOut.length_zip fun i range carrier hrange hcarrier => ?_
      exact h.openRange_slot hfolder hnone
        (getElem?_fromManifest.2 ⟨carrier.1, carrier.2, range, hcarrier, hrange, rfl⟩) hrange
    rw [openPlaintext, hfind]
    dsimp only
    rw [if_neg (Nat.not_lt.2 hlength)]
    simp only [hblock, hdecode, bind, Except.bind, hencrypted, Bool.false_eq_true, if_false]
    rw [if_neg (not_not.2 ((h.length_scan_iff hfolder).2 hnone))]
    simp only [hpaths, h.laidOut.valid]
    rw [FormatPlan.base, h.keys]
  constructor
  · intro hopen
    have hnone := hforward opened hopen
    rw [hbackward hnone] at hopen
    exact ⟨(Except.ok.inj hopen).symm, hnone⟩
  · rintro ⟨rfl, hnone⟩
    exact hbackward hnone

/-- The store of the opened pool has the blocks that formatting has filled. -/
theorem mirrors_reopened {pool' : Pool κ crypto} (hpool : pool'.folder = folder')
    (hstore : pool'.store = plan.base) :
    Mirrors plan.base plan.base.totalBlocks.toNat pool' disk := by
  obtain ⟨htotal, hflushes, payloads, hholds, hblocks⟩ := h.mirrors
  refine ⟨htotal, hflushes, payloads, (hholds.reopen h.clean).congr hstore ?_, hblocks⟩
  intro slot _ mode key
  rw [hpool, h.same]
  rfl

end PlaintextDone

/-- Opening the folder gives back the superblock, and all data blocks but the one of the root directory are
free. -/
def Reopens (crypto : Crypto) (folder : κ) (sb : Superblock) : Prop :=
  ∃ store, openPlaintext folder = .ok (sb, store) ∧
    ∀ pool : Pool κ crypto, pool.folder = folder → pool.store = store →
      ∃ bitmap pool', exec (loadBitmap sb) pool = (.ok bitmap, pool') ∧
        bitmap.countFree = sb.totalBlocks.toNat - sb.dataStart.toNat - 1

/-- A plaintext pool that was formatted is opened again if and only if no image that was too small for a
block holds a framed chunk. -/
theorem openPlaintext_format_iff (hfolder : FramedFolder κ) (hexact : crypto.Exact)
    (h : formatWithAnchorOptions crypto random folder none requested force = (.ok r, folder')) :
    Reopens crypto folder' r.superblock ↔ ∀ path, ¬Leftover folder path := by
  obtain ⟨plan, usable, pool, disk, rfl, hdone⟩ := formatPlaintext_ok hfolder.toExactFolder hexact h
  constructor
  · rintro ⟨store, hopen, -⟩
    exact ((hdone.openPlaintext_iff hfolder).1 hopen).2
  · intro hnone
    refine ⟨plan.base, (hdone.openPlaintext_iff hfolder).2 ⟨rfl, hnone⟩, fun pool' hpool hstore => ?_⟩
    obtain ⟨-, -, -, -, -, hlt⟩ := layout_eq_ok hdone.laidOut.layout (UInt64.toNat_lt _)
    obtain ⟨pool'', hload, -⟩ := hdone.exec_loadBitmap hdone.laidOut.totalBlocks_base
      (hdone.mirrors_reopened hpool hstore)
    exact ⟨_, pool'', hload, countFree_freshBitmap hlt⟩

end Formatted

/-! ### A large and a small image -/

section Mixed

open ImageFolder

/-- A folder with an image of ten by five pixels and one of 300 by 300. -/
structure Mixed (folder : ImageFolder) : Prop where
  entries_eq : entries folder = ["a.png", "b.png"]
  small : HasPng 10 5 folder "a.png"
  large : HasPng 300 300 folder "b.png"

/-- The second image has room for eight blocks. -/
def mixedSuperblock : Superblock :=
  Superblock.standard 8 64 1 2 6 [{ name := "", chunkIndex := 0, blockStart := 0, blockCount := 8 }] false

/-- Formatting uses the second image only. -/
def mixedPlan : FormatPlan where
  superblock := mixedSuperblock
  anchor := none
  bootstrap := none
  keys := none
  paths := ["b.png"]

variable {folder : ImageFolder}

theorem Mixed.carrierPaths_eq (h : Mixed folder) : carrierPaths folder = ["a.png", "b.png"] := by
  rw [carrierPaths, h.entries_eq]
  have hentries : ["a.png", "b.png"].filter (fun name => (kindFor name).isSome) = ["a.png", "b.png"] := by
    decide
  rw [hentries]
  exact List.mergeSort_of_pairwise (by decide)

theorem Mixed.writeChunk (h : Mixed folder) (name : String) (mode : ChunkWrite) (payload key : List UInt8) :
    Mixed (CarrierFolder.writeChunk folder name mode payload key).2 where
  entries_eq := (ImageFolder.exact.entries_writeChunk _ _ _ _ _).trans h.entries_eq
  small := h.small.after_writeChunk _ _ _ _
  large := h.large.after_writeChunk _ _ _ _

theorem Mixed.planFormat_eq (h : Mixed folder) (crypto : Crypto) (random : Randomness) :
    planFormat crypto random folder none none true = .ok mixedPlan := by
  have husable : usableCarriers folder false none [] (carrierPaths folder) = .ok [("b.png", "", 8)] := by
    have hsmall : capacity folder "a.png" = .ok 2 := by
      rw [capacity, h.small.rawCapacity_eq]
      rfl
    have hlarge : capacity folder "b.png" = .ok 33734 := by
      rw [capacity, h.large.rawCapacity_eq]
      rfl
    rw [h.carrierPaths_eq]
    simp only [usableCarriers, hsmall, hlarge, Except.mapError, bind, Except.bind]
    rfl
  rw [planFormat, if_neg (by decide), if_neg (by rw [h.carrierPaths_eq]; decide)]
  simp only [bind, Except.bind, Bool.not_true, Bool.false_and, Bool.false_eq_true, if_false,
    Option.isSome_none, husable]
  rw [if_neg (List.cons_ne_nil _ _)]
  rfl

theorem accepts_mixed : Accepts Mixed mixedPlan.base where
  accepts := by
    intro folder slot mode key payload hP hslot hmode hlength
    obtain rfl := List.mem_singleton.1 hslot
    obtain ⟨rfl, rfl⟩ := Prod.mk.inj (Except.ok.inj hmode)
    refine hP.large.writeChunk_ok fun image hwidth hheight => ?_
    have hcapacity : PngCodec.rawCapacity image.width image.height = 33750 := by
      rw [hwidth, hheight]
      decide
    have hlength' : payload.length = 32768 := hlength
    refine ⟨?_, by omega, rfl⟩
    rw [CHUNK_HEADER_LEN]
    omega
  kept mode payload key _ hP := hP.writeChunk _ mode payload key

/-- Formatting a large and a small image succeeds. -/
theorem Mixed.exists_format (h : Mixed folder) (crypto : Crypto) (hexact : crypto.Exact)
    (htotal : crypto.Total) (random : Randomness) : ∃ folder',
      formatWithAnchorOptions crypto random folder none none true =
        (.ok { superblock := mixedSuperblock, anchor := none }, folder') := by
  have hlength : mixedPlan.superblock.encode.length ≤ UB := by
    rw [Superblock.length_encode]
    exact (by decide : 128 ≤ UB)
  have hplan := h.planFormat_eq crypto random
  obtain ⟨usable, hlaid⟩ := FormatPlan.laidOut ImageFolder.exact hplan hlength
  obtain ⟨pool, hformat, -⟩ := exists_exec_formatStore ImageFolder.exact hexact htotal hlaid hlength
    accepts_mixed h random
  exact ⟨pool.folder, format_of_plan hplan hformat rfl⟩

/-- The small image is black. -/
def mixedImages : ImageFolder where
  dir := "pool"
  names := ["a.png", "b.png"]
  nodup_names := twoImages.nodup_names
  carrier name :=
    if name = "a.png" then some (.png PngCodec.smallImage)
    else if name = "b.png" then some (.png largeImage) else none
  order := twoImages.order
  stores _ _ := none

theorem mixed_mixedImages : Mixed mixedImages where
  entries_eq := rfl
  small := ⟨PngCodec.smallImage, rfl, rfl, rfl⟩
  large := ⟨largeImage, rfl, rfl, rfl⟩

/-- The theorem on a folder in which nothing was left over. -/
theorem openPlaintext_format_mixedImages : ∃ r folder',
    formatWithAnchorOptions Crypto.identity zeroRandomness mixedImages none none true = (.ok r, folder') ∧
      (Reopens Crypto.identity folder' r.superblock ↔ ∀ path, ¬Leftover mixedImages path) := by
  obtain ⟨folder', h⟩ := mixed_mixedImages.exists_format Crypto.identity Crypto.identity_exact
    Crypto.identity_total zeroRandomness
  exact ⟨_, folder', h, openPlaintext_format_iff ImageFolder.framed Crypto.identity_exact h⟩

/-- A chunk of two bytes is written to the small image and left over. -/
theorem Mixed.leftover (h : Mixed folder) : Leftover (CarrierFolder.writeChunk folder "a.png"
    (.framed { chunkIndex := 0, flags := 1 }) [7, 7] []).2 "a.png" := by
  have hmixed := h.writeChunk "a.png" (.framed { chunkIndex := 0, flags := 1 }) [7, 7] []
  have hwritten : (CarrierFolder.writeChunk folder "a.png" (.framed { chunkIndex := 0, flags := 1 })
      [7, 7] []).1 = .ok () := by
    refine h.small.writeChunk_ok fun image hwidth hheight => ⟨?_, by decide, rfl⟩
    rw [hwidth, hheight]
    decide
  have hread := ImageFolder.exact.read_write (Prod.ext hwritten rfl)
  have hcapacity : capacity (CarrierFolder.writeChunk folder "a.png"
      (.framed { chunkIndex := 0, flags := 1 }) [7, 7] []).2 "a.png" = .ok 2 := by
    rw [capacity, hmixed.small.rawCapacity_eq]
    rfl
  refine ⟨?_, ⟨2, hcapacity, by decide⟩, _, _, hread⟩
  rw [hmixed.carrierPaths_eq]
  exact List.mem_cons_self

/-- The small image holds a primary chunk of two bytes. -/
def leftoverImages : ImageFolder :=
  (CarrierFolder.writeChunk mixedImages "a.png" (.framed { chunkIndex := 0, flags := 1 }) [7, 7] []).2

/-- Formatting succeeds where something was left over, and the pool cannot be opened. -/
theorem not_reopens_leftoverImages : ∃ r folder',
    formatWithAnchorOptions Crypto.identity zeroRandomness leftoverImages none none true =
      (.ok r, folder') ∧ ¬Reopens Crypto.identity folder' r.superblock := by
  have hmixed : Mixed leftoverImages := mixed_mixedImages.writeChunk _ _ _ _
  obtain ⟨folder', h⟩ := hmixed.exists_format Crypto.identity Crypto.identity_exact
    Crypto.identity_total zeroRandomness
  obtain ⟨plan, usable, pool, disk, hr, hdone⟩ :=
    formatPlaintext_ok ImageFolder.exact Crypto.identity_exact h
  refine ⟨_, folder', h, fun hreopens => ?_⟩
  obtain ⟨store, hopen, -⟩ := hreopens
  exact ((hdone.openPlaintext_iff ImageFolder.framed).1 hopen).2 _ mixed_mixedImages.leftover

end Mixed

end AlbumFS
