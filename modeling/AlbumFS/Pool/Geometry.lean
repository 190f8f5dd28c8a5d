import AlbumFS.Pool.Invariant
import AlbumFS.Fs.SuperblockCodec
import AlbumFS.Pool.Open

/-!
# The geometry of an opened pool

Opening checks that the block ranges of the manifest are contiguous and that each carrier has as many
bytes as its range. `SafeGeometry` is what the block store relies on: sizes do not overflow, every
block lies in the payload of its carrier, no call panics, and no two addresses share bytes.

## Main definitions

* `SafeGeometry`: what the block store relies on.
* `storedSuperblock`: the superblock in the primary carrier.

## Main results

* `validateManifestGeometry_ok`: the ranges that opening accepts.
* `openPlaintext_ok`: what opening a plaintext pool has checked.
* `openPlaintext_safe_iff`: when the geometry of an opened plaintext pool is safe.
-/

namespace AlbumFS

open CarrierFolder Prog

/-! ### The block ranges -/

section Ranges

variable {ranges : List CarrierRange} {range : CarrierRange} {next total : Nat} {sb : Superblock}

/-- The blocks of a range. -/
def CarrierRange.span (range : CarrierRange) : Nat × Nat :=
  (range.blockStart.toNat, range.blockCount.toNat)

/-- The ranges that the loop accepts are contiguous and not empty. -/
theorem validateRanges_ok (h : validateRanges next ranges = .ok total) (hnext : next < 2 ^ 64) :
    Tiles next (ranges.map CarrierRange.span) total ∧ total < 2 ^ 64 ∧
      ∀ range ∈ ranges, range.blockCount.toNat ≠ 0 := by
  induction ranges generalizing next with
  | nil =>
    obtain rfl := Except.ok.inj h
    exact ⟨Tiles.nil next, hnext, by simp⟩
  | cons range ranges ih =>
    rw [validateRanges] at h
    split at h
    · cases h
    · rename_i hrange
      push Not at hrange
      obtain ⟨hstart, hcount⟩ := hrange
      rw [checkedAdd] at h
      split_ifs at h with hadd
      · obtain ⟨htiles, htotal, hcounts⟩ := ih h hadd
        refine ⟨?_, htotal, ?_⟩
        · rw [List.map_cons, CarrierRange.span, hstart]
          exact Tiles.cons htiles
        · rw [List.forall_mem_cons]
          refine ⟨fun hzero => hcount ?_, hcounts⟩
          rw [← UInt64.toNat_inj, hzero]
          rfl

theorem validateManifestGeometry_ok (h : validateManifestGeometry sb = .ok ()) :
    Tiles 0 (sb.manifest.map CarrierRange.span) sb.totalBlocks.toNat ∧
      ∀ range ∈ sb.manifest, range.blockCount.toNat ≠ 0 := by
  rw [validateManifestGeometry] at h
  cases hranges : validateRanges 0 sb.manifest with
  | error e => simp [hranges, bind, Except.bind] at h
  | ok total =>
    simp only [hranges, bind, Except.bind] at h
    split_ifs at h with htotal
    obtain ⟨htiles, -, hcounts⟩ := validateRanges_ok hranges (by decide)
    exact ⟨not_not.1 htotal ▸ htiles, hcounts⟩

/-- Consecutive ranges reach as far as their lengths add up. -/
theorem Tiles.sum_eq {a b : Nat} {spans : List (Nat × Nat)} (h : Tiles a spans b) :
    a + (spans.map Prod.snd).sum = b := by
  induction h with
  | nil => rfl
  | cons _ ih =>
    rw [List.map_cons, List.sum_cons]
    omega

theorem toNat_sum (l : List UInt64) : l.sum.toNat = (l.map UInt64.toNat).sum % 2 ^ 64 := by
  induction l with
  | nil => rfl
  | cons x l ih =>
    rw [List.sum_cons, List.map_cons, List.sum_cons, UInt64.toNat_add, ih, Nat.add_mod_mod]

end Ranges

/-! ### The store of an accepted manifest -/

section Manifest

variable {paths : List (String × Bool)} {manifest : List CarrierRange} {keys : Option StoreKeys}
  {sb : Superblock} {slot : CarrierSlot} {i : Nat}

/-- The slots of a new store. -/
theorem getElem?_fromManifest : (BlockStore.fromManifest paths manifest keys).carriers[i]? = some slot ↔
    ∃ path isPrimary range, paths[i]? = some (path, isPrimary) ∧ manifest[i]? = some range ∧
      slot = { path, chunkIndex := range.chunkIndex, isPrimary, blockStart := range.blockStart,
               blockCount := range.blockCount, buffer := none, dirty := false } := by
  rw [BlockStore.fromManifest, BlockStore.ofCarriers]
  dsimp only
  rw [List.getElem?_map, Option.map_eq_some_iff]
  constructor
  · rintro ⟨⟨⟨path, isPrimary⟩, range⟩, hzip, rfl⟩
    rw [List.getElem?_zip_eq_some] at hzip
    exact ⟨path, isPrimary, range, hzip.1, hzip.2, rfl⟩
  · rintro ⟨path, isPrimary, range, hpath, hrange, rfl⟩
    exact ⟨((path, isPrimary), range), List.getElem?_zip_eq_some.2 ⟨hpath, hrange⟩, rfl⟩

theorem carriers_fromManifest_path (hlength : paths.length = manifest.length) :
    (BlockStore.fromManifest paths manifest keys).carriers.map CarrierSlot.path = paths.map Prod.fst := by
  rw [BlockStore.fromManifest, BlockStore.ofCarriers]
  dsimp only
  rw [List.map_map]
  conv_rhs => rw [← List.map_fst_zip (Nat.le_of_eq hlength), List.map_map]
  rfl

theorem carriers_fromManifest_span (hlength : paths.length = manifest.length) :
    (BlockStore.fromManifest paths manifest keys).carriers.map CarrierSlot.span =
      manifest.map CarrierRange.span := by
  rw [BlockStore.fromManifest, BlockStore.ofCarriers]
  dsimp only
  rw [List.map_map]
  conv_rhs => rw [← List.map_snd_zip (Nat.le_of_eq hlength.symm), List.map_map]
  rfl

/-- The number of blocks of the store is that of the superblock. -/
theorem totalBlocks_fromManifest (h : validateManifestGeometry sb = .ok ()) :
    (BlockStore.fromManifest paths sb.manifest keys).totalBlocks = sb.totalBlocks := by
  obtain ⟨htiles, -⟩ := validateManifestGeometry_ok h
  have hsum := htiles.sum_eq
  have hlt := sb.totalBlocks.toNat_lt
  rw [List.map_map, Nat.zero_add] at hsum
  rw [← UInt64.toNat_inj, BlockStore.fromManifest, BlockStore.ofCarriers]
  dsimp only
  rw [toNat_sum, List.map_map]
  change (List.map (Prod.snd ∘ CarrierRange.span) sb.manifest).sum % 2 ^ 64 = _
  rw [hsum, Nat.mod_eq_of_lt hlt]

/-- A store with distinct carriers for an accepted manifest. -/
theorem wellformed_fromManifest (h : validateManifestGeometry sb = .ok ())
    (hlength : paths.length = sb.manifest.length) (hdistinct : (paths.map Prod.fst).Nodup) :
    (BlockStore.fromManifest paths sb.manifest keys).Wellformed := by
  refine ⟨?_, ?_, fun hencrypted => ?_⟩
  · rw [BlockStore.Contiguous, carriers_fromManifest_span hlength, totalBlocks_fromManifest h]
    exact (validateManifestGeometry_ok h).1
  · rwa [carriers_fromManifest_path hlength]
  · rw [BlockStore.fromManifest, BlockStore.ofCarriers] at hencrypted ⊢
    dsimp only at hencrypted ⊢
    rw [Option.isSome_map, Option.isSome_map]
    exact ⟨hencrypted, hencrypted⟩

theorem fits_fromManifest (h : ∀ range ∈ manifest, range.blockCount.toNat * PB < 2 ^ 64) :
    (BlockStore.fromManifest paths manifest keys).Fits := by
  intro slot hslot
  obtain ⟨i, hi⟩ := List.getElem?_of_mem hslot
  obtain ⟨path, isPrimary, range, -, hrange, rfl⟩ := getElem?_fromManifest.1 hi
  exact h range (List.mem_of_getElem? hrange)

end Manifest

/-! ### Opening a plaintext pool -/

section Open

variable {κ : Type} [CarrierFolder κ] {folder : κ} {sb : Superblock} {store : BlockStore}

theorem mapM_ok {ε α β : Type} {f : α → Except ε β} {l : List α} {l' : List β}
    (h : l.mapM f = .ok l') : l'.length = l.length ∧
      ∀ (i : Nat) a, l[i]? = some a → ∃ b, l'[i]? = some b ∧ f a = .ok b := by
  induction l generalizing l' with
  | nil =>
    obtain rfl := Except.ok.inj h
    simp
  | cons a l ih =>
    rw [List.mapM_cons] at h
    cases ha : f a with
    | error e => simp [ha, bind, Except.bind] at h
    | ok b =>
      cases hl : l.mapM f with
      | error e => simp [ha, hl, bind, Except.bind] at h
      | ok rest =>
        simp only [ha, hl, bind, Except.bind] at h
        obtain rfl := Except.ok.inj h
        obtain ⟨hlength, hrest⟩ := ih hl
        refine ⟨by rw [List.length_cons, List.length_cons, hlength], fun i a' hi => ?_⟩
        cases i with
        | zero =>
          obtain rfl := Option.some.inj hi
          exact ⟨b, rfl, ha⟩
        | succ i => exact hrest i a' hi

theorem mapM_eq_ok {ε α β : Type} {f : α → Except ε β} {l : List α} {l' : List β}
    (hlength : l'.length = l.length)
    (h : ∀ (i : Nat) a b, l[i]? = some a → l'[i]? = some b → f a = .ok b) : l.mapM f = .ok l' := by
  induction l generalizing l' with
  | nil =>
    obtain rfl := List.length_eq_zero_iff.1 hlength
    rfl
  | cons a l ih =>
    obtain ⟨b, l', rfl⟩ := List.exists_cons_of_length_eq_add_one hlength
    have hrest := ih (Nat.succ.inj hlength) fun i a' b' ha hb => h (i + 1) a' b' ha hb
    rw [List.mapM_cons, h 0 a b rfl rfl, hrest]
    rfl

/-- The superblock in the primary carrier. -/
def storedSuperblock (folder : κ) : Option Superblock :=
  ((scan folder).find? fun carrier => carrier.2.1.flags &&& 1 != 0).bind fun carrier =>
    (readPhysicalBlock 0 (carrier.2.2.take PB)).toOption.bind fun blockZero =>
      (Superblock.decode blockZero.bytes).toOption

theorem mem_scan {path : String} {info : ChunkMeta} {payload : List UInt8} :
    (path, info, payload) ∈ scan folder ↔
      path ∈ carrierPaths folder ∧ readChunk folder path .framed [] = .ok (info, payload) := by
  rw [scan, List.mem_filterMap]
  constructor
  · rintro ⟨path', hpath, hread⟩
    cases hchunk : readChunk folder path' .framed [] with
    | error e => simp [hchunk] at hread
    | ok chunk =>
      simp only [hchunk, Option.some.injEq, Prod.mk.injEq] at hread
      obtain ⟨rfl, rfl, rfl⟩ := hread
      exact ⟨hpath, hchunk⟩
  · rintro ⟨hpath, hread⟩
    exact ⟨path, hpath, by rw [hread]⟩

theorem map_fst_scan_sublist (folder : κ) :
    ((scan folder).map Prod.fst).Sublist (carrierPaths folder) := by
  rw [scan]
  induction carrierPaths folder with
  | nil => exact List.Sublist.refl _
  | cons path paths ih =>
    rw [List.filterMap_cons]
    cases readChunk folder path .framed [] with
    | error e => exact ih.cons _
    | ok chunk => exact ih.cons_cons _

/-- The carrier that a range is opened on. -/
theorem openRange_ok {range : CarrierRange} {path : String} {isPrimary : Bool}
    (h : openRange folder (scan folder) range = .ok (path, isPrimary)) :
    ∃ info payload, (scan folder).find? (fun carrier =>
        decide (carrier.2.1.chunkIndex = range.chunkIndex)) = some (path, info, payload) ∧
      payload.length = range.blockCount.toNat * PB % 2 ^ 64 := by
  rw [openRange] at h
  split at h
  · cases h
  · rename_i path' info payload hfind
    dsimp only at h
    split_ifs at h with hlength
    cases hcapacity : capacity folder path' with
    | error e => simp [hcapacity, bind, Except.bind, Except.mapError] at h
    | ok available =>
      simp only [hcapacity, bind, Except.bind, Except.mapError] at h
      split_ifs at h
      obtain ⟨rfl, -⟩ := Prod.mk.inj (Except.ok.inj h)
      exact ⟨info, payload, hfind, not_not.1 hlength⟩

/-- What opening a plaintext pool has checked. -/
theorem openPlaintext_ok (h : openPlaintext folder = .ok (sb, store)) :
    storedSuperblock folder = some sb ∧ sb.encrypted = false ∧ validateManifestGeometry sb = .ok () ∧
      ∃ paths, store = .fromManifest paths sb.manifest none ∧ paths.length = sb.manifest.length ∧
        ∀ (i : Nat) range, sb.manifest[i]? = some range →
          ∃ carrier, paths[i]? = some carrier ∧ openRange folder (scan folder) range = .ok carrier := by
  rw [openPlaintext] at h
  rw [storedSuperblock]
  split at h
  · cases h
  · rename_i path info payload hfind
    rw [hfind, Option.bind_some]
    dsimp only at h ⊢
    split_ifs at h
    cases hblock : readPhysicalBlock 0 (payload.take PB) with
    | error e => simp [hblock, bind, Except.bind] at h
    | ok blockZero =>
      cases hdecode : Superblock.decode blockZero.bytes with
      | error e => simp [hblock, hdecode, bind, Except.bind] at h
      | ok decoded =>
        simp only [hblock, hdecode, bind, Except.bind] at h
        split_ifs at h with hencrypted hcount
        cases hpaths : decoded.manifest.mapM (openRange folder (scan folder)) with
        | error e => simp [hpaths] at h
        | ok paths =>
          simp only [hpaths] at h
          cases hvalid : validateManifestGeometry decoded with
          | error e => simp [hvalid] at h
          | ok =>
            simp only [hvalid] at h
            obtain ⟨rfl, rfl⟩ := Prod.mk.inj (Except.ok.inj h)
            obtain ⟨hlength, hrange⟩ := mapM_ok hpaths
            exact ⟨by simp [hdecode, Except.toOption], Bool.eq_false_iff.2 hencrypted, hvalid, paths, rfl,
              hlength, hrange⟩

end Open

/-! ### No call panics -/

section Panic

variable {κ : Type} [CarrierFolder κ] {crypto : Crypto} {pool : Pool κ crypto} {base : BlockStore}
  {slot slot' : CarrierSlot} {i lba : Nat} {payload : List UInt8}

/-- The program keeps the lengths and does not panic. -/
def Quiet {α : Type} (m : Prog Fault (Pool κ crypto) α) (pool : Pool κ crypto) (base : BlockStore) :
    Prop :=
  Ends m pool (fun _ pool' => Loaded pool' base) fun fault pool' => Loaded pool' base ∧ fault ≠ .panic

namespace Loaded

omit [CarrierFolder κ] in
/-- A new store has nothing in memory. -/
theorem fromManifest (pool : Pool κ crypto) (paths : List (String × Bool))
    (manifest : List CarrierRange) (keys : Option StoreKeys) :
    Loaded (pool.withStore (.fromManifest paths manifest keys)) (.fromManifest paths manifest keys) := by
  refine ⟨BlockStore.reopened_fromManifest paths manifest keys, fun i slot buffer hi hbuffer => ?_⟩
  obtain ⟨path, isPrimary, range, -, -, rfl⟩ := getElem?_fromManifest.1 hi
  cases hbuffer

omit [CarrierFolder κ] in
/-- The store in which formatting fills the blocks. -/
theorem newForFormat (pool : Pool κ crypto) (paths : List String) (manifest : List CarrierRange)
    (keys : Option StoreKeys) :
    Loaded (pool.withStore (.newForFormat paths manifest keys))
      (BlockStore.newForFormat paths manifest keys).reopened := by
  refine ⟨rfl, fun i slot buffer hi hbuffer => ?_⟩
  rw [Pool.withStore, BlockStore.newForFormat, BlockStore.ofCarriers] at hi
  dsimp only at hi
  rw [List.getElem?_map, Option.map_eq_some_iff] at hi
  obtain ⟨⟨path, range⟩, -, rfl⟩ := hi
  obtain rfl := Option.some.inj hbuffer
  exact List.length_replicate

theorem ends_ensureLoaded (h : Loaded pool base) (hi : pool.store.carriers[i]? = some slot) :
    Ends (Pool.ensureLoaded i) pool
      (fun _ pool' => Loaded pool' base ∧ ∃ slot', pool'.store.carriers[i]? = some slot' ∧
        slot'.unloaded = slot.unloaded ∧ slot'.buffer.isSome)
      (fun fault pool' => Loaded pool' base ∧ fault ≠ .panic) := by
  rw [Pool.ensureLoaded, ends_bind, Ends, exec_slotAt hi]
  dsimp only
  cases hbuffer : slot.buffer with
  | some buffer => exact ⟨h, slot, hi, rfl, by rw [hbuffer]; rfl⟩
  | none =>
    dsimp only
    rw [ends_bind, ends_gets, id, ends_bind, Pool.ofResult, ends_ofExcept]
    cases hfetch : pool.store.fetch pool.folder slot with
    | error e => exact ⟨by rintro _ ⟨⟩, by rintro _ ⟨⟩; exact ⟨h, by rintro ⟨⟩⟩⟩
    | ok payload =>
      refine ⟨?_, by rintro _ ⟨⟩⟩
      rintro _ ⟨⟩
      refine ⟨h.setSlot hi rfl ?_, _, getElem?_setSlot hi, rfl, rfl⟩
      rintro _ ⟨⟩
      exact fetch_length hfetch

/-- The slot of an address is loaded, and the block lies in its payload. -/
theorem quiet_slot {α : Type} (hfits : base.Fits) (h : Loaded pool base)
    {f : Nat → CarrierSlot → Prog Fault (Pool κ crypto) α}
    (hf : ∀ (pool' : Pool κ crypto) (i : Nat) slot buffer, Loaded pool' base →
      pool'.store.carriers[i]? = some slot → slot.buffer = some buffer →
      slot.offset lba + PB ≤ buffer.length → Quiet (f i slot) pool' base) :
    Quiet (do
      let i ← Pool.ofResult (pool.store.carrierFor lba)
      Pool.ensureLoaded i
      let slot ← Pool.slotAt i
      f i slot) pool base := by
  rw [Quiet, ends_bind, Pool.ofResult, ends_ofExcept]
  cases hfor : pool.store.carrierFor lba with
  | error e => exact ⟨by rintro _ ⟨⟩, by rintro _ ⟨⟩; exact ⟨h, by rintro ⟨⟩⟩⟩
  | ok i =>
    refine ⟨?_, by rintro _ ⟨⟩⟩
    rintro _ ⟨⟩
    obtain ⟨slot, hi⟩ := BlockStore.exists_of_carrierFor hfor
    refine (h.ends_ensureLoaded hi).bind (fun _ pool' hloaded => ?_) fun _ _ he => he
    obtain ⟨h', slot', hi', hslot, hbuffer⟩ := hloaded
    obtain ⟨buffer, hbuffer⟩ := Option.isSome_iff_exists.1 hbuffer
    rw [ends_bind, Ends, exec_slotAt hi']
    refine hf pool' i slot' buffer h' hi' hbuffer ?_
    have hbaseSlot : base.carriers[i]? = some slot'.unloaded := by
      rw [← h'.reopened, BlockStore.reopened]
      dsimp only
      rw [List.getElem?_map, hi', Option.map_some]
    have hfor' : base.carrierFor lba = .ok i := by
      rw [← h.reopened, BlockStore.carrierFor_reopened, hfor]
    rw [h'.length i slot' buffer hi' hbuffer]
    have hle := hfits.offset_le hbaseSlot (BlockStore.covers_of_carrierFor hfor' hbaseSlot).2
    exact hle

theorem quiet_readBlock (hfits : base.Fits) (h : Loaded pool base)
    (lba : Nat) : Quiet (Pool.readBlock lba) pool base := by
  rw [Quiet, Pool.readBlock, ends_bind, ends_gets, id]
  refine h.quiet_slot hfits fun pool' i slot buffer h' _ hbuffer hin => ?_
  rw [hbuffer]
  dsimp only
  rw [sliceChecked_eq (Nat.le_add_right _ _) hin]
  dsimp only
  rw [Quiet, Pool.ofResult, ends_ofExcept]
  refine ⟨fun _ _ => h', fun fault hfault => ⟨h', ?_⟩⟩
  rintro rfl
  revert hfault
  cases pool.store.decodeBlock crypto lba _ <;> simp [Except.mapError]

theorem quiet_writeBlock (hfits : base.Fits) (h : Loaded pool base)
    (lba : Nat) (payload : List UInt8) : Quiet (Pool.writeBlock lba payload) pool base := by
  rw [Quiet, Pool.writeBlock]
  split_ifs
  · exact ⟨h, by rintro ⟨⟩⟩
  rw [ends_bind, ends_gets, id]
  refine h.quiet_slot hfits fun pool' i slot buffer h' hi hbuffer hin => ?_
  obtain ⟨result, nonces, hencode, -, hresult⟩ := exec_encodeBlock pool' lba payload
  rw [Quiet, ends_bind, Ends, hencode]
  cases result with
  | error fault =>
    refine ⟨⟨h'.reopened, h'.length⟩, ?_⟩
    rintro rfl
    split_ifs at hresult
    · cases hcipher : pool'.store.cipher with
      | none => simp [hcipher] at hresult
      | some cipher =>
        cases hblock : cipher.encode crypto (pool'.nonces 0) lba payload <;>
          simp [hcipher, hblock, Except.mapError] at hresult
  | ok block =>
    rw [hbuffer]
    dsimp only
    rw [if_pos hin, ends_update]
    have hdrawn : Loaded ({ pool' with nonces } : Pool κ crypto) base := ⟨h'.reopened, h'.length⟩
    refine hdrawn.setSlot hi rfl ?_
    rintro _ ⟨⟩
    rw [length_overwrite, h'.length i slot buffer hi hbuffer]
    rfl

end Loaded

end Panic

/-! ### The opened store -/

/-- The bytes of a block: its carrier and where it starts in the payload. -/
def BlockStore.place (store : BlockStore) (lba : Nat) : Option (String × Nat) :=
  match store.carrierFor lba with
  | .error _ => none
  | .ok i => (store.carriers[i]?).map fun slot => (slot.path, slot.offset lba)

section Safe

variable {κ : Type} [CarrierFolder κ] {folder : κ} {sb : Superblock} {store : BlockStore}
  {slot : CarrierSlot} {i : Nat}

/-- What the block store relies on: the sizes of the ranges fit `u64`, the slot of every address exists
and its payload contains the block, no read or write of any run panics, and different addresses
share no bytes. -/
structure SafeGeometry (folder : κ) (sb : Superblock) (store : BlockStore) : Prop where
  mul_lt : ∀ range ∈ sb.manifest, range.blockCount.toNat * PB < 2 ^ 64
  add_lt : ∀ range ∈ sb.manifest, range.blockStart.toNat + range.blockCount.toNat < 2 ^ 64
  inside : ∀ lba < sb.totalBlocks.toNat, ∃ i slot payload, store.carrierFor lba = .ok i ∧
    store.carriers[i]? = some slot ∧ store.fetch folder slot = .ok payload ∧
    slot.blockStart.toNat ≤ lba ∧ (lba - slot.blockStart.toNat) * PB + PB ≤ payload.length
  quiet : ∀ (crypto : Crypto) (pool : Pool κ crypto), pool.folder = folder → pool.store = store →
    ∀ ops lba payload, (exec (Pool.readBlock lba) (afterOps pool ops)).1 ≠ .error .panic ∧
      (exec (Pool.writeBlock lba payload) (afterOps pool ops)).1 ≠ .error .panic
  disjoint : ∀ {lba lba' path off off'}, lba ≠ lba' → store.place lba = some (path, off) →
    store.place lba' = some (path, off') → off + PB ≤ off' ∨ off' + PB ≤ off

/-- The sizes fit and no chunk index occurs twice, as opening with an anchor checks it. -/
def SoundManifest (manifest : List CarrierRange) : Prop :=
  (∀ range ∈ manifest, range.blockCount.toNat * PB < 2 ^ 64) ∧
    (manifest.map CarrierRange.chunkIndex).Nodup

/-- Each slot of an opened store is on the first carrier with the chunk index of its range, which has
as many bytes as the slot. -/
theorem opened_slot (h : openPlaintext folder = .ok (sb, store)) (hi : store.carriers[i]? = some slot) :
    ∃ range info payload, sb.manifest[i]? = some range ∧ slot.span = range.span ∧
      (scan folder).find? (fun carrier => decide (carrier.2.1.chunkIndex = range.chunkIndex)) =
        some (slot.path, info, payload) ∧
      info.chunkIndex = range.chunkIndex ∧ Held folder store slot payload := by
  obtain ⟨-, -, -, paths, rfl, -, hopen⟩ := openPlaintext_ok h
  obtain ⟨path, isPrimary, range, hpath, hrange, rfl⟩ := getElem?_fromManifest.1 hi
  obtain ⟨carrier, hcarrier, hrangeOk⟩ := hopen i range hrange
  obtain rfl := Option.some.inj (hpath.symm.trans hcarrier)
  obtain ⟨info, payload, hfind, hlength⟩ := openRange_ok hrangeOk
  obtain ⟨hmem, hread⟩ := mem_scan.1 (List.mem_of_find?_eq_some hfind)
  have hindex : info.chunkIndex = range.chunkIndex := by
    simpa using List.find?_some hfind
  have hkind := (mem_carrierPaths.1 hmem).2
  refine ⟨range, info, payload, hrange, rfl, hfind, hindex, hkind, hlength, fun _ => ?_, Or.inr ⟨rfl, rfl⟩⟩
  have hnone : ¬(kindFor path).isNone = true := by
    rw [Option.isNone_iff_eq_none, ← Ne, ← Option.isSome_iff_ne_none]
    exact hkind
  rw [BlockStore.fetch, if_neg hnone]
  simp only [BlockStore.readMode, BlockStore.fromManifest, BlockStore.ofCarriers, Option.isSome_none,
    Bool.false_eq_true, if_false, bind, Except.bind, hread, Except.mapError]
  rw [if_neg (not_not.2 hindex)]
  exact if_neg (not_not.2 hlength)

theorem slot_of_range (h : openPlaintext folder = .ok (sb, store)) {range : CarrierRange}
    (hi : sb.manifest[i]? = some range) :
    ∃ slot, store.carriers[i]? = some slot ∧ slot.span = range.span := by
  obtain ⟨-, -, -, paths, rfl, -, hopen⟩ := openPlaintext_ok h
  obtain ⟨⟨path, isPrimary⟩, hcarrier, -⟩ := hopen i range hi
  exact ⟨_, getElem?_fromManifest.2 ⟨path, isPrimary, range, hcarrier, hi, rfl⟩, rfl⟩

/-- A pool with an opened store without repeated chunk indices can be used. -/
theorem opened_wellformed (h : openPlaintext folder = .ok (sb, store))
    (hnodup : (sb.manifest.map CarrierRange.chunkIndex).Nodup) : store.Wellformed := by
  obtain ⟨-, -, hvalid, paths, hstore, hlength, -⟩ := openPlaintext_ok h
  have hdistinct : (store.carriers.map CarrierSlot.path).Nodup := by
    rw [List.nodup_iff_getElem?_ne_getElem?]
    intro i j hij hj heq
    rw [List.length_map] at hj
    have hj' := List.getElem?_eq_getElem hj
    have hi' := List.getElem?_eq_getElem (Nat.lt_trans hij hj)
    rw [List.getElem?_map, List.getElem?_map, hi', hj', Option.map_some, Option.map_some,
      Option.some.injEq] at heq
    obtain ⟨range, info, payload, hrange, -, hfind, hindex, -⟩ := opened_slot h hi'
    obtain ⟨range', info', payload', hrange', -, hfind', hindex', -⟩ := opened_slot h hj'
    have hread := (mem_scan.1 (List.mem_of_find?_eq_some hfind)).2
    have hread' := (mem_scan.1 (List.mem_of_find?_eq_some hfind')).2
    rw [heq, hread', Except.ok.injEq, Prod.mk.injEq] at hread
    have hsame : range.chunkIndex = range'.chunkIndex := by rw [← hindex, ← hindex', hread.1]
    have := (List.getElem?_inj (by
      rw [List.length_map]
      exact (List.getElem?_eq_some_iff.1 hrange).1) hnodup).1 (show
        (sb.manifest.map CarrierRange.chunkIndex)[i]? = (sb.manifest.map CarrierRange.chunkIndex)[j]? by
      rw [List.getElem?_map, List.getElem?_map, hrange, hrange', Option.map_some, Option.map_some, hsame])
    omega
  subst hstore
  refine wellformed_fromManifest hvalid hlength ?_
  rwa [carriers_fromManifest_path hlength] at hdistinct

theorem opened_fits (h : openPlaintext folder = .ok (sb, store))
    (hmul : ∀ range ∈ sb.manifest, range.blockCount.toNat * PB < 2 ^ 64) : store.Fits := by
  obtain ⟨-, -, -, paths, rfl, -⟩ := openPlaintext_ok h
  exact fits_fromManifest hmul

end Safe

section Main

variable {κ : Type} [CarrierFolder κ] {folder : κ} {sb : Superblock} {store : BlockStore}

theorem opened_contiguous (h : openPlaintext folder = .ok (sb, store)) : store.Contiguous := by
  obtain ⟨-, -, hvalid, paths, rfl, hlength, -⟩ := openPlaintext_ok h
  rw [BlockStore.Contiguous, carriers_fromManifest_span hlength, totalBlocks_fromManifest hvalid]
  exact (validateManifestGeometry_ok hvalid).1

theorem opened_totalBlocks (h : openPlaintext folder = .ok (sb, store)) :
    store.totalBlocks = sb.totalBlocks := by
  obtain ⟨-, -, hvalid, paths, rfl, -⟩ := openPlaintext_ok h
  exact totalBlocks_fromManifest hvalid

/-- The place of the first block of a range. -/
theorem place_of_range (h : openPlaintext folder = .ok (sb, store)) {i : Nat} {range : CarrierRange}
    (hi : sb.manifest[i]? = some range) : ∃ path info payload,
      (scan folder).find? (fun carrier => decide (carrier.2.1.chunkIndex = range.chunkIndex)) =
        some (path, info, payload) ∧
      store.place range.blockStart.toNat = some (path, 0) := by
  obtain ⟨slot, hslot, hspan⟩ := slot_of_range h hi
  obtain ⟨range', info, payload, hi', -, hfind, -⟩ := opened_slot h hslot
  obtain rfl := Option.some.inj (hi.symm.trans hi')
  obtain ⟨-, -, hvalid, -⟩ := openPlaintext_ok h
  have hcount := (validateManifestGeometry_ok hvalid).2 range (List.mem_of_getElem? hi)
  have hstart : slot.blockStart.toNat = range.blockStart.toNat := congrArg Prod.fst hspan
  have hcount' : slot.blockCount.toNat = range.blockCount.toNat := congrArg Prod.snd hspan
  have hfor := (opened_contiguous h).carrierFor_of_mem hslot
    (show slot.blockStart.toNat ≤ range.blockStart.toNat ∧
      range.blockStart.toNat < slot.blockStart.toNat + slot.blockCount.toNat by omega)
  refine ⟨slot.path, info, payload, hfind, ?_⟩
  rw [BlockStore.place, hfor]
  dsimp only
  rw [hslot, Option.map_some, CarrierSlot.offset, hstart, Nat.sub_self, Nat.zero_mul, Nat.zero_mod]

/-- Two ranges with one chunk index are opened on the same bytes. -/
theorem nodup_of_disjoint (h : openPlaintext folder = .ok (sb, store))
    (hdisjoint : ∀ {lba lba' path off off'}, lba ≠ lba' → store.place lba = some (path, off) →
      store.place lba' = some (path, off') → off + PB ≤ off' ∨ off' + PB ≤ off) :
    (sb.manifest.map CarrierRange.chunkIndex).Nodup := by
  rw [List.nodup_iff_getElem?_ne_getElem?]
  intro i j hij hj heq
  rw [List.length_map] at hj
  have hj' := List.getElem?_eq_getElem hj
  have hi' := List.getElem?_eq_getElem (Nat.lt_trans hij hj)
  rw [List.getElem?_map, List.getElem?_map, hi', hj', Option.map_some, Option.map_some,
    Option.some.injEq] at heq
  obtain ⟨path, info, payload, hfind, hplace⟩ := place_of_range h hi'
  obtain ⟨path', info', payload', hfind', hplace'⟩ := place_of_range h hj'
  rw [heq, hfind', Option.some.injEq, Prod.mk.injEq] at hfind
  obtain ⟨rfl, -⟩ := hfind
  have hne : sb.manifest[i].blockStart.toNat ≠ sb.manifest[j].blockStart.toNat := by
    intro hsame
    obtain ⟨-, -, hvalid, -⟩ := openPlaintext_ok h
    obtain ⟨htiles, hcounts⟩ := validateManifestGeometry_ok hvalid
    have hcount := hcounts _ (List.getElem_mem (Nat.lt_trans hij hj))
    have hcount' := hcounts _ (List.getElem_mem hj)
    have := htiles.index_unique (by rw [List.getElem?_map, hi']; rfl) (by rw [List.getElem?_map, hj']; rfl)
      (show (CarrierRange.span _).1 ≤ sb.manifest[i].blockStart.toNat ∧ _ by
        rw [CarrierRange.span]; dsimp only; omega)
      (show (CarrierRange.span _).1 ≤ sb.manifest[i].blockStart.toNat ∧ _ by
        rw [CarrierRange.span]; dsimp only; omega)
    omega
  have := hdisjoint hne hplace hplace'
  have hpb : 0 < PB := by decide
  omega

/-- The slot of a place. -/
theorem place_eq_some (hcontiguous : store.Contiguous) {lba off : Nat} {path : String}
    (h : store.place lba = some (path, off)) : ∃ (i : Nat) (slot : CarrierSlot),
      store.carriers[i]? = some slot ∧ slot.path = path ∧ slot.offset lba = off ∧
      slot.blockStart.toNat ≤ lba ∧ lba < slot.blockStart.toNat + slot.blockCount.toNat := by
  rw [BlockStore.place] at h
  cases hfor : store.carrierFor lba with
  | error e => simp [hfor] at h
  | ok i =>
    have hlba : lba < store.totalBlocks.toNat := by
      by_contra hge
      rw [BlockStore.carrierFor_of_le (by omega)] at hfor
      cases hfor
    obtain ⟨j, slot, hfor', hj, hmem⟩ := hcontiguous.carrierFor_eq hlba
    obtain rfl := Except.ok.inj (hfor.symm.trans hfor')
    rw [hfor] at h
    dsimp only at h
    rw [hj, Option.map_some, Option.some.injEq, Prod.mk.injEq] at h
    exact ⟨i, slot, hj, h.1, h.2, hmem⟩

/-- Different addresses share no bytes. -/
theorem place_disjoint (hwell : store.Wellformed) (hfits : store.Fits) {lba lba' : Nat} {path : String}
    {off off' : Nat} (hne : lba ≠ lba') (hplace : store.place lba = some (path, off))
    (hplace' : store.place lba' = some (path, off')) : off + PB ≤ off' ∨ off' + PB ≤ off := by
  obtain ⟨i, slot, hi, hpath, rfl, hmem⟩ := place_eq_some hwell.contiguous hplace
  obtain ⟨j, slot', hj, hpath', rfl, hmem'⟩ := place_eq_some hwell.contiguous hplace'
  obtain rfl := hwell.path_inj hi hj (hpath.trans hpath'.symm)
  obtain rfl := Option.some.inj (hi.symm.trans hj)
  exact hfits.offset_disjoint hi hmem hmem' hne

/-- The geometry of an opened plaintext pool is safe exactly when the stored manifest has sizes that
fit `u64` and does not repeat a chunk index. -/
theorem openPlaintext_safe_iff (h : openPlaintext folder = .ok (sb, store)) :
    SafeGeometry folder sb store ↔
      ∃ stored, storedSuperblock folder = some stored ∧ SoundManifest stored.manifest := by
  obtain ⟨hstored, -, hvalid, -⟩ := openPlaintext_ok h
  constructor
  · exact fun hsafe => ⟨sb, hstored, hsafe.mul_lt, nodup_of_disjoint h hsafe.disjoint⟩
  · rintro ⟨stored, hstored', hmul, hnodup⟩
    obtain rfl := Option.some.inj (hstored.symm.trans hstored')
    have hwell := opened_wellformed h hnodup
    have hfits := opened_fits h hmul
    refine ⟨hmul, fun range hrange => ?_, fun lba hlba => ?_, ?_, fun hne => place_disjoint hwell hfits hne⟩
    · have hle := (validateManifestGeometry_ok hvalid).1.mem_le (List.mem_map_of_mem hrange)
      exact Nat.lt_of_le_of_lt hle.2 sb.totalBlocks.toNat_lt
    · rw [← opened_totalBlocks h] at hlba
      obtain ⟨i, slot, hfor, hi, hmem⟩ := hwell.contiguous.carrierFor_eq hlba
      obtain ⟨-, -, payload, -, -, -, -, hheld⟩ := opened_slot h hi
      obtain ⟨-, -, -, paths, hstore, -⟩ := openPlaintext_ok h
      have hclean : slot.dirty = false := by
        subst hstore
        obtain ⟨path, isPrimary, range, -, -, rfl⟩ := getElem?_fromManifest.1 hi
        rfl
      have hoffset := hfits.offset_eq hi hmem
      refine ⟨i, slot, payload, hfor, hi, hheld.clean hclean, hmem.1, ?_⟩
      rw [hheld.length, ← hoffset.1]
      exact hoffset.2
    · rintro crypto pool rfl rfl ops lba payload
      obtain ⟨-, -, -, paths, hstore, -⟩ := openPlaintext_ok h
      have hloaded : Loaded pool (.fromManifest paths sb.manifest none) := by
        have hnew := Loaded.fromManifest pool paths sb.manifest none
        rwa [← hstore] at hnew ⊢
      have hfits' := hstore ▸ hfits
      have hafter := (Loaded.storeInvariant _).afterOps ops hloaded
      constructor
      · intro hpanic
        exact ((hafter.quiet_readBlock hfits' lba).of_error
          (Prod.ext hpanic rfl : exec (Pool.readBlock lba) (afterOps pool ops) = (.error .panic, _))).2 rfl
      · intro hpanic
        exact ((hafter.quiet_writeBlock hfits' lba payload).of_error
          (Prod.ext hpanic rfl : exec (Pool.writeBlock lba payload) (afterOps pool ops) =
            (.error .panic, _))).2 rfl

end Main

/-! ### A pool of one image -/

section OneImage

variable {sb : Superblock} {range : CarrierRange}

/-- A folder whose only image holds a block with that superblock. -/
def storing (sb : Superblock) : ImageFolder := .holding (buildPhysicalBlock sb.encode)

theorem scan_storing (sb : Superblock) : scan (storing sb) =
    [("a.png", { chunkIndex := 0, flags := 1 }, buildPhysicalBlock sb.encode)] := by
  have hread := ImageFolder.readChunk_holding
    (show (buildPhysicalBlock sb.encode).length ≤ 6128 by rw [length_buildPhysicalBlock]; decide)
  have hentries : entries (storing sb) = ["a.png"] :=
    ImageFolder.exact.entries_writeChunk ImageFolder.blackFolder "a.png" _ _ _
  have hkind : kindFor "a.png" = some .png := by decide
  have hpaths : carrierPaths (storing sb) = ["a.png"] := by
    rw [carrierPaths, hentries, List.filter_cons, hkind]
    simp
  rw [scan, hpaths]
  simp [storing, hread]

/-- Opening succeeds whatever the superblock says about its regions. -/
theorem openPlaintext_storing (hencodable : sb.Encodable) (hlength : sb.encode.length ≤ UB)
    (hencrypted : sb.encrypted = false) (hmanifest : sb.manifest = [range])
    (hindex : range.chunkIndex = 0) (hcount : range.blockCount.toNat * PB % 2 ^ 64 = PB)
    (hvalid : validateManifestGeometry sb = .ok ()) : openPlaintext (storing sb) =
      .ok (sb, .fromManifest [("a.png", true)] sb.manifest none) := by
  have hblock : readPhysicalBlock 0 ((buildPhysicalBlock sb.encode).take PB) =
      .ok (Block.pad sb.encode) := by
    rw [List.take_of_length_le (Nat.le_of_eq (length_buildPhysicalBlock _)),
      readPhysicalBlock_build hlength]
  have hdecode : Superblock.decode (Block.pad sb.encode).bytes = .ok sb := by
    rw [Block.pad]
    dsimp only
    rw [List.take_of_length_le hlength]
    exact Superblock.decode_encode hencodable _
  have hcapacity : capacity (storing sb) "a.png" = .ok 6128 := by
    have hraw : rawCapacity (storing sb) "a.png" = rawCapacity ImageFolder.blackFolder "a.png" :=
      ImageFolder.exact.rawCapacity_writeChunk _ _ _ _ _ _
    rw [capacity, hraw]
    rfl
  have hrange : openRange (storing sb) (scan (storing sb)) range = .ok ("a.png", true) := by
    rw [scan_storing, openRange, hindex]
    simp only [List.find?_cons, decide_true]
    rw [length_buildPhysicalBlock, hcount, if_neg (fun hne => hne rfl), hcapacity]
    simp only [Except.mapError, bind, Except.bind]
    rw [if_neg (by decide)]
    rfl
  rw [openPlaintext, scan_storing]
  simp only [List.find?_cons]
  rw [show ((1 : UInt16) &&& 1 != 0) = true by decide]
  dsimp only
  rw [length_buildPhysicalBlock, if_neg (Nat.lt_irrefl _), hblock]
  simp only [bind, Except.bind, hdecode, hencrypted]
  rw [if_neg Bool.false_ne_true, hmanifest, if_neg (fun hne => hne rfl), ← scan_storing sb]
  simp only [List.mapM_cons, List.mapM_nil, hrange, bind, Except.bind, pure, Except.pure, hvalid]

/-- A superblock with one range of that many blocks. -/
def oneRange (blockCount : UInt64) : Superblock :=
  .standard blockCount 64 1 2 6 [{ name := "", chunkIndex := 0, blockStart := 0, blockCount }] false

theorem openPlaintext_oneRange {blockCount : UInt64} (hcount : blockCount.toNat * PB % 2 ^ 64 = PB)
    (hvalid : validateManifestGeometry (oneRange blockCount) = .ok ()) :
    openPlaintext (storing (oneRange blockCount)) = .ok (oneRange blockCount,
      .fromManifest [("a.png", true)] (oneRange blockCount).manifest none) := by
  refine openPlaintext_storing ⟨Or.inr (Or.inl rfl), ?_, fun h => absurd rfl h, fun h => absurd rfl h,
    ?_⟩ ?_ ?_ rfl rfl hcount hvalid
  · intro c hc
    obtain rfl := List.mem_singleton.1 hc
    rfl
  · rw [show (oneRange blockCount).manifest.length = 1 from rfl]
    decide
  · rw [Superblock.length_encode]
    exact (by decide : 128 ≤ UB)
  · exact (by decide : ((0 : UInt32) &&& CRYPTO_FLAG_ENCRYPTED != 0) = false)

end OneImage

theorem openPlaintext_safe_oneBlock : SafeGeometry (storing (oneRange 1)) (oneRange 1)
    (.fromManifest [("a.png", true)] (oneRange 1).manifest none) := by
  have hopen := openPlaintext_oneRange (show (1 : UInt64).toNat * PB % 2 ^ 64 = PB by decide) rfl
  refine (openPlaintext_safe_iff hopen).2
    ⟨oneRange 1, (openPlaintext_ok hopen).1, fun range hrange => ?_, List.nodup_singleton _⟩
  obtain rfl := List.mem_singleton.1 hrange
  decide

/-- Opening accepts a range whose number of bytes is that of one block modulo `2 ^ 64`. -/
theorem not_safe_wrapped :
    openPlaintext (storing (oneRange (2 ^ 52 + 1))) = .ok (oneRange (2 ^ 52 + 1),
      .fromManifest [("a.png", true)] (oneRange (2 ^ 52 + 1)).manifest none) ∧
    ¬SafeGeometry (storing (oneRange (2 ^ 52 + 1))) (oneRange (2 ^ 52 + 1))
      (.fromManifest [("a.png", true)] (oneRange (2 ^ 52 + 1)).manifest none) :=
  ⟨openPlaintext_oneRange (by decide) rfl,
    fun hsafe => absurd (hsafe.mul_lt _ (List.mem_singleton_self _)) (by decide)⟩

end AlbumFS
