import AlbumFS.Ops.Fresh
import AlbumFS.Pool.Layout
import AlbumFS.Pool.Mirrors
import Mathlib.Order.Interval.Finset.Nat

/-!
# Formatting and opening a markerless pool

Formatting a pool does to its blocks what formatting a disk does, and what is known about a formatted disk
holds of the pool that is opened again.

## Main definitions

* `FormatDone`: what formatting leaves behind.

## Main results

* `format_ok`: formatting that succeeds leaves a formatted disk behind.
* `openWithAnchor_format`: a markerless pool can be opened, read and loaded after formatting.
-/

namespace AlbumFS

open CarrierFolder Prog

variable {κ : Type} [CarrierFolder κ] {crypto : Crypto}

/-! ### What formatting leaves behind -/

/-- In a plaintext pool, formatting stores the superblock in one block. -/
theorem length_encode_of_formatStore {σ : Type} [BlockDevice σ] {sb : Superblock} {s s' : σ}
    (h : exec (formatStore sb) s = (.ok (), s')) (hencrypted : sb.encrypted = false) :
    sb.encode.length ≤ UB := by
  rw [formatStore] at h
  obtain ⟨_, t, -, h⟩ := exec_bind_ok h
  obtain ⟨_, u, hencode, -⟩ := exec_bind_ok h
  rw [hencrypted, if_neg Bool.false_ne_true] at hencode
  by_contra hlength
  rw [if_pos (Nat.not_le.1 hlength)] at hencode
  cases hencode

theorem encrypted_layout {totalBlocks : Nat} {manifest : List CarrierRange} {encrypted : Bool}
    {sb : Superblock} (h : layout totalBlocks manifest encrypted = .ok sb) :
    sb.encrypted = encrypted ∧ (encrypted = true → sb.markerlessEncrypted = true) ∧
      (encrypted = false → sb.version = 2) ∧ (encrypted = true → sb.version = MARKERLESS_FS_VERSION) ∧
      (encrypted = true → sb.salt = Vector.replicate 16 0 ∧ sb.argon2MemKib = 0 ∧
        sb.argon2Iters = 0 ∧ sb.argon2Parallel = 0) := by
  unfold layout at h
  obtain ⟨-, h⟩ := except_ite_ok h
  cases encrypted with
  | false =>
    obtain rfl := Except.ok.inj h
    refine ⟨?_, by rintro ⟨⟩, fun _ => rfl, by rintro ⟨⟩, by rintro ⟨⟩⟩
    exact (by decide : ((0 : UInt32) &&& CRYPTO_FLAG_ENCRYPTED != 0) = false)
  | true =>
    obtain rfl := Except.ok.inj h
    refine ⟨?_, fun _ => ?_, by rintro ⟨⟩, fun _ => rfl, fun _ => ⟨rfl, rfl, rfl, rfl⟩⟩
    · exact (by decide : (CRYPTO_FLAG_ENCRYPTED &&& CRYPTO_FLAG_ENCRYPTED != 0) = true)
    · exact (by decide : (MARKERLESS_FS_VERSION == MARKERLESS_FS_VERSION &&
        (CRYPTO_FLAG_ENCRYPTED &&& CRYPTO_FLAG_ENCRYPTED != 0)) = true)

/-- The pool and the folder that a format leaves behind. -/
structure FormatDone (random : Randomness) (folder folder' : κ) (encrypted : Bool) (plan : FormatPlan)
    (usable : List (String × String × Nat)) (pool : Pool κ crypto) (disk : Disk) : Prop where
  exec_eq : exec (formatStore plan.superblock) (plan.pool crypto random folder) = (.ok (), pool)
  laidOut : plan.LaidOut folder encrypted usable
  mirrors : Mirrors plan.base plan.base.totalBlocks.toNat pool disk
  clean : ∀ j, Clean pool j
  blocks : FormattedBlocks plan.superblock disk.blocks
  kept : KeptFolder plan.paths folder pool.folder
  folder_eq : plan.anchor = none ∧ folder' = pool.folder ∨
    ∃ anchor bootstrap, plan.anchor = some anchor ∧ plan.bootstrap = some bootstrap ∧
      writePrefix pool.folder anchor bootstrap = (.ok (), folder')

section Done

variable {random : Randomness} {folder folder' : κ} {encrypted : Bool} {plan : FormatPlan}
  {usable : List (String × String × Nat)} {pool : Pool κ crypto} {disk : Disk}

/-- A format keeps the names and the capacities of the folder. -/
theorem FormatDone.entries_eq (hfolder : ExactFolder κ)
    (h : FormatDone random folder folder' encrypted plan usable pool disk) :
    entries folder' = entries folder := by
  rcases h.folder_eq with ⟨-, rfl⟩ | ⟨anchor, bootstrap, -, -, hwrite⟩
  · exact h.kept.entries_eq
  · have hkept := hfolder.entries_writePrefix pool.folder anchor bootstrap
    rw [hwrite] at hkept
    exact hkept.trans h.kept.entries_eq

theorem FormatDone.rawCapacity_eq (hfolder : ExactFolder κ)
    (h : FormatDone random folder folder' encrypted plan usable pool disk) (name : String) :
    rawCapacity folder' name = rawCapacity folder name := by
  rcases h.folder_eq with ⟨-, rfl⟩ | ⟨anchor, bootstrap, -, -, hwrite⟩
  · exact h.kept.rawCapacity_eq name
  · have hkept := hfolder.rawCapacity_writePrefix pool.folder anchor name bootstrap
    rw [hwrite] at hkept
    exact hkept.trans (h.kept.rawCapacity_eq name)

end Done

/-- The disk that a new pool follows. -/
def FormatPlan.disk (plan : FormatPlan) : Disk where
  blocks _ := Block.zero
  total := plan.base.totalBlocks.toNat
  flushes _ := none
  clock _ := 0

theorem FormatPlan.LaidOut.mirrors_disk {folder : κ} {plan : FormatPlan} {encrypted : Bool}
    {usable : List (String × String × Nat)} (h : plan.LaidOut folder encrypted usable)
    (random : Randomness) : Mirrors plan.base 0 (plan.pool crypto random folder) plan.disk := by
  obtain ⟨payloads, hholds⟩ : ∃ payloads, Holds (plan.pool crypto random folder) plan.base payloads :=
    h.exists_holds
  exact ⟨rfl, fun _ => rfl, payloads, hholds, fun lba hlba => absurd hlba (Nat.not_lt_zero _)⟩

theorem format_ok (hfolder : ExactFolder κ) (hexact : crypto.Exact) {random : Randomness}
    {folder folder' : κ} {passphrase requested : Option String} {force : Bool} {r : FormatResult}
    (h : formatWithAnchorOptions crypto random folder passphrase requested force = (.ok r, folder')) :
    ∃ (plan : FormatPlan) (usable : _) (pool : Pool κ crypto) (disk : Disk),
      planFormat crypto random folder passphrase requested force = .ok plan ∧
      r = { superblock := plan.superblock, anchor := plan.anchor } ∧
      FormatDone random folder folder' passphrase.isSome plan usable pool disk := by
  rw [formatWithAnchorOptions] at h
  cases hplan : planFormat crypto random folder passphrase requested force with
  | error e =>
    rw [hplan] at h
    cases h
  | ok plan =>
    rw [hplan] at h
    dsimp only at h
    rcases hexec : exec (formatStore plan.superblock) (plan.pool crypto random folder) with ⟨_ | ⟨⟩, pool⟩
    · rw [hexec] at h
      cases h
    rw [hexec] at h
    dsimp only at h
    obtain ⟨usable', -, -, hlayout, -, hsecrets⟩ := planFormat_ok hplan
    have hflag := (encrypted_layout hlayout).1
    have hlength : plan.superblock.encode.length ≤ UB := by
      cases passphrase with
      | none => exact length_encode_of_formatStore hexec hflag
      | some passphrase =>
        obtain ⟨anchor, bootstrap, keys, -, -, -, -, hcreate⟩ := hsecrets
        exact (openBootstrap_create hexact hcreate).1
    obtain ⟨usable, hlaid⟩ := FormatPlan.laidOut hfolder hplan hlength
    have htotal : plan.superblock.totalBlocks.toNat = plan.base.totalBlocks.toNat := by
      rw [hlaid.totalBlocks_base]
    obtain ⟨disk', hdisk, hmirrors, hclean⟩ := (followDevices_mirrors hfolder.toExactChunks hexact
      hlaid.wellformed_base (hlaid.fits_base hfolder)).formatStore htotal _ _
        (hlaid.mirrors_disk random) _ _ hexec
    have hblocks := ((ends_formatStore hlaid.layout (UInt64.toNat_lt _)
      (show plan.disk.total = _ from htotal.symm)).of_ok hdisk).2
    have hkept : KeptFolder plan.paths folder pool.folder := by
      have hinvariant : StoreInvariant fun pool : Pool κ crypto => Loaded pool plan.base ∧
          KeptFolder (plan.base.carriers.map CarrierSlot.path) folder pool.folder :=
        KeptFolder.storeInvariant hfolder plan.base folder
      have hstate := (hinvariant.linkedDevices.formatStore plan.superblock
        (plan.pool crypto random folder) _
        ⟨rfl, plan.loaded_pool random folder, KeptFolder.refl _ folder⟩).2.2.2.2
      rw [hexec, hlaid.paths_base] at hstate
      exact hstate
    refine ⟨plan, usable, pool, disk', rfl, ?_⟩
    cases passphrase with
    | none =>
      obtain ⟨hanchor, hbootstrap, -⟩ := hsecrets
      rw [hanchor] at h
      obtain ⟨hr, rfl⟩ := Prod.mk.inj h
      exact ⟨hanchor ▸ (Except.ok.inj hr).symm, hexec, hlaid, hmirrors, hclean, hblocks, hkept,
        Or.inl ⟨hanchor, rfl⟩⟩
    | some passphrase =>
      obtain ⟨anchor, bootstrap, keys, hanchor, hbootstrap, -⟩ := hsecrets
      rw [hanchor, hbootstrap] at h
      dsimp only at h
      obtain ⟨hr, hfolder'⟩ := Prod.mk.inj h
      rcases hwrite : writePrefix pool.folder anchor bootstrap with ⟨_ | ⟨⟩, written⟩
      · rw [hwrite] at hr
        cases hr
      · rw [hwrite] at hr hfolder'
        obtain rfl : written = folder' := hfolder'
        exact ⟨hanchor ▸ (Except.ok.inj hr).symm, hexec, hlaid, hmirrors, hclean, hblocks, hkept,
          Or.inr ⟨anchor, bootstrap, hanchor, hbootstrap, hwrite⟩⟩

/-- Formatting fills the blocks of carriers that accept their payloads. -/
theorem exists_exec_formatStore (hfolder : ExactFolder κ) (hexact : crypto.Exact) (htotal : crypto.Total)
    {P : κ → Prop} {folder : κ} {plan : FormatPlan} {encrypted : Bool}
    {usable : List (String × String × Nat)} (hlaid : plan.LaidOut folder encrypted usable)
    (hlength : plan.superblock.encode.length ≤ UB) (haccepts : Accepts P plan.base) (hP : P folder)
    (random : Randomness) : ∃ pool,
      exec (formatStore plan.superblock) (plan.pool crypto random folder) = (.ok (), pool) ∧
        P pool.folder := by
  have hblocks : plan.superblock.totalBlocks.toNat = plan.base.totalBlocks.toNat := by
    rw [hlaid.totalBlocks_base]
  have hends := ends_formatStore hlaid.layout (UInt64.toNat_lt _)
    (show plan.disk.total = _ from hblocks.symm)
  rcases hdisk : exec (formatStore plan.superblock) plan.disk with ⟨e | ⟨⟩, disk⟩
  · rcases hends.of_error hdisk with ⟨-, hgt⟩ | hflush
    · exact absurd hlength (Nat.not_le.2 hgt)
    · exact absurd rfl hflush
  · exact (followDevices_accepts hfolder.toExactChunks hexact htotal haccepts hlaid.wellformed_base
      (hlaid.fits_base hfolder)).formatStore hblocks plan.disk _ ⟨hlaid.mirrors_disk random, hP⟩ () disk
        hdisk

/-- The data blocks but the one of the root directory are free. -/
theorem countFree_freshBitmap {sb : Superblock} (h : sb.dataStart.toNat < sb.totalBlocks.toNat) :
    (freshBitmap sb).countFree = sb.totalBlocks.toNat - sb.dataStart.toNat - 1 := by
  have hisSet := isSet_metadataBitmap (Nat.le_of_lt h)
  have hfree : (metadataBitmap sb.totalBlocks.toNat sb.dataStart.toNat).isSet sb.dataStart.toNat =
      false := by
    rw [← Bool.not_eq_true, hisSet]
    exact Nat.lt_irrefl _
  have hset := Bitmap.countFree_set
    (show sb.dataStart.toNat < (metadataBitmap sb.totalBlocks.toNat sb.dataStart.toNat).totalBlocks by
      rwa [totalBlocks_metadataBitmap]) hfree
  have hcount : (metadataBitmap sb.totalBlocks.toNat sb.dataStart.toNat).countFree =
      sb.totalBlocks.toNat - sb.dataStart.toNat := by
    rw [Bitmap.countFree_eq_card, totalBlocks_metadataBitmap]
    have hfilter : (Finset.range sb.totalBlocks.toNat).filter (fun b =>
        (metadataBitmap sb.totalBlocks.toNat sb.dataStart.toNat).isSet b = false) =
          Finset.Ico sb.dataStart.toNat sb.totalBlocks.toNat := by
      ext b
      rw [Finset.mem_filter, Finset.mem_range, Finset.mem_Ico, ← Bool.not_eq_true, hisSet, Nat.not_lt,
        and_comm]
    rw [hfilter, Nat.card_Ico]
  rw [freshBitmap]
  omega

/-! ### Opening again -/

section Reopen

variable {base : BlockStore} {payloads : Nat → List UInt8} {pool : Pool κ crypto}

/-- Slots are fetched in the same way in a folder in which their carriers read the same. -/
theorem Holds.congr (h : Holds pool base payloads) {pool' : Pool κ crypto}
    (hstore : pool'.store = pool.store) (hread : ∀ slot ∈ pool.store.carriers, ∀ mode key,
      readChunk pool'.folder slot.path mode key = readChunk pool.folder slot.path mode key) :
    Holds pool' base payloads := by
  refine ⟨hstore ▸ h.reopened, fun i slot hi => ?_⟩
  rw [hstore] at hi
  have hheld := h.held i slot hi
  refine ⟨hheld.kind, hheld.length, fun hclean => ?_, hheld.buffer⟩
  rw [← hheld.clean hclean]
  exact fetch_congr (hread slot (List.mem_of_getElem? hi))

/-- The store without the marks of its primary carriers. -/
def BlockStore.unmarked (store : BlockStore) : BlockStore :=
  { store with carriers := store.carriers.map fun slot => { slot with isPrimary := false } }

theorem unmarked_fromManifest (paths : List (String × Bool)) (manifest : List CarrierRange)
    (keys : Option StoreKeys) : (BlockStore.fromManifest paths manifest keys).unmarked =
      .fromManifest (paths.map fun path => (path.1, false)) manifest keys := by
  have hzip : ∀ (paths : List (String × Bool)) (manifest : List CarrierRange),
      (paths.map fun path => (path.1, false)).zip manifest =
        (paths.zip manifest).map fun entry => ((entry.1.1, false), entry.2) := by
    intro paths
    induction paths with
    | nil => intro manifest; rfl
    | cons path paths ih =>
      intro manifest
      cases manifest with
      | nil => rfl
      | cons range manifest => exact congrArg (_ :: ·) (ih manifest)
  simp only [BlockStore.unmarked, BlockStore.fromManifest, BlockStore.ofCarriers, hzip, List.map_map]
  rfl

/-- Reading does not depend on the marks. -/
theorem readFrom_unmarked (base : BlockStore) (payloads : Nat → List UInt8) :
    readFrom crypto base.unmarked payloads = readFrom crypto base payloads := by
  ext1 lba
  have hfor : base.unmarked.carrierFor lba = base.carrierFor lba := by
    simp only [BlockStore.carrierFor, BlockStore.unmarked, List.findIdx?_map]
    rfl
  rw [readFrom, readFrom, hfor]
  cases base.carrierFor lba with
  | error e => rfl
  | ok i =>
    simp only [BlockStore.unmarked, List.getElem?_map]
    cases base.carriers[i]? with
    | none => rfl
    | some slot => rfl

/-- A new store without marks has the same payloads. -/
theorem Holds.unmarked (h : Holds pool base payloads) (hclean : ∀ j, Clean pool j) :
    Holds (pool.withStore base.unmarked) base.unmarked payloads := by
  have hreopened := h.reopen hclean
  refine ⟨?_, fun i slot hi => ?_⟩
  · have hbase : base.reopened = base := hreopened.reopened
    change base.unmarked.reopened = base.unmarked
    conv_rhs => rw [← hbase]
    simp only [BlockStore.unmarked, BlockStore.reopened, List.map_map]
    rfl
  · change base.unmarked.carriers[i]? = some slot at hi
    rw [BlockStore.unmarked] at hi
    dsimp only at hi
    rw [List.getElem?_map, Option.map_eq_some_iff] at hi
    obtain ⟨slot', hi', rfl⟩ := hi
    have hheld := hreopened.held i slot' hi'
    exact ⟨hheld.kind, hheld.length, hheld.clean, hheld.buffer⟩

end Reopen

/-! ### Opening what was formatted -/

section Anchor

variable {folder : κ} {paths : List String} {anchor path : String} {requested : Option String}
  {largest : Option (String × Nat)} {available : Nat}

theorem largestCarrier_ok (h : largestCarrier folder largest paths = .ok (some (path, available))) :
    largest = some (path, available) ∨ path ∈ paths := by
  induction paths generalizing largest with
  | nil => exact Or.inl (Except.ok.inj h)
  | cons first paths ih =>
    rw [largestCarrier] at h
    obtain ⟨room, -, h⟩ := except_bind_ok h
    rcases ih h with hlargest | hmem
    · split_ifs at hlargest
      · obtain ⟨rfl, -⟩ := Prod.mk.inj (Option.some.inj hlargest)
        exact Or.inr List.mem_cons_self
      · exact Or.inl hlargest
    · exact Or.inr (List.mem_cons_of_mem _ hmem)

/-- The anchor is a carrier with room for the bootstrap prefix. -/
theorem selectAnchor_ok (h : selectAnchor folder paths requested = .ok anchor) :
    anchor ∈ paths ∧ ∃ available, rawCapacity folder anchor = .ok available ∧ BOOTSTRAP_LEN ≤ available := by
  rw [selectAnchor.eq_def] at h
  obtain ⟨path, hpath, h⟩ := except_bind_ok h
  obtain ⟨available, hroom, h⟩ := except_bind_ok h
  obtain ⟨hle, h⟩ := except_ite_ok h
  obtain rfl := Except.ok.inj h
  refine ⟨?_, available, except_mapError_ok hroom, Nat.not_lt.1 hle⟩
  cases requested with
  | some requested =>
    obtain ⟨canonical, -, hpath⟩ := except_bind_ok hpath
    cases hfind : paths.find? fun path => decide ((canonicalize folder path).toOption = some canonical) with
    | none => simp [hfind] at hpath
    | some found =>
      rw [hfind] at hpath
      obtain rfl := Except.ok.inj hpath
      exact List.mem_of_find?_eq_some hfind
  | none =>
    obtain ⟨largest, hlargest, hpath⟩ := except_bind_ok hpath
    cases largest with
    | none => cases hpath
    | some carrier =>
      obtain rfl := Except.ok.inj hpath
      exact (largestCarrier_ok hlargest).resolve_left (by rintro ⟨⟩)

/-- A carrier with room for the bootstrap prefix is selected by its own name. -/
theorem selectAnchor_entry (hfolder : ExactFolder κ) (hmem : anchor ∈ carrierPaths folder)
    (hroom : rawCapacity folder anchor = .ok available) (hle : BOOTSTRAP_LEN ≤ available) :
    selectAnchor folder (carrierPaths folder) (some anchor) = .ok anchor := by
  have hentry : ∀ path ∈ carrierPaths folder, canonicalize folder path = .ok path := fun path hpath =>
    hfolder.canonicalize_entry (mem_carrierPaths.1 hpath).1
  have hfind : (carrierPaths folder).find?
      (fun path => decide ((canonicalize folder path).toOption = some anchor)) = some anchor := by
    rw [List.find?_eq_some_iff_append]
    refine ⟨by rw [hentry anchor hmem]; exact decide_eq_true rfl, ?_⟩
    obtain ⟨before, after, hsplit⟩ := List.append_of_mem hmem
    refine ⟨before, after, hsplit, fun path hpath => ?_⟩
    have hpath' : path ∈ carrierPaths folder := hsplit ▸ List.mem_append_left _ hpath
    have hnodup := nodup_carrierPaths (hfolder.nodup_entries folder)
    rw [hsplit, List.nodup_append] at hnodup
    have hne : path ≠ anchor := hnodup.2.2 path hpath anchor List.mem_cons_self
    rw [hentry path hpath']
    simp [Except.toOption, hne]
  rw [selectAnchor]
  simp only [hentry anchor hmem, Except.mapError, bind, Except.bind, hfind, hroom]
  rw [if_neg (Nat.not_lt.2 hle)]

end Anchor

section Markerless

variable {folder folder' : κ} {plan : FormatPlan} {usable : List (String × String × Nat)}

namespace FormatPlan.LaidOut

/-- The carriers of a markerless pool have their paths as names. -/
theorem map_name (h : plan.LaidOut folder true usable) :
    plan.superblock.manifest.map CarrierRange.name = plan.paths := by
  rw [h.manifest, h.paths, map_name_buildManifest]
  exact List.map_congr_left fun carrier hmem => (h.carriers carrier hmem).name

theorem encodable (h : plan.LaidOut folder true usable) : plan.superblock.Encodable := by
  obtain ⟨-, -, -, hversion, hclear⟩ := encrypted_layout h.layout
  obtain ⟨hsalt, hargon2⟩ := hclear rfl
  refine ⟨Or.inr (Or.inr (hversion rfl)), fun range hrange => ?_, fun _ => hsalt, fun _ => hargon2, ?_⟩
  · rw [if_pos (hversion rfl)]
    rw [h.manifest] at hrange
    obtain ⟨carrier, hmem, hname, -⟩ := mem_buildManifest hrange
    have hcarrier := h.carriers carrier hmem
    rw [hname, hcarrier.name]
    exact hcarrier.valid rfl
  · have hle := h.length_le
    rw [h.manifest, length_buildManifest]
    omega

/-- Opening accepts every range in a folder with the same carriers. -/
theorem dataRange (hfolder : ExactFolder κ) (h : plan.LaidOut folder true usable) {anchor : String}
    (hanchor : plan.anchor = some anchor) (hmem : anchor ∈ carrierPaths folder)
    (hentries : entries folder' = entries folder)
    (hroom : ∀ name, rawCapacity folder' name = rawCapacity folder name) :
    ∀ range ∈ plan.superblock.manifest, DataRange folder' anchor range := by
  intro range hrange
  have hmul := h.mul_lt hfolder range hrange
  rw [h.manifest] at hrange
  obtain ⟨carrier, hcarrier, hname, hcount⟩ := mem_buildManifest hrange
  have husable := h.carriers carrier hcarrier
  have hname' : range.name = carrier.1 := hname.trans husable.name
  have hlisted := mem_carrierPaths.1 (h.listed.mem (List.mem_map_of_mem hcarrier))
  have hcanonical : ∀ {name}, name ∈ entries folder → canonicalize folder' name = .ok name := by
    intro name hname
    exact hfolder.canonicalize_entry (hentries ▸ hname)
  refine ⟨hname' ▸ husable.valid rfl, ⟨_, _, hcanonical (hname' ▸ hlisted.1),
    hcanonical (mem_carrierPaths.1 hmem).1, fun heq => ?_⟩, hname' ▸ hlisted.2, hmul, ?_⟩
  · exact husable.not_anchor (by rw [hanchor, ← heq, hname'])
  · obtain ⟨available, havailable, hdiv⟩ := husable.room
    refine ⟨available, by rw [hroom, hname']; exact havailable, ?_⟩
    rw [hcount, hdiv, UInt64.toNat_ofNat_of_lt']
    · exact Nat.div_mul_le_self _ _
    · have hlt := room_lt hfolder.rawCapacity_lt havailable
      rw [UInt64.size]
      exact Nat.lt_of_le_of_lt (Nat.div_le_self _ _) hlt

/-- The store of an opened markerless pool is the store of the plan, without marks. -/
theorem unmarked_base (h : plan.LaidOut folder true usable) : plan.base.unmarked =
    .fromManifest (plan.superblock.manifest.map fun range => (range.name, false))
      plan.superblock.manifest plan.keys := by
  have hfirst : (plan.paths.zip (plan.superblock.manifest.map fun range => range.chunkIndex == 0)).map
      (fun path => (path.1, false)) = plan.superblock.manifest.map fun range => (range.name, false) := by
    have hnames := congrArg (List.map fun name => (name, false)) (h.fst_zip.trans h.map_name.symm)
    rw [List.map_map, List.map_map] at hnames
    exact hnames
  rw [FormatPlan.base, unmarked_fromManifest, hfirst]

end FormatPlan.LaidOut

end Markerless

section RoundTrip

variable {random : Randomness} {folder folder' : κ} {passphrase : String} {requested : Option String}
  {force : Bool} {r : FormatResult}

/-- What a format leaves in the blocks can be read, and the bitmap loaded, from a new store. -/
theorem FormatDone.mirrors_reopened {encrypted : Bool} {plan : FormatPlan}
    {usable : List (String × String × Nat)} {formatted pool : Pool κ crypto} {disk : Disk}
    (hdone : FormatDone random folder folder' encrypted plan usable formatted disk)
    (hstore : pool.store = plan.base.unmarked)
    (hread : ∀ path ∈ plan.paths, ∀ mode key,
      readChunk pool.folder path mode key = readChunk formatted.folder path mode key) :
    Mirrors plan.base.unmarked plan.base.unmarked.totalBlocks.toNat pool disk := by
  obtain ⟨htotal, hflushes, payloads, hholds, hblocks⟩ := hdone.mirrors
  refine ⟨htotal, hflushes, payloads, (hholds.unmarked hdone.clean).congr hstore ?_, fun lba hlba => ?_⟩
  · intro slot hslot
    refine hread slot.path ?_
    rw [← hdone.laidOut.paths_base]
    change slot ∈ plan.base.carriers.map _ at hslot
    obtain ⟨slot', hslot', rfl⟩ := List.mem_map.1 hslot
    exact List.mem_map.2 ⟨slot', hslot', rfl⟩
  · rw [readFrom_unmarked]
    exact hblocks lba hlba

/-- The bitmap of a formatted pool can be loaded. -/
theorem FormatDone.exec_loadBitmap {encrypted : Bool} {plan : FormatPlan}
    {usable : List (String × String × Nat)} {formatted pool : Pool κ crypto} {disk : Disk}
    (hdone : FormatDone random folder folder' encrypted plan usable formatted disk) {base : BlockStore}
    (htotal : base.totalBlocks = plan.superblock.totalBlocks)
    (hmirrors : Mirrors base base.totalBlocks.toNat pool disk) :
    ∃ pool', exec (loadBitmap plan.superblock) pool = (.ok (freshBitmap plan.superblock), pool') ∧
      Mirrors base base.totalBlocks.toNat pool' disk := by
  obtain ⟨hresult, -, hmirrors'⟩ := linkedReads_mirrors.loadBitmap plan.superblock pool disk hmirrors
  have hdisk : disk.total = plan.superblock.totalBlocks.toNat := htotal ▸ hmirrors.total
  have hends := hdone.blocks.ends_loadBitmap hdone.laidOut.layout (UInt64.toNat_lt _) hdisk
  rcases hload : exec (loadBitmap plan.superblock) disk with ⟨_ | bitmap, disk'⟩
  · exact (hends.of_error hload).elim
  · obtain ⟨rfl, rfl⟩ := hends.of_ok hload
    rw [hload] at hresult hmirrors'
    exact ⟨_, Prod.ext hresult rfl, hmirrors'⟩

/-- Opening with the anchor and the passphrase gives back the superblock and a store with the blocks that
formatting has filled. -/
theorem FormatDone.openWithAnchor_eq (hfolder : ExactFolder κ) (hexact : crypto.Exact) {plan : FormatPlan}
    {usable : List (String × String × Nat)} {formatted : Pool κ crypto} {disk : Disk}
    (hplan : planFormat crypto random folder (some passphrase) requested force = .ok plan)
    (hdone : FormatDone random folder folder' true plan usable formatted disk) :
    ∃ anchor, plan.anchor = some anchor ∧
      openWithAnchor crypto folder' anchor passphrase = .ok (plan.superblock, plan.base.unmarked) ∧
      ∀ pool : Pool κ crypto, pool.folder = folder' → pool.store = plan.base.unmarked →
        Mirrors plan.base.unmarked plan.base.unmarked.totalBlocks.toNat pool disk := by
  obtain ⟨-, -, -, -, -, anchor, bootstrap, keys, hanchor, hbootstrap, hkeys, hselect, hcreate⟩ :=
    planFormat_ok hplan
  have hlaid : plan.LaidOut folder true usable := hdone.laidOut
  have hwrite : writePrefix formatted.folder anchor bootstrap = (.ok (), folder') := by
    rcases hdone.folder_eq with ⟨hnone, -⟩ | ⟨anchor', bootstrap', hanchor', hbootstrap', hwrite⟩
    · rw [hanchor] at hnone
      cases hnone
    · obtain rfl := Option.some.inj (hanchor.symm.trans hanchor')
      obtain rfl := Option.some.inj (hbootstrap.symm.trans hbootstrap')
      exact hwrite
  obtain ⟨hlength, hbootLength, hopen⟩ := openBootstrap_create hexact hcreate
  obtain ⟨hmem, available, hroom, hle⟩ := selectAnchor_ok hselect
  -- the folder has kept its carriers and their capacities
  have hentries := hdone.entries_eq hfolder
  have hcapacity := hdone.rawCapacity_eq hfolder
  have hpaths : carrierPaths folder' = carrierPaths folder := by
    rw [carrierPaths, hentries, carrierPaths]
  refine ⟨anchor, hanchor, openWithAnchor_iff.2 ⟨anchor, bootstrap, Block.pad plan.superblock.encode, keys,
    ?_, ?_, hopen, ?_, (encrypted_layout hlaid.layout).2.1 rfl, ?_,
    hlaid.dataRange hfolder hanchor hmem hentries hcapacity, hlaid.valid, ?_⟩, fun pool hpool hstore => ?_⟩
  · exact selectAnchor_entry hfolder (hpaths ▸ hmem) (by rw [hcapacity]; exact hroom) hle
  · rw [← hbootLength]
    exact hfolder.readPrefix_writePrefix hwrite
  · rw [Block.pad]
    dsimp only
    rw [List.take_of_length_le hlength]
    exact Superblock.decode_encode hlaid.encodable _
  · rw [hlaid.map_name, hlaid.paths]
    exact hlaid.distinct
  · rw [hlaid.unmarked_base, hkeys]
  · refine hdone.mirrors_reopened hstore fun path hpath mode key => ?_
    have hne : path ≠ anchor := by
      rintro rfl
      rw [hlaid.paths] at hpath
      obtain ⟨carrier, hcarrier, rfl⟩ := List.mem_map.1 hpath
      exact (hlaid.carriers carrier hcarrier).not_anchor hanchor
    have hother := hfolder.readChunk_writePrefix formatted.folder bootstrap hne mode key
    rw [hwrite] at hother
    rw [hpool]
    exact hother

/-- A markerless pool that was formatted can be opened with the anchor and the passphrase. Opening returns
the same superblock, every block can be read, and all data blocks but the one of the root directory are
free. -/
theorem openWithAnchor_format (hfolder : ExactFolder κ) (hexact : crypto.Exact)
    (h : formatWithAnchorOptions crypto random folder (some passphrase) requested force =
      (.ok r, folder')) :
    ∃ anchor store, r.anchor = some anchor ∧
      openWithAnchor crypto folder' anchor passphrase = .ok (r.superblock, store) ∧
      ∀ pool : Pool κ crypto, pool.folder = folder' → pool.store = store →
        (∀ lba, lba < r.superblock.totalBlocks.toNat → ∃ block, readResult pool lba = .ok block) ∧
        ∃ bitmap pool', exec (loadBitmap r.superblock) pool = (.ok bitmap, pool') ∧
          bitmap.countFree = r.superblock.totalBlocks.toNat - r.superblock.dataStart.toNat - 1 := by
  obtain ⟨plan, usable, formatted, disk, hplan, rfl, hdone⟩ := format_ok hfolder hexact h
  obtain ⟨anchor, hanchor, hopen, hmirrors⟩ := hdone.openWithAnchor_eq hfolder hexact hplan
  have hlaid : plan.LaidOut folder true usable := hdone.laidOut
  refine ⟨anchor, plan.base.unmarked, hanchor, hopen, fun pool hpool hstore => ?_⟩
  replace hmirrors := hmirrors pool hpool hstore
  have htotal : plan.base.unmarked.totalBlocks = plan.superblock.totalBlocks := hlaid.totalBlocks_base
  obtain ⟨-, -, -, -, -, hlt⟩ := layout_eq_ok hlaid.layout (UInt64.toNat_lt _)
  constructor
  · intro lba hlba
    obtain ⟨payloads, hholds, hblocks⟩ := hmirrors.blocks
    exact ⟨disk.blocks lba, by rw [readResult_eq hholds, hblocks lba (htotal ▸ hlba)]⟩
  · obtain ⟨pool', hload, -⟩ := hdone.exec_loadBitmap htotal hmirrors
    exact ⟨_, pool', hload, countFree_freshBitmap hlt⟩

end RoundTrip

/-! ### A pool of one carrier and its anchor -/

section TwoImages

open ImageFolder

variable (crypto) (random : Randomness)

/-- Random bytes that are all zero. -/
def zeroRandomness : Randomness where
  salt := Vector.replicate 16 0
  bootNonce := Vector.replicate 24 0
  nonces _ := Vector.replicate 24 0

/-- The second image has room for eight blocks. -/
def twoImagesSuperblock : Superblock :=
  Superblock.markerless 8 64 1 2 6
    [{ name := "b.png", chunkIndex := 0, blockStart := 0, blockCount := 8 }]

theorem length_twoImagesSuperblock : twoImagesSuperblock.encode.length ≤ UB := by
  rw [Superblock.length_encode]
  exact (by decide : 107 ≤ UB)

theorem planFormat_twoImages (htotal : crypto.Total)
    (hpassword : ∀ salt, (crypto.hashPassword (utf8 "secret") salt).isSome) :
    ∃ plan, planFormat crypto random twoImages (some "secret") (some "a.png") true = .ok plan ∧
      plan.superblock = twoImagesSuperblock ∧ plan.paths = ["b.png"] := by
  have hselect : selectAnchor twoImages (carrierPaths twoImages) (some "a.png") = .ok "a.png" :=
    selectAnchor_entry ImageFolder.exact (by rw [carrierPaths_twoImages]; exact List.mem_cons_self)
      (show rawCapacity twoImages "a.png" = .ok 33750 from rfl) (by decide)
  have husable : usableCarriers twoImages true (some "a.png") [] (carrierPaths twoImages) =
      .ok [("b.png", "b.png", 8)] := by
    rw [carrierPaths_twoImages]
    rfl
  have hlayout : layout (totalBlocksOf [("b.png", "b.png", 8)])
      (buildManifest 0 0 [("b.png", "b.png", 8)]) true = .ok twoImagesSuperblock := rfl
  obtain ⟨master, hmaster⟩ := Option.isSome_iff_exists.1 (hpassword random.salt.toList)
  obtain ⟨bootstrap, keys, hcreate⟩ : ∃ bootstrap keys, createBootstrap crypto random.salt
      random.bootNonce "secret" twoImagesSuperblock.encode = .ok (bootstrap, keys) := by
    rw [createBootstrap, if_neg (Nat.not_lt.2 length_twoImagesSuperblock), deriveKeys, hmaster]
    simp only [bind, Except.bind]
    cases hencrypt : crypto.encrypt (crypto.deriveKey "albumfs boot v1" master) random.bootNonce.toList
        BOOT_AAD (Block.pad twoImagesSuperblock.encode) with
    | none =>
      have hsome := htotal (crypto.deriveKey "albumfs boot v1" master) random.bootNonce.toList BOOT_AAD
        (Block.pad twoImagesSuperblock.encode)
      rw [hencrypt] at hsome
      cases hsome
    | some sealed => exact ⟨_, _, rfl⟩
  refine ⟨{ superblock := twoImagesSuperblock, anchor := some "a.png", bootstrap := some bootstrap,
            keys := some keys, paths := ["b.png"] }, ?_, rfl, rfl⟩
  rw [planFormat, if_neg (by decide), if_neg (by rw [carrierPaths_twoImages]; decide)]
  simp only [hselect, Except.map, bind, Except.bind, Bool.not_true, Bool.false_and, Bool.false_eq_true,
    if_false, Option.isSome_some, husable, hlayout, hcreate]
  rw [if_neg (List.cons_ne_nil _ _)]
  rfl

/-- Two images of the size that formatting has found. -/
def TwoPngs (folder : ImageFolder) : Prop :=
  HasPng 300 300 folder "a.png" ∧ HasPng 300 300 folder "b.png"

theorem accepts_twoImages {plan : FormatPlan} (hpaths : plan.paths = ["b.png"])
    (hmanifest : plan.superblock = twoImagesSuperblock) : Accepts TwoPngs plan.base where
  accepts := by
    intro folder slot mode key payload hP hslot hmode hlength
    rw [FormatPlan.base, hpaths, hmanifest] at hslot
    obtain rfl := List.mem_singleton.1 hslot
    refine hP.2.writeChunk_ok fun image hwidth hheight => ?_
    have hcapacity : PngCodec.rawCapacity image.width image.height = 33750 := by
      rw [hwidth, hheight]
      decide
    have hlength' : payload.length = 32768 := hlength
    rw [BlockStore.writeMode] at hmode
    by_cases hencrypted : plan.base.encrypted = true
    · rw [if_pos hencrypted] at hmode
      cases horder : plan.base.orderKey with
      | none => simp [horder] at hmode
      | some order =>
        simp only [horder, Except.ok.injEq, Prod.mk.injEq] at hmode
        obtain ⟨rfl, rfl⟩ := hmode
        exact ⟨by omega, order.length_toList⟩
    · rw [if_neg hencrypted] at hmode
      obtain ⟨rfl, rfl⟩ := Prod.mk.inj (Except.ok.inj hmode)
      refine ⟨?_, by omega, rfl⟩
      rw [CHUNK_HEADER_LEN]
      omega
  kept mode payload key _ hP :=
    ⟨hP.1.after_writeChunk _ mode payload key, hP.2.after_writeChunk _ mode payload key⟩

/-- Formatting the folder with two images succeeds. -/
theorem exists_format_twoImages (hexact : crypto.Exact) (htotal : crypto.Total)
    (hpassword : ∀ salt, (crypto.hashPassword (utf8 "secret") salt).isSome) :
    ∃ r folder', formatWithAnchorOptions crypto random twoImages (some "secret") (some "a.png") true =
      (.ok r, folder') ∧ r.superblock = twoImagesSuperblock := by
  obtain ⟨plan, hplan, hsuperblock, hpaths⟩ := planFormat_twoImages crypto random htotal hpassword
  obtain ⟨-, -, -, -, -, anchor, bootstrap, keys, hanchor, hbootstrap, -, hselect, hcreate⟩ :=
    planFormat_ok hplan
  obtain ⟨hlength, hbootLength, -⟩ := openBootstrap_create hexact hcreate
  obtain ⟨usable, hlaid⟩ := FormatPlan.laidOut ImageFolder.exact hplan hlength
  obtain ⟨pool, hformat, hpngs⟩ := exists_exec_formatStore ImageFolder.exact hexact htotal hlaid hlength
    (accepts_twoImages hpaths hsuperblock)
    (show TwoPngs twoImages from ⟨hasPng_twoImages (Or.inl rfl), hasPng_twoImages (Or.inr rfl)⟩) random
  have hanchor' : anchor = "a.png" ∨ anchor = "b.png" := by
    have hmem := (selectAnchor_ok hselect).1
    rw [carrierPaths_twoImages] at hmem
    simpa using hmem
  have hpng : HasPng 300 300 pool.folder anchor := by
    rcases hanchor' with rfl | rfl
    · exact hpngs.1
    · exact hpngs.2
  have hwrite : (writePrefix pool.folder anchor bootstrap).1 = .ok () :=
    hpng.writePrefix_ok (by rw [hbootLength]; decide)
  refine ⟨{ superblock := plan.superblock, anchor := plan.anchor },
    (writePrefix pool.folder anchor bootstrap).2, ?_, hsuperblock⟩
  rw [formatWithAnchorOptions, hplan]
  dsimp only
  rw [hformat, hanchor, hbootstrap]
  dsimp only
  rw [hwrite]
  rfl

/-- The folder with two images is formatted and opened again. -/
theorem openWithAnchor_format_twoImages : ∃ r folder', formatWithAnchorOptions Crypto.identity
      zeroRandomness twoImages (some "secret") (some "a.png") true = (.ok r, folder') ∧
    ∃ anchor store, r.anchor = some anchor ∧
      openWithAnchor Crypto.identity folder' anchor "secret" = .ok (r.superblock, store) ∧
      ∀ pool : Pool ImageFolder Crypto.identity, pool.folder = folder' → pool.store = store →
        (∀ lba, lba < r.superblock.totalBlocks.toNat → ∃ block, readResult pool lba = .ok block) ∧
        ∃ bitmap pool', exec (loadBitmap r.superblock) pool = (.ok bitmap, pool') ∧
          bitmap.countFree = r.superblock.totalBlocks.toNat - r.superblock.dataStart.toNat - 1 := by
  obtain ⟨r, folder', h, -⟩ := exists_format_twoImages Crypto.identity zeroRandomness
    Crypto.identity_exact Crypto.identity_total fun _ => rfl
  exact ⟨r, folder', h, openWithAnchor_format ImageFolder.exact Crypto.identity_exact h⟩

end TwoImages

end AlbumFS
