import AlbumFS.Pool.RoundTrip
import Mathlib.Data.List.Find

/-!
# Folders with further images

A folder may hold images besides the carriers of its pool. A pool is opened in the folder with further
images as it is without them, and its blocks read the same.

## Main definitions

* `Decoys`: a folder and the same folder with further entries.
* `NamesSuperblock`: the superblock that an anchor leads to.
* `SameOpening`: openings that cannot be told apart.

## Main results

* `Decoys.carrierPaths_eq`: the carriers of the smaller folder, in their order.
* `Decoys.openPlaintext_eq`, `Decoys.openWithAnchor_eq`: opening returns the same.
* `Decoys.sameOpening`: so does reading what was opened.
-/

namespace AlbumFS

open CarrierFolder Prog

variable {κ : Type} [CarrierFolder κ] {crypto : Crypto}

/-- The path leads to one of the named entries. -/
def LeadsTo (names : List String) (folder : κ) (path : String) : Prop :=
  ∃ name ∈ names, canonicalize folder path = canonicalize folder name

/-- A folder, and the folder with further entries. None of them is an entry of the first, or a carrier
of it under another name, and what does not lead to them is as it was. -/
structure Decoys (names : List String) (folder folder' : κ) : Prop where
  dir_eq : dir folder' = dir folder
  entries_perm : (entries folder').Perm (entries folder ++ names)
  further : ∀ name ∈ names, name ∉ entries folder
  not_leadsTo : ∀ name, name ∈ entries folder ∨ Superblock.validateName name = .ok () →
    name ∉ names → ¬LeadsTo names folder' name
  canonicalize_eq : ∀ path, ¬LeadsTo names folder' path →
    canonicalize folder' path = canonicalize folder path
  rawCapacity_eq : ∀ name, name ∉ names → rawCapacity folder' name = rawCapacity folder name
  readChunk_eq : ∀ name, name ∉ names → ∀ mode key,
    readChunk folder' name mode key = readChunk folder name mode key
  readPrefix_eq : ∀ name, name ∉ names → ∀ length,
    readPrefix folder' name length = readPrefix folder name length

/-- The anchor and the passphrase lead to the superblock. -/
def NamesSuperblock (crypto : Crypto) (folder : κ) (anchor passphrase : String) (sb : Superblock) :
    Prop :=
  ∃ path bootstrap plaintext keys,
    selectAnchor folder (carrierPaths folder) (some anchor) = .ok path ∧
    readPrefix folder path BOOTSTRAP_LEN = .ok bootstrap ∧
    openBootstrap crypto passphrase bootstrap = .ok (plaintext, keys) ∧
    Superblock.decode plaintext.bytes = .ok sb

/-- A pool that can be opened by its anchor has one superblock. -/
theorem NamesSuperblock.eq_of_open {folder : κ} {anchor passphrase : String} {sb sb' : Superblock}
    {store : BlockStore} (h : NamesSuperblock crypto folder anchor passphrase sb')
    (hopened : openWithAnchor crypto folder anchor passphrase = .ok (sb, store)) : sb' = sb := by
  obtain ⟨path, bootstrap, plaintext, keys, hselect, hread, hopen, hdecode⟩ := h
  obtain ⟨path', bootstrap', plaintext', keys', hselect', hread', hopen', hdecode', -⟩ :=
    openWithAnchor_iff.1 hopened
  obtain rfl := Except.ok.inj (hselect.symm.trans hselect')
  obtain rfl := Except.ok.inj (hread.symm.trans hread')
  obtain ⟨rfl, -⟩ := Prod.mk.inj (Except.ok.inj (hopen.symm.trans hopen'))
  exact Except.ok.inj (hdecode.symm.trans hdecode')

/-! ### Reading in another folder -/

section Reads

variable {folder folder' : κ} {pool : Pool κ crypto} {base : BlockStore}

/-- The pool in another folder. -/
def Pool.inFolder (pool : Pool κ crypto) (folder : κ) : Pool κ crypto := { pool with folder }

/-- The carriers of the store read the same in both folders. -/
def SameCarriers (base : BlockStore) (folder folder' : κ) : Prop :=
  ∀ path ∈ base.carriers.map CarrierSlot.path, ∀ mode key,
    readChunk folder' path mode key = readChunk folder path mode key

omit [CarrierFolder κ] in
theorem exec_slotAt_inFolder (i : Nat) : exec (Pool.slotAt i) (pool.inFolder folder') =
    ((exec (Pool.slotAt i) pool).1, ((exec (Pool.slotAt i) pool).2).inFolder folder') := by
  simp only [Pool.slotAt, exec_bind, exec_gets, id, Pool.inFolder]
  cases pool.store.carriers[i]? <;> rfl

theorem exec_ensureLoaded_inFolder (hsame : SameCarriers base pool.folder folder')
    (h : Loaded pool base) (i : Nat) : exec (Pool.ensureLoaded i) (pool.inFolder folder') =
      ((exec (Pool.ensureLoaded i) pool).1,
        ((exec (Pool.ensureLoaded i) pool).2).inFolder folder') := by
  rw [Pool.ensureLoaded, exec_bind, exec_bind, exec_slotAt_inFolder]
  rcases hslot : exec (Pool.slotAt i) pool with ⟨fault | slot, pool'⟩
  · rfl
  obtain ⟨rfl, hi⟩ := (ends_slotAt i pool).of_ok hslot
  dsimp only
  cases slot.buffer with
  | some buffer => rfl
  | none =>
    have hfetch : pool'.store.fetch folder' slot = pool'.store.fetch pool'.folder slot :=
      fetch_congr (hsame slot.path (h.mem_paths hi))
    simp only [exec_bind, exec_gets, id, Pool.inFolder, hfetch, Pool.ofResult, exec_ofExcept]
    cases pool'.store.fetch pool'.folder slot <;> rfl

/-- A block reads the same in a folder with the same carriers. -/
theorem exec_readBlock_inFolder (hsame : SameCarriers base pool.folder folder')
    (h : Loaded pool base) (lba : Nat) : exec (Pool.readBlock lba) (pool.inFolder folder') =
      ((exec (Pool.readBlock lba) pool).1, ((exec (Pool.readBlock lba) pool).2).inFolder folder') := by
  have hstore : (pool.inFolder folder').store = pool.store := rfl
  simp only [Pool.readBlock, exec_bind, exec_gets, id, hstore, Pool.ofResult, exec_ofExcept]
  cases pool.store.carrierFor lba with
  | error e => rfl
  | ok i =>
    simp only [Except.mapError, exec_ensureLoaded_inFolder hsame h]
    rcases exec (Pool.ensureLoaded i) pool with ⟨fault | ⟨⟩, pool'⟩
    · rfl
    simp only [exec_slotAt_inFolder]
    rcases exec (Pool.slotAt i) pool' with ⟨fault | slot, pool''⟩
    · rfl
    dsimp only
    cases slot.buffer with
    | none => rfl
    | some buffer =>
      dsimp only
      cases sliceChecked buffer (slot.offset lba) (slot.offset lba + PB) <;> rfl

/-- Reading blocks leaves the folder alone. -/
theorem loaded_readBlock (h : Loaded pool base) (lba : Nat) :
    Loaded (exec (Pool.readBlock lba) pool).2 base ∧
      (exec (Pool.readBlock lba) pool).2.folder = pool.folder := by
  have hinvariant : MemoryInvariant fun pool' : Pool κ crypto =>
      Loaded pool' base ∧ pool'.folder = pool.folder :=
    { length := fun h hi hbuffer => h.1.length _ _ _ hi hbuffer
      setSlot := fun h hi hslot _ _ hlength => ⟨h.1.setSlot hi hslot hlength, h.2⟩
      draw := fun h => ⟨⟨h.1.reopened, h.1.length⟩, h.2⟩
      tick := fun _ h => ⟨⟨h.1.reopened, h.1.length⟩, h.2⟩ }
  exact (hinvariant.readBlock lba ⟨h, rfl⟩).state

/-- So does every sequence of reads. -/
theorem afterOps_reads_inFolder (hsame : SameCarriers base pool.folder folder')
    (h : Loaded pool base) (lbas : List Nat) :
    afterOps (pool.inFolder folder') (lbas.map .read) =
        (afterOps pool (lbas.map .read)).inFolder folder' ∧
      Loaded (afterOps pool (lbas.map .read)) base ∧
      (afterOps pool (lbas.map .read)).folder = pool.folder := by
  induction lbas generalizing pool with
  | nil => exact ⟨rfl, h, rfl⟩
  | cons lba lbas ih =>
    obtain ⟨hloaded, hfolder⟩ := loaded_readBlock h lba
    obtain ⟨hafter, hloaded', hfolder'⟩ := ih (hfolder ▸ hsame) hloaded
    have hstep : StoreOp.after (pool.inFolder folder') (.read lba) =
        (StoreOp.after pool (.read lba)).inFolder folder' :=
      congrArg Prod.snd (exec_readBlock_inFolder hsame h lba)
    rw [List.map_cons, afterOps, List.foldl_cons, hstep]
    exact ⟨hafter, hloaded', hfolder'.trans hfolder⟩

end Reads

/-! ### Opening -/

section Opening

variable {names : List String} {folder folder' : κ} {path anchor passphrase : String}

namespace Decoys

theorem not_mem_of_carrier (h : Decoys names folder folder') (hpath : path ∈ carrierPaths folder) :
    path ∉ names :=
  fun hname => h.further path hname (mem_carrierPaths.1 hpath).1

/-- The carriers of the smaller folder, in their order. -/
theorem carrierPaths_eq (h : Decoys names folder folder') :
    (carrierPaths folder').filter (fun path => decide (path ∉ names)) = carrierPaths folder := by
  have hsorted : ∀ folder : κ, (carrierPaths folder).Pairwise (· ≤ ·) := fun folder =>
    (List.pairwise_mergeSort (fun a b c hab hbc => by
        simp only [decide_eq_true_eq] at hab hbc ⊢
        exact String.le_trans hab hbc)
      (fun a b => by simpa using String.le_total a b) _).imp fun hab => of_decide_eq_true hab
  refine List.Perm.eq_of_pairwise (fun _ _ _ _ => String.le_antisymm) ((hsorted folder').filter _)
    (hsorted folder) ?_
  have hperm := ((h.entries_perm.filter fun name => (kindFor name).isSome).filter
    fun path => decide (path ∉ names))
  refine (((List.mergeSort_perm _ _).filter _).trans hperm).trans ?_
  refine List.Perm.trans (List.Perm.of_eq ?_) (List.mergeSort_perm _ _).symm
  rw [List.filter_append, List.filter_append]
  have hfurther : ((names.filter fun name => (kindFor name).isSome).filter
      fun path => decide (path ∉ names)) = [] :=
    List.filter_eq_nil_iff.2 fun path hpath => by simpa using (List.mem_filter.1 hpath).1
  rw [hfurther, List.append_nil]
  refine List.filter_eq_self.2 fun path hpath => decide_eq_true fun hname => ?_
  exact h.further path hname (List.mem_filter.1 hpath).1

/-- The carriers with a framed chunk are the same when no further entry has one. -/
theorem scan_eq (h : Decoys names folder folder')
    (hframed : ∀ name ∈ names, ∃ e, readChunk folder' name .framed [] = .error e) :
    scan folder' = scan folder := by
  rw [scan, scan, ← h.carrierPaths_eq, List.filterMap_filter]
  refine List.filterMap_congr fun path _ => ?_
  by_cases hname : path ∈ names
  · obtain ⟨e, he⟩ := hframed path hname
    rw [he, if_neg (by simpa using hname)]
  · rw [h.readChunk_eq path hname, if_pos (decide_eq_true hname)]

theorem openRange_eq (h : Decoys names folder folder') :
    openRange folder' (scan folder) = openRange folder (scan folder) := by
  funext range
  rw [openRange, openRange]
  cases hfind : (scan folder).find? fun carrier =>
      decide (carrier.2.1.chunkIndex = range.chunkIndex) with
  | none => rfl
  | some carrier =>
    obtain ⟨path, info, payload⟩ := carrier
    have hpath := (mem_scan.1 (List.mem_of_find?_eq_some hfind)).1
    have hcapacity : capacity folder' path = capacity folder path := by
      rw [capacity, capacity, h.rawCapacity_eq path (h.not_mem_of_carrier hpath)]
    dsimp only
    rw [hcapacity]

/-- Opening a plaintext pool returns the same. -/
theorem openPlaintext_eq (h : Decoys names folder folder')
    (hframed : ∀ name ∈ names, ∃ e, readChunk folder' name .framed [] = .error e) :
    openPlaintext folder' = openPlaintext folder := by
  rw [openPlaintext, openPlaintext, h.scan_eq hframed, h.openRange_eq]

/-- The anchor is found among the same carriers. -/
theorem find_anchor_eq (h : Decoys names folder folder') (hanchor : ¬LeadsTo names folder' anchor)
    {canonical : String} (hcanonical : canonicalize folder' anchor = .ok canonical) :
    (carrierPaths folder').find? (fun path =>
        decide ((canonicalize folder' path).toOption = some canonical)) =
      (carrierPaths folder).find? fun path =>
        decide ((canonicalize folder path).toOption = some canonical) := by
  rw [← h.carrierPaths_eq, List.find?_filter]
  refine List.find?_congr fun path hpath => ?_
  by_cases hname : path ∈ names
  · have hne : (canonicalize folder' path).toOption ≠ some canonical := by
      intro heq
      refine hanchor ⟨path, hname, ?_⟩
      cases hpath' : canonicalize folder' path with
      | error e => simp [hpath', Except.toOption] at heq
      | ok found =>
        rw [hpath', Except.toOption, Option.some.injEq] at heq
        rw [hcanonical, heq]
    simp [hname, hne]
  · have hentry : path ∈ entries folder := by
      have hmem := h.entries_perm.mem_iff.1 (mem_carrierPaths.1 hpath).1
      exact (List.mem_append.1 hmem).resolve_right hname
    rw [h.canonicalize_eq path (h.not_leadsTo path (.inl hentry) hname)]
    simp [hname]

theorem selectAnchor_eq (h : Decoys names folder folder') (hanchor : ¬LeadsTo names folder' anchor) :
    selectAnchor folder' (carrierPaths folder') (some anchor) =
      selectAnchor folder (carrierPaths folder) (some anchor) := by
  rw [selectAnchor, selectAnchor, ← h.canonicalize_eq anchor hanchor, h.dir_eq]
  cases hcanonical : canonicalize folder' anchor with
  | error e => rfl
  | ok canonical =>
    simp only [Except.mapError, bind, Except.bind]
    rw [h.find_anchor_eq hanchor hcanonical]
    cases hfind : (carrierPaths folder).find? fun path =>
        decide ((canonicalize folder path).toOption = some canonical) with
    | none => rfl
    | some path =>
      have hpath := List.mem_of_find?_eq_some hfind
      simp only [h.rawCapacity_eq path (h.not_mem_of_carrier hpath)]

/-- The checks on the manifest see its own names and the anchor only. -/
theorem openRanges_eq (h : Decoys names folder folder') (hpath : path ∈ carrierPaths folder)
    {ranges : List CarrierRange} (hranges : ∀ range ∈ ranges, range.name ∉ names)
    (seen : List String) : openRanges folder' path seen ranges = openRanges folder path seen ranges := by
  induction ranges generalizing seen with
  | nil => rfl
  | cons range ranges ih =>
    have hname : range.name ∉ names := hranges range List.mem_cons_self
    have hcanonicalPath : canonicalize folder' path = canonicalize folder path :=
      h.canonicalize_eq path (h.not_leadsTo path (.inl (mem_carrierPaths.1 hpath).1)
        (h.not_mem_of_carrier hpath))
    rw [openRanges, openRanges, hcanonicalPath, h.rawCapacity_eq range.name hname]
    refine except_bind_congr fun _ hvalid => ?_
    rw [h.canonicalize_eq range.name (h.not_leadsTo _ (.inr hvalid) hname)]
    simp only [ih fun range hrange => hranges range (List.mem_cons_of_mem _ hrange)]

/-- Opening a pool by its anchor returns the same. -/
theorem openWithAnchor_eq (h : Decoys names folder folder') (hanchor : ¬LeadsTo names folder' anchor)
    (hranges : ∀ sb, NamesSuperblock crypto folder anchor passphrase sb →
      ∀ range ∈ sb.manifest, range.name ∉ names) :
    openWithAnchor crypto folder' anchor passphrase = openWithAnchor crypto folder anchor passphrase := by
  rw [openWithAnchor, openWithAnchor, h.selectAnchor_eq hanchor]
  refine except_bind_congr fun path hselect => ?_
  have hpath := (selectAnchor_ok hselect).1
  rw [h.readPrefix_eq path (h.not_mem_of_carrier hpath)]
  refine except_bind_congr fun bootstrap hread => ?_
  refine except_bind_congr ?_
  rintro ⟨plaintext, keys⟩ hopen
  refine except_bind_congr fun sb hdecode => ?_
  have hnames := hranges sb ⟨path, bootstrap, plaintext, keys, hselect, except_mapError_ok hread,
    hopen, except_mapError_ok hdecode⟩
  rw [h.openRanges_eq hpath hnames]

/-- The carriers of a store on other names read the same. -/
theorem sameCarriers (h : Decoys names folder folder') {base : BlockStore}
    (hbase : ∀ slot ∈ base.carriers, slot.path ∉ names) : SameCarriers base folder folder' := by
  intro path hpath mode key
  obtain ⟨slot, hslot, rfl⟩ := List.mem_map.1 hpath
  exact h.readChunk_eq slot.path (hbase slot hslot) mode key

end Decoys

/-- Two openings that return the same, and whose stores read the same after the same reads. -/
structure SameOpening (crypto : Crypto) (folder folder' : κ)
    (opened opened' : Except FsError (Superblock × BlockStore)) : Prop where
  result_eq : opened' = opened
  readResult_eq : ∀ sb store, opened = .ok (sb, store) → ∀ nonces clock (lbas : List Nat) lba,
    readResult (afterOps (⟨folder', store, nonces, clock⟩ : Pool κ crypto) (lbas.map .read)) lba =
      readResult (afterOps (⟨folder, store, nonces, clock⟩ : Pool κ crypto) (lbas.map .read)) lba

/-- A store on carriers that read the same in both folders. -/
theorem readResult_inFolder {pool : Pool κ crypto} {base : BlockStore}
    (hsame : SameCarriers base pool.folder folder') (h : Loaded pool base) (lbas : List Nat)
    (lba : Nat) : readResult (afterOps (pool.inFolder folder') (lbas.map .read)) lba =
      readResult (afterOps pool (lbas.map .read)) lba := by
  obtain ⟨hafter, hloaded, hfolder⟩ := afterOps_reads_inFolder hsame h lbas
  rw [hafter, readResult, exec_readBlock_inFolder (hfolder ▸ hsame) hloaded, readResult]

namespace Decoys

/-- Openings that return the same store on the carriers of the smaller folder. -/
theorem sameOpening (h : Decoys names folder folder')
    {opened opened' : Except FsError (Superblock × BlockStore)} (heq : opened' = opened)
    (hstore : ∀ sb store, opened = .ok (sb, store) → ∃ paths manifest keys,
      store = .fromManifest paths manifest keys ∧ ∀ slot ∈ store.carriers, slot.path ∉ names) :
    SameOpening crypto folder folder' opened opened' := by
  refine ⟨heq, fun sb store hopened nonces clock lbas lba => ?_⟩
  obtain ⟨paths, manifest, keys, rfl, hnames⟩ := hstore sb store hopened
  have hloaded := Loaded.fromManifest (⟨folder, .fromManifest paths manifest keys, nonces, clock⟩ :
    Pool κ crypto) paths manifest keys
  exact readResult_inFolder (h.sameCarriers hnames) hloaded lbas lba

theorem sameOpening_plaintext (h : Decoys names folder folder')
    (hframed : ∀ name ∈ names, ∃ e, readChunk folder' name .framed [] = .error e) :
    SameOpening crypto folder folder' (openPlaintext folder) (openPlaintext folder') := by
  refine h.sameOpening (h.openPlaintext_eq hframed) fun sb store hopened => ?_
  obtain ⟨-, -, -, paths, hstore, -⟩ := openPlaintext_ok hopened
  refine ⟨paths, sb.manifest, none, hstore, fun slot hslot => ?_⟩
  obtain ⟨i, hi⟩ := List.mem_iff_getElem?.1 hslot
  obtain ⟨_, _, _, -, -, hfind, -⟩ := opened_slot hopened hi
  exact h.not_mem_of_carrier (mem_scan.1 (List.mem_of_find?_eq_some hfind)).1

theorem sameOpening_anchor (h : Decoys names folder folder') (hanchor : ¬LeadsTo names folder' anchor)
    (hranges : ∀ sb, NamesSuperblock crypto folder anchor passphrase sb →
      ∀ range ∈ sb.manifest, range.name ∉ names) :
    SameOpening crypto folder folder' (openWithAnchor crypto folder anchor passphrase)
      (openWithAnchor crypto folder' anchor passphrase) := by
  refine h.sameOpening (h.openWithAnchor_eq hanchor hranges) fun sb store hopened => ?_
  obtain ⟨path, bootstrap, plaintext, keys, hselect, hread, hopen, hdecode, -, -, -, -, hstore⟩ :=
    openWithAnchor_iff.1 hopened
  refine ⟨_, sb.manifest, some keys, hstore, fun slot hslot => ?_⟩
  have hnames := hranges sb ⟨path, bootstrap, plaintext, keys, hselect, hread, hopen, hdecode⟩
  rw [hstore] at hslot
  obtain ⟨i, hi⟩ := List.mem_iff_getElem?.1 hslot
  obtain ⟨name, _, range, hpath, -, rfl⟩ := getElem?_fromManifest.1 hi
  obtain ⟨other, hother, heq⟩ := List.mem_map.1 (List.mem_of_getElem? hpath)
  obtain ⟨rfl, -⟩ := Prod.mk.inj heq
  exact hnames other hother

/-- Further images change nothing. A plaintext pool is opened as without them when none of them has a
framed chunk that can be read; a markerless pool, when none of them is the anchor and the manifest
names none of them, whatever they hold. What is opened reads the same. -/
theorem same_openings (crypto : Crypto) (h : Decoys names folder folder') :
    ((∀ name ∈ names, ∃ e, readChunk folder' name .framed [] = .error e) →
      SameOpening crypto folder folder' (openPlaintext folder) (openPlaintext folder')) ∧
    ∀ anchor passphrase, ¬LeadsTo names folder' anchor →
      (∀ sb, NamesSuperblock crypto folder anchor passphrase sb →
        ∀ range ∈ sb.manifest, range.name ∉ names) →
      SameOpening crypto folder folder' (openWithAnchor crypto folder anchor passphrase)
        (openWithAnchor crypto folder' anchor passphrase) :=
  ⟨h.sameOpening_plaintext, fun _ _ => h.sameOpening_anchor⟩

end Decoys

end Opening

/-! ### Images added to a folder -/

namespace ImageFolder

variable {folder : ImageFolder} {name path : String}

/-- The folder with a further image. -/
def adding (folder : ImageFolder) (name : String) (hname : name ∉ folder.names) (image : Carrier) :
    ImageFolder :=
  { folder with
    names := folder.names ++ [name]
    nodup_names := List.nodup_append.2 ⟨folder.nodup_names, List.nodup_singleton _, by
      rintro other hother _ hmem rfl
      exact hname (List.mem_singleton.1 hmem ▸ hother)⟩
    carrier := Function.update folder.carrier name (some image) }

/-- Only its own name leads to the further image. -/
theorem leadsTo_adding (hname : name ∉ folder.names) (image : Carrier) :
    LeadsTo [name] (folder.adding name hname image) path ↔ path = name := by
  have hmem : name ∈ folder.names ++ [name] := List.mem_append_right _ (List.mem_singleton_self _)
  constructor
  · rintro ⟨other, hsingle, heq⟩
    have hcanonical : canonicalize (folder.adding name hname image) name = .ok name := if_pos hmem
    rw [List.mem_singleton.1 hsingle, hcanonical] at heq
    simp only [canonicalize] at heq
    split_ifs at heq
    exact Except.ok.inj heq
  · rintro rfl
    exact ⟨path, List.mem_singleton_self _, rfl⟩

theorem openCarrier_adding (hname : name ∉ folder.names) (image : Carrier) (hne : path ≠ name) :
    (folder.adding name hname image).openCarrier path = folder.openCarrier path := by
  simp only [openCarrier, adding, Function.update_of_ne hne]

theorem decoys_adding (hname : name ∉ folder.names) (image : Carrier) :
    Decoys [name] folder (folder.adding name hname image) where
  dir_eq := rfl
  entries_perm := List.Perm.refl _
  further other hother := by
    rw [List.mem_singleton.1 hother]
    exact hname
  not_leadsTo other _ hother hleads :=
    hother (List.mem_singleton.2 ((leadsTo_adding hname image).1 hleads))
  canonicalize_eq path hpath := by
    have hne : path ≠ name := fun heq => hpath ((leadsTo_adding hname image).2 heq)
    simp only [canonicalize, adding, List.mem_append, List.mem_singleton, hne, or_false]
  rawCapacity_eq other hother := by
    simp only [rawCapacity, openCarrier_adding hname image (List.ne_of_not_mem_cons hother)]
  readChunk_eq other hother mode key := by
    simp only [readChunk, openCarrier_adding hname image (List.ne_of_not_mem_cons hother)]
    rfl
  readPrefix_eq other hother length := by
    simp only [readPrefix, openCarrier_adding hname image (List.ne_of_not_mem_cons hother)]

/-- An image of one pixel. -/
def pixel : RgbaImage where
  width := 1
  height := 1
  pixels := Vector.replicate _ PngCodec.black
  size_lt := by decide

end ImageFolder

open ImageFolder

/-- An image that holds a framed chunk. -/
def framedImage : RgbaImage :=
  (PngCodec.writeChunk blackFolder.order blackImage (.framed { chunkIndex := 0, flags := 1 }) []
    []).2

/-- A plaintext pool beside an image of one pixel, and a markerless pool beside an image that holds a
framed chunk. -/
theorem Decoys.same_openings_twoImages :
    (∃ h : "b.png" ∉ (storing (oneRange 1)).names,
      SameOpening Crypto.identity (storing (oneRange 1))
        ((storing (oneRange 1)).adding "b.png" h (.png pixel)) (openPlaintext (storing (oneRange 1)))
        (openPlaintext ((storing (oneRange 1)).adding "b.png" h (.png pixel)))) ∧
    ∃ r folder', formatWithAnchorOptions Crypto.identity zeroRandomness twoImages (some "secret")
        (some "a.png") true = (.ok r, folder') ∧
      ∃ (h : "c.png" ∉ folder'.names) (anchor : String), r.anchor = some anchor ∧
        (openWithAnchor Crypto.identity folder' anchor "secret").isOk ∧
        SameOpening Crypto.identity folder' (folder'.adding "c.png" h (.png framedImage))
          (openWithAnchor Crypto.identity folder' anchor "secret")
          (openWithAnchor Crypto.identity (folder'.adding "c.png" h (.png framedImage)) anchor
            "secret") := by
  constructor
  · have hentries : (storing (oneRange 1)).names = ["a.png"] :=
      ImageFolder.exact.entries_writeChunk blackFolder "a.png" _ _ _
    have hname : "b.png" ∉ (storing (oneRange 1)).names := by
      rw [hentries]
      decide
    refine ⟨hname, (Decoys.same_openings Crypto.identity (decoys_adding hname _)).1 fun name hmem => ?_⟩
    rw [List.mem_singleton.1 hmem]
    have hopen : ((storing (oneRange 1)).adding "b.png" hname (.png pixel)).openCarrier "b.png" =
        .ok (.png pixel) := by
      simp only [openCarrier, adding, Function.update_self]
      rfl
    refine ⟨.notACarrier, ?_⟩
    simp only [readChunk, hopen, bind, Except.bind]
    rfl
  · obtain ⟨r, folder', h, hsuperblock⟩ := exists_format_twoImages Crypto.identity zeroRandomness
      Crypto.identity_exact Crypto.identity_total fun _ => rfl
    obtain ⟨anchor, store, hanchor, hopened, -⟩ :=
      openWithAnchor_format ImageFolder.exact Crypto.identity_exact h
    obtain ⟨plan, usable, pool, disk, hplan, hr, hdone⟩ :=
      format_ok ImageFolder.exact Crypto.identity_exact h
    have hmem : anchor ∈ carrierPaths twoImages := by
      obtain ⟨-, -, -, -, -, anchor', _, _, hanchor', -, -, hselect, -⟩ := planFormat_ok hplan
      rw [hr, hanchor', Option.some.injEq] at hanchor
      exact hanchor ▸ (selectAnchor_ok hselect).1
    have hentries : folder'.names = ["a.png", "b.png"] := hdone.entries_eq ImageFolder.exact
    have hname : "c.png" ∉ folder'.names := by
      rw [hentries]
      decide
    refine ⟨r, folder', h, hname, anchor, hanchor, by rw [hopened]; rfl,
      (Decoys.same_openings Crypto.identity (decoys_adding hname _)).2 anchor "secret" ?_ ?_⟩
    · rw [leadsTo_adding]
      rintro rfl
      rw [carrierPaths_twoImages] at hmem
      revert hmem
      decide
    · intro sb hsb range hrange
      rw [hsb.eq_of_open hopened, hsuperblock] at hrange
      obtain rfl := List.mem_singleton.1 hrange
      decide

end AlbumFS
