import AlbumFS.Pool.Carriers
import AlbumFS.Stego.Jpeg
import AlbumFS.Stego.Png
import Mathlib.Logic.Function.Basic

/-!
# Folders of images

A folder of PNG and JPEG images with the codecs of `AlbumFS.Stego`. Replacing an image is one step:
the temporary file of a write is none of the names of the folder. A panic of a codec ends the
program, which no caller sees.

## Main results

* `ImageFolder.exact`: the codecs store and reload exactly.
-/

namespace AlbumFS

open CarrierFolder

/-- A JPEG image. The list of its usable positions fits the address space. -/
structure JpegFile where
  image : JpegImage
  rawCapacity_lt : image.rawCapacity < 2 ^ 61

inductive Carrier where
  | png (image : RgbaImage)
  | jpeg (file : JpegFile)

structure ImageFolder where
  dir : String
  names : List String
  nodup_names : names.Nodup
  /-- The images among the files. -/
  carrier : String → Option Carrier
  order : ChunkOrder
  /-- The message with which storing an edited JPEG image fails. -/
  stores : JpegImage → JpegImage → Option String

namespace ImageFolder

/-- A call to a JPEG codec that writes. -/
def runJpeg (folder : ImageFolder) (file : JpegFile) (write : JpegWrite) :
    Except CodecError Unit × JpegFile :=
  ((write.run folder.order folder.stores file.image).1,
    { image := (write.run folder.order folder.stores file.image).2
      rawCapacity_lt := by
        rw [(JpegWrite.run_onlyChosen folder.order folder.stores file.image write).rawCapacity_eq]
        exact file.rawCapacity_lt })

/-- The image at a path, decoded as the kind that the path has. -/
def openCarrier (folder : ImageFolder) (name : String) : Except CodecError Carrier :=
  match kindFor name, folder.carrier name with
  | some .png, some (.png image) => .ok (.png image)
  | some .jpeg, some (.jpeg file) => .ok (.jpeg file)
  | some .png, _ => .error (.image "the file is no PNG image")
  | some .jpeg, _ => .error (.jpeg "the file is no JPEG image")
  | none, _ => .error (.io "unsupported carrier type")

def replace (folder : ImageFolder) (name : String) (carrier : Carrier) : ImageFolder :=
  { folder with carrier := Function.update folder.carrier name (some carrier) }

/-- A result of a codec that may panic. -/
def finished {α : Type} : Option (Except CodecError α) → Except CodecError α
  | none => .error (.image "panic")
  | some result => result

instance : CarrierFolder ImageFolder where
  dir := ImageFolder.dir
  entries := ImageFolder.names
  canonicalize folder name :=
    if name ∈ folder.names then .ok name else .error "No such file or directory (os error 2)"
  rawCapacity folder name := do
    match ← folder.openCarrier name with
    | .png image => .ok (PngCodec.rawCapacity image.width image.height)
    | .jpeg file => .ok file.image.rawCapacity
  writeChunk folder name mode payload orderKey :=
    match folder.openCarrier name with
    | .error e => (.error e, folder)
    | .ok (.png image) =>
      let written := PngCodec.writeChunk folder.order image mode payload orderKey
      (finished written.1, folder.replace name (.png written.2))
    | .ok (.jpeg file) =>
      let written := folder.runJpeg file (.chunk mode payload orderKey)
      (written.1, folder.replace name (.jpeg written.2))
  readChunk folder name mode orderKey := do
    match ← folder.openCarrier name with
    | .png image => finished (PngCodec.readChunk folder.order image mode orderKey)
    | .jpeg file => JpegCodec.readChunk folder.order file.image mode orderKey
  writePrefix folder name bytes :=
    match folder.openCarrier name with
    | .error e => (.error e, folder)
    | .ok (.png image) =>
      let written := PngCodec.writePrefix image bytes
      (finished written.1, folder.replace name (.png written.2))
    | .ok (.jpeg file) =>
      let written := folder.runJpeg file (.leading bytes)
      (written.1, folder.replace name (.jpeg written.2))
  readPrefix folder name length := do
    match ← folder.openCarrier name with
    | .png image => finished (PngCodec.readPrefix image length)
    | .jpeg file => JpegCodec.readPrefix file.image length

/-! ### Replacing a carrier -/

variable {folder folder' : ImageFolder} {name name' : String} {image : RgbaImage} {file : JpegFile}
  {carrier carrier' : Carrier} {mode : ChunkWrite} {payload key bytes : List UInt8} {e : CodecError}

/-- A carrier and the one that a write puts in its place have the same kind and capacity. -/
def Alike : Carrier → Carrier → Prop
  | .png image, .png image' => image'.width = image.width ∧ image'.height = image.height
  | .jpeg file, .jpeg file' => file'.image.rawCapacity = file.image.rawCapacity
  | _, _ => False

theorem openCarrier_replace_of_ne (hne : name' ≠ name) :
    (folder.replace name carrier).openCarrier name' = folder.openCarrier name' := by
  rw [openCarrier, openCarrier, replace]
  dsimp only
  rw [Function.update_of_ne hne]

theorem openCarrier_replace (h : folder.openCarrier name = .ok carrier) (halike : Alike carrier carrier') :
    (folder.replace name carrier').openCarrier name = .ok carrier' := by
  rw [openCarrier] at h
  rw [openCarrier, replace]
  dsimp only
  rw [Function.update_self]
  split at h
  all_goals first | cases h
  · rename_i hkind _
    rw [hkind]
    cases carrier' with
    | png => rfl
    | jpeg => cases halike
  · rename_i hkind _
    rw [hkind]
    cases carrier' with
    | png => cases halike
    | jpeg => rfl

/-- Putting back the same carrier. -/
theorem replace_self (h : folder.openCarrier name = .ok carrier) : folder.replace name carrier = folder := by
  have hcarrier : folder.carrier name = some carrier := by
    rw [openCarrier] at h
    split at h
    all_goals first | cases h
    · assumption
    · assumption
  rw [replace, ← hcarrier, Function.update_eq_self]

theorem alike_refl (carrier : Carrier) : Alike carrier carrier := by
  cases carrier with
  | png => exact ⟨rfl, rfl⟩
  | jpeg => rfl

/-- A write of a chunk fails and changes nothing, or puts a carrier in place from which the chunk is
read back. -/
theorem writeChunk_cases (folder : ImageFolder) (name : String) (mode : ChunkWrite)
    (payload key : List UInt8) :
    (∃ e, writeChunk folder name mode payload key = (.error e, folder)) ∨
      ∃ carrier carrier', folder.openCarrier name = .ok carrier ∧ Alike carrier carrier' ∧
        writeChunk folder name mode payload key = (.ok (), folder.replace name carrier') ∧
        readChunk (folder.replace name carrier') name (mode.readBack payload) key =
          .ok (mode.info, payload) := by
  have hwrite : writeChunk folder name mode payload key = match folder.openCarrier name with
      | .error e => (.error e, folder)
      | .ok (.png image) => (finished (PngCodec.writeChunk folder.order image mode payload key).1,
          folder.replace name (.png (PngCodec.writeChunk folder.order image mode payload key).2))
      | .ok (.jpeg file) => ((folder.runJpeg file (.chunk mode payload key)).1,
          folder.replace name (.jpeg (folder.runJpeg file (.chunk mode payload key)).2)) := rfl
  have hread : ∀ carrier carrier', folder.openCarrier name = .ok carrier → Alike carrier carrier' →
      readChunk (folder.replace name carrier') name (mode.readBack payload) key =
        match carrier' with
        | .png image => finished (PngCodec.readChunk folder.order image (mode.readBack payload) key)
        | .jpeg file => JpegCodec.readChunk folder.order file.image (mode.readBack payload) key := by
    intro carrier carrier' hopen halike
    have hopen' := openCarrier_replace hopen halike
    simp only [readChunk, hopen', bind, Except.bind]
    cases carrier' <;> rfl
  rw [hwrite]
  cases hopen : folder.openCarrier name with
  | error e => exact Or.inl ⟨e, rfl⟩
  | ok carrier =>
    cases carrier with
    | png image =>
      by_cases hfits : PngCodec.Fits image mode payload key
      · obtain ⟨image', himage, honly, hback⟩ := PngCodec.writeChunk_of_fits folder.order hfits
        refine Or.inr ⟨_, .png image', rfl, ⟨honly.width_eq, honly.height_eq⟩, ?_, ?_⟩
        · dsimp only
          rw [himage]
          rfl
        · rw [hread (.png image) (.png image') hopen ⟨honly.width_eq, honly.height_eq⟩]
          dsimp only
          rw [hback, finished]
      · obtain ⟨e, he⟩ := PngCodec.chunkLayout_of_not_fits folder.order hfits
        refine Or.inl ⟨e, ?_⟩
        dsimp only
        rw [PngCodec.writeChunk, he]
        dsimp only
        rw [replace_self hopen, finished]
    | jpeg file =>
      rcases JpegWrite.run_cases folder.order folder.stores file.image (.chunk mode payload key) with
        ⟨image', himage⟩ | ⟨e, he⟩
      · have hrun := JpegWrite.run_ok himage
        have halike : Alike (.jpeg file) (.jpeg (folder.runJpeg file (.chunk mode payload key)).2) :=
          (JpegWrite.run_onlyChosen folder.order folder.stores file.image _).rawCapacity_eq
        refine Or.inr ⟨_, _, rfl, halike, ?_, ?_⟩
        · dsimp only
          rw [show (folder.runJpeg file (.chunk mode payload key)).1 = .ok () from
            congrArg Prod.fst himage]
        · rw [hread _ _ hopen halike]
          dsimp only
          rw [show (folder.runJpeg file (.chunk mode payload key)).2.image = image' from
            congrArg Prod.snd himage]
          exact hrun.2.2
      · refine Or.inl ⟨e, ?_⟩
        dsimp only
        rw [show folder.runJpeg file (.chunk mode payload key) = (.error e, file) from ?_,
          replace_self hopen]
        rw [runJpeg]
        simp only [he]

/-- The same for prefixes. -/
theorem writePrefix_cases (folder : ImageFolder) (name : String) (bytes : List UInt8) :
    (∃ e, writePrefix folder name bytes = (.error e, folder)) ∨
      ∃ carrier carrier', folder.openCarrier name = .ok carrier ∧ Alike carrier carrier' ∧
        writePrefix folder name bytes = (.ok (), folder.replace name carrier') ∧
        readPrefix (folder.replace name carrier') name bytes.length = .ok bytes := by
  have hwrite : writePrefix folder name bytes = match folder.openCarrier name with
      | .error e => (.error e, folder)
      | .ok (.png image) => (finished (PngCodec.writePrefix image bytes).1,
          folder.replace name (.png (PngCodec.writePrefix image bytes).2))
      | .ok (.jpeg file) => ((folder.runJpeg file (.leading bytes)).1,
          folder.replace name (.jpeg (folder.runJpeg file (.leading bytes)).2)) := rfl
  have hread : ∀ carrier carrier', folder.openCarrier name = .ok carrier → Alike carrier carrier' →
      readPrefix (folder.replace name carrier') name bytes.length =
        match carrier' with
        | .png image => finished (PngCodec.readPrefix image bytes.length)
        | .jpeg file => JpegCodec.readPrefix file.image bytes.length := by
    intro carrier carrier' hopen halike
    have hopen' := openCarrier_replace hopen halike
    simp only [readPrefix, hopen', bind, Except.bind]
  rw [hwrite]
  cases hopen : folder.openCarrier name with
  | error e => exact Or.inl ⟨e, rfl⟩
  | ok carrier =>
    cases carrier with
    | png image =>
      by_cases hle : bytes.length ≤ PngCodec.rawCapacity image.width image.height
      · obtain ⟨image', himage, honly, hback⟩ := PngCodec.writePrefix_of_le hle
        refine Or.inr ⟨_, .png image', rfl, ⟨honly.width_eq, honly.height_eq⟩, ?_, ?_⟩
        · dsimp only
          rw [himage]
          rfl
        · rw [hread (.png image) (.png image') hopen ⟨honly.width_eq, honly.height_eq⟩]
          dsimp only
          rw [hback, finished]
      · refine Or.inl
          ⟨.payloadTooLarge bytes.length (PngCodec.rawCapacity image.width image.height), ?_⟩
        dsimp only
        rw [PngCodec.writePrefix, if_pos (by omega)]
        dsimp only
        rw [replace_self hopen, finished]
    | jpeg file =>
      rcases JpegWrite.run_cases folder.order folder.stores file.image (.leading bytes) with
        ⟨image', himage⟩ | ⟨e, he⟩
      · have hrun := JpegWrite.run_ok himage
        have halike : Alike (.jpeg file) (.jpeg (folder.runJpeg file (.leading bytes)).2) :=
          (JpegWrite.run_onlyChosen folder.order folder.stores file.image _).rawCapacity_eq
        refine Or.inr ⟨_, _, rfl, halike, ?_, ?_⟩
        · dsimp only
          rw [show (folder.runJpeg file (.leading bytes)).1 = .ok () from congrArg Prod.fst himage]
        · rw [hread _ _ hopen halike]
          dsimp only
          rw [show (folder.runJpeg file (.leading bytes)).2.image = image' from
            congrArg Prod.snd himage]
          exact hrun.2.2
      · refine Or.inl ⟨e, ?_⟩
        dsimp only
        rw [show folder.runJpeg file (.leading bytes) = (.error e, file) from ?_, replace_self hopen]
        rw [runJpeg]
        simp only [he]

/-- What does not depend on the contents of a carrier survives its replacement. -/
theorem rawCapacity_replace (h : folder.openCarrier name = .ok carrier) (halike : Alike carrier carrier')
    (name' : String) : rawCapacity (folder.replace name carrier') name' = rawCapacity folder name' := by
  by_cases hname : name' = name
  · subst hname
    simp only [rawCapacity, openCarrier_replace h halike, h, bind, Except.bind]
    cases carrier <;> cases carrier' <;> simp only [Alike] at halike ⊢
    · rw [halike.1, halike.2]
    · rw [halike]
  · simp only [rawCapacity, openCarrier_replace_of_ne hname]

theorem readChunk_replace (hne : name' ≠ name) (mode : ChunkRead) (key : List UInt8) :
    readChunk (folder.replace name carrier) name' mode key = readChunk folder name' mode key := by
  simp only [readChunk, openCarrier_replace_of_ne hne]
  rfl

theorem readPrefix_replace (hne : name' ≠ name) (length : Nat) :
    readPrefix (folder.replace name carrier) name' length = readPrefix folder name' length := by
  simp only [readPrefix, openCarrier_replace_of_ne hne]

/-- A write of a chunk leaves the folder alone or replaces the carrier by a like one. -/
theorem writeChunk_folder (folder : ImageFolder) (name : String) (mode : ChunkWrite)
    (payload key : List UInt8) : (writeChunk folder name mode payload key).2 = folder ∨
      ∃ carrier carrier', folder.openCarrier name = .ok carrier ∧ Alike carrier carrier' ∧
        (writeChunk folder name mode payload key).2 = folder.replace name carrier' := by
  rcases writeChunk_cases folder name mode payload key with ⟨e, h⟩ | ⟨carrier, carrier', hopen, halike, h, -⟩
  · exact Or.inl (by rw [h])
  · exact Or.inr ⟨carrier, carrier', hopen, halike, by rw [h]⟩

theorem writePrefix_folder (folder : ImageFolder) (name : String) (bytes : List UInt8) :
    (writePrefix folder name bytes).2 = folder ∨
      ∃ carrier carrier', folder.openCarrier name = .ok carrier ∧ Alike carrier carrier' ∧
        (writePrefix folder name bytes).2 = folder.replace name carrier' := by
  rcases writePrefix_cases folder name bytes with ⟨e, h⟩ | ⟨carrier, carrier', hopen, halike, h, -⟩
  · exact Or.inl (by rw [h])
  · exact Or.inr ⟨carrier, carrier', hopen, halike, by rw [h]⟩

/-- The codecs store and reload exactly. -/
theorem exact : ExactFolder ImageFolder where
  read_write := by
    intro folder folder' name mode payload key h
    rcases writeChunk_cases folder name mode payload key with ⟨e, he⟩ | ⟨_, carrier', -, -, hok, hread⟩
    · rw [he] at h
      cases h
    · obtain rfl : folder.replace name carrier' = folder' := congrArg Prod.snd (hok.symm.trans h)
      exact hread
  read_failed := by
    intro folder folder' name mode payload key e h mode' key'
    rcases writeChunk_cases folder name mode payload key with ⟨e', he⟩ | ⟨_, _, -, -, hok, -⟩
    · obtain rfl : folder = folder' := congrArg Prod.snd (he.symm.trans h)
      rfl
    · rw [hok] at h
      cases h
  read_other := by
    intro folder name name' mode payload key hne mode' key'
    rcases writeChunk_folder folder name mode payload key with h | ⟨_, carrier', -, -, h⟩
    · rw [h]
    · rw [h, readChunk_replace hne]
  nodup_entries := ImageFolder.nodup_names
  canonicalize_entry := fun h => if_pos h
  rawCapacity_lt := by
    intro folder name n h
    cases hopen : folder.openCarrier name with
    | error e => simp [rawCapacity, hopen, bind, Except.bind] at h
    | ok carrier =>
      simp only [rawCapacity, hopen, bind, Except.bind] at h
      cases carrier with
      | png image =>
        obtain rfl := Except.ok.inj h
        have := image.size_lt
        rw [PngCodec.rawCapacity]
        omega
      | jpeg file =>
        obtain rfl := Except.ok.inj h
        exact Nat.lt_trans file.rawCapacity_lt (by decide)
  entries_writeChunk := by
    intro folder name mode payload key
    rcases writeChunk_folder folder name mode payload key with h | ⟨_, carrier', -, -, h⟩ <;> rw [h]
    rfl
  rawCapacity_writeChunk := by
    intro folder name name' mode payload key
    rcases writeChunk_folder folder name mode payload key with h | ⟨_, carrier', hopen, halike, h⟩
    · rw [h]
    · rw [h, rawCapacity_replace hopen halike]
  readPrefix_writeChunk := by
    intro folder name name' mode payload key length hne
    rcases writeChunk_folder folder name mode payload key with h | ⟨_, carrier', -, -, h⟩
    · rw [h]
    · rw [h, readPrefix_replace hne]
  readPrefix_writePrefix := by
    intro folder folder' name bytes h
    rcases writePrefix_cases folder name bytes with ⟨e, he⟩ | ⟨_, carrier', -, -, hok, hread⟩
    · rw [he] at h
      cases h
    · obtain rfl : folder.replace name carrier' = folder' := congrArg Prod.snd (hok.symm.trans h)
      exact hread
  readChunk_writePrefix := by
    intro folder name name' bytes hne mode key
    rcases writePrefix_folder folder name bytes with h | ⟨_, carrier', -, -, h⟩
    · rw [h]
    · rw [h, readChunk_replace hne]
  entries_writePrefix := by
    intro folder name bytes
    rcases writePrefix_folder folder name bytes with h | ⟨_, carrier', -, -, h⟩ <;> rw [h]
    rfl
  rawCapacity_writePrefix := by
    intro folder name name' bytes
    rcases writePrefix_folder folder name bytes with h | ⟨_, carrier', hopen, halike, h⟩
    · rw [h]
    · rw [h, rawCapacity_replace hopen halike]

/-! ### PNG images -/

/-- The carrier at a path is a PNG image of that size. -/
def HasPng (width height : UInt32) (folder : ImageFolder) (name : String) : Prop :=
  ∃ image, folder.openCarrier name = .ok (.png image) ∧ image.width = width ∧ image.height = height

section HasPng

variable {width height : UInt32}

theorem HasPng.replace (h : HasPng width height folder name) (hopen : folder.openCarrier name' = .ok carrier)
    (halike : Alike carrier carrier') : HasPng width height (folder.replace name' carrier') name := by
  obtain ⟨image, hcarrier, hwidth, hheight⟩ := h
  by_cases hname : name = name'
  · subst hname
    obtain rfl := Except.ok.inj (hopen.symm.trans hcarrier)
    cases carrier' with
    | jpeg file => exact halike.elim
    | png image' =>
      exact ⟨image', openCarrier_replace hopen halike, halike.1.trans hwidth, halike.2.trans hheight⟩
  · exact ⟨image, by rw [openCarrier_replace_of_ne hname, hcarrier], hwidth, hheight⟩

theorem HasPng.after_writeChunk (h : HasPng width height folder name) (name' : String) (mode : ChunkWrite)
    (payload key : List UInt8) :
    HasPng width height (writeChunk folder name' mode payload key).2 name := by
  rcases writeChunk_folder folder name' mode payload key with heq | ⟨_, _, hopen, halike, heq⟩
  · rwa [heq]
  · rw [heq]
    exact h.replace hopen halike

/-- A chunk that fits is written. -/
theorem HasPng.writeChunk_ok (h : HasPng width height folder name)
    (hfits : ∀ image : RgbaImage, image.width = width → image.height = height →
      PngCodec.Fits image mode payload key) :
    (writeChunk folder name mode payload key).1 = .ok () := by
  obtain ⟨image, hopen, hwidth, hheight⟩ := h
  obtain ⟨image', hwrite, -⟩ := PngCodec.writeChunk_of_fits folder.order (hfits image hwidth hheight)
  simp only [writeChunk, hopen, hwrite, finished]

theorem HasPng.rawCapacity_eq (h : HasPng width height folder name) :
    rawCapacity folder name = .ok (PngCodec.rawCapacity width height) := by
  obtain ⟨image, hopen, rfl, rfl⟩ := h
  simp only [rawCapacity, hopen, bind, Except.bind]

theorem HasPng.writePrefix_ok (h : HasPng width height folder name)
    (hle : bytes.length ≤ PngCodec.rawCapacity width height) :
    (writePrefix folder name bytes).1 = .ok () := by
  obtain ⟨image, hopen, rfl, rfl⟩ := h
  obtain ⟨image', hwrite, -⟩ := PngCodec.writePrefix_of_le hle
  simp only [writePrefix, hopen, hwrite, finished]

end HasPng

/-! ### A folder with one image -/

/-- A black image of 128 by 128 pixels. -/
def blackImage : RgbaImage where
  width := 128
  height := 128
  pixels := Vector.replicate _ PngCodec.black
  size_lt := by decide

def blackFolder : ImageFolder where
  dir := "pool"
  names := ["a.png"]
  nodup_names := List.nodup_singleton _
  carrier name := if name = "a.png" then some (.png blackImage) else none
  order :=
    { deriveKey := fun _ key => key
      shuffle := fun _ positions => positions
      shuffle_perm := fun _ _ => List.Perm.refl _ }
  stores _ _ := none

/-- The folder with a framed chunk of index zero in its image. -/
def holding (payload : List UInt8) : ImageFolder :=
  (writeChunk blackFolder "a.png" (.framed { chunkIndex := 0, flags := 1 }) payload []).2

theorem readChunk_holding (h : payload.length ≤ 6128) :
    readChunk (holding payload) "a.png" .framed [] = .ok ({ chunkIndex := 0, flags := 1 }, payload) := by
  have hfits : PngCodec.Fits blackImage (.framed { chunkIndex := 0, flags := 1 }) payload [] := by
    have hcapacity : PngCodec.rawCapacity blackImage.width blackImage.height = 6144 := by decide
    refine ⟨?_, by omega, rfl⟩
    rw [hcapacity, CHUNK_HEADER_LEN]
    omega
  obtain ⟨image, himage, -⟩ := PngCodec.writeChunk_of_fits blackFolder.order hfits
  have hopen : blackFolder.openCarrier "a.png" = .ok (.png blackImage) := rfl
  have hwrite : writeChunk blackFolder "a.png" (.framed { chunkIndex := 0, flags := 1 }) payload [] =
      (.ok (), holding payload) := by
    refine Prod.ext ?_ rfl
    simp only [writeChunk, hopen, himage, finished]
  exact exact.read_write hwrite

/-! ### A folder with two images -/

/-- A black image of 300 by 300 pixels. -/
def largeImage : RgbaImage where
  width := 300
  height := 300
  pixels := Vector.replicate _ PngCodec.black
  size_lt := by decide

def twoImages : ImageFolder where
  dir := "pool"
  names := ["a.png", "b.png"]
  nodup_names := by decide
  carrier name := if name = "a.png" ∨ name = "b.png" then some (.png largeImage) else none
  order := blackFolder.order
  stores _ _ := none

theorem carrierPaths_twoImages : carrierPaths twoImages = ["a.png", "b.png"] := by
  have hentries : (entries twoImages).filter (fun name => (kindFor name).isSome) =
      ["a.png", "b.png"] := by decide
  rw [carrierPaths, hentries]
  exact List.mergeSort_of_pairwise (by decide)

theorem hasPng_twoImages {name : String} (h : name = "a.png" ∨ name = "b.png") :
    HasPng 300 300 twoImages name := by
  rcases h with rfl | rfl <;> exact ⟨largeImage, rfl, rfl, rfl⟩

end ImageFolder

end AlbumFS
