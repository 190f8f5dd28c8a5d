import AlbumFS.Stego.Chunk

/-!
# The PNG codec

`stego/png.rs`: a chunk is kept in the low bits of the red, green and blue channels. The decoding
and encoding of PNG files is exact on RGBA images and left out, so a file is the image it holds.

A result `none` stands for a panic.

## Main definitions

* `RgbaImage`: an image in memory.
* `PngCodec.writeChunk`, `PngCodec.readChunk`, `PngCodec.writePrefix`, `PngCodec.readPrefix`.
* `OnlyLow`: nothing but low bits at some positions has changed.

## Main results

* `PngCodec.reads_back_exactly`: what is written is read back, and touches only chosen low bits.
-/

namespace AlbumFS

/-- An image in memory. Its buffer of four bytes a pixel fits the address space. -/
structure RgbaImage where
  width : UInt32
  height : UInt32
  pixels : Vector (Vector UInt8 4) (width.toNat * height.toNat)
  size_lt : width.toNat * height.toNat * 4 < 2 ^ 63

namespace RgbaImage

/-- `get_pixel`, which panics outside the image. -/
def getPixel (image : RgbaImage) (x y : UInt32) : Option (Vector UInt8 4) :=
  if x < image.width ∧ y < image.height then image.pixels[y.toNat * image.width.toNat + x.toNat]? else none

/-- The assignment through `get_pixel_mut`, which panics outside the image. -/
def setPixel (image : RgbaImage) (x y : UInt32) (pixel : Vector UInt8 4) : Option RgbaImage :=
  if x < image.width ∧ y < image.height then
    some { image with pixels := image.pixels.setIfInBounds (y.toNat * image.width.toNat + x.toNat) pixel }
  else none

/-- The pixel coordinates of a position. -/
def pixelX (image : RgbaImage) (position : Nat) : UInt32 :=
  UInt32.ofNat (position / 3 % image.width.toNat)

def pixelY (image : RgbaImage) (position : Nat) : UInt32 :=
  UInt32.ofNat (position / 3 / image.width.toNat)

/-- The channel value with its low bit replaced. -/
def embedBit (value bit : UInt8) : UInt8 := (value &&& 0xfe) ||| bit

/-- The low bit at a position. -/
def low (image : RgbaImage) (position : Nat) : Option UInt8 :=
  (image.getPixel (image.pixelX position) (image.pixelY position)).map fun pixel =>
    pixel[position % 3] &&& 1

/-- The body of the loop of `write_bytes`. -/
def putLow (image : RgbaImage) (position : Nat) (bit : UInt8) : Option RgbaImage :=
  (image.getPixel (image.pixelX position) (image.pixelY position)).bind fun pixel =>
    image.setPixel (image.pixelX position) (image.pixelY position)
      (pixel.set (position % 3) (embedBit (pixel[position % 3]) bit) (by omega))

def writeBytes (image : RgbaImage) (positions : List Nat) (first second : List UInt8) :
    Option (Except CodecError RgbaImage) :=
  match totalBits first second with
  | none => some (.error (.invalidMode "payload bit length overflow"))
  | some totalBits =>
    if positions.length < totalBits then
      some (.error (.payloadTooLarge second.length (positions.length / 8)))
    else
      (embedBits putLow (chunkBit first second) image 0 (positions.take totalBits)).map .ok

def readBytes (image : RgbaImage) (positions : List Nat) (bitOffset length : Nat) :
    Option (Except CodecError (List UInt8)) :=
  match checkedMul length 8 with
  | none => some (.error (.invalidMode "payload bit length overflow"))
  | some bitLength =>
    match checkedAdd bitOffset bitLength with
    | none => some (.error (.invalidMode "payload bit range overflow"))
    | some stop =>
      if stop > positions.length then
        some (.error .notACarrier)
      else
        (extractBits image.low (List.replicate length 0) 0
          (slice positions bitOffset (stop - bitOffset))).map .ok

theorem length_readBytes {image : RgbaImage} {positions : List Nat} {bitOffset length : Nat}
    {bytes : List UInt8} (h : image.readBytes positions bitOffset length = some (.ok bytes)) :
    bytes.length = length := by
  unfold readBytes at h
  split at h
  · cases h
  split at h
  · cases h
  split_ifs at h
  · cases h
  · obtain ⟨bytes', hbits, hok⟩ := Option.map_eq_some_iff.1 h
    obtain rfl := Except.ok.inj hok
    rw [length_extractBits hbits, List.length_replicate]

/-- The number of positions of an image. -/
def slots (image : RgbaImage) : Nat := image.width.toNat * image.height.toNat * 3

/-! ### One position -/

variable {image image' : RgbaImage} {p q : Nat} {bit : UInt8}

theorem slots_lt (image : RgbaImage) : image.slots < 2 ^ 63 := by
  have := image.size_lt
  rw [slots]
  omega

theorem toNat_pixelX (hp : p < image.slots) :
    (image.pixelX p).toNat = p / 3 % image.width.toNat ∧ p / 3 % image.width.toNat < image.width.toNat := by
  have hwidth : 0 < image.width.toNat := by
    rcases Nat.eq_zero_or_pos image.width.toNat with h | h
    · simp [slots, h] at hp
    · exact h
  have hmod := Nat.mod_lt (p / 3) hwidth
  refine ⟨?_, hmod⟩
  rw [pixelX]
  exact UInt32.toNat_ofNat_of_lt' (Nat.lt_trans hmod image.width.toNat_lt)

theorem toNat_pixelY (hp : p < image.slots) :
    (image.pixelY p).toNat = p / 3 / image.width.toNat ∧ p / 3 / image.width.toNat < image.height.toNat := by
  have hdiv : p / 3 / image.width.toNat < image.height.toNat := by
    rw [slots] at hp
    exact Nat.div_lt_of_lt_mul (by omega)
  refine ⟨?_, hdiv⟩
  rw [pixelY]
  exact UInt32.toNat_ofNat_of_lt' (Nat.lt_trans hdiv image.height.toNat_lt)

/-- The coordinates of a position are those of its pixel. -/
theorem pixel_index (hp : p < image.slots) : image.pixelX p < image.width ∧ image.pixelY p < image.height ∧
    (image.pixelY p).toNat * image.width.toNat + (image.pixelX p).toNat = p / 3 := by
  obtain ⟨hx, hxlt⟩ := toNat_pixelX hp
  obtain ⟨hy, hylt⟩ := toNat_pixelY hp
  refine ⟨UInt32.lt_iff_toNat_lt.2 (by rwa [hx]), UInt32.lt_iff_toNat_lt.2 (by rwa [hy]), ?_⟩
  rw [hx, hy, Nat.mul_comm]
  exact Nat.div_add_mod _ _

theorem low_eq (hp : p < image.slots) :
    image.low p = (image.pixels[p / 3]?).map fun pixel => pixel[p % 3] &&& 1 := by
  obtain ⟨hx, hy, hindex⟩ := pixel_index hp
  rw [low, getPixel, if_pos ⟨hx, hy⟩, hindex]

/-- What the loop body does at a position of the image. -/
theorem putLow_eq (hp : p < image.slots) (bit : UInt8) : ∃ image', putLow image p bit = some image' ∧
    image'.width = image.width ∧ image'.height = image.height ∧
    ∀ i : Nat, image'.pixels[i]? = if i = p / 3 then (image.pixels[i]?).map fun pixel =>
      pixel.set (p % 3) (embedBit (pixel[p % 3]) bit) (by omega) else image.pixels[i]? := by
  obtain ⟨hx, hy, hindex⟩ := pixel_index hp
  have hlt : p / 3 < image.width.toNat * image.height.toNat := by
    rw [slots] at hp
    omega
  refine ⟨{ image with pixels := image.pixels.setIfInBounds (p / 3) ((image.pixels[p / 3]).set (p % 3)
    (embedBit (image.pixels[p / 3][p % 3]) bit) (by omega)) }, ?_, rfl, rfl, fun i => ?_⟩
  · rw [putLow, getPixel, if_pos ⟨hx, hy⟩, hindex, Vector.getElem?_eq_getElem hlt, Option.bind_some,
      setPixel, if_pos ⟨hx, hy⟩]
    congr 2
    rw [hindex]
  · dsimp only
    rw [Vector.getElem?_setIfInBounds]
    by_cases hi : p / 3 = i
    · rw [if_pos hi, if_pos hi.symm, ← hi, if_pos hlt, Vector.getElem?_eq_getElem hlt, Option.map_some]
    · rw [if_neg hi, if_neg (Ne.symm hi)]

theorem putLow_spec (hp : p < image.slots) (h : putLow image p bit = some image') :
    image'.width = image.width ∧ image'.height = image.height ∧
    ∀ i : Nat, image'.pixels[i]? = if i = p / 3 then (image.pixels[i]?).map fun pixel =>
      pixel.set (p % 3) (embedBit (pixel[p % 3]) bit) (by omega) else image.pixels[i]? := by
  obtain ⟨image'', h', hspec⟩ := putLow_eq hp bit
  obtain rfl := Option.some.inj (h.symm.trans h')
  exact hspec

theorem eq_zero_or_one (h : bit.toNat < 2) : bit = 0 ∨ bit = 1 := by
  rcases (by omega : bit.toNat = 0 ∨ bit.toNat = 1) with h | h
  · exact Or.inl (UInt8.toNat_inj.1 h)
  · exact Or.inr (UInt8.toNat_inj.1 h)

/-- Embedding a bit replaces the low bit and keeps the upper seven. -/
theorem embedBit_spec (value : UInt8) (hbit : bit.toNat < 2) :
    embedBit value bit &&& 1 = bit ∧ embedBit value bit >>> 1 = value >>> 1 := by
  have hall : ∀ v : BitVec 8,
      (embedBit ⟨v⟩ 0 &&& 1 = 0 ∧ embedBit ⟨v⟩ 0 >>> 1 = (⟨v⟩ : UInt8) >>> 1) ∧
        embedBit ⟨v⟩ 1 &&& 1 = 1 ∧ embedBit ⟨v⟩ 1 >>> 1 = (⟨v⟩ : UInt8) >>> 1 := by
    decide +kernel
  rcases eq_zero_or_one hbit with rfl | rfl
  · exact (hall value.toBitVec).1
  · exact (hall value.toBitVec).2

/-- An image as a medium: the low bits at its positions. -/
def medium : Medium RgbaImage where
  put := putLow
  low := low
  valid image p := p < image.slots
  put_isSome := by
    intro image p bit hp _
    obtain ⟨image', h, -⟩ := putLow_eq hp bit
    exact ⟨image', h⟩
  valid_put := by
    intro image p bit image' hp _ h q
    obtain ⟨hwidth, hheight, -⟩ := putLow_spec hp h
    rw [slots, slots, hwidth, hheight]
  low_put_self := by
    intro image p bit image' hp hbit h
    obtain ⟨hwidth, hheight, hpixels⟩ := putLow_spec hp h
    have hp' : p < image'.slots := by rwa [slots, hwidth, hheight]
    have hlt : p / 3 < image.width.toNat * image.height.toNat := by
      rw [slots] at hp
      omega
    rw [low_eq hp', hpixels, if_pos rfl, Vector.getElem?_eq_getElem hlt, Option.map_some, Option.map_some,
      Vector.getElem_set, if_pos rfl, (embedBit_spec _ hbit).1]
  low_put_of_ne := by
    intro image p q bit image' hp hq hne hbit h
    obtain ⟨hwidth, hheight, hpixels⟩ := putLow_spec hp h
    have hq' : q < image'.slots := by rwa [slots, hwidth, hheight]
    rw [low_eq hq', low_eq hq, hpixels]
    split_ifs with hpq
    · rw [Option.map_map]
      congr 1
      funext pixel
      have hchannel : p % 3 ≠ q % 3 := by omega
      rw [Function.comp_apply, Vector.getElem_set, if_neg hchannel]
    · rfl

end RgbaImage

namespace PngCodec

open RgbaImage

/-- The result of a call and the file that it leaves behind. -/
abbrev Written := Option (Except CodecError Unit) × RgbaImage

def rawCapacity (w h : UInt32) : Nat := w.toNat * h.toNat * 3 / 8

/-- The header and the positions of a chunk to be written. -/
def chunkLayout (order : ChunkOrder) (image : RgbaImage) (mode : ChunkWrite)
    (payload orderKey : List UInt8) : Except CodecError (List UInt8 × List Nat) :=
  let raw := rawCapacity image.width image.height
  match mode with
  | .framed info =>
    if orderKey ≠ [] then
      .error (.invalidMode "framed mode requires an empty order key")
    else if payload.length > 2 ^ 32 - 1 then
      .error (.payloadTooLarge payload.length (raw - CHUNK_HEADER_LEN))
    else if CHUNK_HEADER_LEN + payload.length > raw then
      .error (.payloadTooLarge payload.length (raw - CHUNK_HEADER_LEN))
    else
      .ok (encodeHeader info (UInt32.ofNat payload.length),
        List.range ((CHUNK_HEADER_LEN + payload.length) * 8))
  | .markerless chunkIndex =>
    if payload.length > raw then
      .error (.payloadTooLarge payload.length raw)
    else
      (orderPositions order (List.range image.slots) orderKey chunkIndex).map fun positions => ([], positions)

/-- The end of a call that writes: `save_atomic` replaces the file by the edited image. -/
def saveAtomic (file : RgbaImage) : Option (Except CodecError RgbaImage) → Written
  | none => (none, file)
  | some (.error e) => (some (.error e), file)
  | some (.ok image) => (some (.ok ()), image)

def writeChunk (order : ChunkOrder) (file : RgbaImage) (mode : ChunkWrite)
    (payload orderKey : List UInt8) : Written :=
  match chunkLayout order file mode payload orderKey with
  | .error e => (some (.error e), file)
  | .ok (header, positions) => saveAtomic file (file.writeBytes positions header payload)

def readChunk (order : ChunkOrder) (file : RgbaImage) (mode : ChunkRead) (orderKey : List UInt8) :
    Option (Except CodecError (ChunkMeta × List UInt8)) :=
  match mode with
  | .framed =>
    if orderKey ≠ [] then
      some (.error (.invalidMode "framed mode requires an empty order key"))
    else do
      match ← file.readBytes (List.range file.slots) 0 CHUNK_HEADER_LEN with
      | .error e => some (.error e)
      | .ok header =>
        match decodeHeader header with
        | .error e => some (.error e)
        | .ok (info, payloadLen) =>
          if payloadLen.toNat > rawCapacity file.width file.height - CHUNK_HEADER_LEN then
            some (.error .notACarrier)
          else do
            match ← file.readBytes (List.range file.slots) (CHUNK_HEADER_LEN * 8) payloadLen.toNat with
            | .error e => some (.error e)
            | .ok payload => some (.ok (info, payload))
  | .markerless chunkIndex payloadLen =>
    if payloadLen > rawCapacity file.width file.height then
      some (.error .notACarrier)
    else
      match orderPositions order (List.range file.slots) orderKey chunkIndex with
      | .error e => some (.error e)
      | .ok positions => do
        match ← file.readBytes positions 0 payloadLen with
        | .error e => some (.error e)
        | .ok payload => some (.ok ({ chunkIndex, flags := 0 }, payload))

/-- A framed payload fits the image. -/
theorem length_readChunk_framed {order : ChunkOrder} {file : RgbaImage} {orderKey payload : List UInt8}
    {info : ChunkMeta} (h : readChunk order file .framed orderKey = some (.ok (info, payload))) :
    payload.length ≤ rawCapacity file.width file.height - CHUNK_HEADER_LEN := by
  rw [readChunk] at h
  split_ifs at h
  · cases h
  obtain ⟨header, -, h⟩ := Option.bind_eq_some_iff.1 h
  split at h
  · cases h
  split at h
  · cases h
  split_ifs at h with hle
  · cases h
  obtain ⟨result, hread, h⟩ := Option.bind_eq_some_iff.1 h
  split at h
  · cases h
  · obtain ⟨-, rfl⟩ := Prod.mk.inj (Except.ok.inj (Option.some.inj h))
    rw [RgbaImage.length_readBytes hread]
    exact Nat.not_lt.1 hle

def writePrefix (file : RgbaImage) (bytes : List UInt8) : Written :=
  if bytes.length > rawCapacity file.width file.height then
    (some (.error (.payloadTooLarge bytes.length (rawCapacity file.width file.height))), file)
  else
    saveAtomic file (file.writeBytes (List.range (bytes.length * 8)) [] bytes)

def readPrefix (file : RgbaImage) (length : Nat) : Option (Except CodecError (List UInt8)) :=
  if length > rawCapacity file.width file.height then
    some (.error .notACarrier)
  else
    file.readBytes (List.range (length * 8)) 0 length

end PngCodec

namespace RgbaImage

variable {image image' before after : RgbaImage} {p : Nat} {bit : UInt8} {positions chosen : List Nat}
  {first second source : List UInt8}

/-- Nothing but low bits at the chosen positions has changed. -/
structure OnlyLow (chosen : List Nat) (before after : RgbaImage) : Prop where
  width_eq : after.width = before.width
  height_eq : after.height = before.height
  pixel : ∀ x y pixel, before.getPixel x y = some pixel → ∃ pixel', after.getPixel x y = some pixel' ∧
    pixel'[3] = pixel[3] ∧ (∀ c : Fin 4, pixel'[c] >>> 1 = pixel[c] >>> 1) ∧
    ∀ c : Fin 3, 3 * (y.toNat * before.width.toNat + x.toNat) + c.val ∉ chosen →
      pixel'[c.val] = pixel[c.val]

theorem OnlyLow.refl (chosen : List Nat) (image : RgbaImage) : OnlyLow chosen image image :=
  ⟨rfl, rfl, fun _ _ pixel h => ⟨pixel, h, rfl, fun _ => rfl, fun _ _ => rfl⟩⟩

/-- Writing one more of the chosen positions. -/
theorem OnlyLow.putLow (h : OnlyLow chosen before image) (hp : p < image.slots) (hmem : p ∈ chosen)
    (hbit : bit.toNat < 2) (hput : RgbaImage.putLow image p bit = some image') :
    OnlyLow chosen before image' := by
  obtain ⟨hwidth, hheight, hpixels⟩ := putLow_spec hp hput
  refine ⟨hwidth.trans h.width_eq, hheight.trans h.height_eq, fun x y pixel hpixel => ?_⟩
  obtain ⟨pixel₁, hpixel₁, halpha, hupper, hkept⟩ := h.pixel x y pixel hpixel
  rw [getPixel] at hpixel₁
  split_ifs at hpixel₁ with hinside
  rw [getPixel, hpixels, hwidth, hheight, if_pos hinside]
  split_ifs with hindex
  · have hchannel : p % 3 < 4 := by omega
    refine ⟨_, by rw [hpixel₁, Option.map_some], ?_, fun c => ?_, fun c hc => ?_⟩
    · rw [Vector.getElem_set, if_neg (by omega), halpha]
    · rw [Fin.getElem_fin, Vector.getElem_set]
      split_ifs with hc
      · rw [(embedBit_spec _ hbit).2]
        have := hupper c
        rw [Fin.getElem_fin] at this
        simp only [hc, this, Fin.getElem_fin]
      · exact hupper c
    · rw [Vector.getElem_set, if_neg, hkept c hc]
      intro hchannel'
      apply hc
      rw [← h.width_eq, hindex, ← hchannel', Nat.div_add_mod]
      exact hmem
  · exact ⟨pixel₁, hpixel₁, halpha, hupper, hkept⟩

/-- What `write_bytes` does at distinct positions of the image. -/
theorem writeBytes_spec (hvalid : ∀ p ∈ positions, p < image.slots) (hnodup : positions.Nodup)
    (hlen : positions.length ≤ image.slots)
    (hfit : (first.length + second.length) * 8 ≤ positions.length) :
    ∃ image', image.writeBytes positions first second = some (.ok image') ∧
      OnlyLow (positions.take ((first.length + second.length) * 8)) image image' ∧
      (positions.take ((first.length + second.length) * 8)).map image'.low =
        (List.range ((first.length + second.length) * 8)).map
          fun k => some (bitAt (first ++ second) k) := by
  have hslots := image.slots_lt
  have hsub : ∀ p ∈ positions.take ((first.length + second.length) * 8), p < image.slots :=
    fun p hp => hvalid p (List.mem_of_mem_take hp)
  have hbits : ∀ i, (chunkBit first second i).toNat < 2 := fun i => by
    rw [chunkBit_eq]
    exact bitAt_lt_two _ _
  obtain ⟨image', himage', -, hlow, -⟩ := medium.embedBits_spec (i := 0) hbits hsub
    (hnodup.sublist (List.take_sublist _ _))
  refine ⟨image', ?_, ?_, ?_⟩
  · rw [writeBytes, totalBits_of_lt (by omega)]
    dsimp only
    rw [if_neg (by omega)]
    exact congrArg (Option.map Except.ok) himage'
  · have hinv : image'.slots = image.slots ∧
        OnlyLow (positions.take ((first.length + second.length) * 8)) image image' := by
      refine embedBits_induction (P := fun image' => image'.slots = image.slots ∧ OnlyLow _ image image')
        (fun image₁ p i image₂ hp hP hput => ?_) himage' ⟨rfl, OnlyLow.refl _ _⟩
      have hp₁ : p < image₁.slots := by
        rw [hP.1]
        exact hsub p hp
      obtain ⟨hwidth, hheight, -⟩ := putLow_spec hp₁ hput
      exact ⟨by rw [← hP.1, slots, slots, hwidth, hheight], hP.2.putLow hp₁ hp (hbits i) hput⟩
    exact hinv.2
  · rw [List.length_take, Nat.min_eq_left hfit, ← List.range_eq_range'] at hlow
    refine hlow.trans ?_
    simp only [chunkBit_eq]

/-- What `read_bytes` returns where the bits of a byte string stand at the positions. -/
theorem readBytes_eq {bitOffset : Nat} (hfit : bitOffset + 8 * source.length ≤ positions.length)
    (hlen : positions.length < 2 ^ 64)
    (hlow : (slice positions bitOffset (8 * source.length)).map image.low =
      (List.range (8 * source.length)).map fun k => some (bitAt source k)) :
    image.readBytes positions bitOffset source.length = some (.ok source) := by
  rw [readBytes, checkedMul_of_lt (by omega)]
  dsimp only
  rw [checkedAdd_of_lt (by omega)]
  dsimp only
  rw [if_neg (by omega), Nat.add_sub_cancel_left, Nat.mul_comm, extractBits_eq hlow, Option.map_some]

end RgbaImage

namespace PngCodec

open RgbaImage

variable {order : ChunkOrder} {file image : RgbaImage} {mode : ChunkWrite}
  {payload orderKey bytes header : List UInt8} {positions : List Nat}

/-- The positions that a write of the chunk chooses. -/
def chosen (order : ChunkOrder) (image : RgbaImage) (mode : ChunkWrite) (payload orderKey : List UInt8) :
    List Nat :=
  match chunkLayout order image mode payload orderKey with
  | .error _ => []
  | .ok (header, positions) => positions.take ((header.length + payload.length) * 8)

/-- The payload fits the image, and the order key has the length that the mode requires. -/
def Fits (image : RgbaImage) (mode : ChunkWrite) (payload orderKey : List UInt8) : Prop :=
  match mode with
  | .framed _ => CHUNK_HEADER_LEN + payload.length ≤ rawCapacity image.width image.height ∧
      payload.length < 2 ^ 32 ∧ orderKey.length = 0
  | .markerless _ => payload.length ≤ rawCapacity image.width image.height ∧ orderKey.length = 32

theorem rawCapacity_mul_le (image : RgbaImage) : rawCapacity image.width image.height * 8 ≤ image.slots :=
  Nat.div_mul_le_self _ _

/-- The layout of a chunk that fits: distinct positions of the image, enough for all bits. -/
structure Layout (image : RgbaImage) (payload header : List UInt8) (positions : List Nat) : Prop where
  valid : ∀ p ∈ positions, p < image.slots
  nodup : positions.Nodup
  length_le : positions.length ≤ image.slots
  enough : (header.length + payload.length) * 8 ≤ positions.length

/-- A row of positions from the start of the image. -/
theorem Layout.range (h : header.length + payload.length ≤ rawCapacity image.width image.height) :
    Layout image payload header (List.range ((header.length + payload.length) * 8)) := by
  have hraw := rawCapacity_mul_le image
  refine ⟨fun p hp => ?_, List.nodup_range, ?_, ?_⟩
  · have := List.mem_range.1 hp
    omega
  · rw [List.length_range]
    omega
  · rw [List.length_range]

theorem chunkLayout_of_fits (order : ChunkOrder) (h : Fits image mode payload orderKey) : ∃ header positions,
    chunkLayout order image mode payload orderKey = .ok (header, positions) ∧
      Layout image payload header positions ∧ match mode with
      | .framed info => header = encodeHeader info (UInt32.ofNat payload.length) ∧
          positions = List.range ((header.length + payload.length) * 8)
      | .markerless chunkIndex => header = [] ∧
          orderPositions order (List.range image.slots) orderKey chunkIndex = .ok positions := by
  cases mode with
  | framed info =>
    obtain ⟨hcapacity, hlen, hkey⟩ := h
    have hkey' : orderKey = [] := List.length_eq_zero_iff.1 hkey
    have hheader := length_encodeHeader info (UInt32.ofNat payload.length)
    refine ⟨_, List.range ((CHUNK_HEADER_LEN + payload.length) * 8), ?_, ?_, rfl, by rw [hheader]⟩
    · rw [chunkLayout]
      rw [if_neg (not_not.2 hkey'), if_neg (by omega), if_neg (by omega)]
    · rw [← hheader]
      exact Layout.range (by rw [hheader]; exact hcapacity)
  | markerless chunkIndex =>
    obtain ⟨hcapacity, hkey⟩ := h
    have hraw := rawCapacity_mul_le image
    obtain ⟨positions, hpositions⟩ :
        ∃ positions, orderPositions order (List.range image.slots) orderKey chunkIndex = .ok positions :=
      ⟨_, orderPositions_eq_ok_iff.2 ⟨hkey, rfl⟩⟩
    have hperm := perm_of_orderPositions hpositions
    refine ⟨[], positions, ?_, ⟨fun p hp => List.mem_range.1 (hperm.mem_iff.1 hp),
      hperm.nodup_iff.2 List.nodup_range, ?_, ?_⟩, rfl, hpositions⟩
    · rw [chunkLayout]
      rw [if_neg (by omega), hpositions]
      rfl
    · rw [hperm.length_eq, List.length_range]
    · rw [hperm.length_eq, List.length_range, List.length_nil]
      omega

theorem chunkLayout_of_not_fits (order : ChunkOrder) (h : ¬Fits image mode payload orderKey) :
    ∃ e, chunkLayout order image mode payload orderKey = .error e := by
  cases mode with
  | framed info =>
    rw [chunkLayout]
    split_ifs with hkey hlen hcapacity
    · exact ⟨_, rfl⟩
    · exact ⟨_, rfl⟩
    · exact ⟨_, rfl⟩
    · exact absurd ⟨by omega, by omega, by rw [not_not.1 hkey]; rfl⟩ h
  | markerless chunkIndex =>
    rw [chunkLayout]
    split_ifs with hcapacity
    · exact ⟨_, rfl⟩
    · have hkey : orderKey.length ≠ 32 := fun hkey => h ⟨by omega, hkey⟩
      refine ⟨.invalidMode "markerless mode requires a 32-byte order key", ?_⟩
      rw [orderPositions, if_pos hkey]
      rfl

/-- A chunk that fits is written, and what was written is read back. -/
theorem writeChunk_of_fits (order : ChunkOrder) (h : Fits file mode payload orderKey) : ∃ image,
    writeChunk order file mode payload orderKey = (some (.ok ()), image) ∧
      OnlyLow (chosen order file mode payload orderKey) file image ∧
      readChunk order image (mode.readBack payload) orderKey = some (.ok (mode.info, payload)) := by
  obtain ⟨header, positions, hlayout, hpositions, hmode⟩ := chunkLayout_of_fits order h
  obtain ⟨image, hwrite, honly, hlow⟩ := writeBytes_spec hpositions.valid hpositions.nodup
    hpositions.length_le hpositions.enough
  have hslots : image.slots = file.slots := by rw [slots, slots, honly.width_eq, honly.height_eq]
  have hraw := rawCapacity_mul_le image
  have hslotsLt := image.slots_lt
  refine ⟨image, ?_, ?_, ?_⟩
  · rw [writeChunk, hlayout]
    dsimp only
    rw [hwrite, saveAtomic]
  · rwa [chosen, hlayout]
  cases mode with
  | framed info =>
    obtain ⟨rfl, rfl⟩ := hmode
    obtain ⟨hcapacity, hlen, hkey⟩ := h
    have hcapacity' : CHUNK_HEADER_LEN + payload.length ≤ rawCapacity image.width image.height := by
      rwa [honly.width_eq, honly.height_eq]
    have hheader := length_encodeHeader info (UInt32.ofNat payload.length)
    have htoNat : (UInt32.ofNat payload.length).toNat = payload.length :=
      UInt32.toNat_ofNat_of_lt' hlen
    rw [List.take_of_length_le (by rw [List.length_range]), ← List.length_append, Nat.mul_comm] at hlow
    have hrow : ((List.range image.slots).take
        (8 * (encodeHeader info (UInt32.ofNat payload.length) ++ payload).length)).map image.low =
          (List.range (8 * (encodeHeader info (UInt32.ofNat payload.length) ++ payload).length)).map
            fun k => some (bitAt (encodeHeader info (UInt32.ofNat payload.length) ++ payload) k) := by
      rw [List.take_range, Nat.min_eq_left (by rw [List.length_append]; omega), hlow]
    have hread : image.readBytes (List.range image.slots) 0 CHUNK_HEADER_LEN =
        some (.ok (encodeHeader info (UInt32.ofNat payload.length))) := by
      rw [← hheader]
      refine readBytes_eq ?_ ?_ ?_
      · rw [List.length_range]
        omega
      · rw [List.length_range]
        omega
      · refine map_slice_low hrow (fun k hk => ?_) (by rw [List.length_append]; omega)
        rw [Nat.zero_add, bitAt_append_left hk]
    have hreadPayload : image.readBytes (List.range image.slots) (CHUNK_HEADER_LEN * 8) payload.length =
        some (.ok payload) := by
      refine readBytes_eq ?_ ?_ ?_
      · rw [List.length_range]
        omega
      · rw [List.length_range]
        omega
      · refine map_slice_low hrow (fun k _ => ?_) (by rw [List.length_append]; omega)
        rw [← hheader, Nat.mul_comm, bitAt_append_right]
    rw [ChunkWrite.readBack, readChunk, if_neg (not_not.2 (List.length_eq_zero_iff.1 hkey)), hread]
    simp only [bind, Option.bind, decodeHeader_encodeHeader, htoNat, hreadPayload]
    rw [if_neg (by omega)]
    rfl
  | markerless chunkIndex =>
    obtain ⟨rfl, horder⟩ := hmode
    obtain ⟨hcapacity, hkey⟩ := h
    rw [List.length_nil, Nat.zero_add, Nat.mul_comm, List.nil_append] at hlow
    have hlength := hpositions.enough
    rw [List.length_nil, Nat.zero_add] at hlength
    have hle := hpositions.length_le
    have hread : image.readBytes positions 0 payload.length = some (.ok payload) := by
      refine readBytes_eq (by omega) (by omega) ?_
      rw [slice, List.drop_zero, hlow]
    rw [ChunkWrite.readBack, readChunk, if_neg (by rw [honly.width_eq, honly.height_eq]; omega), hslots,
      horder]
    simp only [bind, Option.bind, hread]
    rfl

/-- What is written as a prefix is read back. -/
theorem writePrefix_of_le (h : bytes.length ≤ rawCapacity file.width file.height) : ∃ image,
    writePrefix file bytes = (some (.ok ()), image) ∧
      OnlyLow (List.range (bytes.length * 8)) file image ∧
      readPrefix image bytes.length = some (.ok bytes) := by
  have hpositions : Layout file bytes [] (List.range (bytes.length * 8)) := by
    have := @Layout.range file bytes [] (by rwa [List.length_nil, Nat.zero_add])
    rwa [List.length_nil, Nat.zero_add] at this
  obtain ⟨image, hwrite, honly, hlow⟩ := writeBytes_spec hpositions.valid hpositions.nodup
    hpositions.length_le hpositions.enough
  have hraw := rawCapacity_mul_le file
  have hslotsLt := file.slots_lt
  rw [List.length_nil, Nat.zero_add, List.take_of_length_le (by rw [List.length_range])] at honly hlow
  refine ⟨image, ?_, honly, ?_⟩
  · rw [writePrefix, if_neg (by omega), hwrite, saveAtomic]
  · rw [readPrefix, if_neg (by rw [honly.width_eq, honly.height_eq]; omega)]
    refine readBytes_eq ?_ ?_ ?_
    · rw [List.length_range]
      omega
    · rw [List.length_range]
      omega
    · rw [List.nil_append, Nat.mul_comm] at hlow
      rw [slice, List.drop_zero, List.take_of_length_le (by rw [List.length_range]; omega), Nat.mul_comm,
        hlow]

/-- A chunk is written exactly when it fits. Then it is read back, and nothing but low bits at the
chosen positions has changed. A failed write leaves the file alone. The same holds for prefixes. -/
theorem reads_back_exactly (order : ChunkOrder) (file : RgbaImage) :
    (∀ mode payload orderKey,
      ((writeChunk order file mode payload orderKey).1 = some (.ok ()) ↔
        Fits file mode payload orderKey) ∧
      ((writeChunk order file mode payload orderKey).1 = some (.ok ()) →
        OnlyLow (chosen order file mode payload orderKey) file
            (writeChunk order file mode payload orderKey).2 ∧
          readChunk order (writeChunk order file mode payload orderKey).2 (mode.readBack payload) orderKey =
            some (.ok (mode.info, payload))) ∧
      ((writeChunk order file mode payload orderKey).1 ≠ some (.ok ()) →
        ∃ e, writeChunk order file mode payload orderKey = (some (.error e), file))) ∧
    ∀ bytes,
      ((writePrefix file bytes).1 = some (.ok ()) ↔ bytes.length ≤ rawCapacity file.width file.height) ∧
      ((writePrefix file bytes).1 = some (.ok ()) →
        OnlyLow (List.range (bytes.length * 8)) file (writePrefix file bytes).2 ∧
          readPrefix (writePrefix file bytes).2 bytes.length = some (.ok bytes)) ∧
      ((writePrefix file bytes).1 ≠ some (.ok ()) →
        ∃ e, writePrefix file bytes = (some (.error e), file)) := by
  constructor
  · intro mode payload orderKey
    by_cases h : Fits file mode payload orderKey
    · obtain ⟨image, hwrite, honly, hread⟩ := writeChunk_of_fits order h
      rw [hwrite]
      exact ⟨⟨fun _ => h, fun _ => rfl⟩, fun _ => ⟨honly, hread⟩, fun hne => absurd rfl hne⟩
    · obtain ⟨e, he⟩ := chunkLayout_of_not_fits order h
      have hwrite : writeChunk order file mode payload orderKey = (some (.error e), file) := by
        rw [writeChunk, he]
      rw [hwrite]
      exact ⟨⟨fun hok => by simp at hok, fun hfits => absurd hfits h⟩, fun hok => by simp at hok,
        fun _ => ⟨e, rfl⟩⟩
  · intro bytes
    by_cases h : bytes.length ≤ rawCapacity file.width file.height
    · obtain ⟨image, hwrite, honly, hread⟩ := writePrefix_of_le h
      rw [hwrite]
      exact ⟨⟨fun _ => h, fun _ => rfl⟩, fun _ => ⟨honly, hread⟩, fun hne => absurd rfl hne⟩
    · have hwrite : writePrefix file bytes =
          (some (.error (.payloadTooLarge bytes.length (rawCapacity file.width file.height))), file) := by
        rw [writePrefix, if_pos (by omega)]
      rw [hwrite]
      exact ⟨⟨fun hok => by simp at hok, fun hfits => absurd hfits h⟩, fun hok => by simp at hok,
        fun _ => ⟨_, rfl⟩⟩

/-- A black image of ten by five pixels. -/
def smallImage : RgbaImage where
  width := 10
  height := 5
  pixels := Vector.replicate _ #v[0, 0, 0, 255]
  size_lt := by decide

/-- A black pixel. -/
def black : Vector UInt8 4 := #v[0, 0, 0, 255]

theorem reads_back_exactly_smallImage (order : ChunkOrder) :
    readChunk order (writeChunk order smallImage (.framed ⟨3, 0⟩) [1, 2] []).2 .framed [] =
      some (.ok (⟨3, 0⟩, [1, 2])) := by
  have h := (reads_back_exactly order smallImage).1 (.framed ⟨3, 0⟩) [1, 2] []
  have hfits : Fits smallImage (.framed ⟨3, 0⟩) [1, 2] [] := ⟨by decide, by decide, rfl⟩
  exact (h.2.1 (h.1.2 hfits)).2

end PngCodec

end AlbumFS
