import AlbumFS.Lib.Prog
import AlbumFS.Stego.Chunk

/-!
# The JPEG codec

`stego/jpeg.rs`: a chunk is kept in the low bits of the magnitudes of quantized coefficients. Usable
are the coefficients other than the first of each block whose magnitude is at least two. Reading
computes the usable positions from the modified image again, so writing must not change them.

The coefficients that libjpeg reads from a file are those that were stored in it, so a file is its
coefficients. Storing can fail with a message, which is left to the function `stores`.

## Main definitions

* `JpegImage`: the coefficients of an image.
* `JpegCodec.writeChunk`, `JpegCodec.readChunk`, `JpegCodec.writePrefix`, `JpegCodec.readPrefix`.
* `JpegWrite`: a call that writes, and the runs of such calls.

## Main results

* `JpegWrite.runs_read_back`: after any calls, what is written is read back, the usable positions are those of
  the original image, and all coefficients but those at the chosen positions are unchanged.
-/

namespace AlbumFS

abbrev JpegBlock := Vector Int16 64

structure JpegImage where
  components : List (List JpegBlock)

namespace JpegImage

/-- `i32::from(c).unsigned_abs()`. -/
def magnitude (c : Int16) : Nat := c.toInt.natAbs

/-- The usable positions of one block. -/
def blockPositions (globalBlock : Nat) (block : JpegBlock) : List Nat :=
  (((List.range 64).drop 1).filter fun index =>
    (block[index]?).any fun coefficient => decide (2 ≤ magnitude coefficient)).map
      fun index => globalBlock * 64 + index

/-- The loops of `usable_positions` over the blocks of a component and over the components. -/
def usablePositions (image : JpegImage) : List Nat :=
  (image.components.foldl
    (fun (state : List Nat × Nat) component =>
      component.foldl (fun state block => (state.1 ++ blockPositions state.2 block, state.2 + 1)) state)
    ([], 0)).1

def rawCapacity (image : JpegImage) : Nat := image.usablePositions.length / 8

/-- The loop of `coefficient` over the components. -/
def coefficientIn : List (List JpegBlock) → Nat → Nat → Option Int16
  | [], _, _ => none
  | component :: components, blockIndex, coefficientIndex =>
    if blockIndex < component.length then
      (component[blockIndex]?).bind fun block => block[coefficientIndex]?
    else
      coefficientIn components (blockIndex - component.length) coefficientIndex

def coefficient (image : JpegImage) (position : Nat) : Option Int16 :=
  coefficientIn image.components (position / 64) (position % 64)

/-- The loop of `coefficient_mut` and an assignment through its result. -/
def modifyIn (f : Int16 → Int16) : List (List JpegBlock) → Nat → Nat → Option (List (List JpegBlock))
  | [], _, _ => none
  | component :: components, blockIndex, coefficientIndex =>
    if blockIndex < component.length then
      (component[blockIndex]?).bind fun block =>
        (block[coefficientIndex]?).map fun value =>
          component.set blockIndex (block.setIfInBounds coefficientIndex (f value)) :: components
    else
      (modifyIn f components (blockIndex - component.length) coefficientIndex).map (component :: ·)

/-- The coefficient with the low bit of its magnitude replaced, as an `i16`. -/
def embedBit (bit : UInt8) (value : Int16) : Int16 :=
  let embedded : Int := ((magnitude value &&& 0xFFFFFFFE) ||| bit.toNat : Nat)
  Int16.ofInt (if value.toInt < 0 then -embedded else embedded)

/-- The body of the loop of `embed_bytes`. -/
def putLow (image : JpegImage) (position : Nat) (bit : UInt8) : Option JpegImage :=
  (modifyIn (embedBit bit) image.components (position / 64) (position % 64)).map JpegImage.mk

/-- The bit that the body of the loop of `extract_bytes` reads. -/
def low (image : JpegImage) (position : Nat) : Option UInt8 :=
  (image.coefficient position).map fun value => UInt8.ofNat (magnitude value &&& 1)

def embedBytes (image : JpegImage) (positions : List Nat) (first second : List UInt8) :
    Except CodecError JpegImage :=
  match totalBits first second with
  | none => .error (.invalidMode "payload bit length overflow")
  | some totalBits =>
    if positions.length < totalBits then
      .error (.payloadTooLarge second.length (positions.length / 8))
    else
      match embedBits putLow (chunkBit first second) image 0 (positions.take totalBits) with
      | none => .error (.jpeg "usable coefficient position went out of range")
      | some image => .ok image

def extractBytes (image : JpegImage) (positions : List Nat) (bitOffset length : Nat) :
    Except CodecError (List UInt8) :=
  match checkedMul length 8 with
  | none => .error (.invalidMode "payload bit length overflow")
  | some bitLength =>
    match checkedAdd bitOffset bitLength with
    | none => .error (.invalidMode "payload bit range overflow")
    | some stop =>
      if stop > positions.length then
        .error .notACarrier
      else
        match extractBits image.low (List.replicate length 0) 0
            (slice positions bitOffset (stop - bitOffset)) with
        | none => .error (.jpeg "usable coefficient position went out of range")
        | some bytes => .ok bytes

theorem length_extractBytes {image : JpegImage} {positions : List Nat} {bitOffset length : Nat}
    {bytes : List UInt8} (h : image.extractBytes positions bitOffset length = .ok bytes) :
    bytes.length = length := by
  unfold extractBytes at h
  split at h
  · cases h
  split at h
  · cases h
  split_ifs at h
  split at h
  · cases h
  · rename_i hbits
    obtain rfl := Except.ok.inj h
    rw [length_extractBits hbits, List.length_replicate]

/-! ### The row of blocks -/

variable {image image' : JpegImage} {components components' : List (List JpegBlock)} {p q b k : Nat}
  {bit : UInt8} {f : Int16 → Int16}

theorem coefficientIn_eq (components : List (List JpegBlock)) (b k : Nat) :
    coefficientIn components b k = (components.flatten[b]?).bind fun block => block[k]? := by
  induction components generalizing b with
  | nil => simp [coefficientIn]
  | cons component components ih =>
    rw [coefficientIn, List.flatten_cons, List.getElem?_append]
    split_ifs
    · rfl
    · exact ih _

/-- What an assignment through `coefficient_mut` does. -/
theorem modifyIn_spec (h : modifyIn f components b k = some components') :
    components'.map List.length = components.map List.length ∧ ∀ b' k',
      coefficientIn components' b' k' =
        if b' = b ∧ k' = k then (coefficientIn components b' k').map f else coefficientIn components b' k' := by
  induction components generalizing b components' with
  | nil => cases h
  | cons component components ih =>
    rw [modifyIn] at h
    split_ifs at h with hb
    · obtain ⟨block, hblock, h⟩ := Option.bind_eq_some_iff.1 h
      obtain ⟨value, hvalue, rfl⟩ := Option.map_eq_some_iff.1 h
      refine ⟨by simp, fun b' k' => ?_⟩
      rw [coefficientIn, coefficientIn, List.length_set]
      by_cases hb' : b' < component.length
      · rw [if_pos hb', if_pos hb', List.getElem?_set]
        by_cases hbb : b = b'
        · subst hbb
          rw [if_pos rfl, if_pos hb, hblock, Option.bind_some, Option.bind_some,
            Vector.getElem?_setIfInBounds]
          by_cases hkk : k = k'
          · subst hkk
            have hk : k < 64 := by
              rw [Vector.getElem?_eq_some_iff] at hvalue
              exact hvalue.1
            rw [if_pos rfl, if_pos hk, if_pos ⟨rfl, rfl⟩, hvalue, Option.map_some]
          · rw [if_neg hkk, if_neg (fun h => hkk h.2.symm)]
        · rw [if_neg hbb, if_neg (fun h => hbb h.1.symm)]
      · rw [if_neg hb', if_neg hb', if_neg (show ¬(b' = b ∧ k' = k) from fun h => hb' (h.1 ▸ hb))]
    · obtain ⟨rest, hrest, rfl⟩ := Option.map_eq_some_iff.1 h
      obtain ⟨hlen, hcoefficient⟩ := ih hrest
      refine ⟨by rw [List.map_cons, List.map_cons, hlen], fun b' k' => ?_⟩
      rw [coefficientIn, coefficientIn]
      by_cases hb' : b' < component.length
      · rw [if_pos hb', if_pos hb', if_neg (show ¬(b' = b ∧ k' = k) from fun h => hb (h.1 ▸ hb'))]
      · rw [if_neg hb', if_neg hb', hcoefficient]
        have hiff : b' - component.length = b - component.length ∧ k' = k ↔ b' = b ∧ k' = k := by omega
        simp only [hiff]

/-- An assignment through `coefficient_mut` succeeds where there is a coefficient. -/
theorem modifyIn_isSome {value : Int16} (h : coefficientIn components b k = some value) :
    ∃ components', modifyIn f components b k = some components' := by
  induction components generalizing b with
  | nil => cases h
  | cons component components ih =>
    rw [coefficientIn] at h
    rw [modifyIn]
    split_ifs at h ⊢ with hb
    · obtain ⟨block, hblock, hvalue⟩ := Option.bind_eq_some_iff.1 h
      exact ⟨_, by rw [hblock, Option.bind_some, hvalue, Option.map_some]⟩
    · obtain ⟨rest, hrest⟩ := ih h
      exact ⟨_, by rw [hrest, Option.map_some]⟩

/-! ### Usable positions -/

/-- A coefficient that may carry a bit. -/
def usable (image : JpegImage) (p : Nat) : Bool :=
  decide (p % 64 ≠ 0) && (image.coefficient p).any fun value => decide (2 ≤ magnitude value)

theorem blockPositions_eq (globalBlock : Nat) (block : JpegBlock) :
    blockPositions globalBlock block = (List.range' (globalBlock * 64) 64).filter fun p =>
      decide (p % 64 ≠ 0) && (block[p % 64]?).any fun value => decide (2 ≤ magnitude value) := by
  have hrange : List.range' (globalBlock * 64) 64 =
      globalBlock * 64 :: ((List.range 64).drop 1).map fun index => globalBlock * 64 + index := by
    rw [List.range'_eq_map_range]
    rfl
  rw [hrange, List.filter_cons_of_neg (by simp), List.filter_map, blockPositions]
  congr 1
  apply List.filter_congr
  intro index hindex
  have hlt : index < 64 := List.mem_range.1 (List.mem_of_mem_drop hindex)
  have hne : index ≠ 0 := by
    rintro rfl
    exact absurd hindex (by decide)
  have hmod : (globalBlock * 64 + index) % 64 = index := by omega
  rw [Function.comp_apply, hmod, decide_eq_true hne, Bool.true_and]

theorem foldl_blockPositions (blocks : List JpegBlock) (positions : List Nat) (globalBlock : Nat) :
    blocks.foldl (fun (state : List Nat × Nat) block =>
        (state.1 ++ blockPositions state.2 block, state.2 + 1)) (positions, globalBlock) =
      (positions ++ (List.range' (globalBlock * 64) (blocks.length * 64)).filter fun p =>
        decide (p % 64 ≠ 0) && ((blocks[p / 64 - globalBlock]?).bind fun block => block[p % 64]?).any
          fun value => decide (2 ≤ magnitude value), globalBlock + blocks.length) := by
  induction blocks generalizing positions globalBlock with
  | nil => simp
  | cons block blocks ih =>
    have hrange : List.range' (globalBlock * 64) ((blocks.length + 1) * 64) =
        List.range' (globalBlock * 64) 64 ++ List.range' ((globalBlock + 1) * 64) (blocks.length * 64) := by
      rw [show (blocks.length + 1) * 64 = 64 + blocks.length * 64 by omega, ← List.range'_append,
        Nat.one_mul, Nat.add_mul, Nat.one_mul]
    rw [List.foldl_cons, ih, List.length_cons, hrange, List.filter_append, blockPositions_eq,
      List.append_assoc]
    dsimp only
    rw [Prod.mk.injEq]
    refine ⟨congrArg _ (congrArg₂ _ ?_ ?_), by omega⟩
    · apply List.filter_congr
      intro p hp
      have hp' := List.mem_range'_1.1 hp
      rw [show p / 64 - globalBlock = 0 by omega]
      rfl
    · apply List.filter_congr
      intro p hp
      have hp' := List.mem_range'_1.1 hp
      rw [show p / 64 - globalBlock = p / 64 - (globalBlock + 1) + 1 by omega]
      rfl

/-- The usable positions are those of the usable coefficients, in ascending order. -/
theorem usablePositions_eq (image : JpegImage) :
    image.usablePositions = (List.range (image.components.flatten.length * 64)).filter image.usable := by
  rw [usablePositions, ← List.foldl_flatten, foldl_blockPositions, List.nil_append, Nat.zero_mul,
    ← List.range_eq_range']
  apply List.filter_congr
  intro p _
  rw [usable, coefficient, coefficientIn_eq, Nat.sub_zero]

theorem coefficient_eq_none (h : image.components.flatten.length * 64 ≤ p) : image.coefficient p = none := by
  rw [coefficient, coefficientIn_eq, List.getElem?_eq_none (by omega), Option.bind_none]

theorem mem_usablePositions : p ∈ image.usablePositions ↔ image.usable p = true := by
  rw [usablePositions_eq, List.mem_filter, List.mem_range, and_iff_right_iff_imp]
  intro h
  by_contra hp
  rw [usable, coefficient_eq_none (Nat.not_lt.1 hp)] at h
  simp at h

theorem nodup_usablePositions (image : JpegImage) : image.usablePositions.Nodup := by
  rw [usablePositions_eq]
  exact List.nodup_range.filter _

/-! ### One position -/

/-- `(magnitude & !1) | bit`. -/
theorem mask_or {m bit : Nat} (hm : m < 2 ^ 32) (hbit : bit < 2) :
    ((m &&& 0xFFFFFFFE) ||| bit) = m / 2 * 2 + bit := by
  have hdiv : ((m &&& 0xFFFFFFFE) ||| bit) / 2 = m / 2 := by
    have hmask : (0xFFFFFFFE : Nat) / 2 = 2 ^ 31 - 1 := by decide
    rw [Nat.or_div_two, Nat.and_div_two, hmask, Nat.and_two_pow_sub_one_eq_mod, Nat.div_eq_of_lt hbit,
      Nat.or_zero, Nat.mod_eq_of_lt (by omega)]
  have hmod : ((m &&& 0xFFFFFFFE) ||| bit) % 2 = 1 ↔ bit % 2 = 1 := by
    rw [Nat.or_mod_two_eq_one, Nat.and_mod_two_eq_one]
    exact or_iff_right fun h => absurd h.2 (by decide)
  omega

/-- Embedding a bit keeps a usable coefficient usable, and the bit is the low one of its magnitude.
The least `i16` changes its sign, since its magnitude plus one is not the negation of an `i16`. -/
theorem embedBit_spec {value : Int16} (hvalue : 2 ≤ magnitude value) (hbit : bit.toNat < 2) :
    2 ≤ magnitude (embedBit bit value) ∧ magnitude (embedBit bit value) % 2 = bit.toNat := by
  have hlt := value.toInt_lt
  have hle := value.le_toInt
  unfold magnitude at hvalue
  have hembed : embedBit bit value = Int16.ofInt (if value.toInt < 0 then
      -((value.toInt.natAbs / 2 * 2 + bit.toNat : Nat) : Int)
      else ((value.toInt.natAbs / 2 * 2 + bit.toNat : Nat) : Int)) := by
    rw [embedBit, magnitude, mask_or (by omega) hbit]
  rw [hembed, magnitude, Int16.toInt_ofInt]
  simp only [Int.bmod_def, Int16.size, Nat.cast_ofNat]
  split_ifs <;> omega

theorem putLow_spec (h : putLow image p bit = some image') :
    image'.components.map List.length = image.components.map List.length ∧ ∀ q,
      image'.coefficient q =
        if q = p then (image.coefficient q).map (embedBit bit) else image.coefficient q := by
  obtain ⟨components, hmodify, rfl⟩ := Option.map_eq_some_iff.1 h
  obtain ⟨hlen, hcoefficient⟩ := modifyIn_spec hmodify
  refine ⟨hlen, fun q => ?_⟩
  have hiff : q / 64 = p / 64 ∧ q % 64 = p % 64 ↔ q = p := by omega
  rw [coefficient, hcoefficient, coefficient]
  simp only [hiff]

theorem usable_iff : image.usable p = true ↔
    p % 64 ≠ 0 ∧ ∃ value, image.coefficient p = some value ∧ 2 ≤ magnitude value := by
  rw [usable, Bool.and_eq_true, decide_eq_true_iff]
  cases image.coefficient p <;> simp

/-- Writing a bit at a usable position changes no usable position. -/
theorem usable_putLow (hp : image.usable p = true) (hbit : bit.toNat < 2)
    (h : putLow image p bit = some image') : image'.usable = image.usable := by
  obtain ⟨-, hcoefficient⟩ := putLow_spec h
  funext q
  by_cases hq : q = p
  · subst hq
    obtain ⟨hmod, value, hvalue, hmagnitude⟩ := usable_iff.1 hp
    rw [hp, usable_iff]
    exact ⟨hmod, embedBit bit value, by rw [hcoefficient, if_pos rfl, hvalue, Option.map_some],
      (embedBit_spec hmagnitude hbit).1⟩
  · rw [usable, usable, hcoefficient, if_neg hq]

theorem usablePositions_congr
    (hlen : image'.components.map List.length = image.components.map List.length)
    (h : image'.usable = image.usable) : image'.usablePositions = image.usablePositions := by
  rw [usablePositions_eq, usablePositions_eq, h, List.length_flatten, List.length_flatten, hlen]

/-- An image as a medium: the low bits of its usable coefficients. -/
def medium : Medium JpegImage where
  put := putLow
  low := low
  valid image p := image.usable p = true
  put_isSome := by
    intro image p bit hp _
    obtain ⟨-, value, hvalue, -⟩ := usable_iff.1 hp
    obtain ⟨components, hcomponents⟩ := modifyIn_isSome (f := embedBit bit) hvalue
    exact ⟨⟨components⟩, by rw [putLow, hcomponents, Option.map_some]⟩
  valid_put := by
    intro image p bit image' hp hbit h q
    rw [usable_putLow hp hbit h]
  low_put_self := by
    intro image p bit image' hp hbit h
    obtain ⟨-, value, hvalue, hmagnitude⟩ := usable_iff.1 hp
    rw [low, (putLow_spec h).2, if_pos rfl, hvalue, Option.map_some, Option.map_some, Nat.and_one_is_mod,
      (embedBit_spec hmagnitude hbit).2, UInt8.ofNat_toNat]
  low_put_of_ne := by
    intro image p q bit image' _ _ hne _ h
    rw [low, (putLow_spec h).2, if_neg hne.symm, low]

/-! ### Byte strings -/

variable {positions : List Nat} {first second source : List UInt8}

/-- The usable positions of both images are the same, and the coefficients of all positions but the
chosen ones. -/
structure OnlyChosen (chosen : List Nat) (before after : JpegImage) : Prop where
  length_eq : after.components.map List.length = before.components.map List.length
  usable_eq : after.usable = before.usable
  coefficient_eq : ∀ p ∉ chosen, after.coefficient p = before.coefficient p

theorem OnlyChosen.refl (chosen : List Nat) (image : JpegImage) : OnlyChosen chosen image image :=
  ⟨rfl, rfl, fun _ _ => rfl⟩

theorem OnlyChosen.usablePositions_eq {chosen : List Nat} (h : OnlyChosen chosen image image') :
    image'.usablePositions = image.usablePositions :=
  usablePositions_congr h.length_eq h.usable_eq

theorem OnlyChosen.rawCapacity_eq {chosen : List Nat} (h : OnlyChosen chosen image image') :
    image'.rawCapacity = image.rawCapacity := by
  rw [rawCapacity, rawCapacity, h.usablePositions_eq]

/-- What `embed_bytes` does at distinct usable positions, when it succeeds. -/
theorem embedBytes_spec (hvalid : ∀ p ∈ positions, image.usable p = true) (hnodup : positions.Nodup)
    (h : image.embedBytes positions first second = .ok image') :
    (first.length + second.length) * 8 < 2 ^ 64 ∧
      (first.length + second.length) * 8 ≤ positions.length ∧
      OnlyChosen (positions.take ((first.length + second.length) * 8)) image image' ∧
      (positions.take (8 * (first ++ second).length)).map image'.low =
        (List.range (8 * (first ++ second).length)).map fun k => some (bitAt (first ++ second) k) := by
  have hsub : ∀ p ∈ positions.take ((first.length + second.length) * 8), image.usable p = true :=
    fun p hp => hvalid p (List.mem_of_mem_take hp)
  have hbits : ∀ i, (chunkBit first second i).toNat < 2 := fun i => by
    rw [chunkBit_eq]
    exact bitAt_lt_two _ _
  rw [embedBytes] at h
  cases htotal : totalBits first second with
  | none => simp [htotal] at h
  | some n =>
    obtain ⟨rfl, hlt⟩ := totalBits_eq_some_iff.1 htotal
    rw [htotal] at h
    dsimp only at h
    split_ifs at h with hfit
    obtain ⟨image'', himage'', -, hlow, -⟩ := medium.embedBits_spec (i := 0) hbits hsub
      (hnodup.sublist (List.take_sublist _ _))
    have himage : embedBits putLow (chunkBit first second) image 0
        (positions.take ((first.length + second.length) * 8)) = some image'' := himage''
    rw [himage] at h
    obtain rfl := Except.ok.inj h
    refine ⟨hlt, Nat.not_lt.1 hfit, ?_, ?_⟩
    · refine embedBits_induction (P := fun image' => OnlyChosen _ image image')
        (fun image₁ p i image₂ hp hP hput => ?_) himage (OnlyChosen.refl _ _)
      have hp₁ : image₁.usable p = true := by
        rw [hP.usable_eq]
        exact hsub p hp
      obtain ⟨hlen, hcoefficient⟩ := putLow_spec hput
      refine ⟨hlen.trans hP.length_eq, (usable_putLow hp₁ (hbits i) hput).trans hP.usable_eq,
        fun q hq => ?_⟩
      have hqp : q ≠ p := fun hqp => hq (by rwa [hqp])
      rw [hcoefficient, if_neg hqp, hP.coefficient_eq q hq]
    · rw [List.length_take, Nat.min_eq_left (Nat.not_lt.1 hfit), ← List.range_eq_range'] at hlow
      rw [List.length_append, Nat.mul_comm]
      refine hlow.trans ?_
      simp only [chunkBit_eq]

/-- What `extract_bytes` returns where the bits of a byte string stand at the positions. -/
theorem extractBytes_eq {bitOffset : Nat} (hfit : bitOffset + 8 * source.length ≤ positions.length)
    (hlt : bitOffset + 8 * source.length < 2 ^ 64)
    (hlow : (slice positions bitOffset (8 * source.length)).map image.low =
      (List.range (8 * source.length)).map fun k => some (bitAt source k)) :
    image.extractBytes positions bitOffset source.length = .ok source := by
  rw [extractBytes, checkedMul_of_lt (by omega)]
  dsimp only
  rw [checkedAdd_of_lt (by omega)]
  dsimp only
  rw [if_neg (by omega), Nat.add_sub_cancel_left, Nat.mul_comm, extractBits_eq hlow]

end JpegImage

namespace JpegCodec

open JpegImage

/-- The result of a call and the file that it leaves behind. -/
abbrev Written := Except CodecError Unit × JpegImage

/-- The header and the ordered positions of a chunk to be written. -/
def chunkLayout (order : ChunkOrder) (image : JpegImage) (mode : ChunkWrite)
    (payload orderKey : List UInt8) : Except CodecError (List UInt8 × List Nat) :=
  match mode with
  | .framed info =>
    if orderKey ≠ [] then
      .error (.invalidMode "framed mode requires an empty order key")
    else if payload.length > 2 ^ 32 - 1 ∨ CHUNK_HEADER_LEN + payload.length > image.rawCapacity then
      .error (.payloadTooLarge payload.length (image.rawCapacity - CHUNK_HEADER_LEN))
    else
      .ok (encodeHeader info (UInt32.ofNat payload.length), image.usablePositions)
  | .markerless chunkIndex =>
    if payload.length > image.rawCapacity then
      .error (.payloadTooLarge payload.length image.rawCapacity)
    else
      (orderPositions order image.usablePositions orderKey chunkIndex).map fun positions => ([], positions)

/-- The end of a call that writes: `write_coefficients`, and the rename over the file. -/
def store (stores : JpegImage → JpegImage → Option String) (file : JpegImage) :
    Except CodecError JpegImage → Written
  | .error e => (.error e, file)
  | .ok image =>
    match stores file image with
    | some message => (.error (.jpeg message), file)
    | none => (.ok (), image)

def writeChunk (order : ChunkOrder) (stores : JpegImage → JpegImage → Option String) (file : JpegImage)
    (mode : ChunkWrite) (payload orderKey : List UInt8) : Written :=
  match chunkLayout order file mode payload orderKey with
  | .error e => (.error e, file)
  | .ok (header, positions) => store stores file (file.embedBytes positions header payload)

def readChunk (order : ChunkOrder) (file : JpegImage) (mode : ChunkRead) (orderKey : List UInt8) :
    Except CodecError (ChunkMeta × List UInt8) :=
  match mode with
  | .framed =>
    if orderKey ≠ [] then
      .error (.invalidMode "framed mode requires an empty order key")
    else do
      let header ← file.extractBytes file.usablePositions 0 CHUNK_HEADER_LEN
      let (info, payloadLen) ← decodeHeader header
      if payloadLen.toNat > file.rawCapacity - CHUNK_HEADER_LEN then
        .error .notACarrier
      else do
        let payload ← file.extractBytes file.usablePositions (CHUNK_HEADER_LEN * 8) payloadLen.toNat
        .ok (info, payload)
  | .markerless chunkIndex payloadLen =>
    if payloadLen > file.rawCapacity then
      .error .notACarrier
    else do
      let positions ← orderPositions order file.usablePositions orderKey chunkIndex
      let payload ← file.extractBytes positions 0 payloadLen
      .ok ({ chunkIndex, flags := 0 }, payload)

/-- A framed payload fits the image. -/
theorem length_readChunk_framed {order : ChunkOrder} {file : JpegImage} {orderKey payload : List UInt8}
    {info : ChunkMeta} (h : readChunk order file .framed orderKey = .ok (info, payload)) :
    payload.length ≤ file.rawCapacity - CHUNK_HEADER_LEN := by
  rw [readChunk] at h
  split_ifs at h
  obtain ⟨header, -, h⟩ := Prog.except_bind_ok h
  obtain ⟨⟨info', payloadLen⟩, -, h⟩ := Prog.except_bind_ok h
  obtain ⟨hle, h⟩ := Prog.except_ite_ok h
  obtain ⟨payload', hread, h⟩ := Prog.except_bind_ok h
  obtain ⟨-, rfl⟩ := Prod.mk.inj (Except.ok.inj h)
  rw [JpegImage.length_extractBytes hread]
  exact Nat.not_lt.1 hle

def writePrefix (stores : JpegImage → JpegImage → Option String) (file : JpegImage) (bytes : List UInt8) :
    Written :=
  if bytes.length > file.rawCapacity then
    (.error (.payloadTooLarge bytes.length file.rawCapacity), file)
  else
    store stores file (file.embedBytes file.usablePositions [] bytes)

def readPrefix (file : JpegImage) (length : Nat) : Except CodecError (List UInt8) :=
  if length > file.rawCapacity then
    .error .notACarrier
  else
    file.extractBytes file.usablePositions 0 length

/-! ### Whole chunks -/

variable {order : ChunkOrder} {stores : JpegImage → JpegImage → Option String} {file image : JpegImage}
  {mode : ChunkWrite} {payload orderKey bytes header : List UInt8} {positions : List Nat}
  {result : Except CodecError JpegImage}

/-- The positions that a write of the chunk chooses. -/
def chosen (order : ChunkOrder) (image : JpegImage) (mode : ChunkWrite) (payload orderKey : List UInt8) :
    List Nat :=
  match chunkLayout order image mode payload orderKey with
  | .error _ => []
  | .ok (header, positions) => positions.take ((header.length + payload.length) * 8)

/-- The payload, with the header when framed, fits the image. -/
def Fits (image : JpegImage) (mode : ChunkWrite) (payload : List UInt8) : Prop :=
  match mode with
  | .framed _ => CHUNK_HEADER_LEN + payload.length ≤ image.rawCapacity
  | .markerless _ => payload.length ≤ image.rawCapacity

theorem store_cases (stores : JpegImage → JpegImage → Option String) (file : JpegImage)
    (result : Except CodecError JpegImage) :
    (∃ image, result = .ok image ∧ store stores file result = (.ok (), image)) ∨
      ∃ e, store stores file result = (.error e, file) := by
  cases result with
  | error e => exact Or.inr ⟨e, rfl⟩
  | ok image =>
    rw [store]
    cases stores file image with
    | none => exact Or.inl ⟨image, rfl, rfl⟩
    | some message => exact Or.inr ⟨_, rfl⟩

/-- The positions of a chunk are usable and distinct. -/
theorem chunkLayout_ok (h : chunkLayout order image mode payload orderKey = .ok (header, positions)) :
    (∀ p ∈ positions, image.usable p = true) ∧ positions.Nodup ∧ Fits image mode payload ∧
      match mode with
      | .framed info => orderKey = [] ∧ payload.length < 2 ^ 32 ∧
          header = encodeHeader info (UInt32.ofNat payload.length) ∧ positions = image.usablePositions
      | .markerless chunkIndex => header = [] ∧
          orderPositions order image.usablePositions orderKey chunkIndex = .ok positions := by
  cases mode with
  | framed info =>
    rw [chunkLayout] at h
    split_ifs at h with hkey hcapacity
    rw [not_or] at hcapacity
    obtain ⟨rfl, rfl⟩ := Prod.mk.inj (Except.ok.inj h)
    exact ⟨fun p hp => mem_usablePositions.1 hp, nodup_usablePositions _, Nat.not_lt.1 hcapacity.2,
      not_not.1 hkey, by omega, rfl, rfl⟩
  | markerless chunkIndex =>
    rw [chunkLayout] at h
    split_ifs at h with hcapacity
    cases horder : orderPositions order image.usablePositions orderKey chunkIndex with
    | error e =>
      rw [horder] at h
      cases h
    | ok found =>
      rw [horder] at h
      obtain ⟨rfl, rfl⟩ := Prod.mk.inj (Except.ok.inj h)
      have hperm := perm_of_orderPositions horder
      exact ⟨fun p hp => mem_usablePositions.1 (hperm.mem_iff.1 hp),
        hperm.nodup_iff.2 (nodup_usablePositions _), Nat.not_lt.1 hcapacity, rfl, horder⟩

theorem rawCapacity_mul_le (image : JpegImage) : image.rawCapacity * 8 ≤ image.usablePositions.length :=
  Nat.div_mul_le_self _ _

/-- A chunk that was written fits, only chosen coefficients have changed, and it is read back. -/
theorem writeChunk_ok (h : writeChunk order stores file mode payload orderKey = (.ok (), image)) :
    Fits file mode payload ∧ OnlyChosen (chosen order file mode payload orderKey) file image ∧
      readChunk order image (mode.readBack payload) orderKey = .ok (mode.info, payload) := by
  unfold writeChunk at h
  unfold chosen
  cases hlayout : chunkLayout order file mode payload orderKey with
  | error e =>
    rw [hlayout] at h
    cases h
  | ok found =>
    obtain ⟨header, positions⟩ := found
    rw [hlayout] at h
    dsimp only at h ⊢
    obtain ⟨hvalid, hnodup, hfits, hmode⟩ := chunkLayout_ok hlayout
    rcases store_cases stores file (file.embedBytes positions header payload) with
      ⟨image', hembed, hstore⟩ | ⟨e, hstore⟩
    · rw [hstore] at h
      obtain rfl : image' = image := (Prod.mk.inj h).2
      obtain ⟨hlt, hfit, honly, hlow⟩ := embedBytes_spec hvalid hnodup hembed
      refine ⟨hfits, honly, ?_⟩
      have hcapacity := honly.rawCapacity_eq
      have husable := honly.usablePositions_eq
      cases mode with
      | framed info =>
        obtain ⟨hkey, hlen, rfl, rfl⟩ := hmode
        have hheader := length_encodeHeader info (UInt32.ofNat payload.length)
        have htoNat : (UInt32.ofNat payload.length).toNat = payload.length :=
          UInt32.toNat_ofNat_of_lt' hlen
        have hread : image'.extractBytes image'.usablePositions 0 CHUNK_HEADER_LEN =
            .ok (encodeHeader info (UInt32.ofNat payload.length)) := by
          rw [← hheader, husable]
          refine extractBytes_eq (by omega) (by omega) (map_slice_low hlow (fun k hk => ?_)
            (by rw [List.length_append]; omega))
          rw [Nat.zero_add, bitAt_append_left hk]
        have hreadPayload : image'.extractBytes image'.usablePositions (CHUNK_HEADER_LEN * 8)
            payload.length = .ok payload := by
          rw [husable]
          refine extractBytes_eq (by omega) (by omega) (map_slice_low hlow (fun k _ => ?_)
            (by rw [List.length_append]; omega))
          rw [← hheader, Nat.mul_comm, bitAt_append_right]
        have hfits' : CHUNK_HEADER_LEN + payload.length ≤ file.rawCapacity := hfits
        rw [ChunkWrite.readBack, readChunk, if_neg (not_not.2 hkey), hread]
        simp only [bind, Except.bind, decodeHeader_encodeHeader, htoNat, hreadPayload]
        rw [if_neg (by omega)]
        rfl
      | markerless chunkIndex =>
        obtain ⟨rfl, horder⟩ := hmode
        have hread : image'.extractBytes positions 0 payload.length = .ok payload := by
          rw [List.length_nil, Nat.zero_add] at hlt hfit
          refine extractBytes_eq (by omega) (by omega) (map_slice_low hlow (fun k _ => ?_)
            (by rw [List.nil_append]; omega))
          rw [Nat.zero_add, List.nil_append]
        have hfits' : payload.length ≤ file.rawCapacity := hfits
        rw [ChunkWrite.readBack, readChunk, if_neg (by omega), husable, horder]
        simp only [bind, Except.bind, hread]
        rfl
    · rw [hstore] at h
      cases h

/-- A prefix that was written fits, only the first usable coefficients have changed, and it is read
back. -/
theorem writePrefix_ok (h : writePrefix stores file bytes = (.ok (), image)) :
    bytes.length ≤ file.rawCapacity ∧
      OnlyChosen (file.usablePositions.take (bytes.length * 8)) file image ∧
      readPrefix image bytes.length = .ok bytes := by
  unfold writePrefix at h
  by_cases hcapacity : bytes.length > file.rawCapacity
  · rw [if_pos hcapacity] at h
    cases h
  rw [if_neg hcapacity] at h
  rcases store_cases stores file (file.embedBytes file.usablePositions [] bytes) with
    ⟨image', hembed, hstore⟩ | ⟨e, hstore⟩
  · rw [hstore] at h
    obtain rfl : image' = image := (Prod.mk.inj h).2
    obtain ⟨hlt, hfit, honly, hlow⟩ := embedBytes_spec
      (fun p hp => mem_usablePositions.1 hp) (nodup_usablePositions _) hembed
    have hraw := honly.rawCapacity_eq
    rw [List.length_nil, Nat.zero_add] at hlt hfit honly
    refine ⟨Nat.not_lt.1 hcapacity, honly, ?_⟩
    rw [readPrefix, if_neg (by omega), honly.usablePositions_eq]
    refine extractBytes_eq (by omega) (by omega) (map_slice_low hlow (fun k _ => ?_)
      (by rw [List.nil_append]; omega))
    rw [Nat.zero_add, List.nil_append]
  · rw [hstore] at h
    cases h

end JpegCodec

/-- A call that writes a JPEG carrier. -/
inductive JpegWrite where
  | chunk (mode : ChunkWrite) (payload orderKey : List UInt8)
  | leading (bytes : List UInt8)

namespace JpegWrite

open JpegImage JpegCodec

variable (order : ChunkOrder) (stores : JpegImage → JpegImage → Option String)

def run (file : JpegImage) : JpegWrite → Written
  | .chunk mode payload orderKey => writeChunk order stores file mode payload orderKey
  | .leading bytes => writePrefix stores file bytes

/-- What the call writes fits the file. -/
def Fits (file : JpegImage) : JpegWrite → Prop
  | .chunk mode payload _ => JpegCodec.Fits file mode payload
  | .leading bytes => bytes.length ≤ file.rawCapacity

/-- The positions that the call chooses. -/
def chosen (file : JpegImage) : JpegWrite → List Nat
  | .chunk mode payload orderKey => JpegCodec.chosen order file mode payload orderKey
  | .leading bytes => file.usablePositions.take (bytes.length * 8)

/-- What the call wrote is read back from the file. -/
def ReadsBack (file : JpegImage) : JpegWrite → Prop
  | .chunk mode payload orderKey =>
    readChunk order file (mode.readBack payload) orderKey = .ok (mode.info, payload)
  | .leading bytes => readPrefix file bytes.length = .ok bytes

/-- The file after calls one after the other, successful or not. -/
def runs (file : JpegImage) (writes : List JpegWrite) : JpegImage :=
  writes.foldl (fun file write => (write.run order stores file).2) file

variable {order stores} {file : JpegImage} {write : JpegWrite}

/-- A call that fails leaves the file alone. -/
theorem run_cases (order : ChunkOrder) (stores : JpegImage → JpegImage → Option String)
    (file : JpegImage) (write : JpegWrite) :
    (∃ image, write.run order stores file = (.ok (), image)) ∨
      ∃ e, write.run order stores file = (.error e, file) := by
  cases write with
  | chunk mode payload orderKey =>
    rw [run, writeChunk]
    cases chunkLayout order file mode payload orderKey with
    | error e => exact Or.inr ⟨e, rfl⟩
    | ok found =>
      rcases store_cases stores file (file.embedBytes found.2 found.1 payload) with ⟨image, -, h⟩ | ⟨e, h⟩
      · exact Or.inl ⟨image, h⟩
      · exact Or.inr ⟨e, h⟩
  | leading bytes =>
    rw [run, writePrefix]
    split_ifs
    · exact Or.inr ⟨_, rfl⟩
    · rcases store_cases stores file (file.embedBytes file.usablePositions [] bytes) with
        ⟨image, -, h⟩ | ⟨e, h⟩
      · exact Or.inl ⟨image, h⟩
      · exact Or.inr ⟨e, h⟩

/-- What a successful call does. -/
theorem run_ok {image : JpegImage} (h : write.run order stores file = (.ok (), image)) :
    write.Fits file ∧ OnlyChosen (write.chosen order file) file image ∧ write.ReadsBack order image := by
  cases write with
  | chunk mode payload orderKey => exact writeChunk_ok h
  | leading bytes => exact writePrefix_ok h

/-- Chosen positions are usable. -/
theorem usable_of_mem_chosen {p : Nat} (hp : p ∈ write.chosen order file) : file.usable p = true := by
  cases write with
  | chunk mode payload orderKey =>
    rw [chosen, JpegCodec.chosen] at hp
    cases hlayout : chunkLayout order file mode payload orderKey with
    | error e =>
      rw [hlayout] at hp
      cases hp
    | ok found =>
      rw [hlayout] at hp
      exact (chunkLayout_ok hlayout).1 p (List.mem_of_mem_take hp)
  | leading bytes => exact mem_usablePositions.1 (List.mem_of_mem_take hp)

/-- No call changes a position that is not usable, or the set of usable ones. -/
theorem run_onlyChosen (order : ChunkOrder) (stores : JpegImage → JpegImage → Option String)
    (file : JpegImage) (write : JpegWrite) :
    OnlyChosen file.usablePositions file (write.run order stores file).2 := by
  rcases run_cases order stores file write with ⟨image, h⟩ | ⟨e, h⟩
  · obtain ⟨-, honly, -⟩ := run_ok h
    rw [h]
    exact ⟨honly.length_eq, honly.usable_eq, fun p hp => honly.coefficient_eq p fun hmem =>
      hp (mem_usablePositions.2 (usable_of_mem_chosen hmem))⟩
  · rw [h]
    exact OnlyChosen.refl _ _

theorem runs_onlyChosen (order : ChunkOrder) (stores : JpegImage → JpegImage → Option String)
    (file : JpegImage) (writes : List JpegWrite) :
    OnlyChosen file.usablePositions file (runs order stores file writes) := by
  induction writes generalizing file with
  | nil => exact OnlyChosen.refl _ _
  | cons write writes ih =>
    have hstep := run_onlyChosen order stores file write
    have hrest := ih (write.run order stores file).2
    rw [hstep.usablePositions_eq] at hrest
    exact ⟨hrest.length_eq.trans hstep.length_eq, hrest.usable_eq.trans hstep.usable_eq,
      fun p hp => (hrest.coefficient_eq p hp).trans (hstep.coefficient_eq p hp)⟩

/-- After any calls the usable positions and the capacity are those of the original image, and so is
every first coefficient of a block and every coefficient of magnitude below two. A further call
succeeds only if what it writes fits, and then it is read back and nothing but the chosen
coefficients has changed. A call that fails changes nothing. -/
theorem runs_read_back (order : ChunkOrder) (stores : JpegImage → JpegImage → Option String) (file : JpegImage)
    (writes : List JpegWrite) :
    (runs order stores file writes).usablePositions = file.usablePositions ∧
    (runs order stores file writes).rawCapacity = file.rawCapacity ∧
    (∀ p, (p % 64 = 0 ∨ ∀ c, file.coefficient p = some c → magnitude c < 2) →
      (runs order stores file writes).coefficient p = file.coefficient p) ∧
    ∀ write : JpegWrite,
      ((write.run order stores (runs order stores file writes)).1 = .ok () →
        write.Fits (runs order stores file writes) ∧
        write.ReadsBack order (runs order stores file (writes ++ [write])) ∧
        ∀ p ∉ write.chosen order (runs order stores file writes),
          (runs order stores file (writes ++ [write])).coefficient p =
            (runs order stores file writes).coefficient p) ∧
      ((write.run order stores (runs order stores file writes)).1 ≠ .ok () →
        runs order stores file (writes ++ [write]) = runs order stores file writes) := by
  have honly := runs_onlyChosen order stores file writes
  refine ⟨honly.usablePositions_eq, honly.rawCapacity_eq, fun p hp => honly.coefficient_eq p fun hmem => ?_,
    fun write => ?_⟩
  · obtain ⟨hmod, value, hvalue, hmagnitude⟩ := usable_iff.1 (mem_usablePositions.1 hmem)
    rcases hp with hp | hp
    · exact hmod hp
    · have := hp value hvalue
      omega
  · have hlast : runs order stores file (writes ++ [write]) =
        (write.run order stores (runs order stores file writes)).2 := by
      rw [runs, List.foldl_append]
      rfl
    rw [hlast]
    rcases run_cases order stores (runs order stores file writes) write with
      ⟨image, h⟩ | ⟨e, h⟩
    · obtain ⟨hfits, hchosen, hread⟩ := run_ok h
      rw [h]
      exact ⟨fun _ => ⟨hfits, hread, hchosen.coefficient_eq⟩, fun hne => absurd rfl hne⟩
    · rw [h]
      exact ⟨fun hok => by simp at hok, fun _ => rfl⟩

/-- Two blocks of large coefficients, one in each of two components. -/
def smallImage : JpegImage := ⟨[[Vector.replicate 64 (-5)], [Vector.replicate 64 7]]⟩

theorem runs_read_back_smallImage (order : ChunkOrder) (stores : JpegImage → JpegImage → Option String) :
    (runs order stores smallImage [.leading [1, 2], .leading [3]]).usablePositions =
        smallImage.usablePositions ∧
      (((JpegWrite.leading [9]).run order stores
          (runs order stores smallImage [.leading [1, 2], .leading [3]])).1 = .ok () →
        (JpegWrite.leading [9]).ReadsBack order
          (runs order stores smallImage ([.leading [1, 2], .leading [3]] ++ [.leading [9]]))) :=
  have h := runs_read_back order stores smallImage [.leading [1, 2], .leading [3]]
  ⟨h.1, fun hok => ((h.2.2.2 (.leading [9])).1 hok).2.1⟩

end JpegWrite

end AlbumFS
