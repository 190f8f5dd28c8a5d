import AlbumFS.Stego.Jpeg

/-!
# How much embedding changes a JPEG image

`embed_bytes` replaces the low bit of the magnitude of a coefficient and puts the sign back on. The result
differs from the old value by one at most and has its sign, unless the magnitude leaves the range of an `i16`:
setting the low bit of the magnitude 32768 of the least `i16` gives 32769, and the cast of its negation to an
`i16` is 32767.

## Main definitions

* `JpegImage.Close`, `JpegImage.MinimallyInvasive`: coefficients and images that differ little.

## Main results

* `JpegImage.close_embedBit_iff`: one coefficient.
* `JpegImage.embedBytes_minimallyInvasive_iff`: exactly when a whole image changes little.
-/

namespace AlbumFS

namespace JpegImage

/-- The sign is the same, and the difference is at most one. -/
def Close (before after : Int16) : Prop :=
  after.toInt.sign = before.toInt.sign ∧ (after.toInt - before.toInt).natAbs ≤ 1

/-- Every coefficient of the first image is there in the second, with its sign and changed by at most one. -/
def MinimallyInvasive (before after : JpegImage) : Prop :=
  after.components.map List.length = before.components.map List.length ∧
    ∀ p value, before.coefficient p = some value →
      ∃ value', after.coefficient p = some value' ∧ Close value value'

variable {image image' : JpegImage} {positions : List Nat} {bits : Nat → UInt8} {first second : List UInt8}

theorem Close.refl (value : Int16) : Close value value := by
  refine ⟨rfl, ?_⟩
  rw [Int.sub_self]
  exact Nat.zero_le 1

/-- Embedding a bit changes a usable coefficient little, unless it is the least `i16` and the bit is set. -/
theorem close_embedBit_iff {value : Int16} {bit : UInt8} (hvalue : 2 ≤ magnitude value)
    (hbit : bit.toNat < 2) : Close value (embedBit bit value) ↔ ¬(value = -32768 ∧ bit = 1) := by
  have hlt := value.toInt_lt
  have hle := value.le_toInt
  have hleast : value = -32768 ↔ value.toInt = -32768 := by
    rw [← Int16.toInt_inj]
    rfl
  have hset : bit = 1 ↔ bit.toNat = 1 := by
    rw [← UInt8.toNat_inj]
    rfl
  have hembed : (embedBit bit value).toInt = (if value.toInt < 0 then
      -((value.toInt.natAbs / 2 * 2 + bit.toNat : Nat) : Int)
      else ((value.toInt.natAbs / 2 * 2 + bit.toNat : Nat) : Int)).bmod Int16.size := by
    rw [embedBit, magnitude, mask_or (by omega) hbit, Int16.toInt_ofInt]
  unfold magnitude at hvalue
  rw [Close, hembed, hleast, hset]
  simp only [Int.bmod_def, Int16.size, Nat.cast_ofNat]
  rcases Int.lt_or_le value.toInt 0 with hneg | hpos
  · rw [if_pos hneg, Int.sign_eq_neg_one_of_neg hneg, Int.sign_eq_neg_one_iff_neg]
    split_ifs <;> omega
  · have hpos' : 0 < value.toInt := by omega
    rw [if_neg (Int.not_lt.2 hpos), Int.sign_eq_one_of_pos hpos', Int.sign_eq_one_iff_pos]
    split_ifs <;> omega

/-- The loop of `embed_bytes` updates the coefficient at each of the distinct positions once. -/
theorem coefficient_embedBits {i : Nat} (hnodup : positions.Nodup)
    (h : embedBits putLow bits image i positions = some image') :
    (∀ p ∉ positions, image'.coefficient p = image.coefficient p) ∧
      ∀ k p, positions[k]? = some p →
        image'.coefficient p = (image.coefficient p).map (embedBit (bits (i + k))) := by
  induction positions generalizing image i with
  | nil =>
    obtain rfl := Option.some.inj h
    exact ⟨fun _ _ => rfl, fun k p hp => by simp at hp⟩
  | cons q positions ih =>
    obtain ⟨hq, hnodup⟩ := List.nodup_cons.1 hnodup
    obtain ⟨image₁, hput, hrest⟩ := Option.bind_eq_some_iff.1 h
    obtain ⟨-, hcoefficient⟩ := putLow_spec hput
    obtain ⟨hothers, hchosen⟩ := ih hnodup hrest
    refine ⟨fun p hp => ?_, fun k p hp => ?_⟩
    · rw [List.mem_cons, not_or] at hp
      rw [hothers p hp.2, hcoefficient, if_neg hp.1]
    · cases k with
      | zero =>
        obtain rfl : q = p := by simpa using hp
        rw [hothers q hq, hcoefficient, if_pos rfl, Nat.add_zero]
      | succ k =>
        rw [List.getElem?_cons_succ] at hp
        have hne : p ≠ q := by
          rintro rfl
          exact hq (List.mem_of_getElem? hp)
        rw [hchosen k p hp, hcoefficient, if_neg hne, Nat.add_right_comm, Nat.add_assoc]

/-- Embedding two byte strings at distinct usable positions, where they fit, succeeds. It changes every
coefficient little if and only if it sets no low bit of a least `i16`. -/
theorem embedBytes_minimallyInvasive_iff (hpositions : ∀ p ∈ positions, p ∈ image.usablePositions)
    (hnodup : positions.Nodup) (hfit : (first.length + second.length) * 8 ≤ positions.length)
    (hmemory : positions.length < 2 ^ 64) :
    ∃ image', image.embedBytes positions first second = .ok image' ∧
      (MinimallyInvasive image image' ↔
        ∀ k p, k < (first.length + second.length) * 8 → positions[k]? = some p →
          ¬(image.coefficient p = some (-32768) ∧ chunkBit first second k = 1)) := by
  have hvalid : ∀ p ∈ positions, image.usable p = true := fun p hp => mem_usablePositions.1 (hpositions p hp)
  have hbits : ∀ k, (chunkBit first second k).toNat < 2 := fun k => by
    rw [chunkBit_eq]
    exact bitAt_lt_two _ _
  generalize htotal : (first.length + second.length) * 8 = total at hfit
  obtain ⟨image', hembed, -⟩ := medium.embedBits_spec (i := 0) hbits
    (fun p hp => hvalid p (List.mem_of_mem_take hp)) (hnodup.sublist (List.take_sublist total positions))
  have himage : embedBits putLow (chunkBit first second) image 0 (positions.take total) = some image' := hembed
  have hok : image.embedBytes positions first second = .ok image' := by
    rw [embedBytes, totalBits_of_lt (by omega), htotal]
    dsimp only
    rw [if_neg (Nat.not_lt.2 hfit), himage]
  obtain ⟨hothers, hchosen⟩ := coefficient_embedBits (hnodup.sublist (List.take_sublist _ _)) himage
  obtain ⟨-, -, honly, -⟩ := embedBytes_spec hvalid hnodup hok
  have hat : ∀ {k p}, k < total → positions[k]? = some p →
      image'.coefficient p = (image.coefficient p).map (embedBit (chunkBit first second k)) := by
    intro k p hk hp
    have h := hchosen k p (by rw [List.getElem?_take, if_pos hk, hp])
    rwa [Nat.zero_add] at h
  refine ⟨image', hok, ?_⟩
  constructor
  · rintro ⟨-, hclose⟩ k p hk hp ⟨hleast, hset⟩
    obtain ⟨value', hvalue', hclose⟩ := hclose p _ hleast
    rw [hat hk hp, hleast, Option.map_some, Option.some.injEq] at hvalue'
    rw [← hvalue', close_embedBit_iff (by decide) (hbits k)] at hclose
    exact hclose ⟨rfl, hset⟩
  · intro hleast
    refine ⟨honly.length_eq, fun p value hvalue => ?_⟩
    by_cases hmem : p ∈ positions.take total
    · obtain ⟨k, hk⟩ := List.mem_iff_getElem?.1 hmem
      rw [List.getElem?_take] at hk
      split_ifs at hk with hlt
      have husable := hvalid p (List.mem_of_getElem? hk)
      obtain ⟨-, value₁, hvalue₁, hmagnitude⟩ := usable_iff.1 husable
      obtain rfl : value = value₁ := Option.some.inj (hvalue.symm.trans hvalue₁)
      refine ⟨_, (hat hlt hk).trans (by rw [hvalue, Option.map_some]), ?_⟩
      rw [close_embedBit_iff hmagnitude (hbits k)]
      rintro ⟨rfl, hset⟩
      exact hleast k p hlt hk ⟨hvalue, hset⟩
    · exact ⟨value, (hothers p hmem).trans hvalue, Close.refl value⟩

/-- A block whose usable coefficients are all the least `i16`. -/
def leastImage : JpegImage := ⟨[[Vector.replicate 64 (-32768)]]⟩

/-- The theorem for a byte without set bits. -/
theorem embedBytes_minimallyInvasive_iff_leastImage :
    ∃ image', leastImage.embedBytes [1, 2, 3, 4, 5, 6, 7, 8] [] [0] = .ok image' ∧
      (MinimallyInvasive leastImage image' ↔
        ∀ k p, k < (([] : List UInt8).length + [(0 : UInt8)].length) * 8 →
          [1, 2, 3, 4, 5, 6, 7, 8][k]? = some p →
          ¬(leastImage.coefficient p = some (-32768) ∧ chunkBit [] [0] k = 1)) :=
  embedBytes_minimallyInvasive_iff (by decide) (by decide) (by decide) (by decide)

/-- A set bit turns the least `i16` into the greatest. -/
theorem not_minimallyInvasive_leastImage :
    ∃ image', leastImage.embedBytes [1, 2, 3, 4, 5, 6, 7, 8] [] [128] = .ok image' ∧
      ¬MinimallyInvasive leastImage image' := by
  have hcoefficient : (leastImage.embedBytes [1, 2, 3, 4, 5, 6, 7, 8] [] [128]).map
      (fun image' => image'.coefficient 1) = .ok (some 32767) := by
    decide +kernel
  cases hembed : leastImage.embedBytes [1, 2, 3, 4, 5, 6, 7, 8] [] [128] with
  | error e =>
    rw [hembed] at hcoefficient
    cases hcoefficient
  | ok image' =>
    rw [hembed] at hcoefficient
    refine ⟨image', rfl, fun hclose => ?_⟩
    obtain ⟨value', hvalue', hsign, -⟩ := hclose.2 1 (-32768) (by decide +kernel)
    have hgreatest : image'.coefficient 1 = some 32767 := Except.ok.inj hcoefficient
    rw [hgreatest, Option.some.injEq] at hvalue'
    rw [← hvalue'] at hsign
    exact absurd hsign (by decide)

end JpegImage

end AlbumFS
