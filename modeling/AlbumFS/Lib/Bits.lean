import AlbumFS.Lib.Bytes
import Mathlib.Data.List.GetD
import Mathlib.Data.List.Nodup

/-!
# Bits of byte strings, written to and read from a medium

The bits of a byte string are numbered with the most significant bit of each byte first. A loop
writes them one after the other at the positions of a list, and a loop with the same positions
reads them back. What a position is and how a bit is kept there is left to the `Medium`.

## Main results

* `collectBits_bitAt`: the bits of a byte string put together are the byte string.
* `Medium.embedBits_spec`, `embedBits_induction`: what the writing loop does.
* `extractBits_eq`: what the reading loop returns.
-/

namespace AlbumFS

/-- Bit `i` of a byte string. -/
def bitAt (bytes : List UInt8) (i : Nat) : UInt8 :=
  (bytes.getD (i / 8) 0 >>> UInt8.ofNat (7 - i % 8)) &&& 1

/-- The byte string with bit `i` set when `bit` is one. -/
def orBit (bytes : List UInt8) (i : Nat) (bit : UInt8) : List UInt8 :=
  bytes.modify (i / 8) fun byte => byte ||| (bit <<< UInt8.ofNat (7 - i % 8))

/-- The bits from number `i` on put into a byte string. -/
def collectBits : List UInt8 → Nat → List UInt8 → List UInt8
  | bytes, _, [] => bytes
  | bytes, i, bit :: bits => collectBits (orBit bytes i bit) (i + 1) bits

theorem toNat_bitAt (bytes : List UInt8) (i : Nat) :
    (bitAt bytes i).toNat = ((bytes.getD (i / 8) 0).toNat.testBit (7 - i % 8)).toNat := by
  have hmod : (7 - i % 8) % 8 = 7 - i % 8 := Nat.mod_eq_of_lt (by omega)
  have hofNat : (UInt8.ofNat (7 - i % 8)).toNat = 7 - i % 8 :=
    UInt8.toNat_ofNat_of_lt' (by rw [UInt8.size]; omega)
  rw [bitAt, UInt8.toNat_and, UInt8.toNat_shiftRight, hofNat, hmod, UInt8.toNat_one, Nat.and_one_is_mod,
    Nat.shiftRight_eq_div_pow, Nat.toNat_testBit]

theorem bitAt_lt_two (bytes : List UInt8) (i : Nat) : (bitAt bytes i).toNat < 2 := by
  rw [toNat_bitAt]
  exact Bool.toNat_lt _

/-- The bits of the first of two byte strings in a row. -/
theorem bitAt_append_left {first second : List UInt8} {i : Nat} (h : i < 8 * first.length) :
    bitAt (first ++ second) i = bitAt first i := by
  rw [bitAt, bitAt, List.getD_append _ _ _ _ (by omega)]

/-- The bits of the second of two byte strings in a row. -/
theorem bitAt_append_right (first second : List UInt8) (i : Nat) :
    bitAt (first ++ second) (8 * first.length + i) = bitAt second i := by
  rw [bitAt, bitAt, List.getD_append_right _ _ _ _ (by omega),
    show (8 * first.length + i) / 8 - first.length = i / 8 by omega,
    show (8 * first.length + i) % 8 = i % 8 by omega]

@[simp] theorem length_orBit (bytes : List UInt8) (i : Nat) (bit : UInt8) :
    (orBit bytes i bit).length = bytes.length := by
  rw [orBit, List.length_modify]

/-- The bits of a byte string after one of them was set. -/
theorem testBit_orBit {bytes : List UInt8} {i j t : Nat} {bit : UInt8} (hi : i / 8 < bytes.length)
    (ht : t < 8) (hbit : bit.toNat < 2) :
    ((orBit bytes i bit).getD j 0).toNat.testBit t =
      ((bytes.getD j 0).toNat.testBit t || (decide (8 * j + (7 - t) = i) && bit.toNat.testBit 0)) := by
  have hmod : (7 - i % 8) % 8 = 7 - i % 8 := Nat.mod_eq_of_lt (by omega)
  have hofNat : (UInt8.ofNat (7 - i % 8)).toNat = 7 - i % 8 :=
    UInt8.toNat_ofNat_of_lt' (by rw [UInt8.size]; omega)
  rw [orBit, List.getD_eq_getElem?_getD, List.getElem?_modify]
  split_ifs with hj
  · subst hj
    rw [List.getElem?_eq_getElem hi, List.getD_eq_getElem _ _ hi, Option.map_eq_map, Option.map_some,
      Option.getD_some, UInt8.toNat_or, UInt8.toNat_shiftLeft, hofNat, hmod, Nat.testBit_or, Nat.testBit_mod_two_pow,
      Nat.testBit_shiftLeft, decide_eq_true ht, Bool.true_and]
    congr 1
    by_cases hbitIndex : 8 * (i / 8) + (7 - t) = i
    · rw [decide_eq_true hbitIndex, decide_eq_true (by omega : t ≥ 7 - i % 8),
        show t - (7 - i % 8) = 0 by omega]
    · rw [decide_eq_false hbitIndex, Bool.false_and, Bool.and_eq_false_iff, decide_eq_false_iff_not]
      by_cases hlt : t ≥ 7 - i % 8
      · exact Or.inr (Nat.testBit_lt_two_pow (Nat.lt_of_lt_of_le hbit
          (Nat.pow_le_pow_right Nat.two_pos (by omega : 1 ≤ t - (7 - i % 8)))))
      · exact Or.inl hlt
  · rw [id_map', List.getD_eq_getElem?_getD, decide_eq_false (by omega), Bool.false_and,
      Bool.or_false]

/-- Byte strings of one length are equal when their bits are. -/
theorem eq_of_testBit {bytes bytes' : List UInt8} (hlen : bytes.length = bytes'.length)
    (h : ∀ j t, t < 8 → (bytes.getD j 0).toNat.testBit t = (bytes'.getD j 0).toNat.testBit t) :
    bytes = bytes' := by
  apply List.ext_getElem hlen
  intro j hj hj'
  apply UInt8.toNat_inj.1
  apply Nat.eq_of_testBit_eq
  intro t
  by_cases ht : t < 8
  · have hbit := h j t ht
    rwa [List.getD_eq_getElem _ _ hj, List.getD_eq_getElem _ _ hj'] at hbit
  · have hpow : 2 ^ 8 ≤ 2 ^ t := Nat.pow_le_pow_right (by decide) (Nat.not_lt.1 ht)
    rw [Nat.testBit_lt_two_pow (Nat.lt_of_lt_of_le (UInt8.toNat_lt _) hpow),
      Nat.testBit_lt_two_pow (Nat.lt_of_lt_of_le (UInt8.toNat_lt _) hpow)]

/-- The loop over the bits from number `i` on sets each of them. -/
theorem collectBits_invariant (source bytes : List UInt8) (i n : Nat)
    (hlen : bytes.length = source.length) (hn : i + n ≤ 8 * source.length)
    (hbytes : ∀ j t, t < 8 → (bytes.getD j 0).toNat.testBit t =
      (decide (8 * j + (7 - t) < i) && (source.getD j 0).toNat.testBit t)) :
    (collectBits bytes i ((List.range' i n).map (bitAt source))).length = source.length ∧
      ∀ j t, t < 8 → ((collectBits bytes i ((List.range' i n).map (bitAt source))).getD j 0).toNat.testBit t =
        (decide (8 * j + (7 - t) < i + n) && (source.getD j 0).toNat.testBit t) := by
  induction n generalizing bytes i with
  | zero => exact ⟨hlen, hbytes⟩
  | succ n ih =>
    rw [List.range'_succ, List.map_cons, collectBits, Nat.add_comm n 1, ← Nat.add_assoc]
    apply ih
    · rw [length_orBit, hlen]
    · omega
    · intro j t ht
      rw [testBit_orBit (by omega) ht (bitAt_lt_two _ _), hbytes j t ht, toNat_bitAt]
      by_cases hbit : 8 * j + (7 - t) = i
      · have hj : i / 8 = j := by omega
        have ht' : 7 - i % 8 = t := by omega
        rw [hj, ht', hbit]
        cases (source.getD j 0).toNat.testBit t <;> simp
      · rw [decide_eq_false hbit, Bool.false_and, Bool.or_false]
        congr 1
        exact decide_eq_decide.2 (by omega)

/-- The bits of a byte string put together are the byte string. -/
theorem collectBits_bitAt (source : List UInt8) :
    collectBits (List.replicate source.length 0) 0 ((List.range (8 * source.length)).map (bitAt source)) =
      source := by
  have h := collectBits_invariant source (List.replicate source.length 0) 0 (8 * source.length)
    List.length_replicate (by omega) (fun j t _ => by
      rw [List.getD_eq_getElem?_getD, List.getElem?_replicate]
      split_ifs <;> simp)
  rw [← List.range_eq_range'] at h
  apply eq_of_testBit h.1
  intro j t ht
  rw [h.2 j t ht]
  by_cases hj : j < source.length
  · rw [decide_eq_true (by omega), Bool.true_and]
  · rw [List.getD_eq_default _ _ (Nat.not_lt.1 hj)]
    simp

/-- States that keep one bit at each valid position. Putting a bit at a valid position succeeds,
reads back, and leaves the other valid positions and the set of them alone. -/
structure Medium (σ : Type) where
  put : σ → Nat → UInt8 → Option σ
  low : σ → Nat → Option UInt8
  valid : σ → Nat → Prop
  put_isSome : ∀ {s p bit}, valid s p → bit.toNat < 2 → ∃ s', put s p bit = some s'
  valid_put : ∀ {s p bit s'}, valid s p → bit.toNat < 2 → put s p bit = some s' →
    ∀ q, valid s' q ↔ valid s q
  low_put_self : ∀ {s p bit s'}, valid s p → bit.toNat < 2 → put s p bit = some s' →
    low s' p = some bit
  low_put_of_ne : ∀ {s p q bit s'}, valid s p → valid s q → p ≠ q → bit.toNat < 2 →
    put s p bit = some s' → low s' q = low s q

section Loops

variable {σ : Type} (put : σ → Nat → UInt8 → Option σ) (bits : Nat → UInt8)

/-- The loop that writes the bits from number `i` on at the positions, and fails where one of them
cannot be written. -/
def embedBits : σ → Nat → List Nat → Option σ
  | s, _, [] => some s
  | s, i, p :: positions => (put s p (bits i)).bind fun s => embedBits s (i + 1) positions

/-- The loop that reads bits at the positions and puts them into a byte string from bit `i` on. -/
def extractBits (low : Nat → Option UInt8) : List UInt8 → Nat → List Nat → Option (List UInt8)
  | bytes, _, [] => some bytes
  | bytes, i, p :: positions =>
    (low p).bind fun bit => extractBits low (orBit bytes i bit) (i + 1) positions

variable {put bits} {s s' : σ} {i : Nat} {positions : List Nat}

/-- What every single write preserves, the loop preserves. -/
theorem embedBits_induction {P : σ → Prop}
    (hput : ∀ s p i s', p ∈ positions → P s → put s p (bits i) = some s' → P s')
    (h : embedBits put bits s i positions = some s') (hs : P s) : P s' := by
  induction positions generalizing s i with
  | nil =>
    cases h
    exact hs
  | cons p positions ih =>
    obtain ⟨s₁, hs₁, hrest⟩ := Option.bind_eq_some_iff.1 h
    exact ih (fun s p i s' hp => hput s p i s' (List.mem_cons_of_mem _ hp)) hrest
      (hput s p i s₁ List.mem_cons_self hs hs₁)

/-- The bits written at distinct valid positions stand there afterwards, and the other valid
positions keep theirs. -/
theorem Medium.embedBits_spec (m : Medium σ) (hbits : ∀ i, (bits i).toNat < 2)
    (hvalid : ∀ p ∈ positions, m.valid s p) (hnodup : positions.Nodup) :
    ∃ s', embedBits m.put bits s i positions = some s' ∧ (∀ q, m.valid s' q ↔ m.valid s q) ∧
      (positions.map (m.low s') = (List.range' i positions.length).map fun k => some (bits k)) ∧
      ∀ q, m.valid s q → q ∉ positions → m.low s' q = m.low s q := by
  induction positions generalizing s i with
  | nil => exact ⟨s, rfl, fun _ => Iff.rfl, rfl, fun _ _ _ => rfl⟩
  | cons p positions ih =>
    obtain ⟨hp, hnodup⟩ := List.nodup_cons.1 hnodup
    rw [List.forall_mem_cons] at hvalid
    obtain ⟨s₁, hs₁⟩ := m.put_isSome hvalid.1 (hbits i)
    have hvalid₁ := m.valid_put hvalid.1 (hbits i) hs₁
    obtain ⟨s', hs', hvalid', hlow, hkept⟩ := ih (s := s₁) (i := i + 1)
      (fun q hq => (hvalid₁ q).2 (hvalid.2 q hq)) hnodup
    refine ⟨s', by rw [embedBits, hs₁, Option.bind_some, hs'],
      fun q => (hvalid' q).trans (hvalid₁ q), ?_, fun q hq hnotMem => ?_⟩
    · rw [List.map_cons, List.length_cons, List.range'_succ, List.map_cons, hlow,
        hkept p ((hvalid₁ p).2 hvalid.1) hp, m.low_put_self hvalid.1 (hbits i) hs₁]
    · rw [List.mem_cons, not_or] at hnotMem
      rw [hkept q ((hvalid₁ q).2 hq) hnotMem.2,
        m.low_put_of_ne hvalid.1 hq (Ne.symm hnotMem.1) (hbits i) hs₁]

/-- Reading the bits of a byte string from number `i` on. -/
theorem length_extractBits {low : Nat → Option UInt8} {bytes bytes' : List UInt8}
    (h : extractBits low bytes i positions = some bytes') : bytes'.length = bytes.length := by
  induction positions generalizing bytes i with
  | nil =>
    obtain rfl := Option.some.inj h
    rfl
  | cons p positions ih =>
    rw [extractBits, Option.bind_eq_some_iff] at h
    obtain ⟨bit, -, h⟩ := h
    rw [ih h, length_orBit]

theorem extractBits_eq_collectBits {low : Nat → Option UInt8} {bytes : List UInt8} (values : List UInt8)
    (h : positions.map low = values.map some) :
    extractBits low bytes i positions = some (collectBits bytes i values) := by
  induction positions generalizing bytes i values with
  | nil =>
    cases values with
    | nil => rfl
    | cons _ _ => cases h
  | cons p positions ih =>
    cases values with
    | nil => cases h
    | cons value values =>
      rw [List.map_cons, List.map_cons, List.cons.injEq] at h
      rw [extractBits, h.1, Option.bind_some, ih values h.2, collectBits]

/-- The loop reads a byte string whose bits stand at the positions. -/
theorem extractBits_eq {low : Nat → Option UInt8} {source : List UInt8}
    (h : positions.map low = (List.range (8 * source.length)).map fun k => some (bitAt source k)) :
    extractBits low (List.replicate source.length 0) 0 positions = some source := by
  rw [extractBits_eq_collectBits ((List.range (8 * source.length)).map (bitAt source))
    (by rw [h, List.map_map]; rfl), collectBits_bitAt]

/-- Where the bits of a byte string stand at the first positions, those of a part of it stand at the
positions of the part. -/
theorem map_slice_low {low : Nat → Option UInt8} {whole part : List UInt8} {off : Nat}
    (hlow : (positions.take (8 * whole.length)).map low =
      (List.range (8 * whole.length)).map fun k => some (bitAt whole k))
    (hpart : ∀ k < 8 * part.length, bitAt whole (off + k) = bitAt part k)
    (hend : off + 8 * part.length ≤ 8 * whole.length) :
    (slice positions off (8 * part.length)).map low =
      (List.range (8 * part.length)).map fun k => some (bitAt part k) := by
  apply List.ext_getElem?
  intro k
  rw [List.getElem?_map, getElem?_slice, List.getElem?_map]
  split_ifs with hk
  · have hget := congrArg (fun l : List (Option UInt8) => l[off + k]?) hlow
    simp only [List.getElem?_map, List.getElem?_take] at hget
    rw [if_pos (by omega), List.getElem?_range (by omega)] at hget
    rw [hget, List.getElem?_range hk, Option.map_some, Option.map_some, hpart k hk]
  · rw [List.getElem?_eq_none (by rw [List.length_range]; omega), Option.map_none, Option.map_none]

end Loops

end AlbumFS
