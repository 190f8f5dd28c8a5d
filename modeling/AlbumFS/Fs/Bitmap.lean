import AlbumFS.Fs.Error
import Mathlib.Data.List.Basic
import Mathlib.Data.Finset.Card
import Mathlib.Data.Finset.Range
import Mathlib.Tactic.IntervalCases

/-!
# The free-space bitmap

The bitmap of `fs/bitmap.rs` keeps one bit per block, the bit of block `b` in byte `b / 8` at
position `b % 8`. A bitmap carries the proof that it has exactly the bytes its block count needs,
so the accesses of the source never leave the vector.

## Main results

* `Bitmap.isSet_set`, `Bitmap.isSet_clear`: setting and clearing change one block.
* `Bitmap.allocFrom_ok`, `Bitmap.allocFrom_error_iff`: the allocator takes the lowest free block
  and fails exactly when no block is free.
* `Bitmap.countFree_set`, `Bitmap.countFree_clear`: the free count follows the two updates.
-/

namespace AlbumFS

/-- The allocation bitmap over `totalBlocks` blocks. -/
structure Bitmap where
  bits : List UInt8
  totalBlocks : Nat
  length_bits : bits.length = divCeil totalBlocks 8

namespace Bitmap

/-- A bitmap with every block free. -/
def new (totalBlocks : Nat) : Bitmap where
  bits := List.replicate (divCeil totalBlocks 8) 0
  totalBlocks := totalBlocks
  length_bits := List.length_replicate

/-- The bitmap stored in `bytes`, missing bytes read as zero. -/
def fromBytes (bytes : List UInt8) (totalBlocks : Nat) : Bitmap where
  bits := bytes.take (divCeil totalBlocks 8) ++
    List.replicate (divCeil totalBlocks 8 - bytes.length) 0
  totalBlocks := totalBlocks
  length_bits := by
    simp only [List.length_append, List.length_take, List.length_replicate]
    omega

def asBytes (bm : Bitmap) : List UInt8 := bm.bits

/-- The byte that holds the bit of `block`. -/
def byteOf (bm : Bitmap) (block : Nat) : UInt8 := bm.bits.getD (block / 8) 0

def isSet (bm : Bitmap) (block : Nat) : Bool :=
  decide (block < bm.totalBlocks) &&
    (bm.byteOf block >>> UInt8.ofNat (block % 8)) &&& 1 == 1

/-- Replace the byte that holds the bit of `block`. -/
def setByte (bm : Bitmap) (block : Nat) (byte : UInt8) : Bitmap where
  bits := bm.bits.set (block / 8) byte
  totalBlocks := bm.totalBlocks
  length_bits := by rw [List.length_set, bm.length_bits]

def set (bm : Bitmap) (block : Nat) : Bitmap :=
  if block < bm.totalBlocks then
    bm.setByte block (bm.byteOf block ||| (1 <<< UInt8.ofNat (block % 8)))
  else bm

def clear (bm : Bitmap) (block : Nat) : Bitmap :=
  if block < bm.totalBlocks then
    bm.setByte block (bm.byteOf block &&& ~~~(1 <<< UInt8.ofNat (block % 8)))
  else bm

def countFree (bm : Bitmap) : Nat :=
  ((List.range bm.totalBlocks).filter fun block => !bm.isSet block).length

/-- Take the lowest free block from `start` on. -/
def allocFrom (bm : Bitmap) (start : Nat) : Except FsError (Nat × Bitmap) :=
  match (List.range' start (bm.totalBlocks - start)).find? fun block => !bm.isSet block with
  | some block => .ok (block, bm.set block)
  | none => .error .noSpace

/-! ### Single bits -/

private theorem testBit_byte (x : UInt8) {j : Nat} (hj : j < 8) :
    (x >>> UInt8.ofNat j &&& 1 == 1) = x.toBitVec.getLsbD j := by
  have hlow : ∀ y : UInt8, (y &&& 1 == 1) = y.toBitVec.getLsbD 0 := by
    intro y
    rw [Bool.eq_iff_iff, beq_iff_eq, ← UInt8.toNat_inj, UInt8.toNat_and,
      BitVec.getLsbD_eq_getElem (by decide), BitVec.getElem_eq_testBit_toNat]
    simp [Nat.testBit_zero, Nat.and_one_is_mod]
  rw [hlow]
  simp [Nat.mod_eq_of_lt hj]

private theorem testBit_one {i j : Nat} (hi : i < 8) (hj : j < 8) :
    (1 <<< UInt8.ofNat i : UInt8).toBitVec.getLsbD j = decide (i = j) := by
  interval_cases i <;> interval_cases j <;> rfl

private theorem testBit_set (x : UInt8) {i j : Nat} (hi : i < 8) (hj : j < 8) :
    ((x ||| (1 <<< UInt8.ofNat i)) >>> UInt8.ofNat j &&& 1 == 1) =
      (decide (i = j) || (x >>> UInt8.ofNat j &&& 1 == 1)) := by
  rw [testBit_byte _ hj, testBit_byte _ hj, UInt8.toBitVec_or, BitVec.getLsbD_or,
    testBit_one hi hj, Bool.or_comm]

private theorem testBit_clear (x : UInt8) {i j : Nat} (hi : i < 8) (hj : j < 8) :
    ((x &&& ~~~(1 <<< UInt8.ofNat i)) >>> UInt8.ofNat j &&& 1 == 1) =
      (!decide (i = j) && (x >>> UInt8.ofNat j &&& 1 == 1)) := by
  rw [testBit_byte _ hj, testBit_byte _ hj, UInt8.toBitVec_and, BitVec.getLsbD_and,
    UInt8.toBitVec_not, BitVec.getLsbD_not, testBit_one hi hj]
  simp [hj, Bool.and_comm]

/-! ### Reading after an update -/

@[simp] theorem totalBlocks_setByte (bm : Bitmap) (block : Nat) (byte : UInt8) :
    (bm.setByte block byte).totalBlocks = bm.totalBlocks := rfl

@[simp] theorem totalBlocks_set (bm : Bitmap) (block : Nat) :
    (bm.set block).totalBlocks = bm.totalBlocks := by
  unfold set
  split_ifs <;> rfl

@[simp] theorem totalBlocks_clear (bm : Bitmap) (block : Nat) :
    (bm.clear block).totalBlocks = bm.totalBlocks := by
  unfold clear
  split_ifs <;> rfl

theorem byteOf_setByte {bm : Bitmap} {block : Nat} (hb : block < bm.totalBlocks) (byte : UInt8)
    (b : Nat) :
    (bm.setByte block byte).byteOf b = if block / 8 = b / 8 then byte else bm.byteOf b := by
  have hlen : block / 8 < bm.bits.length := by
    rw [bm.length_bits, divCeil]
    omega
  unfold byteOf setByte
  simp only [List.getD_eq_getElem?_getD, List.getElem?_set, hlen]
  split_ifs <;> rfl

theorem lt_of_isSet {bm : Bitmap} {b : Nat} (h : bm.isSet b = true) : b < bm.totalBlocks := by
  simp only [isSet, Bool.and_eq_true, decide_eq_true_eq] at h
  exact h.1

@[simp] theorem isSet_of_ge {bm : Bitmap} {b : Nat} (h : bm.totalBlocks ≤ b) :
    bm.isSet b = false := by
  simp [isSet, Nat.not_lt.2 h]

/-- Setting a block marks it and changes no other block. -/
theorem isSet_set {bm : Bitmap} {block : Nat} (hb : block < bm.totalBlocks) (b : Nat) :
    (bm.set block).isSet b = (decide (block = b) || bm.isSet b) := by
  simp only [set, if_pos hb, isSet, totalBlocks_setByte, byteOf_setByte hb]
  by_cases hlt : b < bm.totalBlocks
  · by_cases hbyte : block / 8 = b / 8
    · have hsame : decide (block % 8 = b % 8) = decide (block = b) := by
        congr 1
        exact propext ⟨fun _ => by omega, fun h => by rw [h]⟩
      have hb' : bm.byteOf block = bm.byteOf b := by simp only [byteOf, hbyte]
      simp only [if_pos hbyte, hb', testBit_set (bm.byteOf b) (Nat.mod_lt block (by decide))
        (Nat.mod_lt b (by decide)), hsame, hlt, decide_true, Bool.true_and]
    · have hne : block ≠ b := fun h => hbyte (by rw [h])
      simp only [if_neg hbyte, hne, decide_false, Bool.false_or]
  · have hne : block ≠ b := by omega
    simp [hlt, hne]

/-- Clearing a block frees it and changes no other block. -/
theorem isSet_clear (bm : Bitmap) (block b : Nat) :
    (bm.clear block).isSet b = (!decide (block = b) && bm.isSet b) := by
  by_cases hb : block < bm.totalBlocks
  · simp only [clear, if_pos hb, isSet, totalBlocks_setByte, byteOf_setByte hb]
    by_cases hlt : b < bm.totalBlocks
    · by_cases hbyte : block / 8 = b / 8
      · have hsame : decide (block % 8 = b % 8) = decide (block = b) := by
          congr 1
          exact propext ⟨fun _ => by omega, fun h => by rw [h]⟩
        have hb' : bm.byteOf block = bm.byteOf b := by simp only [byteOf, hbyte]
        simp only [if_pos hbyte, hb', testBit_clear (bm.byteOf b) (Nat.mod_lt block (by decide))
          (Nat.mod_lt b (by decide)), hsame, hlt, decide_true, Bool.true_and]
      · have hne : block ≠ b := fun h => hbyte (by rw [h])
        simp only [if_neg hbyte, hne, decide_false, Bool.not_false, Bool.true_and]
    · simp [hlt]
  · simp only [clear, if_neg hb]
    by_cases h : block = b
    · subst h
      simp [isSet_of_ge (Nat.not_lt.1 hb)]
    · simp [h]

private theorem getD_replicate_zero (n i : Nat) :
    (List.replicate n (0 : UInt8)).getD i 0 = 0 := by
  simp only [List.getD_eq_getElem?_getD, List.getElem?_replicate]
  split_ifs <;> rfl

private theorem zero_bit {j : Nat} (hj : j < 8) :
    ((0 : UInt8) >>> UInt8.ofNat j &&& 1 == 1) = false := by
  rw [testBit_byte _ hj]
  simp

@[simp] theorem isSet_new (n b : Nat) : (new n).isSet b = false := by
  simp only [isSet, byteOf, new, getD_replicate_zero, zero_bit (Nat.mod_lt b (by decide)),
    Bool.and_false]

theorem totalBlocks_foldl_set (blocks : List Nat) (bm : Bitmap) :
    (blocks.foldl set bm).totalBlocks = bm.totalBlocks := by
  induction blocks generalizing bm with
  | nil => rfl
  | cons b blocks ih => exact (ih _).trans (totalBlocks_set _ _)

/-- Setting the blocks of a list. -/
theorem isSet_foldl_set {blocks : List Nat} {bm : Bitmap} (h : ∀ b ∈ blocks, b < bm.totalBlocks)
    (b : Nat) : (blocks.foldl set bm).isSet b = true ↔ b ∈ blocks ∨ bm.isSet b = true := by
  induction blocks generalizing bm with
  | nil => simp
  | cons c blocks ih =>
    rw [List.forall_mem_cons] at h
    rw [List.foldl_cons, ih (by simpa only [totalBlocks_set] using h.2), isSet_set h.1,
      Bool.or_eq_true, decide_eq_true_eq, List.mem_cons]
    constructor
    · rintro (hb | rfl | hb)
      · exact .inl (.inr hb)
      · exact .inl (.inl rfl)
      · exact .inr hb
    · rintro ((rfl | hb) | hb)
      · exact .inr (.inl rfl)
      · exact .inl hb
      · exact .inr (.inr hb)

/-- A bitmap is read back from its bytes. -/
@[simp] theorem fromBytes_asBytes (bm : Bitmap) : fromBytes bm.asBytes bm.totalBlocks = bm := by
  cases bm with
  | mk bits totalBlocks length_bits =>
    simp [fromBytes, asBytes, ← length_bits]

/-! ### The allocator -/

/-- The allocator returns a free block from `start` on and marks it; every block it passed over
is taken. -/
theorem allocFrom_ok {bm bm' : Bitmap} {start block : Nat}
    (h : bm.allocFrom start = .ok (block, bm')) :
    start ≤ block ∧ block < bm.totalBlocks ∧ bm.isSet block = false ∧ bm' = bm.set block ∧
      ∀ b, start ≤ b → b < block → bm.isSet b = true := by
  unfold allocFrom at h
  split at h
  · rename_i found hfind
    simp only [Except.ok.injEq, Prod.mk.injEq] at h
    obtain ⟨rfl, rfl⟩ := h
    rw [List.find?_range'_eq_some] at hfind
    obtain ⟨hfree, hmem, hbefore⟩ := hfind
    rw [List.mem_range'_1] at hmem
    refine ⟨hmem.1, by omega, by simpa using hfree, rfl, fun b hb hb' => ?_⟩
    simpa using hbefore b hb hb'
  · simp at h

/-- The allocator fails exactly when no block from `start` on is free. -/
theorem allocFrom_error_iff {bm : Bitmap} {start : Nat} {e : FsError} :
    bm.allocFrom start = .error e ↔
      e = .noSpace ∧ ∀ b, start ≤ b → b < bm.totalBlocks → bm.isSet b = true := by
  unfold allocFrom
  split
  · rename_i found hfind
    have hfree := List.find?_some hfind
    have hmem := List.mem_of_find?_eq_some hfind
    rw [List.mem_range'_1] at hmem
    simp only [reduceCtorEq, false_iff, not_and]
    intro _ hall
    have hset := hall found hmem.1 (by omega)
    simp [hset] at hfree
  · rename_i hfind
    rw [List.find?_eq_none] at hfind
    simp only [Except.error.injEq]
    constructor
    · rintro rfl
      refine ⟨rfl, fun b hb hlt => ?_⟩
      simpa using hfind b (List.mem_range'_1.2 ⟨hb, by omega⟩)
    · rintro ⟨rfl, -⟩
      rfl

/-! ### The free count -/

theorem countFree_eq_card (bm : Bitmap) :
    bm.countFree = ((Finset.range bm.totalBlocks).filter fun b => bm.isSet b = false).card := by
  have h : ((List.range bm.totalBlocks).filter fun b => !bm.isSet b) =
      (List.range bm.totalBlocks).filter fun b => decide (bm.isSet b = false) := by
    congr 1
    funext b
    cases bm.isSet b <;> rfl
  rw [countFree, h]
  rfl

/-- Taking a free block lowers the free count by one. -/
theorem countFree_set {bm : Bitmap} {block : Nat} (hb : block < bm.totalBlocks)
    (hfree : bm.isSet block = false) : (bm.set block).countFree + 1 = bm.countFree := by
  rw [countFree_eq_card, countFree_eq_card, totalBlocks_set]
  have h : (Finset.range bm.totalBlocks).filter (fun b => (bm.set block).isSet b = false) =
      ((Finset.range bm.totalBlocks).filter fun b => bm.isSet b = false).erase block := by
    ext b
    simp only [Finset.mem_filter, Finset.mem_range, Finset.mem_erase, isSet_set hb,
      Bool.or_eq_false_iff, decide_eq_false_iff_not]
    constructor
    · rintro ⟨hlt, hne, hs⟩
      exact ⟨Ne.symm hne, hlt, hs⟩
    · rintro ⟨hne, hlt, hs⟩
      exact ⟨hlt, Ne.symm hne, hs⟩
  rw [h]
  exact Finset.card_erase_add_one (by simp [hb, hfree])

/-- Freeing a taken block raises the free count by one. -/
theorem countFree_clear {bm : Bitmap} {block : Nat} (hset : bm.isSet block = true) :
    (bm.clear block).countFree = bm.countFree + 1 := by
  have hb := lt_of_isSet hset
  rw [countFree_eq_card, countFree_eq_card, totalBlocks_clear]
  have h : (Finset.range bm.totalBlocks).filter (fun b => (bm.clear block).isSet b = false) =
      insert block ((Finset.range bm.totalBlocks).filter fun b => bm.isSet b = false) := by
    ext b
    simp only [Finset.mem_filter, Finset.mem_range, Finset.mem_insert, isSet_clear,
      Bool.and_eq_false_imp, Bool.not_eq_true', decide_eq_false_iff_not]
    constructor
    · rintro ⟨hlt, hs⟩
      by_cases hne : block = b
      · exact Or.inl hne.symm
      · exact Or.inr ⟨hlt, hs hne⟩
    · rintro (rfl | ⟨hlt, hs⟩)
      · exact ⟨hb, fun hne => absurd rfl hne⟩
      · exact ⟨hlt, fun _ => hs⟩
  rw [h]
  exact Finset.card_insert_of_notMem (by simp [hset])

end Bitmap

end AlbumFS
