import Mathlib.Data.List.Basic
import Mathlib.Tactic.Ring

/-!
# Slices of byte buffers and little-endian integers

Fixed-size buffers are edited by copying a slice over part of them. `slice l off len` is the
Rust slice `l[off..off + len]` and `overwrite l off bs` is `l[off..off + bs.len()]` replaced by
`bs`. The two interact by two rules: a slice inside the overwritten range reads the new bytes,
and a slice disjoint from it reads the old ones.

`toLE w n` is the `w`-byte little-endian encoding of `n` and `ofLE` decodes it.

## Main results

* `slice_overwrite_inside`, `slice_overwrite_of_disjoint`: reading after writing.
* `ofLE_toLE`, `toLE_ofLE`: the codec of little-endian integers.
-/

namespace AlbumFS

section Slices

variable {α : Type}

/-- The slice of length `len` that starts at `off`. -/
def slice (l : List α) (off len : Nat) : List α := (l.drop off).take len

/-- The buffer `l` with the bytes `bs` copied over it from position `off`. What would fall behind
the end of the buffer is dropped, so a buffer keeps its length. -/
def overwrite (l : List α) (off : Nat) (bs : List α) : List α :=
  l.take off ++ bs.take (l.length - off) ++ l.drop (off + bs.length)

theorem length_slice {l : List α} {off len : Nat} (h : off + len ≤ l.length) :
    (slice l off len).length = len := by
  simp only [slice, List.length_take, List.length_drop]
  omega

theorem length_slice_le (l : List α) (off len : Nat) : (slice l off len).length ≤ len := by
  simp only [slice, List.length_take]
  omega

@[simp] theorem length_overwrite (l : List α) (off : Nat) (bs : List α) :
    (overwrite l off bs).length = l.length := by
  simp only [overwrite, List.length_append, List.length_take, List.length_drop]
  omega

theorem getElem?_slice (l : List α) (off len i : Nat) :
    (slice l off len)[i]? = if i < len then l[off + i]? else none := by
  simp only [slice, List.getElem?_take, List.getElem?_drop]

theorem getElem?_overwrite (l : List α) (off : Nat) (bs : List α) (i : Nat) :
    (overwrite l off bs)[i]? =
      if off ≤ i ∧ i < off + bs.length ∧ i < l.length then bs[i - off]? else l[i]? := by
  unfold overwrite
  simp only [List.append_assoc, List.getElem?_append, List.length_take, List.getElem?_take,
    List.getElem?_drop]
  by_cases h₁ : i < off
  · grind
  · grind

/-- Overwriting changes no byte before the range. -/
theorem getElem?_overwrite_of_lt {l : List α} {off : Nat} {bs : List α} {i : Nat} (h : i < off) :
    (overwrite l off bs)[i]? = l[i]? := by
  rw [getElem?_overwrite]
  exact if_neg (by omega)

/-- Overwriting changes no byte behind the range. -/
theorem getElem?_overwrite_of_ge {l : List α} {off : Nat} {bs : List α} {i : Nat}
    (h : off + bs.length ≤ i) : (overwrite l off bs)[i]? = l[i]? := by
  rw [getElem?_overwrite]
  exact if_neg (by omega)

/-- A slice that lies inside the overwritten range is a slice of the new bytes. -/
theorem slice_overwrite_inside {l : List α} {off : Nat} {bs : List α} {k len : Nat}
    (h : k + len ≤ bs.length) (hl : off + bs.length ≤ l.length) :
    slice (overwrite l off bs) (off + k) len = slice bs k len := by
  apply List.ext_getElem?
  intro i
  simp only [getElem?_slice, getElem?_overwrite]
  split_ifs with h₁ h₂
  · congr 1
    omega
  · omega
  · rfl

/-- `l[a..b]`, with `none` where the program panics. -/
def sliceChecked (l : List α) (a b : Nat) : Option (List α) :=
  if a ≤ b ∧ b ≤ l.length then some (slice l a (b - a)) else none

theorem sliceChecked_eq {l : List α} {a b : Nat} (hab : a ≤ b) (hb : b ≤ l.length) :
    sliceChecked l a b = some (slice l a (b - a)) := if_pos ⟨hab, hb⟩

theorem slice_zero_length (l : List α) : slice l 0 l.length = l := by
  simp [slice]

/-- Reading back the bytes just written. -/
theorem slice_overwrite_self {l : List α} {off : Nat} {bs : List α}
    (hl : off + bs.length ≤ l.length) :
    slice (overwrite l off bs) off bs.length = bs := by
  have h : slice (overwrite l off bs) (off + 0) bs.length = slice bs 0 bs.length :=
    slice_overwrite_inside (by omega) hl
  rwa [Nat.add_zero, slice_zero_length] at h

/-- A slice disjoint from the overwritten range is unchanged. -/
theorem slice_overwrite_of_disjoint {l : List α} {off : Nat} {bs : List α} {off' len : Nat}
    (h : off' + len ≤ off ∨ off + bs.length ≤ off') :
    slice (overwrite l off bs) off' len = slice l off' len := by
  apply List.ext_getElem?
  intro i
  simp only [getElem?_slice, getElem?_overwrite]
  split_ifs with h₁ h₂
  · omega
  · rfl
  · rfl

/-- Writing back what was read. -/
theorem overwrite_slice (l : List α) (off len : Nat) : overwrite l off (slice l off len) = l := by
  apply List.ext_getElem?
  intro i
  rw [getElem?_overwrite]
  split_ifs with h
  · have hlen := length_slice_le l off len
    rw [getElem?_slice, if_pos (by omega), Nat.add_sub_cancel' h.1]
  · rfl

/-- Slices of buffers that agree on a range agree inside it. -/
theorem slice_congr {l l' : List α} {off len : Nat}
    (h : ∀ i, off ≤ i → i < off + len → l[i]? = l'[i]?) : slice l off len = slice l' off len := by
  apply List.ext_getElem?
  intro i
  simp only [getElem?_slice]
  split_ifs with hi
  · exact h _ (by omega) (by omega)
  · rfl

/-- Two buffers of which a slice is equal agree on its range. -/
theorem getElem?_eq_of_slice_eq {l l' : List α} {off len i : Nat}
    (h : slice l off len = slice l' off len) (hi : off ≤ i) (hi' : i < off + len) :
    l[i]? = l'[i]? := by
  have h' := congrArg (·[i - off]?) h
  simp only [getElem?_slice, if_pos (show i - off < len by omega)] at h'
  rwa [show off + (i - off) = i by omega] at h'

/-- A slice of a slice. -/
theorem slice_slice {l : List α} {off len k n : Nat} (h : k + n ≤ len) :
    slice (slice l off len) k n = slice l (off + k) n := by
  apply List.ext_getElem?
  intro i
  simp only [getElem?_slice]
  split_ifs with h₁ h₂
  · rw [Nat.add_assoc]
  · omega
  · rfl

/-- A record laid out in a buffer: each pair gives the position and the bytes of one field. -/
def overwriteAll (l : List α) (ws : List (Nat × List α)) : List α :=
  ws.foldl (fun l w => overwrite l w.1 w.2) l

@[simp] theorem length_overwriteAll (l : List α) (ws : List (Nat × List α)) :
    (overwriteAll l ws).length = l.length := by
  induction ws generalizing l with
  | nil => rfl
  | cons w ws ih => exact (ih _).trans (length_overwrite _ _ _)

/-- A slice disjoint from every field is unchanged. -/
theorem slice_overwriteAll_of_disjoint {l : List α} {ws : List (Nat × List α)} {off len : Nat}
    (h : ∀ w ∈ ws, off + len ≤ w.1 ∨ w.1 + w.2.length ≤ off) :
    slice (overwriteAll l ws) off len = slice l off len := by
  induction ws generalizing l with
  | nil => rfl
  | cons w ws ih =>
    rw [List.forall_mem_cons] at h
    exact (ih h.2).trans (slice_overwrite_of_disjoint h.1)

/-- Fields that do not overlap are read back as they were written. -/
theorem slice_overwriteAll {l : List α} {ws : List (Nat × List α)} {off : Nat} {bs : List α}
    (hws : ws.Pairwise fun w w' => w.1 + w.2.length ≤ w'.1 ∨ w'.1 + w'.2.length ≤ w.1)
    (hmem : (off, bs) ∈ ws) (hl : off + bs.length ≤ l.length) :
    slice (overwriteAll l ws) off bs.length = bs := by
  induction ws generalizing l with
  | nil => simp at hmem
  | cons w ws ih =>
    rw [List.pairwise_cons] at hws
    rcases List.mem_cons.1 hmem with rfl | hmem
    · exact (slice_overwriteAll_of_disjoint hws.1).trans (slice_overwrite_self hl)
    · exact ih hws.2 hmem (by rwa [length_overwrite])

/-- Neighbouring slices form a slice. -/
theorem slice_append_slice (l : List α) (off n m : Nat) :
    slice l off n ++ slice l (off + n) m = slice l off (n + m) := by
  rw [slice, slice, slice, List.take_add, List.drop_drop]

theorem slice_append_left {l l' : List α} {off len : Nat} (h : off + len ≤ l.length) :
    slice (l ++ l') off len = slice l off len := by
  rw [slice, slice, List.drop_append_of_le_length (by omega), List.take_append_of_le_length]
  rw [List.length_drop]
  omega

theorem slice_range {n off len : Nat} (h : off + len ≤ n) :
    slice (List.range n) off len = List.range' off len := by
  apply List.ext_getElem?
  intro i
  rw [getElem?_slice]
  split_ifs with hi
  · rw [List.getElem?_range (by omega), List.getElem?_range' hi, Nat.one_mul]
  · rw [List.getElem?_eq_none (by rw [List.length_range']; omega)]

theorem slice_append_right (l l' : List α) (len : Nat) :
    slice (l ++ l') l.length len = l'.take len := by
  rw [slice, List.drop_left]

/-- Copying over the bytes behind a prefix. -/
theorem overwrite_append {l l' bs : List α} (h : bs.length ≤ l'.length) :
    overwrite (l ++ l') l.length bs = l ++ (bs ++ l'.drop bs.length) := by
  rw [overwrite, List.take_left, List.length_append, Nat.add_sub_cancel_left,
    List.take_of_length_le h, List.drop_length_add_append, List.append_assoc]

/-- Parts of a record that follow one another, with their positions. -/
def placed : Nat → List (List α) → List (Nat × List α)
  | _, [] => []
  | off, bs :: parts => (off, bs) :: placed (off + bs.length) parts

/-- A buffer holds the parts in a row when it holds each of them at its position. -/
theorem slice_eq_flatten_iff {l : List α} {off : Nat} {parts : List (List α)} :
    slice l off parts.flatten.length = parts.flatten ↔
      ∀ w ∈ placed off parts, slice l w.1 w.2.length = w.2 := by
  induction parts generalizing off with
  | nil => simp [placed, slice]
  | cons bs parts ih =>
    rw [placed, List.forall_mem_cons, ← ih, List.flatten_cons, List.length_append,
      ← slice_append_slice]
    dsimp only
    constructor
    · intro h
      have hle := length_slice_le l off bs.length
      have hlen := congrArg List.length h
      rw [List.length_append, List.length_append] at hlen
      have hle' := length_slice_le l (off + bs.length) parts.flatten.length
      exact List.append_inj h (by omega)
    · rintro ⟨hbs, hparts⟩
      rw [hbs, hparts]

/-- Parts written in a row. -/
theorem overwriteAll_placed {l l' : List α} {parts : List (List α)}
    (h : parts.flatten.length ≤ l'.length) :
    overwriteAll (l ++ l') (placed l.length parts) =
      l ++ (parts.flatten ++ l'.drop parts.flatten.length) := by
  induction parts generalizing l l' with
  | nil => rfl
  | cons bs parts ih =>
    rw [List.flatten_cons, List.length_append] at h
    have hrest := @ih (l ++ bs) (l'.drop bs.length) (by rw [List.length_drop]; omega)
    rw [List.length_append] at hrest
    rw [placed, overwriteAll, List.foldl_cons]
    dsimp only
    rw [overwrite_append (by omega), ← List.append_assoc, ← overwriteAll, hrest, List.drop_drop, List.flatten_cons, List.length_append, List.append_assoc,
      List.append_assoc]

end Slices

/-! ### Little-endian integers -/

/-- The `w`-byte little-endian encoding of `n`, which keeps `n` modulo `256 ^ w`. -/
def toLE : Nat → Nat → List UInt8
  | 0, _ => []
  | w + 1, n => UInt8.ofNat (n % 256) :: toLE w (n / 256)

/-- The integer that a little-endian byte string denotes. -/
def ofLE : List UInt8 → Nat
  | [] => 0
  | b :: bs => b.toNat + 256 * ofLE bs

@[simp] theorem length_toLE (w n : Nat) : (toLE w n).length = w := by
  induction w generalizing n with
  | zero => rfl
  | succ w ih => simp only [toLE, List.length_cons, ih]

theorem ofLE_lt (bs : List UInt8) : ofLE bs < 256 ^ bs.length := by
  induction bs with
  | nil => simp [ofLE]
  | cons b bs ih =>
    have hb : b.toNat < 256 := b.toNat_lt
    simp only [ofLE, List.length_cons, Nat.pow_succ]
    omega

theorem ofLE_toLE (w n : Nat) : ofLE (toLE w n) = n % 256 ^ w := by
  induction w generalizing n with
  | zero => simp [toLE, ofLE, Nat.mod_one]
  | succ w ih =>
    have hb : (UInt8.ofNat (n % 256)).toNat = n % 256 := by
      simp
    simp only [toLE, ofLE, ih, hb]
    rw [Nat.pow_succ, Nat.mul_comm (256 ^ w) 256, Nat.mod_mul]

theorem ofLE_toLE_of_lt {w n : Nat} (h : n < 256 ^ w) : ofLE (toLE w n) = n := by
  rw [ofLE_toLE, Nat.mod_eq_of_lt h]

theorem toLE_ofLE (bs : List UInt8) : toLE bs.length (ofLE bs) = bs := by
  induction bs with
  | nil => rfl
  | cons b bs ih =>
    have hb : b.toNat < 256 := b.toNat_lt
    simp only [List.length_cons, toLE, ofLE]
    rw [show (b.toNat + 256 * ofLE bs) % 256 = b.toNat by omega,
      show (b.toNat + 256 * ofLE bs) / 256 = ofLE bs by omega, ih]
    simp

/-- A byte string denotes zero when all its bytes are zero, and only then. -/
theorem ofLE_eq_zero_iff {bs : List UInt8} : ofLE bs = 0 ↔ ∀ b ∈ bs, b = 0 := by
  induction bs with
  | nil => simp [ofLE]
  | cons b bs ih =>
    have hb : b.toNat = 0 ↔ b = 0 := by
      rw [← UInt8.toNat_inj]
      rfl
    simp only [ofLE, List.forall_mem_cons, ← ih, ← hb]
    omega

/-! ### Integers of fixed width -/

def u16LE (x : UInt16) : List UInt8 := toLE 2 x.toNat

def u32LE (x : UInt32) : List UInt8 := toLE 4 x.toNat

def u64LE (x : UInt64) : List UInt8 := toLE 8 x.toNat

/-- `u16::from_le_bytes` of the two bytes at `off`. -/
def u16At (l : List UInt8) (off : Nat) : UInt16 := UInt16.ofNat (ofLE (slice l off 2))

/-- `u32::from_le_bytes` of the four bytes at `off`. -/
def u32At (l : List UInt8) (off : Nat) : UInt32 := UInt32.ofNat (ofLE (slice l off 4))

/-- `u64::from_le_bytes` of the eight bytes at `off`. -/
def u64At (l : List UInt8) (off : Nat) : UInt64 := UInt64.ofNat (ofLE (slice l off 8))

@[simp] theorem length_u16LE (x : UInt16) : (u16LE x).length = 2 := length_toLE _ _

@[simp] theorem length_u32LE (x : UInt32) : (u32LE x).length = 4 := length_toLE _ _

@[simp] theorem length_u64LE (x : UInt64) : (u64LE x).length = 8 := length_toLE _ _

theorem u16At_eq {l : List UInt8} {off : Nat} {x : UInt16} (h : slice l off 2 = u16LE x) :
    u16At l off = x := by
  rw [u16At, h, u16LE, ofLE_toLE_of_lt x.toNat_lt, UInt16.ofNat_toNat]

theorem u32At_eq {l : List UInt8} {off : Nat} {x : UInt32} (h : slice l off 4 = u32LE x) :
    u32At l off = x := by
  rw [u32At, h, u32LE, ofLE_toLE_of_lt x.toNat_lt, UInt32.ofNat_toNat]

theorem u64At_eq {l : List UInt8} {off : Nat} {x : UInt64} (h : slice l off 8 = u64LE x) :
    u64At l off = x := by
  rw [u64At, h, u64LE, ofLE_toLE_of_lt x.toNat_lt, UInt64.ofNat_toNat]

/-- The bytes at `off` are the encoding of the integer read there. -/
theorem u64LE_u64At {l : List UInt8} {off : Nat} (h : off + 8 ≤ l.length) :
    u64LE (u64At l off) = slice l off 8 := by
  have hlen := length_slice h
  have hlt := ofLE_lt (slice l off 8)
  rw [hlen] at hlt
  rw [u64LE, u64At, UInt64.toNat_ofNat_of_lt' hlt]
  simpa only [hlen] using toLE_ofLE (slice l off 8)

theorem u16LE_u16At {l : List UInt8} {off : Nat} (h : off + 2 ≤ l.length) :
    u16LE (u16At l off) = slice l off 2 := by
  have hlen := length_slice h
  have hlt := ofLE_lt (slice l off 2)
  rw [hlen] at hlt
  rw [u16LE, u16At, UInt16.toNat_ofNat_of_lt' hlt]
  simpa only [hlen] using toLE_ofLE (slice l off 2)

theorem u32LE_u32At {l : List UInt8} {off : Nat} (h : off + 4 ≤ l.length) :
    u32LE (u32At l off) = slice l off 4 := by
  have hlen := length_slice h
  have hlt := ofLE_lt (slice l off 4)
  rw [hlen] at hlt
  rw [u32LE, u32At, UInt32.toNat_ofNat_of_lt' hlt]
  simpa only [hlen] using toLE_ofLE (slice l off 4)

theorem u64At_overwrite_self {l : List UInt8} {off : Nat} (x : UInt64)
    (h : off + 8 ≤ l.length) : u64At (overwrite l off (u64LE x)) off = x := by
  apply u64At_eq
  have hs : slice (overwrite l off (u64LE x)) off (u64LE x).length = u64LE x :=
    slice_overwrite_self (by simpa using h)
  rwa [length_u64LE] at hs

theorem u64At_overwrite_of_disjoint {l : List UInt8} {off off' : Nat} {bs : List UInt8}
    (h : off' + 8 ≤ off ∨ off + bs.length ≤ off') :
    u64At (overwrite l off bs) off' = u64At l off' := by
  rw [u64At, u64At, slice_overwrite_of_disjoint h]

/-! ### Strings as bytes -/

/-- The bytes of a string. -/
def utf8 (s : String) : List UInt8 := s.toByteArray.data.toList

/-- `str::from_utf8`. -/
def fromUtf8 (bs : List UInt8) : Option String := String.fromUTF8? bs.toByteArray

private theorem toByteArray_utf8 (s : String) : (utf8 s).toByteArray = s.toByteArray := by
  apply ByteArray.ext
  rw [← Array.toList_inj, List.toList_data_toByteArray]
  rfl

/-- A string is read back from its bytes, and only from its bytes. -/
theorem fromUtf8_eq_some_iff {bs : List UInt8} {s : String} :
    fromUtf8 bs = some s ↔ bs = utf8 s := by
  unfold fromUtf8 String.fromUTF8?
  constructor
  · intro h
    split at h
    · rename_i hv
      rw [Option.some.injEq] at h
      subst h
      exact (List.toList_data_toByteArray (l := bs)).symm
    · cases h
  · rintro rfl
    have hv : (utf8 s).toByteArray.IsValidUTF8 := by
      rw [toByteArray_utf8]
      exact s.isValidUTF8
    rw [dif_pos hv, Option.some.injEq]
    exact String.toByteArray_inj.1 (toByteArray_utf8 s)

@[simp] theorem fromUtf8_utf8 (s : String) : fromUtf8 (utf8 s) = some s :=
  fromUtf8_eq_some_iff.2 rfl

theorem utf8_injective : Function.Injective utf8 := by
  intro s t h
  have hs := fromUtf8_utf8 s
  rw [h, fromUtf8_utf8] at hs
  exact (Option.some.inj hs).symm

/-! ### Checksums -/

/-- One step of the checksum: a byte goes through the reflected polynomial bit by bit. -/
def crc32Byte (crc : UInt32) (byte : UInt8) : UInt32 :=
  (List.range 8).foldl
    (fun crc _ => crc >>> 1 ^^^ (if crc &&& 1 = 1 then 0xEDB88320 else 0)) (crc ^^^ byte.toUInt32)

/-- The CRC-32 of a byte string. -/
@[irreducible] def crc32 (bytes : List UInt8) : UInt32 :=
  bytes.foldl crc32Byte 0xFFFFFFFF ^^^ 0xFFFFFFFF

/-- `usize::checked_add` and `u64::checked_add`. -/
def checkedAdd (a b : Nat) : Option Nat := if a + b < 2 ^ 64 then some (a + b) else none

theorem checkedAdd_of_lt {a b : Nat} (h : a + b < 2 ^ 64) : checkedAdd a b = some (a + b) :=
  if_pos h

/-- `usize::checked_mul` and `u64::checked_mul`. -/
def checkedMul (a b : Nat) : Option Nat := if a * b < 2 ^ 64 then some (a * b) else none

theorem checkedMul_of_lt {a b : Nat} (h : a * b < 2 ^ 64) : checkedMul a b = some (a * b) :=
  if_pos h

end AlbumFS
