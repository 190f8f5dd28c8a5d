import AlbumFS.Fs.View
import AlbumFS.Lib.BlockTree

/-!
# The pointers of the stored inodes

Each live inode carries twelve direct pointers, a single indirect pointer and a double indirect
pointer; the blocks behind the last two hold further pointers. These are the places of a forest of
pointer blocks: a `Slot` is an inode number, one of its fourteen pointers, and a path of at most
two positions below it. `View.own` sends a slot to the block it names.

Operations work on a copy of an inode that they store at their end. `View.ownWith v ino inode` is
the ownership map in which the copy `inode` stands for the stored inode `ino`.

## Main definitions

* `Root`, `Slot`: the pointers of an inode and all pointers below them.
* `View.own`, `View.ownWith`: the blocks that slots name.
* `dataSlot`, `slotsTo`: the slot of a block of a file and the slots on the way to it.

## Main results

* `dataSlot_injective`: different blocks of a file have different slots.
* `View.own_data_congr`: writing a block of contents changes no pointer.
-/

namespace AlbumFS

open BlockTree

/-- The pointers that an inode carries itself. -/
inductive Root where
  | direct (index : Fin 12)
  | single
  | double
  deriving DecidableEq

namespace Root

/-- The number of pointer blocks between the pointer and the data. -/
def depth : Root → Nat
  | direct _ => 0
  | single => 1
  | double => 2

def pointer (inode : Inode) : Root → UInt64
  | direct index => inode.direct.get index
  | single => inode.singleIndirect
  | double => inode.doubleIndirect

theorem pointer_direct (inode : Inode) {index : Nat} (h : index < 12) :
    (direct ⟨index, h⟩).pointer inode = inode.direct[index] := rfl

end Root

/-- A pointer of an inode or of one of its pointer blocks. -/
abbrev Slot : Type := Place (Fin POINTERS_PER_BLOCK) fun root : Nat × Root => root.2.depth

namespace Slot

/-- The inode that a slot belongs to. -/
def ino (s : Slot) : Nat := s.root.1

def direct (ino : Nat) (index : Fin 12) : Slot := ⟨(ino, .direct index), [], Nat.zero_le _⟩

def single (ino : Nat) : Slot := ⟨(ino, .single), [], Nat.zero_le _⟩

/-- A pointer of the single indirect block. -/
def entry (ino : Nat) (j : Fin POINTERS_PER_BLOCK) : Slot := ⟨(ino, .single), [j], Nat.le_refl 1⟩

def double (ino : Nat) : Slot := ⟨(ino, .double), [], Nat.zero_le _⟩

/-- A pointer of the double indirect block, which names an inner indirect block. -/
def inner (ino : Nat) (k : Fin POINTERS_PER_BLOCK) : Slot := ⟨(ino, .double), [k], Nat.le_succ 1⟩

/-- A pointer of an inner indirect block. -/
def leaf (ino : Nat) (k j : Fin POINTERS_PER_BLOCK) : Slot :=
  ⟨(ino, .double), [j, k], Nat.le_refl 2⟩

section Above

variable {ino : Nat} {s : Slot} {i : Fin 12} {j k : Fin POINTERS_PER_BLOCK}

theorem above_direct_iff : s.Above (direct ino i) ↔ s = direct ino i := Place.above_root_iff

theorem above_single_iff : s.Above (single ino) ↔ s = single ino := Place.above_root_iff

theorem above_entry_iff : s.Above (entry ino j) ↔ s = single ino ∨ s = entry ino j :=
  Place.above_cons_iff.trans (or_comm.trans (or_congr above_single_iff Iff.rfl))

theorem above_double_iff : s.Above (double ino) ↔ s = double ino := Place.above_root_iff

theorem above_inner_iff : s.Above (inner ino k) ↔ s = double ino ∨ s = inner ino k :=
  Place.above_cons_iff.trans (or_comm.trans (or_congr above_double_iff Iff.rfl))

theorem above_leaf_iff :
    s.Above (leaf ino k j) ↔ (s = double ino ∨ s = inner ino k) ∨ s = leaf ino k j :=
  Place.above_cons_iff.trans (or_comm.trans (or_congr above_inner_iff Iff.rfl))

theorem single_above_iff : (single ino).Above s ↔ s = single ino ∨ ∃ j, s = entry ino j := by
  rw [Place.above_iff_child]
  refine or_congr Iff.rfl ⟨?_, ?_⟩
  · rintro ⟨j, h, ha⟩
    exact ⟨j, ha.eq_of_isLeaf rfl⟩
  · rintro ⟨j, rfl⟩
    exact ⟨j, Nat.le_refl 1, Place.Above.refl _⟩

theorem inner_above_iff :
    (inner ino k).Above s ↔ s = inner ino k ∨ ∃ j, s = leaf ino k j := by
  rw [Place.above_iff_child]
  refine or_congr Iff.rfl ⟨?_, ?_⟩
  · rintro ⟨j, h, ha⟩
    exact ⟨j, ha.eq_of_isLeaf rfl⟩
  · rintro ⟨j, rfl⟩
    exact ⟨j, Nat.le_refl 2, Place.Above.refl _⟩

theorem double_above_iff :
    (double ino).Above s ↔
      s = double ino ∨ ∃ k, s = inner ino k ∨ ∃ j, s = leaf ino k j := by
  rw [Place.above_iff_child]
  refine or_congr Iff.rfl ⟨?_, ?_⟩
  · rintro ⟨k, h, ha⟩
    exact ⟨k, inner_above_iff.1 ha⟩
  · rintro ⟨k, hs⟩
    exact ⟨k, Nat.le_succ 1, inner_above_iff.2 hs⟩

end Above

/-- The number of the block of contents that a slot at full depth names. -/
def index (s : Slot) : Nat :=
  match s.root.2, s.path with
  | .direct index, _ => index
  | .single, [j] => 12 + j
  | .double, [j, k] => 12 + POINTERS_PER_BLOCK + (k * POINTERS_PER_BLOCK + j)
  | _, _ => 0

theorem not_isLeaf_single (ino : Nat) : ¬ (single ino).IsLeaf := Nat.zero_ne_one

theorem not_isLeaf_double (ino : Nat) : ¬ (double ino).IsLeaf := Nat.zero_ne_add_one 1

theorem not_isLeaf_inner (ino : Nat) (k : Fin POINTERS_PER_BLOCK) : ¬ (inner ino k).IsLeaf :=
  fun h => absurd (show 1 = 2 from h) (by decide)

/-- There are no other slots. -/
theorem cases (s : Slot) :
    (∃ index, s = direct s.ino index) ∨ s = single s.ino ∨ (∃ j, s = entry s.ino j) ∨
      s = double s.ino ∨ (∃ k, s = inner s.ino k) ∨ ∃ k j, s = leaf s.ino k j := by
  obtain ⟨⟨ino, root⟩, path, h⟩ := s
  cases root with
  | direct index =>
    obtain rfl : path = [] := List.length_eq_zero_iff.1 (Nat.le_zero.1 h)
    exact .inl ⟨index, rfl⟩
  | single =>
    match path, h with
    | [], _ => exact .inr (.inl rfl)
    | [j], _ => exact .inr (.inr (.inl ⟨j, rfl⟩))
    | _ :: _ :: _, h => simp [Root.depth] at h
  | double =>
    match path, h with
    | [], _ => exact .inr (.inr (.inr (.inl rfl)))
    | [k], _ => exact .inr (.inr (.inr (.inr (.inl ⟨k, rfl⟩))))
    | [j, k], _ => exact .inr (.inr (.inr (.inr (.inr ⟨k, j, rfl⟩))))
    | _ :: _ :: _ :: _, h => simp [Root.depth] at h

end Slot

/-- The block that a pointer of a pointer block names. -/
def pointerEntry (block : Block) (j : Fin POINTERS_PER_BLOCK) : Option Nat :=
  AlbumFs.thenSome (AlbumFs.pointerAt block j)

/-- The blocks that the pointers of the inodes `inodes` name. -/
def rootBlock (inodes : Nat → Option Inode) (root : Nat × Root) : Option Nat :=
  (inodes root.1).bind fun inode => AlbumFs.thenSome (root.2.pointer inode)

/-! ### Pointers in bytes -/

section Pointers

open AlbumFs

theorem thenSome_eq_none {p : UInt64} : thenSome p = none ↔ p = 0 := by
  unfold thenSome
  split_ifs with h <;> simp_all

theorem thenSome_eq_some {p : UInt64} {b : Nat} :
    thenSome p = some b ↔ p ≠ 0 ∧ p.toNat = b := by
  unfold thenSome
  split_ifs with h <;> simp_all

@[simp] theorem thenSome_zero : thenSome 0 = none := rfl

/-- The numbers of the data blocks fit into a pointer. -/
theorem thenSome_ofNat {b : Nat} (hpos : 0 < b) (hlt : b < 2 ^ 64) :
    thenSome (UInt64.ofNat b) = some b := by
  have hb : (UInt64.ofNat b).toNat = b := UInt64.toNat_ofNat_of_lt' hlt
  refine thenSome_eq_some.2 ⟨fun h => ?_, hb⟩
  rw [h] at hb
  exact absurd hb (Nat.ne_of_lt hpos)

theorem pointer_bytes_le (j : Fin POINTERS_PER_BLOCK) (block : Block) :
    j.val * 8 + 8 ≤ block.bytes.length := by
  have hj : j.val < 504 := Nat.lt_of_lt_of_eq j.isLt POINTERS_PER_BLOCK_eq
  rw [block.length_bytes, UB_eq]
  omega

/-- Storing a pointer changes one entry of a pointer block. -/
theorem pointerAt_setPointer (block : Block) (i j : Fin POINTERS_PER_BLOCK) (p : UInt64) :
    pointerAt (setPointer block i p) j = if j = i then p else pointerAt block j := by
  unfold pointerAt setPointer
  rw [Block.bytes_write]
  split_ifs with h
  · rw [h, u64At_overwrite_self p (pointer_bytes_le i block)]
  · have hne : j.val ≠ i.val := fun hv => h (Fin.ext hv)
    refine u64At_overwrite_of_disjoint ?_
    rw [length_u64LE]
    omega

theorem pointerEntry_setPointer (block : Block) (i j : Fin POINTERS_PER_BLOCK) (p : UInt64) :
    pointerEntry (setPointer block i p) j =
      if j = i then thenSome p else pointerEntry block j := by
  simp only [pointerEntry, pointerAt_setPointer]
  split_ifs <;> rfl

/-- Storing a pointer that is there already. -/
theorem setPointer_self (block : Block) (i : Fin POINTERS_PER_BLOCK) :
    setPointer block i (pointerAt block i) = block := by
  apply Block.ext
  rw [setPointer, pointerAt, Block.bytes_write, u64LE_u64At (pointer_bytes_le i block)]
  exact overwrite_slice _ _ _

theorem u64At_eq_zero_iff {l : List UInt8} {off : Nat} (h : off + 8 ≤ l.length) :
    u64At l off = 0 ↔ ∀ b ∈ slice l off 8, b = 0 := by
  rw [← ofLE_eq_zero_iff]
  have hlt := ofLE_lt (slice l off 8)
  rw [length_slice h] at hlt
  rw [← UInt64.toNat_inj, u64At, UInt64.toNat_ofNat_of_lt' hlt]
  rfl

@[simp] theorem pointerEntry_zero (j : Fin POINTERS_PER_BLOCK) :
    pointerEntry Block.zero j = none :=
  thenSome_eq_none.2 ((u64At_eq_zero_iff (pointer_bytes_le j _)).2 (Block.slice_zero _ _))

/-- A pointer block is all zero when it has no entry. -/
theorem allZero_iff (block : Block) : allZero block = true ↔ ∀ j, pointerEntry block j = none := by
  have hentry : ∀ j, pointerEntry block j = none ↔ ∀ b ∈ slice block.bytes (j.val * 8) 8, b = 0 :=
    fun j => thenSome_eq_none.trans (u64At_eq_zero_iff (pointer_bytes_le j block))
  simp only [allZero, List.all_eq_true, beq_iff_eq, hentry]
  constructor
  · intro h j b hb
    exact h b (List.mem_of_mem_drop (List.mem_of_mem_take hb))
  · intro h b hb
    obtain ⟨i, hi, rfl⟩ := List.getElem_of_mem hb
    have hlen : i < 504 * 8 := Nat.lt_of_lt_of_eq hi block.length_bytes
    have hindex : i / 8 < POINTERS_PER_BLOCK := by
      rw [POINTERS_PER_BLOCK_eq]
      omega
    refine h ⟨i / 8, hindex⟩ _ ?_
    rw [List.mem_iff_getElem?]
    refine ⟨i % 8, ?_⟩
    rw [getElem?_slice, if_pos (Nat.mod_lt _ (by decide)), Nat.div_add_mod' i 8,
      List.getElem?_eq_getElem hi]

end Pointers

/-! ### Slots and their blocks -/

theorem rootBlock_update_of_ne {inodes : Nat → Option Inode} {root : Nat × Root} {ino : Nat}
    (h : root.1 ≠ ino) (inode : Option Inode) :
    rootBlock (Function.update inodes ino inode) root = rootBlock inodes root := by
  rw [rootBlock, Function.update_of_ne h, rootBlock]

theorem rootBlock_update_self (inodes : Nat → Option Inode) (root : Nat × Root)
    (inode : Inode) :
    rootBlock (Function.update inodes root.1 (some inode)) root =
      AlbumFs.thenSome (root.2.pointer inode) := by
  rw [rootBlock, Function.update_self, Option.bind_some]

namespace View

/-- The blocks that the slots of `inodes` name. -/
def ownOf (data : Nat → Block) (inodes : Nat → Option Inode) : Slot → Option Nat :=
  hold pointerEntry data (rootBlock inodes)

/-- The blocks that the slots of the stored inodes name. -/
def own (v : View) : Slot → Option Nat := ownOf v.data v.inodes

/-- The blocks that the slots name when `inode` stands for the stored inode `ino`. -/
def ownWith (v : View) (ino : Nat) (inode : Inode) : Slot → Option Nat :=
  ownOf v.data (Function.update v.inodes ino (some inode))

/-- The blocks of the data region that the bitmap marks. -/
def allocated (v : View) : Set Nat := { b | v.InData b ∧ v.bitmap.isSet b = true }

variable {v : View} {ino : Nat} {inode : Inode} {s : Slot}

/-- The copy of a stored inode has the pointers of the stored inode. -/
theorem ownWith_self (h : v.inodes ino = some inode) : v.ownWith ino inode = v.own := by
  rw [ownWith, ← h, Function.update_eq_self]
  rfl

theorem ownWith_of_ne (h : s.ino ≠ ino) : v.ownWith ino inode s = v.own s := by
  rw [ownWith, own, ownOf, hold, rootBlock_update_of_ne h]
  rfl

/-- Storing the copy of a live inode. -/
theorem own_setInode (h : inode.mode ≠ 0) : (v.setInode ino inode).own = v.ownWith ino inode := by
  rw [own, setInode, Inode.live_of_ne h]
  rfl

/-- An inode that is not live holds nothing. -/
theorem own_eq_none (h : v.inodes s.ino = none) : v.own s = none := by
  have hroot : rootBlock v.inodes s.root = none := by
    rw [rootBlock, show v.inodes s.root.1 = none from h, Option.bind_none]
  rw [own, ownOf, hold, hroot, walk_none]

/-- Freeing an inode takes its slots away. -/
theorem own_setInode_default (ino : Nat) :
    (v.setInode ino Inode.default).own s = if s.ino = ino then none else v.own s := by
  split_ifs with h
  · refine own_eq_none ?_
    rw [inodes_setInode, h, Function.update_self, Inode.live_default]
  · rw [own, ownOf, hold, inodes_setInode, rootBlock_update_of_ne h]
    rfl

/-- Writing a block of contents changes no pointer. -/
theorem ownOf_data_congr {data : Nat → Block} {inodes : Nat → Option Inode} {b : Nat}
    {block : Block} (h : ∀ t, ownOf data inodes t = some b → t.IsLeaf) :
    ownOf (Function.update data b block) inodes = ownOf data inodes :=
  hold_setLeaf h

/-- An inode whose pointers include those of the stored inode. -/
theorem sub_ownWith {stored : Inode} (h : v.inodes ino = some stored)
    (hroots : ∀ (r : Root) b, AlbumFs.thenSome (r.pointer stored) = some b →
      AlbumFs.thenSome (r.pointer inode) = some b) :
    Ownership.Sub v.own (v.ownWith ino inode) := by
  refine sub_hold fun root b hb => ?_
  by_cases hino : root.1 = ino
  · rw [rootBlock, hino, h, Option.bind_some] at hb
    rw [rootBlock, hino, Function.update_self, Option.bind_some]
    exact hroots _ _ hb
  · rw [rootBlock, Function.update_of_ne hino]
    exact hb

end View

/-! ### The blocks of a file -/

section Index

variable {ino index : Nat}

private theorem div_lt_pointers (h : index < POINTERS_PER_BLOCK * POINTERS_PER_BLOCK) :
    index / POINTERS_PER_BLOCK < POINTERS_PER_BLOCK :=
  Nat.div_lt_of_lt_mul h

/-- The slot of the block numbered `index` of a file. Files have no blocks beyond the reach of the
double indirect pointer. -/
def dataSlot (ino index : Nat) : Option Slot :=
  if h : index < 12 then some (Slot.direct ino ⟨index, h⟩)
  else if h : index - 12 < POINTERS_PER_BLOCK then some (Slot.entry ino ⟨index - 12, h⟩)
  else if h : index - 12 - POINTERS_PER_BLOCK < POINTERS_PER_BLOCK * POINTERS_PER_BLOCK then
    some (Slot.leaf ino ⟨(index - 12 - POINTERS_PER_BLOCK) / POINTERS_PER_BLOCK, div_lt_pointers h⟩
      ⟨(index - 12 - POINTERS_PER_BLOCK) % POINTERS_PER_BLOCK, Nat.mod_lt _ POINTERS_PER_BLOCK_pos⟩)
  else none

/-- The slots on the way to the block numbered `index`, from the inode down. -/
def slotsTo (ino index : Nat) : List Slot :=
  if h : index < 12 then [Slot.direct ino ⟨index, h⟩]
  else if h : index - 12 < POINTERS_PER_BLOCK then
    [Slot.single ino, Slot.entry ino ⟨index - 12, h⟩]
  else if h : index - 12 - POINTERS_PER_BLOCK < POINTERS_PER_BLOCK * POINTERS_PER_BLOCK then
    let k := ⟨(index - 12 - POINTERS_PER_BLOCK) / POINTERS_PER_BLOCK, div_lt_pointers h⟩
    [Slot.double ino, Slot.inner ino k,
      Slot.leaf ino k
        ⟨(index - 12 - POINTERS_PER_BLOCK) % POINTERS_PER_BLOCK, Nat.mod_lt _ POINTERS_PER_BLOCK_pos⟩]
  else []

theorem dataSlot_direct (h : index < 12) : dataSlot ino index = some (Slot.direct ino ⟨index, h⟩) :=
  dif_pos h

theorem dataSlot_entry (h : ¬ index < 12) (h' : index - 12 < POINTERS_PER_BLOCK) :
    dataSlot ino index = some (Slot.entry ino ⟨index - 12, h'⟩) := by
  rw [dataSlot, dif_neg h, dif_pos h']

theorem dataSlot_leaf (h : ¬ index < 12) (h' : ¬ index - 12 < POINTERS_PER_BLOCK)
    (hlt : index - 12 - POINTERS_PER_BLOCK < POINTERS_PER_BLOCK * POINTERS_PER_BLOCK) :
    dataSlot ino index = some (Slot.leaf ino
      ⟨(index - 12 - POINTERS_PER_BLOCK) / POINTERS_PER_BLOCK, div_lt_pointers hlt⟩
      ⟨(index - 12 - POINTERS_PER_BLOCK) % POINTERS_PER_BLOCK, Nat.mod_lt _ POINTERS_PER_BLOCK_pos⟩) := by
  rw [dataSlot, dif_neg h, dif_neg h', dif_pos hlt]

theorem dataSlot_none (h : ¬ index < 12) (h' : ¬ index - 12 < POINTERS_PER_BLOCK)
    (hge : ¬ index - 12 - POINTERS_PER_BLOCK < POINTERS_PER_BLOCK * POINTERS_PER_BLOCK) :
    dataSlot ino index = none := by
  rw [dataSlot, dif_neg h, dif_neg h', dif_neg hge]

/-- A file has no blocks beyond the reach of its pointers. -/
theorem dataSlot_eq_none_iff :
    dataSlot ino index = none ↔
      12 + POINTERS_PER_BLOCK + POINTERS_PER_BLOCK * POINTERS_PER_BLOCK ≤ index := by
  unfold dataSlot
  split_ifs <;> simp only [false_iff, true_iff] <;> omega

theorem isLeaf_of_dataSlot {s : Slot} (h : dataSlot ino index = some s) :
    s.IsLeaf ∧ s.ino = ino := by
  unfold dataSlot at h
  split_ifs at h <;> (cases h; exact ⟨rfl, rfl⟩)

theorem index_of_dataSlot {s : Slot} (h : dataSlot ino index = some s) : s.index = index := by
  have hdiv := Nat.div_add_mod (index - 12 - POINTERS_PER_BLOCK) POINTERS_PER_BLOCK
  rw [Nat.mul_comm] at hdiv
  unfold dataSlot at h
  split_ifs at h <;> cases h
  · rfl
  · simp only [Slot.index, Slot.entry]
    omega
  · simp only [Slot.index, Slot.leaf]
    omega

/-- Different blocks of a file have different slots. -/
theorem dataSlot_injective {index' : Nat} {s : Slot} (h : dataSlot ino index = some s)
    (h' : dataSlot ino index' = some s) : index = index' :=
  (index_of_dataSlot h).symm.trans (index_of_dataSlot h')

theorem dataSlot_twelve_add (ino : Nat) (j : Fin POINTERS_PER_BLOCK) :
    dataSlot ino (12 + j) = some (Slot.entry ino j) := by
  have hj : 12 + j.val - 12 = j := by omega
  rw [dataSlot_entry (by omega) (by omega)]
  simp only [hj, Fin.eta]

theorem dataSlot_add_mul_add (ino : Nat) (k j : Fin POINTERS_PER_BLOCK) :
    dataSlot ino (12 + POINTERS_PER_BLOCK + (k * POINTERS_PER_BLOCK + j)) =
      some (Slot.leaf ino k j) := by
  have hpos : 0 < POINTERS_PER_BLOCK := Nat.lt_of_le_of_lt (Nat.zero_le _) j.isLt
  have hrel : 12 + POINTERS_PER_BLOCK + (k.val * POINTERS_PER_BLOCK + j) - 12 - POINTERS_PER_BLOCK =
      k.val * POINTERS_PER_BLOCK + j := by omega
  have hk : (k.val * POINTERS_PER_BLOCK + j) / POINTERS_PER_BLOCK = k := by
    rw [Nat.add_comm, Nat.add_mul_div_right _ _ hpos, Nat.div_eq_of_lt j.isLt, Nat.zero_add]
  have hj : (k.val * POINTERS_PER_BLOCK + j) % POINTERS_PER_BLOCK = j := by
    rw [Nat.add_comm, Nat.add_mul_mod_self_right, Nat.mod_eq_of_lt j.isLt]
  have hlt : k.val * POINTERS_PER_BLOCK + j < POINTERS_PER_BLOCK * POINTERS_PER_BLOCK := by
    rw [← Nat.div_lt_iff_lt_mul hpos, hk]
    exact k.isLt
  rw [dataSlot_leaf (by omega) (by omega) (by omega)]
  simp only [hrel, hk, hj, Fin.eta]

/-- Every slot at full depth is the slot of a block of its file. -/
theorem dataSlot_index {s : Slot} (h : s.IsLeaf) : dataSlot s.ino s.index = some s := by
  rcases s.cases with ⟨i, hs⟩ | hs | ⟨j, hs⟩ | hs | ⟨k, hs⟩ | ⟨k, j, hs⟩ <;>
    generalize s.ino = ino at hs <;> subst hs
  · exact dataSlot_direct i.isLt
  · exact absurd h (Slot.not_isLeaf_single _)
  · exact dataSlot_twelve_add ino j
  · exact absurd h (Slot.not_isLeaf_double _)
  · exact absurd h (Slot.not_isLeaf_inner _ _)
  · exact dataSlot_add_mul_add ino k j

/-- The slots on the way to a block are those above its slot. -/
theorem mem_slotsTo_iff {s t : Slot} (h : dataSlot ino index = some t) :
    s ∈ slotsTo ino index ↔ s.Above t := by
  unfold dataSlot at h
  split_ifs at h with h₁ h₂ h₃ <;> cases h
  · rw [slotsTo, dif_pos h₁, List.mem_singleton, Slot.above_direct_iff]
  · rw [slotsTo, dif_neg h₁, dif_pos h₂, List.mem_cons, List.mem_singleton, Slot.above_entry_iff]
  · rw [slotsTo, dif_neg h₁, dif_neg h₂, dif_pos h₃, List.mem_cons, List.mem_cons,
      List.mem_singleton, Slot.above_leaf_iff, or_assoc]

end Index

end AlbumFS
