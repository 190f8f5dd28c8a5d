import AlbumFS.Space.Slots

/-!
# The block map

The specification of `bmap`. Without allocation it reads the block that the slot of a block number
names. With allocation it walks the slots on the way to the block from the inode down and gives a
free block to each slot that has none; when the free blocks run out it stops at such a slot.

The operations hold a copy of an inode while they allocate. `Mapped v ino inode` says that no block
is named twice when the copy stands for the stored inode, and `Grows` what a number of allocations
does to slots, blocks and bitmap.

## Main definitions

* `Mapped`: the exclusive ownership of blocks, seen with a copy of an inode.
* `Assigned`, `Grows`: one allocation and a sequence of them.
* `View.content`: the contents that a slot names, zeros for a hole.

## Main results

* `AlbumFs.reads_bmap`: looking up a block.
* `AlbumFs.endsOn_bmap`: looking up a block with allocation.
-/

namespace AlbumFS

open BlockTree Ownership Prog

/-- No block is named twice when `inode` stands for the stored inode `ino`. -/
structure Mapped (v : View) (ino : Nat) (inode : Inode) : Prop where
  geometry : v.Geometry
  exclusive : Exclusive (v.ownWith ino inode) v.allocated

/-- The inode without its block map. -/
def Inode.attributes (inode : Inode) : Inode :=
  { inode with
    blockCount := 0
    direct := Vector.replicate 12 0
    singleIndirect := 0
    doubleIndirect := 0 }

theorem Inode.mode_eq {inode inode' : Inode} (h : inode'.attributes = inode.attributes) :
    inode'.mode = inode.mode := by
  have hmode := congrArg Inode.mode h
  exact hmode

theorem Inode.size_eq {inode inode' : Inode} (h : inode'.attributes = inode.attributes) :
    inode'.size = inode.size := by
  have hsize := congrArg Inode.size h
  exact hsize

theorem Inode.nlink_eq {inode inode' : Inode} (h : inode'.attributes = inode.attributes) :
    inode'.nlink = inode.nlink := by
  have hnlink := congrArg Inode.nlink h
  exact hnlink

theorem Inode.isDir_eq {inode inode' : Inode} (h : inode'.attributes = inode.attributes) :
    inode'.isDir = inode.isDir := by
  rw [Inode.isDir, Inode.mode_eq h, Inode.isDir]

namespace View

/-- The blocks of contents that the slots name, with zeros behind a slot that names none. -/
def content (v : View) (ino : Nat) (inode : Inode) (s : Slot) : Block :=
  match v.ownWith ino inode s with
  | some b => v.data b
  | none => Block.zero

/-- Every data block is marked. -/
def Full (v : View) : Prop := ∀ b, v.InData b → v.bitmap.isSet b = true

/-- The slots of a list that name no block. -/
def missing (v : View) (ino : Nat) (inode : Inode) (slots : List Slot) : Finset Slot :=
  slots.toFinset.filter fun s => v.ownWith ino inode s = none

variable {v : View} {ino : Nat} {inode inode' : Inode} {j k : Fin POINTERS_PER_BLOCK}

/-- The pointers of an inode decide what its slots name. -/
theorem ownWith_congr (h : ∀ r : Root, r.pointer inode' = r.pointer inode) :
    v.ownWith ino inode' = v.ownWith ino inode := by
  have hroot : rootBlock (Function.update v.inodes ino (some inode')) =
      rootBlock (Function.update v.inodes ino (some inode)) := by
    funext root
    by_cases hino : root.1 = ino
    · subst hino
      rw [rootBlock_update_self, rootBlock_update_self, h]
    · rw [rootBlock_update_of_ne hino, rootBlock_update_of_ne hino]
  rw [ownWith, ownWith, ownOf, ownOf, hroot]

theorem ownWith_root (r : Root) (h) :
    v.ownWith ino inode ⟨(ino, r), [], h⟩ = AlbumFs.thenSome (r.pointer inode) :=
  rootBlock_update_self _ (ino, r) _

theorem ownWith_cons (r : Root) (p : List (Fin POINTERS_PER_BLOCK)) (h : (j :: p).length ≤ r.depth) :
    v.ownWith ino inode ⟨(ino, r), j :: p, h⟩ =
      (v.ownWith ino inode ⟨(ino, r), p, Nat.le_of_succ_le h⟩).bind
        fun b => pointerEntry (v.data b) j := rfl

theorem ownWith_direct (i : Fin 12) :
    v.ownWith ino inode (Slot.direct ino i) = AlbumFs.thenSome ((Root.direct i).pointer inode) :=
  ownWith_root (.direct i) _

theorem ownWith_single :
    v.ownWith ino inode (Slot.single ino) = AlbumFs.thenSome inode.singleIndirect :=
  ownWith_root .single _

theorem ownWith_entry :
    v.ownWith ino inode (Slot.entry ino j) =
      (v.ownWith ino inode (Slot.single ino)).bind fun b => pointerEntry (v.data b) j := rfl

theorem ownWith_double :
    v.ownWith ino inode (Slot.double ino) = AlbumFs.thenSome inode.doubleIndirect :=
  ownWith_root .double _

theorem ownWith_inner :
    v.ownWith ino inode (Slot.inner ino k) =
      (v.ownWith ino inode (Slot.double ino)).bind fun b => pointerEntry (v.data b) k := rfl

theorem ownWith_leaf :
    v.ownWith ino inode (Slot.leaf ino k j) =
      (v.ownWith ino inode (Slot.inner ino k)).bind fun b => pointerEntry (v.data b) j := rfl

end View

section Mapped

variable {v : View} {ino : Nat} {inode : Inode} {s : Slot} {b : Nat}

theorem Mapped.inData (h : Mapped v ino inode) (hs : v.ownWith ino inode s = some b) :
    v.InData b :=
  (h.exclusive.marked hs).1

/-- A marked block of the data region is not free. -/
theorem Mapped.ne_of_free (h : Mapped v ino inode) (hs : v.ownWith ino inode s = some b) {c : Nat}
    (hc : v.bitmap.isSet c = false) : b ≠ c := by
  rintro rfl
  have := (h.exclusive.marked hs).2
  simp [this] at hc

end Mapped

namespace AlbumFs

variable {v : View} {ino index : Nat} {inode : Inode}

/-! ### Looking up a block -/

theorem reads_entryBlock {table : Nat} (hin : v.InData table) (j : Fin POINTERS_PER_BLOCK) :
    Reads view (entryBlock table j false) v (.ok (pointerEntry (v.data table) j, false)) := by
  refine (reads_readBlock hin).bind ?_
  simp only [Bool.false_eq_true, and_false, if_false]
  exact reads_pure _ _

/-- Looking up the block numbered `index` of a file. -/
theorem reads_bmap (h : Mapped v ino inode) (index : Nat) :
    Reads view (bmap inode index false) v (match dataSlot ino index with
      | some s => .ok (v.ownWith ino inode s, inode)
      | none => .error (.badBlock index)) := by
  by_cases h₁ : index < 12
  · rw [dataSlot_direct h₁]
    simp only [bmap, dif_pos h₁, Bool.false_eq_true, and_false, if_false, View.ownWith_direct]
    exact reads_pure _ _
  by_cases h₂ : index - 12 < POINTERS_PER_BLOCK
  · rw [dataSlot_entry h₁ h₂]
    by_cases h0 : inode.singleIndirect = 0
    · simp only [bmap, dif_neg h₁, if_pos h₂, h0, and_self, if_true, View.ownWith_entry,
        View.ownWith_single, thenSome_zero, Option.bind_none]
      exact reads_pure _ _
    · have hown : v.ownWith ino inode (Slot.single ino) = some inode.singleIndirect.toNat :=
        View.ownWith_single.trans (thenSome_eq_some.2 ⟨h0, rfl⟩)
      simp only [bmap, dif_neg h₁, if_pos h₂, h0, false_and, if_false, View.ownWith_entry, hown,
        Option.bind_some]
      exact (reads_pure _ _).bind ((reads_entryBlock (h.inData hown) ⟨_, h₂⟩).bind (reads_pure _ _))
  by_cases h₃ : index - 12 - POINTERS_PER_BLOCK < POINTERS_PER_BLOCK * POINTERS_PER_BLOCK
  · rw [dataSlot_leaf h₁ h₂ h₃]
    simp only [View.ownWith_leaf, View.ownWith_inner]
    by_cases h0 : inode.doubleIndirect = 0
    · simp only [bmap, dif_neg h₁, if_neg h₂, ge_iff_le, Nat.not_le.2 h₃, h0, and_self, if_true,
        if_false, View.ownWith_double, thenSome_zero, Option.bind_none]
      exact reads_pure _ _
    · have hown : v.ownWith ino inode (Slot.double ino) = some inode.doubleIndirect.toNat :=
        View.ownWith_double.trans (thenSome_eq_some.2 ⟨h0, rfl⟩)
      simp only [bmap, dif_neg h₁, if_neg h₂, ge_iff_le, Nat.not_le.2 h₃, h0, false_and, if_false,
        hown, Option.bind_some]
      refine (reads_pure _ _).bind ((reads_entryBlock (h.inData hown)
        ⟨(index - 12 - POINTERS_PER_BLOCK) / POINTERS_PER_BLOCK, Nat.div_lt_of_lt_mul h₃⟩).bind ?_)
      cases hinner : pointerEntry (v.data inode.doubleIndirect.toNat)
        ⟨(index - 12 - POINTERS_PER_BLOCK) / POINTERS_PER_BLOCK, Nat.div_lt_of_lt_mul h₃⟩ with
      | none => exact reads_pure _ _
      | some inner =>
        have hown' : v.ownWith ino inode (Slot.inner ino
            ⟨(index - 12 - POINTERS_PER_BLOCK) / POINTERS_PER_BLOCK, Nat.div_lt_of_lt_mul h₃⟩) =
            some inner := by
          rw [View.ownWith_inner, hown, Option.bind_some, hinner]
        exact (reads_entryBlock (h.inData hown') ⟨_, Nat.mod_lt _ POINTERS_PER_BLOCK_pos⟩).bind
          (reads_pure _ _)
  · rw [dataSlot_none h₁ h₂ h₃]
    simp only [bmap, dif_neg h₁, if_neg h₂, ge_iff_le, Nat.not_lt.1 h₃, if_true]
    exact reads_throw _ _

end AlbumFs

/-! ### One allocation -/

/-- The slot `s`, which named no block, got the free block `b`. -/
structure Assigned (ino : Nat) (s : Slot) (b : Nat) (v : View) (inode : Inode) (v' : View)
    (inode' : Inode) : Prop where
  inData : v.InData b
  isSet_eq : v.bitmap.isSet b = false
  unheld : v.ownWith ino inode s = none
  own_eq : v'.ownWith ino inode' = Function.update (v.ownWith ino inode) s (some b)
  sb_eq : v'.sb = v.sb
  total_eq : v'.total = v.total
  inodes_eq : v'.inodes = v.inodes
  bitmap_eq : v'.bitmap = v.bitmap.set b
  data_self : v'.data b = Block.zero
  data_eq : ∀ c, c ≠ b → (∀ t, v.ownWith ino inode t = some c → t.IsLeaf) → v'.data c = v.data c
  attributes_eq : inode'.attributes = inode.attributes
  roots : ∀ (r : Root) c, AlbumFs.thenSome (r.pointer inode) = some c →
    AlbumFs.thenSome (r.pointer inode') = some c

section Assign

variable {v v' : View} {ino b : Nat} {inode inode' : Inode} {s : Slot}

theorem View.Geometry.thenSome_block (h : v.Geometry) (hb : v.InData b) :
    AlbumFs.thenSome (UInt64.ofNat b) = some b := by
  have := h.bitmapStart_pos
  have := h.bitmap_le
  have := h.table_le
  have htotal := v.sb.totalBlocks.toNat_lt
  have := h.sb_totalBlocks_eq
  have := hb.1
  have := hb.2
  exact thenSome_ofNat (by omega) (by omega)

theorem Mapped.not_mem_of_free (hfree : v.bitmap.isSet b = false) : b ∉ v.allocated := by
  rintro ⟨-, hset⟩
  simp [hset] at hfree

/-- A free block is named by no slot, so writing it changes no pointer. -/
theorem Mapped.own_data_free (h : Mapped v ino inode) (hfree : v.bitmap.isSet b = false)
    (block : Block) {inodes : Nat → Option Inode}
    (hi : inodes = Function.update v.inodes ino (some inode)) :
    View.ownOf (Function.update v.data b block) inodes = v.ownWith ino inode := by
  subst hi
  exact View.ownOf_data_congr fun t ht => absurd rfl (h.ne_of_free ht hfree)

/-- A free block is put into a pointer of the inode. -/
theorem Mapped.assign_root (h : Mapped v ino inode) (hb : v.InData b)
    (hfree : v.bitmap.isSet b = false) {r : Root} (h0 : r.pointer inode = 0)
    (hp : ∀ r' : Root, r'.pointer inode' = if r' = r then UInt64.ofNat b else r'.pointer inode)
    (hattr : inode'.attributes = inode.attributes) :
    Assigned ino ⟨(ino, r), [], Nat.zero_le _⟩ b v inode
      ((v.setBitmap (v.bitmap.set b)).setData b Block.zero) inode' := by
  have hsome := h.geometry.thenSome_block hb
  have hunheld : v.ownWith ino inode ⟨(ino, r), [], Nat.zero_le _⟩ = none := by
    rw [View.ownWith_root, h0, thenSome_zero]
  have hroots : rootBlock (Function.update v.inodes ino (some inode')) =
      Function.update (rootBlock (Function.update v.inodes ino (some inode))) (ino, r) (some b) := by
    funext root
    by_cases hroot : root = (ino, r)
    · subst hroot
      rw [Function.update_self, rootBlock_update_self v.inodes (ino, r), hp, if_pos rfl, hsome]
    · rw [Function.update_of_ne hroot]
      by_cases hino : root.1 = ino
      · have hne : root.2 ≠ r := fun hr => hroot (Prod.ext hino hr)
        subst hino
        rw [rootBlock_update_self, rootBlock_update_self, hp, if_neg hne]
      · rw [rootBlock_update_of_ne hino, rootBlock_update_of_ne hino]
  refine ⟨hb, hfree, hunheld, ?_, rfl, rfl, rfl, rfl, Function.update_self _ _ _,
    fun c hc _ => Function.update_of_ne hc _ _, hattr, fun r' c hc => ?_⟩
  · change View.ownOf (Function.update v.data b Block.zero)
      (Function.update v.inodes ino (some inode')) = _
    rw [View.ownOf, hroots, hold_setRoot]
    · rw [← cut_eq_update]
      · congr 1
        exact h.own_data_free hfree Block.zero rfl
      · exact fun t ht => hold_none_of_above ht hunheld
    · rintro c hc j
      obtain rfl := Option.some.inj hc
      rw [Function.update_self, pointerEntry_zero]
  · rw [hp, if_neg]
    · exact hc
    · rintro rfl
      rw [h0, thenSome_zero] at hc
      cases hc

/-- A free block is put into an entry of a pointer block. -/
theorem Mapped.assign_entry (h : Mapped v ino inode) (hb : v.InData b)
    (hfree : v.bitmap.isSet b = false) {r : Root} {j : Fin POINTERS_PER_BLOCK}
    {p : List (Fin POINTERS_PER_BLOCK)} (hp : (j :: p).length ≤ r.depth) {table : Nat}
    (htable : v.ownWith ino inode ⟨(ino, r), p, Nat.le_of_succ_le hp⟩ = some table)
    (h0 : pointerEntry (v.data table) j = none) :
    Assigned ino ⟨(ino, r), j :: p, hp⟩ b v inode
      (((v.setBitmap (v.bitmap.set b)).setData b Block.zero).setData table
        (AlbumFs.setPointer (v.data table) j (UInt64.ofNat b))) inode := by
  have hsome := h.geometry.thenSome_block hb
  have hne : table ≠ b := h.ne_of_free htable hfree
  have hunheld : v.ownWith ino inode ⟨(ino, r), j :: p, hp⟩ = none := by
    rw [View.ownWith_cons, htable, Option.bind_some, h0]
  have hown := h.own_data_free hfree Block.zero rfl
  refine ⟨hb, hfree, hunheld, ?_, rfl, rfl, rfl, rfl, ?_, fun c hc hleaf => ?_, rfl,
    fun _ _ hc => hc⟩
  · change View.ownOf (Function.update (Function.update v.data b Block.zero) table _) _ = _
    rw [View.ownOf, hold_setEntry (s := ⟨(ino, r), j :: p, hp⟩) (x := some b) rfl
      (b := table)]
    · rw [← cut_eq_update]
      · congr 1
      · exact fun t ht => hold_none_of_above ht hunheld
    · rw [← htable, ← hown]
      rfl
    · intro t ht
      have ht' : v.ownWith ino inode t = some table := by rw [← hown]; exact ht
      obtain rfl := h.exclusive.inj ht' htable
      exact ⟨rfl, rfl⟩
    · rw [pointerEntry_setPointer, if_pos rfl, hsome]
    · intro i hi
      rw [pointerEntry_setPointer, if_neg hi, Function.update_of_ne hne]
    · rintro c hc
      obtain rfl := Option.some.inj hc
      exact ⟨hne.symm, fun i => by rw [Function.update_self, pointerEntry_zero]⟩
  · change Function.update (Function.update v.data b Block.zero) table _ b = _
    rw [Function.update_of_ne hne.symm, Function.update_self]
  · change Function.update (Function.update v.data b Block.zero) table _ c = _
    have hct : c ≠ table := by
      rintro rfl
      have hl : p.length = r.depth := hleaf _ htable
      simp only [List.length_cons] at hp
      omega
    rw [Function.update_of_ne hct, Function.update_of_ne hc]

theorem Assigned.isSet_iff (h : Assigned ino s b v inode v' inode') (hg : v.Geometry) (c : Nat) :
    v'.bitmap.isSet c = true ↔ c = b ∨ v.bitmap.isSet c = true := by
  have hlt : b < v.bitmap.totalBlocks := Nat.lt_of_lt_of_eq h.inData.2 hg.totalBlocks_eq.symm
  rw [h.bitmap_eq, Bitmap.isSet_set hlt, Bool.or_eq_true, decide_eq_true_eq, eq_comm]

theorem Assigned.allocated_eq (h : Assigned ino s b v inode v' inode') (hg : v.Geometry) :
    v'.allocated = insert b v.allocated := by
  ext c
  simp only [View.allocated, View.InData, Set.mem_ofPred_eq, Set.mem_insert_iff, h.sb_eq, h.total_eq,
    h.isSet_iff hg]
  constructor
  · rintro ⟨hin, rfl | hset⟩
    · exact .inl rfl
    · exact .inr ⟨hin, hset⟩
  · rintro (rfl | ⟨hin, hset⟩)
    · exact ⟨h.inData, .inl rfl⟩
    · exact ⟨hin, .inr hset⟩

theorem Assigned.mapped (h : Assigned ino s b v inode v' inode') (hm : Mapped v ino inode) :
    Mapped v' ino inode' where
  geometry := hm.geometry.congr h.sb_eq h.total_eq (by rw [h.bitmap_eq, Bitmap.totalBlocks_set])
  exclusive := by
    rw [h.own_eq, h.allocated_eq hm.geometry]
    exact hm.exclusive.assign (Mapped.not_mem_of_free h.isSet_eq)

theorem Assigned.countFree (h : Assigned ino s b v inode v' inode') (hg : v.Geometry) :
    v'.bitmap.countFree + 1 = v.bitmap.countFree := by
  rw [h.bitmap_eq]
  exact Bitmap.countFree_set (Nat.lt_of_lt_of_eq h.inData.2 hg.totalBlocks_eq.symm) h.isSet_eq

/-- An allocated block holds zeros, as the hole before it did. -/
theorem Assigned.content_eq (h : Assigned ino s b v inode v' inode') (hm : Mapped v ino inode)
    {t : Slot} (ht : t.IsLeaf) : v'.content ino inode' t = v.content ino inode t := by
  unfold View.content
  rw [h.own_eq]
  by_cases hts : t = s
  · subst hts
    simp only [Function.update_self, h.unheld, h.data_self]
  · rw [Function.update_of_ne hts]
    cases hc : v.ownWith ino inode t with
    | none => rfl
    | some c =>
      refine h.data_eq c (hm.ne_of_free hc h.isSet_eq) fun t' ht' => ?_
      rwa [hm.exclusive.inj ht' hc]

/-! ### Sequences of allocations -/

/-- The slots of `slots` that named no block got free blocks, and nothing else changed but the
contents of data blocks. -/
structure Grows (ino : Nat) (slots : List Slot) (v : View) (inode : Inode) (v' : View)
    (inode' : Inode) : Prop where
  sb_eq : v'.sb = v.sb
  total_eq : v'.total = v.total
  inodes_eq : v'.inodes = v.inodes
  attributes_eq : inode'.attributes = inode.attributes
  roots : ∀ (r : Root) c, AlbumFs.thenSome (r.pointer inode) = some c →
    AlbumFs.thenSome (r.pointer inode') = some c
  mapped : Mapped v' ino inode'
  own_of_some : ∀ s c, v.ownWith ino inode s = some c → v'.ownWith ino inode' s = some c
  own_of_mem : ∀ s ∈ slots, ∃ c, v'.ownWith ino inode' s = some c
  own_of_not_mem : ∀ s, s ∉ slots → v'.ownWith ino inode' s = v.ownWith ino inode s
  isSet_iff : ∀ c, v'.bitmap.isSet c = true ↔ v.bitmap.isSet c = true ∨
    ∃ s ∈ slots, v.ownWith ino inode s = none ∧ v'.ownWith ino inode' s = some c
  countFree_eq : v'.bitmap.countFree + (v.missing ino inode slots).card = v.bitmap.countFree

theorem Mapped.grows_nil (h : Mapped v ino inode) : Grows ino [] v inode v inode where
  sb_eq := rfl
  total_eq := rfl
  inodes_eq := rfl
  attributes_eq := rfl
  roots _ _ h := h
  mapped := h
  own_of_some _ _ h := h
  own_of_mem := by simp
  own_of_not_mem _ _ := rfl
  isSet_iff := by simp
  countFree_eq := by simp [View.missing]

/-- A slot that names a block needs no allocation. -/
theorem Mapped.grows_held (h : Mapped v ino inode) (hs : v.ownWith ino inode s = some b) :
    Grows ino [s] v inode v inode where
  sb_eq := rfl
  total_eq := rfl
  inodes_eq := rfl
  attributes_eq := rfl
  roots _ _ h := h
  mapped := h
  own_of_some _ _ h := h
  own_of_mem t ht := ⟨b, by rw [List.mem_singleton.1 ht, hs]⟩
  own_of_not_mem _ _ := rfl
  isSet_iff := by simp [hs]
  countFree_eq := by simp [View.missing, hs, Finset.filter_singleton]

theorem Assigned.grows (h : Assigned ino s b v inode v' inode') (hm : Mapped v ino inode) :
    Grows ino [s] v inode v' inode' where
  sb_eq := h.sb_eq
  total_eq := h.total_eq
  inodes_eq := h.inodes_eq
  attributes_eq := h.attributes_eq
  roots := h.roots
  mapped := h.mapped hm
  own_of_some t c ht := by
    rw [h.own_eq, Function.update_of_ne]
    · exact ht
    · rintro rfl
      rw [h.unheld] at ht
      cases ht
  own_of_mem t ht := ⟨b, by rw [List.mem_singleton.1 ht, h.own_eq, Function.update_self]⟩
  own_of_not_mem t ht := by
    rw [h.own_eq, Function.update_of_ne fun hts => ht (List.mem_singleton.2 hts)]
  isSet_iff c := by
    rw [h.isSet_iff hm.geometry, h.own_eq]
    constructor
    · rintro (rfl | hc)
      · exact .inr ⟨s, List.mem_singleton_self s, h.unheld, Function.update_self _ _ _⟩
      · exact .inl hc
    · rintro (hc | ⟨t, ht, -, hc⟩)
      · exact .inr hc
      · rw [List.mem_singleton.1 ht, Function.update_self] at hc
        exact .inl (Option.some.inj hc).symm
  countFree_eq := by
    have hmissing : v.missing ino inode [s] = {s} := by
      simp [View.missing, h.unheld, Finset.filter_singleton]
    rw [hmissing, Finset.card_singleton]
    exact h.countFree hm.geometry

/-- The slots that two sequences of allocations fill. -/
theorem Grows.missing_append {slots slots' : List Slot} (h : Grows ino slots v inode v' inode') :
    (v.missing ino inode (slots ++ slots')).card =
      (v.missing ino inode slots).card + (v'.missing ino inode' slots').card := by
  rw [← Finset.card_union_of_disjoint]
  · congr 1
    ext t
    simp only [View.missing, List.toFinset_append, Finset.mem_filter, Finset.mem_union,
      List.mem_toFinset]
    by_cases ht : t ∈ slots
    · obtain ⟨c, hc⟩ := h.own_of_mem t ht
      simp [ht, hc]
    · simp [ht, h.own_of_not_mem t ht]
  · rw [Finset.disjoint_left]
    intro t ht ht'
    simp only [View.missing, Finset.mem_filter, List.mem_toFinset] at ht ht'
    obtain ⟨c, hc⟩ := h.own_of_mem t ht.1
    rw [hc] at ht'
    cases ht'.2

theorem Grows.trans {slots slots' : List Slot} {v'' : View} {inode'' : Inode}
    (h : Grows ino slots v inode v' inode') (h' : Grows ino slots' v' inode' v'' inode'') :
    Grows ino (slots ++ slots') v inode v'' inode'' where
  sb_eq := h'.sb_eq.trans h.sb_eq
  total_eq := h'.total_eq.trans h.total_eq
  inodes_eq := h'.inodes_eq.trans h.inodes_eq
  attributes_eq := h'.attributes_eq.trans h.attributes_eq
  roots r c hc := h'.roots r c (h.roots r c hc)
  mapped := h'.mapped
  own_of_some t c ht := h'.own_of_some t c (h.own_of_some t c ht)
  own_of_mem t ht := by
    rcases List.mem_append.1 ht with ht | ht
    · obtain ⟨c, hc⟩ := h.own_of_mem t ht
      exact ⟨c, h'.own_of_some t c hc⟩
    · exact h'.own_of_mem t ht
  own_of_not_mem t ht := by
    rw [List.mem_append, not_or] at ht
    rw [h'.own_of_not_mem t ht.2, h.own_of_not_mem t ht.1]
  isSet_iff c := by
    rw [h'.isSet_iff, h.isSet_iff]
    constructor
    · rintro ((hc | ⟨t, ht, hnone, hc⟩) | ⟨t, ht, hnone, hc⟩)
      · exact .inl hc
      · exact .inr ⟨t, List.mem_append_left _ ht, hnone, h'.own_of_some t c hc⟩
      · refine .inr ⟨t, List.mem_append_right _ ht, ?_, hc⟩
        cases hown : v.ownWith ino inode t with
        | none => rfl
        | some d => rw [h.own_of_some t d hown] at hnone; cases hnone
    · rintro (hc | ⟨t, ht, hnone, hc⟩)
      · exact .inl (.inl hc)
      · cases hown : v'.ownWith ino inode' t with
        | none =>
          rcases List.mem_append.1 ht with ht | ht
          · obtain ⟨d, hd⟩ := h.own_of_mem t ht
            rw [hown] at hd
            cases hd
          · exact .inr ⟨t, ht, hown, hc⟩
        | some d =>
          have hd := h'.own_of_some t d hown
          rw [hc, Option.some.injEq] at hd
          subst hd
          refine .inl (.inr ⟨t, ?_, hnone, hown⟩)
          by_contra hmem
          rw [h.own_of_not_mem t hmem, hnone] at hown
          cases hown
  countFree_eq := by
    rw [h.missing_append, ← h.countFree_eq, ← h'.countFree_eq]
    omega

/-- The contents of the files are what they were; holes may have been filled with zeros. -/
def SameContent (ino : Nat) (v : View) (inode : Inode) (v' : View) (inode' : Inode) : Prop :=
  ∀ t : Slot, t.IsLeaf → v'.content ino inode' t = v.content ino inode t

/-- The allocations for `slots` stopped at a slot that names no block, since no block was free. -/
def Stops (ino : Nat) (slots : List Slot) (v : View) (inode : Inode) (v' : View) : Prop :=
  ∃ (before : List Slot) (s : Slot) (rest : List Slot) (inode' : Inode),
    slots = before ++ s :: rest ∧ Grows ino before v inode v' inode' ∧
      v'.ownWith ino inode' s = none ∧ v'.Full

theorem Grows.stops {slots slots' : List Slot} {v'' : View}
    (h : Grows ino slots v inode v' inode') (h' : Stops ino slots' v' inode' v'') :
    Stops ino (slots ++ slots') v inode v'' := by
  obtain ⟨before, s, rest, i, rfl, hg, hnone, hfull⟩ := h'
  exact ⟨slots ++ before, s, rest, i, (List.append_assoc _ _ _).symm, h.trans hg, hnone, hfull⟩

theorem Stops.append {slots : List Slot} (h : Stops ino slots v inode v') (slots' : List Slot) :
    Stops ino (slots ++ slots') v inode v' := by
  obtain ⟨before, s, rest, i, rfl, hg, hnone, hfull⟩ := h
  exact ⟨before, s, rest ++ slots', i, by simp, hg, hnone, hfull⟩

/-- A slot without a block, and no free block. -/
theorem Mapped.stops (h : Mapped v ino inode) (hs : v.ownWith ino inode s = none) (hfull : v.Full) :
    Stops ino [s] v inode v :=
  ⟨[], s, [], inode, rfl, h.grows_nil, hs, hfull⟩

/-- Only the pointers of an inode matter to its block map. -/
theorem Mapped.congr (h : Mapped v ino inode) (hp : ∀ r : Root, r.pointer inode' = r.pointer inode) :
    Mapped v ino inode' :=
  ⟨h.geometry, by rw [View.ownWith_congr hp]; exact h.exclusive⟩

theorem Grows.congr {slots : List Slot} (h : Grows ino slots v inode v' inode') {inode'' : Inode}
    (hp : ∀ r : Root, r.pointer inode'' = r.pointer inode')
    (hattr : inode''.attributes = inode'.attributes) : Grows ino slots v inode v' inode'' := by
  have hown : v'.ownWith ino inode'' = v'.ownWith ino inode' := View.ownWith_congr hp
  exact ⟨h.sb_eq, h.total_eq, h.inodes_eq, hattr.trans h.attributes_eq,
    fun r c hc => by rw [hp]; exact h.roots r c hc, h.mapped.congr hp,
    fun s c hs => by rw [hown]; exact h.own_of_some s c hs,
    fun s hs => by rw [hown]; exact h.own_of_mem s hs,
    fun s hs => by rw [hown]; exact h.own_of_not_mem s hs,
    fun c => by rw [hown]; exact h.isSet_iff c, h.countFree_eq⟩

theorem pointer_countBlock (inode : Inode) (allocated : Bool) (r : Root) :
    r.pointer (AlbumFs.countBlock inode allocated) = r.pointer inode := by
  cases allocated <;> rfl

theorem blockCount_countBlock {inode : Inode} {allocated : Bool} {p : Prop} [Decidable p]
    (h : allocated = true ↔ p) : (AlbumFs.countBlock inode allocated).blockCount =
      if p then inode.blockCount + 1 else inode.blockCount := by
  cases allocated with
  | true => exact (if_pos (h.1 rfl)).symm
  | false => exact (if_neg fun hp => Bool.false_ne_true (h.2 hp)).symm

theorem attributes_countBlock (inode : Inode) (allocated : Bool) :
    (AlbumFs.countBlock inode allocated).attributes = inode.attributes := by
  cases allocated <;> rfl

theorem SameContent.congr (h : SameContent ino v inode v' inode') {inode'' : Inode}
    (hp : ∀ r : Root, r.pointer inode'' = r.pointer inode') :
    SameContent ino v inode v' inode'' := by
  intro t ht
  rw [← h t ht, View.content, View.ownWith_congr hp]
  rfl

theorem SameContent.trans {v'' : View} {inode'' : Inode} (h : SameContent ino v inode v' inode')
    (h' : SameContent ino v' inode' v'' inode'') : SameContent ino v inode v'' inode'' :=
  fun t ht => (h' t ht).trans (h t ht)

/-- The allocations for `slots` stopped, and the contents of the files are what they were. -/
def Halts (ino : Nat) (slots : List Slot) (v : View) (inode : Inode) (v' : View) : Prop :=
  ∃ (before : List Slot) (s : Slot) (rest : List Slot) (inode' : Inode),
    slots = before ++ s :: rest ∧ Grows ino before v inode v' inode' ∧
      SameContent ino v inode v' inode' ∧ v'.ownWith ino inode' s = none ∧ v'.Full

theorem Halts.stops {slots : List Slot} (h : Halts ino slots v inode v') : Stops ino slots v inode v' := by
  obtain ⟨before, s, rest, i, hslots, hg, -, hnone, hfull⟩ := h
  exact ⟨before, s, rest, i, hslots, hg, hnone, hfull⟩

theorem Halts.append {slots : List Slot} (h : Halts ino slots v inode v') (slots' : List Slot) :
    Halts ino (slots ++ slots') v inode v' := by
  obtain ⟨before, s, rest, i, rfl, hg, hc, hnone, hfull⟩ := h
  exact ⟨before, s, rest ++ slots', i, by simp, hg, hc, hnone, hfull⟩

theorem Grows.halts {slots slots' : List Slot} {v'' : View} (h : Grows ino slots v inode v' inode')
    (hc : SameContent ino v inode v' inode') (h' : Halts ino slots' v' inode' v'') :
    Halts ino (slots ++ slots') v inode v'' := by
  obtain ⟨before, s, rest, i, rfl, hg, hc', hnone, hfull⟩ := h'
  exact ⟨slots ++ before, s, rest, i, (List.append_assoc _ _ _).symm, h.trans hg, hc.trans hc', hnone,
    hfull⟩

/-- A slot without a block, and no free block. -/
theorem Mapped.halts (h : Mapped v ino inode) (hs : v.ownWith ino inode s = none) (hfull : v.Full) :
    Halts ino [s] v inode v :=
  ⟨[], s, [], inode, rfl, h.grows_nil, fun _ _ => rfl, hs, hfull⟩

end Assign

namespace AlbumFs

variable {v : View} {ino index : Nat} {inode : Inode}

/-! ### Looking up a block with allocation -/

/-- A block is allocated for a pointer of the inode. -/
theorem endsOn_allocateBlock_root (h : Mapped v ino inode) {r : Root} (h0 : r.pointer inode = 0)
    (set : UInt64 → Inode)
    (hset : ∀ p (r' : Root), r'.pointer (set p) = if r' = r then p else r'.pointer inode)
    (hattr : ∀ p, (set p).attributes = inode.attributes) :
    EndsOn view allocateBlock v
      (fun b w => Assigned ino ⟨(ino, r), [], Nat.zero_le _⟩ b v inode w (set (UInt64.ofNat b)))
      fun e w => e = .noSpace ∧ w = v ∧ v.Full :=
  endsOn_allocateBlock h.geometry
    (fun _ hb hfree => h.assign_root hb hfree h0 (hset _) (hattr _)) fun hfull => ⟨rfl, rfl, hfull⟩

/-- The pointer block `table` has a block at entry `j` afterwards. -/
theorem endsOn_entryBlock (h : Mapped v ino inode) {r : Root} {p : List (Fin POINTERS_PER_BLOCK)}
    {j : Fin POINTERS_PER_BLOCK} (hp : (j :: p).length ≤ r.depth) {table : Nat}
    (htable : v.ownWith ino inode ⟨(ino, r), p, Nat.le_of_succ_le hp⟩ = some table) :
    EndsOn view (entryBlock table j true) v
      (fun res w => ∃ b, res.1 = some b ∧ w.ownWith ino inode ⟨(ino, r), j :: p, hp⟩ = some b ∧
        (res.2 = true ↔ v.ownWith ino inode ⟨(ino, r), j :: p, hp⟩ = none) ∧
        Grows ino [⟨(ino, r), j :: p, hp⟩] v inode w inode ∧ SameContent ino v inode w inode)
      fun e w => e = .noSpace ∧ Halts ino [⟨(ino, r), j :: p, hp⟩] v inode w := by
  have hin := h.inData htable
  have hentry : v.ownWith ino inode ⟨(ino, r), j :: p, hp⟩ = pointerEntry (v.data table) j := by
    rw [View.ownWith_cons, htable, Option.bind_some]
  refine (reads_readBlock hin).bind_endsOn ?_
  by_cases h0 : pointerAt (v.data table) j = 0
  · simp only [h0, and_self, if_true]
    have hnone : pointerEntry (v.data table) j = none := thenSome_eq_none.2 h0
    refine (endsOn_allocateBlock h.geometry (Q := fun b w => v.InData b ∧
      v.bitmap.isSet b = false ∧ w = (v.setBitmap (v.bitmap.set b)).setData b Block.zero)
      (E := fun e w => e = .noSpace ∧ w = v ∧ v.Full) (fun b hb hfree => ⟨hb, hfree, rfl⟩)
      fun hfull => ⟨rfl, rfl, hfull⟩).bind ?_ ?_
    · rintro b w ⟨hb, hfree, rfl⟩
      have hassign := h.assign_entry hb hfree hp htable hnone
      have hg : ((v.setBitmap (v.bitmap.set b)).setData b Block.zero).Geometry :=
        (h.geometry.setBitmap (Bitmap.totalBlocks_set _ _)).setData _ _
      refine (endsOn_writeBlock_bytes hg hin (E := fun _ _ => False) (Q := fun _ w' => w' = _)
        rfl).bind ?_ fun _ _ hf => hf.elim
      rintro _ _ rfl
      refine endsOn_pure ⟨b, rfl, ?_, iff_of_true rfl (hentry.trans hnone), hassign.grows h,
        fun t ht => hassign.content_eq h ht⟩
      rw [hassign.own_eq, Function.update_self]
    · rintro e w ⟨rfl, rfl, hfull⟩
      exact ⟨rfl, h.halts (hentry.trans hnone) hfull⟩
  · simp only [h0, false_and, if_false]
    have hsome : pointerEntry (v.data table) j = some (pointerAt (v.data table) j).toNat :=
      thenSome_eq_some.2 ⟨h0, rfl⟩
    have hown := hentry.trans hsome
    exact endsOn_pure ⟨_, hsome, hown, iff_of_false Bool.false_ne_true (by rw [hown]; simp),
      h.grows_held hown, fun _ _ => rfl⟩

/-- A root pointer of the inode is made to name a block. -/
theorem endsOn_ensureRoot (h : Mapped v ino inode) (r : Root) (set : UInt64 → Inode)
    (hset : ∀ p (r' : Root), r'.pointer (set p) = if r' = r then p else r'.pointer inode)
    (hattr : ∀ p, (set p).attributes = inode.attributes) :
    EndsOn view (if r.pointer inode = 0 then do
        let block ← allocateBlock
        pure (set (UInt64.ofNat block))
      else pure inode) v
      (fun i w => w.ownWith ino i ⟨(ino, r), [], Nat.zero_le _⟩ = some (r.pointer i).toNat ∧
        Grows ino [⟨(ino, r), [], Nat.zero_le _⟩] v inode w i ∧ SameContent ino v inode w i)
      fun e w => e = .noSpace ∧ Halts ino [⟨(ino, r), [], Nat.zero_le _⟩] v inode w := by
  by_cases h0 : r.pointer inode = 0
  · rw [if_pos h0]
    refine (endsOn_allocateBlock_root h h0 set hset hattr).bind ?_ ?_
    · intro b w hassign
      refine endsOn_pure ⟨?_, hassign.grows h, fun t ht => hassign.content_eq h ht⟩
      have hsome : w.ownWith ino (set (UInt64.ofNat b)) ⟨(ino, r), [], Nat.zero_le _⟩ = some b := by
        rw [hassign.own_eq, Function.update_self]
      rw [View.ownWith_root] at hsome ⊢
      rw [hsome, (thenSome_eq_some.1 hsome).2]
    · rintro e w ⟨rfl, rfl, hfull⟩
      exact ⟨rfl, h.halts (by rw [View.ownWith_root, h0, thenSome_zero]) hfull⟩
  · rw [if_neg h0]
    have hown : v.ownWith ino inode ⟨(ino, r), [], Nat.zero_le _⟩ = some (r.pointer inode).toNat :=
      (View.ownWith_root r _).trans (thenSome_eq_some.2 ⟨h0, rfl⟩)
    exact endsOn_pure ⟨hown, h.grows_held hown, fun _ _ => rfl⟩

/-- A pointer block is not counted. -/
theorem endsOn_ensureRoot_count (inode : Inode) (r : Root) (set : UInt64 → Inode)
    (hset : ∀ p, (set p).blockCount = inode.blockCount) :
    EndsOn view (if r.pointer inode = 0 then do
        let block ← allocateBlock
        pure (set (UInt64.ofNat block))
      else pure inode) v
      (fun i _ => i.blockCount = inode.blockCount) fun _ _ => True := by
  by_cases h0 : r.pointer inode = 0
  · rw [if_pos h0]
    exact (endsOn_true _ _).bind (fun b _ _ => endsOn_pure (hset _)) fun _ _ _ => trivial
  · rw [if_neg h0]
    exact endsOn_pure rfl

/-- What `bmap` does when it may allocate: the slots on the way to the block get blocks, and the
block of the last slot is returned, and counted when it is new. -/
theorem endsOn_bmap_counted (h : Mapped v ino inode) (index : Nat) :
    EndsOn view (bmap inode index true) v
      (fun res w => ∃ s b, dataSlot ino index = some s ∧ res.1 = some b ∧
        w.ownWith ino res.2 s = some b ∧ Grows ino (slotsTo ino index) v inode w res.2 ∧
        SameContent ino v inode w res.2 ∧ res.2.blockCount =
          if v.ownWith ino inode s = none then inode.blockCount + 1 else inode.blockCount)
      fun e w => (e = .noSpace ∧ Halts ino (slotsTo ino index) v inode w) ∨
        (e = .badBlock index ∧ dataSlot ino index = none ∧ w = v) := by
  by_cases h₁ : index < 12
  · have hslots : slotsTo ino index = [Slot.direct ino ⟨index, h₁⟩] := dif_pos h₁
    rw [dataSlot_direct h₁, hslots]
    simp only [bmap, dif_pos h₁, and_true]
    by_cases h0 : inode.direct[index] = 0
    · rw [if_pos h0]
      refine (endsOn_allocateBlock_root h (r := .direct ⟨index, h₁⟩) h0
        (fun p => { inode with
          direct := inode.direct.set index p, blockCount := inode.blockCount + 1 }) ?_
        fun _ => rfl).bind ?_ ?_
      · intro p r'
        cases r' with
        | direct i =>
          obtain ⟨i, hi⟩ := i
          simp only [Root.pointer_direct, Vector.getElem_set, Root.direct.injEq, Fin.mk.injEq, eq_comm]
        | single => rfl
        | double => rfl
      · intro b w hassign
        have hown := hassign.own_eq
        refine endsOn_pure ⟨_, b, rfl, ?_, ?_, hassign.grows h,
          fun t ht => hassign.content_eq h ht, ?_⟩
        · simp only [Vector.getElem_set_self]
          exact h.geometry.thenSome_block hassign.inData
        · rw [Slot.direct, hown, Function.update_self]
        · exact (if_pos hassign.unheld).symm
      · rintro e w ⟨rfl, rfl, hfull⟩
        exact .inl ⟨rfl, h.halts (by rw [View.ownWith_direct]; exact thenSome_eq_none.2 h0) hfull⟩
    · rw [if_neg h0]
      have hown : v.ownWith ino inode (Slot.direct ino ⟨index, h₁⟩) =
          some inode.direct[index].toNat :=
        (View.ownWith_direct _).trans (thenSome_eq_some.2 ⟨h0, rfl⟩)
      refine endsOn_pure ⟨_, _, rfl, thenSome_eq_some.2 ⟨h0, rfl⟩, hown, h.grows_held hown,
        fun _ _ => rfl, ?_⟩
      rw [hown, if_neg (Option.some_ne_none _)]
  by_cases h₂ : index - 12 < POINTERS_PER_BLOCK
  · have hslots : slotsTo ino index = [Slot.single ino] ++ [Slot.entry ino ⟨index - 12, h₂⟩] := by
      rw [slotsTo, dif_neg h₁, dif_pos h₂]
      rfl
    rw [dataSlot_entry h₁ h₂, hslots]
    simp only [bmap, dif_neg h₁, if_pos h₂, Bool.true_eq_false, and_false, if_false]
    refine ((endsOn_ensureRoot h .single (fun p => { inode with singleIndirect := p })
      (fun p r' => by cases r' <;> rfl) fun _ => rfl).and
      (endsOn_ensureRoot_count inode .single (fun p => { inode with singleIndirect := p }) fun _ => rfl)).bind ?_ ?_
    · rintro i w ⟨⟨hown, hg, hc⟩, hcount⟩
      refine (endsOn_entryBlock (r := .single) (p := []) (j := ⟨index - 12, h₂⟩) hg.mapped
        (Nat.le_refl 1) hown).bind ?_ ?_
      · rintro ⟨block, allocated⟩ w' ⟨b, rfl, hown', hnew, hg', hc'⟩
        refine endsOn_pure ⟨_, b, rfl, rfl, ?_, (hg.trans hg').congr (pointer_countBlock _ _)
          (attributes_countBlock _ _), (hc.trans hc').congr (pointer_countBlock _ _), ?_⟩
        · rw [View.ownWith_congr (pointer_countBlock _ _)]
          exact hown'
        · have hsame : w.ownWith ino i (Slot.entry ino ⟨index - 12, h₂⟩) =
              v.ownWith ino inode (Slot.entry ino ⟨index - 12, h₂⟩) :=
            hg.own_of_not_mem _ fun hmem =>
              absurd (congrArg Place.path (List.mem_singleton.1 hmem)) (List.cons_ne_nil _ _)
          rw [← hsame, ← hcount]
          exact blockCount_countBlock hnew
      · rintro e w' ⟨rfl, hs⟩
        exact .inl ⟨rfl, hg.halts hc hs⟩
    · rintro e w ⟨⟨rfl, hs⟩, -⟩
      exact .inl ⟨rfl, hs.append _⟩
  by_cases h₃ : index - 12 - POINTERS_PER_BLOCK < POINTERS_PER_BLOCK * POINTERS_PER_BLOCK
  · have hk : (index - 12 - POINTERS_PER_BLOCK) / POINTERS_PER_BLOCK < POINTERS_PER_BLOCK :=
      Nat.div_lt_of_lt_mul h₃
    have hj : (index - 12 - POINTERS_PER_BLOCK) % POINTERS_PER_BLOCK < POINTERS_PER_BLOCK :=
      Nat.mod_lt _ POINTERS_PER_BLOCK_pos
    have hslots : slotsTo ino index = [Slot.double ino] ++ ([Slot.inner ino ⟨_, hk⟩] ++
        [Slot.leaf ino ⟨_, hk⟩ ⟨_, hj⟩]) := by
      rw [slotsTo, dif_neg h₁, dif_neg h₂, dif_pos h₃]
      rfl
    rw [dataSlot_leaf h₁ h₂ h₃, hslots]
    simp only [bmap, dif_neg h₁, if_neg h₂, ge_iff_le, Nat.not_le.2 h₃, Bool.true_eq_false,
      and_false, if_false]
    refine ((endsOn_ensureRoot h .double (fun p => { inode with doubleIndirect := p })
      (fun p r' => by cases r' <;> rfl) fun _ => rfl).and
      (endsOn_ensureRoot_count inode .double (fun p => { inode with doubleIndirect := p }) fun _ => rfl)).bind ?_ ?_
    · rintro i w ⟨⟨hown, hg, hc⟩, hcount⟩
      refine (endsOn_entryBlock (r := .double) (p := []) (j := ⟨_, hk⟩) hg.mapped
        (Nat.le_succ 1) hown).bind ?_ ?_
      · rintro ⟨block, allocated⟩ w' ⟨inner, rfl, hown', -, hg', hc'⟩
        refine (endsOn_entryBlock (r := .double) (p := [⟨_, hk⟩]) (j := ⟨_, hj⟩) hg'.mapped
          (Nat.le_refl 2) hown').bind ?_ ?_
        · rintro ⟨block, allocated⟩ w'' ⟨b, rfl, hown'', hnew, hg'', hc''⟩
          refine endsOn_pure ⟨_, b, rfl, rfl, ?_, (hg.trans (hg'.trans hg'')).congr
            (pointer_countBlock _ _) (attributes_countBlock _ _),
            (hc.trans (hc'.trans hc'')).congr (pointer_countBlock _ _), ?_⟩
          · rw [View.ownWith_congr (pointer_countBlock _ _)]
            exact hown''
          · have hsame : w'.ownWith ino i (Slot.leaf ino ⟨_, hk⟩ ⟨_, hj⟩) =
                v.ownWith ino inode (Slot.leaf ino ⟨_, hk⟩ ⟨_, hj⟩) :=
              (hg'.own_of_not_mem _ fun hmem =>
                absurd (congrArg Place.path (List.mem_singleton.1 hmem)) (by simp [Slot.leaf])).trans
              (hg.own_of_not_mem _ fun hmem =>
                absurd (congrArg Place.path (List.mem_singleton.1 hmem)) (List.cons_ne_nil _ _))
            rw [← hsame, ← hcount]
            exact blockCount_countBlock hnew
        · rintro e w'' ⟨rfl, hs⟩
          exact .inl ⟨rfl, hg.halts hc (hg'.halts hc' hs)⟩
      · rintro e w' ⟨rfl, hs⟩
        exact .inl ⟨rfl, hg.halts hc (hs.append _)⟩
    · rintro e w ⟨⟨rfl, hs⟩, -⟩
      exact .inl ⟨rfl, hs.append _⟩
  · have hbmap : bmap inode index true = (throw (.badBlock index) : FsM Disk _) := by
      simp only [bmap, dif_neg h₁, if_neg h₂, ge_iff_le, Nat.not_lt.1 h₃, if_true]
    rw [hbmap]
    exact endsOn_throw (.inr ⟨rfl, dataSlot_none h₁ h₂ h₃, rfl⟩)

/-- What `bmap` does to slots, blocks and bitmap. -/
theorem endsOn_bmap (h : Mapped v ino inode) (index : Nat) :
    EndsOn view (bmap inode index true) v
      (fun res w => ∃ s b, dataSlot ino index = some s ∧ res.1 = some b ∧
        w.ownWith ino res.2 s = some b ∧ Grows ino (slotsTo ino index) v inode w res.2 ∧
        SameContent ino v inode w res.2)
      fun e w => (e = .noSpace ∧ Stops ino (slotsTo ino index) v inode w) ∨
        (e = .badBlock index ∧ dataSlot ino index = none ∧ w = v) := by
  refine (endsOn_bmap_counted h index).mono ?_ ?_
  · rintro res w ⟨s, b, hs, hres, hown, hg, hc, -⟩
    exact ⟨s, b, hs, hres, hown, hg, hc⟩
  · rintro e w (⟨he, hhalts⟩ | hbad)
    · exact .inl ⟨he, hhalts.stops⟩
    · exact .inr hbad

end AlbumFs

end AlbumFS
