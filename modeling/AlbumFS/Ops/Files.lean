import AlbumFS.Ops.Namespace

/-!
# Reading, writing and truncating files

What `read`, `write` and `truncate` do to the view. The bytes of a file are the contents of its
blocks one after the other, with zeros for holes; the operations work on one piece of a block at a
time, and each piece reads or changes the bytes of its range only.

## Main definitions

* `View.byteAt`, `View.file`: the bytes of a file.
* `blocksOver`, `slotsOver`: the blocks that a range touches and the slots on the way to them.
* `Written`, `Truncated`: the successful operations.

## Main results

* `AlbumFs.endsOn_read`, `AlbumFs.endsOn_write`, `AlbumFs.endsOn_truncate`.
-/

namespace AlbumFS

open BlockTree Ownership Prog

/-- Positions in the same block. -/
theorem div_mod_of_lt (position i : Nat) (h : position % UB + i < UB) :
    (position + i) / UB = position / UB ∧ (position + i) % UB = position % UB + i := by
  have hdm := Nat.div_add_mod position UB
  exact (Nat.div_mod_unique UB_pos).2 ⟨by omega, h⟩

namespace View

/-- The byte at position `k` of a file, zero in a hole. -/
def byteAt (v : View) (ino : Nat) (inode : Inode) (k : Nat) : UInt8 :=
  match dataSlot ino (k / UB) with
  | some s => (v.content ino inode s).bytes.getD (k % UB) 0
  | none => 0

/-- The bytes of a file from `position` on. -/
def bytesAt (v : View) (ino : Nat) (inode : Inode) (position n : Nat) : List UInt8 :=
  (List.range' position n).map (v.byteAt ino inode)

/-- The contents of a live file that is not a directory. -/
def file (v : View) (ino : Nat) : Option (List UInt8) :=
  (v.inodes ino).bind fun inode =>
    if inode.isDir then none else some (v.bytesAt ino inode 0 inode.size.toNat)

variable {v w : View} {ino position n : Nat} {inode inode' : Inode} {s : Slot}

theorem byteAt_congr (h : ∀ t : Slot, t.IsLeaf → t.ino = ino →
      w.content ino inode' t = v.content ino inode t) (k : Nat) :
    w.byteAt ino inode' k = v.byteAt ino inode k := by
  unfold byteAt
  cases hs : dataSlot ino (k / UB) with
  | none => rfl
  | some s =>
    obtain ⟨hleaf, hino⟩ := isLeaf_of_dataSlot hs
    simp only [h s hleaf hino]

@[simp] theorem length_bytesAt : (v.bytesAt ino inode position n).length = n := by
  rw [bytesAt, List.length_map, List.length_range']

theorem getElem?_bytesAt (i : Nat) :
    (v.bytesAt ino inode position n)[i]? =
      if i < n then some (v.byteAt ino inode (position + i)) else none := by
  rw [bytesAt, List.getElem?_map]
  split_ifs with h
  · rw [List.getElem?_range' h, Option.map_some, Nat.one_mul]
  · rw [List.getElem?_eq_none (by rwa [List.length_range', ← Nat.not_lt]), Option.map_none]

theorem bytesAt_append (m : Nat) :
    v.bytesAt ino inode position (m + n) =
      v.bytesAt ino inode position m ++ v.bytesAt ino inode (position + m) n := by
  rw [bytesAt, bytesAt, bytesAt, ← List.map_append, List.range'_append_1]

/-- A slice of the bytes of a file. -/
theorem slice_bytesAt {off len : Nat} (h : off + len ≤ n) :
    slice (v.bytesAt ino inode 0 n) off len = v.bytesAt ino inode off len := by
  apply List.ext_getElem?
  intro i
  rw [getElem?_slice, getElem?_bytesAt, getElem?_bytesAt]
  split_ifs
  · rw [Nat.zero_add]
  · omega
  · rfl

/-- The bytes of a range inside one block. -/
theorem bytesAt_block (inode : Inode) (hs : dataSlot ino (position / UB) = some s) (h : position % UB + n ≤ UB) :
    v.bytesAt ino inode position n = slice (v.content ino inode s).bytes (position % UB) n := by
  apply List.ext_getElem?
  intro i
  rw [getElem?_bytesAt, getElem?_slice]
  split_ifs with hi
  · obtain ⟨hdiv, hmod⟩ := div_mod_of_lt position i (by omega)
    have hlen := (v.content ino inode s).length_bytes
    unfold byteAt
    simp only [hdiv, hs, hmod]
    rw [List.getD_eq_getElem?_getD, List.getElem?_eq_getElem (by omega), Option.getD_some]
  · rfl

end View

/-- Writing the block behind a slot of contents. -/
theorem Mapped.content_setData {v : View} {ino b : Nat} {inode : Inode} {s t : Slot}
    (h : Mapped v ino inode) (hs : v.ownWith ino inode s = some b) (hleaf : s.IsLeaf) (block : Block) :
    (v.setData b block).content ino inode t = if t = s then block else v.content ino inode t := by
  have hown : (v.setData b block).ownWith ino inode = v.ownWith ino inode :=
    View.ownOf_data_congr fun t ht => by rwa [h.exclusive.inj ht hs]
  unfold View.content
  rw [hown, View.data_setData]
  split_ifs with hts
  · simp only [hts, hs, Function.update_self]
  · cases hc : v.ownWith ino inode t with
    | none => rfl
    | some c =>
      have hcb : c ≠ b := by
        rintro rfl
        exact hts (h.exclusive.inj hc hs)
      simp only [Function.update_of_ne hcb]

/-- Writing a piece of a block changes the bytes of its range. -/
theorem Mapped.byteAt_setData {v : View} {ino b position : Nat} {inode : Inode} {s : Slot}
    {piece : List UInt8} (h : Mapped v ino inode) (hs : dataSlot ino (position / UB) = some s)
    (hown : v.ownWith ino inode s = some b) (hfit : position % UB + piece.length ≤ UB) (k : Nat) :
    (v.setData b ((v.data b).write (position % UB) piece)).byteAt ino inode k =
      if position ≤ k ∧ k < position + piece.length then piece.getD (k - position) 0
      else v.byteAt ino inode k := by
  have hleaf := (isLeaf_of_dataSlot hs).1
  have hposition := Nat.div_add_mod position UB
  have hk := Nat.div_add_mod k UB
  have hmod := Nat.mod_lt k UB_pos
  unfold View.byteAt
  by_cases hblock : k / UB = position / UB
  · have hcontent : v.content ino inode s = v.data b := by
      unfold View.content
      rw [hown]
    have hlen := (v.data b).length_bytes
    rw [hblock] at hk
    simp only [hblock, hs, h.content_setData hown hleaf, if_true, hcontent, Block.bytes_write,
      List.getD_eq_getElem?_getD, getElem?_overwrite]
    by_cases hin : position ≤ k ∧ k < position + piece.length
    · rw [if_pos hin, if_pos (by omega)]
      congr 2
      omega
    · rw [if_neg hin, if_neg (by omega)]
  · have hout : ¬ (position ≤ k ∧ k < position + piece.length) := by
      rintro ⟨hge, hlt⟩
      have hdiv := (div_mod_of_lt position (k - position) (by omega)).1
      rw [Nat.add_sub_cancel' hge] at hdiv
      exact hblock hdiv
    rw [if_neg hout]
    cases ht : dataSlot ino (k / UB) with
    | none => rfl
    | some t =>
      have hts : t ≠ s := by
        rintro rfl
        exact hblock (dataSlot_injective ht hs)
      simp only [h.content_setData hown hleaf, if_neg hts]

/-! ### The blocks of a range -/

/-- The blocks that the `n` bytes from `position` on lie in. -/
def blocksOver (position n : Nat) : List Nat :=
  if n = 0 then [] else List.range' (position / UB) ((position + n - 1) / UB + 1 - position / UB)

/-- The slots on the way to the blocks of a range. -/
def slotsOver (ino position n : Nat) : List Slot := (blocksOver position n).flatMap (slotsTo ino)

theorem blocksOver_zero (position : Nat) : blocksOver position 0 = [] := if_pos rfl

/-- The first piece of a range ends with its block. -/
theorem blocksOver_cons (position : Nat) {n : Nat} (hn : n ≠ 0) :
    blocksOver position n = position / UB ::
      blocksOver (position + min n (UB - position % UB)) (n - min n (UB - position % UB)) := by
  have hmod := Nat.mod_lt position UB_pos
  have hdm := Nat.div_add_mod position UB
  rw [blocksOver, if_neg hn]
  by_cases hle : n ≤ UB - position % UB
  · have hdiv := (div_mod_of_lt position (n - 1) (by omega)).1
    rw [show position + (n - 1) = position + n - 1 by omega] at hdiv
    rw [Nat.min_eq_left hle, Nat.sub_self, blocksOver_zero, hdiv, Nat.add_sub_cancel_left,
      List.range'_one]
  · have hnext : (position + (UB - position % UB)) / UB = position / UB + 1 := by
      rw [show position + (UB - position % UB) = UB * (position / UB + 1) by rw [Nat.mul_succ]; omega]
      exact Nat.mul_div_cancel_left _ UB_pos
    have hmono : position / UB + 1 ≤ (position + n - 1) / UB := by
      rw [← hnext]
      exact Nat.div_le_div_right (by omega)
    rw [Nat.min_eq_right (by omega), blocksOver, if_neg (by omega), hnext,
      show position + (UB - position % UB) + (n - (UB - position % UB)) - 1 = position + n - 1 by omega,
      show (position + n - 1) / UB + 1 - position / UB =
        (position + n - 1) / UB + 1 - (position / UB + 1) + 1 by omega,
      List.range'_succ]

theorem mem_blocksOver {position n index : Nat} (hn : n ≠ 0) :
    index ∈ blocksOver position n ↔ position / UB ≤ index ∧ index ≤ (position + n - 1) / UB := by
  have hmono : position / UB ≤ (position + n - 1) / UB := Nat.div_le_div_right (by omega)
  rw [blocksOver, if_neg hn, List.mem_range'_1]
  omega

/-! ### Ranges that are written -/

/-- The bytes `data` are written from `position` on. -/
structure WroteRange (ino position : Nat) (data : List UInt8) (v : View) (inode : Inode) (w : View)
    (inode' : Inode) : Prop where
  grows : Grows ino (slotsOver ino position data.length) v inode w inode'
  inReach : ∀ index ∈ blocksOver position data.length, dataSlot ino index ≠ none
  byteAt_eq : ∀ k, w.byteAt ino inode' k =
    if position ≤ k ∧ k < position + data.length then data.getD (k - position) 0
    else v.byteAt ino inode k
  content_eq : ∀ t : Slot, t.IsLeaf → t.ino ≠ ino →
    w.content ino inode' t = v.content ino inode t

/-- Writing stopped at a block that no file can have. -/
def Exceeds (ino position n : Nat) (v : View) (inode : Inode) (w : View) : Prop :=
  ∃ (before : List Nat) (index : Nat) (rest : List Nat) (inode' : Inode),
    blocksOver position n = before ++ index :: rest ∧ dataSlot ino index = none ∧
      Grows ino (before.flatMap (slotsTo ino)) v inode w inode'

section Wrote

variable {v w : View} {ino position : Nat} {inode inode' : Inode} {data : List UInt8}

theorem Mapped.wroteRange_nil (h : Mapped v ino inode) (position : Nat) :
    WroteRange ino position [] v inode v inode where
  grows := by
    rw [slotsOver, List.length_nil, blocksOver_zero]
    exact h.grows_nil
  inReach := by simp [blocksOver_zero]
  byteAt_eq k := by
    rw [if_neg]
    simp only [List.length_nil]
    omega
  content_eq _ _ _ := rfl

/-- The first piece of a range is written into its block. -/
theorem WroteRange.cons {v₁ : View} {i : Inode} {s : Slot} {b : Nat} (hdata : data.length ≠ 0)
    (hs : dataSlot ino (position / UB) = some s)
    (hown : v₁.ownWith ino i s = some b) (hg : Grows ino (slotsTo ino (position / UB)) v inode v₁ i)
    (hc : SameContent ino v inode v₁ i) {take : Nat}
    (htake : take = min data.length (UB - position % UB))
    (h : WroteRange ino (position + take) (data.drop take)
      (v₁.setData b ((v₁.data b).write (position % UB) (data.take take))) i w inode') :
    WroteRange ino position data v inode w inode' := by
  have hmod := Nat.mod_lt position UB_pos
  have hlen : (data.take take).length = take := by
    rw [List.length_take]
    omega
  have hblocks := blocksOver_cons position hdata
  rw [← htake] at hblocks
  obtain ⟨hgrows, hreach, hbyte, hcontent⟩ := h
  rw [List.length_drop] at hgrows hreach hbyte
  refine ⟨?_, ?_, fun k => ?_, fun t ht hino => ?_⟩
  · rw [slotsOver, hblocks, List.flatMap_cons]
    have hset := hg.trans (hg.mapped.grows_setData hown (isLeaf_of_dataSlot hs).1
      ((v₁.data b).write (position % UB) (data.take take)))
    rw [List.append_nil] at hset
    exact hset.trans hgrows
  · rw [hblocks]
    rintro index (_ | ⟨_, hindex⟩)
    · rw [hs]
      exact Option.some_ne_none _
    · exact hreach index hindex
  · rw [hbyte, hg.mapped.byteAt_setData hs hown (by omega), hlen,
      View.byteAt_congr fun t ht _ => hc t ht]
    by_cases h₁ : position + take ≤ k ∧ k < position + take + (data.length - take)
    · rw [if_pos h₁, if_pos (by omega), List.getD_eq_getElem?_getD, List.getD_eq_getElem?_getD,
        List.getElem?_drop]
      congr 2
      omega
    · rw [if_neg h₁]
      by_cases h₂ : position ≤ k ∧ k < position + take
      · rw [if_pos h₂, if_pos (by omega), List.getD_eq_getElem?_getD, List.getD_eq_getElem?_getD,
          List.getElem?_take_of_lt (by omega)]
      · rw [if_neg h₂, if_neg (by omega)]
  · have hts : t ≠ s := by
      rintro rfl
      exact hino (isLeaf_of_dataSlot hs).2
    rw [hcontent t ht hino, hg.mapped.content_setData hown (isLeaf_of_dataSlot hs).1, if_neg hts, hc t ht]

end Wrote

namespace AlbumFs

variable {v w : View} {ino : Nat} {inode inode' : Inode}

/-! ### Reading -/

theorem endsOn_readRange (h : Mapped v ino inode) (position stop : Nat) :
    EndsOn view (readRange inode position stop) v
      (fun bytes w => bytes = v.bytesAt ino inode position (stop - position) ∧ w = v)
      fun e w => w = v ∧ ∃ index, e = .badBlock index ∧ dataSlot ino index = none ∧ index * UB < stop := by
  induction hn : stop - position using Nat.strong_induction_on generalizing position with
  | _ n ih =>
    subst hn
    have hmod := Nat.mod_lt position UB_pos
    rw [readRange]
    by_cases hlt : position < stop
    · rw [if_pos hlt]
      have hr := reads_bmap h (position / UB)
      cases hs : dataSlot ino (position / UB) with
      | none =>
        rw [hs] at hr
        have hstart : position / UB * UB < stop := Nat.lt_of_le_of_lt (Nat.div_mul_le_self _ _) hlt
        exact hr.bind_error.endsOn (by simp) (by rintro _ ⟨⟩; exact ⟨rfl, _, rfl, hs, hstart⟩)
      | some s =>
        rw [hs] at hr
        refine hr.bind_endsOn ?_
        have hpiece := View.bytesAt_block (v := v) inode
          (n := min (stop - position) (UB - position % UB)) hs (by omega)
        -- the rest of the range follows the piece
        have hrest : ∀ m : FsM Disk (List UInt8),
            Reads view m v
              (.ok (v.bytesAt ino inode position (min (stop - position) (UB - position % UB)))) →
            EndsOn view (do
              let piece ← m
              let rest ← readRange inode (position + min (stop - position) (UB - position % UB)) stop
              pure (piece ++ rest)) v
              (fun bytes w => bytes = v.bytesAt ino inode position (stop - position) ∧ w = v)
              fun e w => w = v ∧ ∃ index, e = .badBlock index ∧ dataSlot ino index = none ∧
                index * UB < stop := by
          intro m hread
          refine hread.bind_endsOn ((ih _ (by omega) _ rfl).bind ?_ fun _ _ he => he)
          rintro rest _ ⟨rfl, rfl⟩
          refine endsOn_pure ⟨?_, rfl⟩
          rw [← View.bytesAt_append]
          congr 1
          omega
        cases hb : v.ownWith ino inode s with
        | none =>
          have hzero : slice Block.zero.bytes (position % UB)
              (min (stop - position) (UB - position % UB)) =
              List.replicate (min (stop - position) (UB - position % UB)) 0 := by
            rw [List.eq_replicate_iff]
            exact ⟨length_slice (by rw [Block.length_bytes]; omega), Block.slice_zero _ _⟩
          refine hrest _ ?_
          rw [hpiece, View.content, hb, hzero]
          exact reads_pure _ _
        | some b =>
          refine hrest _ ?_
          rw [hpiece, View.content, hb]
          exact (reads_readBlock (h.inData hb)).bind (reads_pure _ _)
    · rw [if_neg hlt]
      refine endsOn_pure ⟨?_, rfl⟩
      rw [Nat.sub_eq_zero_of_le (Nat.not_lt.1 hlt), View.bytesAt, List.range'_zero, List.map_nil]

/-- A successful `read` returns a slice of the contents and changes nothing. -/
theorem endsOn_read (h : v.Sound) (ino : Nat) (offset : UInt64) (len : Nat) :
    EndsOn view (read ino offset len) v
      (fun bytes w => w = v ∧ ∃ contents, v.file ino = some contents ∧
        bytes = slice contents offset.toNat (min contents.length (offset.toNat + len) - offset.toNat))
      fun _ w => w = v := by
  refine (reads_getattr h.geometry ino).bind_endsOn_except (fun inode hinode => ?_) fun _ _ => rfl
  have hi := View.inodes_of_getattr hinode
  by_cases hdir : inode.isDir = true
  · rw [if_pos hdir]
    exact endsOn_throw rfl
  · have hfile : v.file ino = some (v.bytesAt ino inode 0 inode.size.toNat) := by
      rw [View.file, hi, Option.bind_some, if_neg hdir]
    rw [if_neg hdir]
    by_cases hpast : offset ≥ inode.size ∨ len = 0
    · rw [if_pos hpast]
      refine endsOn_pure ⟨rfl, _, hfile, ?_⟩
      rw [View.length_bytesAt, slice]
      rcases hpast with hpast | rfl
      · have hle : inode.size.toNat ≤ offset.toNat := UInt64.le_iff_toNat_le.1 hpast
        rw [Nat.sub_eq_zero_of_le (by omega), List.take_zero]
      · rw [Nat.sub_eq_zero_of_le (by omega), List.take_zero]
    · rw [if_neg hpast]
      refine (endsOn_readRange (h.mapped hi) _ _).mono ?_ fun _ _ he => he.1
      rintro bytes w ⟨rfl, rfl⟩
      refine ⟨rfl, _, hfile, ?_⟩
      have hsize : inode.size.toNat < 2 ^ 64 := inode.size.toNat_lt
      have hlt : offset.toNat < inode.size.toNat :=
        UInt64.lt_iff_toNat_lt.1 (UInt64.not_le.1 fun hle => hpast (.inl hle))
      rw [View.length_bytesAt, View.slice_bytesAt (by omega)]
      congr 1
      omega

/-! ### Writing -/

theorem endsOn_writeRange (h : Mapped v ino inode) (position : Nat) (data : List UInt8) :
    EndsOn view (writeRange inode position data) v
      (fun i w => WroteRange ino position data v inode w i)
      fun _ w => Stops ino (slotsOver ino position data.length) v inode w ∨
        Exceeds ino position data.length v inode w := by
  induction hn : data.length using Nat.strong_induction_on generalizing v inode position data with
  | _ n ih =>
    subst hn
    rw [writeRange]
    by_cases hdata : data.length = 0
    · rw [if_pos hdata, List.eq_nil_of_length_eq_zero hdata]
      exact endsOn_pure (h.wroteRange_nil position)
    · have hmod := Nat.mod_lt position UB_pos
      have hblocks := blocksOver_cons position hdata
      rw [if_neg hdata]
      refine (endsOn_bmap h (position / UB)).bind ?_ ?_
      · rintro ⟨block, i⟩ v₁ ⟨s, b, hs, rfl, hown, hg, hc⟩
        have hin := hg.mapped.inData hown
        refine (reads_readBlock hin).bind_endsOn
          (endsOn_bind (endsOn_writeBlock_bytes hg.mapped.geometry hin ?_))
        generalize htake : min data.length (UB - position % UB) = take at hblocks ⊢
        have hset := hg.trans (hg.mapped.grows_setData hown (isLeaf_of_dataSlot hs).1
          ((v₁.data b).write (position % UB) (data.take take)))
        rw [List.append_nil] at hset
        refine (ih _ (by rw [List.length_drop]; omega) hset.mapped (position + take) (data.drop take)
          rfl).mono (fun i' w hw => hw.cons hdata hs hown hg hc htake.symm) fun e w hw => ?_
        rw [List.length_drop] at hw
        rw [slotsOver, Exceeds, hblocks, List.flatMap_cons]
        rcases hw with hstop | ⟨before, index, rest, i', heq, hnone, hgrows⟩
        · exact .inl (hset.stops hstop)
        · refine .inr ⟨position / UB :: before, index, rest, i', by rw [heq, List.cons_append], hnone, ?_⟩
          rw [List.flatMap_cons]
          exact hset.trans hgrows
      · intro e w he
        rw [slotsOver, Exceeds, hblocks, List.flatMap_cons]
        rcases he with ⟨-, hstop⟩ | ⟨-, hnone, rfl⟩
        · exact .inl (hstop.append _)
        · exact .inr ⟨[], _, _, inode, rfl, hnone, h.grows_nil⟩

/-- A successful `write`. -/
def Written (v : View) (ino : Nat) (offset : UInt64) (data : List UInt8) (w : View) : Prop :=
  ∃ inode inode' u time, v.inodes ino = some inode ∧ inode.isDir = false ∧ inode.mode ≠ 0 ∧
    offset.toNat + data.length < 2 ^ 64 ∧ WroteRange ino offset.toNat data v inode u inode' ∧
    w = u.setInode ino (Inode.touched
      (if offset.toNat + data.length > inode'.size.toNat then
        { inode' with size := UInt64.ofNat (offset.toNat + data.length) }
      else inode') time)

/-- A `write` that stopped half-way has thrown the copy of the inode away. -/
def WriteStopped (v : View) (ino : Nat) (offset : UInt64) (n : Nat) (w : View) : Prop :=
  ∃ inode, v.inodes ino = some inode ∧ inode.isDir = false ∧
    (Stops ino (slotsOver ino offset.toNat n) v inode w ∨ Exceeds ino offset.toNat n v inode w)

theorem pointer_written (inode : Inode) (size time : UInt64) (p : Prop) [Decidable p] (r : Root) :
    r.pointer (Inode.touched (if p then { inode with size } else inode) time) = r.pointer inode := by
  rw [Root.pointer_touched]
  split_ifs
  · cases r <;> rfl
  · rfl

theorem Written.sound {offset : UInt64} {data : List UInt8} (h : Written v ino offset data w) :
    w.Sound := by
  obtain ⟨inode, inode', u, time, -, -, hmode, -, hwrote, rfl⟩ := h
  refine hwrote.grows.sound_store (pointer_written _ _ _ _) ?_
  rw [Inode.mode_touched, apply_ite Inode.mode, ite_self, Inode.mode_eq hwrote.grows.attributes_eq]
  exact hmode

theorem WriteStopped.sound {offset : UInt64} {n : Nat} (h : WriteStopped v ino offset n w) :
    w.Sound := by
  obtain ⟨inode, hi, -, hstop | ⟨_, _, _, _, -, -, hgrows⟩⟩ := h
  · exact hstop.sound hi
  · exact hgrows.sound_stop hi

theorem endsOn_write (h : v.Sound) (ino : Nat) (offset : UInt64) (data : List UInt8) :
    EndsOn view (write ino offset data) v
      (fun n w => n = data.length ∧ Written v ino offset data w)
      fun _ w => w = v ∨ WriteStopped v ino offset data.length w ∨ Written v ino offset data w := by
  refine (reads_getattr h.geometry ino).bind_endsOn_except (fun inode hinode => ?_) fun _ _ => .inl rfl
  have hi := View.inodes_of_getattr hinode
  by_cases hdir : inode.isDir = true
  · rw [if_pos hdir]
    exact endsOn_throw (.inl rfl)
  · rw [if_neg hdir]
    have hdir' : inode.isDir = false := by simpa using hdir
    unfold checkedAdd
    by_cases hlt : offset.toNat + data.length < 2 ^ 64
    · rw [if_pos hlt]
      refine endsOn_of_live fun hlive => ?_
      obtain ⟨hvalid, hmode⟩ := hlive ino inode hi
      refine (endsOn_writeRange (h.mapped hi) _ _).bind (fun i u hu => ?_)
        fun _ w hw => .inr (.inl ⟨inode, hi, hdir', hw⟩)
      have hg := hu.grows.mapped.geometry
      refine endsOn_bind (endsOn_now fun time => endsOn_bind (endsOn_writeInode hg ?_ ?_))
      · rwa [View.ValidIno, hu.grows.sb_eq]
      · have hdone : Written v ino offset data (u.setInode ino (Inode.touched
            (if offset.toNat + data.length > i.size.toNat then
              { i with size := UInt64.ofNat (offset.toNat + data.length) } else i) time)) :=
          ⟨inode, i, u, time, hi, hdir', hmode, hlt, hu, rfl⟩
        exact endsOn_bind (endsOn_sync (hg.setInode _ _) (endsOn_pure ⟨rfl, hdone⟩)
          fun _ => .inr (.inr hdone))
    · rw [if_neg hlt]
      exact endsOn_throw (.inl rfl)

/-! ### Truncating -/

/-- Removing blocks that no file can have does nothing. -/
theorem removeMappedBlocks_of_none {σ : Type} [BlockDevice σ] {start : Nat}
    (h : dataSlot ino start = none) (n : Nat) :
    (removeMappedBlocks inode start n : FsM σ Inode) = pure inode := by
  rw [dataSlot_eq_none_iff] at h
  induction n generalizing start with
  | zero => rfl
  | succ n ih =>
    have hone : (removeMappedBlock inode start : FsM σ Inode) = pure inode := by
      rw [removeMappedBlock, dif_neg (by omega)]
      simp only
      rw [if_neg (by omega), if_pos (.inl (by omega))]
    rw [removeMappedBlocks, hone]
    exact ih (by omega)

/-- A file is cut to `newSize` bytes: its blocks behind the end are removed, and what is left of the
last block is filled with zeros. -/
def Trimmed (ino newSize : Nat) (v : View) (inode : Inode) (w : View) (inode' : Inode) : Prop :=
  ∃ v', RemovedRange ino (divCeil newSize UB) (divCeil inode.size.toNat UB - divCeil newSize UB)
      v inode v' inode' ∧ Grows ino [] v' inode' w inode' ∧
    (∀ k, w.byteAt ino inode' k = if newSize ≤ k ∧ k < divCeil newSize UB * UB then 0
      else v'.byteAt ino inode' k) ∧
    ∀ t : Slot, t.IsLeaf → t.ino ≠ ino → w.content ino inode' t = v'.content ino inode' t

theorem divCeil_of_mod_ne {n : Nat} (h : n % UB ≠ 0) :
    divCeil n UB = n / UB + 1 ∧ divCeil n UB * UB = n + (UB - n % UB) := by
  have hmod := Nat.mod_lt n UB_pos
  have hdm := Nat.div_add_mod n UB
  have hdiv : divCeil n UB = n / UB + 1 := by
    rw [divCeil, Nat.div_eq_of_lt_le]
    · rw [Nat.mul_comm, Nat.mul_succ]
      omega
    · rw [Nat.mul_comm, Nat.mul_succ, Nat.mul_succ]
      omega
  refine ⟨hdiv, ?_⟩
  rw [hdiv, Nat.mul_comm, Nat.mul_succ]
  omega

theorem divCeil_of_mod_eq {n : Nat} (h : n % UB = 0) : divCeil n UB * UB = n := by
  have hdm := Nat.div_add_mod n UB
  have hdiv : divCeil n UB = n / UB := by
    have hpos := UB_pos
    rw [divCeil, Nat.div_eq_of_lt_le]
    · rw [Nat.mul_comm]
      omega
    · rw [Nat.mul_comm, Nat.mul_succ]
      omega
  rw [hdiv, Nat.mul_comm]
  omega

/-- The last block lies beyond the reach of the pointers. -/
theorem reads_zeroTail_error (h : Mapped v ino inode) {newSize : Nat} (htail : newSize % UB ≠ 0)
    (hs : dataSlot ino (newSize / UB) = none) :
    Reads view (zeroTail inode newSize) v (.error (.badBlock (newSize / UB))) := by
  have hr := reads_bmap h (newSize / UB)
  rw [hs] at hr
  unfold zeroTail
  simp only [ne_eq, htail, not_false_iff, if_true, (divCeil_of_mod_ne htail).1, Nat.add_sub_cancel]
  exact hr.bind_error

/-- The end of the last block is filled with zeros. -/
theorem endsOn_zeroTail (h : Mapped v ino inode) {newSize : Nat}
    (hreach : newSize % UB ≠ 0 → dataSlot ino (newSize / UB) ≠ none) :
    EndsOn view (zeroTail inode newSize) v
      (fun _ w => Grows ino [] v inode w inode ∧
        (∀ k, w.byteAt ino inode k = if newSize ≤ k ∧ k < divCeil newSize UB * UB then 0
          else v.byteAt ino inode k) ∧
        ∀ t : Slot, t.IsLeaf → t.ino ≠ ino → w.content ino inode t = v.content ino inode t)
      fun _ _ => False := by
  unfold zeroTail
  by_cases htail : newSize % UB = 0
  · simp only [htail, ne_eq, not_true, if_false]
    refine endsOn_pure ⟨h.grows_nil, fun k => ?_, fun _ _ _ => rfl⟩
    rw [if_neg]
    have := divCeil_of_mod_eq htail
    omega
  · have hmod := Nat.mod_lt newSize UB_pos
    obtain ⟨hdiv, hend⟩ := divCeil_of_mod_ne htail
    obtain ⟨s, hs⟩ := Option.ne_none_iff_exists'.1 (hreach htail)
    obtain ⟨hleaf, hino⟩ := isLeaf_of_dataSlot hs
    simp only [ne_eq, htail, not_false_iff, if_true]
    rw [hend, hdiv, Nat.add_sub_cancel]
    have hr := reads_bmap h (newSize / UB)
    rw [hs] at hr
    refine hr.bind_endsOn ?_
    cases hb : v.ownWith ino inode s with
    | none =>
      refine endsOn_pure ⟨h.grows_nil, fun k => ?_, fun _ _ _ => rfl⟩
      split_ifs with hk
      · have hblock := (div_mod_of_lt newSize (k - newSize) (by omega)).1
        rw [Nat.add_sub_cancel' hk.1] at hblock
        have hzero : v.content ino inode s = Block.zero := by
          unfold View.content
          rw [hb]
        have hlt := Nat.mod_lt k UB_pos
        unfold View.byteAt
        simp only [hblock, hs, hzero, Block.bytes_zero]
        rw [List.getD_eq_getElem?_getD, List.getElem?_replicate, if_pos hlt, Option.getD_some]
      · rfl
    | some b =>
      have hin := h.inData hb
      refine (reads_readBlock hin).bind_endsOn (endsOn_writeBlock_bytes h.geometry hin
        ⟨h.grows_setData hb hleaf _, fun k => ?_, fun t _ ht => ?_⟩)
      · rw [h.byteAt_setData hs hb (by rw [List.length_replicate]; omega), List.length_replicate]
        split_ifs with hk
        · rw [List.getD_eq_getElem?_getD, List.getElem?_replicate, if_pos (by omega), Option.getD_some]
        · rfl
      · rw [h.content_setData hb hleaf, if_neg]
        rintro rfl
        exact ht hino

/-- A successful `truncate`. -/
def Truncated (v : View) (ino : Nat) (newSize : UInt64) (w : View) : Prop :=
  ∃ inode inode' u time, v.inodes ino = some inode ∧ inode.isDir = false ∧ inode.mode ≠ 0 ∧
    (newSize < inode.size ∧ Trimmed ino newSize.toNat v inode u inode' ∨
      ¬ newSize < inode.size ∧ u = v ∧ inode' = inode) ∧
    w = u.setInode ino ({ inode' with size := newSize }.touched time)

theorem pointer_truncated (inode : Inode) (size time : UInt64) (r : Root) :
    r.pointer ({ inode with size }.touched time) = r.pointer inode := by
  cases r <;> rfl

theorem Truncated.sound {newSize : UInt64} (h : Truncated v ino newSize w) (hs : v.Sound) :
    w.Sound := by
  obtain ⟨inode, inode', u, time, hi, -, hmode, ⟨-, v', hremoved, hgrows, -⟩ | ⟨-, rfl, rfl⟩, rfl⟩ := h
  · refine hgrows.sound_store (pointer_truncated _ _ _) ?_
    rw [Inode.mode_touched]
    exact (Inode.mode_eq hremoved.shrinks.attributes_eq).trans_ne hmode
  · exact (hs.mapped hi).sound (pointer_truncated _ _ _) hmode

/-- What `truncate` does follows from what releasing the blocks does. -/
theorem endsOn_truncate_of (h : v.Sound) {ino : Nat} {newSize : UInt64} {Q : View → Prop}
    (hkeep : ∀ inode time, v.inodes ino = some inode → inode.isDir = false → inode.mode ≠ 0 →
      ¬newSize < inode.size → Q (v.setInode ino ({ inode with size := newSize }.touched time)))
    (htrim : ∀ inode, v.inodes ino = some inode → inode.isDir = false → inode.mode ≠ 0 →
      newSize < inode.size → EndsOn view (removeMappedBlocks inode (divCeil newSize.toNat UB)
        (divCeil inode.size.toNat UB - divCeil newSize.toNat UB)) v
        (fun i v' => Shrinks ino v inode v' i ∧ ∀ u time, Grows ino [] v' i u i →
          (∀ k, u.byteAt ino i k = if newSize.toNat ≤ k ∧ k < divCeil newSize.toNat UB * UB then 0
            else v'.byteAt ino i k) →
          (∀ t : Slot, t.IsLeaf → t.ino ≠ ino → u.content ino i t = v'.content ino i t) →
          Q (u.setInode ino ({ i with size := newSize }.touched time))) fun _ _ => False) :
    EndsOn view (truncate ino newSize) v (fun _ w => Q w) fun _ w => w = v ∨ Q w := by
  refine (reads_getattr h.geometry ino).bind_endsOn_except (fun inode hinode => ?_) fun _ _ => .inl rfl
  have hi := View.inodes_of_getattr hinode
  by_cases hdir : inode.isDir = true
  · rw [if_pos hdir]
    exact endsOn_throw (.inl rfl)
  rw [if_neg hdir]
  have hdir' : inode.isDir = false := by simpa using hdir
  have hm := h.mapped hi
  refine endsOn_of_live fun hlive => ?_
  obtain ⟨hvalid, hmode⟩ := hlive ino inode hi
  have hstore : ∀ (i : Inode) (u : View), u.Geometry → u.sb = v.sb →
      (∀ time, Q (u.setInode ino ({ i with size := newSize }.touched time))) →
      EndsOn view (do
        let time ← now
        writeInode ino { i with size := newSize, mtime := time, ctime := time }
        sync : FsM Disk Unit) u (fun _ w => Q w) fun _ w => w = v ∨ Q w := by
    intro i u hg hsb hu
    refine endsOn_bind (endsOn_now fun time => endsOn_bind (endsOn_writeInode hg ?_ ?_))
    · rwa [View.ValidIno, hsb]
    · exact endsOn_sync (hg.setInode _ _) (hu time) fun _ => .inr (hu time)
  by_cases hlt : newSize < inode.size
  · rw [if_pos hlt]
    by_cases hreach : newSize.toNat % UB ≠ 0 ∧ dataSlot ino (newSize.toNat / UB) = none
    · -- The last block lies beyond the reach of the pointers, and so do the blocks behind it.
      have hkeep : dataSlot ino (divCeil newSize.toNat UB) = none := by
        have hnone := hreach.2
        rw [dataSlot_eq_none_iff] at hnone ⊢
        rw [(divCeil_of_mod_ne hreach.1).1]
        omega
      dsimp only
      rw [removeMappedBlocks_of_none hkeep]
      refine endsOn_bind (endsOn_bind (endsOn_pure ?_))
      exact endsOn_bind ((reads_zeroTail_error hm hreach.1 hreach.2).endsOn (by simp)
        fun _ _ => .inl rfl)
    · refine endsOn_bind (endsOn_bind ((htrim inode hi hdir' hmode hlt).mono (fun i v' hr => ?_)
        fun _ _ hf => hf.elim))
      obtain ⟨hshrinks, hq⟩ := hr
      refine endsOn_bind ((endsOn_zeroTail (hshrinks.mapped hm) fun htail hnone =>
        hreach ⟨htail, hnone⟩).mono ?_ fun _ _ hf => hf.elim)
      rintro _ u ⟨hgrows, hbyte, hcontent⟩
      exact endsOn_pure (hstore i u hgrows.mapped.geometry (hgrows.sb_eq.trans hshrinks.sb_eq)
        fun time => hq u time hgrows hbyte hcontent)
  · rw [if_neg hlt]
    exact (reads_pure _ _).bind_endsOn (hstore inode v h.geometry rfl fun time =>
      hkeep inode time hi hdir' hmode hlt)

theorem endsOn_truncate (h : v.Sound) (ino : Nat) (newSize : UInt64) :
    EndsOn view (truncate ino newSize) v (fun _ w => Truncated v ino newSize w)
      fun _ w => w = v ∨ Truncated v ino newSize w := by
  refine endsOn_truncate_of h (fun inode time hi hdir hmode hlt => ?_) fun inode hi hdir hmode hlt => ?_
  · exact ⟨inode, inode, v, time, hi, hdir, hmode, .inr ⟨hlt, rfl, rfl⟩, rfl⟩
  · refine (endsOn_removeMappedBlocks (h.mapped hi) _ _).mono (fun i v' hr => ⟨hr.shrinks, ?_⟩)
      fun _ _ hf => hf
    intro u time hgrows hbyte hcontent
    exact ⟨inode, i, u, time, hi, hdir, hmode, .inl ⟨hlt, v', hr, hgrows, hbyte, hcontent⟩, rfl⟩

end AlbumFs

end AlbumFS
