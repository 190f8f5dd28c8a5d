import AlbumFS.Dirs.Insertion

/-!
# Taking an entry out of a directory

`remove_dir_entry` walks over the records of a block up to the live record with the name. The live record it
passed last takes over the length of this record, and when there is none the record becomes a free one. When a
free record lies between the two, the length of the gap is lost and the block is no chain of records any more.
When no such gap lies before the record, the entry goes and everything else stays.

## Main definitions

* `DirEntry.Named`, `Gapless`: the record to take out, and that there is no gap before it.

## Main results

* `removeRecord_eq_vacate`: taking an entry out of a block.
* `AlbumFs.Taken.lists`: taking an entry out of a directory.
* `removeDirEntry_exact`: what is left of the records and the blocks.
-/

namespace AlbumFS

open FirstFit Prog

/-- A live record with a name. -/
def DirEntry.Named (name : String) (e : DirEntry) : Prop := e.inode ≠ 0 ∧ e.name = name

instance (name : String) (e : DirEntry) : Decidable (e.Named name) := inferInstanceAs (Decidable (_ ∧ _))

/-- No free record lies between the live record called `name` and the live record before it. -/
def Gapless (name : String) (es : List DirEntry) : Prop :=
  ∀ before e after, es = before ++ e :: after → e.Named name →
    (∀ r ∈ before, r.inode = 0) ∨ ∃ r ∈ before.getLast?, r.inode ≠ 0

/-- There is no gap in a row of live records. -/
theorem gapless_of_live {name : String} {es : List DirEntry} (h : ∀ e ∈ es, e.inode ≠ 0) : Gapless name es := by
  rintro before e after rfl -
  cases hlast : before.getLast? with
  | none =>
    rw [List.getLast?_eq_none_iff.1 hlast]
    exact .inl fun r hr => absurd hr List.not_mem_nil
  | some r => exact .inr ⟨r, rfl, h r (List.mem_append_left _ (List.mem_of_getLast? hlast))⟩

/-! ### Parts of a chain -/

/-- Records follow one another from `offset` on. -/
def IsRow (block : Block) : Nat → List DirEntry → Prop
  | _, [] => True
  | offset, e :: es => DirEntry.IsRecord block.bytes offset e ∧ IsRow block (offset + e.recLen.toNat) es

/-- The bytes that a row of records takes up. -/
def rowLength (es : List DirEntry) : Nat := size (es.map DirEntry.chunk)

section Rows

variable {block block' : Block} {offset : Nat} {e : DirEntry} {es es' before after : List DirEntry}

@[simp] theorem rowLength_nil : rowLength [] = 0 := rfl

@[simp] theorem rowLength_cons (e : DirEntry) (es : List DirEntry) :
    rowLength (e :: es) = e.recLen.toNat + rowLength es := by
  rw [rowLength, List.map_cons, size_cons, rowLength]
  rfl

@[simp] theorem rowLength_append (es es' : List DirEntry) :
    rowLength (es ++ es') = rowLength es + rowLength es' := by
  rw [rowLength, List.map_append, size_append, rowLength, rowLength]

theorem isChain_append :
    IsChain block offset (before ++ after) ↔
      IsRow block offset before ∧ IsChain block (offset + rowLength before) after := by
  induction before generalizing offset with
  | nil => simp [IsRow]
  | cons e before ih => rw [List.cons_append, IsChain, ih, IsRow, rowLength_cons, and_assoc, Nat.add_assoc]

/-- The row depends on its own bytes. -/
theorem IsRow.congr (h : IsRow block offset es)
    (hbytes : ∀ i, offset ≤ i → i < offset + rowLength es → block'.bytes[i]? = block.bytes[i]?) :
    IsRow block' offset es := by
  induction es generalizing offset with
  | nil => trivial
  | cons e es ih =>
    rw [rowLength_cons] at hbytes
    refine ⟨h.1.congr ?_ fun i hi hi' => hbytes i hi (by omega),
      ih h.2 fun i hi hi' => hbytes i (by omega) (by omega)⟩
    rw [block'.length_bytes, ← block.length_bytes]
    exact h.1.end_le

/-- Records in the middle of a chain give way to others of the same length. -/
theorem IsChain.splice (h : IsChain block offset (before ++ (es ++ after)))
    (hrow : IsRow block' (offset + rowLength before) es') (hlen : rowLength es' = rowLength es)
    (hbytes : ∀ i, i < offset + rowLength before ∨ offset + rowLength before + rowLength es ≤ i →
      block'.bytes[i]? = block.bytes[i]?) : IsChain block' offset (before ++ (es' ++ after)) := by
  rw [isChain_append, isChain_append] at h ⊢
  obtain ⟨hbefore, -, hafter⟩ := h
  refine ⟨hbefore.congr fun i _ hi => hbytes i (.inl hi), hrow, ?_⟩
  rw [hlen]
  exact hafter.congr fun i hi => hbytes i (.inr hi)

end Rows

/-! ### Changing a record -/

section Change

variable {payload : Block} {offset : Nat} {e : DirEntry}

/-- A record gets another length. -/
theorem DirEntry.IsRecord.resize (h : IsRecord payload.bytes offset e) {recLen : Nat}
    (hroom : e.recLen.toNat ≤ recLen) (hend : offset + recLen ≤ UB) (hdvd : 4 ∣ recLen) :
    IsRecord (payload.write (offset + 8) (u16LE (UInt16.ofNat recLen))).bytes offset
      { e with recLen := UInt16.ofNat recLen } := by
  have hfit := h.name_fits
  have hge := h.recLen_ge
  have hlen : (UInt16.ofNat recLen).toNat = recLen := toNat_ofNat_recLen (by omega)
  have htwo := length_u16LE (UInt16.ofNat recLen)
  refine ⟨?_, ?_, ?_, ?_, ?_, h.nameLen_le, ?_, ?_, ?_⟩
  · rw [Block.bytes_write, slice_overwrite_of_disjoint (by omega), h.inode_eq]
  · have hin : offset + 8 + (u16LE (UInt16.ofNat recLen)).length ≤ payload.bytes.length := by
      rw [htwo, payload.length_bytes]
      omega
    have hself := slice_overwrite_self hin
    rwa [htwo] at hself
  · rw [Block.bytes_write, getElem?_overwrite_of_ge (by omega), h.nameLen_eq]
  · rw [Block.bytes_write, getElem?_overwrite_of_ge (by omega), h.fileType_eq]
  · rw [Block.bytes_write, slice_overwrite_of_disjoint (by omega), h.name_eq]
  · change 12 + nameLen e.name ≤ (UInt16.ofNat recLen).toNat
    rw [hlen]
    omega
  · rw [hlen]
    exact hdvd
  · rw [hlen, Block.length_bytes]
    exact hend

/-- A record gets another inode number. -/
theorem DirEntry.IsRecord.renumber (h : IsRecord payload.bytes offset e) (ino : UInt64) :
    IsRecord (payload.write offset (u64LE ino)).bytes offset { e with inode := ino } := by
  have hend := h.end_le
  have hge := h.recLen_ge
  have height := length_u64LE ino
  rw [payload.length_bytes] at hend
  refine ⟨?_, ?_, ?_, ?_, ?_, h.nameLen_le, h.name_fits, h.dvd_recLen, ?_⟩
  · have hin : offset + (u64LE ino).length ≤ payload.bytes.length := by
      rw [height, payload.length_bytes]
      omega
    have hself := slice_overwrite_self hin
    rwa [height] at hself
  · rw [Block.bytes_write, slice_overwrite_of_disjoint (by omega), h.recLen_eq]
  · rw [Block.bytes_write, getElem?_overwrite_of_ge (by omega), h.nameLen_eq]
  · rw [Block.bytes_write, getElem?_overwrite_of_ge (by omega), h.fileType_eq]
  · rw [Block.bytes_write, slice_overwrite_of_disjoint (by omega), h.name_eq]
  · rw [Block.length_bytes]
    exact hend

end Change

/-! ### The record loops -/

/-- The position of the live record passed last after the row `es` from `offset` on. -/
def lastLive : Nat → List DirEntry → Option Nat → Option Nat
  | _, [], previous => previous
  | offset, e :: es, previous =>
    lastLive (offset + e.recLen.toNat) es (if e.inode ≠ 0 then some offset else previous)

/-- The block without the record of length `recLen` at `offset`. -/
def takeOut (payload : Block) (offset recLen : Nat) : Option Nat → Block
  | some p => payload.write (p + 8) (u16LE (UInt16.ofNat ((u16At payload.bytes (p + 8)).toNat + recLen)))
  | none => payload.write offset (List.replicate 8 0)

section Loops

variable {payload : Block} {offset : Nat} {e : DirEntry} {es before after : List DirEntry} {name : String}
  {previous : Option Nat}

theorem lastLive_append (es es' : List DirEntry) (offset : Nat) (previous : Option Nat) :
    lastLive offset (es ++ es') previous = lastLive (offset + rowLength es) es' (lastLive offset es previous) := by
  induction es generalizing offset previous with
  | nil => rfl
  | cons e es ih => rw [List.cons_append, lastLive, ih, rowLength_cons, lastLive, Nat.add_assoc]

theorem lastLive_free (h : ∀ r ∈ es, r.inode = 0) (offset : Nat) (previous : Option Nat) :
    lastLive offset es previous = previous := by
  induction es generalizing offset with
  | nil => rfl
  | cons e es ih =>
    rw [lastLive, if_neg (not_not.2 (h e (by simp)))]
    exact ih (fun r hr => h r (by simp [hr])) _

/-- The step of the record loop of `remove_dir_entry`. -/
theorem removeRecord_step (h : DirEntry.IsRecord payload.bytes offset e) :
    AlbumFs.removeRecord name payload offset previous =
      if e.Named name then .ok (some (takeOut payload offset e.recLen.toNat previous))
      else AlbumFs.removeRecord name payload (offset + e.recLen.toNat)
        (if e.inode ≠ 0 then some offset else previous) := by
  have hend := h.end_le
  have hge := h.recLen_ge
  rw [payload.length_bytes] at hend
  rw [AlbumFs.removeRecord, if_pos (show offset < UB by omega)]
  split
  · rename_i error herror
    rw [DirEntry.decode_of_isRecord payload.length_le h] at herror
    cases herror
  · rename_i entry hentry
    rw [DirEntry.decode_of_isRecord payload.length_le h] at hentry
    obtain rfl := Except.ok.inj hentry
    cases previous <;> rfl

/-- The loop of `remove_dir_entry` passes the records that are not called `name`. -/
theorem removeRecord_skip (h : IsRow payload offset before) (hnot : ∀ r ∈ before, ¬r.Named name)
    (previous : Option Nat) :
    AlbumFs.removeRecord name payload offset previous =
      AlbumFs.removeRecord name payload (offset + rowLength before) (lastLive offset before previous) := by
  induction before generalizing offset previous with
  | nil => rfl
  | cons e es ih =>
    rw [removeRecord_step h.1, if_neg (hnot e (by simp)), ih h.2 (fun r hr => hnot r (by simp [hr])), lastLive,
      rowLength_cons, Nat.add_assoc]

/-- A block without a live record called `name` is left alone. -/
theorem removeRecord_eq_none (h : IsChain payload 0 es) (hnot : ∀ r ∈ es, ¬r.Named name) :
    AlbumFs.removeRecord name payload 0 none = .ok none := by
  rw [← List.append_nil es, isChain_append] at h
  rw [removeRecord_skip h.1 hnot, show 0 + rowLength es = UB from h.2, AlbumFs.removeRecord,
    if_neg (Nat.lt_irrefl UB)]

/-- The first live record called `name` is found, and the block changes. -/
theorem exists_removeRecord (h : IsChain payload 0 (before ++ e :: after)) (hnamed : e.Named name)
    (hbefore : ∀ r ∈ before, ¬r.Named name) :
    ∃ payload', AlbumFs.removeRecord name payload 0 none = .ok (some payload') := by
  rw [isChain_append] at h
  rw [removeRecord_skip h.1 hbefore, removeRecord_step h.2.1, if_pos hnamed]
  exact ⟨_, rfl⟩

/-- Taking an entry out of a block without a gap before it. -/
theorem removeRecord_eq_vacate (h : IsChain payload 0 (before ++ e :: after)) (hnamed : e.Named name)
    (hbefore : ∀ r ∈ before, ¬r.Named name) (hgap : Gapless name (before ++ e :: after)) :
    ∃ payload' es', AlbumFs.removeRecord name payload 0 none = .ok (some payload') ∧ IsChain payload' 0 es' ∧
      es'.map DirEntry.chunk =
        vacate (before.map DirEntry.chunk) e.chunk (after.map DirEntry.chunk) := by
  have hchain := h
  rw [isChain_append] at h
  obtain ⟨hrow, hrecord, -⟩ := h
  have hend := hrecord.end_le
  rw [payload.length_bytes, Nat.zero_add] at hend
  rw [removeRecord_skip hrow hbefore, removeRecord_step hrecord, if_pos hnamed]
  rw [Nat.zero_add] at hrecord ⊢
  rcases hgap before e after rfl hnamed with hfree | ⟨r, hr, hlive⟩
  · -- No live record lies before it: the record becomes free.
    rw [lastLive_free hfree, takeOut]
    refine ⟨_, before ++ { e with inode := 0 } :: after, rfl, ?_, ?_⟩
    · have hsplit : IsChain payload 0 (before ++ ([e] ++ after)) := hchain
      refine hsplit.splice (show IsRow _ _ [{ e with inode := 0 }] from ⟨?_, trivial⟩) (by simp) fun i hi => ?_
      · rw [Nat.zero_add, show List.replicate 8 (0 : UInt8) = u64LE 0 by decide]
        exact hrecord.renumber 0
      · simp only [rowLength_cons, rowLength_nil, Nat.zero_add, Nat.add_zero] at hi
        have hge := hrecord.recLen_ge
        rw [Block.bytes_write]
        rcases hi with hi | hi
        · exact getElem?_overwrite_of_lt hi
        · exact getElem?_overwrite_of_ge (by rw [List.length_replicate]; omega)
    · rw [List.map_append, List.map_cons, DirEntry.chunk_of_free (e := { e with inode := 0 }) rfl,
        vacate_of_free]
      · rfl
      · intro c hc
        obtain ⟨r, hr, rfl⟩ := List.mem_map.1 hc
        rw [DirEntry.chunk_of_free (hfree r hr)]
  · -- The record right before it is live and takes over its length.
    obtain ⟨front, rfl⟩ := List.getLast?_eq_some_iff.1 (Option.mem_def.1 hr)
    rw [List.append_assoc, List.singleton_append] at hchain
    have hr := (isChain_append.1 hchain).2.1
    have hlen := hr.recLen_eq
    rw [Nat.zero_add] at hr hlen
    rw [rowLength_append, rowLength_cons, rowLength_nil, Nat.add_zero] at hend
    have hsum : (UInt16.ofNat (r.recLen.toNat + e.recLen.toNat)).toNat = r.recLen.toNat + e.recLen.toNat :=
      toNat_ofNat_recLen (by omega)
    rw [lastLive_append, lastLive, lastLive, if_pos hlive, Nat.zero_add, takeOut, u16At_eq hlen]
    refine ⟨_, front ++ { r with recLen := UInt16.ofNat (r.recLen.toNat + e.recLen.toNat) } :: after, rfl, ?_, ?_⟩
    · have hsplit : IsChain payload 0 (front ++ ([r, e] ++ after)) := hchain
      refine hsplit.splice (show IsRow _ _ [_] from ⟨?_, trivial⟩) ?_ fun i hi => ?_
      · rw [Nat.zero_add]
        exact hr.resize (Nat.le_add_right _ _) (by omega)
          (Nat.dvd_add hr.dvd_recLen hrecord.dvd_recLen)
      · simp only [rowLength_cons, rowLength_nil, hsum]
        omega
      · have hge := hr.recLen_ge
        simp only [rowLength_cons, rowLength_nil, Nat.zero_add, Nat.add_zero] at hi
        rw [Block.bytes_write]
        rcases hi with hi | hi
        · exact getElem?_overwrite_of_lt (by omega)
        · exact getElem?_overwrite_of_ge (by rw [length_u16LE]; omega)
    · have hlong := DirEntry.chunk_of_live
        (e := { r with recLen := UInt16.ofNat (r.recLen.toNat + e.recLen.toNat) }) hlive
      rw [List.map_append, List.map_append, List.map_cons, List.map_singleton, DirEntry.chunk_of_live hlive,
        vacate_concat, hlong, hsum]
      rfl

/-- The step of the record loop of `update_dotdot`. -/
theorem repointDotdot_step {newParent : UInt64} (h : DirEntry.IsRecord payload.bytes offset e) :
    AlbumFs.repointDotdot newParent payload offset =
      if e.Named ".." then .ok (some (payload.write offset (u64LE newParent)))
      else AlbumFs.repointDotdot newParent payload (offset + e.recLen.toNat) := by
  have hend := h.end_le
  have hge := h.recLen_ge
  rw [payload.length_bytes] at hend
  rw [AlbumFs.repointDotdot, if_pos (show offset < UB by omega)]
  split
  · rename_i error herror
    rw [DirEntry.decode_of_isRecord payload.length_le h] at herror
    cases herror
  · rename_i entry hentry
    rw [DirEntry.decode_of_isRecord payload.length_le h] at hentry
    obtain rfl := Except.ok.inj hentry
    rfl

/-- The loop of `update_dotdot` passes the records that are not called `..`. -/
theorem repointDotdot_skip (newParent : UInt64) (h : IsRow payload offset before)
    (hnot : ∀ r ∈ before, ¬r.Named "..") :
    AlbumFs.repointDotdot newParent payload offset =
      AlbumFs.repointDotdot newParent payload (offset + rowLength before) := by
  induction before generalizing offset with
  | nil => rfl
  | cons e es ih =>
    rw [repointDotdot_step h.1, if_neg (hnot e (by simp)), ih h.2 (fun r hr => hnot r (by simp [hr])),
      rowLength_cons, Nat.add_assoc]

/-- The first live record called `..` gets another inode number. -/
theorem repointDotdot_eq (newParent : UInt64) (h : IsChain payload 0 (before ++ e :: after)) (hnamed : e.Named "..")
    (hbefore : ∀ r ∈ before, ¬r.Named "..") :
    ∃ payload', AlbumFs.repointDotdot newParent payload 0 = .ok (some payload') ∧
      IsChain payload' 0 (before ++ { e with inode := newParent } :: after) := by
  have hchain := h
  rw [isChain_append] at h
  obtain ⟨hrow, hrecord, -⟩ := h
  rw [repointDotdot_skip newParent hrow hbefore, repointDotdot_step hrecord, if_pos hnamed]
  rw [Nat.zero_add] at hrecord ⊢
  have hsplit : IsChain payload 0 (before ++ ([e] ++ after)) := hchain
  refine ⟨_, rfl, hsplit.splice (show IsRow _ _ [{ e with inode := newParent }] from ⟨?_, trivial⟩) (by simp)
    fun i hi => ?_⟩
  · rw [Nat.zero_add]
    exact hrecord.renumber newParent
  · have hge := hrecord.recLen_ge
    simp only [rowLength_cons, rowLength_nil, Nat.zero_add, Nat.add_zero] at hi
    rw [Block.bytes_write]
    rcases hi with hi | hi
    · exact getElem?_overwrite_of_lt hi
    · exact getElem?_overwrite_of_ge (by rw [length_u64LE]; omega)

end Loops

/-! ### Directories -/

/-- A block that an inode names is written. -/
theorem edits_setData {v : View} {s : Slot} {b : Nat} (hs : v.Sound) (hown : v.own s = some b) (hleaf : s.IsLeaf)
    (block : Block) : Edits s block v (v.setData b block) := by
  have hpayload : ∀ t, (v.setData b block).payload t = (v.own t).map (v.setData b block).data := fun t => by
    rw [View.payload, View.own_setData hs.exclusive hown hleaf]
  constructor
  · rw [hpayload, hown, Option.map_some, View.data_setData, Function.update_self]
  · intro t _ hts
    rw [hpayload, View.payload]
    cases hc : v.own t with
    | none => rfl
    | some c =>
      rw [Option.map_some, Option.map_some, View.data_setData, Function.update_of_ne]
      rintro rfl
      exact hts (hs.exclusive.inj hc hown)

section Directories

variable {v w : View} {ino : Nat} {inode : Inode} {name : String} {dir : List (List DirEntry)}

/-- A block of a directory. -/
theorem View.Lists.exists_blockAt (h : v.Lists ino dir) (hi : v.inodes ino = some inode) {k : Nat}
    (hk : k < dir.length) : ∃ s b, dataSlot ino k = some s ∧ v.own s = some b ∧
      v.blockAt ino inode k = .ok (some b) ∧ IsChain (v.data b) 0 dir[k] := by
  obtain ⟨s, block, hslot, hpayload, hchain⟩ := h.exists_slot hk
  obtain ⟨b, hown, rfl⟩ := Option.map_eq_some_iff.1 hpayload
  refine ⟨s, b, hslot, hown, ?_, hchain⟩
  rw [blockAt, hslot, ← View.ownWith_self hi] at *
  exact congrArg Except.ok hown

/-- The editors change the first row that the edit has to do with. -/
theorem View.Lists.scan_eq (h : v.Lists ino dir) (hi : v.inodes ino = some inode)
    {edit : Block → Except FsError (Option Block)} {k : Nat} {es : List DirEntry} (hk : dir[k]? = some es)
    (hbefore : ∀ j row block, j < k → dir[j]? = some row → IsChain block 0 row → edit block = .ok none)
    (hfound : ∀ block, IsChain block 0 es → ∃ payload, edit block = .ok (some payload)) :
    ∃ found, v.scan ino inode edit 0 dir.length = .ok (some found) := by
  obtain ⟨hk, rfl⟩ := List.getElem?_eq_some_iff.1 hk
  have hscan : ∀ n logical, logical + n = dir.length → logical ≤ k →
      ∃ found, v.scan ino inode edit logical n = .ok (some found) := by
    intro n
    induction n with
    | zero => intro logical hn hle; omega
    | succ n ih =>
      intro logical hn hle
      obtain ⟨s, b, -, -, hb, hchain⟩ := h.exists_blockAt hi (show logical < dir.length by omega)
      rw [scan]
      simp only [hb, bind, Except.bind]
      rcases Nat.lt_or_eq_of_le hle with hlt | rfl
      · rw [hbefore logical _ _ hlt (List.getElem?_eq_getElem _) hchain]
        exact ih (logical + 1) (by omega) hlt
      · obtain ⟨payload, hpayload⟩ := hfound _ hchain
        rw [hpayload]
        exact ⟨(b, payload), rfl⟩
  exact hscan dir.length 0 (Nat.zero_add _) (Nat.zero_le k)

/-- Looking a name up finds the first entry with this name. -/
theorem View.Lists.lookup_eq (h : v.Lists ino dir) (name : String) :
    v.lookup ino name = .ok (((dirEntries dir).find? fun a => a.2.1 = name).map Prod.fst) := by
  obtain ⟨inode, hi, -⟩ := h.exists_inode
  obtain ⟨hdir, -, hcount⟩ := h.divCeil_eq hi
  obtain ⟨entries, hentries, hmap⟩ := h.entriesFrom_eq hi (Nat.zero_add dir.length)
  have hflat : dirEntries dir = ((entries.map Prod.snd).filter fun e => e.inode ≠ 0).map DirEntry.entry := by
    rw [hmap, List.drop_zero, dirEntries, funext liveEntries_eq, List.flatMap, List.filter_flatten,
      List.map_flatten, List.map_map]
    rfl
  rw [View.lookup, View.getattr, hi]
  simp only [bind, Except.bind, hdir, Bool.not_true, Bool.false_eq_true, if_false]
  rw [View.entries, hcount, hentries, hflat, List.find?_map, List.find?_filter, List.find?_map]
  rw [Option.map_map, Option.map_map]
  refine congrArg Except.ok (congrArg (Option.map _) (congrArg (fun p => List.find? p entries) (funext fun x => ?_)))
  exact decide_eq_decide.2 (and_congr decide_eq_true_iff.symm decide_eq_true_iff.symm)

theorem mem_liveEntries {a : Entry} {es : List DirEntry} :
    a ∈ liveEntries es ↔ ∃ e ∈ es, e.inode ≠ 0 ∧ e.entry = a := by
  rw [liveEntries_eq]
  simp [and_assoc]

theorem liveEntries_split (front back : List DirEntry) {e : DirEntry} (he : e.inode ≠ 0) :
    liveEntries (front ++ e :: back) = liveEntries front ++ e.entry :: liveEntries back := by
  rw [liveEntries, List.map_append, List.map_cons, contents_append, contents_cons, DirEntry.chunk_of_live he]
  rfl

/-- The first element with a property. -/
theorem exists_first {α : Type} {l : List α} (p : α → Prop) (h : ∃ a ∈ l, p a) :
    ∃ before a after, l = before ++ a :: after ∧ p a ∧ ∀ b ∈ before, ¬p b := by
  classical
  obtain ⟨a, ha, hpa⟩ := h
  obtain ⟨b, before, after, hbefore, hb, hl, -⟩ :=
    List.exists_of_eraseP (p := fun a => decide (p a)) ha (decide_eq_true hpa)
  exact ⟨before, b, after, hl, of_decide_eq_true hb, fun c hc hpc => hbefore c hc (decide_eq_true hpc)⟩

/-- The rows around the first live record with a name. -/
theorem exists_named (h : ∃ a ∈ dirEntries dir, a.2.1 = name) :
    ∃ k before e after, dir[k]? = some (before ++ e :: after) ∧ DirEntry.Named name e ∧
      (∀ r ∈ before, ¬DirEntry.Named name r) ∧
      ∀ (j : Nat) row, j < k → dir[j]? = some row → ∀ r ∈ row, ¬DirEntry.Named name r := by
  obtain ⟨a, ha, hname⟩ := h
  obtain ⟨es, hes, ha⟩ := List.mem_flatMap.1 ha
  obtain ⟨e, he, hlive, rfl⟩ := mem_liveEntries.1 ha
  obtain ⟨rows, es, rows', rfl, hes, hrows⟩ :=
    exists_first (fun es => ∃ e ∈ es, DirEntry.Named name e) ⟨es, hes, e, he, hlive, hname⟩
  obtain ⟨before, e, after, rfl, hnamed, hbefore⟩ := exists_first (DirEntry.Named name) hes
  refine ⟨rows.length, before, e, after, by simp, hnamed, hbefore, fun (j : Nat) row hj hrow r hr hr' => ?_⟩
  rw [List.getElem?_append_left hj] at hrow
  exact hrows row (List.mem_of_getElem? hrow) ⟨r, hr, hr'⟩

/-- The rows of a directory with one row replaced by what is left of it when its first entry called `name` goes. -/
theorem dirEntries_set {k : Nat} {es es' : List DirEntry} {before after : List Entry} {a : Entry}
    (hk : dir[k]? = some es) (hes : liveEntries es = before ++ a :: after) (hes' : liveEntries es' = before ++ after)
    (hname : a.2.1 = name) (hbefore : ∀ b ∈ before, b.2.1 ≠ name)
    (hrows : ∀ j row, j < k → dir[j]? = some row → ∀ b ∈ liveEntries row, b.2.1 ≠ name) :
    dirEntries (dir.set k es') = (dirEntries dir).eraseP fun b => b.2.1 = name := by
  induction dir generalizing k with
  | nil => cases hk
  | cons row dir ih =>
    cases k with
    | zero =>
      obtain rfl := Option.some.inj hk
      rw [List.set_cons_zero, dirEntries, dirEntries, List.flatMap_cons, List.flatMap_cons, hes, hes',
        List.append_assoc, List.append_assoc, List.eraseP_append_right _ (by simpa using hbefore),
        List.cons_append, List.eraseP_cons_of_pos (by simpa using hname)]
    | succ k =>
      have hrow := hrows 0 row (Nat.succ_pos k) rfl
      rw [List.set_cons_succ, dirEntries, dirEntries, List.flatMap_cons, List.flatMap_cons,
        List.eraseP_append_right _ (by simpa using hrow)]
      exact congrArg _ (ih hk fun j row' hj => hrows (j + 1) row' (by omega))

/-- Taking an entry out of a directory without a gap before it. -/
theorem AlbumFs.Taken.lists (h : AlbumFs.Taken v ino name w) (hs : v.Sound) (hlists : v.Lists ino dir)
    (hgap : ∀ es ∈ dir, Gapless name es) :
    ∃ k s block es es' before a after, dataSlot ino k = some s ∧ Edits s block v w ∧ dir[k]? = some es ∧
      w.Lists ino (dir.set k es') ∧ liveEntries es = before ++ a :: after ∧ liveEntries es' = before ++ after ∧
      a.2.1 = name ∧ dirEntries (dir.set k es') = (dirEntries dir).eraseP fun b => b.2.1 = name := by
  cases h with
  | remove hparent hdir hscan =>
    rename_i parent b payload time
    obtain ⟨hdir, hsize, hlen⟩ := hlists.divCeil_eq hparent
    obtain ⟨k, s, -, hk, hslot, hown, hedit, hskip⟩ := View.scan_some hscan
    rw [hlen, Nat.zero_add] at hk
    have hleaf := (isLeaf_of_dataSlot hslot).1
    have hmode : (parent.touched time).mode ≠ 0 := Inode.mode_ne_zero parent hdir
    have hget := List.getElem?_eq_getElem hk
    have hchain := hlists.chain_of_blockAt hparent hget (c := b) (by
      rw [View.blockAt, hslot]
      exact congrArg Except.ok hown)
    have hrows : ∀ j row, j < k → dir[j]? = some row → ∀ r ∈ row, ¬DirEntry.Named name r := by
      intro j row hj hrow r hr hnamed
      obtain ⟨c, hc, hnone⟩ := hskip j (Nat.zero_le j) hj
      obtain ⟨front, e, back, rfl, he, hfront⟩ := exists_first (DirEntry.Named name) ⟨r, hr, hnamed⟩
      obtain ⟨payload', hsome⟩ := exists_removeRecord (hlists.chain_of_blockAt hparent hrow hc) he hfront
      rw [hnone] at hsome
      cases hsome
    obtain ⟨front, e, back, hsplit, he, hfront⟩ : ∃ front e back, dir[k] = front ++ e :: back ∧
        DirEntry.Named name e ∧ ∀ r ∈ front, ¬DirEntry.Named name r := by
      refine exists_first (DirEntry.Named name) ?_
      by_contra hnot
      rw [removeRecord_eq_none hchain fun r hr hnamed => hnot ⟨r, hr, hnamed⟩] at hedit
      cases hedit
    rw [hsplit] at hchain hget
    obtain ⟨payload', es', hremove, hchain', hvacate⟩ := removeRecord_eq_vacate hchain he hfront
      (hgap _ (List.mem_of_getElem? hget))
    rw [hremove, Except.ok.injEq, Option.some.injEq] at hedit
    subst hedit
    have hedits := edits_store (v := v) (hs.mapped hparent) hown hleaf (fun t _ _ => ⟨by
      rw [View.ownWith_self hparent], View.content_self hparent t⟩) (Root.pointer_touched parent time) hmode
      payload'
    have hlive := liveEntries_split front back he.1
    have hlive' : liveEntries es' = liveEntries front ++ liveEntries back := by
      rw [liveEntries, hvacate, contents_vacate, liveEntries, liveEntries]
    have hnot : ∀ es : List DirEntry, (∀ r ∈ es, ¬DirEntry.Named name r) → ∀ b ∈ liveEntries es, b.2.1 ≠ name := by
      intro es hes b hb hname
      obtain ⟨r, hr, hlive, rfl⟩ := mem_liveEntries.1 hb
      exact hes r hr ⟨hlive, hname⟩
    refine ⟨k, s, payload', _, es', _, _, _, hslot, hedits, hget, hlists.set ⟨parent.touched time, ?_, hdir, hsize⟩
      hslot hedits hchain', hlive, hlive', he.2, dirEntries_set hget hlive hlive' he.2 (hnot front hfront)
        fun j row hj hrow => hnot row (hrows j row hj hrow)⟩
    rw [View.inodes_setInode, Function.update_self, Inode.live_of_ne hmode]

/-- `remove_dir_entry` finds every name that is there. -/
theorem AlbumFs.endsOn_removeDirEntry_found (hs : v.Sound) (hlists : v.Lists ino dir)
    (hname : ∃ a ∈ dirEntries dir, a.2.1 = name) :
    EndsOn AlbumFs.view (AlbumFs.removeDirEntry ino name) v (fun _ w => AlbumFs.Taken v ino name w)
      fun _ _ => False := by
  obtain ⟨inode, hi, -⟩ := hlists.exists_inode
  obtain ⟨hdir, -, hlen⟩ := hlists.divCeil_eq hi
  obtain ⟨k, front, e, back, hk, he, hfront, hrows⟩ := exists_named hname
  obtain ⟨found, hscan⟩ : ∃ found, v.scan ino inode (fun payload => AlbumFs.removeRecord name payload 0 none) 0
      dir.length = .ok (some found) :=
    hlists.scan_eq hi hk (fun j row block hj hrow hchain => removeRecord_eq_none hchain (hrows j row hj hrow))
      fun block hchain => exists_removeRecord hchain he hfront
  refine (AlbumFs.reads_getattr hs.geometry ino).bind_endsOn_except (fun parent hp => ?_) fun e he => ?_
  · obtain rfl : inode = parent := Option.some.inj (hi.symm.trans (View.inodes_of_getattr hp))
    simp only [hdir, Bool.not_true, Bool.false_eq_true, if_false]
    rw [hlen]
    refine (AlbumFs.endsOn_editDirectory hs hi _ _ _).bind ?_ fun _ _ he => ?_
    · rintro removed w (⟨rfl, hnone, -⟩ | ⟨rfl, b, payload, time, hsome, rfl⟩)
      · rw [hscan] at hnone
        cases hnone
      · exact endsOn_pure (.remove hi hdir (by rwa [hlen]))
    · rw [hscan] at he
      cases he.1
  · rw [View.getattr_of_some hi] at he
    cases he

/-- `update_dotdot` gives the first entry called `..` in the first block another number. -/
theorem AlbumFs.endsOn_updateDotdot_found (hs : v.Sound) (hlists : v.Lists ino dir)
    (hi : v.inodes ino = some inode) {directory : Inode} (hpointer : (Root.direct 0).pointer directory = (Root.direct 0).pointer inode)
    {es : List DirEntry} (hes : dir[0]? = some es) (hdotdot : ∃ a ∈ liveEntries es, a.2.1 = "..") {parent : Nat}
    (hpos : 0 < parent) (hlt : parent < 2 ^ 64) :
    EndsOn AlbumFs.view (AlbumFs.updateDotdot directory parent) v
      (fun _ w => ∃ s b payload es' before a after, dataSlot ino 0 = some s ∧ v.own s = some b ∧
        w = v.setData b payload ∧ Edits s payload v w ∧ w.Lists ino (dir.set 0 es') ∧
        liveEntries es = before ++ a :: after ∧ a.2.1 = ".." ∧
        liveEntries es' = before ++ (parent, a.2) :: after)
      fun _ _ => False := by
  obtain ⟨hpositive, rfl⟩ := List.getElem?_eq_some_iff.1 hes
  obtain ⟨s, b, hslot, hown, hb, hchain⟩ := hlists.exists_blockAt hi hpositive
  obtain rfl : s = Slot.direct ino 0 := by
    rw [dataSlot_direct (show 0 < 12 by omega), Option.some.injEq] at hslot
    exact hslot.symm
  obtain ⟨front, e, back, hsplit, he, hfront⟩ : ∃ front e back, dir[0] = front ++ e :: back ∧
      DirEntry.Named ".." e ∧ ∀ r ∈ front, ¬DirEntry.Named ".." r := by
    obtain ⟨a, ha, hname⟩ := hdotdot
    obtain ⟨e, he, hlive, rfl⟩ := mem_liveEntries.1 ha
    exact exists_first (DirEntry.Named "..") ⟨e, he, hlive, hname⟩
  rw [hsplit] at hchain
  obtain ⟨payload, hrepoint, hchain'⟩ := repointDotdot_eq (UInt64.ofNat parent) hchain he hfront
  have hsame : thenSome ((Root.direct 0).pointer directory) = some b := by
    rw [hpointer, ← View.ownWith_direct 0, View.ownWith_self hi, hown]
  have hin : v.InData b := (hs.exclusive.marked hown).1
  have hedits := edits_setData hs hown rfl payload
  have hbmap : (AlbumFs.bmap directory 0 false : FsM Disk _) = pure (some b, directory) := by
    rw [← hsame]
    simp [AlbumFs.bmap, Root.pointer, Vector.get]
  rw [AlbumFs.updateDotdot, hbmap]
  refine (reads_pure _ _).bind_endsOn ((AlbumFs.reads_readBlock hin).bind_endsOn
    ((reads_ofExcept_ok hrepoint).bind_endsOn (AlbumFs.endsOn_writeBlock_bytes hs.geometry hin ?_)))
  have hlive : UInt64.ofNat parent ≠ 0 := by
    intro hzero
    have hnat := congrArg UInt64.toNat hzero
    rw [UInt64.toNat_ofNat_of_lt' hlt] at hnat
    exact hpos.ne' hnat
  refine ⟨_, b, payload, front ++ { e with inode := UInt64.ofNat parent } :: back, _, e.entry, _, hslot, hown, rfl,
    hedits, hlists.set hlists.exists_inode hslot hedits hchain',
    by rw [hsplit, liveEntries_split front back he.1], he.2, ?_⟩
  rw [liveEntries_split front back (e := { e with inode := UInt64.ofNat parent }) hlive, DirEntry.entry,
    UInt64.toNat_ofNat_of_lt' hlt]
  rfl

end Directories

end AlbumFS
