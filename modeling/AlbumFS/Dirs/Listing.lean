import AlbumFS.Dirs.Records
import AlbumFS.Ops.Halted

/-!
# Directories as rows of records

The contents of a directory are one row of records for each of its blocks. Adding an entry puts it into the
first row with room for it, or appends a block with this entry alone.

## Main definitions

* `View.payload`: the contents behind a slot.
* `View.Lists`: the rows of records of a directory.
* `Edits`: one block of contents is new and the others are as they were.

## Main results

* `AlbumFs.Added.edits`: what adding an entry does to the blocks.
* `AlbumFs.Added.lists`: what it does to the rows of records.
-/

namespace AlbumFS

open BlockTree FirstFit

/-- The contents behind a slot of the stored inodes. -/
def View.payload (v : View) (s : Slot) : Option Block := (v.own s).map v.data

/-- The directory `ino` has the blocks with the records `dir`. -/
structure View.Lists (v : View) (ino : Nat) (dir : List (List DirEntry)) : Prop where
  exists_inode : ∃ inode, v.inodes ino = some inode ∧ inode.isDir = true ∧ inode.size.toNat = dir.length * UB
  exists_chain : ∀ k es, dir[k]? = some es → ∃ s block, dataSlot ino k = some s ∧
    v.payload s = some block ∧ IsChain block 0 es

/-- The live entries of a directory. -/
def dirEntries (dir : List (List DirEntry)) : List Entry := dir.flatMap liveEntries

/-- The block behind the slot `s` is new, the others hold what they held. -/
structure Edits (s : Slot) (block : Block) (v w : View) : Prop where
  payload_self : w.payload s = some block
  payload_eq : ∀ t : Slot, t.IsLeaf → t ≠ s → w.payload t = v.payload t

section Listing

variable {v w : View} {ino b : Nat} {inode inode' : Inode} {s : Slot} {dir : List (List DirEntry)}

theorem View.payload_eq_map (v : View) (s : Slot) : v.payload s = (v.own s).map fun _ => v.blockOf s := by
  rw [payload, blockOf]
  cases v.own s <;> rfl

/-- The contents behind a slot, by the copy of an inode that is about to be stored. -/
theorem View.payload_setInode (hmode : inode.mode ≠ 0) (s : Slot) :
    (v.setInode ino inode).payload s = (v.ownWith ino inode s).map fun _ => v.content ino inode s := by
  rw [payload_eq_map, own_setInode hmode, blockOf_setInode hmode]

/-- The copy of an inode is stored after one of its blocks was written. -/
theorem edits_store {u : View} (hm : Mapped u ino inode) (hown : u.ownWith ino inode s = some b) (hleaf : s.IsLeaf)
    (hsame : ∀ t : Slot, t.IsLeaf → t ≠ s →
      u.ownWith ino inode t = v.own t ∧ u.content ino inode t = v.blockOf t)
    (hp : ∀ r : Root, r.pointer inode' = r.pointer inode) (hmode : inode'.mode ≠ 0) (block : Block) :
    Edits s block v ((u.setData b block).setInode ino inode') := by
  have hpayload : ∀ t, ((u.setData b block).setInode ino inode').payload t =
      (u.ownWith ino inode t).map fun _ => if t = s then block else u.content ino inode t := fun t => by
    rw [View.payload_setInode hmode, View.ownWith_congr hp, View.content_congr hp,
      (hm.grows_setData hown hleaf block).own_of_not_mem t (by simp), hm.content_setData hown hleaf]
  constructor
  · rw [hpayload, hown, Option.map_some, if_pos rfl]
  · intro t ht hts
    obtain ⟨hown', hcontent⟩ := hsame t ht hts
    rw [hpayload, hown', hcontent, if_neg hts, View.payload_eq_map]

/-- The slot of a block of a directory. -/
theorem View.Lists.exists_slot (h : v.Lists ino dir) {k : Nat} (hk : k < dir.length) :
    ∃ s block, dataSlot ino k = some s ∧ v.payload s = some block ∧ IsChain block 0 dir[k] :=
  h.exists_chain k dir[k] (List.getElem?_eq_getElem hk)

theorem View.Lists.divCeil_eq (h : v.Lists ino dir) (hi : v.inodes ino = some inode) :
    inode.isDir = true ∧ inode.size.toNat = dir.length * UB ∧ divCeil inode.size.toNat UB = dir.length := by
  obtain ⟨stored, hi', hdir, hsize⟩ := h.exists_inode
  rw [hi, Option.some.injEq] at hi'
  subst hi'
  refine ⟨hdir, hsize, Nat.le_antisymm ((divCeil_le_iff UB_pos).2 hsize.le) (Nat.not_lt.1 fun hlt => ?_)⟩
  have hmul := (divCeil_le_iff UB_pos).1 (Nat.le_refl (divCeil inode.size.toNat UB))
  have hmono := Nat.mul_lt_mul_of_pos_right hlt UB_pos
  omega

/-- The records of the `n` blocks of a directory from `logical` on. -/
theorem View.Lists.entriesFrom_eq (h : v.Lists ino dir) (hi : v.inodes ino = some inode) {logical n : Nat}
    (hn : logical + n = dir.length) : ∃ entries, v.entriesFrom ino inode logical n = .ok entries ∧
      entries.map Prod.snd = (dir.drop logical).flatten := by
  induction n generalizing logical with
  | zero =>
    refine ⟨[], rfl, ?_⟩
    rw [List.drop_of_length_le (by omega)]
    rfl
  | succ n ih =>
    obtain ⟨s, block, hslot, hpayload, hchain⟩ := h.exists_slot (show logical < dir.length by omega)
    obtain ⟨rest, hrest, hmap⟩ := ih (show logical + 1 + n = dir.length by omega)
    obtain ⟨b, hown, hdata⟩ := Option.map_eq_some_iff.1 hpayload
    obtain ⟨rs, hrs, hes⟩ := (blockRecords_eq_ok_iff (Nat.zero_le _)).2 hchain
    have hblock : v.blockAt ino inode logical = .ok (some b) := by
      rw [View.blockAt, hslot]
      dsimp only
      rw [View.ownWith_self hi, hown]
    refine ⟨_, by
      simp only [View.entriesFrom, hblock, hdata, hrs, hrest, bind, Except.bind]
      rfl, ?_⟩
    rw [List.map_append, List.map_map, hmap, List.drop_eq_getElem_cons (show logical < dir.length by omega),
      List.flatten_cons, ← hes]
    rfl

/-- Reading a directory lists its live entries. -/
theorem View.Lists.readdir_eq (h : v.Lists ino dir) : v.readdir ino = .ok (dirEntries dir) := by
  obtain ⟨inode, hi, -⟩ := h.exists_inode
  obtain ⟨hdir, -, hcount⟩ := h.divCeil_eq hi
  obtain ⟨entries, hentries, hmap⟩ := h.entriesFrom_eq hi (Nat.zero_add dir.length)
  have hlive : (entries.filter fun entry => entry.2.inode ≠ 0).map
      (fun entry => (entry.2.inode.toNat, entry.2.name, entry.2.fileType)) = dirEntries dir := by
    have hflat : dirEntries dir = (dir.flatten.filter fun e => e.inode ≠ 0).map DirEntry.entry := by
      rw [dirEntries, funext liveEntries_eq, List.flatMap, List.filter_flatten, List.map_flatten, List.map_map]
      rfl
    rw [hflat, ← List.drop_zero (l := dir), ← hmap, List.filter_map, List.map_map]
    rfl
  rw [View.readdir, View.getattr, hi]
  simp only [bind, Except.bind, hdir, Bool.not_true, Bool.false_eq_true, if_false]
  rw [View.entries, hcount, hentries]
  exact congrArg Except.ok hlive
/-- One row of a directory is replaced. -/
theorem View.Lists.set {k : Nat} {es : List DirEntry} {block : Block} (h : v.Lists ino dir)
    (hinode : ∃ inode, w.inodes ino = some inode ∧ inode.isDir = true ∧ inode.size.toNat = dir.length * UB)
    (hslot : dataSlot ino k = some s) (hedits : Edits s block v w) (hchain : IsChain block 0 es) :
    w.Lists ino (dir.set k es) := by
  refine ⟨by rwa [List.length_set], fun j es' hj => ?_⟩
  rw [List.getElem?_set] at hj
  split_ifs at hj with hkj hlt
  · cases hj
    subst hkj
    exact ⟨s, block, hslot, hedits.payload_self, hchain⟩
  · obtain ⟨t, block', ht, hpayload, hchain'⟩ := h.exists_chain j es' hj
    refine ⟨t, block', ht, ?_, hchain'⟩
    rw [hedits.payload_eq t (isLeaf_of_dataSlot ht).1 fun hts => hkj (dataSlot_injective hslot (hts ▸ ht)), hpayload]

/-- A row is appended to a directory. -/
theorem View.Lists.append {es : List DirEntry} {block : Block} (h : v.Lists ino dir)
    (hinode : ∃ inode, w.inodes ino = some inode ∧ inode.isDir = true ∧
      inode.size.toNat = (dir.length + 1) * UB)
    (hslot : dataSlot ino dir.length = some s) (hedits : Edits s block v w) (hchain : IsChain block 0 es) :
    w.Lists ino (dir ++ [es]) := by
  refine ⟨by rwa [List.length_append, List.length_singleton], fun j es' hj => ?_⟩
  rcases Nat.lt_trichotomy j dir.length with hlt | rfl | hgt
  · rw [List.getElem?_append_left hlt] at hj
    obtain ⟨t, block', ht, hpayload, hchain'⟩ := h.exists_chain j es' hj
    refine ⟨t, block', ht, ?_, hchain'⟩
    rw [hedits.payload_eq t (isLeaf_of_dataSlot ht).1 fun hts => hlt.ne (dataSlot_injective (hts ▸ ht) hslot),
      hpayload]
  · rw [List.getElem?_concat_length] at hj
    cases hj
    exact ⟨s, block, hslot, hedits.payload_self, hchain⟩
  · rw [List.getElem?_eq_none (by rw [List.length_append, List.length_singleton]; omega)] at hj
    cases hj

/-- A directory whose inode and blocks are as they were. -/
theorem View.Lists.frame (h : v.Lists ino dir)
    (hinode : ∃ inode, w.inodes ino = some inode ∧ inode.isDir = true ∧ inode.size.toNat = dir.length * UB)
    (hpayload : ∀ t : Slot, t.IsLeaf → t.ino = ino → w.payload t = v.payload t) : w.Lists ino dir := by
  refine ⟨hinode, fun k es hk => ?_⟩
  obtain ⟨t, block, ht, hblock, hchain⟩ := h.exists_chain k es hk
  obtain ⟨hleaf, hino⟩ := isLeaf_of_dataSlot ht
  exact ⟨t, block, ht, by rw [hpayload t hleaf hino, hblock], hchain⟩

/-- A block of a directory that was read. -/
theorem View.Lists.chain_of_blockAt (h : v.Lists ino dir) (hi : v.inodes ino = some inode) {k c : Nat}
    {es : List DirEntry} (hk : dir[k]? = some es) (hc : v.blockAt ino inode k = .ok (some c)) :
    IsChain (v.data c) 0 es := by
  obtain ⟨t, block, ht, hpayload, hchain⟩ := h.exists_chain k es hk
  rw [blockAt, ht] at hc
  rw [payload, ← ownWith_self hi, Except.ok.inj hc, Option.map_some, Option.some.injEq] at hpayload
  rwa [hpayload]

/-- The edit changes no block when `scan` finds none. -/
theorem View.scan_none {edit : Block → Except FsError (Option Block)} {logical n : Nat}
    (h : v.scan ino inode edit logical n = .ok none) :
    ∀ j, logical ≤ j → j < logical + n → ∃ c, v.blockAt ino inode j = .ok (some c) ∧
      edit (v.data c) = .ok none := by
  induction n generalizing logical with
  | zero => exact fun j hge hlt => absurd hge (by omega)
  | succ n ih =>
    rw [scan] at h
    cases hb : v.blockAt ino inode logical with
    | error e => simp [hb, bind, Except.bind] at h
    | ok block =>
      cases block with
      | none => simp [hb, bind, Except.bind] at h
      | some c =>
        cases hedit : edit (v.data c) with
        | error e => simp [hb, hedit, bind, Except.bind] at h
        | ok edited =>
          cases edited with
          | some p => simp [hb, hedit, bind, Except.bind] at h
          | none =>
            simp only [hb, hedit, bind, Except.bind] at h
            intro j hge hlt
            by_cases hj : j = logical
            · exact ⟨c, hj ▸ hb, hedit⟩
            · exact ih h j (by omega) (by omega)

end Listing

namespace AlbumFs

section Added

variable {v w : View} {parentIno ino : Nat} {name : String} {fileType : UInt8} {dir : List (List DirEntry)}

/-- A row without room for an entry is one that `insertRecord` leaves alone. -/
theorem place_eq_none_of_insertRecord {block : Block} {es : List DirEntry} (hchain : IsChain block 0 es)
    (hino : UInt64.ofNat ino ≠ 0) (hname : nameLen name ≤ 255) (hlt : ino < 2 ^ 64)
    (h : insertRecord (UInt64.ofNat ino) name fileType block 0 = .ok none) :
    place Entry.need (ino, name, fileType) (es.map DirEntry.chunk) = none := by
  obtain ⟨-, hsome⟩ := insertRecord_eq_place fileType hchain hino hname
  rw [UInt64.toNat_ofNat_of_lt' hlt] at hsome
  cases hplace : place Entry.need (ino, name, fileType) (es.map DirEntry.chunk) with
  | none => rfl
  | some cs =>
    obtain ⟨payload', es', hinsert, -⟩ := hsome cs hplace
    rw [h] at hinsert
    cases hinsert

/-- Adding an entry puts it into the first row with room for it, or appends a block for it. -/
theorem Added.lists (h : Added v parentIno ino name fileType w) (hs : v.Sound) (hlists : v.Lists parentIno dir)
    (hpos : 0 < ino) (hlt : ino < 2 ^ 64) (hname : nameLen name ≤ 255) :
    ∃ k s block, dataSlot parentIno k = some s ∧ Edits s block v w ∧
      ((∃ es es', dir[k]? = some es ∧
          place Entry.need (ino, name, fileType) (es.map DirEntry.chunk) = some (es'.map DirEntry.chunk) ∧
          w.Lists parentIno (dir.set k es')) ∨
        k = dir.length ∧
          (∀ es ∈ dir, place Entry.need (ino, name, fileType) (es.map DirEntry.chunk) = none) ∧
          w.Lists parentIno (dir ++ [[⟨UInt64.ofNat ino, UInt16.ofNat UB, name, fileType⟩]])) := by
  have hino : UInt64.ofNat ino ≠ 0 := by
    intro hzero
    have hnat := congrArg UInt64.toNat hzero
    rw [UInt64.toNat_ofNat_of_lt' hlt] at hnat
    exact hpos.ne' hnat
  cases h with
  | insert hparent hdir hscan =>
    rename_i parent b payload time
    obtain ⟨hdir, hsize, hlen⟩ := hlists.divCeil_eq hparent
    obtain ⟨k, s, -, hk, hslot, hown, hedit, -⟩ := View.scan_some hscan
    rw [hlen, Nat.zero_add] at hk
    obtain ⟨hleaf, hsino⟩ := isLeaf_of_dataSlot hslot
    have hmode : (parent.touched time).mode ≠ 0 := Inode.mode_ne_zero parent hdir
    have hget := List.getElem?_eq_getElem hk
    have hchain := hlists.chain_of_blockAt hparent hget (c := b) (by
      rw [View.blockAt, hslot]
      exact congrArg Except.ok hown)
    have hedits := edits_store (v := v) (hs.mapped hparent) hown hleaf (fun t _ _ => ⟨by
      rw [View.ownWith_self hparent], View.content_self hparent t⟩) (Root.pointer_touched parent time) hmode
      payload
    obtain ⟨hnone, hsome⟩ := insertRecord_eq_place fileType hchain hino hname
    rw [UInt64.toNat_ofNat_of_lt' hlt] at hnone hsome
    cases hplace : place Entry.need (ino, name, fileType) (dir[k].map DirEntry.chunk) with
    | none =>
      rw [hnone hplace] at hedit
      cases hedit
    | some cs =>
      obtain ⟨payload', es', hinsert, hchain', hmap, -⟩ := hsome cs hplace
      rw [hinsert, Except.ok.injEq, Option.some.injEq] at hedit
      subst hedit
      refine ⟨k, s, payload', hslot, hedits, .inl ⟨dir[k], es', hget, by rw [hplace, hmap],
        hlists.set ⟨parent.touched time, ?_, hdir, hsize⟩ hslot hedits hchain'⟩⟩
      rw [View.inodes_setInode, Function.update_self, Inode.live_of_ne hmode]
  | grow hparent hdir hscan hslot hown hgrows hcontent hput =>
    rename_i parent parent' s b v₁ payload time
    obtain ⟨hdir, hsize, hlen⟩ := hlists.divCeil_eq hparent
    rw [hlen] at hscan hslot hgrows
    obtain ⟨hleaf, hsino⟩ := isLeaf_of_dataSlot hslot
    have hmode : (parent'.grown time).mode ≠ 0 :=
      Inode.mode_ne_zero parent' ((Inode.isDir_eq hgrows.attributes_eq).trans hdir)
    have hedits := edits_store (v := v) hgrows.mapped hown hleaf (fun t ht hts => ⟨by
        rw [hgrows.own_of_not_mem t fun hmem => hts (eq_of_mem_slotsTo hslot hmem ht), View.ownWith_self hparent],
      by rw [hcontent t ht, View.content_self hparent t]⟩) (Root.pointer_grown parent' time) hmode payload
    have hchain : IsChain payload 0 [⟨UInt64.ofNat ino, UInt16.ofNat UB, name, fileType⟩] := by
      have hroom := DirEntry.requiredLen_lt (nameLen name)
      obtain ⟨block, hblock, hrecord, -⟩ := putRecord_spec Block.zero 0 UB (UInt64.ofNat ino)
        fileType hname (by rw [UB_eq]; omega) (by omega) ⟨1008, rfl⟩
      rw [hput] at hblock
      obtain rfl := Except.ok.inj hblock
      exact ⟨hrecord, by rw [IsChain, toNat_ofNat_recLen (Nat.le_refl _), Nat.zero_add]⟩
    refine ⟨dir.length, s, payload, hslot, hedits, .inr ⟨rfl, fun es hes => ?_,
      hlists.append ⟨parent'.grown time, ?_, (Inode.isDir_eq hgrows.attributes_eq).trans hdir, ?_⟩ hslot hedits
        hchain⟩⟩
    · obtain ⟨k, hk, rfl⟩ := List.getElem_of_mem hes
      obtain ⟨c, hc, hedit⟩ := View.scan_none hscan k (Nat.zero_le _) (by rwa [Nat.zero_add])
      exact place_eq_none_of_insertRecord
        (hlists.chain_of_blockAt hparent (List.getElem?_eq_getElem hk) hc) hino hname hlt hedit
    · rw [View.inodes_setInode, Function.update_self, Inode.live_of_ne hmode]
    · have hreach : dir.length < MAX_FILE_BLOCKS :=
        dataSlot_ne_none_iff.1 (by rw [hslot]; exact Option.some_ne_none s)
      rw [MAX_FILE_BLOCKS, POINTERS_PER_BLOCK_eq] at hreach
      rw [UB_eq] at hsize
      rw [Inode.size_grown, Inode.size_eq hgrows.attributes_eq, UInt64.toNat_add, UB64_toNat, hsize, UB_eq,
        Nat.mod_eq_of_lt (by omega)]
      omega

end Added

end AlbumFs

end AlbumFS
