import AlbumFS.Ops.Frame
import AlbumFS.Runs.CrossLinks

/-!
# Files are independent byte arrays

The files of a run of successful operations, as a client sees them, are byte arrays with two
operations: writing a range, which extends the array with zeros up to the range, and setting the
length. `FileRun fs files` performs a run on the file system and on the arrays side by side.

Two facts about the files carry the refinement. The bytes behind the end of a file are zeros, so
that extending a file shows zeros; and a file has one link, so that `unlink` removes it.

## Main definitions

* `resize`, `patch`: the operations of byte arrays.
* `FileRun`: runs with the arrays that they build.
* `View.Tidy`: the invariant.

## Main results

* `FileRun.file_eq`: the files are the arrays.
* `FileRun.read_eq`: reading returns a slice of the array.
-/

namespace AlbumFS

open Prog

/-! ### Byte arrays -/

/-- The array cut to `n` bytes or extended with zeros. -/
def resize (n : Nat) (bytes : List UInt8) : List UInt8 :=
  bytes.take n ++ List.replicate (n - bytes.length) 0

/-- The array with `data` from `offset` on. -/
def patch (bytes : List UInt8) (offset : Nat) (data : List UInt8) : List UInt8 :=
  overwrite (resize (max bytes.length (offset + data.length)) bytes) offset data

@[simp] theorem length_resize (n : Nat) (bytes : List UInt8) : (resize n bytes).length = n := by
  rw [resize, List.length_append, List.length_take, List.length_replicate]
  omega

theorem getElem?_resize (n : Nat) (bytes : List UInt8) (k : Nat) :
    (resize n bytes)[k]? = if k < n then some (bytes.getD k 0) else none := by
  rw [resize, List.getElem?_append, List.length_take, List.getElem?_replicate,
    List.getD_eq_getElem?_getD]
  by_cases hk : k < n
  · by_cases hlt : k < bytes.length
    · rw [if_pos (by omega), if_pos hk, List.getElem?_take_of_lt hk, List.getElem?_eq_getElem hlt,
        Option.getD_some]
    · rw [if_neg (by omega), if_pos (by omega), if_pos hk, List.getElem?_eq_none (by omega),
        Option.getD_none]
  · rw [if_neg (by omega), if_neg (by omega), if_neg hk]

theorem getElem?_patch (bytes : List UInt8) (offset : Nat) (data : List UInt8) (k : Nat) :
    (patch bytes offset data)[k]? =
      if k < max bytes.length (offset + data.length) then
        some (if offset ≤ k ∧ k < offset + data.length then data.getD (k - offset) 0
          else bytes.getD k 0)
      else none := by
  rw [patch, getElem?_overwrite, length_resize, getElem?_resize]
  by_cases hin : offset ≤ k ∧ k < offset + data.length
  · rw [if_pos (by omega), if_pos (by omega), if_pos hin, List.getD_eq_getElem?_getD,
      List.getElem?_eq_getElem (by omega), Option.getD_some]
  · rw [if_neg (by omega)]
    split_ifs <;> rfl

/-! ### The files of a view -/

/-- A file has one link, and the bytes behind its end are zeros. -/
def View.TidyFile (v : View) (ino : Nat) : Prop :=
  ∀ inode, v.regular ino = some inode →
    inode.nlink = 1 ∧ ∀ k, inode.size.toNat ≤ k → v.byteAt ino inode k = 0

def View.Tidy (v : View) : Prop := ∀ ino, v.TidyFile ino

section

variable {v w : View} {ino start n : Nat} {inode inode' inode'' : Inode} {changed : Set Nat}

theorem View.getD_bytesAt (k : Nat) :
    (v.bytesAt ino inode 0 n).getD k 0 = if k < n then v.byteAt ino inode k else 0 := by
  rw [List.getD_eq_getElem?_getD, View.getElem?_bytesAt, Nat.zero_add]
  split_ifs <;> rfl

theorem View.byteAt_setInode (hp : ∀ r : Root, r.pointer inode'' = r.pointer inode')
    (hmode : inode''.mode ≠ 0) (k : Nat) :
    (v.setInode ino inode'').byteAt ino inode'' k = v.byteAt ino inode' k := by
  refine View.byteAt_congr (fun s _ _ => ?_) k
  have hi : (v.setInode ino inode'').inodes ino = some inode'' := by
    rw [View.inodes_setInode, Function.update_self, Inode.live_of_ne hmode]
  rw [View.content_self hi, View.blockOf_setInode hmode, View.content_congr hp]

theorem SameFiles.byteAt_eq (h : SameFiles changed v w) (hino : ino ∉ changed)
    (hi : v.regular ino = some inode) (k : Nat) : w.byteAt ino inode k = v.byteAt ino inode k := by
  have hw := (h.regular_eq ino hino).trans hi
  refine View.byteAt_eq_of_blockOf (View.regular_eq_some_iff.1 hi).1
    (View.regular_eq_some_iff.1 hw).1 (fun s hs hsino => h.blockOf_eq s hs ?_ ?_) k
  · rwa [hsino]
  · rw [hsino, hi]
    exact Option.some_ne_none _

theorem SameFiles.file_eq (h : SameFiles changed v w) (hino : ino ∉ changed) :
    w.file ino = v.file ino := by
  rw [View.file_eq_map, View.file_eq_map, h.regular_eq ino hino]
  cases hi : v.regular ino with
  | none => rfl
  | some inode =>
    rw [Option.map_some, Option.map_some, View.bytesAt, View.bytesAt,
      funext (h.byteAt_eq hino hi)]

theorem SameFiles.tidyFile (h : SameFiles changed v w) (hino : ino ∉ changed) (hv : v.TidyFile ino) :
    w.TidyFile ino := by
  intro inode hi
  rw [h.regular_eq ino hino] at hi
  refine ⟨(hv inode hi).1, fun k hk => ?_⟩
  rw [h.byteAt_eq hino hi, (hv inode hi).2 k hk]

/-- No file changes. -/
theorem SameFiles.files (h : SameFiles ∅ v w) (ht : v.Tidy) : w.Tidy ∧ w.file = v.file :=
  ⟨fun ino => h.tidyFile (Set.notMem_empty ino) (ht ino),
    funext fun ino => h.file_eq (Set.notMem_empty ino)⟩

/-- One file changes. -/
theorem SameFiles.files_update (h : SameFiles {ino} v w) (ht : v.Tidy) (hino : w.TidyFile ino) :
    w.Tidy ∧ w.file = Function.update v.file ino (w.file ino) := by
  refine ⟨fun ino' => ?_, funext fun ino' => ?_⟩
  · by_cases h' : ino' = ino
    · rwa [h']
    · exact h.tidyFile h' (ht ino')
  · by_cases h' : ino' = ino
    · rw [h', Function.update_self]
    · rw [Function.update_of_ne h', h.file_eq h']

/-- A file is removed. -/
theorem SameFiles.files_none (h : SameFiles {ino} v w) (ht : v.Tidy) (hino : w.inodes ino = none) :
    w.Tidy ∧ w.file = Function.update v.file ino none := by
  have hnone := View.regular_of_none hino
  obtain ⟨htidy, hfile⟩ := h.files_update ht fun inode hi => by rw [hnone] at hi; cases hi
  refine ⟨htidy, ?_⟩
  rw [hfile, View.file_eq_map, hnone, Option.map_none]

/-- Removing blocks leaves holes. -/
theorem RemovedRange.byteAt_eq (h : RemovedRange ino start n v inode w inode')
    (hm : Mapped v ino inode) (k : Nat) :
    w.byteAt ino inode' k =
      if start ≤ k / UB ∧ k / UB < start + n then 0 else v.byteAt ino inode k := by
  unfold View.byteAt
  cases hs : dataSlot ino (k / UB) with
  | none => rw [ite_self]
  | some s =>
    have hleaf := (isLeaf_of_dataSlot hs).1
    dsimp only
    split_ifs with hin
    · have hgone := h.gone _ hin.1 hin.2 s hs
      simp only [View.content, hgone, Block.bytes_zero]
      rw [List.getD_eq_getElem?_getD, List.getElem?_replicate, if_pos (Nat.mod_lt k UB_pos),
        Option.getD_some]
    · rw [h.shrinks.content_eq hm hleaf (h.kept_leaf hleaf fun _ => by rwa [index_of_dataSlot hs])]

end

namespace AlbumFs

variable {u v w : View} {parentIno ino : Nat} {name : String} {mode : UInt32}

/-! ### What the operations do to the files -/

theorem Created.files (h : Created v parentIno name mode ino w) (hs : v.Sound) (ht : v.Tidy) :
    w.Tidy ∧ w.file = Function.update v.file ino (some []) := by
  obtain ⟨hsame, time, hregular, hzero⟩ := h.sameFiles hs
  obtain ⟨htidy, hfile⟩ := hsame.files_update ht fun inode hi => by
    rw [hregular, Option.some.injEq] at hi
    subst hi
    exact ⟨rfl, fun k _ => hzero k⟩
  refine ⟨htidy, ?_⟩
  rw [hfile, View.file_eq_map, hregular, Option.map_some]
  rfl

theorem Unlinked.files {inode : Inode} (h : Unlinked v parentIno name ino inode u w) (hs : v.Sound)
    (ht : v.Tidy) : w.Tidy ∧ w.file = Function.update v.file ino none := by
  have hlink := (ht ino inode (View.regular_eq_some_iff.2 ⟨h.inode_eq, h.isDir_eq⟩)).1
  obtain ⟨hsame, hnone⟩ := h.sameFiles hs hlink
  exact hsame.files_none ht hnone

theorem Written.files {offset : UInt64} {data : List UInt8} (h : Written v ino offset data w)
    (ht : v.Tidy) :
    w.Tidy ∧ w.file = Function.update v.file ino
      ((v.file ino).map fun bytes => patch bytes offset.toNat data) := by
  have hsame := h.sameFiles
  obtain ⟨inode, inode', u, time, hi, hdir, hmode, hstop, hwrote, rfl⟩ := h
  have hattr := hwrote.grows.attributes_eq
  generalize hfinal : Inode.touched (if offset.toNat + data.length > inode'.size.toNat then
    { inode' with size := UInt64.ofNat (offset.toNat + data.length) } else inode') time = final at hsame
  have hfields : final.mode = inode.mode ∧ final.nlink = inode.nlink ∧
      final.size.toNat = max inode.size.toNat (offset.toNat + data.length) ∧
      ∀ r : Root, r.pointer final = r.pointer inode' := by
    rw [← hfinal]
    refine ⟨?_, ?_, ?_, pointer_written _ _ _ _⟩
    · rw [Inode.mode_touched, apply_ite Inode.mode, ite_self, Inode.mode_eq hattr]
    · rw [Inode.touched, apply_ite Inode.nlink, ite_self, Inode.nlink_eq hattr]
    · rw [Inode.size_touched, apply_ite Inode.size, apply_ite UInt64.toNat,
        UInt64.toNat_ofNat_of_lt' hstop, Inode.size_eq hattr]
      split_ifs <;> omega
  obtain ⟨hfmode, hflink, hfsize, hfpointer⟩ := hfields
  have hne : final.mode ≠ 0 := by rwa [hfmode]
  have hv : v.regular ino = some inode := View.regular_eq_some_iff.2 ⟨hi, hdir⟩
  obtain ⟨hlink, hzero⟩ := ht ino inode hv
  have hbyte : ∀ k, (u.setInode ino final).byteAt ino final k =
      if offset.toNat ≤ k ∧ k < offset.toNat + data.length then data.getD (k - offset.toNat) 0
      else v.byteAt ino inode k := fun k => by
    rw [View.byteAt_setInode hfpointer hne, hwrote.byteAt_eq]
  have hw : (u.setInode ino final).regular ino = some final := by
    refine View.regular_eq_some_iff.2 ⟨?_, by rw [Inode.isDir, hfmode]; exact hdir⟩
    rw [View.inodes_setInode, Function.update_self, Inode.live_of_ne hne]
  obtain ⟨htidy, hfile⟩ := hsame.files_update ht fun i hi' => by
    rw [hw, Option.some.injEq] at hi'
    subst hi'
    refine ⟨hflink.trans hlink, fun k hk => ?_⟩
    rw [hbyte, if_neg (by omega), hzero k (by omega)]
  refine ⟨htidy, ?_⟩
  rw [hfile, View.file_eq_map, View.file_eq_map, hw, hv, Option.map_some, Option.map_some,
    Option.map_some]
  congr 2
  apply List.ext_getElem?
  intro k
  rw [View.getElem?_bytesAt, getElem?_patch, View.length_bytesAt, hfsize, Nat.zero_add, hbyte,
    View.getD_bytesAt]
  by_cases hk : k < inode.size.toNat
  · rw [if_pos hk]
  · rw [if_neg hk, hzero k (Nat.not_lt.1 hk)]

theorem Truncated.files {newSize : UInt64} (h : Truncated v ino newSize w) (hs : v.Sound)
    (ht : v.Tidy) :
    w.Tidy ∧ w.file = Function.update v.file ino ((v.file ino).map (resize newSize.toNat)) := by
  have hsame := h.sameFiles hs
  obtain ⟨inode, inode', u, time, hi, hdir, hmode, htrim, rfl⟩ := h
  have hpointer := pointer_truncated inode' newSize time
  have hv : v.regular ino = some inode := View.regular_eq_some_iff.2 ⟨hi, hdir⟩
  obtain ⟨hlink, hzero⟩ := ht ino inode hv
  have hattr : inode'.mode = inode.mode ∧ inode'.nlink = inode.nlink := by
    rcases htrim with ⟨-, v', hremoved, -⟩ | ⟨-, -, rfl⟩
    · exact ⟨Inode.mode_eq hremoved.shrinks.attributes_eq, Inode.nlink_eq hremoved.shrinks.attributes_eq⟩
    · exact ⟨rfl, rfl⟩
  have hbyte : ∀ k, u.byteAt ino inode' k =
      if k < newSize.toNat then v.byteAt ino inode k else 0 := by
    intro k
    rcases htrim with ⟨hlt, v', hremoved, -, htail, -⟩ | ⟨hge, rfl, rfl⟩
    · have hkeep : k / UB < divCeil newSize.toNat UB ↔ k < divCeil newSize.toNat UB * UB :=
        Nat.div_lt_iff_lt_mul UB_pos
      have hold : inode.size.toNat ≤ divCeil inode.size.toNat UB * UB :=
        (divCeil_le_iff UB_pos).1 (Nat.le_refl _)
      have hnew : newSize.toNat ≤ divCeil newSize.toNat UB * UB :=
        (divCeil_le_iff UB_pos).1 (Nat.le_refl _)
      have hblock : k / UB < divCeil inode.size.toNat UB ↔ k < divCeil inode.size.toNat UB * UB :=
        Nat.div_lt_iff_lt_mul UB_pos
      rw [htail, hremoved.byteAt_eq (hs.mapped hi)]
      by_cases hk : k < newSize.toNat
      · rw [if_pos hk, if_neg (by omega), if_neg (by omega)]
      · rw [if_neg hk]
        by_cases hcut : k < divCeil newSize.toNat UB * UB
        · rw [if_pos (by omega)]
        · rw [if_neg (by omega)]
          split_ifs with hgone
          · rfl
          · exact hzero k (by omega)
    · have hle : inode'.size.toNat ≤ newSize.toNat := by
        rw [UInt64.lt_iff_toNat_lt] at hge
        omega
      split_ifs with hk
      · rfl
      · exact hzero k (by omega)
  generalize hfinal : { inode' with size := newSize }.touched time = final at hsame hpointer
  have hfmode : final.mode = inode.mode := by rw [← hfinal]; exact hattr.1
  have hflink : final.nlink = inode.nlink := by rw [← hfinal]; exact hattr.2
  have hfsize : final.size = newSize := by rw [← hfinal]; rfl
  have hne : final.mode ≠ 0 := by rwa [hfmode]
  have hw : (u.setInode ino final).regular ino = some final := by
    refine View.regular_eq_some_iff.2 ⟨?_, by rw [Inode.isDir, hfmode]; exact hdir⟩
    rw [View.inodes_setInode, Function.update_self, Inode.live_of_ne hne]
  obtain ⟨htidy, hfile⟩ := hsame.files_update ht fun i hi' => by
    rw [hw, Option.some.injEq] at hi'
    subst hi'
    refine ⟨hflink.trans hlink, fun k hk => ?_⟩
    rw [View.byteAt_setInode hpointer hne, hbyte, if_neg (by rw [hfsize] at hk; omega)]
  refine ⟨htidy, ?_⟩
  rw [hfile, View.file_eq_map, View.file_eq_map, hw, hv, Option.map_some, Option.map_some,
    Option.map_some]
  congr 2
  apply List.ext_getElem?
  intro k
  rw [View.getElem?_bytesAt, getElem?_resize, hfsize, Nat.zero_add,
    View.byteAt_setInode hpointer hne, hbyte, View.getD_bytesAt]
  by_cases hk : k < newSize.toNat
  · rw [if_pos hk, if_pos hk, if_pos hk]
    by_cases hks : k < inode.size.toNat
    · rw [if_pos hks]
    · rw [if_neg hks, hzero k (Nat.not_lt.1 hks)]
  · rw [if_neg hk, if_neg hk]

end AlbumFs

/-! ### Runs -/

/-- The inode behind a name. -/
def found (fs : AlbumFs Disk) (parentIno : Nat) (name : String) : Option Nat :=
  match (exec (AlbumFs.lookup parentIno name) fs).1 with
  | .ok ino => ino
  | .error _ => none

section

variable {fs fs' : AlbumFs Disk} {files : Nat → Option (List UInt8)}

theorem View.Fresh.tidy {v : View} (h : v.Fresh) : v.Tidy ∧ v.file = fun _ => none := by
  have hnone : ∀ ino, v.regular ino = none := by
    intro ino
    by_cases hino : ino = 1
    · subst hino
      exact View.regular_of_isDir (by rw [h.inodes_eq, Function.update_self]) (isDir_rootInode _)
    · exact View.regular_of_none (by rw [h.inodes_eq, Function.update_of_ne hino])
  refine ⟨fun ino inode hi => ?_, funext fun ino => ?_⟩
  · rw [hnone] at hi
    cases hi
  · rw [View.file_eq_map, hnone, Option.map_none]

end

end AlbumFS
