import AlbumFS.Fs.Linked
import AlbumFS.Fs.Operations

/-!
# The operations on linked devices

On devices whose operations are linked, the operations of the file system are linked. As a special case they
keep every property of the device that its operations keep, whatever they return.

## Main definitions

* `LinkedBlocks`: devices that are linked until they are flushed.
* `AlbumFs.Alike`: file systems on linked devices.

## Main results

* `LinkedBlocks.bmap`, `LinkedBlocks.writeRange`: the programs that do not flush.
* `LinkedBlocks.create` and so on: the operations.
-/

namespace AlbumFS

open Prog

variable {σ τ : Type} [BlockDevice σ] [BlockDevice τ] {R : σ → τ → Prop}

/-- Devices whose reads and writes of blocks and readings of the clock are linked. -/
structure LinkedBlocks (R : σ → τ → Prop) : Prop extends LinkedReads R where
  writeBlock : ∀ lba payload, Linked R (fun _ => True)
    (BlockDevice.writeBlock lba payload : Prog FsError σ Unit) (BlockDevice.writeBlock lba payload)
  now : Linked R (fun _ => True) (BlockDevice.now : Prog FsError σ UInt64) BlockDevice.now

/-- Two file systems on related devices. -/
structure AlbumFs.Alike (R : σ → τ → Prop) (fs : AlbumFs σ) (ft : AlbumFs τ) : Prop where
  store : R fs.store ft.store
  sb_eq : fs.sb = ft.sb
  bitmap_eq : fs.bitmap = ft.bitmap

open AlbumFs

/-- Programs of two file systems that are linked. -/
abbrev LinkedFs (R : σ → τ → Prop) {α : Type} (m : FsM σ α) (n : FsM τ α) : Prop :=
  Linked (Alike R) (fun _ => True) m n

omit [BlockDevice σ] [BlockDevice τ] in
theorem linkedFs_sb : LinkedFs R (Prog.gets fun fs : AlbumFs σ => fs.sb) (Prog.gets fun fs => fs.sb) :=
  linked_gets fun _ _ h => ⟨h.sb_eq, trivial⟩

omit [BlockDevice σ] [BlockDevice τ] in
/-- A part of a program that depends on the superblock and the bitmap. -/
theorem linkedFs_gets_bind {α : Type} {f : AlbumFs σ → FsM σ α} {g : AlbumFs τ → FsM τ α}
    (h : ∀ fs ft, Alike R fs ft → LinkedFs R (f fs) (g ft)) :
    LinkedFs R (Prog.gets id >>= f) (Prog.gets id >>= g) := by
  intro fs ft halike
  rw [exec_bind, exec_bind, exec_gets, exec_gets]
  exact h fs ft halike fs ft halike

omit [BlockDevice σ] [BlockDevice τ] in
theorem linkedFs_onStore {α : Type} {m : Prog FsError σ α} {n : Prog FsError τ α}
    (h : Linked R (fun _ => True) m n) : LinkedFs R (onStore m) (onStore n) :=
  linked_onPart h (fun _ _ h => h.store) fun _ _ _ _ h hstore => ⟨hstore, h.sb_eq, h.bitmap_eq⟩

omit [BlockDevice σ] [BlockDevice τ] in
theorem linkedFs_result {α : Type} (r : Except FsError α) :
    LinkedFs R (Prog.ofExcept r) (Prog.ofExcept r) :=
  linked_ofExcept fun _ _ => trivial

omit [BlockDevice σ] [BlockDevice τ] in
theorem linkedFs_clearBit (block : Nat) : LinkedFs R (clearBit block) (clearBit block) :=
  linked_update (fun _ _ h => ⟨h.store, h.sb_eq, congrArg (·.clear block) h.bitmap_eq⟩) trivial

omit [BlockDevice σ] [BlockDevice τ] in
theorem linkedFs_takeEntry (pointers : Block) (index : Nat) :
    LinkedFs R (takeEntry pointers index) (takeEntry pointers index) := by
  unfold takeEntry
  dsimp only
  split_ifs
  · exact (linkedFs_clearBit _).bind fun _ _ => linked_pure trivial
  · exact linked_pure trivial

/-! ### Programs that only read -/

namespace LinkedReads

variable (h : LinkedReads R)
include h

theorem readBlockFs (lba : Nat) : LinkedFs R (AlbumFs.readBlock lba) (AlbumFs.readBlock lba) :=
  linkedFs_onStore (h.readBlock lba)

theorem readInode (ino : Nat) : LinkedFs R (AlbumFs.readInode ino) (AlbumFs.readInode ino) :=
  linkedFs_sb.bind fun _ _ => (linkedFs_result _).bind fun _ _ => (h.readBlockFs _).bind fun _ _ =>
    linkedFs_result _

theorem getattr (ino : Nat) : LinkedFs R (AlbumFs.getattr ino) (AlbumFs.getattr ino) := by
  refine (h.readInode ino).bind fun inode _ => ?_
  split_ifs
  · exact linked_throw _
  · exact linked_pure trivial

/-- Looking up an entry of a pointer block. -/
theorem entry (table index : Nat) :
    LinkedFs R (AlbumFs.entryBlock table index false) (AlbumFs.entryBlock table index false) := by
  refine (h.readBlockFs table).bind fun pointers _ => ?_
  dsimp only
  rw [if_neg fun hc => Bool.false_ne_true hc.2, if_neg fun hc => Bool.false_ne_true hc.2]
  exact linked_pure trivial

/-- Looking up a block. -/
theorem mapped (inode : Inode) (index : Nat) :
    LinkedFs R (AlbumFs.bmap inode index false) (AlbumFs.bmap inode index false) := by
  unfold AlbumFs.bmap
  by_cases h₁ : index < 12
  · simp only [dif_pos h₁, Bool.false_eq_true, and_false, if_false]
    exact linked_pure trivial
  simp only [dif_neg h₁]
  by_cases h₂ : index - 12 < POINTERS_PER_BLOCK
  · simp only [if_pos h₂, and_true]
    by_cases h0 : inode.singleIndirect = 0
    · rw [if_pos h0, if_pos h0]
      exact linked_pure trivial
    · simp only [if_neg h0]
      refine Linked.bind (Q := fun _ => True) (linked_pure trivial) fun i _ => ?_
      exact (h.entry _ _).bind fun _ _ => linked_pure trivial
  simp only [if_neg h₂]
  by_cases h₃ : index - 12 - POINTERS_PER_BLOCK ≥ POINTERS_PER_BLOCK * POINTERS_PER_BLOCK
  · rw [if_pos h₃, if_pos h₃]
    exact linked_throw _
  simp only [if_neg h₃, and_true]
  by_cases h0 : inode.doubleIndirect = 0
  · rw [if_pos h0, if_pos h0]
    exact linked_pure trivial
  simp only [if_neg h0]
  refine Linked.bind (Q := fun _ => True) (linked_pure trivial) fun i _ => (h.entry _ _).bind ?_
  rintro ⟨inner, _⟩ -
  cases inner with
  | none => exact linked_pure trivial
  | some inner => exact (h.entry _ _).bind fun _ _ => linked_pure trivial

theorem directoryEntriesFrom (inode : Inode) (logical n : Nat) :
    LinkedFs R (AlbumFs.directoryEntriesFrom inode logical n)
      (AlbumFs.directoryEntriesFrom inode logical n) := by
  induction n generalizing logical with
  | zero => exact linked_pure trivial
  | succ n ih =>
    refine (h.mapped inode logical).bind ?_
    rintro ⟨block, _⟩ -
    cases block with
    | none => exact ih _
    | some block =>
      exact (h.readBlockFs _).bind fun _ _ => (linkedFs_result _).bind fun _ _ => (ih _).bind fun _ _ =>
        linked_pure trivial

theorem lookup (parentIno : Nat) (name : String) :
    LinkedFs R (AlbumFs.lookup parentIno name) (AlbumFs.lookup parentIno name) := by
  refine (h.getattr parentIno).bind fun parent _ => ?_
  split_ifs
  · exact linked_throw _
  · exact (h.directoryEntriesFrom _ _ _).bind fun _ _ => linked_pure trivial

theorem readdir (ino : Nat) : LinkedFs R (AlbumFs.readdir ino) (AlbumFs.readdir ino) := by
  refine (h.getattr ino).bind fun inode _ => ?_
  split_ifs
  · exact linked_throw _
  · exact (h.directoryEntriesFrom _ _ _).bind fun _ _ => linked_pure trivial

theorem readRange (inode : Inode) (position stop : Nat) :
    LinkedFs R (AlbumFs.readRange inode position stop) (AlbumFs.readRange inode position stop) := by
  induction hn : stop - position using Nat.strong_induction_on generalizing position with
  | _ n ih =>
    subst hn
    have hmod := Nat.mod_lt position UB_pos
    rw [AlbumFs.readRange, AlbumFs.readRange]
    by_cases hlt : position < stop
    · rw [if_pos hlt, if_pos hlt]
      refine (h.mapped inode (position / UB)).bind ?_
      rintro ⟨block, _⟩ -
      refine Linked.bind (Q := fun _ => True) ?_ fun piece _ => (ih _ (by omega) _ rfl).bind fun _ _ =>
        linked_pure trivial
      cases block with
      | none => exact linked_pure trivial
      | some block => exact (h.readBlockFs _).bind fun _ _ => linked_pure trivial
    · rw [if_neg hlt, if_neg hlt]
      exact linked_pure trivial

theorem read (ino : Nat) (offset : UInt64) (len : Nat) :
    LinkedFs R (AlbumFs.read ino offset len) (AlbumFs.read ino offset len) := by
  refine (h.getattr ino).bind fun inode _ => ?_
  split_ifs
  · exact linked_throw _
  · exact linked_pure trivial
  · exact h.readRange _ _ _

end LinkedReads

namespace LinkedBlocks

variable (h : LinkedBlocks R)
include h

/-! ### Blocks and inodes -/

theorem writeBlockFs (lba : Nat) (payload : List UInt8) :
    LinkedFs R (AlbumFs.writeBlock lba payload) (AlbumFs.writeBlock lba payload) :=
  linkedFs_onStore (h.writeBlock lba payload)

theorem nowFs : LinkedFs R AlbumFs.now AlbumFs.now := linkedFs_onStore h.now

theorem writeInode (ino : Nat) (inode : Inode) :
    LinkedFs R (AlbumFs.writeInode ino inode) (AlbumFs.writeInode ino inode) :=
  linkedFs_sb.bind fun _ _ => (linkedFs_result _).bind fun _ _ => (h.readBlockFs _).bind fun _ _ =>
    h.writeBlockFs _ _

theorem allocInodeFrom (ino n : Nat) :
    LinkedFs R (AlbumFs.allocInodeFrom ino n) (AlbumFs.allocInodeFrom ino n) := by
  induction n generalizing ino with
  | zero => exact linked_throw _
  | succ n ih =>
    refine (h.readInode ino).bind fun inode _ => ?_
    split_ifs
    · exact linked_pure trivial
    · exact ih _

theorem allocInode : LinkedFs R AlbumFs.allocInode AlbumFs.allocInode :=
  linkedFs_sb.bind fun _ _ => h.allocInodeFrom _ _

/-! ### The block map -/

theorem allocateBlock : LinkedFs R AlbumFs.allocateBlock AlbumFs.allocateBlock := by
  refine linkedFs_gets_bind fun fs ft halike => ?_
  rw [halike.sb_eq, halike.bitmap_eq]
  refine (linkedFs_result _).bind ?_
  rintro ⟨block, bitmap⟩ -
  refine (linked_update (Q := fun _ => True) (fun _ _ h => ⟨h.store, h.sb_eq, rfl⟩) trivial).bind fun _ _ => ?_
  exact (h.writeBlockFs _ _).bind fun _ _ => linked_pure trivial

theorem entryBlock (table index : Nat) (allocate : Bool) :
    LinkedFs R (AlbumFs.entryBlock table index allocate) (AlbumFs.entryBlock table index allocate) := by
  refine (h.readBlockFs table).bind fun pointers _ => ?_
  dsimp only
  split_ifs
  · exact h.allocateBlock.bind fun _ _ => (h.writeBlockFs _ _).bind fun _ _ => linked_pure trivial
  · exact linked_pure trivial

theorem bmap (inode : Inode) (index : Nat) (allocate : Bool) :
    LinkedFs R (AlbumFs.bmap inode index allocate) (AlbumFs.bmap inode index allocate) := by
  have hroot : ∀ (p : Prop) [Decidable p] (set : Nat → Inode), LinkedFs R
      (if p then do let block ← AlbumFs.allocateBlock; pure (set block) else pure inode)
      (if p then do let block ← AlbumFs.allocateBlock; pure (set block) else pure inode) := by
    intro p _ set
    split_ifs
    · exact h.allocateBlock.bind fun _ _ => linked_pure trivial
    · exact linked_pure trivial
  unfold AlbumFs.bmap
  by_cases h₁ : index < 12
  · rw [dif_pos h₁, dif_pos h₁]
    split_ifs
    · exact h.allocateBlock.bind fun _ _ => linked_pure trivial
    · exact linked_pure trivial
  rw [dif_neg h₁, dif_neg h₁]
  dsimp only
  by_cases h₂ : index - 12 < POINTERS_PER_BLOCK
  · rw [if_pos h₂, if_pos h₂]
    by_cases h0 : inode.singleIndirect = 0 ∧ allocate = false
    · rw [if_pos h0, if_pos h0]
      exact linked_pure trivial
    · rw [if_neg h0, if_neg h0]
      exact (hroot _ fun block => { inode with singleIndirect := UInt64.ofNat block }).bind fun i _ =>
        (h.entryBlock _ _ _).bind fun _ _ => linked_pure trivial
  rw [if_neg h₂, if_neg h₂]
  by_cases h₃ : index - 12 - POINTERS_PER_BLOCK ≥ POINTERS_PER_BLOCK * POINTERS_PER_BLOCK
  · rw [if_pos h₃, if_pos h₃]
    exact linked_throw _
  rw [if_neg h₃, if_neg h₃]
  by_cases h0 : inode.doubleIndirect = 0 ∧ allocate = false
  · rw [if_pos h0, if_pos h0]
    exact linked_pure trivial
  rw [if_neg h0, if_neg h0]
  refine (hroot _ fun block => { inode with doubleIndirect := UInt64.ofNat block }).bind fun i _ => ?_
  refine (h.entryBlock _ _ _).bind ?_
  rintro ⟨inner, _⟩ -
  cases inner with
  | none => exact linked_pure trivial
  | some inner => exact (h.entryBlock _ _ _).bind fun _ _ => linked_pure trivial

/-! ### Releasing blocks -/

theorem storeOrRelease (table : Nat) (pointers : Block) :
    LinkedFs R (AlbumFs.storeOrRelease table pointers) (AlbumFs.storeOrRelease table pointers) := by
  unfold AlbumFs.storeOrRelease
  split_ifs
  · exact (linkedFs_clearBit _).bind fun _ _ => linked_pure trivial
  · exact (h.writeBlockFs _ _).bind fun _ _ => linked_pure trivial

theorem removeMappedBlock (inode : Inode) (index : Nat) :
    LinkedFs R (AlbumFs.removeMappedBlock inode index) (AlbumFs.removeMappedBlock inode index) := by
  unfold AlbumFs.removeMappedBlock
  dsimp only
  split_ifs
  · exact (linkedFs_clearBit _).bind fun _ _ => linked_pure trivial
  · exact linked_pure trivial
  · exact linked_pure trivial
  · exact (h.readBlockFs _).bind fun _ _ => (linkedFs_takeEntry _ _).bind fun _ _ =>
      (h.storeOrRelease _ _).bind fun _ _ => linked_pure trivial
  · exact linked_pure trivial
  · refine (h.readBlockFs _).bind fun outer _ => ?_
    split_ifs
    · exact linked_pure trivial
    · exact (h.readBlockFs _).bind fun _ _ => (linkedFs_takeEntry _ _).bind fun _ _ =>
        (h.storeOrRelease _ _).bind fun _ _ => (h.storeOrRelease _ _).bind fun _ _ => linked_pure trivial

theorem removeMappedBlocks (inode : Inode) (index n : Nat) :
    LinkedFs R (AlbumFs.removeMappedBlocks inode index n) (AlbumFs.removeMappedBlocks inode index n) := by
  induction n generalizing inode index with
  | zero => exact linked_pure trivial
  | succ n ih => exact (h.removeMappedBlock inode index).bind fun _ _ => ih _ _

theorem freeAllBlocks (inode : Inode) :
    LinkedFs R (AlbumFs.freeAllBlocks inode) (AlbumFs.freeAllBlocks inode) :=
  (h.removeMappedBlocks _ _ _).bind fun _ _ => linked_pure trivial

/-! ### Directories -/

theorem bumpDirectory (ino : Nat) (inode : Inode) :
    LinkedFs R (AlbumFs.bumpDirectory ino inode) (AlbumFs.bumpDirectory ino inode) :=
  h.nowFs.bind fun _ _ => h.writeInode _ _

theorem editDirectory (parentIno : Nat) (parent : Inode) (edit : Block → Except FsError (Option Block))
    (logical n : Nat) : LinkedFs R (AlbumFs.editDirectory parentIno parent edit logical n)
      (AlbumFs.editDirectory parentIno parent edit logical n) := by
  induction n generalizing logical with
  | zero => exact linked_pure trivial
  | succ n ih =>
    refine (h.bmap parent logical false).bind ?_
    rintro ⟨block, _⟩ -
    cases block with
    | none => exact linked_throw _
    | some block =>
      refine (h.readBlockFs _).bind fun payload _ => (linkedFs_result _).bind fun edited _ => ?_
      cases edited with
      | none => exact ih _
      | some payload =>
        exact (h.writeBlockFs _ _).bind fun _ _ => (h.bumpDirectory _ _).bind fun _ _ => linked_pure trivial

theorem growDirectory (parentIno : Nat) (parent : Inode) (logical ino : Nat) (name : String)
    (fileType : UInt8) : LinkedFs R (AlbumFs.growDirectory parentIno parent logical ino name fileType)
      (AlbumFs.growDirectory parentIno parent logical ino name fileType) := by
  refine (h.bmap parent logical true).bind ?_
  rintro ⟨block, parent⟩ -
  cases block with
  | none => exact linked_throw _
  | some block =>
    exact (linkedFs_result _).bind fun _ _ => (h.writeBlockFs _ _).bind fun _ _ => h.bumpDirectory _ _

theorem addDirEntry (parentIno ino : Nat) (name : String) (fileType : UInt8) :
    LinkedFs R (AlbumFs.addDirEntry parentIno ino name fileType)
      (AlbumFs.addDirEntry parentIno ino name fileType) := by
  refine (h.getattr parentIno).bind fun parent _ => ?_
  split_ifs
  · exact linked_throw _
  · exact linked_throw _
  · refine (h.editDirectory _ _ _ _ _).bind fun inserted _ => ?_
    split_ifs
    · exact linked_pure trivial
    · exact h.growDirectory _ _ _ _ _ _

theorem removeDirEntry (parentIno : Nat) (name : String) :
    LinkedFs R (AlbumFs.removeDirEntry parentIno name) (AlbumFs.removeDirEntry parentIno name) := by
  refine (h.getattr parentIno).bind fun parent _ => ?_
  split_ifs
  · exact linked_throw _
  · refine (h.editDirectory _ _ _ _ _).bind fun removed _ => ?_
    split_ifs
    · exact linked_pure trivial
    · exact linked_throw _

theorem updateDotdot (directory : Inode) (newParent : Nat) :
    LinkedFs R (AlbumFs.updateDotdot directory newParent) (AlbumFs.updateDotdot directory newParent) := by
  refine (h.bmap directory 0 false).bind ?_
  rintro ⟨block, _⟩ -
  cases block with
  | none => exact linked_throw _
  | some block =>
    refine (h.readBlockFs _).bind fun payload _ => (linkedFs_result _).bind fun edited _ => ?_
    cases edited with
    | none => exact linked_throw _
    | some payload => exact h.writeBlockFs _ _

/-! ### File contents -/

theorem writeRange (inode : Inode) (position : Nat) (data : List UInt8) :
    LinkedFs R (AlbumFs.writeRange inode position data) (AlbumFs.writeRange inode position data) := by
  induction hn : data.length using Nat.strong_induction_on generalizing inode position data with
  | _ n ih =>
    subst hn
    have hmod := Nat.mod_lt position UB_pos
    rw [AlbumFs.writeRange, AlbumFs.writeRange]
    by_cases hdata : data.length = 0
    · rw [if_pos hdata, if_pos hdata]
      exact linked_pure trivial
    · rw [if_neg hdata, if_neg hdata]
      refine (h.bmap inode (position / UB) true).bind ?_
      rintro ⟨block, i⟩ -
      cases block with
      | none => exact linked_throw _
      | some block =>
        exact (h.readBlockFs _).bind fun _ _ => (h.writeBlockFs _ _).bind fun _ _ =>
          ih _ (by rw [List.length_drop]; omega) _ _ _ rfl

theorem zeroTail (inode : Inode) (newSize : Nat) :
    LinkedFs R (AlbumFs.zeroTail inode newSize) (AlbumFs.zeroTail inode newSize) := by
  unfold AlbumFs.zeroTail
  dsimp only
  split_ifs
  · refine (h.bmap _ _ false).bind ?_
    rintro ⟨block, _⟩ -
    cases block with
    | none => exact linked_pure trivial
    | some block => exact (h.readBlockFs _).bind fun _ _ => h.writeBlockFs _ _
  · exact linked_pure trivial

end LinkedBlocks

end AlbumFS
