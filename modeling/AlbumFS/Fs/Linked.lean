import AlbumFS.Fs.Format
import AlbumFS.Lib.Linked

/-!
# Linked devices

The programs of the file system see their device only through its operations. On devices whose operations
are linked, they are linked.

## Main definitions

* `LinkedReads`, `LinkedDevices`: devices whose operations are linked.

## Main results

* `LinkedReads.loadBitmap`, `LinkedDevices.formatStore`: the programs of `fs/format.rs`.
-/

namespace AlbumFS

open Prog

variable {σ τ : Type} [BlockDevice σ] [BlockDevice τ] {R : σ → τ → Prop}

/-- Devices whose reads are linked. -/
structure LinkedReads (R : σ → τ → Prop) : Prop where
  readBlock : ∀ lba, Linked R (fun _ => True) (BlockDevice.readBlock lba : Prog FsError σ Block)
    (BlockDevice.readBlock lba)

/-- Devices whose reads, writes and flushes are linked. -/
structure LinkedDevices (R : σ → τ → Prop) : Prop extends LinkedReads R where
  writeBlock : ∀ lba payload, Linked R (fun _ => True)
    (BlockDevice.writeBlock lba payload : Prog FsError σ Unit) (BlockDevice.writeBlock lba payload)
  flush : Linked R (fun _ => True) (BlockDevice.flush : Prog FsError σ Unit) BlockDevice.flush

theorem LinkedReads.loadBitmapBlocks (h : LinkedReads R) (needed block n : Nat) (bytes : List UInt8) :
    Linked R (fun _ => True) (loadBitmapBlocks needed block n bytes : Prog FsError σ (List UInt8))
      (loadBitmapBlocks needed block n bytes) := by
  induction n generalizing block bytes with
  | zero => exact linked_pure trivial
  | succ n ih => exact (h.readBlock block).bind fun payload _ => ih _ _

theorem LinkedReads.loadBitmap (h : LinkedReads R) (sb : Superblock) :
    Linked R (fun _ => True) (loadBitmap sb : Prog FsError σ Bitmap) (loadBitmap sb) :=
  (h.loadBitmapBlocks _ _ _ _).bind fun _ _ => linked_pure trivial

namespace LinkedDevices

variable (h : LinkedDevices R)
include h

theorem zeroBlocks (lba n : Nat) :
    Linked R (fun _ => True) (zeroBlocks lba n : Prog FsError σ Unit) (zeroBlocks lba n) := by
  induction n generalizing lba with
  | zero => exact linked_pure trivial
  | succ n ih => exact (h.writeBlock lba _).bind fun _ _ => ih _

theorem writeBitmapBlocks (sb : Superblock) (bitmap : Bitmap) (index n : Nat) :
    Linked R (fun _ => True) (writeBitmapBlocks sb bitmap index n : Prog FsError σ Unit)
      (writeBitmapBlocks sb bitmap index n) := by
  induction n generalizing index with
  | zero => exact linked_pure trivial
  | succ n ih => exact (h.writeBlock _ _).bind fun _ _ => ih _

/-- After filling the blocks with zeros, the rest of a format is linked. -/
theorem formatStore_of_zeroed {sb : Superblock} {s : σ} {t : τ}
    (hresult : (exec (AlbumFS.zeroBlocks 0 sb.totalBlocks.toNat) s).1 =
      (exec (AlbumFS.zeroBlocks 0 sb.totalBlocks.toNat) t).1)
    (hR : R (exec (AlbumFS.zeroBlocks 0 sb.totalBlocks.toNat) s).2
      (exec (AlbumFS.zeroBlocks 0 sb.totalBlocks.toNat) t).2) :
    (exec (AlbumFS.formatStore sb) s).1 = (exec (AlbumFS.formatStore sb) t).1 ∧
      R (exec (AlbumFS.formatStore sb) s).2 (exec (AlbumFS.formatStore sb) t).2 := by
  rw [AlbumFS.formatStore, AlbumFS.formatStore, exec_bind, exec_bind]
  rcases hs : exec (AlbumFS.zeroBlocks 0 sb.totalBlocks.toNat) s with ⟨_ | ⟨⟩, s'⟩ <;>
    rcases ht : exec (AlbumFS.zeroBlocks 0 sb.totalBlocks.toNat) t with ⟨_ | ⟨⟩, t'⟩ <;>
    rw [hs, ht] at hresult hR <;> cases hresult
  · exact ⟨rfl, hR⟩
  dsimp only
  refine (fun hrest : Linked R (fun _ => True) _ _ =>
    ⟨(hrest s' t' hR).1, (hrest s' t' hR).2.2⟩) (Linked.bind (Q := fun _ => True) ?_ fun _ _ => ?_)
  · split_ifs
    · exact linked_pure trivial
    · exact linked_throw _
    · exact h.writeBlock 0 _
  refine (linked_ofExcept (Q := fun _ => True) fun _ _ => trivial).bind ?_
  rintro ⟨rootBlock, bitmap⟩ -
  refine (linked_ofExcept (Q := fun _ => True) fun _ _ => trivial).bind fun payload _ => ?_
  refine (h.writeBlock _ _).bind fun _ _ => (h.readBlock _).bind fun inodeTable _ => ?_
  exact (h.writeBlock _ _).bind fun _ _ => (h.writeBitmapBlocks sb bitmap _ _).bind fun _ _ => h.flush

theorem formatStore (sb : Superblock) :
    Linked R (fun _ => True) (formatStore sb : Prog FsError σ Unit) (formatStore sb) := by
  intro s t hR
  obtain ⟨hresult, -, hstate⟩ := h.zeroBlocks 0 sb.totalBlocks.toNat s t hR
  obtain ⟨hresult', hstate'⟩ := h.formatStore_of_zeroed hresult hstate
  exact ⟨hresult', fun _ _ => trivial, hstate'⟩

end LinkedDevices

/-- Devices of which the second follows the first. `R n` relates their states once the first `n` of
`total` blocks are known, and `S` after a flush. -/
structure FollowDevices (R : Nat → σ → τ → Prop) (S : σ → τ → Prop) (total : Nat) : Prop where
  zero : ∀ lba, lba < total → Follows (R lba) (R (lba + 1))
    (BlockDevice.writeBlock lba Block.zero.bytes : Prog FsError σ Unit)
    (BlockDevice.writeBlock lba Block.zero.bytes : Prog FsError τ Unit)
  readBlock : ∀ lba, Follows (R total) (R total) (BlockDevice.readBlock lba : Prog FsError σ Block)
    (BlockDevice.readBlock lba : Prog FsError τ Block)
  writeBlock : ∀ lba payload, Follows (R total) (R total)
    (BlockDevice.writeBlock lba payload : Prog FsError σ Unit)
    (BlockDevice.writeBlock lba payload : Prog FsError τ Unit)
  flush : Follows (R total) S (BlockDevice.flush : Prog FsError σ Unit)
    (BlockDevice.flush : Prog FsError τ Unit)

namespace FollowDevices

variable {R : Nat → σ → τ → Prop} {S : σ → τ → Prop} {total : Nat} (h : FollowDevices R S total)
include h

theorem zeroBlocks (lba n : Nat) (hle : lba + n = total) :
    Follows (R lba) (R total) (zeroBlocks lba n : Prog FsError σ Unit)
      (zeroBlocks lba n : Prog FsError τ Unit) := by
  induction n generalizing lba with
  | zero =>
    obtain rfl : lba = total := hle
    exact follows_pure ()
  | succ n ih => exact (h.zero lba (by omega)).bind fun _ => ih (lba + 1) (by omega)

theorem writeBitmapBlocks (sb : Superblock) (bitmap : Bitmap) (index n : Nat) :
    Follows (R total) (R total) (writeBitmapBlocks sb bitmap index n : Prog FsError σ Unit)
      (writeBitmapBlocks sb bitmap index n : Prog FsError τ Unit) := by
  induction n generalizing index with
  | zero => exact follows_pure ()
  | succ n ih => exact (h.writeBlock _ _).bind fun _ => ih (index + 1)

theorem formatStore {sb : Superblock} (htotal : sb.totalBlocks.toNat = total) :
    Follows (R 0) S (formatStore sb : Prog FsError σ Unit)
      (formatStore sb : Prog FsError τ Unit) := by
  subst htotal
  refine (h.zeroBlocks 0 _ (Nat.zero_add _)).bind fun _ =>
    Follows.bind (S := R sb.totalBlocks.toNat) ?_ fun _ => ?_
  · split_ifs
    · exact follows_pure ()
    · exact follows_throw _
    · exact h.writeBlock 0 _
  refine (follows_ofExcept _).bind ?_
  rintro ⟨rootBlock, bitmap⟩
  refine (follows_ofExcept _).bind fun payload => (h.writeBlock _ _).bind fun _ => ?_
  refine (h.readBlock _).bind fun inodeTable => (h.writeBlock _ _).bind fun _ => ?_
  exact (h.writeBitmapBlocks sb bitmap _ _).bind fun _ => h.flush

end FollowDevices

end AlbumFS
