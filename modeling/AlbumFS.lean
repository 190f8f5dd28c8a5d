import AlbumFS.Lib.Prog
import AlbumFS.Lib.Bytes
import AlbumFS.Lib.Ownership
import AlbumFS.Lib.BlockTree
import AlbumFS.Fs.Error
import AlbumFS.Fs.Bitmap
import AlbumFS.Fs.Inode
import AlbumFS.Fs.Dirent
import AlbumFS.Fs.Superblock
import AlbumFS.Fs.SuperblockCodec
import AlbumFS.Fs.Device
import AlbumFS.Fs.Album
import AlbumFS.Fs.Operations
import AlbumFS.Fs.Format
import AlbumFS.Fs.Fuse
import AlbumFS.Fs.View
import AlbumFS.Space.Slots
import AlbumFS.Space.BlockMap
import AlbumFS.Space.Release
import AlbumFS.Space.Sound
import AlbumFS.Ops.Directory
import AlbumFS.Ops.Namespace
import AlbumFS.Ops.Rename
import AlbumFS.Ops.Files
import AlbumFS.Ops.Fresh
import AlbumFS.Runs.Reach
import AlbumFS.Runs.CrossLinks
import AlbumFS.Ops.Frame
import AlbumFS.Runs.Contents
import AlbumFS.Runs.Limits
import AlbumFS.Ops.Halted
import AlbumFS.Runs.Tails
import AlbumFS.Runs.Counts
import AlbumFS.Runs.Creation
import AlbumFS.Fs.Damaged
import AlbumFS.Space.Obstructed
import AlbumFS.Ops.Damaged
import AlbumFS.Runs.Damage
import AlbumFS.Lib.FirstFit
import AlbumFS.Dirs.Records
import AlbumFS.Dirs.Listing
import AlbumFS.Dirs.Insertion
import AlbumFS.Lib.Bits
import AlbumFS.Stego.Chunk
import AlbumFS.Stego.Png
import AlbumFS.Stego.Jpeg
import AlbumFS.Lib.Tiling
import AlbumFS.Pool.Carriers
import AlbumFS.Pool.Blocks
import AlbumFS.Pool.Store
import AlbumFS.Pool.Open
import AlbumFS.Pool.Array
import AlbumFS.Pool.Faithful
import AlbumFS.Pool.Invariant
import AlbumFS.Pool.Images
import AlbumFS.Pool.Geometry
import AlbumFS.Pool.Regions
import AlbumFS.Pool.Layout
import AlbumFS.Pool.Forgery
import AlbumFS.Pool.Mirrors
import AlbumFS.Pool.RoundTrip
import AlbumFS.Pool.Plaintext
import AlbumFS.Pool.Guard
import AlbumFS.Pool.Decoys
import AlbumFS.Pool.Files
import AlbumFS.Pool.Stats
import AlbumFS.Pool.Opened
import AlbumFS.Ops.StoredBitmap
import AlbumFS.Stego.Changes
import AlbumFS.Ops.Mapping
import AlbumFS.Ops.Linked
import AlbumFS.Ops.Room
import AlbumFS.Ops.Shrinking
import AlbumFS.Dirs.Checked
import AlbumFS.Lib.Names
import AlbumFS.Dirs.Removal
import AlbumFS.Dirs.Names
import AlbumFS.Dirs.Namespace
import AlbumFS.Runs.Namespace
import AlbumFS.Runs.Requests
import AlbumFS.Runs.Tree
import AlbumFS.Ops.Accounted
import AlbumFS.Runs.Space
