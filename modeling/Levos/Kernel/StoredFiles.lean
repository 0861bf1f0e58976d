import Levos.Kernel.FileSystem
import Levos.Ext2.Stored

namespace Levos.Kernel

open Levos.Framework Levos.Lib Levos.Ext2 Levos.Vfs

section Pieces

variable {bs c : Nat}

end Pieces

section Open

variable {dev : Device} {v : Volume} {G : Contents} {path : CString} {i : BitVec 32} {bytes : List (BitVec 8)}

end Open

end Levos.Kernel
