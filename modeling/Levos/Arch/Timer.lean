import Levos.Framework.ByteMemory
import Levos.Framework.Pit

namespace Levos.Arch

open Levos.Framework

section Command

variable {counter mode : BitVec 8} {freq : BitVec 32}

end Command

section Divisor

end Divisor

section Started

variable {counter mode : BitVec 8} {freq : BitVec 32} {s s' : Pit}

end Started

end Levos.Arch
