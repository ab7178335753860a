import Mathlib

/-! The fixed-width integer types of `Types.h`. Arithmetic on them wraps as it
does on the 32-bit target; `Addr` is what the code calls `uint32_t` when it
means an address. -/
namespace UntitledOS

abbrev u8 := BitVec 8
abbrev u16 := BitVec 16
abbrev u32 := BitVec 32
abbrev u64 := BitVec 64

/-- An address of the 32-bit machine. -/
abbrev Addr := u32

end UntitledOS
