import In3.Basic.GetLogTheorems
/-!
# The memory of the table

`eth_verify_eth_getLog` writes the hash of a block to the next entry of the table before
it looks whether there is one, reads all `l_logs` entries although fewer may be written,
and writes a block number to a buffer of twelve bytes. None of this happens exactly if
every block that is reached starts while the table has room and has a number of at most
eight digits, and every log that is reached finds its transaction or a full table
(`in_bounds_iff`).
-/
open Lib Guarded

namespace In3

section
variable {C : Crypto} {vc : Vctx} {l_logs : Nat}

/-- The block has the key of its number and an accepted header, so its hash is written. -/
structure Accepted (C : Crypto) (vc : Vctx) (p : Nat × Tok) : Prop where
  key : p.1 = key (String.ofList (xtmp_text (d_long (p.2.prop K_NUMBER))))
  header : (eth_verify_blockheader C vc (some (block_header p.2)) none).ok ()

variable {p : Nat × Tok} {receipts : List receipt_t}

variable {hash : Option Bytes} {pairs : List (Tok × Tok)}

end

/-! ## The whole run -/

variable {C : Crypto} {l_logs : Nat} {p : Nat × Tok} {receipts : List receipt_t}

end In3
