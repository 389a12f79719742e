import Auntie.Bytes

/-!
# Build parameters

The constants the top-level `Makefile` exports to both enclaves and to the Rust
library. Every result is for all their values; `defaults` are the ones of the
`Makefile`. The C constants are `int` literals; their sums are taken without
overflow.
-/

namespace Auntie.Source

structure Build where
  numPlayers : Nat
  operatorCollateral : Nat
  refundDelayBlocks : Int
  settleDelayBlocks : Int
  /-- `AUNTIE_CHECKPOINT_BLOCK_HASH` after `hex::decode_to_slice`: RPC byte order. -/
  checkpointBlockHash : FixedBytes 32
  minerFeePerParty : Nat
  operatorFeePerPlayer : Nat
  testnet : Bool

/-- The values of the `Makefile`, the checkpoint block hash excepted. -/
def Build.defaults (checkpointBlockHash : FixedBytes 32) : Build where
  numPlayers := 3
  operatorCollateral := 10000
  refundDelayBlocks := 40
  settleDelayBlocks := 80
  checkpointBlockHash := checkpointBlockHash
  minerFeePerParty := 5000
  operatorFeePerPlayer := 5000
  testnet := false

end Auntie.Source
