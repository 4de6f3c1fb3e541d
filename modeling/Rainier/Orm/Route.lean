import Rainier.Support.Text
import Rainier.Database.Value

/-! # Shard routes

A shard-encoded id carries its shard in the high bits. A shard-key value is reduced to a
number: an integer as it stands, a text by its hash.
-/
namespace Rainier.Orm
open Database

/-- Packs a shard number into the high bits of an id. -/
structure ShardCodec where
  shardBits : UInt32

namespace ShardCodec

variable (c : ShardCodec)

/-- Bits available for the per-shard sequence. -/
def seqBits : UInt32 := 64 - c.shardBits

/-- The shard number encoded in `id`. -/
def shardOf (id : UInt64) : UInt32 := (id >>> c.seqBits.toUInt64).toUInt32

/-- Compose a full id from a shard number and a per-shard sequence. -/
def compose (shard : UInt32) (sequence : UInt64) : UInt64 :=
  (shard.toUInt64 <<< c.seqBits.toUInt64) ||| (sequence &&& ((1 <<< c.seqBits.toUInt64) - 1))

end ShardCodec

/-- FNV-1a. -/
def stableHash (bytes : List UInt8) : UInt64 :=
  bytes.foldl (fun h b => (h ^^^ b.toUInt64) * 0x100000001b3) 0xcbf29ce484222325

/-- Reduce a shard-key value to a routing key. -/
def routingKey : Value → Option UInt64
  | .int _ n => n.map UInt64.ofInt
  | .string s => s.map fun s => stableHash (Text.asBytes s)
  | .char c => c.map fun c => stableHash (Text.asBytes (String.singleton c))
  | .bool _ | .bytes _ | .other _ _ => none

end Rainier.Orm
