import Netcode.Library.Containers
import Netcode.Library.Encodings

/-! The sources, repairs and acknowledgements of the two sides. Identifiers are the values of
32-bit unsigned integers, counts and symbol sizes those of 16-bit ones. -/
namespace Netcode

open Containers Encodings

/-- A sorted list of source identifiers. -/
abbrev SourceIdList := FlatSet ℕ

/-- An acknowledgement packet. -/
structure Ack where
  sourceIds : SourceIdList
  nbPackets : ℕ
deriving DecidableEq

/-- An encoder's source, holding a user's symbol. -/
structure EncoderSource where
  id : ℕ
  symbol : List Byte
deriving DecidableEq

/-- The number of bytes in the user's symbol, narrowed to 16 bits. -/
def EncoderSource.size (s : EncoderSource) : ℕ := s.symbol.length % 2 ^ 16

/-- An encoder's repair. -/
structure EncoderRepair where
  id : ℕ
  sourceIds : SourceIdList
  encodedSize : BitVec 16
  symbol : List Byte
deriving DecidableEq

/-- A decoder's source. The symbol is what its packet's buffer holds from `symbol()` on. -/
structure DecoderSource where
  id : ℕ
  symbol : List Byte
  symbolSize : ℕ
deriving DecidableEq

/-- A decoder's repair. The symbol is what its packet's buffer holds from `symbol()` on. -/
structure DecoderRepair where
  id : ℕ
  sourceIds : SourceIdList
  encodedSize : BitVec 16
  symbol : List Byte
  symbolSize : ℕ
deriving DecidableEq

/-- The values the types of the fields of an acknowledgement allow. -/
def Ack.InRange (a : Ack) : Prop := (∀ i ∈ a.sourceIds, i < 2 ^ 32) ∧ a.nbPackets < 2 ^ 16

/-- The values the types of the fields of a repair allow. -/
def EncoderRepair.InRange (r : EncoderRepair) : Prop :=
  r.id < 2 ^ 32 ∧ ∀ i ∈ r.sourceIds, i < 2 ^ 32

end Netcode
