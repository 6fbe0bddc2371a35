import Netcode.Packets
import Netcode.SquareMatrix
import Netcode.Library.Containers

/-! detail/decoder.cc: the component which decodes sources from repairs. An iterator on a repair
is the identifier of this repair, and the address of a source is its identifier. -/
namespace Netcode.Detail

open Containers Encodings

/-- What the callback is given, and the identifiers in `m_sources` and in `m_ordered_sources` when it
is called. -/
structure Callback where
  source : DecoderSource
  known : List ℕ
  waiting : List ℕ
deriving DecidableEq

structure Decoder (w : FieldSize) where
  inOrder : Bool
  /-- The identifier of the first source which has not yet been given in order to callback. -/
  firstMissingSourceInOrder : ℕ
  /-- Sources which could not be given to callback as some older sources are still missing. -/
  orderedSources : FlatSet ℕ
  callbacks : List Callback
  repairs : OrdMap ℕ DecoderRepair
  sources : OrdMap ℕ DecoderSource
  lastId : Option ℕ
  /-- The missing sources referenced by a repair, with the repairs that reference them. -/
  missingSources : OrdMap ℕ (FlatSet ℕ)
  nbUselessRepairs : ℕ
  nbFailedFullDecodings : ℕ
  nbDecoded : ℕ
  coefficients : SquareMatrix w
  inv : SquareMatrix w
deriving DecidableEq

/-- What the decoder is given. -/
inductive Incoming
  | source (src : DecoderSource)
  | repair (r : DecoderRepair)
deriving DecidableEq

/-- The identifiers of the sources it names. -/
def Incoming.ids : Incoming → List ℕ
  | .source src => [src.id]
  | .repair r => r.sourceIds.toList

namespace Decoder

variable {w : FieldSize} (b : Build) (g : GfComplete w)

def initial (inOrder : Bool) : Decoder w where
  inOrder := inOrder
  firstMissingSourceInOrder := 0
  orderedSources := FlatSet.empty
  callbacks := []
  repairs := OrdMap.empty
  sources := OrdMap.empty
  lastId := none
  missingSources := OrdMap.empty
  nbUselessRepairs := 0
  nbFailedFullDecodings := 0
  nbDecoded := 0
  coefficients := SquareMatrix.create 32
  inv := SquareMatrix.create 32

/-- This identifier is older than the oldest one to keep. -/
def outdated (d : Decoder w) (id : ℕ) : Bool := d.lastId.any (fun l => decide (id < l))

def callback (src : DecoderSource) (d : Decoder w) : Decoder w :=
  { d with callbacks := d.callbacks ++ [⟨src, d.sources.keys, d.orderedSources.toList⟩] }

/-- The call of the callback with an entry of `m_ordered_sources`. -/
def callbackOrdered (cit : ℕ) (d : Decoder w) : Except Fault (Decoder w) :=
  match d.sources.find? cit with
  | none => .error (.undefined .danglingSource)
  | some src => .ok (d.callback src)

/-- The first missing source in order was given to callback. -/
def advance (d : Decoder w) : Decoder w :=
  { d with firstMissingSourceInOrder := (d.firstMissingSourceInOrder + 1) % 2 ^ 32 }

/-- Give an entry of `m_ordered_sources` to callback and erase it. -/
def sweep (d : Decoder w) (cit : ℕ) : Except Fault (Decoder w) := do
  let d ← d.callbackOrdered cit
  .ok { d with orderedSources := d.orderedSources.erase cit }

/-- Give the entries of `m_ordered_sources` from `cit` on to callback, as long as they follow in
sequence. -/
def flushLoop : ℕ → ℕ → Decoder w → Except Fault (Decoder w)
  | 0, _, _ => .error .outOfFuel
  | fuel + 1, cit, d => do
    b.assert .notFirstMissing (cit = d.firstMissingSourceInOrder)
    let next := d.orderedSources.next? cit
    let d ← d.sweep cit
    match next with
    | none => .ok d.advance
    | some cit =>
      if d.advance.firstMissingSourceInOrder < cit then .ok d.advance
      else flushLoop fuel cit d.advance

/-- Give to callback ordered sources, if possible. -/
def flushOrderedSources (d : Decoder w) : Except Fault (Decoder w) :=
  if d.firstMissingSourceInOrder ∈ d.orderedSources then
    flushLoop b d.orderedSources.size d.firstMissingSourceInOrder d
  else .ok d

/-- Give a new source to callback, unless older ones are missing. -/
def offer (src : DecoderSource) (d : Decoder w) : Except Fault (Decoder w) :=
  if !d.inOrder then .ok (d.callback src)
  else if src.id = d.firstMissingSourceInOrder then flushOrderedSources b (d.callback src).advance
  else .ok d

/-- Remove a source from a repair, but not the id from the list of source identifiers. -/
def removeSourceDataFromRepair (src : DecoderSource) (r : DecoderRepair) :
    Except Fault DecoderRepair := do
  b.assert .encodesOnlyOne (1 < r.sourceIds.size)
  b.assert .sourceTooLong (src.symbolSize ≤ r.symbolSize)
  let coeff := coefficient w r.id src.id
  b.within src.symbolSize r.symbolSize
  let symbol ← multiplyAdd g src.symbol r.symbol src.symbolSize coeff
  .ok { r with
    encodedSize := multiplySize g (BitVec.ofNat 16 src.symbolSize) coeff ^^^ r.encodedSize
    symbol := symbol }

/-- Remove a source from a repair. -/
def removeSourceFromRepair (src : DecoderSource) (r : DecoderRepair) :
    Except Fault DecoderRepair := do
  let r ← removeSourceDataFromRepair b g src r
  b.assert .sourceNotInRepair (src.id ∈ r.sourceIds)
  if src.id ∈ r.sourceIds then .ok { r with sourceIds := r.sourceIds.erase src.id }
  else .error (.undefined .endIterator)

/-- Remove a source from the repair an iterator denotes. -/
def stripRepair (src : DecoderSource) (d : Decoder w) (rCit : ℕ) : Except Fault (Decoder w) :=
  match d.repairs.find? rCit with
  | none => .error (.undefined .danglingRepair)
  | some r => do
    let r ← removeSourceFromRepair b g src r
    .ok { d with repairs := d.repairs.insert rCit r }

/-- Remove a source from all repairs that encode it; it's no longer a missing source. -/
def stripFromRepairs (src : DecoderSource) (d : Decoder w) : Except Fault (Decoder w) :=
  match d.missingSources.find? src.id with
  | none => .ok d
  | some cits => do
    let d ← cits.toList.foldlM (stripRepair b g src) d
    .ok { d with missingSources := d.missingSources.erase src.id }

/-- Decode a source contained in a repair. Of the new packet's buffer, the bytes past the symbol
size are indeterminate: nothing reads them. -/
def createSourceFromRepair (r : DecoderRepair) : Except Fault DecoderSource := do
  b.assert .encodesSeveral (r.sourceIds.size = 1)
  match r.sourceIds.toList with
  | [] => .error (.undefined .emptyList)
  | srcId :: _ => do
    let inv ← invertCoefficient b g (coefficient w r.id srcId)
    let srcSz := (multiplySize g r.encodedSize inv).toNat
    b.within srcSz r.symbolSize
    let symbol ← multiply g r.symbol (List.replicate (srcSz + 9) 0#8) srcSz inv
    .ok ⟨srcId, symbol, srcSz⟩

/-- The only repair a set of iterators denotes. -/
def onlyRepair (d : Decoder w) (cits : FlatSet ℕ) : Except Fault (Option (ℕ × DecoderRepair)) :=
  match cits.toList with
  | [rCit] =>
    match d.repairs.find? rCit with
    | none => .error (.undefined .danglingRepair)
    | some r => .ok (some (rCit, r))
  | _ => .ok none

/-- One more source is decoded: its repair is erased and it's no longer a missing source. -/
def removeDecoded (missCit rCit : ℕ) (d : Decoder w) : Decoder w :=
  { d with
    nbDecoded := d.nbDecoded + 1
    repairs := d.repairs.erase rCit
    missingSources := d.missingSources.erase missCit }

/-- The source decoded from a repair that encodes only one, whose missing source is `missCit`, and
the decoder without them. -/
def decodeMissing (missCit rCit : ℕ) (r : DecoderRepair) (d : Decoder w) :
    Except Fault (DecoderSource × Decoder w) :=
  match r.sourceIds.toList with
  | [] => .error (.undefined .emptyList)
  | id :: _ => do
    b.assert .outdatedDecoded (!d.outdated id)
    b.assert .knownDecoded (!d.sources.contains id)
    let src ← createSourceFromRepair b g r
    .ok (src, d.removeDecoded missCit rCit)

/-- Look for repairs that encode only 1 source, from the missing source `missCit` denotes on.
`addSource` is the nested call for the decoded source. -/
def cascade (addSource : DecoderSource → Decoder w → Except Fault (Decoder w)) :
    ℕ → Option ℕ → Decoder w → Except Fault (Decoder w)
  | _, none, d => .ok d
  | 0, some _, _ => .error .outOfFuel
  | fuel + 1, some missCit, d =>
    match d.missingSources.find? missCit with
    | none => .error (.undefined .danglingCursor)
    | some cits => do
      let next := d.missingSources.nextKey? missCit
      match ← d.onlyRepair cits with
      | none => cascade addSource fuel next d
      | some (rCit, r) =>
        if r.sourceIds.size = 1 then do
          let (src, d) ← decodeMissing b g missCit rCit r d
          let d ← addSource src d
          cascade addSource fuel next d
        else cascade addSource fuel next d

/-- Insert a new source in the set of known sources. -/
def store (src : DecoderSource) (d : Decoder w) : Except Fault (Decoder w) := do
  b.assert .sourceAlreadyAdded (!d.sources.contains src.id)
  let d := if d.sources.contains src.id then d
    else { d with sources := d.sources.insert src.id src }
  if d.inOrder ∧ d.firstMissingSourceInOrder < src.id then
    .ok { d with orderedSources := d.orderedSources.insert src.id }
  else .ok d

/-- `add_source_recursive` with at most `depth` levels of recursion. -/
def addSource : ℕ → DecoderSource → Decoder w → Except Fault (Decoder w)
  | 0, _, _ => .error .outOfFuel
  | depth + 1, src, d => do
    let d ← d.offer b src
    let d ← d.stripFromRepairs b g src
    let d ← d.cascade b g (addSource depth) d.missingSources.size d.missingSources.firstKey?
    d.store b src

/-- Recursively decode any repair that encodes only one source. -/
def addSourceRecursive (src : DecoderSource) (d : Decoder w) : Except Fault (Decoder w) :=
  addSource b g (d.repairs.size + 1) src d

/-- Remove a repair from the missing source it references. -/
def unlink (rCit : ℕ) (d : Decoder w) (srcId : ℕ) : Except Fault (Decoder w) :=
  match d.missingSources.find? srcId with
  | none => .error (.undefined .endIterator)
  | some cits =>
    .ok { d with missingSources := d.missingSources.insert srcId (cits.erase rCit) }

/-- Drop a repair when it encodes sources with identifiers strictly less than `id`. -/
def dropRepair (id : ℕ) (d : Decoder w) (cit : ℕ × DecoderRepair) : Except Fault (Decoder w) := do
  b.assert .emptyStoredRepair (!cit.2.sourceIds.isEmpty)
  match cit.2.sourceIds.toList with
  | [] => .error (.undefined .emptyList)
  | first :: _ =>
    if first < id then do
      let d ← cit.2.sourceIds.toList.foldlM (unlink cit.1) d
      .ok { d with repairs := d.repairs.erase cit.1 }
    else .ok d

/-- Give to callback the sources waiting for others that are outdated. -/
def dropOrdered (id : ℕ) (d : Decoder w) : Except Fault (Decoder w) :=
  if d.inOrder then do
    let d ← (d.orderedSources.toList.filter (fun cit => decide (cit < id))).foldlM sweep d
    flushOrderedSources b
      { d with firstMissingSourceInOrder := max d.firstMissingSourceInOrder id }
  else .ok d

/-- Drop outdated sources and repairs; `id` is the oldest id to keep. -/
def dropOutdated (id : ℕ) (d : Decoder w) : Except Fault (Decoder w) := do
  let d ← d.repairs.entries.foldlM (dropRepair b id) { d with lastId := some id }
  let d ← d.dropOrdered b id
  .ok { d with
    sources := d.sources.eraseBelow id
    missingSources := d.missingSources.eraseBelow id }

/-- The matrix of coefficients: a column per repair and a row per missing source. -/
def fillCoefficients (d : Decoder w) : Except Fault (SquareMatrix w) :=
  d.repairs.entries.zipIdx.foldlM (fun m (r, col) =>
    d.missingSources.keys.zipIdx.foldlM (fun m (missing, row) =>
      m.write (m.index row col)
        (if missing ∈ r.2.sourceIds then coefficient w r.1 missing else 0#w.bits)) m)
    (d.coefficients.resize d.repairs.size)

/-- Inversion failed, remove the faulty repair. -/
def dropFaulty (rCol : ℕ) (d : Decoder w) : Except Fault (Decoder w) :=
  match d.repairs.entries[rCol]? with
  | none => .error (.undefined .endIterator)
  | some (rCit, r) => .ok { d with
      nbFailedFullDecodings := d.nbFailedFullDecodings + 1
      missingSources := r.sourceIds.toList.foldl (fun m src =>
        m.insert src (((m.find? src).getD FlatSet.empty).erase rCit)) d.missingSources
      repairs := d.repairs.erase rCit }

/-- The size of the source decoded from repairs and their coefficients. -/
def decodeSize (rows : List (BitVec w.bits × DecoderRepair)) : BitVec 16 :=
  rows.foldl (fun res row =>
    if row.1 = 0#w.bits then res else multiplySize g row.2.encodedSize row.1 ^^^ res) 0#16

/-- The symbol of the source decoded from repairs and their coefficients. -/
def decodeSymbol (srcSz : ℕ) (rows : List (BitVec w.bits × DecoderRepair)) :
    Except Fault (List Byte) :=
  match rows.dropWhile (fun row => row.1 = 0#w.bits) with
  | [] => do
    b.assert .noCoefficient false
    .error (.undefined .outOfIndex)
  | row :: rows => do
    let symbol ← multiply g row.2.symbol (List.replicate (srcSz + 9) 0#8)
      (min srcSz row.2.symbolSize) row.1
    rows.foldlM (fun symbol row =>
      if row.1 = 0#w.bits then .ok symbol
      else multiplyAdd g row.2.symbol symbol (min srcSz row.2.symbolSize) row.1) symbol

/-- The repairs, each with its coefficient in the inverted matrix for a missing source. -/
def decodingRows (d : Decoder w) (index : List DecoderRepair) (srcCol : ℕ) :
    Except Fault (List (BitVec w.bits × DecoderRepair)) := do
  let coeffs ← (List.range d.inv.dimension).mapM fun repairRow =>
    d.inv.read (d.inv.index repairRow srcCol)
  .ok (coeffs.zip index)

/-- Add a source decoded by full decoding to the set of known sources. -/
def insertDecoded (src : DecoderSource) (d : Decoder w) : Except Fault (Decoder w) := do
  b.assert .sourceAlreadyAdded (!d.sources.contains src.id)
  let inserted := (d.sources.find? src.id).getD src
  let d := { d with sources := d.sources.insert src.id inserted }
  if !d.inOrder then .ok (d.callback inserted)
  else if src.id = d.firstMissingSourceInOrder then
    flushOrderedSources b (d.callback inserted).advance
  else .ok { d with orderedSources := d.orderedSources.insert src.id }

/-- Decode the missing source of a column of the inverted matrix. -/
def decodeColumn (index : List DecoderRepair) (d : Decoder w) (miss : ℕ × ℕ) :
    Except Fault (Decoder w) := do
  let rows ← d.decodingRows index miss.2
  let srcSz := (decodeSize g rows).toNat
  let symbol ← decodeSymbol b g srcSz rows
  d.insertDecoded b ⟨miss.1, symbol, srcSz⟩

/-- Matrix successfully inverted, we can now decode missing sources. -/
def decodeAll (d : Decoder w) : Except Fault (Decoder w) := do
  let nb := d.missingSources.size
  let d ← d.missingSources.keys.zipIdx.foldlM
    (decodeColumn b g (d.repairs.entries.map Prod.snd)) d
  .ok { d with
    nbDecoded := d.nbDecoded + nb
    repairs := OrdMap.empty
    missingSources := OrdMap.empty }

/-- Do we have enough repairs to try to decode missing sources? -/
def enoughRepairs (d : Decoder w) : Bool :=
  !d.repairs.isEmpty && !d.missingSources.isEmpty &&
    decide (d.missingSources.size ≤ d.repairs.size)

/-- Try to construct missing sources from the set of repairs. -/
def attemptFullDecoding (d : Decoder w) : Except Fault (Decoder w) :=
  if !d.enoughRepairs then .ok d
  else do
    b.assert .moreRepairs (d.missingSources.size = d.repairs.size)
    b.assert .oneMissingSource (1 < d.missingSources.size)
    let coefficients ← d.fillCoefficients
    let (rCol, m) ← invert b g coefficients (d.inv.resize coefficients.dimension)
    let d := { d with coefficients := m.mat, inv := m.inv }
    match rCol with
    | some rCol => d.dropFaulty rCol
    | none => d.decodeAll b g

/-- What to do when a source is received. -/
def receiveSource (src : DecoderSource) (d : Decoder w) : Except Fault (Decoder w) :=
  if d.outdated src.id then .ok d
  else if d.sources.contains src.id then .ok d
  else do
    let d ← d.addSourceRecursive b g src
    d.attemptFullDecoding b g

/-- Remove a source from an incoming repair or link them. -/
def link (rCit : ℕ) (d : Decoder w) (id : ℕ) : Except Fault (Decoder w) :=
  match d.sources.find? id with
  | some src =>
    match d.repairs.find? rCit with
    | none => .error (.undefined .danglingRepair)
    | some r => do
      let r ← removeSourceDataFromRepair b g src r
      .ok { d with repairs := d.repairs.insert rCit { r with sourceIds := r.sourceIds.erase id } }
  | none =>
    let cits := (d.missingSources.find? id).getD FlatSet.empty
    .ok { d with missingSources := d.missingSources.insert id (cits.insert rCit) }

/-- Rebuild a missing source directly with a repair, or try a full decoding. -/
def useRepair (rCit : ℕ) (d : Decoder w) : Except Fault (Decoder w) :=
  match d.repairs.find? rCit with
  | none => .error (.undefined .danglingRepair)
  | some r => do
    b.assert .allSourcesKnown (!r.sourceIds.isEmpty)
    if r.sourceIds.size = 1 then do
      let src ← createSourceFromRepair b g r
      addSourceRecursive b g src (d.removeDecoded src.id rCit)
    else d.attemptFullDecoding b g

/-- Add a useful repair to the set of known repairs. -/
def addRepair (r : DecoderRepair) (d : Decoder w) : Except Fault (Decoder w) := do
  b.assert .repairAlreadyProcessed (!d.repairs.contains r.id)
  let d := { d with repairs := d.repairs.insert r.id r }
  let d ← r.sourceIds.toList.reverse.foldlM (link b g r.id) d
  d.useRepair b g r.id

/-- All sources a repair references were correctly received. -/
def useless (r : DecoderRepair) (d : Decoder w) : Bool :=
  r.sourceIds.toList.all (fun id => d.sources.contains id)

/-- What to do when a repair is received. -/
def receiveRepair (r : DecoderRepair) (d : Decoder w) : Except Fault (Decoder w) := do
  b.assert .emptyRepair (!r.sourceIds.isEmpty)
  match r.sourceIds.toList with
  | [] => .error (.undefined .emptyList)
  | first :: rest =>
    if d.outdated ((first :: rest).getLast (List.cons_ne_nil _ _)) then .ok d
    else if d.repairs.contains r.id then .ok d
    else do
      let d ← d.dropOutdated b first
      if d.useless r then .ok { d with nbUselessRepairs := d.nbUselessRepairs + 1 }
      else d.addRepair b g r

/-- What to do with what is received. -/
def receive (d : Decoder w) : Incoming → Except Fault (Decoder w)
  | .source src => d.receiveSource b g src
  | .repair r => d.receiveRepair b g r

end Decoder

end Netcode.Detail
