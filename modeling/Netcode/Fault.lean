import Netcode.Library.Runs

/-! What stops a call other than a return: failed assertions, undefined operations, exceptions. -/
namespace Netcode

/-- The assertions of the modelled files. -/
inductive Assertion
  | emptyRepair            -- decoder(repair): not incoming_r.source_ids().empty()
  | repairAlreadyProcessed -- decoder(repair): insertion.second
  | allSourcesKnown        -- decoder(repair): not r.source_ids().empty()
  | encodesSeveral         -- create_source_from_repair: r.source_ids().size() == 1
  | sourceNotInRepair      -- remove_source_from_repair: id_search != end
  | outdatedDecoded        -- add_source_recursive: decoded id >= m_last_id
  | knownDecoded           -- add_source_recursive: decoded id not in m_sources
  | sourceAlreadyAdded     -- add_source_recursive, attempt_full_decoding: insertion.second
  | emptyStoredRepair      -- drop_outdated: not r.source_ids().empty()
  | encodesOnlyOne         -- remove_source_data_from_repair: r.source_ids().size() > 1
  | sourceTooLong          -- remove_source_data_from_repair: src size <= r size
  | moreRepairs            -- attempt_full_decoding: as many missing sources as repairs
  | oneMissingSource       -- attempt_full_decoding: more than one missing source
  | noCoefficient          -- attempt_full_decoding: repair_row != m_repairs.size()
  | notFirstMissing        -- flush_ordered_sources: cit->first == m_first_missing
  | dimensions             -- invert: mat.dimension() == inv.dimension()
  | zeroInverse            -- galois_field::invert: coef != 0
  | emptySourceList        -- encoder: sources.size()
  | emptyRepairSymbol      -- write_repair: r.symbol().size() > 0
  | emptyData              -- encoder(data): d.size() != 0
  | partialData            -- encoder(data): d.size() multiple of the word size
  | emptyPacket            -- operator()(packet): p.size() != 0
  | zeroParameter          -- set_rate, set_window_size, set_ack_nb_packets: argument > 0
  | wrongPacketType        -- read_*: packet type verified by the caller
deriving DecidableEq, Repr

/-- The operations the language or gf_complete leaves undefined that the modelled code can reach. -/
inductive Undefined
  | emptyList       -- first or last element of an empty identifier list
  | danglingCursor  -- miss_cit used after the entry it denotes was erased
  | danglingRepair  -- iterator to an erased repair
  | danglingSource  -- pointer to an erased source
  | endIterator     -- m_missing_sources.find(...) dereferenced at end(), or a stream read at its end
  | outOfBuffer     -- access past an allocation
  | partialWord     -- region whose length is no multiple of the word size
  | uninitialized   -- read of an uninitialised matrix entry
  | outOfIndex      -- access past the end of a vector
  | divisionByZero  -- modulo by a zero rate or inverse of zero
deriving DecidableEq, Repr

/-- Why a call does not return. -/
inductive Fault
  | assertion (a : Assertion)
  /-- A symbol is accessed past its symbol size, but inside its packet's buffer. -/
  | overrun
  | undefined (u : Undefined)
  /-- The bound a loop of the model carries is exhausted. -/
  | outOfFuel
deriving DecidableEq, Repr

/-- The exceptions of errors.hh. -/
inductive Exception
  | packetTypeError
  | overflowError
deriving DecidableEq, Repr

/-- A call of the packet layer either faults or throws. -/
inductive Stop
  | fault (f : Fault)
  | thrown (e : Exception)
deriving DecidableEq, Repr

/-- What a build checks while it runs: its assertions, and that symbols are accessed within
their symbol size. -/
structure Build where
  asserts : Bool
  bounds : Bool
deriving DecidableEq

namespace Build

/-- The default build, with assertions compiled out. -/
def release : Build := ⟨false, false⟩

def debug : Build := ⟨true, false⟩

/-- A debug build that also checks every access to a symbol against its symbol size. -/
def checked : Build := ⟨true, true⟩

def assert (b : Build) (a : Assertion) (c : Bool) : Except Fault Unit :=
  if b.asserts && !c then .error (.assertion a) else .ok ()

/-- Access to the first `len` bytes of a symbol of `size` bytes. -/
def within (b : Build) (len size : ℕ) : Except Fault Unit :=
  if b.bounds && decide (size < len) then .error .overrun else .ok ()

variable {b : Build} {a : Assertion} {c : Bool} {len size : ℕ} {u : Unit}

theorem assert_ok_iff : b.assert a c = .ok u ↔ (b.asserts = true → c = true) := by
  cases h : b.asserts <;> cases c <;> simp [assert, h]

@[simp] theorem assert_true : b.assert a true = .ok () := by simp [assert]

theorem assert_eq_ok (h : c = true) : b.assert a c = .ok () := by simp [h]

theorem assert_fails {Q : Fault → Prop} (h : c = true ∨ Q (.assertion a)) :
    Runs.FailsOnly Q (b.assert a c) := by
  rw [assert]
  split
  · next hc => exact Runs.failsOnly_error (h.resolve_left (by rintro rfl; simp at hc))
  · exact Runs.failsOnly_ok ()

theorem within_eq_ok (h : len ≤ size) : b.within len size = .ok () := by
  simp [within, Nat.not_lt.mpr h]

end Build

end Netcode
