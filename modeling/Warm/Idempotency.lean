import Warm.ApiError
import Warm.KeyedTotals

/-! Replay records of idempotent requests: one record a tenant and key, dropped once its completion is a time to live
old, bounded in number and in the bytes of the bodies they keep. Times are nanoseconds of a clock that never goes back.
The operations that hold the lock give nothing where an `expect` of the source would fail. -/
namespace Warm.Server

open KeyedTotals

abbrev Fingerprint := Vector UInt8 32

abbrev Key := String × String

structure StoredResponse where
  status : StatusCode
  body : String
  allocatedBytes : Nat
  committed : Bool
  deriving DecidableEq

inductive RecordState where
  | running
  | done (response : StoredResponse)
  | unreplayable
  deriving DecidableEq

structure Record where
  fingerprint : Fingerprint
  state : RecordState
  deriving DecidableEq

def Record.bytes (record : Record) : Nat :=
  match record.state with
  | .done response => response.allocatedBytes
  | _ => 0

structure Inner where
  records : AList fun _ : Key => Record
  completed : List (Nat × Key)
  bodyBytes : Nat

namespace Inner

def empty : Inner := ⟨∅, [], 0⟩

def remove (inner : Inner) (key : Key) : Option Inner :=
  match inner.records.lookup key with
  | some ⟨_, .done response⟩ =>
    if response.allocatedBytes ≤ inner.bodyBytes then
      some { inner with
        records := inner.records.erase key
        bodyBytes := inner.bodyBytes - response.allocatedBytes }
    else
      none
  | _ => some { inner with records := inner.records.erase key }

/-- The loop that drops what is a time to live old from the front of the queue. -/
def expire (ttl now : Nat) (inner : Inner) : List (Nat × Key) → Option Inner
  | [] => some { inner with completed := [] }
  | (created, expired) :: rest =>
    if now - created ≥ ttl then
      (inner.remove expired).bind fun inner => inner.expire ttl now rest
    else
      some { inner with completed := (created, expired) :: rest }

end Inner

/-- What only a known transient failure is. -/
def StoredResponse.retryable (response : StoredResponse) : Bool :=
  !response.committed && (response.status.isServerError || response.status.code == 408 || response.status.code == 429)

structure Idempotency where
  ttl : Nat
  capacity : Nat
  maxBytes : Nat
  inner : Inner

inductive Begin where
  /-- A guard for the key. -/
  | proceed (key : Key)
  | replay (response : StoredResponse)
  deriving DecidableEq

namespace Idempotency

def new (ttl capacity maxBytes : Nat) : Idempotency :=
  ⟨ttl, capacity, maxBytes, .empty⟩

def maxU64 : Nat := 2 ^ 64 - 1

def nanosPerSec : Nat := 10 ^ 9

/-- Seconds until the oldest completion expires, rounded up, one at least. -/
def busyFor (ttl now : Nat) (completed : List (Nat × Key)) : Nat :=
  match completed.head? with
  | none => 1
  | some (created, _) =>
    let remaining := ttl - (now - created)
    max (min (remaining / nanosPerSec + if remaining % nanosPerSec ≠ 0 then 1 else 0) maxU64) 1

def keyReused : ApiError :=
  .new .unprocessableEntity "idempotency_key_reused" "this Idempotency-Key was already used with a different request"

def inFlight : ApiError :=
  (ApiError.new .conflict "idempotency_in_flight" "a request with this Idempotency-Key is still running").retry 1

def reconciliationRequired : ApiError :=
  .new .conflict "idempotency_reconciliation_required"
    "this request may have executed but its response is unavailable; reconcile state before retrying"

def serverBusy (seconds : Nat) : ApiError :=
  (ApiError.new .serviceUnavailable "server_busy" "idempotency capacity is full; retry later").retry seconds

/-- What a begin answers once the old records are gone, and the records it leaves. -/
def admission (store : Idempotency) (id : Key) (fingerprint : Fingerprint) (now : Nat) (inner : Inner) :
    Except ApiError Begin × Inner :=
  match inner.records.lookup id with
  | some record =>
    if record.fingerprint ≠ fingerprint then
      (.error keyReused, inner)
    else
      match record.state with
      | .done response => (.ok (.replay response), inner)
      | .running => (.error inFlight, inner)
      | .unreplayable => (.error reconciliationRequired, inner)
  | none =>
    if inner.records.entries.length ≥ store.capacity then
      (.error (serverBusy (busyFor store.ttl now inner.completed)), inner)
    else
      (.ok (.proceed id), { inner with records := inner.records.insert id ⟨fingerprint, .running⟩ })

def beginAt (store : Idempotency) (id : Key) (fingerprint : Fingerprint) (now : Nat) :
    Option (Except ApiError Begin × Idempotency) :=
  (store.inner.expire store.ttl now store.inner.completed).map fun inner =>
    let (answer, inner) := store.admission id fingerprint now inner
    (answer, { store with inner })

/-- A running record put into its last state, and queued for expiry. -/
def settle (store : Idempotency) (key : Key) (state : RecordState) (bodyBytes now : Nat) : Option Idempotency :=
  (store.inner.records.lookup key).map fun record =>
    { store with
      inner :=
        { records := store.inner.records.insert key { record with state }
          completed := store.inner.completed ++ [(now, key)]
          bodyBytes } }

/-- A guard's `complete`. -/
def complete (store : Idempotency) (key : Key) (response : StoredResponse) (now : Nat) : Option Idempotency :=
  if response.retryable then
    (store.inner.remove key).map fun inner => { store with inner }
  else if response.allocatedBytes ≤ store.maxBytes - store.inner.bodyBytes then
    store.settle key (.done response) (store.inner.bodyBytes + response.allocatedBytes) now
  else
    store.settle key .unreplayable store.inner.bodyBytes now

/-- A guard that goes away before it completes. -/
def drop (store : Idempotency) (key : Key) (now : Nat) : Option Idempotency :=
  store.settle key .unreplayable store.inner.bodyBytes now

end Idempotency

end Warm.Server
