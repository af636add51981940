-- The mutation queue of a user: the batches that the server has not answered
-- yet, as rows of LevelDB, and an index from the documents to the batches. The
-- rows of all users stand in the same tables.
import EasyVerbs.LevelDbKey
import EasyVerbs.LevelDbTransaction

namespace EasyVerbs.Firestore

open Codes SortedRows

/-! ## Batches and rows -/

structure Timestamp where
  seconds : ℤ
  nanoseconds : ℤ
  deriving DecidableEq, Repr

/-- A mutation: its document, and what it does with it. -/
structure Mutation (α : Type) where
  key : DocumentKey
  change : α
  deriving DecidableEq

/-- A batch without mutations cannot be created. -/
structure MutationBatch (α : Type) where
  batchId : ℤ
  localWriteTime : Timestamp
  baseMutations : List (Mutation α)
  mutations : List (Mutation α)
  notEmpty : mutations ≠ []
  deriving DecidableEq

def kBatchIdUnknown : ℤ := -1

/-- What the rows hold. The messages are kept decoded. -/
inductive Value (α : Type)
  | writeBatch (batch : MutationBatch α)
  | mutationQueue (lastStreamToken : List Byte)
  | buffer (bytes : List Byte)
  deriving DecidableEq

instance (α : Type) : Inhabited (Value α) := ⟨.buffer []⟩

abbrev emptyBuffer {α : Type} : Value α := .buffer []

variable {α υ : Type}

/-- `n + 1`, for an `int32_t`. -/
def increment (n : ℤ) : Checked ℤ := if IsInt32 (n + 1) then .ok (n + 1) else .error .undefined

/-- Whether a call returns something, or `false`. -/
def succeeds (x : Checked υ) : Checked (Option υ) :=
  match x with
  | .ok v => .ok (some v)
  | .error .returnsFalse => .ok none
  | .error e => .error e

/-! ## Scans -/

/-- More turns than a loop over the rows of a transaction can take. -/
def LevelDbTransaction.turns (txn : LevelDbTransaction υ) : ℕ := txn.commit.rows.length + 1

/-- `for (; it->Valid() && more(it->key()); it->Next())`: the rows of the turns. -/
def Iterator.rowsWhile (txn : LevelDbTransaction υ) (more : Key → Checked Bool) :
    ℕ → Iterator υ → Checked (List (Row υ))
  | 0, _ => .error .endless
  | turns + 1, it =>
    match it.entry with
    | none => .ok []
    | some row => do
      if ← more row.1 then
        let it ← it.next txn
        return row :: (← rowsWhile txn more turns it)
      else return []

def LevelDbTransaction.scan [Inhabited υ] (txn : LevelDbTransaction υ) (start : Key)
    (more : Key → Checked Bool) : Checked (List (Row υ)) :=
  (txn.newIterator.seek txn start).rowsWhile txn more txn.turns

/-- An iterator of LevelDB itself. It can go back. The rows before it are in reverse. -/
structure DbIterator (υ : Type) where
  before : List (Row υ)
  rest : List (Row υ)

namespace DbIterator

def valid (it : DbIterator υ) : Bool := !it.rest.isEmpty

def seek (db : Table Key υ) (key : Key) : DbIterator υ := ⟨(db.upTo key).reverse, db.seek key⟩

def seekToLast (db : Table Key υ) : DbIterator υ :=
  match db.rows.reverse with
  | [] => ⟨[], []⟩
  | row :: before => ⟨before, [row]⟩

/-- LevelDB requires a valid iterator. Before the first row it becomes invalid. -/
def prev (it : DbIterator υ) : Checked (DbIterator υ) :=
  match it.rest, it.before with
  | [], _ => .error .undefined
  | _ :: _, [] => .ok ⟨[], []⟩
  | row :: rest, last :: before => .ok ⟨before, last :: row :: rest⟩

def key (it : DbIterator υ) : Checked Key :=
  match it.rest with
  | [] => .error .undefined
  | row :: _ => .ok row.1

end DbIterator

/-! ## The queue -/

structure LevelDbMutationQueue where
  userId : List Byte
  nextBatchId : ℤ
  lastStreamToken : List Byte
  deriving DecidableEq, Repr

/-- What a block of a transaction works on: the transaction with its sequence number, and the
paths in the cache of the index manager. -/
structure Persistence (α : Type) where
  transaction : LevelDbTransaction (Value α)
  currentSequenceNumber : ℤ
  collectionParentsCache : List (List Byte × List (List Byte))

namespace Persistence

variable (p : Persistence α)

def put (key : Key) (value : Value α) : Persistence α :=
  { p with transaction := p.transaction.put key value }

def delete (key : Key) : Persistence α := { p with transaction := p.transaction.delete key }

/-- `AddToCollectionParentIndex`. A path in the cache has its row already. -/
def addToCollectionParentIndex (collectionPath : List (List Byte)) : Checked (Persistence α) := do
  hardAssert (collectionPath.length % 2 = 1)
  let collectionId := collectionPath.getLastD []
  let parentPath := collectionPath.dropLast
  if (collectionId, parentPath) ∈ p.collectionParentsCache then return p
  else do
    let key ← LevelDbCollectionParentKey.key collectionId parentPath
    let p := { p with collectionParentsCache := (collectionId, parentPath) :: p.collectionParentsCache }
    return p.put key emptyBuffer

/-- `RemoveMutationReference` of the reference delegate, which writes a sentinel. -/
def removeMutationReference (key : DocumentKey) : Checked (Persistence α) := do
  let sentinelKey ← LevelDbDocumentTargetKey.sentinelKey key
  let sequenceNumber ← LevelDbDocumentTargetKey.encodeSentinelValue p.currentSequenceNumber
  return p.put sentinelKey (.buffer sequenceNumber)

end Persistence

/-- A user id of the loop is in the table, and the loop ends with the last one. -/
def loadNextBatchIdLoop (db : Table Key (Value α)) : ℕ → List Byte → ℤ → Checked ℤ
  | 0, _, _ => .error .endless
  | turns + 1, nextUserId, maxBatchId => do
    -- The first key after the last mutation of the user.
    let userEnd := prefixSuccessor (← LevelDbMutationKey.keyPrefix nextUserId)
    let it := DbIterator.seek db userEnd
    let nextRow ← if it.valid then succeeds (LevelDbMutationKey.decode (← it.key)) else pure none
    let it ← if it.valid then it.prev else pure (DbIterator.seekToLast db)
    match ← succeeds (LevelDbMutationKey.decode (← it.key)) with
    | none => .error .hardAssert
    | some rowKey =>
      let maxBatchId := if rowKey.batchId > maxBatchId then rowKey.batchId else maxBatchId
      match nextRow with
      | some row => loadNextBatchIdLoop db turns row.userId maxBatchId
      | none => increment maxBatchId

def loadNextBatchIdFromDb (db : Table Key (Value α)) : Checked ℤ := do
  let it := DbIterator.seek db (← LevelDbMutationKey.tableKeyPrefix)
  let firstRow ← if it.valid then succeeds (LevelDbMutationKey.decode (← it.key)) else pure none
  match firstRow with
  | some row => loadNextBatchIdLoop db (db.rows.length + 1) row.userId 0
  | none => increment 0

/-- `DocumentKeySet`s and sets of batch ids are lists here. A set of ids is in order. -/
def insertBatchId (batchId : ℤ) : List ℤ → List ℤ
  | [] => [batchId]
  | other :: batchIds =>
    if batchId < other then batchId :: other :: batchIds
    else if batchId = other then other :: batchIds
    else other :: insertBatchId batchId batchIds

def startsWith (start : Key) (key : Key) : Checked Bool := return start.isPrefixOf key

/-- `ParseMutationBatch`. -/
def parseMutationBatch : Value α → Checked (MutationBatch α)
  | .writeBatch batch => .ok batch
  | _ => .error .hardAssert

/-- `MetadataForKey`: without a row it is the default message. -/
def metadataForKey (txn : LevelDbTransaction (Value α)) (key : Key) : Checked (List Byte) :=
  match txn.get key with
  | some (.mutationQueue lastStreamToken) => .ok lastStreamToken
  | some _ => .error .hardAssert
  | none => .ok []

namespace LevelDbMutationQueue

/-- A queue before its start. -/
def ofUser (user : User) : LevelDbMutationQueue := ⟨user.userId, 0, []⟩

variable (q : LevelDbMutationQueue)

def mutationQueueKey : Checked Key := LevelDbMutationQueueKey.key q.userId

def mutationBatchKey (batchId : ℤ) : Checked Key := LevelDbMutationKey.key q.userId batchId

/-- The batch ids are read from the committed rows. -/
def start (txn : LevelDbTransaction (Value α)) : Checked LevelDbMutationQueue := do
  let nextBatchId ← loadNextBatchIdFromDb txn.db
  let lastStreamToken ← metadataForKey txn (← q.mutationQueueKey)
  return { q with nextBatchId, lastStreamToken }

def isEmpty (txn : LevelDbTransaction (Value α)) : Checked Bool := do
  let userKey ← LevelDbMutationKey.keyPrefix q.userId
  match (txn.newIterator.seek txn userKey).entry with
  | some row => return !(← startsWith userKey row.1)
  | none => return true

def setLastStreamToken (p : Persistence α) (streamToken : List Byte) :
    Checked (LevelDbMutationQueue × Persistence α) := do
  return ({ q with lastStreamToken := streamToken },
    p.put (← q.mutationQueueKey) (.mutationQueue streamToken))

/-- The rows of the index for the mutations of a batch. -/
def addIndexRows (batchId : ℤ) : List (Mutation α) → Persistence α → Checked (Persistence α)
  | [], p => return p
  | mutation :: mutations, p => do
    let key ← LevelDbDocumentMutationKey.key q.userId mutation.key batchId
    let p ← (p.put key emptyBuffer).addToCollectionParentIndex mutation.key.path.dropLast
    addIndexRows batchId mutations p

def addMutationBatch (p : Persistence α) (localWriteTime : Timestamp)
    (baseMutations mutations : List (Mutation α)) :
    Checked (MutationBatch α × LevelDbMutationQueue × Persistence α) := do
  let batchId := q.nextBatchId
  let nextBatchId ← increment q.nextBatchId
  if h : mutations ≠ [] then
    let batch := { batchId, localWriteTime, baseMutations, mutations, notEmpty := h }
    let p ← q.addIndexRows batchId mutations (p.put (← q.mutationBatchKey batchId) (.writeBatch batch))
    return (batch, { q with nextBatchId }, p)
  else .error .hardAssert

def removeIndexRows (batchId : ℤ) : List (Mutation α) → Persistence α → Checked (Persistence α)
  | [], p => return p
  | mutation :: mutations, p => do
    let key ← LevelDbDocumentMutationKey.key q.userId mutation.key batchId
    let p ← (p.delete key).removeMutationReference mutation.key
    removeIndexRows batchId mutations p

def removeMutationBatch (p : Persistence α) (batch : MutationBatch α) : Checked (Persistence α) := do
  let key ← q.mutationBatchKey batch.batchId
  match (p.transaction.newIterator.seek p.transaction key).entry with
  | none => .error .hardAssert
  | some row =>
    hardAssert (key = row.1)
    q.removeIndexRows batch.batchId batch.mutations (p.delete key)

def allMutationBatches (txn : LevelDbTransaction (Value α)) : Checked (List (MutationBatch α)) := do
  let userKey ← LevelDbMutationKey.keyPrefix q.userId
  let rows ← txn.scan userKey (startsWith userKey)
  rows.mapM fun row => parseMutationBatch row.2

/-- Whether a row of the index is for exactly this document. -/
def isRowOf (indexPrefix : Key) (documentKey : DocumentKey) (key : Key) : Checked Bool := do
  if ← startsWith indexPrefix key then
    match ← succeeds (LevelDbDocumentMutationKey.decode key) with
    | some rowKey => return rowKey.documentKey = documentKey
    | none => return false
  else return false

/-- The batch ids of rows that decode. -/
def rowBatchId (row : Row υ) : Checked ℤ := do
  return (← LevelDbDocumentMutationKey.decode row.1).batchId

/-- The ids of the batches that affect the documents. -/
def batchIdsOf (txn : LevelDbTransaction (Value α)) : List DocumentKey → List ℤ → Checked (List ℤ)
  | [], batchIds => return batchIds
  | documentKey :: documentKeys, batchIds => do
    let indexPrefix ← LevelDbDocumentMutationKey.pathKeyPrefix q.userId documentKey.path
    let rows ← txn.scan indexPrefix (isRowOf indexPrefix documentKey)
    let ids ← rows.mapM rowBatchId
    batchIdsOf txn documentKeys (ids.foldl (fun batchIds batchId => insertBatchId batchId batchIds) batchIds)

/-- `AllMutationBatchesWithIds`. An id without a batch stops the app. -/
def allMutationBatchesWithIds (txn : LevelDbTransaction (Value α)) (batchIds : List ℤ) :
    Checked (List (MutationBatch α)) :=
  batchIds.mapM fun batchId => do
    let mutationKey ← q.mutationBatchKey batchId
    match (txn.newIterator.seek txn mutationKey).entry with
    | none => .error .hardAssert
    | some row =>
      hardAssert (row.1 = mutationKey)
      parseMutationBatch row.2

def allMutationBatchesAffectingDocumentKeys (txn : LevelDbTransaction (Value α))
    (documentKeys : List DocumentKey) : Checked (List (MutationBatch α)) := do
  q.allMutationBatchesWithIds txn (← q.batchIdsOf txn documentKeys [])

def lookupMutationBatch (txn : LevelDbTransaction (Value α)) (batchId : ℤ) :
    Checked (Option (MutationBatch α)) := do
  match txn.get (← q.mutationBatchKey batchId) with
  | none => return none
  | some value => return some (← parseMutationBatch value)

def nextMutationBatchAfterBatchId (txn : LevelDbTransaction (Value α)) (batchId : ℤ) :
    Checked (Option (MutationBatch α)) := do
  let nextBatchId ← increment batchId
  let key ← q.mutationBatchKey nextBatchId
  match (txn.newIterator.seek txn key).entry with
  | none => return none
  | some row =>
    match ← succeeds (LevelDbMutationKey.decode row.1) with
    | none => return none
    | some rowKey =>
      if rowKey.userId ≠ q.userId then return none
      else do
        hardAssert (nextBatchId ≤ rowKey.batchId)
        return some (← parseMutationBatch row.2)

/-- The iterator of LevelDB does not see the changes of the transaction. -/
def getHighestUnacknowledgedBatchId (db : Table Key (Value α)) : Checked ℤ := do
  let nextUserKey := prefixSuccessor (← LevelDbMutationKey.keyPrefix q.userId)
  let it ← (DbIterator.seek db nextUserKey).prev
  if it.valid then
    match ← succeeds (LevelDbMutationKey.decode (← it.key)) with
    | some rowKey => return if rowKey.userId = q.userId then rowKey.batchId else kBatchIdUnknown
    | none => return kBatchIdUnknown
  else return kBatchIdUnknown

/-- An empty queue has no rows in the index. -/
def performConsistencyCheck (txn : LevelDbTransaction (Value α)) : Checked Unit := do
  if ← q.isEmpty txn then
    let indexPrefix ← LevelDbDocumentMutationKey.keyPrefix q.userId
    let danglingMutationReferences ← txn.scan indexPrefix (startsWith indexPrefix)
    hardAssert danglingMutationReferences.isEmpty
  else return ()

end LevelDbMutationQueue
end EasyVerbs.Firestore
