-- The local store of the client, as far as it keeps writes. Each call is a
-- transaction on LevelDB of its own, the app can stop between any two of them,
-- and users come and go. What the rows are for is one list: the writes of all
-- users that the server has not answered, in the order they were made.
import EasyVerbs.BatchResults

namespace EasyVerbs.Firestore

open SortedRows Runs

variable {α : Type}

/-! ## The local store -/

structure LocalStore (α : Type) where
  db : Table Key (Value α)
  mutationQueue : LevelDbMutationQueue
  collectionParentsCache : List (List Byte × List (List Byte))

/-- The calls that write, and those of the other parts. A call brings along the sequence number of
its transaction and the documents that the transaction finds. -/
inductive StoreCall (α : Type)
  | start (user : User)
  | handleUserChange (user : User)
  | writeLocally (localWriteTime : Timestamp) (baseMutations mutations : List (Mutation α))
  | acknowledgeBatch (sequenceNumber : ℤ) (batchResult : MutationBatchResult α) (documents : RemoteDocuments α)
  | rejectBatch (sequenceNumber : ℤ) (batchId : ℤ)
  | setLastStreamToken (streamToken : List Byte)
  | others (rows : List (OtherRow α))

namespace LocalStore

variable (s : LocalStore α)

/-- The transaction of a call, as it begins. -/
def run (sequenceNumber : ℤ) : Persistence α := ⟨.on s.db, sequenceNumber, s.collectionParentsCache⟩

def commit (q : LevelDbMutationQueue) (p : Persistence α) : LocalStore α :=
  ⟨p.transaction.commit, q, p.collectionParentsCache⟩

def startMutationQueue (user : User) : Checked LevelDbMutationQueue :=
  (LevelDbMutationQueue.ofUser user).start (.on s.db)

/-- The app starts: what was only in memory is gone. -/
def start (user : User) : Checked (LocalStore α) := do
  let mutationQueue ← s.startMutationQueue user
  return { s with mutationQueue, collectionParentsCache := [] }

/-- With the batches of the user before and of the new one. -/
def handleUserChange (user : User) :
    Checked (List (MutationBatch α) × List (MutationBatch α) × LocalStore α) := do
  let oldBatches ← s.mutationQueue.allMutationBatches (.on s.db)
  let mutationQueue ← s.startMutationQueue user
  let newBatches ← mutationQueue.allMutationBatches (.on s.db)
  return (oldBatches, newBatches, { s with mutationQueue })

def writeLocally (localWriteTime : Timestamp) (baseMutations mutations : List (Mutation α)) :
    Checked (MutationBatch α × LocalStore α) := do
  let (batch, q, p) ← s.mutationQueue.addMutationBatch (s.run 0) localWriteTime baseMutations mutations
  return (batch, commit q p)

def applyBatchResult (q : LevelDbMutationQueue) (p : Persistence α) (batchResult : MutationBatchResult α)
    (documents : RemoteDocuments α) : Checked (Persistence α) := do
  let p ← batchResult.batch.keys.foldlM (batchResult.applyToDocument documents) p
  q.removeMutationBatch p batchResult.batch

def acknowledgeBatch (sequenceNumber : ℤ) (batchResult : MutationBatchResult α) (documents : RemoteDocuments α) :
    Checked (LocalStore α) := do
  let (q, p) ← s.mutationQueue.setLastStreamToken (s.run sequenceNumber) batchResult.streamToken
  let p ← applyBatchResult q p batchResult documents
  q.performConsistencyCheck p.transaction
  return commit q p

def rejectBatch (sequenceNumber : ℤ) (batchId : ℤ) : Checked (LocalStore α) := do
  let p := s.run sequenceNumber
  match ← s.mutationQueue.lookupMutationBatch p.transaction batchId with
  | none => .error .hardAssert
  | some toReject =>
    let p ← s.mutationQueue.removeMutationBatch p toReject
    s.mutationQueue.performConsistencyCheck p.transaction
    return commit s.mutationQueue p

def setLastStreamToken (streamToken : List Byte) : Checked (LocalStore α) := do
  let (q, p) ← s.mutationQueue.setLastStreamToken (s.run 0) streamToken
  return commit q p

def getNextMutationBatch (batchId : ℤ) : Checked (Option (MutationBatch α)) :=
  s.mutationQueue.nextMutationBatchAfterBatchId (.on s.db) batchId

def step : StoreCall α → Checked (LocalStore α)
  | .start user => s.start user
  | .handleUserChange user => do return (← s.handleUserChange user).2.2
  | .writeLocally localWriteTime baseMutations mutations => do
    return (← s.writeLocally localWriteTime baseMutations mutations).2
  | .acknowledgeBatch sequenceNumber batchResult documents => s.acknowledgeBatch sequenceNumber batchResult documents
  | .rejectBatch sequenceNumber batchId => s.rejectBatch sequenceNumber batchId
  | .setLastStreamToken streamToken => s.setLastStreamToken streamToken
  | .others rows => return commit s.mutationQueue ((s.run 0).changeOthers rows)

end LocalStore

/-! ## What the rows are for -/

/-- The writes that wait, the stream token of each user, and the queue that is open. -/
structure WriteQueues (α : Type) where
  pending : Pending α
  tokens : List Byte → Option (List Byte)
  userId : List Byte
  nextBatchId : ℤ
  lastStreamToken : List Byte

namespace WriteQueues

variable (s : WriteQueues α)

def ofUser (user : User) : Option (WriteQueues α) :=
  if IsInt32 (s.pending.lastBatchId + 1) then
    some { s with
      userId := user.userId
      nextBatchId := s.pending.lastBatchId + 1
      lastStreamToken := (s.tokens user.userId).getD [] }
  else none

def withToken (streamToken : List Byte) : WriteQueues α :=
  { s with
    tokens := fun userId => if userId = s.userId then some streamToken else s.tokens userId
    lastStreamToken := streamToken }

def without (batchId : ℤ) : WriteQueues α :=
  { s with pending := s.pending.filter (·.2.batchId ≠ batchId) }

/-- A call is refused when ids run out, when it writes nothing, and when its batch does not wait. -/
def step [DecidableEq α] (s : WriteQueues α) : StoreCall α → Option (WriteQueues α)
  | .start user => s.ofUser user
  | .handleUserChange user => s.ofUser user
  | .writeLocally localWriteTime baseMutations mutations =>
    if h : mutations ≠ [] ∧ IsInt32 (s.nextBatchId + 1) then
      some { s with
        pending := s.pending ++ [(s.userId, ⟨s.nextBatchId, localWriteTime, baseMutations, mutations, h.1⟩)]
        nextBatchId := s.nextBatchId + 1 }
    else none
  | .acknowledgeBatch sequenceNumber batchResult _ =>
    if (s.userId, batchResult.batch) ∈ s.pending ∧ IsInt64 sequenceNumber then
      some ((s.withToken batchResult.streamToken).without batchResult.batch.batchId)
    else none
  | .rejectBatch sequenceNumber batchId =>
    if batchId ∈ (s.pending.queueOf s.userId).map (·.batchId) ∧ IsInt64 sequenceNumber then
      some (s.without batchId)
    else none
  | .setLastStreamToken streamToken => some (s.withToken streamToken)
  | .others _ => some s

end WriteQueues

/-! ## What the writes of a queue do to the rows -/

section
variable {t : Table Key (Value α)} {B I T R : Key → Value α → Prop} {key : Key} {value : Value α}

/-- A relation with one row put, and with one key deleted. -/
def withRow (key : Key) (value : Value α) (R : Key → Value α → Prop) (k : Key) (v : Value α) : Prop :=
  k = key ∧ v = value ∨ k ≠ key ∧ R k v

def withoutKey (key : Key) (R : Key → Value α → Prop) (k : Key) (v : Value α) : Prop := k ≠ key ∧ R k v

theorem HasRows.put (h : HasRows t B I T) {table : List Byte} (hin : InTable table key) (value : Value α) :
    HasRows (t.put key value) (withRow key value B) (withRow key value I) (withRow key value T) where
  tables row hrow := by
    rcases Table.mem_put.mp hrow with rfl | ⟨-, hrow⟩
    · exact ⟨table, hin⟩
    · exact h.tables row hrow
  batches := h.batches.put
  index := h.index.put
  streamTokens := h.streamTokens.put
  version := by
    obtain ⟨v, hv⟩ := h.version
    by_cases hk : tableCode kVersionGlobalTable ++ labelCode .terminator = key
    · exact ⟨value, Table.mem_put.mpr (Or.inl (by rw [hk]))⟩
    · exact ⟨v, Table.mem_put.mpr (Or.inr ⟨hk, hv⟩)⟩

theorem HasRows.delete (h : HasRows t B I T) {table : List Byte} (hin : InTable table key)
    (hne : table ≠ kVersionGlobalTable) :
    HasRows (t.delete key) (withoutKey key B) (withoutKey key I) (withoutKey key T) where
  tables row hrow := h.tables row (Table.mem_delete.mp hrow).2
  batches := h.batches.delete
  index := h.index.delete
  streamTokens := h.streamTokens.delete
  version := by
    obtain ⟨v, hv⟩ := h.version
    refine ⟨v, Table.mem_delete.mpr ⟨fun hk => hne ?_, hv⟩⟩
    exact (inTable_iff _ _ _).mp (hk ▸ hin)

theorem HasRows.congr {B' I' T' : Key → Value α → Prop} (h : HasRows t B I T)
    (hb : ∀ k v, InTable kMutationsTable k → (B k v ↔ B' k v))
    (hi : ∀ k v, InTable kDocumentMutationsTable k → (I k v ↔ I' k v))
    (ht : ∀ k v, InTable kMutationQueuesTable k → (T k v ↔ T' k v)) : HasRows t B' I' T' :=
  ⟨h.tables, h.batches.congr hb, h.index.congr hi, h.streamTokens.congr ht, h.version⟩

/-- A key of another table makes no difference. -/
theorem withRow_outside {table table' : List Byte} (hin : InTable table' key) (hne : table ≠ table') {k : Key}
    {v : Value α} (hk : InTable table k) : withRow key value R k v ↔ R k v := by
  have hkey : k ≠ key := by
    rintro rfl
    obtain ⟨rest, rfl⟩ := hk
    exact hne ((inTable_iff table' table rest).mp hin).symm
  simp [withRow, hkey]

theorem withoutKey_outside {table table' : List Byte} (hin : InTable table' key) (hne : table ≠ table') {k : Key}
    {v : Value α} (hk : InTable table k) : withoutKey key R k v ↔ R k v := by
  have hkey : k ≠ key := by
    rintro rfl
    obtain ⟨rest, rfl⟩ := hk
    exact hne ((inTable_iff table' table rest).mp hin).symm
  simp [withoutKey, hkey]

end

/-- What a block of a transaction has come to: the rows that its commit would write. -/
structure Persistence.Has (p : Persistence α) (B I T : Key → Value α → Prop) : Prop where
  wellFormed : p.transaction.WellFormed
  rows : HasRows p.transaction.commit B I T

namespace Persistence

variable {p : Persistence α} {B I T : Key → Value α → Prop} {key : Key}

theorem Has.put (h : p.Has B I T) {table : List Byte} (hin : InTable table key) (value : Value α) :
    (p.put key value).Has (withRow key value B) (withRow key value I) (withRow key value T) := by
  refine ⟨h.wellFormed.put key value, ?_⟩
  show HasRows (p.transaction.put key value).commit _ _ _
  rw [p.transaction.commit_put]
  exact h.rows.put hin value

theorem Has.delete (h : p.Has B I T) {table : List Byte} (hin : InTable table key)
    (hne : table ≠ kVersionGlobalTable) :
    (p.delete key).Has (withoutKey key B) (withoutKey key I) (withoutKey key T) := by
  refine ⟨h.wellFormed.delete key, ?_⟩
  show HasRows (p.transaction.delete key).commit _ _ _
  rw [p.transaction.commit_delete]
  exact h.rows.delete hin hne

theorem Has.congr {B' I' T' : Key → Value α → Prop} (h : p.Has B I T)
    (hb : ∀ k v, InTable kMutationsTable k → (B k v ↔ B' k v))
    (hi : ∀ k v, InTable kDocumentMutationsTable k → (I k v ↔ I' k v))
    (ht : ∀ k v, InTable kMutationQueuesTable k → (T k v ↔ T' k v)) : p.Has B' I' T' :=
  ⟨h.wellFormed, h.rows.congr hb hi ht⟩

theorem otherTables_ne {table : List Byte} (h : table ∈ otherTables) : table ≠ kMutationsTable ∧
    table ≠ kDocumentMutationsTable ∧ table ≠ kMutationQueuesTable ∧ table ≠ kVersionGlobalTable := by
  refine ⟨?_, ?_, ?_, ?_⟩ <;> rintro rfl <;> exact absurd h (by decide)

theorem Has.put_other (h : p.Has B I T) {table : List Byte} (hin : InTable table key)
    (hother : table ∈ otherTables) (value : Value α) : (p.put key value).Has B I T := by
  obtain ⟨hm, hd, hq, -⟩ := otherTables_ne hother
  refine (h.put hin value).congr ?_ ?_ ?_
  · exact fun k v => withRow_outside hin hm.symm
  · exact fun k v => withRow_outside hin hd.symm
  · exact fun k v => withRow_outside hin hq.symm

theorem Has.delete_other (h : p.Has B I T) {table : List Byte} (hin : InTable table key)
    (hother : table ∈ otherTables) : (p.delete key).Has B I T := by
  obtain ⟨hm, hd, hq, hversion⟩ := otherTables_ne hother
  refine (h.delete hin hversion).congr ?_ ?_ ?_
  · exact fun k v => withoutKey_outside hin hm.symm
  · exact fun k v => withoutKey_outside hin hd.symm
  · exact fun k v => withoutKey_outside hin hq.symm

theorem changeOthers_has (h : p.Has B I T) (rows : List (OtherRow α)) :
    (p.changeOthers rows).Has B I T ∧
      (p.changeOthers rows).currentSequenceNumber = p.currentSequenceNumber := by
  induction rows generalizing p with
  | nil => exact ⟨h, rfl⟩
  | cons row rows ih =>
    obtain ⟨table, hother, hin⟩ := row.isOther
    unfold changeOthers
    rw [List.foldl_cons]
    cases row.value with
    | some value => exact ih (h.put_other hin hother value)
    | none => exact ih (h.delete_other hin hother)

theorem addToCollectionParentIndex_has (h : p.Has B I T) {path : List (List Byte)} (hodd : path.length % 2 = 1) :
    ∃ p', p.addToCollectionParentIndex path = .ok p' ∧ p'.Has B I T := by
  obtain ⟨rest, hkey⟩ := LevelDbCollectionParentKey.key_eq (path.getLastD []) path.dropLast
  unfold addToCollectionParentIndex
  simp only [hodd, hardAssert, decide_true, if_true, bind, Except.bind, hkey]
  by_cases hcache : (path.getLastD [], path.dropLast) ∈ p.collectionParentsCache
  · rw [if_pos hcache]
    exact ⟨p, rfl, h⟩
  · rw [if_neg hcache]
    have hcached : Has { p with
        collectionParentsCache := (path.getLastD [], path.dropLast) :: p.collectionParentsCache } B I T :=
      ⟨h.wellFormed, h.rows⟩
    have hin : InTable kCollectionParentsTable (tableCode kCollectionParentsTable ++ rest) := List.prefix_append _ _
    exact ⟨_, rfl, hcached.put_other hin (by decide) _⟩

theorem removeMutationReference_has (h : p.Has B I T) (hseq : IsInt64 p.currentSequenceNumber)
    (documentKey : DocumentKey) :
    ∃ p', p.removeMutationReference documentKey = .ok p' ∧ p'.Has B I T ∧
      p'.currentSequenceNumber = p.currentSequenceNumber := by
  obtain ⟨rest, hkey⟩ := LevelDbDocumentTargetKey.sentinelKey_eq documentKey
  unfold removeMutationReference LevelDbDocumentTargetKey.encodeSentinelValue
  rw [hkey, writeSignedNumIncreasing_eq hseq]
  exact ⟨_, rfl, h.put_other (List.prefix_append _ _) (by decide) _, rfl⟩

end Persistence

namespace LevelDbMutationQueue

variable (q : LevelDbMutationQueue) {p : Persistence α} {B I T : Key → Value α → Prop} {batchId : ℤ}

/-- A key of the index for one of the mutations. -/
def IsIndexKey (userId : List Byte) (batchId : ℤ) (mutations : List (Mutation α)) (k : Key) : Prop :=
  ∃ mutation ∈ mutations, k = documentMutationKey userId mutation.key.path batchId

theorem dropLast_length_odd (key : DocumentKey) : key.path.dropLast.length % 2 = 1 := by
  have heven := key.isDocumentKey
  have hpos := List.length_pos_iff.mpr key.notEmpty
  rw [List.length_dropLast]
  omega

theorem isIndexKey_cons {u : List Byte} {mutation : Mutation α} {mutations : List (Mutation α)} {k : Key} :
    IsIndexKey u batchId (mutation :: mutations) k ↔
      k = documentMutationKey u mutation.key.path batchId ∨ IsIndexKey u batchId mutations k := by
  simp [IsIndexKey]

theorem addIndexRows_has (hid : IsInt32 batchId) (mutations : List (Mutation α)) (h : p.Has B I T)
    (hI : ∀ k v, I k v → v = emptyBuffer) :
    ∃ p', q.addIndexRows batchId mutations p = .ok p' ∧
      p'.Has B (fun k v => I k v ∨ IsIndexKey q.userId batchId mutations k ∧ v = emptyBuffer) T := by
  induction mutations generalizing p I with
  | nil => exact ⟨p, rfl, h.congr (fun _ _ _ => Iff.rfl) (fun k v _ => by simp [IsIndexKey]) fun _ _ _ => Iff.rfl⟩
  | cons mutation mutations ih =>
    have hkey := LevelDbDocumentMutationKey.key_eq q.userId mutation.key hid
    have hin := (inTable_documentMutationKey kDocumentMutationsTable q.userId mutation.key.path batchId).mpr rfl
    have hput : (p.put (documentMutationKey q.userId mutation.key.path batchId) emptyBuffer).Has B
        (fun k v => I k v ∨ k = documentMutationKey q.userId mutation.key.path batchId ∧ v = emptyBuffer) T := by
      refine (h.put hin emptyBuffer).congr ?_ ?_ ?_
      · exact fun k v => withRow_outside hin (by decide)
      · intro k v _
        unfold withRow
        have hempty := hI k v
        tauto
      · exact fun k v => withRow_outside hin (by decide)
    obtain ⟨p1, hparent, hp1⟩ := Persistence.addToCollectionParentIndex_has hput (dropLast_length_odd mutation.key)
    obtain ⟨p', hrest, hp'⟩ := ih hp1 (by rintro k v (hk | ⟨-, hv⟩); exacts [hI k v hk, hv])
    refine ⟨p', ?_, hp'.congr (fun _ _ _ => Iff.rfl) (fun k v _ => ?_) fun _ _ _ => Iff.rfl⟩
    · rw [addIndexRows, hkey]
      simp only [bind, Except.bind, hparent, hrest]
    · rw [isIndexKey_cons]
      tauto

theorem removeIndexRows_has (hid : IsInt32 batchId) (mutations : List (Mutation α)) (h : p.Has B I T)
    (hseq : IsInt64 p.currentSequenceNumber) :
    ∃ p', q.removeIndexRows batchId mutations p = .ok p' ∧
      p'.Has B (fun k v => ¬ IsIndexKey q.userId batchId mutations k ∧ I k v) T := by
  induction mutations generalizing p I with
  | nil => exact ⟨p, rfl, h.congr (fun _ _ _ => Iff.rfl) (fun k v _ => by simp [IsIndexKey]) fun _ _ _ => Iff.rfl⟩
  | cons mutation mutations ih =>
    have hkey := LevelDbDocumentMutationKey.key_eq q.userId mutation.key hid
    have hin := (inTable_documentMutationKey kDocumentMutationsTable q.userId mutation.key.path batchId).mpr rfl
    have hdelete : (p.delete (documentMutationKey q.userId mutation.key.path batchId)).Has B
        (withoutKey (documentMutationKey q.userId mutation.key.path batchId) I) T := by
      refine (h.delete hin (by decide)).congr ?_ (fun _ _ _ => Iff.rfl) ?_
      · exact fun k v => withoutKey_outside hin (by decide)
      · exact fun k v => withoutKey_outside hin (by decide)
    obtain ⟨p1, hreference, hp1, hseq1⟩ :=
      Persistence.removeMutationReference_has hdelete hseq mutation.key
    obtain ⟨p', hrest, hp'⟩ := ih hp1 (hseq1 ▸ hseq)
    refine ⟨p', ?_, hp'.congr (fun _ _ _ => Iff.rfl) (fun k v _ => ?_) fun _ _ _ => Iff.rfl⟩
    · rw [removeIndexRows, hkey]
      simp only [bind, Except.bind, hreference, hrest]
    · rw [isIndexKey_cons, withoutKey]
      tauto

/-- A stream token goes to the row of the user. -/
theorem setLastStreamToken_has {tokens : List Byte → Option (List Byte)} (h : p.Has B I (tokenRow tokens))
    (streamToken : List Byte) :
    ∃ p', q.setLastStreamToken p streamToken = .ok ({ q with lastStreamToken := streamToken }, p') ∧
      p'.Has B I (tokenRow fun userId => if userId = q.userId then some streamToken else tokens userId) ∧
      p'.currentSequenceNumber = p.currentSequenceNumber := by
  have hin := (inTable_mutationQueueKey kMutationQueuesTable q.userId).mpr rfl
  unfold setLastStreamToken LevelDbMutationQueue.mutationQueueKey
  rw [LevelDbMutationQueueKey.key_eq]
  refine ⟨_, rfl, (h.put hin (.mutationQueue streamToken)).congr ?_ ?_ ?_, rfl⟩
  · exact fun k v => withRow_outside hin (by decide)
  · exact fun k v => withRow_outside hin (by decide)
  · intro k v _
    constructor
    · rintro (⟨rfl, rfl⟩ | ⟨hne, userId, token, htoken, rfl, rfl⟩)
      · exact ⟨q.userId, streamToken, if_pos rfl, rfl, rfl⟩
      · have hu : userId ≠ q.userId := fun hu => hne (by rw [hu])
        exact ⟨userId, token, (if_neg hu).trans htoken, rfl, rfl⟩
    · rintro ⟨userId, token, htoken, rfl, rfl⟩
      dsimp only at htoken
      by_cases hu : userId = q.userId
      · rw [if_pos hu, Option.some.injEq] at htoken
        exact Or.inl ⟨by rw [hu], by rw [htoken]⟩
      · rw [if_neg hu] at htoken
        exact Or.inr ⟨fun hkey => hu (mutationQueueKey_inj hkey), userId, token, htoken, rfl, rfl⟩

theorem batchRow_append (xs ys : Pending α) (k : Key) (v : Value α) :
    batchRow (xs ++ ys) k v ↔ batchRow xs k v ∨ batchRow ys k v := by
  simp only [batchRow, List.mem_append, or_and_right, exists_or]

theorem indexRow_append (xs ys : Pending α) (k : Key) (v : Value α) :
    indexRow (xs ++ ys) k v ↔ indexRow xs k v ∨ indexRow ys k v := by
  simp only [indexRow, List.mem_append, or_and_right, exists_or]

theorem indexRow_singleton (u : List Byte) (batch : MutationBatch α) (k : Key) (v : Value α) :
    indexRow [(u, batch)] k v ↔ IsIndexKey u batch.batchId batch.mutations k ∧ v = emptyBuffer := by
  constructor
  · rintro ⟨e, he, mutation, hm, rfl, rfl⟩
    cases List.mem_singleton.mp he
    exact ⟨⟨mutation, hm, rfl⟩, rfl⟩
  · rintro ⟨⟨mutation, hm, rfl⟩, rfl⟩
    exact ⟨_, List.mem_singleton.mpr rfl, mutation, hm, rfl, rfl⟩

section
variable {pending : Pending α} {tokens : List Byte → Option (List Byte)}

/-- A batch that is added stands behind all others. -/
theorem addMutationBatch_has (h : p.Has (batchRow pending) (indexRow pending) T) (hn : pending.Numbered)
    (hlt : ∀ e ∈ pending, e.2.batchId < q.nextBatchId) (hid : IsInt32 q.nextBatchId)
    (hnext : IsInt32 (q.nextBatchId + 1)) (localWriteTime : Timestamp) (baseMutations : List (Mutation α))
    {mutations : List (Mutation α)} (hne : mutations ≠ []) :
    ∃ p', q.addMutationBatch p localWriteTime baseMutations mutations =
        .ok (⟨q.nextBatchId, localWriteTime, baseMutations, mutations, hne⟩,
          { q with nextBatchId := q.nextBatchId + 1 }, p') ∧
      p'.Has (batchRow (pending ++ [(q.userId, ⟨q.nextBatchId, localWriteTime, baseMutations, mutations, hne⟩)]))
        (indexRow (pending ++ [(q.userId, ⟨q.nextBatchId, localWriteTime, baseMutations, mutations, hne⟩)])) T := by
  have hin := (inTable_mutationKey kMutationsTable q.userId q.nextBatchId).mpr rfl
  generalize hbatch : (⟨q.nextBatchId, localWriteTime, baseMutations, mutations, hne⟩ : MutationBatch α) = batch
  have hbatchId : batch.batchId = q.nextBatchId := by rw [← hbatch]
  have hmutations : batch.mutations = mutations := by rw [← hbatch]
  have hput : (p.put (mutationKey q.userId q.nextBatchId) (.writeBatch batch)).Has
      (batchRow (pending ++ [(q.userId, batch)])) (indexRow pending) T := by
    refine (h.put hin (.writeBatch batch)).congr ?_ ?_ ?_
    · intro k v _
      have hother : batchRow pending k v → k ≠ mutationKey q.userId q.nextBatchId := by
        rintro ⟨e, he, rfl, -⟩ hkey
        exact (hlt e he).ne (mutationKey_inj (hn.isInt32 e he) hid hkey).2
      have hone : batchRow [(q.userId, batch)] k v ↔
          k = mutationKey q.userId q.nextBatchId ∧ v = .writeBatch batch := by
        simp [batchRow, hbatchId]
      rw [batchRow_append, hone, withRow]
      tauto
    · exact fun k v => withRow_outside hin (by decide)
    · exact fun k v => withRow_outside hin (by decide)
  obtain ⟨p', hadd, hp'⟩ := q.addIndexRows_has hid mutations hput (by
    rintro k v ⟨e, -, mutation, -, -, rfl⟩
    rfl)
  refine ⟨p', ?_, hp'.congr (fun _ _ _ => Iff.rfl) (fun k v _ => ?_) fun _ _ _ => Iff.rfl⟩
  · unfold addMutationBatch increment mutationBatchKey
    rw [if_pos hnext]
    simp only [bind, Except.bind, dif_pos hne, LevelDbMutationKey.key_eq _ hid, hbatch, hadd]
    rfl
  · rw [indexRow_append, indexRow_singleton, hbatchId, hmutations]

/-- A batch that is removed takes along its rows of the index. -/
theorem removeMutationBatch_has (h : p.Has (batchRow pending) (indexRow pending) (tokenRow tokens))
    (hn : pending.Numbered) {batch : MutationBatch α} (hmem : (q.userId, batch) ∈ pending)
    (hseq : IsInt64 p.currentSequenceNumber) :
    ∃ p', q.removeMutationBatch p batch = .ok p' ∧
      p'.Has (batchRow (pending.filter (·.2.batchId ≠ batch.batchId)))
        (indexRow (pending.filter (·.2.batchId ≠ batch.batchId))) (tokenRow tokens) := by
  have hid : IsInt32 batch.batchId := hn.isInt32 _ hmem
  have hin := (inTable_mutationKey kMutationsTable q.userId batch.batchId).mpr rfl
  have hkept : ∀ e : List Byte × MutationBatch α, e ∈ pending.filter (·.2.batchId ≠ batch.batchId) ↔
      e ∈ pending ∧ e.2.batchId ≠ batch.batchId :=
    fun e => by rw [List.mem_filter, decide_eq_true_eq]
  have hdelete : (p.delete (mutationKey q.userId batch.batchId)).Has
      (batchRow (pending.filter (·.2.batchId ≠ batch.batchId))) (indexRow pending) (tokenRow tokens) := by
    refine (h.delete hin (by decide)).congr ?_ ?_ ?_
    · intro k v _
      constructor
      · rintro ⟨hne, e, he, rfl, rfl⟩
        refine ⟨e, (hkept e).mpr ⟨he, fun hb => hne ?_⟩, rfl, rfl⟩
        rw [hn.eq_of_batchId he hmem hb]
      · rintro ⟨e, he, rfl, rfl⟩
        obtain ⟨he, hb⟩ := (hkept e).mp he
        exact ⟨fun hkey => hb (mutationKey_inj (hn.isInt32 e he) hid hkey).2, e, he, rfl, rfl⟩
    · exact fun k v => withoutKey_outside hin (by decide)
    · exact fun k v => withoutKey_outside hin (by decide)
  obtain ⟨p', hremove, hp'⟩ := q.removeIndexRows_has hid batch.mutations hdelete hseq
  refine ⟨p', ?_, hp'.congr (fun _ _ _ => Iff.rfl) (fun k v _ => ?_) fun _ _ _ => Iff.rfl⟩
  · have hrep : Represents p.transaction.commit pending tokens := ⟨h.rows, hn⟩
    unfold removeMutationBatch mutationBatchKey
    rw [LevelDbMutationKey.key_eq _ hid]
    simp only [bind, Except.bind, entry_seek_mutationKey hrep hmem, hardAssert, decide_true, if_true, hremove]
  · constructor
    · rintro ⟨hno, e, he, mutation, hm, rfl, rfl⟩
      refine ⟨e, (hkept e).mpr ⟨he, fun hb => hno ?_⟩, mutation, hm, rfl, rfl⟩
      cases hn.eq_of_batchId he hmem hb
      exact ⟨mutation, hm, rfl⟩
    · rintro ⟨e, he, mutation, hm, rfl, rfl⟩
      obtain ⟨he, hb⟩ := (hkept e).mp he
      refine ⟨?_, e, he, mutation, hm, rfl, rfl⟩
      rintro ⟨other, -, hkey⟩
      exact hb (documentMutationKey_inj (hn.isInt32 e he) hid hkey).2.2

end

end LevelDbMutationQueue

/-! ## Runs of the local store -/

/-- The store holds the writes that wait, and its queue is the open one. -/
structure Keeps (s : LocalStore α) (a : WriteQueues α) : Prop where
  represents : Represents s.db a.pending a.tokens
  queue : s.mutationQueue = ⟨a.userId, a.nextBatchId, a.lastStreamToken⟩
  later : ∀ e ∈ a.pending, e.2.batchId < a.nextBatchId
  positive : 1 ≤ a.nextBatchId
  isInt32 : IsInt32 a.nextBatchId
  token : a.lastStreamToken = (a.tokens a.userId).getD []

section
variable {db : Table Key (Value α)} {pending : Pending α} {tokens : List Byte → Option (List Byte)}

theorem Represents.metadataForKey_eq (h : Represents db pending tokens) (u : List Byte) :
    metadataForKey (.on db) (mutationQueueKey u) = .ok ((tokens u).getD []) := by
  have hget : ∀ value, (LevelDbTransaction.on db).get (mutationQueueKey u) = some value ↔
      ∃ token, tokens u = some token ∧ value = .mutationQueue token := by
    intro value
    rw [LevelDbTransaction.get_eq (LevelDbTransaction.wellFormed_on db), LevelDbTransaction.commit_on,
      h.streamTokens.get_eq_some ((inTable_mutationQueueKey _ u).mpr rfl)]
    constructor
    · rintro ⟨v, token, htoken, hkey, rfl⟩
      rw [mutationQueueKey_inj hkey]
      exact ⟨token, htoken, rfl⟩
    · rintro ⟨token, htoken, rfl⟩
      exact ⟨u, token, htoken, rfl, rfl⟩
  unfold metadataForKey
  cases htoken : tokens u with
  | some token =>
    rw [(hget _).mpr ⟨token, htoken, rfl⟩]
    rfl
  | none =>
    cases hrow : (LevelDbTransaction.on db).get (mutationQueueKey u) with
    | none => rfl
    | some value =>
      obtain ⟨token, hsome, -⟩ := (hget value).mp hrow
      rw [htoken] at hsome
      cases hsome

theorem Represents.startMutationQueue_eq {s : LocalStore α} (h : Represents s.db pending tokens) (user : User)
    (hid : IsInt32 (pending.lastBatchId + 1)) :
    s.startMutationQueue user =
      .ok ⟨user.userId, pending.lastBatchId + 1, (tokens user.userId).getD []⟩ := by
  unfold LocalStore.startMutationQueue LevelDbMutationQueue.start LevelDbMutationQueue.mutationQueueKey
  have hload : loadNextBatchIdFromDb (LevelDbTransaction.on s.db).db = .ok (pending.lastBatchId + 1) := by
    rw [show (LevelDbTransaction.on s.db).db = s.db from rfl, loadNextBatchIdFromDb_eq h, increment, if_pos hid]
  rw [hload, LevelDbMutationQueueKey.key_eq]
  simp only [bind, Except.bind, LevelDbMutationQueue.ofUser, h.metadataForKey_eq]
  rfl

theorem Pending.Numbered.lastBatchId_nonneg (h : pending.Numbered) : 0 ≤ pending.lastBatchId := by
  unfold lastBatchId
  cases hlast : pending.getLast? with
  | none => exact le_refl _
  | some e =>
    have hpositive := h.positive e (List.mem_of_getLast? hlast)
    simp only [Option.map_some, Option.getD_some]
    omega

theorem Pending.Numbered.filter (h : pending.Numbered) (p : List Byte × MutationBatch α → Bool) :
    Pending.Numbered (pending.filter p) :=
  ⟨h.inOrder.filter p, fun e he => h.positive e (List.mem_filter.mp he).1,
    fun e he => h.isInt32 e (List.mem_filter.mp he).1⟩

theorem Pending.Numbered.snoc (h : pending.Numbered) {e : List Byte × MutationBatch α}
    (hlt : ∀ d ∈ pending, d.2.batchId < e.2.batchId) (hpositive : 1 ≤ e.2.batchId) (hid : IsInt32 e.2.batchId) :
    Pending.Numbered (pending ++ [e]) := by
  refine ⟨List.pairwise_append.mpr ⟨h.inOrder, List.pairwise_singleton _ _, fun d hd f hf => ?_⟩, ?_, ?_⟩
  · rw [List.mem_singleton.mp hf]
    exact hlt d hd
  · exact List.forall_mem_append.mpr ⟨h.positive, by simpa using hpositive⟩
  · exact List.forall_mem_append.mpr ⟨h.isInt32, by simpa using hid⟩

end

section
variable {s : LocalStore α} {a a' : WriteQueues α}

/-- The block of a call begins with the rows of the store. -/
theorem Represents.run_has (h : Represents s.db a.pending a.tokens) (sequenceNumber : ℤ) :
    (s.run sequenceNumber).Has (batchRow a.pending) (indexRow a.pending) (tokenRow a.tokens) :=
  ⟨LevelDbTransaction.wellFormed_on s.db, h.toHasRows⟩

theorem Keeps.ofUser (h : Represents s.db a.pending a.tokens) {user : User} (ha : a.ofUser user = some a')
    (cache : List (List Byte × List (List Byte))) :
    ∃ q, s.startMutationQueue user = .ok q ∧ Keeps ⟨s.db, q, cache⟩ a' := by
  unfold WriteQueues.ofUser at ha
  split at ha
  · rename_i hid
    cases ha
    have hnonneg := h.numbered.lastBatchId_nonneg
    refine ⟨_, h.startMutationQueue_eq user hid, ⟨h, rfl, fun e he => ?_, ?_, hid, rfl⟩⟩
    · exact Int.lt_add_one_iff.mpr (h.numbered.le_lastBatchId he)
    · show 1 ≤ a.pending.lastBatchId + 1
      omega
  · cases ha

theorem WriteQueues.ofUser_userId {user : User} (ha : a.ofUser user = some a') : a'.userId = user.userId := by
  unfold WriteQueues.ofUser at ha
  split at ha <;> cases ha
  rfl

theorem Keeps.start (h : Represents s.db a.pending a.tokens) {user : User} (ha : a.ofUser user = some a') :
    ∃ s', s.start user = .ok s' ∧ Keeps s' a' := by
  obtain ⟨q, hstart, hkeeps⟩ := Keeps.ofUser h ha []
  refine ⟨_, ?_, hkeeps⟩
  unfold LocalStore.start
  rw [hstart]
  rfl

/-- With the batches that waited for the user before, and those of the new user. -/
theorem Keeps.handleUserChange (h : Keeps s a) {user : User} (ha : a.ofUser user = some a') :
    ∃ s', s.handleUserChange user =
        .ok (a.pending.queueOf a.userId, a.pending.queueOf user.userId, s') ∧ Keeps s' a' := by
  obtain ⟨q, hstart, hkeeps⟩ := Keeps.ofUser h.represents ha s.collectionParentsCache
  have hrep : Represents (LevelDbTransaction.on s.db).commit a.pending a.tokens := h.represents
  have huser : q.userId = user.userId := by
    have hqueue : q = ⟨a'.userId, a'.nextBatchId, a'.lastStreamToken⟩ := hkeeps.queue
    rw [hqueue]
    exact WriteQueues.ofUser_userId ha
  refine ⟨_, ?_, hkeeps⟩
  unfold LocalStore.handleUserChange
  simp only [LevelDbMutationQueue.allMutationBatches_eq _ hrep, hstart, bind, Except.bind, h.queue, huser]
  rfl

theorem Keeps.writeLocally (h : Keeps s a) (localWriteTime : Timestamp) (baseMutations : List (Mutation α))
    {mutations : List (Mutation α)} (hne : mutations ≠ []) (hnext : IsInt32 (a.nextBatchId + 1)) :
    ∃ s', s.writeLocally localWriteTime baseMutations mutations =
        .ok (⟨a.nextBatchId, localWriteTime, baseMutations, mutations, hne⟩, s') ∧
      Keeps s' { a with
        pending := a.pending ++ [(a.userId, ⟨a.nextBatchId, localWriteTime, baseMutations, mutations, hne⟩)]
        nextBatchId := a.nextBatchId + 1 } := by
  obtain ⟨p', hadd, hp'⟩ := LevelDbMutationQueue.addMutationBatch_has
    ⟨a.userId, a.nextBatchId, a.lastStreamToken⟩ (h.represents.run_has 0) h.represents.numbered h.later h.isInt32
    hnext localWriteTime baseMutations hne
  refine ⟨LocalStore.commit ⟨a.userId, a.nextBatchId + 1, a.lastStreamToken⟩ p', ?_, ?_⟩
  · unfold LocalStore.writeLocally
    rw [h.queue, hadd]
    rfl
  · have hpositive := h.positive
    refine ⟨⟨hp'.rows, h.represents.numbered.snoc h.later h.positive h.isInt32⟩, rfl, ?_, ?_, hnext, h.token⟩
    · refine List.forall_mem_append.mpr ⟨fun e he => (h.later e he).trans (lt_add_one _), ?_⟩
      simp
    · show 1 ≤ a.nextBatchId + 1
      omega

/-- A batch that the server has answered, or refused, goes from the rows. -/
theorem Keeps.remove (h : Keeps s a) {p : Persistence α} {tokens : List Byte → Option (List Byte)}
    (hp : p.Has (batchRow a.pending) (indexRow a.pending) (tokenRow tokens)) {q : LevelDbMutationQueue}
    {batch : MutationBatch α} (hmem : (q.userId, batch) ∈ a.pending) (hseq : IsInt64 p.currentSequenceNumber) :
    ∃ p', q.removeMutationBatch p batch = .ok p' ∧ q.performConsistencyCheck p'.transaction = .ok () ∧
      Represents p'.transaction.commit (a.pending.filter (·.2.batchId ≠ batch.batchId)) tokens := by
  obtain ⟨p', hremove, hp'⟩ := q.removeMutationBatch_has hp h.represents.numbered hmem hseq
  have hrep : Represents p'.transaction.commit (a.pending.filter (·.2.batchId ≠ batch.batchId)) tokens :=
    ⟨hp'.rows, h.represents.numbered.filter _⟩
  exact ⟨p', hremove, q.performConsistencyCheck_eq hrep, hrep⟩

theorem Keeps.acknowledgeBatch (h : Keeps s a) {sequenceNumber : ℤ} (hseq : IsInt64 sequenceNumber)
    (batchResult : MutationBatchResult α) (hmem : (a.userId, batchResult.batch) ∈ a.pending)
    (documents : RemoteDocuments α) :
    ∃ s', s.acknowledgeBatch sequenceNumber batchResult documents = .ok s' ∧
      Keeps s' ((a.withToken batchResult.streamToken).without batchResult.batch.batchId) := by
  obtain ⟨p1, htoken, hp1, hseq1⟩ := LevelDbMutationQueue.setLastStreamToken_has
    ⟨a.userId, a.nextBatchId, a.lastStreamToken⟩ (h.represents.run_has sequenceNumber) batchResult.streamToken
  obtain ⟨rows, happly⟩ := MutationBatchResult.foldlM_applyToDocument documents
    (List.Subset.refl batchResult.batch.keys) p1
  obtain ⟨hp2, hseq2⟩ := Persistence.changeOthers_has hp1 rows
  obtain ⟨p3, hremove, hcheck, hrep⟩ := h.remove (q := ⟨a.userId, a.nextBatchId, batchResult.streamToken⟩) hp2 hmem
    (by rw [hseq2, hseq1]; exact hseq)
  refine ⟨LocalStore.commit ⟨a.userId, a.nextBatchId, batchResult.streamToken⟩ p3, ?_, ?_⟩
  · unfold LocalStore.acknowledgeBatch LocalStore.applyBatchResult
    rw [h.queue, htoken]
    simp only [bind, Except.bind, happly, hremove, hcheck]
    rfl
  · refine ⟨hrep, rfl, fun e he => h.later e (List.mem_filter.mp he).1, h.positive, h.isInt32, ?_⟩
    show batchResult.streamToken = (if a.userId = a.userId then some batchResult.streamToken else _).getD []
    rw [if_pos rfl]
    rfl

theorem Keeps.rejectBatch (h : Keeps s a) {sequenceNumber : ℤ} (hseq : IsInt64 sequenceNumber)
    {batch : MutationBatch α} (hmem : (a.userId, batch) ∈ a.pending) :
    ∃ s', s.rejectBatch sequenceNumber batch.batchId = .ok s' ∧ Keeps s' (a.without batch.batchId) := by
  obtain ⟨p', hremove, hcheck, hrep⟩ := h.remove (q := ⟨a.userId, a.nextBatchId, a.lastStreamToken⟩)
    (h.represents.run_has sequenceNumber) hmem hseq
  have hlookup := LevelDbMutationQueue.lookupMutationBatch_eq ⟨a.userId, a.nextBatchId, a.lastStreamToken⟩
    (LevelDbTransaction.wellFormed_on s.db) h.represents (h.represents.numbered.isInt32 _ hmem)
  have hfind : (a.pending.queueOf a.userId).find? (·.batchId = batch.batchId) = some batch := by
    refine (LevelDbMutationQueue.find?_queueOf h.represents.numbered).mpr ⟨hmem, decide_eq_true rfl, ?_⟩
    exact fun other _ hother => (of_decide_eq_true hother : other.batchId = batch.batchId).ge
  refine ⟨LocalStore.commit ⟨a.userId, a.nextBatchId, a.lastStreamToken⟩ p', ?_, ?_⟩
  · unfold LocalStore.rejectBatch
    rw [h.queue]
    rw [hfind] at hlookup
    have hrun : (s.run sequenceNumber).transaction = .on s.db := rfl
    simp only [hrun, hlookup, bind, Except.bind, hremove, hcheck]
    rfl
  · exact ⟨hrep, rfl, fun e he => h.later e (List.mem_filter.mp he).1, h.positive, h.isInt32, h.token⟩

theorem Keeps.setLastStreamToken (h : Keeps s a) (streamToken : List Byte) :
    ∃ s', s.setLastStreamToken streamToken = .ok s' ∧ Keeps s' (a.withToken streamToken) := by
  obtain ⟨p', htoken, hp', -⟩ := LevelDbMutationQueue.setLastStreamToken_has
    ⟨a.userId, a.nextBatchId, a.lastStreamToken⟩ (h.represents.run_has 0) streamToken
  refine ⟨LocalStore.commit ⟨a.userId, a.nextBatchId, streamToken⟩ p', ?_, ?_⟩
  · unfold LocalStore.setLastStreamToken
    rw [h.queue, htoken]
    rfl
  · refine ⟨⟨hp'.rows, h.represents.numbered⟩, rfl, h.later, h.positive, h.isInt32, ?_⟩
    show streamToken = (if a.userId = a.userId then some streamToken else _).getD []
    rw [if_pos rfl]
    rfl

theorem Keeps.others (h : Keeps s a) (rows : List (OtherRow α)) :
    Keeps (LocalStore.commit s.mutationQueue ((s.run 0).changeOthers rows)) a := by
  obtain ⟨hp, -⟩ := Persistence.changeOthers_has (h.represents.run_has 0) rows
  exact ⟨⟨hp.rows, h.represents.numbered⟩, h.queue, h.later, h.positive, h.isInt32, h.token⟩

/-- Each call that the list allows succeeds, and does to the rows what it does to the list. -/
theorem Keeps.step [DecidableEq α] (h : Keeps s a) {c : StoreCall α} (ha : a.step c = some a') :
    ∃ s', s.step c = .ok s' ∧ Keeps s' a' := by
  cases c with
  | start user => exact Keeps.start h.represents ha
  | handleUserChange user =>
    obtain ⟨s', hchange, hkeeps⟩ := h.handleUserChange ha
    refine ⟨s', ?_, hkeeps⟩
    simp only [LocalStore.step, hchange, bind, Except.bind]
    rfl
  | writeLocally localWriteTime baseMutations mutations =>
    simp only [WriteQueues.step] at ha
    split at ha
    · rename_i hne
      obtain ⟨s', hwrite, hkeeps⟩ := h.writeLocally localWriteTime baseMutations hne.1 hne.2
      cases ha
      refine ⟨s', ?_, hkeeps⟩
      simp only [LocalStore.step, hwrite, bind, Except.bind]
      rfl
    · cases ha
  | acknowledgeBatch sequenceNumber batchResult documents =>
    simp only [WriteQueues.step] at ha
    split at ha
    · rename_i hmem
      cases ha
      exact h.acknowledgeBatch hmem.2 batchResult hmem.1 documents
    · cases ha
  | rejectBatch sequenceNumber batchId =>
    simp only [WriteQueues.step] at ha
    split at ha
    · rename_i hmem
      cases ha
      obtain ⟨batch, hbatch, rfl⟩ := List.mem_map.mp hmem.1
      exact h.rejectBatch hmem.2 (Pending.mem_queueOf.mp hbatch)
    · cases ha
  | setLastStreamToken streamToken =>
    cases ha
    exact h.setLastStreamToken streamToken
  | others rows =>
    cases ha
    exact ⟨_, rfl, h.others rows⟩

/-- So does each run of them. -/
theorem Keeps.run [DecidableEq α] (h : Keeps s a) {calls : List (StoreCall α)}
    (ha : calls.foldlM WriteQueues.step a = some a') :
    ∃ s', calls.foldlM LocalStore.step s = .ok s' ∧ Keeps s' a' := by
  induction calls generalizing s a with
  | nil =>
    cases ha
    exact ⟨s, rfl, h⟩
  | cons c calls ih =>
    rw [List.foldlM_cons] at ha
    obtain ⟨b, hb, hrest⟩ := Option.bind_eq_some_iff.mp ha
    obtain ⟨t, ht, hkeeps⟩ := h.step hb
    obtain ⟨s', hs', hkeeps'⟩ := ih hkeeps hrest
    refine ⟨s', ?_, hkeeps'⟩
    rw [List.foldlM_cons, ht]
    exact hs'

end

/-! ## From the start of the app on -/

/-- A store before its first start. -/
def LocalStore.opened (db : Table Key (Value α)) : LocalStore α := ⟨db, .ofUser .unauthenticated, []⟩

def WriteQueues.opened (pending : Pending α) (tokens : List Byte → Option (List Byte)) : WriteQueues α :=
  ⟨pending, tokens, [], 0, []⟩

/-- A database with its schema version alone. -/
def migrated : Table Key (Value α) :=
  Table.empty.put (tableCode kVersionGlobalTable ++ labelCode .terminator) (.buffer (ascii "6"))

theorem mem_migrated {key : Key} {value : Value α} (h : (key, value) ∈ (migrated : Table Key (Value α)).rows) :
    InTable kVersionGlobalTable key := by
  rcases Table.mem_put.mp h with h | ⟨-, h⟩
  · cases h
    exact List.prefix_append _ _
  · cases h

theorem migrated_has {table : List Byte} (hne : table ≠ kVersionGlobalTable) {R : Key → Value α → Prop}
    (hnone : ∀ key value, ¬ R key value) : (migrated : Table Key (Value α)).Has (InTable table) R := by
  intro key value hin
  refine iff_of_false (fun h => ?_) (hnone key value)
  obtain ⟨rest, rfl⟩ := mem_migrated h
  exact hne ((inTable_iff _ _ _).mp hin)

/-- There no write waits. -/
theorem migrated_represents : Represents (migrated : Table Key (Value α)) [] fun _ => none where
  tables row hrow := ⟨_, mem_migrated hrow⟩
  batches := migrated_has (by decide) (by simp [batchRow])
  index := migrated_has (by decide) (by simp [indexRow])
  streamTokens := migrated_has (by decide) (by simp [tokenRow])
  version := ⟨_, Table.mem_put.mpr (Or.inl rfl)⟩
  numbered := ⟨List.Pairwise.nil, by simp, by simp⟩

section
variable [DecidableEq α] {db : Table Key (Value α)} {pending : Pending α}
  {tokens : List Byte → Option (List Byte)}

theorem Represents.run (h : Represents db pending tokens) {user : User} {calls : List (StoreCall α)}
    {a : WriteQueues α}
    (ha : (.start user :: calls).foldlM WriteQueues.step (.opened pending tokens) = some a) :
    ∃ s, (.start user :: calls).foldlM LocalStore.step (.opened db) = .ok s ∧ Keeps s a := by
  rw [List.foldlM_cons] at ha
  obtain ⟨b, hb, hrest⟩ := Option.bind_eq_some_iff.mp ha
  obtain ⟨t, ht, hkeeps⟩ := Keeps.start (s := .opened db) (a := .opened pending tokens) h hb
  obtain ⟨s, hs, hkeeps'⟩ := hkeeps.run hrest
  refine ⟨s, ?_, hkeeps'⟩
  rw [List.foldlM_cons]
  show (LocalStore.start (.opened db) user >>= fun s => calls.foldlM LocalStore.step s) = .ok s
  rw [ht]
  exact hs

/-- In every run of the calls, whatever the users and wherever the app stops and starts
again, no check of the local store fails, and the rows are the writes that wait. -/
theorem the_rows_are_the_waiting_writes (h : Represents db pending tokens) {user : User}
    {calls : List (StoreCall α)} {a : WriteQueues α}
    (ha : (.start user :: calls).foldlM WriteQueues.step (.opened pending tokens) = some a) :
    ∃ s, (.start user :: calls).foldlM LocalStore.step (.opened db) = .ok s ∧
      Represents s.db a.pending a.tokens ∧
      s.mutationQueue = ⟨a.userId, a.nextBatchId, a.lastStreamToken⟩ ∧
      ∀ e ∈ a.pending, e.2.batchId < a.nextBatchId := by
  obtain ⟨s, hs, hkeeps⟩ := h.run ha
  exact ⟨s, hs, hkeeps.represents, hkeeps.queue, hkeeps.later⟩

/-- A document of a user, and a write to it. -/
def annsMutation : Mutation ℕ := ⟨⟨[ascii "users", ascii "ann"], by decide, by decide⟩, 7⟩

def ann : User := .authenticated (ascii "ann") (by decide)

/-- A write is kept when the app stops, and when somebody else signs in. -/
theorem a_write_is_kept_over_a_restart :
    ∃ s, [.start ann, .writeLocally ⟨0, 0⟩ [] [annsMutation], .start .unauthenticated].foldlM LocalStore.step
        (.opened migrated) = .ok s ∧
      Represents s.db [(ascii "ann", ⟨1, ⟨0, 0⟩, [], [annsMutation], by decide⟩)] fun _ => none := by
  obtain ⟨s, hs, hrep, -⟩ := the_rows_are_the_waiting_writes migrated_represents
    (a := ⟨[(ascii "ann", ⟨1, ⟨0, 0⟩, [], [annsMutation], by decide⟩)], fun _ => none, [], 2, []⟩)
    (show [.start ann, .writeLocally ⟨0, 0⟩ [] [annsMutation], .start .unauthenticated].foldlM WriteQueues.step
      (.opened [] fun _ => none) = _ from rfl)
  exact ⟨s, hs, hrep⟩

/-- After every run the queue reads the waiting writes of its user: all of them, the next
one after an id, the one with an id, those that affect some documents, and the last one. -/
theorem a_queue_reads_its_waiting_writes (h : Represents db pending tokens) {user : User}
    {calls : List (StoreCall α)} {a : WriteQueues α}
    (ha : (.start user :: calls).foldlM WriteQueues.step (.opened pending tokens) = some a) :
    ∃ s, (.start user :: calls).foldlM LocalStore.step (.opened db) = .ok s ∧
      s.mutationQueue.allMutationBatches (.on s.db) = .ok (a.pending.queueOf a.userId) ∧
      (∀ batchId, IsInt32 (batchId + 1) → s.getNextMutationBatch batchId =
        .ok ((a.pending.queueOf a.userId).find? (batchId < ·.batchId))) ∧
      (∀ batchId, IsInt32 batchId → s.mutationQueue.lookupMutationBatch (.on s.db) batchId =
        .ok ((a.pending.queueOf a.userId).find? (·.batchId = batchId))) ∧
      (∀ documentKeys, s.mutationQueue.allMutationBatchesAffectingDocumentKeys (.on s.db) documentKeys =
        .ok ((a.pending.queueOf a.userId).filter fun batch => batch.mutations.any (·.key ∈ documentKeys))) ∧
      s.mutationQueue.getHighestUnacknowledgedBatchId s.db =
        .ok (((a.pending.queueOf a.userId).getLast?.map (·.batchId)).getD kBatchIdUnknown) := by
  obtain ⟨s, hs, hkeeps⟩ := h.run ha
  have huser : s.mutationQueue.userId = a.userId := by rw [hkeeps.queue]
  have hrep : Represents (LevelDbTransaction.on s.db).commit a.pending a.tokens := hkeeps.represents
  refine ⟨s, hs, ?_, fun batchId hid => ?_, fun batchId hid => ?_, fun documentKeys => ?_, ?_⟩
  · rw [s.mutationQueue.allMutationBatches_eq hrep, huser]
  · rw [← huser]
    exact s.mutationQueue.nextMutationBatchAfterBatchId_eq hrep hid
  · rw [← huser]
    exact s.mutationQueue.lookupMutationBatch_eq (LevelDbTransaction.wellFormed_on s.db) hrep hid
  · rw [s.mutationQueue.allMutationBatchesAffectingDocumentKeys_eq hrep, huser]
  · rw [s.mutationQueue.getHighestUnacknowledgedBatchId_eq hkeeps.represents, huser]

/-- Of two writes the second one is next after the first one. -/
theorem the_second_write_is_next :
    ∃ s, [.start ann, .writeLocally ⟨0, 0⟩ [] [annsMutation], .writeLocally ⟨5, 0⟩ [] [annsMutation]].foldlM
        LocalStore.step (.opened migrated) = .ok s ∧
      s.getNextMutationBatch 1 = .ok (some ⟨2, ⟨5, 0⟩, [], [annsMutation], by decide⟩) := by
  obtain ⟨s, hs, -, hnext, -⟩ := a_queue_reads_its_waiting_writes migrated_represents
    (a := ⟨[(ascii "ann", ⟨1, ⟨0, 0⟩, [], [annsMutation], by decide⟩),
      (ascii "ann", ⟨2, ⟨5, 0⟩, [], [annsMutation], by decide⟩)], fun _ => none, ascii "ann", 3, []⟩)
    (show [.start ann, .writeLocally ⟨0, 0⟩ [] [annsMutation], .writeLocally ⟨5, 0⟩ [] [annsMutation]].foldlM
      WriteQueues.step (.opened [] fun _ => none) = _ from rfl)
  exact ⟨s, hs, hnext 1 (by decide)⟩

end

end EasyVerbs.Firestore
