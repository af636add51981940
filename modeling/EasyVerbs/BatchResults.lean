-- What the server answers to a batch: a version for each of its mutations. The documents that are
-- cached and what a mutation makes of one are parameters. A document of a batch has the version of
-- the last mutation about it, and a mutation always makes a document.
import EasyVerbs.MutationQueueRows
import Mathlib.Data.List.Dedup

namespace EasyVerbs.Firestore

open SortedRows

variable {α : Type}

/-! ## The rows of other parts -/

/-- The tables of the other parts of the client. -/
def otherTables : List (List Byte) :=
  [kTargetGlobalTable, kTargetsTable, kQueryTargetsTable, kTargetDocumentsTable, kDocumentTargetsTable,
    kRemoteDocumentsTable, kCollectionParentsTable, kRemoteDocumentReadTimeTable]

/-- A row that another part puts, or deletes. -/
structure OtherRow (α : Type) where
  key : Key
  value : Option (Value α)
  isOther : ∃ table ∈ otherTables, InTable table key

def Persistence.changeOthers (p : Persistence α) (rows : List (OtherRow α)) : Persistence α :=
  rows.foldl
    (fun p row =>
      match row.value with
      | some value => p.put row.key value
      | none => p.delete row.key)
    p

/-! ## Documents -/

/-- `operator<`. -/
def Timestamp.isBefore (lhs rhs : Timestamp) : Bool :=
  decide (lhs.seconds < rhs.seconds) ||
    lhs.seconds == rhs.seconds && decide (lhs.nanoseconds < rhs.nanoseconds)

structure MutationResult where
  version : Timestamp
  deriving DecidableEq, Repr

/-- A document, or what is known of one that is not there, and the rows that `Add` writes for it
at a read time. -/
structure MaybeDocument (α : Type) where
  key : DocumentKey
  version : Timestamp
  add : Timestamp → List (OtherRow α)

/-- The documents that a transaction finds in the cache, and what a mutation makes of a document.
Each is a document of its own key. -/
structure RemoteDocuments (α : Type) where
  get : DocumentKey → Option (MaybeDocument α)
  apply : Mutation α → Option (MaybeDocument α) → MutationResult → MaybeDocument α
  get_key : ∀ key document, get key = some document → document.key = key
  apply_key : ∀ mutation document result, (apply mutation document result).key = mutation.key

/-- An empty cache, with documents that are not stored. -/
def RemoteDocuments.empty : RemoteDocuments α where
  get _ := none
  apply mutation _ mutationResult := ⟨mutation.key, mutationResult.version, fun _ => []⟩
  get_key _ _ h := by cases h
  apply_key _ _ _ := rfl

/-- With the check that all kinds of mutations make. -/
def Mutation.applyToRemoteDocument (mutation : Mutation α) (documents : RemoteDocuments α)
    (maybeDoc : Option (MaybeDocument α)) (mutationResult : MutationResult) : Checked (MaybeDocument α) := do
  hardAssert (maybeDoc.all fun document => decide (document.key = mutation.key))
  return documents.apply mutation maybeDoc mutationResult

/-! ## The result of a batch -/

/-- There is a result for each mutation. -/
structure MutationBatchResult (α : Type) where
  batch : MutationBatch α
  commitVersion : Timestamp
  mutationResults : List MutationResult
  streamToken : List Byte
  sizes : batch.mutations.length = mutationResults.length

namespace MutationBatchResult

/-- The constructor. -/
def create (batch : MutationBatch α) (commitVersion : Timestamp) (mutationResults : List MutationResult)
    (streamToken : List Byte) : Checked (MutationBatchResult α) :=
  if sizes : batch.mutations.length = mutationResults.length then
    .ok ⟨batch, commitVersion, mutationResults, streamToken, sizes⟩
  else .error .hardAssert

/-- `doc_versions_[key] = version`. -/
def setVersion (versions : DocumentKey → Option Timestamp) (result : Mutation α × MutationResult) :
    DocumentKey → Option Timestamp :=
  fun key => if key = result.1.key then some result.2.version else versions key

/-- Of two mutations about a document the last one counts. -/
def docVersions (r : MutationBatchResult α) : DocumentKey → Option Timestamp :=
  (r.batch.mutations.zip r.mutationResults).foldl setVersion fun _ => none

end MutationBatchResult

def MutationBatch.keys (batch : MutationBatch α) : List DocumentKey := (batch.mutations.map (·.key)).dedup

/-- One turn of the loop over the mutations. -/
def applyResult (documents : RemoteDocuments α) (documentKey : DocumentKey) (maybeDoc : Option (MaybeDocument α))
    (result : Mutation α × MutationResult) : Checked (Option (MaybeDocument α)) :=
  if result.1.key = documentKey then some <$> result.1.applyToRemoteDocument documents maybeDoc result.2
  else .ok maybeDoc

def MutationBatch.applyToRemoteDocument (batch : MutationBatch α) (documents : RemoteDocuments α)
    (maybeDoc : Option (MaybeDocument α)) (documentKey : DocumentKey) (r : MutationBatchResult α) :
    Checked (Option (MaybeDocument α)) := do
  hardAssert (maybeDoc.all fun document => decide (document.key = documentKey))
  hardAssert (r.mutationResults.length == batch.mutations.length)
  (batch.mutations.zip r.mutationResults).foldlM (applyResult documents documentKey) maybeDoc

/-- What the result of a batch does to one of its documents. An older one in the cache is replaced. -/
def MutationBatchResult.applyToDocument (r : MutationBatchResult α) (documents : RemoteDocuments α)
    (p : Persistence α) (docKey : DocumentKey) : Checked (Persistence α) :=
  let remoteDoc := documents.get docKey
  match r.docVersions docKey with
  | none => .error .hardAssert
  | some ackVersion =>
    if remoteDoc.all (·.version.isBefore ackVersion) then do
      match ← r.batch.applyToRemoteDocument documents remoteDoc docKey r with
      | none => do
        hardAssert remoteDoc.isNone
        return p
      | some doc => return p.changeOthers (doc.add r.commitVersion)
    else .ok p

/-! ## No check of it fails -/

section
variable {batch : MutationBatch α} {documents : RemoteDocuments α} {r : MutationBatchResult α} {docKey : DocumentKey}

theorem Persistence.changeOthers_append (p : Persistence α) (rows rows' : List (OtherRow α)) :
    (p.changeOthers rows).changeOthers rows' = p.changeOthers (rows ++ rows') :=
  List.foldl_append.symm

theorem MutationBatch.mem_keys : docKey ∈ batch.keys ↔ ∃ mutation ∈ batch.mutations, mutation.key = docKey := by
  simp [keys]

theorem foldl_setVersion_isSome (results : List (Mutation α × MutationResult))
    {versions : DocumentKey → Option Timestamp}
    (h : (versions docKey).isSome = true ∨ docKey ∈ results.map (·.1.key)) :
    (results.foldl MutationBatchResult.setVersion versions docKey).isSome = true := by
  induction results generalizing versions with
  | nil => exact h.resolve_right List.not_mem_nil
  | cons result results ih =>
    rw [List.foldl_cons]
    refine ih ?_
    unfold MutationBatchResult.setVersion
    by_cases hsame : docKey = result.1.key
    · exact Or.inl (by rw [if_pos hsame]; rfl)
    · rw [if_neg hsame]
      rw [List.map_cons, List.mem_cons] at h
      exact h.imp_right fun hmem => hmem.resolve_left hsame

/-- Each document of the batch has a version. -/
theorem MutationBatchResult.docVersions_isSome (hkey : docKey ∈ r.batch.keys) :
    (r.docVersions docKey).isSome = true := by
  refine foldl_setVersion_isSome _ (Or.inr ?_)
  obtain ⟨mutation, hmem, rfl⟩ := MutationBatch.mem_keys.mp hkey
  rw [← List.map_fst_zip r.sizes.le] at hmem
  obtain ⟨result, hresult, rfl⟩ := List.mem_map.mp hmem
  exact List.mem_map_of_mem hresult

variable (documents)

/-- A turn makes a document of the same key, and a document stays one. -/
theorem applyResult_eq {maybeDoc : Option (MaybeDocument α)} (hkey : ∀ document ∈ maybeDoc, document.key = docKey)
    (result : Mutation α × MutationResult) :
    ∃ doc, applyResult documents docKey maybeDoc result = .ok doc ∧ (∀ document ∈ doc, document.key = docKey) ∧
      (maybeDoc.isSome = true → doc.isSome = true) := by
  unfold applyResult
  by_cases hsame : result.1.key = docKey
  · have hcheck : (maybeDoc.all fun document => decide (document.key = result.1.key)) = true := by
      rw [Option.all_eq_true]
      exact fun document hdocument => decide_eq_true ((hkey document hdocument).trans hsame.symm)
    refine ⟨some (documents.apply result.1 maybeDoc result.2), ?_, ?_, fun _ => rfl⟩
    · rw [if_pos hsame]
      unfold Mutation.applyToRemoteDocument
      rw [hcheck]
      rfl
    · rintro document hdocument
      cases hdocument
      exact (documents.apply_key _ _ _).trans hsame
  · exact ⟨maybeDoc, if_neg hsame, hkey, id⟩

theorem foldlM_applyResult (results : List (Mutation α × MutationResult)) {maybeDoc : Option (MaybeDocument α)}
    (hkey : ∀ document ∈ maybeDoc, document.key = docKey) :
    ∃ doc, results.foldlM (applyResult documents docKey) maybeDoc = .ok doc ∧
      (maybeDoc.isSome = true → doc.isSome = true) := by
  induction results generalizing maybeDoc with
  | nil => exact ⟨maybeDoc, rfl, id⟩
  | cons result results ih =>
    obtain ⟨doc, hdoc, hkey', hsome⟩ := applyResult_eq documents hkey result
    obtain ⟨doc', hdoc', hsome'⟩ := ih hkey'
    refine ⟨doc', ?_, hsome' ∘ hsome⟩
    rw [List.foldlM_cons, hdoc]
    exact hdoc'

theorem MutationBatch.applyToRemoteDocument_eq {maybeDoc : Option (MaybeDocument α)}
    (hkey : ∀ document ∈ maybeDoc, document.key = docKey) :
    ∃ doc, r.batch.applyToRemoteDocument documents maybeDoc docKey r = .ok doc ∧
      (maybeDoc.isSome = true → doc.isSome = true) := by
  obtain ⟨doc, hdoc, hsome⟩ := foldlM_applyResult documents
    (r.batch.mutations.zip r.mutationResults) hkey
  have hcheck : (maybeDoc.all fun document => decide (document.key = docKey)) = true := by
    rw [Option.all_eq_true]
    exact fun document hdocument => decide_eq_true (hkey document hdocument)
  refine ⟨doc, ?_, hsome⟩
  unfold applyToRemoteDocument
  simp only [hcheck, r.sizes, beq_self_eq_true, hardAssert, if_true, bind, Except.bind]
  exact hdoc

/-- So the result of a batch only puts some rows of other parts for each document of it. -/
theorem MutationBatchResult.applyToDocument_eq (hkey : docKey ∈ r.batch.keys) (p : Persistence α) :
    ∃ rows, r.applyToDocument documents p docKey = .ok (p.changeOthers rows) := by
  obtain ⟨ackVersion, hversion⟩ := Option.isSome_iff_exists.mp (docVersions_isSome hkey)
  obtain ⟨doc, happly, hsome⟩ := MutationBatch.applyToRemoteDocument_eq (r := r) documents
    fun document hdocument => documents.get_key docKey document hdocument
  unfold applyToDocument
  simp only [hversion, happly]
  split
  · cases doc with
    | none =>
      have hnone : (documents.get docKey).isNone = true := by
        cases hget : documents.get docKey with
        | none => rfl
        | some document => exact absurd (hsome (by rw [hget]; rfl)) Bool.false_ne_true
      exact ⟨[], by simp [bind, Except.bind, hnone, hardAssert, pure, Except.pure, Persistence.changeOthers]⟩
    | some doc => exact ⟨_, rfl⟩
  · exact ⟨[], rfl⟩

theorem MutationBatchResult.foldlM_applyToDocument {docKeys : List DocumentKey} (hkeys : docKeys ⊆ r.batch.keys)
    (p : Persistence α) :
    ∃ rows, docKeys.foldlM (r.applyToDocument documents) p = .ok (p.changeOthers rows) := by
  induction docKeys generalizing p with
  | nil => exact ⟨[], rfl⟩
  | cons docKey docKeys ih =>
    obtain ⟨hkey, hkeys⟩ := List.cons_subset.mp hkeys
    obtain ⟨rows, hrows⟩ := applyToDocument_eq documents hkey p
    obtain ⟨rows', hrows'⟩ := ih hkeys (p.changeOthers rows)
    refine ⟨rows ++ rows', ?_⟩
    rw [List.foldlM_cons, hrows, ← Persistence.changeOthers_append]
    exact hrows'

end

end EasyVerbs.Firestore
