-- The keys of the rows in which the Firestore client keeps its mutation queues.
-- A key is a row of labelled components, and it sorts as its components do. So
-- the rows of a user stand together, and there in the order of the batches.
import EasyVerbs.SignedNumbers

namespace EasyVerbs.Firestore

open Codes

/-! ## Users and documents -/

/-- A user of the client. A user who is authenticated has a UID. -/
inductive User
  | unauthenticated
  | authenticated (uid : List Byte) (notEmpty : uid ≠ [])
  deriving DecidableEq

/-- The normalized user id of the keys. -/
def User.userId : User → List Byte
  | .unauthenticated => []
  | .authenticated uid _ => uid

/-- The location of a document. The blank key of no document is left out. -/
structure DocumentKey where
  path : List (List Byte)
  notEmpty : path ≠ []
  isDocumentKey : path.length % 2 = 0
  deriving DecidableEq

theorem DocumentKey.ext {k l : DocumentKey} (h : k.path = l.path) : k = l := by
  cases k
  cases l
  cases h
  rfl

/-- An `int32_t`, the type of a batch id. -/
def IsInt32 (n : ℤ) : Prop := -2 ^ 31 ≤ n ∧ n < 2 ^ 31

instance (n : ℤ) : Decidable (IsInt32 n) := inferInstanceAs (Decidable (_ ∧ _))

theorem IsInt32.isInt64 {n : ℤ} (h : IsInt32 n) : IsInt64 n := by
  unfold IsInt64
  unfold IsInt32 at h
  omega

/-! ## Components -/

/-- The labels of the components. -/
inductive ComponentLabel
  | terminator
  | tableName
  | batchId
  | targetId
  | userId
  | collectionId
  | pathSegment
  deriving DecidableEq, Repr

def ComponentLabel.value : ComponentLabel → ℤ
  | .terminator => 0
  | .tableName => 5
  | .batchId => 10
  | .targetId => 12
  | .userId => 13
  | .collectionId => 14
  | .pathSegment => 62

/-- The bytes of an ASCII string. -/
def ascii (s : String) : List Byte := s.toList.map fun c => Fin.ofNat 256 c.toNat

def kVersionGlobalTable : List Byte := ascii "version"
def kMutationsTable : List Byte := ascii "mutation"
def kDocumentMutationsTable : List Byte := ascii "document_mutation"
def kMutationQueuesTable : List Byte := ascii "mutation_queue"
def kTargetGlobalTable : List Byte := ascii "target_global"
def kTargetsTable : List Byte := ascii "target"
def kQueryTargetsTable : List Byte := ascii "query_target"
def kTargetDocumentsTable : List Byte := ascii "target_document"
def kDocumentTargetsTable : List Byte := ascii "document_target"
def kRemoteDocumentsTable : List Byte := ascii "remote_document"
def kCollectionParentsTable : List Byte := ascii "collection_parent"
def kRemoteDocumentReadTimeTable : List Byte := ascii "remote_document_read_time"

/-! ## The writer -/

def writeComponentLabel (label : ComponentLabel) : Checked (List Byte) :=
  writeSignedNumIncreasing label.value

def writeLabeledInt32 (label : ComponentLabel) (value : ℤ) : Checked (List Byte) := do
  return (← writeComponentLabel label) ++ (← writeSignedNumIncreasing value)

def writeLabeledString (label : ComponentLabel) (value : List Byte) : Checked (List Byte) := do
  return (← writeComponentLabel label) ++ (← writeString value)

def writeTerminator : Checked (List Byte) := writeComponentLabel .terminator

def writeTableName (tableName : List Byte) : Checked (List Byte) :=
  writeLabeledString .tableName tableName

def writeBatchId (batchId : ℤ) : Checked (List Byte) := writeLabeledInt32 .batchId batchId

def writeTargetId (targetId : ℤ) : Checked (List Byte) := writeLabeledInt32 .targetId targetId

def writeUserId (userId : List Byte) : Checked (List Byte) := writeLabeledString .userId userId

def writeCollectionId (collectionId : List Byte) : Checked (List Byte) :=
  writeLabeledString .collectionId collectionId

/-- A label and a string for each segment. -/
def writeResourcePath : List (List Byte) → Checked (List Byte)
  | [] => return []
  | segment :: path => do
    return (← writeLabeledString .pathSegment segment) ++ (← writeResourcePath path)

/-! ## The reader -/

/-- Whether the next component has the label. A mismatch alone is no failure. -/
def readComponentLabelMatching (expectedLabel : ComponentLabel) (src : List Byte) :
    Checked (Bool × List Byte) := do
  let (rawResult, src) ← readSignedNumIncreasing src
  return (rawResult == expectedLabel.value, src)

def readInt32 (src : List Byte) : Checked (ℤ × List Byte) := do
  let (rawResult, src) ← readSignedNumIncreasing src
  if IsInt32 rawResult then return (rawResult, src) else .error .returnsFalse

def readLabeledInt32 (expectedLabel : ComponentLabel) (src : List Byte) : Checked (ℤ × List Byte) := do
  let (matching, src) ← readComponentLabelMatching expectedLabel src
  if matching then readInt32 src else .error .returnsFalse

def readLabeledString (expectedLabel : ComponentLabel) (src : List Byte) :
    Checked (List Byte × List Byte) := do
  let (matching, src) ← readComponentLabelMatching expectedLabel src
  if matching then readString src else .error .returnsFalse

def readTableNameMatching (expectedTableName : List Byte) (src : List Byte) : Checked (List Byte) := do
  let (value, src) ← readLabeledString .tableName src
  if value = expectedTableName then return src else .error .returnsFalse

def readBatchId (src : List Byte) : Checked (ℤ × List Byte) := readLabeledInt32 .batchId src

def readUserId (src : List Byte) : Checked (List Byte × List Byte) := readLabeledString .userId src

def readTerminator (src : List Byte) : Checked (List Byte) := do
  let (matching, src) ← readComponentLabelMatching .terminator src
  if matching then return src else .error .returnsFalse

theorem readComponentLabelMatching_shorter {label : ComponentLabel} {src rest : List Byte} {b : Bool}
    (h : readComponentLabelMatching label src = .ok (b, rest)) : rest.length ≤ src.length := by
  unfold readComponentLabelMatching at h
  cases hread : readSignedNumIncreasing src with
  | error e => simp [hread, bind, Except.bind] at h
  | ok v =>
    simp only [hread, bind, Except.bind, pure, Except.pure, Except.ok.injEq, Prod.mk.injEq] at h
    rw [← h.2, ((readSignedNumIncreasing_iff _ _ _).mp hread).2, List.length_append]
    omega

theorem readString_shorter {src s rest : List Byte} (h : readString src = .ok (s, rest)) :
    rest.length < src.length := by
  rw [(readString_iff _ _ _).mp h, stringCode]
  simp only [List.length_append, List.length_cons]
  omega

/-- The segments up to a label of another kind, or up to the end of the key. -/
def readResourcePath (src : List Byte) : Checked (List (List Byte) × List Byte) :=
  if src.isEmpty then return ([], src)
  else
    match _h1 : readComponentLabelMatching .pathSegment src with
    | .error e => .error e
    -- The position before the label is restored.
    | .ok (false, _) => return ([], src)
    | .ok (true, rest) =>
      match _h2 : readString rest with
      | .error e => .error e
      | .ok (segment, rest) => do
        let (path, rest) ← readResourcePath rest
        return (segment :: path, rest)
termination_by src.length
decreasing_by
  exact Nat.lt_of_lt_of_le (readString_shorter _h2) (readComponentLabelMatching_shorter _h1)

def readDocumentKey (src : List Byte) : Checked (DocumentKey × List Byte) := do
  let (path, src) ← readResourcePath src
  if h : path ≠ [] ∧ path.length % 2 = 0 then return (⟨path, h.1, h.2⟩, src)
  else .error .returnsFalse

/-! ### What the reader accepts -/

theorem bind_eq_ok {α β : Type} {x : Checked α} {f : α → Checked β} {b : β} :
    (x >>= f) = .ok b ↔ ∃ a, x = .ok a ∧ f a = .ok b := by
  cases x <;> simp [bind, Except.bind]

def labelCode (label : ComponentLabel) : List Byte := signedCode label.value

theorem ComponentLabel.value_isInt64 (label : ComponentLabel) : IsInt64 label.value := by
  cases label <;> decide

theorem ComponentLabel.value_inj {l m : ComponentLabel} (h : l.value = m.value) : l = m := by
  cases l <;> cases m <;> first | rfl | cases h

theorem readComponentLabelMatching_iff (label : ComponentLabel) (src rest : List Byte) :
    readComponentLabelMatching label src = .ok (true, rest) ↔ src = labelCode label ++ rest := by
  unfold readComponentLabelMatching labelCode
  rw [bind_eq_ok]
  constructor
  · rintro ⟨⟨raw, rest'⟩, hread, h⟩
    simp only [pure, Except.pure, Except.ok.injEq, Prod.mk.injEq, beq_iff_eq] at h
    obtain ⟨rfl, rfl⟩ := h
    exact ((readSignedNumIncreasing_iff _ _ _).mp hread).2
  · intro h
    refine ⟨(label.value, rest), (readSignedNumIncreasing_iff _ _ _).mpr ⟨label.value_isInt64, h⟩, ?_⟩
    simp [pure, Except.pure]

theorem readLabeledString_iff (label : ComponentLabel) (src s rest : List Byte) :
    readLabeledString label src = .ok (s, rest) ↔ src = labelCode label ++ stringCode s ++ rest := by
  unfold readLabeledString
  rw [bind_eq_ok, List.append_assoc]
  constructor
  · rintro ⟨⟨matching, rest'⟩, hread, h⟩
    cases matching with
    | false => cases h
    | true =>
      rw [readComponentLabelMatching_iff] at hread
      rw [hread, (readString_iff _ _ _).mp h]
  · intro h
    exact ⟨(true, _), (readComponentLabelMatching_iff _ _ _).mpr h, (readString_iff _ _ _).mpr rfl⟩

theorem readLabeledInt32_iff (label : ComponentLabel) (src : List Byte) (n : ℤ) (rest : List Byte) :
    readLabeledInt32 label src = .ok (n, rest) ↔
      IsInt32 n ∧ src = labelCode label ++ signedCode n ++ rest := by
  unfold readLabeledInt32 readInt32
  rw [bind_eq_ok, List.append_assoc]
  constructor
  · rintro ⟨⟨matching, rest'⟩, hread, h⟩
    cases matching with
    | false => cases h
    | true =>
      obtain ⟨⟨raw, rest''⟩, hnum, h⟩ := bind_eq_ok.mp h
      dsimp only at h
      split at h
      · rename_i hraw
        cases h
        rw [readComponentLabelMatching_iff] at hread
        rw [hread, ((readSignedNumIncreasing_iff _ _ _).mp hnum).2]
        exact ⟨hraw, rfl⟩
      · cases h
  · rintro ⟨hn, h⟩
    refine ⟨(true, _), (readComponentLabelMatching_iff _ _ _).mpr h, ?_⟩
    refine bind_eq_ok.mpr ⟨(n, rest), (readSignedNumIncreasing_iff _ _ _).mpr ⟨hn.isInt64, rfl⟩, ?_⟩
    exact if_pos hn

theorem readTableNameMatching_iff (table src rest : List Byte) :
    readTableNameMatching table src = .ok rest ↔ src = labelCode .tableName ++ stringCode table ++ rest := by
  unfold readTableNameMatching
  rw [bind_eq_ok, ← readLabeledString_iff]
  constructor
  · rintro ⟨⟨s, rest'⟩, hread, h⟩
    dsimp only at h
    split at h
    · rename_i hs
      cases h
      rw [hread, hs]
    · cases h
  · intro h
    exact ⟨_, h, if_pos rfl⟩

theorem readTableNameMatching_other {table table' : List Byte} (h : table ≠ table') (rest : List Byte) :
    readTableNameMatching table' (labelCode .tableName ++ stringCode table ++ rest) =
      .error .returnsFalse := by
  unfold readTableNameMatching
  rw [(readLabeledString_iff _ _ _ _).mpr rfl]
  exact if_neg h

theorem readTerminator_iff (src rest : List Byte) :
    readTerminator src = .ok rest ↔ src = labelCode .terminator ++ rest := by
  unfold readTerminator
  rw [bind_eq_ok, ← readComponentLabelMatching_iff]
  constructor
  · rintro ⟨⟨matching, rest'⟩, hread, h⟩
    cases matching with
    | false => cases h
    | true =>
      cases h
      exact hread
  · intro h
    exact ⟨_, h, rfl⟩

def pathCode (path : List (List Byte)) : List Byte :=
  path.flatMap fun segment => labelCode .pathSegment ++ stringCode segment

theorem pathCode_nil : pathCode [] = [] := rfl

theorem pathCode_cons (segment : List Byte) (path : List (List Byte)) :
    pathCode (segment :: path) = labelCode .pathSegment ++ stringCode segment ++ pathCode path := rfl

theorem readResourcePath_ok {src rest : List Byte} {path : List (List Byte)}
    (h : readResourcePath src = .ok (path, rest)) : src = pathCode path ++ rest := by
  fun_induction readResourcePath src generalizing path with
  | case1 =>
    cases h
    rfl
  | case2 => cases h
  | case3 =>
    cases h
    rfl
  | case4 => cases h
  | case5 src _ src' hlabel segment src'' hsegment ih =>
    obtain ⟨⟨path', rest'⟩, hpath, h⟩ := bind_eq_ok.mp h
    cases h
    rw [(readComponentLabelMatching_iff _ _ _).mp hlabel, (readString_iff _ _ _).mp hsegment, ih hpath,
      pathCode_cons]
    simp only [List.append_assoc]

theorem labelCode_ne_nil (label : ComponentLabel) (rest : List Byte) :
    (labelCode label ++ rest).isEmpty = false := by
  cases label <;> rfl

/-- A component of another kind is no segment. -/
theorem readComponentLabelMatching_other {label expected : ComponentLabel} (h : label ≠ expected)
    (rest : List Byte) :
    readComponentLabelMatching expected (labelCode label ++ rest) = .ok (false, rest) := by
  unfold readComponentLabelMatching
  rw [bind_eq_ok]
  refine ⟨(label.value, rest), (readSignedNumIncreasing_iff _ _ _).mpr ⟨label.value_isInt64, rfl⟩, ?_⟩
  have hne : label.value ≠ expected.value := fun h' => h (ComponentLabel.value_inj h')
  simp [pure, Except.pure, hne]

theorem readResourcePath_other {label : ComponentLabel} (h : label ≠ .pathSegment) (rest : List Byte) :
    readResourcePath (labelCode label ++ rest) = .ok ([], labelCode label ++ rest) := by
  have hread := readComponentLabelMatching_other h rest
  rw [readResourcePath, labelCode_ne_nil]
  split
  · rfl
  · split <;> rename_i heq
    · rw [hread] at heq
      cases heq
    · rfl
    · rw [hread] at heq
      cases heq

theorem readResourcePath_cons (segment rest : List Byte) :
    readResourcePath (labelCode .pathSegment ++ (stringCode segment ++ rest)) =
      readResourcePath rest >>= fun (path, rest) => return (segment :: path, rest) := by
  have hlabel := (readComponentLabelMatching_iff .pathSegment _ (stringCode segment ++ rest)).mpr rfl
  have hsegment := (readString_iff _ segment rest).mpr rfl
  rw [readResourcePath, labelCode_ne_nil]
  split
  · rename_i h
    cases h
  · split <;> rename_i heq
    · rw [hlabel] at heq
      cases heq
    · rw [hlabel] at heq
      cases heq
    · rw [hlabel] at heq
      cases heq
      split <;> rename_i heq
      · rw [hsegment] at heq
        cases heq
      · rw [hsegment] at heq
        cases heq
        rfl

/-- A path is read back when a component of another kind follows it. -/
theorem readResourcePath_pathCode (path : List (List Byte)) {label : ComponentLabel}
    (h : label ≠ .pathSegment) (rest : List Byte) :
    readResourcePath (pathCode path ++ (labelCode label ++ rest)) = .ok (path, labelCode label ++ rest) := by
  induction path with
  | nil => exact readResourcePath_other h rest
  | cons segment path ih =>
    rw [pathCode_cons, List.append_assoc, List.append_assoc, readResourcePath_cons, ih]
    rfl

/-! ## The keys -/

/-- The key of a row of a mutation queue. -/
structure LevelDbMutationKey where
  userId : List Byte
  batchId : ℤ
  deriving DecidableEq, Repr

/-- The key of a row of the index from the documents of a user to the batches about them. -/
structure LevelDbDocumentMutationKey where
  userId : List Byte
  documentKey : DocumentKey
  batchId : ℤ
  deriving DecidableEq

namespace LevelDbMutationKey

/-- `KeyPrefix()`: the prefix of the table. -/
def tableKeyPrefix : Checked (List Byte) := writeTableName kMutationsTable

/-- `KeyPrefix(user_id)`. -/
def keyPrefix (userId : List Byte) : Checked (List Byte) := do
  return (← writeTableName kMutationsTable) ++ (← writeUserId userId)

def key (userId : List Byte) (batchId : ℤ) : Checked (List Byte) := do
  return (← writeTableName kMutationsTable) ++ (← writeUserId userId) ++ (← writeBatchId batchId) ++
    (← writeTerminator)

/-- What follows the terminator is not looked at. -/
def decode (key : List Byte) : Checked LevelDbMutationKey := do
  let src ← readTableNameMatching kMutationsTable key
  let (userId, src) ← readUserId src
  let (batchId, src) ← readBatchId src
  let _ ← readTerminator src
  return { userId, batchId }

end LevelDbMutationKey

namespace LevelDbDocumentMutationKey

/-- `KeyPrefix(user_id)`. -/
def keyPrefix (userId : List Byte) : Checked (List Byte) := do
  return (← writeTableName kDocumentMutationsTable) ++ (← writeUserId userId)

/-- `KeyPrefix(user_id, resource_path)`. -/
def pathKeyPrefix (userId : List Byte) (resourcePath : List (List Byte)) : Checked (List Byte) := do
  return (← writeTableName kDocumentMutationsTable) ++ (← writeUserId userId) ++
    (← writeResourcePath resourcePath)

def key (userId : List Byte) (documentKey : DocumentKey) (batchId : ℤ) : Checked (List Byte) := do
  return (← writeTableName kDocumentMutationsTable) ++ (← writeUserId userId) ++
    (← writeResourcePath documentKey.path) ++ (← writeBatchId batchId) ++ (← writeTerminator)

def decode (key : List Byte) : Checked LevelDbDocumentMutationKey := do
  let src ← readTableNameMatching kDocumentMutationsTable key
  let (userId, src) ← readUserId src
  let (documentKey, src) ← readDocumentKey src
  let (batchId, src) ← readBatchId src
  let _ ← readTerminator src
  return { userId, documentKey, batchId }

end LevelDbDocumentMutationKey

namespace LevelDbMutationQueueKey

def key (userId : List Byte) : Checked (List Byte) := do
  return (← writeTableName kMutationQueuesTable) ++ (← writeUserId userId) ++ (← writeTerminator)

end LevelDbMutationQueueKey

def LevelDbVersionKey.key : Checked (List Byte) := do
  return (← writeTableName kVersionGlobalTable) ++ (← writeTerminator)

def kInvalidTargetId : ℤ := 0

namespace LevelDbDocumentTargetKey

def key (documentKey : DocumentKey) (targetId : ℤ) : Checked (List Byte) := do
  return (← writeTableName kDocumentTargetsTable) ++ (← writeResourcePath documentKey.path) ++
    (← writeTargetId targetId) ++ (← writeTerminator)

def sentinelKey (documentKey : DocumentKey) : Checked (List Byte) := key documentKey kInvalidTargetId

def encodeSentinelValue (sequenceNumber : ℤ) : Checked (List Byte) :=
  writeSignedNumIncreasing sequenceNumber

end LevelDbDocumentTargetKey

def LevelDbCollectionParentKey.key (collectionId : List Byte) (parent : List (List Byte)) :
    Checked (List Byte) := do
  return (← writeTableName kCollectionParentsTable) ++ (← writeCollectionId collectionId) ++
    (← writeResourcePath parent) ++ (← writeTerminator)

/-! ### The bytes of the keys -/

def tableCode (table : List Byte) : List Byte := labelCode .tableName ++ stringCode table

def userCode (userId : List Byte) : List Byte := labelCode .userId ++ stringCode userId

/-- A batch id and the end of the key. -/
def batchCode (batchId : ℤ) : List Byte :=
  labelCode .batchId ++ signedCode batchId ++ labelCode .terminator

def mutationKey (userId : List Byte) (batchId : ℤ) : List Byte :=
  tableCode kMutationsTable ++ userCode userId ++ batchCode batchId

def documentMutationKey (userId : List Byte) (path : List (List Byte)) (batchId : ℤ) : List Byte :=
  tableCode kDocumentMutationsTable ++ userCode userId ++ pathCode path ++ batchCode batchId

def mutationQueueKey (userId : List Byte) : List Byte :=
  tableCode kMutationQueuesTable ++ userCode userId ++ labelCode .terminator

theorem writeComponentLabel_eq (label : ComponentLabel) :
    writeComponentLabel label = .ok (labelCode label) :=
  writeSignedNumIncreasing_eq label.value_isInt64

theorem writeLabeledString_eq (label : ComponentLabel) (s : List Byte) :
    writeLabeledString label s = .ok (labelCode label ++ stringCode s) := by
  unfold writeLabeledString
  rw [writeComponentLabel_eq, writeString_eq]
  rfl

theorem writeTableName_eq (table : List Byte) : writeTableName table = .ok (tableCode table) :=
  writeLabeledString_eq _ _

theorem writeUserId_eq (userId : List Byte) : writeUserId userId = .ok (userCode userId) :=
  writeLabeledString_eq _ _

theorem writeBatchId_eq {batchId : ℤ} (h : IsInt32 batchId) :
    writeBatchId batchId = .ok (labelCode .batchId ++ signedCode batchId) := by
  unfold writeBatchId writeLabeledInt32
  rw [writeComponentLabel_eq, writeSignedNumIncreasing_eq h.isInt64]
  rfl

theorem writeTerminator_eq : writeTerminator = .ok (labelCode .terminator) :=
  writeComponentLabel_eq _

theorem writeResourcePath_eq (path : List (List Byte)) : writeResourcePath path = .ok (pathCode path) := by
  induction path with
  | nil => rfl
  | cons segment path ih =>
    rw [writeResourcePath, writeLabeledString_eq, ih]
    rfl

namespace LevelDbMutationKey

theorem keyPrefix_eq (userId : List Byte) :
    keyPrefix userId = .ok (tableCode kMutationsTable ++ userCode userId) := by
  unfold keyPrefix
  rw [writeTableName_eq, writeUserId_eq]
  rfl

theorem key_eq (userId : List Byte) {batchId : ℤ} (h : IsInt32 batchId) :
    key userId batchId = .ok (mutationKey userId batchId) := by
  unfold key mutationKey batchCode
  rw [writeTableName_eq, writeUserId_eq, writeBatchId_eq h, writeTerminator_eq, ← List.append_assoc]
  rfl

/-- A key is decoded to its parts when it begins with their bytes, and to nothing else. -/
theorem decode_iff (p userId : List Byte) (batchId : ℤ) :
    decode p = .ok ⟨userId, batchId⟩ ↔
      IsInt32 batchId ∧ ∃ rest, p = mutationKey userId batchId ++ rest := by
  unfold decode mutationKey batchCode tableCode userCode
  constructor
  · intro h
    obtain ⟨src, htable, h⟩ := bind_eq_ok.mp h
    obtain ⟨⟨u, src1⟩, huser, h⟩ := bind_eq_ok.mp h
    obtain ⟨⟨b, src2⟩, hbatch, h⟩ := bind_eq_ok.mp h
    obtain ⟨src3, hend, h⟩ := bind_eq_ok.mp h
    cases h
    obtain ⟨hb, hsrc1⟩ := (readLabeledInt32_iff _ _ _ _).mp hbatch
    rw [readTableNameMatching_iff] at htable
    rw [readUserId, readLabeledString_iff] at huser
    rw [readTerminator_iff] at hend
    refine ⟨hb, src3, ?_⟩
    rw [htable, huser, hsrc1, hend]
    simp only [List.append_assoc]
  · rintro ⟨hb, rest, rfl⟩
    have hassoc := fun a b c : List Byte => (List.append_assoc a b c).symm
    simp only [List.append_assoc]
    refine bind_eq_ok.mpr ⟨_, (readTableNameMatching_iff _ _ _).mpr (hassoc _ _ _), ?_⟩
    refine bind_eq_ok.mpr ⟨(userId, _), (readLabeledString_iff _ _ _ _).mpr (hassoc _ _ _), ?_⟩
    refine bind_eq_ok.mpr ⟨(batchId, _), (readLabeledInt32_iff _ _ _ _).mpr ⟨hb, hassoc _ _ _⟩, ?_⟩
    exact bind_eq_ok.mpr ⟨rest, (readTerminator_iff _ _).mpr rfl, rfl⟩

theorem decode_key (userId : List Byte) {batchId : ℤ} (h : IsInt32 batchId) :
    decode (mutationKey userId batchId) = .ok ⟨userId, batchId⟩ :=
  (decode_iff _ _ _).mpr ⟨h, [], (List.append_nil _).symm⟩

theorem decode_other {table : List Byte} (h : table ≠ kMutationsTable) (rest : List Byte) :
    decode (tableCode table ++ rest) = .error .returnsFalse := by
  unfold decode tableCode
  rw [readTableNameMatching_other h]
  rfl

end LevelDbMutationKey

namespace LevelDbDocumentMutationKey

theorem keyPrefix_eq (userId : List Byte) :
    keyPrefix userId = .ok (tableCode kDocumentMutationsTable ++ userCode userId) := by
  unfold keyPrefix
  rw [writeTableName_eq, writeUserId_eq]
  rfl

theorem pathKeyPrefix_eq (userId : List Byte) (path : List (List Byte)) :
    pathKeyPrefix userId path =
      .ok (tableCode kDocumentMutationsTable ++ userCode userId ++ pathCode path) := by
  unfold pathKeyPrefix
  rw [writeTableName_eq, writeUserId_eq, writeResourcePath_eq]
  rfl

theorem key_eq (userId : List Byte) (documentKey : DocumentKey) {batchId : ℤ} (h : IsInt32 batchId) :
    key userId documentKey batchId = .ok (documentMutationKey userId documentKey.path batchId) := by
  unfold key documentMutationKey batchCode
  rw [writeTableName_eq, writeUserId_eq, writeResourcePath_eq, writeBatchId_eq h, writeTerminator_eq,
    ← List.append_assoc]
  rfl

theorem readDocumentKey_iff (src : List Byte) (documentKey : DocumentKey) (rest : List Byte) :
    readDocumentKey src = .ok (documentKey, rest) ↔
      readResourcePath src = .ok (documentKey.path, rest) := by
  unfold readDocumentKey
  rw [bind_eq_ok]
  constructor
  · rintro ⟨⟨path, rest'⟩, hpath, h⟩
    dsimp only at h
    split at h
    · cases h
      exact hpath
    · cases h
  · intro h
    refine ⟨_, h, ?_⟩
    exact dif_pos ⟨documentKey.notEmpty, documentKey.isDocumentKey⟩

/-- A key is decoded to its parts when it begins with their bytes, and to nothing else. -/
theorem decode_iff (p userId : List Byte) (documentKey : DocumentKey) (batchId : ℤ) :
    decode p = .ok ⟨userId, documentKey, batchId⟩ ↔
      IsInt32 batchId ∧ ∃ rest, p = documentMutationKey userId documentKey.path batchId ++ rest := by
  unfold decode documentMutationKey batchCode tableCode userCode
  constructor
  · intro h
    obtain ⟨src, htable, h⟩ := bind_eq_ok.mp h
    obtain ⟨⟨u, src1⟩, huser, h⟩ := bind_eq_ok.mp h
    obtain ⟨⟨k, src2⟩, hkey, h⟩ := bind_eq_ok.mp h
    obtain ⟨⟨b, src3⟩, hbatch, h⟩ := bind_eq_ok.mp h
    obtain ⟨src4, hend, h⟩ := bind_eq_ok.mp h
    cases h
    obtain ⟨hb, hsrc2⟩ := (readLabeledInt32_iff _ _ _ _).mp hbatch
    rw [readTableNameMatching_iff] at htable
    rw [readUserId, readLabeledString_iff] at huser
    rw [readDocumentKey_iff] at hkey
    rw [readTerminator_iff] at hend
    refine ⟨hb, src4, ?_⟩
    rw [htable, huser, readResourcePath_ok hkey, hsrc2, hend]
    simp only [List.append_assoc]
  · rintro ⟨hb, rest, rfl⟩
    have hassoc := fun a b c : List Byte => (List.append_assoc a b c).symm
    have hpath := @readResourcePath_pathCode documentKey.path .batchId (by decide)
    simp only [List.append_assoc]
    refine bind_eq_ok.mpr ⟨_, (readTableNameMatching_iff _ _ _).mpr (hassoc _ _ _), ?_⟩
    refine bind_eq_ok.mpr ⟨(userId, _), (readLabeledString_iff _ _ _ _).mpr (hassoc _ _ _), ?_⟩
    refine bind_eq_ok.mpr ⟨(documentKey, _), (readDocumentKey_iff _ _ _).mpr (hpath _), ?_⟩
    refine bind_eq_ok.mpr ⟨(batchId, _), (readLabeledInt32_iff _ _ _ _).mpr ⟨hb, hassoc _ _ _⟩, ?_⟩
    exact bind_eq_ok.mpr ⟨rest, (readTerminator_iff _ _).mpr rfl, rfl⟩

theorem decode_key (userId : List Byte) (documentKey : DocumentKey) {batchId : ℤ} (h : IsInt32 batchId) :
    decode (documentMutationKey userId documentKey.path batchId) = .ok ⟨userId, documentKey, batchId⟩ :=
  (decode_iff _ _ _ _).mpr ⟨h, [], (List.append_nil _).symm⟩

end LevelDbDocumentMutationKey

theorem LevelDbMutationQueueKey.key_eq (userId : List Byte) :
    key userId = .ok (mutationQueueKey userId) := by
  unfold key mutationQueueKey
  rw [writeTableName_eq, writeUserId_eq, writeTerminator_eq]
  rfl

theorem LevelDbVersionKey.key_eq : key = .ok (tableCode kVersionGlobalTable ++ labelCode .terminator) := by
  unfold key
  rw [writeTableName_eq, writeTerminator_eq]
  rfl

theorem LevelDbDocumentTargetKey.sentinelKey_eq (documentKey : DocumentKey) :
    ∃ rest, sentinelKey documentKey = .ok (tableCode kDocumentTargetsTable ++ rest) := by
  refine ⟨pathCode documentKey.path ++ (labelCode .targetId ++ signedCode 0) ++ labelCode .terminator, ?_⟩
  unfold sentinelKey key writeTargetId writeLabeledInt32 kInvalidTargetId
  have hzero : IsInt64 0 := by decide
  rw [writeTableName_eq, writeResourcePath_eq, writeComponentLabel_eq, writeTerminator_eq,
    writeSignedNumIncreasing_eq hzero]
  simp only [bind, Except.bind, pure, Except.pure, List.append_assoc]

theorem LevelDbCollectionParentKey.key_eq (collectionId : List Byte) (parent : List (List Byte)) :
    ∃ rest, key collectionId parent = .ok (tableCode kCollectionParentsTable ++ rest) := by
  refine ⟨labelCode .collectionId ++ stringCode collectionId ++ pathCode parent ++ labelCode .terminator, ?_⟩
  unfold key writeCollectionId
  rw [writeTableName_eq, writeLabeledString_eq, writeResourcePath_eq, writeTerminator_eq]
  simp only [bind, Except.bind, pure, Except.pure, List.append_assoc]

/-! ## The order of the keys -/

/-- `PrefixSuccessor`: the last byte that is not `0xff`, incremented. -/
def prefixSuccessor (p : List Byte) : List Byte :=
  match p.reverse.dropWhile (· == 0xff) with
  | [] => []
  | c :: limit => limit.reverse ++ [c + 1]

/-- The keys of a user in a table begin so. -/
def userKeyPrefix (table userId : List Byte) : List Byte := tableCode table ++ userCode userId

theorem stringCode_prefix_iff (s t v : List Byte) : stringCode s <+: stringCode t ++ v ↔ s = t :=
  stringCode_ordered.prefix_iff ((lt_trichotomy s t).elim (fun h => Or.inr (Or.inl h))
    fun h => h.elim Or.inl fun h => Or.inr (Or.inr h))

theorem tableCode_prefix_iff (s t v : List Byte) : tableCode s <+: tableCode t ++ v ↔ s = t := by
  unfold tableCode
  rw [List.append_assoc, List.prefix_append_right_inj, stringCode_prefix_iff]

theorem userKeyPrefix_prefix_iff (table s t v : List Byte) :
    userKeyPrefix table s <+: userKeyPrefix table t ++ v ↔ s = t := by
  unfold userKeyPrefix userCode
  simp only [List.append_assoc, List.prefix_append_right_inj]
  exact stringCode_prefix_iff s t v

theorem prefixSuccessor_snoc {p : List Byte} {c : Byte} (hc : c ≠ 0xff) :
    prefixSuccessor (p ++ [c]) = p ++ [c + 1] := by
  have hbeq : (c == 0xff) = false := by simpa using hc
  unfold prefixSuccessor
  rw [List.reverse_append, List.reverse_singleton, List.singleton_append,
    List.dropWhile_cons_of_neg (by simp [hbeq])]
  simp

/-- The keys below the successor of the prefix of a user are those up to the keys of the user. -/
theorem lt_prefixSuccessor_iff (table userId s : List Byte) :
    s < prefixSuccessor (userKeyPrefix table userId) ↔
      s < userKeyPrefix table userId ∨ userKeyPrefix table userId <+: s := by
  have hend : userKeyPrefix table userId = tableCode table ++
      (labelCode .userId ++ (userId.flatMap escapeByte ++ [kEscape1])) ++ [kSeparator] := by
    unfold userKeyPrefix userCode stringCode
    simp only [List.append_assoc, List.cons_append, List.nil_append]
  rw [hend, prefixSuccessor_snoc (by decide)]
  exact lt_next_iff (by decide +kernel) _ _

theorem userKeyPrefix_ordered (table : List Byte) : Ordered (· < ·) (userKeyPrefix table) :=
  (stringCode_ordered.prepend (labelCode .userId)).prepend (tableCode table)

/-- The prefix of a user is below the keys of this user and of later ones. -/
theorem userKeyPrefix_le_iff (table u v rest : List Byte) :
    userKeyPrefix table u ≤ userKeyPrefix table v ++ rest ↔ u ≤ v := by
  constructor
  · intro h
    refine not_lt.mp fun hvu => ?_
    have hlt := ((userKeyPrefix_ordered table hvu).append rest []).lt
    rw [List.append_nil] at hlt
    exact absurd hlt (not_lt.mpr h)
  · intro h
    rcases lt_or_eq_of_le h with hlt | rfl
    · have hlt := ((userKeyPrefix_ordered table hlt).append [] rest).lt
      rw [List.append_nil] at hlt
      exact hlt.le
    · exact le_of_isPrefix (List.prefix_append _ _)

/-- And its successor is above the keys of this user and of earlier ones. -/
theorem userKeyPrefix_lt_successor_iff (table u v rest : List Byte) :
    userKeyPrefix table v ++ rest < prefixSuccessor (userKeyPrefix table u) ↔ v ≤ u := by
  rw [lt_prefixSuccessor_iff, userKeyPrefix_prefix_iff, ← not_le, userKeyPrefix_le_iff, not_le,
    le_iff_lt_or_eq, eq_comm (a := u)]

/-- All keys of a user come before those of a later table. -/
theorem successor_le_of_table_lt {table table' : List Byte} (h : table < table') (u rest : List Byte) :
    prefixSuccessor (userKeyPrefix table u) ≤ tableCode table' ++ rest := by
  have hbelow : Below (tableCode table) (tableCode table') := (stringCode_ordered.prepend _) h
  rw [← not_lt, lt_prefixSuccessor_iff, not_or]
  constructor
  · have hlt : userKeyPrefix table u < tableCode table' ++ rest := (hbelow.append (userCode u) rest).lt
    exact hlt.not_gt
  · intro hpre
    have htable : tableCode table <+: tableCode table' ++ rest := (List.prefix_append _ _).trans hpre
    exact h.ne ((tableCode_prefix_iff _ _ _).mp htable)

/-- The order of users and batch ids, as the keys have it. -/
def KeyOrder : List Byte × ℤ → List Byte × ℤ → Prop :=
  Prod.Lex (· < ·) fun b c => IsInt32 b ∧ IsInt32 c ∧ b < c

/-- The keys of the queues are decided by the users and then by the batches. -/
theorem mutationKey_ordered : Ordered KeyOrder fun x => mutationKey x.1 x.2 := by
  have huser : Ordered (· < ·) userCode := stringCode_ordered.prepend _
  have hbatch : Ordered (fun b c => IsInt32 b ∧ IsInt32 c ∧ b < c) batchCode := by
    intro b c h
    apply (signedCode_ordered.prepend (labelCode .batchId)).followed fun _ => labelCode .terminator
    exact ⟨h.1.isInt64, h.2.1.isInt64, h.2.2⟩
  have h := (huser.prod hbatch).prepend (tableCode kMutationsTable)
  simp only [← List.append_assoc] at h
  exact h

theorem keyOrder_trichotomy {u v : List Byte} {b c : ℤ} (hb : IsInt32 b) (hc : IsInt32 c) :
    (u, b) = (v, c) ∨ KeyOrder (u, b) (v, c) ∨ KeyOrder (v, c) (u, b) := by
  rcases lt_trichotomy u v with h | rfl | h
  · exact Or.inr (Or.inl (Prod.Lex.left _ _ h))
  · rcases lt_trichotomy b c with h | rfl | h
    · exact Or.inr (Or.inl (Prod.Lex.right _ ⟨hb, hc, h⟩))
    · exact Or.inl rfl
    · exact Or.inr (Or.inr (Prod.Lex.right _ ⟨hc, hb, h⟩))
  · exact Or.inr (Or.inr (Prod.Lex.left _ _ h))

theorem mutationKey_lt_iff {u v : List Byte} {b c : ℤ} (hb : IsInt32 b) (hc : IsInt32 c) :
    mutationKey u b < mutationKey v c ↔ u < v ∨ u = v ∧ b < c := by
  have hord : ∀ {x y : List Byte × ℤ}, KeyOrder x y → mutationKey x.1 x.2 < mutationKey y.1 y.2 :=
    fun h => (mutationKey_ordered h).lt
  rcases keyOrder_trichotomy (u := u) (v := v) hb hc with h | h | h
  · cases h
    simp
  · refine iff_of_true (hord h) ?_
    cases h with
    | left _ _ h => exact Or.inl h
    | right _ h => exact Or.inr ⟨rfl, h.2.2⟩
  · refine iff_of_false (hord h).not_gt ?_
    cases h with
    | left _ _ h =>
      rintro (h' | ⟨rfl, -⟩)
      · exact lt_asymm h h'
      · exact lt_irrefl _ h
    | right _ h =>
      rintro (h' | ⟨-, h'⟩)
      · exact lt_irrefl _ h'
      · exact lt_asymm h.2.2 h'

theorem mutationKey_le_iff {u : List Byte} {b c : ℤ} (hb : IsInt32 b) (hc : IsInt32 c) :
    mutationKey u b ≤ mutationKey u c ↔ b ≤ c := by
  rw [← not_lt, mutationKey_lt_iff hc hb, ← not_lt]
  simp

theorem mutationKey_inj {u v : List Byte} {b c : ℤ} (hb : IsInt32 b) (hc : IsInt32 c)
    (h : mutationKey u b = mutationKey v c) : u = v ∧ b = c := by
  have hdecode := LevelDbMutationKey.decode_key u hb
  rw [h, LevelDbMutationKey.decode_key v hc] at hdecode
  cases hdecode
  exact ⟨rfl, rfl⟩

theorem mutationQueueKey_inj {u v : List Byte} (h : mutationQueueKey u = mutationQueueKey v) : u = v := by
  refine (userKeyPrefix_prefix_iff kMutationQueuesTable u v (labelCode .terminator)).mp ?_
  show userKeyPrefix kMutationQueuesTable u <+: mutationQueueKey v
  rw [← h]
  exact List.prefix_append _ _

theorem documentMutationKey_inj {u v : List Byte} {k l : DocumentKey} {b c : ℤ} (hb : IsInt32 b)
    (hc : IsInt32 c) (h : documentMutationKey u k.path b = documentMutationKey v l.path c) :
    u = v ∧ k = l ∧ b = c := by
  have hdecode := LevelDbDocumentMutationKey.decode_key u k hb
  rw [h, LevelDbDocumentMutationKey.decode_key v l hc] at hdecode
  cases hdecode
  exact ⟨rfl, rfl, rfl⟩

/-- The label of a batch sorts before the label of a further segment. -/
theorem batch_below_segment : Below (labelCode .batchId) (labelCode .pathSegment) :=
  signedCode_ordered ⟨by decide, by decide, by decide⟩

/-- The index rows that begin with the path of a document are those of the document and of
the documents below it. -/
theorem pathCode_prefix {path path' : List (List Byte)} {b : ℤ} {rest : List Byte}
    (h : pathCode path <+: pathCode path' ++ (batchCode b ++ rest)) : path <+: path' := by
  induction path generalizing path' with
  | nil => exact List.nil_prefix
  | cons segment path ih =>
    cases path' with
    | nil =>
      -- A batch stands where a segment should.
      obtain ⟨t, ht⟩ := h
      have hne := batch_below_segment.ne (signedCode b ++ labelCode .terminator ++ rest)
        (stringCode segment ++ pathCode path ++ t)
      simp only [pathCode_cons, pathCode_nil, batchCode, List.nil_append, List.append_assoc] at ht hne
      exact absurd ht.symm hne
    | cons segment' path' =>
      simp only [pathCode_cons, List.append_assoc, List.prefix_append_right_inj] at h
      have hseg : segment = segment' :=
        (stringCode_prefix_iff _ _ _).mp ((List.prefix_append _ _).trans h)
      subst hseg
      rw [List.prefix_append_right_inj] at h
      exact List.cons_prefix_cons.mpr ⟨rfl, ih h⟩

/-- And those of the document itself come first. -/
theorem documentMutationKey_lt (u : List Byte) (path path' : List (List Byte)) (segment : List Byte)
    (b c : ℤ) : documentMutationKey u path b <
      documentMutationKey u (path ++ segment :: path') c := by
  have hcode : pathCode (path ++ segment :: path') =
      pathCode path ++ (labelCode .pathSegment ++ stringCode segment ++ pathCode path') := by
    unfold pathCode
    rw [List.flatMap_append, List.flatMap_cons]
  unfold documentMutationKey
  rw [hcode]
  apply Below.lt
  simp only [batchCode, List.append_assoc, below_append_left]
  exact batch_below_segment.append _ _

/-- The rows of the mutation queues are sorted by users and then by batch ids. Those of a user
begin with the prefix of the user, and they are all between it and its successor. -/
theorem the_rows_of_a_user_stand_together (u v : List Byte) {b c : ℤ} (hb : IsInt32 b) (hc : IsInt32 c) :
    ∃ p k l, LevelDbMutationKey.keyPrefix u = .ok p ∧ LevelDbMutationKey.key u b = .ok k ∧
      LevelDbMutationKey.key v c = .ok l ∧ (k < l ↔ u < v ∨ u = v ∧ b < c) ∧
      (k = l ↔ u = v ∧ b = c) ∧ (p <+: l ↔ u = v) ∧ (p ≤ l ∧ l < prefixSuccessor p ↔ u = v) := by
  refine ⟨userKeyPrefix kMutationsTable u, mutationKey u b, mutationKey v c, LevelDbMutationKey.keyPrefix_eq u,
    LevelDbMutationKey.key_eq u hb, LevelDbMutationKey.key_eq v hc, mutationKey_lt_iff hb hc, ?_, ?_, ?_⟩
  · constructor
    · exact mutationKey_inj hb hc
    · rintro ⟨rfl, rfl⟩
      rfl
  · exact userKeyPrefix_prefix_iff kMutationsTable u v (batchCode c)
  · have hle := userKeyPrefix_le_iff kMutationsTable u v (batchCode c)
    have hlt := userKeyPrefix_lt_successor_iff kMutationsTable u v (batchCode c)
    exact (and_congr hle hlt).trans le_antisymm_iff.symm

theorem the_rows_of_nobody_stand_together :
    ∃ p k l, LevelDbMutationKey.keyPrefix [] = .ok p ∧ LevelDbMutationKey.key [] (-1) = .ok k ∧
      LevelDbMutationKey.key (ascii "a") 7 = .ok l ∧ k < l ∧ ¬ p <+: l := by
  obtain ⟨p, k, l, hp, hk, hl, hlt, -, hpre, -⟩ :=
    the_rows_of_a_user_stand_together [] (ascii "a") (b := -1) (c := 7) (by decide) (by decide)
  exact ⟨p, k, l, hp, hk, hl, hlt.mpr (Or.inl (by decide)), fun h => absurd (hpre.mp h) (by decide)⟩

/-- Bytes are decoded as a key of a batch, or of the index, exactly when they begin with
the bytes that this key is written as. -/
theorem keys_are_decoded_as_they_are_written (p userId : List Byte) (batchId : ℤ) (documentKey : DocumentKey) :
    (LevelDbMutationKey.decode p = .ok ⟨userId, batchId⟩ ↔
      IsInt32 batchId ∧ ∃ k, LevelDbMutationKey.key userId batchId = .ok k ∧ k <+: p) ∧
    (LevelDbDocumentMutationKey.decode p = .ok ⟨userId, documentKey, batchId⟩ ↔
      IsInt32 batchId ∧ ∃ k, LevelDbDocumentMutationKey.key userId documentKey batchId = .ok k ∧ k <+: p) := by
  rw [LevelDbMutationKey.decode_iff, LevelDbDocumentMutationKey.decode_iff]
  constructor
  · refine and_congr_right fun hb => ?_
    rw [LevelDbMutationKey.key_eq userId hb]
    simp only [Except.ok.injEq, exists_eq_left', List.IsPrefix]
    exact exists_congr fun rest => eq_comm
  · refine and_congr_right fun hb => ?_
    rw [LevelDbDocumentMutationKey.key_eq userId documentKey hb]
    simp only [Except.ok.injEq, exists_eq_left', List.IsPrefix]
    exact exists_congr fun rest => eq_comm

end EasyVerbs.Firestore
