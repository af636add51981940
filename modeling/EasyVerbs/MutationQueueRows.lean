-- What the calls of a mutation queue read and write. The rows of the tables are
-- the batches of all users that wait for the server, in the order of their
-- ids, and each call of a queue is told here by this list alone.
import EasyVerbs.LevelDbMutationQueue

namespace EasyVerbs.Firestore

open Codes SortedRows

variable {α υ : Type}

/-! ## Scans -/

/-- A loop over the rows of an iterator takes the rows up to the first one that is no more. -/
theorem Iterator.Reads.rowsWhile_eq {txn : LevelDbTransaction υ} {it : Iterator υ} {rows : List (Row υ)}
    (h : Reads txn it rows) {more : Key → Checked Bool} {p : Key → Bool}
    (hmore : ∀ row ∈ rows, more row.1 = .ok (p row.1)) {turns : ℕ} (hturns : rows.length < turns) :
    it.rowsWhile txn more turns = .ok (rows.takeWhile (p ·.1)) := by
  induction rows generalizing it turns with
  | nil =>
    cases turns with
    | zero => exact absurd hturns (Nat.not_lt_zero _)
    | succ turns =>
      have hentry : it.entry = none := h.entry_eq
      rw [rowsWhile, hentry]
      rfl
  | cons row rows ih =>
    cases turns with
    | zero => exact absurd hturns (Nat.not_lt_zero _)
    | succ turns =>
      have hentry : it.entry = some row := h.entry_eq
      obtain ⟨it', hnext, hreads⟩ := h.next
      rw [List.forall_mem_cons] at hmore
      have hrest := ih hreads hmore.2 (Nat.lt_of_succ_lt_succ hturns)
      rw [rowsWhile, hentry]
      simp only [hmore.1, bind, Except.bind]
      cases hp : p row.1 with
      | false => simp [hp, pure, Except.pure]
      | true => simp [hp, hnext, hrest, pure, Except.pure]

theorem LevelDbTransaction.scan_eq [Inhabited υ] (txn : LevelDbTransaction υ) (start : Key)
    {more : Key → Checked Bool} {p : Key → Bool}
    (hmore : ∀ row ∈ txn.commit.seek start, more row.1 = .ok (p row.1)) :
    txn.scan start more = .ok ((txn.commit.seek start).takeWhile (p ·.1)) := by
  exact (Iterator.reads_seek txn _ start).rowsWhile_eq hmore
    (Nat.lt_succ_of_le (txn.commit.length_seek_le start))

/-- From a key on the rows that begin with it come first. -/
theorem seek_takeWhile_prefix (t : Table Key υ) (p : Key) :
    (t.seek p).takeWhile (p.isPrefixOf ·.1) = t.rows.filter (p.isPrefixOf ·.1) := by
  have hge : ∀ row ∈ t.seek p, p ≤ row.1 := by
    intro row hrow
    rw [t.seek_eq] at hrow
    exact (atLeast_iff _ _).mp (List.mem_filter.mp hrow).2
  have hpair : (t.seek p).Pairwise fun r s => p.isPrefixOf s.1 = true → p.isPrefixOf r.1 = true := by
    have hord : (t.seek p).Pairwise fun r s => r.1 < s.1 := t.inOrder.dropWhile _
    refine hord.imp_of_mem fun hr _ hlt hs => ?_
    rw [List.isPrefixOf_iff_prefix] at hs ⊢
    exact prefix_of_between (hge _ hr) hlt.le hs
  rw [takeWhile_eq_filter hpair, t.seek_eq, List.filter_filter]
  refine List.filter_congr fun row _ => ?_
  cases hp : p.isPrefixOf row.1 with
  | false => rfl
  | true =>
    have hle : p ≤ row.1 := le_of_isPrefix (List.isPrefixOf_iff_prefix.mp hp)
    simp [hle]

theorem LevelDbTransaction.scan_startsWith [Inhabited υ] (txn : LevelDbTransaction υ) (p : Key) :
    txn.scan p (startsWith p) = .ok (txn.commit.rows.filter (p.isPrefixOf ·.1)) := by
  rw [txn.scan_eq p (p := p.isPrefixOf) fun _ _ => rfl, seek_takeWhile_prefix]

/-- The first row from a key on. -/
theorem LevelDbTransaction.entry_seek [Inhabited υ] (txn : LevelDbTransaction υ) (key : Key) :
    (txn.newIterator.seek txn key).entry = (txn.commit.seek key).head? :=
  (Iterator.reads_seek txn _ key).entry_eq

/-! ## The batches in the rows -/

/-- The batches that wait for the server, of all users. -/
abbrev Pending (α : Type) := List (List Byte × MutationBatch α)

namespace Pending

def queueOf (pending : Pending α) (userId : List Byte) : List (MutationBatch α) :=
  (pending.filter (·.1 = userId)).map Prod.snd

/-- The batches stand in the order of their ids, which are the positive numbers of an `int32_t`. -/
structure Numbered (pending : Pending α) : Prop where
  inOrder : pending.Pairwise fun d e => d.2.batchId < e.2.batchId
  positive : ∀ e ∈ pending, 1 ≤ e.2.batchId
  isInt32 : ∀ e ∈ pending, IsInt32 e.2.batchId

variable {pending : Pending α} {userId : List Byte} {batch : MutationBatch α}

theorem mem_queueOf : batch ∈ pending.queueOf userId ↔ (userId, batch) ∈ pending := by
  unfold queueOf
  rw [List.mem_map]
  constructor
  · rintro ⟨⟨u, b⟩, hmem, rfl⟩
    obtain ⟨hmem, hu⟩ := List.mem_filter.mp hmem
    rw [← (of_decide_eq_true hu : u = userId)]
    exact hmem
  · intro hmem
    exact ⟨_, List.mem_filter.mpr ⟨hmem, decide_eq_true rfl⟩, rfl⟩

theorem Numbered.queueOf_inOrder (h : pending.Numbered) (userId : List Byte) :
    (pending.queueOf userId).Pairwise fun b c => b.batchId < c.batchId := by
  unfold queueOf
  rw [List.pairwise_map]
  exact h.inOrder.filter _

theorem Numbered.eq_of_batchId (h : pending.Numbered) {d e : List Byte × MutationBatch α} (hd : d ∈ pending)
    (he : e ∈ pending) (hid : d.2.batchId = e.2.batchId) : d = e := by
  have hinj := h.inOrder
  induction pending with
  | nil => cases hd
  | cons f pending ih =>
    obtain ⟨hf, hrest⟩ := List.pairwise_cons.mp hinj
    rcases List.mem_cons.mp hd with rfl | hd' <;> rcases List.mem_cons.mp he with rfl | he'
    · rfl
    · exact absurd hid (hf e he').ne
    · exact absurd hid (hf d hd').ne'
    · refine ih ⟨hrest, ?_, ?_⟩ hd' he' hrest
      · exact fun e he => h.positive e (List.mem_cons_of_mem _ he)
      · exact fun e he => h.isInt32 e (List.mem_cons_of_mem _ he)

end Pending

/-- A key of the table. -/
def InTable (table : List Byte) (key : Key) : Prop := tableCode table <+: key

/-- Rows in the three tables of the queues. -/
structure HasRows (t : Table Key (Value α)) (B I T : Key → Value α → Prop) : Prop where
  tables : ∀ row ∈ t.rows, ∃ table, InTable table row.1
  batches : t.Has (InTable kMutationsTable) B
  index : t.Has (InTable kDocumentMutationsTable) I
  streamTokens : t.Has (InTable kMutationQueuesTable) T
  version : ∃ value, (tableCode kVersionGlobalTable ++ labelCode .terminator, value) ∈ t.rows

def batchRow (pending : Pending α) (key : Key) (value : Value α) : Prop :=
  ∃ e ∈ pending, key = mutationKey e.1 e.2.batchId ∧ value = .writeBatch e.2

def indexRow (pending : Pending α) (key : Key) (value : Value α) : Prop :=
  ∃ e ∈ pending, ∃ mutation ∈ e.2.mutations,
    key = documentMutationKey e.1 mutation.key.path e.2.batchId ∧ value = emptyBuffer

def tokenRow (tokens : List Byte → Option (List Byte)) (key : Key) (value : Value α) : Prop :=
  ∃ userId token, tokens userId = some token ∧ key = mutationQueueKey userId ∧ value = .mutationQueue token

/-- The rows of the tables are the pending batches, their index and the stream tokens. -/
structure Represents (t : Table Key (Value α)) (pending : Pending α)
    (tokens : List Byte → Option (List Byte)) : Prop
    extends HasRows t (batchRow pending) (indexRow pending) (tokenRow tokens) where
  numbered : pending.Numbered

theorem inTable_iff (table table' : List Byte) (rest : Key) :
    InTable table (tableCode table' ++ rest) ↔ table = table' :=
  tableCode_prefix_iff table table' rest

theorem inTable_mutationKey (table u : List Byte) (b : ℤ) :
    InTable table (mutationKey u b) ↔ table = kMutationsTable := by
  unfold mutationKey
  rw [List.append_assoc, inTable_iff]

theorem inTable_documentMutationKey (table u : List Byte) (path : List (List Byte)) (b : ℤ) :
    InTable table (documentMutationKey u path b) ↔ table = kDocumentMutationsTable := by
  unfold documentMutationKey
  rw [List.append_assoc, List.append_assoc, inTable_iff]

theorem inTable_mutationQueueKey (table u : List Byte) :
    InTable table (mutationQueueKey u) ↔ table = kMutationQueuesTable := by
  unfold mutationQueueKey
  rw [List.append_assoc, inTable_iff]

theorem inTable_of_userKeyPrefix {table u : List Byte} {key : Key} (h : userKeyPrefix table u <+: key) :
    InTable table key :=
  (List.prefix_append _ _).trans h

theorem userKeyPrefix_mutationKey (u v : List Byte) (b : ℤ) :
    userKeyPrefix kMutationsTable u <+: mutationKey v b ↔ u = v :=
  userKeyPrefix_prefix_iff kMutationsTable u v (batchCode b)

/-! ## What the calls read -/

theorem mapM_ok {β γ : Type} {f : β → Checked γ} {g : β → γ} {l : List β} (h : ∀ x ∈ l, f x = .ok (g x)) :
    l.mapM f = .ok (l.map g) := by
  induction l with
  | nil => rfl
  | cons x l ih =>
    rw [List.forall_mem_cons] at h
    rw [List.mapM_cons, h.1, ih h.2]
    rfl

theorem exists_mapM {β γ : Type} {f : β → Checked γ} {l : List β} (h : ∀ x ∈ l, ∃ y, f x = .ok y) :
    ∃ ys, l.mapM f = .ok ys ∧ ∀ y, y ∈ ys ↔ ∃ x ∈ l, f x = .ok y := by
  induction l with
  | nil => exact ⟨[], rfl, by simp⟩
  | cons x l ih =>
    rw [List.forall_mem_cons] at h
    obtain ⟨⟨y, hy⟩, hl⟩ := h
    obtain ⟨ys, hys, hmem⟩ := ih hl
    refine ⟨y :: ys, by rw [List.mapM_cons, hy, hys]; rfl, fun z => ?_⟩
    rw [List.mem_cons, hmem, List.exists_mem_cons_iff, hy, Except.ok.injEq, eq_comm]

section
variable {t : Table Key (Value α)} {pending : Pending α} {tokens : List Byte → Option (List Byte)}

theorem Represents.mem_mutationKey (h : Represents t pending tokens) {u : List Byte} {b : ℤ} {value : Value α}
    (hb : IsInt32 b) :
    (mutationKey u b, value) ∈ t.rows ↔
      ∃ batch, (u, batch) ∈ pending ∧ batch.batchId = b ∧ value = .writeBatch batch := by
  rw [h.batches _ _ ((inTable_mutationKey _ u b).mpr rfl)]
  constructor
  · rintro ⟨e, he, hkey, rfl⟩
    obtain ⟨rfl, rfl⟩ := mutationKey_inj hb (h.numbered.isInt32 e he) hkey
    exact ⟨e.2, he, rfl, rfl⟩
  · rintro ⟨batch, hmem, rfl, rfl⟩
    exact ⟨_, hmem, rfl, rfl⟩

/-- A row with the prefix of a user is the row of a batch of the user. -/
theorem Represents.mem_userKeyPrefix (h : Represents t pending tokens) {u : List Byte} {row : Row (Value α)} :
    row ∈ t.rows ∧ userKeyPrefix kMutationsTable u <+: row.1 ↔
      ∃ batch, (u, batch) ∈ pending ∧ row = (mutationKey u batch.batchId, .writeBatch batch) := by
  constructor
  · rintro ⟨hrow, hu⟩
    obtain ⟨e, he, hkey, hvalue⟩ := (h.batches row.1 row.2 (inTable_of_userKeyPrefix hu)).mp hrow
    rw [hkey, userKeyPrefix_mutationKey] at hu
    subst hu
    exact ⟨e.2, he, Prod.ext hkey hvalue⟩
  · rintro ⟨batch, hmem, rfl⟩
    refine ⟨(h.mem_mutationKey (h.numbered.isInt32 _ hmem)).mpr ⟨batch, hmem, rfl, rfl⟩, ?_⟩
    exact (userKeyPrefix_mutationKey _ _ _).mpr rfl

theorem Represents.rows_of_user (h : Represents t pending tokens) (u : List Byte) :
    t.rows.filter ((userKeyPrefix kMutationsTable u).isPrefixOf ·.1) =
      (pending.queueOf u).map fun batch => (mutationKey u batch.batchId, .writeBatch batch) := by
  refine InOrder.ext (t.inOrder.filter _) ?_ fun row => ?_
  · refine List.pairwise_map.mpr ((h.numbered.queueOf_inOrder u).imp_of_mem fun hb hc hlt => ?_)
    have hb := h.numbered.isInt32 _ (Pending.mem_queueOf.mp hb)
    have hc := h.numbered.isInt32 _ (Pending.mem_queueOf.mp hc)
    exact (mutationKey_lt_iff hb hc).mpr (Or.inr ⟨rfl, hlt⟩)
  · rw [List.mem_filter, List.isPrefixOf_iff_prefix, h.mem_userKeyPrefix, List.mem_map]
    constructor
    · rintro ⟨batch, hmem, rfl⟩
      exact ⟨batch, Pending.mem_queueOf.mpr hmem, rfl⟩
    · rintro ⟨batch, hmem, rfl⟩
      exact ⟨batch, Pending.mem_queueOf.mp hmem, rfl⟩

/-- A row decodes as the key of a batch when it is one, and else it is of another table. -/
theorem Represents.decode_row (h : Represents t pending tokens) {row : Row (Value α)} (hrow : row ∈ t.rows) :
    (∃ e ∈ pending, row = (mutationKey e.1 e.2.batchId, .writeBatch e.2) ∧
      succeeds (LevelDbMutationKey.decode row.1) = .ok (some ⟨e.1, e.2.batchId⟩)) ∨
    ¬ InTable kMutationsTable row.1 ∧ succeeds (LevelDbMutationKey.decode row.1) = .ok none := by
  by_cases hin : InTable kMutationsTable row.1
  · obtain ⟨e, he, hkey, hvalue⟩ := (h.batches row.1 row.2 hin).mp hrow
    refine Or.inl ⟨e, he, Prod.ext hkey hvalue, ?_⟩
    rw [hkey, LevelDbMutationKey.decode_key _ (h.numbered.isInt32 e he)]
    rfl
  · obtain ⟨table, rest, hkey⟩ := h.tables row hrow
    have hne : table ≠ kMutationsTable := by
      rintro rfl
      exact hin ⟨rest, hkey⟩
    refine Or.inr ⟨hin, ?_⟩
    rw [← hkey, LevelDbMutationKey.decode_other hne]
    rfl

end

namespace LevelDbMutationQueue

variable (q : LevelDbMutationQueue) {txn : LevelDbTransaction (Value α)} {pending : Pending α}
  {tokens : List Byte → Option (List Byte)}

theorem keyPrefix_userKeyPrefix (u : List Byte) :
    LevelDbMutationKey.keyPrefix u = .ok (userKeyPrefix kMutationsTable u) :=
  LevelDbMutationKey.keyPrefix_eq u

theorem allMutationBatches_eq (h : Represents txn.commit pending tokens) :
    q.allMutationBatches txn = .ok (pending.queueOf q.userId) := by
  have hparse : ((txn.commit.rows.filter ((userKeyPrefix kMutationsTable q.userId).isPrefixOf ·.1)).mapM
      fun row => parseMutationBatch row.2) = .ok (pending.queueOf q.userId) := by
    rw [h.rows_of_user, List.mapM_map]
    exact (mapM_ok fun _ _ => rfl).trans (congrArg _ (List.map_id _))
  unfold allMutationBatches
  rw [keyPrefix_userKeyPrefix]
  simp only [bind, Except.bind, txn.scan_startsWith]
  exact hparse

theorem isEmpty_eq (h : Represents txn.commit pending tokens) :
    q.isEmpty txn = .ok (pending.queueOf q.userId).isEmpty := by
  have hrows := h.rows_of_user q.userId
  rw [← seek_takeWhile_prefix] at hrows
  have hlen := congrArg List.isEmpty hrows
  rw [List.isEmpty_map] at hlen
  unfold isEmpty
  rw [keyPrefix_userKeyPrefix]
  simp only [bind, Except.bind, txn.entry_seek]
  rw [← hlen]
  cases txn.commit.seek (userKeyPrefix kMutationsTable q.userId) with
  | nil => rfl
  | cons row rows =>
    cases hp : (userKeyPrefix kMutationsTable q.userId).isPrefixOf row.1 <;>
      simp [startsWith, hp, pure, Except.pure]

theorem find?_queueOf (h : pending.Numbered) {u : List Byte} {p : MutationBatch α → Bool}
    {batch : MutationBatch α} :
    (pending.queueOf u).find? p = some batch ↔ (u, batch) ∈ pending ∧ p batch = true ∧
      ∀ other, (u, other) ∈ pending → p other = true → batch.batchId ≤ other.batchId := by
  rw [find?_eq_some_of_increasing (h.queueOf_inOrder u)]
  simp only [Pending.mem_queueOf]

theorem lookupMutationBatch_eq (hwf : txn.WellFormed) (h : Represents txn.commit pending tokens) {batchId : ℤ}
    (hid : IsInt32 batchId) :
    q.lookupMutationBatch txn batchId =
      .ok ((pending.queueOf q.userId).find? (·.batchId = batchId)) := by
  unfold lookupMutationBatch mutationBatchKey
  rw [LevelDbMutationKey.key_eq _ hid]
  simp only [bind, Except.bind, txn.get_eq hwf]
  have hrow : ∀ value, txn.commit.get (mutationKey q.userId batchId) = some value ↔
      ∃ batch, (q.userId, batch) ∈ pending ∧ batch.batchId = batchId ∧ value = .writeBatch batch :=
    fun value => by rw [Table.get_eq_some, h.mem_mutationKey hid]
  cases hfind : (pending.queueOf q.userId).find? (·.batchId = batchId) with
  | some batch =>
    obtain ⟨hmem, hbatch, -⟩ := (find?_queueOf h.numbered).mp hfind
    rw [(hrow _).mpr ⟨batch, hmem, of_decide_eq_true hbatch, rfl⟩]
    rfl
  | none =>
    cases hget : txn.commit.get (mutationKey q.userId batchId) with
    | none => rfl
    | some value =>
      obtain ⟨batch, hmem, hbatch, -⟩ := (hrow value).mp hget
      have hnot := List.find?_eq_none.mp hfind batch (Pending.mem_queueOf.mpr hmem)
      exact absurd (decide_eq_true hbatch) hnot

/-- The first row from the key of a batch id on is the next batch of the user, or of no
batch of the user. -/
theorem nextMutationBatchAfterBatchId_eq (h : Represents txn.commit pending tokens) {batchId : ℤ}
    (hid : IsInt32 (batchId + 1)) :
    q.nextMutationBatchAfterBatchId txn batchId =
      .ok ((pending.queueOf q.userId).find? (batchId < ·.batchId)) := by
  unfold nextMutationBatchAfterBatchId mutationBatchKey increment
  rw [if_pos hid]
  simp only [bind, Except.bind, LevelDbMutationKey.key_eq _ hid, txn.entry_seek]
  cases hfind : (pending.queueOf q.userId).find? (batchId < ·.batchId) with
  | some batch =>
    obtain ⟨hmem, hlt, hleast⟩ := (find?_queueOf h.numbered).mp hfind
    have hlt : batchId < batch.batchId := of_decide_eq_true hlt
    have hbatch := h.numbered.isInt32 _ hmem
    obtain ⟨hrow, hpre⟩ := h.mem_userKeyPrefix.mpr ⟨batch, hmem, rfl⟩
    have hhead : (txn.commit.seek (mutationKey q.userId (batchId + 1))).head? =
        some (mutationKey q.userId batch.batchId, .writeBatch batch) := by
      refine Table.head?_seek_eq_some.mpr ⟨hrow, (mutationKey_le_iff hid hbatch).mpr hlt, fun s hs hle => ?_⟩
      by_contra hnot
      -- A row in between is of the user as well.
      have hstart : userKeyPrefix kMutationsTable q.userId ≤ s.1 :=
        (le_of_isPrefix ((userKeyPrefix_mutationKey _ _ _).mpr rfl)).trans hle
      have huser := prefix_of_between hstart (not_le.mp hnot).le hpre
      obtain ⟨other, hother, rfl⟩ := h.mem_userKeyPrefix.mp ⟨hs, huser⟩
      have hother32 : IsInt32 other.batchId := h.numbered.isInt32 _ hother
      have hge := (mutationKey_le_iff hid hother32).mp hle
      have hbefore := hleast other hother (decide_eq_true (by omega))
      exact hnot ((mutationKey_le_iff hbatch hother32).mpr hbefore)
    have hdecode := LevelDbMutationKey.decode_key q.userId hbatch
    have hnext : batchId + 1 ≤ batch.batchId := hlt
    rw [hhead]
    simp [hdecode, succeeds, hardAssert, hnext, parseMutationBatch, pure, Except.pure]
  | none =>
    cases hhead : (txn.commit.seek (mutationKey q.userId (batchId + 1))).head? with
    | none => rfl
    | some row =>
      obtain ⟨hrow, hle, -⟩ := Table.head?_seek_eq_some.mp hhead
      rcases h.decode_row hrow with ⟨e, he, rfl, hdecode⟩ | ⟨-, hdecode⟩
      · have huser : e.1 ≠ q.userId := by
          intro hu
          rw [hu, mutationKey_le_iff hid (h.numbered.isInt32 e he)] at hle
          have hmem : e.2 ∈ pending.queueOf q.userId := Pending.mem_queueOf.mpr (hu ▸ he)
          exact List.find?_eq_none.mp hfind e.2 hmem (decide_eq_true (by omega))
        simp [hdecode, huser, pure, Except.pure]
      · simp [hdecode, pure, Except.pure]

end LevelDbMutationQueue

/-! ### The batches of documents -/

theorem mem_insertBatchId (batchId id : ℤ) (batchIds : List ℤ) :
    id ∈ insertBatchId batchId batchIds ↔ id = batchId ∨ id ∈ batchIds := by
  induction batchIds with
  | nil => simp [insertBatchId]
  | cons other batchIds ih =>
    rw [insertBatchId]
    split_ifs with hlt heq
    · rw [List.mem_cons]
    · simp [heq]
    · rw [List.mem_cons, ih, List.mem_cons, or_left_comm]

theorem insertBatchId_inOrder (batchId : ℤ) {batchIds : List ℤ} (h : batchIds.Pairwise (· < ·)) :
    (insertBatchId batchId batchIds).Pairwise (· < ·) := by
  induction batchIds with
  | nil => simp [insertBatchId]
  | cons other batchIds ih =>
    obtain ⟨hother, hrest⟩ := List.pairwise_cons.mp h
    rw [insertBatchId]
    split_ifs with hlt heq
    · refine List.pairwise_cons.mpr ⟨fun id hid => ?_, h⟩
      rcases List.mem_cons.mp hid with rfl | hid
      · exact hlt
      · exact hlt.trans (hother id hid)
    · exact h
    · refine List.pairwise_cons.mpr ⟨fun id hid => ?_, ih hrest⟩
      rcases (mem_insertBatchId _ _ _).mp hid with rfl | hid
      · omega
      · exact hother id hid

theorem foldl_insertBatchId (found : List ℤ) {batchIds : List ℤ} (h : batchIds.Pairwise (· < ·)) :
    (found.foldl (fun batchIds id => insertBatchId id batchIds) batchIds).Pairwise (· < ·) ∧
      ∀ id, id ∈ found.foldl (fun batchIds id => insertBatchId id batchIds) batchIds ↔
        id ∈ batchIds ∨ id ∈ found := by
  induction found generalizing batchIds with
  | nil => exact ⟨h, by simp⟩
  | cons id found ih =>
    obtain ⟨hord, hfold⟩ := ih (insertBatchId_inOrder id h)
    refine ⟨hord, fun x => ?_⟩
    rw [List.foldl_cons, hfold, mem_insertBatchId, List.mem_cons, or_assoc, or_left_comm]

section
variable {t : Table Key (Value α)} {pending : Pending α} {tokens : List Byte → Option (List Byte)}

/-- The batch has a mutation of the document. -/
def MutationBatch.affects (batch : MutationBatch α) (key : DocumentKey) : Prop :=
  ∃ mutation ∈ batch.mutations, mutation.key = key

/-- A row of the index with the path of a document is for the document or for one below it. -/
theorem Represents.mem_pathPrefix (h : Represents t pending tokens) {u : List Byte} {path : List (List Byte)}
    {row : Row (Value α)} (hrow : row ∈ t.rows)
    (hpre : userKeyPrefix kDocumentMutationsTable u ++ pathCode path <+: row.1) :
    ∃ batch, (u, batch) ∈ pending ∧ ∃ mutation ∈ batch.mutations, path <+: mutation.key.path ∧
      row = (documentMutationKey u mutation.key.path batch.batchId, emptyBuffer) := by
  have huser : userKeyPrefix kDocumentMutationsTable u <+: row.1 := (List.prefix_append _ _).trans hpre
  obtain ⟨⟨v, batch⟩, he, mutation, hm, hkey, hvalue⟩ :=
    (h.index row.1 row.2 (inTable_of_userKeyPrefix huser)).mp hrow
  have hcode : row.1 = userKeyPrefix kDocumentMutationsTable v ++
      (pathCode mutation.key.path ++ batchCode batch.batchId) := by
    rw [hkey]
    simp only [documentMutationKey, userKeyPrefix, List.append_assoc]
  rw [hcode, userKeyPrefix_prefix_iff] at huser
  subst huser
  refine ⟨batch, he, mutation, hm, ?_, Prod.ext hkey hvalue⟩
  rw [hcode, List.prefix_append_right_inj, ← List.append_nil (batchCode _)] at hpre
  exact pathCode_prefix hpre

theorem Represents.mem_index (h : Represents t pending tokens) {u : List Byte} {batch : MutationBatch α}
    (hmem : (u, batch) ∈ pending) {mutation : Mutation α} (hm : mutation ∈ batch.mutations) :
    (documentMutationKey u mutation.key.path batch.batchId, emptyBuffer) ∈ t.rows :=
  (h.index _ _ ((inTable_documentMutationKey _ _ _ _).mpr rfl)).mpr ⟨_, hmem, mutation, hm, rfl, rfl⟩

theorem documentMutationKey_prefix (u : List Byte) (path : List (List Byte)) (b : ℤ) :
    userKeyPrefix kDocumentMutationsTable u ++ pathCode path <+: documentMutationKey u path b := by
  refine ⟨batchCode b, ?_⟩
  simp only [documentMutationKey, userKeyPrefix, List.append_assoc]

/-- Whether a key of the index is for the document. -/
def isKeyOf (u : List Byte) (documentKey : DocumentKey) (key : Key) : Bool :=
  match LevelDbDocumentMutationKey.decode key with
  | .ok rowKey => (userKeyPrefix kDocumentMutationsTable u ++ pathCode documentKey.path).isPrefixOf key &&
      decide (rowKey.documentKey = documentKey)
  | .error _ => false

theorem Represents.isRowOf_eq (h : Represents t pending tokens) (u : List Byte) (documentKey : DocumentKey)
    {row : Row (Value α)} (hrow : row ∈ t.rows) :
    LevelDbMutationQueue.isRowOf (userKeyPrefix kDocumentMutationsTable u ++ pathCode documentKey.path)
      documentKey row.1 = .ok (isKeyOf u documentKey row.1) := by
  unfold LevelDbMutationQueue.isRowOf isKeyOf startsWith
  cases hpre : (userKeyPrefix kDocumentMutationsTable u ++ pathCode documentKey.path).isPrefixOf row.1 with
  | false => cases LevelDbDocumentMutationKey.decode row.1 <;> rfl
  | true =>
    obtain ⟨batch, hmem, mutation, -, -, rfl⟩ := h.mem_pathPrefix hrow (List.isPrefixOf_iff_prefix.mp hpre)
    rw [LevelDbDocumentMutationKey.decode_key _ _ (h.numbered.isInt32 _ hmem)]
    rfl

/-- The rows of a document: those of its mutations in the batches of the user. -/
theorem Represents.isKeyOf_iff (h : Represents t pending tokens) {u : List Byte} {documentKey : DocumentKey}
    {row : Row (Value α)} :
    row ∈ t.rows ∧ isKeyOf u documentKey row.1 = true ↔
      ∃ batch, (u, batch) ∈ pending ∧ batch.affects documentKey ∧
        row = (documentMutationKey u documentKey.path batch.batchId, emptyBuffer) := by
  constructor
  · rintro ⟨hrow, hkey⟩
    unfold isKeyOf at hkey
    cases hdecode : LevelDbDocumentMutationKey.decode row.1 with
    | error e => simp [hdecode] at hkey
    | ok rowKey =>
      simp only [hdecode, Bool.and_eq_true, List.isPrefixOf_iff_prefix, decide_eq_true_eq] at hkey
      obtain ⟨batch, hmem, mutation, hm, -, rfl⟩ := h.mem_pathPrefix hrow hkey.1
      rw [LevelDbDocumentMutationKey.decode_key _ _ (h.numbered.isInt32 _ hmem)] at hdecode
      cases hdecode
      refine ⟨batch, hmem, ⟨mutation, hm, hkey.2⟩, ?_⟩
      rw [← hkey.2]
  · rintro ⟨batch, hmem, ⟨mutation, hm, rfl⟩, rfl⟩
    refine ⟨h.mem_index hmem hm, ?_⟩
    unfold isKeyOf
    rw [LevelDbDocumentMutationKey.decode_key _ _ (h.numbered.isInt32 _ hmem)]
    simp [List.isPrefixOf_iff_prefix, documentMutationKey_prefix]

/-- In the index the rows of the document come before those of the documents below it. -/
theorem Represents.takeWhile_isKeyOf (h : Represents t pending tokens) (u : List Byte)
    (documentKey : DocumentKey) :
    (t.seek (userKeyPrefix kDocumentMutationsTable u ++ pathCode documentKey.path)).takeWhile
        (isKeyOf u documentKey ·.1) =
      t.rows.filter (isKeyOf u documentKey ·.1) := by
  have hstart : ∀ row ∈ t.rows, isKeyOf u documentKey row.1 = true →
      userKeyPrefix kDocumentMutationsTable u ++ pathCode documentKey.path <+: row.1 := by
    intro row hrow hkey
    obtain ⟨batch, -, -, rfl⟩ := h.isKeyOf_iff.mp ⟨hrow, hkey⟩
    exact documentMutationKey_prefix _ _ _
  generalize hp : userKeyPrefix kDocumentMutationsTable u ++ pathCode documentKey.path = p at hstart
  have hpair : (t.seek p).Pairwise fun r s =>
      isKeyOf u documentKey s.1 = true → isKeyOf u documentKey r.1 = true := by
    have hord : (t.seek p).Pairwise fun r s => r.1 < s.1 := t.inOrder.dropWhile _
    refine hord.imp_of_mem fun {r s} hr hs hlt hkey => ?_
    obtain ⟨hr, hle⟩ := Table.mem_seek.mp hr
    obtain ⟨hs, -⟩ := Table.mem_seek.mp hs
    have hpre : p <+: r.1 := prefix_of_between hle hlt.le (hstart s hs hkey)
    obtain ⟨batch, -, -, rfl⟩ := h.isKeyOf_iff.mp ⟨hs, hkey⟩
    obtain ⟨batch', hmem', mutation, hm, ⟨rest, hrest⟩, rfl⟩ := h.mem_pathPrefix hr (hp ▸ hpre)
    cases rest with
    | nil =>
      rw [List.append_nil] at hrest
      have hkey : mutation.key = documentKey := DocumentKey.ext hrest.symm
      exact (h.isKeyOf_iff.mpr ⟨batch', hmem', ⟨mutation, hm, hkey⟩, by rw [hrest]⟩).2
    | cons segment path =>
      rw [← hrest] at hlt
      exact absurd hlt (documentMutationKey_lt u _ _ _ _ _).not_gt
  rw [takeWhile_eq_filter hpair, t.seek_eq, List.filter_filter]
  refine List.filter_congr fun row hrow => ?_
  cases hkey : isKeyOf u documentKey row.1 with
  | false => rfl
  | true => simp [le_of_isPrefix (hstart row hrow hkey)]

end

namespace LevelDbMutationQueue

variable (q : LevelDbMutationQueue) {txn : LevelDbTransaction (Value α)} {pending : Pending α}
  {tokens : List Byte → Option (List Byte)}

/-- The scan of the index for a document finds the batches that affect it. -/
theorem scan_isRowOf (h : Represents txn.commit pending tokens) (documentKey : DocumentKey) :
    ∃ rows ids,
      txn.scan (userKeyPrefix kDocumentMutationsTable q.userId ++ pathCode documentKey.path)
        (isRowOf (userKeyPrefix kDocumentMutationsTable q.userId ++ pathCode documentKey.path) documentKey) =
          .ok rows ∧
      rows.mapM rowBatchId = .ok ids ∧
      ∀ id, id ∈ ids ↔ ∃ batch, (q.userId, batch) ∈ pending ∧ batch.affects documentKey ∧ batch.batchId = id := by
  have hscan := txn.scan_eq (userKeyPrefix kDocumentMutationsTable q.userId ++ pathCode documentKey.path)
    fun row hrow => h.isRowOf_eq q.userId documentKey (Table.mem_seek.mp hrow).1
  rw [h.takeWhile_isKeyOf] at hscan
  have hrows : ∀ row, row ∈ txn.commit.rows.filter (isKeyOf q.userId documentKey ·.1) ↔ ∃ batch,
      (q.userId, batch) ∈ pending ∧ batch.affects documentKey ∧
        row = (documentMutationKey q.userId documentKey.path batch.batchId, emptyBuffer) :=
    fun row => by rw [List.mem_filter, h.isKeyOf_iff]
  have hid : ∀ batch, (q.userId, batch) ∈ pending →
      rowBatchId (υ := Value α) (documentMutationKey q.userId documentKey.path batch.batchId, emptyBuffer) =
        .ok batch.batchId := by
    intro batch hmem
    unfold rowBatchId
    rw [LevelDbDocumentMutationKey.decode_key _ _ (h.numbered.isInt32 _ hmem)]
    rfl
  obtain ⟨ids, hids, hmem⟩ := exists_mapM (f := rowBatchId)
    (l := txn.commit.rows.filter (isKeyOf q.userId documentKey ·.1)) fun row hrow => by
      obtain ⟨batch, hbatch, -, rfl⟩ := (hrows row).mp hrow
      exact ⟨_, hid batch hbatch⟩
  refine ⟨_, ids, hscan, hids, fun id => ?_⟩
  rw [hmem]
  constructor
  · rintro ⟨row, hrow, hrowid⟩
    obtain ⟨batch, hbatch, haffects, rfl⟩ := (hrows row).mp hrow
    rw [hid batch hbatch, Except.ok.injEq] at hrowid
    exact ⟨batch, hbatch, haffects, hrowid⟩
  · rintro ⟨batch, hbatch, haffects, rfl⟩
    exact ⟨_, (hrows _).mpr ⟨batch, hbatch, haffects, rfl⟩, hid batch hbatch⟩

/-- The ids are those of the batches that affect one of the documents, in order. -/
theorem batchIdsOf_eq (h : Represents txn.commit pending tokens) (documentKeys : List DocumentKey)
    {batchIds : List ℤ} (hids : batchIds.Pairwise (· < ·)) :
    ∃ ids, q.batchIdsOf txn documentKeys batchIds = .ok ids ∧ ids.Pairwise (· < ·) ∧
      ∀ id, id ∈ ids ↔ id ∈ batchIds ∨ ∃ batch, (q.userId, batch) ∈ pending ∧
        (∃ key ∈ documentKeys, batch.affects key) ∧ batch.batchId = id := by
  induction documentKeys generalizing batchIds with
  | nil => exact ⟨batchIds, rfl, hids, by simp⟩
  | cons documentKey documentKeys ih =>
    obtain ⟨rows, found, hscan, hfound, hmem⟩ := q.scan_isRowOf h documentKey
    obtain ⟨hord, hfold⟩ := foldl_insertBatchId found hids
    obtain ⟨ids, hrest, hsorted, hids⟩ := ih hord
    refine ⟨ids, ?_, hsorted, fun id => ?_⟩
    · rw [batchIdsOf, LevelDbDocumentMutationKey.pathKeyPrefix_eq]
      simp only [bind, Except.bind]
      rw [show tableCode kDocumentMutationsTable ++ userCode q.userId =
        userKeyPrefix kDocumentMutationsTable q.userId from rfl, hscan]
      simp only [hfound]
      exact hrest
    · rw [hids, hfold, hmem, or_assoc]
      simp only [List.mem_cons, exists_eq_or_imp]
      refine or_congr_right ?_
      rw [← exists_or]
      exact exists_congr fun batch => by tauto

theorem entry_seek_mutationKey (h : Represents txn.commit pending tokens) {u : List Byte}
    {batch : MutationBatch α} (hmem : (u, batch) ∈ pending) :
    (txn.newIterator.seek txn (mutationKey u batch.batchId)).entry =
      some (mutationKey u batch.batchId, .writeBatch batch) := by
  rw [txn.entry_seek]
  exact Table.head?_seek_of_mem ((h.mem_mutationKey (h.numbered.isInt32 _ hmem)).mpr ⟨batch, hmem, rfl, rfl⟩)

theorem allMutationBatchesWithIds_eq (h : Represents txn.commit pending tokens) {batches : List (MutationBatch α)}
    (hmem : ∀ batch ∈ batches, (q.userId, batch) ∈ pending) :
    q.allMutationBatchesWithIds txn (batches.map (·.batchId)) = .ok batches := by
  unfold allMutationBatchesWithIds
  rw [List.mapM_map]
  refine (mapM_ok (g := id) fun batch hbatch => ?_).trans (congrArg _ (List.map_id _))
  have hb := hmem batch hbatch
  have hid : IsInt32 batch.batchId := h.numbered.isInt32 _ hb
  have hkey : q.mutationBatchKey batch.batchId = .ok (mutationKey q.userId batch.batchId) :=
    LevelDbMutationKey.key_eq _ hid
  simp only [Function.comp_apply, hkey, bind, Except.bind, entry_seek_mutationKey h hb]
  simp [hardAssert, parseMutationBatch]

/-- The batches that affect one of the documents, in the order of the queue. No row of the
index is without its batch. -/
theorem allMutationBatchesAffectingDocumentKeys_eq (h : Represents txn.commit pending tokens)
    (documentKeys : List DocumentKey) :
    q.allMutationBatchesAffectingDocumentKeys txn documentKeys =
      .ok ((pending.queueOf q.userId).filter fun batch => batch.mutations.any (·.key ∈ documentKeys)) := by
  obtain ⟨ids, hids, hord, hmem⟩ := q.batchIdsOf_eq h documentKeys List.Pairwise.nil
  have hsame : ids = ((pending.queueOf q.userId).filter fun batch =>
      batch.mutations.any (·.key ∈ documentKeys)).map (·.batchId) := by
    refine List.Pairwise.eq_of_mem_iff hord ?_ fun id => ?_
    · exact List.pairwise_map.mpr ((h.numbered.queueOf_inOrder q.userId).filter _)
    · rw [hmem]
      simp only [List.not_mem_nil, false_or, List.mem_map, List.mem_filter, Pending.mem_queueOf,
        List.any_eq_true, decide_eq_true_eq, MutationBatch.affects]
      refine exists_congr fun batch => ?_
      constructor
      · rintro ⟨hb, ⟨_, hkey, mutation, hm, rfl⟩, hid⟩
        exact ⟨⟨hb, mutation, hm, hkey⟩, hid⟩
      · rintro ⟨⟨hb, mutation, hm, hkey⟩, hid⟩
        exact ⟨hb, ⟨_, hkey, mutation, hm, rfl⟩, hid⟩
  unfold allMutationBatchesAffectingDocumentKeys
  rw [hids, hsame]
  exact q.allMutationBatchesWithIds_eq h fun batch hbatch =>
    Pending.mem_queueOf.mp (List.mem_filter.mp hbatch).1

/-- The index has no row that is left over when the queue is empty. -/
theorem performConsistencyCheck_eq (h : Represents txn.commit pending tokens) :
    q.performConsistencyCheck txn = .ok () := by
  unfold performConsistencyCheck
  rw [q.isEmpty_eq h, LevelDbDocumentMutationKey.keyPrefix_eq]
  simp only [bind, Except.bind, txn.scan_startsWith]
  cases hempty : (pending.queueOf q.userId).isEmpty with
  | false => rfl
  | true =>
    have hnone : txn.commit.rows.filter
        ((tableCode kDocumentMutationsTable ++ userCode q.userId).isPrefixOf ·.1) = [] := by
      refine List.filter_eq_nil_iff.mpr fun row hrow hpre => ?_
      have hpath : userKeyPrefix kDocumentMutationsTable q.userId ++ pathCode [] <+: row.1 := by
        rw [pathCode_nil, List.append_nil]
        exact List.isPrefixOf_iff_prefix.mp hpre
      obtain ⟨batch, hmem, -⟩ := h.mem_pathPrefix hrow hpath
      have hqueue := Pending.mem_queueOf.mpr hmem
      rw [List.isEmpty_iff.mp hempty] at hqueue
      cases hqueue
    rw [hnone]
    rfl

end LevelDbMutationQueue

/-! ## Iterators of LevelDB -/

namespace DbIterator

variable (db : Table Key υ) (key : Key)

/-- From a place in the table the iterator goes back to the last row before it. -/
theorem prev_seek (h : db.seek key ≠ []) :
    ∃ it, (seek db key).prev = .ok it ∧ it.rest.head? = (db.upTo key).getLast? := by
  unfold seek prev
  cases hrest : db.seek key with
  | nil => exact absurd hrest h
  | cons row rest =>
    rw [← List.head?_reverse]
    cases (db.upTo key).reverse with
    | nil => exact ⟨_, rfl, rfl⟩
    | cons last before => exact ⟨_, rfl, rfl⟩

theorem key_eq {it : DbIterator υ} {row : Row υ} (h : it.rest.head? = some row) : it.key = .ok row.1 := by
  obtain ⟨rest, hrest⟩ := List.head?_eq_some_iff.mp h
  unfold DbIterator.key
  rw [hrest]

theorem valid_of_head? {it : DbIterator υ} {row : Row υ} (h : it.rest.head? = some row) : it.valid = true := by
  obtain ⟨rest, hrest⟩ := List.head?_eq_some_iff.mp h
  unfold valid
  rw [hrest]
  rfl

end DbIterator

section
variable {t : Table Key (Value α)} {pending : Pending α} {tokens : List Byte → Option (List Byte)}

theorem Pending.Numbered.getLast?_queueOf (h : pending.Numbered) {u : List Byte} {batch : MutationBatch α} :
    (pending.queueOf u).getLast? = some batch ↔
      (u, batch) ∈ pending ∧ ∀ other, (u, other) ∈ pending → other.batchId ≤ batch.batchId := by
  have hord : InOrder ((pending.queueOf u).map fun b => (b.batchId, b)) :=
    List.pairwise_map.mpr (h.queueOf_inOrder u)
  have hlast := hord.getLast?_eq_some (r := (batch.batchId, batch))
  rw [List.getLast?_map, Option.map_eq_some_iff] at hlast
  simp only [Prod.mk.injEq, List.mem_map, forall_exists_index, and_imp, forall_apply_eq_imp_iff₂,
    Pending.mem_queueOf] at hlast
  constructor
  · intro hbatch
    obtain ⟨⟨b, hmem, -, rfl⟩, hall⟩ := hlast.mp ⟨batch, hbatch, rfl, rfl⟩
    exact ⟨hmem, hall⟩
  · rintro ⟨hmem, hall⟩
    obtain ⟨b, hb, -, rfl⟩ := hlast.mpr ⟨⟨batch, hmem, rfl, rfl⟩, hall⟩
    exact hb

/-- The last row before the end of the keys of a user is the one of the last batch. -/
theorem Represents.getLast?_upTo (h : Represents t pending tokens) {u : List Byte} {batch : MutationBatch α}
    (hlast : (pending.queueOf u).getLast? = some batch) :
    (t.upTo (prefixSuccessor (userKeyPrefix kMutationsTable u))).getLast? =
      some (mutationKey u batch.batchId, .writeBatch batch) := by
  obtain ⟨hmem, hall⟩ := h.numbered.getLast?_queueOf.mp hlast
  have hid : IsInt32 batch.batchId := h.numbered.isInt32 _ hmem
  obtain ⟨hrow, hpre⟩ := h.mem_userKeyPrefix.mpr ⟨batch, hmem, rfl⟩
  refine Table.getLast?_upTo_eq_some.mpr ⟨hrow, ?_, fun s hs hlt => ?_⟩
  · exact (lt_prefixSuccessor_iff _ _ _).mpr (Or.inr hpre)
  · rcases (lt_prefixSuccessor_iff _ _ _).mp hlt with hbefore | huser
    · exact (hbefore.trans_le (le_of_isPrefix hpre)).le
    · obtain ⟨other, hother, rfl⟩ := h.mem_userKeyPrefix.mp ⟨hs, huser⟩
      exact (mutationKey_le_iff (h.numbered.isInt32 _ hother) hid).mpr (hall other hother)

end

namespace LevelDbMutationQueue

variable (q : LevelDbMutationQueue) {db : Table Key (Value α)} {pending : Pending α}
  {tokens : List Byte → Option (List Byte)}

theorem getHighestUnacknowledgedBatchId_eq (h : Represents db pending tokens) :
    q.getHighestUnacknowledgedBatchId db =
      .ok (((pending.queueOf q.userId).getLast?.map (·.batchId)).getD kBatchIdUnknown) := by
  -- The row of the schema version keeps the iterator valid.
  have hseek : db.seek (prefixSuccessor (userKeyPrefix kMutationsTable q.userId)) ≠ [] := by
    obtain ⟨value, hversion⟩ := h.version
    have htables : kMutationsTable < kVersionGlobalTable := by decide
    have hle := successor_le_of_table_lt htables q.userId (labelCode .terminator)
    exact List.ne_nil_of_mem (Table.mem_seek.mpr ⟨hversion, hle⟩)
  obtain ⟨it, hprev, hit⟩ := DbIterator.prev_seek db _ hseek
  unfold getHighestUnacknowledgedBatchId
  rw [keyPrefix_userKeyPrefix]
  simp only [bind, Except.bind, hprev]
  cases hlast : (pending.queueOf q.userId).getLast? with
  | some batch =>
    have hid : IsInt32 batch.batchId := h.numbered.isInt32 _ (h.numbered.getLast?_queueOf.mp hlast).1
    rw [h.getLast?_upTo hlast] at hit
    simp [DbIterator.valid_of_head? hit, DbIterator.key_eq hit, LevelDbMutationKey.decode_key _ hid, succeeds,
      pure, Except.pure]
  | none =>
    have hempty : ∀ batch, (q.userId, batch) ∉ pending := by
      intro batch hmem
      have hqueue := Pending.mem_queueOf.mpr hmem
      rw [List.getLast?_eq_none_iff.mp hlast] at hqueue
      cases hqueue
    cases hhead : it.rest.head? with
    | none =>
      have hrest : it.rest = [] := List.head?_eq_none_iff.mp hhead
      simp [DbIterator.valid, hrest, pure, Except.pure]
    | some row =>
      have hrow : row ∈ db.rows := (Table.getLast?_upTo_eq_some.mp (hit.symm.trans hhead)).1
      simp only [DbIterator.valid_of_head? hhead, DbIterator.key_eq hhead, if_true]
      rcases h.decode_row hrow with ⟨e, he, rfl, hdecode⟩ | ⟨-, hdecode⟩
      · have huser : e.1 ≠ q.userId := fun hu => hempty e.2 (hu ▸ he)
        simp [hdecode, huser, pure, Except.pure]
      · simp [hdecode, pure, Except.pure]

end LevelDbMutationQueue

/-! ### The next batch id -/

section
variable {db : Table Key (Value α)} {pending : Pending α} {tokens : List Byte → Option (List Byte)}

theorem mutationKey_user_le {u v : List Byte} {b c : ℤ} (hb : IsInt32 b) (hc : IsInt32 c)
    (h : mutationKey u b ≤ mutationKey v c) : u ≤ v := by
  refine not_lt.mp fun hvu => ?_
  exact absurd ((mutationKey_lt_iff hc hb).mpr (Or.inl hvu)) (not_lt.mpr h)

/-- From a key on that is in the table or before it, the first row is the first one of the
table, unless the table has no more rows. -/
theorem Represents.first_row (h : Represents db pending tokens) {start : Key}
    (hstart : tableCode kMutationsTable ≤ start)
    (hversion : start ≤ tableCode kVersionGlobalTable ++ labelCode .terminator) :
    ∃ row, (db.seek start).head? = some row ∧
      ((∃ e ∈ pending, start ≤ mutationKey e.1 e.2.batchId ∧
          succeeds (LevelDbMutationKey.decode row.1) = .ok (some ⟨e.1, e.2.batchId⟩) ∧
          ∀ f ∈ pending, start ≤ mutationKey f.1 f.2.batchId → e.1 ≤ f.1) ∨
        succeeds (LevelDbMutationKey.decode row.1) = .ok none ∧
          ∀ f ∈ pending, ¬ start ≤ mutationKey f.1 f.2.batchId) := by
  obtain ⟨value, hmem⟩ := h.version
  have hseek : (tableCode kVersionGlobalTable ++ labelCode .terminator, value) ∈ db.seek start :=
    Table.mem_seek.mpr ⟨hmem, hversion⟩
  cases hhead : (db.seek start).head? with
  | none =>
    rw [List.head?_eq_none_iff.mp hhead] at hseek
    cases hseek
  | some row =>
    refine ⟨row, rfl, ?_⟩
    obtain ⟨hrow, hle, hleast⟩ := Table.head?_seek_eq_some.mp hhead
    have hpending : ∀ f ∈ pending, start ≤ mutationKey f.1 f.2.batchId →
        row.1 ≤ mutationKey f.1 f.2.batchId := by
      intro f hf hstartf
      have hid : IsInt32 f.2.batchId := h.numbered.isInt32 f hf
      exact hleast _ ((h.mem_mutationKey hid).mpr ⟨f.2, hf, rfl, rfl⟩) hstartf
    rcases h.decode_row hrow with ⟨e, he, rfl, hdecode⟩ | ⟨hout, hdecode⟩
    · refine Or.inl ⟨e, he, hle, hdecode, fun f hf hstartf => ?_⟩
      exact mutationKey_user_le (h.numbered.isInt32 e he) (h.numbered.isInt32 f hf) (hpending f hf hstartf)
    · refine Or.inr ⟨hdecode, fun f hf hstartf => hout ?_⟩
      have hin : tableCode kMutationsTable <+: mutationKey f.1 f.2.batchId :=
        (inTable_mutationKey _ _ _).mpr rfl
      exact prefix_of_between (hstart.trans hle) (hpending f hf hstartf) hin

/-- The loop over the users ends with the greatest id of the users from `u` on. -/
theorem loadNextBatchIdLoop_eq (h : Represents db pending tokens) {turns : ℕ} {u : List Byte} {m M : ℤ}
    (hu : ∃ batch, (u, batch) ∈ pending) (hle : ∀ e ∈ pending, u ≤ e.1 → e.2.batchId ≤ M) (hm : m ≤ M)
    (hM : M = m ∨ ∃ e ∈ pending, u ≤ e.1 ∧ e.2.batchId = M)
    (hturns : (db.seek (userKeyPrefix kMutationsTable u)).length < turns) :
    loadNextBatchIdLoop db turns u m = increment M := by
  induction turns generalizing u m with
  | zero => exact absurd hturns (Nat.not_lt_zero _)
  | succ turns ih =>
    obtain ⟨first, hfirst⟩ := hu
    have hqueue : pending.queueOf u ≠ [] := List.ne_nil_of_mem (Pending.mem_queueOf.mpr hfirst)
    obtain ⟨batch, hlast⟩ : ∃ batch, (pending.queueOf u).getLast? = some batch :=
      ⟨_, List.getLast?_eq_some_getLast hqueue⟩
    obtain ⟨hbatch, hall⟩ := h.numbered.getLast?_queueOf.mp hlast
    have hid : IsInt32 batch.batchId := h.numbered.isInt32 _ hbatch
    have hbatchM : batch.batchId ≤ M := hle _ hbatch (le_refl u)
    have htables : kMutationsTable < kVersionGlobalTable := by decide
    have hend := successor_le_of_table_lt htables u (labelCode .terminator)
    have hstart : tableCode kMutationsTable ≤ prefixSuccessor (userKeyPrefix kMutationsTable u) := by
      have hlt := (userKeyPrefix_lt_successor_iff kMutationsTable u u []).mpr (le_refl u)
      rw [List.append_nil] at hlt
      exact (le_of_isPrefix (List.prefix_append _ _)).trans hlt.le
    obtain ⟨row, hhead, hrow⟩ := h.first_row hstart hend
    have hne : db.seek (prefixSuccessor (userKeyPrefix kMutationsTable u)) ≠ [] := by
      intro hnil
      rw [hnil] at hhead
      cases hhead
    obtain ⟨it, hprev, hit⟩ := DbIterator.prev_seek db _ hne
    rw [h.getLast?_upTo hlast] at hit
    have hlater : ∀ f : List Byte × MutationBatch α,
        prefixSuccessor (userKeyPrefix kMutationsTable u) ≤ mutationKey f.1 f.2.batchId ↔ u < f.1 := by
      intro f
      rw [← not_lt, ← not_le (a := f.1)]
      exact not_congr (userKeyPrefix_lt_successor_iff kMutationsTable u f.1 (batchCode f.2.batchId))
    have hdecode : succeeds (LevelDbMutationKey.decode (mutationKey u batch.batchId)) =
        .ok (some ⟨u, batch.batchId⟩) := by
      rw [LevelDbMutationKey.decode_key _ hid]
      rfl
    have hmax : ∀ m' : ℤ, (if batch.batchId > m' then batch.batchId else m') = max m' batch.batchId := by
      intro m'
      rw [max_def]
      split_ifs <;> omega
    rw [loadNextBatchIdLoop, LevelDbMutationQueue.keyPrefix_userKeyPrefix]
    have hvalid : (DbIterator.seek db (prefixSuccessor (userKeyPrefix kMutationsTable u))).valid = true :=
      DbIterator.valid_of_head? hhead
    have hkey : (DbIterator.seek db (prefixSuccessor (userKeyPrefix kMutationsTable u))).key = .ok row.1 :=
      DbIterator.key_eq hhead
    simp only [bind, Except.bind, hvalid, hkey, if_true, hprev, DbIterator.key_eq hit, hdecode, hmax]
    rcases hrow with ⟨e, he, hstarte, hnext, hfirst⟩ | ⟨hnext, hnone⟩
    · have hue : u < e.1 := (hlater e).mp hstarte
      simp only [hnext]
      refine ih ⟨e.2, he⟩ (fun f hf hef => hle f hf (hue.le.trans hef)) (max_le hm hbatchM) ?_ ?_
      · rcases hM with rfl | ⟨f, hf, huf, rfl⟩
        · exact Or.inl (max_eq_left hbatchM).symm
        · rcases lt_or_eq_of_le huf with hlt | rfl
          · exact Or.inr ⟨f, hf, hfirst f hf ((hlater f).mpr hlt), rfl⟩
          · exact Or.inl (le_antisymm ((hall f.2 hf).trans (le_max_right _ _)) (max_le hm hbatchM))
      · refine lt_of_lt_of_le (Table.length_seek_lt (r := (mutationKey u batch.batchId, .writeBatch batch))
          (h.mem_userKeyPrefix.mpr ⟨batch, hbatch, rfl⟩).1 ?_ ?_) (Nat.lt_succ_iff.mp hturns)
        · exact le_of_isPrefix ((userKeyPrefix_mutationKey _ _ _).mpr rfl)
        · rw [← not_le]
          exact fun hle => (not_le.mpr hue) ((userKeyPrefix_le_iff kMutationsTable e.1 u _).mp hle)
    · have hMm : M = max m batch.batchId := by
        refine le_antisymm ?_ (max_le hm hbatchM)
        rcases hM with rfl | ⟨f, hf, huf, rfl⟩
        · exact le_max_left _ _
        · rcases lt_or_eq_of_le huf with hlt | rfl
          · exact absurd ((hlater f).mpr hlt) (hnone f hf)
          · exact (hall f.2 hf).trans (le_max_right _ _)
      simp only [hnext, hMm]

/-- The greatest id of all the batches, or none. -/
def Pending.lastBatchId (pending : Pending α) : ℤ := (pending.getLast?.map (·.2.batchId)).getD 0

theorem Pending.Numbered.le_lastBatchId (h : pending.Numbered) {e : List Byte × MutationBatch α}
    (he : e ∈ pending) : e.2.batchId ≤ pending.lastBatchId := by
  have hord : InOrder (pending.map fun e => (e.2.batchId, e)) := List.pairwise_map.mpr h.inOrder
  cases hlast : pending.getLast? with
  | none =>
    rw [List.getLast?_eq_none_iff.mp hlast] at he
    cases he
  | some f =>
    have hall := (hord.getLast?_eq_some (r := (f.2.batchId, f))).mp (by rw [List.getLast?_map, hlast]; rfl)
    unfold lastBatchId
    rw [hlast]
    exact hall.2 _ (List.mem_map_of_mem he)

/-- The next id is one more than the greatest id of all users. -/
theorem loadNextBatchIdFromDb_eq (h : Represents db pending tokens) :
    loadNextBatchIdFromDb db = increment pending.lastBatchId := by
  have hversion : tableCode kMutationsTable ≤ tableCode kVersionGlobalTable ++ labelCode .terminator := by
    have hlt : kMutationsTable < kVersionGlobalTable := by decide
    have hbelow := ((stringCode_ordered.prepend (labelCode .tableName)) hlt).append [] (labelCode .terminator)
    rw [List.append_nil] at hbelow
    exact hbelow.lt.le
  have htable : ∀ f : List Byte × MutationBatch α, tableCode kMutationsTable ≤ mutationKey f.1 f.2.batchId :=
    fun f => le_of_isPrefix ((inTable_mutationKey _ _ _).mpr rfl)
  obtain ⟨row, hhead, hrow⟩ := h.first_row (le_refl _) hversion
  unfold loadNextBatchIdFromDb LevelDbMutationKey.tableKeyPrefix
  rw [writeTableName_eq]
  have hvalid : (DbIterator.seek db (tableCode kMutationsTable)).valid = true := DbIterator.valid_of_head? hhead
  have hkey : (DbIterator.seek db (tableCode kMutationsTable)).key = .ok row.1 := DbIterator.key_eq hhead
  simp only [bind, Except.bind, hvalid, hkey, if_true]
  rcases hrow with ⟨e, he, -, hnext, hfirst⟩ | ⟨hnext, hnone⟩
  · simp only [hnext]
    refine loadNextBatchIdLoop_eq h ⟨e.2, he⟩ (fun f hf _ => h.numbered.le_lastBatchId hf) ?_ ?_
      (Nat.lt_succ_of_le (db.length_seek_le _))
    · have hpositive := h.numbered.positive e he
      have hlast := h.numbered.le_lastBatchId he
      omega
    · obtain ⟨f, hlast⟩ : ∃ f, pending.getLast? = some f :=
        ⟨_, List.getLast?_eq_some_getLast (List.ne_nil_of_mem he)⟩
      have hf : f ∈ pending := List.mem_of_getLast? hlast
      refine Or.inr ⟨f, hf, hfirst f hf (htable f), ?_⟩
      rw [Pending.lastBatchId, hlast]
      rfl
  · have hempty : pending = [] := List.eq_nil_iff_forall_not_mem.mpr fun f hf => hnone f hf (htable f)
    simp only [hnext, hempty]
    rfl

end
end EasyVerbs.Firestore
