-- The garbage collector of the client removes no document that a waiting write is about. It
-- asks the index, for the users that it knows: those with rows when the app starts, and each
-- user since then.
import EasyVerbs.LocalWrites

namespace EasyVerbs.Firestore

open Codes SortedRows

variable {α : Type}

/-! ## The users of the rows -/

/-- `CollectUserSet`, from a row on. A set of user ids is a list here, and nothing depends on
its order. -/
def collectUserSetLoop (txn : LevelDbTransaction (Value α)) (tablePrefix : Key) :
    ℕ → Iterator (Value α) → Checked (List (List Byte))
  | 0, _ => .error .endless
  | turns + 1, it =>
    match it.entry with
    | none => return []
    | some row => do
      if ← startsWith tablePrefix row.1 then
        match ← succeeds (LevelDbMutationKey.decode row.1) with
        | none => return []
        | some rowKey => do
          let userEnd := prefixSuccessor (← LevelDbMutationKey.keyPrefix rowKey.userId)
          let users ← collectUserSetLoop txn tablePrefix turns (it.seek txn userEnd)
          return users.insert rowKey.userId
      else return []

def collectUserSet (txn : LevelDbTransaction (Value α)) : Checked (List (List Byte)) := do
  let tablePrefix ← LevelDbMutationKey.tableKeyPrefix
  collectUserSetLoop txn tablePrefix txn.turns (txn.newIterator.seek txn tablePrefix)

section
variable {txn : LevelDbTransaction (Value α)} {pending : Pending α} {tokens : List Byte → Option (List Byte)}

/-- The keys of a user end before the key of a later one. -/
theorem mutationKey_lt_successor_iff (u v : List Byte) (b : ℤ) :
    mutationKey v b < prefixSuccessor (userKeyPrefix kMutationsTable u) ↔ v ≤ u :=
  userKeyPrefix_lt_successor_iff kMutationsTable u v (batchCode b)

theorem collectUserSetLoop_eq (h : Represents txn.commit pending tokens) {turns : ℕ} {it : Iterator (Value α)}
    {start : Key} (hit : it.entry = (txn.commit.seek start).head?)
    (hturns : (txn.commit.seek start).length < turns) (hstart : tableCode kMutationsTable ≤ start) :
    ∃ users, collectUserSetLoop txn (tableCode kMutationsTable) turns it = .ok users ∧
      ∀ u, u ∈ users ↔ ∃ e ∈ pending, e.1 = u ∧ start ≤ mutationKey e.1 e.2.batchId := by
  induction turns generalizing it start with
  | zero => exact absurd hturns (Nat.not_lt_zero _)
  | succ turns ih =>
    unfold collectUserSetLoop
    rw [hit]
    have hrows : ∀ f ∈ pending, (mutationKey f.1 f.2.batchId, Value.writeBatch f.2) ∈ txn.commit.rows :=
      fun f hf => (h.mem_mutationKey (h.numbered.isInt32 f hf)).mpr ⟨f.2, hf, rfl, rfl⟩
    cases hhead : (txn.commit.seek start).head? with
    | none =>
      refine ⟨[], rfl, fun u => iff_of_false List.not_mem_nil ?_⟩
      rintro ⟨f, hf, -, hle⟩
      have hseek := Table.mem_seek.mpr ⟨hrows f hf, hle⟩
      rw [List.head?_eq_none_iff.mp hhead] at hseek
      cases hseek
    | some row =>
      obtain ⟨hrow, hle, hleast⟩ := Table.head?_seek_eq_some.mp hhead
      rcases h.decode_row hrow with ⟨e, he, rfl, hdecode⟩ | ⟨hout, hdecode⟩
      · have hin : (tableCode kMutationsTable).isPrefixOf (mutationKey e.1 e.2.batchId) = true :=
          List.isPrefixOf_iff_prefix.mpr ((inTable_mutationKey _ _ _).mpr rfl)
        have hend : mutationKey e.1 e.2.batchId < prefixSuccessor (userKeyPrefix kMutationsTable e.1) :=
          (mutationKey_lt_successor_iff _ _ _).mpr (le_refl _)
        have hless := Table.length_seek_lt hrow hle hend
        obtain ⟨users, hloop, husers⟩ := ih (Iterator.reads_seek txn it _).entry_eq (by omega)
          ((hstart.trans hle).trans hend.le)
        refine ⟨users.insert e.1, ?_, fun u => ?_⟩
        · simp only [startsWith, hin, hdecode, LevelDbMutationQueue.keyPrefix_userKeyPrefix, hloop, bind,
            Except.bind, pure, Except.pure, if_true]
        · rw [List.mem_insert_iff, husers]
          constructor
          · rintro (rfl | ⟨f, hf, rfl, hlater⟩)
            · exact ⟨e, he, rfl, hle⟩
            · exact ⟨f, hf, rfl, (hle.trans hend.le).trans hlater⟩
          · rintro ⟨f, hf, rfl, hstartf⟩
            by_cases hsame : f.1 = e.1
            · exact Or.inl hsame
            · -- A row of another user is a row of a later one.
              have huser : e.1 ≤ f.1 := mutationKey_user_le (h.numbered.isInt32 e he)
                (h.numbered.isInt32 f hf) (hleast _ (hrows f hf) hstartf)
              refine Or.inr ⟨f, hf, rfl, not_lt.mp fun hlt => hsame ?_⟩
              exact le_antisymm ((mutationKey_lt_successor_iff _ _ _).mp hlt) huser
      · have hin : (tableCode kMutationsTable).isPrefixOf row.1 = false := by
          rw [Bool.eq_false_iff, Ne, List.isPrefixOf_iff_prefix]
          exact hout
        refine ⟨[], ?_, fun u => iff_of_false List.not_mem_nil ?_⟩
        · simp only [startsWith, hin, bind, Except.bind, pure, Except.pure, Bool.false_eq_true, if_false]
        · rintro ⟨f, hf, -, hstartf⟩
          refine hout (prefix_of_between (hstart.trans hle) (hleast _ (hrows f hf) hstartf) ?_)
          exact (inTable_mutationKey _ _ _).mpr rfl

/-- The users of the rows are the users with waiting writes. -/
theorem collectUserSet_eq (h : Represents txn.commit pending tokens) :
    ∃ users, collectUserSet txn = .ok users ∧ ∀ u, u ∈ users ↔ ∃ e ∈ pending, e.1 = u := by
  obtain ⟨users, hloop, husers⟩ := collectUserSetLoop_eq h (txn.entry_seek (tableCode kMutationsTable))
    (Nat.lt_succ_of_le (txn.commit.length_seek_le _)) (le_refl _)
  refine ⟨users, ?_, fun u => ?_⟩
  · unfold collectUserSet LevelDbMutationKey.tableKeyPrefix
    rw [writeTableName_eq]
    exact hloop
  · rw [husers]
    constructor
    · rintro ⟨e, he, hu, -⟩
      exact ⟨e, he, hu⟩
    · rintro ⟨e, he, hu⟩
      exact ⟨e, he, hu, le_of_isPrefix ((inTable_mutationKey _ _ _).mpr rfl)⟩

end

/-! ## The documents of waiting writes -/

/-- The loop of `MutationQueuesContainKey` over the users. -/
def mutationQueuesContainKeyLoop (txn : LevelDbTransaction (Value α)) (path : List (List Byte)) :
    Iterator (Value α) → List (List Byte) → Checked Bool
  | _, [] => return false
  | it, user :: users => do
    let mutationKey ← LevelDbDocumentMutationKey.pathKeyPrefix user path
    let it := it.seek txn mutationKey
    match it.entry with
    | none => mutationQueuesContainKeyLoop txn path it users
    | some row =>
      if ← startsWith mutationKey row.1 then return true
      else mutationQueuesContainKeyLoop txn path it users

def mutationQueuesContainKey (txn : LevelDbTransaction (Value α)) (users : List (List Byte))
    (key : DocumentKey) : Checked Bool :=
  mutationQueuesContainKeyLoop txn key.path txn.newIterator users

/-- With the documents that queries and limbo resolutions hold in memory. -/
def isPinned (txn : LevelDbTransaction (Value α)) (users : List (List Byte))
    (additionalReferences : List DocumentKey) (key : DocumentKey) : Checked Bool :=
  if key ∈ additionalReferences then return true else mutationQueuesContainKey txn users key

/-- The batch has a mutation of a document at the path or below it. -/
def MutationBatch.isAbout (batch : MutationBatch α) (path : List (List Byte)) : Prop :=
  ∃ mutation ∈ batch.mutations, path <+: mutation.key.path

section
variable {txn : LevelDbTransaction (Value α)} {pending : Pending α} {tokens : List Byte → Option (List Byte)}

theorem pathCode_append (path rest : List (List Byte)) : pathCode (path ++ rest) = pathCode path ++ pathCode rest :=
  List.flatMap_append

/-- The first row from the path of a document on shows a write of the user there. -/
theorem Represents.startsWith_head? (h : Represents txn.commit pending tokens) (u : List Byte)
    (path : List (List Byte)) :
    (∃ row, (txn.commit.seek (userKeyPrefix kDocumentMutationsTable u ++ pathCode path)).head? = some row ∧
      (userKeyPrefix kDocumentMutationsTable u ++ pathCode path).isPrefixOf row.1 = true) ↔
      ∃ batch, (u, batch) ∈ pending ∧ batch.isAbout path := by
  constructor
  · rintro ⟨row, hhead, hpre⟩
    obtain ⟨hrow, -, -⟩ := Table.head?_seek_eq_some.mp hhead
    obtain ⟨batch, hmem, mutation, hm, hpath, -⟩ := h.mem_pathPrefix hrow (List.isPrefixOf_iff_prefix.mp hpre)
    exact ⟨batch, hmem, mutation, hm, hpath⟩
  · rintro ⟨batch, hmem, mutation, hm, rest, hrest⟩
    have hindex := h.mem_index hmem hm
    have hpre : userKeyPrefix kDocumentMutationsTable u ++ pathCode path <+:
        documentMutationKey u mutation.key.path batch.batchId := by
      refine List.IsPrefix.trans ?_ <| documentMutationKey_prefix u _ _
      rw [← hrest, pathCode_append, List.prefix_append_right_inj]
      exact List.prefix_append _ _
    have hseek := Table.mem_seek.mpr ⟨hindex, le_of_isPrefix hpre⟩
    cases hhead : (txn.commit.seek (userKeyPrefix kDocumentMutationsTable u ++ pathCode path)).head? with
    | none =>
      rw [List.head?_eq_none_iff.mp hhead] at hseek
      cases hseek
    | some row =>
      obtain ⟨-, hle, hleast⟩ := Table.head?_seek_eq_some.mp hhead
      refine ⟨row, rfl, List.isPrefixOf_iff_prefix.mpr ?_⟩
      exact prefix_of_between hle (hleast _ hindex (le_of_isPrefix hpre)) hpre

theorem mutationQueuesContainKeyLoop_eq (h : Represents txn.commit pending tokens) (path : List (List Byte))
    (it : Iterator (Value α)) (users : List (List Byte)) :
    ∃ b, mutationQueuesContainKeyLoop txn path it users = .ok b ∧
      (b = true ↔ ∃ e ∈ pending, e.1 ∈ users ∧ e.2.isAbout path) := by
  induction users generalizing it with
  | nil => exact ⟨false, rfl, by simp⟩
  | cons user users ih =>
    have huser := h.startsWith_head? user path
    have hkey : LevelDbDocumentMutationKey.pathKeyPrefix user path =
        .ok (userKeyPrefix kDocumentMutationsTable user ++ pathCode path) :=
      LevelDbDocumentMutationKey.pathKeyPrefix_eq user path
    have hentry := (Iterator.reads_seek txn it (userKeyPrefix kDocumentMutationsTable user ++ pathCode path)).entry_eq
    -- Without a row of this user the loop goes on.
    have hrest : (¬ ∃ batch, (user, batch) ∈ pending ∧ batch.isAbout path) → ∀ it : Iterator (Value α),
        ∃ b, mutationQueuesContainKeyLoop txn path it users = .ok b ∧
          (b = true ↔ ∃ e ∈ pending, e.1 ∈ user :: users ∧ e.2.isAbout path) := by
      intro hnone it
      obtain ⟨b, hloop, hb⟩ := ih it
      refine ⟨b, hloop, hb.trans (exists_congr fun e => and_congr_right fun he => ?_)⟩
      constructor
      · rintro ⟨hu, habout⟩
        exact ⟨List.mem_cons_of_mem _ hu, habout⟩
      · rintro ⟨hu, habout⟩
        rcases List.mem_cons.mp hu with rfl | hu
        · exact absurd ⟨e.2, he, habout⟩ hnone
        · exact ⟨hu, habout⟩
    unfold mutationQueuesContainKeyLoop
    simp only [hkey, bind, Except.bind, hentry]
    cases hhead : (txn.commit.seek (userKeyPrefix kDocumentMutationsTable user ++ pathCode path)).head? with
    | none => exact hrest (huser.not.mp (by simp [hhead])) _
    | some row =>
      cases hpre : (userKeyPrefix kDocumentMutationsTable user ++ pathCode path).isPrefixOf row.1 with
      | false =>
        have hnone : ¬ ∃ batch, (user, batch) ∈ pending ∧ batch.isAbout path := by
          rw [← huser, hhead]
          rintro ⟨row', hrow', hp⟩
          cases hrow'
          rw [hpre] at hp
          cases hp
        simp only [startsWith, hpre, pure, Except.pure, Bool.false_eq_true, if_false]
        exact hrest hnone _
      | true =>
        obtain ⟨batch, hmem, habout⟩ := huser.mp ⟨row, hhead, hpre⟩
        simp only [startsWith, hpre, pure, Except.pure, if_true]
        exact ⟨true, rfl, iff_of_true rfl ⟨_, hmem, List.mem_cons_self, habout⟩⟩

theorem isPinned_eq (h : Represents txn.commit pending tokens) {users : List (List Byte)}
    (husers : ∀ e ∈ pending, e.1 ∈ users) (additionalReferences : List DocumentKey) (key : DocumentKey) :
    ∃ b, isPinned txn users additionalReferences key = .ok b ∧
      (b = true ↔ key ∈ additionalReferences ∨ ∃ e ∈ pending, e.2.isAbout key.path) := by
  unfold isPinned
  by_cases hkey : key ∈ additionalReferences
  · exact ⟨true, if_pos hkey, iff_of_true rfl (Or.inl hkey)⟩
  · obtain ⟨b, hloop, hb⟩ := mutationQueuesContainKeyLoop_eq h key.path txn.newIterator users
    refine ⟨b, (if_neg hkey).trans hloop, hb.trans ?_⟩
    rw [or_iff_right hkey]
    exact exists_congr fun e => and_congr_right fun he => and_iff_right (husers e he)

end

/-! ## Runs of the client -/

/-- The local store, and the users that the persistence knows. -/
structure Client (α : Type) where
  store : LocalStore α
  users : List (List Byte)

namespace Client

/-- A start opens the persistence again, and each user who comes gets a queue from it. -/
def step (c : Client α) : StoreCall α → Checked (Client α)
  | .start user => do
    let users ← collectUserSet (.on c.store.db)
    return ⟨← c.store.step (.start user), users.insert user.userId⟩
  | .handleUserChange user => do
    return ⟨← c.store.step (.handleUserChange user), c.users.insert user.userId⟩
  | call => do return { c with store := ← c.store.step call }

def opened (db : Table Key (Value α)) : Client α := ⟨.opened db, []⟩

/-- `IsPinned` in a transaction that has changed some rows of the other parts. -/
def isPinned (c : Client α) (sequenceNumber : ℤ) (rows : List (OtherRow α))
    (additionalReferences : List DocumentKey) (key : DocumentKey) : Checked Bool :=
  Firestore.isPinned ((c.store.run sequenceNumber).changeOthers rows).transaction c.users additionalReferences key

end Client

/-- The persistence knows every user with a waiting write, and the one who is there. -/
structure Knows (c : Client α) (a : WriteQueues α) : Prop where
  keeps : Keeps c.store a
  users : ∀ e ∈ a.pending, e.1 ∈ c.users
  current : a.userId ∈ c.users

section
variable {c : Client α} {a a' : WriteQueues α}

theorem WriteQueues.ofUser_pending {user : User} (ha : a.ofUser user = some a') : a'.pending = a.pending := by
  unfold WriteQueues.ofUser at ha
  split at ha <;> cases ha
  rfl

/-- A start finds the users of the rows, and then there is the new one. -/
theorem Knows.start (h : Represents c.store.db a.pending a.tokens) {user : User} (ha : a.ofUser user = some a') :
    ∃ c', c.step (.start user) = .ok c' ∧ Knows c' a' := by
  have hrep : Represents (LevelDbTransaction.on c.store.db).commit a.pending a.tokens := h
  obtain ⟨users, hcollect, husers⟩ := collectUserSet_eq hrep
  obtain ⟨s', hstart, hkeeps⟩ := Keeps.start h ha
  refine ⟨⟨s', users.insert user.userId⟩, ?_, hkeeps, fun e he => ?_, ?_⟩
  · simp only [Client.step, LocalStore.step, hcollect, hstart, bind, Except.bind]
    rfl
  · rw [WriteQueues.ofUser_pending ha] at he
    exact List.mem_insert_of_mem ((husers _).mpr ⟨e, he, rfl⟩)
  · rw [WriteQueues.ofUser_userId ha]
    exact List.mem_insert_self

theorem Knows.handleUserChange [DecidableEq α] (h : Knows c a) {user : User} (ha : a.ofUser user = some a') :
    ∃ c', c.step (.handleUserChange user) = .ok c' ∧ Knows c' a' := by
  obtain ⟨s', hs', hkeeps⟩ := h.keeps.step (c := .handleUserChange user) ha
  refine ⟨⟨s', c.users.insert user.userId⟩, ?_, hkeeps, fun e he => ?_, ?_⟩
  · simp only [Client.step, hs', bind, Except.bind]
    rfl
  · rw [WriteQueues.ofUser_pending ha] at he
    exact List.mem_insert_of_mem (h.users e he)
  · rw [WriteQueues.ofUser_userId ha]
    exact List.mem_insert_self

/-- The other calls bring no user, and writes of the one who is there only. -/
theorem Knows.same (h : Knows c a) {s' : LocalStore α} (hkeeps : Keeps s' a') (huser : a'.userId = a.userId)
    (hpending : ∀ e ∈ a'.pending, e ∈ a.pending ∨ e.1 = a.userId) : Knows { c with store := s' } a' := by
  refine ⟨hkeeps, fun e he => ?_, huser ▸ h.current⟩
  rcases hpending e he with he | hu
  · exact h.users e he
  · exact hu ▸ h.current

theorem Knows.step [DecidableEq α] (h : Knows c a) {call : StoreCall α} (ha : a.step call = some a') :
    ∃ c', c.step call = .ok c' ∧ Knows c' a' := by
  have hkept : ∀ e, e ∈ a.pending → e ∈ a.pending ∨ e.1 = a.userId := fun e he => Or.inl he
  obtain ⟨s', hs', hkeeps⟩ := h.keeps.step ha
  have hok : ∀ x : Checked (LocalStore α), x = .ok s' →
      (do return { c with store := ← x } : Checked (Client α)) = .ok { c with store := s' } := by
    rintro _ rfl
    rfl
  cases call with
  | start user => exact Knows.start h.keeps.represents ha
  | handleUserChange user => exact h.handleUserChange ha
  | writeLocally localWriteTime baseMutations mutations =>
    refine ⟨_, hok _ hs', ?_⟩
    simp only [WriteQueues.step] at ha
    split at ha
    · cases ha
      refine h.same hkeeps rfl (List.forall_mem_append.mpr ⟨hkept, fun e he => Or.inr ?_⟩)
      rw [List.mem_singleton.mp he]
    · cases ha
  | acknowledgeBatch sequenceNumber batchResult documents =>
    refine ⟨_, hok _ hs', ?_⟩
    simp only [WriteQueues.step] at ha
    split at ha
    · cases ha
      exact h.same hkeeps rfl fun e he => hkept e (List.mem_filter.mp he).1
    · cases ha
  | rejectBatch sequenceNumber batchId =>
    refine ⟨_, hok _ hs', ?_⟩
    simp only [WriteQueues.step] at ha
    split at ha
    · cases ha
      exact h.same hkeeps rfl fun e he => hkept e (List.mem_filter.mp he).1
    · cases ha
  | setLastStreamToken streamToken =>
    cases ha
    exact ⟨_, hok _ hs', h.same hkeeps rfl hkept⟩
  | others rows =>
    cases ha
    exact ⟨_, hok _ hs', h.same hkeeps rfl hkept⟩

theorem Knows.run [DecidableEq α] (h : Knows c a) {calls : List (StoreCall α)}
    (ha : calls.foldlM WriteQueues.step a = some a') :
    ∃ c', calls.foldlM Client.step c = .ok c' ∧ Knows c' a' := by
  induction calls generalizing c a with
  | nil =>
    cases ha
    exact ⟨c, rfl, h⟩
  | cons call calls ih =>
    rw [List.foldlM_cons] at ha
    obtain ⟨b, hb, hrest⟩ := Option.bind_eq_some_iff.mp ha
    obtain ⟨d, hd, hknows⟩ := h.step hb
    obtain ⟨c', hc', hknows'⟩ := ih hknows hrest
    refine ⟨c', ?_, hknows'⟩
    rw [List.foldlM_cons, hd]
    exact hc'

end

section
variable [DecidableEq α] {db : Table Key (Value α)} {pending : Pending α}
  {tokens : List Byte → Option (List Byte)}

/-- After every run, and in every transaction of the other parts, the documents that must
stay are those that are held in memory and those with a waiting write of any user at their
path or below it. -/
theorem a_document_stays_while_a_write_waits (h : Represents db pending tokens) {user : User}
    {calls : List (StoreCall α)} {a : WriteQueues α}
    (ha : (.start user :: calls).foldlM WriteQueues.step (.opened pending tokens) = some a) :
    ∃ c, (.start user :: calls).foldlM Client.step (.opened db) = .ok c ∧
      ∀ sequenceNumber rows additionalReferences key,
        ∃ b, c.isPinned sequenceNumber rows additionalReferences key = .ok b ∧
          (b = true ↔ key ∈ additionalReferences ∨ ∃ e ∈ a.pending, e.2.isAbout key.path) := by
  rw [List.foldlM_cons] at ha
  obtain ⟨b, hb, hrest⟩ := Option.bind_eq_some_iff.mp ha
  obtain ⟨d, hd, hknows⟩ := Knows.start (c := .opened db) (a := .opened pending tokens) h hb
  obtain ⟨c, hc, hknows'⟩ := hknows.run hrest
  refine ⟨c, ?_, fun sequenceNumber rows additionalReferences key => ?_⟩
  · rw [List.foldlM_cons, hd]
    exact hc
  · obtain ⟨hp, -⟩ := Persistence.changeOthers_has (hknows'.keeps.represents.run_has sequenceNumber) rows
    exact isPinned_eq ⟨hp.rows, hknows'.keeps.represents.numbered⟩ hknows'.users additionalReferences key

/-- A write of somebody who has signed out keeps its document. -/
theorem a_document_stays_when_its_user_goes :
    ∃ c, [.start ann, .writeLocally ⟨0, 0⟩ [] [annsMutation], .start .unauthenticated].foldlM Client.step
        (.opened migrated) = .ok c ∧ c.isPinned 0 [] [] annsMutation.key = .ok true := by
  obtain ⟨c, hc, hpinned⟩ := a_document_stays_while_a_write_waits migrated_represents
    (a := ⟨[(ascii "ann", ⟨1, ⟨0, 0⟩, [], [annsMutation], by decide⟩)], fun _ => none, [], 2, []⟩)
    (show [.start ann, .writeLocally ⟨0, 0⟩ [] [annsMutation], .start .unauthenticated].foldlM WriteQueues.step
      (.opened [] fun _ => none) = _ from rfl)
  refine ⟨c, hc, ?_⟩
  obtain ⟨b, hb, hiff⟩ := hpinned 0 [] [] annsMutation.key
  rw [hb, hiff.mpr (Or.inr ⟨_, List.mem_singleton_self _, annsMutation, List.mem_singleton_self _, List.prefix_rfl⟩)]

end

end EasyVerbs.Firestore
