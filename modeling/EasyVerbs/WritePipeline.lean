-- The write pipeline of the client: up to ten waiting writes of the user, in order, and the
-- stream that sends them. Users, the network, the server and the timers act in any order.
-- A result of the server has no name on it. It is taken for the first write of the pipeline.
import EasyVerbs.LocalWrites
import EasyVerbs.WriteStream

namespace EasyVerbs.Firestore

open SortedRows

variable {α : Type}

/-! ## The remote store -/

def kMaxPendingWrites : ℕ := 10

structure RemoteStore (α : Type) where
  localStore : LocalStore α
  isNetworkEnabled : Bool
  writePipeline : List (MutationBatch α)
  writeStream : WriteStream α

namespace RemoteStore

variable (r : RemoteStore α)

def canAddToWritePipeline : Bool := r.isNetworkEnabled && decide (r.writePipeline.length < kMaxPendingWrites)

def shouldStartWriteStream : Bool :=
  r.isNetworkEnabled && !r.writeStream.isStarted && !r.writePipeline.isEmpty

def startWriteStream : Checked (RemoteStore α) := do
  hardAssert r.shouldStartWriteStream
  return { r with writeStream := { r.writeStream with toStream := ← r.writeStream.start } }

def addToWritePipeline (batch : MutationBatch α) : Checked (RemoteStore α) := do
  hardAssert r.canAddToWritePipeline
  let writeStream ←
    if r.writeStream.isOpen && r.writeStream.handshakeComplete then
      r.writeStream.writeMutations batch.mutations
    else pure r.writeStream
  return { r with writePipeline := r.writePipeline ++ [batch], writeStream }

def fillWritePipelineLoop : ℕ → ℤ → RemoteStore α → Checked (RemoteStore α)
  | 0, _, _ => .error .endless
  | turns + 1, lastBatchIdRetrieved, r =>
    if r.canAddToWritePipeline then do
      match ← r.localStore.getNextMutationBatch lastBatchIdRetrieved with
      | none =>
        if r.writePipeline.isEmpty then
          return { r with writeStream := { r.writeStream with toStream := r.writeStream.markIdle } }
        else return r
      | some batch => fillWritePipelineLoop turns batch.batchId (← r.addToWritePipeline batch)
    else return r

/-- `if (ShouldStartWriteStream()) StartWriteStream()`. -/
def startIfNeeded : Checked (RemoteStore α) :=
  if r.shouldStartWriteStream then r.startWriteStream else .ok r

def fillWritePipeline : Checked (RemoteStore α) := do
  let lastBatchIdRetrieved := (r.writePipeline.getLast?.map (·.batchId)).getD kBatchIdUnknown
  (← fillWritePipelineLoop (kMaxPendingWrites + 1) lastBatchIdRetrieved r).startIfNeeded

def onWriteStreamHandshakeComplete : Checked (RemoteStore α) := do
  let localStore ← r.localStore.setLastStreamToken r.writeStream.lastStreamToken
  let writeStream ← r.writePipeline.foldlM (fun w batch => w.writeMutations batch.mutations) r.writeStream
  return { r with localStore, writeStream }

/-- With the call of the sync engine, as far as it goes to the local store. -/
def onWriteStreamMutationResult (commitVersion : Timestamp) (mutationResults : List MutationResult)
    (sequenceNumber : ℤ) (documents : RemoteDocuments α) : Checked (RemoteStore α) :=
  match r.writePipeline with
  | [] => .error .hardAssert
  | batch :: writePipeline => do
    let batchResult ← MutationBatchResult.create batch commitVersion mutationResults r.writeStream.lastStreamToken
    let localStore ← r.localStore.acknowledgeBatch sequenceNumber batchResult documents
    fillWritePipeline { r with localStore, writePipeline }

def handleHandshakeError (code : ErrorCode) : Checked (RemoteStore α) :=
  if code.isPermanentError then do
    let localStore ← r.localStore.setLastStreamToken []
    return { r with localStore, writeStream := { r.writeStream with lastStreamToken := [] } }
  else .ok r

/-- A permanent error is for the first write. It is rejected, and the others go on. -/
def handleWriteError (sequenceNumber : ℤ) (code : ErrorCode) : Checked (RemoteStore α) :=
  if code.isPermanentWriteError then
    match r.writePipeline with
    | [] => .error .undefined
    | batch :: writePipeline => do
      let stream ← r.writeStream.inhibitBackoff
      let localStore ← r.localStore.rejectBatch sequenceNumber batch.batchId
      fillWritePipeline { r with localStore, writePipeline, writeStream := { r.writeStream with toStream := stream } }
  else .ok r

def onWriteStreamClose (sequenceNumber : ℤ) (status : Option ErrorCode) : Checked (RemoteStore α) := do
  let r ← match status with
    | none => do
      hardAssert (!r.shouldStartWriteStream)
      pure r
    | some code =>
      if r.writePipeline.isEmpty then pure r
      else if r.writeStream.handshakeComplete then r.handleWriteError sequenceNumber code
      else r.handleHandshakeError code
  r.startIfNeeded

/-- `Close` of the stream. The handshake is forgotten after the call of the delegate. -/
def close (sequenceNumber : ℤ) (status : Option ErrorCode) : Checked (RemoteStore α) := do
  hardAssert r.writeStream.isStarted
  let writeStream := { r.writeStream with toStream := r.writeStream.closed status, unanswered := [] }
  let r ← onWriteStreamClose { r with writeStream } sequenceNumber status
  return { r with writeStream := { r.writeStream with handshakeComplete := false } }

/-- The stream starts with the token, or it ends with the error that there is in its place. -/
def resumeStartWithCredentials (sequenceNumber : ℤ) (error : Option ErrorCode) : Checked (RemoteStore α) := do
  hardAssert (r.writeStream.state == .starting)
  match error with
  | some code => r.close sequenceNumber (some code)
  | none => return { r with writeStream := { r.writeStream with grpcStream := true } }

/-- The callback of `RequestCredentials`. When the stream was closed after the request, it is void. -/
def onToken (initialCloseCount : ℕ) (sequenceNumber : ℤ) (error : Option ErrorCode) : Checked (RemoteStore α) :=
  let tokenRequests := r.writeStream.tokenRequests.erase initialCloseCount
  let r := { r with writeStream := { r.writeStream with tokenRequests } }
  if r.writeStream.closeCount ≠ initialCloseCount then .ok r else r.resumeStartWithCredentials sequenceNumber error

def stop : Checked (RemoteStore α) := if r.writeStream.isStarted then r.close 0 none else .ok r

def disableNetworkInternal : Checked (RemoteStore α) := do return { ← r.stop with writePipeline := [] }

def enableNetwork : Checked (RemoteStore α) :=
  fillWritePipeline { r with
    isNetworkEnabled := true
    writeStream := { r.writeStream with lastStreamToken := r.localStore.mutationQueue.lastStreamToken } }

def disableNetwork : Checked (RemoteStore α) := disableNetworkInternal { r with isNetworkEnabled := false }

def restartNetwork : Checked (RemoteStore α) := do
  let r ← r.disableNetwork
  enableNetwork { r with writeStream := { r.writeStream with toStream := ← r.writeStream.inhibitBackoff } }

def handleCredentialChange : Checked (RemoteStore α) :=
  if r.isNetworkEnabled then r.restartNetwork else .ok r

end RemoteStore

/-! ## The client with its server -/

structure SyncEngine (α : Type) where
  remoteStore : RemoteStore α
  currentUser : User

inductive ClientEvent (α : Type)
  | writeMutations (localWriteTime : Timestamp) (baseMutations mutations : List (Mutation α))
  | credentialChange (user : User)
  | enableNetwork
  | disableNetwork
  | connectivityChange
  | others (rows : List (OtherRow α))
  /-- A token, or an error, for the request that was made at this close count. -/
  | token (initialCloseCount : ℕ) (sequenceNumber : ℤ) (error : Option ErrorCode)
  | streamOpen
  | handshake (streamToken : List Byte)
  | mutationResult (streamToken : List Byte) (commitVersion : Timestamp) (mutationResults : List MutationResult)
      (sequenceNumber : ℤ) (documents : RemoteDocuments α)
  | streamError (sequenceNumber : ℤ) (code : ErrorCode)
  | idleTimeout
  | backoffElapsed

namespace SyncEngine

variable (s : SyncEngine α)

def launch (db : Table Key (Value α)) (user : User) : Checked (SyncEngine α) := do
  let localStore ← (LocalStore.opened db).start user
  let r ← RemoteStore.enableNetwork ⟨localStore, false, [], {}⟩
  return ⟨r, user⟩

/-- The local store, with the queue of the user when it is another one. -/
def handleUserChange (user : User) : Checked (LocalStore α) :=
  let localStore := s.remoteStore.localStore
  if s.currentUser ≠ user then localStore.step (.handleUserChange user) else .ok localStore

def handleCredentialChange (user : User) : Checked (SyncEngine α) := do
  let localStore ← s.handleUserChange user
  return ⟨← { s.remoteStore with localStore }.handleCredentialChange, user⟩

/-- What a call or a callback does to the remote store. -/
def act (r : RemoteStore α) : ClientEvent α → Checked (RemoteStore α)
  | .writeMutations localWriteTime baseMutations mutations => do
    let (_, localStore) ← r.localStore.writeLocally localWriteTime baseMutations mutations
    { r with localStore }.fillWritePipeline
  | .credentialChange _ => .ok r
  | .enableNetwork => r.enableNetwork
  | .disableNetwork => r.disableNetwork
  | .connectivityChange => if r.isNetworkEnabled then r.restartNetwork else .ok r
  | .others rows => do return { r with localStore := ← r.localStore.step (.others rows) }
  | .token initialCloseCount sequenceNumber error => r.onToken initialCloseCount sequenceNumber error
  | .streamOpen => do
    return { r with writeStream := ← { r.writeStream with state := .opened }.writeHandshake }
  | .handshake lastStreamToken => do
    hardAssert r.writeStream.isStarted
    { r with writeStream := { r.writeStream with lastStreamToken, handshakeComplete := true }
      }.onWriteStreamHandshakeComplete
  | .mutationResult lastStreamToken commitVersion mutationResults sequenceNumber documents => do
    hardAssert r.writeStream.isStarted
    { r with writeStream := { r.writeStream with lastStreamToken, unanswered := r.writeStream.unanswered.tail }
      }.onWriteStreamMutationResult commitVersion mutationResults sequenceNumber documents
  | .streamError sequenceNumber code => r.close sequenceNumber (some code)
  | .idleTimeout => r.stop
  | .backoffElapsed => do
    return { r with writeStream := { r.writeStream with toStream := ← r.writeStream.backoffElapsed } }

def step (s : SyncEngine α) : ClientEvent α → Checked (SyncEngine α)
  | .credentialChange user => s.handleCredentialChange user
  | event => do return { s with remoteStore := ← act s.remoteStore event }

/-- When an event can come: writes are not empty and ids do not run out; a token comes when it was
asked for; the server answers on a connection, first the first write without an answer, and ends it
with an error only; timers run out that run. -/
def Comes (s : SyncEngine α) : ClientEvent α → Prop
  | .writeMutations _ _ mutations =>
    mutations ≠ [] ∧ IsInt32 (s.remoteStore.localStore.mutationQueue.nextBatchId + 1)
  | .token initialCloseCount sequenceNumber _ =>
    initialCloseCount ∈ s.remoteStore.writeStream.tokenRequests ∧ IsInt64 sequenceNumber
  | .streamOpen => s.remoteStore.writeStream.state = .starting ∧ s.remoteStore.writeStream.grpcStream = true
  | .handshake _ => s.remoteStore.writeStream.isOpen = true ∧ s.remoteStore.writeStream.handshakeComplete = false
  | .mutationResult _ _ mutationResults sequenceNumber _ =>
    s.remoteStore.writeStream.unanswered.head?.map (·.length) = some mutationResults.length ∧ IsInt64 sequenceNumber
  | .streamError sequenceNumber _ =>
    s.remoteStore.writeStream.grpcStream = true ∧ IsInt64 sequenceNumber
  | .idleTimeout => s.remoteStore.writeStream.idlenessTimer = true
  | .backoffElapsed => s.remoteStore.writeStream.backoffTimer = true
  | _ => True

instance (event : ClientEvent α) : Decidable (s.Comes event) :=
  match event with
  | .writeMutations .. => inferInstanceAs (Decidable (_ ∧ _))
  | .token .. => inferInstanceAs (Decidable (_ ∧ _))
  | .streamOpen => inferInstanceAs (Decidable (_ ∧ _))
  | .handshake _ => inferInstanceAs (Decidable (_ ∧ _))
  | .mutationResult .. => inferInstanceAs (Decidable (_ ∧ _))
  | .streamError .. => inferInstanceAs (Decidable (_ ∧ _))
  | .idleTimeout => inferInstanceAs (Decidable (_ = _))
  | .backoffElapsed => inferInstanceAs (Decidable (_ = _))
  | .credentialChange _ | .enableNetwork | .disableNetwork | .connectivityChange | .others _ =>
    inferInstanceAs (Decidable True)

/-- An event when it can come. -/
def next (event : ClientEvent α) : Option (SyncEngine α) :=
  if s.Comes event then (s.step event).toOption else none

def run (db : Table Key (Value α)) (user : User) (events : List (ClientEvent α)) : Option (SyncEngine α) := do
  events.foldlM next (← (launch db user).toOption)

end SyncEngine

section
variable {w : WriteStream α} {r r' : RemoteStore α} {a a' : WriteQueues α} {rest : List (MutationBatch α)}

/-! ## The pipeline is filled -/

theorem RemoteStore.addToWritePipeline_eq (h : Sends r.writeStream r.writePipeline)
    (hcan : r.canAddToWritePipeline = true) (batch : MutationBatch α) :
    ∃ w', r.addToWritePipeline batch = .ok { r with writePipeline := r.writePipeline ++ [batch], writeStream := w' } ∧
      Sends w' (r.writePipeline ++ [batch]) ∧ w'.state = r.writeStream.state ∧
      w'.handshakeComplete = r.writeStream.handshakeComplete := by
  unfold addToWritePipeline
  by_cases hsending : (r.writeStream.isOpen && r.writeStream.handshakeComplete) = true
  · obtain ⟨w', hwrite, hsends, hstate, hhandshake⟩ := h.writeMutations hsending batch
    refine ⟨w', ?_, hsends, hstate, hhandshake⟩
    simp only [hcan, hardAssert, if_true, hsending, hwrite, bind, Except.bind, pure, Except.pure]
  · refine ⟨r.writeStream, ?_, ⟨h.connects, ?_, ?_⟩, rfl, rfl⟩
    · simp only [hcan, hardAssert, if_true, hsending, Bool.false_eq_true, if_false, bind, Except.bind, pure,
        Except.pure]
    · rw [h.unanswered, if_neg hsending, if_neg hsending]
    · exact fun hidle => absurd (h.idle hidle).1 hsending

/-- The id that the fill begins after. -/
def lastBatchId (writePipeline : List (MutationBatch α)) : ℤ :=
  (writePipeline.getLast?.map (·.batchId)).getD kBatchIdUnknown

theorem lastBatchId_snoc (writePipeline : List (MutationBatch α)) (batch : MutationBatch α) :
    lastBatchId (writePipeline ++ [batch]) = batch.batchId := by
  simp [lastBatchId]

/-- After the last write of the pipeline comes the next one of the queue. -/
theorem find?_after_pipeline {writePipeline : List (MutationBatch α)}
    (hord : (writePipeline ++ rest).Pairwise fun b c => b.batchId < c.batchId)
    (hpositive : ∀ b ∈ writePipeline ++ rest, 1 ≤ b.batchId) :
    (writePipeline ++ rest).find? (lastBatchId writePipeline < ·.batchId) = rest.head? := by
  have hhead : ∀ n : ℤ, (∀ b ∈ rest, n < b.batchId) → rest.find? (n < ·.batchId) = rest.head? := by
    intro n hn
    cases rest with
    | nil => rfl
    | cons b rest => simp [hn b (by simp)]
  rcases List.eq_nil_or_concat writePipeline with rfl | ⟨before, last, rfl⟩
  · refine hhead (-1) fun b hb => ?_
    have := hpositive b hb
    omega
  · simp only [List.concat_eq_append] at hord hpositive ⊢
    rw [lastBatchId_snoc]
    obtain ⟨hbefore, -, hlater⟩ := List.pairwise_append.mp hord
    obtain ⟨-, -, hlast⟩ := List.pairwise_append.mp hbefore
    have hnone : (before ++ [last]).find? (last.batchId < ·.batchId) = none := by
      refine List.find?_eq_none.mpr fun b hb hlt => ?_
      have hlt : last.batchId < b.batchId := of_decide_eq_true hlt
      rcases List.mem_append.mp hb with hb | hb
      · exact lt_asymm hlt (hlast b hb last (List.mem_singleton_self _))
      · rw [List.mem_singleton.mp hb] at hlt
        exact lt_irrefl _ hlt
    rw [List.find?_append, hnone, Option.none_or]
    exact hhead _ fun b hb => hlater last (by simp) b hb

/-- The pipeline is the beginning of the queue, and there can be more to add. -/
structure Fills (r : RemoteStore α) (a : WriteQueues α) (rest : List (MutationBatch α)) : Prop where
  keeps : Keeps r.localStore a
  enabled : r.isNetworkEnabled = true
  queue : a.pending.queueOf a.userId = r.writePipeline ++ rest
  short : r.writePipeline.length ≤ kMaxPendingWrites
  sends : Sends r.writeStream r.writePipeline
  waiting : r.writeStream.isOpen = true → r.writeStream.handshakeComplete = false → r.writePipeline ≠ []

theorem Fills.getNextMutationBatch_eq (h : Fills r a rest) :
    r.localStore.getNextMutationBatch (lastBatchId r.writePipeline) = .ok rest.head? := by
  have hord := h.keeps.represents.numbered.queueOf_inOrder a.userId
  have hmem : ∀ b ∈ r.writePipeline ++ rest, (a.userId, b) ∈ a.pending := by
    intro b hb
    rw [← h.queue] at hb
    exact Pending.mem_queueOf.mp hb
  have hpositive : ∀ b ∈ r.writePipeline ++ rest, 1 ≤ b.batchId :=
    fun b hb => h.keeps.represents.numbered.positive _ (hmem b hb)
  have hid : IsInt32 (lastBatchId r.writePipeline + 1) := by
    unfold lastBatchId
    cases hlast : r.writePipeline.getLast? with
    | none =>
      show IsInt32 (-1 + 1)
      decide
    | some b =>
      -- The next id of the queue is above this one.
      have hb := hmem b (List.mem_append_left _ (List.mem_of_getLast? hlast))
      have hlater : b.batchId < a.nextBatchId := h.keeps.later _ hb
      have hpos : 1 ≤ b.batchId := h.keeps.represents.numbered.positive _ hb
      have hnext := h.keeps.isInt32
      unfold IsInt32 at hnext ⊢
      simp only [Option.map_some, Option.getD_some]
      omega
  have hrep : Represents (LevelDbTransaction.on r.localStore.db).commit a.pending a.tokens := h.keeps.represents
  have huser : r.localStore.mutationQueue.userId = a.userId := by rw [h.keeps.queue]
  rw [h.queue] at hord
  unfold LocalStore.getNextMutationBatch
  rw [LevelDbMutationQueue.nextMutationBatchAfterBatchId_eq _ hrep hid, huser, h.queue,
    find?_after_pipeline hord hpositive]

theorem Fills.loop (h : Fills r a rest) {turns : ℕ} (hturns : kMaxPendingWrites < r.writePipeline.length + turns) :
    ∃ w', RemoteStore.fillWritePipelineLoop turns (lastBatchId r.writePipeline) r =
        .ok { r with writePipeline := (r.writePipeline ++ rest).take kMaxPendingWrites, writeStream := w' } ∧
      Sends w' ((r.writePipeline ++ rest).take kMaxPendingWrites) ∧ w'.state = r.writeStream.state ∧
      w'.handshakeComplete = r.writeStream.handshakeComplete := by
  induction turns generalizing r rest with
  | zero => exact absurd h.short (Nat.not_le.mpr hturns)
  | succ turns ih =>
    unfold RemoteStore.fillWritePipelineLoop
    by_cases hlen : r.writePipeline.length < kMaxPendingWrites
    · have hcan : r.canAddToWritePipeline = true := by
        simp [RemoteStore.canAddToWritePipeline, h.enabled, hlen]
      simp only [hcan, if_true, h.getNextMutationBatch_eq, bind, Except.bind]
      cases rest with
      | nil =>
        have htake : (r.writePipeline ++ []).take kMaxPendingWrites = r.writePipeline := by
          rw [List.append_nil, List.take_of_length_le h.short]
        rw [htake]
        by_cases hempty : r.writePipeline = []
        · have hsends := h.sends
          rw [hempty] at hsends
          have hmark := hsends.markIdle fun hopen => by
            by_contra hhandshake
            exact h.waiting hopen (Bool.eq_false_iff.mpr hhandshake) hempty
          refine ⟨{ r.writeStream with toStream := r.writeStream.markIdle }, ?_, by rw [hempty]; exact hmark.1,
            hmark.2, rfl⟩
          have hnil : r.writePipeline.isEmpty = true := List.isEmpty_iff.mpr hempty
          simp [hnil, pure, Except.pure]
        · have hnil : r.writePipeline.isEmpty = false := List.isEmpty_eq_false_iff.mpr hempty
          refine ⟨r.writeStream, ?_, h.sends, rfl, rfl⟩
          simp [hnil, pure, Except.pure]
      | cons batch rest =>
        obtain ⟨w', hadd, hsends, hstate, hhandshake⟩ := RemoteStore.addToWritePipeline_eq h.sends hcan batch
        have hfills : Fills { r with writePipeline := r.writePipeline ++ [batch], writeStream := w' } a rest :=
          ⟨h.keeps, h.enabled, by simpa using h.queue,
            by rw [List.length_append]; exact hlen, hsends, by simp⟩
        obtain ⟨w'', hloop, hsends', hstate', hhandshake'⟩ := ih hfills (by simp; omega)
        rw [lastBatchId_snoc] at hloop
        refine ⟨w'', ?_, ?_, hstate'.trans hstate, hhandshake'.trans hhandshake⟩
        · simp only [List.head?_cons, hadd, hloop, List.append_assoc, List.singleton_append]
        · simpa using hsends'
    · have hfull : r.writePipeline.length = kMaxPendingWrites := le_antisymm h.short (not_lt.mp hlen)
      have hcan : r.canAddToWritePipeline = false := by
        simp [RemoteStore.canAddToWritePipeline, hlen]
      have htake : (r.writePipeline ++ rest).take kMaxPendingWrites = r.writePipeline := by
        rw [← hfull, List.take_left']
        rfl
      rw [htake]
      refine ⟨r.writeStream, ?_, h.sends, rfl, rfl⟩
      simp [hcan, pure, Except.pure]

/-- A stream that starts was not open, and is not open yet. -/
theorem RemoteStore.startIfNeeded_sends (hsends : Sends r.writeStream r.writePipeline)
    (henabled : r.isNetworkEnabled = true) :
    ∃ w', r.startIfNeeded = .ok { r with writeStream := w' } ∧ Sends w' r.writePipeline ∧
      w'.handshakeComplete = r.writeStream.handshakeComplete ∧ w'.isOpen = r.writeStream.isOpen ∧
      (r.writePipeline ≠ [] → w'.isStarted = true) ∧
      (w'.isStarted = true → r.writeStream.isStarted = true ∨ r.writePipeline ≠ []) := by
  unfold startIfNeeded
  cases hshould : r.shouldStartWriteStream with
  | true =>
    have hparts := hshould
    simp only [shouldStartWriteStream, Bool.and_eq_true, Bool.not_eq_true', List.isEmpty_eq_false_iff] at hparts
    have hdown := hparts.1.2
    have hopen := Stream.isOpen_of_down hdown
    obtain ⟨hunanswered, hidle⟩ := hsends.closed hopen
    obtain ⟨s', hstart, hconnects, hstarted, hclosed, hsame⟩ := hsends.connects.start hdown
    refine ⟨{ r.writeStream with toStream := s' }, ?_, .of_closed hconnects hclosed hunanswered (hsame.trans hidle),
      rfl, hclosed.trans hopen.symm, fun _ => hstarted, fun _ => Or.inr hparts.2⟩
    simp [startWriteStream, hshould, hardAssert, hstart, bind, Except.bind, pure, Except.pure]
  | false =>
    refine ⟨r.writeStream, rfl, hsends, rfl, rfl, fun hne => ?_, Or.inl⟩
    by_contra hnot
    simp [shouldStartWriteStream, henabled, Bool.eq_false_iff.mpr hnot, hne] at hshould

theorem Fills.fill (h : Fills r a rest) :
    ∃ w', r.fillWritePipeline =
        .ok { r with writePipeline := (r.writePipeline ++ rest).take kMaxPendingWrites, writeStream := w' } ∧
      Sends w' ((r.writePipeline ++ rest).take kMaxPendingWrites) ∧
      w'.handshakeComplete = r.writeStream.handshakeComplete ∧ w'.isOpen = r.writeStream.isOpen ∧
      ((r.writePipeline ++ rest).take kMaxPendingWrites ≠ [] → w'.isStarted = true) ∧
      (w'.isStarted = true →
        r.writeStream.isStarted = true ∨ (r.writePipeline ++ rest).take kMaxPendingWrites ≠ []) := by
  have hturns := Nat.lt_add_left r.writePipeline.length (Nat.lt_succ_self kMaxPendingWrites)
  obtain ⟨w, hloop, hsends, hstate, hhandshake⟩ := h.loop hturns
  obtain ⟨w', hstart, hsends', hhandshake', hopen', hneeded, hstarted⟩ := RemoteStore.startIfNeeded_sends
    (r := { r with writePipeline := (r.writePipeline ++ rest).take kMaxPendingWrites, writeStream := w })
    hsends h.enabled
  have hopen : w.isOpen = r.writeStream.isOpen := by simp only [Stream.isOpen, hstate]
  have hsame : w.isStarted = r.writeStream.isStarted := by simp only [Stream.isStarted, hopen, hstate]
  refine ⟨w', ?_, hsends', hhandshake'.trans hhandshake, hopen'.trans hopen, hneeded, fun hs => ?_⟩
  · unfold RemoteStore.fillWritePipeline
    show (RemoteStore.fillWritePipelineLoop (kMaxPendingWrites + 1) (lastBatchId r.writePipeline) r >>=
      fun r => r.startIfNeeded) = _
    rw [hloop]
    exact hstart
  · rw [← hsame]
    exact hstarted hs

theorem Fills.sending (h : Fills r a rest) (hfill : r.fillWritePipeline = .ok r') :
    (r'.writeStream.isOpen && r'.writeStream.handshakeComplete) =
      (r.writeStream.isOpen && r.writeStream.handshakeComplete) := by
  obtain ⟨w', hfill', -, hsame, hopen, -⟩ := h.fill
  rw [hfill] at hfill'
  cases hfill'
  rw [hopen, hsame]

theorem RemoteStore.fillWritePipeline_disabled (h : r.isNetworkEnabled = false) : r.fillWritePipeline = .ok r := by
  unfold fillWritePipeline fillWritePipelineLoop startIfNeeded
  simp [canAddToWritePipeline, shouldStartWriteStream, h, bind, Except.bind, pure, Except.pure]

/-! ## Runs of the client -/

/-- What holds between two events: with the network the pipeline is the beginning of the
queue, a stream is up when there is something to send, and it is for the pipeline. -/
structure Streams (r : RemoteStore α) (a : WriteQueues α) : Prop where
  keeps : Keeps r.localStore a
  pipeline : r.writePipeline =
    if r.isNetworkEnabled then (a.pending.queueOf a.userId).take kMaxPendingWrites else []
  sends : Sends r.writeStream r.writePipeline
  enabled : r.writeStream.isStarted = true → r.isNetworkEnabled = true
  needed : r.writePipeline ≠ [] → r.writeStream.isStarted = true
  handshake : r.writeStream.handshakeComplete = true → r.writeStream.isOpen = true
  waiting : r.writeStream.isStarted = true → r.writeStream.handshakeComplete = false → r.writePipeline ≠ []

theorem Fills.streams (h : Fills r a rest)
    (hhandshake : r.writeStream.handshakeComplete = true → r.writeStream.isOpen = true)
    (hwaiting : r.writeStream.isStarted = true → r.writeStream.handshakeComplete = false → r.writePipeline ≠ []) :
    ∃ r', r.fillWritePipeline = .ok r' ∧ Streams r' a := by
  obtain ⟨w', hfill, hsends, hsame, hopen, hneeded, hstarted⟩ := h.fill
  refine ⟨_, hfill, h.keeps, ?_, hsends, fun _ => h.enabled, hneeded, fun hw => ?_, fun hs hw => ?_⟩
  · rw [h.queue, if_pos h.enabled]
  · exact hopen.trans (hhandshake (hsame ▸ hw))
  · rcases hstarted hs with hs | hne
    · have hne := hwaiting hs (hsame ▸ hw)
      cases hp : r.writePipeline with
      | nil => exact absurd hp hne
      | cons batch writePipeline => simp [kMaxPendingWrites]
    · exact hne

theorem Streams.fills (h : Streams r a) (henabled : r.isNetworkEnabled = true) :
    Fills r a ((a.pending.queueOf a.userId).drop kMaxPendingWrites) := by
  have hpipeline := h.pipeline
  rw [if_pos henabled] at hpipeline
  refine ⟨h.keeps, henabled, ?_, ?_, h.sends, fun hopen => h.waiting (Stream.isStarted_of_open hopen)⟩
  · rw [hpipeline, List.take_append_drop]
  · rw [hpipeline, List.length_take]
    exact Nat.min_le_left _ _

/-- A stream that is down. -/
structure WriteStream.Quiet (w : WriteStream α) : Prop where
  connects : w.Connects
  down : w.isStarted = false
  handshake : w.handshakeComplete = false
  unanswered : w.unanswered = []
  idle : w.idlenessTimer = false

theorem RemoteStore.stop_eq (hsends : Sends r.writeStream r.writePipeline)
    (hhandshake : r.writeStream.handshakeComplete = true → r.writeStream.isOpen = true)
    (hdone : r.isNetworkEnabled = false ∨ r.writePipeline = []) :
    ∃ w', r.stop = .ok { r with writeStream := w' } ∧ w'.Quiet := by
  unfold stop
  cases hstarted : r.writeStream.isStarted with
  | false =>
    have hopen := Stream.isOpen_of_down hstarted
    obtain ⟨hunanswered, hidle⟩ := hsends.closed hopen
    have hfalse := WriteStream.handshakeComplete_of_closed hhandshake hopen
    exact ⟨r.writeStream, rfl, hsends.connects, hstarted, hfalse, hunanswered, hidle⟩
  | true =>
    have hshould : ({ r with writeStream := { r.writeStream with
        toStream := r.writeStream.closed none
        unanswered := [] } } : RemoteStore α).shouldStartWriteStream = false := by
      rcases hdone with h | h <;> simp [shouldStartWriteStream, h]
    refine ⟨{ r.writeStream with
      toStream := r.writeStream.closed none, unanswered := [], handshakeComplete := false }, ?_,
      Stream.closed_connects hsends.connects.requests none, rfl, rfl, rfl, rfl⟩
    unfold close onWriteStreamClose startIfNeeded
    simp [hstarted, hshould, hardAssert, bind, Except.bind, pure, Except.pure]

theorem RemoteStore.disableNetwork_eq (hsends : Sends r.writeStream r.writePipeline)
    (hhandshake : r.writeStream.handshakeComplete = true → r.writeStream.isOpen = true) :
    ∃ w', r.disableNetwork =
        .ok { r with isNetworkEnabled := false, writePipeline := [], writeStream := w' } ∧ w'.Quiet := by
  obtain ⟨w', hstop, hquiet⟩ := RemoteStore.stop_eq (r := { r with isNetworkEnabled := false }) hsends hhandshake
    (Or.inl rfl)
  refine ⟨w', ?_, hquiet⟩
  unfold disableNetwork disableNetworkInternal
  rw [hstop]
  rfl

theorem RemoteStore.restartNetwork_streams (hkeeps : Keeps r.localStore a)
    (hsends : Sends r.writeStream r.writePipeline)
    (hhandshake : r.writeStream.handshakeComplete = true → r.writeStream.isOpen = true) :
    ∃ r', r.restartNetwork = .ok r' ∧ Streams r' a := by
  obtain ⟨w', hdisable, hquiet⟩ := RemoteStore.disableNetwork_eq hsends hhandshake
  have hinhibit := Stream.Connects.inhibitBackoff_eq hquiet.down
  have hfills : Fills { r with
      isNetworkEnabled := true
      writePipeline := []
      writeStream := { w' with
        state := .initial
        lastStreamToken := r.localStore.mutationQueue.lastStreamToken } } a (a.pending.queueOf a.userId) :=
    ⟨hkeeps, rfl, rfl, Nat.zero_le _, .of_closed (hquiet.connects.inhibited hquiet.down) rfl hquiet.unanswered
      hquiet.idle, fun hopen => by cases hopen⟩
  obtain ⟨r', hfill, hstreams⟩ := hfills.streams
    (fun hw => absurd hw (by simp [hquiet.handshake])) (fun hs => by cases hs)
  refine ⟨r', ?_, hstreams⟩
  unfold restartNetwork
  simp only [hdisable, hinhibit, bind, Except.bind]
  exact hfill

theorem Streams.enableNetwork (h : Streams r a) : ∃ r', r.enableNetwork = .ok r' ∧ Streams r' a := by
  cases henabled : r.isNetworkEnabled with
  | true =>
    have hfills := h.fills henabled
    have hfills' : Fills { r with
        isNetworkEnabled := true
        writeStream := { r.writeStream with lastStreamToken := r.localStore.mutationQueue.lastStreamToken } } a
        ((a.pending.queueOf a.userId).drop kMaxPendingWrites) :=
      ⟨hfills.keeps, rfl, hfills.queue, hfills.short, ⟨h.sends.connects, h.sends.unanswered, h.sends.idle⟩,
        hfills.waiting⟩
    exact hfills'.streams h.handshake h.waiting
  | false =>
    have hpipeline := h.pipeline
    rw [henabled, if_neg Bool.false_ne_true] at hpipeline
    have hdown : r.writeStream.isStarted = false := by
      by_contra hs
      rw [h.enabled (Bool.not_eq_false _ ▸ hs)] at henabled
      cases henabled
    have hfills : Fills { r with
        isNetworkEnabled := true
        writeStream := { r.writeStream with lastStreamToken := r.localStore.mutationQueue.lastStreamToken } } a
        (a.pending.queueOf a.userId) := by
      refine ⟨h.keeps, rfl, ?_, ?_, ⟨h.sends.connects, h.sends.unanswered, h.sends.idle⟩, fun hopen => ?_⟩
      · rw [hpipeline, List.nil_append]
      · rw [hpipeline]
        exact Nat.zero_le _
      · exact absurd (Stream.isStarted_of_open hopen) (Bool.eq_false_iff.mp hdown)
    exact hfills.streams h.handshake fun hs => absurd hs (Bool.eq_false_iff.mp hdown)

theorem Streams.disableNetwork (h : Streams r a) : ∃ r', r.disableNetwork = .ok r' ∧ Streams r' a := by
  obtain ⟨w', hdisable, hquiet⟩ := RemoteStore.disableNetwork_eq h.sends h.handshake
  refine ⟨_, hdisable, h.keeps, rfl, ?_, ?_, fun hne => absurd rfl hne, ?_, ?_⟩
  · exact .of_closed hquiet.connects (Stream.isOpen_of_down hquiet.down) hquiet.unanswered hquiet.idle
  · exact fun hs => absurd hs (by simp [hquiet.down])
  · exact fun hw => absurd hw (by simp [hquiet.handshake])
  · exact fun hs => absurd hs (by simp [hquiet.down])

theorem Streams.writeMutations (h : Streams r a) (localWriteTime : Timestamp) (baseMutations : List (Mutation α))
    {mutations : List (Mutation α)} (hne : mutations ≠ []) (hnext : IsInt32 (a.nextBatchId + 1)) :
    ∃ r' a', SyncEngine.act r (.writeMutations localWriteTime baseMutations mutations) = .ok r' ∧
      Streams r' a' ∧ a'.userId = a.userId := by
  obtain ⟨localStore, hwrite, hkeeps⟩ := h.keeps.writeLocally localWriteTime baseMutations hne hnext
  obtain ⟨a', hkeeps, hpending, huser⟩ : ∃ a', Keeps localStore a' ∧ a'.pending = a.pending ++
      [(a.userId, ⟨a.nextBatchId, localWriteTime, baseMutations, mutations, hne⟩)] ∧ a'.userId = a.userId :=
    ⟨_, hkeeps, rfl, rfl⟩
  simp only [SyncEngine.act, hwrite, bind, Except.bind]
  by_cases henabled : r.isNetworkEnabled = true
  · have hfills := h.fills henabled
    have hfills' : Fills { r with localStore } a' ((a.pending.queueOf a.userId).drop kMaxPendingWrites ++
        [⟨a.nextBatchId, localWriteTime, baseMutations, mutations, hne⟩]) := by
      refine ⟨hkeeps, henabled, ?_, hfills.short, hfills.sends, hfills.waiting⟩
      rw [← List.append_assoc, ← hfills.queue, huser, hpending]
      simp [Pending.queueOf]
    obtain ⟨r', hfill, hstreams⟩ := hfills'.streams h.handshake h.waiting
    exact ⟨r', a', hfill, hstreams, huser⟩
  · rw [Bool.not_eq_true] at henabled
    have hpipeline := h.pipeline
    rw [henabled, if_neg Bool.false_ne_true] at hpipeline
    have hstreams : Streams { r with localStore } a' := by
      refine ⟨hkeeps, ?_, h.sends, h.enabled, h.needed, h.handshake, h.waiting⟩
      show r.writePipeline = if r.isNetworkEnabled then _ else _
      rw [henabled, if_neg Bool.false_ne_true]
      exact hpipeline
    exact ⟨_, a', RemoteStore.fillWritePipeline_disabled (r := { r with localStore }) henabled, hstreams, huser⟩

/-- Another store, for the same waiting writes of the user. -/
theorem Streams.withStore (h : Streams r a) {localStore : LocalStore α} (hkeeps : Keeps localStore a')
    (hpending : a'.pending = a.pending) (huser : a'.userId = a.userId) : Streams { r with localStore } a' :=
  ⟨hkeeps, by rw [hpending, huser]; exact h.pipeline, h.sends, h.enabled, h.needed, h.handshake, h.waiting⟩

theorem Streams.streamOpen (h : Streams r a) (hstate : r.writeStream.state = .starting)
    (hg : r.writeStream.grpcStream = true) :
    ∃ r', SyncEngine.act r .streamOpen = .ok r' ∧ Streams r' a ∧ r'.writeStream.isOpen = true := by
  obtain ⟨hopen, hstarted⟩ := Stream.of_starting (Or.inl hstate)
  have hhandshake := WriteStream.handshakeComplete_of_closed h.handshake hopen
  obtain ⟨hunanswered, -⟩ := h.sends.closed hopen
  have hconnects := h.sends.connects.onStreamStart hg
  refine ⟨{ r with writeStream := { r.writeStream with state := .opened, idlenessTimer := false } }, ?_, ⟨h.keeps,
    h.pipeline, ⟨hconnects.withTimer false, ?_, fun hidle => by cases hidle⟩, fun _ => h.enabled hstarted,
    fun _ => rfl, fun _ => rfl, fun _ => h.waiting hstarted⟩, rfl⟩
  · simp [SyncEngine.act, WriteStream.writeHandshake, hardAssert, hhandshake, hconnects.write_eq rfl, Stream.isOpen,
      bind, Except.bind, pure, Except.pure]
  · simp [hunanswered, hhandshake]

theorem foldlM_writeMutations {w : WriteStream α} (hconnects : w.Connects) (hopen : w.isOpen = true)
    (hhandshake : w.handshakeComplete = true) (writePipeline : List (MutationBatch α)) :
    ∃ w', writePipeline.foldlM (fun w batch => w.writeMutations batch.mutations) w = .ok w' ∧ w'.Connects ∧
      w'.state = w.state ∧ w'.handshakeComplete = true ∧ w'.unanswered = w.unanswered ++
        writePipeline.map (·.mutations) ∧ (w.idlenessTimer = false → w'.idlenessTimer = false) := by
  induction writePipeline generalizing w with
  | nil => exact ⟨w, rfl, hconnects, rfl, hhandshake, by simp, id⟩
  | cons batch writePipeline ih =>
    obtain ⟨w', hfold, hconnects', hstate, hdone, hunanswered, hidle⟩ := ih
      (w := { w with idlenessTimer := false, unanswered := w.unanswered ++ [batch.mutations] })
      (hconnects.withTimer false) hopen hhandshake
    refine ⟨w', ?_, hconnects', hstate, hdone, ?_, fun _ => hidle rfl⟩
    · rw [List.foldlM_cons, WriteStream.writeMutations_eq hconnects hopen hhandshake]
      exact hfold
    · rw [hunanswered, List.map_cons, List.append_assoc]
      rfl

/-- With the handshake the whole pipeline is sent. -/
theorem Streams.handshakeComplete (h : Streams r a) (hopen : r.writeStream.isOpen = true)
    (hhandshake : r.writeStream.handshakeComplete = false) (streamToken : List Byte) :
    ∃ r', SyncEngine.act r (.handshake streamToken) = .ok r' ∧ Streams r' (a.withToken streamToken) ∧
      (r'.writeStream.isOpen && r'.writeStream.handshakeComplete) = true := by
  obtain ⟨localStore, hstore, hkeeps⟩ := h.keeps.setLastStreamToken streamToken
  obtain ⟨w', hfold, hconnects, hstate, hdone, hunanswered, hidle⟩ := foldlM_writeMutations
    (w := { r.writeStream with lastStreamToken := streamToken, handshakeComplete := true }) h.sends.connects hopen rfl
    r.writePipeline
  have hopen' : w'.isOpen = true := by
    rw [← hopen]
    simp only [Stream.isOpen, hstate]
  have hnothing : r.writeStream.unanswered = [] := by
    rw [h.sends.unanswered, hhandshake, Bool.and_false]
    rfl
  have htimer : r.writeStream.idlenessTimer = false := by
    by_contra hw
    have hsending := (h.sends.idle (Bool.not_eq_false _ ▸ hw)).1
    rw [hhandshake, Bool.and_false] at hsending
    cases hsending
  refine ⟨{ r with localStore, writeStream := w' }, ?_, ⟨hkeeps, h.pipeline, ⟨hconnects, ?_, ?_⟩,
    fun _ => h.enabled (Stream.isStarted_of_open hopen), fun _ => Stream.isStarted_of_open hopen',
    fun _ => hopen', fun _ hw => ?_⟩, by rw [hopen', hdone]; rfl⟩
  · simp only [SyncEngine.act, RemoteStore.onWriteStreamHandshakeComplete, Stream.isStarted_of_open hopen, hardAssert,
      if_true, hstore, hfold, bind, Except.bind]
    rfl
  · rw [hunanswered, hnothing, hopen', hdone]
    rfl
  · exact fun hw => absurd hw (by simp [hidle htimer])
  · rw [hdone] at hw
    cases hw

theorem Pending.queueOf_without (pending : Pending α) (userId : List Byte) (batchId : ℤ) :
    Pending.queueOf (pending.filter (·.2.batchId ≠ batchId)) userId =
      (pending.queueOf userId).filter (·.batchId ≠ batchId) := by
  unfold queueOf
  rw [List.filter_map, List.filter_filter, List.filter_filter]
  congr 1
  exact List.filter_congr fun e _ => Bool.and_comm _ _

/-- Without its first write the queue is the rest of it. -/
theorem Keeps.queueOf_tail {s : LocalStore α} (h : Keeps s a) {batch : MutationBatch α}
    {batches : List (MutationBatch α)} (hqueue : a.pending.queueOf a.userId = batch :: batches) :
    Pending.queueOf (a.pending.filter (·.2.batchId ≠ batch.batchId)) a.userId = batches := by
  have hord := h.represents.numbered.queueOf_inOrder a.userId
  rw [hqueue] at hord
  obtain ⟨hlater, -⟩ := List.pairwise_cons.mp hord
  rw [Pending.queueOf_without, hqueue, List.filter_cons_of_neg (by simp)]
  exact List.filter_eq_self.mpr fun b hb => by simpa using (hlater b hb).ne'

/-- When the first write is answered and gone, the others are still on their way. -/
theorem Fills.answered (h : Fills r a rest)
    (hsending : (r.writeStream.isOpen && r.writeStream.handshakeComplete) = true)
    {batch : MutationBatch α} {writePipeline : List (MutationBatch α)}
    (hpipeline : r.writePipeline = batch :: writePipeline)
    (hunanswered : r.writeStream.unanswered = batch.mutations :: writePipeline.map (·.mutations))
    (streamToken : List Byte) {localStore : LocalStore α}
    (hkeeps : Keeps localStore ((a.withToken streamToken).without batch.batchId)) :
    Fills { r with
        localStore
        writePipeline
        writeStream := { r.writeStream with
          lastStreamToken := streamToken
          unanswered := r.writeStream.unanswered.tail } }
      ((a.withToken streamToken).without batch.batchId) rest := by
  have hqueue := h.queue
  rw [hpipeline, List.cons_append] at hqueue
  refine ⟨hkeeps, h.enabled, h.keeps.queueOf_tail hqueue, ?_, ⟨h.sends.connects, ?_, fun hidle => ?_⟩,
    fun _ hw => ?_⟩
  · have hshort := h.short
    rw [hpipeline, List.length_cons] at hshort
    exact Nat.le_of_succ_le hshort
  · show r.writeStream.unanswered.tail = if (r.writeStream.isOpen && r.writeStream.handshakeComplete) then _ else _
    rw [if_pos hsending, hunanswered]
    rfl
  · have hempty := (h.sends.idle hidle).2
    rw [hpipeline] at hempty
    cases hempty
  · rw [Bool.and_eq_true] at hsending
    exact absurd hsending.2 (Bool.eq_false_iff.mp hw)

/-- An answer is for the first write of the pipeline, which goes from the queue, and the
stream goes on with the others. -/
theorem Streams.mutationResult (h : Streams r a) {mutationResults : List MutationResult}
    (hfirst : r.writeStream.unanswered.head?.map (·.length) = some mutationResults.length) {sequenceNumber : ℤ}
    (hseq : IsInt64 sequenceNumber) (streamToken : List Byte) (commitVersion : Timestamp)
    (documents : RemoteDocuments α) :
    ∃ r' batch, SyncEngine.act r (.mutationResult streamToken commitVersion mutationResults sequenceNumber documents) =
        .ok r' ∧
      r.writePipeline.head? = some batch ∧ r.writeStream.unanswered.head? = some batch.mutations ∧
      (a.pending.queueOf a.userId).head? = some batch ∧
      Streams r' ((a.withToken streamToken).without batch.batchId) ∧
      (r'.writeStream.isOpen && r'.writeStream.handshakeComplete) = true := by
  obtain ⟨hsending, batch, writePipeline, hpipeline, hunanswered, hlength⟩ := h.sends.first_answer hfirst
  have hboth := hsending
  rw [Bool.and_eq_true] at hboth
  have hstarted := Stream.isStarted_of_open hboth.1
  have hfills := h.fills (h.enabled hstarted)
  have hhead : (a.pending.queueOf a.userId).head? = some batch := by
    rw [hfills.queue, hpipeline]
    rfl
  have hmem : (a.userId, batch) ∈ a.pending := Pending.mem_queueOf.mp (List.mem_of_head? hhead)
  have hcreate : MutationBatchResult.create batch commitVersion mutationResults streamToken =
      .ok ⟨batch, commitVersion, mutationResults, streamToken, hlength⟩ := dif_pos hlength
  obtain ⟨localStore, hack, hkeeps⟩ := h.keeps.acknowledgeBatch hseq
    ⟨batch, commitVersion, mutationResults, streamToken, hlength⟩ hmem documents
  have hfills' := hfills.answered hsending hpipeline hunanswered streamToken hkeeps
  obtain ⟨r', hfill, hstreams⟩ := hfills'.streams (fun _ => hboth.1)
    fun _ hw => absurd hboth.2 (Bool.eq_false_iff.mp hw)
  refine ⟨r', batch, ?_, by rw [hpipeline]; rfl, by rw [hunanswered]; rfl, hhead, hstreams,
    (hfills'.sending hfill).trans hsending⟩
  simp only [SyncEngine.act, RemoteStore.onWriteStreamMutationResult, hpipeline, hcreate, hack, hstarted, hardAssert,
    if_true, bind, Except.bind]
  exact hfill

/-- A stream that went down with an error. The handshake is not forgotten yet. -/
structure Broken (r : RemoteStore α) (a : WriteQueues α) : Prop where
  keeps : Keeps r.localStore a
  enabled : r.isNetworkEnabled = true
  pipeline : r.writePipeline = (a.pending.queueOf a.userId).take kMaxPendingWrites
  sends : Sends r.writeStream r.writePipeline
  closed : r.writeStream.isOpen = false
  started : r.writeStream.isStarted = true → r.writePipeline ≠ []

/-- A permanent error of a write rejects the first one. -/
theorem Broken.handleWriteError (h : Broken r a) (hdown : r.writeStream.isStarted = false)
    (hne : r.writePipeline ≠ []) {sequenceNumber : ℤ} (hseq : IsInt64 sequenceNumber) (code : ErrorCode) :
    ∃ r' a', r.handleWriteError sequenceNumber code = .ok r' ∧ Broken r' a' ∧ a'.userId = a.userId := by
  unfold RemoteStore.handleWriteError
  by_cases hcode : code.isPermanentWriteError = true
  · cases hpipeline : r.writePipeline with
    | nil => exact absurd hpipeline hne
    | cons batch writePipeline =>
      have hqueue : a.pending.queueOf a.userId =
          batch :: (writePipeline ++ (a.pending.queueOf a.userId).drop kMaxPendingWrites) := by
        rw [← List.cons_append, ← hpipeline, h.pipeline, List.take_append_drop]
      have hmem : (a.userId, batch) ∈ a.pending := Pending.mem_queueOf.mp (hqueue ▸ List.mem_cons_self)
      obtain ⟨localStore, hreject, hkeeps⟩ := h.keeps.rejectBatch hseq hmem
      have hinhibit := Stream.Connects.inhibitBackoff_eq hdown
      obtain ⟨hunanswered, hidle⟩ := h.sends.closed h.closed
      have hfills : Fills { r with
          localStore
          writePipeline
          writeStream := { r.writeStream with state := .initial } } (a.without batch.batchId)
          ((a.pending.queueOf a.userId).drop kMaxPendingWrites) := by
        refine ⟨hkeeps, h.enabled, h.keeps.queueOf_tail hqueue, ?_,
          .of_closed (h.sends.connects.inhibited hdown) rfl hunanswered hidle, fun hopen => by cases hopen⟩
        have hlen := congrArg List.length h.pipeline
        rw [hpipeline, List.length_cons, List.length_take] at hlen
        show writePipeline.length ≤ kMaxPendingWrites
        omega
      obtain ⟨w', hfill, hsends, -, hopen, -, hstarted⟩ := hfills.fill
      have hbroken : Broken { r with
          localStore
          writePipeline := (writePipeline ++ (a.pending.queueOf a.userId).drop kMaxPendingWrites).take
            kMaxPendingWrites
          writeStream := w' } (a.without batch.batchId) :=
        ⟨hkeeps, h.enabled, congrArg (List.take kMaxPendingWrites) hfills.queue.symm, hsends, hopen,
          fun hs => (hstarted hs).resolve_left fun hs => by cases hs⟩
      refine ⟨_, a.without batch.batchId, ?_, hbroken, rfl⟩
      simp only [hcode, if_true, hinhibit, hreject, bind, Except.bind]
      exact hfill
  · exact ⟨r, a, if_neg hcode, h, rfl⟩

theorem Broken.handleHandshakeError (h : Broken r a) (code : ErrorCode) :
    ∃ r' a', r.handleHandshakeError code = .ok r' ∧ Broken r' a' ∧ a'.userId = a.userId := by
  unfold RemoteStore.handleHandshakeError
  by_cases hcode : code.isPermanentError = true
  · obtain ⟨localStore, hstore, hkeeps⟩ := h.keeps.setLastStreamToken []
    refine ⟨{ r with localStore, writeStream := { r.writeStream with lastStreamToken := [] } }, a.withToken [], ?_,
      ⟨hkeeps, h.enabled, h.pipeline, ⟨h.sends.connects, h.sends.unanswered, h.sends.idle⟩, h.closed, h.started⟩, rfl⟩
    simp only [hcode, if_true, hstore, bind, Except.bind]
    rfl
  · exact ⟨r, a, if_neg hcode, h, rfl⟩

/-- When there is something to send the stream starts again, and then the handshake is
forgotten. -/
theorem Broken.streams (h : Broken r a) :
    ∃ r', r.startIfNeeded = .ok r' ∧
      Streams { r' with writeStream := { r'.writeStream with handshakeComplete := false } } a := by
  obtain ⟨w', hstart, hsends, -, hopen, hneeded, hstarted⟩ := RemoteStore.startIfNeeded_sends h.sends h.enabled
  have hclosed : w'.isOpen = false := hopen.trans h.closed
  obtain ⟨hunanswered, hidle⟩ := hsends.closed hclosed
  refine ⟨_, hstart, h.keeps, ?_, .of_closed hsends.connects hclosed hunanswered hidle, fun _ => h.enabled, hneeded,
    fun hw => (by cases hw), fun hs _ => (hstarted hs).elim h.started id⟩
  rw [if_pos h.enabled]
  exact h.pipeline

theorem Broken.onWriteStreamClose (h : Broken r a) (hdown : r.writeStream.isStarted = false) {sequenceNumber : ℤ}
    (hseq : IsInt64 sequenceNumber) (code : ErrorCode) :
    ∃ r' a', r.onWriteStreamClose sequenceNumber (some code) = r'.startIfNeeded ∧ Broken r' a' ∧
      a'.userId = a.userId := by
  unfold RemoteStore.onWriteStreamClose
  by_cases hempty : r.writePipeline = []
  · refine ⟨r, a, ?_, h, rfl⟩
    simp [hempty, bind, Except.bind, pure, Except.pure]
  · by_cases hhandshake : r.writeStream.handshakeComplete = true
    · obtain ⟨r', a', herror, hbroken, huser⟩ := h.handleWriteError hdown hempty hseq code
      refine ⟨r', a', ?_, hbroken, huser⟩
      simp [hempty, hhandshake, herror, bind, Except.bind]
    · obtain ⟨r', a', herror, hbroken, huser⟩ := h.handleHandshakeError code
      refine ⟨r', a', ?_, hbroken, huser⟩
      simp [hempty, hhandshake, herror, bind, Except.bind]

/-- A stream that is started ends with an error, whatever tokens are still asked for. -/
theorem Streams.close (h : Streams r a) (hstarted : r.writeStream.isStarted = true) {tokenRequests : List ℕ}
    (hrequests : ∀ closeCount ∈ tokenRequests, closeCount ≤ r.writeStream.closeCount) {sequenceNumber : ℤ}
    (hseq : IsInt64 sequenceNumber) (code : ErrorCode) :
    ∃ r' a', RemoteStore.close { r with writeStream := { r.writeStream with tokenRequests } } sequenceNumber
        (some code) = .ok r' ∧ Streams r' a' ∧ a'.userId = a.userId := by
  have henabled := h.enabled hstarted
  have hpipeline := h.pipeline
  rw [if_pos henabled] at hpipeline
  have hconnects : (Stream.closed { r.writeStream.toStream with tokenRequests } (some code)).Connects :=
    Stream.closed_connects hrequests _
  have hbroken : Broken { r with writeStream := { r.writeStream with
      toStream := Stream.closed { r.writeStream.toStream with tokenRequests } (some code)
      unanswered := [] } } a :=
    ⟨h.keeps, henabled, hpipeline, .of_closed hconnects rfl rfl rfl, rfl, fun hs => by cases hs⟩
  obtain ⟨r', a', hclose, hbroken', huser⟩ := hbroken.onWriteStreamClose rfl hseq code
  obtain ⟨r'', hstart, hstreams⟩ := hbroken'.streams
  have hstarted' : Stream.isStarted { r.writeStream.toStream with tokenRequests } = true := hstarted
  refine ⟨_, a', ?_, hstreams, huser⟩
  unfold RemoteStore.close
  simp only [hstarted', hardAssert, if_true, bind, Except.bind, hclose, hstart]
  rfl

theorem Streams.idleTimeout (h : Streams r a) (htimer : r.writeStream.idlenessTimer = true) :
    ∃ r', SyncEngine.act r .idleTimeout = .ok r' ∧ Streams r' a := by
  have hempty : r.writePipeline = [] := (h.sends.idle htimer).2
  obtain ⟨w', hstop, hquiet⟩ := RemoteStore.stop_eq h.sends h.handshake (Or.inr hempty)
  have hopen := Stream.isOpen_of_down hquiet.down
  refine ⟨_, hstop, h.keeps, h.pipeline, .of_closed hquiet.connects hopen hquiet.unanswered hquiet.idle, ?_, ?_, ?_,
    ?_⟩
  · exact fun hs => absurd hs (by simp [hquiet.down])
  · exact fun hne => absurd hempty hne
  · exact fun hw => absurd hw (by simp [hquiet.handshake])
  · exact fun hs => absurd hs (by simp [hquiet.down])

theorem Streams.backoffElapsed (h : Streams r a) (htimer : r.writeStream.backoffTimer = true) :
    ∃ r', SyncEngine.act r .backoffElapsed = .ok r' ∧ Streams r' a ∧ r'.writeStream.state = .starting := by
  have hstate := h.sends.connects.backoff.mp htimer
  obtain ⟨hopen, hstarted⟩ := Stream.of_starting (Or.inr hstate)
  obtain ⟨hunanswered, hidle⟩ := h.sends.closed hopen
  obtain ⟨s', helapsed, hconnects, hstarting, hsame⟩ := h.sends.connects.backoffElapsed htimer
  obtain ⟨hclosed, hstarted'⟩ := Stream.of_starting (Or.inl hstarting)
  refine ⟨{ r with writeStream := { r.writeStream with toStream := s' } }, ?_, ⟨h.keeps, h.pipeline,
    .of_closed hconnects hclosed hunanswered (hsame.trans hidle), fun _ => h.enabled hstarted, fun _ => hstarted',
    fun hw => ?_, fun _ => h.waiting hstarted⟩, hstarting⟩
  · simp only [SyncEngine.act, helapsed, bind, Except.bind]
    rfl
  · rw [h.handshake hw] at hopen
    cases hopen

/-- A token that is not void is for a stream that starts. -/
theorem RemoteStore.onToken_eq (hstate : r.writeStream.state = .starting) (sequenceNumber : ℤ)
    (error : Option ErrorCode) :
    r.onToken r.writeStream.closeCount sequenceNumber error =
      match error with
      | some code => close { r with writeStream := { r.writeStream with
          tokenRequests := r.writeStream.tokenRequests.erase r.writeStream.closeCount } } sequenceNumber (some code)
      | none => .ok { r with writeStream := { r.writeStream with
          tokenRequests := r.writeStream.tokenRequests.erase r.writeStream.closeCount
          grpcStream := true } } := by
  have hcheck : hardAssert (r.writeStream.state == .starting) = .ok () := by
    rw [hstate]
    rfl
  unfold onToken resumeStartWithCredentials
  dsimp only
  rw [if_neg (not_not.mpr rfl), hcheck]
  cases error <;> rfl

/-- With its token a stream that starts has a connection. -/
theorem Streams.token_none (h : Streams r a) {sequenceNumber : ℤ}
    (hmem : r.writeStream.closeCount ∈ r.writeStream.tokenRequests) :
    ∃ r', SyncEngine.act r (.token r.writeStream.closeCount sequenceNumber none) = .ok r' ∧ Streams r' a ∧
      r'.writeStream.state = .starting ∧ r'.writeStream.grpcStream = true := by
  obtain ⟨hstate, hconnects⟩ := (h.sends.connects.answered hmem).2 rfl
  have hopen := (Stream.of_starting (Or.inl hstate)).1
  obtain ⟨hunanswered, hidle⟩ := h.sends.closed hopen
  refine ⟨{ r with writeStream := { r.writeStream with
      tokenRequests := r.writeStream.tokenRequests.erase r.writeStream.closeCount
      grpcStream := true } }, ?_, ⟨h.keeps, h.pipeline, .of_closed hconnects hopen hunanswered hidle, h.enabled,
    h.needed, h.handshake, h.waiting⟩, hstate, rfl⟩
  exact RemoteStore.onToken_eq hstate _ _

/-- A token for a connection that is gone changes nothing but the requests. -/
theorem Streams.token (h : Streams r a) {initialCloseCount : ℕ}
    (hmem : initialCloseCount ∈ r.writeStream.tokenRequests) {sequenceNumber : ℤ} (hseq : IsInt64 sequenceNumber)
    (error : Option ErrorCode) :
    ∃ r' a', SyncEngine.act r (.token initialCloseCount sequenceNumber error) = .ok r' ∧ Streams r' a' ∧
      a'.userId = a.userId := by
  obtain ⟨hvoid, hfor⟩ := h.sends.connects.answered hmem
  by_cases hcount : r.writeStream.closeCount = initialCloseCount
  · subst hcount
    cases error with
    | none =>
      obtain ⟨r', hact, hstreams, -⟩ := h.token_none hmem
      exact ⟨r', a, hact, hstreams, rfl⟩
    | some code =>
      obtain ⟨hstate, hconnects⟩ := hfor rfl
      have hstarted := (Stream.of_starting (Or.inl hstate)).2
      obtain ⟨r', a', hclose, hstreams, huser⟩ := h.close hstarted hconnects.requests hseq code
      refine ⟨r', a', ?_, hstreams, huser⟩
      exact (RemoteStore.onToken_eq hstate _ _).trans hclose
  · exact ⟨_, a, if_pos hcount, ⟨h.keeps, h.pipeline, ⟨hvoid hcount, h.sends.unanswered, h.sends.idle⟩, h.enabled,
      h.needed, h.handshake, h.waiting⟩, rfl⟩

/-- Each event that comes to the remote store goes through, and the user stays the same. -/
theorem Streams.act {user : User} (h : Streams r a) {event : ClientEvent α}
    (hcomes : SyncEngine.Comes ⟨r, user⟩ event) :
    ∃ r' a', SyncEngine.act r event = .ok r' ∧ Streams r' a' ∧ a'.userId = a.userId := by
  have hsame : ∀ {x : Checked (RemoteStore α)}, (∃ r', x = .ok r' ∧ Streams r' a) →
      ∃ r' a', x = .ok r' ∧ Streams r' a' ∧ a'.userId = a.userId := by
    rintro x ⟨r', hx, hstreams⟩
    exact ⟨r', a, hx, hstreams, rfl⟩
  cases event with
  | writeMutations localWriteTime baseMutations mutations =>
    have hnext := hcomes.2
    rw [h.keeps.queue] at hnext
    exact h.writeMutations localWriteTime baseMutations hcomes.1 hnext
  | credentialChange user => exact ⟨r, a, rfl, h, rfl⟩
  | enableNetwork => exact hsame h.enableNetwork
  | disableNetwork => exact hsame h.disableNetwork
  | connectivityChange =>
    unfold SyncEngine.act
    by_cases henabled : r.isNetworkEnabled = true
    · rw [if_pos henabled]
      exact hsame (RemoteStore.restartNetwork_streams h.keeps h.sends h.handshake)
    · rw [if_neg henabled]
      exact ⟨r, a, rfl, h, rfl⟩
  | others rows => exact ⟨_, a, rfl, h.withStore (h.keeps.others rows) rfl rfl, rfl⟩
  | token initialCloseCount sequenceNumber error => exact h.token hcomes.1 hcomes.2 error
  | streamOpen =>
    obtain ⟨r', hact, hstreams, -⟩ := h.streamOpen hcomes.1 hcomes.2
    exact ⟨r', a, hact, hstreams, rfl⟩
  | handshake streamToken =>
    obtain ⟨r', hact, hstreams, -⟩ := h.handshakeComplete hcomes.1 hcomes.2 streamToken
    exact ⟨r', _, hact, hstreams, rfl⟩
  | mutationResult streamToken commitVersion mutationResults sequenceNumber documents =>
    obtain ⟨r', batch, hact, -, -, -, hstreams, -⟩ :=
      h.mutationResult hcomes.1 hcomes.2 streamToken commitVersion documents
    exact ⟨r', _, hact, hstreams, rfl⟩
  | streamError sequenceNumber code =>
    have hstarted := Stream.isStarted_of_connection h.sends.connects hcomes.1
    exact h.close hstarted h.sends.connects.requests hcomes.2 code
  | idleTimeout => exact hsame (h.idleTimeout hcomes)
  | backoffElapsed =>
    obtain ⟨r', hact, hstreams, -⟩ := h.backoffElapsed hcomes
    exact ⟨r', a, hact, hstreams, rfl⟩

/-- The remote store is for the current user. -/
structure SyncEngine.Serves (s : SyncEngine α) (a : WriteQueues α) : Prop where
  streams : Streams s.remoteStore a
  user : a.userId = s.currentUser.userId

/-- The queue of another user can always be opened. -/
theorem Keeps.exists_ofUser {s : LocalStore α} (h : Keeps s a) (user : User) :
    ∃ a', a.ofUser user = some a' ∧ a'.userId = user.userId := by
  have hid : IsInt32 (a.pending.lastBatchId + 1) := by
    have hnonneg := h.represents.numbered.lastBatchId_nonneg
    have hlast : a.pending.lastBatchId < a.nextBatchId := by
      have hpositive := h.positive
      unfold Pending.lastBatchId
      cases hlast : a.pending.getLast? with
      | none => exact hpositive
      | some e => exact h.later e (List.mem_of_getLast? hlast)
    have hnext := h.isInt32
    unfold IsInt32 at hnext ⊢
    omega
  unfold WriteQueues.ofUser
  rw [if_pos hid]
  exact ⟨_, rfl, rfl⟩

/-- The new user has a connection of its own, for its own writes. -/
theorem SyncEngine.Serves.handleCredentialChange {s : SyncEngine α} (h : s.Serves a) (user : User) :
    ∃ s' a', s.handleCredentialChange user = .ok s' ∧ s'.Serves a' := by
  obtain ⟨localStore, a', hstore, hkeeps, huser⟩ : ∃ localStore a',
      s.handleUserChange user = .ok localStore ∧ Keeps localStore a' ∧ a'.userId = user.userId := by
    by_cases hsame : s.currentUser = user
    · exact ⟨s.remoteStore.localStore, a, if_neg (not_not.mpr hsame), h.streams.keeps, hsame ▸ h.user⟩
    · obtain ⟨a', ha, huser⟩ := h.streams.keeps.exists_ofUser user
      obtain ⟨localStore, hchange, hkeeps⟩ := h.streams.keeps.handleUserChange ha
      refine ⟨localStore, a', (if_pos hsame).trans ?_, hkeeps, huser⟩
      simp only [LocalStore.step, hchange, bind, Except.bind]
      rfl
  unfold SyncEngine.handleCredentialChange RemoteStore.handleCredentialChange
  simp only [hstore, bind, Except.bind]
  by_cases henabled : s.remoteStore.isNetworkEnabled = true
  · obtain ⟨r', hrestart, hstreams⟩ := RemoteStore.restartNetwork_streams (r := { s.remoteStore with localStore })
      hkeeps h.streams.sends h.streams.handshake
    refine ⟨⟨r', user⟩, a', ?_, hstreams, huser⟩
    rw [if_pos henabled, hrestart]
    rfl
  · have hpipeline := h.streams.pipeline
    rw [if_neg henabled] at hpipeline
    have hstreams : Streams { s.remoteStore with localStore } a' :=
      ⟨hkeeps, by rw [if_neg henabled]; exact hpipeline, h.streams.sends, h.streams.enabled, h.streams.needed,
        h.streams.handshake, h.streams.waiting⟩
    refine ⟨⟨{ s.remoteStore with localStore }, user⟩, a', ?_, hstreams, huser⟩
    rw [if_neg henabled]
    rfl

theorem SyncEngine.step_eq {s : SyncEngine α} {event : ClientEvent α}
    (hevent : ∀ user, event ≠ .credentialChange user) {r' : RemoteStore α}
    (hact : SyncEngine.act s.remoteStore event = .ok r') : s.step event = .ok { s with remoteStore := r' } := by
  cases event with
  | credentialChange user => exact absurd rfl (hevent user)
  | _ =>
    simp only [SyncEngine.step, hact, bind, Except.bind]
    rfl

/-- Every event that can come goes through. -/
theorem SyncEngine.Serves.step {s : SyncEngine α} (h : s.Serves a) {event : ClientEvent α} (hcomes : s.Comes event) :
    ∃ s' a', s.step event = .ok s' ∧ s'.Serves a' := by
  by_cases hchange : ∃ user, event = .credentialChange user
  · obtain ⟨user, rfl⟩ := hchange
    exact h.handleCredentialChange user
  · obtain ⟨r', a', hact, hstreams, huser⟩ := h.streams.act hcomes
    exact ⟨_, a', SyncEngine.step_eq (not_exists.mp hchange) hact, hstreams, huser.trans h.user⟩

theorem SyncEngine.Serves.run {s s' : SyncEngine α} (h : s.Serves a) {events : List (ClientEvent α)}
    (hrun : events.foldlM SyncEngine.next s = some s') : ∃ a', s'.Serves a' := by
  induction events generalizing s a with
  | nil =>
    cases hrun
    exact ⟨a, h⟩
  | cons event events ih =>
    rw [List.foldlM_cons] at hrun
    obtain ⟨t, ht, hrest⟩ := Option.bind_eq_some_iff.mp hrun
    unfold SyncEngine.next at ht
    split at ht
    · rename_i hcomes
      obtain ⟨s', a', hstep, hserves⟩ := h.step hcomes
      rw [hstep] at ht
      cases ht
      exact ih hserves hrest
    · cases ht

/-! ## Every write can go -/

/-- The events of a server that takes the writes, of the token for it and of the timer that connects to it. -/
def ClientEvent.ofServer : ClientEvent α → Bool
  | .token _ _ none | .streamOpen | .handshake _ | .mutationResult .. | .backoffElapsed => true
  | _ => false

/-- With these alone all writes of the user go, and no others. -/
def SyncEngine.Drains (s : SyncEngine α) (a : WriteQueues α) : Prop :=
  ∃ (events : List (ClientEvent α)) (s' : SyncEngine α) (a' : WriteQueues α),
    events.all ClientEvent.ofServer = true ∧ events.foldlM SyncEngine.next s = some s' ∧ s'.Serves a' ∧
    s'.currentUser = s.currentUser ∧ a'.pending = a.pending.filter (·.1 ≠ a.userId)

theorem SyncEngine.Drains.of_act {s : SyncEngine α} (event : ClientEvent α) (hserver : event.ofServer = true)
    (hcomes : s.Comes event) (hact : SyncEngine.act s.remoteStore event = .ok r') (huser : a'.userId = a.userId)
    (hpending : a'.pending.filter (·.1 ≠ a.userId) = a.pending.filter (·.1 ≠ a.userId))
    (h : SyncEngine.Drains { s with remoteStore := r' } a') : s.Drains a := by
  obtain ⟨events, s'', a'', hall, hrun, hserves, hcurrent, hgone⟩ := h
  have hstep : s.step event = .ok { s with remoteStore := r' } :=
    SyncEngine.step_eq (fun user huser => by rw [huser] at hserver; cases hserver) hact
  refine ⟨event :: events, s'', a'', ?_, ?_, hserves, hcurrent, ?_⟩
  · rw [List.all_cons, hserver, hall]
    rfl
  · rw [List.foldlM_cons, SyncEngine.next, if_pos hcomes, hstep]
    exact hrun
  · rw [hgone, huser, hpending]

theorem SyncEngine.Serves.drains_of_nil {s : SyncEngine α} (h : s.Serves a)
    (hqueue : a.pending.queueOf a.userId = []) : s.Drains a := by
  refine ⟨[], s, a, rfl, rfl, h, rfl, (List.filter_eq_self.mpr fun e he => ?_).symm⟩
  refine decide_eq_true fun huser => ?_
  have hmem : e.2 ∈ a.pending.queueOf a.userId := Pending.mem_queueOf.mpr (huser ▸ he)
  rw [hqueue] at hmem
  cases hmem

/-- After the handshake one result after another. -/
theorem SyncEngine.Serves.drains_of_sending {s : SyncEngine α} (h : s.Serves a)
    (hsending : (s.remoteStore.writeStream.isOpen && s.remoteStore.writeStream.handshakeComplete) = true) :
    s.Drains a := by
  induction hn : (a.pending.queueOf a.userId).length generalizing s a with
  | zero => exact h.drains_of_nil (List.length_eq_zero_iff.mp hn)
  | succ n ih =>
    obtain ⟨batch, batches, hqueue⟩ := List.exists_cons_of_length_eq_add_one hn
    have hboth := hsending
    rw [Bool.and_eq_true] at hboth
    have hpipeline := h.streams.pipeline
    rw [if_pos (h.streams.enabled (Stream.isStarted_of_open hboth.1)), hqueue] at hpipeline
    have hfirst : s.remoteStore.writeStream.unanswered.head?.map (·.length) =
        some (List.replicate batch.mutations.length (⟨⟨0, 0⟩⟩ : MutationResult)).length := by
      rw [h.streams.sends.unanswered, if_pos hsending, hpipeline, List.length_replicate]
      rfl
    have hseq : IsInt64 0 := by decide
    obtain ⟨r', batch', hact, -, -, hhead, hstreams, hsending'⟩ :=
      h.streams.mutationResult hfirst hseq [] ⟨0, 0⟩ .empty
    rw [hqueue] at hhead
    cases hhead
    have hmem : (a.userId, batch) ∈ a.pending := Pending.mem_queueOf.mp (hqueue ▸ List.mem_cons_self)
    have hserves : SyncEngine.Serves { s with remoteStore := r' } ((a.withToken []).without batch.batchId) :=
      ⟨hstreams, h.user⟩
    -- The writes of the others have other ids.
    have hothers : ((a.withToken []).without batch.batchId).pending.filter (·.1 ≠ a.userId) =
        a.pending.filter (·.1 ≠ a.userId) := by
      show (a.pending.filter (·.2.batchId ≠ batch.batchId)).filter (·.1 ≠ a.userId) = _
      rw [List.filter_filter]
      refine List.filter_congr fun e he => ?_
      by_cases huser : e.1 = a.userId
      · simp [huser]
      · have hid : e.2.batchId ≠ batch.batchId := fun hid =>
          huser (congrArg Prod.fst (h.streams.keeps.represents.numbered.eq_of_batchId he hmem hid))
        simp [huser, hid]
    have hrest : (((a.withToken []).without batch.batchId).pending.queueOf a.userId).length = n := by
      show (Pending.queueOf (a.pending.filter (·.2.batchId ≠ batch.batchId)) a.userId).length = n
      rw [h.streams.keeps.queueOf_tail hqueue]
      rw [hqueue] at hn
      exact Nat.succ.inj hn
    have hsame : ((a.withToken []).without batch.batchId).userId = a.userId := rfl
    have hdrains := ih hserves hsending' hrest
    exact .of_act (.mutationResult [] ⟨0, 0⟩ (List.replicate batch.mutations.length ⟨⟨0, 0⟩⟩) 0 .empty) rfl
      ⟨hfirst, hseq⟩
      hact hsame hothers hdrains

theorem SyncEngine.Serves.drains_of_open {s : SyncEngine α} (h : s.Serves a)
    (hopen : s.remoteStore.writeStream.isOpen = true) : s.Drains a := by
  cases hhandshake : s.remoteStore.writeStream.handshakeComplete with
  | true => exact h.drains_of_sending (by rw [hopen, hhandshake]; rfl)
  | false =>
    obtain ⟨r', hact, hstreams, hsending⟩ := h.streams.handshakeComplete hopen hhandshake []
    have hserves : SyncEngine.Serves { s with remoteStore := r' } (a.withToken []) := ⟨hstreams, h.user⟩
    exact .of_act (.handshake []) rfl ⟨hopen, hhandshake⟩ hact rfl rfl (hserves.drains_of_sending hsending)

theorem SyncEngine.Serves.drains_of_connection {s : SyncEngine α} (h : s.Serves a)
    (hstate : s.remoteStore.writeStream.state = .starting) (hg : s.remoteStore.writeStream.grpcStream = true) :
    s.Drains a := by
  obtain ⟨r', hact, hstreams, hopen⟩ := h.streams.streamOpen hstate hg
  have hserves : SyncEngine.Serves { s with remoteStore := r' } a := ⟨hstreams, h.user⟩
  exact .of_act .streamOpen rfl ⟨hstate, hg⟩ hact rfl rfl (hserves.drains_of_open hopen)

/-- The token that a starting stream waits for makes its connection. -/
theorem SyncEngine.Serves.drains_of_starting {s : SyncEngine α} (h : s.Serves a)
    (hstate : s.remoteStore.writeStream.state = .starting) : s.Drains a := by
  cases hg : s.remoteStore.writeStream.grpcStream with
  | true => exact h.drains_of_connection hstate hg
  | false =>
    have hmem := h.streams.sends.connects.exists_request hstate hg
    have hseq : IsInt64 0 := by decide
    obtain ⟨r', hact, hstreams, hstate', hg'⟩ := h.streams.token_none hmem
    have hserves : SyncEngine.Serves { s with remoteStore := r' } a := ⟨hstreams, h.user⟩
    exact .of_act (.token _ 0 none) rfl ⟨hmem, hseq⟩ hact rfl rfl (hserves.drains_of_connection hstate' hg')

/-- From each state of the stream. -/
theorem SyncEngine.Serves.drains {s : SyncEngine α} (h : s.Serves a)
    (henabled : s.remoteStore.isNetworkEnabled = true) : s.Drains a := by
  have hpipeline := h.streams.pipeline
  rw [if_pos henabled] at hpipeline
  by_cases hempty : s.remoteStore.writePipeline = []
  · rw [hempty] at hpipeline
    refine h.drains_of_nil ?_
    simpa [kMaxPendingWrites] using hpipeline.symm
  · have hstarted := h.streams.needed hempty
    cases hstate : s.remoteStore.writeStream.state with
    | initial => simp [Stream.isStarted, Stream.isOpen, hstate] at hstarted
    | error => simp [Stream.isStarted, Stream.isOpen, hstate] at hstarted
    | starting => exact h.drains_of_starting hstate
    | opened => exact h.drains_of_open (by simp [Stream.isOpen, hstate])
    | backoff =>
      have htimer := h.streams.sends.connects.backoff.mpr hstate
      obtain ⟨r', hact, hstreams, hstarting⟩ := h.streams.backoffElapsed htimer
      have hserves : SyncEngine.Serves { s with remoteStore := r' } a := ⟨hstreams, h.user⟩
      exact .of_act .backoffElapsed rfl htimer hact rfl rfl (hserves.drains_of_starting hstarting)

end

section
variable {db : Table Key (Value α)} {pending : Pending α} {tokens : List Byte → Option (List Byte)} {user : User}
  {events : List (ClientEvent α)} {s : SyncEngine α}

theorem Represents.launch (h : Represents db pending tokens) (hid : IsInt32 (pending.lastBatchId + 1)) (user : User) :
    ∃ s a, SyncEngine.launch db user = .ok s ∧ s.Serves a := by
  obtain ⟨a, ha⟩ : ∃ a, (WriteQueues.opened pending tokens).ofUser user = some a := ⟨_, if_pos hid⟩
  obtain ⟨localStore, hstart, hkeeps⟩ := Keeps.start (s := .opened db) (a := .opened pending tokens) h ha
  have hstreams : Streams ⟨localStore, false, [], {}⟩ a :=
    ⟨hkeeps, rfl, .of_closed .launched rfl rfl rfl, fun hs => (by cases hs), fun hne => absurd rfl hne,
      fun hw => (by cases hw),
      fun hs => by cases hs⟩
  obtain ⟨r, henable, hstreams⟩ := hstreams.enableNetwork
  refine ⟨⟨r, user⟩, a, ?_, hstreams, WriteQueues.ofUser_userId ha⟩
  unfold SyncEngine.launch
  simp only [hstart, henable, bind, Except.bind]
  rfl

theorem Represents.serves (h : Represents db pending tokens) (hid : IsInt32 (pending.lastBatchId + 1))
    (hs : SyncEngine.run db user events = some s) : ∃ a, s.Serves a := by
  obtain ⟨t, a, hlaunch, hserves⟩ := h.launch hid user
  unfold SyncEngine.run at hs
  rw [hlaunch] at hs
  exact hserves.run hs

/-- In every run the pipeline is the first ten waiting writes of the user, in their order,
and what has gone out and has no answer is what is in it. Without the network it is empty. -/
theorem the_pipeline_is_the_first_waiting_writes (h : Represents db pending tokens)
    (hid : IsInt32 (pending.lastBatchId + 1)) (hs : SyncEngine.run db user events = some s) :
    ∃ waiting tokens', Represents s.remoteStore.localStore.db waiting tokens' ∧
      s.remoteStore.writePipeline = (if s.remoteStore.isNetworkEnabled then
        (waiting.queueOf s.currentUser.userId).take kMaxPendingWrites else []) ∧
      s.remoteStore.writeStream.unanswered =
        (if s.remoteStore.writeStream.isOpen && s.remoteStore.writeStream.handshakeComplete then
          s.remoteStore.writePipeline.map (·.mutations) else []) ∧
      (s.remoteStore.writePipeline ≠ [] → s.remoteStore.writeStream.isStarted = true) := by
  obtain ⟨a, hserves⟩ := h.serves hid hs
  have hpipeline := hserves.streams.pipeline
  rw [hserves.user] at hpipeline
  exact ⟨a.pending, a.tokens, hserves.streams.keeps.represents, hpipeline, hserves.streams.sends.unanswered,
    hserves.streams.needed⟩

/-- A write without the network, and the same one when it is there again. -/
theorem a_write_waits_for_the_network :
    ∃ s, SyncEngine.run migrated ann [.disableNetwork, .writeMutations ⟨0, 0⟩ [] [annsMutation], .enableNetwork] =
        some s ∧
      s.remoteStore.writePipeline.length = 1 ∧ s.remoteStore.writeStream.isStarted = true := by
  have hlen : (SyncEngine.run migrated ann [.disableNetwork, .writeMutations ⟨0, 0⟩ [] [annsMutation],
      .enableNetwork]).map (·.remoteStore.writePipeline.length) = some 1 := by decide +kernel
  obtain ⟨s, hs, hone⟩ := Option.map_eq_some_iff.mp hlen
  obtain ⟨-, -, -, -, -, hstarted⟩ := the_pipeline_is_the_first_waiting_writes migrated_represents (by decide) hs
  exact ⟨s, hs, hone, hstarted (List.length_pos_iff.mp (hone ▸ Nat.one_pos))⟩

/-- The client starts, and in every run no check fails at an event that can come. -/
theorem no_event_stops_the_client (h : Represents db pending tokens) (hid : IsInt32 (pending.lastBatchId + 1)) :
    (∃ s, SyncEngine.launch db user = .ok s) ∧
      ∀ events s, SyncEngine.run db user events = some s → ∀ event, s.Comes event → ∃ s', s.step event = .ok s' := by
  refine ⟨?_, fun events s hs event hcomes => ?_⟩
  · obtain ⟨s, -, hlaunch, -⟩ := h.launch hid user
    exact ⟨s, hlaunch⟩
  · obtain ⟨a, hserves⟩ := h.serves hid hs
    obtain ⟨s', -, hstep, -⟩ := hserves.step hcomes
    exact ⟨s', hstep⟩

/-- Somebody signs out while a write waits for its result. -/
theorem a_sign_out_goes_through :
    ∃ s s', SyncEngine.run migrated ann
        [.writeMutations ⟨0, 0⟩ [] [annsMutation], .token 0 0 none, .streamOpen, .handshake []] = some s ∧
      s.step (.credentialChange .unauthenticated) = .ok s' := by
  have hsome : (SyncEngine.run migrated ann [.writeMutations ⟨0, 0⟩ [] [annsMutation], .token 0 0 none,
      .streamOpen, .handshake []]).isSome = true := by decide +kernel
  obtain ⟨s, hs⟩ := Option.isSome_iff_exists.mp hsome
  obtain ⟨s', hstep⟩ := (no_event_stops_the_client migrated_represents (by decide)).2 _ s hs
    (.credentialChange .unauthenticated) trivial
  exact ⟨s, s', hs, hstep⟩

/-- In every run a result of the server is for the write that went out first and has no
answer yet, the front of the pipeline. This is the first waiting write of the user, and it alone
goes from the store. -/
theorem a_result_is_for_the_first_write (h : Represents db pending tokens)
    (hid : IsInt32 (pending.lastBatchId + 1)) (hs : SyncEngine.run db user events = some s)
    {streamToken : List Byte} {commitVersion : Timestamp} {mutationResults : List MutationResult} {sequenceNumber : ℤ}
    {documents : RemoteDocuments α}
    (hcomes : s.Comes (.mutationResult streamToken commitVersion mutationResults sequenceNumber documents)) :
    ∃ s' batch waiting tokens',
      s.step (.mutationResult streamToken commitVersion mutationResults sequenceNumber documents) = .ok s' ∧
      s.remoteStore.writePipeline.head? = some batch ∧
      s.remoteStore.writeStream.unanswered.head? = some batch.mutations ∧
      Represents s.remoteStore.localStore.db waiting tokens' ∧
      (waiting.queueOf s.currentUser.userId).head? = some batch ∧
      Represents s'.remoteStore.localStore.db (waiting.filter (·.2.batchId ≠ batch.batchId))
        fun userId => if userId = s.currentUser.userId then some streamToken else tokens' userId := by
  obtain ⟨a, hserves⟩ := h.serves hid hs
  obtain ⟨r', batch, hact, hfront, hfirst, hhead, hstreams, -⟩ :=
    hserves.streams.mutationResult hcomes.1 hcomes.2 streamToken commitVersion documents
  have hrep := hstreams.keeps.represents
  rw [hserves.user] at hhead
  refine ⟨{ s with remoteStore := r' }, batch, a.pending, a.tokens, SyncEngine.step_eq (fun _ h => by cases h) hact,
    hfront, hfirst, hserves.streams.keeps.represents, hhead, ?_⟩
  rw [← hserves.user]
  exact hrep

/-- A write that is sent and gets its result. -/
theorem a_sent_write_gets_its_result :
    ∃ s s', SyncEngine.run migrated ann
        [.writeMutations ⟨0, 0⟩ [] [annsMutation], .token 0 0 none, .streamOpen, .handshake []] = some s ∧
      s.step (.mutationResult [1] ⟨3, 0⟩ [⟨⟨2, 0⟩⟩] 0 .empty) = .ok s' := by
  have hcomes : (SyncEngine.run migrated ann [.writeMutations ⟨0, 0⟩ [] [annsMutation], .token 0 0 none,
      .streamOpen, .handshake []]).map
        (fun s => decide (s.Comes (.mutationResult [1] ⟨3, 0⟩ [⟨⟨2, 0⟩⟩] 0 .empty))) = some true := by
    decide +kernel
  obtain ⟨s, hs, hcomes⟩ := Option.map_eq_some_iff.mp hcomes
  obtain ⟨s', -, -, -, hstep, -, -⟩ := a_result_is_for_the_first_write migrated_represents (by decide) hs
    (of_decide_eq_true hcomes)
  exact ⟨s, s', hs, hstep⟩

/-- No write is stuck. From every state with the network, a server that takes the writes can
bring all those of the user to their end, and it leaves those of the others. -/
theorem every_waiting_write_can_go (h : Represents db pending tokens) (hid : IsInt32 (pending.lastBatchId + 1))
    (hs : SyncEngine.run db user events = some s) (henabled : s.remoteStore.isNetworkEnabled = true) :
    ∃ (more : List (ClientEvent α)) (s' : SyncEngine α) (waiting : Pending α)
      (tokens' tokens'' : List Byte → Option (List Byte)),
      more.all ClientEvent.ofServer = true ∧ SyncEngine.run db user (events ++ more) = some s' ∧
      s'.currentUser = s.currentUser ∧ Represents s.remoteStore.localStore.db waiting tokens' ∧
      Represents s'.remoteStore.localStore.db (waiting.filter (·.1 ≠ s.currentUser.userId)) tokens'' := by
  obtain ⟨a, hserves⟩ := h.serves hid hs
  obtain ⟨more, s', a', hserver, hmore, hserves', hcurrent, hgone⟩ := hserves.drains henabled
  have hrep := hserves'.streams.keeps.represents
  rw [hgone, hserves.user] at hrep
  refine ⟨more, s', a.pending, a.tokens, a'.tokens, hserver, ?_, hcurrent, hserves.streams.keeps.represents, hrep⟩
  unfold SyncEngine.run at hs ⊢
  obtain ⟨t, ht, hrun⟩ := Option.bind_eq_some_iff.mp hs
  rw [ht]
  show (events ++ more).foldlM SyncEngine.next t = some s'
  rw [List.foldlM_append, hrun]
  exact hmore

/-- After an error of the connection, and a sign-out in between. -/
theorem a_write_can_go_after_an_error :
    ∃ (s : SyncEngine ℕ) (more : List (ClientEvent ℕ)) (s' : SyncEngine ℕ),
      SyncEngine.run migrated ann [.writeMutations ⟨0, 0⟩ [] [annsMutation], .token 0 0 none,
        .streamError 0 .unavailable, .credentialChange .unauthenticated, .credentialChange ann] = some s ∧
      more.all ClientEvent.ofServer = true ∧ more.foldlM SyncEngine.next s = some s' := by
  have hnetwork : (SyncEngine.run migrated ann [.writeMutations ⟨0, 0⟩ [] [annsMutation], .token 0 0 none,
      .streamError 0 .unavailable, .credentialChange .unauthenticated, .credentialChange ann]).map
        (·.remoteStore.isNetworkEnabled) = some true := by
    decide +kernel
  obtain ⟨s, hs, henabled⟩ := Option.map_eq_some_iff.mp hnetwork
  obtain ⟨more, s', -, -, -, hserver, hrun, -⟩ :=
    every_waiting_write_can_go migrated_represents (by decide) hs henabled
  refine ⟨s, more, s', hs, hserver, ?_⟩
  unfold SyncEngine.run at hs hrun
  obtain ⟨t, ht, hfold⟩ := Option.bind_eq_some_iff.mp hs
  rw [ht] at hrun
  have hfold' : (_ ++ more).foldlM SyncEngine.next t = some s' := hrun
  rw [List.foldlM_append, hfold] at hfold'
  exact hfold'

end

end EasyVerbs.Firestore
