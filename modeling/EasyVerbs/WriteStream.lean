-- The write stream of the client: its connection with the token that it needs, its two timers, and
-- the writes that went out on it. A token can come late. The close count tells then that it is for
-- a connection that is gone.
import EasyVerbs.LevelDbMutationQueue

namespace EasyVerbs.Firestore

variable {α : Type}

/-! ## The stream -/

/-- What a stream can end with, apart from OK. -/
inductive ErrorCode
  | cancelled | unknown | invalidArgument | deadlineExceeded | notFound | alreadyExists
  | permissionDenied | resourceExhausted | failedPrecondition | aborted | outOfRange
  | unimplemented | internal | unavailable | dataLoss | unauthenticated
  deriving DecidableEq, Repr

namespace ErrorCode

def isPermanentError : ErrorCode → Bool
  | cancelled | unknown | deadlineExceeded | resourceExhausted | internal | unavailable
  | unauthenticated => false
  | _ => true

def isPermanentWriteError (code : ErrorCode) : Bool := code.isPermanentError && code != aborted

end ErrorCode

inductive StreamState
  | initial
  | starting
  | opened
  | error
  | backoff
  deriving DecidableEq, Repr

/-- A request for a token is kept until its callback, with the close count that it was made at. -/
structure Stream where
  state : StreamState := .initial
  closeCount : ℕ := 0
  tokenRequests : List ℕ := []
  grpcStream : Bool := false
  backoffTimer : Bool := false
  idlenessTimer : Bool := false
  deriving DecidableEq, Repr

namespace Stream

variable (s : Stream)

def isOpen : Bool := s.state == .opened

def isStarted : Bool := s.state == .starting || s.state == .backoff || s.isOpen

def requestCredentials : Stream := { s with tokenRequests := s.tokenRequests ++ [s.closeCount] }

def backoffAndTryRestarting : Checked Stream := do
  hardAssert (s.state == .error)
  return { s with state := .backoff, backoffTimer := true }

/-- From an error a start waits for the backoff. -/
def start : Checked Stream :=
  if s.state == .error then s.backoffAndTryRestarting
  else do
    hardAssert (s.state == .initial)
    return requestCredentials { s with state := .starting }

/-- The block that the backoff runs when its time is over. -/
def backoffElapsed : Checked Stream := do
  hardAssert (s.state == .backoff)
  let s ← start { s with state := .initial, backoffTimer := false }
  hardAssert s.isStarted
  return s

def inhibitBackoff : Checked Stream := do
  hardAssert (!s.isStarted)
  return { s with state := .initial }

def markIdle : Stream := if s.isOpen then { s with idlenessTimer := true } else s

/-- `Write`. There is a gRPC stream to write to. -/
def write : Checked Stream := do
  hardAssert s.isOpen
  if s.grpcStream then return { s with idlenessTimer := false } else .error .undefined

/-- `Close`, up to the call of the delegate. -/
def closed (status : Option ErrorCode) : Stream :=
  { s with
    state := if status.isNone then .initial else .error
    closeCount := s.closeCount + 1
    grpcStream := false
    backoffTimer := false
    idlenessTimer := false }

end Stream

/-! ## Its connection -/

/-- A token is asked for exactly when the stream starts and has no connection yet, and the backoff
timer runs exactly in the backoff. What was asked for before the last close is for nobody. -/
structure Stream.Connects (s : Stream) : Prop where
  requests : ∀ closeCount ∈ s.tokenRequests, closeCount ≤ s.closeCount
  request : s.tokenRequests.count s.closeCount = if s.state = .starting ∧ s.grpcStream = false then 1 else 0
  connection : s.grpcStream = true → s.state = .starting ∨ s.state = .opened
  opened : s.state = .opened → s.grpcStream = true
  backoff : s.backoffTimer = true ↔ s.state = .backoff

section
variable {s : Stream}

theorem Stream.isStarted_of_open (h : s.isOpen = true) : s.isStarted = true := by
  simp [isStarted, h]

theorem Stream.isOpen_of_down (h : s.isStarted = false) : s.isOpen = false := by
  simp only [isStarted, Bool.or_eq_false_iff] at h
  exact h.2

/-- A stream that starts, or waits for its start, is not open yet. -/
theorem Stream.of_starting (h : s.state = .starting ∨ s.state = .backoff) : s.isOpen = false ∧ s.isStarted = true := by
  rcases h with h | h <;> simp [isOpen, isStarted, h]

/-- A stream that is down is in one of two states. -/
theorem Stream.state_of_down (h : s.isStarted = false) : s.state = .initial ∨ s.state = .error := by
  cases hstate : s.state <;> simp_all [isStarted, isOpen]

theorem Stream.isStarted_of_connection (h : s.Connects) (hg : s.grpcStream = true) : s.isStarted = true := by
  rcases h.connection hg with hstate | hstate <;> simp [isStarted, isOpen, hstate]

/-- A close leaves no connection, and all requests from before it are void. -/
theorem Stream.closed_connects (hrequests : ∀ closeCount ∈ s.tokenRequests, closeCount ≤ s.closeCount)
    (status : Option ErrorCode) : (s.closed status).Connects := by
  have hvoid : s.tokenRequests.count (s.closeCount + 1) = 0 :=
    List.count_eq_zero.mpr fun hmem => absurd (hrequests _ hmem) (Nat.not_succ_le_self _)
  have hnot : ∀ state, state ≠ .initial → state ≠ .error → (s.closed status).state ≠ state := by
    intro state hinitial herror
    unfold closed
    dsimp only
    split
    · exact hinitial.symm
    · exact herror.symm
  refine ⟨fun n hn => (hrequests n hn).trans (Nat.le_succ _), ?_, fun hg => (by cases hg), fun hs => ?_, ?_⟩
  · exact hvoid.trans (if_neg fun hs => hnot .starting (by decide) (by decide) hs.1).symm
  · exact absurd hs (hnot .opened (by decide) (by decide))
  · exact iff_of_false Bool.false_ne_true (hnot .backoff (by decide) (by decide))

namespace Stream.Connects

theorem launched : Connects {} := ⟨by simp, by simp, by simp, by simp, by simp⟩

/-- The idleness timer has no part in it. -/
theorem withTimer (h : s.Connects) (idlenessTimer : Bool) : Connects { s with idlenessTimer } :=
  ⟨h.requests, h.request, h.connection, h.opened, h.backoff⟩

theorem grpcStream_of_down (h : s.Connects) (hdown : s.isStarted = false) : s.grpcStream = false := by
  by_contra hg
  rw [isStarted_of_connection h (Bool.not_eq_false _ ▸ hg)] at hdown
  cases hdown

theorem request_of_down (h : s.Connects) (hdown : s.isStarted = false) : s.tokenRequests.count s.closeCount = 0 := by
  rw [h.request, if_neg]
  rintro ⟨hstate, -⟩
  simp [isStarted, hstate] at hdown

theorem backoff_of_down (h : s.Connects) (hdown : s.isStarted = false) : s.backoffTimer = false := by
  by_contra htimer
  have hstate := h.backoff.mp (Bool.not_eq_false _ ▸ htimer)
  simp [isStarted, hstate] at hdown

theorem inhibited (h : s.Connects) (hdown : s.isStarted = false) : Connects { s with state := .initial } where
  requests := h.requests
  request := by simp [h.request_of_down hdown]
  connection := by simp [h.grpcStream_of_down hdown]
  opened := by simp
  backoff := by simp [h.backoff_of_down hdown]

theorem requested (h : s.Connects) (hdown : s.isStarted = false) :
    Connects (requestCredentials { s with state := .starting }) where
  requests := by
    refine List.forall_mem_append.mpr ⟨h.requests, ?_⟩
    simp [requestCredentials]
  request := by simp [requestCredentials, h.request_of_down hdown, h.grpcStream_of_down hdown]
  connection := by simp [requestCredentials]
  opened := by simp [requestCredentials]
  backoff := by simp [requestCredentials, h.backoff_of_down hdown]

/-- A stream that is down can start, and it is not open yet. -/
theorem start (h : s.Connects) (hdown : s.isStarted = false) :
    ∃ s', s.start = .ok s' ∧ s'.Connects ∧ s'.isStarted = true ∧ s'.isOpen = false ∧
      s'.idlenessTimer = s.idlenessTimer := by
  unfold Stream.start
  rcases state_of_down hdown with hstate | hstate
  · refine ⟨requestCredentials { s with state := .starting }, ?_, h.requested hdown, rfl, rfl, rfl⟩
    simp [hstate, hardAssert, bind, Except.bind, pure, Except.pure]
  · refine ⟨{ s with state := .backoff, backoffTimer := true }, ?_, ⟨h.requests, ?_, ?_, ?_, ?_⟩, rfl, rfl, rfl⟩
    · simp [hstate, backoffAndTryRestarting, hardAssert, bind, Except.bind, pure, Except.pure]
    · simp [h.request_of_down hdown]
    · simp [h.grpcStream_of_down hdown]
    · simp
    · simp

theorem inhibitBackoff_eq (hdown : s.isStarted = false) : s.inhibitBackoff = .ok { s with state := .initial } := by
  simp [inhibitBackoff, hardAssert, hdown, bind, Except.bind, pure, Except.pure]

theorem write_eq (h : s.Connects) (hopen : s.isOpen = true) : s.write = .ok { s with idlenessTimer := false } := by
  have hg : s.grpcStream = true := h.opened (by simpa [isOpen] using hopen)
  simp [write, hardAssert, hopen, hg, bind, Except.bind, pure, Except.pure]

/-- When the backoff is over a token is asked for. -/
theorem backoffElapsed (h : s.Connects) (htimer : s.backoffTimer = true) :
    ∃ s', s.backoffElapsed = .ok s' ∧ s'.Connects ∧ s'.state = .starting ∧ s'.idlenessTimer = s.idlenessTimer := by
  have hstate := h.backoff.mp htimer
  have hrequest : s.tokenRequests.count s.closeCount = 0 := by
    rw [h.request, if_neg]
    simp [hstate]
  have hg : s.grpcStream = false := by
    by_contra hg
    rcases h.connection (Bool.not_eq_false _ ▸ hg) with hs | hs <;> simp [hstate] at hs
  have hstopped : Connects { s with state := .initial, backoffTimer := false } :=
    ⟨h.requests, by simp [hrequest], by simp [hg], by simp, by simp⟩
  refine ⟨requestCredentials { s with state := .starting, backoffTimer := false }, ?_, hstopped.requested rfl, rfl,
    rfl⟩
  simp [Stream.backoffElapsed, Stream.start, hstate, hardAssert, isStarted, requestCredentials, bind, Except.bind,
    pure, Except.pure]

/-- The callback of a request. When it is not void, the stream still waits for it. -/
theorem answered (h : s.Connects) {closeCount : ℕ} (hmem : closeCount ∈ s.tokenRequests) :
    (s.closeCount ≠ closeCount → Connects { s with tokenRequests := s.tokenRequests.erase closeCount }) ∧
      (s.closeCount = closeCount → s.state = .starting ∧
        Connects { s with tokenRequests := s.tokenRequests.erase closeCount, grpcStream := true }) := by
  have hrest : ∀ n ∈ s.tokenRequests.erase closeCount, n ≤ s.closeCount :=
    fun n hn => h.requests n (List.mem_of_mem_erase hn)
  constructor
  · intro hne
    refine ⟨hrest, ?_, h.connection, h.opened, h.backoff⟩
    rw [← h.request]
    exact List.count_erase_of_ne hne
  · rintro rfl
    have hstarting : s.state = .starting ∧ s.grpcStream = false := by
      by_contra hnot
      have hrequest := h.request
      rw [if_neg hnot] at hrequest
      exact List.count_eq_zero.mp hrequest hmem
    refine ⟨hstarting.1, hrest, ?_, fun _ => Or.inl hstarting.1, fun _ => rfl, h.backoff⟩
    have hrequest := h.request
    rw [if_pos hstarting] at hrequest
    simp [List.count_erase_self, hrequest]

/-- While the stream starts there is a token to come, or a connection. -/
theorem exists_request (h : s.Connects) (hstate : s.state = .starting) (hg : s.grpcStream = false) :
    s.closeCount ∈ s.tokenRequests := by
  have hrequest := h.request
  rw [if_pos ⟨hstate, hg⟩] at hrequest
  exact List.count_pos_iff.mp (hrequest ▸ Nat.one_pos)

theorem onStreamStart (h : s.Connects) (hg : s.grpcStream = true) : Connects { s with state := .opened } where
  requests := h.requests
  request := by simp [h.request, hg]
  connection := by simp
  opened := fun _ => hg
  backoff := by
    refine iff_of_false (fun htimer => ?_) (by simp)
    rcases h.connection hg with hs | hs <;> simp [h.backoff.mp htimer] at hs

end Stream.Connects

end

/-! ## The write stream -/

/-- With the writes that went out on its present connection and have no answer. -/
structure WriteStream (α : Type) extends Stream where
  handshakeComplete : Bool := false
  lastStreamToken : List Byte := []
  unanswered : List (List (Mutation α)) := []

namespace WriteStream

variable (w : WriteStream α)

def writeHandshake : Checked (WriteStream α) := do
  hardAssert w.isOpen
  hardAssert (!w.handshakeComplete)
  return { w with toStream := ← w.write }

def writeMutations (mutations : List (Mutation α)) : Checked (WriteStream α) := do
  hardAssert w.isOpen
  hardAssert w.handshakeComplete
  return { w with toStream := ← w.write, unanswered := w.unanswered ++ [mutations] }

end WriteStream

/-! ## What it has sent -/

/-- The writes without an answer are those of the pipeline, and the idleness timer runs only
when there is none. -/
structure Sends (w : WriteStream α) (writePipeline : List (MutationBatch α)) : Prop where
  connects : w.Connects
  unanswered : w.unanswered =
    if w.isOpen && w.handshakeComplete then writePipeline.map (·.mutations) else []
  idle : w.idlenessTimer = true → (w.isOpen && w.handshakeComplete) = true ∧ writePipeline = []

section
variable {w : WriteStream α}

theorem WriteStream.handshakeComplete_of_closed (h : w.handshakeComplete = true → w.isOpen = true)
    (hopen : w.isOpen = false) : w.handshakeComplete = false := by
  by_contra hw
  rw [h (Bool.not_eq_false _ ▸ hw)] at hopen
  cases hopen

theorem WriteStream.writeMutations_eq (h : w.Connects) (hopen : w.isOpen = true)
    (hhandshake : w.handshakeComplete = true) (mutations : List (Mutation α)) :
    w.writeMutations mutations =
      .ok { w with idlenessTimer := false, unanswered := w.unanswered ++ [mutations] } := by
  simp [writeMutations, hardAssert, hopen, hhandshake, h.write_eq hopen, bind, Except.bind, pure, Except.pure]

/-- A stream that is not open has sent nothing. -/
theorem Sends.of_closed {writePipeline : List (MutationBatch α)} (hconnects : w.Connects) (hopen : w.isOpen = false)
    (hunanswered : w.unanswered = []) (hidle : w.idlenessTimer = false) : Sends w writePipeline :=
  ⟨hconnects, by simp [hopen, hunanswered], by simp [hidle]⟩

theorem Sends.closed {writePipeline : List (MutationBatch α)} (h : Sends w writePipeline)
    (hopen : w.isOpen = false) : w.unanswered = [] ∧ w.idlenessTimer = false := by
  constructor
  · rw [h.unanswered, hopen]
    rfl
  · by_contra hidle
    have hsending := (h.idle (Bool.not_eq_false _ ▸ hidle)).1
    rw [hopen] at hsending
    cases hsending

/-- Only a write that went out is answered, and the first answer is for the first write. -/
theorem Sends.first_answer {writePipeline : List (MutationBatch α)} (h : Sends w writePipeline) {n : ℕ}
    (hfirst : w.unanswered.head?.map (·.length) = some n) :
    (w.isOpen && w.handshakeComplete) = true ∧ ∃ batch rest, writePipeline = batch :: rest ∧
      w.unanswered = batch.mutations :: rest.map (·.mutations) ∧ batch.mutations.length = n := by
  have hsent := h.unanswered
  by_cases hsending : (w.isOpen && w.handshakeComplete) = true
  · rw [if_pos hsending] at hsent
    cases writePipeline with
    | nil =>
      rw [hsent] at hfirst
      cases hfirst
    | cons batch rest =>
      rw [hsent] at hfirst
      exact ⟨hsending, batch, rest, rfl, hsent, Option.some_inj.mp hfirst⟩
  · rw [hsent, if_neg hsending] at hfirst
    cases hfirst

theorem Sends.writeMutations {writePipeline : List (MutationBatch α)} (h : Sends w writePipeline)
    (hsending : (w.isOpen && w.handshakeComplete) = true) (batch : MutationBatch α) :
    ∃ w', w.writeMutations batch.mutations = .ok w' ∧ Sends w' (writePipeline ++ [batch]) ∧
      w'.state = w.state ∧ w'.handshakeComplete = w.handshakeComplete := by
  have hboth := hsending
  rw [Bool.and_eq_true] at hboth
  refine ⟨_, WriteStream.writeMutations_eq h.connects hboth.1 hboth.2 batch.mutations,
    ⟨h.connects.withTimer false, ?_, ?_⟩, rfl, rfl⟩
  · have hsame := h.unanswered
    rw [if_pos hsending] at hsame
    have hsending' : (w.state == .opened && w.handshakeComplete) = true := hsending
    simp [Stream.isOpen, hsending', hsame]
  · exact fun hidle => by cases hidle

theorem Sends.markIdle (h : Sends w []) (hwaiting : w.isOpen = true → w.handshakeComplete = true) :
    Sends { w with toStream := w.markIdle } [] ∧ w.markIdle.state = w.state := by
  unfold Stream.markIdle
  by_cases hopen : w.isOpen = true
  · rw [if_pos hopen]
    have hsending : (w.isOpen && w.handshakeComplete) = true := by rw [hopen, hwaiting hopen]; rfl
    exact ⟨⟨h.connects.withTimer true, h.unanswered, fun _ => ⟨hsending, rfl⟩⟩, rfl⟩
  · rw [if_neg hopen]
    exact ⟨h, rfl⟩

end

end EasyVerbs.Firestore
