-- What a screen reads and sends: it writes documents that it has read only, and it
-- has read documents of its user only. So all that the app ever stores are new
-- records and changes of a record.
import EasyVerbs.UserRecords
import EasyVerbs.UnsettledScores
import EasyVerbs.WholeSignUps

open Runs Parties Updates

namespace EasyVerbs.App

open SignUp (Backend userData)
open Learning (scoreWrite)
open Details (writeOf)

/-! ## What a screen reads and sends -/

/-- What a step of a screen does to its queries and its writes. The server has read these documents
for it at most, and a new write is a change of a document that the screen has read. -/
structure Traffic {C : Type} (documents : List Document) (requests requests' : List (Request C))
    (writes writes' : List Write) : Prop where
  read : ∀ r ∈ requests', ∀ read, r.querySnapshot = some read → r ∈ requests ∨ read = documents
  sent : ∀ w ∈ writes', w ∈ writes ∨
    ∃ r ∈ requests, ∃ read, r.querySnapshot = some read ∧ ∃ d ∈ read, ∃ c : Change, w = c.write d.documentID

variable {C : Type} {documents : List Document} {requests requests' : List (Request C)}
  {writes writes' : List Write}

theorem Traffic.less (hr : ∀ r ∈ requests', r ∈ requests) (hw : ∀ w ∈ writes', w ∈ writes) :
    Traffic documents requests requests' writes writes' :=
  ⟨fun r hmem _ _ => Or.inl (hr r hmem), fun w hmem => Or.inl (hw w hmem)⟩

/-- New queries, which nothing is read for yet. -/
theorem Traffic.asks (queries : List C) :
    Traffic documents requests (requests ++ queries.map fun q => { callback := q }) writes writes := by
  refine ⟨fun r hmem read hread => ?_, fun w hmem => Or.inl hmem⟩
  rcases List.mem_append.mp hmem with hmem | hmem
  · exact Or.inl hmem
  · obtain ⟨q, _, rfl⟩ := List.mem_map.mp hmem
    cases hread

theorem Traffic.served {i : Nat} {query : C} :
    Traffic documents requests (requests.set i ⟨query, some documents⟩) writes writes := by
  refine ⟨fun r hmem read hread => ?_, fun w hmem => Or.inl hmem⟩
  rcases List.mem_or_eq_of_mem_set hmem with hmem | rfl
  · exact Or.inl hmem
  · cases hread
    exact Or.inr rfl

/-- A callback that sends a change for each document that was read. -/
theorem Traffic.sends {i : Nat} {query : C} {read : List Document}
    (hquery : requests[i]? = some ⟨query, some read⟩) (c : Change) :
    Traffic documents requests (requests.eraseIdx i) writes
      (writes ++ read.map fun d => c.write d.documentID) := by
  refine ⟨fun r hmem _ _ => Or.inl (List.mem_of_mem_eraseIdx hmem), fun w hmem => ?_⟩
  rcases List.mem_append.mp hmem with hmem | hmem
  · exact Or.inl hmem
  · obtain ⟨d, hd, rfl⟩ := List.mem_map.mp hmem
    exact Or.inr ⟨_, List.mem_of_getElem? hquery, read, rfl, d, hd, c, rfl⟩

theorem training_traffic {documents' : List Document} {s t : Learning.Screen} {e : Learning.Event}
    (ha : Learning.act documents s e = some (documents', t)) :
    Traffic documents s.requests t.requests s.writes t.writes := by
  obtain ⟨hs, hread, _⟩ := Learning.act_eq_some ha
  cases Learning.step_scores hs with
  | same hsame _ _ =>
    rw [hsame.requests, hsame.writes]
    exact .less (fun _ hr => hr) fun _ hw => hw
  | better _ _ _ _ hrequests _ hwrites =>
    rw [hrequests, hwrites]
    unfold Learning.getDocuments
    split
    · exact .less (fun _ hr => hr) fun _ hw => hw
    · exact .asks [Learning.Query.updateBestScore]
  | @served i read rs hserve ht =>
    obtain ⟨q, _, rfl⟩ := serve_eq_some hserve
    subst ht
    rw [hread i read rfl]
    exact .served
  | @callback i query read hrequest ht =>
    subst ht
    cases query with
    | bestScoreFromFirebase => exact .less (fun _ hr => List.mem_of_mem_eraseIdx hr) fun _ hw => hw
    | updateBestScore => exact .sends hrequest (.bestScore s.presenter.bestScore)
  | failed ht =>
    subst ht
    exact .less (fun _ hr => List.mem_of_mem_eraseIdx hr) fun _ hw => hw
  | block _ ht =>
    subst ht
    exact .less (fun _ hr => hr) fun _ hw => hw
  | applied _ ht | rejected ht =>
    subst ht
    exact .less (fun _ hr => hr) fun _ hw => List.mem_of_mem_eraseIdx hw

theorem details_traffic {documents' : List Document} {s t : Details.Screen} {e : Details.Event}
    (ha : Details.act documents s e = some (documents', t)) :
    Traffic documents s.requests t.requests s.writes t.writes := by
  cases Details.act_cases ha with
  | tap _ =>
    rw [Details.addToFavorites_eq]
    exact .asks _
  | served _ => exact .served
  | @callback i query read hquery =>
    cases query with
    | load l => exact .less (fun _ hr => List.mem_of_mem_eraseIdx hr) fun _ hw => hw
    | addFavoriteVerbs verb => exact .sends hquery (.favoritesVerbs (.add verb))
    | deleteFavoriteVerbs verb => exact .sends hquery (.favoritesVerbs (.remove verb))
  | failed _ => exact .less (fun _ hr => List.mem_of_mem_eraseIdx hr) fun _ hw => hw
  | back => exact .less (fun _ hr => hr) fun _ hw => hw
  | globalBlock _ => exact .less (fun _ hr => hr) fun _ hw => hw
  | mainBlock _ => exact .less (fun _ hr => hr) fun _ hw => hw
  | applied _ => exact .less (fun _ hr => hr) fun _ hw => List.mem_of_mem_eraseIdx hw
  | rejected _ => exact .less (fun _ hr => hr) fun _ hw => List.mem_of_mem_eraseIdx hw

/-- The screen has read documents with these names at most, and its writes are changes of them. -/
structure Keeps {C : Type} (documentIDs : List String) (requests : List (Request C)) (writes : List Write) :
    Prop where
  read : ∀ r ∈ requests, ∀ read, r.querySnapshot = some read → ∀ d ∈ read, d.documentID ∈ documentIDs
  writes : ∀ w ∈ writes, ∃ documentID ∈ documentIDs, ∃ c : Change, w = c.write documentID

theorem Traffic.keeps {documentIDs : List String}
    (h : Traffic documents requests requests' writes writes') (hk : Keeps documentIDs requests writes)
    (hdocuments : ∀ d ∈ documents, d.documentID ∈ documentIDs) : Keeps documentIDs requests' writes' := by
  constructor
  · intro r hmem read hread
    rcases h.read r hmem read hread with hmem | rfl
    · exact hk.read r hmem read hread
    · exact hdocuments
  · intro w hmem
    rcases h.sent w hmem with hmem | ⟨r, hr, read, hread, d, hd, c, rfl⟩
    · exact hk.writes w hmem
    · exact ⟨d.documentID, hk.read r hr read hread d hd, c, rfl⟩

theorem Keeps.mono {documentIDs documentIDs' : List String} (h : Keeps documentIDs requests writes)
    (hsub : ∀ documentID ∈ documentIDs, documentID ∈ documentIDs') : Keeps documentIDs' requests writes := by
  refine ⟨fun r hmem read hread d hd => hsub _ (h.read r hmem read hread d hd), fun w hmem => ?_⟩
  obtain ⟨documentID, hid, c, rfl⟩ := h.writes w hmem
  exact ⟨documentID, hsub _ hid, c, rfl⟩

/-- A new screen has read nothing. -/
theorem Keeps.asks {documentIDs : List String} (queries : List C) :
    Keeps documentIDs (queries.map fun q => ({ callback := q } : Request C)) [] := by
  refine ⟨fun r hmem read hread => ?_, by simp⟩
  obtain ⟨q, _, rfl⟩ := List.mem_map.mp hmem
  cases hread

/-! ## The screens of the app -/

/-- The names of the documents that a query of the user finds. -/
def idsOf (users : List Document) (user : Option String) : List String :=
  (documentsOf users user).map (·.documentID)

theorem mem_idsOf {users : List Document} {user : Option String} {documentID : String} :
    documentID ∈ idsOf users user ↔ ∃ d ∈ documentsOf users user, d.documentID = documentID := by
  unfold idsOf
  exact List.mem_map

/-- The event as the user of the screen sees it, with the documents `own` of this user. -/
def ownTraining (own : List Document) : Learning.Event → Learning.Event
  | .served i _ => .served i own
  | e => e

def ownDetails (own : List Document) : Details.Event → Details.Event
  | .served i _ => .served i own
  | e => e

/-- An act on all documents is an act on the documents of the user. -/
theorem trainingAct_own {users users' : List Document} {s t : Learning.Screen} {e : Learning.Event}
    (ha : trainingAct users s e = some (users', t)) :
    let own := documentsOf users s.presenter.userID
    Learning.act own s (ownTraining own e) = some ((trainingStores s e).foldl Stored.applyTo own, t) := by
  intro own
  cases e with
  | served i read =>
    unfold ownTraining Learning.act
    dsimp only
    rw [if_pos rfl]
    exact congrArg (Option.map (own, ·)) (eq_some_of_pair ha)
  | applied i =>
    unfold trainingAct Learning.act at ha
    unfold ownTraining Learning.act trainingStores
    dsimp only at ha ⊢
    cases hw : s.writes[i]? with
    | none => simp [hw] at ha
    | some w =>
      rw [hw] at ha
      exact congrArg (Option.map (w.applyTo own, ·)) (eq_some_of_pair ha)
  | _ => exact congrArg (Option.map (own, ·)) (eq_some_of_pair ha)

theorem detailsAct_own {users users' : List Document} {s t : Details.Screen} {e : Details.Event}
    (ha : detailsAct users s e = some (users', t)) :
    let own := documentsOf users s.presenter.userID
    Details.act own s (ownDetails own e) = some ((detailsStores s e).foldl Stored.applyTo own, t) := by
  intro own
  cases e with
  | served i read =>
    unfold ownDetails Details.act
    dsimp only
    rw [if_pos rfl]
    exact congrArg (Option.map (own, ·)) (eq_some_of_pair ha)
  | applied i =>
    unfold detailsAct Details.act at ha
    unfold ownDetails Details.act detailsStores
    dsimp only at ha ⊢
    cases hw : s.writes[i]? with
    | none => simp [hw] at ha
    | some w =>
      rw [hw] at ha
      exact congrArg (Option.map (w.applyTo own, ·)) (eq_some_of_pair ha)
  | _ => exact congrArg (Option.map (own, ·)) (eq_some_of_pair ha)

theorem details_userID {documents' : List Document} {s t : Details.Screen} {e : Details.Event}
    (ha : Details.act documents s e = some (documents', t)) :
    t.presenter.userID = s.presenter.userID := by
  cases Details.act_cases ha with
  | tap _ => rw [Details.addToFavorites_eq]
  | @callback i query read _ => cases query <;> rfl
  | _ => rfl

/-- A screen of a user has read and writes documents of this user only, and a sign-up asks for the
document of a new user. -/
structure Owned (s : State) : Prop where
  trainings : ∀ p ∈ s.trainings, Keeps (idsOf s.backend.users p.presenter.userID) p.requests p.writes
  details : ∀ p ∈ s.details, Keeps (idsOf s.backend.users p.presenter.userID) p.requests p.writes
  signUps : ∀ a ∈ s.signUps, ∀ data, a.addDocument = .waiting data →
    ∃ email password uid, data = userData email password uid

/-- Changes, each with the name of its document, as they are stored. -/
def changesStored (cs : List (String × Change)) : List Stored := cs.map fun c => .updateData (c.2.write c.1)

/-- The write that is applied in one event of a screen. -/
theorem toList_changes {documentIDs : List String} (h : Keeps documentIDs requests writes) (i : Nat) :
    ∃ cs, (writes[i]?.map Stored.updateData).toList = changesStored cs ∧ ∀ c ∈ cs, c.1 ∈ documentIDs := by
  cases hw : writes[i]? with
  | none => exact ⟨[], rfl, by simp⟩
  | some w =>
    obtain ⟨documentID, hid, c, rfl⟩ := h.writes w (List.mem_of_getElem? hw)
    exact ⟨[(documentID, c)], rfl, by simpa using hid⟩

theorem training_changes {documentIDs : List String} {p : Learning.Screen}
    (h : Keeps documentIDs p.requests p.writes) (e : Learning.Event) :
    ∃ cs, trainingStores p e = changesStored cs ∧ ∀ c ∈ cs, c.1 ∈ documentIDs := by
  unfold trainingStores
  split
  · exact toList_changes h _
  · exact ⟨[], rfl, by simp⟩

theorem details_changes {documentIDs : List String} {p : Details.Screen}
    (h : Keeps documentIDs p.requests p.writes) (e : Details.Event) :
    ∃ cs, detailsStores p e = changesStored cs ∧ ∀ c ∈ cs, c.1 ∈ documentIDs := by
  unfold detailsStores
  split
  · exact toList_changes h _
  · exact ⟨[], rfl, by simp⟩

/-- The screens store changes only. -/
theorem Owned.screens_change {s : State} {e : Event} (h : Owned s) (he : ∀ m, e ≠ .signUp m) :
    ∃ cs, stores s e = changesStored cs := by
  cases e with
  | signUp m => exact absurd rfl (he m)
  | training m =>
    refine outputOf_of (Q := fun l => ∃ cs, l = changesStored cs) m ⟨[], rfl⟩ fun p hp e => ?_
    obtain ⟨cs, hcs, _⟩ := training_changes (h.trainings p hp) e
    exact ⟨cs, hcs⟩
  | details m =>
    refine outputOf_of (Q := fun l => ∃ cs, l = changesStored cs) m ⟨[], rfl⟩ fun p hp e => ?_
    obtain ⟨cs, hcs, _⟩ := details_changes (h.details p hp) e
    exact ⟨cs, hcs⟩
  | signOutByForce _ | signIn _ | favorites _ | allVerbs _ => exact ⟨[], rfl⟩

/-- What the screens and the sign-ups have on their way are changes and new users. -/
theorem Owned.stores_typed {s : State} (h : Owned s) (e : Event) :
    ∃ es : List RecordEvent, stores s e = es.map RecordEvent.stored := by
  by_cases he : ∀ m, e ≠ .signUp m
  · obtain ⟨cs, hcs⟩ := h.screens_change he
    refine ⟨cs.map fun c => .changed c.1 c.2, ?_⟩
    rw [hcs, changesStored, List.map_map]
    rfl
  · push Not at he
    obtain ⟨m, rfl⟩ := he
    refine outputOf_of (Q := fun l => ∃ es : List RecordEvent, l = es.map RecordEvent.stored) m ⟨[], rfl⟩
      fun a ha e => ?_
    unfold signUpStores
    split
    · split
      · rename_i documentID _ data hdoc
        obtain ⟨email, password, uid, rfl⟩ := h.signUps a ha data hdoc
        exact ⟨[.added documentID email password uid], rfl⟩
      · exact ⟨[], rfl⟩
    · exact ⟨[], rfl⟩

/-! ## The documents of one user -/

/-- No change touches the uid of a document. -/
theorem write_field_ne_uid (documentID : String) (c : Change) : (c.write documentID).field ≠ "uid" := by
  cases c with
  | bestScore n => simp [Change.write, scoreWrite]
  | favoritesVerbs u => cases u <;> simp [Change.write, writeOf, Details.addWrite, Details.deleteWrite]

theorem carries_write (uid documentID : String) (c : Change) (d : Document) :
    SignUp.carries uid (d.updateData (c.write documentID).field (c.write documentID).update) =
      SignUp.carries uid d := by
  unfold SignUp.carries
  rw [get_updateData, if_neg (Ne.symm (write_field_ne_uid documentID c))]

theorem documentsOf_applyTo (documentID : String) (c : Change) (users : List Document) (user : Option String) :
    documentsOf ((c.write documentID).applyTo users) user =
      (c.write documentID).applyTo (documentsOf users user) := by
  cases user with
  | none => rfl
  | some uid =>
    unfold documentsOf Write.applyTo
    dsimp only
    rw [List.filter_map]
    congr 1
    refine List.filter_congr fun d _ => ?_
    simp only [Function.comp_apply]
    split
    · exact carries_write uid documentID c d
    · rfl

/-- The name of a document and its uid. -/
def key (d : Document) : String × Option FieldValue := (d.documentID, d.get "uid")

theorem key_write (documentID : String) (c : Change) (d : Document) :
    key (d.updateData (c.write documentID).field (c.write documentID).update) = key d := by
  unfold key
  rw [get_updateData, if_neg (Ne.symm (write_field_ne_uid documentID c))]
  rfl

/-- Changes leave the names and the uids. -/
theorem changes_keys (cs : List (String × Change)) (users : List Document) :
    ((changesStored cs).foldl Stored.applyTo users).map key = users.map key := by
  induction cs generalizing users with
  | nil => rfl
  | cons c cs ih =>
    unfold changesStored at ih ⊢
    rw [List.map_cons, List.foldl_cons, ih]
    simp only [Stored.applyTo, Write.applyTo, List.map_map]
    refine List.map_congr_left fun d _ => ?_
    simp only [Function.comp_apply]
    split
    · exact key_write c.1 c.2 d
    · rfl

/-- A step with no sign-up in it changes no name and no uid. -/
theorem step_keys {s t : State} {e : Event} (h : Owned s) (he : ∀ m, e ≠ .signUp m) (hs : step s e = some t) :
    t.backend.users.map key = s.backend.users.map key := by
  obtain ⟨cs, hcs⟩ := h.screens_change he
  rw [step_users hs, hcs, changes_keys]

theorem ids_of_keys {users users' : List Document} (h : users'.map key = users.map key) :
    users'.map (·.documentID) = users.map (·.documentID) := by
  have hfst := congrArg (List.map Prod.fst) h
  rw [List.map_map, List.map_map] at hfst
  exact hfst

/-- A user keeps all documents. -/
theorem idsOf_stored {users : List Document} {user : Option String} {documentID : String} (e : RecordEvent)
    (h : documentID ∈ idsOf users user) : documentID ∈ idsOf (e.stored.applyTo users) user := by
  cases e with
  | added id email password uid =>
    obtain ⟨d, hd, rfl⟩ := mem_idsOf.mp h
    refine mem_idsOf.mpr ⟨d, ?_, rfl⟩
    cases user with
    | none => cases hd
    | some user =>
      unfold documentsOf at hd ⊢
      exact List.mem_filter.mpr ⟨List.mem_append_left _ (List.mem_filter.mp hd).1, (List.mem_filter.mp hd).2⟩
  | changed id c =>
    unfold idsOf at h ⊢
    rw [RecordEvent.stored, Stored.applyTo, documentsOf_applyTo, applyTo_documentIDs]
    exact h

theorem idsOf_foldl {user : Option String} {documentID : String} (es : List RecordEvent) {users : List Document}
    (h : documentID ∈ idsOf users user) :
    documentID ∈ idsOf ((es.map RecordEvent.stored).foldl Stored.applyTo users) user := by
  induction es generalizing users with
  | nil => exact h
  | cons e es ih => exact ih (idsOf_stored e h)

/-! ## One step of the app -/

theorem step_idsOf {s t : State} {e : Event} (h : Owned s) (hs : step s e = some t) (user : Option String) :
    ∀ documentID ∈ idsOf s.backend.users user, documentID ∈ idsOf t.backend.users user := by
  intro documentID hid
  obtain ⟨es, hes⟩ := h.stores_typed e
  rw [step_users hs, hes]
  exact idsOf_foldl es hid

theorem own_ids (users : List Document) (user : Option String) :
    ∀ d ∈ documentsOf users user, d.documentID ∈ idsOf users user :=
  fun d hd => mem_idsOf.mpr ⟨d, hd, rfl⟩

theorem createUserCallback_adds {email password : String} {answer : SignUp.AuthAnswer} {a : SignUp.Attempt}
    {data : List (String × FieldValue)}
    (hdata : (SignUp.createUserCallback email password answer a).addDocument = .waiting data) :
    a.addDocument = .waiting data ∨ ∃ uid, data = userData email password uid := by
  unfold SignUp.createUserCallback at hdata
  split at hdata
  · exact Or.inl hdata
  · split at hdata
    · split at hdata
      · exact Or.inl hdata
      · exact Or.inl hdata
    · cases hdata
      exact Or.inr ⟨_, rfl⟩

theorem signUp_adds {b b' : Backend} {a a' : SignUp.Attempt} {e : SignUp.Event}
    (h : ∀ data, a.addDocument = .waiting data → ∃ email password uid, data = userData email password uid)
    (ha : SignUp.act b a e = some (b', a')) :
    ∀ data, a'.addDocument = .waiting data → ∃ email password uid, data = userData email password uid := by
  intro data hdata
  cases SignUp.act_cases ha with
  | authCallback _ =>
    rcases createUserCallback_adds hdata with hdata | ⟨uid, rfl⟩
    · exact h data hdata
    · exact ⟨_, _, uid, rfl⟩
  | dismissed | created _ _ | notCreated _ => exact h data hdata
  | added _ | notAdded _ | documentCallback _ => cases hdata

theorem tap_adds (view : SignUp.SignUpView) : (SignUp.createNewAccountButtonDidTap view).addDocument = .notMade := by
  cases SignUp.tap_progress {} view with
  | refused _ hdoc => exact hdoc
  | asked _ _ hdoc _ => exact hdoc
  | failed _ _ _ hdoc _ => exact hdoc
  | created _ _ _ hdoc _ => exact hdoc
  | storing _ _ _ _ haccount => cases haccount.exists_account
  | added _ _ _ _ _ _ haccount => cases haccount.exists_account

theorem training_keeps {documentIDs : List String} (user : Option String) :
    Keeps documentIDs (Learning.viewDidLoad user).requests (Learning.viewDidLoad user).writes := by
  cases user with
  | none => exact .asks []
  | some user => exact .asks [Learning.Query.bestScoreFromFirebase]

theorem details_keeps {documentIDs : List String} (user : Option String) (verb : Option IrregularVerb) :
    Keeps documentIDs (Details.viewDidLoad user verb).requests (Details.viewDidLoad user verb).writes := by
  cases user with
  | none => exact .asks []
  | some user => exact .asks [Details.Query.load .onViewDidLoad]

theorem step_owned {s t : State} {e : Event} (h : Owned s) (hs : step s e = some t) : Owned t := by
  have hids := step_idsOf h hs
  have htrainings : ∀ p ∈ s.trainings, Keeps (idsOf t.backend.users p.presenter.userID) p.requests p.writes :=
    fun p hp => (h.trainings p hp).mono (hids _)
  have hdetails : ∀ p ∈ s.details, Keeps (idsOf t.backend.users p.presenter.userID) p.requests p.writes :=
    fun p hp => (h.details p hp).mono (hids _)
  cases e with
  | signUp m =>
    obtain ⟨r, hr, rfl⟩ := Option.map_eq_some_iff.mp hs
    refine ⟨htrainings, hdetails, step_all hr h.signUps (fun view data hdata => ?_) fun _ _ _ _ _ => signUp_adds⟩
    rw [tap_adds] at hdata
    cases hdata
  | training m =>
    obtain ⟨r, hr, rfl⟩ := Option.map_eq_some_iff.mp hs
    refine ⟨step_each hr htrainings (fun _ => ?_) (fun _ _ hp => hp) fun p hp e q hk ha => ?_, hdetails, h.signUps⟩
    · exact training_keeps s.currentUser
    · have hown := trainingAct_own ha
      rw [Learning.step_userID (Learning.act_eq_some hown).1]
      exact (training_traffic hown).keeps hk fun d hd => hids _ _ (own_ids _ _ d hd)
  | details m =>
    obtain ⟨r, hr, rfl⟩ := Option.map_eq_some_iff.mp hs
    refine ⟨htrainings, step_each hr hdetails (fun verb => ?_) (fun _ _ hp => hp) fun p hp e q hk ha => ?_, h.signUps⟩
    · exact details_keeps s.currentUser verb
    · have hown := detailsAct_own ha
      rw [details_userID hown]
      exact (details_traffic hown).keeps hk fun d hd => hids _ _ (own_ids _ _ d hd)
  | signOutByForce userID =>
    cases hs
    exact ⟨htrainings, hdetails, h.signUps⟩
  | signIn m | favorites m | allVerbs m =>
    obtain ⟨r, hr, rfl⟩ := Option.map_eq_some_iff.mp hs
    exact ⟨htrainings, hdetails, h.signUps⟩

/-! ## Runs of the app -/

theorem run_owned {b : Backend} {user : Option String} {h : List (State × Event)} {s : State}
    (hr : Run step (launch b user) h s) : Owned s :=
  hr.invariant (I := Owned) (by constructor <;> simp [launch]) fun _ _ _ h hs => step_owned h hs

/-- A user keeps all documents over a run. -/
theorem run_idsOf {b : Backend} {current user : Option String} {h : List (State × Event)} {s : State}
    {documentID : String} (hr : Run step (launch b current) h s) (hid : documentID ∈ idsOf b.users user) :
    documentID ∈ idsOf s.backend.users user := by
  induction hr with
  | start => exact hid
  | snoc hr hs ih => exact step_idsOf (run_owned hr) hs user _ ih

theorem signUp_ids {b b' : Backend} {a a' : SignUp.Attempt} {e : SignUp.Event}
    (ha : SignUp.act b a e = some (b', a')) (h : (b.users.map (·.documentID)).Nodup) :
    (b'.users.map (·.documentID)).Nodup := by
  rw [signUp_users ha]
  unfold signUpStores
  split
  · rename_i documentID
    cases hdoc : a.addDocument with
    | waiting data =>
      simp only [SignUp.act, hdoc, Option.ite_none_left_eq_some] at ha
      dsimp only [List.foldl_cons, List.foldl_nil, Stored.applyTo]
      rw [List.map_append]
      refine List.nodup_append.mpr ⟨h, List.nodup_singleton _, fun x hx y hy => ?_⟩
      rw [List.map_cons, List.map_nil, List.mem_singleton] at hy
      rintro rfl
      rw [hy] at hx
      exact ha.1 hx
    | _ => exact h
  · exact h

/-- No two documents get the same name. -/
theorem step_ids {s t : State} {e : Event} (h : Owned s) (hs : step s e = some t)
    (hids : (s.backend.users.map (·.documentID)).Nodup) : (t.backend.users.map (·.documentID)).Nodup := by
  by_cases he : ∀ m, e ≠ .signUp m
  · rw [ids_of_keys (step_keys h he hs)]
    exact hids
  · push Not at he
    obtain ⟨m, rfl⟩ := he
    obtain ⟨r, hr, rfl⟩ := Option.map_eq_some_iff.mp hs
    cases m with
    | join view =>
      cases hr
      exact hids
    | act i e =>
      obtain ⟨a, b', a', _, ha, rfl⟩ := step_act_eq_some hr
      exact signUp_ids ha hids

theorem run_ids {b : Backend} {user : Option String} {h : List (State × Event)} {s : State}
    (hr : Run step (launch b user) h s) (hids : (b.users.map (·.documentID)).Nodup) :
    (s.backend.users.map (·.documentID)).Nodup := by
  induction hr with
  | start => exact hids
  | snoc hr hs ih => exact step_ids (run_owned hr) hs ih

theorem run_stored {b : Backend} {user : Option String} {h : List (State × Event)} {s : State}
    (hr : Run step (launch b user) h s) : ∃ es : List RecordEvent, storedIn h = es.map RecordEvent.stored := by
  induction hr with
  | start => exact ⟨[], rfl⟩
  | @snoc h s t e hr hs ih =>
    obtain ⟨es, hes⟩ := ih
    obtain ⟨es', hes'⟩ := (run_owned hr).stores_typed e
    refine ⟨es ++ es', ?_⟩
    unfold storedIn at hes ⊢
    simp [List.flatMap_append, hes, hes']

/-- In every run of the app all that is stored are new records and changes of a record, and the
collection is the documents of the records with these events. No two of them have the same name, no
record goes away, and none changes who its user is. -/
theorem every_document_is_a_user_record {b : Backend} {user : Option String} {rs : List UserRecord}
    {h : List (State × Event)} {s : State} (hb : b.users = rs.map UserRecord.document)
    (hids : (rs.map (·.documentID)).Nodup) (hr : Run step (launch b user) h s) :
    ∃ es : List RecordEvent, storedIn h = es.map RecordEvent.stored ∧
      s.backend.users = (recordsAfter rs es).map UserRecord.document ∧
      ((recordsAfter rs es).map (·.documentID)).Nodup ∧
      rs.map UserRecord.identity <+: (recordsAfter rs es).map UserRecord.identity := by
  obtain ⟨es, hes⟩ := run_stored hr
  have husers : s.backend.users = (recordsAfter rs es).map UserRecord.document := by
    rw [run_users hr, hes, hb, stored_recordsAfter]
  refine ⟨es, hes, husers, ?_, recordsAfter_identity es rs⟩
  have hend := run_ids hr (by rw [hb, List.map_map]; exact hids)
  rw [husers, List.map_map] at hend
  exact hend

/-- A user with no favourites yet. -/
def oneUser : UserRecord :=
  { documentID := "document", email := "user@mail.com", password := "password", uid := "uid" }

/-- The user is signed in, ends up with a favourite, and somebody else signs up. -/
def favoriteAndSignUp : List Event :=
  [.details (.join (some ⟨some "be", none, none, none⟩)), .details (.act 0 .addToFavoritesButton),
    .signUp (.join ⟨some "other@mail.com", some "12345678"⟩),
    .signUp (.act 0 (.authAnswered ⟨some "other", none⟩)), .details (.act 0 (.served 1 [])),
    .signUp (.act 0 .authCallback), .details (.act 0 (.callback 1)),
    .signUp (.act 0 (.documentAnswered "second" none)), .details (.act 0 (.applied 0))]

theorem a_favourite_and_a_new_user_are_records :
    ∃ (h : List (State × Event)) (s : State) (es : List RecordEvent),
      exec step (launch { accounts := ["uid"], users := [oneUser.document] } (some "uid")) favoriteAndSignUp = some s ∧
      h.map Prod.snd = favoriteAndSignUp ∧ storedIn h = es.map RecordEvent.stored ∧
      s.backend.users = (recordsAfter [oneUser] es).map UserRecord.document := by
  have hsome : (exec step (launch { accounts := ["uid"], users := [oneUser.document] } (some "uid"))
      favoriteAndSignUp).isSome := by decide
  obtain ⟨s, hs⟩ := Option.isSome_iff_exists.mp hsome
  obtain ⟨h, hr, hevents⟩ := exists_run_of_exec hs
  obtain ⟨es, hes, husers, _⟩ := @every_document_is_a_user_record _ _ [oneUser] _ _ rfl (by decide) hr
  exact ⟨h, s, es, hs, hevents, hes, husers⟩

end EasyVerbs.App
