-- What the documents of `users` are for. A record says who a user is and what the
-- user did, and each document that the app stores is the document of a record.
-- There are three things that the app ever does to the collection.
import EasyVerbs.App
import EasyVerbs.BestScore
import EasyVerbs.SharedFavorites

open Runs Parties Updates

namespace EasyVerbs.App

open SignUp (Backend userData)
open Learning (scoreWrite)
open Details (writeOf)

/-! ## Records -/

/-- What the app keeps of a user. There is no list before the first change of the favourites. -/
structure UserRecord where
  documentID : String
  email : String
  password : String
  uid : String
  bestScore : Int := 0
  favoritesVerbs : Option { l : List String // l.Nodup } := none
  deriving DecidableEq, Repr

namespace UserRecord

def document (r : UserRecord) : Document :=
  ⟨r.documentID, [("email", .string r.email), ("password", .string r.password), ("uid", .string r.uid),
    ("bestScore", .int r.bestScore)] ++
      (r.favoritesVerbs.map fun l => ("favoritesVerbs", .array l.1)).toList⟩

/-- Who the user is: no change touches it. -/
def identity (r : UserRecord) : String × String × String × String :=
  (r.documentID, r.email, r.password, r.uid)

/-- The favourites as a screen reads them. -/
def favorites (r : UserRecord) : List String := (r.favoritesVerbs.map (·.1)).getD []

end UserRecord

/-- What the screens change. -/
inductive Change
  | bestScore (n : Int)
  | favoritesVerbs (u : Update String)
  deriving DecidableEq, Repr

/-- The write that a screen sends for the change. -/
def Change.write (documentID : String) : Change → Write
  | .bestScore n => scoreWrite documentID n
  | .favoritesVerbs u => writeOf documentID u

namespace UserRecord

theorem favorites_nodup (r : UserRecord) : r.favorites.Nodup := by
  unfold favorites
  cases r.favoritesVerbs with
  | none => exact List.nodup_nil
  | some l => exact l.2

def change (r : UserRecord) : Change → UserRecord
  | .bestScore n => { r with bestScore := n }
  | .favoritesVerbs u =>
    { r with favoritesVerbs := some ⟨u.apply r.favorites, nodup_apply r.favorites_nodup⟩ }

@[simp] theorem change_identity (r : UserRecord) (c : Change) : (r.change c).identity = r.identity := by
  cases c <;> rfl

@[simp] theorem change_documentID (r : UserRecord) (c : Change) : (r.change c).documentID = r.documentID := by
  cases c <;> rfl

@[simp] theorem document_documentID (r : UserRecord) : r.document.documentID = r.documentID := rfl

theorem document_favoritesVerbs (r : UserRecord) : r.document.favoritesVerbs = r.favorites := by
  unfold document favorites
  cases r.favoritesVerbs <;> simp [Document.favoritesVerbs, Document.get, lookup_cons_eq, FieldValue.asStrings]

theorem document_bestScore (r : UserRecord) : r.document.bestScore = r.bestScore := by
  simp [document, Document.bestScore, Document.get, lookup_cons_eq, FieldValue.asInt]

theorem document_carries (r : UserRecord) (uid : String) :
    SignUp.carries uid r.document = true ↔ r.uid = uid := by
  simp [SignUp.carries, document, Document.get, lookup_cons_eq]

/-- A write of the favourites as the server applies it to the field. -/
theorem writeOf_apply (documentID : String) (u : Update String) (old : Option FieldValue) :
    (writeOf documentID u).update.apply old = .array (u.apply ((old.bind FieldValue.asStrings).getD [])) := by
  cases u with
  | add verb => rfl
  | remove verb =>
    simp only [writeOf, Details.deleteWrite, FieldUpdate.apply, applyArrayRemove, Update.apply,
      List.mem_singleton, ne_eq, decide_not]

/-- The server applies the write of a change to the document of the record. -/
theorem document_updateData (r : UserRecord) (c : Change) :
    r.document.updateData (c.write r.documentID).field (c.write r.documentID).update =
      (r.change c).document := by
  cases c with
  | bestScore n =>
    simp [document, change, Change.write, scoreWrite, Document.updateData, setField, FieldUpdate.apply]
  | favoritesVerbs u =>
    have hnew : (writeOf r.documentID u).update.apply (r.document.get "favoritesVerbs") =
        .array (u.apply r.favorites) := by
      rw [writeOf_apply]
      exact congrArg (fun l => FieldValue.array (u.apply l)) (document_favoritesVerbs r)
    have hfield : (writeOf r.documentID u).field = "favoritesVerbs" := by cases u <;> rfl
    unfold Document.updateData
    simp only [Change.write, hfield, hnew]
    cases hf : r.favoritesVerbs with
    | none => simp [document, change, hf, setField]
    | some l => simp [document, change, hf, setField]

end UserRecord

/-! ## Events of the collection -/

/-- All that the app does to the collection: the document of a new user, or a change of one. -/
inductive RecordEvent
  | added (documentID email password uid : String)
  | changed (documentID : String) (c : Change)
  deriving DecidableEq, Repr

namespace RecordEvent

def apply (rs : List UserRecord) : RecordEvent → List UserRecord
  | added documentID email password uid =>
    rs ++ [{ documentID, email, password, uid }]
  | changed documentID c => rs.map fun r => if r.documentID = documentID then r.change c else r

/-- What the app stores for it. -/
def stored : RecordEvent → Stored
  | added documentID email password uid => .addDocument ⟨documentID, userData email password uid⟩
  | changed documentID c => .updateData (c.write documentID)

end RecordEvent

/-- The collection after something was stored. -/
def Stored.applyTo (users : List Document) : Stored → List Document
  | .addDocument d => users ++ [d]
  | .updateData w => w.applyTo users

theorem write_documentID (documentID : String) (c : Change) :
    (c.write documentID).documentID = documentID := by
  cases c with
  | bestScore n => rfl
  | favoritesVerbs u => exact Details.writeOf_documentID documentID u

/-- What is stored for an event makes of the documents of the records those of the new records. -/
theorem RecordEvent.stored_applyTo (e : RecordEvent) (rs : List UserRecord) :
    e.stored.applyTo (rs.map UserRecord.document) = (e.apply rs).map UserRecord.document := by
  cases e with
  | added documentID email password uid =>
    simp [RecordEvent.stored, RecordEvent.apply, Stored.applyTo, UserRecord.document, userData]
  | changed documentID c =>
    simp only [RecordEvent.stored, RecordEvent.apply, Stored.applyTo, Write.applyTo, List.map_map,
      write_documentID]
    refine List.map_congr_left fun r _ => ?_
    dsimp only [Function.comp_apply]
    by_cases hid : r.documentID = documentID
    · subst hid
      rw [if_pos (UserRecord.document_documentID r), if_pos rfl]
      exact r.document_updateData c
    · rw [if_neg (by exact hid), if_neg hid]

/-- No event takes a record away, and none changes who a user is. -/
theorem RecordEvent.apply_identity (e : RecordEvent) (rs : List UserRecord) :
    rs.map UserRecord.identity <+: (e.apply rs).map UserRecord.identity := by
  cases e with
  | added documentID email password uid =>
    unfold RecordEvent.apply
    rw [List.map_append]
    exact List.prefix_append _ _
  | changed documentID c =>
    unfold RecordEvent.apply
    rw [List.map_map]
    have hsame : rs.map UserRecord.identity =
        rs.map (UserRecord.identity ∘ fun r => if r.documentID = documentID then r.change c else r) := by
      refine List.map_congr_left fun r _ => ?_
      simp only [Function.comp_apply]
      split <;> simp
    exact hsame ▸ List.prefix_refl _

/-- All the events, the first one first. -/
def recordsAfter (rs : List UserRecord) (es : List RecordEvent) : List UserRecord :=
  es.foldl RecordEvent.apply rs

theorem recordsAfter_identity (es : List RecordEvent) (rs : List UserRecord) :
    rs.map UserRecord.identity <+: (recordsAfter rs es).map UserRecord.identity := by
  induction es generalizing rs with
  | nil => exact List.prefix_refl _
  | cons e es ih => exact (e.apply_identity rs).trans (ih (e.apply rs))

theorem stored_recordsAfter (es : List RecordEvent) (rs : List UserRecord) :
    (es.map RecordEvent.stored).foldl Stored.applyTo (rs.map UserRecord.document) =
      (recordsAfter rs es).map UserRecord.document := by
  induction es generalizing rs with
  | nil => rfl
  | cons e es ih =>
    rw [List.map_cons, List.foldl_cons, e.stored_applyTo, ih]
    rfl

/-! ## What a run stores -/

/-- What the moments of a run stored, the first one first. -/
def storedIn (h : List (State × Event)) : List Stored := h.flatMap fun m => stores m.1 m.2

theorem signUp_users {b b' : Backend} {a a' : SignUp.Attempt} {e : SignUp.Event}
    (ha : SignUp.act b a e = some (b', a')) : b'.users = (signUpStores a e).foldl Stored.applyTo b.users := by
  unfold SignUp.act at ha
  cases e with
  | dismissed =>
    cases ha
    rfl
  | authAnswered answer =>
    dsimp only at ha
    split at ha
    · split at ha
      · cases ha
      · cases ha
        rfl
    · cases ha
      rfl
    · cases ha
  | documentAnswered documentID error =>
    dsimp only at ha
    split at ha
    · rename_i hdoc
      split at ha
      · cases ha
      · cases ha
        simp [signUpStores, hdoc, Stored.applyTo]
    · cases ha
      rfl
    · cases ha
  | authCallback | documentCallback =>
    dsimp only at ha
    split at ha
    · cases ha
      rfl
    · cases ha

/-- An act whose only write is the one that the server applies. -/
theorem applied_users {S : Type} {users users' : List Document} {w : Option Write} {s : Option S} {t : S}
    (ha : (match w with
      | some w => s.map (w.applyTo users, ·)
      | none => none) = some (users', t)) :
    users' = ((w.map Stored.updateData).toList).foldl Stored.applyTo users := by
  cases w with
  | none => cases ha
  | some w =>
    obtain ⟨t', _, hpair⟩ := Option.map_eq_some_iff.mp ha
    cases hpair
    rfl

theorem users_of_pair {D S : Type} {x : Option S} {d d' : D} {t : S} (h : x.map (d, ·) = some (d', t)) :
    d' = d := by
  obtain ⟨t', _, hpair⟩ := Option.map_eq_some_iff.mp h
  cases hpair
  rfl

theorem trainingAct_users {users users' : List Document} {s t : Learning.Screen} {e : Learning.Event}
    (ha : trainingAct users s e = some (users', t)) :
    users' = (trainingStores s e).foldl Stored.applyTo users := by
  cases e with
  | applied i => exact applied_users ha
  | _ => exact users_of_pair ha

theorem detailsAct_users {users users' : List Document} {s t : Details.Screen} {e : Details.Event}
    (ha : detailsAct users s e = some (users', t)) :
    users' = (detailsStores s e).foldl Stored.applyTo users := by
  cases e with
  | applied i => exact applied_users ha
  | _ => exact users_of_pair ha

theorem favoritesAct_users {users users' : List Document} {s t : FavoriteVerbs.Screen}
    {e : FavoriteVerbs.Event} (ha : favoritesAct users s e = some (users', t)) : users' = users := by
  unfold favoritesAct at ha
  split at ha
  · exact users_of_pair ha
  · exact users_of_pair ha

theorem signIn_backend {b b' : Backend} {a a' : SignIn.Attempt} {e : SignIn.Event}
    (ha : SignIn.act b a e = some (b', a')) : b' = b := by
  unfold SignIn.act at ha
  cases e with
  | authAnswered answer =>
    dsimp only at ha
    split at ha
    · split at ha
      · cases ha
        rfl
      · cases ha
    · cases ha
      rfl
    · cases ha
  | authCallback =>
    dsimp only at ha
    split at ha
    · cases ha
      rfl
    · cases ha

/-- What an event stores is all that it does to the collection. -/
theorem step_users {s t : State} {e : Event} (hs : step s e = some t) :
    t.backend.users = (stores s e).foldl Stored.applyTo s.backend.users := by
  cases e with
  | signOutByForce userID =>
    cases hs
    rfl
  | signUp m =>
    obtain ⟨r, hr, rfl⟩ := Option.map_eq_some_iff.mp hs
    exact step_output (f := fun b : Backend => b.users) hr fun _ _ _ _ _ ha => signUp_users ha
  | signIn m =>
    obtain ⟨r, hr, rfl⟩ := Option.map_eq_some_iff.mp hs
    exact step_keeps (f := fun b : Backend => b.users) hr fun _ _ _ _ _ ha =>
      congrArg Backend.users (signIn_backend ha)
  | training m =>
    obtain ⟨r, hr, rfl⟩ := Option.map_eq_some_iff.mp hs
    exact step_output (f := fun users => users) hr fun _ _ _ _ _ ha => trainingAct_users ha
  | details m =>
    obtain ⟨r, hr, rfl⟩ := Option.map_eq_some_iff.mp hs
    exact step_output (f := fun users => users) hr fun _ _ _ _ _ ha => detailsAct_users ha
  | favorites m =>
    obtain ⟨r, hr, rfl⟩ := Option.map_eq_some_iff.mp hs
    exact step_keeps (f := fun users => users) hr fun _ _ _ _ _ ha => favoritesAct_users ha
  | allVerbs m =>
    obtain ⟨r, _, rfl⟩ := Option.map_eq_some_iff.mp hs
    rfl

/-- So the collection is the first one with all that was stored, in its order. -/
theorem run_users {b : Backend} {user : Option String} {h : List (State × Event)} {s : State}
    (hr : Run step (launch b user) h s) : s.backend.users = (storedIn h).foldl Stored.applyTo b.users := by
  induction hr with
  | start => rfl
  | @snoc h s t e _ hs ih =>
    unfold storedIn at ih ⊢
    rw [step_users hs, ih, List.flatMap_append, List.foldl_append]
    simp

end EasyVerbs.App
