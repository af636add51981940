-- The history of one document over a whole run of the app: it is the first record
-- with all changes of it, in the order in which the server applied them, and
-- only screens of its user send them.
import EasyVerbs.OneUser

open Runs Parties Updates

namespace EasyVerbs.App

open SignUp (Backend)

/-! ## The changes of a record -/

/-- The changes of the record with this name, the first one first. -/
def changesIn (documentID : String) (es : List RecordEvent) : List Change :=
  es.filterMap fun e =>
    match e with
    | .added .. => none
    | .changed id c => if id = documentID then some c else none

def UserRecord.after (r : UserRecord) (cs : List Change) : UserRecord := cs.foldl UserRecord.change r

/-- The scores among the changes. -/
def scoresIn (cs : List Change) : List Int :=
  cs.filterMap fun c =>
    match c with
    | .bestScore n => some n
    | .favoritesVerbs _ => none

/-- The updates of the favourites among the changes. -/
def updatesIn (cs : List Change) : List (Update String) :=
  cs.filterMap fun c =>
    match c with
    | .bestScore _ => none
    | .favoritesVerbs u => some u

/-- The screen that stores something in an event, as its user. -/
def actor (s : State) : Event → Option String
  | .training (.act i _) => s.trainings[i]?.bind (·.presenter.userID)
  | .details (.act i _) => s.details[i]?.bind (·.presenter.userID)
  | _ => none

/-! ## One record among all -/

theorem mem_apply_record {rs : List UserRecord} {r : UserRecord} (e : RecordEvent) (hr : r ∈ rs) :
    r.after (changesIn r.documentID [e]) ∈ e.apply rs := by
  cases e with
  | added documentID email password uid => exact List.mem_append_left _ hr
  | changed documentID c =>
    unfold RecordEvent.apply
    refine List.mem_map.mpr ⟨r, hr, ?_⟩
    by_cases hid : r.documentID = documentID
    · simp [changesIn, UserRecord.after, hid]
    · simp [changesIn, UserRecord.after, hid, Ne.symm hid]

theorem after_documentID (cs : List Change) (r : UserRecord) : (r.after cs).documentID = r.documentID := by
  unfold UserRecord.after
  induction cs generalizing r with
  | nil => rfl
  | cons c cs ih => rw [List.foldl_cons, ih, UserRecord.change_documentID]

theorem mem_recordsAfter (es : List RecordEvent) {rs : List UserRecord} {r : UserRecord} (hr : r ∈ rs) :
    r.after (changesIn r.documentID es) ∈ recordsAfter rs es := by
  induction es generalizing rs r with
  | nil => exact hr
  | cons e es ih =>
    have hfirst := ih (mem_apply_record e hr)
    rw [after_documentID] at hfirst
    have hsplit : changesIn r.documentID (e :: es) = changesIn r.documentID [e] ++ changesIn r.documentID es := by
      unfold changesIn
      rw [← List.filterMap_append]
      rfl
    unfold UserRecord.after at hfirst ⊢
    rw [hsplit, List.foldl_append]
    exact hfirst

/-! ## The two fields -/

/-- The last score counts. -/
theorem after_bestScore (cs : List Change) (r : UserRecord) :
    (r.after cs).bestScore = (scoresIn cs).getLast?.getD r.bestScore := by
  induction cs using List.reverseRecOn with
  | nil => rfl
  | append_singleton cs c ih =>
    unfold UserRecord.after scoresIn at ih ⊢
    rw [List.foldl_append, List.filterMap_append]
    cases c with
    | bestScore n => simp [UserRecord.change]
    | favoritesVerbs u => simpa [UserRecord.change] using ih

/-- All updates count, in their order. -/
theorem after_favorites (cs : List Change) (r : UserRecord) :
    (r.after cs).favorites = applyAll r.favorites (updatesIn cs) := by
  induction cs using List.reverseRecOn with
  | nil => rfl
  | append_singleton cs c ih =>
    unfold UserRecord.after updatesIn at ih ⊢
    rw [List.foldl_append, List.filterMap_append]
    cases c with
    | bestScore n =>
      simp only [List.foldl_cons, List.foldl_nil, List.filterMap_cons, List.filterMap_nil, List.append_nil]
      exact ih
    | favoritesVerbs u =>
      simp only [List.foldl_cons, List.foldl_nil, List.filterMap_cons, List.filterMap_nil, applyAll_snoc, ← ih]
      rfl

/-! ## Who changes it -/

/-- The write of the document with this name. -/
def Stored.writes (documentID : String) : Stored → Bool
  | .addDocument _ => false
  | .updateData w => w.documentID == documentID

/-- A change of a document of `uid` can only be one of the documents of that user. -/
theorem user_of_change {users : List Document} {user : Option String} {documentID uid : String} {x : Stored}
    {cs : List (String × Change)} (hids : (users.map (·.documentID)).Nodup)
    (hown : documentID ∈ idsOf users (some uid)) (hcs : ∀ c ∈ cs, c.1 ∈ idsOf users user)
    (hx : x ∈ changesStored cs) (hw : x.writes documentID = true) : user = some uid := by
  obtain ⟨c, hc, rfl⟩ := List.mem_map.mp hx
  have hid : c.1 = documentID := by simpa [Stored.writes, write_documentID] using hw
  by_contra hne
  exact idsOf_apart hids hne (hid ▸ hcs c hc) hown

/-- A document is written by the screens of its user only. -/
theorem actor_of_write {s : State} {e : Event} {documentID uid : String} {x : Stored} (h : Owned s)
    (hids : (s.backend.users.map (·.documentID)).Nodup) (hown : documentID ∈ idsOf s.backend.users (some uid))
    (hx : x ∈ stores s e) (hw : x.writes documentID = true) : actor s e = some uid := by
  cases e with
  | signUp m =>
    obtain ⟨i, e, a, rfl, _, hx⟩ := mem_outputOf hx
    unfold signUpStores at hx
    split at hx
    · split at hx
      · rw [List.mem_singleton.mp hx] at hw
        cases hw
      · cases hx
    · cases hx
  | training m =>
    obtain ⟨i, e, p, rfl, hp, hx⟩ := mem_outputOf hx
    obtain ⟨cs, hcs, hcsown⟩ := training_changes (h.trainings p (List.mem_of_getElem? hp)) e
    rw [hcs] at hx
    unfold actor
    dsimp only
    rw [hp]
    exact user_of_change hids hown hcsown hx hw
  | details m =>
    obtain ⟨i, e, p, rfl, hp, hx⟩ := mem_outputOf hx
    obtain ⟨cs, hcs, hcsown⟩ := details_changes (h.details p (List.mem_of_getElem? hp)) e
    rw [hcs] at hx
    unfold actor
    dsimp only
    rw [hp]
    exact user_of_change hids hown hcsown hx hw
  | signOutByForce _ | signIn _ | favorites _ | allVerbs _ => cases hx

/-! ## The law -/

theorem filter_stored (documentID : String) (es : List RecordEvent) :
    (es.map RecordEvent.stored).filter (Stored.writes documentID) =
      (changesIn documentID es).map fun c => .updateData (c.write documentID) := by
  induction es with
  | nil => rfl
  | cons e es ih =>
    unfold changesIn at ih ⊢
    cases e with
    | added id email password uid => simpa [RecordEvent.stored, Stored.writes] using ih
    | changed id c =>
      by_cases hid : id = documentID
      · simpa [RecordEvent.stored, Stored.writes, write_documentID, hid] using ih
      · simpa [RecordEvent.stored, Stored.writes, write_documentID, hid] using ih

/-- In every run of the app a document is its first record with all writes of it, in the order in which
the server applied them: the last score counts, all updates of the favourites count, and the two do
not disturb each other. Only screens of the user of the document send them. -/
theorem a_document_is_the_history_of_its_user {b : Backend} {current : Option String} {rs : List UserRecord}
    {r : UserRecord} {h : List (State × Event)} {s : State} (hb : b.users = rs.map UserRecord.document)
    (hids : (rs.map (·.documentID)).Nodup) (hmem : r ∈ rs) (hr : Run step (launch b current) h s) :
    ∃ (cs : List Change) (d : Document),
      (storedIn h).filter (Stored.writes r.documentID) =
        cs.map (fun c => .updateData (c.write r.documentID)) ∧
      d ∈ s.backend.users ∧ d.documentID = r.documentID ∧
      d.bestScore = (scoresIn cs).getLast?.getD r.bestScore ∧
      d.favoritesVerbs = applyAll r.favorites (updatesIn cs) ∧
      ∀ m ∈ h, ∀ x ∈ stores m.1 m.2, x.writes r.documentID = true → actor m.1 m.2 = some r.uid := by
  have hids' : (b.users.map (·.documentID)).Nodup := by rw [hb, List.map_map]; exact hids
  obtain ⟨es, hes⟩ := run_stored hr
  have husers : s.backend.users = (recordsAfter rs es).map UserRecord.document := by
    rw [run_users hr, hes, hb, stored_recordsAfter]
  refine ⟨changesIn r.documentID es, (r.after (changesIn r.documentID es)).document, ?_, ?_, ?_, ?_, ?_, ?_⟩
  · rw [hes, filter_stored]
  · rw [husers]
    exact List.mem_map_of_mem (mem_recordsAfter es hmem)
  · exact after_documentID _ r
  · rw [UserRecord.document_bestScore, after_bestScore]
  · rw [UserRecord.document_favoritesVerbs, after_favorites]
  · intro m hm x hx hw
    obtain ⟨⟨h1, hr1, _⟩, _⟩ := hr.moment hm
    have hown : r.documentID ∈ idsOf m.1.backend.users (some r.uid) := by
      refine run_idsOf hr1 (mem_idsOf.mpr ⟨r.document, ?_, rfl⟩)
      rw [hb]
      exact List.mem_filter.mpr ⟨List.mem_map_of_mem hmem, (r.document_carries r.uid).mpr rfl⟩
    exact actor_of_write (run_owned hr1) (run_ids hr1 hids') hown hx hw

theorem a_favourite_stays_in_company :
    ∃ s, ∃ cs : List Change, ∃ d ∈ s.backend.users,
      exec step (launch twoUsers (some "uid")) inCompany = some s ∧ d.documentID = "document" ∧
      d.bestScore = (scoresIn cs).getLast?.getD 0 ∧ d.favoritesVerbs = applyAll [] (updatesIn cs) := by
  obtain ⟨s, hs⟩ := Option.isSome_iff_exists.mp
    (show (exec step (launch twoUsers (some "uid")) inCompany).isSome from by decide)
  obtain ⟨cs, d, _, hd, hid, hscore, hfavorites, _⟩ :=
    @a_document_is_the_history_of_its_user _ _ [oneUser, otherUser] oneUser _ _ rfl (by decide) (by simp)
      (run_of_exec hs)
  exact ⟨s, cs, d, hd, hs, hid, hscore, hfavorites⟩

end EasyVerbs.App
