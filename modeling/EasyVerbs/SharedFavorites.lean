-- The favourites of a user with any number of Details screens, on one device
-- or on several: the method that sent the last applied write about a verb
-- decides, and no write touches another verb.
import EasyVerbs.DetailsView
import EasyVerbs.Updates

open Runs Parties Updates

namespace EasyVerbs.Details

abbrev Screens := Shared (List Document) Screen

/-- All Details screens of the user. A new one comes with any verb. -/
def Screens.step (user : String) (s : Screens) (m : Move (Option IrregularVerb) Event) : Option Screens :=
  Parties.step (viewDidLoad (some user)) act s m

/-- The write that `addFavoriteVerbs` or `deleteFavoriteVerbs` sends. -/
def writeOf (documentID : String) : Update String → Write
  | .add verb => addWrite verb documentID
  | .remove verb => deleteWrite verb documentID

/-- The write that the server applies in a move. -/
def appliedWrite (s : Screens) : Move (Option IrregularVerb) Event → Option Write
  | .act i (.applied j) => s.parties[i]?.bind (·.writes[j]?)
  | _ => none

/-- The writes that the server applied, the first one first. -/
def appliedWrites (h : List (Screens × Move (Option IrregularVerb) Event)) : List Write :=
  h.filterMap fun m => appliedWrite m.1 m.2

/-! ## The callbacks that sent the writes -/

/-- The callbacks that sent the writes that a screen waits for, after an event. What a callback
sends is what it adds to the writes. -/
def Screen.sendersAfter (s : Screen) (senders : List Query) : Event → List Query
  | .callback i =>
    match s.requests[i]? with
    | some ⟨query, some documents⟩ =>
      senders ++ ((Details.callback query documents s).writes.drop s.writes.length).map fun _ => query
    | _ => senders
  | .applied i | .rejected i => senders.eraseIdx i
  | _ => senders

/-- The same for all screens, after a moment of a run. -/
def sendersAfter (senders : List (List Query)) :
    Screens × Move (Option IrregularVerb) Event → List (List Query)
  | (_, .join _) => senders ++ [[]]
  | (s, .act i e) =>
    match s.parties[i]?, senders[i]? with
    | some p, some queries => senders.set i (p.sendersAfter queries e)
    | _, _ => senders

/-- The callback that sent the write that the server applies in a move. -/
def appliedSender (senders : List (List Query)) : Move (Option IrregularVerb) Event → Option Query
  | .act i (.applied j) => senders[i]?.bind (·[j]?)
  | _ => none

/-- The callbacks that sent the applied writes, in the order of these. -/
def appliedSenders (senders : List (List Query)) :
    List (Screens × Move (Option IrregularVerb) Event) → List Query
  | [] => []
  | m :: h => (appliedSender senders m.2).toList ++ appliedSenders (sendersAfter senders m) h

def Query.isAbout (verb : String) : Query → Bool
  | .load _ => false
  | .addFavoriteVerbs v | .deleteFavoriteVerbs v => v = verb

/-- The callback that an update should come from. -/
def senderOf : Update String → Query
  | .add verb => .addFavoriteVerbs verb
  | .remove verb => .deleteFavoriteVerbs verb

/-- A method of the presenter makes queries with its own callback only. -/
def Asks (method : Screen → Screen) (callback : String → Query) : Prop :=
  ∀ s, ∃ verbs : List String,
    (method s).requests = s.requests ++ verbs.map fun verb => { callback := callback verb }

theorem getDocuments_requests (query : Query) (s : Screen) :
    (getDocuments query s).requests = s.requests ∨
      (getDocuments query s).requests = s.requests ++ [{ callback := query }] := by
  unfold getDocuments
  cases s.presenter.userID with
  | none => exact Or.inl rfl
  | some user => exact Or.inr rfl

theorem asks_of_eq {method : Screen → Screen} {callback : String → Query}
    (h : ∀ s : Screen, method s = s ∨ ∃ verb, method s = getDocuments (callback verb) s) : Asks method callback := by
  intro s
  rcases h s with hsame | ⟨verb, hverb⟩
  · exact ⟨[], by simp [hsame]⟩
  · rw [hverb]
    rcases getDocuments_requests (callback verb) s with hnone | hasked
    · exact ⟨[], by simp [hnone]⟩
    · exact ⟨[verb], hasked⟩

theorem addFavoriteVerbs_asks : Asks addFavoriteVerbs .addFavoriteVerbs := by
  refine asks_of_eq fun s => ?_
  unfold addFavoriteVerbs
  cases s.presenter.infinitive with
  | none => exact Or.inl rfl
  | some verb => exact Or.inr ⟨verb, rfl⟩

theorem deleteFavoriteVerbs_asks : Asks deleteFavoriteVerbs .deleteFavoriteVerbs := by
  refine asks_of_eq fun s => ?_
  unfold deleteFavoriteVerbs
  cases s.presenter.infinitive with
  | none => exact Or.inl rfl
  | some verb => exact Or.inr ⟨verb, rfl⟩

/-! ## The writes of a screen -/

/-- The screen reads and writes one document only, and writes its favourites only. -/
structure Owned (id : String) (s : Screen) : Prop where
  read : ∀ r ∈ s.requests, ∀ documents, r.querySnapshot = some documents →
    documents.map (·.documentID) = [id]
  writes : ∀ w ∈ s.writes, ∃ u, w = writeOf id u

theorem Owned.mono {id : String} {s t : Screen} (h : Owned id s)
    (hr : ∀ r ∈ t.requests, r ∈ s.requests) (hw : ∀ w ∈ t.writes, w ∈ s.writes) : Owned id t :=
  ⟨fun r hmem => h.read r (hr r hmem), fun w hmem => h.writes w (hw w hmem)⟩

/-- New queries that are not read yet. -/
theorem Owned.asked {id : String} {s : Screen} (h : Owned id s) (queries : List Query) :
    Owned id { s with requests := s.requests ++ queries.map fun q => { callback := q } } := by
  refine ⟨fun r hmem documents hread => ?_, h.writes⟩
  rcases List.mem_append.mp hmem with hmem | hmem
  · exact h.read r hmem documents hread
  · obtain ⟨q, _, rfl⟩ := List.mem_map.mp hmem
    cases hread

theorem viewDidLoad_owned (user id : String) (verb : Option IrregularVerb) :
    Owned id (viewDidLoad (some user) verb) := by
  have hnew : Owned id { presenter := (viewDidLoad (some user) verb).presenter } := by
    constructor <;> simp
  exact hnew.asked [.load .onViewDidLoad]

/-- The callback of a query that read the one document. -/
theorem callback_owned {id : String} {query : Query} {read : List Document} {s : Screen}
    (h : Owned id s) (hread : read.map (·.documentID) = [id]) : Owned id (callback query read s) := by
  obtain ⟨document, rfl, rfl⟩ : ∃ document, read = [document] ∧ document.documentID = id := by
    simpa [List.map_eq_singleton_iff] using hread
  refine ⟨?_, ?_⟩
  · cases query <;> exact h.read
  · cases query with
    | load l => exact h.writes
    | addFavoriteVerbs verb =>
      intro w hmem
      rcases List.mem_append.mp hmem with hmem | hmem
      · exact h.writes w hmem
      · exact ⟨.add verb, List.mem_singleton.mp hmem⟩
    | deleteFavoriteVerbs verb =>
      intro w hmem
      rcases List.mem_append.mp hmem with hmem | hmem
      · exact h.writes w hmem
      · exact ⟨.remove verb, List.mem_singleton.mp hmem⟩

theorem act_owned {id : String} {documents documents' : List Document} {s t : Screen} {e : Event}
    (hids : documents.map (·.documentID) = [id]) (h : Owned id s)
    (ha : act documents s e = some (documents', t)) :
    documents'.map (·.documentID) = [id] ∧ Owned id t := by
  cases act_cases ha with
  | tap _ =>
    rw [addToFavorites_eq]
    exact ⟨hids, h.asked _⟩
  | back => exact ⟨hids, h.mono (fun _ hr => hr) fun _ hw => hw⟩
  | @served i query hquery =>
    refine ⟨hids, fun r hmem documents hread => ?_, h.writes⟩
    rcases List.mem_or_eq_of_mem_set hmem with hmem | rfl
    · exact h.read r hmem documents hread
    · cases hread
      exact hids
  | @callback i query read hquery =>
    refine ⟨hids, callback_owned ?_ (h.read _ (List.mem_of_getElem? hquery) read rfl)⟩
    exact h.mono (fun _ hr => List.mem_of_mem_eraseIdx hr) fun _ hw => hw
  | failed _ => exact ⟨hids, h.mono (fun _ hr => List.mem_of_mem_eraseIdx hr) fun _ hw => hw⟩
  | globalBlock _ => exact ⟨hids, h.mono (fun _ hr => hr) fun _ hw => hw⟩
  | mainBlock _ => exact ⟨hids, h.mono (fun _ hr => hr) fun _ hw => hw⟩
  | applied _ =>
    rw [applyTo_documentIDs]
    exact ⟨hids, h.mono (fun _ hr => hr) fun _ hw => List.mem_of_mem_eraseIdx hw⟩
  | rejected _ => exact ⟨hids, h.mono (fun _ hr => hr) fun _ hw => List.mem_of_mem_eraseIdx hw⟩

/-! ## The writes on the server -/

/-- A write of the favourites is an update of their list. -/
theorem updateData_writeOf (id : String) (u : Update String) (d : Document) :
    (d.updateData (writeOf id u).field (writeOf id u).update).favoritesVerbs = u.apply d.favoritesVerbs := by
  cases u with
  | add verb => exact updateData_arrayUnion d [verb]
  | remove verb =>
    have hremove : applyArrayRemove d.favoritesVerbs [verb] = (Update.remove verb).apply d.favoritesVerbs := by
      simp [applyArrayRemove, Update.apply]
    rw [← hremove]
    exact updateData_arrayRemove d [verb]

theorem writeOf_documentID (id : String) (u : Update String) : (writeOf id u).documentID = id := by
  cases u <;> rfl

/-- The server applies a write of the favourites as an update of their list. -/
theorem applyTo_writeOf (u : Update String) (d : Document) :
    ∃ d', (writeOf d.documentID u).applyTo [d] = [d'] ∧ d'.documentID = d.documentID ∧
      d'.favoritesVerbs = u.apply d.favoritesVerbs :=
  ⟨_, applyTo_only (writeOf_documentID _ u), rfl, updateData_writeOf _ u d⟩

/-! ## Each write has its sender -/

/-- The callback sent the write, and the write is an update of its kind. -/
def Sent (id : String) (query : Query) (w : Write) : Prop := ∃ u, query = senderOf u ∧ w = writeOf id u

theorem callback_sent {id : String} {query : Query} {read : List Document} {s : Screen} {senders : List Query}
    (h : List.Forall₂ (Sent id) senders s.writes) (hread : read.map (·.documentID) = [id]) :
    List.Forall₂ (Sent id)
      (senders ++ ((callback query read s).writes.drop s.writes.length).map fun _ => query)
      (callback query read s).writes := by
  obtain ⟨document, rfl, rfl⟩ : ∃ document, read = [document] ∧ document.documentID = id := by
    simpa [List.map_eq_singleton_iff] using hread
  cases query with
  | load l => simpa [callback] using h
  | addFavoriteVerbs verb =>
    have hsent : Sent document.documentID (.addFavoriteVerbs verb) (addWrite verb document.documentID) :=
      ⟨.add verb, rfl, rfl⟩
    simpa [callback] using List.rel_append h (.cons hsent .nil)
  | deleteFavoriteVerbs verb =>
    have hsent : Sent document.documentID (.deleteFavoriteVerbs verb) (deleteWrite verb document.documentID) :=
      ⟨.remove verb, rfl, rfl⟩
    simpa [callback] using List.rel_append h (.cons hsent .nil)

theorem act_sent {id : String} {documents documents' : List Document} {s t : Screen} {e : Event}
    {senders : List Query} (howned : Owned id s) (h : List.Forall₂ (Sent id) senders s.writes)
    (ha : act documents s e = some (documents', t)) :
    List.Forall₂ (Sent id) (s.sendersAfter senders e) t.writes := by
  cases act_cases ha with
  | tap _ =>
    rw [addToFavorites_eq]
    exact h
  | @callback i query read hquery =>
    have hread := howned.read _ (List.mem_of_getElem? hquery) read rfl
    simp only [Screen.sendersAfter, hquery]
    cases query <;> exact callback_sent h hread
  | applied _ | rejected _ => exact forall₂_eraseIdx h _
  | _ => exact h

/-- The screens after a move, with the senders of their writes. -/
theorem move_sent {user id : String} {s t : Screens} {m : Move (Option IrregularVerb) Event}
    {senders : List (List Query)} (howned : ∀ p ∈ s.parties, Owned id p)
    (h : List.Forall₂ (fun queries p => List.Forall₂ (Sent id) queries p.writes) senders s.parties)
    (hs : Screens.step user s m = some t) :
    List.Forall₂ (fun queries p => List.Forall₂ (Sent id) queries p.writes) (sendersAfter senders (s, m))
      t.parties := by
  cases m with
  | join verb =>
    unfold Screens.step at hs
    rw [step_join] at hs
    cases hs
    exact List.rel_append h (.cons .nil .nil)
  | act i e =>
    obtain ⟨p, documents, q, hp, ha, rfl⟩ := step_act_eq_some hs
    obtain ⟨queries, hqueries, hsent⟩ := forall₂_getElem? h hp
    simp only [sendersAfter, hp, hqueries]
    exact forall₂_set_both h (act_sent (howned p (List.mem_of_getElem? hp)) hsent ha) i

/-- A move leaves the documents, or it is a write of the favourites that is applied. -/
theorem move_store {user id : String} {s t : Screens} {m : Move (Option IrregularVerb) Event}
    {senders : List (List Query)}
    (h : List.Forall₂ (fun queries p => List.Forall₂ (Sent id) queries p.writes) senders s.parties)
    (hs : Screens.step user s m = some t) :
    appliedWrite s m = none ∧ appliedSender senders m = none ∧ t.store = s.store ∨
      ∃ u, appliedWrite s m = some (writeOf id u) ∧ appliedSender senders m = some (senderOf u) ∧
        t.store = (writeOf id u).applyTo s.store := by
  cases m with
  | join verb =>
    unfold Screens.step at hs
    rw [step_join] at hs
    cases hs
    exact Or.inl ⟨rfl, rfl, rfl⟩
  | act i e =>
    obtain ⟨p, documents, q, hp, ha, rfl⟩ := step_act_eq_some hs
    cases act_cases ha with
    | @applied j w hwrite =>
      obtain ⟨queries, hqueries, hsent⟩ := forall₂_getElem? h hp
      obtain ⟨query, hquery, u, rfl, rfl⟩ := forall₂_getElem? hsent hwrite
      refine Or.inr ⟨u, ?_, ?_, rfl⟩
      · simp only [appliedWrite, hp, Option.bind_some, hwrite]
      · simp only [appliedSender, hqueries, Option.bind_some, hquery]
    | _ => exact Or.inl ⟨rfl, rfl, rfl⟩

theorem run_owned {user : String} {d : Document}
    {h : List (Screens × Move (Option IrregularVerb) Event)} {s : Screens}
    (hr : Run (Screens.step user) ⟨[d], []⟩ h s) : ∀ p ∈ s.parties, Owned d.documentID p := by
  have hall := all_parties (J := fun documents => documents.map (·.documentID) = [d.documentID])
    (I := Owned d.documentID) hr ⟨rfl, by simp⟩ (viewDidLoad_owned user d.documentID)
    fun _ _ _ _ _ hids howned ha => act_owned hids howned ha
  exact hall.2

theorem appliedSenders_snoc (senders : List (List Query)) (h : List (Screens × Move (Option IrregularVerb) Event))
    (m : Screens × Move (Option IrregularVerb) Event) :
    appliedSenders senders (h ++ [m]) =
      appliedSenders senders h ++ (appliedSender (h.foldl sendersAfter senders) m.2).toList := by
  induction h generalizing senders with
  | nil => simp [appliedSenders]
  | cons m' h ih => simp [appliedSenders, ih]

theorem run_sent {user : String} {d : Document}
    {h : List (Screens × Move (Option IrregularVerb) Event)} {s : Screens}
    (hr : Run (Screens.step user) ⟨[d], []⟩ h s) :
    List.Forall₂ (fun queries p => List.Forall₂ (Sent d.documentID) queries p.writes)
      (h.foldl sendersAfter []) s.parties := by
  induction hr with
  | start => exact .nil
  | snoc hr hs ih =>
    rw [List.foldl_append]
    exact move_sent (run_owned hr) ih hs

/-- The stored favourites are the first ones with all applied writes, in their order, and each
of these came from the method of its kind. -/
theorem run_favorites {user : String} {d : Document}
    {h : List (Screens × Move (Option IrregularVerb) Event)} {s : Screens}
    (hr : Run (Screens.step user) ⟨[d], []⟩ h s) :
    ∃ us d', appliedWrites h = us.map (writeOf d.documentID) ∧ appliedSenders [] h = us.map senderOf ∧
      s.store = [d'] ∧ d'.documentID = d.documentID ∧ d'.favoritesVerbs = applyAll d.favoritesVerbs us := by
  induction hr with
  | start => exact ⟨[], d, rfl, rfl, rfl, rfl, rfl⟩
  | @snoc h s t m hr hs ih =>
    obtain ⟨us, d', hws, hsenders, hstore, hid, hfav⟩ := ih
    unfold appliedWrites at hws ⊢
    rw [List.filterMap_append, hws, appliedSenders_snoc, hsenders]
    rcases move_store (run_sent hr) hs with ⟨hnone, hsender, hsame⟩ | ⟨u, hsome, hsender, happly⟩
    · refine ⟨us, d', ?_, ?_, hsame.trans hstore, hid, hfav⟩
      · simp [hnone]
      · simp [hsender]
    · rw [hstore, ← hid] at happly
      obtain ⟨d'', hd'', hid', hfav'⟩ := applyTo_writeOf u d'
      refine ⟨us ++ [u], d'', ?_, ?_, happly.trans hd'', hid'.trans hid, ?_⟩
      · simp [hsome]
      · simp [hsender]
      · rw [hfav', hfav, applyAll_snoc]

/-- The last sender about a verb is the sender of the last update about it. -/
theorem last_sender (verb : String) (us : List (Update String)) :
    ((us.map senderOf).filter (·.isAbout verb)).getLast? = (about verb us).getLast?.map senderOf := by
  have habout : (fun query : Query => query.isAbout verb) ∘ senderOf = fun u => decide (u.subject = verb) := by
    funext u
    cases u <;> rfl
  rw [List.filter_map, habout, List.getLast?_map]
  rfl

theorem writeOf_injective (id : String) : Function.Injective (writeOf id) := by
  intro u u' h
  cases u <;> cases u' <;> simp_all [writeOf, addWrite, deleteWrite]

/-! ## The law -/

/-- Each of the two methods makes queries with its own callback only. In every run of any number of
Details screens, the server applied updates of the favourites only, each from the callback of its
kind. A verb with an update is there exactly when the last one was sent by `addFavoriteVerbs`. The
verbs without an update keep their occurrences and their order, and a list without duplicates stays
one. A run whose applied updates about each verb are the same comes to the same favourites. -/
theorem the_last_write_about_a_verb_decides {user : String} {d : Document}
    {h : List (Screens × Move (Option IrregularVerb) Event)} {s : Screens}
    (hr : Run (Screens.step user) ⟨[d], []⟩ h s) :
    Asks addFavoriteVerbs .addFavoriteVerbs ∧ Asks deleteFavoriteVerbs .deleteFavoriteVerbs ∧
    ∃ us d', appliedWrites h = us.map (writeOf d.documentID) ∧ appliedSenders [] h = us.map senderOf ∧
      s.store = [d'] ∧
      (∀ verb sender, ((appliedSenders [] h).filter (·.isAbout verb)).getLast? = some sender →
        (verb ∈ d'.favoritesVerbs ↔ sender = .addFavoriteVerbs verb)) ∧
      d'.favoritesVerbs.filter (fun verb => about verb us = []) =
        d.favoritesVerbs.filter (fun verb => about verb us = []) ∧
      (d.favoritesVerbs.Nodup → d'.favoritesVerbs.Nodup) ∧
      ∀ h2 s2 us2, Run (Screens.step user) ⟨[d], []⟩ h2 s2 →
        appliedWrites h2 = us2.map (writeOf d.documentID) →
        (∀ verb, about verb us2 = about verb us) →
        ∃ d2, s2.store = [d2] ∧ ∀ verb, verb ∈ d2.favoritesVerbs ↔ verb ∈ d'.favoritesVerbs := by
  obtain ⟨us, d', hws, hsenders, hstore, _, hfav⟩ := run_favorites hr
  refine ⟨addFavoriteVerbs_asks, deleteFavoriteVerbs_asks, us, d', hws, hsenders, hstore, ?_, ?_, ?_, ?_⟩
  · intro verb sender hlast
    rw [hsenders, last_sender, Option.map_eq_some_iff] at hlast
    obtain ⟨u, hu, rfl⟩ := hlast
    have hsubject : u.subject = verb := by
      simpa [about] using (List.mem_filter.mp (List.mem_of_getLast? hu)).2
    subst hsubject
    rw [hfav, mem_applyAll, hu]
    cases u with
    | add b => simp [Update.adds, Update.subject, senderOf]
    | remove b => simp [Update.adds, senderOf]
  · rw [hfav]
    apply filter_applyAll
    intro u hu
    have hmem : u ∈ about u.subject us := List.mem_filter.mpr ⟨hu, by simp⟩
    simpa using List.ne_nil_of_mem hmem
  · intro hnodup
    rw [hfav]
    exact nodup_applyAll hnodup
  · intro h2 s2 us2 hr2 hws2 habout
    obtain ⟨us', d2, hws', _, hstore2, _, hfav2⟩ := run_favorites hr2
    have hus : us' = us2 :=
      (List.map_injective_iff.mpr (writeOf_injective d.documentID)) (hws'.symm.trans hws2)
    refine ⟨d2, hstore2, fun verb => ?_⟩
    rw [hfav, hfav2, hus]
    exact mem_applyAll_congr (habout verb)

def verbNamed (infinitive : String) : IrregularVerb := ⟨some infinitive, none, none, none⟩

/-- A document with these favourites. -/
def favoritesDocument (favorites : List String) : Document :=
  ⟨"document", [("uid", .string "user"), ("favoritesVerbs", .array favorites)]⟩

/-- Two screens of different verbs whose taps cross. -/
def twoTaps : List (Move (Option IrregularVerb) Event) :=
  let read := [favoritesDocument ["see"]]
  [.join (some (verbNamed "be")), .join (some (verbNamed "go")), .act 0 .addToFavoritesButton,
    .act 1 .addToFavoritesButton, .act 1 (.served 1 read), .act 0 (.served 1 read),
    .act 0 (.callback 1), .act 1 (.callback 1), .act 1 (.applied 0), .act 0 (.applied 0)]

theorem two_crossing_taps_make_no_duplicate :
    ∃ s, ∃ us : List (Update String), ∃ d',
      exec (Screens.step "user") ⟨[favoritesDocument ["see"]], []⟩ twoTaps = some s ∧
      appliedWrites (momentsOf (Screens.step "user") ⟨[favoritesDocument ["see"]], []⟩ twoTaps) =
        us.map (writeOf "document") ∧
      s.store = [d'] ∧ "be" ∈ d'.favoritesVerbs ∧ d'.favoritesVerbs.Nodup := by
  have hsome : (exec (Screens.step "user") ⟨[favoritesDocument ["see"]], []⟩ twoTaps).isSome := by
    decide
  obtain ⟨_, _, us, d', hws, _, hstore, hlast, _, hnodup, _⟩ :=
    the_last_write_about_a_verb_decides (run_of_isSome hsome)
  have hbe : "be" ∈ d'.favoritesVerbs := (hlast "be" (.addFavoriteVerbs "be") (by decide)).mpr rfl
  exact ⟨_, us, d', (Option.some_get hsome).symm, hws, hstore, hbe, hnodup (by decide)⟩

end EasyVerbs.Details
