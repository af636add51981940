-- Runs of one Details screen that is alone with the document of its user: its
-- first load, its taps, and the queries of them that are on their way.
import EasyVerbs.SharedFavorites

open Runs Parties Updates

namespace EasyVerbs.Details

/-! ## Runs of one screen -/

/-- A request or a write that goes wrong. -/
def Event.isFailure : Event → Bool
  | .failed _ | .rejected _ => true
  | _ => false

/-- The taps on the favourites button. -/
def taps (h : List ((List Document × Screen) × Event)) : Nat :=
  (h.map Prod.snd).count .addToFavoritesButton

theorem taps_append (h h' : List ((List Document × Screen) × Event)) :
    taps (h ++ h') = taps h + taps h' := by
  unfold taps
  rw [List.map_append, List.count_append]

theorem taps_snoc (h : List ((List Document × Screen) × Event)) (s : List Document × Screen) (e : Event) :
    taps (h ++ [(s, e)]) = taps h + if e = .addToFavoritesButton then 1 else 0 := by
  rw [taps_append]
  unfold taps
  by_cases he : e = .addToFavoritesButton <;> simp [he]

/-- Nothing is on its way from or to the screen. -/
def Drained (s : Screen) : Prop :=
  s.requests = [] ∧ s.globalBlocks = [] ∧ s.mainBlocks = [] ∧ s.writes = []

instance (s : Screen) : Decidable (Drained s) :=
  inferInstanceAs (Decidable (s.requests = [] ∧ s.globalBlocks = [] ∧ s.mainBlocks = [] ∧ s.writes = []))

/-- The screen once its first load is over. -/
def loaded (user : String) (verb : Option IrregularVerb) (d : Document) : Screen :=
  let s := { viewDidLoad (some user) verb with requests := [] }
  let s := { globalBlock .onViewDidLoad d s with mainBlocks := [] }
  mainBlock .onViewDidLoad s

theorem loaded_drained (user : String) (verb : Option IrregularVerb) (d : Document) :
    Drained (loaded user verb d) := ⟨rfl, rfl, rfl, rfl⟩

/-- The events of the first load. -/
def firstLoad (d : Document) : List Event := [.served 0 [d], .callback 0, .globalBlock 0, .mainBlock 0]

theorem exec_firstLoad (user : String) (verb : Option IrregularVerb) (d : Document) :
    exec (solo act) ([d], viewDidLoad (some user) verb) (firstLoad d) =
      some ([d], loaded user verb d) := by
  simp [firstLoad, exec, solo, act, Screen.step, viewDidLoad, onViewDidLoad, getDocuments, serve,
    callback, loaded, globalBlock]

/-- The screen is the user's, and it shows the verb while it is there. -/
structure Shows (user : String) (verb : IrregularVerb) (s : Screen) : Prop where
  userID : s.presenter.userID = some user
  view : ∀ v, s.presenter.view = some v → v.verbFromDelegate = some verb

theorem Shows.of_presenter {user : String} {verb : IrregularVerb} {s t : Screen}
    (h : Shows user verb s) (ht : t.presenter = s.presenter) : Shows user verb t := by
  constructor
  · rw [ht]
    exact h.userID
  · rw [ht]
    exact h.view

theorem viewDidLoad_shows (user : String) (verb : IrregularVerb) :
    Shows user verb (viewDidLoad (some user) (some verb)) := by
  refine ⟨rfl, fun v hv => ?_⟩
  cases hv
  rfl

theorem colorButtonOnStart_verb (b : Bool) (v : DetailsView) :
    (v.colorButtonOnStart b).verbFromDelegate = v.verbFromDelegate := by
  unfold DetailsView.colorButtonOnStart
  split <;> rfl

theorem mainBlock_shows {user : String} {verb : IrregularVerb} {s : Screen} {l : Load}
    (h : Shows user verb s) : Shows user verb (mainBlock l s) := by
  refine ⟨h.userID, fun v hv => ?_⟩
  obtain ⟨v', hv', rfl⟩ := Option.map_eq_some_iff.mp hv
  rw [colorButtonOnStart_verb]
  exact h.view v' hv'

theorem loaded_shows (user : String) (verb : IrregularVerb) (d : Document) :
    Shows user verb (loaded user (some verb) d) := by
  have h := viewDidLoad_shows user verb
  exact mainBlock_shows ⟨h.userID, h.view⟩

theorem loaded_owned (user id : String) (verb : Option IrregularVerb) (d : Document) :
    Owned id (loaded user verb d) := by
  constructor <;> simp [loaded, mainBlock, globalBlock, viewDidLoad, onViewDidLoad, getDocuments]

theorem callback_presenter (query : Query) (documents : List Document) (s : Screen) :
    (callback query documents s).presenter = s.presenter := by
  cases query <;> rfl

theorem act_shows {user : String} {verb : IrregularVerb} {documents documents' : List Document}
    {s t : Screen} {e : Event} (h : Shows user verb s)
    (ha : act documents s e = some (documents', t)) : Shows user verb t := by
  cases act_cases ha with
  | tap _ =>
    rw [addToFavorites_eq]
    exact h.of_presenter rfl
  | back => exact ⟨h.userID, by simp⟩
  | callback _ => exact h.of_presenter (callback_presenter _ _ _)
  | globalBlock _ => exact ⟨h.userID, h.view⟩
  | mainBlock _ => exact mainBlock_shows (h.of_presenter rfl)
  | _ => exact h.of_presenter rfl

/-- A tap on a screen that shows a verb asks to change this verb, and to load again. -/
theorem Shows.tapQueries {user name : String} {verb : IrregularVerb} {s : Screen}
    (h : Shows user verb s) (hname : verb.infinitive = some name) (hview : s.presenter.view.isSome) :
    s.presenter.tapQueries =
      [toggleQuery name (s.presenter.favoritesVerbs.contains name), .load .repeatDownloadFavoriteVerbs] := by
  obtain ⟨v, hv⟩ := Option.isSome_iff_exists.mp hview
  unfold DetailsPresenter.tapQueries DetailsPresenter.infinitive
  simp [h.userID, hv, h.view v hv, hname]

/-! ## The queries that change the favourites -/

/-- The queries on their way that change the favourites. -/
def Screen.toggles (s : Screen) : List Query := s.queries.filter (·.isToggle)

/-- The update of a verb that is a favourite, or is none. -/
def toggleUpdate (verb : String) (favorite : Bool) : Update String :=
  if favorite then .remove verb else .add verb

@[simp] theorem toggleQuery_isToggle (verb : String) (favorite : Bool) :
    (toggleQuery verb favorite).isToggle = true := by
  cases favorite <;> rfl

@[simp] theorem load_isToggle (l : Load) : (Query.load l).isToggle = false := rfl

theorem callback_toggleQuery (verb : String) (favorite : Bool) (documents : List Document) (s : Screen) :
    callback (toggleQuery verb favorite) documents s =
      { s with writes := s.writes ++ documents.map fun document =>
          writeOf document.documentID (toggleUpdate verb favorite) } := by
  cases favorite <;> rfl

/-- The toggles of a screen around one of its queries. -/
theorem toggles_split {s : Screen} {i : Nat} {query : Query} {read : Option (List Document)}
    (h : s.requests[i]? = some ⟨query, read⟩) :
    ∃ before after, s.toggles = before ++ [query].filter (·.isToggle) ++ after ∧
      { s with requests := s.requests.eraseIdx i }.toggles = before ++ after ∧
      ∀ read', { s with requests := s.requests.set i ⟨query, read'⟩ }.toggles = s.toggles := by
  obtain ⟨before, after, hl, herase, hset⟩ := split_at h
  refine ⟨(before.map (·.callback)).filter (·.isToggle), (after.map (·.callback)).filter (·.isToggle), ?_, ?_, ?_⟩
  · unfold Screen.toggles Screen.queries
    rw [hl, List.map_append, List.map_cons, ← List.singleton_append, List.filter_append,
      List.filter_append, List.append_assoc]
  · unfold Screen.toggles Screen.queries
    rw [herase, List.map_append, List.filter_append]
  · intro read'
    unfold Screen.toggles Screen.queries
    dsimp only
    rw [hset, hl, List.map_append, List.map_append, List.map_cons, List.map_cons]

/-- A screen with no toggle on its way. -/
theorem toggles_erase_nil {s : Screen} {i : Nat} {query : Query} {read : Option (List Document)}
    (h : s.requests[i]? = some ⟨query, read⟩) (hnil : s.toggles = []) :
    query.isToggle = false ∧ { s with requests := s.requests.eraseIdx i }.toggles = [] := by
  obtain ⟨before, after, hs, herase, _⟩ := toggles_split h
  rw [hnil, eq_comm, List.append_eq_nil_iff, List.append_eq_nil_iff] at hs
  obtain ⟨⟨rfl, hq⟩, rfl⟩ := hs
  exact ⟨by simpa using hq, herase⟩

/-- A screen with one toggle on its way: a callback is the toggle's, or a load's. -/
theorem toggles_erase_one {s : Screen} {i : Nat} {query toggle : Query} {read : Option (List Document)}
    (h : s.requests[i]? = some ⟨query, read⟩) (hone : s.toggles = [toggle]) :
    query = toggle ∧ { s with requests := s.requests.eraseIdx i }.toggles = [] ∨
      query.isToggle = false ∧ { s with requests := s.requests.eraseIdx i }.toggles = [toggle] := by
  obtain ⟨before, after, hs, herase, _⟩ := toggles_split h
  rw [hone] at hs
  cases hq : query.isToggle with
  | true =>
    rw [List.filter_singleton, hq, cond_true, List.append_assoc, eq_comm, List.append_eq_singleton_iff] at hs
    rcases hs with ⟨rfl, hs⟩ | ⟨_, hs⟩
    · simp only [List.singleton_append, List.cons.injEq] at hs
      obtain ⟨rfl, rfl⟩ := hs
      exact Or.inl ⟨rfl, herase⟩
    · simp at hs
  | false =>
    rw [List.filter_singleton, hq, cond_false, List.append_nil] at hs
    exact Or.inr ⟨rfl, by rw [herase, ← hs]⟩

/-! ## A tap that nothing crosses -/

/-- A tap, and then all that it causes: the write is applied before the load reads. -/
def tapAndWait (before after : Document) : List Event :=
  [.addToFavoritesButton, .served 0 [before], .callback 0, .applied 0, .served 0 [after], .callback 0,
    .globalBlock 0, .mainBlock 0]

/-- On a screen at rest such a run exists: it stores the update, and the load finds it. -/
theorem exec_tapAndWait {user name : String} {verb : IrregularVerb} {d d' : Document} {s : Screen}
    (hshows : Shows user verb s) (hname : verb.infinitive = some name) (hview : s.presenter.view.isSome)
    (hdrained : Drained s)
    (happly : (writeOf d.documentID
      (toggleUpdate name (s.presenter.favoritesVerbs.contains name))).applyTo [d] = [d']) :
    exec (solo act) ([d], s) (tapAndWait d d') =
      some ([d'], mainBlock .repeatDownloadFavoriteVerbs
        { globalBlock .repeatDownloadFavoriteVerbs d' s with mainBlocks := [] }) := by
  obtain ⟨p, requests, globalBlocks, mainBlocks, writes⟩ := s
  obtain ⟨rfl, rfl, rfl, rfl⟩ := hdrained
  have htap := addToFavorites_eq { presenter := p }
  rw [hshows.tapQueries hname hview] at htap
  dsimp only at hview happly htap
  simp only [tapAndWait, exec, solo, act, Screen.step, hview, if_true, htap, serve, callback_toggleQuery,
    Option.map_some, Option.bind_some, List.map_cons, List.map_nil, List.nil_append, List.set_cons_zero,
    List.getElem?_cons_zero, List.eraseIdx_cons_zero, happly]
  simp [callback, globalBlock]

end EasyVerbs.Details
