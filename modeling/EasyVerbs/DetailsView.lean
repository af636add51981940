-- The Details screen of one verb: `DetailsView` and its `DetailsPresenter`, with
-- what they wait for. The favourites come by a query, then a block on a global
-- queue stores them, and then a block on the main queue colours the button.
import EasyVerbs.Backend
import EasyVerbs.Parties

namespace EasyVerbs.Details

/-! ## The view and the presenter -/

inductive Border
  | white
  | projectColor
  deriving DecidableEq, Repr

/-- `favoritesButton` is the border of that button. -/
structure DetailsView where
  verbFromDelegate : Option IrregularVerb
  favoritesButton : Border := .white
  deriving DecidableEq, Repr

def DetailsView.createBorderWhiteColor (v : DetailsView) : DetailsView :=
  { v with favoritesButton := .white }

def DetailsView.createBorderProjectColor (v : DetailsView) : DetailsView :=
  { v with favoritesButton := .projectColor }

def DetailsView.colorButtonOnStart (favoriteOrNot : Bool) (v : DetailsView) : DetailsView :=
  if favoriteOrNot then v.createBorderWhiteColor else v.createBorderProjectColor

/-- The `view` is weak: it is none when the screen is gone. -/
structure DetailsPresenter where
  view : Option DetailsView
  userID : Option String
  favoritesVerbs : List String := []
  deriving DecidableEq, Repr

/-- `view?.verbFromDelegate?.infinitive`. -/
def DetailsPresenter.infinitive (p : DetailsPresenter) : Option String :=
  (p.view.bind (·.verbFromDelegate)).bind (·.infinitive)

/-- True when the verb is not a favourite yet. -/
def DetailsPresenter.favoriteOrNot (p : DetailsPresenter) : Bool :=
  if p.favoritesVerbs.contains (p.infinitive.getD "please reload app") then false else true

/-- True when the verb is a favourite. -/
def DetailsPresenter.repeatFavoriteOrNot (p : DetailsPresenter) : Bool :=
  if p.favoritesVerbs.contains (p.infinitive.getD "please reload app") then true else false

/-! ## The screen -/

/-- The two methods that read the favourites. -/
inductive Load
  | onViewDidLoad
  | repeatDownloadFavoriteVerbs
  deriving DecidableEq, Repr

inductive Query
  | load (l : Load)
  | addFavoriteVerbs (verb : String)
  | deleteFavoriteVerbs (verb : String)
  deriving DecidableEq, Repr

/-- A presenter with what is outstanding: its queries, the blocks of its loads on the global
queue and on the main queue, and the writes that the server did not apply yet. -/
structure Screen where
  presenter : DetailsPresenter
  requests : List (Request Query) := []
  globalBlocks : List (Load × Document) := []
  mainBlocks : List Load := []
  writes : List Write := []
  deriving DecidableEq, Repr

/-- The query of the user's documents, which needs a user. -/
def getDocuments (query : Query) (s : Screen) : Screen :=
  match s.presenter.userID with
  | none => s
  | some _ => { s with requests := s.requests ++ [{ callback := query }] }

def onViewDidLoad (s : Screen) : Screen := getDocuments (.load .onViewDidLoad) s

/-- `DetailsFactory.make` and `viewDidLoad`. -/
def viewDidLoad (userID : Option String) (verb : Option IrregularVerb) : Screen :=
  let view := DetailsView.createBorderWhiteColor { verbFromDelegate := verb }
  onViewDidLoad { presenter := { view := some view, userID := userID } }

def repeatDownloadFavoriteVerbs (s : Screen) : Screen :=
  getDocuments (.load .repeatDownloadFavoriteVerbs) s

def addFavoriteVerbs (s : Screen) : Screen :=
  match s.presenter.infinitive with
  | none => s
  | some verb => getDocuments (.addFavoriteVerbs verb) s

def deleteFavoriteVerbs (s : Screen) : Screen :=
  match s.presenter.infinitive with
  | none => s
  | some verb => getDocuments (.deleteFavoriteVerbs verb) s

def addToFavorites (s : Screen) : Screen :=
  if s.presenter.favoriteOrNot then
    repeatDownloadFavoriteVerbs (addFavoriteVerbs s)
  else
    repeatDownloadFavoriteVerbs (deleteFavoriteVerbs s)

/-- `document.reference.updateData(["favoritesVerbs": FieldValue.arrayUnion([verb])])`. -/
def addWrite (verb documentID : String) : Write := ⟨documentID, "favoritesVerbs", .arrayUnion [verb]⟩

/-- `document.reference.updateData(["favoritesVerbs": FieldValue.arrayRemove([verb])])`. -/
def deleteWrite (verb documentID : String) : Write := ⟨documentID, "favoritesVerbs", .arrayRemove [verb]⟩

def callback (query : Query) (documents : List Document) (s : Screen) : Screen :=
  match query with
  | .load l => { s with globalBlocks := s.globalBlocks ++ documents.map (l, ·) }
  | .addFavoriteVerbs verb =>
    { s with writes := s.writes ++ documents.map fun document => addWrite verb document.documentID }
  | .deleteFavoriteVerbs verb =>
    { s with writes := s.writes ++ documents.map fun document => deleteWrite verb document.documentID }

def globalBlock (l : Load) (document : Document) (s : Screen) : Screen :=
  { s with
    presenter := { s.presenter with favoritesVerbs := document.favoritesVerbs }
    mainBlocks := s.mainBlocks ++ [l] }

/-- What a load gives to `colorButtonOnStart`. -/
def Load.favoriteOrNot (l : Load) (p : DetailsPresenter) : Bool :=
  match l with
  | .onViewDidLoad => p.favoriteOrNot
  | .repeatDownloadFavoriteVerbs => p.repeatFavoriteOrNot

def mainBlock (l : Load) (s : Screen) : Screen :=
  { s with presenter := { s.presenter with
      view := s.presenter.view.map fun v => v.colorButtonOnStart (l.favoriteOrNot s.presenter) } }

/-! ## The events -/

inductive Event
  | addToFavoritesButton
  | backButtonDidTap
  /-- The server reads these documents for the query with number `i`. -/
  | served (i : Nat) (documents : List Document)
  | callback (i : Nat)
  /-- The callback gets an error, and only prints it. -/
  | failed (i : Nat)
  | globalBlock (i : Nat)
  | mainBlock (i : Nat)
  | applied (i : Nat)
  | rejected (i : Nat)
  deriving DecidableEq, Repr

/-- The screen after an event, or none when the event cannot happen. -/
def Screen.step (s : Screen) : Event → Option Screen
  | .addToFavoritesButton => if s.presenter.view.isSome then some (addToFavorites s) else none
  | .backButtonDidTap =>
    if s.presenter.view.isSome then some { s with presenter := { s.presenter with view := none } }
    else none
  | .served i documents => (serve documents i s.requests).map fun rs => { s with requests := rs }
  | .callback i =>
    match s.requests[i]? with
    | some ⟨query, some documents⟩ =>
      some (Details.callback query documents { s with requests := s.requests.eraseIdx i })
    | _ => none
  | .failed i =>
    if i < s.requests.length then some { s with requests := s.requests.eraseIdx i } else none
  | .globalBlock i =>
    match s.globalBlocks[i]? with
    | some (l, document) =>
      some (Details.globalBlock l document { s with globalBlocks := s.globalBlocks.eraseIdx i })
    | none => none
  | .mainBlock i =>
    match s.mainBlocks[i]? with
    | some l => some (Details.mainBlock l { s with mainBlocks := s.mainBlocks.eraseIdx i })
    | none => none
  | .applied i => if i < s.writes.length then some { s with writes := s.writes.eraseIdx i } else none
  | .rejected i => if i < s.writes.length then some { s with writes := s.writes.eraseIdx i } else none

def act (documents : List Document) (s : Screen) (e : Event) : Option (List Document × Screen) :=
  match e with
  | .served i read => if read = documents then (s.step (.served i read)).map (documents, ·) else none
  | .applied i =>
    match s.writes[i]? with
    | some w => (s.step (.applied i)).map (w.applyTo documents, ·)
    | none => none
  | e => (s.step e).map (documents, ·)

/-! ## What a step can do -/

/-- What an act does to the documents and to the screen. -/
inductive Act (documents : List Document) (s : Screen) : Event → List Document → Screen → Prop
  | tap (hview : s.presenter.view.isSome) :
      Act documents s .addToFavoritesButton documents (addToFavorites s)
  | back : Act documents s .backButtonDidTap documents
      { s with presenter := { s.presenter with view := none } }
  | served {i : Nat} {query : Query} (hquery : s.requests[i]? = some ⟨query, none⟩) :
      Act documents s (.served i documents) documents
        { s with requests := s.requests.set i ⟨query, some documents⟩ }
  | callback {i : Nat} {query : Query} {read : List Document}
      (hquery : s.requests[i]? = some ⟨query, some read⟩) :
      Act documents s (.callback i) documents
        (Details.callback query read { s with requests := s.requests.eraseIdx i })
  | failed {i : Nat} (hi : i < s.requests.length) :
      Act documents s (.failed i) documents { s with requests := s.requests.eraseIdx i }
  | globalBlock {i : Nat} {l : Load} {document : Document}
      (hblock : s.globalBlocks[i]? = some (l, document)) :
      Act documents s (.globalBlock i) documents
        (Details.globalBlock l document { s with globalBlocks := s.globalBlocks.eraseIdx i })
  | mainBlock {i : Nat} {l : Load} (hblock : s.mainBlocks[i]? = some l) :
      Act documents s (.mainBlock i) documents
        (Details.mainBlock l { s with mainBlocks := s.mainBlocks.eraseIdx i })
  | applied {i : Nat} {w : Write} (hwrite : s.writes[i]? = some w) :
      Act documents s (.applied i) (w.applyTo documents) { s with writes := s.writes.eraseIdx i }
  | rejected {i : Nat} (hi : i < s.writes.length) :
      Act documents s (.rejected i) documents { s with writes := s.writes.eraseIdx i }

theorem act_cases {documents documents' : List Document} {s t : Screen} {e : Event}
    (ha : act documents s e = some (documents', t)) : Act documents s e documents' t := by
  cases e with
  | addToFavoritesButton =>
    simp only [act, Screen.step, Option.map_eq_some_iff, Option.ite_none_right_eq_some,
      Option.some.injEq, Prod.mk.injEq] at ha
    obtain ⟨_, ⟨hview, rfl⟩, rfl, rfl⟩ := ha
    exact .tap hview
  | backButtonDidTap =>
    simp only [act, Screen.step, Option.map_eq_some_iff, Option.ite_none_right_eq_some,
      Option.some.injEq, Prod.mk.injEq] at ha
    obtain ⟨_, ⟨_, rfl⟩, rfl, rfl⟩ := ha
    exact .back
  | served i read =>
    simp only [act, Screen.step, Option.ite_none_right_eq_some, Option.map_eq_some_iff,
      Prod.mk.injEq] at ha
    obtain ⟨rfl, _, ⟨rs, hserve, rfl⟩, rfl, rfl⟩ := ha
    obtain ⟨query, hquery, rfl⟩ := serve_eq_some hserve
    exact .served hquery
  | callback i =>
    simp only [act, Screen.step, Option.map_eq_some_iff] at ha
    obtain ⟨_, hs, ht⟩ := ha
    split at hs
    · rename_i query read hquery
      cases hs
      cases ht
      exact .callback hquery
    · cases hs
  | failed i =>
    simp only [act, Screen.step, Option.map_eq_some_iff, Option.ite_none_right_eq_some,
      Option.some.injEq, Prod.mk.injEq] at ha
    obtain ⟨_, ⟨hi, rfl⟩, rfl, rfl⟩ := ha
    exact .failed hi
  | globalBlock i =>
    simp only [act, Screen.step, Option.map_eq_some_iff] at ha
    obtain ⟨_, hs, ht⟩ := ha
    split at hs
    · rename_i l document hblock
      cases hs
      cases ht
      exact .globalBlock hblock
    · cases hs
  | mainBlock i =>
    simp only [act, Screen.step, Option.map_eq_some_iff] at ha
    obtain ⟨_, hs, ht⟩ := ha
    split at hs
    · rename_i l hblock
      cases hs
      cases ht
      exact .mainBlock hblock
    · cases hs
  | applied i =>
    unfold act at ha
    dsimp only at ha
    split at ha
    · rename_i w hwrite
      simp only [Screen.step, Option.map_eq_some_iff, Option.ite_none_right_eq_some,
        Option.some.injEq, Prod.mk.injEq] at ha
      obtain ⟨_, ⟨_, rfl⟩, rfl, rfl⟩ := ha
      exact .applied hwrite
    · cases ha
  | rejected i =>
    simp only [act, Screen.step, Option.map_eq_some_iff, Option.ite_none_right_eq_some,
      Option.some.injEq, Prod.mk.injEq] at ha
    obtain ⟨_, ⟨hi, rfl⟩, rfl, rfl⟩ := ha
    exact .rejected hi

/-! ## The queries of a tap -/

/-- The query that changes the favourites: it adds a verb that is not there yet. -/
def toggleQuery (verb : String) (favorite : Bool) : Query :=
  if favorite then .deleteFavoriteVerbs verb else .addFavoriteVerbs verb

def Query.isToggle : Query → Bool
  | .load _ => false
  | .addFavoriteVerbs _ | .deleteFavoriteVerbs _ => true

def Screen.queries (s : Screen) : List Query := s.requests.map (·.callback)

/-- The queries of a tap: the change of the favourites, and a load next to it. -/
def DetailsPresenter.tapQueries (p : DetailsPresenter) : List Query :=
  match p.userID with
  | none => []
  | some _ => (p.infinitive.map fun verb => toggleQuery verb (p.favoritesVerbs.contains verb)).toList ++
      [.load .repeatDownloadFavoriteVerbs]

theorem addToFavorites_eq (s : Screen) :
    addToFavorites s =
      { s with requests := s.requests ++ s.presenter.tapQueries.map fun q => { callback := q } } := by
  unfold addToFavorites addFavoriteVerbs deleteFavoriteVerbs repeatDownloadFavoriteVerbs getDocuments
    DetailsPresenter.tapQueries DetailsPresenter.favoriteOrNot
  cases hv : s.presenter.infinitive with
  | none => cases s.presenter.userID <;> simp
  | some verb =>
    by_cases hf : verb ∈ s.presenter.favoritesVerbs
    · cases hu : s.presenter.userID <;> simp [hu, hf, toggleQuery]
    · cases hu : s.presenter.userID <;> simp [hu, hf, toggleQuery]

end EasyVerbs.Details
