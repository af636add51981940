-- The AllVerbs screen and the Favorites screen, with what they wait for. Each of
-- them is the table with the search bar, and some steps that the table does
-- not see.
import EasyVerbs.Runs
import EasyVerbs.SearchTable

open Runs

namespace EasyVerbs

open Search

/-! ## AllVerbs -/

namespace AllVerbs

/-- `AllVerbsViewController` with its `AllVerbsPresenter`. -/
structure Screen extends SearchTable where
  download : Download := .waiting
  deriving DecidableEq, Repr

def Screen.allVerbs (s : Screen) : List IrregularVerb := s.source

def Screen.tableViewNumberOfRowsInSection (s : Screen) : Nat :=
  s.toSearchTable.tableViewNumberOfRowsInSection

def Screen.currentVerbs (s : Screen) (row : Nat) : Option IrregularVerb :=
  s.toSearchTable.currentVerbs row

/-- The results are taken before the download is there. -/
def onViewDidLoad (s : Screen) : Screen :=
  { s with resaltsOfSearch := s.allVerbs, download := .waiting }

def viewDidLoad : Screen := onViewDidLoad {}

def doSerchText (text : String) (s : Screen) : Screen :=
  { s with toSearchTable := s.toSearchTable.doSearchText text }

inductive Event
  | table (e : SearchTable.Event)
  | downloadAnswered (json : Option (List IrregularVerb))
  | downloadDelivered
  deriving DecidableEq, Repr

def Screen.step (s : Screen) : Event → Option Screen
  | .table (.textDidChange searchText) => some (doSerchText searchText { s with searchText := searchText })
  | .table e => (s.toSearchTable.step e).map fun t => { s with toSearchTable := t }
  | .downloadAnswered json => (s.download.answered json).map fun d => { s with download := d }
  | .downloadDelivered =>
    match s.download with
    | .decoded json => some { s with toSearchTable := s.toSearchTable.delivered json, download := .over }
    | _ => none

/-- What the table sees of an event. -/
def seen (s : Screen) : Event → Option SearchTable.Change
  | .table e => some (.event e)
  | .downloadAnswered _ => none
  | .downloadDelivered =>
    match s.download with
    | .decoded json => some (.delivered json)
    | _ => none

theorem step_seen : Simulates Screen.step SearchTable.change Screen.toSearchTable seen := by
  intro s e t hs
  cases e with
  | table e =>
    have hstep : (s.toSearchTable.step e).map (fun t => { s with toSearchTable := t }) = some t := by
      cases e <;> exact hs
    obtain ⟨t', ht', rfl⟩ := Option.map_eq_some_iff.mp hstep
    exact ht'
  | downloadAnswered json =>
    obtain ⟨d, _, rfl⟩ := Option.map_eq_some_iff.mp hs
    rfl
  | downloadDelivered =>
    unfold Screen.step at hs
    cases hd : s.download with
    | decoded json =>
      simp only [hd, Option.some.injEq] at hs
      subst hs
      simp only [seen, hd]
      rfl
    | _ => simp [hd] at hs

/-- No download and no search is on its way, and no block waits on the main queue. -/
def Screen.Still (s : Screen) : Prop :=
  s.download = .over ∧ s.searchOperationQueue = {} ∧ s.reloads = 0

instance (s : Screen) : Decidable s.Still :=
  inferInstanceAs (Decidable (s.download = .over ∧ s.searchOperationQueue = {} ∧ s.reloads = 0))

end AllVerbs

/-! ## Favorites -/

namespace FavoriteVerbs

inductive Query
  | favoritesVerbsFromFirebase
  deriving DecidableEq, Repr

/-- `FavoriteVerbsViewController` with its `FavoriteVerbsPresenter`. `blocks` are the
main-queue blocks of the query. -/
structure Screen extends SearchTable where
  userID : Option String
  allVerbs : List IrregularVerb := []
  favoritesVerbs : List String := []
  download : Download := .waiting
  requests : List (Request Query) := []
  blocks : List Document := []
  deriving DecidableEq, Repr

def Screen.userFavorite (s : Screen) : List IrregularVerb := s.source

def Screen.tableViewNumberOfRowsInSection (s : Screen) : Nat :=
  s.toSearchTable.tableViewNumberOfRowsInSection

def Screen.currentVerbs (s : Screen) (row : Nat) : Option IrregularVerb :=
  s.toSearchTable.currentVerbs row

/-- The results are taken before the download is there. -/
def onViewDidLoad (s : Screen) : Screen :=
  { s with resaltsOfSearch := s.userFavorite, download := .waiting }

def viewDidLoad (userID : Option String) : Screen := onViewDidLoad { userID := userID }

def favoritesVerbsFromFirebase (s : Screen) : Screen :=
  match s.userID with
  | none => s
  | some _ => { s with requests := s.requests ++ [{ callback := .favoritesVerbsFromFirebase }] }

/-- An entry with no infinitive is looked up as the empty string. -/
def filterByFavorite (s : Screen) : List IrregularVerb :=
  s.allVerbs.filter fun v => s.favoritesVerbs.contains (v.infinitive.getD "")

/-- The main-queue block of `favoritesVerbsFromFirebase`. -/
def favoritesBlock (document : Document) (s : Screen) : Screen :=
  let s := { s with favoritesVerbs := document.favoritesVerbs }
  { s with toSearchTable := s.toSearchTable.delivered (filterByFavorite s) }

def doSearchText (text : String) (s : Screen) : Screen :=
  { s with toSearchTable := s.toSearchTable.doSearchText text }

inductive Event
  | table (e : SearchTable.Event)
  | downloadAnswered (json : Option (List IrregularVerb))
  | downloadDelivered
  /-- The server reads these documents for the query with number `i`. -/
  | served (i : Nat) (documents : List Document)
  | callback (i : Nat)
  /-- The callback gets an error, and only prints it. -/
  | failed (i : Nat)
  | favoritesBlock (i : Nat)
  deriving DecidableEq, Repr

def Screen.step (s : Screen) : Event → Option Screen
  | .table (.textDidChange searchText) => some (doSearchText searchText { s with searchText := searchText })
  | .table e => (s.toSearchTable.step e).map fun t => { s with toSearchTable := t }
  | .downloadAnswered json => (s.download.answered json).map fun d => { s with download := d }
  | .downloadDelivered =>
    match s.download with
    | .decoded json => some (favoritesVerbsFromFirebase { s with allVerbs := json, download := .over })
    | _ => none
  | .served i documents => (serve documents i s.requests).map fun rs => { s with requests := rs }
  | .callback i =>
    match s.requests[i]? with
    | some ⟨_, some documents⟩ =>
      some { s with requests := s.requests.eraseIdx i, blocks := s.blocks ++ documents }
    | _ => none
  | .failed i =>
    if i < s.requests.length then some { s with requests := s.requests.eraseIdx i } else none
  | .favoritesBlock i =>
    match s.blocks[i]? with
    | some document =>
      some (FavoriteVerbs.favoritesBlock document { s with blocks := s.blocks.eraseIdx i })
    | none => none

inductive Step (s : Screen) : Event → Screen → Prop
  | table {e : SearchTable.Event} {t : SearchTable} (htable : s.toSearchTable.step e = some t) :
      Step s (.table e) { s with toSearchTable := t }
  | downloadAnswered {json : Option (List IrregularVerb)} {d : Download}
      (hanswered : s.download.answered json = some d) :
      Step s (.downloadAnswered json) { s with download := d }
  | downloadDelivered {json : List IrregularVerb} (hdecoded : s.download = .decoded json) :
      Step s .downloadDelivered (favoritesVerbsFromFirebase { s with allVerbs := json, download := .over })
  | served {i : Nat} {query : Query} {documents : List Document}
      (hquery : s.requests[i]? = some ⟨query, none⟩) :
      Step s (.served i documents) { s with requests := s.requests.set i ⟨query, some documents⟩ }
  | callback {i : Nat} {query : Query} {documents : List Document}
      (hquery : s.requests[i]? = some ⟨query, some documents⟩) :
      Step s (.callback i) { s with requests := s.requests.eraseIdx i, blocks := s.blocks ++ documents }
  | failed {i : Nat} : Step s (.failed i) { s with requests := s.requests.eraseIdx i }
  | favoritesBlock {i : Nat} {document : Document} (hblock : s.blocks[i]? = some document) :
      Step s (.favoritesBlock i)
        (FavoriteVerbs.favoritesBlock document { s with blocks := s.blocks.eraseIdx i })

theorem step_cases {s t : Screen} {e : Event} (hs : s.step e = some t) : Step s e t := by
  cases e with
  | table e =>
    have hstep : (s.toSearchTable.step e).map (fun t => { s with toSearchTable := t }) = some t := by
      cases e <;> exact hs
    obtain ⟨t', ht', rfl⟩ := Option.map_eq_some_iff.mp hstep
    exact .table ht'
  | downloadAnswered json =>
    obtain ⟨d, hanswered, rfl⟩ := Option.map_eq_some_iff.mp hs
    exact .downloadAnswered hanswered
  | downloadDelivered =>
    unfold Screen.step at hs
    dsimp only at hs
    split at hs
    · rename_i json hdecoded
      cases hs
      exact .downloadDelivered hdecoded
    · cases hs
  | served i documents =>
    obtain ⟨rs, hserve, rfl⟩ := Option.map_eq_some_iff.mp hs
    obtain ⟨query, hquery, rfl⟩ := serve_eq_some hserve
    exact .served hquery
  | callback i =>
    unfold Screen.step at hs
    dsimp only at hs
    split at hs
    · rename_i query documents hquery
      cases hs
      exact .callback hquery
    · cases hs
  | failed i =>
    simp only [Screen.step, Option.ite_none_right_eq_some, Option.some.injEq] at hs
    obtain ⟨_, rfl⟩ := hs
    exact .failed
  | favoritesBlock i =>
    unfold Screen.step at hs
    dsimp only at hs
    split at hs
    · rename_i document hblock
      cases hs
      exact .favoritesBlock hblock
    · cases hs

/-- What the table sees of an event: only a block with the favourites changes its list. -/
def seen (s : Screen) : Event → Option SearchTable.Change
  | .table e => some (.event e)
  | .favoritesBlock i => s.blocks[i]?.map fun document =>
      .delivered (filterByFavorite { s with favoritesVerbs := document.favoritesVerbs })
  | _ => none

theorem favoritesVerbsFromFirebase_table (s : Screen) :
    (favoritesVerbsFromFirebase s).toSearchTable = s.toSearchTable := by
  unfold favoritesVerbsFromFirebase
  split <;> rfl

theorem step_seen : Simulates Screen.step SearchTable.change Screen.toSearchTable seen := by
  intro s e t hs
  cases step_cases hs with
  | table htable => exact htable
  | downloadDelivered _ => exact favoritesVerbsFromFirebase_table _
  | favoritesBlock hblock =>
    simp only [seen, hblock]
    rfl
  | _ => rfl

/-- Nothing is on its way to the screen. -/
def Screen.Still (s : Screen) : Prop :=
  s.download = .over ∧ s.requests = [] ∧ s.blocks = [] ∧ s.searchOperationQueue = {} ∧ s.reloads = 0

instance (s : Screen) : Decidable s.Still :=
  inferInstanceAs (Decidable (s.download = .over ∧ s.requests = [] ∧ s.blocks = [] ∧
    s.searchOperationQueue = {} ∧ s.reloads = 0))

end FavoriteVerbs

/-! ## The runs that the table sees -/

theorem AllVerbs.run_table {h : List (AllVerbs.Screen × AllVerbs.Event)} {s : AllVerbs.Screen}
    (hr : Run AllVerbs.Screen.step AllVerbs.viewDidLoad h s) :
    Run SearchTable.change {} (project AllVerbs.Screen.toSearchTable AllVerbs.seen h) s.toSearchTable :=
  hr.project AllVerbs.step_seen

theorem FavoriteVerbs.run_table {userID : Option String}
    {h : List (FavoriteVerbs.Screen × FavoriteVerbs.Event)} {s : FavoriteVerbs.Screen}
    (hr : Run FavoriteVerbs.Screen.step (FavoriteVerbs.viewDidLoad userID) h s) :
    Run SearchTable.change {} (project FavoriteVerbs.Screen.toSearchTable FavoriteVerbs.seen h) s.toSearchTable :=
  hr.project FavoriteVerbs.step_seen

end EasyVerbs
