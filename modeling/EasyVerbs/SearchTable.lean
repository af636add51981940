-- The table and the search bar that the AllVerbs and the Favorites screen have
-- alike: the flag of the search, the results, the queue of the searches, and the
-- row count that the table read last. Only the list they search in is different.
import EasyVerbs.Backend

namespace EasyVerbs.Search

/-! ## The queue -/

/-- An operation that runs: its text, and the list that it searches once it has read it. -/
structure Operation where
  text : String
  read : Option (List IrregularVerb) := none
  deriving DecidableEq, Repr

/-- `searchOperationQueue`, with a `maxConcurrentOperationCount` of 1. -/
structure OperationQueue where
  waiting : List String := []
  running : Option Operation := none
  deriving DecidableEq, Repr

/-- What waits is gone. The operation that runs goes on to its end. -/
def OperationQueue.cancelAllOperations (q : OperationQueue) : OperationQueue :=
  { q with waiting := [] }

def OperationQueue.addOperation (text : String) (q : OperationQueue) : OperationQueue :=
  { q with waiting := q.waiting ++ [text] }

/-! ## The filter -/

/-- `infinitive.starts(with: text)`, which compares Swift characters. -/
def startsWith (text infinitive : String) : Bool := text.toList.isPrefixOf infinitive.toList

/-- `filter { $0.infinitive!.starts(with: text) }`, or none when it unwraps a nil. -/
def searchFilter (text : String) : List IrregularVerb → Option (List IrregularVerb)
  | [] => some []
  | v :: vs =>
    match v.infinitive with
    | none => none
    | some infinitive =>
      (searchFilter text vs).map fun found => if startsWith text infinitive then v :: found else found

/-- The entry has an infinitive that starts with the text. -/
def found (text : String) (v : IrregularVerb) : Bool := v.infinitive.any (startsWith text)

theorem searchFilter_eq_some {text : String} {vs results : List IrregularVerb}
    (h : searchFilter text vs = some results) : results = vs.filter (found text) := by
  induction vs generalizing results with
  | nil => simpa [searchFilter] using h.symm
  | cons v vs ih =>
    unfold searchFilter at h
    cases hv : v.infinitive with
    | none => simp [hv] at h
    | some infinitive =>
      simp only [hv, Option.map_eq_some_iff] at h
      obtain ⟨rest, hrest, rfl⟩ := h
      rw [ih hrest, List.filter_cons]
      simp [found, hv]

/-- The search does not trap on a list with all infinitives. -/
theorem searchFilter_of_infinitives {text : String} {vs : List IrregularVerb}
    (h : ∀ v ∈ vs, v.infinitive ≠ none) : searchFilter text vs = some (vs.filter (found text)) := by
  induction vs with
  | nil => rfl
  | cons v vs ih =>
    unfold searchFilter
    cases hv : v.infinitive with
    | none => exact absurd hv (h v (by simp))
    | some infinitive =>
      dsimp only
      rw [ih fun v hv => h v (by simp [hv]), List.filter_cons]
      simp [found, hv]

/-! ## The table -/

/-- `source` is `allVerbs` on the one screen and `userFavorite` on the other. `rows` is what
the table read at its last `reloadData`, and `reloads` are the main-queue blocks of searches
that ended. -/
structure SearchTable where
  isSearchInProgress : Bool := false
  searchText : String := ""
  rows : Nat := 0
  resaltsOfSearch : List IrregularVerb := []
  source : List IrregularVerb := []
  searchOperationQueue : OperationQueue := {}
  reloads : Nat := 0
  deriving DecidableEq, Repr

namespace SearchTable

def tableViewNumberOfRowsInSection (t : SearchTable) : Nat :=
  if t.isSearchInProgress then t.resaltsOfSearch.length else t.source.length

/-- The verb of a row, or none when the row is past the end of the list. -/
def currentVerbs (t : SearchTable) (row : Nat) : Option IrregularVerb :=
  if t.isSearchInProgress then t.resaltsOfSearch[row]? else t.source[row]?

def reloadData (t : SearchTable) : SearchTable :=
  { t with rows := t.tableViewNumberOfRowsInSection }

def doSearchText (text : String) (t : SearchTable) : SearchTable :=
  { t with searchOperationQueue :=
      t.searchOperationQueue.cancelAllOperations.addOperation text }

def searchBarShouldBeginEditing (t : SearchTable) : SearchTable :=
  { t with isSearchInProgress := true }

def textDidChange (searchText : String) (t : SearchTable) : SearchTable :=
  doSearchText searchText { t with searchText := searchText }

def searchBarCancelButtonClicked (t : SearchTable) : SearchTable :=
  reloadData { t with searchText := "", isSearchInProgress := false }

/-- The list comes from the server, and the table reads it again. -/
def delivered (source : List IrregularVerb) (t : SearchTable) : SearchTable :=
  reloadData { t with source := source }

/-! ## The events -/

inductive Event
  | searchBarShouldBeginEditing
  | textDidChange (searchText : String)
  | searchBarCancelButtonClicked
  /-- The next operation starts on the queue. -/
  | operationStarts
  /-- The operation reads the list that it searches. -/
  | operationReads
  /-- The operation stores its results and puts a reload on the main queue. -/
  | operationEnds
  /-- The main-queue block of a search reloads the table. -/
  | reloadTableView
  deriving DecidableEq, Repr

/-- The table after an event, or none when the event cannot happen. A search that traps has
no end. -/
def step (t : SearchTable) : Event → Option SearchTable
  | .searchBarShouldBeginEditing => some t.searchBarShouldBeginEditing
  | .textDidChange searchText => some (t.textDidChange searchText)
  | .searchBarCancelButtonClicked => some t.searchBarCancelButtonClicked
  | .operationStarts =>
    match t.searchOperationQueue with
    | ⟨text :: waiting, none⟩ => some { t with searchOperationQueue := ⟨waiting, some { text }⟩ }
    | _ => none
  | .operationReads =>
    match t.searchOperationQueue with
    | ⟨waiting, some ⟨text, none⟩⟩ =>
      some { t with searchOperationQueue := ⟨waiting, some ⟨text, some t.source⟩⟩ }
    | _ => none
  | .operationEnds =>
    match t.searchOperationQueue with
    | ⟨waiting, some ⟨text, some read⟩⟩ =>
      (searchFilter text read).map fun results =>
        { t with
          resaltsOfSearch := results
          searchOperationQueue := ⟨waiting, none⟩
          reloads := t.reloads + 1 }
    | _ => none
  | .reloadTableView =>
    if 0 < t.reloads then some { t.reloadData with reloads := t.reloads - 1 } else none

/-- What can happen to the table: one of its events, or a list from the server. -/
inductive Change
  | event (e : Event)
  | delivered (source : List IrregularVerb)
  deriving DecidableEq, Repr

def change (t : SearchTable) : Change → Option SearchTable
  | .event e => t.step e
  | .delivered source => some (t.delivered source)

end SearchTable

/-! ## What an event can do -/

/-- The part of the table that only the queue changes. -/
inductive QueueStep (t t' : SearchTable) : SearchTable.Event → Prop
  | starts {text : String} {waiting : List String}
      (hq : t.searchOperationQueue = ⟨text :: waiting, none⟩)
      (ht : t' = { t with searchOperationQueue := ⟨waiting, some { text }⟩ }) :
      QueueStep t t' .operationStarts
  | reads {text : String} {waiting : List String}
      (hq : t.searchOperationQueue = ⟨waiting, some ⟨text, none⟩⟩)
      (ht : t' = { t with searchOperationQueue := ⟨waiting, some ⟨text, some t.source⟩⟩ }) :
      QueueStep t t' .operationReads
  | ends {text : String} {waiting : List String} {read : List IrregularVerb}
      (hq : t.searchOperationQueue = ⟨waiting, some ⟨text, some read⟩⟩)
      (ht : t' = { t with
        resaltsOfSearch := read.filter (found text)
        searchOperationQueue := ⟨waiting, none⟩
        reloads := t.reloads + 1 }) :
      QueueStep t t' .operationEnds

namespace SearchTable

variable {t t' : SearchTable}

theorem step_operationStarts (h : t.step .operationStarts = some t') :
    QueueStep t t' .operationStarts := by
  unfold step at h
  dsimp only at h
  split at h
  · rename_i hq
    exact .starts hq (Option.some.inj h).symm
  · cases h

theorem step_operationReads (h : t.step .operationReads = some t') :
    QueueStep t t' .operationReads := by
  unfold step at h
  dsimp only at h
  split at h
  · rename_i hq
    exact .reads hq (Option.some.inj h).symm
  · cases h

theorem step_operationEnds (h : t.step .operationEnds = some t') :
    QueueStep t t' .operationEnds := by
  unfold step at h
  dsimp only at h
  split at h
  · rename_i hq
    rw [Option.map_eq_some_iff] at h
    obtain ⟨results, hr, ht⟩ := h
    rw [searchFilter_eq_some hr] at ht
    exact .ends hq ht.symm
  · cases h

theorem step_reloadTableView (h : t.step .reloadTableView = some t') :
    t' = { t.reloadData with reloads := t.reloads - 1 } := by
  simp only [step, Option.ite_none_right_eq_some, Option.some.injEq] at h
  exact h.2.symm

end SearchTable

end EasyVerbs.Search
