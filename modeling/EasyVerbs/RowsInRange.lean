-- The law of the rows: which events leave the table with rows that are past
-- the end of the list it shows.
import EasyVerbs.VerbScreens

open Runs

namespace EasyVerbs.Search

/-! ## The rows of the table -/

namespace SearchTable

/-- Every row that the table may ask for is in the list. -/
def RowsInRange (t : SearchTable) : Prop := ∀ row < t.rows, (t.currentVerbs row).isSome

theorem rowsInRange_iff (t : SearchTable) :
    t.RowsInRange ↔ t.rows ≤ t.tableViewNumberOfRowsInSection := by
  have hsome : ∀ row, (t.currentVerbs row).isSome ↔ row < t.tableViewNumberOfRowsInSection := by
    intro row
    unfold currentVerbs tableViewNumberOfRowsInSection
    split <;> simp
  unfold RowsInRange
  simp only [hsome]
  constructor
  · intro h
    by_contra hlt
    have := h t.tableViewNumberOfRowsInSection (by omega)
    omega
  · intro h row hrow
    omega

/-- The condition on a change of the table: the search begins on results that are no shorter
than the table, and a search under way stores none that are shorter. -/
def KeepsRows (t : SearchTable) : Change → Prop
  | .event .searchBarShouldBeginEditing => t.rows ≤ t.resaltsOfSearch.length
  | .event .operationEnds =>
    ∀ op ∈ t.searchOperationQueue.running, ∀ read ∈ op.read,
      t.isSearchInProgress = true → t.rows ≤ (read.filter (found op.text)).length
  | _ => True

instance (t : SearchTable) : (c : Change) → Decidable (t.KeepsRows c)
  | .event .searchBarShouldBeginEditing =>
    inferInstanceAs (Decidable (t.rows ≤ t.resaltsOfSearch.length))
  | .event .operationEnds =>
    inferInstanceAs (Decidable (∀ op ∈ t.searchOperationQueue.running, ∀ read ∈ op.read,
      t.isSearchInProgress = true → t.rows ≤ (read.filter (found op.text)).length))
  | .event (.textDidChange _) | .event .searchBarCancelButtonClicked | .event .operationStarts
  | .event .operationReads | .event .reloadTableView | .delivered _ =>
    inferInstanceAs (Decidable True)

variable {t t' : SearchTable}

/-- A table that was just read again has the rows of its list. -/
theorem reloadData_inRange (t : SearchTable) : t.reloadData.RowsInRange := by
  rw [rowsInRange_iff]
  exact Nat.le_refl _

theorem RowsInRange.of_same (h : t.RowsInRange) (hrows : t'.rows = t.rows)
    (hcount : t'.tableViewNumberOfRowsInSection = t.tableViewNumberOfRowsInSection) :
    t'.RowsInRange := by
  rw [rowsInRange_iff] at h ⊢
  omega

/-- From a table with all its rows in range, the condition says exactly when a change keeps
them there. -/
theorem change_inRange_iff {c : Change} (h : t.RowsInRange) (hc : t.change c = some t') :
    t'.RowsInRange ↔ t.KeepsRows c := by
  cases c with
  | delivered source =>
    cases hc
    exact iff_of_true (reloadData_inRange _) trivial
  | event e =>
    cases e with
    | searchBarShouldBeginEditing =>
      cases hc
      rw [rowsInRange_iff]
      rfl
    | textDidChange searchText =>
      cases hc
      apply iff_of_true _ trivial
      exact h.of_same rfl rfl
    | searchBarCancelButtonClicked =>
      cases hc
      exact iff_of_true (reloadData_inRange _) trivial
    | operationStarts =>
      apply iff_of_true _ trivial
      cases step_operationStarts hc with
      | starts _ ht => exact h.of_same (by rw [ht]) (by rw [ht]; rfl)
    | operationReads =>
      apply iff_of_true _ trivial
      cases step_operationReads hc with
      | reads _ ht => exact h.of_same (by rw [ht]) (by rw [ht]; rfl)
    | operationEnds =>
      cases step_operationEnds hc with
      | @ends text waiting read hq ht =>
        rw [rowsInRange_iff] at h ⊢
        unfold KeepsRows
        simp only [hq, Option.mem_some_iff, forall_eq']
        unfold tableViewNumberOfRowsInSection at h ⊢
        rw [ht]
        dsimp only
        cases hs : t.isSearchInProgress with
        | true => simp
        | false => simpa [hs] using h
    | reloadTableView =>
      rw [step_reloadTableView hc]
      apply iff_of_true _ trivial
      exact (reloadData_inRange t).of_same rfl rfl

theorem run_inRange_iff {h : List (SearchTable × Change)} (hr : Run change {} h t) :
    Throughout RowsInRange h t ↔ ∀ m ∈ h, KeepsRows m.1 m.2 := by
  apply hr.throughout_iff
  · intro row hrow
    cases hrow
  · intro s c t hs hc
    exact change_inRange_iff hs hc

end SearchTable

end EasyVerbs.Search

namespace EasyVerbs

open Search

/-! ## The law -/

/-- What the table sees of the event keeps its rows in range. -/
def AllVerbs.KeepsRows (s : AllVerbs.Screen) (e : AllVerbs.Event) : Prop :=
  ∀ c ∈ AllVerbs.seen s e, s.toSearchTable.KeepsRows c

def FavoriteVerbs.KeepsRows (s : FavoriteVerbs.Screen) (e : FavoriteVerbs.Event) : Prop :=
  ∀ c ∈ FavoriteVerbs.seen s e, s.toSearchTable.KeepsRows c

instance (s : AllVerbs.Screen) (e : AllVerbs.Event) : Decidable (AllVerbs.KeepsRows s e) :=
  inferInstanceAs (Decidable (∀ c ∈ AllVerbs.seen s e, s.toSearchTable.KeepsRows c))

instance (s : FavoriteVerbs.Screen) (e : FavoriteVerbs.Event) :
    Decidable (FavoriteVerbs.KeepsRows s e) :=
  inferInstanceAs (Decidable (∀ c ∈ FavoriteVerbs.seen s e, s.toSearchTable.KeepsRows c))

/-- In every run of the AllVerbs screen and of the Favorites screen, all the rows that the
table may ask for are in range in every state exactly when no search begins on results that
are shorter than the table, and no search under way stores such results. -/
theorem every_row_is_in_range_iff_no_shorter_results (userID : Option String) :
    (∀ h s, Run AllVerbs.Screen.step AllVerbs.viewDidLoad h s →
      (Throughout (fun s => ∀ row < s.rows, (s.currentVerbs row).isSome) h s ↔
        ∀ m ∈ h, AllVerbs.KeepsRows m.1 m.2)) ∧
    ∀ h s, Run FavoriteVerbs.Screen.step (FavoriteVerbs.viewDidLoad userID) h s →
      (Throughout (fun s => ∀ row < s.rows, (s.currentVerbs row).isSome) h s ↔
        ∀ m ∈ h, FavoriteVerbs.KeepsRows m.1 m.2) := by
  constructor
  · intro h s hr
    have hseen := hr.throughout_project (P := SearchTable.RowsInRange) AllVerbs.step_seen
    have htable := SearchTable.run_inRange_iff (AllVerbs.run_table hr)
    exact hseen.trans (htable.trans forall_project)
  · intro h s hr
    have hseen := hr.throughout_project (P := SearchTable.RowsInRange) FavoriteVerbs.step_seen
    have htable := SearchTable.run_inRange_iff (FavoriteVerbs.run_table hr)
    exact hseen.trans (htable.trans forall_project)

def oneVerb : List IrregularVerb := [⟨some "be", some "was were", some "been", none⟩]

/-- The user types the text, and the search goes on to its end. -/
def search (text : String) : List SearchTable.Event :=
  [.textDidChange text, .operationStarts, .operationReads, .operationEnds, .reloadTableView]

def verbDelivered : List AllVerbs.Event := [.downloadAnswered (some oneVerb), .downloadDelivered]

def favoriteDelivered : List FavoriteVerbs.Event :=
  [.downloadAnswered (some oneVerb), .downloadDelivered,
    .served 0 [⟨"document", [("favoritesVerbs", .array ["be"])]⟩], .callback 0, .favoritesBlock 0]

/-- The search begins before the verb is there. -/
theorem an_early_search_is_in_range :
    (∃ s, exec AllVerbs.Screen.step AllVerbs.viewDidLoad
        (.table .searchBarShouldBeginEditing :: verbDelivered ++ (search "b").map .table) = some s ∧
      ∀ row < s.rows, (s.currentVerbs row).isSome) ∧
    ∃ s, exec FavoriteVerbs.Screen.step (FavoriteVerbs.viewDidLoad (some "user"))
        (.table .searchBarShouldBeginEditing :: favoriteDelivered ++ (search "b").map .table) = some s ∧
      ∀ row < s.rows, (s.currentVerbs row).isSome := by
  constructor
  · refine ⟨_, (Option.some_get (by decide)).symm, ?_⟩
    exact (((every_row_is_in_range_iff_no_shorter_results none).1 _ _ (run_of_isSome _)).mpr
      (by decide)).2
  · refine ⟨_, (Option.some_get (by decide)).symm, ?_⟩
    exact (((every_row_is_in_range_iff_no_shorter_results (some "user")).2 _ _ (run_of_isSome _)).mpr
      (by decide)).2

/-- The search begins when the verb is there: its row is past the end of the empty results. -/
theorem a_late_search_is_out_of_range :
    (∃ s, exec AllVerbs.Screen.step AllVerbs.viewDidLoad
        (verbDelivered ++ [.table .searchBarShouldBeginEditing]) = some s ∧
      ¬ ∀ row < s.rows, (s.currentVerbs row).isSome) ∧
    ∃ s, exec FavoriteVerbs.Screen.step (FavoriteVerbs.viewDidLoad (some "user"))
        (favoriteDelivered ++ [.table .searchBarShouldBeginEditing]) = some s ∧
      ¬ ∀ row < s.rows, (s.currentVerbs row).isSome :=
  ⟨⟨_, rfl, by decide⟩, _, rfl, by decide⟩

end EasyVerbs
