-- The law of the results: which events leave a search with results that are
-- not the ones of its text.
import EasyVerbs.RowsInRange

open Runs

namespace EasyVerbs.Search

namespace SearchTable

/-! ## What the queue comes to -/

/-- The results once the queue ran dry, when nothing else happens. -/
def drained (t : SearchTable) : List IrregularVerb :=
  match t.searchOperationQueue.waiting.getLast? with
  | some text => t.source.filter (found text)
  | none =>
    match t.searchOperationQueue.running with
    | some op => (op.read.getD t.source).filter (found op.text)
    | none => t.resaltsOfSearch

def wanted (t : SearchTable) : List IrregularVerb :=
  if t.isSearchInProgress then t.source.filter (found t.searchText) else t.source

/-- A search under way comes to the results of its text. -/
def ComesToWanted (t : SearchTable) : Prop :=
  t.isSearchInProgress = true → t.drained = t.source.filter (found t.searchText)

/-- The condition on a change of the table: a search begins on the results of the text in the
bar, and a list that comes in the middle of a search does not change what they are. -/
def KeepsResults (t : SearchTable) : Change → Prop
  | .event .searchBarShouldBeginEditing => t.drained = t.source.filter (found t.searchText)
  | .delivered source =>
    t.isSearchInProgress = true → (t.delivered source).drained = source.filter (found t.searchText)
  | _ => True

instance (t : SearchTable) : (c : Change) → Decidable (t.KeepsResults c)
  | .event .searchBarShouldBeginEditing =>
    inferInstanceAs (Decidable (t.drained = t.source.filter (found t.searchText)))
  | .delivered source =>
    inferInstanceAs (Decidable (t.isSearchInProgress = true →
      (t.delivered source).drained = source.filter (found t.searchText)))
  | .event (.textDidChange _) | .event .searchBarCancelButtonClicked | .event .operationStarts
  | .event .operationReads | .event .operationEnds | .event .reloadTableView =>
    inferInstanceAs (Decidable True)

end SearchTable

variable {t t' : SearchTable}

theorem QueueStep.drained {e : SearchTable.Event} (h : QueueStep t t' e) : t'.drained = t.drained := by
  unfold SearchTable.drained
  cases h with
  | @starts text waiting hq ht =>
    rw [ht, hq]
    cases waiting with
    | nil => rfl
    | cons next rest => rw [List.getLast?_cons_cons, List.getLast?_cons]
  | reads hq ht =>
    rw [ht, hq]
    rfl
  | ends hq ht =>
    rw [ht, hq]
    rfl

theorem QueueStep.frame {e : SearchTable.Event} (h : QueueStep t t' e) :
    t'.isSearchInProgress = t.isSearchInProgress ∧ t'.source = t.source ∧
      t'.searchText = t.searchText := by
  cases h with
  | starts _ ht => rw [ht]; exact ⟨rfl, rfl, rfl⟩
  | reads _ ht => rw [ht]; exact ⟨rfl, rfl, rfl⟩
  | ends _ ht => rw [ht]; exact ⟨rfl, rfl, rfl⟩

theorem QueueStep.comesToWanted {e : SearchTable.Event} (hq : QueueStep t t' e) (h : t.ComesToWanted) :
    t'.ComesToWanted := by
  obtain ⟨hflag, hsource, htext⟩ := hq.frame
  unfold SearchTable.ComesToWanted at h ⊢
  rw [hq.drained, hflag, hsource, htext]
  exact h

namespace SearchTable

/-- The condition says exactly when a change keeps a search on the way to its results. -/
theorem change_comesToWanted_iff {c : Change} (h : t.ComesToWanted) (hc : t.change c = some t') :
    t'.ComesToWanted ↔ t.KeepsResults c := by
  cases c with
  | delivered source =>
    cases hc
    rfl
  | event e =>
    cases e with
    | searchBarShouldBeginEditing =>
      cases hc
      exact ⟨fun h => h rfl, fun h _ => h⟩
    | textDidChange searchText =>
      cases hc
      apply iff_of_true _ trivial
      intro _
      rfl
    | searchBarCancelButtonClicked =>
      cases hc
      apply iff_of_true _ trivial
      intro hflag
      cases hflag
    | operationStarts => exact iff_of_true ((step_operationStarts hc).comesToWanted h) trivial
    | operationReads => exact iff_of_true ((step_operationReads hc).comesToWanted h) trivial
    | operationEnds => exact iff_of_true ((step_operationEnds hc).comesToWanted h) trivial
    | reloadTableView =>
      rw [step_reloadTableView hc]
      exact iff_of_true h trivial

theorem run_comesToWanted_iff {h : List (SearchTable × Change)} (hr : Run change {} h t) :
    Throughout ComesToWanted h t ↔ ∀ m ∈ h, KeepsResults m.1 m.2 := by
  apply hr.throughout_iff
  · intro hflag
    cases hflag
  · intro s c t hs hc
    exact change_comesToWanted_iff hs hc

/-! ## What the table offers -/

/-- The rows and the verbs of the table are those of the list. -/
def Offers (t : SearchTable) (verbs : List IrregularVerb) : Prop :=
  t.tableViewNumberOfRowsInSection = verbs.length ∧ ∀ row, t.currentVerbs row = verbs[row]?

theorem offers_iff (t : SearchTable) (verbs : List IrregularVerb) :
    t.Offers verbs ↔ (if t.isSearchInProgress then t.resaltsOfSearch else t.source) = verbs := by
  unfold Offers tableViewNumberOfRowsInSection currentVerbs
  constructor
  · rintro ⟨_, hrow⟩
    apply List.ext_getElem?
    intro row
    rw [← hrow]
    split <;> rfl
  · intro h
    rw [← h]
    split <;> exact ⟨rfl, fun _ => rfl⟩

/-- When the queue is empty, the table offers what it has to exactly when its search comes to
the results of its text. -/
theorem offers_wanted_iff (hq : t.searchOperationQueue = {}) :
    t.Offers t.wanted ↔ t.ComesToWanted := by
  have hdrained : t.drained = t.resaltsOfSearch := by
    unfold drained
    rw [hq]
    rfl
  unfold ComesToWanted wanted
  rw [offers_iff, hdrained]
  cases t.isSearchInProgress <;> simp

end SearchTable

end EasyVerbs.Search

namespace EasyVerbs

open Search

/-! ## The law -/

/-- What the table sees of the event keeps the results of its search. -/
def AllVerbs.KeepsResults (s : AllVerbs.Screen) (e : AllVerbs.Event) : Prop :=
  ∀ c ∈ AllVerbs.seen s e, s.toSearchTable.KeepsResults c

def FavoriteVerbs.KeepsResults (s : FavoriteVerbs.Screen) (e : FavoriteVerbs.Event) : Prop :=
  ∀ c ∈ FavoriteVerbs.seen s e, s.toSearchTable.KeepsResults c

instance (s : AllVerbs.Screen) (e : AllVerbs.Event) : Decidable (AllVerbs.KeepsResults s e) :=
  inferInstanceAs (Decidable (∀ c ∈ AllVerbs.seen s e, s.toSearchTable.KeepsResults c))

instance (s : FavoriteVerbs.Screen) (e : FavoriteVerbs.Event) :
    Decidable (FavoriteVerbs.KeepsResults s e) :=
  inferInstanceAs (Decidable (∀ c ∈ FavoriteVerbs.seen s e, s.toSearchTable.KeepsResults c))

/-- The AllVerbs table offers exactly the verbs of the text in a search, and else all verbs. -/
def AllVerbs.OffersWanted (s : AllVerbs.Screen) : Prop :=
  let wanted := if s.isSearchInProgress then s.allVerbs.filter (found s.searchText) else s.allVerbs
  s.tableViewNumberOfRowsInSection = wanted.length ∧ ∀ row, s.currentVerbs row = wanted[row]?

/-- The Favorites table offers exactly the favourites of the text in a search, and else all
favourites. -/
def FavoriteVerbs.OffersWanted (s : FavoriteVerbs.Screen) : Prop :=
  let wanted :=
    if s.isSearchInProgress then s.userFavorite.filter (found s.searchText) else s.userFavorite
  s.tableViewNumberOfRowsInSection = wanted.length ∧ ∀ row, s.currentVerbs row = wanted[row]?

/-- In every run of the AllVerbs screen and of the Favorites screen whose events keep the
results, the table offers what it has to in every state in which nothing is on its way. -/
theorem kept_results_are_offered (userID : Option String) :
    (∀ h s, Run AllVerbs.Screen.step AllVerbs.viewDidLoad h s →
      (∀ m ∈ h, AllVerbs.KeepsResults m.1 m.2) →
        Throughout (fun s => s.Still → AllVerbs.OffersWanted s) h s) ∧
    ∀ h s, Run FavoriteVerbs.Screen.step (FavoriteVerbs.viewDidLoad userID) h s →
      (∀ m ∈ h, FavoriteVerbs.KeepsResults m.1 m.2) →
        Throughout (fun s => s.Still → FavoriteVerbs.OffersWanted s) h s := by
  constructor
  · intro h s hr hg
    have htable := (SearchTable.run_comesToWanted_iff (AllVerbs.run_table hr)).mpr (forall_project.mpr hg)
    have hall := (hr.throughout_project AllVerbs.step_seen).mpr htable
    apply hall.imp
    intro s hs hstill
    exact (SearchTable.offers_wanted_iff hstill.2.1).mpr hs
  · intro h s hr hg
    have htable :=
      (SearchTable.run_comesToWanted_iff (FavoriteVerbs.run_table hr)).mpr (forall_project.mpr hg)
    have hall := (hr.throughout_project FavoriteVerbs.step_seen).mpr htable
    apply hall.imp
    intro s hs hstill
    exact (SearchTable.offers_wanted_iff hstill.2.2.2.1).mpr hs

/-- A search that begins before the verb is there, in its last state. -/
theorem an_early_search_is_offered :
    (∃ s, exec AllVerbs.Screen.step AllVerbs.viewDidLoad
        (.table .searchBarShouldBeginEditing :: .table (.textDidChange "b") :: verbDelivered ++
          (search "b").tail.map .table) = some s ∧ s.Still ∧ AllVerbs.OffersWanted s) ∧
    ∃ s, exec FavoriteVerbs.Screen.step (FavoriteVerbs.viewDidLoad (some "user"))
        (.table .searchBarShouldBeginEditing :: .table (.textDidChange "b") :: favoriteDelivered ++
          (search "b").tail.map .table) = some s ∧ s.Still ∧ FavoriteVerbs.OffersWanted s := by
  constructor
  · refine ⟨_, (Option.some_get (by decide)).symm, by decide, ?_⟩
    exact ((kept_results_are_offered none).1 _ _ (run_of_isSome _) (by decide)).2 (by decide)
  · refine ⟨_, (Option.some_get (by decide)).symm, by decide, ?_⟩
    exact ((kept_results_are_offered (some "user")).2 _ _ (run_of_isSome _) (by decide)).2 (by decide)

/-- The search begins when the verb is there: the text is empty and offers nothing. -/
theorem a_late_search_is_not_offered :
    (∃ s, exec AllVerbs.Screen.step AllVerbs.viewDidLoad
        (verbDelivered ++ [.table .searchBarShouldBeginEditing]) = some s ∧
      s.Still ∧ ¬ AllVerbs.OffersWanted s) ∧
    ∃ s, exec FavoriteVerbs.Screen.step (FavoriteVerbs.viewDidLoad (some "user"))
        (favoriteDelivered ++ [.table .searchBarShouldBeginEditing]) = some s ∧
      s.Still ∧ ¬ FavoriteVerbs.OffersWanted s :=
  ⟨⟨_, rfl, by decide, fun h => absurd h.1 (by decide)⟩,
    _, rfl, by decide, fun h => absurd h.1 (by decide)⟩

end EasyVerbs
