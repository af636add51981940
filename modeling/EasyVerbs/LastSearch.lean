-- The law of the search queue: the calls of a search under their numbers, in the
-- order in which their results are stored. The last call wins.
import Mathlib.Data.List.Forall2
import EasyVerbs.SearchResults

open Runs

namespace EasyVerbs.Search

/-! ## The calls of a run -/

/-- The texts of the calls so far, and the numbers of the calls that wait, that runs, and
whose results were stored. -/
structure Calls where
  texts : List String := []
  waiting : List Nat := []
  running : Option Nat := none
  assigned : List Nat := []

/-- A call cancels the ones that wait. -/
def Calls.next (c : Calls) : SearchTable.Change → Calls
  | .event (.textDidChange text) => { c with texts := c.texts ++ [text], waiting := [c.texts.length] }
  | .event .operationStarts => { c with waiting := c.waiting.tail, running := c.waiting.head? }
  | .event .operationEnds => { c with running := none, assigned := c.assigned ++ c.running.toList }
  | _ => c

def callsOf (h : List (SearchTable × SearchTable.Change)) : Calls :=
  h.foldl (fun c m => c.next m.2) {}

theorem callsOf_snoc (h : List (SearchTable × SearchTable.Change)) (t : SearchTable)
    (c : SearchTable.Change) : callsOf (h ++ [(t, c)]) = (callsOf h).next c := by
  simp [callsOf, List.foldl_append]

/-- The operation of call `i` read this list. -/
def ReadBy (i : Nat) (source : List IrregularVerb) (h : List (SearchTable × SearchTable.Change)) : Prop :=
  ∃ h1 m h2, h = h1 ++ m :: h2 ∧ m.2 = .event .operationReads ∧ (callsOf h1).running = some i ∧
    m.1.source = source

/-- The results are those of call `i`: the filter by its text of the list that it read. -/
def ResultsOf (i : Nat) (results : List IrregularVerb) (h : List (SearchTable × SearchTable.Change)) :
    Prop :=
  ∃ text source, (callsOf h).texts[i]? = some text ∧ ReadBy i source h ∧
    results = source.filter (found text)

/-- Every list that came has all its infinitives. -/
def InfinitivesPresent (h : List (SearchTable × SearchTable.Change)) : Prop :=
  ∀ m ∈ h, ∀ source, m.2 = .delivered source → ∀ v ∈ source, v.infinitive ≠ none

/-- The last search wins: results are stored in the order of the calls, each of them those of
its call, and once the queue is empty the results are those of the last call. A queue that is
not empty can go on. -/
structure LastWins (h : List (SearchTable × SearchTable.Change)) (t : SearchTable) : Prop where
  in_order : (callsOf h).assigned.Pairwise (· < ·)
  are_calls : ∀ i ∈ (callsOf h).assigned, i < (callsOf h).texts.length
  stored : ∀ h1 m h2, h = h1 ++ m :: h2 → m.2 = .event .operationEnds →
    ∀ t', m.1.change m.2 = some t' →
      ∃ i, (callsOf h1).running = some i ∧ ResultsOf i t'.resaltsOfSearch h1
  last : t.searchOperationQueue = {} → (callsOf h).texts ≠ [] →
    (callsOf h).assigned.getLast? = some ((callsOf h).texts.length - 1) ∧
      ResultsOf ((callsOf h).texts.length - 1) t.resaltsOfSearch h
  goes_on : InfinitivesPresent h → t.searchOperationQueue ≠ {} →
    ∃ e t', QueueStep t t' e ∧ t.step e = some t'

/-! ## The queue under the numbers -/

/-- The numbers of the calls whose results were or will be stored, in order. -/
def Calls.numbers (c : Calls) : List Nat := c.assigned ++ c.running.toList ++ c.waiting

/-- The operation that runs is the one of call `i`. -/
structure RunsAs (h : List (SearchTable × SearchTable.Change)) (i : Nat) (op : Operation) : Prop where
  text : (callsOf h).texts[i]? = some op.text
  read : ∀ source, op.read = some source → ReadBy i source h

/-- The queue of the table holds the calls, and the results are those of the last call that
ended. -/
structure Tracked (h : List (SearchTable × SearchTable.Change)) (t : SearchTable) : Prop where
  waiting : List.Forall₂ (fun i text => (callsOf h).texts[i]? = some text) (callsOf h).waiting
    t.searchOperationQueue.waiting
  running : (callsOf h).running = none ∧ t.searchOperationQueue.running = none ∨
    ∃ i op, (callsOf h).running = some i ∧ t.searchOperationQueue.running = some op ∧ RunsAs h i op
  in_order : (callsOf h).numbers.Pairwise (· < ·)
  are_calls : ∀ i ∈ (callsOf h).numbers, i < (callsOf h).texts.length
  last : (callsOf h).texts ≠ [] → (callsOf h).numbers.getLast? = some ((callsOf h).texts.length - 1)
  results : ∀ i, (callsOf h).assigned.getLast? = some i → ResultsOf i t.resaltsOfSearch h

variable {h : List (SearchTable × SearchTable.Change)} {t t' : SearchTable} {m : SearchTable × SearchTable.Change}

theorem ReadBy.snoc {i : Nat} {source : List IrregularVerb} (hread : ReadBy i source h) :
    ReadBy i source (h ++ [m]) := by
  obtain ⟨h1, m', h2, rfl, hm, hi, hs⟩ := hread
  exact ⟨h1, m', h2 ++ [m], by simp, hm, hi, hs⟩

theorem texts_next (c : Calls) (e : SearchTable.Change) {i : Nat} {text : String}
    (ht : c.texts[i]? = some text) : (c.next e).texts[i]? = some text := by
  have hlt : i < c.texts.length := (List.getElem?_eq_some_iff.mp ht).1
  unfold Calls.next
  split
  · dsimp only
    rw [List.getElem?_append_left hlt, ht]
  · exact ht
  · exact ht
  · exact ht

theorem ResultsOf.snoc {i : Nat} {results : List IrregularVerb} (hr : ResultsOf i results h) :
    ResultsOf i results (h ++ [m]) := by
  obtain ⟨text, source, ht, hread, hres⟩ := hr
  refine ⟨text, source, ?_, hread.snoc, hres⟩
  rw [callsOf_snoc]
  exact texts_next _ _ ht

theorem RunsAs.snoc {i : Nat} {op : Operation} (hop : RunsAs h i op) : RunsAs (h ++ [m]) i op := by
  refine ⟨?_, fun source hs => (hop.read source hs).snoc⟩
  rw [callsOf_snoc]
  exact texts_next _ _ hop.text

/-- A change outside the queue. -/
theorem Tracked.of_same {c : SearchTable.Change} (ih : Tracked h t) (hc : (callsOf h).next c = callsOf h)
    (hq : t'.searchOperationQueue = t.searchOperationQueue)
    (hr : t'.resaltsOfSearch = t.resaltsOfSearch) : Tracked (h ++ [(t, c)]) t' := by
  have hsnoc : callsOf (h ++ [(t, c)]) = callsOf h := by rw [callsOf_snoc, hc]
  constructor
  · rw [hsnoc, hq]
    exact ih.waiting
  · rw [hsnoc, hq]
    exact ih.running.imp_right fun hrun => hrun.imp fun _ => Exists.imp fun _ hop =>
      ⟨hop.1, hop.2.1, hop.2.2.snoc⟩
  · rw [hsnoc]
    exact ih.in_order
  · rw [hsnoc]
    exact ih.are_calls
  · rw [hsnoc]
    exact ih.last
  · intro i hi
    rw [hsnoc] at hi
    rw [hr]
    exact (ih.results i hi).snoc

/-- A call: it waits alone, after all the calls that came before it. -/
theorem Tracked.call {text : String} (ih : Tracked h t) :
    Tracked (h ++ [(t, .event (.textDidChange text))]) (t.textDidChange text) := by
  have hsnoc := callsOf_snoc h t (.event (.textDidChange text))
  have hnumbers : ((callsOf h).assigned ++ (callsOf h).running.toList).Sublist (callsOf h).numbers :=
    List.sublist_append_left _ _
  constructor
  · rw [hsnoc]
    refine .cons ?_ .nil
    simp [Calls.next]
  · rw [hsnoc]
    exact ih.running.imp_right fun hrun => hrun.imp fun _ => Exists.imp fun _ hop =>
      ⟨hop.1, hop.2.1, hop.2.2.snoc⟩
  · rw [hsnoc]
    refine List.pairwise_append.mpr ⟨ih.in_order.sublist hnumbers, List.pairwise_singleton _ _, ?_⟩
    intro i hi j hj
    rw [List.mem_singleton.mp hj]
    exact ih.are_calls i (hnumbers.subset hi)
  · rw [hsnoc]
    intro i hi
    have hlength : ((callsOf h).next (.event (.textDidChange text))).texts.length =
        (callsOf h).texts.length + 1 := by simp [Calls.next]
    rw [hlength]
    rcases List.mem_append.mp hi with hi | hi
    · have := ih.are_calls i (hnumbers.subset hi)
      omega
    · rw [List.mem_singleton.mp hi]
      omega
  · rw [hsnoc]
    intro _
    simp [Calls.numbers, Calls.next]
  · intro i hi
    rw [hsnoc] at hi
    exact (ih.results i hi).snoc

/-- The next call starts. -/
theorem Tracked.starts {text : String} {waiting : List String} (ih : Tracked h t)
    (hq : t.searchOperationQueue = ⟨text :: waiting, none⟩) :
    Tracked (h ++ [(t, .event .operationStarts)])
      { t with searchOperationQueue := ⟨waiting, some { text }⟩ } := by
  have hwaiting := ih.waiting
  rw [hq] at hwaiting
  obtain ⟨i, rest, htext, hrest, hcalls⟩ := List.forall₂_cons_right_iff.mp hwaiting
  have hidle : (callsOf h).running = none := by
    rcases ih.running with ⟨hnone, _⟩ | ⟨_, _, _, hop, _⟩
    · exact hnone
    · rw [hq] at hop
      cases hop
  have hsnoc : callsOf (h ++ [(t, .event .operationStarts)]) =
      { callsOf h with waiting := rest, running := some i } := by
    rw [callsOf_snoc]
    simp [Calls.next, hcalls]
  have hnumbers : (callsOf (h ++ [(t, .event .operationStarts)])).numbers = (callsOf h).numbers := by
    rw [hsnoc]
    simp [Calls.numbers, hidle, hcalls]
  have hruns : RunsAs (h ++ [(t, .event .operationStarts)]) i { text } := by
    refine ⟨?_, fun _ hs => by cases hs⟩
    rw [hsnoc]
    exact htext
  constructor
  · rw [hsnoc]
    exact hrest
  · exact Or.inr ⟨i, { text }, by rw [hsnoc], rfl, hruns⟩
  · rw [hnumbers]
    exact ih.in_order
  · rw [hnumbers, hsnoc]
    exact ih.are_calls
  · rw [hnumbers, hsnoc]
    exact ih.last
  · intro j hj
    rw [hsnoc] at hj
    exact (ih.results j hj).snoc

/-- The call that runs reads the list. -/
theorem Tracked.reads {text : String} {waiting : List String} (ih : Tracked h t)
    (hq : t.searchOperationQueue = ⟨waiting, some ⟨text, none⟩⟩) :
    Tracked (h ++ [(t, .event .operationReads)])
      { t with searchOperationQueue := ⟨waiting, some ⟨text, some t.source⟩⟩ } := by
  have hsnoc : callsOf (h ++ [(t, .event .operationReads)]) = callsOf h := callsOf_snoc h t _
  obtain ⟨i, op, hi, hop, hruns⟩ : ∃ i op, (callsOf h).running = some i ∧
      t.searchOperationQueue.running = some op ∧ RunsAs h i op := by
    refine ih.running.resolve_left fun hidle => ?_
    rw [hq] at hidle
    cases hidle.2
  rw [hq] at hop
  cases hop
  have hwaiting := ih.waiting
  rw [hq] at hwaiting
  constructor
  · rw [hsnoc]
    exact hwaiting
  · refine Or.inr ⟨i, _, by rw [hsnoc, hi], rfl, hruns.snoc.text, fun source hs => ?_⟩
    cases hs
    exact ⟨h, _, [], rfl, rfl, hi, rfl⟩
  · rw [hsnoc]
    exact ih.in_order
  · rw [hsnoc]
    exact ih.are_calls
  · rw [hsnoc]
    exact ih.last
  · intro j hj
    rw [hsnoc] at hj
    exact (ih.results j hj).snoc

/-- The call that runs stores its results. -/
theorem Tracked.ends {text : String} {waiting : List String} {read : List IrregularVerb}
    (ih : Tracked h t) (hq : t.searchOperationQueue = ⟨waiting, some ⟨text, some read⟩⟩) :
    (∃ i, (callsOf h).running = some i ∧ ResultsOf i (read.filter (found text)) h) ∧
    Tracked (h ++ [(t, .event .operationEnds)])
      { t with
        resaltsOfSearch := read.filter (found text)
        searchOperationQueue := ⟨waiting, none⟩
        reloads := t.reloads + 1 } := by
  obtain ⟨i, op, hi, hop, hruns⟩ : ∃ i op, (callsOf h).running = some i ∧
      t.searchOperationQueue.running = some op ∧ RunsAs h i op := by
    refine ih.running.resolve_left fun hidle => ?_
    rw [hq] at hidle
    cases hidle.2
  rw [hq] at hop
  cases hop
  have hresults : ResultsOf i (read.filter (found text)) h :=
    ⟨text, read, hruns.text, hruns.read read rfl, rfl⟩
  have hsnoc : callsOf (h ++ [(t, .event .operationEnds)]) =
      { callsOf h with running := none, assigned := (callsOf h).assigned ++ [i] } := by
    rw [callsOf_snoc]
    simp [Calls.next, hi]
  have hnumbers : (callsOf (h ++ [(t, .event .operationEnds)])).numbers = (callsOf h).numbers := by
    rw [hsnoc]
    simp [Calls.numbers, hi]
  have hwaiting := ih.waiting
  rw [hq] at hwaiting
  refine ⟨⟨i, hi, hresults⟩, ?_⟩
  constructor
  · rw [hsnoc]
    exact hwaiting
  · exact Or.inl ⟨by rw [hsnoc], rfl⟩
  · rw [hnumbers]
    exact ih.in_order
  · rw [hnumbers, hsnoc]
    exact ih.are_calls
  · rw [hnumbers, hsnoc]
    exact ih.last
  · intro j hj
    rw [hsnoc, List.getLast?_append] at hj
    obtain rfl : i = j := Option.some.inj hj
    exact hresults.snoc

theorem Tracked.change {c : SearchTable.Change} (ih : Tracked h t) (hc : t.change c = some t') :
    Tracked (h ++ [(t, c)]) t' := by
  cases c with
  | delivered source =>
    cases hc
    exact ih.of_same rfl rfl rfl
  | event e =>
    cases e with
    | searchBarShouldBeginEditing =>
      cases hc
      exact ih.of_same rfl rfl rfl
    | textDidChange text =>
      cases hc
      exact ih.call
    | searchBarCancelButtonClicked =>
      cases hc
      exact ih.of_same rfl rfl rfl
    | operationStarts =>
      cases SearchTable.step_operationStarts hc with
      | starts hq ht => exact ht ▸ ih.starts hq
    | operationReads =>
      cases SearchTable.step_operationReads hc with
      | reads hq ht => exact ht ▸ ih.reads hq
    | operationEnds =>
      cases SearchTable.step_operationEnds hc with
      | ends hq ht => exact ht ▸ (ih.ends hq).2
    | reloadTableView =>
      rw [SearchTable.step_reloadTableView hc]
      exact ih.of_same rfl rfl rfl

theorem run_tracked (hr : Run SearchTable.change {} h t) : Tracked h t := by
  induction hr with
  | start => exact ⟨.nil, Or.inl ⟨rfl, rfl⟩, .nil, by simp [callsOf, Calls.numbers], by simp [callsOf], by simp [callsOf]⟩
  | snoc _ hc ih => exact ih.change hc

/-- The lists that a search can read have all their infinitives. -/
structure Searchable (t : SearchTable) : Prop where
  source : ∀ v ∈ t.source, v.infinitive ≠ none
  read : ∀ op read, t.searchOperationQueue.running = some op → op.read = some read →
    ∀ v ∈ read, v.infinitive ≠ none

theorem Searchable.queueStep {e : SearchTable.Event} (hs : Searchable t) (hq : QueueStep t t' e) :
    Searchable t' := by
  cases hq with
  | starts hq ht =>
    subst ht
    refine ⟨hs.source, fun op read hop hread => ?_⟩
    cases hop
    cases hread
  | reads hq ht =>
    subst ht
    refine ⟨hs.source, fun op read hop hread => ?_⟩
    cases hop
    cases hread
    exact hs.source
  | ends hq ht =>
    subst ht
    refine ⟨hs.source, fun op read hop hread => ?_⟩
    cases hop

theorem run_searchable (hr : Run SearchTable.change {} h t) (hinf : InfinitivesPresent h) :
    Searchable t := by
  refine hr.guarded (I := fun _ t => Searchable t)
    (G := fun _ (c : SearchTable.Change) => ∀ source, c = .delivered source →
      ∀ v ∈ source, v.infinitive ≠ none) hinf ⟨by simp, by simp⟩ ?_
  intro _ t c t' hs hinf hc
  cases c with
  | delivered source =>
    cases hc
    exact ⟨hinf source rfl, hs.read⟩
  | event e =>
    cases e with
    | searchBarShouldBeginEditing | textDidChange | searchBarCancelButtonClicked =>
      cases hc
      exact ⟨hs.source, hs.read⟩
    | operationStarts => exact hs.queueStep (SearchTable.step_operationStarts hc)
    | operationReads => exact hs.queueStep (SearchTable.step_operationReads hc)
    | operationEnds => exact hs.queueStep (SearchTable.step_operationEnds hc)
    | reloadTableView =>
      rw [SearchTable.step_reloadTableView hc]
      exact ⟨hs.source, hs.read⟩

/-- The queue starts what waits, and brings what runs to its end. -/
theorem Searchable.goes_on (hs : Searchable t) (hq : t.searchOperationQueue ≠ {}) :
    ∃ e t', QueueStep t t' e ∧ t.step e = some t' := by
  rcases hw : t.searchOperationQueue with ⟨waiting, running⟩
  cases running with
  | none =>
    cases waiting with
    | nil => exact absurd hw hq
    | cons text waiting =>
      refine ⟨.operationStarts, _, .starts hw rfl, ?_⟩
      simp only [SearchTable.step, hw]
  | some op =>
    obtain ⟨text, read⟩ := op
    cases read with
    | none =>
      refine ⟨.operationReads, _, .reads hw rfl, ?_⟩
      simp only [SearchTable.step, hw]
    | some read =>
      have hread := hs.read ⟨text, some read⟩ read (by rw [hw]) rfl
      refine ⟨.operationEnds, _, .ends hw rfl, ?_⟩
      simp only [SearchTable.step, hw, searchFilter_of_infinitives hread, Option.map_some]

theorem run_lastWins (hr : Run SearchTable.change {} h t) : LastWins h t := by
  have htracked := run_tracked hr
  have hassigned : (callsOf h).assigned.Sublist (callsOf h).numbers := by
    unfold Calls.numbers
    rw [List.append_assoc]
    exact List.sublist_append_left _ _
  refine ⟨htracked.in_order.sublist hassigned, fun i hi => htracked.are_calls i (hassigned.subset hi), ?_, ?_,
    fun hinf => (run_searchable hr hinf).goes_on⟩
  · rintro h1 ⟨u, c⟩ h2 rfl hend u' hu
    obtain ⟨hr1, _⟩ := hr.split rfl
    dsimp only at hend hu hr1
    subst hend
    cases SearchTable.step_operationEnds hu with
    | ends hq ht =>
      rw [ht]
      exact ((run_tracked hr1).ends hq).1
  · intro hq hcalls
    have hidle : (callsOf h).running = none := by
      rcases htracked.running with ⟨hnone, _⟩ | ⟨_, _, _, hop, _⟩
      · exact hnone
      · rw [hq] at hop
        cases hop
    have hnone : (callsOf h).waiting = [] := by
      have hwaiting := htracked.waiting
      rw [hq] at hwaiting
      exact List.forall₂_nil_right_iff.mp hwaiting
    have hlast := htracked.last hcalls
    simp only [Calls.numbers, hidle, hnone, Option.toList_none, List.append_nil] at hlast
    exact ⟨hlast, htracked.results _ hlast⟩

end EasyVerbs.Search

namespace EasyVerbs

open Search

/-! ## The law -/

/-- On both screens the last search wins. -/
theorem the_last_search_wins (userID : Option String) :
    (∀ h s, Run AllVerbs.Screen.step AllVerbs.viewDidLoad h s →
      LastWins (project AllVerbs.Screen.toSearchTable AllVerbs.seen h) s.toSearchTable) ∧
    ∀ h s, Run FavoriteVerbs.Screen.step (FavoriteVerbs.viewDidLoad userID) h s →
      LastWins (project FavoriteVerbs.Screen.toSearchTable FavoriteVerbs.seen h) s.toSearchTable := by
  constructor
  · intro h s hr
    exact run_lastWins (AllVerbs.run_table hr)
  · intro h s hr
    exact run_lastWins (FavoriteVerbs.run_table hr)

/-- The text changes while the search of the first text runs, which goes on to its end. -/
def overtaken : List SearchTable.Event :=
  [.textDidChange "x", .operationStarts, .operationReads, .textDidChange "b", .operationEnds,
    .operationStarts, .operationReads, .operationEnds]

theorem an_overtaken_search_does_not_win :
    (∃ h s, exec AllVerbs.Screen.step AllVerbs.viewDidLoad
        (verbDelivered ++ overtaken.map .table) = some s ∧
      (callsOf h).assigned = [0, 1] ∧ s.resaltsOfSearch = oneVerb ∧ LastWins h s.toSearchTable) ∧
    ∃ h s, exec FavoriteVerbs.Screen.step (FavoriteVerbs.viewDidLoad (some "user"))
        (favoriteDelivered ++ overtaken.map .table) = some s ∧
      (callsOf h).assigned = [0, 1] ∧ s.resaltsOfSearch = oneVerb ∧ LastWins h s.toSearchTable := by
  constructor
  · refine ⟨_, _, (Option.some_get (by decide)).symm, ?_, ?_,
      (the_last_search_wins none).1 _ _ (run_of_isSome _)⟩ <;> decide
  · refine ⟨_, _, (Option.some_get (by decide)).symm, ?_, ?_,
      (the_last_search_wins (some "user")).2 _ _ (run_of_isSome _)⟩ <;> decide

end EasyVerbs
