-- The law of the searches that trap: an entry with no infinitive stops the
-- search of AllVerbs always, and the one of Favorites when the empty string
-- is stored, which only an entry with that infinitive can do.
import EasyVerbs.DetailsRuns
import EasyVerbs.VerbScreens

open Runs Parties Updates

namespace EasyVerbs.Details

/-! ## The favourites of a vocabulary -/

/-- All Details screens of the user, each of them with an entry of the vocabulary. -/
def VocabularyScreens.step (user : String) (vocabulary : List IrregularVerb) (s : Screens)
    (m : Move {v // v ∈ vocabulary} Event) : Option Screens :=
  Parties.step (fun v => viewDidLoad (some user) (some v.1)) act s m

/-- A list that taps on Details screens of the vocabulary bring to a user with no favourites. -/
def FavoritesOf (vocabulary : List IrregularVerb) (favorites : List String) : Prop :=
  ∃ user d h d' screens, d.favoritesVerbs = [] ∧
    Run (VocabularyScreens.step user vocabulary) ⟨[d], []⟩ h ⟨[d'], screens⟩ ∧ d'.favoritesVerbs = favorites

/-- All verbs that the screen has, asks for and writes are among the names. -/
structure Names (names : List String) (s : Screen) : Prop where
  verb : ∀ infinitive, s.presenter.infinitive = some infinitive → infinitive ∈ names
  queries : ∀ q ∈ s.queries, ∀ verb favorite, q = toggleQuery verb favorite → verb ∈ names
  writes : ∀ w ∈ s.writes, ∃ id u, w = writeOf id u ∧ u.subject ∈ names

/-- The documents have such favourites only. -/
def StoredIn (names : List String) (documents : List Document) : Prop :=
  ∀ d ∈ documents, ∀ verb ∈ d.favoritesVerbs, verb ∈ names

variable {names : List String} {s t : Screen} {documents documents' : List Document} {e : Event}

theorem toggleQuery_injective {verb verb' : String} {favorite favorite' : Bool}
    (h : toggleQuery verb favorite = toggleQuery verb' favorite') : verb = verb' := by
  cases favorite <;> cases favorite' <;> simp_all [toggleQuery]

theorem viewDidLoad_names {user : String} {v : IrregularVerb} (hv : ∀ infinitive, v.infinitive = some infinitive →
    infinitive ∈ names) : Names names (viewDidLoad (some user) (some v)) := by
  refine ⟨hv, ?_, fun w hw => by cases hw⟩
  intro q hq verb favorite hquery
  rw [List.mem_singleton.mp hq] at hquery
  cases favorite <;> cases hquery

/-- A tap asks for the verb of the screen only. -/
theorem Names.tap (h : Names names s) : Names names (addToFavorites s) := by
  rw [addToFavorites_eq]
  refine ⟨h.verb, ?_, h.writes⟩
  intro q hq verb favorite hquery
  unfold Screen.queries at hq
  rw [List.map_append] at hq
  rcases List.mem_append.mp hq with hq | hq
  · exact h.queries q hq verb favorite hquery
  · rw [List.map_map, List.map_id''] at hq
    · unfold DetailsPresenter.tapQueries at hq
      split at hq
      · cases hq
      · rcases List.mem_append.mp hq with hq | hq
        · rw [Option.mem_toList, Option.map_eq_some_iff] at hq
          obtain ⟨infinitive, hinf, hq⟩ := hq
          rw [← toggleQuery_injective (hq.trans hquery)]
          exact h.verb infinitive hinf
        · rw [List.mem_singleton.mp hq] at hquery
          cases favorite <;> cases hquery
    · exact fun _ => rfl

theorem Names.of_less (h : Names names s) (hv : ∀ i, t.presenter.infinitive = some i → s.presenter.infinitive = some i)
    (hq : ∀ q ∈ t.queries, q ∈ s.queries) (hw : ∀ w ∈ t.writes, w ∈ s.writes) : Names names t :=
  ⟨fun i hi => h.verb i (hv i hi), fun q hmem => h.queries q (hq q hmem), fun w hmem => h.writes w (hw w hmem)⟩

theorem queries_eraseIdx {i : Nat} {requests : List (Request Query)} :
    ∀ q ∈ (requests.eraseIdx i).map (·.callback), q ∈ requests.map (·.callback) := by
  intro q hq
  obtain ⟨r, hr, rfl⟩ := List.mem_map.mp hq
  exact List.mem_map_of_mem (List.mem_of_mem_eraseIdx hr)

/-- The callback of a query writes the verb of the query only. -/
theorem Names.callback {query : Query} {read : List Document} (h : Names names s)
    (hquery : ∀ verb favorite, query = toggleQuery verb favorite → verb ∈ names) :
    Names names (callback query read s) := by
  cases query with
  | load l => exact ⟨h.verb, h.queries, h.writes⟩
  | addFavoriteVerbs verb =>
    refine ⟨h.verb, h.queries, fun w hw => ?_⟩
    rcases List.mem_append.mp hw with hw | hw
    · exact h.writes w hw
    · obtain ⟨d, _, rfl⟩ := List.mem_map.mp hw
      exact ⟨d.documentID, .add verb, rfl, hquery verb false rfl⟩
  | deleteFavoriteVerbs verb =>
    refine ⟨h.verb, h.queries, fun w hw => ?_⟩
    rcases List.mem_append.mp hw with hw | hw
    · exact h.writes w hw
    · obtain ⟨d, _, rfl⟩ := List.mem_map.mp hw
      exact ⟨d.documentID, .remove verb, rfl, hquery verb true rfl⟩

theorem StoredIn.applyTo {id : String} {u : Update String} (h : StoredIn names documents)
    (hu : u.subject ∈ names) : StoredIn names ((writeOf id u).applyTo documents) := by
  intro d' hd' verb hverb
  obtain ⟨d, hd, rfl⟩ := List.mem_map.mp hd'
  split at hverb
  · rw [updateData_writeOf, mem_apply] at hverb
    split at hverb
    · rename_i hsubject
      exact hsubject ▸ hu
    · exact h d hd verb hverb
  · exact h d hd verb hverb

theorem mainBlock_infinitive (l : Load) (s : Screen) :
    (mainBlock l s).presenter.infinitive = s.presenter.infinitive := by
  unfold mainBlock DetailsPresenter.infinitive
  cases s.presenter.view with
  | none => rfl
  | some v =>
    simp only [Option.map_some, Option.bind_some]
    rw [colorButtonOnStart_verb]

theorem act_names (hstored : StoredIn names documents) (h : Names names s)
    (ha : act documents s e = some (documents', t)) : StoredIn names documents' ∧ Names names t := by
  cases act_cases ha with
  | tap _ => exact ⟨hstored, h.tap⟩
  | back => exact ⟨hstored, h.of_less (by simp [DetailsPresenter.infinitive]) (fun _ hq => hq) fun _ hw => hw⟩
  | @served i query hquery =>
    refine ⟨hstored, h.of_less (fun _ hi => hi) (fun q hq => ?_) fun _ hw => hw⟩
    obtain ⟨r, hr, rfl⟩ := List.mem_map.mp hq
    rcases List.mem_or_eq_of_mem_set hr with hr | rfl
    · exact List.mem_map_of_mem hr
    · exact List.mem_map.mpr ⟨_, List.mem_of_getElem? hquery, rfl⟩
  | @callback i query read hquery =>
    refine ⟨hstored, Names.callback ?_ ?_⟩
    · exact h.of_less (fun _ hi => hi) queries_eraseIdx fun _ hw => hw
    · exact h.queries query (List.mem_map.mpr ⟨_, List.mem_of_getElem? hquery, rfl⟩)
  | failed _ => exact ⟨hstored, h.of_less (fun _ hi => hi) queries_eraseIdx fun _ hw => hw⟩
  | globalBlock _ => exact ⟨hstored, h.of_less (fun _ hi => hi) (fun _ hq => hq) fun _ hw => hw⟩
  | mainBlock _ =>
    refine ⟨hstored, h.of_less (fun i hi => ?_) (fun _ hq => hq) fun _ hw => hw⟩
    exact (mainBlock_infinitive _ _).symm.trans hi
  | @applied i w hwrite =>
    obtain ⟨id, u, rfl, hu⟩ := h.writes w (List.mem_of_getElem? hwrite)
    exact ⟨hstored.applyTo hu,
      h.of_less (fun _ hi => hi) (fun _ hq => hq) fun _ hw => List.mem_of_mem_eraseIdx hw⟩
  | rejected _ =>
    exact ⟨hstored, h.of_less (fun _ hi => hi) (fun _ hq => hq) fun _ hw => List.mem_of_mem_eraseIdx hw⟩

/-- Every favourite is the infinitive of an entry. -/
theorem favorites_have_entries {vocabulary : List IrregularVerb} {favorites : List String}
    (hf : FavoritesOf vocabulary favorites) : ∀ verb ∈ favorites, ∃ v ∈ vocabulary, v.infinitive = some verb := by
  obtain ⟨user, d, h, d', screens, hnew, hr, rfl⟩ := hf
  have hall := all_parties (J := StoredIn (vocabulary.filterMap (·.infinitive)))
    (I := Names (vocabulary.filterMap (·.infinitive))) hr ?_ ?_ fun _ _ _ _ _ hj hi ha => act_names hj hi ha
  · intro verb hverb
    exact List.mem_filterMap.mp (hall.1 d' (by simp) verb hverb)
  · refine ⟨fun x hx verb hverb => ?_, by simp⟩
    rw [List.mem_singleton.mp hx, hnew] at hverb
    cases hverb
  · rintro ⟨v, hv⟩
    exact viewDidLoad_names fun infinitive hinf => List.mem_filterMap.mpr ⟨v, hv, hinf⟩

/-- Each entry with an infinitive can be a favourite. -/
theorem an_entry_can_be_stored {vocabulary : List IrregularVerb} {v : IrregularVerb} {infinitive : String}
    (hv : v ∈ vocabulary) (hinf : v.infinitive = some infinitive) : FavoritesOf vocabulary [infinitive] := by
  obtain ⟨_, pastSimple, pastParticiple, description⟩ := v
  subst hinf
  have hrun : (exec (VocabularyScreens.step "user" vocabulary) ⟨[favoritesDocument []], []⟩
      [.join ⟨_, hv⟩, .act 0 .addToFavoritesButton, .act 0 (.served 1 [favoritesDocument []]), .act 0 (.callback 1),
        .act 0 (.applied 0)]) = some ⟨[favoritesDocument [infinitive]], _⟩ := rfl
  exact ⟨"user", favoritesDocument [], _, _, _, rfl, run_of_exec hrun, rfl⟩

end EasyVerbs.Details

namespace EasyVerbs

open Search FavoriteVerbs Details

/-! ## The law -/

/-- The list of a Favorites screen that has this vocabulary and these favourites. -/
def favoritesIn (vocabulary : List IrregularVerb) (favorites : List String) : List IrregularVerb :=
  filterByFavorite { userID := none, allVerbs := vocabulary, favoritesVerbs := favorites }

theorem searchFilter_ne_none_iff (text : String) (vs : List IrregularVerb) :
    searchFilter text vs ≠ none ↔ ∀ v ∈ vs, v.infinitive ≠ none := by
  constructor
  · intro h v hv hnone
    apply h
    induction vs with
    | nil => cases hv
    | cons w vs ih =>
      unfold searchFilter
      cases hw : w.infinitive with
      | none => rfl
      | some infinitive =>
        rcases List.mem_cons.mp hv with rfl | hv
        · rw [hnone] at hw
          cases hw
        · dsimp only
          rw [ih (fun hne => h (by simp [searchFilter, hw, hne])) hv]
          rfl
  · intro h
    rw [searchFilter_of_infinitives h]
    simp

/-- A search of the favourites completes unless the empty string is stored and an infinitive
is missing. -/
theorem favorites_search_iff (vocabulary : List IrregularVerb) (favorites : List String) (text : String) :
    searchFilter text (favoritesIn vocabulary favorites) ≠ none ↔
      ("" ∈ favorites → ∀ v ∈ vocabulary, v.infinitive ≠ none) := by
  rw [searchFilter_ne_none_iff]
  unfold favoritesIn filterByFavorite
  constructor
  · intro h hempty v hv hnone
    exact h v (List.mem_filter.mpr ⟨hv, by simpa [hnone] using hempty⟩) hnone
  · intro h v hv hnone
    obtain ⟨hv, hcontains⟩ := List.mem_filter.mp hv
    have hempty : "" ∈ favorites := by simpa [hnone] using hcontains
    exact h hempty v hv hnone

/-- For every vocabulary, list of favourites and text both searches complete exactly when every
entry has an infinitive. On Favorites alone, for the lists that the Details screens can store,
it is enough that no entry has the empty one. -/
theorem searches_complete_iff_no_infinitive_is_missing (vocabulary : List IrregularVerb) :
    (∀ favorites text,
      searchFilter text vocabulary ≠ none ∧ searchFilter text (favoritesIn vocabulary favorites) ≠ none ↔
        ∀ v ∈ vocabulary, v.infinitive ≠ none) ∧
    ((∀ favorites, FavoritesOf vocabulary favorites →
        ∀ text, searchFilter text (favoritesIn vocabulary favorites) ≠ none) ↔
      (∀ v ∈ vocabulary, v.infinitive ≠ none) ∨ ∀ v ∈ vocabulary, v.infinitive ≠ some "") := by
  constructor
  · intro favorites text
    rw [searchFilter_ne_none_iff, favorites_search_iff]
    exact ⟨fun h => h.1, fun h => ⟨h, fun _ => h⟩⟩
  · constructor
    · intro h
      by_cases hempty : ∃ v ∈ vocabulary, v.infinitive = some ""
      · obtain ⟨v, hv, hinf⟩ := hempty
        have hstored := an_entry_can_be_stored hv hinf
        exact Or.inl ((favorites_search_iff vocabulary [""] "").mp (h [""] hstored "") (by simp))
      · exact Or.inr fun v hv hinf => hempty ⟨v, hv, hinf⟩
    · rintro hall favorites hf text
      rw [favorites_search_iff]
      intro hempty
      obtain ⟨v, hv, hinf⟩ := favorites_have_entries hf "" hempty
      exact hall.resolve_right fun hne => hne v hv hinf

/-- One entry has no infinitive, and the infinitive of another one is empty. -/
def incompleteVocabulary : List IrregularVerb := [⟨none, some "was", some "been", none⟩, verbNamed ""]

theorem a_missing_infinitive_traps_both_searches :
    FavoritesOf incompleteVocabulary [""] ∧ searchFilter "b" incompleteVocabulary = none ∧
      searchFilter "b" (favoritesIn incompleteVocabulary [""]) = none := by
  have hentry : verbNamed "" ∈ incompleteVocabulary := by decide
  exact ⟨an_entry_can_be_stored hentry rfl, by decide, by decide⟩

end EasyVerbs
