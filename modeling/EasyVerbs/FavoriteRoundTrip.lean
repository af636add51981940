-- The law of the stored names: a favourite is stored as its infinitive, and a
-- Favorites screen reads it back as every entry that has this infinitive.
import EasyVerbs.VocabularySearch
import EasyVerbs.SearchResults

open Runs Parties Updates

namespace EasyVerbs

open Details (verbNamed favoritesDocument)

/-! ## The two screens -/

/-- The documents after a method of the Details screen of an entry, when its query is answered
and its write is applied. -/
def Details.written (method : Details.Screen → Details.Screen) (user : String) (e : IrregularVerb)
    (d : Document) : Option (List Document) :=
  (exec (solo act) ([d], method (viewDidLoad (some user) (some e)))
    [.served 1 [d], .callback 1, .applied 0]).map Prod.fst

/-- A Favorites screen loads the vocabulary and then the favourites. -/
def FavoriteVerbs.loading (vocabulary : List IrregularVerb) (d : Document) : List Event :=
  [.downloadAnswered (some vocabulary), .downloadDelivered, .served 0 [d], .callback 0, .favoritesBlock 0]

/-- The entries that are looked up under a stored name, each with its place in the vocabulary. -/
def shownAt (vocabulary : List IrregularVerb) (favorites : List String) : List (IrregularVerb × Nat) :=
  vocabulary.zipIdx.filter fun r => favorites.contains (r.1.infinitive.getD "")

/-- A freshly loaded Favorites screen of the user shows the entries at these places. -/
def ShowsAfresh (user : String) (vocabulary : List IrregularVerb) (d : Document)
    (rows : List (IrregularVerb × Nat)) : Prop :=
  rows.Sublist vocabulary.zipIdx ∧
    ∃ s, exec FavoriteVerbs.Screen.step (FavoriteVerbs.viewDidLoad (some user))
        (FavoriteVerbs.loading vocabulary d) = some s ∧
      s.Still ∧ s.toSearchTable.Offers (rows.map Prod.fst)

/-- The entry has an infinitive, or the name is not the empty one that stands for none. -/
def named (name : String) (r : IrregularVerb × Nat) : Bool := name ≠ "" || r.1.infinitive.isSome

/-! ## What they write and read -/

namespace Details

theorem served_self (s : Screen) (d : Document) (i : Nat) :
    act [d] s (.served i [d]) = (s.step (.served i [d])).map ([d], ·) := by
  unfold act
  dsimp only
  rw [if_pos rfl]

variable {user name : String} {e : IrregularVerb} {d : Document}

theorem written_addFavoriteVerbs (he : e.infinitive = some name) :
    ∃ d', written addFavoriteVerbs user e d = some [d'] ∧ d'.favoritesVerbs = (Update.add name).apply d.favoritesVerbs := by
  obtain ⟨d', happly, _, hfavorites⟩ := applyTo_writeOf (.add name) d
  refine ⟨d', ?_, hfavorites⟩
  rw [← happly]
  obtain ⟨_, pastSimple, pastParticiple, description⟩ := e
  subst he
  unfold written solo
  rw [exec, served_self]
  rfl

theorem written_deleteFavoriteVerbs (he : e.infinitive = some name) :
    ∃ d', written deleteFavoriteVerbs user e d = some [d'] ∧
      d'.favoritesVerbs = (Update.remove name).apply d.favoritesVerbs := by
  obtain ⟨d', happly, _, hfavorites⟩ := applyTo_writeOf (.remove name) d
  refine ⟨d', ?_, hfavorites⟩
  rw [← happly]
  obtain ⟨_, pastSimple, pastParticiple, description⟩ := e
  subst he
  unfold written solo
  rw [exec, served_self]
  rfl

end Details

theorem shownAt_verbs (vocabulary : List IrregularVerb) (favorites : List String) :
    (shownAt vocabulary favorites).map Prod.fst = favoritesIn vocabulary favorites := by
  have hfst : vocabulary.zipIdx.map Prod.fst = vocabulary := List.zipIdx_map_fst 0 vocabulary
  unfold shownAt favoritesIn FavoriteVerbs.filterByFavorite
  dsimp only
  conv_rhs => rw [← hfst, List.filter_map]
  rfl

theorem showsAfresh (user : String) (vocabulary : List IrregularVerb) (d : Document) :
    ShowsAfresh user vocabulary d (shownAt vocabulary d.favoritesVerbs) := by
  let s : FavoriteVerbs.Screen :=
    { userID := some user
      allVerbs := vocabulary
      favoritesVerbs := d.favoritesVerbs
      source := favoritesIn vocabulary d.favoritesVerbs
      rows := (favoritesIn vocabulary d.favoritesVerbs).length
      download := .over }
  refine ⟨List.filter_sublist, s, rfl, ⟨rfl, rfl, rfl, rfl, rfl⟩, ?_⟩
  rw [Search.SearchTable.offers_iff, shownAt_verbs]
  rfl

/-- An update shows or hides the entries under its name, and no others. -/
theorem shownAt_apply (vocabulary : List IrregularVerb) (favorites : List String) (u : Update String) :
    shownAt vocabulary (u.apply favorites) = vocabulary.zipIdx.filter fun r =>
      if u.subject = r.1.infinitive.getD "" then u.adds else (shownAt vocabulary favorites).contains r := by
  unfold shownAt
  apply List.filter_congr
  intro r hr
  rw [Bool.eq_iff_iff, List.contains_iff_mem, mem_apply]
  split
  · rfl
  · simp [hr]

theorem mem_shownAt_iff {vocabulary : List IrregularVerb} {favorites : List String} {e : IrregularVerb} {i : Nat}
    {name : String} (hi : vocabulary[i]? = some e) (hname : e.infinitive = some name) :
    (e, i) ∈ shownAt vocabulary favorites ↔ name ∈ favorites := by
  have hplace : (e, i) ∈ vocabulary.zipIdx := List.mem_zipIdx_iff_getElem?.mpr hi
  unfold shownAt
  simp [List.mem_filter, hplace, hname]

/-- For an entry that is named, to be looked up under the name is to have it. -/
theorem named_lookup {name : String} {r : IrregularVerb × Nat} (hr : named name r = true) :
    name = r.1.infinitive.getD "" ↔ r.1.infinitive = some name := by
  unfold named at hr
  cases hinf : r.1.infinitive with
  | none => simpa [hinf] using hr
  | some infinitive => simp [eq_comm]

/-- An update of a name shows or hides the entries with this infinitive. -/
theorem shownAt_apply_named (vocabulary : List IrregularVerb) (favorites : List String) (u : Update String) :
    (shownAt vocabulary (u.apply favorites)).filter (named u.subject) =
      (vocabulary.zipIdx.filter fun r =>
        if r.1.infinitive = some u.subject then u.adds else (shownAt vocabulary favorites).contains r).filter
          (named u.subject) := by
  rw [shownAt_apply, List.filter_filter, List.filter_filter]
  apply List.filter_congr
  intro r _
  cases hr : named u.subject r with
  | false => rfl
  | true => simp only [named_lookup hr]

theorem filter_shownAt (vocabulary : List IrregularVerb) (favorites : List String)
    (p : IrregularVerb × Nat → Bool) :
    (shownAt vocabulary favorites).filter p =
      vocabulary.zipIdx.filter fun r => p r && (shownAt vocabulary favorites).contains r := by
  unfold shownAt
  rw [List.filter_filter]
  apply List.filter_congr
  intro r hr
  cases p r <;> simp [hr]

/-! ## The law -/

open Details in
/-- The add of an entry brings to a freshly loaded Favorites screen the entries with the same
infinitive, each at its place in the vocabulary, and the delete takes them away. Nothing is said
of the entries with no infinitive when the name is empty. -/
theorem a_favourite_round_trips_through_its_name {user name : String} {vocabulary : List IrregularVerb}
    {d : Document} {e : IrregularVerb} {i : Nat} (hi : vocabulary[i]? = some e)
    (hname : e.infinitive = some name) :
    ShowsAfresh user vocabulary d (shownAt vocabulary d.favoritesVerbs) ∧
    ((e, i) ∉ shownAt vocabulary d.favoritesVerbs → ∃ d', written addFavoriteVerbs user e d = some [d'] ∧
      ShowsAfresh user vocabulary d' (shownAt vocabulary d'.favoritesVerbs) ∧
      (e, i) ∈ shownAt vocabulary d'.favoritesVerbs ∧
      (shownAt vocabulary d'.favoritesVerbs).filter (named name) =
        (vocabulary.zipIdx.filter fun r =>
          (shownAt vocabulary d.favoritesVerbs).contains r || r.1.infinitive = some name).filter (named name)) ∧
    ((e, i) ∈ shownAt vocabulary d.favoritesVerbs → ∃ d', written deleteFavoriteVerbs user e d = some [d'] ∧
      ShowsAfresh user vocabulary d' (shownAt vocabulary d'.favoritesVerbs) ∧
      (e, i) ∉ shownAt vocabulary d'.favoritesVerbs ∧
      (shownAt vocabulary d'.favoritesVerbs).filter (named name) =
        ((shownAt vocabulary d.favoritesVerbs).filter fun r => r.1.infinitive ≠ some name).filter (named name)) := by
  refine ⟨showsAfresh user vocabulary d, fun _ => ?_, fun _ => ?_⟩
  · obtain ⟨d', hwritten, hfavorites⟩ : ∃ d', written addFavoriteVerbs user e d = some [d'] ∧ _ :=
      written_addFavoriteVerbs hname
    refine ⟨d', hwritten, showsAfresh user vocabulary d', ?_, ?_⟩
    · rw [mem_shownAt_iff hi hname, hfavorites, mem_apply]
      simp [Update.subject, Update.adds]
    · have hall := shownAt_apply_named vocabulary d.favoritesVerbs (.add name)
      rw [← hfavorites] at hall
      rw [show named name = named (Update.add name).subject from rfl, hall]
      congr 1
      apply List.filter_congr
      intro r _
      by_cases hr : r.1.infinitive = some name <;> simp [hr, Update.subject, Update.adds]
  · obtain ⟨d', hwritten, hfavorites⟩ : ∃ d', written deleteFavoriteVerbs user e d = some [d'] ∧ _ :=
      written_deleteFavoriteVerbs hname
    refine ⟨d', hwritten, showsAfresh user vocabulary d', ?_, ?_⟩
    · rw [mem_shownAt_iff hi hname, hfavorites, mem_apply]
      simp [Update.subject, Update.adds]
    · have hall := shownAt_apply_named vocabulary d.favoritesVerbs (.remove name)
      rw [← hfavorites] at hall
      rw [show named name = named (Update.remove name).subject from rfl, hall, filter_shownAt]
      congr 1
      apply List.filter_congr
      intro r _
      by_cases hr : r.1.infinitive = some name <;> simp [hr, Update.subject, Update.adds]

def twoVerbs : List IrregularVerb :=
  [⟨some "lie", some "lay", some "lain", none⟩, ⟨some "lie", some "lied", some "lied", none⟩, verbNamed "be"]

open Details in
theorem a_verb_is_added_and_deleted :
    (∃ d', written addFavoriteVerbs "user" (verbNamed "be") (favoritesDocument ["lie"]) = some [d'] ∧
      ShowsAfresh "user" twoVerbs d' (shownAt twoVerbs d'.favoritesVerbs) ∧
      (verbNamed "be", 2) ∈ shownAt twoVerbs d'.favoritesVerbs) ∧
    ∃ d', written deleteFavoriteVerbs "user" (verbNamed "be") (favoritesDocument ["be"]) = some [d'] ∧
      ShowsAfresh "user" twoVerbs d' (shownAt twoVerbs d'.favoritesVerbs) ∧
      (verbNamed "be", 2) ∉ shownAt twoVerbs d'.favoritesVerbs := by
  have hi : twoVerbs[2]? = some (verbNamed "be") := rfl
  constructor
  · have habsent : (verbNamed "be", 2) ∉ shownAt twoVerbs (favoritesDocument ["lie"]).favoritesVerbs := by decide
    obtain ⟨d', hwritten, hshows, hmem, _⟩ := (a_favourite_round_trips_through_its_name hi rfl).2.1 habsent
    exact ⟨d', hwritten, hshows, hmem⟩
  · have hthere : (verbNamed "be", 2) ∈ shownAt twoVerbs (favoritesDocument ["be"]).favoritesVerbs := by decide
    obtain ⟨d', hwritten, hshows, hmem, _⟩ := (a_favourite_round_trips_through_its_name hi rfl).2.2 hthere
    exact ⟨d', hwritten, hshows, hmem⟩

open Details in
/-- The add of the first "lie" brings both, and its delete takes both away. -/
theorem a_shared_name_moves_two_rows :
    (∃ d', written addFavoriteVerbs "user" ⟨some "lie", some "lay", some "lain", none⟩ (favoritesDocument []) =
        some [d'] ∧
      shownAt twoVerbs [] = [] ∧
      (shownAt twoVerbs d'.favoritesVerbs).map Prod.snd = [0, 1]) ∧
    ∃ d', written deleteFavoriteVerbs "user" ⟨some "lie", some "lay", some "lain", none⟩
        (favoritesDocument ["lie"]) = some [d'] ∧
      (shownAt twoVerbs ["lie"]).map Prod.snd = [0, 1] ∧ shownAt twoVerbs d'.favoritesVerbs = [] :=
  ⟨⟨_, rfl, by decide, by decide⟩, _, rfl, by decide, by decide⟩

/-- A name that no other entry is looked up under moves its own row only. -/
theorem a_name_of_its_own_moves_one_row {vocabulary : List IrregularVerb} {favorites : List String}
    {e : IrregularVerb} {i : Nat} {name : String} (hi : vocabulary[i]? = some e)
    (hname : e.infinitive = some name)
    (hown : ∀ j v, vocabulary[j]? = some v → v.infinitive.getD "" = name → j = i) :
    shownAt vocabulary ((Update.add name).apply favorites) =
      vocabulary.zipIdx.filter (fun r => (shownAt vocabulary favorites).contains r || r = (e, i)) ∧
    shownAt vocabulary ((Update.remove name).apply favorites) =
      (shownAt vocabulary favorites).filter (fun r => r ≠ (e, i)) := by
  have hrow : ∀ r ∈ vocabulary.zipIdx, name = r.1.infinitive.getD "" ↔ r = (e, i) := by
    rintro ⟨v, j⟩ hr
    have hj : vocabulary[j]? = some v := List.mem_zipIdx_iff_getElem?.mp hr
    constructor
    · intro hlookup
      have hji := hown j v hj hlookup.symm
      subst hji
      rw [hi] at hj
      cases hj
      rfl
    · rintro hr
      cases hr
      simp [hname]
  constructor
  · rw [shownAt_apply]
    apply List.filter_congr
    intro r hr
    simp only [Update.subject, Update.adds, hrow r hr]
    by_cases he : r = (e, i) <;> simp [he]
  · rw [shownAt_apply, filter_shownAt]
    apply List.filter_congr
    intro r hr
    simp only [Update.subject, Update.adds, hrow r hr]
    by_cases he : r = (e, i) <;> simp [he]

end EasyVerbs
