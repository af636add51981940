-- The taps on the favourites button of one Details screen: which taps flip the
-- stored favourite.
import Mathlib.Algebra.Ring.Parity
import EasyVerbs.DetailsRuns

open Runs Parties Updates

namespace EasyVerbs.Details

/-! ## What is on its way about the verb -/

/-- The condition on a tap: no change of an earlier tap is on its way, and the screen knows
if the verb is stored. -/
def SettledTap (name : String) (s : List Document × Screen) : Event → Prop
  | .addToFavoritesButton =>
    s.2.toggles = [] ∧ s.2.writes = [] ∧
      ∀ d ∈ s.1, (name ∈ s.2.presenter.favoritesVerbs ↔ name ∈ d.favoritesVerbs)
  | _ => True

instance (name : String) (s : List Document × Screen) : (e : Event) → Decidable (SettledTap name s e)
  | .addToFavoritesButton => inferInstanceAs (Decidable (s.2.toggles = [] ∧ s.2.writes = [] ∧
      ∀ d ∈ s.1, (name ∈ s.2.presenter.favoritesVerbs ↔ name ∈ d.favoritesVerbs)))
  | .backButtonDidTap | .served _ _ | .callback _ | .failed _ | .globalBlock _ | .mainBlock _
  | .applied _ | .rejected _ => inferInstanceAs (Decidable True)

/-- How far the last tap has come: `wanted` is what it makes of the verb. -/
inductive Phase (name : String) (d : Document) (wanted : Prop) (s : Screen) : Prop
  | rest (htoggles : s.toggles = []) (hwrites : s.writes = []) (hstored : name ∈ d.favoritesVerbs ↔ wanted)
  | asked (favorite : Bool) (htoggles : s.toggles = [toggleQuery name favorite]) (hwrites : s.writes = [])
      (hstored : name ∈ d.favoritesVerbs ↔ favorite = true) (hwanted : wanted ↔ favorite = false)
  | sent (favorite : Bool) (htoggles : s.toggles = [])
      (hwrites : s.writes = [writeOf d.documentID (toggleUpdate name favorite)])
      (hstored : name ∈ d.favoritesVerbs ↔ favorite = true) (hwanted : wanted ↔ favorite = false)

theorem Phase.of_same {name : String} {d : Document} {wanted : Prop} {s t : Screen}
    (h : Phase name d wanted s) (htoggles : t.toggles = s.toggles) (hwrites : t.writes = s.writes) :
    Phase name d wanted t := by
  cases h with
  | rest h1 h2 h3 => exact .rest (htoggles.trans h1) (hwrites.trans h2) h3
  | asked favorite h1 h2 h3 h4 => exact .asked favorite (htoggles.trans h1) (hwrites.trans h2) h3 h4
  | sent favorite h1 h2 h3 h4 => exact .sent favorite (htoggles.trans h1) (hwrites.trans h2) h3 h4

theorem mem_toggleUpdate (name : String) (favorite : Bool) (l : List String) :
    name ∈ (toggleUpdate name favorite).apply l ↔ favorite = false := by
  rw [mem_apply]
  cases favorite <;> simp [toggleUpdate, Update.subject, Update.adds]

/-- A tap at rest, on a screen that knows if the verb is stored. -/
theorem Phase.tap {user name : String} {verb : IrregularVerb} {d : Document} {wanted : Prop} {s : Screen}
    (h : Phase name d wanted s) (hshows : Shows user verb s) (hname : verb.infinitive = some name)
    (hview : s.presenter.view.isSome) (hsettled : SettledTap name ([d], s) .addToFavoritesButton) :
    Phase name d (¬ wanted) (addToFavorites s) := by
  obtain ⟨htoggles, hwrites, hknown⟩ := hsettled
  have hlocal := hknown d (by simp)
  have hstored : name ∈ d.favoritesVerbs ↔ wanted := by
    cases h with
    | rest _ _ hstored => exact hstored
    | asked _ hone _ _ _ =>
      rw [htoggles] at hone
      cases hone
    | sent _ _ hone _ _ =>
      rw [hwrites] at hone
      cases hone
  rw [addToFavorites_eq, hshows.tapQueries hname hview]
  refine .asked (s.presenter.favoritesVerbs.contains name) ?_ hwrites ?_ ?_
  · unfold Screen.toggles Screen.queries at htoggles ⊢
    simp only [List.map_append, List.filter_append, htoggles]
    simp
  · simp [hlocal]
  · simp [hlocal, hstored]

theorem Phase.callback {name : String} {d : Document} {wanted : Prop} {s : Screen} {i : Nat}
    {query : Query} {read : List Document} (h : Phase name d wanted s)
    (hquery : s.requests[i]? = some ⟨query, some read⟩) (hread : read.map (·.documentID) = [d.documentID]) :
    Phase name d wanted (Details.callback query read { s with requests := s.requests.eraseIdx i }) := by
  have hload : ∀ l, (Details.callback (.load l) read { s with requests := s.requests.eraseIdx i }).writes =
      s.writes := fun _ => rfl
  cases h with
  | rest htoggles hwrites hstored =>
    obtain ⟨hq, herase⟩ := toggles_erase_nil hquery htoggles
    cases query with
    | load l => exact .rest herase ((hload l).trans hwrites) hstored
    | addFavoriteVerbs verb => cases hq
    | deleteFavoriteVerbs verb => cases hq
  | asked favorite htoggles hwrites hstored hwanted =>
    rcases toggles_erase_one hquery htoggles with ⟨rfl, herase⟩ | ⟨hq, herase⟩
    · rw [callback_toggleQuery]
      refine .sent favorite herase ?_ hstored hwanted
      have hmap := congrArg (List.map fun id => writeOf id (toggleUpdate name favorite)) hread
      rw [List.map_map] at hmap
      dsimp only
      rw [hwrites, List.nil_append]
      exact hmap
    · cases query with
      | load l => exact .asked favorite herase ((hload l).trans hwrites) hstored hwanted
      | addFavoriteVerbs verb => cases hq
      | deleteFavoriteVerbs verb => cases hq
  | sent favorite htoggles hwrites hstored hwanted =>
    obtain ⟨hq, herase⟩ := toggles_erase_nil hquery htoggles
    cases query with
    | load l => exact .sent favorite herase ((hload l).trans hwrites) hstored hwanted
    | addFavoriteVerbs verb => cases hq
    | deleteFavoriteVerbs verb => cases hq

theorem Phase.applied {name : String} {d : Document} {wanted : Prop} {s : Screen} {i : Nat} {w : Write}
    (h : Phase name d wanted s) (hwrite : s.writes[i]? = some w) :
    ∃ d', w.applyTo [d] = [d'] ∧ d'.documentID = d.documentID ∧
      Phase name d' wanted { s with writes := s.writes.eraseIdx i } := by
  cases h with
  | rest _ hwrites _ => simp [hwrites] at hwrite
  | asked _ _ hwrites _ _ => simp [hwrites] at hwrite
  | sent favorite htoggles hwrites _ hwanted =>
    obtain ⟨hi, rfl⟩ := only_element hwrites hwrite
    obtain ⟨d', hd', hid, hfav⟩ := applyTo_writeOf (toggleUpdate name favorite) d
    refine ⟨d', hd', hid, .rest htoggles ?_ ?_⟩
    · simp [hwrites, hi]
    · rw [hfav, mem_toggleUpdate, hwanted]

/-! ## The law -/

/-- One more tap turns the wanted membership around. -/
theorem xor_odd_succ (p : Prop) (n : Nat) : Xor p (Odd (n + 1)) ↔ ¬ Xor p (Odd n) := by
  rw [Nat.odd_add_one]
  unfold Xor
  tauto

/-- The state of a run whose taps all flipped the verb, `wanted` being the last of it. -/
structure Flipping (user name : String) (verb : IrregularVerb) (id : String) (wanted : Prop)
    (s : List Document × Screen) : Prop where
  shows : Shows user verb s.2
  owned : Owned id s.2
  phase : ∃ d, s.1 = [d] ∧ d.documentID = id ∧ Phase name d wanted s.2

theorem Flipping.step {user name id : String} {verb : IrregularVerb} {wanted : Prop}
    {s t : List Document × Screen} {e : Event} (h : Flipping user name verb id wanted s)
    (hname : verb.infinitive = some name) (hg : SettledTap name s e) (hok : e.isFailure = false)
    (hs : solo act s e = some t) :
    Flipping user name verb id (if e = .addToFavoritesButton then ¬ wanted else wanted) t := by
  obtain ⟨documents, s⟩ := s
  obtain ⟨documents', t⟩ := t
  obtain ⟨hshows, howned, d, rfl, hid, hphase⟩ := h
  have hids : [d].map (·.documentID) = [id] := by simp [hid]
  have howned' := (act_owned hids howned hs).2
  have hshows' := act_shows hshows hs
  cases act_cases hs with
  | tap hview =>
    rw [if_pos rfl]
    exact ⟨hshows', howned', d, rfl, hid, hphase.tap hshows hname hview hg⟩
  | back =>
    rw [if_neg (by simp)]
    exact ⟨hshows', howned', d, rfl, hid, hphase.of_same rfl rfl⟩
  | @served i query hquery =>
    rw [if_neg (by simp)]
    obtain ⟨_, _, _, _, hset⟩ := toggles_split hquery
    exact ⟨hshows', howned', d, rfl, hid, hphase.of_same (hset _) rfl⟩
  | @callback i query read hquery =>
    rw [if_neg (by simp)]
    have hread := howned.read _ (List.mem_of_getElem? hquery) read rfl
    exact ⟨hshows', howned', d, rfl, hid, hphase.callback hquery (by rw [hread, hid])⟩
  | failed _ => cases hok
  | globalBlock _ =>
    rw [if_neg (by simp)]
    exact ⟨hshows', howned', d, rfl, hid, hphase.of_same rfl rfl⟩
  | mainBlock _ =>
    rw [if_neg (by simp)]
    exact ⟨hshows', howned', d, rfl, hid, hphase.of_same rfl rfl⟩
  | applied hwrite =>
    rw [if_neg (by simp)]
    obtain ⟨d', hd', hid', hphase'⟩ := hphase.applied hwrite
    exact ⟨hshows', howned', d', hd', hid'.trans hid, hphase'⟩
  | rejected _ => cases hok

theorem run_flipping {user name : String} {verb : IrregularVerb} {d : Document}
    {h : List ((List Document × Screen) × Event)} {s : List Document × Screen}
    (hname : verb.infinitive = some name)
    (hr : Run (solo act) ([d], loaded user (some verb) d) h s)
    (hok : ∀ m ∈ h, m.2.isFailure = false) (hg : ∀ m ∈ h, SettledTap name m.1 m.2) :
    Flipping user name verb d.documentID (Xor (name ∈ d.favoritesVerbs) (Odd (taps h))) s := by
  refine hr.guarded (I := fun h s => Flipping user name verb d.documentID
    (Xor (name ∈ d.favoritesVerbs) (Odd (taps h))) s)
    (G := fun s e => e.isFailure = false ∧ SettledTap name s e) ?_ ?_ ?_
  · intro m hm
    exact ⟨hok m hm, hg m hm⟩
  · refine ⟨loaded_shows user verb d, loaded_owned user _ _ d, d, rfl, rfl, .rest rfl rfl ?_⟩
    simp [taps, Xor]
  · intro h s e t ih hge hs
    have hnext := ih.step hname hge.2 hge.1 hs
    rw [taps_snoc]
    by_cases he : e = .addToFavoritesButton
    · rw [if_pos he] at hnext ⊢
      rwa [xor_odd_succ]
    · rwa [if_neg he] at hnext ⊢

/-- In a run whose taps are all settled, and in which nothing fails, each tap flips the stored
favourite: when nothing is on its way any more, the verb is stored as it was at the start,
flipped once for each tap. -/
theorem settled_taps_flip_the_favourite {user name : String} {verb : IrregularVerb} {d : Document}
    {h : List ((List Document × Screen) × Event)} {documents : List Document} {s : Screen}
    (hname : verb.infinitive = some name)
    (hr : Run (solo act) ([d], loaded user (some verb) d) h (documents, s))
    (hok : ∀ m ∈ h, m.2.isFailure = false) (hg : ∀ m ∈ h, SettledTap name m.1 m.2)
    (hdrained : Drained s) :
    ∃ d', documents = [d'] ∧
      (name ∈ d'.favoritesVerbs ↔ Xor (name ∈ d.favoritesVerbs) (Odd (taps h))) := by
  obtain ⟨_, _, d', rfl, _, hphase⟩ := run_flipping hname hr hok hg
  refine ⟨d', rfl, ?_⟩
  cases hphase with
  | rest _ _ hstored => exact hstored
  | asked _ htoggles _ _ _ =>
    simp [Screen.toggles, Screen.queries, hdrained.1] at htoggles
  | sent _ _ hwrites _ _ => simp [hdrained.2.2.2] at hwrites

theorem a_settled_tap_stores_the_verb :
    ∃ documents s,
      exec (solo act)
        ([favoritesDocument []], loaded "user" (some (verbNamed "be")) (favoritesDocument []))
        (tapAndWait (favoritesDocument []) (favoritesDocument ["be"])) = some (documents, s) ∧
      ∃ d', documents = [d'] ∧
        ("be" ∈ d'.favoritesVerbs ↔ Xor ("be" ∈ (favoritesDocument []).favoritesVerbs) (Odd 1)) := by
  have hsome : (exec (solo act)
      ([favoritesDocument []], loaded "user" (some (verbNamed "be")) (favoritesDocument []))
      (tapAndWait (favoritesDocument []) (favoritesDocument ["be"]))).isSome := by decide
  refine ⟨_, _, (Option.some_get hsome).symm, ?_⟩
  exact settled_taps_flip_the_favourite (show (verbNamed "be").infinitive = some "be" from rfl)
    (run_of_isSome hsome) (by decide) (by decide) (by decide)

/-- Two taps before the first write is sent. -/
def twoQuickTaps : List Event :=
  let read := [favoritesDocument []]
  [.addToFavoritesButton, .addToFavoritesButton, .served 0 read, .callback 0, .served 0 read, .callback 0,
    .served 0 read, .callback 0, .served 0 read, .callback 0, .applied 0, .applied 0, .globalBlock 0,
    .globalBlock 0, .mainBlock 0, .mainBlock 0]

/-- Both of them add the verb: after two flips it is stored, as it was not at the start. -/
theorem two_quick_taps_flip_once :
    (∀ e ∈ twoQuickTaps, e.isFailure = false) ∧ twoQuickTaps.count .addToFavoritesButton = 2 ∧
    ∃ documents s,
      exec (solo act)
        ([favoritesDocument []], loaded "user" (some (verbNamed "be")) (favoritesDocument []))
        twoQuickTaps = some (documents, s) ∧ Drained s ∧
      ¬ ∃ d', documents = [d'] ∧
        ("be" ∈ d'.favoritesVerbs ↔ Xor ("be" ∈ (favoritesDocument []).favoritesVerbs) (Odd 2)) := by
  refine ⟨by decide, by decide, _, _, rfl, by decide, ?_⟩
  rintro ⟨d', hd', hflipped⟩
  cases hd'
  have hstored : "be" ∈ (favoritesDocument ["be"]).favoritesVerbs := by decide
  have hodd : Odd 2 := by
    have hxor := hflipped.mp hstored
    exact hxor.or.resolve_left (by decide)
  exact absurd hodd (by decide)

end EasyVerbs.Details
