-- The three views of a favourite on a Details screen: the stored list, the list
-- of the presenter and the border of the button. They agree until the first
-- tap, and a tap leaves the border wrong.
import EasyVerbs.DetailsRuns

open Runs Parties

namespace EasyVerbs.Details

/-- The stored list, the list of the presenter and the border say the same of the verb. -/
def ViewsAgree (name : String) (documents : List Document) (s : Screen) (v : DetailsView) : Prop :=
  (∀ d ∈ documents, (name ∈ d.favoritesVerbs ↔ name ∈ s.presenter.favoritesVerbs)) ∧
    (name ∈ s.presenter.favoritesVerbs ↔ v.favoritesButton = .projectColor)

/-! ## The colour of a load -/

theorem colorButtonOnStart_projectColor (b : Bool) (v : DetailsView) :
    (v.colorButtonOnStart b).favoritesButton = .projectColor ↔ b = false := by
  cases b <;> simp [DetailsView.colorButtonOnStart, DetailsView.createBorderWhiteColor,
    DetailsView.createBorderProjectColor]

theorem Shows.infinitive {user name : String} {verb : IrregularVerb} {s : Screen} {v : DetailsView}
    (h : Shows user verb s) (hname : verb.infinitive = some name) (hv : s.presenter.view = some v) :
    s.presenter.infinitive = some name := by
  unfold DetailsPresenter.infinitive
  simp [hv, h.view v hv, hname]

/-- The first load colours the button of a favourite with the project colour. -/
theorem firstLoad_color {user name : String} {verb : IrregularVerb} {s : Screen} {v : DetailsView}
    (h : Shows user verb s) (hname : verb.infinitive = some name)
    (hv : (mainBlock .onViewDidLoad s).presenter.view = some v) :
    name ∈ s.presenter.favoritesVerbs ↔ v.favoritesButton = .projectColor := by
  obtain ⟨v', hv', rfl⟩ := Option.map_eq_some_iff.mp hv
  rw [colorButtonOnStart_projectColor]
  simp [Load.favoriteOrNot, DetailsPresenter.favoriteOrNot, h.infinitive hname hv']

/-- A load after a tap colours it the other way round. -/
theorem repeatDownload_color {user name : String} {verb : IrregularVerb} {s : Screen} {v : DetailsView}
    (h : Shows user verb s) (hname : verb.infinitive = some name)
    (hv : (mainBlock .repeatDownloadFavoriteVerbs s).presenter.view = some v) :
    name ∉ s.presenter.favoritesVerbs ↔ v.favoritesButton = .projectColor := by
  obtain ⟨v', hv', rfl⟩ := Option.map_eq_some_iff.mp hv
  rw [colorButtonOnStart_projectColor]
  simp [Load.favoriteOrNot, DetailsPresenter.repeatFavoriteOrNot, h.infinitive hname hv']

/-! ## Before the first tap -/

/-- How far the first load has come, in a screen that was not tapped. -/
inductive FirstLoad (name : String) (d : Document) (s : Screen) : Prop
  | asked (read : Option (List Document)) (hrequests : s.requests = [⟨.load .onViewDidLoad, read⟩])
      (hread : ∀ documents, read = some documents → documents = [d])
      (hglobal : s.globalBlocks = []) (hmain : s.mainBlocks = [])
  | answered (hrequests : s.requests = []) (hglobal : s.globalBlocks = [(.onViewDidLoad, d)])
      (hmain : s.mainBlocks = [])
  | stored (hrequests : s.requests = []) (hglobal : s.globalBlocks = [])
      (hmain : s.mainBlocks = [.onViewDidLoad]) (hlocal : s.presenter.favoritesVerbs = d.favoritesVerbs)
  | finished (hrequests : s.requests = []) (hglobal : s.globalBlocks = []) (hmain : s.mainBlocks = [])
      (hlocal : s.presenter.favoritesVerbs = d.favoritesVerbs)
      (hcolor : ∀ v, s.presenter.view = some v → (name ∈ d.favoritesVerbs ↔ v.favoritesButton = .projectColor))

theorem FirstLoad.step {user name : String} {verb : IrregularVerb} {d : Document}
    {documents : List Document} {s t : Screen} {e : Event} (h : FirstLoad name d s)
    (hw : s.writes = []) (hshows : Shows user verb s) (hname : verb.infinitive = some name)
    (htap : e ≠ .addToFavoritesButton) (hok : e.isFailure = false)
    (ha : act [d] s e = some (documents, t)) :
    documents = [d] ∧ t.writes = [] ∧ FirstLoad name d t := by
  cases act_cases ha with
  | tap _ => exact absurd rfl htap
  | failed _ => cases hok
  | rejected _ => cases hok
  | applied hwrite => simp [hw] at hwrite
  | back =>
    refine ⟨rfl, hw, ?_⟩
    cases h with
    | asked read h1 h2 h3 h4 => exact .asked read h1 h2 h3 h4
    | answered h1 h2 h3 => exact .answered h1 h2 h3
    | stored h1 h2 h3 h4 => exact .stored h1 h2 h3 h4
    | finished h1 h2 h3 h4 _ => exact .finished h1 h2 h3 h4 fun _ hv => by cases hv
  | @served i query hquery =>
    refine ⟨rfl, hw, ?_⟩
    cases h with
    | asked read h1 h2 h3 h4 =>
      obtain ⟨rfl, hq⟩ := only_element h1 hquery
      cases hq
      exact .asked (some [d]) (by simp [h1]) (fun _ h => (Option.some.inj h).symm) h3 h4
    | answered h1 _ _ => simp [h1] at hquery
    | stored h1 _ _ _ => simp [h1] at hquery
    | finished h1 _ _ _ _ => simp [h1] at hquery
  | @callback i query read hquery =>
    cases h with
    | asked read' h1 h2 h3 h4 =>
      obtain ⟨rfl, hq⟩ := only_element h1 hquery
      cases hq
      refine ⟨rfl, hw, .answered (by simp [callback, h1]) ?_ h4⟩
      simp [callback, h3, h2 read rfl]
    | answered h1 _ _ => simp [h1] at hquery
    | stored h1 _ _ _ => simp [h1] at hquery
    | finished h1 _ _ _ _ => simp [h1] at hquery
  | @globalBlock i l document hblock =>
    refine ⟨rfl, hw, ?_⟩
    cases h with
    | asked _ _ _ h3 _ => simp [h3] at hblock
    | answered h1 h2 h3 =>
      obtain ⟨rfl, hb⟩ := only_element h2 hblock
      cases hb
      exact .stored h1 (by simp [globalBlock, h2]) (by simp [globalBlock, h3]) rfl
    | stored _ h2 _ _ => simp [h2] at hblock
    | finished _ h2 _ _ _ => simp [h2] at hblock
  | @mainBlock i l hblock =>
    refine ⟨rfl, hw, ?_⟩
    cases h with
    | asked _ _ _ _ h4 => simp [h4] at hblock
    | answered _ _ h3 => simp [h3] at hblock
    | stored h1 h2 h3 h4 =>
      obtain ⟨rfl, rfl⟩ := only_element h3 hblock
      refine .finished h1 h2 (by simp [mainBlock, h3]) h4 fun v hv => ?_
      rw [← h4]
      exact firstLoad_color (hshows.of_presenter rfl) hname hv
    | finished _ _ h3 _ _ => simp [h3] at hblock

/-! ## After a tap -/

/-- A load is on its way: asked for, or in one of its blocks. -/
def Loading (s : Screen) : Prop :=
  (∃ r ∈ s.requests, r.callback = .load .repeatDownloadFavoriteVerbs) ∨ s.globalBlocks ≠ [] ∨ s.mainBlocks ≠ []

/-- All loads of the screen are loads after a tap. -/
structure OnlyRepeats (s : Screen) : Prop where
  requests : ∀ r ∈ s.requests, r.callback ≠ .load .onViewDidLoad
  globalBlocks : ∀ b ∈ s.globalBlocks, b.1 = .repeatDownloadFavoriteVerbs
  mainBlocks : ∀ l ∈ s.mainBlocks, l = .repeatDownloadFavoriteVerbs

theorem Drained.onlyRepeats {s : Screen} (h : Drained s) : OnlyRepeats s := by
  obtain ⟨hrequests, hglobal, hmain, _⟩ := h
  constructor
  · simp [hrequests]
  · simp [hglobal]
  · simp [hmain]

theorem OnlyRepeats.mono {s t : Screen} (h : OnlyRepeats s)
    (hr : ∀ r ∈ t.requests, ∃ r' ∈ s.requests, r.callback = r'.callback)
    (hg : ∀ b ∈ t.globalBlocks, b ∈ s.globalBlocks) (hm : ∀ l ∈ t.mainBlocks, l ∈ s.mainBlocks) :
    OnlyRepeats t := by
  refine ⟨fun r hmem => ?_, fun b hb => h.globalBlocks b (hg b hb), fun l hl => h.mainBlocks l (hm l hl)⟩
  obtain ⟨r', hr', he⟩ := hr r hmem
  rw [he]
  exact h.requests r' hr'

/-- The callback of another query leaves a load on its way. -/
theorem loading_erase {s : Screen} {i : Nat} {query : Query} {read : Option (List Document)}
    (hquery : s.requests[i]? = some ⟨query, read⟩) (hne : query ≠ .load .repeatDownloadFavoriteVerbs)
    (hload : ∃ r ∈ s.requests, r.callback = .load .repeatDownloadFavoriteVerbs) :
    ∃ r ∈ s.requests.eraseIdx i, r.callback = .load .repeatDownloadFavoriteVerbs := by
  obtain ⟨before, after, hl, herase, _⟩ := split_at hquery
  obtain ⟨r, hr, hcall⟩ := hload
  rw [hl] at hr
  rw [herase]
  refine ⟨r, ?_, hcall⟩
  rcases List.mem_append.mp hr with hr | hr
  · simp [hr]
  · rcases List.mem_cons.mp hr with rfl | hr
    · exact absurd hcall hne
    · simp [hr]

/-- A tapped screen is loading, or its button has the colour that it should not have. -/
structure Inverted (name : String) (tapped : Prop) (s : Screen) : Prop where
  repeats : OnlyRepeats s
  inverted : tapped → Loading s ∨
    ∀ v, s.presenter.view = some v → (name ∉ s.presenter.favoritesVerbs ↔ v.favoritesButton = .projectColor)

theorem Inverted.of_same {name : String} {tapped : Prop} {s t : Screen} (h : Inverted name tapped s)
    (hrepeats : OnlyRepeats t) (hloading : Loading s → Loading t) (hpresenter : t.presenter = s.presenter) :
    Inverted name tapped t := by
  refine ⟨hrepeats, fun ht => (h.inverted ht).imp hloading fun hcolor v hv => ?_⟩
  rw [hpresenter] at hv ⊢
  exact hcolor v hv

theorem Inverted.callback {name id : String} {tapped : Prop} {s : Screen} {i : Nat} {query : Query}
    {read : List Document} (h : Inverted name tapped s)
    (hquery : s.requests[i]? = some ⟨query, some read⟩) (hread : read.map (·.documentID) = [id]) :
    Inverted name tapped (callback query read { s with requests := s.requests.eraseIdx i }) := by
  have hmono : OnlyRepeats { s with requests := s.requests.eraseIdx i } :=
    h.repeats.mono (fun r hr => ⟨r, List.mem_of_mem_eraseIdx hr, rfl⟩) (fun _ hb => hb) fun _ hl => hl
  cases query with
  | load l =>
    cases l with
    | onViewDidLoad => exact absurd rfl (h.repeats.requests _ (List.mem_of_getElem? hquery))
    | repeatDownloadFavoriteVerbs =>
      refine ⟨⟨hmono.requests, fun b hb => ?_, hmono.mainBlocks⟩, fun _ => Or.inl (Or.inr (Or.inl ?_))⟩
      · rcases List.mem_append.mp hb with hb | hb
        · exact hmono.globalBlocks b hb
        · obtain ⟨_, _, rfl⟩ := List.mem_map.mp hb
          rfl
      · obtain ⟨document, rfl, _⟩ := List.map_eq_singleton_iff.mp hread
        simp [Details.callback]
  | addFavoriteVerbs verb =>
    refine h.of_same ⟨hmono.requests, hmono.globalBlocks, hmono.mainBlocks⟩ (fun hl => ?_) rfl
    exact hl.imp_left (loading_erase hquery (by simp))
  | deleteFavoriteVerbs verb =>
    refine h.of_same ⟨hmono.requests, hmono.globalBlocks, hmono.mainBlocks⟩ (fun hl => ?_) rfl
    exact hl.imp_left (loading_erase hquery (by simp))

theorem Inverted.step {user name id : String} {verb : IrregularVerb} {tapped : Prop}
    {documents documents' : List Document} {s t : Screen} {e : Event} (h : Inverted name tapped s)
    (howned : Owned id s) (hshows : Shows user verb s)
    (hname : verb.infinitive = some name) (hok : e.isFailure = false)
    (ha : act documents s e = some (documents', t)) :
    Inverted name (tapped ∨ e = .addToFavoritesButton) t := by
  have hsame : ∀ t, Inverted name tapped t → e ≠ .addToFavoritesButton →
      Inverted name (tapped ∨ e = .addToFavoritesButton) t :=
    fun t ht he => ⟨ht.repeats, fun hor => ht.inverted (hor.resolve_right he)⟩
  cases act_cases ha with
  | tap hview =>
    rw [addToFavorites_eq, hshows.tapQueries hname hview]
    refine ⟨⟨fun r hr => ?_, h.repeats.globalBlocks, h.repeats.mainBlocks⟩, fun _ => Or.inl (Or.inl ?_)⟩
    · rcases List.mem_append.mp hr with hr | hr
      · exact h.repeats.requests r hr
      · obtain ⟨q, hq, rfl⟩ := List.mem_map.mp hr
        rcases List.mem_pair.mp hq with rfl | rfl
        · cases s.presenter.favoritesVerbs.contains name <;> simp [toggleQuery]
        · simp
    · exact ⟨{ callback := .load .repeatDownloadFavoriteVerbs }, by simp, rfl⟩
  | back =>
    apply hsame _ _ (by simp)
    refine ⟨⟨h.repeats.requests, h.repeats.globalBlocks, h.repeats.mainBlocks⟩, fun ht => ?_⟩
    exact (h.inverted ht).imp (fun hl => hl) fun _ v hv => by cases hv
  | @served i query hquery =>
    apply hsame _ _ (by simp)
    obtain ⟨before, after, hl, _, hset⟩ := split_at hquery
    refine h.of_same (h.repeats.mono (fun r hr => ?_) (fun _ hb => hb) fun _ hl => hl) (fun hload => ?_) rfl
    · rcases List.mem_or_eq_of_mem_set hr with hr | rfl
      · exact ⟨r, hr, rfl⟩
      · exact ⟨_, List.mem_of_getElem? hquery, rfl⟩
    · refine hload.imp_left fun hasked => ?_
      obtain ⟨r, hr, hcall⟩ := hasked
      rw [hl] at hr
      dsimp only
      rw [hset]
      rcases List.mem_append.mp hr with hr | hr
      · exact ⟨r, by simp [hr], hcall⟩
      · rcases List.mem_cons.mp hr with rfl | hr
        · exact ⟨⟨query, some documents⟩, by simp, hcall⟩
        · exact ⟨r, by simp [hr], hcall⟩
  | @callback i query read hquery =>
    apply hsame _ _ (by simp)
    exact h.callback hquery (howned.read _ (List.mem_of_getElem? hquery) read rfl)
  | failed _ => cases hok
  | @globalBlock i l document hblock =>
    apply hsame _ _ (by simp)
    refine ⟨⟨h.repeats.requests, fun b hb => h.repeats.globalBlocks b (List.mem_of_mem_eraseIdx hb),
      fun m hm => ?_⟩, fun _ => Or.inl (Or.inr (Or.inr (by simp [globalBlock])))⟩
    rcases List.mem_append.mp hm with hm | hm
    · exact h.repeats.mainBlocks m hm
    · rw [List.mem_singleton.mp hm]
      exact h.repeats.globalBlocks _ (List.mem_of_getElem? hblock)
  | @mainBlock i l hblock =>
    apply hsame _ _ (by simp)
    refine ⟨⟨h.repeats.requests, h.repeats.globalBlocks,
      fun m hm => h.repeats.mainBlocks m (List.mem_of_mem_eraseIdx hm)⟩, fun _ => Or.inr fun v hv => ?_⟩
    have hl := h.repeats.mainBlocks l (List.mem_of_getElem? hblock)
    subst hl
    exact repeatDownload_color (s := { s with mainBlocks := s.mainBlocks.eraseIdx i })
      (hshows.of_presenter rfl) hname hv
  | applied _ =>
    apply hsame _ _ (by simp)
    exact h.of_same ⟨h.repeats.requests, h.repeats.globalBlocks, h.repeats.mainBlocks⟩ (fun hl => hl) rfl
  | rejected _ => cases hok

/-! ## The law -/

theorem run_firstLoad {user name : String} {verb : IrregularVerb} {d : Document}
    {h : List ((List Document × Screen) × Event)} {documents : List Document} {s : Screen}
    (hname : verb.infinitive = some name)
    (hr : Run (solo act) ([d], viewDidLoad (some user) (some verb)) h (documents, s))
    (hok : ∀ m ∈ h, m.2.isFailure = false) (htaps : taps h = 0) :
    documents = [d] ∧ FirstLoad name d s := by
  have htap : ∀ m ∈ h, m.2 ≠ .addToFavoritesButton := by
    intro m hm he
    have hcount := List.count_eq_zero.mp htaps
    exact hcount (he ▸ List.mem_map_of_mem hm)
  have hall := hr.guarded
    (I := fun _ s => s.1 = [d] ∧ s.2.writes = [] ∧ Shows user verb s.2 ∧ FirstLoad name d s.2)
    (G := fun _ e => e.isFailure = false ∧ e ≠ .addToFavoritesButton)
    (fun m hm => ⟨hok m hm, htap m hm⟩)
    ⟨rfl, rfl, viewDidLoad_shows user verb, .asked none rfl (by simp) rfl rfl⟩ ?_
  · exact ⟨hall.1, hall.2.2.2⟩
  · rintro _ ⟨documents, s⟩ e ⟨documents', t⟩ ⟨rfl, hw, hshows, hload⟩ ⟨he, htap⟩ hs
    obtain ⟨hdoc, hw', hload'⟩ := hload.step hw hshows hname htap he hs
    exact ⟨hdoc, hw', act_shows hshows hs, hload'⟩

/-- Once the first load is over, a tap leaves the button with the colour that it should not
have, whenever nothing is on its way. -/
theorem a_tap_leaves_the_border_wrong {user name : String} {verb : IrregularVerb} {d : Document}
    {h : List ((List Document × Screen) × Event)} {documents : List Document} {s : Screen}
    (hname : verb.infinitive = some name)
    (hr : Run (solo act) ([d], loaded user (some verb) d) h (documents, s))
    (hok : ∀ m ∈ h, m.2.isFailure = false) (htaps : 0 < taps h) (hdrained : Drained s) :
    ∀ v, s.presenter.view = some v →
      (name ∉ s.presenter.favoritesVerbs ↔ v.favoritesButton = .projectColor) := by
  have hall := hr.guarded
    (I := fun h s => s.1.map (·.documentID) = [d.documentID] ∧ Owned d.documentID s.2 ∧
      Shows user verb s.2 ∧ Inverted name (0 < taps h) s.2)
    (G := fun _ e => e.isFailure = false) hok
    ⟨rfl, loaded_owned user _ _ d, loaded_shows user verb d,
      (loaded_drained user _ d).onlyRepeats, fun ht => absurd ht (by simp [taps])⟩ ?_
  · obtain ⟨_, _, _, hinverted⟩ := hall
    apply (hinverted.inverted htaps).resolve_left
    rintro (⟨r, hr, _⟩ | hg | hm)
    · simp [hdrained.1] at hr
    · exact hg hdrained.2.1
    · exact hm hdrained.2.2.1
  · rintro h ⟨documents, s⟩ e ⟨documents', t⟩ ⟨hids, howned, hshows, hinverted⟩ he hs
    obtain ⟨hids', howned'⟩ := act_owned hids howned hs
    refine ⟨hids', howned', act_shows hshows hs, ?_⟩
    have hnext := hinverted.step howned hshows hname he hs
    refine ⟨hnext.repeats, fun ht => hnext.inverted ?_⟩
    rw [taps_snoc] at ht
    by_cases he : e = .addToFavoritesButton
    · exact Or.inr he
    · rw [if_neg he] at ht
      exact Or.inl ht

/-- Any number of taps, each with all that it causes before the next one. -/
theorem exists_run_with_taps {user name : String} {verb : IrregularVerb} (d : Document)
    (hname : verb.infinitive = some name) (n : Nat) :
    ∃ h d' s, Run (solo act) ([d], loaded user (some verb) d) h ([d'], s) ∧
      (∀ m ∈ h, m.2.isFailure = false) ∧ taps h = n ∧ Drained s ∧ Shows user verb s ∧
      s.presenter.view.isSome := by
  induction n with
  | zero =>
    exact ⟨[], d, _, .start, by simp, rfl, loaded_drained user _ d, loaded_shows user verb d, rfl⟩
  | succ n ih =>
    obtain ⟨h, d', s, hr, hok, htaps, hdrained, hshows, hview⟩ := ih
    obtain ⟨d'', happly, _⟩ :=
      applyTo_writeOf (toggleUpdate name (s.presenter.favoritesVerbs.contains name)) d'
    obtain ⟨h', hr', hevents⟩ :=
      exists_run_of_exec (exec_tapAndWait hshows hname hview hdrained happly)
    refine ⟨h ++ h', d'', _, hr.trans hr', List.forall_mem_append.mpr ⟨hok, ?_⟩, ?_, ?_, ?_, ?_⟩
    · have hoktap : ∀ e ∈ tapAndWait d' d'', e.isFailure = false := by
        simp [tapAndWait, Event.isFailure]
      exact forall_of_events hevents hoktap
    · rw [taps_append, htaps]
      unfold taps
      rw [hevents]
      rfl
    · exact ⟨hdrained.1, hdrained.2.1, rfl, hdrained.2.2.2⟩
    · exact mainBlock_shows ⟨hshows.userID, hshows.view⟩
    · rw [mainBlock, Option.isSome_map]
      exact hview

/-- The three views of a favourite agree in every run with `n` taps, whenever nothing is on its
way and nothing failed, exactly when `n` is 0. -/
theorem the_three_views_agree_iff_no_tap {user name : String} {verb : IrregularVerb} {d : Document}
    (hname : verb.infinitive = some name) (n : Nat) :
    (∀ h documents s, Run (solo act) ([d], viewDidLoad (some user) (some verb)) h (documents, s) →
      (∀ m ∈ h, m.2.isFailure = false) → taps h = n → Drained s →
      ∀ v, s.presenter.view = some v → ViewsAgree name documents s v) ↔ n = 0 := by
  constructor
  · intro hagree
    by_contra hn
    obtain ⟨h1, hr1, hevents⟩ := exists_run_of_exec (exec_firstLoad user (some verb) d)
    obtain ⟨h2, d', s, hr2, hok, htaps, hdrained, _, hview⟩ := exists_run_with_taps d hname n
    obtain ⟨v, hv⟩ := Option.isSome_iff_exists.mp hview
    have hborder := a_tap_leaves_the_border_wrong hname hr2 hok (by omega) hdrained v hv
    have hokfirst : ∀ e ∈ firstLoad d, e.isFailure = false := by simp [firstLoad, Event.isFailure]
    have hok1 : ∀ m ∈ h1, m.2.isFailure = false := forall_of_events hevents hokfirst
    have htaps1 : taps h1 = 0 := by
      unfold taps
      rw [hevents]
      rfl
    have hviews := (hagree (h1 ++ h2) [d'] s (hr1.trans hr2)
      (List.forall_mem_append.mpr ⟨hok1, hok⟩)
      (by rw [taps_append, htaps1, htaps, Nat.zero_add]) hdrained v hv).2
    rw [← hviews] at hborder
    exact not_iff_self hborder
  · rintro rfl h documents s hr hok htaps hdrained v hv
    obtain ⟨rfl, hload⟩ := run_firstLoad hname hr hok htaps
    obtain ⟨hrequests, hglobal, hmain, _⟩ := hdrained
    cases hload with
    | asked _ h1 _ _ _ => simp [hrequests] at h1
    | answered _ h2 _ => simp [hglobal] at h2
    | stored _ _ h3 _ => simp [hmain] at h3
    | finished _ _ _ hlocal hcolor =>
      rw [ViewsAgree, hlocal]
      exact ⟨by simp, hcolor v hv⟩

/-- The first load of a favourite. -/
theorem the_views_agree_after_the_first_load :
    ∃ s v, exec (solo act)
        ([favoritesDocument ["be"]], viewDidLoad (some "user") (some (verbNamed "be")))
        (firstLoad (favoritesDocument ["be"])) = some ([favoritesDocument ["be"]], s) ∧
      s.presenter.view = some v ∧ ViewsAgree "be" [favoritesDocument ["be"]] s v := by
  have hrun := exec_firstLoad "user" (some (verbNamed "be")) (favoritesDocument ["be"])
  refine ⟨_, _, hrun, rfl, ?_⟩
  have hname : (verbNamed "be").infinitive = some "be" := rfl
  exact (the_three_views_agree_iff_no_tap hname 0).mpr rfl _ _ _ (run_of_exec hrun) (by decide)
    (by decide) (by decide) _ rfl

/-- One tap stores the verb, and its load finds it and colours the button white. -/
theorem the_views_differ_after_a_tap :
    (∀ e ∈ tapAndWait (favoritesDocument []) (favoritesDocument ["be"]), e.isFailure = false) ∧
    ∃ documents s v, exec (solo act)
        ([favoritesDocument []], viewDidLoad (some "user") (some (verbNamed "be")))
        (firstLoad (favoritesDocument []) ++
          tapAndWait (favoritesDocument []) (favoritesDocument ["be"])) = some (documents, s) ∧
      Drained s ∧ s.presenter.view = some v ∧ ¬ ViewsAgree "be" documents s v := by
  refine ⟨by decide, _, _, _, rfl, by decide, rfl, ?_⟩
  rintro ⟨_, hborder⟩
  revert hborder
  decide

end EasyVerbs.Details
