-- The law of the words: where the verb of a Details screen and the words of the
-- favourites come from. They go from a file of verbs through the table and a cell of a
-- list to a Details screen, and from there with a tap to the server.
import EasyVerbs.AliveScreens
import EasyVerbs.VocabularySearch

open Runs Parties Updates

namespace EasyVerbs.Navigation

open SignUp (Backend)
open Search (SearchTable)
open Details (Names writeOf)

/-! ## What is known of the lists -/

/-- All verbs that the table has or searches in are in the list `vs`. -/
structure TableOf (vs : List IrregularVerb) (t : SearchTable) : Prop where
  source : t.source ⊆ vs
  results : t.resaltsOfSearch ⊆ vs
  read : ∀ op ∈ t.searchOperationQueue.running, ∀ read ∈ op.read, read ⊆ vs

variable {vs ws : List IrregularVerb}

theorem TableOf.mono {t : SearchTable} (h : TableOf vs t) (hvs : vs ⊆ ws) : TableOf ws t :=
  ⟨fun _ hv => hvs (h.source hv), fun _ hv => hvs (h.results hv),
    fun op hop read hread _ hv => hvs (h.read op hop read hread hv)⟩

theorem change_tableOf {t t' : SearchTable} {c : SearchTable.Change} (h : TableOf vs t) (hc : t.change c = some t')
    (hnew : ∀ source, c = .delivered source → source ⊆ vs) : TableOf vs t' := by
  cases c with
  | delivered source =>
    cases hc
    exact ⟨hnew source rfl, h.results, h.read⟩
  | event e =>
    cases e with
    | searchBarShouldBeginEditing | textDidChange _ | searchBarCancelButtonClicked =>
      cases hc
      exact ⟨h.source, h.results, h.read⟩
    | operationStarts =>
      cases SearchTable.step_operationStarts hc with
      | starts _ ht =>
        subst ht
        refine ⟨h.source, h.results, fun op hop read hread => ?_⟩
        cases hop
        cases hread
    | operationReads =>
      cases SearchTable.step_operationReads hc with
      | reads _ ht =>
        subst ht
        refine ⟨h.source, h.results, fun op hop read hread => ?_⟩
        cases hop
        cases hread
        exact h.source
    | operationEnds =>
      cases SearchTable.step_operationEnds hc with
      | @ends text waiting read hq ht =>
        subst ht
        refine ⟨h.source, fun v hv => ?_, fun op hop => by cases hop⟩
        exact h.read _ (by rw [hq]; rfl) read rfl (List.mem_of_mem_filter hv)
    | reloadTableView =>
      rw [SearchTable.step_reloadTableView hc]
      exact ⟨h.source, h.results, h.read⟩

/-- The cell of a row has a verb of the table. -/
theorem TableOf.currentVerbs {t : SearchTable} {row : Nat} {v : IrregularVerb} (h : TableOf vs t)
    (hv : t.currentVerbs row = some v) : v ∈ vs := by
  unfold SearchTable.currentVerbs at hv
  split at hv
  · exact h.results (List.mem_of_getElem? hv)
  · exact h.source (List.mem_of_getElem? hv)

/-- The file that a download waits to hand over is in the list too. -/
def FileOf (vs : List IrregularVerb) (d : Download) : Prop := ∀ json, d = .decoded json → json ⊆ vs

theorem answered_fileOf {d d' : Download} {json : Option (List IrregularVerb)}
    (hanswered : d.answered json = some d') (hjson : json.getD [] ⊆ vs) : FileOf vs d' := by
  intro file hd
  subst hd
  cases d with
  | waiting =>
    cases json with
    | none => cases hanswered
    | some json =>
      cases hanswered
      exact hjson
  | _ => cases hanswered

structure AllVerbsOf (vs : List IrregularVerb) (p : AllVerbs.Screen) : Prop where
  table : TableOf vs p.toSearchTable
  file : FileOf vs p.download

structure FavoritesOf (vs : List IrregularVerb) (p : FavoriteVerbs.Screen) : Prop where
  table : TableOf vs p.toSearchTable
  file : FileOf vs p.download
  allVerbs : p.allVerbs ⊆ vs

theorem step_allVerbsOf {p q : AllVerbs.Screen} {e : AllVerbs.Event} (h : AllVerbsOf vs p) (hs : p.step e = some q)
    (hfile : ∀ json, e = .downloadAnswered (some json) → json ⊆ vs) : AllVerbsOf vs q := by
  have hseen := AllVerbs.step_seen p e q hs
  cases e with
  | table e =>
    have hdownload : q.download = p.download := by
      have hstep : (p.toSearchTable.step e).map (fun t => { p with toSearchTable := t }) = some q := by
        cases e <;> exact hs
      obtain ⟨t, _, rfl⟩ := Option.map_eq_some_iff.mp hstep
      rfl
    exact ⟨change_tableOf h.table hseen (fun _ hc => by cases hc), hdownload ▸ h.file⟩
  | downloadAnswered json =>
    obtain ⟨d, hanswered, rfl⟩ := Option.map_eq_some_iff.mp hs
    refine ⟨h.table, answered_fileOf hanswered ?_⟩
    cases json with
    | none => exact List.nil_subset _
    | some json => exact hfile json rfl
  | downloadDelivered =>
    unfold AllVerbs.Screen.step at hs
    dsimp only at hs
    split at hs
    · rename_i json hdecoded
      cases hs
      refine ⟨change_tableOf h.table (c := .delivered json) rfl ?_, fun _ hd => by cases hd⟩
      intro source hc
      cases hc
      exact h.file json hdecoded
    · cases hs

theorem step_favoritesOf {p q : FavoriteVerbs.Screen} {e : FavoriteVerbs.Event} (h : FavoritesOf vs p)
    (hs : p.step e = some q) (hfile : ∀ json, e = .downloadAnswered (some json) → json ⊆ vs) :
    FavoritesOf vs q := by
  cases FavoriteVerbs.step_cases hs with
  | @table e t htable =>
    exact ⟨change_tableOf h.table (c := .event e) htable (fun _ hc => by cases hc), h.file, h.allVerbs⟩
  | @downloadAnswered json d hanswered =>
    refine ⟨h.table, answered_fileOf hanswered ?_, h.allVerbs⟩
    cases json with
    | none => exact List.nil_subset _
    | some json => exact hfile json rfl
  | @downloadDelivered json hdecoded =>
    unfold FavoriteVerbs.favoritesVerbsFromFirebase
    split
    · exact ⟨h.table, fun _ hd => (by cases hd), h.file json hdecoded⟩
    · exact ⟨h.table, fun _ hd => (by cases hd), h.file json hdecoded⟩
  | served _ | callback _ | failed => exact ⟨h.table, h.file, h.allVerbs⟩
  | favoritesBlock _ =>
    refine ⟨⟨fun v hv => ?_, h.table.results, h.table.read⟩, h.file, h.allVerbs⟩
    exact h.allVerbs (List.mem_of_mem_filter hv)

/-- A new list has no verbs. -/
theorem new_tableOf : TableOf vs {} :=
  ⟨List.nil_subset _, List.nil_subset _, fun op hop => by cases hop⟩

theorem new_allVerbsOf : AllVerbsOf vs AllVerbs.viewDidLoad :=
  ⟨new_tableOf, fun _ hd => by cases hd⟩

theorem new_favoritesOf (user : Option String) : FavoritesOf vs (FavoriteVerbs.viewDidLoad user) :=
  ⟨new_tableOf, fun _ hd => (by cases hd), List.nil_subset _⟩

theorem favoritesAct_of {users users' : List Document} {p q : FavoriteVerbs.Screen} {e : FavoriteVerbs.Event}
    (h : FavoritesOf vs p) (ha : App.favoritesAct users p e = some (users', q))
    (hfile : ∀ json, e = .downloadAnswered (some json) → json ⊆ vs) : FavoritesOf vs q := by
  cases e with
  | served i read => exact step_favoritesOf h (App.eq_some_of_pair ha) fun _ he => by cases he
  | _ => exact step_favoritesOf h (App.eq_some_of_pair ha) hfile

/-! ## What is known of the Details screens -/

def wordsOf (vs : List IrregularVerb) : List String := vs.filterMap (·.infinitive)

theorem wordsOf_mono (hvs : vs ⊆ ws) : wordsOf vs ⊆ wordsOf ws := by
  intro word hword
  obtain ⟨v, hv, hinf⟩ := List.mem_filterMap.mp hword
  exact List.mem_filterMap.mpr ⟨v, hvs hv, hinf⟩

/-- The screen shows an entry of the list, and has to do with words of the list only. -/
structure DetailsOf (vs : List IrregularVerb) (p : Details.Screen) : Prop where
  entry : ∀ view, p.presenter.view = some view → ∃ v ∈ vs, view.verbFromDelegate = some v
  names : Names (wordsOf vs) p

theorem DetailsOf.mono {p : Details.Screen} (h : DetailsOf vs p) (hvs : vs ⊆ ws) : DetailsOf ws p := by
  have hwords := wordsOf_mono hvs
  refine ⟨fun view hview => ?_, ?_⟩
  · obtain ⟨v, hv, hverb⟩ := h.entry view hview
    exact ⟨v, hvs hv, hverb⟩
  · refine ⟨fun i hi => hwords (h.names.verb i hi), fun q hq verb favorite hquery => ?_, fun w hw => ?_⟩
    · exact hwords (h.names.queries q hq verb favorite hquery)
    · obtain ⟨id, u, hwrite, hu⟩ := h.names.writes w hw
      exact ⟨id, u, hwrite, hwords hu⟩

theorem viewDidLoad_of {v : IrregularVerb} (hv : v ∈ vs) (user : Option String) :
    DetailsOf vs (Details.viewDidLoad user (some v)) := by
  have hword : ∀ infinitive, v.infinitive = some infinitive → infinitive ∈ wordsOf vs := fun infinitive hinf =>
    List.mem_filterMap.mpr ⟨v, hv, hinf⟩
  cases user with
  | none =>
    refine ⟨fun view hview => ?_, hword, fun q hq => (by cases hq), fun w hw => (by cases hw)⟩
    cases hview
    exact ⟨v, hv, rfl⟩
  | some user =>
    refine ⟨fun view hview => ?_, Details.viewDidLoad_names hword⟩
    cases hview
    exact ⟨v, hv, rfl⟩

/-- What the server reads for a query changes no name, and the other events do not read. -/
theorem step_names {names : List String} {p q : Details.Screen} {e : Details.Event} (h : Names names p)
    (hs : p.step e = some q) : Names names q := by
  by_cases hserved : ∃ i read, e = .served i read
  · obtain ⟨i, read, rfl⟩ := hserved
    obtain ⟨rs, hserve, rfl⟩ := Option.map_eq_some_iff.mp hs
    obtain ⟨query, hquery, rfl⟩ := serve_eq_some hserve
    refine h.of_less (fun _ hi => hi) (fun x hx => ?_) fun _ hw => hw
    obtain ⟨r, hr, rfl⟩ := List.mem_map.mp hx
    rcases List.mem_or_eq_of_mem_set hr with hr | rfl
    · exact List.mem_map_of_mem hr
    · exact List.mem_map.mpr ⟨_, List.mem_of_getElem? hquery, rfl⟩
  · have ha : Details.act [] p e = some ([], q) := by
      cases e with
      | served i read => exact absurd ⟨i, read, rfl⟩ hserved
      | applied i =>
        have hi : i < p.writes.length := by
          by_contra hi
          simp [Details.Screen.step, hi] at hs
        unfold Details.act
        dsimp only
        rw [List.getElem?_eq_getElem hi]
        dsimp only
        rw [hs]
        rfl
      | _ => exact congrArg (Option.map ([], ·)) hs
    have hnone : Details.StoredIn names [] := fun d hd => by cases hd
    exact (Details.act_names hnone h ha).2

theorem act_entry {documents documents' : List Document} {p q : Details.Screen} {e : Details.Event}
    (ha : Details.act documents p e = some (documents', q)) {view : Details.DetailsView}
    (hview : q.presenter.view = some view) :
    ∃ view', p.presenter.view = some view' ∧ view'.verbFromDelegate = view.verbFromDelegate := by
  cases Details.act_cases ha with
  | tap _ =>
    rw [Details.addToFavorites_eq] at hview
    exact ⟨view, hview, rfl⟩
  | back => cases hview
  | @callback i query read _ =>
    refine ⟨view, ?_, rfl⟩
    cases query <;> exact hview
  | @mainBlock i l _ =>
    obtain ⟨view', hview', rfl⟩ := Option.map_eq_some_iff.mp hview
    exact ⟨view', hview', (Details.colorButtonOnStart_verb _ _).symm⟩
  | _ => exact ⟨view, hview, rfl⟩

theorem detailsAct_of {users users' : List Document} {p q : Details.Screen} {e : Details.Event}
    (h : DetailsOf vs p) (ha : App.detailsAct users p e = some (users', q)) : DetailsOf vs q := by
  constructor
  · intro view hview
    obtain ⟨view', hview', hverb⟩ := act_entry (App.detailsAct_own ha) hview
    rw [← hverb]
    exact h.entry view' hview'
  · obtain ⟨e', hs⟩ := App.detailsAct_step ha
    exact step_names h.names hs

/-! ## What is known of the documents -/

/-- A training writes best scores only. -/
def WritesScores (p : Learning.Screen) : Prop := ∀ w ∈ p.writes, w.field = "bestScore"

theorem step_writesScores {p q : Learning.Screen} {e : Learning.Event} (h : WritesScores p)
    (hs : p.step e = some q) : WritesScores q := by
  unfold WritesScores at h ⊢
  cases Learning.step_scores hs with
  | same hsame _ _ => rwa [hsame.writes]
  | better _ _ _ _ _ _ hwrites => rwa [hwrites]
  | @callback i query read _ ht =>
    subst ht
    cases query with
    | bestScoreFromFirebase => exact h
    | updateBestScore =>
      intro w hw
      rcases List.mem_append.mp hw with hw | hw
      · exact h w hw
      · obtain ⟨d, _, rfl⟩ := List.mem_map.mp hw
        rfl
  | applied _ ht | rejected ht =>
    subst ht
    exact fun w hw => h w (List.mem_of_mem_eraseIdx hw)
  | served _ ht | failed ht | block _ ht =>
    subst ht
    exact h

/-- Each favourite of the document is a word of the list, or it was there before. -/
def Traced (vs : List IrregularVerb) (before : List Document) (d : Document) : Prop :=
  ∀ word ∈ d.favoritesVerbs,
    word ∈ wordsOf vs ∨ ∃ d₀ ∈ before, d₀.documentID = d.documentID ∧ word ∈ d₀.favoritesVerbs

/-- What is stored brings words of the list only. -/
def Brings (vs : List IrregularVerb) : App.Stored → Prop
  | .addDocument d => d.favoritesVerbs = []
  | .updateData w => w.field = "bestScore" ∨ ∃ id u, w = writeOf id u ∧ u.subject ∈ wordsOf vs

variable {before : List Document}

theorem Traced.mono {d : Document} (h : Traced vs before d) (hvs : vs ⊆ ws) : Traced ws before d :=
  fun word hword => (h word hword).imp_left fun hmem => wordsOf_mono hvs hmem

theorem traced_updateData {w : Write} {d : Document} (hw : Brings vs (.updateData w)) (h : Traced vs before d) :
    Traced vs before (d.updateData w.field w.update) := by
  intro word hword
  rcases hw with hscore | ⟨id, u, rfl, hu⟩
  · rw [hscore, updateData_keeps_favoritesVerbs] at hword
    exact h word hword
  · rw [Details.updateData_writeOf, mem_apply] at hword
    split at hword
    · rename_i hsubject
      exact Or.inl (hsubject ▸ hu)
    · exact h word hword

theorem applyTo_traced {users : List Document} {x : App.Stored} (hx : Brings vs x)
    (h : ∀ d ∈ users, Traced vs before d) : ∀ d ∈ x.applyTo users, Traced vs before d := by
  cases x with
  | addDocument d =>
    intro d' hd'
    rcases List.mem_append.mp hd' with hd' | hd'
    · exact h d' hd'
    · intro word hword
      have hnone : d.favoritesVerbs = [] := hx
      rw [List.mem_singleton.mp hd', hnone] at hword
      cases hword
  | updateData w =>
    intro d' hd'
    obtain ⟨d, hd, rfl⟩ := List.mem_map.mp hd'
    split
    · exact traced_updateData hx (h d hd)
    · exact h d hd

theorem foldl_traced {stored : List App.Stored} {users : List Document} (hstored : ∀ x ∈ stored, Brings vs x)
    (h : ∀ d ∈ users, Traced vs before d) : ∀ d ∈ stored.foldl App.Stored.applyTo users, Traced vs before d := by
  induction stored generalizing users with
  | nil => exact h
  | cons x stored ih =>
    rw [List.forall_mem_cons] at hstored
    exact ih hstored.2 (applyTo_traced hstored.1 h)

/-! ## The app -/

/-- The file of verbs that an event brings to a list. -/
def fileOf : App.Event → List IrregularVerb
  | .allVerbs (.act _ (.downloadAnswered json)) => json.getD []
  | .favorites (.act _ (.downloadAnswered json)) => json.getD []
  | _ => []

/-- All verbs in the app are in the list `vs`, and so are the words of the favourites that are new since
the documents `before`. -/
structure Known (vs : List IrregularVerb) (before : List Document) (app : App.State) : Prop where
  owned : App.Owned app
  allVerbs : ∀ p ∈ app.allVerbs, AllVerbsOf vs p
  favorites : ∀ p ∈ app.favorites, FavoritesOf vs p
  details : ∀ p ∈ app.details, DetailsOf vs p
  trainings : ∀ p ∈ app.trainings, WritesScores p
  users : ∀ d ∈ app.backend.users, Traced vs before d

theorem Known.mono {app : App.State} (h : Known vs before app) (hvs : vs ⊆ ws) : Known ws before app where
  owned := h.owned
  allVerbs p hp := ⟨(h.allVerbs p hp).table.mono hvs, fun json hd _ hv => hvs ((h.allVerbs p hp).file json hd hv)⟩
  favorites p hp :=
    have hpv := h.favorites p hp
    ⟨hpv.table.mono hvs, fun json hd _ hv => hvs (hpv.file json hd hv), fun _ hv => hvs (hpv.allVerbs hv)⟩
  details p hp := (h.details p hp).mono hvs
  trainings := h.trainings
  users d hd := (h.users d hd).mono hvs

/-- What an event stores comes from the screens and the sign-ups as they were. -/
theorem Known.stores {app : App.State} (h : Known vs before app) (e : App.Event) :
    ∀ x ∈ App.stores app e, Brings vs x := by
  intro x hx
  cases e with
  | signUp m =>
    obtain ⟨i, e, a, _, ha, hx⟩ := mem_outputOf hx
    unfold App.signUpStores at hx
    split at hx
    · split at hx
      · rename_i data hdoc
        rw [List.mem_singleton.mp hx]
        obtain ⟨email, password, uid, rfl⟩ := h.owned.signUps a (List.mem_of_getElem? ha) data hdoc
        rfl
      · cases hx
    · cases hx
  | training m =>
    obtain ⟨i, e, p, _, hp, hx⟩ := mem_outputOf hx
    unfold App.trainingStores at hx
    split at hx
    · rw [Option.mem_toList, Option.map_eq_some_iff] at hx
      obtain ⟨w, hw, rfl⟩ := hx
      exact Or.inl (h.trainings p (List.mem_of_getElem? hp) w (List.mem_of_getElem? hw))
    · cases hx
  | details m =>
    obtain ⟨i, e, p, _, hp, hx⟩ := mem_outputOf hx
    unfold App.detailsStores at hx
    split at hx
    · rw [Option.mem_toList, Option.map_eq_some_iff] at hx
      obtain ⟨w, hw, rfl⟩ := hx
      exact Or.inr ((h.details p (List.mem_of_getElem? hp)).names.writes w (List.mem_of_getElem? hw))
    · cases hx
  | signOutByForce _ | signIn _ | favorites _ | allVerbs _ => cases hx

/-- A Details screen comes for a verb of the list only. -/
def OpensKnown (vs : List IrregularVerb) (e : App.Event) : Prop :=
  ∀ verb, e = .details (.join verb) → ∃ v ∈ vs, verb = some v

theorem step_known {app app' : App.State} {e : App.Event} (h : Known vs before app) (he : OpensKnown vs e)
    (hs : App.step app e = some app') (hfile : fileOf e ⊆ vs) : Known vs before app' := by
  have howned := App.step_owned h.owned hs
  have husers : ∀ d ∈ app'.backend.users, Traced vs before d := by
    rw [App.step_users hs]
    exact foldl_traced (h.stores e) h.users
  cases e with
  | signOutByForce userID =>
    cases hs
    exact ⟨howned, h.allVerbs, h.favorites, h.details, h.trainings, husers⟩
  | signUp m | signIn m =>
    obtain ⟨r, _, rfl⟩ := Option.map_eq_some_iff.mp hs
    exact ⟨howned, h.allVerbs, h.favorites, h.details, h.trainings, husers⟩
  | training m =>
    obtain ⟨r, hr, rfl⟩ := Option.map_eq_some_iff.mp hs
    refine ⟨howned, h.allVerbs, h.favorites, h.details, ?_, husers⟩
    refine step_all hr h.trainings (fun _ => ?_) fun _ _ _ _ _ hp ha => ?_
    · cases app.currentUser <;> exact fun w hw => (by cases hw)
    · obtain ⟨e', hstep⟩ := App.trainingAct_step ha
      exact step_writesScores hp hstep
  | details m =>
    obtain ⟨r, hr, rfl⟩ := Option.map_eq_some_iff.mp hs
    refine ⟨howned, h.allVerbs, h.favorites, ?_, h.trainings, husers⟩
    cases m with
    | join verb =>
      cases hr
      obtain ⟨v, hv, rfl⟩ := he verb rfl
      intro p hp
      rcases List.mem_append.mp hp with hp | hp
      · exact h.details p hp
      · rw [List.mem_singleton.mp hp]
        exact viewDidLoad_of hv _
    | act i e =>
      obtain ⟨p, d, q, hp, ha, rfl⟩ := step_act_eq_some hr
      intro x hx
      rcases (mem_set_iff (lt_of_party hp)).mp hx with rfl | hx
      · exact detailsAct_of (h.details p (List.mem_of_getElem? hp)) ha
      · exact h.details x (List.mem_of_mem_eraseIdx hx)
  | favorites m =>
    obtain ⟨r, hr, rfl⟩ := Option.map_eq_some_iff.mp hs
    refine ⟨howned, h.allVerbs, ?_, h.details, h.trainings, husers⟩
    cases m with
    | join _ =>
      cases hr
      intro p hp
      rcases List.mem_append.mp hp with hp | hp
      · exact h.favorites p hp
      · rw [List.mem_singleton.mp hp]
        exact new_favoritesOf _
    | act i e =>
      obtain ⟨p, d, q, hp, ha, rfl⟩ := step_act_eq_some hr
      intro x hx
      rcases (mem_set_iff (lt_of_party hp)).mp hx with rfl | hx
      · refine favoritesAct_of (h.favorites p (List.mem_of_getElem? hp)) ha fun json he => ?_
        subst he
        exact hfile
      · exact h.favorites x (List.mem_of_mem_eraseIdx hx)
  | allVerbs m =>
    obtain ⟨r, hr, rfl⟩ := Option.map_eq_some_iff.mp hs
    refine ⟨howned, ?_, h.favorites, h.details, h.trainings, husers⟩
    cases m with
    | join _ =>
      cases hr
      intro p hp
      rcases List.mem_append.mp hp with hp | hp
      · exact h.allVerbs p hp
      · rw [List.mem_singleton.mp hp]
        exact new_allVerbsOf
    | act i e =>
      obtain ⟨p, d, q, hp, ha, rfl⟩ := step_act_eq_some hr
      have hstep : p.step e = some q := App.eq_some_of_pair ha
      intro x hx
      rcases (mem_set_iff (lt_of_party hp)).mp hx with rfl | hx
      · refine step_allVerbsOf (h.allVerbs p (List.mem_of_getElem? hp)) hstep fun json he => ?_
        subst he
        exact hfile
      · exact h.allVerbs x (List.mem_of_mem_eraseIdx hx)

/-! ## The controllers -/

/-- Each cell was configured with a verb of the list. -/
def CellsOf (vs : List IrregularVerb) (cs : List Controller) : Prop :=
  ∀ l i cells, .verbs l i cells ∈ cs → ∀ cell ∈ cells, ∃ v ∈ vs, cell.verb = some v

variable {s t u : State} {e : Event}

theorem CellsOf.mono {cs : List Controller} (h : CellsOf vs cs) (hvs : vs ⊆ ws) : CellsOf ws cs := by
  intro l i cells hmem cell hcell
  obtain ⟨v, hv, hverb⟩ := h l i cells hmem cell hcell
  exact ⟨v, hvs hv, hverb⟩

/-- Controllers go, or others come that are no lists. -/
theorem CellsOf.of_mem {cs cs' : List Controller} (h : CellsOf vs cs)
    (hcs : ∀ c : Controller, c.kind = .verbs → c ∈ cs' → c ∈ cs) : CellsOf vs cs' :=
  fun l i cells hmem => h l i cells (hcs _ rfl hmem)

theorem CellsOf.after {cs : List Controller} (h : CellsOf vs cs) (a : App.Event) :
    CellsOf vs (cs.map (Controller.after a)) := by
  intro l i cells hmem cell hcell
  obtain ⟨c, hc, heq⟩ := List.mem_map.mp hmem
  cases c with
  | verbs l' i' cells' =>
    cases heq
    split at hcell
    · cases hcell
    · exact h _ _ _ hc cell hcell
  | _ => cases heq

theorem exec_cells {es : List App.Event} (hcalls : exec State.call s es = some u) (h : CellsOf vs s.presented) :
    CellsOf vs u.presented :=
  exec_invariant (I := fun v => CellsOf vs v.presented) (G := fun _ => True) hcalls (fun _ _ => trivial) h
    fun v a w hv _ hs => by
      rw [(call_eq_some hs).2]
      exact hv.after a

/-- The table of a list has verbs of the list only. -/
theorem Known.cellForRowAt {app : App.State} {l : VerbList} {i row : Nat} {cell : VerbCell}
    (h : Known vs before app) (hcell : l.cellForRowAt i row app = some cell) : ∃ v ∈ vs, cell.verb = some v := by
  unfold VerbList.cellForRowAt at hcell
  split at hcell
  · cases hcell
  · rename_i t ht
    rw [Option.ite_none_right_eq_some] at hcell
    obtain ⟨v, hv, rfl⟩ := Option.map_eq_some_iff.mp hcell.2
    have htable : TableOf vs t := by
      cases l with
      | allVerbs =>
        obtain ⟨p, hp, rfl⟩ := Option.map_eq_some_iff.mp ht
        exact (h.allVerbs p (List.mem_of_getElem? hp)).table
      | favoriteVerbs =>
        obtain ⟨p, hp, rfl⟩ := Option.map_eq_some_iff.mp ht
        exact (h.favorites p (List.mem_of_getElem? hp)).table
    exact ⟨v, htable.currentVerbs hv, rfl⟩

theorem CellsOf.dismiss (h : CellsOf vs u.presented) : CellsOf vs u.dismiss.presented :=
  h.of_mem fun _ _ hmem => List.mem_of_mem_tail hmem

theorem CellsOf.present {c : Controller} (h : CellsOf vs u.presented)
    (hc : ∀ l i cells, c = .verbs l i cells → cells = []) : CellsOf vs (u.present c).presented := by
  intro l i cells hmem cell hcell
  rcases List.mem_cons.mp hmem with heq | hmem
  · rw [hc l i cells heq.symm] at hcell
    cases hcell
  · exact h l i cells hmem cell hcell

theorem Turn.cells {es : List App.Event} (ht : Turn s u e es t) (hcalls : exec State.call s es = some u)
    (hk : Known vs before s.app) (h : CellsOf vs s.presented) : CellsOf vs t.presented := by
  have hu := exec_cells hcalls h
  have hkind : ∀ c : Controller, c.kind = .verbs → c.kind ≠ .alert ∧ c.kind ≠ .menu := by
    intro c hc
    rw [hc]
    decide
  cases ht with
  | noUser | searchBar _ _ => exact hu
  | active _ => exact hu.of_mem fun c hc hmem => (mem_rootPresents (hkind c hc).2).mp hmem
  | alertAction _ | leaveSignUp _ | createNewAccount _ | leaveVerbs _ => exact hu.dismiss
  | signUp _ | tapButton _ _ => exact hu.present fun _ _ _ heq => by cases heq
  | loginButton _ => exact hu.of_mem fun c hc hmem => (mem_rootAlerts (hkind c hc).1).mp hmem
  | refused _ =>
    refine hu.of_mem fun c hc hmem => ?_
    rcases List.mem_cons.mp hmem with rfl | hmem
    · cases hc
    · rcases List.mem_cons.mp hmem with rfl | hmem
      · cases hc
      · exact List.mem_of_mem_tail hmem
  | @menu row vc under _ =>
    refine hu.present fun l i cells heq => ?_
    cases vc <;> cases heq <;> rfl
  | learning _ | details _ =>
    split
    · exact hu.dismiss
    · exact hu
  | @cellForRowAt row l i cells under cell hlast hcell =>
    have hcells := h l i cells (by rw [hlast]; exact List.mem_cons_self)
    intro l' i' cells' hmem cell' hcell'
    rcases List.mem_cons.mp hmem with heq | hmem
    · cases heq
      rcases List.mem_append.mp hcell' with hcell' | hcell'
      · exact hcells cell' hcell'
      · rw [List.mem_singleton.mp hcell']
        exact hk.cellForRowAt hcell
    · exact h l' i' cells' (by rw [hlast]; exact List.mem_cons_of_mem _ hmem) cell' hcell'
  | background _ =>
    exact hu.of_mem fun c hc hmem => (mem_answered (hkind c hc).1 (hkind c hc).2).mp hmem

/-- What the user does brings no file. A Details screen comes for the verb of a cell. -/
theorem Turn.calls_known {es : List App.Event} (ht : Turn s u e es t) (h : CellsOf vs s.presented)
    (hfile : ∀ a, e = .background a → fileOf a ⊆ vs) : ∀ a ∈ es, OpensKnown vs a ∧ fileOf a ⊆ vs := by
  have hquiet : ∀ a : App.Event, fileOf a = [] → (∀ verb, a ≠ .details (.join verb)) →
      OpensKnown vs a ∧ fileOf a ⊆ vs := fun a hnone hno =>
    ⟨fun verb he => absurd he (hno verb), hnone ▸ List.nil_subset _⟩
  cases ht with
  | active _ | noUser | alertAction _ | signUp _ | cellForRowAt _ _ | leaveVerbs _ =>
    intro a ha
    cases ha
  | loginButton _ | refused _ | learning _ =>
    exact List.forall_mem_singleton.mpr (hquiet _ rfl fun _ he => by cases he)
  | details _ => exact List.forall_mem_singleton.mpr (hquiet _ rfl fun _ he => by cases he)
  | leaveSignUp _ =>
    intro a ha
    obtain ⟨i, _, rfl⟩ := List.mem_map.mp ha
    exact hquiet _ rfl fun _ he => by cases he
  | createNewAccount _ =>
    intro a ha
    rcases List.mem_cons.mp ha with rfl | ha
    · exact hquiet _ rfl fun _ he => by cases he
    · obtain ⟨i, _, rfl⟩ := List.mem_map.mp ha
      exact hquiet _ rfl fun _ he => by cases he
  | @menu row vc under _ =>
    intro a ha
    rw [List.mem_singleton.mp ha]
    cases vc <;> exact hquiet _ rfl fun _ he => by cases he
  | @searchBar e l i cells under _ _ =>
    intro a ha
    rw [List.mem_singleton.mp ha]
    cases l <;> exact hquiet _ rfl fun _ he => by cases he
  | @tapButton n l i cells under cell hlast hcell =>
    refine List.forall_mem_singleton.mpr ⟨fun verb he => ?_, List.nil_subset _⟩
    cases he
    exact h l i cells (by rw [hlast]; exact List.mem_cons_self) cell (List.mem_of_getElem? hcell)
  | @background a hby =>
    refine List.forall_mem_singleton.mpr ⟨fun verb he => ?_, hfile a rfl⟩
    subst he
    cases hby

/-! ## The law -/

/-- The verbs of all files that the storage gave to a list so far. -/
def filesIn (h : List (State × Event)) : List IrregularVerb :=
  h.flatMap fun m =>
    match m.2 with
    | .background a => fileOf a
    | _ => []

theorem run_known {b : Backend} {user : Option String} {h : List (State × Event)}
    (hr : Run step (launch b user) h s) :
    Known (filesIn h) b.users s.app ∧ CellsOf (filesIn h) s.presented := by
  induction hr with
  | start =>
    refine ⟨⟨App.run_owned .start, ?_, ?_, ?_, ?_, fun d hd word hword => Or.inr ⟨d, hd, rfl, hword⟩⟩, ?_⟩
    · intro p hp
      cases hp
    · intro p hp
      cases hp
    · intro p hp
      cases hp
    · intro p hp
      cases hp
    · intro l i cells hmem
      cases hmem
  | @snoc h s t e _ hs ih =>
    obtain ⟨hk, hc⟩ := ih
    have hold : filesIn h ⊆ filesIn (h ++ [(s, e)]) := by
      unfold filesIn
      rw [List.flatMap_append]
      exact List.subset_append_left _ _
    have hnew : ∀ a, e = .background a → fileOf a ⊆ filesIn (h ++ [(s, e)]) := by
      rintro a rfl
      unfold filesIn
      rw [List.flatMap_append, List.flatMap_singleton]
      exact List.subset_append_right _ _
    obtain ⟨es, u, hcalls, ht⟩ := step_cases hs
    have hk' := hk.mono hold
    have hc' := hc.mono hold
    refine ⟨?_, ht.cells hcalls hk' hc'⟩
    rw [ht.app_eq]
    exact exec_invariant (exec_call hcalls) (ht.calls_known hc' hnew) hk' fun _ _ _ hk he hs =>
      step_known hk he.1 hs he.2

/-- In every run, a Details screen shows an entry of a file that the storage gave to a list before, and
each word of the favourites in a document is the infinitive of such an entry, or it was in the favourites
of this document at the start. -/
theorem every_favourite_is_a_word_of_a_file {b : Backend} {user : Option String} {h : List (State × Event)}
    (hr : Run step (launch b user) h s) :
    (∀ p ∈ s.app.details, ∀ view, p.presenter.view = some view →
      ∃ v ∈ filesIn h, view.verbFromDelegate = some v) ∧
    ∀ d ∈ s.app.backend.users, ∀ word ∈ d.favoritesVerbs,
      (∃ v ∈ filesIn h, v.infinitive = some word) ∨
        ∃ d₀ ∈ b.users, d₀.documentID = d.documentID ∧ word ∈ d₀.favoritesVerbs := by
  obtain ⟨hk, _⟩ := run_known hr
  refine ⟨fun p hp => (hk.details p hp).entry, fun d hd word hword => ?_⟩
  exact (hk.users d hd word hword).imp_left List.mem_filterMap.mp

/-- A log-in, AllVerbs with a file of one verb, its cell, and FAVORITES on the Details screen. -/
def favoriteFromTheFile : List Event :=
  [.sceneDidBecomeActive, .menu 0,
    .background (.allVerbs (.act 0 (.downloadAnswered (some [Details.verbNamed "be"])))),
    .background (.allVerbs (.act 0 .downloadDelivered)), .verbs (.cellForRowAt 0), .verbs (.tapButton 0),
    .details .addToFavoritesButton, .background (.details (.act 0 (.served 1 []))),
    .background (.details (.act 0 (.callback 1))), .background (.details (.act 0 (.applied 0)))]

theorem a_word_of_the_file_is_stored :
    ∃ h s, Run step (launch { accounts := ["user"], users := [⟨"id", [("uid", .string "user")]⟩] } (some "user"))
      h s ∧ s.kinds = [.details, .verbs, .menu] ∧
      s.app.backend.users.map (·.favoritesVerbs) = [["be"]] ∧
      ∃ v ∈ filesIn h, v.infinitive = some "be" := by
  have hexec : ∃ s, exec step
      (launch { accounts := ["user"], users := [⟨"id", [("uid", .string "user")]⟩] } (some "user"))
      favoriteFromTheFile = some s ∧ s.kinds = [.details, .verbs, .menu] ∧
      s.app.backend.users = [⟨"id", [("uid", .string "user"), ("favoritesVerbs", .array ["be"])]⟩] :=
    ⟨_, rfl, by decide, by decide⟩
  obtain ⟨s, hs, hkinds, husers⟩ := hexec
  obtain ⟨_, hwords⟩ := every_favourite_is_a_word_of_a_file (run_of_exec hs)
  refine ⟨_, s, run_of_exec hs, hkinds, by rw [husers]; rfl, ?_⟩
  refine (hwords _ (by rw [husers]; exact List.mem_singleton_self _) "be" (by decide)).resolve_right ?_
  rintro ⟨d₀, hd₀, _, hword⟩
  rw [List.mem_singleton.mp hd₀] at hword
  exact absurd hword (by decide)

end EasyVerbs.Navigation
