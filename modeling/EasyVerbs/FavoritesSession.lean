-- A user who goes from the menu to Favorites, from its rows to Details and back.
-- The list of Favorites is computed when the screen loads, and Details changes
-- the favourites on top of it.
import EasyVerbs.FavoriteRoundTrip

open Runs Parties

namespace EasyVerbs.Browsing

open Details (verbNamed favoritesDocument)

/-! ## The session -/

inductive Front
  | menu
  | favorites
  | details
  deriving DecidableEq, Repr

/-- The documents of the user, the Favorites screen that is open with the verbs of its cells, and
all Details screens so far. The last of them is the one that can be in front. -/
structure Session where
  documents : List Document
  favorites : Option FavoriteVerbs.Screen := none
  cells : List IrregularVerb := []
  details : List Details.Screen := []
  front : Front := .menu
  deriving DecidableEq, Repr

inductive Event
  /-- `FavoriteVerbsFactory.make` from the menu, and `viewDidLoad`. -/
  | openFavorites
  /-- `FavoriteVerbsViewController.backButtonDidTap`. -/
  | closeFavorites
  | cellForRowAt (row : Nat)
  /-- A tap on a cell: `DetailsFactory.make` with its verb. -/
  | didTapOnVerbButton (verb : IrregularVerb)
  | favorites (e : FavoriteVerbs.Event)
  | details (i : Nat) (e : Details.Event)
  deriving DecidableEq, Repr

/-- What can come to the Favorites screen: the user's hand while it is in front, the one vocabulary,
the documents as they are, and no failure. -/
def comesToFavorites (vocabulary : List IrregularVerb) (s : Session) : FavoriteVerbs.Event → Bool
  | .table .searchBarShouldBeginEditing | .table (.textDidChange _) | .table .searchBarCancelButtonClicked =>
    s.front = .favorites
  | .downloadAnswered json => json = some vocabulary
  | .served _ documents => documents = s.documents
  | .failed _ => false
  | _ => true

/-- What can come to Details screen `i`: the user's hand while it is in front, and no failure. -/
def comesToDetails (i : Nat) (s : Session) : Details.Event → Bool
  | .addToFavoritesButton | .backButtonDidTap => s.front = .details && i + 1 = s.details.length
  | .failed _ | .rejected _ => false
  | _ => true

/-- The session after an event, or none when the event cannot happen. A Favorites screen that was
closed is left out: whatever is still on its way to it changes nothing else. -/
def step (user : String) (vocabulary : List IrregularVerb) (s : Session) : Event → Option Session
  | .openFavorites =>
    if s.front = .menu then
      some { s with favorites := some (FavoriteVerbs.viewDidLoad (some user)), cells := [], front := .favorites }
    else none
  | .closeFavorites =>
    if s.front = .favorites then some { s with favorites := none, cells := [], front := .menu } else none
  | .cellForRowAt row =>
    match s.favorites.bind (·.currentVerbs row) with
    | some verb => some { s with cells := s.cells ++ [verb] }
    | none => none
  | .didTapOnVerbButton verb =>
    if s.front = .favorites ∧ verb ∈ s.cells then
      some { s with details := s.details ++ [Details.viewDidLoad (some user) (some verb)], front := .details }
    else none
  | .favorites e =>
    if comesToFavorites vocabulary s e then
      (s.favorites.bind (·.step e)).map fun f => { s with favorites := some f }
    else none
  | .details i e =>
    if comesToDetails i s e then
      (s.details[i]?.bind (Details.act s.documents · e)).map fun r =>
        { s with
          documents := r.1
          details := s.details.set i r.2
          front := if e = .backButtonDidTap then .favorites else s.front }
    else none

/-! ## What Favorites has to show -/

def stored (documents : List Document) : List String := documents.flatMap (·.favoritesVerbs)

/-- Favorites in front, with no search and nothing on its way, shows the vocabulary filtered by
the favourites on the server. -/
def ShowsStored (vocabulary : List IrregularVerb) (s : Session) : Prop :=
  s.front = .favorites → ∀ f ∈ s.favorites, f.isSearchInProgress = false → f.Still →
    (∀ p ∈ s.details, Details.Drained p) →
      f.userFavorite = vocabulary.filter fun v => v.infinitive.any fun x => (stored s.documents).contains x

/-- The same infinitives of the vocabulary are in both lists. -/
def SameNames (vocabulary : List IrregularVerb) (names names' : List String) : Prop :=
  ∀ v ∈ vocabulary, ∀ x ∈ v.infinitive, x ∈ names ↔ x ∈ names'

instance (vocabulary : List IrregularVerb) (names names' : List String) :
    Decidable (SameNames vocabulary names names') :=
  inferInstanceAs (Decidable (∀ v ∈ vocabulary, ∀ x ∈ v.infinitive, x ∈ names ↔ x ∈ names'))

/-- The server has read the favourites for the Favorites screen that is open. -/
def Session.hasRead (s : Session) : Bool :=
  s.favorites.any fun f => f.download = .over && f.requests.all (·.querySnapshot.isSome)

/-- The condition on an event. A write that is applied after Favorites read the favourites leaves
each infinitive stored or not stored as it was, and Favorites reads no empty string when an
infinitive is missing. -/
def KeepsNames (vocabulary : List IrregularVerb) (s : Session) : Event → Prop
  | .details i (.applied j) => s.hasRead = true → ∀ w ∈ s.details[i]?.bind (·.writes[j]?),
      SameNames vocabulary (stored s.documents) (stored (w.applyTo s.documents))
  | .favorites (.served _ documents) => "" ∈ stored documents → ∀ v ∈ vocabulary, v.infinitive ≠ none
  | _ => True

instance (vocabulary : List IrregularVerb) (s : Session) : (e : Event) → Decidable (KeepsNames vocabulary s e)
  | .details i (.applied j) => inferInstanceAs (Decidable (s.hasRead = true →
      ∀ w ∈ s.details[i]?.bind (·.writes[j]?),
        SameNames vocabulary (stored s.documents) (stored (w.applyTo s.documents))))
  | .favorites (.served _ documents) =>
    inferInstanceAs (Decidable ("" ∈ stored documents → ∀ v ∈ vocabulary, v.infinitive ≠ none))
  | .openFavorites | .closeFavorites | .cellForRowAt _ | .didTapOnVerbButton _
  | .favorites (.table _) | .favorites (.downloadAnswered _) | .favorites .downloadDelivered
  | .favorites (.callback _) | .favorites (.failed _) | .favorites (.favoritesBlock _)
  | .details _ .addToFavoritesButton | .details _ .backButtonDidTap | .details _ (.served _ _)
  | .details _ (.callback _) | .details _ (.failed _) | .details _ (.globalBlock _)
  | .details _ (.mainBlock _) | .details _ (.rejected _) => inferInstanceAs (Decidable True)

/-! ## The Favorites screen that is open -/

/-- Where the load of the screen is, and the favourites that it has read. -/
inductive Phase (user : String) (vocabulary : List IrregularVerb) (f : FavoriteVerbs.Screen) :
    Option (List String) → Prop
  | loading (huser : f.userID = some user) (hd : f.download = .waiting ∨ f.download = .decoded vocabulary)
      (hr : f.requests = []) (hb : f.blocks = []) : Phase user vocabulary f none
  | asked (hd : f.download = .over) (hv : f.allVerbs = vocabulary)
      (hr : f.requests = [⟨.favoritesVerbsFromFirebase, none⟩]) (hb : f.blocks = []) :
      Phase user vocabulary f none
  | read (d : Document) (hd : f.download = .over) (hv : f.allVerbs = vocabulary)
      (hr : f.requests = [⟨.favoritesVerbsFromFirebase, some [d]⟩]) (hb : f.blocks = []) :
      Phase user vocabulary f (some d.favoritesVerbs)
  | block (d : Document) (hd : f.download = .over) (hv : f.allVerbs = vocabulary) (hr : f.requests = [])
      (hb : f.blocks = [d]) : Phase user vocabulary f (some d.favoritesVerbs)
  | loaded (names : List String) (hd : f.download = .over) (hv : f.allVerbs = vocabulary)
      (hr : f.requests = []) (hb : f.blocks = []) (hs : f.source = favoritesIn vocabulary names) :
      Phase user vocabulary f (some names)

variable {user : String} {vocabulary : List IrregularVerb} {f f' : FavoriteVerbs.Screen}
  {read : Option (List String)}

theorem viewDidLoad_phase : Phase user vocabulary (FavoriteVerbs.viewDidLoad (some user)) none :=
  .loading rfl (Or.inl rfl) rfl rfl

theorem Phase.hasRead_iff (h : Phase user vocabulary f read) :
    (f.download = .over && f.requests.all (·.querySnapshot.isSome)) = true ↔ read.isSome = true := by
  cases h with
  | loading _ hd hr _ => rcases hd with hd | hd <;> simp [hd]
  | asked hd _ hr _ => simp [hr]
  | read _ hd _ hr _ => simp [hd, hr]
  | block _ hd _ hr _ => simp [hd, hr]
  | loaded _ hd _ hr _ _ => simp [hd, hr]

theorem Phase.of_table {t : Search.SearchTable} (h : Phase user vocabulary f read)
    (ht : t.source = f.source) : Phase user vocabulary { f with toSearchTable := t } read := by
  cases h with
  | loading huser hd hr hb => exact .loading huser hd hr hb
  | asked hd hv hr hb => exact .asked hd hv hr hb
  | read d hd hv hr hb => exact .read d hd hv hr hb
  | block d hd hv hr hb => exact .block d hd hv hr hb
  | loaded names hd hv hr hb hs => exact .loaded names hd hv hr hb (ht.trans hs)

theorem table_step_source {t t' : Search.SearchTable} {e : Search.SearchTable.Event} (h : t.step e = some t') :
    t'.source = t.source := by
  cases e with
  | searchBarShouldBeginEditing | textDidChange | searchBarCancelButtonClicked =>
    cases h
    rfl
  | operationStarts => exact (Search.SearchTable.step_operationStarts h).frame.2.1
  | operationReads => exact (Search.SearchTable.step_operationReads h).frame.2.1
  | operationEnds => exact (Search.SearchTable.step_operationEnds h).frame.2.1
  | reloadTableView =>
    rw [Search.SearchTable.step_reloadTableView h]
    rfl

/-- The favourites that the screen has read after an event, when the server has this document. -/
def readAfter (d : Document) (read : Option (List String)) : FavoriteVerbs.Event → Option (List String)
  | .served _ _ => some d.favoritesVerbs
  | _ => read

theorem Phase.step {d : Document} {e : FavoriteVerbs.Event} (h : Phase user vocabulary f read)
    (hf : f.step e = some f') (hjson : ∀ json, e = .downloadAnswered json → json = some vocabulary)
    (hserved : ∀ i documents, e = .served i documents → documents = [d]) (hfailed : ∀ i, e ≠ .failed i) :
    Phase user vocabulary f' (readAfter d read e) := by
  cases FavoriteVerbs.step_cases hf with
  | table htable => exact h.of_table (table_step_source htable)
  | @downloadAnswered json download hdownload =>
    obtain rfl := hjson json rfl
    cases h with
    | loading huser hd hr hb =>
      rcases hd with hd | hd
      · rw [hd] at hdownload
        cases hdownload
        exact .loading huser (Or.inr rfl) hr hb
      · rw [hd] at hdownload
        cases hdownload
    | asked hd _ _ _ | read _ hd _ _ _ | block _ hd _ _ _ | loaded _ hd _ _ _ _ =>
      rw [hd] at hdownload
      cases hdownload
  | @downloadDelivered json hdecoded =>
    cases h with
    | loading huser hd hr hb =>
      obtain rfl : json = vocabulary := by simpa [hdecoded] using hd
      simp only [FavoriteVerbs.favoritesVerbsFromFirebase, huser, hr, List.nil_append]
      exact .asked rfl rfl rfl hb
    | asked hd _ _ _ | read _ hd _ _ _ | block _ hd _ _ _ | loaded _ hd _ _ _ _ =>
      rw [hd] at hdecoded
      cases hdecoded
  | @served i query documents hquery =>
    obtain rfl := hserved i documents rfl
    cases h with
    | asked hd hv hr hb =>
      obtain ⟨rfl, hcallback⟩ := only_element hr hquery
      cases hcallback
      exact .read d hd hv (by simp [hr]) hb
    | read d hd hv hr hb =>
      obtain ⟨rfl, hcallback⟩ := only_element hr hquery
      cases hcallback
    | loading _ _ hr _ | block _ _ _ hr _ | loaded _ _ _ hr _ _ =>
      rw [hr] at hquery
      cases hquery
  | callback hquery =>
    cases h with
    | read d hd hv hr hb =>
      obtain ⟨rfl, hcallback⟩ := only_element hr hquery
      cases hcallback
      exact .block d hd hv (by simp [hr]) (by simp [hb])
    | asked hd hv hr hb =>
      obtain ⟨rfl, hcallback⟩ := only_element hr hquery
      cases hcallback
    | loading _ _ hr _ | block _ _ _ hr _ | loaded _ _ _ hr _ _ =>
      rw [hr] at hquery
      cases hquery
  | @failed i => exact absurd rfl (hfailed i)
  | favoritesBlock hblock =>
    cases h with
    | block d hd hv hr hb =>
      obtain ⟨rfl, hdocument⟩ := only_element hb hblock
      subst hdocument
      refine .loaded d.favoritesVerbs hd hv hr (by simp [FavoriteVerbs.favoritesBlock, hb]) ?_
      rw [← hv]
      rfl
    | loading _ _ _ hb | asked _ _ _ hb | read _ _ _ _ hb | loaded _ _ _ _ hb _ =>
      rw [hb] at hblock
      cases hblock

/-! ## The invariant -/

@[simp] theorem stored_singleton (d : Document) : stored [d] = d.favoritesVerbs := by simp [stored]

/-- The documents that the server read for the Favorites screen that is open. -/
def nextRead (read : Option (List Document)) : Event → Option (List Document)
  | .openFavorites | .closeFavorites => none
  | .favorites (.served _ documents) => some documents
  | _ => read

def readBy (h : List (Session × Event)) : Option (List Document) :=
  h.foldl (fun read m => nextRead read m.2) none

theorem readBy_snoc (h : List (Session × Event)) (s : Session) (e : Event) :
    readBy (h ++ [(s, e)]) = nextRead (readBy h) e := by
  simp [readBy, List.foldl_append]

structure Agrees (vocabulary : List IrregularVerb) (documents read : List Document) : Prop where
  same : SameNames vocabulary (stored read) (stored documents)
  infinitives : "" ∈ stored read → ∀ v ∈ vocabulary, v.infinitive ≠ none

structure Sound (user : String) (vocabulary : List IrregularVerb) (h : List (Session × Event)) (s : Session) :
    Prop where
  one : ∃ d, s.documents = [d]
  opened : ∀ f, s.favorites = some f → Phase user vocabulary f ((readBy h).map stored)
  closed : s.favorites = none → readBy h = none

variable {h : List (Session × Event)} {s t : Session} {e : Event}

/-- An act of a Details screen leaves the documents, or a write of it is applied. -/
theorem act_documents {documents documents' : List Document} {p q : Details.Screen} {e : Details.Event}
    (ha : Details.act documents p e = some (documents', q)) :
    documents' = documents ∨ ∃ j w, e = .applied j ∧ p.writes[j]? = some w ∧ documents' = w.applyTo documents := by
  cases Details.act_cases ha with
  | @applied j w hwrite => exact Or.inr ⟨j, w, rfl, hwrite, rfl⟩
  | _ => exact Or.inl rfl

theorem favorites_eq_some {e : FavoriteVerbs.Event} (hs : step user vocabulary s (.favorites e) = some t) :
    comesToFavorites vocabulary s e = true ∧
      ∃ f f', s.favorites = some f ∧ f.step e = some f' ∧ t = { s with favorites := some f' } := by
  simp only [step, Option.ite_none_right_eq_some, Option.map_eq_some_iff, Option.bind_eq_some_iff] at hs
  obtain ⟨hcomes, f', ⟨f, hf, hstep⟩, rfl⟩ := hs
  exact ⟨hcomes, f, f', hf, hstep, rfl⟩

theorem details_eq_some {i : Nat} {e : Details.Event} (hs : step user vocabulary s (.details i e) = some t) :
    ∃ p q documents', s.details[i]? = some p ∧ Details.act s.documents p e = some (documents', q) ∧
      t.documents = documents' ∧ t.favorites = s.favorites := by
  simp only [step, Option.ite_none_right_eq_some, Option.map_eq_some_iff, Option.bind_eq_some_iff] at hs
  obtain ⟨_, ⟨documents', q⟩, ⟨p, hp, ha⟩, rfl⟩ := hs
  exact ⟨p, q, documents', hp, ha, rfl, rfl⟩

theorem row_keeps (he : (∃ row, e = .cellForRowAt row) ∨ ∃ verb, e = .didTapOnVerbButton verb)
    (hs : step user vocabulary s e = some t) : t.documents = s.documents ∧ t.favorites = s.favorites := by
  rcases he with ⟨row, rfl⟩ | ⟨verb, rfl⟩
  · unfold step at hs
    dsimp only at hs
    split at hs
    · cases hs
      exact ⟨rfl, rfl⟩
    · cases hs
  · simp only [step, Option.ite_none_right_eq_some, Option.some.injEq] at hs
    obtain ⟨_, rfl⟩ := hs
    exact ⟨rfl, rfl⟩

theorem Sound.of_row (hsound : Sound user vocabulary h s)
    (he : (∃ row, e = .cellForRowAt row) ∨ ∃ verb, e = .didTapOnVerbButton verb)
    (hs : step user vocabulary s e = some t) : Sound user vocabulary (h ++ [(s, e)]) t := by
  obtain ⟨hdocuments, hfavorites⟩ := row_keeps he hs
  have hread : readBy (h ++ [(s, e)]) = readBy h := by
    rw [readBy_snoc]
    rcases he with ⟨row, rfl⟩ | ⟨verb, rfl⟩ <;> rfl
  constructor
  · rw [hdocuments]
    exact hsound.one
  · rw [hfavorites, hread]
    exact hsound.opened
  · rw [hfavorites, hread]
    exact hsound.closed

theorem step_sound (hsound : Sound user vocabulary h s) (hs : step user vocabulary s e = some t) :
    Sound user vocabulary (h ++ [(s, e)]) t := by
  have hbefore := hsound
  obtain ⟨⟨d, hd⟩, hopened, hclosed⟩ := hsound
  cases e with
  | openFavorites =>
    simp only [step, Option.ite_none_right_eq_some, Option.some.injEq] at hs
    obtain ⟨_, rfl⟩ := hs
    refine ⟨⟨d, hd⟩, fun f hf => ?_, by simp⟩
    cases hf
    rw [readBy_snoc]
    exact viewDidLoad_phase
  | closeFavorites =>
    simp only [step, Option.ite_none_right_eq_some, Option.some.injEq] at hs
    obtain ⟨_, rfl⟩ := hs
    refine ⟨⟨d, hd⟩, by simp, fun _ => ?_⟩
    rw [readBy_snoc]
    rfl
  | cellForRowAt row => exact hbefore.of_row (Or.inl ⟨row, rfl⟩) hs
  | didTapOnVerbButton verb => exact hbefore.of_row (Or.inr ⟨verb, rfl⟩) hs
  | favorites e =>
    obtain ⟨hcomes, f, f', hf, hstep, rfl⟩ := favorites_eq_some hs
    refine ⟨⟨d, hd⟩, fun f'' hf'' => ?_, by simp⟩
    cases hf''
    rw [readBy_snoc]
    have hserved : ∀ i documents, e = .served i documents → documents = [d] := by
      rintro i documents rfl
      have hdocuments : documents = s.documents := by simpa [comesToFavorites] using hcomes
      exact hdocuments.trans hd
    have hnext := (hopened f hf).step hstep (fun json he => by simpa [he, comesToFavorites] using hcomes) hserved
      (fun i he => by simp [he, comesToFavorites] at hcomes)
    cases e with
    | served i documents =>
      obtain rfl := hserved i documents rfl
      rw [nextRead, Option.map_some, stored_singleton]
      exact hnext
    | _ => exact hnext
  | details i e =>
    obtain ⟨p, q, documents', hp, ha, hdocuments, hfavorites⟩ := details_eq_some hs
    refine ⟨?_, ?_, ?_⟩
    · rw [hdocuments]
      rcases act_documents ha with rfl | ⟨_, _, _, _, rfl⟩
      · exact ⟨d, hd⟩
      · exact ⟨_, by rw [hd]; rfl⟩
    · rw [readBy_snoc, hfavorites]
      exact hopened
    · rw [readBy_snoc, hfavorites]
      exact hclosed

theorem run_sound {d : Document} (hr : Run (step user vocabulary) { documents := [d] } h s) :
    Sound user vocabulary h s := by
  induction hr with
  | start => exact ⟨⟨d, rfl⟩, by simp, fun _ => rfl⟩
  | snoc _ hs ih => exact step_sound ih hs

/-! ## What is shown -/

/-- A screen with nothing on its way has loaded the favourites that it read. -/
theorem Phase.still (hphase : Phase user vocabulary f read) (hstill : f.Still) :
    ∃ names, read = some names ∧ f.source = favoritesIn vocabulary names := by
  obtain ⟨hover, hrequests, hblocks, _⟩ := hstill
  cases hphase with
  | loading _ hd _ _ => rcases hd with hd | hd <;> simp [hd] at hover
  | asked _ _ hr _ => simp [hr] at hrequests
  | read _ _ _ hr _ => simp [hr] at hrequests
  | block _ _ _ _ hb => simp [hb] at hblocks
  | loaded names _ _ _ _ hs => exact ⟨names, rfl, hs⟩

/-- The list of the names that were read is the list of the stored ones exactly when they agree. -/
theorem favoritesIn_eq_iff (vocabulary : List IrregularVerb) (documents read : List Document) :
    favoritesIn vocabulary (stored read) =
        vocabulary.filter (fun v => v.infinitive.any fun x => (stored documents).contains x) ↔
      Agrees vocabulary documents read := by
  unfold favoritesIn FavoriteVerbs.filterByFavorite
  constructor
  · intro heq
    have hmem : ∀ v ∈ vocabulary, (stored read).contains (v.infinitive.getD "") = true ↔
        (v.infinitive.any fun x => (stored documents).contains x) = true := by
      intro v hv
      have hboth := congrArg (v ∈ ·) heq
      simpa only [List.mem_filter, hv, true_and, eq_iff_iff] using hboth
    refine ⟨fun v hv x hx => ?_, fun hempty v hv hnone => ?_⟩
    · rw [Option.mem_def] at hx
      simpa [hx] using hmem v hv
    · have hshown := (hmem v hv).mp (by simpa [hnone] using hempty)
      simp [hnone] at hshown
  · intro hagrees
    apply List.filter_congr
    intro v hv
    cases hinf : v.infinitive with
    | none =>
      have hempty : "" ∉ stored read := fun hempty => hagrees.infinitives hempty v hv hinf
      simp [hempty]
    | some x =>
      rw [Bool.eq_iff_iff]
      simpa using hagrees.same v hv x hinf

/-- The names that Favorites has read are those of the server now. -/
def ReadIsStored (vocabulary : List IrregularVerb) (h : List (Session × Event)) (s : Session) : Prop :=
  ∀ read ∈ readBy h, Agrees vocabulary s.documents read

theorem hasRead_iff (hsound : Sound user vocabulary h s) : s.hasRead = true ↔ (readBy h).isSome = true := by
  unfold Session.hasRead
  cases hf : s.favorites with
  | none => simp [hsound.closed hf]
  | some f =>
    rw [Option.any_some, (hsound.opened f hf).hasRead_iff]
    simp

/-- The condition on the events keeps what was read and what is stored alike. -/
theorem step_readIsStored (hsound : Sound user vocabulary h s) (hread : ReadIsStored vocabulary h s)
    (hg : KeepsNames vocabulary s e) (hs : step user vocabulary s e = some t) :
    ReadIsStored vocabulary (h ++ [(s, e)]) t := by
  unfold ReadIsStored
  rw [readBy_snoc]
  cases e with
  | openFavorites => simp [nextRead]
  | closeFavorites => simp [nextRead]
  | cellForRowAt row =>
    rw [(row_keeps (Or.inl ⟨row, rfl⟩) hs).1]
    exact hread
  | didTapOnVerbButton verb =>
    rw [(row_keeps (Or.inr ⟨verb, rfl⟩) hs).1]
    exact hread
  | favorites e =>
    obtain ⟨hcomes, f, f', _, _, rfl⟩ := favorites_eq_some hs
    cases e with
    | served i documents =>
      intro read hmem
      cases hmem
      obtain rfl : documents = s.documents := by simpa [comesToFavorites] using hcomes
      exact ⟨fun _ _ _ _ => Iff.rfl, hg⟩
    | _ => exact hread
  | details i e =>
    obtain ⟨p, q, documents', hp, ha, hdocuments, _⟩ := details_eq_some hs
    rw [hdocuments]
    rcases act_documents ha with rfl | ⟨j, w, rfl, hwrite, rfl⟩
    · exact hread
    · intro read hmem
      have hopened : s.hasRead = true := (hasRead_iff hsound).mpr (Option.isSome_of_mem hmem)
      have hkeeps := hg hopened w (by simp [hp, hwrite])
      obtain ⟨hsame, hinfinitives⟩ := hread read hmem
      exact ⟨fun v hv x hx => (hsame v hv x hx).trans (hkeeps v hv x hx), hinfinitives⟩

theorem run_readIsStored {d : Document} (hr : Run (step user vocabulary) { documents := [d] } h s)
    (hg : ∀ m ∈ h, KeepsNames vocabulary m.1 m.2) : ReadIsStored vocabulary h s := by
  refine (hr.guarded (I := fun h s => Sound user vocabulary h s ∧ ReadIsStored vocabulary h s) hg ?_ ?_).2
  · exact ⟨run_sound .start, fun read hread => by cases hread⟩
  · intro h s e t hboth hkeeps hs
    exact ⟨step_sound hboth.1 hs, step_readIsStored hboth.1 hboth.2 hkeeps hs⟩

/-- A Favorites screen with nothing on its way has the stored favourites exactly when the names
that it read are stored. -/
theorem userFavorite_eq_iff (hsound : Sound user vocabulary h s) (hf : s.favorites = some f) (hstill : f.Still) :
    f.userFavorite = vocabulary.filter (fun v => v.infinitive.any fun x => (stored s.documents).contains x) ↔
      ReadIsStored vocabulary h s := by
  obtain ⟨names, hnames, hsource⟩ := (hsound.opened f hf).still hstill
  obtain ⟨read, hread, rfl⟩ := Option.map_eq_some_iff.mp hnames
  have hlist : f.userFavorite = favoritesIn vocabulary (stored read) := hsource
  rw [hlist, favoritesIn_eq_iff]
  unfold ReadIsStored
  rw [hread]
  simp

/-! ## The law -/

/-- In every run, in every state with Favorites in front, no search and nothing on its way,
Favorites shows the stored favourites exactly when the names that it read are stored. And in every
run whose events keep the names it does so in all states. -/
theorem favorites_are_shown_iff_no_name_changed {d : Document}
    (hr : Run (step user vocabulary) { documents := [d] } h s) :
    (∀ f ∈ s.favorites, s.front = .favorites → f.isSearchInProgress = false → f.Still →
      (∀ p ∈ s.details, Details.Drained p) → (ShowsStored vocabulary s ↔ ReadIsStored vocabulary h s)) ∧
    ((∀ m ∈ h, KeepsNames vocabulary m.1 m.2) → Throughout (ShowsStored vocabulary) h s) := by
  constructor
  · intro f hf hfront hsearch hstill hdrained
    rw [← userFavorite_eq_iff (run_sound hr) hf hstill]
    constructor
    · intro hshows
      exact hshows hfront f hf hsearch hstill hdrained
    · intro hlist _ f' hf' _ _ _
      cases hf.symm.trans hf'
      exact hlist
  · intro hg
    have hshows : ∀ h' s', Run (step user vocabulary) { documents := [d] } h' s' →
        (∀ m ∈ h', KeepsNames vocabulary m.1 m.2) → ShowsStored vocabulary s' := by
      intro h' s' hr' hg' _ f hf _ hstill _
      exact (userFavorite_eq_iff (run_sound hr') hf hstill).mpr (run_readIsStored hr' hg')
    refine ⟨fun m hm => ?_, hshows h s hr hg⟩
    obtain ⟨⟨h1, hr1, hsub⟩, _⟩ := hr.moment hm
    exact hshows h1 m.1 hr1 fun x hx => hg x (hsub x hx)

def opens (vocabulary : List IrregularVerb) (favorites : List String) : List Event :=
  .openFavorites :: (FavoriteVerbs.loading vocabulary (favoritesDocument favorites)).map .favorites

/-- The query with number 0 of the first Details screen is answered, and its blocks run. -/
def loads (favorites : List String) : List Event :=
  [.details 0 (.served 0 [favoritesDocument favorites]), .details 0 (.callback 0), .details 0 (.globalBlock 0),
    .details 0 (.mainBlock 0)]

/-- The first row is tapped, its Details screen loads, and the button is tapped. -/
def deletes : List Event :=
  [.cellForRowAt 0, .didTapOnVerbButton (verbNamed "be")] ++ loads ["be"] ++ [.details 0 .addToFavoritesButton]

def applies : List Event :=
  [.details 0 (.served 0 [favoritesDocument ["be"]]), .details 0 (.callback 0), .details 0 (.applied 0)] ++ loads []

/-- The delete is applied while no Favorites screen is open. -/
def deletesAndReopens : List Event :=
  opens [verbNamed "be", verbNamed "go"] ["be"] ++ deletes ++ [.details 0 .backButtonDidTap, .closeFavorites] ++
    applies ++ opens [verbNamed "be", verbNamed "go"] []

/-- The delete is applied while Details is in front of Favorites, and then back is tapped. -/
def deletesAndComesBack : List Event :=
  opens [verbNamed "be", verbNamed "go"] ["be"] ++ deletes ++ applies ++ [.details 0 .backButtonDidTap]

theorem a_new_favorites_screen_shows_the_delete :
    ∃ s, exec (step "user" [verbNamed "be", verbNamed "go"]) { documents := [favoritesDocument ["be"]] }
        deletesAndReopens = some s ∧
      s.front = .favorites ∧ s.favorites.map (·.userFavorite) = some [] ∧
      ShowsStored [verbNamed "be", verbNamed "go"] s := by
  have hend : (exec (step "user" [verbNamed "be", verbNamed "go"]) { documents := [favoritesDocument ["be"]] }
      deletesAndReopens).map (fun s => (s.front, s.favorites.map (·.userFavorite))) =
        some (.favorites, some []) := by decide
  obtain ⟨s, hs, hfinal⟩ := Option.map_eq_some_iff.mp hend
  obtain ⟨hfront, hlist⟩ := Prod.mk.inj hfinal
  have hlaw := favorites_are_shown_iff_no_name_changed (run_of_exec hs)
  exact ⟨s, hs, hfront, hlist, (hlaw.2 (by decide)).2⟩

/-- The state of a session at rest, and the lists on the server and on Favorites. -/
def atRest (s : Session) : Bool × List String × Option (List IrregularVerb) :=
  (s.front = .favorites && s.details.all (fun p => Details.Drained p) &&
    s.favorites.all (fun f => !f.isSearchInProgress && decide f.Still),
    stored s.documents, s.favorites.map (·.userFavorite))

theorem favorites_does_not_show_the_delete :
    ∃ s, exec (step "user" [verbNamed "be", verbNamed "go"]) { documents := [favoritesDocument ["be"]] }
        deletesAndComesBack = some s ∧
      atRest s = (true, [], some [verbNamed "be"]) ∧ ¬ ShowsStored [verbNamed "be", verbNamed "go"] s := by
  have hend : (exec (step "user" [verbNamed "be", verbNamed "go"]) { documents := [favoritesDocument ["be"]] }
      deletesAndComesBack).map atRest = some (true, [], some [verbNamed "be"]) := by decide
  obtain ⟨s, hs, hrest⟩ := Option.map_eq_some_iff.mp hend
  refine ⟨s, hs, hrest, fun hshows => ?_⟩
  simp only [atRest, Prod.mk.injEq, Bool.and_eq_true, decide_eq_true_eq, Option.map_eq_some_iff] at hrest
  obtain ⟨⟨⟨hfront, hdrained⟩, hstill⟩, hstored, f, hf, hlist⟩ := hrest
  rw [hf, Option.all_some, Bool.and_eq_true, decide_eq_true_eq] at hstill
  have heq := hshows hfront f hf (by simpa using hstill.1) hstill.2 (by simpa using hdrained)
  rw [hlist, hstored] at heq
  revert heq
  decide

end EasyVerbs.Browsing
