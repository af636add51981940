-- The whole app: the sign-up, the sign-in and the screens behind the menu, any
-- number of each and in any order, around one backend. What an event stores
-- and what it prints are lists that the state and the event give.
import EasyVerbs.SignIn
import EasyVerbs.DetailsView
import EasyVerbs.LearningView
import EasyVerbs.VerbScreens

open Runs Parties

namespace EasyVerbs.App

open SignUp (Backend SignUpView)
open SignIn (SignInView)

/-! ## The screens with all documents -/

/-- What a query for the documents of the user finds. -/
def documentsOf (users : List Document) : Option String → List Document
  | none => []
  | some user => users.filter (SignUp.carries user)

/-- A training screen with the collection `users`. The server reads for it the documents of its
user, whatever the event says. -/
def trainingAct (users : List Document) (s : Learning.Screen) :
    Learning.Event → Option (List Document × Learning.Screen)
  | .served i _ => (s.step (.served i (documentsOf users s.presenter.userID))).map (users, ·)
  | e => Learning.act users s e

def detailsAct (users : List Document) (s : Details.Screen) :
    Details.Event → Option (List Document × Details.Screen)
  | .served i _ => (s.step (.served i (documentsOf users s.presenter.userID))).map (users, ·)
  | e => Details.act users s e

/-- The same for a Favorites screen, which writes nothing. -/
def favoritesAct (users : List Document) (s : FavoriteVerbs.Screen) :
    FavoriteVerbs.Event → Option (List Document × FavoriteVerbs.Screen)
  | .served i _ => (s.step (.served i (documentsOf users s.userID))).map (users, ·)
  | e => (s.step e).map (users, ·)

/-! ## The app -/

/-- The backends, the user that `Auth.auth().currentUser` gives, the attempts to sign up and to
sign in, and the screens so far. -/
structure State where
  backend : Backend := {}
  currentUser : Option String := none
  signUps : List SignUp.Attempt := []
  signIns : List SignIn.Attempt := []
  trainings : List Learning.Screen := []
  details : List Details.Screen := []
  favorites : List FavoriteVerbs.Screen := []
  allVerbs : List AllVerbs.Screen := []
  deriving DecidableEq, Repr

/-- A tap on one of the two buttons or a new screen, or an event of one that is there. -/
inductive Event
  /-- FirebaseAuth signs out a user whose token is refused. -/
  | signOutByForce (userID : String)
  | signUp (m : Move SignUpView SignUp.Event)
  | signIn (m : Move SignInView SignIn.Event)
  | training (m : Move Unit Learning.Event)
  | details (m : Move (Option IrregularVerb) Details.Event)
  | favorites (m : Move Unit FavoriteVerbs.Event)
  | allVerbs (m : Move Unit AllVerbs.Event)

def signUpUser : Move SignUpView SignUp.Event → Option String
  | .act _ (.authAnswered answer) => answer.authResult
  | _ => none

def signInUser : Move SignInView SignIn.Event → Option String
  | .act _ (.authAnswered answer) => answer.authResult
  | _ => none

/-- The app after an event, or none when the event cannot happen. A presenter takes the current
user once, when its screen is made. -/
def step (s : State) : Event → Option State
  | .signOutByForce userID => some { s with
      currentUser := if s.currentUser = some userID then none else s.currentUser }
  | .signUp m =>
    (Parties.step SignUp.createNewAccountButtonDidTap SignUp.act ⟨s.backend, s.signUps⟩ m).map fun r =>
      { s with
        backend := r.store
        signUps := r.parties
        currentUser := (signUpUser m).or s.currentUser }
  | .signIn m =>
    (Parties.step SignIn.loginButton SignIn.act ⟨s.backend, s.signIns⟩ m).map fun r =>
      { s with
        backend := r.store
        signIns := r.parties
        currentUser := (signInUser m).or s.currentUser }
  | .training m =>
    (Parties.step (fun _ => Learning.viewDidLoad s.currentUser) trainingAct
      ⟨s.backend.users, s.trainings⟩ m).map fun r =>
        { s with backend := { s.backend with users := r.store }, trainings := r.parties }
  | .details m =>
    (Parties.step (Details.viewDidLoad s.currentUser) detailsAct
      ⟨s.backend.users, s.details⟩ m).map fun r =>
        { s with backend := { s.backend with users := r.store }, details := r.parties }
  | .favorites m =>
    (Parties.step (fun _ => FavoriteVerbs.viewDidLoad s.currentUser) favoritesAct
      ⟨s.backend.users, s.favorites⟩ m).map fun r =>
        { s with backend := { s.backend with users := r.store }, favorites := r.parties }
  | .allVerbs m =>
    (Parties.step (fun _ => AllVerbs.viewDidLoad) (fun u s e => (s.step e).map (u, ·))
      ⟨(), s.allVerbs⟩ m).map fun r => { s with allVerbs := r.parties }

def launch (b : Backend) (user : Option String) : State := { backend := b, currentUser := user }

/-! ## The screens of a run -/

theorem eq_some_of_pair {D S : Type} {x : Option S} {d d' : D} {t : S} (h : x.map (d, ·) = some (d', t)) :
    x = some t := by
  obtain ⟨t', ht, hpair⟩ := Option.map_eq_some_iff.mp h
  cases hpair
  exact ht

theorem trainingAct_step {users users' : List Document} {s t : Learning.Screen} {e : Learning.Event}
    (ha : trainingAct users s e = some (users', t)) : ∃ e', s.step e' = some t := by
  cases e with
  | applied i =>
    unfold trainingAct Learning.act at ha
    dsimp only at ha
    split at ha
    · exact ⟨_, eq_some_of_pair ha⟩
    · cases ha
  | _ => exact ⟨_, eq_some_of_pair ha⟩

theorem detailsAct_step {users users' : List Document} {s t : Details.Screen} {e : Details.Event}
    (ha : detailsAct users s e = some (users', t)) : ∃ e', s.step e' = some t := by
  cases e with
  | applied i =>
    unfold detailsAct Details.act at ha
    dsimp only at ha
    split at ha
    · exact ⟨_, eq_some_of_pair ha⟩
    · cases ha
  | _ => exact ⟨_, eq_some_of_pair ha⟩

theorem favoritesAct_step {users users' : List Document} {s t : FavoriteVerbs.Screen}
    {e : FavoriteVerbs.Event} (ha : favoritesAct users s e = some (users', t)) :
    ∃ e', s.step e' = some t := by
  unfold favoritesAct at ha
  split at ha
  · exact ⟨_, eq_some_of_pair ha⟩
  · exact ⟨_, eq_some_of_pair ha⟩

/-- Each screen is one that a run of such a screen alone comes to. -/
structure OwnRuns (s : State) : Prop where
  trainings : ∀ p ∈ s.trainings,
    Reached Learning.Screen.step (fun p => ∃ user, p = Learning.viewDidLoad user) p
  details : ∀ p ∈ s.details,
    Reached Details.Screen.step (fun p => ∃ user verb, p = Details.viewDidLoad user verb) p
  favorites : ∀ p ∈ s.favorites,
    Reached FavoriteVerbs.Screen.step (fun p => ∃ user, p = FavoriteVerbs.viewDidLoad user) p
  allVerbs : ∀ p ∈ s.allVerbs, Reached AllVerbs.Screen.step (· = AllVerbs.viewDidLoad) p

theorem step_ownRuns {s t : State} {e : Event} (h : OwnRuns s) (hs : step s e = some t) : OwnRuns t := by
  cases e with
  | signOutByForce userID =>
    cases hs
    exact ⟨h.trainings, h.details, h.favorites, h.allVerbs⟩
  | signUp m | signIn m =>
    obtain ⟨r, _, rfl⟩ := Option.map_eq_some_iff.mp hs
    exact ⟨h.trainings, h.details, h.favorites, h.allVerbs⟩
  | training m =>
    obtain ⟨r, hr, rfl⟩ := Option.map_eq_some_iff.mp hs
    refine ⟨step_all hr h.trainings (fun _ => .start ⟨_, rfl⟩) fun _ p a _ q hp ha => ?_, h.details,
      h.favorites, h.allVerbs⟩
    obtain ⟨e', ht⟩ := trainingAct_step ha
    exact hp.snoc ht
  | details m =>
    obtain ⟨r, hr, rfl⟩ := Option.map_eq_some_iff.mp hs
    refine ⟨h.trainings, step_all hr h.details (fun _ => .start ⟨_, _, rfl⟩) fun _ p a _ q hp ha => ?_,
      h.favorites, h.allVerbs⟩
    obtain ⟨e', ht⟩ := detailsAct_step ha
    exact hp.snoc ht
  | favorites m =>
    obtain ⟨r, hr, rfl⟩ := Option.map_eq_some_iff.mp hs
    refine ⟨h.trainings, h.details,
      step_all hr h.favorites (fun _ => .start ⟨_, rfl⟩) fun _ p a _ q hp ha => ?_, h.allVerbs⟩
    obtain ⟨e', ht⟩ := favoritesAct_step ha
    exact hp.snoc ht
  | allVerbs m =>
    obtain ⟨r, hr, rfl⟩ := Option.map_eq_some_iff.mp hs
    refine ⟨h.trainings, h.details, h.favorites,
      step_all hr h.allVerbs (fun _ => .start rfl) fun _ p a _ q hp ha => ?_⟩
    exact hp.snoc (eq_some_of_pair ha)

/-- So the laws of one screen are laws of each screen of the app. -/
theorem run_ownRuns {b : Backend} {user : Option String} {h : List (State × Event)} {s : State}
    (hr : Run step (launch b user) h s) : OwnRuns s :=
  hr.invariant (I := OwnRuns) (by constructor <;> simp [launch]) fun _ _ _ h hs => step_ownRuns h hs

/-! ## What is stored -/

/-- A document that is new in Firestore, or a write to one. -/
inductive Stored
  | addDocument (d : Document)
  | updateData (w : Write)
  deriving DecidableEq, Repr

def signUpStores (a : SignUp.Attempt) : SignUp.Event → List Stored
  | .documentAnswered documentID none =>
    match a.addDocument with
    | .waiting data => [.addDocument ⟨documentID, data⟩]
    | _ => []
  | _ => []

def trainingStores (s : Learning.Screen) : Learning.Event → List Stored
  | .applied i => (s.writes[i]?.map .updateData).toList
  | _ => []

def detailsStores (s : Details.Screen) : Details.Event → List Stored
  | .applied i => (s.writes[i]?.map .updateData).toList
  | _ => []

def stores (s : State) : Event → List Stored
  | .signUp m => outputOf signUpStores s.signUps m
  | .training m => outputOf trainingStores s.trainings m
  | .details m => outputOf detailsStores s.details m
  | _ => []

/-! ## What is printed -/

/-- A line on the console, as what stands in its `print`. -/
inductive Line
  /-- `"\(document.documentID) => \(document.data())"`. -/
  | document (d : Document)
  | json (verbs : List IrregularVerb)
  | favoritesVerbs (verbs : List String)
  /-- `favorite.count`. -/
  | count (n : Nat)
  /-- The text that `cut` leaves. -/
  | text (string : String)
  | errorGettingDocuments
  | errorAddingDocument (error : String)
  deriving DecidableEq, Repr

def signUpLines (a : SignUp.Attempt) : SignUp.Event → List Line
  | .documentCallback =>
    match a.addDocument with
    | .answered _ (some error) => [.errorAddingDocument error]
    | _ => []
  | _ => []

/-- `cut` prints what it leaves, and nothing for a form that is not there. -/
def cutLines (stringToCut : Option String) : List Line :=
  match stringToCut with
  | none => []
  | some string => [.text (Learning.LearningView.cut (some string))]

/-- `logicOfGame` cuts the three forms, and then the form of the drawn tense again. -/
def questionLines (randomVerb : Option IrregularVerb × Nat) : List Line :=
  let infinitive := cutLines (randomVerb.1.bind (·.infinitive))
  let pastSimple := cutLines (randomVerb.1.bind (·.pastSimple))
  let pastParticiple := cutLines (randomVerb.1.bind (·.pastParticiple))
  infinitive ++ pastSimple ++ pastParticiple ++
    match randomVerb.2 with
    | 1 => infinitive
    | 2 => pastSimple
    | _ => pastParticiple

def trainingLines (s : Learning.Screen) : Learning.Event → List Line
  | .startLearning draw => questionLines (s.presenter.randomElement draw)
  | .goToNextVerb draw =>
    if s.view.fieldForWriteVerb.text = s.view.currentEmptyVerb then
      questionLines (s.presenter.randomElement draw)
    else []
  | .downloadAnswered (some json) => [.json json]
  | .callback i =>
    match s.requests[i]? with
    | some ⟨.updateBestScore, some documents⟩ => documents.map .document
    | _ => []
  | .bestScoreBlock i => (s.blocks[i]?.map .document).toList
  | .failed _ => [.errorGettingDocuments]
  | _ => []

def detailsLines (s : Details.Screen) : Details.Event → List Line
  | .callback i =>
    match s.requests[i]? with
    | some ⟨.addFavoriteVerbs _, some documents⟩ => documents.map .document
    | some ⟨.deleteFavoriteVerbs _, some documents⟩ => documents.map .document
    | _ => []
  | .globalBlock i =>
    match s.globalBlocks[i]? with
    | some (_, document) => [.document document, .favoritesVerbs document.favoritesVerbs]
    | none => []
  | .failed _ => [.errorGettingDocuments]
  | _ => []

def favoritesLines (s : FavoriteVerbs.Screen) : FavoriteVerbs.Event → List Line
  | .downloadAnswered (some json) => [.json json]
  | .favoritesBlock i =>
    match s.blocks[i]? with
    | some document =>
      let s := { s with favoritesVerbs := document.favoritesVerbs }
      [.document document, .favoritesVerbs s.favoritesVerbs,
        .count (FavoriteVerbs.filterByFavorite s).length]
    | none => []
  | .failed _ => [.errorGettingDocuments]
  | _ => []

def allVerbsLines : AllVerbs.Event → List Line
  | .downloadAnswered (some json) => [.json json]
  | _ => []

/-- What an event prints. The `print` of a frame's height in a layout and the one of an error in
the file of verbs are left out. -/
def prints (s : State) : Event → List Line
  | .signUp m => outputOf signUpLines s.signUps m
  | .training m => outputOf trainingLines s.trainings m
  | .details m => outputOf detailsLines s.details m
  | .favorites m => outputOf favoritesLines s.favorites m
  | .allVerbs m => outputOf (fun _ => allVerbsLines) s.allVerbs m
  | .signIn _ | .signOutByForce _ => []

end EasyVerbs.App
