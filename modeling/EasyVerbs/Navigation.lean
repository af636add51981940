-- The screens on top of each other. The user sees the last one only: the root is
-- `SignInView`, each other screen is presented by the one below it, and the app
-- of `App.lean` takes what the user does and what comes from the backends.
import EasyVerbs.App

open Runs Parties

namespace EasyVerbs.Navigation

open SignUp (Backend SignUpView)
open SignIn (SignInView)
open Search (SearchTable)

/-! ## The menu -/

structure UniqueButton where
  name : String
  side : Int
  id : String
  deriving DecidableEq, Repr

/-- The three factories that the menu calls. -/
inductive NewVC
  | allVerbs
  | favoriteVerbs
  | learning
  deriving DecidableEq, Repr

namespace MenuPresenter

def buttonsOnMenu : List UniqueButton :=
  [⟨"VOCAB LUARY", 1, "AllVerbsViewController"⟩,
    ⟨"FAVO RITES", 2, "FavoritesVerbsViewController"⟩,
    ⟨"TRAI NING", 1, "LearningViewController"⟩]

def createNewVC (name : String) : NewVC :=
  match name with
  | "AllVerbsViewController" => .allVerbs
  | "FavoritesVerbsViewController" => .favoriteVerbs
  | _ => .learning

end MenuPresenter

structure ButtonTableViewCell where
  title : Option String := none
  rightArrowIsHidden : Bool := false
  leftArrowIsHidden : Bool := false
  nameForSegue : String := ""
  deriving DecidableEq, Repr

def ButtonTableViewCell.update (newButton : UniqueButton) (cell : ButtonTableViewCell) :
    ButtonTableViewCell :=
  let cell := { cell with title := some newButton.name }
  let cell :=
    if newButton.side = 2 then { cell with rightArrowIsHidden := true }
    else { cell with leftArrowIsHidden := true }
  { cell with nameForSegue := newButton.id }

def menuCellForRowAt (row : Nat) : Option ButtonTableViewCell :=
  MenuPresenter.buttonsOnMenu[row]?.map fun button => ButtonTableViewCell.update button {}

/-- `tapOnButton` and `didTapOnMenuButton`. -/
def tapOnButton (cell : ButtonTableViewCell) : NewVC := MenuPresenter.createNewVC cell.nameForSegue

/-! ## The controllers -/

/-- A cell of a list of verbs, with the verb that it was configured with. -/
structure VerbCell where
  verb : Option IrregularVerb := none
  deriving DecidableEq, Repr

def VerbCell.update (newVerb : IrregularVerb) (cell : VerbCell) : VerbCell :=
  { cell with verb := some newVerb }

inductive VerbList
  | allVerbs
  | favoriteVerbs
  deriving DecidableEq, Repr

/-- A controller over the root. A screen of the app is known by its number there, and a `SignUpView`
by the attempts that were made on it. -/
inductive Controller
  | alert (title message : String)
  | signUp (attempts : List Nat)
  | menu
  | learning (i : Nat)
  | verbs (l : VerbList) (i : Nat) (cells : List VerbCell)
  | details (i : Nat)
  deriving DecidableEq, Repr

/-- The app and the controllers over the root, the last one first. -/
structure State where
  app : App.State
  presented : List Controller := []
  deriving DecidableEq, Repr

def launch (b : Backend) (user : Option String) : State := { app := App.launch b user }

def State.present (c : Controller) (s : State) : State := { s with presented := c :: s.presented }

/-- `present` of the root. A controller that presents one already presents no other. -/
def State.rootPresents (c : Controller) (s : State) : State :=
  match s.presented with
  | [] => s.present c
  | _ :: _ => s

def State.dismiss (s : State) : State := { s with presented := s.presented.tail }

def State.rootAlerts (alerts : List (String × String)) (s : State) : State :=
  alerts.foldl (fun s alert => s.rootPresents (.alert alert.1 alert.2)) s

/-- `showAlert` of the `SignUpView` of an attempt. -/
def State.signUpAlerts (i : Nat) (alerts : List (String × String)) (s : State) : State :=
  match s.presented, alerts with
  | .signUp attempts :: _, (title, message) :: _ =>
    if i ∈ attempts then s.present (.alert title message) else s
  | _, _ => s

/-! ## What reaches the app -/

def reloads : SearchTable.Event → Bool
  | .searchBarCancelButtonClicked | .reloadTableView => true
  | _ => false

def reloadedBy : App.Event → Option (VerbList × Nat)
  | .allVerbs (.act i (.table e)) => if reloads e then some (.allVerbs, i) else none
  | .allVerbs (.act i .downloadDelivered) => some (.allVerbs, i)
  | .favorites (.act i (.table e)) => if reloads e then some (.favoriteVerbs, i) else none
  | .favorites (.act i (.favoritesBlock _)) => some (.favoriteVerbs, i)
  | _ => none

/-- A table that is reloaded asks for all its cells again. -/
def Controller.after (e : App.Event) : Controller → Controller
  | .verbs l i cells => .verbs l i (if reloadedBy e = some (l, i) then [] else cells)
  | c => c

/-- An event of the app, under the controllers as they are. -/
def State.call (s : State) (e : App.Event) : Option State :=
  (App.step s.app e).map fun app => ⟨app, s.presented.map (Controller.after e)⟩

/-- An event that takes the user. All the others come from the backends and the queues. -/
def byUser : App.Event → Bool
  | .signOutByForce _ => false
  | .signUp (.act _ e) => e = .dismissed
  | .signIn (.act _ _) => false
  | .training (.act _ e) =>
    match e with
    | .startLearning _ | .goToNextVerb _ | .editText _ | .backButtonDidTap => true
    | _ => false
  | .details (.act _ e) => e = .addToFavoritesButton ∨ e = .backButtonDidTap
  | .favorites (.act _ (.table e)) | .allVerbs (.act _ (.table e)) =>
    match e with
    | .searchBarShouldBeginEditing | .textDidChange _ | .searchBarCancelButtonClicked => true
    | _ => false
  | .favorites (.act _ _) | .allVerbs (.act _ _) => false
  | _ => true

namespace VerbList

def table (i : Nat) (e : SearchTable.Event) : VerbList → App.Event
  | .allVerbs => .allVerbs (.act i (.table e))
  | .favoriteVerbs => .favorites (.act i (.table e))

def searchTable (i : Nat) (app : App.State) : VerbList → Option SearchTable
  | .allVerbs => app.allVerbs[i]?.map (·.toSearchTable)
  | .favoriteVerbs => app.favorites[i]?.map (·.toSearchTable)

/-- The table asks for the cell of one of its rows. A row that is past the end of the list traps. -/
def cellForRowAt (i row : Nat) (app : App.State) (l : VerbList) : Option VerbCell :=
  match l.searchTable i app with
  | none => none
  | some t => if row < t.rows then (t.currentVerbs row).map fun verb => VerbCell.update verb {} else none

end VerbList

/-! ## The events -/

inductive SignInTap
  | signUpButtonDidTap
  | loginButton (view : SignInView)
  deriving DecidableEq, Repr

inductive SignUpTap
  | signUpButtonDidTap
  | createNewAccountButtonDidTap (view : SignUpView)
  deriving DecidableEq, Repr

/-- What can happen on a screen with a list of verbs. -/
inductive VerbsTap
  | searchBar (e : SearchTable.Event)
  | cellForRowAt (row : Nat)
  | tapButton (cell : Nat)
  | backButtonDidTap
  deriving DecidableEq, Repr

/-- The scene becomes active, the user does something on the last controller, or an event of the app
comes from somewhere else. -/
inductive Event
  | sceneDidBecomeActive
  | alertAction
  | signIn (tap : SignInTap)
  | signUp (tap : SignUpTap)
  | menu (row : Nat)
  | learning (e : Learning.Event)
  | verbs (tap : VerbsTap)
  | details (e : Details.Event)
  | background (e : App.Event)

/-- The alerts that an attempt shows when it goes on. -/
def newAlerts (old new : List (String × String)) : List (String × String) := new.drop old.length

/-- What the callbacks of the log-in put over the root, and those of the sign-up over their screen. -/
def State.answered (before : App.State) (e : App.Event) (s : State) : State :=
  match e with
  | .signIn (.act i _) =>
    match before.signIns[i]?, s.app.signIns[i]? with
    | some a, some a' =>
      let s := s.rootAlerts (newAlerts a.alerts a'.alerts)
      if a.menus < a'.menus then s.rootPresents .menu else s
    | _, _ => s
  | .signUp (.act i _) =>
    match before.signUps[i]?, s.app.signUps[i]? with
    | some a, some a' => s.signUpAlerts i (newAlerts a.alerts a'.alerts)
    | _, _ => s
  | _ => s

def NewVC.make : NewVC → App.Event
  | .allVerbs => .allVerbs (.join ())
  | .favoriteVerbs => .favorites (.join ())
  | .learning => .training (.join ())

def NewVC.controller (app : App.State) : NewVC → Controller
  | .allVerbs => .verbs .allVerbs app.allVerbs.length []
  | .favoriteVerbs => .verbs .favoriteVerbs app.favorites.length []
  | .learning => .learning app.trainings.length

def State.didTapOnMenuButton (vc : NewVC) (s : State) : Option State :=
  (s.call vc.make).map (·.present (vc.controller s.app))

/-- The `SignUpView` goes, and with it the weak `view` of its attempts. -/
def gone (attempts : List Nat) : List App.Event := attempts.map fun i => .signUp (.act i .dismissed)

def State.dismissSignUp (attempts : List Nat) (s : State) : Option State :=
  (exec State.call s (gone attempts)).map State.dismiss

/-- With the attempt that a tap on the button makes: an alert comes, or the account is asked for and
the screen goes. -/
def State.createNewAccount (view : SignUpView) (attempts : List Nat) (s : State) : Option State :=
  match (SignUp.createNewAccountButtonDidTap view).alerts with
  | (title, message) :: _ =>
    some (State.present (.alert title message) { s with presented := .signUp attempts :: s.presented.tail })
  | [] => s.dismissSignUp attempts

/-- What happens on a screen with a list of verbs that is last, over the controllers `under`. -/
def State.verbsTap (l : VerbList) (i : Nat) (cells : List VerbCell) (under : List Controller) (s : State) :
    VerbsTap → Option State
  | .searchBar e => if byUser (l.table i e) then s.call (l.table i e) else none
  | .cellForRowAt row =>
    (l.cellForRowAt i row s.app).map fun cell => { s with presented := .verbs l i (cells ++ [cell]) :: under }
  | .tapButton n =>
    match cells[n]? with
    | none => none
    | some cell =>
      (s.call (.details (.join cell.verb))).map (·.present (.details s.app.details.length))
  | .backButtonDidTap => some s.dismiss

/-- The state after an event, or none when the event cannot happen. -/
def step (s : State) : Event → Option State
  | .sceneDidBecomeActive => some (if s.app.currentUser.isSome then s.rootPresents .menu else s)
  | .alertAction =>
    match s.presented with
    | .alert _ _ :: _ => some s.dismiss
    | _ => none
  | .signIn .signUpButtonDidTap =>
    match s.presented with
    | [] => some (s.present (.signUp []))
    | _ => none
  | .signIn (.loginButton view) =>
    match s.presented with
    | [] => (s.call (.signIn (.join view))).map (·.rootAlerts (SignIn.loginButton view).alerts)
    | _ => none
  | .signUp .signUpButtonDidTap =>
    match s.presented with
    | .signUp attempts :: _ => s.dismissSignUp attempts
    | _ => none
  | .signUp (.createNewAccountButtonDidTap view) =>
    match s.presented with
    | .signUp attempts :: _ =>
      (s.call (.signUp (.join view))).bind (·.createNewAccount view (attempts ++ [s.app.signUps.length]))
    | _ => none
  | .menu row =>
    match s.presented with
    | .menu :: _ => (menuCellForRowAt row).bind fun cell => s.didTapOnMenuButton (tapOnButton cell)
    | _ => none
  | .learning e =>
    match s.presented with
    | .learning i :: _ =>
      let e' := .training (.act i e)
      if byUser e' then (s.call e').map fun t => if e = .backButtonDidTap then t.dismiss else t else none
    | _ => none
  | .verbs tap =>
    match s.presented with
    | .verbs l i cells :: under => s.verbsTap l i cells under tap
    | _ => none
  | .details e =>
    match s.presented with
    | .details i :: _ =>
      let e' := .details (.act i e)
      if byUser e' then (s.call e').map fun t => if e = .backButtonDidTap then t.dismiss else t else none
    | _ => none
  | .background e => if byUser e then none else (s.call e).map (·.answered s.app e)

/-! ## What a step can do -/

/-- What an event gives to the app, with the state `u` after that, and what the controllers make of
it. -/
inductive Turn (s u : State) : Event → List App.Event → State → Prop
  | active (huser : s.app.currentUser.isSome) : Turn s u .sceneDidBecomeActive [] (u.rootPresents .menu)
  | noUser : Turn s u .sceneDidBecomeActive [] u
  | alertAction {title message : String} {under : List Controller}
      (hlast : s.presented = .alert title message :: under) : Turn s u .alertAction [] u.dismiss
  | signUp (hlast : s.presented = []) : Turn s u (.signIn .signUpButtonDidTap) [] (u.present (.signUp []))
  | loginButton {view : SignInView} (hlast : s.presented = []) :
      Turn s u (.signIn (.loginButton view)) [.signIn (.join view)]
        (u.rootAlerts (SignIn.loginButton view).alerts)
  | leaveSignUp {attempts : List Nat} {under : List Controller} (hlast : s.presented = .signUp attempts :: under) :
      Turn s u (.signUp .signUpButtonDidTap) (gone attempts) u.dismiss
  | refused {attempts attempts' : List Nat} {under : List Controller} {view : SignUpView} {title message : String}
      (hlast : s.presented = .signUp attempts :: under) :
      Turn s u (.signUp (.createNewAccountButtonDidTap view)) [.signUp (.join view)]
        (State.present (.alert title message) { u with presented := .signUp attempts' :: u.presented.tail })
  | createNewAccount {attempts attempts' : List Nat} {under : List Controller} {view : SignUpView}
      (hlast : s.presented = .signUp attempts :: under) :
      Turn s u (.signUp (.createNewAccountButtonDidTap view)) (.signUp (.join view) :: gone attempts') u.dismiss
  | menu {row : Nat} {vc : NewVC} {under : List Controller} (hlast : s.presented = .menu :: under) :
      Turn s u (.menu row) [vc.make] (u.present (vc.controller s.app))
  | learning {e : Learning.Event} {i : Nat} {under : List Controller} (hlast : s.presented = .learning i :: under) :
      Turn s u (.learning e) [.training (.act i e)] (if e = .backButtonDidTap then u.dismiss else u)
  | searchBar {e : SearchTable.Event} {l : VerbList} {i : Nat} {cells : List VerbCell} {under : List Controller}
      (hlast : s.presented = .verbs l i cells :: under) (huser : byUser (l.table i e) = true) :
      Turn s u (.verbs (.searchBar e)) [l.table i e] u
  | cellForRowAt {row : Nat} {l : VerbList} {i : Nat} {cells : List VerbCell} {under : List Controller}
      {cell : VerbCell} (hlast : s.presented = .verbs l i cells :: under)
      (hcell : l.cellForRowAt i row s.app = some cell) :
      Turn s u (.verbs (.cellForRowAt row)) [] { u with presented := .verbs l i (cells ++ [cell]) :: under }
  | tapButton {n : Nat} {l : VerbList} {i : Nat} {cells : List VerbCell} {under : List Controller}
      {cell : VerbCell} (hlast : s.presented = .verbs l i cells :: under) (hcell : cells[n]? = some cell) :
      Turn s u (.verbs (.tapButton n)) [.details (.join cell.verb)] (u.present (.details s.app.details.length))
  | leaveVerbs {l : VerbList} {i : Nat} {cells : List VerbCell} {under : List Controller}
      (hlast : s.presented = .verbs l i cells :: under) : Turn s u (.verbs .backButtonDidTap) [] u.dismiss
  | details {e : Details.Event} {i : Nat} {under : List Controller} (hlast : s.presented = .details i :: under) :
      Turn s u (.details e) [.details (.act i e)] (if e = .backButtonDidTap then u.dismiss else u)
  | background {e : App.Event} (hby : byUser e = false) : Turn s u (.background e) [e] (u.answered s.app e)

variable {s t u : State} {e : Event}

theorem exec_call_one {e : App.Event} (h : s.call e = some u) : exec State.call s [e] = some u := by
  rw [exec_one, h]

theorem step_cases (hs : step s e = some t) : ∃ es u, exec State.call s es = some u ∧ Turn s u e es t := by
  unfold step at hs
  cases e with
  | sceneDidBecomeActive =>
    cases hs
    refine ⟨[], s, rfl, ?_⟩
    by_cases huser : s.app.currentUser.isSome
    · rw [if_pos huser]
      exact .active huser
    · rw [if_neg huser]
      exact .noUser
  | alertAction =>
    dsimp only at hs
    split at hs
    · rename_i hlast
      cases hs
      exact ⟨[], s, rfl, .alertAction hlast⟩
    · cases hs
  | signIn tap =>
    cases tap with
    | signUpButtonDidTap =>
      dsimp only at hs
      split at hs
      · rename_i hlast
        cases hs
        exact ⟨[], s, rfl, .signUp hlast⟩
      · cases hs
    | loginButton view =>
      dsimp only at hs
      split at hs
      · rename_i hlast
        obtain ⟨u, hu, rfl⟩ := Option.map_eq_some_iff.mp hs
        exact ⟨_, u, exec_call_one hu, .loginButton hlast⟩
      · cases hs
  | signUp tap =>
    cases tap with
    | signUpButtonDidTap =>
      dsimp only at hs
      split at hs
      · rename_i hlast
        obtain ⟨u, hu, rfl⟩ := Option.map_eq_some_iff.mp hs
        exact ⟨_, u, hu, .leaveSignUp hlast⟩
      · cases hs
    | createNewAccountButtonDidTap view =>
      dsimp only at hs
      split at hs
      · rename_i attempts _ hlast
        obtain ⟨u, hu, hnew⟩ := Option.bind_eq_some_iff.mp hs
        unfold State.createNewAccount at hnew
        split at hnew
        · cases hnew
          exact ⟨_, u, exec_call_one hu, .refused hlast⟩
        · obtain ⟨u', hu', rfl⟩ := Option.map_eq_some_iff.mp hnew
          have hcalls : exec State.call s (.signUp (.join view) :: gone (attempts ++ [s.app.signUps.length])) =
              some u' := by
            rw [exec, hu]
            exact hu'
          exact ⟨_, u', hcalls, .createNewAccount hlast⟩
      · cases hs
  | menu row =>
    dsimp only at hs
    split at hs
    · rename_i hlast
      obtain ⟨cell, _, hopen⟩ := Option.bind_eq_some_iff.mp hs
      obtain ⟨u, hu, rfl⟩ := Option.map_eq_some_iff.mp hopen
      exact ⟨_, u, exec_call_one hu, .menu hlast⟩
    · cases hs
  | learning e =>
    dsimp only at hs
    split at hs
    · rename_i hlast
      rw [Option.ite_none_right_eq_some] at hs
      obtain ⟨u, hu, rfl⟩ := Option.map_eq_some_iff.mp hs.2
      exact ⟨_, u, exec_call_one hu, .learning hlast⟩
    · cases hs
  | verbs tap =>
    dsimp only at hs
    split at hs
    · rename_i hlast
      unfold State.verbsTap at hs
      cases tap with
      | searchBar e =>
        rw [Option.ite_none_right_eq_some] at hs
        exact ⟨_, t, exec_call_one hs.2, .searchBar hlast hs.1⟩
      | cellForRowAt row =>
        obtain ⟨cell, hcell, rfl⟩ := Option.map_eq_some_iff.mp hs
        exact ⟨[], s, rfl, .cellForRowAt hlast hcell⟩
      | tapButton n =>
        dsimp only at hs
        split at hs
        · cases hs
        · rename_i hcell
          obtain ⟨u, hu, rfl⟩ := Option.map_eq_some_iff.mp hs
          exact ⟨_, u, exec_call_one hu, .tapButton hlast hcell⟩
      | backButtonDidTap =>
        cases hs
        exact ⟨[], s, rfl, .leaveVerbs hlast⟩
    · cases hs
  | details e =>
    dsimp only at hs
    split at hs
    · rename_i hlast
      rw [Option.ite_none_right_eq_some] at hs
      obtain ⟨u, hu, rfl⟩ := Option.map_eq_some_iff.mp hs.2
      exact ⟨_, u, exec_call_one hu, .details hlast⟩
    · cases hs
  | background e =>
    dsimp only at hs
    split at hs
    · cases hs
    · rename_i hby
      obtain ⟨u, hu, rfl⟩ := Option.map_eq_some_iff.mp hs
      exact ⟨_, u, exec_call_one hu, .background (by simpa using hby)⟩

/-! ## The app under the controllers -/

/-- What a call leaves of the controllers, all of it but the cells. -/
theorem call_eq_some {e : App.Event} (h : s.call e = some t) :
    App.step s.app e = some t.app ∧ t.presented = s.presented.map (Controller.after e) := by
  unfold State.call at h
  obtain ⟨app, happ, rfl⟩ := Option.map_eq_some_iff.mp h
  exact ⟨happ, rfl⟩

theorem exec_call {es : List App.Event} (h : exec State.call s es = some u) :
    exec App.step s.app es = some u.app :=
  exec_seen (fun _ _ _ h => (call_eq_some h).1) h

end EasyVerbs.Navigation
