-- The laws of the controllers: in which order they stand over each other, and
-- whose screens they show. A menu is over the root for a user only, as long as
-- FirebaseAuth signs nobody out, and then no log-in and no sign-up starts any more.
import EasyVerbs.Navigation
import EasyVerbs.OneUser

open Runs Parties

namespace EasyVerbs.Navigation

open SignUp (Backend SignUpView)
open SignIn (SignInView)

/-! ## The order -/

inductive Kind
  | signIn
  | alert
  | signUp
  | menu
  | learning
  | verbs
  | details
  deriving DecidableEq, Repr

def Controller.kind : Controller → Kind
  | .alert _ _ => .alert
  | .signUp _ => .signUp
  | .menu => .menu
  | .learning _ => .learning
  | .verbs _ _ _ => .verbs
  | .details _ => .details

/-- Which controllers a controller presents. -/
def Kind.presents : Kind → Kind → Bool
  | .signIn, .alert | .signIn, .signUp | .signIn, .menu => true
  | .signUp, .alert => true
  | .menu, .learning | .menu, .verbs => true
  | .verbs, .details => true
  | _, _ => false

/-- The kinds of the controllers over the root, the last one first. -/
def State.kinds (s : State) : List Kind := s.presented.map Controller.kind

/-- Each controller is presented by the one below it, and the first one by the root. -/
def InOrder : List Kind → Prop
  | [] => True
  | k :: under => (under.headD .signIn).presents k = true ∧ InOrder under

/-- All that can be over the root. -/
def orders : List (List Kind) :=
  [[], [.alert], [.signUp], [.alert, .signUp], [.menu], [.learning, .menu], [.verbs, .menu],
    [.details, .verbs, .menu]]

theorem presents_inOrder {k : Kind} {under : List Kind} (hk : (under.headD .signIn).presents k = true)
    (hunder : under ∈ orders) : k :: under ∈ orders := by
  revert hk
  cases k <;> revert under <;> decide

theorem inOrder_mem {ks : List Kind} (h : InOrder ks) : ks ∈ orders := by
  induction ks with
  | nil => decide
  | cons k under ih => exact presents_inOrder h.1 (ih h.2)

/-- What a turn makes of the controllers. A menu comes when `signedIn` holds, and it never goes. -/
inductive Shift (signedIn : Prop) (ks : List Kind) : List Kind → Prop
  | stays : Shift signedIn ks ks
  | presents {k : Kind} (hk : (ks.headD .signIn).presents k = true) (hmenu : k = .menu → signedIn) :
      Shift signedIn ks (k :: ks)
  | dismisses {k : Kind} {under : List Kind} (hlast : ks = k :: under) (hk : k ≠ .menu) :
      Shift signedIn ks under

variable {p q : Prop} {ks ks' : List Kind}

theorem Shift.inOrder (h : Shift p ks ks') (ho : InOrder ks) : InOrder ks' := by
  cases h with
  | stays => exact ho
  | presents hk _ => exact ⟨hk, ho⟩
  | dismisses hlast _ =>
    rw [hlast] at ho
    exact ho.2

theorem Shift.menu_comes (h : Shift p ks ks') (hm : Kind.menu ∈ ks') : Kind.menu ∈ ks ∨ p := by
  cases h with
  | stays => exact Or.inl hm
  | presents _ hmenu =>
    rcases List.mem_cons.mp hm with hm | hm
    · exact Or.inr (hmenu hm.symm)
    · exact Or.inl hm
  | dismisses hlast _ => exact Or.inl (hlast ▸ List.mem_cons_of_mem _ hm)

/-! ## What the turns make of it -/

variable {s t u : State} {e : Event}

theorem kinds_present (c : Controller) (s : State) : (s.present c).kinds = c.kind :: s.kinds := rfl

theorem kinds_dismiss (s : State) : s.dismiss.kinds = s.kinds.tail := by
  unfold State.dismiss State.kinds
  rw [List.map_tail]

theorem kinds_after (e : App.Event) (cs : List Controller) :
    (cs.map (Controller.after e)).map Controller.kind = cs.map Controller.kind := by
  rw [List.map_map]
  refine List.map_congr_left fun c _ => ?_
  cases c <;> rfl

theorem kinds_exec {es : List App.Event} (h : exec State.call s es = some u) : u.kinds = s.kinds :=
  exec_invariant (I := fun v => v.kinds = s.kinds) (G := fun _ => True) h (fun _ _ => trivial) rfl
    fun v e w hv _ hw => by
      unfold State.kinds at hv ⊢
      rw [(call_eq_some hw).2, kinds_after]
      exact hv

theorem rootPresents_nil {c : Controller} (h : s.presented = []) : s.rootPresents c = s.present c := by
  unfold State.rootPresents
  rw [h]

theorem rootPresents_over {c : Controller} (h : s.presented ≠ []) : s.rootPresents c = s := by
  unfold State.rootPresents
  split
  · rename_i hnone
    exact absurd hnone h
  · rfl

theorem rootAlerts_over {alerts : List (String × String)} (h : s.presented ≠ []) : s.rootAlerts alerts = s := by
  unfold State.rootAlerts
  induction alerts with
  | nil => rfl
  | cons alert rest ih =>
    rw [List.foldl_cons, rootPresents_over h]
    exact ih

/-- Of some alerts the root shows the first one, when nothing is over it. -/
theorem rootAlerts_cons (alert : String × String) (rest : List (String × String)) :
    s.rootAlerts (alert :: rest) = s.rootPresents (.alert alert.1 alert.2) := by
  by_cases h : s.presented = []
  · have hplace : (s.present (.alert alert.1 alert.2)).presented ≠ [] := List.cons_ne_nil _ _
    unfold State.rootAlerts
    rw [List.foldl_cons, rootPresents_nil h]
    exact rootAlerts_over hplace
  · rw [rootAlerts_over h, rootPresents_over h]

/-- A controller over the root comes when nothing is there, or not at all. -/
theorem rootPresents_shift {c : Controller} (hroot : Kind.signIn.presents c.kind = true)
    (hmenu : c.kind = .menu → p) : Shift p s.kinds (s.rootPresents c).kinds := by
  by_cases h : s.presented = []
  · have hnone : s.kinds = [] := by rw [State.kinds, h, List.map_nil]
    rw [rootPresents_nil h, kinds_present, hnone]
    exact .presents hroot hmenu
  · rw [rootPresents_over h]
    exact .stays

theorem rootAlerts_shift (alerts : List (String × String)) : Shift p s.kinds (s.rootAlerts alerts).kinds := by
  cases alerts with
  | nil => exact .stays
  | cons alert rest =>
    rw [rootAlerts_cons]
    exact rootPresents_shift rfl (fun h => by cases h)

theorem signUpAlerts_shift (i : Nat) (alerts : List (String × String)) :
    Shift p s.kinds (s.signUpAlerts i alerts).kinds := by
  unfold State.signUpAlerts
  split
  · rename_i hlast
    split
    · apply Shift.presents
      · rw [State.kinds, hlast]
        rfl
      · intro h
        cases h
    · exact .stays
  · exact .stays

/-! ## Who opens the menu -/

def signsOut : App.Event → Bool
  | .signOutByForce _ => true
  | _ => false

def Event.signsOut : Event → Bool
  | .background e => Navigation.signsOut e
  | _ => false

/-- FirebaseAuth signed somebody out. -/
def SignedOut (h : List (State × Event)) : Prop := ∃ m ∈ h, m.2.signsOut = true

theorem not_signedOut {h : List (State × Event)} {es : List Event} (he : h.map Prod.snd = es)
    (hes : ∀ e ∈ es, e.signsOut = false) : ¬ SignedOut h := by
  rintro ⟨m, hm, hsigns⟩
  rw [forall_of_events (G := fun e => e.signsOut = false) he hes m hm] at hsigns
  cases hsigns

-- In the laws below `out` holds when somebody was signed out.
variable {out : Prop}

/-- The sign-in of an account gives a current user, and its callback opens the menu only then. -/
def AnsweredIn (out : Prop) (app : App.State) : Prop :=
  ∀ a ∈ app.signIns, ∀ q answer, a.auth = .answered q answer → answer.error = none →
    app.currentUser.isSome ∨ out

theorem currentUser_stays {app app' : App.State} {e : App.Event} (hs : App.step app e = some app')
    (hout : signsOut e = true → out) (h : app.currentUser.isSome ∨ out) : app'.currentUser.isSome ∨ out := by
  refine h.elim (fun h => ?_) Or.inr
  cases e with
  | signOutByForce userID => exact Or.inr (hout rfl)
  | signUp m | signIn m =>
    obtain ⟨r, _, rfl⟩ := Option.map_eq_some_iff.mp hs
    rw [Option.isSome_or, h, Bool.or_true]
    exact Or.inl rfl
  | _ =>
    obtain ⟨r, _, rfl⟩ := Option.map_eq_some_iff.mp hs
    exact Or.inl h

/-- What an act of a log-in does: the answer, or the callback with the answer that was there. -/
inductive SignInAct (b : Backend) (a : SignIn.Attempt) : SignIn.Event → SignIn.Attempt → Prop
  | signedIn {q : String × String} {uid : String} :
      SignInAct b a (.authAnswered ⟨some uid, none⟩) { a with auth := .answered q ⟨some uid, none⟩ }
  | failed {q : String × String} {error : String} :
      SignInAct b a (.authAnswered ⟨none, some error⟩) { a with auth := .answered q ⟨none, some error⟩ }
  | callback {q : String × String} {answer : SignUp.AuthAnswer} (hauth : a.auth = .answered q answer) :
      SignInAct b a .authCallback (SignIn.authStateCallback answer { a with auth := .over q answer })

theorem signIn_cases {b b' : Backend} {a a' : SignIn.Attempt} {e : SignIn.Event}
    (ha : SignIn.act b a e = some (b', a')) : SignInAct b a e a' := by
  unfold SignIn.act at ha
  cases e with
  | authAnswered answer =>
    dsimp only at ha
    split at ha
    · split at ha
      · cases ha
        exact .signedIn
      · cases ha
    · cases ha
      exact .failed
    · cases ha
  | authCallback =>
    dsimp only at ha
    split at ha
    · rename_i hauth
      cases ha
      exact .callback hauth
    · cases ha

theorem loginButton_auth (view : SignInView) (q : String × String) (answer : SignUp.AuthAnswer) :
    (SignIn.loginButton view).auth ≠ .answered q answer := by
  intro h
  unfold SignIn.loginButton at h
  split at h
  · cases h
  · split at h
    · cases h
    · split at h
      · cases h
      · split at h <;> cases h

/-- The attempts after a step: those from before, or the ones that the event came to. -/
theorem step_answeredIn {app app' : App.State} {e : App.Event} (h : AnsweredIn out app)
    (hout : signsOut e = true → out) (hs : App.step app e = some app') : AnsweredIn out app' := by
  have hold : ∀ a ∈ app.signIns, ∀ q answer, a.auth = .answered q answer → answer.error = none →
      app'.currentUser.isSome ∨ out :=
    fun a ha q answer hauth herror => currentUser_stays hs hout (h a ha q answer hauth herror)
  cases e with
  | signOutByForce userID =>
    cases hs
    exact hold
  | signIn m =>
    obtain ⟨r, hr, rfl⟩ := Option.map_eq_some_iff.mp hs
    cases m with
    | join view =>
      cases hr
      intro a ha q answer hauth herror
      rcases List.mem_append.mp ha with ha | ha
      · exact hold a ha q answer hauth herror
      · rw [List.mem_singleton.mp ha] at hauth
        exact absurd hauth (loginButton_auth view q answer)
    | act i e =>
      obtain ⟨a, d, a', hp, hact, rfl⟩ := step_act_eq_some hr
      intro x hx q answer hauth herror
      rcases (mem_set_iff (lt_of_party hp)).mp hx with rfl | hx
      · cases signIn_cases hact with
        | signedIn => exact Or.inl rfl
        | failed =>
          cases hauth
          cases herror
        | callback _ =>
          unfold SignIn.authStateCallback at hauth
          split at hauth <;> cases hauth
      · exact hold x (List.mem_of_mem_eraseIdx hx) q answer hauth herror
  | _ =>
    obtain ⟨r, _, rfl⟩ := Option.map_eq_some_iff.mp hs
    exact hold

/-- The callback that opens the menu had an answer without an error. -/
theorem menu_opened {app app' : App.State} {i : Nat} {e : SignIn.Event} {a a' : SignIn.Attempt}
    (h : AnsweredIn out app) (hs : App.step app (.signIn (.act i e)) = some app') (ha : app.signIns[i]? = some a)
    (ha' : app'.signIns[i]? = some a') (hmenus : a.menus < a'.menus) : app'.currentUser.isSome ∨ out := by
  apply currentUser_stays hs (fun h => by cases h)
  obtain ⟨r, hr, rfl⟩ := Option.map_eq_some_iff.mp hs
  obtain ⟨x, d, y, hp, hact, rfl⟩ := step_act_eq_some hr
  have hx : a = x := Option.some.inj (ha.symm.trans hp)
  have hy : y = a' := by
    rw [List.getElem?_set_self (lt_of_party hp)] at ha'
    exact Option.some.inj ha'
  subst hx hy
  cases signIn_cases hact with
  | callback hauth =>
    apply h a (List.mem_of_getElem? hp) _ _ hauth
    unfold SignIn.authStateCallback at hmenus
    split at hmenus
    · exact absurd hmenus (Nat.lt_irrefl _)
    · rename_i herror
      simpa using herror
  | _ => exact absurd hmenus (Nat.lt_irrefl _)

/-! ## The controllers of a run -/

@[simp] theorem present_app (c : Controller) (s : State) : (s.present c).app = s.app := rfl

@[simp] theorem dismiss_app (s : State) : s.dismiss.app = s.app := rfl

@[simp] theorem rootPresents_app (c : Controller) (s : State) : (s.rootPresents c).app = s.app := by
  unfold State.rootPresents
  split <;> rfl

@[simp] theorem rootAlerts_app (alerts : List (String × String)) (s : State) :
    (s.rootAlerts alerts).app = s.app := by
  cases alerts with
  | nil => rfl
  | cons alert rest => rw [rootAlerts_cons, rootPresents_app]

@[simp] theorem signUpAlerts_app (i : Nat) (alerts : List (String × String)) (s : State) :
    (s.signUpAlerts i alerts).app = s.app := by
  unfold State.signUpAlerts
  split
  · split <;> rfl
  · rfl

@[simp] theorem answered_app (before : App.State) (e : App.Event) (s : State) :
    (s.answered before e).app = s.app := by
  unfold State.answered
  split
  · split
    · dsimp only
      split
      · rw [rootPresents_app, rootAlerts_app]
      · rw [rootAlerts_app]
    · rfl
  · split
    · rw [signUpAlerts_app]
    · rfl
  · rfl

theorem Turn.app_eq {es : List App.Event} (ht : Turn s u e es t) : t.app = u.app := by
  cases ht <;> first
    | rfl
    | simp
    | (split <;> rfl)

/-- Each run of the controllers is a run of the app, so the laws of the app are laws of it. -/
theorem run_app {b : Backend} {user : Option String} {h : List (State × Event)}
    (hr : Run step (launch b user) h s) : ∃ h', Run App.step (App.launch b user) h' s.app := by
  have hsim : ∀ v e w, step v e = some w → ∃ es, exec App.step v.app es = some w.app := by
    intro v e w hs
    obtain ⟨es, u, hcalls, ht⟩ := step_cases hs
    exact ⟨es, ht.app_eq ▸ exec_call hcalls⟩
  exact hr.refines hsim

/-- When the root has shown an alert, the menu has no place. -/
theorem answered_shift {e : App.Event} (h : AnsweredIn out s.app) (hs : App.step s.app e = some u.app) :
    Shift (u.app.currentUser.isSome ∨ out) u.kinds (u.answered s.app e).kinds := by
  unfold State.answered
  split
  · split
    · rename_i a a' ha ha'
      dsimp only
      split
      · rename_i hmenus
        cases hnew : newAlerts a.alerts a'.alerts with
        | nil => exact rootPresents_shift rfl fun _ => menu_opened h hs ha ha' hmenus
        | cons alert rest =>
          rw [rootAlerts_cons, rootPresents_over]
          · exact rootPresents_shift rfl (fun h => by cases h)
          · by_cases hnone : u.presented = []
            · rw [rootPresents_nil hnone]
              exact List.cons_ne_nil _ _
            · rw [rootPresents_over hnone]
              exact hnone
      · exact rootAlerts_shift _
    · exact .stays
  · split
    · exact signUpAlerts_shift _ _
    · exact .stays
  · exact .stays

theorem dismiss_shift {k : Kind} (hlast : u.kinds.head? = some k) (hk : k ≠ .menu) :
    Shift p u.kinds u.dismiss.kinds := by
  rw [kinds_dismiss]
  cases hks : u.kinds with
  | nil =>
    rw [hks] at hlast
    cases hlast
  | cons k' under =>
    rw [hks] at hlast
    cases hlast
    exact .dismisses rfl hk

theorem turn_shift {es : List App.Event} (h : AnsweredIn out s.app) (hcalls : exec State.call s es = some u)
    (ht : Turn s u e es t) : Shift (t.app.currentUser.isSome ∨ out) s.kinds t.kinds := by
  rw [ht.app_eq, ← kinds_exec hcalls]
  have hkinds : u.kinds = s.presented.map Controller.kind := kinds_exec hcalls
  cases ht with
  | active huser =>
    cases hcalls
    exact rootPresents_shift rfl fun _ => Or.inl huser
  | noUser | searchBar _ _ => exact .stays
  | alertAction hlast | leaveSignUp hlast | createNewAccount hlast | leaveVerbs hlast =>
    rw [hlast] at hkinds
    exact dismiss_shift (by rw [hkinds]; rfl) (fun h => by cases h)
  | signUp hlast =>
    rw [hlast] at hkinds
    rw [kinds_present]
    exact .presents (by rw [hkinds]; rfl) (fun h => by cases h)
  | loginButton _ => exact rootAlerts_shift _
  | @refused attempts attempts' under view title message hlast =>
    rw [hlast] at hkinds
    have hsame : (State.mk u.app (.signUp attempts' :: u.presented.tail)).kinds = u.kinds := by
      unfold State.kinds at hkinds ⊢
      rw [List.map_cons, List.map_tail, hkinds]
      rfl
    rw [kinds_present, hsame]
    exact .presents (by rw [hkinds]; rfl) (fun h => by cases h)
  | @menu row vc under hlast =>
    rw [hlast] at hkinds
    rw [kinds_present]
    refine .presents ?_ fun h => ?_
    · rw [hkinds]
      cases vc <;> rfl
    · cases vc <;> cases h
  | learning hlast | details hlast =>
    rw [hlast] at hkinds
    split
    · exact dismiss_shift (by rw [hkinds]; rfl) (fun h => by cases h)
    · exact .stays
  | @cellForRowAt row l i cells under cell hlast _ =>
    rw [hlast] at hkinds
    have hsame : (State.mk u.app (.verbs l i (cells ++ [cell]) :: under)).kinds = u.kinds := hkinds.symm
    rw [hsame]
    exact .stays
  | tapButton hlast _ =>
    rw [hlast] at hkinds
    rw [kinds_present]
    exact .presents (by rw [hkinds]; rfl) (fun h => by cases h)
  | background _ =>
    have hstep := exec_call hcalls
    rw [exec_one] at hstep
    exact answered_shift h hstep

/-! ## Whose screens they are -/

/-- The user of each training, each Details and each Favorites screen so far. -/
structure ScreenUsers where
  trainings : List (Option String) := []
  details : List (Option String) := []
  favorites : List (Option String) := []
  deriving DecidableEq, Repr

namespace ScreenUsers

def append (us vs : ScreenUsers) : ScreenUsers :=
  ⟨us.trainings ++ vs.trainings, us.details ++ vs.details, us.favorites ++ vs.favorites⟩

/-- What holds of all of them. -/
def All (Q : Option String → Prop) (us : ScreenUsers) : Prop :=
  (∀ user ∈ us.trainings, Q user) ∧ (∀ user ∈ us.details, Q user) ∧ ∀ user ∈ us.favorites, Q user

variable {Q : Option String → Prop} {us vs : ScreenUsers}

theorem all_append : (us.append vs).All Q ↔ us.All Q ∧ vs.All Q := by
  unfold All append
  simp only [List.forall_mem_append]
  tauto

theorem All.imp {Q' : Option String → Prop} (h : us.All Q) (hQ : ∀ user, Q user → Q' user) : us.All Q' :=
  ⟨fun user hu => hQ user (h.1 user hu), fun user hu => hQ user (h.2.1 user hu),
    fun user hu => hQ user (h.2.2 user hu)⟩

theorem append_empty (us : ScreenUsers) : us.append {} = us := by
  unfold append
  simp

theorem append_assoc (us vs ws : ScreenUsers) : (us.append vs).append ws = us.append (vs.append ws) := by
  unfold append
  simp

end ScreenUsers

def screenUsers (app : App.State) : ScreenUsers where
  trainings := app.trainings.map (·.presenter.userID)
  details := app.details.map (·.presenter.userID)
  favorites := app.favorites.map (·.userID)

/-- The users of the screens that an event makes. -/
def madeFor (user : Option String) : App.Event → ScreenUsers
  | .training m => { trainings := (joined m).map fun _ => user }
  | .details m => { details := (joined m).map fun _ => user }
  | .favorites m => { favorites := (joined m).map fun _ => user }
  | _ => {}

/-- A screen keeps its user, and a new one has the user that is signed in then. -/
theorem step_screenUsers {app app' : App.State} {e : App.Event} (hs : App.step app e = some app') :
    screenUsers app' = (screenUsers app).append (madeFor app.currentUser e) := by
  unfold screenUsers ScreenUsers.append madeFor
  cases e with
  | training m =>
    obtain ⟨r, hr, rfl⟩ := Option.map_eq_some_iff.mp hs
    have htags := step_tags (f := fun p : Learning.Screen => p.presenter.userID) hr fun _ _ _ _ _ ha =>
      Learning.step_userID (Learning.act_eq_some (App.trainingAct_own ha)).1
    simpa [App.training_viewDidLoad] using htags
  | details m =>
    obtain ⟨r, hr, rfl⟩ := Option.map_eq_some_iff.mp hs
    have htags := step_tags (f := fun p : Details.Screen => p.presenter.userID) hr fun _ _ _ _ _ ha =>
      App.details_userID (App.detailsAct_own ha)
    simpa [App.details_viewDidLoad] using htags
  | favorites m =>
    obtain ⟨r, hr, rfl⟩ := Option.map_eq_some_iff.mp hs
    have htags := step_tags (f := fun p : FavoriteVerbs.Screen => p.userID) hr fun _ _ _ _ _ ha =>
      (App.favorites_acts _ _).stays _ _ _ ha
    simpa [FavoriteVerbs.viewDidLoad, FavoriteVerbs.onViewDidLoad] using htags
  | signOutByForce userID =>
    cases hs
    simp
  | _ =>
    obtain ⟨r, _, rfl⟩ := Option.map_eq_some_iff.mp hs
    simp

/-! ## The laws of a run -/

/-- The controllers stand in order, a menu is there for a user only, and so is each screen so far. -/
structure Standing (out : Prop) (s : State) : Prop where
  order : InOrder s.kinds
  answered : AnsweredIn out s.app
  menu : Kind.menu ∈ s.kinds → s.app.currentUser.isSome ∨ out
  users : (screenUsers s.app).All fun user => user.isSome ∨ out

/-- The kinds of the controllers that a menu is under. -/
def Kind.behindMenu : Kind → Bool
  | .menu | .learning | .verbs | .details => true
  | _ => false

theorem mem_menu {k : Kind} (h : InOrder ks) (hk : k ∈ ks) (hb : k.behindMenu = true) : Kind.menu ∈ ks := by
  have hall : ∀ ks ∈ orders, ∀ k ∈ ks, k.behindMenu = true → Kind.menu ∈ ks := by decide
  exact hall ks (inOrder_mem h) k hk hb

theorem behind_menu {k : Kind} (h : InOrder ks) (hm : Kind.menu ∈ ks) (hk : k ∈ ks) : k.behindMenu = true := by
  have hall : ∀ ks ∈ orders, Kind.menu ∈ ks → ∀ k ∈ ks, k.behindMenu = true := by decide
  exact hall ks (inOrder_mem h) hm k hk

/-- A tap on the button of a form. -/
def startsAttempt : App.Event → Bool
  | .signUp (.join _) | .signIn (.join _) => true
  | _ => false

/-- What comes from the backends and the queues makes no screen and starts no attempt. -/
theorem background_quiet {e : App.Event} (h : byUser e = false) (user : Option String) :
    madeFor user e = {} ∧ startsAttempt e = false := by
  cases e with
  | signOutByForce _ => exact ⟨rfl, rfl⟩
  | signUp m | signIn m | training m | details m | favorites m | allVerbs m =>
    cases m with
    | join _ => cases h
    | act _ _ => exact ⟨rfl, rfl⟩

theorem gone_quiet {attempts : List Nat} {e : App.Event} (he : e ∈ gone attempts) (user : Option String) :
    madeFor user e = {} ∧ startsAttempt e = false := by
  obtain ⟨i, _, rfl⟩ := List.mem_map.mp he
  exact ⟨rfl, rfl⟩

theorem table_quiet (l : VerbList) (i : Nat) (e : Search.SearchTable.Event) (user : Option String) :
    madeFor user (l.table i e) = {} ∧ startsAttempt (l.table i e) = false := by
  cases l <;> exact ⟨rfl, rfl⟩

/-- Only a controller with the menu under it makes a screen. -/
theorem Turn.makes {es : List App.Event} (ht : Turn s u e es t) (ho : InOrder s.kinds) :
    (∀ a ∈ es, ∀ user, madeFor user a = {}) ∨ Kind.menu ∈ s.kinds := by
  have hlast : ∀ c under, s.presented = c :: under → c.kind.behindMenu = true → Kind.menu ∈ s.kinds := by
    intro c under hlast hb
    apply mem_menu ho _ hb
    rw [State.kinds, hlast, List.map_cons]
    exact List.mem_cons_self
  cases ht with
  | active _ | noUser | alertAction _ | signUp _ | cellForRowAt _ _ | leaveVerbs _ =>
    exact Or.inl fun a ha => by cases ha
  | loginButton _ | refused _ => exact Or.inl (by simp [madeFor])
  | leaveSignUp _ => exact Or.inl fun a ha user => (gone_quiet ha user).1
  | createNewAccount _ =>
    refine Or.inl (List.forall_mem_cons.mpr ⟨fun _ => rfl, fun a ha user => ?_⟩)
    exact (gone_quiet ha user).1
  | menu h | tapButton h _ => exact Or.inr (hlast _ _ h rfl)
  | learning _ | details _ => exact Or.inl (by simp [madeFor, joined])
  | searchBar _ _ => exact Or.inl (List.forall_mem_singleton.mpr fun user => (table_quiet _ _ _ user).1)
  | background hby => exact Or.inl (List.forall_mem_singleton.mpr fun user => (background_quiet hby user).1)

/-- With a menu over the root there is no form to start an attempt on. -/
theorem Turn.starts {es : List App.Event} (ht : Turn s u e es t) (ho : InOrder s.kinds)
    (hm : Kind.menu ∈ s.kinds) : ∀ a ∈ es, startsAttempt a = false := by
  have hlast : ∀ c under, s.presented = c :: under → c.kind.behindMenu = true := by
    intro c under hlast
    apply behind_menu ho hm
    rw [State.kinds, hlast, List.map_cons]
    exact List.mem_cons_self
  cases ht with
  | active _ | noUser | alertAction _ | signUp _ | cellForRowAt _ _ | leaveVerbs _ =>
    intro a ha
    cases ha
  | loginButton h =>
    rw [State.kinds, h] at hm
    cases hm
  | refused h | createNewAccount h => exact absurd (hlast _ _ h) (by simp [Controller.kind, Kind.behindMenu])
  | leaveSignUp _ => exact fun a ha => (gone_quiet ha none).2
  | @menu row vc under _ =>
    intro a ha
    rw [List.mem_singleton.mp ha]
    cases vc <;> rfl
  | learning _ | details _ | tapButton _ _ => exact List.forall_mem_singleton.mpr rfl
  | searchBar _ _ => exact List.forall_mem_singleton.mpr (table_quiet _ _ _ none).2
  | background hby => exact List.forall_mem_singleton.mpr (background_quiet hby none).2

/-- Nobody is signed out but from the background. -/
theorem Turn.signsOut_background {es : List App.Event} (ht : Turn s u e es t) :
    ∀ a ∈ es, signsOut a = true → e.signsOut = true := by
  have hgone : ∀ attempts, ∀ a ∈ gone attempts, signsOut a = false := by
    intro attempts a ha
    obtain ⟨i, _, rfl⟩ := List.mem_map.mp ha
    rfl
  cases ht with
  | background _ => exact List.forall_mem_singleton.mpr id
  | leaveSignUp _ => exact fun a ha h => absurd h (by simp [hgone _ a ha])
  | createNewAccount _ =>
    exact List.forall_mem_cons.mpr ⟨fun h => (by cases h), fun a ha h => absurd h (by simp [hgone _ a ha])⟩
  | @menu row vc under _ => exact List.forall_mem_singleton.mpr fun h => by cases vc <;> cases h
  | @searchBar _ l _ _ _ _ _ => exact List.forall_mem_singleton.mpr fun h => by cases l <;> cases h
  | loginButton _ | refused _ | learning _ | tapButton _ _ | details _ =>
    exact List.forall_mem_singleton.mpr fun h => by cases h
  | _ => exact fun a ha => by cases ha

/-- Events that make no screen, or that come with a user signed in, leave each screen with a user. -/
theorem exec_users {es : List App.Event} {app app' : App.State} (hs : exec App.step app es = some app')
    (hes : ∀ a ∈ es, signsOut a = true → out) (h : (screenUsers app).All fun user => user.isSome ∨ out)
    (hmakes : (∀ a ∈ es, ∀ user, madeFor user a = {}) ∨ app.currentUser.isSome ∨ out) :
    (screenUsers app').All fun user => user.isSome ∨ out := by
  rcases hmakes with hnone | huser
  · apply exec_invariant hs hnone h
    intro a e a' h hnone hs
    rw [step_screenUsers hs, hnone, ScreenUsers.append_empty]
    exact h
  · have hall := exec_invariant
      (I := fun a => (a.currentUser.isSome ∨ out) ∧ (screenUsers a).All fun user => user.isSome ∨ out)
      (G := fun e => signsOut e = true → out) hs hes ⟨huser, h⟩ fun a e a' h hout hs => by
        refine ⟨currentUser_stays hs hout h.1, ?_⟩
        rw [step_screenUsers hs, ScreenUsers.all_append]
        refine ⟨h.2, ?_⟩
        unfold madeFor ScreenUsers.All
        cases e <;> simp [h.1]
    exact hall.2

theorem exec_answeredIn {es : List App.Event} {app app' : App.State} (hs : exec App.step app es = some app')
    (hes : ∀ a ∈ es, signsOut a = true → out) (h : AnsweredIn out app) : AnsweredIn out app' :=
  exec_invariant hs hes h fun _ _ _ h hout hs => step_answeredIn h hout hs

theorem exec_currentUser {es : List App.Event} {app app' : App.State} (hs : exec App.step app es = some app')
    (hes : ∀ a ∈ es, signsOut a = true → out) (h : app.currentUser.isSome ∨ out) :
    app'.currentUser.isSome ∨ out :=
  exec_invariant (I := fun a : App.State => a.currentUser.isSome ∨ out) hs hes h
    fun _ _ _ h hout hs => currentUser_stays hs hout h

theorem step_standing (h : Standing out s) (hout : e.signsOut = true → out) (hs : step s e = some t) :
    Standing out t := by
  obtain ⟨es, u, hcalls, ht⟩ := step_cases hs
  have happ : exec App.step s.app es = some t.app := by
    rw [ht.app_eq]
    exact exec_call hcalls
  have hes : ∀ a ∈ es, signsOut a = true → out := fun a ha h => hout (ht.signsOut_background a ha h)
  have hshift := turn_shift h.answered hcalls ht
  refine ⟨hshift.inOrder h.order, exec_answeredIn happ hes h.answered, fun hm => ?_, ?_⟩
  · rcases hshift.menu_comes hm with hm | huser
    · exact exec_currentUser happ hes (h.menu hm)
    · exact huser
  · exact exec_users happ hes h.users ((ht.makes h.order).imp_right h.menu)

theorem run_standing {b : Backend} {user : Option String} {h : List (State × Event)}
    (hr : Run step (launch b user) h s) (hout : ∀ m ∈ h, m.2.signsOut = true → out) : Standing out s := by
  refine hr.guarded (I := fun _ => Standing out) (G := fun _ e => e.signsOut = true → out) hout ?_
    fun _ _ _ _ h hout hs => step_standing h hout hs
  refine ⟨trivial, fun a ha => (by cases ha), fun hm => (by cases hm), ?_⟩
  simp [launch, App.launch, screenUsers, ScreenUsers.All]

/-! ## After the menu -/

/-- No account is asked for or signed in any more. -/
def Settled (app : App.State) : Prop :=
  (∀ a ∈ app.signUps, ∀ q, a.auth ≠ .waiting q) ∧ ∀ a ∈ app.signIns, ∀ q, a.auth ≠ .waiting q

/-- The attempts are the same ones. When none of them waits the user stays or is signed out, and each
new screen has this user or none. -/
structure Continues (out : Prop) (app app' : App.State) : Prop where
  signUps : app'.signUps.length = app.signUps.length
  signIns : app'.signIns.length = app.signIns.length
  settled : Settled app →
    Settled app' ∧ (app'.currentUser = app.currentUser ∨ out ∧ app'.currentUser = none)
  screens : Settled app → ∃ made, screenUsers app' = (screenUsers app).append made ∧
    made.All fun user => user = app.currentUser ∨ out ∧ user = none

theorem Continues.refl (app : App.State) : Continues out app app := by
  refine ⟨rfl, rfl, fun h => ⟨h, Or.inl rfl⟩, fun _ => ⟨{}, (ScreenUsers.append_empty _).symm, ?_⟩⟩
  simp [ScreenUsers.All]

theorem Continues.trans {app app' app'' : App.State} (h : Continues out app app')
    (h' : Continues out app' app'') : Continues out app app'' := by
  refine ⟨h'.signUps.trans h.signUps, h'.signIns.trans h.signIns, fun hsettled => ?_, fun hsettled => ?_⟩
  · obtain ⟨hsettled', huser⟩ := h.settled hsettled
    obtain ⟨hsettled'', huser'⟩ := h'.settled hsettled'
    refine ⟨hsettled'', huser'.elim (fun heq => ?_) Or.inr⟩
    rw [heq]
    exact huser
  · obtain ⟨hsettled', huser⟩ := h.settled hsettled
    obtain ⟨made, heq, hall⟩ := h.screens hsettled
    obtain ⟨made', heq', hall'⟩ := h'.screens hsettled'
    refine ⟨made.append made', ?_, ScreenUsers.all_append.mpr ⟨hall, hall'.imp fun user hu => ?_⟩⟩
    · rw [heq', heq, ScreenUsers.append_assoc]
    · refine hu.elim (fun heq => ?_) Or.inr
      rw [heq]
      exact huser

/-- In every run the controllers over the root stand in one of eight orders, so there is never a
second menu or a second form, and never more than three of them. A menu is there for a user only, and
each training, Details and Favorites screen so far has a user to ask the server about, unless
FirebaseAuth signed somebody out before. -/
theorem the_screens_stand_in_order {b : Backend} {user : Option String} {h : List (State × Event)}
    (hr : Run step (launch b user) h s) :
    s.kinds ∈ orders ∧ (Kind.menu ∈ s.kinds → s.app.currentUser.isSome ∨ SignedOut h) ∧
      (screenUsers s.app).All fun user => user.isSome ∨ SignedOut h :=
  have hs : Standing (SignedOut h) s := run_standing hr fun m hm hsigns => ⟨m, hm, hsigns⟩
  ⟨inOrder_mem hs.order, hs.menu, hs.users⟩

/-- A log-in that the server answers, and then the menu and the training. -/
def logIn : List Event :=
  [.signIn (.loginButton ⟨some "a@b.co", some "password"⟩),
    .background (.signIn (.act 0 (.authAnswered ⟨some "user", none⟩))),
    .background (.signIn (.act 0 .authCallback)), .menu 2]

theorem a_log_in_opens_the_training :
    ∃ h s, Run step (launch { accounts := ["user"] } none) h s ∧ s.kinds = [.learning, .menu] ∧
      (s.app.currentUser.isSome ∨ SignedOut h) ∧ ¬ SignedOut h ∧
      screenUsers s.app = { trainings := [some "user"] } := by
  have hexec : ∃ s, exec step (launch { accounts := ["user"] } none) logIn = some s ∧
      s.kinds = [.learning, .menu] ∧ screenUsers s.app = { trainings := [some "user"] } :=
    ⟨_, rfl, by decide, by decide⟩
  obtain ⟨s, hs, hkinds, husers⟩ := hexec
  obtain ⟨h, hr, hevents⟩ := exists_run_of_exec hs
  obtain ⟨_, hmenu, _⟩ := the_screens_stand_in_order hr
  exact ⟨h, s, hr, hkinds, hmenu (hkinds ▸ (by decide)), not_signedOut hevents (by decide), husers⟩

/-- A user who is signed out over the menu gets a training that knows no user. -/
example :
    (exec step (launch { accounts := ["user"] } none)
      (logIn ++ [.learning .backButtonDidTap, .background (.signOutByForce "user"), .menu 2])).map
      (fun s => (s.kinds, s.app.currentUser, (screenUsers s.app).trainings)) =
      some ([.learning, .menu], none, [some "user", none]) := by decide

/-- An account that is still asked for can change the user over a training. -/
example :
    (exec step (launch { accounts := ["user"] } none)
      ([.signIn .signUpButtonDidTap,
        .signUp (.createNewAccountButtonDidTap ⟨some "b@b.co", some "password"⟩)] ++ logIn ++
          [.background (.signUp (.act 0 (.authAnswered ⟨some "late", none⟩)))])).map
      (fun s => (s.kinds, s.app.currentUser, (screenUsers s.app).trainings)) =
      some ([.learning, .menu], some "late", [some "user"]) := by decide

end EasyVerbs.Navigation
