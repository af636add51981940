-- One user of the app alone, with the machines of the training and the Details
-- screens of a user. The app of all users is this machine for each of them:
-- what belongs to a user comes of the events of this user only.
import EasyVerbs.AccountDocuments
import EasyVerbs.SharedBestScore

open Runs Parties

namespace EasyVerbs.App

open SignUp (Backend)

/-! ## The app of one user -/

/-- What belongs to a user: the documents and the screens. -/
structure Own where
  documents : List Document
  trainings : List Learning.Screen := []
  details : List Details.Screen := []
  favorites : List FavoriteVerbs.Screen := []
  deriving DecidableEq, Repr

inductive OwnEvent
  /-- The document of the user is added. -/
  | added (d : Document)
  | training (m : Move Unit Learning.Event)
  | details (m : Move (Option IrregularVerb) Details.Event)
  | favorites (m : Move Unit FavoriteVerbs.Event)

def ownFavorites (own : List Document) : FavoriteVerbs.Event → FavoriteVerbs.Event
  | .served i _ => .served i own
  | e => e

/-- A screen of the user acts on the documents of the user, and the server reads these. -/
def Own.trainingAct (documents : List Document) (p : Learning.Screen) (e : Learning.Event) :
    Option (List Document × Learning.Screen) :=
  Learning.act documents p (ownTraining documents e)

def Own.detailsAct (documents : List Document) (p : Details.Screen) (e : Details.Event) :
    Option (List Document × Details.Screen) :=
  Details.act documents p (ownDetails documents e)

def Own.favoritesAct (documents : List Document) (p : FavoriteVerbs.Screen) (e : FavoriteVerbs.Event) :
    Option (List Document × FavoriteVerbs.Screen) :=
  (p.step (ownFavorites documents e)).map (documents, ·)

def Own.step (user : String) (s : Own) : OwnEvent → Option Own
  | .added d => some { s with documents := s.documents ++ [d] }
  | .training m =>
    (Parties.step (Learning.openScreen user) Own.trainingAct ⟨s.documents, s.trainings⟩ m).map fun r =>
      { s with documents := r.store, trainings := r.parties }
  | .details m =>
    (Parties.step (Details.viewDidLoad (some user)) Own.detailsAct ⟨s.documents, s.details⟩ m).map fun r =>
      { s with documents := r.store, details := r.parties }
  | .favorites m =>
    (Parties.step (fun _ => FavoriteVerbs.viewDidLoad (some user)) Own.favoritesAct
      ⟨s.documents, s.favorites⟩ m).map fun r => { s with documents := r.store, favorites := r.parties }

/-! ## What the user sees of the app -/

/-- What belongs to the user. -/
def ownOf (user : String) (s : State) : Own where
  documents := documentsOf s.backend.users (some user)
  trainings := s.trainings.filter fun p => p.presenter.userID == some user
  details := s.details.filter fun p => p.presenter.userID == some user
  favorites := s.favorites.filter fun p => p.userID == some user

/-- The document of the user, if this is what a sign-up stores. -/
def addedOf (user : String) (stored : List Stored) : Option Document :=
  stored.findSome? fun x =>
    match x with
    | .addDocument d => if SignUp.carries user d then some d else none
    | .updateData _ => none

/-- The event as the user sees it, or none when it is no event of the user. What the server reads is
left out: it is always the documents of the user. -/
def ownEvent (user : String) (s : State) : Event → Option OwnEvent
  | .signUp m => (addedOf user (stores s (.signUp m))).map .added
  | .signOutByForce _ | .signIn _ | .allVerbs _ => none
  | .training m =>
    (seenBy (fun p => p.presenter.userID == some user) s.trainings
      (fun _ => Learning.viewDidLoad s.currentUser) (ownTraining []) m).map .training
  | .details m =>
    (seenBy (fun p => p.presenter.userID == some user) s.details
      (Details.viewDidLoad s.currentUser) (ownDetails []) m).map .details
  | .favorites m =>
    (seenBy (fun p => p.userID == some user) s.favorites
      (fun _ => FavoriteVerbs.viewDidLoad s.currentUser) (ownFavorites []) m).map .favorites

/-! ## The documents of the others -/

theorem documentsOf_changes (cs : List (String × Change)) (users : List Document) (user : Option String) :
    documentsOf ((changesStored cs).foldl Stored.applyTo users) user =
      (changesStored cs).foldl Stored.applyTo (documentsOf users user) := by
  induction cs generalizing users with
  | nil => rfl
  | cons c cs ih =>
    unfold changesStored at ih ⊢
    rw [List.map_cons, List.foldl_cons, List.foldl_cons, ih]
    congr 1
    exact documentsOf_applyTo c.1 c.2 users user

/-- Changes of other documents. -/
theorem changes_others (cs : List (String × Change)) (documents : List Document)
    (h : ∀ c ∈ cs, c.1 ∉ documents.map (·.documentID)) :
    (changesStored cs).foldl Stored.applyTo documents = documents := by
  induction cs with
  | nil => rfl
  | cons c cs ih =>
    have hsame : Stored.applyTo documents (.updateData (c.2.write c.1)) = documents := by
      have hid := h c (by simp)
      unfold Stored.applyTo Write.applyTo
      dsimp only
      conv_rhs => rw [← List.map_id documents]
      refine List.map_congr_left fun d hd => ?_
      rw [if_neg]
      · rfl
      · intro hd'
        rw [write_documentID] at hd'
        exact hid (hd' ▸ List.mem_map_of_mem hd)
    unfold changesStored at ih ⊢
    rw [List.map_cons, List.foldl_cons, hsame]
    exact ih fun c hc => h c (by simp [hc])

/-- Two users have no document in common. -/
theorem idsOf_apart {users : List Document} {user user' : Option String} {documentID : String}
    (hids : (users.map (·.documentID)).Nodup) (hne : user ≠ user') (h : documentID ∈ idsOf users user) :
    documentID ∉ idsOf users user' := by
  intro h'
  obtain ⟨d, hd, hid⟩ := mem_idsOf.mp h
  obtain ⟨d', hd', hid'⟩ := mem_idsOf.mp h'
  cases user with
  | none => cases hd
  | some uid =>
    cases user' with
    | none => cases hd'
    | some uid' =>
      obtain ⟨hmem, hcarries⟩ := List.mem_filter.mp hd
      obtain ⟨hmem', hcarries'⟩ := List.mem_filter.mp hd'
      have hsame : d = d' := List.inj_on_of_nodup_map hids hmem hmem' (hid.trans hid'.symm)
      subst hsame
      simp only [SignUp.carries, beq_iff_eq] at hcarries hcarries'
      rw [hcarries] at hcarries'
      cases hcarries'
      exact hne rfl

/-! ## One step -/

/-- Changes of documents of a user, as any user sees them. -/
theorem own_changes {users : List Document} {user : Option String} {stored : List Stored}
    (hcs : ∃ cs, stored = changesStored cs ∧ ∀ c ∈ cs, c.1 ∈ idsOf users user) :
    documentsOf (stored.foldl Stored.applyTo users) user = stored.foldl Stored.applyTo (documentsOf users user) := by
  obtain ⟨cs, rfl, _⟩ := hcs
  exact documentsOf_changes cs users user

theorem other_changes {users : List Document} {user user' : Option String} {stored : List Stored}
    (hids : (users.map (·.documentID)).Nodup) (hne : user ≠ user')
    (hcs : ∃ cs, stored = changesStored cs ∧ ∀ c ∈ cs, c.1 ∈ idsOf users user) :
    documentsOf (stored.foldl Stored.applyTo users) user' = documentsOf users user' := by
  obtain ⟨cs, rfl, hown⟩ := hcs
  rw [documentsOf_changes]
  exact changes_others cs _ fun c hc => idsOf_apart hids hne (hown c hc)

section screens

variable {P N A : Type} {userOf : P → Option String} {out : P → A → List Stored} {see : A → A}
  {act ownAct : List Document → P → A → Option (List Document × P)} {fresh fresh' : N → P}

/-- An act of a screen: its user stays, what it stores are changes of documents of this user, and
on these documents alone it is an act as well. -/
structure ActsForUser (userOf : P → Option String) (out : P → A → List Stored) (see : A → A)
    (act ownAct : List Document → P → A → Option (List Document × P)) (users : List Document) (p : P) :
    Prop where
  stays : ∀ e users' q, act users p e = some (users', q) → userOf q = userOf p
  stores : ∀ e users' q, act users p e = some (users', q) → users' = (out p e).foldl Stored.applyTo users
  changes : ∀ e, ∃ cs, out p e = changesStored cs ∧ ∀ c ∈ cs, c.1 ∈ idsOf users (userOf p)
  own : ∀ e users' q, act users p e = some (users', q) →
    ownAct (documentsOf users (userOf p)) p (see e) =
      some ((out p e).foldl Stored.applyTo (documentsOf users (userOf p)), q)

/-- The screens of a user see each step of all screens. -/
theorem screens_seen {user : String} {users : List Document} {ps : List P} {r : Shared (List Document) P}
    {m : Move N A} (hids : (users.map (·.documentID)).Nodup)
    (hfresh : ∀ n, userOf (fresh n) = some user → fresh' n = fresh n)
    (hacts : ∀ p ∈ ps, ActsForUser userOf out see act ownAct users p)
    (hr : Parties.step fresh act ⟨users, ps⟩ m = some r) :
    Seen (Parties.step fresh' ownAct)
      ⟨documentsOf users (some user), ps.filter fun p => userOf p == some user⟩
      ⟨documentsOf r.store (some user), r.parties.filter fun p => userOf p == some user⟩
      (seenBy (fun p => userOf p == some user) ps fresh see m) := by
  refine step_kind (f := fun users => documentsOf users (some user)) hr (fun n hn => hfresh n (by simpa using hn))
    (fun p hp e q ha => ?_) (fun p hp e q hk ha => ?_) fun p hp e q hk ha => ?_
  · rw [(hacts p hp).stays e _ q ha]
  · have hp' : userOf p = some user := by simpa using hk
    have hdocuments := own_changes ((hacts p hp).changes e)
    have hown := (hacts p hp).own e _ q ha
    rw [hp'] at hdocuments hown
    dsimp only at ha ⊢
    rw [(hacts p hp).stores e _ q ha, hdocuments]
    exact hown
  · have hp' : userOf p ≠ some user := by simpa using hk
    dsimp only at ha ⊢
    rw [(hacts p hp).stores e _ q ha]
    exact other_changes hids hp' ((hacts p hp).changes e)

end screens

theorem ownTraining_again (own own' : List Document) (e : Learning.Event) :
    ownTraining own (ownTraining own' e) = ownTraining own e := by
  cases e <;> rfl

theorem ownDetails_again (own own' : List Document) (e : Details.Event) :
    ownDetails own (ownDetails own' e) = ownDetails own e := by
  cases e <;> rfl

theorem training_acts {users : List Document} {p : Learning.Screen}
    (h : Keeps (idsOf users p.presenter.userID) p.requests p.writes) :
    ActsForUser (fun p : Learning.Screen => p.presenter.userID) trainingStores (ownTraining []) trainingAct
      Own.trainingAct users p where
  stays e users' q ha := Learning.step_userID (Learning.act_eq_some (trainingAct_own ha)).1
  stores e users' q ha := trainingAct_users ha
  changes e := training_changes h e
  own e users' q ha := by
    unfold Own.trainingAct
    rw [ownTraining_again]
    exact trainingAct_own ha

theorem details_acts {users : List Document} {p : Details.Screen}
    (h : Keeps (idsOf users p.presenter.userID) p.requests p.writes) :
    ActsForUser (fun p : Details.Screen => p.presenter.userID) detailsStores (ownDetails []) detailsAct
      Own.detailsAct users p where
  stays e users' q ha := details_userID (detailsAct_own ha)
  stores e users' q ha := detailsAct_users ha
  changes e := details_changes h e
  own e users' q ha := by
    unfold Own.detailsAct
    rw [ownDetails_again]
    exact detailsAct_own ha

theorem favorites_acts (users : List Document) (p : FavoriteVerbs.Screen) :
    ActsForUser (fun p : FavoriteVerbs.Screen => p.userID) (fun _ _ => []) (ownFavorites []) favoritesAct
      Own.favoritesAct users p where
  stays e users' q ha := by
    obtain ⟨e', hs⟩ := favoritesAct_step ha
    cases FavoriteVerbs.step_cases hs with
    | downloadDelivered _ =>
      unfold FavoriteVerbs.favoritesVerbsFromFirebase
      split <;> rfl
    | _ => rfl
  stores e users' q ha := favoritesAct_users ha
  changes e := ⟨[], rfl, by simp⟩
  own e users' q ha := by
    cases e <;> exact congrArg (Option.map (documentsOf users p.userID, ·)) (eq_some_of_pair ha)

theorem training_viewDidLoad (user : Option String) : (Learning.viewDidLoad user).presenter.userID = user := by
  cases user <;> rfl

theorem details_viewDidLoad (user : Option String) (verb : Option IrregularVerb) :
    (Details.viewDidLoad user verb).presenter.userID = user := by
  cases user <;> rfl

variable {user : String} {s t : State}

theorem added_own {m : Move SignUp.SignUpView SignUp.Event} (hs : step s (.signUp m) = some t) :
    documentsOf t.backend.users (some user) =
      documentsOf s.backend.users (some user) ++ (addedOf user (stores s (.signUp m))).toList := by
  rw [step_users hs]
  refine outputOf_of (Q := fun l => documentsOf (l.foldl Stored.applyTo s.backend.users) (some user) =
    documentsOf s.backend.users (some user) ++ (addedOf user l).toList) m (List.append_nil _).symm
    fun a _ e => ?_
  unfold signUpStores
  split
  · split
    · rename_i documentID _ data _
      unfold documentsOf addedOf
      simp only [List.foldl_cons, List.foldl_nil, Stored.applyTo, List.filter_append, List.findSome?_cons,
        List.findSome?_nil]
      cases hc : SignUp.carries user ⟨documentID, data⟩ <;> simp [hc]
    · exact (List.append_nil _).symm
  · exact (List.append_nil _).symm

/-- The user alone sees each step of the app. -/
theorem step_own {e : Event} (h : Owned s) (hids : (s.backend.users.map (·.documentID)).Nodup)
    (hs : step s e = some t) : Seen (Own.step user) (ownOf user s) (ownOf user t) (ownEvent user s e) := by
  cases e with
  | signOutByForce userID =>
    cases hs
    rfl
  | signUp m =>
    have hadded : documentsOf t.backend.users (some user) = _ := added_own hs
    obtain ⟨r, hr, rfl⟩ := Option.map_eq_some_iff.mp hs
    unfold ownEvent ownOf
    rw [hadded]
    dsimp only
    cases addedOf user (stores s (.signUp m)) with
    | none => simp [Seen]
    | some d => rfl
  | signIn m =>
    obtain ⟨r, hr, rfl⟩ := Option.map_eq_some_iff.mp hs
    have hsame : r.store = s.backend := step_keeps (f := id) hr fun _ _ _ _ _ ha => signIn_backend ha
    unfold ownEvent Seen ownOf
    rw [hsame]
  | training m =>
    obtain ⟨r, hr, rfl⟩ := Option.map_eq_some_iff.mp hs
    have hfresh : ∀ n, (Learning.viewDidLoad s.currentUser).presenter.userID = some user →
        Learning.openScreen user n = Learning.viewDidLoad s.currentUser := by
      intro n hn
      rw [training_viewDidLoad] at hn
      rw [hn]
      rfl
    have hseen := screens_seen hids hfresh (fun p hp => training_acts (h.trainings p hp)) hr
    refine hseen.map (fun m' hm => ?_) fun hsame => ?_
    · unfold Own.step ownOf
      dsimp only
      rw [hm]
      rfl
    · obtain ⟨hstore, hparties⟩ := Shared.mk.inj hsame
      unfold ownOf
      rw [hstore, hparties]
  | details m =>
    obtain ⟨r, hr, rfl⟩ := Option.map_eq_some_iff.mp hs
    have hfresh : ∀ verb, (Details.viewDidLoad s.currentUser verb).presenter.userID = some user →
        Details.viewDidLoad (some user) verb = Details.viewDidLoad s.currentUser verb := by
      intro verb hv
      rw [details_viewDidLoad] at hv
      rw [hv]
    have hseen := screens_seen hids hfresh (fun p hp => details_acts (h.details p hp)) hr
    refine hseen.map (fun m' hm => ?_) fun hsame => ?_
    · unfold Own.step ownOf
      dsimp only
      rw [hm]
      rfl
    · obtain ⟨hstore, hparties⟩ := Shared.mk.inj hsame
      unfold ownOf
      rw [hstore, hparties]
  | favorites m =>
    obtain ⟨r, hr, rfl⟩ := Option.map_eq_some_iff.mp hs
    have hfresh : ∀ n : Unit, (FavoriteVerbs.viewDidLoad s.currentUser).userID = some user →
        (fun _ : Unit => FavoriteVerbs.viewDidLoad (some user)) n = FavoriteVerbs.viewDidLoad s.currentUser := by
      intro n hn
      have huser : s.currentUser = some user := hn
      rw [huser]
    have hseen := screens_seen hids hfresh (fun p _ => favorites_acts s.backend.users p) hr
    refine hseen.map (fun m' hm => ?_) fun hsame => ?_
    · unfold Own.step ownOf
      dsimp only
      rw [hm]
      rfl
    · obtain ⟨hstore, hparties⟩ := Shared.mk.inj hsame
      unfold ownOf
      rw [hstore, hparties]
  | allVerbs m =>
    obtain ⟨r, hr, rfl⟩ := Option.map_eq_some_iff.mp hs
    rfl

/-! ## Runs -/

/-- The events of a run that are the user's. -/
def ownEvents (user : String) (h : List (State × Event)) : List OwnEvent :=
  h.filterMap fun m => ownEvent user m.1 m.2

/-- Each run of the app is, for each user, a run of this user alone. -/
theorem run_own {b : Backend} {current : Option String} {h : List (State × Event)} {s : State}
    (user : String) (hids : (b.users.map (·.documentID)).Nodup) (hr : Run step (launch b current) h s) :
    Run (Own.step user) { documents := documentsOf b.users (some user) } (project (ownOf user) (ownEvent user) h)
      (ownOf user s) := by
  have hlaunch : Owned (launch b current) := by constructor <;> simp [launch]
  have hrun : (Owned s ∧ (s.backend.users.map (·.documentID)).Nodup) ∧
      Run (Own.step user) (ownOf user (launch b current)) (project (ownOf user) (ownEvent user) h) (ownOf user s) :=
    hr.project_of (I := fun s => Owned s ∧ (s.backend.users.map (·.documentID)).Nodup) ⟨hlaunch, hids⟩
      fun s e t hs ht => ⟨⟨step_owned hs.1 ht, step_ids hs.1 ht hs.2⟩, step_own hs.1 hs.2 ht⟩
  exact hrun.2

/-- What belongs to a user after a run is decided by what belonged to the user before it and by the
events of this user. Nothing that another user does, and nothing that a screen of another user
reads, shows or writes, makes a difference. -/
theorem a_user_cannot_notice_another {user : String} {b b' : Backend} {current current' : Option String}
    {h h' : List (State × Event)} {s s' : State}
    (hids : (b.users.map (·.documentID)).Nodup) (hids' : (b'.users.map (·.documentID)).Nodup)
    (hdocuments : documentsOf b.users (some user) = documentsOf b'.users (some user))
    (hr : Run step (launch b current) h s) (hr' : Run step (launch b' current') h' s')
    (hevents : ownEvents user h = ownEvents user h') : ownOf user s = ownOf user s' := by
  have hend := (run_own user hids hr).exec
  have hend' := (run_own user hids' hr').exec
  have hlabels : ∀ h : List (State × Event),
      (project (ownOf user) (ownEvent user) h).map Prod.snd = ownEvents user h := by
    intro h
    unfold project ownEvents
    rw [List.map_filterMap]
    congr 1
    funext m
    cases ownEvent user m.1 m.2 <;> rfl
  rw [hlabels, hdocuments, hevents] at hend
  rw [hlabels, hend] at hend'
  exact Option.some.inj hend'

/-- Another user of the same backend. -/
def otherUser : UserRecord :=
  { documentID := "other document", email := "other@mail.com", password := "12345678", uid := "other" }

def twoUsers : Backend :=
  { accounts := ["uid", "other"], users := [oneUser.document, otherUser.document] }

/-- A tap on FAVORITES of Details screen `i`, up to the write on the server. -/
def makesFavorite (i : Nat) : List Event :=
  [.details (.act i .addToFavoritesButton), .details (.act i (.served 1 [])), .details (.act i (.callback 1)),
    .details (.act i (.applied 0))]

/-- The user alone. -/
def aloneInTheApp : List Event := .details (.join (some (Details.verbNamed "be"))) :: makesFavorite 0

/-- The other user comes in between, with another Details screen and a game. -/
def inCompany : List Event :=
  [.details (.join (some (Details.verbNamed "be"))), .details (.act 0 .addToFavoritesButton),
    .signIn (.join ⟨some "other@mail.com", some "12345678"⟩),
    .signIn (.act 0 (.authAnswered ⟨some "other", none⟩)), .training (.join ()),
    .details (.join (some (Details.verbNamed "go")))] ++ makesFavorite 1 ++
    [.training (.act 0 (.served 0 [])), .details (.act 0 (.served 1 [])), .details (.act 0 (.callback 1)),
      .training (.act 0 (.callback 0)), .details (.act 0 (.applied 0))]

theorem company_makes_no_difference :
    ∃ s s', exec step (launch twoUsers (some "uid")) aloneInTheApp = some s ∧
      exec step (launch twoUsers (some "uid")) inCompany = some s' ∧
      ownOf "uid" s = ownOf "uid" s' ∧ s.backend.users ≠ s'.backend.users := by
  obtain ⟨s, hs⟩ := Option.isSome_iff_exists.mp
    (show (exec step (launch twoUsers (some "uid")) aloneInTheApp).isSome from by decide)
  obtain ⟨s', hs'⟩ := Option.isSome_iff_exists.mp
    (show (exec step (launch twoUsers (some "uid")) inCompany).isSome from by decide)
  have hdifferent : (exec step (launch twoUsers (some "uid")) aloneInTheApp).map (·.backend.users) ≠
      (exec step (launch twoUsers (some "uid")) inCompany).map (·.backend.users) := by decide
  refine ⟨s, s', hs, hs', ?_, ?_⟩
  · exact a_user_cannot_notice_another (by decide) (by decide) rfl (run_of_exec hs) (run_of_exec hs') rfl
  · intro husers
    rw [hs, hs', Option.map_some, Option.map_some, husers] at hdifferent
    exact hdifferent rfl

end EasyVerbs.App
