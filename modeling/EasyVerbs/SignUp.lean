-- The sign-up: `SignUpView` and its `SignUpPresenter`, with the two backends that
-- an attempt goes through. First the account is made, and its callback asks
-- for the document of the user.
import EasyVerbs.Backend
import EasyVerbs.Parties
import EasyVerbs.Patterns

open Patterns

namespace EasyVerbs.SignUp

/-! ## The fields -/

structure SignUpView where
  emailTextField : Option String := some ""
  passwordTextField : Option String := some ""
  deriving DecidableEq, Repr

def isLetter (c : Char) : Bool := ('A' ≤ c && c ≤ 'Z') || ('a' ≤ c && c ≤ 'z')

def isDigit (c : Char) : Bool := '0' ≤ c && c ≤ '9'

/-- `[A-Z0-9a-z._%+-]+@[A-Za-z0-9.-]+\.[A-Za-z]{2,64}`. -/
def emailRegEx : List (Piece Char) :=
  [{ accepts := fun c => isLetter c || isDigit c || ['.', '_', '%', '+', '-'].contains c },
    { accepts := (· == '@'), most := some 1 },
    { accepts := fun c => isLetter c || isDigit c || ['.', '-'].contains c },
    { accepts := (· == '.'), most := some 1 },
    { accepts := isLetter, least := 2, most := some 64 }]

def isValidEmail (s : String) : Bool := fits emailRegEx s.toList

/-- `count` counts Swift characters. -/
def isValidPassword (s : String) : Bool := if s.length ≥ 8 then true else false

/-! ## An attempt -/

/-- A call to a backend: what was asked, and what its callback gets. -/
inductive Call (Q R : Type)
  | notMade
  | waiting (q : Q)
  | answered (q : Q) (r : R)
  | over (q : Q) (r : R)
  deriving DecidableEq, Repr

/-- What the callback of `Auth.auth().createUser` gets: the uid of the new account, and the
`localizedDescription` of an error. -/
structure AuthAnswer where
  authResult : Option String
  error : Option String
  deriving DecidableEq, Repr

/-- A tap on the button, with its two calls and the alerts that it shows. The `view` of the
presenter is weak: it is none when the screen is gone. -/
structure Attempt where
  view : Option SignUpView
  auth : Call (String × String) AuthAnswer := .notMade
  addDocument : Call (List (String × FieldValue)) (Option String) := .notMade
  alerts : List (String × String) := []
  deriving DecidableEq, Repr

def showAlert (title message : String) (a : Attempt) : Attempt :=
  { a with alerts := a.alerts ++ [(title, message)] }

def createUser (email password : String) (a : Attempt) : Attempt :=
  { a with auth := .waiting (email, password) }

def createNewAccountButtonDidTap (view : SignUpView) : Attempt :=
  let a : Attempt := { view := some view }
  match view.emailTextField with
  | none => showAlert "Error" "Email is epmpty" a
  | some emailText =>
    match view.passwordTextField with
    | none => showAlert "Error" "Password is epmpty" a
    | some passwordText =>
      if !isValidEmail emailText then
        showAlert "Error" "This is not a valid email. Please try again." a
      else if !isValidPassword passwordText then
        showAlert "Error" "Password must be more than 7 characters" a
      else createUser emailText passwordText a

/-- `String(describing:)` of an optional text. -/
def describing : Option String → String
  | none => "nil"
  | some s => "Optional(\"" ++ s ++ "\")"

def userData (email password uid : String) : List (String × FieldValue) :=
  [("email", .string email), ("password", .string password), ("uid", .string uid), ("bestScore", .int 0)]

/-- The callback of `Auth.auth().createUser`. It looks at the result before the error. -/
def createUserCallback (email password : String) (answer : AuthAnswer) (a : Attempt) : Attempt :=
  match answer.authResult with
  | none => a
  | some uid =>
    if answer.error.isSome then
      match a.view with
      | none => a
      | some _ => showAlert "Error" (describing answer.error) a
    else
      { a with addDocument := .waiting (userData email password uid) }

/-! ## The backends -/

/-- The uids of the accounts, and the collection `users`. -/
structure Backend where
  accounts : List String := []
  users : List Document := []
  deriving DecidableEq, Repr

/-- The document carries the uid. -/
def carries (uid : String) (d : Document) : Bool := d.get "uid" == some (.string uid)

def Backend.documentsOf (b : Backend) (uid : String) : List Document := b.users.filter (carries uid)

inductive Event
  | dismissed
  | authAnswered (answer : AuthAnswer)
  | authCallback
  /-- The error of `addDocument`, or none when the document is there. -/
  | documentAnswered (documentID : String) (error : Option String)
  | documentCallback
  deriving DecidableEq, Repr

/-- An attempt with the backends. An account has a new uid, and a document has a new name. On
failure there is an error, and no result and no account. -/
def act (b : Backend) (a : Attempt) : Event → Option (Backend × Attempt)
  | .dismissed => some (b, { a with view := none })
  | .authAnswered answer =>
    match a.auth, answer with
    | .waiting q, ⟨some uid, none⟩ =>
      if uid ∈ b.accounts then none
      else some ({ b with accounts := b.accounts ++ [uid] }, { a with auth := .answered q answer })
    | .waiting q, ⟨none, some _⟩ => some (b, { a with auth := .answered q answer })
    | _, _ => none
  | .authCallback =>
    match a.auth with
    | .answered q answer =>
      some (b, createUserCallback q.1 q.2 answer { a with auth := .over q answer })
    | _ => none
  | .documentAnswered documentID error =>
    match a.addDocument, error with
    | .waiting data, none =>
      if documentID ∈ b.users.map (·.documentID) then none
      else some ({ b with users := b.users ++ [⟨documentID, data⟩] },
        { a with addDocument := .answered data none })
    | .waiting data, some e => some (b, { a with addDocument := .answered data (some e) })
    | _, _ => none
  | .documentCallback =>
    match a.addDocument with
    | .answered data error => some (b, { a with addDocument := .over data error })
    | _ => none

/-! ## What an act can do -/

inductive Act (b : Backend) (a : Attempt) : Backend → Attempt → Prop
  | dismissed : Act b a b { a with view := none }
  | created {q : String × String} {uid : String} (hauth : a.auth = .waiting q) (hnew : uid ∉ b.accounts) :
      Act b a { b with accounts := b.accounts ++ [uid] } { a with auth := .answered q ⟨some uid, none⟩ }
  | notCreated {q : String × String} {error : String} (hauth : a.auth = .waiting q) :
      Act b a b { a with auth := .answered q ⟨none, some error⟩ }
  | authCallback {q : String × String} {answer : AuthAnswer} (hauth : a.auth = .answered q answer) :
      Act b a b (createUserCallback q.1 q.2 answer { a with auth := .over q answer })
  | added {data : List (String × FieldValue)} {documentID : String} (hdoc : a.addDocument = .waiting data) :
      Act b a { b with users := b.users ++ [⟨documentID, data⟩] } { a with addDocument := .answered data none }
  | notAdded {data : List (String × FieldValue)} {error : String} (hdoc : a.addDocument = .waiting data) :
      Act b a b { a with addDocument := .answered data (some error) }
  | documentCallback {data : List (String × FieldValue)} {error : Option String}
      (hdoc : a.addDocument = .answered data error) : Act b a b { a with addDocument := .over data error }

theorem act_cases {b b' : Backend} {a a' : Attempt} {e : Event} (ha : act b a e = some (b', a')) :
    Act b a b' a' := by
  unfold act at ha
  cases e with
  | dismissed =>
    cases ha
    exact .dismissed
  | authAnswered answer =>
    dsimp only at ha
    split at ha
    · rename_i hauth
      split at ha
      · cases ha
      · rename_i hnew
        cases ha
        exact .created hauth hnew
    · rename_i hauth
      cases ha
      exact .notCreated hauth
    · cases ha
  | authCallback =>
    dsimp only at ha
    split at ha
    · rename_i hauth
      cases ha
      exact .authCallback hauth
    · cases ha
  | documentAnswered documentID error =>
    dsimp only at ha
    split at ha
    · rename_i hdoc
      split at ha
      · cases ha
      · cases ha
        exact .added hdoc
    · rename_i hdoc
      cases ha
      exact .notAdded hdoc
    · cases ha
  | documentCallback =>
    dsimp only at ha
    split at ha
    · rename_i hdoc
      cases ha
      exact .documentCallback hdoc
    · cases ha

end EasyVerbs.SignUp
