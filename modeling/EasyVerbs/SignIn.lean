-- The sign-in: `SignInView` and its `SignInPresenter`. It is the first screen of
-- the window, so it is never gone, and the password goes to one call only.
import EasyVerbs.SignUp

namespace EasyVerbs.SignIn

open SignUp (Call AuthAnswer Backend isValidEmail isValidPassword)

/-- The texts of the two fields. -/
structure SignInView where
  emailTextField : Option String := some ""
  passwordTextField : Option String := some ""
  deriving DecidableEq, Repr

/-- A tap on the button, with its call, the alerts that it shows and the menus that it opens. -/
structure Attempt where
  view : SignInView
  auth : Call (String × String) AuthAnswer := .notMade
  alerts : List (String × String) := []
  menus : Nat := 0
  deriving DecidableEq, Repr

def showAlert (title message : String) (a : Attempt) : Attempt :=
  { a with alerts := a.alerts ++ [(title, message)] }

def showAlertFromPresenter (a : Attempt) : Attempt := showAlert "Error" "This user does not exist." a

def openNewVC (a : Attempt) : Attempt := { a with menus := a.menus + 1 }

def authState (email password : String) (a : Attempt) : Attempt :=
  { a with auth := .waiting (email, password) }

def loginButton (view : SignInView) : Attempt :=
  let a : Attempt := { view := view }
  match view.emailTextField with
  | none => showAlert "Error" "Email is epmpty" a
  | some emailText =>
    match view.passwordTextField with
    | none => showAlert "Error" "Password is epmpty" a
    | some passwordText =>
      if !isValidEmail emailText then
        showAlert "Error" "This is not a valid email. Please try again." a
      else if !isValidPassword passwordText then
        showAlert "Error" "Password must be more than 7 characters" a
      else authState emailText passwordText a

/-- The callback of `Auth.auth().signIn`. It looks at the error only. -/
def authStateCallback (answer : AuthAnswer) (a : Attempt) : Attempt :=
  if answer.error.isSome then showAlertFromPresenter a else openNewVC a

inductive Event
  | authAnswered (answer : AuthAnswer)
  | authCallback
  deriving DecidableEq, Repr

/-- An attempt with the backends. A sign-in gives the uid of an account, or an error. -/
def act (b : Backend) (a : Attempt) : Event → Option (Backend × Attempt)
  | .authAnswered answer =>
    match a.auth, answer with
    | .waiting q, ⟨some uid, none⟩ =>
      if uid ∈ b.accounts then some (b, { a with auth := .answered q answer }) else none
    | .waiting q, ⟨none, some _⟩ => some (b, { a with auth := .answered q answer })
    | _, _ => none
  | .authCallback =>
    match a.auth with
    | .answered q answer => some (b, authStateCallback answer { a with auth := .over q answer })
    | _ => none

end EasyVerbs.SignIn
