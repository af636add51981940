-- The law of the passwords: what two runs of the app store and print when they
-- differ in the typed passwords only. Nothing of them is seen until a document of a
-- sign-up is added, and that document has the password in it.
import EasyVerbs.App

open Runs Parties

namespace EasyVerbs

/-! ## A state without its passwords -/

def SignUp.Call.map {Q R : Type} (f : Q → Q) : SignUp.Call Q R → SignUp.Call Q R
  | .notMade => .notMade
  | .waiting q => .waiting (f q)
  | .answered q r => .answered (f q) r
  | .over q r => .over (f q) r

/-- The attempt with an empty password everywhere. -/
def SignUp.Attempt.forget (a : SignUp.Attempt) : SignUp.Attempt :=
  { a with
    view := a.view.map fun v => { v with passwordTextField := some "" }
    auth := a.auth.map fun q => (q.1, "")
    addDocument := a.addDocument.map (setField "password" (.string "")) }

def SignIn.Attempt.forget (a : SignIn.Attempt) : SignIn.Attempt :=
  { a with
    view := { a.view with passwordTextField := some "" }
    auth := a.auth.map fun q => (q.1, "") }

namespace App

open SignUp (Backend SignUpView isValidPassword createNewAccountButtonDidTap createUserCallback userData)
open SignIn (SignInView loginButton)

def State.forget (s : State) : State :=
  { s with
    signUps := s.signUps.map SignUp.Attempt.forget
    signIns := s.signIns.map SignIn.Attempt.forget }

/-! ## Runs that differ in passwords -/

/-- The same event, or the same tap with another valid password. -/
inductive SameEvent : Event → Event → Prop
  | same (e : Event) : SameEvent e e
  | signUp (email : Option String) {password password' : String} (h : isValidPassword password = true)
      (h' : isValidPassword password' = true) :
      SameEvent (.signUp (.join ⟨email, some password⟩)) (.signUp (.join ⟨email, some password'⟩))
  | signIn (email : Option String) {password password' : String} (h : isValidPassword password = true)
      (h' : isValidPassword password' = true) :
      SameEvent (.signIn (.join ⟨email, some password⟩)) (.signIn (.join ⟨email, some password'⟩))

/-- All that the events store, the first one first. -/
def allStored (s₀ : State) (es : List Event) : List Stored :=
  (momentsOf step s₀ es).flatMap fun m => stores m.1 m.2

/-- All that the events print. -/
def allPrinted (s₀ : State) (es : List Event) : List Line :=
  (momentsOf step s₀ es).flatMap fun m => prints m.1 m.2

/-- The screens of the taps on the button of the sign-up. -/
def signUpTaps : Event → List SignUpView
  | .signUp m => joined m
  | _ => []

/-- The password that was typed for a sign-up. -/
def typedFor (taps : List SignUpView) (i : Nat) : Option String := taps[i]?.bind (·.passwordTextField)

def passwordOf (es : List Event) (i : Nat) : Option String := typedFor (es.flatMap signUpTaps) i

/-- The sign-up whose document the event adds. -/
def addedFor : Event → Option Nat
  | .signUp (.act i (.documentAnswered _ none)) => some i
  | _ => none

/-! ## What an act sees of a password -/

theorem createUserCallback_forget (q : String × String) (answer : SignUp.AuthAnswer) (a : SignUp.Attempt) :
    createUserCallback q.1 "" answer a.forget = (createUserCallback q.1 q.2 answer a).forget := by
  obtain ⟨authResult, error⟩ := answer
  obtain ⟨view, auth, addDocument, alerts⟩ := a
  unfold createUserCallback
  cases authResult with
  | none => rfl
  | some uid =>
    cases error with
    | none => simp [SignUp.Attempt.forget, SignUp.Call.map, userData, setField]
    | some error => cases view <;> rfl

/-- An act on an attempt goes on without the password, until the document is added. -/
theorem signUp_act_forget {e : SignUp.Event} (he : ∀ documentID, e ≠ .documentAnswered documentID none)
    (b : Backend) (a : SignUp.Attempt) :
    SignUp.act b a.forget e = (SignUp.act b a e).map fun r => (r.1, r.2.forget) := by
  cases e with
  | dismissed => rfl
  | authAnswered answer =>
    obtain ⟨authResult, error⟩ := answer
    obtain ⟨view, auth, addDocument, alerts⟩ := a
    cases auth with
    | waiting q =>
      cases authResult with
      | none => cases error <;> rfl
      | some uid =>
        cases error with
        | none =>
          simp only [SignUp.act, SignUp.Attempt.forget, SignUp.Call.map]
          split <;> rfl
        | some error => rfl
    | _ => rfl
  | authCallback =>
    cases hauth : a.auth with
    | answered q answer =>
      have hforget := createUserCallback_forget q answer { a with auth := .over q answer }
      simpa [SignUp.act, SignUp.Attempt.forget, SignUp.Call.map, hauth] using hforget
    | _ => simp [SignUp.act, SignUp.Attempt.forget, SignUp.Call.map, hauth]
  | documentAnswered documentID error =>
    cases error with
    | none => exact absurd rfl (he documentID)
    | some error =>
      cases hdoc : a.addDocument <;> simp [SignUp.act, SignUp.Attempt.forget, SignUp.Call.map, hdoc]
  | documentCallback =>
    cases hdoc : a.addDocument <;> simp [SignUp.act, SignUp.Attempt.forget, SignUp.Call.map, hdoc]

theorem signIn_act_forget (e : SignIn.Event) (b : Backend) (a : SignIn.Attempt) :
    SignIn.act b a.forget e = (SignIn.act b a e).map fun r => (r.1, r.2.forget) := by
  obtain ⟨view, auth, alerts, menus⟩ := a
  cases e with
  | authAnswered answer =>
    obtain ⟨authResult, error⟩ := answer
    cases auth with
    | waiting q =>
      cases authResult with
      | none => cases error <;> rfl
      | some uid =>
        cases error with
        | none =>
          simp only [SignIn.act, SignIn.Attempt.forget, SignUp.Call.map]
          split <;> rfl
        | some error => rfl
    | _ => rfl
  | authCallback =>
    cases auth with
    | answered q answer =>
      simp only [SignIn.act, SignIn.Attempt.forget, SignUp.Call.map, SignIn.authStateCallback,
        Option.map_some]
      split <;> rfl
    | _ => rfl

theorem signUp_tap_forget (email : Option String) {password password' : String}
    (h : isValidPassword password = true) (h' : isValidPassword password' = true) :
    (createNewAccountButtonDidTap ⟨email, some password⟩).forget =
      (createNewAccountButtonDidTap ⟨email, some password'⟩).forget := by
  unfold createNewAccountButtonDidTap
  cases email with
  | none => rfl
  | some email =>
    cases hemail : SignUp.isValidEmail email <;>
      simp [hemail, h, h', SignUp.Attempt.forget, SignUp.showAlert, SignUp.createUser, SignUp.Call.map]

theorem signIn_tap_forget (email : Option String) {password password' : String}
    (h : isValidPassword password = true) (h' : isValidPassword password' = true) :
    (loginButton ⟨email, some password⟩).forget = (loginButton ⟨email, some password'⟩).forget := by
  unfold loginButton
  cases email with
  | none => rfl
  | some email =>
    cases hemail : SignUp.isValidEmail email <;>
      simp [hemail, h, h', SignIn.Attempt.forget, SignIn.showAlert, SignIn.authState, SignUp.Call.map]

/-! ## What a step sees of a password -/

/-- A step that is no tap of the two and adds no document goes on without the passwords. -/
theorem step_forget {e : Event} (hup : ∀ view, e ≠ .signUp (.join view))
    (hin : ∀ view, e ≠ .signIn (.join view)) (hadd : addedFor e = none) (s : State) :
    step s.forget e = (step s e).map State.forget := by
  cases e with
  | signOutByForce userID => rfl
  | signUp m =>
    cases m with
    | join view => exact absurd rfl (hup view)
    | act i e =>
      have he : ∀ documentID, e ≠ .documentAnswered documentID none := by
        rintro documentID rfl
        cases hadd
      have hmap := @step_act_map _ _ _ _ createNewAccountButtonDidTap _ ⟨s.backend, s.signUps⟩ _ i _
        (signUp_act_forget he)
      simp only [step, State.forget, hmap, Option.map_map]
      rfl
  | signIn m =>
    cases m with
    | join view => exact absurd rfl (hin view)
    | act i e =>
      have hmap := @step_act_map _ _ _ _ loginButton _ ⟨s.backend, s.signIns⟩ _ i _ (signIn_act_forget e)
      simp only [step, State.forget, hmap, Option.map_map]
      rfl
  | _ =>
    simp only [step, State.forget, Option.map_map]
    rfl

theorem signUpStores_forget {e : SignUp.Event} (he : ∀ documentID, e ≠ .documentAnswered documentID none)
    (a : SignUp.Attempt) : signUpStores a.forget e = signUpStores a e := by
  cases e with
  | documentAnswered documentID error =>
    cases error with
    | none => exact absurd rfl (he documentID)
    | some error => rfl
  | _ => rfl

theorem signUpLines_forget (e : SignUp.Event) (a : SignUp.Attempt) :
    signUpLines a.forget e = signUpLines a e := by
  obtain ⟨view, auth, addDocument, alerts⟩ := a
  cases e with
  | documentCallback =>
    cases addDocument with
    | answered data error => cases error <;> rfl
    | _ => rfl
  | _ => rfl

theorem stores_forget {e : Event} (hadd : addedFor e = none) (s : State) :
    stores s.forget e = stores s e := by
  cases e with
  | signUp m =>
    cases m with
    | join view => rfl
    | act i e =>
      have he : ∀ documentID, e ≠ .documentAnswered documentID none := by
        rintro documentID rfl
        cases hadd
      simp only [stores, State.forget, outputOf_map (signUpStores_forget he)]
  | _ => rfl

theorem prints_forget (e : Event) (s : State) : prints s.forget e = prints s e := by
  cases e with
  | signUp m =>
    cases m with
    | join view => rfl
    | act i e => simp only [prints, State.forget, outputOf_map (signUpLines_forget e)]
  | _ => rfl

/-- The two states differ in passwords only. -/
def Alike (s s' : State) : Prop := s.forget = s'.forget

theorem alike_stores {s s' : State} {e : Event} (h : Alike s s') (hadd : addedFor e = none) :
    stores s e = stores s' e := by
  rw [← stores_forget hadd s, h, stores_forget hadd]

theorem alike_prints {s s' : State} (h : Alike s s') (e : Event) : prints s e = prints s' e := by
  rw [← prints_forget e s, h, prints_forget]

theorem signUp_tap {s t : State} {view : SignUpView} (hs : step s (.signUp (.join view)) = some t) :
    t.forget = { s.forget with
      signUps := s.forget.signUps ++ [(createNewAccountButtonDidTap view).forget] } := by
  cases hs
  simp [State.forget, signUpUser]

theorem signIn_tap {s t : State} {view : SignInView} (hs : step s (.signIn (.join view)) = some t) :
    t.forget = { s.forget with signIns := s.forget.signIns ++ [(loginButton view).forget] } := by
  cases hs
  simp [State.forget, signInUser]

/-- A step of both runs that adds no document. -/
theorem alike_step {s s' t t' : State} {e e' : Event} (h : Alike s s') (he : SameEvent e e')
    (hadd : addedFor e = none) (hs : step s e = some t) (hs' : step s' e' = some t') : Alike t t' := by
  unfold Alike at h ⊢
  cases he with
  | signUp email hp hp' => rw [signUp_tap hs, signUp_tap hs', h, signUp_tap_forget email hp hp']
  | signIn email hp hp' => rw [signIn_tap hs, signIn_tap hs', h, signIn_tap_forget email hp hp']
  | same =>
    by_cases hup : ∃ view, e = .signUp (.join view)
    · obtain ⟨view, rfl⟩ := hup
      rw [signUp_tap hs, signUp_tap hs', h]
    · by_cases hin : ∃ view, e = .signIn (.join view)
      · obtain ⟨view, rfl⟩ := hin
        rw [signIn_tap hs, signIn_tap hs', h]
      · have hforget := step_forget (not_exists.mp hup) (not_exists.mp hin) hadd
        have ht : step s.forget e = some t.forget := by rw [hforget, hs, Option.map_some]
        have ht' : step s'.forget e = some t'.forget := by rw [hforget, hs', Option.map_some]
        rw [h, ht'] at ht
        exact (Option.some.inj ht).symm

/-! ## The typed passwords -/

/-- The attempt asks with the password of its tap, first for the account and then for the document. -/
structure Typed (view : SignUpView) (a : SignUp.Attempt) : Prop where
  auth : ∀ q, (a.auth = .waiting q ∨ ∃ answer, a.auth = .answered q answer) →
    view.passwordTextField = some q.2
  addDocument : ∀ data, a.addDocument = .waiting data →
    ∃ email password uid, view.passwordTextField = some password ∧ data = userData email password uid

theorem tap_typed (view : SignUpView) : Typed view (createNewAccountButtonDidTap view) := by
  obtain ⟨email, password⟩ := view
  unfold createNewAccountButtonDidTap
  cases email with
  | none => constructor <;> simp [SignUp.showAlert]
  | some email =>
    cases password with
    | none => constructor <;> simp [SignUp.showAlert]
    | some password =>
      dsimp only
      split
      · constructor <;> simp [SignUp.showAlert]
      · split
        · constructor <;> simp [SignUp.showAlert]
        · constructor <;> simp [SignUp.createUser]

/-- The callback of the account hands the typed password to the document. -/
theorem createUserCallback_typed {view : SignUpView} {a : SignUp.Attempt} {q : String × String}
    {answer : SignUp.AuthAnswer} (h : Typed view a) (hq : view.passwordTextField = some q.2) :
    Typed view (createUserCallback q.1 q.2 answer { a with auth := .over q answer }) := by
  unfold createUserCallback
  split
  · exact ⟨by simp, h.addDocument⟩
  · rename_i uid _
    split
    · dsimp only
      split
      · exact ⟨by simp, h.addDocument⟩
      · exact ⟨by simp [SignUp.showAlert], h.addDocument⟩
    · refine ⟨by simp, fun data hdata => ?_⟩
      cases hdata
      exact ⟨q.1, q.2, uid, hq, rfl⟩

theorem act_typed {b b' : Backend} {a a' : SignUp.Attempt} {view : SignUpView} {e : SignUp.Event}
    (h : Typed view a) (ha : SignUp.act b a e = some (b', a')) : Typed view a' := by
  cases SignUp.act_cases ha with
  | dismissed => exact ⟨h.auth, h.addDocument⟩
  | created hauth _ =>
    refine ⟨fun q hq => ?_, h.addDocument⟩
    simp only [reduceCtorEq, SignUp.Call.answered.injEq, false_or] at hq
    obtain ⟨_, rfl, _⟩ := hq
    exact h.auth _ (Or.inl hauth)
  | notCreated hauth =>
    refine ⟨fun q hq => ?_, h.addDocument⟩
    simp only [reduceCtorEq, SignUp.Call.answered.injEq, false_or] at hq
    obtain ⟨_, rfl, _⟩ := hq
    exact h.auth _ (Or.inl hauth)
  | authCallback hauth => exact createUserCallback_typed h (h.auth _ (Or.inr ⟨_, hauth⟩))
  | added hdoc => exact ⟨h.auth, by simp⟩
  | notAdded hdoc => exact ⟨h.auth, by simp⟩
  | documentCallback hdoc => exact ⟨h.auth, by simp⟩

/-- Each attempt has the password of its tap. -/
def AllTyped (taps : List SignUpView) (s : State) : Prop := List.Forall₂ Typed taps s.signUps

theorem AllTyped.step {taps : List SignUpView} {s t : State} {e : Event} (h : AllTyped taps s)
    (hs : step s e = some t) : AllTyped (taps ++ signUpTaps e) t := by
  unfold AllTyped at h ⊢
  cases e with
  | signOutByForce userID =>
    cases hs
    simpa [signUpTaps] using h
  | signUp m =>
    obtain ⟨r, hr, rfl⟩ := Option.map_eq_some_iff.mp hs
    exact step_joined hr h tap_typed fun _ _ _ _ _ _ hn ha => act_typed hn ha
  | _ =>
    obtain ⟨r, hr, rfl⟩ := Option.map_eq_some_iff.mp hs
    simpa [signUpTaps] using h

/-! ## The document that is added -/

theorem userData_eq_iff {email email' password password' uid uid' : String}
    (h : setField "password" (.string "") (userData email password uid) =
      setField "password" (.string "") (userData email' password' uid')) :
    userData email password uid = userData email' password' uid' ↔ password = password' := by
  simp [userData, setField] at h ⊢
  tauto

/-- What the event that adds a document stores, and what is left without the passwords. -/
theorem step_added {s t : State} {i : Nat} {documentID : String}
    (hs : step s (.signUp (.act i (.documentAnswered documentID none))) = some t) :
    ∃ a data, s.signUps[i]? = some a ∧ a.addDocument = .waiting data ∧
      stores s (.signUp (.act i (.documentAnswered documentID none))) = [.addDocument ⟨documentID, data⟩] ∧
      t.forget = { s.forget with
        backend := { s.backend with users := s.backend.users ++ [⟨documentID, data⟩] }
        signUps := s.forget.signUps.set i
          { a.forget with addDocument := .answered (setField "password" (.string "") data) none } } := by
  obtain ⟨r, hr, rfl⟩ := Option.map_eq_some_iff.mp hs
  obtain ⟨a, b, a', ha, hact, rfl⟩ := step_act_eq_some hr
  cases hdoc : a.addDocument with
  | waiting data =>
    simp only [SignUp.act, hdoc, Option.ite_none_left_eq_some, Option.some.injEq, Prod.mk.injEq] at hact
    obtain ⟨_, rfl, rfl⟩ := hact
    refine ⟨a, data, ha, hdoc, ?_, ?_⟩
    · simp only [stores, outputOf, ha, Option.map_some, Option.getD_some, signUpStores, hdoc]
    · simp [State.forget, signUpUser, List.map_set, SignUp.Attempt.forget, SignUp.Call.map]
  | _ => simp [SignUp.act, hdoc] at hact

/-- The two documents that an event adds are one exactly when the two passwords were. -/
theorem alike_added {taps taps' : List SignUpView} {s s' t t' : State} {e : Event} {i : Nat}
    (h : Alike s s') (htyped : AllTyped taps s) (htyped' : AllTyped taps' s') (he : addedFor e = some i)
    (hs : step s e = some t) (hs' : step s' e = some t') :
    ∃ view view' x x', taps[i]? = some view ∧ taps'[i]? = some view' ∧ stores s e = [x] ∧
      stores s' e = [x'] ∧ (x = x' ↔ view.passwordTextField = view'.passwordTextField) ∧
      (x = x' → Alike t t') := by
  obtain ⟨documentID, rfl⟩ : ∃ documentID, e = .signUp (.act i (.documentAnswered documentID none)) := by
    unfold addedFor at he
    split at he
    · cases he
      exact ⟨_, rfl⟩
    · cases he
  obtain ⟨a, data, ha, hdoc, hstores, ht⟩ := step_added hs
  obtain ⟨a', data', ha', hdoc', hstores', ht'⟩ := step_added hs'
  obtain ⟨view, hview, hv⟩ := forall₂_getElem? htyped ha
  obtain ⟨view', hview', hv'⟩ := forall₂_getElem? htyped' ha'
  have hforget : a.forget = a'.forget := by
    have hlist := congrArg (fun s : State => s.signUps[i]?) h
    simpa [State.forget, ha, ha'] using hlist
  have hdata : setField "password" (.string "") data = setField "password" (.string "") data' := by
    have hcall := congrArg SignUp.Attempt.addDocument hforget
    simpa [SignUp.Attempt.forget, hdoc, hdoc', SignUp.Call.map] using hcall
  obtain ⟨email, password, uid, hp, rfl⟩ := hv.addDocument data hdoc
  obtain ⟨email', password', uid', hp', rfl⟩ := hv'.addDocument data' hdoc'
  refine ⟨view, view', _, _, hview, hview', hstores, hstores', ?_, fun hx => ?_⟩
  · rw [hp, hp', Option.some.injEq, ← userData_eq_iff hdata]
    simp
  · simp only [Stored.addDocument.injEq, Document.mk.injEq, true_and] at hx
    unfold Alike at h ⊢
    have hbackend : s.forget.backend = s'.forget.backend := congrArg State.backend h
    have hsame : s.backend = s'.backend := hbackend
    rw [ht, ht', h, hforget, hx, hsame]

/-! ## The law -/

theorem allStored_cons {s t : State} {e : Event} (es : List Event) (hs : step s e = some t) :
    allStored s (e :: es) = stores s e ++ allStored t es := by
  simp [allStored, momentsOf, hs]

theorem allPrinted_cons {s t : State} {e : Event} (es : List Event) (hs : step s e = some t) :
    allPrinted s (e :: es) = prints s e ++ allPrinted t es := by
  simp [allPrinted, momentsOf, hs]

/-- An event that adds no document stores and prints the same in both runs. -/
theorem SameEvent.outputs {s s' : State} {e e' : Event} (he : SameEvent e e') (h : Alike s s')
    (hadd : addedFor e = none) : stores s e = stores s' e' ∧ prints s e = prints s' e' := by
  cases he with
  | same => exact ⟨alike_stores h hadd, alike_prints h e⟩
  | signUp email hp hp' => exact ⟨rfl, rfl⟩
  | signIn email hp hp' => exact ⟨rfl, rfl⟩

theorem SameEvent.eq_of_added {e e' : Event} {i : Nat} (he : SameEvent e e') (hadd : addedFor e = some i) :
    e' = e ∧ signUpTaps e = [] := by
  cases he with
  | same =>
    unfold addedFor at hadd
    split at hadd
    · exact ⟨rfl, rfl⟩
    · cases hadd
  | signUp email hp hp' => cases hadd
  | signIn email hp hp' => cases hadd

theorem typedFor_append {taps : List SignUpView} {i : Nat} {view : SignUpView} (rest : List SignUpView)
    (h : taps[i]? = some view) : typedFor (taps ++ rest) i = view.passwordTextField := by
  unfold typedFor
  rw [List.getElem?_append_left (lt_of_party h), h, Option.bind_some]

/-- From states that differ in passwords only. The induction is on the events: up to the first
document with another password the states stay alike, and there the runs part. -/
theorem alike_runs {taps taps' : List SignUpView} {s s' t t' : State} {es es' : List Event}
    (hsame : List.Forall₂ SameEvent es es') (h : Alike s s') (htyped : AllTyped taps s)
    (htyped' : AllTyped taps' s') (ht : exec step s es = some t) (ht' : exec step s' es' = some t') :
    (allStored s es = allStored s' es' ∧ allPrinted s es = allPrinted s' es' ∧
        t.backend.users = t'.backend.users) ↔
      ∀ i ∈ es.filterMap addedFor, typedFor (taps ++ es.flatMap signUpTaps) i =
        typedFor (taps' ++ es'.flatMap signUpTaps) i := by
  induction hsame generalizing s s' taps taps' with
  | nil =>
    cases ht
    cases ht'
    have hbackend : t.forget.backend = t'.forget.backend := congrArg State.backend h
    refine ⟨fun _ => by simp, fun _ => ⟨rfl, rfl, ?_⟩⟩
    exact congrArg Backend.users hbackend
  | @cons e e' es es' he _ ih =>
    obtain ⟨u, hu, hrest⟩ := Option.bind_eq_some_iff.mp ht
    obtain ⟨u', hu', hrest'⟩ := Option.bind_eq_some_iff.mp ht'
    rw [allStored_cons es hu, allStored_cons es' hu', allPrinted_cons es hu, allPrinted_cons es' hu',
      List.flatMap_cons, List.flatMap_cons, ← List.append_assoc, ← List.append_assoc]
    cases hadd : addedFor e with
    | none =>
      obtain ⟨hstores, hprints⟩ := he.outputs h hadd
      rw [List.filterMap_cons_none hadd, hstores, hprints, List.append_cancel_left_eq,
        List.append_cancel_left_eq]
      exact ih (alike_step h he hadd hu hu') (htyped.step hu) (htyped'.step hu') hrest hrest'
    | some i =>
      obtain ⟨rfl, htaps⟩ := he.eq_of_added hadd
      obtain ⟨view, view', x, x', hview, hview', hx, hx', hiff, halike⟩ :=
        alike_added h htyped htyped' hadd hu hu'
      have hi := typedFor_append (signUpTaps e' ++ es.flatMap signUpTaps) hview
      have hi' := typedFor_append (signUpTaps e' ++ es'.flatMap signUpTaps) hview'
      rw [← List.append_assoc] at hi hi'
      rw [List.filterMap_cons_some hadd, List.forall_mem_cons, hi, hi', ← hiff, hx, hx',
        alike_prints h, List.singleton_append, List.singleton_append, List.cons.injEq,
        List.append_cancel_left_eq, and_assoc]
      refine and_congr_right fun hsame => ?_
      exact ih (halike hsame) (htyped.step hu) (htyped'.step hu') hrest hrest'

/-- Two runs that differ in valid passwords only store the same, print the same and leave the same
documents exactly when each sign-up whose document was added had the same password in both. -/
theorem runs_show_the_same_iff_stored_passwords_agree {b : Backend} {user : Option String}
    {es es' : List Event} {t t' : State} (hsame : List.Forall₂ SameEvent es es')
    (ht : exec step (launch b user) es = some t) (ht' : exec step (launch b user) es' = some t') :
    (allStored (launch b user) es = allStored (launch b user) es' ∧
        allPrinted (launch b user) es = allPrinted (launch b user) es' ∧
        t.backend.users = t'.backend.users) ↔
      ∀ i ∈ es.filterMap addedFor, passwordOf es i = passwordOf es' i := by
  have htyped : AllTyped [] (launch b user) := .nil
  exact alike_runs hsame rfl htyped htyped ht ht'

/-- A sign-up, with what comes of its document. -/
def signsUp (password : String) (error : Option String) : List Event :=
  [.signUp (.join ⟨some "user@mail.com", some password⟩),
    .signUp (.act 0 (.authAnswered ⟨some "uid", none⟩)), .signUp (.act 0 .authCallback),
    .signUp (.act 0 (.documentAnswered "document" error)), .signUp (.act 0 .documentCallback)]

/-- A sign-in with the account of that sign-up. -/
def signsIn (password : String) : List Event :=
  [.signIn (.join ⟨some "user@mail.com", some password⟩),
    .signIn (.act 0 (.authAnswered ⟨some "uid", none⟩)), .signIn (.act 0 .authCallback)]

theorem sameEvents (es : List Event) : List.Forall₂ SameEvent es es := by
  rw [List.forall₂_same]
  exact fun e _ => .same e

theorem signsUp_same {password password' : String} (error : Option String)
    (h : isValidPassword password = true) (h' : isValidPassword password' = true) :
    List.Forall₂ SameEvent (signsUp password error) (signsUp password' error) :=
  .cons (.signUp _ h h') (sameEvents _)

theorem signsIn_same {password password' : String} (h : isValidPassword password = true)
    (h' : isValidPassword password' = true) :
    List.Forall₂ SameEvent (signsIn password) (signsIn password') :=
  .cons (.signIn _ h h') (sameEvents _)

/-- Neither the password of a refused document shows, nor the one of a sign-in. -/
theorem a_password_that_is_not_stored_does_not_show :
    let es := fun password => signsUp password (some "offline") ++ signsIn password
    allStored (launch {} none) (es "password") = allStored (launch {} none) (es "12345678") ∧
      allPrinted (launch {} none) (es "password") = allPrinted (launch {} none) (es "12345678") := by
  intro es
  have hsame : List.Forall₂ SameEvent (es "password") (es "12345678") :=
    List.rel_append (signsUp_same _ (by decide) (by decide)) (signsIn_same (by decide) (by decide))
  obtain ⟨t, ht⟩ := Option.isSome_iff_exists.mp
    (show (exec step (launch {} none) (es "password")).isSome from by decide)
  obtain ⟨t', ht'⟩ := Option.isSome_iff_exists.mp
    (show (exec step (launch {} none) (es "12345678")).isSome from by decide)
  have hlaw := (runs_show_the_same_iff_stored_passwords_agree hsame ht ht').mpr
    (by simp [es, signsUp, signsIn, addedFor])
  exact ⟨hlaw.1, hlaw.2.1⟩

/-- A sign-up, a sign-in and a training screen that gets the best score. -/
def trains (password : String) : List Event :=
  signsUp password none ++ signsIn password ++
    [.training (.join ()), .training (.act 0 (.served 0 [])), .training (.act 0 (.callback 0)),
      .training (.act 0 (.bestScoreBlock 0))]

theorem the_password_is_stored_and_printed :
    List.Forall₂ SameEvent (trains "password") (trains "12345678") ∧
      (exec step (launch {} none) (trains "password")).isSome = true ∧
      (exec step (launch {} none) (trains "12345678")).isSome = true ∧
      allStored (launch {} none) (trains "password") =
        [.addDocument ⟨"document", userData "user@mail.com" "password" "uid"⟩] ∧
      allPrinted (launch {} none) (trains "password") =
        [.document ⟨"document", userData "user@mail.com" "password" "uid"⟩] ∧
      allStored (launch {} none) (trains "password") ≠ allStored (launch {} none) (trains "12345678") ∧
      allPrinted (launch {} none) (trains "password") ≠ allPrinted (launch {} none) (trains "12345678") := by
  refine ⟨?_, by decide, by decide, by decide, by decide, by decide, by decide⟩
  exact List.rel_append (List.rel_append (signsUp_same _ (by decide) (by decide))
    (signsIn_same (by decide) (by decide))) (sameEvents _)

end App

end EasyVerbs
