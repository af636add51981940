-- The law of the sign-up: an attempt is whole, or it fails with an alert, only
-- when both of its calls succeed.
import EasyVerbs.SignUp

open Runs Parties

namespace EasyVerbs.SignUp

abbrev SignUps := Shared Backend Attempt

/-- Any number of attempts at once. A new one comes with a tap on the button of a screen. -/
def SignUps.step (s : SignUps) (m : Move SignUpView Event) : Option SignUps :=
  Parties.step createNewAccountButtonDidTap act s m

/-! ## What an attempt leaves behind -/

/-- The uid of the account that was made for the attempt. -/
def Attempt.account (a : Attempt) : Option String :=
  match a.auth with
  | .answered _ answer | .over _ answer => answer.authResult
  | _ => none

/-- The document of the attempt was added. -/
def Attempt.stored (a : Attempt) : Bool :=
  match a.addDocument with
  | .answered _ none | .over _ none => true
  | _ => false

/-- The attempt passed the checks of the fields, and no callback of it is to come. -/
def Attempt.completed (a : Attempt) : Bool :=
  match a.auth, a.addDocument with
  | .over _ _, .notMade | .over _ _, .over _ _ => true
  | _, _ => false

/-- The account is there with exactly one document of its uid, or there is neither an account
nor a document and an alert was shown. -/
def AllOrNothing (b : Backend) (a : Attempt) : Prop :=
  (∃ uid, a.account = some uid ∧ uid ∈ b.accounts ∧ (b.documentsOf uid).length = 1) ∨
    a.account = none ∧ a.stored = false ∧ a.alerts ≠ []

/-- Both calls of the attempt succeeded. -/
def Attempt.succeeded (a : Attempt) : Bool :=
  match a.auth, a.addDocument with
  | .over _ ⟨some _, none⟩, .over _ none => true
  | _, _ => false

/-! ## How far an attempt has come -/

/-- The attempt has an account with this many documents of its uid. -/
structure HasAccount (b : Backend) (a : Attempt) (uid : String) (documents : Nat) : Prop where
  account : a.account = some uid
  exists_account : uid ∈ b.accounts
  documents : (b.documentsOf uid).length = documents

inductive Progress (b : Backend) (a : Attempt) : Prop
  | refused (hauth : a.auth = .notMade) (hdoc : a.addDocument = .notMade)
  | asked (q : String × String) (hauth : a.auth = .waiting q) (hdoc : a.addDocument = .notMade)
      (hsilent : a.alerts = [])
  | failed (q : String × String) (error : String)
      (hauth : a.auth = .answered q ⟨none, some error⟩ ∨ a.auth = .over q ⟨none, some error⟩)
      (hdoc : a.addDocument = .notMade) (hsilent : a.alerts = [])
  | created (q : String × String) (uid : String) (hauth : a.auth = .answered q ⟨some uid, none⟩)
      (hdoc : a.addDocument = .notMade) (haccount : HasAccount b a uid 0)
  | storing (q : String × String) (uid : String) (hauth : a.auth = .over q ⟨some uid, none⟩)
      (hdoc : a.addDocument = .waiting (userData q.1 q.2 uid)) (haccount : HasAccount b a uid 0)
  | added (q : String × String) (uid : String) (data : List (String × FieldValue)) (error : Option String)
      (hauth : a.auth = .over q ⟨some uid, none⟩)
      (hdoc : a.addDocument = .answered data error ∨ a.addDocument = .over data error)
      (haccount : HasAccount b a uid (if error.isNone then 1 else 0))

theorem tap_progress (b : Backend) (view : SignUpView) : Progress b (createNewAccountButtonDidTap view) := by
  unfold createNewAccountButtonDidTap
  dsimp only
  split
  · exact .refused rfl rfl
  · split
    · exact .refused rfl rfl
    · split
      · exact .refused rfl rfl
      · split
        · exact .refused rfl rfl
        · exact .asked _ rfl rfl rfl

theorem tap_account (view : SignUpView) : (createNewAccountButtonDidTap view).account = none := by
  cases tap_progress {} view with
  | refused hauth _ => simp [Attempt.account, hauth]
  | asked _ hauth _ _ => simp [Attempt.account, hauth]
  | failed _ _ hauth _ _ => rcases hauth with h | h <;> simp [Attempt.account, h]
  | created _ _ _ _ haccount => cases haccount.exists_account
  | storing _ _ _ _ haccount => cases haccount.exists_account
  | added _ _ _ _ _ _ haccount => cases haccount.exists_account

/-- The documents carry the uids of accounts only. -/
def Sound (b : Backend) : Prop := ∀ d ∈ b.users, ∀ uid, carries uid d = true → uid ∈ b.accounts

theorem documentsOf_nil {b : Backend} {uid : String} (hb : Sound b) (hnew : uid ∉ b.accounts) :
    b.documentsOf uid = [] := by
  apply List.filter_eq_nil_iff.mpr
  intro d hd hcarries
  exact hnew (hb d hd uid hcarries)

theorem carries_userData (email password uid uid' documentID : String) :
    carries uid ⟨documentID, userData email password uid'⟩ = true ↔ uid' = uid := by
  simp [carries, userData, Document.get, lookup_cons_eq]

/-- A change of the backends that keeps the account of the attempt and its documents. -/
theorem Progress.frame {b b' : Backend} {a : Attempt} (h : Progress b a)
    (haccounts : ∀ uid ∈ b.accounts, uid ∈ b'.accounts)
    (hdocuments : ∀ uid, a.account = some uid → b'.documentsOf uid = b.documentsOf uid) : Progress b' a := by
  have hkeep : ∀ uid n, HasAccount b a uid n → HasAccount b' a uid n := by
    intro uid n h
    refine ⟨h.account, haccounts uid h.exists_account, ?_⟩
    rw [hdocuments uid h.account]
    exact h.documents
  cases h with
  | refused h1 h2 => exact .refused h1 h2
  | asked q h1 h2 h3 => exact .asked q h1 h2 h3
  | failed q error h1 h2 h3 => exact .failed q error h1 h2 h3
  | created q uid h1 h2 h3 => exact .created q uid h1 h2 (hkeep _ _ h3)
  | storing q uid h1 h2 h3 => exact .storing q uid h1 h2 (hkeep _ _ h3)
  | added q uid data error h1 h2 h3 => exact .added q uid data error h1 h2 (hkeep _ _ h3)

/-! ## What is known where an attempt is -/

variable {b b' : Backend} {a a' : Attempt}

theorem Progress.of_waiting {q : String × String} (h : Progress b a) (hauth : a.auth = .waiting q) :
    a.addDocument = .notMade ∧ a.alerts = [] := by
  cases h with
  | asked _ _ hdoc hsilent => exact ⟨hdoc, hsilent⟩
  | _ => simp_all

theorem Progress.of_answered {q : String × String} {answer : AuthAnswer} (h : Progress b a)
    (hauth : a.auth = .answered q answer) :
    a.addDocument = .notMade ∧
      ((∃ error, answer = ⟨none, some error⟩ ∧ a.alerts = []) ∨
        ∃ uid, answer = ⟨some uid, none⟩ ∧ HasAccount b a uid 0) := by
  cases h with
  | failed _ error h1 hdoc hsilent =>
    refine ⟨hdoc, Or.inl ⟨error, ?_, hsilent⟩⟩
    rw [hauth] at h1
    simp only [Call.answered.injEq, reduceCtorEq, or_false] at h1
    exact h1.2
  | created _ uid h1 hdoc haccount =>
    refine ⟨hdoc, Or.inr ⟨uid, ?_, haccount⟩⟩
    rw [hauth] at h1
    cases h1
    rfl
  | _ => simp_all

theorem Progress.of_adding {data : List (String × FieldValue)} (h : Progress b a)
    (hdoc : a.addDocument = .waiting data) :
    ∃ q uid, a.auth = .over q ⟨some uid, none⟩ ∧ data = userData q.1 q.2 uid ∧ HasAccount b a uid 0 := by
  cases h with
  | storing q uid hauth h2 haccount =>
    rw [hdoc] at h2
    cases h2
    exact ⟨q, uid, hauth, rfl, haccount⟩
  | _ => simp_all

theorem Progress.of_added {data : List (String × FieldValue)} {error : Option String} (h : Progress b a)
    (hdoc : a.addDocument = .answered data error) :
    ∃ q uid, a.auth = .over q ⟨some uid, none⟩ ∧ HasAccount b a uid (if error.isNone then 1 else 0) := by
  cases h with
  | added q uid _ _ hauth h2 haccount =>
    rw [hdoc] at h2
    obtain ⟨rfl, rfl⟩ : data = _ ∧ error = _ := by simpa using h2
    exact ⟨q, uid, hauth, haccount⟩
  | _ => simp_all

/-- The account of an attempt is there. -/
theorem Progress.account_exists {uid : String} (h : Progress b a) (haccount : a.account = some uid) :
    uid ∈ b.accounts := by
  have hsame : ∀ uid' n, HasAccount b a uid' n → uid ∈ b.accounts := by
    intro uid' n h
    rw [h.account] at haccount
    cases haccount
    exact h.exists_account
  unfold Attempt.account at haccount
  cases h with
  | refused hauth _ => simp [hauth] at haccount
  | asked _ hauth _ _ => simp [hauth] at haccount
  | failed _ _ hauth _ _ => rcases hauth with h | h <;> simp [h] at haccount
  | created _ _ _ _ h => exact hsame _ _ h
  | storing _ _ _ _ h => exact hsame _ _ h
  | added _ _ _ _ _ _ h => exact hsame _ _ h

/-! ## One act -/

theorem act_progress {e : Event} (hb : Sound b) (h : Progress b a)
    (ha : act b a e = some (b', a')) : Sound b' ∧ Progress b' a' := by
  cases act_cases ha with
  | dismissed =>
    refine ⟨hb, ?_⟩
    cases h with
    | refused h1 h2 => exact .refused h1 h2
    | asked q h1 h2 h3 => exact .asked q h1 h2 h3
    | failed q error h1 h2 h3 => exact .failed q error h1 h2 h3
    | created q uid h1 h2 h3 => exact .created q uid h1 h2 ⟨h3.1, h3.2, h3.3⟩
    | storing q uid h1 h2 h3 => exact .storing q uid h1 h2 ⟨h3.1, h3.2, h3.3⟩
    | added q uid data error h1 h2 h3 => exact .added q uid data error h1 h2 ⟨h3.1, h3.2, h3.3⟩
  | @created q uid hauth hnew =>
    refine ⟨fun d hd uid' hc => List.mem_append.mpr (Or.inl (hb d hd uid' hc)), ?_⟩
    obtain ⟨hdoc, _⟩ := h.of_waiting hauth
    refine .created q uid rfl hdoc ⟨rfl, by simp, ?_⟩
    exact congrArg List.length (documentsOf_nil hb hnew)
  | @notCreated q error hauth =>
    obtain ⟨hdoc, hsilent⟩ := h.of_waiting hauth
    exact ⟨hb, .failed q error (Or.inl rfl) hdoc hsilent⟩
  | @authCallback q answer hauth =>
    refine ⟨hb, ?_⟩
    obtain ⟨hdoc, ⟨error, rfl, hsilent⟩ | ⟨uid, rfl, haccount⟩⟩ := h.of_answered hauth
    · exact .failed q error (Or.inr rfl) hdoc hsilent
    · exact .storing q uid rfl rfl ⟨rfl, haccount.exists_account, haccount.documents⟩
  | @added data documentID hdoc =>
    obtain ⟨q, uid, hauth, rfl, haccount⟩ := h.of_adding hdoc
    refine ⟨fun d hd uid' hc => ?_, .added q uid _ none hauth (Or.inl rfl)
      ⟨haccount.account, haccount.exists_account, ?_⟩⟩
    · rcases List.mem_append.mp hd with hd | hd
      · exact hb d hd uid' hc
      · rw [List.mem_singleton.mp hd, carries_userData] at hc
        exact hc ▸ haccount.exists_account
    · have hzero := haccount.documents
      unfold Backend.documentsOf at hzero ⊢
      simp [List.filter_append, hzero, carries_userData]
  | @notAdded data error hdoc =>
    obtain ⟨q, uid, hauth, _, haccount⟩ := h.of_adding hdoc
    refine ⟨hb, .added q uid data (some error) hauth (Or.inl rfl) ?_⟩
    exact ⟨haccount.account, haccount.exists_account, haccount.documents⟩
  | @documentCallback data error hdoc =>
    obtain ⟨q, uid, hauth, haccount⟩ := h.of_added hdoc
    refine ⟨hb, .added q uid data error hauth (Or.inr rfl) ?_⟩
    exact ⟨haccount.account, haccount.exists_account, haccount.documents⟩

/-- An act for one attempt leaves the account and the documents of another one alone. -/
theorem act_others {q : Attempt} {e : Event} (h : Progress b a) (hq : Progress b q)
    (hapart : ∀ uid, a.account = some uid → q.account ≠ some uid) (ha : act b a e = some (b', a')) :
    Progress b' q ∧ ∀ uid, a'.account = some uid → q.account ≠ some uid := by
  have hsame : ∀ x : Attempt, x.account = a.account → ∀ uid, x.account = some uid → q.account ≠ some uid :=
    fun x he uid huid => hapart uid (he ▸ huid)
  cases act_cases ha with
  | dismissed => exact ⟨hq, hsame _ rfl⟩
  | @created p uid hauth hnew =>
    refine ⟨hq.frame (fun uid huid => List.mem_append.mpr (Or.inl huid)) fun _ _ => rfl, ?_⟩
    intro uid' huid' hquid
    cases huid'
    exact hnew (hq.account_exists hquid)
  | notCreated hauth =>
    refine ⟨hq, fun uid huid => ?_⟩
    cases huid
  | @authCallback p answer hauth =>
    refine ⟨hq, hsame _ ?_⟩
    have haccount : a.account = answer.authResult := by simp [Attempt.account, hauth]
    rw [haccount]
    obtain ⟨_, ⟨error, rfl, _⟩ | ⟨uid, rfl, _⟩⟩ := h.of_answered hauth <;> rfl
  | @added data documentID hdoc =>
    obtain ⟨p, uid, hauth, rfl, haccount⟩ := h.of_adding hdoc
    refine ⟨hq.frame (fun _ huid => huid) fun uid' huid' => ?_, hsame _ rfl⟩
    have hne : uid ≠ uid' := by
      rintro rfl
      exact hapart uid haccount.account huid'
    unfold Backend.documentsOf
    simp [List.filter_append, carries_userData, hne]
  | notAdded hdoc => exact ⟨hq, hsame _ rfl⟩
  | documentCallback hdoc => exact ⟨hq, hsame _ rfl⟩

/-! ## The law -/

theorem run_progress {h : List (SignUps × Move SignUpView Event)} {s : SignUps} (hb : Sound b)
    (hr : Run SignUps.step ⟨b, []⟩ h s) : ∀ a ∈ s.parties, Progress s.store a := by
  have hall := compatible_parties (J := Sound) (R := Progress)
    (X := fun a q => ∀ uid, a.account = some uid → q.account ≠ some uid) hr
    ⟨hb, by simp, List.Pairwise.nil⟩
    (fun a q hapart uid hq ha => hapart uid ha hq)
    (fun b view _ => tap_progress b view)
    (fun _ _ view _ uid _ => by simp [tap_account view])
    (fun _ _ _ _ _ hb h ha => act_progress hb h ha)
    (fun _ _ _ _ _ _ _ h hq hapart ha => act_others h hq hapart ha)
  exact hall.2.1

/-- In every run of any number of attempts, an attempt that passed the checks of the fields and
got all its callbacks is all or nothing exactly when both of its calls succeeded. -/
theorem an_attempt_is_whole_iff_both_calls_succeed {h : List (SignUps × Move SignUpView Event)}
    {s : SignUps} (hb : Sound b) (hr : Run SignUps.step ⟨b, []⟩ h s) :
    ∀ a ∈ s.parties, a.completed = true → (AllOrNothing s.store a ↔ a.succeeded = true) := by
  intro a ha hcompleted
  cases run_progress hb hr a ha with
  | refused hauth _ => simp [Attempt.completed, hauth] at hcompleted
  | asked _ hauth _ _ => simp [Attempt.completed, hauth] at hcompleted
  | created _ _ hauth _ _ => simp [Attempt.completed, hauth] at hcompleted
  | storing _ _ hauth hdoc _ => simp [Attempt.completed, hauth, hdoc] at hcompleted
  | failed q error hauth hdoc hsilent =>
    have hover : a.auth = .over q ⟨none, some error⟩ := by
      apply hauth.resolve_left
      intro hanswered
      simp [Attempt.completed, hanswered] at hcompleted
    simp [AllOrNothing, Attempt.account, Attempt.succeeded, hover, hsilent]
  | added q uid data error hauth hdoc haccount =>
    have hover : a.addDocument = .over data error := by
      apply hdoc.resolve_left
      intro hanswered
      simp [Attempt.completed, hauth, hanswered] at hcompleted
    cases error with
    | none =>
      apply iff_of_true
      · exact Or.inl ⟨uid, haccount.account, haccount.exists_account, haccount.documents⟩
      · simp [Attempt.succeeded, hauth, hover]
    | some error =>
      apply iff_of_false
      · rintro (⟨uid', hu, _, hone⟩ | ⟨hnone, _⟩)
        · rw [haccount.account] at hu
          cases hu
          rw [haccount.documents] at hone
          cases hone
        · rw [haccount.account] at hnone
          cases hnone
      · simp [Attempt.succeeded, hauth, hover]

/-- The fields of a user that pass the checks. -/
def filledFields : SignUpView := ⟨some "user@mail.com", some "password"⟩

/-- One attempt, with these events of its calls. -/
def oneAttempt (events : List Event) : List (Move SignUpView Event) :=
  .join filledFields :: events.map (.act 0)

/-- Both calls succeed. -/
def succeeds : List Event :=
  [.authAnswered ⟨some "uid", none⟩, .authCallback, .documentAnswered "document" none, .documentCallback]

theorem a_successful_attempt_is_whole :
    ∃ s, exec SignUps.step ⟨{}, []⟩ (oneAttempt succeeds) = some s ∧
      ∀ a ∈ s.parties, a.completed = true ∧ AllOrNothing s.store a := by
  have hdone : (exec SignUps.step ⟨{}, []⟩ (oneAttempt succeeds)).map
      (fun s => s.parties.all fun a => a.completed && a.succeeded) = some true := by decide
  obtain ⟨s, hs, hall⟩ := Option.map_eq_some_iff.mp hdone
  have hsound : Sound {} := by
    intro d hd
    cases hd
  refine ⟨s, hs, fun a ha => ?_⟩
  obtain ⟨hcompleted, hsucceeded⟩ : a.completed = true ∧ a.succeeded = true := by
    simpa using List.all_eq_true.mp hall a ha
  exact ⟨hcompleted, (an_attempt_is_whole_iff_both_calls_succeed hsound (run_of_exec hs) a ha
    hcompleted).mpr hsucceeded⟩

/-- The account is refused, and the callback returns before it comes to the alert. -/
def authFails : List Event := [.authAnswered ⟨none, some "The email address is in use."⟩, .authCallback]

/-- The account is made, and its document is not added. -/
def documentFails : List Event :=
  [.authAnswered ⟨some "uid", none⟩, .authCallback, .documentAnswered "document" (some "Missing permissions."),
    .documentCallback]

theorem a_failed_call_is_silent_or_leaves_an_account :
    (∃ s a, exec SignUps.step ⟨{}, []⟩ (oneAttempt authFails) = some s ∧ s.parties = [a] ∧
      a.completed = true ∧ a.alerts = [] ∧ ¬ AllOrNothing s.store a) ∧
    ∃ s a, exec SignUps.step ⟨{}, []⟩ (oneAttempt documentFails) = some s ∧ s.parties = [a] ∧
      a.completed = true ∧ a.account = some "uid" ∧ s.store.users = [] ∧ ¬ AllOrNothing s.store a := by
  refine ⟨⟨_, _, rfl, rfl, by decide, by decide, ?_⟩, _, _, rfl, rfl, by decide, by decide, by decide, ?_⟩
  · rintro (⟨uid, hu, _⟩ | ⟨_, _, halert⟩)
    · cases hu
    · exact halert rfl
  · rintro (⟨uid, _, _, hone⟩ | ⟨hnone, _⟩)
    · cases hone
    · cases hnone

end EasyVerbs.SignUp
