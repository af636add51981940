-- The accounts and their documents over whole runs of the app. The screens change
-- no uid and no name of a document, so the sign-ups of the app are a run of
-- the sign-ups alone.
import EasyVerbs.OwnDocuments

open Runs Parties

namespace EasyVerbs

namespace SignUp

open App (key)

/-! ## What the sign-ups see -/

/-- The two backends have the same accounts, and documents with the same names and uids. -/
structure SameKeys (b c : Backend) : Prop where
  accounts : c.accounts = b.accounts
  users : c.users.map key = b.users.map key

variable {b b' c : Backend} {a a' : Attempt}

theorem documentsOf_keys (b : Backend) (uid : String) :
    (b.documentsOf uid).map key = (b.users.map key).filter fun k => k.2 == some (.string uid) := by
  unfold Backend.documentsOf
  rw [List.filter_map]
  rfl

theorem SameKeys.documents (h : SameKeys b c) (uid : String) :
    (c.documentsOf uid).length = (b.documentsOf uid).length := by
  have hkeys : (c.documentsOf uid).map key = (b.documentsOf uid).map key := by
    rw [documentsOf_keys, documentsOf_keys, h.users]
  simpa using congrArg List.length hkeys

/-- An attempt acts alike on the two backends. -/
theorem SameKeys.act {e : Event} (h : SameKeys b c) (ha : act b a e = some (b', a')) :
    ∃ c', act c a e = some (c', a') ∧ SameKeys b' c' := by
  have hids := App.ids_of_keys h.users
  obtain ⟨haccounts, husers⟩ := h
  unfold SignUp.act at ha ⊢
  cases e with
  | dismissed =>
    cases ha
    exact ⟨c, rfl, haccounts, husers⟩
  | authAnswered answer =>
    dsimp only at ha ⊢
    split at ha
    · split at ha
      · cases ha
      · rename_i hnew
        cases ha
        refine ⟨_, if_neg (haccounts ▸ hnew), ?_, husers⟩
        rw [haccounts]
    · cases ha
      exact ⟨c, rfl, haccounts, husers⟩
    · cases ha
  | authCallback =>
    dsimp only at ha ⊢
    split at ha
    · cases ha
      exact ⟨c, rfl, haccounts, husers⟩
    · cases ha
  | documentAnswered documentID error =>
    dsimp only at ha ⊢
    split at ha
    · split at ha
      · cases ha
      · rename_i hnew
        cases ha
        refine ⟨_, if_neg (hids ▸ hnew), haccounts, ?_⟩
        rw [List.map_append, List.map_append, husers]
    · cases ha
      exact ⟨c, rfl, haccounts, husers⟩
    · cases ha
  | documentCallback =>
    dsimp only at ha ⊢
    split at ha
    · cases ha
      exact ⟨c, rfl, haccounts, husers⟩
    · cases ha

/-! ## One document for each uid -/

theorem step_oneDocument {s t : SignUps} {m : Move SignUpView Event} (hp : ∀ a ∈ s.parties, Progress s.store a)
    (hs : SignUps.step s m = some t) (h : ∀ uid, (s.store.documentsOf uid).length ≤ 1) :
    ∀ uid, (t.store.documentsOf uid).length ≤ 1 := by
  cases m with
  | join view =>
    cases hs
    exact h
  | act i e =>
    obtain ⟨a, b', a', hparty, ha, rfl⟩ := step_act_eq_some hs
    cases act_cases ha with
    | @added data documentID hdoc =>
      obtain ⟨q, uid, _, rfl, haccount⟩ := (hp a (List.mem_of_getElem? hparty)).of_adding hdoc
      intro uid'
      have hzero := haccount.documents
      unfold Backend.documentsOf at h hzero ⊢
      dsimp only
      rw [List.filter_append, List.length_append]
      by_cases huid : uid = uid'
      · subst huid
        rw [hzero, Nat.zero_add]
        exact List.length_filter_le _ _
      · have hother : List.filter (carries uid') [⟨documentID, userData q.1 q.2 uid⟩] = [] := by
          apply List.filter_eq_nil_iff.mpr
          intro d hd hcarries
          rw [List.mem_singleton.mp hd, carries_userData] at hcarries
          exact huid hcarries
        rw [hother]
        exact h uid'
    | _ => exact h

theorem run_sound {h : List (SignUps × Move SignUpView Event)} {s : SignUps} (hb : Sound b)
    (hr : Run SignUps.step ⟨b, []⟩ h s) : Sound s.store := by
  induction hr with
  | start => exact hb
  | @snoc h s t m hr hs ih =>
    cases m with
    | join view =>
      cases hs
      exact ih
    | act i e =>
      obtain ⟨a, b', a', hparty, ha, rfl⟩ := step_act_eq_some hs
      exact (act_progress ih (run_progress hb hr a (List.mem_of_getElem? hparty)) ha).1

theorem run_oneDocument {h : List (SignUps × Move SignUpView Event)} {s : SignUps} (hb : Sound b)
    (hr : Run SignUps.step ⟨b, []⟩ h s) (hone : ∀ uid, (b.documentsOf uid).length ≤ 1) :
    ∀ uid, (s.store.documentsOf uid).length ≤ 1 := by
  induction hr with
  | start => exact hone
  | snoc hr hs ih => exact step_oneDocument (run_progress hb hr) hs ih

/-- The account of an attempt has its document exactly when the document was added. -/
theorem Progress.document_iff {uid : String} (h : Progress b a) (huid : a.account = some uid) :
    (b.documentsOf uid).length = 1 ↔ a.stored = true := by
  have hsame : ∀ uid' n, HasAccount b a uid' n → (b.documentsOf uid).length = n := by
    intro uid' n h
    rw [h.account] at huid
    cases huid
    exact h.documents
  unfold Attempt.account at huid
  unfold Attempt.stored
  cases h with
  | refused hauth _ => simp [hauth] at huid
  | asked _ hauth _ _ => simp [hauth] at huid
  | failed _ _ hauth _ _ => rcases hauth with h | h <;> simp [h] at huid
  | created _ _ _ hdoc haccount => simp [hsame _ _ haccount, hdoc]
  | storing _ _ _ hdoc haccount => simp [hsame _ _ haccount, hdoc]
  | added _ _ _ error _ hdoc haccount =>
    rw [hsame _ _ haccount]
    rcases hdoc with h | h <;> cases error <;> simp [h]

end SignUp

namespace App

open SignUp (Backend SignUps Sound SameKeys)

/-! ## The sign-ups of the app -/

theorem step_signUps {s t : State} {e : Event} (he : ∀ m, e ≠ .signUp m) (hs : step s e = some t) :
    t.signUps = s.signUps ∧ t.backend.accounts = s.backend.accounts := by
  cases e with
  | signOutByForce userID =>
    cases hs
    exact ⟨rfl, rfl⟩
  | signUp m => exact absurd rfl (he m)
  | signIn m =>
    obtain ⟨r, hr, rfl⟩ := Option.map_eq_some_iff.mp hs
    exact ⟨rfl, step_keeps (f := fun b : Backend => b.accounts) hr fun _ _ _ _ _ ha =>
      congrArg Backend.accounts (signIn_backend ha)⟩
  | training m | details m | favorites m | allVerbs m =>
    obtain ⟨r, hr, rfl⟩ := Option.map_eq_some_iff.mp hs
    exact ⟨rfl, rfl⟩

/-- The attempts of the app are those of a run of the sign-ups alone, on a backend with the same
accounts, names and uids. -/
theorem run_signUps {b : Backend} {user : Option String} {h : List (State × Event)} {s : State}
    (hr : Run step (launch b user) h s) :
    ∃ c h', Run SignUps.step ⟨b, []⟩ h' ⟨c, s.signUps⟩ ∧ SameKeys s.backend c := by
  induction hr with
  | start => exact ⟨b, [], .start, rfl, rfl⟩
  | @snoc h s t e hr hs ih =>
    obtain ⟨c, h', hrun, hkeys⟩ := ih
    by_cases he : ∀ m, e ≠ .signUp m
    · obtain ⟨hattempts, haccounts⟩ := step_signUps he hs
      refine ⟨c, h', hattempts ▸ hrun, hkeys.accounts.trans haccounts.symm, ?_⟩
      rw [hkeys.users, step_keys (run_owned hr) he hs]
    · push Not at he
      obtain ⟨m, rfl⟩ := he
      obtain ⟨r, hr, rfl⟩ := Option.map_eq_some_iff.mp hs
      cases m with
      | join view =>
        cases hr
        exact ⟨c, _, hrun.snoc (step_join view), hkeys⟩
      | act i e =>
        obtain ⟨a, b', a', hparty, ha, rfl⟩ := step_act_eq_some hr
        obtain ⟨c', hc, hkeys'⟩ := hkeys.act ha
        exact ⟨c', _, hrun.snoc (step_act hparty hc), hkeys'⟩

/-- In every run of the app no uid has two documents, and each document carries the uid of an
account. The account of a sign-up has its document exactly when the document was added. -/
theorem each_account_has_its_document {b : Backend} {user : Option String} {h : List (State × Event)}
    {s : State} (hb : Sound b) (hone : ∀ uid, (b.documentsOf uid).length ≤ 1)
    (hr : Run step (launch b user) h s) :
    (∀ uid, (s.backend.documentsOf uid).length ≤ 1 ∧
      ((s.backend.documentsOf uid).length = 1 → uid ∈ s.backend.accounts)) ∧
      ∀ a ∈ s.signUps, ∀ uid, a.account = some uid →
        ((s.backend.documentsOf uid).length = 1 ↔ a.stored = true) := by
  obtain ⟨c, h', hrun, hkeys⟩ := run_signUps hr
  have hlength := hkeys.documents
  refine ⟨fun uid => ⟨?_, fun h1 => ?_⟩, fun a ha uid huid => ?_⟩
  · rw [← hlength]
    exact SignUp.run_oneDocument hb hrun hone uid
  · have hdocument : 0 < (c.documentsOf uid).length := by rw [hlength, h1]; exact Nat.one_pos
    obtain ⟨d, hd⟩ := List.exists_mem_of_length_pos hdocument
    rw [← hkeys.accounts]
    exact SignUp.run_sound hb hrun d (List.mem_filter.mp hd).1 uid (List.mem_filter.mp hd).2
  · rw [← hlength]
    exact (SignUp.run_progress hb hrun a ha).document_iff huid

/-- An account whose document is added, and one whose document is refused. -/
def twoSignUps : List Event :=
  [.signUp (.join SignUp.filledFields), .signUp (.join SignUp.filledFields),
    .signUp (.act 0 (.authAnswered ⟨some "first", none⟩)), .signUp (.act 1 (.authAnswered ⟨some "second", none⟩)),
    .signUp (.act 1 .authCallback), .signUp (.act 0 .authCallback),
    .signUp (.act 1 (.documentAnswered "document" (some "Missing permissions."))),
    .signUp (.act 0 (.documentAnswered "document" none))]

theorem one_of_two_accounts_has_its_document :
    ∃ s, exec step (launch {} none) twoSignUps = some s ∧
      ∀ a ∈ s.signUps, ∀ uid, a.account = some uid →
        ((s.backend.documentsOf uid).length = 1 ↔ a.stored = true) := by
  obtain ⟨s, hs⟩ := Option.isSome_iff_exists.mp
    (show (exec step (launch {} none) twoSignUps).isSome from by decide)
  have hsound : Sound {} := by
    intro d hd
    cases hd
  exact ⟨s, hs, (each_account_has_its_document hsound (fun _ => Nat.zero_le 1) (run_of_exec hs)).2⟩

end App

end EasyVerbs
