-- The best score of a user with any number of training screens: when a write
-- can store less than it replaces, and when it never does.
import Mathlib.Data.List.Forall2
import EasyVerbs.BestScore

open Runs Parties

namespace EasyVerbs.Learning

/-! ## All the screens of a user -/

/-- `LearningFactory.make` on a device where the user is signed in. -/
def openScreen (user : String) : Unit → Screen := fun _ => viewDidLoad (some user)

/-- The screens of the user, and the documents of the user. -/
abbrev Screens := Shared (List Document) Screen

def Screens.step (user : String) : Screens → Move Unit Event → Option Screens :=
  Parties.step (openScreen user) act

/-- The step stores no smaller best score in any document. -/
def KeepsBest (user : String) (m : Screens × Move Unit Event) : Prop :=
  ∀ t, Screens.step user m.1 m.2 = some t →
    List.Forall₂ (fun d d' => d.bestScore ≤ d'.bestScore) m.1.store t.store

/-! ## Scores under way -/

/-- An update of the score waits for its callback. -/
def Screen.updating (s : Screen) : Bool := s.requests.any fun r => r.callback = .updateBestScore

/-- The scores that the writes on their way store. -/
def Screen.written (s : Screen) : List Int := s.writes.filterMap scoreOf

/-- The scores that the screen can still store without a new score. -/
def Screen.underWay (s : Screen) : List Int :=
  (if s.updating then [s.presenter.bestScore] else []) ++ s.written

/-- The new best score of the presenter, when an update of it waits after the event. -/
def newScore (s : Screen) : Event → Option Int
  | .timerFires _ =>
    if s.view.time = 1 ∧ s.presenter.bestScore < s.view.score then some s.view.score else none
  | .bestScoreBlock i => if s.updating then s.blocks[i]?.map (·.bestScore) else none
  | _ => none

/-- A new score is no smaller than the stored one, and every score under way is the same. -/
def Settled (s : Screens) : Move Unit Event → Prop
  | .join _ => True
  | .act i e => ∀ p ∈ s.parties[i]?, ∀ n ∈ newScore p e,
      (∀ d ∈ s.store, d.bestScore ≤ n) ∧ (∀ u ∈ p.written, u = n) ∧
        ∀ q ∈ s.others i, ∀ u ∈ q.underWay, u = n

instance (s : Screens) : (m : Move Unit Event) → Decidable (Settled s m)
  | .join _ => inferInstanceAs (Decidable True)
  | .act i e => inferInstanceAs (Decidable (∀ p ∈ s.parties[i]?, ∀ n ∈ newScore p e,
      (∀ d ∈ s.store, d.bestScore ≤ n) ∧ (∀ u ∈ p.written, u = n) ∧
        ∀ q ∈ s.others i, ∀ u ∈ q.underWay, u = n))

theorem mem_underWay {s : Screen} {u : Int} :
    u ∈ s.underWay ↔ s.updating = true ∧ u = s.presenter.bestScore ∨ u ∈ s.written := by
  unfold Screen.underWay
  cases s.updating <;> simp

/-- The screen reads and writes one document only. -/
structure Owned (id : String) (s : Screen) : Prop where
  read : ∀ r ∈ s.requests, ∀ documents, r.querySnapshot = some documents →
    documents.map (·.documentID) = [id]
  writes : ∀ w ∈ s.writes, ∃ n, w = scoreWrite id n

theorem Owned.mono {id : String} {s t : Screen} (h : Owned id s) (hr : ∀ r ∈ t.requests, r ∈ s.requests)
    (hw : ∀ w ∈ t.writes, w ∈ s.writes) : Owned id t :=
  ⟨fun r hmem => h.read r (hr r hmem), fun w hmem => h.writes w (hw w hmem)⟩

theorem openScreen_owned (user id : String) (n : Unit) : Owned id (openScreen user n) := by
  refine ⟨fun r hr documents hd => ?_, fun w hw => ?_⟩
  · have : r = { callback := .bestScoreFromFirebase } := by
      simpa [openScreen, viewDidLoad, getDocuments] using hr
    subst this
    cases hd
  · cases hw

theorem openScreen_underWay (user : String) (n : Unit) : (openScreen user n).underWay = [] := rfl

theorem act_owned {id : String} {documents documents' : List Document} {s t : Screen} {e : Event}
    (hids : documents.map (·.documentID) = [id]) (ho : Owned id s)
    (ha : act documents s e = some (documents', t)) :
    documents'.map (·.documentID) = [id] ∧ Owned id t := by
  obtain ⟨hs, hread, hdocs⟩ := act_eq_some ha
  have hids' : documents'.map (·.documentID) = [id] := by
    rcases hdocs with ⟨_, rfl⟩ | ⟨i, w, _, _, rfl⟩
    · exact hids
    · rw [applyTo_documentIDs, hids]
  refine ⟨hids', ?_⟩
  cases step_scores hs with
  | same hsame _ _ => exact ho.mono (fun _ hr => hsame.requests ▸ hr) fun _ hw => hsame.writes ▸ hw
  | better _ _ _ _ hrequests _ hwrites =>
    refine ⟨fun r hmem => ?_, hwrites ▸ ho.writes⟩
    rw [hrequests] at hmem
    unfold getDocuments at hmem
    split at hmem
    · exact ho.read r hmem
    · rcases List.mem_append.mp hmem with hmem | hmem
      · exact ho.read r hmem
      · rw [List.mem_singleton.mp hmem]
        simp
  | @served i read rs hserve ht =>
    obtain ⟨q, _, rfl⟩ := serve_eq_some hserve
    subst ht
    refine ⟨fun r hmem ds hds => ?_, ho.writes⟩
    rcases List.mem_or_eq_of_mem_set hmem with hmem | rfl
    · exact ho.read r hmem ds hds
    · cases hds
      rw [hread i read rfl, hids]
  | @callback i query read hrequest ht =>
    subst ht
    have hids := ho.read _ (List.mem_of_getElem? hrequest) read rfl
    cases query with
    | bestScoreFromFirebase => exact ho.mono (fun _ hr => List.mem_of_mem_eraseIdx hr) fun _ hw => hw
    | updateBestScore =>
      refine ⟨fun r hmem => ho.read r (List.mem_of_mem_eraseIdx hmem), fun w hmem => ?_⟩
      rcases List.mem_append.mp hmem with hmem | hmem
      · exact ho.writes w hmem
      · obtain ⟨d, hd, rfl⟩ := List.mem_map.mp hmem
        have : d.documentID ∈ read.map (·.documentID) := List.mem_map_of_mem hd
        rw [hids, List.mem_singleton] at this
        exact ⟨_, by rw [this]; rfl⟩
  | failed ht =>
    subst ht
    exact ho.mono (fun _ hr => List.mem_of_mem_eraseIdx hr) fun _ hw => hw
  | block _ ht =>
    subst ht
    exact ho.mono (fun _ hr => hr) fun _ hw => hw
  | applied _ ht | rejected ht =>
    subst ht
    exact ho.mono (fun _ hr => hr) fun _ hw => List.mem_of_mem_eraseIdx hw

theorem updating_of_mem {s : Screen} {r : Request Query} (hr : r ∈ s.requests)
    (hq : r.callback = .updateBestScore) : s.updating = true :=
  List.any_eq_true.mpr ⟨r, hr, by simp [hq]⟩

theorem updating_mono {s t : Screen}
    (h : ∀ r ∈ t.requests, ∃ r' ∈ s.requests, r'.callback = r.callback)
    (hu : t.updating = true) : s.updating = true := by
  obtain ⟨r, hr, hq⟩ := List.any_eq_true.mp hu
  obtain ⟨r', hr', hq'⟩ := h r hr
  exact updating_of_mem hr' (hq'.trans (by simpa using hq))

theorem written_eraseIdx {s : Screen} {i : Nat} {n : Int}
    (hn : n ∈ { s with writes := s.writes.eraseIdx i }.written) : n ∈ s.written := by
  obtain ⟨w, hmem, hw⟩ := List.mem_filterMap.mp hn
  exact List.mem_filterMap.mpr ⟨w, List.mem_of_mem_eraseIdx hmem, hw⟩

/-- Without a new score a step brings no new score under way. -/
theorem step_underWay {s t : Screen} {e : Event} (hs : s.step e = some t)
    (hn : newScore s e = none) : ∀ u ∈ t.underWay, u ∈ s.underWay := by
  intro u hu
  rw [mem_underWay] at hu ⊢
  have herase : ∀ i, ∀ r ∈ s.requests.eraseIdx i, ∃ r' ∈ s.requests, r'.callback = r.callback :=
    fun i r hr => ⟨r, List.mem_of_mem_eraseIdx hr, rfl⟩
  cases step_scores hs with
  | same hsame _ _ =>
    simpa only [Screen.updating, Screen.written, hsame.requests, hsame.writes, hsame.bestScore]
      using hu
  | better hends hbetter _ _ _ _ _ =>
    have htime : s.view.time = 1 := by
      by_contra hne
      simp [endsGame, hne] at hends
    simp [newScore, htime, hbetter] at hn
  | @served i read rs hserve ht =>
    obtain ⟨q, hq, rfl⟩ := serve_eq_some hserve
    subst ht
    refine hu.imp_left (And.imp_left (updating_mono fun r hr => ?_))
    rcases List.mem_or_eq_of_mem_set hr with hr | rfl
    · exact ⟨r, hr, rfl⟩
    · exact ⟨_, List.mem_of_getElem? hq, rfl⟩
  | @callback i query read hrequest ht =>
    subst ht
    cases query with
    | bestScoreFromFirebase =>
      exact hu.imp_left (And.imp_left (updating_mono (herase i)))
    | updateBestScore =>
      have hup : s.updating = true := updating_of_mem (List.mem_of_getElem? hrequest) rfl
      rcases hu with ⟨_, hb⟩ | hw
      · exact Or.inl ⟨hup, hb⟩
      · simp only [Screen.written, Learning.callback, List.filterMap_append, List.mem_append] at hw
        rcases hw with hw | hw
        · exact Or.inr hw
        · obtain ⟨w, hmem, hw⟩ := List.mem_filterMap.mp hw
          obtain ⟨d, _, rfl⟩ := List.mem_map.mp hmem
          cases hw
          exact Or.inl ⟨hup, rfl⟩
  | failed ht =>
    subst ht
    exact hu.imp_left (And.imp_left (updating_mono (herase _)))
  | @block i document hblock ht =>
    subst ht
    have hup : s.updating = false := by
      by_contra hup
      simp [newScore, hup, hblock] at hn
    rcases hu with ⟨hup', _⟩ | hw
    · have : s.updating = true := hup'
      rw [hup] at this
      cases this
    · exact Or.inr hw
  | applied _ ht | rejected ht =>
    subst ht
    exact hu.imp_right written_eraseIdx

/-- A new score is the best score of the presenter, with an update of it waiting, and the
writes are as they were. -/
theorem step_newScore {s t : Screen} {e : Event} {n : Int} (hs : s.step e = some t)
    (hn : newScore s e = some n) :
    t.presenter.bestScore = n ∧ t.written = s.written ∧
      (s.presenter.userID.isSome = true → t.updating = true) := by
  cases step_scores hs with
  | @same e hsame hends hquiet =>
    cases e with
    | timerFires timer =>
      simp only [newScore, Option.ite_none_right_eq_some, Option.some.injEq] at hn
      have := hends s.view.score (by simp [endsGame, hn.1.1])
      omega
    | bestScoreBlock i => exact absurd rfl (hquiet i).2.2.2.1
    | _ => simp [newScore] at hn
  | better hends hbetter _ hbest hrequests _ hwrites =>
    simp only [newScore, Option.ite_none_right_eq_some, Option.some.injEq] at hn
    refine ⟨hbest.trans hn.2, by rw [Screen.written, Screen.written, hwrites], fun huser => ?_⟩
    obtain ⟨user, hu⟩ := Option.isSome_iff_exists.mp huser
    unfold Screen.updating
    simp [hrequests, getDocuments, hu]
  | @block i document hblock ht =>
    subst ht
    simp only [newScore, hblock, Option.map_some, Option.ite_none_right_eq_some,
      Option.some.injEq] at hn
    exact ⟨hn.2, rfl, fun _ => hn.1⟩
  | _ => simp [newScore] at hn

/-! ## The law -/

/-- Every score under way is the same one, and no smaller than the stored score. -/
structure Agreed (id : String) (s : Screens) : Prop where
  ids : s.store.map (·.documentID) = [id]
  owned : ∀ p ∈ s.parties, Owned id p
  agreed : ∃ n, (∀ d ∈ s.store, d.bestScore ≤ n) ∧ ∀ p ∈ s.parties, ∀ u ∈ p.underWay, u = n

/-- A write on its way stores a score under way. -/
theorem Owned.write_score {id : String} {p : Screen} {w : Write} (ho : Owned id p)
    (hw : w ∈ p.writes) : ∃ n ∈ p.underWay, w = scoreWrite id n := by
  obtain ⟨n, rfl⟩ := ho.writes w hw
  exact ⟨n, mem_underWay.mpr (Or.inr (List.mem_filterMap.mpr ⟨_, hw, rfl⟩)), rfl⟩

/-- An act stores a score under way, or leaves the documents. -/
theorem act_store {id : String} {documents documents' : List Document} {p q : Screen} {e : Event}
    (hids : documents.map (·.documentID) = [id]) (ho : Owned id p)
    (ha : act documents p e = some (documents', q)) :
    documents' = documents ∨ newScore p e = none ∧
      ∃ d, documents = [d] ∧ ∃ n ∈ p.underWay, ∃ d', documents' = [d'] ∧ d'.bestScore = n := by
  obtain ⟨_, _, ⟨_, hd⟩ | ⟨i, w, rfl, hw, rfl⟩⟩ := act_eq_some ha
  · exact Or.inl hd
  · obtain ⟨n, hn, rfl⟩ := ho.write_score (List.mem_of_getElem? hw)
    obtain ⟨d, rfl, hid⟩ := List.map_eq_singleton_iff.mp hids
    exact Or.inr ⟨rfl, d, rfl, n, hn, _, applyTo_only hid.symm, updateData_bestScore d n⟩

theorem Agreed.step {user id : String} {s t : Screens} {m : Move Unit Event} (h : Agreed id s)
    (hg : Settled s m) (hs : Screens.step user s m = some t) :
    Agreed id t ∧ List.Forall₂ (fun d d' => d.bestScore ≤ d'.bestScore) s.store t.store := by
  obtain ⟨hids, howned, n, hstored, hagreed⟩ := h
  have hrefl : ∀ l : List Document, List.Forall₂ (fun d d' => d.bestScore ≤ d'.bestScore) l l :=
    fun l => List.forall₂_same.mpr fun _ _ => le_refl _
  cases m with
  | join u =>
    rw [Screens.step, step_join] at hs
    cases hs
    refine ⟨⟨hids, fun p hp => ?_, n, hstored, fun p hp => ?_⟩, hrefl _⟩
    · rcases List.mem_append.mp hp with hp | hp
      · exact howned p hp
      · rw [List.mem_singleton.mp hp]
        exact openScreen_owned user id u
    · rcases List.mem_append.mp hp with hp | hp
      · exact hagreed p hp
      · rw [List.mem_singleton.mp hp, openScreen_underWay]
        simp
  | act i e =>
    obtain ⟨p, documents, q, hp, ha, rfl⟩ := step_act_eq_some hs
    have hpm : p ∈ s.parties := List.mem_of_getElem? hp
    obtain ⟨hids', hq⟩ := act_owned hids (howned p hpm) ha
    have howned' : ∀ x ∈ s.parties.set i q, Owned id x := by
      intro x hx
      rcases (mem_set_iff (lt_of_party hp)).mp hx with rfl | hx
      · exact hq
      · exact howned x (List.mem_of_mem_eraseIdx hx)
    have hstep := (act_eq_some ha).1
    cases hnew : newScore p e with
    | none =>
      have hunder : ∀ x ∈ s.parties.set i q, ∀ u ∈ x.underWay, u = n := by
        intro x hx u hu
        rcases (mem_set_iff (lt_of_party hp)).mp hx with rfl | hx
        · exact hagreed p hpm u (step_underWay hstep hnew u hu)
        · exact hagreed x (List.mem_of_mem_eraseIdx hx) u hu
      rcases act_store hids (howned p hpm) ha with rfl | ⟨_, d, hd, u, hu, d', rfl, hd'⟩
      · exact ⟨⟨hids', howned', n, hstored, hunder⟩, hrefl _⟩
      · have hun : u = n := hagreed p hpm u hu
        have hle : d.bestScore ≤ d'.bestScore := by
          rw [hd', hun]
          exact hstored d (by simp [hd])
        rw [hd]
        exact ⟨⟨hids', howned', n, by simp [hd', hun], hunder⟩, by simpa using hle⟩
    | some v =>
      obtain ⟨hv, hwritten, hothers⟩ := hg p hp v hnew
      have hdoc : documents = s.store := by
        rcases act_store hids (howned p hpm) ha with hd | ⟨hnone, _⟩
        · exact hd
        · rw [hnew] at hnone
          cases hnone
      subst hdoc
      obtain ⟨hbest, hwrites, _⟩ := step_newScore hstep hnew
      refine ⟨⟨hids', howned', v, hv, fun x hx u hu => ?_⟩, hrefl _⟩
      rcases (mem_set_iff (lt_of_party hp)).mp hx with rfl | hx
      · rcases mem_underWay.mp hu with ⟨_, hu⟩ | hu
        · exact hu.trans hbest
        · rw [hwrites] at hu
          exact hwritten u hu
      · exact hothers x hx u hu

theorem run_agreed {user : String} {d : Document} {h : List (Screens × Move Unit Event)}
    {s : Screens} (hr : Run (Screens.step user) ⟨[d], []⟩ h s) (hg : ∀ m ∈ h, Settled m.1 m.2) :
    Agreed d.documentID s := by
  refine hr.guarded (I := fun _ s => Agreed d.documentID s) hg ?_ ?_
  · exact ⟨rfl, by simp, d.bestScore, by simp, by simp⟩
  · intro _ s m t ih hm hs
    exact (ih.step hm hs).1

/-- In every run whose new scores are all settled, no step of any screen stores a smaller
best score. -/
theorem settled_scores_never_lower_the_best {user : String} {d : Document}
    {h : List (Screens × Move Unit Event)} {s : Screens}
    (hr : Run (Screens.step user) ⟨[d], []⟩ h s) (hg : ∀ m ∈ h, Settled m.1 m.2) :
    ∀ m ∈ h, KeepsBest user m := by
  rintro m hm t ht
  obtain ⟨⟨h1, hr1, hsub⟩, _⟩ := hr.moment hm
  exact ((run_agreed hr1 fun x hx => hg x (hsub x hx)).step (hg m hm) ht).2

/-- The only screen of the user takes these events. -/
def aloneWith (events : List Event) : List (Move Unit Event) := .join () :: events.map (.act 0)

/-- The best score was read before the game: the one point of the game is settled. -/
theorem a_loaded_screen_keeps_the_best :
    (exec (Screens.step "user") ⟨[userDocument 0], []⟩ (aloneWith oneStoredGame)).isSome = true ∧
    ∀ m ∈ momentsOf (Screens.step "user") ⟨[userDocument 0], []⟩ (aloneWith oneStoredGame),
      KeepsBest "user" m := by
  have hsome : (exec (Screens.step "user") ⟨[userDocument 0], []⟩ (aloneWith oneStoredGame)).isSome = true := by
    decide
  exact ⟨hsome, settled_scores_never_lower_the_best (run_of_isSome hsome) (by decide)⟩

/-- The initial query is still open when a game with one point ends. -/
def lateLoad : List Event := oneGame ++ answered 1 [userDocument 10] ++ [.applied 0]

/-- Then the point is stored over a best score of 10. -/
theorem a_late_load_lowers_the_best :
    (∃ s, exec (Screens.step "user") ⟨[userDocument 10], []⟩ (aloneWith lateLoad) = some s ∧
      s.store.map (·.bestScore) = [1]) ∧
    ∃ m ∈ momentsOf (Screens.step "user") ⟨[userDocument 10], []⟩ (aloneWith lateLoad),
      ¬ KeepsBest "user" m := by
  have hend : (exec (Screens.step "user") ⟨[userDocument 10], []⟩ (aloneWith lateLoad)).map
      (fun s => s.store.map (·.bestScore)) = some [1] := by decide
  refine ⟨Option.map_eq_some_iff.mp hend, ?_⟩
  have hlow : ∃ m ∈ momentsOf (Screens.step "user") ⟨[userDocument 10], []⟩ (aloneWith lateLoad),
      m.1.store.map (·.bestScore) = [10] ∧
        (Screens.step "user" m.1 m.2).map (fun s => s.store.map (·.bestScore)) = some [1] := by decide
  obtain ⟨m, hm, hbefore, hafter⟩ := hlow
  obtain ⟨t, ht, ht1⟩ := Option.map_eq_some_iff.mp hafter
  refine ⟨m, hm, fun hkeeps => ?_⟩
  have hle : List.Forall₂ (· ≤ ·) (m.1.store.map (·.bestScore)) (t.store.map (·.bestScore)) :=
    List.forall₂_map_left_iff.mpr (List.forall₂_map_right_iff.mpr (hkeeps t ht))
  rw [hbefore, ht1] at hle
  simp at hle

end EasyVerbs.Learning
