-- The law of the screens that are alive: a training or a Details screen can be
-- tapped exactly while its controller is over the root, so of each of the two
-- there is at most one.
import EasyVerbs.AbandonedGames
import EasyVerbs.OrderOfScreens

open Runs Parties

namespace EasyVerbs.Navigation

open SignUp (Backend)

/-! ## The screens that are alive -/

/-- Each training screen that is not dismissed. -/
def aliveTrainings (app : App.State) : List Bool := app.trainings.map fun p => !p.dismissed

/-- Each Details screen whose weak `view` is there. -/
def aliveDetails (app : App.State) : List Bool := app.details.map fun p => p.presenter.view.isSome

/-- The screens of a kind that are alive are those that have their controller over the root. -/
def Matches (f : Nat → Controller) (alive : List Bool) (cs : List Controller) : Prop :=
  ∀ i, f i ∈ cs ↔ alive[i]? = some true

/-- What a turn makes of the screens of a kind and of the controllers. -/
inductive Moves (f : Nat → Controller) (alive : List Bool) (cs : List Controller) :
    List Bool → List Controller → Prop
  | others {cs' : List Controller} (hcs : ∀ i, f i ∈ cs' ↔ f i ∈ cs) : Moves f alive cs alive cs'
  | opens : Moves f alive cs (alive ++ [true]) (f alive.length :: cs)
  | closes {i : Nat} {under : List Controller} (hcs : cs = f i :: under) (hi : f i ∉ under) :
      Moves f alive cs (alive.set i false) under

theorem Moves.matches {f : Nat → Controller} {alive alive' : List Bool} {cs cs' : List Controller}
    (h : Moves f alive cs alive' cs') (hinj : ∀ i j, f i = f j → i = j) (hm : Matches f alive cs) :
    Matches f alive' cs' := by
  intro j
  cases h with
  | others hcs => rw [hcs, hm]
  | opens =>
    rw [List.mem_cons, hm]
    by_cases hj : j < alive.length
    · rw [List.getElem?_append_left hj]
      exact or_iff_right fun heq => absurd (hinj _ _ heq) (by omega)
    · rw [List.getElem?_eq_none (by omega), List.getElem?_append_right (by omega)]
      by_cases hlast : j = alive.length
      · simp [hlast]
      · have hne : f j ≠ f alive.length := fun heq => hlast (hinj _ _ heq)
        rw [List.getElem?_eq_none (by simp; omega)]
        simp [hne]
  | @closes i under hcs hi =>
    have hmj := hm j
    rw [hcs, List.mem_cons] at hmj
    by_cases hj : j = i
    · subst hj
      rw [List.getElem?_set]
      simp [hi]
    · rw [List.getElem?_set_ne (fun heq => hj heq.symm), ← hmj]
      exact (or_iff_right fun heq => hj (hinj _ _ heq)).symm


variable {s t u : State} {e : Event}

/-! ## The events of the app -/

/-- What an event makes of the training screens that are alive. -/
def trainingsAfter (alive : List Bool) : App.Event → List Bool
  | .training (.join _) => alive ++ [true]
  | .training (.act i .backButtonDidTap) => alive.set i false
  | _ => alive

def detailsAfter (alive : List Bool) : App.Event → List Bool
  | .details (.join _) => alive ++ [true]
  | .details (.act i .backButtonDidTap) => alive.set i false
  | _ => alive

theorem training_alive {users users' : List Document} {p q : Learning.Screen} {e : Learning.Event}
    (ha : App.trainingAct users p e = some (users', q)) :
    q.dismissed = if e = .backButtonDidTap then true else p.dismissed := by
  have hs := (Learning.act_eq_some (App.trainingAct_own ha)).1
  have hown : App.ownTraining (App.documentsOf users p.presenter.userID) e = .backButtonDidTap ↔
      e = .backButtonDidTap := by
    cases e <;> simp [App.ownTraining]
  simp only [← hown]
  generalize App.ownTraining _ e = e' at hs
  cases Learning.step_cases hs with
  | goToNextVerb _ _ =>
    unfold Learning.goToNextVerb
    split <;> rfl
  | timerFires _ => exact Learning.actionForTimer_dismissed p
  | @callback i query documents _ => cases query <;> rfl
  | _ => rfl

theorem details_act_alive {documents documents' : List Document} {p q : Details.Screen} {e : Details.Event}
    (ha : Details.act documents p e = some (documents', q)) :
    q.presenter.view.isSome = if e = .backButtonDidTap then false else p.presenter.view.isSome := by
  cases Details.act_cases ha with
  | tap _ =>
    rw [Details.addToFavorites_eq]
    rfl
  | @callback i query read _ => cases query <;> rfl
  | mainBlock _ => simp [Details.mainBlock]
  | _ => rfl

theorem details_alive {users users' : List Document} {p q : Details.Screen} {e : Details.Event}
    (ha : App.detailsAct users p e = some (users', q)) :
    q.presenter.view.isSome = if e = .backButtonDidTap then false else p.presenter.view.isSome := by
  have hown : App.ownDetails (App.documentsOf users p.presenter.userID) e = .backButtonDidTap ↔
      e = .backButtonDidTap := by
    cases e <;> simp [App.ownDetails]
  have halive := details_act_alive (App.detailsAct_own ha)
  simp only [hown] at halive
  exact halive

theorem step_aliveTrainings {app app' : App.State} {e : App.Event} (hs : App.step app e = some app') :
    aliveTrainings app' = trainingsAfter (aliveTrainings app) e := by
  cases e with
  | signOutByForce userID =>
    cases hs
    rfl
  | training m =>
    obtain ⟨r, hr, rfl⟩ := Option.map_eq_some_iff.mp hs
    cases m with
    | join _ =>
      cases hr
      have hnew : (Learning.viewDidLoad app.currentUser).dismissed = false :=
        Learning.getDocuments_dismissed _ _
      simp [aliveTrainings, trainingsAfter, hnew]
    | act i e =>
      obtain ⟨p, d, q, hp, ha, rfl⟩ := step_act_eq_some hr
      unfold aliveTrainings
      rw [List.map_set, training_alive ha]
      by_cases hback : e = .backButtonDidTap
      · subst hback
        rfl
      · have hget : (app.trainings.map fun p => !p.dismissed)[i]? = some (!p.dismissed) := by
          rw [List.getElem?_map, hp, Option.map_some]
        rw [if_neg hback, set_party hget]
        cases e <;> first | rfl | exact absurd rfl hback
  | _ =>
    obtain ⟨r, _, rfl⟩ := Option.map_eq_some_iff.mp hs
    rfl

theorem step_aliveDetails {app app' : App.State} {e : App.Event} (hs : App.step app e = some app') :
    aliveDetails app' = detailsAfter (aliveDetails app) e := by
  cases e with
  | signOutByForce userID =>
    cases hs
    rfl
  | details m =>
    obtain ⟨r, hr, rfl⟩ := Option.map_eq_some_iff.mp hs
    cases m with
    | join verb =>
      cases hr
      have hnew : (Details.viewDidLoad app.currentUser verb).presenter.view.isSome = true := by
        cases app.currentUser <;> rfl
      simp [aliveDetails, detailsAfter, hnew]
    | act i e =>
      obtain ⟨p, d, q, hp, ha, rfl⟩ := step_act_eq_some hr
      unfold aliveDetails
      rw [List.map_set, details_alive ha]
      by_cases hback : e = .backButtonDidTap
      · subst hback
        rfl
      · have hget : (app.details.map fun p => p.presenter.view.isSome)[i]? = some p.presenter.view.isSome := by
          rw [List.getElem?_map, hp, Option.map_some]
        rw [if_neg hback, set_party hget]
        cases e <;> first | rfl | exact absurd rfl hback
  | _ =>
    obtain ⟨r, _, rfl⟩ := Option.map_eq_some_iff.mp hs
    rfl

/-! ## The controllers -/

/-- A call leaves the controllers of both kinds of screens where they are. -/
theorem exec_mem {es : List App.Event} {c : Controller} (hcalls : exec State.call s es = some u)
    (hc : ∀ a c', Controller.after a c' = c ↔ c' = c) : c ∈ u.presented ↔ c ∈ s.presented := by
  refine exec_invariant (I := fun v => c ∈ v.presented ↔ c ∈ s.presented) (G := fun _ => True) hcalls
    (fun _ _ => trivial) Iff.rfl fun v a w hv _ hs => ?_
  rw [← hv, (call_eq_some hs).2, List.mem_map]
  simp [hc]

theorem after_learning (i : Nat) (a : App.Event) (c : Controller) :
    Controller.after a c = .learning i ↔ c = .learning i := by
  cases c <;> simp [Controller.after]

theorem after_details (i : Nat) (a : App.Event) (c : Controller) :
    Controller.after a c = .details i ↔ c = .details i := by
  cases c <;> simp [Controller.after]

/-- A controller of another kind comes or goes. -/
theorem mem_present {c c' : Controller} (h : c.kind ≠ c'.kind) : c ∈ (u.present c').presented ↔ c ∈ u.presented := by
  unfold State.present
  rw [List.mem_cons]
  exact or_iff_right fun heq => h (congrArg Controller.kind heq)

theorem mem_dismiss {c : Controller} {k : Kind} {ks : List Kind} (hlast : u.kinds = k :: ks) (h : c.kind ≠ k) :
    c ∈ u.dismiss.presented ↔ c ∈ u.presented := by
  unfold State.dismiss
  unfold State.kinds at hlast
  cases hu : u.presented with
  | nil => rfl
  | cons c' under =>
    rw [hu] at hlast
    cases hlast
    rw [List.tail_cons, List.mem_cons]
    exact (or_iff_right fun heq => h (congrArg Controller.kind heq)).symm

theorem mem_rootPresents {c c' : Controller} (h : c.kind ≠ c'.kind) :
    c ∈ (u.rootPresents c').presented ↔ c ∈ u.presented := by
  by_cases hu : u.presented = []
  · rw [rootPresents_nil hu, mem_present h]
  · rw [rootPresents_over hu]

theorem mem_rootAlerts {c : Controller} {alerts : List (String × String)} (h : c.kind ≠ .alert) :
    c ∈ (u.rootAlerts alerts).presented ↔ c ∈ u.presented := by
  cases alerts with
  | nil => rfl
  | cons alert rest =>
    rw [rootAlerts_cons]
    exact mem_rootPresents h

theorem mem_answered {c : Controller} {before : App.State} {a : App.Event} (h : c.kind ≠ .alert)
    (hmenu : c.kind ≠ .menu) : c ∈ (u.answered before a).presented ↔ c ∈ u.presented := by
  unfold State.answered
  split
  · split
    · dsimp only
      split
      · rw [mem_rootPresents hmenu, mem_rootAlerts h]
      · exact mem_rootAlerts h
    · rfl
  · split
    · unfold State.signUpAlerts
      split
      · split
        · exact mem_present h
        · rfl
      · rfl
    · rfl
  · rfl

/-- The event makes or closes a screen of the kind. -/
def touches : Kind → App.Event → Bool
  | .learning, .training (.join _) | .learning, .training (.act _ .backButtonDidTap) => true
  | .details, .details (.join _) | .details, .details (.act _ .backButtonDidTap) => true
  | _, _ => false

/-- What a turn leaves of the controllers of a kind that its events do not touch. -/
theorem Turn.mem {es : List App.Event} (ht : Turn s u e es t) (hcalls : exec State.call s es = some u)
    {c : Controller} (hc : c.kind = .learning ∨ c.kind = .details) (hes : ∀ a ∈ es, touches c.kind a = false) :
    c ∈ t.presented ↔ c ∈ u.presented := by
  have hkinds : u.kinds = s.kinds := kinds_exec hcalls
  have hother : c.kind ≠ .alert ∧ c.kind ≠ .signUp ∧ c.kind ≠ .menu ∧ c.kind ≠ .verbs := by
    rcases hc with hc | hc <;> rw [hc] <;> decide
  have hdismiss : ∀ c' under, s.presented = c' :: under → c.kind ≠ c'.kind →
      (c ∈ u.dismiss.presented ↔ c ∈ u.presented) := by
    intro c' under hlast hne
    rw [State.kinds.eq_def s, hlast] at hkinds
    exact mem_dismiss hkinds hne
  cases ht with
  | active _ => exact mem_rootPresents hother.2.2.1
  | noUser | searchBar _ _ => rfl
  | alertAction hlast => exact hdismiss _ _ hlast hother.1
  | leaveSignUp hlast | createNewAccount hlast => exact hdismiss _ _ hlast hother.2.1
  | leaveVerbs hlast => exact hdismiss _ _ hlast hother.2.2.2
  | signUp _ => exact mem_present hother.2.1
  | loginButton _ => exact mem_rootAlerts hother.1
  | @refused attempts attempts' under view title message hlast =>
    rw [mem_present hother.1, List.mem_cons, ← hdismiss _ _ hlast hother.2.1]
    exact or_iff_right fun heq => hother.2.1 (congrArg Controller.kind heq)
  | @menu row vc under _ =>
    apply mem_present
    intro heq
    rw [List.forall_mem_singleton, heq] at hes
    cases vc with
    | learning => cases hes
    | allVerbs | favoriteVerbs => exact hother.2.2.2 heq
  | learning hlast | details hlast =>
    split
    · rename_i hback
      subst hback
      apply hdismiss _ _ hlast
      intro heq
      rw [List.forall_mem_singleton, heq] at hes
      cases hes
    · rfl
  | cellForRowAt hlast _ =>
    cases hcalls
    rw [hlast, List.mem_cons, List.mem_cons]
    refine or_congr (iff_of_false ?_ ?_) Iff.rfl <;> exact fun heq => hother.2.2.2 (congrArg Controller.kind heq)
  | tapButton _ _ =>
    apply mem_present
    intro heq
    rw [List.forall_mem_singleton, heq] at hes
    cases hes
  | background _ => exact mem_answered hother.1 hother.2.2.1

/-! ## The law -/

/-- Events that touch no screen of a kind leave those that are alive. -/
theorem exec_tags {es : List App.Event} {app app' : App.State} {tags : App.State → List Bool}
    {after : List Bool → App.Event → List Bool} {k : Kind}
    (hstep : ∀ app app' a, App.step app a = some app' → tags app' = after (tags app) a)
    (hquiet : ∀ a alive, touches k a = false → after alive a = alive)
    (hs : exec App.step app es = some app') (hes : ∀ a ∈ es, touches k a = false) : tags app' = tags app :=
  exec_invariant (I := fun a => tags a = tags app) hs hes rfl fun a e a' h he hs => by
    rw [hstep a a' e hs, hquiet e _ he]
    exact h

theorem trainingsAfter_quiet (a : App.Event) (alive : List Bool) (h : touches .learning a = false) :
    trainingsAfter alive a = alive := by
  cases a with
  | training m =>
    cases m with
    | join _ => cases h
    | act _ e => cases e <;> first | rfl | cases h
  | _ => rfl

theorem detailsAfter_quiet (a : App.Event) (alive : List Bool) (h : touches .details a = false) :
    detailsAfter alive a = alive := by
  cases a with
  | details m =>
    cases m with
    | join _ => cases h
    | act _ e => cases e <;> first | rfl | cases h
  | _ => rfl

theorem background_untouched {a : App.Event} (h : byUser a = false) (k : Kind) : touches k a = false := by
  unfold touches
  split <;> first | rfl | cases h

theorem gone_untouched {attempts : List Nat} {a : App.Event} (ha : a ∈ gone attempts) (k : Kind) :
    touches k a = false := by
  obtain ⟨i, _, rfl⟩ := List.mem_map.mp ha
  cases k <;> rfl

theorem table_untouched (l : VerbList) (i : Nat) (e : Search.SearchTable.Event) (k : Kind) :
    touches k (l.table i e) = false := by
  cases l <;> cases k <;> rfl

/-- A turn that touches no screen of a kind. -/
theorem Turn.matches_of_untouched {es : List App.Event} (ht : Turn s u e es t)
    (hcalls : exec State.call s es = some u) {f : Nat → Controller} {k : Kind} {tags : App.State → List Bool}
    {after : List Bool → App.Event → List Bool} (hf : ∀ i, (f i).kind = k) (hk : k = .learning ∨ k = .details)
    (hafter : ∀ i a c, Controller.after a c = f i ↔ c = f i)
    (hstep : ∀ app app' a, App.step app a = some app' → tags app' = after (tags app) a)
    (hquiet : ∀ a alive, touches k a = false → after alive a = alive)
    (hes : ∀ a ∈ es, touches k a = false) (hm : Matches f (tags s.app) s.presented) :
    Matches f (tags t.app) t.presented := by
  intro i
  rw [ht.app_eq, exec_tags hstep hquiet (exec_call hcalls) hes, ← hm i, ← exec_mem hcalls (hafter i)]
  exact ht.mem hcalls (by rw [hf]; exact hk) (by rw [hf]; exact hes)

/-- A training or a Details screen that is last stands on others only. -/
theorem not_mem_under {c : Controller} {under : List Controller} (h : InOrder s.kinds)
    (hlast : s.presented = c :: under) (hc : c.kind = .learning ∨ c.kind = .details) : c ∉ under := by
  have hall : ∀ ks ∈ orders, ∀ k ∈ ks.head?, k = .learning ∨ k = .details → k ∉ ks.tail := by decide
  have hmem := inOrder_mem h
  unfold State.kinds at hmem
  rw [hlast, List.map_cons] at hmem
  intro hunder
  exact hall _ hmem c.kind rfl hc (List.mem_map_of_mem hunder)

theorem Turn.touches_learning {es : List App.Event} (ht : Turn s u e es t) :
    (∀ a ∈ es, touches .learning a = false) ∨
      (es = [.training (.join ())] ∧ t = u.present (.learning s.app.trainings.length)) ∨
      ∃ i under, s.presented = .learning i :: under ∧ es = [.training (.act i .backButtonDidTap)] ∧ t = u.dismiss := by
  cases ht with
  | active _ | noUser | alertAction _ | signUp _ | cellForRowAt _ _ | leaveVerbs _ =>
    exact Or.inl fun a ha => by cases ha
  | loginButton _ | refused _ | tapButton _ _ | details _ => exact Or.inl (List.forall_mem_singleton.mpr rfl)
  | leaveSignUp _ => exact Or.inl fun a ha => gone_untouched ha _
  | createNewAccount _ => exact Or.inl (List.forall_mem_cons.mpr ⟨rfl, fun a ha => gone_untouched ha _⟩)
  | searchBar _ _ => exact Or.inl (List.forall_mem_singleton.mpr (table_untouched _ _ _ _))
  | background hby => exact Or.inl (List.forall_mem_singleton.mpr (background_untouched hby _))
  | @menu row vc under _ =>
    cases vc with
    | learning => exact Or.inr (Or.inl ⟨rfl, rfl⟩)
    | allVerbs | favoriteVerbs => exact Or.inl (List.forall_mem_singleton.mpr rfl)
  | @learning e i under hlast =>
    by_cases hback : e = .backButtonDidTap
    · subst hback
      exact Or.inr (Or.inr ⟨i, under, hlast, rfl, if_pos rfl⟩)
    · refine Or.inl (List.forall_mem_singleton.mpr ?_)
      cases e <;> first | rfl | exact absurd rfl hback

theorem Turn.touches_details {es : List App.Event} (ht : Turn s u e es t) :
    (∀ a ∈ es, touches .details a = false) ∨
      (∃ verb, es = [.details (.join verb)] ∧ t = u.present (.details s.app.details.length)) ∨
      ∃ i under, s.presented = .details i :: under ∧ es = [.details (.act i .backButtonDidTap)] ∧ t = u.dismiss := by
  cases ht with
  | active _ | noUser | alertAction _ | signUp _ | cellForRowAt _ _ | leaveVerbs _ =>
    exact Or.inl fun a ha => by cases ha
  | loginButton _ | refused _ | learning _ => exact Or.inl (List.forall_mem_singleton.mpr rfl)
  | leaveSignUp _ => exact Or.inl fun a ha => gone_untouched ha _
  | createNewAccount _ => exact Or.inl (List.forall_mem_cons.mpr ⟨rfl, fun a ha => gone_untouched ha _⟩)
  | searchBar _ _ => exact Or.inl (List.forall_mem_singleton.mpr (table_untouched _ _ _ _))
  | background hby => exact Or.inl (List.forall_mem_singleton.mpr (background_untouched hby _))
  | @menu row vc under _ =>
    refine Or.inl (List.forall_mem_singleton.mpr ?_)
    cases vc <;> rfl
  | tapButton _ _ => exact Or.inr (Or.inl ⟨_, rfl, rfl⟩)
  | @details e i under hlast =>
    by_cases hback : e = .backButtonDidTap
    · subst hback
      exact Or.inr (Or.inr ⟨i, under, hlast, rfl, if_pos rfl⟩)
    · refine Or.inl (List.forall_mem_singleton.mpr ?_)
      cases e <;> first | rfl | exact absurd rfl hback

/-- The controllers over the root, with all screens that can be tapped. -/
structure Alive (s : State) : Prop where
  order : InOrder s.kinds
  trainings : Matches .learning (aliveTrainings s.app) s.presented
  details : Matches .details (aliveDetails s.app) s.presented

theorem call_presented {a : App.Event} (hcalls : exec State.call s [a] = some u) :
    App.step s.app a = some u.app ∧ u.presented = s.presented.map (Controller.after a) := by
  rw [exec_one] at hcalls
  exact call_eq_some hcalls

/-- A turn keeps the match for a kind of screens: it touches none of them, it opens one, or it closes
the last one. -/
theorem turn_matches {es : List App.Event} {f : Nat → Controller} {k : Kind} {tags : App.State → List Bool}
    {after : List Bool → App.Event → List Bool} (ho : InOrder s.kinds) (hm : Matches f (tags s.app) s.presented)
    (hcalls : exec State.call s es = some u) (ht : Turn s u e es t) (hinj : ∀ i j, f i = f j → i = j)
    (hf : ∀ i, (f i).kind = k) (hk : k = .learning ∨ k = .details)
    (hafter : ∀ i a c, Controller.after a c = f i ↔ c = f i)
    (hstep : ∀ app app' a, App.step app a = some app' → tags app' = after (tags app) a)
    (hquiet : ∀ a alive, touches k a = false → after alive a = alive)
    (htouch : (∀ a ∈ es, touches k a = false) ∨
      (∃ a, es = [a] ∧ t = u.present (f (tags s.app).length) ∧ ∀ alive, after alive a = alive ++ [true]) ∨
      ∃ a i under, s.presented = f i :: under ∧ es = [a] ∧ t = u.dismiss ∧ ∀ alive, after alive a = alive.set i false) :
    Matches f (tags t.app) t.presented := by
  have hmu : Matches f (tags s.app) u.presented := fun j => (exec_mem hcalls (hafter j)).trans (hm j)
  rcases htouch with hes | ⟨a, rfl, rfl, hopens⟩ | ⟨a, i, under, hlast, rfl, rfl, hcloses⟩
  · exact ht.matches_of_untouched hcalls hf hk hafter hstep hquiet hes hm
  · rw [present_app, hstep _ _ _ (call_presented hcalls).1, hopens]
    exact Moves.opens.matches hinj hmu
  · obtain ⟨happ, hpresented⟩ := call_presented hcalls
    have hu : u.presented = f i :: u.dismiss.presented := by
      unfold State.dismiss
      rw [hpresented, hlast, List.map_cons, (hafter i a (f i)).mpr rfl]
      rfl
    have hnot : f i ∉ u.dismiss.presented :=
      not_mem_under ((kinds_exec hcalls).symm ▸ ho) hu (by rw [hf]; exact hk)
    rw [dismiss_app, hstep _ _ _ happ, hcloses]
    exact (Moves.closes hu hnot).matches hinj hmu

theorem turn_alive {es : List App.Event} (h : Alive s) (ho : InOrder t.kinds)
    (hcalls : exec State.call s es = some u) (ht : Turn s u e es t) : Alive t := by
  refine ⟨ho, ?_, ?_⟩
  · refine turn_matches h.order h.trainings hcalls ht (fun _ _ heq => Controller.learning.inj heq)
      (fun _ => rfl) (Or.inl rfl) after_learning (fun _ _ _ => step_aliveTrainings) trainingsAfter_quiet ?_
    rcases ht.touches_learning with hes | ⟨hes, htu⟩ | ⟨i, under, hlast, hes, htu⟩
    · exact Or.inl hes
    · have hlength : (aliveTrainings s.app).length = s.app.trainings.length := List.length_map _
      exact Or.inr (Or.inl ⟨_, hes, hlength ▸ htu, fun _ => rfl⟩)
    · exact Or.inr (Or.inr ⟨_, i, under, hlast, hes, htu, fun _ => rfl⟩)
  · refine turn_matches h.order h.details hcalls ht (fun _ _ heq => Controller.details.inj heq)
      (fun _ => rfl) (Or.inr rfl) after_details (fun _ _ _ => step_aliveDetails) detailsAfter_quiet ?_
    rcases ht.touches_details with hes | ⟨verb, hes, htu⟩ | ⟨i, under, hlast, hes, htu⟩
    · exact Or.inl hes
    · have hlength : (aliveDetails s.app).length = s.app.details.length := List.length_map _
      exact Or.inr (Or.inl ⟨_, hes, hlength ▸ htu, fun _ => rfl⟩)
    · exact Or.inr (Or.inr ⟨_, i, under, hlast, hes, htu, fun _ => rfl⟩)

theorem run_alive {b : Backend} {user : Option String} {h : List (State × Event)}
    (hr : Run step (launch b user) h s) : Alive s := by
  have hstart : Standing True (launch b user) := run_standing .start fun _ _ _ => trivial
  have hall := hr.invariant (I := fun s => Standing True s ∧ Alive s) ⟨hstart, ⟨trivial, ?_, ?_⟩⟩
    fun v e w hv hs => by
      obtain ⟨es, u, hcalls, ht⟩ := step_cases hs
      have hw := step_standing hv.1 (fun _ => trivial) hs
      exact ⟨hw, turn_alive hv.2 hw.order hcalls ht⟩
  · exact hall.2
  · intro i
    simp [launch, App.launch, aliveTrainings]
  · intro i
    simp [launch, App.launch, aliveDetails]

/-- A training or a Details screen can only be the last one. -/
theorem mem_iff_last {c : Controller} (ho : InOrder s.kinds) (hc : c.kind = .learning ∨ c.kind = .details) :
    c ∈ s.presented ↔ s.presented.head? = some c := by
  constructor
  · intro hmem
    cases hs : s.presented with
    | nil =>
      rw [hs] at hmem
      cases hmem
    | cons c' under =>
      have hall : ∀ ks ∈ orders, ∀ k ∈ ks.tail, ¬ (k = .learning ∨ k = .details) := by decide
      have hks := inOrder_mem ho
      unfold State.kinds at hks
      rw [hs] at hmem hks
      rcases List.mem_cons.mp hmem with rfl | hunder
      · rfl
      · exact absurd hc (hall _ hks c.kind (List.mem_map_of_mem hunder))
  · exact List.mem_of_head?

/-- In every run a training screen is there without being dismissed exactly while its controller is the
last one over the root, and a Details screen has its view exactly then. So there is never a second one of
them that takes taps, and never one of each. -/
theorem only_the_last_screen_is_alive {b : Backend} {user : Option String} {h : List (State × Event)}
    (hr : Run step (launch b user) h s) :
    (∀ i, (∃ p, s.app.trainings[i]? = some p ∧ p.dismissed = false) ↔
      s.presented.head? = some (.learning i)) ∧
    ∀ i, (∃ p, s.app.details[i]? = some p ∧ p.presenter.view.isSome) ↔
      s.presented.head? = some (.details i) := by
  have halive := run_alive hr
  constructor
  · intro i
    rw [← mem_iff_last halive.order (Or.inl rfl), halive.trainings i]
    unfold aliveTrainings
    rw [List.getElem?_map, Option.map_eq_some_iff]
    simp
  · intro i
    rw [← mem_iff_last halive.order (Or.inr rfl), halive.details i]
    unfold aliveDetails
    rw [List.getElem?_map, Option.map_eq_some_iff]

/-- Back from a training to the menu, and then to another one. -/
theorem a_left_training_is_not_alive :
    ∃ h s, Run step (launch { accounts := ["user"] } none) h s ∧ s.app.trainings.length = 2 ∧
      (∃ p, s.app.trainings[1]? = some p ∧ p.dismissed = false) ∧
      ¬ ∃ p, s.app.trainings[0]? = some p ∧ p.dismissed = false := by
  have hexec : ∃ s, exec step (launch { accounts := ["user"] } none)
      (logIn ++ [.learning .backButtonDidTap, .menu 2]) = some s ∧ s.app.trainings.length = 2 ∧
      s.presented.head? = some (.learning 1) :=
    ⟨_, rfl, by decide, by decide⟩
  obtain ⟨s, hs, hlength, hlast⟩ := hexec
  obtain ⟨htrainings, _⟩ := only_the_last_screen_is_alive (run_of_exec hs)
  refine ⟨_, s, run_of_exec hs, hlength, (htrainings 1).mpr hlast, fun hleft => ?_⟩
  have hzero := (htrainings 0).mp hleft
  rw [hlast] at hzero
  cases hzero

end EasyVerbs.Navigation
