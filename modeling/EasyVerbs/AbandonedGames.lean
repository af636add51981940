-- The law of the games that are left: back does not invalidate the timer, so a
-- game that runs when its screen is dismissed goes on, and stores its score.
import Mathlib.Data.List.Induction
import EasyVerbs.GameClock
import EasyVerbs.SharedBestScore

open Runs Parties

namespace EasyVerbs.Learning

/-! ## A run without a game -/

/-- The events by which a game that has started goes on. -/
def Event.isPlay : Event → Bool
  | .goToNextVerb _ | .editText _ | .timerFires _ => true
  | _ => false

/-- The moves so far, and the same ones without the last game of a screen. -/
structure Moves where
  all : List (Move Unit Event) := []
  without : List (Move Unit Event) := []

/-- With a start tap on screen `i` its last game is a new one. -/
def Moves.next (i : Nat) (ms : Moves) (m : Move Unit Event) : Moves :=
  { all := ms.all ++ [m]
    without :=
      match m with
      | .join _ => ms.without ++ [m]
      | .act j (.startLearning _) => if j = i then ms.all else ms.without ++ [m]
      | .act j e => if j = i ∧ e.isPlay then ms.without else ms.without ++ [m] }

def movesOf (i : Nat) (h : List (Screens × Move Unit Event)) : Moves :=
  h.foldl (fun ms m => ms.next i m.2) {}

def Screens.playing (s : Screens) (i : Nat) : Bool := s.parties[i]?.any fun p => p.timers ≠ []

/-- The moves to a state in which screen `i` is left, as if the game that it leaves had never
been started. -/
def withoutLeftGame (i : Nat) (h : List (Screens × Move Unit Event)) (s : Screens) :
    List (Move Unit Event) :=
  if s.playing i then (movesOf i h).without else h.map Prod.snd

theorem movesOf_snoc (i : Nat) (h : List (Screens × Move Unit Event)) (s : Screens)
    (m : Move Unit Event) : movesOf i (h ++ [(s, m)]) = (movesOf i h).next i m := by
  simp [movesOf, List.foldl_append]

theorem movesOf_all (i : Nat) (h : List (Screens × Move Unit Event)) :
    (movesOf i h).all = h.map Prod.snd := by
  induction h using List.reverseRecOn with
  | nil => rfl
  | append_singleton h m ih =>
    rw [movesOf_snoc, List.map_append, ← ih]
    rfl

/-! ## What a left screen must not do -/

def NoTick (i : Nat) (h : List (Screens × Move Unit Event)) : Prop :=
  ∀ m ∈ h, ∀ timer, m.2 ≠ .act i (.timerFires timer)

/-- The game of screen `i`, which the moment `m` after the moments `h` leaves, is over: no run
from there ticks on that screen, and each stores what it stores without the game. -/
structure GameIsOver (user : String) (s₀ : Screens) (i : Nat) (h : List (Screens × Move Unit Event))
    (m : Screens × Move Unit Event) : Prop where
  no_tick : ∀ t h' u, Screens.step user m.1 m.2 = some t → Run (Screens.step user) t h' u → NoTick i h'
  same_scores : ∀ t h' u, Screens.step user m.1 m.2 = some t → Run (Screens.step user) t h' u →
    ∃ u', exec (Screens.step user) s₀ (withoutLeftGame i h m.1 ++ m.2 :: h'.map Prod.snd) = some u' ∧
      u'.store = u.store

def LeavesNoGame (s : Screens) : Move Unit Event → Prop
  | .act i .backButtonDidTap => s.playing i = false
  | _ => True

instance (s : Screens) : (m : Move Unit Event) → Decidable (LeavesNoGame s m)
  | .act i .backButtonDidTap => inferInstanceAs (Decidable (s.playing i = false))
  | .join _ | .act _ (.startLearning _) | .act _ (.goToNextVerb _) | .act _ (.editText _)
  | .act _ (.timerFires _) | .act _ (.downloadAnswered _) | .act _ .downloadDelivered
  | .act _ (.served _ _) | .act _ (.callback _) | .act _ (.failed _) | .act _ (.bestScoreBlock _)
  | .act _ (.applied _) | .act _ (.rejected _) => inferInstanceAs (Decidable True)

/-! ## A screen without its game -/

/-- The screen with another view, and no timer. -/
def Screen.unstarted (p : Screen) (view : LearningView) (nextTimer : Nat) : Screen :=
  { p with view := view, timers := [], nextTimer := nextTimer }

/-- The same screens, but for a game of screen `i`. -/
def WithoutGame (i : Nat) (s s' : Screens) : Prop :=
  ∃ p view nextTimer, s.parties[i]? = some p ∧
    s' = { s with parties := s.parties.set i (p.unstarted view nextTimer) }

def Event.isIdle : Event → Bool
  | .startLearning _ => false
  | e => !e.isPlay

/-- An event outside the games does the same to a screen without its game. -/
theorem step_idle {e : Event} (he : e.isIdle = true) (p : Screen) (view : LearningView) (nextTimer : Nat) :
    ∃ view', (p.unstarted view nextTimer).step e = (p.step e).map (·.unstarted view' nextTimer) := by
  unfold Screen.step
  cases e with
  | startLearning draw => cases he
  | goToNextVerb draw => cases he
  | editText text => cases he
  | timerFires timer => cases he
  | bestScoreBlock i =>
    cases hblock : p.blocks[i]? with
    | none =>
      refine ⟨view, ?_⟩
      simp [Screen.unstarted, hblock]
    | some document =>
      refine ⟨(bestScoreBlock document (p.unstarted view nextTimer)).view, ?_⟩
      simp only [Screen.unstarted, hblock]
      rfl
  | backButtonDidTap =>
    refine ⟨view, ?_⟩
    dsimp only
    rw [apply_ite (Option.map _)]
    rfl
  | downloadAnswered json =>
    refine ⟨view, ?_⟩
    simp only [Screen.unstarted, Option.map_map]
    rfl
  | downloadDelivered =>
    refine ⟨view, ?_⟩
    simp only [Screen.unstarted]
    split <;> rfl
  | served i documents =>
    refine ⟨view, ?_⟩
    simp only [Screen.unstarted, Option.map_map]
    rfl
  | callback i =>
    refine ⟨view, ?_⟩
    simp only [Screen.unstarted]
    split
    · rename_i query documents _
      cases query <;> rfl
    · rfl
  | failed i =>
    refine ⟨view, ?_⟩
    dsimp only
    rw [apply_ite (Option.map _)]
    rfl
  | applied i =>
    refine ⟨view, ?_⟩
    dsimp only
    rw [apply_ite (Option.map _)]
    rfl
  | rejected i =>
    refine ⟨view, ?_⟩
    dsimp only
    rw [apply_ite (Option.map _)]
    rfl

theorem act_idle {e : Event} (he : e.isIdle = true) (documents : List Document) (p : Screen)
    (view : LearningView) (nextTimer : Nat) :
    ∃ view', act documents (p.unstarted view nextTimer) e =
      (act documents p e).map fun r => (r.1, r.2.unstarted view' nextTimer) := by
  obtain ⟨view', hstep⟩ := step_idle he p view nextTimer
  refine ⟨view', ?_⟩
  unfold act
  cases e with
  | served i read =>
    dsimp only
    split
    · rw [hstep, Option.map_map, Option.map_map]
      rfl
    · rfl
  | applied i =>
    have hwrites : (p.unstarted view nextTimer).writes = p.writes := rfl
    dsimp only
    rw [hwrites, hstep]
    split
    · rw [Option.map_map, Option.map_map]
      rfl
    · rfl
  | _ =>
    dsimp only
    rw [hstep, Option.map_map, Option.map_map]
    rfl

/-! ## The events of a game -/

variable {p q : Screen} {e : Event} {i : Nat} {user : String} {s s' t u : Screens}
  {m : Move Unit Event} {h h' : List (Screens × Move Unit Event)} {documents : List Document}

theorem start_unstarted {draw : Draw} (hp : p.timers = []) (hs : p.step (.startLearning draw) = some q) :
    p = q.unstarted p.view p.nextTimer := by
  obtain ⟨_, rfl⟩ := step_startLearning hs
  unfold startLearning logicOfGame Screen.unstarted
  rw [← hp]

/-- An event of a game that runs on changes the view only. -/
theorem play_unstarted (hmode : StartMode p ∨ ∃ ticks, Playing p ticks) (he : e.isPlay = true)
    (hs : p.step e = some q) (hq : q.timers ≠ []) (view : LearningView) (nextTimer : Nat) :
    q.unstarted view nextTimer = p.unstarted view nextTimer := by
  cases e with
  | goToNextVerb draw =>
    obtain ⟨_, rfl⟩ := step_goToNextVerb hs
    unfold goToNextVerb
    split <;> rfl
  | editText text =>
    cases step_cases hs
    rfl
  | timerFires timer =>
    obtain ⟨htimer, rfl⟩ := step_timerFires hs
    obtain ⟨ticks, hplaying⟩ : ∃ ticks, Playing p ticks :=
      hmode.resolve_left fun hstart => hstart.timer_notMem timer htimer
    rcases actionForTimer_playing hplaying with ⟨_, hstart⟩ | ⟨htime, _⟩
    · exact absurd hstart.no_timer hq
    · have hzero : p.view.time - 1 ≠ 0 := by omega
      unfold actionForTimer
      dsimp only
      rw [if_neg hzero]
      rfl
  | _ => cases he

theorem getDocuments_dismissed (query : Query) (p : Screen) :
    (getDocuments query p).dismissed = p.dismissed := by
  unfold getDocuments
  split <;> rfl

theorem actionForTimer_dismissed (p : Screen) : (actionForTimer p).dismissed = p.dismissed := by
  unfold actionForTimer timeIsOver scoreUpdate scoreServerUpdate
  dsimp only
  split
  · split
    · exact getDocuments_dismissed _ _
    · rfl
  · rfl

/-- A dismissed screen stays so, and its timers and its callbacks are all that goes on. -/
theorem step_dismissed (hd : p.dismissed = true) (hs : p.step e = some q) :
    q.dismissed = true ∧ ((∃ timer, e = .timerFires timer) ∨ e.isIdle = true) := by
  cases step_cases hs with
  | startLearning hthere _ => simp [hd] at hthere
  | goToNextVerb hthere _ => simp [hd] at hthere
  | editText hthere _ => simp [hd] at hthere
  | back hthere => simp [hd] at hthere
  | @timerFires timer _ => exact ⟨(actionForTimer_dismissed p).trans hd, Or.inl ⟨timer, rfl⟩⟩
  | @callback i query documents _ => cases query <;> exact ⟨hd, Or.inr rfl⟩
  | _ => exact ⟨hd, Or.inr rfl⟩


theorem run_modes (hr : Run (Screens.step user) ⟨documents, []⟩ h s) :
    ∀ p ∈ s.parties, StartMode p ∨ ∃ ticks, Playing p ticks := by
  refine (all_parties (J := fun _ => True) (I := fun p => StartMode p ∨ ∃ ticks, Playing p ticks) hr
    ⟨trivial, by simp⟩ (fun _ => Or.inl (viewDidLoad_startMode _)) ?_).2
  intro d p e d' p' _ hmode ha
  have hs := (act_eq_some ha).1
  rcases hmode with hstart | ⟨ticks, hplaying⟩
  · have hfirst : StartMode p ∨ Playing p 0 := Or.inl hstart
    exact ⟨trivial, (step_mode hfirst hs).imp_right fun hp => ⟨_, hp⟩⟩
  · exact ⟨trivial, (step_mode (Or.inr hplaying) hs).imp_right fun hp => ⟨_, hp⟩⟩

/-! ## The run without the last game -/

theorem WithoutGame.step (hw : WithoutGame i s s') (hm : ∀ e, m = .act i e → e.isIdle = true)
    (hs : Screens.step user s m = some t) :
    ∃ t', Screens.step user s' m = some t' ∧ WithoutGame i t t' := by
  obtain ⟨p, view, nextTimer, hp, rfl⟩ := hw
  have hi : i < s.parties.length := lt_of_party hp
  cases m with
  | join n =>
    cases hs
    refine ⟨_, rfl, p, view, nextTimer, ?_, ?_⟩
    · rw [List.getElem?_append_left hi, hp]
    · dsimp only
      rw [List.set_append_left i _ hi]
  | act j e =>
    obtain ⟨p', d, q, hp', ha, rfl⟩ := step_act_eq_some hs
    by_cases hj : j = i
    · subst hj
      rw [hp] at hp'
      cases hp'
      obtain ⟨view', hact⟩ := act_idle (hm e rfl) s.store p view nextTimer
      rw [ha, Option.map_some] at hact
      have hself : (s.parties.set j (p.unstarted view nextTimer))[j]? = some (p.unstarted view nextTimer) :=
        List.getElem?_set_self hi
      refine ⟨_, step_act hself hact, q, view', nextTimer, List.getElem?_set_self hi, ?_⟩
      simp only [List.set_set]
    · have hother : (s.parties.set i (p.unstarted view nextTimer))[j]? = some p' := by
        rw [List.getElem?_set_ne (Ne.symm hj), hp']
      refine ⟨_, step_act hother ha, p, view, nextTimer, ?_, ?_⟩
      · dsimp only
        rw [List.getElem?_set_ne hj, hp]
      · dsimp only
        rw [List.set_comm _ _ (Ne.symm hj)]

theorem playing_iff : s.playing i = true ↔ ∃ p, s.parties[i]? = some p ∧ p.timers ≠ [] := by
  unfold Screens.playing
  cases s.parties[i]? <;> simp

/-- Only a start on screen `i` brings a game to it. -/
theorem playing_of_step (hm : ∀ draw, m ≠ .act i (.startLearning draw))
    (hs : Screens.step user s m = some t) (ht : t.playing i = true) : s.playing i = true := by
  obtain ⟨q, hq, htimers⟩ := playing_iff.mp ht
  cases hp : s.parties[i]? with
  | some p =>
    obtain ⟨q', hq', hstep⟩ := step_party hp hs
    rw [hq] at hq'
    cases hq'
    refine playing_iff.mpr ⟨p, hp, ?_⟩
    rcases hstep with rfl | ⟨e, rfl, ha⟩
    · exact htimers
    · rintro hnone
      have hsub := step_timers (act_eq_some ha).1 fun draw he => hm draw (by rw [he])
      rw [hnone] at hsub
      exact htimers (List.eq_nil_iff_forall_not_mem.mpr fun timer hmem => absurd (hsub timer hmem) (by simp))
  | none =>
    cases m with
    | join n =>
      cases hs
      have hi : i = s.parties.length := by
        have := List.getElem?_eq_none_iff.mp hp
        have := lt_of_party hq
        simp only [List.length_append, List.length_singleton] at this
        omega
      subst hi
      rw [List.getElem?_concat_length] at hq
      cases hq
      exact absurd (viewDidLoad_startMode (some user)).no_timer htimers
    | act j e =>
      obtain ⟨_, _, _, _, _, rfl⟩ := step_act_eq_some hs
      have := List.getElem?_eq_none_iff.mp hp
      have := lt_of_party hq
      rw [List.length_set] at this
      omega

theorem next_idle {ms : Moves} (hm : ∀ e, m = .act i e → e.isIdle = true) :
    (ms.next i m).without = ms.without ++ [m] := by
  cases m with
  | join n => rfl
  | act j e =>
    by_cases hj : j = i
    · subst hj
      have he := hm e rfl
      cases e with
      | startLearning draw => cases he
      | goToNextVerb draw => cases he
      | editText text => cases he
      | timerFires timer => cases he
      | _ => simp [Moves.next, Event.isPlay]
    · cases e <;> simp [Moves.next, hj]

/-- While a game runs on screen `i`, the moves without it lead to the same screens without it. -/
theorem run_withoutGame (hr : Run (Screens.step user) ⟨documents, []⟩ h s) (hp : s.playing i = true) :
    ∃ s', exec (Screens.step user) ⟨documents, []⟩ (movesOf i h).without = some s' ∧ WithoutGame i s s' := by
  induction hr with
  | start => simp [Screens.playing] at hp
  | @snoc h s t m hr hs ih =>
    rw [movesOf_snoc]
    by_cases hidle : ∀ e, m = .act i e → e.isIdle = true
    · have hbefore : s.playing i = true := by
        refine playing_of_step (fun draw hm => ?_) hs hp
        cases hidle _ hm
      obtain ⟨s', hs', hw⟩ := ih hbefore
      obtain ⟨t', ht', hw'⟩ := hw.step hidle hs
      rw [next_idle hidle]
      exact ⟨t', exec_snoc hs' ht', hw'⟩
    · push Not at hidle
      obtain ⟨e, rfl, he⟩ := hidle
      obtain ⟨p, d, q, hparty, ha, rfl⟩ := step_act_eq_some hs
      have hi : i < s.parties.length := lt_of_party hparty
      have hset : (s.parties.set i q)[i]? = some q := List.getElem?_set_self hi
      have hmode := run_modes hr p (List.mem_of_getElem? hparty)
      have hstep := (act_eq_some ha).1
      have hd : d = s.store := act_documents ha fun j hj => by simp [hj, Event.isIdle, Event.isPlay] at he
      subst hd
      cases e with
      | startLearning draw =>
        -- The game that runs now is the new one, and before it there was none.
        have hnone : p.timers = [] := by
          rcases hmode with hstart | ⟨ticks, hplaying⟩
          · exact hstart.no_timer
          · have hhidden := hplaying.game.start_hidden p.view.startGame.isHidden (by simp [LearningView.startHidden])
            rw [(step_startLearning hstep).1] at hhidden
            cases hhidden
        have hwithout : ((movesOf i h).next i (.act i (.startLearning draw))).without = (movesOf i h).all := by
          simp [Moves.next]
        rw [hwithout, movesOf_all]
        refine ⟨s, hr.exec, q, p.view, p.nextTimer, hset, ?_⟩
        rw [← start_unstarted hnone hstep, List.set_set, set_party hparty]
      | goToNextVerb _ | editText _ | timerFires _ =>
        have hplay : q.timers ≠ [] := by
          obtain ⟨q', hq', hne⟩ := playing_iff.mp hp
          rw [hset] at hq'
          cases hq'
          exact hne
        obtain ⟨s', hs', p', view, nextTimer, hp', rfl⟩ := ih (playing_of_step (by simp) hs hp)
        rw [hparty] at hp'
        cases hp'
        refine ⟨_, by simpa [Moves.next, Event.isPlay] using hs', q, view, nextTimer, hset, ?_⟩
        rw [play_unstarted hmode rfl hstep hplay, List.set_set]
      | _ => exact absurd rfl he

/-! ## After the back tap -/

def Screens.dismissed (s : Screens) (i : Nat) : Prop := ∃ p, s.parties[i]? = some p ∧ p.dismissed = true

/-- On a dismissed screen only its timers and its callbacks go on. -/
theorem dismissed_of_step (hd : s.dismissed i) (hs : Screens.step user s m = some t) :
    t.dismissed i ∧ ∀ e, m = .act i e → (∃ timer, e = .timerFires timer) ∨ e.isIdle = true := by
  obtain ⟨p, hp, hdismissed⟩ := hd
  obtain ⟨q, hq, hstep⟩ := step_party hp hs
  constructor
  · rcases hstep with rfl | ⟨e, _, ha⟩
    · exact ⟨_, hq, hdismissed⟩
    · exact ⟨_, hq, (step_dismissed hdismissed (act_eq_some ha).1).1⟩
  · rintro e rfl
    obtain ⟨p', _, q', hp', ha, _⟩ := step_act_eq_some hs
    rw [hp] at hp'
    cases hp'
    exact (step_dismissed hdismissed (act_eq_some ha).1).2

theorem back_dismissed (hs : Screens.step user s (.act i .backButtonDidTap) = some t) :
    t.dismissed i ∧ t.store = s.store ∧ t.playing i = s.playing i := by
  obtain ⟨p, d, q, hp, ha, rfl⟩ := step_act_eq_some hs
  have hi : i < s.parties.length := lt_of_party hp
  have hd : d = s.store := act_documents ha (by simp)
  cases step_cases (act_eq_some ha).1
  have hset : (s.parties.set i { p with dismissed := true })[i]? = some { p with dismissed := true } :=
    List.getElem?_set_self hi
  refine ⟨⟨_, hset, rfl⟩, hd, ?_⟩
  unfold Screens.playing
  rw [hp, hset]
  rfl

/-- A dismissed screen with no game never ticks. -/
theorem run_noTick (hd : t.dismissed i) (hp : t.playing i = false) (hr : Run (Screens.step user) t h u) :
    NoTick i h ∧ u.dismissed i ∧ u.playing i = false := by
  induction hr with
  | start => exact ⟨by simp [NoTick], hd, hp⟩
  | @snoc h s u m hr hs ih =>
    obtain ⟨hno, hds, hps⟩ := ih
    obtain ⟨hdu, honly⟩ := dismissed_of_step hds hs
    refine ⟨List.forall_mem_append.mpr ⟨hno, ?_⟩, hdu, ?_⟩
    · rintro _ hm timer
      rw [List.mem_singleton.mp hm]
      rintro rfl
      obtain ⟨p, _, _, hparty, ha, _⟩ := step_act_eq_some hs
      have htimer := (step_timerFires (act_eq_some ha).1).1
      have hplaying : s.playing i = true := playing_iff.mpr ⟨p, hparty, List.ne_nil_of_mem htimer⟩
      rw [hps] at hplaying
      cases hplaying
    · rw [← Bool.not_eq_true]
      intro hu
      have hplaying := playing_of_step (fun draw hm => ?_) hs hu
      · rw [hps] at hplaying
        cases hplaying
      · rcases honly _ hm with ⟨_, he⟩ | he
        · cases he
        · cases he

/-- Without a tick of the dismissed screen its game makes no difference. -/
theorem run_withoutTicks (hw : WithoutGame i t s') (hd : t.dismissed i)
    (hr : Run (Screens.step user) t h u) (hno : NoTick i h) :
    ∃ u', exec (Screens.step user) s' (h.map Prod.snd) = some u' ∧ WithoutGame i u u' ∧ u.dismissed i := by
  induction hr with
  | start => exact ⟨s', rfl, hw, hd⟩
  | @snoc h s u m _ hs ih =>
    obtain ⟨hno, hlast⟩ := List.forall_mem_append.mp hno
    obtain ⟨v, hv, hwv, hdv⟩ := ih hno
    obtain ⟨hdu, honly⟩ := dismissed_of_step hdv hs
    have hidle : ∀ e, m = .act i e → e.isIdle = true := by
      rintro e rfl
      refine (honly e rfl).resolve_left ?_
      rintro ⟨timer, rfl⟩
      exact hlast (s, _) (by simp) timer rfl
    obtain ⟨u', hu', hwu⟩ := hwv.step hidle hs
    rw [List.map_append]
    exact ⟨u', exec_snoc hv hu', hwu, hdu⟩

/-- A left game whose timer never fires again stores what is stored without it. -/
theorem a_left_game_without_ticks_stores_nothing (hr : Run (Screens.step user) ⟨documents, []⟩ h s)
    (hs : Screens.step user s (.act i .backButtonDidTap) = some t)
    (hr' : Run (Screens.step user) t h' u) (hno : NoTick i h') :
    ∃ u', exec (Screens.step user) ⟨documents, []⟩
        (withoutLeftGame i h s ++ .act i .backButtonDidTap :: h'.map Prod.snd) = some u' ∧
      u'.store = u.store := by
  unfold withoutLeftGame
  split
  · rename_i hp
    obtain ⟨s', hs', hw⟩ := run_withoutGame hr hp
    have hback : ∀ e, Move.act (N := Unit) i Event.backButtonDidTap = .act i e → e.isIdle = true := by
      rintro e he
      cases he
      rfl
    obtain ⟨t', ht', hwt⟩ := hw.step hback hs
    obtain ⟨u', hu', ⟨_, _, _, _, hu⟩, _⟩ := run_withoutTicks hwt (back_dismissed hs).1 hr' hno
    refine ⟨u', ?_, by rw [hu]⟩
    simp only [exec_append, hs', exec, Option.bind_some, ht', hu']
  · refine ⟨u, ?_, rfl⟩
    have hrun := ((hr.snoc hs).trans hr').exec
    simpa using hrun

/-! ## The law -/

/-- In every run of any number of screens, each game that is left is over, in that run and in
every other one from there, exactly when back is tapped on screens with no game only. -/
theorem left_games_are_over_iff_none_was_running (hr : Run (Screens.step user) ⟨documents, []⟩ h s) :
    (∀ m ∈ h, LeavesNoGame m.1 m.2) ↔
      ∀ h1 m h2 i, h = h1 ++ m :: h2 → m.2 = .act i .backButtonDidTap →
        GameIsOver user ⟨documents, []⟩ i h1 m := by
  constructor
  · rintro hall h1 ⟨s1, m⟩ h2 i rfl hm
    dsimp only at hm
    subst hm
    have hleaves : s1.playing i = false := hall (s1, .act i .backButtonDidTap) (by simp)
    obtain ⟨hr1, _⟩ := hr.split rfl
    have hno : ∀ t h' u, Screens.step user s1 (.act i .backButtonDidTap) = some t →
        Run (Screens.step user) t h' u → NoTick i h' := by
      intro t h' u ht hr'
      obtain ⟨hd, _, hp⟩ := back_dismissed ht
      exact (run_noTick hd (hp.trans hleaves) hr').1
    refine ⟨hno, fun t h' u ht hr' => ?_⟩
    exact a_left_game_without_ticks_stores_nothing hr1 ht hr' (hno t h' u ht hr')
  · rintro hover ⟨s1, m⟩ hm
    unfold LeavesNoGame
    split
    · rename_i _ i hmove
      dsimp only at hmove
      subst hmove
      obtain ⟨h1, h2, rfl⟩ := List.append_of_mem hm
      obtain ⟨_, t, ht, _⟩ := hr.split rfl
      rw [← Bool.not_eq_true]
      intro hplaying
      -- The timer that still runs can fire at once.
      obtain ⟨p, hp, htimers⟩ := playing_iff.mp ((back_dismissed ht).2.2.trans hplaying)
      obtain ⟨timer, htimer⟩ := List.exists_mem_of_ne_nil _ htimers
      have hfires : act t.store p (.timerFires timer) = some (t.store, actionForTimer p) := by
        simp [act, Screen.step, htimer]
      have hnext : Screens.step user t (.act i (.timerFires timer)) = some _ := step_act hp hfires
      exact (hover h1 _ h2 i rfl rfl).no_tick t _ _ ht (Run.start.snoc hnext) (t, .act i (.timerFires timer))
        (by simp) timer rfl
    · trivial

/-- A game is played to its end before its screen is left. -/
theorem a_finished_game_is_over :
    ∃ h s, exec (Screens.step "user") ⟨[userDocument 0], []⟩
        (aloneWith (oneStoredGame ++ [.backButtonDidTap])) = some s ∧
      Run (Screens.step "user") ⟨[userDocument 0], []⟩ h s ∧
      ∀ h1 m h2 i, h = h1 ++ m :: h2 → m.2 = .act i .backButtonDidTap →
        GameIsOver "user" ⟨[userDocument 0], []⟩ i h1 m := by
  have hsome : (exec (Screens.step "user") ⟨[userDocument 0], []⟩
      (aloneWith (oneStoredGame ++ [.backButtonDidTap]))).isSome = true := by decide
  exact ⟨_, _, (Option.some_get hsome).symm, run_of_isSome hsome,
    (left_games_are_over_iff_none_was_running (run_of_isSome hsome)).mp (by decide)⟩

/-- The first score is loaded, and a game has one right answer. -/
def runningGame : List Event := answered 0 [userDocument 0] ++ [.bestScoreBlock 0] ++ oneGoodAnswer

/-- The game goes on to its end, and its score is stored. -/
def goesOn : List Event :=
  List.replicate 65 (.timerFires 0) ++ answered 0 [userDocument 0] ++ [.applied 0]

theorem a_left_game_stores_its_score :
    ∃ s t u u',
      exec (Screens.step "user") ⟨[userDocument 0], []⟩ (aloneWith runningGame) = some s ∧
      Screens.step "user" s (.act 0 .backButtonDidTap) = some t ∧
      exec (Screens.step "user") t (goesOn.map (.act 0)) = some u ∧
      u.store.map (·.bestScore) = [1] ∧
      exec (Screens.step "user") ⟨[userDocument 0], []⟩
        (withoutLeftGame 0 (momentsOf (Screens.step "user") ⟨[userDocument 0], []⟩ (aloneWith runningGame)) s ++
          [.act 0 .backButtonDidTap]) = some u' ∧
      u'.store.map (·.bestScore) = [0] ∧
      ¬ GameIsOver "user" ⟨[userDocument 0], []⟩ 0
        (momentsOf (Screens.step "user") ⟨[userDocument 0], []⟩ (aloneWith runningGame))
        (s, .act 0 .backButtonDidTap) := by
  refine ⟨_, _, _, _, rfl, rfl, rfl, by decide, rfl, by decide, fun hover => ?_⟩
  exact hover.no_tick _ [(_, .act 0 (.timerFires 0))] _ rfl (Run.start.snoc rfl) _ (List.mem_singleton.mpr rfl) 0 rfl

end EasyVerbs.Learning
