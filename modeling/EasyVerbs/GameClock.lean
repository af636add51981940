-- The laws of the game clock: the training screen shows its start or a game,
-- never a mix, and a game with the final score s ends at its tick 60 + 5s.
import EasyVerbs.LearningView

open Runs

namespace EasyVerbs.Learning

/-! ## The two modes -/

/-- The flags of the start elements: `startGame`, `bestScoreLabel`, `labelOverBestScore`. -/
def LearningView.startHidden (v : LearningView) : List Bool :=
  [v.startGame.isHidden, v.bestScoreLabel.isHidden, v.labelOverBestScore.isHidden]

/-- The flags of the nine game elements. -/
def LearningView.gameHidden (v : LearningView) : List Bool :=
  [v.nextVerb.isHidden, v.fieldForWriteVerb.isHidden, v.timerLabel.isHidden,
    v.scoreLabel.isHidden, v.labelOverTime.isHidden, v.labelOverScore.isHidden,
    v.pastSimpleLabel.isHidden, v.infinitiveLabel.isHidden, v.pastPerfectLabel.isHidden]

/-- The screen shows its start elements alone, and no timer of it is scheduled. -/
structure StartMode (s : Screen) : Prop where
  start_visible : ∀ hidden ∈ s.view.startHidden, hidden = false
  game_hidden : ∀ hidden ∈ s.view.gameHidden, hidden = true
  no_timer : s.timers = []

/-- The screen shows its game elements alone, one timer is scheduled, and the clock stands
at the time of a game that has had `ticks` ticks. -/
structure GameMode (s : Screen) (ticks : Nat) : Prop where
  start_hidden : ∀ hidden ∈ s.view.startHidden, hidden = true
  game_visible : ∀ hidden ∈ s.view.gameHidden, hidden = false
  one_timer : s.timers.length = 1
  time_left : 1 ≤ s.view.time
  time_eq : s.view.time = 60 + 5 * s.view.score - ticks

theorem StartMode.not_game {s : Screen} {ticks : Nat} (h : StartMode s) : ¬ GameMode s ticks := by
  intro hg
  have := hg.one_timer
  rw [h.no_timer] at this
  cases this

/-- One tick more, or a new game. -/
def tickOf (ticks : Nat) : Event → Nat
  | .startLearning _ => 0
  | .timerFires _ => ticks + 1
  | _ => ticks

/-- The ticks since the last start. -/
def ticksOfGame (h : List (Screen × Event)) : Nat := h.foldl (fun n m => tickOf n m.2) 0

theorem ticksOfGame_snoc (h : List (Screen × Event)) (s : Screen) (e : Event) :
    ticksOfGame (h ++ [(s, e)]) = tickOf (ticksOfGame h) e := by
  simp [ticksOfGame, List.foldl_append]

/-! ## What the handlers do to the clock and to the flags -/

@[simp] theorem getDocuments_view (q : Query) (s : Screen) : (getDocuments q s).view = s.view := by
  unfold getDocuments; split <;> rfl

@[simp] theorem getDocuments_timers (q : Query) (s : Screen) :
    (getDocuments q s).timers = s.timers := by
  unfold getDocuments; split <;> rfl

/-- A new question moves no flag and not the clock. -/
theorem logicOfGame_keeps (r : Option IrregularVerb × Nat) (v : LearningView) :
    (v.logicOfGame r).startHidden = v.startHidden ∧ (v.logicOfGame r).gameHidden = v.gameHidden ∧
      (v.logicOfGame r).time = v.time ∧ (v.logicOfGame r).score = v.score ∧
      (v.logicOfGame r).timer = v.timer := by
  unfold LearningView.logicOfGame
  dsimp only
  split <;> exact ⟨rfl, rfl, rfl, rfl, rfl⟩

theorem rightAnswer_keeps (draw : Draw) (s : Screen) :
    (rightAnswer draw s).view.startHidden = s.view.startHidden ∧
      (rightAnswer draw s).view.gameHidden = s.view.gameHidden ∧
      (rightAnswer draw s).view.timer = s.view.timer ∧ (rightAnswer draw s).timers = s.timers := by
  have hq := logicOfGame_keeps (s.presenter.randomElement draw)
    { s.view with fieldForWriteVerb := { s.view.fieldForWriteVerb with text := some "" } }
  exact ⟨hq.1, hq.2.1, hq.2.2.2.2, rfl⟩

/-- A right answer is worth a point and five seconds. -/
theorem rightAnswer_clock (draw : Draw) (s : Screen) :
    (rightAnswer draw s).view.time = s.view.time + 5 ∧
      (rightAnswer draw s).view.score = s.view.score + 1 := by
  have hq := logicOfGame_keeps (s.presenter.randomElement draw)
    { s.view with fieldForWriteVerb := { s.view.fieldForWriteVerb with text := some "" } }
  simp only [rightAnswer, logicOfGame, hq.2.2.1, hq.2.2.2.1]
  exact ⟨trivial, trivial⟩

/-- The end of a game brings back the start elements and takes the timer from the run loop. -/
theorem timeIsOver_view (s : Screen) :
    (timeIsOver s).view.startHidden = [false, false, false] ∧
      (timeIsOver s).view.gameHidden = List.replicate 9 true ∧
      (timeIsOver s).timers = s.timers.filter (fun t => s.view.timer ≠ some t) ∧
      (timeIsOver s).view.score = s.view.score := by
  unfold timeIsOver scoreUpdate scoreServerUpdate
  dsimp only
  split
  · simp only [getDocuments_view, getDocuments_timers]
    exact ⟨rfl, rfl, rfl, rfl⟩
  · exact ⟨rfl, rfl, rfl, rfl⟩

/-! ## The invariant -/

/-- A game that runs on the timer that the view names. -/
structure Playing (s : Screen) (ticks : Nat) : Prop where
  game : GameMode s ticks
  timer : ∃ t, s.timers = [t] ∧ s.view.timer = some t

/-! A control or a timer that takes an event tells the mode. -/

theorem StartMode.nextVerb_hidden {s : Screen} (h : StartMode s) : s.view.nextVerb.isHidden = true :=
  h.game_hidden _ (by simp [LearningView.gameHidden])

theorem StartMode.timer_notMem {s : Screen} (h : StartMode s) (timer : Nat) : timer ∉ s.timers := by
  rw [h.no_timer]
  exact List.not_mem_nil

theorem Playing.startGame_hidden {s : Screen} {ticks : Nat} (h : Playing s ticks) :
    s.view.startGame.isHidden = true :=
  h.game.start_hidden _ (by simp [LearningView.startHidden])

theorem StartMode.of_same {s t : Screen} (h : StartMode s) (ht : t.timers = s.timers)
    (h1 : t.view.startHidden = s.view.startHidden) (h2 : t.view.gameHidden = s.view.gameHidden) :
    StartMode t :=
  ⟨h1 ▸ h.start_visible, h2 ▸ h.game_hidden, ht ▸ h.no_timer⟩

theorem viewDidLoad_startMode (userID : Option String) : StartMode (viewDidLoad userID) := by
  unfold viewDidLoad
  refine ⟨?_, ?_, by simp⟩ <;>
    simp [LearningView.startHidden, LearningView.gameHidden, LearningView.setUpViews,
      LearningView.setupButtons, LearningView.setupLabels, LearningView.setupVerbsLabels,
      LearningView.setupOverLabels, LearningView.setUpFieldForWriteVerb]

theorem startLearning_playing {s : Screen} (draw : Draw) (h : StartMode s) :
    Playing (startLearning draw s) 0 := by
  have hq := logicOfGame_keeps (s.presenter.randomElement draw)
    (LearningView.showGame { s.view with time := 60, score := 0, timer := some s.nextTimer })
  unfold startLearning logicOfGame
  refine ⟨⟨?_, ?_, ?_, ?_, ?_⟩, s.nextTimer, ?_, hq.2.2.2.2⟩
  · dsimp only
    rw [hq.1]
    simp [LearningView.startHidden, LearningView.showGame]
  · dsimp only
    rw [hq.2.1]
    simp [LearningView.gameHidden, LearningView.showGame]
  · simp [h.no_timer]
  · dsimp only
    rw [hq.2.2.1]
    simp [LearningView.showGame]
  · dsimp only
    rw [hq.2.2.1, hq.2.2.2.1]
    simp [LearningView.showGame]
  · simp [h.no_timer]

theorem rightAnswer_playing {s : Screen} {ticks : Nat} (draw : Draw) (h : Playing s ticks) :
    Playing (rightAnswer draw s) ticks := by
  obtain ⟨hk1, hk2, hk3, hk4⟩ := rightAnswer_keeps draw s
  obtain ⟨htime, hscore⟩ := rightAnswer_clock draw s
  have := h.game.time_left
  have := h.game.time_eq
  exact ⟨⟨hk1 ▸ h.game.start_hidden, hk2 ▸ h.game.game_visible, hk4 ▸ h.game.one_timer,
    by omega, by omega⟩, by rw [hk3, hk4]; exact h.timer⟩

/-- A tick of a running game ends it when the clock stood at one, and else takes a second. -/
theorem actionForTimer_playing {s : Screen} {ticks : Nat} (h : Playing s ticks) :
    (s.view.time = 1 ∧ StartMode (actionForTimer s)) ∨
      (s.view.time ≠ 1 ∧ Playing (actionForTimer s) (ticks + 1)) := by
  unfold actionForTimer
  dsimp only
  split
  · rename_i hz
    refine Or.inl ⟨by omega, ?_⟩
    obtain ⟨t, ht, hv⟩ := h.timer
    obtain ⟨h1, h2, h3, _⟩ := timeIsOver_view { s with view := { s.view with
      time := s.view.time - 1
      timerLabel := { s.view.timerLabel with text := some (toString (s.view.time - 1)) } } }
    refine ⟨?_, ?_, ?_⟩
    · rw [h1]; simp
    · rw [h2]; simp
    · rw [h3]; simp [ht, hv]
  · rename_i hz
    refine Or.inr ⟨by omega, ?_⟩
    have := h.game.time_left
    have := h.game.time_eq
    exact ⟨⟨h.game.start_hidden, h.game.game_visible, h.game.one_timer, by dsimp only; omega,
      by dsimp only; push_cast; omega⟩, h.timer⟩

theorem actionForTimer_score (s : Screen) : (actionForTimer s).view.score = s.view.score := by
  unfold actionForTimer
  dsimp only
  split
  · rw [(timeIsOver_view _).2.2.2]
  · rfl

/-- Only a start brings a timer. -/
theorem step_timers {s t : Screen} {e : Event} (hs : s.step e = some t)
    (he : ∀ draw, e ≠ .startLearning draw) : ∀ timer ∈ t.timers, timer ∈ s.timers := by
  intro timer htimer
  by_cases hgame : e.isGame
  · cases e with
    | startLearning draw => exact absurd rfl (he draw)
    | goToNextVerb draw =>
      obtain ⟨_, rfl⟩ := step_goToNextVerb hs
      unfold goToNextVerb at htimer
      split at htimer
      · rwa [(rightAnswer_keeps draw s).2.2.2] at htimer
      · exact htimer
    | timerFires fired =>
      obtain ⟨_, rfl⟩ := step_timerFires hs
      unfold actionForTimer at htimer
      dsimp only at htimer
      split at htimer
      · rw [(timeIsOver_view _).2.2.1] at htimer
        exact List.mem_of_mem_filter htimer
      · exact htimer
    | _ => cases hgame
  · rwa [(step_quiet (by simpa using hgame) hs).timers] at htimer

/-- The other events move neither the clock nor the count of its ticks. -/
theorem tickOf_quiet {e : Event} (he : e.isGame = false) (ticks : Nat) : tickOf ticks e = ticks := by
  cases e <;> first | rfl | cases he

theorem step_startMode {s t : Screen} {e : Event} (ticks : Nat) (h : StartMode s) (hs : s.step e = some t) :
    StartMode t ∨ Playing t (tickOf ticks e) := by
  by_cases he : e.isGame
  · cases e with
    | startLearning draw =>
      obtain ⟨_, rfl⟩ := step_startLearning hs
      exact Or.inr (startLearning_playing draw h)
    | goToNextVerb draw =>
      obtain ⟨hv, _⟩ := step_goToNextVerb hs
      simp [h.nextVerb_hidden] at hv
    | timerFires timer => exact absurd (step_timerFires hs).1 (h.timer_notMem timer)
    | _ => cases he
  · obtain ⟨ht, ⟨field, best, hv⟩, _⟩ := step_quiet (by simpa using he) hs
    exact Or.inl (h.of_same ht (by rw [hv]; rfl) (by rw [hv]; rfl))

/-- A game goes on until the tick at which the clock stood at one. -/
theorem step_playing {s t : Screen} {e : Event} {ticks : Nat} (h : Playing s ticks) (hs : s.step e = some t) :
    (StartMode t ∧ s.view.time = 1 ∧ ∃ timer, e = .timerFires timer) ∨ Playing t (tickOf ticks e) := by
  by_cases he : e.isGame
  · cases e with
    | startLearning draw =>
      obtain ⟨hv, _⟩ := step_startLearning hs
      simp [h.startGame_hidden] at hv
    | goToNextVerb draw =>
      obtain ⟨_, rfl⟩ := step_goToNextVerb hs
      unfold goToNextVerb
      split
      · exact Or.inr (rightAnswer_playing draw h)
      · exact Or.inr h
    | timerFires timer =>
      obtain ⟨_, rfl⟩ := step_timerFires hs
      exact (actionForTimer_playing h).imp (fun hend => ⟨hend.2, hend.1, timer, rfl⟩) And.right
    | _ => cases he
  · obtain ⟨ht, ⟨field, best, hv⟩, _⟩ := step_quiet (by simpa using he) hs
    have h1 : t.view.startHidden = s.view.startHidden := by rw [hv]; rfl
    have h2 : t.view.gameHidden = s.view.gameHidden := by rw [hv]; rfl
    rw [tickOf_quiet (by simpa using he)]
    have htl : 1 ≤ t.view.time := by rw [hv]; exact h.game.time_left
    have hte : t.view.time = 60 + 5 * t.view.score - ticks := by rw [hv]; exact h.game.time_eq
    refine Or.inr ⟨⟨h1 ▸ h.game.start_hidden, h2 ▸ h.game.game_visible, ht ▸ h.game.one_timer, htl, hte⟩, ?_⟩
    obtain ⟨k, hk, hvk⟩ := h.timer
    exact ⟨k, by rw [ht, hk], by rw [hv]; exact hvk⟩

/-- What a step does to the mode of the screen. -/
theorem step_mode {s t : Screen} {e : Event} {ticks : Nat} (h : StartMode s ∨ Playing s ticks)
    (hs : s.step e = some t) : StartMode t ∨ Playing t (tickOf ticks e) := by
  rcases h with h | h
  · exact step_startMode ticks h hs
  · exact (step_playing h hs).imp_left And.left

theorem run_mode {userID : Option String} {h : List (Screen × Event)} {s : Screen}
    (hr : Run Screen.step (viewDidLoad userID) h s) :
    StartMode s ∨ Playing s (ticksOfGame h) := by
  induction hr with
  | start => exact Or.inl (viewDidLoad_startMode userID)
  | snoc _ hs ih =>
    rw [ticksOfGame_snoc]
    exact step_mode ih hs

/-! ## The law -/

/-- In every run the screen is in exactly one of its two modes. A timer fires only in a game,
and it ends the game exactly at the tick 60 + 5s of a game with score s, so the clock never
steps over zero. Nothing else ends a game. -/
theorem the_screen_is_in_one_of_two_modes {userID : Option String} {h : List (Screen × Event)}
    {s : Screen} (hr : Run Screen.step (viewDidLoad userID) h s) :
    (StartMode s ∧ ¬ GameMode s (ticksOfGame h) ∨ GameMode s (ticksOfGame h) ∧ ¬ StartMode s) ∧
      (∀ timer t, s.step (.timerFires timer) = some t →
        GameMode s (ticksOfGame h) ∧ t.view.score = s.view.score ∧
          (StartMode t ↔ ((ticksOfGame h + 1 : Nat) : Int) = 60 + 5 * s.view.score)) ∧
      ∀ e t, s.step e = some t → GameMode s (ticksOfGame h) →
        GameMode t (tickOf (ticksOfGame h) e) ∨ StartMode t ∧ ∃ timer, e = .timerFires timer := by
  have hmode := run_mode hr
  refine ⟨hmode.imp (fun hm => ⟨hm, hm.not_game⟩) fun hp => ⟨hp.game, fun hm => hm.not_game hp.game⟩, ?_, ?_⟩
  · intro timer t hs
    obtain ⟨ht, rfl⟩ := step_timerFires hs
    have hp : Playing s (ticksOfGame h) := hmode.resolve_left fun hm => hm.timer_notMem timer ht
    refine ⟨hp.game, actionForTimer_score s, ?_⟩
    have heq := hp.game.time_eq
    rcases actionForTimer_playing hp with ⟨htime, hm⟩ | ⟨htime, hp'⟩
    · exact ⟨fun _ => by push_cast; omega, fun _ => hm⟩
    · exact ⟨fun hm => absurd hp'.game hm.not_game, fun hlast => absurd (by push_cast at hlast; omega) htime⟩
  · intro e t hs hg
    have hp : Playing s (ticksOfGame h) := hmode.resolve_left fun hm => hm.not_game hg
    exact (step_playing hp hs).symm.imp Playing.game fun ⟨hm, _, htimer⟩ => ⟨hm, htimer⟩

/-- The first tick of a first game. -/
theorem the_first_tick_of_a_game :
    let s := startLearning ⟨0, 0⟩ (viewDidLoad none)
    GameMode s 0 ∧ ∀ t, s.step (.timerFires 0) = some t → ¬ StartMode t := by
  have hstart : exec Screen.step (viewDidLoad none) [.startLearning ⟨0, 0⟩] =
      some (startLearning ⟨0, 0⟩ (viewDidLoad none)) := rfl
  have hlaw := the_screen_is_in_one_of_two_modes (run_of_exec hstart)
  refine ⟨(hlaw.2.1 0 _ rfl).1, fun t ht hm => ?_⟩
  have := (hlaw.2.1 0 t ht).2.2.mp hm
  revert this
  decide

end EasyVerbs.Learning
