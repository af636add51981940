-- The laws of the labels of a game: when the two counters on the screen are the
-- counters of the game.
import EasyVerbs.GameQuestions

open Runs

namespace EasyVerbs.Learning

/-- The labels show the counters. -/
def ShowsCounters (v : LearningView) : Prop :=
  v.scoreLabel.text = some (toString v.score) ∧ v.timerLabel.text = some (toString v.time)

/-- A tick or a right answer of the current game set the clock on the screen, and a right
answer of it set the score there, unless no game of the screen had a right answer. -/
def LabelsSet (h : List (Screen × Event)) (s : Screen) : Prop :=
  (0 < ticksOfGame h ∨ 0 < s.view.score) ∧ (0 < s.view.score ∨ ∀ m ∈ h, ¬ Scores m)

/-! ## What a step does to the counters and to their labels -/

/-- The score and the time, with the texts of their labels. -/
def LearningView.counters (v : LearningView) : (Int × Int) × Option String × Option String :=
  ((v.score, v.time), v.scoreLabel.text, v.timerLabel.text)

/-- The counters and their labels after an event. A start moves the counters alone. -/
def countersAfter (s : Screen) : Event → (Int × Int) × Option String × Option String
  | .startLearning _ => ((0, 60), s.view.scoreLabel.text, s.view.timerLabel.text)
  | .goToNextVerb _ =>
    if s.view.fieldForWriteVerb.text = s.view.currentEmptyVerb then
      ((s.view.score + 1, s.view.time + 5), some (toString (s.view.score + 1)),
        some (toString (s.view.time + 5)))
    else s.view.counters
  | .timerFires _ =>
    ((s.view.score, s.view.time - 1), s.view.scoreLabel.text, some (toString (s.view.time - 1)))
  | _ => s.view.counters

theorem logicOfGame_counters (r : Option IrregularVerb × Nat) (v : LearningView) :
    (v.logicOfGame r).counters = v.counters := by
  unfold LearningView.logicOfGame
  dsimp only
  split <;> rfl

theorem timeIsOver_counters (s : Screen) : (timeIsOver s).view.counters = s.view.counters := by
  unfold timeIsOver scoreUpdate scoreServerUpdate
  dsimp only
  split
  · simp only [getDocuments_view]
    rfl
  · rfl

theorem rightAnswer_counters (draw : Draw) (s : Screen) :
    (rightAnswer draw s).view.counters =
      ((s.view.score + 1, s.view.time + 5), some (toString (s.view.score + 1)),
        some (toString (s.view.time + 5))) := by
  have hq := logicOfGame_counters (s.presenter.randomElement draw)
    { s.view with fieldForWriteVerb := { s.view.fieldForWriteVerb with text := some "" } }
  simp only [LearningView.counters, Prod.mk.injEq] at hq
  obtain ⟨⟨hscore, htime⟩, _, _⟩ := hq
  simp only [rightAnswer, logicOfGame, LearningView.counters, hscore, htime]

theorem startLearning_counters (draw : Draw) (s : Screen) :
    (startLearning draw s).view.counters = ((0, 60), s.view.scoreLabel.text, s.view.timerLabel.text) :=
  logicOfGame_counters _ _

theorem step_counters {s t : Screen} {e : Event} (hs : s.step e = some t) :
    t.view.counters = countersAfter s e := by
  by_cases he : e.isGame
  · cases e with
    | startLearning draw =>
      obtain ⟨_, rfl⟩ := step_startLearning hs
      exact startLearning_counters draw s
    | goToNextVerb draw =>
      obtain ⟨_, rfl⟩ := step_goToNextVerb hs
      unfold goToNextVerb countersAfter
      split
      · exact rightAnswer_counters draw s
      · rfl
    | timerFires timer =>
      obtain ⟨_, rfl⟩ := step_timerFires hs
      unfold actionForTimer
      dsimp only
      split
      · exact timeIsOver_counters _
      · rfl
    | _ => cases he
  · obtain ⟨_, ⟨field, best, hv⟩, _⟩ := step_quiet (by simpa using he) hs
    rw [hv]
    cases e <;> first | rfl | exact absurd rfl he

/-! ## The score on the screen -/

theorem toString_injective {m n : Nat} (h : toString (m : Int) = toString (n : Int)) : m = n := by
  have hdigits : Nat.toDigits 10 m = Nat.toDigits 10 n := String.ofList_injective h
  have hm := Nat.ofDigitChars_ten_toDigits (n := m)
  rw [hdigits, Nat.ofDigitChars_ten_toDigits] at hm
  exact hm.symm

/-- The label shows the score of the last right answer, or 0 when there was none. -/
structure ScoreShown (h : List (Screen × Event)) (s : Screen) (n : Nat) : Prop where
  label : s.view.scoreLabel.text = some (toString (n : Int))
  score : s.view.score = n ∨ s.view.score = 0
  scored : n = 0 ↔ ∀ m ∈ h, ¬ Scores m

theorem ScoreShown.step {h : List (Screen × Event)} {s t : Screen} {e : Event} {n : Nat}
    (ih : ScoreShown h s n) (hs : s.step e = some t) : ∃ n', ScoreShown (h ++ [(s, e)]) t n' := by
  obtain ⟨hlabel, hscore, hscored⟩ := ih
  have hc := step_counters hs
  have hsnoc : (∀ m ∈ h ++ [(s, e)], ¬ Scores m) ↔ (∀ m ∈ h, ¬ Scores m) ∧ ¬ Scores (s, e) := by
    simp only [List.mem_append, List.mem_singleton, or_imp, forall_and, forall_eq]
  by_cases hsc : Scores (s, e)
  · -- a right answer
    obtain ⟨⟨draw, hdraw⟩, _, heq⟩ := scores_iff.mp hsc
    dsimp only at hdraw heq
    subst hdraw
    simp only [countersAfter, heq, if_true, LearningView.counters, Prod.mk.injEq] at hc
    obtain ⟨⟨hsc', _⟩, hlab, _⟩ := hc
    obtain ⟨k, hk⟩ : ∃ k : Nat, s.view.score = k := by
      rcases hscore with hn | hz
      · exact ⟨n, hn⟩
      · exact ⟨0, hz⟩
    refine ⟨k + 1, ?_, Or.inl ?_, ?_⟩
    · rw [hlab, hk]
      rfl
    · rw [hsc', hk]
      rfl
    · rw [hsnoc]
      simp [hsc]
  · have hsame : t.view.scoreLabel.text = s.view.scoreLabel.text ∧
        (t.view.score = s.view.score ∨ t.view.score = 0) := by
      cases e with
      | startLearning draw =>
        simp only [countersAfter, LearningView.counters, Prod.mk.injEq] at hc
        exact ⟨hc.2.1, Or.inr hc.1.1⟩
      | goToNextVerb draw =>
        have hne : s.view.fieldForWriteVerb.text ≠ s.view.currentEmptyVerb := fun heq =>
          hsc (scores_iff.mpr ⟨⟨draw, rfl⟩, by simp [hs], heq⟩)
        simp only [countersAfter, if_neg hne, LearningView.counters, Prod.mk.injEq] at hc
        exact ⟨hc.2.1, Or.inl hc.1.1⟩
      | _ =>
        simp only [countersAfter, LearningView.counters, Prod.mk.injEq] at hc
        exact ⟨hc.2.1, Or.inl hc.1.1⟩
    refine ⟨n, hsame.1.trans hlabel, ?_, ?_⟩
    · rcases hsame.2 with hsm | hz
      · rw [hsm]
        exact hscore
      · exact Or.inr hz
    · rw [hsnoc, hscored]
      simp [hsc]

theorem run_scoreShown {userID : Option String} {h : List (Screen × Event)} {s : Screen}
    (hr : Run Screen.step (viewDidLoad userID) h s) : ∃ n, ScoreShown h s n := by
  induction hr with
  | start =>
    refine ⟨0, ?_, Or.inl ?_, by simp⟩
    · cases userID <;> rfl
    · cases userID <;> rfl
  | snoc _ hs ih =>
    obtain ⟨n, hn⟩ := ih
    exact hn.step hs

/-! ## The time on the screen -/

/-- The label of the time before the first tick and the first right answer of a game: it is
empty, or it shows the end of the game before. -/
def TimeStale (v : LearningView) : Prop := v.timerLabel.text = none ∨ v.timerLabel.text = some "0"

/-- What the label of the time shows, in both modes of the screen. -/
structure TimeShown (h : List (Screen × Event)) (s : Screen) : Prop where
  start : s.timers = [] → TimeStale s.view
  set : s.timers ≠ [] → 0 < ticksOfGame h ∨ 0 < s.view.score →
    s.view.timerLabel.text = some (toString s.view.time)
  stale : s.timers ≠ [] → ticksOfGame h = 0 → s.view.score = 0 → TimeStale s.view

/-- An event that leaves the counters, the labels, the timers and the ticks. -/
theorem TimeShown.of_same {h : List (Screen × Event)} {s t : Screen} {e : Event} (ih : TimeShown h s)
    (hc : t.view.counters = s.view.counters) (ht : t.timers = s.timers)
    (htick : tickOf (ticksOfGame h) e = ticksOfGame h) : TimeShown (h ++ [(s, e)]) t := by
  simp only [LearningView.counters, Prod.mk.injEq] at hc
  obtain ⟨⟨hscore, htime⟩, _, hlabel⟩ := hc
  constructor
  · rw [ht, TimeStale, hlabel]
    exact ih.start
  · rw [ht, ticksOfGame_snoc, htick, hscore, htime, hlabel]
    exact ih.set
  · rw [ht, ticksOfGame_snoc, htick, hscore, TimeStale, hlabel]
    exact ih.stale

theorem Playing.timers_ne {s : Screen} {ticks : Nat} (hp : Playing s ticks) : s.timers ≠ [] := by
  obtain ⟨t, ht, _⟩ := hp.timer
  simp [ht]

theorem TimeShown.step {h : List (Screen × Event)} {s t : Screen} {e : Event} (ih : TimeShown h s)
    (hmode : StartMode s ∨ Playing s (ticksOfGame h)) (hscore : 0 ≤ s.view.score)
    (hs : s.step e = some t) : TimeShown (h ++ [(s, e)]) t := by
  have hc := step_counters hs
  by_cases he : e.isGame
  · cases e with
    | startLearning draw =>
      obtain ⟨hv, rfl⟩ := step_startLearning hs
      have hstart : StartMode s := hmode.resolve_right fun hp => by simp [hp.startGame_hidden] at hv
      simp only [countersAfter, LearningView.counters, Prod.mk.injEq] at hc
      obtain ⟨⟨hzero, _⟩, _, hlabel⟩ := hc
      refine ⟨fun hnil => absurd hnil (startLearning_playing draw hstart).timers_ne, fun _ hset => ?_,
        fun _ _ _ => ?_⟩
      · rw [ticksOfGame_snoc, hzero] at hset
        simp [tickOf] at hset
      · rw [TimeStale, hlabel]
        exact ih.start hstart.no_timer
    | goToNextVerb draw =>
      obtain ⟨hv, rfl⟩ := step_goToNextVerb hs
      have hp : Playing s (ticksOfGame h) := hmode.resolve_left fun hm => by simp [hm.nextVerb_hidden] at hv
      have htimers : (goToNextVerb draw s).timers = s.timers := by
        unfold goToNextVerb
        split
        · exact (rightAnswer_keeps draw s).2.2.2
        · rfl
      by_cases heq : s.view.fieldForWriteVerb.text = s.view.currentEmptyVerb
      · simp only [countersAfter, if_pos heq, LearningView.counters, Prod.mk.injEq] at hc
        obtain ⟨⟨hscore', htime⟩, _, hlabel⟩ := hc
        refine ⟨fun hnil => absurd (htimers ▸ hnil) hp.timers_ne, fun _ _ => ?_, fun _ _ hz => ?_⟩
        · rw [hlabel, htime]
        · omega
      · simp only [countersAfter, if_neg heq] at hc
        exact ih.of_same hc htimers rfl
    | timerFires timer =>
      obtain ⟨ht, rfl⟩ := step_timerFires hs
      have hp : Playing s (ticksOfGame h) := hmode.resolve_left fun hm => hm.timer_notMem timer ht
      simp only [countersAfter, LearningView.counters, Prod.mk.injEq] at hc
      obtain ⟨⟨_, htime⟩, _, hlabel⟩ := hc
      refine ⟨fun hnil => ?_, fun _ _ => by rw [hlabel, htime], fun _ hz _ => ?_⟩
      · rcases actionForTimer_playing hp with ⟨hone, _⟩ | ⟨_, hp'⟩
        · refine Or.inr ?_
          rw [hlabel, hone]
          rfl
        · exact absurd hnil hp'.timers_ne
      · rw [ticksOfGame_snoc] at hz
        simp [tickOf] at hz
    | _ => cases he
  · obtain ⟨ht, ⟨field, best, hv⟩, _⟩ := step_quiet (by simpa using he) hs
    refine ih.of_same (by rw [hv]; rfl) ht ?_
    cases e <;> first | rfl | exact absurd rfl he

theorem run_timeShown {userID : Option String} {h : List (Screen × Event)} {s : Screen}
    (hr : Run Screen.step (viewDidLoad userID) h s) : TimeShown h s := by
  induction hr with
  | start =>
    have hstart := viewDidLoad_startMode userID
    refine ⟨fun _ => Or.inl ?_, fun hne => absurd hstart.no_timer hne, fun hne => absurd hstart.no_timer hne⟩
    cases userID <;> rfl
  | snoc hr hs ih =>
    obtain ⟨n, hn⟩ := run_scoreShown hr
    refine ih.step (run_mode hr) ?_ hs
    rcases hn.score with hscore | hscore <;> omega

/-! ## The law of the counters -/

/-- In a game the labels show the counters exactly when the current game set them. -/
theorem labels_show_the_counters_iff_the_game_set_them {userID : Option String}
    {h : List (Screen × Event)} {s : Screen} (hr : Run Screen.step (viewDidLoad userID) h s)
    (hgame : s.timers ≠ []) : ShowsCounters s.view ↔ LabelsSet h s := by
  obtain ⟨n, hlabel, hscore, hscored⟩ := run_scoreShown hr
  have htime := run_timeShown hr
  have hplaying : Playing s (ticksOfGame h) := (run_mode hr).resolve_left fun hm => hgame hm.no_timer
  have hscoreLabel : s.view.scoreLabel.text = some (toString s.view.score) ↔
      0 < s.view.score ∨ ∀ m ∈ h, ¬ Scores m := by
    rw [hlabel, ← hscored]
    rcases hscore with heq | hz
    · rw [heq]
      simp
      omega
    · rw [hz]
      constructor
      · intro hsame
        exact Or.inr (toString_injective (n := 0) (Option.some.inj hsame))
      · rintro (hlt | rfl)
        · exact absurd hlt (Int.lt_irrefl 0)
        · rfl
  have htimeLabel : s.view.timerLabel.text = some (toString s.view.time) ↔
      0 < ticksOfGame h ∨ 0 < s.view.score := by
    refine ⟨fun hsame => ?_, htime.set hgame⟩
    by_contra hnone
    have hticks : ticksOfGame h = 0 := by omega
    have hzero : s.view.score = 0 := by omega
    have hsixty : s.view.time = 60 := by
      have := hplaying.game.time_eq
      omega
    rw [hsixty] at hsame
    rcases htime.stale hgame hticks hzero with hnil | hend
    · rw [hsame] at hnil
      cases hnil
    · rw [hsame] at hend
      exact absurd (Option.some.inj hend) (by decide)
  unfold ShowsCounters LabelsSet
  rw [hscoreLabel, htimeLabel]
  exact And.comm

/-- A right answer in the first game of the screen sets both labels. -/
theorem a_right_answer_sets_the_labels :
    ∃ s, exec Screen.step (viewDidLoad (some "user")) oneGoodAnswer = some s ∧ ShowsCounters s.view := by
  have hgame : (exec Screen.step (viewDidLoad (some "user")) oneGoodAnswer).map
      (fun s => (s.timers, s.view.score)) = some ([0], 1) := by decide
  obtain ⟨s, hs, hq⟩ := Option.map_eq_some_iff.mp hgame
  obtain ⟨htimers, hscore⟩ : s.timers = [0] ∧ s.view.score = 1 := by simpa using hq
  have hset : LabelsSet (momentsOf Screen.step (viewDidLoad (some "user")) oneGoodAnswer) s := by
    constructor
    · exact Or.inr (by omega)
    · exact Or.inl (by omega)
  exact ⟨s, hs, (labels_show_the_counters_iff_the_game_set_them (run_of_exec hs) (by simp [htimers])).mpr hset⟩

/-- A game with one point, up to its end, and the start of the next one, with a NEXT that is
no right answer. -/
def aSecondGame : List Event := oneGoodAnswer ++ List.replicate 65 (.timerFires 0) ++ startThenNext

/-- The labels of a game that just started: nothing in the first game, and in the next one the
score and the time that the game before had at its end. -/
theorem a_new_game_shows_old_counters :
    (∃ s, exec Screen.step (viewDidLoad (some "user")) [.startLearning ⟨0, 0⟩] = some s ∧
      s.timers ≠ [] ∧ s.view.time = 60 ∧ s.view.timerLabel.text = none ∧ ¬ ShowsCounters s.view) ∧
    ∃ s, exec Screen.step (viewDidLoad (some "user")) aSecondGame = some s ∧ s.timers ≠ [] ∧
      s.view.counters = ((0, 60), some "1", some "0") ∧ ¬ ShowsCounters s.view := by
  constructor
  · refine ⟨_, rfl, by decide, rfl, rfl, ?_⟩
    rintro ⟨_, htime⟩
    cases htime
  · have hgame : (exec Screen.step (viewDidLoad (some "user")) aSecondGame).map
        (fun s => (s.timers, s.view.counters)) = some ([1], ((0, 60), some "1", some "0")) := by decide
    obtain ⟨s, hs, hq⟩ := Option.map_eq_some_iff.mp hgame
    obtain ⟨htimers, hcounters⟩ := Prod.mk.inj hq
    refine ⟨s, hs, by simp [htimers], hcounters, fun hshows => ?_⟩
    simp only [LearningView.counters, Prod.mk.injEq] at hcounters
    obtain ⟨⟨hscore, _⟩, hlabel, _⟩ := hcounters
    have hsame := hshows.1
    rw [hlabel, hscore] at hsame
    exact absurd (Option.some.inj hsame) (by decide)

end EasyVerbs.Learning
