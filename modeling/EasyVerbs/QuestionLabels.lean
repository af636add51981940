-- The law of the question on the screen: three labels and an answer that are cut
-- from one drawn entry, whatever comes between two draws.
import EasyVerbs.GameQuestions

open Runs

namespace EasyVerbs.Learning

/-! ## What a question is -/

/-- The label of a form, under the number of its tense. -/
def LearningView.formLabel (v : LearningView) : Nat → UILabel
  | 1 => v.infinitiveLabel
  | 2 => v.pastSimpleLabel
  | _ => v.pastPerfectLabel

/-- The word is the first one of the form. A form that is missing has the empty word. -/
def IsFirstWordOf (word : String) : Option String → Prop
  | none => word = ""
  | some text => IsFirstWord word text

/-- The question for a tense of an entry: its form is hidden and is the answer, and the other
two labels show the first words of the other forms. -/
structure ShowsQuestion (v : LearningView) (verb : Option IrregularVerb) (tense : Nat) : Prop where
  form : 1 ≤ tense ∧ tense ≤ 3
  hidden : (v.formLabel tense).text = some "?"
  shown : ∀ other, 1 ≤ other → other ≤ 3 → other ≠ tense →
    ∃ word, (v.formLabel other).text = some word ∧ IsFirstWordOf word (verb.bind (hiddenForm other))
  answer : ∃ word, v.currentEmptyVerb = some word ∧ IsFirstWordOf word (verb.bind (hiddenForm tense))

/-- An entry of the vocabulary, or none when there is no entry. -/
def DrawnFrom (vocabulary : List IrregularVerb) (verb : Option IrregularVerb) : Prop :=
  vocabulary = [] ∧ verb = none ∨ ∃ v ∈ vocabulary, verb = some v

/-- A first word is the longest prefix with no space. -/
theorem isFirstWord_iff_longest (word text : String) :
    IsFirstWord word text ↔ word.toList <+: text.toList ∧ ' ' ∉ word.toList ∧
      ∀ p, p <+: text.toList → ' ' ∉ p → p.length ≤ word.toList.length := by
  constructor
  · rintro ⟨rest, htext, hspace, hrest⟩
    refine ⟨⟨rest, htext.symm⟩, hspace, fun p hp hps => ?_⟩
    by_contra hlt
    have hword : word.toList <+: p := by
      refine List.prefix_of_prefix_length_le ⟨rest, htext.symm⟩ hp ?_
      omega
    obtain ⟨tail, rfl⟩ := hword
    obtain ⟨more, hmore⟩ := hp
    rw [htext, List.append_assoc] at hmore
    have htail : tail ++ more = rest := List.append_cancel_left hmore
    rcases hrest with rfl | hhead
    · obtain ⟨rfl, _⟩ := List.append_eq_nil_iff.mp htail
      simp at hlt
    · cases tail with
      | nil => simp at hlt
      | cons c tail =>
        rw [← htail] at hhead
        obtain rfl : c = ' ' := Option.some.inj hhead
        simp at hps
  · rintro ⟨⟨rest, htext⟩, hspace, hlongest⟩
    refine ⟨rest, htext.symm, hspace, ?_⟩
    cases rest with
    | nil => exact Or.inl rfl
    | cons c rest =>
      refine Or.inr ?_
      by_contra hc
      have hlong := hlongest (word.toList ++ [c]) ⟨rest, by simp [← htext]⟩ (by
        simp only [List.mem_append, List.mem_singleton, not_or]
        exact ⟨hspace, fun h => hc (by rw [h]; rfl)⟩)
      simp only [List.length_append, List.length_singleton] at hlong
      omega

/-! ## The question that is drawn -/

/-- The four values that a question is stored in. -/
def LearningView.question (v : LearningView) : Option String × Option String × Option String × Option String :=
  (v.infinitiveLabel.text, v.pastSimpleLabel.text, v.pastPerfectLabel.text, v.currentEmptyVerb)

theorem ShowsQuestion.congr {v w : LearningView} {verb : Option IrregularVerb} {tense : Nat}
    (h : ShowsQuestion v verb tense) (hq : w.question = v.question) : ShowsQuestion w verb tense := by
  simp only [LearningView.question, Prod.mk.injEq] at hq
  obtain ⟨h1, h2, h3, h4⟩ := hq
  have hlabel : ∀ n, (w.formLabel n).text = (v.formLabel n).text := by
    intro n
    unfold LearningView.formLabel
    split <;> assumption
  refine ⟨h.form, ?_, fun other hlo hhi hne => ?_, ?_⟩
  · rw [hlabel]
    exact h.hidden
  · rw [hlabel]
    exact h.shown other hlo hhi hne
  · rw [h4]
    exact h.answer

theorem cut_isFirstWordOf (form : Option String) : IsFirstWordOf (LearningView.cut form) form := by
  cases form with
  | none => rfl
  | some text => exact cut_isFirstWord text

theorem logicOfGame_shows (verb : Option IrregularVerb) (tense : Fin 3) (v : LearningView) :
    ShowsQuestion (v.logicOfGame (verb, tense + 1)) verb (tense + 1) := by
  have hword : ∀ n, IsFirstWordOf (LearningView.cut (verb.bind (hiddenForm n))) (verb.bind (hiddenForm n)) :=
    fun n => cut_isFirstWordOf _
  refine ⟨by omega, ?_, fun other hlo hhi hne => ⟨_, ?_, hword other⟩, _, ?_, hword _⟩
  · match tense with
    | 0 => rfl
    | 1 => rfl
    | 2 => rfl
  · obtain rfl | rfl | rfl : other = 1 ∨ other = 2 ∨ other = 3 := by omega
    · match tense with
      | 0 => exact absurd rfl hne
      | 1 => rfl
      | 2 => rfl
    · match tense with
      | 0 => rfl
      | 1 => exact absurd rfl hne
      | 2 => rfl
    · match tense with
      | 0 => rfl
      | 1 => rfl
      | 2 => exact absurd rfl hne
  · match tense with
    | 0 => rfl
    | 1 => rfl
    | 2 => rfl

/-- The entry that a question is about. -/
def Question.verb (q : Question) : Option IrregularVerb :=
  q.vocabulary[q.draw.index % q.vocabulary.length]?

theorem Question.verb_drawnFrom (q : Question) : DrawnFrom q.vocabulary q.verb := by
  unfold Question.verb
  cases hv : q.vocabulary[q.draw.index % q.vocabulary.length]? with
  | some v => exact Or.inr ⟨v, List.mem_of_getElem? hv, rfl⟩
  | none =>
    refine Or.inl ⟨?_, rfl⟩
    by_contra hne
    have hlt := Nat.mod_lt q.draw.index (List.length_pos_iff.mpr hne)
    simp [hlt] at hv

/-- A question on the screen of the screen's own vocabulary. -/
theorem logicOfGame_shows_draw (draw : Draw) (s : Screen) :
    ShowsQuestion (logicOfGame draw s).view (Question.verb ⟨s.presenter.allVerbs, draw⟩) (draw.tense + 1) :=
  logicOfGame_shows _ draw.tense s.view

theorem rightAnswer_shows (draw : Draw) (s : Screen) :
    ShowsQuestion (rightAnswer draw s).view (Question.verb ⟨s.presenter.allVerbs, draw⟩) (draw.tense + 1) := by
  have h := logicOfGame_shows_draw draw { s with view := { s.view with
    fieldForWriteVerb := { s.view.fieldForWriteVerb with text := some "" } } }
  exact h.congr rfl

theorem startLearning_shows (draw : Draw) (s : Screen) :
    ShowsQuestion (startLearning draw s).view (Question.verb ⟨s.presenter.allVerbs, draw⟩) (draw.tense + 1) :=
  logicOfGame_shows_draw draw _

theorem timeIsOver_question (s : Screen) : (timeIsOver s).view.question = s.view.question := by
  unfold timeIsOver scoreUpdate scoreServerUpdate
  dsimp only
  split
  · simp only [getDocuments_view]
    rfl
  · rfl

theorem actionForTimer_question (s : Screen) : (actionForTimer s).view.question = s.view.question := by
  unfold actionForTimer
  dsimp only
  split
  · exact timeIsOver_question _
  · rfl

/-! ## The question of a run -/

/-- The screen shows the last question that was drawn. -/
def ShowsLast (h : List (Screen × Event)) (v : LearningView) : Prop :=
  ∀ q, lastQuestion h = some q → ShowsQuestion v q.verb (q.draw.tense + 1)

theorem ShowsLast.of_same {h : List (Screen × Event)} {s t : Screen} {e : Event}
    (ih : ShowsLast h s.view) (hd : drawnBy (s, e) = none) (hq : t.view.question = s.view.question) :
    ShowsLast (h ++ [(s, e)]) t.view := by
  intro q hlast
  rw [lastQuestion_snoc, hd, Option.none_or] at hlast
  exact (ih q hlast).congr hq

theorem ShowsLast.drawn {h : List (Screen × Event)} {s t : Screen} {e : Event} {q : Question}
    (hd : drawnBy (s, e) = some q) (hshows : ShowsQuestion t.view q.verb (q.draw.tense + 1)) :
    ShowsLast (h ++ [(s, e)]) t.view := by
  intro q' hlast
  rw [lastQuestion_snoc, hd, Option.some_or] at hlast
  cases hlast
  exact hshows

theorem ShowsLast.step {h : List (Screen × Event)} {s t : Screen} {e : Event}
    (ih : ShowsLast h s.view) (hs : s.step e = some t) : ShowsLast (h ++ [(s, e)]) t.view := by
  by_cases he : e.isGame
  · cases e with
    | startLearning draw =>
      obtain ⟨_, rfl⟩ := step_startLearning hs
      exact .drawn rfl (startLearning_shows draw s)
    | goToNextVerb draw =>
      obtain ⟨_, rfl⟩ := step_goToNextVerb hs
      unfold goToNextVerb
      split
      · rename_i heq
        exact .drawn (by simp only [drawnBy, if_pos heq]) (rightAnswer_shows draw s)
      · rename_i hne
        exact ih.of_same (by simp only [drawnBy, if_neg hne]) rfl
    | timerFires timer =>
      obtain ⟨_, rfl⟩ := step_timerFires hs
      exact ih.of_same rfl (actionForTimer_question s)
    | _ => cases he
  · obtain ⟨_, ⟨field, best, hv⟩, _⟩ := step_quiet (by simpa using he) hs
    have hd : drawnBy (s, e) = none := by cases e <;> first | rfl | exact absurd rfl he
    exact ih.of_same hd (by rw [hv]; rfl)

theorem run_showsLast {userID : Option String} {h : List (Screen × Event)} {s : Screen}
    (hr : Run Screen.step (viewDidLoad userID) h s) : ShowsLast h s.view := by
  induction hr with
  | start => exact fun q hlast => by cases hlast
  | snoc _ hs ih => exact ih.step hs

/-- A question was drawn in each game. -/
theorem run_lastQuestion {userID : Option String} {h : List (Screen × Event)} {s : Screen}
    (hr : Run Screen.step (viewDidLoad userID) h s) (hgame : s.timers ≠ []) :
    ∃ q, lastQuestion h = some q := by
  induction hr with
  | start => exact absurd (viewDidLoad_startMode userID).no_timer hgame
  | @snoc h s t e hr hs ih =>
    rw [lastQuestion_snoc]
    by_cases hstart : ∃ draw, e = .startLearning draw
    · obtain ⟨draw, rfl⟩ := hstart
      exact ⟨_, rfl⟩
    · have hbefore : s.timers ≠ [] := by
        intro hnil
        refine hgame (List.eq_nil_iff_forall_not_mem.mpr fun timer htimer => ?_)
        have hmem := step_timers hs (fun draw he => hstart ⟨draw, he⟩) timer htimer
        rw [hnil] at hmem
        cases hmem
      obtain ⟨q, hq⟩ := ih hbefore
      cases hd : drawnBy (s, e) with
      | none => exact ⟨q, by rw [hq]; rfl⟩
      | some q' => exact ⟨q', rfl⟩

/-! ## The law -/

/-- In a game the screen holds one question, cut from an entry of the vocabulary that it was
drawn from. NEXT can be tapped until the screen is dismissed: on the answer it gives a point
and five seconds, clears the field and draws a new question, and else it changes nothing. -/
theorem the_screen_holds_one_question {userID : Option String} {h : List (Screen × Event)} {s : Screen}
    (hr : Run Screen.step (viewDidLoad userID) h s) (hgame : s.timers ≠ []) :
    (∃ q verb, lastQuestion h = some q ∧ DrawnFrom q.vocabulary verb ∧
      ShowsQuestion s.view verb (q.draw.tense + 1)) ∧
    ∀ draw, (s.dismissed = false → (s.step (.goToNextVerb draw)).isSome) ∧
      ∀ t, s.step (.goToNextVerb draw) = some t →
        if s.view.fieldForWriteVerb.text = s.view.currentEmptyVerb then
          t.view.score = s.view.score + 1 ∧ t.view.time = s.view.time + 5 ∧
            t.view.fieldForWriteVerb.text = some "" ∧
            ∃ verb, DrawnFrom s.presenter.allVerbs verb ∧ ShowsQuestion t.view verb (draw.tense + 1)
        else t = s := by
  constructor
  · obtain ⟨q, hq⟩ := run_lastQuestion hr hgame
    exact ⟨q, q.verb, hq, q.verb_drawnFrom, run_showsLast hr q hq⟩
  · intro draw
    constructor
    · intro hdismissed
      have hp := (run_mode hr).resolve_left fun hm => hgame hm.no_timer
      have hvisible := hp.game.game_visible s.view.nextVerb.isHidden (by simp [LearningView.gameHidden])
      simp [Screen.step, hdismissed, hvisible]
    · intro t hs
      obtain ⟨_, rfl⟩ := step_goToNextVerb hs
      unfold goToNextVerb
      split
      · obtain ⟨htime, hscore⟩ := rightAnswer_clock draw s
        exact ⟨hscore, htime, rightAnswer_field draw s, _,
          Question.verb_drawnFrom ⟨s.presenter.allVerbs, draw⟩, rightAnswer_shows draw s⟩
      · rfl

/-- The question that a right answer draws. -/
theorem a_right_answer_draws_a_question :
    ∃ s, exec Screen.step (viewDidLoad (some "user")) oneGoodAnswer = some s ∧
      ∃ q verb, lastQuestion (momentsOf Screen.step (viewDidLoad (some "user")) oneGoodAnswer) = some q ∧
        DrawnFrom q.vocabulary verb ∧ ShowsQuestion s.view verb (q.draw.tense + 1) := by
  have hgame : (exec Screen.step (viewDidLoad (some "user")) oneGoodAnswer).map (·.timers) = some [0] := by
    decide
  obtain ⟨s, hs, htimers⟩ := Option.map_eq_some_iff.mp hgame
  exact ⟨s, hs, (the_screen_holds_one_question (run_of_exec hs) (by simp [htimers])).1⟩

end EasyVerbs.Learning
