-- The laws of the questions of a game: the answer on the screen is the first
-- word of a form of a drawn entry, and a point that is not earned comes only
-- from an empty answer.
import EasyVerbs.GameClock

open Runs

namespace EasyVerbs.Learning

/-! ## Words and questions -/

/-- The first word of a text: its longest prefix with no space. -/
def IsFirstWord (word text : String) : Prop :=
  ∃ rest, text.toList = word.toList ++ rest ∧ ' ' ∉ word.toList ∧ (rest = [] ∨ rest.head? = some ' ')

/-- The form that a question of this tense hides. -/
def hiddenForm (tense : Nat) (verb : IrregularVerb) : Option String :=
  match tense with
  | 1 => verb.infinitive
  | 2 => verb.pastSimple
  | _ => verb.pastParticiple

/-- The vocabulary that the presenter held when a question was drawn, and the draw. -/
structure Question where
  vocabulary : List IrregularVerb
  draw : Draw

/-- The question that a moment draws. -/
def drawnBy (m : Screen × Event) : Option Question :=
  match m.2 with
  | .startLearning draw => some ⟨m.1.presenter.allVerbs, draw⟩
  | .goToNextVerb draw =>
    if m.1.view.fieldForWriteVerb.text = m.1.view.currentEmptyVerb then
      some ⟨m.1.presenter.allVerbs, draw⟩
    else none
  | _ => none

/-- The question on the screen after these moments. -/
def lastQuestion (h : List (Screen × Event)) : Option Question := (h.filterMap drawnBy).getLast?

/-- NEXT adds to the score. -/
def Scores (m : Screen × Event) : Prop :=
  ∃ draw t, m.2 = .goToNextVerb draw ∧ m.1.step m.2 = some t ∧ m.1.view.score < t.view.score

/-- A text that earns a point: it is not empty, and it is the first word of the hidden form
of an entry of the vocabulary that the question was drawn from. -/
def Earns (q : Question) (text : String) : Prop :=
  text ≠ "" ∧ ∃ verb ∈ q.vocabulary, ∃ form,
    hiddenForm (q.draw.tense + 1) verb = some form ∧ IsFirstWord text form

/-- Each point of these moments was earned. -/
def AllEarned (h : List (Screen × Event)) : Prop :=
  ∀ h1 m h2, h = h1 ++ m :: h2 → Scores m →
    ∃ q text, lastQuestion h1 = some q ∧ m.1.view.fieldForWriteVerb.text = some text ∧ Earns q text

/-- NEXT with an empty field, when the answer of the question on the screen is empty too. -/
def takesEmptyAnswer (m : Screen × Event) : Bool :=
  match m.2 with
  | .goToNextVerb _ =>
    m.1.view.fieldForWriteVerb.text = some "" ∧ m.1.view.currentEmptyVerb = some ""
  | _ => false

/-- There is nothing to answer: the draw finds no entry or no form, or the form has no word before its
first space. -/
def HasNoWord (q : Question) : Prop :=
  ∀ verb form, q.vocabulary[q.draw.index % q.vocabulary.length]? = some verb →
    hiddenForm (q.draw.tense + 1) verb = some form → form.toList.head?.all (· == ' ') = true

/-! ## The answer of a question -/

/-- What `logicOfGame` stores as the answer. -/
def answerOf (q : Question) : String :=
  LearningView.cut ((q.vocabulary[q.draw.index % q.vocabulary.length]?).bind
    (hiddenForm (q.draw.tense + 1)))

theorem cut_isFirstWord (text : String) : IsFirstWord (LearningView.cut (some text)) text := by
  refine ⟨text.toList.dropWhile (· != ' '), ?_, ?_, ?_⟩
  · simp [LearningView.cut, List.takeWhile_append_dropWhile]
  · intro hsp
    have hall := List.all_takeWhile (p := (· != ' ')) (l := text.toList)
    rw [List.all_eq_true] at hall
    simpa using hall ' ' (by simpa [LearningView.cut] using hsp)
  · cases hd : text.toList.dropWhile (· != ' ') with
    | nil => exact Or.inl rfl
    | cons c rest =>
      refine Or.inr ?_
      have := List.head?_dropWhile_not (· != ' ') text.toList
      rw [hd] at this
      simpa using this

theorem logicOfGame_answer (draw : Draw) (s : Screen) :
    (logicOfGame draw s).view.currentEmptyVerb = some (answerOf ⟨s.presenter.allVerbs, draw⟩) := by
  obtain ⟨i, tense⟩ := draw
  match tense with
  | 0 => rfl
  | 1 => rfl
  | 2 => rfl

/-- An answer that is not empty is the first word of a form of an entry. -/
theorem answerOf_earns (q : Question) (h : answerOf q ≠ "") : Earns q (answerOf q) := by
  refine ⟨h, ?_⟩
  unfold answerOf at h ⊢
  cases hv : q.vocabulary[q.draw.index % q.vocabulary.length]? with
  | none => simp [hv, LearningView.cut] at h
  | some verb =>
    refine ⟨verb, List.mem_of_getElem? hv, ?_⟩
    simp only [hv, Option.bind_some] at h ⊢
    cases hf : hiddenForm (q.draw.tense + 1) verb with
    | none => simp [hf, LearningView.cut] at h
    | some form => exact ⟨form, rfl, cut_isFirstWord form⟩

theorem cut_eq_empty {text : String} :
    LearningView.cut (some text) = "" ↔ text.toList.head?.all (· == ' ') = true := by
  rw [← String.toList_eq_nil_iff]
  cases hl : text.toList with
  | nil => simp [LearningView.cut, hl]
  | cons c rest =>
    by_cases hc : c = ' ' <;> simp [LearningView.cut, hl, hc]

theorem answerOf_eq_empty {q : Question} : answerOf q = "" ↔ HasNoWord q := by
  unfold answerOf HasNoWord
  constructor
  · rintro h verb form hv hf
    rw [hv, Option.bind_some, hf] at h
    exact cut_eq_empty.mp h
  · intro h
    cases hv : q.vocabulary[q.draw.index % q.vocabulary.length]? with
    | none => rfl
    | some verb =>
      rw [Option.bind_some]
      cases hf : hiddenForm (q.draw.tense + 1) verb with
      | none => rfl
      | some form => exact cut_eq_empty.mpr (h verb form hv hf)

/-! ## The question on the screen -/

theorem lastQuestion_snoc (h : List (Screen × Event)) (m : Screen × Event) :
    lastQuestion (h ++ [m]) = (drawnBy m).or (lastQuestion h) := by
  unfold lastQuestion
  rw [List.filterMap_append]
  cases hm : drawnBy m with
  | none => simp [hm]
  | some q => simp [hm]

theorem timeIsOver_answer (s : Screen) :
    (timeIsOver s).view.currentEmptyVerb = s.view.currentEmptyVerb := by
  unfold timeIsOver scoreUpdate scoreServerUpdate
  dsimp only
  split
  · simp only [getDocuments_view]
    rfl
  · rfl

theorem actionForTimer_answer (s : Screen) :
    (actionForTimer s).view.currentEmptyVerb = s.view.currentEmptyVerb := by
  unfold actionForTimer
  dsimp only
  split
  · rw [timeIsOver_answer]
  · rfl

theorem rightAnswer_answer (draw : Draw) (s : Screen) :
    (rightAnswer draw s).view.currentEmptyVerb = some (answerOf ⟨s.presenter.allVerbs, draw⟩) :=
  logicOfGame_answer draw { s with view := { s.view with
    fieldForWriteVerb := { s.view.fieldForWriteVerb with text := some "" } } }

theorem startLearning_answer (draw : Draw) (s : Screen) :
    (startLearning draw s).view.currentEmptyVerb = some (answerOf ⟨s.presenter.allVerbs, draw⟩) :=
  logicOfGame_answer draw _

/-- A step keeps the answer of the last question in the view. -/
theorem step_answer {s t : Screen} {e : Event} {h : List (Screen × Event)}
    (ih : s.view.currentEmptyVerb = (lastQuestion h).map answerOf) (hs : s.step e = some t) :
    t.view.currentEmptyVerb = (lastQuestion (h ++ [(s, e)])).map answerOf := by
  rw [lastQuestion_snoc]
  by_cases he : e.isGame
  · cases e with
    | startLearning draw =>
      obtain ⟨_, rfl⟩ := step_startLearning hs
      exact startLearning_answer draw s
    | goToNextVerb draw =>
      obtain ⟨_, rfl⟩ := step_goToNextVerb hs
      unfold goToNextVerb drawnBy
      dsimp only
      split
      · exact rightAnswer_answer draw s
      · exact ih
    | timerFires timer =>
      obtain ⟨_, rfl⟩ := step_timerFires hs
      rw [actionForTimer_answer]
      exact ih
    | _ => cases he
  · obtain ⟨_, ⟨field, best, hv⟩, _⟩ := step_quiet (by simpa using he) hs
    have hd : drawnBy (s, e) = none := by cases e <;> first | rfl | exact absurd rfl he
    rw [hd, hv]
    exact ih

theorem run_answer {userID : Option String} {h : List (Screen × Event)} {s : Screen}
    (hr : Run Screen.step (viewDidLoad userID) h s) :
    s.view.currentEmptyVerb = (lastQuestion h).map answerOf := by
  induction hr with
  | start => cases userID <;> rfl
  | snoc _ hs ih => exact step_answer ih hs

theorem logicOfGame_field (r : Option IrregularVerb × Nat) (v : LearningView) :
    (v.logicOfGame r).fieldForWriteVerb = v.fieldForWriteVerb := by
  unfold LearningView.logicOfGame
  dsimp only
  split <;> rfl

theorem rightAnswer_field (draw : Draw) (s : Screen) :
    (rightAnswer draw s).view.fieldForWriteVerb.text = some "" := by
  simp [rightAnswer, logicOfGame, logicOfGame_field]

theorem startLearning_field (draw : Draw) (s : Screen) :
    (startLearning draw s).view.fieldForWriteVerb.text = s.view.fieldForWriteVerb.text := by
  simp [startLearning, logicOfGame, logicOfGame_field, LearningView.showGame]

theorem timeIsOver_field (s : Screen) :
    (timeIsOver s).view.fieldForWriteVerb.text = some "" := by
  unfold timeIsOver scoreUpdate scoreServerUpdate
  dsimp only
  split
  · simp
  · rfl

/-- The field always holds a text. -/
theorem run_field {userID : Option String} {h : List (Screen × Event)} {s : Screen}
    (hr : Run Screen.step (viewDidLoad userID) h s) : s.view.fieldForWriteVerb.text.isSome := by
  refine hr.invariant (I := fun s => s.view.fieldForWriteVerb.text.isSome = true) ?_ ?_
  · cases userID <;> rfl
  · intro s e t ih hs
    by_cases he : e.isGame
    · cases e with
      | startLearning draw =>
        obtain ⟨_, rfl⟩ := step_startLearning hs
        rw [startLearning_field]
        exact ih
      | goToNextVerb draw =>
        obtain ⟨_, rfl⟩ := step_goToNextVerb hs
        unfold goToNextVerb
        split
        · simp [rightAnswer_field]
        · exact ih
      | timerFires timer =>
        obtain ⟨_, rfl⟩ := step_timerFires hs
        unfold actionForTimer
        dsimp only
        split
        · simp [timeIsOver_field]
        · exact ih
      | _ => cases he
    · exact (step_quiet (by simpa using he) hs).field ih

/-! ## The law -/

/-- NEXT scores exactly when the text in the field is the stored answer. -/
theorem scores_iff {m : Screen × Event} :
    Scores m ↔ (∃ draw, m.2 = .goToNextVerb draw) ∧ (m.1.step m.2).isSome ∧
      m.1.view.fieldForWriteVerb.text = m.1.view.currentEmptyVerb := by
  obtain ⟨s, e⟩ := m
  constructor
  · rintro ⟨draw, t, rfl, hs, hlt⟩
    refine ⟨⟨draw, rfl⟩, by simp [hs], ?_⟩
    obtain ⟨_, rfl⟩ := step_goToNextVerb hs
    by_contra hne
    rw [goToNextVerb, if_neg hne] at hlt
    exact Int.lt_irrefl _ hlt
  · rintro ⟨⟨draw, rfl⟩, hsome, heq⟩
    obtain ⟨t, hs⟩ := Option.isSome_iff_exists.mp hsome
    refine ⟨draw, t, rfl, hs, ?_⟩
    obtain ⟨_, rfl⟩ := step_goToNextVerb hs
    dsimp only at heq ⊢
    rw [goToNextVerb, if_pos heq, (rightAnswer_clock draw s).2]
    omega

/-- Each point of a run is earned exactly when no NEXT takes an empty answer. -/
theorem allEarned_iff {userID : Option String} {h : List (Screen × Event)} {s : Screen}
    (hr : Run Screen.step (viewDidLoad userID) h s) :
    AllEarned h ↔ ∀ m ∈ h, takesEmptyAnswer m = false := by
  constructor
  · intro hall m hm
    obtain ⟨h1, h2, rfl⟩ := List.append_of_mem hm
    obtain ⟨_, t, ht, _⟩ := hr.split rfl
    by_contra hempty
    obtain ⟨s', e⟩ := m
    cases e with
    | goToNextVerb draw =>
      simp only [takesEmptyAnswer, Bool.not_eq_false, decide_eq_true_eq] at hempty
      have hsc : Scores (s', .goToNextVerb draw) :=
        scores_iff.mpr ⟨⟨draw, rfl⟩, by simp [ht], hempty.1.trans hempty.2.symm⟩
      obtain ⟨q, text, _, htext, hne, _⟩ := hall h1 _ h2 rfl hsc
      rw [hempty.1] at htext
      exact hne (Option.some.inj htext).symm
    | _ => simp [takesEmptyAnswer] at hempty
  · rintro hno h1 ⟨s', e⟩ h2 rfl hsc
    obtain ⟨hr1, _⟩ := hr.split rfl
    obtain ⟨⟨draw, he⟩, _, heq⟩ := scores_iff.mp hsc
    dsimp only at he heq hr1 ⊢
    subst he
    obtain ⟨text, htext⟩ := Option.isSome_iff_exists.mp (run_field hr1)
    have hans := run_answer hr1
    rw [← heq, htext] at hans
    obtain ⟨q, hq, hqa⟩ := Option.map_eq_some_iff.mp hans.symm
    refine ⟨q, text, hq, htext, ?_⟩
    have hne : text ≠ "" := by
      rintro rfl
      have := hno (s', .goToNextVerb draw) (by simp)
      simp [takesEmptyAnswer, htext, ← heq] at this
    exact hqa ▸ answerOf_earns q (hqa ▸ hne)

/-- NEXT takes an empty answer exactly when the field is empty and the last question has no word. -/
theorem takesEmptyAnswer_iff {userID : Option String} {h : List (Screen × Event)} {m : Screen × Event}
    (hr : Run Screen.step (viewDidLoad userID) h m.1) :
    takesEmptyAnswer m = true ↔ (∃ draw, m.2 = .goToNextVerb draw) ∧
      m.1.view.fieldForWriteVerb.text = some "" ∧ ∃ q, lastQuestion h = some q ∧ HasNoWord q := by
  obtain ⟨s, e⟩ := m
  have hans : s.view.currentEmptyVerb = _ := run_answer hr
  cases e with
  | goToNextVerb draw =>
    simp only [takesEmptyAnswer, decide_eq_true_eq, hans, Option.map_eq_some_iff, answerOf_eq_empty]
    exact ⟨fun hempty => ⟨⟨draw, rfl⟩, hempty⟩, And.right⟩
  | _ => simp [takesEmptyAnswer]

/-- In every run each point is earned exactly when no NEXT takes an empty answer. NEXT does so when the
field is empty and the last question was drawn with no word to answer. -/
theorem every_point_is_earned_iff_no_empty_answer {userID : Option String}
    {h : List (Screen × Event)} {s : Screen} (hr : Run Screen.step (viewDidLoad userID) h s) :
    (AllEarned h ↔ ∀ m ∈ h, takesEmptyAnswer m = false) ∧
      ∀ h1 m h2, h = h1 ++ m :: h2 →
        (takesEmptyAnswer m = true ↔ (∃ draw, m.2 = .goToNextVerb draw) ∧
          m.1.view.fieldForWriteVerb.text = some "" ∧ ∃ q, lastQuestion h1 = some q ∧ HasNoWord q) :=
  ⟨allEarned_iff hr, fun _ _ _ hh => takesEmptyAnswer_iff (hr.split hh).1⟩

/-- The user opens the screen, knows the verb and answers: the point is earned. -/
def oneGoodAnswer : List Event :=
  [.downloadAnswered (some [⟨some "be", some "was were", some "been", none⟩]), .downloadDelivered,
    .startLearning ⟨0, 1⟩, .editText "was", .goToNextVerb ⟨0, 0⟩]

theorem a_good_answer_is_earned :
    AllEarned (momentsOf Screen.step (viewDidLoad (some "user")) oneGoodAnswer) :=
  (every_point_is_earned_iff_no_empty_answer (run_of_isSome (by decide))).1.mpr (by decide)

/-- START and NEXT, before the vocabulary comes. -/
def startThenNext : List Event := [.startLearning ⟨0, 0⟩, .goToNextVerb ⟨0, 0⟩]

/-- Then the answer is empty, the field is empty, and the point is not earned. -/
theorem a_point_with_no_vocabulary_is_not_earned :
    (∃ s, Run Screen.step (viewDidLoad (some "user"))
      (momentsOf Screen.step (viewDidLoad (some "user")) startThenNext) s) ∧
    ¬ AllEarned (momentsOf Screen.step (viewDidLoad (some "user")) startThenNext) := by
  refine ⟨⟨_, run_of_isSome (by decide)⟩, fun hall => ?_⟩
  let s := viewDidLoad (some "user")
  have hsc : Scores (startLearning ⟨0, 0⟩ s, .goToNextVerb ⟨0, 0⟩) :=
    scores_iff.mpr ⟨⟨_, rfl⟩, by decide, by decide⟩
  obtain ⟨q, text, hq, _, _, verb, hverb, _⟩ := hall [(s, .startLearning ⟨0, 0⟩)] _ [] rfl hsc
  cases hq
  cases hverb

end EasyVerbs.Learning
