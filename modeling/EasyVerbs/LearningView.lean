-- The training screen: `LearningView` and its `LearningPresenter`, with what
-- they wait for. A dismissed screen lives on while its timer is scheduled,
-- for the timer holds it, or while a callback holds its presenter.
import EasyVerbs.Backend
import EasyVerbs.Parties

namespace EasyVerbs.Learning

/-! ## The views -/

structure UILabel where
  text : Option String := none
  isHidden : Bool := false
  deriving DecidableEq, Repr

structure UIButton where
  isHidden : Bool := false
  deriving DecidableEq, Repr

/-- The text of a field with nothing typed is the empty string. -/
structure UITextField where
  text : Option String := some ""
  isHidden : Bool := false
  deriving DecidableEq, Repr

/-- `timer` names a timer that was scheduled, or none: the bare `Timer()` of a new view. -/
structure LearningView where
  time : Int := 60
  timer : Option Nat := none
  currentEmptyVerb : Option String := none
  score : Int := 0
  labelOverTime : UILabel := {}
  timerLabel : UILabel := {}
  labelOverScore : UILabel := {}
  scoreLabel : UILabel := {}
  infinitiveLabel : UILabel := {}
  pastSimpleLabel : UILabel := {}
  pastPerfectLabel : UILabel := {}
  fieldForWriteVerb : UITextField := {}
  nextVerb : UIButton := {}
  labelOverBestScore : UILabel := {}
  bestScoreLabel : UILabel := {}
  startGame : UIButton := {}
  deriving DecidableEq, Repr

namespace LearningView

def setupButtons (v : LearningView) : LearningView :=
  { v with nextVerb := { isHidden := true } }

def setupLabels (v : LearningView) : LearningView :=
  { v with
    scoreLabel := { text := some "0", isHidden := true }
    timerLabel := { v.timerLabel with isHidden := true } }

def setupVerbsLabels (v : LearningView) : LearningView :=
  { v with
    pastSimpleLabel := { v.pastSimpleLabel with isHidden := true }
    infinitiveLabel := { v.infinitiveLabel with isHidden := true }
    pastPerfectLabel := { v.pastPerfectLabel with isHidden := true } }

def setupOverLabels (v : LearningView) : LearningView :=
  { v with
    labelOverBestScore := { v.labelOverBestScore with text := some "BEST SCORE" }
    labelOverTime := { text := some "TIME", isHidden := true }
    labelOverScore := { text := some "SCORE", isHidden := true } }

def setUpFieldForWriteVerb (v : LearningView) : LearningView :=
  { v with fieldForWriteVerb := { v.fieldForWriteVerb with isHidden := true } }

def setUpViews (v : LearningView) : LearningView :=
  v.setupButtons.setupLabels.setupVerbsLabels.setupOverLabels.setUpFieldForWriteVerb

/-- The Swift characters before the first space, or all of them. -/
def cut (stringToCut : Option String) : String :=
  match stringToCut with
  | none => ""
  | some string => String.ofList (string.toList.takeWhile (· != ' '))

/-- The question of a drawn entry: the form of the drawn tense is hidden, and it is the
answer. -/
def logicOfGame (randomVerb : Option IrregularVerb × Nat) (v : LearningView) : LearningView :=
  let infinitive := cut (randomVerb.1.bind (·.infinitive))
  let pastSimple := cut (randomVerb.1.bind (·.pastSimple))
  let pastParticiple := cut (randomVerb.1.bind (·.pastParticiple))
  let v := { v with
    infinitiveLabel := { v.infinitiveLabel with text := some infinitive }
    pastSimpleLabel := { v.pastSimpleLabel with text := some pastSimple }
    pastPerfectLabel := { v.pastPerfectLabel with text := some pastParticiple } }
  match randomVerb.2 with
  | 1 => { v with
      infinitiveLabel := { v.infinitiveLabel with text := some "?" }
      currentEmptyVerb := some infinitive }
  | 2 => { v with
      pastSimpleLabel := { v.pastSimpleLabel with text := some "?" }
      currentEmptyVerb := some pastSimple }
  | _ => { v with
      pastPerfectLabel := { v.pastPerfectLabel with text := some "?" }
      currentEmptyVerb := some pastParticiple }

/-- The flags that `startLearning` sets. -/
def showGame (v : LearningView) : LearningView :=
  { v with
    startGame := { isHidden := true }
    bestScoreLabel := { v.bestScoreLabel with isHidden := true }
    labelOverBestScore := { v.labelOverBestScore with isHidden := true }
    nextVerb := { isHidden := false }
    fieldForWriteVerb := { v.fieldForWriteVerb with isHidden := false }
    timerLabel := { v.timerLabel with isHidden := false }
    scoreLabel := { v.scoreLabel with isHidden := false }
    labelOverTime := { v.labelOverTime with isHidden := false }
    labelOverScore := { v.labelOverScore with isHidden := false }
    pastSimpleLabel := { v.pastSimpleLabel with isHidden := false }
    infinitiveLabel := { v.infinitiveLabel with isHidden := false }
    pastPerfectLabel := { v.pastPerfectLabel with isHidden := false } }

/-- The flags that `actionForTimer` sets when the time is over. -/
def showStart (v : LearningView) : LearningView :=
  { v with
    startGame := { isHidden := false }
    bestScoreLabel := { v.bestScoreLabel with isHidden := false }
    labelOverBestScore := { v.labelOverBestScore with isHidden := false }
    nextVerb := { isHidden := true }
    fieldForWriteVerb := { v.fieldForWriteVerb with isHidden := true }
    pastSimpleLabel := { v.pastSimpleLabel with isHidden := true }
    infinitiveLabel := { v.infinitiveLabel with isHidden := true }
    pastPerfectLabel := { v.pastPerfectLabel with isHidden := true }
    timerLabel := { v.timerLabel with isHidden := true }
    scoreLabel := { v.scoreLabel with isHidden := true }
    labelOverTime := { v.labelOverTime with isHidden := true }
    labelOverScore := { v.labelOverScore with isHidden := true } }

end LearningView

/-! ## The presenter -/

structure LearningPresenter where
  userID : Option String
  allVerbs : List IrregularVerb := []
  bestScore : Int := 0
  deriving DecidableEq, Repr

/-- What the random generator gives for one question. -/
structure Draw where
  index : Nat
  tense : Fin 3
  deriving DecidableEq, Repr

/-- Any entry of the vocabulary, or none when it is empty, and any tense of 1, 2 and 3. -/
def LearningPresenter.randomElement (p : LearningPresenter) (draw : Draw) :
    Option IrregularVerb × Nat :=
  (p.allVerbs[draw.index % p.allVerbs.length]?, draw.tense + 1)

/-- The two queries of the presenter. -/
inductive Query
  | bestScoreFromFirebase
  | updateBestScore
  deriving DecidableEq, Repr

/-! ## The screen -/

/-- A view and its presenter, with what is outstanding: the timers of the view on the run
loop, the download, the queries, the main-queue blocks of `bestScoreFromFirebase` and the
writes that the server did not apply yet. -/
structure Screen where
  view : LearningView
  presenter : LearningPresenter
  dismissed : Bool := false
  timers : List Nat := []
  nextTimer : Nat := 0
  download : Download := .waiting
  requests : List (Request Query) := []
  blocks : List Document := []
  writes : List Write := []
  deriving DecidableEq, Repr

/-- The query of the user's documents, which needs a user. -/
def getDocuments (query : Query) (s : Screen) : Screen :=
  match s.presenter.userID with
  | none => s
  | some _ => { s with requests := s.requests ++ [{ callback := query }] }

/-- `LearningFactory.make` and `viewDidLoad`. -/
def viewDidLoad (userID : Option String) : Screen :=
  getDocuments .bestScoreFromFirebase
    { view := LearningView.setUpViews {}, presenter := { userID := userID } }

def scoreUpdate (s : Screen) : Screen :=
  { s with view := { s.view with
      bestScoreLabel := { s.view.bestScoreLabel with text := some (toString s.presenter.bestScore) } } }

/-- The timer holds the view that calls this, so the weak `view` is there. -/
def scoreServerUpdate (s : Screen) : Screen :=
  getDocuments .updateBestScore
    { s with presenter := { s.presenter with bestScore := s.view.score } }

def logicOfGame (draw : Draw) (s : Screen) : Screen :=
  { s with view := s.view.logicOfGame (s.presenter.randomElement draw) }

/-- NEXT with the right answer in the field. -/
def rightAnswer (draw : Draw) (s : Screen) : Screen :=
  let s := { s with view := { s.view with
    fieldForWriteVerb := { s.view.fieldForWriteVerb with text := some "" } } }
  let s := logicOfGame draw s
  { s with view := { s.view with
    time := s.view.time + 5
    timerLabel := { s.view.timerLabel with text := some (toString (s.view.time + 5)) }
    score := s.view.score + 1
    scoreLabel := { s.view.scoreLabel with text := some (toString (s.view.score + 1)) } } }

def goToNextVerb (draw : Draw) (s : Screen) : Screen :=
  if s.view.fieldForWriteVerb.text = s.view.currentEmptyVerb then rightAnswer draw s else s

/-- A new timer comes on the run loop. The old one is not invalidated here. -/
def startLearning (draw : Draw) (s : Screen) : Screen :=
  logicOfGame draw
    { s with
      view := LearningView.showGame
        { s.view with time := 60, score := 0, timer := some s.nextTimer }
      timers := s.timers ++ [s.nextTimer]
      nextTimer := s.nextTimer + 1 }

/-- `timer.invalidate()`. -/
def invalidate (s : Screen) : Screen :=
  { s with timers := s.timers.filter fun t => s.view.timer ≠ some t }

/-- The time is over. A score above the best score of the presenter is stored. -/
def timeIsOver (s : Screen) : Screen :=
  let s := invalidate s
  let s := { s with view := { s.view.showStart with
    fieldForWriteVerb := { text := some "", isHidden := true } } }
  if s.view.score > s.presenter.bestScore then scoreUpdate (scoreServerUpdate s) else s

def actionForTimer (s : Screen) : Screen :=
  let s := { s with view := { s.view with
    time := s.view.time - 1
    timerLabel := { s.view.timerLabel with text := some (toString (s.view.time - 1)) } } }
  if s.view.time = 0 then timeIsOver s else s

/-- The callback of `bestScoreFromFirebase` puts a block on the main queue for each document,
and the one of `updateBestScore` writes the best score that the presenter has by now. -/
def callback (query : Query) (documents : List Document) (s : Screen) : Screen :=
  match query with
  | .bestScoreFromFirebase => { s with blocks := s.blocks ++ documents }
  | .updateBestScore =>
    { s with writes := s.writes ++ documents.map fun document =>
        ⟨document.documentID, "bestScore", .value (.int s.presenter.bestScore)⟩ }

/-- The main-queue block of `bestScoreFromFirebase`. -/
def bestScoreBlock (document : Document) (s : Screen) : Screen :=
  scoreUpdate { s with presenter := { s.presenter with bestScore := document.bestScore } }

/-! ## The events of a screen -/

inductive Event
  | startLearning (draw : Draw)
  | goToNextVerb (draw : Draw)
  | editText (text : String)
  | backButtonDidTap
  | timerFires (timer : Nat)
  | downloadAnswered (json : Option (List IrregularVerb))
  | downloadDelivered
  /-- The server reads these documents for the query with number `i`. -/
  | served (i : Nat) (documents : List Document)
  | callback (i : Nat)
  /-- The callback of the query with number `i` gets an error, and only prints it. -/
  | failed (i : Nat)
  | bestScoreBlock (i : Nat)
  /-- The server applies the write with number `i`. -/
  | applied (i : Nat)
  | rejected (i : Nat)
  deriving DecidableEq, Repr

/-- The screen after an event, or none when the event cannot happen. A control takes taps
and text while it is visible and its screen is not dismissed. -/
def Screen.step (s : Screen) : Event → Option Screen
  | .startLearning draw =>
    if s.dismissed = false ∧ s.view.startGame.isHidden = false then some (Learning.startLearning draw s)
    else none
  | .goToNextVerb draw =>
    if s.dismissed = false ∧ s.view.nextVerb.isHidden = false then some (Learning.goToNextVerb draw s)
    else none
  | .editText text =>
    if s.dismissed = false ∧ s.view.fieldForWriteVerb.isHidden = false then
      some { s with view := { s.view with
        fieldForWriteVerb := { s.view.fieldForWriteVerb with text := some text } } }
    else none
  | .backButtonDidTap => if s.dismissed = false then some { s with dismissed := true } else none
  | .timerFires timer => if timer ∈ s.timers then some (actionForTimer s) else none
  | .downloadAnswered json => (s.download.answered json).map fun d => { s with download := d }
  | .downloadDelivered =>
    match s.download with
    | .decoded json =>
      some { s with download := .over, presenter := { s.presenter with allVerbs := json } }
    | _ => none
  | .served i documents => (serve documents i s.requests).map fun rs => { s with requests := rs }
  | .callback i =>
    match s.requests[i]? with
    | some ⟨query, some documents⟩ =>
      some (Learning.callback query documents { s with requests := s.requests.eraseIdx i })
    | _ => none
  | .failed i =>
    if i < s.requests.length then some { s with requests := s.requests.eraseIdx i } else none
  | .bestScoreBlock i =>
    match s.blocks[i]? with
    | some document => some (Learning.bestScoreBlock document { s with blocks := s.blocks.eraseIdx i })
    | none => none
  | .applied i => if i < s.writes.length then some { s with writes := s.writes.eraseIdx i } else none
  | .rejected i => if i < s.writes.length then some { s with writes := s.writes.eraseIdx i } else none

/-- A screen with the documents of its user: the server reads the documents as they are, and
an applied write changes them. -/
def act (documents : List Document) (s : Screen) (e : Event) : Option (List Document × Screen) :=
  match e with
  | .served i read => if read = documents then (s.step (.served i read)).map (documents, ·) else none
  | .applied i =>
    match s.writes[i]? with
    | some w => (s.step (.applied i)).map (w.applyTo documents, ·)
    | none => none
  | e => (s.step e).map (documents, ·)

/-! ## What a step can do -/

inductive Step (s : Screen) : Event → Screen → Prop
  | startLearning {draw : Draw} (hthere : s.dismissed = false)
      (hvisible : s.view.startGame.isHidden = false) :
      Step s (.startLearning draw) (Learning.startLearning draw s)
  | goToNextVerb {draw : Draw} (hthere : s.dismissed = false)
      (hvisible : s.view.nextVerb.isHidden = false) :
      Step s (.goToNextVerb draw) (Learning.goToNextVerb draw s)
  | editText {text : String} (hthere : s.dismissed = false)
      (hvisible : s.view.fieldForWriteVerb.isHidden = false) :
      Step s (.editText text) { s with view := { s.view with
        fieldForWriteVerb := { s.view.fieldForWriteVerb with text := some text } } }
  | back (hthere : s.dismissed = false) : Step s .backButtonDidTap { s with dismissed := true }
  | timerFires {timer : Nat} (htimer : timer ∈ s.timers) : Step s (.timerFires timer) (actionForTimer s)
  | downloadAnswered {json : Option (List IrregularVerb)} {d : Download}
      (hanswered : s.download.answered json = some d) :
      Step s (.downloadAnswered json) { s with download := d }
  | downloadDelivered {json : List IrregularVerb} (hdecoded : s.download = .decoded json) :
      Step s .downloadDelivered
        { s with download := .over, presenter := { s.presenter with allVerbs := json } }
  | served {i : Nat} {documents : List Document} {rs : List (Request Query)}
      (hserve : serve documents i s.requests = some rs) :
      Step s (.served i documents) { s with requests := rs }
  | callback {i : Nat} {query : Query} {documents : List Document}
      (hrequest : s.requests[i]? = some ⟨query, some documents⟩) :
      Step s (.callback i)
        (Learning.callback query documents { s with requests := s.requests.eraseIdx i })
  | failed {i : Nat} (hi : i < s.requests.length) :
      Step s (.failed i) { s with requests := s.requests.eraseIdx i }
  | bestScoreBlock {i : Nat} {document : Document} (hblock : s.blocks[i]? = some document) :
      Step s (.bestScoreBlock i)
        (Learning.bestScoreBlock document { s with blocks := s.blocks.eraseIdx i })
  | applied {i : Nat} (hi : i < s.writes.length) :
      Step s (.applied i) { s with writes := s.writes.eraseIdx i }
  | rejected {i : Nat} (hi : i < s.writes.length) :
      Step s (.rejected i) { s with writes := s.writes.eraseIdx i }

theorem step_cases {s t : Screen} {e : Event} (hs : s.step e = some t) : Step s e t := by
  cases e with
  | startLearning draw =>
    simp only [Screen.step, Option.ite_none_right_eq_some, Option.some.injEq] at hs
    obtain ⟨⟨hthere, hvisible⟩, rfl⟩ := hs
    exact .startLearning hthere hvisible
  | goToNextVerb draw =>
    simp only [Screen.step, Option.ite_none_right_eq_some, Option.some.injEq] at hs
    obtain ⟨⟨hthere, hvisible⟩, rfl⟩ := hs
    exact .goToNextVerb hthere hvisible
  | editText text =>
    simp only [Screen.step, Option.ite_none_right_eq_some, Option.some.injEq] at hs
    obtain ⟨⟨hthere, hvisible⟩, rfl⟩ := hs
    exact .editText hthere hvisible
  | backButtonDidTap =>
    simp only [Screen.step, Option.ite_none_right_eq_some, Option.some.injEq] at hs
    obtain ⟨hthere, rfl⟩ := hs
    exact .back hthere
  | timerFires timer =>
    simp only [Screen.step, Option.ite_none_right_eq_some, Option.some.injEq] at hs
    obtain ⟨htimer, rfl⟩ := hs
    exact .timerFires htimer
  | downloadAnswered json =>
    simp only [Screen.step, Option.map_eq_some_iff] at hs
    obtain ⟨d, hanswered, rfl⟩ := hs
    exact .downloadAnswered hanswered
  | downloadDelivered =>
    simp only [Screen.step] at hs
    split at hs
    · rename_i json hdecoded
      cases hs
      exact .downloadDelivered hdecoded
    · cases hs
  | served i documents =>
    simp only [Screen.step, Option.map_eq_some_iff] at hs
    obtain ⟨rs, hserve, rfl⟩ := hs
    exact .served hserve
  | callback i =>
    simp only [Screen.step] at hs
    split at hs
    · rename_i query documents hrequest
      cases hs
      exact .callback hrequest
    · cases hs
  | failed i =>
    simp only [Screen.step, Option.ite_none_right_eq_some, Option.some.injEq] at hs
    obtain ⟨hi, rfl⟩ := hs
    exact .failed hi
  | bestScoreBlock i =>
    simp only [Screen.step] at hs
    split at hs
    · rename_i document hblock
      cases hs
      exact .bestScoreBlock hblock
    · cases hs
  | applied i =>
    simp only [Screen.step, Option.ite_none_right_eq_some, Option.some.injEq] at hs
    obtain ⟨hi, rfl⟩ := hs
    exact .applied hi
  | rejected i =>
    simp only [Screen.step, Option.ite_none_right_eq_some, Option.some.injEq] at hs
    obtain ⟨hi, rfl⟩ := hs
    exact .rejected hi

theorem step_startLearning {s t : Screen} {draw : Draw}
    (hs : s.step (.startLearning draw) = some t) :
    s.view.startGame.isHidden = false ∧ t = startLearning draw s := by
  cases step_cases hs with
  | startLearning _ hvisible => exact ⟨hvisible, rfl⟩

theorem step_goToNextVerb {s t : Screen} {draw : Draw}
    (hs : s.step (.goToNextVerb draw) = some t) :
    s.view.nextVerb.isHidden = false ∧ t = goToNextVerb draw s := by
  cases step_cases hs with
  | goToNextVerb _ hvisible => exact ⟨hvisible, rfl⟩

theorem step_timerFires {s t : Screen} {timer : Nat} (hs : s.step (.timerFires timer) = some t) :
    timer ∈ s.timers ∧ t = actionForTimer s := by
  cases step_cases hs with
  | timerFires htimer => exact ⟨htimer, rfl⟩

/-! ## What a step outside the game leaves -/

/-- The view with other texts in the field and in the label of the best score. -/
def LearningView.retext (v : LearningView) (field best : Option String) : LearningView :=
  { v with
    fieldForWriteVerb := { v.fieldForWriteVerb with text := field }
    bestScoreLabel := { v.bestScoreLabel with text := best } }

/-- The events that a game is made of. Every other event leaves the game as it is. -/
def Event.isGame : Event → Bool
  | .startLearning _ | .goToNextVerb _ | .timerFires _ => true
  | _ => false

/-- An event outside the game changes two texts of the view at most, and no timer. -/
structure Quiet (s t : Screen) : Prop where
  timers : t.timers = s.timers
  view : ∃ field best, t.view = s.view.retext field best
  field : s.view.fieldForWriteVerb.text.isSome → t.view.fieldForWriteVerb.text.isSome

theorem Quiet.of_same {s t : Screen} (ht : t.timers = s.timers) (hv : t.view = s.view) : Quiet s t :=
  ⟨ht, ⟨s.view.fieldForWriteVerb.text, s.view.bestScoreLabel.text, hv⟩, fun h => hv ▸ h⟩

theorem step_quiet {s t : Screen} {e : Event} (he : e.isGame = false) (hs : s.step e = some t) :
    Quiet s t := by
  cases step_cases hs with
  | startLearning _ _ => cases he
  | goToNextVerb _ _ => cases he
  | timerFires _ => cases he
  | @editText text _ _ => exact ⟨rfl, ⟨some text, s.view.bestScoreLabel.text, rfl⟩, fun _ => rfl⟩
  | bestScoreBlock _ => exact ⟨rfl, ⟨s.view.fieldForWriteVerb.text, _, rfl⟩, fun h => h⟩
  | @callback i query documents _ => cases query <;> exact .of_same rfl rfl
  | _ => exact .of_same rfl rfl

end EasyVerbs.Learning
