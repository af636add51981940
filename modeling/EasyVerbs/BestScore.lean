-- The best score of one screen: what each step does to the queries, the
-- blocks and the writes that carry it, and the law that the stored score
-- comes to the largest score of the games.
import Mathlib.Data.Int.Order.Basic
import EasyVerbs.GameQuestions

open Runs Parties

namespace EasyVerbs.Learning

/-! ## Games that end -/

/-- The final score of the game that an event ends. -/
def endsGame (s : Screen) : Event → Option Int
  | .timerFires _ => if s.view.time = 1 then some s.view.score else none
  | _ => none

def scoreWrite (documentID : String) (n : Int) : Write := ⟨documentID, "bestScore", .value (.int n)⟩

def scoreOf (w : Write) : Option Int :=
  match w.update with
  | .value v => v.asInt
  | _ => none

/-! ## What a step does to the scores -/

/-- The two screens have the same presenter scores, queries, blocks and writes. -/
structure SameScores (s t : Screen) : Prop where
  userID : t.presenter.userID = s.presenter.userID
  bestScore : t.presenter.bestScore = s.presenter.bestScore
  requests : t.requests = s.requests
  blocks : t.blocks = s.blocks
  writes : t.writes = s.writes

theorem SameScores.refl (s : Screen) : SameScores s s := ⟨rfl, rfl, rfl, rfl, rfl⟩

/-- What a step does to the scores. -/
inductive ScoreStep (s t : Screen) : Event → Prop
  /-- Nothing. A game that ends has no more than the best score. -/
  | same {e : Event} (hsame : SameScores s t)
      (hends : ∀ n, endsGame s e = some n → n ≤ s.presenter.bestScore)
      (hquiet : ∀ i, (∀ ds, e ≠ .served i ds) ∧ e ≠ .callback i ∧ e ≠ .failed i ∧
        e ≠ .bestScoreBlock i ∧ e ≠ .applied i ∧ e ≠ .rejected i) : ScoreStep s t e
  /-- A game ends above the best score. -/
  | better {timer : Nat} (hends : endsGame s (.timerFires timer) = some s.view.score)
      (hbetter : s.presenter.bestScore < s.view.score)
      (huser : t.presenter.userID = s.presenter.userID)
      (hbest : t.presenter.bestScore = s.view.score)
      (hrequests : t.requests = (getDocuments .updateBestScore s).requests)
      (hblocks : t.blocks = s.blocks) (hwrites : t.writes = s.writes) : ScoreStep s t (.timerFires timer)
  | served {i : Nat} {documents : List Document} {rs : List (Request Query)}
      (hserve : serve documents i s.requests = some rs) (ht : t = { s with requests := rs }) :
      ScoreStep s t (.served i documents)
  | callback {i : Nat} {query : Query} {documents : List Document}
      (hrequest : s.requests[i]? = some ⟨query, some documents⟩)
      (ht : t = Learning.callback query documents { s with requests := s.requests.eraseIdx i }) :
      ScoreStep s t (.callback i)
  | failed {i : Nat} (ht : t = { s with requests := s.requests.eraseIdx i }) : ScoreStep s t (.failed i)
  | block {i : Nat} {document : Document} (hblock : s.blocks[i]? = some document)
      (ht : t = Learning.bestScoreBlock document { s with blocks := s.blocks.eraseIdx i }) :
      ScoreStep s t (.bestScoreBlock i)
  | applied {i : Nat} {w : Write} (hwrite : s.writes[i]? = some w)
      (ht : t = { s with writes := s.writes.eraseIdx i }) : ScoreStep s t (.applied i)
  | rejected {i : Nat} (ht : t = { s with writes := s.writes.eraseIdx i }) : ScoreStep s t (.rejected i)

theorem rightAnswer_same (draw : Draw) (s : Screen) : SameScores s (rightAnswer draw s) :=
  ⟨rfl, rfl, rfl, rfl, rfl⟩

theorem startLearning_same (draw : Draw) (s : Screen) : SameScores s (startLearning draw s) :=
  ⟨rfl, rfl, rfl, rfl, rfl⟩

theorem goToNextVerb_same (draw : Draw) (s : Screen) : SameScores s (goToNextVerb draw s) := by
  unfold goToNextVerb
  split
  · exact rightAnswer_same draw s
  · exact .refl s

theorem timeIsOver_same {s : Screen} (h : ¬ s.presenter.bestScore < s.view.score) :
    SameScores s (timeIsOver s) := by
  unfold timeIsOver
  dsimp only
  split
  · rename_i hb
    exact absurd hb h
  · exact ⟨rfl, rfl, rfl, rfl, rfl⟩

theorem timeIsOver_better {s : Screen} (h : s.presenter.bestScore < s.view.score) :
    (timeIsOver s).presenter = { s.presenter with bestScore := s.view.score } ∧
      (timeIsOver s).requests = (getDocuments .updateBestScore s).requests ∧
      (timeIsOver s).blocks = s.blocks ∧ (timeIsOver s).writes = s.writes := by
  unfold timeIsOver
  dsimp only
  split
  · unfold scoreUpdate scoreServerUpdate getDocuments
    dsimp only [invalidate]
    cases s.presenter.userID <;> exact ⟨rfl, rfl, rfl, rfl⟩
  · rename_i hb
    exact absurd h hb

/-- A tick does something to the scores only when it ends a game above the best score. -/
theorem actionForTimer_scores (s : Screen) (timer : Nat) :
    ScoreStep s (actionForTimer s) (.timerFires timer) := by
  have hends : endsGame s (.timerFires timer) = if s.view.time = 1 then some s.view.score else none := rfl
  unfold actionForTimer
  dsimp only
  split
  · rename_i hz
    rw [if_pos (show s.view.time = 1 by omega)] at hends
    by_cases hb : s.presenter.bestScore < s.view.score
    · obtain ⟨hp, hr, hbl, hw⟩ := timeIsOver_better (s := { s with view := { s.view with
        time := s.view.time - 1
        timerLabel := { s.view.timerLabel with text := some (toString (s.view.time - 1)) } } }) hb
      refine .better hends hb (by rw [hp]) (by rw [hp]) ?_ hbl hw
      rw [hr]
      unfold getDocuments
      dsimp only
      cases s.presenter.userID <;> rfl
    · obtain ⟨h1, h2, h3, h4, h5⟩ := timeIsOver_same (s := { s with view := { s.view with
        time := s.view.time - 1
        timerLabel := { s.view.timerLabel with text := some (toString (s.view.time - 1)) } } }) hb
      refine .same ⟨h1, h2, h3, h4, h5⟩ (fun n hn => ?_) (by simp)
      rw [hends] at hn
      cases hn
      omega
  · rename_i hz
    rw [if_neg (show s.view.time ≠ 1 by omega)] at hends
    exact .same ⟨rfl, rfl, rfl, rfl, rfl⟩ (fun n hn => by rw [hends] at hn; cases hn) (by simp)

theorem step_scores {s t : Screen} {e : Event} (hs : s.step e = some t) : ScoreStep s t e := by
  cases step_cases hs with
  | @startLearning draw _ _ => exact .same (startLearning_same draw s) (by simp [endsGame]) (by simp)
  | @goToNextVerb draw _ _ => exact .same (goToNextVerb_same draw s) (by simp [endsGame]) (by simp)
  | @timerFires timer _ => exact actionForTimer_scores s timer
  | editText _ _ => exact .same ⟨rfl, rfl, rfl, rfl, rfl⟩ (by simp [endsGame]) (by simp)
  | back _ => exact .same ⟨rfl, rfl, rfl, rfl, rfl⟩ (by simp [endsGame]) (by simp)
  | downloadAnswered _ => exact .same ⟨rfl, rfl, rfl, rfl, rfl⟩ (by simp [endsGame]) (by simp)
  | downloadDelivered _ => exact .same ⟨rfl, rfl, rfl, rfl, rfl⟩ (by simp [endsGame]) (by simp)
  | served hserve => exact .served hserve rfl
  | callback hrequest => exact .callback hrequest rfl
  | failed _ => exact .failed rfl
  | bestScoreBlock hblock => exact .block hblock rfl
  | applied hi => exact .applied (List.getElem?_eq_getElem hi) rfl
  | rejected _ => exact .rejected rfl

/-- An act is a step of the screen. The documents change only when a write is applied, and
the server reads them as they are. -/
theorem act_eq_some {documents documents' : List Document} {s t : Screen} {e : Event}
    (ha : act documents s e = some (documents', t)) :
    s.step e = some t ∧ (∀ i read, e = .served i read → read = documents) ∧
      ((∀ i, e ≠ .applied i) ∧ documents' = documents ∨
        ∃ i w, e = .applied i ∧ s.writes[i]? = some w ∧ documents' = w.applyTo documents) := by
  cases e with
  | served i read =>
    simp only [act, Option.ite_none_right_eq_some, Option.map_eq_some_iff] at ha
    obtain ⟨rfl, t', ht, hp⟩ := ha
    cases hp
    exact ⟨ht, fun _ _ h => by cases h; rfl, Or.inl ⟨by simp, rfl⟩⟩
  | applied i =>
    simp only [act] at ha
    split at ha
    · rename_i w hw
      simp only [Option.map_eq_some_iff] at ha
      obtain ⟨t', ht, hp⟩ := ha
      cases hp
      exact ⟨ht, by simp, Or.inr ⟨i, w, rfl, hw, rfl⟩⟩
    · cases ha
  | _ =>
    simp only [act, Option.map_eq_some_iff] at ha
    obtain ⟨t', ht, hp⟩ := ha
    cases hp
    exact ⟨ht, by simp, Or.inl ⟨by simp, rfl⟩⟩

theorem act_documents {documents documents' : List Document} {s t : Screen} {e : Event}
    (ha : act documents s e = some (documents', t)) (he : ∀ i, e ≠ .applied i) :
    documents' = documents := by
  obtain ⟨_, _, ⟨_, h⟩ | ⟨i, _, h, _⟩⟩ := act_eq_some ha
  · exact h
  · exact absurd h (he i)

/-! ## The score of one screen alone -/

/-- The initial query waits, or its block does. -/
def Screen.loading (s : Screen) : Bool :=
  s.requests.any (fun r => r.callback = .bestScoreFromFirebase) || !s.blocks.isEmpty

/-- The final scores of the games that ended, oldest first. -/
def finalScores (h : List ((List Document × Screen) × Event)) : List Int :=
  h.filterMap fun m => endsGame m.1.2 m.2

/-- The largest of a first score and the final scores. -/
def largestScore (b₀ : Int) (h : List ((List Document × Screen) × Event)) : Int :=
  (finalScores h).foldl max b₀

/-- No request fails, writes are applied in the order they were issued, and no game ends
before the block of the initial query ran. -/
structure Orderly (s : List Document × Screen) (e : Event) : Prop where
  no_failure : ∀ i, e ≠ .failed i ∧ e ≠ .rejected i
  in_order : ∀ i, e = .applied i → i = 0
  loaded_first : (endsGame s.2 e).isSome → s.2.loading = false

/-- `Orderly`, computed. -/
def isOrderly (s : List Document × Screen) : Event → Bool
  | .failed _ | .rejected _ => false
  | .applied i => i = 0
  | e => (endsGame s.2 e).isNone || !s.2.loading

theorem orderly_iff (s : List Document × Screen) (e : Event) : isOrderly s e = true ↔ Orderly s e := by
  constructor
  · intro h
    refine ⟨fun i => ?_, fun i hi => ?_, fun hends => ?_⟩
    · constructor <;> rintro rfl <;> cases h
    · subst hi
      simpa [isOrderly] using h
    · cases e <;> simp_all [isOrderly, endsGame]
  · rintro ⟨hf, ho, hl⟩
    cases e with
    | timerFires timer =>
      by_cases htime : s.2.view.time = 1
      · simp [isOrderly, hl (by simp [endsGame, htime])]
      · simp [isOrderly, endsGame, htime]
    | _ => simp_all [isOrderly, endsGame]

instance (s : List Document × Screen) (e : Event) : Decidable (Orderly s e) :=
  decidable_of_iff _ (orderly_iff s e)

theorem largestScore_snoc (b₀ : Int) (h : List ((List Document × Screen) × Event))
    (s : List Document × Screen) (e : Event) :
    largestScore b₀ (h ++ [(s, e)]) =
      match endsGame s.2 e with
      | some n => max (largestScore b₀ h) n
      | none => largestScore b₀ h := by
  unfold largestScore finalScores
  rw [List.filterMap_append, List.foldl_append]
  cases he : endsGame s.2 e <;> simp [he]

/-- No game has ended, and the initial query or its block waits. -/
structure Loading (user : String) (d : Document) (s : List Document × Screen) : Prop where
  userID : s.2.presenter.userID = some user
  documents : s.1 = [d]
  waits : (∃ read, s.2.requests = [⟨.bestScoreFromFirebase, read⟩] ∧ (read = none ∨ read = some [d]) ∧
    s.2.blocks = []) ∨ s.2.requests = [] ∧ s.2.blocks = [d]
  writes : s.2.writes = []

/-- The presenter knows the score `best`, and either an update of it waits for its callback,
or the last write on its way stores it, or it is stored. -/
structure Loaded (user : String) (d : Document) (best : Int) (s : List Document × Screen) : Prop where
  userID : s.2.presenter.userID = some user
  bestScore : s.2.presenter.bestScore = best
  blocks : s.2.blocks = []
  updates : ∀ r ∈ s.2.requests, r.callback = .updateBestScore ∧
    ∀ read, r.querySnapshot = some read → read.map (·.documentID) = [d.documentID]
  stored : ∃ d' b ns, s.1 = [d'] ∧ d'.documentID = d.documentID ∧
    d'.get "bestScore" = some (.int b) ∧ s.2.writes = ns.map (scoreWrite d.documentID) ∧
    (s.2.requests ≠ [] ∨ (b :: ns).getLast? = some best)

theorem Loading.loading {user : String} {d : Document} {s : List Document × Screen}
    (h : Loading user d s) : s.2.loading = true := by
  unfold Screen.loading
  rcases h.waits with ⟨read, hr, _, _⟩ | ⟨_, hb⟩
  · simp [hr]
  · simp [hb]

theorem Loading.step {user : String} {d : Document} {b₀ : Int} {s t : List Document × Screen}
    {e : Event} (h : Loading user d s) (hd : d.get "bestScore" = some (.int b₀)) (ho : Orderly s e)
    (ha : solo act s e = some t) :
    endsGame s.2 e = none ∧ (Loading user d t ∨ Loaded user d b₀ t) := by
  obtain ⟨documents, s⟩ := s
  obtain ⟨documents', t⟩ := t
  obtain ⟨hs, hread, hdocs⟩ := act_eq_some ha
  have hends : endsGame s e = none := by
    by_contra hne
    have := ho.loaded_first (Option.isSome_iff_ne_none.mpr hne)
    rw [h.loading] at this
    cases this
  refine ⟨hends, ?_⟩
  obtain ⟨hu, hdoc, hwaits, hw⟩ := h
  dsimp only at hu hdoc hwaits hw hread hdocs hends
  have hdocs' : documents' = [d] := by
    rcases hdocs with ⟨_, h1⟩ | ⟨i, w, _, hwi, _⟩
    · rw [h1, hdoc]
    · simp [hw] at hwi
  cases step_scores hs with
  | same hsame _ _ =>
    refine Or.inl ⟨hsame.userID.trans hu, hdocs', ?_, hsame.writes.trans hw⟩
    simpa only [hsame.requests, hsame.blocks] using hwaits
  | better hends' _ _ _ _ _ _ =>
    rw [hends] at hends'
    cases hends'
  | @served i read rs hserve ht =>
    obtain ⟨q, hq, rfl⟩ := serve_eq_some hserve
    subst ht
    have hreadd : read = [d] := (hread i read rfl).trans hdoc
    refine Or.inl ⟨hu, hdocs', ?_, hw⟩
    rcases hwaits with ⟨r, hr, _, hb⟩ | ⟨hr, _⟩
    · obtain ⟨rfl, hr'⟩ := only_element hr hq
      cases hr'
      exact Or.inl ⟨some [d], by simp [hr, hreadd], Or.inr rfl, hb⟩
    · simp [hr] at hq
  | @callback i query read hrequest ht =>
    rcases hwaits with ⟨r, hr, hrd, hb⟩ | ⟨hr, _⟩
    · obtain ⟨rfl, hr'⟩ := only_element hr hrequest
      cases hr'
      subst ht
      have hrd' : read = [d] := by
        rcases hrd with hrd | hrd
        · cases hrd
        · exact Option.some.inj hrd
      exact Or.inl ⟨hu, hdocs', Or.inr ⟨by simp [Learning.callback, hr], by simp [Learning.callback, hb, hrd']⟩, hw⟩
    · simp [hr] at hrequest
  | failed _ => exact absurd rfl (ho.no_failure _).1
  | @block i document hblock ht =>
    rcases hwaits with ⟨r, _, _, hb⟩ | ⟨hr, hb⟩
    · simp [hb] at hblock
    · obtain ⟨rfl, rfl⟩ := only_element hb hblock
      subst ht
      refine Or.inr ⟨hu, ?_, by simp [Learning.bestScoreBlock, scoreUpdate, hb], ?_,
        d, b₀, [], hdocs', rfl, hd, hw, Or.inr rfl⟩
      · simp [Learning.bestScoreBlock, scoreUpdate, Document.bestScore, hd, FieldValue.asInt]
      · simp [Learning.bestScoreBlock, scoreUpdate, hr]
  | applied hwrite _ => simp [hw] at hwrite
  | rejected _ => exact absurd rfl (ho.no_failure _).2

theorem Loaded.callback {user : String} {d : Document} {best : Int} {documents read : List Document}
    {s : Screen} {i : Nat} {query : Query} (h : Loaded user d best (documents, s))
    (hrequest : s.requests[i]? = some ⟨query, some read⟩) :
    Loaded user d best
      (documents, Learning.callback query read { s with requests := s.requests.eraseIdx i }) := by
  obtain ⟨hu, hbest, hblocks, hupdates, d', b, ns, hdoc, hid, hb, hw, _⟩ := h
  dsimp only at hu hbest hblocks hupdates hdoc hw
  obtain ⟨hq, hids⟩ := hupdates _ (List.mem_of_getElem? hrequest)
  dsimp only at hq hids
  subst hq
  obtain ⟨d'', rfl, hid''⟩ := List.map_eq_singleton_iff.mp (hids read rfl)
  refine ⟨hu, hbest, hblocks, ?_, d', b, ns ++ [best], hdoc, hid, hb, ?_, Or.inr ?_⟩
  · intro r hr
    exact hupdates r (List.mem_of_mem_eraseIdx hr)
  · simp [Learning.callback, hw, hid'', hbest, scoreWrite]
  · rw [← List.cons_append, List.getLast?_append]
    rfl

theorem Loaded.applied {user : String} {d : Document} {best : Int} {documents : List Document}
    {s : Screen} {w : Write} (h : Loaded user d best (documents, s)) (hwrite : s.writes[0]? = some w) :
    Loaded user d best (w.applyTo documents, { s with writes := s.writes.eraseIdx 0 }) := by
  obtain ⟨hu, hbest, hblocks, hupdates, d', b, ns, hdoc, hid, hb, hw, hlast⟩ := h
  dsimp only at hu hbest hblocks hupdates hdoc hw hlast
  cases ns with
  | nil => simp [hw] at hwrite
  | cons n ns =>
    have hwn : w = scoreWrite d.documentID n := by
      rw [hw] at hwrite
      exact (Option.some.inj hwrite).symm
    have happ : (scoreWrite d.documentID n).applyTo documents =
        [d'.updateData "bestScore" (.value (.int n))] := by
      rw [hdoc, applyTo_only (by simp [scoreWrite, hid])]
      rfl
    rw [hwn]
    refine ⟨hu, hbest, hblocks, hupdates, _, n, ns, happ, hid, ?_, ?_, ?_⟩
    · simp [get_updateData, FieldUpdate.apply]
    · simp [hw]
    · refine hlast.imp_right fun hl => ?_
      rw [List.getLast?_cons_cons] at hl
      exact hl

theorem Loaded.step {user : String} {d : Document} {best : Int} {s t : List Document × Screen}
    {e : Event} (h : Loaded user d best s) (ho : Orderly s e) (ha : solo act s e = some t) :
    Loaded user d (match endsGame s.2 e with | some n => max best n | none => best) t := by
  obtain ⟨documents, s⟩ := s
  obtain ⟨documents', t⟩ := t
  obtain ⟨hs, hread, hdocs⟩ := act_eq_some ha
  have hloaded := h
  obtain ⟨hu, hbest, hblocks, hupdates, d', b, ns, hdoc, hid, hb, hw, hlast⟩ := h
  dsimp only at hu hbest hblocks hupdates hdoc hw hlast hread hdocs ⊢
  cases step_scores hs with
  | same hsame hends hquiet =>
    have hdocs' := act_documents ha fun i => (hquiet i).2.2.2.2.1
    have hmax : (match endsGame s e with | some n => max best n | none => best) = best := by
      cases he : endsGame s e with
      | none => rfl
      | some n =>
        have hle : n ≤ s.presenter.bestScore := hends n he
        exact max_eq_left (hbest ▸ hle)
    rw [hmax]
    refine ⟨hsame.userID.trans hu, hsame.bestScore.trans hbest, hsame.blocks.trans hblocks, ?_,
      d', b, ns, hdocs'.trans hdoc, hid, hb, hsame.writes.trans hw, ?_⟩
    · simpa only [hsame.requests] using hupdates
    · simpa only [hsame.requests] using hlast
  | better hends hbetter huser hbs hrequests hbl hwr =>
    have hdocs' := act_documents ha (by simp)
    have hreq : t.requests = s.requests ++ [{ callback := .updateBestScore }] := by
      rw [hrequests]
      simp [getDocuments, hu]
    rw [hends]
    refine ⟨huser.trans hu, ?_, hbl.trans hblocks, ?_, d', b, ns, hdocs'.trans hdoc, hid, hb,
      hwr.trans hw, Or.inl ?_⟩
    · have hlt : s.presenter.bestScore < s.view.score := hbetter
      rw [hbest] at hlt
      exact hbs.trans (max_eq_right (Int.le_of_lt hlt)).symm
    · intro r hr
      dsimp only at hr
      rw [hreq, List.mem_append, List.mem_singleton] at hr
      rcases hr with hr | rfl
      · exact hupdates r hr
      · exact ⟨rfl, by simp⟩
    · simp [hreq]
  | @served i read rs hserve ht =>
    obtain ⟨q, hq, rfl⟩ := serve_eq_some hserve
    have hdocs' := act_documents ha (by simp)
    subst ht
    refine ⟨hu, hbest, hblocks, ?_, d', b, ns, hdocs'.trans hdoc, hid, hb, hw, ?_⟩
    · intro r hr
      rcases List.mem_or_eq_of_mem_set hr with hr | rfl
      · exact hupdates r hr
      · refine ⟨(hupdates _ (List.mem_of_getElem? hq)).1, fun ds hds => ?_⟩
        cases hds
        rw [hread i read rfl, hdoc]
        simp [hid]
    · refine hlast.imp_left fun hne => ?_
      simpa using hne
  | callback hrequest ht =>
    obtain rfl := act_documents ha (by simp)
    subst ht
    exact hloaded.callback hrequest
  | failed _ => exact absurd rfl (ho.no_failure _).1
  | block hblock _ => simp [hblocks] at hblock
  | @applied i w hwrite ht =>
    obtain rfl : i = 0 := ho.in_order i rfl
    rcases hdocs with ⟨h1, _⟩ | ⟨j, w', h1, hw', rfl⟩
    · exact absurd rfl (h1 0)
    · cases h1
      rw [hwrite] at hw'
      cases hw'
      subst ht
      exact hloaded.applied hwrite
  | rejected _ => exact absurd rfl (ho.no_failure _).2

theorem run_scores {user : String} {d : Document} {b₀ : Int} {s : List Document × Screen}
    {h : List ((List Document × Screen) × Event)} (hd : d.get "bestScore" = some (.int b₀))
    (hr : Run (solo act) ([d], viewDidLoad (some user)) h s) (ho : ∀ m ∈ h, Orderly m.1 m.2) :
    (largestScore b₀ h = b₀ ∧ Loading user d s) ∨ Loaded user d (largestScore b₀ h) s := by
  refine hr.guarded (I := fun h s =>
    (largestScore b₀ h = b₀ ∧ Loading user d s) ∨ Loaded user d (largestScore b₀ h) s) ho ?_ ?_
  · exact Or.inl ⟨rfl, rfl, rfl, Or.inl ⟨none, rfl, Or.inl rfl, rfl⟩, rfl⟩
  · intro h s e t ih hoe ha
    rw [largestScore_snoc]
    rcases ih with ⟨hb, hl⟩ | hl
    · obtain ⟨hends, hnext⟩ := hl.step hd hoe ha
      rw [hends]
      exact hnext.imp (fun hl => ⟨hb, hl⟩) fun hl => by rw [hb]; exact hl
    · exact Or.inr (hl.step hoe ha)

/-- One screen is the only writer, no request fails, writes are applied in order, and the
initial block runs before a game ends. Then, when nothing waits any more, the stored score
and the score of the presenter are the largest of the first score and the final scores. -/
theorem the_stored_score_comes_to_the_largest {user : String} {d : Document} {b₀ : Int}
    {documents : List Document} {s : Screen} {h : List ((List Document × Screen) × Event)}
    (hd : d.get "bestScore" = some (.int b₀))
    (hr : Run (solo act) ([d], viewDidLoad (some user)) h (documents, s))
    (ho : ∀ m ∈ h, Orderly m.1 m.2) (hrequests : s.requests = []) (hblocks : s.blocks = [])
    (hwrites : s.writes = []) :
    (∃ d', documents = [d'] ∧ d'.get "bestScore" = some (.int (largestScore b₀ h))) ∧
      s.presenter.bestScore = largestScore b₀ h := by
  rcases run_scores hd hr ho with ⟨_, hl⟩ | ⟨_, hbest, _, _, d', b, ns, hdoc, _, hb, hw, hlast⟩
  · rcases hl.waits with ⟨_, hreq, _, _⟩ | ⟨_, hbl⟩
    · simp [hrequests] at hreq
    · simp [hblocks] at hbl
  · have hns : ns = [] := by
      dsimp only at hw
      rw [hwrites] at hw
      exact List.map_eq_nil_iff.mp hw.symm
    subst hns
    have hbl : b = largestScore b₀ h := by
      rcases hlast with hne | hl
      · exact absurd hrequests hne
      · simpa using hl
    exact ⟨⟨d', hdoc, hbl ▸ hb⟩, hbest⟩

/-- A document as the sign-up makes it, with this best score. -/
def userDocument (best : Int) : Document :=
  ⟨"document", [("uid", .string "user"), ("bestScore", .int best)]⟩

/-- A game with one right answer: the vocabulary comes, and the game ends at tick 65. -/
def oneGame : List Event := oneGoodAnswer ++ List.replicate 65 (.timerFires 0)

/-- The query with number `i` is answered with these documents, and its callback runs. -/
def answered (i : Nat) (documents : List Document) : List Event := [.served i documents, .callback i]

/-- The game of a screen that is loaded, with the update of its score. -/
def oneStoredGame : List Event :=
  answered 0 [userDocument 0] ++ [.bestScoreBlock 0] ++ oneGame ++
    answered 0 [userDocument 0] ++ [.applied 0]

theorem one_game_stores_its_score :
    ∃ documents s,
      exec (solo act) ([userDocument 0], viewDidLoad (some "user")) oneStoredGame = some (documents, s) ∧
      (∃ d', documents = [d'] ∧ d'.get "bestScore" = some (.int 1)) ∧ s.presenter.bestScore = 1 := by
  have hnone : (exec (solo act) ([userDocument 0], viewDidLoad (some "user")) oneStoredGame).map
      (fun s => (s.2.requests, s.2.blocks, s.2.writes)) = some ([], [], []) := by decide
  obtain ⟨⟨documents, s⟩, hs, hq⟩ := Option.map_eq_some_iff.mp hnone
  obtain ⟨hrequests, hblocks, hwrites⟩ : s.requests = [] ∧ s.blocks = [] ∧ s.writes = [] := by
    simpa using hq
  have hlargest : largestScore 0
      (momentsOf (solo act) ([userDocument 0], viewDidLoad (some "user")) oneStoredGame) = 1 := by decide
  have hfirst : (userDocument 0).get "bestScore" = some (.int 0) := by decide
  have hlaw := the_stored_score_comes_to_the_largest hfirst (run_of_exec hs) (by decide)
    hrequests hblocks hwrites
  rw [hlargest] at hlaw
  exact ⟨documents, s, hs, hlaw⟩

end EasyVerbs.Learning
