-- The other side of settled scores: a new score that is not settled can be
-- followed by a write that stores less than it replaces.
import EasyVerbs.SharedBestScore

open Runs Parties

namespace EasyVerbs.Learning

/-- What holds of the documents and of each screen of the user in every run. -/
structure Known (user id : String) (s : Screens) : Prop where
  ids : s.store.map (·.documentID) = [id]
  owned : ∀ p ∈ s.parties, Owned id p
  userID : ∀ p ∈ s.parties, p.presenter.userID = some user

theorem step_userID {s t : Screen} {e : Event} (hs : s.step e = some t) :
    t.presenter.userID = s.presenter.userID := by
  cases step_scores hs with
  | same hsame _ _ => exact hsame.userID
  | better _ _ huser _ _ _ _ => exact huser
  | served _ ht => rw [ht]
  | @callback i query read _ ht =>
    subst ht
    cases query <;> rfl
  | failed ht => rw [ht]
  | block _ ht =>
    subst ht
    rfl
  | applied _ ht => rw [ht]
  | rejected ht => rw [ht]

theorem run_known {user id : String} {s t : Screens} {h : List (Screens × Move Unit Event)}
    (hr : Run (Screens.step user) s h t) (hs : Known user id s) : Known user id t := by
  obtain ⟨hids, howned, huser⟩ := hs
  have hact : ∀ documents p e documents' q, documents.map (·.documentID) = [id] →
      Owned id p ∧ p.presenter.userID = some user → act documents p e = some (documents', q) →
      documents'.map (·.documentID) = [id] ∧ Owned id q ∧ q.presenter.userID = some user := by
    intro documents p e documents' q hj hp ha
    obtain ⟨hj', hq⟩ := act_owned hj hp.1 ha
    exact ⟨hj', hq, (step_userID (act_eq_some ha).1).trans hp.2⟩
  obtain ⟨hids', hall⟩ := all_parties hr ⟨hids, fun p hp => ⟨howned p hp, huser p hp⟩⟩
    (fun n => ⟨openScreen_owned user id n, rfl⟩) hact
  exact ⟨hids', fun p hp => (hall p hp).1, fun p hp => (hall p hp).2⟩

/-! ## A score under way comes to the store -/

def Screens.underWay (s : Screens) (n : Int) : Prop := ∃ p ∈ s.parties, n ∈ p.underWay

theorem underWay_set {s : Screens} {i : Nat} {p q : Screen} {v : Int} {documents : List Document}
    (hp : s.parties[i]? = some p) (hkeep : v ∈ p.underWay → v ∈ q.underWay)
    (hv : s.underWay v) : Screens.underWay ⟨documents, s.parties.set i q⟩ v := by
  obtain ⟨before, after, hl, _, hset⟩ := split_at hp
  obtain ⟨x, hx, hxv⟩ := hv
  rw [hl] at hx
  dsimp only [Screens.underWay]
  rw [hset]
  rcases List.mem_append.mp hx with hx | hx
  · exact ⟨x, by simp [hx], hxv⟩
  · rcases List.mem_cons.mp hx with rfl | hx
    · exact ⟨q, by simp, hkeep hxv⟩
    · exact ⟨x, by simp [hx], hxv⟩

theorem apply_score {user id : String} {s : Screens} {i : Nat} {p : Screen} {n : Int}
    (hs : Known user id s) (hp : s.parties[i]? = some p) (hn : n ∈ p.written) :
    ∃ e t, Screens.step user s (.act i e) = some t ∧ t.store.map (·.bestScore) = [n] ∧
      ∀ v ≠ n, s.underWay v → t.underWay v := by
  obtain ⟨w, hw, hscore⟩ := List.mem_filterMap.mp hn
  obtain ⟨m, rfl⟩ := (hs.owned p (List.mem_of_getElem? hp)).writes w hw
  obtain rfl : m = n := Option.some.inj hscore
  obtain ⟨d, hd, hid⟩ := List.map_eq_singleton_iff.mp hs.ids
  obtain ⟨k, hk, hwk⟩ := List.getElem_of_mem hw
  have hwk' : p.writes[k]? = some (scoreWrite id m) := by rw [List.getElem?_eq_getElem hk, hwk]
  have happ : (scoreWrite id m).applyTo s.store = [d.updateData "bestScore" (.value (.int m))] := by
    rw [hd]
    exact applyTo_only hid.symm
  have hact : act s.store p (.applied k) = some ((scoreWrite id m).applyTo s.store,
      { p with writes := p.writes.eraseIdx k }) := by
    unfold act
    simp only [hwk', Screen.step, if_pos hk, Option.map_some]
  refine ⟨.applied k, _, step_act hp hact, ?_, fun v hv => underWay_set hp fun hvp => ?_⟩
  · simp [happ]
  · rw [mem_underWay] at hvp ⊢
    refine hvp.imp_right fun hvw => ?_
    obtain ⟨w, hmem, hwv⟩ := List.mem_filterMap.mp hvw
    obtain ⟨before, after, hl, herase, _⟩ := split_at hwk'
    refine List.mem_filterMap.mpr ⟨w, ?_, hwv⟩
    dsimp only
    rw [herase]
    rw [hl] at hmem
    rcases List.mem_append.mp hmem with hmem | hmem
    · simp [hmem]
    · rcases List.mem_cons.mp hmem with rfl | hmem
      · exact absurd (Option.some.inj hwv).symm hv
      · simp [hmem]

theorem callback_written {user id : String} {s : Screens} {i j : Nat} {p : Screen}
    {read : List Document} (hs : Known user id s) (hp : s.parties[i]? = some p)
    (hquery : p.requests[j]? = some ⟨.updateBestScore, some read⟩) :
    ∃ q, Screens.step user s (.act i (.callback j)) = some ⟨s.store, s.parties.set i q⟩ ∧
      p.presenter.bestScore ∈ q.written ∧ ∀ v ∈ p.written, v ∈ q.written := by
  have hread := (hs.owned p (List.mem_of_getElem? hp)).read _ (List.mem_of_getElem? hquery) read rfl
  obtain ⟨d, rfl, _⟩ := List.map_eq_singleton_iff.mp hread
  refine ⟨_, step_act hp (q := callback .updateBestScore [d] { p with requests := p.requests.eraseIdx j })
    ?_, ?_, fun v hv => ?_⟩
  · simp only [act, Screen.step, hquery, Option.map_some]
  · simp [Screen.written, callback, scoreOf, FieldValue.asInt]
  · obtain ⟨w, hw, hwv⟩ := List.mem_filterMap.mp hv
    exact List.mem_filterMap.mpr ⟨w, by simp [callback, hw], hwv⟩

theorem send_score {user id : String} {s : Screens} {i : Nat} {p : Screen}
    (hs : Known user id s) (hp : s.parties[i]? = some p) (hup : p.updating = true) :
    ∃ h q, Run (Screens.step user) s h ⟨s.store, s.parties.set i q⟩ ∧
      p.presenter.bestScore ∈ q.written ∧ ∀ v ∈ p.written, v ∈ q.written := by
  obtain ⟨⟨query, read⟩, hr, hq⟩ := List.any_eq_true.mp hup
  obtain rfl : query = .updateBestScore := by simpa using hq
  obtain ⟨j, hj, hjr⟩ := List.getElem_of_mem hr
  have hquery : p.requests[j]? = some ⟨.updateBestScore, read⟩ := by
    rw [List.getElem?_eq_getElem hj, hjr]
  cases read with
  | some read =>
    obtain ⟨q, hstep, hbest, hwritten⟩ := callback_written hs hp hquery
    exact ⟨_, q, Run.start.snoc hstep, hbest, hwritten⟩
  | none =>
    -- the server answers the query first
    have hserved : act s.store p (.served j s.store) = some (s.store,
        { p with requests := p.requests.set j ⟨.updateBestScore, some s.store⟩ }) := by
      simp [act, Screen.step, serve, hquery]
    have hfirst : Run (Screens.step user) s _ _ := Run.start.snoc (step_act hp hserved)
    have hi := lt_of_party hp
    obtain ⟨q, hstep, hbest, hwritten⟩ := callback_written (i := i) (j := j) (run_known hfirst hs)
      (List.getElem?_set_self hi) (List.getElem?_set_self hj)
    dsimp only at hstep
    rw [List.set_set] at hstep
    exact ⟨_, q, hfirst.snoc hstep, hbest, hwritten⟩

/-- A score under way can come to the store, while the other ones stay under way. -/
theorem store_score {user id : String} {s : Screens} {n : Int} (hs : Known user id s)
    (hn : s.underWay n) :
    ∃ h t, Run (Screens.step user) s h t ∧ t.store.map (·.bestScore) = [n] ∧
      ∀ v ≠ n, s.underWay v → t.underWay v := by
  obtain ⟨p, hpm, hnp⟩ := hn
  obtain ⟨i, hi, rfl⟩ := List.getElem_of_mem hpm
  have hp := List.getElem?_eq_getElem hi
  rcases mem_underWay.mp hnp with ⟨hup, rfl⟩ | hw
  · obtain ⟨h, q, hr, hbest, hwritten⟩ := send_score hs hp hup
    obtain ⟨e, t, hstep, hstore, hkeep⟩ := apply_score (run_known hr hs) (List.getElem?_set_self hi) hbest
    refine ⟨_, t, hr.snoc hstep, hstore, fun v hv hvs => hkeep v hv (underWay_set hp ?_ hvs)⟩
    intro hvp
    rcases mem_underWay.mp hvp with ⟨_, rfl⟩ | hvw
    · exact absurd rfl hv
    · exact mem_underWay.mpr (Or.inr (hwritten v hvw))
  · obtain ⟨e, t, hstep, hstore, hkeep⟩ := apply_score hs hp hw
    exact ⟨_, t, Run.start.snoc hstep, hstore, hkeep⟩

/-! ## Losing a score -/

/-- Some run from here has a step that stores less than it replaces. -/
def CanLose (user : String) (s : Screens) : Prop :=
  ∃ h t, Run (Screens.step user) s h t ∧ ∃ m ∈ h, ¬ KeepsBest user m

theorem run_keepsBest {user : String} {s t : Screens} {h : List (Screens × Move Unit Event)}
    {b c : Int} (hr : Run (Screens.step user) s h t) (hk : ∀ m ∈ h, KeepsBest user m)
    (hs : s.store.map (·.bestScore) = [b]) (ht : t.store.map (·.bestScore) = [c]) : b ≤ c := by
  induction hr generalizing c with
  | start =>
    rw [hs] at ht
    simp at ht
    omega
  | @snoc h u t e hr hstep ih =>
    have hle := hk (u, e) (by simp) t hstep
    have hle' : List.Forall₂ (· ≤ ·) (u.store.map (·.bestScore)) (t.store.map (·.bestScore)) :=
      List.forall₂_map_left_iff.mpr (List.forall₂_map_right_iff.mpr hle)
    rw [ht] at hle'
    obtain ⟨a, l, hac, hl, hu⟩ := List.forall₂_cons_right_iff.mp hle'
    rw [List.forall₂_nil_right_iff.mp hl] at hu
    have hba := ih (fun m hm => hk m (by simp [hm])) hu
    omega

/-- A score under way below the stored one can be lost. -/
theorem canLose_of_lower {user id : String} {s : Screens} {b n : Int} (hs : Known user id s)
    (hb : s.store.map (·.bestScore) = [b]) (hn : s.underWay n) (hlt : n < b) : CanLose user s := by
  obtain ⟨h, t, hr, hstore, _⟩ := store_score hs hn
  refine ⟨h, t, hr, ?_⟩
  by_contra hlose
  have hk : ∀ m ∈ h, KeepsBest user m := fun m hm => not_not.mp fun hmk => hlose ⟨m, hm, hmk⟩
  have hle := run_keepsBest hr hk hb hstore
  omega

/-- Of two scores under way the smaller one can be stored last. -/
theorem canLose_of_two {user id : String} {s : Screens} {m n : Int} (hs : Known user id s)
    (hm : s.underWay m) (hn : s.underWay n) (hlt : m < n) : CanLose user s := by
  obtain ⟨h, t, hr, hstore, hkeep⟩ := store_score hs hn
  obtain ⟨h', u, hr', hlose⟩ := canLose_of_lower (run_known hr hs) hstore (hkeep m (by omega) hm) hlt
  obtain ⟨x, hx, hxk⟩ := hlose
  exact ⟨_, u, hr.trans hr', x, by simp [hx], hxk⟩

/-- A new score that is not settled can be followed by a step that stores less than it
replaces, whatever came before. -/
theorem an_unsettled_score_can_be_lost {user : String} {d : Document}
    {h : List (Screens × Move Unit Event)} {s t : Screens} {m : Move Unit Event}
    (hr : Run (Screens.step user) ⟨[d], []⟩ h s) (hm : Screens.step user s m = some t)
    (hns : ¬ Settled s m) : CanLose user t := by
  have hs : Known user d.documentID s := run_known hr ⟨rfl, by simp, by simp⟩
  have ht : Known user d.documentID t := run_known (Run.start.snoc hm) hs
  cases m with
  | join _ => exact absurd trivial hns
  | act i e =>
    obtain ⟨p, documents, q, hp, ha, rfl⟩ := step_act_eq_some hm
    have hpm := List.mem_of_getElem? hp
    obtain ⟨n, hnew, hbad⟩ : ∃ n, newScore p e = some n ∧ ¬ ((∀ d ∈ s.store, d.bestScore ≤ n) ∧
        (∀ u ∈ p.written, u = n) ∧ ∀ q ∈ s.others i, ∀ u ∈ q.underWay, u = n) := by
      by_contra hall
      refine hns fun p' hp' n hn => ?_
      rw [hp] at hp'
      cases hp'
      exact not_not.mp fun hbad => hall ⟨n, hn, hbad⟩
    have hdoc : documents = s.store := by
      rcases act_store hs.ids (hs.owned p hpm) ha with hd | ⟨hnone, _⟩
      · exact hd
      · rw [hnew] at hnone
        cases hnone
    subst hdoc
    obtain ⟨hbest, hwritten, hup⟩ := step_newScore (act_eq_some ha).1 hnew
    have hn : n ∈ q.underWay := mem_underWay.mpr (Or.inl ⟨hup (by simp [hs.userID p hpm]), hbest.symm⟩)
    have hmem : ∀ x, x = q ∨ x ∈ s.others i → x ∈ s.parties.set i q := fun x =>
      (mem_set_iff (lt_of_party hp)).mpr
    have hnt : Screens.underWay ⟨s.store, s.parties.set i q⟩ n := ⟨q, hmem q (Or.inl rfl), hn⟩
    have htwo : ∀ u, Screens.underWay ⟨s.store, s.parties.set i q⟩ u → u ≠ n →
        CanLose user ⟨s.store, s.parties.set i q⟩ := by
      intro u hu hne
      rcases lt_or_gt_of_ne hne with hlt | hlt
      · exact canLose_of_two ht hu hnt hlt
      · exact canLose_of_two ht hnt hu hlt
    by_contra hkeep
    refine hbad ⟨fun b hb => ?_, fun u hu => ?_, fun x hx u hu => ?_⟩
    · by_contra hlt
      obtain ⟨b', hb', _⟩ := List.map_eq_singleton_iff.mp hs.ids
      rw [hb', List.mem_singleton] at hb
      subst hb
      have hstored : s.store.map (·.bestScore) = [b.bestScore] := by simp [hb']
      exact hkeep (canLose_of_lower ht hstored hnt (by omega))
    · by_contra hne
      rw [← hwritten] at hu
      exact hkeep (htwo u ⟨q, hmem q (Or.inl rfl), mem_underWay.mpr (Or.inr hu)⟩ hne)
    · by_contra hne
      exact hkeep (htwo u ⟨x, hmem x (Or.inr hx), hu⟩ hne)

end EasyVerbs.Learning
