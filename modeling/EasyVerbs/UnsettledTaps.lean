-- The other side of settled taps: after a tap that is not settled the screen can
-- come to rest with a favourite that was not flipped by it.
import EasyVerbs.FavoriteTaps

open Runs Parties Updates

namespace EasyVerbs.Details

/-! ## Coming to rest -/

/-- The event is no tap, and nothing fails in it. -/
def Event.isCalm : Event → Bool
  | .addToFavoritesButton | .failed _ | .rejected _ => false
  | _ => true

/-- The steps that a screen is from rest: a query is read, its callback puts a block on the
global queue, and this one on the main queue. -/
def Screen.distance (s : Screen) : Nat :=
  (s.requests.map fun r => if r.querySnapshot.isSome then 3 else 4).sum + 2 * s.globalBlocks.length +
    s.mainBlocks.length

structure OnlyLoads (d : Document) (s : List Document × Screen) : Prop where
  documents : s.1 = [d]
  owned : Owned d.documentID s.2
  toggles : s.2.toggles = []
  writes : s.2.writes = []

theorem OnlyLoads.progress {d : Document} {s : List Document × Screen} (h : OnlyLoads d s)
    (hrest : ¬ Drained s.2) :
    ∃ e t, e.isCalm = true ∧ solo act s e = some t ∧ OnlyLoads d t ∧ t.2.distance < s.2.distance := by
  obtain ⟨documents, p, requests, globalBlocks, mainBlocks, writes⟩ := s
  obtain ⟨rfl, howned, htoggles, rfl⟩ := h
  have hids : [d].map (·.documentID) = [d.documentID] := rfl
  cases requests with
  | cons r rest =>
    obtain ⟨query, read⟩ := r
    cases read with
    | none =>
      have hs : solo act ([d], ⟨p, ⟨query, none⟩ :: rest, globalBlocks, mainBlocks, []⟩) (.served 0 [d]) =
          some ([d], ⟨p, ⟨query, some [d]⟩ :: rest, globalBlocks, mainBlocks, []⟩) := by
        simp [solo, act, Screen.step, serve]
      refine ⟨_, _, rfl, hs, ⟨rfl, (act_owned hids howned hs).2, htoggles, rfl⟩, ?_⟩
      simp [Screen.distance]
    | some read =>
      obtain ⟨hquery, herase⟩ := toggles_erase_nil (i := 0) rfl htoggles
      obtain ⟨d', rfl, _⟩ := List.map_eq_singleton_iff.mp (howned.read ⟨query, some read⟩ (by simp) read rfl)
      cases query with
      | load l =>
        have hs : solo act ([d], ⟨p, ⟨.load l, some [d']⟩ :: rest, globalBlocks, mainBlocks, []⟩) (.callback 0) =
            some ([d], ⟨p, rest, globalBlocks ++ [(l, d')], mainBlocks, []⟩) := by
          simp [solo, act, Screen.step, callback]
        refine ⟨_, _, rfl, hs, ⟨rfl, (act_owned hids howned hs).2, herase, rfl⟩, ?_⟩
        simp [Screen.distance]
        omega
      | addFavoriteVerbs verb => cases hquery
      | deleteFavoriteVerbs verb => cases hquery
  | nil =>
    cases globalBlocks with
    | cons b rest =>
      obtain ⟨l, d'⟩ := b
      have hs : solo act ([d], ⟨p, [], (l, d') :: rest, mainBlocks, []⟩) (.globalBlock 0) =
          some ([d], globalBlock l d' ⟨p, [], rest, mainBlocks, []⟩) := by
        simp [solo, act, Screen.step]
      refine ⟨_, _, rfl, hs, ⟨rfl, (act_owned hids howned hs).2, rfl, rfl⟩, ?_⟩
      simp [Screen.distance, globalBlock]
      omega
    | nil =>
      cases mainBlocks with
      | cons l rest =>
        have hs : solo act ([d], ⟨p, [], [], l :: rest, []⟩) (.mainBlock 0) =
            some ([d], mainBlock l ⟨p, [], [], rest, []⟩) := by
          simp [solo, act, Screen.step]
        refine ⟨_, _, rfl, hs, ⟨rfl, (act_owned hids howned hs).2, rfl, rfl⟩, ?_⟩
        simp [Screen.distance, mainBlock]
      | nil => exact absurd ⟨rfl, rfl, rfl, rfl⟩ hrest

theorem OnlyLoads.drain {d : Document} {s : List Document × Screen} (h : OnlyLoads d s) :
    ∃ h' u, Run (solo act) s h' ([d], u) ∧ (∀ m ∈ h', m.2.isCalm = true) ∧ Drained u := by
  obtain ⟨h', ⟨documents, u⟩, hr, hcalm, ⟨rfl, _⟩, hdrained⟩ :=
    exists_run_to (fun s => s.2.distance) (fun s hs hrest => hs.progress hrest) h
  exact ⟨h', u, hr, hcalm, hdrained⟩

theorem run_owned_solo {id : String} {s t : List Document × Screen}
    {h : List ((List Document × Screen) × Event)} (hr : Run (solo act) s h t)
    (hids : s.1.map (·.documentID) = [id]) (hs : Owned id s.2) : Owned id t.2 := by
  have hall := hr.invariant (I := fun s => s.1.map (·.documentID) = [id] ∧ Owned id s.2) ⟨hids, hs⟩ ?_
  · exact hall.2
  · rintro ⟨documents, s⟩ e ⟨documents', t⟩ ⟨hids, howned⟩ hstep
    exact act_owned hids howned hstep

/-! ## Finishing a change -/

theorem exec_toggle {name : String} {favorite : Bool} {d d' : Document} {s : Screen} {i : Nat}
    {read : List Document} (hquery : s.requests[i]? = some ⟨toggleQuery name favorite, some read⟩)
    (hread : read.map (·.documentID) = [d.documentID])
    (happly : (writeOf d.documentID (toggleUpdate name favorite)).applyTo [d] = [d']) :
    exec (solo act) ([d], s) [.callback i, .applied s.writes.length] =
      some ([d'], { s with requests := s.requests.eraseIdx i }) := by
  obtain ⟨x, rfl, hx⟩ := List.map_eq_singleton_iff.mp hread
  simp [exec, solo, act, Screen.step, hquery, callback_toggleQuery, hx, happly,
    List.eraseIdx_append_of_length_le]

theorem finish_toggle {name : String} {favorite : Bool} {d : Document} {s : Screen} {i : Nat}
    {read : Option (List Document)} (howned : Owned d.documentID s)
    (hquery : s.requests[i]? = some ⟨toggleQuery name favorite, read⟩) :
    ∃ h d', Run (solo act) ([d], s) h ([d'], { s with requests := s.requests.eraseIdx i }) ∧
      (∀ m ∈ h, m.2.isCalm = true) ∧ d'.documentID = d.documentID ∧
      (name ∈ d'.favoritesVerbs ↔ favorite = false) := by
  obtain ⟨d', happly, hid, hfav⟩ := applyTo_writeOf (toggleUpdate name favorite) d
  have hstored : name ∈ d'.favoritesVerbs ↔ favorite = false := by rw [hfav, mem_toggleUpdate]
  have hcalm : ∀ e ∈ [Event.callback i, .applied s.writes.length], e.isCalm = true := by
    simp [Event.isCalm]
  cases read with
  | some read =>
    have hread := howned.read _ (List.mem_of_getElem? hquery) read rfl
    obtain ⟨h, hr, hevents⟩ := exists_run_of_exec (exec_toggle hquery hread happly)
    exact ⟨h, d', hr, forall_of_events hevents hcalm, hid, hstored⟩
  | none =>
    -- the server answers the query first
    have hi := lt_of_party hquery
    have hserved : solo act ([d], s) (.served i [d]) =
        some ([d], { s with requests := s.requests.set i ⟨toggleQuery name favorite, some [d]⟩ }) := by
      simp [solo, act, Screen.step, serve, hquery]
    have hexec := exec_toggle (s := { s with
        requests := s.requests.set i ⟨toggleQuery name favorite, some [d]⟩ })
      (List.getElem?_set_self hi) rfl happly
    dsimp only at hexec
    rw [List.eraseIdx_set_eq] at hexec
    obtain ⟨h, hr, hevents⟩ := exists_run_of_exec hexec
    refine ⟨_, d', (Run.start.snoc hserved).trans hr, List.forall_mem_append.mpr ⟨?_, ?_⟩, hid, hstored⟩
    · simp [Event.isCalm]
    · exact forall_of_events hevents hcalm

/-- The last change that is on its way decides, whatever the document holds now. -/
theorem finish_phase {name : String} {favorite : Bool} {d : Document} {s : Screen}
    (howned : Owned d.documentID s)
    (hphase : s.toggles = [toggleQuery name favorite] ∧ s.writes = [] ∨
      s.toggles = [] ∧ s.writes = [writeOf d.documentID (toggleUpdate name favorite)]) :
    ∃ h d' u, Run (solo act) ([d], s) h ([d'], u) ∧ (∀ m ∈ h, m.2.isCalm = true) ∧ Drained u ∧
      (name ∈ d'.favoritesVerbs ↔ favorite = false) := by
  obtain ⟨h, d', t, hr, hcalm, hid, htoggles, hwrites, hstored⟩ : ∃ h d' t,
      Run (solo act) ([d], s) h ([d'], t) ∧ (∀ m ∈ h, m.2.isCalm = true) ∧
      d'.documentID = d.documentID ∧ t.toggles = [] ∧ t.writes = [] ∧
      (name ∈ d'.favoritesVerbs ↔ favorite = false) := by
    rcases hphase with ⟨hone, hwrites⟩ | ⟨htoggles, hwrites⟩
    · have hmem : toggleQuery name favorite ∈ s.toggles := by simp [hone]
      obtain ⟨⟨query, read⟩, hr, rfl⟩ := List.mem_map.mp (List.mem_of_mem_filter hmem)
      obtain ⟨i, hi, hir⟩ := List.getElem_of_mem hr
      have hquery := List.getElem?_eq_getElem hi
      rw [hir] at hquery
      obtain ⟨h, d', hrun, hcalm, hid, hstored⟩ := finish_toggle howned hquery
      refine ⟨h, d', _, hrun, hcalm, hid, ?_, hwrites, hstored⟩
      rcases toggles_erase_one hquery hone with ⟨_, herase⟩ | ⟨hload, _⟩
      · exact herase
      · simp at hload
    · obtain ⟨d', happly, hid, hfav⟩ := applyTo_writeOf (toggleUpdate name favorite) d
      have hs : solo act ([d], s) (.applied 0) = some ([d'], { s with writes := [] }) := by
        simp [solo, act, Screen.step, hwrites, happly]
      refine ⟨_, d', _, Run.start.snoc hs, by simp [Event.isCalm], hid, htoggles, rfl, ?_⟩
      rw [hfav, mem_toggleUpdate]
  have howned' := run_owned_solo hr rfl howned
  obtain ⟨h', u, hr', hcalm', hdrained⟩ :=
    OnlyLoads.drain (s := ([d'], t)) ⟨rfl, by rw [hid]; exact howned', htoggles, hwrites⟩
  exact ⟨_, d', u, hr.trans hr', List.forall_mem_append.mpr ⟨hcalm, hcalm'⟩, hdrained, hstored⟩

/-! ## A tap that is not settled -/

/-- The screen with the load of a tap on its way too. -/
def Screen.reloading (s : Screen) : Screen :=
  { s with requests := s.requests ++ [{ callback := .load .repeatDownloadFavoriteVerbs }] }

theorem reloading_toggles (s : Screen) : s.reloading.toggles = s.toggles := by
  unfold Screen.toggles Screen.queries Screen.reloading
  simp

/-- The change of a tap can be finished before everything else, and leaves its load. -/
theorem finish_tap {user name : String} {verb : IrregularVerb} {d : Document} {s : Screen}
    (hshows : Shows user verb s) (hname : verb.infinitive = some name) (hview : s.presenter.view.isSome)
    (howned : Owned d.documentID (addToFavorites s)) :
    ∃ h d', Run (solo act) ([d], addToFavorites s) h ([d'], s.reloading) ∧
      (∀ m ∈ h, m.2.isCalm = true) ∧ d'.documentID = d.documentID ∧
      (name ∈ d'.favoritesVerbs ↔ name ∉ s.presenter.favoritesVerbs) := by
  have htap : (addToFavorites s).requests = s.requests ++
      [{ callback := toggleQuery name (s.presenter.favoritesVerbs.contains name) },
        { callback := .load .repeatDownloadFavoriteVerbs }] := by
    rw [addToFavorites_eq, hshows.tapQueries hname hview]
    rfl
  have hquery : (addToFavorites s).requests[s.requests.length]? =
      some ⟨toggleQuery name (s.presenter.favoritesVerbs.contains name), none⟩ := by
    rw [htap]
    simp
  obtain ⟨h, d', hr, hcalm, hid, hstored⟩ := finish_toggle howned hquery
  have hreloading : { addToFavorites s with
      requests := (addToFavorites s).requests.eraseIdx s.requests.length } = s.reloading := by
    rw [htap, List.eraseIdx_append_of_length_le (le_refl _), Nat.sub_self, addToFavorites_eq]
    rfl
  rw [hreloading] at hr
  exact ⟨h, d', hr, hcalm, hid, hstored.trans (by simp)⟩

/-- After settled taps, a tap that is not settled can come to rest with the favourite that was
wanted before it. -/
theorem Flipping.unsettled {user name id : String} {verb : IrregularVerb} {wanted : Prop}
    {s t : List Document × Screen} (h : Flipping user name verb id wanted s)
    (hname : verb.infinitive = some name) (htap : solo act s .addToFavoritesButton = some t)
    (hns : ¬ SettledTap name s .addToFavoritesButton) :
    ∃ h' d' u, Run (solo act) t h' ([d'], u) ∧ (∀ m ∈ h', m.2.isCalm = true) ∧ Drained u ∧
      (name ∈ d'.favoritesVerbs ↔ wanted) := by
  obtain ⟨documents, s⟩ := s
  obtain ⟨documents', t⟩ := t
  obtain ⟨hshows, howned, d, rfl, rfl, hphase⟩ := h
  have howned' := (act_owned (show [d].map (·.documentID) = [d.documentID] from rfl) howned htap).2
  cases act_cases htap with
  | tap hview =>
    obtain ⟨h1, d1, hr1, hcalm1, hid1, hstored1⟩ := finish_tap hshows hname hview howned'
    have howned1 : Owned d1.documentID s.reloading := hid1 ▸ run_owned_solo hr1 rfl howned'
    -- then what was on its way before the tap has the last word
    obtain ⟨h2, d2, u, hr2, hcalm2, hdrained, hstored2⟩ : ∃ h2 d2 u,
        Run (solo act) ([d1], s.reloading) h2 ([d2], u) ∧ (∀ m ∈ h2, m.2.isCalm = true) ∧ Drained u ∧
        (name ∈ d2.favoritesVerbs ↔ wanted) := by
      cases hphase with
      | rest hnone hwrites hstored =>
        have hloads : OnlyLoads d1 ([d1], s.reloading) :=
          ⟨rfl, howned1, (reloading_toggles s).trans hnone, hwrites⟩
        obtain ⟨h2, u, hr2, hcalm2, hdrained⟩ := hloads.drain
        refine ⟨h2, d1, u, hr2, hcalm2, hdrained, ?_⟩
        have hlocal : ¬ (name ∈ s.presenter.favoritesVerbs ↔ name ∈ d.favoritesVerbs) := by
          intro hknown
          refine hns ⟨hnone, hwrites, fun x hx => ?_⟩
          rwa [List.mem_singleton.mp hx]
        rw [hstored1, ← hstored]
        tauto
      | asked favorite hone hwrites _ hwanted =>
        obtain ⟨h2, d2, u, hr2, hcalm2, hdrained, hstored2⟩ := finish_phase howned1
          (Or.inl ⟨(reloading_toggles s).trans hone, hwrites⟩)
        exact ⟨h2, d2, u, hr2, hcalm2, hdrained, hstored2.trans hwanted.symm⟩
      | sent favorite hnone hwrites _ hwanted =>
        have hwrites1 : s.reloading.writes = [writeOf d1.documentID (toggleUpdate name favorite)] := by
          rw [hid1]
          exact hwrites
        obtain ⟨h2, d2, u, hr2, hcalm2, hdrained, hstored2⟩ := finish_phase howned1
          (Or.inr ⟨(reloading_toggles s).trans hnone, hwrites1⟩)
        exact ⟨h2, d2, u, hr2, hcalm2, hdrained, hstored2.trans hwanted.symm⟩
    exact ⟨_, d2, u, hr1.trans hr2, List.forall_mem_append.mpr ⟨hcalm1, hcalm2⟩, hdrained, hstored2⟩

/-- In a run of settled taps the first tap that is not settled can go wrong: with no tap and
no failure after it, the screen can come to rest with the verb not flipped once for each tap. -/
theorem an_unsettled_tap_can_fail_to_flip {user name : String} {verb : IrregularVerb} {d : Document}
    {h : List ((List Document × Screen) × Event)} {s t : List Document × Screen}
    (hname : verb.infinitive = some name)
    (hr : Run (solo act) ([d], loaded user (some verb) d) h s)
    (hok : ∀ m ∈ h, m.2.isFailure = false) (hg : ∀ m ∈ h, SettledTap name m.1 m.2)
    (htap : solo act s .addToFavoritesButton = some t)
    (hns : ¬ SettledTap name s .addToFavoritesButton) :
    ∃ h' d' u, Run (solo act) t h' ([d'], u) ∧ (∀ m ∈ h', m.2.isCalm = true) ∧ Drained u ∧
      ¬ (name ∈ d'.favoritesVerbs ↔ Xor (name ∈ d.favoritesVerbs) (Odd (taps h + 1))) := by
  obtain ⟨h', d', u, hr', hcalm, hdrained, hstored⟩ := (run_flipping hname hr hok hg).unsettled hname htap hns
  refine ⟨h', d', u, hr', hcalm, hdrained, ?_⟩
  rw [hstored, xor_odd_succ]
  exact fun hiff => not_iff_self hiff.symm

end EasyVerbs.Details
