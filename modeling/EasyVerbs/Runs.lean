-- Runs of a machine whose events can be refused. A run keeps its moments:
-- each state it went through, with the event that came there. So a law can
-- speak of what happened before. Nothing here names a program.
import Mathlib.Data.List.Basic

namespace Runs

variable {S E A L : Type*}

/-! ## Runs -/

/-- `Run step s₀ h s`: from `s₀` the moments `h`, oldest first, lead to `s`. The
machine gives `none` for an event that cannot happen in a state. -/
inductive Run (step : S → E → Option S) (s₀ : S) : List (S × E) → S → Prop
  | start : Run step s₀ [] s₀
  | snoc {h : List (S × E)} {s t : S} {e : E} :
      Run step s₀ h s → step s e = some t → Run step s₀ (h ++ [(s, e)]) t

variable {step : S → E → Option S} {s₀ s t : S} {h h' : List (S × E)}

theorem Run.trans (h1 : Run step s₀ h s) (h2 : Run step s h' t) : Run step s₀ (h ++ h') t := by
  induction h2 with
  | start => simpa using h1
  | snoc _ ht ih =>
    rw [← List.append_assoc]
    exact ih.snoc ht

theorem Run.split {m : S × E} {h1 h2 : List (S × E)} (hr : Run step s₀ h s)
    (hm : h = h1 ++ m :: h2) :
    Run step s₀ h1 m.1 ∧ ∃ t, step m.1 m.2 = some t ∧ Run step t h2 s := by
  induction hr generalizing h2 with
  | start => simp at hm
  | @snoc h s t e hr ht ih =>
    rcases List.eq_nil_or_concat h2 with rfl | ⟨h3, m', rfl⟩
    · obtain ⟨rfl, hme⟩ := List.append_inj' hm rfl
      simp only [List.cons.injEq, and_true] at hme
      subst hme
      exact ⟨hr, t, ht, .start⟩
    · simp only [List.concat_eq_append] at hm
      rw [← List.cons_append, ← List.append_assoc] at hm
      obtain ⟨hh, hme⟩ := List.append_inj' hm rfl
      simp only [List.cons.injEq, and_true] at hme
      obtain ⟨h1', u, hu, hrest⟩ := ih hh
      rw [List.concat_eq_append, ← hme]
      exact ⟨h1', u, hu, hrest.snoc ht⟩

theorem Run.moment {m : S × E} (hr : Run step s₀ h s) (hm : m ∈ h) :
    (∃ h1, Run step s₀ h1 m.1 ∧ ∀ x ∈ h1, x ∈ h) ∧ ∃ t, step m.1 m.2 = some t := by
  obtain ⟨h1, h2, rfl⟩ := List.append_of_mem hm
  obtain ⟨hr1, t, ht, _⟩ := hr.split rfl
  exact ⟨⟨h1, hr1, fun x hx => by simp [hx]⟩, t, ht⟩

/-! ## Invariants -/

/-- A property that holds at the start and is kept by each step holds after each run. -/
theorem Run.invariant {I : S → Prop} (hr : Run step s₀ h s) (h0 : I s₀)
    (hstep : ∀ s e t, I s → step s e = some t → I t) : I s := by
  induction hr with
  | start => exact h0
  | snoc _ ht ih => exact hstep _ _ _ ih ht

/-- The same for a property of the state and of the moments before it, in a run whose
moments all meet the condition `G`. -/
theorem Run.guarded {I : List (S × E) → S → Prop} {G : S → E → Prop} (hr : Run step s₀ h s)
    (hg : ∀ m ∈ h, G m.1 m.2) (h0 : I [] s₀)
    (hstep : ∀ h s e t, I h s → G s e → step s e = some t → I (h ++ [(s, e)]) t) : I h s := by
  induction hr with
  | start => exact h0
  | snoc _ ht ih =>
    simp only [List.mem_append, List.mem_singleton] at hg
    exact hstep _ _ _ _ (ih fun m hm => hg m (Or.inl hm)) (hg _ (Or.inr rfl)) ht

/-- A property of every state of a run, the last one included. -/
def Throughout (P : S → Prop) (h : List (S × E)) (s : S) : Prop :=
  (∀ m ∈ h, P m.1) ∧ P s

theorem Throughout.imp {P Q : S → Prop} (hp : Throughout P h s) (hpq : ∀ s, P s → Q s) :
    Throughout Q h s :=
  ⟨fun m hm => hpq _ (hp.1 m hm), hpq _ hp.2⟩

/-- When a step from a `P` state lands in a `P` state exactly under the condition `G`, the
states of a run are all `P` exactly when its moments all meet `G`. -/
theorem Run.throughout_iff {P : S → Prop} {G : S → E → Prop} (hr : Run step s₀ h s) (h0 : P s₀)
    (hstep : ∀ s e t, P s → step s e = some t → (P t ↔ G s e)) :
    Throughout P h s ↔ ∀ m ∈ h, G m.1 m.2 := by
  induction hr with
  | start => simp [Throughout, h0]
  | @snoc h s t e _ ht ih =>
    simp only [Throughout, List.mem_append, List.mem_singleton] at ih ⊢
    constructor
    · rintro ⟨hall, hlast⟩ m hm
      have hs : P s := hall (s, e) (Or.inr rfl)
      rcases hm with hm | rfl
      · exact ih.mp ⟨fun m hm => hall m (Or.inl hm), hs⟩ m hm
      · exact (hstep s e t hs ht).mp hlast
    · intro hg
      obtain ⟨hall, hs⟩ := ih.mpr fun m hm => hg m (Or.inl hm)
      refine ⟨?_, (hstep s e t hs ht).mpr (hg (s, e) (Or.inr rfl))⟩
      rintro m (hm | rfl)
      · exact hall m hm
      · exact hs

/-- When each state that is not done has a good step that lowers a measure, a run of good
steps comes to a state that is done. -/
theorem exists_run_to {I Done : S → Prop} {G : E → Prop} (μ : S → Nat)
    (hstep : ∀ s, I s → ¬ Done s → ∃ e t, G e ∧ step s e = some t ∧ I t ∧ μ t < μ s)
    (hs : I s) : ∃ h t, Run step s h t ∧ (∀ m ∈ h, G m.2) ∧ I t ∧ Done t := by
  suffices aux : ∀ n s, μ s = n → I s → ∃ h t, Run step s h t ∧ (∀ m ∈ h, G m.2) ∧ I t ∧ Done t from
    aux (μ s) s rfl hs
  intro n
  induction n using Nat.strongRecOn with
  | _ n ih =>
    intro s hn hs
    by_cases hdone : Done s
    · exact ⟨[], s, .start, by simp, hs, hdone⟩
    · obtain ⟨e, t, he, ht, hit, hlt⟩ := hstep s hs hdone
      obtain ⟨h, u, hr, hg, hu, hudone⟩ := ih (μ t) (hn ▸ hlt) t rfl hit
      refine ⟨_, u, (Run.start.snoc ht).trans hr, List.forall_mem_append.mpr ⟨?_, hg⟩, hu, hudone⟩
      simpa using he

/-! ## Reached states -/

/-- A state that a run from one of the starts comes to. -/
def Reached (step : S → E → Option S) (Start : S → Prop) (s : S) : Prop :=
  ∃ s₀ h, Start s₀ ∧ Run step s₀ h s

theorem Reached.start {Start : S → Prop} (hs : Start s) : Reached step Start s := ⟨s, [], hs, .start⟩

theorem Reached.snoc {Start : S → Prop} {e : E} (hr : Reached step Start s) (ht : step s e = some t) :
    Reached step Start t := by
  obtain ⟨s₀, h, hstart, hrun⟩ := hr
  exact ⟨s₀, _, hstart, hrun.snoc ht⟩

/-! ## One machine seen as another -/

/-- Each step is a step of the other machine, or one that it does not see. -/
def Simulates (step : S → E → Option S) (astep : A → L → Option A) (abs : S → A)
    (label : S → E → Option L) : Prop :=
  ∀ s e t, step s e = some t →
    match label s e with
    | some l => astep (abs s) l = some (abs t)
    | none => abs t = abs s

/-- The moments of a run, as the moments of the machine `abs` and `label` see it as. -/
def project (abs : S → A) (label : S → E → Option L) (h : List (S × E)) : List (A × L) :=
  h.filterMap fun m => (label m.1 m.2).map fun l => (abs m.1, l)

theorem Run.project {abs : S → A} {label : S → E → Option L} {astep : A → L → Option A}
    (hr : Run step s₀ h s) (hsim : Simulates step astep abs label) :
    Run astep (abs s₀) (project abs label h) (abs s) := by
  induction hr with
  | start => exact .start
  | @snoc h s t e _ ht ih =>
    have hst := hsim s e t ht
    unfold Runs.project at ih ⊢
    rw [List.filterMap_append]
    cases hl : label s e with
    | none =>
      rw [hl] at hst
      simpa [hl, hst] using ih
    | some l =>
      rw [hl] at hst
      simpa [hl] using ih.snoc hst

/-- What another machine makes of a step: it takes the label, or there is none and it stays. -/
def Seen (astep : A → L → Option A) (a a' : A) : Option L → Prop
  | some l => astep a l = some a'
  | none => a' = a

theorem Seen.map {B M : Type*} {astep : A → L → Option A} {bstep : B → M → Option B} {a a' : A} {b b' : B}
    {l : Option L} {g : L → M} (h : Seen astep a a' l)
    (hstep : ∀ l, astep a l = some a' → bstep b (g l) = some b') (hstay : a' = a → b' = b) :
    Seen bstep b b' (l.map g) := by
  cases l with
  | none => exact hstay h
  | some l => exact hstep l h

/-- A run whose steps the other machine sees as long as an invariant holds that they keep. -/
theorem Run.project_of {I : S → Prop} {abs : S → A} {label : S → E → Option L} {astep : A → L → Option A}
    (hr : Run step s₀ h s) (h0 : I s₀)
    (hstep : ∀ s e t, I s → step s e = some t → I t ∧ Seen astep (abs s) (abs t) (label s e)) :
    I s ∧ Run astep (abs s₀) (Runs.project abs label h) (abs s) := by
  induction hr with
  | start => exact ⟨h0, .start⟩
  | @snoc h s t e _ ht ih =>
    obtain ⟨hs, ih⟩ := ih
    obtain ⟨hit, hst⟩ := hstep s e t hs ht
    refine ⟨hit, ?_⟩
    unfold Runs.project at ih ⊢
    rw [List.filterMap_append]
    cases hl : label s e with
    | none =>
      rw [hl] at hst
      have hsame : abs t = abs s := hst
      simpa [hl, hsame] using ih
    | some l =>
      rw [hl] at hst
      have htake : astep (abs s) l = some (abs t) := hst
      simpa [hl] using ih.snoc htake

/-- The states of a run have a property of what the other machine sees exactly when the
states that it sees have it. -/
theorem Run.throughout_project {P : A → Prop} {abs : S → A} {label : S → E → Option L}
    {astep : A → L → Option A} (hr : Run step s₀ h s) (hsim : Simulates step astep abs label) :
    Throughout (fun s => P (abs s)) h s ↔ Throughout P (Runs.project abs label h) (abs s) := by
  induction hr with
  | start => simp [Throughout, Runs.project]
  | @snoc h s t e _ ht ih =>
    have hst := hsim s e t ht
    have hsplit : Throughout (fun s => P (abs s)) (h ++ [(s, e)]) t ↔
        Throughout (fun s => P (abs s)) h s ∧ P (abs t) := by
      simp only [Throughout, List.mem_append, List.mem_singleton, or_imp, forall_and, forall_eq]
    rw [hsplit, ih]
    unfold Runs.project
    rw [List.filterMap_append]
    cases hl : label s e with
    | none =>
      rw [hl] at hst
      simp only [Throughout, hl, hst, List.filterMap_cons, Option.map_none, List.filterMap_nil,
        List.append_nil, and_assoc, and_self]
    | some l =>
      simp only [Throughout, hl, List.filterMap_cons, Option.map_some, List.filterMap_nil,
        List.mem_append, List.mem_singleton, or_imp, forall_and, forall_eq]

/-- What holds of each moment that the other machine sees, said of the moments of the run. -/
theorem forall_project {G : A → L → Prop} {abs : S → A} {label : S → E → Option L} :
    (∀ m ∈ project abs label h, G m.1 m.2) ↔
      ∀ m ∈ h, ∀ l ∈ label m.1 m.2, G (abs m.1) l := by
  unfold project
  simp only [List.mem_filterMap, Option.map_eq_some_iff, Option.mem_def]
  constructor
  · intro hg m hm l hl
    exact hg (abs m.1, l) ⟨m, hm, l, hl, rfl⟩
  · rintro hg _ ⟨m, hm, l, hl, rfl⟩
    exact hg m hm l hl

/-! ## Runs that are computed -/

/-- The state after the events, or none when one of them is refused. -/
def exec (step : S → E → Option S) : S → List E → Option S
  | s, [] => some s
  | s, e :: es => (step s e).bind fun t => exec step t es

/-- The moments of the events, up to the first one that is refused. -/
def momentsOf (step : S → E → Option S) : S → List E → List (S × E)
  | _, [] => []
  | s, e :: es =>
    match step s e with
    | some t => (s, e) :: momentsOf step t es
    | none => []

theorem exec_one (s : S) (e : E) : exec step s [e] = step s e := by
  cases hs : step s e <;> simp [exec, hs]

theorem exec_append (es es' : List E) :
    exec step s (es ++ es') = (exec step s es).bind fun t => exec step t es' := by
  induction es generalizing s with
  | nil => rfl
  | cons e es ih => cases hs : step s e <;> simp [exec, hs, ih]

theorem exec_snoc {es : List E} {e : E} (he : exec step s₀ es = some s) (ht : step s e = some t) :
    exec step s₀ (es ++ [e]) = some t := by
  simp [exec_append, he, exec, ht]

theorem Run.exec (hr : Run step s₀ h s) : exec step s₀ (h.map Prod.snd) = some s := by
  induction hr with
  | start => rfl
  | snoc _ ht ih =>
    rw [List.map_append]
    exact exec_snoc ih ht

theorem run_of_exec {es : List E} (he : exec step s es = some t) :
    Run step s (momentsOf step s es) t := by
  induction es generalizing s with
  | nil =>
    simp only [exec, Option.some.injEq] at he
    exact he ▸ .start
  | cons e es ih =>
    simp only [exec, Option.bind_eq_some_iff] at he
    obtain ⟨u, hu, hrest⟩ := he
    simp only [momentsOf, hu]
    exact (Run.start.snoc hu).trans (ih hrest)

theorem exists_run_of_exec {es : List E} (he : exec step s es = some t) :
    ∃ h, Run step s h t ∧ h.map Prod.snd = es := by
  refine ⟨momentsOf step s es, run_of_exec he, ?_⟩
  induction es generalizing s with
  | nil => rfl
  | cons e es ih =>
    simp only [exec, Option.bind_eq_some_iff] at he
    obtain ⟨u, hu, hrest⟩ := he
    simp only [momentsOf, hu, List.map_cons, ih hrest]

theorem exec_seen {abs : S → A} {astep : A → E → Option A} {es : List E}
    (hsim : ∀ s e t, step s e = some t → astep (abs s) e = some (abs t)) (he : exec step s es = some t) :
    exec astep (abs s) es = some (abs t) := by
  induction es generalizing s with
  | nil =>
    cases he
    rfl
  | cons e es ih =>
    obtain ⟨u, hu, hrest⟩ := Option.bind_eq_some_iff.mp he
    rw [exec, hsim s e u hu]
    exact ih hrest

/-- Two machines that agree step by step, as long as an invariant holds that the first one
keeps, agree on all rows of events, and on which ones are refused. -/
theorem exec_map {I : S → Prop} {abs : S → A} {astep : A → E → Option A}
    (hstep : ∀ s e, I s → (step s e).map abs = astep (abs s) e)
    (hkeep : ∀ s e t, I s → step s e = some t → I t) (hs : I s) (es : List E) :
    (exec step s es).map abs = exec astep (abs s) es := by
  induction es generalizing s with
  | nil => rfl
  | cons e es ih =>
    have hse := hstep s e hs
    rw [exec, exec, ← hse]
    cases ht : step s e with
    | none => rfl
    | some t => exact ih (hkeep s e t hs ht)

theorem exec_invariant {I : S → Prop} {G : E → Prop} {es : List E} (he : exec step s es = some t)
    (hg : ∀ e ∈ es, G e) (hs : I s) (hstep : ∀ s e t, I s → G e → step s e = some t → I t) : I t := by
  induction es generalizing s with
  | nil =>
    cases he
    exact hs
  | cons e es ih =>
    obtain ⟨u, hu, hrest⟩ := Option.bind_eq_some_iff.mp he
    rw [List.forall_mem_cons] at hg
    exact ih hrest hg.2 (hstep s e u hs hg.1 hu)

/-- Each step of a run is a row of events of the other machine, so the run is one of them. -/
theorem Run.refines {abs : S → A} {astep : A → L → Option A} (hr : Run step s₀ h s)
    (hsim : ∀ s e t, step s e = some t → ∃ es, Runs.exec astep (abs s) es = some (abs t)) :
    ∃ h', Run astep (abs s₀) h' (abs s) := by
  induction hr with
  | start => exact ⟨[], .start⟩
  | snoc _ ht ih =>
    obtain ⟨h', hr'⟩ := ih
    obtain ⟨es, hes⟩ := hsim _ _ _ ht
    exact ⟨_, hr'.trans (run_of_exec hes)⟩

theorem run_of_isSome {es : List E} (he : (exec step s es).isSome) :
    Run step s (momentsOf step s es) ((exec step s es).get he) :=
  run_of_exec (Option.some_get he).symm

theorem forall_of_events {es : List E} {G : E → Prop} (he : h.map Prod.snd = es)
    (hg : ∀ e ∈ es, G e) : ∀ m ∈ h, G m.2 := by
  subst he
  intro m hm
  exact hg m.2 (List.mem_map_of_mem hm)

end Runs
