-- Any number of parties around one store. Each party acts alone, on its own
-- state and on the store, in any order, and new parties can come at any
-- time. Nothing here names a program.
import EasyVerbs.Runs
import Mathlib.Data.List.Forall2

namespace Parties

open Runs

variable {D P N A : Type*}

structure Shared (D P : Type*) where
  store : D
  parties : List P

/-- A new party comes, or the party with number `i` takes a step. -/
inductive Move (N A : Type*)
  | join (n : N)
  | act (i : Nat) (a : A)

/-- The machine of all the parties, from how a party starts and how it acts on the store. -/
def step (fresh : N → P) (act : D → P → A → Option (D × P)) (s : Shared D P) :
    Move N A → Option (Shared D P)
  | .join n => some { s with parties := s.parties ++ [fresh n] }
  | .act i a =>
    match s.parties[i]? with
    | none => none
    | some p => (act s.store p a).map fun r => ⟨r.1, s.parties.set i r.2⟩

/-- The machine of one party alone with the store. -/
def solo (act : D → P → A → Option (D × P)) (s : D × P) (a : A) : Option (D × P) :=
  act s.1 s.2 a

/-- The parties other than party `i`. -/
def Shared.others (s : Shared D P) (i : Nat) : List P := s.parties.eraseIdx i

variable {fresh : N → P} {act : D → P → A → Option (D × P)} {s t : Shared D P}
  {h : List (Shared D P × Move N A)}

theorem step_join (n : N) :
    step fresh act s (.join n) = some { s with parties := s.parties ++ [fresh n] } := rfl

theorem step_act_eq_some {i : Nat} {a : A} (hs : step fresh act s (.act i a) = some t) :
    ∃ p d q, s.parties[i]? = some p ∧ act s.store p a = some (d, q) ∧
      t = ⟨d, s.parties.set i q⟩ := by
  unfold step at hs
  cases hp : s.parties[i]? with
  | none => simp [hp] at hs
  | some p =>
    simp only [hp, Option.map_eq_some_iff] at hs
    obtain ⟨⟨d, q⟩, hact, rfl⟩ := hs
    exact ⟨p, d, q, rfl, hact, rfl⟩

theorem step_act {i : Nat} {p q : P} {a : A} {d : D} (hp : s.parties[i]? = some p)
    (ha : act s.store p a = some (d, q)) :
    step fresh act s (.act i a) = some ⟨d, s.parties.set i q⟩ := by
  unfold step
  simp only [hp, ha, Option.map_some]

/-- What a step does to a party that is there: it acts, or it stays. -/
theorem step_party {m : Move N A} {i : Nat} {p : P} (hp : s.parties[i]? = some p)
    (hs : step fresh act s m = some t) :
    ∃ q, t.parties[i]? = some q ∧ (q = p ∨ ∃ a, m = .act i a ∧ act s.store p a = some (t.store, q)) := by
  have hi : i < s.parties.length := (List.getElem?_eq_some_iff.mp hp).1
  cases m with
  | join n =>
    cases hs
    exact ⟨p, by rw [List.getElem?_append_left hi, hp], Or.inl rfl⟩
  | act j a =>
    obtain ⟨p', d, q, hp', hact, rfl⟩ := step_act_eq_some hs
    by_cases hj : j = i
    · subst hj
      rw [hp] at hp'
      cases hp'
      exact ⟨q, by rw [List.getElem?_set_self hi], Or.inr ⟨a, rfl, hact⟩⟩
    · exact ⟨p, by rw [List.getElem?_set_ne hj, hp], Or.inl rfl⟩

/-- A change of the parties that an act respects is respected by the step. -/
theorem step_act_map {f : P → P} {i : Nat} {a : A}
    (hf : ∀ d p, act d (f p) a = (act d p a).map fun r => (r.1, f r.2)) :
    step fresh act { s with parties := s.parties.map f } (.act i a) =
      (step fresh act s (.act i a)).map fun t => { t with parties := t.parties.map f } := by
  simp only [step, List.getElem?_map]
  cases s.parties[i]? with
  | none => rfl
  | some p =>
    simp only [Option.map_some, hf, Option.map_map]
    refine Option.map_congr fun r _ => ?_
    simp only [Function.comp_apply, List.map_set]

/-! ## What the parties give out -/

/-- What the party that acts gives out. -/
def outputOf {O : Type*} (out : P → A → List O) (parties : List P) : Move N A → List O
  | .join _ => []
  | .act i a => (parties[i]?.map fun p => out p a).getD []

theorem outputOf_map {O : Type*} {out : P → A → List O} {f : P → P} {parties : List P} {i : Nat} {a : A}
    (hf : ∀ p, out (f p) a = out p a) :
    outputOf out (parties.map f) (.act i a : Move N A) = outputOf out parties (.act i a : Move N A) := by
  simp only [outputOf, List.getElem?_map]
  cases parties[i]? with
  | none => rfl
  | some p => exact hf p

/-- What each act leaves of the store, a step leaves. -/
theorem step_keeps {D' : Type*} {f : D → D'} {m : Move N A} (hs : step fresh act s m = some t)
    (hact : ∀ d p a d' q, act d p a = some (d', q) → f d' = f d) : f t.store = f s.store := by
  cases m with
  | join n =>
    cases hs
    rfl
  | act i a =>
    obtain ⟨p, d, q, hp, ha, rfl⟩ := step_act_eq_some hs
    exact hact _ _ _ _ _ ha

/-- When each act changes what `f` sees of the store by what the party gives out, so does a step. -/
theorem step_output {D' O : Type*} {f : D → D'} {apply : D' → O → D'} {out : P → A → List O} {m : Move N A}
    (hs : step fresh act s m = some t)
    (hact : ∀ d p a d' q, act d p a = some (d', q) → f d' = (out p a).foldl apply (f d)) :
    f t.store = (outputOf out s.parties m).foldl apply (f s.store) := by
  cases m with
  | join n =>
    cases hs
    rfl
  | act i a =>
    obtain ⟨p, d, q, hp, ha, rfl⟩ := step_act_eq_some hs
    simp only [outputOf, hp, Option.map_some, Option.getD_some]
    exact hact _ _ _ _ _ ha

theorem mem_outputOf {O : Type*} {out : P → A → List O} {parties : List P} {m : Move N A} {x : O}
    (hx : x ∈ outputOf out parties m) :
    ∃ i a p, m = .act i a ∧ parties[i]? = some p ∧ x ∈ out p a := by
  cases m with
  | join n => cases hx
  | act i a =>
    unfold outputOf at hx
    dsimp only at hx
    cases hp : parties[i]? with
    | none =>
      rw [hp] at hx
      cases hx
    | some p =>
      rw [hp] at hx
      exact ⟨i, a, p, rfl, hp, hx⟩

/-- What holds of nothing and of all that a party can give out holds of what a move gives out. -/
theorem outputOf_of {O : Type*} {out : P → A → List O} {parties : List P} {Q : List O → Prop}
    (m : Move N A) (hnil : Q []) (hout : ∀ p ∈ parties, ∀ a, Q (out p a)) : Q (outputOf out parties m) := by
  cases m with
  | join n => exact hnil
  | act i a =>
    unfold outputOf
    dsimp only
    cases hp : parties[i]? with
    | none => exact hnil
    | some p => exact hout p (List.mem_of_getElem? hp) a

/-! ## What the parties came with -/

/-- What the parties that come in a move come with. -/
def joined : Move N A → List N
  | .join n => [n]
  | .act _ _ => []

theorem forall₂_set {R : N → P → Prop} {ns : List N} {l : List P} {i : Nat} {p q : P}
    (h : List.Forall₂ R ns l) (hp : l[i]? = some p) (hq : ∀ n, R n p → R n q) :
    List.Forall₂ R ns (l.set i q) := by
  induction h generalizing i with
  | nil => exact .nil
  | cons hr hrest ih =>
    cases i with
    | zero =>
      cases hp
      exact .cons (hq _ hr) hrest
    | succ i => exact .cons hr (ih hp)

theorem forall₂_set_both {R : N → P → Prop} {ns : List N} {l : List P} {n : N} {q : P}
    (h : List.Forall₂ R ns l) (hq : R n q) (i : Nat) : List.Forall₂ R (ns.set i n) (l.set i q) := by
  induction h generalizing i with
  | nil => exact .nil
  | cons hr hrest ih =>
    cases i with
    | zero => exact .cons hq hrest
    | succ i => exact .cons hr (ih i)

theorem forall₂_eraseIdx {R : N → P → Prop} {ns : List N} {l : List P} (h : List.Forall₂ R ns l) (i : Nat) :
    List.Forall₂ R (ns.eraseIdx i) (l.eraseIdx i) := by
  rw [List.eraseIdx_eq_take_drop_succ, List.eraseIdx_eq_take_drop_succ]
  exact List.rel_append (List.forall₂_take i h) (List.forall₂_drop (i + 1) h)

theorem forall₂_getElem? {R : N → P → Prop} {ns : List N} {l : List P} {i : Nat} {p : P}
    (h : List.Forall₂ R ns l) (hp : l[i]? = some p) : ∃ n, ns[i]? = some n ∧ R n p := by
  induction h generalizing i with
  | nil => cases hp
  | cons hr _ ih =>
    cases i with
    | zero =>
      cases hp
      exact ⟨_, rfl, hr⟩
    | succ i => exact ih hp

/-- A bond between a party and what it came with that each act keeps is kept by each step. -/
theorem step_joined {R : N → P → Prop} {ns : List N} {m : Move N A}
    (hs : step fresh act s m = some t) (h : List.Forall₂ R ns s.parties)
    (hfresh : ∀ n, R n (fresh n))
    (hact : ∀ d n p a d' q, R n p → act d p a = some (d', q) → R n q) :
    List.Forall₂ R (ns ++ joined m) t.parties := by
  cases m with
  | join n =>
    cases hs
    exact List.rel_append h (.cons (hfresh n) .nil)
  | act i a =>
    obtain ⟨p, d, q, hp, ha, rfl⟩ := step_act_eq_some hs
    rw [joined, List.append_nil]
    exact forall₂_set h hp fun n hn => hact _ n _ _ _ _ hn ha

theorem set_party {l : List P} {i : Nat} {p : P} (hp : l[i]? = some p) : l.set i p = l := by
  obtain ⟨hi, rfl⟩ := List.getElem?_eq_some_iff.mp hp
  exact List.set_getElem_self hi

/-- A tag of the parties that no act changes, after a step. -/
theorem step_tags {T : Type*} {f : P → T} {m : Move N A} (hs : step fresh act s m = some t)
    (hact : ∀ d p a d' q, act d p a = some (d', q) → f q = f p) :
    t.parties.map f = s.parties.map f ++ (joined m).map fun n => f (fresh n) := by
  cases m with
  | join n =>
    cases hs
    simp [joined]
  | act i a =>
    obtain ⟨p, d, q, hp, ha, rfl⟩ := step_act_eq_some hs
    have hget : (s.parties.map f)[i]? = some (f p) := by rw [List.getElem?_map, hp, Option.map_some]
    simp only [joined, List.map_nil, List.append_nil, List.map_set]
    rw [hact _ _ _ _ _ ha]
    exact set_party hget

/-- A list around one of its elements. -/
theorem split_at {l : List P} {i : Nat} {p : P} (h : l[i]? = some p) :
    ∃ before after, l = before ++ p :: after ∧ l.eraseIdx i = before ++ after ∧
      ∀ q, l.set i q = before ++ q :: after := by
  obtain ⟨hi, rfl⟩ := List.getElem?_eq_some_iff.mp h
  refine ⟨l.take i, l.drop (i + 1), ?_, List.eraseIdx_eq_take_drop_succ l i, fun q => ?_⟩
  · rw [← List.drop_eq_getElem_cons hi, List.take_append_drop]
  · rw [List.set_eq_take_append_cons_drop, if_pos hi]

/-- After party `i` became `q`, a party is `q` or one of the others. -/
theorem mem_set_iff {l : List P} {i : Nat} {p q : P} (hi : i < l.length) :
    p ∈ l.set i q ↔ p = q ∨ p ∈ l.eraseIdx i := by
  rw [List.set_eq_take_append_cons_drop, if_pos hi, List.eraseIdx_eq_take_drop_succ]
  simp only [List.mem_append, List.mem_cons]
  tauto

theorem only_element {l : List P} {i : Nat} {p q : P} (hl : l = [p]) (h : l[i]? = some q) :
    i = 0 ∧ p = q := by
  subst hl
  simpa [List.getElem?_singleton] using h

theorem lt_of_party {l : List P} {i : Nat} {p : P} (hp : l[i]? = some p) : i < l.length :=
  (List.getElem?_eq_some_iff.mp hp).1

/-- What each new party has and each act keeps, a step leaves to all parties. -/
theorem step_all {I : P → Prop} {m : Move N A} (hs : step fresh act s m = some t)
    (h : ∀ p ∈ s.parties, I p) (hfresh : ∀ n, I (fresh n))
    (hact : ∀ d p a d' q, I p → act d p a = some (d', q) → I q) : ∀ p ∈ t.parties, I p := by
  cases m with
  | join n =>
    cases hs
    intro p hp
    rcases List.mem_append.mp hp with hp | hp
    · exact h p hp
    · rw [List.mem_singleton.mp hp]
      exact hfresh n
  | act i a =>
    obtain ⟨p, d, q, hp, ha, rfl⟩ := step_act_eq_some hs
    intro x hx
    rcases (mem_set_iff (lt_of_party hp)).mp hx with rfl | hx
    · exact hact _ _ _ _ _ (h p (List.mem_of_getElem? hp)) ha
    · exact h x (List.mem_of_mem_eraseIdx hx)

/-- The same for an act on the store as it is, by one of the parties that are there. -/
theorem step_each {I J : P → Prop} {m : Move N A} (hs : step fresh act s m = some t)
    (h : ∀ p ∈ s.parties, I p) (hfresh : ∀ n, J (fresh n)) (hkeep : ∀ p ∈ s.parties, I p → J p)
    (hact : ∀ p ∈ s.parties, ∀ a q, I p → act s.store p a = some (t.store, q) → J q) :
    ∀ p ∈ t.parties, J p := by
  cases m with
  | join n =>
    cases hs
    intro p hp
    rcases List.mem_append.mp hp with hp | hp
    · exact hkeep p hp (h p hp)
    · rw [List.mem_singleton.mp hp]
      exact hfresh n
  | act i a =>
    obtain ⟨p, d, q, hp, ha, rfl⟩ := step_act_eq_some hs
    have hmem : p ∈ s.parties := List.mem_of_getElem? hp
    intro x hx
    rcases (mem_set_iff (lt_of_party hp)).mp hx with rfl | hx
    · exact hact p hmem a _ (h p hmem) ha
    · exact hkeep x (List.mem_of_mem_eraseIdx hx) (h x (List.mem_of_mem_eraseIdx hx))

/-- What holds of the store, between the store and each party that comes, and between each
two parties, and is kept by each act of any of them, holds after each run. -/
theorem compatible_parties {J : D → Prop} {R : D → P → Prop} {X : P → P → Prop}
    {s₀ : Shared D P} (hr : Run (step fresh act) s₀ h s)
    (h0 : J s₀.store ∧ (∀ p ∈ s₀.parties, R s₀.store p) ∧ s₀.parties.Pairwise X)
    (hsymm : ∀ p q, X p q → X q p) (hfresh : ∀ d n, J d → R d (fresh n))
    (hapart : ∀ d p n, R d p → X p (fresh n))
    (hact : ∀ d p a d' p', J d → R d p → act d p a = some (d', p') → J d' ∧ R d' p')
    (hframe : ∀ d p a d' p' q, J d → R d p → R d q → X p q → act d p a = some (d', p') →
      R d' q ∧ X p' q) :
    J s.store ∧ (∀ p ∈ s.parties, R s.store p) ∧ s.parties.Pairwise X := by
  refine hr.invariant
    (I := fun s => J s.store ∧ (∀ p ∈ s.parties, R s.store p) ∧ s.parties.Pairwise X) h0 ?_
  rintro s (n | ⟨i, a⟩) t ⟨hj, hrel, hpair⟩ hs
  · rw [step_join] at hs
    cases hs
    refine ⟨hj, fun p hp => ?_, ?_⟩
    · rcases List.mem_append.mp hp with hp | hp
      · exact hrel p hp
      · rw [List.mem_singleton.mp hp]
        exact hfresh _ n hj
    · rw [List.pairwise_append]
      refine ⟨hpair, List.pairwise_singleton _ _, fun p hp q hq => ?_⟩
      rw [List.mem_singleton.mp hq]
      exact hapart _ p n (hrel p hp)
  · obtain ⟨p, d, q, hp, ha, rfl⟩ := step_act_eq_some hs
    obtain ⟨before, after, hl, _, hset⟩ := split_at hp
    have hpr : R s.store p := hrel p (List.mem_of_getElem? hp)
    obtain ⟨hj', hq⟩ := hact _ _ _ _ _ hj hpr ha
    rw [hl, List.pairwise_append, List.pairwise_cons] at hpair
    obtain ⟨hbefore, ⟨hpafter, hafter⟩, hcross⟩ := hpair
    have hbeforeR : ∀ x ∈ before, R s.store x ∧ X p x := fun x hx =>
      ⟨hrel x (by simp [hl, hx]), hsymm _ _ (hcross x hx p (by simp))⟩
    have hafterR : ∀ x ∈ after, R s.store x ∧ X p x := fun x hx =>
      ⟨hrel x (by simp [hl, hx]), hpafter x hx⟩
    have hkeep : ∀ x, R s.store x ∧ X p x → R d x ∧ X q x := fun x hx =>
      hframe _ _ _ _ _ _ hj hpr hx.1 hx.2 ha
    dsimp only
    rw [hset]
    refine ⟨hj', fun x hx => ?_, ?_⟩
    · rcases List.mem_append.mp hx with hx | hx
      · exact (hkeep x (hbeforeR x hx)).1
      · rcases List.mem_cons.mp hx with rfl | hx
        · exact hq
        · exact (hkeep x (hafterR x hx)).1
    · rw [List.pairwise_append, List.pairwise_cons]
      refine ⟨hbefore, ⟨fun x hx => (hkeep x (hafterR x hx)).2, hafter⟩, fun x hx y hy => ?_⟩
      rcases List.mem_cons.mp hy with rfl | hy
      · exact hsymm _ _ (hkeep x (hbeforeR x hx)).2
      · exact hcross x hx y (by simp [hy])

/-- The same without a bond between the parties or between a party and the store. -/
theorem all_parties {J : D → Prop} {I : P → Prop} {s₀ : Shared D P}
    (hr : Run (step fresh act) s₀ h s) (h0 : J s₀.store ∧ ∀ p ∈ s₀.parties, I p)
    (hfresh : ∀ n, I (fresh n))
    (hact : ∀ d p a d' p', J d → I p → act d p a = some (d', p') → J d' ∧ I p') :
    J s.store ∧ ∀ p ∈ s.parties, I p := by
  have hall := compatible_parties (J := J) (R := fun _ p => I p) (X := fun _ _ => True) hr
    ⟨h0.1, h0.2, List.pairwise_of_forall fun _ _ => trivial⟩ (fun _ _ _ => trivial)
    (fun _ n _ => hfresh n) (fun _ _ _ _ => trivial) hact
    fun _ _ _ _ _ _ _ _ hq _ _ => ⟨hq, trivial⟩
  exact ⟨hall.1, hall.2.1⟩

/-! ## The parties of one kind -/

/-- The number that party `i` has among the parties of the kind. -/
def rank (kind : P → Bool) (parties : List P) (i : Nat) : Nat := ((parties.take i).filter kind).length

/-- A move as the parties of the kind see it, with the parties and the newcomer that it meets. -/
def seenBy {A' : Type*} (kind : P → Bool) (parties : List P) (fresh : N → P) (see : A → A') :
    Move N A → Option (Move N A')
  | .join n => if kind (fresh n) then some (.join n) else none
  | .act i a => if parties[i]?.any kind then some (.act (rank kind parties i) (see a)) else none

variable {kind : P → Bool}

theorem getElem?_rank {l : List P} {i : Nat} {p : P} (hp : l[i]? = some p) (hk : kind p = true) :
    (l.filter kind)[rank kind l i]? = some p := by
  induction l generalizing i with
  | nil => cases hp
  | cons x l ih =>
    cases i with
    | zero =>
      cases hp
      simp [rank, hk]
    | succ i =>
      have ih := ih hp
      unfold rank at ih ⊢
      rw [List.take_succ_cons, List.filter_cons, List.filter_cons]
      split
      · simpa using ih
      · exact ih

theorem filter_set_kind {l : List P} {i : Nat} {p q : P} (hp : l[i]? = some p) (hk : kind p = true)
    (hq : kind q = true) : (l.set i q).filter kind = (l.filter kind).set (rank kind l i) q := by
  induction l generalizing i with
  | nil => cases hp
  | cons x l ih =>
    cases i with
    | zero =>
      cases hp
      simp [rank, hk, hq]
    | succ i =>
      have ih := ih hp
      unfold rank at ih ⊢
      rw [List.set_cons_succ, List.take_succ_cons, List.filter_cons, List.filter_cons, List.filter_cons, ih]
      split
      · simp
      · rfl

theorem filter_set_other {l : List P} {i : Nat} {p q : P} (hp : l[i]? = some p) (hk : kind p = false)
    (hq : kind q = false) : (l.set i q).filter kind = l.filter kind := by
  induction l generalizing i with
  | nil => cases hp
  | cons x l ih =>
    cases i with
    | zero =>
      cases hp
      simp [hk, hq]
    | succ i => 
      rw [List.set_cons_succ, List.filter_cons, List.filter_cons, ih hp]

/-- When the acts of the kind are acts on a part of the store, and no other party touches this part,
the parties of the kind alone see each step. -/
theorem step_kind {D' A' : Type*} {f : D → D'} {see : A → A'} {fresh' : N → P}
    {act' : D' → P → A' → Option (D' × P)} {m : Move N A} (hs : step fresh act s m = some t)
    (hfresh : ∀ n, kind (fresh n) = true → fresh' n = fresh n)
    (hkeep : ∀ p ∈ s.parties, ∀ a q, act s.store p a = some (t.store, q) → kind q = kind p)
    (hown : ∀ p ∈ s.parties, ∀ a q, kind p = true → act s.store p a = some (t.store, q) →
      act' (f s.store) p (see a) = some (f t.store, q))
    (hother : ∀ p ∈ s.parties, ∀ a q, kind p = false → act s.store p a = some (t.store, q) →
      f t.store = f s.store) :
    Seen (step fresh' act') ⟨f s.store, s.parties.filter kind⟩ ⟨f t.store, t.parties.filter kind⟩
      (seenBy kind s.parties fresh see m) := by
  cases m with
  | join n =>
    cases hs
    by_cases hk : kind (fresh n) = true
    · simp only [seenBy, hk, if_true, Seen]
      rw [step_join, hfresh n hk]
      simp [hk]
    · simp [seenBy, hk, Seen]
  | act i a =>
    obtain ⟨p, d, q, hp, ha, rfl⟩ := step_act_eq_some hs
    have hmem : p ∈ s.parties := List.mem_of_getElem? hp
    have hq := hkeep p hmem a q ha
    cases hk : kind p with
    | true =>
      have hstep : step fresh' act' ⟨f s.store, s.parties.filter kind⟩ (.act (rank kind s.parties i) (see a)) =
          some ⟨f d, (s.parties.filter kind).set (rank kind s.parties i) q⟩ :=
        step_act (getElem?_rank hp hk) (hown p hmem a q hk ha)
      simp only [seenBy, hp, Option.any_some, hk, if_true, Seen]
      rw [hstep, filter_set_kind hp hk (hq.trans hk)]
    | false =>
      simp only [seenBy, hp, Option.any_some, hk, Bool.false_eq_true, if_false, Seen]
      rw [hother p hmem a q hk ha, filter_set_other hp hk (hq.trans hk)]

end Parties
