-- Words over an ordered alphabet, compared letter by letter. A word is below
-- another one when a letter decides it, and then what follows them does not
-- matter. Codes whose words are decided this way keep the order of what they
-- encode, no word of such a code begins another one, and two of them in a row
-- are a code of pairs. Nothing here names a program.
import Mathlib.Data.List.Lex
import Mathlib.Data.Fin.Basic
import Mathlib.Order.Fin.Basic
import Mathlib.Tactic.Ring

namespace Codes

/-! ## Decided words -/

section
variable {α β γ : Type*} [LinearOrder α]

/-- `s` is below `t` at a letter that both of them have. -/
def Below : List α → List α → Prop
  | a :: s, b :: t => a < b ∨ a = b ∧ Below s t
  | _, _ => False

@[simp] theorem below_cons (a b : α) (s t : List α) :
    Below (a :: s) (b :: t) ↔ a < b ∨ a = b ∧ Below s t := Iff.rfl

@[simp] theorem not_below_nil (s : List α) : ¬ Below s [] := by cases s <;> simp [Below]

@[simp] theorem not_nil_below (s : List α) : ¬ Below [] s := by simp [Below]

variable {s t u v : List α}

theorem Below.lt (h : Below s t) : s < t := by
  induction s generalizing t with
  | nil => simp at h
  | cons a s ih =>
    cases t with
    | nil => simp at h
    | cons b t =>
      rcases (below_cons a b s t).mp h with hab | ⟨rfl, hst⟩
      · exact List.Lex.rel hab
      · exact List.Lex.cons (ih hst)

/-- What follows two words does not matter once they are decided. -/
theorem Below.append (h : Below s t) (u v : List α) : Below (s ++ u) (t ++ v) := by
  induction s generalizing t with
  | nil => simp at h
  | cons a s ih =>
    cases t with
    | nil => simp at h
    | cons b t =>
      rcases (below_cons a b s t).mp h with hab | ⟨rfl, hst⟩
      · exact Or.inl hab
      · exact Or.inr ⟨rfl, ih hst⟩

/-- Two words with the same beginning are decided by the rest. -/
@[simp] theorem below_append_left (p s t : List α) : Below (p ++ s) (p ++ t) ↔ Below s t := by
  induction p with
  | nil => rfl
  | cons a p ih => simp [ih]

theorem Below.ne (h : Below s t) (u v : List α) : s ++ u ≠ t ++ v :=
  (h.append u v).lt.ne

theorem le_of_isPrefix {p : List α} (h : p <+: s) : p ≤ s := by
  obtain ⟨t, rfl⟩ := h
  induction p with
  | nil => exact not_lt.mp (List.not_lt_nil _)
  | cons a p ih => exact not_lt.mp fun h => (not_lt.mpr ih) ((List.cons_lt_cons_iff.mp h).resolve_left (lt_irrefl a)).2

/-- Between a word and one that goes on from it all words go on from it. -/
theorem prefix_of_between {p : List α} (h1 : p ≤ s) (h2 : s ≤ t) (h : p <+: t) : p <+: s := by
  rw [← not_lt] at h1 h2
  induction p generalizing s t with
  | nil => exact List.nil_prefix
  | cons a p ih =>
    cases t with
    | nil => simp at h
    | cons b t =>
      obtain ⟨rfl, hpt⟩ := List.cons_prefix_cons.mp h
      cases s with
      | nil => simp at h1
      | cons c s =>
        rw [List.cons_lt_cons_iff, not_or, not_and] at h1 h2
        have hac : a = c := le_antisymm (not_lt.mp h1.1) (not_lt.mp h2.1)
        rw [hac, List.cons_prefix_cons]
        exact ⟨rfl, ih (h1.2 hac.symm) (h2.2 hac) hpt⟩

/-- Below the word with the next last letter are the words below `p` and those that go on
from it. -/
theorem lt_next_iff {c d : α} (hcd : ∀ a, a < d ↔ a ≤ c) (p s : List α) :
    s < p ++ [d] ↔ s < p ++ [c] ∨ p ++ [c] <+: s := by
  induction p generalizing s with
  | nil =>
    cases s with
    | nil => simp
    | cons a s =>
      simp only [List.nil_append, List.cons_lt_cons_iff, List.not_lt_nil, and_false, or_false,
        List.cons_prefix_cons, List.nil_prefix, and_true, hcd]
      exact le_iff_lt_or_eq.trans (or_congr Iff.rfl eq_comm)
  | cons b p ih =>
    cases s with
    | nil => simp
    | cons a s =>
      simp only [List.cons_append, List.cons_lt_cons_iff, List.cons_prefix_cons, ih]
      by_cases hab : a = b
      · subst hab
        simp
      · simp [hab, Ne.symm hab]

/-! ## Ordered codes -/

/-- A code that keeps an order, and that decides it within the two words. -/
def Ordered (r : β → β → Prop) (f : β → List α) : Prop := ∀ ⦃x y⦄, r x y → Below (f x) (f y)

variable {r : β → β → Prop} {f : β → List α} {q : γ → γ → Prop} {g : γ → List α}

/-- The words of an ordered code are told apart in any text that begins with them. -/
theorem Ordered.append_inj (hf : Ordered r f) {x y : β} (hxy : x = y ∨ r x y ∨ r y x)
    (h : f x ++ u = f y ++ v) : x = y ∧ u = v := by
  rcases hxy with rfl | hxy | hyx
  · exact ⟨rfl, List.append_cancel_left h⟩
  · exact absurd h ((hf hxy).ne u v)
  · exact absurd h.symm ((hf hyx).ne v u)

/-- No word of an ordered code begins another one. -/
theorem Ordered.prefix_iff (hf : Ordered r f) {x y : β} (hxy : x = y ∨ r x y ∨ r y x) :
    f x <+: f y ++ v ↔ x = y := by
  constructor
  · rintro ⟨u, hu⟩
    exact (hf.append_inj hxy hu).1
  · rintro rfl
    exact List.prefix_append _ _

theorem append_lt_append_iff (p u v : List α) : p ++ u < p ++ v ↔ u < v := by
  induction p with
  | nil => rfl
  | cons a p ih => simp [ih]

/-- Texts that begin with two words sort as the words do, and then as what follows. -/
theorem Ordered.append_lt_iff (hf : Ordered r f) {x y : β} (hxy : x = y ∨ r x y ∨ r y x) :
    f x ++ u < f y ++ v ↔ r x y ∨ x = y ∧ u < v := by
  constructor
  · intro h
    rcases hxy with rfl | hxy | hyx
    · exact Or.inr ⟨rfl, (append_lt_append_iff _ _ _).mp h⟩
    · exact Or.inl hxy
    · exact absurd h ((hf hyx).append v u).lt.not_gt
  · rintro (h | ⟨rfl, h⟩)
    · exact ((hf h).append u v).lt
    · exact (append_lt_append_iff _ _ _).mpr h

/-- Two ordered codes in a row are ordered by the first part and then by the second one. -/
theorem Ordered.prod (hf : Ordered r f) (hg : Ordered q g) :
    Ordered (Prod.Lex r q) (fun x : β × γ => f x.1 ++ g x.2) := by
  rintro ⟨x1, x2⟩ ⟨y1, y2⟩ h
  cases h with
  | left _ _ h => exact (hf h).append _ _
  | right _ h => exact (below_append_left _ _ _).mpr (hg h)

/-- A fixed beginning of every word changes nothing. -/
theorem Ordered.prepend (hf : Ordered r f) (p : List α) : Ordered r (fun x => p ++ f x) :=
  fun _ _ h => (below_append_left p _ _).mpr (hf h)

/-- Neither does what follows the words. -/
theorem Ordered.followed (hf : Ordered r f) (p : β → List α) : Ordered r (fun x => f x ++ p x) :=
  fun x y h => (hf h).append (p x) (p y)

/-- The code of a list, letter by letter, closed by a word below every letter. -/
theorem Ordered.closed (hf : Ordered r f) {e : List α} (he : ∀ x, Below e (f x)) :
    Ordered (List.Lex r) (fun xs => xs.flatMap f ++ e) := by
  intro xs ys h
  induction h with
  | nil =>
    simp only [List.flatMap_nil, List.nil_append, List.flatMap_cons, List.append_assoc]
    simpa using (he _).append [] _
  | @cons x xs ys _ ih => simpa [List.flatMap_cons] using ih
  | @rel x xs y ys hxy =>
    simp only [List.flatMap_cons, List.append_assoc]
    exact (hf hxy).append _ _

end

/-! ## Numbers, the high digit first -/

section
variable {B : ℕ}

/-- The number that the digits write. -/
def value : List (Fin B) → ℕ
  | [] => 0
  | d :: ds => d.val * B ^ ds.length + value ds

@[simp] theorem value_nil : value ([] : List (Fin B)) = 0 := rfl

@[simp] theorem value_cons (d : Fin B) (ds : List (Fin B)) :
    value (d :: ds) = d.val * B ^ ds.length + value ds := rfl

theorem value_lt (ds : List (Fin B)) : value ds < B ^ ds.length := by
  induction ds with
  | nil => simp
  | cons d ds ih =>
    have hd : (d.val + 1) * B ^ ds.length ≤ B * B ^ ds.length :=
      Nat.mul_le_mul_right _ d.isLt
    rw [value_cons, List.length_cons, pow_succ, Nat.mul_comm (B ^ ds.length)]
    rw [Nat.add_mul, Nat.one_mul] at hd
    omega

theorem value_append (ds es : List (Fin B)) :
    value (ds ++ es) = value ds * B ^ es.length + value es := by
  induction ds with
  | nil => simp
  | cons d ds ih =>
    rw [List.cons_append, value_cons, value_cons, ih, List.length_append, pow_add]
    ring

/-- The first digits are the number without its last places. -/
theorem value_append_div (ds es : List (Fin B)) : value (ds ++ es) / B ^ es.length = value ds := by
  have hes := value_lt es
  have hpos : 0 < B ^ es.length := by omega
  rw [value_append, Nat.mul_comm, Nat.mul_add_div hpos, Nat.div_eq_of_lt hes, Nat.add_zero]

/-- As many digits write each number in one way. -/
theorem value_inj {ds es : List (Fin B)} (hl : ds.length = es.length) (h : value ds = value es) :
    ds = es := by
  induction ds generalizing es with
  | nil => exact (List.length_eq_zero_iff.mp hl.symm).symm
  | cons d ds ih =>
    cases es with
    | nil => simp at hl
    | cons e es =>
      rw [List.length_cons, List.length_cons, Nat.add_right_cancel_iff] at hl
      have hd := value_append_div [d] ds
      have he := value_append_div [e] es
      have hde : d.val = e.val := by
        simp only [List.singleton_append, value_cons, value_nil, List.length_nil, pow_zero,
          Nat.mul_one, Nat.add_zero] at hd he h
        rw [hl] at hd h
        rw [← hd, ← he, h]
      rw [value_cons, value_cons, hl, hde] at h
      rw [Fin.ext hde, ih hl (by omega)]

/-- Two words as the first digits of numbers with `N` digits. When every number that goes
on from `ds` is less than every one that goes on from `es`, a digit decides it. -/
theorem below_of_value {ds es : List (Fin B)} {N : ℕ} (hB : 0 < B) (hd : ds.length ≤ N)
    (he : es.length ≤ N)
    (h : (value ds + 1) * B ^ (N - ds.length) ≤ value es * B ^ (N - es.length)) :
    Below ds es := by
  induction ds generalizing es N with
  | nil =>
    -- Nothing is above all numbers of `N` digits.
    exfalso
    have hlt : value es * B ^ (N - es.length) < B ^ es.length * B ^ (N - es.length) :=
      Nat.mul_lt_mul_of_pos_right (value_lt es) (Nat.pow_pos hB)
    rw [← pow_add, Nat.add_sub_cancel' he] at hlt
    simp at h
    omega
  | cons d ds ih =>
    cases es with
    | nil =>
      exfalso
      have : 0 < (value (d :: ds) + 1) * B ^ (N - (d :: ds).length) :=
        Nat.mul_pos (Nat.succ_pos _) (Nat.pow_pos hB)
      simp at h
      omega
    | cons e es =>
      obtain ⟨n, rfl⟩ : ∃ n, N = n + 1 := ⟨N - 1, by rw [List.length_cons] at hd; omega⟩
      simp only [List.length_cons, Nat.add_le_add_iff_right] at hd he
      simp only [List.length_cons, Nat.add_sub_add_right, value_cons] at h
      have hsplit : ∀ (c l m : ℕ), l ≤ n →
          (c * B ^ l + m) * B ^ (n - l) = c * B ^ n + m * B ^ (n - l) := by
        intro c l m hl
        rw [Nat.add_mul, Nat.mul_assoc, ← pow_add, Nat.add_sub_cancel' hl]
      rw [Nat.add_assoc, hsplit _ _ _ hd, hsplit _ _ _ he] at h
      have hes : value es * B ^ (n - es.length) < B ^ n := by
        have := Nat.mul_lt_mul_of_pos_right (value_lt es) (Nat.pow_pos hB (n := n - es.length))
        rwa [← pow_add, Nat.add_sub_cancel' he] at this
      rcases Nat.lt_trichotomy d.val e.val with hde | hde | hde
      · exact Or.inl hde
      · refine Or.inr ⟨Fin.ext hde, ih hd he ?_⟩
        rw [hde] at h
        omega
      · exfalso
        have : (e.val + 1) * B ^ n ≤ d.val * B ^ n := Nat.mul_le_mul_right _ hde
        rw [Nat.add_mul, Nat.one_mul] at this
        omega

end

end Codes
