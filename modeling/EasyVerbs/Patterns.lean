-- Patterns in a row of pieces, each a class of letters that repeats. A text fits
-- a pattern when it is cut in some way into one part for each piece. Nothing
-- here names a program.

namespace Patterns

/-- Between `least` and `most` letters of a class. -/
structure Piece (α : Type) where
  accepts : α → Bool
  least : Nat := 1
  most : Option Nat := none

/-- `n` letters are enough for the piece, and not too many. -/
def Piece.allows {α : Type} (p : Piece α) (n : Nat) : Bool :=
  p.least ≤ n && p.most.all (n ≤ ·)

/-- The whole text fits the pattern: every length is tried for the first piece. -/
def fits {α : Type} : List (Piece α) → List α → Bool
  | [], text => text.isEmpty
  | p :: rest, text =>
    (List.range (text.length + 1)).any fun n =>
      p.allows n && (text.take n).all p.accepts && fits rest (text.drop n)

/-- The piece for one letter. -/
def letter {α : Type} [BEq α] (x : α) : Piece α := { accepts := (· == x), most := some 1 }

/-! ## What fits -/

variable {α : Type} {p : Piece α} {ps : List (Piece α)} {text a b : List α} {x : α}

/-- A part of the text that the piece takes. -/
structure Piece.Fits (p : Piece α) (part : List α) : Prop where
  length : p.allows part.length = true
  letters : ∀ c ∈ part, p.accepts c = true

theorem fits_nil_iff : fits ([] : List (Piece α)) text = true ↔ text = [] := List.isEmpty_iff

theorem fits_cons_iff :
    fits (p :: ps) text = true ↔ ∃ a b, text = a ++ b ∧ p.Fits a ∧ fits ps b = true := by
  rw [fits]
  simp only [List.any_eq_true, List.mem_range, Bool.and_eq_true, List.all_eq_true]
  constructor
  · rintro ⟨n, hn, ⟨hallows, hall⟩, hrest⟩
    refine ⟨text.take n, text.drop n, (List.take_append_drop n text).symm, ⟨?_, hall⟩, hrest⟩
    rw [List.length_take, Nat.min_eq_left (Nat.le_of_lt_succ hn)]
    exact hallows
  · rintro ⟨a, b, rfl, hfits, hrest⟩
    refine ⟨a.length, by rw [List.length_append]; omega, ⟨hfits.length, ?_⟩, ?_⟩
    · rw [List.take_left]
      exact hfits.letters
    · rw [List.drop_left]
      exact hrest

theorem fits_one_iff : fits [p] text = true ↔ p.Fits text := by
  rw [fits_cons_iff]
  constructor
  · rintro ⟨a, b, rfl, hfits, hrest⟩
    rw [fits_nil_iff.mp hrest, List.append_nil]
    exact hfits
  · intro hfits
    exact ⟨text, [], (List.append_nil text).symm, hfits, rfl⟩

/-- Each letter of a text that fits is one of a piece. -/
theorem accepted_of_fits (h : fits ps text = true) {c : α} (hc : c ∈ text) : ∃ p ∈ ps, p.accepts c = true := by
  induction ps generalizing text with
  | nil =>
    rw [fits_nil_iff.mp h] at hc
    cases hc
  | cons p ps ih =>
    obtain ⟨a, b, rfl, hfits, hrest⟩ := fits_cons_iff.mp h
    rcases List.mem_append.mp hc with hc | hc
    · exact ⟨p, by simp, hfits.letters c hc⟩
    · obtain ⟨q, hq, haccepts⟩ := ih hrest hc
      exact ⟨q, by simp [hq], haccepts⟩

/-! ## Cuts at a letter -/

section Cuts

variable [DecidableEq α]

/-- The parts before and after the first `x`. -/
def cutAtFirst (x : α) : List α → Option (List α × List α)
  | [] => none
  | c :: rest => if c = x then some ([], rest) else (cutAtFirst x rest).map fun r => (c :: r.1, r.2)

/-- The parts before and after the last `x`. -/
def cutAtLast (x : α) (text : List α) : Option (List α × List α) :=
  (cutAtFirst x text.reverse).map fun r => (r.2.reverse, r.1.reverse)

theorem cutAtFirst_iff : cutAtFirst x text = some (a, b) ↔ text = a ++ x :: b ∧ x ∉ a := by
  induction text generalizing a with
  | nil => simp [cutAtFirst]
  | cons c rest ih =>
    unfold cutAtFirst
    by_cases hc : c = x
    · subst hc
      rw [if_pos rfl]
      constructor
      · intro h
        cases h
        exact ⟨rfl, by simp⟩
      · rintro ⟨htext, hx⟩
        cases a with
        | nil =>
          cases htext
          rfl
        | cons d a =>
          cases htext
          exact absurd (List.mem_cons_self) hx
    · rw [if_neg hc, Option.map_eq_some_iff]
      constructor
      · rintro ⟨⟨a', b'⟩, hrest, hcut⟩
        cases hcut
        obtain ⟨rfl, hx⟩ := ih.mp hrest
        exact ⟨rfl, by simp [hx, Ne.symm hc]⟩
      · rintro ⟨htext, hx⟩
        cases a with
        | nil =>
          cases htext
          exact absurd rfl hc
        | cons d a =>
          cases htext
          exact ⟨(a, b), ih.mpr ⟨rfl, fun hmem => hx (List.mem_cons_of_mem _ hmem)⟩, rfl⟩

theorem cutAtLast_iff : cutAtLast x text = some (a, b) ↔ text = a ++ x :: b ∧ x ∉ b := by
  unfold cutAtLast
  rw [Option.map_eq_some_iff]
  constructor
  · rintro ⟨⟨r, l⟩, hcut, hparts⟩
    cases hparts
    obtain ⟨htext, hx⟩ := cutAtFirst_iff.mp hcut
    refine ⟨?_, by simpa using hx⟩
    rw [← List.reverse_reverse text, htext]
    simp
  · rintro ⟨rfl, hx⟩
    refine ⟨(b.reverse, a.reverse), cutAtFirst_iff.mpr ⟨by simp, by simpa using hx⟩, by simp⟩

/-! ## Patterns around a letter -/

theorem letter_fits_iff : (letter x).Fits text ↔ text = [x] := by
  constructor
  · rintro ⟨hlength, hall⟩
    obtain ⟨hleast, hmost⟩ := Bool.and_eq_true_iff.mp hlength
    have hone : text.length = 1 := Nat.le_antisymm (of_decide_eq_true hmost) (of_decide_eq_true hleast)
    obtain ⟨c, rfl⟩ := List.length_eq_one_iff.mp hone
    rw [eq_of_beq (hall c (by simp))]
  · rintro rfl
    exact ⟨rfl, by simp [letter]⟩

theorem fits_letter_cons_iff :
    fits (p :: letter x :: ps) text = true ↔ ∃ a b, text = a ++ x :: b ∧ p.Fits a ∧ fits ps b = true := by
  rw [fits_cons_iff]
  constructor
  · rintro ⟨a, b, rfl, ha, hrest⟩
    obtain ⟨y, b, rfl, hy, hb⟩ := fits_cons_iff.mp hrest
    rw [letter_fits_iff.mp hy]
    exact ⟨a, b, rfl, ha, hb⟩
  · rintro ⟨a, b, rfl, ha, hb⟩
    exact ⟨a, x :: b, rfl, ha, fits_cons_iff.mpr ⟨[x], b, rfl, letter_fits_iff.mpr rfl, hb⟩⟩

/-- A first piece that does not take the letter after it ends at the first such letter. -/
theorem fits_cutAtFirst_iff (hp : p.accepts x = false) :
    fits (p :: letter x :: ps) text = true ↔
      ∃ a b, cutAtFirst x text = some (a, b) ∧ p.Fits a ∧ fits ps b = true := by
  rw [fits_letter_cons_iff]
  constructor
  · rintro ⟨a, b, htext, ha, hb⟩
    refine ⟨a, b, cutAtFirst_iff.mpr ⟨htext, fun hmem => ?_⟩, ha, hb⟩
    simp [ha.letters x hmem] at hp
  · rintro ⟨a, b, hcut, ha, hb⟩
    exact ⟨a, b, (cutAtFirst_iff.mp hcut).1, ha, hb⟩

/-- A last piece that does not take the letter before it begins after the last such letter. -/
theorem fits_cutAtLast_iff {q : Piece α} (hq : q.accepts x = false) :
    fits [p, letter x, q] text = true ↔ ∃ a b, cutAtLast x text = some (a, b) ∧ p.Fits a ∧ q.Fits b := by
  rw [fits_letter_cons_iff]
  constructor
  · rintro ⟨a, b, htext, ha, hb⟩
    rw [fits_one_iff] at hb
    refine ⟨a, b, cutAtLast_iff.mpr ⟨htext, fun hmem => ?_⟩, ha, hb⟩
    simp [hb.letters x hmem] at hq
  · rintro ⟨a, b, hcut, ha, hb⟩
    exact ⟨a, b, (cutAtLast_iff.mp hcut).1, ha, fits_one_iff.mpr hb⟩

end Cuts

end Patterns
