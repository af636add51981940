-- The law of the e-mail check: the regular expression accepts exactly the
-- addresses with one '@', and the part after it is cut at its last dot.
import EasyVerbs.SignUp

open Patterns

namespace EasyVerbs.SignUp

/-! ## The grammar -/

def isLocalLetter (c : Char) : Bool := isLetter c || isDigit c || ['.', '_', '%', '+', '-'].contains c

def isHostLetter (c : Char) : Bool := isLetter c || isDigit c || ['.', '-'].contains c

/-- The part after the '@': a host, the last dot, and between 2 and 64 letters. -/
def isDomain (domain : List Char) : Bool :=
  match cutAtLast '.' domain with
  | none => false
  | some (host, top) =>
    !host.isEmpty && host.all isHostLetter && (2 ≤ top.length && top.length ≤ 64) && top.all isLetter

/-- What an address is. -/
def isAddress (s : String) : Bool :=
  s.toList.count '@' = 1 &&
    match cutAtFirst '@' s.toList with
    | none => false
    | some (localPart, domain) => !localPart.isEmpty && localPart.all isLocalLetter && isDomain domain

/-! ## The pieces -/

theorem emailRegEx_eq :
    emailRegEx = [{ accepts := isLocalLetter }, letter '@', { accepts := isHostLetter }, letter '.',
      { accepts := isLetter, least := 2, most := some 64 }] := rfl

/-- `+` takes one letter or more. -/
theorem plus_fits_iff (accepts : Char → Bool) (part : List Char) :
    Piece.Fits { accepts := accepts } part ↔ part ≠ [] ∧ part.all accepts = true := by
  constructor
  · rintro ⟨hlength, hall⟩
    refine ⟨?_, List.all_eq_true.mpr hall⟩
    rintro rfl
    cases hlength
  · rintro ⟨hne, hall⟩
    refine ⟨?_, List.all_eq_true.mp hall⟩
    have hpos : 1 ≤ part.length := List.length_pos_iff.mpr hne
    simp [Piece.allows, hpos]

/-- `{2,64}` takes as many letters as that. -/
theorem top_fits_iff (part : List Char) :
    Piece.Fits { accepts := isLetter, least := 2, most := some 64 } part ↔
      (2 ≤ part.length ∧ part.length ≤ 64) ∧ part.all isLetter = true := by
  constructor
  · rintro ⟨hlength, hall⟩
    obtain ⟨hleast, hmost⟩ := Bool.and_eq_true_iff.mp hlength
    exact ⟨⟨of_decide_eq_true hleast, of_decide_eq_true hmost⟩, List.all_eq_true.mpr hall⟩
  · rintro ⟨⟨hleast, hmost⟩, hall⟩
    exact ⟨Bool.and_eq_true_iff.mpr ⟨decide_eq_true hleast, decide_eq_true hmost⟩, List.all_eq_true.mp hall⟩

theorem isDomain_iff (domain : List Char) :
    isDomain domain = true ↔
      fits [{ accepts := isHostLetter }, letter '.', { accepts := isLetter, least := 2, most := some 64 }]
        domain = true := by
  have hdot : Piece.accepts { accepts := isLetter, least := 2, most := some 64 } '.' = false := by decide
  rw [fits_cutAtLast_iff hdot]
  unfold isDomain
  cases hcut : cutAtLast '.' domain with
  | none => simp
  | some parts =>
    obtain ⟨host, top⟩ := parts
    simp only [Bool.and_eq_true, Bool.not_eq_true', List.isEmpty_eq_false_iff, decide_eq_true_eq]
    constructor
    · rintro ⟨⟨⟨hne, hall⟩, hlength⟩, htop⟩
      exact ⟨host, top, rfl, (plus_fits_iff _ _).mpr ⟨hne, hall⟩, (top_fits_iff _).mpr ⟨hlength, htop⟩⟩
    · rintro ⟨a, b, hparts, ha, hb⟩
      cases hparts
      obtain ⟨hne, hall⟩ := (plus_fits_iff _ _).mp ha
      obtain ⟨hlength, htop⟩ := (top_fits_iff _).mp hb
      exact ⟨⟨⟨hne, hall⟩, hlength⟩, htop⟩

/-- The domain has no '@'. -/
theorem isDomain_no_at {domain : List Char} (h : isDomain domain = true) : '@' ∉ domain := by
  intro hmem
  obtain ⟨p, hp, haccepts⟩ := accepted_of_fits ((isDomain_iff domain).mp h) hmem
  revert haccepts
  revert p
  decide

/-! ## The law -/

/-- The check accepts exactly the addresses. -/
theorem isValidEmail_iff_isAddress (s : String) : isValidEmail s = true ↔ isAddress s = true := by
  have hat : Piece.accepts { accepts := isLocalLetter } '@' = false := by decide
  unfold isValidEmail isAddress
  rw [emailRegEx_eq, fits_cutAtFirst_iff hat]
  cases hcut : cutAtFirst '@' s.toList with
  | none => simp
  | some parts =>
    obtain ⟨localPart, domain⟩ := parts
    obtain ⟨htext, hlocal⟩ := cutAtFirst_iff.mp hcut
    have hone : isDomain domain = true → s.toList.count '@' = 1 := by
      intro hdomain
      rw [htext, List.count_append, List.count_cons_self, List.count_eq_zero.mpr hlocal,
        List.count_eq_zero.mpr (isDomain_no_at hdomain)]
    constructor
    · rintro ⟨a, b, hparts, ha, hb⟩
      cases hparts
      rw [← isDomain_iff] at hb
      rw [plus_fits_iff] at ha
      simp [hone hb, ha.1, ha.2, hb]
    · intro h
      simp only [Bool.and_eq_true, Bool.not_eq_true', List.isEmpty_eq_false_iff] at h
      obtain ⟨_, ⟨hne, hall⟩, hdomain⟩ := h
      exact ⟨localPart, domain, rfl, (plus_fits_iff _ _).mpr ⟨hne, hall⟩, (isDomain_iff domain).mp hdomain⟩

example : isAddress "first.last@mail.co.uk" = true ∧ isAddress "first@last@mail.uk" = false := by decide

end EasyVerbs.SignUp
