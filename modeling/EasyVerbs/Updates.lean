-- Lists that are changed in two ways only: an element is added at the end when
-- it is absent, or all its occurrences are removed. The last update about an
-- element decides if it is there. Nothing here names a program.
import Mathlib.Data.List.Induction
import Mathlib.Data.List.Nodup

namespace Updates

variable {α : Type*}

inductive Update (α : Type*)
  | add (a : α)
  | remove (a : α)
  deriving DecidableEq, Repr

/-- The element that the update is about. -/
def Update.subject : Update α → α
  | .add a => a
  | .remove a => a

def Update.adds : Update α → Bool
  | .add _ => true
  | .remove _ => false

variable [DecidableEq α]

def Update.apply (l : List α) : Update α → List α
  | .add a => if a ∈ l then l else l ++ [a]
  | .remove a => l.filter (· ≠ a)

/-- The list after all the updates, the first one first. -/
def applyAll (l : List α) (us : List (Update α)) : List α := us.foldl Update.apply l

/-- The updates about one element, in their order. -/
def about (a : α) (us : List (Update α)) : List (Update α) := us.filter (·.subject = a)

variable {a : α} {l : List α} {u : Update α} {us us' : List (Update α)}

@[simp] theorem applyAll_snoc : applyAll l (us ++ [u]) = u.apply (applyAll l us) := by
  simp [applyAll]

@[simp] theorem about_snoc :
    about a (us ++ [u]) = if u.subject = a then about a us ++ [u] else about a us := by
  unfold about
  rw [List.filter_append]
  by_cases h : u.subject = a <;> simp [h]

/-! ## One update -/

/-- An update decides if its subject is there, and leaves every other element. -/
theorem mem_apply : a ∈ u.apply l ↔ if u.subject = a then u.adds = true else a ∈ l := by
  cases u with
  | add b =>
    simp only [Update.apply, Update.subject, Update.adds]
    by_cases hab : b = a
    · subst hab
      by_cases hb : b ∈ l <;> simp [hb]
    · by_cases hb : b ∈ l <;> simp [hb, hab, Ne.symm hab]
  | remove b =>
    simp only [Update.apply, Update.subject, Update.adds]
    by_cases hab : b = a
    · simp [hab]
    · simp [hab, Ne.symm hab]

/-- Elements that the update is not about keep their occurrences and their order. -/
theorem filter_apply {p : α → Bool} (hp : p u.subject = false) :
    (u.apply l).filter p = l.filter p := by
  cases u with
  | add b =>
    have hb : p b = false := hp
    simp only [Update.apply]
    by_cases hm : b ∈ l <;> simp [hm, hb]
  | remove b =>
    have hb : p b = false := hp
    simp only [Update.apply]
    rw [List.filter_filter]
    apply List.filter_congr
    intro x _
    by_cases hx : x = b <;> simp [hx, hb]

theorem nodup_apply (h : l.Nodup) : (u.apply l).Nodup := by
  cases u with
  | add b =>
    simp only [Update.apply]
    by_cases hb : b ∈ l
    · rw [if_pos hb]
      exact h
    · rw [if_neg hb]
      apply List.Nodup.append h (List.nodup_singleton b)
      intro x hx hxb
      rw [List.mem_singleton.mp hxb] at hx
      exact hb hx
  | remove b => exact h.filter _

/-! ## All updates -/

/-- The last update about an element decides if it is there. -/
theorem mem_applyAll :
    a ∈ applyAll l us ↔ ((about a us).getLast?.map fun u => u.adds = true).getD (a ∈ l) := by
  induction us using List.reverseRecOn with
  | nil => rfl
  | append_singleton us u ih =>
    rw [applyAll_snoc, about_snoc, mem_apply]
    split
    · simp
    · exact ih

/-- Elements without an update keep their occurrences and their order. -/
theorem filter_applyAll {p : α → Bool} (hp : ∀ u ∈ us, p u.subject = false) :
    (applyAll l us).filter p = l.filter p := by
  induction us using List.reverseRecOn with
  | nil => rfl
  | append_singleton us u ih =>
    rw [applyAll_snoc, filter_apply (hp u (by simp))]
    exact ih fun u hu => hp u (by simp [hu])

theorem nodup_applyAll (h : l.Nodup) : (applyAll l us).Nodup := by
  induction us using List.reverseRecOn with
  | nil => exact h
  | append_singleton us u ih =>
    rw [applyAll_snoc]
    exact nodup_apply ih

/-- Only the order of the updates about the same element counts. -/
theorem mem_applyAll_congr (h : about a us = about a us') :
    a ∈ applyAll l us ↔ a ∈ applyAll l us' := by
  rw [mem_applyAll, mem_applyAll, h]

end Updates
