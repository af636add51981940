-- Tables of rows in the order of their keys, one row for each key. What a
-- reader sees of a table from a key on is again such a row of rows, and its
-- first row is the least one. Nothing here names a program.
import Mathlib.Data.List.Sort
import Mathlib.Data.List.TakeWhile

namespace SortedRows

variable {κ υ : Type*} [LinearOrder κ]

/-- The keys from one on, and the keys above it. -/
def atLeast (key k : κ) : Bool := decide (key ≤ k)

def above (key k : κ) : Bool := decide (key < k)

@[simp] theorem atLeast_iff (key k : κ) : atLeast key k = true ↔ key ≤ k := decide_eq_true_iff

@[simp] theorem above_iff (key k : κ) : above key k = true ↔ key < k := decide_eq_true_iff

/-! ## Rows in order -/

/-- The rows of a list stand in the strict order of their keys. -/
def InOrder (rows : List (κ × υ)) : Prop := rows.Pairwise fun r s => r.1 < s.1

theorem InOrder.filter {rows : List (κ × υ)} (h : InOrder rows) (p : κ × υ → Bool) :
    InOrder (rows.filter p) :=
  List.Pairwise.filter p h

theorem InOrder.dropWhile {rows : List (κ × υ)} (h : InOrder rows) (p : κ × υ → Bool) :
    InOrder (rows.dropWhile p) :=
  List.Pairwise.sublist (List.dropWhile_sublist p) h

theorem InOrder.eq_of_key {rows : List (κ × υ)} (h : InOrder rows) {r s : κ × υ} (hr : r ∈ rows)
    (hs : s ∈ rows) (hk : r.1 = s.1) : r = s := by
  induction rows with
  | nil => cases hr
  | cons t rows ih =>
    obtain ⟨ht, hrows⟩ := List.pairwise_cons.mp h
    rcases List.mem_cons.mp hr with rfl | hr' <;> rcases List.mem_cons.mp hs with rfl | hs'
    · rfl
    · exact absurd hk (ht s hs').ne
    · exact absurd hk (ht r hr').ne'
    · exact ih hrows hr' hs'

theorem InOrder.ext {rows rows' : List (κ × υ)} (h : InOrder rows) (h' : InOrder rows')
    (hmem : ∀ r, r ∈ rows ↔ r ∈ rows') : rows = rows' := by
  have : Std.Irrefl fun r s : κ × υ => r.1 < s.1 := ⟨fun r => lt_irrefl r.1⟩
  have : IsTrans (κ × υ) fun r s => r.1 < s.1 := ⟨fun _ _ _ => lt_trans⟩
  have : Std.Asymm fun r s : κ × υ => r.1 < s.1 := ⟨fun _ _ => lt_asymm⟩
  exact List.Pairwise.eq_of_mem_iff h h' hmem

/-- The first of the rows is the least of them. -/
theorem InOrder.head?_eq_some {rows : List (κ × υ)} (h : InOrder rows) {r : κ × υ} :
    rows.head? = some r ↔ r ∈ rows ∧ ∀ s ∈ rows, r.1 ≤ s.1 := by
  cases rows with
  | nil => simp
  | cons t rows =>
    obtain ⟨ht, -⟩ := List.pairwise_cons.mp h
    rw [List.head?_cons, Option.some.injEq]
    constructor
    · rintro rfl
      refine ⟨List.mem_cons_self, fun s hs => ?_⟩
      rcases List.mem_cons.mp hs with rfl | hs'
      · exact le_refl _
      · exact (ht s hs').le
    · rintro ⟨hr, hall⟩
      rcases List.mem_cons.mp hr with rfl | hr'
      · rfl
      · exact absurd (hall t List.mem_cons_self) (not_le.mpr (ht r hr'))

/-- And the last of them is the greatest one. -/
theorem InOrder.getLast?_eq_some {rows : List (κ × υ)} (h : InOrder rows) {r : κ × υ} :
    rows.getLast? = some r ↔ r ∈ rows ∧ ∀ s ∈ rows, s.1 ≤ r.1 := by
  rcases List.eq_nil_or_concat rows with rfl | ⟨init, t, rfl⟩
  · simp
  · rw [List.concat_eq_append] at h ⊢
    obtain ⟨-, -, hlt⟩ := List.pairwise_append.mp h
    rw [List.getLast?_append, List.getLast?_singleton, Option.some_or, Option.some.injEq]
    constructor
    · rintro rfl
      refine ⟨List.mem_append_right _ List.mem_cons_self, fun s hs => ?_⟩
      rcases List.mem_append.mp hs with hs | hs
      · exact (hlt s hs t List.mem_cons_self).le
      · rw [List.mem_singleton.mp hs]
    · rintro ⟨hr, hall⟩
      rcases List.mem_append.mp hr with hr | hr
      · have hle := hall t (List.mem_append_right _ List.mem_cons_self)
        exact absurd hle (not_le.mpr (hlt r hr t List.mem_cons_self))
      · exact (List.mem_singleton.mp hr).symm

/-- After the first of the rows with a property come those with a greater key. -/
theorem InOrder.tail_filter {rows : List (κ × υ)} (h : InOrder rows) {p : κ × υ → Bool} {r : κ × υ}
    (hr : (rows.filter p).head? = some r) :
    (rows.filter p).tail = rows.filter fun s => p s && above r.1 s.1 := by
  obtain ⟨rest, hrest⟩ := List.head?_eq_some_iff.mp hr
  rw [hrest, List.tail_cons]
  have hord := h.filter p
  rw [hrest] at hord
  obtain ⟨hlt, hrows⟩ := List.pairwise_cons.mp hord
  refine InOrder.ext hrows (h.filter _) fun s => ?_
  have hs : s ∈ rows.filter p ↔ s ∈ r :: rest := by rw [hrest]
  rw [List.mem_filter, List.mem_cons] at hs
  rw [List.mem_filter, Bool.and_eq_true, above_iff, ← and_assoc, hs]
  constructor
  · intro hmem
    exact ⟨Or.inr hmem, hlt s hmem⟩
  · rintro ⟨rfl | hmem, hrs⟩
    · exact absurd hrs (lt_irrefl _)
    · exact hmem

/-- The same when all greater keys have the property. -/
theorem InOrder.filter_above_head {rows rest : List (κ × υ)} (h : InOrder rows) {p : κ → Bool} {r : κ × υ}
    (hup : ∀ j k, j ≤ k → p j = true → p k = true) (hr : rows.filter (p ·.1) = r :: rest) :
    rows.filter (above r.1 ·.1) = rest := by
  have hmem : r ∈ rows.filter (p ·.1) := hr ▸ List.mem_cons_self
  have hp : p r.1 = true := (List.mem_filter.mp hmem).2
  have htail := h.tail_filter (p := (p ·.1)) (r := r) (by rw [hr]; rfl)
  rw [hr, List.tail_cons] at htail
  rw [htail]
  refine List.filter_congr fun s _ => ?_
  cases hs : above r.1 s.1 with
  | false => simp
  | true => simp [hup r.1 s.1 ((above_iff _ _).mp hs).le hp]

/-- The rows up to a first one without the property are all with it, when the property
cannot come back. -/
theorem takeWhile_eq_filter {α : Type*} {p : α → Bool} {l : List α}
    (h : l.Pairwise fun r s => p s → p r) : l.takeWhile p = l.filter p := by
  induction l with
  | nil => rfl
  | cons r l ih =>
    obtain ⟨hr, hl⟩ := List.pairwise_cons.mp h
    cases hp : p r with
    | true => simp [hp, ih hl]
    | false =>
      have hnone : l.filter p = [] :=
        List.filter_eq_nil_iff.mpr fun s hs hps => by simp [hr s hs hps] at hp
      simp [hp, hnone]

theorem dropWhile_eq_filter {α : Type*} {p : α → Bool} {l : List α}
    (h : l.Pairwise fun r s => p s → p r) : l.dropWhile p = l.filter (!p ·) := by
  induction l with
  | nil => rfl
  | cons r l ih =>
    obtain ⟨hr, hl⟩ := List.pairwise_cons.mp h
    cases hp : p r with
    | true => simp [hp, ih hl]
    | false =>
      have hall : l.filter (!p ·) = l := by
        refine List.filter_eq_self.mpr fun s hs => ?_
        cases hps : p s with
        | true => simp [hr s hs hps] at hp
        | false => rfl
      simp [hp, hall]

/-- The rows from a key on. -/
theorem InOrder.dropWhile_lt {rows : List (κ × υ)} (h : InOrder rows) (key : κ) :
    rows.dropWhile (·.1 < key) = rows.filter (atLeast key ·.1) := by
  have hdrop : rows.Pairwise fun r s => decide (s.1 < key) → decide (r.1 < key) := by
    refine h.imp fun hlt hs => ?_
    exact decide_eq_true (hlt.trans (of_decide_eq_true hs))
  rw [dropWhile_eq_filter hdrop]
  simp only [← decide_not, not_lt, atLeast]

/-- Of things in the order of their numbers the first one with a property has the least number. -/
theorem find?_eq_some_of_increasing {β : Type*} {f : β → κ} {l : List β} (h : l.Pairwise fun b c => f b < f c)
    {p : β → Bool} {b : β} :
    l.find? p = some b ↔ b ∈ l ∧ p b = true ∧ ∀ c ∈ l, p c = true → f b ≤ f c := by
  induction l with
  | nil => simp
  | cons a l ih =>
    obtain ⟨ha, hl⟩ := List.pairwise_cons.mp h
    cases hp : p a with
    | true =>
      rw [List.find?_cons_of_pos hp, Option.some.injEq]
      constructor
      · rintro rfl
        refine ⟨List.mem_cons_self, hp, fun c hc _ => ?_⟩
        rcases List.mem_cons.mp hc with rfl | hc
        · exact le_refl _
        · exact (ha c hc).le
      · rintro ⟨hb, -, hall⟩
        rcases List.mem_cons.mp hb with rfl | hb
        · rfl
        · exact absurd (hall a List.mem_cons_self hp) (not_le.mpr (ha b hb))
    | false =>
      rw [List.find?_cons_of_neg (by simp [hp]), ih hl]
      simp only [List.mem_cons]
      constructor
      · rintro ⟨hb, hpb, hall⟩
        refine ⟨Or.inr hb, hpb, fun c hc hpc => ?_⟩
        rcases hc with rfl | hc
        · simp [hp] at hpc
        · exact hall c hc hpc
      · rintro ⟨rfl | hb, hpb, hall⟩
        · simp [hp] at hpb
        · exact ⟨hb, hpb, fun c hc => hall c (Or.inr hc)⟩

/-! ### Rows that are skipped -/

section
variable {rows rest : List (κ × υ)} {d : κ × υ → Bool} {r : κ × υ} {key : κ}

/-- The first row that is not skipped is the least of those that are not. -/
theorem InOrder.head_dropWhile (h : InOrder rows) (hr : rows.dropWhile d = r :: rest) :
    r ∈ rows ∧ d r = false ∧ ∀ s ∈ rows, d s = false → r.1 ≤ s.1 := by
  induction rows with
  | nil => cases hr
  | cons t rows ih =>
    obtain ⟨ht, hrows⟩ := List.pairwise_cons.mp h
    cases hd : d t with
    | true =>
      rw [List.dropWhile_cons_of_pos hd] at hr
      obtain ⟨hmem, hdr, hall⟩ := ih hrows hr
      refine ⟨List.mem_cons_of_mem _ hmem, hdr, fun s hs hds => ?_⟩
      rcases List.mem_cons.mp hs with rfl | hs
      · simp [hd] at hds
      · exact hall s hs hds
    | false =>
      rw [List.dropWhile_cons_of_neg (by simp [hd])] at hr
      cases hr
      refine ⟨List.mem_cons_self, hd, fun s hs _ => ?_⟩
      rcases List.mem_cons.mp hs with rfl | hs
      · exact le_refl _
      · exact (ht s hs).le

/-- Rows can be skipped before others are left out. -/
theorem dropWhile_filter_dropWhile {α : Type*} (d q : α → Bool) (l : List α) :
    ((l.dropWhile d).filter q).dropWhile d = (l.filter q).dropWhile d := by
  induction l with
  | nil => rfl
  | cons t l ih =>
    cases hd : d t with
    | false => rw [List.dropWhile_cons_of_neg (by simp [hd])]
    | true =>
      rw [List.dropWhile_cons_of_pos hd, ih]
      cases hq : q t with
      | false => rw [List.filter_cons_of_neg (by simp [hq])]
      | true => rw [List.filter_cons_of_pos hq, List.dropWhile_cons_of_pos hd]

theorem filter_above_of_lt (h : ∀ s ∈ rows, key < s.1) : rows.filter (above key ·.1) = rows :=
  List.filter_eq_self.mpr fun s hs => (above_iff _ _).mpr (h s hs)

theorem InOrder.filter_above_cons (h : InOrder (r :: rest)) :
    (r :: rest).filter (above r.1 ·.1) = rest := by
  rw [List.filter_cons_of_neg (by simp)]
  exact filter_above_of_lt (List.pairwise_cons.mp h).1

end

/-! ## Tables -/

/-- The rows of a table, in order. -/
structure Table (κ υ : Type*) [LinearOrder κ] where
  rows : List (κ × υ)
  inOrder : InOrder rows

namespace Table

def empty : Table κ υ := ⟨[], List.Pairwise.nil⟩

def get (t : Table κ υ) (key : κ) : Option υ := (t.rows.find? (·.1 = key)).map Prod.snd

/-- The rows below a key, its new row and the rows above it. -/
def put (t : Table κ υ) (key : κ) (value : υ) : Table κ υ where
  rows := t.rows.filter (·.1 < key) ++ (key, value) :: t.rows.filter (key < ·.1)
  inOrder := by
    refine List.pairwise_append.mpr ⟨t.inOrder.filter _, ?_, ?_⟩
    · refine List.pairwise_cons.mpr ⟨fun s hs => ?_, t.inOrder.filter _⟩
      simpa using (List.mem_filter.mp hs).2
    · intro r hr s hs
      have hr' : r.1 < key := by simpa using (List.mem_filter.mp hr).2
      rcases List.mem_cons.mp hs with rfl | hs
      · exact hr'
      · have hs' : key < s.1 := by simpa using (List.mem_filter.mp hs).2
        exact hr'.trans hs'

def delete (t : Table κ υ) (key : κ) : Table κ υ where
  rows := t.rows.filter (·.1 ≠ key)
  inOrder := t.inOrder.filter _

/-- The rows from a key on. -/
def seek (t : Table κ υ) (key : κ) : List (κ × υ) := t.rows.dropWhile (·.1 < key)

/-- The rows below a key. -/
def upTo (t : Table κ υ) (key : κ) : List (κ × υ) := t.rows.takeWhile (·.1 < key)

variable {t t' : Table κ υ} {key key' : κ} {value : υ} {r : κ × υ}

theorem ext (h : ∀ r, r ∈ t.rows ↔ r ∈ t'.rows) : t = t' := by
  cases t
  cases t'
  simp only [mk.injEq]
  exact InOrder.ext ‹_› ‹_› h

@[simp] theorem mem_empty : r ∉ (empty : Table κ υ).rows := List.not_mem_nil

theorem mem_put : r ∈ (t.put key value).rows ↔ r = (key, value) ∨ r.1 ≠ key ∧ r ∈ t.rows := by
  simp only [put, List.mem_append, List.mem_filter, List.mem_cons, decide_eq_true_eq]
  constructor
  · rintro (⟨hr, hlt⟩ | rfl | ⟨hr, hlt⟩)
    · exact Or.inr ⟨hlt.ne, hr⟩
    · exact Or.inl rfl
    · exact Or.inr ⟨hlt.ne', hr⟩
  · rintro (rfl | ⟨hne, hr⟩)
    · exact Or.inr (Or.inl rfl)
    · rcases lt_or_gt_of_ne hne with hlt | hlt
      · exact Or.inl ⟨hr, hlt⟩
      · exact Or.inr (Or.inr ⟨hr, hlt⟩)

theorem mem_delete : r ∈ (t.delete key).rows ↔ r.1 ≠ key ∧ r ∈ t.rows := by
  simp [delete, List.mem_filter, and_comm]

theorem get_eq_some : t.get key = some value ↔ (key, value) ∈ t.rows := by
  unfold get
  rw [Option.map_eq_some_iff]
  constructor
  · rintro ⟨r, hr, rfl⟩
    have hk := List.find?_some hr
    simp only [decide_eq_true_eq] at hk
    rw [← hk]
    exact List.mem_of_find?_eq_some hr
  · intro hmem
    cases hfind : t.rows.find? (·.1 = key) with
    | none => simpa using List.find?_eq_none.mp hfind _ hmem
    | some r =>
      have hk := List.find?_some hfind
      simp only [decide_eq_true_eq] at hk
      refine ⟨r, rfl, ?_⟩
      rw [t.inOrder.eq_of_key (List.mem_of_find?_eq_some hfind) hmem hk]

theorem get_eq_none : t.get key = none ↔ ∀ value, (key, value) ∉ t.rows := by
  rw [Option.eq_none_iff_forall_ne_some]
  simp only [ne_eq, get_eq_some]

theorem seek_eq (t : Table κ υ) (key : κ) : t.seek key = t.rows.filter (atLeast key ·.1) :=
  t.inOrder.dropWhile_lt key

theorem length_seek_le (t : Table κ υ) (key : κ) : (t.seek key).length ≤ t.rows.length :=
  (List.dropWhile_sublist _).length_le

/-- The first row from its own key on is the row itself. -/
theorem head?_seek_of_mem (h : (key, value) ∈ t.rows) : (t.seek key).head? = some (key, value) := by
  rw [t.seek_eq, (t.inOrder.filter _).head?_eq_some]
  refine ⟨List.mem_filter.mpr ⟨h, by simp⟩, fun s hs => ?_⟩
  exact (atLeast_iff _ _).mp (List.mem_filter.mp hs).2

theorem mem_seek : r ∈ t.seek key ↔ r ∈ t.rows ∧ key ≤ r.1 := by
  rw [t.seek_eq, List.mem_filter, atLeast_iff]

theorem head?_seek_eq_some : (t.seek key).head? = some r ↔
    r ∈ t.rows ∧ key ≤ r.1 ∧ ∀ s ∈ t.rows, key ≤ s.1 → r.1 ≤ s.1 := by
  have hord : InOrder (t.seek key) := t.inOrder.dropWhile _
  rw [hord.head?_eq_some, mem_seek, and_assoc]
  simp only [mem_seek, and_imp]

/-- A row that the later key leaves out makes the rest shorter. -/
theorem length_seek_lt (hr : r ∈ t.rows) (h : key ≤ r.1) (h' : r.1 < key') :
    (t.seek key').length < (t.seek key).length := by
  have heq : t.seek key' = (t.seek key).filter (atLeast key' ·.1) := by
    rw [t.seek_eq, t.seek_eq, List.filter_filter]
    refine List.filter_congr fun s _ => ?_
    cases hs : atLeast key' s.1 with
    | false => rfl
    | true => simp [h.trans (h'.le.trans ((atLeast_iff _ _).mp hs))]
  rw [heq, List.length_filter_lt_length_iff_exists]
  exact ⟨r, mem_seek.mpr ⟨hr, h⟩, by simpa using h'⟩

theorem mem_upTo : r ∈ t.upTo key ↔ r ∈ t.rows ∧ r.1 < key := by
  have hpair : t.rows.Pairwise fun r s => decide (s.1 < key) = true → decide (r.1 < key) = true :=
    t.inOrder.imp fun hlt hs => decide_eq_true (hlt.trans (of_decide_eq_true hs))
  rw [upTo, takeWhile_eq_filter hpair, List.mem_filter, decide_eq_true_eq]

/-- The last row below a key. -/
theorem getLast?_upTo_eq_some : (t.upTo key).getLast? = some r ↔
    r ∈ t.rows ∧ r.1 < key ∧ ∀ s ∈ t.rows, s.1 < key → s.1 ≤ r.1 := by
  have hord : InOrder (t.upTo key) := List.Pairwise.sublist (List.takeWhile_sublist _) t.inOrder
  rw [hord.getLast?_eq_some, mem_upTo, and_assoc]
  simp only [mem_upTo, and_imp]

/-! ### What a table has in a part of the keys -/

/-- Of the keys in `S` the table has exactly the rows of `R`. -/
def Has (t : Table κ υ) (S : κ → Prop) (R : κ → υ → Prop) : Prop :=
  ∀ key value, S key → ((key, value) ∈ t.rows ↔ R key value)

variable {S : κ → Prop} {R R' : κ → υ → Prop}

theorem Has.congr (h : t.Has S R) (hr : ∀ key value, S key → (R key value ↔ R' key value)) : t.Has S R' :=
  fun key value hs => (h key value hs).trans (hr key value hs)

theorem Has.put (h : t.Has S R) :
    (t.put key value).Has S fun key' value' => key' = key ∧ value' = value ∨ key' ≠ key ∧ R key' value' := by
  intro key' value' hs
  rw [mem_put, h key' value' hs, Prod.mk.injEq]

theorem Has.delete (h : t.Has S R) : (t.delete key).Has S fun key' value' => key' ≠ key ∧ R key' value' := by
  intro key' value' hs
  rw [mem_delete, h key' value' hs]

theorem Has.get_eq_some (h : t.Has S R) (hs : S key) : t.get key = some value ↔ R key value := by
  rw [Table.get_eq_some, h key value hs]

end Table

end SortedRows
