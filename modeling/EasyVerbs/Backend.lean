-- The Firestore documents of one user, as the presenters read and write
-- them, and the file of verbs in the storage. A query is open until its
-- callback runs, and the server reads the documents at some moment between.
-- In every string a `Char` stands for a Swift `Character`: a grapheme cluster,
-- up to canonical equivalence.
import Mathlib.Data.List.Basic

namespace EasyVerbs

/-! ## Documents -/

/-- The values that the app keeps in the fields of a document. -/
inductive FieldValue
  | int (n : Int)
  | string (s : String)
  | array (xs : List String)
  deriving DecidableEq, Repr

def FieldValue.asInt : FieldValue → Option Int
  | .int n => some n
  | _ => none

def FieldValue.asStrings : FieldValue → Option (List String)
  | .array xs => some xs
  | _ => none

structure Document where
  documentID : String
  data : List (String × FieldValue)
  deriving DecidableEq, Repr

/-- `document.data()[field]`. -/
def Document.get (d : Document) (field : String) : Option FieldValue := d.data.lookup field

/-- The fields with one of them set. A field that is not there yet comes last. -/
def setField (field : String) (v : FieldValue) : List (String × FieldValue) → List (String × FieldValue)
  | [] => [(field, v)]
  | (k, x) :: rest => if k = field then (k, v) :: rest else (k, x) :: setField field v rest

/-- `document.data()["bestScore"] as? Int ?? 0`. -/
def Document.bestScore (d : Document) : Int := ((d.get "bestScore").bind FieldValue.asInt).getD 0

/-- `document.data()["favoritesVerbs"] as? [String] ?? []`. -/
def Document.favoritesVerbs (d : Document) : List String :=
  ((d.get "favoritesVerbs").bind FieldValue.asStrings).getD []

/-! ## Writes -/

/-- What `updateData` asks for one field. -/
inductive FieldUpdate
  | value (v : FieldValue)
  | arrayUnion (xs : List String)
  | arrayRemove (xs : List String)
  deriving DecidableEq, Repr

/-- `FieldValue.arrayUnion`: each element that is absent comes last. -/
def applyArrayUnion (old xs : List String) : List String :=
  xs.foldl (fun l x => if x ∈ l then l else l ++ [x]) old

/-- `FieldValue.arrayRemove`: every occurrence of the elements goes. -/
def applyArrayRemove (old xs : List String) : List String := old.filter (· ∉ xs)

/-- The new value of a field. The array updates take a field that holds no array as empty. -/
def FieldUpdate.apply (old : Option FieldValue) : FieldUpdate → FieldValue
  | .value v => v
  | .arrayUnion xs => .array (applyArrayUnion ((old.bind FieldValue.asStrings).getD []) xs)
  | .arrayRemove xs => .array (applyArrayRemove ((old.bind FieldValue.asStrings).getD []) xs)

/-- `document.reference.updateData([field: update])`, on its way to the server. -/
structure Write where
  documentID : String
  field : String
  update : FieldUpdate
  deriving DecidableEq, Repr

def Document.updateData (d : Document) (field : String) (update : FieldUpdate) : Document :=
  { d with data := setField field (update.apply (d.get field)) d.data }

def Write.applyTo (w : Write) (documents : List Document) : List Document :=
  documents.map fun d => if d.documentID = w.documentID then d.updateData w.field w.update else d

/-! ## Queries -/

/-- A `getDocuments` that waits for its callback: which callback, and the documents once
the server has read them. -/
structure Request (C : Type) where
  callback : C
  querySnapshot : Option (List Document) := none
  deriving DecidableEq, Repr

/-- The server reads the documents for the query with number `i`. -/
def serve {C : Type} (documents : List Document) (i : Nat) (rs : List (Request C)) :
    Option (List (Request C)) :=
  match rs[i]? with
  | some ⟨callback, none⟩ => some (rs.set i ⟨callback, some documents⟩)
  | _ => none

/-! ## Lemmas -/

theorem lookup_cons_eq (k k' : String) (x : FieldValue) (rest : List (String × FieldValue)) :
    ((k', x) :: rest).lookup k = if k = k' then some x else rest.lookup k := by
  by_cases h : k = k'
  · simp [h]
  · simp [List.lookup_cons, h, beq_false_of_ne h]

theorem lookup_setField (field k : String) (v : FieldValue) (data : List (String × FieldValue)) :
    (setField field v data).lookup k = if k = field then some v else data.lookup k := by
  induction data with
  | nil => rw [setField, lookup_cons_eq]
  | cons x rest ih =>
    obtain ⟨k', x⟩ := x
    unfold setField
    split
    · rename_i hf
      subst hf
      rw [lookup_cons_eq, lookup_cons_eq]
      split <;> rfl
    · rename_i hf
      rw [lookup_cons_eq, lookup_cons_eq, ih]
      split
      · rename_i hk
        subst hk
        rw [if_neg hf]
      · rfl

theorem get_updateData (d : Document) (field k : String) (u : FieldUpdate) :
    (d.updateData field u).get k = if k = field then some (u.apply (d.get field)) else d.get k := by
  unfold Document.updateData Document.get
  exact lookup_setField _ _ _ _

theorem updateData_keeps_favoritesVerbs (d : Document) (u : FieldUpdate) :
    (d.updateData "bestScore" u).favoritesVerbs = d.favoritesVerbs := by
  simp [Document.favoritesVerbs, get_updateData]

theorem updateData_keeps_bestScore (d : Document) (u : FieldUpdate) :
    (d.updateData "favoritesVerbs" u).bestScore = d.bestScore := by
  simp [Document.bestScore, get_updateData]

@[simp] theorem updateData_bestScore (d : Document) (n : Int) :
    (d.updateData "bestScore" (.value (.int n))).bestScore = n := by
  simp [Document.bestScore, get_updateData, FieldUpdate.apply, FieldValue.asInt]

@[simp] theorem updateData_arrayUnion (d : Document) (xs : List String) :
    (d.updateData "favoritesVerbs" (.arrayUnion xs)).favoritesVerbs =
      applyArrayUnion d.favoritesVerbs xs := by
  simp [Document.favoritesVerbs, get_updateData, FieldUpdate.apply, FieldValue.asStrings]

@[simp] theorem updateData_arrayRemove (d : Document) (xs : List String) :
    (d.updateData "favoritesVerbs" (.arrayRemove xs)).favoritesVerbs =
      applyArrayRemove d.favoritesVerbs xs := by
  simp [Document.favoritesVerbs, get_updateData, FieldUpdate.apply, FieldValue.asStrings]

theorem applyTo_only {w : Write} {d : Document} (h : w.documentID = d.documentID) :
    w.applyTo [d] = [d.updateData w.field w.update] := by
  simp [Write.applyTo, h]

@[simp] theorem applyTo_documentIDs (w : Write) (documents : List Document) :
    (w.applyTo documents).map (·.documentID) = documents.map (·.documentID) := by
  unfold Write.applyTo
  rw [List.map_map]
  refine List.map_congr_left fun d _ => ?_
  simp only [Function.comp_apply]
  split <;> rfl

theorem serve_eq_some {C : Type} {documents : List Document} {i : Nat} {rs rs' : List (Request C)}
    (h : serve documents i rs = some rs') :
    ∃ callback, rs[i]? = some ⟨callback, none⟩ ∧ rs' = rs.set i ⟨callback, some documents⟩ := by
  unfold serve at h
  split at h
  · rename_i callback hr
    cases h
    exact ⟨callback, hr, rfl⟩
  · cases h

/-! ## The file of verbs -/

/-- An entry of `easy_verbs.json`. -/
structure IrregularVerb where
  infinitive : Option String
  pastSimple : Option String
  pastParticiple : Option String
  description : Option String
  deriving DecidableEq, Repr

/-- The `getData` that `onViewDidLoad` of three presenters calls for `easy_verbs.json`. -/
inductive Download
  | waiting
  /-- The entries are decoded, and the block with them waits on the main queue. -/
  | decoded (json : List IrregularVerb)
  | over
  deriving DecidableEq, Repr

/-- The callback of `getData`: an error, no data, or data that does not decode ends it. -/
def Download.answered (json : Option (List IrregularVerb)) : Download → Option Download
  | .waiting =>
    match json with
    | some json => some (.decoded json)
    | none => some .over
  | _ => none

end EasyVerbs
