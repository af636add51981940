-- A transaction of the Firestore client on its LevelDB table. The changes wait
-- beside the table until the commit. A reader in between looks through them at
-- the table, by two iterators at once, and may change rows under its own feet.
import EasyVerbs.OrderedCode
import EasyVerbs.SortedRows
import EasyVerbs.Runs
import Mathlib.Data.List.DropRight

namespace EasyVerbs.Firestore

open SortedRows Runs

variable {υ : Type}

abbrev Key := List Byte

abbrev Row (υ : Type) := Key × υ

structure LevelDbTransaction (υ : Type) where
  db : Table Key υ
  mutations : Table Key υ
  deletions : List Key
  version : ℕ

namespace LevelDbTransaction

/-- A new transaction. -/
def on (db : Table Key υ) : LevelDbTransaction υ := ⟨db, .empty, [], 0⟩

def put (txn : LevelDbTransaction υ) (key : Key) (value : υ) : LevelDbTransaction υ :=
  { txn with
    deletions := txn.deletions.filter (· ≠ key)
    mutations := txn.mutations.put key value
    version := txn.version + 1 }

def get (txn : LevelDbTransaction υ) (key : Key) : Option υ :=
  if key ∈ txn.deletions then none
  else
    match txn.mutations.get key with
    | some value => some value
    | none => txn.db.get key

def delete (txn : LevelDbTransaction υ) (key : Key) : LevelDbTransaction υ :=
  { txn with
    deletions := key :: txn.deletions
    mutations := txn.mutations.delete key
    version := txn.version + 1 }

/-- The table after the batch of all deletions and then all mutations. -/
def commit (txn : LevelDbTransaction υ) : Table Key υ :=
  txn.mutations.rows.foldl (fun db row => db.put row.1 row.2) (txn.deletions.foldl Table.delete txn.db)

def isDeleted (txn : LevelDbTransaction υ) (row : Row υ) : Bool := row.1 ∈ txn.deletions

end LevelDbTransaction

/-! ## The iterator -/

/-- The two iterators hold the rows that are still before them. -/
structure Iterator (υ : Type) where
  dbIter : List (Row υ)
  lastVersion : ℕ
  mutationsIter : List (Row υ)
  current : Row υ
  isMutation : Bool
  isValid : Bool

def LevelDbTransaction.newIterator [Inhabited υ] (txn : LevelDbTransaction υ) : Iterator υ :=
  ⟨[], txn.version, txn.mutations.rows, ([], default), false, false⟩

namespace Iterator

def updateCurrent (it : Iterator υ) : Iterator υ :=
  match it.mutationsIter, it.dbIter with
  | [], [] => { it with isValid := false }
  | [], row :: _ => { it with isValid := true, isMutation := false, current := row }
  | mutation :: _, [] => { it with isValid := true, isMutation := true, current := mutation }
  | mutation :: _, row :: _ =>
    -- A mutation comes sooner, or it shadows the row.
    if mutation.1 ≤ row.1 then { it with isValid := true, isMutation := true, current := mutation }
    else { it with isValid := true, isMutation := false, current := row }

def seek (txn : LevelDbTransaction υ) (it : Iterator υ) (key : Key) : Iterator υ :=
  { updateCurrent
      { it with
        dbIter := (txn.db.seek key).dropWhile txn.isDeleted
        mutationsIter := txn.mutations.seek key } with
    lastVersion := txn.version }

/-- The next row of LevelDB that is not deleted. -/
def advanceLdb (txn : LevelDbTransaction υ) (it : Iterator υ) : Checked (Iterator υ) :=
  match it.dbIter with
  | [] => .error .undefined
  | _ :: dbIter => .ok { it with dbIter := dbIter.dropWhile txn.isDeleted }

/-- Whether the transaction has changed and the row of before is gone. -/
def syncToTransaction (txn : LevelDbTransaction υ) (it : Iterator υ) : Bool × Iterator υ :=
  if it.lastVersion < txn.version then
    let currentKey := it.current.1
    let it := it.seek txn currentKey
    (it.isValid && decide (currentKey < it.current.1), it)
  else (false, it)

/-- A mutation may be shadowing a row. Then the row is passed as well. -/
def advanceShadowed (txn : LevelDbTransaction υ) (it : Iterator υ) (key : Key) : Checked (Iterator υ) :=
  match it.dbIter with
  | [] => .ok it
  | row :: _ => if row.1 = key then it.advanceLdb txn else .ok it

/-- The part of `Next` for an iterator that is in sync. -/
def advance (txn : LevelDbTransaction υ) (it : Iterator υ) : Checked (Iterator υ) :=
  if it.isMutation then
    match it.mutationsIter with
    | [] => .error .undefined
    | mutation :: mutationsIter => do
      let it ← it.advanceShadowed txn mutation.1
      return updateCurrent { it with mutationsIter }
  else do
    let it ← it.advanceLdb txn
    return it.updateCurrent

def next (txn : LevelDbTransaction υ) (it : Iterator υ) : Checked (Iterator υ) := do
  hardAssert it.isValid
  let (advanced, it) := it.syncToTransaction txn
  if !advanced && it.isValid then it.advance txn else return it

/-- The row of `key()` and `value()`. -/
def entry (it : Iterator υ) : Option (Row υ) := if it.isValid then some it.current else none

end Iterator

/-! ## What the commit makes of the changes -/

namespace LevelDbTransaction

variable {txn : LevelDbTransaction υ} {key : Key} {value : υ} {row : Row υ}

theorem mem_deleteAll (deletions : List Key) (db : Table Key υ) :
    row ∈ (deletions.foldl Table.delete db).rows ↔ row.1 ∉ deletions ∧ row ∈ db.rows := by
  induction deletions generalizing db with
  | nil => simp
  | cons key deletions ih =>
    rw [List.foldl_cons, ih, Table.mem_delete, List.mem_cons, not_or]
    tauto

theorem mem_putAll (mutations : List (Row υ)) (h : InOrder mutations) (db : Table Key υ) :
    row ∈ (mutations.foldl (fun db row => db.put row.1 row.2) db).rows ↔
      row ∈ mutations ∨ row.1 ∉ mutations.map Prod.fst ∧ row ∈ db.rows := by
  induction mutations generalizing db with
  | nil => simp
  | cons mutation mutations ih =>
    obtain ⟨hfirst, hrest⟩ := List.pairwise_cons.mp h
    have hne : mutation.1 ∉ mutations.map Prod.fst := by
      simp only [List.mem_map, not_exists, not_and]
      intro s hs he
      exact (hfirst s hs).ne he.symm
    rw [List.foldl_cons, ih hrest, Table.mem_put, List.map_cons, List.mem_cons, List.mem_cons, not_or]
    constructor
    · rintro (hmem | ⟨hnot, rfl | ⟨hk, hmem⟩⟩)
      · exact Or.inl (Or.inr hmem)
      · exact Or.inl (Or.inl rfl)
      · exact Or.inr ⟨⟨hk, hnot⟩, hmem⟩
    · rintro ((rfl | hmem) | ⟨⟨hk, hnot⟩, hmem⟩)
      · exact Or.inr ⟨hne, Or.inl rfl⟩
      · exact Or.inl hmem
      · exact Or.inr ⟨hnot, Or.inr ⟨hk, hmem⟩⟩

/-- A row of the committed table is a mutation, or a row that no mutation shadows. -/
theorem mem_commit :
    row ∈ txn.commit.rows ↔
      row ∈ txn.mutations.rows ∨
        row.1 ∉ txn.mutations.rows.map Prod.fst ∧ row.1 ∉ txn.deletions ∧ row ∈ txn.db.rows := by
  rw [commit, mem_putAll _ txn.mutations.inOrder, mem_deleteAll]

/-- No key has a mutation and a deletion. -/
def WellFormed (txn : LevelDbTransaction υ) : Prop :=
  ∀ row ∈ txn.mutations.rows, row.1 ∉ txn.deletions

theorem wellFormed_on (db : Table Key υ) : (on db).WellFormed := by
  intro row hrow
  exact absurd hrow Table.mem_empty

theorem commit_on (db : Table Key υ) : (on db).commit = db := rfl

theorem WellFormed.put (h : txn.WellFormed) (key : Key) (value : υ) : (txn.put key value).WellFormed := by
  intro row hrow
  simp only [LevelDbTransaction.put, List.mem_filter, decide_eq_true_eq, not_and, not_not]
  intro hmem
  rcases Table.mem_put.mp hrow with rfl | ⟨-, hrow⟩
  · rfl
  · exact absurd hmem (h row hrow)

theorem WellFormed.delete (h : txn.WellFormed) (key : Key) : (txn.delete key).WellFormed := by
  intro row hrow
  obtain ⟨hne, hmem⟩ := Table.mem_delete.mp hrow
  simp only [LevelDbTransaction.delete, List.mem_cons, not_or]
  exact ⟨hne, h row hmem⟩

theorem commit_put (txn : LevelDbTransaction υ) (key : Key) (value : υ) :
    (txn.put key value).commit = txn.commit.put key value := by
  refine Table.ext fun row => ?_
  rw [Table.mem_put, mem_commit, mem_commit]
  simp only [put, Table.mem_put, List.mem_filter, List.mem_map, decide_eq_true_eq]
  by_cases hk : row.1 = key
  · subst hk
    constructor
    · rintro ((h | ⟨hne, -⟩) | ⟨hnot, -⟩)
      · exact Or.inl h
      · exact absurd rfl hne
      · exact absurd ⟨(row.1, value), Or.inl rfl, rfl⟩ hnot
    · rintro (h | ⟨hne, -⟩)
      · exact Or.inl (Or.inl h)
      · exact absurd rfl hne
  · have hrow : row ≠ (key, value) := fun h => hk (by rw [h])
    have hkeys : (∃ a, (a = (key, value) ∨ a.1 ≠ key ∧ a ∈ txn.mutations.rows) ∧ a.1 = row.1) ↔
        ∃ a ∈ txn.mutations.rows, a.1 = row.1 := by
      constructor
      · rintro ⟨a, rfl | ⟨-, ha⟩, he⟩
        · exact absurd he.symm hk
        · exact ⟨a, ha, he⟩
      · rintro ⟨a, ha, he⟩
        exact ⟨a, Or.inr ⟨by rwa [he], ha⟩, he⟩
    rw [hkeys]
    simp only [hrow, hk, ne_eq, not_false_eq_true, true_and, false_or, and_true]

theorem commit_delete (txn : LevelDbTransaction υ) (key : Key) :
    (txn.delete key).commit = txn.commit.delete key := by
  refine Table.ext fun row => ?_
  rw [Table.mem_delete, mem_commit, mem_commit]
  simp only [delete, Table.mem_delete, List.mem_cons, List.mem_map]
  by_cases hk : row.1 = key
  · subst hk
    simp
  · have hkeys : (∃ a, (a.1 ≠ key ∧ a ∈ txn.mutations.rows) ∧ a.1 = row.1) ↔
        ∃ a ∈ txn.mutations.rows, a.1 = row.1 := by
      constructor
      · rintro ⟨a, ⟨-, ha⟩, he⟩
        exact ⟨a, ha, he⟩
      · rintro ⟨a, ha, he⟩
        exact ⟨a, ⟨by rwa [he], ha⟩, he⟩
    rw [hkeys]
    simp only [hk, ne_eq, not_false_eq_true, true_and, false_or]

/-- A key is looked up as in the committed table. -/
theorem get_eq (h : txn.WellFormed) (key : Key) : txn.get key = txn.commit.get key := by
  have hcommit : ∀ value, txn.commit.get key = some value ↔
      (key, value) ∈ txn.mutations.rows ∨
        key ∉ txn.mutations.rows.map Prod.fst ∧ key ∉ txn.deletions ∧ (key, value) ∈ txn.db.rows :=
    fun value => by rw [Table.get_eq_some, mem_commit]
  refine Option.ext fun value => ?_
  rw [hcommit, get]
  by_cases hdel : key ∈ txn.deletions
  · rw [if_pos hdel]
    have hno : (key, value) ∉ txn.mutations.rows := fun hmem => h _ hmem hdel
    simp [hno, hdel]
  · rw [if_neg hdel]
    cases hget : txn.mutations.get key with
    | some value' =>
      rw [Table.get_eq_some] at hget
      have hkey : key ∈ txn.mutations.rows.map Prod.fst := List.mem_map_of_mem hget
      simp only [Option.some.injEq, hkey, not_true_eq_false, false_and, or_false]
      constructor
      · rintro rfl
        exact hget
      · intro hmem
        have he := txn.mutations.inOrder.eq_of_key hget hmem rfl
        exact congrArg Prod.snd he
    | none =>
      rw [Table.get_eq_none] at hget
      have hkey : key ∉ txn.mutations.rows.map Prod.fst := by
        rw [List.mem_map]
        rintro ⟨row, hrow, rfl⟩
        exact hget row.2 hrow
      simp only [Table.get_eq_some, hget value, hkey, hdel, not_false_eq_true, true_and, false_or]

end LevelDbTransaction

/-! ## What an iterator reads -/

namespace Iterator

variable {txn : LevelDbTransaction υ} {it it' : Iterator υ} {p : Key → Bool} {rows : List (Row υ)}

/-- The iterator stands where the keys with the property begin. -/
structure At (txn : LevelDbTransaction υ) (it : Iterator υ) (p : Key → Bool) : Prop where
  dbIter : it.dbIter = (txn.db.rows.filter (p ·.1)).dropWhile txn.isDeleted
  mutationsIter : it.mutationsIter = txn.mutations.rows.filter (p ·.1)

/-- From an iterator that is in sync the transaction reads these rows. -/
structure Reads (txn : LevelDbTransaction υ) (it : Iterator υ) (rows : List (Row υ)) : Prop where
  inSync : it.lastVersion = txn.version
  updated : it.updateCurrent = it
  place : ∃ p, (∀ j k : Key, j ≤ k → p j = true → p k = true) ∧ At txn it p ∧
    rows = txn.commit.rows.filter (p ·.1)

theorem updateCurrent_lists (it : Iterator υ) :
    it.updateCurrent.dbIter = it.dbIter ∧ it.updateCurrent.mutationsIter = it.mutationsIter ∧
      it.updateCurrent.lastVersion = it.lastVersion := by
  unfold updateCurrent
  split
  · exact ⟨rfl, rfl, rfl⟩
  · exact ⟨rfl, rfl, rfl⟩
  · exact ⟨rfl, rfl, rfl⟩
  · split <;> exact ⟨rfl, rfl, rfl⟩

theorem updateCurrent_updateCurrent (it : Iterator υ) :
    it.updateCurrent.updateCurrent = it.updateCurrent := by
  obtain ⟨dbIter, lastVersion, mutationsIter, current, isMutation, isValid⟩ := it
  cases mutationsIter with
  | nil => cases dbIter <;> rfl
  | cons mutation mutationsIter =>
    cases dbIter with
    | nil => rfl
    | cons row dbIter =>
      by_cases h : mutation.1 ≤ row.1 <;> simp [updateCurrent, h]

theorem At.mem_of_mutation (h : At txn it p) {row : Row υ} (hrow : row ∈ it.mutationsIter) :
    row ∈ txn.commit.rows.filter (p ·.1) := by
  rw [h.mutationsIter] at hrow
  obtain ⟨hrow, hp⟩ := List.mem_filter.mp hrow
  exact List.mem_filter.mpr ⟨LevelDbTransaction.mem_commit.mpr (Or.inl hrow), hp⟩

/-- A row of LevelDB that comes before all mutations is one of the committed table. -/
theorem At.mem_of_row (h : At txn it p) {row : Row υ} {rest : List (Row υ)} (hrow : it.dbIter = row :: rest)
    (hlt : ∀ mutation ∈ it.mutationsIter, row.1 < mutation.1) :
    row ∈ txn.commit.rows.filter (p ·.1) := by
  rw [h.dbIter] at hrow
  obtain ⟨hmem, hdel, -⟩ := (txn.db.inOrder.filter (p ·.1)).head_dropWhile hrow
  obtain ⟨hdb, hp⟩ := List.mem_filter.mp hmem
  refine List.mem_filter.mpr ⟨LevelDbTransaction.mem_commit.mpr (Or.inr ⟨?_, ?_, hdb⟩), hp⟩
  · intro hkey
    obtain ⟨s, hs, he⟩ := List.mem_map.mp hkey
    have hs' : s ∈ it.mutationsIter := h.mutationsIter ▸ List.mem_filter.mpr ⟨hs, by rw [he]; exact hp⟩
    exact (hlt s hs').ne he.symm
  · simpa [LevelDbTransaction.isDeleted] using hdel

/-- Each row of the committed table is at one of the two iterators or after it. -/
theorem At.after (h : At txn it p) {s : Row υ} (hs : s ∈ txn.commit.rows.filter (p ·.1)) :
    s ∈ it.mutationsIter ∨ ∃ row rest, it.dbIter = row :: rest ∧ row.1 ≤ s.1 := by
  obtain ⟨hs, hp⟩ := List.mem_filter.mp hs
  rcases LevelDbTransaction.mem_commit.mp hs with hs | ⟨-, hdel, hs⟩
  · exact Or.inl (h.mutationsIter ▸ List.mem_filter.mpr ⟨hs, hp⟩)
  · have hmem : s ∈ txn.db.rows.filter (p ·.1) := List.mem_filter.mpr ⟨hs, hp⟩
    have hdel : txn.isDeleted s = false := by simpa [LevelDbTransaction.isDeleted] using hdel
    right
    rw [h.dbIter]
    cases hd : (txn.db.rows.filter (p ·.1)).dropWhile txn.isDeleted with
    | nil =>
      rw [List.dropWhile_eq_nil_iff] at hd
      rw [hd s hmem] at hdel
      cases hdel
    | cons row rest =>
      exact ⟨row, rest, rfl, ((txn.db.inOrder.filter (p ·.1)).head_dropWhile hd).2.2 s hmem hdel⟩

theorem At.first_mutation (h : At txn it p) {mutation : Row υ} {rest : List (Row υ)}
    (hm : it.mutationsIter = mutation :: rest) : ∀ s ∈ it.mutationsIter, mutation.1 ≤ s.1 := by
  rw [h.mutationsIter] at hm ⊢
  exact ((txn.mutations.inOrder.filter (p ·.1)).head?_eq_some.mp (by rw [hm]; rfl)).2

theorem updateCurrent_lastVersion (it : Iterator υ) (v : ℕ) :
    updateCurrent { it with lastVersion := v } = { it.updateCurrent with lastVersion := v } := by
  obtain ⟨dbIter, lastVersion, mutationsIter, current, isMutation, isValid⟩ := it
  cases mutationsIter with
  | nil => cases dbIter <;> rfl
  | cons mutation mutationsIter =>
    cases dbIter with
    | nil => rfl
    | cons row dbIter => by_cases h : mutation.1 ≤ row.1 <;> simp [updateCurrent, h]

/-- The row of the iterator is the first one of the committed table from its place on. -/
theorem At.entry_eq (h : At txn it p) (hup : it.updateCurrent = it) :
    it.entry = (txn.commit.rows.filter (p ·.1)).head? := by
  have hord := txn.commit.inOrder.filter (p ·.1)
  symm
  rw [entry, ← hup, updateCurrent]
  split
  · rename_i hm hd
    simp only [Bool.false_eq_true, if_false, List.head?_eq_none_iff, List.eq_nil_iff_forall_not_mem]
    intro s hs
    rcases h.after hs with hs | ⟨row, rest, hrow, -⟩
    · rw [hm] at hs
      cases hs
    · rw [hd] at hrow
      cases hrow
  · rename_i row rest hm hd
    simp only [if_true, hord.head?_eq_some]
    refine ⟨h.mem_of_row hd (by simp [hm]), fun s hs => ?_⟩
    rcases h.after hs with hs | ⟨row', rest', hrow, hle⟩
    · rw [hm] at hs
      cases hs
    · rw [hd] at hrow
      cases hrow
      exact hle
  · rename_i mutation mutations hm hd
    simp only [if_true, hord.head?_eq_some]
    refine ⟨h.mem_of_mutation (hm ▸ List.mem_cons_self), fun s hs => ?_⟩
    rcases h.after hs with hs | ⟨row, rest, hrow, -⟩
    · exact h.first_mutation hm s hs
    · rw [hd] at hrow
      cases hrow
  · rename_i mutation mutations row rest hm hd
    by_cases hle : mutation.1 ≤ row.1
    · simp only [if_pos hle, if_true, hord.head?_eq_some]
      refine ⟨h.mem_of_mutation (hm ▸ List.mem_cons_self), fun s hs => ?_⟩
      rcases h.after hs with hs | ⟨row', rest', hrow, hle'⟩
      · exact h.first_mutation hm s hs
      · rw [hd] at hrow
        cases hrow
        exact hle.trans hle'
    · have hlt : ∀ s ∈ it.mutationsIter, row.1 < s.1 :=
        fun s hs => (not_le.mp hle).trans_le (h.first_mutation hm s hs)
      simp only [if_neg hle, if_true, hord.head?_eq_some]
      refine ⟨h.mem_of_row hd hlt, fun s hs => ?_⟩
      rcases h.after hs with hs | ⟨row', rest', hrow, hle'⟩
      · exact (hlt s hs).le
      · rw [hd] at hrow
        cases hrow
        exact hle'

theorem Reads.entry_eq (h : Reads txn it rows) : it.entry = rows.head? := by
  obtain ⟨p, -, hat, rfl⟩ := h.place
  exact hat.entry_eq h.updated

theorem reads_seek (txn : LevelDbTransaction υ) (it : Iterator υ) (key : Key) :
    Reads txn (it.seek txn key) (txn.commit.seek key) := by
  refine ⟨rfl, ?_, atLeast key, fun j k hjk => ?_, ⟨?_, ?_⟩, txn.commit.seek_eq key⟩
  · unfold seek
    rw [updateCurrent_lastVersion, updateCurrent_updateCurrent]
  · rw [atLeast_iff, atLeast_iff]
    exact fun h => h.trans hjk
  · show (updateCurrent _).dbIter = _
    rw [(updateCurrent_lists _).1, txn.db.seek_eq]
  · show (updateCurrent _).mutationsIter = _
    rw [(updateCurrent_lists _).2.1, txn.mutations.seek_eq]

theorem At.dbIter_inOrder (h : At txn it p) : InOrder it.dbIter :=
  h.dbIter ▸ (txn.db.inOrder.filter (p ·.1)).dropWhile _

theorem At.mutationsIter_inOrder (h : At txn it p) : InOrder it.mutationsIter :=
  h.mutationsIter ▸ txn.mutations.inOrder.filter (p ·.1)

theorem At.dropWhile_dbIter (h : At txn it p) : it.dbIter.dropWhile txn.isDeleted = it.dbIter := by
  rw [h.dbIter, List.dropWhile_idempotent]

/-- An iterator moved beyond the first of its rows reads the rest. -/
theorem Reads.beyond {row : Row υ} (h : Reads txn it (row :: rows)) {dbIter mutationsIter : List (Row υ)}
    (hdb : dbIter = (it.dbIter.filter (above row.1 ·.1)).dropWhile txn.isDeleted)
    (hm : mutationsIter = it.mutationsIter.filter (above row.1 ·.1)) :
    Reads txn (updateCurrent { it with dbIter, mutationsIter }) rows := by
  obtain ⟨p, hup, hat, hrows⟩ := h.place
  refine ⟨?_, updateCurrent_updateCurrent _, fun key => p key && above row.1 key, fun j k hjk => ?_,
    ⟨?_, ?_⟩, ?_⟩
  · rw [(updateCurrent_lists _).2.2]
    exact h.inSync
  · rw [Bool.and_eq_true, Bool.and_eq_true, above_iff, above_iff]
    exact fun h => ⟨hup j k hjk h.1, h.2.trans_le hjk⟩
  · rw [(updateCurrent_lists _).1]
    show dbIter = _
    rw [hdb, hat.dbIter, dropWhile_filter_dropWhile, List.filter_filter]
    simp only [Bool.and_comm]
  · rw [(updateCurrent_lists _).2.1]
    show mutationsIter = _
    rw [hm, hat.mutationsIter, List.filter_filter]
    simp only [Bool.and_comm]
  · rw [← txn.commit.inOrder.tail_filter (p := (p ·.1)) (by rw [← hrows]; rfl), ← hrows, List.tail_cons]

theorem advanceLdb_eq {first : Row υ} {rest : List (Row υ)} (hd : it.dbIter = first :: rest) :
    it.advanceLdb txn = .ok { it with dbIter := rest.dropWhile txn.isDeleted } := by
  unfold advanceLdb
  rw [hd]

/-- No row of LevelDB up to the key of a mutation stays in front of the iterator. -/
theorem At.advanceShadowed_eq (h : At txn it p) {key : Key} (hle : ∀ row ∈ it.dbIter, key ≤ row.1) :
    it.advanceShadowed txn key =
      .ok { it with dbIter := (it.dbIter.filter (above key ·.1)).dropWhile txn.isDeleted } := by
  have hord := h.dbIter_inOrder
  have hsame := h.dropWhile_dbIter
  unfold advanceShadowed
  cases hd : it.dbIter with
  | nil =>
    obtain ⟨dbIter, lastVersion, mutationsIter, current, isMutation, isValid⟩ := it
    cases hd
    rfl
  | cons first rest =>
    rw [hd] at hle hord hsame
    by_cases hkey : first.1 = key
    · subst hkey
      simp only [if_true, advanceLdb_eq hd, hord.filter_above_cons]
    · have habove : ∀ row ∈ first :: rest, key < row.1 := by
        have hfirst : key < first.1 := lt_of_le_of_ne (hle first List.mem_cons_self) (Ne.symm hkey)
        intro row hrow
        rcases List.mem_cons.mp hrow with rfl | hrow
        · exact hfirst
        · exact hfirst.trans ((List.pairwise_cons.mp hord).1 row hrow)
      have hrest : ((first :: rest).filter (above key ·.1)).dropWhile txn.isDeleted = it.dbIter := by
        rw [filter_above_of_lt habove, hsame, hd]
      rw [hrest]
      exact if_neg hkey

/-- `Next` of an iterator in sync leaves out the first of its rows. -/
theorem Reads.advance {row : Row υ} (h : Reads txn it (row :: rows)) :
    ∃ it', it.advance txn = .ok it' ∧ Reads txn it' rows := by
  obtain ⟨p, -, hat, -⟩ := h.place
  have hup := h.updated
  have hentry : it.entry = some row := h.entry_eq
  rw [entry, ← hup] at hentry
  unfold Iterator.advance
  cases hm : it.mutationsIter with
  | nil =>
    cases hd : it.dbIter with
    | nil => simp [updateCurrent, hm, hd] at hentry
    | cons first rest =>
      have hmutation : ¬ it.isMutation = true := by
        rw [← hup]
        simp [updateCurrent, hm, hd]
      have hrow : first = row := by simpa [updateCurrent, hm, hd] using hentry
      subst hrow
      rw [if_neg hmutation, advanceLdb_eq hd]
      refine ⟨_, rfl, h.beyond ?_ ?_⟩
      · rw [hd, InOrder.filter_above_cons (hd ▸ hat.dbIter_inOrder)]
      · rw [hm]
        rfl
  | cons mutation mutations =>
    have hmut : InOrder (mutation :: mutations) := hm ▸ hat.mutationsIter_inOrder
    by_cases hle : ∀ s ∈ it.dbIter, mutation.1 ≤ s.1
    · have hhead : it.isMutation = true ∧ mutation = row := by
        rw [← hup]
        cases hd : it.dbIter with
        | nil => simpa [updateCurrent, hm, hd] using hentry
        | cons first rest =>
          have hfirst : mutation.1 ≤ first.1 := hle first (hd ▸ List.mem_cons_self)
          simpa [updateCurrent, hm, hd, hfirst] using hentry
      obtain ⟨hmutation, rfl⟩ := hhead
      rw [if_pos hmutation]
      simp only [hat.advanceShadowed_eq hle]
      refine ⟨_, rfl, h.beyond rfl ?_⟩
      rw [hm, hmut.filter_above_cons]
    · cases hd : it.dbIter with
      | nil => simp [hd] at hle
      | cons first rest =>
        have hfirst : InOrder (first :: rest) := hd ▸ hat.dbIter_inOrder
        have hlt : ¬ mutation.1 ≤ first.1 := by
          intro hmf
          refine hle fun s hs => ?_
          rw [hd] at hs
          rcases List.mem_cons.mp hs with rfl | hs
          · exact hmf
          · exact hmf.trans ((List.pairwise_cons.mp hfirst).1 s hs).le
        have hmutation : ¬ it.isMutation = true := by
          rw [← hup]
          simp [updateCurrent, hm, hd, hlt]
        have hrow : first = row := by simpa [updateCurrent, hm, hd, hlt] using hentry
        subst hrow
        rw [if_neg hmutation, advanceLdb_eq hd]
        refine ⟨_, rfl, h.beyond ?_ ?_⟩
        · rw [hd, hfirst.filter_above_cons]
        · rw [hm, filter_above_of_lt]
          intro s hs
          exact (not_le.mp hlt).trans_le (hat.first_mutation hm s (hm ▸ hs))

/-! ### Iterators while the transaction changes -/

/-- An iterator whose place counts as long as nothing has changed since. -/
structure Kept (txn : LevelDbTransaction υ) (it : Iterator υ) : Prop where
  lastVersion_le : it.lastVersion ≤ txn.version
  reads : it.isValid → it.lastVersion = txn.version → ∃ rows, Reads txn it rows

theorem Kept.changed {txn' : LevelDbTransaction υ} (h : Kept txn it) (hv : txn.version < txn'.version) :
    Kept txn' it :=
  ⟨h.lastVersion_le.trans hv.le, fun _ he => absurd (he ▸ h.lastVersion_le) (not_le.mpr hv)⟩

theorem Reads.kept (h : Reads txn it rows) : Kept txn it := ⟨h.inSync.le, fun _ _ => ⟨rows, h⟩⟩

theorem entry_eq_some {row : Row υ} : it.entry = some row ↔ it.isValid = true ∧ it.current = row := by
  unfold entry
  cases it.isValid <;> simp

theorem entry_eq_none : it.entry = none ↔ it.isValid = false := by
  unfold entry
  cases it.isValid <;> simp

theorem next_eq (hvalid : it.isValid = true) :
    it.next txn =
      if !(it.syncToTransaction txn).1 && (it.syncToTransaction txn).2.isValid then
        (it.syncToTransaction txn).2.advance txn
      else .ok (it.syncToTransaction txn).2 := by
  unfold Iterator.next
  rw [hvalid]
  rfl

theorem Reads.next {row : Row υ} (h : Reads txn it (row :: rows)) :
    ∃ it', it.next txn = .ok it' ∧ Reads txn it' rows := by
  obtain ⟨hvalid, -⟩ := entry_eq_some.mp h.entry_eq
  obtain ⟨it', hadvance, hreads⟩ := h.advance
  have hnot : ¬ it.lastVersion < txn.version := by rw [h.inSync]; exact lt_irrefl _
  rw [next_eq hvalid, syncToTransaction, if_neg hnot]
  exact ⟨it', by simp [hvalid, hadvance], hreads⟩

/-- `Next` goes to the first row of the committed table with a greater key, whatever has
become of the row before. -/
theorem Kept.next {row : Row υ} (h : Kept txn it) (hentry : it.entry = some row) :
    ∃ it', it.next txn = .ok it' ∧ Kept txn it' ∧
      it'.entry = (txn.commit.rows.filter (above row.1 ·.1)).head? := by
  obtain ⟨hvalid, rfl⟩ := entry_eq_some.mp hentry
  rw [next_eq hvalid]
  rcases lt_or_eq_of_le h.lastVersion_le with hold | hsync
  · have hreads := reads_seek txn it it.current.1
    have hfirst := hreads.entry_eq
    have hgt : (txn.commit.seek it.current.1).filter (above it.current.1 ·.1) =
        txn.commit.rows.filter (above it.current.1 ·.1) := by
      rw [txn.commit.seek_eq, List.filter_filter]
      refine List.filter_congr fun s _ => ?_
      cases hs : above it.current.1 s.1 with
      | false => rfl
      | true => simp [((above_iff _ _).mp hs).le]
    have hord : InOrder (txn.commit.seek it.current.1) := txn.commit.inOrder.dropWhile _
    have hge : ∀ s ∈ txn.commit.seek it.current.1, it.current.1 ≤ s.1 := by
      intro s hs
      rw [txn.commit.seek_eq] at hs
      exact (atLeast_iff _ _).mp (List.mem_filter.mp hs).2
    have hsync : it.syncToTransaction txn = ((it.seek txn it.current.1).isValid &&
        decide (it.current.1 < (it.seek txn it.current.1).current.1), it.seek txn it.current.1) := by
      rw [syncToTransaction, if_pos hold]
    rw [hsync, ← hgt]
    generalize it.seek txn it.current.1 = it1 at *
    cases hrows : txn.commit.seek it.current.1 with
    | nil =>
      rw [hrows] at hfirst
      have hend : it1.isValid = false := entry_eq_none.mp hfirst
      refine ⟨it1, ?_, hreads.kept, hfirst⟩
      simp [hend]
    | cons s rest =>
      rw [hrows] at hfirst hord hreads hge
      obtain ⟨hvalid1, hcurrent⟩ := entry_eq_some.mp hfirst
      simp only [hvalid1, hcurrent, Bool.true_and, Bool.and_true]
      by_cases hlt : it.current.1 < s.1
      · -- The row of before is gone.
        refine ⟨it1, by simp [hlt], hreads.kept, ?_⟩
        rw [filter_above_of_lt, hfirst]
        · intro s' hs'
          rcases List.mem_cons.mp hs' with rfl | hs'
          · exact hlt
          · exact hlt.trans ((List.pairwise_cons.mp hord).1 s' hs')
      · have hsame : it.current.1 = s.1 := le_antisymm (hge s List.mem_cons_self) (not_lt.mp hlt)
        obtain ⟨it2, hadvance, hreads2⟩ := hreads.advance
        refine ⟨it2, by simp [hlt, hadvance], hreads2.kept, ?_⟩
        rw [hsame, hord.filter_above_cons, hreads2.entry_eq]
  · obtain ⟨rows, hreads⟩ := h.reads hvalid hsync
    have hfirst := hreads.entry_eq
    rw [hentry] at hfirst
    obtain ⟨rest, rfl⟩ := List.head?_eq_some_iff.mp hfirst.symm
    obtain ⟨it', hnext, hreads'⟩ := hreads.next
    obtain ⟨p, hup, -, hrows⟩ := hreads.place
    refine ⟨it', by rw [← next_eq hvalid, hnext], hreads'.kept, ?_⟩
    rw [txn.commit.inOrder.filter_above_head hup hrows.symm, hreads'.entry_eq]

theorem next_end (hentry : it.entry = none) : it.next txn = .error .hardAssert := by
  unfold Iterator.next
  rw [entry_eq_none.mp hentry]
  rfl

/-- A new iterator is at no row. -/
theorem kept_newIterator [Inhabited υ] (txn : LevelDbTransaction υ) : Kept txn txn.newIterator :=
  ⟨le_refl _, fun hvalid => by cases hvalid⟩

end Iterator

/-! ## A transaction with its iterators -/

/-- The calls to a transaction. The iterators are counted as they were made. -/
inductive Call (υ : Type)
  | put (key : Key) (value : υ)
  | delete (key : Key)
  | newIterator
  | seek (i : ℕ) (key : Key)
  | next (i : ℕ)
  deriving DecidableEq

structure Session (υ : Type) where
  txn : LevelDbTransaction υ
  iterators : List (Iterator υ)

namespace Session

/-- A call that fails is no step. -/
def step [Inhabited υ] (s : Session υ) : Call υ → Option (Session υ)
  | .put key value => some { s with txn := s.txn.put key value }
  | .delete key => some { s with txn := s.txn.delete key }
  | .newIterator => some { s with iterators := s.iterators ++ [s.txn.newIterator] }
  | .seek i key => do
    let it ← s.iterators[i]?
    return { s with iterators := s.iterators.set i (it.seek s.txn key) }
  | .next i => do
    let it ← s.iterators[i]?
    match it.next s.txn with
    | .ok it => return { s with iterators := s.iterators.set i it }
    | .error _ => none

end Session

/-- What the transaction is for: a table that changes at once, and readers at its rows. -/
structure Readers (υ : Type) where
  table : Table Key υ
  rows : List (Option (Row υ))

namespace Readers

/-- A reader at no row cannot go on. -/
def step (s : Readers υ) : Call υ → Option (Readers υ)
  | .put key value => some { s with table := s.table.put key value }
  | .delete key => some { s with table := s.table.delete key }
  | .newIterator => some { s with rows := s.rows ++ [none] }
  | .seek i key => do
    let _ ← s.rows[i]?
    return { s with rows := s.rows.set i (s.table.seek key).head? }
  | .next i => do
    let row ← (← s.rows[i]?)
    return { s with rows := s.rows.set i (s.table.rows.filter (above row.1 ·.1)).head? }

end Readers

namespace Session

def view (s : Session υ) : Readers υ := ⟨s.txn.commit, s.iterators.map Iterator.entry⟩

structure Sound (s : Session υ) : Prop where
  wellFormed : s.txn.WellFormed
  kept : ∀ it ∈ s.iterators, it.Kept s.txn

theorem Sound.set {s : Session υ} (h : s.Sound) (i : ℕ) {it : Iterator υ} (hit : it.Kept s.txn) :
    Sound { s with iterators := s.iterators.set i it } := by
  refine ⟨h.wellFormed, fun it' hit' => ?_⟩
  rcases List.mem_or_eq_of_mem_set hit' with hmem | rfl
  · exact h.kept it' hmem
  · exact hit

theorem view_set (s : Session υ) (i : ℕ) (it : Iterator υ) :
    view { s with iterators := s.iterators.set i it } =
      { s.view with rows := s.view.rows.set i it.entry } := by
  unfold view
  rw [List.map_set]

variable [Inhabited υ]

theorem Sound.step {s t : Session υ} {c : Call υ} (h : s.Sound) (ht : s.step c = some t) : t.Sound := by
  cases c with
  | put key value =>
    cases ht
    exact ⟨h.wellFormed.put key value, fun it hit => (h.kept it hit).changed (Nat.lt_succ_self _)⟩
  | delete key =>
    cases ht
    exact ⟨h.wellFormed.delete key, fun it hit => (h.kept it hit).changed (Nat.lt_succ_self _)⟩
  | newIterator =>
    cases ht
    refine ⟨h.wellFormed, fun it hit => ?_⟩
    rcases List.mem_append.mp hit with hit | hit
    · exact h.kept it hit
    · rw [List.mem_singleton.mp hit]
      exact Iterator.kept_newIterator s.txn
  | seek i key =>
    cases hit : s.iterators[i]? with
    | none => simp [Session.step, hit] at ht
    | some it =>
      simp only [Session.step, hit, Option.bind_eq_bind, Option.bind_some, Option.pure_def,
        Option.some.injEq] at ht
      subst ht
      exact h.set i (Iterator.reads_seek s.txn it key).kept
  | next i =>
    cases hit : s.iterators[i]? with
    | none => simp [Session.step, hit] at ht
    | some it =>
      cases hentry : it.entry with
      | none => simp [Session.step, hit, Iterator.next_end hentry] at ht
      | some row =>
        have hkept := h.kept it (List.mem_of_getElem? hit)
        obtain ⟨it', hnext, hkept', -⟩ := hkept.next hentry
        simp only [Session.step, hit, hnext, Option.bind_eq_bind, Option.bind_some, Option.pure_def,
          Option.some.injEq] at ht
        subst ht
        exact h.set i hkept'

/-- Each call does to the committed table and to the rows of the iterators what it says. -/
theorem Sound.step_view {s : Session υ} (h : s.Sound) (c : Call υ) :
    (s.step c).map view = s.view.step c := by
  have hrows : ∀ i : ℕ, s.view.rows[i]? = s.iterators[i]?.map Iterator.entry :=
    fun i => List.getElem?_map
  cases c with
  | put key value =>
    simp only [Session.step, Readers.step, view, Option.map_some, LevelDbTransaction.commit_put]
  | delete key =>
    simp only [Session.step, Readers.step, view, Option.map_some, LevelDbTransaction.commit_delete]
  | newIterator =>
    simp only [Session.step, Readers.step, view, Option.map_some, List.map_append, List.map_cons,
      List.map_nil]
    rfl
  | seek i key =>
    simp only [Session.step, Readers.step, hrows]
    cases hit : s.iterators[i]? with
    | none => rfl
    | some it =>
      simp only [Option.bind_eq_bind, Option.bind_some, Option.pure_def, Option.map_some, view_set,
        (Iterator.reads_seek s.txn it key).entry_eq]
      rfl
  | next i =>
    simp only [Session.step, Readers.step, hrows]
    cases hit : s.iterators[i]? with
    | none => rfl
    | some it =>
      cases hentry : it.entry with
      | none => simp [Iterator.next_end hentry, hentry]
      | some row =>
        obtain ⟨it', hnext, -, hentry'⟩ := (h.kept it (List.mem_of_getElem? hit)).next hentry
        simp only [Option.bind_eq_bind, Option.bind_some, Option.pure_def, Option.map_some, hnext, hentry,
          view_set, hentry']
        rfl

end Session

/-- A transaction and its iterators read, after any calls, what the commit would write, and an
iterator goes on exactly when it is at a row. -/
theorem a_transaction_reads_what_it_would_commit [Inhabited υ] (db : Table Key υ) (calls : List (Call υ)) :
    (exec Session.step ⟨.on db, []⟩ calls).map Session.view = exec Readers.step ⟨db, []⟩ calls ∧
      ∀ s ∈ exec Session.step ⟨.on db, []⟩ calls, ∀ key, s.txn.get key = s.txn.commit.get key := by
  have hsound : Session.Sound (⟨.on db, []⟩ : Session υ) :=
    ⟨LevelDbTransaction.wellFormed_on db, fun it hit => absurd hit List.not_mem_nil⟩
  have hkeep : ∀ (s : Session υ) c t, s.Sound → s.step c = some t → t.Sound := fun s c t h ht => h.step ht
  constructor
  · exact exec_map (fun s c h => h.step_view c) hkeep hsound calls
  · intro s hs key
    exact LevelDbTransaction.get_eq (exec_invariant hs (fun _ _ => trivial) hsound
      fun s c t h _ ht => hkeep s c t h ht).wellFormed key

end EasyVerbs.Firestore
