import Mathlib.Data.List.Nodup

/-!
# Table — rows under increasing ids, and the latest row of every key

A table whose primary key is assigned automatically and whose rows are never removed: an insertion
appends a row under a fresh greater id, and an update keeps the id.  The query that groups rows by
a key and keeps the one with the greatest id of each group is described by a lookup: `latestOf k`
is the row inserted last under the key `k`.
-/

namespace CooklangSync.Theory

/-- Rows in the order of their insertion, which is the order of their ids. -/
structure Table (Row : Type) (id : Row → Int) where
  rows : List Row
  increasing : rows.Pairwise fun r s ↦ id r < id s

namespace Table

variable {Row : Type} {id : Row → Int}

/-! ## 1. Insertion and update -/

def empty : Table Row id := ⟨[], List.Pairwise.nil⟩

/-- One more than the greatest id, or 1 in an empty table. -/
def nextId (t : Table Row id) : Int :=
  match t.rows.getLast? with
  | none => 1
  | some r => id r + 1

theorem le_of_mem_getLast (t : Table Row id) {r s : Row} (hr : r ∈ t.rows)
    (hs : t.rows.getLast? = some s) : id r ≤ id s := by
  obtain ⟨init, hinit⟩ := List.getLast?_eq_some_iff.mp hs
  have hinc := t.increasing
  rw [hinit] at hr hinc
  rcases List.mem_append.mp hr with hr | hr
  · have hlt := (List.pairwise_append.mp hinc).2.2 r hr s (by simp)
    omega
  · obtain rfl := List.mem_singleton.mp hr
    omega

theorem lt_nextId (t : Table Row id) {r : Row} (hr : r ∈ t.rows) : id r < t.nextId := by
  unfold nextId
  cases hs : t.rows.getLast? with
  | none => rw [List.getLast?_eq_none_iff.mp hs] at hr; simp at hr
  | some s =>
    have hle := t.le_of_mem_getLast hr hs
    show id r < id s + 1
    omega

/-- Appends the row that `row` makes of the next id. -/
def insert (t : Table Row id) (row : Int → Row) (hrow : ∀ i, id (row i) = i) : Table Row id where
  rows := t.rows ++ [row t.nextId]
  increasing := by
    rw [List.pairwise_append]
    refine ⟨t.increasing, List.pairwise_singleton _ _, ?_⟩
    intro r hr s hs
    rw [List.mem_singleton.mp hs, hrow]
    exact t.lt_nextId hr

/-- Changes rows without changing their ids. -/
def update (t : Table Row id) (f : Row → Row) (hf : ∀ r, id (f r) = id r) : Table Row id where
  rows := t.rows.map f
  increasing := by
    rw [List.pairwise_map]
    exact t.increasing.imp fun h ↦ by rw [hf, hf]; exact h

@[simp] theorem rows_empty : (empty : Table Row id).rows = [] := rfl

@[simp] theorem rows_insert (t : Table Row id) (row : Int → Row) (hrow : ∀ i, id (row i) = i) :
    (t.insert row hrow).rows = t.rows ++ [row t.nextId] := rfl

@[simp] theorem rows_update (t : Table Row id) (f : Row → Row) (hf : ∀ r, id (f r) = id r) :
    (t.update f hf).rows = t.rows.map f := rfl

theorem nextId_insert (t : Table Row id) (row : Int → Row) (hrow : ∀ i, id (row i) = i) :
    (t.insert row hrow).nextId = t.nextId + 1 := by
  rw [nextId, rows_insert, List.getLast?_concat]
  show id (row t.nextId) + 1 = _
  rw [hrow]

theorem nextId_pos (t : Table Row id) (h : ∀ r ∈ t.rows, 0 < id r) : 0 < t.nextId := by
  unfold nextId
  cases hs : t.rows.getLast? with
  | none => exact Int.one_pos
  | some s =>
    have hpos := h s (List.mem_of_getLast? hs)
    show 0 < id s + 1
    omega

theorem nodup_ids (t : Table Row id) : (t.rows.map id).Nodup := by
  rw [List.Nodup, List.pairwise_map]
  exact t.increasing.imp fun hlt ↦ by omega

/-- The id names the row. -/
theorem eq_of_id_eq (t : Table Row id) {r s : Row} (hr : r ∈ t.rows) (hs : s ∈ t.rows)
    (h : id r = id s) : r = s :=
  List.inj_on_of_nodup_map t.nodup_ids hr hs h

/-! ## 2. The latest row of a key -/

/-- The row inserted last among those that satisfy `p`. -/
def lastOf (t : Table Row id) (p : Row → Bool) : Option Row := t.rows.reverse.find? p

theorem lastOf_insert (t : Table Row id) (row : Int → Row) (hrow : ∀ i, id (row i) = i)
    (p : Row → Bool) :
    (t.insert row hrow).lastOf p = if p (row t.nextId) then some (row t.nextId) else t.lastOf p := by
  unfold lastOf
  rw [rows_insert, List.reverse_append]
  change List.find? p (row t.nextId :: t.rows.reverse) = _
  rw [List.find?_cons]
  cases p (row t.nextId) <;> rfl

theorem lastOf_eq_none_iff (t : Table Row id) (p : Row → Bool) :
    t.lastOf p = none ↔ ∀ r ∈ t.rows, p r = false := by
  simp [lastOf, List.find?_eq_none]

/-- What is found last has the greatest id. -/
theorem lastOf_eq_some_iff (t : Table Row id) (p : Row → Bool) (r : Row) :
    t.lastOf p = some r ↔ r ∈ t.rows ∧ p r = true ∧ ∀ s ∈ t.rows, p s = true → id s ≤ id r := by
  have hgreatest : ∀ u, t.lastOf p = some u → ∀ s ∈ t.rows, p s = true → id s ≤ id u := by
    intro u hu s hs hps
    unfold lastOf at hu
    obtain ⟨-, newer, older, hsplit, hnewer⟩ := List.find?_eq_some_iff_append.mp hu
    have hdec : (newer ++ u :: older).Pairwise fun a b ↦ id b < id a := by
      rw [← hsplit, List.pairwise_reverse]
      exact t.increasing
    have hmem : s ∈ newer ++ u :: older := by rw [← hsplit]; exact List.mem_reverse.mpr hs
    rcases List.mem_append.mp hmem with hs | hs
    · have hno := hnewer s hs
      rw [hps] at hno
      exact absurd hno (by decide)
    · rcases List.mem_cons.mp hs with rfl | hs
      · omega
      · have hlt := List.rel_of_pairwise_cons (List.pairwise_append.mp hdec).2.1 hs
        omega
  constructor
  · intro h
    have hmem := List.mem_of_find?_eq_some h
    exact ⟨List.mem_reverse.mp hmem, List.find?_some h, hgreatest r h⟩
  · rintro ⟨hr, hpr, hmax⟩
    cases hu : t.lastOf p with
    | none => rw [(t.lastOf_eq_none_iff p).mp hu r hr] at hpr; cases hpr
    | some u =>
      have hmem := List.mem_reverse.mp (List.mem_of_find?_eq_some hu)
      have hle := hgreatest u hu r hr hpr
      have hge := hmax u hmem (List.find?_some hu)
      rw [t.eq_of_id_eq hmem hr (by omega)]

variable {κ : Type} [DecidableEq κ] (scope : Row → Bool) (key : Row → κ)

/-- `SELECT max(id) … WHERE scope GROUP BY key`, as a test on a row. -/
def isMaxId (t : Table Row id) (r : Row) : Bool :=
  scope r && t.rows.all fun s ↦ !(scope s && key s == key r) || decide (id s ≤ id r)

/-- The rows that are the greatest of their group, in the order of their ids. -/
def latest (t : Table Row id) : List Row := t.rows.filter (t.isMaxId scope key)

/-- The row inserted last under a key. -/
def latestOf (t : Table Row id) (k : κ) : Option Row :=
  t.lastOf fun r ↦ scope r && key r == k

theorem mem_latest_iff (t : Table Row id) (r : Row) :
    r ∈ t.latest scope key ↔ t.latestOf scope key (key r) = some r := by
  rw [latest, List.mem_filter, latestOf, lastOf_eq_some_iff]
  simp only [isMaxId, Bool.and_eq_true, List.all_eq_true, Bool.or_eq_true, Bool.not_eq_true',
    Bool.and_eq_false_iff, decide_eq_true_eq, beq_iff_eq, beq_eq_false_iff_ne]
  constructor
  · rintro ⟨hr, hscope, hmax⟩
    refine ⟨hr, ⟨hscope, trivial⟩, ?_⟩
    rintro s hs ⟨hss, hks⟩
    rcases hmax s hs with (h | h) | h
    · rw [hss] at h; cases h
    · exact absurd hks h
    · exact h
  · rintro ⟨hr, hscope, hmax⟩
    refine ⟨hr, hscope.1, ?_⟩
    intro s hs
    by_cases hss : scope s = true
    · by_cases hks : key s = key r
      · exact .inr (hmax s hs ⟨hss, hks⟩)
      · exact .inl (.inr hks)
    · exact .inl (.inl (by simpa using hss))

theorem latestOf_key (t : Table Row id) {k : κ} {r : Row} (h : t.latestOf scope key k = some r) :
    scope r = true ∧ key r = k := by
  have hp := List.find?_some h
  simpa using hp

/-- Every key has at most one latest row. -/
theorem latest_key_injective (t : Table Row id) {r s : Row} (hr : r ∈ t.latest scope key)
    (hs : s ∈ t.latest scope key) (h : key r = key s) : r = s := by
  rw [mem_latest_iff] at hr hs
  rw [h, hs] at hr
  exact (Option.some.inj hr).symm

/-- An update that keeps scope and key keeps the rows that are the latest of theirs. -/
theorem latest_update (t : Table Row id) (f : Row → Row) (hf : ∀ r, id (f r) = id r)
    (hscope : ∀ r, scope (f r) = scope r) (hkey : ∀ r, key (f r) = key r) :
    (t.update f hf).latest scope key = (t.latest scope key).map f := by
  have hmax : ∀ r, (t.update f hf).isMaxId scope key (f r) = t.isMaxId scope key r := by
    intro r
    simp only [isMaxId, rows_update, List.all_map, Function.comp_def, hscope, hkey, hf]
  rw [latest, rows_update, List.filter_map]
  congr 1
  apply List.filter_congr
  intro r _
  exact hmax r

theorem latestOf_insert (t : Table Row id) (row : Int → Row) (hrow : ∀ i, id (row i) = i) (k : κ) :
    (t.insert row hrow).latestOf scope key k =
      if scope (row t.nextId) = true ∧ key (row t.nextId) = k then some (row t.nextId)
      else t.latestOf scope key k := by
  unfold latestOf
  rw [lastOf_insert]
  simp

end Table

end CooklangSync.Theory
