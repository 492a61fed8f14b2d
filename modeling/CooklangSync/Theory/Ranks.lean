import CooklangSync.Theory.Table

/-!
# Ranks — the rows of a scope as a table of their own

A table that is shared between scopes numbers the rows of all of them.  Counted within one scope
the ids are 1, 2, 3 and so on, in the same order.  The table that has the rows of the scope only,
under these ranks, grows as the shared one does, and its queries have the same answers.
-/

namespace CooklangSync.Theory

namespace Table

variable {Row : Type} {id : Row → Int}

/-! ## 1. Ranks -/

section Rank

variable (t : Table Row id) (scope : Row → Bool)

/-- The number of rows of the scope up to an id. -/
def rank (j : Int) : Int := (t.rows.countP fun r ↦ scope r && decide (id r ≤ j) : Nat)

variable (id) in
theorem countP_le_countP {j j' : Int} (h : j ≤ j') (rows : List Row) :
    rows.countP (fun r ↦ scope r && decide (id r ≤ j)) ≤
      rows.countP (fun r ↦ scope r && decide (id r ≤ j')) := by
  refine List.countP_mono_left fun r _ hr ↦ ?_
  simp only [Bool.and_eq_true, decide_eq_true_eq] at hr ⊢
  exact ⟨hr.1, Int.le_trans hr.2 h⟩

variable {t scope}

theorem rank_le_rank {j j' : Int} (h : j ≤ j') : t.rank scope j ≤ t.rank scope j' :=
  Int.ofNat_le.mpr (countP_le_countP id scope h t.rows)

theorem rank_lt_rank {r : Row} (hr : r ∈ t.rows) (hscope : scope r = true) {j : Int}
    (h : j < id r) : t.rank scope j < t.rank scope (id r) := by
  obtain ⟨older, newer, hsplit⟩ := List.append_of_mem hr
  -- the row itself is counted only up to its own id
  have hout : (scope r && decide (id r ≤ j)) = false := by
    rw [hscope, Bool.true_and, decide_eq_false_iff_not]
    omega
  have hin : (scope r && decide (id r ≤ id r)) = true := by simp [hscope]
  have holder := countP_le_countP id scope (Int.le_of_lt h) older
  have hnewer := countP_le_countP id scope (Int.le_of_lt h) newer
  unfold rank
  rw [hsplit]
  simp only [List.countP_append, List.countP_cons, hout, hin, Bool.false_eq_true, if_false, if_true]
  omega

/-- The ranks of the rows of the scope are in the order of their ids. -/
theorem rank_lt_rank_iff {r : Row} (hr : r ∈ t.rows) (hscope : scope r = true) (j : Int) :
    t.rank scope j < t.rank scope (id r) ↔ j < id r := by
  constructor
  · intro h
    by_contra hle
    have hmono : t.rank scope (id r) ≤ t.rank scope j := rank_le_rank (Int.not_lt.mp hle)
    omega
  · exact rank_lt_rank hr hscope

theorem eq_of_rank_eq {r s : Row} (hr : r ∈ t.rows) (hs : s ∈ t.rows) (hscope : scope r = true)
    (hscope' : scope s = true) (h : t.rank scope (id r) = t.rank scope (id s)) : r = s := by
  have hrs := rank_lt_rank_iff hs hscope' (id r)
  have hsr := rank_lt_rank_iff hr hscope (id s)
  exact t.eq_of_id_eq hr hs (by omega)

theorem rank_insert (row : Int → Row) (hrow : ∀ i, id (row i) = i) (j : Int) :
    (t.insert row hrow).rank scope j =
      t.rank scope j + if scope (row t.nextId) = true ∧ t.nextId ≤ j then 1 else 0 := by
  unfold rank
  rw [rows_insert, List.countP_append, List.countP_singleton, hrow]
  by_cases hin : scope (row t.nextId) = true ∧ t.nextId ≤ j
  · rw [if_pos hin, if_pos (by simpa using hin)]
    rfl
  · rw [if_neg hin, if_neg (by simpa using hin)]
    rfl

/-- A row keeps its rank when rows are appended. -/
theorem rank_of_prefix {t' : Table Row id} (hgrown : t.rows <+: t'.rows) {r : Row}
    (hr : r ∈ t.rows) : t'.rank scope (id r) = t.rank scope (id r) := by
  obtain ⟨more, hmore⟩ := hgrown
  have hnew : more.countP (fun s ↦ scope s && decide (id s ≤ id r)) = 0 := by
    rw [List.countP_eq_zero]
    intro s hs
    have hinc := t'.increasing
    rw [← hmore] at hinc
    have hlt := (List.pairwise_append.mp hinc).2.2 r hr s hs
    simp only [Bool.and_eq_true, decide_eq_true_eq]
    omega
  unfold rank
  rw [← hmore, List.countP_append, hnew, Nat.add_zero]

theorem rank_insert_of_mem {r : Row} (hr : r ∈ t.rows) (row : Int → Row)
    (hrow : ∀ i, id (row i) = i) :
    (t.insert row hrow).rank scope (id r) = t.rank scope (id r) :=
  rank_of_prefix (List.prefix_append _ _) hr

/-- From the last row of the scope on, the rank is the number of its rows. -/
theorem rank_eq_length {j : Int} (h : ∀ r ∈ t.rows, scope r = true → id r ≤ j) :
    t.rank scope j = (t.rows.filter scope).length := by
  unfold rank
  rw [← List.countP_eq_length_filter]
  congr 1
  refine List.countP_congr fun r hr ↦ ?_
  simp only [Bool.and_eq_true, decide_eq_true_eq]
  exact ⟨fun hboth ↦ hboth.1, fun hscope ↦ ⟨hscope, h r hr hscope⟩⟩

variable (t scope) in
/-- The id of the row of the scope that has the rank. -/
def idAt (k : Int) : Int :=
  ((t.rows.find? fun r ↦ scope r && t.rank scope (id r) == k).map id).getD 0

theorem idAt_rank {r : Row} (hr : r ∈ t.rows) (hscope : scope r = true) :
    t.idAt scope (t.rank scope (id r)) = id r := by
  unfold idAt
  cases hfind : t.rows.find? fun s ↦ scope s && t.rank scope (id s) == t.rank scope (id r) with
  | none =>
    have hnone := List.find?_eq_none.mp hfind r hr
    simp [hscope] at hnone
  | some s =>
    have hs := List.find?_some hfind
    simp only [Bool.and_eq_true, beq_iff_eq] at hs
    rw [eq_of_rank_eq (List.mem_of_find?_eq_some hfind) hr hs.1 hscope hs.2]
    rfl

/-- The row is found again in any table that has more rows. -/
theorem idAt_rank_of_prefix {t' : Table Row id} (hgrown : t.rows <+: t'.rows) {r : Row}
    (hr : r ∈ t.rows) (hscope : scope r = true) :
    t'.idAt scope (t.rank scope (id r)) = id r := by
  rw [← rank_of_prefix hgrown hr]
  exact idAt_rank (hgrown.subset hr) hscope

end Rank

/-! ## 2. The table of a scope -/

theorem eq_of_rows_eq {t t' : Table Row id} (h : t.rows = t'.rows) : t = t' := by
  cases t
  cases t'
  cases h
  rfl

section Restrict

variable (scope : Row → Bool) (setId : Int → Row → Row) (hid : ∀ i r, id (setId i r) = i)

/-- A row under its rank. -/
def ranked (t : Table Row id) (r : Row) : Row := setId (t.rank scope (id r)) r

/-- The rows of a scope under their ranks. -/
def restrict (t : Table Row id) : Table Row id where
  rows := (t.rows.filter scope).map (t.ranked scope setId)
  increasing := by
    rw [List.pairwise_map]
    refine List.Pairwise.imp_of_mem ?_ (t.increasing.filter scope)
    intro r s _ hs hlt
    rw [List.mem_filter] at hs
    rw [ranked, ranked, hid, hid]
    exact rank_lt_rank hs.1 hs.2 hlt

@[simp] theorem rows_restrict (t : Table Row id) :
    (t.restrict scope setId hid).rows = (t.rows.filter scope).map (t.ranked scope setId) := rfl

variable {scope setId} {t : Table Row id}

include hid in
theorem ranked_injective {r s : Row} (hr : r ∈ t.rows) (hs : s ∈ t.rows) (hscope : scope r = true)
    (hscope' : scope s = true) (h : t.ranked scope setId r = t.ranked scope setId s) : r = s := by
  have hids := congrArg id h
  rw [ranked, ranked, hid, hid] at hids
  exact eq_of_rank_eq hr hs hscope hscope' hids

theorem nextId_restrict :
    (t.restrict scope setId hid).nextId = (t.rows.filter scope).length + 1 := by
  unfold nextId restrict
  rw [List.getLast?_map]
  cases hlast : (t.rows.filter scope).getLast? with
  | none =>
    rw [List.getLast?_eq_none_iff.mp hlast]
    rfl
  | some s =>
    -- the last row of the scope has the greatest id in it
    have hrank : t.rank scope (id s) = (t.rows.filter scope).length := by
      let own : Table Row id := ⟨t.rows.filter scope, t.increasing.filter scope⟩
      refine rank_eq_length fun r hr hscope ↦ ?_
      have hmem : r ∈ own.rows := List.mem_filter.mpr ⟨hr, hscope⟩
      exact own.le_of_mem_getLast hmem hlast
    change id (t.ranked scope setId s) + 1 = _
    rw [ranked, hid, hrank]

omit hid in
theorem map_ranked_insert (row : Int → Row) (hrow : ∀ i, id (row i) = i) :
    (t.rows.filter scope).map ((t.insert row hrow).ranked scope setId) =
      (t.rows.filter scope).map (t.ranked scope setId) := by
  refine List.map_congr_left fun r hr ↦ ?_
  rw [ranked, ranked, rank_insert_of_mem (List.mem_filter.mp hr).1]

/-- A row of another scope is not seen. -/
theorem restrict_insert_of_not_scope (row : Int → Row) (hrow : ∀ i, id (row i) = i)
    (h : scope (row t.nextId) = false) :
    (t.insert row hrow).restrict scope setId hid = t.restrict scope setId hid := by
  apply eq_of_rows_eq
  rw [rows_restrict, rows_restrict, rows_insert, List.filter_append, List.filter_singleton, h]
  change List.map _ (_ ++ []) = _
  rw [List.append_nil, map_ranked_insert]

theorem rank_insert_nextId (row : Int → Row) (hrow : ∀ i, id (row i) = i)
    (h : scope (row t.nextId) = true) :
    (t.insert row hrow).rank scope t.nextId = (t.restrict scope setId hid).nextId := by
  have hall : t.rank scope t.nextId = (t.rows.filter scope).length :=
    rank_eq_length fun r hr _ ↦ Int.le_of_lt (t.lt_nextId hr)
  rw [rank_insert, if_pos ⟨h, Int.le_refl _⟩, hall, nextId_restrict]

/-- A row of the scope is inserted under the next rank. -/
theorem restrict_insert_of_scope (row : Int → Row) (hrow : ∀ i, id (row i) = i)
    (hset : ∀ i j, setId i (row j) = row i) (h : scope (row t.nextId) = true) :
    (t.insert row hrow).restrict scope setId hid = (t.restrict scope setId hid).insert row hrow := by
  have hnew : (t.insert row hrow).ranked scope setId (row t.nextId) =
      row (t.restrict scope setId hid).nextId := by
    rw [ranked, hset, hrow, rank_insert_nextId hid row hrow h]
  apply eq_of_rows_eq
  rw [rows_insert, rows_restrict, rows_insert, List.filter_append, List.filter_singleton, h]
  change List.map _ (_ ++ [row t.nextId]) = _
  rw [List.map_append, map_ranked_insert, List.map_singleton, hnew, rows_restrict]

/-! ## 3. Queries -/

/-- What is found last among the rows of the scope. -/
theorem lastOf_restrict {p : Row → Bool} (hp : ∀ i r, p (setId i r) = p r)
    (hscope : ∀ r, p r = true → scope r = true) :
    (t.restrict scope setId hid).lastOf p = (t.lastOf p).map (t.ranked scope setId) := by
  have hcomp : p ∘ t.ranked scope setId = p := funext fun r ↦ hp _ r
  rw [lastOf, rows_restrict, ← List.map_reverse, List.find?_map, hcomp, ← List.filter_reverse,
    List.find?_filter, lastOf]
  congr 2
  funext r
  cases hr : p r with
  | false => simp
  | true => simp [hscope r hr]

variable {κ : Type} [DecidableEq κ] {key : Row → κ}

theorem latestOf_restrict (hsetScope : ∀ i r, scope (setId i r) = scope r)
    (hsetKey : ∀ i r, key (setId i r) = key r) (k : κ) :
    (t.restrict scope setId hid).latestOf scope key k =
      (t.latestOf scope key k).map (t.ranked scope setId) := by
  refine lastOf_restrict hid (fun i r ↦ ?_) (fun r hr ↦ ?_)
  · rw [hsetScope, hsetKey]
  · exact (Bool.and_eq_true _ _ ▸ hr).1

/-- The latest rows of the scope. -/
theorem latest_restrict (hsetScope : ∀ i r, scope (setId i r) = scope r)
    (hsetKey : ∀ i r, key (setId i r) = key r) :
    (t.restrict scope setId hid).latest scope key =
      (t.latest scope key).map (t.ranked scope setId) := by
  have hfilter : t.latest scope key = (t.rows.filter scope).filter (t.isMaxId scope key) := by
    rw [List.filter_filter, latest]
    refine List.filter_congr fun r _ ↦ ?_
    rw [isMaxId, Bool.and_right_comm, Bool.and_self]
  rw [hfilter, latest, rows_restrict, List.filter_map]
  congr 1
  refine List.filter_congr fun r hr ↦ ?_
  -- a row is the latest of its key when it is what is found last under it, in both tables
  have hmem := List.mem_filter.mp hr
  have hrestrict := (t.restrict scope setId hid).mem_latest_iff scope key (t.ranked scope setId r)
  have hshared := t.mem_latest_iff scope key r
  rw [latest, List.mem_filter, rows_restrict,
    show key (t.ranked scope setId r) = key r from hsetKey _ r, latestOf_restrict hid hsetScope hsetKey,
    Option.map_eq_some_iff] at hrestrict
  rw [latest, List.mem_filter] at hshared
  have hsame : (∃ s, t.latestOf scope key (key r) = some s ∧
      t.ranked scope setId s = t.ranked scope setId r) ↔ t.latestOf scope key (key r) = some r := by
    constructor
    · rintro ⟨s, hs, heq⟩
      have hlast := (t.lastOf_eq_some_iff _ s).mp hs
      rw [hs, ranked_injective hid hlast.1 hmem.1 (t.latestOf_key scope key hs).1 hmem.2 heq]
    · exact fun hr ↦ ⟨r, hr, rfl⟩
  rw [Bool.eq_iff_iff]
  have hin : t.ranked scope setId r ∈ (t.rows.filter scope).map (t.ranked scope setId) :=
    List.mem_map_of_mem hr
  exact (and_iff_right hin).symm.trans
    (hrestrict.trans (hsame.trans (hshared.symm.trans (and_iff_right hmem.1))))

/-- The latest rows of the scope that are newer than a row. -/
theorem latest_restrict_newer (hsetScope : ∀ i r, scope (setId i r) = scope r)
    (hsetKey : ∀ i r, key (setId i r) = key r) (j : Int) :
    ((t.restrict scope setId hid).latest scope key).filter (t.rank scope j < id ·) =
      ((t.latest scope key).filter (j < id ·)).map (t.ranked scope setId) := by
  rw [latest_restrict hid hsetScope hsetKey, List.filter_map]
  congr 1
  refine List.filter_congr fun r hr ↦ ?_
  have hlatest := (t.mem_latest_iff scope key r).mp hr
  have hmem := ((t.lastOf_eq_some_iff _ r).mp hlatest).1
  have hscope := (t.latestOf_key scope key hlatest).1
  rw [Function.comp_apply, ranked, hid]
  exact decide_eq_decide.mpr (rank_lt_rank_iff hmem hscope j)

end Restrict

end Table

end CooklangSync.Theory
