import CooklangSync.Theory.Table

/-!
# LatestMap — a table as a map from its keys to their latest rows

The rows of a table fall into groups, and in every group a key has at most one latest row.  The map
from groups and keys to these rows says as much as the queries of the table do: an insertion
overwrites one entry, an update changes entries in place, and the latest rows are its values.
-/

namespace CooklangSync.Theory

/-- The latest row of every key in every group, and the id the next row gets. -/
structure LatestMap (Row γ κ : Type) where
  current : γ → κ → Option Row
  next : Int

namespace Table

variable {Row : Type} {id : Row → Int} {κ : Type} [DecidableEq κ] (scope : Row → Bool)
  (key : Row → κ)

/-! ## 1. Updates and the latest rows -/

theorem lastOf_update (t : Table Row id) (f : Row → Row) (hf : ∀ r, id (f r) = id r)
    (p : Row → Bool) : (t.update f hf).lastOf p = (t.lastOf fun r ↦ p (f r)).map f := by
  rw [lastOf, lastOf, rows_update, ← List.map_reverse, List.find?_map]
  rfl

theorem latestOf_update (t : Table Row id) (f : Row → Row) (hf : ∀ r, id (f r) = id r)
    (hscope : ∀ r, scope (f r) = scope r) (hkey : ∀ r, key (f r) = key r) (k : κ) :
    (t.update f hf).latestOf scope key k = (t.latestOf scope key k).map f := by
  rw [latestOf, lastOf_update]
  simp only [hscope, hkey]
  rfl

theorem nextId_update (t : Table Row id) (f : Row → Row) (hf : ∀ r, id (f r) = id r) :
    (t.update f hf).nextId = t.nextId := by
  rw [nextId, nextId, rows_update, List.getLast?_map]
  cases t.rows.getLast? with
  | none => rfl
  | some r =>
    show id (f r) + 1 = id r + 1
    rw [hf]

/-- Rows that were appended come after those that were there. -/
theorem lastOf_append {t t' : Table Row id} {added : List Row} (h : t'.rows = t.rows ++ added)
    (p : Row → Bool) : t'.lastOf p = (added.filter p).getLast?.or (t.lastOf p) := by
  rw [lastOf, h, List.reverse_append, List.find?_append, ← List.head?_filter, List.filter_reverse,
    List.head?_reverse]
  rfl

/-- The latest rows come in the order of their insertion. -/
theorem latest_sublist (t : Table Row id) : (t.latest scope key).Sublist t.rows :=
  List.filter_sublist

theorem nodup_map_latest (t : Table Row id) : ((t.latest scope key).map key).Nodup := by
  have hrows : (t.latest scope key).Nodup := t.nodup_ids.of_map.sublist (t.latest_sublist scope key)
  exact hrows.map_on fun r hr s hs ↦ t.latest_key_injective scope key hr hs

end Table

namespace LatestMap

variable {Row γ κ : Type}

/-! ## 2. The map of a table -/

def empty : LatestMap Row γ κ := ⟨fun _ _ ↦ none, 1⟩

section Operations

variable [DecidableEq γ] [DecidableEq κ] (group : Row → γ) (key : Row → κ)

def insert (M : LatestMap Row γ κ) (row : Int → Row) : LatestMap Row γ κ where
  current g k :=
    if group (row M.next) = g ∧ key (row M.next) = k then some (row M.next) else M.current g k
  next := M.next + 1

def update (M : LatestMap Row γ κ) (f : Row → Row) : LatestMap Row γ κ where
  current g k := (M.current g k).map f
  next := M.next

theorem current_insert_of_ne (M : LatestMap Row γ κ) {row : Int → Row} {g : γ}
    (h : group (row M.next) ≠ g) : (M.insert group key row).current g = M.current g := by
  funext k
  exact if_neg fun heq ↦ h heq.1

variable {id : Row → Int}

/-- The table has the entries of the map as its latest rows. -/
structure Represents (M : LatestMap Row γ κ) (t : Table Row id) : Prop where
  latestOf : ∀ g k, t.latestOf (group · == g) key k = M.current g k
  nextId : t.nextId = M.next

variable {group key}

theorem represents_empty :
    (empty : LatestMap Row γ κ).Represents group key (Table.empty : Table Row id) :=
  ⟨fun _ _ ↦ rfl, rfl⟩

theorem Represents.insert {M : LatestMap Row γ κ} {t : Table Row id} (h : M.Represents group key t)
    (row : Int → Row) (hrow : ∀ i, id (row i) = i) :
    (M.insert group key row).Represents group key (t.insert row hrow) where
  latestOf g k := by
    rw [Table.latestOf_insert, h.latestOf, h.nextId]
    simp only [LatestMap.insert, beq_iff_eq]
  nextId := by rw [Table.nextId_insert, h.nextId, LatestMap.insert]

theorem Represents.update {M : LatestMap Row γ κ} {t : Table Row id} (h : M.Represents group key t)
    (f : Row → Row) (hf : ∀ r, id (f r) = id r) (hgroup : ∀ r, group (f r) = group r)
    (hkey : ∀ r, key (f r) = key r) :
    (M.update f).Represents group key (t.update f hf) where
  latestOf g k := by
    rw [Table.latestOf_update _ _ t f hf (fun r ↦ by rw [hgroup]) hkey, h.latestOf]
    rfl
  nextId := by
    rw [Table.nextId_update, h.nextId]
    rfl

/-! ## 3. Queries -/

variable {M : LatestMap Row γ κ} {t : Table Row id}

theorem Represents.key_eq (h : M.Represents group key t) {g : γ} {k : κ} {r : Row}
    (hr : M.current g k = some r) : group r = g ∧ key r = k := by
  rw [← h.latestOf] at hr
  have hspec := t.latestOf_key _ _ hr
  exact ⟨eq_of_beq hspec.1, hspec.2⟩

theorem Represents.mem_latest_iff (h : M.Represents group key t) (g : γ) (r : Row) :
    r ∈ t.latest (group · == g) key ↔ ∃ k, M.current g k = some r := by
  rw [Table.mem_latest_iff, h.latestOf]
  constructor
  · exact fun hr ↦ ⟨key r, hr⟩
  · rintro ⟨k, hk⟩
    rw [(h.key_eq hk).2]
    exact hk

variable (key) in
/-- The rows are the values of a map that satisfy `p`, each key once. -/
structure Lists (rows : List Row) (entries : κ → Option Row) (p : Row → Bool) : Prop where
  mem_iff : ∀ r, r ∈ rows ↔ (∃ k, entries k = some r) ∧ p r = true
  nodup : (rows.map key).Nodup

theorem Represents.lists (h : M.Represents group key t) (g : γ) (p : Row → Bool) :
    Lists key ((t.latest (group · == g) key).filter p) (M.current g) p where
  mem_iff r := by rw [List.mem_filter, h.mem_latest_iff]
  nodup := (t.nodup_map_latest (group · == g) key).sublist (List.filter_sublist.map _)

variable (id key) in
/-- The rows come in the order of their ids. -/
structure ListsInOrder (rows : List Row) (entries : κ → Option Row) (p : Row → Bool) : Prop
    extends Lists key rows entries p where
  ordered : rows.Pairwise fun r s ↦ id r < id s

theorem Represents.listsInOrder (h : M.Represents group key t) (g : γ) (p : Row → Bool) :
    ListsInOrder key id ((t.latest (group · == g) key).filter p) (M.current g) p where
  toLists := h.lists g p
  ordered := t.increasing.sublist (List.filter_sublist.trans (t.latest_sublist _ _))

/-- Tables with the same entries in a group have the same latest rows there. -/
theorem Represents.latest_congr (h : M.Represents group key t) {M' : LatestMap Row γ κ}
    {t' : Table Row id} (h' : M'.Represents group key t') {g : γ}
    (hsame : M'.current g = M.current g) :
    t'.latest (group · == g) key = t.latest (group · == g) key := by
  have hmem : ∀ r, r ∈ t'.latest (group · == g) key ↔ r ∈ t.latest (group · == g) key := by
    intro r
    rw [h.mem_latest_iff, h'.mem_latest_iff, hsame]
  have hincreasing := fun s : Table Row id ↦ s.increasing.sublist (s.latest_sublist (group · == g) key)
  -- both lists are sorted by ids
  refine List.Perm.eq_of_pairwise ?_ (hincreasing t') (hincreasing t) ?_
  · intro r s _ _ hlt hgt
    omega
  · rw [List.perm_ext_iff_of_nodup]
    · exact hmem
    · exact t'.nodup_ids.of_map.sublist (t'.latest_sublist _ _)
    · exact t.nodup_ids.of_map.sublist (t.latest_sublist _ _)

end Operations

end LatestMap

end CooklangSync.Theory
