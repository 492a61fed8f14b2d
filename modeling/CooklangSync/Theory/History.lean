import CooklangSync.Theory.Table

/-!
# History — a table and a later version of it

A table that only grows extends its earlier versions.  Whoever knows an earlier version and the
latest rows past some id that it covers, knows the later version (`Extends.latestOf_eq`).
-/

namespace CooklangSync.Theory

namespace Table

variable {Row : Type} {id : Row → Int}

/-! ## 1. Extension -/

/-- Rows have been inserted into `t`. -/
def Extends (t' t : Table Row id) : Prop := t.rows <+: t'.rows

theorem extends_insert (t : Table Row id) (row : Int → Row) (hrow : ∀ i, id (row i) = i) :
    (t.insert row hrow).Extends t := List.prefix_append _ _

theorem Extends.refl (t : Table Row id) : t.Extends t := List.prefix_refl _

theorem Extends.trans {t t' t'' : Table Row id} (h : t''.Extends t') (h' : t'.Extends t) :
    t''.Extends t := List.IsPrefix.trans h' h

theorem Extends.mem {t t' : Table Row id} (h : t'.Extends t) {r : Row} (hr : r ∈ t.rows) :
    r ∈ t'.rows := h.subset hr

/-- The rows that came later have greater ids. -/
theorem Extends.mem_of_le {t t' : Table Row id} (h : t'.Extends t) {r s : Row} (hr : r ∈ t.rows)
    (hs : s ∈ t'.rows) (hle : id s ≤ id r) : s ∈ t.rows := by
  obtain ⟨more, hmore⟩ := h
  have hinc := t'.increasing
  rw [← hmore] at hs hinc
  rcases List.mem_append.mp hs with hs | hs
  · exact hs
  · have hlt := (List.pairwise_append.mp hinc).2.2 r hr s hs
    omega

/-! ## 2. The greatest id -/

def greatestId (t : Table Row id) (p : Row → Bool) : Option Int := (t.lastOf p).map id

theorem greatestId_eq_some_iff (t : Table Row id) (p : Row → Bool) (m : Int) :
    t.greatestId p = some m ↔
      (∃ r ∈ t.rows, p r = true ∧ id r = m) ∧ ∀ s ∈ t.rows, p s = true → id s ≤ m := by
  rw [greatestId, Option.map_eq_some_iff]
  simp only [lastOf_eq_some_iff]
  constructor
  · rintro ⟨r, ⟨hr, hp, hmax⟩, rfl⟩
    exact ⟨⟨r, hr, hp, rfl⟩, hmax⟩
  · rintro ⟨⟨r, hr, hp, rfl⟩, hmax⟩
    exact ⟨r, ⟨hr, hp, hmax⟩, rfl⟩

theorem greatestId_eq_none_iff (t : Table Row id) (p : Row → Bool) :
    t.greatestId p = none ↔ ∀ r ∈ t.rows, p r = false := by
  rw [greatestId, Option.map_eq_none_iff, lastOf_eq_none_iff]

/-- An id up to the greatest of an earlier version belongs to that version. -/
theorem Extends.mem_of_le_greatestId {t t' : Table Row id} (h : t'.Extends t) {p : Row → Bool}
    (hpos : ∀ r ∈ t'.rows, 0 < id r) {s : Row} (hs : s ∈ t'.rows)
    (hle : id s ≤ (t.greatestId p).getD 0) : s ∈ t.rows := by
  cases hm : t.greatestId p with
  | none =>
    rw [hm] at hle
    have hlt := hpos s hs
    change id s ≤ 0 at hle
    omega
  | some m =>
    obtain ⟨⟨r, hr, -, rfl⟩, -⟩ := (t.greatestId_eq_some_iff p m).mp hm
    rw [hm] at hle
    exact h.mem_of_le hr hs hle

/-! ## 3. The latest rows past an id -/

variable {κ : Type} [DecidableEq κ] (scope : Row → Bool) (key : Row → κ)

/-- The latest rows of the keys, as far as they lie past an id. -/
def latestPast (t : Table Row id) (j : Int) : List Row :=
  (t.latest scope key).filter (j < id ·)

theorem mem_latestPast_iff (t : Table Row id) (j : Int) (r : Row) :
    r ∈ t.latestPast scope key j ↔ t.latestOf scope key (key r) = some r ∧ j < id r := by
  rw [latestPast, List.mem_filter, mem_latest_iff, decide_eq_true_eq]

variable {scope key}

/-- A key whose latest row does not lie past an id that the earlier version covers has that row there
already. -/
theorem Extends.latestOf_eq {t t' : Table Row id} (h : t'.Extends t)
    (hpos : ∀ r ∈ t'.rows, 0 < id r) {j : Int} (hj : j ≤ (t.greatestId scope).getD 0) {k : κ}
    (hk : ∀ r ∈ t'.latestPast scope key j, key r ≠ k) :
    t'.latestOf scope key k = t.latestOf scope key k := by
  cases hlatest : t'.latestOf scope key k with
  | none =>
    symm
    rw [latestOf, lastOf_eq_none_iff] at hlatest ⊢
    exact fun r hr ↦ hlatest r (h.mem hr)
  | some r =>
    have hkey := t'.latestOf_key scope key hlatest
    obtain ⟨hr, hp, hmax⟩ := (t'.lastOf_eq_some_iff _ r).mp hlatest
    have hle : id r ≤ j := by
      by_contra hlt
      apply hk r _ hkey.2
      rw [mem_latestPast_iff, hkey.2]
      exact ⟨hlatest, by omega⟩
    have hold := h.mem_of_le_greatestId hpos hr (Int.le_trans hle hj)
    symm
    rw [latestOf, lastOf_eq_some_iff]
    exact ⟨hold, hp, fun s hs hps ↦ hmax s (h.mem hs) hps⟩

/-- No latest row is newer when the greatest id is the same. -/
theorem Extends.latestOf_eq_of_greatestId {t t' : Table Row id} (h : t'.Extends t)
    (hpos : ∀ r ∈ t'.rows, 0 < id r) (hsame : t'.greatestId scope = t.greatestId scope) (k : κ) :
    t'.latestOf scope key k = t.latestOf scope key k := by
  refine h.latestOf_eq hpos (Int.le_refl _) fun r hr _ ↦ ?_
  obtain ⟨hlatest, hlt⟩ := (mem_latestPast_iff scope key t' _ r).mp hr
  have hscope := (t'.latestOf_key scope key hlatest).1
  have hmem := ((t'.lastOf_eq_some_iff _ r).mp hlatest).1
  rw [← hsame] at hlt
  cases hm : t'.greatestId scope with
  | none =>
    rw [(t'.greatestId_eq_none_iff scope).mp hm r hmem] at hscope
    cases hscope
  | some m =>
    have hle := ((t'.greatestId_eq_some_iff scope m).mp hm).2 r hmem hscope
    rw [hm, Option.getD_some] at hlt
    omega

/-- The greatest id of the later version lies past the id, or it is the one of the earlier
version. -/
theorem Extends.greatestId_cases {t t' : Table Row id} (h : t'.Extends t)
    (hpos : ∀ r ∈ t'.rows, 0 < id r) {j : Int} (hj : j ≤ (t.greatestId scope).getD 0) :
    (∃ r ∈ t'.latestPast scope key j, t'.greatestId scope = some (id r)) ∨
      t'.greatestId scope = t.greatestId scope := by
  cases hm : t'.greatestId scope with
  | none =>
    right
    symm
    rw [greatestId_eq_none_iff] at hm ⊢
    exact fun r hr ↦ hm r (h.mem hr)
  | some m =>
    obtain ⟨⟨r, hr, hp, rfl⟩, hmax⟩ := (t'.greatestId_eq_some_iff scope m).mp hm
    by_cases hlt : j < id r
    · refine .inl ⟨r, ?_, rfl⟩
      rw [mem_latestPast_iff, latestOf, lastOf_eq_some_iff]
      refine ⟨⟨hr, by simp [hp], fun s hs hps ↦ ?_⟩, hlt⟩
      exact hmax s hs (by simp only [Bool.and_eq_true] at hps; exact hps.1)
    · right
      have hle : id r ≤ (t.greatestId scope).getD 0 := by omega
      have hold := h.mem_of_le_greatestId hpos hr hle
      symm
      rw [greatestId_eq_some_iff]
      exact ⟨⟨r, hold, hp, rfl⟩, fun s hs hps ↦ hmax s (h.mem hs) hps⟩

/-! ## 4. The part up to an id -/

/-- The rows up to an id. -/
def upTo (t : Table Row id) (j : Int) : Table Row id where
  rows := t.rows.filter (id · ≤ j)
  increasing := t.increasing.filter _

/-- The latest rows of an earlier version are those of the part up to its greatest id. -/
theorem Extends.latestOf_upTo {t t' : Table Row id} (h : t'.Extends t)
    (hpos : ∀ r ∈ t'.rows, 0 < id r) (k : κ) :
    (t'.upTo ((t.greatestId scope).getD 0)).latestOf scope key k = t.latestOf scope key k := by
  have hmem : ∀ r, scope r = true →
      (r ∈ (t'.upTo ((t.greatestId scope).getD 0)).rows ↔ r ∈ t.rows) := by
    intro r hscope
    rw [upTo, List.mem_filter, decide_eq_true_eq]
    refine ⟨fun hr ↦ h.mem_of_le_greatestId hpos hr.1 hr.2, fun hr ↦ ⟨h.mem hr, ?_⟩⟩
    cases hm : t.greatestId scope with
    | none =>
      rw [(t.greatestId_eq_none_iff scope).mp hm r hr] at hscope
      cases hscope
    | some m => exact ((t.greatestId_eq_some_iff scope m).mp hm).2 r hr hscope
  apply Option.ext
  intro r
  rw [latestOf, latestOf, lastOf_eq_some_iff, lastOf_eq_some_iff]
  have hscope : ∀ s : Row, (scope s && key s == k) = true → scope s = true :=
    fun s hs ↦ (Bool.and_eq_true_iff.mp hs).1
  constructor
  · rintro ⟨hr, hp, hmax⟩
    refine ⟨(hmem r (hscope r hp)).mp hr, hp, fun s hs hps ↦ ?_⟩
    exact hmax s ((hmem s (hscope s hps)).mpr hs) hps
  · rintro ⟨hr, hp, hmax⟩
    refine ⟨(hmem r (hscope r hp)).mpr hr, hp, fun s hs hps ↦ ?_⟩
    exact hmax s ((hmem s (hscope s hps)).mp hs) hps

end Table

end CooklangSync.Theory
