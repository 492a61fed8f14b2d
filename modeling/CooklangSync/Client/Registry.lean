import CooklangSync.Client.Models
import CooklangSync.Theory.Table

/-!
# Registry — the client's local database of file records

A row describes one version of a file of a namespace: its size and modification time, or that it is
deleted.  A row without a `jid` is a local change the server has not accepted yet.  The registry
only grows; the row with the greatest id speaks for its path.
-/

namespace CooklangSync.Client

open Theory

/-! ## 1. Operations and queries -/

abbrev Registry := Table FileRecord FileRecord.id

namespace Registry

def create (registry : Registry) (forms : List CreateForm) : Registry :=
  forms.foldl (fun r form ↦ r.insert form.withId form.id_withId) registry

/-- Marks files as deleted, by new rows. -/
def delete (registry : Registry) (forms : List DeleteForm) : Registry :=
  forms.foldl (fun r form ↦ r.insert form.withId form.id_withId) registry

theorem create_singleton (registry : Registry) (form : CreateForm) :
    registry.create [form] = registry.insert form.withId form.id_withId := rfl

theorem delete_singleton (registry : Registry) (form : DeleteForm) :
    registry.delete [form] = registry.insert form.withId form.id_withId := rfl

-- The row is found by its id: it need not be the latest of its path any more.
def FileRecord.setJid (id jid : Int) (r : FileRecord) : FileRecord :=
  if r.id = id then { r with jid := some jid } else r

theorem FileRecord.id_setJid (id jid : Int) (r : FileRecord) :
    (FileRecord.setJid id jid r).id = r.id := by
  unfold FileRecord.setJid
  split <;> rfl

def updateJid (registry : Registry) (record : FileRecord) (jid : Int) : Registry :=
  registry.update (FileRecord.setJid record.id jid) (FileRecord.id_setJid record.id jid)

def nonDeleted (registry : Registry) (namespaceId : Int) : List FileRecord :=
  (registry.latest (·.namespaceId == namespaceId) FileRecord.path).filter (!·.deleted)

/-- Rows without a `jid`, unless a later row of the path supersedes them. -/
def updatedLocally (registry : Registry) (namespaceId : Int) : List FileRecord :=
  (registry.latest (·.namespaceId == namespaceId) FileRecord.path).filter (·.jid.isNone)

def jids (registry : Registry) (namespaceId : Int) : List Int :=
  (registry.rows.filter (·.namespaceId == namespaceId)).filterMap FileRecord.jid

/-- The greatest `jid` of any row, `none` for the `NotFound` of a registry without one. -/
def latestJid (registry : Registry) (namespaceId : Int) : Option Int :=
  (registry.jids namespaceId).max?

/-! ## 2. Inserted rows -/

theorem rows_delete (registry : Registry) (forms : List DeleteForm) :
    ∃ added, (registry.delete forms).rows = registry.rows ++ added ∧
      List.Forall₂ (fun form row ↦ row = form.withId row.id) forms added := by
  induction forms generalizing registry with
  | nil => exact ⟨[], by simp [delete], .nil⟩
  | cons form forms ih =>
    obtain ⟨added, hrows, hadded⟩ := ih (registry.insert form.withId form.id_withId)
    refine ⟨form.withId registry.nextId :: added, ?_, .cons rfl hadded⟩
    show (delete (registry.insert form.withId form.id_withId) forms).rows = _
    rw [hrows]
    simp

theorem rows_create (registry : Registry) (forms : List CreateForm) :
    ∃ added, (registry.create forms).rows = registry.rows ++ added ∧
      List.Forall₂ (fun form row ↦ row = form.withId row.id) forms added := by
  induction forms generalizing registry with
  | nil => exact ⟨[], by simp [create], .nil⟩
  | cons form forms ih =>
    obtain ⟨added, hrows, hadded⟩ := ih (registry.insert form.withId form.id_withId)
    refine ⟨form.withId registry.nextId :: added, ?_, .cons rfl hadded⟩
    show (create (registry.insert form.withId form.id_withId) forms).rows = _
    rw [hrows]
    simp

/-! ## 3. The greatest jid -/

theorem mem_jids_iff (registry : Registry) (namespaceId j : Int) :
    j ∈ registry.jids namespaceId ↔
      ∃ r ∈ registry.rows, r.namespaceId = namespaceId ∧ r.jid = some j := by
  simp only [jids, List.mem_filterMap, List.mem_filter, beq_iff_eq, and_assoc]

theorem latestJid_eq_some_iff (registry : Registry) (namespaceId m : Int) :
    registry.latestJid namespaceId = some m ↔
      m ∈ registry.jids namespaceId ∧ ∀ j ∈ registry.jids namespaceId, j ≤ m := by
  rw [latestJid, List.max?_eq_some_iff]

theorem latestJid_isSome {registry : Registry} {namespaceId j : Int}
    (h : j ∈ registry.jids namespaceId) :
    ∃ m, registry.latestJid namespaceId = some m ∧ j ≤ m := by
  cases hm : registry.latestJid namespaceId with
  | none =>
    rw [latestJid, List.max?_eq_none_iff] at hm
    rw [hm] at h
    cases h
  | some m => exact ⟨m, rfl, ((latestJid_eq_some_iff _ _ _).mp hm).2 j h⟩

theorem jids_insert (registry : Registry) (row : Int → FileRecord) (hrow : ∀ i, (row i).id = i)
    (namespaceId : Int) :
    jids (registry.insert row hrow) namespaceId = registry.jids namespaceId ++
      if (row registry.nextId).namespaceId = namespaceId then (row registry.nextId).jid.toList
      else [] := by
  simp only [jids, Table.rows_insert, List.filter_append, List.filterMap_append]
  congr 1
  by_cases h : (row registry.nextId).namespaceId = namespaceId
  · rw [if_pos h, List.filter_cons_of_pos (by simpa using h)]
    cases hj : (row registry.nextId).jid <;> simp [hj]
  · rw [if_neg h, List.filter_cons_of_neg (by simpa using h)]
    rfl

end Registry

end CooklangSync.Client
