import CooklangSync.Client.Scan
import CooklangSync.Client.Syncer

/-!
# Rows — which rows the passes of a client write

Index passes append rows without a jid, a download pass appends one row with the jid of each record
it carries out, and an accepted commit sets the jid of one row.
-/

namespace CooklangSync.Client

open Theory

/-! ## 1. Index passes -/

/-- The row is a record of a scan of the disk. -/
def IsScanned (disk : Disk) (env : ScanEnv) (basePath : Path Name) (namespaceId : Int)
    (row : FileRecord) : Prop :=
  ∃ fromFs, getFileRecordsFromDisk disk env basePath namespaceId = .ok fromFs ∧
    ∃ form ∈ fromFs, row = form.withId row.id

/-- Whatever comes of an index pass, it only appends rows of the namespace without a jid, and the
live ones among them are records of its scan. -/
theorem added_checkIndexOnce (registry : Registry) (disk : Disk) (env : ScanEnv)
    (order : IterationOrder) (faults : IndexFaults) (basePath : Path Name) (namespaceId : Int) :
    ∃ added, (checkIndexOnce registry disk env order faults basePath namespaceId).1.rows =
      registry.rows ++ added ∧ ∀ row ∈ added, row.jid = none ∧ row.namespaceId = namespaceId ∧
        (row.deleted = false → IsScanned disk env basePath namespaceId row) := by
  have hsame : ∃ added, registry.rows = registry.rows ++ added ∧
      ∀ row ∈ added, row.jid = none ∧ row.namespaceId = namespaceId ∧
        (row.deleted = false → IsScanned disk env basePath namespaceId row) :=
    ⟨[], by simp, by simp⟩
  unfold checkIndexOnce
  split
  · exact hsame
  · cases hscan : getFileRecordsFromDisk disk env basePath namespaceId with
    | panic => exact hsame
    | err e => exact hsame
    | ok fromFs =>
      simp only
      generalize hfromDb : order.db.arrange (getFileRecordsFromRegistry registry namespaceId) = fromDb
      obtain ⟨removed, hremoved, hrforms⟩ := registry.rows_delete
        (compareRecords fromDb (order.fs.arrange fromFs) namespaceId).1
      obtain ⟨added, hadded, haforms⟩ := (registry.delete
        (compareRecords fromDb (order.fs.arrange fromFs) namespaceId).1).rows_create
        (compareRecords fromDb (order.fs.arrange fromFs) namespaceId).2
      have hr : ∀ row ∈ removed, row.jid = none ∧ row.namespaceId = namespaceId ∧
          (row.deleted = false → IsScanned disk env basePath namespaceId row) := by
        intro row hrow
        obtain ⟨form, hform, heq⟩ := exists_left_of_forall₂ hrforms hrow
        obtain ⟨r, -, -, rfl⟩ := (mem_toRemove_iff form).mp hform
        rw [heq]
        exact ⟨rfl, rfl, fun hlive ↦ by cases hlive⟩
      have ha : ∀ row ∈ added, row.jid = none ∧ row.namespaceId = namespaceId ∧
          (row.deleted = false → IsScanned disk env basePath namespaceId row) := by
        intro row hrow
        obtain ⟨form, hform, heq⟩ := exists_left_of_forall₂ haforms hrow
        have hmem := (order.fs.mem_arrange _ _).mp (not_deleted_of_mem_toAdd hform)
        have hfields := fields_fromDisk hscan form hmem
        have hscanned : IsScanned disk env basePath namespaceId row :=
          ⟨fromFs, hscan, form, hmem, heq⟩
        rw [heq] at hscanned ⊢
        exact ⟨hfields.1, hfields.2.2, fun _ ↦ hscanned⟩
      split
      · exact hsame
      · split
        · exact hsame
        · split
          · exact ⟨removed, hremoved, hr⟩
          · refine ⟨removed ++ added, ?_, fun row hrow ↦ ?_⟩
            · rw [hadded, hremoved, List.append_assoc]
            · exact (List.mem_append.mp hrow).elim (hr row) (ha row)

theorem rows_checkIndexOnce (registry : Registry) (disk : Disk) (env : ScanEnv)
    (order : IterationOrder) (faults : IndexFaults) (basePath : Path Name) (namespaceId : Int) :
    ∃ added, (checkIndexOnce registry disk env order faults basePath namespaceId).1.rows =
      registry.rows ++ added ∧ ∀ row ∈ added, row.jid = none := by
  obtain ⟨added, hrows, hadded⟩ :=
    added_checkIndexOnce registry disk env order faults basePath namespaceId
  exact ⟨added, hrows, fun row hrow ↦ (hadded row hrow).1⟩

theorem jids_of_append {registry registry' : Registry} {added : List FileRecord}
    (hrows : registry'.rows = registry.rows ++ added) (hnone : ∀ row ∈ added, row.jid = none)
    (namespaceId : Int) : registry'.jids namespaceId = registry.jids namespaceId := by
  have hempty : (added.filter (·.namespaceId == namespaceId)).filterMap FileRecord.jid = [] := by
    rw [List.filterMap_eq_nil_iff]
    intro row hrow
    exact hnone row (List.mem_filter.mp hrow).1
  rw [Registry.jids, hrows, List.filter_append, List.filterMap_append, hempty, List.append_nil]
  rfl

/-! ## 2. Download passes -/

namespace Syncer

theorem buildFileRecord_ok {disk : Disk} {dirMetadata : Place Name → Nat × OffsetDateTime}
    {path : Text} {fullPath : Path Name} {jid namespaceId : Int} {form : CreateForm}
    (h : buildFileRecord disk dirMetadata path fullPath jid namespaceId = .ok form) :
    form.jid = some jid ∧ form.path = path ∧ form.deleted = false ∧
      form.namespaceId = namespaceId := by
  unfold buildFileRecord at h
  split at h
  · cases h; exact ⟨rfl, rfl, rfl, rfl⟩
  · cases h; exact ⟨rfl, rfl, rfl, rfl⟩
  · cases h

/-- A live record leaves what its save does to the disk, and a row when nothing fails. -/
theorem applyRecord_of_live {d : ResponseFileRecord} (hlive : d.deleted = false) (env : RecordEnv)
    (namespaceId : Int) (s : ClientState) {outcome : Outcome SyncError Unit} {disk : Disk}
    (hsave : s.chunker.save s.disk env.save d.path (chunksOf d) = (outcome, disk)) :
    (outcome = .ok () ∧ ∃ form : CreateForm, form.jid = some d.id ∧ form.path = d.path ∧
      form.namespaceId = namespaceId ∧ applyRecord env namespaceId s d =
        ({ s with registry := s.registry.create [form], disk := disk }, .ok ())) ∨
    ∃ failure, failure ≠ .ok () ∧
      applyRecord env namespaceId s d = ({ s with disk := disk }, failure) := by
  rw [applyRecord, if_neg (by rw [hlive]; exact Bool.false_ne_true), hsave]
  cases outcome with
  | err e => exact .inr ⟨.err e, by simp, rfl⟩
  | panic => exact .inr ⟨.panic, by simp, rfl⟩
  | ok u =>
    dsimp only
    cases hform : (if env.metadataFails = true then Outcome.err (.ioError d.path)
        else buildFileRecord disk env.dirMetadata d.path (s.chunker.fullPath d.path) d.id
          namespaceId) with
    | err e => exact .inr ⟨.err e, by simp, rfl⟩
    | panic => exact .inr ⟨.panic, by simp, rfl⟩
    | ok form =>
      by_cases hfails : env.registryFails = true
      · exact .inr ⟨.err .dbQueryError, by simp, by simp only [if_pos hfails]⟩
      · split at hform
        · cases hform
        · have hbuilt := buildFileRecord_ok hform
          refine .inl ⟨rfl, form, hbuilt.1, hbuilt.2.1, hbuilt.2.2.2, ?_⟩
          simp only [if_neg hfails]

/-- The row of a record that is carried out, or was written before the processing failed. -/
theorem applyRecord_row (env : RecordEnv) (namespaceId : Int) (s : ClientState)
    (d : ResponseFileRecord) :
    ((applyRecord env namespaceId s d).2 ≠ .ok () ∧
      (applyRecord env namespaceId s d).1.registry = s.registry) ∨
    ∃ (row : Int → FileRecord) (hrow : ∀ i, (row i).id = i),
      (applyRecord env namespaceId s d).1.registry = s.registry.insert row hrow ∧
      ∀ i, (row i).jid = some d.id ∧ (row i).path = d.path ∧ (row i).namespaceId = namespaceId := by
  cases hdel : d.deleted with
  | true =>
    rw [applyRecord, if_pos hdel]
    split
    · exact .inl ⟨by simp, rfl⟩
    · refine .inr ⟨(buildDeleteForm d.path env.now d.id namespaceId).withId,
        DeleteForm.id_withId _, ?_, fun _ ↦ ⟨rfl, rfl, rfl⟩⟩
      simp only
      split <;> rfl
  | false =>
    cases hsave : s.chunker.save s.disk env.save d.path (chunksOf d) with
    | mk outcome disk =>
      rcases applyRecord_of_live hdel env namespaceId s hsave with
        ⟨-, form, hjid, hpath, hns, hdone⟩ | ⟨failure, hne, hfailed⟩
      · rw [hdone]
        exact .inr ⟨form.withId, form.id_withId, rfl, fun _ ↦ ⟨hjid, hpath, hns⟩⟩
      · rw [hfailed]
        exact .inl ⟨hne, rfl⟩

/-- A loop that succeeds writes the jid of every record. -/
theorem jids_applyRecords {env : Nat → RecordEnv} {namespaceId : Int} {i : Nat}
    {s s' : ClientState} {ds : List ResponseFileRecord}
    (h : applyRecords env namespaceId i s ds = (s', .ok ())) :
    s'.registry.jids namespaceId =
      s.registry.jids namespaceId ++ ds.map ResponseFileRecord.id := by
  induction ds generalizing i s with
  | nil =>
    cases h
    simp
  | cons d ds ih =>
    rw [applyRecords] at h
    have hrow := applyRecord_row (env i) namespaceId s d
    cases happly : applyRecord (env i) namespaceId s d with
    | mk s₁ outcome =>
      rw [happly] at h hrow
      cases outcome with
      | err e => cases h
      | panic => cases h
      | ok u =>
        rcases hrow with ⟨hne, -⟩ | ⟨row, hid, hreg, hfields⟩
        · exact absurd rfl hne
        · obtain ⟨hjid, -, hns⟩ := hfields s.registry.nextId
          have hstep := s.registry.jids_insert row hid namespaceId
          rw [if_pos hns, hjid] at hstep
          change s₁.registry = _ at hreg
          rw [ih h, hreg, hstep]
          simp

end Syncer

/-! ## 3. Accepted commits -/

theorem mem_jids_updateJid {registry : Registry} {f : FileRecord} {jid namespaceId j : Int}
    (h : j ∈ (registry.updateJid f jid).jids namespaceId) :
    j ∈ registry.jids namespaceId ∨ j = jid := by
  rw [Registry.mem_jids_iff] at h ⊢
  obtain ⟨row, hrow, hns, hjid⟩ := h
  obtain ⟨r, hr, rfl⟩ := List.mem_map.mp hrow
  unfold Registry.FileRecord.setJid at hns hjid
  split at hns
  · rw [if_pos (by assumption)] at hjid
    exact .inr (Option.some.inj hjid).symm
  · rw [if_neg (by assumption)] at hjid
    exact .inl ⟨r, hr, hns, hjid⟩

namespace Registry

/-- An accepted row is not pending any more, and no other row is touched. -/
theorem updatedLocally_updateJid (registry : Registry) (f : FileRecord) (jid namespaceId : Int) :
    (registry.updateJid f jid).updatedLocally namespaceId =
      (registry.updatedLocally namespaceId).filter fun r ↦ r.id ≠ f.id := by
  have hlatest := registry.latest_update (·.namespaceId == namespaceId) FileRecord.path
    (FileRecord.setJid f.id jid) (FileRecord.id_setJid f.id jid)
    (fun r ↦ by unfold FileRecord.setJid; split <;> rfl)
    (fun r ↦ by unfold FileRecord.setJid; split <;> rfl)
  rw [updatedLocally, updateJid, hlatest, List.filter_map, updatedLocally, List.filter_filter]
  generalize registry.latest (·.namespaceId == namespaceId) FileRecord.path = rows
  induction rows with
  | nil => rfl
  | cons r rows ih =>
    by_cases hid : r.id = f.id
    · have hset : FileRecord.setJid f.id jid r = { r with jid := some jid } := if_pos hid
      simp [hset, hid, ih]
    · have hset : FileRecord.setJid f.id jid r = r := if_neg hid
      cases hjid : r.jid <;> simp [hset, hid, hjid, ih]

/-- Sets the jids of rows, one after the other. -/
def updateJids (registry : Registry) (accepted : List (FileRecord × Int)) : Registry :=
  accepted.foldl (fun registry p ↦ registry.updateJid p.1 p.2) registry

theorem updatedLocally_updateJids (registry : Registry) (accepted : List (FileRecord × Int))
    (namespaceId : Int) :
    (registry.updateJids accepted).updatedLocally namespaceId =
      (registry.updatedLocally namespaceId).filter
        fun r ↦ r.id ∉ accepted.map fun p ↦ p.1.id := by
  induction accepted generalizing registry with
  | nil =>
    symm
    rw [updateJids, List.foldl_nil, List.filter_eq_self]
    simp
  | cons p accepted ih =>
    rw [updateJids, List.foldl_cons]
    have hrest := ih (registry.updateJid p.1 p.2)
    rw [updateJids] at hrest
    rw [hrest, updatedLocally_updateJid, List.filter_filter]
    apply List.filter_congr
    intro r _
    by_cases hid : r.id = p.1.id <;> simp [hid]

theorem mem_updateJids_of_not_mem {registry : Registry} {accepted : List (FileRecord × Int)}
    {r : FileRecord} (hr : r ∈ registry.rows) (hid : r.id ∉ accepted.map fun p ↦ p.1.id) :
    r ∈ (registry.updateJids accepted).rows := by
  induction accepted generalizing registry with
  | nil => exact hr
  | cons p accepted ih =>
    rw [List.map_cons, List.mem_cons, not_or] at hid
    refine ih ?_ hid.2
    exact List.mem_map.mpr ⟨r, hr, if_neg hid.1⟩

/-- Every row that was accepted carries the jid it was answered with. -/
theorem mem_updateJids {registry : Registry} {accepted : List (FileRecord × Int)}
    (hdistinct : (accepted.map fun p ↦ p.1.id).Nodup) (hrows : ∀ p ∈ accepted, p.1 ∈ registry.rows)
    {p : FileRecord × Int} (hp : p ∈ accepted) :
    { p.1 with jid := some p.2 } ∈ (registry.updateJids accepted).rows := by
  induction accepted generalizing registry with
  | nil => cases hp
  | cons q accepted ih =>
    rw [List.map_cons, List.nodup_cons] at hdistinct
    rcases List.mem_cons.mp hp with rfl | hp
    · have hset : { p.1 with jid := some p.2 } ∈ (registry.updateJid p.1 p.2).rows :=
        List.mem_map.mpr ⟨p.1, hrows p List.mem_cons_self, if_pos rfl⟩
      have hkept := mem_updateJids_of_not_mem hset hdistinct.1
      exact hkept
    · refine ih hdistinct.2 (fun p' hp' ↦ ?_) hp
      -- the other row has another id
      have hne : p'.1.id ≠ q.1.id := fun heq ↦
        hdistinct.1 (heq ▸ List.mem_map_of_mem (f := fun p ↦ p.1.id) hp')
      exact List.mem_map.mpr ⟨p'.1, hrows p' (List.mem_cons_of_mem q hp'), if_neg hne⟩

theorem nodup_updatedLocally (registry : Registry) (namespaceId : Int) :
    ((registry.updatedLocally namespaceId).map FileRecord.id).Nodup :=
  registry.nodup_ids.sublist ((List.filter_sublist.trans List.filter_sublist).map _)

end Registry

end CooklangSync.Client
