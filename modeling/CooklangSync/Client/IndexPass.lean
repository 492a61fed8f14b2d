import CooklangSync.Client.Views
import CooklangSync.Theory.LatestMap

/-!
# IndexPass — what a pass of the indexer leaves behind

A pass that succeeds has appended one row for each path on which the registry and the disk differed,
and none for any other.  Afterwards the live rows are the files of the disk, and a second pass finds
nothing to do.
-/

namespace CooklangSync.Client

open Theory

/-! ## 1. The forms of a path -/

section Forms

variable {fromDb : List FileRecord} {fromFs : List CreateForm} (namespaceId : Int)

/-- A live path that the disk does not have is removed. -/
theorem toRemove_of_path (hdb : (fromDb.map FileRecord.path).Nodup) (p : Text) :
    (compareRecords fromDb fromFs namespaceId).1.filter (·.path = p) =
      ((getKey FileRecord.path fromDb p).bind fun r ↦
        match getKey CreateForm.path fromFs r.path with
        | some _ => none
        | none => some (buildDeleteForm r namespaceId)).toList := by
  apply filter_filterMap FileRecord.path DeleteForm.path _ hdb
  intro r form hform
  cases hget : getKey CreateForm.path fromFs r.path with
  | some f => simp [hget] at hform
  | none =>
    simp only [hget, Option.some.injEq] at hform
    rw [← hform]
    rfl

/-- A path of the disk is added when the registry has no live row for it, or one that differs. -/
theorem toAdd_of_path (hdb : (fromDb.map FileRecord.path).Nodup)
    (hfs : (fromFs.map CreateForm.path).Nodup) (p : Text) :
    (compareRecords fromDb fromFs namespaceId).2.filter (·.path = p) =
      ((getKey FileRecord.path fromDb p).bind fun r ↦
        match getKey CreateForm.path fromFs r.path with
        | some f => if r.sameAs f then none else some f
        | none => none).toList ++
      ((getKey CreateForm.path fromFs p).bind
        (Option.guard fun f ↦ (getKey FileRecord.path fromDb f.path).isNone)).toList := by
  rw [compareRecords]
  dsimp only
  rw [List.filter_append]
  congr 1
  · apply filter_filterMap FileRecord.path CreateForm.path _ hdb
    intro r form hform
    cases hget : getKey CreateForm.path fromFs r.path with
    | none => simp [hget] at hform
    | some f =>
      simp only [hget] at hform
      split at hform
      · cases hform
      · cases hform
        exact ((getKey_eq_some_iff CreateForm.path hfs r.path form).mp hget).2
  · have hguard : ∀ f form : CreateForm, Option.guard
        (fun f ↦ (getKey FileRecord.path fromDb f.path).isNone) f = some form →
        form.path = f.path := by
      intro f form hform
      rw [(Option.guard_eq_some_iff.mp hform).1]
    have hnew := filter_filterMap CreateForm.path CreateForm.path hguard hfs p
    rw [List.filterMap_eq_filter] at hnew
    exact hnew

theorem forms_of_path (hdb : (fromDb.map FileRecord.path).Nodup)
    (hfs : (fromFs.map CreateForm.path).Nodup) (p : Text) :
    let toRemove := (compareRecords fromDb fromFs namespaceId).1.filter (·.path = p)
    let toAdd := (compareRecords fromDb fromFs namespaceId).2.filter (·.path = p)
    if dbView fromDb p = scanView fromFs p then toRemove = [] ∧ toAdd = []
    else
      match getKey CreateForm.path fromFs p with
      | some f => toRemove = [] ∧ toAdd = [f]
      | none => (∃ r, toRemove = [buildDeleteForm r namespaceId]) ∧ toAdd = [] := by
  dsimp only
  rw [toRemove_of_path namespaceId hdb, toAdd_of_path namespaceId hdb hfs, dbView, scanView]
  cases hr : getKey FileRecord.path fromDb p with
  | none =>
    cases hf : getKey CreateForm.path fromFs p with
    | none => simp
    | some f =>
      -- a file the registry has no live row for
      have hfp := ((getKey_eq_some_iff CreateForm.path hfs p f).mp hf).2
      simp [Option.guard, hfp, hr]
  | some r =>
    have hrp := ((getKey_eq_some_iff FileRecord.path hdb p r).mp hr).2
    cases hf : getKey CreateForm.path fromFs p with
    | none =>
      rw [if_neg (by simp)]
      exact ⟨⟨r, by simp [hrp, hf]⟩, by simp [hrp, hf]⟩
    | some f =>
      -- a live row and a file, which are the same or not
      have hfp := ((getKey_eq_some_iff CreateForm.path hfs p f).mp hf).2
      have hsame := sameAs_iff (hrp.trans hfp.symm)
      by_cases heq : r.sameAs f = true
      · simp [Option.guard, hrp, hfp, hf, hr, heq, hsame.mp heq]
      · rw [if_neg (by simp [← hsame, heq])]
        simp [Option.guard, hrp, hfp, hf, hr, heq]

end Forms

/-! ## 2. The rows of a path -/

/-- The row says what the disk has for its path: a version, or that the file is gone. -/
def FileRecord.Describes (row : FileRecord) : Option Version → Prop
  | none => row.deleted = true
  | some v => row.deleted = false ∧ (row.size, row.modifiedAt) = v

/-- The pass appends the rows `added`: one for each path whose live version is not the one on the
disk, without a jid, and none for any other path or namespace. -/
structure Appends (registry registry' : Registry) (fromFs : List CreateForm) (namespaceId : Int)
    (added : List FileRecord) : Prop where
  rows : registry'.rows = registry.rows ++ added
  pending : ∀ row ∈ added, row.jid = none ∧ row.namespaceId = namespaceId
  same : ∀ p, liveView registry namespaceId p = scanView fromFs p → added.filter (·.path = p) = []
  differs : ∀ p, liveView registry namespaceId p ≠ scanView fromFs p →
    ∃ row, added.filter (·.path = p) = [row] ∧ row.Describes (scanView fromFs p)

theorem forall₂_filter_path {Form : Type} {path : Form → Text} {R : Form → FileRecord → Prop}
    (hpath : ∀ form row, R form row → row.path = path form) {forms : List Form}
    {rows : List FileRecord} (h : List.Forall₂ R forms rows) (p : Text) :
    List.Forall₂ R (forms.filter (path · = p)) (rows.filter (·.path = p)) := by
  apply List.rel_filter (R := R) _ h
  intro form row hR
  show decide (path form = p) = true ↔ decide (row.path = p) = true
  rw [hpath form row hR]

/-- The pass of a scan whose records are live and without a jid. -/
theorem appends_of_compare (registry : Registry) {fromDb : List FileRecord}
    {fromFs : List CreateForm} (namespaceId : Int) (hdb : (fromDb.map FileRecord.path).Nodup)
    (hfs : (fromFs.map CreateForm.path).Nodup)
    (hview : ∀ p, dbView fromDb p = liveView registry namespaceId p)
    (hforms : ∀ form ∈ fromFs, form.jid = none ∧ form.deleted = false ∧
      form.namespaceId = namespaceId) :
    ∃ added, Appends registry ((registry.delete (compareRecords fromDb fromFs namespaceId).1).create
      (compareRecords fromDb fromFs namespaceId).2) fromFs namespaceId added := by
  obtain ⟨removed, hremoved, hrforms⟩ :=
    registry.rows_delete (compareRecords fromDb fromFs namespaceId).1
  obtain ⟨created, hcreated, hcforms⟩ :=
    (registry.delete (compareRecords fromDb fromFs namespaceId).1).rows_create
      (compareRecords fromDb fromFs namespaceId).2
  have hrpath := fun p ↦ @forall₂_filter_path DeleteForm DeleteForm.path _
    (fun form row h ↦ by rw [h]; rfl) _ _ hrforms p
  have hcpath := fun p ↦ @forall₂_filter_path CreateForm CreateForm.path _
    (fun form row h ↦ by rw [h]; rfl) _ _ hcforms p
  have hrows : ∀ row ∈ removed ++ created, row.jid = none ∧ row.namespaceId = namespaceId := by
    intro row hrow
    rcases List.mem_append.mp hrow with hrow | hrow
    · obtain ⟨form, hform, heq⟩ := exists_left_of_forall₂ hrforms hrow
      obtain ⟨r, -, -, rfl⟩ := (mem_toRemove_iff form).mp hform
      rw [heq]
      exact ⟨rfl, rfl⟩
    · obtain ⟨form, hform, heq⟩ := exists_left_of_forall₂ hcforms hrow
      have hfields := hforms form (not_deleted_of_mem_toAdd hform)
      rw [heq]
      exact ⟨hfields.1, hfields.2.2⟩
  refine ⟨removed ++ created, ?_, hrows, ?_, ?_⟩
  · rw [hcreated, hremoved, List.append_assoc]
  · intro p hsame
    have hp := forms_of_path namespaceId hdb hfs p
    rw [hview, if_pos hsame] at hp
    have hr := hrpath p
    have hc := hcpath p
    rw [hp.1, List.forall₂_nil_left_iff] at hr
    rw [hp.2, List.forall₂_nil_left_iff] at hc
    rw [List.filter_append, hr, hc]
    rfl
  · intro p hdiffers
    have hp := forms_of_path namespaceId hdb hfs p
    rw [hview, if_neg hdiffers] at hp
    have hr := hrpath p
    have hc := hcpath p
    rw [List.filter_append]
    cases hf : getKey CreateForm.path fromFs p with
    | none =>
      -- one tombstone
      simp only [hf] at hp
      obtain ⟨⟨r, hone⟩, hnone⟩ := hp
      rw [hone] at hr
      rw [hnone, List.forall₂_nil_left_iff] at hc
      obtain ⟨row, rest, hrow, hrest, heq⟩ := List.forall₂_cons_left_iff.mp hr
      rw [List.forall₂_nil_left_iff.mp hrest] at heq
      refine ⟨row, by rw [heq, hc]; rfl, ?_⟩
      rw [scanView, hf, hrow]
      rfl
    | some f =>
      -- one row with what the disk has
      simp only [hf] at hp
      rw [hp.1, List.forall₂_nil_left_iff] at hr
      rw [hp.2] at hc
      obtain ⟨row, rest, hrow, hrest, heq⟩ := List.forall₂_cons_left_iff.mp hc
      rw [List.forall₂_nil_left_iff.mp hrest] at heq
      have hlive := (hforms f ((getKey_eq_some_iff CreateForm.path hfs p f).mp hf).1).2.1
      refine ⟨row, by rw [hr, heq]; rfl, ?_⟩
      rw [scanView, hf, hrow]
      exact ⟨hlive, rfl⟩

/-! ## 3. After the pass -/

/-- The live rows as the disk would show them. -/
theorem liveView_of_appends {registry registry' : Registry} {fromFs : List CreateForm}
    {namespaceId : Int} {added : List FileRecord}
    (h : Appends registry registry' fromFs namespaceId added) (p : Text) :
    liveView registry' namespaceId p = scanView fromFs p := by
  have hfilter : added.filter (fun r ↦ (r.namespaceId == namespaceId) && decide (r.path = p)) =
      added.filter (·.path = p) := by
    apply List.filter_congr
    intro row hrow
    simp [(h.pending row hrow).2]
  have hlast : registry'.latestOf (·.namespaceId == namespaceId) FileRecord.path p =
      (added.filter (·.path = p)).getLast?.or
        (registry.latestOf (·.namespaceId == namespaceId) FileRecord.path p) := by
    rw [← hfilter]
    exact Table.lastOf_append h.rows _
  by_cases hsame : liveView registry namespaceId p = scanView fromFs p
  · rw [← hsame, liveView, hlast, h.same p hsame]
    rfl
  · obtain ⟨row, hone, hrow⟩ := h.differs p hsame
    rw [liveView, hlast, hone]
    show (if row.deleted then none else some (row.size, row.modifiedAt)) = _
    cases hv : scanView fromFs p with
    | none =>
      rw [hv] at hrow
      exact if_pos hrow
    | some v =>
      rw [hv] at hrow
      rw [if_neg (by simp [hrow.1]), hrow.2]

/-- The live rows are the files of a scan when the views agree. -/
theorem nonDeleted_perm_of_liveView {registry : Registry} {fromFs : List CreateForm}
    {namespaceId : Int} (hfs : (fromFs.map CreateForm.path).Nodup)
    (h : ∀ p, liveView registry namespaceId p = scanView fromFs p) :
    ((registry.nonDeleted namespaceId).map fun r ↦ (r.path, r.size, r.modifiedAt)).Perm
      (fromFs.map fun form ↦ (form.path, form.size, form.modifiedAt)) := by
  have hnodup : ((registry.nonDeleted namespaceId).map FileRecord.path).Nodup :=
    (registry.nodup_map_latest (·.namespaceId == namespaceId) FileRecord.path).sublist
      (List.filter_sublist.map _)
  have hlive : ∀ p v, (p, v) ∈ (registry.nonDeleted namespaceId).map
      (fun r ↦ (r.path, r.size, r.modifiedAt)) ↔ liveView registry namespaceId p = some v := by
    intro p v
    rw [List.mem_map, liveView]
    constructor
    · rintro ⟨r, hr, heq⟩
      rw [Prod.mk.injEq] at heq
      have hlatest := (mem_nonDeleted_iff registry namespaceId r p).mp ⟨hr, heq.1⟩
      rw [hlatest.1, ← heq.2]
      exact if_neg (by simp [hlatest.2])
    · intro hv
      split at hv
      · next r hlatest =>
        split at hv
        · cases hv
        · next hdeleted =>
          have hmem := (mem_nonDeleted_iff registry namespaceId r p).mpr
            ⟨hlatest, by simpa using hdeleted⟩
          exact ⟨r, hmem.1, by rw [hmem.2, ← Option.some.inj hv]⟩
      · cases hv
  have hscan : ∀ p v, (p, v) ∈ fromFs.map (fun form ↦ (form.path, form.size, form.modifiedAt)) ↔
      scanView fromFs p = some v := by
    intro p v
    rw [List.mem_map, scanView, Option.map_eq_some_iff]
    apply exists_congr
    intro form
    rw [getKey_eq_some_iff CreateForm.path hfs, and_assoc, Prod.mk.injEq]
  rw [List.perm_ext_iff_of_nodup]
  · rintro ⟨p, v⟩
    rw [hlive, hscan, h]
  · -- each path comes once
    apply List.Nodup.of_map Prod.fst
    rwa [List.map_map]
  · apply List.Nodup.of_map Prod.fst
    rwa [List.map_map]

/-- A pass that succeeds brings the live rows to the files of the disk, with one row for each path
that differed, and a second pass does nothing. -/
theorem checkIndexOnce_brings_to_disk {registry registry' : Registry} {disk : Disk} {env : ScanEnv}
    {order : IterationOrder} {faults : IndexFaults} {basePath : Path Name} {namespaceId : Int}
    {b : Bool}
    (h : checkIndexOnce registry disk env order faults basePath namespaceId = (registry', .ok b)) :
    ∃ fromFs, getFileRecordsFromDisk disk env basePath namespaceId = .ok fromFs ∧
      ((registry'.nonDeleted namespaceId).map fun r ↦ (r.path, r.size, r.modifiedAt)).Perm
        (fromFs.map fun form ↦ (form.path, form.size, form.modifiedAt)) ∧
      (∃ added, Appends registry registry' fromFs namespaceId added) ∧
      ∀ (order' : IterationOrder) (faults' : IndexFaults), faults'.nonDeleted = false →
        checkIndexOnce registry' disk env order' faults' basePath namespaceId =
          (registry', .ok false) := by
  obtain ⟨fromFs, hscan, hreg, -⟩ := checkIndexOnce_ok h
  have hfs := nodup_fromDisk hscan
  obtain ⟨added, hadded⟩ := appends_of_compare registry namespaceId
    (order.db.nodup_map_arrange _ (nodup_fromRegistry registry namespaceId))
    (order.fs.nodup_map_arrange _ hfs) (dbView_fromRegistry registry namespaceId order.db)
    (fun form hform ↦ fields_fromDisk hscan form ((order.fs.mem_arrange _ _).mp hform))
  rw [← hreg] at hadded
  have hview : ∀ p, liveView registry' namespaceId p = scanView fromFs p := by
    intro p
    rw [liveView_of_appends hadded, scanView_arrange hfs]
  refine ⟨fromFs, hscan, nonDeleted_perm_of_liveView hfs hview, ⟨added, ?_⟩, ?_⟩
  · have hsame := scanView_arrange hfs order.fs
    exact ⟨hadded.rows, hadded.pending, fun p ↦ hsame p ▸ hadded.same p,
      fun p ↦ hsame p ▸ hadded.differs p⟩
  · intro order' faults' hfaults
    exact (checkIndexOnce_idle_iff registry' disk env order' hfaults basePath namespaceId).mpr
      ⟨fromFs, hscan, hview⟩

-- An example: the recipe the registry has is gone, and there is another one.
def renamedRecipe : Registry :=
  Registry.create Table.empty
    [{ jid := some 1, path := "b.cook".toList, deleted := false, size := 0,
       modifiedAt := ⟨0, 0⟩, namespaceId := 1 }]

def renamedScan (registry : Registry) (order : IterationOrder) (faults : IndexFaults) :
    Registry × Outcome SyncError Bool :=
  checkIndexOnce registry oneRecipe readableEnv order faults (parsePath "/s".toList) 1

theorem checkIndexOnce_brings_renamedRecipe :
    let renamed := (renamedScan renamedRecipe ⟨.inOrder, .inOrder⟩ ⟨false, false, false⟩).1
    ∃ fromFs, getFileRecordsFromDisk oneRecipe readableEnv (parsePath "/s".toList) 1 = .ok fromFs ∧
      ((renamed.nonDeleted 1).map fun r ↦ (r.path, r.size, r.modifiedAt)).Perm
        (fromFs.map fun form ↦ (form.path, form.size, form.modifiedAt)) ∧
      (∃ added, Appends renamedRecipe renamed fromFs 1 added) ∧
      ∀ (order : IterationOrder) (faults : IndexFaults), faults.nonDeleted = false →
        renamedScan renamed order faults = (renamed, .ok false) :=
  checkIndexOnce_brings_to_disk (b := true) (Prod.ext rfl (by decide))

end CooklangSync.Client
