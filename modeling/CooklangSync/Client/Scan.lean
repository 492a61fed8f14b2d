import CooklangSync.Client.Indexer
import Mathlib.Data.List.Forall2

/-!
# Scan — what one index pass finds and appends

The entries of the walk, the paths of the resulting map, and the rows a pass appends.  A pass
records a tombstone for every live path that the walk does not meet; whether the file is gone is
another question (`checkIndexOnce_tombstones_iff`).
-/

namespace CooklangSync.Client

open Theory

/-! ## 1. The entries of the walk -/

theorem exists_left_of_forall₂ {α β : Type} {R : α → β → Prop} {l₁ : List α} {l₂ : List β}
    (h : List.Forall₂ R l₁ l₂) {b : β} (hb : b ∈ l₂) : ∃ a ∈ l₁, R a b := by
  induction h with
  | nil => cases hb
  | cons hab _ ih =>
    rcases List.mem_cons.mp hb with rfl | hb
    · exact ⟨_, List.mem_cons_self, hab⟩
    · obtain ⟨a, ha, hR⟩ := ih hb
      exact ⟨a, List.mem_cons_of_mem _ ha, hR⟩

theorem exists_right_of_forall₂ {α β : Type} {R : α → β → Prop} {l₁ : List α} {l₂ : List β}
    (h : List.Forall₂ R l₁ l₂) {a : α} (ha : a ∈ l₁) : ∃ b ∈ l₂, R a b :=
  exists_left_of_forall₂ h.flip ha

theorem lookup_of_reached {disk : Disk} {env : ScanEnv} {root : Place Name} {rel : List Name}
    (h : reached disk env root rel = true) : (disk.lookup (rel ++ root)).isSome := by
  cases rel with
  | nil => exact h
  | cons n rel =>
    simp only [reached, Bool.and_eq_true] at h
    exact h.1.2

theorem mem_walkDir_iff (disk : Disk) (env : ScanEnv) (root : Place Name) (rel : List Name) :
    rel ∈ walkDir disk env root ↔ walked disk env root rel = true := by
  rw [walkDir, List.mem_filter]
  refine ⟨fun h ↦ h.2, fun h ↦ ⟨?_, h⟩⟩
  have hreached : reached disk env root rel = true := by
    rw [walked, Bool.and_eq_true] at h
    exact h.1
  have hkey : rel ++ root ∈ disk.nodes.keys :=
    AList.mem_keys.mp (AList.lookup_isSome.mp (lookup_of_reached hreached))
  rw [List.mem_map]
  refine ⟨rel ++ root, List.mem_filter.mpr ⟨hkey, ?_⟩, ?_⟩
  · exact List.isSuffixOf_iff_suffix.mpr (List.suffix_append rel root)
  · rw [List.length_append, Nat.add_sub_cancel, List.take_left]

theorem buildFileRecord_ok {disk : Disk} {env : ScanEnv} {basePath : Path Name}
    {root : Place Name} {namespaceId : Int} {rel : List Name} {form : CreateForm}
    (h : buildFileRecord disk env basePath root namespaceId rel = .ok form) :
    form.path = relativePath rel ∧ form.deleted = false ∧ form.jid = none ∧
      form.namespaceId = namespaceId := by
  unfold buildFileRecord at h
  split at h
  · cases h
  · split at h
    · cases h
      exact ⟨rfl, rfl, rfl, rfl⟩
    · cases h
      exact ⟨rfl, rfl, rfl, rfl⟩
    · cases h

theorem buildFileRecords_ok {disk : Disk} {env : ScanEnv} {basePath : Path Name}
    {root : Place Name} {namespaceId : Int} {rels : List (List Name)} {forms : List CreateForm}
    (h : buildFileRecords disk env basePath root namespaceId rels = .ok forms) :
    List.Forall₂ (fun rel form ↦ buildFileRecord disk env basePath root namespaceId rel = .ok form)
      rels forms := by
  induction rels generalizing forms with
  | nil =>
    cases h
    exact .nil
  | cons rel rels ih =>
    obtain ⟨form, hform, h⟩ := Outcome.bind_eq_ok h
    obtain ⟨rest, hrest, h⟩ := Outcome.bind_eq_ok h
    cases h
    exact .cons hform (ih hrest)

theorem exists_buildFileRecords {disk : Disk} {env : ScanEnv} {basePath : Path Name}
    {root : Place Name} {namespaceId : Int} {rels : List (List Name)}
    (h : ∀ rel ∈ rels, ∃ form, buildFileRecord disk env basePath root namespaceId rel = .ok form) :
    ∃ forms, buildFileRecords disk env basePath root namespaceId rels = .ok forms := by
  induction rels with
  | nil => exact ⟨[], rfl⟩
  | cons rel rels ih =>
    obtain ⟨form, hform⟩ := h rel List.mem_cons_self
    obtain ⟨forms, hforms⟩ := ih fun r hr ↦ h r (List.mem_cons_of_mem rel hr)
    rw [buildFileRecords, hform, hforms]
    exact ⟨form :: forms, rfl⟩

theorem map_path_of_buildFileRecords {disk : Disk} {env : ScanEnv} {basePath : Path Name}
    {root : Place Name} {namespaceId : Int} {rels : List (List Name)} {forms : List CreateForm}
    (h : buildFileRecords disk env basePath root namespaceId rels = .ok forms) :
    forms.map CreateForm.path = rels.map relativePath := by
  have hall := buildFileRecords_ok h
  clear h
  induction hall with
  | nil => rfl
  | cons hform _ ih => rw [List.map_cons, List.map_cons, ih, (buildFileRecord_ok hform).1]

/-- The map of the scan has the paths of the eligible entries. -/
theorem mem_paths_fromDisk {disk : Disk} {env : ScanEnv} {basePath : Path Name}
    {namespaceId : Int} {fromFs : List CreateForm}
    (h : getFileRecordsFromDisk disk env basePath namespaceId = .ok fromFs) (p : Text) :
    p ∈ fromFs.map CreateForm.path ↔
      ∃ rel ∈ eligibleEntries disk env basePath, relativePath rel = p := by
  obtain ⟨records, hrecords, h⟩ := Outcome.bind_eq_ok h
  cases h
  rw [mem_map_keepLast]
  rw [map_path_of_buildFileRecords hrecords, List.mem_map]

/-- The records of a scan are live, and the server has not accepted them. -/
theorem fields_fromDisk {disk : Disk} {env : ScanEnv} {basePath : Path Name} {namespaceId : Int}
    {fromFs : List CreateForm}
    (h : getFileRecordsFromDisk disk env basePath namespaceId = .ok fromFs) (form : CreateForm)
    (hform : form ∈ fromFs) :
    form.jid = none ∧ form.deleted = false ∧ form.namespaceId = namespaceId := by
  obtain ⟨records, hrecords, hkeep⟩ := Outcome.bind_eq_ok h
  cases hkeep
  have hmem := mem_of_mem_keepLast CreateForm.path hform
  obtain ⟨rel, -, hrel⟩ := exists_left_of_forall₂ (buildFileRecords_ok hrecords) hmem
  obtain ⟨-, hdeleted, hjid, hns⟩ := buildFileRecord_ok hrel
  exact ⟨hjid, hdeleted, hns⟩

/-! ## 2. The rows of a pass -/

/-- A pass that succeeds has scanned the disk and appended the rows of the comparison. -/
theorem checkIndexOnce_ok {registry registry' : Registry} {disk : Disk} {env : ScanEnv}
    {order : IterationOrder} {faults : IndexFaults} {basePath : Path Name} {namespaceId : Int}
    {b : Bool}
    (h : checkIndexOnce registry disk env order faults basePath namespaceId = (registry', .ok b)) :
    ∃ fromFs, getFileRecordsFromDisk disk env basePath namespaceId = .ok fromFs ∧
      let r := compareRecords (order.db.arrange (getFileRecordsFromRegistry registry namespaceId))
        (order.fs.arrange fromFs) namespaceId
      registry' = (registry.delete r.1).create r.2 ∧ (b = false ↔ r.1 = [] ∧ r.2 = []) := by
  unfold checkIndexOnce at h
  split at h
  · cases h
  · cases hscan : getFileRecordsFromDisk disk env basePath namespaceId with
    | panic => rw [hscan] at h; cases h
    | err e => rw [hscan] at h; cases h
    | ok fromFs =>
      refine ⟨fromFs, rfl, ?_⟩
      simp only [hscan] at h
      split at h
      · rename_i hnil
        cases h
        simp [hnil, Registry.delete, Registry.create]
      · rename_i hnil
        split at h
        · cases h
        · split at h
          · cases h
          · cases h
            simpa using hnil

theorem faults_of_ok {registry registry' : Registry} {disk : Disk} {env : ScanEnv}
    {order : IterationOrder} {faults : IndexFaults} {basePath : Path Name} {namespaceId : Int}
    {b : Bool}
    (h : checkIndexOnce registry disk env order faults basePath namespaceId = (registry', .ok b)) :
    faults.nonDeleted = false := by
  by_contra hfault
  rw [checkIndexOnce, if_pos (by simpa using hfault)] at h
  cases h

/-- A pass that has nothing to do leaves the registry. -/
theorem idle_of_snd {registry : Registry} {disk : Disk} {env : ScanEnv} {order : IterationOrder}
    {faults : IndexFaults} {basePath : Path Name} {namespaceId : Int}
    (h : (checkIndexOnce registry disk env order faults basePath namespaceId).2 = .ok false) :
    checkIndexOnce registry disk env order faults basePath namespaceId = (registry, .ok false) := by
  cases hrun : checkIndexOnce registry disk env order faults basePath namespaceId with
  | mk registry' outcome =>
    rw [hrun] at h
    cases h
    obtain ⟨fromFs, -, hreg, hnil⟩ := checkIndexOnce_ok hrun
    have hnone := hnil.mp rfl
    rw [hreg, hnone.1, hnone.2]
    rfl

theorem mem_toRemove_iff {fromDb : List FileRecord} {fromFs : List CreateForm} {namespaceId : Int}
    (form : DeleteForm) :
    form ∈ (compareRecords fromDb fromFs namespaceId).1 ↔
      ∃ r ∈ fromDb, r.path ∉ fromFs.map CreateForm.path ∧ buildDeleteForm r namespaceId = form := by
  rw [compareRecords, List.mem_filterMap]
  refine exists_congr fun r ↦ and_congr_right fun _ ↦ ?_
  rw [← getKey_eq_none_iff]
  cases getKey CreateForm.path fromFs r.path <;> simp

theorem not_deleted_of_mem_toAdd {fromDb : List FileRecord} {fromFs : List CreateForm}
    {namespaceId : Int} {form : CreateForm}
    (h : form ∈ (compareRecords fromDb fromFs namespaceId).2) : form ∈ fromFs := by
  rw [compareRecords, List.mem_append] at h
  rcases h with h | h
  · obtain ⟨r, -, h⟩ := List.mem_filterMap.mp h
    cases hget : getKey CreateForm.path fromFs r.path with
    | none => simp [hget] at h
    | some diskFile =>
      simp only [hget] at h
      split at h
      · cases h
      · cases h
        exact List.mem_of_find?_eq_some hget
  · exact (List.mem_filter.mp h).1

theorem mem_fromRegistry_paths_iff (registry : Registry) (namespaceId : Int) (p : Text) :
    p ∈ (getFileRecordsFromRegistry registry namespaceId).map FileRecord.path ↔
      p ∈ (registry.nonDeleted namespaceId).map FileRecord.path :=
  mem_map_keepLast _ _ _

/-- The paths for which a pass has appended a deleted row. -/
def tombstoned (registry registry' : Registry) (p : Text) : Prop :=
  ∃ row ∈ registry'.rows.drop registry.rows.length, row.deleted = true ∧ row.path = p

/-- A pass tombstones exactly the live paths that its scan does not have. -/
theorem tombstoned_iff {registry registry' : Registry} {disk : Disk} {env : ScanEnv}
    {order : IterationOrder} {faults : IndexFaults} {basePath : Path Name} {namespaceId : Int}
    {b : Bool}
    (h : checkIndexOnce registry disk env order faults basePath namespaceId = (registry', .ok b))
    (p : Text) :
    tombstoned registry registry' p ↔
      p ∈ (registry.nonDeleted namespaceId).map FileRecord.path ∧
        ¬ ∃ rel ∈ eligibleEntries disk env basePath, relativePath rel = p := by
  obtain ⟨fromFs, hscan, hreg, -⟩ := checkIndexOnce_ok h
  obtain ⟨removed, hremoved, hforms⟩ := registry.rows_delete (compareRecords
    (order.db.arrange (getFileRecordsFromRegistry registry namespaceId))
    (order.fs.arrange fromFs) namespaceId).1
  obtain ⟨added, hadded, haforms⟩ := (registry.delete (compareRecords
    (order.db.arrange (getFileRecordsFromRegistry registry namespaceId))
    (order.fs.arrange fromFs) namespaceId).1).rows_create (compareRecords
    (order.db.arrange (getFileRecordsFromRegistry registry namespaceId))
    (order.fs.arrange fromFs) namespaceId).2
  have hdrop : registry'.rows.drop registry.rows.length = removed ++ added := by
    rw [hreg, hadded, hremoved, List.append_assoc, List.drop_left]
  have hpaths : ∀ q, q ∈ (order.fs.arrange fromFs).map CreateForm.path ↔
      ∃ rel ∈ eligibleEntries disk env basePath, relativePath rel = q := by
    intro q
    rw [((order.fs.perm fromFs).map _).mem_iff]
    exact mem_paths_fromDisk hscan q
  rw [tombstoned, hdrop, ← mem_fromRegistry_paths_iff, ← hpaths]
  constructor
  · rintro ⟨row, hrow, hdeleted, hpath⟩
    rcases List.mem_append.mp hrow with hrow | hrow
    · obtain ⟨form, hform, heq⟩ := exists_left_of_forall₂ hforms hrow
      obtain ⟨r, hr, habsent, hbuilt⟩ := (mem_toRemove_iff form).mp hform
      have hrp : r.path = p := by rw [← hpath, heq, ← hbuilt]; rfl
      rw [hrp] at habsent
      exact ⟨List.mem_map.mpr ⟨r, (order.db.mem_arrange _ r).mp hr, hrp⟩, habsent⟩
    · obtain ⟨form, hform, heq⟩ := exists_left_of_forall₂ haforms hrow
      have hmem := (order.fs.mem_arrange _ _).mp (not_deleted_of_mem_toAdd hform)
      rw [heq] at hdeleted
      change form.deleted = true at hdeleted
      rw [(fields_fromDisk hscan form hmem).2.1] at hdeleted
      cases hdeleted
  · rintro ⟨hp, habsent⟩
    obtain ⟨r, hr, hrp⟩ := List.mem_map.mp hp
    have hform : buildDeleteForm r namespaceId ∈ (compareRecords
        (order.db.arrange (getFileRecordsFromRegistry registry namespaceId))
        (order.fs.arrange fromFs) namespaceId).1 :=
      (mem_toRemove_iff _).mpr ⟨r, (order.db.mem_arrange _ r).mpr hr, hrp ▸ habsent, rfl⟩
    obtain ⟨row, hrow, heq⟩ := exists_right_of_forall₂ hforms hform
    exact ⟨row, List.mem_append_left _ hrow, by rw [heq]; rfl, by rw [heq]; exact hrp⟩

/-! ## 3. Tombstones and files that are there -/

theorem relativePath_cons {n : Name} {rel : List Name} (h : rel ≠ []) :
    relativePath (n :: rel) = relativePath rel ++ '/' :: toStringLossy n := by
  cases rel with
  | nil => exact absurd rfl h
  | cons m rel => rfl

theorem relativePath_prefix {pre rel : List Name} (h : pre <:+ rel) (hnil : pre ≠ [])
    (hne : pre ≠ rel) : relativePath pre ++ ['/'] <+: relativePath rel := by
  induction rel with
  | nil => exact absurd (List.suffix_nil.mp h) hnil
  | cons n rel ih =>
    have hsuf : pre <:+ rel := (List.suffix_cons_iff.mp h).resolve_left hne
    have hrel : rel ≠ [] := by
      intro heq
      rw [heq] at hsuf
      exact hnil (List.suffix_nil.mp hsuf)
    have hstep : relativePath rel ++ ['/'] <+: relativePath (n :: rel) := by
      rw [relativePath_cons hrel]
      exact ⟨toStringLossy n, by simp⟩
    by_cases heq : pre = rel
    · rw [heq]
      exact hstep
    · exact (ih hsuf heq).trans ((List.prefix_append _ _).trans hstep)

/-- The path is that of a regular file with an eligible name that is in no dot-directory. -/
def ExistsEligible (disk : Disk) (basePath : Path Name) (p : Text) : Prop :=
  ∃ root rel, walkRoot disk basePath = some root ∧ relativePath rel = p ∧
    (disk.fileAt (rel ++ root)).isSome ∧ filterEligible disk basePath root rel = true ∧
    ∀ n pre, n :: pre <:+ rel → isDotDir disk n (pre ++ root) = false

/-- The walk reports an error on the root, on a directory above the path or on the entry itself. -/
def LiesUnderError (disk : Disk) (env : ScanEnv) (basePath : Path Name) (p : Text) : Prop :=
  walkRoot disk basePath = none ∨
    ∃ root pre, walkRoot disk basePath = some root ∧ reached disk env root pre = true ∧
      env.unwalkable (pre ++ root) = true ∧
      if disk.isDirAt (pre ++ root) then pre = [] ∨ relativePath pre ++ ['/'] <+: p
      else p = relativePath pre

/-- The walk gets to every entry outside the dot-directories, unless it reports an error above. -/
theorem reached_or_error {disk : Disk} (env : ScanEnv) {root : Place Name} {rel : List Name}
    (hsome : (disk.lookup (rel ++ root)).isSome)
    (hdot : ∀ n pre, n :: pre <:+ rel → isDotDir disk n (pre ++ root) = false) :
    reached disk env root rel = true ∨ ∃ pre, pre <:+ rel ∧ pre ≠ rel ∧
      reached disk env root pre = true ∧ env.unwalkable (pre ++ root) = true := by
  induction rel with
  | nil => exact .inl hsome
  | cons n rel ih =>
    have hdir : disk.lookup (rel ++ root) = some .dir := disk.lookup_parent hsome
    have hsuf := List.suffix_cons n rel
    have hne : rel ≠ n :: rel := by simp
    rcases ih (by rw [hdir]; rfl) (fun m pre h ↦ hdot m pre (h.trans hsuf)) with hr | hr
    · by_cases hwalk : env.unwalkable (rel ++ root) = true
      · exact .inr ⟨rel, hsuf, hne, hr, hwalk⟩
      · have hwalk : env.unwalkable (rel ++ root) = false := by simpa using hwalk
        have hhere : (disk.lookup (n :: (rel ++ root))).isSome := hsome
        refine .inl ?_
        rw [reached, hr, (disk.isDirAt_iff _).mpr hdir, hwalk, hhere,
          hdot n rel List.suffix_rfl]
        rfl
    · obtain ⟨pre, hpre, -, hr⟩ := hr
      refine .inr ⟨pre, hpre.trans hsuf, ?_, hr⟩
      intro heq
      have hlen := hpre.length_le
      rw [heq, List.length_cons] at hlen
      omega

/-- A file that is there is met by the walk, or lies under an error. -/
theorem mem_eligibleEntries_of_existsEligible {disk : Disk} (env : ScanEnv)
    {basePath : Path Name} {p : Text} (h : ExistsEligible disk basePath p) :
    (∃ rel ∈ eligibleEntries disk env basePath, relativePath rel = p) ∨
      LiesUnderError disk env basePath p := by
  obtain ⟨root, rel, hroot, hpath, hfile, heligible, hdot⟩ := h
  obtain ⟨data, hdata⟩ := Option.isSome_iff_exists.mp hfile
  have hlookup := (disk.fileAt_eq_some_iff _ _).mp hdata
  have hnotdir : disk.isDirAt (rel ++ root) = false := by
    rw [FileTree.isDirAt_eq_false_iff, hlookup]
    simp
  rcases reached_or_error env (by rw [hlookup]; rfl) hdot with hr | hr
  · by_cases hwalk : env.unwalkable (rel ++ root) = true
    · exact .inr (.inr ⟨root, rel, hroot, hr, hwalk, by rw [hnotdir]; exact hpath.symm⟩)
    · refine .inl ⟨rel, ?_, hpath⟩
      rw [eligibleEntries, hroot, List.mem_filter, mem_walkDir_iff, walked, hr]
      simp [hwalk, heligible]
  · obtain ⟨pre, hsuf, hne, hr, hwalk⟩ := hr
    have hdir : disk.isDirAt (pre ++ root) = true := by
      rw [FileTree.isDirAt_iff]
      refine disk.lookup_of_suffix (k := rel ++ root) (by rw [hlookup]; rfl) ?_ ?_
      · obtain ⟨t, ht⟩ := hsuf
        exact ⟨t, by rw [← ht, List.append_assoc]⟩
      · exact fun heq ↦ hne (List.append_cancel_right heq)
    refine .inr (.inr ⟨root, pre, hroot, hr, hwalk, ?_⟩)
    rw [if_pos hdir]
    by_cases hnil : pre = []
    · exact .inl hnil
    · exact .inr (hpath ▸ relativePath_prefix hsuf hnil hne)

/-- A pass records tombstones only for files that are gone exactly when every live path under an
entry that could not be walked is the path of an entry the walk has met elsewhere. -/
theorem checkIndexOnce_tombstones_iff {registry registry' : Registry} {disk : Disk}
    {env : ScanEnv} {order : IterationOrder} {faults : IndexFaults} {basePath : Path Name}
    {namespaceId : Int} {b : Bool}
    (h : checkIndexOnce registry disk env order faults basePath namespaceId = (registry', .ok b)) :
    (∀ p, tombstoned registry registry' p →
      ¬ ExistsEligible disk basePath p ∧ ¬ LiesUnderError disk env basePath p) ↔
    ∀ r ∈ registry.nonDeleted namespaceId, LiesUnderError disk env basePath r.path →
      ∃ rel ∈ eligibleEntries disk env basePath, relativePath rel = r.path := by
  constructor
  · intro hgone r hr hunder
    by_contra hmet
    have hdead := (tombstoned_iff h r.path).mpr ⟨List.mem_map.mpr ⟨r, hr, rfl⟩, hmet⟩
    exact (hgone r.path hdead).2 hunder
  · intro hcond p hdead
    obtain ⟨hp, hmet⟩ := (tombstoned_iff h p).mp hdead
    obtain ⟨r, hr, rfl⟩ := List.mem_map.mp hp
    have hclear : ¬ LiesUnderError disk env basePath r.path := fun hunder ↦ hmet (hcond r hr hunder)
    refine ⟨fun hthere ↦ ?_, hclear⟩
    rcases mem_eligibleEntries_of_existsEligible env hthere with hm | hunder
    · exact hmet hm
    · exact hclear hunder

-- An example disk and registry: a storage directory `/s` with one recipe, which the registry knows.
def oneRecipe : Disk :=
  (FileTree.root.put [115] [] .dir).put (toUtf8 "a.cook".toList) [[115]] (.file ⟨[], ⟨0, 0⟩⟩)

def oneRecipeRegistry : Registry :=
  Registry.create Table.empty
    [{ jid := some 1, path := "a.cook".toList, deleted := false, size := 0,
       modifiedAt := ⟨0, 0⟩, namespaceId := 1 }]

def readableEnv : ScanEnv := ⟨fun _ ↦ false, fun _ ↦ false, fun _ ↦ (0, ⟨0, 0⟩)⟩

def oneRecipeScan (env : ScanEnv) : Registry × Outcome SyncError Bool :=
  checkIndexOnce oneRecipeRegistry oneRecipe env ⟨.inOrder, .inOrder⟩ ⟨false, false, false⟩
    (parsePath "/s".toList) 1

-- A second recipe of the registry is gone, and beside the first one stands a directory that cannot
-- be read.
def unreadDir : Disk := oneRecipe.put [100] [[115]] .dir

def goneRegistry : Registry :=
  oneRecipeRegistry.create
    [{ jid := some 2, path := "b.cook".toList, deleted := false, size := 0,
       modifiedAt := ⟨0, 0⟩, namespaceId := 1 }]

def unreadEnv : ScanEnv := ⟨(· == [[100], [115]]), fun _ ↦ false, fun _ ↦ (0, ⟨0, 0⟩)⟩

def goneScan : Registry × Outcome SyncError Bool :=
  checkIndexOnce goneRegistry unreadDir unreadEnv ⟨.inOrder, .inOrder⟩ ⟨false, false, false⟩
    (parsePath "/s".toList) 1

theorem checkIndexOnce_tombstones_gone :
    LiesUnderError unreadDir unreadEnv (parsePath "/s".toList) "d/c.cook".toList ∧
      tombstoned goneRegistry goneScan.1 "b.cook".toList ∧
      ∀ p, tombstoned goneRegistry goneScan.1 p →
        ¬ ExistsEligible unreadDir (parsePath "/s".toList) p ∧
          ¬ LiesUnderError unreadDir unreadEnv (parsePath "/s".toList) p := by
  have hroot : walkRoot unreadDir (parsePath "/s".toList) = some [[115]] := by decide
  have hscan : goneScan = (goneScan.1, .ok true) := Prod.ext rfl (by decide +kernel)
  refine ⟨.inr ⟨[[115]], [[100]], hroot, by decide, by decide, by decide⟩,
    ⟨⟨3, none, true, "b.cook".toList, 0, ⟨0, 0⟩, 1⟩, by decide +kernel, rfl, rfl⟩, ?_⟩
  apply (checkIndexOnce_tombstones_iff hscan).mpr
  intro r hr hunder
  have hpaths : ∀ r ∈ goneRegistry.nonDeleted 1, ¬ "d/".toList <+: r.path := by decide
  rcases hunder with hnone | ⟨root, pre, hsome, -, herror, hpre⟩
  · rw [hroot] at hnone
    cases hnone
  · obtain rfl := Option.some.inj (hroot.symm.trans hsome)
    obtain rfl : pre = [[100]] := List.append_cancel_right (beq_iff_eq.mp herror)
    rw [if_pos (by decide)] at hpre
    rcases hpre with hnil | hpre
    · cases hnil
    · exact absurd hpre (hpaths r hr)

-- The recipe is there, and the storage directory cannot be read.
theorem checkIndexOnce_tombstones_unread :
    ¬ ∀ (registry registry' : Registry) (disk : Disk) (env : ScanEnv) (order : IterationOrder)
      (faults : IndexFaults) (basePath : Path Name) (namespaceId : Int) (b : Bool),
      checkIndexOnce registry disk env order faults basePath namespaceId = (registry', .ok b) →
      ∀ p, tombstoned registry registry' p →
        ¬ ExistsEligible disk basePath p ∧ ¬ LiesUnderError disk env basePath p := by
  intro h
  let env : ScanEnv := ⟨(· == [[115]]), fun _ ↦ false, fun _ ↦ (0, ⟨0, 0⟩)⟩
  have hok : (oneRecipeScan env).2 = .ok true := by decide +kernel
  have hrows : ((oneRecipeScan env).1.rows.drop 1).any
      (fun row ↦ row.deleted && row.path == "a.cook".toList) = true := by decide
  obtain ⟨row, hrow, hp⟩ := List.any_eq_true.mp hrows
  rw [Bool.and_eq_true, beq_iff_eq] at hp
  have hdead := h _ _ _ _ _ _ _ _ _ (Prod.ext rfl hok) "a.cook".toList ⟨row, hrow, hp⟩
  exact hdead.1 ⟨[[115]], [toUtf8 "a.cook".toList], by decide, by decide,
    by decide, by decide, by
      intro n pre hpre
      rw [isDotDir, Bool.and_eq_false_iff]
      refine .inl ?_
      rcases List.suffix_cons_iff.mp hpre with heq | hpre
      · rw [(List.cons.inj heq).1, (List.cons.inj heq).2]
        decide
      · exact absurd (List.suffix_nil.mp hpre) (by simp)⟩

end CooklangSync.Client
