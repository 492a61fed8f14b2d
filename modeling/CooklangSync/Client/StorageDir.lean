import CooklangSync.Client.Answers
import CooklangSync.Client.Cache
import CooklangSync.Client.DiskScan
import CooklangSync.Client.IndexPass

/-!
# StorageDir — a storage directory that the indexer and the syncer see alike

The paths that a scan lists and those that a download writes are the same in a storage directory
without links and misleading names: they can be told from the path alone.  A scan without errors is
then a map from these paths to versions.
-/

namespace CooklangSync.Client

open Theory

/-! ## 1. Syncable paths -/

/-- A path that the indexer spells, of a listed format, below directories that are neither hidden
nor named like files. -/
def isSyncablePath (p : Text) : Bool :=
  decide (IsCanonical p) &&
    match (namesOf p).reverse with
    | [] => false
    | n :: above => isEligibleName n && above.all fun m ↦ !startsWithDot m && !isEligibleName m

theorem isSyncablePath_iff (p : Text) :
    isSyncablePath p = true ↔ IsCanonical p ∧ ∃ n above, (namesOf p).reverse = n :: above ∧
      isEligibleName n = true ∧ ∀ m ∈ above, startsWithDot m = false ∧ isEligibleName m = false := by
  rw [isSyncablePath, Bool.and_eq_true, decide_eq_true_eq]
  cases (namesOf p).reverse with
  | nil => simp
  | cons n above => simp

section Syncable

variable {p : Text} (h : isSyncablePath p = true)
include h

theorem canonical_of_syncable : IsCanonical p := ((isSyncablePath_iff p).mp h).1

theorem namesOf_ne_nil_of_syncable : namesOf p ≠ [] := by
  obtain ⟨-, n, above, hnames, -⟩ := (isSyncablePath_iff p).mp h
  intro hnil
  rw [hnil] at hnames
  cases hnames

theorem plain_of_syncable : PlainPath p (namesOf p) := by
  have hne : (namesOf p).reverse ≠ [] := by
    rw [Ne, List.reverse_eq_nil_iff]
    exact namesOf_ne_nil_of_syncable h
  have hnames : ∀ n ∈ (namesOf p).reverse, IsFileName n := fun n hn ↦
    isFileName_of_mem_namesOf (List.mem_reverse.mp hn)
  have hplain := plainPath_relativePath hne hnames
  rwa [show relativePath (namesOf p).reverse = p from canonical_of_syncable h,
    List.reverse_reverse] at hplain

theorem above_of_syncable : ∀ n ∈ (namesOf p).reverse.tail, isEligibleName n = false := by
  obtain ⟨-, n, above, hnames, -, habove⟩ := (isSyncablePath_iff p).mp h
  rw [hnames]
  exact fun m hm ↦ (habove m hm).2

theorem isHashable_of_syncable : Chunker.isHashable p = true := by
  obtain ⟨-, n, above, hnames, hname, -⟩ := (isSyncablePath_iff p).mp h
  have hplain := plain_of_syncable h
  rw [← List.reverse_reverse (namesOf p), hnames] at hplain
  rw [Chunker.isHashable, isEligibleName_of_plain hplain]
  exact hname

theorem isVisible_of_syncable {env : ScanEnv} {base : Place Name}
    (henv : ∀ rel, env.unwalkable (rel ++ base) = false) :
    isVisible env base (namesOf p).reverse = true := by
  obtain ⟨-, n, above, hnames, hname, habove⟩ := (isSyncablePath_iff p).mp h
  have hclear : isClear env base above = true :=
    (isClear_iff env base above).mpr ⟨fun m hm ↦ (habove m hm).1, fun pre _ ↦ henv pre⟩
  rw [hnames, isVisible, hname, hclear, ← List.cons_append, henv]
  rfl

end Syncable

/-! ## 2. The files of a storage directory -/

/-- Below the storage directory there are no links, names can be spelled, and no directory is named
like a file. -/
structure IsStorageDir (disk : Disk) (basePath : Path Name) (base : Place Name) : Prop where
  rooted : Rooted disk basePath base
  tidy : Tidy disk base
  straight : ∀ k, base <:+ k → disk.Straight k

/-- The file of a path of a storage directory. -/
def fileOf (disk : Disk) (base : Place Name) (p : Text) : Option FileData :=
  disk.fileAt ((namesOf p).reverse ++ base)

section Files

variable {disk : Disk} {basePath : Path Name} {base : Place Name}

/-- Joining the base path with a syncable path leads to the file of the path. -/
theorem IsStorageDir.readFile_eq (h : IsStorageDir disk basePath base) (c : Chunker)
    (hbase : c.basePath = basePath) {p : Text} (hp : isSyncablePath p = true) :
    disk.readFile (c.fullPath p) = fileOf disk base p := by
  have hspells : FileTree.Spells c.basePath base := hbase ▸ h.rooted.spells
  exact FileTree.readFile_of_straight disk
    (Chunker.fullPath_spells hspells (plain_of_syncable hp)) (h.straight _ (List.suffix_append _ _))

theorem isSome_lookup_of_fileAt {k : Place Name} {data : FileData}
    (h : disk.fileAt k = some data) : (disk.lookup k).isSome := by
  rw [FileTree.fileAt_eq_some_iff] at h
  rw [h]
  rfl

/-- A file that a scan without errors meets under a canonical path has a syncable one. -/
theorem isSyncablePath_of_visible (htidy : Tidy disk base) {p : Text} (hp : IsCanonical p)
    {env : ScanEnv} (hvisible : isVisible env base (namesOf p).reverse = true) {data : FileData}
    (hfile : fileOf disk base p = some data) : isSyncablePath p = true := by
  cases hnames : (namesOf p).reverse with
  | nil =>
    rw [hnames] at hvisible
    cases hvisible
  | cons n above =>
    rw [hnames, isVisible, Bool.and_eq_true, Bool.and_eq_true] at hvisible
    rw [fileOf, hnames] at hfile
    rw [isSyncablePath_iff]
    refine ⟨hp, n, above, hnames, hvisible.1.1, fun m hm ↦ ?_⟩
    have hclear := (isClear_iff env base above).mp hvisible.1.2
    refine ⟨hclear.1 m hm, ?_⟩
    -- what is above a file is a directory
    obtain ⟨inner, outer, rfl⟩ := List.append_of_mem hm
    apply htidy.dirs m outer
    apply disk.lookup_above (isSome_lookup_of_fileAt hfile)
    exact ⟨inner, by simp⟩

/-- What the files on disk say of a path, when the walk meets no error. -/
theorem diskView_of_walkable (htidy : Tidy disk base) {env : ScanEnv}
    (henv : ∀ rel, env.unwalkable (rel ++ base) = false) (p : Text) :
    diskView disk env base p =
      if isSyncablePath p = true then (fileOf disk base p).map FileData.version else none := by
  rw [diskView]
  by_cases hp : isSyncablePath p = true
  · rw [if_pos hp, if_pos ⟨canonical_of_syncable hp, isVisible_of_syncable hp henv⟩]
    rfl
  · rw [if_neg hp, ite_eq_right_iff]
    rintro ⟨hcanonical, hvisible⟩
    change (fileOf disk base p).map FileData.version = none
    cases hfile : fileOf disk base p with
    | none => rfl
    | some data => exact absurd (isSyncablePath_of_visible htidy hcanonical hvisible hfile) hp

end Files

/-! ## 3. Index passes -/

/-- A pass that reports no change has made none. -/
theorem checkIndexOnce_false {registry : Registry} {disk : Disk} {env : ScanEnv}
    {order : IterationOrder} {faults : IndexFaults} {basePath : Path Name} {namespaceId : Int}
    (h : (checkIndexOnce registry disk env order faults basePath namespaceId).2 = .ok false) :
    checkIndexOnce registry disk env order faults basePath namespaceId = (registry, .ok false) := by
  have heq : checkIndexOnce registry disk env order faults basePath namespaceId =
      ((checkIndexOnce registry disk env order faults basePath namespaceId).1, .ok false) :=
    Prod.ext rfl h
  obtain ⟨fromFs, -, hreg, hchanged⟩ := checkIndexOnce_ok heq
  obtain ⟨hremove, hadd⟩ := hchanged.mp rfl
  rw [hremove, hadd] at hreg
  rw [heq, hreg]
  rfl

/-- A pass that succeeds has scanned the disk, and the live rows are what the scan has. -/
theorem liveView_of_checkIndexOnce {registry registry' : Registry} {disk : Disk} {env : ScanEnv}
    {order : IterationOrder} {faults : IndexFaults} {basePath : Path Name} {namespaceId : Int}
    {b : Bool}
    (h : checkIndexOnce registry disk env order faults basePath namespaceId = (registry', .ok b)) :
    ∃ fromFs, getFileRecordsFromDisk disk env basePath namespaceId = .ok fromFs ∧
      ∀ p, liveView registry' namespaceId p = scanView fromFs p := by
  obtain ⟨fromFs, hscan, hreg, -⟩ := checkIndexOnce_ok h
  have hfs := nodup_fromDisk hscan
  obtain ⟨added, hadded⟩ := appends_of_compare registry namespaceId
    (order.db.nodup_map_arrange _ (nodup_fromRegistry registry namespaceId))
    (order.fs.nodup_map_arrange _ hfs) (dbView_fromRegistry registry namespaceId order.db)
    (fun form hform ↦ fields_fromDisk hscan form ((order.fs.mem_arrange _ _).mp hform))
  rw [← hreg] at hadded
  refine ⟨fromFs, hscan, fun p ↦ ?_⟩
  rw [liveView_of_appends hadded, scanView_arrange hfs]

/-- What a pass that compares with the scan leaves, whether it succeeds or stops half way. -/
def LeavesOf (registry : Registry) (fromFs : List CreateForm) (order : IterationOrder)
    (namespaceId : Int) (registry' : Registry) : Prop :=
  let fromDb := order.db.arrange (getFileRecordsFromRegistry registry namespaceId)
  let r := compareRecords fromDb (order.fs.arrange fromFs) namespaceId
  registry' = registry ∨ registry' = registry.delete r.1 ∨
    registry' = (registry.delete r.1).create r.2

/-- A row that a pass appends has the path of a row that was there, or of an entry of its scan. -/
theorem path_of_compare {registry : Registry} {fromFs : List CreateForm} {namespaceId : Int}
    {order : IterationOrder} {registry' : Registry}
    (hleaves : LeavesOf registry fromFs order namespaceId registry') {row : FileRecord}
    (hrow : row ∈ registry'.rows) :
    row ∈ registry.rows ∨
      (∃ r ∈ registry.rows, r.namespaceId = namespaceId ∧ r.path = row.path) ∨
      row.path ∈ fromFs.map CreateForm.path := by
  obtain ⟨removed, hremoved, hrforms⟩ := registry.rows_delete
    (compareRecords (order.db.arrange (getFileRecordsFromRegistry registry namespaceId))
      (order.fs.arrange fromFs) namespaceId).1
  have hdeleted : row ∈ removed →
      ∃ r ∈ registry.rows, r.namespaceId = namespaceId ∧ r.path = row.path := by
    intro hrow
    obtain ⟨form, hform, heq⟩ := exists_left_of_forall₂ hrforms hrow
    obtain ⟨r, hr, -, rfl⟩ := (mem_toRemove_iff form).mp hform
    have hr' : r.path ∈ (getFileRecordsFromRegistry registry namespaceId).map FileRecord.path :=
      List.mem_map_of_mem ((order.db.mem_arrange _ _).mp hr)
    obtain ⟨live, hlive, hpath⟩ := List.mem_map.mp
      ((mem_fromRegistry_paths_iff registry namespaceId r.path).mp hr')
    obtain ⟨hlatest, -⟩ := (mem_nonDeleted_iff registry namespaceId live r.path).mp ⟨hlive, hpath⟩
    have hmem := (Table.lastOf_eq_some_iff registry _ live).mp hlatest
    have hscope := Table.latestOf_key _ _ registry hlatest
    refine ⟨live, hmem.1, by simpa using hscope.1, ?_⟩
    rw [hpath, heq]
    rfl
  rcases hleaves with rfl | rfl | rfl
  · exact .inl hrow
  · rw [hremoved] at hrow
    exact (List.mem_append.mp hrow).imp_right fun h ↦ .inl (hdeleted h)
  · obtain ⟨added, hadded, haforms⟩ := (registry.delete
      (compareRecords (order.db.arrange (getFileRecordsFromRegistry registry namespaceId))
        (order.fs.arrange fromFs) namespaceId).1).rows_create
      (compareRecords (order.db.arrange (getFileRecordsFromRegistry registry namespaceId))
        (order.fs.arrange fromFs) namespaceId).2
    rw [hadded, hremoved, List.append_assoc] at hrow
    refine (List.mem_append.mp hrow).imp_right fun hrow ↦ ?_
    refine (List.mem_append.mp hrow).imp hdeleted fun hrow ↦ ?_
    obtain ⟨form, hform, heq⟩ := exists_left_of_forall₂ haforms hrow
    rw [heq]
    exact List.mem_map_of_mem (f := CreateForm.path)
      ((order.fs.mem_arrange _ _).mp (not_deleted_of_mem_toAdd hform))

theorem checkIndexOnce_cases (registry : Registry) (disk : Disk) (env : ScanEnv)
    (order : IterationOrder) (faults : IndexFaults) (basePath : Path Name) (namespaceId : Int) :
    (checkIndexOnce registry disk env order faults basePath namespaceId).1 = registry ∨
      ∃ fromFs, getFileRecordsFromDisk disk env basePath namespaceId = .ok fromFs ∧
        LeavesOf registry fromFs order namespaceId
          (checkIndexOnce registry disk env order faults basePath namespaceId).1 := by
  unfold checkIndexOnce
  split
  · exact .inl rfl
  · cases hscan : getFileRecordsFromDisk disk env basePath namespaceId with
    | panic => exact .inl rfl
    | err e => exact .inl rfl
    | ok fromFs =>
      refine .inr ⟨fromFs, rfl, ?_⟩
      simp only
      split
      · exact .inl rfl
      · split
        · exact .inl rfl
        · split
          · exact .inr (.inl rfl)
          · exact .inr (.inr rfl)

section Index

variable {disk : Disk} {basePath : Path Name} {base : Place Name}
  (hdir : IsStorageDir disk basePath base) {registry : Registry} {env : ScanEnv}
  {order : IterationOrder} {faults : IndexFaults} {namespaceId : Int}

include hdir

/-- What a scan without errors has of a path. -/
theorem scanView_of_walkable (henv : ∀ rel, env.unwalkable (rel ++ base) = false)
    {fromFs : List CreateForm}
    (hscan : getFileRecordsFromDisk disk env basePath namespaceId = .ok fromFs) (p : Text) :
    scanView fromFs p =
      if isSyncablePath p = true then (fileOf disk base p).map FileData.version else none := by
  rw [(scanView_eq_diskView hdir.rooted hdir.tidy hscan).2, diskView_of_walkable hdir.tidy henv]

/-- Index passes append rows with syncable paths. -/
theorem syncable_checkIndexOnce (henv : ∀ rel, env.unwalkable (rel ++ base) = false)
    (hrows : ∀ r ∈ registry.rows, r.namespaceId = namespaceId → isSyncablePath r.path = true) :
    ∀ r ∈ (checkIndexOnce registry disk env order faults basePath namespaceId).1.rows,
      r.namespaceId = namespaceId → isSyncablePath r.path = true := by
  rcases checkIndexOnce_cases registry disk env order faults basePath namespaceId with
    hsame | ⟨fromFs, hscan, hleaves⟩
  · rw [hsame]
    exact hrows
  · intro row hrow hns
    rcases path_of_compare hleaves hrow with hold | ⟨r, hr, hrns, hpath⟩ | hnew
    · exact hrows row hold hns
    · rw [← hpath]
      exact hrows r hr hrns
    · have hsome : scanView fromFs row.path ≠ none := by
        rw [scanView, Ne, Option.map_eq_none_iff, getKey_eq_none_iff]
        exact not_not_intro hnew
      rw [scanView_of_walkable hdir henv hscan] at hsome
      by_contra hno
      exact hsome (if_neg hno)

end Index

/-! ## 4. Contents -/

/-- The store that has the same bytes under every id at all times. -/
def whole (bytesOf : Text → Bytes) (id : Text) : Option Bytes := some (bytesOf id)

/-- Every piece of the file is found again under its id. -/
def Resolves (sha256 : Bytes → Text) (bytesOf : Text → Bytes) (path : Text) (content : Bytes) :
    Prop :=
  ∀ reads, ∀ data ∈ Chunker.pieces reads path content,
    bytesOf (Chunker.hash sha256 data (Chunker.hashSize path)) = data

section Contents

variable {sha256 : Bytes → Text} {bytesOf : Text → Bytes} {path : Text} {content : Bytes}

theorem Resolves.tellsApart (h : Resolves sha256 bytesOf path content) :
    Chunker.TellsApart sha256 (whole bytesOf) path content := by
  intro reads data hdata stored hstored
  rw [← Option.some.inj hstored, h reads data hdata]

/-- The ids of a file stand for its content. -/
theorem Resolves.contentOf_chunkIds (hdigest : IsHexDigest sha256)
    (h : Resolves sha256 bytesOf path content) (reads : Chunker.ReadEnv) :
    contentOf (whole bytesOf) (List.intercalate [','] (Chunker.chunkIds sha256 reads path content)) =
      content := by
  have hflat := Chunker.flatten_pieces reads path content
  rw [contentOf, Chunker.chunkIds, Chunker.splitOn_join hdigest]
  by_cases hnil : Chunker.pieces reads path content = []
  · rw [if_pos hnil]
    rw [hnil] at hflat
    exact hflat
  · rw [if_neg hnil, List.flatMap_map]
    conv_rhs => rw [← hflat, ← List.flatMap_id]
    apply List.flatMap_congr
    intro data hdata
    rw [storedBytes, if_neg (Chunker.hash_ne_nil hdigest data path)]
    exact h reads data hdata

/-- A store that has the chunks has the content. -/
theorem contentOf_eq_whole {store : Text → Option Bytes}
    (hstore : ∀ id data, store id = some data → data = bytesOf id) {chunkIds : Text}
    (hids : ∀ id ∈ chunkIds.splitOn ',', id ≠ [] → (store id).isSome) :
    contentOf store chunkIds = contentOf (whole bytesOf) chunkIds := by
  apply List.flatMap_congr
  intro id hid
  by_cases hnil : id = []
  · rw [storedBytes, storedBytes, if_pos hnil, if_pos hnil]
  · obtain ⟨data, hdata⟩ := Option.isSome_iff_exists.mp (hids id hid hnil)
    rw [storedBytes, storedBytes, if_neg hnil, if_neg hnil, hdata, hstore id data hdata]
    rfl

/-- Hashing the file of a row keeps the cache right. -/
theorem agreesWith_hashFile {s : ClientState} (hagrees : s.chunker.AgreesWith (whole bytesOf))
    {f : FileRecord} (hfile : ∀ file, s.disk.readFile (s.chunker.fullPath f.path) = some file →
      Resolves sha256 bytesOf f.path file.content) (reads : Chunker.ReadEnv) :
    (Syncer.hashFile sha256 reads s f).1.AgreesWith (whole bytesOf) := by
  have hhash : (s.chunker.hashify sha256 s.disk reads f.path).1.AgreesWith (whole bytesOf) :=
    hagrees.hashify (fun file h ↦ (hfile file h).tellsApart) reads
  rw [Syncer.hashFile]
  split
  · exact hagrees
  · generalize Chunker.hashify sha256 s.chunker s.disk reads f.path = r at hhash
    obtain ⟨c, outcome⟩ := r
    cases outcome <;> exact hhash

end Contents

end CooklangSync.Client
