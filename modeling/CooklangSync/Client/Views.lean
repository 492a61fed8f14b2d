import CooklangSync.Client.Scan

/-!
# Views — what the registry and a scan say of every path

An index pass compares two maps from paths to sizes and times, and finds nothing to do when they
agree on every path.  On a tidy storage directory the map of the scan is read off the files: the
names of an entry are found again in its path.
-/

namespace CooklangSync.Client

open Theory

/-! ## 1. Names and canonical paths -/

/-- A name that a path can spell: UTF-8, without a separator, and neither `.` nor `..`. -/
def IsFileName (n : Name) : Prop :=
  ∃ t : Text, n = toUtf8 t ∧ t ≠ [] ∧ t ≠ ['.'] ∧ t ≠ ['.', '.'] ∧ '/' ∉ t

/-- The path as the indexer spells it. -/
def IsCanonical (p : Text) : Prop := relativePath (namesOf p).reverse = p

theorem splitOn_relativePath {rel : List Name} (hrel : rel ≠ []) (h : ∀ n ∈ rel, IsFileName n) :
    (relativePath rel).splitOn '/' = rel.reverse.map toStringLossy := by
  induction rel with
  | nil => exact absurd rfl hrel
  | cons n rel ih =>
    have hname : (toStringLossy n).splitOn '/' = [toStringLossy n] := by
      obtain ⟨t, ht, -, -, -, hslash⟩ := h n List.mem_cons_self
      rw [ht, toStringLossy_toUtf8]
      exact List.splitOn_eq_singleton hslash
    by_cases hnil : rel = []
    · rw [hnil]
      exact hname
    · have hrec := ih hnil fun m hm ↦ h m (List.mem_cons_of_mem n hm)
      rw [relativePath_cons hnil, List.splitOn_append_cons_self, hrec, hname]
      simp

theorem nil_mem_splitOn_of_head {t : Text} (h : t.head? = some '/') : [] ∈ t.splitOn '/' := by
  cases t with
  | nil => cases h
  | cons c t =>
    rw [List.head?_cons, Option.some.injEq] at h
    rw [h, List.splitOn_cons_eq_if_modifyHead, if_pos (by rfl)]
    exact List.mem_cons_self

/-- The path of an entry spells the names of the entry. -/
theorem plainPath_relativePath {rel : List Name} (hrel : rel ≠ []) (h : ∀ n ∈ rel, IsFileName n) :
    PlainPath (relativePath rel) rel.reverse := by
  have hcomps : ∀ l : List Name, (∀ n ∈ l, IsFileName n) →
      ((l.map toStringLossy).filterMap fun piece ↦
        if piece = [] ∨ piece = ['.'] then none
        else if piece = ['.', '.'] then some Comp.parent
        else some (Comp.normal (toUtf8 piece))) = l.map Comp.normal := by
    intro l hl
    induction l with
    | nil => rfl
    | cons n l ih =>
      obtain ⟨t, ht, hne, hdot, hdots, -⟩ := hl n List.mem_cons_self
      have hrec := ih fun m hm ↦ hl m (List.mem_cons_of_mem n hm)
      rw [List.map_cons, List.filterMap_cons, hrec, ht, toStringLossy_toUtf8,
        if_neg (by simp [hne, hdot]), if_neg hdots]
      rfl
  -- no piece of the path is empty or a dot
  have hpiece : ∀ piece ∈ rel.reverse.map toStringLossy, piece ≠ [] ∧ piece ≠ ['.'] := by
    intro piece hmem
    obtain ⟨n, hn, rfl⟩ := List.mem_map.mp hmem
    obtain ⟨t, ht, hne, hdot, -⟩ := h n (List.mem_reverse.mp hn)
    rw [ht, toStringLossy_toUtf8]
    exact ⟨hne, hdot⟩
  have hlast : (rel.reverse.map toStringLossy).getLastD [] ∈ rel.reverse.map toStringLossy := by
    obtain ⟨n, above, rfl⟩ := List.exists_cons_of_ne_nil hrel
    rw [List.reverse_cons, List.map_append, List.map_cons, List.map_nil, List.getLastD_concat]
    exact List.mem_append_right _ List.mem_cons_self
  have hhead : (relativePath rel).head? ≠ some '/' := by
    intro hslash
    have hnil := nil_mem_splitOn_of_head hslash
    rw [splitOn_relativePath hrel h] at hnil
    exact (hpiece [] hnil).1 rfl
  rw [PlainPath, parsePath, splitOn_relativePath hrel h,
    hcomps _ fun n hn ↦ h n (List.mem_reverse.mp hn)]
  simp only [hhead, (hpiece _ hlast).1, (hpiece _ hlast).2, or_self, decide_false]

/-- The names of an entry are found again in its path. -/
theorem namesOf_relativePath {rel : List Name} (hrel : rel ≠ []) (h : ∀ n ∈ rel, IsFileName n) :
    namesOf (relativePath rel) = rel.reverse := by
  rw [namesOf, plainPath_relativePath hrel h, List.filterMap_map]
  exact List.filterMap_some

theorem isCanonical_relativePath {rel : List Name} (hrel : rel ≠ [])
    (h : ∀ n ∈ rel, IsFileName n) : IsCanonical (relativePath rel) := by
  rw [IsCanonical, namesOf_relativePath hrel h, List.reverse_reverse]

theorem slash_not_mem_splitOn {t piece : Text} (h : piece ∈ t.splitOn '/') : '/' ∉ piece := by
  induction t generalizing piece with
  | nil =>
    rw [List.splitOn_nil, List.mem_singleton] at h
    rw [h]
    simp
  | cons c t ih =>
    rw [List.splitOn_cons_eq_if_modifyHead] at h
    obtain ⟨p, ps, hp⟩ := List.exists_cons_of_ne_nil (List.splitOn_ne_nil '/' t)
    rw [hp] at h ih
    split at h
    · rcases List.mem_cons.mp h with h | h
      · rw [h]
        simp
      · exact ih h
    · rename_i hc
      rcases List.mem_cons.mp h with h | h
      · rw [h, List.mem_cons, not_or]
        exact ⟨fun heq ↦ hc (by simp [← heq]), ih List.mem_cons_self⟩
      · exact ih (List.mem_cons_of_mem p h)

/-- The names a path spells are file names. -/
theorem isFileName_of_mem_namesOf {p : Text} {n : Name} (h : n ∈ namesOf p) : IsFileName n := by
  rw [namesOf, parsePath, List.mem_filterMap] at h
  obtain ⟨comp, hcomp, hn⟩ := h
  obtain ⟨piece, hpiece, hcomp⟩ := List.mem_filterMap.mp hcomp
  have hslash := slash_not_mem_splitOn hpiece
  split at hcomp
  · cases hcomp
  · rename_i hdot
    rw [not_or] at hdot
    split at hcomp
    · cases hcomp
      cases hn
    · rename_i hdots
      cases hcomp
      cases hn
      exact ⟨piece, rfl, hdot.1, hdot.2, hdots, hslash⟩

/-! ## 2. The two maps -/

/-- The size and the time of a file, as both maps have them. -/
abbrev Version := Int × OffsetDateTime

/-- What the registry has for a live path. -/
def liveView (registry : Registry) (namespaceId : Int) (p : Text) : Option Version :=
  match registry.latestOf (·.namespaceId == namespaceId) FileRecord.path p with
  | some r => if r.deleted then none else some (r.size, r.modifiedAt)
  | none => none

def dbView (fromDb : List FileRecord) (p : Text) : Option Version :=
  (getKey FileRecord.path fromDb p).map fun r ↦ (r.size, r.modifiedAt)

def scanView (fromFs : List CreateForm) (p : Text) : Option Version :=
  (getKey CreateForm.path fromFs p).map fun form ↦ (form.size, form.modifiedAt)

theorem sameAs_iff {r : FileRecord} {form : CreateForm} (h : r.path = form.path) :
    r.sameAs form = true ↔ r.size = form.size ∧ r.modifiedAt = form.modifiedAt := by
  simp [FileRecord.sameAs, h]

/-- The comparison finds nothing when the maps agree on every path. -/
theorem compareRecords_eq_nil_iff {fromDb : List FileRecord} {fromFs : List CreateForm}
    (hdb : (fromDb.map FileRecord.path).Nodup) (hfs : (fromFs.map CreateForm.path).Nodup)
    (namespaceId : Int) :
    ((compareRecords fromDb fromFs namespaceId).1 = [] ∧
      (compareRecords fromDb fromFs namespaceId).2 = []) ↔
    ∀ p, dbView fromDb p = scanView fromFs p := by
  have hget_db := fun p r ↦ getKey_eq_some_iff FileRecord.path hdb p r
  have hget_fs := fun p form ↦ getKey_eq_some_iff CreateForm.path hfs p form
  simp only [compareRecords, List.append_eq_nil_iff, List.filterMap_eq_nil_iff,
    List.filter_eq_nil_iff]
  constructor
  · rintro ⟨hremove, hchanged, hnew⟩ p
    rw [dbView, scanView]
    cases hr : getKey FileRecord.path fromDb p with
    | none =>
      cases hf : getKey CreateForm.path fromFs p with
      | none => rfl
      | some form =>
        have hmem := (hget_fs p form).mp hf
        have hno := hnew form hmem.1
        rw [hmem.2, hr] at hno
        simp at hno
    | some r =>
      have hmem := (hget_db p r).mp hr
      have hthere := hremove r hmem.1
      have hsame := hchanged r hmem.1
      rw [hmem.2] at hthere hsame
      cases hf : getKey CreateForm.path fromFs p with
      | none => simp [hf] at hthere
      | some form =>
        have hpath := ((hget_fs p form).mp hf).2
        simp only [hf, ite_eq_left_iff, reduceCtorEq, imp_false, not_not] at hsame
        rw [sameAs_iff (hmem.2.trans hpath.symm)] at hsame
        simp [hsame]
  · intro h
    have hfound : ∀ r ∈ fromDb, ∃ form, getKey CreateForm.path fromFs r.path = some form ∧
        r.sameAs form = true := by
      intro r hr
      have hview := h r.path
      rw [dbView, scanView, (hget_db r.path r).mpr ⟨hr, rfl⟩] at hview
      cases hf : getKey CreateForm.path fromFs r.path with
      | none => simp [hf] at hview
      | some form =>
        have hpath := ((hget_fs r.path form).mp hf).2
        refine ⟨form, rfl, (sameAs_iff hpath.symm).mpr ?_⟩
        simpa [hf] using hview
    refine ⟨fun r hr ↦ ?_, fun r hr ↦ ?_, fun form hform ↦ ?_⟩
    · obtain ⟨form, hf, -⟩ := hfound r hr
      rw [hf]
    · obtain ⟨form, hf, hsame⟩ := hfound r hr
      simp only [hf, if_pos hsame]
    · have hview := h form.path
      rw [dbView, scanView, (hget_fs form.path form).mpr ⟨hform, rfl⟩] at hview
      cases hr : getKey FileRecord.path fromDb form.path with
      | none => simp [hr] at hview
      | some r => simp

theorem nodup_fromRegistry (registry : Registry) (namespaceId : Int) :
    ((getFileRecordsFromRegistry registry namespaceId).map FileRecord.path).Nodup :=
  nodup_map_keepLast _ _

theorem mem_nonDeleted_iff (registry : Registry) (namespaceId : Int) (r : FileRecord) (p : Text) :
    r ∈ registry.nonDeleted namespaceId ∧ r.path = p ↔
      registry.latestOf (·.namespaceId == namespaceId) FileRecord.path p = some r ∧
        r.deleted = false := by
  rw [Registry.nonDeleted, List.mem_filter, Table.mem_latest_iff, Bool.not_eq_true']
  constructor
  · rintro ⟨⟨hlatest, hdel⟩, hp⟩
    exact ⟨hp ▸ hlatest, hdel⟩
  · rintro ⟨hlatest, hdel⟩
    have hp := (registry.latestOf_key _ _ hlatest).2
    exact ⟨⟨hp.symm ▸ hlatest, hdel⟩, hp⟩

/-- The map of the registry is the view of its live rows. -/
theorem dbView_fromRegistry (registry : Registry) (namespaceId : Int)
    (order : Arrangement FileRecord) (p : Text) :
    dbView (order.arrange (getFileRecordsFromRegistry registry namespaceId)) p =
      liveView registry namespaceId p := by
  have hnodup := order.nodup_map_arrange FileRecord.path (nodup_fromRegistry registry namespaceId)
  rw [dbView, liveView]
  cases hr : getKey FileRecord.path
      (order.arrange (getFileRecordsFromRegistry registry namespaceId)) p with
  | some r =>
    have hmem := (getKey_eq_some_iff _ hnodup p r).mp hr
    rw [order.mem_arrange] at hmem
    have hlatest := (mem_nonDeleted_iff registry namespaceId r p).mp
      ⟨mem_of_mem_keepLast _ hmem.1, hmem.2⟩
    rw [hlatest.1]
    simp [hlatest.2]
  | none =>
    have hno : p ∉ (registry.nonDeleted namespaceId).map FileRecord.path := by
      rw [← mem_fromRegistry_paths_iff, ← ((order.perm _).map _).mem_iff]
      exact (getKey_eq_none_iff _ _ p).mp hr
    cases hlatest : registry.latestOf (·.namespaceId == namespaceId) FileRecord.path p with
    | none => rfl
    | some r =>
      cases hdel : r.deleted with
      | true => simp [hdel]
      | false =>
        have hmem := (mem_nonDeleted_iff registry namespaceId r p).mpr ⟨hlatest, hdel⟩
        exact absurd (List.mem_map.mpr ⟨r, hmem⟩) hno

theorem nodup_fromDisk {disk : Disk} {env : ScanEnv} {basePath : Path Name} {namespaceId : Int}
    {fromFs : List CreateForm}
    (h : getFileRecordsFromDisk disk env basePath namespaceId = .ok fromFs) :
    (fromFs.map CreateForm.path).Nodup := by
  obtain ⟨records, -, h⟩ := Outcome.bind_eq_ok h
  cases h
  exact nodup_map_keepLast _ _

theorem scanView_arrange {fromFs : List CreateForm} (h : (fromFs.map CreateForm.path).Nodup)
    (order : Arrangement CreateForm) (p : Text) :
    scanView (order.arrange fromFs) p = scanView fromFs p := by
  have hsame : ∀ form, getKey CreateForm.path (order.arrange fromFs) p = some form ↔
      getKey CreateForm.path fromFs p = some form := by
    intro form
    rw [getKey_eq_some_iff _ (order.nodup_map_arrange _ h), getKey_eq_some_iff _ h,
      order.mem_arrange]
  rw [scanView, scanView, Option.ext hsame]

/-- A pass has nothing to do when the scan succeeds and agrees with the live rows. -/
theorem checkIndexOnce_idle_iff (registry : Registry) (disk : Disk) (env : ScanEnv)
    (order : IterationOrder) {faults : IndexFaults} (hfaults : faults.nonDeleted = false)
    (basePath : Path Name) (namespaceId : Int) :
    checkIndexOnce registry disk env order faults basePath namespaceId = (registry, .ok false) ↔
      ∃ fromFs, getFileRecordsFromDisk disk env basePath namespaceId = .ok fromFs ∧
        ∀ p, liveView registry namespaceId p = scanView fromFs p := by
  have hcompare : ∀ fromFs, getFileRecordsFromDisk disk env basePath namespaceId = .ok fromFs →
      (((compareRecords (order.db.arrange (getFileRecordsFromRegistry registry namespaceId))
          (order.fs.arrange fromFs) namespaceId).1 = [] ∧
        (compareRecords (order.db.arrange (getFileRecordsFromRegistry registry namespaceId))
          (order.fs.arrange fromFs) namespaceId).2 = []) ↔
      ∀ p, liveView registry namespaceId p = scanView fromFs p) := by
    intro fromFs hscan
    have hfs := nodup_fromDisk hscan
    rw [compareRecords_eq_nil_iff
      (order.db.nodup_map_arrange _ (nodup_fromRegistry registry namespaceId))
      (order.fs.nodup_map_arrange _ hfs)]
    simp only [dbView_fromRegistry, scanView_arrange hfs]
  constructor
  · intro h
    obtain ⟨fromFs, hscan, -, hnil⟩ := checkIndexOnce_ok h
    exact ⟨fromFs, hscan, (hcompare fromFs hscan).mp (hnil.mp rfl)⟩
  · rintro ⟨fromFs, hscan, hagree⟩
    rw [checkIndexOnce, if_neg (by simp [hfaults]), hscan]
    exact if_pos ((hcompare fromFs hscan).mpr hagree)

/-- Where the views agree, the live paths are those of the entries of the scan. -/
theorem isSome_liveView_iff {registry : Registry} {disk : Disk} {env : ScanEnv}
    {basePath : Path Name} {namespaceId : Int} {fromFs : List CreateForm}
    (hscan : getFileRecordsFromDisk disk env basePath namespaceId = .ok fromFs)
    (hagree : ∀ p, liveView registry namespaceId p = scanView fromFs p) (p : Text) :
    (liveView registry namespaceId p).isSome ↔
      ∃ rel ∈ eligibleEntries disk env basePath, relativePath rel = p := by
  rw [hagree, scanView, Option.isSome_map, ← mem_paths_fromDisk hscan, ← Option.ne_none_iff_isSome,
    Ne, getKey_eq_none_iff, not_not]

/-! ## 3. The entries below a storage directory -/

def isEligibleName (n : Name) : Bool :=
  isText { absolute := false, comps := [.normal n], trailing := false } ||
    isBinary { absolute := false, comps := [.normal n], trailing := false }

/-- The walk goes through the directories, of which none is pruned or unreadable. -/
def isClear (env : ScanEnv) (base : Place Name) : List Name → Bool
  | [] => !env.unwalkable base
  | n :: rel => isClear env base rel && !startsWithDot n && !env.unwalkable (n :: (rel ++ base))

/-- The scan meets a file with this relative name. -/
def isVisible (env : ScanEnv) (base : Place Name) : List Name → Bool
  | [] => false
  | n :: rel => isEligibleName n && isClear env base rel && !env.unwalkable (n :: (rel ++ base))

/-- The base path leads to its place without links, and is not taken for a file. -/
structure Rooted (disk : Disk) (basePath : Path Name) (base : Place Name) : Prop where
  spells : FileTree.Spells basePath base
  straight : disk.Straight base
  ineligible : (isText basePath || isBinary basePath) = false

theorem isText_congr {p q : Path Name} (h : p.fileName = q.fileName) : isText p = isText q := by
  rw [isText, isText, hasExtension, hasExtension, h]

theorem isBinary_congr {p q : Path Name} (h : p.fileName = q.fileName) :
    isBinary p = isBinary q := by
  rw [isBinary, isBinary, hasExtension, hasExtension, h]

theorem isEligibleName_of_fileName {p : Path Name} {n : Name} (h : p.fileName = some n) :
    (isText p || isBinary p) = isEligibleName n := by
  have hsame : p.fileName =
      { absolute := false, comps := [.normal n], trailing := false : Path Name }.fileName := h
  rw [isEligibleName, isText_congr hsame, isBinary_congr hsame]

theorem fileName_entryPath (basePath : Path Name) (n : Name) (rel : List Name) :
    (entryPath basePath (n :: rel)).fileName = some n := by
  rw [entryPath, if_neg (by simp), Path.fileName]
  simp

theorem filterEligible_cons (disk : Disk) (basePath : Path Name) (base : Place Name) (n : Name)
    (rel : List Name) : filterEligible disk basePath base (n :: rel) =
      (!disk.isLinkAt (n :: (rel ++ base)) && isEligibleName n) := by
  have hlink : isSymlink disk basePath base (n :: rel) = disk.isLinkAt (n :: (rel ++ base)) := by
    rw [isSymlink, if_neg (by simp), FileTree.isLinkAt, List.cons_append]
    dsimp only
    cases disk.lookup (n :: (rel ++ base)) with
    | none => rfl
    | some node => cases node <;> rfl
  rw [filterEligible, hlink, isEligibleName_of_fileName (fileName_entryPath basePath n rel)]
  cases disk.isLinkAt (n :: (rel ++ base)) <;> rfl

theorem filterEligible_nil {disk : Disk} {basePath : Path Name} {base : Place Name}
    (h : Rooted disk basePath base) : filterEligible disk basePath base [] = false := by
  have hplain : (isText (entryPath basePath []) || isBinary (entryPath basePath [])) = false :=
    h.ineligible
  rw [filterEligible, hplain]
  split <;> rfl

theorem walkRoot_of_rooted {disk : Disk} {basePath : Path Name} {base : Place Name}
    (h : Rooted disk basePath base) :
    walkRoot disk basePath = if (disk.lookup base).isSome then some base else none := by
  rw [walkRoot, disk.resolve_of_straight true h.spells.1 h.straight]
  cases hbase : disk.lookup base with
  | some node => rw [disk.locate_of_isSome (by rw [hbase]; rfl)]; rfl
  | none =>
    cases base with
    | nil => rw [disk.lookup_nil] at hbase; cases hbase
    | cons n k =>
      rw [FileTree.locate, if_neg (by simp [hbase])]
      by_cases hk : disk.isDirAt k = true <;> simp [hk]

theorem reached_of_dir {disk : Disk} {base : Place Name} {rel : List Name} (env : ScanEnv)
    (h : disk.lookup (rel ++ base) = some .dir) :
    (reached disk env base rel && !env.unwalkable (rel ++ base)) = isClear env base rel := by
  induction rel with
  | nil =>
    have hbase : disk.lookup base = some .dir := h
    simp [reached, isClear, hbase]
  | cons n rel ih =>
    have hparent : disk.lookup (rel ++ base) = some .dir :=
      disk.lookup_parent (n := n) (by rw [show n :: (rel ++ base) = n :: rel ++ base from rfl, h]; rfl)
    have hhere : disk.lookup (n :: (rel ++ base)) = some .dir := h
    have hdot : isDotDir disk n (rel ++ base) = startsWithDot n := by
      rw [isDotDir, (disk.isDirAt_iff _).mpr hhere, Bool.true_and]
    rw [reached, isClear, ← ih hparent, (disk.isDirAt_iff _).mpr hparent, hhere, hdot]
    simp

/-- The entries of a scan are the visible files, and the directories that look like files. -/
theorem mem_eligibleEntries_iff {disk : Disk} {basePath : Path Name} {base : Place Name}
    (h : Rooted disk basePath base) (env : ScanEnv) (rel : List Name) :
    rel ∈ eligibleEntries disk env basePath ↔
      (isVisible env base rel = true ∧ (disk.fileAt (rel ++ base)).isSome) ∨
      ∃ n above, rel = n :: above ∧ disk.lookup (rel ++ base) = some .dir ∧
        isEligibleName n = true ∧ isClear env base above = true ∧ startsWithDot n = false := by
  cases hbase : disk.lookup base with
  | none =>
    have hnone : disk.lookup (rel ++ base) = none :=
      disk.lookup_eq_none_of_suffix hbase (List.suffix_append _ _)
    rw [eligibleEntries, walkRoot_of_rooted h, hbase, FileTree.fileAt, hnone]
    simp
  | some node =>
    rw [eligibleEntries, walkRoot_of_rooted h, hbase]
    show rel ∈ (walkDir disk env base).filter (filterEligible disk basePath base) ↔ _
    rw [List.mem_filter, mem_walkDir_iff]
    cases rel with
    | nil => simp [filterEligible_nil h, isVisible]
    | cons n above =>
      have happ : n :: above ++ base = n :: (above ++ base) := rfl
      rw [walked, reached, filterEligible_cons, happ, isVisible]
      cases hhere : disk.lookup (n :: (above ++ base)) with
      | none => simp [FileTree.fileAt, hhere]
      | some node =>
        have hparent : disk.lookup (above ++ base) = some .dir :=
          disk.lookup_parent (by rw [hhere]; rfl)
        have hclear := reached_of_dir env hparent
        rw [(disk.isDirAt_iff _).mpr hparent]
        cases node with
        | symlink target => simp [FileTree.fileAt, FileTree.isLinkAt, hhere]
        | file data =>
          simp [FileTree.fileAt, FileTree.isLinkAt, FileTree.isDirAt, isDotDir, hhere, ← hclear,
            and_assoc, and_comm, and_left_comm]
        | dir =>
          simp [FileTree.fileAt, FileTree.isLinkAt, FileTree.isDirAt, isDotDir, hhere, ← hclear,
            and_assoc, and_comm, and_left_comm]

/-! ## 4. What a scan says of a tidy directory -/

/-- The names below the storage directory can be spelled, and no directory there looks like a
file. -/
structure Tidy (disk : Disk) (base : Place Name) : Prop where
  names : ∀ rel, (disk.lookup (rel ++ base)).isSome → ∀ n ∈ rel, IsFileName n
  dirs : ∀ n rel, disk.lookup (n :: (rel ++ base)) = some .dir → isEligibleName n = false

def FileData.version (data : FileData) : Version :=
  (data.content.length, truncateToSeconds data.modified)

instance (p : Text) : Decidable (IsCanonical p) := inferInstanceAs (Decidable (_ = _))

/-- What the files on disk say of a path. -/
def diskView (disk : Disk) (env : ScanEnv) (base : Place Name) (p : Text) : Option Version :=
  if IsCanonical p ∧ isVisible env base (namesOf p).reverse = true then
    (disk.fileAt ((namesOf p).reverse ++ base)).map FileData.version
  else none

/-- The metadata of every file of the scan can be read. -/
def Readable (disk : Disk) (env : ScanEnv) (base : Place Name) : Prop :=
  ∀ rel, isVisible env base rel = true → (disk.fileAt (rel ++ base)).isSome →
    env.metadataFails (rel ++ base) = false

section Tidy

variable {disk : Disk} {basePath : Path Name} {base : Place Name}

theorem ne_nil_of_isVisible {env : ScanEnv} {rel : List Name} (h : isVisible env base rel = true) :
    rel ≠ [] := by
  intro hnil
  rw [hnil] at h
  cases h

theorem mem_eligibleEntries_of_tidy (hroot : Rooted disk basePath base) (htidy : Tidy disk base)
    (env : ScanEnv) (rel : List Name) : rel ∈ eligibleEntries disk env basePath ↔
      isVisible env base rel = true ∧ (disk.fileAt (rel ++ base)).isSome := by
  rw [mem_eligibleEntries_iff hroot, or_iff_left]
  rintro ⟨n, above, hrel, hdir, heligible, _⟩
  rw [hrel] at hdir
  rw [htidy.dirs n above hdir] at heligible
  cases heligible

theorem walkRoot_of_mem_entries (hroot : Rooted disk basePath base) {env : ScanEnv}
    {rel : List Name} (h : rel ∈ eligibleEntries disk env basePath) :
    walkRoot disk basePath = some base := by
  rw [walkRoot_of_rooted hroot]
  split
  · rfl
  · rename_i hnone
    rw [eligibleEntries, walkRoot_of_rooted hroot, if_neg hnone] at h
    cases h

theorem buildFileRecord_of_file {env : ScanEnv} {namespaceId : Int} {rel : List Name}
    {data : FileData} (h : disk.fileAt (rel ++ base) = some data) :
    buildFileRecord disk env basePath base namespaceId rel =
      if env.metadataFails (rel ++ base) then
        .err (.ioError (displayPath (entryPath basePath rel)))
      else .ok
        { jid := none, path := relativePath rel, deleted := false, size := data.version.1,
          modifiedAt := data.version.2, namespaceId := namespaceId } := by
  have hlookup := (disk.fileAt_eq_some_iff _ _).mp h
  rw [buildFileRecord, hlookup]
  rfl

/-- The scan of a tidy directory that succeeds is the view of its files. -/
theorem scanView_eq_diskView (hroot : Rooted disk basePath base) (htidy : Tidy disk base)
    {env : ScanEnv} {namespaceId : Int} {fromFs : List CreateForm}
    (h : getFileRecordsFromDisk disk env basePath namespaceId = .ok fromFs) :
    Readable disk env base ∧ ∀ p, scanView fromFs p = diskView disk env base p := by
  have hkeys := nodup_fromDisk h
  have hpaths := mem_paths_fromDisk h
  have hentries := mem_eligibleEntries_of_tidy hroot htidy env
  obtain ⟨records, hrecords, hkeep⟩ := Outcome.bind_eq_ok h
  cases hkeep
  have hall := buildFileRecords_ok hrecords
  -- every record is that of a visible file
  have hbuilt : ∀ rel form,
      rel ∈ eligibleEntries disk env basePath →
      buildFileRecord disk env basePath ((walkRoot disk basePath).getD []) namespaceId rel = .ok form →
      env.metadataFails (rel ++ base) = false ∧ ∃ data, disk.fileAt (rel ++ base) = some data ∧
        form.path = relativePath rel ∧ (form.size, form.modifiedAt) = data.version := by
    intro rel form hrel hform
    obtain ⟨data, hdata⟩ := Option.isSome_iff_exists.mp ((hentries rel).mp hrel).2
    rw [walkRoot_of_mem_entries hroot hrel, Option.getD_some, buildFileRecord_of_file hdata] at hform
    split at hform
    · cases hform
    · rename_i hmeta
      cases hform
      exact ⟨by simpa using hmeta, data, hdata, rfl, rfl⟩
  have hnames : ∀ rel, rel ∈ eligibleEntries disk env basePath → rel ≠ [] ∧
      ∀ n ∈ rel, IsFileName n := by
    intro rel hrel
    obtain ⟨hvisible, hfile⟩ := (hentries rel).mp hrel
    obtain ⟨data, hdata⟩ := Option.isSome_iff_exists.mp hfile
    have hlookup := (disk.fileAt_eq_some_iff _ _).mp hdata
    exact ⟨ne_nil_of_isVisible hvisible, htidy.names rel (by rw [hlookup]; rfl)⟩
  refine ⟨fun rel hvisible hfile ↦ ?_, fun p ↦ ?_⟩
  · have hrel := (hentries rel).mpr ⟨hvisible, hfile⟩
    obtain ⟨form, -, hform⟩ := exists_right_of_forall₂ hall hrel
    exact (hbuilt rel form hrel hform).1
  · cases hget : getKey CreateForm.path (keepLast CreateForm.path records) p with
    | some form =>
      obtain ⟨hmem, hp⟩ := (getKey_eq_some_iff _ hkeys p form).mp hget
      obtain ⟨rel, hrel, hform⟩ :=
        exists_left_of_forall₂ hall (mem_of_mem_keepLast _ hmem)
      obtain ⟨-, data, hdata, hpath, hversion⟩ := hbuilt rel form hrel hform
      have hspelled := namesOf_relativePath (hnames rel hrel).1 (hnames rel hrel).2
      have hcanonical := isCanonical_relativePath (hnames rel hrel).1 (hnames rel hrel).2
      rw [scanView, hget, hp.symm.trans hpath, diskView, hspelled, List.reverse_reverse,
        if_pos ⟨hcanonical, ((hentries rel).mp hrel).1⟩, hdata]
      exact congrArg some hversion
    | none =>
      have habsent := (getKey_eq_none_iff _ _ p).mp hget
      rw [scanView, hget, diskView]
      split
      · rename_i hvisible
        cases hfile : disk.fileAt ((namesOf p).reverse ++ base) with
        | none => rfl
        | some data =>
          refine absurd ((hpaths p).mpr ⟨(namesOf p).reverse, ?_, hvisible.1⟩) habsent
          exact (hentries _).mpr ⟨hvisible.2, by rw [hfile]; rfl⟩
      · rfl

theorem fromDisk_of_readable (hroot : Rooted disk basePath base) (htidy : Tidy disk base)
    {env : ScanEnv} (h : Readable disk env base) (namespaceId : Int) :
    ∃ fromFs, getFileRecordsFromDisk disk env basePath namespaceId = .ok fromFs := by
  have hall : ∀ rel ∈ eligibleEntries disk env basePath, ∃ form,
      buildFileRecord disk env basePath ((walkRoot disk basePath).getD []) namespaceId rel = .ok form := by
    intro rel hrel
    obtain ⟨hvisible, hfile⟩ := (mem_eligibleEntries_of_tidy hroot htidy env rel).mp hrel
    obtain ⟨data, hdata⟩ := Option.isSome_iff_exists.mp hfile
    rw [walkRoot_of_mem_entries hroot hrel, Option.getD_some, buildFileRecord_of_file hdata,
      if_neg (by simp [h rel hvisible hfile])]
    exact ⟨_, rfl⟩
  obtain ⟨records, hrecords⟩ := exists_buildFileRecords hall
  rw [getFileRecordsFromDisk, hrecords]
  exact ⟨_, rfl⟩

/-- On a tidy directory a pass has nothing to do when the files agree with the live rows. -/
theorem checkIndexOnce_idle_of_tidy (hroot : Rooted disk basePath base) (htidy : Tidy disk base)
    (registry : Registry) (env : ScanEnv) (order : IterationOrder) {faults : IndexFaults}
    (hfaults : faults.nonDeleted = false) (namespaceId : Int) :
    checkIndexOnce registry disk env order faults basePath namespaceId = (registry, .ok false) ↔
      Readable disk env base ∧ ∀ p, liveView registry namespaceId p = diskView disk env base p := by
  rw [checkIndexOnce_idle_iff registry disk env order hfaults]
  constructor
  · rintro ⟨fromFs, hscan, hagree⟩
    have hview := scanView_eq_diskView hroot htidy hscan
    exact ⟨hview.1, fun p ↦ (hagree p).trans (hview.2 p)⟩
  · rintro ⟨hreadable, hagree⟩
    obtain ⟨fromFs, hscan⟩ := fromDisk_of_readable hroot htidy hreadable namespaceId
    have hview := scanView_eq_diskView hroot htidy hscan
    exact ⟨fromFs, hscan, fun p ↦ (hagree p).trans (hview.2 p).symm⟩

end Tidy

end CooklangSync.Client
