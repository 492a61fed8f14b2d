import CooklangSync.Client.Views
import CooklangSync.Theory.Subtree

/-!
# DiskScan — the files a scan finds

A scan should have one record for each regular file with an eligible name outside the directories
whose names start with a dot, and the path of the record should lead to the file.  Two things stand
against it.  The filter looks at names only, so a directory that is named like a recipe gets a
record.  And the path of a record is text, so a name that is not UTF-8 is not found again in it.
-/

namespace CooklangSync.Client

open Theory

/-! ## 1. Names of entries -/

/-- A name that a file system gives to an entry. -/
def IsEntryName (n : Name) : Prop := n ≠ [] ∧ n ≠ [46] ∧ n ≠ [46, 46] ∧ 47 ∉ n

instance (n : Name) : Decidable (IsEntryName n) := inferInstanceAs (Decidable (_ ∧ _))

/-- Every entry of the disk has such a name. -/
def IsNamed (disk : Disk) : Prop := ∀ k, (disk.lookup k).isSome → ∀ n ∈ k, IsEntryName n

theorem isNamed_iff (disk : Disk) :
    IsNamed disk ↔ ∀ k ∈ disk.nodes.keys, ∀ n ∈ k, IsEntryName n := by
  apply forall_congr'
  intro k
  rw [← AList.mem_keys, ← AList.lookup_isSome]
  rfl

/-- The name that is spelled in a path: what is not UTF-8 has been replaced. -/
def lossyName (n : Name) : Name := toUtf8 (toStringLossy n)

theorem lossyName_of_utf8 {n : Name} (h : (fromUtf8 n).isSome) : lossyName n = n := by
  obtain ⟨t, ht⟩ := Option.isSome_iff_exists.mp h
  rw [lossyName, toStringLossy, ht, Option.getD_some, toUtf8_of_fromUtf8 ht]

theorem fromUtf8_lossyName (n : Name) : (fromUtf8 (lossyName n)).isSome := by
  rw [lossyName, fromUtf8_toUtf8]
  rfl

theorem isFileName_lossyName {n : Name} (h : IsEntryName n) : IsFileName (lossyName n) := by
  obtain ⟨hne, hdot, hdots, hslash⟩ := h
  -- a text without a replacement has the bytes of the name
  have hbytes : ∀ t : Text, '\uFFFD' ∉ t → toStringLossy n = t → n = toUtf8 t := by
    intro t ht heq
    rw [← heq] at ht ⊢
    exact (toUtf8_toStringLossy ht).symm
  refine ⟨toStringLossy n, rfl, ?_, ?_, ?_, ?_⟩
  · intro heq
    exact hne (hbytes [] (by simp) heq)
  · intro heq
    exact hdot (hbytes ['.'] (by decide) heq)
  · intro heq
    exact hdots (hbytes ['.', '.'] (by decide) heq)
  · intro hmem
    have hbyte := infix_of_mem_toStringLossy hmem (by decide)
    exact hslash (hbyte.subset List.mem_cons_self)

theorem relativePath_map_lossyName (rel : List Name) :
    relativePath (rel.map lossyName) = relativePath rel := by
  have hname : ∀ n, toStringLossy (lossyName n) = toStringLossy n := fun n ↦ toStringLossy_toUtf8 _
  induction rel with
  | nil => rfl
  | cons n rel ih =>
    by_cases hrel : rel = []
    · rw [hrel]
      exact hname n
    · rw [List.map_cons, relativePath_cons (by simpa using hrel), relativePath_cons hrel, ih, hname]

/-- The path of an entry is a plain one. -/
theorem plainPath_of_entry {rel : List Name} (hrel : rel ≠ []) (h : ∀ n ∈ rel, IsEntryName n) :
    PlainPath (relativePath rel) (rel.map lossyName).reverse := by
  rw [← relativePath_map_lossyName]
  apply plainPath_relativePath (by simpa using hrel)
  intro n hn
  obtain ⟨m, hm, rfl⟩ := List.mem_map.mp hn
  exact isFileName_lossyName (h m hm)

theorem comps_entryPath (basePath : Path Name) (rel : List Name) :
    (entryPath basePath rel).comps = basePath.comps ++ rel.reverse.map .normal := by
  rw [entryPath]
  split
  · rename_i hnil
    simp [hnil]
  · rfl

/-- The path of an entry, joined with the base path, can only be that of the entry with the names
it spells. -/
theorem eq_map_lossyName_of_joined {basePath : Path Name} {rel rel' : List Name}
    (h : ∀ n ∈ rel, IsEntryName n)
    (hjoined : basePath.push (parsePath (relativePath rel)) = entryPath basePath rel') :
    rel' = rel.map lossyName := by
  have hcomps := congrArg Path.comps hjoined
  rw [comps_entryPath] at hcomps
  have hpush : (basePath.push (parsePath (relativePath rel))).comps =
      basePath.comps ++ (rel.map lossyName).reverse.map .normal := by
    by_cases hrel : rel = []
    · rw [hrel]
      rfl
    · rw [Path.push, plainPath_of_entry hrel h]
      rfl
  rw [hpush, List.append_cancel_left_eq] at hcomps
  have hnames := List.map_injective_iff.mpr (fun _ _ heq ↦ Comp.normal.inj heq) hcomps
  exact (List.reverse_injective hnames).symm

/-! ## 2. The entries a scan keeps -/

/-- A regular file with an eligible name, and between it and the root no directory whose name
starts with a dot. -/
def IsSyncable (disk : Disk) (root : Place Name) : List Name → Prop
  | [] => False
  | n :: above =>
    (disk.fileAt (n :: (above ++ root))).isSome ∧ isEligibleName n = true ∧
      ∀ d ∈ above, d.head? ≠ some 46

/-- Another entry that passes the filters: a directory with an eligible name, or a file in a
directory whose name starts with a dot and is not UTF-8. -/
def IsMistaken (disk : Disk) (basePath : Path Name) (root : Place Name) : List Name → Prop
  | [] => filterEligible disk basePath root [] = true
  | n :: above =>
    isEligibleName n = true ∧ (∀ d ∈ above, startsWithDot d = false) ∧
      if disk.isDirAt (n :: (above ++ root)) then startsWithDot n = false
      else (disk.fileAt (n :: (above ++ root))).isSome ∧ ∃ d ∈ above, d.head? = some 46

theorem startsWithDot_eq_false {d : Name} (h : d.head? ≠ some 46) : startsWithDot d = false := by
  rw [← Bool.not_eq_true]
  intro hdot
  rw [startsWithDot] at hdot
  split at hdot
  · rename_i t ht
    rw [← toUtf8_of_fromUtf8 ht] at h
    exact h rfl
  · cases hdot

/-- A directory is clear when no name on the way to it starts with a dot, and no error is reported
there. -/
theorem isClear_iff (env : ScanEnv) (root : Place Name) (rel : List Name) :
    isClear env root rel = true ↔ (∀ d ∈ rel, startsWithDot d = false) ∧
      ∀ pre, pre <:+ rel → env.unwalkable (pre ++ root) = false := by
  induction rel with
  | nil => simp [isClear, List.suffix_nil]
  | cons n rel ih =>
    rw [isClear, Bool.and_eq_true, Bool.and_eq_true, ih, Bool.not_eq_true', Bool.not_eq_true',
      List.forall_mem_cons]
    simp only [List.suffix_cons_iff, forall_eq_or_imp, List.cons_append]
    tauto

section Scan

variable {disk : Disk} {env : ScanEnv} {basePath : Path Name} {root : Place Name}
variable (hroot : walkRoot disk basePath = some root) (hdir : disk.lookup root = some .dir)
variable (hwalk : ∀ rel, env.unwalkable (rel ++ root) = false)
include hroot hdir hwalk

/-- A walk without errors keeps the syncable files and the entries taken for them. -/
theorem mem_eligibleEntries_of_walkable (rel : List Name) :
    rel ∈ eligibleEntries disk env basePath ↔
      IsSyncable disk root rel ∨ IsMistaken disk basePath root rel := by
  have hkept : rel ∈ eligibleEntries disk env basePath ↔
      walked disk env root rel = true ∧ filterEligible disk basePath root rel = true := by
    rw [eligibleEntries, hroot, ← mem_walkDir_iff]
    exact List.mem_filter
  rw [hkept]
  cases rel with
  | nil =>
    have hwalked : walked disk env root [] = true := by
      rw [walked, reached, List.nil_append, (disk.isDirAt_iff _).mpr hdir, hdir]
      rfl
    simp [hwalked, IsSyncable, IsMistaken]
  | cons n above =>
    have hhere : env.unwalkable (n :: (above ++ root)) = false := hwalk (n :: above)
    rw [walked, List.cons_append, hhere, Bool.not_false, Bool.or_true, Bool.and_true,
      filterEligible_cons, IsSyncable, IsMistaken]
    cases hnode : disk.lookup (n :: (above ++ root)) with
    | none =>
      have hmissed : reached disk env root (n :: above) = false := by
        rw [reached, hnode]
        simp
      simp [hmissed, FileTree.fileAt, FileTree.isDirAt, hnode]
    | some node =>
      have hparent : disk.lookup (above ++ root) = some .dir :=
        disk.lookup_parent (by rw [hnode]; rfl)
      have hclear := reached_of_dir env hparent
      rw [hwalk above, Bool.not_false, Bool.and_true] at hclear
      have hreached : reached disk env root (n :: above) =
          (isClear env root above && !isDotDir disk n (above ++ root)) := by
        rw [reached, hclear, (disk.isDirAt_iff _).mpr hparent, hwalk above, hnode]
        simp
      rw [hreached, Bool.and_eq_true, isClear_iff, and_iff_left fun pre _ ↦ hwalk pre]
      cases node with
      | symlink target => simp [FileTree.fileAt, FileTree.isLinkAt, FileTree.isDirAt, hnode]
      | dir =>
        simp [FileTree.fileAt, FileTree.isLinkAt, FileTree.isDirAt, isDotDir, hnode, and_comm]
      | file data =>
        have hdots : (∀ d ∈ above, d.head? ≠ some 46) → ∀ d ∈ above, startsWithDot d = false :=
          fun h d hd ↦ startsWithDot_eq_false (h d hd)
        simp only [FileTree.fileAt, FileTree.isLinkAt, FileTree.isDirAt, isDotDir, hnode,
          Option.isSome_some, Bool.false_and, Bool.not_false, Bool.true_and, and_true, true_and,
          Bool.false_eq_true, if_false]
        -- either some directory above has a dot in front, or none has
        by_cases hsome : ∃ d ∈ above, d.head? = some 46
        · have hnot : ¬ ∀ d ∈ above, d.head? ≠ some 46 := fun h ↦ hsome.elim fun d hd ↦ h d hd.1 hd.2
          rw [and_iff_left hsome, or_iff_right fun h ↦ hnot h.2, and_comm]
        · have hnone : ∀ d ∈ above, d.head? ≠ some 46 := fun d hd h ↦ hsome ⟨d, hd, h⟩
          rw [or_iff_left fun h ↦ hsome h.2.2, and_iff_left hnone, and_iff_right (hdots hnone)]

/-! ## 3. One record for each syncable file -/

theorem exists_fromDisk (hmeta : ∀ rel, env.metadataFails (rel ++ root) = false)
    (namespaceId : Int) :
    ∃ fromFs, getFileRecordsFromDisk disk env basePath namespaceId = .ok fromFs := by
  have hbuilt : ∀ rel ∈ eligibleEntries disk env basePath, ∃ form,
      buildFileRecord disk env basePath root namespaceId rel = .ok form := by
    intro rel hrel
    have hentry := (mem_eligibleEntries_of_walkable hroot hdir hwalk rel).mp hrel
    rw [buildFileRecord, hmeta rel, if_neg Bool.false_ne_true]
    -- what is kept is a file or a directory
    have hnode : (∃ data, disk.lookup (rel ++ root) = some (.file data)) ∨
        disk.lookup (rel ++ root) = some .dir := by
      cases rel with
      | nil => exact .inr hdir
      | cons n above =>
        rw [List.cons_append, ← FileTree.isDirAt_iff]
        by_cases hhere : disk.isDirAt (n :: (above ++ root)) = true
        · exact .inr hhere
        · have hfile : (disk.fileAt (n :: (above ++ root))).isSome := by
            rcases hentry with h | h
            · exact h.1
            · rw [IsMistaken, if_neg hhere] at h
              exact h.2.2.1
          obtain ⟨data, hdata⟩ := Option.isSome_iff_exists.mp hfile
          exact .inl ⟨data, (disk.fileAt_eq_some_iff _ _).mp hdata⟩
    rcases hnode with ⟨data, hdata⟩ | hhere
    · rw [hdata]
      exact ⟨_, rfl⟩
    · rw [hhere]
      exact ⟨_, rfl⟩
  obtain ⟨records, hrecords⟩ := exists_buildFileRecords hbuilt
  rw [getFileRecordsFromDisk, hroot, Option.getD_some, hrecords]
  exact ⟨_, rfl⟩

end Scan

/-- The path of a record, joined with the base path, is that of the file, and a file that can be
opened and hashed there. -/
structure NamesFile (disk : Disk) (basePath : Path Name) (root : Place Name) (path : Text)
    (rel : List Name) : Prop where
  joined : basePath.push (parsePath path) = entryPath basePath rel
  read : disk.readFile (basePath.push (parsePath path)) = disk.fileAt (rel ++ root)
  hashed : ∀ (sha256 : Bytes → Text) (cache : InMemoryCache) (readSize : Nat → Nat),
    ∃ ids, (Chunker.hashify sha256 ⟨cache, basePath⟩ disk ⟨readSize, none⟩ path).2 = .ok ids

/-- The scan succeeds with one record for each syncable file, and none besides. -/
def FindsExactly (disk : Disk) (env : ScanEnv) (basePath : Path Name) (root : Place Name)
    (namespaceId : Int) : Prop :=
  ∃ fromFs, getFileRecordsFromDisk disk env basePath namespaceId = .ok fromFs ∧
    (∀ form ∈ fromFs, ∃ rel, IsSyncable disk root rel ∧
      NamesFile disk basePath root form.path rel) ∧
    ∀ rel, IsSyncable disk root rel →
      ∃! form, form ∈ fromFs ∧ NamesFile disk basePath root form.path rel

theorem isEligibleName_of_plain {path : Text} {n : Name} {above : List Name}
    (h : PlainPath path (n :: above).reverse) :
    (isText (parsePath path) || isBinary (parsePath path)) = isEligibleName n := by
  apply isEligibleName_of_fileName
  rw [h, Path.fileName]
  simp

theorem resolve_of_walkRoot {disk : Disk} {basePath : Path Name} {root : Place Name}
    (hroot : walkRoot disk basePath = some root) : disk.resolve true basePath = .found root := by
  rw [walkRoot] at hroot
  cases hresolve : disk.resolve true basePath with
  | found k =>
    rw [hresolve] at hroot
    rw [Option.some.inj hroot]
  | _ =>
    rw [hresolve] at hroot
    cases hroot

/-- The path of a syncable file with UTF-8 names leads to the file. -/
theorem namesFile_of_utf8 {disk : Disk} {basePath : Path Name} {root : Place Name}
    (hroot : walkRoot disk basePath = some root) (hdir : disk.lookup root = some .dir)
    {rel : List Name} (hrel : IsSyncable disk root rel) (hnames : ∀ n ∈ rel, IsEntryName n)
    (hutf8 : ∀ n ∈ rel, (fromUtf8 n).isSome) :
    NamesFile disk basePath root (relativePath rel) rel := by
  cases rel with
  | nil => exact hrel.elim
  | cons n above =>
    obtain ⟨hfile, heligible, -⟩ := hrel
    obtain ⟨data, hdata⟩ := Option.isSome_iff_exists.mp hfile
    have hsame : (n :: above).map lossyName = n :: above := by
      conv_rhs => rw [← List.map_id (n :: above)]
      exact List.map_congr_left fun m hm ↦ lossyName_of_utf8 (hutf8 m hm)
    have hplain := plainPath_of_entry (List.cons_ne_nil n above) hnames
    rw [hsame] at hplain
    have hjoined : basePath.push (parsePath (relativePath (n :: above))) =
        entryPath basePath (n :: above) := by
      rw [Path.push, hplain, entryPath, if_neg (List.cons_ne_nil n above)]
      rfl
    have hfound := resolve_of_walkRoot hroot
    have hread : disk.readFile (basePath.push (parsePath (relativePath (n :: above)))) =
        some data := by
      have hlookup := (disk.fileAt_eq_some_iff _ _).mp hdata
      have hresolve := disk.resolve_names hdir hfound true (n :: above).reverse (by simp)
        (by rw [List.reverse_reverse]; exact hlookup) (by simp)
        (entryPath basePath (n :: above)) (comps_entryPath basePath _)
      rw [List.reverse_reverse] at hresolve
      rw [hjoined]
      exact disk.readFile_of_found hresolve (by simp [entryPath]) hlookup
    refine ⟨hjoined, hread.trans hdata.symm, fun sha256 cache readSize ↦ ?_⟩
    have hformat := isEligibleName_of_plain hplain
    rw [heligible] at hformat
    rw [Chunker.hashify, Chunker.hashifyText, Chunker.hashifyBinary, Chunker.fullPath, hread]
    by_cases htext : isText (parsePath (relativePath (n :: above))) = true
    · rw [if_pos htext]
      exact ⟨_, rfl⟩
    · rw [Bool.not_eq_true] at htext
      rw [htext, Bool.false_or] at hformat
      rw [htext, if_neg Bool.false_ne_true, if_pos hformat]
      exact ⟨_, rfl⟩

theorem isEntryName_of_mem {disk : Disk} {env : ScanEnv} {basePath : Path Name} {root : Place Name}
    (hroot : walkRoot disk basePath = some root) (hnamed : IsNamed disk) {rel : List Name}
    (hrel : rel ∈ eligibleEntries disk env basePath) : ∀ n ∈ rel, IsEntryName n := by
  intro n hn
  rw [eligibleEntries, hroot] at hrel
  have hreached := (mem_walkDir_iff disk env root rel).mp (List.mem_filter.mp hrel).1
  rw [walked, Bool.and_eq_true] at hreached
  exact hnamed _ (lookup_of_reached hreached.1) n (List.mem_append_left root hn)

/-- Where the path of an entry names a file, it is the path of that file, all of whose names are
UTF-8. -/
theorem NamesFile.relativePath_eq {disk : Disk} {basePath : Path Name} {root : Place Name}
    {rel rel' : List Name} (h : NamesFile disk basePath root (relativePath rel') rel)
    (hnames : ∀ n ∈ rel', IsEntryName n) :
    relativePath rel = relativePath rel' ∧ ∀ n ∈ rel, (fromUtf8 n).isSome := by
  rw [eq_map_lossyName_of_joined hnames h.joined]
  refine ⟨relativePath_map_lossyName rel', fun n hn ↦ ?_⟩
  obtain ⟨m, -, rfl⟩ := List.mem_map.mp hn
  exact fromUtf8_lossyName m

/-- A scan finds exactly the syncable files when their names are UTF-8 and every other entry that
passes the filters has the path of one of them. -/
theorem findsExactly_iff {disk : Disk} {env : ScanEnv} {basePath : Path Name} {root : Place Name}
    (hroot : walkRoot disk basePath = some root) (hdir : disk.lookup root = some .dir)
    (hnamed : IsNamed disk) (hwalk : ∀ rel, env.unwalkable (rel ++ root) = false)
    (hmeta : ∀ rel, env.metadataFails (rel ++ root) = false) (namespaceId : Int) :
    FindsExactly disk env basePath root namespaceId ↔
      (∀ rel, IsSyncable disk root rel → ∀ n ∈ rel, (fromUtf8 n).isSome) ∧
      ∀ rel, IsMistaken disk basePath root rel →
        ∃ rel', IsSyncable disk root rel' ∧ relativePath rel' = relativePath rel := by
  have hkept := mem_eligibleEntries_of_walkable hroot hdir hwalk
  have hentry : ∀ rel ∈ eligibleEntries disk env basePath, ∀ n ∈ rel, IsEntryName n :=
    fun _ ↦ isEntryName_of_mem hroot hnamed
  obtain ⟨fromFs, hscan⟩ := exists_fromDisk hroot hdir hwalk hmeta namespaceId
  have hpaths := mem_paths_fromDisk hscan
  -- the records have the paths of the kept entries, and name at most what these spell
  have hform : ∀ form ∈ fromFs, ∃ rel ∈ eligibleEntries disk env basePath,
      relativePath rel = form.path := fun form h ↦ (hpaths form.path).mp (List.mem_map_of_mem h)
  have hrecord : ∀ rel ∈ eligibleEntries disk env basePath, ∃ form ∈ fromFs,
      form.path = relativePath rel :=
    fun rel h ↦ List.mem_map.mp ((hpaths (relativePath rel)).mpr ⟨rel, h, rfl⟩)
  have hspelled : ∀ form ∈ fromFs, ∀ rel, NamesFile disk basePath root form.path rel →
      relativePath rel = form.path ∧ ∀ n ∈ rel, (fromUtf8 n).isSome := by
    intro form h rel hnames
    obtain ⟨rel', hrel', hpath⟩ := hform form h
    rw [← hpath] at hnames ⊢
    exact hnames.relativePath_eq (hentry rel' hrel')
  constructor
  · rintro ⟨fromFs', hscan', hsound, hcomplete⟩
    obtain rfl : fromFs = fromFs' := Outcome.ok.inj (hscan.symm.trans hscan')
    constructor
    · intro rel hrel
      obtain ⟨form, ⟨hmem, hnames⟩, -⟩ := hcomplete rel hrel
      exact (hspelled form hmem rel hnames).2
    · intro rel hrel
      obtain ⟨form, hmem, hpath⟩ := hrecord rel ((hkept rel).mpr (.inr hrel))
      obtain ⟨rel', hrel', hnames⟩ := hsound form hmem
      exact ⟨rel', hrel', (hspelled form hmem rel' hnames).1.trans hpath⟩
  · rintro ⟨hutf8, hmistaken⟩
    have hnamesFile : ∀ rel, IsSyncable disk root rel →
        NamesFile disk basePath root (relativePath rel) rel := fun rel hrel ↦
      namesFile_of_utf8 hroot hdir hrel (hentry rel ((hkept rel).mpr (.inl hrel))) (hutf8 rel hrel)
    refine ⟨fromFs, hscan, ?_, ?_⟩
    · intro form hmem
      obtain ⟨rel, hrel, hpath⟩ := hform form hmem
      rw [← hpath]
      rcases (hkept rel).mp hrel with hsync | htaken
      · exact ⟨rel, hsync, hnamesFile rel hsync⟩
      · obtain ⟨rel', hsync, heq⟩ := hmistaken rel htaken
        rw [← heq]
        exact ⟨rel', hsync, hnamesFile rel' hsync⟩
    · intro rel hrel
      obtain ⟨form, hmem, hpath⟩ := hrecord rel ((hkept rel).mpr (.inl hrel))
      refine ⟨form, ⟨hmem, hpath ▸ hnamesFile rel hrel⟩, ?_⟩
      -- two records that name the file have its path, and the map has one record for a path
      rintro form' ⟨hmem', hnames'⟩
      have hsame := (hspelled form' hmem' rel hnames').1.symm.trans hpath.symm
      exact List.inj_on_of_nodup_map (nodup_fromDisk hscan) hmem' hmem hsame

theorem findsExactly_oneRecipe :
    FindsExactly oneRecipe readableEnv (parsePath "/s".toList) [[115]] 1 ↔
      (∀ rel, IsSyncable oneRecipe [[115]] rel → ∀ n ∈ rel, (fromUtf8 n).isSome) ∧
      ∀ rel, IsMistaken oneRecipe (parsePath "/s".toList) [[115]] rel →
        ∃ rel', IsSyncable oneRecipe [[115]] rel' ∧ relativePath rel' = relativePath rel :=
  findsExactly_iff (by decide) (by rfl) ((isNamed_iff _).mpr (by decide)) (fun _ ↦ rfl)
    (fun _ ↦ rfl) 1

-- A directory `x.cook` in the storage directory `/s`, and no file.
def recipeDirectory : Disk :=
  (FileTree.root.put [115] [] .dir).put (toUtf8 "x.cook".toList) [[115]] .dir

theorem findsExactly_recipeDirectory :
    ¬ ∀ (disk : Disk) (env : ScanEnv) (basePath : Path Name) (root : Place Name)
      (namespaceId : Int), walkRoot disk basePath = some root → disk.lookup root = some .dir →
      IsNamed disk → (∀ rel, env.unwalkable (rel ++ root) = false) →
      (∀ rel, env.metadataFails (rel ++ root) = false) →
      FindsExactly disk env basePath root namespaceId := by
  intro h
  obtain ⟨fromFs, hscan, hsound, -⟩ := h recipeDirectory readableEnv (parsePath "/s".toList)
    [[115]] 1 (by decide) (by rfl) ((isNamed_iff _).mpr (by decide)) (fun _ ↦ rfl) (fun _ ↦ rfl)
  have hentry : [toUtf8 "x.cook".toList] ∈
      eligibleEntries recipeDirectory readableEnv (parsePath "/s".toList) := by decide
  obtain ⟨form, hform, hpath⟩ := List.mem_map.mp
    ((mem_paths_fromDisk hscan _).mpr ⟨[toUtf8 "x.cook".toList], hentry, rfl⟩)
  obtain ⟨rel, hrel, hnames⟩ := hsound form hform
  have hjoined := hnames.joined
  rw [hpath] at hjoined
  rw [eq_map_lossyName_of_joined (by decide) hjoined] at hrel
  -- the record names the directory, which is no file
  have hfile : (recipeDirectory.fileAt [lossyName (toUtf8 "x.cook".toList), [115]]).isSome = true :=
    hrel.1
  rw [lossyName, toStringLossy_toUtf8] at hfile
  revert hfile
  decide

end CooklangSync.Client
