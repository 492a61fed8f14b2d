import CooklangSync.Client.Answers
import CooklangSync.Client.DiskScan

/-!
# Sighting — files, their versions, and what a scan has of them

Of a file, a scan has its path and its version: the size and the time in whole seconds.  A plain
path is that of one file at most, and what a scan has of it is the version of this file: no name in
it has been replaced, and no directory is taken for a file there.
-/

namespace CooklangSync.Client

open Theory

/-! ## 1. The file of a path -/

/-- The path is that of a syncable file. -/
def HasFile (disk : Disk) (basePath : Path Name) (p : Text) (data : FileData) : Prop :=
  ∃ root rel, walkRoot disk basePath = some root ∧ IsSyncable disk root rel ∧
    relativePath rel = p ∧ disk.fileAt (rel ++ root) = some data

/-- The path is that of one file at most: files with this path have UTF-8 names, and no other entry
that passes the filters has it. -/
structure IsPlain (disk : Disk) (basePath : Path Name) (p : Text) : Prop where
  named : IsNamed disk
  utf8 : ∀ root rel, walkRoot disk basePath = some root → IsSyncable disk root rel →
    relativePath rel = p → ∀ n ∈ rel, (fromUtf8 n).isSome
  unmistaken : ∀ root rel, walkRoot disk basePath = some root →
    IsMistaken disk basePath root rel → relativePath rel ≠ p

theorem file_of_isSyncable {disk : Disk} {root : Place Name} {rel : List Name}
    (h : IsSyncable disk root rel) : ∃ data, disk.fileAt (rel ++ root) = some data := by
  cases rel with
  | nil => exact h.elim
  | cons n above => exact Option.isSome_iff_exists.mp h.1

theorem lookup_of_isSyncable {disk : Disk} {root : Place Name} {rel : List Name}
    (h : IsSyncable disk root rel) : (disk.lookup (rel ++ root)).isSome := by
  obtain ⟨data, hdata⟩ := file_of_isSyncable h
  rw [(disk.fileAt_eq_some_iff _ _).mp hdata]
  rfl

theorem dir_of_isSyncable {disk : Disk} {root : Place Name} {rel : List Name}
    (h : IsSyncable disk root rel) : disk.lookup root = some .dir := by
  cases rel with
  | nil => exact h.elim
  | cons n above => exact disk.lookup_above (lookup_of_isSyncable h) (List.suffix_append above root)

section Plain

variable {disk : Disk} {basePath : Path Name} {p : Text} (hplain : IsPlain disk basePath p)
include hplain

/-- The path of a file leads to the file. -/
theorem HasFile.readFile {data : FileData} (h : HasFile disk basePath p data) :
    disk.readFile (basePath.push (parsePath p)) = some data := by
  obtain ⟨root, rel, hroot, hrel, hpath, hdata⟩ := h
  have hnames : ∀ n ∈ rel, IsEntryName n := fun n hn ↦
    hplain.named _ (lookup_of_isSyncable hrel) n (List.mem_append_left root hn)
  have hread := (namesFile_of_utf8 hroot (dir_of_isSyncable hrel) hrel hnames
    (hplain.utf8 root rel hroot hrel hpath)).read
  rw [← hpath, hread]
  exact hdata

theorem HasFile.unique {data data' : FileData} (h : HasFile disk basePath p data)
    (h' : HasFile disk basePath p data') : data = data' := by
  have hread := h.readFile hplain
  rw [h'.readFile hplain] at hread
  exact (Option.some.inj hread).symm

/-- The path spells the names of the file. -/
theorem namesOf_of_isSyncable {root : Place Name} (hroot : walkRoot disk basePath = some root)
    {rel : List Name} (h : IsSyncable disk root rel) (hpath : relativePath rel = p) :
    rel = (namesOf p).reverse := by
  have hthere : (disk.lookup (rel ++ root)).isSome := lookup_of_isSyncable h
  have hname : ∀ n ∈ rel, IsFileName n := by
    intro n hn
    have hentry := hplain.named _ hthere n (List.mem_append_left root hn)
    rw [← lossyName_of_utf8 (hplain.utf8 root rel hroot h hpath n hn)]
    exact isFileName_lossyName hentry
  have hrel : rel ≠ [] := by
    intro hnil
    rw [hnil] at h
    exact h
  rw [← hpath, namesOf_relativePath hrel hname, List.reverse_reverse]

end Plain

/-! ## 2. What a scan has -/

/-- Errors only take entries away from the walk. -/
theorem reached_of_errors {disk : Disk} {env : ScanEnv} {root : Place Name} {rel : List Name}
    (h : reached disk env root rel = true) : reached disk readableEnv root rel = true := by
  induction rel with
  | nil => exact h
  | cons n rel ih =>
    simp only [reached, Bool.and_eq_true] at h ⊢
    obtain ⟨⟨⟨⟨habove, hdir⟩, -⟩, hsome⟩, hdot⟩ := h
    exact ⟨⟨⟨⟨ih habove, hdir⟩, rfl⟩, hsome⟩, hdot⟩

theorem eligibleEntries_of_errors {disk : Disk} {env : ScanEnv} {basePath : Path Name}
    {rel : List Name} (h : rel ∈ eligibleEntries disk env basePath) :
    rel ∈ eligibleEntries disk readableEnv basePath := by
  rw [eligibleEntries] at h ⊢
  cases hroot : walkRoot disk basePath with
  | none =>
    rw [hroot] at h
    cases h
  | some root =>
    rw [hroot] at h
    obtain ⟨hwalked, hkept⟩ := List.mem_filter.mp h
    rw [mem_walkDir_iff, walked, Bool.and_eq_true] at hwalked
    apply List.mem_filter.mpr
    rw [mem_walkDir_iff, walked, reached_of_errors hwalked.1]
    refine ⟨?_, hkept⟩
    show (disk.isDirAt (rel ++ root) || true) = true
    exact Bool.or_true _

/-- What a walk keeps is a syncable file, or is taken for one. -/
theorem isSyncable_or_isMistaken {disk : Disk} {env : ScanEnv} {basePath : Path Name}
    {root : Place Name} (hroot : walkRoot disk basePath = some root) {rel : List Name}
    (h : rel ∈ eligibleEntries disk env basePath) :
    IsSyncable disk root rel ∨ IsMistaken disk basePath root rel := by
  have hclear := eligibleEntries_of_errors h
  cases rel with
  | nil =>
    rw [eligibleEntries, hroot] at h
    exact .inr (List.mem_filter.mp h).2
  | cons n above =>
    have hdir : disk.lookup root = some .dir := by
      rw [eligibleEntries, hroot] at h
      have hwalked := (mem_walkDir_iff disk env root _).mp (List.mem_filter.mp h).1
      rw [walked, Bool.and_eq_true] at hwalked
      exact disk.lookup_above (lookup_of_reached hwalked.1) (List.suffix_append above root)
    exact (mem_eligibleEntries_of_walkable hroot hdir (fun _ ↦ rfl) _).mp hclear

/-- A walk meets a syncable file when no error is reported on it or on a directory above it. -/
theorem mem_eligibleEntries_of_isSyncable {disk : Disk} (env : ScanEnv) {basePath : Path Name}
    {root : Place Name} (hroot : walkRoot disk basePath = some root) {rel : List Name}
    (h : IsSyncable disk root rel) :
    rel ∈ eligibleEntries disk env basePath ↔
      ∀ pre, pre <:+ rel → env.unwalkable (pre ++ root) = false := by
  have hthere := lookup_of_isSyncable h
  obtain ⟨data, hdata⟩ := file_of_isSyncable h
  have hlookup := (disk.fileAt_eq_some_iff _ _).mp hdata
  rw [eligibleEntries, hroot]
  show rel ∈ (walkDir disk env root).filter (filterEligible disk basePath root) ↔ _
  rw [List.mem_filter, mem_walkDir_iff]
  cases rel with
  | nil => exact h.elim
  | cons n above =>
    obtain ⟨-, heligible, hdots⟩ := h
    have hfile : disk.isDirAt (n :: (above ++ root)) = false := by
      rw [FileTree.isDirAt_eq_false_iff, ← List.cons_append, hlookup]
      simp
    have hparent : disk.lookup (above ++ root) = some .dir := disk.lookup_parent hthere
    have hclear := reached_of_dir env hparent
    have hkept : filterEligible disk basePath root (n :: above) = true := by
      rw [filterEligible_cons, heligible, FileTree.isLinkAt, ← List.cons_append, hlookup]
      rfl
    have hreached : reached disk env root (n :: above) = isClear env root above := by
      rw [reached, ← hclear, (disk.isDirAt_iff _).mpr hparent, isDotDir, hfile]
      rw [List.cons_append] at hthere
      rw [hthere]
      simp
    rw [walked, hreached, List.cons_append, hfile, Bool.false_or, Bool.and_eq_true, isClear_iff,
      hkept, and_iff_left rfl, and_iff_right fun d hd ↦ startsWithDot_eq_false (hdots d hd),
      Bool.not_eq_true']
    simp only [List.suffix_cons_iff, forall_eq_or_imp, List.cons_append]
    exact and_comm

/-- The walk reports an error on the file of the path, or on a directory above it. -/
def IsMissed (disk : Disk) (env : ScanEnv) (basePath : Path Name) (p : Text) : Prop :=
  ∃ root rel, walkRoot disk basePath = some root ∧ IsSyncable disk root rel ∧
    relativePath rel = p ∧ ∃ pre, pre <:+ rel ∧ env.unwalkable (pre ++ root) = true

theorem IsMissed.hasFile {disk : Disk} {env : ScanEnv} {basePath : Path Name} {p : Text}
    (h : IsMissed disk env basePath p) : ∃ data, HasFile disk basePath p data := by
  obtain ⟨root, rel, hroot, hsync, hpath, -⟩ := h
  obtain ⟨data, hdata⟩ := file_of_isSyncable hsync
  exact ⟨data, root, rel, hroot, hsync, hpath, hdata⟩

section Scan

variable {disk : Disk} {env : ScanEnv} {basePath : Path Name} {namespaceId : Int}
  {fromFs : List CreateForm}
variable (hscan : getFileRecordsFromDisk disk env basePath namespaceId = .ok fromFs)
include hscan

/-- A record of a scan has the path and the version of a file. -/
theorem hasFile_of_form {form : CreateForm} (hplain : IsPlain disk basePath form.path)
    (hform : form ∈ fromFs) :
    ∃ data, HasFile disk basePath form.path data ∧
      data.version = (form.size, form.modifiedAt) := by
  obtain ⟨records, hrecords, hkeep⟩ := Outcome.bind_eq_ok hscan
  cases hkeep
  have hmem := mem_of_mem_keepLast CreateForm.path hform
  obtain ⟨rel, hrel, hbuilt⟩ := exists_left_of_forall₂ (buildFileRecords_ok hrecords) hmem
  cases hroot : walkRoot disk basePath with
  | none =>
    rw [eligibleEntries, hroot] at hrel
    cases hrel
  | some root =>
    rw [hroot, Option.getD_some] at hbuilt
    have hpath := (buildFileRecord_ok hbuilt).1
    have hsync : IsSyncable disk root rel := (isSyncable_or_isMistaken hroot hrel).resolve_right
      fun htaken ↦ hplain.unmistaken root rel hroot htaken hpath.symm
    obtain ⟨data, hdata⟩ := file_of_isSyncable hsync
    refine ⟨data, ⟨root, rel, hroot, hsync, hpath.symm, hdata⟩, ?_⟩
    rw [buildFileRecord_of_file hdata] at hbuilt
    split at hbuilt
    · cases hbuilt
    · cases hbuilt
      rfl

/-- What a scan has of a path is the version of its file, unless the file is missed. -/
theorem scanView_iff {p : Text} (hplain : IsPlain disk basePath p) (v : Version) :
    scanView fromFs p = some v ↔
      (∃ data, HasFile disk basePath p data ∧ data.version = v) ∧
        ¬ IsMissed disk env basePath p := by
  have hget := fun form ↦ getKey_eq_some_iff CreateForm.path (nodup_fromDisk hscan) p form
  rw [scanView, Option.map_eq_some_iff]
  constructor
  · rintro ⟨form, hform, rfl⟩
    obtain ⟨hmem, rfl⟩ := (hget form).mp hform
    refine ⟨hasFile_of_form hscan hplain hmem, ?_⟩
    rintro ⟨root, rel, hroot, hsync, hpath, pre, hpre, herror⟩
    obtain ⟨rel', hrel', hpath'⟩ :=
      (mem_paths_fromDisk hscan form.path).mp (List.mem_map_of_mem hmem)
    have hsync' : IsSyncable disk root rel' := (isSyncable_or_isMistaken hroot hrel').resolve_right
      fun htaken ↦ hplain.unmistaken root rel' hroot htaken hpath'
    -- the entry that was met is the file
    have hsame : rel' = rel := (namesOf_of_isSyncable hplain hroot hsync' hpath').trans
      (namesOf_of_isSyncable hplain hroot hsync hpath).symm
    rw [hsame, mem_eligibleEntries_of_isSyncable env hroot hsync] at hrel'
    rw [hrel' pre hpre] at herror
    cases herror
  · rintro ⟨⟨data, hfile, rfl⟩, hmet⟩
    have hkept : ∃ rel ∈ eligibleEntries disk env basePath, relativePath rel = p := by
      obtain ⟨root, rel, hroot, hsync, hpath, -⟩ := hfile
      refine ⟨rel, ?_, hpath⟩
      rw [mem_eligibleEntries_of_isSyncable env hroot hsync]
      intro pre hpre
      rw [← Bool.not_eq_true]
      exact fun herror ↦ hmet ⟨root, rel, hroot, hsync, hpath, pre, hpre, herror⟩
    obtain ⟨form, hmem, hformPath⟩ := List.mem_map.mp ((mem_paths_fromDisk hscan p).mpr hkept)
    refine ⟨form, (hget form).mpr ⟨hmem, hformPath⟩, ?_⟩
    -- the record has the version of the one file with the path
    rw [← hformPath] at hplain hfile
    obtain ⟨data', hfile', hversion⟩ := hasFile_of_form hscan hplain hmem
    rw [← hversion, HasFile.unique hplain hfile hfile']

end Scan

/-- A live row that an index pass appends has the version of a file. -/
theorem IsScanned.hasFile {disk : Disk} {env : ScanEnv} {basePath : Path Name} {namespaceId : Int}
    {row : FileRecord} (h : IsScanned disk env basePath namespaceId row)
    (hplain : IsPlain disk basePath row.path) :
    ∃ data, HasFile disk basePath row.path data ∧ data.version = (row.size, row.modifiedAt) := by
  obtain ⟨fromFs, hscan, form, hform, heq⟩ := h
  rw [heq] at hplain ⊢
  exact hasFile_of_form hscan hplain hform

end CooklangSync.Client
