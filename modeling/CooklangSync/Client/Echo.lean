import CooklangSync.Client.Cursor
import CooklangSync.Client.Views

/-!
# Echo — a download pass followed by an index pass

The download pass writes rows for the files it writes, under the paths the server lists; the index
pass that follows compares these rows with what its own scan meets.  The two agree when the scan
can meet every file that was written (`checkIndexOnce_after_download_iff`).
-/

namespace CooklangSync.Client

open Theory Chunker

namespace Syncer

/-! ## 1. A record that is carried out -/

/-- What carrying out a record changes: the row of its path and the file at its place agree. -/
structure Applied (namespaceId : Int) (base : Place Name) (d : ResponseFileRecord)
    (s s' : ClientState) : Prop where
  chunker : s'.chunker = s.chunker
  view : ∀ p, liveView s'.registry namespaceId p =
    if p = d.path then (s'.disk.fileAt (placeOf base d)).map FileData.version
    else liveView s.registry namespaceId p
  file : (s'.disk.fileAt (placeOf base d)).isSome = !d.deleted
  frame : SameExcept (placeOf base d) s.disk s'.disk
  noLink : ∀ target, s'.disk.lookup (placeOf base d) ≠ some (.symlink target)
  dirs : ∀ k, s'.disk.lookup k = some .dir → s.disk.lookup k = some .dir ∨
    d.deleted = false ∧ k <:+ placeOf base d ∧ k ≠ placeOf base d

theorem liveView_insert (registry : Registry) (row : Int → FileRecord)
    (hrow : ∀ i, (row i).id = i) (namespaceId : Int)
    (hns : (row registry.nextId).namespaceId = namespaceId) (p : Text) :
    liveView (registry.insert row hrow) namespaceId p =
      if p = (row registry.nextId).path then
        if (row registry.nextId).deleted then none
        else some ((row registry.nextId).size, (row registry.nextId).modifiedAt)
      else liveView registry namespaceId p := by
  rw [liveView, Table.latestOf_insert]
  simp only [hns, beq_self_eq_true, true_and]
  by_cases hp : p = (row registry.nextId).path
  · rw [if_pos hp.symm, if_pos hp]
  · rw [if_neg (Ne.symm hp), if_neg hp]
    rfl

section Record

variable {base : Place Name} {d : ResponseFileRecord} {env : RecordEnv} {namespaceId : Int}
  {s s' : ClientState} (hbase : FileTree.Spells s.chunker.basePath base)
  (hplain : PlainPath d.path (namesOf d.path)) (hne : namesOf d.path ≠ [])
  (hst : s.disk.Straight (placeOf base d))
  (happly : applyRecord env namespaceId s d = (s', .ok ()))

include hbase hplain hne hst happly

theorem applied_of_deleted (hdel : d.deleted = true) : Applied namespaceId base d s s' := by
  have hview : ∀ (disk : Disk), disk.fileAt (placeOf base d) = none → ∀ p,
      liveView (s.registry.delete [buildDeleteForm d.path env.now d.id namespaceId]) namespaceId p =
        if p = d.path then (disk.fileAt (placeOf base d)).map FileData.version
        else liveView s.registry namespaceId p := by
    intro disk hgone p
    have hrow := liveView_insert s.registry
      (buildDeleteForm d.path env.now d.id namespaceId).withId (DeleteForm.id_withId _) namespaceId
      rfl p
    rw [Registry.delete_singleton, hgone]
    exact hrow
  have hexists : s.chunker.exists s.disk d.path = (s.disk.lookup (placeOf base d)).isSome :=
    s.disk.pathExists_of_straight (fullPath_spells hbase hplain) hst
  rw [applyRecord, if_pos hdel] at happly
  split at happly
  · cases happly
  · simp only at happly
    split at happly
    · rcases delete_cases hbase hplain hne s.disk hst env.delete with ⟨-, e, herr⟩ | hok
      · rw [herr] at happly
        cases happly
      · obtain ⟨disk, hok, -, hgone, hother⟩ := hok
        rw [hok] at happly
        cases happly
        have hgone : disk.lookup (placeOf base d) = none := hgone
        have hnofile : disk.fileAt (placeOf base d) = none := by rw [FileTree.fileAt, hgone]
        refine ⟨rfl, hview disk hnofile, by rw [hnofile, hdel]; rfl, ?_, ?_, ?_⟩
        · -- besides the file only directories go that it leaves empty
          intro l hl node hnode
          rcases hother l hl with heq | ⟨hdir, hnone, -⟩
          · rw [heq]
          · rw [hdir, hnone]
            simp [Ne.symm hnode]
        · rw [hgone]
          simp
        · intro k hk
          have hkne : k ≠ placeOf base d := by
            intro heq
            rw [heq, hgone] at hk
            cases hk
          rcases hother k hkne with heq | ⟨hdir, -⟩
          · exact .inl (heq ▸ hk)
          · exact .inl hdir
    · rename_i hmissing
      cases happly
      rw [hexists] at hmissing
      have hgone : s.disk.lookup (placeOf base d) = none := Option.not_isSome_iff_eq_none.mp hmissing
      have hnofile : s.disk.fileAt (placeOf base d) = none := by rw [FileTree.fileAt, hgone]
      exact ⟨rfl, hview s.disk hnofile, by rw [hnofile, hdel]; rfl, SameExcept.refl _ _,
        hst _ List.suffix_rfl, fun k hk ↦ .inl hk⟩

theorem applied_of_live (hdel : d.deleted = false) : Applied namespaceId base d s s' := by
  obtain ⟨n, k, hplace⟩ := placeOf_eq_cons base hne
  have hspells : FileTree.Spells (s.chunker.fullPath d.path) (placeOf base d) :=
    fullPath_spells hbase hplain
  rw [hplace] at hspells hst
  have hframe := save_sameExcept hspells hst env.save (chunksOf d)
  rw [applyRecord, hdel] at happly
  simp only [Bool.false_eq_true, if_false] at happly
  cases hsave : s.chunker.save s.disk env.save d.path (chunksOf d) with
  | mk outcome disk =>
    rw [hsave] at happly hframe
    cases outcome with
    | err e => cases happly
    | panic => cases happly
    | ok u =>
      obtain ⟨content, -, hfile, hother⟩ := save_ok hspells hst hsave
      have hstat : disk.stat (s.chunker.fullPath d.path) =
          some (n :: k, .file ⟨content, env.save.now⟩) := by
        rw [disk.stat_of_straight hspells (hframe.1.straight hframe.2 hst), hfile]
        rfl
      have hfileAt : disk.fileAt (n :: k) = some ⟨content, env.save.now⟩ := by
        rw [FileTree.fileAt, hfile]
      simp only [buildFileRecord, hstat] at happly
      split at happly
      · rename_i hform
        split at hform
        · cases hform
        · cases hform
          split at happly
          · cases happly
          · cases happly
            refine ⟨rfl, fun p ↦ ?_, ?_, ?_, ?_, ?_⟩
            · have hrow := liveView_insert s.registry
                (CreateForm.withId ⟨some d.id, d.path, false, content.length,
                  truncateToSeconds env.save.now, namespaceId⟩) (CreateForm.id_withId _)
                namespaceId rfl p
              rw [Registry.create_singleton, hplace, hfileAt]
              exact hrow
            · rw [hplace, hfileAt, hdel]
              rfl
            · rw [hplace]
              exact hframe.1
            · rw [hplace]
              exact hframe.2
            · intro l hl
              have hlne : l ≠ n :: k := by
                intro heq
                rw [heq, hfile] at hl
                cases hl
              change disk.lookup l = some .dir at hl
              rw [hother l hlne] at hl
              rw [hplace]
              -- a new directory lies above the file
              split at hl
              · rename_i hsuf
                exact .inr ⟨hdel, hsuf.trans (List.suffix_cons n k), hlne⟩
              · exact .inl hl
      · cases happly
      · cases happly

theorem applyRecord_ok : Applied namespaceId base d s s' := by
  cases hdel : d.deleted with
  | true => exact applied_of_deleted hbase hplain hne hst happly hdel
  | false => exact applied_of_live hbase hplain hne hst happly hdel

end Record

/-! ## 2. All records -/

/-- The files and rows after the records are carried out. -/
structure Carried (namespaceId : Int) (base : Place Name) (ds : List ResponseFileRecord)
    (s s' : ClientState) : Prop where
  chunker : s'.chunker = s.chunker
  other : ∀ p, p ∉ ds.map ResponseFileRecord.path →
    liveView s'.registry namespaceId p = liveView s.registry namespaceId p
  live : ∀ d ∈ ds, (liveView s'.registry namespaceId d.path).isSome = !d.deleted
  frame : ∀ k, k ∉ ds.map (placeOf base) → ∀ node, node ≠ .dir →
    (s'.disk.lookup k = some node ↔ s.disk.lookup k = some node)
  dirs : ∀ k, s'.disk.lookup k = some .dir → s.disk.lookup k = some .dir ∨
    ∃ d ∈ ds, d.deleted = false ∧ k <:+ placeOf base d ∧ k ≠ placeOf base d
  straight : ∀ k, s.disk.Straight k → s'.disk.Straight k
  files : (ds.map (placeOf base)).Nodup → ∀ d ∈ ds,
    liveView s'.registry namespaceId d.path =
      (s'.disk.fileAt (placeOf base d)).map FileData.version

theorem Carried.fileAt {namespaceId : Int} {base : Place Name} {ds : List ResponseFileRecord}
    {s s' : ClientState} (h : Carried namespaceId base ds s s') {k : Place Name}
    (hk : k ∉ ds.map (placeOf base)) : s'.disk.fileAt k = s.disk.fileAt k := by
  ext data
  simp only [FileTree.fileAt_eq_some_iff]
  exact h.frame k hk (.file data) (by simp)

theorem applyRecords_ok {base : Place Name} {ds : List ResponseFileRecord}
    {env : Nat → RecordEnv} {namespaceId : Int} {i : Nat} {s s' : ClientState}
    (hbase : FileTree.Spells s.chunker.basePath base)
    (hplain : ∀ d ∈ ds, PlainPath d.path (namesOf d.path) ∧ namesOf d.path ≠ [])
    (hst : ∀ d ∈ ds, s.disk.Straight (placeOf base d))
    (hdistinct : (ds.map ResponseFileRecord.path).Nodup)
    (h : applyRecords env namespaceId i s ds = (s', .ok ())) :
    Carried namespaceId base ds s s' := by
  induction ds generalizing i s with
  | nil =>
    cases h
    exact ⟨rfl, fun _ _ ↦ rfl, by simp, fun _ _ _ _ ↦ Iff.rfl, fun _ hk ↦ .inl hk,
      fun _ hk ↦ hk, by simp⟩
  | cons d ds ih =>
    have hd := hplain d List.mem_cons_self
    rw [applyRecords] at h
    cases happly : applyRecord (env i) namespaceId s d with
    | mk s₁ outcome =>
      rw [happly] at h
      cases outcome with
      | err e => cases h
      | panic => cases h
      | ok u =>
        have happlied := applyRecord_ok hbase hd.1 hd.2 (hst d List.mem_cons_self) happly
        have hbase₁ : FileTree.Spells s₁.chunker.basePath base := by
          rw [happlied.chunker]
          exact hbase
        have hst₁ : ∀ k, s.disk.Straight k → s₁.disk.Straight k :=
          fun k ↦ happlied.frame.straight happlied.noLink
        rw [List.map_cons, List.nodup_cons] at hdistinct
        have hrest := ih hbase₁ (fun e he ↦ hplain e (List.mem_cons_of_mem d he))
          (fun e he ↦ hst₁ _ (hst e (List.mem_cons_of_mem d he))) hdistinct.2 h
        -- the later records leave the path and, where places differ, the file of `d` alone
        have hview : liveView s'.registry namespaceId d.path =
            (s₁.disk.fileAt (placeOf base d)).map FileData.version := by
          rw [hrest.other d.path hdistinct.1, happlied.view, if_pos rfl]
        refine ⟨hrest.chunker.trans happlied.chunker, fun p hp ↦ ?_, fun e he ↦ ?_,
          fun k hk node hnode ↦ ?_, fun k hk ↦ ?_, fun k hk ↦ hrest.straight k (hst₁ k hk),
          fun hplaces e he ↦ ?_⟩
        · rw [List.map_cons, List.mem_cons, not_or] at hp
          rw [hrest.other p hp.2, happlied.view, if_neg hp.1]
        · rcases List.mem_cons.mp he with rfl | he
          · rw [hview, Option.isSome_map, happlied.file]
          · exact hrest.live e he
        · rw [List.map_cons, List.mem_cons, not_or] at hk
          exact (hrest.frame k hk.2 node hnode).trans (happlied.frame k hk.1 node hnode)
        · rcases hrest.dirs k hk with hk | ⟨e, he, hnew⟩
          · rcases happlied.dirs k hk with hk | hnew
            · exact .inl hk
            · exact .inr ⟨d, List.mem_cons_self, hnew⟩
          · exact .inr ⟨e, List.mem_cons_of_mem d he, hnew⟩
        · rw [List.map_cons, List.nodup_cons] at hplaces
          rcases List.mem_cons.mp he with rfl | he
          · rw [hview, hrest.fileAt hplaces.1]
          · exact hrest.files hplaces.2 e he

/-! ## 3. The index pass that follows -/

/-- The scan meets the file of the record, under the path of the record, and creating it makes no
directory that looks like a file. -/
structure Indexable (env : ScanEnv) (base : Place Name) (d : ResponseFileRecord) : Prop where
  canonical : IsCanonical d.path
  visible : isVisible env base (namesOf d.path).reverse = true
  readable : env.metadataFails (placeOf base d) = false
  above : ∀ n ∈ (namesOf d.path).reverse.tail, isEligibleName n = false

/-- The storage directory is tidy, and the response has different plain paths, without links on
their way. -/
structure TidyResponse (s : ClientState) (base : Place Name) (ds : List ResponseFileRecord) :
    Prop where
  rooted : Rooted s.disk s.chunker.basePath base
  tidy : Tidy s.disk base
  distinct : (ds.map ResponseFileRecord.path).Nodup
  plain : ∀ d ∈ ds, PlainPath d.path (namesOf d.path) ∧ namesOf d.path ≠ []
  straight : ∀ d ∈ ds, s.disk.Straight (placeOf base d)
  deletions : ∀ d ∈ ds, d.deleted = true → IsCanonical d.path

theorem suffix_names {base : Place Name} {d : ResponseFileRecord} {rel : List Name}
    (h : rel ++ base <:+ placeOf base d) : rel <:+ (namesOf d.path).reverse := by
  obtain ⟨pre, hpre⟩ := h
  refine ⟨pre, (List.append_left_inj base).mp ?_⟩
  rw [List.append_assoc]
  exact hpre

theorem isClear_withDirMetadata (env : ScanEnv) (dirMetadata : Place Name → Nat × OffsetDateTime)
    (base : Place Name) (rel : List Name) :
    isClear { env with dirMetadata := dirMetadata } base rel = isClear env base rel := by
  induction rel with
  | nil => rfl
  | cons n rel ih => rw [isClear, isClear, ih]

theorem isVisible_withDirMetadata (env : ScanEnv) (dirMetadata : Place Name → Nat × OffsetDateTime)
    (base : Place Name) (rel : List Name) :
    isVisible { env with dirMetadata := dirMetadata } base rel = isVisible env base rel := by
  cases rel with
  | nil => rfl
  | cons n rel => rw [isVisible, isVisible, isClear_withDirMetadata]

theorem isClear_of_suffix {env : ScanEnv} {base : Place Name} {pre rel : List Name}
    (hsuf : pre <:+ rel) (h : isClear env base rel = true) : isClear env base pre = true := by
  induction rel with
  | nil => rwa [List.suffix_nil.mp hsuf]
  | cons n rel ih =>
    rcases List.suffix_cons_iff.mp hsuf with heq | hsuf
    · rwa [heq]
    · rw [isClear, Bool.and_eq_true, Bool.and_eq_true] at h
      exact ih hsuf h.1.1

section After

variable {namespaceId : Int} {base : Place Name} {ds : List ResponseFileRecord}
  {s s' : ClientState} (hresp : TidyResponse s base ds) (hcarried : Carried namespaceId base ds s s')

include hresp

theorem nodup_places (hcanonical : ∀ d ∈ ds, IsCanonical d.path) :
    (ds.map (placeOf base)).Nodup := by
  have hpaths := hresp.distinct
  rw [List.Nodup, List.pairwise_map] at hpaths ⊢
  refine hpaths.imp_of_mem fun {d e} hd he hne heq ↦ hne ?_
  have hnames : (namesOf d.path).reverse = (namesOf e.path).reverse :=
    List.append_cancel_right heq
  rw [← hcanonical d hd, ← hcanonical e he, hnames]

include hcarried

theorem names_after (rel : List Name) (h : (s'.disk.lookup (rel ++ base)).isSome) :
    ∀ n ∈ rel, IsFileName n := by
  have hspelled : ∀ d, rel ++ base <:+ placeOf base d → ∀ n ∈ rel, IsFileName n := by
    intro d hsuf n hn
    have hmem := (suffix_names hsuf).subset hn
    exact isFileName_of_mem_namesOf (List.mem_reverse.mp hmem)
  obtain ⟨node, hnode⟩ := Option.isSome_iff_exists.mp h
  by_cases hdir : node = .dir
  · rcases hcarried.dirs (rel ++ base) (hdir ▸ hnode) with hold | ⟨d, -, -, hsuf, -⟩
    · exact hresp.tidy.names rel (by rw [hold]; rfl)
    · exact hspelled d hsuf
  · by_cases hplace : rel ++ base ∈ ds.map (placeOf base)
    · obtain ⟨d, -, heq⟩ := List.mem_map.mp hplace
      exact hspelled d (heq ▸ List.suffix_rfl)
    · have hold := (hcarried.frame _ hplace node hdir).mp hnode
      exact hresp.tidy.names rel (by rw [hold]; rfl)

theorem rooted_after : Rooted s'.disk s.chunker.basePath base :=
  ⟨hresp.rooted.spells, hcarried.straight base hresp.rooted.straight, hresp.rooted.ineligible⟩

theorem tidy_after (habove : ∀ d ∈ ds, d.deleted = false →
    ∀ n ∈ (namesOf d.path).reverse.tail, isEligibleName n = false) : Tidy s'.disk base := by
  refine ⟨names_after hresp hcarried, fun n rel hdir ↦ ?_⟩
  rcases hcarried.dirs _ hdir with hold | ⟨d, hd, hlive, hsuf, hne⟩
  · exact hresp.tidy.dirs n rel hold
  · have hnames : n :: rel <:+ (namesOf d.path).reverse := suffix_names hsuf
    have hne : n :: rel ≠ (namesOf d.path).reverse := by
      intro heq
      apply hne
      rw [placeOf, ← heq]
      rfl
    refine habove d hd hlive n ?_
    cases hrev : (namesOf d.path).reverse with
    | nil =>
      rw [hrev] at hnames
      cases List.suffix_nil.mp hnames
    | cons m above =>
      rw [hrev] at hnames hne
      have hsuf := (List.suffix_cons_iff.mp hnames).resolve_left hne
      exact hsuf.subset List.mem_cons_self

omit hresp in
/-- The file at a canonical path that the response does not list stays. -/
theorem fileAt_other (hcanonical : ∀ d ∈ ds, IsCanonical d.path) {p : Text}
    (hp : IsCanonical p) (hnot : p ∉ ds.map ResponseFileRecord.path) :
    s'.disk.fileAt ((namesOf p).reverse ++ base) = s.disk.fileAt ((namesOf p).reverse ++ base) := by
  apply hcarried.fileAt
  intro hmem
  obtain ⟨d, hd, heq⟩ := List.mem_map.mp hmem
  have hnames : (namesOf d.path).reverse = (namesOf p).reverse := List.append_cancel_right heq
  apply hnot
  rw [← hp, ← hnames, hcanonical d hd]
  exact List.mem_map_of_mem hd

/-- There is a file at the places of the live records, and none at those of the deleted ones. -/
theorem isSome_fileAt_place (hcanonical : ∀ d ∈ ds, IsCanonical d.path) :
    ∀ d ∈ ds, (s'.disk.fileAt (placeOf base d)).isSome = !d.deleted := by
  intro d hd
  rw [← hcarried.live d hd, hcarried.files (nodup_places hresp hcanonical) d hd, Option.isSome_map]

/-- The path of an entry spells its names. -/
theorem namesOf_entry {env : ScanEnv} {rel : List Name}
    (hrel : rel ∈ eligibleEntries s'.disk env s.chunker.basePath) :
    namesOf (relativePath rel) = rel.reverse := by
  have hthere : rel ≠ [] ∧ (s'.disk.lookup (rel ++ base)).isSome := by
    rcases (mem_eligibleEntries_iff (rooted_after hresp hcarried) env rel).mp hrel with
      ⟨hvisible, hfile⟩ | ⟨n, above, hrel, hdir, -⟩
    · obtain ⟨data, hdata⟩ := Option.isSome_iff_exists.mp hfile
      rw [(s'.disk.fileAt_eq_some_iff _ _).mp hdata]
      exact ⟨ne_nil_of_isVisible hvisible, rfl⟩
    · rw [hdir]
      exact ⟨by rw [hrel]; simp, rfl⟩
  exact namesOf_relativePath hthere.1 (names_after hresp hcarried rel hthere.2)

/-- When the scan meets every file that was written, it agrees with the rows. -/
theorem agree_after {env : ScanEnv} (hbefore : Readable s.disk env base ∧
      ∀ p, liveView s.registry namespaceId p = diskView s.disk env base p)
    (hindexable : ∀ d ∈ ds, d.deleted = false → Indexable env base d)
    (dirMetadata : Place Name → Nat × OffsetDateTime) :
    Readable s'.disk { env with dirMetadata := dirMetadata } base ∧ ∀ p,
      liveView s'.registry namespaceId p =
        diskView s'.disk { env with dirMetadata := dirMetadata } base p := by
  have hcanonical : ∀ d ∈ ds, IsCanonical d.path := by
    intro d hd
    cases hdel : d.deleted with
    | true => exact hresp.deletions d hd hdel
    | false => exact (hindexable d hd hdel).canonical
  have hfiles := hcarried.files (nodup_places hresp hcanonical)
  have hlive := isSome_fileAt_place hresp hcarried hcanonical
  constructor
  · intro rel hvisible hfile
    rw [isVisible_withDirMetadata] at hvisible
    by_cases hplace : rel ++ base ∈ ds.map (placeOf base)
    · obtain ⟨d, hd, heq⟩ := List.mem_map.mp hplace
      rw [← heq] at hfile ⊢
      have hdel := hlive d hd
      rw [hfile] at hdel
      exact (hindexable d hd (by simpa using hdel.symm)).readable
    · rw [hcarried.fileAt hplace] at hfile
      exact hbefore.1 rel hvisible hfile
  · intro p
    rw [diskView, isVisible_withDirMetadata]
    by_cases hp : p ∈ ds.map ResponseFileRecord.path
    · -- the row of a listed path has the version of the file there, if there is one
      obtain ⟨d, hd, rfl⟩ := List.mem_map.mp hp
      rw [hfiles d hd]
      cases hdel : d.deleted with
      | true =>
        have hgone := hlive d hd
        rw [hdel, Bool.not_true, Option.isSome_eq_false_iff, Option.isNone_iff_eq_none] at hgone
        have hgone' : s'.disk.fileAt ((namesOf d.path).reverse ++ base) = none := hgone
        rw [hgone, hgone']
        simp
      | false =>
        have hd' := hindexable d hd hdel
        rw [if_pos ⟨hd'.canonical, hd'.visible⟩]
        rfl
    · rw [hcarried.other p hp, hbefore.2 p, diskView]
      split
      · rename_i hcond
        rw [fileAt_other hcarried hcanonical hcond.1 hp]
      · rfl

section Agree

variable {env : ScanEnv} {dirMetadata : Place Name → Nat × OffsetDateTime}
  {fromFs : List CreateForm}
variable (hscan : getFileRecordsFromDisk s'.disk { env with dirMetadata := dirMetadata }
    s.chunker.basePath namespaceId = .ok fromFs)
  (hagree : ∀ p, liveView s'.registry namespaceId p = scanView fromFs p)
include hscan hagree

/-- A live path of the response is that of an entry with its names. -/
theorem exists_entry {d : ResponseFileRecord} (hd : d ∈ ds) (hdel : d.deleted = false) :
    (namesOf d.path).reverse ∈
        eligibleEntries s'.disk { env with dirMetadata := dirMetadata } s.chunker.basePath ∧
      IsCanonical d.path := by
  obtain ⟨rel, hrel, heq⟩ := (isSome_liveView_iff hscan hagree d.path).mp
    (by rw [hcarried.live d hd, hdel]; rfl)
  have hnames : (namesOf d.path).reverse = rel := by
    rw [← heq, namesOf_entry hresp hcarried hrel, List.reverse_reverse]
  rw [IsCanonical, hnames]
  exact ⟨hrel, heq⟩

theorem canonical_of_agree : ∀ d ∈ ds, IsCanonical d.path := by
  intro d hd
  cases hdel : d.deleted with
  | true => exact hresp.deletions d hd hdel
  | false => exact (exists_entry hresp hcarried hscan hagree hd hdel).2

/-- Every entry that is kept has a live row, and so is a file. -/
theorem isSome_fileAt_entry (hbefore : ∀ p, liveView s.registry namespaceId p =
      diskView s.disk env base p) {rel : List Name}
    (hrel : rel ∈ eligibleEntries s'.disk { env with dirMetadata := dirMetadata }
      s.chunker.basePath) : (s'.disk.fileAt (rel ++ base)).isSome := by
  have hcanonical := canonical_of_agree hresp hcarried hscan hagree
  have hspelled := namesOf_entry hresp hcarried hrel
  have hrow := (isSome_liveView_iff hscan hagree (relativePath rel)).mpr ⟨rel, hrel, rfl⟩
  by_cases hlisted : relativePath rel ∈ ds.map ResponseFileRecord.path
  · obtain ⟨e, he, heq⟩ := List.mem_map.mp hlisted
    have hlive := hcarried.live e he
    rw [heq, hrow] at hlive
    have hfile := isSome_fileAt_place hresp hcarried hcanonical e he
    rwa [← hlive, placeOf, heq, hspelled, List.reverse_reverse] at hfile
  · have hp : IsCanonical (relativePath rel) := by
      rw [IsCanonical, hspelled, List.reverse_reverse]
    have hsame := fileAt_other hcarried hcanonical hp hlisted
    rw [hspelled, List.reverse_reverse] at hsame
    rw [hcarried.other _ hlisted, hbefore, diskView, hspelled, List.reverse_reverse,
      ← hsame] at hrow
    split at hrow
    · rwa [Option.isSome_map] at hrow
    · cases hrow

theorem visible_of_agree {d : ResponseFileRecord} (hd : d ∈ ds) (hdel : d.deleted = false) :
    isVisible env base (namesOf d.path).reverse = true := by
  have hentry := exists_entry hresp hcarried hscan hagree hd hdel
  rcases (mem_eligibleEntries_iff (rooted_after hresp hcarried) _ _).mp hentry.1 with ⟨hv, -⟩ | hdir
  · rwa [isVisible_withDirMetadata] at hv
  · obtain ⟨n, above, -, hdir, -⟩ := hdir
    have hcanonical := canonical_of_agree hresp hcarried hscan hagree
    have hfile := isSome_fileAt_place hresp hcarried hcanonical d hd
    rw [hdel, placeOf, FileTree.fileAt, hdir] at hfile
    cases hfile

/-- A directory that looks like a file would be an entry without a row. -/
theorem above_of_agree (hbefore : ∀ p, liveView s.registry namespaceId p =
      diskView s.disk env base p) {d : ResponseFileRecord} (hd : d ∈ ds)
    (hdel : d.deleted = false) :
    ∀ n ∈ (namesOf d.path).reverse.tail, isEligibleName n = false := by
  have hv := visible_of_agree hresp hcarried hscan hagree hd hdel
  have hfile := isSome_fileAt_place hresp hcarried
    (canonical_of_agree hresp hcarried hscan hagree) d hd
  intro n hn
  rw [← Bool.not_eq_true]
  intro heligible
  rw [hdel, placeOf] at hfile
  cases hrev : (namesOf d.path).reverse with
  | nil =>
    rw [hrev] at hn
    cases hn
  | cons m above =>
    rw [hrev] at hn hv hfile
    -- the directory `n` has no dot and is met without an error, as the file below it is
    obtain ⟨pre, rest, hsplit⟩ := List.append_of_mem (show n ∈ above from hn)
    have hsuf : n :: rest <:+ above := ⟨pre, hsplit.symm⟩
    rw [isVisible, Bool.and_eq_true, Bool.and_eq_true] at hv
    have hclear := isClear_of_suffix hsuf hv.1.2
    rw [isClear, Bool.and_eq_true, Bool.and_eq_true, Bool.not_eq_true'] at hclear
    have hdir : s'.disk.lookup (n :: rest ++ base) = some .dir := by
      obtain ⟨data, hdata⟩ := Option.isSome_iff_exists.mp hfile
      have hlookup := (s'.disk.fileAt_eq_some_iff _ _).mp hdata
      have hthere : (s'.disk.lookup (m :: (above ++ base))).isSome := by
        rw [← List.cons_append, hlookup]
        rfl
      exact s'.disk.lookup_above hthere (List.suffix_append_self_iff.mpr hsuf)
    have hrel : n :: rest ∈ eligibleEntries s'.disk { env with dirMetadata := dirMetadata }
        s.chunker.basePath := by
      rw [mem_eligibleEntries_iff (rooted_after hresp hcarried)]
      exact .inr ⟨n, rest, rfl, hdir, heligible, by rw [isClear_withDirMetadata]; exact hclear.1.1,
        hclear.1.2⟩
    have hnofile := isSome_fileAt_entry hresp hcarried hscan hagree hbefore hrel
    rw [FileTree.fileAt, hdir] at hnofile
    cases hnofile

/-- When the rows agree with what the scan meets, it meets every file that was written. -/
theorem indexable_of_agree (hbefore : ∀ p, liveView s.registry namespaceId p =
      diskView s.disk env base p) : ∀ d ∈ ds, d.deleted = false → Indexable env base d := by
  intro d hd hdel
  have habove := fun e he hlive ↦
    @above_of_agree _ _ _ _ _ hresp hcarried _ _ _ hscan hagree hbefore e he hlive
  have hcanonical := canonical_of_agree hresp hcarried hscan hagree
  have hvisible := visible_of_agree hresp hcarried hscan hagree hd hdel
  have hreadable := (scanView_eq_diskView (rooted_after hresp hcarried)
    (tidy_after hresp hcarried habove) hscan).1
  have hfile := isSome_fileAt_place hresp hcarried hcanonical d hd
  rw [hdel] at hfile
  refine ⟨hcanonical d hd, hvisible, ?_, habove d hd hdel⟩
  exact hreadable (namesOf d.path).reverse (by rwa [isVisible_withDirMetadata]) hfile

end Agree

end After

/-! ## 4. The two passes -/

/-- After a download pass an index pass has nothing to do exactly when its scan can meet every file
that was written, under the path the server lists. -/
theorem checkIndexOnce_after_download_iff {sha256 : Bytes → Text} {env : DownloadEnv}
    {list : Int → Outcome SyncError (List ResponseFileRecord)} {namespaceId : Int}
    {s s' : ClientState} {base : Place Name} {ds : List ResponseFileRecord} {b : Bool}
    {scan : ScanEnv} {order order' : IterationOrder} {faults faults' : IndexFaults}
    (dirMetadata : Place Name → Nat × OffsetDateTime)
    (hbefore : checkIndexOnce s.registry s.disk scan order faults s.chunker.basePath namespaceId =
      (s.registry, .ok false))
    (hlist : list (latestLocal env s namespaceId) = .ok ds)
    (hpass : checkDownloadOnce sha256 env list namespaceId s = (s', .ok b))
    (hresp : TidyResponse s base ds) (hfaults : faults'.nonDeleted = false) :
    checkIndexOnce s'.registry s'.disk { scan with dirMetadata := dirMetadata } order' faults'
        s.chunker.basePath namespaceId = (s'.registry, .ok false) ↔
      ∀ d ∈ ds, d.deleted = false → Indexable scan base d := by
  obtain ⟨c, hpath, hloop⟩ := checkDownloadOnce_ok hlist hpass
  have hresp' : TidyResponse { s with chunker := c } base ds :=
    ⟨hpath ▸ hresp.rooted, hresp.tidy, hresp.distinct, hresp.plain, hresp.straight,
      hresp.deletions⟩
  have hcarried := applyRecords_ok hresp'.rooted.spells hresp.plain hresp.straight hresp.distinct
    hloop
  have hidle := (checkIndexOnce_idle_of_tidy hresp.rooted hresp.tidy s.registry scan order
    (faults_of_ok hbefore) namespaceId).mp hbefore
  rw [← hpath]
  constructor
  · intro hafter
    obtain ⟨fromFs, hscan, hagree⟩ := (checkIndexOnce_idle_iff _ _ _ _ hfaults _ _).mp hafter
    exact indexable_of_agree hresp' hcarried hscan hagree hidle.2
  · intro hindexable
    have htidy := tidy_after hresp' hcarried fun d hd hdel ↦ (hindexable d hd hdel).above
    exact (checkIndexOnce_idle_of_tidy (rooted_after hresp' hcarried) htidy _ _ _ hfaults _).mpr
      (agree_after hresp' hcarried hidle hindexable dirMetadata)

-- An example: the first download into the empty storage directory `/s`, then an index pass.
def emptyStorage : ClientState where
  registry := Table.empty
  chunker := ⟨⟨fun _ ↦ none, 0, fun _ _ ↦ false⟩, parsePath "/s".toList⟩
  disk := FileTree.root.put [115] [] .dir

def emptyFile (path : Text) : ResponseFileRecord := ⟨1, path, false, []⟩

def firstDownload (path : Text) : ClientState × Outcome SyncError Bool :=
  checkDownloadOnce (fun _ ↦ []) (deletionEnv false) (fun _ ↦ .ok [emptyFile path]) 1 emptyStorage

def quietScan : ScanEnv := ⟨fun _ ↦ false, fun _ ↦ false, fun _ ↦ (0, ⟨0, 0⟩)⟩

def index (s : ClientState) : Registry × Outcome SyncError Bool :=
  checkIndexOnce s.registry s.disk quietScan ⟨.inOrder, .inOrder⟩ ⟨false, false, false⟩
    emptyStorage.chunker.basePath 1

-- The directory holds one recipe that the registry knows; the server lists its deletion and another
-- recipe.
def oneRecipe : ClientState where
  registry := Registry.create Table.empty
    [⟨some 1, "a.cook".toList, false, 1, ⟨0, 0⟩, 1⟩]
  chunker := emptyStorage.chunker
  disk := beforeDeletion.disk

def exchange : List ResponseFileRecord :=
  [⟨2, "a.cook".toList, true, []⟩, emptyFile "b.cook".toList]

def exchanged : ClientState × Outcome SyncError Bool :=
  checkDownloadOnce (fun _ ↦ []) (deletionEnv false) (fun _ ↦ .ok exchange) 1 oneRecipe

theorem tidyResponse_exchange : TidyResponse oneRecipe [[115]] exchange := by
  have hroot : ∀ rel, (oneRecipe.disk.lookup (rel ++ [[115]])).isSome →
      rel = [] ∨ rel = [toUtf8 "a.cook".toList] := by
    intro rel h
    have hmem : rel ++ [[115]] ∈ oneRecipe.disk.nodes.keys :=
      AList.mem_keys.mp (AList.lookup_isSome.mp h)
    have hkeys : oneRecipe.disk.nodes.keys =
        [[toUtf8 "a.cook".toList, [115]], [[115]], []] := by decide
    rw [hkeys] at hmem
    match rel with
    | [] => exact .inl rfl
    | [n] => exact .inr (by simpa using hmem)
    | n :: m :: rel => simp at hmem
  refine ⟨⟨⟨by decide, by decide⟩, by decide, by decide⟩,
    ⟨?_, ?_⟩, by decide, ?_, ?_, ?_⟩
  · intro rel h n hn
    rcases hroot rel h with rfl | rfl
    · cases hn
    · obtain rfl := List.mem_singleton.mp hn
      exact isFileName_of_mem_namesOf (show _ ∈ namesOf "a.cook".toList by decide)
  · intro n rel h
    rcases hroot (n :: rel) (by
      rw [List.cons_append, h]; rfl) with hnil | hfile
    · cases hnil
    · cases hfile
      have hnode : oneRecipe.disk.lookup (toUtf8 "a.cook".toList :: ([] ++ [[115]])) =
          some (.file ⟨[120], ⟨0, 0⟩⟩) := rfl
      rw [hnode] at h
      cases h
  all_goals
    intro d hd
    simp only [exchange, List.mem_cons, List.not_mem_nil, or_false] at hd
    rcases hd with rfl | rfl
  · exact ⟨by unfold PlainPath; decide, by decide⟩
  · exact ⟨by unfold PlainPath; decide, by decide⟩
  · decide
  · decide
  · exact fun _ ↦ by decide
  · intro hdel
    cases hdel

theorem checkIndexOnce_after_exchange :
    exchanged.2 = .ok true ∧
      exchanged.1.registry.rows.map (fun r ↦ (r.path, r.deleted)) =
        [("a.cook".toList, false), ("a.cook".toList, true), ("b.cook".toList, false)] ∧
      index exchanged.1 = (exchanged.1.registry, .ok false) := by
  have hbefore : index oneRecipe = (oneRecipe.registry, .ok false) := idle_of_snd (by decide +kernel)
  have hok : exchanged.2 = .ok true := by decide +kernel
  have hpass : exchanged = (exchanged.1, .ok true) := by rw [← hok]
  refine ⟨hok, by decide +kernel, ?_⟩
  apply (checkIndexOnce_after_download_iff (fun _ ↦ (0, ⟨0, 0⟩)) hbefore rfl hpass
    tidyResponse_exchange rfl).mpr
  intro d hd hlive
  simp only [exchange, List.mem_cons, List.not_mem_nil, or_false] at hd
  rcases hd with rfl | rfl
  · cases hlive
  · exact ⟨by decide, by decide, rfl, by decide⟩

-- The file is written to a directory that the scan does not enter.
theorem checkIndexOnce_tombstones_download :
    ¬ ∀ (sha256 : Bytes → Text) (env : DownloadEnv)
      (list : Int → Outcome SyncError (List ResponseFileRecord)) (namespaceId : Int)
      (s s' : ClientState) (ds : List ResponseFileRecord) (b : Bool) (scan : ScanEnv)
      (order : IterationOrder) (faults : IndexFaults),
      checkIndexOnce s.registry s.disk scan order faults s.chunker.basePath namespaceId =
        (s.registry, .ok false) →
      list (latestLocal env s namespaceId) = .ok ds →
      (ds.map ResponseFileRecord.path).Nodup →
      checkDownloadOnce sha256 env list namespaceId s = (s', .ok b) →
      checkIndexOnce s'.registry s'.disk scan order faults s.chunker.basePath namespaceId =
        (s'.registry, .ok false) := by
  intro h
  have hbefore : index emptyStorage = (emptyStorage.registry, .ok false) :=
    idle_of_snd (by decide +kernel)
  have hok : (firstDownload ".h/a.cook".toList).2 = .ok true := by decide +kernel
  have hpass : firstDownload ".h/a.cook".toList =
      ((firstDownload ".h/a.cook".toList).1, .ok true) := by
    rw [← hok]
  have hidle : index (firstDownload ".h/a.cook".toList).1 =
      ((firstDownload ".h/a.cook".toList).1.registry, .ok false) :=
    h (fun _ ↦ []) (deletionEnv false) (fun _ ↦ .ok [emptyFile ".h/a.cook".toList]) 1 emptyStorage
      (firstDownload ".h/a.cook".toList).1 [emptyFile ".h/a.cook".toList] true quietScan
      ⟨.inOrder, .inOrder⟩ ⟨false, false, false⟩ hbefore rfl (List.nodup_singleton _) hpass
  have hbusy : (index (firstDownload ".h/a.cook".toList).1).2 = .ok true := by decide +kernel
  rw [hidle] at hbusy
  cases hbusy

end Syncer

end CooklangSync.Client
