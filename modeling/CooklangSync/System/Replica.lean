import CooklangSync.Client.Cache
import CooklangSync.Client.Views
import CooklangSync.System.Peers
import CooklangSync.Theory.History
import CooklangSync.Theory.Lexical

/-!
# Replica — a client that only downloads

The files of such a client are the live files of the journal as it was when the client last looked.
A pass needs the newest record of each path past the cursor and nothing of what lies between; it may
also start from an older cursor (`checkDownloadOnce_replica`).
-/

namespace CooklangSync.System

open Theory

/-! ## 1. Journals and their snapshots -/

/-- The journal that the records make, one after the other. -/
def journalOfRecords (records : List Server.NewFileRecord) : Server.Journal :=
  records.foldl (fun journal record ↦ (Server.insertNewRecord journal record).2) Table.empty

theorem extends_foldl (records : List Server.NewFileRecord) (journal : Server.Journal) :
    (records.foldl (fun journal record ↦ (Server.insertNewRecord journal record).2)
      journal).Extends journal := by
  induction records generalizing journal with
  | nil => exact Table.Extends.refl journal
  | cons record rest ih =>
    exact (ih _).trans (journal.extends_insert record.withId record.id_withId)

theorem extends_take (records : List Server.NewFileRecord) (k : Nat) :
    (journalOfRecords records).Extends (journalOfRecords (records.take k)) := by
  have hsplit := records.take_append_drop k
  rw [journalOfRecords, journalOfRecords, ← hsplit, List.foldl_append, hsplit]
  exact extends_foldl _ _

theorem id_pos_journalOfRecords (records : List Server.NewFileRecord) :
    ∀ r ∈ (journalOfRecords records).rows, 0 < r.id := by
  suffices h : ∀ (records : List Server.NewFileRecord) (journal : Server.Journal),
      (∀ r ∈ journal.rows, 0 < r.id) →
      ∀ r ∈ (records.foldl (fun journal record ↦ (Server.insertNewRecord journal record).2)
        journal).rows, 0 < r.id from
    h records Table.empty fun r hr ↦ by cases hr
  intro records
  induction records with
  | nil => exact fun journal hpos ↦ hpos
  | cons record rest ih =>
    intro journal hpos
    apply ih
    intro r hr
    rcases List.mem_append.mp hr with hr | hr
    · exact hpos r hr
    · rw [List.mem_singleton.mp hr]
      exact journal.nextId_pos hpos

/-- The bytes of a live path, by its newest record. -/
def snapshot (store : Text → Option Bytes) (journal : Server.Journal) (userId : Int)
    (path : Text) : Option Bytes :=
  match Server.latestForPath journal userId path with
  | some r => if r.deleted then none else some (Client.contentOf store r.chunkIds)
  | none => none

/-- Plain relative paths, spelled as the indexer spells them. -/
def PlainPaths (journal : Server.Journal) (userId : Int) : Prop :=
  ∀ r ∈ journal.rows, r.userId = userId →
    Client.PlainPath r.path (Client.namesOf r.path) ∧ Client.namesOf r.path ≠ [] ∧
      Client.IsCanonical r.path

/-- The chunks of the live records are stored. -/
def ChunksStored (store : Text → Option Bytes) (journal : Server.Journal) (userId : Int) : Prop :=
  ∀ r ∈ journal.rows, r.userId = userId → r.deleted = false →
    ∀ id ∈ r.chunkIds.splitOn ',', id ≠ [] → (store id).isSome

/-! ## 2. Replicas -/

def placeOfPath (base : Place Name) (path : Text) : Place Name :=
  (Client.namesOf path).reverse ++ base

/-- The files below the storage directory are the live files of the journal, the cursor is its
greatest id, and nothing wrong is cached. -/
structure IsReplica (store : Text → Option Bytes) (journal : Server.Journal) (userId : Int)
    (namespaceId : Int) (base : Place Name) (s : Client.ClientState) : Prop where
  spells : FileTree.Spells s.chunker.basePath base
  straight : ∀ k, base <:+ k → s.disk.Straight k
  files : ∀ k, base <:+ k → ∀ content, Client.Chunker.contentAt s.disk k = some content ↔
    ∃ path, snapshot store journal userId path = some content ∧ placeOfPath base path = k
  latestJid : s.registry.latestJid namespaceId = journal.greatestId (·.userId == userId)
  agrees : s.chunker.AgreesWith store

theorem placeOfPath_injective {base : Place Name} {p q : Text} (hp : Client.IsCanonical p)
    (hq : Client.IsCanonical q) (h : placeOfPath base p = placeOfPath base q) : p = q := by
  have hnames : (Client.namesOf p).reverse = (Client.namesOf q).reverse :=
    List.append_cancel_right h
  rw [← hp, ← hq, hnames]

theorem mem_of_snapshot {store : Text → Option Bytes} {journal : Server.Journal} {userId : Int}
    {path : Text} {content : Bytes} (h : snapshot store journal userId path = some content) :
    ∃ r ∈ journal.rows, r.userId = userId ∧ r.path = path := by
  unfold snapshot at h
  cases hlatest : Server.latestForPath journal userId path with
  | none =>
    rw [hlatest] at h
    cases h
  | some r => exact ⟨r, Server.latestForPath_spec hlatest⟩

section Pass

variable {sha256 : Bytes → Text} {store : Text → Option Bytes} {known whole : Server.Journal}
  {userId namespaceId j : Int} {base : Place Name} {s : Client.ClientState}
  {response : List Client.ResponseFileRecord}

/-- Rows of the response are newest records past the cursor. -/
theorem mem_response_iff (hresponse : response.Perm ((Server.list whole userId j).map respond))
    (d : Client.ResponseFileRecord) : d ∈ response ↔
      ∃ r, Server.latestForPath whole userId r.path = some r ∧ j < r.id ∧ respond r = d := by
  rw [hresponse.mem_iff, List.mem_map]
  simp only [Server.mem_list_iff]
  constructor
  · rintro ⟨r, ⟨hlatest, hlt⟩, heq⟩
    exact ⟨r, hlatest, hlt, heq⟩
  · rintro ⟨r, hlatest, hlt, heq⟩
    exact ⟨r, ⟨hlatest, hlt⟩, heq⟩

variable (hpaths : PlainPaths whole userId)
  (hresponse : response.Perm ((Server.list whole userId j).map respond))

include hpaths hresponse

theorem plain_of_response {d : Client.ResponseFileRecord} (hd : d ∈ response) :
    Client.PlainPath d.path (Client.namesOf d.path) ∧ Client.namesOf d.path ≠ [] ∧
      Client.IsCanonical d.path := by
  obtain ⟨r, hlatest, -, rfl⟩ := (mem_response_iff hresponse d).mp hd
  have hspec := Server.latestForPath_spec hlatest
  exact hpaths r hspec.1 hspec.2.1

theorem nodup_response : (response.map fun d ↦ Client.namesOf d.path).Nodup := by
  have hlist : (Server.list whole userId j).Nodup :=
    (whole.nodup_ids.of_map _).filter _ |>.filter _
  have hinjective : ∀ r ∈ Server.list whole userId j, ∀ r' ∈ Server.list whole userId j,
      Client.namesOf (respond r).path = Client.namesOf (respond r').path → r = r' := by
    intro r hr r' hr' hnames
    rw [Server.mem_list_iff] at hr hr'
    have hspec := Server.latestForPath_spec hr.1
    have hspec' := Server.latestForPath_spec hr'.1
    have hpath : r.path = r'.path := by
      rw [← (hpaths r hspec.1 hspec.2.1).2.2, ← (hpaths r' hspec'.1 hspec'.2.1).2.2]
      exact congrArg (fun names ↦ Client.relativePath (List.reverse names)) hnames
    rw [hpath, hr'.1] at hr
    exact (Option.some.inj hr.1).symm
  rw [(hresponse.map _).nodup_iff, List.map_map]
  exact hlist.map_on hinjective

theorem plainResponse_of_replica (hspells : FileTree.Spells s.chunker.basePath base)
    (hstraight : ∀ k, base <:+ k → s.disk.Straight k) :
    Client.Syncer.PlainResponse s.chunker s.disk base response where
  spells := hspells
  plain := fun _ hd ↦
    ⟨(plain_of_response hpaths hresponse hd).1, (plain_of_response hpaths hresponse hd).2.1⟩
  distinct := nodup_response hpaths hresponse
  straight := fun _ _ ↦ hstraight _ (List.suffix_append _ _)

omit hpaths in
/-- The newest record of a path that the response does not list is an old one. -/
theorem latestForPath_of_unlisted (hextends : whole.Extends known)
    (hpos : ∀ r ∈ whole.rows, 0 < r.id) (hj : j ≤ (known.greatestId (·.userId == userId)).getD 0)
    {path : Text} (hpath : path ∉ response.map Client.ResponseFileRecord.path) :
    Server.latestForPath whole userId path = Server.latestForPath known userId path := by
  refine hextends.latestOf_eq hpos hj fun r hr hkey ↦ hpath ?_
  have hmem : respond r ∈ response := hresponse.mem_iff.mpr (List.mem_map_of_mem hr)
  rw [← hkey]
  exact List.mem_map_of_mem (f := Client.ResponseFileRecord.path) hmem

omit hpaths in
/-- Once the response is carried out, the cursor is the greatest id. -/
theorem latestJid_of_response (hextends : whole.Extends known) {before registry : Client.Registry}
    (hcursor : before.latestJid namespaceId = known.greatestId (·.userId == userId))
    (hpos : ∀ r ∈ whole.rows, 0 < r.id) (hj : j ≤ (known.greatestId (·.userId == userId)).getD 0)
    (hjids : registry.jids namespaceId =
      before.jids namespaceId ++ response.map Client.ResponseFileRecord.id) :
    registry.latestJid namespaceId = whole.greatestId (·.userId == userId) := by
  have hknown := hcursor
  have hlisted : ∀ d ∈ response, ∃ r ∈ whole.rows, r.userId = userId ∧ r.id = d.id := by
    intro d hd
    obtain ⟨r, hlatest, -, rfl⟩ := (mem_response_iff hresponse d).mp hd
    have hspec := Server.latestForPath_spec hlatest
    exact ⟨r, hspec.1, hspec.2.1, rfl⟩
  cases hm : whole.greatestId (·.userId == userId) with
  | none =>
    have hnone := (whole.greatestId_eq_none_iff _).mp hm
    have hempty : response = [] := by
      rw [List.eq_nil_iff_forall_not_mem]
      intro d hd
      obtain ⟨r, hr, huser, -⟩ := hlisted d hd
      have hno := hnone r hr
      rw [huser] at hno
      simp at hno
    have hknown' : known.greatestId (·.userId == userId) = none :=
      (known.greatestId_eq_none_iff _).mpr fun r hr ↦ hnone r (hextends.mem hr)
    rw [hknown'] at hknown
    rw [hempty, List.map_nil, List.append_nil] at hjids
    rw [← hknown, Client.Registry.latestJid, Client.Registry.latestJid, hjids]
  | some m =>
    have hmax := ((whole.greatestId_eq_some_iff _ m).mp hm).2
    rw [Client.Registry.latestJid_eq_some_iff, hjids]
    constructor
    · rw [List.mem_append]
      have hcases : (∃ r ∈ Server.list whole userId j,
          whole.greatestId (·.userId == userId) = some r.id) ∨
            whole.greatestId (·.userId == userId) = known.greatestId (·.userId == userId) :=
        hextends.greatestId_cases hpos hj
      rcases hcases with ⟨r, hr, heq⟩ | heq
      · have hmem : respond r ∈ response :=
          hresponse.mem_iff.mpr (List.mem_map_of_mem hr)
        rw [hm] at heq
        rw [Option.some.inj heq]
        exact .inr (List.mem_map_of_mem (f := Client.ResponseFileRecord.id) hmem)
      · rw [← heq, hm] at hknown
        exact .inl ((Client.Registry.latestJid_eq_some_iff _ _ _).mp hknown).1
    · intro x hx
      rcases List.mem_append.mp hx with hx | hx
      · obtain ⟨m', hm', hle⟩ := Client.Registry.latestJid_isSome hx
        rw [hknown] at hm'
        obtain ⟨⟨r, hr, huser, rfl⟩, -⟩ := (known.greatestId_eq_some_iff _ m').mp hm'
        exact Int.le_trans hle (hmax r (hextends.mem hr) huser)
      · obtain ⟨d, hd, rfl⟩ := List.mem_map.mp hx
        obtain ⟨r, hr, huser, heq⟩ := hlisted d hd
        rw [← heq]
        exact hmax r hr (by simpa using huser)

variable (hextends : whole.Extends known)
  (hreplica : IsReplica store known userId namespaceId base s)

include hextends hreplica

/-- The files that are hashed hold what the earlier snapshot says. -/
theorem filesTellApart_of_replica (hapart : ∀ path content,
    snapshot store known userId path = some content →
      Client.Chunker.TellsApart sha256 store path content) :
    Client.Syncer.FilesTellApart sha256 store s.chunker s.disk response := by
  intro d hd _ file hfile
  obtain ⟨hplain, -, hcanonical⟩ := plain_of_response hpaths hresponse hd
  have hbelow : base <:+ placeOfPath base d.path := List.suffix_append _ _
  rw [s.disk.readFile_of_straight (Client.Chunker.fullPath_spells hreplica.spells hplain)
    (hreplica.straight _ hbelow)] at hfile
  have hcontent : Client.Chunker.contentAt s.disk (placeOfPath base d.path) =
      some file.content := by
    rw [Client.Chunker.contentAt, placeOfPath, hfile]
    rfl
  obtain ⟨path, hsnapshot, hplace⟩ := (hreplica.files _ hbelow file.content).mp hcontent
  obtain ⟨r, hr, huser, rfl⟩ := mem_of_snapshot hsnapshot
  have hsame := placeOfPath_injective (hpaths r (hextends.mem hr) huser).2.2 hcanonical hplace
  rw [← hsame]
  exact hapart r.path file.content hsnapshot

omit hpaths hreplica in
/-- A path that the response does not list is as it was. -/
theorem snapshot_of_unlisted (hpos : ∀ r ∈ whole.rows, 0 < r.id)
    (hj : j ≤ (known.greatestId (·.userId == userId)).getD 0) {path : Text}
    (hpath : path ∉ response.map Client.ResponseFileRecord.path) :
    snapshot store whole userId path = snapshot store known userId path := by
  rw [snapshot, snapshot, latestForPath_of_unlisted hresponse hextends hpos hj hpath]

theorem files_after {s' : Client.ClientState}
    (hspec : Client.Syncer.PassSpec store namespaceId base response s s')
    (hstored : ChunksStored store whole userId) (hpos : ∀ r ∈ whole.rows, 0 < r.id)
    (hj : j ≤ (known.greatestId (·.userId == userId)).getD 0) (k : Place Name) (hk : base <:+ k)
    (content : Bytes) :
    Client.Chunker.contentAt s'.disk k = some content ↔
      ∃ path, snapshot store whole userId path = some content ∧ placeOfPath base path = k := by
  by_cases hlisted : k ∈ response.map (Client.Syncer.placeOf base)
  · obtain ⟨d, hd, rfl⟩ := List.mem_map.mp hlisted
    have hcanonical := (plain_of_response hpaths hresponse hd).2.2
    obtain ⟨r, hlatest, -, rfl⟩ := (mem_response_iff hresponse d).mp hd
    have hrow := Server.latestForPath_spec hlatest
    have hcontent : Client.Chunker.contentAt s'.disk (Client.Syncer.placeOf base (respond r)) =
        snapshot store whole userId r.path := by
      rw [snapshot, hlatest]
      by_cases hdel : r.deleted = true
      · rw [hspec.contentAt_deleted hd hdel]
        simp only [if_pos hdel]
      · have hlive : r.deleted = false := by simpa using hdel
        rw [hspec.contentAt_live hd hlive (hstored r hrow.1 hrow.2.1 hlive)]
        simp only [if_neg hdel]
        rfl
    rw [hcontent]
    constructor
    · exact fun h ↦ ⟨r.path, h, rfl⟩
    · rintro ⟨path, hsnapshot, hplace⟩
      obtain ⟨r', hr', huser', rfl⟩ := mem_of_snapshot hsnapshot
      have hsame : r'.path = r.path :=
        placeOfPath_injective (hpaths r' hr' huser').2.2 hcanonical hplace
      rwa [← hsame]
  · have hkept : Client.Chunker.contentAt s'.disk k = Client.Chunker.contentAt s.disk k := by
      rw [Client.Chunker.contentAt, Client.Chunker.contentAt, hspec.frame k hlisted]
    rw [hkept, hreplica.files k hk content]
    refine exists_congr fun path ↦ and_congr_left fun hplace ↦ ?_
    rw [snapshot_of_unlisted hresponse hextends hpos hj]
    intro hmem
    obtain ⟨d, hd, rfl⟩ := List.mem_map.mp hmem
    exact hlisted (hplace ▸ List.mem_map_of_mem (f := Client.Syncer.placeOf base) hd)

omit hpaths in
theorem latestJid_after {registry : Client.Registry} (hpos : ∀ r ∈ whole.rows, 0 < r.id)
    (hj : j ≤ (known.greatestId (·.userId == userId)).getD 0)
    (hjids : registry.jids namespaceId =
      s.registry.jids namespaceId ++ response.map Client.ResponseFileRecord.id) :
    registry.latestJid namespaceId = whole.greatestId (·.userId == userId) :=
  latestJid_of_response hresponse hextends hreplica.latestJid hpos hj hjids

end Pass

/-- A pass that succeeds makes a replica of any version of the journal one of a later version,
whatever cursor up to its own the response starts from and in whatever order its rows come. -/
theorem checkDownloadOnce_replica {sha256 : Bytes → Text} {store : Text → Option Bytes}
    (records : List Server.NewFileRecord) (k : Nat) {userId namespaceId j : Int}
    {base : Place Name} {s : Client.ClientState} {env : Client.Syncer.DownloadEnv}
    {response : List Client.ResponseFileRecord} {changed : Bool}
    (hpaths : PlainPaths (journalOfRecords records) userId)
    (hstored : ChunksStored store (journalOfRecords records) userId)
    (hdelivers : Client.Syncer.DeliversStored store env)
    (hapart : ∀ path content,
      snapshot store (journalOfRecords (records.take k)) userId path = some content →
        Client.Chunker.TellsApart sha256 store path content)
    (hreplica : IsReplica store (journalOfRecords (records.take k)) userId namespaceId base s)
    (hj : j ≤ ((journalOfRecords (records.take k)).greatestId (·.userId == userId)).getD 0)
    (hresponse : response.Perm ((Server.list (journalOfRecords records) userId j).map respond))
    (hpass : (Client.Syncer.checkDownloadOnce sha256 env (fun _ ↦ .ok response) namespaceId s).2 =
      .ok changed) :
    IsReplica store (journalOfRecords records) userId namespaceId base
      (Client.Syncer.checkDownloadOnce sha256 env (fun _ ↦ .ok response) namespaceId s).1 := by
  have hextends := extends_take records k
  have hpos := id_pos_journalOfRecords records
  have hspec := Client.Syncer.checkDownloadOnce_spec hdelivers rfl
    (plainResponse_of_replica hpaths hresponse hreplica.spells hreplica.straight) hreplica.agrees
    (filesTellApart_of_replica hpaths hresponse hextends hreplica hapart) hpass
  exact
    { spells := hspec.spells
      straight := fun k hk ↦ hspec.straight k (hreplica.straight k hk)
      files := files_after hpaths hresponse hextends hreplica hspec hstored hpos hj
      latestJid := latestJid_after hresponse hextends hreplica hpos hj hspec.jids
      agrees := hspec.agrees }

/-! ## 3. An example -/

-- A recipe comes and goes, and another one comes; its only line is cached.
def recipeRecords : List Server.NewFileRecord :=
  [⟨1, "87428fc522".toList, false, "a.cook".toList⟩, ⟨1, [], true, "a.cook".toList⟩,
    ⟨1, "87428fc522".toList, false, "b.cook".toList⟩]

def recipeStore (id : Text) : Option Bytes :=
  if id = "87428fc522".toList then some [97, 10] else none

/-- The client that has seen the first recipe go. -/
def recipeClient : Client.ClientState where
  registry := .insert .empty (fun id ↦ ⟨id, some 2, true, "a.cook".toList, 0, ⟨0, 0⟩, 1⟩)
    (fun _ ↦ rfl)
  chunker := ⟨⟨recipeStore, 1, fun _ _ ↦ false⟩, parsePath "/s".toList⟩
  disk := FileTree.root.put [115] [] .dir

theorem snapshot_recipeRecords (path : Text) :
    snapshot recipeStore (journalOfRecords (recipeRecords.take 2)) 1 path = none := by
  by_contra hsome
  obtain ⟨content, hcontent⟩ := Option.ne_none_iff_exists'.mp hsome
  obtain ⟨r, hr, -, hpath⟩ := mem_of_snapshot hcontent
  have hrows : (journalOfRecords (recipeRecords.take 2)).rows.map Server.FileRecord.path =
      ["a.cook".toList, "a.cook".toList] := by decide
  have hmem := List.mem_map_of_mem (f := Server.FileRecord.path) hr
  rw [hrows, hpath] at hmem
  have hname : path = "a.cook".toList := by simpa using hmem
  rw [hname] at hsome
  exact hsome (by decide)

theorem isReplica_recipeClient :
    IsReplica recipeStore (journalOfRecords (recipeRecords.take 2)) 1 1 [[115]] recipeClient where
  spells := ⟨by decide, by decide⟩
  straight := by
    have hlinks : recipeClient.disk.LinkFree := by decide
    exact fun k _ s _ target ↦ hlinks s target
  files := by
    intro k _ content
    have hkeys : recipeClient.disk.nodes.keys = [[[115]], []] := by decide
    have hnofile : recipeClient.disk.fileAt k = none := by
      by_contra hfile
      obtain ⟨data, hdata⟩ := Option.ne_none_iff_exists'.mp hfile
      have hlookup := (recipeClient.disk.fileAt_eq_some_iff k data).mp hdata
      have hmem : k ∈ recipeClient.disk.nodes.keys :=
        AList.mem_keys.mp (AList.lookup_isSome.mp (show (recipeClient.disk.lookup k).isSome by
          rw [hlookup]; rfl))
      rw [hkeys] at hmem
      have hdirs : ∀ k ∈ [[[115]], ([] : Place Name)], recipeClient.disk.fileAt k = none := by
        decide
      rw [hdirs k hmem] at hdata
      cases hdata
    simp only [Client.Chunker.contentAt, hnofile, snapshot_recipeRecords]
    simp
  latestJid := by decide
  agrees := by
    intro id data stored hentry hstored
    exact Option.some.inj (hentry.symm.trans hstored)

def recipeResponse : List Client.ResponseFileRecord :=
  [⟨3, "b.cook".toList, false, "87428fc522".toList⟩, ⟨2, "a.cook".toList, true, []⟩]

def recipeDownload : Client.ClientState × Outcome Client.SyncError Bool :=
  Client.Syncer.checkDownloadOnce Client.Chunker.recipeDigest (Client.Syncer.deletionEnv false)
    (fun _ ↦ .ok recipeResponse) 1 recipeClient

theorem checkDownloadOnce_replica_recipe :
    recipeDownload.2 = .ok true ∧
      IsReplica recipeStore (journalOfRecords recipeRecords) 1 1 [[115]] recipeDownload.1 := by
  have hrows : (journalOfRecords recipeRecords).rows =
      [⟨1, 1, "87428fc522".toList, false, "a.cook".toList⟩, ⟨2, 1, [], true, "a.cook".toList⟩,
        ⟨3, 1, "87428fc522".toList, false, "b.cook".toList⟩] := by decide
  have hpaths : PlainPaths (journalOfRecords recipeRecords) 1 := by
    unfold PlainPaths Client.PlainPath
    rw [hrows]
    decide
  have hstored : ChunksStored recipeStore (journalOfRecords recipeRecords) 1 := by
    unfold ChunksStored
    rw [hrows]
    decide
  have hdelivers : Client.Syncer.DeliversStored recipeStore (Client.Syncer.deletionEnv false) := by
    intro ids chunk hchunk
    have hnothing : (Client.downloadBatch ((Client.Syncer.deletionEnv false).batch ids)).1 = [] :=
      show (Client.downloadBatch ⟨200, some [], []⟩).1 = [] by decide +kernel
    rw [hnothing] at hchunk
    cases hchunk
  have hapart : ∀ path content,
      snapshot recipeStore (journalOfRecords (recipeRecords.take 2)) 1 path = some content →
        Client.Chunker.TellsApart Client.Chunker.recipeDigest recipeStore path content := by
    intro path content h
    rw [snapshot_recipeRecords] at h
    cases h
  have hresponse : recipeResponse.Perm
      ((Server.list (journalOfRecords recipeRecords) 1 1).map respond) := by decide
  have hpass : recipeDownload.2 = .ok true := by decide +kernel
  have hcursor : (1 : Int) ≤ ((journalOfRecords (recipeRecords.take 2)).greatestId
      (·.userId == 1)).getD 0 := by decide
  have hreplica := checkDownloadOnce_replica recipeRecords 2 hpaths hstored hdelivers hapart
    isReplica_recipeClient hcursor hresponse hpass
  exact ⟨hpass, hreplica⟩

end CooklangSync.System
