import CooklangSync.Client.Echo
import CooklangSync.Client.StorageDir
import CooklangSync.System.Quiescence
import CooklangSync.System.Replica
import CooklangSync.System.TwoPasses

/-!
# InStep — a device and the version of the journal it has seen

The rows of a registry that have a jid say what the journal had up to the cursor, and as long as a
file has the version of its row it holds the bytes of the record.  Every operation of a device keeps
it in step with some version of the journal.
-/

namespace CooklangSync.System

open Theory
open Watched (newest newest_spec newest_append newest_of_append newest_updateJid)

/-! ## 1. Sound devices -/

/-- The files are in a storage directory, and their pieces are found again under their ids. -/
structure IsSoundDisk (sha256 : Bytes → Text) (bytesOf : Text → Bytes) (base : Place Name)
    (disk : Client.Disk) (basePath : Path Name) : Prop where
  dir : Client.IsStorageDir disk basePath base
  resolves : ∀ p data, Client.isSyncablePath p = true → Client.fileOf disk base p = some data →
    Client.Resolves sha256 bytesOf p data.content

/-- The rows with a jid are what the journal had, and a file with the version of its row is the one
of the record. -/
structure InStep (bytesOf : Text → Bytes) (userId namespaceId : Int) (base : Place Name)
    (known : Server.Journal) (registry : Client.Registry) (disk : Client.Disk) : Prop where
  cursor : registry.latestJid namespaceId = known.greatestId (·.userId == userId)
  settled : ∀ p r, newest registry namespaceId p = some r → r.jid ≠ none →
    ∃ record, Server.latestForPath known userId p = some record ∧ record.deleted = r.deleted ∧
      (r.deleted = false → ∀ data, Client.fileOf disk base p = some data →
        data.version = (r.size, r.modifiedAt) →
          data.content = Client.contentOf (Client.whole bytesOf) record.chunkIds)
  seen : ∀ p record, Server.latestForPath known userId p = some record →
    ∃ r, newest registry namespaceId p = some r

/-- A record has a syncable path, and a live one the ids of a file that resolves, all of them
stored. -/
structure IsWellFormed (sha256 : Bytes → Text) (bytesOf : Text → Bytes)
    (store : Text → Option Bytes) (r : Server.FileRecord) : Prop where
  syncable : Client.isSyncablePath r.path = true
  stored : r.deleted = false → ∀ id ∈ r.chunkIds.splitOn ',', id ≠ [] → (store id).isSome
  hashed : r.deleted = false → ∃ reads content, Client.Resolves sha256 bytesOf r.path content ∧
    r.chunkIds = List.intercalate [','] (Client.Chunker.chunkIds sha256 reads r.path content)

theorem IsWellFormed.mono {sha256 : Bytes → Text} {bytesOf : Text → Bytes}
    {store store' : Text → Option Bytes} {r : Server.FileRecord}
    (h : IsWellFormed sha256 bytesOf store r)
    (hkept : ∀ id, (store id).isSome → (store' id).isSome) :
    IsWellFormed sha256 bytesOf store' r :=
  ⟨h.syncable, fun hlive id hid hne ↦ hkept id (h.stored hlive id hid hne), h.hashed⟩

theorem IsWellFormed.resolves {sha256 : Bytes → Text} {bytesOf : Text → Bytes}
    {store : Text → Option Bytes} {r : Server.FileRecord} (hdigest : Client.IsHexDigest sha256)
    (h : IsWellFormed sha256 bytesOf store r) (hlive : r.deleted = false) :
    Client.Resolves sha256 bytesOf r.path
      (Client.contentOf (Client.whole bytesOf) r.chunkIds) := by
  obtain ⟨reads, content, hresolves, hids⟩ := h.hashed hlive
  rw [hids, hresolves.contentOf_chunkIds hdigest reads]
  exact hresolves

/-- Only syncable paths have rows. -/
def HasSyncableRows (registry : Client.Registry) (namespaceId : Int) : Prop :=
  ∀ r ∈ registry.rows, r.namespaceId = namespaceId → Client.isSyncablePath r.path = true

/-- A file that is written does not get the version that the registry has for its path. -/
def IsNoticeable (registry : Client.Registry) (namespaceId : Int) (base : Place Name)
    (disk disk' : Client.Disk) : Prop :=
  ∀ p data, Client.isSyncablePath p = true → Client.fileOf disk' base p = some data →
    Client.fileOf disk base p = some data ∨
      Client.liveView registry namespaceId p ≠ some data.version

section Steps

variable {sha256 : Bytes → Text} {bytesOf : Text → Bytes} {userId namespaceId : Int}
  {base : Place Name} {known journal : Server.Journal} {registry registry' : Client.Registry}
  {disk disk' : Client.Disk}

theorem liveView_newest (registry : Client.Registry) (namespaceId : Int) (p : Text) :
    Client.liveView registry namespaceId p = (newest registry namespaceId p).bind fun r ↦
      if r.deleted then none else some (r.size, r.modifiedAt) := by
  rw [Client.liveView, newest]
  cases registry.latestOf (·.namespaceId == namespaceId) Client.FileRecord.path p <;> rfl

theorem syncable_of_newest (hrows : HasSyncableRows registry namespaceId) {p : Text}
    {r : Client.FileRecord} (h : newest registry namespaceId p = some r) :
    Client.isSyncablePath p = true := by
  obtain ⟨hr, hns, rfl⟩ := newest_spec h
  exact hrows r hr hns

/-! ## 2. Index passes and edits -/

/-- Rows without a jid are to be committed, whatever they say. -/
theorem InStep.append (h : InStep bytesOf userId namespaceId base known registry disk)
    {added : List Client.FileRecord} (hrows : registry'.rows = registry.rows ++ added)
    (hnone : ∀ row ∈ added, row.jid = none) :
    InStep bytesOf userId namespaceId base known registry' disk where
  cursor := by
    rw [← h.cursor, Client.Registry.latestJid, Client.Registry.latestJid,
      Client.jids_of_append hrows hnone]
  settled p r hr hjid :=
    h.settled p r (newest_of_append hrows hr fun hmem ↦ hjid (hnone r hmem)) hjid
  seen p record hrecord := by
    obtain ⟨r, hr⟩ := h.seen p record hrecord
    obtain ⟨newer, -, hnewest⟩ := newest_append namespaceId hrows p
    rw [hnewest, hr]
    cases newer with
    | none => exact ⟨r, rfl⟩
    | some r' => exact ⟨r', rfl⟩

/-- After an edit that can be noticed, a file still has the version of its row only if it is the
old one. -/
theorem InStep.edit (h : InStep bytesOf userId namespaceId base known registry disk)
    (hrows : HasSyncableRows registry namespaceId)
    (hnoticed : IsNoticeable registry namespaceId base disk disk') :
    InStep bytesOf userId namespaceId base known registry disk' where
  cursor := h.cursor
  settled p r hr hjid := by
    obtain ⟨record, hrecord, hdel, hcontent⟩ := h.settled p r hr hjid
    refine ⟨record, hrecord, hdel, fun hlive data hdata hversion ↦ ?_⟩
    rcases hnoticed p data (syncable_of_newest hrows hr) hdata with hold | hne
    · exact hcontent hlive data hold hversion
    · apply absurd _ hne
      rw [liveView_newest, hr, Option.bind_some, hlive, hversion]
      rfl
  seen := h.seen

/-! ## 3. Commits -/

/-- A device whose cursor is the greatest id has seen the whole journal. -/
theorem InStep.of_current (h : InStep bytesOf userId namespaceId base known registry disk)
    (hextends : journal.Extends known) (hpos : ∀ r ∈ journal.rows, 0 < r.id)
    (hcurrent : registry.latestJid namespaceId = journal.greatestId (·.userId == userId)) :
    InStep bytesOf userId namespaceId base journal registry disk := by
  have hsame : ∀ p, Server.latestForPath journal userId p = Server.latestForPath known userId p :=
    fun p ↦ hextends.latestOf_eq_of_greatestId hpos (hcurrent.symm.trans h.cursor) p
  refine ⟨hcurrent, fun p r hr hjid ↦ ?_, fun p record hrecord ↦ ?_⟩
  · rw [hsame]
    exact h.settled p r hr hjid
  · rw [hsame] at hrecord
    exact h.seen p record hrecord

/-- The jids after an accepted commit. -/
theorem mem_jids_updateJid_iff {f : Client.FileRecord} (hf : f ∈ registry.rows)
    (hns : f.namespaceId = namespaceId) (hjid : f.jid = none) (jid j : Int) :
    j ∈ (registry.updateJid f jid).jids namespaceId ↔
      j ∈ registry.jids namespaceId ∨ j = jid := by
  refine ⟨Client.mem_jids_updateJid, ?_⟩
  rw [Client.Registry.mem_jids_iff, Client.Registry.mem_jids_iff]
  rintro (⟨r, hr, hrns, hrjid⟩ | rfl)
  · have hne : r.id ≠ f.id := by
      intro heq
      rw [registry.eq_of_id_eq hr hf heq, hjid] at hrjid
      cases hrjid
    refine ⟨r, ?_, hrns, hrjid⟩
    exact List.mem_map.mpr ⟨r, hr, if_neg hne⟩
  · exact ⟨{ f with jid := some j }, List.mem_map.mpr ⟨f, hf, if_pos rfl⟩, hns, rfl⟩

/-- The ids after a commit, of which the answer is one. -/
theorem mem_ids_commitRecord_iff {journal' : Server.Journal} {record : Server.NewFileRecord}
    (huser : record.userId = userId) {jid : Int}
    (h : Server.commitRecord journal record = (jid, journal')) (j : Int) :
    (∃ r ∈ journal'.rows, (r.userId == userId) = true ∧ r.id = j) ↔
      (∃ r ∈ journal.rows, (r.userId == userId) = true ∧ r.id = j) ∨ j = jid := by
  rcases Server.commitRecord_cases journal record with ⟨existing, hlatest, -, -, hsame⟩ | hinsert
  · obtain ⟨rfl, rfl⟩ := Prod.mk.inj (h.symm.trans hsame)
    refine ⟨.inl, ?_⟩
    rintro (hold | rfl)
    · exact hold
    · obtain ⟨hmem, hexisting, -⟩ := Server.latestForPath_spec hlatest
      exact ⟨existing, hmem, by rw [hexisting, huser, beq_self_eq_true], rfl⟩
  · obtain ⟨rfl, rfl⟩ := Prod.mk.inj (h.symm.trans hinsert)
    simp only [Table.rows_insert, List.mem_append, List.mem_singleton,
      or_and_right, exists_or, exists_eq_left]
    refine or_congr_right ⟨fun hj ↦ hj.2.symm, fun hj ↦ ⟨?_, hj.symm⟩⟩
    exact (beq_iff_eq ..).mpr huser

/-- The greatest of some numbers, if there are any. -/
def IsGreatest (among : Int → Prop) : Option Int → Prop
  | none => ∀ i, ¬ among i
  | some m => among m ∧ ∀ i, among i → i ≤ m

theorem IsGreatest.insert {among among' : Int → Prop} {greatest : Option Int} {j : Int}
    (h : IsGreatest among greatest) (hinsert : ∀ i, among' i ↔ among i ∨ i = j) :
    IsGreatest among' (some (max (greatest.getD j) j)) := by
  cases greatest with
  | none =>
    rw [Option.getD_none, Int.max_self]
    refine ⟨(hinsert j).mpr (.inr rfl), fun i hi ↦ ?_⟩
    rcases (hinsert i).mp hi with hold | rfl
    · exact absurd hold (h i)
    · exact Int.le_refl i
  | some m =>
    rw [Option.getD_some]
    refine ⟨?_, fun i hi ↦ ?_⟩
    · rcases Int.le_total m j with hle | hle
      · rw [Int.max_eq_right hle]
        exact (hinsert j).mpr (.inr rfl)
      · rw [Int.max_eq_left hle]
        exact (hinsert m).mpr (.inl h.1)
    · rcases (hinsert i).mp hi with hold | rfl
      · have hle := h.2 i hold
        omega
      · omega

theorem isGreatest_latestJid (registry : Client.Registry) (namespaceId : Int) :
    IsGreatest (· ∈ registry.jids namespaceId) (registry.latestJid namespaceId) := by
  cases hm : registry.latestJid namespaceId with
  | none =>
    intro j hj
    obtain ⟨m, hsome, -⟩ := Client.Registry.latestJid_isSome hj
    rw [hm] at hsome
    cases hsome
  | some m => exact (Client.Registry.latestJid_eq_some_iff _ _ _).mp hm

theorem isGreatest_greatestId (journal : Server.Journal) (userId : Int) :
    IsGreatest (fun j ↦ ∃ r ∈ journal.rows, (r.userId == userId) = true ∧ r.id = j)
      (journal.greatestId (·.userId == userId)) := by
  cases hm : journal.greatestId (·.userId == userId) with
  | none =>
    rintro j ⟨r, hr, huser, -⟩
    rw [(journal.greatestId_eq_none_iff _).mp hm r hr] at huser
    cases huser
  | some m =>
    obtain ⟨hmem, hle⟩ := (journal.greatestId_eq_some_iff _ m).mp hm
    refine ⟨hmem, ?_⟩
    rintro j ⟨r, hr, huser, rfl⟩
    exact hle r hr huser

/-- A device that has seen the whole journal has done so after its commit, too. -/
theorem cursor_commit {journal' : Server.Journal} {f : Client.FileRecord}
    {record : Server.NewFileRecord} {jid : Int} (hf : f ∈ registry.rows)
    (hns : f.namespaceId = namespaceId) (hnone : f.jid = none) (huser : record.userId = userId)
    (hcommit : Server.commitRecord journal record = (jid, journal'))
    (hsame : registry.latestJid namespaceId = journal.greatestId (·.userId == userId)) :
    (registry.updateJid f jid).latestJid namespaceId =
      journal'.greatestId (·.userId == userId) := by
  have hjids := (isGreatest_latestJid registry namespaceId).insert
    (mem_jids_updateJid_iff hf hns hnone jid)
  have hids := (isGreatest_greatestId journal userId).insert
    (mem_ids_commitRecord_iff huser hcommit)
  rw [hsame] at hjids
  rw [(Client.Registry.latestJid_eq_some_iff _ _ _).mpr hjids, eq_comm,
    Table.greatestId_eq_some_iff]
  exact ⟨hids.1, fun r hr huser ↦ hids.2 r.id ⟨r, hr, huser, rfl⟩⟩

/-- The newest row of a path is committed by a device that has seen the whole journal: the record
has what the file holds at that time. -/
theorem InStep.commit (h : InStep bytesOf userId namespaceId base journal registry disk)
    {f : Client.FileRecord} (hnewest : newest registry namespaceId f.path = some f)
    (hnone : f.jid = none) {chunkIds : Text} {jid : Int} {journal' : Server.Journal}
    (hcommit : Server.commitRecord journal ⟨userId, chunkIds, f.deleted, f.path⟩ = (jid, journal'))
    (hcontent : f.deleted = false → ∀ data, Client.fileOf disk base f.path = some data →
      data.content = Client.contentOf (Client.whole bytesOf) chunkIds) :
    InStep bytesOf userId namespaceId base journal' (registry.updateJid f jid) disk := by
  obtain ⟨hf, hns, -⟩ := newest_spec hnewest
  obtain ⟨record, hlatest, hid, hids, hdel⟩ := Server.latestForPath_commitRecord hcommit
  have hother : ∀ p, p ≠ f.path →
      Server.latestForPath journal' userId p = Server.latestForPath journal userId p := by
    intro p hne
    rcases Server.commitRecord_grows hcommit with rfl | rfl
    · rfl
    · rw [Server.latestForPath_insert]
      exact if_neg fun hsame ↦ hne hsame.2.symm
  refine ⟨cursor_commit hf hns hnone rfl hcommit h.cursor, fun p r hr hjid ↦ ?_,
    fun p rec hrec ↦ ?_⟩
  · rw [newest_updateJid] at hr
    by_cases hp : p = f.path
    · subst hp
      rw [hnewest, Option.map_some] at hr
      obtain rfl := Option.some.inj hr
      rw [Client.Registry.FileRecord.setJid, if_pos rfl]
      refine ⟨record, hlatest, hdel, fun hlive data hdata _ ↦ ?_⟩
      rw [hids]
      exact hcontent hlive data hdata
    · obtain ⟨r', hr', rfl⟩ := Option.map_eq_some_iff.mp hr
      have hne : r'.id ≠ f.id := by
        intro heq
        obtain ⟨hmem, -, hpath⟩ := newest_spec hr'
        apply hp
        rw [← hpath, registry.eq_of_id_eq hmem hf heq]
      rw [Client.Registry.FileRecord.setJid, if_neg hne] at hjid ⊢
      rw [hother p hp]
      exact h.settled p r' hr' hjid
  · rw [newest_updateJid]
    by_cases hp : p = f.path
    · subst hp
      rw [hnewest]
      exact ⟨_, rfl⟩
    · rw [hother p hp] at hrec
      obtain ⟨r, hr⟩ := h.seen p rec hrec
      rw [hr]
      exact ⟨_, rfl⟩

/-- What is hashed for a live row of a sound device are the ids of its file. -/
theorem file_of_hashFile {s : Client.ClientState}
    (hsound : IsSoundDisk sha256 bytesOf base s.disk s.chunker.basePath) {f : Client.FileRecord}
    (hp : Client.isSyncablePath f.path = true) {reads : Client.Chunker.ReadEnv}
    {c : Client.Chunker} {chunkIds : Text}
    (hhash : Client.Syncer.hashFile sha256 reads s f = (c, .ok chunkIds))
    (hlive : f.deleted = false) :
    ∃ file, Client.fileOf s.disk base f.path = some file ∧
      Client.Resolves sha256 bytesOf f.path file.content ∧ chunkIds =
        List.intercalate [','] (Client.Chunker.chunkIds sha256 reads f.path file.content) := by
  obtain ⟨file, hfile, hids⟩ := (Client.Syncer.hashFile_ok hhash).2 hlive
  rw [hsound.dir.readFile_eq s.chunker rfl hp] at hfile
  exact ⟨file, hfile, hsound.resolves f.path file hp hfile, hids⟩

/-- The pass may ask from the cursor on, or for everything. -/
theorem latestLocal_le {env : Client.Syncer.DownloadEnv} {s : Client.ClientState}
    (h : InStep bytesOf userId namespaceId base known s.registry s.disk)
    (hpos : ∀ r ∈ known.rows, 0 < r.id) :
    Client.Syncer.latestLocal env s namespaceId ≤
      (known.greatestId (·.userId == userId)).getD 0 := by
  rw [Client.Syncer.latestLocal, h.cursor]
  split
  · cases hm : known.greatestId (·.userId == userId) with
    | none => exact Int.le_refl 0
    | some m =>
      obtain ⟨⟨r, hr, -, rfl⟩, -⟩ := (known.greatestId_eq_some_iff _ m).mp hm
      exact Int.le_of_lt (hpos r hr)
  · exact Int.le_refl _

/-! ## 4. Download passes -/

theorem newest_insert (registry : Client.Registry) (row : Int → Client.FileRecord)
    (hrow : ∀ i, (row i).id = i) (hns : (row registry.nextId).namespaceId = namespaceId)
    (p : Text) : newest (registry.insert row hrow) namespaceId p =
      if (row registry.nextId).path = p then some (row registry.nextId)
      else newest registry namespaceId p := by
  rw [newest, Table.latestOf_insert]
  simp [hns, newest]

/-- The rows that a loop which succeeds has written, one for each record. -/
structure IsWritten (namespaceId : Int) (ds : List Client.ResponseFileRecord)
    (registry registry' : Client.Registry) : Prop where
  other : ∀ p, p ∉ ds.map Client.ResponseFileRecord.path →
    newest registry' namespaceId p = newest registry namespaceId p
  listed : ∀ d ∈ ds, ∃ r, newest registry' namespaceId d.path = some r ∧ r.jid = some d.id
  rows : ∀ r ∈ registry'.rows, r ∈ registry.rows ∨ r.path ∈ ds.map Client.ResponseFileRecord.path

theorem isWritten_applyRecords {env : Nat → Client.Syncer.RecordEnv} {i : Nat}
    {s s' : Client.ClientState} {ds : List Client.ResponseFileRecord}
    (hdistinct : (ds.map Client.ResponseFileRecord.path).Nodup)
    (h : Client.Syncer.applyRecords env namespaceId i s ds = (s', .ok ())) :
    IsWritten namespaceId ds s.registry s'.registry := by
  induction ds generalizing i s with
  | nil =>
    cases h
    exact ⟨fun _ _ ↦ rfl, fun d hd ↦ absurd hd (List.not_mem_nil), fun r hr ↦ .inl hr⟩
  | cons d ds ih =>
    rw [List.map_cons, List.nodup_cons] at hdistinct
    have hrow := Client.Syncer.applyRecord_row (env i) namespaceId s d
    rw [Client.Syncer.applyRecords] at h
    cases hone : Client.Syncer.applyRecord (env i) namespaceId s d with
    | mk s₁ outcome =>
      rw [hone] at h hrow
      cases outcome with
      | err e => cases h
      | panic => cases h
      | ok u =>
        obtain ⟨hfail, -⟩ | ⟨row, hid, hreg, hfields⟩ := hrow
        · exact absurd rfl hfail
        · obtain ⟨hother, hlisted, hrows⟩ := ih hdistinct.2 h
          obtain ⟨hjid, hpath, hns⟩ := hfields s.registry.nextId
          change s₁.registry = s.registry.insert row hid at hreg
          have hone : ∀ p, newest s₁.registry namespaceId p =
              if d.path = p then some (row s.registry.nextId)
              else newest s.registry namespaceId p := by
            intro p
            rw [hreg, newest_insert s.registry row hid hns, hpath]
          refine ⟨fun p hp ↦ ?_, fun e he ↦ ?_, fun r hr ↦ ?_⟩
          · rw [List.map_cons, List.mem_cons, not_or] at hp
            rw [hother p hp.2, hone, if_neg fun heq ↦ hp.1 heq.symm]
          · rcases List.mem_cons.mp he with rfl | he
            · refine ⟨row s.registry.nextId, ?_, hjid⟩
              rw [hother _ hdistinct.1, hone, if_pos rfl]
            · exact hlisted e he
          · rw [List.map_cons, List.mem_cons]
            rcases hrows r hr with hold | hnew
            · rw [hreg, Table.rows_insert, List.mem_append, List.mem_singleton] at hold
              rcases hold with hold | rfl
              · exact .inl hold
              · exact .inr (.inl hpath)
            · exact .inr (.inr hnew)

/-- A response over the records past a cursor, and what a pass over it has left. -/
structure IsDownloaded (bytesOf : Text → Bytes) (userId namespaceId : Int) (base : Place Name)
    (journal : Server.Journal) (j : Int) (response : List Client.ResponseFileRecord)
    (s s' : Client.ClientState) : Prop where
  lists : response.Perm ((Server.list journal userId j).map respond)
  written : IsWritten namespaceId response s.registry s'.registry
  carried : Client.Syncer.Carried namespaceId base response { s with chunker := s'.chunker } s'
  basePath : s'.chunker.basePath = s.chunker.basePath
  effects : Client.Syncer.PassSpec (Client.whole bytesOf) namespaceId base response s s'

section Downloaded

variable {s s' : Client.ClientState} {j : Int} {response : List Client.ResponseFileRecord}
  (hdown : IsDownloaded bytesOf userId namespaceId base journal j response s s')
  (hsyncable : ∀ r ∈ journal.rows, r.userId = userId → Client.isSyncablePath r.path = true)

include hdown

/-- What the pass leaves at the path of a record is what the record says. -/
theorem IsDownloaded.contentAt {d : Client.ResponseFileRecord} (hd : d ∈ response) :
    (Client.fileOf s'.disk base d.path).map Client.FileData.content =
      if d.deleted then none else some (Client.contentOf (Client.whole bytesOf) d.chunkIds) := by
  cases hdel : d.deleted with
  | true => exact hdown.effects.contentAt_deleted hd hdel
  | false => exact hdown.effects.contentAt_live hd hdel fun _ _ _ ↦ rfl

/-- The newest row of a path that is listed has the flag of the record. -/
theorem IsDownloaded.newest_listed {d : Client.ResponseFileRecord} (hd : d ∈ response) :
    ∃ r, newest s'.registry namespaceId d.path = some r ∧ r.deleted = d.deleted := by
  obtain ⟨r, hr, -⟩ := hdown.written.listed d hd
  refine ⟨r, hr, ?_⟩
  have hlive := hdown.carried.live d hd
  rw [liveView_newest, hr, Option.bind_some] at hlive
  cases hdel : r.deleted with
  | true =>
    rw [hdel] at hlive
    simpa using hlive
  | false =>
    rw [hdel] at hlive
    simpa using hlive

include hsyncable

theorem IsDownloaded.syncable_listed {d : Client.ResponseFileRecord} (hd : d ∈ response) :
    Client.isSyncablePath d.path = true := by
  obtain ⟨r, hlatest, -, rfl⟩ := (mem_response_iff hdown.lists d).mp hd
  obtain ⟨hr, huser, -⟩ := Server.latestForPath_spec hlatest
  exact hsyncable r hr huser

/-- The file of a path that is not listed stays. -/
theorem IsDownloaded.fileOf_unlisted {p : Text} (hp : Client.isSyncablePath p = true)
    (hnot : p ∉ response.map Client.ResponseFileRecord.path) :
    Client.fileOf s'.disk base p = Client.fileOf s.disk base p :=
  Client.Syncer.fileAt_other hdown.carried
    (fun _ hd ↦ Client.canonical_of_syncable (hdown.syncable_listed hsyncable hd))
    (Client.canonical_of_syncable hp) hnot

/-- A pass over the records past a cursor that the device has seen brings it into step with the
whole journal. -/
theorem InStep.download (h : InStep bytesOf userId namespaceId base known s.registry s.disk)
    (hrows : HasSyncableRows s.registry namespaceId) (hextends : journal.Extends known)
    (hpos : ∀ r ∈ journal.rows, 0 < r.id)
    (hj : j ≤ (known.greatestId (·.userId == userId)).getD 0) :
    InStep bytesOf userId namespaceId base journal s'.registry s'.disk := by
  have hunlisted : ∀ p, p ∉ response.map Client.ResponseFileRecord.path →
      Server.latestForPath journal userId p = Server.latestForPath known userId p :=
    fun p hp ↦ latestForPath_of_unlisted hdown.lists hextends hpos hj hp
  refine ⟨latestJid_of_response hdown.lists hextends h.cursor hpos hj hdown.effects.jids,
    fun p r hr hjid ↦ ?_, fun p record hrecord ↦ ?_⟩
  · by_cases hp : p ∈ response.map Client.ResponseFileRecord.path
    · obtain ⟨d, hd, rfl⟩ := List.mem_map.mp hp
      obtain ⟨record, hlatest, -, rfl⟩ := (mem_response_iff hdown.lists d).mp hd
      obtain ⟨r', hr', hdel⟩ := hdown.newest_listed hd
      obtain rfl := Option.some.inj (hr.symm.trans hr')
      refine ⟨record, hlatest, hdel.symm, fun hlive data hdata _ ↦ ?_⟩
      have hcontent := hdown.contentAt hd
      rw [hdata, if_neg (by rw [← hdel, hlive]; simp)] at hcontent
      exact Option.some.inj hcontent
    · rw [hdown.written.other p hp] at hr
      rw [hunlisted p hp]
      obtain ⟨record, hrecord, hdel, hcontent⟩ := h.settled p r hr hjid
      refine ⟨record, hrecord, hdel, fun hlive data hdata ↦ ?_⟩
      rw [hdown.fileOf_unlisted hsyncable (syncable_of_newest hrows hr) hp] at hdata
      exact hcontent hlive data hdata
  · by_cases hp : p ∈ response.map Client.ResponseFileRecord.path
    · obtain ⟨d, hd, rfl⟩ := List.mem_map.mp hp
      obtain ⟨r, hr, -⟩ := hdown.newest_listed hd
      exact ⟨r, hr⟩
    · rw [hunlisted p hp] at hrecord
      rw [hdown.written.other p hp]
      exact h.seen p record hrecord

omit hdown in
theorem plainPaths_of_syncable : PlainPaths journal userId := fun r hr huser ↦
  have hp := hsyncable r hr huser
  ⟨Client.plain_of_syncable hp, Client.namesOf_ne_nil_of_syncable hp,
    Client.canonical_of_syncable hp⟩

omit hdown in
theorem nodup_paths_of_response
    (hresponse : response.Perm ((Server.list journal userId j).map respond)) :
    (response.map Client.ResponseFileRecord.path).Nodup := by
  have hnames := nodup_response (plainPaths_of_syncable hsyncable) hresponse
  apply List.Nodup.of_map Client.namesOf
  rwa [List.map_map]

omit hdown in
theorem tidyResponse_of_syncable
    (hsound : IsSoundDisk sha256 bytesOf base s.disk s.chunker.basePath)
    (hresponse : response.Perm ((Server.list journal userId j).map respond)) :
    Client.Syncer.TidyResponse s base response where
  rooted := hsound.dir.rooted
  tidy := hsound.dir.tidy
  distinct := nodup_paths_of_response hsyncable hresponse
  plain d hd := by
    have hplain := plain_of_response (plainPaths_of_syncable hsyncable) hresponse hd
    exact ⟨hplain.1, hplain.2.1⟩
  straight _ _ := hsound.dir.straight _ (List.suffix_append _ _)
  deletions _ hd _ := (plain_of_response (plainPaths_of_syncable hsyncable) hresponse hd).2.2

/-- The storage directory stays one, and what has come into it resolves. -/
theorem IsSoundDisk.download (hdigest : Client.IsHexDigest sha256) {store : Text → Option Bytes}
    (h : IsSoundDisk sha256 bytesOf base s.disk s.chunker.basePath)
    (hrecords : ∀ r ∈ journal.rows, r.userId = userId → IsWellFormed sha256 bytesOf store r) :
    IsSoundDisk sha256 bytesOf base s'.disk s'.chunker.basePath := by
  have hresp : Client.Syncer.TidyResponse { s with chunker := s'.chunker } base response := by
    have htidy := tidyResponse_of_syncable hsyncable h hdown.lists
    exact ⟨hdown.basePath ▸ htidy.rooted, htidy.tidy, htidy.distinct, htidy.plain,
      htidy.straight, htidy.deletions⟩
  have hrooted := Client.Syncer.rooted_after hresp hdown.carried
  have htidy := Client.Syncer.tidy_after hresp hdown.carried fun d hd _ ↦
    Client.above_of_syncable (hdown.syncable_listed hsyncable hd)
  have hstraight := fun k hk ↦ hdown.effects.straight k (h.dir.straight k hk)
  refine ⟨⟨hrooted, htidy, hstraight⟩, fun p data hp hdata ↦ ?_⟩
  by_cases hlisted : p ∈ response.map Client.ResponseFileRecord.path
  · obtain ⟨d, hd, rfl⟩ := List.mem_map.mp hlisted
    obtain ⟨record, hlatest, -, rfl⟩ := (mem_response_iff hdown.lists d).mp hd
    obtain ⟨hmem, huser, -⟩ := Server.latestForPath_spec hlatest
    have hcontent := hdown.contentAt hd
    rw [hdata, Option.map_some] at hcontent
    cases hdel : (respond record).deleted with
    | true =>
      rw [hdel] at hcontent
      cases hcontent
    | false =>
      rw [hdel] at hcontent
      rw [Option.some.inj hcontent]
      exact (hrecords record hmem huser).resolves hdigest hdel
  · rw [hdown.fileOf_unlisted hsyncable hp hlisted] at hdata
    exact h.resolves p data hp hdata

end Downloaded

/-- A pass that succeeds over what the server lists. -/
theorem isDownloaded_of_pass {s s' : Client.ClientState} {j : Int}
    {response : List Client.ResponseFileRecord} {env : Client.Syncer.DownloadEnv} {changed : Bool}
    (hsound : IsSoundDisk sha256 bytesOf base s.disk s.chunker.basePath)
    (hagrees : s.chunker.AgreesWith (Client.whole bytesOf))
    (hsyncable : ∀ r ∈ journal.rows, r.userId = userId → Client.isSyncablePath r.path = true)
    (hdelivers : Client.Syncer.DeliversStored (Client.whole bytesOf) env)
    (hresponse : response.Perm ((Server.list journal userId j).map respond))
    (hpass : Client.Syncer.checkDownloadOnce sha256 env (fun _ ↦ .ok response) namespaceId s =
      (s', .ok changed)) :
    IsDownloaded bytesOf userId namespaceId base journal j response s s' := by
  have htidy := tidyResponse_of_syncable hsyncable hsound hresponse
  have hplain : Client.Syncer.PlainResponse s.chunker s.disk base response :=
    ⟨hsound.dir.rooted.spells, htidy.plain,
      nodup_response (plainPaths_of_syncable hsyncable) hresponse, htidy.straight⟩
  have hfiles : Client.Syncer.FilesTellApart sha256 (Client.whole bytesOf) s.chunker s.disk
      response := by
    intro d hd _ file hfile
    obtain ⟨record, hlatest, -, rfl⟩ := (mem_response_iff hresponse d).mp hd
    obtain ⟨hmem, huser, -⟩ := Server.latestForPath_spec hlatest
    have hp := hsyncable record hmem huser
    change s.disk.readFile (s.chunker.fullPath record.path) = some file at hfile
    rw [hsound.dir.readFile_eq s.chunker rfl hp] at hfile
    exact (hsound.resolves record.path file hp hfile).tellsApart
  have heffects := Client.Syncer.checkDownloadOnce_spec hdelivers rfl hplain hagrees hfiles
    (congrArg Prod.snd hpass)
  rw [hpass] at heffects
  obtain ⟨c, hbase, hloop⟩ := Client.Syncer.checkDownloadOnce_ok rfl hpass
  have hcarried := Client.Syncer.applyRecords_ok (s := { s with chunker := c })
    (show FileTree.Spells c.basePath base from hbase ▸ hsound.dir.rooted.spells) htidy.plain
    htidy.straight htidy.distinct hloop
  have hchunker : s'.chunker = c := hcarried.chunker
  rw [← hchunker] at hcarried
  exact ⟨hresponse, isWritten_applyRecords (s := { s with chunker := c }) htidy.distinct hloop, hcarried,
    (congrArg Client.Chunker.basePath hchunker).trans hbase, heffects⟩

end Steps

end CooklangSync.System
