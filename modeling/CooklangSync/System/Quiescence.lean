import CooklangSync.Client.Sighting
import CooklangSync.System.Loops
import CooklangSync.Theory.LatestMap

/-!
# Quiescence — when an uploading client is idle, the server has its files

A commit sends the bytes that are on the disk, under a row that may describe an older version of the
file, and the answer sets the jid of this row, which need not be the newest one any more.  No edit
is lost all the same: a version that a row describes does not come back after an edit, as the
whole-second time of a file only moves forward.  What is lost is a file that the walk does not get
to: an error on the way is taken for a deletion, and the client is idle without the file.
-/

namespace CooklangSync.System

open Theory

/-! ## 1. Runs -/

/-- The loops of a client, and every disk it has had. -/
structure Watched where
  loops : Loops
  past : List Client.Disk

namespace Watched

def registry (σ : Watched) : Client.Registry := σ.loops.client.registry

def disk (σ : Watched) : Client.Disk := σ.loops.client.disk

def basePath (σ : Watched) : Path Name := σ.loops.client.chunker.basePath

/-- The row that speaks for a path. -/
def newest (registry : Client.Registry) (namespaceId : Int) (p : Text) :
    Option Client.FileRecord :=
  registry.latestOf (·.namespaceId == namespaceId) Client.FileRecord.path p

/-- A file that is written gets a later whole second than its path has had on any disk before. -/
def MovesForward (σ : Watched) (disk : Client.Disk) : Prop :=
  ∀ p data, Client.HasFile disk σ.basePath p data → Client.HasFile σ.disk σ.basePath p data ∨
    ∀ d ∈ σ.past, ∀ old, Client.HasFile d σ.basePath p old →
      old.modified.seconds < data.modified.seconds

section Runs

variable (sha256 : Bytes → Text) (userId namespaceId : Int)

def next (σ : Watched) (a : LoopAction) : Option Watched :=
  (σ.loops.next sha256 userId namespaceId a).map fun loops ↦ ⟨loops, loops.client.disk :: σ.past⟩

def system : System Watched LoopAction where
  init σ := σ.loops.fresh ∧ σ.past = [σ.disk]
  step := next sha256 userId namespaceId

variable (own : Text → Prop) (reading : Client.Chunker.ReadEnv → Prop)

/-- No other client commits the paths of this one, no download pass writes its disk, and what is
written there moves forward.  `reading` is what a file may be read like. -/
def IsSolitary (σ : Watched) : LoopAction → Prop
  | .edit disk => σ.MovesForward disk
  | .cache chunker => chunker.basePath = σ.basePath
  | .sendCommit reads _ => reading reads
  | .applyNext _ => False
  | .foreign other payload _ => other = userId → ¬ own payload.path
  | _ => True

/-- An index pass would find nothing to do, and no row is pending. -/
structure IsIdle (σ : Watched) (env : Client.ScanEnv) (order : Client.IterationOrder)
    (faults : Client.IndexFaults) : Prop where
  indexed : Client.checkIndexOnce σ.registry σ.disk env order faults σ.basePath namespaceId =
    (σ.registry, .ok false)
  uploaded : σ.registry.updatedLocally namespaceId = []

/-- The server's latest record of the path is live with the hashes of the file that is there, or is
deleted or missing when there is none. -/
structure IsInSync (σ : Watched) (p : Text) : Prop where
  live : ∀ data, Client.HasFile σ.disk σ.basePath p data →
    ∃ record, Server.latestForPath σ.loops.journal userId p = some record ∧
      record.deleted = false ∧ ∃ reads, reading reads ∧ record.chunkIds =
        List.intercalate [','] (Client.Chunker.chunkIds sha256 reads p data.content)
  gone : (∀ data, ¬ Client.HasFile σ.disk σ.basePath p data) →
    ∀ record, Server.latestForPath σ.loops.journal userId p = some record →
      record.deleted = true

/-! ## 2. The invariant -/

/-- The server's latest record of the path is what was committed under the row.  The bytes were
those of the file that has the version of the row, if there still is one. -/
def IsRecorded (journal : Server.Journal) (disk : Client.Disk) (basePath : Path Name)
    (r : Client.FileRecord) : Prop :=
  ∃ record, Server.latestForPath journal userId r.path = some record ∧
    record.deleted = r.deleted ∧ (r.deleted = false → ∃ reads content, reading reads ∧
      record.chunkIds =
        List.intercalate [','] (Client.Chunker.chunkIds sha256 reads r.path content) ∧
      ∀ data, Client.HasFile disk basePath r.path data →
        data.version = (r.size, r.modifiedAt) → data.content = content)

/-- The row is still to be committed or to get its jid, and so is the newest one of its path. -/
def IsAwaiting (registry : Client.Registry) (f : Client.FileRecord) : Prop :=
  f ∈ registry.rows ∧ f.namespaceId = namespaceId ∧
    ∃ r, newest registry namespaceId f.path = some r ∧ r.jid = none

structure Inv (σ : Watched) : Prop where
  current : σ.disk ∈ σ.past
  seen : ∀ r ∈ σ.registry.rows, own r.path → r.namespaceId = namespaceId → r.deleted = false →
    ∃ d ∈ σ.past, ∃ data, Client.HasFile d σ.basePath r.path data ∧
      data.version = (r.size, r.modifiedAt)
  known : ∀ p, own p → ∀ record, Server.latestForPath σ.loops.journal userId p = some record →
    ∃ r ∈ σ.registry.rows, r.namespaceId = namespaceId ∧ r.path = p
  recorded : ∀ p r, own p → newest σ.registry namespaceId p = some r → r.jid ≠ none →
    IsRecorded sha256 userId reading σ.loops.journal σ.disk σ.basePath r
  pending : ∀ pass, σ.loops.upload = some pass →
    (∀ f ∈ Loops.UploadPass.pending pass, IsAwaiting namespaceId σ.registry f) ∧
      ((Loops.UploadPass.pending pass).map Client.FileRecord.path).Nodup
  answered : ∀ f jid rest, σ.loops.upload = some ⟨some (f, .success jid), rest⟩ → own f.path →
    newest σ.registry namespaceId f.path = some f →
      IsRecorded sha256 userId reading σ.loops.journal σ.disk σ.basePath f

end Runs

section Invariant

variable {sha256 : Bytes → Text} {userId namespaceId : Int} {own : Text → Prop}
  {reading : Client.Chunker.ReadEnv → Prop} {σ : Watched}

theorem newest_spec {registry : Client.Registry} {p : Text} {r : Client.FileRecord}
    (h : newest registry namespaceId p = some r) :
    r ∈ registry.rows ∧ r.namespaceId = namespaceId ∧ r.path = p := by
  have hkey := Table.latestOf_key _ _ registry h
  have hmem := ((Table.lastOf_eq_some_iff registry _ r).mp h).1
  exact ⟨hmem, by simpa using hkey.1, hkey.2⟩

theorem Inv.init (h : (system sha256 userId namespaceId).init σ) :
    Inv sha256 userId namespaceId own reading σ := by
  obtain ⟨⟨hjournal, hregistry, hupload, -, -⟩, hpast⟩ := h
  have hrows : σ.registry.rows = [] := by
    rw [registry, hregistry]
    rfl
  constructor
  · rw [hpast]
    exact List.mem_singleton_self _
  · rw [hrows]
    simp
  · intro p _ record hrecord
    rw [hjournal] at hrecord
    cases hrecord
  · intro p r _ hr _
    have hmem := (newest_spec hr).1
    rw [hrows] at hmem
    cases hmem
  · rw [hupload]
    exact fun _ h ↦ by cases h
  · rw [hupload]
    exact fun _ _ _ h ↦ by cases h

/-! ## 3. Steps of the disk and of others -/

theorem IsRecorded.of_journal {journal journal' : Server.Journal} {disk : Client.Disk}
    {basePath : Path Name} {r : Client.FileRecord}
    (h : IsRecorded sha256 userId reading journal disk basePath r)
    (hsame : Server.latestForPath journal' userId r.path =
      Server.latestForPath journal userId r.path) :
    IsRecorded sha256 userId reading journal' disk basePath r := by
  rw [IsRecorded, hsame]
  exact h

/-- A version that a row describes does not come back after an edit. -/
theorem IsRecorded.edit {disk : Client.Disk} {r : Client.FileRecord}
    (h : IsRecorded sha256 userId reading σ.loops.journal σ.disk σ.basePath r)
    (hforward : σ.MovesForward disk)
    (hseen : r.deleted = false → ∃ d ∈ σ.past, ∃ data, Client.HasFile d σ.basePath r.path data ∧
      data.version = (r.size, r.modifiedAt)) :
    IsRecorded sha256 userId reading σ.loops.journal disk σ.basePath r := by
  obtain ⟨record, hlatest, hdeleted, hlive⟩ := h
  refine ⟨record, hlatest, hdeleted, fun hr ↦ ?_⟩
  obtain ⟨reads, content, hreads, hids, hcontent⟩ := hlive hr
  refine ⟨reads, content, hreads, hids, fun data hfile hversion ↦ ?_⟩
  rcases hforward r.path data hfile with hbefore | hafter
  · exact hcontent data hbefore hversion
  · -- the file is newer than the one that was seen
    obtain ⟨d, hd, old, hold, hversion'⟩ := hseen hr
    have hlt := hafter d hd old hold
    have hsame := congrArg (fun v ↦ v.2.seconds) (hversion.trans hversion'.symm)
    change data.modified.seconds = old.modified.seconds at hsame
    omega

/-- What a new list of disks has seen. -/
theorem Inv.seen_cons (h : Inv sha256 userId namespaceId own reading σ) (disk : Client.Disk)
    {r : Client.FileRecord} (hr : r ∈ σ.registry.rows) (hp : own r.path)
    (hns : r.namespaceId = namespaceId) (hlive : r.deleted = false) :
    ∃ d ∈ disk :: σ.past, ∃ data, Client.HasFile d σ.basePath r.path data ∧
      data.version = (r.size, r.modifiedAt) := by
  obtain ⟨d, hd, hdata⟩ := h.seen r hr hp hns hlive
  exact ⟨d, List.mem_cons_of_mem disk hd, hdata⟩

theorem Inv.edit (h : Inv sha256 userId namespaceId own reading σ) {disk : Client.Disk}
    (hforward : σ.MovesForward disk) :
    Inv sha256 userId namespaceId own reading
      ⟨{ σ.loops with client := { σ.loops.client with disk := disk } }, disk :: σ.past⟩ where
  current := List.mem_cons_self
  seen := fun r hr hp hns hlive ↦ h.seen_cons disk hr hp hns hlive
  known := h.known
  recorded := by
    intro p r hp hr hjid
    obtain ⟨hmem, hns, hpath⟩ := newest_spec hr
    exact (h.recorded p r hp hr hjid).edit hforward (h.seen r hmem (hpath.symm ▸ hp) hns)
  pending := h.pending
  answered := by
    intro f jid rest hupload hp hf
    obtain ⟨hmem, hns, -⟩ := newest_spec hf
    exact (h.answered f jid rest hupload hp hf).edit hforward (h.seen f hmem hp hns)

/-- The invariant looks at the registry, the disk, the base path, the journal and the upload. -/
theorem Inv.of_same (h : Inv sha256 userId namespaceId own reading σ) {loops : Loops}
    (hregistry : loops.client.registry = σ.registry) (hdisk : loops.client.disk = σ.disk)
    (hbase : loops.client.chunker.basePath = σ.basePath)
    (hupload : loops.upload = σ.loops.upload)
    (hjournal : ∀ p, own p → Server.latestForPath loops.journal userId p =
      Server.latestForPath σ.loops.journal userId p) :
    Inv sha256 userId namespaceId own reading ⟨loops, loops.client.disk :: σ.past⟩ := by
  constructor
  · exact List.mem_cons_self
  · intro r hr hp hns hlive
    rw [registry, hregistry] at hr
    show ∃ d ∈ loops.client.disk :: σ.past, ∃ data,
      Client.HasFile d loops.client.chunker.basePath r.path data ∧ _
    rw [hbase]
    exact h.seen_cons _ hr hp hns hlive
  · intro p hp record hrecord
    rw [registry, hregistry]
    rw [hjournal p hp] at hrecord
    exact h.known p hp record hrecord
  · intro p r hp hr hjid
    rw [registry, hregistry] at hr
    have hpath := (newest_spec hr).2.2
    show IsRecorded sha256 userId reading loops.journal loops.client.disk
      loops.client.chunker.basePath r
    rw [hdisk, hbase]
    exact (h.recorded p r hp hr hjid).of_journal (hpath ▸ hjournal p hp)
  · intro pass hpass
    rw [hupload] at hpass
    rw [registry, hregistry]
    exact h.pending pass hpass
  · intro f jid rest hwaiting hp hf
    rw [hupload] at hwaiting
    rw [registry, hregistry] at hf
    show IsRecorded sha256 userId reading loops.journal loops.client.disk
      loops.client.chunker.basePath f
    rw [hdisk, hbase]
    exact (h.answered f jid rest hwaiting hp hf).of_journal (hjournal f.path hp)

/-! ## 4. Index passes -/

/-- The newest row of a path is one that was appended, or the one it was before. -/
theorem newest_append (namespaceId : Int) {registry registry' : Client.Registry}
    {added : List Client.FileRecord} (hrows : registry'.rows = registry.rows ++ added) (p : Text) :
    ∃ newer, (∀ r, newer = some r → r ∈ added) ∧
      newest registry' namespaceId p = newer.or (newest registry namespaceId p) := by
  refine ⟨_, fun r hr ↦ ?_, Table.lastOf_append hrows _⟩
  exact (List.mem_filter.mp (List.mem_of_getLast? hr)).1

theorem newest_of_append {registry registry' : Client.Registry} {added : List Client.FileRecord}
    (hrows : registry'.rows = registry.rows ++ added) {p : Text} {r : Client.FileRecord}
    (hr : newest registry' namespaceId p = some r) (hold : r ∉ added) :
    newest registry namespaceId p = some r := by
  obtain ⟨newer, hnewer, heq⟩ := newest_append namespaceId hrows p
  rw [heq, Option.or_eq_some_iff] at hr
  exact (hr.resolve_left fun h ↦ hold (hnewer r h)).2

/-- Rows without jids are appended, whose live versions are on the disk. -/
theorem Inv.append (h : Inv sha256 userId namespaceId own reading σ) {registry : Client.Registry}
    {added : List Client.FileRecord} (hrows : registry.rows = σ.registry.rows ++ added)
    (hnone : ∀ row ∈ added, row.jid = none)
    (hsighted : ∀ row ∈ added, own row.path → row.deleted = false → ∃ data,
      Client.HasFile σ.disk σ.basePath row.path data ∧
        data.version = (row.size, row.modifiedAt)) :
    Inv sha256 userId namespaceId own reading
      ⟨{ σ.loops with client := { σ.loops.client with registry := registry } },
        σ.disk :: σ.past⟩ := by
  have hkeep : ∀ r ∈ σ.registry.rows, r ∈ registry.rows := by
    intro r hr
    rw [hrows]
    exact List.mem_append_left added hr
  -- ids increase, so that a row of before is none of the appended ones
  have hdisjoint : ∀ r ∈ σ.registry.rows, r ∉ added := by
    intro r hr hmem
    have hincreasing := registry.increasing
    rw [hrows, List.pairwise_append] at hincreasing
    have hlt := hincreasing.2.2 r hr r hmem
    omega
  constructor
  · exact List.mem_cons_self
  · intro r hr hp hns hlive
    have hmem : r ∈ σ.registry.rows ++ added := hrows ▸ hr
    rcases List.mem_append.mp hmem with hr | hr
    · exact h.seen_cons σ.disk hr hp hns hlive
    · exact ⟨σ.disk, List.mem_cons_self, hsighted r hr hp hlive⟩
  · intro p hp record hrecord
    obtain ⟨r, hr, hfields⟩ := h.known p hp record hrecord
    exact ⟨r, hkeep r hr, hfields⟩
  · intro p r hp hr hjid
    exact h.recorded p r hp (newest_of_append hrows hr fun hmem ↦ hjid (hnone r hmem)) hjid
  · intro pass hpass
    obtain ⟨hawaiting, hnodup⟩ := h.pending pass hpass
    refine ⟨fun f hf ↦ ?_, hnodup⟩
    obtain ⟨hmem, hns, r, hr, hjid⟩ := hawaiting f hf
    obtain ⟨newer, hnewer, heq⟩ := newest_append namespaceId hrows f.path
    rw [hr] at heq
    refine ⟨hkeep f hmem, hns, ?_⟩
    cases newer with
    | none => exact ⟨r, heq, hjid⟩
    | some r' => exact ⟨r', heq, hnone r' (hnewer r' rfl)⟩
  · intro f jid rest hupload hp hf
    have hmem := ((h.pending _ hupload).1 f (List.mem_append_left _ (by simp))).1
    exact h.answered f jid rest hupload hp (newest_of_append hrows hf (hdisjoint f hmem))

/-! ## 5. Upload passes -/

theorem Inv.startUpload (h : Inv sha256 userId namespaceId own reading σ) :
    Inv sha256 userId namespaceId own reading
      ⟨{ σ.loops with upload := some ⟨none, σ.registry.updatedLocally namespaceId⟩ },
        σ.disk :: σ.past⟩ := by
  refine ⟨List.mem_cons_self, fun r hr hp hns hlive ↦ h.seen_cons σ.disk hr hp hns hlive, h.known,
    h.recorded, fun pass hpass ↦ ?_, fun f jid rest hupload ↦ ?_⟩
  · cases hpass
    show (∀ f ∈ σ.registry.updatedLocally namespaceId, _) ∧
      ((σ.registry.updatedLocally namespaceId).map Client.FileRecord.path).Nodup
    rw [Client.Registry.updatedLocally]
    refine ⟨fun f hf ↦ ?_, ?_⟩
    · rw [List.mem_filter, Option.isNone_iff_eq_none, Table.mem_latest_iff] at hf
      have hspec := newest_spec hf.1
      exact ⟨hspec.1, hspec.2.1, f, hf.1, hf.2⟩
    · exact (σ.registry.nodup_map_latest _ _).sublist (List.filter_sublist.map _)
  · cases hupload

/-- The disk is read for the row, and what is read becomes the latest record of its path. -/
theorem Inv.sendCommit (h : Inv sha256 userId namespaceId own reading σ)
    (hplain : ∀ p, own p → Client.IsPlain σ.disk σ.basePath p) {f : Client.FileRecord}
    {rest : List Client.FileRecord} (hupload : σ.loops.upload = some ⟨none, f :: rest⟩)
    {reads : Client.Chunker.ReadEnv} (hreads : reading reads) {chunker : Client.Chunker}
    {chunkIds : Text}
    (hhash : Client.Syncer.hashFile sha256 reads σ.loops.client f = (chunker, .ok chunkIds))
    {isPresent : Text → Outcome Unit Bool} {status : Server.CommitResultStatus}
    {journal : Server.Journal}
    (hcommit : Server.commit isPresent σ.loops.journal userId ⟨f.path, f.deleted, chunkIds⟩ =
      .ok (status, journal)) (handled : List (Text × Int)) :
    Inv sha256 userId namespaceId own reading
      ⟨{ σ.loops with
          journal := journal
          client := { σ.loops.client with chunker := chunker }
          upload := some ⟨some (f, status), rest⟩
          handled := handled }, σ.disk :: σ.past⟩ := by
  obtain ⟨hbase, hread⟩ := Client.Syncer.hashFile_ok hhash
  obtain ⟨hawaiting, hnodup⟩ := h.pending _ hupload
  obtain ⟨hmem, hns, r₀, hnewest, hnone⟩ := hawaiting f (by simp [Loops.UploadPass.pending])
  have hother : ∀ p, p ≠ f.path → Server.latestForPath journal userId p =
      Server.latestForPath σ.loops.journal userId p := by
    intro p hne
    exact Server.latestForPath_commit_of_ne _ hcommit fun heq ↦ hne heq.2.symm
  constructor
  · exact List.mem_cons_self
  · intro r hr hp hrns hlive
    show ∃ d ∈ σ.disk :: σ.past, ∃ data, Client.HasFile d chunker.basePath r.path data ∧ _
    rw [hbase]
    exact h.seen_cons σ.disk hr hp hrns hlive
  · intro p hp record hrecord
    by_cases hpath : p = f.path
    · exact ⟨f, hmem, hns, hpath.symm⟩
    · exact h.known p hp record ((hother p hpath).symm.trans hrecord)
  · intro p r hp hr hjid
    have hrpath := (newest_spec hr).2.2
    show IsRecorded sha256 userId reading journal σ.disk chunker.basePath r
    rw [hbase]
    by_cases hpath : p = f.path
    · -- the newest row of the committed path has no jid
      rw [hpath] at hr
      change newest σ.registry namespaceId f.path = some r at hr
      rw [hnewest] at hr
      cases hr
      exact absurd hnone hjid
    · exact (h.recorded p r hp hr hjid).of_journal (hrpath ▸ hother p hpath)
  · intro pass hpass
    cases hpass
    exact ⟨hawaiting, hnodup⟩
  · intro g jid rest' hwaiting hp _
    cases hwaiting
    show IsRecorded sha256 userId reading journal σ.disk chunker.basePath f
    rw [hbase]
    obtain ⟨record, hlatest, hdeleted, hids⟩ := Server.latestForPath_commit_success _ hcommit
    refine ⟨record, hlatest, hdeleted, fun hlive ↦ ?_⟩
    obtain ⟨file, hfile, hchunks⟩ := hread hlive
    refine ⟨reads, file.content, hreads, hids.trans hchunks, fun data hdata _ ↦ ?_⟩
    have hthere := hdata.readFile (hplain f.path hp)
    rw [Client.Chunker.fullPath] at hfile
    change σ.disk.readFile (σ.basePath.push (parsePath f.path)) = some file at hfile
    rw [hfile] at hthere
    rw [Option.some.inj hthere]

/-- The jid is the only field that changes. -/
theorem setJid_eq (id jid : Int) (r : Client.FileRecord) :
    Client.Registry.FileRecord.setJid id jid r =
      { r with jid := (Client.Registry.FileRecord.setJid id jid r).jid } := by
  unfold Client.Registry.FileRecord.setJid
  split <;> rfl

theorem newest_updateJid (registry : Client.Registry) (f : Client.FileRecord) (jid : Int)
    (p : Text) : newest (registry.updateJid f jid) namespaceId p =
      (newest registry namespaceId p).map (Client.Registry.FileRecord.setJid f.id jid) := by
  apply Table.latestOf_update
  · intro r
    rw [setJid_eq]
  · intro r
    rw [setJid_eq]

theorem IsRecorded.setJid {journal : Server.Journal} {disk : Client.Disk} {basePath : Path Name}
    {r : Client.FileRecord} (h : IsRecorded sha256 userId reading journal disk basePath r)
    (id jid : Int) : IsRecorded sha256 userId reading journal disk basePath
      (Client.Registry.FileRecord.setJid id jid r) := by
  rw [setJid_eq]
  exact h

/-- The answer is recorded on the committed row, and on no other. -/
theorem Inv.receiveSuccess (h : Inv sha256 userId namespaceId own reading σ)
    {f : Client.FileRecord} {jid : Int} {rest : List Client.FileRecord}
    (hupload : σ.loops.upload = some ⟨some (f, .success jid), rest⟩) :
    Inv sha256 userId namespaceId own reading
      ⟨{ σ.loops with
          client := { σ.loops.client with registry := σ.registry.updateJid f jid }
          upload := some ⟨none, rest⟩ }, σ.disk :: σ.past⟩ := by
  obtain ⟨hawaiting, hnodup⟩ := h.pending _ hupload
  have hf := (hawaiting f (by simp [Loops.UploadPass.pending])).1
  have hother : ∀ r ∈ σ.registry.rows, r.path ≠ f.path →
      Client.Registry.FileRecord.setJid f.id jid r = r := by
    intro r hr hne
    apply if_neg
    intro hid
    exact hne (by rw [σ.registry.eq_of_id_eq hr hf hid])
  have hrows : (σ.registry.updateJid f jid).rows =
      σ.registry.rows.map (Client.Registry.FileRecord.setJid f.id jid) := rfl
  constructor
  · exact List.mem_cons_self
  · intro r' hr' hp hns hlive
    obtain ⟨r, hr, rfl⟩ := List.mem_map.mp (hrows ▸ hr')
    rw [setJid_eq] at hp hns hlive ⊢
    have hseen := h.seen_cons σ.disk hr hp hns hlive
    exact hseen
  · intro p hp record hrecord
    obtain ⟨r, hr, hns, hpath⟩ := h.known p hp record hrecord
    refine ⟨_, hrows ▸ List.mem_map_of_mem hr, ?_⟩
    rw [setJid_eq]
    exact ⟨hns, hpath⟩
  · intro p r' hp hr' hjid
    change newest (σ.registry.updateJid f jid) namespaceId p = some r' at hr'
    rw [newest_updateJid, Option.map_eq_some_iff] at hr'
    obtain ⟨r, hr, rfl⟩ := hr'
    obtain ⟨hmem, -, hpath⟩ := newest_spec hr
    by_cases hid : r.id = f.id
    · -- the committed row is still the newest one
      have hrf : r = f := σ.registry.eq_of_id_eq hmem hf hid
      rw [hrf] at hr hpath ⊢
      rw [← hpath] at hp hr
      exact (h.answered f jid rest hupload hp hr).setJid f.id jid
    · have hsame : Client.Registry.FileRecord.setJid f.id jid r = r := if_neg hid
      rw [hsame] at hjid ⊢
      exact h.recorded p r hp hr hjid
  · intro pass hpass
    cases hpass
    rw [Loops.UploadPass.pending, List.map_append] at hnodup
    obtain ⟨hnotin, hrest⟩ := List.nodup_cons.mp hnodup
    refine ⟨fun g hg ↦ ?_, hrest⟩
    have hne : g.path ≠ f.path := fun heq ↦ hnotin (heq ▸ List.mem_map_of_mem hg)
    obtain ⟨hmem, hns, r, hr, hnone⟩ := hawaiting g (List.mem_append_right _ hg)
    obtain ⟨hrmem, -, hrpath⟩ := newest_spec hr
    refine ⟨hrows ▸ List.mem_map.mpr ⟨g, hmem, hother g hmem hne⟩, hns, r, ?_, hnone⟩
    show newest (σ.registry.updateJid f jid) namespaceId g.path = some r
    rw [newest_updateJid, hr, Option.map_some, hother r hrmem (hrpath ▸ hne)]
  · intro g j rest' hwaiting
    cases hwaiting

/-- The pass goes on without an answer, or ends. -/
theorem Inv.release (h : Inv sha256 userId namespaceId own reading σ)
    {upload : Option UploadPass}
    (hupload : ∀ pass, upload = some pass → pass.waiting = none ∧
      ∃ before, σ.loops.upload = some before ∧
        (Loops.UploadPass.pending pass).Sublist (Loops.UploadPass.pending before)) :
    Inv sha256 userId namespaceId own reading
      ⟨{ σ.loops with upload := upload }, σ.disk :: σ.past⟩ := by
  refine ⟨List.mem_cons_self, fun r hr hp hns hlive ↦ h.seen_cons σ.disk hr hp hns hlive, h.known,
    h.recorded, fun pass hpass ↦ ?_, fun f jid rest hwaiting ↦ ?_⟩
  · obtain ⟨-, before, hbefore, hsublist⟩ := hupload pass hpass
    obtain ⟨hawaiting, hnodup⟩ := h.pending before hbefore
    exact ⟨fun f hf ↦ hawaiting f (hsublist.subset hf), hnodup.sublist (hsublist.map _)⟩
  · have hnone := (hupload _ hwaiting).1
    cases hnone

/-! ## 6. All steps -/

/-- What one step preserves, while the paths are plain ones on the disk. -/
theorem Inv.next {a : LoopAction} {σ' : Watched} (h : Inv sha256 userId namespaceId own reading σ)
    (hplain : ∀ p, own p → Client.IsPlain σ.disk σ.basePath p)
    (hok : IsSolitary userId own reading σ a)
    (hstep : next sha256 userId namespaceId σ a = some σ') :
    Inv sha256 userId namespaceId own reading σ' := by
  obtain ⟨loops, hloops, rfl⟩ := Option.map_eq_some_iff.mp hstep
  cases a with
  | edit disk =>
    cases hloops
    exact h.edit hok
  | cache chunker =>
    cases hloops
    exact h.of_same rfl rfl hok rfl fun _ _ ↦ rfl
  | index env order faults =>
    cases hloops
    obtain ⟨added, hrows, hadded⟩ := Client.added_checkIndexOnce σ.registry σ.disk env order faults
      σ.basePath namespaceId
    exact h.append hrows (fun row hrow ↦ (hadded row hrow).1)
      fun row hrow hp hlive ↦ ((hadded row hrow).2.2 hlive).hasFile (hplain row.path hp)
  | startUpload =>
    rw [Loops.next] at hloops
    split at hloops
    · cases hloops
    · cases hloops
      exact h.startUpload
  | sendCommit reads isPresent =>
    rw [Loops.next] at hloops
    split at hloops
    · rename_i f rest hupload
      split at hloops
      · rename_i chunker chunkIds hhash
        split at hloops
        · rename_i status journal hcommit
          cases hloops
          exact h.sendCommit hplain hupload hok hhash hcommit _
        · cases hloops
      · cases hloops
    · cases hloops
  | receiveAnswer =>
    rw [Loops.next] at hloops
    split at hloops
    · rename_i f jid rest hupload
      cases hloops
      exact h.receiveSuccess hupload
    · rename_i f chunks rest hupload
      cases hloops
      apply h.release
      intro pass hpass
      cases hpass
      exact ⟨rfl, _, hupload, List.sublist_append_right _ _⟩
    · cases hloops
  | endUpload =>
    cases hloops
    apply h.release
    intro pass hpass
    cases hpass
  | startDownload latestJidFails =>
    rw [Loops.next] at hloops
    split at hloops
    · cases hloops
    · cases hloops
      exact h.of_same rfl rfl rfl rfl fun _ _ ↦ rfl
  | receiveList response =>
    rw [Loops.next] at hloops
    split at hloops
    · split at hloops
      · cases hloops
        exact h.of_same rfl rfl rfl rfl fun _ _ ↦ rfl
      · cases hloops
    · cases hloops
  | applyNext env => exact hok.elim
  | endDownload =>
    cases hloops
    exact h.of_same rfl rfl rfl rfl fun _ _ ↦ rfl
  | foreign other payload isPresent =>
    rw [Loops.next] at hloops
    split at hloops
    · rename_i status journal hcommit
      cases hloops
      refine h.of_same rfl rfl rfl rfl fun p hp ↦ ?_
      exact Server.latestForPath_commit_of_ne _ hcommit fun heq ↦ hok heq.1 (heq.2 ▸ hp)
    · cases hloops

/-- The base path stays what it is. -/
theorem basePath_next {a : LoopAction} {σ' : Watched} (hok : IsSolitary userId own reading σ a)
    (hstep : next sha256 userId namespaceId σ a = some σ') : σ'.basePath = σ.basePath := by
  obtain ⟨loops, hloops, rfl⟩ := Option.map_eq_some_iff.mp hstep
  cases a with
  | cache chunker =>
    cases hloops
    exact hok
  | applyNext env => exact hok.elim
  | sendCommit reads isPresent =>
    rw [Loops.next] at hloops
    split at hloops
    · split at hloops
      · rename_i hhash
        split at hloops
        · cases hloops
          exact (Client.Syncer.hashFile_ok hhash).1
        · cases hloops
      · cases hloops
    · cases hloops
  | edit disk => cases hloops; rfl
  | index env order faults => cases hloops; rfl
  | endUpload => cases hloops; rfl
  | endDownload => cases hloops; rfl
  | startUpload => rw [Loops.next] at hloops; split at hloops <;> cases hloops; rfl
  | receiveAnswer => rw [Loops.next] at hloops; split at hloops <;> cases hloops <;> rfl
  | startDownload latestJidFails =>
    rw [Loops.next] at hloops; split at hloops <;> cases hloops; rfl
  | receiveList response =>
    rw [Loops.next] at hloops
    split at hloops
    · split at hloops <;> cases hloops; rfl
    · cases hloops
  | foreign other payload isPresent =>
    rw [Loops.next] at hloops; split at hloops <;> cases hloops; rfl

/-! ## 7. Idle states -/

/-- The newest row of a path has a jid when no row is pending. -/
theorem IsIdle.jid_ne_none {env : Client.ScanEnv} {order : Client.IterationOrder}
    {faults : Client.IndexFaults} (h : σ.IsIdle namespaceId env order faults) (p : Text)
    (r : Client.FileRecord) (hr : newest σ.registry namespaceId p = some r) : r.jid ≠ none := by
  intro hnone
  have hmem : r ∈ σ.registry.updatedLocally namespaceId := by
    rw [Client.Registry.updatedLocally, List.mem_filter, Table.mem_latest_iff]
    refine ⟨?_, by rw [hnone]; rfl⟩
    rw [(newest_spec hr).2.2]
    exact hr
  rw [h.uploaded] at hmem
  cases hmem

theorem IsIdle.scanned {env : Client.ScanEnv} {order : Client.IterationOrder}
    {faults : Client.IndexFaults} (h : σ.IsIdle namespaceId env order faults) :
    ∃ fromFs, Client.getFileRecordsFromDisk σ.disk env σ.basePath namespaceId = .ok fromFs ∧
      ∀ p, Client.liveView σ.registry namespaceId p = Client.scanView fromFs p := by
  exact (Client.checkIndexOnce_idle_iff σ.registry σ.disk env order
    (Client.faults_of_ok h.indexed) σ.basePath namespaceId).mp h.indexed

/-- A path without a live row has no live record. -/
theorem Inv.deleted_of_not_live (h : Inv sha256 userId namespaceId own reading σ) {p : Text}
    (hp : own p) (hjid : ∀ r, newest σ.registry namespaceId p = some r → r.jid ≠ none)
    (hlive : Client.liveView σ.registry namespaceId p = none) {record : Server.FileRecord}
    (hrecord : Server.latestForPath σ.loops.journal userId p = some record) :
    record.deleted = true := by
  rw [Client.liveView] at hlive
  split at hlive
  · rename_i r hr
    split at hlive
    · rename_i hdead
      obtain ⟨record', hlatest, hdeleted, -⟩ := h.recorded p r hp hr (hjid r hr)
      rw [(newest_spec hr).2.2, hrecord] at hlatest
      rw [Option.some.inj hlatest, hdeleted, hdead]
    · cases hlive
  · -- a record of the server comes from a row
    rename_i hno
    obtain ⟨r, hr, hns, hpath⟩ := h.known p hp record hrecord
    have hmiss := (Table.lastOf_eq_none_iff _ _).mp hno r hr
    simp [hns, hpath] at hmiss

/-- The record of a live row has the bytes of the file with its version. -/
theorem Inv.live_of_version (h : Inv sha256 userId namespaceId own reading σ) {p : Text}
    (hp : own p) (hjid : ∀ r, newest σ.registry namespaceId p = some r → r.jid ≠ none)
    {data : Client.FileData} (hdata : Client.HasFile σ.disk σ.basePath p data)
    (hlive : Client.liveView σ.registry namespaceId p = some data.version) :
    ∃ record, Server.latestForPath σ.loops.journal userId p = some record ∧
      record.deleted = false ∧ ∃ reads, reading reads ∧ record.chunkIds =
        List.intercalate [','] (Client.Chunker.chunkIds sha256 reads p data.content) := by
  rw [Client.liveView] at hlive
  split at hlive
  · rename_i r hr
    split at hlive
    · cases hlive
    · rename_i hnot
      have hpath := (newest_spec hr).2.2
      obtain ⟨record, hlatest, hdeleted, hids⟩ := h.recorded p r hp hr (hjid r hr)
      obtain ⟨reads, content, hreads, hchunks, hcontent⟩ := hids (by simpa using hnot)
      rw [hpath] at hlatest hchunks hcontent
      have hsame := hcontent data hdata (Option.some.inj hlive).symm
      exact ⟨record, hlatest, by simpa [hdeleted] using hnot, reads, hreads, hsame ▸ hchunks⟩
  · cases hlive

/-- An idle state is in sync at a path unless the walk has missed the file. -/
theorem Inv.isInSync_iff (h : Inv sha256 userId namespaceId own reading σ) {p : Text} (hp : own p)
    (hplain : Client.IsPlain σ.disk σ.basePath p) {env : Client.ScanEnv}
    {order : Client.IterationOrder} {faults : Client.IndexFaults}
    (hidle : σ.IsIdle namespaceId env order faults) :
    σ.IsInSync sha256 userId reading p ↔ ¬ Client.IsMissed σ.disk env σ.basePath p := by
  obtain ⟨fromFs, hscan, hviews⟩ := hidle.scanned
  have hfiles := Client.scanView_iff hscan hplain
  have hjid := hidle.jid_ne_none p
  constructor
  · -- a missed file has no live row
    intro hsync hmissed
    obtain ⟨data, hdata⟩ := hmissed.hasFile
    obtain ⟨record, hlatest, hlive, -⟩ := hsync.live data hdata
    have hscanned : Client.scanView fromFs p = none := by
      rw [Option.eq_none_iff_forall_ne_some]
      exact fun v hv ↦ ((hfiles v).mp hv).2 hmissed
    have hdead := h.deleted_of_not_live hp hjid ((hviews p).trans hscanned) hlatest
    rw [hlive] at hdead
    cases hdead
  · intro hmet
    constructor
    · intro data hdata
      have hscanned := (hfiles data.version).mpr ⟨⟨data, hdata, rfl⟩, hmet⟩
      exact h.live_of_version hp hjid hdata ((hviews p).trans hscanned)
    · intro hnone record hrecord
      have hscanned : Client.scanView fromFs p = none := by
        rw [Option.eq_none_iff_forall_ne_some]
        intro v hv
        obtain ⟨⟨data, hdata, -⟩, -⟩ := (hfiles v).mp hv
        exact hnone data hdata
      exact h.deleted_of_not_live hp hjid ((hviews p).trans hscanned) hrecord

/-- In a run over disks where the paths are plain ones, an idle state is in sync at a path exactly
when the walk that found nothing to do has not missed the file. -/
theorem isInSync_idle_iff
    (h : (system sha256 userId namespaceId).Reachable (IsSolitary userId own reading) σ)
    (hplain : ∀ d ∈ σ.past, ∀ p, own p → Client.IsPlain d σ.basePath p) {env : Client.ScanEnv}
    {order : Client.IterationOrder} {faults : Client.IndexFaults}
    (hidle : σ.IsIdle namespaceId env order faults) {p : Text} (hp : own p) :
    σ.IsInSync sha256 userId reading p ↔ ¬ Client.IsMissed σ.disk env σ.basePath p := by
  have hinv : Inv sha256 userId namespaceId own reading σ := by
    -- the disks of a run are among those of a longer one
    refine @System.Reachable.invariant _ _ _ _
      (fun τ ↦ (∀ d ∈ τ.past, ∀ p, own p → Client.IsPlain d τ.basePath p) →
        Inv sha256 userId namespaceId own reading τ)
      (fun _ hinit _ ↦ Inv.init hinit) ?_ _ h hplain
    intro τ a τ' hτ hok hstep hplain'
    have hpast : ∀ d ∈ τ.past, ∀ p, own p → Client.IsPlain d τ.basePath p := by
      intro d hd
      rw [← basePath_next hok hstep]
      obtain ⟨loops, -, rfl⟩ := Option.map_eq_some_iff.mp hstep
      exact hplain' d (List.mem_cons_of_mem _ hd)
    have hbefore := hτ hpast
    exact hbefore.next (hpast τ.disk hbefore.current) hok hstep
  exact hinv.isInSync_iff hp (hplain σ.disk hinv.current p hp) hidle

end Invariant

-- An example: a client with one recipe uploads it, then finds nothing to do.
def oneWatched : Watched := ⟨Loops.oneClient, [Loops.oneClient.client.disk]⟩

def watchedSystem : System Watched LoopAction := system (fun _ ↦ "h".toList) 1 1

def uploadOnce (env : Client.ScanEnv) : List LoopAction :=
  [.index env ⟨.inOrder, .inOrder⟩ ⟨false, false, false⟩, .startUpload, Loops.sendOnce,
    .receiveAnswer, .endUpload]

theorem reachable_uploads {envs : List Client.ScanEnv} {σ : Watched}
    (hrun : watchedSystem.run oneWatched (envs.flatMap uploadOnce) = some σ) :
    watchedSystem.Reachable (IsSolitary 1 (fun _ ↦ True) (·.failsAfter = none)) σ := by
  have hinit : watchedSystem.init oneWatched := ⟨Loops.fresh_oneClient, rfl⟩
  apply (System.Reachable.init hinit).run_of_ok hrun
  intro i a τ ha _
  obtain ⟨env, -, hmem⟩ := List.mem_flatMap.mp (List.mem_of_getElem? ha)
  simp only [uploadOnce, List.mem_cons, List.not_mem_nil, or_false] at hmem
  rcases hmem with rfl | rfl | rfl | rfl | rfl
  · trivial
  · trivial
  · rfl
  · trivial
  · trivial

theorem isPlain_oneClient (p : Text) :
    Client.IsPlain Loops.oneClient.client.disk (parsePath "/s".toList) p := by
  have hroot : ∀ root, Client.walkRoot Loops.oneClient.client.disk (parsePath "/s".toList) =
      some root → root = [[115]] := by
    intro root h
    have hs : Client.walkRoot Loops.oneClient.client.disk (parsePath "/s".toList) =
      some [[115]] := by decide
    rw [hs] at h
    exact (Option.some.inj h).symm
  -- the only entry below the storage directory is the recipe
  have hentry : ∀ rel, (Loops.oneClient.client.disk.lookup (rel ++ [[115]])).isSome →
      rel = [] ∨ rel = [toUtf8 "a.cook".toList] := by
    intro rel hrel
    have hkeys : ∀ k ∈ Loops.oneClient.client.disk.nodes.keys, k.getLast? = some [115] →
        k.dropLast = [] ∨ k.dropLast = [toUtf8 "a.cook".toList] := by decide
    have hkey := hkeys _ (AList.mem_keys.mp (AList.lookup_isSome.mp hrel)) (by simp)
    rwa [List.dropLast_concat] at hkey
  constructor
  · exact (Client.isNamed_iff _).mpr (by decide)
  · intro root rel h hsync _
    rw [hroot root h] at hsync
    cases rel with
    | nil => exact hsync.elim
    | cons n above =>
      obtain ⟨data, hdata⟩ := Option.isSome_iff_exists.mp hsync.1
      have hlookup := (FileTree.fileAt_eq_some_iff _ _ _).mp hdata
      have hthere := (hentry (n :: above) (by rw [List.cons_append, hlookup]; rfl)).resolve_left
        (List.cons_ne_nil n above)
      rw [hthere]
      decide
  · intro root rel h hmistaken _
    rw [hroot root h] at hmistaken
    cases rel with
    | nil =>
      revert hmistaken
      rw [Client.IsMistaken]
      decide
    | cons n above =>
      have hthere : (Loops.oneClient.client.disk.lookup (n :: above ++ [[115]])).isSome := by
        obtain ⟨-, -, hnode⟩ := hmistaken
        by_cases hdir : Loops.oneClient.client.disk.isDirAt (n :: (above ++ [[115]])) = true
        · have hlookup := (FileTree.isDirAt_iff _ _).mp hdir
          rw [List.cons_append, hlookup]
          rfl
        · rw [if_neg hdir] at hnode
          obtain ⟨data, hdata⟩ := Option.isSome_iff_exists.mp hnode.1
          have hlookup := (FileTree.fileAt_eq_some_iff _ _ _).mp hdata
          rw [List.cons_append, hlookup]
          rfl
      have hrecipe := (hentry (n :: above) hthere).resolve_left (List.cons_ne_nil n above)
      rw [hrecipe, Client.IsMistaken] at hmistaken
      revert hmistaken
      decide

theorem isInSync_uploaded :
    let run := watchedSystem.run oneWatched ([Client.readableEnv].flatMap uploadOnce)
    run.isSome ∧ ∀ σ, run = some σ →
      (σ.IsInSync (fun _ ↦ "h".toList) 1 (·.failsAfter = none) "a.cook".toList ↔
        ¬ Client.IsMissed σ.disk Client.readableEnv σ.basePath "a.cook".toList) := by
  refine ⟨by decide +kernel, fun σ hrun ↦ ?_⟩
  have hpast : (watchedSystem.run oneWatched ([Client.readableEnv].flatMap uploadOnce)).map
      (fun τ ↦ (τ.past, τ.basePath)) =
      some (List.replicate 6 Loops.oneClient.client.disk, parsePath "/s".toList) := rfl
  have hidle : (watchedSystem.run oneWatched ([Client.readableEnv].flatMap uploadOnce)).map
      (fun τ ↦ ((Client.checkIndexOnce τ.registry τ.disk Client.readableEnv ⟨.inOrder, .inOrder⟩
        ⟨false, false, false⟩ τ.basePath 1).2, τ.registry.updatedLocally 1)) =
      some (.ok false, []) := by decide +kernel
  rw [hrun, Option.map_some, Option.some.injEq, Prod.mk.injEq] at hpast hidle
  refine isInSync_idle_iff (reachable_uploads hrun) ?_
    ⟨Client.idle_of_snd hidle.1, hidle.2⟩ trivial
  intro d hd p _
  rw [hpast.1, List.mem_replicate] at hd
  rw [hd.2, hpast.2]
  exact isPlain_oneClient p

-- The storage directory cannot be read from the second pass on.
theorem isInSync_fails :
    ¬ ∀ (sha256 : Bytes → Text) (userId namespaceId : Int) (own : Text → Prop)
      (reading : Client.Chunker.ReadEnv → Prop) (σ : Watched) (env : Client.ScanEnv)
      (order : Client.IterationOrder) (faults : Client.IndexFaults) (p : Text),
      (system sha256 userId namespaceId).Reachable (IsSolitary userId own reading) σ →
      σ.IsIdle namespaceId env order faults → own p → σ.IsInSync sha256 userId reading p := by
  intro h
  let unread : Client.ScanEnv := ⟨(· == [[115]]), fun _ ↦ false, fun _ ↦ (0, ⟨0, 0⟩)⟩
  let run := watchedSystem.run oneWatched ([Client.readableEnv, unread].flatMap uploadOnce)
  have hsome : run.isSome := by decide +kernel
  obtain ⟨σ, hrun⟩ := Option.isSome_iff_exists.mp hsome
  have hidle : run.map (fun τ ↦ ((Client.checkIndexOnce τ.registry τ.disk unread
      ⟨.inOrder, .inOrder⟩ ⟨false, false, false⟩ τ.basePath 1).2, τ.registry.updatedLocally 1)) =
      some (.ok false, []) := by decide +kernel
  have hthere : run.map (fun τ ↦ (Client.walkRoot τ.disk τ.basePath,
      τ.disk.fileAt [toUtf8 "a.cook".toList, [115]])) =
      some (some [[115]], some ⟨[120], ⟨0, 0⟩⟩) := by decide +kernel
  have hlatest : run.map (fun τ ↦ Server.latestForPath τ.loops.journal 1 "a.cook".toList) =
      some (some ⟨2, 1, [], true, "a.cook".toList⟩) := by decide +kernel
  rw [hrun, Option.map_some, Option.some.injEq] at hidle hthere hlatest
  rw [Prod.mk.injEq] at hidle hthere
  have hsync := h (fun _ ↦ "h".toList) 1 1 (fun _ ↦ True) (·.failsAfter = none) σ unread
    ⟨.inOrder, .inOrder⟩ ⟨false, false, false⟩ "a.cook".toList (reachable_uploads hrun)
    ⟨Client.idle_of_snd hidle.1, hidle.2⟩ trivial
  have hfile : Client.HasFile σ.disk σ.basePath "a.cook".toList ⟨[120], ⟨0, 0⟩⟩ := by
    refine ⟨[[115]], [toUtf8 "a.cook".toList], hthere.1, ⟨?_, by decide, by simp⟩, by decide,
      hthere.2⟩
    show (σ.disk.fileAt [toUtf8 "a.cook".toList, [115]]).isSome
    rw [hthere.2]
    rfl
  obtain ⟨record, hrecord, hdeleted, -⟩ := hsync.live _ hfile
  rw [hlatest] at hrecord
  rw [← Option.some.inj hrecord] at hdeleted
  cases hdeleted

end Watched

end CooklangSync.System
