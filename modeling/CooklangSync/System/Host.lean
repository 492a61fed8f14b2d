import CooklangSync.Client.Requests
import CooklangSync.Server.Routes
import CooklangSync.Server.Storing
import CooklangSync.System.Fleet
import CooklangSync.System.Limits
import CooklangSync.System.StreamWire
import CooklangSync.System.UploadWire
import CooklangSync.Theory.Service

/-!
# Host — the server over the wire, and what it is for

The server keeps chunks in files and records in a journal, and takes forms and multipart bodies for
requests.  The last write to a file may land after the request has been answered.  To its clients the
server is a map from ids to contents with a journal beside it: whatever the order of the requests,
and however the network cuts them, both give the same answers, as long as nobody reads a chunk that
is still being written (`answers_eq`).
-/

namespace CooklangSync.System

open Theory Client Server

/-! ## 1. Requests and answers -/

/-- What is asked of the server.  The sizes are those of the pieces in which a body arrives.  Of an
upload, `lands` says before which step of which field a write in the background lands, and at `none`
that it has not landed when the answer is sent; what earlier uploads have left counts on after its own
fields. -/
inductive Request where
  | upload (uuid : Uuid) (chunks : List Chunk) (sizes : List Nat) (lands : Nat → Option (Nat × Nat))
  | commit (userId : Int) (path : Text) (deleted : Bool) (chunkIds : Text)
  | download (ids : List Text) (boundary : Text) (sizes : List Nat)
  | retrieve (id : Text)

/-- What happens to the server: a request, or a write in the background lands. -/
inductive Event where
  | request (r : Request)
  | lands (k : Nat)

def Event.request? : Event → Option Request
  | .request r => some r
  | .lands _ => none

/-- What the client makes of the response. -/
inductive Answer where
  | uploaded (result : Outcome SyncError Unit)
  | committed (result : Outcome SyncError Client.CommitResultStatus)
  | downloaded (result : List Chunk × Outcome SyncError Unit)
  | retrieved (result : Outcome SyncError Bytes)
  deriving DecidableEq, Repr

/-- The parsers that the handlers call. -/
structure Parsers where
  parseBoundary : Text → Option Text
  multer : Text → Body → Delivery
  fromBytes : Bytes → Option (List (Text × Text))

/-- They read what is well formed. -/
structure Parsers.IsSound (parsers : Parsers) : Prop where
  parseBoundary : ∀ boundary, IsBoundary boundary →
    parsers.parseBoundary (Remote.uploadContentType boundary) = some boundary
  multer : ∀ (boundary : Text) (pieces : List Bytes) (fields : List (Text × Bytes)),
    formFields boundary pieces.flatten = some fields →
    (parsers.multer boundary (pieces.map some)).ending = .complete ∧
      (parsers.multer boundary (pieces.map some)).parts.map Part.field =
        fields.map fun field ↦ ⟨some field.1, field.2⟩
  fromBytes : ∀ pairs, parsers.fromBytes (urlencodePairs pairs) = some pairs

/-! ## 2. The server -/

structure Host (P : Type) where
  disk : Disk P
  journal : Journal

/-- A disk that does not fail, with what lands before the answer. -/
def landingDisk (lands : Nat → Option (Nat × Nat)) : DiskEnv :=
  { soundDisk with last := fun k ↦ (lands k).map fun turn ↦ ⟨turn.1, turn.2, .ok⟩ }

theorem isHealthy_landingDisk (lands : Nat → Option (Nat × Nat)) : IsHealthy (landingDisk lands) where
  create _ := rfl
  write _ _ := rfl
  last k l hl := by
    obtain ⟨turn, -, rfl⟩ := Option.map_eq_some_iff.mp hl
    rfl

namespace Host

section Serve

variable {P : Type} [DecidableEq P] (root : Path Name) (place : Path Name → P) (parsers : Parsers)

def isPresent (host : Host P) (id : Text) : Outcome ChunkError Bool :=
  ChunkId.isPresent root (fun path ↦ host.disk.files.exists (place path)) id

def openFile (host : Host P) (path : Path Name) : Option Bytes := host.disk.files.read (place path)

def serve (host : Host P) : Request → Host P × Answer
  | .upload uuid chunks sizes lands =>
    let pieces := cutInto sizes (uploadBatchBody uuid.boundary chunks)
    let r := uploadChunks root place parsers.parseBoundary parsers.multer (landingDisk lands)
      (Remote.uploadContentType uuid.boundary) (pieces.map some) (host.disk.renumber chunks.length)
    ({ host with disk := r.1 }, .uploaded (Remote.uploadBatch (statusOf r.2)))
  | .commit userId path deleted chunkIds =>
    match routeCommit parsers.fromBytes (host.isPresent root place) host.journal userId
      (commitBody path deleted chunkIds) with
    | (journal, .ok status) =>
      ({ host with journal := journal }, .committed (Remote.commit 200 (.ok (answerOf status))))
    | (journal, .error status) =>
      ({ host with journal := journal }, .committed (Remote.commit status (.err .reqwestError)))
  | .download ids boundary sizes =>
    match routeDownload parsers.fromBytes root boundary urlencodedForm (downloadBatchBody ids) with
    | .ok m =>
      (host, .downloaded (downloadBatch
        ⟨200, some m.contentType, piecesOf sizes (m.stream (host.openFile place))⟩))
    | .error status => (host, .downloaded (downloadBatch ⟨status, none, []⟩))
  | .retrieve id =>
    match Server.retrieve root (host.openFile place) id with
    | .ok (status, content) => (host, .retrieved (Remote.download status (.ok content)))
    | failure => (host, .retrieved (Remote.download (statusOf failure) (.ok [])))

/-- The writes in the background are counted in the order in which they have been queued. -/
def next (host : Host P) : Event → Host P × Option Answer
  | .request r => ((host.serve root place parsers r).1, some (host.serve root place parsers r).2)
  | .lands k =>
    ({ host with disk := (host.disk.renumber 0).land fun i ↦ if i = k then some .ok else none }, none)

/-- Nothing is under way in the file of the chunk. -/
def IsQuiet (host : Host P) (id : Text) : Prop := host.disk.IsQuiet (place (chunkPath root id))

end Serve

end Host

/-! ## 3. What it is for -/

/-- A map from ids to contents, and a journal. -/
structure Vault where
  store : Text → Option Bytes
  journal : Journal

namespace Vault

/-- The contents of the ids, up to the first that is not there. -/
def found (store : Text → Option Bytes) : List Text → List Chunk
  | [] => []
  | id :: rest =>
    match store id with
    | none => []
    | some content => (id, content) :: found store rest

/-- Whether all chunks of a payload are there; the empty id needs none. -/
def absent (v : Vault) (chunkIds : Text) : List Text :=
  (chunkIds.splitOn ',').filter fun id ↦ !(decide (id = []) || (v.store id).isSome)

def serve (v : Vault) : Request → Vault × Answer
  | .upload _ chunks _ _ => ({ v with store := storeChunks v.store chunks }, .uploaded (.ok ()))
  | .commit userId path deleted chunkIds =>
    if v.absent chunkIds = [] then
      let r := commitRecord v.journal ⟨userId, chunkIds, deleted, path⟩
      ({ v with journal := r.2 }, .committed (.ok (.success r.1)))
    else (v, .committed (.ok (.needChunks (List.intercalate [','] (v.absent chunkIds)))))
  | .download ids _ _ =>
    (v, .downloaded (received (found v.store ids) (ids.all fun id ↦ (v.store id).isSome)))
  | .retrieve id =>
    if Alphanumeric id then
      match (if id = [] then none else v.store id) with
      | some content => (v, .retrieved (.ok content))
      | none => (v, .retrieved (.err (.unknown "Download chunk failed with status" 404)))
    else (v, .retrieved (.err (.unknown "Download chunk failed with status" 422)))

def next (v : Vault) : Event → Vault × Option Answer
  | .request r => ((v.serve r).1, some (v.serve r).2)
  | .lands _ => (v, none)

/-- A request of a client, within the limits of the server. -/
def IsAdmissible (v : Vault) : Request → Prop
  | .upload uuid chunks _ _ =>
    IsBoundary uuid.boundary ∧ (∀ chunk ∈ chunks, IsSendable uuid.boundary chunk) ∧
      (uploadBatchBody uuid.boundary chunks).length < dataFormLimit
  | .commit _ path deleted chunkIds =>
    (∀ id ∈ chunkIds.splitOn ',', Alphanumeric id) ∧
      (commitBody path deleted chunkIds).length ≤ Metadata.formLimit
  | .download ids boundary _ =>
    (∀ id ∈ ids, Alphanumeric id ∧ id ≠ []) ∧ Alphanumeric boundary ∧
      (∀ id ∈ ids, ∀ content, v.store id = some content → ¬ boundaryBytes boundary <:+: content) ∧
      (downloadBatchBody ids).length ≤ Chunks.formLimit
  | .retrieve _ => True

end Vault

section Timely

variable {P : Type} (root : Path Name) (place : Path Name → P)

/-- A request that reads a chunk is made when nothing is under way in its file any more; one that
writes a chunk may be made before, when it writes the same bytes again. -/
def IsTimely (host : Host P) (v : Vault) : Request → Prop
  | .upload _ chunks _ _ =>
    (∀ a ∈ chunks, ∀ b ∈ chunks, a.1 = b.1 → a.2 = b.2) ∧
      ∀ chunk ∈ chunks, host.IsQuiet root place chunk.1 ∨ v.store chunk.1 = some chunk.2
  | .commit .. => True
  | .download ids _ _ => ∀ id ∈ ids, host.IsQuiet root place id
  | .retrieve id => Alphanumeric id → id ≠ [] → host.IsQuiet root place id

/-- The events of the server and its vault: what lands may land at any time. -/
def IsOrdinary (s : Host P × Vault) : Event → Prop
  | .request r => s.2.IsAdmissible r ∧ IsTimely root place s.1 s.2 r
  | .lands _ => True

end Timely

/-! ## 4. The files of a batch -/

section Files

variable {P : Type} [DecidableEq P] {root : Path Name} {place : Path Name → P} {disk : Disk P}
  {store : Text → Option Bytes}

/-- The fields of a batch are stored, one after the other. -/
theorem keeps_receiveParts (hplace : Path.Separates root place) {env : DiskEnv}
    (hhealthy : IsHealthy env) (h : Keeps root place disk store) {chunks : List Chunk}
    (hchunks : ∀ chunk ∈ chunks, Alphanumeric chunk.1 ∧ chunk.1 ≠ [])
    (hagree : ∀ a ∈ chunks, ∀ b ∈ chunks, a.1 = b.1 → a.2 = b.2)
    (htimely : ∀ chunk ∈ chunks, disk.IsQuiet (place (chunkPath root chunk.1)) ∨
      store chunk.1 = some chunk.2) {parts : List Part}
    (hparts : parts.map Part.field = chunks.map fun chunk ↦ ⟨some chunk.1, chunk.2⟩) (i : Nat) :
    ∃ disk', Server.receiveParts root place env i disk parts .complete = (disk', .ok ()) ∧
      Keeps root place disk' (storeChunks store chunks) ∧
      ∀ id, (∀ chunk ∈ chunks, chunk.1 ≠ id) → disk.IsQuiet (place (chunkPath root id)) →
        disk'.IsQuiet (place (chunkPath root id)) := by
  induction chunks generalizing parts disk store i with
  | nil =>
    rw [List.map_nil, List.map_eq_nil_iff] at hparts
    rw [hparts]
    exact ⟨_, rfl, h.land hhealthy.landsWhole_inTime, fun id _ hquiet ↦ hquiet.land.1⟩
  | cons chunk rest ih =>
    obtain ⟨part, others, rfl, hpart, hothers⟩ := List.map_eq_cons_iff.mp hparts
    rw [List.forall_mem_cons] at hchunks htimely
    have hname : part.name = some chunk.1 := congrArg Field.name hpart
    have hcontent : part.pieces.flatten = chunk.2 := congrArg Field.content hpart
    obtain ⟨disk₁, hone, hkeeps, hquiet⟩ := h.receivePart hplace hhealthy hname hchunks.1.1
      hchunks.1.2 (hcontent ▸ htimely.1) i
    rw [hcontent] at hkeeps
    have hrest : ∀ c ∈ rest, disk₁.IsQuiet (place (chunkPath root c.1)) ∨
        Function.update store chunk.1 (some chunk.2) c.1 = some c.2 := by
      intro c hc
      by_cases hid : c.1 = chunk.1
      · have hsame := hagree chunk List.mem_cons_self c (List.mem_cons_of_mem chunk hc) hid.symm
        rw [hid, Function.update_self, hsame]
        exact .inr rfl
      · rw [Function.update_of_ne hid]
        exact (htimely.2 c hc).imp_left (hquiet c.1 hid)
    obtain ⟨disk', hall, hkeeps', hquiet'⟩ := ih hkeeps hchunks.2
      (fun a ha b hb ↦ hagree a (List.mem_cons_of_mem chunk ha) b (List.mem_cons_of_mem chunk hb))
      hrest hothers (i + 1)
    refine ⟨disk', ?_, hkeeps', fun id hother hid ↦ ?_⟩
    · rw [Server.receiveParts, hone]
      exact hall
    · rw [List.forall_mem_cons] at hother
      exact hquiet' id hother.2 (hquiet id (Ne.symm hother.1) hid)

end Files

/-! ## 5. One request -/

theorem absentChunks_of_ok {ε : Type} {isPresent : Text → Outcome ε Bool} {present : Text → Bool}
    {ids : List Text} (h : ∀ id ∈ ids, isPresent id = .ok (present id)) :
    absentChunks isPresent ids = .ok (ids.filter (!present ·)) := by
  induction ids with
  | nil => rfl
  | cons id rest ih =>
    rw [List.forall_mem_cons] at h
    rw [absentChunks, h.1, ih h.2]
    cases hid : present id with
    | false => simp [hid]
    | true => simp [hid]

section Requests

variable {P : Type} [DecidableEq P] {root : Path Name} {place : Path Name → P} {parsers : Parsers}
  {host : Host P} {v : Vault}

variable (root place) in
/-- The server has what the vault has. -/
structure Represents (host : Host P) (v : Vault) : Prop where
  files : Keeps root place host.disk v.store
  journal : host.journal = v.journal

variable (root place parsers) in
/-- The request is answered as by the vault. -/
def AnswersAs (host : Host P) (v : Vault) (request : Request) : Prop :=
  (host.serve root place parsers request).2 = (v.serve request).2 ∧
    Represents root place (host.serve root place parsers request).1 (v.serve request).1

theorem Represents.upload (h : Represents root place host v) (hplace : Path.Separates root place)
    (hparsers : parsers.IsSound) {uuid : Uuid} {chunks : List Chunk} {sizes : List Nat}
    {lands : Nat → Option (Nat × Nat)} (hok : v.IsAdmissible (.upload uuid chunks sizes lands))
    (htimely : IsTimely root place host v (.upload uuid chunks sizes lands)) :
    AnswersAs root place parsers host v (.upload uuid chunks sizes lands) ∧
      ∀ id, (∀ chunk ∈ chunks, chunk.1 ≠ id) → host.IsQuiet root place id →
        (host.serve root place parsers (.upload uuid chunks sizes lands)).1.IsQuiet root place id := by
  obtain ⟨hboundary, hchunks, hsize⟩ := hok
  have hflatten := flatten_cutInto sizes (uploadBatchBody uuid.boundary chunks)
  have hwhole : cappedDataStream dataFormLimit 0
      ((cutInto sizes (uploadBatchBody uuid.boundary chunks)).map some) =
        (cutInto sizes (uploadBatchBody uuid.boundary chunks)).map some := by
    apply cappedDataStream_of_lt
    rw [hflatten, Nat.zero_add]
    exact hsize
  have hfields := formFields_uploadBatchBody hboundary hchunks
  rw [← hflatten] at hfields
  obtain ⟨hending, hparts⟩ := hparsers.multer _ _ _ hfields
  obtain ⟨disk', hrun, hkeeps, hquiet⟩ := keeps_receiveParts hplace (isHealthy_landingDisk lands)
    (h.files.renumber chunks.length)
    (fun chunk hchunk ↦ ⟨(hchunks chunk hchunk).alphanumeric, (hchunks chunk hchunk).ne_nil⟩)
    htimely.1 (fun chunk hchunk ↦ (htimely.2 chunk hchunk).imp_left (·.renumber chunks.length))
    hparts 0
  have hstart : multipartFormData.isPrefixOf (Remote.uploadContentType uuid.boundary) = true := by
    rw [List.isPrefixOf_iff_prefix]
    exact List.IsPrefix.trans (by decide) (List.prefix_append _ uuid.boundary)
  have hupload : uploadChunks root place parsers.parseBoundary parsers.multer (landingDisk lands)
      (Remote.uploadContentType uuid.boundary)
      ((cutInto sizes (uploadBatchBody uuid.boundary chunks)).map some)
      (host.disk.renumber chunks.length) = (disk', .ok ()) := by
    rw [uploadChunks, receiveUpload, if_pos hstart, hparsers.parseBoundary _ hboundary]
    simp only [hwhole, hending]
    exact hrun
  rw [AnswersAs, Host.serve, hupload]
  exact ⟨⟨rfl, hkeeps, h.journal⟩,
    fun id hother hid ↦ hquiet id hother (Disk.IsQuiet.renumber hid chunks.length)⟩

omit [DecidableEq P] in
theorem Represents.isPresent_eq (h : Represents root place host v) {id : Text}
    (halpha : Alphanumeric id) :
    host.isPresent root place id = .ok (decide (id = []) || (v.store id).isSome) := by
  rw [Host.isPresent, ChunkId.isPresent]
  by_cases hne : id = []
  · rw [if_pos hne, decide_eq_true hne]
    rfl
  · rw [if_neg hne, ChunkId.filePath_eq_below root halpha hne, decide_eq_false hne, Bool.false_or,
      ← h.files.exists_eq halpha hne]
    rfl

theorem Represents.commit (h : Represents root place host v) (hparsers : parsers.IsSound)
    {userId : Int} {path chunkIds : Text} {deleted : Bool}
    (hok : v.IsAdmissible (.commit userId path deleted chunkIds)) :
    AnswersAs root place parsers host v (.commit userId path deleted chunkIds) := by
  obtain ⟨hids, hsize⟩ := hok
  have habsent : absentChunks (host.isPresent root place) (chunkIds.splitOn ',') =
      .ok (v.absent chunkIds) :=
    absentChunks_of_ok fun id hid ↦ h.isPresent_eq (hids id hid)
  have hform : (parsers.fromBytes (commitBody path deleted chunkIds)).bind
      CommitPayload.deserialize = some ⟨path, deleted, chunkIds⟩ := by
    rw [commitBody, hparsers.fromBytes, Option.bind_some, deserialize_commitPairs]
  rw [AnswersAs, Host.serve, routeCommit, if_neg (Nat.not_lt.mpr hsize), hform]
  simp only [Server.commit, CommitPayload.nonLocalChunks, habsent, Outcome.ok_bind, Vault.serve,
    h.journal]
  by_cases hnone : v.absent chunkIds = []
  · rw [if_pos hnone, if_pos hnone]
    exact ⟨rfl, h.files, rfl⟩
  · rw [if_neg hnone, if_neg hnone]
    exact ⟨rfl, h.files, rfl⟩

theorem chunkPaths_eq {ids : List Text} (hids : ∀ id ∈ ids, Alphanumeric id ∧ id ≠ []) :
    (chunkPaths root ids : Outcome ChunkError _) =
      .ok (ids.map fun id ↦ (id, chunkPath root id)) := by
  induction ids with
  | nil => rfl
  | cons id rest ih =>
    rw [List.forall_mem_cons] at hids
    rw [chunkPaths, ChunkId.filePath_eq_below root hids.1.1 hids.1.2, ih hids.2]
    rfl

omit [DecidableEq P] in
/-- The files of the ids, up to the first that is absent. -/
theorem Represents.present_eq (h : Represents root place host v) {ids : List Text}
    (hids : ∀ id ∈ ids, Alphanumeric id ∧ id ≠ [])
    (hquiet : ∀ id ∈ ids, host.IsQuiet root place id) :
    MultipartMixed.present (host.openFile place) (ids.map fun id ↦ (id, chunkPath root id)) =
        Vault.found v.store ids ∧
      (ids.map fun id ↦ (id, chunkPath root id)).all
          (fun chunk ↦ (host.openFile place chunk.2).isSome) =
        ids.all fun id ↦ (v.store id).isSome := by
  induction ids with
  | nil => exact ⟨rfl, rfl⟩
  | cons id rest ih =>
    rw [List.forall_mem_cons] at hids hquiet
    have hopen : host.openFile place (chunkPath root id) = v.store id :=
      h.files.read_eq hids.1.1 hids.1.2 hquiet.1
    rw [List.map_cons, MultipartMixed.present, Vault.found, hopen, List.all_cons, List.all_cons,
      hopen, (ih hids.2 hquiet.2).1, (ih hids.2 hquiet.2).2]
    exact ⟨rfl, rfl⟩

theorem Vault.mem_found {store : Text → Option Bytes} {ids : List Text} {item : Chunk}
    (h : item ∈ Vault.found store ids) : item.1 ∈ ids ∧ store item.1 = some item.2 := by
  induction ids with
  | nil => cases h
  | cons id rest ih =>
    rw [Vault.found] at h
    cases hid : store id with
    | none =>
      rw [hid] at h
      cases h
    | some content =>
      rw [hid] at h
      rcases List.mem_cons.mp h with rfl | h
      · exact ⟨List.mem_cons_self, hid⟩
      · exact ⟨List.mem_cons_of_mem id (ih h).1, (ih h).2⟩

theorem Represents.download (h : Represents root place host v) (hparsers : parsers.IsSound)
    {ids : List Text} {boundary : Text} {sizes : List Nat}
    (hok : v.IsAdmissible (.download ids boundary sizes))
    (htimely : IsTimely root place host v (.download ids boundary sizes)) :
    AnswersAs root place parsers host v (.download ids boundary sizes) := by
  obtain ⟨hids, hboundary, hcontents, hsize⟩ := hok
  obtain ⟨text, htext⟩ := exists_toUtf8_eq_urlencodePairs
    (ids.map fun id ↦ ("chunk_ids[]".toList, id))
  have hbody : downloadBatchBody ids = toUtf8 text := htext.symm
  have hroute : routeDownload parsers.fromBytes root boundary urlencodedForm (downloadBatchBody ids) =
      .ok ⟨boundary, ids.map fun id ↦ (id, chunkPath root id)⟩ := by
    have hvalues : (ids.map fun id ↦ ("chunk_ids[]".toList, id)).map Prod.snd = ids := by
      rw [List.map_map]
      exact List.map_id' ids
    rw [routeDownload, if_neg (Nat.not_lt.mpr hsize), hbody, fromUtf8_toUtf8]
    simp only [downloadChunks, requestedChunks, htext, hparsers.fromBytes, Option.getD_some, hvalues,
      chunkPaths_eq hids]
    rfl
  obtain ⟨hpresent, hall⟩ := h.present_eq hids htimely
  have hplain : ∀ item ∈ Vault.found v.store ids, ¬ boundaryBytes boundary <:+: item.2 := by
    intro item hitem
    obtain ⟨hid, hstore⟩ := Vault.mem_found hitem
    exact hcontents item.1 hid item.2 hstore
  have hdecode := downloadBatch_stream
    (⟨boundary, ids.map fun id ↦ (id, chunkPath root id)⟩ : MultipartMixed (Path Name))
    (host.openFile place) sizes hboundary
    (by
      intro chunk hchunk
      obtain ⟨id, hid, rfl⟩ := List.mem_map.mp hchunk
      exact (hids id hid).1)
    (by rw [hpresent]; exact hplain)
  rw [AnswersAs, Host.serve, hroute]
  simp only [hdecode, hpresent, hall]
  exact ⟨rfl, h⟩

theorem Represents.retrieve (h : Represents root place host v) {id : Text}
    (htimely : IsTimely root place host v (.retrieve id)) :
    AnswersAs root place parsers host v (.retrieve id) := by
  rw [AnswersAs, Host.serve, Server.retrieve, Vault.serve]
  by_cases halpha : Alphanumeric id
  · have hparam : ChunkId.fromParam id = .ok id := ChunkId.fromParam_eq_ok_iff.mpr ⟨halpha, rfl⟩
    rw [hparam, if_pos halpha]
    by_cases hne : id = []
    · simp only [if_pos hne]
      exact ⟨rfl, h⟩
    · have hopen : host.openFile place (root.below (ChunkId.shardOf id ++ [toUtf8 id])) =
          v.store id := h.files.read_eq halpha hne (htimely halpha hne)
      simp only [if_neg hne, ChunkId.filePath_eq_below root halpha hne, Outcome.ok_bind, hopen]
      cases v.store id with
      | none => exact ⟨rfl, h⟩
      | some content => exact ⟨rfl, h⟩
  · rw [if_neg halpha]
    have hparam : ∃ e, ChunkId.fromParam id = .error e := by
      cases hp : ChunkId.fromParam id with
      | error e => exact ⟨e, rfl⟩
      | ok other => exact absurd (ChunkId.fromParam_eq_ok_iff.mp hp).1 halpha
    obtain ⟨e, he⟩ := hparam
    rw [he]
    exact ⟨rfl, h⟩

/-! ## 6. All requests -/

variable (P root place parsers) in
def Host.service : Service (Host P) Event (Option Answer) := ⟨Host.next root place parsers⟩

def Vault.service : Service Vault Event (Option Answer) := ⟨Vault.next⟩

theorem Represents.answersAs (h : Represents root place host v) (hplace : Path.Separates root place)
    (hparsers : parsers.IsSound) {request : Request} (hok : v.IsAdmissible request)
    (htimely : IsTimely root place host v request) :
    AnswersAs root place parsers host v request := by
  cases request with
  | upload uuid chunks sizes lands => exact (h.upload hplace hparsers hok htimely).1
  | commit userId path deleted chunkIds => exact h.commit hparsers hok
  | download ids boundary sizes => exact h.download hparsers hok htimely
  | retrieve id => exact h.retrieve htimely

theorem landsWhole_one (k : Nat) :
    Disk.LandsWhole fun i ↦ if i = k then some WriteResult.ok else none := by
  intro i r hr
  rw [Option.ite_none_right_eq_some, Option.some.injEq] at hr
  exact hr.2.symm

/-- One event. -/
theorem Represents.next (h : Represents root place host v) (hplace : Path.Separates root place)
    (hparsers : parsers.IsSound) (event : Event) (hok : IsOrdinary root place (host, v) event) :
    ((Host.service P root place parsers).serve host event).2 = (Vault.service.serve v event).2 ∧
      Represents root place ((Host.service P root place parsers).serve host event).1
        (Vault.service.serve v event).1 := by
  cases event with
  | request r =>
    obtain ⟨hanswer, hrep⟩ := h.answersAs hplace hparsers hok.1 hok.2
    exact ⟨congrArg some hanswer, hrep⟩
  | lands k => exact ⟨rfl, (h.files.renumber 0).land (landsWhole_one k), h.journal⟩

/-- The server gives the answers of a map from ids to contents with a journal beside it, whatever
is asked of it in what order, and it has what the map has. -/
theorem answers_eq (hplace : Path.Separates root place) (hparsers : parsers.IsSound)
    (h : Represents root place host v) {events : List Event}
    (hok : ((Host.service P root place parsers).beside Vault.service).Each
      (IsOrdinary root place) (host, v) events) :
    ((Host.service P root place parsers).run host events).2 = (Vault.service.run v events).2 ∧
      Represents root place ((Host.service P root place parsers).run host events).1
        (Vault.service.run v events).1 :=
  Service.run_eq (fun _ _ _ hrel hevent ↦ hrel.next hplace hparsers _ hevent) h hok

/-- The chunks that are uploaded by some requests. -/
def uploadedBy (requests : List Request) : List Chunk :=
  requests.flatMap fun
    | .upload _ chunks _ _ => chunks
    | _ => []

def requestsOf (events : List Event) : List Request := events.filterMap Event.request?

/-- What has been uploaded last under an id. -/
def lastUploaded (events : List Event) (id : Text) : Option Bytes :=
  ((uploadedBy (requestsOf events)).reverse.find? (·.1 = id)).map Prod.snd

theorem storeChunks_append (store : Text → Option Bytes) (chunks chunks' : List Chunk) :
    storeChunks store (chunks ++ chunks') = storeChunks (storeChunks store chunks) chunks' :=
  List.foldl_append

theorem storeChunks_apply (chunks : List Chunk) (id : Text) :
    storeChunks (fun _ ↦ none) chunks id =
      (chunks.reverse.find? (·.1 = id)).map Prod.snd := by
  induction chunks using List.reverseRecOn with
  | nil => rfl
  | append_singleton chunks chunk ih =>
    have hlast : storeChunks (fun _ ↦ none) (chunks ++ [chunk]) =
        Function.update (storeChunks (fun _ ↦ none) chunks) chunk.1 (some chunk.2) :=
      storeChunks_append _ chunks [chunk]
    rw [hlast, List.reverse_append, List.reverse_singleton, List.singleton_append, List.find?_cons]
    by_cases hid : chunk.1 = id
    · rw [hid, Function.update_self, decide_eq_true rfl]
      rfl
    · rw [Function.update_of_ne (Ne.symm hid), decide_eq_false hid, ih]

def Vault.requestService : Service Vault Request Answer := ⟨Vault.serve⟩

/-- What lands in the background does not concern the vault. -/
theorem Vault.run_events (v : Vault) (events : List Event) :
    (Vault.service.run v events).1 = (Vault.requestService.run v (requestsOf events)).1 ∧
      (Vault.service.run v events).2.filterMap id =
        (Vault.requestService.run v (requestsOf events)).2 := by
  induction events generalizing v with
  | nil => exact ⟨rfl, rfl⟩
  | cons event rest ih =>
    cases event with
    | request r =>
      obtain ⟨hstate, hanswers⟩ := ih (v.serve r).1
      exact ⟨hstate, congrArg ((v.serve r).2 :: ·) hanswers⟩
    | lands k => exact ih v

theorem Vault.store_run (v : Vault) (requests : List Request) :
    (Vault.requestService.run v requests).1.store = storeChunks v.store (uploadedBy requests) := by
  induction requests generalizing v with
  | nil => rfl
  | cons request rest ih =>
    have hstore : (v.serve request).1.store = storeChunks v.store (uploadedBy [request]) := by
      cases request with
      | upload uuid chunks sizes lands =>
        rw [Vault.serve, uploadedBy, List.flatMap_singleton]
      | commit userId path deleted chunkIds =>
        rw [Vault.serve]
        split
        · rfl
        · rfl
      | download ids boundary sizes => rfl
      | retrieve id =>
        rw [Vault.serve]
        split
        · split
          · rfl
          · rfl
        · rfl
    have hcons : uploadedBy (request :: rest) = uploadedBy [request] ++ uploadedBy rest := by
      rw [uploadedBy, List.flatMap_cons, uploadedBy, List.flatMap_singleton]
      rfl
    rw [Service.run, hcons, storeChunks_append, ← hstore]
    exact ih _

theorem Vault.found_of_all {store : Text → Option Bytes} {ids : List Text}
    (h : ∀ id ∈ ids, (store id).isSome) :
    Vault.found store ids = ids.filterMap fun id ↦ (store id).map (id, ·) := by
  induction ids with
  | nil => rfl
  | cons id rest ih =>
    rw [List.forall_mem_cons] at h
    obtain ⟨content, hcontent⟩ := Option.isSome_iff_exists.mp h.1
    rw [Vault.found, hcontent, List.filterMap_cons, hcontent, ih h.2]
    rfl

def Host.empty : Host P := ⟨⟨.empty, []⟩, .empty⟩

def Vault.empty : Vault := ⟨fun _ ↦ none, .empty⟩

omit [DecidableEq P] in
theorem represents_empty : Represents root place (Host.empty : Host P) Vault.empty :=
  ⟨keeps_empty, rfl⟩

/-- A batch download sends for each id what has been uploaded last under it, whatever was asked of
the server before. -/
theorem download_uploaded (hplace : Path.Separates root place) (hparsers : parsers.IsSound)
    {events : List Event} {ids : List Text} {boundary : Text} {sizes : List Nat}
    (hok : ((Host.service P root place parsers).beside Vault.service).Each (IsOrdinary root place)
      (Host.empty, Vault.empty) (events ++ [.request (.download ids boundary sizes)]))
    (hids : ∀ id ∈ ids, (lastUploaded events id).isSome) :
    ((Host.service P root place parsers).run Host.empty
        (events ++ [.request (.download ids boundary sizes)])).2.getLast? =
      some (some (.downloaded
        (ids.filterMap fun id ↦ (lastUploaded events id).map (id, ·), .ok ()))) := by
  have hstore : (Vault.service.run Vault.empty events).1.store = lastUploaded events := by
    funext id
    rw [(Vault.run_events Vault.empty events).1, Vault.store_run]
    exact storeChunks_apply _ id
  have hanswers : ((Host.service P root place parsers).run Host.empty
      (events ++ [.request (.download ids boundary sizes)])).2 = _ :=
    (Service.run_eq (fun _ _ _ hrel hevent ↦ hrel.next hplace hparsers _ hevent)
      represents_empty hok).1
  rw [hanswers, Service.run_append]
  have hall : ids.all (fun id ↦ (lastUploaded events id).isSome) = true :=
    List.all_eq_true.mpr hids
  change (_ ++ [some (Answer.downloaded (received
    (Vault.found (Vault.service.run Vault.empty events).1.store ids)
    (ids.all fun id ↦ ((Vault.service.run Vault.empty events).1.store id).isSome)))]).getLast? = _
  rw [List.getLast?_concat, hstore, hall, Vault.found_of_all hids, received, if_pos rfl]

end Requests

/-! ## 7. An example -/

/-- Parsers that read what is well formed, and nothing else. -/
def plainParsers : Parsers where
  parseBoundary contentType := some (contentType.drop (Remote.uploadContentType []).length)
  multer boundary body :=
    match formFields boundary body.delivered with
    | some fields => ⟨fields.map fun field ↦ ⟨some field.1, [field.2]⟩, .complete⟩
    | none => ⟨[], .inHeaders⟩
  fromBytes := urldecodePairs

theorem delivered_map_some (pieces : List Bytes) :
    Body.delivered (pieces.map some) = pieces.flatten := by
  induction pieces with
  | nil => rfl
  | cons piece pieces ih => rw [List.map_cons, Body.delivered, ih, List.flatten_cons]

theorem isSound_plainParsers : plainParsers.IsSound where
  parseBoundary boundary _ := congrArg some (List.drop_left' rfl)
  multer boundary pieces fields h := by
    have hmulter : plainParsers.multer boundary (pieces.map some) =
        ⟨fields.map fun field ↦ ⟨some field.1, [field.2]⟩, .complete⟩ := by
      simp only [plainParsers, delivered_map_some, h]
    rw [hmulter]
    refine ⟨rfl, ?_⟩
    rw [List.map_map]
    refine List.map_congr_left fun field _ ↦ ?_
    simp [Part.field]
  fromBytes := urldecodePairs_urlencodePairs

def zeroUuid : Uuid := ⟨List.replicate 36 '0', by decide⟩

/-- A chunk is uploaded, and a record that needs it is committed before its bytes have landed.  Then
it is fetched in two ways. -/
def noteEvents : List Event :=
  [.request (.upload zeroUuid [("a1".toList, [120])] [3, 50] fun _ ↦ none),
    .request (.commit 1 "a.cook".toList false "a1".toList), .lands 0,
    .request (.retrieve "a1".toList)]

def noteDownload : Event := .request (.download ["a1".toList] "B7".toList [5])

theorem separates_uploadDir : Path.Separates uploadDir (·.placeFrom []) :=
  Path.separates_placeFrom [] (show uploadDir.comps = [toUtf8 "upload".toList].map .normal by decide)

theorem isQuiet_of_late {P : Type} {root : Path Name} {place : Path Name → P} {host : Host P}
    (h : host.disk.late = []) (id : Text) : host.IsQuiet root place id := by
  intro e he
  rw [h] at he
  cases he

theorem each_noteEvents :
    ((Host.service (Place Name) uploadDir (·.placeFrom []) plainParsers).beside Vault.service).Each
      (IsOrdinary uploadDir (·.placeFrom [])) (Host.empty, Vault.empty)
        (noteEvents ++ [noteDownload]) := by
  refine ⟨⟨⟨?_, ?_, ?_⟩, ?_, ?_⟩, ⟨⟨?_, ?_⟩, trivial⟩, trivial, ⟨trivial, fun _ _ ↦ ?_⟩,
    ⟨⟨?_, ?_, ?_, ?_⟩, ?_⟩, trivial⟩
  · decide
  · intro chunk hchunk
    rw [List.mem_singleton.mp hchunk]
    exact ⟨by decide, by decide, by decide +kernel⟩
  · rw [length_uploadBatchBody]
    decide
  · intro a ha b hb _
    rw [List.mem_singleton.mp ha, List.mem_singleton.mp hb]
  · exact fun chunk _ ↦ .inl (isQuiet_of_late rfl chunk.1)
  · decide
  · decide +kernel
  · exact isQuiet_of_late (by decide +kernel) _
  · decide
  · decide
  · intro id hid content hcontent
    rw [List.mem_singleton.mp hid] at hcontent
    cases hcontent
    decide
  · decide +kernel
  · exact fun id _ ↦ isQuiet_of_late (by decide +kernel) id

theorem answers_eq_note :
    ((Host.service (Place Name) uploadDir (·.placeFrom []) plainParsers).run Host.empty
      (noteEvents ++ [noteDownload])).2.filterMap id =
    [.uploaded (.ok ()), .committed (.ok (.success 1)), .retrieved (.ok [120]),
      .downloaded ([("a1".toList, [120])], .ok ())] := by
  rw [(answers_eq separates_uploadDir isSound_plainParsers represents_empty each_noteEvents).1]
  rfl

theorem download_uploaded_note :
    ((Host.service (Place Name) uploadDir (·.placeFrom []) plainParsers).run Host.empty
      (noteEvents ++ [noteDownload])).2.getLast? =
    some (some (.downloaded ([("a1".toList, [120])], .ok ()))) :=
  download_uploaded separates_uploadDir isSound_plainParsers each_noteEvents (by decide)

end CooklangSync.System
