import CooklangSync.Client.Answers
import CooklangSync.Server.ChunkId
import CooklangSync.Server.Metadata
import CooklangSync.Theory.History

/-!
# TwoPasses — an upload pass sends chunks, the next one commits

The first pass is answered with the chunks that the server lacks and sends them; the rows it leaves
are committed by the second, provided that their files are read in pieces that the server has by
then (`checkUploadOnce_twice_iff`).
-/

namespace CooklangSync.System

open Theory

/-- The answer as the client reads it. -/
def answerOf : Server.CommitResultStatus → Client.CommitResultStatus
  | .success jid => .success jid
  | .needChunks chunks => .needChunks chunks

-- The empty id needs no chunk.
def isStored (stored : Text → Bool) (id : Text) : Outcome Unit Bool :=
  .ok (decide (id = []) || stored id)

section Passes

variable (sha256 : Bytes → Text) (userId : Int)

/-! ## 1. A pass and the server -/

/-- The rows are committed one after the other, with no other request in between, the row with index
`i` first. -/
def Serves (stored : Text → Bool) (env : Client.Syncer.UploadEnv) (s : Client.ClientState) :
    Nat → Server.Journal → List Client.FileRecord → Server.Journal → Prop
  | _, journal, [], journal' => journal' = journal
  | i, journal, f :: fs, journal' =>
    let chunkIds := Client.Syncer.sentIds sha256 (env.reads i) s f
    ∃ status next, Server.commit (isStored stored) journal userId ⟨f.path, f.deleted, chunkIds⟩ =
        .ok (status, next) ∧
      env.commit i f chunkIds = .ok (answerOf status) ∧
      Serves stored env s (i + 1) next fs journal'

/-- Nothing fails in a pass, and the server answers it: `journal` becomes `journal'`. -/
structure IsServed (stored : Text → Bool) (namespaceId : Int) (env : Client.Syncer.UploadEnv)
    (s : Client.ClientState) (journal journal' : Server.Journal) : Prop where
  query : env.queryFails = false
  registry : ∀ i, env.registryFails i = false
  reads : ∀ i, (env.reads i).failsAfter = none
  uploads : ∀ batch, env.uploadBatch batch = .ok ()
  serves : Serves sha256 userId stored env s 0 journal (s.registry.updatedLocally namespaceId)
    journal'

/-- Every part of the batches of a pass is stored. -/
def storedAfter (stored : Text → Bool) (namespaceId : Int) (env : Client.Syncer.UploadEnv)
    (s : Client.ClientState) (id : Text) : Bool :=
  stored id ||
    (Client.Syncer.sentBatches sha256 env namespaceId s).flatten.any fun chunk ↦ chunk.1 = id

/-- A row with its index is accepted when all its chunks are stored. -/
def isAccepted (stored : Text → Bool) (env : Client.Syncer.UploadEnv) (s : Client.ClientState)
    (row : Client.FileRecord × Nat) : Bool :=
  (Client.Syncer.fileIds sha256 (env.reads row.2) s row.1).all stored

def accepted (stored : Text → Bool) (env : Client.Syncer.UploadEnv) (s : Client.ClientState)
    (rows : List (Client.FileRecord × Nat)) : List Client.FileRecord :=
  (rows.filter (isAccepted sha256 stored env s)).map Prod.fst

def refused (stored : Text → Bool) (env : Client.Syncer.UploadEnv) (s : Client.ClientState)
    (rows : List (Client.FileRecord × Nat)) : List Client.FileRecord :=
  (rows.filter (!isAccepted sha256 stored env s ·)).map Prod.fst

/-- The ids the answers of a pass ask for. -/
def lacking (stored : Text → Bool) (env : Client.Syncer.UploadEnv) (s : Client.ClientState)
    (rows : List (Client.FileRecord × Nat)) : List Text :=
  rows.flatMap fun row ↦ (Client.Syncer.fileIds sha256 (env.reads row.2) s row.1).filter (!stored ·)

/-- The server has a record of the row under the jid: of its path, with its deleted flag and the ids
of a reading of its file. -/
def IsRecorded (env : Client.Syncer.UploadEnv) (s : Client.ClientState) (journal : Server.Journal)
    (f : Client.FileRecord) (jid : Int) : Prop :=
  ∃ r ∈ journal.rows, r.id = jid ∧ r.userId = userId ∧ r.path = f.path ∧ r.deleted = f.deleted ∧
    ∃ k, r.chunkIds = Client.Syncer.sentIds sha256 (env.reads k) s f

variable {sha256 userId}

theorem all_isAccepted_iff {stored : Text → Bool} {env : Client.Syncer.UploadEnv}
    {s : Client.ClientState} {rows : List (Client.FileRecord × Nat)} :
    rows.all (isAccepted sha256 stored env s) = true ↔
      ∀ row ∈ rows, ∀ id ∈ Client.Syncer.fileIds sha256 (env.reads row.2) s row.1,
        stored id = true := by
  simp [isAccepted]

theorem refused_eq_nil_iff {stored : Text → Bool} {env : Client.Syncer.UploadEnv}
    {s : Client.ClientState} {rows : List (Client.FileRecord × Nat)} :
    refused sha256 stored env s rows = [] ↔ rows.all (isAccepted sha256 stored env s) = true := by
  rw [refused, List.map_eq_nil_iff, List.filter_eq_nil_iff]
  simp

theorem filter_not_accepted {stored : Text → Bool} {env : Client.Syncer.UploadEnv}
    {s : Client.ClientState} {rows : List (Client.FileRecord × Nat)}
    (hdistinct : (rows.map (·.1.id)).Nodup) :
    ((rows.map Prod.fst).filter fun f ↦
        f.id ∉ (accepted sha256 stored env s rows).map Client.FileRecord.id) =
      refused sha256 stored env s rows := by
  rw [List.filter_map, refused]
  congr 1
  apply List.filter_congr
  intro row hrow
  have hmem : row.1.id ∈ (accepted sha256 stored env s rows).map Client.FileRecord.id ↔
      isAccepted sha256 stored env s row = true := by
    rw [accepted, List.map_map, List.mem_map]
    constructor
    · rintro ⟨row', hrow', heq⟩
      obtain ⟨hrow', haccepted⟩ := List.mem_filter.mp hrow'
      rwa [List.inj_on_of_nodup_map hdistinct hrow' hrow heq] at haccepted
    · exact fun h ↦ ⟨row, List.mem_filter.mpr ⟨hrow, h⟩, rfl⟩
  rw [Function.comp_apply]
  cases haccepted : isAccepted sha256 stored env s row with
  | true => exact decide_eq_false (not_not_intro (hmem.mpr haccepted))
  | false => exact decide_eq_true fun h ↦ by rw [hmem, haccepted] at h; cases h

/-! ## 2. One row -/

/-- The server's answer to the commit of a row. -/
theorem commit_sentIds (hdigest : Client.IsHexDigest sha256) (stored : Text → Bool)
    (reads : Client.Chunker.ReadEnv) (s : Client.ClientState) (f : Client.FileRecord)
    (journal : Server.Journal) :
    let ids := Client.Syncer.fileIds sha256 reads s f
    let chunkIds := Client.Syncer.sentIds sha256 reads s f
    Server.commit (isStored stored) journal userId ⟨f.path, f.deleted, chunkIds⟩ =
      if ids.all stored then
        let r := Server.commitRecord journal ⟨userId, chunkIds, f.deleted, f.path⟩
        .ok (.success r.1, r.2)
      else .ok (.needChunks (List.intercalate [','] (ids.filter (!stored ·))), journal) := by
  intro ids chunkIds
  have habsent : Server.CommitPayload.nonLocalChunks (isStored stored)
      ⟨f.path, f.deleted, chunkIds⟩ = .ok (ids.filter (!stored ·)) := by
    have hok : Server.absentChunks (isStored stored) (chunkIds.splitOn ',') =
        .ok ((chunkIds.splitOn ',').filter fun id ↦ !(decide (id = []) || stored id)) :=
      Server.absentChunks_ok (fun id ↦ decide (id = []) || stored id) _
    refine hok.trans (congrArg Outcome.ok ?_)
    rw [Client.Syncer.splitOn_sentIds hdigest]
    by_cases hnil : ids = []
    · rw [if_pos hnil, hnil]
      rfl
    · rw [if_neg hnil]
      apply List.filter_congr
      intro id hid
      simp [(Client.Syncer.ne_nil_of_mem_fileIds hdigest hid).1]
  have hall : ids.filter (!stored ·) = [] ↔ ids.all stored = true := by
    rw [List.filter_eq_nil_iff, List.all_eq_true]
    simp
  rw [Server.commit, habsent, Outcome.ok_bind]
  by_cases h : ids.all stored = true
  · rw [if_pos h, if_pos (hall.mpr h)]
    rfl
  · rw [if_neg h, if_neg (fun hnil ↦ h (hall.mp hnil))]
    rfl

/-- A state of the pass that started in `s`. -/
structure Carries (s t : Client.ClientState) : Prop where
  disk : t.disk = s.disk
  basePath : t.chunker.basePath = s.chunker.basePath
  evictsNothing : t.chunker.EvictsNothing

variable (sha256 userId) in
theorem isRecorded_of_commitRecord (env : Client.Syncer.UploadEnv) (s : Client.ClientState)
    (journal : Server.Journal) (i : Nat) (f : Client.FileRecord) :
    let r := Server.commitRecord journal
      ⟨userId, Client.Syncer.sentIds sha256 (env.reads i) s f, f.deleted, f.path⟩
    IsRecorded sha256 userId env s r.2 f r.1 ∧ r.2.Extends journal := by
  intro r
  have hrecord : Server.commitRecord journal _ = (r.1, r.2) := rfl
  constructor
  · obtain ⟨answered, hlatest, hid, hids, hdel⟩ := Server.latestForPath_commitRecord hrecord
    have hspec := Server.latestForPath_spec hlatest
    exact ⟨answered, hspec.1, hid, hspec.2.1, hspec.2.2, hdel, i, hids⟩
  · rcases Server.commitRecord_grows hrecord with hkept | hinsert
    · rw [hkept]
      exact .refl journal
    · rw [hinsert]
      exact Table.extends_insert journal _ (Server.NewFileRecord.id_withId _)

theorem IsRecorded.extends {env : Client.Syncer.UploadEnv} {s : Client.ClientState}
    {journal journal' : Server.Journal} {f : Client.FileRecord} {jid : Int}
    (h : IsRecorded sha256 userId env s journal f jid) (hextends : journal'.Extends journal) :
    IsRecorded sha256 userId env s journal' f jid := by
  obtain ⟨r, hr, hrest⟩ := h
  exact ⟨r, hextends.mem hr, hrest⟩

/-- The ids of an answer that asks for chunks, read back. -/
theorem splitOn_lacking (hdigest : Client.IsHexDigest sha256) {stored : Text → Bool}
    {reads : Client.Chunker.ReadEnv} {s : Client.ClientState} {f : Client.FileRecord}
    (hall : ¬ (Client.Syncer.fileIds sha256 reads s f).all stored = true) :
    (List.intercalate [','] ((Client.Syncer.fileIds sha256 reads s f).filter
      (!stored ·))).splitOn ',' = (Client.Syncer.fileIds sha256 reads s f).filter (!stored ·) := by
  apply List.splitOn_intercalate
  · intro id hid
    exact (Client.Syncer.ne_nil_of_mem_fileIds hdigest (List.mem_filter.mp hid).1).2
  · intro hnil
    rw [List.filter_eq_nil_iff] at hnil
    exact hall (by simpa using hnil)

theorem uploadFile_served (hdigest : Client.IsHexDigest sha256) {stored : Text → Bool}
    {env : Client.Syncer.UploadEnv} {i : Nat} (hreads : (env.reads i).failsAfter = none)
    (hregistry : env.registryFails i = false) {s t : Client.ClientState} (ht : Carries s t)
    {f : Client.FileRecord} (hf : Client.Syncer.IsReadable s f) {journal next : Server.Journal}
    {status : Server.CommitResultStatus}
    (hcommit : Server.commit (isStored stored) journal userId
      ⟨f.path, f.deleted, Client.Syncer.sentIds sha256 (env.reads i) s f⟩ = .ok (status, next))
    (hanswer : env.commit i f (Client.Syncer.sentIds sha256 (env.reads i) s f) =
      .ok (answerOf status)) (q : Client.UploadQueue) :
    ∃ (t' : Client.ClientState) (chunks : List Client.Chunk) (jids : List (Client.FileRecord × Int)),
      Client.Syncer.uploadFile sha256 env i t f q =
        (t', .ok (chunks.foldl Client.UploadQueue.push q, isAccepted sha256 stored env s (f, i))) ∧
      Carries s t' ∧ chunks.map Prod.fst = lacking sha256 stored env s [(f, i)] ∧
      t'.registry = t.registry.updateJids jids ∧
      jids.map Prod.fst = accepted sha256 stored env s [(f, i)] ∧
      (∀ p ∈ jids, IsRecorded sha256 userId env s next p.1 p.2) ∧ next.Extends journal := by
  have hids := Client.Syncer.fileIds_congr sha256 (env.reads i) ht.disk ht.basePath f
  have hsent : Client.Syncer.sentIds sha256 (env.reads i) t f =
      Client.Syncer.sentIds sha256 (env.reads i) s f := by
    rw [Client.Syncer.sentIds, Client.Syncer.sentIds, hids]
  obtain ⟨c, hhash, hevicts, hbase, hcached⟩ := Client.Syncer.hashFile_spec hreads
    ht.evictsNothing ((Client.Syncer.isReadable_congr ht.disk ht.basePath f).mpr hf)
  rw [hsent] at hhash
  rw [hids] at hcached
  rw [commit_sentIds hdigest] at hcommit
  have hlacking : lacking sha256 stored env s [(f, i)] =
      (Client.Syncer.fileIds sha256 (env.reads i) s f).filter (!stored ·) := List.flatMap_singleton ..
  have hone : (isAccepted sha256 stored env s (f, i) =
      (Client.Syncer.fileIds sha256 (env.reads i) s f).all stored) := rfl
  rw [Client.Syncer.uploadFile, hhash]
  by_cases hall : (Client.Syncer.fileIds sha256 (env.reads i) s f).all stored = true
  · -- nothing is lacking: the row is accepted
    rw [if_pos hall] at hcommit
    obtain ⟨hrecorded, hextends⟩ := isRecorded_of_commitRecord sha256 userId env s journal i f
    generalize Server.commitRecord journal ⟨userId,
      Client.Syncer.sentIds sha256 (env.reads i) s f, f.deleted, f.path⟩ = r at *
    obtain ⟨jid, next'⟩ := r
    cases hcommit
    refine ⟨{ t with chunker := c, registry := t.registry.updateJid f jid }, [], [(f, jid)], ?_,
      ⟨ht.disk, hbase.trans ht.basePath, hevicts⟩, ?_, rfl, ?_, ?_, hextends⟩
    · simp only [hanswer, answerOf, Client.Syncer.recordAnswer, hregistry, hone, hall]
      rfl
    · rw [hlacking, List.map_nil, eq_comm, List.filter_eq_nil_iff]
      simpa using hall
    · rw [accepted, List.filter_cons_of_pos (by rw [hone]; exact hall)]
      rfl
    · intro p hp
      rw [List.mem_singleton.mp hp]
      exact hrecorded
  · rw [if_neg hall] at hcommit
    obtain ⟨rfl, rfl⟩ := Prod.mk.inj (Outcome.ok.inj hcommit)
    have hsplit := splitOn_lacking hdigest hall
    obtain ⟨chunks, hread, hnames⟩ := Client.Syncer.readChunks_of_cached (c := c)
      fun id hid ↦ hcached id (List.mem_filter.mp hid).1
    refine ⟨{ t with chunker := c }, chunks, [],
      ?_, ⟨ht.disk, hbase.trans ht.basePath, hevicts⟩, hnames.trans hlacking.symm, rfl, ?_, ?_,
      .refl journal⟩
    · simp only [hanswer, answerOf, Client.Syncer.recordAnswer, hsplit,
        Client.Syncer.enqueueChunks_eq, hread, hone, Bool.not_eq_true _ ▸ hall]
      rfl
    · rw [accepted, List.filter_cons_of_neg (by rw [hone]; exact hall)]
      rfl
    · intro p hp
      cases hp

/-! ## 3. All rows -/

theorem updateJids_append (registry : Client.Registry)
    (jids jids' : List (Client.FileRecord × Int)) :
    registry.updateJids (jids ++ jids') = (registry.updateJids jids).updateJids jids' :=
  List.foldl_append

theorem uploadFiles_served (hdigest : Client.IsHexDigest sha256) {stored : Text → Bool}
    {env : Client.Syncer.UploadEnv} (hreads : ∀ i, (env.reads i).failsAfter = none)
    (hregistry : ∀ i, env.registryFails i = false) {s t : Client.ClientState} (ht : Carries s t)
    {fs : List Client.FileRecord} (hfs : ∀ f ∈ fs, Client.Syncer.IsReadable s f) {i : Nat}
    {journal journal' : Server.Journal}
    (hserves : Serves sha256 userId stored env s i journal fs journal') (q : Client.UploadQueue)
    (allCommitted : Bool) :
    ∃ (t' : Client.ClientState) (chunks : List Client.Chunk) (jids : List (Client.FileRecord × Int)),
      Client.Syncer.uploadFiles sha256 env i t q allCommitted fs =
        (t', .ok (chunks.foldl Client.UploadQueue.push q,
          allCommitted && (fs.zipIdx i).all (isAccepted sha256 stored env s))) ∧
      Carries s t' ∧ chunks.map Prod.fst = lacking sha256 stored env s (fs.zipIdx i) ∧
      t'.registry = t.registry.updateJids jids ∧
      jids.map Prod.fst = accepted sha256 stored env s (fs.zipIdx i) ∧
      (∀ p ∈ jids, IsRecorded sha256 userId env s journal' p.1 p.2) ∧ journal'.Extends journal := by
  induction fs generalizing i t q allCommitted journal with
  | nil =>
    rw [show journal' = journal from hserves]
    refine ⟨t, [], [], ?_, ht, rfl, rfl, rfl, (fun p hp ↦ nomatch hp), .refl journal⟩
    rw [List.zipIdx_nil, List.all_nil, Bool.and_true]
    rfl
  | cons f fs ih =>
    obtain ⟨status, next, hcommit, hanswer, hrest⟩ := hserves
    obtain ⟨t₁, chunks, jids, hone, ht₁, hnames, hreg, hacc, hrec, hext⟩ :=
      uploadFile_served hdigest (hreads i) (hregistry i) ht (hfs f List.mem_cons_self) hcommit
        hanswer q
    obtain ⟨t', chunks', jids', hall, ht', hnames', hreg', hacc', hrec', hext'⟩ :=
      ih ht₁ (fun g hg ↦ hfs g (List.mem_cons_of_mem f hg)) hrest
        (chunks.foldl Client.UploadQueue.push q)
        (allCommitted && isAccepted sha256 stored env s (f, i))
    refine ⟨t', chunks ++ chunks', jids ++ jids', ?_, ht', ?_, ?_, ?_, ?_, hext'.trans hext⟩
    · rw [Client.Syncer.uploadFiles, hone]
      simp only [hall, List.foldl_append, List.zipIdx_cons, List.all_cons, Bool.and_assoc]
    · rw [List.map_append, hnames, hnames', List.zipIdx_cons, lacking, lacking, lacking,
        List.flatMap_singleton, List.flatMap_cons]
    · rw [updateJids_append, ← hreg, hreg']
    · rw [List.map_append, hacc, hacc', List.zipIdx_cons, accepted, accepted, accepted,
        ← List.map_append, ← List.filter_append, List.singleton_append]
    · intro p hp
      rcases List.mem_append.mp hp with hp | hp
      · exact (hrec p hp).extends hext'
      · exact hrec' p hp

/-! ## 4. One pass -/

theorem uploadBatches_of_accepted {env : Client.Syncer.UploadEnv}
    (h : ∀ batch, env.uploadBatch batch = .ok ()) (batches : List (List Client.Chunk)) :
    Client.Syncer.uploadBatches env batches = .ok () := by
  induction batches with
  | nil => rfl
  | cons batch rest ih => rw [Client.Syncer.uploadBatches, h batch, Outcome.ok_bind, ih]

/-- What a pass that is served comes to. -/
structure PassEnds (sha256 : Bytes → Text) (userId : Int) (stored : Text → Bool)
    (namespaceId : Int) (env : Client.Syncer.UploadEnv) (s s' : Client.ClientState)
    (outcome : Outcome Client.SyncError Bool) (journal journal' : Server.Journal) : Prop where
  outcome : outcome = .ok (((s.registry.updatedLocally namespaceId).zipIdx).all
    (isAccepted sha256 stored env s))
  carries : Carries s s'
  pending : s'.registry.updatedLocally namespaceId =
    refused sha256 stored env s (s.registry.updatedLocally namespaceId).zipIdx
  recorded : ∀ f ∈ accepted sha256 stored env s (s.registry.updatedLocally namespaceId).zipIdx,
    ∃ jid, { f with jid := some jid } ∈ s'.registry.rows ∧
      IsRecorded sha256 userId env s journal' f jid
  kept : ∀ r ∈ s.registry.rows, r.jid.isSome → r ∈ s'.registry.rows
  grown : journal'.Extends journal
  uploaded : ∀ id, storedAfter sha256 stored namespaceId env s id = true ↔ stored id = true ∨
    id ∈ lacking sha256 stored env s (s.registry.updatedLocally namespaceId).zipIdx

theorem checkUploadOnce_served (hdigest : Client.IsHexDigest sha256) {stored : Text → Bool}
    {namespaceId : Int} {env : Client.Syncer.UploadEnv} {s : Client.ClientState}
    {journal journal' : Server.Journal}
    (h : IsServed sha256 userId stored namespaceId env s journal journal')
    (hcache : s.chunker.EvictsNothing)
    (hreadable : ∀ f ∈ s.registry.updatedLocally namespaceId, Client.Syncer.IsReadable s f) :
    PassEnds sha256 userId stored namespaceId env s
      (Client.Syncer.checkUploadOnce sha256 env namespaceId s).1
      (Client.Syncer.checkUploadOnce sha256 env namespaceId s).2 journal journal' := by
  obtain ⟨t, chunks, jids, hrun, ht, hnames, hreg, hacc, hrec, hext⟩ :=
    uploadFiles_served hdigest h.reads h.registry ⟨rfl, rfl, hcache⟩ hreadable h.serves .empty true
  rw [Bool.true_and] at hrun
  have hpass : Client.Syncer.checkUploadOnce sha256 env namespaceId s =
      (t, .ok (((s.registry.updatedLocally namespaceId).zipIdx).all
        (isAccepted sha256 stored env s))) := by
    rw [Client.Syncer.checkUploadOnce, h.query, if_neg Bool.false_ne_true, hrun]
    simp only [uploadBatches_of_accepted h.uploads]
  have hids : jids.map (fun p ↦ p.1.id) = (accepted sha256 stored env s
      (s.registry.updatedLocally namespaceId).zipIdx).map Client.FileRecord.id := by
    rw [← hacc, List.map_map]
    rfl
  have hrows : ((s.registry.updatedLocally namespaceId).zipIdx).map Prod.fst =
      s.registry.updatedLocally namespaceId := List.zipIdx_map_fst ..
  have hdistinct : (((s.registry.updatedLocally namespaceId).zipIdx).map (·.1.id)).Nodup := by
    have hnodup := s.registry.nodup_updatedLocally namespaceId
    rw [← hrows, List.map_map] at hnodup
    exact hnodup
  have hpending : ∀ p ∈ jids, p.1 ∈ s.registry.updatedLocally namespaceId := by
    intro p hp
    have hmem : p.1 ∈ jids.map Prod.fst := List.mem_map_of_mem hp
    rw [hacc, accepted] at hmem
    obtain ⟨row, hrow, heq⟩ := List.mem_map.mp hmem
    rw [← hrows, ← heq]
    exact List.mem_map_of_mem (List.mem_filter.mp hrow).1
  rw [hpass]
  refine ⟨rfl, ht, ?_, ?_, ?_, hext, ?_⟩
  · rw [hreg, Client.Registry.updatedLocally_updateJids, hids, ← filter_not_accepted hdistinct,
      hrows]
  · intro f hf
    rw [← hacc] at hf
    obtain ⟨p, hp, rfl⟩ := List.mem_map.mp hf
    refine ⟨p.2, ?_, hrec p hp⟩
    rw [hreg]
    refine Client.Registry.mem_updateJids ?_ (fun p hp ↦ ?_) hp
    · rw [hids, accepted, List.map_map]
      exact hdistinct.sublist (List.filter_sublist.map _)
    · exact (List.mem_filter.mp (List.mem_filter.mp (hpending p hp)).1).1
  · intro r hr hjid
    rw [hreg]
    apply Client.Registry.mem_updateJids_of_not_mem hr
    intro hmem
    obtain ⟨p, hp, heq⟩ := List.mem_map.mp hmem
    obtain ⟨hlatest, hnone⟩ := List.mem_filter.mp (hpending p hp)
    have hsame := s.registry.eq_of_id_eq (List.mem_filter.mp hlatest).1 hr heq
    rw [hsame] at hnone
    rw [Option.isNone_iff_eq_none] at hnone
    rw [hnone] at hjid
    cases hjid
  · intro id
    have hsent : (Client.Syncer.sentBatches sha256 env namespaceId s).flatten = chunks := by
      rw [Client.Syncer.sentBatches, h.query, if_neg Bool.false_ne_true, hrun]
      simp only [Client.Syncer.handedBatches_of_accepted h.uploads]
      exact (Client.UploadQueue.holds_empty.foldl chunks).flatten_batches
    rw [storedAfter, hsent, ← hnames, Bool.or_eq_true]
    simp

/-! ## 5. Two passes -/

/-- No row is pending, and every row that was is recorded by the server. -/
structure IsSettled (sha256 : Bytes → Text) (userId namespaceId : Int)
    (envs : List Client.Syncer.UploadEnv) (s s' : Client.ClientState) (journal : Server.Journal) :
    Prop where
  nothingPending : s'.registry.updatedLocally namespaceId = []
  recorded : ∀ f ∈ s.registry.updatedLocally namespaceId, ∃ jid,
    { f with jid := some jid } ∈ s'.registry.rows ∧
      ∃ env ∈ envs, IsRecorded sha256 userId env s journal f jid

/-- The second reading of a row that the first pass has left comes in pieces that the server had, or
that the first pass has read. -/
def RereadsKnown (sha256 : Bytes → Text) (stored : Text → Bool) (namespaceId : Int)
    (first second : Client.Syncer.UploadEnv) (s : Client.ClientState) : Prop :=
  let rows := (s.registry.updatedLocally namespaceId).zipIdx
  ∀ row ∈ (refused sha256 stored first s rows).zipIdx,
    ∀ id ∈ Client.Syncer.fileIds sha256 (second.reads row.2) s row.1, stored id = true ∨
      ∃ earlier ∈ rows, id ∈ Client.Syncer.fileIds sha256 (first.reads earlier.2) s earlier.1

theorem mem_lacking_or_stored {stored : Text → Bool} {env : Client.Syncer.UploadEnv}
    {s : Client.ClientState} {rows : List (Client.FileRecord × Nat)} (id : Text) :
    (stored id = true ∨ id ∈ lacking sha256 stored env s rows) ↔ stored id = true ∨
      ∃ row ∈ rows, id ∈ Client.Syncer.fileIds sha256 (env.reads row.2) s row.1 := by
  rw [lacking, List.mem_flatMap]
  by_cases h : stored id = true
  · simp [h]
  · simp [h]

variable (sha256) in
theorem mem_accepted_or_refused (stored : Text → Bool) (env : Client.Syncer.UploadEnv)
    (s : Client.ClientState) {fs : List Client.FileRecord} {f : Client.FileRecord} (hf : f ∈ fs) :
    f ∈ accepted sha256 stored env s fs.zipIdx ∨ f ∈ refused sha256 stored env s fs.zipIdx := by
  obtain ⟨i, hi⟩ := List.mem_iff_getElem?.mp hf
  have hrow : (f, i) ∈ fs.zipIdx := List.mem_zipIdx_iff_getElem?.mpr hi
  cases haccepted : isAccepted sha256 stored env s (f, i) with
  | true => exact .inl (List.mem_map_of_mem (List.mem_filter.mpr ⟨hrow, haccepted⟩))
  | false => exact .inr (List.mem_map_of_mem (List.mem_filter.mpr ⟨hrow, by rw [haccepted]; rfl⟩))

theorem mem_of_mem_refused {stored : Text → Bool} {env : Client.Syncer.UploadEnv}
    {s : Client.ClientState} {fs : List Client.FileRecord} {f : Client.FileRecord}
    (hf : f ∈ refused sha256 stored env s fs.zipIdx) : f ∈ fs := by
  obtain ⟨row, hrow, rfl⟩ := List.mem_map.mp hf
  exact List.fst_mem_of_mem_zipIdx (List.mem_filter.mp hrow).1

theorem PassEnds.readable {stored : Text → Bool} {namespaceId : Int}
    {env : Client.Syncer.UploadEnv} {s s' : Client.ClientState}
    {outcome : Outcome Client.SyncError Bool} {journal journal' : Server.Journal}
    (h : PassEnds sha256 userId stored namespaceId env s s' outcome journal journal')
    (hreadable : ∀ f ∈ s.registry.updatedLocally namespaceId, Client.Syncer.IsReadable s f) :
    ∀ f ∈ s'.registry.updatedLocally namespaceId, Client.Syncer.IsReadable s' f := by
  intro f hf
  rw [h.pending] at hf
  exact (Client.Syncer.isReadable_congr h.carries.disk h.carries.basePath f).mpr
    (hreadable f (mem_of_mem_refused hf))

theorem PassEnds.isSettled {stored : Text → Bool} {namespaceId : Int}
    {env : Client.Syncer.UploadEnv} {s s' : Client.ClientState} {b : Bool}
    {journal journal' : Server.Journal}
    (h : PassEnds sha256 userId stored namespaceId env s s' (.ok b) journal journal')
    (hb : b = true) : IsSettled sha256 userId namespaceId [env] s s' journal' := by
  have hall := Outcome.ok.inj h.outcome
  rw [hb] at hall
  have hrefused := refused_eq_nil_iff.mpr hall.symm
  refine ⟨h.pending.trans hrefused, fun f hf ↦ ?_⟩
  rcases mem_accepted_or_refused sha256 stored env s hf with haccepted | hmem
  · obtain ⟨jid, hrow, hrecorded⟩ := h.recorded f haccepted
    exact ⟨jid, hrow, env, List.mem_singleton_self env, hrecorded⟩
  · rw [hrefused] at hmem
    cases hmem

/-- Nothing goes wrong in two passes that are served, and a pass that accepts every row leaves none
pending.  The second pass accepts every row exactly when it reads no piece that is new. -/
theorem checkUploadOnce_twice_iff (hdigest : Client.IsHexDigest sha256) {stored : Text → Bool}
    {namespaceId : Int} {first second : Client.Syncer.UploadEnv} {s : Client.ClientState}
    {journal journal₁ journal₂ : Server.Journal} (hcache : s.chunker.EvictsNothing)
    (hreadable : ∀ f ∈ s.registry.updatedLocally namespaceId, Client.Syncer.IsReadable s f)
    (hfirst : IsServed sha256 userId stored namespaceId first s journal journal₁)
    (hsecond : IsServed sha256 userId (storedAfter sha256 stored namespaceId first s) namespaceId
      second (Client.Syncer.checkUploadOnce sha256 first namespaceId s).1 journal₁ journal₂) :
    let r₁ := Client.Syncer.checkUploadOnce sha256 first namespaceId s
    let r₂ := Client.Syncer.checkUploadOnce sha256 second namespaceId r₁.1
    (∃ b, r₁.2 = .ok b) ∧
      (r₁.2 = .ok true → IsSettled sha256 userId namespaceId [first] s r₁.1 journal₁) ∧
      (∃ b, r₂.2 = .ok b) ∧
      (r₂.2 = .ok true → IsSettled sha256 userId namespaceId [first, second] s r₂.1 journal₂) ∧
      (r₂.2 = .ok true ↔ RereadsKnown sha256 stored namespaceId first second s) := by
  intro r₁ r₂
  have h₁ := checkUploadOnce_served hdigest hfirst hcache hreadable
  change PassEnds sha256 userId stored namespaceId first s r₁.1 r₁.2 journal journal₁ at h₁
  have hdisk := h₁.carries.disk
  have hbase := h₁.carries.basePath
  have h₂ := checkUploadOnce_served hdigest hsecond h₁.carries.evictsNothing (h₁.readable hreadable)
  change PassEnds sha256 userId _ namespaceId second r₁.1 r₂.1 r₂.2 journal₁ journal₂ at h₂
  refine ⟨⟨_, h₁.outcome⟩, fun hok ↦ ?_, ⟨_, h₂.outcome⟩, fun hok ↦ ?_, ?_⟩
  · rw [hok] at h₁
    exact h₁.isSettled rfl
  · rw [hok] at h₂
    have hsettled := h₂.isSettled rfl
    refine ⟨hsettled.nothingPending, fun f hf ↦ ?_⟩
    rcases mem_accepted_or_refused sha256 stored first s hf with haccepted | hrefused
    · -- committed by the first pass, and kept by the second
      obtain ⟨jid, hrow, hrecorded⟩ := h₁.recorded f haccepted
      exact ⟨jid, h₂.kept _ hrow rfl, first, by simp, hrecorded.extends h₂.grown⟩
    · rw [← h₁.pending] at hrefused
      obtain ⟨jid, hrow, env, henv, r, hr, hid, huser, hpath, hdel, k, hids⟩ :=
        hsettled.recorded f hrefused
      refine ⟨jid, hrow, env, List.mem_cons_of_mem first henv, r, hr, hid, huser, hpath, hdel, k, ?_⟩
      rw [hids, Client.Syncer.sentIds, Client.Syncer.sentIds,
        Client.Syncer.fileIds_congr sha256 _ hdisk hbase]
  · rw [h₂.outcome, Outcome.ok.injEq, all_isAccepted_iff, h₁.pending, RereadsKnown]
    simp only [h₁.uploaded, mem_lacking_or_stored,
      Client.Syncer.fileIds_congr sha256 _ hdisk hbase]

/-- Text files, and files that are read in the same pieces again. -/
theorem rereadsKnown_of_sameReads {stored : Text → Bool} {namespaceId : Int}
    {first second : Client.Syncer.UploadEnv} {s : Client.ClientState}
    (hsame : ∀ f ∈ s.registry.updatedLocally namespaceId, ∀ i k,
      Client.Syncer.fileIds sha256 (second.reads i) s f =
        Client.Syncer.fileIds sha256 (first.reads k) s f) :
    RereadsKnown sha256 stored namespaceId first second s := by
  intro row hrow id hid
  have hf : row.1 ∈ s.registry.updatedLocally namespaceId :=
    mem_of_mem_refused (List.fst_mem_of_mem_zipIdx hrow)
  obtain ⟨k, hk⟩ := List.mem_iff_getElem?.mp hf
  rw [hsame row.1 hf row.2 k] at hid
  exact .inr ⟨(row.1, k), List.mem_zipIdx_iff_getElem?.mpr hk, hid⟩

end Passes

-- A pending photo of three bytes, which the passes read in blocks of up to `n` bytes.
def photoClient : Client.ClientState where
  registry := .insert .empty (fun id ↦ ⟨id, none, false, "a.png".toList, 3, ⟨0, 0⟩, 1⟩)
    (fun _ ↦ rfl)
  chunker := ⟨⟨fun _ ↦ none, 0, fun _ _ ↦ false⟩, parsePath "/s".toList⟩
  disk := (FileTree.root.put [115] [] .dir).put (toUtf8 "a.png".toList) [[115]]
    (.file ⟨[97, 10, 98], ⟨0, 0⟩⟩)

def photoEnv (stored : Text → Bool) (n : Nat) : Client.Syncer.UploadEnv where
  queryFails := false
  reads _ := ⟨fun _ ↦ n, none⟩
  commit _ f chunkIds :=
    match Server.commit (isStored stored) .empty 1 ⟨f.path, f.deleted, chunkIds⟩ with
    | .ok (status, _) => .ok (answerOf status)
    | _ => .panic
  registryFails _ := false
  uploadBatch _ := .ok ()

theorem isServed_photoEnv (stored : Text → Bool) (n : Nat) {s : Client.ClientState}
    {f : Client.FileRecord} (hpending : s.registry.updatedLocally 1 = [f])
    {status : Server.CommitResultStatus} {journal : Server.Journal}
    (hcommit : Server.commit (isStored stored) .empty 1 ⟨f.path, f.deleted,
      Client.Syncer.sentIds Client.Chunker.recipeDigest ⟨fun _ ↦ n, none⟩ s f⟩ =
        .ok (status, journal)) :
    IsServed Client.Chunker.recipeDigest 1 stored 1 (photoEnv stored n) s .empty journal where
  query := rfl
  registry _ := rfl
  reads _ := rfl
  uploads _ := rfl
  serves := by
    rw [hpending]
    refine ⟨status, journal, hcommit, ?_, rfl⟩
    simp only [photoEnv, hcommit]

theorem exists_isServed_photoEnv (stored : Text → Bool) (n : Nat) {s : Client.ClientState}
    {f : Client.FileRecord} (hpending : s.registry.updatedLocally 1 = [f]) : ∃ journal,
    IsServed Client.Chunker.recipeDigest 1 stored 1 (photoEnv stored n) s .empty journal := by
  have hanswer := @commit_sentIds Client.Chunker.recipeDigest 1
    Client.Chunker.isHexDigest_recipeDigest stored ⟨fun _ ↦ n, none⟩ s f .empty
  by_cases hall : (Client.Syncer.fileIds Client.Chunker.recipeDigest ⟨fun _ ↦ n, none⟩ s f).all
      stored = true
  · exact ⟨_, isServed_photoEnv stored n hpending (hanswer.trans (if_pos hall))⟩
  · exact ⟨_, isServed_photoEnv stored n hpending (hanswer.trans (if_neg hall))⟩

def nothingStored : Text → Bool := fun _ ↦ false

def photoStored : Text → Bool :=
  storedAfter Client.Chunker.recipeDigest nothingStored 1 (photoEnv nothingStored 3) photoClient

/-- The client after a pass that has read the photo in one piece. -/
def photoLeft : Client.ClientState :=
  (Client.Syncer.checkUploadOnce Client.Chunker.recipeDigest (photoEnv nothingStored 3) 1
    photoClient).1

def photoRow : Client.FileRecord := ⟨1, none, false, "a.png".toList, 3, ⟨0, 0⟩, 1⟩

theorem isServed_photoFirst : IsServed Client.Chunker.recipeDigest 1 nothingStored 1
    (photoEnv nothingStored 3) photoClient .empty .empty := by
  have hpending : photoClient.registry.updatedLocally 1 = [photoRow] := by decide
  exact isServed_photoEnv nothingStored 3 hpending
    (commit_sentIds Client.Chunker.isHexDigest_recipeDigest nothingStored ⟨fun _ ↦ 3, none⟩
      photoClient photoRow .empty)

/-- The second pass, which reads the photo in blocks of up to `n` bytes. -/
def photoAgain (n : Nat) : Client.ClientState × Outcome Client.SyncError Bool :=
  Client.Syncer.checkUploadOnce Client.Chunker.recipeDigest (photoEnv photoStored n) 1 photoLeft

theorem photoAgain_eq (n : Nat) : photoAgain n =
    Client.Syncer.checkUploadOnce Client.Chunker.recipeDigest (photoEnv photoStored n) 1
      (Client.Syncer.checkUploadOnce Client.Chunker.recipeDigest (photoEnv nothingStored 3) 1
        photoClient).1 := rfl

theorem readable_photoClient :
    ∀ f ∈ photoClient.registry.updatedLocally 1, Client.Syncer.IsReadable photoClient f := by
  unfold Client.Syncer.IsReadable
  decide +kernel

theorem passEnds_photoFirst : PassEnds Client.Chunker.recipeDigest 1 nothingStored 1
    (photoEnv nothingStored 3) photoClient
    (Client.Syncer.checkUploadOnce Client.Chunker.recipeDigest (photoEnv nothingStored 3) 1
      photoClient).1
    (Client.Syncer.checkUploadOnce Client.Chunker.recipeDigest (photoEnv nothingStored 3) 1
      photoClient).2 .empty .empty :=
  checkUploadOnce_served Client.Chunker.isHexDigest_recipeDigest isServed_photoFirst (fun _ _ ↦ rfl)
    readable_photoClient

theorem pending_photoFirst :
    (Client.Syncer.checkUploadOnce Client.Chunker.recipeDigest (photoEnv nothingStored 3) 1
      photoClient).1.registry.updatedLocally 1 = [photoRow] := by
  rw [passEnds_photoFirst.pending]
  decide +kernel

-- Both passes read the photo in one piece.
theorem checkUploadOnce_twice_photo :
    ∃ journal, (photoAgain 3).2 = .ok true ∧
      IsSettled Client.Chunker.recipeDigest 1 1 [photoEnv nothingStored 3, photoEnv photoStored 3]
        photoClient (photoAgain 3).1 journal := by
  obtain ⟨journal, hsecond⟩ := exists_isServed_photoEnv photoStored 3 pending_photoFirst
  have htwice := checkUploadOnce_twice_iff Client.Chunker.isHexDigest_recipeDigest
    (fun _ _ ↦ rfl) readable_photoClient isServed_photoFirst hsecond
  have hpass := htwice.2.2.2.2.mpr (rereadsKnown_of_sameReads fun _ _ _ _ ↦ rfl)
  rw [photoAgain_eq]
  exact ⟨journal, hpass, htwice.2.2.2.1 hpass⟩

-- The second pass reads it in two pieces, and is asked for them.
theorem checkUploadOnce_twice_fails :
    ¬ ∀ (sha256 : Bytes → Text) (userId namespaceId : Int) (stored : Text → Bool)
      (first second : Client.Syncer.UploadEnv) (s : Client.ClientState)
      (journal journal₁ journal₂ : Server.Journal),
      Client.IsHexDigest sha256 → s.chunker.EvictsNothing →
      (∀ f ∈ s.registry.updatedLocally namespaceId, Client.Syncer.IsReadable s f) →
      (∀ f ∈ s.registry.updatedLocally namespaceId, ∀ file,
        s.disk.readFile (s.chunker.fullPath f.path) = some file → ∀ i k,
          Client.Chunker.NoCollision sha256 (Client.Chunker.hashSize f.path)
            (Client.Chunker.pieces (first.reads i) f.path file.content ++
              Client.Chunker.pieces (second.reads k) f.path file.content)) →
      IsServed sha256 userId stored namespaceId first s journal journal₁ →
      IsServed sha256 userId (storedAfter sha256 stored namespaceId first s) namespaceId second
        (Client.Syncer.checkUploadOnce sha256 first namespaceId s).1 journal₁ journal₂ →
      (Client.Syncer.checkUploadOnce sha256 first namespaceId s).2 = .ok false →
      (Client.Syncer.checkUploadOnce sha256 second namespaceId
        (Client.Syncer.checkUploadOnce sha256 first namespaceId s).1).2 = .ok true := by
  intro h
  obtain ⟨journal, hsecond⟩ := exists_isServed_photoEnv photoStored 2 pending_photoFirst
  have hcollision : ∀ f ∈ photoClient.registry.updatedLocally 1, ∀ file,
      photoClient.disk.readFile (photoClient.chunker.fullPath f.path) = some file →
        Client.Chunker.NoCollision Client.Chunker.recipeDigest (Client.Chunker.hashSize f.path)
          (Client.Chunker.pieces ⟨fun _ ↦ 3, none⟩ f.path file.content ++
            Client.Chunker.pieces ⟨fun _ ↦ 2, none⟩ f.path file.content) := by
    have hpending : photoClient.registry.updatedLocally 1 = [photoRow] := by decide
    have hread : photoClient.disk.readFile (photoClient.chunker.fullPath photoRow.path) =
        some ⟨[97, 10, 98], ⟨0, 0⟩⟩ := by decide
    intro f hf file hfile
    rw [hpending] at hf
    rw [List.mem_singleton.mp hf, hread] at hfile
    rw [List.mem_singleton.mp hf, ← Option.some.inj hfile]
    unfold Client.Chunker.NoCollision Client.Chunker.hash Client.Chunker.recipeDigest
    rw [String.toList_ofList, String.toList_ofList, String.toList_ofList]
    decide +kernel
  have hfirst : (Client.Syncer.checkUploadOnce Client.Chunker.recipeDigest
      (photoEnv nothingStored 3) 1 photoClient).2 = .ok false := by
    rw [passEnds_photoFirst.outcome, Outcome.ok.injEq]
    decide +kernel
  have htwice := h Client.Chunker.recipeDigest 1 1 nothingStored (photoEnv nothingStored 3)
    (photoEnv photoStored 2) photoClient .empty .empty _ Client.Chunker.isHexDigest_recipeDigest
    (fun _ _ ↦ rfl) readable_photoClient (fun f hf file hfile _ _ ↦ hcollision f hf file hfile)
    isServed_photoFirst hsecond hfirst
  have hends := checkUploadOnce_served Client.Chunker.isHexDigest_recipeDigest hsecond
    passEnds_photoFirst.carries.evictsNothing (passEnds_photoFirst.readable readable_photoClient)
  have hall := Outcome.ok.inj (hends.outcome.symm.trans htwice)
  rw [pending_photoFirst, all_isAccepted_iff] at hall
  have hlacking : ¬ ∀ id ∈ Client.Syncer.fileIds Client.Chunker.recipeDigest ⟨fun _ ↦ 2, none⟩
      photoClient photoRow, photoStored id = true := by
    unfold photoStored Client.Chunker.recipeDigest
    rw [String.toList_ofList, String.toList_ofList, String.toList_ofList]
    decide +kernel
  apply hlacking
  rw [← Client.Syncer.fileIds_congr _ _ passEnds_photoFirst.carries.disk
    passEnds_photoFirst.carries.basePath]
  exact hall (photoRow, 0) (List.mem_singleton_self _)

end CooklangSync.System
