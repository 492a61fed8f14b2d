import CooklangSync.Client.Answers
import CooklangSync.Client.Cache
import CooklangSync.Theory.Subtree

/-!
# Fetch — the chunks a download pass needs, and the files it leaves

The chunks of a pass come from three sources: the cache, the old versions of the listed files, which
are hashed first, and the network.  When nothing is evicted, the loop that writes the files finds
them all.  What it has written for a record stays until the path of a later record leads to the same
file (`checkDownloadOnce_fetches`).
-/

namespace CooklangSync.Client

open Theory

namespace Chunker

/-! ## 1. Cached ids -/

/-- Nothing is evicted, and the ids that were cached are cached. -/
structure Grows (c c' : Chunker) : Prop where
  evictsNothing : c'.EvictsNothing
  cached : ∀ id, c.checkChunk id = true → c'.checkChunk id = true

theorem Grows.refl {c : Chunker} (h : c.EvictsNothing) : Grows c c := ⟨h, fun _ hid ↦ hid⟩

theorem Grows.trans {c₁ c₂ c₃ : Chunker} (h₁ : Grows c₁ c₂) (h₂ : Grows c₂ c₃) : Grows c₁ c₃ :=
  ⟨h₂.evictsNothing, fun id hid ↦ h₂.cached id (h₁.cached id hid)⟩

theorem checkChunk_saveChunk {c : Chunker} (h : c.EvictsNothing) (id : Text) (data : Bytes)
    (id' : Text) :
    (c.saveChunk id data).checkChunk id' = (decide (id' = id) || c.checkChunk id') := by
  have hentry := entries_saveChunk h id data id'
  rw [checkChunk, checkChunk, InMemoryCache.contains, InMemoryCache.contains, hentry]
  by_cases hnil : id' = []
  · simp [hnil]
  · rw [if_neg hnil, if_neg hnil]
    by_cases hid : id' = id
    · simp [hid]
    · simp [hid]

theorem grows_saveChunk {c : Chunker} (h : c.EvictsNothing) (id : Text) (data : Bytes) :
    Grows c (c.saveChunk id data) where
  evictsNothing := h.saveChunk id data
  cached id' hid := by
    rw [checkChunk_saveChunk h, hid, Bool.or_true]

section Hashing

variable (sha256 : Bytes → Text)

theorem grows_saveChunks {c : Chunker} (h : c.EvictsNothing) (size : Nat) (chunks : List Bytes) :
    Grows c (c.saveChunks sha256 size chunks) := by
  induction chunks generalizing c with
  | nil => exact .refl h
  | cons data rest ih => exact (grows_saveChunk h _ data).trans (ih (h.saveChunk _ data))

theorem grows_hashifyChunks {c : Chunker} (h : c.EvictsNothing) (env : ReadEnv) (path : Text)
    (size : Nat) (chunks : List Bytes) :
    Grows c (c.hashifyChunks sha256 env path size chunks).1 := by
  rw [hashifyChunks]
  split
  · exact grows_saveChunks sha256 h size _
  · exact grows_saveChunks sha256 h size chunks

theorem grows_hashify {c : Chunker} (h : c.EvictsNothing) (disk : Disk) (env : ReadEnv)
    (path : Text) : Grows c (c.hashify sha256 disk env path).1 := by
  rw [hashify]
  split
  · rw [hashifyText]
    split
    · exact .refl h
    · exact grows_hashifyChunks sha256 h env path _ _
  · split
    · rw [hashifyBinary]
      split
      · exact .refl h
      · exact grows_hashifyChunks sha256 h env path _ _
    · exact .refl h

end Hashing

/-- A save whose chunks are all cached lacks none. -/
theorem save_ne_getFromCacheError {c : Chunker} {hashes : List Text}
    (h : ∀ hash ∈ hashes, c.checkChunk hash = true) (disk : Disk) (env : SaveEnv) (path : Text) :
    (c.save disk env path hashes).1 ≠ .err .getFromCacheError := by
  have hwrite : ∀ i, (c.writeChunks env path i hashes).2 ≠ .err .getFromCacheError := by
    induction hashes with
    | nil =>
      intro i
      rw [writeChunks]
      split <;> simp
    | cons hash hashes ih =>
      intro i
      have hrest := ih (fun id hid ↦ h id (List.mem_cons_of_mem hash hid)) (i + 1)
      rw [writeChunks, get_of_checkChunk (h hash List.mem_cons_self)]
      dsimp only
      split
      · simp
      · exact hrest
  rw [save]
  split
  · simp
  · have hlast := hwrite 0
    split
    · simp
    · rename_i outcome _ heq
      rw [heq] at hlast
      exact hlast

end Chunker

namespace Syncer

open Chunker

/-! ## 2. What is fetched -/

section Fetch

variable {sha256 : Bytes → Text} {disk : Disk}

theorem grows_warmUp (env : Nat → ReadEnv) (i : Nat) {c : Chunker} (h : c.EvictsNothing)
    (d : ResponseFileRecord) : Grows c (warmUp sha256 env disk i c d) := by
  rw [warmUp]
  split
  · exact grows_hashify sha256 h disk (env i) d.path
  · exact .refl h

theorem grows_warmedBy (env : Nat → ReadEnv) (i : Nat) {c : Chunker} (h : c.EvictsNothing)
    (ds : List ResponseFileRecord) : Grows c (warmedBy sha256 env disk i c ds) := by
  induction ds generalizing i c with
  | nil => exact .refl h
  | cons d ds ih =>
    have hwarm : Grows c (warmUp sha256 env disk i c d) := grows_warmUp env i h d
    exact hwarm.trans (ih (i + 1) hwarm.evictsNothing)

/-- An id of a live record is cached when all files are hashed, or is among those asked for. -/
theorem checkChunk_warmedBy_or_lacked {env : Nat → ReadEnv} {i : Nat} {c : Chunker}
    (h : c.EvictsNothing) {ds : List ResponseFileRecord} {d : ResponseFileRecord} (hd : d ∈ ds)
    (hlive : d.deleted = false) {id : Text} (hid : id ∈ chunksOf d) :
    (warmedBy sha256 env disk i c ds).checkChunk id = true ∨
      id ∈ lackedIds sha256 env disk i c ds := by
  induction ds generalizing i c with
  | nil => cases hd
  | cons e ds ih =>
    have hwarm : Grows c (warmUp sha256 env disk i c e) := grows_warmUp env i h e
    rw [warmedBy, lackedIds, List.mem_append]
    rcases List.mem_cons.mp hd with rfl | hmem
    · by_cases hcached : (warmUp sha256 env disk i c d).checkChunk id = true
      · exact .inl ((grows_warmedBy env (i + 1) hwarm.evictsNothing ds).cached id hcached)
      · refine .inr (.inl ?_)
        rw [hlive, if_neg Bool.false_ne_true]
        exact List.mem_filter.mpr ⟨hid, by simpa using hcached⟩
    · exact (ih hwarm.evictsNothing hmem).imp_right .inr

theorem checkChunk_saveDownloaded {c : Chunker} (h : c.EvictsNothing) {chunks : List Chunk}
    {id : Text} (hid : c.checkChunk id = true ∨ ∃ data, (id, data) ∈ chunks) :
    (saveDownloaded c chunks).checkChunk id = true := by
  induction chunks generalizing c with
  | nil =>
    rcases hid with hid | ⟨data, hdata⟩
    · exact hid
    · cases hdata
  | cons chunk rest ih =>
    obtain ⟨first, bytes⟩ := chunk
    rw [saveDownloaded]
    apply ih (h.saveChunk first bytes)
    rw [checkChunk_saveChunk h]
    rcases hid with hid | ⟨data, hdata⟩
    · exact .inl (by rw [hid, Bool.or_true])
    · rcases List.mem_cons.mp hdata with heq | hmem
      · exact .inl (by simp [(Prod.mk.inj heq).1])
      · exact .inr ⟨data, hmem⟩

/-- The batch comes to its end, with every id that was asked for, and every chunk is as the store
has it. -/
structure Delivers (store : Text → Option Bytes) (response : BatchResponse) (ids : List Text) :
    Prop where
  ends : (downloadBatch response).2 = .ok ()
  asked : ∀ id ∈ ids, ∃ data, (id, data) ∈ (downloadBatch response).1
  stored : ∀ chunk ∈ (downloadBatch response).1, store chunk.1 = some chunk.2

/-- When all files can be hashed and the batch delivers, the chunks are fetched, and those of every
live record are cached. -/
theorem fetchChunks_cached {store : Text → Option Bytes} {env : DownloadEnv} {c : Chunker}
    {ds : List ResponseFileRecord} (h : c.EvictsNothing)
    (hall : AllHashed sha256 env.reads disk 0 c ds)
    (hbatch : lackedIds sha256 env.reads disk 0 c ds ≠ [] →
      Delivers store (env.batch (lackedIds sha256 env.reads disk 0 c ds))
        (lackedIds sha256 env.reads disk 0 c ds)) :
    ∃ c', fetchChunks sha256 env c disk ds = (c', .ok ()) ∧
      ∀ d ∈ ds, d.deleted = false → ∀ id ∈ chunksOf d, c'.checkChunk id = true := by
  have hevicts : (warmedBy sha256 env.reads disk 0 c ds).EvictsNothing :=
    (grows_warmedBy env.reads 0 h ds).evictsNothing
  have hor : ∀ d ∈ ds, d.deleted = false → ∀ id ∈ chunksOf d,
      (warmedBy sha256 env.reads disk 0 c ds).checkChunk id = true ∨
        id ∈ lackedIds sha256 env.reads disk 0 c ds :=
    fun d hd hlive id hid ↦ checkChunk_warmedBy_or_lacked h hd hlive hid
  rw [fetchChunks, collectChunks_eq hall]
  cases hlacked : lackedIds sha256 env.reads disk 0 c ds with
  | nil =>
    -- nothing was lacking, so the ids are cached by now
    rw [hlacked] at hor
    exact ⟨_, rfl, fun d hd hlive id hid ↦ (hor d hd hlive id hid).resolve_right List.not_mem_nil⟩
  | cons first ids =>
    rw [hlacked] at hor hbatch
    have hdelivers := hbatch (List.cons_ne_nil first ids)
    refine ⟨_, Prod.ext rfl hdelivers.ends, fun d hd hlive id hid ↦ ?_⟩
    exact checkChunk_saveDownloaded hevicts ((hor d hd hlive id hid).imp_right (hdelivers.asked id))

end Fetch

/-! ## 3. The file of a record, and what the records after it leave alone -/

/-- The file that the path of a record leads to at its turn: the one that is opened or, for a
deleted record, the one that is removed. -/
def target (env : RecordEnv) (s : ClientState) (d : ResponseFileRecord) : Option (Place Name) :=
  if d.deleted then
    match s.disk.resolve false (s.chunker.fullPath d.path) with
    | .found k => some k
    | _ => none
  else (s.chunker.openForSave s.disk env.save d.path).2.map fun place ↦ place.1 :: place.2

/-- At its turn, no record of the rest of the loop has its file at the place. -/
def NoneTargets (env : Nat → RecordEnv) (namespaceId : Int) (k : Place Name) :
    Nat → ClientState → List ResponseFileRecord → Prop
  | _, _, [] => True
  | i, s, d :: ds =>
    target (env i) s d ≠ some k ∧
      ∀ s', applyRecord (env i) namespaceId s d = (s', .ok ()) →
        NoneTargets env namespaceId k (i + 1) s' ds

theorem fileAt_put_of_ne (disk : Disk) {n : Name} {k s : Place Name} (node : Node Name FileData)
    (h : s ≠ n :: k) : (disk.put n k node).fileAt s = disk.fileAt s := by
  rw [FileTree.fileAt, disk.lookup_put_of_ne n k node h]
  rfl

theorem fileAt_save (c : Chunker) (disk : Disk) (env : SaveEnv) (path : Text) (hashes : List Text)
    {k : Place Name}
    (h : (c.openForSave disk env path).2.map (fun place ↦ place.1 :: place.2) ≠ some k) :
    (c.save disk env path hashes).2.fileAt k = disk.fileAt k := by
  have hadded := c.openForSave_dirsAdded disk env path
  cases hopen : c.openForSave disk env path with
  | mk made place =>
    rw [hopen] at hadded h
    cases place with
    | none =>
      rw [save_of_not_opened hopen]
      exact hadded.fileAt k
    | some place =>
      obtain ⟨n, dir⟩ := place
      have hne : k ≠ n :: dir := fun heq ↦ h (congrArg some heq.symm)
      -- whole or cut short, only the file that was opened is written
      by_cases hall : c.Completes env 0 hashes
      · rw [save_of_completes hopen hall]
        exact (fileAt_put_of_ne made _ hne).trans (hadded.fileAt k)
      · obtain ⟨e, hsave⟩ := save_of_interrupted hopen hall
        rw [hsave]
        exact (fileAt_put_of_ne made _ hne).trans (hadded.fileAt k)

theorem fileAt_removeEmptyDirs (c : Chunker) (env : DeleteEnv) (absolute : Bool) (i : Nat)
    (disk : Disk) (comps : List (Comp Name)) (k : Place Name) :
    (c.removeEmptyDirs env absolute i disk comps).fileAt k = disk.fileAt k := by
  induction comps generalizing i disk with
  | nil => rfl
  | cons comp comps ih =>
    rw [removeEmptyDirs]
    split
    · rfl
    · split
      · rfl
      · split
        · rfl
        · rename_i hremoved
          rw [ih, FileTree.fileAt_removeDir hremoved]

theorem fileAt_delete (c : Chunker) (disk : Disk) (env : DeleteEnv) (path : Text) {k : Place Name}
    (h : disk.resolve false (c.fullPath path) ≠ .found k) :
    (c.delete disk env path).2.fileAt k = disk.fileAt k := by
  rw [delete]
  split
  · rfl
  · rename_i hremoved
    split at hremoved
    · cases hremoved
    · -- the directories that go with the file are no files
      rw [fileAt_removeEmptyDirs, FileTree.fileAt_removeFile hremoved h]

/-- A record changes no file but its own, and not the chunker. -/
theorem applyRecord_frame (env : RecordEnv) (namespaceId : Int) (s : ClientState)
    (d : ResponseFileRecord) : (applyRecord env namespaceId s d).1.chunker = s.chunker ∧
      ∀ k, target env s d ≠ some k →
        (applyRecord env namespaceId s d).1.disk.fileAt k = s.disk.fileAt k := by
  rw [applyRecord]
  by_cases hdel : d.deleted = true
  · rw [if_pos hdel]
    split
    · exact ⟨rfl, fun _ _ ↦ rfl⟩
    · dsimp only
      split
      · refine ⟨rfl, fun k hk ↦ ?_⟩
        apply fileAt_delete
        intro hfound
        rw [target, if_pos hdel, hfound] at hk
        exact hk rfl
      · exact ⟨rfl, fun _ _ ↦ rfl⟩
  · rw [if_neg hdel]
    have hsaved : ∀ k, target env s d ≠ some k →
        (s.chunker.save s.disk env.save d.path (chunksOf d)).2.fileAt k = s.disk.fileAt k := by
      intro k hk
      rw [target, if_neg hdel] at hk
      exact fileAt_save _ _ _ _ _ hk
    cases hsave : s.chunker.save s.disk env.save d.path (chunksOf d) with
    | mk outcome disk =>
      rw [hsave] at hsaved
      cases outcome with
      | err e => exact ⟨rfl, hsaved⟩
      | panic => exact ⟨rfl, hsaved⟩
      | ok u =>
        dsimp only
        split
        · split
          · exact ⟨rfl, hsaved⟩
          · exact ⟨rfl, hsaved⟩
        · exact ⟨rfl, hsaved⟩
        · exact ⟨rfl, hsaved⟩

theorem chunker_applyRecords (env : Nat → RecordEnv) (namespaceId : Int) (i : Nat)
    (s : ClientState) (ds : List ResponseFileRecord) :
    (applyRecords env namespaceId i s ds).1.chunker = s.chunker := by
  induction ds generalizing i s with
  | nil => rfl
  | cons d ds ih =>
    have hstep := (applyRecord_frame (env i) namespaceId s d).1
    rw [applyRecords]
    cases happly : applyRecord (env i) namespaceId s d with
    | mk s' outcome =>
      rw [happly] at hstep
      cases outcome with
      | ok u => exact (ih (i + 1) s').trans hstep
      | err e => exact hstep
      | panic => exact hstep

/-- A file stays as it is while no record has it for its own. -/
theorem fileAt_applyRecords {env : Nat → RecordEnv} {namespaceId : Int} {k : Place Name} {i : Nat}
    {s : ClientState} {ds : List ResponseFileRecord} (h : NoneTargets env namespaceId k i s ds) :
    (applyRecords env namespaceId i s ds).1.disk.fileAt k = s.disk.fileAt k := by
  induction ds generalizing i s with
  | nil => rfl
  | cons d ds ih =>
    have hstep := (applyRecord_frame (env i) namespaceId s d).2 k h.1
    have hrest := h.2
    rw [applyRecords]
    cases happly : applyRecord (env i) namespaceId s d with
    | mk s' outcome =>
      rw [happly] at hstep hrest
      cases outcome with
      | ok u => exact (ih (hrest s' rfl)).trans hstep
      | err e => exact hstep
      | panic => exact hstep

theorem applyRecords_append {env : Nat → RecordEnv} {namespaceId : Int} {i : Nat}
    {s s₁ : ClientState} {before : List ResponseFileRecord}
    (h : applyRecords env namespaceId i s before = (s₁, .ok ())) (after : List ResponseFileRecord) :
    applyRecords env namespaceId i s (before ++ after) =
      applyRecords env namespaceId (i + before.length) s₁ after := by
  induction before generalizing i s with
  | nil =>
    cases h
    rfl
  | cons d before ih =>
    rw [applyRecords] at h
    rw [List.cons_append, applyRecords]
    cases happly : applyRecord (env i) namespaceId s d with
    | mk s' outcome =>
      rw [happly] at h
      cases outcome with
      | ok u =>
        have hindex : i + (d :: before).length = i + 1 + before.length := by
          rw [List.length_cons]
          omega
        rw [hindex]
        exact ih h
      | err e => cases h
      | panic => cases h

/-! ## 4. The files a pass leaves -/

/-- A save that succeeds has opened a file, and the path reads the chunks from it. -/
theorem exists_of_save_ok {c : Chunker} {disk disk' : Disk} {env : SaveEnv} {path : Text}
    {hashes : List Text} (h : c.save disk env path hashes = (.ok (), disk')) :
    ∃ place content, (c.openForSave disk env path).2 = some place ∧
      c.cachedContent hashes = some content ∧
      (disk'.readFile (c.fullPath path)).map FileData.content = some content ∧
      contentAt disk' (place.1 :: place.2) = some content := by
  cases hopen : c.openForSave disk env path with
  | mk made place =>
    cases place with
    | none =>
      rw [save_of_not_opened hopen] at h
      cases h
    | some place =>
      obtain ⟨n, k⟩ := place
      have hcreatable := (openForSave_some hopen).2
      by_cases hall : c.Completes env 0 hashes
      · rw [save_of_completes hopen hall, Prod.mk.injEq] at h
        rw [← h.2]
        refine ⟨(n, k), _, rfl, handedOver_of_completes hall, ?_, ?_⟩
        · rw [FileTree.readFile_put hcreatable]
          rfl
        · rw [contentAt, FileTree.fileAt, made.lookup_put_self _
            (FileTree.creatable_spec hcreatable).2.1 (FileTree.creatable_not_dir hcreatable)]
          rfl
      · obtain ⟨e, hsave⟩ := save_of_interrupted hopen hall
        rw [hsave] at h
        cases h

theorem disk_applyRecord_live {d : ResponseFileRecord} (hlive : d.deleted = false)
    (env : RecordEnv) (namespaceId : Int) (s : ClientState) :
    (applyRecord env namespaceId s d).1.disk =
      (s.chunker.save s.disk env.save d.path (chunksOf d)).2 := by
  cases hsave : s.chunker.save s.disk env.save d.path (chunksOf d) with
  | mk outcome disk =>
    rcases applyRecord_of_live hlive env namespaceId s hsave with
      ⟨-, form, -, -, -, hdone⟩ | ⟨failure, -, hfailed⟩
    · rw [hdone]
    · rw [hfailed]

/-- A pass whose chunks are fetched ends with the state of its loop. -/
theorem checkDownloadOnce_state {sha256 : Bytes → Text} {env : DownloadEnv}
    {list : Int → Outcome SyncError (List ResponseFileRecord)} {namespaceId : Int}
    {s : ClientState} {ds : List ResponseFileRecord} {c : Chunker}
    (hlist : list (latestLocal env s namespaceId) = .ok ds)
    (hfetch : fetchChunks sha256 env s.chunker s.disk ds = (c, .ok ())) :
    (checkDownloadOnce sha256 env list namespaceId s).1 =
      (applyRecords env.records namespaceId 0 { s with chunker := c } ds).1 := by
  rw [checkDownloadOnce, hlist]
  dsimp only
  rw [hfetch]
  dsimp only
  cases applyRecords env.records namespaceId 0 { s with chunker := c } ds with
  | mk s' outcome => cases outcome <;> rfl

/-- A pass that gets its chunks fetches all that its saves need.  A save that succeeds leaves the
stored bytes under the path of its record, and the file keeps them to the end of the pass unless
the path of a later record leads to it. -/
theorem checkDownloadOnce_fetches {sha256 : Bytes → Text} {store : Text → Option Bytes}
    {env : DownloadEnv} {list : Int → Outcome SyncError (List ResponseFileRecord)}
    {namespaceId : Int} {s : ClientState} {ds : List ResponseFileRecord}
    (hlist : list (latestLocal env s namespaceId) = .ok ds)
    (hagrees : s.chunker.AgreesWith store) (hevicts : s.chunker.EvictsNothing)
    (hfiles : FilesTellApart sha256 store s.chunker s.disk ds)
    (hall : AllHashed sha256 env.reads s.disk 0 s.chunker ds)
    (hbatch : ∀ ids, requestedIds sha256 env list namespaceId s = some ids →
      Delivers store (env.batch ids) ids) :
    ∃ c, fetchChunks sha256 env s.chunker s.disk ds = (c, .ok ()) ∧
      ∀ before d after s₁, ds = before ++ d :: after → d.deleted = false →
        applyRecords env.records namespaceId 0 { s with chunker := c } before = (s₁, .ok ()) →
        let turn := env.records before.length
        let saved := s₁.chunker.save s₁.disk turn.save d.path (chunksOf d)
        saved.1 ≠ .err .getFromCacheError ∧
          (saved.1 = .ok () → (∀ id ∈ chunksOf d, id ≠ [] → (store id).isSome) →
            (saved.2.readFile (s₁.chunker.fullPath d.path)).map FileData.content =
              some (contentOf store d.chunkIds) ∧
            ∃ k, target turn s₁ d = some k ∧
              ((∀ s₂, applyRecord turn namespaceId s₁ d = (s₂, .ok ()) →
                NoneTargets env.records namespaceId k (before.length + 1) s₂ after) →
              contentAt (checkDownloadOnce sha256 env list namespaceId s).1.disk k =
                some (contentOf store d.chunkIds))) := by
  obtain ⟨c, hfetch, hcached⟩ := fetchChunks_cached hevicts hall fun hne ↦
    hbatch _ ((requestedIds_eq_some_iff hlist).mpr ⟨hall, rfl, hne⟩)
  have hstore : c.AgreesWith store := by
    have hkeeps : (fetchChunks sha256 env s.chunker s.disk ds).1.AgreesWith store := by
      apply agreesWith_fetchChunks hagrees hfiles
      intro ids hids hne
      rw [collectChunks_eq hall] at hids
      have hrequested := (requestedIds_eq_some_iff hlist).mpr ⟨hall, Outcome.ok.inj hids, hne⟩
      exact (hbatch ids hrequested).stored
    rw [hfetch] at hkeeps
    exact hkeeps
  refine ⟨c, hfetch, ?_⟩
  intro before d after s₁ hds hlive hturn
  have hchunker : s₁.chunker = c := by
    have hkept := chunker_applyRecords env.records namespaceId 0 { s with chunker := c } before
    rw [hturn] at hkept
    exact hkept
  have hd : d ∈ ds := by
    rw [hds]
    exact List.mem_append_right _ List.mem_cons_self
  dsimp only
  rw [hchunker]
  refine ⟨save_ne_getFromCacheError (hcached d hd hlive) _ _ _, fun hok hids ↦ ?_⟩
  obtain ⟨place, content, hplace, hcontent, hread, hthere⟩ := exists_of_save_ok (Prod.ext hok rfl)
  rw [hstore.cachedContent hids hcontent] at hread hthere
  refine ⟨hread, place.1 :: place.2, ?_, fun hnone ↦ ?_⟩
  · rw [target, hlive, if_neg Bool.false_ne_true, hchunker, hplace]
    rfl
  · -- the loop up to the record, the record, and the loop after it
    have hsaved := disk_applyRecord_live hlive (env.records before.length) namespaceId s₁
    rw [hchunker] at hsaved
    rw [checkDownloadOnce_state hlist hfetch, hds, applyRecords_append hturn, Nat.zero_add,
      applyRecords]
    cases happly : applyRecord (env.records before.length) namespaceId s₁ d with
    | mk s₂ outcome =>
      rw [happly] at hsaved hnone
      have hend : contentAt s₂.disk (place.1 :: place.2) = some (contentOf store d.chunkIds) := by
        rw [show s₂.disk = _ from hsaved]
        exact hthere
      cases outcome with
      | err e => exact hend
      | panic => exact hend
      | ok u =>
        dsimp only
        rw [contentAt, fileAt_applyRecords (hnone s₂ rfl)]
        exact hend

-- An example: the paths of two records lead to one file in the storage directory `/s`.
def twoChunks (id : Text) : Option Bytes :=
  if id = ['x'] then some [120] else if id = ['y'] then some [121] else none

def bothCached : ClientState where
  registry := Table.empty
  chunker := ⟨⟨twoChunks, 0, fun _ _ ↦ false⟩, parsePath "/s".toList⟩
  disk := FileTree.root.put [115] [] .dir

def firstSpelling : ResponseFileRecord := ⟨1, "a.cook".toList, false, ['x']⟩

def secondSpelling : ResponseFileRecord := ⟨2, "./a.cook".toList, false, ['y']⟩

def bothSpellings (_ : Int) : Outcome SyncError (List ResponseFileRecord) :=
  .ok [firstSpelling, secondSpelling]

def spelledTwice : ClientState × Outcome SyncError Bool :=
  checkDownloadOnce (fun _ ↦ []) (deletionEnv false) bothSpellings 1 bothCached

theorem agreesWith_bothCached : bothCached.chunker.AgreesWith twoChunks :=
  fun _ _ _ hentry hstored ↦ Option.some.inj (hentry.symm.trans hstored)

theorem filesTellApart_bothCached : FilesTellApart (fun _ ↦ []) twoChunks bothCached.chunker
    bothCached.disk [firstSpelling, secondSpelling] := by
  have hnone : ∀ d ∈ [firstSpelling, secondSpelling],
      bothCached.disk.readFile (bothCached.chunker.fullPath d.path) = none := by decide
  intro d hd _ file hfile
  rw [hnone d hd] at hfile
  cases hfile

theorem allHashed_bothCached : AllHashed (fun _ ↦ []) (deletionEnv false).reads bothCached.disk 0
    bothCached.chunker [firstSpelling, secondSpelling] := by
  apply @allHashed_of_collectChunks _ _ _ _ _ _ []
  decide

theorem requestedIds_bothCached :
    requestedIds (fun _ ↦ []) (deletionEnv false) bothSpellings 1 bothCached = none := by decide

-- Two recipes that share chunks: `x` is cached, `y` is found in the old version of the first recipe,
-- and `z` is asked for.
def threeChunks (id : Text) : Option Bytes :=
  if id = ['z'] then some [122] else twoChunks id

def digestY (data : Bytes) : Text := if data = [121] then ['y'] else ['?']

def oneCached : ClientState where
  registry := Table.empty
  chunker := ⟨⟨fun id ↦ if id = ['x'] then some [120] else none, 0, fun _ _ ↦ false⟩,
    parsePath "/s".toList⟩
  disk := (FileTree.root.put [115] [] .dir).put (toUtf8 "a.cook".toList) [[115]]
    (.file ⟨[121], ⟨0, 0⟩⟩)

def sharingFirst : ResponseFileRecord := ⟨1, "a.cook".toList, false, "x,z".toList⟩

def sharingSecond : ResponseFileRecord := ⟨2, "b.cook".toList, false, "y,z,x".toList⟩

def bothSharing (_ : Int) : Outcome SyncError (List ResponseFileRecord) :=
  .ok [sharingFirst, sharingSecond]

def deliversZ : DownloadEnv where
  latestJidFails := false
  reads := (deletionEnv false).reads
  batch := fun _ ↦ ⟨200, some "multipart/mixed; boundary=B".toList,
    [.ok (toUtf8 "--B\r\nX-Chunk-ID: z\r\n\r\nz\r\n--B--\r\n".toList)]⟩
  records := (deletionEnv false).records

def sharingPass : ClientState × Outcome SyncError Bool :=
  checkDownloadOnce digestY deliversZ bothSharing 1 oneCached

theorem filesTellApart_oneCached : FilesTellApart digestY threeChunks oneCached.chunker
    oneCached.disk [sharingFirst, sharingSecond] := by
  intro d hd _ file hfile
  simp only [List.mem_cons, List.not_mem_nil, or_false] at hd
  rcases hd with rfl | rfl
  · have hread : oneCached.disk.readFile (oneCached.chunker.fullPath sharingFirst.path) =
        some ⟨[121], ⟨0, 0⟩⟩ := by decide
    obtain rfl := Option.some.inj (hread.symm.trans hfile)
    intro env data hdata stored hstored
    have hpieces : pieces env sharingFirst.path [121] = [[121]] := rfl
    rw [hpieces, List.mem_singleton] at hdata
    rw [hdata] at hstored ⊢
    have hy : threeChunks (hash digestY [121] (hashSize sharingFirst.path)) = some [121] := by decide
    exact Option.some.inj (hy.symm.trans hstored)
  · have hnone : oneCached.disk.readFile (oneCached.chunker.fullPath sharingSecond.path) = none := by
      decide
    rw [hnone] at hfile
    cases hfile

theorem requestedIds_oneCached :
    requestedIds digestY deliversZ bothSharing 1 oneCached = some [['z'], ['z']] := by
  decide +kernel

theorem delivers_deliversZ (ids : List Text) :
    Delivers threeChunks (deliversZ.batch ids) [['z'], ['z']] := by
  have hchunks : downloadBatch (deliversZ.batch ids) = ([(['z'], [122])], .ok ()) := by
    show downloadBatch (deliversZ.batch []) = _
    decide +kernel
  refine ⟨by rw [hchunks], fun id hid ↦ ⟨[122], ?_⟩, fun chunk hchunk ↦ ?_⟩
  · rw [hchunks]
    simp only [List.mem_cons, List.not_mem_nil, or_false, or_self] at hid
    rw [hid]
    exact List.mem_singleton_self _
  · rw [hchunks] at hchunk
    rw [List.mem_singleton.mp hchunk]
    decide

/-- The state once the chunks are fetched. -/
def sharingFetched : ClientState :=
  { oneCached with
    chunker := (fetchChunks digestY deliversZ oneCached.chunker oneCached.disk
      [sharingFirst, sharingSecond]).1 }

def sharingHalf : ClientState :=
  (applyRecord (deliversZ.records 0) 1 sharingFetched sharingFirst).1

theorem checkDownloadOnce_fetches_shared :
    contentAt sharingPass.1.disk [toUtf8 "a.cook".toList, [115]] = some [120, 122] ∧
      contentAt sharingPass.1.disk [toUtf8 "b.cook".toList, [115]] = some [121, 122, 120] := by
  have hcached : oneCached.chunker.AgreesWith threeChunks := by
    intro id data stored hentry hstored
    by_cases hx : id = ['x']
    · subst hx
      exact Option.some.inj (hentry.symm.trans hstored)
    · rw [show oneCached.chunker.cache.entries id = none from if_neg hx] at hentry
      cases hentry
  have hall : AllHashed digestY deliversZ.reads oneCached.disk 0 oneCached.chunker
      [sharingFirst, sharingSecond] :=
    @allHashed_of_collectChunks _ _ _ _ _ _ [['z'], ['z']] (by decide +kernel)
  obtain ⟨c, hfetch, hturns⟩ := checkDownloadOnce_fetches (rfl : bothSharing
    (latestLocal deliversZ oneCached 1) = .ok _) hcached (fun _ _ ↦ rfl) filesTellApart_oneCached
    hall (by
      intro ids hids
      rw [requestedIds_oneCached, Option.some.injEq] at hids
      rw [← hids]
      exact delivers_deliversZ _)
  obtain rfl : sharingFetched.chunker = c := congrArg Prod.fst hfetch
  have hfirst := hturns [] sharingFirst [sharingSecond] sharingFetched rfl rfl rfl
  have hhalf : applyRecord (deliversZ.records 0) 1 sharingFetched sharingFirst =
      (sharingHalf, .ok ()) := Prod.ext rfl (by decide +kernel)
  have hloop : applyRecords deliversZ.records 1 0 sharingFetched [sharingFirst] =
      (sharingHalf, .ok ()) := by
    rw [applyRecords, hhalf]
    rfl
  have hsecond := hturns [sharingFirst] sharingSecond [] sharingHalf rfl rfl hloop
  have hstored : ∀ d ∈ [sharingFirst, sharingSecond], ∀ id ∈ chunksOf d, id ≠ [] →
      (threeChunks id).isSome := by decide
  obtain ⟨-, k, hk, hend⟩ := hfirst.2 (by decide +kernel) (hstored _ (by simp))
  obtain ⟨-, l, hl, hlast⟩ := hsecond.2 (by decide +kernel) (hstored _ (by simp))
  have hplace : target (deliversZ.records 0) sharingFetched sharingFirst =
      some [toUtf8 "a.cook".toList, [115]] := by decide +kernel
  have hplace' : target (deliversZ.records 1) sharingHalf sharingSecond =
      some [toUtf8 "b.cook".toList, [115]] := by decide +kernel
  obtain rfl := Option.some.inj (hk.symm.trans hplace)
  obtain rfl := Option.some.inj (hl.symm.trans hplace')
  refine ⟨(hend fun s₂ hs₂ ↦ ⟨?_, fun _ _ ↦ trivial⟩).trans (by decide),
    (hlast fun _ _ ↦ trivial).trans (by decide)⟩
  obtain rfl : sharingHalf = s₂ := congrArg Prod.fst hs₂
  show target (deliversZ.records 1) sharingHalf sharingSecond ≠ _
  rw [hplace']
  decide

-- The second record is written over the first.
theorem checkDownloadOnce_overwrites :
    ¬ ∀ (sha256 : Bytes → Text) (store : Text → Option Bytes) (env : DownloadEnv)
      (list : Int → Outcome SyncError (List ResponseFileRecord)) (namespaceId : Int)
      (s : ClientState) (ds : List ResponseFileRecord) (changed : Bool),
      list (latestLocal env s namespaceId) = .ok ds → s.chunker.AgreesWith store →
      s.chunker.EvictsNothing → FilesTellApart sha256 store s.chunker s.disk ds →
      AllHashed sha256 env.reads s.disk 0 s.chunker ds →
      (∀ ids, requestedIds sha256 env list namespaceId s = some ids →
        Delivers store (env.batch ids) ids) →
      (checkDownloadOnce sha256 env list namespaceId s).2 = .ok changed →
      ∀ d ∈ ds, d.deleted = false →
        ((checkDownloadOnce sha256 env list namespaceId s).1.disk.readFile
          (s.chunker.fullPath d.path)).map FileData.content = some (contentOf store d.chunkIds) := by
  intro h
  have hok : spelledTwice.2 = .ok true := by decide +kernel
  have hread : (spelledTwice.1.disk.readFile
      (bothCached.chunker.fullPath firstSpelling.path)).map FileData.content = some [121] := by
    decide +kernel
  have hfirst := h (fun _ ↦ []) twoChunks (deletionEnv false) bothSpellings 1 bothCached
    [firstSpelling, secondSpelling] true rfl agreesWith_bothCached (fun _ _ ↦ rfl)
    filesTellApart_bothCached allHashed_bothCached (by rw [requestedIds_bothCached]; simp) hok
    firstSpelling List.mem_cons_self rfl
  rw [← spelledTwice, hread] at hfirst
  exact absurd hfirst (by decide)

end Syncer

end CooklangSync.Client
