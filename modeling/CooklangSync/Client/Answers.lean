import CooklangSync.Client.Batches
import CooklangSync.Client.Hashing
import CooklangSync.Client.Rows

/-!
# Answers — a pending row, its chunk ids, and the answer to its commit

The ids of the file of a row are sent as one string; an answer that asks for chunks sends some of
them back, and these are in the cache.
-/

namespace CooklangSync.Client

open Theory

namespace Chunker

variable {sha256 : Bytes → Text}

theorem saveChunks_evictsNothing {c : Chunker} (h : c.EvictsNothing) (size : Nat)
    (chunks : List Bytes) : (c.saveChunks sha256 size chunks).EvictsNothing := by
  induction chunks generalizing c with
  | nil => exact h
  | cons data rest ih => exact ih (h.saveChunk _ _)

/-- Every id of the file is cached, whichever of the pieces with that id is. -/
theorem isSome_entries_saveChunks {c : Chunker} (h : c.EvictsNothing) {size : Nat}
    {chunks : List Bytes} {id : Text} (hid : id ∈ chunks.map (hash sha256 · size)) :
    ((c.saveChunks sha256 size chunks).cache.entries id).isSome := by
  induction chunks generalizing c with
  | nil => cases hid
  | cons data rest ih =>
    rw [saveChunks]
    by_cases hrest : id ∈ rest.map (hash sha256 · size)
    · exact ih (h.saveChunk _ _) hrest
    · have hfirst : id = hash sha256 data size := (List.mem_cons.mp hid).resolve_right hrest
      rw [entries_saveChunks_of_not_mem (h.saveChunk _ _) hrest, entries_saveChunk h, if_pos hfirst]
      rfl

end Chunker

namespace Syncer

section Rows

variable (sha256 : Bytes → Text)

/-! ## 1. The ids of a row -/

/-- The chunk ids of the file of a row, in the pieces that a reading of it delivers. -/
def fileIds (reads : Chunker.ReadEnv) (s : ClientState) (f : FileRecord) : List Text :=
  if f.deleted then []
  else
    match s.disk.readFile (s.chunker.fullPath f.path) with
    | some file => Chunker.chunkIds sha256 reads f.path file.content
    | none => []

/-- The ids as they are sent. -/
def sentIds (reads : Chunker.ReadEnv) (s : ClientState) (f : FileRecord) : Text :=
  List.intercalate [','] (fileIds sha256 reads s f)

/-- The file of a row is gone as the row says, or it is there and of a listed format. -/
def IsReadable (s : ClientState) (f : FileRecord) : Prop :=
  f.deleted = false → Chunker.isHashable f.path = true ∧
    (s.disk.readFile (s.chunker.fullPath f.path)).isSome

theorem fileIds_congr (reads : Chunker.ReadEnv) {s s' : ClientState} (hdisk : s'.disk = s.disk)
    (hbase : s'.chunker.basePath = s.chunker.basePath) (f : FileRecord) :
    fileIds sha256 reads s' f = fileIds sha256 reads s f := by
  rw [fileIds, fileIds, hdisk, Chunker.fullPath, Chunker.fullPath, hbase]

theorem isReadable_congr {s s' : ClientState} (hdisk : s'.disk = s.disk)
    (hbase : s'.chunker.basePath = s.chunker.basePath) (f : FileRecord) :
    IsReadable s' f ↔ IsReadable s f := by
  rw [IsReadable, IsReadable, hdisk, Chunker.fullPath, Chunker.fullPath, hbase]

variable {sha256}

/-- The ids of a row are the hashes of some pieces. -/
theorem fileIds_eq_map (reads : Chunker.ReadEnv) (s : ClientState) (f : FileRecord) :
    ∃ chunks : List Bytes, fileIds sha256 reads s f =
      chunks.map (Chunker.hash sha256 · (Chunker.hashSize f.path)) := by
  rw [fileIds]
  split
  · exact ⟨[], rfl⟩
  · split
    · exact ⟨_, rfl⟩
    · exact ⟨[], rfl⟩

theorem ne_nil_of_mem_fileIds (hdigest : IsHexDigest sha256) {reads : Chunker.ReadEnv}
    {s : ClientState} {f : FileRecord} {id : Text} (hid : id ∈ fileIds sha256 reads s f) :
    id ≠ [] ∧ ',' ∉ id := by
  obtain ⟨chunks, hchunks⟩ := fileIds_eq_map reads s f
  rw [hchunks] at hid
  obtain ⟨data, -, rfl⟩ := List.mem_map.mp hid
  exact ⟨Chunker.hash_ne_nil hdigest data f.path,
    (Chunker.alphanumeric_hash hdigest data _).not_mem_char (by decide)⟩

theorem splitOn_sentIds (hdigest : IsHexDigest sha256) (reads : Chunker.ReadEnv) (s : ClientState)
    (f : FileRecord) : (sentIds sha256 reads s f).splitOn ',' =
      if fileIds sha256 reads s f = [] then [[]] else fileIds sha256 reads s f := by
  obtain ⟨chunks, hchunks⟩ := fileIds_eq_map reads s f
  rw [sentIds, hchunks, Chunker.splitOn_join hdigest]
  simp only [List.map_eq_nil_iff]

/-- What hashing the file of a row does. -/
theorem hashFile_spec {reads : Chunker.ReadEnv} (hreads : reads.failsAfter = none)
    {s : ClientState} (hcache : s.chunker.EvictsNothing) {f : FileRecord} (hf : IsReadable s f) :
    ∃ c : Chunker, hashFile sha256 reads s f = (c, .ok (sentIds sha256 reads s f)) ∧
      c.EvictsNothing ∧ c.basePath = s.chunker.basePath ∧
      ∀ id ∈ fileIds sha256 reads s f, (c.cache.entries id).isSome := by
  rw [hashFile, sentIds]
  by_cases hdel : f.deleted = true
  · have hnone : fileIds sha256 reads s f = [] := by rw [fileIds, if_pos hdel]
    rw [if_pos hdel, hnone]
    exact ⟨s.chunker, rfl, hcache, rfl, by simp⟩
  · obtain ⟨hpath, hthere⟩ := hf (by simpa using hdel)
    obtain ⟨file, hfile⟩ := Option.isSome_iff_exists.mp hthere
    have hids : fileIds sha256 reads s f =
        Chunker.chunkIds sha256 reads f.path file.content := by
      rw [fileIds, if_neg hdel, hfile]
    rw [if_neg hdel, Chunker.hashify_eq s.chunker hreads hpath hfile, hids]
    exact ⟨_, rfl, Chunker.saveChunks_evictsNothing hcache _ _,
      Chunker.basePath_saveChunks sha256 _ _ _, fun id hid ↦
        Chunker.isSome_entries_saveChunks hcache hid⟩

/-- Hashing that succeeds has read the file of a live row. -/
theorem hashFile_ok {reads : Chunker.ReadEnv} {s : ClientState} {f : FileRecord} {c : Chunker}
    {ids : Text} (h : hashFile sha256 reads s f = (c, .ok ids)) :
    c.basePath = s.chunker.basePath ∧ (f.deleted = false →
      ∃ file, s.disk.readFile (s.chunker.fullPath f.path) = some file ∧
        ids = List.intercalate [','] (Chunker.chunkIds sha256 reads f.path file.content)) := by
  rw [hashFile] at h
  by_cases hdel : f.deleted = true
  · rw [if_pos hdel] at h
    cases h
    exact ⟨rfl, fun hlive ↦ by rw [hdel] at hlive; cases hlive⟩
  · rw [if_neg hdel] at h
    have hbase := Chunker.basePath_hashify sha256 s.chunker s.disk reads f.path
    cases hhash : s.chunker.hashify sha256 s.disk reads f.path with
    | mk c' outcome =>
      rw [hhash] at h hbase
      cases outcome with
      | err e => cases h
      | panic => cases h
      | ok ids' =>
        cases h
        obtain ⟨file, hfile, hids⟩ := Chunker.hashify_ok hhash
        exact ⟨hbase, fun _ ↦ ⟨file, hfile, by rw [hids]⟩⟩

/-! ## 2. The chunks that are asked for -/

theorem readChunks_of_cached {c : Chunker} {ids : List Text}
    (hcached : ∀ id ∈ ids, (c.cache.entries id).isSome) :
    ∃ chunks : List Chunk, readChunks c ids = .ok chunks ∧ chunks.map Prod.fst = ids := by
  induction ids with
  | nil => exact ⟨[], rfl, rfl⟩
  | cons id rest ih =>
    obtain ⟨chunks, hrest, hnames⟩ := ih fun id' h' ↦ hcached id' (List.mem_cons_of_mem id h')
    have hread : ∃ data, c.readChunk id = .ok data := by
      obtain ⟨data, hdata⟩ := Option.isSome_iff_exists.mp (hcached id List.mem_cons_self)
      unfold Chunker.readChunk InMemoryCache.get
      by_cases hnil : id = []
      · exact ⟨[], if_pos hnil⟩
      · exact ⟨data, by rw [if_neg hnil, hdata]; rfl⟩
    obtain ⟨data, hread⟩ := hread
    refine ⟨(id, data) :: chunks, ?_, by rw [List.map_cons, hnames]⟩
    rw [readChunks, hread, Outcome.ok_bind, hrest]
    rfl

end Rows

end Syncer

end CooklangSync.Client
