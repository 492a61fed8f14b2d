import CooklangSync.Client.Collect
import CooklangSync.Client.Cursor
import CooklangSync.Client.Hashing

/-!
# Cache — the chunks of a client and those of a store

What a client hashes and downloads ends up in one cache.  The cache agrees with a store of chunks as
long as no piece of a file is taken for another chunk and the store's chunks arrive as they are.
-/

namespace CooklangSync.Client

open Theory

/-! ## 1. The store -/

/-- The bytes behind an id; the empty id stands for no bytes. -/
def storedBytes (store : Text → Option Bytes) (id : Text) : Bytes :=
  if id = [] then [] else (store id).getD []

/-- The bytes behind a comma-separated list of ids. -/
def contentOf (store : Text → Option Bytes) (chunkIds : Text) : Bytes :=
  (chunkIds.splitOn ',').flatMap (storedBytes store)

namespace Chunker

/-- No cached chunk differs from the stored one. -/
def AgreesWith (c : Chunker) (store : Text → Option Bytes) : Prop :=
  ∀ id data stored, c.cache.entries id = some data → store id = some stored → data = stored

variable {store : Text → Option Bytes}

theorem AgreesWith.saveChunk {c : Chunker} (h : c.AgreesWith store) {id : Text} {data : Bytes}
    (hdata : ∀ stored, store id = some stored → data = stored) :
    (c.saveChunk id data).AgreesWith store := by
  intro id' data' stored hentry hstored
  change (if c.cache.evicts c.cache.inserted id' then none
    else if id' = id then some data else c.cache.entries id') = some data' at hentry
  split at hentry
  · cases hentry
  · split at hentry
    · rename_i heq
      rw [heq] at hstored
      rw [← Option.some.inj hentry]
      exact hdata stored hstored
    · exact h id' data' stored hentry hstored

/-- What is cached under ids of the store are the stored bytes. -/
theorem AgreesWith.cachedContent {c : Chunker} (h : c.AgreesWith store) {ids : List Text}
    {content : Bytes} (hids : ∀ id ∈ ids, id ≠ [] → (store id).isSome)
    (hcached : c.cachedContent ids = some content) : content = ids.flatMap (storedBytes store) := by
  unfold Chunker.cachedContent at hcached
  split at hcached
  · rename_i hall
    rw [← Option.some.inj hcached]
    apply List.flatMap_congr
    intro id hid
    have hcheck := List.all_eq_true.mp hall id hid
    unfold checkChunk at hcheck
    unfold chunkOf InMemoryCache.get storedBytes
    by_cases hnil : id = []
    · rw [if_pos hnil, if_pos hnil]
    · rw [if_neg hnil] at hcheck ⊢
      obtain ⟨data, hdata⟩ := Option.isSome_iff_exists.mp hcheck
      obtain ⟨stored, hstored⟩ := Option.isSome_iff_exists.mp (hids id hid hnil)
      rw [if_neg hnil, hdata, hstored, h id data stored hdata hstored]
      rfl
  · cases hcached

/-! ## 2. Hashing -/

section Hashing

variable {sha256 : Bytes → Text}

/-- No piece of the file is taken for another chunk of the store. -/
def TellsApart (sha256 : Bytes → Text) (store : Text → Option Bytes) (path : Text)
    (content : Bytes) : Prop :=
  ∀ (env : ReadEnv), ∀ data ∈ pieces env path content, ∀ stored,
    store (hash sha256 data (hashSize path)) = some stored → data = stored

theorem AgreesWith.saveChunks {c : Chunker} (h : c.AgreesWith store) {size : Nat}
    {chunks : List Bytes} (hchunks : ∀ data ∈ chunks, ∀ stored,
      store (hash sha256 data size) = some stored → data = stored) :
    (c.saveChunks sha256 size chunks).AgreesWith store := by
  induction chunks generalizing c with
  | nil => exact h
  | cons data rest ih =>
    exact ih (h.saveChunk (hchunks data List.mem_cons_self))
      fun d hd ↦ hchunks d (List.mem_cons_of_mem data hd)

theorem AgreesWith.hashify {c : Chunker} (h : c.AgreesWith store) {disk : Disk} {path : Text}
    (hfile : ∀ file, disk.readFile (c.fullPath path) = some file →
      TellsApart sha256 store path file.content) (env : ReadEnv) :
    (c.hashify sha256 disk env path).1.AgreesWith store := by
  -- a read that fails has put the first pieces into the cache
  have hchunks : ∀ {size : Nat} {chunks : List Bytes}, (∀ data ∈ chunks, ∀ stored,
      store (hash sha256 data size) = some stored → data = stored) →
      (c.hashifyChunks sha256 env path size chunks).1.AgreesWith store := by
    intro size chunks hpieces
    unfold hashifyChunks
    split
    · exact h.saveChunks fun data hdata ↦ hpieces data (List.mem_of_mem_take hdata)
    · exact h.saveChunks hpieces
  rw [Chunker.hashify]
  by_cases htext : isText (parsePath path) = true
  · rw [if_pos htext, hashifyText]
    cases hread : disk.readFile (c.fullPath path) with
    | none => exact h
    | some file =>
      apply hchunks
      have hapart := hfile file hread env
      rw [pieces, if_pos htext, hashSize, if_pos htext] at hapart
      exact hapart
  · rw [if_neg htext]
    split
    · rw [hashifyBinary]
      cases hread : disk.readFile (c.fullPath path) with
      | none => exact h
      | some file =>
        apply hchunks
        have hapart := hfile file hread env
        rw [pieces, if_neg htext, hashSize, if_neg htext] at hapart
        exact hapart
    · exact h

end Hashing

end Chunker

/-! ## 3. A download pass -/

namespace Syncer

variable {sha256 : Bytes → Text} {store : Text → Option Bytes}

/-- The files under the paths of live records hold no piece that is taken for another chunk. -/
def FilesTellApart (sha256 : Bytes → Text) (store : Text → Option Bytes) (c : Chunker)
    (disk : Disk) (ds : List ResponseFileRecord) : Prop :=
  ∀ d ∈ ds, d.deleted = false → ∀ file, disk.readFile (c.fullPath d.path) = some file →
    Chunker.TellsApart sha256 store d.path file.content

theorem agreesWith_collectChunks {env : Nat → Chunker.ReadEnv} {disk : Disk} {i : Nat} {c : Chunker}
    {ds : List ResponseFileRecord} (h : c.AgreesWith store)
    (hfiles : FilesTellApart sha256 store c disk ds) :
    (collectChunks sha256 env disk i c ds).1.AgreesWith store := by
  have hstep : ∀ (c' : Chunker) (i : Nat), ∀ d ∈ ds, d.deleted = false →
      c'.basePath = c.basePath ∧ c'.AgreesWith store →
      (c'.hashify sha256 disk (env i) d.path).1.basePath = c.basePath ∧
        (c'.hashify sha256 disk (env i) d.path).1.AgreesWith store := by
    rintro c' i d hd hlive ⟨hbase, hagrees⟩
    refine ⟨(Chunker.basePath_hashify sha256 c' disk (env i) d.path).trans hbase, ?_⟩
    apply hagrees.hashify
    rw [Chunker.fullPath, hbase]
    exact hfiles d hd hlive
  exact (collectChunks_keeps (P := fun c' ↦ c'.basePath = c.basePath ∧ c'.AgreesWith store)
    sha256 hstep i ⟨rfl, h⟩).2

theorem agreesWith_saveDownloaded {c : Chunker} (h : c.AgreesWith store) {chunks : List Chunk}
    (hchunks : ∀ chunk ∈ chunks, store chunk.1 = some chunk.2) :
    (saveDownloaded c chunks).AgreesWith store := by
  induction chunks generalizing c with
  | nil => exact h
  | cons chunk rest ih =>
    apply ih
    · apply h.saveChunk
      intro stored hstored
      rw [hchunks chunk List.mem_cons_self] at hstored
      exact Option.some.inj hstored
    · exact fun chunk' h' ↦ hchunks chunk' (List.mem_cons_of_mem chunk h')

/-- The chunks of the store arrive as they are. -/
def DeliversStored (store : Text → Option Bytes) (env : DownloadEnv) : Prop :=
  ∀ ids, ∀ chunk ∈ (downloadBatch (env.batch ids)).1, store chunk.1 = some chunk.2

theorem agreesWith_fetchChunks {env : DownloadEnv} {c : Chunker} {disk : Disk}
    {ds : List ResponseFileRecord} (h : c.AgreesWith store)
    (hfiles : FilesTellApart sha256 store c disk ds)
    (hdelivers : ∀ ids, (collectChunks sha256 env.reads disk 0 c ds).2 = .ok ids → ids ≠ [] →
      ∀ chunk ∈ (downloadBatch (env.batch ids)).1, store chunk.1 = some chunk.2) :
    (fetchChunks sha256 env c disk ds).1.AgreesWith store := by
  have hcollect : (collectChunks sha256 env.reads disk 0 c ds).1.AgreesWith store :=
    agreesWith_collectChunks h hfiles
  rw [fetchChunks]
  cases hc : collectChunks sha256 env.reads disk 0 c ds with
  | mk c₁ queue =>
    rw [hc] at hcollect hdelivers
    cases queue with
    | err e => exact hcollect
    | panic => exact hcollect
    | ok queue =>
      cases queue with
      | nil => exact hcollect
      | cons id ids =>
        exact agreesWith_saveDownloaded hcollect (hdelivers _ rfl (List.cons_ne_nil id ids))

/-- What a pass that succeeds leaves: the effect of every record, and all else as it was. -/
structure PassSpec (store : Text → Option Bytes) (namespaceId : Int) (base : Place Name)
    (ds : List ResponseFileRecord) (s s' : ClientState) : Prop where
  spells : FileTree.Spells s'.chunker.basePath base
  agrees : s'.chunker.AgreesWith store
  effect : ∀ d ∈ ds, EffectAt s'.chunker s'.disk (placeOf base d) d
  frame : ∀ k, k ∉ ds.map (placeOf base) → s'.disk.fileAt k = s.disk.fileAt k
  straight : ∀ k, s.disk.Straight k → s'.disk.Straight k
  jids : s'.registry.jids namespaceId =
    s.registry.jids namespaceId ++ ds.map ResponseFileRecord.id

theorem checkDownloadOnce_spec {env : DownloadEnv} (hdelivers : DeliversStored store env)
    {list : Int → Outcome SyncError (List ResponseFileRecord)} {namespaceId : Int}
    {s : ClientState} {base : Place Name} {ds : List ResponseFileRecord} {changed : Bool}
    (hlist : list (latestLocal env s namespaceId) = .ok ds)
    (hplain : PlainResponse s.chunker s.disk base ds) (hagrees : s.chunker.AgreesWith store)
    (hfiles : FilesTellApart sha256 store s.chunker s.disk ds)
    (hpass : (checkDownloadOnce sha256 env list namespaceId s).2 = .ok changed) :
    PassSpec store namespaceId base ds s (checkDownloadOnce sha256 env list namespaceId s).1 := by
  obtain ⟨c, hfetch, hloop⟩ := checkDownloadOnce_fetched hlist (Prod.ext rfl hpass)
  have hcache : (fetchChunks sha256 env s.chunker s.disk ds).1.AgreesWith store :=
    agreesWith_fetchChunks hagrees hfiles fun ids _ _ ↦ hdelivers ids
  have hbase := basePath_fetchChunks sha256 env s.chunker s.disk ds
  rw [hfetch] at hcache hbase
  have hspells : FileTree.Spells c.basePath base := by
    rw [show c.basePath = s.chunker.basePath from hbase]
    exact hplain.spells
  have hspec := applyRecords_spec env.records namespaceId 0 { s with chunker := c } rfl
    (⟨hspells, hplain.plain, hplain.distinct, hplain.straight⟩ : PlainResponse c s.disk base ds)
  have hrest := rest_stop_of_ok hloop
  have hdone := hspec.split
  have hjids := hspec.jids
  rw [hrest, List.append_nil] at hdone
  rw [hloop, rowsBeforeStop, hrest, ← hdone, List.append_nil] at hjids
  have heffect := hspec.done
  have hframe := hspec.frame
  have hstraight := hspec.straight
  have hchunker := hspec.chunker
  rw [hloop, ← hdone] at heffect
  rw [hloop] at hframe hstraight hchunker
  refine ⟨?_, ?_, ?_, hframe, hstraight, hjids⟩
  · rw [hchunker]
    exact hspells
  · rw [hchunker]
    exact hcache
  · rw [hchunker]
    exact heffect

/-- What a place holds after the pass when the record for it is live. -/
theorem PassSpec.contentAt_live {namespaceId : Int} {base : Place Name}
    {ds : List ResponseFileRecord} {s s' : ClientState}
    (h : PassSpec store namespaceId base ds s s') {d : ResponseFileRecord} (hd : d ∈ ds)
    (hlive : d.deleted = false) (hstored : ∀ id ∈ chunksOf d, id ≠ [] → (store id).isSome) :
    Chunker.contentAt s'.disk (placeOf base d) = some (contentOf store d.chunkIds) := by
  have heffect := h.effect d hd
  rw [EffectAt, if_neg (by simp [hlive])] at heffect
  obtain ⟨content, hcached, hthere⟩ := heffect
  rw [hthere, h.agrees.cachedContent hstored hcached]
  rfl

theorem PassSpec.contentAt_deleted {namespaceId : Int} {base : Place Name}
    {ds : List ResponseFileRecord} {s s' : ClientState}
    (h : PassSpec store namespaceId base ds s s') {d : ResponseFileRecord} (hd : d ∈ ds)
    (hdel : d.deleted = true) : Chunker.contentAt s'.disk (placeOf base d) = none := by
  have heffect := h.effect d hd
  rw [EffectAt, if_pos hdel] at heffect
  rw [Chunker.contentAt, heffect, Option.map_none]

end Syncer

end CooklangSync.Client
