import CooklangSync.Client.Storage

/-!
# Hashing — a file, its chunk ids, and the file again

The chunk ids of a file travel as one string, joined with commas, and come back split at the
commas; what they stand for is looked up in a cache by id.  `save_hashify` puts the pieces together:
the file that is saved is the file that was hashed.
-/

namespace CooklangSync.Client

open Theory

/-- What `{:x}` prints of a SHA-256 digest. -/
def IsHexDigest (sha256 : Bytes → Text) : Prop :=
  ∀ data, (sha256 data).length = 64 ∧ ∀ c ∈ sha256 data, c ∈ "0123456789abcdef".toList

theorem isHexDigest_of_all {sha256 : Bytes → Text} (h : ∀ data, (sha256 data).length = 64 ∧
    (sha256 data).all ("0123456789abcdef".toList.contains ·) = true) : IsHexDigest sha256 :=
  fun data ↦ ⟨(h data).1, fun c hc ↦
    List.contains_iff_mem.mp (List.all_eq_true.mp (h data).2 c hc)⟩

namespace Chunker

/-! ## 1. Pieces -/

/-- The pieces a file is hashed in: its lines, or what the reads deliver. -/
def pieces (env : ReadEnv) (path : Text) (content : Bytes) : List Bytes :=
  if isText (parsePath path) then readLines content
  else readBlocks env.readSize content.length 0 content

def hashSize (path : Text) : Nat :=
  if isText (parsePath path) then textHashSize else binaryHashSize

def isHashable (path : Text) : Bool := isText (parsePath path) || isBinary (parsePath path)

theorem flatten_readLines (content : Bytes) : (readLines content).flatten = content := by
  induction content with
  | nil => rfl
  | cons b bs ih =>
    rw [readLines]
    by_cases hb : b = 10
    · rw [if_pos hb, List.flatten_cons, ih]
      rfl
    · rw [if_neg hb]
      cases hlines : readLines bs with
      | nil =>
        rw [hlines] at ih
        rw [← ih]
        rfl
      | cons line rest =>
        rw [hlines] at ih
        rw [← ih]
        rfl

theorem flatten_readBlocks (readSize : Nat → Nat) {fuel : Nat} (i : Nat) {content : Bytes}
    (hfuel : content.length ≤ fuel) : (readBlocks readSize fuel i content).flatten = content := by
  induction fuel generalizing i content with
  | zero =>
    rw [List.length_eq_zero_iff.mp (Nat.le_zero.mp hfuel)]
    rfl
  | succ fuel ih =>
    cases content with
    | nil => rfl
    | cons b bs =>
      -- every read delivers at least one byte
      have hdrop : ((b :: bs).drop (max 1 (min (readSize i) binaryChunkSize))).length ≤ fuel := by
        rw [List.length_drop]
        rw [List.length_cons] at hfuel ⊢
        omega
      rw [readBlocks, List.flatten_cons, ih (i + 1) hdrop, List.take_append_drop]
      simp

/-- Nothing of the file is lost or repeated. -/
theorem flatten_pieces (env : ReadEnv) (path : Text) (content : Bytes) :
    (pieces env path content).flatten = content := by
  unfold pieces
  split
  · exact flatten_readLines content
  · exact flatten_readBlocks env.readSize 0 (Nat.le_refl _)

/-! ## 2. Chunk ids -/

section Ids

variable (sha256 : Bytes → Text)

def chunkIds (env : ReadEnv) (path : Text) (content : Bytes) : List Text :=
  (pieces env path content).map (hash sha256 · (hashSize path))

theorem hashSize_range (path : Text) : 0 < hashSize path ∧ hashSize path ≤ 64 := by
  unfold hashSize textHashSize binaryHashSize
  split <;> omega

theorem basePath_saveChunks (c : Chunker) (size : Nat) (chunks : List Bytes) :
    (c.saveChunks sha256 size chunks).basePath = c.basePath := by
  induction chunks generalizing c with
  | nil => rfl
  | cons data rest ih => exact ih _

theorem basePath_hashifyChunks (c : Chunker) (env : ReadEnv) (path : Text) (size : Nat)
    (chunks : List Bytes) :
    (c.hashifyChunks sha256 env path size chunks).1.basePath = c.basePath := by
  unfold hashifyChunks
  split <;> apply basePath_saveChunks

theorem basePath_hashify (c : Chunker) (disk : Disk) (env : ReadEnv) (path : Text) :
    (c.hashify sha256 disk env path).1.basePath = c.basePath := by
  rw [hashify]
  split
  · rw [hashifyText]
    split
    · rfl
    · apply basePath_hashifyChunks
  · split
    · rw [hashifyBinary]
      split
      · rfl
      · apply basePath_hashifyChunks
    · rfl

variable {sha256}

theorem length_hash (hdigest : IsHexDigest sha256) (data : Bytes) {size : Nat} (hsize : size ≤ 64) :
    (hash sha256 data size).length = size := by
  rw [hash, List.length_take, (hdigest data).1]
  omega

theorem hash_ne_nil (hdigest : IsHexDigest sha256) (data : Bytes) (path : Text) :
    hash sha256 data (hashSize path) ≠ [] := by
  have hrange := hashSize_range path
  have hlen := length_hash hdigest data hrange.2
  intro hnil
  rw [hnil, List.length_nil] at hlen
  omega

theorem mem_hash (hdigest : IsHexDigest sha256) {data : Bytes} {size : Nat} {c : Char}
    (hc : c ∈ hash sha256 data size) : c ∈ "0123456789abcdef".toList :=
  (hdigest data).2 c (List.mem_of_mem_take hc)

theorem alphanumeric_hash (hdigest : IsHexDigest sha256) (data : Bytes) (size : Nat) :
    Alphanumeric (hash sha256 data size) := by
  have hhex : "0123456789abcdef".toList.all Char.isAlphanum = true := by decide
  exact fun c hc ↦ List.all_eq_true.mp hhex c (mem_hash hdigest hc)

/-- Ids that are joined with commas come back when they are split; no id at all comes back as the
empty one. -/
theorem splitOn_join (hdigest : IsHexDigest sha256) (size : Nat) (chunks : List Bytes) :
    (List.intercalate [','] (chunks.map (hash sha256 · size))).splitOn ',' =
      if chunks = [] then [[]] else chunks.map (hash sha256 · size) := by
  by_cases hnil : chunks = []
  · rw [if_pos hnil, hnil]
    rfl
  · rw [if_neg hnil]
    apply List.splitOn_intercalate
    · intro id hid
      obtain ⟨data, -, rfl⟩ := List.mem_map.mp hid
      exact (alphanumeric_hash hdigest data size).not_mem_char (by decide)
    · simpa using hnil

/-! ## 3. The cache -/

/-- The truncated hash tells the chunks apart. -/
def NoCollision (sha256 : Bytes → Text) (size : Nat) (chunks : List Bytes) : Prop :=
  ∀ data ∈ chunks, ∀ data' ∈ chunks, hash sha256 data size = hash sha256 data' size → data = data'

def EvictsNothing (c : Chunker) : Prop := ∀ i id, c.cache.evicts i id = false

theorem EvictsNothing.saveChunk {c : Chunker} (h : c.EvictsNothing) (id : Text) (data : Bytes) :
    (c.saveChunk id data).EvictsNothing := h

theorem entries_saveChunk {c : Chunker} (h : c.EvictsNothing) (id : Text) (data : Bytes)
    (id' : Text) : (c.saveChunk id data).cache.entries id' =
      if id' = id then some data else c.cache.entries id' := by
  have hnever := h c.cache.inserted id'
  show (if c.cache.evicts c.cache.inserted id' then none else _) = _
  rw [hnever]
  rfl

theorem entries_saveChunks_of_not_mem {c : Chunker} (h : c.EvictsNothing) {size : Nat}
    {chunks : List Bytes} {id : Text} (hid : id ∉ chunks.map (hash sha256 · size)) :
    (c.saveChunks sha256 size chunks).cache.entries id = c.cache.entries id := by
  induction chunks generalizing c with
  | nil => rfl
  | cons data rest ih =>
    rw [List.map_cons, List.mem_cons, not_or] at hid
    rw [saveChunks, ih (h.saveChunk _ _) hid.2, entries_saveChunk h, if_neg hid.1]

/-- The chunks of a file are in the cache when it has been hashed. -/
theorem entries_saveChunks {c : Chunker} (h : c.EvictsNothing) {size : Nat} {chunks : List Bytes}
    (hcollision : NoCollision sha256 size chunks) {data : Bytes} (hdata : data ∈ chunks) :
    (c.saveChunks sha256 size chunks).cache.entries (hash sha256 data size) = some data := by
  induction chunks generalizing c with
  | nil => cases hdata
  | cons first rest ih =>
    have hrest : NoCollision sha256 size rest := fun a ha b hb ↦
      hcollision a (List.mem_cons_of_mem first ha) b (List.mem_cons_of_mem first hb)
    rw [saveChunks]
    by_cases hmem : data ∈ rest
    · exact ih (h.saveChunk _ _) hrest hmem
    · have hfirst : data = first := (List.mem_cons.mp hdata).resolve_right hmem
      -- no later chunk is stored under the same id
      have hlater : hash sha256 data size ∉ rest.map (hash sha256 · size) := by
        intro hin
        obtain ⟨other, hother, heq⟩ := List.mem_map.mp hin
        have hsame := hcollision other (List.mem_cons_of_mem first hother) data hdata heq
        exact hmem (hsame ▸ hother)
      rw [entries_saveChunks_of_not_mem (h.saveChunk _ _) hlater, entries_saveChunk h, hfirst,
        if_pos rfl]

/-- What hashing a readable file does. -/
theorem hashify_eq (c : Chunker) {disk : Disk} {env : ReadEnv} (hreads : env.failsAfter = none)
    {path : Text} (hpath : isHashable path = true) {file : FileData}
    (hfile : disk.readFile (c.fullPath path) = some file) :
    c.hashify sha256 disk env path =
      (c.saveChunks sha256 (hashSize path) (pieces env path file.content),
        .ok (chunkIds sha256 env path file.content)) := by
  rw [isHashable, Bool.or_eq_true] at hpath
  rw [hashify, chunkIds, hashSize, pieces]
  by_cases htext : isText (parsePath path) = true
  · simp only [if_pos htext, hashifyText, hfile, hashifyChunks, hreads]
  · simp only [if_neg htext, if_pos (hpath.resolve_left htext), hashifyBinary, hfile,
      hashifyChunks, hreads]

/-- Hashing that succeeds has read the whole file. -/
theorem hashify_ok {c c' : Chunker} {disk : Disk} {env : ReadEnv} {path : Text} {ids : List Text}
    (h : c.hashify sha256 disk env path = (c', .ok ids)) :
    ∃ file, disk.readFile (c.fullPath path) = some file ∧
      ids = chunkIds sha256 env path file.content := by
  rw [hashify] at h
  cases hfile : disk.readFile (c.fullPath path) with
  | none =>
    simp only [hashifyText, hashifyBinary, hfile] at h
    split at h
    · cases h
    · split at h <;> cases h
  | some file =>
    refine ⟨file, rfl, ?_⟩
    cases hreads : env.failsAfter with
    | some n =>
      simp only [hashifyText, hashifyBinary, hfile, hashifyChunks, hreads] at h
      split at h
      · cases h
      · split at h <;> cases h
    | none =>
      by_cases hpath : isHashable path = true
      · rw [← hashify, hashify_eq c hreads hpath hfile] at h
        cases h
        rfl
      · rw [isHashable, Bool.or_eq_true, not_or] at hpath
        rw [if_neg hpath.1, if_neg hpath.2] at h
        cases h

/-! ## 4. The round trip -/

theorem cachedContent_join {saver : Chunker} (hdigest : IsHexDigest sha256) {env : ReadEnv}
    {path : Text} {content : Bytes}
    (hholds : ∀ data ∈ pieces env path content,
      saver.cache.entries (hash sha256 data (hashSize path)) = some data) :
    saver.cachedContent ((List.intercalate [','] (chunkIds sha256 env path content)).splitOn ',') =
      some content := by
  have hflatten := flatten_pieces env path content
  have hsplit := splitOn_join hdigest (hashSize path) (pieces env path content)
  rw [chunkIds, hsplit]
  by_cases hnil : pieces env path content = []
  · -- the empty file: the one empty id stands for no bytes
    rw [hnil] at hflatten
    rw [if_pos hnil, ← hflatten]
    rfl
  · have hcheck : ∀ data ∈ pieces env path content,
        saver.checkChunk (hash sha256 data (hashSize path)) = true := by
      intro data hdata
      rw [checkChunk, if_neg (hash_ne_nil hdigest data path), InMemoryCache.contains,
        hholds data hdata]
      rfl
    have hchunk : ∀ data ∈ pieces env path content,
        saver.chunkOf (hash sha256 data (hashSize path)) = data := by
      intro data hdata
      rw [chunkOf, InMemoryCache.get, if_neg (hash_ne_nil hdigest data path), hholds data hdata]
      rfl
    have hall : ((pieces env path content).map (hash sha256 · (hashSize path))).all
        saver.checkChunk = true := by
      rw [List.all_map, List.all_eq_true]
      exact hcheck
    have hbytes : ((pieces env path content).map (hash sha256 · (hashSize path))).flatMap
        saver.chunkOf = content := by
      rw [List.flatMap_map, List.flatMap_congr hchunk, List.flatMap_id', hflatten]
    rw [if_neg hnil, cachedContent, if_pos hall, hbytes]

/-- A save that can open its file writes what is cached. -/
theorem save_cachedContent {saver : Chunker} {disk : Disk} {env : SaveEnv} {path : Text}
    {hashes : List Text} {content : Bytes} (hcached : saver.cachedContent hashes = some content)
    (hfault : env.fault = none) (hopen : (saver.openForSave disk env path).2 ≠ none) :
    (saver.save disk env path hashes).1 = .ok () ∧
      ((saver.save disk env path hashes).2.readFile (saver.fullPath path)).map FileData.content =
        some content := by
  have hall : hashes.all saver.checkChunk = true := by
    by_contra hall
    rw [cachedContent, if_neg hall] at hcached
    cases hcached
  have hcompletes : saver.Completes env 0 hashes := by
    refine ⟨List.all_eq_true.mp hall, ?_, ?_⟩
    · rw [hfault]
      simp
    · intro j hj
      rw [hfault] at hj
      cases hj
  have hcontent : saver.handedOver env 0 hashes = content := by
    rw [handedOver_of_completes hcompletes] at hcached
    exact Option.some.inj hcached
  cases heq : saver.openForSave disk env path with
  | mk made place =>
    rw [heq] at hopen
    obtain ⟨⟨n, k⟩, rfl⟩ := Option.ne_none_iff_exists'.mp hopen
    rw [save_of_completes heq hcompletes, hcontent]
    refine ⟨rfl, ?_⟩
    rw [FileTree.readFile_put (openForSave_some heq).2]
    rfl

/-- A file is hashed, its ids are joined and split again, and a chunker that holds its chunks saves
it: what it writes are the bytes that were hashed, however the file was read. -/
theorem save_hashify (hdigest : IsHexDigest sha256) (c : Chunker) (hcache : c.EvictsNothing)
    (disk : Disk) (env : ReadEnv) (hreads : env.failsAfter = none) (path : Text)
    (hpath : isHashable path = true) (file : FileData)
    (hfile : disk.readFile (c.fullPath path) = some file)
    (hcollision : NoCollision sha256 (hashSize path) (pieces env path file.content)) :
    ∃ c' ids, c.hashify sha256 disk env path = (c', .ok ids) ∧
      ∀ saver : Chunker, (∀ id ∈ ids, saver.cache.entries id = c'.cache.entries id) →
        ∀ (target : Disk) (saveEnv : SaveEnv) (path' : Text), saveEnv.fault = none →
          (saver.openForSave target saveEnv path').2 ≠ none →
          let saved := saver.save target saveEnv path' ((List.intercalate [','] ids).splitOn ',')
          saved.1 = .ok () ∧
            (saved.2.readFile (saver.fullPath path')).map FileData.content = some file.content := by
  refine ⟨_, _, hashify_eq c hreads hpath hfile, ?_⟩
  intro saver hsame target saveEnv path' hfault hopen
  have hholds : ∀ data ∈ pieces env path file.content,
      saver.cache.entries (hash sha256 data (hashSize path)) = some data := by
    intro data hdata
    rw [hsame _ (List.mem_map_of_mem hdata)]
    exact entries_saveChunks hcache hcollision hdata
  exact save_cachedContent (cachedContent_join hdigest hholds) hfault hopen

end Ids

-- SHA-256 of the two lines of the recipe below; all other data has the digest of no data.
def recipeDigest (data : Bytes) : Text :=
  if data = [97, 10] then
    "87428fc522803d31065e7bce3cf03fe475096631e5e07bbd7a0fde60c4cf25c7".toList
  else if data = [98] then
    "3e23e8160039594a33894f6564e1b1348bbd7a0088d42c4acb73eeaed59c009d".toList
  else "e3b0c44298fc1c149afbf4c8996fb92427ae41e4649b934ca495991b7852b855".toList

theorem isHexDigest_recipeDigest : IsHexDigest recipeDigest := by
  apply isHexDigest_of_all
  intro data
  unfold recipeDigest
  split
  · rw [String.toList_ofList, String.toList_ofList]
    decide
  · split
    · rw [String.toList_ofList, String.toList_ofList]
      decide
    · rw [String.toList_ofList, String.toList_ofList]
      decide

-- The second line has no newline at its end.
def recipeDisk : Disk :=
  FileTree.root.put (toUtf8 "a.cook".toList) [] (.file ⟨[97, 10, 98], ⟨0, 0⟩⟩)

def rootChunker : Chunker := ⟨⟨fun _ ↦ none, 0, fun _ _ ↦ false⟩, parsePath "/".toList⟩

theorem save_hashify_recipe :
    ∃ c' ids, rootChunker.hashify recipeDigest recipeDisk ⟨fun _ ↦ 1, none⟩ "a.cook".toList =
        (c', .ok ids) ∧
      (c'.save .root ⟨none, 0, ⟨1, 0⟩⟩ "b.cook".toList
        ((List.intercalate [','] ids).splitOn ',')).1 = .ok () ∧
      ((c'.save .root ⟨none, 0, ⟨1, 0⟩⟩ "b.cook".toList
        ((List.intercalate [','] ids).splitOn ',')).2.readFile
          (c'.fullPath "b.cook".toList)).map FileData.content = some [97, 10, 98] := by
  have hreads : recipeDisk.readFile (rootChunker.fullPath "a.cook".toList) =
      some ⟨[97, 10, 98], ⟨0, 0⟩⟩ := by decide
  have hcollision : NoCollision recipeDigest (hashSize "a.cook".toList)
      (pieces ⟨fun _ ↦ 1, none⟩ "a.cook".toList [97, 10, 98]) := by
    unfold NoCollision hash recipeDigest
    rw [String.toList_ofList, String.toList_ofList, String.toList_ofList, String.toList_ofList]
    decide +kernel
  obtain ⟨c', ids, hhashed, hsaved⟩ := save_hashify isHexDigest_recipeDigest rootChunker
    (fun _ _ ↦ rfl) recipeDisk ⟨fun _ ↦ 1, none⟩ rfl "a.cook".toList (by decide +kernel)
    ⟨[97, 10, 98], ⟨0, 0⟩⟩ hreads hcollision
  have hbase : c'.basePath = rootChunker.basePath := by
    rw [← basePath_hashify recipeDigest rootChunker recipeDisk ⟨fun _ ↦ 1, none⟩ "a.cook".toList,
      hhashed]
  have hopen : (c'.openForSave .root ⟨none, 0, ⟨1, 0⟩⟩ "b.cook".toList).2 ≠ none := by
    simp only [openForSave, createParents, fullPath, hbase]
    decide +kernel
  exact ⟨c', ids, hhashed,
    hsaved c' (fun _ _ ↦ rfl) .root ⟨none, 0, ⟨1, 0⟩⟩ "b.cook".toList rfl hopen⟩

end Chunker

end CooklangSync.Client
