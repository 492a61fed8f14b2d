import CooklangSync.Client.Hashing

/-!
# Blocks — how the reads of an image cut it into chunks

Every read of `hashify_binary` becomes a chunk.  A file has the same chunks for everybody who hashes
it when the reads fill the buffer, up to the end of the file; a read that delivers less makes a
shorter chunk, and moves all that follow.
-/

namespace CooklangSync.Client

open Theory

namespace Chunker

/-- The chunks in which the reads deliver a file. -/
def blocks (env : ReadEnv) (content : Bytes) : List Bytes :=
  readBlocks env.readSize content.length 0 content

/-- All but the last have the size of the buffer. -/
def AreFull (chunks : List Bytes) : Prop := ∀ b ∈ chunks.dropLast, b.length = binaryChunkSize

/-- From the `k`-th read on, each delivers a full buffer or the rest of the content. -/
def FillsFrom (readSize : Nat → Nat) (k : Nat) (content : Bytes) : Prop :=
  ∀ i, i * binaryChunkSize < content.length →
    min binaryChunkSize (content.length - i * binaryChunkSize) ≤ max 1 (readSize (k + i))

/-- Each read of the file delivers a full buffer or the rest of the file. -/
def FillsBuffer (env : ReadEnv) (content : Bytes) : Prop := FillsFrom env.readSize 0 content

/-! ## 1. One read -/

theorem binaryChunkSize_eq : binaryChunkSize = 1048576 := rfl

section Reads

variable {readSize : Nat → Nat} {k : Nat} {content : Bytes}

/-- The first read fills the buffer, or empties the file, and the next ones do so with the rest. -/
theorem fillsFrom_iff (hne : content ≠ []) :
    FillsFrom readSize k content ↔
      min binaryChunkSize content.length ≤ max 1 (readSize k) ∧
        FillsFrom readSize (k + 1) (content.drop binaryChunkSize) := by
  have hpos : 0 < content.length := List.length_pos_of_ne_nil hne
  constructor
  · intro h
    constructor
    · have hfirst := h 0 (by omega)
      rwa [Nat.zero_mul, Nat.sub_zero] at hfirst
    · intro i hi
      rw [List.length_drop] at hi ⊢
      have hnext := h (i + 1) (by rw [Nat.add_mul]; omega)
      rw [Nat.add_mul, Nat.one_mul] at hnext
      rw [Nat.add_assoc, Nat.add_comm 1 i]
      omega
  · rintro ⟨hfirst, hrest⟩ i hi
    cases i with
    | zero => rwa [Nat.zero_mul, Nat.sub_zero]
    | succ i =>
      have hnext := hrest i (by rw [List.length_drop]; rw [Nat.add_mul] at hi; omega)
      rw [List.length_drop, Nat.add_assoc, Nat.add_comm 1 i] at hnext
      rw [Nat.add_mul, Nat.one_mul]
      omega

/-- A read that fills the buffer takes its size from the file. -/
theorem take_of_fills (hfills : min binaryChunkSize content.length ≤ max 1 (readSize k)) :
    content.take (max 1 (min (readSize k) binaryChunkSize)) = content.take binaryChunkSize ∧
      content.drop (max 1 (min (readSize k) binaryChunkSize)) = content.drop binaryChunkSize := by
  have hsize := binaryChunkSize_eq
  by_cases hfull : max 1 (min (readSize k) binaryChunkSize) = binaryChunkSize
  · rw [hfull]
    exact ⟨rfl, rfl⟩
  · -- then the file ends within the read
    have hread : content.length ≤ max 1 (min (readSize k) binaryChunkSize) := by omega
    have hend : content.length ≤ binaryChunkSize := by omega
    rw [List.take_of_length_le hread, List.take_of_length_le hend, List.drop_of_length_le hread,
      List.drop_of_length_le hend]
    exact ⟨rfl, rfl⟩

end Reads

/-! ## 2. All reads -/

theorem readBlocks_cons (readSize : Nat → Nat) (fuel k : Nat) (b : Byte) (bs : Bytes) :
    readBlocks readSize (fuel + 1) k (b :: bs) =
      (b :: bs).take (max 1 (min (readSize k) binaryChunkSize)) ::
        readBlocks readSize fuel (k + 1)
          ((b :: bs).drop (max 1 (min (readSize k) binaryChunkSize))) := rfl

theorem readBlocks_eq_nil_iff (readSize : Nat → Nat) (fuel k : Nat) {content : Bytes}
    (hfuel : content.length ≤ fuel) : readBlocks readSize fuel k content = [] ↔ content = [] := by
  constructor
  · intro h
    have hflatten := flatten_readBlocks readSize k hfuel
    rw [h] at hflatten
    exact hflatten.symm
  · rintro rfl
    cases fuel <;> rfl

theorem areFull_cons_iff (b : Bytes) (rest : List Bytes) :
    AreFull (b :: rest) ↔ (rest ≠ [] → b.length = binaryChunkSize) ∧ AreFull rest := by
  cases rest with
  | nil => simp [AreFull]
  | cons c rest => simp [AreFull]

/-- The chunks are full exactly when the reads fill the buffer. -/
theorem areFull_readBlocks_iff (readSize : Nat → Nat) {fuel : Nat} (k : Nat) {content : Bytes}
    (hfuel : content.length ≤ fuel) :
    AreFull (readBlocks readSize fuel k content) ↔ FillsFrom readSize k content := by
  induction fuel generalizing k content with
  | zero =>
    rw [List.length_eq_zero_iff.mp (Nat.le_zero.mp hfuel)]
    simp [readBlocks, AreFull, FillsFrom]
  | succ fuel ih =>
    cases content with
    | nil => simp [readBlocks, AreFull, FillsFrom]
    | cons b bs =>
      have hsize := binaryChunkSize_eq
      have hlen : (b :: bs).length = bs.length + 1 := rfl
      have hdrop : ∀ n, 0 < n → ((b :: bs).drop n).length ≤ fuel := by
        intro n hn
        rw [List.length_drop]
        omega
      have hread := hdrop (max 1 (min (readSize k) binaryChunkSize)) (by omega)
      rw [readBlocks_cons, areFull_cons_iff, fillsFrom_iff (List.cons_ne_nil b bs), Ne,
        readBlocks_eq_nil_iff _ _ _ hread, List.drop_eq_nil_iff, List.length_take]
      constructor
      · rintro ⟨hfirst, hrest⟩
        have hfills : min binaryChunkSize (b :: bs).length ≤ max 1 (readSize k) := by
          by_cases hend : (b :: bs).length ≤ max 1 (min (readSize k) binaryChunkSize)
          · omega
          · have hfull := hfirst hend
            omega
        rw [(take_of_fills hfills).2, ih (k + 1) (hdrop _ (by omega))] at hrest
        exact ⟨hfills, hrest⟩
      · rintro ⟨hfills, hrest⟩
        rw [(take_of_fills hfills).2, ih (k + 1) (hdrop _ (by omega))]
        exact ⟨by omega, hrest⟩

/-- Reads that fill the buffer cut a file in the same way. -/
theorem readBlocks_of_fillsFrom {readSize readSize' : Nat → Nat} {fuel : Nat} (k k' : Nat)
    {content : Bytes} (h : FillsFrom readSize k content) (h' : FillsFrom readSize' k' content) :
    readBlocks readSize fuel k content = readBlocks readSize' fuel k' content := by
  induction fuel generalizing k k' content with
  | zero => rfl
  | succ fuel ih =>
    cases content with
    | nil => rfl
    | cons b bs =>
      rw [fillsFrom_iff (List.cons_ne_nil b bs)] at h h'
      rw [readBlocks_cons, readBlocks_cons, (take_of_fills h.1).1, (take_of_fills h.1).2,
        (take_of_fills h'.1).1, (take_of_fills h'.1).2, ih (k + 1) (k' + 1) h.2 h'.2]

/-! ## 3. Hashing an image twice -/

section Hashes

variable {sha256 : Bytes → Text}

theorem hashifyBinary_eq (c : Chunker) {disk : Disk} {env : ReadEnv} {path : Text} {file : FileData}
    (hreads : env.failsAfter = none) (hfile : disk.readFile (c.fullPath path) = some file) :
    (c.hashifyBinary sha256 disk env path).2 =
      .ok ((blocks env file.content).map (hash sha256 · binaryHashSize)) := by
  simp only [hashifyBinary, hfile, hashifyChunks, hreads, blocks]

/-- Two hashings of one content, on any devices, agree on full chunks exactly when both fill the
buffer with every read. -/
theorem hashifyBinary_agree_iff (c c' : Chunker) {disk disk' : Disk} {env env' : ReadEnv}
    {path path' : Text} {file file' : FileData} (hreads : env.failsAfter = none)
    (hreads' : env'.failsAfter = none) (hfile : disk.readFile (c.fullPath path) = some file)
    (hfile' : disk'.readFile (c'.fullPath path') = some file')
    (hcontent : file'.content = file.content) :
    ((c.hashifyBinary sha256 disk env path).2 = (c'.hashifyBinary sha256 disk' env' path').2 ∧
        AreFull (blocks env file.content) ∧ AreFull (blocks env' file.content)) ↔
      FillsBuffer env file.content ∧ FillsBuffer env' file.content := by
  rw [hashifyBinary_eq c hreads hfile, hashifyBinary_eq c' hreads' hfile', hcontent]
  have hfull := areFull_readBlocks_iff env.readSize 0 (le_refl file.content.length)
  have hfull' := areFull_readBlocks_iff env'.readSize 0 (le_refl file.content.length)
  constructor
  · rintro ⟨-, h, h'⟩
    exact ⟨hfull.mp h, hfull'.mp h'⟩
  · rintro ⟨h, h'⟩
    refine ⟨?_, hfull.mpr h, hfull'.mpr h'⟩
    rw [blocks, blocks, readBlocks_of_fillsFrom 0 0 h h']

end Hashes

-- An image of two bytes, which are read one by one or at once.
def imageDisk : Disk :=
  FileTree.root.put (toUtf8 "a.jpg".toList) [] (.file ⟨[255, 216], ⟨0, 0⟩⟩)

theorem readFile_imageDisk :
    imageDisk.readFile (rootChunker.fullPath "a.jpg".toList) = some ⟨[255, 216], ⟨0, 0⟩⟩ := by
  decide

theorem hashifyBinary_agree_image :
    ((rootChunker.hashifyBinary recipeDigest imageDisk ⟨fun _ ↦ 4096, none⟩ "a.jpg".toList).2 =
        (rootChunker.hashifyBinary recipeDigest imageDisk ⟨fun _ ↦ 2, none⟩ "a.jpg".toList).2 ∧
      AreFull (blocks ⟨fun _ ↦ 4096, none⟩ [255, 216]) ∧
      AreFull (blocks ⟨fun _ ↦ 2, none⟩ [255, 216])) ↔
    FillsBuffer ⟨fun _ ↦ 4096, none⟩ [255, 216] ∧ FillsBuffer ⟨fun _ ↦ 2, none⟩ [255, 216] :=
  hashifyBinary_agree_iff rootChunker rootChunker rfl rfl readFile_imageDisk readFile_imageDisk rfl

theorem hashifyBinary_disagrees :
    ¬ ∀ (sha256 : Bytes → Text) (c : Chunker) (disk : Disk) (env env' : ReadEnv) (path : Text)
      (file : FileData), env.failsAfter = none → env'.failsAfter = none →
      disk.readFile (c.fullPath path) = some file →
      (c.hashifyBinary sha256 disk env path).2 = (c.hashifyBinary sha256 disk env' path).2 ∧
        AreFull (blocks env file.content) := by
  intro h
  have hagree := (h recipeDigest rootChunker imageDisk ⟨fun _ ↦ 1, none⟩ ⟨fun _ ↦ 2, none⟩
    "a.jpg".toList ⟨[255, 216], ⟨0, 0⟩⟩ rfl rfl readFile_imageDisk).1
  rw [hashifyBinary_eq _ rfl readFile_imageDisk, hashifyBinary_eq _ rfl readFile_imageDisk,
    Outcome.ok.injEq] at hagree
  -- two chunks against one
  have hlength := congrArg List.length hagree
  rw [List.length_map, List.length_map] at hlength
  exact absurd hlength (by decide)

end Chunker

end CooklangSync.Client
