import CooklangSync.Client.Chunker
import Mathlib.Data.List.TakeWhile

/-!
# Storage — what saving and deleting do to the files on disk

`save` opens the file for truncation before it looks the chunks up, so what a failed call leaves
behind depends on where it stopped (`save_allOrNothing_iff`).
-/

namespace CooklangSync.Client

open Theory

namespace Chunker

/-! ## 1. What the writer is handed -/

def contentAt (disk : Disk) (k : Place Name) : Option Bytes := (disk.fileAt k).map FileData.content

def chunkOf (c : Chunker) (hash : Text) : Bytes :=
  match c.cache.get hash with
  | .ok chunk => chunk
  | _ => []

/-- The concatenation of the chunks, when all of them are cached. -/
def cachedContent (c : Chunker) (hashes : List Text) : Option Bytes :=
  if hashes.all c.checkChunk then some (hashes.flatMap c.chunkOf) else none

-- The chunks that are written or tried, from the one with index `i` on.
def attempted (env : SaveEnv) (i : Nat) (hashes : List Text) : List Text :=
  match env.fault with
  | some (.write j) => if i ≤ j then hashes.take (j - i + 1) else hashes
  | _ => hashes

/-- The chunks up to the first that is missing or whose write fails; the latter included. -/
def handedOver (c : Chunker) (env : SaveEnv) (i : Nat) (hashes : List Text) : Bytes :=
  ((attempted env i hashes).takeWhile c.checkChunk).flatMap c.chunkOf

/-- All chunks are cached, and neither writing nor flushing fails. -/
def Completes (c : Chunker) (env : SaveEnv) (i : Nat) (hashes : List Text) : Prop :=
  (∀ hash ∈ hashes, c.checkChunk hash = true) ∧ env.fault ≠ some .flush ∧
    ∀ j, env.fault = some (.write j) → i + hashes.length ≤ j ∨ j < i

theorem get_of_checkChunk {c : Chunker} {hash : Text} (h : c.checkChunk hash = true) :
    c.cache.get hash = .ok (c.chunkOf hash) := by
  unfold checkChunk at h
  unfold chunkOf InMemoryCache.get
  by_cases hnil : hash = []
  · simp [hnil]
  · rw [if_neg hnil] at h ⊢
    obtain ⟨chunk, hchunk⟩ := Option.isSome_iff_exists.mp h
    simp [hchunk]

theorem get_of_not_checkChunk {c : Chunker} {hash : Text} (h : c.checkChunk hash = false) :
    c.cache.get hash = .err .getFromCacheError := by
  unfold checkChunk at h
  unfold InMemoryCache.get
  by_cases hnil : hash = []
  · simp [hnil] at h
  · rw [if_neg hnil] at h ⊢
    have hnone : c.cache.entries hash = none := by simpa [InMemoryCache.contains] using h
    rw [hnone, Outcome.okOr_none]

theorem attempted_cons {env : SaveEnv} {i : Nat} (h : env.fault ≠ some (.write i)) (hash : Text)
    (hashes : List Text) : attempted env i (hash :: hashes) = hash :: attempted env (i + 1) hashes := by
  unfold attempted
  split
  · rename_i j hj
    have hne : i ≠ j := fun heq ↦ h (heq ▸ hj)
    by_cases hle : i ≤ j
    · rw [if_pos hle, if_pos (by omega), show j - i + 1 = j - (i + 1) + 1 + 1 by omega]
      rfl
    · rw [if_neg hle, if_neg (by omega)]
  · rfl

theorem writeChunks_fst (c : Chunker) (env : SaveEnv) (path : Text) (i : Nat)
    (hashes : List Text) : (c.writeChunks env path i hashes).1 = c.handedOver env i hashes := by
  induction hashes generalizing i with
  | nil =>
    have hnil : attempted env i [] = [] := by
      unfold attempted
      split
      · simp
      · rfl
    rw [writeChunks, handedOver, hnil]
    rfl
  | cons hash hashes ih =>
    rw [writeChunks, handedOver]
    cases hcheck : c.checkChunk hash with
    | false =>
      rw [get_of_not_checkChunk hcheck]
      have hstop : (attempted env i (hash :: hashes)).takeWhile c.checkChunk = [] := by
        by_cases hi : env.fault = some (.write i)
        · simp [attempted, hi, hcheck]
        · simp [attempted_cons hi, hcheck]
      rw [hstop]
      rfl
    | true =>
      rw [get_of_checkChunk hcheck]
      by_cases hi : env.fault = some (.write i)
      · simp [attempted, hi, hcheck]
      · simp only [if_neg hi, ih (i + 1), handedOver]
        rw [attempted_cons hi, List.takeWhile_cons_of_pos hcheck, List.flatMap_cons]

theorem writeChunks_ok_iff (c : Chunker) (env : SaveEnv) (path : Text) (i : Nat)
    (hashes : List Text) :
    (c.writeChunks env path i hashes).2 = .ok () ↔ c.Completes env i hashes := by
  induction hashes generalizing i with
  | nil =>
    simp only [writeChunks, Completes, List.not_mem_nil, false_implies, implies_true, true_and,
      List.length_nil, Nat.add_zero]
    by_cases hflush : env.fault = some .flush
    · simp [hflush]
    · rw [if_neg hflush]
      refine ⟨fun _ ↦ ⟨hflush, fun j _ ↦ by omega⟩, fun _ ↦ rfl⟩
  | cons hash hashes ih =>
    rw [writeChunks]
    cases hcheck : c.checkChunk hash with
    | false =>
      rw [get_of_not_checkChunk hcheck]
      simp [Completes, hcheck]
    | true =>
      rw [get_of_checkChunk hcheck]
      by_cases hi : env.fault = some (.write i)
      · simp [Completes, hi]
      · simp only [if_neg hi, ih (i + 1)]
        unfold Completes
        rw [List.forall_mem_cons, List.length_cons]
        constructor
        · rintro ⟨hcached, hflush, hwrite⟩
          refine ⟨⟨hcheck, hcached⟩, hflush, fun j hj ↦ ?_⟩
          have hne : i ≠ j := fun heq ↦ hi (heq ▸ hj)
          have hj := hwrite j hj
          omega
        · rintro ⟨hcached, hflush, hwrite⟩
          refine ⟨hcached.2, hflush, fun j hj ↦ ?_⟩
          have hj := hwrite j hj
          omega

theorem writeChunks_not_panic (c : Chunker) (env : SaveEnv) (path : Text) (i : Nat)
    (hashes : List Text) : (c.writeChunks env path i hashes).2 ≠ .panic := by
  induction hashes generalizing i with
  | nil =>
    rw [writeChunks]
    split <;> simp
  | cons hash hashes ih =>
    rw [writeChunks]
    cases hcheck : c.checkChunk hash with
    | false => rw [get_of_not_checkChunk hcheck]; simp
    | true =>
      rw [get_of_checkChunk hcheck]
      by_cases hi : env.fault = some (.write i)
      · simp [hi]
      · simp only [if_neg hi]
        exact ih (i + 1)

/-- A writer that is not interrupted is handed all the chunks. -/
theorem handedOver_of_completes {c : Chunker} {env : SaveEnv} {hashes : List Text}
    (h : c.Completes env 0 hashes) : c.cachedContent hashes = some (c.handedOver env 0 hashes) := by
  have hall : attempted env 0 hashes = hashes := by
    unfold attempted
    split
    · rename_i j hj
      have hlen := h.2.2 j hj
      rw [if_pos (by omega), List.take_of_length_le (by omega)]
    · rfl
  rw [cachedContent, if_pos (List.all_eq_true.mpr h.1), handedOver, hall,
    List.takeWhile_eq_self_iff.mpr h.1]

/-! ## 2. What a save leaves on disk -/

/-- Opening the file only adds directories. -/
theorem openForSave_dirsAdded (c : Chunker) (disk : Disk) (env : SaveEnv) (path : Text) :
    FileTree.DirsAdded disk (c.openForSave disk env path).1 := by
  show FileTree.DirsAdded disk (c.createParents disk env path).1
  unfold createParents
  split
  · exact FileTree.DirsAdded.refl disk
  · split
    · exact disk.createDirs_dirsAdded _ _ _
    · exact disk.createDirs_dirsAdded _ _ _

theorem openForSave_some {c : Chunker} {disk disk' : Disk} {env : SaveEnv} {path : Text}
    {place : Name × Place Name} (h : c.openForSave disk env path = (disk', some place)) :
    c.createParents disk env path = (disk', true) ∧
      disk'.creatable (c.fullPath path) = some place := by
  rw [openForSave, Prod.mk.injEq] at h
  obtain ⟨hdisk, hplace⟩ := h
  split at hplace
  · rename_i hmade
    rw [← hdisk]
    exact ⟨Prod.ext rfl hmade.1, hplace⟩
  · cases hplace

theorem save_of_not_opened {c : Chunker} {disk disk' : Disk} {env : SaveEnv} {path : Text}
    (h : c.openForSave disk env path = (disk', none)) (hashes : List Text) :
    c.save disk env path hashes = (.err (.ioError path), disk') := by
  rw [save, h]

theorem save_of_completes {c : Chunker} {disk disk' : Disk} {env : SaveEnv} {path : Text}
    {n : Name} {k : Place Name} (h : c.openForSave disk env path = (disk', some (n, k)))
    {hashes : List Text} (hall : c.Completes env 0 hashes) :
    c.save disk env path hashes =
      (.ok (), disk'.put n k (.file ⟨c.handedOver env 0 hashes, env.now⟩)) := by
  have hok := (c.writeChunks_ok_iff env path 0 hashes).mpr hall
  rw [save, h, ← c.writeChunks_fst env path 0 hashes]
  simp only
  cases hw : c.writeChunks env path 0 hashes with
  | mk content outcome =>
    rw [hw] at hok
    cases hok
    rfl

theorem save_of_interrupted {c : Chunker} {disk disk' : Disk} {env : SaveEnv} {path : Text}
    {n : Name} {k : Place Name} (h : c.openForSave disk env path = (disk', some (n, k)))
    {hashes : List Text} (hstop : ¬ c.Completes env 0 hashes) :
    ∃ e, c.save disk env path hashes =
      (.err e, disk'.put n k (.file ⟨(c.handedOver env 0 hashes).take env.landed, env.now⟩)) := by
  have hok := fun hok ↦ hstop ((c.writeChunks_ok_iff env path 0 hashes).mp hok)
  have hpanic := c.writeChunks_not_panic env path 0 hashes
  rw [save, h, ← c.writeChunks_fst env path 0 hashes]
  simp only
  cases hw : c.writeChunks env path 0 hashes with
  | mk content outcome =>
    rw [hw] at hok hpanic
    cases outcome with
    | ok u => exact absurd rfl hok
    | err e => exact ⟨e, rfl⟩
    | panic => exact absurd rfl hpanic

/-! ## 3. All or nothing -/

/-- Either the call succeeds and the file holds the chunks, or it fails and no file has changed. -/
def AllOrNothing (c : Chunker) (disk : Disk) (path : Text) (hashes : List Text)
    (result : Outcome SyncError Unit × Disk) : Prop :=
  (result.1 = .ok () ∧ ∃ content, c.cachedContent hashes = some content ∧
    (result.2.readFile (c.fullPath path)).map FileData.content = some content) ∨
  ((∃ e, result.1 = .err e) ∧ ∀ k, contentAt result.2 k = contentAt disk k)

theorem contentAt_of_dirsAdded {disk disk' : Disk} (h : FileTree.DirsAdded disk disk')
    (k : Place Name) : contentAt disk' k = contentAt disk k := by
  rw [contentAt, h.fileAt, contentAt]

/-- Saving is all or nothing exactly when the file is not opened, or all its chunks are written, or
what a failed call has written is what the file held before. -/
theorem save_allOrNothing_iff (c : Chunker) (disk : Disk) (env : SaveEnv) (path : Text)
    (hashes : List Text) :
    c.AllOrNothing disk path hashes (c.save disk env path hashes) ↔
      ∀ disk' n k, c.openForSave disk env path = (disk', some (n, k)) →
        c.Completes env 0 hashes ∨
          contentAt disk (n :: k) = some ((c.handedOver env 0 hashes).take env.landed) := by
  cases hopen : c.openForSave disk env path with
  | mk disk' place =>
    have hadded := c.openForSave_dirsAdded disk env path
    rw [hopen] at hadded
    cases place with
    | none =>
      rw [save_of_not_opened hopen]
      have hsame := contentAt_of_dirsAdded hadded
      simp [AllOrNothing, hsame]
    | some place =>
      obtain ⟨n, k⟩ := place
      have hcreatable := (openForSave_some hopen).2
      have hself := fun data ↦ disk'.lookup_put_self (.file data)
        (FileTree.creatable_spec hcreatable).2.1 (FileTree.creatable_not_dir hcreatable)
      by_cases hall : c.Completes env 0 hashes
      · rw [save_of_completes hopen hall]
        have hread := FileTree.readFile_put hcreatable ⟨c.handedOver env 0 hashes, env.now⟩
        constructor
        · exact fun _ _ _ _ _ ↦ .inl hall
        · exact fun _ ↦ .inl ⟨rfl, _, handedOver_of_completes hall, by rw [hread]; rfl⟩
      · obtain ⟨e, hsave⟩ := save_of_interrupted hopen hall
        rw [hsave]
        have hplace : contentAt (disk'.put n k
            (.file ⟨(c.handedOver env 0 hashes).take env.landed, env.now⟩)) (n :: k) =
            some ((c.handedOver env 0 hashes).take env.landed) := by
          rw [contentAt, FileTree.fileAt, hself]
          rfl
        constructor
        · intro h _ _ _ heq
          cases heq
          rcases h with ⟨hok, -⟩ | ⟨-, hsame⟩
          · cases hok
          · exact .inr ((hsame _).symm.trans hplace)
        · intro h
          refine .inr ⟨⟨e, rfl⟩, fun l ↦ ?_⟩
          by_cases hl : l = n :: k
          · rw [hl, hplace]
            rcases h _ _ _ rfl with hdone | hsame
            · exact absurd hdone hall
            · exact hsame.symm
          · rw [contentAt, FileTree.fileAt, disk'.lookup_put_of_ne n k _ hl]
            exact contentAt_of_dirsAdded hadded l

-- The recipe holds one byte; the only chunk of its new version is not cached.
theorem save_truncates :
    ¬ ∀ (c : Chunker) (disk : Disk) (env : SaveEnv) (path : Text) (hashes : List Text),
      c.AllOrNothing disk path hashes (c.save disk env path hashes) := by
  intro h
  let chunker : Chunker := ⟨⟨fun _ ↦ none, 0, fun _ _ ↦ false⟩, parsePath "/".toList⟩
  let disk : Disk := FileTree.root.put (toUtf8 "a.cook".toList) [] (.file ⟨[120], ⟨0, 0⟩⟩)
  have hsaved := h chunker disk ⟨none, 0, ⟨1, 0⟩⟩ "a.cook".toList ["c".toList]
  have hresult : (chunker.save disk ⟨none, 0, ⟨1, 0⟩⟩ "a.cook".toList ["c".toList]).1 =
      .err .getFromCacheError := by decide
  have hafter : contentAt (chunker.save disk ⟨none, 0, ⟨1, 0⟩⟩ "a.cook".toList ["c".toList]).2
      [toUtf8 "a.cook".toList] = some [] := by decide
  have hbefore : contentAt disk [toUtf8 "a.cook".toList] = some [120] := by decide
  rcases hsaved with ⟨hok, -⟩ | ⟨-, hsame⟩
  · rw [hresult] at hok
    cases hok
  · have heq := hsame [toUtf8 "a.cook".toList]
    rw [hafter, hbefore] at heq
    exact absurd heq (by decide)

/-! ## 4. Plain paths below the base path -/

theorem fullPath_spells {c : Chunker} {base : Place Name} {path : Text} {names : List Name}
    (hbase : FileTree.Spells c.basePath base) (hplain : PlainPath path names) :
    FileTree.Spells (c.fullPath path) (names.reverse ++ base) := by
  have happ : (names.reverse ++ base).reverse = base.reverse ++ names := by simp
  refine ⟨?_, ?_⟩
  · rw [fullPath, Path.push, hplain, happ, List.map_append, ← hbase.1]
    rfl
  · rw [fullPath, Path.push, hplain]
    rfl

/-- Files and links stand where they stood, except at one place. -/
def SameExcept (k : Place Name) (disk disk' : Disk) : Prop :=
  ∀ s, s ≠ k → ∀ node, node ≠ .dir → (disk'.lookup s = some node ↔ disk.lookup s = some node)

theorem SameExcept.fileAt {k : Place Name} {disk disk' : Disk} (h : SameExcept k disk disk')
    {s : Place Name} (hs : s ≠ k) : disk'.fileAt s = disk.fileAt s := by
  ext data
  simp only [FileTree.fileAt_eq_some_iff]
  exact h s hs (.file data) (by simp)

theorem SameExcept.straight {k : Place Name} {disk disk' : Disk} (h : SameExcept k disk disk')
    (hk : ∀ target, disk'.lookup k ≠ some (.symlink target)) {j : Place Name}
    (hst : disk.Straight j) : disk'.Straight j := by
  intro s hs target hlink
  by_cases hsk : s = k
  · exact hk target (hsk ▸ hlink)
  · exact hst s hs target ((h s hsk (.symlink target) (by simp)).mp hlink)

theorem SameExcept.refl (k : Place Name) (disk : Disk) : SameExcept k disk disk :=
  fun _ _ _ _ ↦ Iff.rfl

theorem sameExcept_of_dirsAdded {disk disk' : Disk} (h : FileTree.DirsAdded disk disk')
    (k : Place Name) : SameExcept k disk disk' := by
  intro s _ node hnode
  rcases h s with h | ⟨h, h'⟩
  · rw [h]
  · rw [h, h']
    simp [Ne.symm hnode]

theorem SameExcept.trans {k : Place Name} {d₁ d₂ d₃ : Disk} (h₁ : SameExcept k d₁ d₂)
    (h₂ : SameExcept k d₂ d₃) : SameExcept k d₁ d₃ :=
  fun s hs node hnode ↦ (h₂ s hs node hnode).trans (h₁ s hs node hnode)

theorem sameExcept_put (disk : Disk) (n : Name) (k : Place Name) (node : Node Name FileData) :
    SameExcept (n :: k) disk (disk.put n k node) := by
  intro s hs _ _
  rw [disk.lookup_put_of_ne n k node hs]

section Effects

variable {c : Chunker} {disk : Disk} {base : Place Name} {path : Text} {n : Name}
  {k : Place Name} (hpath : FileTree.Spells (c.fullPath path) (n :: k))
  (hst : disk.Straight (n :: k))

include hpath hst

theorem creatable_place {disk' : Disk} (hadded : FileTree.DirsAdded disk disk')
    {place : Name × Place Name} (h : disk'.creatable (c.fullPath path) = some place) :
    place = (n, k) := by
  have hst' := hadded.straight hst
  obtain ⟨m, l⟩ := place
  have hspec := FileTree.creatable_spec h
  have hres := disk'.resolve_of_straight true hpath.1 hst'
  rw [FileTree.locate] at hres
  rcases hspec.1 with ⟨hfound, -⟩ | ⟨hmissing, -⟩
  · rw [hfound] at hres
    split at hres
    · cases hres; rfl
    · split at hres <;> cases hres
  · rw [hmissing] at hres
    split at hres
    · cases hres
    · split at hres
      · cases hres; rfl
      · cases hres

/-- Whatever comes of a save, it touches no other file, and leaves no link. -/
theorem save_sameExcept (env : SaveEnv) (hashes : List Text) :
    SameExcept (n :: k) disk (c.save disk env path hashes).2 ∧
      ∀ target, (c.save disk env path hashes).2.lookup (n :: k) ≠ some (.symlink target) := by
  cases hopen : c.openForSave disk env path with
  | mk disk' place =>
    have hadded := c.openForSave_dirsAdded disk env path
    rw [hopen] at hadded
    cases place with
    | none =>
      rw [save_of_not_opened hopen]
      exact ⟨sameExcept_of_dirsAdded hadded _, hadded.straight hst _ List.suffix_rfl⟩
    | some place =>
      have hcreatable := (openForSave_some hopen).2
      have hplace := creatable_place hpath hst hadded hcreatable
      rw [hplace] at hopen hcreatable
      have hself := fun data ↦ disk'.lookup_put_self (.file data)
        (FileTree.creatable_spec hcreatable).2.1 (FileTree.creatable_not_dir hcreatable)
      have hput := fun data ↦ (sameExcept_of_dirsAdded hadded (n :: k)).trans
        (sameExcept_put disk' n k (.file data))
      by_cases hall : c.Completes env 0 hashes
      · rw [save_of_completes hopen hall]
        exact ⟨hput _, fun target ↦ by rw [hself]; simp⟩
      · obtain ⟨e, hsave⟩ := save_of_interrupted hopen hall
        rw [hsave]
        exact ⟨hput _, fun target ↦ by rw [hself]; simp⟩

/-- A successful save leaves the chunks at the place of the path, below directories. -/
theorem save_ok {env : SaveEnv} {hashes : List Text} {disk' : Disk}
    (h : c.save disk env path hashes = (.ok (), disk')) :
    ∃ content, c.cachedContent hashes = some content ∧
      disk'.lookup (n :: k) = some (.file ⟨content, env.now⟩) ∧
      ∀ s, s ≠ n :: k → disk'.lookup s = if s <:+ k then some .dir else disk.lookup s := by
  cases hopen : c.openForSave disk env path with
  | mk made place =>
    cases place with
    | none => rw [save_of_not_opened hopen] at h; cases h
    | some place =>
      have hadded := c.openForSave_dirsAdded disk env path
      rw [hopen] at hadded
      obtain ⟨hparents, hcreatable⟩ := openForSave_some hopen
      have hplace := creatable_place hpath hst hadded hcreatable
      rw [hplace] at hopen hcreatable
      by_cases hall : c.Completes env 0 hashes
      · rw [save_of_completes hopen hall, Prod.mk.injEq] at h
        rw [← h.2]
        refine ⟨_, handedOver_of_completes hall,
          made.lookup_put_self _ (FileTree.creatable_spec hcreatable).2.1
            (FileTree.creatable_not_dir hcreatable), fun s hs ↦ ?_⟩
        rw [made.lookup_put_of_ne n k _ hs]
        -- the parent of the path spells the parent of the place
        have hcomps : (c.fullPath path).comps ≠ [] := by rw [hpath.1]; simp
        have hparent : (c.fullPath path).parent =
            some { c.fullPath path with comps := k.reverse.map .normal, trailing := false } := by
          rw [Path.parent, if_neg hcomps, hpath.1]
          simp
        have hstk : disk.Straight k := fun s hs ↦ hst s (hs.trans (List.suffix_cons n k))
        rw [createParents, hparent] at hparents
        simp only at hparents
        split at hparents
        · simp at hparents
        · have hspells : FileTree.Spells
              { c.fullPath path with comps := k.reverse.map .normal, trailing := false } k :=
            ⟨rfl, rfl⟩
          have hdirs := FileTree.createDirAll_of_straight hspells hstk (by rw [hparents]) s
          rw [hparents] at hdirs
          exact hdirs
      · obtain ⟨e, hsave⟩ := save_of_interrupted hopen hall
        rw [hsave] at h
        cases h

end Effects

/-- Going up from a directory below the base path removes empty directories strictly below it. -/
theorem removeEmptyDirs_spec {c : Chunker} {base : Place Name}
    (hbase : FileTree.Spells c.basePath base) (env : DeleteEnv) (i : Nat) (disk : Disk)
    {k : Place Name} (hk : base <:+ k) (hst : disk.Straight k) (s : Place Name) :
    (c.removeEmptyDirs env c.basePath.absolute i disk (k.map .normal)).lookup s = disk.lookup s ∨
      (disk.lookup s = some .dir ∧
        (c.removeEmptyDirs env c.basePath.absolute i disk (k.map .normal)).lookup s = none ∧
        s <:+ k ∧ base <:+ s ∧ s ≠ base) := by
  induction k generalizing i disk with
  | nil => exact .inl rfl
  | cons n k ih =>
    have hcomps : ((.normal n :: k.map .normal : List (Comp Name))).reverse =
        (n :: k).reverse.map .normal := by simp
    rw [List.map_cons, removeEmptyDirs]
    split
    · exact .inl rfl
    · rename_i hdir
      split
      · exact .inl rfl
      · have hne : base ≠ n :: k := by
          intro heq
          apply hdir
          rw [Path.sameComponents, hcomps, hbase.1, heq]
          simp
        have hbelow : base <:+ k := (List.suffix_cons_iff.mp hk).resolve_left hne
        rw [disk.removeDir_of_straight ⟨hcomps, rfl⟩ hst]
        by_cases hempty : disk.isDirAt (n :: k) = true ∧ n :: k ≠ [] ∧
            disk.hasChildren (n :: k) = false
        · rw [if_pos hempty]
          simp only
          have hself := disk.lookup_remove_self hempty.2.1 hempty.2.2
          have hother := fun l ↦ disk.lookup_remove_of_ne (n :: k) (s := l)
          have hst' : (disk.remove (n :: k)).Straight k := by
            intro l hl target hlink
            by_cases hln : l = n :: k
            · rw [hln, hself] at hlink
              cases hlink
            · rw [hother l hln] at hlink
              exact hst l (hl.trans (List.suffix_cons n k)) target hlink
          by_cases hs : s = n :: k
          · have hrec := ih (i + 1) (disk.remove (n :: k)) hbelow hst'
            rw [hs] at hrec ⊢
            rw [hself] at hrec
            refine .inr ⟨(disk.isDirAt_iff _).mp hempty.1, ?_, List.suffix_rfl, hk, hne.symm⟩
            rcases hrec with hrec | ⟨hrec, -⟩
            · exact hrec
            · cases hrec
          · have hrec := ih (i + 1) (disk.remove (n :: k)) hbelow hst'
            rw [hother s hs] at hrec
            exact hrec.imp_right fun hrec ↦
              ⟨hrec.1, hrec.2.1, hrec.2.2.1.trans (List.suffix_cons n k), hrec.2.2.2⟩
        · rw [if_neg hempty]
          exact .inl rfl

/-- A deletion that fails, as it does when there is no file, changes nothing; a successful one
removes the file and empty directories above it, up to the base path. -/
theorem delete_cases {c : Chunker} {base : Place Name} (hbase : FileTree.Spells c.basePath base)
    {path : Text} {names : List Name} (hplain : PlainPath path names) (hne : names ≠ [])
    (disk : Disk) (hst : disk.Straight (names.reverse ++ base)) (env : DeleteEnv) :
    ((env.removeFileFails = true ∨ disk.fileAt (names.reverse ++ base) = none) ∧
      ∃ e, c.delete disk env path = (.err e, disk)) ∨
      ∃ disk', c.delete disk env path = (.ok (), disk') ∧
        (disk.fileAt (names.reverse ++ base)).isSome ∧
        disk'.lookup (names.reverse ++ base) = none ∧
        ∀ s, s ≠ names.reverse ++ base → disk'.lookup s = disk.lookup s ∨
          (disk.lookup s = some .dir ∧ disk'.lookup s = none ∧
            s <:+ names.reverse ++ base ∧ base <:+ s ∧ s ≠ base) := by
  have hspells := fullPath_spells hbase hplain
  obtain ⟨n, k, hplace⟩ : ∃ n k, names.reverse ++ base = n :: k ∧ base <:+ k := by
    cases hrev : names.reverse with
    | nil => exact absurd (List.reverse_eq_nil_iff.mp hrev) hne
    | cons n k => exact ⟨n, k ++ base, rfl, List.suffix_append _ _⟩
  rw [hplace.1] at hst hspells ⊢
  rw [delete, disk.removeFile_of_straight hspells hst]
  cases hfile : disk.fileAt (n :: k) with
  | none =>
    have hnone : (if env.removeFileFails = true then none
        else (none : Option FileData).map fun _ ↦ disk.remove (n :: k)) = none := by
      split <;> rfl
    rw [hnone]
    exact .inl ⟨.inr rfl, .ioError path, rfl⟩
  | some data =>
    by_cases hfails : env.removeFileFails = true
    · exact .inl ⟨.inl hfails, .ioError path, by simp [hfails]⟩
    · rw [if_neg hfails]
      have hlookup := (disk.fileAt_eq_some_iff _ _).mp hfile
      have hleaf := disk.hasChildren_of_not_dir (k := n :: k) (by rw [hlookup]; simp)
      have hself := disk.lookup_remove_self (k := n :: k) (by simp) hleaf
      have hstk : (disk.remove (n :: k)).Straight k := by
        intro l hl target hlink
        by_cases hln : l = n :: k
        · rw [hln, hself] at hlink
          cases hlink
        · rw [disk.lookup_remove_of_ne _ hln] at hlink
          exact hst l (hl.trans (List.suffix_cons n k)) target hlink
      have hcomps : (c.fullPath path).comps.reverse.tail = k.map .normal := by
        rw [hspells.1]
        simp
      have habsolute : (c.fullPath path).absolute = c.basePath.absolute := by
        rw [fullPath, Path.push, hplain]
        rfl
      have hclean := removeEmptyDirs_spec hbase env 0 (disk.remove (n :: k)) hplace.2 hstk
      refine .inr ⟨_, rfl, rfl, ?_, fun s hs ↦ ?_⟩
      · rw [hcomps, habsolute]
        rcases hclean (n :: k) with heq | ⟨hdir, -⟩
        · rw [heq, hself]
        · rw [hself] at hdir
          cases hdir
      · rw [hcomps, habsolute]
        have hs' := hclean s
        rw [disk.lookup_remove_of_ne _ hs] at hs'
        exact hs'.imp_right fun h ↦
          ⟨h.1, h.2.1, h.2.2.1.trans (List.suffix_cons n k), h.2.2.2⟩

end Chunker

end CooklangSync.Client
