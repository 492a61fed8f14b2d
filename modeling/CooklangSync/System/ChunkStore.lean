import CooklangSync.Server.Metadata
import CooklangSync.Server.Uploads
import CooklangSync.Theory.Run

/-!
# Chunk store — uploads and commits of all users over one store of chunks

The handlers of uploads and commits run at the same time and share the store.  An upload empties
the file of its chunk, has it written piece by piece in the background, and removes it when the body
breaks off; its last write may land after it has ended.  A commit takes the chunks whose files exist
for present.  A record refers to whole chunks as long as no commit finds a file in which a write has
yet to land, and no chunk that a record refers to is uploaded again (`isAvailable_of_undisturbed`).
-/

namespace CooklangSync.System

open Theory Server

/-! ## 1. Runs -/

/-- A field that is being written, and how much of its content has been read. -/
structure Upload (P : Type) where
  chunk : Text
  file : OpenFile P
  read : Nat
  deriving DecidableEq, Repr

/-- A commit between its steps: the chunk ids it has found present and those it has yet to look
for, and whether it has compared itself to the latest record. -/
structure PendingCommit where
  userId : Int
  payload : CommitPayload
  found : List Text
  todo : List Text
  compared : Bool
  deriving DecidableEq, Repr

/-- The server with its requests `ι`.  `late` are the writes under way in files that are closed, and
`names` the ids under which files have been opened. -/
structure ChunkStore (ι P : Type) where
  files : Files P
  late : List LateWrite
  uploads : ι → Option (Upload P)
  commits : ι → Option PendingCommit
  journal : Journal
  names : List Text

/-- The steps of the handlers: opening the file of a chunk, queueing the next bytes of the field for
writing, its end, and its breaking off; the start of a commit, one file test, the comparison with the
latest record, and the insertion.  In the background what is queued lands, be its file open or
closed. -/
inductive StoreAction (ι : Type) where
  | create (h : ι) (chunk : Text) (faults : CreateFaults)
  | land (h : ι) (r : WriteResult)
  | append (h : ι) (count : Nat) (removed : Bool)
  | finish (h : ι)
  | fail (h : ι) (removed : Bool)
  | landLate (k : Nat) (r : WriteResult)
  | commit (h : ι) (userId : Int) (payload : CommitPayload)
  | check (h : ι)
  | compare (h : ι)
  | insert (h : ι)

/-- The bytes of the field that are read next. -/
def Upload.piece {P : Type} (u : Upload P) (bytesOf : Text → Bytes) (count : Nat) : Bytes :=
  ((bytesOf u.chunk).drop u.read).take count

/-- All writes of the upload that have landed so far have been whole. -/
def Upload.IsIntact {P : Type} (u : Upload P) : Prop :=
  u.file.offset + u.file.queued.length = u.read

def PendingCommit.record (k : PendingCommit) : NewFileRecord :=
  .fromPayloadAndUserId k.payload k.userId

namespace ChunkStore

section Runs

variable {ι P : Type} [DecidableEq ι] [DecidableEq P] (root : Path Name) (place : Path Name → P)
  (bytesOf : Text → Bytes)

def setUpload (σ : ChunkStore ι P) (h : ι) (u : Option (Upload P)) : ChunkStore ι P :=
  { σ with uploads := Function.update σ.uploads h u }

def setCommit (σ : ChunkStore ι P) (h : ι) (k : Option PendingCommit) : ChunkStore ι P :=
  { σ with commits := Function.update σ.commits h k }

/-- The place of the chunk's file. -/
def placeOf (c : Text) : Option P :=
  match (ChunkId.filePath root c : Outcome ChunkError _) with
  | .ok path => some (place path)
  | _ => none

def isPresent (σ : ChunkStore ι P) (c : Text) : Outcome ChunkError Bool :=
  ChunkId.isPresent root (fun path ↦ σ.files.exists (place path)) c

def next (σ : ChunkStore ι P) : StoreAction ι → Option (ChunkStore ι P)
  | .create h c faults =>
    if (σ.uploads h).isSome ∨ c = [] then none
    else
      match (ChunkId.filePath root c : Outcome ChunkError _) with
      | .ok path =>
        match openChunk place faults σ.files path with
        | (fs, none) => some { σ with files := fs }
        | (fs, some file) =>
          some (setUpload { σ with files := fs, names := c :: σ.names } h (some ⟨c, file, 0⟩))
      | _ => none
  | .land h r =>
    (σ.uploads h).map fun u ↦
      let landed := u.file.land r σ.files
      setUpload { σ with files := landed.1 } h (some { u with file := landed.2 })
  | .append h count removed =>
    (σ.uploads h).bind fun u ↦
      -- `write_all` waits for the write before
      if u.file.queued = [] ∧ u.piece bytesOf count ≠ [] then
        let w := u.file.writeAll removed σ.files (u.piece bytesOf count)
        some (setUpload { σ with files := w.1 } h
          (some ⟨u.chunk, w.2, u.read + (u.piece bytesOf count).length⟩))
      else none
  | .finish h =>
    (σ.uploads h).bind fun u ↦
      if u.read = (bytesOf u.chunk).length then
        some (setUpload { σ with late := σ.late ++ u.file.left } h none)
      else none
  | .fail h removed =>
    (σ.uploads h).map fun u ↦
      setUpload
        { σ with
          files := if removed then σ.files.remove u.file.place else σ.files
          late := σ.late ++ u.file.left } h none
  | .landLate k r =>
    (σ.late[k]?).map fun w ↦
      { σ with
        files := σ.files.write w.inode w.offset (r.landed w.bytes)
        late := σ.late.eraseIdx k }
  | .commit h userId payload =>
    if (σ.commits h).isSome then none
    else some (σ.setCommit h (some ⟨userId, payload, [], payload.chunkIds.splitOn ',', false⟩))
  | .check h =>
    (σ.commits h).bind fun k ↦
      match k.todo with
      | [] => none
      | c :: rest =>
        -- after an absent chunk the journal is no longer touched, whatever the others are
        if σ.isPresent root place c = .ok true then
          some (σ.setCommit h (some { k with found := k.found ++ [c], todo := rest }))
        else some (σ.setCommit h none)
  | .compare h =>
    (σ.commits h).bind fun k ↦
      if k.todo = [] ∧ k.compared = false then
        if (latestForPath σ.journal k.userId k.payload.path).any (isNoOp · k.record) then
          some (σ.setCommit h none)
        else some (σ.setCommit h (some { k with compared := true }))
      else none
  | .insert h =>
    (σ.commits h).bind fun k ↦
      if k.compared then
        some (setCommit { σ with journal := (insertNewRecord σ.journal k.record).2 } h none)
      else none

/-- No file, no request and no record. -/
def fresh (σ : ChunkStore ι P) : Prop :=
  (∀ p, σ.files.entry p = none) ∧ σ.late = [] ∧ (∀ h, σ.uploads h = none) ∧
    (∀ h, σ.commits h = none) ∧ σ.journal = Table.empty ∧ σ.names = []

def system : System (ChunkStore ι P) (StoreAction ι) where
  init := fresh
  step := next root place bytesOf

/-! ## 2. Availability, and undisturbed steps -/

/-- Every chunk of every record is in the store, whole. -/
def IsAvailable (σ : ChunkStore ι P) : Prop :=
  ∀ r ∈ σ.journal.rows, ∀ c ∈ r.chunkIds.splitOn ',', c ≠ [] →
    IsStored root place σ.files c (bytesOf c)

/-- A record has the chunk, or a commit has found it. -/
def IsReferred (σ : ChunkStore ι P) (c : Text) : Prop :=
  (∃ r ∈ σ.journal.rows, c ∈ r.chunkIds.splitOn ',') ∨
    ∃ h k, σ.commits h = some k ∧ c ∈ k.found

/-- The chunks have one file. -/
def SameFile (c d : Text) : Prop :=
  ∃ p, placeOf root place c = some p ∧ placeOf root place d = some p

/-- The file the upload has opened is still the one at its place. -/
def IsLinked (σ : ChunkStore ι P) (u : Upload P) : Prop :=
  σ.files.entry u.file.place = some u.file.inode

/-- The steps that disturb nothing. -/
def Undisturbed (σ : ChunkStore ι P) : StoreAction ι → Prop
  | .create _ c faults =>
    ∀ path, (ChunkId.filePath root c : Outcome ChunkError _) = .ok path →
      (openChunk place faults σ.files path).2.isSome →
        (∀ d, d ≠ [] → σ.IsReferred d → ¬ SameFile root place c d) ∧
        ∀ d ∈ σ.names, SameFile root place c d → bytesOf c = bytesOf d
  | .finish h => ∀ u, σ.uploads h = some u → σ.IsLinked u → u.IsIntact
  | .fail h removed => ∀ u, σ.uploads h = some u → σ.IsLinked u → removed = true
  | .landLate k r =>
    ∀ w p, σ.late[k]? = some w → σ.files.entry p = some w.inode → r.landed w.bytes = w.bytes
  | .check h =>
    ∀ k c rest p, σ.commits h = some k → k.todo = c :: rest → c ≠ [] →
      placeOf root place c = some p → σ.files.exists p = true →
        σ.files.isDir p = false ∧
        (∀ h' u, σ.uploads h' = some u → u.file.place ≠ p) ∧
        (∀ w ∈ σ.late, σ.files.entry p ≠ some w.inode) ∧
        ∀ d ∈ σ.names, SameFile root place c d → bytesOf c = bytesOf d
  | _ => True

end Runs

/-! ## 3. What holds in every state -/

section Invariants

variable {ι P : Type} (root : Path Name) (place : Path Name → P) (bytesOf : Text → Bytes)

/-- From the offset `k` on the file is still to become `b`: it is `b` already, or an upload goes on
there, or the last write of one that has ended goes there. -/
def Continues (σ : ChunkStore ι P) (i : Nat) (b : Bytes) (k : Nat) : Prop :=
  k = b.length ∨
  (∃ h u, σ.uploads h = some u ∧ u.file.inode = i ∧ u.IsIntact ∧ u.file.offset = k) ∨
  ∃ w ∈ σ.late, w.inode = i ∧ w.offset = k ∧ k + w.bytes.length = b.length

/-- The file is to become `b`.  Of an upload with a failed write nothing is known, but it does not end
before its file is removed. -/
def IsGrowing (σ : ChunkStore ι P) (i : Nat) (b : Bytes) : Prop :=
  (∃ k, σ.Continues i b k ∧ Fills b k (σ.files.data i)) ∨
  ∃ h u, σ.uploads h = some u ∧ u.file.inode = i ∧ ¬ u.IsIntact

structure UploadInv (σ : ChunkStore ι P) (u : Upload P) : Prop where
  name : u.chunk ∈ σ.names
  place : placeOf root place u.chunk = some u.file.place
  inode_lt : u.file.inode < σ.files.next
  offset_le : u.file.offset + u.file.queued.length ≤ u.read
  failed_lt : u.file.failed = true → u.file.offset + u.file.queued.length < u.read
  queued : u.IsIntact → u.file.queued <+: (bytesOf u.chunk).drop u.file.offset
  read_le : u.read ≤ (bytesOf u.chunk).length
  only : ∀ q, σ.files.entry q = some u.file.inode → q = u.file.place

/-- What is under way goes to a file that has been removed, or belongs where it goes. -/
structure LateInv (σ : ChunkStore ι P) (w : LateWrite) : Prop where
  inode_lt : w.inode < σ.files.next
  piece : ∀ q, σ.files.entry q = some w.inode →
    ∃ c ∈ σ.names, placeOf root place c = some q ∧ w.bytes <+: (bytesOf c).drop w.offset

structure FilesInv (σ : ChunkStore ι P) : Prop where
  names_agree : ∀ c ∈ σ.names, ∀ d ∈ σ.names, SameFile root place c d → bytesOf c = bytesOf d
  upload : ∀ h u, σ.uploads h = some u → UploadInv root place bytesOf σ u
  late : ∀ w ∈ σ.late, LateInv root place bytesOf σ w
  linked : ∀ p i, σ.files.entry p = some i →
    ∃ c ∈ σ.names, placeOf root place c = some p ∧ IsGrowing σ i (bytesOf c)

/-- The chunk is in the store, nobody is writing to its file, and nothing is under way in it. -/
def IsSettled (σ : ChunkStore ι P) (c : Text) : Prop :=
  ∃ p, placeOf root place c = some p ∧ σ.files.read p = some (bytesOf c) ∧
    (∀ h u, σ.uploads h = some u → u.file.place ≠ p) ∧
    ∀ w ∈ σ.late, σ.files.entry p ≠ some w.inode

structure RecordsInv (σ : ChunkStore ι P) : Prop where
  pending : ∀ h k, σ.commits h = some k →
    k.payload.chunkIds.splitOn ',' = k.found ++ k.todo ∧ (k.compared = true → k.todo = [])
  settled : ∀ c, c ≠ [] → σ.IsReferred c → IsSettled root place bytesOf σ c

structure Inv (σ : ChunkStore ι P) : Prop where
  files : FilesInv root place bytesOf σ
  records : RecordsInv root place bytesOf σ

variable {root place bytesOf} {σ : ChunkStore ι P}

theorem Inv.init (h : σ.fresh) : Inv root place bytesOf σ := by
  obtain ⟨hentry, hlate, huploads, hcommits, hjournal, hnames⟩ := h
  refine ⟨⟨?_, ?_, ?_, ?_⟩, ⟨?_, ?_⟩⟩
  · intro c hc
    rw [hnames] at hc
    cases hc
  · intro h u hu
    rw [huploads] at hu
    cases hu
  · intro w hw
    rw [hlate] at hw
    cases hw
  · intro p i hp
    rw [hentry] at hp
    cases hp
  · intro h k hk
    rw [hcommits] at hk
    cases hk
  · intro c _ href
    rcases href with ⟨r, hr, -⟩ | ⟨h, k, hk, -⟩
    · rw [hjournal] at hr
      cases hr
    · rw [hcommits] at hk
      cases hk

theorem SameFile.symm {c d : Text} (h : SameFile root place c d) : SameFile root place d c := by
  obtain ⟨p, hc, hd⟩ := h
  exact ⟨p, hd, hc⟩

/-- Two uploads of one file carry the same bytes. -/
theorem FilesInv.bytesOf_eq (hinv : FilesInv root place bytesOf σ) {h : ι} {u : Upload P}
    (hu : σ.uploads h = some u) {c : Text} (hc : c ∈ σ.names)
    (hplace : placeOf root place c = some u.file.place) : bytesOf u.chunk = bytesOf c :=
  hinv.names_agree _ (hinv.upload h u hu).name c hc ⟨_, (hinv.upload h u hu).place, hplace⟩

/-- Steps that touch neither files nor uploads. -/
theorem FilesInv.congr (hinv : FilesInv root place bytesOf σ) {τ : ChunkStore ι P}
    (hfiles : σ.files.SameFiles τ.files) (hlate : τ.late = σ.late) (huploads : τ.uploads = σ.uploads)
    (hnames : τ.names = σ.names) : FilesInv root place bytesOf τ where
  names_agree := by
    rw [hnames]
    exact hinv.names_agree
  upload := by
    intro h u hu
    have hup := hinv.upload h u (huploads ▸ hu)
    exact
      { hup with
        name := hnames ▸ hup.name
        inode_lt := hfiles.next ▸ hup.inode_lt
        only := fun q hq ↦ hup.only q (hfiles.entry ▸ hq) }
  late := by
    intro w hw
    have hold := hinv.late w (hlate ▸ hw)
    refine ⟨hfiles.next ▸ hold.inode_lt, fun q hq ↦ ?_⟩
    rw [hnames]
    exact hold.piece q (hfiles.entry ▸ hq)
  linked := by
    intro p i hp
    have hlinked := hinv.linked p i (hfiles.entry ▸ hp)
    unfold IsGrowing Continues
    rw [hfiles.data, huploads, hlate, hnames]
    exact hlinked

/-- A write that belongs where it goes. -/
theorem IsGrowing.overwrite {τ : ChunkStore ι P} {j : Nat} {b : Bytes} (hgrow : σ.IsGrowing j b)
    {offset : Nat} {bytes : Bytes} (hpiece : bytes <+: b.drop offset)
    (hdata : τ.files.data j = overwrite (σ.files.data j) offset bytes)
    (hnext : ∀ k, σ.Continues j b k →
      ∃ k', τ.Continues j b k' ∧ (k' ≤ k ∨ offset ≤ k ∧ k' ≤ offset + bytes.length))
    (hlost : ∀ h u, σ.uploads h = some u → u.file.inode = j → ¬ u.IsIntact →
      ∃ u', τ.uploads h = some u' ∧ u'.file.inode = j ∧ ¬ u'.IsIntact) : τ.IsGrowing j b := by
  rcases hgrow with ⟨k, hcontinues, hfills⟩ | ⟨h, u, hu, hinode, hfailed⟩
  · obtain ⟨k', hcontinues', hk'⟩ := hnext k hcontinues
    refine .inl ⟨k', hcontinues', ?_⟩
    rw [hdata]
    exact hfills.overwrite hpiece hk'
  · obtain ⟨u', hu', hinode', hfailed'⟩ := hlost h u hu hinode hfailed
    exact .inr ⟨h, u', hu', hinode', hfailed'⟩

/-- A step that does not touch the file. -/
theorem IsGrowing.of_same {τ : ChunkStore ι P} {j : Nat} {b : Bytes} (hgrow : σ.IsGrowing j b)
    (hdata : τ.files.data j = σ.files.data j)
    (hnext : ∀ k, σ.Continues j b k → τ.Continues j b k)
    (hlost : ∀ h u, σ.uploads h = some u → u.file.inode = j → ¬ u.IsIntact →
      ∃ u', τ.uploads h = some u' ∧ u'.file.inode = j ∧ ¬ u'.IsIntact) : τ.IsGrowing j b :=
  hgrow.overwrite List.nil_prefix (hdata.trans (overwrite_nil _ 0).symm)
    (fun k hk ↦ ⟨k, hnext k hk, .inl (Nat.le_refl k)⟩) hlost

/-- A step of one upload, which writes what belongs where it goes; the others go on as before. -/
theorem IsGrowing.of_upload {τ : ChunkStore ι P} {j : Nat} {b : Bytes} (hgrow : σ.IsGrowing j b)
    {h : ι} {u : Upload P} (hu : σ.uploads h = some u)
    (hothers : ∀ h', h' ≠ h → τ.uploads h' = σ.uploads h') (hlate : ∀ w ∈ σ.late, w ∈ τ.late)
    {offset : Nat} {bytes : Bytes} (hpiece : bytes <+: b.drop offset)
    (hdata : τ.files.data j = Theory.overwrite (σ.files.data j) offset bytes)
    (hintact : u.file.inode = j → u.IsIntact → ∃ k', τ.Continues j b k' ∧
      (k' ≤ u.file.offset ∨ offset ≤ u.file.offset ∧ k' ≤ offset + bytes.length))
    (hlost : u.file.inode = j → ¬ u.IsIntact →
      ∃ u', τ.uploads h = some u' ∧ u'.file.inode = j ∧ ¬ u'.IsIntact) : τ.IsGrowing j b := by
  have hcases : ∀ h' u', σ.uploads h' = some u' → h' = h ∧ u' = u ∨ τ.uploads h' = some u' := by
    intro h' u' hu'
    by_cases hh : h' = h
    · rw [hh, hu, Option.some.injEq] at hu'
      exact .inl ⟨hh, hu'.symm⟩
    · exact .inr ((hothers h' hh).trans hu')
  refine hgrow.overwrite hpiece hdata (fun k hk ↦ ?_) (fun h' u' hu' hinode hfailed ↦ ?_)
  · rcases hk with hdone | ⟨h', u', hu', hinode, hwhole, hoffset⟩ | ⟨w, hw, hrest⟩
    · exact ⟨k, .inl hdone, .inl (Nat.le_refl k)⟩
    · rcases hcases h' u' hu' with ⟨-, rfl⟩ | hsame
      · exact hoffset ▸ hintact hinode hwhole
      · exact ⟨k, .inr (.inl ⟨h', u', hsame, hinode, hwhole, hoffset⟩), .inl (Nat.le_refl k)⟩
    · exact ⟨k, .inr (.inr ⟨w, hlate w hw, hrest⟩), .inl (Nat.le_refl k)⟩
  · rcases hcases h' u' hu' with ⟨rfl, rfl⟩ | hsame
    · exact hlost hinode hfailed
    · exact ⟨u', hsame, hinode, hfailed⟩

theorem IsGrowing.of_upload_same {τ : ChunkStore ι P} {j : Nat} {b : Bytes}
    (hgrow : σ.IsGrowing j b) {h : ι} {u : Upload P} (hu : σ.uploads h = some u)
    (hothers : ∀ h', h' ≠ h → τ.uploads h' = σ.uploads h') (hlate : ∀ w ∈ σ.late, w ∈ τ.late)
    (hdata : τ.files.data j = σ.files.data j)
    (hintact : u.file.inode = j → u.IsIntact → τ.Continues j b u.file.offset)
    (hlost : u.file.inode = j → ¬ u.IsIntact →
      ∃ u', τ.uploads h = some u' ∧ u'.file.inode = j ∧ ¬ u'.IsIntact) : τ.IsGrowing j b :=
  hgrow.of_upload hu hothers hlate List.nil_prefix (hdata.trans (overwrite_nil _ 0).symm)
    (fun hinode hwhole ↦ ⟨_, hintact hinode hwhole, .inl (Nat.le_refl _)⟩) hlost

/-- The others go on as before. -/
theorem Continues.of_others {τ : ChunkStore ι P} {j k : Nat} {b : Bytes} (h : σ.Continues j b k)
    (huploads : ∀ h u, σ.uploads h = some u → u.file.inode = j → u.IsIntact → u.file.offset = k →
      τ.Continues j b k)
    (hlate : ∀ w ∈ σ.late, w.inode = j → w ∈ τ.late) : τ.Continues j b k := by
  rcases h with hdone | ⟨h, u, hu, hinode, hintact, hk⟩ | ⟨w, hw, hinode, hk⟩
  · exact .inl hdone
  · exact huploads h u hu hinode hintact hk
  · exact .inr (.inr ⟨w, hlate w hw hinode, hinode, hk⟩)

theorem isStored_of_isSettled {c : Text} (h : IsSettled root place bytesOf σ c) :
    IsStored root place σ.files c (bytesOf c) := by
  obtain ⟨p, hplace, hread, -, -⟩ := h
  unfold placeOf at hplace
  split at hplace
  · next path hpath =>
    rw [Option.some.injEq] at hplace
    exact ⟨path, hpath, hplace ▸ hread⟩
  · cases hplace

theorem IsSettled.place_ne {c : Text} (hc : IsSettled root place bytesOf σ c) {h : ι}
    {u : Upload P} (hu : σ.uploads h = some u) {p : P} (hp : placeOf root place c = some p) :
    u.file.place ≠ p := by
  obtain ⟨q, hq, -, hquiet, -⟩ := hc
  rw [hq, Option.some.injEq] at hp
  exact hp ▸ hquiet h u hu

/-- A settled file that a step leaves alone. -/
theorem IsSettled.of_same {c : Text} (hc : IsSettled root place bytesOf σ c) {τ : ChunkStore ι P}
    (hentry : ∀ p, placeOf root place c = some p → τ.files.entry p = σ.files.entry p)
    (hdata : ∀ p i, placeOf root place c = some p → σ.files.entry p = some i →
      τ.files.data i = σ.files.data i)
    (huploads : ∀ h u p, τ.uploads h = some u → placeOf root place c = some p →
      u.file.place ≠ p)
    (hlate : ∀ w ∈ τ.late, w ∈ σ.late ∨
      ∀ p, placeOf root place c = some p → σ.files.entry p ≠ some w.inode) :
    IsSettled root place bytesOf τ c := by
  obtain ⟨p, hp, hcontent, hquiet, hstill⟩ := hc
  refine ⟨p, hp, ?_, fun h u hu ↦ huploads h u p hu hp, fun w hw ↦ ?_⟩
  · rw [← hcontent, Files.read, Files.read, hentry p hp]
    cases hi : σ.files.entry p with
    | none => rfl
    | some i => rw [Option.map_some, Option.map_some, hdata p i hp hi]
  · rw [hentry p hp]
    rcases hlate w hw with hold | hother
    · exact hstill w hold
    · exact hother p hp

/-- Steps of uploads, which keep the settled files and open no other on them. -/
theorem RecordsInv.of_upload (hinv : RecordsInv root place bytesOf σ) {τ : ChunkStore ι P}
    (hcommits : τ.commits = σ.commits) (hjournal : τ.journal = σ.journal)
    (hkeep : ∀ c, c ≠ [] → σ.IsReferred c → IsSettled root place bytesOf σ c →
      IsSettled root place bytesOf τ c) : RecordsInv root place bytesOf τ where
  pending := by
    rw [hcommits]
    exact hinv.pending
  settled := by
    intro c hc href
    rw [IsReferred, hjournal, hcommits] at href
    exact hkeep c hc href (hinv.settled c hc href)

/-- A chunk that is found is settled, when no upload of its file is under way. -/
theorem isSettled_of_isPresent (hinv : FilesInv root place bytesOf σ) {c : Text} (hc : c ≠ [])
    (hpresent : σ.isPresent root place c = .ok true)
    (hquiet : ∀ p, placeOf root place c = some p → σ.files.exists p = true →
      σ.files.isDir p = false ∧ (∀ h u, σ.uploads h = some u → u.file.place ≠ p) ∧
      (∀ w ∈ σ.late, σ.files.entry p ≠ some w.inode) ∧
      ∀ d ∈ σ.names, SameFile root place c d → bytesOf c = bytesOf d) :
    IsSettled root place bytesOf σ c := by
  rw [isPresent, ChunkId.isPresent, if_neg hc] at hpresent
  obtain ⟨path, hpath, hexists⟩ := Outcome.bind_eq_ok hpresent
  have hexists : σ.files.exists (place path) = true := Outcome.ok.inj hexists
  have hplace : placeOf root place c = some (place path) := by
    simp only [placeOf, hpath]
  obtain ⟨hfile, hnone, hstill, hagree⟩ := hquiet _ hplace hexists
  rw [Files.exists, hfile, Bool.or_false] at hexists
  obtain ⟨i, hentry⟩ := Option.isSome_iff_exists.mp hexists
  obtain ⟨d, hd, hdplace, hgrow⟩ := hinv.linked _ i hentry
  have hnobody : ∀ h u, σ.uploads h = some u → u.file.inode ≠ i := by
    intro h u hu hinode
    exact hnone h u hu ((hinv.upload h u hu).only _ (hinode ▸ hentry)).symm
  refine ⟨place path, hplace, ?_, hnone, hstill⟩
  rw [hagree d hd ⟨_, hplace, hdplace⟩, Files.read, hentry]
  rcases hgrow with ⟨k, hcontinues, hfills⟩ | ⟨h, u, hu, hinode, -⟩
  · rcases hcontinues with hdone | ⟨h, u, hu, hinode, -, -⟩ | ⟨w, hw, hinode, -⟩
    · rw [hdone] at hfills
      exact congrArg some hfills.eq_of_length
    · exact absurd hinode (hnobody h u hu)
    · exact absurd (hinode ▸ hentry) (hstill w hw)
  · exact absurd hinode (hnobody h u hu)

end Invariants

section Steps

variable {ι P : Type} [DecidableEq ι] {root : Path Name} {place : Path Name → P}
  {bytesOf : Text → Bytes} {σ : ChunkStore ι P}

/-! ## 4. Steps of commits -/

/-- The commits of a state in which one has been added, changed or ended. -/
theorem commits_setCommit {h h' : ι} {k : Option PendingCommit} {k' : PendingCommit}
    (hk : (σ.setCommit h k).commits h' = some k') :
    (h' = h ∧ k = some k') ∨ (h' ≠ h ∧ σ.commits h' = some k') := by
  change Function.update σ.commits h k h' = some k' at hk
  by_cases heq : h' = h
  · rw [heq, Function.update_self] at hk
    exact .inl ⟨heq, hk⟩
  · rw [Function.update_of_ne heq] at hk
    exact .inr ⟨heq, hk⟩

/-- Steps of a commit, which refer to settled chunks only. -/
theorem RecordsInv.setCommit (hinv : RecordsInv root place bytesOf σ) (h : ι)
    {k : Option PendingCommit}
    (hpending : ∀ k', k = some k' → k'.payload.chunkIds.splitOn ',' = k'.found ++ k'.todo ∧
      (k'.compared = true → k'.todo = []))
    (hfound : ∀ k' c, k = some k' → c ∈ k'.found → c ≠ [] → IsSettled root place bytesOf σ c) :
    RecordsInv root place bytesOf (σ.setCommit h k) where
  pending := by
    intro h' k' hk'
    rcases commits_setCommit hk' with ⟨-, hnew⟩ | ⟨-, hold⟩
    · exact hpending k' hnew
    · exact hinv.pending h' k' hold
  settled := by
    intro c hc href
    rcases href with hrecord | ⟨h', k', hk', hmem⟩
    · exact hinv.settled c hc (.inl hrecord)
    · rcases commits_setCommit hk' with ⟨-, hnew⟩ | ⟨-, hold⟩
      · exact hfound k' c hnew hmem hc
      · exact hinv.settled c hc (.inr ⟨h', k', hold, hmem⟩)

theorem RecordsInv.insert (hinv : RecordsInv root place bytesOf σ) {h : ι} {k : PendingCommit}
    (hk : σ.commits h = some k) (hcompared : k.compared = true) :
    RecordsInv root place bytesOf
      (ChunkStore.setCommit { σ with journal := (insertNewRecord σ.journal k.record).2 } h none) := by
  have hpending := hinv.pending h k hk
  have hall : k.payload.chunkIds.splitOn ',' = k.found := by
    rw [hpending.1, hpending.2 hcompared, List.append_nil]
  have hinserted : RecordsInv root place bytesOf
      ({ σ with journal := (insertNewRecord σ.journal k.record).2 } : ChunkStore ι P) := by
    refine ⟨hinv.pending, ?_⟩
    intro c hc href
    apply hinv.settled c hc
    rcases href with ⟨r, hr, hmem⟩ | hfound
    · rcases List.mem_append.mp hr with hr | hr
      · exact .inl ⟨r, hr, hmem⟩
      · -- the chunks of the new record are those the commit has found
        rw [List.mem_singleton.mp hr] at hmem
        exact .inr ⟨h, k, hk, hall ▸ hmem⟩
    · exact .inr hfound
  apply hinserted.setCommit h
  · intro k' hk'
    cases hk'
  · intro k' _ hk'
    cases hk'

theorem Inv.setCommit (hinv : Inv root place bytesOf σ) (h : ι) {k : Option PendingCommit}
    (hpending : ∀ k', k = some k' → k'.payload.chunkIds.splitOn ',' = k'.found ++ k'.todo ∧
      (k'.compared = true → k'.todo = []))
    (hfound : ∀ k' c, k = some k' → c ∈ k'.found → c ≠ [] → IsSettled root place bytesOf σ c) :
    Inv root place bytesOf (σ.setCommit h k) :=
  ⟨hinv.files.congr ⟨rfl, rfl, rfl⟩ rfl rfl rfl, hinv.records.setCommit h hpending hfound⟩

theorem Inv.endCommit (hinv : Inv root place bytesOf σ) (h : ι) :
    Inv root place bytesOf (σ.setCommit h none) :=
  hinv.setCommit h (fun _ hnone ↦ by cases hnone) (fun _ _ hnone ↦ by cases hnone)

/-! ## 5. Steps of uploads -/

/-- The uploads of a state in which one has been added, changed or ended. -/
theorem uploads_setUpload {h h' : ι} {u : Option (Upload P)} {u' : Upload P}
    (hu : (σ.setUpload h u).uploads h' = some u') :
    (h' = h ∧ u = some u') ∨ (h' ≠ h ∧ σ.uploads h' = some u') := by
  change Function.update σ.uploads h u h' = some u' at hu
  by_cases heq : h' = h
  · rw [heq, Function.update_self] at hu
    exact .inl ⟨heq, hu⟩
  · rw [Function.update_of_ne heq] at hu
    exact .inr ⟨heq, hu⟩

theorem uploads_setUpload_of_ne {h h' : ι} (u : Option (Upload P)) (hne : h' ≠ h) :
    (σ.setUpload h u).uploads h' = σ.uploads h' :=
  Function.update_of_ne hne ..

theorem uploads_setUpload_self (h : ι) (u : Option (Upload P)) :
    (σ.setUpload h u).uploads h = u :=
  Function.update_self ..

variable (bytesOf) in
/-- The bytes that an upload reads go where it writes. -/
theorem piece_isPrefixOf (u : Upload P) (count : Nat) :
    u.piece bytesOf count <+: (bytesOf u.chunk).drop u.read :=
  List.take_prefix _ _

variable (bytesOf) in
theorem length_piece_le (u : Upload P) (count : Nat) :
    (u.piece bytesOf count).length ≤ (bytesOf u.chunk).length - u.read := by
  have hle := (piece_isPrefixOf bytesOf u count).length_le
  rwa [List.length_drop] at hle

/-- What an upload leaves under way ends its file, when all its writes have been whole. -/
theorem mem_left_of_isIntact {u : Upload P} (hread : u.read = (bytesOf u.chunk).length)
    (hintact : u.IsIntact) :
    u.file.offset = (bytesOf u.chunk).length ∨
      ⟨u.file.inode, u.file.offset, u.file.queued⟩ ∈ u.file.left ∧
        u.file.offset + u.file.queued.length = (bytesOf u.chunk).length := by
  have hlength : u.file.offset + u.file.queued.length = u.read := hintact
  by_cases hnil : u.file.queued = []
  · rw [hnil, List.length_nil] at hlength
    exact .inl (by omega)
  · exact .inr ⟨u.file.mem_left.mpr ⟨hnil, rfl⟩, by omega⟩

/-- An upload ends: by then its file is whole but for the write it leaves under way, or is no longer
there. -/
theorem FilesInv.finish (hinv : FilesInv root place bytesOf σ) {h : ι} {u : Upload P}
    (hu : σ.uploads h = some u) (hread : u.read = (bytesOf u.chunk).length)
    (hintact : σ.IsLinked u → u.IsIntact) :
    FilesInv root place bytesOf (setUpload { σ with late := σ.late ++ u.file.left } h none) where
  names_agree := hinv.names_agree
  upload := by
    intro h' u' hu'
    rcases uploads_setUpload hu' with ⟨-, hnew⟩ | ⟨-, hold⟩
    · cases hnew
    · exact { hinv.upload h' u' hold with }
  late := by
    intro w hw
    rcases List.mem_append.mp hw with hold | hnew
    · exact ⟨(hinv.late w hold).inode_lt, (hinv.late w hold).piece⟩
    · have hup := hinv.upload h u hu
      obtain ⟨-, rfl⟩ := u.file.mem_left.mp hnew
      refine ⟨hup.inode_lt, fun q hq ↦ ?_⟩
      obtain rfl := hup.only q hq
      exact ⟨u.chunk, hup.name, hup.place, hup.queued (hintact hq)⟩
  linked := by
    intro q j hq
    obtain ⟨c, hc, hplace, hgrow⟩ := hinv.linked q j hq
    have hup := hinv.upload h u hu
    have hself : u.file.inode = j → u.IsIntact ∧ bytesOf u.chunk = bytesOf c := by
      intro hinode
      have hq' : σ.files.entry q = some u.file.inode := hinode ▸ hq
      have hqp := hup.only q hq'
      exact ⟨hintact (by rw [IsLinked, ← hqp, hq']), hinv.bytesOf_eq hu hc (hqp ▸ hplace)⟩
    refine ⟨c, hc, hplace, hgrow.of_upload_same hu (fun _ hh ↦ uploads_setUpload_of_ne _ hh)
      (fun w hw ↦ List.mem_append_left _ hw) rfl (fun hinode _ ↦ ?_)
      fun hinode hlost ↦ absurd (hself hinode).1 hlost⟩
    obtain ⟨hnow, hbytes⟩ := hself hinode
    rcases mem_left_of_isIntact hread hnow with hdone | ⟨hleft, hlast⟩
    · exact .inl (by rw [hdone, hbytes])
    · refine .inr (.inr ⟨_, List.mem_append_right _ hleft, hinode, rfl, ?_⟩)
      rw [← hbytes]
      exact hlast

omit [DecidableEq ι] in
theorem UploadInv.land {u : Upload P} (hup : UploadInv root place bytesOf σ u) (r : WriteResult) :
    UploadInv root place bytesOf { σ with files := (u.file.land r σ.files).1 }
      { u with file := (u.file.land r σ.files).2 } where
  name := hup.name
  place := hup.place
  inode_lt := hup.inode_lt
  offset_le := by
    have hoffset := hup.offset_le
    have hlanded := (r.landed_isPrefixOf u.file.queued).length_le
    change u.file.offset + (r.landed u.file.queued).length + 0 ≤ u.read
    omega
  failed_lt := by
    intro hfailed
    have hoffset := hup.offset_le
    have hlanded := (r.landed_isPrefixOf u.file.queued).length_le
    change u.file.offset + (r.landed u.file.queued).length + 0 < u.read
    change (u.file.failed || decide (_ < _)) = true at hfailed
    rw [Bool.or_eq_true, decide_eq_true_eq] at hfailed
    rcases hfailed with hfailed | hshort
    · have hlt := hup.failed_lt hfailed
      omega
    · omega
  queued _ := List.nil_prefix
  read_le := hup.read_le
  only := hup.only

/-- What an upload has queued lands. -/
theorem FilesInv.land (hinv : FilesInv root place bytesOf σ) {h : ι} {u : Upload P}
    (hu : σ.uploads h = some u) (r : WriteResult) :
    FilesInv root place bytesOf
      (setUpload { σ with files := (u.file.land r σ.files).1 } h
        (some { u with file := (u.file.land r σ.files).2 })) where
  names_agree := hinv.names_agree
  upload := by
    intro h' u' hu'
    rcases uploads_setUpload hu' with ⟨-, hnew⟩ | ⟨-, hold⟩
    · obtain rfl := Option.some.inj hnew
      exact { (hinv.upload h u hu).land r with }
    · exact { hinv.upload h' u' hold with }
  late := fun w hw ↦ ⟨(hinv.late w hw).inode_lt, (hinv.late w hw).piece⟩
  linked := by
    intro q j hq
    obtain ⟨c, hc, hplace, hgrow⟩ := hinv.linked q j hq
    refine ⟨c, hc, hplace, ?_⟩
    have hup := hinv.upload h u hu
    by_cases hj : u.file.inode = j
    · by_cases hwhole : u.IsIntact ∧ r.landed u.file.queued = u.file.queued
      · -- the write belongs where it lands
        have hpiece : u.file.queued <+: (bytesOf c).drop u.file.offset := by
          rw [← hinv.bytesOf_eq hu hc (hup.only q (hj ▸ hq) ▸ hplace)]
          exact hup.queued hwhole.1
        refine hgrow.of_upload hu (fun _ hh ↦ uploads_setUpload_of_ne _ hh) (fun _ hw ↦ hw) hpiece
          ?_ (fun _ hintact ↦ ?_) fun _ hlost ↦ absurd hwhole.1 hlost
        · rw [← hj]
          refine (u.file.data_land_self r σ.files).trans ?_
          rw [hwhole.2]
        · refine ⟨u.file.offset + u.file.queued.length, .inr (.inl ⟨h, _, uploads_setUpload_self h _,
            hj, ?_, ?_⟩), .inr ⟨Nat.le_refl _, Nat.le_refl _⟩⟩
          · change u.file.offset + (r.landed u.file.queued).length + 0 = u.read
            rw [hwhole.2]
            exact hintact
          · change u.file.offset + (r.landed u.file.queued).length = _
            rw [hwhole.2]
      · -- a write has been lost
        refine .inr ⟨h, _, uploads_setUpload_self h _, hj, fun hnow ↦ hwhole ?_⟩
        have hnow : u.file.offset + (r.landed u.file.queued).length + 0 = u.read := hnow
        have hoffset := hup.offset_le
        have hstart := r.landed_isPrefixOf u.file.queued
        have hlen := hstart.length_le
        refine ⟨?_, hstart.eq_of_length (by omega)⟩
        change u.file.offset + u.file.queued.length = u.read
        omega
    · exact hgrow.of_upload_same hu (fun _ hh ↦ uploads_setUpload_of_ne _ hh) (fun _ hw ↦ hw)
        (u.file.data_land_of_ne r σ.files (Ne.symm hj)) (fun hinode ↦ absurd hinode hj)
        fun hinode ↦ absurd hinode hj

omit [DecidableEq ι] in
/-- A write that an upload has left behind lands whole, or goes to a file that has been removed. -/
theorem FilesInv.landLate (hinv : FilesInv root place bytesOf σ) {k : Nat} {w : LateWrite}
    (hw : σ.late[k]? = some w) {landed : Bytes}
    (hwhole : ∀ p, σ.files.entry p = some w.inode → landed = w.bytes) :
    FilesInv root place bytesOf
      { σ with files := σ.files.write w.inode w.offset landed, late := σ.late.eraseIdx k } where
  names_agree := hinv.names_agree
  upload h u hu := { hinv.upload h u hu with }
  late w' hw' := { hinv.late w' (List.mem_of_mem_eraseIdx hw') with }
  linked := by
    intro q j hq
    obtain ⟨c, hc, hplace, hgrow⟩ := hinv.linked q j hq
    refine ⟨c, hc, hplace, ?_⟩
    have hothers : ∀ w' ∈ σ.late, w' ≠ w → w' ∈ σ.late.eraseIdx k := by
      intro w' hw' hne
      obtain ⟨i, hi⟩ := List.mem_iff_getElem?.mp hw'
      refine List.mem_eraseIdx_iff_getElem?.mpr ⟨i, ?_, hi⟩
      rintro rfl
      rw [hw, Option.some.injEq] at hi
      exact hne hi.symm
    have hmem : w ∈ σ.late := List.mem_of_getElem? hw
    by_cases hj : j = w.inode
    · have hq' : σ.files.entry q = some w.inode := hj ▸ hq
      obtain ⟨d, hd, hdplace, hpiece⟩ := (hinv.late w hmem).piece q hq'
      rw [hinv.names_agree d hd c hc ⟨q, hdplace, hplace⟩] at hpiece
      refine hgrow.overwrite hpiece ?_ (fun i hi ↦ ?_) fun h u hu hinode hlost ↦
        ⟨u, hu, hinode, hlost⟩
      · rw [hj, ← hwhole q hq']
        exact Files.data_write_self ..
      · rcases hi with hdone | hup | ⟨w', hw', hinode, hoffset, hlength⟩
        · exact ⟨i, .inl hdone, .inl (Nat.le_refl i)⟩
        · exact ⟨i, .inr (.inl hup), .inl (Nat.le_refl i)⟩
        · by_cases heq : w' = w
          · -- the write that lands is the one that ends the file
            rw [heq] at hoffset hlength
            exact ⟨_, .inl rfl, .inr ⟨Nat.le_of_eq hoffset, by omega⟩⟩
          · exact ⟨i, .inr (.inr ⟨w', hothers w' hw' heq, hinode, hoffset, hlength⟩),
              .inl (Nat.le_refl i)⟩
    · refine hgrow.of_same (Files.data_write_of_ne _ hj _ _) (fun i hi ↦ ?_)
        fun h u hu hinode hlost ↦ ⟨u, hu, hinode, hlost⟩
      refine hi.of_others (fun h u hu hinode hintact hoffset ↦
        .inr (.inl ⟨h, u, hu, hinode, hintact, hoffset⟩)) fun w' hw' hinode ↦ hothers w' hw' ?_
      rintro rfl
      exact hj hinode.symm

variable [DecidableEq P]

theorem FilesInv.create (hinv : FilesInv root place bytesOf σ) {h : ι} (hfree : σ.uploads h = none)
    {c : Text} {p : P} (hp : placeOf root place c = some p)
    (hagree : ∀ d ∈ σ.names, SameFile root place c d → bytesOf c = bytesOf d)
    {fs : Files P} {inode : Nat} (hcreated : σ.files.Created p fs inode) :
    FilesInv root place bytesOf
      (setUpload { σ with files := fs, names := c :: σ.names } h
        (some ⟨c, ⟨p, inode, 0, [], false⟩, 0⟩)) where
  names_agree := by
    intro a ha b hb hsame
    rcases List.mem_cons.mp ha with hac | ha'
    · rw [hac] at hsame ⊢
      rcases List.mem_cons.mp hb with hbc | hb'
      · rw [hbc]
      · exact hagree b hb' hsame
    · rcases List.mem_cons.mp hb with hbc | hb'
      · rw [hbc] at hsame ⊢
        exact (hagree a ha' hsame.symm).symm
      · exact hinv.names_agree a ha' b hb' hsame
  upload := by
    intro h' u' hu'
    rcases uploads_setUpload hu' with ⟨-, hnew⟩ | ⟨-, hold⟩
    · obtain rfl := Option.some.inj hnew
      exact
        { name := List.mem_cons_self
          place := hp
          inode_lt := fs.entry_lt p inode hcreated.entry_self
          offset_le := Nat.le_refl 0
          failed_lt := fun hfailed ↦ by cases hfailed
          queued := fun _ ↦ List.nil_prefix
          read_le := Nat.zero_le _
          only := fun q hq ↦ fs.entry_inj q p inode hq hcreated.entry_self }
    · have hup := hinv.upload h' u' hold
      exact
        { hup with
          name := List.mem_cons_of_mem c hup.name
          inode_lt := Nat.lt_of_lt_of_le hup.inode_lt hcreated.next_le
          only := fun q hq ↦ hup.only q (hcreated.entry_of_lt hq hup.inode_lt) }
  late := by
    intro w hw
    have hold := hinv.late w hw
    refine ⟨Nat.lt_of_lt_of_le hold.inode_lt hcreated.next_le, fun q hq ↦ ?_⟩
    obtain ⟨d, hd, hplace, hpiece⟩ := hold.piece q (hcreated.entry_of_lt hq hold.inode_lt)
    exact ⟨d, List.mem_cons_of_mem c hd, hplace, hpiece⟩
  linked := by
    intro q j hq
    change fs.entry q = some j at hq
    by_cases hqp : q = p
    · rw [hqp, hcreated.entry_self, Option.some.injEq] at hq
      refine ⟨c, List.mem_cons_self, hqp ▸ hp, .inl ⟨0, .inr (.inl ⟨h, _,
        uploads_setUpload_self h _, hq, rfl, rfl⟩), ?_⟩⟩
      change Fills (bytesOf c) 0 (fs.data j)
      rw [← hq, hcreated.data_self]
      exact Fills.start _
    · have hj : j ≠ inode := fun heq ↦
        hqp (fs.entry_inj q p inode (heq ▸ hq) hcreated.entry_self)
      rw [hcreated.entry_other q hqp] at hq
      obtain ⟨d, hd, hplace, hgrow⟩ := hinv.linked q j hq
      have hothers : ∀ h' u', σ.uploads h' = some u' → (setUpload
          { σ with files := fs, names := c :: σ.names } h
            (some ⟨c, ⟨p, inode, 0, [], false⟩, 0⟩)).uploads h' = some u' := by
        intro h' u' hu'
        refine (uploads_setUpload_of_ne _ ?_).trans hu'
        rintro rfl
        rw [hfree] at hu'
        cases hu'
      refine ⟨d, List.mem_cons_of_mem c hd, hplace, hgrow.of_same (hcreated.data_other j hj)
        (fun k hk ↦ ?_) fun h' u' hu' hinode hlost ↦ ⟨u', hothers h' u' hu', hinode, hlost⟩⟩
      exact hk.of_others (fun h' u' hu' hinode hintact hoffset ↦ .inr (.inl ⟨h', u',
        hothers h' u' hu', hinode, hintact, hoffset⟩)) fun _ hw _ ↦ hw

omit [DecidableEq ι] in
theorem UploadInv.append {u : Upload P} (hup : UploadInv root place bytesOf σ u)
    (hqueued : u.file.queued = []) (count : Nat) (removed : Bool)
    (hne : u.piece bytesOf count ≠ []) :
    UploadInv root place bytesOf
      { σ with files := (u.file.writeAll removed σ.files (u.piece bytesOf count)).1 }
      ⟨u.chunk, (u.file.writeAll removed σ.files (u.piece bytesOf count)).2,
        u.read + (u.piece bytesOf count).length⟩ := by
  have hoffset := hup.offset_le
  have hread := hup.read_le
  have hpiece := length_piece_le bytesOf u count
  have hqueue := u.file.queued_writeAll removed σ.files (u.piece bytesOf count) hqueued
  rw [hqueued, List.length_nil] at hoffset
  have hle : (u.file.writeAll removed σ.files (u.piece bytesOf count)).2.queued.length ≤
      (u.piece bytesOf count).length := by
    rw [hqueue]
    split
    · exact Nat.zero_le _
    · exact Nat.le_refl _
  exact
    { name := hup.name
      place := by
        rw [OpenFile.place_writeAll]
        exact hup.place
      inode_lt := by
        rw [OpenFile.inode_writeAll]
        exact Nat.lt_of_lt_of_eq hup.inode_lt (OpenFile.next_writeAll ..).symm
      offset_le := by
        change (u.file.writeAll _ _ _).2.offset + (u.file.writeAll _ _ _).2.queued.length ≤ _ + _
        rw [OpenFile.offset_writeAll]
        omega
      failed_lt := by
        intro hfailed
        rw [OpenFile.failed_writeAll] at hfailed
        cases hfailed
      queued := by
        intro hintact
        change _ + _ = u.read + _ at hintact
        rw [OpenFile.offset_writeAll] at hintact ⊢
        -- a piece that is dropped is missing at the end
        have hfailed : u.file.failed ≠ true := by
          intro hfailed
          rw [hqueue, if_pos hfailed, List.length_nil] at hintact
          have hpos : 0 < (u.piece bytesOf count).length := List.length_pos_iff.mpr hne
          omega
        rw [hqueue, if_neg hfailed] at hintact ⊢
        rw [show u.file.offset = u.read by omega]
        exact piece_isPrefixOf bytesOf u count
      read_le := by
        change u.read + _ ≤ (bytesOf u.chunk).length
        omega
      only := fun q hq ↦ by
        rw [OpenFile.place_writeAll]
        rw [OpenFile.inode_writeAll] at hq
        exact hup.only q (OpenFile.entry_of_writeAll hq) }

/-- The next bytes are queued, or dropped with the file when a write has failed. -/
theorem FilesInv.append (hinv : FilesInv root place bytesOf σ) {h : ι} {u : Upload P}
    (hu : σ.uploads h = some u) (hqueued : u.file.queued = []) (count : Nat) (removed : Bool)
    (hne : u.piece bytesOf count ≠ []) :
    FilesInv root place bytesOf
      (setUpload { σ with files := (u.file.writeAll removed σ.files (u.piece bytesOf count)).1 } h
        (some ⟨u.chunk, (u.file.writeAll removed σ.files (u.piece bytesOf count)).2,
          u.read + (u.piece bytesOf count).length⟩)) where
  names_agree := hinv.names_agree
  upload := by
    intro h' u' hu'
    rcases uploads_setUpload hu' with ⟨-, hnew⟩ | ⟨-, hold⟩
    · obtain rfl := Option.some.inj hnew
      exact { (hinv.upload h u hu).append hqueued count removed hne with }
    · have hother := hinv.upload h' u' hold
      exact
        { hother with
          inode_lt := Nat.lt_of_lt_of_eq hother.inode_lt (OpenFile.next_writeAll ..).symm
          only := fun q hq ↦ hother.only q (OpenFile.entry_of_writeAll hq) }
  late := by
    intro w hw
    have hold := hinv.late w hw
    exact ⟨Nat.lt_of_lt_of_eq hold.inode_lt (OpenFile.next_writeAll ..).symm,
      fun q hq ↦ hold.piece q (OpenFile.entry_of_writeAll hq)⟩
  linked := by
    intro q j hq
    obtain ⟨c, hc, hplace, hgrow⟩ := hinv.linked q j (OpenFile.entry_of_writeAll hq)
    have hup := hinv.upload h u hu
    refine ⟨c, hc, hplace, hgrow.of_upload_same hu (fun _ hh ↦ uploads_setUpload_of_ne _ hh)
      (fun _ hw ↦ hw) (congrFun (OpenFile.data_writeAll ..) j) (fun hinode hintact ↦ ?_)
      fun hinode hlost ↦ ?_⟩
    · have hfailed : u.file.failed ≠ true := fun hfailed ↦
        absurd hintact (Nat.ne_of_lt (hup.failed_lt hfailed))
      refine .inr (.inl ⟨h, _, uploads_setUpload_self h _, ?_, ?_, OpenFile.offset_writeAll ..⟩)
      · exact (OpenFile.inode_writeAll ..).trans hinode
      · change (OpenFile.writeAll _ _ _ _).2.offset + _ = u.read + _
        rw [OpenFile.offset_writeAll, u.file.queued_writeAll _ _ _ hqueued, if_neg hfailed]
        have hread : u.file.offset + u.file.queued.length = u.read := hintact
        rw [hqueued, List.length_nil] at hread
        omega
    · refine ⟨_, uploads_setUpload_self h _, (OpenFile.inode_writeAll ..).trans hinode,
        fun hnow ↦ hlost ?_⟩
      have hoffset := hup.offset_le
      change (OpenFile.writeAll _ _ _ _).2.offset + _ = u.read + _ at hnow
      change u.file.offset + _ = u.read
      rw [OpenFile.offset_writeAll, u.file.queued_writeAll _ _ _ hqueued] at hnow
      rw [hqueued, List.length_nil] at hoffset ⊢
      split at hnow
      · rw [List.length_nil] at hnow
        omega
      · omega

/-- An upload breaks off, and its file goes. -/
theorem FilesInv.fail (hinv : FilesInv root place bytesOf σ) {h : ι} {u : Upload P}
    (hu : σ.uploads h = some u) {fs : Files P}
    (hfs : fs = σ.files.remove u.file.place ∨ fs = σ.files ∧ ¬ σ.IsLinked u) :
    FilesInv root place bytesOf
      (setUpload { σ with files := fs, late := σ.late ++ u.file.left } h none) := by
  have hentry : ∀ q i, fs.entry q = some i → σ.files.entry q = some i := by
    intro q i hq
    rcases hfs with rfl | ⟨rfl, -⟩
    · exact (σ.files.entry_of_remove hq).2
    · exact hq
  have hdata : fs.data = σ.files.data := by
    rcases hfs with rfl | ⟨rfl, -⟩ <;> rfl
  have hnext : fs.next = σ.files.next := by
    rcases hfs with rfl | ⟨rfl, -⟩ <;> rfl
  -- the inode of the upload no longer has a name
  have hgone : ∀ q, fs.entry q ≠ some u.file.inode := by
    intro q hq
    have hqp := (hinv.upload h u hu).only q (hentry q _ hq)
    rcases hfs with rfl | ⟨rfl, hunlinked⟩
    · exact (σ.files.entry_of_remove hq).1 hqp
    · exact hunlinked (by rw [IsLinked, ← hqp, hq])
  refine ⟨hinv.names_agree, ?_, ?_, ?_⟩
  · intro h' u' hu'
    rcases uploads_setUpload hu' with ⟨-, hnew⟩ | ⟨-, hold⟩
    · cases hnew
    · have hother := hinv.upload h' u' hold
      exact
        { hother with
          inode_lt := Nat.lt_of_lt_of_eq hother.inode_lt hnext.symm
          only := fun q hq ↦ hother.only q (hentry q _ hq) }
  · intro w hw
    rcases List.mem_append.mp hw with hold | hnew
    · have hother := hinv.late w hold
      exact ⟨Nat.lt_of_lt_of_eq hother.inode_lt hnext.symm,
        fun q hq ↦ hother.piece q (hentry q _ hq)⟩
    · obtain ⟨-, rfl⟩ := u.file.mem_left.mp hnew
      exact ⟨Nat.lt_of_lt_of_eq (hinv.upload h u hu).inode_lt hnext.symm,
        fun q hq ↦ absurd hq (hgone q)⟩
  · intro q j hq
    obtain ⟨c, hc, hplace, hgrow⟩ := hinv.linked q j (hentry q j hq)
    have hne : u.file.inode ≠ j := fun hinode ↦ hgone q (hinode ▸ hq)
    exact ⟨c, hc, hplace, hgrow.of_upload_same hu (fun _ hh ↦ uploads_setUpload_of_ne _ hh)
      (fun _ hw ↦ List.mem_append_left _ hw) (congrFun hdata j) (fun hinode ↦ absurd hinode hne)
      fun hinode ↦ absurd hinode hne⟩

/-! ## 6. Runs of undisturbed steps -/

theorem Inv.create (hinv : Inv root place bytesOf σ) {h : ι} {c : Text} {faults : CreateFaults}
    {σ' : ChunkStore ι P} (hok : Undisturbed root place bytesOf σ (.create h c faults))
    (hstep : next root place bytesOf σ (.create h c faults) = some σ') :
    Inv root place bytesOf σ' := by
  simp only [next] at hstep
  split at hstep
  · cases hstep
  · next hfree =>
    rw [not_or, Option.not_isSome_iff_eq_none] at hfree
    split at hstep
    · next path hpath =>
      have hplace : placeOf root place c = some (place path) := by
        simp only [placeOf, hpath]
      have hok := hok path hpath
      split at hstep
      · next fs hopen =>
        -- nothing was opened
        cases hstep
        rcases openChunk_cases place hopen with ⟨-, hsame⟩ | ⟨_, hfile, -⟩
        · refine ⟨hinv.files.congr hsame rfl rfl rfl, hinv.records.of_upload rfl rfl ?_⟩
          intro d _ _ hsettled
          exact hsettled.of_same (fun p _ ↦ congrFun hsame.entry p)
            (fun _ i _ _ ↦ congrFun hsame.data i) (fun _ _ _ hu hp ↦ hsettled.place_ne hu hp)
            fun _ hw ↦ .inl hw
        · cases hfile
      · next fs file hopen =>
        cases hstep
        have hundisturbed := hok (by rw [hopen]; rfl)
        rcases openChunk_cases place hopen with ⟨hnone, -⟩ | ⟨inode, hfile, hcreated⟩
        · cases hnone
        · obtain rfl := Option.some.inj hfile
          refine ⟨hinv.files.create hfree.1 hplace hundisturbed.2 hcreated,
            hinv.records.of_upload rfl rfl ?_⟩
          intro d hd href hsettled
          have hother : ∀ p, placeOf root place d = some p → p ≠ place path := by
            intro p hp heq
            exact hundisturbed.1 d hd href ⟨p, heq ▸ hplace, hp⟩
          refine hsettled.of_same (fun p hp ↦ hcreated.entry_other p (hother p hp))
            (fun p i hp hi ↦ hcreated.data_other i ?_) (fun h' u p hu hp ↦ ?_) fun _ hw ↦ .inl hw
          · rintro rfl
            rcases hcreated.inode with hentry | ⟨-, hnew⟩
            · exact hother p hp (σ.files.entry_inj p _ i hi hentry)
            · have hlt := σ.files.entry_lt p i hi
              omega
          · rcases uploads_setUpload hu with ⟨-, hnew⟩ | ⟨-, hold⟩
            · obtain rfl := Option.some.inj hnew
              exact (hother p hp).symm
            · exact hsettled.place_ne hold hp
    · cases hstep

omit [DecidableEq ι] [DecidableEq P] in
/-- The file of an upload is not one of the settled ones. -/
theorem IsSettled.entry_ne (hinv : FilesInv root place bytesOf σ) {d : Text}
    (hsettled : IsSettled root place bytesOf σ d) {h : ι} {u : Upload P}
    (hu : σ.uploads h = some u) {p : P} (hp : placeOf root place d = some p) :
    σ.files.entry p ≠ some u.file.inode :=
  fun hentry ↦ hsettled.place_ne hu hp ((hinv.upload h u hu).only p hentry).symm

theorem Inv.land (hinv : Inv root place bytesOf σ) {h : ι} {r : WriteResult}
    {σ' : ChunkStore ι P} (hstep : next root place bytesOf σ (.land h r) = some σ') :
    Inv root place bytesOf σ' := by
  obtain ⟨u, hu, rfl⟩ := Option.map_eq_some_iff.mp hstep
  refine ⟨hinv.files.land hu r, hinv.records.of_upload rfl rfl ?_⟩
  intro d _ _ hsettled
  refine hsettled.of_same (fun _ _ ↦ rfl) (fun p i hp hi ↦ ?_) (fun h' u' p hu' hp ↦ ?_)
    fun _ hw ↦ .inl hw
  · refine u.file.data_land_of_ne r σ.files ?_
    rintro rfl
    exact hsettled.entry_ne hinv.files hu hp hi
  · rcases uploads_setUpload hu' with ⟨-, hnew⟩ | ⟨-, hold⟩
    · obtain rfl := Option.some.inj hnew
      exact hsettled.place_ne hu hp
    · exact hsettled.place_ne hold hp

theorem Inv.append (hinv : Inv root place bytesOf σ) {h : ι} {count : Nat} {removed : Bool}
    {σ' : ChunkStore ι P} (hstep : next root place bytesOf σ (.append h count removed) = some σ') :
    Inv root place bytesOf σ' := by
  obtain ⟨u, hu, hstep⟩ := Option.bind_eq_some_iff.mp hstep
  split at hstep
  · next hready =>
    cases hstep
    refine ⟨hinv.files.append hu hready.1 count removed hready.2,
      hinv.records.of_upload rfl rfl ?_⟩
    intro d _ _ hsettled
    refine hsettled.of_same (fun p hp ↦ ?_) (fun _ i _ _ ↦ congrFun (OpenFile.data_writeAll ..) i)
      (fun h' u' p hu' hp ↦ ?_) fun _ hw ↦ .inl hw
    · refine (OpenFile.entry_writeAll ..).trans (if_neg fun hp' ↦ ?_)
      exact hsettled.place_ne hu hp hp'.1.symm
    · rcases uploads_setUpload hu' with ⟨-, hnew⟩ | ⟨-, hold⟩
      · obtain rfl := Option.some.inj hnew
        rw [OpenFile.place_writeAll]
        exact hsettled.place_ne hu hp
      · exact hsettled.place_ne hold hp
  · cases hstep

omit [DecidableEq ι] [DecidableEq P] in
/-- What an upload leaves under way does not go to a settled file. -/
theorem IsSettled.late_ne (hinv : FilesInv root place bytesOf σ) {d : Text}
    (hsettled : IsSettled root place bytesOf σ d) {h : ι} {u : Upload P}
    (hu : σ.uploads h = some u) {w : LateWrite} (hw : w ∈ σ.late ++ u.file.left) :
    w ∈ σ.late ∨ ∀ p, placeOf root place d = some p → σ.files.entry p ≠ some w.inode := by
  rcases List.mem_append.mp hw with hold | hnew
  · exact .inl hold
  · rw [(u.file.mem_left.mp hnew).2]
    exact .inr fun p hp ↦ hsettled.entry_ne hinv hu hp

theorem Inv.finish (hinv : Inv root place bytesOf σ) {h : ι} {σ' : ChunkStore ι P}
    (hok : Undisturbed root place bytesOf σ (.finish h))
    (hstep : next root place bytesOf σ (.finish h) = some σ') : Inv root place bytesOf σ' := by
  obtain ⟨u, hu, hstep⟩ := Option.bind_eq_some_iff.mp hstep
  split at hstep
  · next hread =>
    cases hstep
    refine ⟨hinv.files.finish hu hread (hok u hu), hinv.records.of_upload rfl rfl ?_⟩
    intro d _ _ hsettled
    refine hsettled.of_same (fun _ _ ↦ rfl) (fun _ _ _ _ ↦ rfl) (fun h' u' p hu' hp ↦ ?_)
      fun _ hw ↦ hsettled.late_ne hinv.files hu hw
    rcases uploads_setUpload hu' with ⟨-, hnew⟩ | ⟨-, hold⟩
    · cases hnew
    · exact hsettled.place_ne hold hp
  · cases hstep

theorem Inv.fail (hinv : Inv root place bytesOf σ) {h : ι} {removed : Bool} {σ' : ChunkStore ι P}
    (hok : Undisturbed root place bytesOf σ (.fail h removed))
    (hstep : next root place bytesOf σ (.fail h removed) = some σ') :
    Inv root place bytesOf σ' := by
  obtain ⟨u, hu, rfl⟩ := Option.map_eq_some_iff.mp hstep
  constructor
  · apply hinv.files.fail hu
    by_cases hremoved : removed = true
    · exact .inl (if_pos hremoved)
    · exact .inr ⟨if_neg hremoved, fun hlinked ↦ hremoved (hok u hu hlinked)⟩
  · refine hinv.records.of_upload rfl rfl ?_
    intro d _ _ hsettled
    refine hsettled.of_same (fun p hp ↦ ?_) (fun _ _ _ _ ↦ ?_) (fun h' u' p hu' hp ↦ ?_)
      fun _ hw ↦ hsettled.late_ne hinv.files hu hw
    · change Files.entry (if _ then _ else _) p = _
      split
      · exact Files.entry_remove_of_ne _ (hsettled.place_ne hu hp).symm
      · rfl
    · change Files.data (if _ then _ else _) _ = _
      split <;> rfl
    · rcases uploads_setUpload hu' with ⟨-, hnew⟩ | ⟨-, hold⟩
      · cases hnew
      · exact hsettled.place_ne hold hp

omit [DecidableEq ι] [DecidableEq P] in
/-- A write that lands late leaves the settled files alone. -/
theorem IsSettled.landLate {d : Text} (hsettled : IsSettled root place bytesOf σ d) {k : Nat}
    {w : LateWrite} (hw : σ.late[k]? = some w) (landed : Bytes) :
    IsSettled root place bytesOf
      { σ with files := σ.files.write w.inode w.offset landed, late := σ.late.eraseIdx k } d := by
  obtain ⟨q, hq, -, -, hstill⟩ := id hsettled
  refine hsettled.of_same (fun _ _ ↦ rfl) (fun p i hp hi ↦ ?_)
    (fun _ _ _ hu hp ↦ hsettled.place_ne hu hp) fun _ hw' ↦ .inl (List.mem_of_mem_eraseIdx hw')
  refine Files.data_write_of_ne _ ?_ _ _
  rintro rfl
  rw [hq, Option.some.injEq] at hp
  exact hstill w (List.mem_of_getElem? hw) (hp ▸ hi)

theorem Inv.landLate (hinv : Inv root place bytesOf σ) {k : Nat} {r : WriteResult}
    {σ' : ChunkStore ι P} (hok : Undisturbed root place bytesOf σ (.landLate k r))
    (hstep : next root place bytesOf σ (.landLate k r) = some σ') : Inv root place bytesOf σ' := by
  obtain ⟨w, hw, rfl⟩ := Option.map_eq_some_iff.mp hstep
  exact ⟨hinv.files.landLate hw fun p hp ↦ hok w p hw hp,
    hinv.records.of_upload rfl rfl fun d _ _ hsettled ↦ hsettled.landLate hw _⟩

theorem Inv.check (hinv : Inv root place bytesOf σ) {h : ι} {σ' : ChunkStore ι P}
    (hok : Undisturbed root place bytesOf σ (.check h))
    (hstep : next root place bytesOf σ (.check h) = some σ') : Inv root place bytesOf σ' := by
  obtain ⟨k, hk, hstep⟩ := Option.bind_eq_some_iff.mp hstep
  have hpending := hinv.records.pending h k hk
  split at hstep
  · cases hstep
  · next c rest htodo =>
    have huncompared : k.compared ≠ true := by
      intro hcompared
      rw [hpending.2 hcompared] at htodo
      cases htodo
    split at hstep
    · next hpresent =>
      cases hstep
      apply hinv.setCommit h
      · intro k' hk'
        obtain rfl := Option.some.inj hk'
        refine ⟨?_, fun hcompared ↦ absurd hcompared huncompared⟩
        rw [hpending.1, htodo, List.append_assoc]
        rfl
      · intro k' d hk' hd hne
        obtain rfl := Option.some.inj hk'
        rcases List.mem_append.mp hd with hd | hd
        · exact hinv.records.settled d hne (.inr ⟨h, k, hk, hd⟩)
        · rw [List.mem_singleton.mp hd] at hne ⊢
          apply isSettled_of_isPresent hinv.files hne hpresent
          intro p hp
          exact hok k c rest p hk htodo hne hp
    · cases hstep
      exact hinv.endCommit h

theorem Inv.commit (hinv : Inv root place bytesOf σ) {h : ι} {userId : Int}
    {payload : CommitPayload} {σ' : ChunkStore ι P}
    (hstep : next root place bytesOf σ (.commit h userId payload) = some σ') :
    Inv root place bytesOf σ' := by
  simp only [next] at hstep
  split at hstep
  · cases hstep
  · cases hstep
    apply hinv.setCommit h
    · intro k hk
      obtain rfl := Option.some.inj hk
      exact ⟨rfl, fun hcompared ↦ by cases hcompared⟩
    · intro k c hk hc
      obtain rfl := Option.some.inj hk
      cases hc

theorem Inv.compare (hinv : Inv root place bytesOf σ) {h : ι} {σ' : ChunkStore ι P}
    (hstep : next root place bytesOf σ (.compare h) = some σ') : Inv root place bytesOf σ' := by
  obtain ⟨k, hk, hstep⟩ := Option.bind_eq_some_iff.mp hstep
  have hpending := hinv.records.pending h k hk
  split at hstep
  · next hready =>
    split at hstep
    · cases hstep
      exact hinv.endCommit h
    · cases hstep
      apply hinv.setCommit h
      · intro k' hk'
        obtain rfl := Option.some.inj hk'
        exact ⟨hpending.1, fun _ ↦ hready.1⟩
      · intro k' c hk' hc hne
        obtain rfl := Option.some.inj hk'
        exact hinv.records.settled c hne (.inr ⟨h, k, hk, hc⟩)
  · cases hstep

theorem Inv.insert (hinv : Inv root place bytesOf σ) {h : ι} {σ' : ChunkStore ι P}
    (hstep : next root place bytesOf σ (.insert h) = some σ') : Inv root place bytesOf σ' := by
  obtain ⟨k, hk, hstep⟩ := Option.bind_eq_some_iff.mp hstep
  split at hstep
  · next hcompared =>
    cases hstep
    exact ⟨hinv.files.congr ⟨rfl, rfl, rfl⟩ rfl rfl rfl, hinv.records.insert hk hcompared⟩
  · cases hstep

theorem Inv.next (hinv : Inv root place bytesOf σ) {a : StoreAction ι} {σ' : ChunkStore ι P}
    (hok : Undisturbed root place bytesOf σ a)
    (hstep : ChunkStore.next root place bytesOf σ a = some σ') : Inv root place bytesOf σ' := by
  cases a with
  | create h c faults => exact hinv.create hok hstep
  | land h r => exact hinv.land hstep
  | append h count removed => exact hinv.append hstep
  | finish h => exact hinv.finish hok hstep
  | fail h removed => exact hinv.fail hok hstep
  | landLate k r => exact hinv.landLate hok hstep
  | commit h userId payload => exact hinv.commit hstep
  | check h => exact hinv.check hok hstep
  | compare h => exact hinv.compare hstep
  | insert h => exact hinv.insert hstep

end Steps

/-! ## 7. Committed chunks stay available -/

section Availability

variable {ι P : Type} [DecidableEq ι] [DecidableEq P] (root : Path Name) (place : Path Name → P)
  (bytesOf : Text → Bytes)

/-- In a run of undisturbed steps every chunk of every record is in the store, whole. -/
theorem isAvailable_of_undisturbed {σ : ChunkStore ι P}
    (h : (system root place bytesOf).Reachable (Undisturbed root place bytesOf) σ) :
    IsAvailable root place bytesOf σ := by
  have hinv : Inv root place bytesOf σ :=
    h.invariant (fun _ ↦ Inv.init) fun _ _ _ hinv hok hstep ↦ hinv.next hok hstep
  intro r hr c hc hne
  exact isStored_of_isSettled (hinv.records.settled c hne (.inl ⟨r, hr, hc⟩))

end Availability

-- An example: one request uploads the chunk of a recipe, in two pieces, the second of which lands
-- after the upload has ended, and another commits it.
def uploadDir : Path Name := parsePath "/upload".toList

def chunkBytes : Text → Bytes := fun _ ↦ [120, 121]

def chunkPath : Path Name :=
  ⟨true, ["upload", "a", "b", "ab"].map fun name ↦ .normal (toUtf8 name.toList), false⟩

def emptyStore : ChunkStore Bool (Path Name) :=
  ⟨.empty, [], fun _ ↦ none, fun _ ↦ none, .empty, []⟩

def storeSystem : System (ChunkStore Bool (Path Name)) (StoreAction Bool) :=
  system uploadDir id chunkBytes

theorem fresh_emptyStore : storeSystem.init emptyStore :=
  ⟨fun _ ↦ rfl, rfl, fun _ ↦ rfl, fun _ ↦ rfl, rfl, rfl⟩

def commitSteps : List (StoreAction Bool) :=
  [.commit true 1 ⟨"a.cook".toList, false, "ab".toList⟩, .check true, .compare true, .insert true]

def uploadThenCommit : List (StoreAction Bool) :=
  [.create false "ab".toList .none, .append false 1 false, .land false .ok, .append false 1 false,
    .finish false, .landLate 0 .ok] ++ commitSteps

theorem isAvailable_uploadThenCommit :
    (storeSystem.run emptyStore uploadThenCommit).isSome ∧
      ∀ σ, storeSystem.run emptyStore uploadThenCommit = some σ →
        IsAvailable uploadDir id chunkBytes σ := by
  refine ⟨by decide, ?_⟩
  intro σ hrun
  apply isAvailable_of_undisturbed uploadDir id chunkBytes
  apply (System.Reachable.init fresh_emptyStore).run_of_ok hrun
  intro i a t ha ht
  match i with
  | 0 =>
    cases ha
    cases ht
    intro path _ _
    refine ⟨?_, fun _ hd ↦ by cases hd⟩
    intro d _ href
    rcases href with ⟨r, hr, -⟩ | ⟨h, k, hk, -⟩
    · cases hr
    · cases hk
  | 1 | 2 | 3 | 6 | 8 | 9 =>
    cases ha
    trivial
  | 4 =>
    cases ha
    intro u hu _
    have hwhole : (storeSystem.run emptyStore (uploadThenCommit.take 4)).map
        (fun τ ↦ (τ.uploads false).all fun u ↦ u.file.offset + u.file.queued.length = u.read) =
        some true := by
      decide
    rw [ht, Option.map_some, hu] at hwhole
    have hintact : u.file.offset + u.file.queued.length = u.read :=
      of_decide_eq_true (Option.some.inj hwhole)
    exact hintact
  | 5 =>
    cases ha
    exact fun _ _ _ _ ↦ rfl
  | 7 =>
    cases ha
    intro k c rest p hk htodo hne hp hexists
    have hstate : (storeSystem.run emptyStore (uploadThenCommit.take 7)).map
        (fun τ ↦ ((τ.commits true).map PendingCommit.todo, τ.files.isDir chunkPath,
          [false, true].all fun h ↦ (τ.uploads h).isNone, τ.late)) =
        some (some ["ab".toList], false, true, []) := by
      decide
    rw [ht, Option.map_some, Option.some.injEq, Prod.mk.injEq, Prod.mk.injEq, Prod.mk.injEq, hk,
      Option.map_some, htodo, Option.some.injEq, List.cons.injEq, List.all_eq_true] at hstate
    obtain ⟨⟨hc, -⟩, hdir, huploads, hlate⟩ := hstate
    have hplace : placeOf uploadDir id "ab".toList = some chunkPath := by decide
    rw [hc, hplace, Option.some.injEq] at hp
    refine ⟨hp ▸ hdir, ?_, fun w hw ↦ ?_, fun _ _ _ ↦ rfl⟩
    · intro h' u hu
      have hnone := huploads h' (by cases h' <;> decide)
      rw [hu] at hnone
      cases hnone
    · rw [hlate] at hw
      cases hw
  | n + 10 => cases ha

-- The upload breaks off after its first piece, and the commit has found the file before.
theorem isAvailable_fails :
    ¬ ∀ (root : Path Name) (place : Path Name → Path Name) (bytesOf : Text → Bytes)
      (σ : ChunkStore Bool (Path Name)),
      (system root place bytesOf).Reachable System.anyAction σ →
      IsAvailable root place bytesOf σ := by
  intro h
  let run := storeSystem.run emptyStore
    ([.create false "ab".toList .none, .append false 1 false, .land false .ok] ++ commitSteps ++
      [.fail false true])
  have hsome : run.isSome := by decide
  obtain ⟨σ, hrun⟩ := Option.isSome_iff_exists.mp hsome
  have havailable := h uploadDir id chunkBytes σ
    ((System.Reachable.init fresh_emptyStore).run hrun)
  have hstate : run.map (fun τ ↦ (τ.journal.rows, τ.files.read chunkPath)) =
      some ([⟨1, 1, "ab".toList, false, "a.cook".toList⟩], none) := by
    decide
  rw [show run = some σ from hrun, Option.map_some, Option.some.injEq, Prod.mk.injEq] at hstate
  obtain ⟨path, hpath, hread⟩ := havailable ⟨1, 1, "ab".toList, false, "a.cook".toList⟩
    (by rw [hstate.1]; simp) "ab".toList (by decide) (by decide)
  have hplace : (ChunkId.filePath uploadDir "ab".toList : Outcome ChunkError _) =
      .ok chunkPath := by
    decide
  rw [hplace, Outcome.ok.injEq] at hpath
  rw [← hpath, id, hstate.2] at hread
  cases hread

end ChunkStore

end CooklangSync.System
