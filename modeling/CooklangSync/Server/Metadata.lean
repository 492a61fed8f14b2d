import CooklangSync.Theory.Outcome
import CooklangSync.Theory.Table
import CooklangSync.Theory.Text

/-!
# Metadata — the server's journal of file records, and the commit handler

Every accepted commit of a user is a record under a fresh id, the `jid` its clients see.  The
newest record of a path supersedes the older ones: `list` and `has_files` read only these.
-/

namespace CooklangSync.Server

open Theory

def Metadata.formLimit : Nat := 1024 * 1024

/-! ## 1. Records and queries -/

structure FileRecord where
  id : Int
  userId : Int
  chunkIds : Text
  deleted : Bool
  path : Text
  deriving DecidableEq, Repr

structure NewFileRecord where
  userId : Int
  chunkIds : Text
  deleted : Bool
  path : Text
  deriving DecidableEq, Repr

structure CommitPayload where
  path : Text
  deleted : Bool
  chunkIds : Text
  deriving DecidableEq, Repr

abbrev Journal := Table FileRecord FileRecord.id

def NewFileRecord.fromPayloadAndUserId (payload : CommitPayload) (userId : Int) : NewFileRecord where
  path := payload.path
  deleted := payload.deleted
  chunkIds := payload.chunkIds
  userId := userId

def NewFileRecord.withId (record : NewFileRecord) (id : Int) : FileRecord where
  id := id
  userId := record.userId
  chunkIds := record.chunkIds
  deleted := record.deleted
  path := record.path

@[simp] theorem NewFileRecord.id_withId (record : NewFileRecord) (id : Int) :
    (record.withId id).id = id := rfl

/-- Inserts a record and returns its id. -/
def insertNewRecord (journal : Journal) (record : NewFileRecord) : Int × Journal :=
  (journal.nextId, journal.insert record.withId record.id_withId)

/-- The most recent record of a user's path. -/
def latestForPath (journal : Journal) (userId : Int) (path : Text) : Option FileRecord :=
  journal.latestOf (·.userId == userId) FileRecord.path path

def hasFiles (journal : Journal) (userId : Int) : Bool :=
  (journal.latest (·.userId == userId) FileRecord.path).any (!·.deleted)

/-- The newest records of a user's paths with an id above `jid`.  The query has no `ORDER BY`: a
response is these rows in any order. -/
def list (journal : Journal) (userId jid : Int) : List FileRecord :=
  (journal.latest (·.userId == userId) FileRecord.path).filter (jid < ·.id)

theorem mem_list_iff (journal : Journal) (userId jid : Int) (r : FileRecord) :
    r ∈ list journal userId jid ↔ latestForPath journal userId r.path = some r ∧ jid < r.id := by
  rw [list, List.mem_filter, Table.mem_latest_iff, decide_eq_true_eq]
  rfl

theorem latestForPath_spec {journal : Journal} {userId : Int} {path : Text} {r : FileRecord}
    (h : latestForPath journal userId path = some r) :
    r ∈ journal.rows ∧ r.userId = userId ∧ r.path = path := by
  have hkey := Table.latestOf_key _ _ journal h
  have hmem := (Table.lastOf_eq_some_iff journal _ r).mp h
  exact ⟨hmem.1, by simpa using hkey.1, hkey.2⟩

theorem latestForPath_insert (journal : Journal) (record : NewFileRecord) (userId : Int)
    (path : Text) :
    latestForPath (insertNewRecord journal record).2 userId path =
      if record.userId = userId ∧ record.path = path then some (record.withId journal.nextId)
      else latestForPath journal userId path := by
  unfold latestForPath insertNewRecord
  rw [Table.latestOf_insert]
  simp [NewFileRecord.withId]

/-! ## 2. Commit -/

inductive CommitResultStatus where
  | success (jid : Int)
  | needChunks (chunkIds : Text)
  deriving DecidableEq, Repr

section Commit

variable {ε : Type} (isPresent : Text → Outcome ε Bool)

/-- The pieces of a comma-separated list that are not in the chunk store, in order. -/
def absentChunks : List Text → Outcome ε (List Text)
  | [] => pure []
  | c :: cs => do
    let present ← isPresent c
    let rest ← absentChunks cs
    pure (if present then rest else c :: rest)

def CommitPayload.nonLocalChunks (payload : CommitPayload) : Outcome ε (List Text) :=
  absentChunks isPresent (payload.chunkIds.splitOn ',')

-- A commit that repeats the latest record of its path is answered with that record's id.
def isNoOp (existing : FileRecord) (record : NewFileRecord) : Bool :=
  existing.chunkIds = record.chunkIds && existing.deleted = record.deleted

def commitRecord (journal : Journal) (record : NewFileRecord) : Int × Journal :=
  match latestForPath journal record.userId record.path with
  | some existing =>
    if isNoOp existing record then (existing.id, journal) else insertNewRecord journal record
  | none => insertNewRecord journal record

/-- The commit handler, as one step.  The notification of the other clients is not part of the
answer. -/
def commit (journal : Journal) (userId : Int) (payload : CommitPayload) :
    Outcome ε (CommitResultStatus × Journal) := do
  let toBeUploaded ← payload.nonLocalChunks isPresent
  if toBeUploaded = [] then
    let r := commitRecord journal (.fromPayloadAndUserId payload userId)
    pure (.success r.1, r.2)
  else
    pure (.needChunks (List.intercalate [','] toBeUploaded), journal)

theorem isPresent_of_absentChunks {ids : List Text} (h : absentChunks isPresent ids = .ok [])
    {id : Text} (hid : id ∈ ids) : isPresent id = .ok true := by
  induction ids with
  | nil => cases hid
  | cons c cs ih =>
    obtain ⟨present, hc, h⟩ := Outcome.bind_eq_ok h
    obtain ⟨rest, hrest, h⟩ := Outcome.bind_eq_ok h
    cases present with
    | false => cases h
    | true =>
      cases h
      rcases List.mem_cons.mp hid with rfl | hid
      · exact hc
      · exact ih hrest hid

theorem absentChunks_ok (present : Text → Bool) (ids : List Text) :
    absentChunks (fun id ↦ (.ok (present id) : Outcome ε Bool)) ids =
      .ok (ids.filter (!present ·)) := by
  induction ids with
  | nil => rfl
  | cons c cs ih =>
    rw [absentChunks, ih]
    cases hc : present c with
    | false => simp [hc]
    | true => simp [hc]

/-- The chunks of a record that a commit has accepted are there. -/
theorem isPresent_of_commit {journal journal' : Journal} {userId jid : Int}
    {payload : CommitPayload}
    (h : commit isPresent journal userId payload = .ok (.success jid, journal')) {id : Text}
    (hid : id ∈ payload.chunkIds.splitOn ',') : isPresent id = .ok true := by
  obtain ⟨absent, habsent, h⟩ := Outcome.bind_eq_ok h
  by_cases hnil : absent = []
  · rw [hnil] at habsent
    exact isPresent_of_absentChunks isPresent habsent hid
  · rw [if_neg hnil] at h
    simp at h

/-- A successful commit answers with the id of the latest record of its path, which has the
committed content. -/
theorem commit_success {journal journal' : Journal} {userId jid : Int} {payload : CommitPayload}
    (h : commit isPresent journal userId payload = .ok (.success jid, journal')) :
    commitRecord journal (.fromPayloadAndUserId payload userId) = (jid, journal') := by
  obtain ⟨absent, -, h⟩ := Outcome.bind_eq_ok h
  by_cases hnil : absent = []
  · rw [if_pos hnil] at h
    have hok := Outcome.ok.inj h
    simp only [Prod.mk.injEq, CommitResultStatus.success.injEq] at hok
    rw [← hok.1, ← hok.2]
  · rw [if_neg hnil] at h
    simp at h

/-- What a commit of a record does to the journal: nothing, or one record more. -/
theorem commitRecord_cases (journal : Journal) (record : NewFileRecord) :
    (∃ existing, latestForPath journal record.userId record.path = some existing ∧
      existing.chunkIds = record.chunkIds ∧ existing.deleted = record.deleted ∧
      commitRecord journal record = (existing.id, journal)) ∨
    commitRecord journal record = insertNewRecord journal record := by
  unfold commitRecord
  cases hlatest : latestForPath journal record.userId record.path with
  | none => exact .inr rfl
  | some existing =>
    by_cases hdup : isNoOp existing record = true
    · have heq := hdup
      simp only [isNoOp, Bool.and_eq_true, decide_eq_true_eq] at heq
      exact .inl ⟨existing, rfl, heq.1, heq.2, by simp only [hdup, if_true]⟩
    · exact .inr (by simp only [hdup]; rfl)

/-- The answer is the id of the latest record of the path, which holds what was committed. -/
theorem latestForPath_commitRecord {journal journal' : Journal} {record : NewFileRecord} {jid : Int}
    (h : commitRecord journal record = (jid, journal')) :
    ∃ r, latestForPath journal' record.userId record.path = some r ∧ r.id = jid ∧
      r.chunkIds = record.chunkIds ∧ r.deleted = record.deleted := by
  rcases commitRecord_cases journal record with
    ⟨existing, hlatest, hchunks, hdeleted, hsame⟩ | hinsert
  · rw [h] at hsame
    obtain ⟨rfl, rfl⟩ := Prod.mk.inj hsame
    exact ⟨existing, hlatest, rfl, hchunks, hdeleted⟩
  · rw [h] at hinsert
    obtain ⟨rfl, rfl⟩ := Prod.mk.inj hinsert
    refine ⟨record.withId journal.nextId, ?_, rfl, rfl, rfl⟩
    exact (latestForPath_insert journal record _ _).trans (if_pos ⟨rfl, rfl⟩)

/-- The journal is kept, or the record is its new last one. -/
theorem commitRecord_grows {journal journal' : Journal} {record : NewFileRecord} {jid : Int}
    (h : commitRecord journal record = (jid, journal')) :
    journal' = journal ∨ journal' = (insertNewRecord journal record).2 := by
  rcases commitRecord_cases journal record with ⟨existing, -, -, -, hsame⟩ | hinsert
  · rw [h] at hsame
    exact .inl (Prod.mk.inj hsame).2
  · rw [h] at hinsert
    exact .inr (congrArg Prod.snd hinsert)

theorem commitRecord_journal (journal : Journal) (record : NewFileRecord) :
    (commitRecord journal record).2 =
      if (latestForPath journal record.userId record.path).any (isNoOp · record) then journal
      else (insertNewRecord journal record).2 := by
  unfold commitRecord
  cases latestForPath journal record.userId record.path with
  | none => rfl
  | some existing =>
    change Prod.snd (if isNoOp existing record then _ else _) = _
    rw [Option.any_some, apply_ite Prod.snd]

/-- Whatever the answer to a commit is, the journal is kept or grows by a record of the user. -/
theorem commit_journal {journal journal' : Journal} {userId : Int} {payload : CommitPayload}
    {status : CommitResultStatus}
    (h : commit isPresent journal userId payload = .ok (status, journal')) :
    journal' = journal ∨
      journal' = (insertNewRecord journal (.fromPayloadAndUserId payload userId)).2 := by
  obtain ⟨absent, -, h⟩ := Outcome.bind_eq_ok h
  by_cases hnil : absent = []
  · rw [if_pos hnil] at h
    have hok := (Prod.mk.inj (Outcome.ok.inj h)).2
    rw [← hok]
    exact commitRecord_grows rfl
  · rw [if_neg hnil] at h
    have hok := (Prod.mk.inj (Outcome.ok.inj h)).2
    exact .inl hok.symm

/-- A commit leaves the latest records of other users and of other paths. -/
theorem latestForPath_commit_of_ne {journal journal' : Journal} {userId user : Int}
    {payload : CommitPayload} {status : CommitResultStatus}
    (h : commit isPresent journal userId payload = .ok (status, journal')) {path : Text}
    (hne : ¬(userId = user ∧ payload.path = path)) :
    latestForPath journal' user path = latestForPath journal user path := by
  rcases commit_journal isPresent h with rfl | rfl
  · rfl
  · rw [latestForPath_insert]
    exact if_neg hne

/-- After a commit that succeeds, the latest record of the path is the committed one. -/
theorem latestForPath_commit_success {journal journal' : Journal} {userId jid : Int}
    {payload : CommitPayload}
    (h : commit isPresent journal userId payload = .ok (.success jid, journal')) :
    ∃ record, latestForPath journal' userId payload.path = some record ∧
      record.deleted = payload.deleted ∧ record.chunkIds = payload.chunkIds := by
  obtain ⟨record, hlatest, -, hchunks, hdeleted⟩ :=
    latestForPath_commitRecord (commit_success isPresent h)
  exact ⟨record, hlatest, hdeleted, hchunks⟩

end Commit

end CooklangSync.Server
