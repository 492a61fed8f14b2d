import CooklangSync.Server.Metadata
import CooklangSync.Theory.LatestMap

/-!
# UserMap — the journal as a map from users and paths to their latest commits

What the journal says about a user depends on a map only: for every path, the record of the most
recent commit that was recorded.  The queries answer from this map, whatever was committed before
and by whom.
-/

namespace CooklangSync.Server

open Theory

variable {ε : Type}

/-! ## 1. Requests and the journal they leave -/

/-- A commit of a user, with the chunk store as the handler finds it. -/
structure CommitRequest (ε : Type) where
  isPresent : Text → Outcome ε Bool
  userId : Int
  payload : CommitPayload

namespace CommitRequest

def record (request : CommitRequest ε) : NewFileRecord :=
  .fromPayloadAndUserId request.payload request.userId

/-- All the chunks that the commit names are in the store. -/
def isAccepted (request : CommitRequest ε) : Bool :=
  match request.payload.nonLocalChunks request.isPresent with
  | .ok absent => absent.isEmpty
  | _ => false

/-- The journal after the request.  A request that fails leaves it as it is. -/
def serve (journal : Journal) (request : CommitRequest ε) : Journal :=
  match commit request.isPresent journal request.userId request.payload with
  | .ok (_, journal') => journal'
  | _ => journal

theorem serve_eq (journal : Journal) (request : CommitRequest ε) :
    serve journal request =
      if request.isAccepted then (commitRecord journal request.record).2 else journal := by
  unfold serve commit isAccepted
  cases request.payload.nonLocalChunks request.isPresent with
  | ok absent =>
    cases absent with
    | nil => rfl
    | cons c cs => rfl
  | err e => rfl
  | panic => rfl

/-- The journal of a new server after a sequence of requests. -/
def journal (requests : List (CommitRequest ε)) : Journal := requests.foldl serve Table.empty

theorem journal_concat (requests : List (CommitRequest ε)) (request : CommitRequest ε) :
    journal (requests ++ [request]) = serve (journal requests) request := by
  rw [journal, List.foldl_append]
  rfl

end CommitRequest

/-! ## 2. The map -/

/-- For every user and path, the record of the most recent recorded commit. -/
abbrev UserMap := LatestMap FileRecord Int Text

namespace UserMap

/-- A commit of what the map already has is not recorded again. -/
def record (M : UserMap) (record : NewFileRecord) : UserMap :=
  if (M.current record.userId record.path).any (isNoOp · record) then M
  else M.insert FileRecord.userId FileRecord.path record.withId

def commit (M : UserMap) (request : CommitRequest ε) : UserMap :=
  if request.isAccepted then M.record request.record else M

def ofRequests (requests : List (CommitRequest ε)) : UserMap :=
  requests.foldl commit LatestMap.empty

theorem ofRequests_concat (requests : List (CommitRequest ε)) (request : CommitRequest ε) :
    ofRequests (requests ++ [request]) = (ofRequests requests).commit request := by
  rw [ofRequests, List.foldl_append]
  rfl

/-- A commit of another user changes no entry of this one. -/
theorem current_commit_of_ne (M : UserMap) {request : CommitRequest ε} {userId : Int}
    (h : request.userId ≠ userId) : (M.commit request).current userId = M.current userId := by
  unfold commit record
  split
  · split
    · rfl
    · exact M.current_insert_of_ne _ _ h
  · rfl

/-! ## 3. The journal refines the map -/

abbrev Represents (M : UserMap) (journal : Journal) : Prop :=
  LatestMap.Represents FileRecord.userId FileRecord.path M journal

theorem Represents.latestForPath {M : UserMap} {journal : Journal} (h : M.Represents journal)
    (userId : Int) (path : Text) :
    latestForPath journal userId path = M.current userId path :=
  h.latestOf userId path

theorem Represents.commitRecord {M : UserMap} {journal : Journal} (h : M.Represents journal)
    (record : NewFileRecord) : (M.record record).Represents (commitRecord journal record).2 := by
  rw [commitRecord_journal, h.latestForPath, UserMap.record]
  split
  · exact h
  · exact h.insert record.withId record.id_withId

theorem Represents.serve {M : UserMap} {journal : Journal} (h : M.Represents journal)
    (request : CommitRequest ε) : (M.commit request).Represents (request.serve journal) := by
  rw [CommitRequest.serve_eq, commit]
  split
  · exact h.commitRecord request.record
  · exact h

theorem represents_journal (requests : List (CommitRequest ε)) :
    (ofRequests requests).Represents (CommitRequest.journal requests) := by
  induction requests using List.reverseRecOn with
  | nil => exact LatestMap.represents_empty
  | append_singleton requests request ih =>
    rw [ofRequests_concat, CommitRequest.journal_concat]
    exact ih.serve request

section Queries

variable {M : UserMap} {journal : Journal}

theorem Represents.lists_list (h : M.Represents journal) (userId jid : Int) :
    LatestMap.Lists FileRecord.path (list journal userId jid) (M.current userId) (jid < ·.id) :=
  h.lists userId _

theorem Represents.hasFiles_iff (h : M.Represents journal) (userId : Int) :
    hasFiles journal userId = true ↔
      ∃ path r, M.current userId path = some r ∧ r.deleted = false := by
  rw [hasFiles, List.any_eq_true]
  simp only [h.mem_latest_iff, Bool.not_eq_true']
  constructor
  · rintro ⟨r, ⟨path, hr⟩, hlive⟩
    exact ⟨path, r, hr, hlive⟩
  · rintro ⟨path, r, hr, hlive⟩
    exact ⟨r, ⟨path, hr⟩, hlive⟩

end Queries

/-- What the queries answer for a user. -/
structure SameAnswers (userId : Int) (journal journal' : Journal) : Prop where
  list : ∀ jid, list journal' userId jid = list journal userId jid
  hasFiles : hasFiles journal' userId = hasFiles journal userId
  latestForPath : ∀ path, latestForPath journal' userId path = latestForPath journal userId path

/-- Journals with the same entries for a user answer the same for this user. -/
theorem Represents.sameAnswers {M M' : UserMap} {journal journal' : Journal} {userId : Int}
    (h : M.Represents journal) (h' : M'.Represents journal')
    (hsame : M'.current userId = M.current userId) : SameAnswers userId journal journal' := by
  have hlatest := h.latest_congr h' hsame
  constructor
  · intro jid
    rw [Server.list, hlatest, Server.list]
  · rw [Server.hasFiles, hlatest, Server.hasFiles]
  · intro path
    rw [h.latestForPath, h'.latestForPath, hsame]

/-- The queries answer from the map of the commits, and nobody sees the commits of others. -/
theorem queries_of_journal (requests : List (CommitRequest ε)) (userId : Int) :
    (∀ jid, LatestMap.Lists FileRecord.path (list (CommitRequest.journal requests) userId jid)
      ((ofRequests requests).current userId) (jid < ·.id)) ∧
    (hasFiles (CommitRequest.journal requests) userId = true ↔
      ∃ path r, (ofRequests requests).current userId path = some r ∧ r.deleted = false) ∧
    (∀ path, latestForPath (CommitRequest.journal requests) userId path =
      (ofRequests requests).current userId path) ∧
    ∀ request : CommitRequest ε, request.userId ≠ userId →
      SameAnswers userId (CommitRequest.journal requests)
        (CommitRequest.journal (requests ++ [request])) := by
  have h := represents_journal requests
  refine ⟨h.lists_list userId, h.hasFiles_iff userId, h.latestForPath userId, ?_⟩
  intro request hother
  apply h.sameAnswers (represents_journal (requests ++ [request]))
  rw [ofRequests_concat]
  exact (ofRequests requests).current_commit_of_ne hother

end UserMap

end CooklangSync.Server
