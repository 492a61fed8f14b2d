import CooklangSync.Server.UserMap
import CooklangSync.Theory.Ranks
import CooklangSync.Theory.Service

/-!
# Isolation — every user has the journal to herself

All users share one table and the ids in it.  Whoever commits what in between, a user gets the
answers of a server that serves nobody else: the ids are others, in the same order.
-/

namespace CooklangSync.Server

open Theory

variable {ε : Type}

/-! ## 1. Requests -/

/-- The routes that read or write the journal. -/
inductive JournalRequest (ε : Type) where
  | commit (request : CommitRequest ε)
  | list (userId jid : Int)
  | hasFiles (userId : Int)

inductive JournalAnswer (ε : Type) where
  | committed (status : Outcome ε CommitResultStatus)
  | listed (records : List FileRecord)
  | hasFiles (answer : Bool)

namespace JournalRequest

def userId : JournalRequest ε → Int
  | .commit request => request.userId
  | .list userId _ => userId
  | .hasFiles userId => userId

def serve (journal : Journal) : JournalRequest ε → Journal × JournalAnswer ε
  | .commit request =>
    (request.serve journal, .committed do
      let r ← Server.commit request.isPresent journal request.userId request.payload
      pure r.1)
  | .list userId jid => (journal, .listed (Server.list journal userId jid))
  | .hasFiles userId => (journal, .hasFiles (Server.hasFiles journal userId))

/-- The request with another cursor. -/
def renumber (f : Int → Int) : JournalRequest ε → JournalRequest ε
  | .list userId jid => .list userId (f jid)
  | .commit request => .commit request
  | .hasFiles userId => .hasFiles userId

def service (ε : Type) : Service Journal (JournalRequest ε) (JournalAnswer ε) := ⟨serve⟩

end JournalRequest

/-! ## 2. The journal of one user -/

namespace FileRecord

def setId (id : Int) (r : FileRecord) : FileRecord := { r with id := id }

@[simp] theorem id_setId (id : Int) (r : FileRecord) : (r.setId id).id = id := rfl

end FileRecord

section User

variable (journal : Journal) (userId : Int)

/-- How many records of the user have been made up to an id. -/
def jidRank (jid : Int) : Int := journal.rank (·.userId == userId) jid

def jidAt (k : Int) : Int := journal.idAt (·.userId == userId) k

/-- The records of the user, numbered from 1. -/
def ofUser : Journal := journal.restrict (·.userId == userId) FileRecord.setId FileRecord.id_setId

/-- The request as it would be made of a server that serves this user only. -/
def viewOf (request : JournalRequest ε) : Option (JournalRequest ε) :=
  if request.userId = userId then some (request.renumber (jidRank journal userId)) else none

end User

def CommitResultStatus.renumber (f : Int → Int) : CommitResultStatus → CommitResultStatus
  | .success jid => .success (f jid)
  | .needChunks chunkIds => .needChunks chunkIds

/-- The answer under other ids. -/
def JournalAnswer.renumber (f : Int → Int) : JournalAnswer ε → JournalAnswer ε
  | .committed status => .committed (status >>= fun s ↦ pure (s.renumber f))
  | .listed records => .listed (records.map fun r ↦ r.setId (f r.id))
  | .hasFiles answer => .hasFiles answer

section Own

variable {journal journal' : Journal} {userId : Int}

theorem latestForPath_ofUser (path : Text) :
    latestForPath (ofUser journal userId) userId path =
      (latestForPath journal userId path).map fun r ↦ r.setId (jidRank journal userId r.id) :=
  Table.latestOf_restrict FileRecord.id_setId (fun _ _ ↦ rfl) (fun _ _ ↦ rfl) path

theorem insertNewRecord_ofUser {record : NewFileRecord} (h : record.userId = userId) :
    insertNewRecord (ofUser journal userId) record =
      (jidRank (insertNewRecord journal record).2 userId (insertNewRecord journal record).1,
        ofUser (insertNewRecord journal record).2 userId) := by
  have hscope : (record.withId journal.nextId).userId == userId := beq_iff_eq.mpr h
  refine Prod.ext ?_ ?_
  · exact (Table.rank_insert_nextId _ record.withId record.id_withId hscope).symm
  · exact (Table.restrict_insert_of_scope _ record.withId record.id_withId (fun _ _ ↦ rfl) hscope).symm

/-- A commit of the user is made in her own journal too. -/
theorem commitRecord_ofUser {record : NewFileRecord} (h : record.userId = userId) :
    commitRecord (ofUser journal userId) record =
      (jidRank (commitRecord journal record).2 userId (commitRecord journal record).1,
        ofUser (commitRecord journal record).2 userId) := by
  unfold commitRecord
  rw [h, latestForPath_ofUser]
  cases latestForPath journal userId record.path with
  | none => exact insertNewRecord_ofUser h
  | some existing =>
    have hsame : isNoOp (existing.setId (jidRank journal userId existing.id)) record =
        isNoOp existing record := rfl
    simp only [Option.map_some, hsame]
    cases isNoOp existing record with
    | false => exact insertNewRecord_ofUser h
    | true => rfl

/-- A commit leaves the journal, or appends its record. -/
theorem serve_cases (journal : Journal) (request : CommitRequest ε) :
    request.serve journal = journal ∨
      request.serve journal = (insertNewRecord journal request.record).2 := by
  rw [CommitRequest.serve_eq, commitRecord_journal]
  split
  · split
    · exact .inl rfl
    · exact .inr rfl
  · exact .inl rfl

theorem prefix_serve (journal : Journal) (request : CommitRequest ε) :
    journal.rows <+: (request.serve journal).rows := by
  rcases serve_cases journal request with hsame | hinsert
  · rw [hsame]
  · rw [hinsert]
    exact List.prefix_append _ _

theorem JournalRequest.prefix_serve (journal : Journal) (request : JournalRequest ε) :
    journal.rows <+: (request.serve journal).1.rows := by
  cases request with
  | commit request => exact Server.prefix_serve journal request
  | list user jid => exact List.prefix_rfl
  | hasFiles user => exact List.prefix_rfl

/-- A commit of somebody else is not seen in the journal of the user. -/
theorem serve_ofUser_of_ne {request : CommitRequest ε} (h : request.userId ≠ userId) :
    ofUser (request.serve journal) userId = ofUser journal userId := by
  rcases serve_cases journal request with hsame | hinsert
  · rw [hsame]
  · rw [hinsert]
    exact Table.restrict_insert_of_not_scope _ request.record.withId request.record.id_withId
      (beq_eq_false_iff_ne.mpr h)

/-! ## 3. Answers -/

/-- An id of the user is found again from its rank, however the journal has grown. -/
theorem jidAt_jidRank (hgrown : journal.rows <+: journal'.rows) {r : FileRecord}
    (hr : r ∈ journal.rows) (huser : r.userId = userId) :
    jidAt journal' userId (jidRank journal userId r.id) = r.id :=
  Table.idAt_rank_of_prefix hgrown hr (beq_iff_eq.mpr huser)

theorem committed_ofUser {request : CommitRequest ε} (huser : request.userId = userId)
    (hgrown : (request.serve journal).rows <+: journal'.rows) :
    ((JournalRequest.commit request).serve (ofUser journal userId)).1 =
        ofUser (request.serve journal) userId ∧
      ((JournalRequest.commit request).serve (ofUser journal userId)).2.renumber
          (jidAt journal' userId) =
        ((JournalRequest.commit request).serve journal).2 := by
  have hown : commitRecord (ofUser journal userId) request.record = _ := commitRecord_ofUser huser
  have hserve : request.serve (ofUser journal userId) = ofUser (request.serve journal) userId := by
    rw [CommitRequest.serve_eq, CommitRequest.serve_eq, hown]
    cases request.isAccepted with
    | false => rfl
    | true => rfl
  refine ⟨hserve, ?_⟩
  cases hlocal : request.payload.nonLocalChunks request.isPresent with
  | err e => simp [JournalRequest.serve, Server.commit, hlocal, JournalAnswer.renumber]
  | panic => simp [JournalRequest.serve, Server.commit, hlocal, JournalAnswer.renumber]
  | ok absent =>
    by_cases hnil : absent = []
    · -- the id that is answered is that of the latest record of the path
      have haccepted : request.serve journal = (commitRecord journal request.record).2 := by
        rw [CommitRequest.serve_eq, CommitRequest.isAccepted, hlocal, hnil]
        rfl
      obtain ⟨r, hlatest, hid, -⟩ := latestForPath_commitRecord
        (Prod.eta (commitRecord journal request.record)).symm
      obtain ⟨hmem, hruser, -⟩ := latestForPath_spec hlatest
      have hjid : jidAt journal' userId (jidRank _ userId r.id) = r.id :=
        jidAt_jidRank (haccepted ▸ hgrown) hmem (hruser.trans huser)
      rw [hid] at hjid
      simp only [JournalRequest.serve, Server.commit, hlocal, hnil, Outcome.ok_bind, if_true]
      change JournalAnswer.committed (.ok (.success (jidAt journal' userId
        (commitRecord (ofUser journal userId) request.record).1))) = _
      rw [hown, hjid]
      rfl
    · simp [JournalRequest.serve, Server.commit, hlocal, hnil, JournalAnswer.renumber,
        CommitResultStatus.renumber]

/-- The rows of a user that are newer than a cursor are those of her own journal. -/
theorem listed_ofUser (hgrown : journal.rows <+: journal'.rows) (jid : Int) :
    (JournalAnswer.listed (list (ofUser journal userId) userId (jidRank journal userId jid)) :
        JournalAnswer ε).renumber (jidAt journal' userId) =
      .listed (list journal userId jid) := by
  have hrows : list (ofUser journal userId) userId (jidRank journal userId jid) =
      (list journal userId jid).map fun r ↦ r.setId (jidRank journal userId r.id) :=
    Table.latest_restrict_newer FileRecord.id_setId (fun _ _ ↦ rfl) (fun _ _ ↦ rfl) jid
  rw [JournalAnswer.renumber, hrows, List.map_map]
  congr 1
  refine (List.map_congr_left fun r hr ↦ ?_).trans (List.map_id _)
  obtain ⟨hmem, huser, -⟩ := latestForPath_spec ((mem_list_iff journal userId jid r).mp hr).1
  have hjid := jidAt_jidRank hgrown hmem huser
  change r.setId (jidAt journal' userId (jidRank journal userId r.id)) = r
  rw [hjid]
  rfl

theorem hasFiles_ofUser : hasFiles (ofUser journal userId) userId = hasFiles journal userId := by
  have hrows : (ofUser journal userId).latest (·.userId == userId) FileRecord.path =
      (journal.latest (·.userId == userId) FileRecord.path).map fun r ↦
        r.setId (jidRank journal userId r.id) :=
    Table.latest_restrict FileRecord.id_setId (fun _ _ ↦ rfl) (fun _ _ ↦ rfl)
  rw [hasFiles, hrows, List.any_map]
  rfl

end Own

/-! ## 4. All requests -/

theorem serve_of_viewOf_eq_none {journal : Journal} {userId : Int} {request : JournalRequest ε}
    (h : viewOf journal userId request = none) :
    ofUser (request.serve journal).1 userId = ofUser journal userId := by
  have hother : request.userId ≠ userId := fun huser ↦ by simp [viewOf, huser] at h
  cases request with
  | commit request => exact serve_ofUser_of_ne hother
  | list user jid => rfl
  | hasFiles user => rfl

theorem serve_of_viewOf_eq_some {journal : Journal} {userId : Int}
    {request request' : JournalRequest ε} (h : viewOf journal userId request = some request') :
    (request'.serve (ofUser journal userId)).1 = ofUser (request.serve journal).1 userId ∧
      ∀ journal' : Journal, (request.serve journal).1.rows <+: journal'.rows →
        (request'.serve (ofUser journal userId)).2.renumber (jidAt journal' userId) =
          (request.serve journal).2 := by
  rw [viewOf, Option.ite_none_right_eq_some, Option.some.injEq] at h
  obtain ⟨rfl, rfl⟩ := h
  cases request with
  | commit request =>
    exact ⟨(committed_ofUser rfl List.prefix_rfl).1, fun _ hgrown ↦ (committed_ofUser rfl hgrown).2⟩
  | list user jid => exact ⟨rfl, fun _ hgrown ↦ listed_ofUser hgrown jid⟩
  | hasFiles user => exact ⟨rfl, fun _ _ ↦ congrArg JournalAnswer.hasFiles hasFiles_ofUser⟩

/-- The journal of one user, as part of the journal of all. -/
def ownPart (ε : Type) (userId : Int) :
    Service.Projection (JournalRequest.service ε) (JournalRequest.service ε) where
  project journal := ofUser journal userId
  view journal := viewOf journal userId
  read journal := JournalAnswer.renumber (jidAt journal userId)
  Before journal journal' := journal.rows <+: journal'.rows
  refl _ := List.prefix_rfl
  before_serve journal request _ h := (request.prefix_serve journal).trans h
  serve_of_none _ _ h := serve_of_viewOf_eq_none h
  serve_of_some _ _ _ h := serve_of_viewOf_eq_some h

/-- Whatever all users ask, in whatever order, each gets the answers that a server gives that
serves nobody else, under other ids in the same order. -/
theorem answers_alone (userId : Int) (requests : List (JournalRequest ε)) :
    let server := JournalRequest.service ε
    let journal := (server.run Table.empty requests).1
    (server.run Table.empty (server.views (viewOf · userId) Table.empty requests)).2.map
        (JournalAnswer.renumber (jidAt journal userId)) =
        server.seen (viewOf · userId) Table.empty requests ∧
      ∀ r ∈ journal.rows, r.userId = userId → ∀ s ∈ journal.rows, s.userId = userId →
        (jidRank journal userId r.id < jidRank journal userId s.id ↔ r.id < s.id) ∧
          jidAt journal userId (jidRank journal userId r.id) = r.id := by
  intro server journal
  refine ⟨((ownPart ε userId).run_views Table.empty requests).2, ?_⟩
  intro r hr hruser s hs hsuser
  refine ⟨?_, jidAt_jidRank List.prefix_rfl hr hruser⟩
  have hscope : (s.userId == userId) = true := beq_iff_eq.mpr hsuser
  exact Table.rank_lt_rank_iff hs hscope r.id

end CooklangSync.Server
