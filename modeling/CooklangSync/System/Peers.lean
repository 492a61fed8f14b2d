import CooklangSync.Client.Cursor
import CooklangSync.Client.Upload
import CooklangSync.Server.Metadata
import CooklangSync.Theory.Run
import Mathlib.Logic.Function.Basic

/-!
# Peers — the clients of one user and the server's journal

A client asks the server for the records past its cursor, the greatest jid of its registry.  The
cursor is moved by the records a download pass has carried out, and also by the client's own
commits, which are answered with the newest id of the journal: a client that commits before it has
seen the others' records skips them (`noMissedUpdate_of_upToDate` has the condition).
-/

namespace CooklangSync.System

open Theory

/-! ## 1. Runs -/

/-- A client, with the ids its commits were answered with and those its download passes have
carried out. -/
structure Peer where
  state : Client.ClientState
  committed : List Int
  applied : List Int

structure Peers (ι : Type) where
  journal : Server.Journal
  peer : ι → Peer

/-- One thing that happens: the disk of a client changes, a client makes an index pass, has a commit
accepted or completes a download pass, or another user commits. -/
inductive PeerAction (ι : Type) where
  | edit (c : ι) (disk : Client.Disk)
  | index (c : ι) (env : Client.ScanEnv) (order : Client.IterationOrder)
      (faults : Client.IndexFaults)
  | commit (c : ι) (f : Client.FileRecord) (reads : Client.Chunker.ReadEnv)
      (isPresent : Text → Outcome Unit Bool)
  | download (c : ι) (env : Client.Syncer.DownloadEnv) (response : List Client.ResponseFileRecord)
  | foreign (userId : Int) (payload : Server.CommitPayload) (isPresent : Text → Outcome Unit Bool)

/-- The record as the client reads it from the response. -/
def respond (r : Server.FileRecord) : Client.ResponseFileRecord where
  id := r.id
  path := r.path
  deleted := r.deleted
  chunkIds := r.chunkIds

namespace Peers

section Runs

variable {ι : Type} [DecidableEq ι] (sha256 : Bytes → Text) (userId : Int) (namespaceId : ι → Int)

def set (σ : Peers ι) (c : ι) (p : Peer) : Peers ι :=
  { σ with peer := Function.update σ.peer c p }

def registry (σ : Peers ι) (c : ι) : Client.Registry := (σ.peer c).state.registry

/-- The rows that an upload pass works from may be older than the registry, but carry no jid until
they are committed. -/
def isPending (σ : Peers ι) (c : ι) (f : Client.FileRecord) : Bool :=
  (σ.registry c).rows.contains f && f.jid.isNone && f.namespaceId == namespaceId c

def isResponse (σ : Peers ι) (c : ι) (env : Client.Syncer.DownloadEnv)
    (response : List Client.ResponseFileRecord) : Bool :=
  response.isPerm ((Server.list σ.journal userId
    (Client.Syncer.latestLocal env (σ.peer c).state (namespaceId c))).map respond)

def next (σ : Peers ι) : PeerAction ι → Option (Peers ι)
  | .edit c disk =>
    let p := σ.peer c
    some (σ.set c { p with state := { p.state with disk := disk } })
  | .index c env order faults =>
    let p := σ.peer c
    let r := Client.checkIndexOnce p.state.registry p.state.disk env order faults
      p.state.chunker.basePath (namespaceId c)
    some (σ.set c { p with state := { p.state with registry := r.1 } })
  | .commit c f reads isPresent =>
    let p := σ.peer c
    if σ.isPending namespaceId c f then
      match Client.Syncer.hashFile sha256 reads p.state f with
      | (chunker, .ok chunkIds) =>
        match Server.commit isPresent σ.journal userId ⟨f.path, f.deleted, chunkIds⟩ with
        | .ok (.success jid, journal) =>
          some (set { σ with journal := journal } c
            { state := { p.state with registry := p.state.registry.updateJid f jid
                                      chunker := chunker }
              committed := p.committed ++ [jid]
              applied := p.applied })
        | _ => none
      | _ => none
    else none
  | .download c env response =>
    let p := σ.peer c
    if σ.isResponse userId namespaceId c env response then
      match Client.Syncer.checkDownloadOnce sha256 env (fun _ ↦ .ok response) (namespaceId c)
        p.state with
      | (state, .ok _) =>
        some (σ.set c
          { p with
              state := state
              applied := p.applied ++ response.map Client.ResponseFileRecord.id })
      | _ => none
    else none
  | .foreign other payload isPresent =>
    if other = userId then none
    else
      match Server.commit isPresent σ.journal other payload with
      | .ok (_, journal) => some { σ with journal := journal }
      | _ => none

/-- The journal and all registries are empty. -/
def fresh (σ : Peers ι) : Prop :=
  σ.journal = Table.empty ∧
    ∀ c, σ.registry c = Table.empty ∧ (σ.peer c).committed = [] ∧ (σ.peer c).applied = []

def system : System (Peers ι) (PeerAction ι) where
  init := fresh
  step := next sha256 userId namespaceId

/-! ## 2. Missed updates -/

/-- The cursor of the registry has passed the id. -/
def Passed (registry : Client.Registry) (namespaceId id : Int) : Prop :=
  ∃ j, registry.latestJid namespaceId = some j ∧ id ≤ j

def IsSuperseded (journal : Server.Journal) (r : Server.FileRecord) : Prop :=
  ∃ later ∈ journal.rows, later.userId = r.userId ∧ later.path = r.path ∧ r.id < later.id

/-- Every record of the user that a cursor has passed was committed or carried out by its client,
or is superseded. -/
def NoMissedUpdate (σ : Peers ι) : Prop :=
  ∀ c, ∀ r ∈ σ.journal.rows, r.userId = userId → Passed (σ.registry c) (namespaceId c) r.id →
    r.id ∈ (σ.peer c).committed ∨ r.id ∈ (σ.peer c).applied ∨ IsSuperseded σ.journal r

/-- The client that commits has nothing to download from others, except records of the path it
commits and, when the server answers with an existing record, records after that one. -/
def UpToDate (σ : Peers ι) : PeerAction ι → Prop
  | .commit c f reads _ =>
    ∀ r ∈ Server.list σ.journal userId (((σ.registry c).latestJid (namespaceId c)).getD 0),
      r.path = f.path ∨ r.id ∈ (σ.peer c).committed ∨
        ∃ chunkIds existing,
          (Client.Syncer.hashFile sha256 reads (σ.peer c).state f).2 = .ok chunkIds ∧
          Server.latestForPath σ.journal userId f.path = some existing ∧
          Server.isNoOp existing ⟨userId, chunkIds, f.deleted, f.path⟩ = true ∧ existing.id < r.id
  | _ => True

end Runs

/-! ## 3. Cursors and the newest records -/

theorem passed_iff (registry : Client.Registry) (namespaceId id : Int) :
    Passed registry namespaceId id ↔ ∃ j ∈ registry.jids namespaceId, id ≤ j := by
  constructor
  · rintro ⟨j, hj, hle⟩
    exact ⟨j, ((Client.Registry.latestJid_eq_some_iff _ _ _).mp hj).1, hle⟩
  · rintro ⟨j, hj, hle⟩
    obtain ⟨m, hm, hjm⟩ := Client.Registry.latestJid_isSome hj
    exact ⟨m, hm, by omega⟩

theorem latestForPath_of_not_superseded {journal : Server.Journal} {r : Server.FileRecord}
    (hr : r ∈ journal.rows) (h : ¬ IsSuperseded journal r) :
    Server.latestForPath journal r.userId r.path = some r := by
  rw [Server.latestForPath, Table.latestOf, Table.lastOf_eq_some_iff]
  refine ⟨hr, by simp, fun s hs hkey ↦ ?_⟩
  simp only [Bool.and_eq_true, beq_iff_eq] at hkey
  by_contra hlt
  exact h ⟨s, hs, hkey.1, hkey.2, by omega⟩

/-- A newest record that the cursor has not passed is listed. -/
theorem mem_list_of_not_passed {journal : Server.Journal} {r : Server.FileRecord}
    (hr : r ∈ journal.rows) (hpos : 0 < r.id) (h : ¬ IsSuperseded journal r)
    {registry : Client.Registry} {namespaceId : Int} (hp : ¬ Passed registry namespaceId r.id) :
    r ∈ Server.list journal r.userId ((registry.latestJid namespaceId).getD 0) := by
  rw [Server.mem_list_iff]
  refine ⟨latestForPath_of_not_superseded hr h, ?_⟩
  cases hm : registry.latestJid namespaceId with
  | none => exact hpos
  | some m =>
    show m < r.id
    by_contra hle
    exact hp ⟨m, hm, by omega⟩

/-! ## 4. The invariant -/

/-- The journal is kept or has one record more. -/
def Grown (journal journal' : Server.Journal) : Prop :=
  journal' = journal ∨ ∃ record, journal' = (Server.insertNewRecord journal record).2

theorem Grown.rows {journal journal' : Server.Journal} (h : Grown journal journal') :
    (∀ r ∈ journal.rows, r ∈ journal'.rows) ∧
      (∀ r ∈ journal'.rows, r ∈ journal.rows ∨ r.id = journal.nextId) ∧
      journal.nextId ≤ journal'.nextId := by
  rcases h with rfl | ⟨record, rfl⟩
  · exact ⟨fun _ hr ↦ hr, fun _ hr ↦ .inl hr, Int.le_refl _⟩
  · refine ⟨fun r hr ↦ List.mem_append_left _ hr, fun r hr ↦ ?_, ?_⟩
    · rcases List.mem_append.mp hr with hr | hr
      · exact .inl hr
      · rw [List.mem_singleton.mp hr]
        exact .inr rfl
    · have hnext := journal.nextId_insert record.withId record.id_withId
      show journal.nextId ≤ (journal.insert record.withId record.id_withId).nextId
      omega

theorem Grown.nextId_le {journal journal' : Server.Journal} (h : Grown journal journal') :
    journal'.nextId ≤ journal.nextId + 1 := by
  rcases h with rfl | ⟨record, rfl⟩
  · omega
  · exact Int.le_of_eq (journal.nextId_insert record.withId record.id_withId)

theorem IsSuperseded.grown {journal journal' : Server.Journal} (h : Grown journal journal')
    {r : Server.FileRecord} (hr : IsSuperseded journal r) : IsSuperseded journal' r := by
  obtain ⟨later, hlater, hrest⟩ := hr
  exact ⟨later, h.rows.1 later hlater, hrest⟩

section Invariant

variable {ι : Type} [DecidableEq ι] {sha256 : Bytes → Text} {userId : Int} {namespaceId : ι → Int}

/-- Ids are positive, every jid of a registry is the id of a record, and nothing is missed. -/
structure Inv (userId : Int) (namespaceId : ι → Int) (σ : Peers ι) : Prop where
  positive : ∀ r ∈ σ.journal.rows, 0 < r.id
  known : ∀ c, ∀ j ∈ (σ.registry c).jids (namespaceId c), j < σ.journal.nextId
  noMissed : NoMissedUpdate userId namespaceId σ

theorem registry_set (σ : Peers ι) (c : ι) (p : Peer) (e : ι) :
    (σ.set c p).registry e = if e = c then p.state.registry else σ.registry e := by
  rw [registry, set]
  by_cases h : e = c
  · rw [if_pos h, h]
    simp
  · rw [if_neg h]
    simp [h, registry]

theorem peer_set_of_ne (σ : Peers ι) {c e : ι} (h : e ≠ c) (p : Peer) :
    (σ.set c p).peer e = σ.peer e := by
  simp [set, h]

theorem peer_set_self (σ : Peers ι) (c : ι) (p : Peer) : (σ.set c p).peer c = p := by
  simp [set]

omit [DecidableEq ι] in
theorem Inv.init {σ : Peers ι} (h : σ.fresh) : Inv userId namespaceId σ := by
  have hrows : σ.journal.rows = [] := by rw [h.1]; rfl
  refine ⟨by simp [hrows], fun c j hj ↦ ?_, by simp [NoMissedUpdate, hrows]⟩
  rw [(h.2 c).1] at hj
  cases hj

omit [DecidableEq ι] in
/-- A record that has just been inserted is past every cursor. -/
theorem Inv.grown {σ : Peers ι} (h : Inv userId namespaceId σ) {journal : Server.Journal}
    (hgrown : Grown σ.journal journal) : Inv userId namespaceId { σ with journal := journal } := by
  obtain ⟨-, hnew, hnext⟩ := hgrown.rows
  refine ⟨fun r hr ↦ ?_, fun c j hj ↦ ?_, fun c r hr huser hpassed ↦ ?_⟩
  · rcases hnew r hr with hold | hid
    · exact h.positive r hold
    · rw [hid]
      exact σ.journal.nextId_pos h.positive
  · have hlt := h.known c j hj
    show j < journal.nextId
    omega
  · rcases hnew r hr with hold | hid
    · rcases h.noMissed c r hold huser hpassed with hdone | hdone | hdone
      · exact .inl hdone
      · exact .inr (.inl hdone)
      · exact .inr (.inr (hdone.grown hgrown))
    · obtain ⟨j, hj, hle⟩ := (passed_iff _ _ _).mp hpassed
      have hlt := h.known c j hj
      omega

/-- The step of one client: only its own records have to be looked at again. -/
theorem Inv.set {σ : Peers ι} (h : Inv userId namespaceId σ) {c : ι} {p : Peer}
    (hknown : ∀ j ∈ p.state.registry.jids (namespaceId c), j < σ.journal.nextId)
    (hmissed : ∀ r ∈ σ.journal.rows, r.userId = userId →
      Passed p.state.registry (namespaceId c) r.id → ¬ IsSuperseded σ.journal r →
      r.id ∈ p.committed ∨ r.id ∈ p.applied) :
    Inv userId namespaceId (σ.set c p) := by
  refine ⟨h.positive, fun e j hj ↦ ?_, fun e r hr huser hpassed ↦ ?_⟩
  · rw [registry_set] at hj
    split at hj
    · rename_i heq
      exact hknown j (heq ▸ hj)
    · exact h.known e j hj
  · rw [registry_set] at hpassed
    by_cases heq : e = c
    · rw [if_pos heq, heq] at hpassed
      rw [heq, peer_set_self]
      by_cases hsup : IsSuperseded σ.journal r
      · exact .inr (.inr hsup)
      · exact (hmissed r hr huser hpassed hsup).elim .inl fun hdone ↦ .inr (.inl hdone)
    · rw [if_neg heq] at hpassed
      rw [peer_set_of_ne σ heq]
      exact h.noMissed e r hr huser hpassed

/-- A client whose jids stay has missed nothing. -/
theorem Inv.set_of_jids {σ : Peers ι} (h : Inv userId namespaceId σ) {c : ι} {p : Peer}
    (hjids : p.state.registry.jids (namespaceId c) = (σ.registry c).jids (namespaceId c))
    (hcommitted : p.committed = (σ.peer c).committed) (happlied : p.applied = (σ.peer c).applied) :
    Inv userId namespaceId (σ.set c p) := by
  refine h.set (fun j hj ↦ h.known c j (hjids ▸ hj)) fun r hr huser hpassed hsup ↦ ?_
  rw [passed_iff, hjids, ← passed_iff] at hpassed
  rw [hcommitted, happlied]
  rcases h.noMissed c r hr huser hpassed with hdone | hdone | hdone
  · exact .inl hdone
  · exact .inr hdone
  · exact absurd hdone hsup

/-! ## 5. The steps -/

theorem next_commit {σ σ' : Peers ι} {c : ι} {f : Client.FileRecord}
    {reads : Client.Chunker.ReadEnv} {isPresent : Text → Outcome Unit Bool}
    (h : next sha256 userId namespaceId σ (.commit c f reads isPresent) = some σ') :
    ∃ chunker chunkIds jid journal,
      Client.Syncer.hashFile sha256 reads (σ.peer c).state f = (chunker, .ok chunkIds) ∧
      Server.commit isPresent σ.journal userId ⟨f.path, f.deleted, chunkIds⟩ =
        .ok (.success jid, journal) ∧
      σ' = set { σ with journal := journal } c
        { state := { (σ.peer c).state with
                      registry := (σ.registry c).updateJid f jid
                      chunker := chunker }
          committed := (σ.peer c).committed ++ [jid]
          applied := (σ.peer c).applied } := by
  rw [next] at h
  split at h
  · cases hhash : Client.Syncer.hashFile sha256 reads (σ.peer c).state f with
    | mk chunker outcome =>
      rw [hhash] at h
      cases outcome with
      | err e => cases h
      | panic => cases h
      | ok chunkIds =>
        simp only at h
        split at h
        · rename_i jid journal hcommit
          cases h
          exact ⟨chunker, chunkIds, jid, journal, rfl, hcommit, rfl⟩
        · cases h
  · cases h

theorem next_download {σ σ' : Peers ι} {c : ι} {env : Client.Syncer.DownloadEnv}
    {response : List Client.ResponseFileRecord}
    (h : next sha256 userId namespaceId σ (.download c env response) = some σ') :
    response.Perm ((Server.list σ.journal userId
      (Client.Syncer.latestLocal env (σ.peer c).state (namespaceId c))).map respond) ∧
    ∃ state changed,
      Client.Syncer.checkDownloadOnce sha256 env (fun _ ↦ .ok response) (namespaceId c)
        (σ.peer c).state = (state, .ok changed) ∧
      σ' = σ.set c
        { σ.peer c with
            state := state
            applied := (σ.peer c).applied ++ response.map Client.ResponseFileRecord.id } := by
  rw [next] at h
  split at h
  · rename_i hresponse
    refine ⟨List.isPerm_iff.mp hresponse, ?_⟩
    split at h
    · rename_i state changed hpass
      cases h
      exact ⟨state, changed, hpass, rfl⟩
    · cases h
  · cases h

omit [DecidableEq ι] in
/-- A record between the old cursor and the answered jid: an earlier commit of the client was
answered with it, or this one. -/
theorem Inv.answered {σ : Peers ι} (hinv : Inv userId namespaceId σ) {c : ι}
    {f : Client.FileRecord} {reads : Client.Chunker.ReadEnv} {isPresent : Text → Outcome Unit Bool}
    (hok : UpToDate sha256 userId namespaceId σ (.commit c f reads isPresent)) {chunkIds : Text}
    (hhash : (Client.Syncer.hashFile sha256 reads (σ.peer c).state f).2 = .ok chunkIds) {jid : Int}
    {journal : Server.Journal} (hgrown : Grown σ.journal journal)
    (hrecord : Server.commitRecord σ.journal ⟨userId, chunkIds, f.deleted, f.path⟩ =
      (jid, journal)) {r : Server.FileRecord} (hr : r ∈ journal.rows) (huser : r.userId = userId)
    (hsup : ¬ IsSuperseded journal r)
    (hnew : ¬ Passed (σ.registry c) (namespaceId c) r.id) (hle : r.id ≤ jid) :
    r.id = jid ∨ r.id ∈ (σ.peer c).committed := by
  obtain ⟨answered, hlatest, hid, -, -⟩ := Server.latestForPath_commitRecord hrecord
  rcases hgrown.rows.2.1 r hr with hrow | hlast
  · have hlisted := mem_list_of_not_passed hrow (hinv.positive r hrow)
      (fun hs ↦ hsup (hs.grown hgrown)) hnew
    rw [huser] at hlisted
    rcases hok r hlisted with hpath | hdone | ⟨ids, existing, hids, hthere, hnoop, hafter⟩
    · -- both are the latest record of the path
      have hlatest' := latestForPath_of_not_superseded hr hsup
      rw [huser, hpath] at hlatest'
      rw [Option.some.inj (hlatest'.symm.trans hlatest)]
      exact .inl hid
    · exact .inr hdone
    · rw [hhash] at hids
      cases hids
      rw [Server.commitRecord, hthere] at hrecord
      simp only [hnoop, if_true, Prod.mk.injEq] at hrecord
      omega
  · have hbound := hgrown.nextId_le
    have hlt := journal.lt_nextId (Server.latestForPath_spec hlatest).1
    exact .inl (by omega)

theorem Inv.commit {σ σ' : Peers ι} (hinv : Inv userId namespaceId σ) {c : ι}
    {f : Client.FileRecord} {reads : Client.Chunker.ReadEnv} {isPresent : Text → Outcome Unit Bool}
    (hok : UpToDate sha256 userId namespaceId σ (.commit c f reads isPresent))
    (h : next sha256 userId namespaceId σ (.commit c f reads isPresent) = some σ') :
    Inv userId namespaceId σ' := by
  obtain ⟨chunker, chunkIds, jid, journal, hhash, hcommit, rfl⟩ := next_commit h
  have hrecord : Server.commitRecord σ.journal ⟨userId, chunkIds, f.deleted, f.path⟩ =
      (jid, journal) := Server.commit_success _ hcommit
  have hgrown : Grown σ.journal journal :=
    (Server.commitRecord_grows hrecord).imp_right fun hinsert ↦ ⟨_, hinsert⟩
  obtain ⟨answered, hlatest, hid, -, -⟩ := Server.latestForPath_commitRecord hrecord
  have hlt : jid < journal.nextId := by
    rw [← hid]
    exact journal.lt_nextId (Server.latestForPath_spec hlatest).1
  have hinv' := hinv.grown hgrown
  refine hinv'.set (fun j hj ↦ ?_) fun r hr huser hpassed hsup ↦ ?_
  · rcases Client.mem_jids_updateJid hj with hj | rfl
    · exact hinv'.known c j hj
    · exact hlt
  · by_cases hold : Passed (σ.registry c) (namespaceId c) r.id
    · rcases hinv'.noMissed c r hr huser hold with hdone | hdone | hdone
      · exact .inl (List.mem_append_left _ hdone)
      · exact .inr hdone
      · exact absurd hdone hsup
    · have hle : r.id ≤ jid := by
        obtain ⟨j, hj, hle⟩ := (passed_iff _ _ _).mp hpassed
        rcases Client.mem_jids_updateJid hj with hj | rfl
        · exact absurd ((passed_iff _ _ _).mpr ⟨j, hj, hle⟩) hold
        · exact hle
      refine .inl (List.mem_append.mpr ?_)
      rcases hinv.answered hok (by rw [hhash]) hgrown hrecord hr huser hsup hold hle with
        heq | hdone
      · exact .inr (List.mem_singleton.mpr heq)
      · exact .inl hdone

theorem Inv.download {σ σ' : Peers ι} (hinv : Inv userId namespaceId σ) {c : ι}
    {env : Client.Syncer.DownloadEnv} {response : List Client.ResponseFileRecord}
    (h : next sha256 userId namespaceId σ (.download c env response) = some σ') :
    Inv userId namespaceId σ' := by
  obtain ⟨hresponse, state, changed, hpass, rfl⟩ := next_download h
  obtain ⟨_, -, hloop⟩ := Client.Syncer.checkDownloadOnce_ok rfl hpass
  have hjids : state.registry.jids (namespaceId c) =
      (σ.registry c).jids (namespaceId c) ++ response.map Client.ResponseFileRecord.id := by
    have happlied := Client.Syncer.jids_applyRecords hloop
    exact happlied
  have hperm := hresponse.map Client.ResponseFileRecord.id
  rw [List.map_map] at hperm
  have hlisted : ∀ j, j ∈ response.map Client.ResponseFileRecord.id ↔ ∃ r, r ∈ Server.list
      σ.journal userId (Client.Syncer.latestLocal env (σ.peer c).state (namespaceId c)) ∧
        r.id = j := by
    intro j
    rw [hperm.mem_iff, List.mem_map]
    rfl
  refine hinv.set (fun j hj ↦ ?_) fun r hr huser hpassed hsup ↦ ?_
  · rw [hjids] at hj
    rcases List.mem_append.mp hj with hj | hj
    · exact hinv.known c j hj
    · obtain ⟨r, hr, rfl⟩ := (hlisted j).mp hj
      have hlatest := ((Server.mem_list_iff _ _ _ r).mp hr).1
      exact σ.journal.lt_nextId (Server.latestForPath_spec hlatest).1
  · by_cases hold : Passed (σ.registry c) (namespaceId c) r.id
    · rcases hinv.noMissed c r hr huser hold with hdone | hdone | hdone
      · exact .inl hdone
      · exact .inr (List.mem_append_left _ hdone)
      · exact absurd hdone hsup
    · -- the record is past the old cursor, so the pass has listed it
      have hmem := mem_list_of_not_passed hr (hinv.positive r hr) hsup hold
      rw [huser, Server.mem_list_iff] at hmem
      refine .inr (List.mem_append_right _ ((hlisted r.id).mpr ⟨r, ?_, rfl⟩))
      rw [Server.mem_list_iff]
      refine ⟨hmem.1, ?_⟩
      have hpos := hinv.positive r hr
      rw [Client.Syncer.latestLocal]
      split
      · exact hpos
      · exact hmem.2

/-- What one action preserves. -/
theorem Inv.next {σ σ' : Peers ι} {a : PeerAction ι} (hinv : Inv userId namespaceId σ)
    (hok : UpToDate sha256 userId namespaceId σ a)
    (h : next sha256 userId namespaceId σ a = some σ') : Inv userId namespaceId σ' := by
  cases a with
  | edit c disk =>
    cases h
    exact hinv.set_of_jids rfl rfl rfl
  | index c env order faults =>
    cases h
    obtain ⟨added, hrows, hnone⟩ := Client.rows_checkIndexOnce (σ.peer c).state.registry
      (σ.peer c).state.disk env order faults (σ.peer c).state.chunker.basePath (namespaceId c)
    exact hinv.set_of_jids (Client.jids_of_append hrows hnone (namespaceId c)) rfl rfl
  | commit c f reads isPresent => exact hinv.commit hok h
  | download c env response => exact hinv.download h
  | foreign other payload isPresent =>
    rw [Peers.next] at h
    split at h
    · cases h
    · split at h
      · rename_i status journal hcommit
        cases h
        rcases Server.commit_journal _ hcommit with heq | heq
        · exact hinv.grown (.inl heq)
        · exact hinv.grown (.inr ⟨_, heq⟩)
      · cases h

/-- In a run in which every client commits only when it is up to date, no update is missed. -/
theorem noMissedUpdate_of_upToDate {σ : Peers ι}
    (h : (system sha256 userId namespaceId).Reachable (UpToDate sha256 userId namespaceId) σ) :
    NoMissedUpdate userId namespaceId σ :=
  (h.invariant (fun _ hinit ↦ Inv.init hinit)
    fun _ _ _ hinv hok hstep ↦ hinv.next hok hstep).noMissed

end Invariant

-- An example: two clients, each with one recipe of its own in `/s`.
def recipeOf (c : Bool) : Text := if c then "b.cook".toList else "a.cook".toList

def twoPeers : Peers Bool where
  journal := Table.empty
  peer c :=
    { state :=
        { registry := Table.empty
          chunker := ⟨⟨fun _ ↦ none, 0, fun _ _ ↦ false⟩, parsePath "/s".toList⟩
          disk := (FileTree.root.put [115] [] .dir).put (toUtf8 (recipeOf c)) [[115]]
            (.file ⟨[], ⟨0, 0⟩⟩) }
      committed := []
      applied := [] }

def twoSystem : System (Peers Bool) (PeerAction Bool) := system (fun _ ↦ []) 1 (fun _ ↦ 1)

def indexAction (c : Bool) : PeerAction Bool :=
  .index c ⟨fun _ ↦ false, fun _ ↦ false, fun _ ↦ (0, ⟨0, 0⟩)⟩ ⟨.inOrder, .inOrder⟩
    ⟨false, false, false⟩

/-- The commit of the row that the first index pass has appended. -/
def commitAction (c : Bool) : PeerAction Bool :=
  .commit c ⟨1, none, false, recipeOf c, 0, ⟨0, 0⟩, 1⟩ ⟨fun _ ↦ 1, none⟩ fun _ ↦ .ok true

theorem fresh_twoPeers : twoSystem.init twoPeers := ⟨rfl, fun _ ↦ ⟨rfl, rfl, rfl⟩⟩

def downloadAction (c : Bool) (response : List Client.ResponseFileRecord) : PeerAction Bool :=
  .download c
    ⟨false, fun _ ↦ ⟨fun _ ↦ 1, none⟩, fun _ ↦ ⟨200, some [], []⟩,
      fun _ ↦ ⟨⟨none, 0, ⟨1, 0⟩⟩, ⟨false, fun _ ↦ false⟩, false, fun _ ↦ (0, ⟨0, 0⟩), false, ⟨2, 0⟩⟩⟩
    response

-- The clients take turns: each downloads what the other has committed before it commits its own
-- recipe.  Then the first one deletes its recipe, which supersedes the record of it.
def takeTurns : List (PeerAction Bool) :=
  [indexAction false, commitAction false,
    downloadAction true [⟨1, "a.cook".toList, false, []⟩], indexAction true,
    .commit true ⟨2, none, false, "b.cook".toList, 0, ⟨0, 0⟩, 1⟩ ⟨fun _ ↦ 1, none⟩ fun _ ↦ .ok true,
    downloadAction false [⟨2, "b.cook".toList, false, []⟩],
    .edit false ((FileTree.root.put [115] [] .dir).put (toUtf8 "b.cook".toList) [[115]]
      (.file ⟨[], ⟨1, 0⟩⟩)),
    indexAction false,
    .commit false ⟨3, none, true, "a.cook".toList, 0, ⟨0, 0⟩, 1⟩ ⟨fun _ ↦ 1, none⟩ fun _ ↦ .ok true,
    downloadAction true [⟨3, "a.cook".toList, true, []⟩]]

/-- A commit is made only when there is nothing to download. -/
def hasSeen (σ : Peers Bool) : PeerAction Bool → Bool
  | .commit c .. => (Server.list σ.journal 1 (((σ.registry c).latestJid 1).getD 0)).isEmpty
  | _ => true

theorem upToDate_of_hasSeen {σ : Peers Bool} {a : PeerAction Bool} (h : hasSeen σ a = true) :
    UpToDate (fun _ ↦ []) 1 (fun _ ↦ 1) σ a := by
  cases a with
  | commit c f reads isPresent =>
    intro r hr
    rw [List.isEmpty_iff.mp h] at hr
    cases hr
  | _ => trivial

theorem hasSeen_takeTurns : ∀ i < 10, (twoSystem.run twoPeers (takeTurns.take i)).all fun σ ↦
    takeTurns[i]?.all (hasSeen σ) := by
  decide +kernel

-- Three records, each of one client and carried out by the other, the last one in place of the
-- first.
theorem noMissedUpdate_takeTurns :
    ∃ σ, twoSystem.run twoPeers takeTurns = some σ ∧
      σ.journal.rows.map (·.id) = [1, 2, 3] ∧
      [(σ.peer false).committed, (σ.peer false).applied] = [[1, 3], [2]] ∧
      [(σ.peer true).committed, (σ.peer true).applied] = [[2], [1, 3]] ∧
      NoMissedUpdate 1 (fun _ ↦ 1) σ := by
  have hsome : (twoSystem.run twoPeers takeTurns).isSome := by decide +kernel
  obtain ⟨σ, hrun⟩ := Option.isSome_iff_exists.mp hsome
  have hend : (twoSystem.run twoPeers takeTurns).all fun σ ↦
      σ.journal.rows.map (·.id) == [1, 2, 3] &&
      [(σ.peer false).committed, (σ.peer false).applied] == [[1, 3], [2]] &&
      [(σ.peer true).committed, (σ.peer true).applied] == [[2], [1, 3]] := by
    decide +kernel
  rw [hrun] at hend
  simp only [Option.all_some, Bool.and_eq_true, beq_iff_eq] at hend
  refine ⟨σ, hrun, hend.1.1, hend.1.2, hend.2, ?_⟩
  apply noMissedUpdate_of_upToDate
  apply (System.Reachable.init fresh_twoPeers).run_of_ok hrun
  intro i a t ha ht
  have hseen := hasSeen_takeTurns i (List.getElem?_eq_some_iff.mp ha).1
  rw [ht, Option.all_some, ha, Option.all_some] at hseen
  exact upToDate_of_hasSeen hseen

-- Both clients commit before they download: the second skips the record of the first.
theorem noMissedUpdate_fails :
    ¬ ∀ (sha256 : Bytes → Text) (userId : Int) (namespaceId : Bool → Int) (σ : Peers Bool),
      (system sha256 userId namespaceId).Reachable System.anyAction σ →
      NoMissedUpdate userId namespaceId σ := by
  intro h
  let run := twoSystem.run twoPeers
    [indexAction false, indexAction true, commitAction false, commitAction true]
  have hsome : run.isSome := by decide +kernel
  obtain ⟨σ, hrun⟩ := Option.isSome_iff_exists.mp hsome
  have hmissed := h (fun _ ↦ []) 1 (fun _ ↦ 1) σ
    ((System.Reachable.init fresh_twoPeers).run hrun)
  have hrows : run.map (·.journal.rows) = some [⟨1, 1, [], false, "a.cook".toList⟩,
      ⟨2, 1, [], false, "b.cook".toList⟩] := by decide
  have hcursor : run.map (fun σ ↦ (σ.registry true).latestJid 1) = some (some 2) := by
    decide
  have hdone : run.map (fun σ ↦ ((σ.peer true).committed, (σ.peer true).applied)) =
      some ([2], []) := by decide
  rw [show run = some σ from hrun] at hrows hcursor hdone
  simp only [Option.map_some, Option.some.injEq, Prod.mk.injEq] at hrows hcursor hdone
  have hfirst := hmissed true ⟨1, 1, [], false, "a.cook".toList⟩ (by rw [hrows]; simp) rfl
    ⟨2, hcursor, by decide⟩
  rw [hdone.1, hdone.2, IsSuperseded, hrows] at hfirst
  revert hfirst
  decide

end Peers

end CooklangSync.System
