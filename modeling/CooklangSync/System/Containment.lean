import CooklangSync.Client.Containment
import CooklangSync.System.Peers

/-!
# Containment — what a client of the user can make another one write

The server stores the path of a commit as it comes, and lists it to the other clients of the user.
What these change on disk stays below their storage directories as long as every path that is
committed is contained (`checkDownloadOnce_contained`).
-/

namespace CooklangSync.System

open Theory

/-! ## 1. Journals -/

structure CommitRequest where
  userId : Int
  payload : Server.CommitPayload
  isPresent : Text → Outcome Unit Bool

/-- The journals that requests of any users build. -/
def commits : System Server.Journal CommitRequest where
  init journal := journal = Table.empty
  step journal request :=
    match Server.commit request.isPresent journal request.userId request.payload with
    | .ok (_, journal) => some journal
    | _ => none

/-- The user commits paths that are contained in a client's storage directory. -/
def CommitsContained (basePath : Path Name) (userId : Int) :
    Server.Journal → CommitRequest → Prop :=
  fun _ request ↦ request.userId = userId → Client.IsContained basePath request.payload.path

/-- The paths of a journal are paths of its commits. -/
theorem isContained_of_mem {basePath : Path Name} {userId : Int} {journal : Server.Journal}
    (h : commits.Reachable (CommitsContained basePath userId) journal) {r : Server.FileRecord}
    (hr : r ∈ journal.rows) (huser : r.userId = userId) : Client.IsContained basePath r.path := by
  let Inv : Server.Journal → Prop := fun journal ↦
    ∀ r ∈ journal.rows, r.userId = userId → Client.IsContained basePath r.path
  have hinit : ∀ journal, commits.init journal → Inv journal := by
    rintro journal rfl r hr
    cases hr
  have hnext : ∀ journal request journal', Inv journal →
      CommitsContained basePath userId journal request →
      commits.step journal request = some journal' → Inv journal' := by
    intro journal request journal' hinv hok hstep r hr huser
    change (match Server.commit request.isPresent journal request.userId request.payload with
      | .ok (_, journal) => some journal
      | _ => none) = some journal' at hstep
    split at hstep
    · next status journal₁ hcommit =>
      cases hstep
      rcases Server.commit_journal _ hcommit with rfl | rfl
      · exact hinv r hr huser
      · rcases List.mem_append.mp hr with hr | hr
        · exact hinv r hr huser
        · rw [List.mem_singleton.mp hr] at huser ⊢
          exact hok huser
    · cases hstep
  exact h.invariant hinit hnext r hr huser

/-! ## 2. Download passes -/

/-- Where the user's commits are contained, no download pass changes anything at or outside the
storage directory. -/
theorem checkDownloadOnce_contained {basePath : Path Name} {userId : Int}
    {journal : Server.Journal}
    (h : commits.Reachable (CommitsContained basePath userId) journal) (jid : Int)
    {response : List Client.ResponseFileRecord}
    (hresponse : response.Perm ((Server.list journal userId jid).map respond))
    (sha256 : Bytes → Text) (env : Client.Syncer.DownloadEnv) (namespaceId : Int)
    {s : Client.ClientState} (hbase : s.chunker.basePath = basePath)
    (hdir : s.disk.isDir basePath = true) (hlinks : s.disk.LinkFree) :
    Client.ChangedBelow (Client.basePlace basePath) s.disk
      (Client.Syncer.checkDownloadOnce sha256 env (fun _ ↦ .ok response) namespaceId s).1.disk := by
  rw [← hbase] at hdir h ⊢
  apply Client.Syncer.checkDownloadOnce_changedBelow sha256 env namespaceId rfl
    (Client.guarded_of_isDir hlinks hdir)
  intro d hd
  obtain ⟨r, hr, rfl⟩ := List.mem_map.mp ((hresponse.mem_iff).mp hd)
  have hspec := Server.latestForPath_spec ((Server.mem_list_iff _ _ _ _).mp hr).1
  exact isContained_of_mem h hspec.1 hspec.2.1

-- An example: the storage directory `/s`, and an empty file that another client has committed.
def committedPath (path : Text) : CommitRequest := ⟨1, ⟨path, false, []⟩, fun _ ↦ .ok true⟩

def journalOf (path : Text) : Server.Journal :=
  (Server.insertNewRecord Table.empty ⟨1, [], false, path⟩).2

theorem step_committedPath (path : Text) :
    commits.step Table.empty (committedPath path) = some (journalOf path) := rfl

def emptyStorage : Client.ClientState where
  registry := Table.empty
  chunker := ⟨⟨fun _ ↦ none, 0, fun _ _ ↦ false⟩, parsePath "/s".toList⟩
  disk := FileTree.root.put [115] [] .dir

def downloadOf (path : Text) : Client.ClientState × Outcome Client.SyncError Bool :=
  Client.Syncer.checkDownloadOnce (fun _ ↦ []) (Client.Syncer.deletionEnv false)
    (fun _ ↦ .ok [⟨1, path, false, []⟩]) 1 emptyStorage

theorem checkDownloadOnce_contained_recipe :
    (downloadOf "a.cook".toList).2 = .ok true ∧
      Client.ChangedBelow (Client.basePlace (parsePath "/s".toList)) emptyStorage.disk
        (downloadOf "a.cook".toList).1.disk := by
  refine ⟨by decide +kernel, ?_⟩
  have hcontained : Client.IsContained (parsePath "/s".toList) "a.cook".toList := by decide +kernel
  have hreach : commits.Reachable (CommitsContained (parsePath "/s".toList) 1)
      (journalOf "a.cook".toList) :=
    System.Reachable.step (committedPath "a.cook".toList) (System.Reachable.init rfl)
      (fun _ ↦ hcontained) (step_committedPath _)
  have hlisted : [⟨1, "a.cook".toList, false, []⟩] =
      (Server.list (journalOf "a.cook".toList) 1 0).map respond := by decide +kernel
  have hdir : emptyStorage.disk.isDir (parsePath "/s".toList) = true := by decide
  have hlinks : emptyStorage.disk.LinkFree := by decide +kernel
  have hbase : emptyStorage.chunker.basePath = parsePath "/s".toList := rfl
  exact checkDownloadOnce_contained hreach 0 (List.Perm.of_eq hlisted) (fun _ ↦ [])
    (Client.Syncer.deletionEnv false) 1 hbase hdir hlinks

-- The file is written beside the storage directory.
theorem checkDownloadOnce_escapes :
    ¬ ∀ (userId jid : Int) (journal : Server.Journal)
      (response : List Client.ResponseFileRecord) (sha256 : Bytes → Text)
      (env : Client.Syncer.DownloadEnv) (namespaceId : Int) (s : Client.ClientState),
      commits.Reachable System.anyAction journal →
      response.Perm ((Server.list journal userId jid).map respond) →
      s.disk.isDir s.chunker.basePath = true →
      Client.ChangedBelow (Client.basePlace s.chunker.basePath) s.disk
        (Client.Syncer.checkDownloadOnce sha256 env (fun _ ↦ .ok response) namespaceId s).1.disk := by
  intro h
  have hreach : commits.Reachable System.anyAction (journalOf "../a.cook".toList) :=
    System.Reachable.step (committedPath "../a.cook".toList) (System.Reachable.init rfl) trivial
      (step_committedPath _)
  have hlisted : [⟨1, "../a.cook".toList, false, []⟩] =
      (Server.list (journalOf "../a.cook".toList) 1 0).map respond := by decide +kernel
  have hdir : emptyStorage.disk.isDir emptyStorage.chunker.basePath = true := by decide +kernel
  have hchanged := h 1 0 (journalOf "../a.cook".toList) [⟨1, "../a.cook".toList, false, []⟩]
    (fun _ ↦ []) (Client.Syncer.deletionEnv false) 1 emptyStorage hreach
    (List.Perm.of_eq hlisted) hdir
  have hout : ¬ Below (Client.basePlace emptyStorage.chunker.basePath)
      [toUtf8 "a.cook".toList] := by decide
  have hsame := hchanged [toUtf8 "a.cook".toList] hout
  have hbefore : emptyStorage.disk.lookup [toUtf8 "a.cook".toList] = none := by decide +kernel
  have hafter : ((downloadOf "../a.cook".toList).1.disk.lookup
      [toUtf8 "a.cook".toList]).isSome = true := by decide +kernel
  rw [downloadOf, hsame, hbefore] at hafter
  cases hafter

end CooklangSync.System
