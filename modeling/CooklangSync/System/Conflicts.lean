import CooklangSync.System.Peers
import CooklangSync.System.Replica

/-!
# Conflicts — a download over a local change

A download pass looks neither at the pending rows nor at the files it writes to: what it leaves at a
path is what the newest record says, whatever stood there (`checkDownloadOnce_survives_iff`).
-/

namespace CooklangSync.System

open Theory

/-- The server does not have the file as it is: the newest row of its path has no jid, or the
registry has another version of it. -/
def IsUnsent (registry : Client.Registry) (namespaceId : Int) (path : Text)
    (file : Client.FileData) : Prop :=
  (∃ f ∈ registry.updatedLocally namespaceId, f.path = path) ∨
    Client.liveView registry namespaceId path ≠ some file.version

/-- The bytes are still at the path, sent or not. -/
def Survives (s : Client.ClientState) (namespaceId : Int) (path : Text) (content : Bytes) : Prop :=
  let there := (s.disk.readFile (s.chunker.fullPath path)).map Client.FileData.content = some content
  there ∨ (∃ f ∈ s.registry.updatedLocally namespaceId, f.path = path) ∧ there

/-- A client with an honest cache and no links below its storage directory. -/
structure IsSound (store : Text → Option Bytes) (base : Place Name) (s : Client.ClientState) :
    Prop where
  spells : FileTree.Spells s.chunker.basePath base
  straight : ∀ k, base <:+ k → s.disk.Straight k
  agrees : s.chunker.AgreesWith store

/-! ## 1. One pass -/

theorem survives_pass_iff {sha256 : Bytes → Text} {store : Text → Option Bytes}
    {journal : Server.Journal} {userId namespaceId j : Int} {base : Place Name}
    {s : Client.ClientState} {env : Client.Syncer.DownloadEnv}
    {response : List Client.ResponseFileRecord} {changed : Bool}
    (hpaths : PlainPaths journal userId) (hstored : ChunksStored store journal userId)
    (hdelivers : Client.Syncer.DeliversStored store env) (hsound : IsSound store base s)
    (hapart : Client.Syncer.FilesTellApart sha256 store s.chunker s.disk response)
    (hresponse : response.Perm ((Server.list journal userId j).map respond))
    (hpass : (Client.Syncer.checkDownloadOnce sha256 env (fun _ ↦ .ok response) namespaceId s).2 =
      .ok changed)
    {d : Client.ResponseFileRecord} (hd : d ∈ response) (content : Bytes) :
    Survives (Client.Syncer.checkDownloadOnce sha256 env (fun _ ↦ .ok response) namespaceId s).1
        namespaceId d.path content ↔
      d.deleted = false ∧ Client.contentOf store d.chunkIds = content := by
  have hspec := Client.Syncer.checkDownloadOnce_spec hdelivers rfl
    (plainResponse_of_replica hpaths hresponse hsound.spells hsound.straight) hsound.agrees hapart
    hpass
  revert hspec
  generalize (Client.Syncer.checkDownloadOnce sha256 env (fun _ ↦ .ok response) namespaceId s).1 = s'
  intro hspec
  obtain ⟨r, hlatest, -, rfl⟩ := (mem_response_iff hresponse d).mp hd
  have hrow := Server.latestForPath_spec hlatest
  have hread : (s'.disk.readFile (s'.chunker.fullPath r.path)).map Client.FileData.content =
      Client.Chunker.contentAt s'.disk (Client.Syncer.placeOf base (respond r)) := by
    have hplain : Client.PlainPath r.path (Client.namesOf r.path) :=
      (plain_of_response hpaths hresponse hd).1
    rw [s'.disk.readFile_of_straight (Client.Chunker.fullPath_spells hspec.spells hplain)
      (hspec.straight _ (hsound.straight _ (List.suffix_append _ _)))]
    rfl
  have hsurvives : Survives s' namespaceId r.path content ↔
      Client.Chunker.contentAt s'.disk (Client.Syncer.placeOf base (respond r)) = some content := by
    rw [← hread]
    exact or_iff_left_of_imp And.right
  show Survives s' namespaceId r.path content ↔ r.deleted = false ∧
    Client.contentOf store r.chunkIds = content
  rw [hsurvives]
  by_cases hdel : r.deleted = true
  · rw [hspec.contentAt_deleted hd hdel]
    simp [hdel]
  · have hlive : r.deleted = false := by simpa using hdel
    rw [hspec.contentAt_live hd hlive (hstored r hrow.1 hrow.2.1 hlive)]
    simp [hlive, respond]

/-! ## 2. HonestInv runs -/

section Runs

variable {ι : Type} [DecidableEq ι] {sha256 : Bytes → Text} {userId : Int} {namespaceId : ι → Int}
  {store : Text → Option Bytes} {base : ι → Place Name}

/-- Nobody puts links below a storage directory, what is committed lies under plain paths and is
stored, and no two chunks share an id. -/
def IsHonest (sha256 : Bytes → Text) (store : Text → Option Bytes) (base : ι → Place Name)
    (σ : Peers ι) : PeerAction ι → Prop
  | .edit c disk => ∀ k, base c <:+ k → disk.Straight k
  | .index .. => True
  | .commit c f _ isPresent =>
    let s := (σ.peer c).state
    (Client.PlainPath f.path (Client.namesOf f.path) ∧ Client.namesOf f.path ≠ [] ∧
      Client.IsCanonical f.path) ∧
    (∀ id, id ≠ [] → isPresent id = .ok true → (store id).isSome) ∧
    ∀ file, s.disk.readFile (s.chunker.fullPath f.path) = some file →
      Client.Chunker.TellsApart sha256 store f.path file.content
  | .download c env response =>
    let s := (σ.peer c).state
    Client.Syncer.DeliversStored store env ∧
      Client.Syncer.FilesTellApart sha256 store s.chunker s.disk response
  | .foreign .. => True

def soundSystem (sha256 : Bytes → Text) (userId : Int) (namespaceId : ι → Int)
    (store : Text → Option Bytes) (base : ι → Place Name) : System (Peers ι) (PeerAction ι) where
  init σ := σ.fresh ∧ ∀ c, IsSound store (base c) (σ.peer c).state
  step := Peers.next sha256 userId namespaceId

/-- What the honest runs keep. -/
structure HonestInv (store : Text → Option Bytes) (base : ι → Place Name) (userId : Int)
    (σ : Peers ι) : Prop where
  sound : ∀ c, IsSound store (base c) (σ.peer c).state
  paths : PlainPaths σ.journal userId
  stored : ChunksStored store σ.journal userId

theorem HonestInv.set {σ : Peers ι} (h : HonestInv store base userId σ) {c : ι} {p : Peer}
    (hp : IsSound store (base c) p.state) : HonestInv store base userId (σ.set c p) := by
  refine ⟨fun e ↦ ?_, h.paths, h.stored⟩
  by_cases heq : e = c
  · rw [heq, Peers.peer_set_self]
    exact hp
  · rw [Peers.peer_set_of_ne σ heq]
    exact h.sound e

theorem isSound_hashFile {base : Place Name} {s : Client.ClientState} (h : IsSound store base s)
    {f : Client.FileRecord}
    (hfile : ∀ file, s.disk.readFile (s.chunker.fullPath f.path) = some file →
      Client.Chunker.TellsApart sha256 store f.path file.content)
    (reads : Client.Chunker.ReadEnv) (registry : Client.Registry) :
    IsSound store base { s with
      registry := registry
      chunker := (Client.Syncer.hashFile sha256 reads s f).1 } := by
  rw [Client.Syncer.hashFile]
  by_cases hdel : f.deleted = true
  · rw [if_pos hdel]
    exact ⟨h.spells, h.straight, h.agrees⟩
  · rw [if_neg hdel]
    have hagrees := h.agrees.hashify hfile reads
    have hbase := Client.Chunker.basePath_hashify sha256 s.chunker s.disk reads f.path
    cases hhash : s.chunker.hashify sha256 s.disk reads f.path with
    | mk c ids =>
      rw [hhash] at hagrees hbase
      have hspells : FileTree.Spells c.basePath base := by
        rw [show c.basePath = s.chunker.basePath from hbase]
        exact h.spells
      cases ids <;> exact ⟨hspells, h.straight, hagrees⟩

omit [DecidableEq ι] in
theorem HonestInv.commit {σ : Peers ι} (h : HonestInv store base userId σ) {f : Client.FileRecord}
    {isPresent : Text → Outcome Unit Bool} {chunkIds : Text} {jid : Int} {journal : Server.Journal}
    (hpath : Client.PlainPath f.path (Client.namesOf f.path) ∧ Client.namesOf f.path ≠ [] ∧
      Client.IsCanonical f.path)
    (hpresent : ∀ id, id ≠ [] → isPresent id = .ok true → (store id).isSome)
    (hcommit : Server.commit isPresent σ.journal userId ⟨f.path, f.deleted, chunkIds⟩ =
      .ok (.success jid, journal)) :
    HonestInv store base userId { σ with journal := journal } := by
  rcases Server.commit_journal _ hcommit with rfl | rfl
  · exact h
  · refine ⟨h.sound, fun r hr huser ↦ ?_, fun r hr huser hlive id hid hne ↦ ?_⟩
    · rcases List.mem_append.mp hr with hr | hr
      · exact h.paths r hr huser
      · rw [List.mem_singleton.mp hr]
        exact hpath
    · rcases List.mem_append.mp hr with hr | hr
      · exact h.stored r hr huser hlive id hid hne
      · rw [List.mem_singleton.mp hr] at hid
        exact hpresent id hne (Server.isPresent_of_commit _ hcommit hid)

theorem HonestInv.next {σ σ' : Peers ι} {a : PeerAction ι} (h : HonestInv store base userId σ)
    (hok : IsHonest sha256 store base σ a)
    (hstep : Peers.next sha256 userId namespaceId σ a = some σ') : HonestInv store base userId σ' := by
  cases a with
  | edit c disk =>
    cases hstep
    exact h.set ⟨(h.sound c).spells, hok, (h.sound c).agrees⟩
  | index c env order faults =>
    cases hstep
    exact h.set ⟨(h.sound c).spells, (h.sound c).straight, (h.sound c).agrees⟩
  | commit c f reads isPresent =>
    -- the chunks that the check has found are stored, and hashing caches what is on disk
    obtain ⟨hpath, hpresent, hfile⟩ := hok
    obtain ⟨chunker, chunkIds, jid, journal, hhash, hcommit, rfl⟩ := Peers.next_commit hstep
    have hsound := isSound_hashFile (h.sound c) hfile reads ((σ.registry c).updateJid f jid)
    rw [hhash] at hsound
    exact (h.commit hpath hpresent hcommit).set hsound
  | download c env response =>
    -- the files of the response are at plain paths, so that the pass makes no link
    obtain ⟨hdelivers, hapart⟩ := hok
    obtain ⟨hresponse, state, changed, hpass, rfl⟩ := Peers.next_download hstep
    have hsound := h.sound c
    have hplain := plainResponse_of_replica h.paths hresponse hsound.spells hsound.straight
    have hspec := Client.Syncer.checkDownloadOnce_spec hdelivers rfl hplain hsound.agrees hapart
      (congrArg Prod.snd hpass)
    rw [hpass] at hspec
    exact h.set ⟨hspec.spells, fun k hk ↦ hspec.straight k (hsound.straight k hk), hspec.agrees⟩
  | foreign other payload isPresent =>
    rw [Peers.next] at hstep
    split at hstep
    · cases hstep
    · next hother =>
      split at hstep
      · next status journal hcommit =>
        cases hstep
        rcases Server.commit_journal _ hcommit with rfl | rfl
        · exact h
        · -- the new record is the other user's
          have hrow : ∀ r ∈ (Server.insertNewRecord σ.journal
              (.fromPayloadAndUserId payload other)).2.rows, r.userId = userId →
              r ∈ σ.journal.rows := by
            intro r hr huser
            rcases List.mem_append.mp hr with hr | hr
            · exact hr
            · rw [List.mem_singleton.mp hr] at huser
              exact absurd huser hother
          exact ⟨h.sound, fun r hr huser ↦ h.paths r (hrow r hr huser) huser,
            fun r hr huser ↦ h.stored r (hrow r hr huser) huser⟩
      · cases hstep

theorem HonestInv.init {σ : Peers ι} (h : (soundSystem sha256 userId namespaceId store base).init σ) :
    HonestInv store base userId σ := by
  refine ⟨h.2, fun r hr ↦ ?_, fun r hr ↦ ?_⟩
  · rw [h.1.1] at hr
    cases hr
  · rw [h.1.1] at hr
    cases hr

/-- The bytes of a listed path survive a pass exactly when its newest record is live and has these
bytes. -/
theorem checkDownloadOnce_survives_iff {σ : Peers ι}
    (h : (soundSystem sha256 userId namespaceId store base).Reachable
      (IsHonest sha256 store base) σ)
    {c : ι} {env : Client.Syncer.DownloadEnv} {j : Int}
    {response : List Client.ResponseFileRecord} {changed : Bool}
    (hhonest : IsHonest sha256 store base σ (.download c env response))
    (hresponse : response.Perm ((Server.list σ.journal userId j).map respond))
    (hpass : (Client.Syncer.checkDownloadOnce sha256 env (fun _ ↦ .ok response) (namespaceId c)
      (σ.peer c).state).2 = .ok changed)
    {d : Client.ResponseFileRecord} (hd : d ∈ response) (content : Bytes) :
    Survives (Client.Syncer.checkDownloadOnce sha256 env (fun _ ↦ .ok response) (namespaceId c)
        (σ.peer c).state).1 (namespaceId c) d.path content ↔
      d.deleted = false ∧ Client.contentOf store d.chunkIds = content := by
  have hinv : HonestInv store base userId σ := h.invariant (fun _ hinit ↦ HonestInv.init hinit)
    fun _ _ _ hinv hok hstep ↦ hinv.next hok hstep
  exact survives_pass_iff hinv.paths hinv.stored hhonest.1 (hinv.sound c) hhonest.2 hresponse hpass
    hd content

end Runs

-- Two clients have a recipe of the same name in `/s`; one of them has committed it.
def rivals (contents : Bool → Bytes) : Peers Bool where
  journal := Table.empty
  peer c :=
    { state :=
        { registry := Table.empty
          chunker := ⟨⟨fun _ ↦ none, 0, fun _ _ ↦ false⟩, parsePath "/s".toList⟩
          disk := (FileTree.root.put [115] [] .dir).put (toUtf8 "a.cook".toList) [[115]]
            (.file ⟨contents c, ⟨0, 0⟩⟩) }
      committed := []
      applied := [] }

def rivalActions (size : Nat) (isPresent : Text → Outcome Unit Bool) : List (PeerAction Bool) :=
  [Peers.indexAction false,
    .commit false ⟨1, none, false, "a.cook".toList, size, ⟨0, 0⟩, 1⟩ ⟨fun _ ↦ 1, none⟩ isPresent,
    Peers.indexAction true]

/-- Both recipes have a line, not the same one, and the server has that of the first. -/
def lineRivals : Peers Bool := rivals fun c ↦ if c then [98] else [97, 10]

def lineActions : List (PeerAction Bool) :=
  rivalActions 2 fun id ↦ .ok (recipeStore id).isSome

def rivalSystem : System (Peers Bool) (PeerAction Bool) :=
  soundSystem Client.Chunker.recipeDigest 1 (fun _ ↦ 1) recipeStore fun _ ↦ [[115]]

def lineResponse : List Client.ResponseFileRecord :=
  [⟨1, "a.cook".toList, false, "87428fc522".toList⟩]

def lineDownload : Client.Syncer.DownloadEnv where
  latestJidFails := false
  reads := fun _ ↦ ⟨fun _ ↦ 1, none⟩
  batch := fun _ ↦ ⟨200, some "multipart/mixed; boundary=B".toList,
    [.ok (toUtf8 "--B\r\nX-Chunk-ID: 87428fc522\r\n\r\na\n\r\n--B--\r\n".toList)]⟩
  records := (Client.Syncer.deletionEnv false).records

def linePass (σ : Peers Bool) : Client.ClientState × Outcome Client.SyncError Bool :=
  Client.Syncer.checkDownloadOnce Client.Chunker.recipeDigest lineDownload
    (fun _ ↦ .ok lineResponse) 1 (σ.peer true).state

/-- Only the stored line has the stored id. -/
theorem tellsApart_recipeStore (path : Text) (content : Bytes) :
    Client.Chunker.TellsApart Client.Chunker.recipeDigest recipeStore path content := by
  intro env data _ stored hstored
  have hsize : Client.Chunker.hashSize path = 10 ∨ Client.Chunker.hashSize path = 32 := by
    rw [Client.Chunker.hashSize]
    split
    · exact .inl rfl
    · exact .inr rfl
  have hothers : ∀ size, size = 10 ∨ size = 32 → ∀ other : Bytes, other = [98] ∨ other = [] →
      recipeStore (Client.Chunker.hash Client.Chunker.recipeDigest other size) = none := by
    rintro size (rfl | rfl) other (rfl | rfl) <;> decide +kernel
  by_cases hline : data = [97, 10]
  · rw [hline] at hstored ⊢
    rcases hsize with hsize | hsize
    · rw [hsize] at hstored
      have hthere : recipeStore (Client.Chunker.hash Client.Chunker.recipeDigest [97, 10] 10) =
          some [97, 10] := by decide +kernel
      exact Option.some.inj (hthere.symm.trans hstored)
    · rw [hsize] at hstored
      have hnone : recipeStore (Client.Chunker.hash Client.Chunker.recipeDigest [97, 10] 32) =
          none := by decide +kernel
      rw [hnone] at hstored
      cases hstored
  · have hsame : ∃ other : Bytes, (other = [98] ∨ other = []) ∧
        Client.Chunker.recipeDigest data = Client.Chunker.recipeDigest other := by
      by_cases hb : data = [98]
      · exact ⟨[98], .inl rfl, by rw [hb]⟩
      · exact ⟨[], .inr rfl, by
          rw [Client.Chunker.recipeDigest, if_neg hline, if_neg hb]; rfl⟩
    obtain ⟨other, hother, hdigest⟩ := hsame
    have hnone := hothers _ hsize other hother
    rw [Client.Chunker.hash, ← hdigest] at hnone
    rw [Client.Chunker.hash, hnone] at hstored
    cases hstored

theorem isHonest_lineActions (σ : Peers Bool) {a : PeerAction Bool} (ha : a ∈ lineActions) :
    IsHonest Client.Chunker.recipeDigest recipeStore (fun _ ↦ [[115]]) σ a := by
  rw [lineActions, rivalActions] at ha
  simp only [List.mem_cons, List.not_mem_nil, or_false] at ha
  rcases ha with rfl | rfl | rfl
  · trivial
  · exact ⟨by unfold Client.PlainPath; decide, fun id _ hpresent ↦ Outcome.ok.inj hpresent,
      fun file _ ↦ tellsApart_recipeStore _ file.content⟩
  · trivial

theorem init_lineRivals : rivalSystem.init lineRivals := by
  refine ⟨⟨rfl, fun _ ↦ ⟨rfl, rfl, rfl⟩⟩, fun c ↦ ⟨?_, ?_, ?_⟩⟩
  · exact ⟨by revert c; decide, by revert c; decide⟩
  · have hlinks : ∀ c, (lineRivals.peer c).state.disk.LinkFree := by decide
    exact fun k _ s _ target ↦ hlinks c s target
  · exact fun _ _ _ hentry ↦ nomatch hentry

-- The stored bytes survive, and the other client's own do not.
theorem checkDownloadOnce_survives_rivals :
    ∃ σ, rivalSystem.run lineRivals lineActions = some σ ∧ (linePass σ).2 = .ok true ∧
      Survives (linePass σ).1 1 "a.cook".toList [97, 10] ∧
      ¬ Survives (linePass σ).1 1 "a.cook".toList [98] := by
  have hsome : (rivalSystem.run lineRivals lineActions).isSome := by decide +kernel
  obtain ⟨σ, hrun⟩ := Option.isSome_iff_exists.mp hsome
  have hreach := (System.Reachable.init init_lineRivals).run_of_ok hrun fun i a t ha _ ↦
    isHonest_lineActions t (List.mem_of_getElem? ha)
  let run := rivalSystem.run lineRivals lineActions
  have hresponse : run.map (fun σ ↦ (Server.list σ.journal 1 0).map respond) =
      some lineResponse := by decide +kernel
  have hpass : run.map (fun σ ↦ (linePass σ).2) = some (.ok true) := by decide +kernel
  rw [show run = some σ from hrun] at hresponse hpass
  simp only [Option.map_some, Option.some.injEq] at hresponse hpass
  have hhonest : IsHonest Client.Chunker.recipeDigest recipeStore (fun _ ↦ [[115]]) σ
      (.download true lineDownload lineResponse) := by
    refine ⟨fun ids chunk hchunk ↦ ?_, fun d _ _ file _ ↦ tellsApart_recipeStore _ file.content⟩
    have hchunks : (Client.downloadBatch (lineDownload.batch ids)).1 =
        [("87428fc522".toList, [97, 10])] := by
      show (Client.downloadBatch (lineDownload.batch [])).1 = _
      decide +kernel
    rw [hchunks] at hchunk
    rw [List.mem_singleton.mp hchunk]
    decide +kernel
  have hsurvives := checkDownloadOnce_survives_iff hreach hhonest (.of_eq hresponse.symm) hpass
    (List.mem_singleton_self _)
  have hcontent : Client.contentOf recipeStore "87428fc522".toList = [97, 10] := by decide +kernel
  refine ⟨σ, hrun, hpass, (hsurvives [97, 10]).mpr ⟨rfl, hcontent⟩, fun h ↦ ?_⟩
  have hother := ((hsurvives [98]).mp h).2
  rw [hcontent] at hother
  cases hother

def rivalDownload (σ : Peers Bool) : Client.ClientState × Outcome Client.SyncError Bool :=
  Client.Syncer.checkDownloadOnce (fun _ ↦ []) (Client.Syncer.deletionEnv false)
    (fun _ ↦ .ok [⟨1, "a.cook".toList, false, []⟩]) 1 (σ.peer true).state

-- The other client's change is lost when its recipe has other bytes.
theorem checkDownloadOnce_destroys :
    ¬ ∀ (sha256 : Bytes → Text) (userId : Int) (namespaceId : Bool → Int) (σ : Peers Bool),
      (Peers.system sha256 userId namespaceId).Reachable System.anyAction σ →
      ∀ (c : Bool) (env : Client.Syncer.DownloadEnv) (response : List Client.ResponseFileRecord)
        (changed : Bool) (d : Client.ResponseFileRecord) (file : Client.FileData),
      σ.isResponse userId namespaceId c env response = true →
      (Client.Syncer.checkDownloadOnce sha256 env (fun _ ↦ .ok response) (namespaceId c)
        (σ.peer c).state).2 = .ok changed →
      d ∈ response →
      (σ.peer c).state.disk.readFile ((σ.peer c).state.chunker.fullPath d.path) = some file →
      IsUnsent (σ.registry c) (namespaceId c) d.path file →
      Survives (Client.Syncer.checkDownloadOnce sha256 env (fun _ ↦ .ok response) (namespaceId c)
        (σ.peer c).state).1 (namespaceId c) d.path file.content := by
  intro h
  let run := (Peers.system (fun _ ↦ []) 1 fun _ ↦ 1).run
    (rivals fun c ↦ if c then [120] else []) (rivalActions 0 fun id ↦ .ok (id == []))
  have hsome : run.isSome := by decide +kernel
  obtain ⟨σ, hrun⟩ := Option.isSome_iff_exists.mp hsome
  have hstart : (rivals fun c ↦ if c then [120] else []).fresh := ⟨rfl, fun _ ↦ ⟨rfl, rfl, rfl⟩⟩
  have hlost := h (fun _ ↦ []) 1 (fun _ ↦ 1) σ ((System.Reachable.init hstart).run hrun) true
    (Client.Syncer.deletionEnv false) [⟨1, "a.cook".toList, false, []⟩] true
    ⟨1, "a.cook".toList, false, []⟩ ⟨[120], ⟨0, 0⟩⟩
  have hresponse : run.map (fun σ ↦ σ.isResponse 1 (fun _ ↦ 1) true
      (Client.Syncer.deletionEnv false) [⟨1, "a.cook".toList, false, []⟩]) = some true := by
    decide
  have hfile : run.map (fun σ ↦ (σ.peer true).state.disk.readFile
      ((σ.peer true).state.chunker.fullPath "a.cook".toList)) = some (some ⟨[120], ⟨0, 0⟩⟩) := by
    decide +kernel
  have hpending : run.map (fun σ ↦ (((σ.registry true).updatedLocally 1).map
      Client.FileRecord.path)) = some ["a.cook".toList] := by decide
  have hpass : run.map (fun σ ↦ (rivalDownload σ).2) = some (.ok true) := by decide +kernel
  have hafter : run.map (fun σ ↦ ((rivalDownload σ).1.disk.readFile
      ((rivalDownload σ).1.chunker.fullPath "a.cook".toList)).map Client.FileData.content) =
        some (some []) := by decide +kernel
  rw [show run = some σ from hrun] at hresponse hfile hpending hpass hafter
  simp only [Option.map_some, Option.some.injEq] at hresponse hfile hpending hpass hafter
  have hunsent : IsUnsent (σ.registry true) 1 "a.cook".toList ⟨[120], ⟨0, 0⟩⟩ := by
    have hmem : "a.cook".toList ∈
        ((σ.registry true).updatedLocally 1).map Client.FileRecord.path := by
      rw [hpending]
      exact List.mem_singleton_self _
    exact .inl (List.mem_map.mp hmem)
  have hthere := hlost hresponse hpass (List.mem_singleton_self _) hfile hunsent
  have hsame := (or_iff_left_of_imp And.right).mp hthere
  have hboth : some ([] : Bytes) = some [120] := hafter.symm.trans hsame
  cases hboth

end CooklangSync.System
