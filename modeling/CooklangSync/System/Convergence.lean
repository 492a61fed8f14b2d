import CooklangSync.System.Fleet
import CooklangSync.Theory.Replicas

/-!
# Convergence — the devices of a user as replicas of one map

What the registries, the journal and the chunks come to is a map from paths to contents that every
device holds a copy of.  A device has seen the part of the journal up to its cursor; a commit
publishes one path, and a download pass fetches those that are listed.  Idle devices all hold what
is shared.
-/

namespace CooklangSync.System

open Theory
open Watched (newest newest_spec)

namespace Fleet

/-- The contents of the syncable files of a device. -/
def contentsOf (disk : Client.Disk) (base : Place Name) (p : Text) : Option Bytes :=
  if Client.isSyncablePath p = true then
    (Client.fileOf disk base p).map Client.FileData.content
  else none

section Abstraction

variable {ι : Type} (userId : Int) (namespaceId : ι → Int) (base : ι → Place Name)

/-- The part of the journal that the cursor of a device covers. -/
def seenBy (σ : Fleet ι) (c : ι) : Server.Journal :=
  σ.journal.upTo (((σ.registry c).latestJid (namespaceId c)).getD 0)

/-- The shared map, the copies, and what each device has seen. -/
def abs (σ : Fleet ι) : Replicas ι Text Bytes where
  head := snapshot σ.store σ.journal userId
  files c := contentsOf (σ.disk c) (base c)
  seen c := snapshot σ.store (σ.seenBy namespaceId c) userId

-- The commit of a deleted row withdraws the path if the file has come back in the meantime.
def act (σ : Fleet ι) : FleetAction ι → Option (ReplicaAction ι Text Bytes)
  | .edit c disk => some (.edit c (contentsOf disk (base c)))
  | .commit c f _ =>
    some (if f.deleted = true ∧ (contentsOf (σ.disk c) (base c) f.path).isSome then
      .withdraw c f.path else .publish c f.path)
  | .download c _ response =>
    some (.fetch c {p | p ∈ response.map Client.ResponseFileRecord.path})
  | _ => none

end Abstraction

section Convergence

variable {ι : Type} [DecidableEq ι] {sha256 : Bytes → Text} {userId : Int} {namespaceId : ι → Int}
  {bytesOf : Text → Bytes} {base : ι → Place Name} {σ σ' : Fleet ι}

/-! ## 1. Snapshots -/

omit [DecidableEq ι] in
/-- What is stored is the content of the records. -/
theorem Inv.snapshot_whole (h : Inv sha256 userId namespaceId bytesOf base σ)
    {known : Server.Journal} (hknown : ∀ r ∈ known.rows, r ∈ σ.journal.rows) :
    snapshot σ.store known userId = snapshot (Client.whole bytesOf) known userId := by
  funext p
  rw [snapshot, snapshot]
  cases hlatest : Server.latestForPath known userId p with
  | none => rfl
  | some r =>
    obtain ⟨hr, huser, -⟩ := Server.latestForPath_spec hlatest
    change (if r.deleted = true then _ else _) = (if r.deleted = true then _ else _)
    cases hdel : r.deleted with
    | true => rfl
    | false =>
      rw [Client.contentOf_eq_whole h.chunks ((h.records r (hknown r hr) huser).stored hdel)]

theorem snapshot_congr {store : Text → Option Bytes} {journal journal' : Server.Journal} {p : Text}
    (h : Server.latestForPath journal' userId p = Server.latestForPath journal userId p) :
    snapshot store journal' userId p = snapshot store journal userId p := by
  rw [snapshot, snapshot, h]

omit [DecidableEq ι] in
theorem Inv.head_eq (h : Inv sha256 userId namespaceId bytesOf base σ) :
    (σ.abs userId namespaceId base).head = snapshot (Client.whole bytesOf) σ.journal userId :=
  h.snapshot_whole fun _ hr ↦ hr

omit [DecidableEq ι] in
/-- What a device has seen is the snapshot of the version of the journal it is in step with. -/
theorem Inv.seen_eq (h : Inv sha256 userId namespaceId bytesOf base σ) {c : ι}
    {known : Server.Journal} (hextends : σ.journal.Extends known)
    (hin : InStep bytesOf userId (namespaceId c) (base c) known (σ.registry c) (σ.disk c)) :
    (σ.abs userId namespaceId base).seen c = snapshot (Client.whole bytesOf) known userId := by
  rw [← h.snapshot_whole fun _ hr ↦ hextends.mem hr]
  funext p
  apply snapshot_congr
  rw [seenBy, hin.cursor]
  exact hextends.latestOf_upTo h.positive p

/-! ## 2. The steps -/

section Steps

variable (h : Inv sha256 userId namespaceId bytesOf base σ)
  (h' : Inv sha256 userId namespaceId bytesOf base σ')
include h h'

omit [DecidableEq ι] in
/-- Steps that leave the journal, the disks and the cursors change nothing. -/
theorem abs_eq_of_quiet (hjournal : σ'.journal = σ.journal) (hdisk : ∀ c, σ'.disk c = σ.disk c)
    (hjid : ∀ c, (σ'.registry c).latestJid (namespaceId c) =
      (σ.registry c).latestJid (namespaceId c)) :
    σ'.abs userId namespaceId base = σ.abs userId namespaceId base := by
  have hseen : ∀ c, σ'.seenBy namespaceId c = σ.seenBy namespaceId c := by
    intro c
    rw [seenBy, seenBy, hjournal, hjid]
  have hmem : ∀ c, ∀ r ∈ (σ.seenBy namespaceId c).rows, r ∈ σ.journal.rows :=
    fun c r hr ↦ List.mem_of_mem_filter hr
  apply Replicas.ext
  · rw [h'.head_eq, h.head_eq, hjournal]
  · funext c
    change contentsOf (σ'.disk c) (base c) = contentsOf (σ.disk c) (base c)
    rw [hdisk]
  · funext c
    change snapshot σ'.store (σ'.seenBy namespaceId c) userId =
      snapshot σ.store (σ.seenBy namespaceId c) userId
    rw [h'.snapshot_whole (by rw [hseen, hjournal]; exact hmem c), h.snapshot_whole (hmem c), hseen]

/-- The step of one device: what the others hold and have seen stays. -/
theorem abs_of_set {c : ι} {p : Peer} {journal' : Server.Journal}
    (hσ' : σ' = ⟨Peers.set { σ.peers with journal := journal' } c p, σ.store⟩)
    (hextends : journal'.Extends σ.journal) {known : Server.Journal}
    (hknown : journal'.Extends known)
    (hin : InStep bytesOf userId (namespaceId c) (base c) known p.state.registry p.state.disk) :
    σ'.abs userId namespaceId base =
      { head := snapshot (Client.whole bytesOf) journal' userId
        files := Function.update (σ.abs userId namespaceId base).files c
          (contentsOf p.state.disk (base c))
        seen := Function.update (σ.abs userId namespaceId base).seen c
          (snapshot (Client.whole bytesOf) known userId) } := by
  subst hσ'
  have hself : Fleet.state ⟨Peers.set { σ.peers with journal := journal' } c p, σ.store⟩ c =
      p.state := by rw [state_set, if_pos rfl]
  apply Replicas.ext
  · exact h'.head_eq
  · funext e
    change contentsOf (Fleet.state _ e).disk (base e) =
      Function.update (σ.abs userId namespaceId base).files c (contentsOf p.state.disk (base c)) e
    rw [state_set]
    by_cases he : e = c
    · rw [if_pos he, he, Function.update_self]
    · rw [if_neg he, Function.update_of_ne he]
      rfl
  · funext e
    change (Fleet.abs userId namespaceId base _).seen e =
      Function.update (σ.abs userId namespaceId base).seen c
        (snapshot (Client.whole bytesOf) known userId) e
    by_cases he : e = c
    · rw [he, Function.update_self]
      exact h'.seen_eq hknown (by rw [registry, disk, hself]; exact hin)
    · rw [Function.update_of_ne he]
      obtain ⟨-, -, -, known', hextends', hin'⟩ := h.device e
      rw [h.seen_eq hextends' hin']
      refine h'.seen_eq (hextends.trans hextends') ?_
      rw [registry, disk, state_set, if_neg he]
      exact hin'

theorem abs_edit {c : ι} {disk : Client.Disk}
    (hok : IsCareful sha256 userId namespaceId bytesOf base σ (.edit c disk))
    (hstep : next sha256 userId namespaceId σ (.edit c disk) = some σ') :
    (σ.abs userId namespaceId base).next (.edit c (contentsOf disk (base c))) =
      some (σ'.abs userId namespaceId base) := by
  obtain ⟨peers, hpeers, rfl⟩ := afterPeers_eq hstep
  cases hpeers
  obtain ⟨-, -, hrows, known, hextends, hin⟩ := h.device c
  rw [abs_of_set h h' rfl (.refl _) hextends (hin.edit hrows hok.2), Replicas.next,
    Option.some.injEq]
  apply Replicas.ext
  · exact h.head_eq
  · rfl
  · change (σ.abs userId namespaceId base).seen = Function.update _ c _
    rw [← h.seen_eq hextends hin, Function.update_eq_self]

omit [DecidableEq ι] h' in
/-- The content that a commit shares: the one of the file, unless the row is a deletion. -/
theorem snapshot_commit (hdigest : Client.IsHexDigest sha256) {c : ι} {f : Client.FileRecord}
    {reads : Client.Chunker.ReadEnv} {chunker : Client.Chunker} {chunkIds : Text} {jid : Int}
    {journal' : Server.Journal}
    (hcommit : IsCommitted sha256 userId (namespaceId c) σ c f reads chunker chunkIds jid journal') :
    snapshot (Client.whole bytesOf) journal' userId =
      Function.update (σ.abs userId namespaceId base).head f.path
        (if f.deleted = true then none else contentsOf (σ.disk c) (base c) f.path) := by
  obtain ⟨⟨hf, hnone, hns⟩, hhash, haccepted⟩ := hcommit
  obtain ⟨hsound, -, hrows, -⟩ := h.device c
  have hp := hrows f hf hns
  funext q
  by_cases hq : q = f.path
  · rw [hq, Function.update_self]
    obtain ⟨record, hlatest, hdel, hids⟩ := Server.latestForPath_commit_success _ haccepted
    rw [snapshot, hlatest]
    change (if record.deleted = true then _ else _) = _
    rw [hdel, hids]
    cases hfdel : f.deleted with
    | true => rfl
    | false =>
      obtain ⟨file, hfile, hresolves, rfl⟩ := file_of_hashFile hsound hp hhash hfdel
      rw [hresolves.contentOf_chunkIds hdigest, contentsOf, if_pos hp]
      change some file.content = (Client.fileOf (σ.state c).disk (base c) f.path).map _
      rw [hfile]
      rfl
  · rw [Function.update_of_ne hq, h.head_eq]
    exact snapshot_congr (Server.latestForPath_commit_of_ne _ haccepted fun heq ↦ hq heq.2.symm)

theorem abs_commit (hdigest : Client.IsHexDigest sha256) {c : ι} {f : Client.FileRecord}
    {reads : Client.Chunker.ReadEnv}
    (hok : IsCareful sha256 userId namespaceId bytesOf base σ (.commit c f reads))
    (hstep : next sha256 userId namespaceId σ (.commit c f reads) = some σ') :
    (σ.abs userId namespaceId base).next
        (if f.deleted = true ∧ (contentsOf (σ.disk c) (base c) f.path).isSome then
          .withdraw c f.path else .publish c f.path) =
      some (σ'.abs userId namespaceId base) := by
  obtain ⟨p, chunker, chunkIds, jid, journal', hcommit, hp, hσ'⟩ := next_commit hstep
  obtain ⟨hin, hin'⟩ := h.inStep_commit hdigest hok hcommit
  have hextends := extends_of_grows (Server.commit_journal _ hcommit.accepted)
  have hcurrent : (σ.abs userId namespaceId base).seen c =
      (σ.abs userId namespaceId base).head := by
    rw [h.seen_eq (.refl _) hin, h.head_eq]
  have hshare : σ'.abs userId namespaceId base = (σ.abs userId namespaceId base).share c f.path
      (if f.deleted = true then none else contentsOf (σ.disk c) (base c) f.path) := by
    rw [abs_of_set h h' hσ' hextends (.refl _) (by rw [hp]; exact hin'),
      snapshot_commit h hdigest hcommit, Replicas.share, hcurrent, hp]
    apply Replicas.ext
    · rfl
    · exact Function.update_eq_self c _
    · rfl
  rw [hshare]
  by_cases hback : f.deleted = true ∧ (contentsOf (σ.disk c) (base c) f.path).isSome
  · rw [if_pos hback, if_pos hback.1, Replicas.next, if_pos hcurrent]
  · rw [if_neg hback, Replicas.next, if_pos hcurrent]
    congr 2
    split
    · rename_i hdel
      exact (Option.not_isSome_iff_eq_none.mp fun hsome ↦ hback ⟨hdel, hsome⟩)
    · rfl

omit [DecidableEq ι] h' in
/-- After a pass the device holds what is shared under the listed paths. -/
theorem contentsOf_download {c : ι} {j : Int} {response : List Client.ResponseFileRecord}
    {s' : Client.ClientState}
    (hdown : IsDownloaded bytesOf userId (namespaceId c) (base c) σ.journal j response (σ.state c)
      s') (p : Text) :
    contentsOf s'.disk (base c) p =
      if p ∈ response.map Client.ResponseFileRecord.path then
        (σ.abs userId namespaceId base).head p
      else contentsOf (σ.disk c) (base c) p := by
  have hsyncable : ∀ r ∈ σ.journal.rows, r.userId = userId →
      Client.isSyncablePath r.path = true := fun r hr huser ↦ (h.records r hr huser).syncable
  by_cases hlisted : p ∈ response.map Client.ResponseFileRecord.path
  · rw [if_pos hlisted, h.head_eq]
    obtain ⟨d, hd, rfl⟩ := List.mem_map.mp hlisted
    obtain ⟨record, hlatest, -, hrecord⟩ := (mem_response_iff hdown.lists d).mp hd
    rw [contentsOf, if_pos (hdown.syncable_listed hsyncable hd), hdown.contentAt hd, ← hrecord]
    change _ = snapshot (Client.whole bytesOf) σ.journal userId record.path
    rw [snapshot, hlatest]
    rfl
  · rw [if_neg hlisted, contentsOf, contentsOf]
    by_cases hp : Client.isSyncablePath p = true
    · rw [if_pos hp, if_pos hp, hdown.fileOf_unlisted hsyncable hp hlisted]
      rfl
    · rw [if_neg hp, if_neg hp]

theorem abs_download {c : ι} {env : Client.Syncer.DownloadEnv}
    {response : List Client.ResponseFileRecord}
    (hok : IsCareful sha256 userId namespaceId bytesOf base σ (.download c env response))
    (hstep : next sha256 userId namespaceId σ (.download c env response) = some σ') :
    (σ.abs userId namespaceId base).next
        (.fetch c {p | p ∈ response.map Client.ResponseFileRecord.path}) =
      some (σ'.abs userId namespaceId base) := by
  obtain ⟨p, hσ', hdown⟩ := h.isDownloaded hok hstep
  obtain ⟨-, -, -, known, hextends, hin⟩ := h.device c
  have hunlisted : ∀ q, q ∉ {p | p ∈ response.map Client.ResponseFileRecord.path} →
      (σ.abs userId namespaceId base).head q = (σ.abs userId namespaceId base).seen c q := by
    intro q hq
    rw [h.head_eq, h.seen_eq hextends hin]
    exact snapshot_congr (latestForPath_of_unlisted hdown.lists hextends h.positive
      (latestLocal_le hin fun r hr ↦ h.positive r (hextends.mem hr)) hq)
  rw [Replicas.next, if_pos hunlisted, Option.some.injEq,
    abs_of_set h h' hσ' (.refl _) (.refl _) (h.inStep_download hdown)]
  apply Replicas.ext
  · exact h.head_eq
  · change Function.update _ c _ = Function.update _ c _
    congr 1
    funext q
    rw [contentsOf_download h hdown]
    by_cases hq : q ∈ response.map Client.ResponseFileRecord.path
    · rw [if_pos hq]
      exact if_pos hq
    · rw [if_neg hq]
      exact if_neg hq
  · change Function.update _ c _ = Function.update _ c _
    rw [h.head_eq]
    rfl

/-- Commits of other users change nothing for this one. -/
theorem abs_foreign {other : Int} {payload : Server.CommitPayload}
    (hstep : next sha256 userId namespaceId σ (.foreign other payload) = some σ') :
    σ'.abs userId namespaceId base = σ.abs userId namespaceId base := by
  obtain ⟨peers, hpeers, rfl⟩ := afterPeers_eq hstep
  rw [Peers.next] at hpeers
  split at hpeers
  · cases hpeers
  · rename_i hother
    split at hpeers
    · rename_i status journal' hcommit
      cases hpeers
      apply Replicas.ext
      · rw [h'.head_eq, h.head_eq]
        funext p
        exact snapshot_congr (Server.latestForPath_commit_of_ne _ hcommit fun heq ↦ hother heq.1)
      · rfl
      · funext c
        obtain ⟨-, -, -, known, hextends, hin⟩ := h.device c
        have hgrows := extends_of_grows (Server.commit_journal _ hcommit)
        rw [h.seen_eq hextends hin]
        exact h'.seen_eq (hgrows.trans hextends) hin
    · cases hpeers

end Steps

/-! ## 3. The refinement -/

theorem setChunker_quiet (σ : Fleet ι) (c : ι) (chunker : Client.Chunker) (e : ι) :
    (σ.setChunker c chunker).disk e = σ.disk e ∧
      (σ.setChunker c chunker).registry e = σ.registry e := by
  rw [disk, registry, setChunker, state_set]
  by_cases he : e = c
  · rw [if_pos he, he]
    exact ⟨rfl, rfl⟩
  · rw [if_neg he]
    exact ⟨rfl, rfl⟩

theorem index_quiet {c : ι} {env : Client.ScanEnv} {order : Client.IterationOrder}
    {faults : Client.IndexFaults}
    (hstep : next sha256 userId namespaceId σ (.index c env order faults) = some σ') :
    σ'.journal = σ.journal ∧ ∀ e, σ'.disk e = σ.disk e ∧
      (σ'.registry e).latestJid (namespaceId e) = (σ.registry e).latestJid (namespaceId e) := by
  obtain ⟨peers, hpeers, rfl⟩ := afterPeers_eq hstep
  cases hpeers
  refine ⟨rfl, fun e ↦ ?_⟩
  rw [disk, registry, state_set]
  by_cases he : e = c
  · rw [if_pos he, he]
    obtain ⟨added, hadded, hnone⟩ := Client.rows_checkIndexOnce (σ.state c).registry
      (σ.state c).disk env order faults (σ.state c).chunker.basePath (namespaceId c)
    exact ⟨rfl, congrArg List.max? (Client.jids_of_append hadded hnone (namespaceId c))⟩
  · rw [if_neg he]
    exact ⟨rfl, rfl⟩

theorem refuse_quiet {c : ι} {f : Client.FileRecord} {reads : Client.Chunker.ReadEnv}
    (hstep : next sha256 userId namespaceId σ (.refuse c f reads) = some σ') :
    ∃ chunker chunkIds, Client.Syncer.hashFile sha256 reads (σ.state c) f = (chunker, .ok chunkIds) ∧
      σ' = σ.setChunker c chunker := by
  rw [next] at hstep
  split at hstep
  · split at hstep
    · rename_i chunker chunkIds hhash
      split at hstep
      · cases hstep
        exact ⟨chunker, chunkIds, hhash, rfl⟩
      · cases hstep
    · cases hstep
  · cases hstep

theorem upload_quiet {c : ι} {chunks : List Client.Chunk}
    (hstep : next sha256 userId namespaceId σ (.upload c chunks) = some σ') :
    σ' = { σ with store := storeChunks σ.store chunks } := by
  rw [next] at hstep
  split at hstep
  · cases hstep
    rfl
  · cases hstep

/-- A step that nothing is to be seen of. -/
theorem abs_quiet (hdigest : Client.IsHexDigest sha256)
    (h : Inv sha256 userId namespaceId bytesOf base σ) {a : FleetAction ι}
    (hok : IsCareful sha256 userId namespaceId bytesOf base σ a)
    (hstep : next sha256 userId namespaceId σ a = some σ') (hact : act base σ a = none) :
    σ'.abs userId namespaceId base = σ.abs userId namespaceId base := by
  have h' := h.next hdigest hok hstep
  have hchunker : ∀ c chunker, σ' = σ.setChunker c chunker →
      σ'.abs userId namespaceId base = σ.abs userId namespaceId base := by
    intro c chunker heq
    have hsame := setChunker_quiet σ c chunker
    rw [← heq] at hsame
    exact abs_eq_of_quiet h h' (by rw [heq]; rfl) (fun e ↦ (hsame e).1)
      fun e ↦ congrArg (Client.Registry.latestJid · _) (hsame e).2
  cases a with
  | edit c disk => cases hact
  | index c env order faults =>
    obtain ⟨hjournal, hsame⟩ := index_quiet hstep
    exact abs_eq_of_quiet h h' hjournal (fun e ↦ (hsame e).1) fun e ↦ (hsame e).2
  | commit c f reads => cases hact
  | refuse c f reads =>
    obtain ⟨chunker, -, -, heq⟩ := refuse_quiet hstep
    exact hchunker c chunker heq
  | upload c chunks =>
    obtain rfl := upload_quiet hstep
    exact abs_eq_of_quiet h h' rfl (fun _ ↦ rfl) fun _ ↦ rfl
  | download c env response => cases hact
  | restart c evicts =>
    cases hstep
    exact hchunker c _ rfl
  | foreign other payload => exact abs_foreign h h' hstep
  | deposit chunks =>
    cases hstep
    exact abs_eq_of_quiet h h' rfl (fun _ ↦ rfl) fun _ ↦ rfl

/-- Careful devices are replicas of one map: a step publishes, withdraws or fetches what it says, or
changes nothing. -/
theorem simulates (hdigest : Client.IsHexDigest sha256) :
    System.Simulates (system sha256 userId namespaceId bytesOf base) Replicas.system
      (IsCareful sha256 userId namespaceId bytesOf base)
      (Inv sha256 userId namespaceId bytesOf base) (abs userId namespaceId base)
      (act base) where
  inv _ _ _ h hok hstep := h.next hdigest hok hstep
  step σ a σ' h hok hstep := by
    have h' := h.next hdigest hok hstep
    cases hact : act base σ a with
    | none =>
      rw [abs_quiet hdigest h hok hstep hact]
      rfl
    | some b =>
      rw [Option.toList_some, System.run_singleton]
      cases a with
      | edit c disk =>
        cases hact
        exact abs_edit h h' hok hstep
      | commit c f reads =>
        cases hact
        exact abs_commit h h' hdigest hok hstep
      | download c env response =>
        cases hact
        exact abs_download h h' hok hstep
      | index c env order faults => cases hact
      | refuse c f reads => cases hact
      | upload c chunks => cases hact
      | restart c evicts => cases hact
      | foreign other payload => cases hact
      | deposit chunks => cases hact

theorem init_abs {σ₀ : Fleet ι} (h : fresh sha256 bytesOf base σ₀) :
    Replicas.system.init (σ₀.abs userId namespaceId base) := by
  have hjournal : σ₀.journal = Table.empty := h.1.1
  have hempty : ∀ journal : Server.Journal, journal.rows = [] →
      snapshot σ₀.store journal userId = fun _ ↦ none := by
    intro journal hrows
    funext p
    have hnone : Server.latestForPath journal userId p = none := by
      rw [Server.latestForPath, Table.latestOf, Table.lastOf_eq_none_iff, hrows]
      exact fun r hr ↦ absurd hr (List.not_mem_nil)
    rw [snapshot, hnone]
  refine ⟨hempty _ (by rw [hjournal]; rfl), fun c ↦ hempty _ ?_⟩
  rw [seenBy, hjournal]
  rfl

/-- In every run of careful devices, whatever the order of its steps, the devices and the server act
as replicas of one map: up to every point of the run they have taken the steps that it names, in
their order. -/
theorem run_refines (hdigest : Client.IsHexDigest sha256) {σ₀ : Fleet ι} {as : List (FleetAction ι)}
    (hfresh : fresh sha256 bytesOf base σ₀)
    (hok : (system sha256 userId namespaceId bytesOf base).EachStep
      (IsCareful sha256 userId namespaceId bytesOf base) σ₀ as) :
    Replicas.system.init (σ₀.abs userId namespaceId base) ∧ ∀ i σ,
      (system sha256 userId namespaceId bytesOf base).run σ₀ (as.take i) = some σ →
      Replicas.system.run (σ₀.abs userId namespaceId base)
          ((system sha256 userId namespaceId bytesOf base).named (act base) σ₀ (as.take i)) =
        some (σ.abs userId namespaceId base) :=
  ⟨init_abs hfresh, fun i _ hrun ↦ (simulates hdigest).run (.init hfresh) hrun (hok.take i)⟩

/-! ## 4. Where contents come from -/

/-- What the server shares or a device holds under a path was written to that path on some device:
before the run, or by an edit. -/
theorem contents_written (hdigest : Client.IsHexDigest sha256) {σ₀ : Fleet ι}
    {as : List (FleetAction ι)} (hfresh : fresh sha256 bytesOf base σ₀)
    (hrun : (system sha256 userId namespaceId bytesOf base).run σ₀ as = some σ)
    (hok : (system sha256 userId namespaceId bytesOf base).EachStep
      (IsCareful sha256 userId namespaceId bytesOf base) σ₀ as) (p : Text) (content : Bytes)
    (hcontent : snapshot σ.store σ.journal userId p = some content ∨
      ∃ c, contentsOf (σ.disk c) (base c) p = some content) :
    (∃ c, contentsOf (σ₀.disk c) (base c) p = some content) ∨
      ∃ c disk, .edit c disk ∈ as ∧ contentsOf disk (base c) p = some content := by
  have hholds := Replicas.holds_run ((simulates hdigest).run (.init hfresh) hrun hok)
  have hwritten : (σ₀.abs userId namespaceId base).head p = some content ∨
      (∃ c, (σ₀.abs userId namespaceId base).files c p = some content) ∨
        ∃ c files, .edit c files ∈ (system sha256 userId namespaceId bytesOf base).named (act base)
          σ₀ as ∧ files p = some content := by
    rcases hcontent with hshared | ⟨c, hheld⟩
    · exact hholds.head p content hshared
    · exact hholds.files c p content hheld
  rcases hwritten with hhead | hfiles | ⟨c, files, hmem, hfiles⟩
  · rw [(init_abs hfresh).1] at hhead
    cases hhead
  · exact .inl hfiles
  · obtain ⟨a, ha, t, hact⟩ := System.mem_named hmem
    cases a with
    | edit c' disk =>
      cases hact
      exact .inr ⟨c, disk, ha, hfiles⟩
    | commit c' f reads =>
      rw [act, Option.some.injEq] at hact
      split at hact <;> cases hact
    | download c' env response => cases hact
    | index c' env order faults => cases hact
    | refuse c' f reads => cases hact
    | upload c' chunks => cases hact
    | restart c' evicts => cases hact
    | foreign other payload => cases hact
    | deposit chunks => cases hact

/-! ## 5. Records last -/

/-- No step removes a record or changes one. -/
theorem extends_next {a : FleetAction ι}
    (hstep : next sha256 userId namespaceId σ a = some σ') : σ'.journal.Extends σ.journal := by
  cases a with
  | edit c disk =>
    cases hstep
    exact .refl _
  | index c env order faults => exact (index_quiet hstep).1 ▸ .refl _
  | commit c f reads =>
    obtain ⟨p, chunker, chunkIds, jid, journal', hcommitted, -, rfl⟩ := next_commit hstep
    exact extends_of_grows (Server.commit_journal _ hcommitted.accepted)
  | refuse c f reads =>
    obtain ⟨chunker, -, -, rfl⟩ := refuse_quiet hstep
    exact .refl _
  | upload c chunks => exact upload_quiet hstep ▸ .refl _
  | download c env response =>
    obtain ⟨peers, hpeers, rfl⟩ := afterPeers_eq hstep
    obtain ⟨-, s', changed, -, rfl⟩ := Peers.next_download hpeers
    exact .refl _
  | restart c evicts =>
    cases hstep
    exact .refl _
  | foreign other payload =>
    obtain ⟨peers, hpeers, rfl⟩ := afterPeers_eq hstep
    rw [Peers.next] at hpeers
    split at hpeers
    · cases hpeers
    · split at hpeers
      · rename_i status journal' hcommit
        cases hpeers
        exact extends_of_grows (Server.commit_journal _ hcommit)
      · cases hpeers
  | deposit chunks =>
    cases hstep
    exact .refl _

/-- A live record stays as it is, and its chunks always come to the same content, the one whose ids
it has. -/
theorem record_content (hdigest : Client.IsHexDigest sha256)
    (h : (system sha256 userId namespaceId bytesOf base).Reachable
      (IsCareful sha256 userId namespaceId bytesOf base) σ) {as : List (FleetAction ι)}
    (hrun : (system sha256 userId namespaceId bytesOf base).run σ as = some σ')
    (hok : (system sha256 userId namespaceId bytesOf base).EachStep
      (IsCareful sha256 userId namespaceId bytesOf base) σ as) {r : Server.FileRecord}
    (hr : r ∈ σ.journal.rows) (huser : r.userId = userId) (hlive : r.deleted = false) :
    r ∈ σ'.journal.rows ∧
      Client.contentOf σ'.store r.chunkIds = Client.contentOf σ.store r.chunkIds ∧
      ∃ reads, r.chunkIds = List.intercalate [',']
        (Client.Chunker.chunkIds sha256 reads r.path (Client.contentOf σ'.store r.chunkIds)) := by
  have hinv := Inv.reachable hdigest h
  have hinv' : Inv sha256 userId namespaceId bytesOf base σ' :=
    .reachable hdigest (h.run_of_ok hrun hok)
  have hr' : r ∈ σ'.journal.rows := by
    refine System.invariant_run (P := fun σ : Fleet ι ↦ r ∈ σ.journal.rows) ?_ hr hrun
    exact fun s s' a _ hmem hstep ↦ (extends_next hstep).mem hmem
  have hformed := hinv'.records r hr' huser
  have hwhole : Client.contentOf σ'.store r.chunkIds =
      Client.contentOf (Client.whole bytesOf) r.chunkIds :=
    Client.contentOf_eq_whole hinv'.chunks (hformed.stored hlive)
  refine ⟨hr', ?_, ?_⟩
  · rw [hwhole, Client.contentOf_eq_whole hinv.chunks ((hinv.records r hr huser).stored hlive)]
  · obtain ⟨reads, content, hresolves, hids⟩ := hformed.hashed hlive
    refine ⟨reads, ?_⟩
    rw [hwhole]
    nth_rewrite 2 [hids]
    rw [hresolves.contentOf_chunkIds hdigest]
    exact hids

/-! ## 6. Idle devices -/

variable (namespaceId base) in
/-- The registry has the files as they are on the disk. -/
def IsIndexed (σ : Fleet ι) (c : ι) : Prop :=
  ∀ p, Client.isSyncablePath p = true → Client.liveView (σ.registry c) (namespaceId c) p =
    (Client.fileOf (σ.disk c) (base c) p).map Client.FileData.version

omit [DecidableEq ι] in
/-- The rows that an index pass leaves are what a readable disk has. -/
theorem Inv.liveView_of_index (h : Inv sha256 userId namespaceId bytesOf base σ) {c : ι}
    {env : Client.ScanEnv} {order : Client.IterationOrder} {faults : Client.IndexFaults}
    (hwalkable : ∀ rel, env.unwalkable (rel ++ base c) = false) {registry : Client.Registry}
    {changed : Bool} (hpass : Client.checkIndexOnce (σ.registry c) (σ.disk c) env order faults
      (σ.state c).chunker.basePath (namespaceId c) = (registry, .ok changed)) (p : Text)
    (hp : Client.isSyncablePath p = true) : Client.liveView registry (namespaceId c) p =
      (Client.fileOf (σ.disk c) (base c) p).map Client.FileData.version := by
  obtain ⟨fromFs, hscan, hview⟩ := Client.liveView_of_checkIndexOnce hpass
  have hdir := (h.device c).sound.dir
  rw [hview, Client.scanView_of_walkable hdir hwalkable hscan, if_pos hp]
  rfl

theorem jid_ne_none_of_newest {registry : Client.Registry} {namespaceId : Int}
    (h : registry.updatedLocally namespaceId = []) {p : Text} {r : Client.FileRecord}
    (hr : newest registry namespaceId p = some r) : r.jid ≠ none := by
  intro hnone
  obtain ⟨-, -, rfl⟩ := newest_spec hr
  have hmem : r ∈ registry.updatedLocally namespaceId := by
    rw [Client.Registry.updatedLocally, List.mem_filter, Table.mem_latest_iff, hnone]
    exact ⟨hr, rfl⟩
  rw [h] at hmem
  cases hmem

omit [DecidableEq ι] in
/-- A device with nothing to index and nothing to upload has changed nothing since it last saw the
shared map. -/
theorem Inv.isClean (h : Inv sha256 userId namespaceId bytesOf base σ) {c : ι}
    (hindexed : IsIndexed namespaceId base σ c)
    (huploaded : (σ.registry c).updatedLocally (namespaceId c) = []) :
    (σ.abs userId namespaceId base).IsClean c := by
  obtain ⟨-, -, -, known, hextends, hin⟩ := h.device c
  rw [Replicas.IsClean, h.seen_eq hextends hin]
  funext p
  change contentsOf (σ.disk c) (base c) p = _
  rw [contentsOf]
  by_cases hp : Client.isSyncablePath p = true
  · have hlive := hindexed p hp
    rw [liveView_newest] at hlive
    rw [if_pos hp]
    cases hr : newest (σ.registry c) (namespaceId c) p with
    | none =>
      -- no row: no file, and no record that the device has seen
      rw [hr] at hlive
      have hfile : Client.fileOf (σ.disk c) (base c) p = none := Option.map_eq_none_iff.mp hlive.symm
      have hrecord : Server.latestForPath known userId p = none := by
        rw [Option.eq_none_iff_forall_not_mem]
        intro record hrecord
        obtain ⟨r, hr'⟩ := hin.seen p record hrecord
        have hsome : newest (σ.registry c) (namespaceId c) p = some r := hr'
        rw [hr] at hsome
        cases hsome
      rw [hfile, snapshot, hrecord]
      rfl
    | some r =>
      obtain ⟨record, hrecord, hdel, hcontent⟩ :=
        hin.settled p r hr (jid_ne_none_of_newest huploaded hr)
      rw [hr, Option.bind_some] at hlive
      rw [snapshot, hrecord]
      change _ = if record.deleted = true then _ else _
      cases hrdel : r.deleted with
      | true =>
        rw [hrdel] at hlive
        have hfile : Client.fileOf (σ.disk c) (base c) p = none :=
          Option.map_eq_none_iff.mp hlive.symm
        rw [hfile, hdel, hrdel]
        rfl
      | false =>
        rw [hrdel] at hlive
        obtain ⟨data, hdata, hversion⟩ := Option.map_eq_some_iff.mp hlive.symm
        have hsame := hcontent hrdel data hdata hversion
        rw [hdata, hdel, hrdel, Option.map_some, hsame]
        rfl
  · rw [if_neg hp, snapshot]
    cases hrecord : Server.latestForPath known userId p with
    | none => rfl
    | some record =>
      obtain ⟨hmem, huser, hpath⟩ := Server.latestForPath_spec hrecord
      exact absurd (hpath ▸ (h.records record (hextends.mem hmem) huser).syncable) hp

omit [DecidableEq ι] in
theorem Inv.isCurrent (h : Inv sha256 userId namespaceId bytesOf base σ) {c : ι}
    (hcurrent : IsCurrent userId namespaceId σ c) :
    (σ.abs userId namespaceId base).IsCurrent c := by
  obtain ⟨-, -, -, known, hextends, hin⟩ := h.device c
  have hjournal := hin.of_current hextends h.positive hcurrent
  rw [Replicas.IsCurrent, h.head_eq, h.seen_eq (.refl _) hjournal]

variable (userId namespaceId base) in
/-- An index pass over a disk that can be read finds nothing to do, no row is pending, and no record
is new to the device. -/
structure IsIdle (σ : Fleet ι) (c : ι) (env : Client.ScanEnv) (order : Client.IterationOrder)
    (faults : Client.IndexFaults) : Prop where
  walkable : ∀ rel, env.unwalkable (rel ++ base c) = false
  indexed : (Client.checkIndexOnce (σ.registry c) (σ.disk c) env order faults
    (σ.state c).chunker.basePath (namespaceId c)).2 = .ok false
  uploaded : (σ.registry c).updatedLocally (namespaceId c) = []
  current : IsCurrent userId namespaceId σ c

/-- Idle devices hold what the server shares, all of it and nothing else. -/
theorem contents_idle (hdigest : Client.IsHexDigest sha256)
    (h : (system sha256 userId namespaceId bytesOf base).Reachable
      (IsCareful sha256 userId namespaceId bytesOf base) σ) {c : ι} {env : Client.ScanEnv}
    {order : Client.IterationOrder} {faults : Client.IndexFaults}
    (hidle : IsIdle userId namespaceId base σ c env order faults) :
    contentsOf (σ.disk c) (base c) = snapshot σ.store σ.journal userId := by
  have hinv := Inv.reachable hdigest h
  have hindexed : IsIndexed namespaceId base σ c :=
    hinv.liveView_of_index hidle.walkable (Client.checkIndexOnce_false hidle.indexed)
  exact Replicas.files_eq_head (hinv.isClean hindexed hidle.uploaded)
    (hinv.isCurrent hidle.current)

end Convergence

/-! ## 7. An example -/

-- The first device has a recipe of one line in its storage directory, and the second one nothing.
def recipeFleet : Fleet Bool where
  peers :=
    { journal := .empty
      peer := fun c ↦
        { state :=
            { registry := .empty
              chunker := Client.Chunker.new (parsePath "/s".toList) fun _ _ ↦ false
              disk := if c then FileTree.root.put [115] [] .dir
                else (FileTree.root.put [115] [] .dir).put (toUtf8 "a.cook".toList) [[115]]
                  (.file ⟨[97, 10], ⟨5, 0⟩⟩) }
          committed := []
          applied := [] } }
  store := fun _ ↦ none

def recipeScan : Client.ScanEnv := ⟨fun _ ↦ false, fun _ ↦ false, fun _ ↦ (0, ⟨0, 0⟩)⟩

def recipeRow : Client.FileRecord := ⟨1, none, false, "a.cook".toList, 2, ⟨5, 0⟩, 1⟩

def recipeReads : Client.Chunker.ReadEnv := ⟨fun _ ↦ 1, none⟩

def recipeChunk : Client.Chunk := ("87428fc522".toList, [97, 10])

def recipeDownload : Client.Syncer.DownloadEnv where
  latestJidFails := false
  reads _ := recipeReads
  batch _ := ⟨200, some "multipart/mixed; boundary=B7".toList,
    [.ok (toUtf8 ("\r\n--B7\r\nContent-Type: text/plain; charset=utf-8\r\n" ++
        "X-Chunk-ID: 87428fc522\r\n\r\na\n\r\n--B7--\r\n").toList)]⟩
  records _ := ⟨⟨none, 0, ⟨7, 0⟩⟩, ⟨false, fun _ ↦ false⟩, false, fun _ ↦ (0, ⟨0, 0⟩), false, ⟨0, 0⟩⟩

/-- The recipe goes from the first device to the second one. -/
def recipeRun : List (FleetAction Bool) :=
  [.index false recipeScan ⟨.inOrder, .inOrder⟩ ⟨false, false, false⟩,
    .refuse false recipeRow recipeReads,
    .upload false [recipeChunk],
    .commit false recipeRow recipeReads,
    .download true recipeDownload [⟨1, "a.cook".toList, false, "87428fc522".toList⟩]]

def recipeBytes (_ : Text) : Bytes := [97, 10]

def storageOf (_ : Bool) : Place Name := [[115]]

def recipeSystem : System (Fleet Bool) (FleetAction Bool) :=
  system Client.Chunker.recipeDigest 1 (fun _ ↦ 1) recipeBytes storageOf

def recipeEnd : Option (Fleet Bool) := recipeSystem.run recipeFleet recipeRun

theorem isSome_recipeEnd : recipeEnd.isSome = true := by decide +kernel

def afterRecipe : Fleet Bool := recipeEnd.get isSome_recipeEnd

theorem run_recipe : recipeSystem.run recipeFleet recipeRun = some afterRecipe :=
  (Option.some_get isSome_recipeEnd).symm

theorem rel_of_recipeFleet {c : Bool} {rel : Place Name}
    (h : ((recipeFleet.disk c).lookup (rel ++ storageOf c)).isSome = true) :
    rel = [toUtf8 "a.cook".toList] ∨ rel = [] := by
  have hkeys : ∀ c, ∀ k ∈ (recipeFleet.disk c).nodes.keys,
      k = [toUtf8 "a.cook".toList] ++ [[115]] ∨ k = [] ++ [[115]] ∨ k = [] := by decide
  rcases hkeys c _ (AList.mem_keys.mp (AList.lookup_isSome.mp h)) with hk | hk | hk
  · exact .inl (List.append_inj' hk rfl).1
  · exact .inr (List.append_inj' hk rfl).1
  · exact absurd hk (by simp [storageOf])

theorem isStorageDir_recipeFleet (c : Bool) : Client.IsStorageDir (recipeFleet.disk c)
    (recipeFleet.state c).chunker.basePath (storageOf c) := by
  have hlinks : (recipeFleet.disk c).LinkFree := by
    revert c
    decide
  have hstraight : ∀ k, (recipeFleet.disk c).Straight k := fun k s _ target ↦ hlinks s target
  have hbase : ∀ c, (recipeFleet.state c).chunker.basePath = parsePath "/s".toList := fun _ ↦ rfl
  refine ⟨⟨?_, hstraight _, ?_⟩, ⟨fun rel hrel n hn ↦ ?_, fun n rel hdir ↦ ?_⟩,
    fun k _ ↦ hstraight k⟩
  · rw [hbase]
    exact ⟨show _ = List.map _ (List.reverse [[115]]) by decide, by decide⟩
  · rw [hbase]
    decide
  · rcases rel_of_recipeFleet hrel with rfl | rfl
    · obtain rfl := List.mem_singleton.mp hn
      exact ⟨"a.cook".toList, rfl, by decide⟩
    · cases hn
  · have hsome : ((recipeFleet.disk c).lookup ((n :: rel) ++ storageOf c)).isSome = true := by
      rw [List.cons_append, hdir]
      rfl
    rcases rel_of_recipeFleet hsome with hrel | hrel
    · obtain ⟨rfl, rfl⟩ := List.cons.inj hrel
      have hnodir : ∀ c, (recipeFleet.disk c).isDirAt (toUtf8 "a.cook".toList :: storageOf c) =
          false := by decide
      have hisdir := hnodir c
      rw [FileTree.isDirAt] at hisdir
      rw [List.nil_append] at hdir
      rw [hdir] at hisdir
      cases hisdir
    · cases hrel

theorem isSoundDisk_recipeFleet (c : Bool) : IsSoundDisk Client.Chunker.recipeDigest recipeBytes
    (storageOf c) (recipeFleet.disk c) (recipeFleet.state c).chunker.basePath where
  dir := isStorageDir_recipeFleet c
  resolves := by
    intro p data hp hfile reads piece hpiece
    rw [Client.fileOf] at hfile
    rcases rel_of_recipeFleet (Client.isSome_lookup_of_fileAt hfile) with hrel | hrel
    · have hfiles : ∀ c, ∀ data ∈ (recipeFleet.disk c).fileAt
          ([toUtf8 "a.cook".toList] ++ storageOf c), data.content = [97, 10] := by decide
      rw [hrel] at hfile
      rw [hfiles c data hfile] at hpiece
      have hp' := Client.canonical_of_syncable hp
      rw [Client.IsCanonical, hrel] at hp'
      rw [Client.Chunker.pieces, if_pos (by rw [← hp']; decide)] at hpiece
      exact (List.mem_singleton.mp hpiece).symm
    · exact absurd (List.reverse_eq_nil_iff.mp hrel) (Client.namesOf_ne_nil_of_syncable hp)

theorem fresh_recipeFleet :
    fresh Client.Chunker.recipeDigest recipeBytes storageOf recipeFleet :=
  ⟨⟨rfl, fun _ ↦ ⟨rfl, rfl, rfl⟩⟩, rfl, fun c ↦ ⟨rfl, isSoundDisk_recipeFleet c⟩⟩

theorem eachStep_recipeRun : recipeSystem.EachStep
    (IsCareful Client.Chunker.recipeDigest 1 (fun _ ↦ 1) recipeBytes storageOf)
    recipeFleet recipeRun := by
  intro i a t ha ht
  rcases i with _ | _ | _ | _ | _ | i <;> cases ha
  · exact fun _ ↦ rfl
  · trivial
  · trivial
  · have hcommit : (recipeSystem.run recipeFleet (recipeRun.take 3)).all (fun t ↦
        decide ((t.registry false).latestJid 1 = t.journal.greatestId (·.userId == 1)) &&
          decide (newest (t.registry false) 1 recipeRow.path = some recipeRow)) = true := by
      decide +kernel
    rw [ht, Option.all_some, Bool.and_eq_true, decide_eq_true_eq, decide_eq_true_eq] at hcommit
    exact hcommit
  · have hstored : (recipeSystem.run recipeFleet (recipeRun.take 4)).all (fun t ↦
        decide (t.store recipeChunk.1 = some recipeChunk.2)) = true := by
      decide +kernel
    rw [ht, Option.all_some, decide_eq_true_eq] at hstored
    intro ids chunk hchunk
    have hbatch : (Client.downloadBatch (recipeDownload.batch [])).1 = [recipeChunk] := by
      decide +kernel
    rw [show recipeDownload.batch ids = recipeDownload.batch [] from rfl, hbatch] at hchunk
    rw [List.mem_singleton.mp hchunk]
    exact hstored

theorem reachable_afterRecipe : recipeSystem.Reachable
    (IsCareful Client.Chunker.recipeDigest 1 (fun _ ↦ 1) recipeBytes storageOf) afterRecipe :=
  (System.Reachable.init fresh_recipeFleet).run_of_ok run_recipe eachStep_recipeRun

-- Two of the steps are named: the first device publishes the recipe, and the second fetches it.
theorem run_refines_recipe :
    Replicas.system.init (recipeFleet.abs 1 (fun _ ↦ 1) storageOf) ∧ ∀ i σ,
      recipeSystem.run recipeFleet (recipeRun.take i) = some σ →
      Replicas.system.run (recipeFleet.abs 1 (fun _ ↦ 1) storageOf)
          (recipeSystem.named (act storageOf) recipeFleet (recipeRun.take i)) =
        some (σ.abs 1 (fun _ ↦ 1) storageOf) :=
  run_refines Client.Chunker.isHexDigest_recipeDigest fresh_recipeFleet eachStep_recipeRun

-- The second device is started anew.
theorem record_content_recipe :
    let record : Server.FileRecord := ⟨1, 1, "87428fc522".toList, false, "a.cook".toList⟩
    let σ := afterRecipe.setChunker true
      (Client.Chunker.new (afterRecipe.state true).chunker.basePath fun _ _ ↦ false)
    record ∈ σ.journal.rows ∧
      Client.contentOf σ.store record.chunkIds = Client.contentOf afterRecipe.store record.chunkIds ∧
      ∃ reads, record.chunkIds = List.intercalate [','] (Client.Chunker.chunkIds
        Client.Chunker.recipeDigest reads record.path
          (Client.contentOf σ.store record.chunkIds)) := by
  intro record σ
  have hrun : recipeSystem.run afterRecipe [.restart true fun _ _ ↦ false] = some σ :=
    System.run_singleton _ _ _
  refine record_content Client.Chunker.isHexDigest_recipeDigest reachable_afterRecipe hrun ?_
    (by decide +kernel) rfl rfl
  intro i a t ha _
  cases i with
  | zero =>
    cases ha
    trivial
  | succ i => cases ha

theorem contentsOf_afterRecipe :
    contentsOf (afterRecipe.disk true) (storageOf true) "a.cook".toList = some [97, 10] := by
  decide +kernel

theorem isIdle_afterRecipe : IsIdle 1 (fun _ ↦ 1) storageOf afterRecipe true recipeScan
    ⟨.inOrder, .inOrder⟩ ⟨false, false, false⟩ := by
  refine ⟨fun _ ↦ rfl, ?_, ?_, ?_⟩
  · decide +kernel
  · decide +kernel
  · unfold IsCurrent
    decide +kernel

theorem contents_idle_recipe : contentsOf (afterRecipe.disk true) (storageOf true) =
    snapshot afterRecipe.store afterRecipe.journal 1 :=
  contents_idle Client.Chunker.isHexDigest_recipeDigest reachable_afterRecipe isIdle_afterRecipe

theorem contents_written_recipe :
    (∃ c, contentsOf (recipeFleet.disk c) (storageOf c) "a.cook".toList = some [97, 10]) ∨
      ∃ c disk, .edit c disk ∈ recipeRun ∧
        contentsOf disk (storageOf c) "a.cook".toList = some [97, 10] :=
  contents_written Client.Chunker.isHexDigest_recipeDigest fresh_recipeFleet run_recipe
    eachStep_recipeRun _ _ (.inr ⟨true, contentsOf_afterRecipe⟩)

end Fleet

end CooklangSync.System
