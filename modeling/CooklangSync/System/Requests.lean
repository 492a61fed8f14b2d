import CooklangSync.System.ChunkStore

/-!
# Requests — the handlers as runs of the store

The steps of a `ChunkStore` are those of its handlers: the steps of a commit, with no others in
between, do what `Server.commit` does, and those of an upload, with the writes of its fields landing
when they do, what `Server.receiveParts` does.
-/

namespace CooklangSync.System

open Theory Server

namespace ChunkStore

variable {ι P : Type} [DecidableEq ι] [DecidableEq P] (root : Path Name) (place : Path Name → P)
  (bytesOf : Text → Bytes)

theorem step_system (σ : ChunkStore ι P) (a : StoreAction ι) :
    (system root place bytesOf).step σ a = next root place bytesOf σ a := rfl

/-! ## 1. Commits -/

section Commit

variable (σ : ChunkStore ι P) (h : ι)

omit [DecidableEq P] in
theorem setCommit_setCommit (k k' : Option PendingCommit) :
    (σ.setCommit h k).setCommit h k' = σ.setCommit h k' := by
  simp only [setCommit, Function.update_idem]

omit [DecidableEq P] in
theorem setCommit_none (hfree : σ.commits h = none) : σ.setCommit h none = σ := by
  rw [setCommit, ← hfree, Function.update_eq_self]

omit [DecidableEq P] in
theorem commits_setCommit_self (k : Option PendingCommit) : (σ.setCommit h k).commits h = k :=
  Function.update_self ..

/-- The file tests of a commit, up to the first absent chunk. -/
theorem run_check (k : PendingCommit) {absent : List Text}
    (habsent : absentChunks (σ.isPresent root place) k.todo = .ok absent) :
    ∃ n, (system root place bytesOf).run (σ.setCommit h (some k)) (List.replicate n (.check h)) =
      some (σ.setCommit h
        (if absent = [] then some { k with found := k.found ++ k.todo, todo := [] } else none)) := by
  generalize htodo : k.todo = todo at habsent
  induction todo generalizing k absent with
  | nil =>
    cases habsent
    refine ⟨0, ?_⟩
    rw [if_pos rfl, List.append_nil, ← htodo]
    rfl
  | cons c rest ih =>
    obtain ⟨present, hpresent, habsent⟩ := Outcome.bind_eq_ok habsent
    obtain ⟨others, hothers, habsent⟩ := Outcome.bind_eq_ok habsent
    have hstep : next root place bytesOf (σ.setCommit h (some k)) (.check h) =
        some (σ.setCommit h
          (if present then some { k with found := k.found ++ [c], todo := rest } else none)) := by
      simp only [next, commits_setCommit_self, Option.bind_some, htodo, setCommit_setCommit]
      change (if σ.isPresent root place c = .ok true then _ else _) = _
      rw [hpresent]
      cases present with
      | true => rfl
      | false => rfl
    cases present with
    | false =>
      -- the commit is answered with the absent chunks
      obtain rfl : c :: others = absent := Outcome.ok.inj habsent
      refine ⟨1, ?_⟩
      rw [List.replicate_one, System.run, step_system, hstep]
      rfl
    | true =>
      obtain rfl : others = absent := Outcome.ok.inj habsent
      obtain ⟨n, hn⟩ := ih { k with found := k.found ++ [c], todo := rest } rfl hothers
      refine ⟨n + 1, ?_⟩
      rw [List.replicate_succ, System.run, step_system, hstep, Option.bind_some]
      refine hn.trans ?_
      simp only [List.append_assoc, List.cons_append, List.nil_append]

/-- What a commit does once it has found all its chunks. -/
theorem run_record (hfree : σ.commits h = none) (k : PendingCommit) (htodo : k.todo = [])
    (hcompared : k.compared = false) :
    ∃ as, (system root place bytesOf).run (σ.setCommit h (some k)) as =
      some { σ with journal := (commitRecord σ.journal k.record).2 } := by
  have hcompare : next root place bytesOf (σ.setCommit h (some k)) (.compare h) =
      if (latestForPath σ.journal k.userId k.payload.path).any (isNoOp · k.record) then some σ
      else some (σ.setCommit h (some { k with compared := true })) := by
    simp only [next, commits_setCommit_self, Option.bind_some, setCommit_setCommit,
      setCommit_none σ h hfree]
    rw [if_pos ⟨htodo, hcompared⟩]
    rfl
  have hinsert : next root place bytesOf (σ.setCommit h (some { k with compared := true }))
      (.insert h) = some { σ with journal := (insertNewRecord σ.journal k.record).2 } := by
    simp only [next, commits_setCommit_self, Option.bind_some, if_true]
    have hended := setCommit_none { σ with journal := (insertNewRecord σ.journal k.record).2 } h
      hfree
    rw [← setCommit_setCommit _ h (some { k with compared := true }) none] at hended
    exact congrArg some hended
  have hjournal : (commitRecord σ.journal k.record).2 =
      if (latestForPath σ.journal k.userId k.payload.path).any (isNoOp · k.record) then σ.journal
      else (insertNewRecord σ.journal k.record).2 := commitRecord_journal σ.journal k.record
  rw [hjournal]
  by_cases hnoop : (latestForPath σ.journal k.userId k.payload.path).any (isNoOp · k.record) = true
  · refine ⟨[.compare h], ?_⟩
    rw [System.run, step_system, hcompare, if_pos hnoop, if_pos hnoop]
    rfl
  · refine ⟨[.compare h, .insert h], ?_⟩
    rw [System.run, step_system, hcompare, if_neg hnoop, if_neg hnoop, Option.bind_some, System.run,
      step_system, hinsert]
    rfl

/-- A commit that is alone. -/
theorem run_commit (hfree : σ.commits h = none) {userId : Int} {payload : CommitPayload}
    {status : CommitResultStatus} {journal : Journal}
    (hcommit : Server.commit (σ.isPresent root place) σ.journal userId payload =
      .ok (status, journal)) :
    ∃ as, (system root place bytesOf).run σ as = some { σ with journal := journal } := by
  obtain ⟨absent, habsent, hcommit⟩ := Outcome.bind_eq_ok hcommit
  let k : PendingCommit := ⟨userId, payload, [], payload.chunkIds.splitOn ',', false⟩
  have hstart : next root place bytesOf σ (.commit h userId payload) =
      some (σ.setCommit h (some k)) := by
    simp only [next, hfree]
    rfl
  obtain ⟨n, hcheck⟩ := run_check root place bytesOf σ h k habsent
  have hchecked : (system root place bytesOf).run σ
      (.commit h userId payload :: List.replicate n (.check h)) = some (σ.setCommit h
        (if absent = [] then some { k with found := k.found ++ k.todo, todo := [] } else none)) := by
    rw [System.run, step_system, hstart]
    exact hcheck
  by_cases hnil : absent = []
  · rw [if_pos hnil] at hchecked hcommit
    have hjournal := (Prod.mk.inj (Outcome.ok.inj hcommit)).2
    obtain ⟨as, hrecord⟩ := run_record root place bytesOf σ h hfree
      { k with found := k.found ++ k.todo, todo := [] } rfl rfl
    refine ⟨(.commit h userId payload :: List.replicate n (.check h)) ++ as, ?_⟩
    rw [System.run_append, hchecked, Option.bind_some, hrecord, ← hjournal]
    rfl
  · rw [if_neg hnil] at hchecked hcommit
    have hjournal := (Prod.mk.inj (Outcome.ok.inj hcommit)).2
    refine ⟨_, hchecked.trans ?_⟩
    rw [setCommit_none σ h hfree, ← hjournal]

end Commit

/-! ## 2. Uploads -/

section Upload

variable (σ : ChunkStore ι P) (h : ι)

def withDisk (disk : Disk P) : ChunkStore ι P :=
  { σ with files := disk.files, late := disk.late.map Prod.snd }

/-- What is due lands, one write after the other. -/
theorem run_landDue (due : Nat → Option WriteResult) (before : List LateWrite) (fs : Files P)
    (late : List (Nat × LateWrite)) :
    ∃ as, (system root place bytesOf).run
        { σ with files := fs, late := before ++ late.map Prod.snd } as =
      some { σ with
        files := (Disk.landDue due fs late).files
        late := before ++ (Disk.landDue due fs late).late.map Prod.snd } := by
  induction late generalizing before fs with
  | nil => exact ⟨[], rfl⟩
  | cons e rest ih =>
    rw [Disk.landDue]
    cases due e.1 with
    | some r =>
      obtain ⟨as, hrun⟩ := ih before (fs.write e.2.inode e.2.offset (r.landed e.2.bytes))
      have hstep : next root place bytesOf
          { σ with files := fs, late := before ++ (e :: rest).map Prod.snd }
          (.landLate before.length r) =
          some { σ with
            files := fs.write e.2.inode e.2.offset (r.landed e.2.bytes)
            late := before ++ rest.map Prod.snd } := by
        simp [next, List.eraseIdx_append_of_length_le]
      refine ⟨.landLate before.length r :: as, ?_⟩
      rw [System.run, step_system, hstep]
      exact hrun
    | none =>
      obtain ⟨as, hrun⟩ := ih (before ++ [e.2]) fs
      rw [List.append_assoc, List.append_assoc] at hrun
      exact ⟨as, hrun⟩

theorem run_land (disk : Disk P) (due : Nat → Option WriteResult) :
    ∃ as, (system root place bytesOf).run (σ.withDisk disk) as =
      some (σ.withDisk (disk.land due)) :=
  run_landDue root place bytesOf σ due [] disk.files disk.late

section Create

variable (hfree : σ.uploads h = none) {c : Text} (hne : c ≠ []) {path : Path Name}
  (hpath : (ChunkId.filePath root c : Outcome ChunkError _) = .ok path) {faults : CreateFaults}
  {fs : Files P}

include hfree hne hpath

theorem next_create {file : OpenFile P} (hopen : openChunk place faults σ.files path = (fs, some file)) :
    next root place bytesOf σ (.create h c faults) =
      some (setUpload { σ with files := fs, names := c :: σ.names } h (some ⟨c, file, 0⟩)) := by
  simp only [next, hfree, hpath, hopen]
  rw [if_neg (by simp [hne])]

theorem next_create_failed (hopen : openChunk place faults σ.files path = (fs, none)) :
    next root place bytesOf σ (.create h c faults) = some { σ with files := fs } := by
  simp only [next, hfree, hpath, hopen]
  rw [if_neg (by simp [hne])]

end Create

omit [DecidableEq P] in
/-- An upload that ends leaves its last write behind. -/
theorem setUpload_left (hfree : σ.uploads h = none) (disk : Disk P) (u : Upload P) (fs : Files P)
    (i : Nat) :
    setUpload
        { setUpload (σ.withDisk disk) h (some u) with
          files := fs
          late := (σ.withDisk disk).late ++ u.file.left } h none =
      σ.withDisk ⟨fs, disk.late ++ u.file.left.map (i, ·)⟩ := by
  have hupdate : Function.update σ.uploads h none = σ.uploads := by
    rw [← hfree, Function.update_eq_self]
  simp only [setUpload, withDisk, Function.update_idem, hupdate, List.map_append, List.map_map,
    Function.comp_def, List.map_id']

/-- The pieces of a field are written one after the other. -/
theorem run_writePieces (env : DiskEnv) (i j : Nat) (c : Text) (file : OpenFile P) (disk : Disk P)
    (n : Nat) (pieces : List Bytes) (hpieces : pieces.flatten <+: (bytesOf c).drop n)
    (hne : ∀ bytes ∈ pieces, bytes ≠ []) :
    ∃ as file' disk', (system root place bytesOf).run
        (setUpload (σ.withDisk disk) h (some ⟨c, file, n⟩)) as =
      some (setUpload (σ.withDisk disk') h (some ⟨c, file', n + pieces.flatten.length⟩)) ∧
      file.writePieces env i j disk pieces =
        { disk' with late := disk'.late ++ file'.left.map (i, ·) } ∧
      file'.place = file.place := by
  induction pieces generalizing j file disk n with
  | nil => exact ⟨[], file, disk, rfl, rfl, rfl⟩
  | cons bytes rest ih =>
    rw [List.forall_mem_cons] at hne
    obtain ⟨others, hothers⟩ := hpieces
    rw [List.flatten_cons, List.append_assoc] at hothers
    have hpiece : ∀ file : OpenFile P,
        Upload.piece (⟨c, file, n⟩ : Upload P) bytesOf bytes.length = bytes := by
      intro file
      rw [Upload.piece, ← hothers, List.take_left]
    have hrest : rest.flatten <+: (bytesOf c).drop (n + bytes.length) := by
      rw [← List.drop_drop, ← hothers, List.drop_left]
      exact List.prefix_append _ _
    obtain ⟨before, hbefore⟩ := run_land root place bytesOf (σ.setUpload h (some ⟨c, file, n⟩)) disk
      (env.due · i (j + 1))
    rw [OpenFile.writePieces]
    generalize disk.land (env.due · i (j + 1)) = disk₁ at hbefore ⊢
    generalize hlanding : file.land (env.write i j) disk₁.files = landing
    generalize hwriting : landing.2.writeAll (env.removes i j) landing.1 bytes = writing
    have hqueued : landing.2.queued = [] := by rw [← hlanding, OpenFile.queued_land]
    have hland : next root place bytesOf (setUpload (σ.withDisk disk₁) h (some ⟨c, file, n⟩))
          (.land h (env.write i j)) =
        some (setUpload (σ.withDisk { disk₁ with files := landing.1 }) h
          (some ⟨c, landing.2, n⟩)) := by
      simp only [next, uploads_setUpload_self, Option.map_some]
      rw [← hlanding]
      exact congrArg some (by simp only [setUpload, withDisk, Function.update_idem])
    have happend : next root place bytesOf
          (setUpload (σ.withDisk { disk₁ with files := landing.1 }) h (some ⟨c, landing.2, n⟩))
          (.append h bytes.length (env.removes i j)) =
        some (setUpload (σ.withDisk { disk₁ with files := writing.1 }) h
          (some ⟨c, writing.2, n + bytes.length⟩)) := by
      simp only [next, uploads_setUpload_self, Option.bind_some, hpiece, hqueued]
      rw [if_pos ⟨trivial, hne.1⟩, ← hwriting]
      exact congrArg some (by simp only [setUpload, withDisk, Function.update_idem])
    obtain ⟨as, file', disk', hrun, hwritten, hplace⟩ := ih (j + 1) writing.2
      { disk₁ with files := writing.1 } (n + bytes.length) hrest hne.2
    refine ⟨before ++ (.land h (env.write i j) :: .append h bytes.length (env.removes i j) :: as),
      file', disk', ?_, hwritten, ?_⟩
    · rw [System.run_append]
      refine (congrArg (Option.bind · _) hbefore).trans ?_
      rw [Option.bind_some, System.run, step_system]
      refine (congrArg (Option.bind · _) hland).trans ?_
      rw [Option.bind_some, System.run, step_system, happend, Option.bind_some, hrun,
        List.flatten_cons, List.length_append, Nat.add_assoc]
    · rw [hplace, ← hwriting, OpenFile.place_writeAll, ← hlanding, OpenFile.place_land]

/-- One turn of the loop, alone. -/
theorem run_receivePart (hfree : σ.uploads h = none) (env : DiskEnv) (i : Nat) (disk : Disk P)
    {part : Part} (cut : Bool)
    (hcontent : ∀ c, part.name = some c → c ≠ [] → part.pieces.flatten <+: bytesOf c ∧
      (cut = false → part.pieces.flatten = bytesOf c)) :
    ∃ as names, (system root place bytesOf).run (σ.withDisk disk) as = some
      { σ.withDisk (receivePart root place env i disk part cut).1 with names := names } := by
  obtain ⟨before, hbefore⟩ := run_land root place bytesOf σ disk (env.due · i 0)
  rw [receivePart]
  generalize disk.land (env.due · i 0) = disk₁ at hbefore ⊢
  cases hname : part.name with
  | none => exact ⟨before, σ.names, hbefore⟩
  | some c =>
    by_cases hne : c = []
    · simp only [if_pos hne]
      exact ⟨before, σ.names, hbefore⟩
    · simp only [if_neg hne]
      cases hpath : (ChunkId.filePath root c : Outcome ChunkError _) with
      | err e => exact ⟨before, σ.names, hbefore⟩
      | panic => exact ⟨before, σ.names, hbefore⟩
      | ok path =>
        cases hopen : openChunk place (env.create i) disk₁.files path with
        | mk fs file =>
          cases file with
          | none =>
            refine ⟨before ++ [.create h c (env.create i)], σ.names, ?_⟩
            rw [System.run_append, hbefore, Option.bind_some, System.run_singleton, step_system,
              next_create_failed root place bytesOf (σ.withDisk disk₁) h hfree hne hpath hopen]
            simp only [hopen]
            rfl
          | some file =>
            obtain ⟨hpieces, hwhole⟩ := hcontent c hname hne
            rw [← part.flatten_written] at hpieces hwhole
            obtain ⟨as, file', disk₂, hwrite, hwritten, hplace⟩ := run_writePieces root place bytesOf
              { σ with names := c :: σ.names } h env i 0 c file ⟨fs, disk₁.late⟩ 0 part.written
              (by rwa [List.drop_zero]) fun _ hb ↦ by simpa using (List.mem_filter.mp hb).2
            have hopened : (system root place bytesOf).run (σ.withDisk disk)
                (before ++ (.create h c (env.create i) :: as)) =
                some (setUpload (withDisk { σ with names := c :: σ.names } disk₂) h
                  (some ⟨c, file', 0 + part.written.flatten.length⟩)) := by
              rw [System.run_append, hbefore, Option.bind_some, System.run, step_system,
                next_create root place bytesOf (σ.withDisk disk₁) h hfree hne hpath hopen]
              exact hwrite
            have hleft := fun fs' ↦ setUpload_left { σ with names := c :: σ.names } h hfree disk₂
              ⟨c, file', 0 + part.written.flatten.length⟩ fs' i
            simp only [hopen, hwritten]
            cases cut with
            | false =>
              refine ⟨before ++ (.create h c (env.create i) :: as) ++ [.finish h], c :: σ.names, ?_⟩
              rw [System.run_append, hopened, Option.bind_some, System.run_singleton, step_system]
              have hread : 0 + part.written.flatten.length = (bytesOf c).length := by
                rw [Nat.zero_add, hwhole rfl]
              simp only [next, uploads_setUpload_self, Option.bind_some, if_pos hread]
              exact congrArg some (hleft disk₂.files)
            | true =>
              refine ⟨before ++ (.create h c (env.create i) :: as) ++
                [.fail h (!env.removeFails i)], c :: σ.names, ?_⟩
              rw [System.run_append, hopened, Option.bind_some, System.run_singleton, step_system]
              simp only [next, uploads_setUpload_self, Option.map_some, hplace, if_true]
              cases env.removeFails i with
              | true => exact congrArg some (hleft disk₂.files)
              | false => exact congrArg some (hleft (disk₂.files.remove file.place))

/-- An upload whose fields carry the bytes of their chunks, alone. -/
theorem run_receiveParts (hfree : σ.uploads h = none) (env : DiskEnv) {parts : List Part}
    {ending : Ending}
    (hparts : ∀ part ∈ parts, ∀ c, part.name = some c → c ≠ [] → part.pieces.flatten = bytesOf c)
    (hcut : ∀ part, ending = .inContent part → ∀ c, part.name = some c → c ≠ [] →
      part.pieces.flatten <+: bytesOf c) (i : Nat) (disk : Disk P) :
    ∃ as names, (system root place bytesOf).run (σ.withDisk disk) as = some
      { σ.withDisk (receiveParts root place env i disk parts ending).1 with names := names } := by
  induction parts generalizing i disk σ with
  | nil =>
    cases ending with
    | complete => exact (run_land root place bytesOf σ disk env.inTime).imp fun _ hrun ↦ ⟨_, hrun⟩
    | inHeaders => exact (run_land root place bytesOf σ disk env.inTime).imp fun _ hrun ↦ ⟨_, hrun⟩
    | inContent part =>
      obtain ⟨as, names, hpart⟩ := run_receivePart root place bytesOf σ h hfree env i disk
        true fun c hname hne ↦ ⟨hcut part rfl c hname hne, fun h ↦ by cases h⟩
      rw [receiveParts]
      split
      · next disk₁ hreceive =>
        rw [hreceive] at hpart
        obtain ⟨bs, hland⟩ := run_land root place bytesOf { σ with names := names } disk₁ env.inTime
        refine ⟨as ++ bs, names, ?_⟩
        rw [System.run_append, hpart, Option.bind_some]
        exact hland
      · exact ⟨as, names, hpart⟩
  | cons part rest ih =>
    rw [List.forall_mem_cons] at hparts
    obtain ⟨as, names, hpart⟩ := run_receivePart root place bytesOf σ h hfree env i disk
      false fun c hname hne ↦
        ⟨(hparts.1 c hname hne).symm ▸ List.prefix_rfl, fun _ ↦ hparts.1 c hname hne⟩
    rw [receiveParts]
    split
    · next disk₁ hreceive =>
      rw [hreceive] at hpart
      obtain ⟨bs, names', hrest⟩ := ih { σ with names := names } hfree hparts.2 (i + 1) disk₁
      refine ⟨as ++ bs, names', ?_⟩
      rw [System.run_append, hpart, Option.bind_some]
      exact hrest
    · exact ⟨as, names, hpart⟩

end Upload

end ChunkStore

end CooklangSync.System
