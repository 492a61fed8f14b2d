import CooklangSync.Server.Chunks

/-!
# Turns — one field after the other

A turn of the loop opens the file of its field, and touches neither the other files nor their names.
The writes that are still under way in files of earlier fields land meanwhile.
-/

namespace CooklangSync.Server

open Theory

section Handler

variable {P : Type} [DecidableEq P] (root : Path Name) (place : Path Name → P)

/-! ## 1. One field -/

/-- The place of a field's file. -/
def Part.file (part : Part) : Option P :=
  match part.name with
  | none => none
  | some name =>
    if name = [] then none
    else
      match (ChunkId.filePath root name : Outcome ChunkError _) with
      | .ok path => some (place path)
      | _ => none

-- A named field whose content is cut ends in a panic.
theorem receivePart_cut {env : DiskEnv} {i : Nat} {disk disk' : Disk P} {part : Part}
    (h : receivePart root place env i disk part true = (disk', .ok ())) :
    disk' = disk.land (env.due · i 0) := by
  unfold receivePart at h
  cases hname : part.name with
  | none =>
    rw [hname] at h
    cases h
  | some name =>
    simp only [hname] at h
    split at h
    · cases h
      rfl
    · split at h
      · cases h
      · cases h
      · split at h
        · cases h
        · cases h

/-- A turn of the loop passes over its field, or opens a file and writes the field to it. -/
theorem receivePart_cases {env : DiskEnv} {i : Nat} {disk disk' : Disk P} {part : Part}
    (h : receivePart root place env i disk part false = (disk', .ok ())) :
    (part.name = some [] ∧ disk' = disk.land (env.due · i 0)) ∨
    ∃ name path fs₁ file, part.name = some name ∧ name ≠ [] ∧
      (ChunkId.filePath root name : Outcome ChunkError _) = .ok path ∧
      openChunk place (env.create i) (disk.land (env.due · i 0)).files path = (fs₁, some file) ∧
      disk' = file.writePieces env i 0 ⟨fs₁, (disk.land (env.due · i 0)).late⟩ part.written := by
  unfold receivePart at h
  cases hname : part.name with
  | none =>
    rw [hname] at h
    cases h
  | some name =>
    simp only [hname] at h
    by_cases hempty : name = []
    · rw [if_pos hempty] at h
      cases h
      exact .inl ⟨congrArg some hempty, rfl⟩
    · rw [if_neg hempty] at h
      split at h
      · cases h
      · cases h
      · next path hpath =>
        split at h
        · cases h
        · next fs₁ file hopen =>
          cases h
          exact .inr ⟨name, path, fs₁, file, rfl, hempty, hpath, hopen, rfl⟩

omit [DecidableEq P] in
theorem Part.file_of_empty {part : Part} (hname : part.name = some []) :
    part.file root place = none := by
  simp only [Part.file, hname, if_pos]

omit [DecidableEq P] in
theorem Part.file_of_name {part : Part} {name : Text} {path : Path Name}
    (hname : part.name = some name) (hne : name ≠ [])
    (hpath : (ChunkId.filePath root name : Outcome ChunkError _) = .ok path) :
    part.file root place = some (place path) := by
  simp only [Part.file, hname, if_neg hne, hpath]

theorem place_openChunk {faults : CreateFaults} {fs fs' : Files P} {path : Path Name}
    {file : OpenFile P} (hopen : openChunk place faults fs path = (fs', some file)) :
    file.place = place path := by
  rcases openChunk_cases place hopen with ⟨hnone, -⟩ | ⟨inode, hfile, -⟩
  · cases hnone
  · rw [Option.some.inj hfile]

/-! ## 2. What a turn leaves alone -/

/-- No name differs but that of the file at the path, and those of directories above it. -/
structure ChangesOnly (path : Path Name) (fs fs' : Files P) : Prop where
  entry : ∀ q, q ≠ place path → fs'.entry q = fs.entry q
  isDir : ∀ q, q ∉ path.ancestors.map place → fs'.isDir q = fs.isDir q

theorem changesOnly_openChunk {faults : CreateFaults} {fs fs' : Files P} {path : Path Name}
    {file : Option (OpenFile P)} (hopen : openChunk place faults fs path = (fs', file)) :
    ChangesOnly place path fs fs' := by
  refine ⟨fun q hq ↦ ?_, fun q hq ↦ isDir_openChunk place hopen hq⟩
  rcases openChunk_cases place hopen with ⟨-, hsame⟩ | ⟨inode, -, hcreated⟩
  · exact congrFun hsame.entry q
  · exact hcreated.entry_other q hq

theorem OpenFile.names_writePieces (env : DiskEnv) (i j : Nat) (file : OpenFile P) (disk : Disk P)
    (pieces : List Bytes) :
    (∀ q, q ≠ file.place →
      (file.writePieces env i j disk pieces).files.entry q = disk.files.entry q) ∧
      (file.writePieces env i j disk pieces).files.isDir = disk.files.isDir := by
  induction pieces generalizing j file disk with
  | nil => exact ⟨fun _ _ ↦ rfl, rfl⟩
  | cons bytes rest ih =>
    rw [writePieces]
    obtain ⟨hentry, hdir⟩ := ih (j + 1) ((file.land (env.write i j)
      (disk.land (env.due · i (j + 1))).files).2.writeAll (env.removes i j)
        (file.land (env.write i j) (disk.land (env.due · i (j + 1))).files).1 bytes).2 _
    -- landings change no names, and only a failed write removes one
    constructor
    · intro q hq
      rw [hentry q (by simpa using hq)]
      change (writeAll _ _ _ _).1.entry q = _
      rw [entry_writeAll, if_neg fun h ↦ hq h.1, entry_land, Disk.entry_land]
    · rw [hdir]
      change (writeAll _ _ _ _).1.isDir = _
      rw [isDir_writeAll, isDir_land, Disk.isDir_land]

/-- Whatever comes of a turn, it changes no name but that of the file of its field, and those of the
directories above it. -/
theorem receivePart_frame (env : DiskEnv) (i : Nat) (disk : Disk P) (part : Part) (cut : Bool) :
    ((receivePart root place env i disk part cut).1.files.entry = disk.files.entry ∧
      (receivePart root place env i disk part cut).1.files.isDir = disk.files.isDir) ∨
    ∃ name path, part.name = some name ∧ name ≠ [] ∧
      (ChunkId.filePath root name : Outcome ChunkError _) = .ok path ∧
      ChangesOnly place path disk.files (receivePart root place env i disk part cut).1.files := by
  have hland := disk.entry_land (env.due · i 0)
  have hland' := disk.isDir_land (env.due · i 0)
  unfold receivePart
  cases hname : part.name with
  | none => exact .inl ⟨hland, hland'⟩
  | some name =>
    by_cases hempty : name = []
    · simp only [if_pos hempty]
      exact .inl ⟨hland, hland'⟩
    · simp only [if_neg hempty]
      cases hpath : (ChunkId.filePath root name : Outcome ChunkError _) with
      | err e => exact .inl ⟨hland, hland'⟩
      | panic => exact .inl ⟨hland, hland'⟩
      | ok path =>
        refine .inr ⟨name, path, rfl, hempty, hpath, ?_⟩
        cases hopen : openChunk place (env.create i) (disk.land (env.due · i 0)).files path with
        | mk fs₁ file =>
          have hchanges := changesOnly_openChunk place hopen
          cases file with
          | none =>
            simp only [hopen]
            exact ⟨fun q hq ↦ (hchanges.entry q hq).trans (congrFun hland q),
              fun q hq ↦ (hchanges.isDir q hq).trans (congrFun hland' q)⟩
          | some file =>
            obtain ⟨hentry, hdir⟩ := file.names_writePieces env i 0
              ⟨fs₁, (disk.land (env.due · i 0)).late⟩ part.written
            have hplace := place_openChunk place hopen
            have hwritten : ChangesOnly place path disk.files (file.writePieces env i 0
                ⟨fs₁, (disk.land (env.due · i 0)).late⟩ part.written).files := by
              refine ⟨fun q hq ↦ ?_, fun q hq ↦ ?_⟩
              · rw [hentry q (hplace ▸ hq), ← hland]
                exact hchanges.entry q hq
              · rw [hdir, ← hland']
                exact hchanges.isDir q hq
            simp only [hopen]
            -- a field that is cut off has its file removed, where the removal works
            split
            · split
              · exact hwritten
              · refine ⟨fun q hq ↦ ?_, hwritten.isDir⟩
                exact (Files.entry_remove_of_ne _ (hplace ▸ hq)).trans (hwritten.entry q hq)
            · exact hwritten

theorem elsewhere_openChunk {faults : CreateFaults} {disk : Disk P} {fs : Files P} {path : Path Name}
    {file : Option (OpenFile P)} (hopen : openChunk place faults disk.files path = (fs, file)) {p : P}
    (hp : place path ≠ p) : Disk.Elsewhere p disk { disk with files := fs } := by
  rcases openChunk_cases place hopen with ⟨-, hsame⟩ | ⟨inode, -, hcreated⟩
  · exact ⟨congrFun hsame.entry p, fun n _ ↦ congrFun hsame.data n, fun _ _ ↦ rfl⟩
  · refine ⟨hcreated.entry_other p hp.symm, fun n hn ↦ hcreated.data_other n ?_, fun _ _ ↦ rfl⟩
    -- the inode that is opened is at its own place, or new
    rintro rfl
    rcases hcreated.inode with hentry | ⟨-, hnext⟩
    · exact hp (disk.files.entry_inj _ p n hentry hn)
    · have hlt := disk.files.entry_lt p n hn
      omega

section Preserves

variable {I : Disk P → Prop} {env : DiskEnv} {i : Nat} {p : P}
  (hland : ∀ disk j, I disk → I (disk.land (env.due · i j)))
  (hother : ∀ disk disk', Disk.Elsewhere p disk disk' → I disk → I disk')

include hland hother

theorem OpenFile.writePieces_preserves {j : Nat} {file : OpenFile P} {disk : Disk P}
    {pieces : List Bytes} (hplace : file.place ≠ p) (hinode : disk.files.entry p ≠ some file.inode)
    (hdisk : I disk) : I (file.writePieces env i j disk pieces) := by
  induction pieces generalizing j file disk with
  | nil =>
    refine hother disk _ ⟨rfl, fun _ _ ↦ rfl, fun n hn ↦ ?_⟩ hdisk
    -- the write that is left goes to the file of the field
    have hnone : (file.left.map (i, ·)).filter (·.2.inode = n) = [] := by
      rw [List.filter_eq_nil_iff]
      intro e he heq
      obtain ⟨w, hw, rfl⟩ := List.mem_map.mp he
      rw [(file.mem_left.mp hw).2] at heq
      exact hinode (hn.trans (congrArg some (of_decide_eq_true heq).symm))
    rw [writePieces, Disk.lateIn, List.filter_append, hnone, List.append_nil]
    rfl
  | cons bytes rest ih =>
    rw [writePieces]
    have hentry : (disk.land (env.due · i (j + 1))).files.entry p = disk.files.entry p := by
      rw [Disk.entry_land]
    have hsame : ((file.land (env.write i j) (disk.land (env.due · i (j + 1))).files).2.writeAll
        (env.removes i j) (file.land (env.write i j)
          (disk.land (env.due · i (j + 1))).files).1 bytes).1.entry p =
        (disk.land (env.due · i (j + 1))).files.entry p := by
      rw [entry_writeAll, if_neg fun h ↦ hplace h.1.symm, entry_land]
    refine ih (by simpa using hplace) ?_ (hother _ _ ⟨hsame, fun n hn ↦ ?_, fun _ _ ↦ rfl⟩
      (hland disk (j + 1) hdisk))
    · rw [inode_writeAll, inode_land]
      change (writeAll _ _ _ _).1.entry p ≠ _
      rw [hsame, hentry]
      exact hinode
    · change (writeAll _ _ _ _).1.data n = _
      rw [data_writeAll, data_land_of_ne]
      rintro rfl
      exact hinode (hentry ▸ hn)

/-- What is kept by landings and by what happens elsewhere, is kept by a turn for another file. -/
theorem receivePart_preserves {disk : Disk P} {part : Part} (cut : Bool)
    (hp : part.file root place ≠ some p) (hdisk : I disk) :
    I (receivePart root place env i disk part cut).1 := by
  have hdisk := hland disk 0 hdisk
  unfold receivePart
  cases hname : part.name with
  | none => exact hdisk
  | some name =>
    by_cases hempty : name = []
    · simp only [if_pos hempty]
      exact hdisk
    · simp only [if_neg hempty]
      cases hpath : (ChunkId.filePath root name : Outcome ChunkError _) with
      | err e => exact hdisk
      | panic => exact hdisk
      | ok path =>
        have hne : place path ≠ p := by
          rintro rfl
          exact hp (Part.file_of_name root place hname hempty hpath)
        cases hopen : openChunk place (env.create i) (disk.land (env.due · i 0)).files path with
        | mk fs₁ file =>
          have helse : Disk.Elsewhere p (disk.land (env.due · i 0))
              ⟨fs₁, (disk.land (env.due · i 0)).late⟩ := elsewhere_openChunk place hopen hne
          cases file with
          | none =>
            simp only [hopen]
            exact hother _ _ helse hdisk
          | some file =>
            have hplace := place_openChunk place hopen
            have hwritten : I (file.writePieces env i 0
                ⟨fs₁, (disk.land (env.due · i 0)).late⟩ part.written) := by
              refine file.writePieces_preserves hland hother (hplace ▸ hne) ?_
                (hother _ _ helse hdisk)
              -- no two names have one inode
              rcases openChunk_cases place hopen with ⟨hnone, -⟩ | ⟨inode, hfile, hcreated⟩
              · cases hnone
              · rw [Option.some.inj hfile]
                intro hentry
                exact hne (fs₁.entry_inj _ p inode hcreated.entry_self hentry)
            simp only [hopen]
            split
            · split
              · exact hwritten
              · have hentry : ∀ fs : Files P, (fs.remove file.place).entry p = fs.entry p :=
                  fun fs ↦ fs.entry_remove_of_ne (hplace ▸ hne.symm)
                exact hother _ _ ⟨hentry _, fun _ _ ↦ rfl, fun _ _ ↦ rfl⟩ hwritten
            · exact hwritten

end Preserves

/-- At some steps of a turn writes land that were under way before. -/
def landAt (env : DiskEnv) (i : Nat) (disk : Disk P) (steps : List Nat) : Disk P :=
  steps.foldl (fun disk j ↦ disk.land (env.due · i j)) disk

/-- In another file a turn only lets land what was under way there before. -/
theorem receivePart_elsewhere {env : DiskEnv} {i : Nat} {p : P} {disk : Disk P} {part : Part}
    (cut : Bool) (hp : part.file root place ≠ some p) :
    ∃ steps, Disk.Elsewhere p (landAt env i disk steps)
      (receivePart root place env i disk part cut).1 := by
  refine receivePart_preserves root place
    (I := fun disk' ↦ ∃ steps, Disk.Elsewhere p (landAt env i disk steps) disk')
    ?_ ?_ cut hp ⟨[], ⟨rfl, fun _ _ ↦ rfl, fun _ _ ↦ rfl⟩⟩
  · rintro disk' j ⟨steps, helse⟩
    refine ⟨steps ++ [j], ?_⟩
    rw [landAt, List.foldl_append]
    exact helse.land
  · rintro disk' disk'' helse' ⟨steps, helse⟩
    exact ⟨steps, helse.trans helse'⟩

/-- A turn leaves the other files alone in which nothing is under way. -/
theorem receivePart_read_of_ne {env : DiskEnv} {i : Nat} {p : P} {disk : Disk P} {part : Part}
    (cut : Bool) (hquiet : disk.IsQuiet p) (hp : part.file root place ≠ some p) :
    (receivePart root place env i disk part cut).1.IsQuiet p ∧
      (receivePart root place env i disk part cut).1.files.read p = disk.files.read p := by
  refine receivePart_preserves root place
    (I := fun disk' ↦ disk'.IsQuiet p ∧ disk'.files.read p = disk.files.read p)
    (fun disk' j h ↦ ?_) (fun disk' disk'' helse h ↦ ?_) cut hp ⟨hquiet, rfl⟩
  · exact ⟨h.1.land.1, h.1.land.2.trans h.2⟩
  · exact ⟨(h.1.elsewhere helse).1, (h.1.elsewhere helse).2.trans h.2⟩

/-- What every turn and the landings at the end preserve, the loop preserves. -/
theorem receiveParts_preserves {I : Disk P → Prop} {env : DiskEnv} {parts : List Part}
    {ending : Ending}
    (hparts : ∀ part, part ∈ parts ∨ ending = .inContent part → ∀ i disk cut, I disk →
      I (receivePart root place env i disk part cut).1)
    (hend : ∀ disk, I disk → I (disk.land env.inTime))
    {i : Nat} {disk : Disk P} (hdisk : I disk) :
    I (receiveParts root place env i disk parts ending).1 := by
  induction parts generalizing i disk with
  | nil =>
    cases ending with
    | complete => exact hend disk hdisk
    | inHeaders => exact hend disk hdisk
    | inContent part =>
      have hlast := hparts part (.inr rfl) i disk true hdisk
      rw [receiveParts]
      split
      · next disk₁ heq =>
        rw [heq] at hlast
        exact hend disk₁ hlast
      · exact hlast
  | cons part rest ih =>
    have hdisk₁ := hparts part (.inl List.mem_cons_self) i disk false hdisk
    have hrest : ∀ later, later ∈ rest ∨ ending = .inContent later → ∀ i disk cut, I disk →
        I (receivePart root place env i disk later cut).1 := fun later hlater ↦
      hparts later (hlater.imp_left (List.mem_cons_of_mem _))
    rw [receiveParts]
    cases hreceive : receivePart root place env i disk part false with
    | mk disk₁ outcome =>
      rw [hreceive] at hdisk₁
      cases outcome with
      | ok u => exact ih hrest hdisk₁
      | err e => exact hdisk₁
      | panic => exact hdisk₁

end Handler

end CooklangSync.Server
