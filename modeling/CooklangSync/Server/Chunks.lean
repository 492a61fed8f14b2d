import CooklangSync.Server.ChunkId
import CooklangSync.Theory.OpenFiles

/-!
# Chunks — the upload of chunks

`upload_chunks` reads a multipart body and writes every field, as it arrives, to the file of the
chunk the field is named after.  The loop over the fields ends at the end of the body and at any
error between two fields alike.  What goes wrong while a file is written is discarded, and nothing
waits for the last write to a file: it may land after the answer.
-/

namespace CooklangSync.Server

open Theory

inductive ChunkError where
  | unmatchedFormat
  | io
  deriving DecidableEq, Repr

def dataFormLimit : Nat := 5 * 1024 * 1024
def Chunks.formLimit : Nat := 1024 * 1024

def multipartFormData : Text := "multipart/form-data".toList

/-! ## 1. The body -/

/-- A body arrives in pieces, and ends early at an error. -/
abbrev Body := List (Option Bytes)

def Body.delivered : Body → Bytes
  | [] => []
  | none :: _ => []
  | some bytes :: rest => bytes ++ Body.delivered rest

/-- Truncates a body at `limit` bytes, of which `seen` have passed, ending it there. -/
def cappedDataStream (limit : Nat) : Nat → Body → Body
  | _, [] => []
  | _, none :: _ => [none]
  | seen, some bytes :: rest =>
    let remaining := limit - seen
    if remaining ≤ bytes.length then [some (bytes.take remaining)]
    else some bytes :: cappedDataStream limit (seen + bytes.length) rest

theorem delivered_cappedDataStream (limit seen : Nat) (body : Body) :
    (cappedDataStream limit seen body).delivered = body.delivered.take (limit - seen) := by
  fun_induction cappedDataStream limit seen body with
  | case1 seen => exact List.take_nil.symm
  | case2 seen rest => exact List.take_nil.symm
  | case3 seen bytes rest remaining hle =>
    rw [Body.delivered, Body.delivered, Body.delivered, List.append_nil,
      List.take_append_of_le_length hle]
  | case4 seen bytes rest remaining hlt ih =>
    rw [Body.delivered, Body.delivered, ih, List.take_append,
      List.take_of_length_le (Nat.le_of_not_le hlt), Nat.sub_sub]

/-- A field as the client means it. -/
structure Field where
  name : Option Text
  content : Bytes
  deriving DecidableEq, Repr

/-- A field as it is read: its name, and the pieces of its content. -/
structure Part where
  name : Option Text
  pieces : List Bytes
  deriving DecidableEq, Repr

def Part.field (part : Part) : Field := ⟨part.name, part.pieces.flatten⟩

/-- The pieces that are written: `write_all` of an empty one returns at once. -/
def Part.written (part : Part) : List Bytes := part.pieces.filter (· ≠ [])

theorem Part.flatten_written (part : Part) : part.written.flatten = part.pieces.flatten :=
  List.flatten_filter_ne_nil

/-- Where the body ends: after the last field, where a field is expected, or in the content of a
field, of which some pieces have been read. -/
inductive Ending where
  | complete
  | inHeaders
  | inContent (part : Part)

/-- What the multipart parser makes of a body: the fields it delivers to their end, then how
`next_field` (`Ok(None)` or `Err`) or `chunk` (`Err`) ends. -/
structure Delivery where
  parts : List Part
  ending : Ending

/-- The fields arrive in order, up to where the body ends. -/
structure IsCut (fields : List Field) (d : Delivery) : Prop where
  parts : d.parts.map Part.field <+: fields
  complete : d.ending = .complete → d.parts.length = fields.length
  inContent : ∀ part, d.ending = .inContent part →
    ∃ field, fields[d.parts.length]? = some field ∧ field.name = part.name ∧
      part.pieces.flatten <+: field.content

/-- The parser on bodies that may be cut anywhere; `fieldsOf` are the fields of a whole body. -/
def ParsesFormData (fieldsOf : Text → Bytes → List Field) (multer : Text → Body → Delivery) :
    Prop :=
  ∀ boundary sent body, Body.delivered body <+: sent →
    IsCut (fieldsOf boundary sent) (multer boundary body)

/-! ## 2. Writing -/

/-- A file that is open for writing.  `write_all` queues its bytes and returns; they are written in
the background, and the next `write_all` waits for that.  When a write has fallen short, `failed`
keeps this for the next one to report. -/
structure OpenFile (P : Type) where
  place : P
  inode : Nat
  offset : Nat
  queued : Bytes
  failed : Bool
  deriving DecidableEq, Repr

/-- Which operation fails while a file is created: making the directories, after some of them, or
creating the file. -/
structure CreateFaults where
  dirs : Option Nat
  file : Bool

def CreateFaults.none : CreateFaults := ⟨.none, false⟩

/-- When the last write of a field has landed: before the given step of a field, or by the end of the
loop; and how. -/
structure Landing where
  field : Nat
  step : Nat
  result : WriteResult

/-- What the disk does to the fields.  `write i j` is what becomes of the write that the piece `j` of
the field `i` waits for, and `removes i j` whether the file is removed when it has failed.  Nobody
waits for the last write of a field: at `none` it has not landed when the answer is sent. -/
structure DiskEnv where
  create : Nat → CreateFaults
  write : Nat → Nat → WriteResult
  removes : Nat → Nat → Bool
  removeFails : Nat → Bool
  last : Nat → Option Landing

/-- What becomes of the last write of the field `k` before the step `j` of the field `i`. -/
def DiskEnv.due (env : DiskEnv) (k i j : Nat) : Option WriteResult :=
  (env.last k).bind fun l ↦ if l.field < i ∨ l.field = i ∧ l.step ≤ j then some l.result else none

/-- What becomes of it before the answer is sent. -/
def DiskEnv.inTime (env : DiskEnv) (k : Nat) : Option WriteResult := (env.last k).map Landing.result

section Handler

variable {P : Type} [DecidableEq P] (root : Path Name) (place : Path Name → P)

/-- `create_dir_all` of the parent. -/
def makeParents (faults : CreateFaults) (fs : Files P) (path : Path Name) : Files P × Bool :=
  let dirs := path.ancestors.map place
  match faults.dirs with
  | some n => ((fs.makeDirs (dirs.take n)).1, false)
  | none => fs.makeDirs dirs

/-- `create_dir_all`, then `File::create`. -/
def openChunk (faults : CreateFaults) (fs : Files P) (path : Path Name) :
    Files P × Option (OpenFile P) :=
  let (fs, made) := makeParents place faults fs path
  if made && !faults.file then
    match fs.create (place path) with
    | none => (fs, none)
    | some (fs, inode) => (fs, some ⟨place path, inode, 0, [], false⟩)
  else (fs, none)

namespace OpenFile

/-- The queued write ends. -/
def land (file : OpenFile P) (r : WriteResult) (fs : Files P) : Files P × OpenFile P :=
  let landed := r.landed file.queued
  (fs.write file.inode file.offset landed,
    { file with
      offset := file.offset + landed.length
      queued := []
      failed := file.failed || landed.length < file.queued.length })

/-- `write_all`, once nothing is queued any more.  An error is that of the write before: the handler
removes the file, which may fail, and goes on. -/
def writeAll (file : OpenFile P) (removed : Bool) (fs : Files P) (bytes : Bytes) :
    Files P × OpenFile P :=
  if file.failed then (if removed then fs.remove file.place else fs, { file with failed := false })
  else (fs, { file with queued := bytes })

/-- What is under way when the file is closed, which does not wait for it. -/
def left (file : OpenFile P) : List LateWrite :=
  if file.queued = [] then [] else [⟨file.inode, file.offset, file.queued⟩]

/-- What is written of the field `i`, from the piece `j` on. -/
def writePieces (env : DiskEnv) (i : Nat) : Nat → OpenFile P → Disk P → List Bytes → Disk P
  | _, file, disk, [] => { disk with late := disk.late ++ file.left.map (i, ·) }
  | j, file, disk, bytes :: rest =>
    let disk := disk.land (env.due · i (j + 1))
    let landed := file.land (env.write i j) disk.files
    let written := landed.2.writeAll (env.removes i j) landed.1 bytes
    written.2.writePieces env i (j + 1) { disk with files := written.1 } rest

end OpenFile

/-- One turn of the loop.  `cut` says that the content ends in an error. -/
def receivePart (env : DiskEnv) (i : Nat) (disk : Disk P) (part : Part) (cut : Bool) :
    Disk P × Outcome ChunkError Unit :=
  let disk := disk.land (env.due · i 0)
  match part.name with
  | none => (disk, .panic)
  | some name =>
    if name = [] then (disk, .ok ())
    else
      match ChunkId.filePath root name with
      | .err e => (disk, .err e)
      | .panic => (disk, .panic)
      | .ok path =>
        match openChunk place (env.create i) disk.files path with
        | (fs, none) => ({ disk with files := fs }, .err .io)
        | (fs, some file) =>
          let disk := file.writePieces env i 0 { disk with files := fs } part.written
          if cut then
            (if env.removeFails i then disk
              else { disk with files := disk.files.remove file.place }, .panic)
          else (disk, .ok ())

/-- The loop.  It is left at the end of the body and at an error of `next_field` alike; a field with
the empty name is passed over, and where its content is cut the error is one of `next_field`. -/
def receiveParts (env : DiskEnv) : Nat → Disk P → List Part → Ending →
    Disk P × Outcome ChunkError Unit
  | i, disk, [], .inContent part =>
    match receivePart root place env i disk part true with
    | (disk, .ok ()) => (disk.land env.inTime, .ok ())
    | failure => failure
  | _, disk, [], _ => (disk.land env.inTime, .ok ())
  | i, disk, part :: rest, ending =>
    match receivePart root place env i disk part false with
    | (disk, .ok ()) => receiveParts env (i + 1) disk rest ending
    | failure => failure

variable (parseBoundary : Text → Option Text) (multer : Text → Body → Delivery)

/-- What is left in `late` lands after the answer has been sent. -/
def receiveUpload (env : DiskEnv) (contentType : Text) (upload : Body) (disk : Disk P) :
    Disk P × Outcome ChunkError Unit :=
  if multipartFormData.isPrefixOf contentType then
    match parseBoundary contentType with
    | none => (disk, .panic)
    | some boundary =>
      let d := multer boundary (cappedDataStream dataFormLimit 0 upload)
      receiveParts root place env 0 disk d.parts d.ending
  else (disk, .err .unmatchedFormat)

def uploadChunks (env : DiskEnv) (contentType : Text) (upload : Body) (disk : Disk P) :
    Disk P × Outcome ChunkError Unit :=
  receiveUpload root place parseBoundary multer env contentType upload disk

-- The route of the older clients differs in what it logs.
def uploadChunksDeprecated (env : DiskEnv) (contentType : Text) (upload : Body) (disk : Disk P) :
    Disk P × Outcome ChunkError Unit :=
  receiveUpload root place parseBoundary multer env contentType upload disk

/-! ## 3. One file -/

theorem makeParents_sameFiles (faults : CreateFaults) (fs : Files P) (path : Path Name) :
    fs.SameFiles (makeParents place faults fs path).1 := by
  unfold makeParents
  split
  · exact fs.makeDirs_sameFiles _
  · exact fs.makeDirs_sameFiles _

/-- A file that is opened has just been emptied or created; otherwise no file changes. -/
theorem openChunk_cases {faults : CreateFaults} {fs fs' : Files P} {path : Path Name}
    {file : Option (OpenFile P)} (h : openChunk place faults fs path = (fs', file)) :
    (file = none ∧ fs.SameFiles fs') ∨
    ∃ inode, file = some ⟨place path, inode, 0, [], false⟩ ∧ fs.Created (place path) fs' inode := by
  have hsame := makeParents_sameFiles place faults fs path
  simp only [openChunk] at h
  split at h
  · split at h
    · cases h
      exact .inl ⟨rfl, hsame⟩
    · next fs₁ inode hcreate =>
      cases h
      exact .inr ⟨inode, rfl, (Files.create_spec hcreate).of_sameFiles hsame⟩
  · cases h
    exact .inl ⟨rfl, hsame⟩

/-- Directories are made above the path, and nowhere else. -/
theorem isDir_makeParents (faults : CreateFaults) (fs : Files P) {path : Path Name} {q : P}
    (hq : q ∉ path.ancestors.map place) :
    (makeParents place faults fs path).1.isDir q = fs.isDir q := by
  unfold makeParents
  split
  · exact fs.isDir_makeDirs_of_not_mem fun hmem ↦ hq (List.mem_of_mem_take hmem)
  · exact fs.isDir_makeDirs_of_not_mem hq

theorem isDir_openChunk {faults : CreateFaults} {fs fs' : Files P} {path : Path Name}
    {file : Option (OpenFile P)} (h : openChunk place faults fs path = (fs', file)) {q : P}
    (hq : q ∉ path.ancestors.map place) : fs'.isDir q = fs.isDir q := by
  rw [← isDir_makeParents place faults fs hq]
  simp only [openChunk] at h
  split at h
  · split at h
    · cases h
      rfl
    · next fs₁ inode hcreate =>
      cases h
      rw [Files.isDir_create hcreate]
  · cases h
    rfl

/-- Nothing is in the way of a chunk: no file where a directory is needed, and no directory at its
own place. -/
def IsUnblocked (fs : Files P) (path : Path Name) : Prop :=
  (∀ dir ∈ path.ancestors, fs.entry (place dir) = none) ∧ fs.isDir (place path) = false

theorem openChunk_isSome_iff {faults : CreateFaults} {fs : Files P} {path : Path Name}
    (hpath : place path ∉ path.ancestors.map place) :
    (openChunk place faults fs path).2.isSome = true ↔
      faults.dirs = none ∧ faults.file = false ∧ IsUnblocked place fs path := by
  have hmade : (makeParents place faults fs path).2 = true ↔
      faults.dirs = none ∧ ∀ dir ∈ path.ancestors, fs.entry (place dir) = none := by
    unfold makeParents
    cases faults.dirs with
    | some n => simp
    | none => simp [Files.makeDirs_snd_iff]
  have hcreate := (makeParents place faults fs path).1.create_isSome_iff (place path)
  rw [isDir_makeParents place faults fs hpath] at hcreate
  have hopen : (openChunk place faults fs path).2.isSome = true ↔
      (makeParents place faults fs path).2 = true ∧ faults.file = false ∧
        ((makeParents place faults fs path).1.create (place path)).isSome = true := by
    simp only [openChunk]
    by_cases hgo : ((makeParents place faults fs path).2 && !faults.file) = true
    · rw [if_pos hgo]
      rw [Bool.and_eq_true, Bool.not_eq_true'] at hgo
      cases (makeParents place faults fs path).1.create (place path) <;> simp [hgo]
    · rw [if_neg hgo]
      rw [Bool.and_eq_true, Bool.not_eq_true'] at hgo
      simp only [Option.isSome_none, Bool.false_eq_true, false_iff]
      exact fun h ↦ hgo ⟨h.1, h.2.1⟩
  rw [hopen, hmade, hcreate, IsUnblocked]
  tauto

end Handler

namespace OpenFile

variable {P : Type} (file : OpenFile P) (r : WriteResult) (removed : Bool) (fs : Files P)
  (bytes : Bytes)

@[simp] theorem place_land : (file.land r fs).2.place = file.place := rfl

@[simp] theorem inode_land : (file.land r fs).2.inode = file.inode := rfl

@[simp] theorem queued_land : (file.land r fs).2.queued = [] := rfl

@[simp] theorem offset_land :
    (file.land r fs).2.offset = file.offset + (r.landed file.queued).length := rfl

@[simp] theorem entry_land : (file.land r fs).1.entry = fs.entry := rfl

@[simp] theorem isDir_land : (file.land r fs).1.isDir = fs.isDir := rfl

@[simp] theorem next_land : (file.land r fs).1.next = fs.next := rfl

theorem data_land_self : (file.land r fs).1.data file.inode =
    overwrite (fs.data file.inode) file.offset (r.landed file.queued) :=
  Files.data_write_self ..

theorem data_land_of_ne {n : Nat} (h : n ≠ file.inode) : (file.land r fs).1.data n = fs.data n :=
  Files.data_write_of_ne fs h ..

theorem mem_left {w : LateWrite} :
    w ∈ file.left ↔ file.queued ≠ [] ∧ w = ⟨file.inode, file.offset, file.queued⟩ := by
  unfold left
  split
  · next h => simp [h]
  · next h => simp [h]

variable [DecidableEq P]

@[simp] theorem place_writeAll : (file.writeAll removed fs bytes).2.place = file.place := by
  unfold writeAll
  split <;> rfl

@[simp] theorem inode_writeAll : (file.writeAll removed fs bytes).2.inode = file.inode := by
  unfold writeAll
  split <;> rfl

@[simp] theorem offset_writeAll : (file.writeAll removed fs bytes).2.offset = file.offset := by
  unfold writeAll
  split <;> rfl

theorem queued_writeAll (h : file.queued = []) :
    (file.writeAll removed fs bytes).2.queued = if file.failed then [] else bytes := by
  unfold writeAll
  split
  · exact h
  · rfl

theorem failed_writeAll : (file.writeAll removed fs bytes).2.failed = false := by
  unfold writeAll
  split
  · rfl
  · next h => exact Bool.eq_false_iff.mpr h

@[simp] theorem isDir_writeAll : (file.writeAll removed fs bytes).1.isDir = fs.isDir := by
  unfold writeAll
  split
  · split <;> rfl
  · rfl

@[simp] theorem next_writeAll : (file.writeAll removed fs bytes).1.next = fs.next := by
  unfold writeAll
  split
  · split <;> rfl
  · rfl

@[simp] theorem data_writeAll : (file.writeAll removed fs bytes).1.data = fs.data := by
  unfold writeAll
  split
  · split <;> rfl
  · rfl

theorem entry_writeAll (q : P) : (file.writeAll removed fs bytes).1.entry q =
    if q = file.place ∧ (file.failed && removed) = true then none else fs.entry q := by
  unfold writeAll
  by_cases hfailed : file.failed = true <;> by_cases hremoved : removed = true
  · rw [if_pos hfailed, if_pos hremoved, hfailed, hremoved]
    by_cases hq : q = file.place
    · rw [if_pos ⟨hq, rfl⟩, hq, Files.entry_remove_self]
    · rw [if_neg fun h ↦ hq h.1, Files.entry_remove_of_ne _ hq]
  · rw [if_pos hfailed, if_neg hremoved, if_neg fun h ↦ hremoved (Bool.and_eq_true_iff.mp h.2).2]
  · rw [if_neg hfailed, if_neg fun h ↦ hfailed (Bool.and_eq_true_iff.mp h.2).1]
  · rw [if_neg hfailed, if_neg fun h ↦ hfailed (Bool.and_eq_true_iff.mp h.2).1]

/-- Writing gives no entry a new inode. -/
theorem entry_of_writeAll {file : OpenFile P} {removed : Bool} {fs : Files P} {bytes : Bytes} {q : P}
    {n : Nat} (h : (file.writeAll removed fs bytes).1.entry q = some n) : fs.entry q = some n := by
  rw [entry_writeAll] at h
  split at h
  · cases h
  · exact h

end OpenFile

end CooklangSync.Server
