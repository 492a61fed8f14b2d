import CooklangSync.Server.Placement

/-!
# Storing — uploads on a disk that does not fail

On such a disk every write lands whole in the end.  What a file will hold is then decided when its
field ends, though its last write may still be under way; until that has landed, a reader may find
less.
-/

namespace CooklangSync.Server

open Theory

/-! ## 1. One file -/

/-- Nothing fails. -/
structure IsHealthy (env : DiskEnv) : Prop where
  create : ∀ i, env.create i = .none
  write : ∀ i j, env.write i j = .ok
  last : ∀ k l, env.last k = some l → l.result = .ok

theorem IsHealthy.landsWhole_due {env : DiskEnv} (h : IsHealthy env) (i j : Nat) :
    Disk.LandsWhole (env.due · i j) := by
  intro k r hr
  obtain ⟨l, hl, rfl⟩ := isPart_due i j k r hr
  exact h.last k l hl

theorem IsHealthy.landsWhole_inTime {env : DiskEnv} (h : IsHealthy env) :
    Disk.LandsWhole env.inTime := by
  intro k r hr
  obtain ⟨l, hl, rfl⟩ := isPart_inTime k r hr
  exact h.last k l hl

section Pieces

variable {P : Type} [DecidableEq P] {env : DiskEnv}

omit [DecidableEq P] in
/-- A file that is closed when all its content has been queued is to hold that content. -/
theorem OpenFile.holds_left {content : Bytes} (i : Nat) {file : OpenFile P} {disk : Disk P}
    (hentry : disk.files.entry file.place = some file.inode)
    (hlate : ∀ e ∈ disk.lateIn file.inode, e.2.bytes <+: content.drop e.2.offset)
    (hfills : Fills content file.offset (disk.files.data file.inode))
    (hrest : content.drop file.offset = file.queued) :
    ({ disk with late := disk.late ++ file.left.map (i, ·) } : Disk P).Holds file.place
      (some content) := by
  have hlength := congrArg List.length hrest
  rw [List.length_drop] at hlength
  have hle := hfills.le_length.trans hfills.length_le
  refine ⟨file.inode, hentry, fun e he ↦ ?_, file.offset, hfills, ?_⟩
  · rw [lateIn_left] at he
    rcases List.mem_append.mp he with he | he
    · exact hlate e he
    · obtain ⟨w, hw, rfl⟩ := List.mem_map.mp he
      rw [(file.mem_left.mp hw).2, hrest]
  · by_cases hnil : file.queued = []
    · rw [hnil, List.length_nil] at hlength
      exact .inl (by omega)
    · -- the last write is still to land
      refine .inr ⟨(i, ⟨file.inode, file.offset, file.queued⟩), ?_, rfl, ?_⟩
      · rw [lateIn_left]
        exact List.mem_append_right _ (List.mem_map_of_mem (file.mem_left.mpr ⟨hnil, rfl⟩))
      · change file.offset + file.queued.length = content.length
        omega

/-- The pieces of a content, written to a file in which nothing but pieces of it is under way. -/
theorem OpenFile.holds_writePieces (hhealthy : IsHealthy env) {content : Bytes} {i j : Nat}
    {file : OpenFile P} {disk : Disk P} {pieces : List Bytes}
    (hentry : disk.files.entry file.place = some file.inode) (hfailed : file.failed = false)
    (hlate : ∀ e ∈ disk.lateIn file.inode, e.2.bytes <+: content.drop e.2.offset)
    (hfills : Fills content file.offset (disk.files.data file.inode))
    (hrest : content.drop file.offset = file.queued ++ pieces.flatten) :
    (file.writePieces env i j disk pieces).Holds file.place (some content) := by
  induction pieces generalizing j file disk with
  | nil =>
    rw [List.flatten_nil, List.append_nil] at hrest
    exact holds_left i hentry hlate hfills hrest
  | cons bytes rest ih =>
    -- what lands before the next piece belongs to the content, the piece before included
    rw [writePieces, hhealthy.write i j]
    generalize hdisk₁ : disk.land (env.due · i (j + 1)) = disk₁
    have hentry₁ : disk₁.files.entry file.place = some file.inode := by
      rw [← hdisk₁, Disk.entry_land, hentry]
    have hlate₁ : ∀ e ∈ disk₁.lateIn file.inode, e.2.bytes <+: content.drop e.2.offset := by
      rw [← hdisk₁, Disk.lateIn_land]
      exact fun e he ↦ hlate e (List.mem_filter.mp he).1
    have hfills₁ : Fills content file.offset (disk₁.files.data file.inode) := by
      rw [← hdisk₁, Disk.data_land]
      exact Disk.fills_landsIn (hhealthy.landsWhole_due i (j + 1)) hlate hfills
    have hfills₂ : Fills content (file.offset + file.queued.length)
        ((file.land .ok disk₁.files).1.data file.inode) := by
      rw [data_land_self]
      exact hfills₁.overwrite (hrest ▸ List.prefix_append _ _) (.inr ⟨Nat.le_refl _, Nat.le_refl _⟩)
    have hfailed₂ : (file.land .ok disk₁.files).2.failed = false := by
      change (file.failed || decide (file.queued.length < file.queued.length)) = false
      rw [hfailed, Bool.false_or, decide_eq_false (Nat.lt_irrefl _)]
    have hwritten : (file.land .ok disk₁.files).2.writeAll (env.removes i j)
        (file.land .ok disk₁.files).1 bytes = ((file.land .ok disk₁.files).1,
          { (file.land .ok disk₁.files).2 with queued := bytes }) := by
      rw [writeAll, if_neg (by rw [hfailed₂]; exact Bool.false_ne_true)]
    rw [hwritten]
    refine ih hentry₁ hfailed₂ hlate₁ hfills₂ ?_
    change content.drop (file.offset + file.queued.length) = bytes ++ rest.flatten
    rw [← List.drop_drop, hrest, List.drop_left, List.flatten_cons]

end Pieces

/-! ## 2. The files of the chunks -/

section Chunks

variable {P : Type} (root : Path Name) (place : Path Name → P)

def chunkPath (id : Text) : Path Name := root.below (ChunkId.shardOf id ++ [toUtf8 id])

/-- The files of all chunks are to hold what the store has, and nothing is in the way of any. -/
structure Keeps (disk : Disk P) (store : Text → Option Bytes) : Prop where
  allocated : IsAllocated disk
  holds : ∀ id, Alphanumeric id → id ≠ [] → disk.Holds (place (chunkPath root id)) (store id)
  unblocked : ∀ id, Alphanumeric id → id ≠ [] → IsUnblocked place disk.files (chunkPath root id)

variable {root place} {disk : Disk P} {store : Text → Option Bytes}

theorem keeps_empty : Keeps root place (⟨.empty, []⟩ : Disk P) (fun _ ↦ none) where
  allocated _ he := absurd he List.not_mem_nil
  holds _ _ _ := rfl
  unblocked _ _ _ := ⟨fun _ _ ↦ rfl, rfl⟩

theorem Keeps.exists_eq (h : Keeps root place disk store) {id : Text} (halpha : Alphanumeric id)
    (hne : id ≠ []) : disk.files.exists (place (chunkPath root id)) = (store id).isSome := by
  rw [Files.exists, (h.unblocked id halpha hne).2, Bool.or_false,
    (h.holds id halpha hne).isSome_entry]

theorem Keeps.read_eq (h : Keeps root place disk store) {id : Text} (halpha : Alphanumeric id)
    (hne : id ≠ []) (hquiet : disk.IsQuiet (place (chunkPath root id))) :
    disk.files.read (place (chunkPath root id)) = store id :=
  (h.holds id halpha hne).read_of_isQuiet hquiet

theorem Keeps.land (h : Keeps root place disk store) {due : Nat → Option WriteResult}
    (hdue : Disk.LandsWhole due) : Keeps root place (disk.land due) store where
  allocated := isAllocated_land h.allocated due
  holds id halpha hne := (h.holds id halpha hne).land hdue
  unblocked id halpha hne := by
    rw [IsUnblocked, Disk.entry_land, Disk.isDir_land]
    exact h.unblocked id halpha hne

theorem Keeps.renumber (h : Keeps root place disk store) (m : Nat) :
    Keeps root place (disk.renumber m) store where
  allocated :=
    (Disk.forall_mem_renumber disk m (Q := fun w ↦ w.inode < disk.files.next)).mpr h.allocated
  holds id halpha hne := (h.holds id halpha hne).renumber m
  unblocked := h.unblocked

variable [DecidableEq P] (hplace : Path.Separates root place) {env : DiskEnv}
include hplace

/-- The file of a chunk can be opened. -/
theorem Keeps.opens (h : Keeps root place disk store) {id : Text} (halpha : Alphanumeric id)
    (hne : id ≠ []) :
    ∃ fs inode, openChunk place .none disk.files (chunkPath root id) =
        (fs, some ⟨place (chunkPath root id), inode, 0, [], false⟩) ∧
      disk.files.Created (place (chunkPath root id)) fs inode := by
  have hopens : (openChunk place .none disk.files (chunkPath root id)).2.isSome = true :=
    (openChunk_isSome_iff place (place_not_mem_ancestors hplace id id)).mpr
      ⟨rfl, rfl, h.unblocked id halpha hne⟩
  cases hopen : openChunk place .none disk.files (chunkPath root id) with
  | mk fs file =>
    rcases openChunk_cases place hopen with ⟨rfl, -⟩ | ⟨inode, rfl, hcreated⟩
    · rw [hopen] at hopens
      cases hopens
    · exact ⟨fs, inode, rfl, hcreated⟩

/-- A field that is a chunk is stored, and nothing else changes.  What is under way in its file has to
belong to it. -/
theorem Keeps.receivePart (hhealthy : IsHealthy env) (h : Keeps root place disk store) {part : Part}
    {id : Text} (hname : part.name = some id) (halpha : Alphanumeric id) (hne : id ≠ [])
    (htimely : disk.IsQuiet (place (chunkPath root id)) ∨ store id = some part.pieces.flatten)
    (i : Nat) :
    ∃ disk', Server.receivePart root place env i disk part false = (disk', .ok ()) ∧
      Keeps root place disk' (Function.update store id (some part.pieces.flatten)) ∧
      ∀ id', id' ≠ id → disk.IsQuiet (place (chunkPath root id')) →
        disk'.IsQuiet (place (chunkPath root id')) := by
  have hnames : ∀ name, part.name = some name → Alphanumeric name := by
    intro name hname'
    rw [hname, Option.some.injEq] at hname'
    exact hname' ▸ halpha
  have hother : ∀ id', id' ≠ id → part.name ≠ some id' := by
    intro id' hid
    rw [hname]
    exact fun heq ↦ hid (Option.some.inj heq).symm
  have hpath : (ChunkId.filePath root id : Outcome ChunkError _) = .ok (chunkPath root id) :=
    ChunkId.filePath_eq_below root halpha hne
  have hland := h.land (hhealthy.landsWhole_due i 0)
  obtain ⟨fs, inode, hopen, hcreated⟩ := hland.opens hplace halpha hne
  have hrun : Server.receivePart root place env i disk part false =
      (OpenFile.writePieces env i 0 ⟨place (chunkPath root id), inode, 0, [], false⟩
        ⟨fs, (disk.land (env.due · i 0)).late⟩ part.written, .ok ()) := by
    simp only [Server.receivePart, hname, if_neg hne, hpath, hhealthy.create i, hopen]
    rfl
  refine ⟨_, hrun, ⟨(receivePart_late root place hrun h.allocated).1, fun id' halpha' hne' ↦ ?_,
    fun id' halpha' hne' ↦ ?_⟩, fun id' hid hquiet ↦ ?_⟩
  · by_cases hid : id' = id
    · -- what is under way in the file when it is emptied belongs to the same content
      rw [hid, Function.update_self]
      refine OpenFile.holds_writePieces hhealthy hcreated.entry_self rfl ?_ ?_ ?_
      · intro e he
        obtain ⟨hmem, hinode⟩ := (Disk.mem_lateIn _).mp he
        have hinode : e.2.inode = inode := hinode
        rcases hcreated.inode with hentry | ⟨-, hnew⟩
        · rcases htimely with hquiet | hsame
          · exact absurd (hinode ▸ hentry) (hquiet.land.1 e hmem)
          · have hholds := hland.holds id halpha hne
            rw [hsame] at hholds
            exact hholds.pieces hentry e he
        · have hlt := hland.allocated e hmem
          omega
      · change Fills _ 0 (fs.data inode)
        rw [hcreated.data_self]
        exact Fills.start _
      · rw [List.drop_zero, List.nil_append, part.flatten_written]
    · rw [Function.update_of_ne hid]
      have hfile : part.file root place ≠ some (place (chunkPath root id')) :=
        file_ne_of_name hplace hnames (hother id' hid)
      have hkept : (Server.receivePart root place env i disk part false).1.Holds
          (place (chunkPath root id')) (store id') :=
        receivePart_preserves root place (I := (Disk.Holds · _ _))
          (fun _ j h ↦ h.land (hhealthy.landsWhole_due i j)) (fun _ _ helse h ↦ h.elsewhere helse)
          false hfile (h.holds id' halpha' hne')
      rwa [hrun] at hkept
  · have hiff := receivePart_isUnblocked_iff hplace env hnames i disk id' false
    rw [hrun] at hiff
    exact hiff.mpr (h.unblocked id' halpha' hne')
  · have hread := receivePart_read_apart hplace env hnames i disk (hother id' hid) hquiet false
    rw [hrun] at hread
    exact hread.1

end Chunks

end CooklangSync.Server
