import CooklangSync.Server.Uploads

/-!
# Placement — chunks do not get in each other's way

A chunk whose id is made of letters and digits lies at `c/d/id` in the upload directory, where `c`
and `d` are the first two characters of the id, or at `null/id` when it has only one.  No such path
is the beginning of another one, so that storing a chunk touches neither the files of the others
nor the directories they need.
-/

namespace CooklangSync.Server

open Theory

/-! ## 1. One chunk and another -/

section Store

variable {P : Type} [DecidableEq P] {root : Path Name} {place : Path Name → P}

/-- The chunk of an id that is admitted. -/
theorem ChunkId.filePath_of_fromParam {ε : Type} {param id : Text}
    (h : ChunkId.fromParam param = .ok id) (hne : id ≠ []) :
    (ChunkId.filePath root id : Outcome ε _) =
      .ok (root.below (ChunkId.shardOf id ++ [toUtf8 id])) := by
  obtain ⟨halnum, rfl⟩ := ChunkId.fromParam_eq_ok_iff.mp h
  exact ChunkId.filePath_eq_below root halnum hne

omit [DecidableEq P] in
/-- The place of a chunk is none of those above a chunk, be it the same or another. -/
theorem place_not_mem_ancestors (hplace : Path.Separates root place) (id id' : Text) :
    place (root.below (ChunkId.shardOf id ++ [toUtf8 id])) ∉
      (root.below (ChunkId.shardOf id' ++ [toUtf8 id'])).ancestors.map place := by
  intro hmem
  obtain ⟨dir, hdir, heq⟩ := List.mem_map.mp hmem
  refine hplace.place_ne (by simp) (fun hnames ↦ ?_) hdir heq
  -- the names of a chunk are longer than its shard
  have hid : id = id' := ChunkId.eq_of_names_prefix (hnames.trans (List.prefix_append _ _))
  have hlen := hnames.length_le
  rw [hid, List.length_append, List.length_singleton] at hlen
  omega

omit [DecidableEq P] in
theorem place_ne_of_ne (hplace : Path.Separates root place) {id id' : Text} (hne : id ≠ id') :
    place (root.below (ChunkId.shardOf id ++ [toUtf8 id])) ≠
      place (root.below (ChunkId.shardOf id' ++ [toUtf8 id'])) := by
  intro heq
  exact hne (ChunkId.eq_of_names_prefix (hplace.below _ _ heq ▸ List.prefix_rfl))

section Fields

variable (hplace : Path.Separates root place) (env : DiskEnv) {part : Part}
  (hnames : ∀ name, part.name = some name → Alphanumeric name)

include hnames in
/-- A field that names a chunk gives no name to anything but that chunk. -/
theorem receivePart_admitted (i : Nat) (disk : Disk P) (cut : Bool) :
    ((receivePart root place env i disk part cut).1.files.entry = disk.files.entry ∧
      (receivePart root place env i disk part cut).1.files.isDir = disk.files.isDir) ∨
      ∃ id, part.name = some id ∧ ChangesOnly place
        (root.below (ChunkId.shardOf id ++ [toUtf8 id])) disk.files
        (receivePart root place env i disk part cut).1.files := by
  refine (receivePart_frame root place env i disk part cut).imp_right ?_
  rintro ⟨name, path, hname, hne, hpath, hchanges⟩
  rw [ChunkId.filePath_eq_below root (hnames name hname) hne, Outcome.ok.injEq] at hpath
  exact ⟨name, hname, hpath ▸ hchanges⟩

include hplace hnames

omit [DecidableEq P] in
/-- A field has the file of its own chunk. -/
theorem file_ne_of_name {id : Text} (hne : part.name ≠ some id) :
    part.file root place ≠ some (place (root.below (ChunkId.shardOf id ++ [toUtf8 id]))) := by
  intro hfile
  obtain ⟨id', path, hname, hne', hpath, heq⟩ := Part.file_eq_some root place hfile
  rw [ChunkId.filePath_eq_below root (hnames id' hname) hne', Outcome.ok.injEq] at hpath
  rw [← hpath] at heq
  refine place_ne_of_ne hplace (fun heq' ↦ hne ?_) heq
  rw [hname, heq']

/-- Storing a chunk does not change another one, in whose file nothing is under way. -/
theorem receivePart_read_apart (i : Nat) (disk : Disk P) {id : Text} (hne : part.name ≠ some id)
    (hquiet : disk.IsQuiet (place (root.below (ChunkId.shardOf id ++ [toUtf8 id]))))
    (cut : Bool) :
    (receivePart root place env i disk part cut).1.IsQuiet
        (place (root.below (ChunkId.shardOf id ++ [toUtf8 id]))) ∧
      (receivePart root place env i disk part cut).1.files.read
          (place (root.below (ChunkId.shardOf id ++ [toUtf8 id]))) =
        disk.files.read (place (root.below (ChunkId.shardOf id ++ [toUtf8 id]))) := by
  exact receivePart_read_of_ne root place cut hquiet (file_ne_of_name hplace hnames hne)

/-- Storing a chunk puts nothing in the way of a chunk, the same or another. -/
theorem receivePart_isUnblocked_iff (i : Nat) (disk : Disk P) (id : Text) (cut : Bool) :
    IsUnblocked place (receivePart root place env i disk part cut).1.files
        (root.below (ChunkId.shardOf id ++ [toUtf8 id])) ↔
      IsUnblocked place disk.files (root.below (ChunkId.shardOf id ++ [toUtf8 id])) := by
  rcases receivePart_admitted env hnames i disk cut with ⟨hentry, hdir⟩ | ⟨id', -, hchanges⟩
  · rw [IsUnblocked, IsUnblocked, hentry, hdir]
  · rw [IsUnblocked, IsUnblocked, hchanges.isDir _ (place_not_mem_ancestors hplace id id')]
    refine and_congr_left fun _ ↦ forall₂_congr fun dir hdir ↦ ?_
    rw [hchanges.entry]
    intro heq
    exact place_not_mem_ancestors hplace id' id (List.mem_map.mpr ⟨dir, hdir, heq⟩)

end Fields

/-- An upload whose fields are named by such ids changes no other chunk, and decides about none
whether it can be stored. -/
theorem receiveParts_apart (hplace : Path.Separates root place) (env : DiskEnv) {parts : List Part}
    {ending : Ending} (hnames : ∀ part, part ∈ parts ∨ ending = .inContent part →
      ∀ name, part.name = some name → Alphanumeric name) (i : Nat) (disk : Disk P) (id : Text) :
    (IsUnblocked place (receiveParts root place env i disk parts ending).1.files
        (root.below (ChunkId.shardOf id ++ [toUtf8 id])) ↔
      IsUnblocked place disk.files (root.below (ChunkId.shardOf id ++ [toUtf8 id]))) ∧
    (disk.IsQuiet (place (root.below (ChunkId.shardOf id ++ [toUtf8 id]))) →
      (∀ part, part ∈ parts ∨ ending = .inContent part → part.name ≠ some id) →
      (receiveParts root place env i disk parts ending).1.files.read
          (place (root.below (ChunkId.shardOf id ++ [toUtf8 id]))) =
        disk.files.read (place (root.below (ChunkId.shardOf id ++ [toUtf8 id])))) := by
  constructor
  · refine receiveParts_preserves root place (I := fun disk₁ ↦ IsUnblocked place disk₁.files
      (root.below (ChunkId.shardOf id ++ [toUtf8 id])) ↔ _) ?_ ?_ Iff.rfl
    · intro part hpart i disk₁ cut hdisk₁
      exact (receivePart_isUnblocked_iff hplace env (hnames part hpart) i disk₁ id cut).trans hdisk₁
    · intro disk₁ hdisk₁
      rwa [IsUnblocked, Disk.entry_land, Disk.isDir_land]
  · intro hquiet hother
    refine (receiveParts_preserves root place
      (I := fun disk₁ ↦ disk₁.IsQuiet (place (root.below (ChunkId.shardOf id ++ [toUtf8 id]))) ∧
        disk₁.files.read (place (root.below (ChunkId.shardOf id ++ [toUtf8 id]))) = _)
      ?_ ?_ ⟨hquiet, rfl⟩).2
    · intro part hpart i disk₁ cut hdisk₁
      have hturn := receivePart_read_apart hplace env (hnames part hpart) i disk₁
        (hother part hpart) hdisk₁.1 cut
      exact ⟨hturn.1, hturn.2.trans hdisk₁.2⟩
    · intro disk₁ hdisk₁
      exact ⟨hdisk₁.1.land.1, hdisk₁.1.land.2.trans hdisk₁.2⟩

end Store

/-- The paths of two chunks with admitted ids differ, and neither is a directory above the other;
where they are places of their own, storing one of them neither changes the other, in whose file only
what was under way there before may land, nor decides whether it can be stored. -/
theorem filePath_apart {ε : Type} (root : Path Name) {param param' id id' : Text}
    (h : ChunkId.fromParam param = .ok id) (h' : ChunkId.fromParam param' = .ok id')
    (hne : id ≠ []) (hne' : id' ≠ []) (hdistinct : id ≠ id') :
    ∃ path path' : Path Name, (ChunkId.filePath root id : Outcome ε _) = .ok path ∧
      (ChunkId.filePath root id' : Outcome ε _) = .ok path' ∧
      path.sameComponents path' = false ∧ ¬ path.IsAbove path' ∧ ¬ path'.IsAbove path ∧
      ∀ (P : Type) [DecidableEq P] (place : Path Name → P), Path.Separates root place →
        ∀ (env : DiskEnv) (i : Nat) (disk : Disk P) (part : Part) (cut : Bool),
          part.name = some id' →
          (∃ steps, Disk.Elsewhere (place path) (landAt env i disk steps)
            (receivePart root place env i disk part cut).1) ∧
          (disk.IsQuiet (place path) →
            (receivePart root place env i disk part cut).1.files.read (place path) =
              disk.files.read (place path)) ∧
          ∀ faults,
            (openChunk place faults (receivePart root place env i disk part cut).1.files
                path).2.isSome =
              (openChunk place faults disk.files path).2.isSome := by
  refine ⟨_, _, ChunkId.filePath_of_fromParam h hne, ChunkId.filePath_of_fromParam h' hne', ?_,
    ?_, ?_, ?_⟩
  · rw [Path.sameComponents_below, decide_eq_false_iff_not]
    exact fun heq ↦ hdistinct (ChunkId.eq_of_names_prefix (heq ▸ List.prefix_rfl))
  · rw [Path.isAbove_below_iff]
    exact fun habove ↦ hdistinct (ChunkId.eq_of_names_prefix habove.1)
  · rw [Path.isAbove_below_iff]
    exact fun habove ↦ hdistinct (ChunkId.eq_of_names_prefix habove.1).symm
  · intro P _ place hplace env i disk part cut hname
    obtain ⟨hid', rfl⟩ := ChunkId.fromParam_eq_ok_iff.mp h'
    have hnames : ∀ name, part.name = some name → Alphanumeric name := by
      intro name heq
      rw [hname, Option.some.injEq] at heq
      exact heq ▸ hid'
    have hother : part.name ≠ some id := by
      rw [hname]
      exact fun heq ↦ hdistinct (Option.some.inj heq).symm
    have hself := place_not_mem_ancestors hplace id id
    refine ⟨receivePart_elsewhere root place cut (file_ne_of_name hplace hnames hother),
      fun hquiet ↦ (receivePart_read_apart hplace env hnames i disk hother hquiet cut).2,
      fun faults ↦ ?_⟩
    rw [Bool.eq_iff_iff, openChunk_isSome_iff place hself, openChunk_isSome_iff place hself,
      receivePart_isUnblocked_iff hplace env hnames i disk id cut]

/-- The chunk `n` is at `null/n` and the chunk `null` at `n/u/null`: each has the name of the
other's first directory. -/
theorem filePath_apart_null :
    ∃ path path' : Path Name,
      (ChunkId.filePath uploadDir "n".toList : Outcome Unit _) = .ok path ∧
      (ChunkId.filePath uploadDir "null".toList : Outcome Unit _) = .ok path' ∧
      path.sameComponents path' = false ∧ ¬ path.IsAbove path' ∧ ¬ path'.IsAbove path ∧
      ((receivePart uploadDir (·.placeFrom []) soundDisk 0 ⟨.empty, []⟩
        ⟨some "null".toList, [[120]]⟩ false).1.files.read (path.placeFrom [])) = none ∧
      (openChunk (·.placeFrom []) .none (receivePart uploadDir (·.placeFrom []) soundDisk 0
        ⟨.empty, []⟩ ⟨some "null".toList, [[120]]⟩ false).1.files path).2.isSome = true := by
  obtain ⟨path, path', hpath, hpath', hne, hnot, hnot', hstore⟩ :=
    @filePath_apart Unit uploadDir "n".toList "null".toList "n".toList "null".toList
      (by decide) (by decide) (by decide) (by decide) (by decide)
  have hplace : Path.Separates uploadDir (·.placeFrom []) :=
    Path.separates_placeFrom [] (show uploadDir.comps = [toUtf8 "upload".toList].map .normal by
      decide)
  obtain ⟨-, hread, hopen⟩ := hstore (Place Name) (·.placeFrom []) hplace soundDisk 0 ⟨.empty, []⟩
    ⟨some "null".toList, [[120]]⟩ false rfl
  refine ⟨path, path', hpath, hpath', hne, hnot, hnot',
    hread fun _ he ↦ absurd he List.not_mem_nil, (hopen .none).trans ?_⟩
  have hdef : (ChunkId.filePath uploadDir "n".toList : Outcome Unit _) =
      .ok (uploadDir.below [toUtf8 "null".toList, toUtf8 "n".toList]) := by decide
  rw [hdef, Outcome.ok.injEq] at hpath
  rw [← hpath]
  decide

end CooklangSync.Server
