import CooklangSync.Client.Storage
import CooklangSync.Theory.Subtree

/-!
# Deletion — the file that is deleted, and the directories it leaves empty

`Chunker::delete` removes a file and then goes up from its parent, as far as the directories are
empty, to the base path.  What it removes is the file and exactly the chain of directories that held
nothing else.
-/

namespace CooklangSync.Client

open Theory

namespace Chunker

variable {c : Chunker} {base : Place Name}

/-! ## 1. Going up -/

/-- The base path itself is not removed. -/
theorem removeEmptyDirs_basePath (env : DeleteEnv) (i : Nat) (disk : Disk) :
    c.removeEmptyDirs env c.basePath.absolute i disk c.basePath.comps.reverse = disk := by
  cases hcomps : c.basePath.comps.reverse with
  | nil => rfl
  | cons comp comps =>
    rw [removeEmptyDirs, ← hcomps, List.reverse_reverse]
    exact if_pos (by simp [Path.sameComponents])

/-- One step up: a directory strictly below the base path is removed when it is empty. -/
theorem removeEmptyDirs_step {disk : Disk} (hbase : FileTree.LeadsTo disk c.basePath base)
    {env : DeleteEnv} (hdirs : ∀ i, env.removeDirFails i = false) (i : Nat) {n : Name}
    {k : List Name} (hdir : disk.lookup (n :: (k ++ base)) = some .dir) :
    c.removeEmptyDirs env c.basePath.absolute i disk
        ((n :: k).map .normal ++ c.basePath.comps.reverse) =
      if disk.hasChildren (n :: (k ++ base)) then disk
      else c.removeEmptyDirs env c.basePath.absolute (i + 1) (disk.remove (n :: (k ++ base)))
        (k.map .normal ++ c.basePath.comps.reverse) := by
  have hcomps : (((n :: k).map .normal : List (Comp Name)) ++ c.basePath.comps.reverse).reverse =
      c.basePath.comps ++ (n :: k).reverse.map .normal := by
    simp
  have hbelow : c.basePath.comps ++ (n :: k).reverse.map .normal ≠ c.basePath.comps := by
    simp
  have hresolve := hbase.resolve_names false (n :: k).reverse (by simp)
    (by rw [List.reverse_reverse]; exact hdir) (by simp)
    { absolute := c.basePath.absolute
      comps := c.basePath.comps ++ (n :: k).reverse.map .normal
      trailing := false } rfl
  rw [List.reverse_reverse] at hresolve
  rw [List.map_cons, List.cons_append, removeEmptyDirs, ← List.cons_append, ← List.map_cons, hcomps,
    if_neg (by simp [Path.sameComponents]), if_neg (by simp [hdirs]), FileTree.removeDir, hresolve]
  simp only [List.cons_append]
  by_cases hchildren : disk.hasChildren (n :: (k ++ base)) = true
  · rw [if_neg (by simp [hchildren]), if_pos hchildren]
  · rw [if_pos ⟨(disk.isDirAt_iff _).mpr hdir, by simp, by simpa using hchildren⟩,
      if_neg hchildren]

/-- From the parent of a removed entry up, the directories that it empties are removed, and no
other entry. -/
theorem lookup_removeEmptyDirs {env : DeleteEnv} (hdirs : ∀ i, env.removeDirFails i = false)
    {disk : Disk} (hbase : FileTree.LeadsTo disk c.basePath base) (i : Nat) {n : Name}
    {k : List Name} (hentry : (disk.lookup (n :: (k ++ base))).isSome)
    (hleaf : disk.hasChildren (n :: (k ++ base)) = false) (s : Place Name) :
    let removed := c.removeEmptyDirs env c.basePath.absolute i (disk.remove (n :: (k ++ base)))
      (k.map .normal ++ c.basePath.comps.reverse)
    (FileTree.IsEmptied disk base (n :: (k ++ base)) s → removed.lookup s = none) ∧
      (¬ FileTree.IsEmptied disk base (n :: (k ++ base)) s →
        removed.lookup s = (disk.remove (n :: (k ++ base))).lookup s) := by
  induction k generalizing i n disk with
  | nil =>
    dsimp only
    rw [List.map_nil, List.nil_append, List.nil_append, removeEmptyDirs_basePath]
    exact ⟨fun h ↦ absurd h (disk.not_isEmptied_of_parent base n s), fun _ ↦ rfl⟩
  | cons m k ih =>
    have hk : base <:+ k ++ base := List.suffix_append k base
    have hremoved := hbase.remove (FileTree.isBelow_cons n (hk.trans (List.suffix_cons m _)))
    have hparent : (disk.remove (n :: m :: (k ++ base))).lookup (m :: (k ++ base)) = some .dir := by
      rw [disk.lookup_remove_of_ne _ (by simp)]
      exact disk.lookup_parent hentry
    dsimp only
    rw [List.cons_append, removeEmptyDirs_step hremoved hdirs i hparent,
      disk.isEmptied_cons_iff hk hleaf]
    by_cases hchildren : (disk.remove (n :: m :: (k ++ base))).hasChildren (m :: (k ++ base)) = true
    · rw [if_pos hchildren]
      simp [hchildren]
    · rw [if_neg hchildren]
      rw [Bool.not_eq_true] at hchildren
      have hrest := ih hremoved (i + 1) (by rw [hparent]; rfl) hchildren
      have hself := FileTree.lookup_remove_self _ (List.cons_ne_nil m (k ++ base)) hchildren
      by_cases hs : s = m :: (k ++ base)
      · -- the parent itself is gone, and stays so
        refine ⟨fun _ ↦ ?_, fun hnot ↦ absurd ⟨hchildren, .inl hs⟩ hnot⟩
        by_cases hup : FileTree.IsEmptied (disk.remove (n :: m :: (k ++ base))) base
            (m :: (k ++ base)) s
        · exact hrest.1 hup
        · rw [hrest.2 hup, hs, hself]
      · constructor
        · rintro ⟨-, hself | hup⟩
          · exact absurd hself hs
          · exact hrest.1 hup
        · intro hnot
          rw [hrest.2 fun hup ↦ hnot ⟨hchildren, .inr hup⟩, FileTree.lookup_remove_of_ne _ _ hs]

/-! ## 2. The deletion of a file -/

/-- A file below the base path is deleted with the directories it leaves empty, and no other entry
changes; a file that cannot be removed stays, with all the others. -/
theorem delete_lookup {disk : Disk} (hbase : FileTree.LeadsTo disk c.basePath base) {path : Text}
    {names : List Name} (hplain : PlainPath path names)
    (hfile : (disk.fileAt (names.reverse ++ base)).isSome = true) (env : DeleteEnv)
    (hdirs : ∀ i, env.removeDirFails i = false) :
    if env.removeFileFails then ∃ e, c.delete disk env path = (.err e, disk)
    else
      ∃ disk', c.delete disk env path = (.ok (), disk') ∧
        (∀ s, s = names.reverse ++ base ∨
          FileTree.IsEmptied disk base (names.reverse ++ base) s → disk'.lookup s = none) ∧
        ∀ s, ¬ (s = names.reverse ++ base ∨
          FileTree.IsEmptied disk base (names.reverse ++ base) s) →
          disk'.lookup s = disk.lookup s := by
  obtain ⟨data, hdata⟩ := Option.isSome_iff_exists.mp hfile
  have hlookup := (disk.fileAt_eq_some_iff _ _).mp hdata
  have hne : names ≠ [] := by
    rintro rfl
    rw [List.reverse_nil, List.nil_append, hbase.isDir] at hlookup
    cases hlookup
  obtain ⟨n, k, hrev⟩ := List.exists_cons_of_ne_nil (List.reverse_ne_nil_iff.mpr hne)
  have hfull : c.fullPath path =
      ⟨c.basePath.absolute, c.basePath.comps ++ names.map .normal, false⟩ := by
    rw [fullPath, Path.push, hplain]
    rfl
  have hresolve := hbase.resolve_names false names hne hlookup (by simp) _
    (congrArg Path.comps hfull)
  have htail : (c.basePath.comps ++ names.map Comp.normal).reverse.tail =
      k.map .normal ++ c.basePath.comps.reverse := by
    rw [List.reverse_append, ← List.map_reverse, hrev]
    rfl
  have hleaf := disk.hasChildren_of_not_dir (k := names.reverse ++ base) (by rw [hlookup]; simp)
  rw [hrev, List.cons_append] at hlookup hleaf hresolve ⊢
  have hremove : disk.removeFile (c.fullPath path) = some (disk.remove (n :: (k ++ base))) := by
    rw [FileTree.removeFile, hresolve, if_neg (by rw [hfull]; exact Bool.false_ne_true)]
    exact if_neg (by simp [FileTree.isDirAt, hlookup])
  rw [delete]
  by_cases hfails : env.removeFileFails = true
  · rw [if_pos hfails, if_pos hfails]
    exact ⟨_, rfl⟩
  · rw [if_neg hfails, if_neg hfails, hremove]
    simp only [hfull, htail]
    have hup := lookup_removeEmptyDirs hdirs hbase 0 (by rw [hlookup]; rfl) hleaf
    have hself := disk.lookup_remove_self (List.cons_ne_nil n (k ++ base)) hleaf
    refine ⟨_, rfl, ?_, ?_⟩
    · rintro s (rfl | hemptied)
      · rw [(hup _).2 fun h ↦ h.above.2 rfl, hself]
      · exact (hup s).1 hemptied
    · intro s hs
      rw [not_or] at hs
      rw [(hup s).2 hs.2, disk.lookup_remove_of_ne _ hs.1]

-- An example: the only recipe of a folder in the storage directory `/s`.
def folderDisk : Disk :=
  ((FileTree.root.put [115] [] .dir).put [97] [[115]] .dir).put (toUtf8 "x.cook".toList)
    [[97], [115]] (.file ⟨[], ⟨0, 0⟩⟩)

def storageChunker : Chunker := ⟨⟨fun _ ↦ none, 0, fun _ _ ↦ false⟩, parsePath "/s".toList⟩

def recipePlace : Place Name := [toUtf8 "x.cook".toList, [97], [115]]

theorem delete_lookup_folder :
    ∃ disk', storageChunker.delete folderDisk ⟨false, fun _ ↦ false⟩ "a/x.cook".toList =
        (.ok (), disk') ∧
      (∀ s, s = recipePlace ∨ FileTree.IsEmptied folderDisk [[115]] recipePlace s →
        disk'.lookup s = none) ∧
      ∀ s, ¬ (s = recipePlace ∨ FileTree.IsEmptied folderDisk [[115]] recipePlace s) →
        disk'.lookup s = folderDisk.lookup s := by
  have hbase : FileTree.LeadsTo folderDisk storageChunker.basePath [[115]] :=
    folderDisk.leadsTo_of_spells ⟨by decide, rfl⟩ (by rfl)
  have hplain : PlainPath "a/x.cook".toList [[97], toUtf8 "x.cook".toList] := by
    rw [PlainPath]
    decide
  exact delete_lookup hbase hplain (by decide) ⟨false, fun _ ↦ false⟩ fun _ ↦ rfl

end Chunker

end CooklangSync.Client
