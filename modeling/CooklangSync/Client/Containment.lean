import CooklangSync.Client.Cursor
import CooklangSync.Theory.Lexical

/-!
# Containment — listed paths and the storage directory

The chunker pushes a listed path on its base path and hands the result to the file system as it is.
A path that replaces the base path, or leads above it with `..`, takes the whole call outside; the
walk that cleans up after a deletion stops at the base path only where it meets that spelling.
-/

namespace CooklangSync.Client

open Theory

/-! ## 1. Contained paths -/

/-- Every name on the way leads to a place strictly below `base`. -/
def StaysBelow (base : Place Name) : Place Name → List (Comp Name) → Prop
  | _, [] => True
  | k, .parent :: cs => StaysBelow base k.tail cs
  | k, .normal n :: cs => Below base (n :: k) ∧ StaysBelow base (n :: k) cs

def StaysBelow.decidable (base : Place Name) :
    (k : Place Name) → (cs : List (Comp Name)) → Decidable (StaysBelow base k cs)
  | _, [] => .isTrue trivial
  | k, .parent :: cs => StaysBelow.decidable base k.tail cs
  | k, .normal n :: cs =>
    have : Decidable (StaysBelow base (n :: k) cs) := StaysBelow.decidable base (n :: k) cs
    inferInstanceAs (Decidable (Below base (n :: k) ∧ StaysBelow base (n :: k) cs))

instance (base k : Place Name) (cs : List (Comp Name)) : Decidable (StaysBelow base k cs) :=
  StaysBelow.decidable base k cs

def basePlace (basePath : Path Name) : Place Name := follow [] basePath.comps

/-- Pushed on the base path, the path begins with it and never leads out of it again. -/
def IsContained (basePath : Path Name) (path : Text) : Prop :=
  let full := basePath.push (parsePath path)
  full.absolute = basePath.absolute ∧ basePath.comps <+: full.comps ∧
    StaysBelow (basePlace basePath) (basePlace basePath) (full.comps.drop basePath.comps.length)

instance (basePath : Path Name) (path : Text) : Decidable (IsContained basePath path) :=
  inferInstanceAs (Decidable (_ ∧ _ ∧ _))

theorem StaysBelow.of_prefix {base k : Place Name} {cs init : List (Comp Name)} {n : Name}
    (h : StaysBelow base k cs) (hinit : init ++ [.normal n] <+: cs) :
    Below base (follow k (init ++ [.normal n])) := by
  induction init generalizing k cs with
  | nil =>
    obtain ⟨rest, rfl⟩ := hinit
    exact h.1
  | cons c init ih =>
    obtain ⟨rest, rfl⟩ := hinit
    cases c with
    | parent => exact ih h ⟨rest, rfl⟩
    | normal m => exact ih h.2 ⟨rest, rfl⟩

theorem StaysBelow.left {base k : Place Name} {cs ds : List (Comp Name)}
    (h : StaysBelow base k (cs ++ ds)) : StaysBelow base k cs := by
  induction cs generalizing k with
  | nil => trivial
  | cons c cs ih =>
    cases c with
    | parent => exact ih h
    | normal n => exact ⟨h.1, ih h.2⟩

/-- A relative path of names is contained, whatever the base path is. -/
theorem isContained_of_plain (basePath : Path Name) {path : Text} {names : List Name}
    (h : PlainPath path names) : IsContained basePath path := by
  have hpush : basePath.push (parsePath path) =
      { absolute := basePath.absolute
        comps := basePath.comps ++ names.map .normal
        trailing := false } := by
    rw [PlainPath] at h
    rw [h]
    rfl
  have hstays : ∀ k, basePlace basePath <:+ k →
      StaysBelow (basePlace basePath) k (names.map .normal) := by
    clear h hpush
    induction names with
    | nil => exact fun _ _ ↦ trivial
    | cons n names ih =>
      intro k hk
      have hcons := hk.trans (List.suffix_cons n k)
      refine ⟨⟨hcons, fun heq ↦ ?_⟩, ih (n :: k) hcons⟩
      have hlen := hk.length_le
      rw [← heq, List.length_cons] at hlen
      omega
  rw [IsContained, hpush]
  refine ⟨rfl, List.prefix_append _ _, ?_⟩
  rw [List.drop_left]
  exact hstays _ List.suffix_rfl

/-! ## 2. Changes below the base -/

/-- Nothing has changed at the base or outside it. -/
def ChangedBelow (base : Place Name) (disk disk' : Disk) : Prop :=
  ∀ k, ¬ Below base k → disk'.lookup k = disk.lookup k

theorem ChangedBelow.refl (base : Place Name) (disk : Disk) : ChangedBelow base disk disk :=
  fun _ _ ↦ rfl

theorem ChangedBelow.trans {base : Place Name} {d₁ d₂ d₃ : Disk} (h₁ : ChangedBelow base d₁ d₂)
    (h₂ : ChangedBelow base d₂ d₃) : ChangedBelow base d₁ d₃ :=
  fun k hk ↦ (h₂ k hk).trans (h₁ k hk)

theorem changedBelow_of_sameElsewhere {base k : Place Name} {disk disk' : Disk}
    (h : FileTree.SameElsewhere k disk disk') (hk : Below base k) : ChangedBelow base disk disk' :=
  fun s hs ↦ h s fun heq ↦ hs (heq ▸ hk)

/-- The names on a path lead below the base, or to directories. -/
def WayBelow (base : Place Name) (disk : Disk) (cs : List (Comp Name)) : Prop :=
  ∀ init n, init ++ [.normal n] <+: cs →
    Below base (follow [] (init ++ [.normal n])) ∨
      disk.lookup (follow [] (init ++ [.normal n])) = some .dir

theorem WayBelow.of_prefix {base : Place Name} {disk : Disk} {cs ds : List (Comp Name)}
    (h : WayBelow base disk cs) (hds : ds <+: cs) : WayBelow base disk ds :=
  fun init n hinit ↦ h init n (hinit.trans hds)

theorem WayBelow.changed {base : Place Name} {disk disk' : Disk} {cs : List (Comp Name)}
    (h : WayBelow base disk cs) (hchanged : ChangedBelow base disk disk') :
    WayBelow base disk' cs := by
  intro init n hinit
  by_cases hbelow : Below base (follow [] (init ++ [.normal n]))
  · exact .inl hbelow
  · rw [hchanged _ hbelow]
    exact h init n hinit

/-- What holds of a disk from one record to the next: it has no links, and the way to the base path
is there. -/
structure Guarded (basePath : Path Name) (disk : Disk) : Prop where
  linkFree : disk.LinkFree
  way : WayBelow (basePlace basePath) disk basePath.comps
  root : disk.lookup (basePlace basePath) = some .dir

theorem Guarded.changed {basePath : Path Name} {disk disk' : Disk} (h : Guarded basePath disk)
    (hchanged : ChangedBelow (basePlace basePath) disk disk') (hlinks : disk'.LinkFree) :
    Guarded basePath disk' where
  linkFree := hlinks
  way := h.way.changed hchanged
  root := (hchanged _ (not_below_self _)).trans h.root

/-- A directory without links is guarded. -/
theorem guarded_of_isDir {basePath : Path Name} {disk : Disk} (hlinks : disk.LinkFree)
    (hdir : disk.isDir basePath = true) : Guarded basePath disk where
  linkFree := hlinks
  way init n hinit := by
    obtain ⟨rest, hrest⟩ := hinit
    exact .inr (FileTree.lookup_follow_of_isDir hlinks hdir hrest.symm)
  root := FileTree.lookup_follow_of_isDir hlinks hdir (List.append_nil _).symm

theorem Guarded.way_push {basePath : Path Name} {disk : Disk} (h : Guarded basePath disk)
    {path : Text} (hpath : IsContained basePath path) :
    WayBelow (basePlace basePath) disk (basePath.push (parsePath path)).comps := by
  obtain ⟨-, ⟨rest, hrest⟩, hstays⟩ := hpath
  rw [← hrest, List.drop_left] at hstays
  intro init n hinit
  rw [← hrest] at hinit
  rcases List.prefix_or_prefix_of_prefix hinit (List.prefix_append basePath.comps rest) with
    hbase | hbeyond
  · exact h.way init n hbase
  · by_cases hall : init ++ [.normal n] = basePath.comps
    · exact h.way init n (hall ▸ List.prefix_refl _)
    · -- the name lies beyond the base path
      have hshort : basePath.comps <+: init := by
        refine (List.prefix_concat_iff.mp hbeyond).resolve_left fun heq ↦ hall heq.symm
      obtain ⟨pre, rfl⟩ := hshort
      rw [List.append_assoc, List.prefix_append_right_inj] at hinit
      rw [List.append_assoc, follow_append]
      exact .inl (hstays.of_prefix hinit)

/-! ## 3. The operations -/

namespace Chunker

variable {c : Chunker} {disk : Disk}

theorem createDirs_changedBelow {base : Place Name} {absolute : Bool} {done cs : List (Comp Name)}
    (hlinks : disk.LinkFree) (hway : WayBelow base disk (done ++ cs)) :
    ChangedBelow base disk (disk.createDirs absolute done cs).1 ∧
      (disk.createDirs absolute done cs).1.LinkFree := by
  induction cs generalizing disk done with
  | nil => exact ⟨ChangedBelow.refl base disk, hlinks⟩
  | cons c cs ih =>
    rw [FileTree.createDirs]
    cases he : disk.ensureDir { absolute := absolute, comps := done ++ [c], trailing := false } with
    | none => exact ⟨ChangedBelow.refl base disk, hlinks⟩
    | some disk' =>
      have happ : done ++ [c] ++ cs = done ++ c :: cs := by simp
      have hone : ChangedBelow base disk disk' ∧ disk'.LinkFree := by
        rw [FileTree.ensureDir] at he
        split at he
        · cases he
          exact ⟨ChangedBelow.refl base disk, hlinks⟩
        · obtain ⟨hsame, hlinks', hnone, init, n, hcomps⟩ := FileTree.mkdir_linkFree hlinks he
          refine ⟨changedBelow_of_sameElsewhere hsame ?_, hlinks'⟩
          have hcomps : done ++ [c] = init ++ [.normal n] := hcomps
          have hplace := hway init n (by rw [← hcomps, ← happ]; exact List.prefix_append _ _)
          rw [← hcomps] at hplace
          refine hplace.resolve_right fun hdir ↦ ?_
          rw [hnone] at hdir
          cases hdir
      have hrec := ih hone.2 (by rw [happ]; exact hway.changed hone.1)
      exact ⟨hone.1.trans hrec.1, hrec.2⟩

theorem createParents_changedBelow {base : Place Name} (hlinks : disk.LinkFree) (env : SaveEnv)
    {path : Text} (hway : WayBelow base disk (c.fullPath path).comps) :
    ChangedBelow base disk (c.createParents disk env path).1 ∧
      (c.createParents disk env path).1.LinkFree := by
  unfold createParents
  cases hparent : (c.fullPath path).parent with
  | none => exact ⟨ChangedBelow.refl base disk, hlinks⟩
  | some parent =>
    have hcomps : parent.comps <+: (c.fullPath path).comps := by
      rw [Path.parent] at hparent
      split at hparent
      · cases hparent
      · cases hparent
        exact List.dropLast_prefix _
    have hdirs : ∀ cs, cs <+: parent.comps →
        ChangedBelow base disk (disk.createDirs parent.absolute [] cs).1 ∧
          (disk.createDirs parent.absolute [] cs).1.LinkFree :=
      fun cs hcs ↦ createDirs_changedBelow hlinks (hway.of_prefix (hcs.trans hcomps))
    simp only
    split
    · exact hdirs _ (List.take_prefix _ _)
    · exact hdirs _ (List.prefix_refl _)

/-- Whatever comes of a save, what it changes lies below the base. -/
theorem save_changedBelow {base : Place Name} (hlinks : disk.LinkFree) (env : SaveEnv)
    {path : Text} (hashes : List Text) (hway : WayBelow base disk (c.fullPath path).comps) :
    ChangedBelow base disk (c.save disk env path hashes).2 ∧
      (c.save disk env path hashes).2.LinkFree := by
  have hmade := createParents_changedBelow hlinks env hway
  have hput : ∀ n k data,
      (c.createParents disk env path).1.creatable (c.fullPath path) = some (n, k) →
      ChangedBelow base disk ((c.createParents disk env path).1.put n k (.file data)) ∧
        ((c.createParents disk env path).1.put n k (.file data)).LinkFree := by
    intro n k data hcreatable
    obtain ⟨hplace, init, m, hcomps⟩ := FileTree.creatable_linkFree hmade.2 hcreatable
    have hbelow := (hway.changed hmade.1) init m (hcomps ▸ List.prefix_refl _)
    rw [← hcomps, ← hplace] at hbelow
    have hbelow := hbelow.resolve_right (FileTree.creatable_not_dir hcreatable)
    refine ⟨hmade.1.trans (changedBelow_of_sameElsewhere ?_ hbelow), hmade.2.put n k (by simp)⟩
    exact fun s hs ↦ FileTree.lookup_put_of_ne _ n k _ hs
  rw [save, openForSave]
  by_cases hopen : (c.createParents disk env path).2 = true ∧ env.fault ≠ some .create
  · simp only [if_pos hopen]
    cases hcreatable : (c.createParents disk env path).1.creatable (c.fullPath path) with
    | none => exact hmade
    | some place =>
      obtain ⟨n, k⟩ := place
      simp only
      split <;> exact hput n k _ hcreatable
  · simp only [if_neg hopen]
    exact hmade

/-- The walk upwards from a directory beyond the base path stops at the base path. -/
theorem removeEmptyDirs_changedBelow (env : DeleteEnv) (i : Nat) (hlinks : disk.LinkFree)
    {beyond : List (Comp Name)}
    (hbeyond : StaysBelow (basePlace c.basePath) (basePlace c.basePath) beyond.reverse) :
    ChangedBelow (basePlace c.basePath) disk (c.removeEmptyDirs env c.basePath.absolute i disk
        (beyond ++ c.basePath.comps.reverse)) ∧
      (c.removeEmptyDirs env c.basePath.absolute i disk
        (beyond ++ c.basePath.comps.reverse)).LinkFree := by
  induction beyond generalizing i disk with
  | nil =>
    cases hbase : c.basePath.comps.reverse with
    | nil => exact ⟨ChangedBelow.refl _ disk, hlinks⟩
    | cons comp comps =>
      have hstop : Path.sameComponents
          { absolute := c.basePath.absolute, comps := (comp :: comps).reverse, trailing := false }
          c.basePath = true := by
        rw [← hbase, List.reverse_reverse, Path.sameComponents]
        simp
      rw [List.nil_append, removeEmptyDirs, if_pos hstop]
      exact ⟨ChangedBelow.refl _ disk, hlinks⟩
  | cons comp beyond ih =>
    have hcomps : (comp :: (beyond ++ c.basePath.comps.reverse)).reverse =
        c.basePath.comps ++ (beyond.reverse ++ [comp]) := by simp
    rw [List.reverse_cons] at hbeyond
    rw [List.cons_append, removeEmptyDirs, hcomps]
    split
    · exact ⟨ChangedBelow.refl _ disk, hlinks⟩
    · split
      · exact ⟨ChangedBelow.refl _ disk, hlinks⟩
      · cases hremove : disk.removeDir { absolute := c.basePath.absolute
                                         comps := c.basePath.comps ++ (beyond.reverse ++ [comp])
                                         trailing := false } with
        | none => exact ⟨ChangedBelow.refl _ disk, hlinks⟩
        | some disk' =>
          obtain ⟨hsame, hlinks', init, n, hlast⟩ := FileTree.removeDir_linkFree hlinks hremove
          -- only a name is removed, and it lies below the base
          have hname : comp = .normal n := by
            have hlast : c.basePath.comps ++ (beyond.reverse ++ [comp]) = init ++ [.normal n] := hlast
            rw [← List.append_assoc] at hlast
            exact List.singleton_inj.mp (List.append_inj_right' hlast rfl)
          have hbelow : Below (basePlace c.basePath)
              (follow [] (c.basePath.comps ++ (beyond.reverse ++ [comp]))) := by
            rw [follow_append, hname]
            rw [hname] at hbeyond
            exact hbeyond.of_prefix (List.prefix_refl _)
          have hone := changedBelow_of_sameElsewhere hsame hbelow
          have hrec := ih (i + 1) hlinks' hbeyond.left
          exact ⟨hone.trans hrec.1, hrec.2⟩

theorem delete_changedBelow (hguard : Guarded c.basePath disk) (env : DeleteEnv) {path : Text}
    (hpath : IsContained c.basePath path) :
    ChangedBelow (basePlace c.basePath) disk (c.delete disk env path).2 ∧
      (c.delete disk env path).2.LinkFree := by
  have hway := hguard.way_push hpath
  obtain ⟨habsolute, ⟨rest, hrest⟩, hstays⟩ := hpath
  rw [delete]
  cases hremove : (if env.removeFileFails = true then none
      else disk.removeFile (c.fullPath path)) with
  | none => exact ⟨ChangedBelow.refl _ disk, hguard.linkFree⟩
  | some disk' =>
    have hremove : disk.removeFile (c.fullPath path) = some disk' := by
      split at hremove
      · cases hremove
      · exact hremove
    obtain ⟨hsame, hlinks, hnotdir, init, n, hcomps⟩ :=
      FileTree.removeFile_linkFree hguard.linkFree hremove
    have hbelow : Below (basePlace c.basePath) (follow [] (c.fullPath path).comps) := by
      have hplace := hway init n (by rw [← hcomps]; exact List.prefix_refl _)
      rw [← hcomps] at hplace
      exact hplace.resolve_right hnotdir
    have hone := changedBelow_of_sameElsewhere hsame hbelow
    rw [← hrest, List.drop_left] at hstays
    rcases List.eq_nil_or_concat' rest with hnil | ⟨before, last, hlast⟩
    · -- the base path itself is a directory
      rw [hnil, List.append_nil] at hrest
      have hfull : (c.fullPath path).comps = c.basePath.comps := hrest.symm
      rw [hfull] at hnotdir
      exact absurd hguard.root hnotdir
    · have habove : (c.fullPath path).comps.reverse.tail =
          before.reverse ++ c.basePath.comps.reverse := by
        have hfull : (c.fullPath path).comps = c.basePath.comps ++ rest := hrest.symm
        rw [hfull, hlast]
        simp
      have hbefore : StaysBelow (basePlace c.basePath) (basePlace c.basePath)
          before.reverse.reverse := by
        rw [hlast] at hstays
        rw [List.reverse_reverse]
        exact hstays.left
      have hclean := removeEmptyDirs_changedBelow env 0 hlinks hbefore
      have habs : (c.fullPath path).absolute = c.basePath.absolute := habsolute
      simp only [habs, habove]
      exact ⟨hone.trans hclean.1, hclean.2⟩

end Chunker

/-! ## 4. The download pass -/

namespace Syncer

variable {s : ClientState}

theorem applyRecord_changedBelow (env : RecordEnv) (namespaceId : Int) {d : ResponseFileRecord}
    (hguard : Guarded s.chunker.basePath s.disk)
    (hpath : IsContained s.chunker.basePath d.path) :
    (applyRecord env namespaceId s d).1.chunker = s.chunker ∧
      ChangedBelow (basePlace s.chunker.basePath) s.disk (applyRecord env namespaceId s d).1.disk ∧
      (applyRecord env namespaceId s d).1.disk.LinkFree := by
  have hsame : ChangedBelow (basePlace s.chunker.basePath) s.disk s.disk ∧ s.disk.LinkFree :=
    ⟨ChangedBelow.refl _ _, hguard.linkFree⟩
  have hdelete := Chunker.delete_changedBelow hguard env.delete hpath
  have hsave := Chunker.save_changedBelow hguard.linkFree env.save (chunksOf d)
    (hguard.way_push hpath)
  rw [applyRecord]
  by_cases hdel : d.deleted = true
  · rw [if_pos hdel]
    split
    · exact ⟨rfl, hsame⟩
    · simp only
      split
      · exact ⟨rfl, hdelete⟩
      · exact ⟨rfl, hsame⟩
  · rw [if_neg hdel]
    revert hsave
    cases s.chunker.save s.disk env.save d.path (chunksOf d) with
    | mk outcome disk =>
      intro hsave
      cases outcome with
      | err e => exact ⟨rfl, hsave⟩
      | panic => exact ⟨rfl, hsave⟩
      | ok u =>
        simp only
        split
        · split <;> exact ⟨rfl, hsave⟩
        · exact ⟨rfl, hsave⟩
        · exact ⟨rfl, hsave⟩

theorem applyRecords_changedBelow (env : Nat → RecordEnv) (namespaceId : Int) (i : Nat)
    {ds : List ResponseFileRecord} (hguard : Guarded s.chunker.basePath s.disk)
    (hpaths : ∀ d ∈ ds, IsContained s.chunker.basePath d.path) :
    ChangedBelow (basePlace s.chunker.basePath) s.disk
      (applyRecords env namespaceId i s ds).1.disk := by
  induction ds generalizing i s with
  | nil => exact ChangedBelow.refl _ _
  | cons d ds ih =>
    have hone := applyRecord_changedBelow (env i) namespaceId hguard (hpaths d List.mem_cons_self)
    rw [applyRecords]
    revert hone
    cases applyRecord (env i) namespaceId s d with
    | mk s₁ outcome =>
      rintro ⟨hchunker, hchanged, hlinks⟩
      cases outcome with
      | err e => exact hchanged
      | panic => exact hchanged
      | ok u =>
        have hchunker : s₁.chunker = s.chunker := hchunker
        have hrec := ih (s := s₁) (i + 1) (hchunker ▸ hguard.changed hchanged hlinks)
          fun e he ↦ hchunker ▸ hpaths e (List.mem_cons_of_mem d he)
        rw [hchunker] at hrec
        exact hchanged.trans hrec

/-- Whatever comes of a pass over contained paths, it changes nothing but places strictly below the
storage directory. -/
theorem checkDownloadOnce_changedBelow (sha256 : Bytes → Text) (env : DownloadEnv)
    {list : Int → Outcome SyncError (List ResponseFileRecord)} (namespaceId : Int)
    {ds : List ResponseFileRecord} (hlist : list (latestLocal env s namespaceId) = .ok ds)
    (hguard : Guarded s.chunker.basePath s.disk)
    (hpaths : ∀ d ∈ ds, IsContained s.chunker.basePath d.path) :
    ChangedBelow (basePlace s.chunker.basePath) s.disk
      (checkDownloadOnce sha256 env list namespaceId s).1.disk := by
  have hbase := basePath_fetchChunks sha256 env s.chunker s.disk ds
  simp only [checkDownloadOnce, hlist]
  revert hbase
  cases fetchChunks sha256 env s.chunker s.disk ds with
  | mk c outcome =>
    intro hbase
    have hbase : c.basePath = s.chunker.basePath := hbase
    cases outcome with
    | err e => exact ChangedBelow.refl _ _
    | panic => exact ChangedBelow.refl _ _
    | ok u =>
      rw [← hbase] at hguard hpaths
      have hloop := applyRecords_changedBelow (s := { s with chunker := c }) env.records namespaceId
        0 hguard hpaths
      rw [hbase] at hloop
      cases hrecords : applyRecords env.records namespaceId 0 { s with chunker := c } ds with
      | mk s' outcome =>
        rw [hrecords] at hloop
        simp only [hrecords]
        cases outcome <;> exact hloop

end Syncer

end CooklangSync.Client
