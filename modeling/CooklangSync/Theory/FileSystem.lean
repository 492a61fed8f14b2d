import CooklangSync.Theory.FileTree
import Mathlib.Data.List.Infix

/-!
# FileSystem — the operations of a file system on paths

The operations are the system calls the modelled programs use, on a `FileTree`.  Each is given for
arbitrary paths; `Straight` places are the ones no symbolic link leads to, and for the path that
spells out such a place every operation is described by its effect on places.
-/

namespace CooklangSync.Theory

inductive Resolved (N : Type) where
  | found (k : Place N)
  | missing (n : N) (k : Place N)
  | failed
  deriving DecidableEq

namespace FileTree

variable {N F : Type} [DecidableEq N]

/-! ## 1. Resolution -/

-- `again` resolves the rest of the path once more, after a symbolic link.
def walkComps (t : FileTree N F) (again : Place N → List (Comp N) → Resolved N)
    (followLast : Bool) : Place N → List (Comp N) → Resolved N
  | k, [] => .found k
  | k, .parent :: cs =>
    if t.isDirAt k then walkComps t again followLast k.tail cs else .failed
  | k, .normal n :: cs =>
    if t.isDirAt k then
      match t.lookup (n :: k) with
      | none => if cs = [] then .missing n k else .failed
      | some (.symlink target) =>
        if cs = [] ∧ followLast = false then .found (n :: k)
        else again (if target.absolute then [] else k) (target.comps ++ cs)
      | some _ => walkComps t again followLast (n :: k) cs
    else .failed

/-- Resolution that follows at most `fuel` symbolic links. -/
def resolveFrom (t : FileTree N F) (followLast : Bool) :
    Nat → Place N → List (Comp N) → Resolved N
  | 0 => t.walkComps (fun _ _ ↦ .failed) followLast
  | fuel + 1 => t.walkComps (t.resolveFrom followLast fuel) followLast

def maxSymlinks : Nat := 40

/-- The place a path names.  The working directory is the root of the tree. -/
def resolve (t : FileTree N F) (followLast : Bool) (path : Path N) : Resolved N :=
  t.resolveFrom followLast maxSymlinks [] path.comps

/-! ## 2. Operations -/

/-- The node behind a path, symbolic links followed. -/
def stat (t : FileTree N F) (path : Path N) : Option (Place N × Node N F) :=
  match t.resolve true path with
  | .found k =>
    if path.trailing = true ∧ t.isDirAt k = false then none else (t.lookup k).map (k, ·)
  | _ => none

def pathExists (t : FileTree N F) (path : Path N) : Bool := (t.stat path).isSome

def isDir (t : FileTree N F) (path : Path N) : Bool :=
  match t.stat path with
  | some (_, .dir) => true
  | _ => false

/-- The contents of the regular file at a place. -/
def fileAt (t : FileTree N F) (k : Place N) : Option F :=
  match t.lookup k with
  | some (.file data) => some data
  | _ => none

/-- The contents of the regular file behind a path. -/
def readFile (t : FileTree N F) (path : Path N) : Option F :=
  match t.stat path with
  | some (_, .file data) => some data
  | _ => none

-- A symbolic link in the last place is an entry of its own here, so it is not followed.
def mkdir (t : FileTree N F) (path : Path N) : Option (FileTree N F) :=
  match t.resolve false path with
  | .missing n k => some (t.put n k .dir)
  | _ => none

def ensureDir (t : FileTree N F) (path : Path N) : Option (FileTree N F) :=
  if t.isDir path then some t else t.mkdir path

/-- Creates the missing directories of a path from the outermost on.  The ones created before a
failure stay. -/
def createDirs (t : FileTree N F) (absolute : Bool) :
    List (Comp N) → List (Comp N) → FileTree N F × Bool
  | _, [] => (t, true)
  | done, c :: cs =>
    match t.ensureDir { absolute := absolute, comps := done ++ [c], trailing := false } with
    | none => (t, false)
    | some t' => t'.createDirs absolute (done ++ [c]) cs

def createDirAll (t : FileTree N F) (path : Path N) : FileTree N F × Bool :=
  t.createDirs path.absolute [] path.comps

/-- The place a file is opened at for writing, whether it exists or is about to be created. -/
def creatable (t : FileTree N F) (path : Path N) : Option (N × Place N) :=
  if path.trailing = true then none
  else
    match t.resolve true path with
    | .found (n :: k) => if (t.fileAt (n :: k)).isSome then some (n, k) else none
    | .found [] => none
    | .missing n k => some (n, k)
    | .failed => none

def removeFile (t : FileTree N F) (path : Path N) : Option (FileTree N F) :=
  if path.trailing = true then none
  else
    match t.resolve false path with
    | .found k => if t.isDirAt k then none else some (t.remove k)
    | _ => none

/-- Succeeds on empty directories only, and never on the root. -/
def removeDir (t : FileTree N F) (path : Path N) : Option (FileTree N F) :=
  match t.resolve false path with
  | .found k =>
    if t.isDirAt k = true ∧ k ≠ [] ∧ t.hasChildren k = false then some (t.remove k) else none
  | _ => none

theorem fileAt_eq_some_iff (t : FileTree N F) (k : Place N) (data : F) :
    t.fileAt k = some data ↔ t.lookup k = some (.file data) := by
  unfold fileAt
  split <;> simp_all

/-! ## 3. Resolution where no link is met -/

/-- No symbolic link stands at the place or above it. -/
def Straight (t : FileTree N F) (k : Place N) : Prop :=
  ∀ s, s <:+ k → ∀ target, t.lookup s ≠ some (.symlink target)

def isLinkAt (t : FileTree N F) (k : Place N) : Bool :=
  match t.lookup k with
  | some (.symlink _) => true
  | _ => false

theorem straight_iff (t : FileTree N F) (k : Place N) :
    t.Straight k ↔ ∀ s ∈ k.tails, t.isLinkAt s = false := by
  refine forall_congr' fun s ↦ ?_
  rw [List.mem_tails, isLinkAt]
  refine imp_congr_right fun _ ↦ ?_
  split <;> simp_all

instance (t : FileTree N F) (k : Place N) : Decidable (t.Straight k) :=
  decidable_of_iff _ (t.straight_iff k).symm

/-- What resolution finds at a place that no link leads to. -/
def locate (t : FileTree N F) : Place N → Resolved N
  | [] => .found []
  | n :: k =>
    if (t.lookup (n :: k)).isSome then .found (n :: k)
    else if t.isDirAt k then .missing n k else .failed

theorem locate_of_isSome (t : FileTree N F) {k : Place N} (h : (t.lookup k).isSome) :
    t.locate k = .found k := by
  cases k with
  | nil => rfl
  | cons n k => rw [locate, if_pos h]

/-- Nothing is found below a place that is not a directory. -/
theorem locate_eq_failed (t : FileTree N F) {s k : Place N} (h : t.lookup s ≠ some .dir)
    (hs : s <:+ k) (hne : s ≠ k) : t.locate k = .failed := by
  cases k with
  | nil => exact absurd (List.suffix_nil.mp hs) hne
  | cons n k =>
    have hk : s <:+ k := by
      rcases List.suffix_cons_iff.mp hs with heq | hs
      · exact absurd heq hne
      · exact hs
    have hnone : (t.lookup (n :: k)).isSome = false := by
      rw [← Bool.not_eq_true]
      exact fun hsome ↦ h (t.lookup_of_suffix hsome hs hne)
    have hdir : t.isDirAt k = false := by
      rw [isDirAt_eq_false_iff]
      intro hdir
      by_cases heq : s = k
      · exact h (heq ▸ hdir)
      · exact h (t.lookup_of_suffix (by rw [hdir]; rfl) hk heq)
    rw [locate, hnone, hdir]
    rfl

theorem walkComps_normal (t : FileTree N F) (again : Place N → List (Comp N) → Resolved N)
    (followLast : Bool) (names : List N) {k : Place N} (hdir : t.lookup k = some .dir)
    (hst : t.Straight (names.reverse ++ k)) :
    t.walkComps again followLast k (names.map .normal) = t.locate (names.reverse ++ k) := by
  induction names generalizing k with
  | nil => exact (t.locate_of_isSome (by rw [hdir]; rfl)).symm
  | cons n names ih =>
    have happ : (n :: names).reverse ++ k = names.reverse ++ n :: k := by simp
    rw [happ] at hst ⊢
    have hsuf : n :: k <:+ names.reverse ++ n :: k := List.suffix_append _ _
    have hlonger : names ≠ [] → n :: k ≠ names.reverse ++ n :: k := by
      intro hne heq
      have hlen := congrArg List.length heq
      have hpos := List.length_pos_iff.mpr hne
      simp only [List.length_append, List.length_reverse, List.length_cons] at hlen
      omega
    rw [List.map_cons, walkComps, if_pos ((t.isDirAt_iff k).mpr hdir)]
    cases hn : t.lookup (n :: k) with
    | none =>
      cases names with
      | nil => simp [locate, hn, (t.isDirAt_iff k).mpr hdir]
      | cons m names =>
        rw [t.locate_eq_failed (by rw [hn]; simp) hsuf (hlonger (by simp))]
        rfl
    | some node =>
      cases node with
      | dir => exact ih hn hst
      | symlink target => exact absurd hn (hst _ hsuf target)
      | file data =>
        cases names with
        | nil =>
          rw [t.locate_of_isSome (by simp [hn])]
          rfl
        | cons m names =>
          have hfile : t.isDirAt (n :: k) = false := by
            rw [isDirAt_eq_false_iff, hn]
            simp
          rw [t.locate_eq_failed (by rw [hn]; simp) hsuf (hlonger (by simp))]
          simp only [List.map_cons]
          rw [walkComps, hfile]
          rfl

/-- The path is written as the names that lead to the place, in order. -/
def Spells (path : Path N) (k : Place N) : Prop :=
  path.comps = k.reverse.map .normal ∧ path.trailing = false

theorem resolve_of_straight (t : FileTree N F) (followLast : Bool) {path : Path N} {k : Place N}
    (hpath : path.comps = k.reverse.map .normal) (hst : t.Straight k) :
    t.resolve followLast path = t.locate k := by
  have hst' : t.Straight (k.reverse.reverse ++ []) := by simpa using hst
  have hwalk := fun again ↦ t.walkComps_normal again followLast k.reverse t.lookup_nil hst'
  simp only [List.reverse_reverse, List.append_nil] at hwalk
  rw [resolve, hpath]
  exact hwalk _

theorem stat_of_straight (t : FileTree N F) {path : Path N} {k : Place N} (hpath : Spells path k)
    (hst : t.Straight k) : t.stat path = (t.lookup k).map (k, ·) := by
  rw [stat, t.resolve_of_straight true hpath.1 hst, hpath.2]
  cases k with
  | nil => simp [locate]
  | cons n k =>
    rw [locate]
    cases hn : t.lookup (n :: k) with
    | none => by_cases hd : t.isDirAt k = true <;> simp [hd]
    | some node => simp [hn]

theorem pathExists_of_straight (t : FileTree N F) {path : Path N} {k : Place N}
    (hpath : Spells path k) (hst : t.Straight k) :
    t.pathExists path = (t.lookup k).isSome := by
  rw [pathExists, t.stat_of_straight hpath hst, Option.isSome_map]

theorem isDir_of_straight (t : FileTree N F) {path : Path N} {k : Place N}
    (hpath : Spells path k) (hst : t.Straight k) : t.isDir path = t.isDirAt k := by
  rw [isDir, t.stat_of_straight hpath hst, isDirAt]
  cases t.lookup k with
  | none => rfl
  | some node => cases node <;> rfl

theorem readFile_of_straight (t : FileTree N F) {path : Path N} {k : Place N}
    (hpath : Spells path k) (hst : t.Straight k) : t.readFile path = t.fileAt k := by
  rw [readFile, t.stat_of_straight hpath hst, fileAt]
  cases t.lookup k with
  | none => rfl
  | some node => cases node <;> rfl

/-! ## 4. What the operations change -/

/-- Missing means that the parent is there and the node is not. -/
theorem walkComps_missing (t : FileTree N F) {again : Place N → List (Comp N) → Resolved N}
    {followLast : Bool} {n : N} {k : Place N}
    (hagain : ∀ k₀ cs, again k₀ cs = .missing n k → t.lookup k = some .dir ∧ t.lookup (n :: k) = none)
    {cs : List (Comp N)} {k₀ : Place N} (h : t.walkComps again followLast k₀ cs = .missing n k) :
    t.lookup k = some .dir ∧ t.lookup (n :: k) = none := by
  induction cs generalizing k₀ with
  | nil => cases h
  | cons c cs ih =>
    cases c with
    | parent =>
      rw [walkComps] at h
      split at h
      · exact ih h
      · cases h
    | normal m =>
      rw [walkComps] at h
      split at h
      · rename_i hdir
        cases hm : t.lookup (m :: k₀) with
        | none =>
          simp only [hm] at h
          split at h
          · cases h
            exact ⟨(t.isDirAt_iff _).mp hdir, hm⟩
          · cases h
        | some node =>
          cases node with
          | symlink target =>
            simp only [hm] at h
            split at h
            · cases h
            · exact hagain _ _ h
          | dir => simp only [hm] at h; exact ih h
          | file data => simp only [hm] at h; exact ih h
      · cases h

theorem resolve_missing (t : FileTree N F) {followLast : Bool} {path : Path N} {n : N}
    {k : Place N} (h : t.resolve followLast path = .missing n k) :
    t.lookup k = some .dir ∧ t.lookup (n :: k) = none := by
  have hfuel : ∀ fuel k₀ cs, t.resolveFrom followLast fuel k₀ cs = .missing n k →
      t.lookup k = some .dir ∧ t.lookup (n :: k) = none := by
    intro fuel
    induction fuel with
    | zero => exact fun k₀ cs h ↦ t.walkComps_missing (fun _ _ h ↦ by cases h) h
    | succ fuel ih => exact fun k₀ cs h ↦ t.walkComps_missing ih h
  exact hfuel _ _ _ h

/-- Directories may have appeared where nothing was. -/
def DirsAdded (t t' : FileTree N F) : Prop :=
  ∀ s, t'.lookup s = t.lookup s ∨ t.lookup s = none ∧ t'.lookup s = some .dir

theorem DirsAdded.refl (t : FileTree N F) : DirsAdded t t := fun _ ↦ .inl rfl

theorem DirsAdded.trans {t₁ t₂ t₃ : FileTree N F} (h₁ : DirsAdded t₁ t₂) (h₂ : DirsAdded t₂ t₃) :
    DirsAdded t₁ t₃ := by
  intro s
  rcases h₁ s with h₁ | ⟨h₁, h₁'⟩ <;> rcases h₂ s with h₂ | ⟨h₂, h₂'⟩
  · exact .inl (h₂.trans h₁)
  · exact .inr ⟨h₁ ▸ h₂, h₂'⟩
  · exact .inr ⟨h₁, h₂.trans h₁'⟩
  · rw [h₁'] at h₂
    cases h₂

theorem DirsAdded.fileAt {t t' : FileTree N F} (h : DirsAdded t t') (s : Place N) :
    t'.fileAt s = t.fileAt s := by
  unfold FileTree.fileAt
  rcases h s with h | ⟨h, h'⟩
  · rw [h]
  · rw [h, h']

theorem DirsAdded.straight {t t' : FileTree N F} (h : DirsAdded t t') {k : Place N}
    (hst : t.Straight k) : t'.Straight k := by
  intro s hs target hlink
  rcases h s with h | ⟨-, h⟩
  · exact hst s hs target (h ▸ hlink)
  · rw [h] at hlink
    cases hlink

theorem ensureDir_dirsAdded {t t' : FileTree N F} {path : Path N} (h : t.ensureDir path = some t') :
    DirsAdded t t' := by
  rw [ensureDir] at h
  split at h
  · cases h
    exact DirsAdded.refl t
  · rw [mkdir] at h
    cases hr : t.resolve false path with
    | missing n k =>
      have hmissing := t.resolve_missing hr
      simp only [hr, Option.some.injEq] at h
      intro s
      rw [← h]
      by_cases hs : s = n :: k
      · rw [hs]
        exact .inr ⟨hmissing.2,
          t.lookup_put_self _ hmissing.1 (by rw [hmissing.2]; simp)⟩
      · exact .inl (t.lookup_put_of_ne n k _ hs)
    | found k => simp [hr] at h
    | failed => simp [hr] at h

/-- Creating directories changes nothing else, also when it fails half way. -/
theorem createDirs_dirsAdded (t : FileTree N F) (absolute : Bool) (done cs : List (Comp N)) :
    DirsAdded t (t.createDirs absolute done cs).1 := by
  induction cs generalizing t done with
  | nil => exact DirsAdded.refl t
  | cons c cs ih =>
    rw [createDirs]
    cases he : t.ensureDir { absolute := absolute, comps := done ++ [c], trailing := false } with
    | none => exact DirsAdded.refl t
    | some t' => exact (ensureDir_dirsAdded he).trans (ih t' (done ++ [c]))

theorem ensureDir_of_straight {t t' : FileTree N F} {path : Path N} {n : N} {k : Place N}
    (hpath : Spells path (n :: k)) (hst : t.Straight (n :: k)) (h : t.ensureDir path = some t') :
    t'.lookup (n :: k) = some .dir ∧ ∀ s, s ≠ n :: k → t'.lookup s = t.lookup s := by
  rw [ensureDir, t.isDir_of_straight hpath hst] at h
  split at h
  · rename_i hdir
    cases h
    exact ⟨(t.isDirAt_iff _).mp hdir, fun _ _ ↦ rfl⟩
  · rw [mkdir] at h
    cases hr : t.resolve false path with
    | missing m l =>
      have hmissing := t.resolve_missing hr
      rw [t.resolve_of_straight false hpath.1 hst, locate] at hr
      have hml : m = n ∧ l = k := by
        split at hr
        · cases hr
        · split at hr
          · cases hr
            exact ⟨rfl, rfl⟩
          · cases hr
      rw [hml.1, hml.2] at hmissing
      rw [t.resolve_of_straight false hpath.1 hst, locate, if_neg (by simp [hmissing.2]),
        if_pos ((t.isDirAt_iff k).mpr hmissing.1)] at h
      simp only [Option.some.injEq] at h
      rw [← h]
      exact ⟨t.lookup_put_self _ hmissing.1 (by rw [hmissing.2]; simp),
        fun s hs ↦ t.lookup_put_of_ne n k _ hs⟩
    | found l => simp [hr] at h
    | failed => simp [hr] at h

theorem createDirs_of_straight {t : FileTree N F} {absolute : Bool} {done : List (Comp N)}
    {names : List N} {k : Place N} (hdir : t.lookup k = some .dir)
    (hst : t.Straight (names.reverse ++ k)) (hdone : done = k.reverse.map .normal)
    (hok : (t.createDirs absolute done (names.map .normal)).2 = true) (s : Place N) :
    (t.createDirs absolute done (names.map .normal)).1.lookup s =
      if s <:+ names.reverse ++ k then some .dir else t.lookup s := by
  induction names generalizing t done k with
  | nil =>
    show t.lookup s = _
    split
    · rename_i hs
      have hs' : s <:+ k := hs
      by_cases heq : s = k
      · rw [heq, hdir]
      · exact t.lookup_of_suffix (by rw [hdir]; rfl) hs' heq
    · rfl
  | cons n names ih =>
    have happ : (n :: names).reverse ++ k = names.reverse ++ n :: k := by simp
    rw [happ] at hst ⊢
    have hsuf : n :: k <:+ names.reverse ++ n :: k := List.suffix_append _ _
    rw [List.map_cons, createDirs] at hok ⊢
    cases he : t.ensureDir
        { absolute := absolute, comps := done ++ [.normal n], trailing := false } with
    | none => rw [he] at hok; cases hok
    | some t' =>
      rw [he] at hok
      have hdone' : done ++ [.normal n] = (n :: k).reverse.map .normal := by simp [hdone]
      have hadded := ensureDir_of_straight ⟨hdone', rfl⟩
        (fun s hs ↦ hst s (hs.trans hsuf)) he
      have hst' := (ensureDir_dirsAdded he).straight hst
      show (t'.createDirs absolute (done ++ [.normal n]) (names.map .normal)).1.lookup s = _
      rw [ih hadded.1 hst' hdone' hok]
      split
      · rfl
      · rename_i hs
        exact hadded.2 s fun heq ↦ hs (heq ▸ hsuf)

/-- Creating all directories of a straight place makes exactly these directories. -/
theorem createDirAll_of_straight {t : FileTree N F} {path : Path N} {k : Place N}
    (hpath : Spells path k) (hst : t.Straight k) (hok : (t.createDirAll path).2 = true)
    (s : Place N) :
    (t.createDirAll path).1.lookup s = if s <:+ k then some .dir else t.lookup s := by
  have hst' : t.Straight (k.reverse.reverse ++ []) := by simpa using hst
  rw [createDirAll, hpath.1] at hok ⊢
  simpa using createDirs_of_straight t.lookup_nil hst' rfl hok s

/-- A file is opened for writing where there is one or nothing, in a directory. -/
theorem creatable_spec {t : FileTree N F} {path : Path N} {n : N} {k : Place N}
    (h : t.creatable path = some (n, k)) :
    (t.resolve true path = .found (n :: k) ∧ (t.fileAt (n :: k)).isSome ∨
      t.resolve true path = .missing n k ∧ t.lookup (n :: k) = none) ∧
    t.lookup k = some .dir ∧ path.trailing = false := by
  rw [creatable] at h
  split at h
  · cases h
  · rename_i htrailing
    have htrailing : path.trailing = false := by simpa using htrailing
    cases hr : t.resolve true path with
    | found l =>
      cases l with
      | nil => simp [hr] at h
      | cons m l =>
        simp only [hr] at h
        split at h
        · rename_i hfile
          cases h
          obtain ⟨data, hdata⟩ := Option.isSome_iff_exists.mp hfile
          rw [fileAt_eq_some_iff] at hdata
          exact ⟨.inl ⟨rfl, hfile⟩, t.lookup_parent (by rw [hdata]; rfl), htrailing⟩
        · cases h
    | missing m l =>
      simp only [hr, Option.some.injEq, Prod.mk.injEq] at h
      rw [h.1, h.2] at hr
      have hmissing := t.resolve_missing hr
      rw [h.1, h.2]
      exact ⟨.inr ⟨rfl, hmissing.2⟩, hmissing.1, htrailing⟩
    | failed => simp [hr] at h

theorem creatable_not_dir {t : FileTree N F} {path : Path N} {n : N} {k : Place N}
    (h : t.creatable path = some (n, k)) : t.lookup (n :: k) ≠ some .dir := by
  rcases (creatable_spec h).1 with ⟨-, hfile⟩ | ⟨-, hnone⟩
  · obtain ⟨data, hdata⟩ := Option.isSome_iff_exists.mp hfile
    rw [fileAt_eq_some_iff] at hdata
    rw [hdata]
    simp
  · rw [hnone]
    simp

-- Writing a file does not divert the walk that led to it: on its way are only directories and
-- links, and these stay.
theorem walkComps_put {t : FileTree N F} {n : N} {k : Place N} {data : F}
    (hdir : t.lookup k = some .dir)
    (hnode : t.lookup (n :: k) = none ∨ (t.fileAt (n :: k)).isSome)
    {again again' : Place N → List (Comp N) → Resolved N}
    (hagain : ∀ k₀ cs, again k₀ cs = .found (n :: k) ∨ again k₀ cs = .missing n k →
      again' k₀ cs = .found (n :: k))
    {cs : List (Comp N)} {k₀ : Place N}
    (h : t.walkComps again true k₀ cs = .found (n :: k) ∨
      t.walkComps again true k₀ cs = .missing n k) :
    (t.put n k (.file data)).walkComps again' true k₀ cs = .found (n :: k) := by
  have hnotdir : t.lookup (n :: k) ≠ some .dir := by
    rcases hnode with hnone | hfile
    · simp [hnone]
    · obtain ⟨old, hold⟩ := Option.isSome_iff_exists.mp hfile
      rw [fileAt_eq_some_iff] at hold
      simp [hold]
  have hself := t.lookup_put_self (.file data) hdir hnotdir
  have hdirs : ∀ l, t.isDirAt l = true → (t.put n k (.file data)).isDirAt l = true := by
    intro l hl
    rw [isDirAt_iff] at hl ⊢
    rw [t.lookup_put_of_ne n k _ fun heq ↦ hnotdir (heq ▸ hl)]
    exact hl
  induction cs generalizing k₀ with
  | nil =>
    rcases h with h | h
    · cases h
      rfl
    · cases h
  | cons c cs ih =>
    cases c with
    | parent =>
      rw [walkComps] at h ⊢
      by_cases hk₀ : t.isDirAt k₀ = true
      · rw [if_pos hk₀] at h
        rw [if_pos (hdirs k₀ hk₀)]
        exact ih h
      · simp [hk₀] at h
    | normal m =>
      rw [walkComps] at h ⊢
      by_cases hk₀ : t.isDirAt k₀ = true
      · rw [if_pos hk₀] at h
        rw [if_pos (hdirs k₀ hk₀)]
        by_cases hplace : m :: k₀ = n :: k
        · -- the last step of the walk
          cases hplace
          rw [hself]
          rcases hnode with hnone | hfile
          · cases cs with
            | nil => rfl
            | cons c cs => simp [hnone] at h
          · obtain ⟨old, hold⟩ := Option.isSome_iff_exists.mp hfile
            rw [fileAt_eq_some_iff] at hold
            simp only [hold] at h
            exact ih h
        · rw [t.lookup_put_of_ne n k _ hplace]
          cases hm : t.lookup (m :: k₀) with
          | none =>
            simp only [hm] at h
            split at h
            · rcases h with h | h
              · cases h
              · cases h
                exact absurd rfl hplace
            · rcases h with h | h <;> cases h
          | some node =>
            cases node with
            | dir => simp only [hm] at h ⊢; exact ih h
            | file old => simp only [hm] at h ⊢; exact ih h
            | symlink target =>
              simp only [hm, Bool.true_eq_false, and_false, if_false] at h ⊢
              exact hagain _ _ h
      · simp [hk₀] at h

/-- What is written to the place a path opens is what the path reads. -/
theorem readFile_put {t : FileTree N F} {path : Path N} {n : N} {k : Place N}
    (h : t.creatable path = some (n, k)) (data : F) :
    (t.put n k (.file data)).readFile path = some data := by
  obtain ⟨hopened, hdir, htrailing⟩ := creatable_spec h
  have hnode : t.lookup (n :: k) = none ∨ (t.fileAt (n :: k)).isSome :=
    hopened.elim (fun h ↦ .inr h.2) (fun h ↦ .inl h.2)
  have hfuel : ∀ fuel k₀ cs, t.resolveFrom true fuel k₀ cs = .found (n :: k) ∨
      t.resolveFrom true fuel k₀ cs = .missing n k →
      (t.put n k (.file data)).resolveFrom true fuel k₀ cs = .found (n :: k) := by
    intro fuel
    induction fuel with
    | zero =>
      exact fun k₀ cs h ↦ walkComps_put hdir hnode (fun _ _ h ↦ by simp at h) h
    | succ fuel ih => exact fun k₀ cs h ↦ walkComps_put hdir hnode ih h
  have hresolve : (t.put n k (.file data)).resolve true path = .found (n :: k) :=
    hfuel _ _ _ (hopened.imp (·.1) (·.1))
  rw [readFile, stat, hresolve, htrailing]
  simp [t.lookup_put_self (.file data) hdir (creatable_not_dir h)]

theorem removeFile_of_straight {t : FileTree N F} {path : Path N} {k : Place N}
    (hpath : Spells path k) (hst : t.Straight k) :
    t.removeFile path = (t.fileAt k).map fun _ ↦ t.remove k := by
  rw [removeFile, if_neg (by rw [hpath.2]; decide), t.resolve_of_straight false hpath.1 hst]
  cases hk : t.lookup k with
  | none =>
    have hfile : t.fileAt k = none := by rw [fileAt, hk]
    rw [hfile]
    cases k with
    | nil => rw [t.lookup_nil] at hk; cases hk
    | cons n k =>
      rw [locate, if_neg (by simp [hk])]
      by_cases hd : t.isDirAt k = true <;> simp [hd]
  | some node =>
    rw [t.locate_of_isSome (by rw [hk]; rfl)]
    cases node with
    | dir => simp [isDirAt, fileAt, hk]
    | file data => simp [isDirAt, fileAt, hk]
    | symlink target => exact absurd hk (hst k List.suffix_rfl target)

theorem removeDir_of_straight {t : FileTree N F} {path : Path N} {k : Place N}
    (hpath : Spells path k) (hst : t.Straight k) :
    t.removeDir path =
      if t.isDirAt k = true ∧ k ≠ [] ∧ t.hasChildren k = false then some (t.remove k)
      else none := by
  rw [removeDir, t.resolve_of_straight false hpath.1 hst]
  cases hk : t.lookup k with
  | none =>
    have hdir : t.isDirAt k = false := by rw [isDirAt, hk]
    rw [if_neg (by rw [hdir]; simp)]
    cases k with
    | nil => rw [t.lookup_nil] at hk; cases hk
    | cons n k =>
      rw [locate, if_neg (by simp [hk])]
      by_cases hd : t.isDirAt k = true <;> simp [hd]
  | some node => rw [t.locate_of_isSome (by rw [hk]; rfl)]

end FileTree

end CooklangSync.Theory
