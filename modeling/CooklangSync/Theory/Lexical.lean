import CooklangSync.Theory.FileSystem

/-!
# Lexical — where a path leads, read off its components

`..` goes up one directory, which at the root leads nowhere, and every name goes down one.  On a
tree without symbolic links the file system resolves paths like this, and every operation changes
nothing but the place its path leads to.
-/

namespace CooklangSync.Theory

variable {N : Type}

/-! ## 1. Following components -/

def follow : Place N → List (Comp N) → Place N
  | k, [] => k
  | k, .parent :: cs => follow k.tail cs
  | k, .normal n :: cs => follow (n :: k) cs

/-- The place a path leads to from a working directory. -/
def Path.placeFrom (cwd : Place N) (path : Path N) : Place N :=
  follow (if path.absolute then [] else cwd) path.comps

/-- Strictly inside a directory. -/
def Below (base k : Place N) : Prop := base <:+ k ∧ k ≠ base

instance [DecidableEq N] (base k : Place N) : Decidable (Below base k) :=
  inferInstanceAs (Decidable (_ ∧ _))

theorem follow_append (k : Place N) (cs ds : List (Comp N)) :
    follow k (cs ++ ds) = follow (follow k cs) ds := by
  induction cs generalizing k with
  | nil => rfl
  | cons c cs ih =>
    cases c with
    | parent => exact ih k.tail
    | normal n => exact ih (n :: k)

theorem not_below_self (k : Place N) : ¬ Below k k := fun h ↦ h.2 rfl

/-! ## 2. Trees without links -/

/-- The place that is found, or is free. -/
def Resolved.place : Resolved N → Option (Place N)
  | .found k => some k
  | .missing n k => some (n :: k)
  | .failed => none

namespace FileTree

variable {F : Type} [DecidableEq N]

def LinkFree (t : FileTree N F) : Prop := ∀ k target, t.lookup k ≠ some (.symlink target)

theorem linkFree_iff (t : FileTree N F) :
    t.LinkFree ↔ ∀ k ∈ t.nodes.keys, t.isLinkAt k = false := by
  constructor
  · intro h k _
    unfold isLinkAt
    split
    · next target hlink => exact absurd hlink (h k target)
    · rfl
  · intro h k target hlink
    have hsome : (t.nodes.lookup k).isSome := by
      rw [show t.nodes.lookup k = _ from hlink]
      rfl
    have hnone := h k (AList.mem_keys.mp (AList.lookup_isSome.mp hsome))
    rw [isLinkAt, hlink] at hnone
    cases hnone

instance (t : FileTree N F) : Decidable t.LinkFree := decidable_of_iff _ t.linkFree_iff.symm

theorem LinkFree.put {t : FileTree N F} (ht : t.LinkFree) (n : N) (k : Place N)
    {node : Node N F} (hnode : ∀ target, node ≠ .symlink target) : (t.put n k node).LinkFree := by
  intro s target hlink
  by_cases hs : s = n :: k
  · unfold FileTree.put at hlink
    split at hlink
    · rw [hs] at hlink
      change (t.nodes.insert (n :: k) node).lookup (n :: k) = _ at hlink
      rw [AList.lookup_insert] at hlink
      exact hnode target (Option.some.inj hlink)
    · exact ht s target hlink
  · rw [t.lookup_put_of_ne n k node hs] at hlink
    exact ht s target hlink

theorem LinkFree.remove {t : FileTree N F} (ht : t.LinkFree) (k : Place N) :
    (t.remove k).LinkFree := by
  intro s target hlink
  by_cases hs : s = k
  · unfold FileTree.remove at hlink
    split at hlink
    · rw [hs] at hlink
      change (t.nodes.erase k).lookup k = _ at hlink
      rw [AList.lookup_erase] at hlink
      cases hlink
    · exact ht s target hlink
  · rw [t.lookup_remove_of_ne k hs] at hlink
    exact ht s target hlink

theorem lookup_tail {t : FileTree N F} {k : Place N} (hk : t.lookup k = some .dir) :
    t.lookup k.tail = some .dir := by
  cases k with
  | nil => exact hk
  | cons n k =>
    have hsome : (t.lookup (n :: k)).isSome := by rw [hk]; rfl
    exact t.lookup_parent hsome

/-- One component of a walk that meets no link: it leads to a directory, and the walk goes on
there, or it is the last one and a name. -/
theorem walkComps_cons_linkFree {t : FileTree N F} (ht : t.LinkFree)
    {again : Place N → List (Comp N) → Resolved N} {followLast : Bool} {k l : Place N}
    {c : Comp N} {cs : List (Comp N)} (hk : t.lookup k = some .dir)
    (h : (t.walkComps again followLast k (c :: cs)).place = some l) :
    (t.lookup (follow k [c]) = some .dir ∧
      t.walkComps again followLast k (c :: cs) = t.walkComps again followLast (follow k [c]) cs) ∨
    cs = [] ∧ t.lookup l ≠ some .dir ∧ ∃ n, c = .normal n ∧ l = n :: k := by
  have hdir := (t.isDirAt_iff k).mpr hk
  cases c with
  | parent =>
    refine .inl ⟨lookup_tail hk, ?_⟩
    rw [walkComps, if_pos hdir]
    rfl
  | normal n =>
    rw [walkComps, if_pos hdir] at h ⊢
    cases hn : t.lookup (n :: k) with
    | none =>
      simp only [hn] at h
      split at h
      · next hcs =>
        obtain rfl := Option.some.inj h
        exact .inr ⟨hcs, by simp [hn], n, rfl, rfl⟩
      · cases h
    | some node =>
      cases node with
      | symlink target => exact absurd hn (ht _ target)
      | dir => exact .inl ⟨hn, rfl⟩
      | file data =>
        simp only [hn] at h
        have hfile : t.isDirAt (n :: k) = false := by
          rw [isDirAt_eq_false_iff, hn]
          simp
        cases cs with
        | nil =>
          obtain rfl := Option.some.inj h
          exact .inr ⟨rfl, by simp [hn], n, rfl, rfl⟩
        | cons d ds =>
          -- a file has nothing below it
          cases d with
          | parent => rw [walkComps, hfile] at h; cases h
          | normal m => rw [walkComps, hfile] at h; cases h

/-- A walk that meets no link ends where its components lead; it ends at a directory unless its
last component is a name. -/
theorem walkComps_linkFree {t : FileTree N F} (ht : t.LinkFree)
    {again : Place N → List (Comp N) → Resolved N} {followLast : Bool} {k l : Place N}
    {cs : List (Comp N)} (hk : t.lookup k = some .dir)
    (h : (t.walkComps again followLast k cs).place = some l) :
    l = follow k cs ∧
      (t.lookup l = some .dir ∨ ∃ init n, cs = init ++ [.normal n]) := by
  induction cs generalizing k with
  | nil =>
    obtain rfl := Option.some.inj h
    exact ⟨rfl, .inl hk⟩
  | cons c cs ih =>
    have hfollow : follow k (c :: cs) = follow (follow k [c]) cs := follow_append k [c] cs
    rcases walkComps_cons_linkFree ht hk h with ⟨hdir, hwalk⟩ | ⟨rfl, -, n, rfl, rfl⟩
    · rw [hwalk] at h
      have hrec := ih hdir h
      refine ⟨hrec.1.trans hfollow.symm, hrec.2.imp_right ?_⟩
      rintro ⟨init, n, rfl⟩
      exact ⟨c :: init, n, rfl⟩
    · exact ⟨rfl, .inr ⟨[], n, rfl⟩⟩

variable {t t' : FileTree N F} {path : Path N}

theorem resolve_linkFree (ht : t.LinkFree) {followLast : Bool} {l : Place N}
    (h : (t.resolve followLast path).place = some l) :
    l = follow [] path.comps ∧
      (t.lookup l = some .dir ∨ ∃ init n, path.comps = init ++ [.normal n]) :=
  walkComps_linkFree ht t.lookup_nil h

/-- Where a path is a directory, so is every path on its way. -/
theorem lookup_follow_of_walkComps (ht : t.LinkFree)
    {again : Place N → List (Comp N) → Resolved N} {followLast : Bool} {k l : Place N}
    {cs ds : List (Comp N)} (hk : t.lookup k = some .dir)
    (h : t.walkComps again followLast k (cs ++ ds) = .found l) (hl : t.lookup l = some .dir) :
    t.lookup (follow k cs) = some .dir := by
  induction cs generalizing k with
  | nil => exact hk
  | cons c cs ih =>
    have hfollow : follow k (c :: cs) = follow (follow k [c]) cs := follow_append k [c] cs
    have hplace : (t.walkComps again followLast k (c :: (cs ++ ds))).place = some l :=
      congrArg Resolved.place h
    rcases walkComps_cons_linkFree ht hk hplace with ⟨hdir, hwalk⟩ | ⟨-, hnotdir, -⟩
    · rw [hfollow]
      exact ih hdir (hwalk.symm.trans h)
    · exact absurd hl hnotdir

theorem lookup_follow_of_isDir (ht : t.LinkFree) (h : t.isDir path = true)
    {cs ds : List (Comp N)} (hcs : path.comps = cs ++ ds) :
    t.lookup (follow [] cs) = some .dir := by
  rw [isDir, stat] at h
  cases hr : t.resolve true path with
  | found l =>
    simp only [hr] at h
    by_cases htrailing : path.trailing = true ∧ t.isDirAt l = false
    · rw [if_pos htrailing] at h
      cases h
    · rw [if_neg htrailing] at h
      have hl : t.lookup l = some .dir := by
        cases hnode : t.lookup l with
        | none => rw [hnode] at h; cases h
        | some node => cases node <;> rw [hnode] at h <;> first | rfl | cases h
      rw [resolve, hcs] at hr
      exact lookup_follow_of_walkComps ht t.lookup_nil hr hl
  | missing n k => simp [hr] at h
  | failed => simp [hr] at h

/-! ## 3. Operations -/

/-- The trees agree outside a place. -/
def SameElsewhere (k : Place N) (t t' : FileTree N F) : Prop :=
  ∀ s, s ≠ k → t'.lookup s = t.lookup s

/-- A directory is made where the path leads, under the name it ends in. -/
theorem mkdir_linkFree (ht : t.LinkFree) (h : t.mkdir path = some t') :
    SameElsewhere (follow [] path.comps) t t' ∧ t'.LinkFree ∧
      t.lookup (follow [] path.comps) = none ∧ ∃ init n, path.comps = init ++ [.normal n] := by
  rw [mkdir] at h
  cases hr : t.resolve false path with
  | missing n k =>
    have hmissing := t.resolve_missing hr
    have hplace : (t.resolve false path).place = some (n :: k) := by rw [hr]; rfl
    have hspec := resolve_linkFree ht hplace
    simp only [hr, Option.some.injEq] at h
    rw [← h, ← hspec.1]
    refine ⟨fun s hs ↦ t.lookup_put_of_ne n k _ hs, ht.put n k (by simp), hmissing.2, ?_⟩
    rcases hspec.2 with hdir | hlast
    · rw [hmissing.2] at hdir
      cases hdir
    · exact hlast
  | found k => simp [hr] at h
  | failed => simp [hr] at h

theorem creatable_linkFree (ht : t.LinkFree) {n : N} {k : Place N}
    (h : t.creatable path = some (n, k)) :
    n :: k = follow [] path.comps ∧ ∃ init m, path.comps = init ++ [.normal m] := by
  have hnotdir := creatable_not_dir h
  have hplace : (t.resolve true path).place = some (n :: k) := by
    rcases (creatable_spec h).1 with hfound | hmissing
    · rw [hfound.1]
      rfl
    · rw [hmissing.1]
      rfl
  have hspec := resolve_linkFree ht hplace
  exact ⟨hspec.1, hspec.2.resolve_left hnotdir⟩

theorem removeFile_linkFree (ht : t.LinkFree) (h : t.removeFile path = some t') :
    SameElsewhere (follow [] path.comps) t t' ∧ t'.LinkFree ∧
      t.lookup (follow [] path.comps) ≠ some .dir ∧
      ∃ init n, path.comps = init ++ [.normal n] := by
  rw [removeFile] at h
  split at h
  · cases h
  · cases hr : t.resolve false path with
    | found k =>
      have hplace : (t.resolve false path).place = some k := by rw [hr]; rfl
      have hspec := resolve_linkFree ht hplace
      simp only [hr] at h
      split at h
      · cases h
      · next hnotdir =>
        have hnotdir : t.lookup k ≠ some .dir := fun hdir ↦ hnotdir ((t.isDirAt_iff k).mpr hdir)
        cases h
        rw [← hspec.1]
        exact ⟨fun s hs ↦ t.lookup_remove_of_ne k hs, ht.remove k, hnotdir,
          hspec.2.resolve_left hnotdir⟩
    | missing n k => simp [hr] at h
    | failed => simp [hr] at h

/-- What `..` leads to is not empty. -/
theorem hasChildren_of_walkComps_parent (ht : t.LinkFree)
    {again : Place N → List (Comp N) → Resolved N} {followLast : Bool} {k l : Place N}
    {init : List (Comp N)} (hk : t.lookup k = some .dir)
    (h : t.walkComps again followLast k (init ++ [.parent]) = .found l) :
    l = [] ∨ t.hasChildren l = true := by
  induction init generalizing k with
  | nil =>
    rw [List.nil_append, walkComps, if_pos ((t.isDirAt_iff k).mpr hk)] at h
    cases h
    cases k with
    | nil => exact .inl rfl
    | cons n k => exact .inr ((t.hasChildren_iff k).mpr ⟨n, by rw [hk]; rfl⟩)
  | cons c init ih =>
    have hplace : (t.walkComps again followLast k (c :: (init ++ [.parent]))).place = some l :=
      congrArg Resolved.place h
    rcases walkComps_cons_linkFree ht hk hplace with ⟨hdir, hwalk⟩ | ⟨hnil, -⟩
    · exact ih hdir (hwalk.symm.trans h)
    · exact absurd hnil (by simp)

/-- A directory that is removed is named by the last component of its path. -/
theorem removeDir_linkFree (ht : t.LinkFree) (h : t.removeDir path = some t') :
    SameElsewhere (follow [] path.comps) t t' ∧ t'.LinkFree ∧
      ∃ init n, path.comps = init ++ [.normal n] := by
  rw [removeDir] at h
  cases hr : t.resolve false path with
  | found k =>
    have hplace : (t.resolve false path).place = some k := by rw [hr]; rfl
    have hspec := resolve_linkFree ht hplace
    simp only [hr] at h
    split at h
    · next hempty =>
      cases h
      rw [← hspec.1]
      refine ⟨fun s hs ↦ t.lookup_remove_of_ne k hs, ht.remove k, ?_⟩
      rcases List.eq_nil_or_concat' path.comps with hnil | ⟨init, c, hcomps⟩
      · rw [hnil] at hspec
        exact absurd hspec.1 hempty.2.1
      · cases c with
        | normal n => exact ⟨init, n, hcomps⟩
        | parent =>
          rw [resolve, hcomps] at hr
          rcases hasChildren_of_walkComps_parent ht t.lookup_nil hr with hroot | hchild
          · exact absurd hroot hempty.2.1
          · rw [hempty.2.2] at hchild
            cases hchild
    · cases h
  | missing n k => simp [hr] at h
  | failed => simp [hr] at h

end FileTree

end CooklangSync.Theory
