import CooklangSync.System.ChunkStore

/-!
# Dedup — when a journal records the same commit twice in a row

A commit that finds its content in the latest record of its path is answered with that record.  The
lookup and the insertion are separate calls of the database, and another handler may insert the
same content between them.  The journal has no repetition as long as no handler inserts a record that
another one has looked up as well and has yet to insert (`noRepeat_of_isApart`).
-/

namespace CooklangSync.System

open Theory Server

/-! ## 1. Repetitions of a journal -/

/-- The second record is the next one of the user's path. -/
structure IsConsecutive (journal : Journal) (r s : FileRecord) : Prop where
  left_mem : r ∈ journal.rows
  right_mem : s ∈ journal.rows
  userId : r.userId = s.userId
  path : r.path = s.path
  lt : r.id < s.id
  between : ∀ t ∈ journal.rows, t.userId = r.userId → t.path = r.path → r.id < t.id → s.id ≤ t.id

/-- No record has the chunks and the deleted flag of the one before it. -/
def NoRepeat (journal : Journal) : Prop :=
  ∀ r s, IsConsecutive journal r s → ¬ (r.chunkIds = s.chunkIds ∧ r.deleted = s.deleted)

/-- The record would repeat the latest one of its path. -/
def IsRepeat (journal : Journal) (record : NewFileRecord) : Prop :=
  (latestForPath journal record.userId record.path).any (isNoOp · record) = true

theorem latestForPath_eq_some_iff (journal : Journal) (userId : Int) (path : Text)
    (r : FileRecord) :
    latestForPath journal userId path = some r ↔
      r ∈ journal.rows ∧ (r.userId = userId ∧ r.path = path) ∧
        ∀ s ∈ journal.rows, s.userId = userId ∧ s.path = path → s.id ≤ r.id := by
  rw [latestForPath, Table.latestOf, Table.lastOf_eq_some_iff]
  simp only [Bool.and_eq_true, beq_iff_eq]

theorem isRepeat_iff (journal : Journal) (record : NewFileRecord) :
    IsRepeat journal record ↔ ∃ r, latestForPath journal record.userId record.path = some r ∧
      r.chunkIds = record.chunkIds ∧ r.deleted = record.deleted := by
  unfold IsRepeat isNoOp
  cases latestForPath journal record.userId record.path with
  | none => simp
  | some r => simp

theorem noRepeat_empty : NoRepeat Table.empty := by
  intro r s h
  cases h.left_mem

section Insertion

variable {journal : Journal} {record : NewFileRecord}

theorem mem_insertNewRecord (r : FileRecord) :
    r ∈ (insertNewRecord journal record).2.rows ↔
      r ∈ journal.rows ∨ r = record.withId journal.nextId := by
  rw [insertNewRecord, Table.rows_insert, List.mem_append, List.mem_singleton]

/-- Records that were consecutive stay so: the new record comes after all of them. -/
theorem isConsecutive_insert_iff {r s : FileRecord} (hs : s ∈ journal.rows) :
    IsConsecutive (insertNewRecord journal record).2 r s ↔ IsConsecutive journal r s := by
  constructor
  · intro h
    have hr : r ∈ journal.rows := by
      rcases (mem_insertNewRecord r).mp h.left_mem with hr | rfl
      · exact hr
      · have hlt := journal.lt_nextId hs
        have hgt : journal.nextId < s.id := h.lt
        omega
    exact ⟨hr, hs, h.userId, h.path, h.lt,
      fun t ht ↦ h.between t ((mem_insertNewRecord t).mpr (.inl ht))⟩
  · intro h
    refine ⟨(mem_insertNewRecord r).mpr (.inl h.left_mem), (mem_insertNewRecord s).mpr (.inl hs),
      h.userId, h.path, h.lt, ?_⟩
    intro t ht hu hp hlt
    rcases (mem_insertNewRecord t).mp ht with ht | rfl
    · exact h.between t ht hu hp hlt
    · exact Int.le_of_lt (journal.lt_nextId hs)

/-- What comes before the new record is the latest one of its path. -/
theorem isConsecutive_new_iff (r : FileRecord) :
    IsConsecutive (insertNewRecord journal record).2 r (record.withId journal.nextId) ↔
      latestForPath journal record.userId record.path = some r := by
  rw [latestForPath_eq_some_iff]
  constructor
  · intro h
    rcases (mem_insertNewRecord r).mp h.left_mem with hr | rfl
    · refine ⟨hr, ⟨h.userId, h.path⟩, ?_⟩
      rintro s hs ⟨hu, hp⟩
      by_contra hlt
      have hnext : journal.nextId ≤ s.id := h.between s ((mem_insertNewRecord s).mpr (.inl hs))
        (hu.trans h.userId.symm) (hp.trans h.path.symm) (by omega)
      have hold := journal.lt_nextId hs
      omega
    · exact absurd h.lt (Int.lt_irrefl _)
  · rintro ⟨hr, ⟨hu, hp⟩, hmax⟩
    refine ⟨(mem_insertNewRecord r).mpr (.inl hr), (mem_insertNewRecord _).mpr (.inr rfl), hu, hp,
      journal.lt_nextId hr, ?_⟩
    intro t ht hut hpt hlt
    rcases (mem_insertNewRecord t).mp ht with ht | rfl
    · have hle := hmax t ht ⟨hut.trans hu, hpt.trans hp⟩
      omega
    · exact Int.le_refl _

theorem noRepeat_insert_iff :
    NoRepeat (insertNewRecord journal record).2 ↔ NoRepeat journal ∧ ¬ IsRepeat journal record := by
  rw [isRepeat_iff]
  constructor
  · intro h
    refine ⟨fun r s hrs ↦ h r s ((isConsecutive_insert_iff hrs.right_mem).mpr hrs), ?_⟩
    rintro ⟨r, hr, hsame⟩
    exact h r _ ((isConsecutive_new_iff r).mpr hr) hsame
  · rintro ⟨hold, hnew⟩ r s hrs
    rcases (mem_insertNewRecord s).mp hrs.right_mem with hs | rfl
    · exact hold r s ((isConsecutive_insert_iff hs).mp hrs)
    · exact fun hsame ↦ hnew ⟨r, (isConsecutive_new_iff r).mp hrs, hsame⟩

end Insertion

namespace ChunkStore

section Runs

variable {ι P : Type} [DecidableEq ι] [DecidableEq P] {root : Path Name} {place : Path Name → P}
  {bytesOf : Text → Bytes}

/-! ## 2. Steps -/

/-- The comparison of the record, if it is behind it, was made in this state or before it. -/
structure KeepsNews (σ σ' : ChunkStore ι P) : Prop where
  journal : σ'.journal = σ.journal
  compared : ∀ h k, σ'.commits h = some k → k.compared = true →
    (∃ k₀, σ.commits h = some k₀ ∧ k₀.compared = true ∧ k₀.record = k.record) ∨
      ¬ IsRepeat σ.journal k.record

omit [DecidableEq ι] [DecidableEq P] in
theorem KeepsNews.of_commits {σ σ' : ChunkStore ι P} (hjournal : σ'.journal = σ.journal)
    (hcommits : σ'.commits = σ.commits) : KeepsNews σ σ' where
  journal := hjournal
  compared _ k hk hcompared := .inl ⟨k, hcommits ▸ hk, hcompared, rfl⟩

omit [DecidableEq P] in
theorem KeepsNews.setCommit {σ : ChunkStore ι P} (h : ι) {k : Option PendingCommit}
    (hk : ∀ k', k = some k' → k'.compared = true →
      (∃ k₀, σ.commits h = some k₀ ∧ k₀.compared = true ∧ k₀.record = k'.record) ∨
        ¬ IsRepeat σ.journal k'.record) : KeepsNews σ (σ.setCommit h k) where
  journal := rfl
  compared h' k' hk' hcompared := by
    rcases commits_setCommit hk' with ⟨rfl, hset⟩ | ⟨-, hold⟩
    · exact hk k' hset hcompared
    · exact .inl ⟨k', hold, hcompared, rfl⟩

/-- An insertion appends the record of its handler, which has been compared; the other steps leave
the journal as it is. -/
theorem next_cases {σ σ' : ChunkStore ι P} {a : StoreAction ι}
    (hstep : next root place bytesOf σ a = some σ') :
    (∃ h k, a = .insert h ∧ σ.commits h = some k ∧ k.compared = true ∧
      σ' = setCommit { σ with journal := (insertNewRecord σ.journal k.record).2 } h none) ∨
    ((∀ h, a ≠ .insert h) ∧ KeepsNews σ σ') := by
  cases a with
  | insert h =>
    obtain ⟨k, hk, hstep⟩ := Option.bind_eq_some_iff.mp hstep
    split at hstep
    · next hcompared => exact .inl ⟨h, k, rfl, hk, hcompared, (Option.some.inj hstep).symm⟩
    · cases hstep
  | create h c faults =>
    refine .inr ⟨by simp, ?_⟩
    simp only [next] at hstep
    split at hstep
    · cases hstep
    · split at hstep
      · split at hstep <;> cases hstep <;> exact .of_commits rfl rfl
      · cases hstep
  | land h r =>
    obtain ⟨u, -, rfl⟩ := Option.map_eq_some_iff.mp hstep
    exact .inr ⟨by simp, .of_commits rfl rfl⟩
  | append h count removed =>
    obtain ⟨u, -, hstep⟩ := Option.bind_eq_some_iff.mp hstep
    split at hstep
    · cases hstep
      exact .inr ⟨by simp, .of_commits rfl rfl⟩
    · cases hstep
  | finish h =>
    obtain ⟨u, -, hstep⟩ := Option.bind_eq_some_iff.mp hstep
    split at hstep
    · cases hstep
      exact .inr ⟨by simp, .of_commits rfl rfl⟩
    · cases hstep
  | fail h removed =>
    obtain ⟨u, -, rfl⟩ := Option.map_eq_some_iff.mp hstep
    exact .inr ⟨by simp, .of_commits rfl rfl⟩
  | landLate k r =>
    obtain ⟨w, -, rfl⟩ := Option.map_eq_some_iff.mp hstep
    exact .inr ⟨by simp, .of_commits rfl rfl⟩
  | commit h userId payload =>
    refine .inr ⟨by simp, ?_⟩
    simp only [next] at hstep
    split at hstep
    · cases hstep
    · cases hstep
      apply KeepsNews.setCommit
      intro k hk hcompared
      cases hk
      cases hcompared
  | check h =>
    refine .inr ⟨by simp, ?_⟩
    obtain ⟨k, hk, hstep⟩ := Option.bind_eq_some_iff.mp hstep
    split at hstep
    · cases hstep
    · split at hstep
      · cases hstep
        apply KeepsNews.setCommit
        intro k' hk' hcompared
        cases hk'
        exact .inl ⟨k, hk, hcompared, rfl⟩
      · cases hstep
        apply KeepsNews.setCommit
        intro k' hk'
        cases hk'
  | compare h =>
    refine .inr ⟨by simp, ?_⟩
    obtain ⟨k, hk, hstep⟩ := Option.bind_eq_some_iff.mp hstep
    split at hstep
    · split at hstep
      · cases hstep
        apply KeepsNews.setCommit
        intro k' hk'
        cases hk'
      · next hnews =>
        cases hstep
        apply KeepsNews.setCommit
        intro k' hk' _
        cases hk'
        exact .inr hnews
    · cases hstep

/-! ## 3. Runs -/

/-- No other handler is between the lookup and the insertion of the record that is inserted. -/
def IsApart (σ : ChunkStore ι P) : StoreAction ι → Prop
  | .insert h => ∀ k h' k', σ.commits h = some k → σ.commits h' = some k' → h' ≠ h →
      k'.compared = true → k'.record ≠ k.record
  | _ => True

/-- What has been looked up is still new. -/
def IsNews (σ : ChunkStore ι P) : Prop :=
  ∀ h k, σ.commits h = some k → k.compared = true → ¬ IsRepeat σ.journal k.record

theorem IsNews.next {σ σ' : ChunkStore ι P} {a : StoreAction ι} (hσ : σ.IsNews)
    (hok : σ.IsApart a) (hstep : next root place bytesOf σ a = some σ') : σ'.IsNews := by
  intro h' k' hk' hcompared'
  rcases next_cases hstep with ⟨h, k, rfl, hk, -, rfl⟩ | ⟨-, hkeeps⟩
  · rcases commits_setCommit hk' with ⟨-, hnone⟩ | ⟨hne, hold⟩
    · cases hnone
    · have hother := hok k h' k' hk hold hne hcompared'
      have hlatest := latestForPath_insert σ.journal k.record k'.record.userId k'.record.path
      by_cases hpath : k.record.userId = k'.record.userId ∧ k.record.path = k'.record.path
      · -- the new record is the latest of the path, and differs
        rw [if_pos hpath] at hlatest
        rw [isRepeat_iff]
        rintro ⟨r, hr, hchunks, hdeleted⟩
        obtain rfl := Option.some.inj (hlatest.symm.trans hr)
        have hchunks : k.record.chunkIds = k'.record.chunkIds := hchunks
        have hdeleted : k.record.deleted = k'.record.deleted := hdeleted
        have hsame : k'.record =
            ⟨k.record.userId, k.record.chunkIds, k.record.deleted, k.record.path⟩ := by
          rw [hpath.1, hchunks, hdeleted, hpath.2]
        exact hother hsame
      · rw [if_neg hpath] at hlatest
        have hnews := hσ h' k' hold hcompared'
        rw [IsRepeat, ← hlatest] at hnews
        exact hnews
  · rw [hkeeps.journal]
    rcases hkeeps.compared h' k' hk' hcompared' with ⟨k₀, hk₀, hcompared, hrecord⟩ | hnews
    · rw [← hrecord]
      exact hσ h' k₀ hk₀ hcompared
    · exact hnews

structure DedupInv (σ : ChunkStore ι P) : Prop where
  noRepeat : NoRepeat σ.journal
  news : σ.IsNews

omit [DecidableEq ι] [DecidableEq P] in
theorem DedupInv.init {σ : ChunkStore ι P} (h : σ.fresh) : DedupInv σ where
  noRepeat := by
    rw [h.2.2.2.2.1]
    exact noRepeat_empty
  news := by
    intro h' k hk
    rw [h.2.2.2.1] at hk
    cases hk

theorem DedupInv.next {σ σ' : ChunkStore ι P} {a : StoreAction ι} (hσ : DedupInv σ)
    (hok : σ.IsApart a) (hstep : next root place bytesOf σ a = some σ') : DedupInv σ' where
  noRepeat := by
    rcases next_cases hstep with ⟨h, k, rfl, hk, hcompared, rfl⟩ | ⟨-, hkeeps⟩
    · -- an insertion is of a record that was looked up
      exact noRepeat_insert_iff.mpr ⟨hσ.noRepeat, hσ.news h k hk hcompared⟩
    · rw [hkeeps.journal]
      exact hσ.noRepeat
  news := hσ.news.next hok hstep

/-- As long as no two handlers have looked up the same record, nothing is repeated. -/
theorem noRepeat_of_isApart {σ : ChunkStore ι P}
    (h : (system root place bytesOf).Reachable IsApart σ) : NoRepeat σ.journal := by
  have hinv : DedupInv σ :=
    h.invariant (fun _ ↦ DedupInv.init) fun _ _ _ hinv hok hstep ↦ hinv.next hok hstep
  exact hinv.noRepeat

end Runs

-- An example: two clients commit an empty recipe and its deletion at the same time, and the deletion
-- is committed again.
def emptyRecipe : CommitPayload := ⟨"a.cook".toList, false, []⟩

def lookUp (h : Bool) (deleted : Bool) : List (StoreAction Bool) :=
  [.commit h 1 { emptyRecipe with deleted := deleted }, .check h, .compare h]

def recommit : List (StoreAction Bool) :=
  lookUp true false ++ lookUp false true ++ [.insert true, .insert false] ++ lookUp true true

theorem isApart_of_differ {τ : ChunkStore Bool (Path Name)} {h : Bool}
    (hdiffer : (τ.commits h).map PendingCommit.record ≠ (τ.commits !h).map PendingCommit.record) :
    τ.IsApart (.insert h) := by
  intro k h' k' hk hk' hne _ hsame
  obtain rfl : h' = !h := by
    cases h <;> cases h' <;> first | rfl | exact absurd rfl hne
  rw [hk, hk', Option.map_some, Option.map_some, hsame] at hdiffer
  exact hdiffer rfl

theorem noRepeat_recommit :
    ∃ σ, storeSystem.run emptyStore recommit = some σ ∧
      σ.journal.rows = [⟨1, 1, [], false, "a.cook".toList⟩, ⟨2, 1, [], true, "a.cook".toList⟩] ∧
      NoRepeat σ.journal := by
  obtain ⟨σ, hrun⟩ := Option.isSome_iff_exists.mp
    (by decide : (storeSystem.run emptyStore recommit).isSome = true)
  have hrows : (storeSystem.run emptyStore recommit).map (·.journal.rows) =
      some [⟨1, 1, [], false, "a.cook".toList⟩, ⟨2, 1, [], true, "a.cook".toList⟩] := by
    decide
  rw [hrun] at hrows
  refine ⟨σ, hrun, Option.some.inj hrows,
    noRepeat_of_isApart ((System.Reachable.init fresh_emptyStore).run_of_ok hrun ?_)⟩
  intro i a t ha ht
  match i with
  | 0 | 1 | 2 | 3 | 4 | 5 | 8 | 9 | 10 =>
    cases ha
    trivial
  | 6 =>
    cases ha
    have hdiffer : (storeSystem.run emptyStore (recommit.take 6)).all fun τ ↦
        (τ.commits true).map PendingCommit.record ≠ (τ.commits !true).map PendingCommit.record := by
      decide
    rw [ht, Option.all_some, decide_eq_true_eq] at hdiffer
    exact isApart_of_differ hdiffer
  | 7 =>
    cases ha
    have hdiffer : (storeSystem.run emptyStore (recommit.take 7)).all fun τ ↦
        (τ.commits false).map PendingCommit.record ≠ (τ.commits !false).map PendingCommit.record := by
      decide
    rw [ht, Option.all_some, decide_eq_true_eq] at hdiffer
    exact isApart_of_differ hdiffer
  | n + 11 => cases ha

-- The second request looks the path up before the first one inserts.
theorem noRepeat_fails :
    ¬ ∀ (root : Path Name) (place : Path Name → Path Name) (bytesOf : Text → Bytes)
      (σ : ChunkStore Bool (Path Name)),
      (system root place bytesOf).Reachable System.anyAction σ → NoRepeat σ.journal := by
  intro h
  let run := storeSystem.run emptyStore
    (lookUp true false ++ lookUp false false ++ [.insert true, .insert false])
  have hsome : run.isSome := by decide
  obtain ⟨σ, hrun⟩ := Option.isSome_iff_exists.mp hsome
  have hrepeat := h uploadDir id chunkBytes σ ((System.Reachable.init fresh_emptyStore).run hrun)
  have hrows : run.map (·.journal.rows) =
      some [⟨1, 1, [], false, "a.cook".toList⟩, ⟨2, 1, [], false, "a.cook".toList⟩] := by
    decide
  rw [show run = some σ from hrun, Option.map_some, Option.some.injEq] at hrows
  refine hrepeat ⟨1, 1, [], false, "a.cook".toList⟩ ⟨2, 1, [], false, "a.cook".toList⟩
    ⟨by simp [hrows], by simp [hrows], rfl, rfl, by decide, ?_⟩ ⟨rfl, rfl⟩
  intro t ht _ _ hlt
  rw [hrows] at ht
  simp only [List.mem_cons, List.not_mem_nil, or_false] at ht
  rcases ht with rfl | rfl
  · exact absurd hlt (by decide)
  · exact Int.le_refl _

end ChunkStore

end CooklangSync.System
