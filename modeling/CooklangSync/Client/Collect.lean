import CooklangSync.Client.Syncer

/-!
# Collect — the chunks a download pass asks for

A pass hashes the files that are present under the paths of live records, one after the other, and
asks for the ids of each record that are not in the cache by then.
-/

namespace CooklangSync.Client

open Theory
open Chunker (ReadEnv)

namespace Syncer

/-! ## 1. What is lacking -/

section Collect

variable (sha256 : Bytes → Text) (env : Nat → ReadEnv) (disk : Disk)

/-- The chunker once the file of a record is hashed, if it is there. -/
def warmUp (i : Nat) (c : Chunker) (d : ResponseFileRecord) : Chunker :=
  if d.deleted = false ∧ c.exists disk d.path then (c.hashify sha256 disk (env i) d.path).1 else c

/-- Every file that is there can be hashed. -/
def AllHashed : Nat → Chunker → List ResponseFileRecord → Prop
  | _, _, [] => True
  | i, c, d :: ds =>
    (d.deleted = false → c.exists disk d.path → ∃ ids, (c.hashify sha256 disk (env i) d.path).2 =
      .ok ids) ∧ AllHashed (i + 1) (warmUp sha256 env disk i c d) ds

/-- The ids of the live records that are not in the cache at their turn. -/
def lackedIds : Nat → Chunker → List ResponseFileRecord → List Text
  | _, _, [] => []
  | i, c, d :: ds =>
    let warm := warmUp sha256 env disk i c d
    (if d.deleted then [] else (chunksOf d).filter (!warm.checkChunk ·)) ++
      lackedIds (i + 1) warm ds

/-- The chunker once all files are hashed. -/
def warmedBy : Nat → Chunker → List ResponseFileRecord → Chunker
  | _, c, [] => c
  | i, c, d :: ds => warmedBy (i + 1) (warmUp sha256 env disk i c d) ds

variable {sha256 env disk}

theorem warmUp_of_deleted (i : Nat) (c : Chunker) {d : ResponseFileRecord}
    (hdel : d.deleted = true) : warmUp sha256 env disk i c d = c := by
  rw [warmUp, if_neg (by simp [hdel])]

/-- Hashing the file of a live record, if it is there, leaves the warm chunker. -/
theorem hashed_fst (i : Nat) (c : Chunker) {d : ResponseFileRecord} (hlive : d.deleted = false) :
    (if c.exists disk d.path then c.hashify sha256 disk (env i) d.path else (c, .ok [])).1 =
      warmUp sha256 env disk i c d := by
  rw [warmUp]
  by_cases hexists : c.exists disk d.path = true
  · rw [if_pos hexists, if_pos ⟨hlive, hexists⟩]
  · rw [if_neg hexists, if_neg fun h ↦ hexists h.2]

theorem hashed_ok_iff (i : Nat) (c : Chunker) {d : ResponseFileRecord}
    (hlive : d.deleted = false) :
    (∃ ids, (if c.exists disk d.path then c.hashify sha256 disk (env i) d.path
      else (c, .ok [])).2 = .ok ids) ↔
      (d.deleted = false → c.exists disk d.path →
        ∃ ids, (c.hashify sha256 disk (env i) d.path).2 = .ok ids) := by
  by_cases hexists : c.exists disk d.path = true
  · rw [if_pos hexists]
    exact ⟨fun h _ _ ↦ h, fun h ↦ h hlive hexists⟩
  · rw [if_neg hexists]
    exact ⟨fun _ _ h ↦ absurd h hexists, fun _ ↦ ⟨[], rfl⟩⟩

theorem collectChunks_eq {i : Nat} {c : Chunker} {ds : List ResponseFileRecord}
    (h : AllHashed sha256 env disk i c ds) : collectChunks sha256 env disk i c ds =
      (warmedBy sha256 env disk i c ds, .ok (lackedIds sha256 env disk i c ds)) := by
  induction ds generalizing i c with
  | nil => rfl
  | cons d ds ih =>
    obtain ⟨hfile, hrest⟩ := h
    rw [collectChunks, warmedBy, lackedIds]
    by_cases hdel : d.deleted = true
    · rw [warmUp_of_deleted i c hdel] at hrest ⊢
      simp only [if_pos hdel, List.nil_append]
      exact ih hrest
    · have hlive : d.deleted = false := by simpa using hdel
      obtain ⟨ids, hids⟩ := (hashed_ok_iff i c hlive).mpr hfile
      have hhashed : (if c.exists disk d.path then c.hashify sha256 disk (env i) d.path
          else (c, .ok [])) = (warmUp sha256 env disk i c d, .ok ids) :=
        Prod.ext (hashed_fst i c hlive) hids
      simp only [if_neg hdel, hhashed, ih hrest]

theorem allHashed_of_collectChunks {i : Nat} {c : Chunker} {ds : List ResponseFileRecord}
    {queue : List Text} (h : (collectChunks sha256 env disk i c ds).2 = .ok queue) :
    AllHashed sha256 env disk i c ds := by
  induction ds generalizing i c queue with
  | nil => trivial
  | cons d ds ih =>
    rw [collectChunks] at h
    by_cases hdel : d.deleted = true
    · rw [if_pos hdel] at h
      refine ⟨fun hlive ↦ ?_, ?_⟩
      · rw [hlive] at hdel
        cases hdel
      · rw [warmUp_of_deleted i c hdel]
        exact ih h
    · have hlive : d.deleted = false := by simpa using hdel
      have hwarm := @hashed_fst sha256 env disk i c d hlive
      rw [if_neg hdel] at h
      rw [AllHashed, ← hashed_ok_iff i c hlive, ← hwarm]
      cases hhashed : (if c.exists disk d.path then c.hashify sha256 disk (env i) d.path
          else (c, .ok [])) with
      | mk c' outcome =>
        simp only [hhashed] at h
        cases outcome with
        | ok ids =>
          refine ⟨⟨ids, rfl⟩, ?_⟩
          cases hrest : collectChunks sha256 env disk (i + 1) c' ds with
          | mk c'' outcome =>
            simp only [hrest] at h
            cases outcome with
            | ok rest => exact ih (congrArg Prod.snd hrest)
            | err e => cases h
            | panic => cases h
        | err e => cases h
        | panic => cases h

end Collect

/-! ## 2. The request -/

section Request

variable (sha256 : Bytes → Text) (env : DownloadEnv)
  (list : Int → Outcome SyncError (List ResponseFileRecord)) (namespaceId : Int) (s : ClientState)

/-- The ids a pass hands to `download_batch`, if it comes to that. -/
def requestedIds : Option (List Text) :=
  match list (latestLocal env s namespaceId) with
  | .ok toDownload =>
    match (collectChunks sha256 env.reads s.disk 0 s.chunker toDownload).2 with
    | .ok (id :: ids) => some (id :: ids)
    | _ => none
  | _ => none

variable {sha256 env list namespaceId s}

theorem requestedIds_eq_some_iff {ds : List ResponseFileRecord}
    (hlist : list (latestLocal env s namespaceId) = .ok ds) {ids : List Text} :
    requestedIds sha256 env list namespaceId s = some ids ↔
      AllHashed sha256 env.reads s.disk 0 s.chunker ds ∧
        lackedIds sha256 env.reads s.disk 0 s.chunker ds = ids ∧ ids ≠ [] := by
  rw [requestedIds, hlist]
  simp only
  constructor
  · intro h
    cases hcollect : (collectChunks sha256 env.reads s.disk 0 s.chunker ds).2 with
    | err e =>
      rw [hcollect] at h
      cases h
    | panic =>
      rw [hcollect] at h
      cases h
    | ok queue =>
      have hall := allHashed_of_collectChunks hcollect
      rw [collectChunks_eq hall] at hcollect
      rw [collectChunks_eq hall, hcollect] at h
      refine ⟨hall, ?_⟩
      rw [Outcome.ok.inj hcollect]
      cases queue with
      | nil => cases h
      | cons id ids => exact ⟨Option.some.inj h, by rw [← Option.some.inj h]; simp⟩
  · rintro ⟨hall, rfl, hne⟩
    rw [collectChunks_eq hall]
    obtain ⟨id, ids, heq⟩ := List.exists_cons_of_ne_nil hne
    simp only [heq]

end Request

end Syncer

end CooklangSync.Client
