import CooklangSync.Server.Turns

/-!
# Uploads — what an accepted upload stores

A file holds in the end what the last field that belongs to it has left there.  An upload that is
answered with success may have lost fields: those after the point where the body ends or breaks in
the headers of a field, those whose writes have failed, and those whose last write has not landed
when the answer is sent (`uploadChunks_stored_iff`).
-/

namespace CooklangSync.Server

open Theory

section Handler

variable {P : Type} [DecidableEq P] (root : Path Name) (place : Path Name → P)

/-! ## 1. The last field of a file -/

/-- The last part that belongs to the file at `p`, with its index. -/
def lastPart (p : P) : Nat → List Part → Option (Nat × Part)
  | _, [] => none
  | i, part :: rest =>
    (lastPart p (i + 1) rest).or (if part.file root place = some p then some (i, part) else none)

omit [DecidableEq P] in
theorem Part.file_eq_some {part : Part} {p : P} (h : part.file root place = some p) :
    ∃ name path, part.name = some name ∧ name ≠ [] ∧
      (ChunkId.filePath root name : Outcome ChunkError _) = .ok path ∧ place path = p := by
  unfold Part.file at h
  split at h
  · cases h
  · next name hname =>
    split at h
    · cases h
    · next hne =>
      split at h
      · next path hpath => exact ⟨name, path, hname, hne, hpath, Option.some.inj h⟩
      · cases h

theorem lastPart_eq_some {p : P} {i k : Nat} {part : Part} {parts : List Part}
    (h : lastPart root place p i parts = some (k, part)) :
    part ∈ parts ∧ part.file root place = some p := by
  induction parts generalizing i with
  | nil => cases h
  | cons head rest ih =>
    rw [lastPart] at h
    rcases Option.or_eq_some_iff.mp h with h | ⟨-, h⟩
    · exact ⟨List.mem_cons_of_mem head (ih h).1, (ih h).2⟩
    · split at h
      · next hfile =>
        cases h
        exact ⟨List.mem_cons_self, hfile⟩
      · cases h

theorem lastPart_eq_none {p : P} {i : Nat} {parts : List Part}
    (h : lastPart root place p i parts = none) :
    ∀ part ∈ parts, part.file root place ≠ some p := by
  induction parts generalizing i with
  | nil => exact fun _ hpart ↦ absurd hpart List.not_mem_nil
  | cons head rest ih =>
    rw [lastPart, Option.or_eq_none_iff] at h
    intro part hpart hfile
    rcases List.mem_cons.mp hpart with rfl | hpart
    · rw [if_pos hfile] at h
      cases h.2
    · exact ih h.1 part hpart hfile

theorem lt_of_lastPart {p : P} {i k : Nat} {part : Part} {parts : List Part}
    (h : lastPart root place p (i + 1) parts = some (k, part)) : i < k := by
  induction parts generalizing i with
  | nil => cases h
  | cons head rest ih =>
    rw [lastPart] at h
    rcases Option.or_eq_some_iff.mp h with h | ⟨-, h⟩
    · exact Nat.lt_of_succ_lt (ih h)
    · split at h
      · cases h
        exact Nat.lt_succ_self i
      · cases h

theorem getElem?_of_lastPart {p : P} {i k : Nat} {part : Part} {parts : List Part}
    (h : lastPart root place p i parts = some (k, part)) :
    parts[k - i]? = some part ∧ part.file root place = some p := by
  refine ⟨?_, (lastPart_eq_some root place h).2⟩
  induction parts generalizing i with
  | nil => cases h
  | cons head rest ih =>
    rw [lastPart] at h
    rcases Option.or_eq_some_iff.mp h with h | ⟨-, h⟩
    · have hlt := lt_of_lastPart root place h
      rw [show k - i = k - (i + 1) + 1 by omega]
      exact ih h
    · split at h
      · cases h
        rw [Nat.sub_self]
        rfl
      · cases h

/-! ## 2. What a file will hold -/

section Settling

variable (env : DiskEnv)

/-- No write in the file lands any more before the answer is sent. -/
def IsStill (late : List (Nat × LateWrite)) : Prop := ∀ e ∈ late, env.last e.1 = none

/-- What the file at the place holds when the answer is sent, when nothing else is done to it.  At
most one write lands in it until then. -/
inductive Settles (disk : Disk P) (p : P) : Option Bytes → Prop
  | absent (h : disk.files.entry p = none) : Settles disk p none
  | still {n : Nat} (h : disk.files.entry p = some n) (hstill : IsStill env (disk.lateIn n)) :
      Settles disk p (some (disk.files.data n))
  | awaits {n k : Nat} {w : LateWrite} {l : Landing} {before after : List (Nat × LateWrite)}
      (h : disk.files.entry p = some n) (hlate : disk.lateIn n = before ++ (k, w) :: after)
      (hbefore : IsStill env before) (hafter : IsStill env after) (hl : env.last k = some l) :
      Settles disk p (some (overwrite (disk.files.data n) w.offset (l.result.landed w.bytes)))

variable {env} {disk disk' : Disk P} {p : P} {content : Option Bytes}

omit [DecidableEq P] in
theorem IsStill.filter {late : List (Nat × LateWrite)} (h : IsStill env late)
    (q : Nat × LateWrite → Bool) : IsStill env (late.filter q) :=
  fun e he ↦ h e (List.mem_filter.mp he).1

variable (env) in
/-- The writes that are due are among those that land in time. -/
def IsPart (due : Nat → Option WriteResult) : Prop :=
  ∀ k r, due k = some r → ∃ l, env.last k = some l ∧ l.result = r

theorem isPart_due (i j : Nat) : IsPart env (env.due · i j) := by
  intro k r h
  obtain ⟨l, hl, hr⟩ := Option.bind_eq_some_iff.mp h
  rw [Option.ite_none_right_eq_some, Option.some.injEq] at hr
  exact ⟨l, hl, hr.2⟩

theorem isPart_inTime : IsPart env env.inTime :=
  fun _ _ h ↦ Option.map_eq_some_iff.mp h

theorem IsStill.not_due {late : List (Nat × LateWrite)} (h : IsStill env late)
    {due : Nat → Option WriteResult} (hdue : IsPart env due) : ∀ e ∈ late, due e.1 = none := by
  intro e he
  cases hr : due e.1 with
  | none => rfl
  | some r =>
    obtain ⟨l, hl, -⟩ := hdue e.1 r hr
    rw [h e he] at hl
    cases hl

omit [DecidableEq P] in
theorem Settles.land (h : Settles env disk p content) {due : Nat → Option WriteResult}
    (hdue : IsPart env due) : Settles env (disk.land due) p content := by
  cases h with
  | absent h => exact .absent (by rwa [Disk.entry_land])
  | @still n h hstill =>
    have hdata := disk.data_land due n
    rw [Disk.landsIn_of_not_due due (hstill.not_due hdue)] at hdata
    rw [← hdata]
    refine .still (by rwa [Disk.entry_land]) ?_
    rw [Disk.lateIn_land]
    exact hstill.filter _
  | @awaits n k w l before after h hlate hbefore hafter hl =>
    have hdata := disk.data_land due n
    rw [hlate, Disk.landsIn_append, Disk.landsIn_of_not_due due (hbefore.not_due hdue),
      Disk.landsIn] at hdata
    have hin := disk.lateIn_land due n
    rw [hlate, List.filter_append, List.filter_cons] at hin
    cases hk : due k with
    | none =>
      -- the write goes on being awaited
      simp only [hk, Disk.landsIn_of_not_due due (hafter.not_due hdue)] at hdata
      rw [← hdata]
      simp only [hk, Option.isNone_none, if_true] at hin
      exact .awaits (by rwa [Disk.entry_land]) hin (hbefore.filter _) (hafter.filter _) hl
    | some r =>
      -- the write lands now
      obtain ⟨l', hl', hr⟩ := hdue k r hk
      rw [hl, Option.some.injEq] at hl'
      simp only [hk, Disk.landsIn_of_not_due due (hafter.not_due hdue)] at hdata
      rw [hl', hr, ← hdata]
      refine .still (by rwa [Disk.entry_land]) ?_
      rw [hin]
      simp only [hk, Option.isNone_some, Bool.false_eq_true, if_false]
      intro e he
      rcases List.mem_append.mp he with he | he
      · exact hbefore.filter _ e he
      · exact hafter.filter _ e he

omit [DecidableEq P] in
theorem Settles.elsewhere (h : Settles env disk p content) (helse : Disk.Elsewhere p disk disk') :
    Settles env disk' p content := by
  cases h with
  | absent h => exact .absent (helse.entry.trans h)
  | @still n h hstill =>
    rw [← helse.data n h]
    refine .still (helse.entry.trans h) ?_
    rw [helse.late n h]
    exact hstill
  | @awaits n k w l before after h hlate hbefore hafter hl =>
    rw [← helse.data n h]
    exact .awaits (helse.entry.trans h) ((helse.late n h).trans hlate) hbefore hafter hl

omit [DecidableEq P] in
theorem Settles.read_of_still (h : Settles env disk p content) (hstill : IsStill env disk.late) :
    disk.files.read p = content := by
  cases h with
  | absent h => rw [Files.read, h, Option.map_none]
  | still h _ => rw [Files.read, h, Option.map_some]
  | @awaits n k w l before after h hlate _ _ hl =>
    have hmem : (k, w) ∈ disk.lateIn n := by
      rw [hlate]
      exact List.mem_append_right _ List.mem_cons_self
    rw [hstill _ ((disk.mem_lateIn).mp hmem).1] at hl
    cases hl

omit [DecidableEq P] in
/-- When the answer is sent, what was to land in time has landed. -/
theorem isStill_inTime (disk : Disk P) : IsStill env (disk.land env.inTime).late := by
  intro e he
  exact Option.map_eq_none_iff.mp ((Disk.mem_late_land env.inTime disk).mp he).2

theorem Settles.receivePart (h : Settles env disk p content) {i : Nat} {part : Part} (cut : Bool)
    (hp : part.file root place ≠ some p) :
    Settles env (Server.receivePart root place env i disk part cut).1 p content :=
  receivePart_preserves root place (I := (Settles env · p content))
    (fun _ j h ↦ Settles.land h (isPart_due i j)) (fun _ _ helse h ↦ Settles.elsewhere h helse)
    cut hp h

end Settling

/-! ## 3. One file -/

namespace OpenFile

/-- What reaches the file of a field, of what is queued and of the pieces from `j` on. -/
def landedPieces (env : DiskEnv) (i : Nat) : Bytes → Nat → List Bytes → Bytes
  | queued, _, [] =>
    match env.last i with
    | some l => l.result.landed queued
    | none => []
  | queued, j, bytes :: rest =>
    let landed := (env.write i j).landed queued
    landed ++ landedPieces env i (if landed.length < queued.length then [] else bytes) (j + 1) rest

/-- Whether a failed write has the file removed. -/
def anyRemoves (env : DiskEnv) (i : Nat) : Bytes → Nat → List Bytes → Bool
  | _, _, [] => false
  | queued, j, bytes :: rest =>
    let failed : Bool := ((env.write i j).landed queued).length < queued.length
    (failed && env.removes i j) || anyRemoves env i (if failed then [] else bytes) (j + 1) rest

/-- Every write lands whole before the answer is sent. -/
def wroteWhole (env : DiskEnv) (i : Nat) : Bytes → Nat → List Bytes → Bool
  | queued, _, [] =>
    match env.last i with
    | some l => l.result.landed queued = queued
    | none => queued = []
  | queued, j, bytes :: rest =>
    (env.write i j).landed queued = queued && wroteWhole env i bytes (j + 1) rest

theorem length_landedPieces_le (env : DiskEnv) (i j : Nat) (queued : Bytes) (pieces : List Bytes) :
    (landedPieces env i queued j pieces).length ≤ queued.length + pieces.flatten.length := by
  induction pieces generalizing j queued with
  | nil =>
    rw [landedPieces]
    split
    · next l _ => exact Nat.le_add_right_of_le (l.result.landed_isPrefixOf queued).length_le
    · exact Nat.zero_le _
  | cons bytes rest ih =>
    have hle := ((env.write i j).landed_isPrefixOf queued).length_le
    rw [landedPieces, List.flatten_cons, List.length_append, List.length_append]
    by_cases hlt : ((env.write i j).landed queued).length < queued.length
    · have hrec := ih (j + 1) []
      rw [List.length_nil] at hrec
      rw [if_pos hlt]
      omega
    · have hrec := ih (j + 1) bytes
      rw [if_neg hlt]
      omega

theorem wroteWhole_of_ok {env : DiskEnv} {i : Nat} (hwrite : ∀ j, env.write i j = .ok)
    (hlast : ∃ l, env.last i = some l ∧ l.result = .ok) (queued : Bytes) (j : Nat)
    (pieces : List Bytes) : wroteWhole env i queued j pieces = true := by
  induction pieces generalizing queued j with
  | nil =>
    obtain ⟨l, hl, hok⟩ := hlast
    rw [wroteWhole, hl]
    simp [hok, WriteResult.landed]
  | cons bytes rest ih =>
    rw [wroteWhole, ih, hwrite]
    simp [WriteResult.landed]

/-- A write that falls short is not made up for by later ones. -/
theorem wroteWhole_iff (env : DiskEnv) (i j : Nat) (queued : Bytes) (pieces : List Bytes) :
    wroteWhole env i queued j pieces = true ↔
      anyRemoves env i queued j pieces = false ∧
        landedPieces env i queued j pieces = queued ++ pieces.flatten := by
  induction pieces generalizing j queued with
  | nil =>
    rw [wroteWhole, anyRemoves, landedPieces]
    cases env.last i with
    | none => simp [eq_comm]
    | some l => simp
  | cons bytes rest ih =>
    have hstart := (env.write i j).landed_isPrefixOf queued
    rw [wroteWhole, anyRemoves, landedPieces, List.flatten_cons]
    by_cases hwhole : (env.write i j).landed queued = queued
    · have hnot : ¬ ((env.write i j).landed queued).length < queued.length := by
        rw [hwhole]
        exact Nat.lt_irrefl _
      simp only [hwhole, decide_true, Bool.true_and, Nat.lt_irrefl, decide_false, Bool.false_and,
        Bool.false_or, Bool.false_eq_true, if_false, ih, List.append_cancel_left_eq]
    · -- the file stays too short
      have hlt : ((env.write i j).landed queued).length < queued.length := by
        refine Nat.lt_of_le_of_ne hstart.length_le fun heq ↦ hwhole (hstart.eq_of_length heq)
      have hrest := length_landedPieces_le env i (j + 1) [] rest
      simp only [hwhole, decide_false, Bool.false_and, Bool.false_eq_true, false_iff, not_and]
      intro _ heq
      have hlen := congrArg List.length heq
      rw [if_pos hlt, List.length_append, List.length_append, List.length_append] at hlen
      rw [List.length_nil] at hrest
      omega

omit [DecidableEq P] in
/-- A file that is closed leaves its last write under way in it. -/
theorem lateIn_left (i : Nat) (file : OpenFile P) (disk : Disk P) :
    ({ disk with late := disk.late ++ file.left.map (i, ·) } : Disk P).lateIn file.inode =
      disk.lateIn file.inode ++ file.left.map (i, ·) := by
  have hall : ∀ e ∈ file.left.map (i, ·), decide (e.2.inode = file.inode) = true := by
    intro e he
    obtain ⟨w, hw, rfl⟩ := List.mem_map.mp he
    rw [(file.mem_left.mp hw).2, decide_eq_true_eq]
  rw [Disk.lateIn, List.filter_append, List.filter_eq_self.mpr hall]
  rfl

omit [DecidableEq P] in
/-- What the file of a field settles to that is closed, when nothing else lands in it. -/
theorem settles_left (env : DiskEnv) (i j : Nat) (file : OpenFile P) (disk : Disk P)
    (hstill : IsStill env (disk.lateIn file.inode))
    (hentry : disk.files.entry file.place = some file.inode)
    (hoffset : (disk.files.data file.inode).length = file.offset) :
    Settles env { disk with late := disk.late ++ file.left.map (i, ·) } file.place
      (some (disk.files.data file.inode ++ landedPieces env i file.queued j [])) := by
  have hlate := lateIn_left i file disk
  rw [landedPieces]
  cases hlast : env.last i with
  | none =>
    rw [List.append_nil]
    refine .still hentry ?_
    rw [hlate]
    intro e he
    rcases List.mem_append.mp he with he | he
    · exact hstill e he
    · obtain ⟨w, -, rfl⟩ := List.mem_map.mp he
      exact hlast
  | some l =>
    by_cases hnil : file.queued = []
    · simp only [hnil, WriteResult.landed_nil, List.append_nil]
      refine .still hentry ?_
      rw [hlate, left, if_pos hnil, List.map_nil, List.append_nil]
      exact hstill
    · -- the last write lands at the end of the file
      rw [left, if_neg hnil, List.map_singleton] at hlate ⊢
      have hcontent : overwrite (disk.files.data file.inode) file.offset
          (l.result.landed file.queued) =
          disk.files.data file.inode ++ l.result.landed file.queued := by
        rw [← hoffset, overwrite_length]
      simp only [← hcontent]
      refine Settles.awaits ?_ hlate hstill (fun _ he ↦ absurd he List.not_mem_nil) hlast
      exact hentry

/-- Pieces that are written to a file in which nothing else lands. -/
theorem settles_writePieces (env : DiskEnv) (i j : Nat) (file : OpenFile P) (disk : Disk P)
    (pieces : List Bytes) (hstill : IsStill env (disk.lateIn file.inode))
    (hentry : disk.files.entry file.place = some file.inode ∨ disk.files.entry file.place = none)
    (hoffset : (disk.files.data file.inode).length = file.offset) (hfailed : file.failed = false) :
    Settles env (file.writePieces env i j disk pieces) file.place
      (if anyRemoves env i file.queued j pieces = true ∨ disk.files.entry file.place = none then none
        else some (disk.files.data file.inode ++ landedPieces env i file.queued j pieces)) := by
  induction pieces generalizing j file disk with
  | nil =>
    rw [anyRemoves, writePieces]
    rcases hentry with hentry | hentry
    · rw [if_neg (by simp [hentry])]
      exact settles_left env i j file disk hstill hentry hoffset
    · rw [if_pos (.inr hentry)]
      exact .absent hentry
  | cons bytes rest ih =>
    -- writes of other fields land, then the one before, and the next is queued or the file goes
    rw [writePieces]
    generalize hdisk₁ : disk.land (env.due · i (j + 1)) = disk₁
    generalize hlanded : (env.write i j).landed file.queued = landed
    have hdata₁ : disk₁.files.data file.inode = disk.files.data file.inode := by
      rw [← hdisk₁, Disk.data_land, Disk.landsIn_of_not_due _ (hstill.not_due (isPart_due i (j + 1)))]
    have hentry₁ : disk₁.files.entry = disk.files.entry := by rw [← hdisk₁, Disk.entry_land]
    have hstill₁ : IsStill env (disk₁.lateIn file.inode) := by
      rw [← hdisk₁, Disk.lateIn_land]
      exact hstill.filter _
    have hdata₂ : (file.land (env.write i j) disk₁.files).1.data file.inode =
        disk.files.data file.inode ++ landed := by
      rw [data_land_self, hdata₁, hlanded, ← hoffset, overwrite_length]
    have hfailed₂ : (file.land (env.write i j) disk₁.files).2.failed =
        decide (landed.length < file.queued.length) := by
      change (file.failed || decide (((env.write i j).landed file.queued).length < _)) = _
      rw [hfailed, hlanded, Bool.false_or]
    generalize hfile₂ : file.land (env.write i j) disk₁.files = landing at hdata₂ hfailed₂
    have hplace₂ : landing.2.place = file.place := by rw [← hfile₂, place_land]
    have hinode₂ : landing.2.inode = file.inode := by rw [← hfile₂, inode_land]
    have hqueued₂ : landing.2.queued = [] := by rw [← hfile₂, queued_land]
    have hentry₂ : landing.1.entry = disk.files.entry := by rw [← hfile₂, entry_land, hentry₁]
    have hoffset₂ : landing.2.offset = file.offset + landed.length := by
      rw [← hfile₂, offset_land, hlanded]
    have hentry₃ := landing.2.entry_writeAll (env.removes i j) landing.1 bytes file.place
    rw [hplace₂, hentry₂, hfailed₂] at hentry₃
    have hrec := ih (j + 1) (landing.2.writeAll (env.removes i j) landing.1 bytes).2
      { disk₁ with files := (landing.2.writeAll (env.removes i j) landing.1 bytes).1 }
      (by rw [inode_writeAll, hinode₂]; exact hstill₁)
      (by
        rw [place_writeAll, hplace₂, inode_writeAll, hinode₂]
        change (writeAll _ _ _ _).1.entry _ = _ ∨ (writeAll _ _ _ _).1.entry _ = _
        rw [hentry₃]
        split
        · exact .inr rfl
        · exact hentry)
      (by
        rw [inode_writeAll, hinode₂, offset_writeAll, hoffset₂]
        change ((writeAll _ _ _ _).1.data _).length = _
        rw [data_writeAll, hdata₂, List.length_append, hoffset])
      (failed_writeAll _ _ _ _)
    rw [place_writeAll, hplace₂, queued_writeAll _ _ _ _ hqueued₂, hfailed₂, inode_writeAll,
      hinode₂] at hrec
    simp only [data_writeAll, hdata₂, hentry₃, List.append_assoc, decide_eq_true_eq] at hrec
    simp only [anyRemoves, landedPieces, hlanded, decide_eq_true_eq]
    convert hrec using 2
    simp only [decide_eq_true_eq, Bool.or_eq_true, Bool.and_eq_true]
    by_cases hremoved : landed.length < file.queued.length ∧ env.removes i j = true
    · simp [hremoved]
    · simp [hremoved]

end OpenFile

/-! ## 4. The loop -/

section Loop

variable {env : DiskEnv}

/-- What the last write of the field `k` does is done when the field `i` opens its file, or not
before the answer is sent. -/
def DiskEnv.Spares (env : DiskEnv) (k i : Nat) : Prop :=
  env.last k = none ∨ (env.due k i 0).isSome = true

/-- The writes that are under way go to files that exist or have been removed. -/
def IsAllocated (disk : Disk P) : Prop := ∀ e ∈ disk.late, e.2.inode < disk.files.next

/-- What is under way in the file at the place spares the field `k`. -/
def SparedAt (env : DiskEnv) (p : P) (k : Nat) (disk : Disk P) : Prop :=
  ∀ e ∈ disk.late, disk.files.entry p = some e.2.inode → env.Spares e.1 k

omit [DecidableEq P] in
theorem SparedAt.land {disk : Disk P} {p : P} {k : Nat} (h : SparedAt env p k disk)
    (due : Nat → Option WriteResult) : SparedAt env p k (disk.land due) := by
  intro e he hin
  rw [Disk.entry_land] at hin
  exact h e ((Disk.mem_late_land due disk).mp he).1 hin

omit [DecidableEq P] in
theorem SparedAt.elsewhere {disk disk' : Disk P} {p : P} {k : Nat} (h : SparedAt env p k disk)
    (helse : Disk.Elsewhere p disk disk') : SparedAt env p k disk' := by
  intro e he hin
  have hentry := helse.entry ▸ hin
  -- the file has the same writes under way
  have hmem : e ∈ disk'.lateIn e.2.inode := (Disk.mem_lateIn _).mpr ⟨he, rfl⟩
  rw [helse.late _ hentry] at hmem
  exact h e ((Disk.mem_lateIn _).mp hmem).1 hentry

omit [DecidableEq P] in
theorem isAllocated_land {disk : Disk P} (h : IsAllocated disk) (due : Nat → Option WriteResult) :
    IsAllocated (disk.land due) := by
  intro e he
  rw [Disk.next_land]
  exact h e ((Disk.mem_late_land due disk).mp he).1

theorem OpenFile.writePieces_spec (env : DiskEnv) (i j : Nat) (file : OpenFile P) (disk : Disk P)
    (pieces : List Bytes) :
    (∀ e ∈ (file.writePieces env i j disk pieces).late,
      e ∈ disk.late ∨ e.1 = i ∧ e.2.inode = file.inode) ∧
    (file.writePieces env i j disk pieces).files.next = disk.files.next ∧
    ∀ q n, (file.writePieces env i j disk pieces).files.entry q = some n →
      disk.files.entry q = some n := by
  induction pieces generalizing j file disk with
  | nil =>
    refine ⟨fun e he ↦ ?_, rfl, fun _ _ h ↦ h⟩
    rcases List.mem_append.mp he with he | he
    · exact .inl he
    · obtain ⟨w, hw, rfl⟩ := List.mem_map.mp he
      rw [(file.mem_left.mp hw).2]
      exact .inr ⟨rfl, rfl⟩
  | cons bytes rest ih =>
    rw [writePieces]
    obtain ⟨hlate, hnext, hentry⟩ := ih (j + 1) ((file.land (env.write i j)
      (disk.land (env.due · i (j + 1))).files).2.writeAll (env.removes i j)
        (file.land (env.write i j) (disk.land (env.due · i (j + 1))).files).1 bytes).2
      { disk.land (env.due · i (j + 1)) with files := ((file.land (env.write i j)
          (disk.land (env.due · i (j + 1))).files).2.writeAll (env.removes i j)
            (file.land (env.write i j) (disk.land (env.due · i (j + 1))).files).1 bytes).1 }
    refine ⟨fun e he ↦ ?_, ?_, fun q n h ↦ ?_⟩
    · rcases hlate e he with he | he
      · exact .inl ((Disk.mem_late_land _ disk).mp he).1
      · rw [inode_writeAll, inode_land] at he
        exact .inr he
    · rw [hnext]
      change (writeAll _ _ _ _).1.next = _
      rw [next_writeAll, next_land, Disk.next_land]
    · have hwritten := entry_of_writeAll (hentry q n h)
      rwa [entry_land, Disk.entry_land] at hwritten

/-- A turn that succeeds passes over its field, or leaves one write under way, in the file it has
opened. -/
theorem receivePart_late {i : Nat} {disk disk' : Disk P} {part : Part}
    (h : receivePart root place env i disk part false = (disk', .ok ()))
    (halloc : IsAllocated disk) :
    IsAllocated disk' ∧ ∀ p k, part.file root place = some p → env.Spares i k →
      SparedAt env p k disk → SparedAt env p k disk' := by
  have halloc₀ := isAllocated_land halloc (env.due · i 0)
  rcases receivePart_cases root place h with
    ⟨hname, rfl⟩ | ⟨name, path, fs₁, file, hname, hne, hpath, hopen, rfl⟩
  · refine ⟨halloc₀, fun p k hfile ↦ ?_⟩
    rw [Part.file_of_empty root place hname] at hfile
    cases hfile
  · obtain ⟨hlate, hnext, hentry⟩ := file.writePieces_spec env i 0
      ⟨fs₁, (disk.land (env.due · i 0)).late⟩ part.written
    rcases openChunk_cases place hopen with ⟨hnone, -⟩ | ⟨inode, hfile, hcreated⟩
    · cases hnone
    · have hfile := Option.some.inj hfile
      constructor
      · intro e he
        rw [hnext]
        rcases hlate e he with he | he
        · exact (halloc₀ e he).trans_le hcreated.next_le
        · rw [he.2, hfile]
          exact fs₁.entry_lt _ inode hcreated.entry_self
      · intro p k hp hspares hspared e he hin
        rw [Part.file_of_name root place hname hne hpath, Option.some.injEq] at hp
        rcases hlate e he with he | he
        · have hself := hcreated.entry_self
          rw [hp, hentry p _ hin, Option.some.injEq] at hself
          -- a new inode has no writes under way
          rcases hcreated.inode with hsame | ⟨-, hnew⟩
          · rw [hp, ← hself, Disk.entry_land] at hsame
            exact hspared e ((Disk.mem_late_land _ disk).mp he).1 hsame
          · have hlt := halloc₀ e he
            omega
        · rw [he.1]
          exact hspares

omit [DecidableEq P] in
/-- When the file is opened, what still lands in it has landed. -/
theorem isStill_of_sparedAt {disk : Disk P} {p : P} {k n : Nat} (h : SparedAt env p k disk)
    (hn : disk.files.entry p = some n) :
    IsStill env ((disk.land (env.due · k 0)).lateIn n) := by
  intro e he
  rw [Disk.lateIn_land, List.mem_filter, Disk.mem_lateIn, Option.isNone_iff_eq_none] at he
  rcases h e he.1.1 (he.1.2 ▸ hn) with hlast | hdue
  · exact hlast
  · rw [he.2] at hdue
    cases hdue

/-- The last field of a file decides what it will hold. -/
theorem settles_receivePart {k : Nat} {p : P} {disk disk' : Disk P} {part : Part}
    (h : receivePart root place env k disk part false = (disk', .ok ()))
    (hp : part.file root place = some p) (halloc : IsAllocated disk)
    (hspared : SparedAt env p k disk) :
    Settles env disk' p (if OpenFile.anyRemoves env k [] 0 part.written = true then none
      else some (OpenFile.landedPieces env k [] 0 part.written)) := by
  rcases receivePart_cases root place h with
    ⟨hname, -⟩ | ⟨name, path, fs₁, file, hname, hne, hpath, hopen, rfl⟩
  · rw [Part.file_of_empty root place hname] at hp
    cases hp
  · rw [Part.file_of_name root place hname hne hpath, Option.some.injEq] at hp
    rcases openChunk_cases place hopen with ⟨hnone, -⟩ | ⟨inode, hfile, hcreated⟩
    · cases hnone
    · rw [Option.some.inj hfile, hp] at *
      have hstill : IsStill env ((disk.land (env.due · k 0)).lateIn inode) := by
        rcases hcreated.inode with hsame | ⟨-, hnew⟩
        · rw [Disk.entry_land] at hsame
          exact isStill_of_sparedAt hspared hsame
        · -- nothing is under way in a file that is new
          intro e he
          have hlt := isAllocated_land halloc _ e ((Disk.mem_lateIn _).mp he).1
          rw [((Disk.mem_lateIn _).mp he).2] at hlt
          omega
      have hsettles := OpenFile.settles_writePieces env k 0 ⟨p, inode, 0, [], false⟩
        ⟨fs₁, (disk.land (env.due · k 0)).late⟩ part.written hstill (.inl hcreated.entry_self)
        (by simp [hcreated.data_self]) rfl
      simpa [hcreated.entry_self, hcreated.data_self] using hsettles

theorem receiveParts_read_of_settles {p : P} {content : Option Bytes} {parts : List Part}
    {ending : Ending} {i : Nat} {disk disk' : Disk P}
    (hrun : receiveParts root place env i disk parts ending = (disk', .ok ()))
    (hparts : ∀ part ∈ parts, part.file root place ≠ some p)
    (h : Settles env disk p content) : disk'.files.read p = content := by
  induction parts generalizing i disk with
  | nil =>
    -- the loop goes on past a field that is cut off only where its name is empty
    have hend : disk' = disk.land env.inTime ∨
        disk' = (disk.land (env.due · i 0)).land env.inTime := by
      unfold receiveParts at hrun
      split at hrun
      · split at hrun
        · next hreceive =>
          cases hrun
          rw [receivePart_cut root place hreceive]
          exact .inr rfl
        · next hfailure =>
          rw [hrun] at hfailure
          cases hfailure _ rfl
      · cases hrun
        exact .inl rfl
      · next heq => cases heq
    rcases hend with rfl | rfl
    · exact (h.land isPart_inTime).read_of_still (isStill_inTime disk)
    · exact ((h.land (isPart_due i 0)).land isPart_inTime).read_of_still (isStill_inTime _)
  | cons part rest ih =>
    rw [List.forall_mem_cons] at hparts
    rw [receiveParts] at hrun
    split at hrun
    · next disk₁ hreceive =>
      have hturn := h.receivePart root place (i := i) false hparts.1
      rw [hreceive] at hturn
      exact ih hrun hparts.2 hturn
    · next hfailure =>
      rw [hrun] at hfailure
      cases hfailure _ rfl

/-- The loop, when what is written to a file before its last field spares that field. -/
theorem receiveParts_read {p : P} {k : Nat} {last : Part} {parts : List Part} {ending : Ending}
    {i : Nat} {disk disk' : Disk P}
    (hrun : receiveParts root place env i disk parts ending = (disk', .ok ()))
    (hlast : lastPart root place p i parts = some (k, last)) (halloc : IsAllocated disk)
    (hspared : SparedAt env p k disk)
    (hspares : ∀ j part, parts[j]? = some part → part.file root place = some p → i + j < k →
      env.Spares (i + j) k) :
    disk'.files.read p = some last.pieces.flatten ↔
      OpenFile.wroteWhole env k [] 0 last.written = true := by
  induction parts generalizing i disk with
  | nil => cases hlast
  | cons part rest ih =>
    rw [receiveParts] at hrun
    split at hrun
    · next disk₁ hreceive =>
      have hlate := receivePart_late root place hreceive halloc
      rw [lastPart] at hlast
      rcases Option.or_eq_some_iff.mp hlast with hlater | ⟨hnone, hself⟩
      · -- a later field has the file: this one has to spare it
        have hik := lt_of_lastPart root place hlater
        refine ih hrun hlater hlate.1 ?_ ?_
        · by_cases hp : part.file root place = some p
          · exact hlate.2 p k hp (hspares 0 part rfl hp hik) hspared
          · -- the turn is for another file
            have hkept : SparedAt env p k (receivePart root place env i disk part false).1 :=
              receivePart_preserves root place (fun _ j h ↦ h.land (env.due · i j))
                (fun _ _ helse h ↦ h.elsewhere helse) false hp hspared
            rwa [hreceive] at hkept
        · intro j later hj hfile hlt
          have hshift := hspares (j + 1) later hj hfile (by omega)
          rwa [Nat.add_assoc, Nat.add_comm 1 j]
      · split at hself
        · next hp =>
          -- this is the last field of its file, and the later ones only let its last write land
          cases hself
          have hsettles := settles_receivePart root place hreceive hp halloc hspared
          rw [receiveParts_read_of_settles root place hrun
            (lastPart_eq_none root place hnone) hsettles, OpenFile.wroteWhole_iff, List.nil_append,
            Part.flatten_written]
          split
          · next hremoves => simp [hremoves]
          · next hremoves => simp [hremoves]
        · cases hself
    · next hfailure =>
      rw [hrun] at hfailure
      cases hfailure _ rfl

end Loop

/-! ## 5. Stored and kept -/

/-- The chunk is in the store under its name, with exactly these bytes. -/
def IsStored (fs : Files P) (name : Text) (content : Bytes) : Prop :=
  ∃ path, (ChunkId.filePath root name : Outcome ChunkError _) = .ok path ∧
    fs.read (place path) = some content

/-- The last of the fields that arrive whole and belong to the same file carries the same bytes
and is written whole before the answer; or there is none, and the store has the bytes from
before. -/
def IsKept (env : DiskEnv) (parts : List Part) (fs : Files P) (name : Text) (content : Bytes) :
    Prop :=
  ∃ path, (ChunkId.filePath root name : Outcome ChunkError _) = .ok path ∧
    match lastPart root place (place path) 0 parts with
    | some (k, part) =>
      part.pieces.flatten = content ∧ OpenFile.wroteWhole env k [] 0 part.written = true
    | none => fs.read (place path) = some content

/-- What is written to a file before the last of its fields has landed when that field opens it, or
lands after the answer. -/
def IsOrderly (env : DiskEnv) (parts : List Part) : Prop :=
  ∀ p k last, lastPart root place p 0 parts = some (k, last) →
    ∀ j part, parts[j]? = some part → part.file root place = some p → j < k → env.Spares j k

/-- Fields that all have files of their own are orderly. -/
theorem isOrderly_of_distinct (env : DiskEnv) {parts : List Part}
    (h : parts.Pairwise fun a b ↦ a.file root place ≠ b.file root place) :
    IsOrderly root place env parts := by
  intro p k last hlast j part hj hfile hlt
  obtain ⟨hk, hp⟩ := getElem?_of_lastPart root place hlast
  rw [Nat.sub_zero] at hk
  obtain ⟨hjlt, hjeq⟩ := List.getElem?_eq_some_iff.mp hj
  obtain ⟨hklt, hkeq⟩ := List.getElem?_eq_some_iff.mp hk
  have hne := List.pairwise_iff_getElem.mp h j k hjlt hklt hlt
  rw [hjeq, hkeq, hfile, hp] at hne
  exact absurd rfl hne

/-- Of a body that is read to its end, on a disk that does not fail and is done with every write in
time, every field is kept, provided fields of one file carry the same bytes. -/
theorem isKept_of_complete {fields : List Field} {d : Delivery} (hcut : IsCut fields d)
    (hcomplete : d.ending = .complete) {env : DiskEnv} (hwrite : ∀ i j, env.write i j = .ok)
    (hlast : ∀ k, ∃ l, env.last k = some l ∧ l.result = .ok)
    (hagree : ∀ a ∈ d.parts, ∀ b ∈ d.parts, a.file root place = b.file root place →
      a.pieces.flatten = b.pieces.flatten)
    (fs : Files P) {field : Field} (hfield : field ∈ fields) {name : Text} {path : Path Name}
    (hname : field.name = some name) (hne : name ≠ [])
    (hpath : (ChunkId.filePath root name : Outcome ChunkError _) = .ok path) :
    IsKept root place env d.parts fs name field.content := by
  have hall : d.parts.map Part.field = fields :=
    hcut.parts.eq_of_length (by rw [List.length_map, hcut.complete hcomplete])
  rw [← hall] at hfield
  obtain ⟨part, hpart, rfl⟩ := List.mem_map.mp hfield
  have hfile : part.file root place = some (place path) :=
    Part.file_of_name root place hname hne hpath
  refine ⟨path, hpath, ?_⟩
  split
  · next k last hk =>
    have hspec := lastPart_eq_some root place hk
    exact ⟨hagree last hspec.1 part hpart (by rw [hspec.2, hfile]),
      OpenFile.wroteWhole_of_ok (hwrite k) (hlast k) [] 0 last.written⟩
  · next hnone => exact absurd hfile (lastPart_eq_none root place hnone part hpart)

end Handler

/-! ## 6. The parser on two bodies -/

/-- The parser as it behaves on one body. -/
def readUpTo (arrived : Bytes) (d : Delivery) : Text → Body → Delivery :=
  fun _ body ↦ if body.delivered = arrived then d else ⟨[], .inHeaders⟩

def fieldsFrom (arrived : Bytes) (fields : List Field) : Text → Bytes → List Field :=
  fun _ sent ↦ if arrived <+: sent then fields else []

theorem parsesFormData_readUpTo {fields : List Field} {d : Delivery} (hcut : IsCut fields d)
    (arrived : Bytes) : ParsesFormData (fieldsFrom arrived fields) (readUpTo arrived d) := by
  intro boundary sent body hbody
  unfold readUpTo fieldsFrom
  by_cases hall : body.delivered = arrived
  · rw [if_pos hall, if_pos (hall ▸ hbody)]
    exact hcut
  · rw [if_neg hall]
    exact ⟨List.nil_prefix, (by intro h; cases h), (by intro _ h; cases h)⟩

def uploadDir : Path Name := parsePath "/upload".toList

def twoFields : List Field := [⟨some "aa".toList, [120]⟩, ⟨some "bb".toList, [121]⟩]

def twoFieldsBody : Bytes :=
  toUtf8 ("--b\r\nContent-Disposition: form-data; name=\"aa\"\r\n\r\nx\r\n" ++
    "--b\r\nContent-Disposition: form-data; name=\"bb\"\r\n\r\ny\r\n--b--\r\n").toList

/-- The body ends in the headers of the second field. -/
def cutBody : Bytes :=
  toUtf8 ("--b\r\nContent-Disposition: form-data; name=\"aa\"\r\n\r\nx\r\n" ++
    "--b\r\nContent-Disposition: form-d").toList

/-- A disk that does not fail, and is done with the last write of a field before the next field. -/
def soundDisk : DiskEnv where
  create _ := .none
  write _ _ := .ok
  removes _ _ := false
  removeFails _ := false
  last k := some ⟨k + 1, 0, .ok⟩

def uploadBody (multer : Text → Body → Delivery) (body : Bytes) :
    Disk (Path Name) × Outcome ChunkError Unit :=
  uploadChunks uploadDir id (fun _ ↦ some ['b']) multer soundDisk multipartFormData [some body]
    ⟨.empty, []⟩

def wholeDelivery : Delivery :=
  ⟨[⟨some "aa".toList, [[120]]⟩, ⟨some "bb".toList, [[121]]⟩], .complete⟩

def cutDelivery : Delivery := ⟨[⟨some "aa".toList, [[120]]⟩], .inHeaders⟩

theorem isCut_whole : IsCut twoFields wholeDelivery :=
  ⟨by decide, fun _ ↦ rfl, (by intro _ h; cases h)⟩

theorem isCut_cut : IsCut twoFields cutDelivery :=
  ⟨by decide, (by intro h; cases h), (by intro _ h; cases h)⟩

/-! ## 7. Accepted uploads -/

section Upload

variable {P : Type} [DecidableEq P] (root : Path Name) (place : Path Name → P)

variable {env : DiskEnv} {parts : List Part} {ending : Ending} {fs : Files P} {disk' : Disk P}
  {name : Text} {content : Bytes}

/-- What a file holds after the loop. -/
theorem read_iff_of_isOrderly
    (hrun : receiveParts root place env 0 ⟨fs, []⟩ parts ending = (disk', .ok ()))
    (horderly : IsOrderly root place env parts) (p : P) :
    match lastPart root place p 0 parts with
    | some (k, part) => disk'.files.read p = some part.pieces.flatten ↔
        OpenFile.wroteWhole env k [] 0 part.written = true
    | none => disk'.files.read p = fs.read p := by
  split
  · next k part hlast =>
    refine receiveParts_read root place hrun hlast (fun _ he ↦ absurd he List.not_mem_nil)
      (fun _ he ↦ absurd he List.not_mem_nil) fun j part hj hfile hlt ↦ ?_
    rw [Nat.zero_add] at hlt ⊢
    exact horderly p k _ hlast j part hj hfile hlt
  · next hnone =>
    refine receiveParts_read_of_settles root place hrun (lastPart_eq_none root place hnone) ?_
    cases hp : fs.entry p with
    | none =>
      rw [Files.read, hp]
      exact .absent hp
    | some n =>
      rw [Files.read, hp]
      exact .still hp fun _ he ↦ absurd he List.not_mem_nil

theorem isStored_of_isKept
    (hrun : receiveParts root place env 0 ⟨fs, []⟩ parts ending = (disk', .ok ()))
    (horderly : IsOrderly root place env parts)
    (hkept : IsKept root place env parts fs name content) :
    IsStored root place disk'.files name content := by
  obtain ⟨path, hpath, hlast⟩ := hkept
  refine ⟨path, hpath, ?_⟩
  have hread := read_iff_of_isOrderly root place hrun horderly (place path)
  split at hlast
  · next k part hpart =>
    rw [hpart] at hread
    rw [← hlast.1]
    exact hread.mpr hlast.2
  · next hnone =>
    rw [hnone] at hread
    exact Eq.trans hread hlast

/-- When all fields that arrive are stored, the one that decides about a file is. -/
theorem isKept_of_isStored
    (hrun : receiveParts root place env 0 ⟨fs, []⟩ parts ending = (disk', .ok ()))
    (horderly : IsOrderly root place env parts)
    (hall : ∀ part ∈ parts, ∀ name, part.name = some name → name ≠ [] →
      IsStored root place disk'.files name part.pieces.flatten)
    (hstored : IsStored root place disk'.files name content) :
    IsKept root place env parts fs name content := by
  obtain ⟨path, hpath, hcontent⟩ := hstored
  refine ⟨path, hpath, ?_⟩
  have hread := read_iff_of_isOrderly root place hrun horderly (place path)
  split
  · next k part hpart =>
    rw [hpart] at hread
    have hspec := lastPart_eq_some root place hpart
    obtain ⟨name', path', hname', hne', hpath', hplace⟩ := Part.file_eq_some root place hspec.2
    obtain ⟨path'', hpath'', hcontent'⟩ := hall part hspec.1 name' hname' hne'
    -- both names lead to the file at `place path`, which holds one content
    rw [hpath', Outcome.ok.injEq] at hpath''
    rw [← hpath'', hplace] at hcontent'
    have heq : part.pieces.flatten = content := by
      rw [hcontent, Option.some.injEq] at hcontent'
      exact hcontent'.symm
    exact ⟨heq, hread.mp hcontent'⟩
  · next hnone =>
    rw [hnone] at hread
    exact Eq.trans (Eq.symm hread) hcontent

variable (parseBoundary : Text → Option Text) {multer : Text → Body → Delivery}
  {fieldsOf : Text → Bytes → List Field}

theorem receiveUpload_ok {contentType boundary : Text} {upload : Body} {disk : Disk P}
    (hboundary : parseBoundary contentType = some boundary)
    (h : (receiveUpload root place parseBoundary multer env contentType upload disk).2 = .ok ()) :
    receiveParts root place env 0 disk
        (multer boundary (cappedDataStream dataFormLimit 0 upload)).parts
        (multer boundary (cappedDataStream dataFormLimit 0 upload)).ending =
      ((receiveUpload root place parseBoundary multer env contentType upload disk).1, .ok ()) := by
  unfold receiveUpload at h ⊢
  split at h
  · next hformat =>
    rw [if_pos hformat]
    simp only [hboundary] at h ⊢
    rw [← h]
  · cases h

/-- An accepted upload is stored, when it is answered, if and only if all its named fields are
kept. -/
theorem uploadChunks_stored_iff (hmulter : ParsesFormData fieldsOf multer) (env : DiskEnv)
    {contentType boundary : Text} (hboundary : parseBoundary contentType = some boundary)
    {upload : Body} {sent : Bytes} (hsent : upload.delivered <+: sent) (fs : Files P)
    (horderly : IsOrderly root place env
      (multer boundary (cappedDataStream dataFormLimit 0 upload)).parts)
    (hsuccess :
      (uploadChunks root place parseBoundary multer env contentType upload ⟨fs, []⟩).2 = .ok ()) :
    (∀ field ∈ fieldsOf boundary sent, ∀ name, field.name = some name → name ≠ [] →
      IsStored root place
        (uploadChunks root place parseBoundary multer env contentType upload ⟨fs, []⟩).1.files name
        field.content) ↔
    ∀ field ∈ fieldsOf boundary sent, ∀ name, field.name = some name → name ≠ [] →
      IsKept root place env (multer boundary (cappedDataStream dataFormLimit 0 upload)).parts fs
        name field.content := by
  have hrun := receiveUpload_ok root place parseBoundary hboundary hsuccess
  have hcut := hmulter boundary sent (cappedDataStream dataFormLimit 0 upload) (by
    rw [delivered_cappedDataStream]
    exact (List.take_prefix _ _).trans hsent)
  constructor
  · intro hstored field hfield name hname hne
    apply isKept_of_isStored root place hrun horderly ?_ (hstored field hfield name hname hne)
    intro part hpart
    exact hstored part.field (hcut.parts.subset (List.mem_map_of_mem hpart))
  · intro hkept field hfield name hname hne
    exact isStored_of_isKept root place hrun horderly (hkept field hfield name hname hne)

end Upload

theorem readUpTo_whole {body : Bytes} (hsize : body.length ≤ dataFormLimit) (d : Delivery)
    (boundary : Text) :
    readUpTo body d boundary (cappedDataStream dataFormLimit 0 [some body]) = d := by
  apply if_pos
  rw [delivered_cappedDataStream, Nat.sub_zero, Body.delivered, Body.delivered, List.append_nil,
    List.take_of_length_le hsize]

theorem uploadBody_readUpTo {body : Bytes} (hsize : body.length ≤ dataFormLimit) (d : Delivery) :
    uploadBody (readUpTo body d) body =
      receiveParts uploadDir id soundDisk 0 ⟨.empty, []⟩ d.parts d.ending := by
  rw [uploadBody, uploadChunks, receiveUpload, if_pos (List.isPrefixOf_iff_prefix.mpr List.prefix_rfl)]
  simp only [readUpTo_whole hsize]

theorem length_twoFieldsBody : twoFieldsBody.length ≤ dataFormLimit := by
  rw [twoFieldsBody, String.toList_append, String.toList_ofList, String.toList_ofList]
  decide

theorem cutBody_prefix_twoFieldsBody : cutBody <+: twoFieldsBody := by
  rw [cutBody, twoFieldsBody, String.toList_append, String.toList_append, toUtf8_append,
    toUtf8_append, List.prefix_append_right_inj, String.toList_ofList, String.toList_ofList]
  decide

theorem uploadChunks_stored_twoFields :
    (uploadBody (readUpTo twoFieldsBody wholeDelivery) twoFieldsBody).2 = .ok () ∧
    ∀ field ∈ fieldsFrom twoFieldsBody twoFields ['b'] twoFieldsBody, ∀ name,
      field.name = some name → name ≠ [] →
      IsStored uploadDir id (uploadBody (readUpTo twoFieldsBody wholeDelivery) twoFieldsBody).1.files
        name field.content := by
  have hsuccess : (uploadBody (readUpTo twoFieldsBody wholeDelivery) twoFieldsBody).2 = .ok () := by
    rw [uploadBody_readUpTo length_twoFieldsBody]
    decide
  have hsent : Body.delivered [some twoFieldsBody] <+: twoFieldsBody := by
    simp only [Body.delivered, List.append_nil, List.prefix_rfl]
  have horderly : IsOrderly uploadDir id soundDisk (readUpTo twoFieldsBody wholeDelivery ['b']
      (cappedDataStream dataFormLimit 0 [some twoFieldsBody])).parts := by
    rw [readUpTo_whole length_twoFieldsBody]
    exact isOrderly_of_distinct uploadDir id soundDisk (by decide)
  refine ⟨hsuccess, ?_⟩
  unfold uploadBody at hsuccess ⊢
  apply (uploadChunks_stored_iff uploadDir id (fun _ ↦ some ['b'])
    (parsesFormData_readUpTo isCut_whole twoFieldsBody) soundDisk rfl
    hsent .empty horderly hsuccess).mpr
  intro field hfield name hname hne
  have hfields : fieldsFrom twoFieldsBody twoFields ['b'] twoFieldsBody = twoFields :=
    if_pos List.prefix_rfl
  rw [readUpTo_whole length_twoFieldsBody]
  rw [hfields] at hfield
  have hid : Alphanumeric name := by
    have hall : ∀ f ∈ twoFields, Alphanumeric (f.name.getD []) := by decide
    have hf := hall field hfield
    rwa [hname] at hf
  obtain ⟨path, hpath, -⟩ := @ChunkId.filePath_of_alphanumeric ChunkError uploadDir name hid hne
  exact isKept_of_complete uploadDir id isCut_whole rfl (fun _ _ ↦ rfl) (fun _ ↦ ⟨_, rfl, rfl⟩)
    (by decide) .empty hfield hname hne hpath

theorem uploadChunks_success_not_stored :
    ParsesFormData (fieldsFrom cutBody twoFields) (readUpTo cutBody cutDelivery) ∧
    cutBody <+: twoFieldsBody ∧
    (uploadBody (readUpTo cutBody cutDelivery) cutBody).2 = .ok () ∧
    ¬ ∀ field ∈ fieldsFrom cutBody twoFields ['b'] twoFieldsBody, ∀ name,
      field.name = some name → name ≠ [] →
      IsStored uploadDir id (uploadBody (readUpTo cutBody cutDelivery) cutBody).1.files name
        field.content := by
  have hsize : cutBody.length ≤ dataFormLimit :=
    cutBody_prefix_twoFieldsBody.length_le.trans length_twoFieldsBody
  rw [uploadBody_readUpTo hsize]
  refine ⟨parsesFormData_readUpTo isCut_cut cutBody, cutBody_prefix_twoFieldsBody,
    by decide, ?_⟩
  intro hall
  have hfields : fieldsFrom cutBody twoFields ['b'] twoFieldsBody = twoFields :=
    if_pos cutBody_prefix_twoFieldsBody
  rw [hfields] at hall
  obtain ⟨path, hpath, hcontent⟩ := hall ⟨some "bb".toList, [121]⟩ (by decide) _ rfl (by decide)
  have hbb : (ChunkId.filePath uploadDir "bb".toList : Outcome ChunkError _) =
      .ok { absolute := true
            comps := ["upload", "b", "b", "bb"].map fun name ↦ .normal (toUtf8 name.toList)
            trailing := false } := by
    decide
  rw [hbb, Outcome.ok.injEq] at hpath
  have habsent : (receiveParts uploadDir id soundDisk 0 ⟨.empty, []⟩ cutDelivery.parts
      cutDelivery.ending).1.files.read path = none := by
    rw [← hpath]
    decide
  rw [id, habsent] at hcontent
  cases hcontent

-- A whole body is accepted, and its last bytes have not landed yet.
example :
    let r := receiveParts uploadDir id { soundDisk with last := fun _ ↦ none } 0 ⟨.empty, []⟩
      wholeDelivery.parts wholeDelivery.ending
    r.2 = .ok () ∧ r.1.files.read (parsePath "/upload/b/b/bb".toList) = some [] := by
  decide

end CooklangSync.Server
