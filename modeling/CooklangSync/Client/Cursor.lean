import CooklangSync.Client.Hashing
import CooklangSync.Client.Rows

/-!
# Cursor — the greatest jid and the work of a download pass

The next pass asks for the records past the greatest jid of the registry, so every record up to it
should have had its effect.  The rows are written record by record, in the order of the response,
and for a deleted record before its file is removed: what a pass that stops leaves undone is
described by the record it stops at (`applyRecords_cursorCovers_iff`), and it lies past every jid
when the ids ascend and no removal fails (`checkDownloadOnce_cursorCovers`).
-/

namespace CooklangSync.Client

open Theory Chunker

namespace Syncer

/-! ## 1. Plain responses -/

def placeOf (base : Place Name) (d : ResponseFileRecord) : Place Name :=
  (namesOf d.path).reverse ++ base

/-- The paths are relative paths of normal components, pairwise different, and no link stands at or
above their places. -/
structure PlainResponse (c : Chunker) (disk : Disk) (base : Place Name)
    (ds : List ResponseFileRecord) : Prop where
  spells : FileTree.Spells c.basePath base
  plain : ∀ d ∈ ds, PlainPath d.path (namesOf d.path) ∧ namesOf d.path ≠ []
  distinct : (ds.map fun d ↦ namesOf d.path).Nodup
  straight : ∀ d ∈ ds, disk.Straight (placeOf base d)

theorem PlainResponse.placeOf_ne {c : Chunker} {disk : Disk} {base : Place Name}
    {d : ResponseFileRecord} {ds : List ResponseFileRecord}
    (h : PlainResponse c disk base (d :: ds)) {e : ResponseFileRecord} (he : e ∈ ds) :
    placeOf base e ≠ placeOf base d := by
  intro heq
  have hnames : namesOf e.path = namesOf d.path :=
    List.reverse_injective (List.append_cancel_right heq)
  have hdistinct := h.distinct
  rw [List.map_cons, List.nodup_cons] at hdistinct
  exact hdistinct.1 (hnames ▸ List.mem_map_of_mem he)

theorem PlainResponse.tail {c : Chunker} {disk disk' : Disk} {base : Place Name}
    {d : ResponseFileRecord} {ds : List ResponseFileRecord}
    (h : PlainResponse c disk base (d :: ds))
    (hst : ∀ j, disk.Straight j → disk'.Straight j) : PlainResponse c disk' base ds where
  spells := h.spells
  plain := fun e he ↦ h.plain e (List.mem_cons_of_mem d he)
  distinct := (List.nodup_cons.mp h.distinct).2
  straight := fun e he ↦ hst _ (h.straight e (List.mem_cons_of_mem d he))

theorem placeOf_eq_cons (base : Place Name) {d : ResponseFileRecord} (h : namesOf d.path ≠ []) :
    ∃ n k, placeOf base d = n :: k := by
  cases hrev : (namesOf d.path).reverse with
  | nil => exact absurd (List.reverse_eq_nil_iff.mp hrev) h
  | cons n k => exact ⟨n, k ++ base, by rw [placeOf, hrev]; rfl⟩

/-! ## 2. One record -/

/-- The file at the place holds the record's chunks, or there is none for a deleted record. -/
def EffectAt (c : Chunker) (disk : Disk) (k : Place Name) (d : ResponseFileRecord) : Prop :=
  if d.deleted then disk.fileAt k = none
  else ∃ content, c.cachedContent (chunksOf d) = some content ∧ contentAt disk k = some content

theorem effectAt_congr {c : Chunker} {disk disk' : Disk} {k : Place Name}
    (h : disk'.fileAt k = disk.fileAt k) (d : ResponseFileRecord) :
    EffectAt c disk' k d ↔ EffectAt c disk k d := by
  rw [EffectAt, EffectAt, contentAt, contentAt, h]

/-- What a record whose processing fails still brings about: nothing new, unless its file was
opened and all its bytes have reached the disk, or there was no file to remove. -/
def AttemptEffect (c : Chunker) (env : RecordEnv) (disk : Disk) (k : Place Name)
    (d : ResponseFileRecord) : Prop :=
  if d.deleted then
    env.registryFails = false ∧ env.delete.removeFileFails = false ∨ EffectAt c disk k d
  else if (c.openForSave disk env.save d.path).2.isSome then
    c.Completes env.save 0 (chunksOf d) ∨
      c.cachedContent (chunksOf d) =
        some ((c.handedOver env.save 0 (chunksOf d)).take env.save.landed)
  else EffectAt c disk k d

-- A deleted record: the row comes first, and a failed removal changes nothing on disk.
theorem applyRecord_deleted {c : Chunker} {base : Place Name}
    (hbase : FileTree.Spells c.basePath base) {d : ResponseFileRecord} (hdel : d.deleted = true)
    (hplain : PlainPath d.path (namesOf d.path)) (hne : namesOf d.path ≠ []) (env : RecordEnv)
    (namespaceId : Int) (s : ClientState) (hc : s.chunker = c)
    (hst : s.disk.Straight (placeOf base d)) :
    (env.registryFails = true ∧ applyRecord env namespaceId s d = (s, .err .dbQueryError)) ∨
    (env.registryFails = false ∧ ∃ disk outcome,
      applyRecord env namespaceId s d =
        ({ s with
            registry := s.registry.delete [buildDeleteForm d.path env.now d.id namespaceId]
            disk := disk }, outcome) ∧
      SameExcept (placeOf base d) s.disk disk ∧
      (∀ target, disk.lookup (placeOf base d) ≠ some (.symlink target)) ∧
      ((outcome = .ok () ∧ disk.fileAt (placeOf base d) = none) ∨
        outcome ≠ .ok () ∧ disk = s.disk ∧ (env.delete.removeFileFails = true ∨
          disk.fileAt (placeOf base d) = none))) := by
  by_cases hfails : env.registryFails = true
  · exact .inl ⟨hfails, by rw [applyRecord, if_pos hdel, if_pos hfails]⟩
  · have hnolink := hst _ List.suffix_rfl
    refine .inr ⟨by simpa using hfails, ?_⟩
    rw [applyRecord, if_pos hdel, if_neg hfails]
    simp only [hc]
    have hexists : c.exists s.disk d.path = (s.disk.lookup (placeOf base d)).isSome :=
      s.disk.pathExists_of_straight (fullPath_spells hbase hplain) hst
    -- the row is there by now, whatever the removal does
    by_cases hthere : c.exists s.disk d.path = true
    · rw [if_pos hthere]
      refine ⟨_, _, rfl, ?_⟩
      rcases delete_cases hbase hplain hne s.disk hst env.delete with
        ⟨hfails, e, herr⟩ | hok
      · rw [herr]
        exact ⟨SameExcept.refl _ _, hnolink, .inr ⟨by simp, rfl, hfails⟩⟩
      · obtain ⟨disk, hok, -, hgone, hframe⟩ := hok
        rw [hok]
        refine ⟨?_, fun target ↦ ?_, .inl ⟨rfl, ?_⟩⟩
        · intro l hl node hnode
          rcases hframe l hl with heq | ⟨hdir, hnone, -⟩
          · rw [heq]
          · rw [hdir, hnone]
            simp [Ne.symm hnode]
        · rw [placeOf, hgone]
          simp
        · rw [FileTree.fileAt, placeOf, hgone]
    · rw [if_neg hthere]
      refine ⟨_, _, rfl, SameExcept.refl _ _, hnolink, .inl ⟨rfl, ?_⟩⟩
      rw [hexists] at hthere
      rw [FileTree.fileAt, Option.not_isSome_iff_eq_none.mp hthere]

/-- What the save of a live record brings about, whether it succeeds or fails. -/
theorem effectAt_save {c : Chunker} {base : Place Name}
    (hbase : FileTree.Spells c.basePath base) {d : ResponseFileRecord} (hdel : d.deleted = false)
    (hplain : PlainPath d.path (namesOf d.path)) (hne : namesOf d.path ≠ []) (env : RecordEnv)
    {disk disk' : Disk} (hst : disk.Straight (placeOf base d)) {outcome : Outcome SyncError Unit}
    (hsave : c.save disk env.save d.path (chunksOf d) = (outcome, disk')) :
    (outcome = .ok () → EffectAt c disk' (placeOf base d) d) ∧
      (EffectAt c disk' (placeOf base d) d ↔ AttemptEffect c env disk (placeOf base d) d) := by
  obtain ⟨n, k, hplace⟩ := placeOf_eq_cons base hne
  have hspells := fullPath_spells hbase hplain
  rw [show (namesOf d.path).reverse ++ base = n :: k from hplace] at hspells
  rw [hplace] at hst ⊢
  cases hopen : c.openForSave disk env.save d.path with
  | mk made place =>
    have hadded := c.openForSave_dirsAdded disk env.save d.path
    rw [hopen] at hadded
    cases place with
    | none =>
      rw [save_of_not_opened hopen (chunksOf d)] at hsave
      cases hsave
      rw [AttemptEffect, if_neg (by simp [hdel]), if_neg (by simp [hopen])]
      exact ⟨fun h ↦ absurd h (by simp), effectAt_congr (hadded.fileAt (n :: k)) d⟩
    | some place =>
      have hcreatable := (openForSave_some hopen).2
      have hat := creatable_place hspells hst hadded hcreatable
      rw [hat] at hopen hcreatable
      have hcontent : ∀ data : FileData,
          contentAt (made.put n k (.file data)) (n :: k) = some data.content := by
        intro data
        rw [contentAt, FileTree.fileAt, made.lookup_put_self (.file data)
          (FileTree.creatable_spec hcreatable).2.1 (FileTree.creatable_not_dir hcreatable)]
        rfl
      rw [AttemptEffect, if_neg (by simp [hdel]), if_pos (by rw [hopen]; rfl), EffectAt,
        if_neg (by simp [hdel])]
      by_cases hall : c.Completes env.save 0 (chunksOf d)
      · rw [save_of_completes hopen hall] at hsave
        cases hsave
        have heffect := handedOver_of_completes hall
        exact ⟨fun _ ↦ ⟨_, heffect, hcontent _⟩,
          fun _ ↦ .inl hall, fun _ ↦ ⟨_, heffect, hcontent _⟩⟩
      · -- the file was emptied: it has what reached the disk, which may be all the same
        obtain ⟨e, hstopped⟩ := save_of_interrupted hopen hall
        rw [hstopped] at hsave
        cases hsave
        refine ⟨fun h ↦ absurd h (by simp), ?_⟩
        constructor
        · rintro ⟨content, hcached, hcontent'⟩
          rw [hcontent] at hcontent'
          exact .inr (hcached.trans hcontent'.symm)
        · intro h
          exact ⟨_, h.resolve_left hall, hcontent _⟩

-- A live record: the row comes last, so a failure leaves the registry as it was.
theorem applyRecord_live {c : Chunker} {base : Place Name}
    (hbase : FileTree.Spells c.basePath base) {d : ResponseFileRecord} (hdel : d.deleted = false)
    (hplain : PlainPath d.path (namesOf d.path)) (hne : namesOf d.path ≠ []) (env : RecordEnv)
    (namespaceId : Int) (s : ClientState) (hc : s.chunker = c)
    (hst : s.disk.Straight (placeOf base d)) :
    ∃ disk, (SameExcept (placeOf base d) s.disk disk ∧
      ∀ target, disk.lookup (placeOf base d) ≠ some (.symlink target)) ∧
      ((∃ form, form.jid = some d.id ∧ form.path = d.path ∧ form.namespaceId = namespaceId ∧
        applyRecord env namespaceId s d =
          ({ s with registry := s.registry.create [form], disk := disk }, .ok ()) ∧
        EffectAt c disk (placeOf base d) d) ∨
      (∃ failure, failure ≠ .ok () ∧
        applyRecord env namespaceId s d = ({ s with disk := disk }, failure) ∧
        (EffectAt c disk (placeOf base d) d ↔
          AttemptEffect c env s.disk (placeOf base d) d))) := by
  obtain ⟨n, k, hplace⟩ := placeOf_eq_cons base hne
  have hspells := fullPath_spells hbase hplain
  rw [show (namesOf d.path).reverse ++ base = n :: k from hplace] at hspells
  have hframe := save_sameExcept hspells (hplace ▸ hst) env.save (chunksOf d)
  rw [← hplace] at hframe
  cases hsave : c.save s.disk env.save d.path (chunksOf d) with
  | mk outcome disk =>
    obtain ⟨hsaved, hattempt⟩ := effectAt_save hbase hdel hplain hne env hst hsave
    rw [hsave] at hframe
    refine ⟨disk, hframe, ?_⟩
    rw [← hc] at hsave
    rcases applyRecord_of_live hdel env namespaceId s hsave with
      ⟨hok, form, hjid, hpath, hns, hdone⟩ | ⟨failure, hfailure, hfailed⟩
    · exact .inl ⟨form, hjid, hpath, hns, hdone, hsaved hok⟩
    · exact .inr ⟨failure, hfailure, hfailed, hattempt⟩

/-- The jids of the rows a record leaves although its processing fails. -/
def rowBeforeFailure (env : RecordEnv) (d : ResponseFileRecord) : List Int :=
  if d.deleted = true ∧ env.registryFails = false then [d.id] else []

/-- Processing a record: no other file changes, and the record's row and effect are both there
unless it fails. -/
theorem applyRecord_spec {c : Chunker} {base : Place Name}
    (hbase : FileTree.Spells c.basePath base) {d : ResponseFileRecord}
    (hplain : PlainPath d.path (namesOf d.path)) (hne : namesOf d.path ≠ []) (env : RecordEnv)
    (namespaceId : Int) (s : ClientState) (hc : s.chunker = c)
    (hst : s.disk.Straight (placeOf base d)) :
    ∃ s' outcome, applyRecord env namespaceId s d = (s', outcome) ∧ s'.chunker = c ∧
      SameExcept (placeOf base d) s.disk s'.disk ∧
      (∀ target, s'.disk.lookup (placeOf base d) ≠ some (.symlink target)) ∧
      ((outcome = .ok () ∧ EffectAt c s'.disk (placeOf base d) d ∧
        s'.registry.jids namespaceId = s.registry.jids namespaceId ++ [d.id]) ∨
      (outcome ≠ .ok () ∧
        (EffectAt c s'.disk (placeOf base d) d ↔ AttemptEffect c env s.disk (placeOf base d) d) ∧
        s'.registry.jids namespaceId =
          s.registry.jids namespaceId ++ rowBeforeFailure env d)) := by
  cases hdel : d.deleted with
  | true =>
    have hattempt : AttemptEffect c env s.disk (placeOf base d) d ↔
        env.registryFails = false ∧ env.delete.removeFileFails = false ∨
          EffectAt c s.disk (placeOf base d) d := by
      rw [AttemptEffect, if_pos hdel]
    rcases applyRecord_deleted hbase hdel hplain hne env namespaceId s hc hst with
      ⟨hfails, happly⟩ | ⟨hfails, disk, outcome, happly, hframe, hlink, hend⟩
    · refine ⟨s, _, happly, hc, SameExcept.refl _ _, hst _ List.suffix_rfl, .inr ⟨by simp, ?_, ?_⟩⟩
      · rw [hattempt, hfails]
        simp
      · simp [rowBeforeFailure, hfails]
    · have hjids : (s.registry.delete [buildDeleteForm d.path env.now d.id namespaceId]).jids
          namespaceId = s.registry.jids namespaceId ++ [d.id] := by
        have hrow := s.registry.jids_insert
          (buildDeleteForm d.path env.now d.id namespaceId).withId (DeleteForm.id_withId _)
          namespaceId
        rw [Registry.delete_singleton]
        simpa [buildDeleteForm, DeleteForm.withId] using hrow
      refine ⟨_, outcome, happly, hc, hframe, hlink, ?_⟩
      rcases hend with ⟨hok, hgone⟩ | ⟨herr, hsame, hwhy⟩
      · exact .inl ⟨hok, by rw [EffectAt, if_pos hdel]; exact hgone, hjids⟩
      · refine .inr ⟨herr, ?_, ?_⟩
        · -- a removal fails because of its fault, or for want of a file
          rw [hattempt, hsame]
          refine ⟨.inr, fun h ↦ h.elim (fun hfine ↦ ?_) id⟩
          rw [EffectAt, if_pos hdel, ← hsame]
          exact hwhy.resolve_left (by simp [hfine.2])
        · rw [rowBeforeFailure, if_pos ⟨hdel, hfails⟩]
          exact hjids
  | false =>
    obtain ⟨disk, ⟨hframe, hlink⟩, hend⟩ :=
      applyRecord_live hbase hdel hplain hne env namespaceId s hc hst
    rcases hend with ⟨form, hjid, -, hns, happly, heffect⟩ | ⟨failure, hfail, happly, heffect⟩
    · refine ⟨_, _, happly, hc, hframe, hlink, .inl ⟨rfl, heffect, ?_⟩⟩
      have hrow := s.registry.jids_insert form.withId form.id_withId namespaceId
      rw [Registry.create_singleton]
      simpa [CreateForm.withId, hjid, hns] using hrow
    · refine ⟨_, _, happly, hc, hframe, hlink, .inr ⟨hfail, heffect, ?_⟩⟩
      simp [rowBeforeFailure, hdel]

/-! ## 3. The loop, up to the record it stops at -/

structure Stop where
  done : List ResponseFileRecord
  state : ClientState
  rest : List ResponseFileRecord

/-- The records carried out, the state after them, and the remaining records, the first of which
is the one that fails. -/
def stop (env : Nat → RecordEnv) (namespaceId : Int) :
    Nat → ClientState → List ResponseFileRecord → Stop
  | _, s, [] => ⟨[], s, []⟩
  | i, s, d :: ds =>
    match applyRecord (env i) namespaceId s d with
    | (s', .ok ()) =>
      let later := stop env namespaceId (i + 1) s' ds
      { later with done := d :: later.done }
    | _ => ⟨[], s, d :: ds⟩

/-- The jid of a row that the failing record has left. -/
def rowsBeforeStop (env : Nat → RecordEnv) (i : Nat) (st : Stop) : List Int :=
  match st.rest with
  | [] => []
  | d :: _ => rowBeforeFailure (env (i + st.done.length)) d

/-- What the loop leaves, in terms of the record it stops at. -/
structure LoopSpec (c : Chunker) (base : Place Name) (env : Nat → RecordEnv) (namespaceId : Int)
    (i : Nat) (s : ClientState) (ds : List ResponseFileRecord) (s' : ClientState) (st : Stop) :
    Prop where
  chunker : s'.chunker = c
  split : ds = st.done ++ st.rest
  jids : s'.registry.jids namespaceId =
    s.registry.jids namespaceId ++ st.done.map ResponseFileRecord.id ++ rowsBeforeStop env i st
  done : ∀ d ∈ st.done, EffectAt c s'.disk (placeOf base d) d
  head : ∀ d ∈ st.rest.head?, EffectAt c s'.disk (placeOf base d) d ↔
    AttemptEffect c (env (i + st.done.length)) st.state.disk (placeOf base d) d
  tail : ∀ d ∈ st.rest.tail, EffectAt c s'.disk (placeOf base d) d ↔
    EffectAt c s.disk (placeOf base d) d
  frame : ∀ k, k ∉ ds.map (placeOf base) → s'.disk.fileAt k = s.disk.fileAt k
  straight : ∀ j, s.disk.Straight j → s'.disk.Straight j

section LoopStep

variable {c : Chunker} {base : Place Name} {env : Nat → RecordEnv} {namespaceId : Int} {i : Nat}
  {s s₁ s' : ClientState} {d : ResponseFileRecord} {ds : List ResponseFileRecord} {st : Stop}

/-- A record that is carried out: the records after it leave its place alone. -/
theorem LoopSpec.cons (hrec : LoopSpec c base env namespaceId (i + 1) s₁ ds s' st)
    (hplain : PlainResponse c s.disk base (d :: ds))
    (hframe : SameExcept (placeOf base d) s.disk s₁.disk)
    (hlink : ∀ target, s₁.disk.lookup (placeOf base d) ≠ some (.symlink target))
    (heffect : EffectAt c s₁.disk (placeOf base d) d)
    (hjids : s₁.registry.jids namespaceId = s.registry.jids namespaceId ++ [d.id]) :
    LoopSpec c base env namespaceId i s (d :: ds) s' { st with done := d :: st.done } := by
  have hindex : ∀ l : List ResponseFileRecord, i + (d :: l).length = i + 1 + l.length := by
    intro l
    rw [List.length_cons]
    omega
  refine ⟨hrec.chunker, ?_, ?_, ?_, ?_, ?_, ?_,
    fun j h ↦ hrec.straight j (hframe.straight hlink h)⟩
  · rw [List.cons_append, ← hrec.split]
  · rw [hrec.jids, hjids, rowsBeforeStop, rowsBeforeStop]
    simp only [hindex, List.map_cons, List.append_assoc, List.cons_append, List.nil_append]
  · intro e he
    rcases List.mem_cons.mp he with rfl | he
    · refine (effectAt_congr (hrec.frame _ ?_) e).mpr heffect
      intro hmem
      obtain ⟨f, hf, heq⟩ := List.mem_map.mp hmem
      exact hplain.placeOf_ne hf heq
    · exact hrec.done e he
  · intro e he
    simp only [hindex]
    exact hrec.head e he
  · intro e he
    have hmem : e ∈ ds := by
      rw [hrec.split]
      exact List.mem_append_right _ (List.mem_of_mem_tail he)
    exact (hrec.tail e he).trans
      (effectAt_congr (hframe.fileAt (hplain.placeOf_ne hmem)) e)
  · intro k hk
    rw [List.map_cons, List.mem_cons, not_or] at hk
    exact (hrec.frame k hk.2).trans (hframe.fileAt hk.1)

/-- A record that fails ends the loop. -/
theorem LoopSpec.stopped (hc : s₁.chunker = c) (hplain : PlainResponse c s.disk base (d :: ds))
    (hframe : SameExcept (placeOf base d) s.disk s₁.disk)
    (hlink : ∀ target, s₁.disk.lookup (placeOf base d) ≠ some (.symlink target))
    (heffect : EffectAt c s₁.disk (placeOf base d) d ↔
      AttemptEffect c (env i) s.disk (placeOf base d) d)
    (hjids : s₁.registry.jids namespaceId =
      s.registry.jids namespaceId ++ rowBeforeFailure (env i) d) :
    LoopSpec c base env namespaceId i s (d :: ds) s₁ ⟨[], s, d :: ds⟩ := by
  refine ⟨hc, rfl, ?_, by simp, ?_, ?_, ?_, fun j h ↦ hframe.straight hlink h⟩
  · simpa [rowsBeforeStop] using hjids
  · intro e he
    obtain rfl : d = e := by simpa using he
    exact heffect
  · exact fun e he ↦ effectAt_congr (hframe.fileAt (hplain.placeOf_ne he)) e
  · intro k hk
    rw [List.map_cons, List.mem_cons, not_or] at hk
    exact hframe.fileAt hk.1

end LoopStep

theorem applyRecords_spec {c : Chunker} {base : Place Name} {ds : List ResponseFileRecord}
    (env : Nat → RecordEnv) (namespaceId : Int) (i : Nat) (s : ClientState) (hc : s.chunker = c)
    (hplain : PlainResponse c s.disk base ds) :
    LoopSpec c base env namespaceId i s ds (applyRecords env namespaceId i s ds).1
      (stop env namespaceId i s ds) := by
  induction ds generalizing i s with
  | nil =>
    exact ⟨hc, rfl, by simp [applyRecords, stop, rowsBeforeStop], by simp [stop], by simp [stop],
      by simp [stop], fun _ _ ↦ rfl, fun _ h ↦ h⟩
  | cons d ds ih =>
    have hd := hplain.plain d List.mem_cons_self
    obtain ⟨s₁, outcome, happly, hc₁, hframe, hlink, hend⟩ := applyRecord_spec hplain.spells hd.1
      hd.2 (env i) namespaceId s hc (hplain.straight d List.mem_cons_self)
    rw [applyRecords, stop, happly]
    rcases hend with ⟨rfl, heffect, hjids⟩ | ⟨hfail, heffect, hjids⟩
    · have hrec := ih (i + 1) s₁ hc₁ (hplain.tail fun j ↦ hframe.straight hlink)
      exact hrec.cons hplain hframe hlink heffect hjids
    · have hstopped := LoopSpec.stopped hc₁ hplain hframe hlink heffect hjids
      cases outcome with
      | ok u => exact absurd rfl hfail
      | err e => exact hstopped
      | panic => exact hstopped

/-- A loop that succeeds leaves no record. -/
theorem rest_stop_of_ok {env : Nat → RecordEnv} {namespaceId : Int} {i : Nat} {s s' : ClientState}
    {ds : List ResponseFileRecord} (h : applyRecords env namespaceId i s ds = (s', .ok ())) :
    (stop env namespaceId i s ds).rest = [] := by
  induction ds generalizing i s with
  | nil => rfl
  | cons d ds ih =>
    rw [applyRecords] at h
    rw [stop]
    cases hd : applyRecord (env i) namespaceId s d with
    | mk s₁ outcome =>
      rw [hd] at h
      cases outcome with
      | ok u => exact ih h
      | err e => cases h
      | panic => cases h

/-! ## 4. The cursor -/

/-- The record has had its effect on disk. -/
def HasEffect (s : ClientState) (d : ResponseFileRecord) : Prop :=
  if d.deleted then s.disk.readFile (s.chunker.fullPath d.path) = none
  else ∃ content, s.chunker.cachedContent (chunksOf d) = some content ∧
    (s.disk.readFile (s.chunker.fullPath d.path)).map FileData.content = some content

/-- Every record of the response up to the greatest jid has had its effect. -/
def CursorCovers (s : ClientState) (namespaceId : Int) (ds : List ResponseFileRecord) : Prop :=
  ∀ d ∈ ds, ∀ j, s.registry.latestJid namespaceId = some j → d.id ≤ j → HasEffect s d

theorem hasEffect_iff {s : ClientState} {base : Place Name}
    (hbase : FileTree.Spells s.chunker.basePath base) {d : ResponseFileRecord}
    (hplain : PlainPath d.path (namesOf d.path)) (hst : s.disk.Straight (placeOf base d)) :
    HasEffect s d ↔ EffectAt s.chunker s.disk (placeOf base d) d := by
  have hread := s.disk.readFile_of_straight (fullPath_spells hbase hplain) hst
  rw [HasEffect, EffectAt, hread]
  rfl

theorem cursorCovers_iff (s : ClientState) (namespaceId : Int) (ds : List ResponseFileRecord) :
    CursorCovers s namespaceId ds ↔
      ∀ d ∈ ds, (∃ j ∈ s.registry.jids namespaceId, d.id ≤ j) → HasEffect s d := by
  refine forall₂_congr fun d _ ↦ ?_
  constructor
  · rintro h ⟨j, hj, hle⟩
    obtain ⟨m, hm, hjm⟩ := Registry.latestJid_isSome hj
    exact h m hm (by omega)
  · intro h m hm hle
    exact h ⟨m, ((Registry.latestJid_eq_some_iff _ _ _).mp hm).1, hle⟩

/-- The records from the one at which the loop stops on, as far as a jid of the registry reaches
them: their effects are there without it. -/
def StopCovers (env : Nat → RecordEnv) (namespaceId : Int) (base : Place Name) (s : ClientState)
    (ds : List ResponseFileRecord) : Prop :=
  let st := stop env namespaceId 0 s ds
  let jids := s.registry.jids namespaceId ++ st.done.map ResponseFileRecord.id ++
    rowsBeforeStop env 0 st
  (∀ d ∈ st.rest.head?, (∃ j ∈ jids, d.id ≤ j) →
    AttemptEffect s.chunker (env st.done.length) st.state.disk (placeOf base d) d) ∧
  ∀ d ∈ st.rest.tail, (∃ j ∈ jids, d.id ≤ j) → EffectAt s.chunker s.disk (placeOf base d) d

theorem applyRecords_cursorCovers_iff {base : Place Name} {ds : List ResponseFileRecord}
    (env : Nat → RecordEnv) (namespaceId : Int) (s : ClientState)
    (hplain : PlainResponse s.chunker s.disk base ds) :
    CursorCovers (applyRecords env namespaceId 0 s ds).1 namespaceId ds ↔
      StopCovers env namespaceId base s ds := by
  have hspec := applyRecords_spec env namespaceId 0 s rfl hplain
  have heffect : ∀ d ∈ ds, HasEffect (applyRecords env namespaceId 0 s ds).1 d ↔
      EffectAt s.chunker (applyRecords env namespaceId 0 s ds).1.disk (placeOf base d) d := by
    intro d hd
    have hbase := hplain.spells
    rw [← hspec.chunker] at hbase
    rw [hasEffect_iff hbase (hplain.plain d hd).1 (hspec.straight _ (hplain.straight d hd)),
      hspec.chunker]
  have hrest : ∀ d ∈ (stop env namespaceId 0 s ds).rest, d ∈ ds := by
    intro d hd
    rw [hspec.split]
    exact List.mem_append_right _ hd
  rw [cursorCovers_iff, hspec.jids, StopCovers]
  constructor
  · intro h
    refine ⟨fun d hd hj ↦ ?_, fun d hd hj ↦ ?_⟩
    · have hmem := hrest d (List.mem_of_mem_head? hd)
      have hhead := hspec.head d hd
      rw [Nat.zero_add] at hhead
      exact hhead.mp ((heffect d hmem).mp (h d hmem hj))
    · have hmem := hrest d (List.mem_of_mem_tail hd)
      exact (hspec.tail d hd).mp ((heffect d hmem).mp (h d hmem hj))
  · rintro ⟨hhead, htail⟩ d hd hj
    rw [heffect d hd]
    have hcases := hd
    rw [hspec.split, List.mem_append] at hcases
    -- the condition speaks only of the records from the stop on
    rcases hcases with hdone | hmem
    · exact hspec.done d hdone
    · cases hr : (stop env namespaceId 0 s ds).rest with
      | nil => rw [hr] at hmem; cases hmem
      | cons e es =>
        rw [hr] at hmem
        rcases List.mem_cons.mp hmem with rfl | hmem
        · have hstop : d ∈ (stop env namespaceId 0 s ds).rest.head? := by rw [hr]; rfl
          have hiff := hspec.head d hstop
          rw [Nat.zero_add] at hiff
          exact hiff.mpr (hhead d hstop hj)
        · have hlater : d ∈ (stop env namespaceId 0 s ds).rest.tail := by rw [hr]; exact hmem
          exact (hspec.tail d hlater).mpr (htail d hlater hj)

/-- The ids ascend, from past every jid on, and no file of a deleted record resists its removal. -/
structure InOrder (env : Nat → RecordEnv) (jids : List Int) (ds : List ResponseFileRecord) :
    Prop where
  ascending : ds.Pairwise fun d e ↦ d.id < e.id
  past : ∀ j ∈ jids, ∀ d ∈ ds, j < d.id
  removed : ∀ i d, ds[i]? = some d → d.deleted = true → (env i).delete.removeFileFails = false

/-- In such a response a jid reaches the record at which the loop stops only when its own row was
written, and no record after it. -/
theorem stopCovers_of_inOrder {base : Place Name} {ds : List ResponseFileRecord}
    {env : Nat → RecordEnv} {namespaceId : Int} {s : ClientState}
    (hplain : PlainResponse s.chunker s.disk base ds)
    (horder : InOrder env (s.registry.jids namespaceId) ds) :
    StopCovers env namespaceId base s ds := by
  have hspec := applyRecords_spec env namespaceId 0 s rfl hplain
  rw [StopCovers]
  cases hrest : (stop env namespaceId 0 s ds).rest with
  | nil => simp
  | cons d later =>
    have hsplit := hspec.split
    rw [hrest] at hsplit
    have hmem : ∀ e ∈ d :: later, e ∈ ds := by
      intro e he
      rw [hsplit]
      exact List.mem_append_right _ he
    have hascending := horder.ascending
    rw [hsplit, List.pairwise_append, List.pairwise_cons] at hascending
    obtain ⟨-, ⟨hlater, -⟩, hdone⟩ := hascending
    -- what was there before or is carried out carries a smaller id
    have hbefore : ∀ e ∈ d :: later, ∀ j ∈ s.registry.jids namespaceId ++
        (stop env namespaceId 0 s ds).done.map ResponseFileRecord.id, j < e.id := by
      intro e he j hj
      rcases List.mem_append.mp hj with hj | hj
      · exact horder.past j hj e (hmem e he)
      · obtain ⟨f, hf, rfl⟩ := List.mem_map.mp hj
        exact hdone f hf e he
    have hat : ∀ before : List ResponseFileRecord, ds = before ++ d :: later →
        ds[before.length]? = some d := by
      rintro before rfl
      simp
    have hown : rowsBeforeStop env 0 (stop env namespaceId 0 s ds) =
        rowBeforeFailure (env (stop env namespaceId 0 s ds).done.length) d := by
      rw [rowsBeforeStop, hrest, Nat.zero_add]
    simp only [hown, List.head?_cons, List.tail_cons, Option.mem_some_iff]
    refine ⟨?_, fun e he ↦ ?_⟩
    · rintro e rfl ⟨j, hj, hle⟩
      -- only its own row reaches the record, and then its removal was tried
      rcases List.mem_append.mp hj with hj | hj
      · exact absurd (hbefore d List.mem_cons_self j hj) (by omega)
      · rw [rowBeforeFailure] at hj
        split at hj
        · rename_i hwritten
          rw [AttemptEffect, if_pos hwritten.1]
          exact .inl ⟨hwritten.2, horder.removed _ d (hat _ hsplit) hwritten.1⟩
        · cases hj
    · rintro ⟨j, hj, hle⟩
      rcases List.mem_append.mp hj with hj | hj
      · exact absurd (hbefore e (List.mem_cons_of_mem d he) j hj) (by omega)
      · rw [rowBeforeFailure] at hj
        split at hj
        · rw [List.mem_singleton] at hj
          have hlt := hlater e he
          omega
        · cases hj

/-! ## 5. The whole pass -/

section Pass

variable (sha256 : Bytes → Text)

/-- What hashing the files of the live records keeps is kept while chunks are collected. -/
theorem collectChunks_keeps {P : Chunker → Prop} {env : Nat → ReadEnv} {disk : Disk}
    {ds : List ResponseFileRecord} (hP : ∀ c i, ∀ d ∈ ds, d.deleted = false → P c →
      P (c.hashify sha256 disk (env i) d.path).1) (i : Nat) {c : Chunker} (h : P c) :
    P (collectChunks sha256 env disk i c ds).1 := by
  induction ds generalizing i c with
  | nil => exact h
  | cons d ds ih =>
    have hrest := ih fun c i e he ↦ hP c i e (List.mem_cons_of_mem d he)
    rw [collectChunks]
    by_cases hdel : d.deleted = true
    · rw [if_pos hdel]
      exact hrest (i + 1) h
    · rw [if_neg hdel]
      have hhashed : P (if c.exists disk d.path then c.hashify sha256 disk (env i) d.path
          else (c, .ok [])).1 := by
        split
        · exact hP c i d List.mem_cons_self (by simpa using hdel) h
        · exact h
      revert hhashed
      generalize (if c.exists disk d.path then c.hashify sha256 disk (env i) d.path
        else (c, .ok [])) = hashed
      intro hhashed
      obtain ⟨c₁, outcome⟩ := hashed
      cases outcome with
      | err e => exact hhashed
      | panic => exact hhashed
      | ok ids =>
        have hrec := hrest (i + 1) (c := c₁) hhashed
        cases hcollect : collectChunks sha256 env disk (i + 1) c₁ ds with
        | mk c₂ queue =>
          rw [hcollect] at hrec
          simp only [hcollect]
          cases queue <;> exact hrec

theorem basePath_collectChunks (env : Nat → ReadEnv) (disk : Disk) (i : Nat) (c : Chunker)
    (ds : List ResponseFileRecord) :
    (collectChunks sha256 env disk i c ds).1.basePath = c.basePath :=
  collectChunks_keeps (P := fun c' ↦ c'.basePath = c.basePath) sha256
    (fun c' i d _ _ h ↦ (basePath_hashify sha256 c' disk (env i) d.path).trans h) i rfl

theorem basePath_saveDownloaded (c : Chunker) (chunks : List Chunk) :
    (saveDownloaded c chunks).basePath = c.basePath := by
  induction chunks generalizing c with
  | nil => rfl
  | cons chunk rest ih => exact ih _

theorem basePath_fetchChunks (env : DownloadEnv) (c : Chunker) (disk : Disk)
    (ds : List ResponseFileRecord) : (fetchChunks sha256 env c disk ds).1.basePath = c.basePath := by
  have hcollect := basePath_collectChunks sha256 env.reads disk 0 c ds
  rw [fetchChunks]
  revert hcollect
  cases collectChunks sha256 env.reads disk 0 c ds with
  | mk c₁ queue =>
    intro hcollect
    rw [← show c₁.basePath = c.basePath from hcollect]
    cases queue with
    | err e => rfl
    | panic => rfl
    | ok queue =>
      cases queue with
      | nil => rfl
      | cons id ids => apply basePath_saveDownloaded

/-- What a pass leaves undone lies past every jid: nothing when all records are carried out, and
otherwise only what was done before. -/
def PassCovers (env : DownloadEnv) (namespaceId : Int) (base : Place Name) (s : ClientState)
    (ds : List ResponseFileRecord) : Prop :=
  match fetchChunks sha256 env s.chunker s.disk ds with
  | (c, .ok ()) => StopCovers env.records namespaceId base { s with chunker := c } ds
  | (c, _) => ∀ d ∈ ds, (∃ j ∈ s.registry.jids namespaceId, d.id ≤ j) →
      EffectAt c s.disk (placeOf base d) d

/-- After a pass the cursor covers exactly the work that is done if and only if what the pass left
undone, from the record it stopped at on, was done before or lies past every jid. -/
theorem cursorCovers_checkDownloadOnce_iff (env : DownloadEnv)
    (list : Int → Outcome SyncError (List ResponseFileRecord)) (namespaceId : Int)
    (s : ClientState) {base : Place Name} {ds : List ResponseFileRecord}
    (hlist : list (latestLocal env s namespaceId) = .ok ds)
    (hplain : PlainResponse s.chunker s.disk base ds) :
    CursorCovers (checkDownloadOnce sha256 env list namespaceId s).1 namespaceId ds ↔
      PassCovers sha256 env namespaceId base s ds := by
  have hpath := basePath_fetchChunks sha256 env s.chunker s.disk ds
  rw [PassCovers]
  cases hfetch : fetchChunks sha256 env s.chunker s.disk ds with
  | mk c outcome =>
    rw [hfetch] at hpath
    have hspells : FileTree.Spells c.basePath base := by
      rw [show c.basePath = s.chunker.basePath from hpath]
      exact hplain.spells
    -- a pass that fails before the loop changes the cache only
    have hstopped : CursorCovers { s with chunker := c } namespaceId ds ↔
        ∀ d ∈ ds, (∃ j ∈ s.registry.jids namespaceId, d.id ≤ j) →
          EffectAt c s.disk (placeOf base d) d := by
      rw [cursorCovers_iff]
      refine forall₂_congr fun d hd ↦ ?_
      rw [hasEffect_iff (s := { s with chunker := c }) hspells (hplain.plain d hd).1
        (hplain.straight d hd)]
    cases outcome with
    | err e =>
      simp only [checkDownloadOnce, hlist, hfetch]
      exact hstopped
    | panic =>
      simp only [checkDownloadOnce, hlist, hfetch]
      exact hstopped
    | ok u =>
      have hplain' : PlainResponse c s.disk base ds :=
        ⟨hspells, hplain.plain, hplain.distinct, hplain.straight⟩
      have hloop : (checkDownloadOnce sha256 env list namespaceId s).1 =
          (applyRecords env.records namespaceId 0 { s with chunker := c } ds).1 := by
        simp only [checkDownloadOnce, hlist, hfetch]
        cases applyRecords env.records namespaceId 0 { s with chunker := c } ds with
        | mk s' outcome => cases outcome <;> rfl
      rw [hloop]
      exact applyRecords_cursorCovers_iff env.records namespaceId { s with chunker := c } hplain'

/-- When the records come in order, the cursor covers exactly the work that is done, whatever fails
and wherever the pass stops. -/
theorem checkDownloadOnce_cursorCovers (env : DownloadEnv)
    (list : Int → Outcome SyncError (List ResponseFileRecord)) (namespaceId : Int)
    (s : ClientState) {base : Place Name} {ds : List ResponseFileRecord}
    (hlist : list (latestLocal env s namespaceId) = .ok ds)
    (hplain : PlainResponse s.chunker s.disk base ds)
    (horder : InOrder env.records (s.registry.jids namespaceId) ds) :
    CursorCovers (checkDownloadOnce sha256 env list namespaceId s).1 namespaceId ds := by
  rw [cursorCovers_checkDownloadOnce_iff sha256 env list namespaceId s hlist hplain, PassCovers]
  have hnone : ∀ c : Chunker, ∀ d ∈ ds, (∃ j ∈ s.registry.jids namespaceId, d.id ≤ j) →
      EffectAt c s.disk (placeOf base d) d := by
    rintro c d hd ⟨j, hj, hle⟩
    exact absurd (horder.past j hj d hd) (by omega)
  have hpath := basePath_fetchChunks sha256 env s.chunker s.disk ds
  cases hfetch : fetchChunks sha256 env s.chunker s.disk ds with
  | mk c outcome =>
    rw [hfetch] at hpath
    cases outcome with
    | err e => exact hnone c
    | panic => exact hnone c
    | ok u =>
      have hspells : FileTree.Spells c.basePath base := by
        rw [show c.basePath = s.chunker.basePath from hpath]
        exact hplain.spells
      exact stopCovers_of_inOrder (s := { s with chunker := c })
        ⟨hspells, hplain.plain, hplain.distinct, hplain.straight⟩ horder

end Pass

/-- A pass that succeeds has fetched chunks and then carried out all records. -/
theorem checkDownloadOnce_fetched {sha256 : Bytes → Text} {env : DownloadEnv}
    {list : Int → Outcome SyncError (List ResponseFileRecord)} {namespaceId : Int}
    {s s' : ClientState} {ds : List ResponseFileRecord} {b : Bool}
    (hlist : list (latestLocal env s namespaceId) = .ok ds)
    (h : checkDownloadOnce sha256 env list namespaceId s = (s', .ok b)) :
    ∃ c : Chunker, fetchChunks sha256 env s.chunker s.disk ds = (c, .ok ()) ∧
      applyRecords env.records namespaceId 0 { s with chunker := c } ds = (s', .ok ()) := by
  unfold checkDownloadOnce at h
  simp only [hlist] at h
  cases hfetch : fetchChunks sha256 env s.chunker s.disk ds with
  | mk c outcome =>
    rw [hfetch] at h
    cases outcome with
    | err e => cases h
    | panic => cases h
    | ok u =>
      refine ⟨c, rfl, ?_⟩
      simp only at h
      cases hloop : applyRecords env.records namespaceId 0 { s with chunker := c } ds with
      | mk s₁ outcome =>
        rw [hloop] at h
        cases outcome with
        | err e => cases h
        | panic => cases h
        | ok u => cases h; rfl

/-- Fetching chunks changes the cache only. -/
theorem checkDownloadOnce_ok {sha256 : Bytes → Text} {env : DownloadEnv}
    {list : Int → Outcome SyncError (List ResponseFileRecord)} {namespaceId : Int}
    {s s' : ClientState} {ds : List ResponseFileRecord} {b : Bool}
    (hlist : list (latestLocal env s namespaceId) = .ok ds)
    (h : checkDownloadOnce sha256 env list namespaceId s = (s', .ok b)) :
    ∃ c : Chunker, c.basePath = s.chunker.basePath ∧
      applyRecords env.records namespaceId 0 { s with chunker := c } ds = (s', .ok ()) := by
  obtain ⟨c, hfetch, hloop⟩ := checkDownloadOnce_fetched hlist h
  have hpath := basePath_fetchChunks sha256 env s.chunker s.disk ds
  rw [hfetch] at hpath
  exact ⟨c, hpath, hloop⟩

-- An example pass: the server lists the deletion of the only recipe of the directory `/s`.
def deletedRecipe : ResponseFileRecord := ⟨1, "a.cook".toList, true, []⟩

def beforeDeletion : ClientState where
  registry := Table.empty
  chunker := ⟨⟨fun _ ↦ none, 0, fun _ _ ↦ false⟩, parsePath "/s".toList⟩
  disk := (FileTree.root.put [115] [] .dir).put (toUtf8 "a.cook".toList) [[115]]
    (.file ⟨[120], ⟨0, 0⟩⟩)

def deletionEnv (removeFileFails : Bool) : DownloadEnv where
  latestJidFails := false
  reads := fun _ ↦ ⟨fun _ ↦ 1, none⟩
  batch := fun _ ↦ ⟨200, some [], []⟩
  records := fun _ ↦ ⟨⟨none, 0, ⟨0, 0⟩⟩, ⟨removeFileFails, fun _ ↦ false⟩, false,
    fun _ ↦ (0, ⟨0, 0⟩), false, ⟨0, 0⟩⟩

def deletionPass (removeFileFails : Bool) : ClientState × Outcome SyncError Bool :=
  checkDownloadOnce (fun _ ↦ []) (deletionEnv removeFileFails) (fun _ ↦ .ok [deletedRecipe]) 1
    beforeDeletion

-- Two records more: the metadata of the first cannot be read once its file is written, so the pass
-- does not come to the second.
def threeRecords : List ResponseFileRecord :=
  [deletedRecipe, ⟨2, "b.cook".toList, false, []⟩, ⟨3, "c.cook".toList, true, []⟩]

def secondFails : DownloadEnv where
  latestJidFails := false
  reads := (deletionEnv false).reads
  batch := (deletionEnv false).batch
  records := fun i ↦ { (deletionEnv false).records i with metadataFails := i == 1 }

theorem plainResponse_threeRecords :
    PlainResponse beforeDeletion.chunker beforeDeletion.disk [[115]] threeRecords where
  spells := ⟨by decide, by decide⟩
  plain := by
    intro d hd
    simp only [threeRecords, List.mem_cons, List.not_mem_nil, or_false] at hd
    rcases hd with rfl | rfl | rfl <;> exact ⟨by unfold PlainPath; decide, by decide⟩
  distinct := by decide
  straight := by
    intro d hd
    simp only [threeRecords, List.mem_cons, List.not_mem_nil, or_false] at hd
    rcases hd with rfl | rfl | rfl <;> decide

theorem checkDownloadOnce_cursorCovers_threeRecords :
    let pass := checkDownloadOnce (fun _ ↦ []) secondFails (fun _ ↦ .ok threeRecords) 1
      beforeDeletion
    pass.2 = .err (.ioError "b.cook".toList) ∧ pass.1.registry.latestJid 1 = some 1 ∧
      CursorCovers pass.1 1 threeRecords := by
  refine ⟨by decide +kernel, by decide +kernel, ?_⟩
  exact checkDownloadOnce_cursorCovers _ _ _ _ _ rfl plainResponse_threeRecords
    ⟨by decide, by decide, fun _ _ _ _ ↦ rfl⟩

-- The row of the deletion is there, and the file as well.
theorem checkDownloadOnce_cursor_passes_file :
    ¬ ∀ (sha256 : Bytes → Text) (env : DownloadEnv)
      (list : Int → Outcome SyncError (List ResponseFileRecord)) (namespaceId : Int)
      (s : ClientState) (ds : List ResponseFileRecord),
      list (latestLocal env s namespaceId) = .ok ds →
      CursorCovers (checkDownloadOnce sha256 env list namespaceId s).1 namespaceId ds := by
  intro h
  have hcovers : CursorCovers (deletionPass true).1 1 [deletedRecipe] := h _ _ _ _ _ _ rfl
  have hcursor : (deletionPass true).1.registry.latestJid 1 = some 1 := by decide
  have hgone := hcovers deletedRecipe List.mem_cons_self 1 hcursor (by decide)
  have hthere : (deletionPass true).1.disk.readFile
      ((deletionPass true).1.chunker.fullPath deletedRecipe.path) ≠ none := by decide
  exact hthere hgone

end Syncer

end CooklangSync.Client
