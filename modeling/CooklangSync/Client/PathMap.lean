import CooklangSync.Client.Registry
import CooklangSync.Theory.LatestMap

/-!
# PathMap — the registry as a map from namespaces and paths to their latest rows

The registry keeps every row it was ever given, and a row changes only in its jid.  What its queries
say depends on less: for every namespace and path, the row inserted last with the jid it has now,
and for every id, the jid it holds.
-/

namespace CooklangSync.Client

open Theory

/-! ## 1. Calls and the registry they leave -/

inductive RegistryCall where
  | create (forms : List CreateForm)
  | delete (forms : List DeleteForm)
  | updateJid (record : FileRecord) (jid : Int)

namespace RegistryCall

def apply (registry : Registry) : RegistryCall → Registry
  | create forms => registry.create forms
  | delete forms => registry.delete forms
  | updateJid record jid => registry.updateJid record jid

/-- A new registry after a sequence of calls. -/
def registry (calls : List RegistryCall) : Registry := calls.foldl apply Table.empty

theorem registry_append (calls later : List RegistryCall) :
    registry (calls ++ later) = later.foldl apply (registry calls) := List.foldl_append

/-- The record was an answer of a query at some point of the calls. -/
def WasReturned (calls : List RegistryCall) (record : FileRecord) : Prop :=
  ∃ earlier later, calls = earlier ++ later ∧ ∃ namespaceId,
    record ∈ (registry earlier).nonDeleted namespaceId ∨
      record ∈ (registry earlier).updatedLocally namespaceId

/-- The call is about other namespaces. -/
def IsElsewhere (calls : List RegistryCall) (namespaceId : Int) : RegistryCall → Prop
  | create forms => ∀ form ∈ forms, form.namespaceId ≠ namespaceId
  | delete forms => ∀ form ∈ forms, form.namespaceId ≠ namespaceId
  | updateJid record _ => WasReturned calls record ∧ record.namespaceId ≠ namespaceId

end RegistryCall

/-! ## 2. The map -/

structure PathMap where
  /-- For every namespace and path, the row inserted last. -/
  rows : LatestMap FileRecord Int Text
  /-- For every id of a row, its namespace and the jid it holds. -/
  held : Int → Option (Int × Option Int)

namespace PathMap

def empty : PathMap := ⟨LatestMap.empty, fun _ ↦ none⟩

def insert (M : PathMap) (row : Int → FileRecord) : PathMap where
  rows := M.rows.insert FileRecord.namespaceId FileRecord.path row
  held := Function.update M.held M.rows.next
    (some ((row M.rows.next).namespaceId, (row M.rows.next).jid))

def setJid (M : PathMap) (id jid : Int) : PathMap where
  rows := M.rows.update (Registry.FileRecord.setJid id jid)
  held := Function.update M.held id ((M.held id).map fun h ↦ (h.1, some jid))

def apply (M : PathMap) : RegistryCall → PathMap
  | .create forms => forms.foldl (fun M form ↦ M.insert form.withId) M
  | .delete forms => forms.foldl (fun M form ↦ M.insert form.withId) M
  | .updateJid record jid => M.setJid record.id jid

theorem held_insert (M : PathMap) (row : Int → FileRecord) : (M.insert row).held =
    Function.update M.held M.rows.next
      (some ((row M.rows.next).namespaceId, (row M.rows.next).jid)) := rfl

theorem held_setJid (M : PathMap) (id jid : Int) : (M.setJid id jid).held =
    Function.update M.held id ((M.held id).map fun h ↦ (h.1, some jid)) := rfl

def ofCalls (calls : List RegistryCall) : PathMap := calls.foldl apply empty

/-- Some row of the namespace, superseded or not, has the jid. -/
def Holds (M : PathMap) (namespaceId jid : Int) : Prop :=
  ∃ id, M.held id = some (namespaceId, some jid)

/-! ## 3. The registry refines the map -/

theorem setJid_of_namespace (id jid : Int) (r : FileRecord) :
    (Registry.FileRecord.setJid id jid r).namespaceId = r.namespaceId := by
  unfold Registry.FileRecord.setJid
  split <;> rfl

theorem setJid_of_path (id jid : Int) (r : FileRecord) :
    (Registry.FileRecord.setJid id jid r).path = r.path := by
  unfold Registry.FileRecord.setJid
  split <;> rfl

structure Represents (M : PathMap) (registry : Registry) : Prop where
  rows : LatestMap.Represents FileRecord.namespaceId FileRecord.path M.rows registry
  held : ∀ id namespaceId jid, M.held id = some (namespaceId, jid) ↔
    ∃ r ∈ registry.rows, r.id = id ∧ r.namespaceId = namespaceId ∧ r.jid = jid

theorem represents_empty : empty.Represents Table.empty where
  rows := LatestMap.represents_empty
  held id namespaceId jid := by simp [empty]

theorem Represents.insert {M : PathMap} {registry : Registry} (h : M.Represents registry)
    (row : Int → FileRecord) (hrow : ∀ i, (row i).id = i) :
    (M.insert row).Represents (registry.insert row hrow) where
  rows := h.rows.insert row hrow
  held id namespaceId jid := by
    have hnext := h.rows.nextId
    rw [Table.rows_insert, hnext, held_insert]
    simp only [List.mem_append, List.mem_singleton]
    by_cases hid : id = M.rows.next
    · -- no older row has the new id
      subst hid
      rw [Function.update_self, Option.some.injEq, Prod.mk.injEq]
      constructor
      · rintro ⟨hns, hjid⟩
        exact ⟨_, .inr rfl, hrow _, hns, hjid⟩
      · rintro ⟨r, hr | rfl, hid, hns, hjid⟩
        · have hlt := registry.lt_nextId hr
          rw [hnext] at hlt
          omega
        · exact ⟨hns, hjid⟩
    · rw [Function.update_of_ne hid, h.held]
      constructor
      · rintro ⟨r, hr, hfields⟩
        exact ⟨r, .inl hr, hfields⟩
      · rintro ⟨r, hr | rfl, hrid, hfields⟩
        · exact ⟨r, hr, hrid, hfields⟩
        · exact absurd ((hrow _).symm.trans hrid).symm hid

theorem Represents.setJid {M : PathMap} {registry : Registry} (h : M.Represents registry)
    (record : FileRecord) (jid : Int) :
    (M.setJid record.id jid).Represents (registry.updateJid record jid) where
  rows := h.rows.update _ _ (setJid_of_namespace _ _) (setJid_of_path _ _)
  held id namespaceId jid' := by
    have hmem : (∃ r ∈ (registry.updateJid record jid).rows,
        r.id = id ∧ r.namespaceId = namespaceId ∧ r.jid = jid') ↔
        ∃ r ∈ registry.rows, r.id = id ∧ r.namespaceId = namespaceId ∧
          (Registry.FileRecord.setJid record.id jid r).jid = jid' := by
      simp only [Registry.updateJid, Table.rows_update, List.mem_map, exists_exists_and_eq_and,
        Registry.FileRecord.id_setJid, setJid_of_namespace]
    rw [hmem, held_setJid]
    simp only [Registry.FileRecord.setJid]
    by_cases hid : id = record.id
    · subst hid
      rw [Function.update_self, Option.map_eq_some_iff]
      constructor
      · rintro ⟨⟨ns, j⟩, hheld, heq⟩
        obtain ⟨r, hr, hrid, hns, -⟩ := (h.held _ _ _).mp hheld
        rw [Prod.mk.injEq] at heq
        refine ⟨r, hr, hrid, hns.trans heq.1, ?_⟩
        rw [if_pos hrid]
        exact heq.2
      · rintro ⟨r, hr, hrid, hns, hjid⟩
        rw [if_pos hrid] at hjid
        exact ⟨(namespaceId, r.jid), (h.held _ _ _).mpr ⟨r, hr, hrid, hns, rfl⟩, by rw [← hjid]⟩
    · rw [Function.update_of_ne hid, h.held]
      constructor
      · rintro ⟨r, hr, rfl, hns, hjid⟩
        exact ⟨r, hr, rfl, hns, by rw [if_neg hid]; exact hjid⟩
      · rintro ⟨r, hr, rfl, hns, hjid⟩
        rw [if_neg hid] at hjid
        exact ⟨r, hr, rfl, hns, hjid⟩

theorem Represents.insertAll {Form : Type} {withId : Form → Int → FileRecord}
    (hid : ∀ form i, (withId form i).id = i) {M : PathMap} {registry : Registry}
    (h : M.Represents registry) (forms : List Form) :
    (forms.foldl (fun M form ↦ M.insert (withId form)) M).Represents
      (forms.foldl (fun r form ↦ Table.insert r (withId form) (hid form)) registry) := by
  induction forms generalizing M registry with
  | nil => exact h
  | cons form forms ih => exact ih (h.insert (withId form) (hid form))

theorem Represents.apply {M : PathMap} {registry : Registry} (h : M.Represents registry)
    (call : RegistryCall) : (M.apply call).Represents (call.apply registry) := by
  cases call with
  | create forms => exact h.insertAll CreateForm.id_withId forms
  | delete forms => exact h.insertAll DeleteForm.id_withId forms
  | updateJid record jid => exact h.setJid record jid

theorem Represents.applyAll {M : PathMap} {registry : Registry} (h : M.Represents registry)
    (calls : List RegistryCall) :
    (calls.foldl PathMap.apply M).Represents (calls.foldl RegistryCall.apply registry) := by
  induction calls generalizing M registry with
  | nil => exact h
  | cons call calls ih => exact ih (h.apply call)

theorem Represents.held_of_mem {M : PathMap} {registry : Registry} (h : M.Represents registry)
    {r : FileRecord} (hr : r ∈ registry.rows) : M.held r.id = some (r.namespaceId, r.jid) :=
  (h.held _ _ _).mpr ⟨r, hr, rfl, rfl, rfl⟩

theorem represents_registry (calls : List RegistryCall) :
    (ofCalls calls).Represents (RegistryCall.registry calls) :=
  represents_empty.applyAll calls

/-! ## 4. Queries -/

section Queries

variable {M : PathMap} {registry : Registry}

theorem Represents.lists_nonDeleted (h : M.Represents registry) (namespaceId : Int) :
    LatestMap.ListsInOrder FileRecord.path FileRecord.id (registry.nonDeleted namespaceId)
      (M.rows.current namespaceId) (!·.deleted) :=
  h.rows.listsInOrder namespaceId _

theorem Represents.lists_updatedLocally (h : M.Represents registry) (namespaceId : Int) :
    LatestMap.ListsInOrder FileRecord.path FileRecord.id (registry.updatedLocally namespaceId)
      (M.rows.current namespaceId) (·.jid.isNone) :=
  h.rows.listsInOrder namespaceId _

theorem Represents.mem_jids_iff (h : M.Represents registry) (namespaceId jid : Int) :
    jid ∈ registry.jids namespaceId ↔ M.Holds namespaceId jid := by
  rw [Registry.mem_jids_iff, Holds]
  simp only [h.held]
  constructor
  · rintro ⟨r, hr, hns, hjid⟩
    exact ⟨r.id, r, hr, rfl, hns, hjid⟩
  · rintro ⟨id, r, hr, -, hns, hjid⟩
    exact ⟨r, hr, hns, hjid⟩

theorem Represents.latestJid_eq_some_iff (h : M.Represents registry) (namespaceId m : Int) :
    registry.latestJid namespaceId = some m ↔
      M.Holds namespaceId m ∧ ∀ jid, M.Holds namespaceId jid → jid ≤ m := by
  rw [Registry.latestJid_eq_some_iff]
  simp only [h.mem_jids_iff]

theorem Represents.latestJid_eq_none_iff (h : M.Represents registry) (namespaceId : Int) :
    registry.latestJid namespaceId = none ↔ ∀ jid, ¬ M.Holds namespaceId jid := by
  rw [Registry.latestJid, List.max?_eq_none_iff, List.eq_nil_iff_forall_not_mem]
  simp only [h.mem_jids_iff]

end Queries

/-! ## 5. Other namespaces -/

/-- The maps have the same entries and jids in a namespace. -/
structure SameIn (namespaceId : Int) (M M' : PathMap) : Prop where
  current : M'.rows.current namespaceId = M.rows.current namespaceId
  holds : ∀ jid, M'.Holds namespaceId jid ↔ M.Holds namespaceId jid

theorem SameIn.refl (namespaceId : Int) (M : PathMap) : SameIn namespaceId M M :=
  ⟨rfl, fun _ ↦ Iff.rfl⟩

theorem SameIn.trans {namespaceId : Int} {M M' M'' : PathMap} (h : SameIn namespaceId M M')
    (h' : SameIn namespaceId M' M'') : SameIn namespaceId M M'' :=
  ⟨h'.current.trans h.current, fun jid ↦ (h'.holds jid).trans (h.holds jid)⟩

section Elsewhere

variable {M : PathMap} {registry : Registry} {namespaceId : Int}

theorem Represents.sameIn_insert (h : M.Represents registry) {row : Int → FileRecord}
    (hns : (row M.rows.next).namespaceId ≠ namespaceId) : SameIn namespaceId M (M.insert row) where
  current := M.rows.current_insert_of_ne _ _ hns
  holds jid := by
    -- the id of the new row was nobody's
    have hfresh : M.held M.rows.next = none := by
      rw [Option.eq_none_iff_forall_ne_some]
      rintro ⟨ns, j⟩ hheld
      obtain ⟨r, hr, hid, -⟩ := (h.held _ _ _).mp hheld
      have hlt := registry.lt_nextId hr
      rw [h.rows.nextId] at hlt
      omega
    apply exists_congr
    intro id
    rw [held_insert]
    by_cases hid : id = M.rows.next
    · subst hid
      rw [Function.update_self, hfresh]
      simp [hns]
    · rw [Function.update_of_ne hid]

theorem Represents.sameIn_insertAll {Form : Type} {withId : Form → Int → FileRecord}
    (hid : ∀ form i, (withId form i).id = i) (h : M.Represents registry) {forms : List Form}
    (hns : ∀ form ∈ forms, ∀ i, (withId form i).namespaceId ≠ namespaceId) :
    SameIn namespaceId M (forms.foldl (fun M form ↦ M.insert (withId form)) M) := by
  induction forms generalizing M registry with
  | nil => exact SameIn.refl namespaceId M
  | cons form forms ih =>
    have hfirst := h.sameIn_insert (hns form List.mem_cons_self M.rows.next)
    have hrest := ih (h.insert (withId form) (hid form))
      fun f hf ↦ hns f (List.mem_cons_of_mem form hf)
    exact hfirst.trans hrest

theorem Represents.sameIn_setJid (h : M.Represents registry) {id ns : Int} {jid' : Option Int}
    (hheld : M.held id = some (ns, jid')) (hns : ns ≠ namespaceId) (jid : Int) :
    SameIn namespaceId M (M.setJid id jid) where
  current := by
    funext path
    change (M.rows.current namespaceId path).map (Registry.FileRecord.setJid id jid) = _
    cases hr : M.rows.current namespaceId path with
    | none => rfl
    | some r =>
      have hlatest := hr
      rw [← h.rows.latestOf] at hlatest
      have hmem := ((Table.lastOf_eq_some_iff registry _ r).mp hlatest).1
      -- the row is not the one whose jid is set, which is in another namespace
      have hne : r.id ≠ id := by
        intro heq
        have hrow := h.held_of_mem hmem
        rw [heq, hheld, (h.rows.key_eq hr).1] at hrow
        exact hns (Prod.mk.inj (Option.some.inj hrow)).1
      rw [Option.map_some, Registry.FileRecord.setJid, if_neg hne]
  holds j := by
    apply exists_congr
    intro i
    rw [held_setJid]
    by_cases hi : i = id
    · subst hi
      rw [Function.update_self, hheld]
      simp [hns]
    · rw [Function.update_of_ne hi]

/-- What the queries answer for a namespace. -/
structure SameAnswers (namespaceId : Int) (registry registry' : Registry) : Prop where
  nonDeleted : registry'.nonDeleted namespaceId = registry.nonDeleted namespaceId
  updatedLocally : registry'.updatedLocally namespaceId = registry.updatedLocally namespaceId
  latestJid : registry'.latestJid namespaceId = registry.latestJid namespaceId

theorem Represents.sameAnswers {M' : PathMap} {registry' : Registry} (h : M.Represents registry)
    (h' : M'.Represents registry') (hsame : SameIn namespaceId M M') :
    SameAnswers namespaceId registry registry' := by
  have hlatest := h.rows.latest_congr h'.rows hsame.current
  constructor
  · rw [Registry.nonDeleted, hlatest, Registry.nonDeleted]
  · rw [Registry.updatedLocally, hlatest, Registry.updatedLocally]
  · apply Option.ext
    intro m
    rw [h'.latestJid_eq_some_iff, h.latestJid_eq_some_iff]
    simp only [hsame.holds]

end Elsewhere

/-- A row never changes its namespace. -/
theorem exists_row_apply {registry : Registry} {r : FileRecord} (hr : r ∈ registry.rows)
    (call : RegistryCall) :
    ∃ r' ∈ (call.apply registry).rows, r'.id = r.id ∧ r'.namespaceId = r.namespaceId := by
  cases call with
  | create forms =>
    obtain ⟨added, hrows, -⟩ := registry.rows_create forms
    exact ⟨r, hrows ▸ List.mem_append_left added hr, rfl, rfl⟩
  | delete forms =>
    obtain ⟨added, hrows, -⟩ := registry.rows_delete forms
    exact ⟨r, hrows ▸ List.mem_append_left added hr, rfl, rfl⟩
  | updateJid record jid =>
    exact ⟨_, List.mem_map_of_mem hr, Registry.FileRecord.id_setJid _ _ r, setJid_of_namespace _ _ r⟩

theorem exists_row_applyAll {registry : Registry} {r : FileRecord} (hr : r ∈ registry.rows)
    (calls : List RegistryCall) :
    ∃ r' ∈ (calls.foldl RegistryCall.apply registry).rows,
      r'.id = r.id ∧ r'.namespaceId = r.namespaceId := by
  induction calls generalizing registry r with
  | nil => exact ⟨r, hr, rfl, rfl⟩
  | cons call calls ih =>
    obtain ⟨r₁, hr₁, hid₁, hns₁⟩ := exists_row_apply hr call
    obtain ⟨r', hr', hid, hns⟩ := ih hr₁
    exact ⟨r', hr', hid.trans hid₁, hns.trans hns₁⟩

theorem held_of_wasReturned {calls : List RegistryCall} {record : FileRecord}
    (h : RegistryCall.WasReturned calls record) :
    ∃ jid, (ofCalls calls).held record.id = some (record.namespaceId, jid) := by
  obtain ⟨earlier, later, rfl, ns, hanswer⟩ := h
  have hmem : record ∈ (RegistryCall.registry earlier).rows := by
    rcases hanswer with h | h
    · exact (List.filter_sublist.trans (Table.latest_sublist _ _ _)).subset h
    · exact (List.filter_sublist.trans (Table.latest_sublist _ _ _)).subset h
  obtain ⟨r, hr, hid, hns⟩ := exists_row_applyAll hmem later
  rw [← RegistryCall.registry_append] at hr
  have hheld := (represents_registry (earlier ++ later)).held_of_mem hr
  rw [hid, hns] at hheld
  exact ⟨r.jid, hheld⟩

theorem ofCalls_concat (calls : List RegistryCall) (call : RegistryCall) :
    ofCalls (calls ++ [call]) = (ofCalls calls).apply call := by
  rw [ofCalls, List.foldl_append]
  rfl

theorem sameIn_of_isElsewhere {calls : List RegistryCall} {call : RegistryCall} {namespaceId : Int}
    (h : call.IsElsewhere calls namespaceId) :
    SameIn namespaceId (ofCalls calls) (ofCalls (calls ++ [call])) := by
  have hrep := represents_registry calls
  rw [ofCalls_concat]
  cases call with
  | create forms =>
    exact hrep.sameIn_insertAll CreateForm.id_withId fun form hform _ ↦ h form hform
  | delete forms =>
    exact hrep.sameIn_insertAll DeleteForm.id_withId fun form hform _ ↦ h form hform
  | updateJid record jid =>
    obtain ⟨hreturned, hns⟩ := h
    obtain ⟨jid', hheld⟩ := held_of_wasReturned hreturned
    exact hrep.sameIn_setJid hheld hns jid

/-- The queries answer from the map of the calls, and a namespace is not touched by the calls
about others. -/
theorem queries_of_registry (calls : List RegistryCall) (namespaceId : Int) :
    LatestMap.ListsInOrder FileRecord.path FileRecord.id
      ((RegistryCall.registry calls).nonDeleted namespaceId)
      ((ofCalls calls).rows.current namespaceId) (!·.deleted) ∧
    LatestMap.ListsInOrder FileRecord.path FileRecord.id
      ((RegistryCall.registry calls).updatedLocally namespaceId)
      ((ofCalls calls).rows.current namespaceId) (·.jid.isNone) ∧
    (∀ m, (RegistryCall.registry calls).latestJid namespaceId = some m ↔
      (ofCalls calls).Holds namespaceId m ∧ ∀ jid, (ofCalls calls).Holds namespaceId jid → jid ≤ m) ∧
    ((RegistryCall.registry calls).latestJid namespaceId = none ↔
      ∀ jid, ¬ (ofCalls calls).Holds namespaceId jid) ∧
    ∀ call : RegistryCall, call.IsElsewhere calls namespaceId →
      SameAnswers namespaceId (RegistryCall.registry calls)
        (RegistryCall.registry (calls ++ [call])) := by
  have h := represents_registry calls
  refine ⟨h.lists_nonDeleted namespaceId, h.lists_updatedLocally namespaceId,
    h.latestJid_eq_some_iff namespaceId, h.latestJid_eq_none_iff namespaceId, ?_⟩
  intro call helsewhere
  exact h.sameAnswers (represents_registry (calls ++ [call])) (sameIn_of_isElsewhere helsewhere)

end PathMap

end CooklangSync.Client
