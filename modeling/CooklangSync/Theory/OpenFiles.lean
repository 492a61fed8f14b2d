import CooklangSync.Theory.Text
import Mathlib.Logic.Function.Basic

/-!
# OpenFiles — files that are written while they have a name

A directory entry names an inode, and an open file keeps its inode and its own offset.  Creating a
file that exists empties it in place, under every handle that is open on it; removing the entry of
an open file leaves the handle writing to an inode without a name.
-/

namespace CooklangSync.Theory

/-! ## 1. Contents -/

/-- Writing at an offset.  What lies between the end of the file and the offset is filled with
zeros. -/
def overwrite (content : Bytes) (offset : Nat) (bytes : Bytes) : Bytes :=
  if bytes = [] then content
  else
    content.take offset ++ List.replicate (offset - content.length) 0 ++ bytes ++
      content.drop (offset + bytes.length)

/-- A file that is to become `goal`: it is not too long, and its first `k` bytes are there. -/
structure Fills (goal : Bytes) (k : Nat) (content : Bytes) : Prop where
  le_length : k ≤ content.length
  length_le : content.length ≤ goal.length
  take_eq : content.take k = goal.take k

theorem overwrite_nil (content : Bytes) (offset : Nat) : overwrite content offset [] = content :=
  if_pos rfl

theorem length_overwrite (content : Bytes) (offset : Nat) {bytes : Bytes} (h : bytes ≠ []) :
    (overwrite content offset bytes).length = max content.length (offset + bytes.length) := by
  rw [overwrite, if_neg h]
  simp only [List.length_append, List.length_take, List.length_replicate, List.length_drop]
  omega

/-- Writing at the end of a file. -/
theorem overwrite_length (content bytes : Bytes) :
    overwrite content content.length bytes = content ++ bytes := by
  by_cases h : bytes = []
  · rw [h, overwrite_nil, List.append_nil]
  · rw [overwrite, if_neg h, List.take_length, Nat.sub_self, List.replicate_zero, List.append_nil,
      List.drop_eq_nil_of_le (by omega), List.append_nil]

theorem getElem?_overwrite_of_lt {content : Bytes} {offset k : Nat} (bytes : Bytes)
    (hk : k < offset) (hlen : k < content.length) :
    (overwrite content offset bytes)[k]? = content[k]? := by
  by_cases h : bytes = []
  · rw [h, overwrite_nil]
  · rw [overwrite, if_neg h, List.append_assoc, List.append_assoc,
      List.getElem?_append_left (by rw [List.length_take]; omega), List.getElem?_take_of_lt hk]

theorem getElem?_overwrite_of_ge {content : Bytes} {offset k : Nat} {bytes : Bytes}
    (hk : offset + bytes.length ≤ k) : (overwrite content offset bytes)[k]? = content[k]? := by
  by_cases h : bytes = []
  · rw [h, overwrite_nil]
  · have hfront : (content.take offset ++ List.replicate (offset - content.length) 0 ++
        bytes).length = offset + bytes.length := by
      simp only [List.length_append, List.length_take, List.length_replicate]
      omega
    rw [overwrite, if_neg h, List.getElem?_append_right (by omega), hfront, List.getElem?_drop,
      Nat.add_sub_cancel' hk]

theorem getElem?_overwrite_of_mem {content : Bytes} {offset k : Nat} {bytes : Bytes}
    (hk : offset ≤ k) (hlt : k < offset + bytes.length) :
    (overwrite content offset bytes)[k]? = bytes[k - offset]? := by
  have h : bytes ≠ [] := by
    intro h
    rw [h, List.length_nil] at hlt
    omega
  have hfront : (content.take offset ++ List.replicate (offset - content.length) 0).length =
      offset := by
    simp only [List.length_append, List.length_take, List.length_replicate]
    omega
  rw [overwrite, if_neg h, List.append_assoc, List.getElem?_append_right (by omega), hfront,
    List.getElem?_append_left (by omega)]

namespace Fills

theorem start (goal : Bytes) : Fills goal 0 [] := ⟨Nat.le_refl 0, Nat.zero_le _, rfl⟩

theorem eq_of_length {goal content : Bytes} (h : Fills goal goal.length content) :
    content = goal := by
  have hlen : content.length = goal.length := Nat.le_antisymm h.length_le h.le_length
  have htake := h.take_eq
  rwa [List.take_length, ← hlen, List.take_length] at htake

theorem getElem?_eq {goal content : Bytes} {k j : Nat} (h : Fills goal k content) (hj : j < k) :
    content[j]? = goal[j]? := by
  rw [← List.getElem?_take_of_lt hj, h.take_eq, List.getElem?_take_of_lt hj]

/-- A piece of the goal, written where it belongs, keeps what is there and extends it when it
starts inside. -/
theorem overwrite {goal content bytes : Bytes} {k k' offset : Nat} (h : Fills goal k content)
    (hpiece : bytes <+: goal.drop offset) (hk' : k' ≤ k ∨ offset ≤ k ∧ k' ≤ offset + bytes.length) :
    Fills goal k' (overwrite content offset bytes) := by
  have hle := h.le_length
  have hlength := h.length_le
  have hfit := hpiece.length_le
  rw [List.length_drop] at hfit
  by_cases hnil : bytes = []
  · rw [hnil, List.length_nil] at hk'
    rw [hnil, overwrite_nil]
    refine ⟨by omega, hlength, ?_⟩
    rw [← Nat.min_eq_left (show k' ≤ k by omega), ← List.take_take, h.take_eq, List.take_take]
  · have hlen := length_overwrite content offset hnil
    have hpos : 0 < bytes.length := List.length_pos_iff.mpr hnil
    refine ⟨by omega, by omega, ?_⟩
    apply List.ext_getElem?
    intro j
    -- byte by byte: before the piece, in it, after it
    by_cases hj : j < k'
    · rw [List.getElem?_take_of_lt hj, List.getElem?_take_of_lt hj]
      by_cases hin : offset ≤ j ∧ j < offset + bytes.length
      · obtain ⟨rest, hrest⟩ := hpiece
        have hgoal : (goal.drop offset)[j - offset]? = bytes[j - offset]? := by
          rw [← hrest]
          exact List.getElem?_append_left (by omega)
        rw [getElem?_overwrite_of_mem hin.1 hin.2, ← hgoal, List.getElem?_drop,
          Nat.add_sub_cancel' hin.1]
      · have hjk : j < k := by omega
        rw [← h.getElem?_eq hjk]
        by_cases hlt : j < offset
        · exact getElem?_overwrite_of_lt bytes hlt (by omega)
        · exact getElem?_overwrite_of_ge (by omega)
    · rw [List.getElem?_eq_none (by rw [List.length_take]; omega),
        List.getElem?_eq_none (by rw [List.length_take]; omega)]

end Fills

/-! ## 2. Entries and inodes -/

/-- The files and directories at the places `P`.  No two entries name the same inode. -/
structure Files (P : Type) where
  isDir : P → Bool
  entry : P → Option Nat
  data : Nat → Bytes
  next : Nat
  entry_lt : ∀ p i, entry p = some i → i < next
  entry_inj : ∀ p q i, entry p = some i → entry q = some i → p = q

namespace Files

variable {P : Type}

def empty : Files P where
  isDir _ := false
  entry _ := none
  data _ := []
  next := 0
  entry_lt _ _ h := by cases h
  entry_inj _ _ _ h := by cases h

/-- The bytes of the regular file at a place. -/
def read (fs : Files P) (p : P) : Option Bytes := (fs.entry p).map fs.data

def «exists» (fs : Files P) (p : P) : Bool := (fs.entry p).isSome || fs.isDir p

def write (fs : Files P) (i : Nat) (offset : Nat) (bytes : Bytes) : Files P :=
  { fs with data := Function.update fs.data i (overwrite (fs.data i) offset bytes) }

@[simp] theorem entry_write (fs : Files P) (i offset : Nat) (bytes : Bytes) :
    (fs.write i offset bytes).entry = fs.entry := rfl

@[simp] theorem isDir_write (fs : Files P) (i offset : Nat) (bytes : Bytes) :
    (fs.write i offset bytes).isDir = fs.isDir := rfl

@[simp] theorem next_write (fs : Files P) (i offset : Nat) (bytes : Bytes) :
    (fs.write i offset bytes).next = fs.next := rfl

theorem data_write_self (fs : Files P) (i offset : Nat) (bytes : Bytes) :
    (fs.write i offset bytes).data i = overwrite (fs.data i) offset bytes :=
  Function.update_self ..

theorem data_write_of_ne (fs : Files P) {i j : Nat} (h : j ≠ i) (offset : Nat) (bytes : Bytes) :
    (fs.write i offset bytes).data j = fs.data j :=
  Function.update_of_ne h ..

variable [DecidableEq P]

/-- Makes directories, up to the first place where there is a file. -/
def makeDirs (fs : Files P) : List P → Files P × Bool
  | [] => (fs, true)
  | p :: ps =>
    if (fs.entry p).isSome then (fs, false)
    else makeDirs { fs with isDir := Function.update fs.isDir p true } ps

/-- Opens a file for writing: the one at the place, emptied, or a new one. -/
def create (fs : Files P) (p : P) : Option (Files P × Nat) :=
  if fs.isDir p then none
  else
    match h : fs.entry p with
    | some i => some ({ fs with data := Function.update fs.data i [] }, i)
    | none =>
      some ({ isDir := fs.isDir
              entry := Function.update fs.entry p (some fs.next)
              data := Function.update fs.data fs.next []
              next := fs.next + 1
              entry_lt := by
                intro q i hq
                by_cases hqp : q = p
                · rw [hqp, Function.update_self, Option.some.injEq] at hq
                  omega
                · rw [Function.update_of_ne hqp] at hq
                  have hlt := fs.entry_lt q i hq
                  omega
              entry_inj := by
                intro q r i hq hr
                by_cases hqp : q = p <;> by_cases hrp : r = p
                · rw [hqp, hrp]
                · rw [hqp, Function.update_self, Option.some.injEq] at hq
                  rw [Function.update_of_ne hrp] at hr
                  have hlt := fs.entry_lt r i hr
                  omega
                · rw [hrp, Function.update_self, Option.some.injEq] at hr
                  rw [Function.update_of_ne hqp] at hq
                  have hlt := fs.entry_lt q i hq
                  omega
                · rw [Function.update_of_ne hqp] at hq
                  rw [Function.update_of_ne hrp] at hr
                  exact fs.entry_inj q r i hq hr }, fs.next)

def remove (fs : Files P) (p : P) : Files P where
  isDir := fs.isDir
  entry := Function.update fs.entry p none
  data := fs.data
  next := fs.next
  entry_lt := by
    intro q i hq
    by_cases hqp : q = p
    · rw [hqp, Function.update_self] at hq
      cases hq
    · rw [Function.update_of_ne hqp] at hq
      exact fs.entry_lt q i hq
  entry_inj := by
    intro q r i hq hr
    by_cases hqp : q = p
    · rw [hqp, Function.update_self] at hq
      cases hq
    · by_cases hrp : r = p
      · rw [hrp, Function.update_self] at hr
        cases hr
      · rw [Function.update_of_ne hqp] at hq
        rw [Function.update_of_ne hrp] at hr
        exact fs.entry_inj q r i hq hr

/-! ## 3. What the operations change -/

@[simp] theorem data_remove (fs : Files P) (p : P) : (fs.remove p).data = fs.data := rfl

@[simp] theorem isDir_remove (fs : Files P) (p : P) : (fs.remove p).isDir = fs.isDir := rfl

@[simp] theorem next_remove (fs : Files P) (p : P) : (fs.remove p).next = fs.next := rfl

theorem entry_remove_self (fs : Files P) (p : P) : (fs.remove p).entry p = none :=
  Function.update_self ..

theorem entry_remove_of_ne (fs : Files P) {p q : P} (h : q ≠ p) :
    (fs.remove p).entry q = fs.entry q :=
  Function.update_of_ne h ..

/-- A removal adds no entry. -/
theorem entry_of_remove (fs : Files P) {p q : P} {i : Nat} (h : (fs.remove p).entry q = some i) :
    q ≠ p ∧ fs.entry q = some i := by
  by_cases hqp : q = p
  · rw [hqp, entry_remove_self] at h
    cases h
  · rw [entry_remove_of_ne fs hqp] at h
    exact ⟨hqp, h⟩

/-- The directories may differ, the files do not. -/
structure SameFiles (fs fs' : Files P) : Prop where
  entry : fs'.entry = fs.entry
  data : fs'.data = fs.data
  next : fs'.next = fs.next

theorem makeDirs_sameFiles (fs : Files P) (ps : List P) : SameFiles fs (fs.makeDirs ps).1 := by
  induction ps generalizing fs with
  | nil => exact ⟨rfl, rfl, rfl⟩
  | cons p ps ih =>
    rw [makeDirs]
    split
    · exact ⟨rfl, rfl, rfl⟩
    · have h := ih { fs with isDir := Function.update fs.isDir p true }
      exact ⟨h.entry, h.data, h.next⟩

theorem isDir_makeDirs_of_not_mem (fs : Files P) {ps : List P} {q : P} (h : q ∉ ps) :
    (fs.makeDirs ps).1.isDir q = fs.isDir q := by
  induction ps generalizing fs with
  | nil => rfl
  | cons p ps ih =>
    rw [List.mem_cons, not_or] at h
    rw [makeDirs]
    split
    · rfl
    · exact (ih _ h.2).trans (Function.update_of_ne h.1 _ _)

/-- Only a file is in the way of a directory. -/
theorem makeDirs_snd_iff (fs : Files P) (ps : List P) :
    (fs.makeDirs ps).2 = true ↔ ∀ p ∈ ps, fs.entry p = none := by
  induction ps generalizing fs with
  | nil => simp [makeDirs]
  | cons p ps ih =>
    rw [makeDirs, List.forall_mem_cons]
    by_cases hp : (fs.entry p).isSome = true
    · rw [if_pos hp]
      simp [Option.isSome_iff_ne_none.mp hp]
    · rw [if_neg hp, ih]
      exact (and_iff_right (Option.not_isSome_iff_eq_none.mp hp)).symm

/-- Only a directory is in the way of a file. -/
theorem create_isSome_iff (fs : Files P) (p : P) :
    (fs.create p).isSome = true ↔ fs.isDir p = false := by
  unfold create
  by_cases hp : fs.isDir p = true
  · rw [if_pos hp, hp]
    simp
  · rw [if_neg hp]
    split <;> simpa using hp

theorem isDir_create {fs fs' : Files P} {p : P} {i : Nat} (h : fs.create p = some (fs', i)) :
    fs'.isDir = fs.isDir := by
  unfold create at h
  split at h
  · cases h
  · split at h
    · cases h
      rfl
    · cases h
      rfl

/-- What opening a file for writing at `p` does: the file there is emptied in place, or the next
inode gets the entry. -/
structure Created (fs : Files P) (p : P) (fs' : Files P) (i : Nat) : Prop where
  inode : fs.entry p = some i ∨ fs.entry p = none ∧ i = fs.next
  entry_self : fs'.entry p = some i
  entry_other : ∀ q, q ≠ p → fs'.entry q = fs.entry q
  data_self : fs'.data i = []
  data_other : ∀ j, j ≠ i → fs'.data j = fs.data j
  next_le : fs.next ≤ fs'.next

theorem create_spec {fs fs' : Files P} {p : P} {i : Nat} (h : fs.create p = some (fs', i)) :
    Created fs p fs' i := by
  unfold create at h
  split at h
  · cases h
  · split at h
    · next i' hentry =>
      cases h
      exact ⟨.inl hentry, hentry, fun _ _ ↦ rfl, Function.update_self .., fun _ hj ↦
        Function.update_of_ne hj .., Nat.le_refl _⟩
    · next hentry =>
      cases h
      exact ⟨.inr ⟨hentry, rfl⟩, Function.update_self .., fun _ hq ↦ Function.update_of_ne hq ..,
        Function.update_self .., fun _ hj ↦ Function.update_of_ne hj .., Nat.le_succ _⟩

omit [DecidableEq P] in
theorem Created.of_sameFiles {fs fs₁ fs' : Files P} {p : P} {i : Nat} (h : Created fs₁ p fs' i)
    (hsame : SameFiles fs fs₁) : Created fs p fs' i where
  inode := by
    rw [← hsame.entry, ← hsame.next]
    exact h.inode
  entry_self := h.entry_self
  entry_other q hq := by rw [h.entry_other q hq, hsame.entry]
  data_self := h.data_self
  data_other j hj := by rw [h.data_other j hj, hsame.data]
  next_le := by
    rw [← hsame.next]
    exact h.next_le

omit [DecidableEq P] in
/-- No inode that was in use gets a new name. -/
theorem Created.entry_of_lt {fs fs' : Files P} {p q : P} {i j : Nat} (h : Created fs p fs' i)
    (hq : fs'.entry q = some j) (hj : j < fs.next) : fs.entry q = some j := by
  by_cases hqp : q = p
  · rw [hqp, h.entry_self, Option.some.injEq] at hq
    rcases h.inode with hentry | ⟨-, hnew⟩
    · rw [hqp, hentry, hq]
    · omega
  · rw [← h.entry_other q hqp, hq]

end Files

/-! ## 4. Writes in the background -/

/-- What becomes of a write: it lands whole, or fails after some bytes. -/
inductive WriteResult where
  | ok
  | failed (landed : Nat)
  deriving DecidableEq, Repr

def WriteResult.landed (r : WriteResult) (bytes : Bytes) : Bytes :=
  match r with
  | ok => bytes
  | failed n => bytes.take n

theorem WriteResult.landed_isPrefixOf (r : WriteResult) (bytes : Bytes) : r.landed bytes <+: bytes := by
  cases r with
  | ok => exact List.prefix_refl bytes
  | failed n => exact List.take_prefix n bytes

theorem WriteResult.landed_nil (r : WriteResult) : r.landed [] = [] :=
  List.prefix_nil.mp (r.landed_isPrefixOf [])

/-- A write that is still under way when its file is closed: where it begins, and its bytes. -/
structure LateWrite where
  inode : Nat
  offset : Nat
  bytes : Bytes
  deriving DecidableEq, Repr

/-- The files, and the writes under way in files that are closed, each with the number of its
writer. -/
structure Disk (P : Type) where
  files : Files P
  late : List (Nat × LateWrite)

namespace Disk

variable {P : Type}

def landDue (due : Nat → Option WriteResult) : Files P → List (Nat × LateWrite) → Disk P
  | fs, [] => ⟨fs, []⟩
  | fs, e :: rest =>
    match due e.1 with
    | some r => landDue due (fs.write e.2.inode e.2.offset (r.landed e.2.bytes)) rest
    | none =>
      let disk := landDue due fs rest
      { disk with late := e :: disk.late }

/-- The writes that are due land, in their order. -/
def land (due : Nat → Option WriteResult) (disk : Disk P) : Disk P :=
  landDue due disk.files disk.late

variable (due : Nat → Option WriteResult) (disk : Disk P)

theorem sameNames_landDue (fs : Files P) (late : List (Nat × LateWrite)) :
    (landDue due fs late).files.entry = fs.entry ∧ (landDue due fs late).files.isDir = fs.isDir ∧
      (landDue due fs late).files.next = fs.next := by
  induction late generalizing fs with
  | nil => exact ⟨rfl, rfl, rfl⟩
  | cons e rest ih =>
    rw [landDue]
    split
    · exact ih _
    · exact ih fs

@[simp] theorem entry_land : (disk.land due).files.entry = disk.files.entry :=
  (sameNames_landDue due disk.files disk.late).1

@[simp] theorem isDir_land : (disk.land due).files.isDir = disk.files.isDir :=
  (sameNames_landDue due disk.files disk.late).2.1

@[simp] theorem next_land : (disk.land due).files.next = disk.files.next :=
  (sameNames_landDue due disk.files disk.late).2.2

theorem late_landDue (fs : Files P) (late : List (Nat × LateWrite)) :
    (landDue due fs late).late = late.filter fun e ↦ (due e.1).isNone := by
  induction late generalizing fs with
  | nil => rfl
  | cons e rest ih =>
    rw [landDue, List.filter_cons]
    cases hdue : due e.1 with
    | some r => exact ih _
    | none => exact congrArg (e :: ·) (ih fs)

theorem late_land : (disk.land due).late = disk.late.filter fun e ↦ (due e.1).isNone :=
  late_landDue due disk.files disk.late

theorem mem_late_land {e : Nat × LateWrite} :
    e ∈ (disk.land due).late ↔ e ∈ disk.late ∧ due e.1 = none := by
  rw [late_land, List.mem_filter, Option.isNone_iff_eq_none]

/-- The writes that are under way in one file. -/
def lateIn (n : Nat) : List (Nat × LateWrite) := disk.late.filter (·.2.inode = n)

theorem mem_lateIn {n : Nat} {e : Nat × LateWrite} :
    e ∈ disk.lateIn n ↔ e ∈ disk.late ∧ e.2.inode = n := by
  rw [lateIn, List.mem_filter, decide_eq_true_eq]

theorem lateIn_land (n : Nat) :
    (disk.land due).lateIn n = (disk.lateIn n).filter fun e ↦ (due e.1).isNone := by
  rw [lateIn, lateIn, late_land, List.filter_filter, List.filter_filter]
  simp only [Bool.and_comm]

/-- The content of a file after the writes that are due. -/
def landsIn : Bytes → List (Nat × LateWrite) → Bytes
  | content, [] => content
  | content, e :: rest =>
    match due e.1 with
    | some r => landsIn (overwrite content e.2.offset (r.landed e.2.bytes)) rest
    | none => landsIn content rest

theorem landsIn_append (content : Bytes) (late late' : List (Nat × LateWrite)) :
    landsIn due content (late ++ late') = landsIn due (landsIn due content late) late' := by
  induction late generalizing content with
  | nil => rfl
  | cons e rest ih =>
    rw [List.cons_append, landsIn, landsIn]
    split
    · exact ih _
    · exact ih content

theorem landsIn_of_not_due {content : Bytes} {late : List (Nat × LateWrite)}
    (h : ∀ e ∈ late, due e.1 = none) : landsIn due content late = content := by
  induction late with
  | nil => rfl
  | cons e rest ih =>
    rw [List.forall_mem_cons] at h
    rw [landsIn, h.1]
    exact ih h.2

theorem data_landDue (n : Nat) (fs : Files P) (late : List (Nat × LateWrite)) :
    (landDue due fs late).files.data n = landsIn due (fs.data n) (late.filter (·.2.inode = n)) := by
  induction late generalizing fs with
  | nil => rfl
  | cons e rest ih =>
    rw [landDue, List.filter_cons]
    cases hdue : due e.1 with
    | some r =>
      simp only [ih]
      by_cases hn : e.2.inode = n
      · rw [if_pos (decide_eq_true hn), landsIn, hdue, hn, Files.data_write_self]
      · rw [if_neg (by simpa using hn), Files.data_write_of_ne fs (Ne.symm hn)]
    | none =>
      simp only [ih]
      split
      · rw [landsIn, hdue]
      · rfl

theorem data_land (n : Nat) :
    (disk.land due).files.data n = landsIn due (disk.files.data n) (disk.lateIn n) :=
  data_landDue due n disk.files disk.late

/-- What does not concern the file at the place. -/
structure Elsewhere (p : P) (disk disk' : Disk P) : Prop where
  entry : disk'.files.entry p = disk.files.entry p
  data : ∀ n, disk.files.entry p = some n → disk'.files.data n = disk.files.data n
  late : ∀ n, disk.files.entry p = some n → disk'.lateIn n = disk.lateIn n

variable {due disk} in
theorem Elsewhere.land {disk' : Disk P} {p : P} (h : Elsewhere p disk disk') :
    Elsewhere p (disk.land due) (disk'.land due) where
  entry := by rw [entry_land, entry_land, h.entry]
  data n hn := by
    rw [entry_land] at hn
    rw [data_land, data_land, h.data n hn, h.late n hn]
  late n hn := by
    rw [entry_land] at hn
    rw [lateIn_land, lateIn_land, h.late n hn]

variable {disk} in
theorem Elsewhere.trans {disk' disk'' : Disk P} {p : P} (h : Elsewhere p disk disk')
    (h' : Elsewhere p disk' disk'') : Elsewhere p disk disk'' where
  entry := h'.entry.trans h.entry
  data n hn := (h'.data n (h.entry.trans hn)).trans (h.data n hn)
  late n hn := (h'.late n (h.entry.trans hn)).trans (h.late n hn)

/-- Nothing is under way in the file at the place. -/
def IsQuiet (p : P) : Prop := ∀ e ∈ disk.late, disk.files.entry p ≠ some e.2.inode

variable {due disk} {p : P}

theorem IsQuiet.land (h : disk.IsQuiet p) :
    (disk.land due).IsQuiet p ∧ (disk.land due).files.read p = disk.files.read p := by
  constructor
  · intro e he
    rw [entry_land]
    exact h e ((mem_late_land due disk).mp he).1
  · rw [Files.read, Files.read, entry_land]
    cases hp : disk.files.entry p with
    | none => rfl
    | some n =>
      rw [Option.map_some, Option.map_some, data_land, landsIn_of_not_due]
      intro e he
      obtain ⟨hmem, rfl⟩ := (mem_lateIn disk).mp he
      exact absurd hp (h e hmem)

theorem IsQuiet.elsewhere {disk' : Disk P} (h : disk.IsQuiet p) (helse : Elsewhere p disk disk') :
    disk'.IsQuiet p ∧ disk'.files.read p = disk.files.read p := by
  constructor
  · intro e he hentry
    rw [helse.entry] at hentry
    have hmem : e ∈ disk'.lateIn e.2.inode := (mem_lateIn disk').mpr ⟨he, rfl⟩
    rw [helse.late _ hentry] at hmem
    exact h e ((mem_lateIn disk).mp hmem).1 hentry
  · rw [Files.read, Files.read, helse.entry]
    cases hp : disk.files.entry p with
    | none => rfl
    | some n => rw [Option.map_some, Option.map_some, helse.data n hp]

/-! ## 5. Contents that arrive -/

/-- The file at the place is to hold the content: what is under way in it belongs to the content, and
completes it. -/
def Arrives (disk : Disk P) (p : P) (content : Bytes) : Prop :=
  ∃ n, disk.files.entry p = some n ∧
    (∀ e ∈ disk.lateIn n, e.2.bytes <+: content.drop e.2.offset) ∧
    ∃ k, Fills content k (disk.files.data n) ∧ (k = content.length ∨
      ∃ e ∈ disk.lateIn n, e.2.offset = k ∧ k + e.2.bytes.length = content.length)

/-- The file at the place, if any, is to hold the content. -/
def Holds (disk : Disk P) (p : P) : Option Bytes → Prop
  | none => disk.files.entry p = none
  | some content => disk.Arrives p content

/-- Nothing that is due fails. -/
def LandsWhole (due : Nat → Option WriteResult) : Prop := ∀ k r, due k = some r → r = .ok

theorem fills_landsIn {goal content : Bytes} {k : Nat} {late : List (Nat × LateWrite)}
    (hdue : LandsWhole due) (hlate : ∀ e ∈ late, e.2.bytes <+: goal.drop e.2.offset)
    (h : Fills goal k content) : Fills goal k (landsIn due content late) := by
  induction late generalizing content with
  | nil => exact h
  | cons e rest ih =>
    rw [List.forall_mem_cons] at hlate
    rw [landsIn]
    cases hr : due e.1 with
    | none => exact ih hlate.2 h
    | some r =>
      rw [hdue e.1 r hr]
      exact ih hlate.2 (h.overwrite hlate.1 (.inl (Nat.le_refl k)))

/-- The write that completes a content lands. -/
theorem fills_landsIn_of_due {goal content : Bytes} {late : List (Nat × LateWrite)}
    {e : Nat × LateWrite} (hdue : LandsWhole due)
    (hlate : ∀ e ∈ late, e.2.bytes <+: goal.drop e.2.offset) (he : e ∈ late)
    (hnow : due e.1 ≠ none) (hlength : e.2.offset + e.2.bytes.length = goal.length)
    (h : Fills goal e.2.offset content) : Fills goal goal.length (landsIn due content late) := by
  induction late generalizing content with
  | nil => cases he
  | cons head rest ih =>
    rw [List.forall_mem_cons] at hlate
    rw [landsIn]
    rcases List.mem_cons.mp he with rfl | he
    · obtain ⟨r, hr⟩ := Option.ne_none_iff_exists'.mp hnow
      rw [hr, hdue e.1 r hr]
      exact fills_landsIn hdue hlate.2
        (h.overwrite hlate.1 (.inr ⟨Nat.le_refl _, Nat.le_of_eq hlength.symm⟩))
    · cases hr : due head.1 with
      | none => exact ih hlate.2 he h
      | some r =>
        rw [hdue head.1 r hr]
        exact ih hlate.2 he (h.overwrite hlate.1 (.inl (Nat.le_refl _)))

theorem Arrives.land {content : Bytes} (h : disk.Arrives p content) (hdue : LandsWhole due) :
    (disk.land due).Arrives p content := by
  obtain ⟨n, hentry, hlate, k, hfills, hnext⟩ := h
  refine ⟨n, by rwa [entry_land], ?_, ?_⟩
  · rw [lateIn_land]
    exact fun e he ↦ hlate e (List.mem_filter.mp he).1
  · rw [data_land, lateIn_land]
    rcases hnext with hdone | ⟨e, he, hoffset, hlength⟩
    · exact ⟨k, fills_landsIn hdue hlate hfills, .inl hdone⟩
    · by_cases hnow : due e.1 = none
      · refine ⟨k, fills_landsIn hdue hlate hfills, .inr ⟨e, List.mem_filter.mpr ⟨he, ?_⟩, hoffset,
          hlength⟩⟩
        rw [hnow, Option.isNone_none]
      · rw [← hoffset] at hfills hlength
        exact ⟨_, fills_landsIn_of_due hdue hlate he hnow hlength hfills, .inl rfl⟩

theorem Holds.land {content : Option Bytes} (h : disk.Holds p content) (hdue : LandsWhole due) :
    (disk.land due).Holds p content := by
  cases content with
  | none => exact (congrFun (entry_land due disk) p).trans h
  | some content => exact Arrives.land h hdue

theorem Holds.elsewhere {disk' : Disk P} {content : Option Bytes} (h : disk.Holds p content)
    (helse : Elsewhere p disk disk') : disk'.Holds p content := by
  cases content with
  | none => exact helse.entry.trans h
  | some content =>
    obtain ⟨n, hentry, hlate, hfills⟩ := h
    refine ⟨n, helse.entry.trans hentry, ?_, ?_⟩
    · rw [helse.late n hentry]
      exact hlate
    · rw [helse.late n hentry, helse.data n hentry]
      exact hfills

theorem Holds.isSome_entry {content : Option Bytes} (h : disk.Holds p content) :
    (disk.files.entry p).isSome = content.isSome := by
  cases content with
  | none => exact congrArg Option.isSome h
  | some content =>
    obtain ⟨n, hentry, -⟩ := h
    rw [hentry]
    rfl

/-- When nothing is under way in the file any more, it holds the content. -/
theorem Holds.read_of_isQuiet {content : Option Bytes} (h : disk.Holds p content)
    (hquiet : disk.IsQuiet p) : disk.files.read p = content := by
  cases content with
  | none =>
    rw [Files.read, show disk.files.entry p = none from h]
    rfl
  | some content =>
    obtain ⟨n, hentry, -, k, hfills, hnext⟩ := h
    rw [Files.read, hentry, Option.map_some]
    rcases hnext with rfl | ⟨e, he, -⟩
    · exact congrArg some hfills.eq_of_length
    · obtain ⟨hmem, rfl⟩ := (mem_lateIn disk).mp he
      exact absurd hentry (hquiet e hmem)

/-- What is under way belongs to the content, or nothing is. -/
theorem Holds.pieces {content : Bytes} (h : disk.Holds p (some content)) {n : Nat}
    (hn : disk.files.entry p = some n) :
    ∀ e ∈ disk.lateIn n, e.2.bytes <+: content.drop e.2.offset := by
  obtain ⟨m, hentry, hlate, -⟩ := h
  rw [hn, Option.some.injEq] at hentry
  exact hentry ▸ hlate

/-! ## 6. Renumbering -/

/-- The writes under way, with new numbers from `m` on. -/
def renumber (disk : Disk P) (m : Nat) : Disk P :=
  { disk with late := disk.late.zipIdx.map fun e ↦ (m + e.2, e.1.2) }

theorem map_snd_renumber (disk : Disk P) (m : Nat) :
    (disk.renumber m).late.map Prod.snd = disk.late.map Prod.snd := by
  have hfst : disk.late.zipIdx.map Prod.fst = disk.late := List.zipIdx_map_fst 0 disk.late
  conv_rhs => rw [← hfst]
  rw [renumber, List.map_map, List.map_map]
  rfl

theorem exists_mem_renumber (disk : Disk P) (m : Nat) {Q : LateWrite → Prop} :
    (∃ e ∈ (disk.renumber m).late, Q e.2) ↔ ∃ e ∈ disk.late, Q e.2 := by
  have hmap := map_snd_renumber disk m
  constructor
  · rintro ⟨e, he, hq⟩
    have hmem : e.2 ∈ disk.late.map Prod.snd := hmap ▸ List.mem_map_of_mem he
    obtain ⟨e', he', heq⟩ := List.mem_map.mp hmem
    exact ⟨e', he', heq ▸ hq⟩
  · rintro ⟨e, he, hq⟩
    have hmem : e.2 ∈ (disk.renumber m).late.map Prod.snd := hmap.symm ▸ List.mem_map_of_mem he
    obtain ⟨e', he', heq⟩ := List.mem_map.mp hmem
    exact ⟨e', he', heq ▸ hq⟩

theorem forall_mem_renumber (disk : Disk P) (m : Nat) {Q : LateWrite → Prop} :
    (∀ e ∈ (disk.renumber m).late, Q e.2) ↔ ∀ e ∈ disk.late, Q e.2 := by
  have hexists := exists_mem_renumber disk m (Q := fun w ↦ ¬ Q w)
  constructor
  · intro h e he
    by_contra hq
    obtain ⟨e', he', hq'⟩ := hexists.mpr ⟨e, he, hq⟩
    exact hq' (h e' he')
  · intro h e he
    by_contra hq
    obtain ⟨e', he', hq'⟩ := hexists.mp ⟨e, he, hq⟩
    exact hq' (h e' he')

theorem IsQuiet.renumber (h : disk.IsQuiet p) (m : Nat) : (disk.renumber m).IsQuiet p :=
  (forall_mem_renumber disk m (Q := fun w ↦ disk.files.entry p ≠ some w.inode)).mpr h

theorem Holds.renumber {content : Option Bytes} (h : disk.Holds p content) (m : Nat) :
    (disk.renumber m).Holds p content := by
  cases content with
  | none => exact h
  | some content =>
    obtain ⟨n, hentry, hlate, k, hfills, hnext⟩ := h
    refine ⟨n, hentry, fun e he ↦ ?_, k, hfills, hnext.imp_right ?_⟩
    · have hall := (forall_mem_renumber disk m
        (Q := fun w ↦ w.inode = n → w.bytes <+: content.drop w.offset)).mpr
          fun e he hn ↦ hlate e ((mem_lateIn disk).mpr ⟨he, hn⟩)
      exact hall e ((mem_lateIn _).mp he).1 ((mem_lateIn _).mp he).2
    · rintro ⟨e, he, hk⟩
      obtain ⟨e', he', hn, hk'⟩ := (exists_mem_renumber disk m
        (Q := fun w ↦ w.inode = n ∧ w.offset = k ∧ k + w.bytes.length = content.length)).mpr
          ⟨e, ((mem_lateIn disk).mp he).1, ((mem_lateIn disk).mp he).2, hk⟩
      exact ⟨e', (mem_lateIn _).mpr ⟨he', hn⟩, hk'⟩

end Disk

end CooklangSync.Theory
