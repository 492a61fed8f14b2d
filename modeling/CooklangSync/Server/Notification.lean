import CooklangSync.Theory.Text
import Mathlib.Data.List.AList

/-!
# Notification — the clients that wait for a commit

A client that polls has an entry under its uuid, and the entry an object that a commit of another
client notifies.  A notification wakes one waiter on the object or leaves one permit for the next;
here it always leaves a permit, which a waiter takes when it wakes.
-/

namespace CooklangSync.Server

open Theory

/-- The entries, and the objects that were made: which of them hold a permit. -/
structure ActiveClients where
  clients : AList fun _ : Text ↦ Nat
  permit : Nat → Bool
  created : Nat

namespace ActiveClients

def init : ActiveClients := ⟨∅, fun _ ↦ false, 0⟩

/-- The object of the client's entry, which is made when there is none. -/
def register (active : ActiveClients) (uuid : Text) : Nat × ActiveClients :=
  match active.clients.lookup uuid with
  | some object => (object, active)
  | none =>
    (active.created,
      { clients := active.clients.insert uuid active.created
        permit := Function.update active.permit active.created false
        created := active.created + 1 })

def remove (active : ActiveClients) (uuid : Text) : ActiveClients :=
  { active with clients := active.clients.erase uuid }

def notify (active : ActiveClients) (uuid : Text) : ActiveClients :=
  { active with permit := active.clients.entries.foldl (fun permit entry ↦
      if entry.1 ≠ uuid then Function.update permit entry.2 true else permit) active.permit }

/-- A waiter on the object wakes. -/
def take (active : ActiveClients) (object : Nat) : ActiveClients :=
  { active with permit := Function.update active.permit object false }

/-! ## What the operations change -/

theorem register_of_some {active : ActiveClients} {uuid : Text} {object : Nat}
    (h : active.clients.lookup uuid = some object) : active.register uuid = (object, active) := by
  rw [register, h]

theorem register_of_none {active : ActiveClients} {uuid : Text}
    (h : active.clients.lookup uuid = none) :
    active.register uuid = (active.created,
      { clients := active.clients.insert uuid active.created
        permit := Function.update active.permit active.created false
        created := active.created + 1 }) := by
  rw [register, h]

theorem lookup_register_of_ne {active : ActiveClients} {uuid client : Text} (h : client ≠ uuid) :
    (active.register uuid).2.clients.lookup client = active.clients.lookup client := by
  rw [register]
  split
  · rfl
  · exact AList.lookup_insert_ne h

theorem lookup_register_self (active : ActiveClients) (uuid : Text) :
    (active.register uuid).2.clients.lookup uuid = some (active.register uuid).1 := by
  rw [register]
  split
  · assumption
  · exact AList.lookup_insert _

theorem lookup_remove_of_ne {active : ActiveClients} {uuid client : Text} (h : client ≠ uuid) :
    (active.remove uuid).clients.lookup client = active.clients.lookup client :=
  AList.lookup_erase_ne h

theorem lookup_remove_self (active : ActiveClients) (uuid : Text) :
    (active.remove uuid).clients.lookup uuid = none := AList.lookup_erase _ _

theorem permit_foldl_iff (uuid : Text) (object : Nat) (entries : List (Sigma fun _ : Text ↦ Nat))
    (permit : Nat → Bool) :
    entries.foldl (fun permit entry ↦
        if entry.1 ≠ uuid then Function.update permit entry.2 true else permit) permit object = true ↔
      permit object = true ∨ ∃ entry ∈ entries, entry.1 ≠ uuid ∧ entry.2 = object := by
  induction entries generalizing permit with
  | nil => simp
  | cons entry entries ih =>
    have hone : (if entry.1 ≠ uuid then Function.update permit entry.2 true else permit) object =
        true ↔ permit object = true ∨ entry.1 ≠ uuid ∧ entry.2 = object := by
      by_cases huuid : entry.1 = uuid
      · simp [huuid]
      · by_cases hobject : entry.2 = object
        · simp [huuid, hobject]
        · simp [huuid, hobject, Function.update_of_ne (Ne.symm hobject)]
    rw [List.foldl_cons, ih, hone, or_assoc]
    simp only [List.exists_mem_cons_iff]

theorem permit_notify_iff (active : ActiveClients) (uuid : Text) (object : Nat) :
    (active.notify uuid).permit object = true ↔ active.permit object = true ∨
      ∃ client, client ≠ uuid ∧ active.clients.lookup client = some object := by
  rw [notify, permit_foldl_iff]
  apply or_congr_right
  constructor
  · rintro ⟨⟨client, o⟩, hentry, hne, rfl⟩
    exact ⟨client, hne, AList.mem_lookup_iff.mpr hentry⟩
  · rintro ⟨client, hne, hlookup⟩
    exact ⟨⟨client, object⟩, AList.mem_lookup_iff.mp hlookup, hne, rfl⟩

end ActiveClients

end CooklangSync.Server
