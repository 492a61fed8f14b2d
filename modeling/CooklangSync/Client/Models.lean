import CooklangSync.Theory.Text

/-!
# Models — rows of the client's registry and the forms that insert them
-/

namespace CooklangSync.Client

open Theory

/-- A point in time: whole seconds since the epoch and the nanoseconds past them. -/
structure OffsetDateTime where
  seconds : Int
  nanosecond : Nat
  deriving DecidableEq, Repr

structure FileRecord where
  id : Int
  jid : Option Int
  deleted : Bool
  path : Text
  size : Int
  modifiedAt : OffsetDateTime
  namespaceId : Int
  deriving DecidableEq, Repr

structure CreateForm where
  jid : Option Int
  path : Text
  deleted : Bool
  size : Int
  modifiedAt : OffsetDateTime
  namespaceId : Int
  deriving DecidableEq, Repr

structure DeleteForm where
  path : Text
  jid : Option Int
  size : Int
  modifiedAt : OffsetDateTime
  deleted : Bool
  namespaceId : Int
  deriving DecidableEq, Repr

-- `PartialEq<CreateForm> for FileRecord`
def FileRecord.sameAs (record : FileRecord) (other : CreateForm) : Bool :=
  record.path = other.path && record.size = other.size && record.modifiedAt = other.modifiedAt

def CreateForm.withId (form : CreateForm) (id : Int) : FileRecord where
  id := id
  jid := form.jid
  deleted := form.deleted
  path := form.path
  size := form.size
  modifiedAt := form.modifiedAt
  namespaceId := form.namespaceId

def DeleteForm.withId (form : DeleteForm) (id : Int) : FileRecord where
  id := id
  jid := form.jid
  deleted := form.deleted
  path := form.path
  size := form.size
  modifiedAt := form.modifiedAt
  namespaceId := form.namespaceId

@[simp] theorem CreateForm.id_withId (form : CreateForm) (id : Int) :
    (form.withId id).id = id := rfl

@[simp] theorem DeleteForm.id_withId (form : DeleteForm) (id : Int) :
    (form.withId id).id = id := rfl

end CooklangSync.Client
