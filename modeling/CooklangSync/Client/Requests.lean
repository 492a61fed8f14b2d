import CooklangSync.Client.Bodies
import CooklangSync.Client.Upload

/-!
# Requests — what the client makes of the status of an answer

Every request of `Remote` but `poll` reads the answer under the status 200, tells 401 and 402 apart, and
reports any other status under a text of its own.
-/

namespace CooklangSync.Client

open Theory

namespace Remote

def ofStatus {α : Type} (message : String) (status : Nat) (answer : Outcome SyncError α) :
    Outcome SyncError α :=
  if status = 200 then answer
  else if status = 401 then .err .unauthorized
  else if status = 402 then .err .paymentRequired
  else .err (.unknown message status)

def uploadContentType (boundary : Text) : Text :=
  "multipart/form-data; boundary=".toList ++ boundary

def uploadBatch (status : Nat) : Outcome SyncError Unit :=
  ofStatus "Upload batch failed with status" status (.ok ())

def download (status : Nat) (body : Outcome SyncError Bytes) : Outcome SyncError Bytes :=
  ofStatus "Download chunk failed with status" status body

def commit (status : Nat) (answer : Outcome SyncError CommitResultStatus) :
    Outcome SyncError CommitResultStatus :=
  ofStatus "Commit metadata failed with status" status answer

def list (status : Nat) (answer : Outcome SyncError (List ResponseFileRecord)) :
    Outcome SyncError (List ResponseFileRecord) :=
  ofStatus "List metadata failed with status" status answer

end Remote

end CooklangSync.Client
