import CooklangSync.Theory.Text

/-!
# Errors — `SyncError`

The variants of the client's error type that the modelled operations return.  The payload of a
wrapped third-party error is not modelled; the texts the client writes itself are.
-/

namespace CooklangSync.Client

open Theory

inductive SyncError where
  | ioError (path : Text)
  | convert
  | dbQueryError
  | reqwestError
  | connectionInitError
  | unauthorized
  | paymentRequired
  | getFromCacheError
  | unlistedFileFormat (path : Text)
  | unknown (message : String) (status : Nat)
  | batchDownloadError (message : String)
  deriving DecidableEq, Repr

end CooklangSync.Client
