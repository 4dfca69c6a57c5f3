/-!
# Status codes

The canonical result codes of the runtime (`iree_status_code_t`) and the status value a fallible
call returns: a code with the formatted message of the call site.  Source locations, stack traces
and payload chains annotate a status and are not read by any modelled function.
-/

namespace Hrx

/-- The codes of `iree_status_code_t`, in numeric order. -/
inductive StatusCode where
  | ok
  | cancelled
  | unknown
  | invalidArgument
  | deadlineExceeded
  | notFound
  | alreadyExists
  | permissionDenied
  | resourceExhausted
  | failedPrecondition
  | aborted
  | outOfRange
  | unimplemented
  | internal
  | unavailable
  | dataLoss
  | unauthenticated
  | deferred
  | incompatible
deriving DecidableEq, Repr, Inhabited

/-- A status: its code and its message (empty for an OK status). -/
structure Status where
  code : StatusCode
  message : String
deriving DecidableEq, Repr, Inhabited

/-- The OK status (`iree_ok_status`). -/
def Status.ok : Status := ⟨.ok, ""⟩

def Status.isOk (s : Status) : Bool := s.code == .ok

end Hrx
