/-! Errors of the server. -/
namespace Warm.Server

structure StatusCode where
  code : Nat
  deriving DecidableEq, Repr

namespace StatusCode

def ok : StatusCode := ⟨200⟩
def conflict : StatusCode := ⟨409⟩
def unprocessableEntity : StatusCode := ⟨422⟩
def internalServerError : StatusCode := ⟨500⟩
def serviceUnavailable : StatusCode := ⟨503⟩

def isServerError (status : StatusCode) : Bool :=
  500 ≤ status.code && status.code < 600

end StatusCode

structure ApiError where
  status : StatusCode
  code : String
  message : String
  retryAfter : Option Nat
  wwwAuthenticate : Bool
  deriving DecidableEq, Repr

namespace ApiError

def new (status : StatusCode) (code message : String) : ApiError where
  status
  code
  message
  retryAfter := if code = "server_busy" ∨ code = "shutting_down" ∨ code = "tenant_busy" then some 1 else none
  wwwAuthenticate := false

def retry (error : ApiError) (seconds : Nat) : ApiError :=
  { error with retryAfter := some (max seconds 1) }

end ApiError

end Warm.Server
