import ForkLog.Error
import ForkLog.Json

/-! # Responses -/

namespace ForkLog.Http

set_option autoImplicit false

structure Response where
  status : Nat
  contentType : String
  body : String
  deriving DecidableEq, Repr

namespace Response

def ofJson (status : Nat) (j : Json) : Response := ⟨status, "application/json", j.text⟩

def success (data : Json) : Response :=
  ofJson 200 (.object [("success", .bool true), ("data", data)])

end Response

inductive Failure where
  | methodNotAllowed
  | internal (detail : String)
  | timeout
  | badRequest (detail : String)
  | notFound (detail : String)
  deriving DecidableEq, Repr

namespace Failure

def message : Failure → String
  | methodNotAllowed => "Method Not Allowed"
  | internal detail => "Internal Error: " ++ detail
  | timeout => "Request Timeout"
  | badRequest detail => "Bad Request: " ++ detail
  | notFound detail => "Not Found: " ++ detail

def status : Failure → Nat
  | methodNotAllowed => 405
  | internal _ => 500
  | timeout => 408
  | badRequest _ => 400
  | notFound _ => 404

/-- What the client is told. The details of an internal failure are not for the client. -/
def publicMessage : Failure → String
  | methodNotAllowed => "Method Not Allowed"
  | timeout => "Request Timeout"
  | internal _ => "internal server error"
  | badRequest detail => detail
  | notFound detail => detail

def response (f : Failure) : Response :=
  .ofJson f.status
    (.object
      [("success", .bool false),
        ("error", .object
          [("code", .string (toString f.status)), ("message", .string f.publicMessage)])])

def hidden : Failure := .internal "internal server error"

def ofError : Error → Failure
  | .notFound => .notFound "not found"
  | .invalidArguments reason => .badRequest reason
  | _ => hidden

end Failure

end ForkLog.Http
