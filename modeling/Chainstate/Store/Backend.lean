-- SUMMARY: The names of the storage backends, and why one cannot be used.
import Chainstate.Text.Quoted

namespace Chainstate

inductive Backend where
  | btree
  | logStructured
  deriving DecidableEq, Repr

inductive BackendError where
  | unknown (name : String)
  | disabled (backend : Backend)
  deriving DecidableEq

namespace Backend

def name : Backend → String
  | btree => "redb"
  | logStructured => "fjall"

def ofName : String → Except BackendError Backend
  | "redb" => .ok btree
  | "fjall" => .ok logStructured
  | other => .error (.unknown other)

/-- Whether databases of this backend can be opened. -/
def check : Backend → Except BackendError Unit
  | btree => .ok ()
  | logStructured => .error (.disabled logStructured)

end Backend

def BackendError.message : BackendError → String
  | .unknown name =>
    s!"unknown backend {Text.quote name} (expected " ++ "\"redb\" or \"fjall\")"
  | .disabled backend =>
    s!"backend {backend.name} is not compiled in; rebuild with --features {backend.name}"

end Chainstate
