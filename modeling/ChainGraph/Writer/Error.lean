import ChainGraph.Domain.Models

/-!
# Errors of the writer layer

`WriterError` and which of its cases a retry may cure, and the faults the database and its driver
report underneath.
-/

namespace ChainGraph

/-- Why a statement or a connection failed, below the writer. -/
inductive DbFault where
  /-- A uniqueness constraint of the schema refused the statement. -/
  | constraintViolation
  /-- A node cannot be merged on a null property. -/
  | nullProperty
  /-- The query did not answer within the configured time. -/
  | elapsed
  /-- Anything else the driver reports. -/
  | driver (message : String)
deriving DecidableEq, Repr

namespace DbFault

instance : ToString DbFault where
  toString
    | constraintViolation => "constraint violation"
    | nullProperty => "cannot merge node using null property value"
    | elapsed => "deadline has elapsed"
    | driver message => message

end DbFault

/-- Errors that can occur during graph database operations. -/
inductive WriterError where
  | OutputNotFound (message : String)
  | ConnectionFailed (message : String)
  | QueryFailed (message : String)
  | CheckpointError (message : String)
  | SerializationError (message : String)
  | DatabaseError (message : String)
  | ConstraintViolation (message : String)
  | TransactionFailed (message : String)
  | ReorgDetected (height : ℕ) (expected actual : BlockHash)
deriving DecidableEq, Repr

namespace WriterError

/-- Whether the error is transient and safe to retry. -/
def isRetryable : WriterError → Bool
  | QueryFailed _ => true
  | ConnectionFailed _ => true
  | _ => false

end WriterError

end ChainGraph
