/-!
The exceptions of the runtime library. Every class derived from
`SnaccException` fixes an error code and a text, so an exception is modelled by
these two. The other way a call can fail to return is undefined behaviour of
the C++ program, which no caller can observe as an exception; it is kept apart.
-/

namespace Esnacc

/-- The error codes `ERRBASE + 1` to `ERRBASE + 13`, and the one of an exception
that names none. -/
inductive ErrorCode
  | memoryError | boundsError | invalidTag | invalidAny | decodeError | restrictedTypeError
  | integerError | parameterError | oidError | fileIoError | bufferError | encodeError
  | constraintError | defaultErrorCode
  deriving DecidableEq, Repr

structure SnaccException where
  what : String
  errorCode : ErrorCode
  deriving DecidableEq, Repr

/-- What a call does instead of returning. -/
inductive Fault
  | thrown (e : SnaccException)
  | undefinedBehaviour (why : String)
  deriving DecidableEq, Repr

/-- `EXCEPT(what, err)`. -/
def except (what : String) (err : ErrorCode) : Fault := .thrown ⟨what, err⟩

def boundsException (what : String) : Fault := except what .boundsError

def bufferException (what : String) : Fault := except what .bufferError

def constraintException (what : String) : Fault := except what .constraintError

def memoryException (what : String) : Fault := except what .memoryError

/-- The text names the type and the tag; only the type is kept. -/
def invalidTagException (type : String) : Fault := except type .invalidTag

end Esnacc
