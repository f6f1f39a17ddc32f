import ArrayGraph.Tensor.Broadcast
import ArrayGraph.Locality
import ArrayGraph.Primitive
import ArrayGraph.Value
/-!
# Errors

An `Error` names the site of the node that raised it and the cause. Causes are data;
`Cause.kind` sorts them and `Cause.message` words them. A `Failure` is an error of
the whole program: one of a node, or of its settings or its surroundings, under any
number of contexts.
-/

namespace ArrayGraph

/-- The sorts of errors that a node raises. -/
inductive ErrorKind
  | arity | invalidOperand | shapeMismatch | incompatibleOperands | emptySequence
  | unknownIdentifier | placement
  deriving DecidableEq, Repr

/-- Why a node could not be built or evaluated. -/
inductive Cause
  | wrongCount (p : Primitive)
  | emptyOperand (p : Primitive)
  /-- A store was not given a variable to store into. -/
  | notAVariable
  | notAnIndex
  | missingArgument (index supplied : Nat)
  | unmatched (m : Mismatch)
  | unrelatedKinds (symbol : String) (lhs rhs : Kind)
  | notReducible (s : Statistic) (kind : Kind)
  | axisOutOfRange (axis : Int64) (rank : Nat)
  | axisNotInteger (kind : Kind)
  | noElements
  | unknownConstant (name : String)
  | unknownPattern (name : String)
  | notText (kind : Kind)
  | notInteger (kind : Kind)
  | notCondition (kind : Kind)
  /-- A node was placed on a locality that the engine does not have. -/
  | unavailable (id : LocalityId) (count : Nat)
  /-- A job was sent to a locality that the pool does not have. -/
  | notHosted (id : LocalityId) (count : Nat)
  /-- A job panicked on the locality that ran it. -/
  | incomplete (id : LocalityId)
  /-- A cause in words of its own. -/
  | reported (kind : ErrorKind) (message : String)
  deriving DecidableEq, Repr

/-- The text of a list of extents. -/
def Shape.text (shape : Shape) : String :=
  "[" ++ String.intercalate ", " (shape.map toString) ++ "]"

namespace Mismatch

def kind : Mismatch → ErrorKind
  | ranks _ _ => .incompatibleOperands
  | _ => .shapeMismatch

def message : Mismatch → String
  | extents lhs rhs =>
    "the dimensions of the operands do not match: " ++ lhs.text ++ " vs " ++ rhs.text
  | vectorOverMatrix elements columns =>
    "the vector has " ++ toString elements ++ " elements but the matrix has "
      ++ toString columns ++ " columns"
  | matrixOverVector columns elements =>
    "the matrix has " ++ toString columns ++ " columns but the vector has "
      ++ toString elements ++ " elements"
  | ranks lhs rhs =>
    "the operands have incompatible number of dimensions: " ++ toString lhs ++ " and "
      ++ toString rhs
  | repetition shape => "cannot broadcast operands to " ++ shape.text

end Mismatch

namespace Cause

def kind : Cause → ErrorKind
  | wrongCount _ | missingArgument _ _ => .arity
  | emptyOperand _ | notAVariable | notAnIndex | axisOutOfRange _ _ | axisNotInteger _
  | notText _ | notInteger _ => .invalidOperand
  | unmatched m => m.kind
  | unrelatedKinds _ _ _ | notReducible _ _ | notCondition _ => .incompatibleOperands
  | noElements => .emptySequence
  | unknownConstant _ | unknownPattern _ => .unknownIdentifier
  | unavailable _ _ | notHosted _ _ | incomplete _ => .placement
  | reported kind _ => kind

def message : Cause → String
  | wrongCount p => p.countText
  | emptyOperand p => p.validText
  | notAVariable => "the first operand of store must be a variable"
  | notAnIndex => "the access_argument primitive requires a non-negative integer index"
  | missingArgument index supplied =>
    "argument " ++ toString index ++ " requested but only " ++ toString supplied
      ++ " argument(s) supplied"
  | unmatched m => m.message
  | unrelatedKinds symbol lhs rhs =>
    "the operands of '" ++ symbol ++ "' have incompatible types: " ++ lhs.name ++ " and "
      ++ rhs.name
  | notReducible s kind => s.name ++ " can't reduce a value of kind " ++ kind.name
  | axisOutOfRange axis rank =>
    "axis " ++ toString axis.toInt ++ " is out of range for an operand of rank " ++ toString rank
  | axisNotInteger kind => "the axis must be an integer, got " ++ kind.name
  | noElements => EmptySequence.emptySequence.message
  | unknownConstant name => "unknown constant of nature requested: " ++ name
  | unknownPattern name => "no primitive is registered under the name '" ++ name ++ "'"
  | notText kind => "expected a string operand, got " ++ kind.name
  | notInteger kind => "expected an integer operand, got " ++ kind.name
  | notCondition kind => "a " ++ kind.name ++ " value can't be used as a condition"
  | unavailable id count =>
    id.text ++ " is not available (" ++ toString count ++ " localities configured)"
  | notHosted id count =>
    id.text ++ " is not hosted by this pool (" ++ toString count ++ " localities)"
  | incomplete id => "evaluation on " ++ id.text ++ " did not complete"
  | reported _ message => message

end Cause

/-- What building or evaluating a graph reports. -/
inductive Error
  | raised (site : Site) (cause : Cause)
  | duplicatePattern (name : String)
  deriving DecidableEq, Repr

namespace Error

/-- The site of the node at fault. -/
def site? : Error → Option Site
  | raised site _ => some site
  | duplicatePattern _ => none

/-- The cause in words, or the name of the pattern that was there already. -/
def cause : Error → String
  | raised _ cause => cause.message
  | duplicatePattern name => name

def message : Error → String
  | raised site cause => site.text ++ ": " ++ cause.message
  | duplicatePattern name => "pattern '" ++ name ++ "' is already registered"

end Error

/-- What the program reports. -/
inductive Failure
  | graph (e : Error)
  | config (message : String)
  | runtime (message : String)
  | io (message : String)
  | serialization (message : String)
  /-- The program stopped where it stood. -/
  | panic (reason : String)
  | context (context : String) (source : Failure)
  deriving DecidableEq, Repr

namespace Failure

def message : Failure → String
  | graph e => "Primitive error: " ++ e.message
  | config m => "Configuration error: " ++ m
  | runtime m => "Runtime error: " ++ m
  | io m => "IO error: " ++ m
  | serialization m => "Serialization error: " ++ m
  | panic reason => reason
  | context c source => c ++ ": " ++ source.message

/-- The error of a node under all contexts, if it is one. -/
def error? : Failure → Option Error
  | graph e => some e
  | context _ source => source.error?
  | _ => none

/-- The failure inside a context. There is no context around a panic. -/
def inside (f : Failure) (c : String) : Failure :=
  match f with
  | panic reason => panic reason
  | f => context c f

/-- The failure inside these contexts, the first of them innermost. -/
def within (f : Failure) (contexts : List String) : Failure := contexts.foldl inside f

end Failure

end ArrayGraph
