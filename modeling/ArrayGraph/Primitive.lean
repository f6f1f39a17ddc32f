import ArrayGraph.Operator
import ArrayGraph.Statistic.Reducer
/-!
# Primitives

What a node of a graph computes. Most primitives are part of every registry; the
last four only observe an evaluation and are registered where that is wanted.
`Primitive.accepts` tells how many operands a node may be built with.
-/

namespace ArrayGraph

inductive Primitive
  /-- A constant of nature, named by an operand or by the node's own name. -/
  | constant
  /-- A slot that holds its initial operand until something is stored in it. -/
  | variable
  /-- Evaluates an operand into the slot of a variable. -/
  | store
  /-- One of the arguments of the call. -/
  | argument
  | compare (op : CompareOp)
  | arithmetic (op : ArithmeticOp)
  | statistic (s : Statistic)
  | forLoop
  | whileLoop
  | choice
  /-- Operands one after the other. -/
  | block
  /-- Operands side by side. -/
  | parallelBlock
  /-- Writes a tag to the log, then evaluates an operand. -/
  | trace
  /-- Its first operand as it stands, not evaluated. -/
  | echo
  /-- Panics. -/
  | explode
  /-- The name of the thread that runs the node. -/
  | threadName
  deriving DecidableEq, Repr

namespace Primitive

/-- The name of the sort of node. The constants have one in common. -/
def kind : Primitive → String
  | .constant => "con"
  | .variable => "variable"
  | .store => "store"
  | .argument => "access_argument"
  | .compare op => op.name
  | .arithmetic op => op.name
  | .statistic s => s.name
  | .forLoop => "for"
  | .whileLoop => "while"
  | .choice => "if"
  | .block => "block"
  | .parallelBlock => "parallel_block"
  | .trace => "trace"
  | .echo => "echo"
  | .explode => "explode"
  | .threadName => "thread_name"

/-- Whether the primitive is part of every registry. -/
def isBuiltin : Primitive → Bool
  | .trace | .echo | .explode | .threadName => false
  | _ => true

/-- Whether a node may be built with this many operands. Operators and statistics
built with none take the arguments of the call instead. -/
def accepts : Primitive → Nat → Bool
  | .constant, n => n ≤ 1
  | .variable, n => n == 1
  | .store, n => n == 2
  | .argument, n => n == 1
  | .compare _, n => n == 0 || n == 2
  | .arithmetic _, n => n == 0 || n == 2
  | .statistic _, n => n ≤ 2
  | .forLoop, n => n == 4
  | .whileLoop, n => n == 2
  | .choice, n => n == 2 || n == 3
  | .block, n => n ≥ 1
  | .parallelBlock, n => n ≥ 1
  | .trace, n => n == 2
  | .echo, _ => true
  | .explode, _ => true
  | .threadName, _ => true

/-- Whether every operand of a node must be valid. -/
def needsValid : Primitive → Bool
  | .argument | .echo | .explode | .threadName => false
  | _ => true

/-- What is said of a wrong number of operands. -/
def countText : Primitive → String
  | .constant => "constants_of_nature accepts either none or exactly one argument"
  | .variable => "the variable primitive requires exactly one operand"
  | .store => "the store primitive requires exactly two operands"
  | .argument => "the access_argument primitive requires exactly one operand"
  | .compare op => "the '" ++ op.symbol ++ "' primitive requires exactly two operands"
  | .arithmetic op => "the '" ++ op.symbol ++ "' primitive requires exactly two operands"
  | .statistic s => s.name ++ " requires one or two operands"
  | .forLoop => "the for_operation primitive requires exactly four arguments"
  | .whileLoop => "the while_operation primitive requires exactly two arguments"
  | .choice => "the if primitive requires two or three arguments"
  | .block => "the block primitive requires at least one argument"
  | .parallelBlock => "the parallel_block_operation primitive requires at least one argument"
  | .trace => "trace requires exactly two operands"
  | .echo | .explode | .threadName => "any number of operands is accepted"

/-- What is said of an operand that is not valid. -/
def validText : Primitive → String
  | .constant => "the constants_of_nature primitive requires that its argument is valid"
  | .variable => "the variable primitive requires a valid initial value"
  | .store => "the store primitive requires that both operands are valid"
  | .compare op =>
    "the '" ++ op.symbol
      ++ "' primitive requires that the arguments given by the operands array are valid"
  | .arithmetic op => "the '" ++ op.symbol ++ "' primitive requires that its operands are valid"
  | .statistic s => "the " ++ s.name ++ " primitive requires that all operands are valid"
  | .forLoop =>
    "the for_operation primitive requires that the arguments given by the operands array are valid"
  | .whileLoop =>
    "the while_operation primitive requires that the arguments given by the operands array are valid"
  | .choice => "the if primitive requires that all of its operands are valid"
  | .block => "the block primitive requires that all of its operands are valid"
  | .parallelBlock =>
    "the parallel_block_operation primitive requires that all of its operands are valid"
  | .trace => "trace requires valid operands"
  | .argument | .echo | .explode | .threadName => "any operand is accepted"

end Primitive

end ArrayGraph
