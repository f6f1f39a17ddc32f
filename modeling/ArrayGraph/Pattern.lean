import ArrayGraph.Primitive
import ArrayGraph.Text.Quoted
/-!
# Patterns

A pattern is how a program writes a call of a primitive: a name, the signatures that
calls of it have, and help. `Pattern.builtins` lists those that every registry
starts with, and `Pattern.observers` those that watch an evaluation.
-/

namespace ArrayGraph

structure Pattern where
  name : String
  signatures : List String
  primitive : Primitive
  help : Option String := none
  deriving DecidableEq, Repr

namespace Pattern

def text (p : Pattern) : String :=
  "MatchPattern \x7b name: " ++ quoted p.name ++ ", signatures: " ++ quotedList p.signatures
    ++ " \x7d"

/-! ## Constants and variables -/

def constantHelp : String :=
  "con(name)\nReturns the value of the named constant of nature.\n"
    ++ "The aliases e(), pi() and ua() take no argument.\nKnown names: \"e\", \"pi\", \"ua\"."

def constants : List Pattern :=
  [⟨"con", ["con(_1)"], .constant, some constantHelp⟩,
    ⟨"e", ["e()"], .constant, some constantHelp⟩,
    ⟨"pi", ["pi()"], .constant, some constantHelp⟩,
    ⟨"ua", ["ua()"], .constant, some constantHelp⟩]

def slots : List Pattern :=
  [⟨"variable", ["variable(_1)"], .variable,
      some "variable(init)\nA named slot holding the value of `init` until overwritten by store()."⟩,
    ⟨"store", ["store(_1, _2)"], .store,
      some "store(var, value)\nEvaluates `value` and writes it into the variable `var`."⟩,
    ⟨"access_argument", ["access_argument(_1)"], .argument,
      some "access_argument(n)\nReturns the n-th argument of the current call."⟩]

/-! ## Operators -/

/-- What a program calls a comparison in words. -/
def compareWord : CompareOp → String
  | .greater => "greater"
  | .greaterEqual => "greater_equal"
  | .less => "less"
  | .lessEqual => "less_equal"
  | .equal => "equal"
  | .notEqual => "not_equal"

def operatorSignature (symbol : String) : String := "_1 " ++ symbol ++ " _2"

def ofCompare (op : CompareOp) : Pattern :=
  ⟨op.name, [operatorSignature op.symbol], .compare op,
    some (compareWord op ++ "(x, y)\nElement-wise x " ++ op.symbol ++ " y.")⟩

def ofArithmetic (op : ArithmeticOp) : Pattern :=
  ⟨op.name, [operatorSignature op.symbol], .arithmetic op, none⟩

/-! ## Statistics -/

/-- What a statistic computes, after its first line of help. -/
def statisticWord : Statistic → String
  | .minimum => "Minimum of `a`, or of each lane along `axis`."
  | .maximum => "Maximum of `a`, or of each lane along `axis`."
  | .sum => "Sum of `a`, or of each lane along `axis`."
  | .product => "Product of `a`, or of each lane along `axis`."
  | .logSumExp => "ln(sum(exp(a))), over `a` or each lane along `axis`."
  | .mean => "Arithmetic mean. Fails on empty input."
  | .variance => "Population variance. Fails on empty input."
  | .standardDeviation => "Population standard deviation. Fails on empty input."

def ofStatistic (s : Statistic) : Pattern :=
  ⟨s.name, [s.name ++ "(_1)", s.name ++ "(_1, _2)"], .statistic s,
    some (s.name ++ "(a, axis)\n" ++ statisticWord s)⟩

/-! ## Control -/

def control : List Pattern :=
  [⟨"for", ["for(_1, _2, _3, _4)"], .forLoop,
      some ("for(init, cond, step, body)\nEvaluates init once, then body and step while cond holds.\n"
        ++ "Returns the value of the last body evaluation.")⟩,
    ⟨"while", ["while(_1, _2)"], .whileLoop,
      some ("while(cond, body)\nEvaluates body while cond holds.\n"
        ++ "Returns the value of the last body evaluation.")⟩,
    ⟨"if", ["if(_1, _2)", "if(_1, _2, _3)"], .choice,
      some "if(cond, then, else)\nEvaluates `then` if cond holds, `else` otherwise."⟩,
    ⟨"block", ["block(__1)"], .block,
      some "block(expr...)\nEvaluates each expression in order; returns the last value."⟩,
    ⟨"parallel_block", ["parallel_block(__1)"], .parallelBlock,
      some ("parallel_block(expr...)\nEvaluates all expressions concurrently; "
        ++ "returns the last value.")⟩]

/-! ## All of them -/

/-- The patterns of every registry, in the order in which they are registered. -/
def builtins : List Pattern :=
  constants ++ slots ++ CompareOp.all.map ofCompare ++ ArithmeticOp.all.map ofArithmetic
    ++ Statistic.all.map ofStatistic ++ control

/-- The patterns of the primitives that watch an evaluation. -/
def observers : List Pattern :=
  [⟨"trace", ["trace(_1, _2)"], .trace, some "trace(tag, expr)"⟩,
    ⟨"echo", ["echo(_1)"], .echo, none⟩,
    ⟨"explode", ["explode()"], .explode, none⟩,
    ⟨"thread_name", ["thread_name()"], .threadName, none⟩]

end Pattern

end ArrayGraph
