import CrabScheme.Core.Value

/-!
# Core expressions

The language between the expander and the two tiers, `cs_ir::CoreExpr`. Source spans are left
out.
-/

namespace CrabScheme

/-- Parameter lists: the fixed parameters and the name of the list of further arguments. -/
structure Params where
  fixed : List Symbol
  rest : Option Symbol
deriving DecidableEq, Repr

/-- The names a parameter list binds. -/
def Params.names (p : Params) : List Symbol := p.fixed ++ p.rest.toList

/-- **Core expressions.** -/
inductive CoreExpr
  | const (v : Value)
  | ref (x : Symbol)
  | set (x : Symbol) (value : CoreExpr)
  | lambda (params : Params) (body : CoreExpr)
  | app (func : CoreExpr) (args : List CoreExpr)
  | ite (cond thn alt : CoreExpr)
  | begin (exprs : List CoreExpr)
  | letrec (bindings : List (Symbol × CoreExpr)) (body : CoreExpr)
  | withMark (key val body : CoreExpr)

namespace CoreExpr

/-- Whether an expression is a lambda expression. -/
def isLambda : CoreExpr → Bool
  | .lambda _ _ => true
  | _ => false

end CoreExpr

end CrabScheme
