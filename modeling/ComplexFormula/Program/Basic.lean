import ComplexFormula.ValueTable.Basic

/-!
# Programs

A program computes a pair of real numbers from a pair: first it assigns temporaries one after the other, then it
evaluates two expressions. Programs need not come from a table: an expression may be missing, and any integer may
stand for an argument or a temporary.
-/

namespace ComplexFormula

inductive Expr where
  | missing
  | arg (ref : Ref) (name : Bytes)
  | const (text : Bytes)
  | temp (n : Int)
  | binary (symbol : UInt8) (left right : Expr)
deriving DecidableEq, Inhabited

structure Assign where
  temp : Int
  expr : Expr
deriving DecidableEq

structure Program where
  assigns : List Assign
  re : Expr
  im : Expr
  /-- How many temporaries there are. -/
  temps : Int
deriving DecidableEq

end ComplexFormula
