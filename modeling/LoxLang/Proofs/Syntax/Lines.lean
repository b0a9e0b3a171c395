import LoxLang.Syntax.Tree

/-!
The lines that the tokens of a tree are on.
-/

namespace LoxLang

mutual

def Expr.lines : Expr → List Nat
  | .literal _ => []
  | .group inner => inner.lines
  | .unary operator right => operator.line :: right.lines
  | .binary left operator right => operator.line :: (left.lines ++ right.lines)
  | .logical left operator right => operator.line :: (left.lines ++ right.lines)
  | .ident ref => [ref.name.line]
  | .assign ref value => ref.name.line :: value.lines
  | .call callee paren arguments => paren.line :: (callee.lines ++ linesOfExprs arguments)
  | .function decl => decl.lines
  | .get object name => name.line :: object.lines
  | .set object name value => name.line :: (object.lines ++ value.lines)
  | .this ref => [ref.name.line]
  | .super ref method => [ref.name.line, method.line]

def linesOfExprs : List Expr → List Nat
  | [] => []
  | e :: rest => e.lines ++ linesOfExprs rest

def FunctionDecl.lines : FunctionDecl → List Nat
  | .mk name line params body =>
    line :: ((name.toList ++ params).map Token.line ++ linesOfStmts body)

def Stmt.lines : Stmt → List Nat
  | .expr value => value.lines
  | .print value => value.lines
  | .var name none => [name.line]
  | .var name (some value) => name.line :: value.lines
  | .block body => linesOfStmts body
  | .branch condition thenBranch none => condition.lines ++ thenBranch.lines
  | .branch condition thenBranch (some elseBranch) =>
    condition.lines ++ (thenBranch.lines ++ elseBranch.lines)
  | .loop condition body => condition.lines ++ body.lines
  | .function decl => decl.lines
  | .ret keyword none => [keyword.line]
  | .ret keyword (some value) => keyword.line :: value.lines
  | .classDecl name superclass methods =>
    name.line :: (superclass.toList.map (fun ref => ref.name.line) ++ linesOfMethods methods)

def linesOfStmts : List Stmt → List Nat
  | [] => []
  | s :: rest => s.lines ++ linesOfStmts rest

def linesOfMethods : List FunctionDecl → List Nat
  | [] => []
  | d :: rest => d.lines ++ linesOfMethods rest

end

end LoxLang
