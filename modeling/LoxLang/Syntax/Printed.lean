import LoxLang.Syntax.Tree

/-!
Syntax trees as parenthesised text, one line a statement. Operators stand before their operands, and
the bodies of named functions are written out.
-/

namespace LoxLang

/-- Numbers in printed trees: whole numbers with all their digits and `.0`, others plain. -/
def treeNumberText (x : Float) : String :=
  Decimal.signed x fun mag =>
    if Decimal.isWhole mag then Decimal.wholeDigits mag ++ ".0" else Decimal.plain.finiteText mag

def Literal.printed : Literal → String
  | .number x => treeNumberText x
  | .text s => s
  | .bool true => "true"
  | .bool false => "false"
  | .nil => "nil"

/-- The parameter list of a function. -/
def FunctionDecl.printedParams (d : FunctionDecl) : String :=
  "(" ++ " ".intercalate (d.params.map Token.lexeme) ++ ")"

mutual

def Expr.printed : Expr → String
  | .literal value => value.printed
  | .group inner => "(group " ++ inner.printed ++ ")"
  | .unary operator right => "(" ++ operator.lexeme ++ " " ++ right.printed ++ ")"
  | .binary left operator right =>
    "(" ++ operator.lexeme ++ " " ++ left.printed ++ " " ++ right.printed ++ ")"
  | .logical left operator right =>
    "(" ++ operator.lexeme ++ " " ++ left.printed ++ " " ++ right.printed ++ ")"
  | .ident ref => ref.name.lexeme
  | .assign ref value => "(= " ++ ref.name.lexeme ++ " " ++ value.printed ++ ")"
  | .call callee _ arguments => "(call " ++ callee.printed ++ printedAll arguments ++ ")"
  | .function decl => "(fun " ++ decl.printedParams ++ " ...)"
  | .get object name => "(. " ++ object.printed ++ " " ++ name.lexeme ++ ")"
  | .set object name value =>
    "(= (. " ++ object.printed ++ " " ++ name.lexeme ++ ") " ++ value.printed ++ ")"
  | .this _ => "this"
  | .super _ method => "(super " ++ method.lexeme ++ ")"

/-- The texts of expressions, a blank before each. -/
def printedAll : List Expr → String
  | [] => ""
  | e :: rest => " " ++ e.printed ++ printedAll rest

end

mutual

def Stmt.printed : Stmt → String
  | .expr value => "(; " ++ value.printed ++ ")"
  | .print value => "(print " ++ value.printed ++ ")"
  | .var name none => "(var " ++ name.lexeme ++ ")"
  | .var name (some value) => "(var " ++ name.lexeme ++ " " ++ value.printed ++ ")"
  | .block body => "(block" ++ printedBody body ++ ")"
  | .branch condition thenBranch none =>
    "(if " ++ condition.printed ++ " " ++ thenBranch.printed ++ ")"
  | .branch condition thenBranch (some elseBranch) =>
    "(if " ++ condition.printed ++ " " ++ thenBranch.printed ++ " " ++ elseBranch.printed ++ ")"
  | .loop condition body => "(while " ++ condition.printed ++ " " ++ body.printed ++ ")"
  | .function decl => decl.printed
  | .ret _ none => "(return)"
  | .ret _ (some value) => "(return " ++ value.printed ++ ")"
  | .classDecl name none methods => "(class " ++ name.lexeme ++ printedMethods methods ++ ")"
  | .classDecl name (some superclass) methods =>
    "(class " ++ name.lexeme ++ " < " ++ superclass.name.lexeme ++ printedMethods methods ++ ")"

/-- A named function with its body. -/
def FunctionDecl.printed : FunctionDecl → String
  | d@(.mk _ _ _ body) => "(fun " ++ d.name ++ " " ++ d.printedParams ++ printedBody body ++ ")"

/-- The texts of statements, a blank before each. -/
def printedBody : List Stmt → String
  | [] => ""
  | s :: rest => " " ++ s.printed ++ printedBody rest

def printedMethods : List FunctionDecl → String
  | [] => ""
  | d :: rest => " " ++ d.printed ++ printedMethods rest

end

end LoxLang
