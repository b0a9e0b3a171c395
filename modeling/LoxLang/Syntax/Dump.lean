import LoxLang.Json
import LoxLang.Syntax.Tree

/-!
Syntax trees as JSON. A node is an object with its kind as the only field; a kind without parts is a
text.
-/

namespace LoxLang

/-- A node of a kind that has parts. -/
def Json.tagged (kind : String) (content : Json) : Json :=
  .object [(kind, content)]

def Literal.toJson : Literal → Json
  | .number x => .tagged "Number" (.real x)
  | .text s => .tagged "Str" (.text s)
  | .bool true => .text "True"
  | .bool false => .text "False"
  | .nil => .text "Nil"

/-- A token's kind, with what the token denotes. -/
def Token.kindJson (t : Token) : Json :=
  match t.payload with
  | none => .text t.kind.name
  | some (.text s) => .tagged t.kind.name (.text s)
  | some (.number x) => .tagged t.kind.name (.real x)

def Token.toJson (t : Token) : Json :=
  .object [("token_type", t.kindJson), ("lexeme", .text t.lexeme), ("line", .natural t.line)]

def Reference.toJson (r : Reference) : Json :=
  .tagged "Variable" (.object [("id", .natural r.id.toNat), ("name", r.name.toJson)])

mutual

def Expr.toJson : Expr → Json
  | .literal value => .tagged "Literal" value.toJson
  | .group inner => .tagged "Grouping" inner.toJson
  | .unary operator right =>
    .tagged "Unary" (.object [("operator", operator.toJson), ("right", right.toJson)])
  | .binary left operator right =>
    .tagged "Binary"
      (.object [("left", left.toJson), ("operator", operator.toJson), ("right", right.toJson)])
  | .logical left operator right =>
    .tagged "Logical"
      (.object [("left", left.toJson), ("operator", operator.toJson), ("right", right.toJson)])
  | .ident ref => ref.toJson
  | .assign ref value =>
    .tagged "Assign"
      (.object [("id", .natural ref.id.toNat), ("name", ref.name.toJson), ("value", value.toJson)])
  | .call callee paren arguments =>
    .tagged "Call"
      (.object [("callee", callee.toJson), ("paren", paren.toJson),
        ("arguments", .array (exprsToJson arguments))])
  | .function decl => .tagged "Function" decl.toJson
  | .get object name => .tagged "Get" (.object [("object", object.toJson), ("name", name.toJson)])
  | .set object name value =>
    .tagged "Set"
      (.object [("object", object.toJson), ("name", name.toJson), ("value", value.toJson)])
  | .this ref =>
    .tagged "This" (.object [("id", .natural ref.id.toNat), ("keyword", ref.name.toJson)])
  | .super ref method =>
    .tagged "Super"
      (.object [("id", .natural ref.id.toNat), ("keyword", ref.name.toJson),
        ("method", method.toJson)])

def exprsToJson : List Expr → List Json
  | [] => []
  | e :: rest => e.toJson :: exprsToJson rest

def FunctionDecl.toJson : FunctionDecl → Json
  | .mk name line params body =>
    .object [("name", match name with | none => .null | some t => t.toJson), ("line", .natural line),
      ("params", .array (params.map Token.toJson)), ("body", .array (stmtsToJson body))]

def Stmt.toJson : Stmt → Json
  | .expr value => .tagged "Expression" value.toJson
  | .print value => .tagged "Print" value.toJson
  | .var name initializer =>
    .tagged "Var" (.object [("name", name.toJson), ("initializer", optionToJson initializer)])
  | .block body => .tagged "Block" (.array (stmtsToJson body))
  | .branch condition thenBranch elseBranch =>
    .tagged "If"
      (.object [("condition", condition.toJson), ("then_branch", thenBranch.toJson),
        ("else_branch", match elseBranch with | none => .null | some s => s.toJson)])
  | .loop condition body =>
    .tagged "While" (.object [("condition", condition.toJson), ("body", body.toJson)])
  | .function decl => .tagged "Function" decl.toJson
  | .ret keyword value =>
    .tagged "Return" (.object [("keyword", keyword.toJson), ("value", optionToJson value)])
  | .classDecl name superclass methods =>
    .tagged "Class"
      (.object [("name", name.toJson),
        ("superclass", match superclass with | none => .null | some r => r.toJson),
        ("methods", .array (declsToJson methods))])

def optionToJson : Option Expr → Json
  | none => .null
  | some e => e.toJson

def stmtsToJson : List Stmt → List Json
  | [] => []
  | s :: rest => s.toJson :: stmtsToJson rest

def declsToJson : List FunctionDecl → List Json
  | [] => []
  | d :: rest => d.toJson :: declsToJson rest

end

/-- A program as JSON. -/
def programJson (program : List Stmt) : Json :=
  .array (stmtsToJson program)

end LoxLang
