import LoxLang.Syntax.Tree

/-!
Equality of syntax trees. Tokens and identities take part in it; numbers are compared as numbers, so
that the two zeros are the same.
-/

namespace LoxLang

def Literal.same : Literal → Literal → Bool
  | .number x, .number y => x == y
  | .text s, .text t => s == t
  | .bool a, .bool b => a == b
  | .nil, .nil => true
  | _, _ => false

mutual

def Expr.same : Expr → Expr → Bool
  | .literal a, .literal b => a.same b
  | .group a, .group b => a.same b
  | .unary o a, .unary p b => o == p && a.same b
  | .binary a o c, .binary b p d => a.same b && o == p && c.same d
  | .logical a o c, .logical b p d => a.same b && o == p && c.same d
  | .ident r, .ident s => r == s
  | .assign r a, .assign s b => r == s && a.same b
  | .call a p as, .call b q bs => a.same b && p == q && sameExprs as bs
  | .function d, .function e => d.same e
  | .get a n, .get b m => a.same b && n == m
  | .set a n c, .set b m d => a.same b && n == m && c.same d
  | .this r, .this s => r == s
  | .super r n, .super s m => r == s && n == m
  | _, _ => false

def sameExprs : List Expr → List Expr → Bool
  | [], [] => true
  | a :: as, b :: bs => a.same b && sameExprs as bs
  | _, _ => false

def FunctionDecl.same : FunctionDecl → FunctionDecl → Bool
  | .mk n l ps b, .mk m k qs c => n == m && l == k && ps == qs && sameStmts b c

def Stmt.same : Stmt → Stmt → Bool
  | .expr a, .expr b => a.same b
  | .print a, .print b => a.same b
  | .var n a, .var m b => n == m && sameOption a b
  | .block a, .block b => sameStmts a b
  | .branch a s t, .branch b u v => a.same b && s.same u && sameElse t v
  | .loop a s, .loop b u => a.same b && s.same u
  | .function d, .function e => d.same e
  | .ret n a, .ret m b => n == m && sameOption a b
  | .classDecl n r ds, .classDecl m s es => n == m && r == s && sameDecls ds es
  | _, _ => false

def sameOption : Option Expr → Option Expr → Bool
  | none, none => true
  | some a, some b => a.same b
  | _, _ => false

def sameElse : Option Stmt → Option Stmt → Bool
  | none, none => true
  | some a, some b => a.same b
  | _, _ => false

def sameStmts : List Stmt → List Stmt → Bool
  | [], [] => true
  | a :: as, b :: bs => a.same b && sameStmts as bs
  | _, _ => false

def sameDecls : List FunctionDecl → List FunctionDecl → Bool
  | [], [] => true
  | a :: as, b :: bs => a.same b && sameDecls as bs
  | _, _ => false

end

end LoxLang
