import LoxLang.Grammar.Program

/-!
The grammar as a relation. A phrase is a construct of the grammar together with the tree that stands
for it, and `Derives φ s t` says that the input `s` begins with tokens that `φ` derives, and that `t`
is left behind them. Every rule of the grammar is one constructor. The next identity is part of an input, so
that a tree is fixed down to the identities of its references.

    program     → declaration* EOF
    declaration → "class" IDENTIFIER ( "<" IDENTIFIER )? "{" function* "}"
                | "fun" function | variable | statement
    function    → IDENTIFIER callable
    callable    → "(" parameters? ")" block
    variable    → "var" IDENTIFIER ( "=" expression )? ";"
    statement   → "for" "(" ( variable | expression ";" | ";" ) expression? ";" expression? ")"
                  statement
                | "if" "(" expression ")" statement ( "else" statement )?
                | "print" expression ";" | "return" expression? ";"
                | "while" "(" expression ")" statement | block | expression ";"
    block       → "{" declaration* "}"
    expression  → assignment
    assignment  → ( call "." )? IDENTIFIER "=" assignment | disjunction
-/

namespace LoxLang.Grammar

/-- The rules for expressions, from the one that binds loosest to the one that binds tightest. -/
inductive Tier where
  | assignment | disjunction | conjunction | equality | comparison | term | factor
  | unary | call | primary
deriving DecidableEq

namespace Tier

/-- The rule for the operands of a rule. -/
def next : Tier → Tier
  | assignment => disjunction
  | disjunction => conjunction
  | conjunction => equality
  | equality => comparison
  | comparison => term
  | term => factor
  | factor => unary
  | unary => call
  | call => primary
  | primary => primary

/-- The operators that join the operands of a rule, to the left. -/
def operators : Tier → List Kind
  | disjunction => [.kwOr]
  | conjunction => [.kwAnd]
  | equality => [.bangEqual, .equalEqual]
  | comparison => [.greater, .greaterEqual, .less, .lessEqual]
  | term => [.minus, .plus]
  | factor => [.slash, .star]
  | _ => []

/-- The node for two operands that a rule joins. -/
def join : Tier → Expr → Token → Expr → Expr
  | disjunction => .logical
  | conjunction => .logical
  | _ => .binary

end Tier

/-- The tokens to be read, and the identity that the next reference gets. -/
structure Input where
  tokens : List Token
  nextId : Identity

inductive Phrase where
  | expr (tier : Tier) (e : Expr)
  /-- An expression that may be missing. -/
  | option (e : Option Expr)
  | arguments (es : List Expr)
  | parameters (names : List Token)
  | callable (params : List Token) (body : List Stmt)
  | function (decl : FunctionDecl)
  | functions (decls : List FunctionDecl)
  | block (body : List Stmt)
  | variable (s : Stmt)
  | exprStmt (s : Stmt)
  /-- What a `for` statement may begin with. -/
  | forInit (s : Option Stmt)
  /-- A statement. An open one ends with an `if` that has no `else`, which an `else` behind it would
  belong to. -/
  | statement (isOpen : Bool) (s : Stmt)
  | declaration (s : Stmt)
  | declarations (ss : List Stmt)
  | program (ss : List Stmt)
  | whole (e : Expr)

/-- The test of a loop. A `for` statement without one goes on for ever. -/
inductive ForTest : Option Expr → Expr → Prop
  | missing : ForTest none (.literal (.bool true))
  | present (e : Expr) : ForTest (some e) e

/-- What a loop repeats: a body, and the increment of a `for` statement behind it. -/
inductive ForBody : Option Expr → Stmt → Stmt → Prop
  | bare (body : Stmt) : ForBody none body body
  | incremented (e : Expr) (body : Stmt) : ForBody (some e) body (.block [body, .expr e])

/-- The tree that a `for` statement has, from what it begins with, its condition, its increment and its
body: a loop, and a block around what it begins with and the loop. -/
inductive ForTree : Option Stmt → Option Expr → Option Expr → Stmt → Stmt → Prop
  | bare {condition increment : Option Expr} {body repeated : Stmt} {test : Expr}
    (htest : ForTest condition test) (hbody : ForBody increment body repeated) :
    ForTree none condition increment body (.loop test repeated)
  | begun {condition increment : Option Expr} {body repeated : Stmt} {test : Expr} (init : Stmt)
    (htest : ForTest condition test) (hbody : ForBody increment body repeated) :
    ForTree (some init) condition increment body (.block [init, .loop test repeated])

inductive Derives : Phrase → Input → Input → Prop
  | tighter {s t : Input} {tier e}
    (hprimary : tier ≠ .primary) (he : Derives (.expr tier.next e) s t) :
    Derives (.expr tier e) s t
  | assignName {ts us i j} {name equals : Token} {value}
    (hname : name.kind = .identifier) (hequals : equals.kind = .equal)
    (hvalue : Derives (.expr .assignment value) ⟨ts, i + 1⟩ ⟨us, j⟩) :
    Derives (.expr .assignment (.assign ⟨j, name⟩ value)) ⟨name :: equals :: ts, i⟩ ⟨us, j + 1⟩
  | assignProperty {s t : Input} {ts i} {dot name equals : Token} {object value}
    (hobject : Derives (.expr .call object) s ⟨dot :: name :: equals :: ts, i⟩)
    (hdot : dot.kind = .dot) (hname : name.kind = .identifier) (hequals : equals.kind = .equal)
    (hvalue : Derives (.expr .assignment value) ⟨ts, i⟩ t) :
    Derives (.expr .assignment (.set object name value)) s t
  | joined {s t : Input} {ts i} {tier operator left right}
    (hleft : Derives (.expr tier left) s ⟨operator :: ts, i⟩)
    (hoperator : operator.kind ∈ tier.operators)
    (hright : Derives (.expr tier.next right) ⟨ts, i⟩ t) :
    Derives (.expr tier (tier.join left operator right)) s t
  | unary {t : Input} {ts i} {operator : Token} {right}
    (hoperator : operator.kind = .bang ∨ operator.kind = .minus)
    (hright : Derives (.expr .unary right) ⟨ts, i⟩ t) :
    Derives (.expr .unary (.unary operator right)) ⟨operator :: ts, i⟩ t
  | call {s : Input} {ts us i j} {opening closing : Token} {callee arguments}
    (hcallee : Derives (.expr .call callee) s ⟨opening :: ts, i⟩)
    (hopening : opening.kind = .leftParen)
    (harguments : Derives (.arguments arguments) ⟨ts, i⟩ ⟨closing :: us, j⟩)
    (hlength : arguments.length ≤ maxArguments) (hclosing : closing.kind = .rightParen) :
    Derives (.expr .call (.call callee closing arguments)) s ⟨us, j⟩
  | property {s : Input} {ts i} {dot name : Token} {object}
    (hobject : Derives (.expr .call object) s ⟨dot :: name :: ts, i⟩)
    (hdot : dot.kind = .dot) (hname : name.kind = .identifier) :
    Derives (.expr .call (.get object name)) s ⟨ts, i⟩
  | falseLiteral {ts i} {t : Token} (ht : t.kind = .kwFalse) :
    Derives (.expr .primary (.literal (.bool false))) ⟨t :: ts, i⟩ ⟨ts, i⟩
  | trueLiteral {ts i} {t : Token} (ht : t.kind = .kwTrue) :
    Derives (.expr .primary (.literal (.bool true))) ⟨t :: ts, i⟩ ⟨ts, i⟩
  | nilLiteral {ts i} {t : Token} (ht : t.kind = .kwNil) :
    Derives (.expr .primary (.literal .nil)) ⟨t :: ts, i⟩ ⟨ts, i⟩
  | numberLiteral {ts i} {t : Token} (ht : t.kind = .number) :
    Derives (.expr .primary (.literal (.number (Decimal.read t.lexeme)))) ⟨t :: ts, i⟩ ⟨ts, i⟩
  | textLiteral {ts i} {t : Token} (ht : t.kind = .string) :
    Derives (.expr .primary (.literal (.text t.unquoted))) ⟨t :: ts, i⟩ ⟨ts, i⟩
  | this {ts i} {t : Token} (ht : t.kind = .kwThis) :
    Derives (.expr .primary (.this ⟨i, t⟩)) ⟨t :: ts, i⟩ ⟨ts, i + 1⟩
  | ident {ts i} {t : Token} (ht : t.kind = .identifier) :
    Derives (.expr .primary (.ident ⟨i, t⟩)) ⟨t :: ts, i⟩ ⟨ts, i + 1⟩
  | super {ts i} {keyword dot method : Token}
    (hkeyword : keyword.kind = .kwSuper) (hdot : dot.kind = .dot)
    (hmethod : method.kind = .identifier) :
    Derives (.expr .primary (.super ⟨i, keyword⟩ method)) ⟨keyword :: dot :: method :: ts, i⟩
      ⟨ts, i + 1⟩
  | group {ts us i j} {opening closing : Token} {inner} (hopening : opening.kind = .leftParen)
    (hinner : Derives (.expr .assignment inner) ⟨ts, i⟩ ⟨closing :: us, j⟩)
    (hclosing : closing.kind = .rightParen) :
    Derives (.expr .primary (.group inner)) ⟨opening :: ts, i⟩ ⟨us, j⟩
  | anonymous {t : Input} {ts i} {keyword : Token} {params body} (hkeyword : keyword.kind = .kwFun)
    (hrest : Derives (.callable params body) ⟨ts, i⟩ t) :
    Derives (.expr .primary (.function (.mk none keyword.line params body))) ⟨keyword :: ts, i⟩ t
  | missing {s : Input} : Derives (.option none) s s
  | present {s t : Input} {e}
    (he : Derives (.expr .assignment e) s t) : Derives (.option (some e)) s t
  | noArguments {s : Input} : Derives (.arguments []) s s
  | lastArgument {s t : Input} {e}
    (he : Derives (.expr .assignment e) s t) : Derives (.arguments [e]) s t
  | moreArguments {s t : Input} {ts i} {comma : Token} {e es}
    (he : Derives (.expr .assignment e) s ⟨comma :: ts, i⟩)
    (hcomma : comma.kind = .comma) (hes : Derives (.arguments es) ⟨ts, i⟩ t) (hmore : es ≠ []) :
    Derives (.arguments (e :: es)) s t
  | noParameters {s : Input} : Derives (.parameters []) s s
  | lastParameter {ts i} {name : Token} (hname : name.kind = .identifier) :
    Derives (.parameters [name]) ⟨name :: ts, i⟩ ⟨ts, i⟩
  | moreParameters {t : Input} {ts i} {name comma : Token} {names} (hname : name.kind = .identifier)
    (hcomma : comma.kind = .comma) (hnames : Derives (.parameters names) ⟨ts, i⟩ t)
    (hmore : names ≠ []) :
    Derives (.parameters (name :: names)) ⟨name :: comma :: ts, i⟩ t
  | callable {t : Input} {ts us i j} {opening closing : Token} {params body}
    (hopening : opening.kind = .leftParen)
    (hparams : Derives (.parameters params) ⟨ts, i⟩ ⟨closing :: us, j⟩)
    (hlength : params.length ≤ maxArguments) (hclosing : closing.kind = .rightParen)
    (hbody : Derives (.block body) ⟨us, j⟩ t) :
    Derives (.callable params body) ⟨opening :: ts, i⟩ t
  | function {t : Input} {ts i} {name : Token} {params body} (hname : name.kind = .identifier)
    (hrest : Derives (.callable params body) ⟨ts, i⟩ t) :
    Derives (.function (.mk (some name) name.line params body)) ⟨name :: ts, i⟩ t
  | noFunctions {s : Input} : Derives (.functions []) s s
  | moreFunctions {s t : Input} {d ds} {u : Input} (hd : Derives (.function d) s t)
    (hds : Derives (.functions ds) t u) : Derives (.functions (d :: ds)) s u
  | block {ts us i j} {opening closing : Token} {body} (hopening : opening.kind = .leftBrace)
    (hbody : Derives (.declarations body) ⟨ts, i⟩ ⟨closing :: us, j⟩)
    (hclosing : closing.kind = .rightBrace) :
    Derives (.block body) ⟨opening :: ts, i⟩ ⟨us, j⟩
  | bareVariable {ts i} {keyword name semicolon : Token} (hkeyword : keyword.kind = .kwVar)
    (hname : name.kind = .identifier) (hsemicolon : semicolon.kind = .semicolon) :
    Derives (.variable (.var name none)) ⟨keyword :: name :: semicolon :: ts, i⟩ ⟨ts, i⟩
  | setVariable {ts us i j} {keyword name equals semicolon : Token} {value}
    (hkeyword : keyword.kind = .kwVar)
    (hname : name.kind = .identifier) (hequals : equals.kind = .equal)
    (hvalue : Derives (.expr .assignment value) ⟨ts, i⟩ ⟨semicolon :: us, j⟩)
    (hsemicolon : semicolon.kind = .semicolon) :
    Derives (.variable (.var name (some value))) ⟨keyword :: name :: equals :: ts, i⟩ ⟨us, j⟩
  | exprStmt {s : Input} {ts i} {semicolon : Token} {value}
    (hvalue : Derives (.expr .assignment value) s ⟨semicolon :: ts, i⟩)
    (hsemicolon : semicolon.kind = .semicolon) :
    Derives (.exprStmt (.expr value)) s ⟨ts, i⟩
  | noInit {ts i} {semicolon : Token} (hsemicolon : semicolon.kind = .semicolon) :
    Derives (.forInit none) ⟨semicolon :: ts, i⟩ ⟨ts, i⟩
  | variableInit {s t : Input} {a}
    (ha : Derives (.variable a) s t) : Derives (.forInit (some a)) s t
  | exprInit {s t : Input} {a} (ha : Derives (.exprStmt a) s t) : Derives (.forInit (some a)) s t
  | simple {s t : Input} {a} (ha : Derives (.exprStmt a) s t) : Derives (.statement false a) s t
  | print {ts us i j} {keyword semicolon : Token} {value} (hkeyword : keyword.kind = .kwPrint)
    (hvalue : Derives (.expr .assignment value) ⟨ts, i⟩ ⟨semicolon :: us, j⟩)
    (hsemicolon : semicolon.kind = .semicolon) :
    Derives (.statement false (.print value)) ⟨keyword :: ts, i⟩ ⟨us, j⟩
  | ret {ts us i j} {keyword semicolon : Token} {value} (hkeyword : keyword.kind = .kwReturn)
    (hvalue : Derives (.option value) ⟨ts, i⟩ ⟨semicolon :: us, j⟩)
    (hsemicolon : semicolon.kind = .semicolon) :
    Derives (.statement false (.ret keyword value)) ⟨keyword :: ts, i⟩ ⟨us, j⟩
  | compound {s t : Input} {body}
    (hbody : Derives (.block body) s t) : Derives (.statement false (.block body)) s t
  | loop {t : Input} {ts us i j} {keyword opening closing : Token} {condition body isOpen}
    (hkeyword : keyword.kind = .kwWhile)
    (hopening : opening.kind = .leftParen)
    (hcondition : Derives (.expr .assignment condition) ⟨ts, i⟩ ⟨closing :: us, j⟩)
    (hclosing : closing.kind = .rightParen) (hbody : Derives (.statement isOpen body) ⟨us, j⟩ t) :
    Derives (.statement isOpen (.loop condition body)) ⟨keyword :: opening :: ts, i⟩ t
  | forLoop {t : Input} {ts us vs ws i j k l} {keyword opening semicolon closing : Token}
    {init condition increment body tree isOpen}
    (hkeyword : keyword.kind = .kwFor) (hopening : opening.kind = .leftParen)
    (hinit : Derives (.forInit init) ⟨ts, i⟩ ⟨us, j⟩)
    (hcondition : Derives (.option condition) ⟨us, j⟩ ⟨semicolon :: vs, k⟩)
    (hsemicolon : semicolon.kind = .semicolon)
    (hincrement : Derives (.option increment) ⟨vs, k⟩ ⟨closing :: ws, l⟩)
    (hclosing : closing.kind = .rightParen) (hbody : Derives (.statement isOpen body) ⟨ws, l⟩ t)
    (htree : ForTree init condition increment body tree) :
    Derives (.statement isOpen tree) ⟨keyword :: opening :: ts, i⟩ t
  | ifThen {t : Input} {ts us i j} {keyword opening closing : Token} {condition thenBranch isOpen}
    (hkeyword : keyword.kind = .kwIf) (hopening : opening.kind = .leftParen)
    (hcondition : Derives (.expr .assignment condition) ⟨ts, i⟩ ⟨closing :: us, j⟩)
    (hclosing : closing.kind = .rightParen)
    (hthen : Derives (.statement isOpen thenBranch) ⟨us, j⟩ t) :
    Derives (.statement true (.branch condition thenBranch none))
      ⟨keyword :: opening :: ts, i⟩ t
  | ifElse {t : Input} {ts us vs i j k} {keyword opening closing otherwise : Token}
    {condition thenBranch elseBranch isOpen}
    (hkeyword : keyword.kind = .kwIf) (hopening : opening.kind = .leftParen)
    (hcondition : Derives (.expr .assignment condition) ⟨ts, i⟩ ⟨closing :: us, j⟩)
    (hclosing : closing.kind = .rightParen)
    (hthen : Derives (.statement false thenBranch) ⟨us, j⟩ ⟨otherwise :: vs, k⟩)
    (hotherwise : otherwise.kind = .kwElse)
    (helse : Derives (.statement isOpen elseBranch) ⟨vs, k⟩ t) :
    Derives (.statement isOpen (.branch condition thenBranch (some elseBranch)))
      ⟨keyword :: opening :: ts, i⟩ t
  | baseClass {ts us i j} {keyword name opening closing : Token} {members}
    (hkeyword : keyword.kind = .kwClass)
    (hname : name.kind = .identifier) (hopening : opening.kind = .leftBrace)
    (hmembers : Derives (.functions members) ⟨ts, i⟩ ⟨closing :: us, j⟩)
    (hclosing : closing.kind = .rightBrace) :
    Derives (.declaration (.classDecl name none members))
      ⟨keyword :: name :: opening :: ts, i⟩ ⟨us, j⟩
  | derivedClass {ts us i j} {keyword name less parent opening closing : Token} {members}
    (hkeyword : keyword.kind = .kwClass) (hname : name.kind = .identifier)
    (hless : less.kind = .less) (hparent : parent.kind = .identifier)
    (hopening : opening.kind = .leftBrace)
    (hmembers : Derives (.functions members) ⟨ts, i + 1⟩ ⟨closing :: us, j⟩)
    (hclosing : closing.kind = .rightBrace) :
    Derives (.declaration (.classDecl name (some ⟨i, parent⟩) members))
      ⟨keyword :: name :: less :: parent :: opening :: ts, i⟩ ⟨us, j⟩
  | functionDecl {t : Input} {ts i} {keyword : Token} {d} (hkeyword : keyword.kind = .kwFun)
    (hd : Derives (.function d) ⟨ts, i⟩ t) :
    Derives (.declaration (.function d)) ⟨keyword :: ts, i⟩ t
  | variableDecl {s t : Input} {a} (ha : Derives (.variable a) s t) : Derives (.declaration a) s t
  | statementDecl {s t : Input} {a isOpen}
    (ha : Derives (.statement isOpen a) s t) : Derives (.declaration a) s t
  | noDeclarations {s : Input} : Derives (.declarations []) s s
  | moreDeclarations {s t : Input} {a rest} {u : Input} (ha : Derives (.declaration a) s t)
    (hrest : Derives (.declarations rest) t u) : Derives (.declarations (a :: rest)) s u
  | program {ts i j} {stop : Token} {ss} (hss : Derives (.declarations ss) ⟨ts, i⟩ ⟨[], j⟩)
    (hstop : stop.kind = .eof) : Derives (.program ss) ⟨ts ++ [stop], i⟩ ⟨[], j⟩
  | whole {ts i j} {stop : Token} {e} (he : Derives (.expr .assignment e) ⟨ts, i⟩ ⟨[], j⟩)
    (hstop : stop.kind = .eof) : Derives (.whole e) ⟨ts ++ [stop], i⟩ ⟨[], j⟩

/-- The tree of a `for` statement is the loop that the parser makes of it. -/
theorem forTree_iff {init : Option Stmt} {condition increment : Option Expr} {body tree : Stmt} :
    ForTree init condition increment body tree ↔
      tree = forLoop init (condition.getD (.literal (.bool true))) increment body := by
  constructor
  · intro h
    cases h with
    | bare htest hbody => cases htest <;> cases hbody <;> rfl
    | begun init htest hbody => cases htest <;> cases hbody <;> rfl
  · rintro rfl
    have htest : ForTest condition (condition.getD (.literal (.bool true))) := by
      cases condition with
      | none => exact .missing
      | some e => exact .present e
    cases init with
    | none =>
        cases increment with
        | none => exact .bare htest (.bare body)
        | some e => exact .bare htest (.incremented e body)
    | some init =>
        cases increment with
        | none => exact .begun init htest (.bare body)
        | some e => exact .begun init htest (.incremented e body)

/-- What a rule derives, the rules for looser levels derive as well. -/
theorem Derives.loosened {s t : Input} {e : Expr} {tier : Tier} (n : Nat)
    (h : Derives (.expr (n.repeat Tier.next tier) e) s t) : Derives (.expr tier e) s t := by
  induction n with
  | zero => exact h
  | succ n ih =>
      apply ih
      by_cases hprimary : n.repeat Tier.next tier = .primary
      · have hnext : (n + 1).repeat Tier.next tier = .primary := congrArg Tier.next hprimary
        rwa [hnext, ← hprimary] at h
      · exact .tighter hprimary h

end LoxLang.Grammar
