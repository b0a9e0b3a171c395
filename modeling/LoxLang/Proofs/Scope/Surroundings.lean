import LoxLang.Proofs.Scope.Layer

/-!
What the static walk leaves of its context. An expression is left as it was entered: with the same
scopes, marks included, and in the same kinds of function and class. A statement marks in the innermost
scope the names that it declares where it stands, and changes nothing else.
-/

namespace LoxLang

open Scope

/-- The names that a statement declares in the scope that it stands in. -/
def Stmt.declares : Stmt → List String
  | .var name _ => [name.lexeme]
  | .function decl => (decl.name?.map Token.lexeme).toList
  | .classDecl name _ _ => [name.lexeme]
  | .branch _ thenBranch none => thenBranch.declares
  | .branch _ thenBranch (some elseBranch) => thenBranch.declares ++ elseBranch.declares
  | .loop _ body => body.declares
  | _ => []

namespace Scope

/-- Marks names as ready in the innermost of some scopes. -/
def markAll (names : List String) (scopes : List (Bindings Bool)) : List (Bindings Bool) :=
  names.foldl (fun scopes name => markIn name true scopes) scopes

theorem tail_markAll (names : List String) (scopes : List (Bindings Bool)) :
    (markAll names scopes).tail = scopes.tail := by
  induction names generalizing scopes with
  | nil => rfl
  | cons name names ih =>
      have htail : (markIn name true scopes).tail = scopes.tail := by cases scopes <;> rfl
      exact (ih _).trans htail

theorem markAll_append (names names' : List String) (scopes : List (Bindings Bool)) :
    markAll (names ++ names') scopes = markAll names' (markAll names scopes) :=
  List.foldl_append ..

theorem markIn_eq_nil (name : String) (ready : Bool) (scopes : List (Bindings Bool)) :
    markIn name ready scopes = [] ↔ scopes = [] := by
  cases scopes <;> simp [markIn]

theorem markAll_eq_nil (names : List String) (scopes : List (Bindings Bool)) :
    markAll names scopes = [] ↔ scopes = [] := by
  induction names generalizing scopes with
  | nil => rfl
  | cons name names ih =>
      exact (ih _).trans (markIn_eq_nil ..)

namespace Context

/-- A context in which some names are declared, where `c` is the context before. -/
structure Behind (names : List String) (c c' : Context) : Prop where
  scopes : c'.scopes = markAll names c.scopes
  functionKind : c'.functionKind = c.functionKind
  classKind : c'.classKind = c.classKind

variable {c c' c'' : Context} {names names' : List String} {name : String}

theorem Behind.refl (c : Context) : c.Behind [] c :=
  ⟨rfl, rfl, rfl⟩

theorem Behind.trans (h : c.Behind names c') (h' : c'.Behind names' c'') :
    c.Behind (names ++ names') c'' where
  scopes := by rw [markAll_append, ← h.scopes, h'.scopes]
  functionKind := h'.functionKind.trans h.functionKind
  classKind := h'.classKind.trans h.classKind

/-- What leaves a context as it was may come before anything. -/
theorem Behind.after (h : c.Behind [] c') (h' : c'.Behind names c'') : c.Behind names c'' :=
  h.trans h'

theorem behind_report (token : Token) (cause : Cause) (c : Context) :
    c.Behind [] (c.report token cause) :=
  ⟨rfl, rfl, rfl⟩

theorem behind_bind (ref : Reference) (c : Context) : c.Behind [] (c.bind ref) := by
  unfold bind
  split <;> exact ⟨rfl, rfl, rfl⟩

theorem behind_useIdent (ref : Reference) (c : Context) : c.Behind [] (c.useIdent ref) := by
  unfold useIdent
  dsimp only
  split
  · exact (behind_report _ _ c).after (behind_bind _ _)
  · exact behind_bind _ _

theorem behind_useThis (ref : Reference) (c : Context) : c.Behind [] (c.useThis ref) := by
  unfold useThis
  split
  · exact behind_report _ _ c
  · exact behind_bind _ _

theorem behind_useSuper (ref : Reference) (c : Context) : c.Behind [] (c.useSuper ref) := by
  unfold useSuper
  dsimp only
  split
  · exact (behind_report _ _ c).after (behind_bind _ _)
  · exact (behind_report _ _ c).after (behind_bind _ _)
  · exact behind_bind _ _

theorem behind_useReturn (keyword : Token) (hasValue : Bool) (c : Context) :
    c.Behind [] (c.useReturn keyword hasValue) := by
  unfold useReturn
  dsimp only
  split <;> split <;> exact ⟨rfl, rfl, rfl⟩

theorem functionKind_mark (name : String) (ready : Bool) (c : Context) :
    (c.mark name ready).functionKind = c.functionKind := by
  unfold mark
  split <;> rfl

theorem classKind_mark (name : String) (ready : Bool) (c : Context) :
    (c.mark name ready).classKind = c.classKind := by
  unfold mark
  split <;> rfl

/-- A declared name is marked as ready later, with its initializer walked in between. -/
theorem Behind.declared (name : Token) (h : (c.declare name).Behind [] c') :
    c.Behind [name.lexeme] (c'.define name) := by
  have hkinds : (c.declare name).functionKind = c.functionKind ∧
      (c.declare name).classKind = c.classKind := by
    unfold declare
    dsimp only
    split <;> exact ⟨functionKind_mark _ _ c, classKind_mark _ _ c⟩
  constructor
  · rw [define, scopes_mark, h.scopes]
    change markIn name.lexeme true (c.declare name).scopes = markIn name.lexeme true c.scopes
    rw [scopes_declare, markIn_markIn]
  · rw [define, functionKind_mark, h.functionKind, hkinds.1]
  · rw [define, classKind_mark, h.classKind, hkinds.2]

theorem behind_declareAndDefine (name : Token) (c : Context) :
    c.Behind [name.lexeme] (c.declareAndDefine name) :=
  .declared name (.refl _)

theorem behind_parameters (params : List Token) (c : Context) :
    c.Behind (params.map Token.lexeme) (c.parameters params) := by
  induction params generalizing c with
  | nil => exact .refl c
  | cons p params ih => exact (behind_declareAndDefine p c).trans (ih _)

/-- A scope that is opened and closed leaves nothing. -/
theorem Behind.closed (h : c.openScope.Behind names c') : c.Behind [] c'.closeScope where
  scopes := by
    change c'.scopes.tail = c.scopes
    rw [h.scopes, tail_markAll]
    rfl
  functionKind := h.functionKind
  classKind := h.classKind

/-- A class declares its name, and its methods are walked inside of one scope or two. -/
theorem Behind.inClass {superclass : Option Reference} {name : Token}
    (h : (c.enterClass name superclass).Behind [] c') :
    c.Behind [name.lexeme] (c'.leaveClass c.classKind superclass) := by
  have hdeclared := behind_declareAndDefine name { c with classKind := .base }
  cases superclass with
  | none =>
      constructor
      · change c'.scopes.tail = _
        rw [h.scopes]
        change (((({ c with classKind := .base } : Context).declareAndDefine name).openScope.mark
          "this" true).scopes).tail = _
        rw [scopes_mark]
        exact hdeclared.scopes
      · refine h.functionKind.trans ?_
        exact (functionKind_mark _ _ _).trans hdeclared.functionKind
      · rfl
  | some ref =>
      obtain ⟨c₁, hc₁, hentered⟩ : ∃ c₁ : Context,
          (({ c with classKind := .base } : Context).declareAndDefine name).Behind [] c₁ ∧
            c.enterClass name (some ref) =
              ((({ c₁ with classKind := .derived } : Context).useIdent ref).openScope.mark
                "super" true).openScope.mark "this" true := by
        unfold enterClass
        dsimp only
        split
        · exact ⟨_, behind_report _ _ _, rfl⟩
        · exact ⟨_, .refl _, rfl⟩
      have hused := behind_useIdent ref { c₁ with classKind := .derived }
      rw [hentered] at h
      constructor
      · change c'.scopes.tail.tail = _
        rw [h.scopes]
        change (_ : Context).scopes.tail.tail = _
        rw [scopes_mark]
        change (_ : Context).scopes.tail = _
        rw [scopes_mark]
        exact hused.scopes.trans (hc₁.scopes.trans hdeclared.scopes)
      · refine h.functionKind.trans ?_
        refine (functionKind_mark _ _ _).trans ((functionKind_mark _ _ _).trans ?_)
        exact hused.functionKind.trans (hc₁.functionKind.trans hdeclared.functionKind)
      · rfl

end Context

end Scope

open Context

mutual

theorem Expr.walk_behind : ∀ (e : Expr) (c : Context), c.Behind [] (e.walk c)
  | .literal _, c => .refl c
  | .group inner, c => inner.walk_behind c
  | .unary _ right, c => right.walk_behind c
  | .binary left _ right, c => (left.walk_behind c).after (right.walk_behind _)
  | .logical left _ right, c => (left.walk_behind c).after (right.walk_behind _)
  | .ident ref, c => behind_useIdent ref c
  | .assign ref value, c => (value.walk_behind c).after (behind_bind ref _)
  | .call callee _ arguments, c => (callee.walk_behind c).after (walkExprs_behind arguments _)
  | .function decl, c => decl.walk_behind .function c
  | .get object _, c => object.walk_behind c
  | .set object _ value, c => (object.walk_behind c).after (value.walk_behind _)
  | .this ref, c => behind_useThis ref c
  | .super ref _, c => behind_useSuper ref c

theorem walkExprs_behind : ∀ (es : List Expr) (c : Context), c.Behind [] (walkExprs es c)
  | [], c => .refl c
  | e :: rest, c => (e.walk_behind c).after (walkExprs_behind rest _)

theorem FunctionDecl.walk_behind : ∀ (d : FunctionDecl) (kind : FunctionKind) (c : Context),
    c.Behind [] (d.walk kind c)
  | .mk _ _ params body, kind, c => by
    have hinside : ({ c with functionKind := kind } : Context).openScope.Behind _ _ :=
      (behind_parameters params _).trans (walkStmts_behind body _)
    exact ⟨hinside.closed.scopes, rfl, hinside.closed.classKind⟩

theorem Stmt.walk_behind : ∀ (s : Stmt) (c : Context), c.Behind s.declares (s.walk c)
  | .expr value, c => value.walk_behind c
  | .print value, c => value.walk_behind c
  | .var name none, c => behind_declareAndDefine name c
  | .var name (some value), _ => .declared name (value.walk_behind _)
  | .block body, c => (walkStmts_behind body c.openScope).closed
  | .branch condition thenBranch none, c =>
    (condition.walk_behind c).after (thenBranch.walk_behind _)
  | .branch condition thenBranch (some elseBranch), c =>
    (condition.walk_behind c).after ((thenBranch.walk_behind _).trans (elseBranch.walk_behind _))
  | .loop condition body, c => (condition.walk_behind c).after (body.walk_behind _)
  | .function (.mk (some name) line params body), c =>
    (behind_declareAndDefine name c).trans
      ((FunctionDecl.mk (some name) line params body).walk_behind .function _)
  | .function (.mk none line params body), c =>
    (FunctionDecl.mk none line params body).walk_behind .function c
  | .ret keyword none, c => behind_useReturn keyword false c
  | .ret keyword (some value), c =>
    (behind_useReturn keyword true c).after (value.walk_behind _)
  | .classDecl _ _ methods, _ => .inClass (walkMethods_behind methods _)

theorem walkStmts_behind : ∀ (ss : List Stmt) (c : Context),
    c.Behind (ss.flatMap Stmt.declares) (walkStmts ss c)
  | [], c => .refl c
  | s :: rest, c => (s.walk_behind c).trans (walkStmts_behind rest _)

theorem walkMethods_behind : ∀ (ds : List FunctionDecl) (c : Context),
    c.Behind [] (walkMethods ds c)
  | [], c => .refl c
  | d :: rest, c => (d.walk_behind (methodKind d) c).after (walkMethods_behind rest _)

end

end LoxLang
