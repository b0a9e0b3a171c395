import LoxLang.Grammar.Program
import LoxLang.Proofs.Commuting
import LoxLang.Proofs.Syntax.Relabel

/-!
Reading under other labels. A reader never looks at the line of a token, and does nothing with
identities but count them: on relabelled tokens it does what it does on the tokens, and gives the
tree relabelled. This holds of readings that fail, too, so that errors are found at the same tokens,
and as many identities are handed out.
-/

namespace LoxLang

section

variable (μ : Relabelling)

def SyntaxError.relabel (e : SyntaxError) : SyntaxError :=
  { e with found := e.found.map (Token.relabel μ) }

namespace Grammar

def Cursor.relabel (c : Cursor) : Cursor :=
  ⟨c.ahead.map (Token.relabel μ), c.nextId + μ.shift, c.errors.map (SyntaxError.relabel μ)⟩

/-- The second reader reads relabelled tokens as the first one reads the tokens. -/
abbrev Relabels {α β : Type} (f : α → β) (x : Reader α) (y : Reader β) : Prop :=
  Commutes (SyntaxError.relabel μ) (Cursor.relabel μ) f x y

end Grammar

end

namespace Grammar

variable {μ : Relabelling} {α β : Type} {f : α → β} {r : Rules} {form : FunctionForm}

/-! ### Single tokens -/

theorem relabels_next? : Relabels μ (Option.map (Token.relabel μ)) next? next? := by
  rintro ⟨ts, i, es⟩
  cases ts <;> rfl

theorem relabels_atEnd : Relabels μ id atEnd atEnd := by
  rintro ⟨ts, i, es⟩
  cases ts <;> rfl

theorem relabels_sees (kind : Kind) : Relabels μ id (sees kind) (sees kind) := by
  rintro ⟨ts, i, es⟩
  cases ts <;> rfl

theorem relabels_skip : Relabels μ id skip skip := by
  apply Commutes.modify
  rintro ⟨ts, i, es⟩
  cases ts <;> rfl

theorem relabels_takeIf (test : Kind → Bool) :
    Relabels μ (Option.map (Token.relabel μ)) (takeIf test) (takeIf test) := by
  refine relabels_next?.bind fun o => ?_
  cases o with
  | none => exact .pure rfl
  | some t => exact .ite (relabels_skip.bind fun _ => .pure rfl) (.pure rfl)

theorem relabels_accept (kind : Kind) : Relabels μ id (accept kind) (accept kind) := by
  refine (relabels_takeIf _).bind fun o => .pure ?_
  cases o <;> rfl

theorem relabels_refuse (cause : SyntaxCause) : Relabels μ f (refuse cause) (refuse cause) :=
  relabels_next?.bind fun _ => .throw rfl

theorem relabels_expect (kind : Kind) (cause : SyntaxCause) :
    Relabels μ (Token.relabel μ) (expect kind cause) (expect kind cause) := by
  refine (relabels_takeIf _).bind fun o => ?_
  cases o with
  | none => exact relabels_refuse cause
  | some t => exact .pure rfl

theorem relabels_record (e : SyntaxError) : Relabels μ id (record e) (record (e.relabel μ)) := by
  apply Commutes.modify
  intro c
  simp [Cursor.relabel]

theorem relabels_reference (name : Token) :
    Relabels μ (Reference.relabel μ) (reference name) (reference (name.relabel μ)) := by
  intro c
  have hnext : c.nextId + μ.shift + 1 = c.nextId + 1 + μ.shift := by
    rw [UInt64.add_assoc, UInt64.add_comm μ.shift, UInt64.add_assoc]
  have hcursor : (⟨(c.relabel μ).ahead, c.nextId + μ.shift + 1, (c.relabel μ).errors⟩ : Cursor) =
      Cursor.relabel μ { c with nextId := c.nextId + 1 } := by
    rw [hnext]
    rfl
  exact congrArg (EStateM.Result.ok _) hcursor

/-! ### Expressions -/

structure Rules.Relabel (μ : Relabelling) (r : Rules) : Prop where
  expression : Relabels μ (Expr.relabel μ) r.expression r.expression
  unary : Relabels μ (Expr.relabel μ) r.unary r.unary
  statement : Relabels μ (Stmt.relabel μ) r.statement r.statement
  declaration : Relabels μ (Option.map (Stmt.relabel μ)) r.declaration r.declaration

theorem relabels_extend {test : Kind → Bool} {build : Expr → Token → Expr → Expr}
    {operand : Reader Expr} (hoperand : Relabels μ (Expr.relabel μ) operand operand)
    (hbuild : ∀ e t e', build (e.relabel μ) (t.relabel μ) (e'.relabel μ) = (build e t e').relabel μ)
    (n : Nat) (e : Expr) :
    Relabels μ (Expr.relabel μ) (extend test build operand n e)
      (extend test build operand n (e.relabel μ)) := by
  induction n generalizing e with
  | zero => exact .pure rfl
  | succ n ih =>
      refine (relabels_takeIf test).bind fun o => ?_
      cases o with
      | none => exact .pure rfl
      | some operator =>
          refine hoperand.bind fun right => ?_
          rw [hbuild]
          exact ih _

theorem relabels_level {bound : Nat} {test : Kind → Bool} {build : Expr → Token → Expr → Expr}
    {operand : Reader Expr} (hoperand : Relabels μ (Expr.relabel μ) operand operand)
    (hbuild : ∀ e t e',
      build (e.relabel μ) (t.relabel μ) (e'.relabel μ) = (build e t e').relabel μ) :
    Relabels μ (Expr.relabel μ) (level bound test build operand) (level bound test build operand) :=
  hoperand.bind fun e => relabels_extend hoperand hbuild bound e

theorem relabels_parameterNames (n count : Nat) :
    Relabels μ (List.map (Token.relabel μ)) (parameterNames n count) (parameterNames n count) := by
  induction n generalizing count with
  | zero => exact relabels_refuse _
  | succ n ih =>
      have hrest : Relabels μ (List.map (Token.relabel μ)) (do
          let name ← expect .identifier .noParameterName
          if ← accept .comma then return name :: (← parameterNames n (count + 1))
          else return [name]) (do
          let name ← expect .identifier .noParameterName
          if ← accept .comma then return name :: (← parameterNames n (count + 1))
          else return [name]) := by
        refine (relabels_expect _ _).bind fun name => (relabels_accept _).bind fun more => ?_
        exact .ite ((ih _).bind fun names => .pure rfl) (.pure rfl)
      exact .ite (relabels_next?.bind fun t => (relabels_record _).bind fun _ => hrest) hrest

theorem relabels_argumentValues {expression : Reader Expr}
    (hexpression : Relabels μ (Expr.relabel μ) expression expression) (n count : Nat) :
    Relabels μ (relabelExprs μ) (argumentValues expression n count)
      (argumentValues expression n count) := by
  induction n generalizing count with
  | zero => exact relabels_refuse _
  | succ n ih =>
      have hrest : Relabels μ (relabelExprs μ) (do
          let value ← expression
          if ← accept .comma then return value :: (← argumentValues expression n (count + 1))
          else return [value]) (do
          let value ← expression
          if ← accept .comma then return value :: (← argumentValues expression n (count + 1))
          else return [value]) := by
        refine hexpression.bind fun value => (relabels_accept _).bind fun more => ?_
        exact .ite ((ih _).bind fun values => .pure rfl) (.pure rfl)
      exact .ite (relabels_next?.bind fun t => (relabels_record _).bind fun _ => hrest) hrest

theorem relabelStmts_append (ss ss' : List Stmt) :
    relabelStmts μ (ss ++ ss') = relabelStmts μ ss ++ relabelStmts μ ss' := by
  induction ss with
  | nil => rfl
  | cons s ss ih => exact congrArg (s.relabel μ :: ·) ih

theorem relabelStmts_toList (s : Option Stmt) :
    (s.map (Stmt.relabel μ)).toList = relabelStmts μ s.toList := by
  cases s <;> rfl

theorem relabels_declarations {declaration : Reader (Option Stmt)}
    (hdeclaration : Relabels μ (Option.map (Stmt.relabel μ)) declaration declaration) (n : Nat) :
    Relabels μ (relabelStmts μ) (declarations declaration n) (declarations declaration n) := by
  induction n with
  | zero => exact .pure rfl
  | succ n ih =>
      refine (relabels_sees _).bind fun closing => relabels_atEnd.bind fun ended => ?_
      refine .ite (.pure rfl) (hdeclaration.bind fun first => ih.bind fun rest => .pure ?_)
      rw [relabelStmts_toList, relabelStmts_append]

namespace Rules.Relabel

theorem block (hr : r.Relabel μ) : Relabels μ (relabelStmts μ) (block r) (block r) := by
  refine (relabels_declarations hr.declaration r.bound).bind fun body => ?_
  exact (relabels_expect _ _).bind fun _ => .pure rfl

theorem functionRest (hr : r.Relabel μ) (name : Option Token) (line : Nat) :
    Relabels μ (FunctionDecl.relabel μ) (functionRest r form name line)
      (functionRest r form (name.map (Token.relabel μ)) (μ.line line)) := by
  have hbody : ∀ params, Relabels μ (FunctionDecl.relabel μ) (do
      let _ ← expect .rightParen .noParameterListEnd
      let _ ← expect .leftBrace (.noFunctionBody form)
      return FunctionDecl.mk name line params (← Grammar.block r)) (do
      let _ ← expect .rightParen .noParameterListEnd
      let _ ← expect .leftBrace (.noFunctionBody form)
      return FunctionDecl.mk (name.map (Token.relabel μ)) (μ.line line)
        (params.map (Token.relabel μ)) (← Grammar.block r)) := fun params =>
    (relabels_expect _ _).bind fun _ => (relabels_expect _ _).bind fun _ =>
      hr.block.bind fun _ => .pure rfl
  refine (relabels_sees _).bind fun closing => .ite ?_ ?_
  · exact (Commutes.pure rfl).bind hbody
  · exact (relabels_parameterNames _ _).bind hbody

theorem primary (hr : r.Relabel μ) : Relabels μ (Expr.relabel μ) (primary r) (primary r) := by
  refine relabels_next?.bind fun o => ?_
  cases o with
  | none => exact relabels_refuse _
  | some t =>
      have hreference : Relabels μ _ (reference t) (reference (t.relabel μ)) :=
        relabels_reference t
      rw [Option.map_some]
      dsimp only
      rw [Token.kind_relabel]
      cases t.kind with
      | kwFalse | kwTrue | kwNil | number | string => exact relabels_skip.bind fun _ => .pure rfl
      | kwThis | identifier =>
          exact relabels_skip.bind fun _ => hreference.bind fun _ => .pure rfl
      | kwSuper =>
          refine relabels_skip.bind fun _ => (relabels_expect _ _).bind fun _ => ?_
          exact (relabels_expect _ _).bind fun method => hreference.bind fun _ => .pure rfl
      | kwFun =>
          refine relabels_skip.bind fun _ => (relabels_expect _ _).bind fun _ => ?_
          exact (hr.functionRest none t.line).bind fun _ => .pure rfl
      | leftParen =>
          refine relabels_skip.bind fun _ => hr.expression.bind fun _ => ?_
          exact (relabels_expect _ _).bind fun _ => .pure rfl
      | _ => exact relabels_refuse _

theorem callRest (hr : r.Relabel μ) (callee : Expr) :
    Relabels μ (Expr.relabel μ) (callRest r callee) (callRest r (callee.relabel μ)) := by
  have hend : ∀ arguments, Relabels μ (Expr.relabel μ) (do
      let paren ← expect .rightParen .noArgumentsEnd
      return Expr.call callee paren arguments) (do
      let paren ← expect .rightParen .noArgumentsEnd
      return Expr.call (callee.relabel μ) paren (relabelExprs μ arguments)) := fun arguments =>
    (relabels_expect _ _).bind fun _ => .pure rfl
  refine (relabels_sees _).bind fun closing => .ite ?_ ?_
  · exact (Commutes.pure rfl).bind hend
  · exact (relabels_argumentValues hr.expression _ _).bind hend

theorem suffixes (hr : r.Relabel μ) (n : Nat) (e : Expr) :
    Relabels μ (Expr.relabel μ) (suffixes r n e) (suffixes r n (e.relabel μ)) := by
  induction n generalizing e with
  | zero => exact .pure rfl
  | succ n ih =>
      refine (relabels_accept _).bind fun called => .ite ?_ ?_
      · exact (hr.callRest e).bind fun e => ih e
      · refine (relabels_accept _).bind fun dotted => .ite ?_ (.pure rfl)
        exact (relabels_expect _ _).bind fun name => ih (.get e name)

theorem unaryLevel (hr : r.Relabel μ) :
    Relabels μ (Expr.relabel μ) (Grammar.unary r) (Grammar.unary r) := by
  refine (relabels_takeIf _).bind fun o => ?_
  cases o with
  | none => exact hr.primary.bind fun e => hr.suffixes r.bound e
  | some operator => exact hr.unary.bind fun _ => .pure rfl

theorem disjunction (hr : r.Relabel μ) :
    Relabels μ (Expr.relabel μ) (disjunction r) (disjunction r) := by
  have hlevel : ∀ {build : Expr → Token → Expr → Expr} {operand : Reader Expr} {test : Kind → Bool},
      (∀ e t e', build (e.relabel μ) (t.relabel μ) (e'.relabel μ) = (build e t e').relabel μ) →
        Relabels μ (Expr.relabel μ) operand operand →
          Relabels μ (Expr.relabel μ) (level r.bound test build operand)
            (level r.bound test build operand) := fun hbuild hoperand =>
    relabels_level hoperand hbuild
  have hbinary : ∀ e t e', Expr.binary (e.relabel μ) (t.relabel μ) (e'.relabel μ) =
      (Expr.binary e t e').relabel μ := fun _ _ _ => rfl
  have hlogical : ∀ e t e', Expr.logical (e.relabel μ) (t.relabel μ) (e'.relabel μ) =
      (Expr.logical e t e').relabel μ := fun _ _ _ => rfl
  exact hlevel hlogical (hlevel hlogical (hlevel hbinary (hlevel hbinary (hlevel hbinary
    (hlevel hbinary hr.unaryLevel)))))

theorem assignment (hr : r.Relabel μ) :
    Relabels μ (Expr.relabel μ) (assignment r) (assignment r) := by
  refine hr.disjunction.bind fun target => (relabels_takeIf _).bind fun o => ?_
  cases o with
  | none => exact .pure rfl
  | some equals =>
      refine hr.expression.bind fun value => ?_
      cases target with
      | ident ref => exact (relabels_reference ref.name).bind fun _ => .pure rfl
      | get object name => exact .pure rfl
      | _ => exact (relabels_record _).bind fun _ => .pure rfl

/-! ### Statements -/

theorem namedFunction (hr : r.Relabel μ) :
    Relabels μ (FunctionDecl.relabel μ) (namedFunction r form) (namedFunction r form) :=
  (relabels_expect _ _).bind fun name => (relabels_expect _ _).bind fun _ =>
    hr.functionRest (some name) name.line

theorem methods (hr : r.Relabel μ) (n : Nat) :
    Relabels μ (relabelMethods μ) (methods r n) (methods r n) := by
  induction n with
  | zero => exact .pure rfl
  | succ n ih =>
      refine (relabels_sees _).bind fun closing => relabels_atEnd.bind fun ended => ?_
      exact .ite (.pure rfl) (hr.namedFunction.bind fun first => ih.bind fun rest => .pure rfl)

end Rules.Relabel

theorem relabels_superclass? :
    Relabels μ (Option.map (Reference.relabel μ)) superclass? superclass? := by
  refine (relabels_accept _).bind fun derived => .ite ?_ (.pure rfl)
  exact (relabels_expect _ _).bind fun name => (relabels_reference name).bind fun _ => .pure rfl

/-- Any part that is left out where a token of some kind stands. -/
theorem relabels_optional {α' β' : Type} {kind : Kind} {absent : α} {absent' : α'}
    {present : Reader α} {present' : Reader α'} {k : α → Reader β} {k' : α' → Reader β'}
    {g : α → α'} {h : β → β'} (habsent : absent' = g absent) (hpresent : Relabels μ g present present')
    (hk : ∀ a, Relabels μ h (k a) (k' (g a))) :
    Relabels μ h (do if ← sees kind then k (← pure absent) else k (← present))
      (do if ← sees kind then k' (← pure absent') else k' (← present')) :=
  (relabels_sees kind).bind fun _ => .ite ((Commutes.pure habsent).bind hk) (hpresent.bind hk)

namespace Rules.Relabel

theorem classRest (hr : r.Relabel μ) : Relabels μ (Stmt.relabel μ) (classRest r) (classRest r) :=
  (relabels_expect _ _).bind fun _ => relabels_superclass?.bind fun _ =>
    (relabels_expect _ _).bind fun _ => (hr.methods r.bound).bind fun _ =>
      (relabels_expect _ _).bind fun _ => .pure rfl

theorem variableRest (hr : r.Relabel μ) :
    Relabels μ (Stmt.relabel μ) (variableRest r) (variableRest r) := by
  refine (relabels_expect _ _).bind fun name => (relabels_accept _).bind fun set => ?_
  have hend : ∀ initializer, Relabels μ (Stmt.relabel μ) (do
      let _ ← expect .semicolon .noVariableEnd
      return Stmt.var name initializer) (do
      let _ ← expect .semicolon .noVariableEnd
      return Stmt.var (name.relabel μ) (initializer.map (Expr.relabel μ))) := fun initializer =>
    (relabels_expect _ _).bind fun _ => .pure (Stmt.relabel_var name initializer).symm
  refine .ite ?_ ((Commutes.pure rfl).bind hend)
  exact hr.assignment.some.bind hend

theorem expressionStatement (hr : r.Relabel μ) :
    Relabels μ (Stmt.relabel μ) (expressionStatement r) (expressionStatement r) :=
  hr.assignment.bind fun _ => (relabels_expect _ _).bind fun _ => .pure rfl

theorem forInitializer (hr : r.Relabel μ) :
    Relabels μ (Option.map (Stmt.relabel μ)) (forInitializer r) (forInitializer r) := by
  refine (relabels_accept _).bind fun absent => .ite (.pure rfl) ?_
  refine (relabels_accept _).bind fun declares => .ite ?_ ?_
  · exact hr.variableRest.some
  · exact hr.expressionStatement.some

theorem forRest (hr : r.Relabel μ) : Relabels μ (Stmt.relabel μ) (forRest r) (forRest r) := by
  refine (relabels_expect _ _).bind fun _ => hr.forInitializer.bind fun init => ?_
  refine relabels_optional (by rfl) hr.assignment fun condition => ?_
  refine (relabels_expect _ _).bind fun _ => ?_
  refine relabels_optional (by rfl) hr.assignment.some fun increment => ?_
  refine (relabels_expect _ _).bind fun _ => hr.statement.bind fun body => .pure ?_
  cases init <;> cases increment <;> rfl

theorem ifRest (hr : r.Relabel μ) : Relabels μ (Stmt.relabel μ) (ifRest r) (ifRest r) := by
  refine (relabels_expect _ _).bind fun _ => hr.assignment.bind fun condition => ?_
  refine (relabels_expect _ _).bind fun _ => hr.statement.bind fun thenBranch => ?_
  refine (relabels_accept _).bind fun otherwise => .ite ?_ ?_
  · exact hr.statement.some.bind fun _ => .pure (Stmt.relabel_branch ..).symm
  · exact (Commutes.pure (f := Option.map (Stmt.relabel μ)) rfl).bind fun _ =>
      .pure (Stmt.relabel_branch ..).symm

theorem printRest (hr : r.Relabel μ) : Relabels μ (Stmt.relabel μ) (printRest r) (printRest r) :=
  hr.assignment.bind fun _ => (relabels_expect _ _).bind fun _ => .pure rfl

theorem returnRest (hr : r.Relabel μ) (keyword : Token) :
    Relabels μ (Stmt.relabel μ) (returnRest r keyword) (returnRest r (keyword.relabel μ)) :=
  relabels_optional (by rfl) hr.assignment.some fun _ => (relabels_expect _ _).bind fun _ =>
    .pure (Stmt.relabel_ret ..).symm

theorem whileRest (hr : r.Relabel μ) : Relabels μ (Stmt.relabel μ) (whileRest r) (whileRest r) :=
  (relabels_expect _ _).bind fun _ => hr.assignment.bind fun _ =>
    (relabels_expect _ _).bind fun _ => hr.statement.bind fun _ => .pure rfl

theorem statementLevel (hr : r.Relabel μ) :
    Relabels μ (Stmt.relabel μ) (Grammar.statement r) (Grammar.statement r) := by
  refine relabels_next?.bind fun o => ?_
  cases o with
  | none => exact hr.expressionStatement
  | some t =>
      rw [Option.map_some]
      dsimp only
      rw [Token.kind_relabel]
      split
      · exact relabels_skip.bind fun _ => hr.forRest
      · exact relabels_skip.bind fun _ => hr.ifRest
      · exact relabels_skip.bind fun _ => hr.printRest
      · exact relabels_skip.bind fun _ => hr.returnRest t
      · exact relabels_skip.bind fun _ => hr.whileRest
      · exact relabels_skip.bind fun _ => hr.block.map fun _ => rfl
      · exact hr.expressionStatement

end Rules.Relabel

theorem relabels_seesNamedFunction : Relabels μ id seesNamedFunction seesNamedFunction := by
  rintro ⟨ts, i, es⟩
  rcases ts with _ | ⟨first, _ | ⟨second, rest⟩⟩ <;> rfl

theorem Rules.Relabel.declared (hr : r.Relabel μ) :
    Relabels μ (Stmt.relabel μ) (declared r) (declared r) := by
  refine (relabels_accept _).bind fun isClass => .ite hr.classRest ?_
  refine relabels_seesNamedFunction.bind fun isFunction => .ite ?_ ?_
  · exact relabels_skip.bind fun _ => hr.namedFunction.map fun _ => rfl
  · refine (relabels_accept _).bind fun isVariable => .ite hr.variableRest ?_
    exact hr.statementLevel

theorem synchronized_relabel (ts : List Token) :
    synchronized (ts.map (Token.relabel μ)) = (synchronized ts).map (Token.relabel μ) := by
  have hresume : ∀ ts : List Token,
      resume (ts.map (Token.relabel μ)) = (resume ts).map (Token.relabel μ) := by
    intro ts
    induction ts with
    | nil => rfl
    | cons t ts ih =>
        simp only [List.map_cons, resume, Token.relabel, ih]
        split
        · rfl
        · split <;> rfl
  cases ts with
  | nil => rfl
  | cons t ts =>
      simp only [List.map_cons, synchronized, Token.relabel]
      split
      · rfl
      · exact hresume ts

theorem relabels_recovering {read : Reader α} {read' : Reader β} (hread : Relabels μ f read read') :
    Relabels μ (Option.map f) (recovering read) (recovering read') := by
  intro c
  unfold recovering
  rw [hread c]
  cases read c with
  | ok a d => rfl
  | error e d => simp [mapOutcome, Cursor.relabel, synchronized_relabel]

/-! ### Programs -/

theorem rules_relabel (n : Nat) : (rules n).Relabel μ := by
  induction n with
  | zero =>
      exact ⟨relabels_refuse _, relabels_refuse _, relabels_refuse _, relabels_refuse _⟩
  | succ n ih =>
      exact ⟨ih.assignment, ih.unaryLevel, ih.statementLevel, relabels_recovering ih.declared⟩

theorem relabels_program {declaration : Reader (Option Stmt)}
    (hdeclaration : Relabels μ (Option.map (Stmt.relabel μ)) declaration declaration) (n : Nat) :
    Relabels μ (relabelStmts μ) (program declaration n) (program declaration n) := by
  induction n with
  | zero => exact relabels_atEnd.bind fun _ => .ite (.pure rfl) (relabels_refuse _)
  | succ n ih =>
      refine relabels_atEnd.bind fun ended => .ite (.pure rfl) ?_
      refine hdeclaration.bind fun first => ih.bind fun rest => .pure ?_
      rw [relabelStmts_toList, relabelStmts_append]

theorem relabels_wholeExpression {expression : Reader Expr}
    (hexpression : Relabels μ (Expr.relabel μ) expression expression) :
    Relabels μ (Expr.relabel μ) (wholeExpression expression) (wholeExpression expression) :=
  hexpression.bind fun _ => relabels_atEnd.bind fun _ => .ite (.pure rfl) (relabels_refuse _)

/-- A reading with its tree and its errors mapped. -/
def Reading.relabel (μ : Relabelling) (f : α → β) (reading : Reading α) : Reading β where
  result := (reading.result.map f).mapError (List.map (SyntaxError.relabel μ))
  nextId := reading.nextId + μ.shift

theorem beforeEnd_relabel (tokens : List Token) :
    beforeEnd (tokens.map (Token.relabel μ)) = (beforeEnd tokens).map (Token.relabel μ) := by
  rw [beforeEnd, List.takeWhile_map]
  rfl

theorem readAll_relabel {read : Reader α} {read' : Reader β} (hread : Relabels μ f read read')
    (tokens : List Token) (i : Identity) :
    readAll read' (tokens.map (Token.relabel μ)) (i + μ.shift) =
      (readAll read tokens i).relabel μ f := by
  have hrun := hread ⟨beforeEnd tokens, i, []⟩
  unfold readAll
  rw [beforeEnd_relabel]
  change read' ⟨_, _, []⟩ = _ at hrun
  rw [hrun]
  cases read ⟨beforeEnd tokens, i, []⟩ with
  | ok a c =>
      obtain ⟨ts, j, es⟩ := c
      cases es <;> rfl
  | error e c =>
      obtain ⟨ts, j, es⟩ := c
      have herrors : es.map (SyntaxError.relabel μ) ++ [e.relabel μ] =
          (es ++ [e]).map (SyntaxError.relabel μ) := by
        rw [List.map_append, List.map_singleton]
      exact congrArg (fun es => (⟨.error es, j + μ.shift⟩ : Reading β)) herrors

/-- A program is read from relabelled tokens as it is read from the tokens. -/
theorem parseProgram_relabel (tokens : List Token) (i : Identity) :
    parseProgram (tokens.map (Token.relabel μ)) (i + μ.shift) =
      (parseProgram tokens i).relabel μ (relabelStmts μ) := by
  have hlength : (beforeEnd (tokens.map (Token.relabel μ))).length = (beforeEnd tokens).length := by
    rw [beforeEnd_relabel, List.length_map]
  unfold parseProgram
  rw [hlength]
  exact readAll_relabel (relabels_program (rules_relabel _).declaration _) tokens i

theorem parseExpression_relabel (tokens : List Token) (i : Identity) :
    parseExpression (tokens.map (Token.relabel μ)) (i + μ.shift) =
      (parseExpression tokens i).relabel μ (Expr.relabel μ) := by
  have hlength : (beforeEnd (tokens.map (Token.relabel μ))).length = (beforeEnd tokens).length := by
    rw [beforeEnd_relabel, List.length_map]
  unfold parseExpression
  rw [hlength]
  exact readAll_relabel (relabels_wholeExpression (rules_relabel _).expression) tokens i

end Grammar

end LoxLang
