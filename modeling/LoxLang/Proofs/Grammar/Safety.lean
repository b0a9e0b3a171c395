import LoxLang.Proofs.Grammar.InStep
import LoxLang.Proofs.Grammar.Acceptance

/-!
The parser is safe. Rule by rule, reading by position keeps in step with the grammar's readers; so it
ends with their outcome, inside of the token list and without a fault. The measure is the number of
tokens ahead: each rule takes a token before it comes back to itself or repeats, and recovery takes one
where no rule has.
-/

namespace LoxLang.Grammar

/-- The errors that a reading ends with. -/
def reported {α : Type} : Except (List SyntaxError) α → List SyntaxError
  | .ok _ => []
  | .error es => es

namespace Indexed

variable {α β : Type} {p q : Place} {c d : Cursor} {t : Token} {ts : List Token} {kind : Kind}
  {cause : SyntaxCause} {i j k n : Nat} {r : Rules} {s : Grammar.Rules} {form : FunctionForm}

/-- Rules that keep in step on inputs of fewer than `k` tokens. -/
structure Rules.InStep (k : Nat) (r : Rules) (s : Grammar.Rules) : Prop where
  passes : k ≤ r.passes
  bound : k ≤ s.bound
  expression : Follows 0 k 1 r.expression s.expression
  unary : Follows 0 k 1 r.unary s.unary
  statement : Follows 0 k 1 r.statement s.statement
  declaration : Follows 1 k 1 r.declaration s.declaration

/-! ### Expressions -/

theorem Follows.zero {x : Parser α} {y : Reader α} : Follows j 0 n x y :=
  fun _ _ _ _ hk => absurd hk (Nat.not_lt_zero _)

/-- A shorter input. -/
theorem Follows.shorter {x : Parser α} {y : Reader α} (h : Follows j (k + 1) n x y) :
    Follows j k n x y :=
  h.weaken (Nat.le_refl _) (Nat.le_succ k) (Nat.le_refl _)

/-- A repetition that has fuel for `k` passes has some for one and for `k - 1` more. -/
theorem exists_succ_of_le (h : k + 1 ≤ n) : ∃ m, n = m + 1 ∧ k ≤ m :=
  ⟨n - 1, by omega, by omega⟩

theorem follows_binaryRest {operators : List Kind} {x : Parser Expr} {y : Reader Expr} {m : Nat}
    (hx : Follows 0 k 1 x y) (hn : k ≤ n) (hm : k ≤ m) (e : Expr) :
    Follows 0 k 0 (binaryRest operators x n e) (extend operators.contains .binary y m e) := by
  induction k generalizing n m e with
  | zero => exact .zero
  | succ k ih =>
      obtain ⟨n, rfl, hn'⟩ := exists_succ_of_le hn
      obtain ⟨m, rfl, hm'⟩ := exists_succ_of_le hm
      refine (takes_any operators).bind (n := 0) (fun t _ => ?_) (.pure e) (Nat.zero_le _)
      exact hx.shorter.loose.bind fun right => ih hx.shorter hn' hm' _

theorem follows_logicalRest {operator : Kind} {x : Parser Expr} {y : Reader Expr} {m : Nat}
    (hx : Follows 0 k 1 x y) (hn : k ≤ n) (hm : k ≤ m) (e : Expr) :
    Follows 0 k 0 (logicalRest operator x n e) (extend (· == operator) .logical y m e) := by
  induction k generalizing n m e with
  | zero => exact .zero
  | succ k ih =>
      obtain ⟨n, rfl, hn'⟩ := exists_succ_of_le hn
      obtain ⟨m, rfl, hm'⟩ := exists_succ_of_le hm
      refine (takes_accept operator).bind (n := 0) (fun t _ => ?_) (.pure e) (Nat.zero_le _)
      exact hx.shorter.loose.bind fun right => ih hx.shorter hn' hm' _

theorem follows_binaryLevel {operators : List Kind} {test : Kind → Bool} {x : Parser Expr}
    {y : Reader Expr} {m : Nat} (htest : ∀ kind, test kind = operators.contains kind)
    (hx : Follows 0 (k + 1) 1 x y) (hn : k ≤ n) (hm : k ≤ m) :
    Follows 0 (k + 1) 1 (binaryLevel n operators x) (level m test .binary y) := by
  obtain rfl : test = operators.contains := funext htest
  exact hx.eat fun e => follows_binaryRest hx.shorter hn hm e

theorem follows_logicalLevel {operator : Kind} {x : Parser Expr} {y : Reader Expr} {m : Nat}
    (hx : Follows 0 (k + 1) 1 x y) (hn : k ≤ n) (hm : k ≤ m) :
    Follows 0 (k + 1) 1 (logicalLevel n operator x) (level m (· == operator) .logical y) :=
  hx.eat fun e => follows_logicalRest hx.shorter hn hm e

/-- A complaint does not stop a reader. -/
theorem follows_complaint {x : Parser α} {y : Reader α} (h : Follows 0 k n x y) :
    Follows 0 k n (do record (errorAt (← peek) cause); x)
      (do Grammar.record ⟨← next?, cause⟩; y) := by
  intro p c hat hj hk
  obtain ⟨u, hpeek, herror⟩ := errorAt_peek cause hat
  rw [bind_of_ok hpeek, bind_of_ok next?_eq, herror, ← Nat.zero_add n]
  exact ((follows_record _).bind (fun _ => h) _ c hat.noted hj hk).after (.noted p) (Nat.le_refl _)

theorem follows_parameterNames {m : Nat} (hn : k ≤ n) (hm : k ≤ m) (count : Nat) :
    Follows 0 k 0 (parameterNames n count) (Grammar.parameterNames m count) := by
  induction k generalizing n m count with
  | zero => exact .zero
  | succ k ih =>
      obtain ⟨n, rfl, hn'⟩ := exists_succ_of_le hn
      obtain ⟨m, rfl, hm'⟩ := exists_succ_of_le hm
      have hrest : Follows 0 (k + 1) 0 (do
          let name ← expect .identifier .noParameterName
          if ← accept .comma then return name :: (← parameterNames n (count + 1))
          else return [name]) (do
          let name ← Grammar.expect .identifier .noParameterName
          if ← Grammar.accept .comma then return name :: (← Grammar.parameterNames m (count + 1))
          else return [name]) := by
        refine ((follows_expect _ _).eat fun name => (follows_accept _).bind fun more => ?_).loose
        exact .ite ((ih hn' hm' _).bind fun names => .pure _) (.pure _)
      exact .ite (follows_complaint hrest) hrest

theorem follows_argumentValues {m : Nat} {x : Parser Expr} {y : Reader Expr} (hx : Follows 0 k 1 x y)
    (hn : k ≤ n) (hm : k ≤ m) (count : Nat) :
    Follows 0 k 0 (argumentValues x n count) (Grammar.argumentValues y m count) := by
  induction k generalizing n m count with
  | zero => exact .zero
  | succ k ih =>
      obtain ⟨n, rfl, hn'⟩ := exists_succ_of_le hn
      obtain ⟨m, rfl, hm'⟩ := exists_succ_of_le hm
      have hrest : Follows 0 (k + 1) 0 (do
          let value ← x
          if ← accept .comma then return value :: (← argumentValues x n (count + 1))
          else return [value]) (do
          let value ← y
          if ← Grammar.accept .comma then return value :: (← Grammar.argumentValues y m (count + 1))
          else return [value]) := by
        refine Follows.loose (hx.eat fun value => (follows_accept _).bind fun more => ?_)
        exact .ite ((ih hx.shorter hn' hm' _).bind fun values => .pure _) (.pure _)
      exact .ite (follows_complaint hrest) hrest

theorem follows_declarations {m : Nat} {x : Parser (Option Stmt)} {y : Reader (Option Stmt)}
    (hx : Follows 1 k 1 x y) (hn : k ≤ n) (hm : k ≤ m) :
    Follows 0 k 0 (declarations x n) (Grammar.declarations y m) := by
  induction k generalizing n m with
  | zero => exact .zero
  | succ k ih =>
      obtain ⟨n, rfl, hn'⟩ := exists_succ_of_le hn
      obtain ⟨m, rfl, hm'⟩ := exists_succ_of_le hm
      refine follows_goesOn [] (Follows.loose (hx.eat fun first => ?_))
      exact (ih hx.shorter hn' hm').bind fun rest => .pure _

/-- An identity is handed out before its token is passed over or after. -/
theorem agrees_reference {id : Identity} {errors : List SyntaxError} {g : Reference → Expr}
    (hat : p.At ⟨t :: ts, id, errors⟩) (hk : (t :: ts).length < k + 1) :
    Agrees 1 p ((do let name ← reference t; let _ ← advance; return g name : Parser Expr) p)
      ((do return g (← Grammar.reference t) : Reader Expr) ⟨ts, id, errors⟩) := by
  obtain rfl : p.nextId = id := hat.nextId
  have hat' : Place.At { p with nextId := p.nextId + 1 } ⟨t :: ts, p.nextId + 1, errors⟩ :=
    ⟨hat.ahead, hat.genuine, rfl, hat.errors⟩
  have hmoves : Moves p { p with nextId := p.nextId + 1 } := .of_trace rfl (.refl _) rfl
  exact (Agrees.advance (f := fun _ => pure (g ⟨p.nextId, t⟩)) hat' rfl hk (.pure _)).after (m := 0)
    hmoves (Nat.le_refl _)

namespace Rules.InStep

theorem block (h : r.InStep k s) : Follows 0 k 0 (block r) (Grammar.block s) :=
  (follows_declarations h.declaration h.passes h.bound).bind fun body =>
    (follows_expect _ _).loose.bind fun _ => .pure body

theorem functionRest (h : r.InStep k s) (name : Option Token) (line : Nat) :
    Follows 0 k 0 (functionRest r form name line) (Grammar.functionRest s form name line) := by
  have hbody : ∀ params, Follows 0 k 0 (do
      let _ ← expect .rightParen .noParameterListEnd
      let _ ← expect .leftBrace (.noFunctionBody form)
      return FunctionDecl.mk name line params (← Indexed.block r)) (do
      let _ ← Grammar.expect .rightParen .noParameterListEnd
      let _ ← Grammar.expect .leftBrace (.noFunctionBody form)
      return FunctionDecl.mk name line params (← Grammar.block s)) := fun params =>
    (follows_expect _ _).loose.bind fun _ => (follows_expect _ _).loose.bind fun _ =>
      h.block.bind fun _ => .pure _
  refine (follows_check _).bind fun closing => .ite ((Follows.pure []).bind hbody) ?_
  exact (follows_parameterNames h.passes (Nat.le_succ_of_le h.bound) 0).bind hbody

theorem primary (h : r.InStep k s) : Follows 0 (k + 1) 1 (primary r) (Grammar.primary s) := by
  refine follows_peek ?_ ?_
  · rintro p ⟨_, id, errors⟩ t ts hat rfl - hk
    have hnext {f : Parser Expr} {g : Reader Expr} (hf : Follows 0 k 0 f g) :
        Agrees 1 p ((do let _ ← advance; f : Parser Expr) p) (g ⟨ts, id, errors⟩) :=
      Agrees.advance (f := fun _ => f) hat rfl hk hf
    have hrefused : Agrees 1 p ((throw (.refused (errorAt t .noExpression)) : Parser Expr) p)
        ((refuse .noExpression : Reader Expr) ⟨t :: ts, id, errors⟩) := by
      rw [errorAt, if_neg (hat.genuine t (List.mem_cons_self ..))]
      exact .error hat (.refl p)
    dsimp only
    cases t.kind with
    | kwFalse | kwTrue | kwNil | number | string => exact hnext (.pure _)
    | kwThis | identifier => exact agrees_reference hat hk
    | kwSuper =>
        refine hnext ((follows_expect _ _).loose.bind fun _ => ?_)
        exact (follows_expect _ _).loose.bind fun method => (follows_reference t).bind fun _ => .pure _
    | kwFun =>
        refine hnext ((follows_expect _ _).loose.bind fun _ => ?_)
        exact (h.functionRest none t.line).bind fun _ => .pure _
    | leftParen =>
        refine hnext (h.expression.loose.bind fun _ => ?_)
        exact (follows_expect _ _).loose.bind fun _ => .pure _
    | _ => exact hrefused
  · rintro p ⟨_, id, errors⟩ stop hat rfl hstop
    dsimp only
    rw [hstop, errorAt, if_pos hstop]
    exact .error hat (.refl p)

theorem callRest (h : r.InStep k s) (callee : Expr) :
    Follows 0 k 0 (callRest r callee) (Grammar.callRest s callee) := by
  have hend : ∀ arguments, Follows 0 k 0 (do
      let paren ← expect .rightParen .noArgumentsEnd
      return Expr.call callee paren arguments) (do
      let paren ← Grammar.expect .rightParen .noArgumentsEnd
      return Expr.call callee paren arguments) := fun arguments =>
    (follows_expect _ _).loose.bind fun _ => .pure _
  refine (follows_check _).bind fun closing => .ite ((Follows.pure []).bind hend) ?_
  exact (follows_argumentValues h.expression h.passes (Nat.le_succ_of_le h.bound) 0).bind hend

theorem shorter (h : r.InStep (k + 1) s) : r.InStep k s :=
  ⟨Nat.le_of_succ_le h.passes, Nat.le_of_succ_le h.bound, h.expression.shorter, h.unary.shorter,
    h.statement.shorter, h.declaration.shorter⟩

theorem suffixes {m : Nat} (h : r.InStep k s) (hn : k ≤ n) (hm : k ≤ m) (e : Expr) :
    Follows 0 k 0 (suffixes r n e) (Grammar.suffixes s m e) := by
  induction k generalizing n m e with
  | zero => exact .zero
  | succ k ih =>
      obtain ⟨n, rfl, hn'⟩ := exists_succ_of_le hn
      obtain ⟨m, rfl, hm'⟩ := exists_succ_of_le hm
      refine follows_first (n := 0) ?_ ?_ (Nat.zero_le _)
      · exact (h.shorter.callRest e).bind fun e => ih h.shorter hn' hm' e
      · refine follows_first (n := 0) ?_ (.pure e) (Nat.zero_le _)
        exact (follows_expect _ _).loose.bind fun name => ih h.shorter hn' hm' _

theorem call (h : r.InStep k s) : Follows 0 (k + 1) 1 (call r) (Grammar.call s) :=
  h.primary.eat fun e => h.suffixes h.passes h.bound e

theorem unaryLevel (h : r.InStep k s) : Follows 0 (k + 1) 1 (Indexed.unary r) (Grammar.unary s) := by
  refine ((takes_accept .bang).or (takes_accept .minus)).bind (n := 0) (fun t _ => ?_) h.call ?_
  rotate_left
  · exact Nat.le_refl _
  exact h.unary.loose.bind fun right => .pure _

theorem disjunction (h : r.InStep k s) :
    Follows 0 (k + 1) 1 (disjunction r) (Grammar.disjunction s) := by
  have hfactor : Follows 0 (k + 1) 1 (factor r) (Grammar.factor s) :=
    follows_binaryLevel (fun kind => by cases kind <;> rfl) h.unaryLevel h.passes h.bound
  have hterm : Follows 0 (k + 1) 1 (term r) (Grammar.term s) :=
    follows_binaryLevel (fun kind => by cases kind <;> rfl) hfactor h.passes h.bound
  have hcomparison : Follows 0 (k + 1) 1 (comparison r) (Grammar.comparison s) :=
    follows_binaryLevel (fun kind => by cases kind <;> rfl) hterm h.passes h.bound
  have hequality : Follows 0 (k + 1) 1 (equality r) (Grammar.equality s) :=
    follows_binaryLevel (fun kind => by cases kind <;> rfl) hcomparison h.passes h.bound
  exact follows_logicalLevel (follows_logicalLevel hequality h.passes h.bound) h.passes h.bound

theorem assignment (h : r.InStep k s) :
    Follows 0 (k + 1) 1 (assignment r) (Grammar.assignment s) := by
  refine h.disjunction.eat fun target => ?_
  cases k with
  | zero => exact .zero
  | succ k =>
      refine (takes_accept .equal).bind (n := 0) (fun t ht => ?_) (.pure _) (Nat.zero_le _)
      refine h.shorter.expression.loose.bind fun value => ?_
      cases target with
      | ident ref => exact (follows_reference ref.name).bind fun _ => .pure _
      | get object name => exact .pure _
      | _ =>
          rw [errorAt, if_neg (by rw [beq_iff_eq.mp ht]; decide)]
          exact (follows_record _).bind fun _ => .pure _

/-! ### Statements -/

theorem namedFunction (h : r.InStep k s) :
    Follows 0 k 0 (namedFunction r form) (Grammar.namedFunction s form) :=
  (follows_expect _ _).loose.bind fun name => (follows_expect _ _).loose.bind fun _ =>
    h.functionRest (some name) name.line

theorem methods {m : Nat} (h : r.InStep k s) (hn : k ≤ n) (hm : k ≤ m) :
    Follows 0 k 0 (methods r n) (Grammar.methods s m) := by
  induction k generalizing n m with
  | zero => exact .zero
  | succ k ih =>
      obtain ⟨n, rfl, hn'⟩ := exists_succ_of_le hn
      obtain ⟨m, rfl, hm'⟩ := exists_succ_of_le hm
      have hfirst : Follows 1 (k + 1) 1 (Indexed.namedFunction r .method)
          (Grammar.namedFunction s .method) :=
        (follows_expect _ _).eat fun name => (follows_expect _ _).loose.bind fun _ =>
          h.shorter.functionRest (some name) name.line
      refine follows_goesOn [] (Follows.loose (hfirst.eat fun first => ?_))
      exact (ih h.shorter hn' hm').bind fun rest => .pure _

end Rules.InStep

theorem follows_superclass? : Follows 0 k 0 superclass? Grammar.superclass? := by
  refine (follows_accept _).bind fun derived => .ite ?_ (.pure none)
  exact (follows_expect _ _).loose.bind fun name => (follows_reference name).bind fun _ => .pure _

/-- Any part that is left out where a token of some kind stands. -/
theorem follows_optional {absent : α} {x : Parser α} {y : Reader α} {f : α → Parser β}
    {g : α → Reader β} (hx : Follows 0 k 0 x y) (hf : ∀ a, Follows 0 k n (f a) (g a)) :
    Follows 0 k n (do if ← check kind then f (← pure absent) else f (← x))
      (do if ← sees kind then g (← pure absent) else g (← y)) :=
  (follows_check kind).bind fun _ => .ite ((Follows.pure absent).bind hf) (hx.bind hf)

/-- What comes behind the keyword of a named function, and what stands there if none is next. -/
theorem follows_named {x x' : Parser α} {y y' : Reader α} (hx : Follows 0 k 0 x y)
    (hx' : Follows 0 (k + 1) 1 x' y') :
    Follows 0 (k + 1) 1 (do if ← seesNamedFunction then (do let _ ← advance; x) else x')
      (do if ← Grammar.seesNamedFunction then (do skip; y) else y') := by
  rintro p ⟨ahead, id, errors⟩ hat hj hk
  obtain ⟨b, q, hrun, hsees, hat', hmoves, hnext⟩ := seesNamedFunction_eq hat
  rw [bind_of_ok hrun, bind_of_ok hsees]
  cases b with
  | false => exact (hx' q _ hat' hj hk).after (m := 0) hmoves hmoves.onward.1
  | true =>
      obtain ⟨t, ts, rfl⟩ := hnext rfl
      exact (Agrees.advance (f := fun _ => x) hat' rfl hk hx).after (m := 0) hmoves hmoves.onward.1

/-- The kinds of statement, asked for one after the other. -/
theorem statement_eq (s : Grammar.Rules) : Grammar.statement s = (do
    if ← Grammar.accept .kwFor then Grammar.forRest s
    else if ← Grammar.accept .kwIf then Grammar.ifRest s
    else if ← Grammar.accept .kwPrint then Grammar.printRest s
    else
      match ← takeIf (· == .kwReturn) with
      | some keyword => Grammar.returnRest s keyword
      | none =>
        if ← Grammar.accept .kwWhile then Grammar.whileRest s
        else if ← Grammar.accept .leftBrace then .block <$> Grammar.block s
        else Grammar.expressionStatement s) := by
  funext ⟨ts, id, errors⟩
  cases ts with
  | nil => rfl
  | cons t ts =>
      obtain ⟨kind, lexeme, line⟩ := t
      cases kind <;> rfl

namespace Rules.InStep

theorem classRest (h : r.InStep k s) : Follows 0 k 0 (classRest r) (Grammar.classRest s) :=
  (follows_expect _ _).loose.bind fun _ => follows_superclass?.bind fun _ =>
    (follows_expect _ _).loose.bind fun _ => (h.methods h.passes h.bound).bind fun _ =>
      (follows_expect _ _).loose.bind fun _ => .pure _

theorem variableRest (h : r.InStep k s) :
    Follows 0 k 0 (variableRest r) (Grammar.variableRest s) := by
  refine (follows_expect _ _).loose.bind fun name => (follows_accept _).bind fun set => ?_
  have hend : ∀ initializer, Follows 0 k 0 (do
      let _ ← expect .semicolon .noVariableEnd
      return Stmt.var name initializer) (do
      let _ ← Grammar.expect .semicolon .noVariableEnd
      return Stmt.var name initializer) := fun initializer =>
    (follows_expect _ _).loose.bind fun _ => .pure _
  exact .ite (h.assignment.shorter.loose.map.bind hend) ((Follows.pure none).bind hend)

theorem expressionStatement (h : r.InStep k s) :
    Follows 0 (k + 1) 1 (expressionStatement r) (Grammar.expressionStatement s) :=
  h.assignment.eat fun _ => (follows_expect _ _).loose.bind fun _ => .pure _

theorem forInitializer (h : r.InStep k s) :
    Follows 0 k 0 (forInitializer r) (Grammar.forInitializer s) := by
  refine (follows_accept _).bind fun absent => .ite (.pure none) ?_
  refine (follows_accept _).bind fun declares => .ite ?_ ?_
  · exact h.variableRest.map
  · exact h.expressionStatement.shorter.loose.map

theorem forRest (h : r.InStep k s) : Follows 0 k 0 (forRest r) (Grammar.forRest s) := by
  have hassignment : Follows 0 k 0 (Indexed.assignment r) (Grammar.assignment s) :=
    h.assignment.shorter.loose
  refine (follows_expect _ _).loose.bind fun _ => h.forInitializer.bind fun init => ?_
  refine follows_optional hassignment fun condition => (follows_expect _ _).loose.bind fun _ => ?_
  refine follows_optional hassignment.map fun increment => (follows_expect _ _).loose.bind fun _ => ?_
  exact h.statement.loose.bind fun _ => .pure _

theorem ifRest (h : r.InStep k s) : Follows 0 k 0 (ifRest r) (Grammar.ifRest s) := by
  refine (follows_expect _ _).loose.bind fun _ => h.assignment.shorter.loose.bind fun condition => ?_
  refine (follows_expect _ _).loose.bind fun _ => h.statement.loose.bind fun thenBranch => ?_
  refine (follows_accept _).bind fun otherwise => .ite ?_ ?_
  · exact h.statement.loose.map.bind fun _ => .pure _
  · exact (Follows.pure none).bind fun _ => .pure _

theorem printRest (h : r.InStep k s) : Follows 0 k 0 (printRest r) (Grammar.printRest s) :=
  h.assignment.shorter.loose.bind fun _ => (follows_expect _ _).loose.bind fun _ => .pure _

theorem whileRest (h : r.InStep k s) : Follows 0 k 0 (whileRest r) (Grammar.whileRest s) :=
  (follows_expect _ _).loose.bind fun _ => h.assignment.shorter.loose.bind fun _ =>
    (follows_expect _ _).loose.bind fun _ => h.statement.loose.bind fun _ => .pure _

/-- The statement that the next token begins, asked for kind by kind. -/
theorem statementLevel (h : r.InStep k s) :
    Follows 0 (k + 1) 1 (Indexed.statement r) (Grammar.statement s) := by
  rw [statement_eq]
  refine follows_first h.forRest ?_ (Nat.le_refl _)
  refine follows_first h.ifRest ?_ (Nat.le_refl _)
  refine follows_first h.printRest ?_ (Nat.le_refl _)
  refine (takes_accept .kwReturn).bind (n := 0) (fun keyword _ => ?_) ?_ (Nat.le_refl _)
  · exact follows_optional h.assignment.shorter.loose.map fun _ =>
      (follows_expect _ _).loose.bind fun _ => .pure _
  · refine follows_first h.whileRest ?_ (Nat.le_refl _)
    exact follows_first h.block.map h.expressionStatement (Nat.le_refl _)

theorem declaredLevel (h : r.InStep k s) :
    Follows 0 (k + 1) 1 (declared r) (Grammar.declared s) := by
  refine follows_first h.classRest ?_ (Nat.le_refl _)
  refine follows_named h.namedFunction.map ?_
  exact follows_first h.variableRest h.statementLevel (Nat.le_refl _)

/-- A declaration takes a token at least, also one that cannot be read: at the end, where recovery has
nothing to pass over, the tokens before have been read. -/
theorem declarationLevel (h : r.InStep k s) :
    Follows 1 (k + 1) 1 (Indexed.declaration r) (Grammar.declaration s) := by
  intro p c hat hj hk
  have hrun := h.declaredLevel p c hat (Nat.zero_le _) hk
  have hlength := hat.length
  rw [Indexed.declaration, Grammar.declaration, recovering]
  generalize declared r p = x, Grammar.declared s c = y at hrun
  -- Only the outcome of the declaration matters for what follows it.
  cases hrun with
  | ok hat' hmoves hfurther => exact .ok hat' hmoves hfurther
  | @error e q d hat' hmoves =>
      have hlength' := hat'.length
      have honward := hmoves.onward.1
      simp only [hmoves.tokens, Place.moment] at hlength' honward
      have hrecorded : Place.At { q with errors := q.errors ++ [e] }
          ⟨d.ahead, d.nextId, d.errors ++ [e]⟩ :=
        ⟨hat'.ahead, hat'.genuine, hat'.nextId, congrArg (· ++ [e]) hat'.errors⟩
      have hrecording : Moves q { q with errors := q.errors ++ [e] } :=
        .of_trace rfl ⟨Nat.le_refl _, List.prefix_append ..⟩ rfl
      have hpassed : d.ahead = [] → p.current < q.current := by
        intro hend
        simp only [hend, List.length_nil] at hlength'
        omega
      have hahead : d.ahead.length ≤ k := by omega
      have hpos : 0 < k := by omega
      obtain ⟨u, hsync, hat'', hsyncing, hnext⟩ := synchronize_eq (n := r.passes) hrecorded
        (fun hend => Nat.ne_of_gt (Nat.zero_lt_of_lt (hpassed hend)))
        (Nat.le_trans hahead h.passes) (Nat.lt_of_lt_of_le hpos h.passes)
      have hrest : (do record e; synchronize r.passes; return none : Parser (Option Stmt)) q =
          .ok none u := by
        change (synchronize r.passes >>= fun _ => pure none) { q with errors := q.errors ++ [e] } = _
        exact bind_of_ok hsync
      have honward' := hsyncing.onward.1
      simp only [Place.moment] at honward' hnext
      dsimp only
      rw [hrest]
      refine .ok hat'' (hmoves.trans (hrecording.trans hsyncing)) ?_
      by_cases hend : d.ahead = []
      · exact Nat.le_trans (hpassed hend) honward'
      · exact Nat.succ_le_of_lt (Nat.lt_of_le_of_lt honward (hnext hend))

end Rules.InStep

/-! ### Programs -/

theorem rules_inStep {m : Nat} (hn : k ≤ n) (hm : k ≤ m) : (rules n).InStep k (Grammar.rules m) := by
  induction k generalizing n m with
  | zero => exact ⟨Nat.zero_le _, Nat.zero_le _, .zero, .zero, .zero, .zero⟩
  | succ k ih =>
      obtain ⟨n, rfl, hn'⟩ := exists_succ_of_le hn
      obtain ⟨m, rfl, hm'⟩ := exists_succ_of_le hm
      have h := ih hn' hm'
      exact ⟨hn, hm, h.assignment, h.unaryLevel, h.statementLevel, h.declarationLevel⟩

theorem recovering_ok (y : Reader α) (c : Cursor) : ∃ o d, recovering y c = .ok o d := by
  unfold recovering
  split
  · exact ⟨_, _, rfl⟩
  · exact ⟨_, _, rfl⟩

/-- A program is read to the end. -/
theorem program_eq {m : Nat} {x : Parser (Option Stmt)} {y : Reader (Option Stmt)}
    (hx : Follows 1 k 1 x y) (hy : ∀ c, ∃ o d, y c = .ok o d) (hat : p.At c)
    (hk : c.ahead.length < k) (hn : c.ahead.length < n) (hm : c.ahead.length ≤ m) :
    ∃ ss q d, program x n p = .ok ss q ∧ Grammar.program y m c = .ok ss d ∧ q.At d ∧ Moves p q ∧
      d.ahead = [] := by
  induction n generalizing m p c with
  | zero => omega
  | succ n ih =>
      obtain ⟨ahead, id, errors⟩ := c
      rw [program, bind_of_ok (isAtEnd_eq hat)]
      cases ahead with
      | nil => exact ⟨[], p.noted, ⟨[], id, errors⟩, rfl, by cases m <;> rfl, hat.noted, .noted p, rfl⟩
      | cons t ts =>
          obtain ⟨m, rfl⟩ : ∃ m', m = m' + 1 := ⟨m - 1, by simp only [List.length_cons] at hm; omega⟩
          obtain ⟨o, d, hlist⟩ := hy ⟨t :: ts, id, errors⟩
          have hrun := hx p.noted _ hat.noted (Nat.succ_le_succ (Nat.zero_le _)) hk
          rw [hlist] at hrun
          generalize hx' : x p.noted = r at hrun
          cases hrun with
          | @ok _ q _ hat' hmoves hfurther =>
              have hlength := hat.length
              have hlength' := hat'.length
              simp only [hmoves.tokens, Place.noted, List.length_cons]
                at hlength hlength' hk hn hm hfurther
              obtain ⟨ss, u, d', hrest, hlist', hat'', hmoves', hend⟩ :=
                ih hat' (m := m) (by omega) (by omega) (by omega)
              have hmoves'' := (Moves.noted p).trans (hmoves.trans hmoves')
              refine ⟨o.toList ++ ss, u, d', ?_, ?_, hat'', hmoves'', hend⟩
              · exact (bind_of_ok hx').trans (bind_of_ok hrest)
              · exact (bind_of_ok hlist).trans (bind_of_ok hlist')

theorem Place.at_drop {tokens : List Token} (h : EndsOnce tokens) (hp : p.tokens = tokens)
    (hinside : p.current < tokens.length) :
    p.At ⟨(beforeEnd tokens).drop p.current, p.nextId, p.errors⟩ := by
  obtain ⟨ts, stop, rfl, hstop, hts⟩ := h.shape
  rw [beforeEnd_append hstop hts]
  rw [List.length_append, List.length_singleton] at hinside
  refine ⟨⟨stop, hstop, ?_⟩, fun t ht => hts t (List.mem_of_mem_drop ht), rfl, rfl⟩
  rw [hp, List.drop_append_of_le_length (Nat.le_of_lt_succ hinside)]

theorem Place.at_start {tokens : List Token} (h : EndsOnce tokens) (id : Identity) :
    (Place.start tokens id).At ⟨beforeEnd tokens, id, []⟩ := by
  obtain ⟨ts, stop, rfl, -⟩ := h.shape
  exact Place.at_drop h rfl (by simp [Place.start])

theorem length_beforeEnd {tokens : List Token} (h : EndsOnce tokens) :
    (beforeEnd tokens).length + 1 = tokens.length := by
  have hlength := (Place.at_start h 0).length
  simpa [Place.start] using hlength

variable {tokens : List Token} {id : Identity} {fuel : Nat}

/-- What a run of a reader shows: looks inside of the list only, none further back than one before,
and every error that was kept at a look among those reported in the end. -/
structure Place.Orderly (q : Place) (errors : List SyntaxError) : Prop where
  inside : q.current < q.tokens.length
  behind : ∀ m ∈ q.trace, m.position ≤ q.current ∧ m.errors <+: errors
  ordered : q.trace.Pairwise Moment.Precedes

theorem Moves.orderly {errors : List SyntaxError} (h : Moves (.start tokens id) q)
    (hinside : q.current < tokens.length) (herrors : q.errors <+: errors) :
    Place.Orderly { q with errors := [] } errors := by
  obtain ⟨later, htrace, hordered, hbetween⟩ := h.looks
  obtain rfl : q.trace = later := htrace
  refine ⟨Nat.lt_of_lt_of_eq hinside (congrArg List.length h.tokens.symm), fun m hm => ?_, hordered⟩
  exact ⟨(hbetween m hm).2.1, (hbetween m hm).2.2.trans herrors⟩

theorem prefix_reported {α : Type} (a : α) (es : List SyntaxError) :
    es <+: reported (if es.isEmpty then .ok a else .error es) := by
  cases es with
  | nil => exact List.prefix_rfl
  | cons e es => exact List.prefix_rfl

/-- Reading a program by position is reading it, and ends at the end marker. -/
theorem parseProgram_orderly (h : EndsOnce tokens) (hfuel : tokens.length ≤ fuel) (id : Identity) :
    ∃ q, parseProgram fuel (.start tokens id) = .ok (Grammar.parseProgram tokens id).result q ∧
      q.tokens = tokens ∧ q.nextId = (Grammar.parseProgram tokens id).nextId ∧
      q.Orderly (reported (Grammar.parseProgram tokens id).result) ∧ q.current + 1 = tokens.length := by
  have hlength := length_beforeEnd h
  have hrules : (rules fuel).InStep tokens.length
      (Grammar.rules ((beforeEnd tokens).length + 1)) := rules_inStep hfuel (by omega)
  obtain ⟨ss, q, d, hrun, hlist, hat, hmoves, hend⟩ :=
    program_eq (n := fuel) (m := (beforeEnd tokens).length) hrules.declaration (recovering_ok _)
      (Place.at_start h id) (by dsimp only; omega) (by dsimp only; omega) (Nat.le_refl _)
  have hfinal : q.current + 1 = tokens.length := by
    simpa [hend, hmoves.tokens, Place.start] using hat.length
  have hreading : Grammar.parseProgram tokens id =
      ⟨if q.errors.isEmpty then .ok ss else .error q.errors, q.nextId⟩ := by
    rw [Grammar.parseProgram, readAll, hlist, hat.errors, hat.nextId]
  rw [hreading]
  refine ⟨{ q with errors := [] }, bind_of_ok hrun, hmoves.tokens, rfl, ?_, hfinal⟩
  exact hmoves.orderly (by omega) (prefix_reported ss q.errors)

theorem follows_wholeExpression {x : Parser Expr} {y : Reader Expr} (hx : Follows 0 k 1 x y) :
    Follows 0 k 0 (wholeExpression x) (Grammar.wholeExpression y) :=
  hx.loose.bind fun e => follows_isAtEnd.bind fun _ => .ite (.pure e) (follows_refuse _)

/-- Reading an expression by position is reading it. -/
theorem parseExpression_orderly (h : EndsOnce tokens) (hfuel : tokens.length ≤ fuel)
    (id : Identity) :
    ∃ q, parseExpression fuel (.start tokens id) = .ok (Grammar.parseExpression tokens id).result q ∧
      q.tokens = tokens ∧ q.nextId = (Grammar.parseExpression tokens id).nextId ∧
      q.Orderly (reported (Grammar.parseExpression tokens id).result) := by
  have hlength := length_beforeEnd h
  have hrules : (rules fuel).InStep tokens.length
      (Grammar.rules ((beforeEnd tokens).length + 1)) := rules_inStep hfuel (by omega)
  have hrun := follows_wholeExpression hrules.expression _ _ (Place.at_start h id) (Nat.zero_le _)
    (by dsimp only; omega)
  rw [parseExpression, Grammar.parseExpression, readAll]
  generalize wholeExpression (rules fuel).expression (.start tokens id) = x,
    Grammar.wholeExpression _ _ = y at hrun
  have hinside {q : Place} {d : Cursor} (hat : q.At d) (hmoves : Moves (.start tokens id) q) :
      q.current < tokens.length := by
    have hlength := hat.length
    rw [hmoves.tokens] at hlength
    exact Nat.lt_of_lt_of_eq (by omega) hlength
  cases hrun with
  | @ok e q d hat hmoves hfurther =>
      refine ⟨{ q with errors := [] }, ?_, hmoves.tokens, hat.nextId, ?_⟩
      · dsimp only
        rw [settle, hat.errors]
      · refine hmoves.orderly (hinside hat hmoves) ?_
        rw [hat.errors]
        exact prefix_reported e d.errors
  | @error e q d hat hmoves =>
      refine ⟨{ q with errors := [] }, ?_, hmoves.tokens, hat.nextId, ?_⟩
      · dsimp only
        rw [hat.errors]
      · refine hmoves.orderly (hinside hat hmoves) ?_
        rw [hat.errors]
        exact List.prefix_append ..

/-- A declaration that begins before the end marker ends, read or recovered from, behind where it
began and not behind the end marker. -/
theorem declaration_advances (h : EndsOnce tokens) (hp : p.tokens = tokens)
    (hinside : p.current + 1 < tokens.length) (hn : tokens.length ≤ p.current + n) :
    ∃ o q, (rules n).declaration p = .ok o q ∧ Moves p q ∧ p.current < q.current ∧
      q.current < tokens.length := by
  have hat := Place.at_drop h hp (Nat.lt_of_succ_lt hinside)
  have hlength := hat.length
  rw [hp] at hlength
  have hrun := (rules_inStep (Nat.le_refl n) (Nat.le_refl n)).declaration p _ hat (by omega)
    (by omega)
  obtain ⟨m, rfl⟩ : ∃ m, n = m + 1 := ⟨n - 1, by omega⟩
  obtain ⟨o, d, hlist⟩ := recovering_ok (Grammar.declared (Grammar.rules m))
    ⟨(beforeEnd tokens).drop p.current, p.nextId, p.errors⟩
  have hlist' : (Grammar.rules (m + 1)).declaration _ = _ := hlist
  rw [hlist'] at hrun
  generalize (rules (m + 1)).declaration p = r at hrun ⊢
  cases hrun with
  | @ok _ q _ hat' hmoves hfurther =>
      have hlength' := hat'.length
      rw [hmoves.tokens, hp] at hlength'
      exact ⟨o, q, rfl, hmoves, hfurther, by omega⟩

/-- The parser ends on every token list whose only end marker is its last token. With fuel for as many
levels and passes as there are tokens, it has the outcome that the grammar gives, and so is not stopped
by a look outside of the list, by asking for a token before the first one, or by the end of the fuel.
Its position only grows and stays inside of the list; a program is read up to the end marker. Each
declaration that begins before the end marker moves on, whether it is read or recovered from. -/
theorem parser_ends_safely (tokens : List Token) (h : EndsOnce tokens) (id : Identity) (fuel : Nat)
    (hfuel : tokens.length ≤ fuel) :
    (∃ q, parseProgram fuel (.start tokens id) = .ok (Grammar.parseProgram tokens id).result q ∧
      q.tokens = tokens ∧ q.nextId = (Grammar.parseProgram tokens id).nextId ∧
      q.Orderly (reported (Grammar.parseProgram tokens id).result) ∧
      q.current + 1 = tokens.length) ∧
    (∃ q, parseExpression fuel (.start tokens id) =
        .ok (Grammar.parseExpression tokens id).result q ∧
      q.tokens = tokens ∧ q.nextId = (Grammar.parseExpression tokens id).nextId ∧
      q.Orderly (reported (Grammar.parseExpression tokens id).result)) ∧
    ∀ (p : Place) (n : Nat), p.tokens = tokens → p.current + 1 < tokens.length →
      tokens.length ≤ p.current + n →
        ∃ o q, (rules n).declaration p = .ok o q ∧ Moves p q ∧ p.current < q.current ∧
          q.current < tokens.length :=
  ⟨parseProgram_orderly h hfuel id, parseExpression_orderly h hfuel id,
    fun _ _ hp hinside hn => declaration_advances h hp hinside hn⟩

/-- Recovery from the first error has come to the end when the block is found to be open. -/
theorem open_block_ends_safely :
    EndsOnce [⟨.leftBrace, "\x7b", 1⟩, ⟨.rightParen, ")", 1⟩, .eof 1] ∧
      ∃ q, parseProgram 3 (.start [⟨.leftBrace, "\x7b", 1⟩, ⟨.rightParen, ")", 1⟩, .eof 1] 0) =
          .ok (.error [⟨some ⟨.rightParen, ")", 1⟩, .noExpression⟩, ⟨none, .noBlockEnd⟩]) q ∧
        q.current + 1 = 3 := by
  have hends : EndsOnce [⟨.leftBrace, "\x7b", 1⟩, ⟨.rightParen, ")", 1⟩, .eof 1] :=
    ⟨[⟨.leftBrace, "\x7b", 1⟩, ⟨.rightParen, ")", 1⟩], .eof 1, rfl, rfl, by decide⟩
  obtain ⟨⟨q, hrun, -, -, -, hend⟩, -⟩ := parser_ends_safely _ hends 0 3 (Nat.le_refl 3)
  exact ⟨hends, q, hrun, hend⟩

end Indexed

end LoxLang.Grammar
