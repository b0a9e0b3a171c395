import LoxLang.Proofs.Grammar.Reading

/-!
Identities are paid for with tokens. A reader passes over a token for every identity that it hands out,
whether it succeeds or not, so that reading a text uses no more identities than the text has tokens. A
reader that has passed over more tokens than it needed to has a credit, from which what comes behind it
may pay.
-/

namespace LoxLang.Grammar

/-- The identities handed out between two cursors are paid for by the tokens passed over, with one
credit before and another one left. -/
def Paid (before after : Nat) (c d : Cursor) : Prop :=
  ∃ k, d.nextId = c.nextId + .ofNat k ∧ k + d.ahead.length + after ≤ c.ahead.length + before

/-- An outcome that leaves a credit; it is lost with a failure. -/
def Settled {α : Type} (before : Nat) (after : α → Nat) (c : Cursor) :
    EStateM.Result SyntaxError Cursor α → Prop
  | .ok a d => Paid before (after a) c d
  | .error _ d => Paid before 0 c d

/-- A reader that needs a credit and leaves one. -/
def Spends {α : Type} (x : Reader α) (before : Nat) (after : α → Nat) : Prop :=
  ∀ c, Settled before after c (x c)

/-- A reader that pays for itself. -/
def Thrifty {α : Type} (x : Reader α) : Prop :=
  ∀ credit, Spends x credit fun _ => credit

section

variable {α β : Type} {x y : Reader α} {f : α → Reader β} {b b' b'' n : Nat} {p : α → Nat}
  {q : β → Nat} {c d e : Cursor}

theorem Paid.of_eq (hid : d.nextId = c.nextId) (hlength : d.ahead.length + b' ≤ c.ahead.length + b) :
    Paid b b' c d :=
  ⟨0, by simp [hid], by omega⟩

theorem Paid.trans (h : Paid b b' c d) (h' : Paid b' b'' d e) : Paid b b'' c e := by
  obtain ⟨k, hid, hlength⟩ := h
  obtain ⟨l, hid', hlength'⟩ := h'
  refine ⟨k + l, ?_, by omega⟩
  rw [hid', hid, UInt64.ofNat_add, UInt64.add_assoc]

theorem Paid.mono (h : Paid b b' c d) (hle : b'' ≤ b') : Paid b b'' c d := by
  obtain ⟨k, hid, hlength⟩ := h
  exact ⟨k, hid, by omega⟩

namespace Spends

theorem bind (hx : Spends x b p) (hf : ∀ a, Spends (f a) (p a) q) : Spends (x >>= f) b q := by
  intro c
  have hfirst := hx c
  change Settled b q c (EStateM.bind x f c)
  unfold EStateM.bind
  generalize x c = r at hfirst
  cases r with
  | error e d => exact hfirst
  | ok a d =>
      have hrest := hf a d
      dsimp only
      generalize f a d = r' at hrest
      cases r' with
      | ok v e => exact Paid.trans hfirst hrest
      | error _ e => exact Paid.trans hfirst hrest

theorem pure (a : α) : Spends (pure a) (p a) p :=
  fun _ => .of_eq rfl (Nat.le_refl _)

theorem mono {p' : α → Nat} (hx : Spends x b p) (hle : ∀ a, p' a ≤ p a) : Spends x b p' := by
  intro c
  have hrun := hx c
  generalize x c = r at hrun
  cases r with
  | ok a d => exact Paid.mono hrun (hle a)
  | error _ d => exact hrun

theorem refuse (cause : SyntaxCause) : Spends (refuse (α := α) cause) b p := by
  intro c
  rw [refuse_eq]
  exact .of_eq rfl (by simp)

theorem ite {t : Prop} [Decidable t] (hx : Spends x b p) (hy : Spends y b p) :
    Spends (if t then x else y) b p := by
  split
  · exact hx
  · exact hy

/-- A token taken is a token earned. -/
theorem takeIf (test : Kind → Bool) :
    Spends (Grammar.takeIf test) b fun o => b + o.toList.length := by
  rintro ⟨ts, i, es⟩
  cases ts with
  | nil => exact .of_eq rfl (by simp)
  | cons t ts =>
      rw [takeIf_cons]
      cases test t.kind with
      | true => exact .of_eq rfl (by simp; omega)
      | false => exact .of_eq rfl (by simp)

theorem expect (kind : Kind) (cause : SyntaxCause) :
    Spends (Grammar.expect kind cause) b fun _ => b + 1 := by
  refine (takeIf _).bind fun o => ?_
  cases o with
  | none => exact .refuse cause
  | some t => exact .pure (p := fun _ => b + 1) t

theorem reference (name : Token) : Spends (Grammar.reference name) (b + 1) fun _ => b :=
  fun _ => ⟨1, rfl, by dsimp only; omega⟩

/-- Behind a look at the next token it may be passed over, and is then a token earned. -/
theorem bind_next? {g : Option Token → Reader β} (hnone : Spends (g none) b q)
    (hsome : ∀ t c, c.ahead.head? = some t → Settled b q c (g (some t) c)) :
    Spends (next? >>= g) b q := by
  intro c
  change Settled b q c (g c.ahead.head? c)
  cases hhead : c.ahead.head? with
  | none => exact hnone c
  | some t => exact hsome t c hhead

theorem skip_bind {g : Unit → Reader β} (hg : Spends (g ()) (b + 1) q) {t : Token}
    (hhead : c.ahead.head? = some t) : Settled b q c ((skip >>= g) c) := by
  obtain ⟨_ | ⟨t', ts⟩, i, es⟩ := c
  · cases hhead
  have hskip : Paid b (b + 1) ⟨t' :: ts, i, es⟩ ⟨ts, i, es⟩ := .of_eq rfl (by simp; omega)
  have hrest := hg ⟨ts, i, es⟩
  change Settled b q _ (g () ⟨ts, i, es⟩)
  generalize g () ⟨ts, i, es⟩ = r at hrest
  cases r with
  | ok a d => exact hskip.trans hrest
  | error _ d => exact hskip.trans hrest

end Spends

namespace Thrifty

theorem bind (hx : Thrifty x) (hf : ∀ a, Thrifty (f a)) : Thrifty (x >>= f) :=
  fun b => (hx b).bind fun a => hf a b

theorem pure (a : α) : Thrifty (pure a : Reader α) :=
  fun b => Spends.pure (p := fun _ => b) a

theorem map {g : α → β} (hx : Thrifty x) : Thrifty (g <$> x) := by
  rw [map_eq_pure_bind]
  exact hx.bind fun a => .pure (g a)

theorem ite {t : Prop} [Decidable t] (hx : Thrifty x) (hy : Thrifty y) :
    Thrifty (if t then x else y) :=
  fun b => (hx b).ite (hy b)

theorem refuse (cause : SyntaxCause) : Thrifty (refuse (α := α) cause) :=
  fun _ => .refuse cause

theorem record (e : SyntaxError) : Thrifty (record e) :=
  fun _ _ => .of_eq rfl (Nat.le_refl _)

theorem sees (kind : Kind) : Thrifty (sees kind) :=
  fun _ _ => .of_eq rfl (Nat.le_refl _)

theorem atEnd : Thrifty atEnd :=
  fun _ _ => .of_eq rfl (Nat.le_refl _)

theorem next? : Thrifty next? :=
  fun _ _ => .of_eq rfl (Nat.le_refl _)

theorem takeIf (test : Kind → Bool) : Thrifty (takeIf test) :=
  fun _ => (Spends.takeIf test).mono fun _ => Nat.le_add_right _ _

theorem accept (kind : Kind) : Thrifty (accept kind) :=
  (takeIf _).bind fun o => .pure o.isSome

theorem expect (kind : Kind) (cause : SyntaxCause) : Thrifty (expect kind cause) :=
  fun _ => (Spends.expect kind cause).mono fun _ => Nat.le_add_right _ _

end Thrifty

end

/-! ### Expressions -/

structure Rules.Thrifty (r : Rules) : Prop where
  expression : Grammar.Thrifty r.expression
  unary : Grammar.Thrifty r.unary
  statement : Grammar.Thrifty r.statement
  declaration : Grammar.Thrifty r.declaration

section

variable {r : Rules} {form : FunctionForm}

theorem thrifty_extend {test : Kind → Bool} {build : Expr → Token → Expr → Expr}
    {operand : Reader Expr} (hoperand : Thrifty operand) (n : Nat) (e : Expr) :
    Thrifty (extend test build operand n e) := by
  induction n generalizing e with
  | zero => exact .pure e
  | succ n ih =>
      refine (Thrifty.takeIf test).bind fun o => ?_
      cases o with
      | none => exact .pure e
      | some operator => exact hoperand.bind fun right => ih _

theorem thrifty_level {bound : Nat} {test : Kind → Bool} {build : Expr → Token → Expr → Expr}
    {operand : Reader Expr} (hoperand : Thrifty operand) :
    Thrifty (level bound test build operand) :=
  hoperand.bind fun e => thrifty_extend hoperand bound e

theorem thrifty_parameterNames (n count : Nat) : Thrifty (parameterNames n count) := by
  induction n generalizing count with
  | zero => exact .refuse _
  | succ n ih =>
      have hrest : Thrifty (do
          let name ← expect .identifier .noParameterName
          if ← accept .comma then return name :: (← parameterNames n (count + 1))
          else return [name]) := by
        refine (Thrifty.expect _ _).bind fun name => (Thrifty.accept _).bind fun more => ?_
        exact .ite ((ih _).bind fun names => .pure _) (.pure _)
      exact .ite (Thrifty.next?.bind fun t => (Thrifty.record _).bind fun _ => hrest) hrest

theorem thrifty_argumentValues {expression : Reader Expr} (hexpression : Thrifty expression)
    (n count : Nat) : Thrifty (argumentValues expression n count) := by
  induction n generalizing count with
  | zero => exact .refuse _
  | succ n ih =>
      have hrest : Thrifty (do
          let value ← expression
          if ← accept .comma then return value :: (← argumentValues expression n (count + 1))
          else return [value]) := by
        refine hexpression.bind fun value => (Thrifty.accept _).bind fun more => ?_
        exact .ite ((ih _).bind fun values => .pure _) (.pure _)
      exact .ite (Thrifty.next?.bind fun t => (Thrifty.record _).bind fun _ => hrest) hrest

theorem thrifty_declarations {declaration : Reader (Option Stmt)} (hdeclaration : Thrifty declaration)
    (n : Nat) : Thrifty (declarations declaration n) := by
  induction n with
  | zero => exact .pure []
  | succ n ih =>
      refine (Thrifty.sees _).bind fun closing => Thrifty.atEnd.bind fun ended => ?_
      exact .ite (.pure []) (hdeclaration.bind fun first => ih.bind fun rest => .pure _)

theorem Rules.Thrifty.block (hr : r.Thrifty) : Grammar.Thrifty (block r) := by
  refine (thrifty_declarations hr.declaration r.bound).bind fun body => ?_
  exact (Thrifty.expect _ _).bind fun _ => .pure body

theorem Rules.Thrifty.functionRest (hr : r.Thrifty) (name : Option Token) (line : Nat) :
    Grammar.Thrifty (functionRest r form name line) := by
  have hbody : ∀ params, Grammar.Thrifty (do
      let _ ← expect .rightParen .noParameterListEnd
      let _ ← expect .leftBrace (.noFunctionBody form)
      return FunctionDecl.mk name line params (← Grammar.block r)) := fun params =>
    (Thrifty.expect _ _).bind fun _ => (Thrifty.expect _ _).bind fun _ => hr.block.bind fun _ => .pure _
  refine (Thrifty.sees _).bind fun closing => .ite ?_ ?_
  · exact (Thrifty.pure []).bind hbody
  · exact (thrifty_parameterNames _ _).bind hbody

/-- A token is passed over before the reader that handles it is asked for a reference. -/
theorem Rules.Thrifty.primary (hr : r.Thrifty) : Grammar.Thrifty (primary r) := by
  intro b
  refine Spends.bind_next? (.refuse _) fun t c hhead => ?_
  have hskip : ∀ {g : Unit → Reader Expr}, Grammar.Thrifty (g ()) →
      Settled b (fun _ => b) c ((skip >>= g) c) :=
    fun hg => Spends.skip_bind ((hg (b + 1)).mono fun _ => Nat.le_succ b) hhead
  have href : ∀ {g : Reference → Expr}, Spends (do return g (← reference t)) (b + 1) fun _ => b :=
    (Spends.reference t).bind fun _ => .pure (p := fun _ => b) _
  dsimp only
  cases t.kind with
  | kwFalse | kwTrue | kwNil | number | string => exact hskip (.pure _)
  | kwThis | identifier => exact Spends.skip_bind href hhead
  | kwSuper =>
      refine Spends.skip_bind ?_ hhead
      refine (Thrifty.expect _ _ _).bind fun _ => (Thrifty.expect _ _ _).bind fun _ => ?_
      exact (Spends.reference t).bind fun _ => .pure (p := fun _ => b) _
  | kwFun =>
      refine hskip ((Thrifty.expect _ _).bind fun _ => ?_)
      exact (hr.functionRest none t.line).bind fun _ => .pure _
  | leftParen =>
      refine hskip (hr.expression.bind fun _ => ?_)
      exact (Thrifty.expect _ _).bind fun _ => .pure _
  | _ => exact Spends.refuse _ c

theorem Rules.Thrifty.callRest (hr : r.Thrifty) (callee : Expr) :
    Grammar.Thrifty (callRest r callee) := by
  have hend : ∀ arguments, Grammar.Thrifty (do
      let paren ← expect .rightParen .noArgumentsEnd
      return Expr.call callee paren arguments) := fun arguments =>
    (Thrifty.expect _ _).bind fun _ => .pure _
  refine (Thrifty.sees _).bind fun closing => .ite ?_ ?_
  · exact (Thrifty.pure []).bind hend
  · exact (thrifty_argumentValues hr.expression _ _).bind hend

theorem Rules.Thrifty.suffixes (hr : r.Thrifty) (n : Nat) (e : Expr) :
    Grammar.Thrifty (suffixes r n e) := by
  induction n generalizing e with
  | zero => exact .pure e
  | succ n ih =>
      refine (Thrifty.accept _).bind fun called => .ite ?_ ?_
      · exact (hr.callRest e).bind fun e => ih e
      · refine (Thrifty.accept _).bind fun dotted => .ite ?_ (.pure e)
        exact (Thrifty.expect _ _).bind fun name => ih _

theorem Rules.Thrifty.unaryLevel (hr : r.Thrifty) : Grammar.Thrifty (Grammar.unary r) := by
  refine (Thrifty.takeIf _).bind fun o => ?_
  cases o with
  | none => exact hr.primary.bind fun e => hr.suffixes r.bound e
  | some operator => exact hr.unary.bind fun _ => .pure _

theorem Rules.Thrifty.disjunction (hr : r.Thrifty) : Grammar.Thrifty (disjunction r) :=
  thrifty_level (thrifty_level (thrifty_level (thrifty_level (thrifty_level (thrifty_level
    hr.unaryLevel)))))

/-- The reference on the left of an assignment is paid for by the equals sign. -/
theorem Rules.Thrifty.assignment (hr : r.Thrifty) : Grammar.Thrifty (assignment r) := by
  intro b
  refine (hr.disjunction b).bind fun target => (Spends.takeIf _).bind fun o => ?_
  cases o with
  | none => exact .pure (p := fun _ => b) target
  | some equals =>
      refine (hr.expression (b + 1)).bind fun value => ?_
      cases target with
      | ident ref => exact (Spends.reference ref.name).bind fun _ => .pure (p := fun _ => b) _
      | get object name =>
          exact (Spends.pure (p := fun _ => b + 1) _).mono fun _ => Nat.le_succ b
      | _ =>
          exact (Spends.bind (Thrifty.record _ (b + 1)) fun _ =>
            Spends.pure (p := fun _ => b + 1) _).mono fun _ => Nat.le_succ b

/-! ### Statements -/

theorem Rules.Thrifty.namedFunction (hr : r.Thrifty) : Grammar.Thrifty (namedFunction r form) :=
  (Thrifty.expect _ _).bind fun name => (Thrifty.expect _ _).bind fun _ =>
    hr.functionRest (some name) name.line

theorem Rules.Thrifty.methods (hr : r.Thrifty) (n : Nat) : Grammar.Thrifty (methods r n) := by
  induction n with
  | zero => exact .pure []
  | succ n ih =>
      refine (Thrifty.sees _).bind fun closing => Thrifty.atEnd.bind fun ended => ?_
      exact .ite (.pure []) (hr.namedFunction.bind fun first => ih.bind fun rest => .pure _)

theorem thrifty_superclass? : Thrifty superclass? := by
  intro b
  refine (Thrifty.accept _ b).bind fun derived => .ite ?_ (.pure (p := fun _ => b) none)
  refine (Spends.expect _ _).bind fun name => ?_
  exact (Spends.reference name).bind fun _ => .pure (p := fun _ => b) _

theorem Rules.Thrifty.classRest (hr : r.Thrifty) : Grammar.Thrifty (classRest r) :=
  (Thrifty.expect _ _).bind fun _ => thrifty_superclass?.bind fun _ => (Thrifty.expect _ _).bind fun _ =>
    (hr.methods r.bound).bind fun _ => (Thrifty.expect _ _).bind fun _ => .pure _

theorem Rules.Thrifty.variableRest (hr : r.Thrifty) : Grammar.Thrifty (variableRest r) := by
  refine (Thrifty.expect _ _).bind fun name => (Thrifty.accept _).bind fun set => ?_
  have hend : ∀ initializer, Grammar.Thrifty (do
      let _ ← expect .semicolon .noVariableEnd
      return Stmt.var name initializer) := fun initializer =>
    (Thrifty.expect _ _).bind fun _ => .pure _
  exact .ite (hr.assignment.map.bind hend) ((Thrifty.pure none).bind hend)

theorem Rules.Thrifty.expressionStatement (hr : r.Thrifty) :
    Grammar.Thrifty (expressionStatement r) :=
  hr.assignment.bind fun _ => (Thrifty.expect _ _).bind fun _ => .pure _

theorem Rules.Thrifty.forInitializer (hr : r.Thrifty) : Grammar.Thrifty (forInitializer r) := by
  refine (Thrifty.accept _).bind fun absent => .ite (.pure none) ?_
  refine (Thrifty.accept _).bind fun declares => .ite ?_ ?_
  · exact hr.variableRest.map
  · exact hr.expressionStatement.map

/-- Any part that is left out where a token of some kind stands. -/
theorem thrifty_optional {α β : Type} {kind : Kind} {absent : α} {present : Reader α}
    {f : α → Reader β} (hpresent : Thrifty present) (hf : ∀ a, Thrifty (f a)) :
    Thrifty (do if ← sees kind then f (← pure absent) else f (← present)) :=
  (Thrifty.sees kind).bind fun _ => .ite ((Thrifty.pure absent).bind hf) (hpresent.bind hf)

theorem Rules.Thrifty.forRest (hr : r.Thrifty) : Grammar.Thrifty (forRest r) := by
  refine (Thrifty.expect _ _).bind fun _ => hr.forInitializer.bind fun init => ?_
  refine thrifty_optional hr.assignment fun condition => (Thrifty.expect _ _).bind fun _ => ?_
  refine thrifty_optional hr.assignment.map fun increment => (Thrifty.expect _ _).bind fun _ => ?_
  exact hr.statement.bind fun _ => .pure _

theorem Rules.Thrifty.ifRest (hr : r.Thrifty) : Grammar.Thrifty (ifRest r) := by
  refine (Thrifty.expect _ _).bind fun _ => hr.assignment.bind fun condition => ?_
  refine (Thrifty.expect _ _).bind fun _ => hr.statement.bind fun thenBranch => ?_
  refine (Thrifty.accept _).bind fun otherwise => .ite ?_ ?_
  · exact hr.statement.map.bind fun _ => .pure _
  · exact (Thrifty.pure none).bind fun _ => .pure _

theorem Rules.Thrifty.printRest (hr : r.Thrifty) : Grammar.Thrifty (printRest r) :=
  hr.assignment.bind fun _ => (Thrifty.expect _ _).bind fun _ => .pure _

theorem Rules.Thrifty.returnRest (hr : r.Thrifty) (keyword : Token) :
    Grammar.Thrifty (returnRest r keyword) :=
  thrifty_optional hr.assignment.map fun _ => (Thrifty.expect _ _).bind fun _ => .pure _

theorem Rules.Thrifty.whileRest (hr : r.Thrifty) : Grammar.Thrifty (whileRest r) :=
  (Thrifty.expect _ _).bind fun _ => hr.assignment.bind fun _ => (Thrifty.expect _ _).bind fun _ =>
    hr.statement.bind fun _ => .pure _

theorem thrifty_skip : Thrifty skip := by
  rintro b ⟨ts, i, es⟩
  exact .of_eq rfl (by simp)

theorem Rules.Thrifty.statementLevel (hr : r.Thrifty) : Grammar.Thrifty (Grammar.statement r) := by
  refine Thrifty.next?.bind fun o => ?_
  cases o with
  | none => exact hr.expressionStatement
  | some t =>
      dsimp only
      split
      · exact thrifty_skip.bind fun _ => hr.forRest
      · exact thrifty_skip.bind fun _ => hr.ifRest
      · exact thrifty_skip.bind fun _ => hr.printRest
      · exact thrifty_skip.bind fun _ => hr.returnRest t
      · exact thrifty_skip.bind fun _ => hr.whileRest
      · exact thrifty_skip.bind fun _ => hr.block.map
      · exact hr.expressionStatement

theorem thrifty_seesNamedFunction : Thrifty seesNamedFunction := by
  rintro b ⟨ts, i, es⟩
  rcases ts with _ | ⟨first, _ | ⟨second, rest⟩⟩ <;> exact .of_eq rfl (Nat.le_refl _)

theorem Rules.Thrifty.declared (hr : r.Thrifty) : Grammar.Thrifty (declared r) := by
  refine (Thrifty.accept _).bind fun isClass => .ite hr.classRest ?_
  refine thrifty_seesNamedFunction.bind fun isFunction => .ite ?_ ?_
  · exact thrifty_skip.bind fun _ => hr.namedFunction.map
  · refine (Thrifty.accept _).bind fun isVariable => .ite hr.variableRest ?_
    exact hr.statementLevel

theorem length_synchronized_le (ts : List Token) : (synchronized ts).length ≤ ts.length := by
  have hresume : ∀ ts, (resume ts).length ≤ ts.length := by
    intro ts
    fun_induction resume ts with
    | case1 => exact Nat.le_refl _
    | case2 => exact Nat.le_refl _
    | case3 => exact Nat.le_succ _
    | case4 t rest _ _ ih => exact Nat.le_succ_of_le ih
  unfold synchronized
  split
  · exact Nat.le_refl _
  · split
    · exact Nat.le_succ _
    · exact Nat.le_succ_of_le (hresume _)

theorem Paid.credit {b : Nat} {c d : Cursor} (h : Paid 0 0 c d) : Paid b b c d := by
  obtain ⟨k, hid, hlength⟩ := h
  exact ⟨k, hid, by omega⟩

/-- A failure costs a credit; without one, nothing is lost by going on. -/
theorem Thrifty.recovering {α : Type} {read : Reader α} (hread : Thrifty read) :
    Thrifty (recovering read) := by
  intro b c
  have hrun := hread 0 c
  unfold Grammar.recovering
  generalize read c = r at hrun
  cases r with
  | ok a d => exact Paid.credit hrun
  | error e d =>
      have hskipped : Paid 0 0 d
          { d with ahead := synchronized d.ahead, errors := d.errors ++ [e] } :=
        .of_eq rfl (length_synchronized_le d.ahead)
      exact (Paid.trans hrun hskipped).credit

end

/-! ### Programs -/

theorem rules_thrifty (n : Nat) : (rules n).Thrifty := by
  induction n with
  | zero => exact ⟨.refuse _, .refuse _, .refuse _, .refuse _⟩
  | succ n ih =>
      exact ⟨ih.assignment, ih.unaryLevel, ih.statementLevel, ih.declared.recovering⟩

theorem thrifty_program {declaration : Reader (Option Stmt)} (hdeclaration : Thrifty declaration)
    (n : Nat) : Thrifty (program declaration n) := by
  induction n with
  | zero => exact Thrifty.atEnd.bind fun _ => .ite (.pure []) (.refuse _)
  | succ n ih =>
      refine Thrifty.atEnd.bind fun ended => .ite (.pure []) ?_
      exact hdeclaration.bind fun first => ih.bind fun rest => .pure _

theorem thrifty_wholeExpression {expression : Reader Expr} (hexpression : Thrifty expression) :
    Thrifty (wholeExpression expression) :=
  hexpression.bind fun e => Thrifty.atEnd.bind fun _ => .ite (.pure e) (.refuse _)

/-- Reading hands out no more identities than there are tokens. -/
theorem Thrifty.readAll {α : Type} {read : Reader α} (hread : Thrifty read) (tokens : List Token)
    (i : Identity) :
    ∃ k ≤ (beforeEnd tokens).length, (readAll read tokens i).nextId = i + .ofNat k := by
  have hrun := hread 0 ⟨beforeEnd tokens, i, []⟩
  unfold Grammar.readAll
  cases hread : read ⟨beforeEnd tokens, i, []⟩ with
  | ok a d =>
      rw [hread] at hrun
      obtain ⟨k, hid, hlength⟩ := hrun
      exact ⟨k, by dsimp only at hlength; omega, hid⟩
  | error e d =>
      rw [hread] at hrun
      obtain ⟨k, hid, hlength⟩ := hrun
      exact ⟨k, by dsimp only at hlength; omega, hid⟩

theorem nextId_parseProgram (tokens : List Token) (i : Identity) :
    ∃ k ≤ (beforeEnd tokens).length, (parseProgram tokens i).nextId = i + .ofNat k :=
  (thrifty_program (rules_thrifty _).declaration _).readAll tokens i

theorem nextId_parseExpression (tokens : List Token) (i : Identity) :
    ∃ k ≤ (beforeEnd tokens).length, (parseExpression tokens i).nextId = i + .ofNat k :=
  (thrifty_wholeExpression (rules_thrifty _).expression).readAll tokens i

end LoxLang.Grammar
