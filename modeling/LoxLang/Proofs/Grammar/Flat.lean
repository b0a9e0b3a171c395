import LoxLang.Proofs.Grammar.Reading

/-!
Reading inside of a flat statement. A list of tokens is flat if it ends with its only semicolon and has
nothing that opens a block or a loop with clauses. A reader that begins in such a list stops in it or
exactly at its end, whatever is written there: only the end of a statement asks for a semicolon, and
recovery passes over none without stopping. So neither the tokens behind the list nor the errors
recorded before make a difference to it.
-/

namespace LoxLang.Grammar

variable {α β : Type} {c d : Cursor} {t : Token} {before es : List SyntaxError} {ts us : List Token}
  {kind : Kind} {cause : SyntaxCause} {r : Rules} {form : FunctionForm}

/-- The kinds of token that may stand before the semicolon of a flat list. -/
def Plain (kind : Kind) : Prop :=
  kind ∉ [.semicolon, .eof, .leftBrace, .rightBrace, .kwFor, .kwElse]

instance : DecidablePred Plain :=
  fun kind => inferInstanceAs (Decidable (kind ∉ _))

/-- The tokens end with a semicolon, and the others are plain. -/
structure Flat (ts : List Token) : Prop where
  shape : ∃ body last, ts = body ++ [last] ∧ last.kind = .semicolon ∧ ∀ t ∈ body, Plain t.kind

theorem Flat.cons_cases (h : Flat (t :: ts)) :
    t.kind = .semicolon ∧ ts = [] ∨ Plain t.kind ∧ Flat ts := by
  obtain ⟨body, last, heq, hlast, hbody⟩ := h.shape
  cases body with
  | nil =>
      obtain ⟨rfl, rfl⟩ : t = last ∧ ts = [] := by simpa using heq
      exact .inl ⟨hlast, rfl⟩
  | cons u body =>
      obtain ⟨rfl, rfl⟩ : t = u ∧ ts = body ++ [last] := by simpa using heq
      refine .inr ⟨hbody t (List.mem_cons_self ..), body, last, rfl, hlast, fun v hv => ?_⟩
      exact hbody v (List.mem_cons_of_mem _ hv)

theorem not_flat_nil : ¬Flat [] := by
  rintro ⟨body, last, heq, -⟩
  simp at heq

theorem Flat.exists_cons (h : Flat ts) : ∃ t rest, ts = t :: rest := by
  cases ts with
  | nil => exact (not_flat_nil h).elim
  | cons t rest => exact ⟨t, rest, rfl⟩

/-- No list is flat that begins with a token which is not plain and not a semicolon. -/
theorem Flat.kind_cases (h : Flat (t :: ts)) : t.kind = .semicolon ∨ Plain t.kind :=
  h.cons_cases.imp And.left And.left

theorem Flat.tail (h : Flat (t :: ts)) (ht : t.kind ≠ .semicolon) : Flat ts := by
  rcases h.cons_cases with ⟨hkind, -⟩ | ⟨-, hts⟩
  · exact (ht hkind).elim
  · exact hts

/-- Errors that are at tokens, not at the end of the input. -/
def Located (es : List SyntaxError) : Prop :=
  ∀ e ∈ es, e.found.isSome = true

theorem Located.snoc {e : SyntaxError} (h : Located es) (he : e.found.isSome = true) :
    Located (es ++ [e]) := by
  intro e' hmem
  rcases List.mem_append.mp hmem with hmem | hmem
  · exact h e' hmem
  · exact List.mem_singleton.mp hmem ▸ he

/-- A cursor with more tokens behind those ahead, and more errors before those recorded. -/
def Cursor.framed (before : List SyntaxError) (us : List Token) (c : Cursor) : Cursor :=
  ⟨c.ahead ++ us, c.nextId, before ++ c.errors⟩

section

variable (before : List SyntaxError) (us : List Token)

/-- Outcomes inside of a frame and without it. What is left ahead satisfies `post`, or is flat after a
failure, which is at a token. -/
inductive Framed (post : List Token → Prop) :
    EStateM.Result SyntaxError Cursor α → EStateM.Result SyntaxError Cursor α → Prop where
  | ok {a : α} {d : Cursor} (rest : post d.ahead) (located : Located d.errors) :
      Framed post (.ok a d) (.ok a (d.framed before us))
  | error {e : SyntaxError} {d : Cursor} (rest : Flat d.ahead) (located : Located (d.errors ++ [e])) :
      Framed post (.error e d) (.error e (d.framed before us))

/-- From where `pre` holds, a reader does in a frame what it does without. -/
def Frames (pre post : List Token → Prop) (x : Reader α) : Prop :=
  ∀ c, pre c.ahead → Located c.errors → Framed before us post (x c) (x (c.framed before us))

end

namespace Frames

variable {pre mid post : List Token → Prop} {x y : Reader α}

theorem pure (a : α) : Frames before us pre pre (pure a : Reader α) :=
  fun _ hpre hlocated => .ok hpre hlocated

theorem bind {f : α → Reader β} (hx : Frames before us pre mid x)
    (hf : ∀ a, Frames before us mid post (f a)) : Frames before us pre post (x >>= f) := by
  intro c hpre hlocated
  have hrun := hx c hpre hlocated
  change Framed _ _ _ (EStateM.bind x f c) (EStateM.bind x f (c.framed before us))
  unfold EStateM.bind
  generalize x c = r, x (c.framed before us) = s at hrun
  cases hrun with
  | @ok a d hmid hlocated => exact hf a d hmid hlocated
  | error hflat hlocated => exact .error hflat hlocated

theorem map {f : α → β} (hx : Frames before us pre post x) : Frames before us pre post (f <$> x) := by
  rw [map_eq_pure_bind]
  exact hx.bind fun a => .pure (f a)

theorem ite {b : Prop} [Decidable b] (hx : Frames before us pre post x)
    (hy : Frames before us pre post y) : Frames before us pre post (if b then x else y) := by
  split
  · exact hx
  · exact hy

end Frames

/-! ### Single tokens -/

section

variable {post : List Token → Prop}

/-- The token that stands next stands next in the frame. -/
theorem Flat.head?_framed (hflat : Flat c.ahead) :
    (c.framed before us).ahead.head? = c.ahead.head? := by
  obtain ⟨t, rest, hahead⟩ := hflat.exists_cons
  rw [Cursor.framed, hahead]
  rfl

theorem Flat.isSome_head? (hflat : Flat ts) : ts.head?.isSome = true := by
  obtain ⟨t, rest, rfl⟩ := hflat.exists_cons
  rfl

/-- A reader that looks at the next token first has one to look at. -/
theorem frames_next? {f : Option Token → Reader α}
    (h : ∀ c t rest, c.ahead = t :: rest → Flat c.ahead → Located c.errors →
      Framed before us post (f (some t) c) (f (some t) (c.framed before us))) :
    Frames before us Flat post (next? >>= f) := by
  intro c hflat hlocated
  obtain ⟨t, rest, hahead⟩ := hflat.exists_cons
  have hnext : next? c = .ok (some t) c := by rw [next?_eq, hahead]; rfl
  have hnext' : next? (c.framed before us) = .ok (some t) (c.framed before us) := by
    rw [next?_eq, Cursor.framed, hahead]
    rfl
  rw [bind_of_ok hnext, bind_of_ok hnext']
  exact h c t rest hahead hflat hlocated

theorem framed_skip {x : Reader α} (hx : Frames before us Flat post x) (hahead : c.ahead = t :: ts)
    (hflat : Flat c.ahead) (hlocated : Located c.errors) (ht : t.kind ≠ .semicolon) :
    Framed before us post ((do skip; x : Reader α) c)
      ((do skip; x : Reader α) (c.framed before us)) := by
  obtain ⟨ahead, id, errors⟩ := c
  obtain rfl : ahead = t :: ts := hahead
  exact hx ⟨ts, id, errors⟩ (hflat.tail ht) hlocated

theorem frames_sees (kind : Kind) : Frames before us Flat Flat (sees kind) := by
  intro c hflat hlocated
  rw [sees_eq, sees_eq, hflat.head?_framed]
  exact .ok hflat hlocated

theorem frames_takeIf (test : Kind → Bool) (htest : test .semicolon = false) :
    Frames before us Flat Flat (takeIf test) := by
  refine frames_next? fun c t rest hahead hflat hlocated => ?_
  dsimp only
  split
  · refine framed_skip (.pure (some t)) hahead hflat hlocated fun ht => ?_
    simp_all
  · exact .ok hflat hlocated

theorem frames_accept (hkind : kind ≠ .semicolon) : Frames before us Flat Flat (accept kind) :=
  (frames_takeIf (· == kind) (beq_false_of_ne hkind.symm)).bind fun o => .pure o.isSome

theorem frames_refuse (cause : SyntaxCause) :
    Frames before us Flat post (refuse cause : Reader α) :=
  frames_next? fun _ _ _ _ hflat hlocated => .error hflat (hlocated.snoc rfl)

theorem frames_expect (hkind : kind ≠ .semicolon) (cause : SyntaxCause) :
    Frames before us Flat Flat (expect kind cause) := by
  refine (frames_takeIf (· == kind) (beq_false_of_ne hkind.symm)).bind fun o => ?_
  cases o with
  | none => exact frames_refuse cause
  | some t => exact .pure t

theorem Flat.begins_framed (hflat : Flat c.ahead) :
    Begins kind (c.framed before us).ahead ↔ Begins kind c.ahead := by
  rw [Begins, hflat.head?_framed, Begins]

/-- Nothing comes behind a token that a flat list does not have. -/
theorem frames_missing {f : Token → Reader α} (hkind : kind ≠ .semicolon)
    (hplain : ¬Plain kind) : Frames before us Flat post (expect kind cause >>= f) := by
  intro c hflat hlocated
  have hnext : ¬Begins kind c.ahead := by
    intro hbegins
    obtain ⟨t, rest, hahead, hkind'⟩ := exists_cons_of_begins hbegins
    rw [hahead] at hflat
    rcases hflat.kind_cases with h | h
    · exact hkind (hkind'.symm.trans h)
    · exact hplain (hkind' ▸ h)
  have hnext' : ¬Begins kind (c.framed before us).ahead := fun h => hnext (hflat.begins_framed.mp h)
  have hrun : (expect kind cause >>= f) c = .error ⟨c.ahead.head?, cause⟩ c :=
    bind_of_error (expect_of_not_begins hnext)
  have hrun' : (expect kind cause >>= f) (c.framed before us) =
      .error ⟨c.ahead.head?, cause⟩ (c.framed before us) :=
    bind_of_error ((expect_of_not_begins hnext').trans (by rw [hflat.head?_framed]))
  rw [hrun, hrun']
  exact .error hflat (hlocated.snoc hflat.isSome_head?)

/-- A semicolon is the end of the list. -/
theorem frames_semicolon (cause : SyntaxCause) :
    Frames before us Flat (· = []) (expect .semicolon cause) := by
  rintro ⟨ahead, id, errors⟩ hflat hlocated
  by_cases hnext : Begins .semicolon ahead
  · obtain ⟨t, rest, rfl, ht⟩ := exists_cons_of_begins hnext
    obtain rfl : rest = [] := by
      rcases hflat.cons_cases with h | h
      · exact h.2
      · exact (h.1 (ht ▸ List.mem_cons_self ..)).elim
    rw [Cursor.framed, List.cons_append, expect_cons ht, expect_cons ht]
    exact .ok rfl hlocated
  · have hnext' : ¬Begins .semicolon (Cursor.framed before us ⟨ahead, id, errors⟩).ahead :=
      fun h => hnext (hflat.begins_framed.mp h)
    rw [expect_of_not_begins hnext', expect_of_not_begins (c := ⟨ahead, id, errors⟩) hnext,
      hflat.head?_framed]
    exact .error hflat (hlocated.snoc hflat.isSome_head?)

theorem frames_record {e : SyntaxError} (he : e.found.isSome = true) :
    Frames before us Flat Flat (record e) := by
  rintro ⟨ahead, id, errors⟩ hflat hlocated
  rw [record_eq, record_eq, Cursor.framed, List.append_assoc]
  exact .ok hflat (hlocated.snoc he)

theorem frames_reference (name : Token) : Frames before us Flat Flat (reference name) :=
  fun _ hflat hlocated => .ok hflat hlocated

/-- The token behind a single one ahead is not asked for, since that one is a semicolon. -/
theorem Flat.seesNamedFunction_framed (hflat : Flat c.ahead) :
    ∃ b, seesNamedFunction c = .ok b c ∧
      seesNamedFunction (c.framed before us) = .ok b (c.framed before us) ∧
      (b = true → Begins .kwFun c.ahead) := by
  obtain ⟨ahead, id, errors⟩ := c
  rcases ahead with _ | ⟨t, _ | ⟨u, rest⟩⟩
  · exact (not_flat_nil hflat).elim
  · have ht : (t.kind == .kwFun) = false := by
      rcases hflat.cons_cases with ⟨ht, -⟩ | ⟨-, hnil⟩
      · rw [ht]
        rfl
      · exact (not_flat_nil hnil).elim
    refine ⟨false, rfl, ?_, by simp⟩
    cases us with
    | nil => rfl
    | cons u us => exact congrArg (fun b => EStateM.Result.ok (b && _) _) ht
  · refine ⟨t.kind == .kwFun && u.kind == .identifier, rfl, rfl, fun h => begins_cons.mpr ?_⟩
    simp_all

/-! ### Expressions -/

variable {operand : Reader Expr} {n : Nat}

theorem frames_extend {test : Kind → Bool} {build : Expr → Token → Expr → Expr}
    (htest : test .semicolon = false) (hoperand : Frames before us Flat Flat operand) (e : Expr) :
    Frames before us Flat Flat (extend test build operand n e) := by
  induction n generalizing e with
  | zero => exact .pure e
  | succ n ih =>
      refine (frames_takeIf test htest).bind fun o => ?_
      cases o with
      | none => exact .pure e
      | some operator => exact hoperand.bind fun right => ih _

theorem frames_level {test : Kind → Bool} {build : Expr → Token → Expr → Expr}
    (hoperand : Frames before us Flat Flat operand) (htest : test .semicolon = false) :
    Frames before us Flat Flat (level n test build operand) :=
  hoperand.bind fun e => frames_extend htest hoperand e

/-- A complaint is at the next token. -/
theorem frames_complaint {x : Reader α} (hx : Frames before us Flat post x) :
    Frames before us Flat post (do record ⟨← next?, cause⟩; x) :=
  frames_next? fun c t _ _ hflat hlocated =>
    ((frames_record (e := ⟨some t, cause⟩) rfl).bind fun _ => hx) c hflat hlocated

theorem frames_parameterNames (count : Nat) :
    Frames before us Flat Flat (parameterNames n count) := by
  induction n generalizing count with
  | zero => exact frames_refuse _
  | succ n ih =>
      have hrest : Frames before us Flat Flat (do
          let name ← expect .identifier .noParameterName
          if ← accept .comma then return name :: (← parameterNames n (count + 1))
          else return [name]) := by
        refine (frames_expect (by decide) _).bind fun name => ?_
        refine (frames_accept (by decide)).bind fun more => ?_
        exact .ite ((ih _).bind fun names => .pure _) (.pure _)
      exact .ite (frames_complaint hrest) hrest

theorem frames_argumentValues (hoperand : Frames before us Flat Flat operand) (count : Nat) :
    Frames before us Flat Flat (argumentValues operand n count) := by
  induction n generalizing count with
  | zero => exact frames_refuse _
  | succ n ih =>
      have hrest : Frames before us Flat Flat (do
          let value ← operand
          if ← accept .comma then return value :: (← argumentValues operand n (count + 1))
          else return [value]) := by
        refine hoperand.bind fun value => (frames_accept (by decide)).bind fun more => ?_
        exact .ite ((ih _).bind fun values => .pure _) (.pure _)
      exact .ite (frames_complaint hrest) hrest

variable (before us) in
/-- Rules that read in a frame as without it. -/
structure Rules.Frame (r : Rules) : Prop where
  expression : Frames before us Flat Flat r.expression
  unary : Frames before us Flat Flat r.unary
  statement : Frames before us Flat (· = []) r.statement

namespace Rules.Frame

/-- No function body begins in a flat list. -/
theorem functionRest (name : Option Token) (line : Nat) :
    Frames before us Flat post (functionRest r form name line) := by
  have hbody : ∀ params, Frames before us Flat post (do
      let _ ← expect .rightParen .noParameterListEnd
      let _ ← expect .leftBrace (.noFunctionBody form)
      return FunctionDecl.mk name line params (← block r)) := fun params =>
    (frames_expect (by decide) _).bind fun _ => frames_missing (by decide) (by decide)
  exact (frames_sees _).bind fun _ => .ite ((Frames.pure []).bind hbody)
    ((frames_parameterNames _).bind hbody)

theorem primary (h : r.Frame before us) : Frames before us Flat Flat (primary r) := by
  refine frames_next? fun c t rest hahead hflat hlocated => ?_
  have hskip {x : Reader Expr} (hx : Frames before us Flat Flat x) (ht : t.kind ≠ .semicolon) :=
    framed_skip hx hahead hflat hlocated ht
  dsimp only
  cases hkind : t.kind with
  | kwFalse | kwTrue | kwNil | number | string => exact hskip (.pure _) (by simp [hkind])
  | kwThis | identifier =>
      exact hskip ((frames_reference t).bind fun _ => .pure _) (by simp [hkind])
  | kwSuper =>
      refine hskip ((frames_expect (by decide) _).bind fun _ => ?_) (by simp [hkind])
      exact (frames_expect (by decide) _).bind fun method => (frames_reference t).bind fun _ => .pure _
  | kwFun =>
      refine hskip ((frames_expect (by decide) _).bind fun _ => ?_) (by simp [hkind])
      exact (functionRest none t.line).bind fun _ => .pure _
  | leftParen =>
      refine hskip (h.expression.bind fun _ => ?_) (by simp [hkind])
      exact (frames_expect (by decide) _).bind fun _ => .pure _
  | _ => exact frames_refuse _ c hflat hlocated

theorem callRest (h : r.Frame before us) (callee : Expr) :
    Frames before us Flat Flat (callRest r callee) := by
  have hend : ∀ arguments, Frames before us Flat Flat (do
      let paren ← expect .rightParen .noArgumentsEnd
      return Expr.call callee paren arguments) := fun arguments =>
    (frames_expect (by decide) _).bind fun _ => .pure _
  exact (frames_sees _).bind fun _ => .ite ((Frames.pure []).bind hend)
    ((frames_argumentValues h.expression _).bind hend)

theorem suffixes (h : r.Frame before us) (e : Expr) :
    Frames before us Flat Flat (suffixes r n e) := by
  induction n generalizing e with
  | zero => exact .pure e
  | succ n ih =>
      refine (frames_accept (by decide)).bind fun called => .ite ((h.callRest e).bind fun e => ih e) ?_
      refine (frames_accept (by decide)).bind fun dotted => .ite ?_ (.pure e)
      exact (frames_expect (by decide) _).bind fun name => ih _

theorem unaryLevel (h : r.Frame before us) : Frames before us Flat Flat (Grammar.unary r) := by
  refine (frames_takeIf _ (by decide)).bind fun o => ?_
  cases o with
  | none => exact h.primary.bind fun e => h.suffixes e
  | some operator => exact h.unary.bind fun _ => .pure _

theorem assignment (h : r.Frame before us) : Frames before us Flat Flat (assignment r) := by
  have hdisjunction : Frames before us Flat Flat (disjunction r) :=
    frames_level (frames_level (frames_level (frames_level (frames_level (frames_level
      h.unaryLevel (by decide)) (by decide)) (by decide)) (by decide)) (by decide)) (by decide)
  refine hdisjunction.bind fun target => (frames_takeIf _ (by decide)).bind fun o => ?_
  cases o with
  | none => exact .pure target
  | some equals =>
      refine h.expression.bind fun value => ?_
      cases target with
      | ident ref => exact (frames_reference ref.name).bind fun _ => .pure _
      | get object name => exact .pure _
      | _ => exact (frames_record rfl).bind fun _ => .pure _

/-! ### Statements -/

theorem namedFunction : Frames before us Flat post (namedFunction r form) :=
  (frames_expect (by decide) _).bind fun name => (frames_expect (by decide) _).bind fun _ =>
    functionRest (some name) name.line

theorem classRest : Frames before us Flat post (classRest r) := by
  have hsuperclass : Frames before us Flat Flat superclass? := by
    refine (frames_accept (by decide)).bind fun derived => .ite ?_ (.pure none)
    exact (frames_expect (by decide) _).bind fun name => (frames_reference name).bind fun _ => .pure _
  exact (frames_expect (by decide) _).bind fun name => hsuperclass.bind fun _ =>
    frames_missing (by decide) (by decide)

theorem variableRest (h : r.Frame before us) :
    Frames before us Flat (· = []) (variableRest r) := by
  refine (frames_expect (by decide) _).bind fun name => (frames_accept (by decide)).bind fun set => ?_
  have hend : ∀ initializer, Frames before us Flat (· = []) (do
      let _ ← expect .semicolon .noVariableEnd
      return Stmt.var name initializer) := fun initializer =>
    (frames_semicolon _).bind fun _ => .pure _
  exact .ite (h.assignment.map.bind hend) ((Frames.pure none).bind hend)

theorem expressionStatement (h : r.Frame before us) :
    Frames before us Flat (· = []) (expressionStatement r) :=
  h.assignment.bind fun _ => (frames_semicolon _).bind fun _ => .pure _

/-- Behind the statement of a branch, the list has ended, and what comes next is no `else`. -/
theorem ifRest (h : r.Frame before us) (hus : ¬Begins .kwElse us) :
    Frames before us Flat (· = []) (ifRest r) := by
  refine (frames_expect (by decide) _).bind fun _ => h.assignment.bind fun condition => ?_
  refine (frames_expect (by decide) _).bind fun _ => h.statement.bind fun thenBranch => ?_
  rintro ⟨ahead, id, errors⟩ rfl hlocated
  have hnone : ¬Begins .kwElse (Cursor.framed before us ⟨[], id, errors⟩).ahead := hus
  rw [bind_of_ok (accept_of_not_begins hnone),
    bind_of_ok (accept_of_not_begins (c := ⟨[], id, errors⟩) begins_nil)]
  exact .ok rfl hlocated

theorem printRest (h : r.Frame before us) : Frames before us Flat (· = []) (printRest r) :=
  h.assignment.bind fun _ => (frames_semicolon _).bind fun _ => .pure _

theorem returnRest (h : r.Frame before us) (keyword : Token) :
    Frames before us Flat (· = []) (returnRest r keyword) := by
  have hend : ∀ value, Frames before us Flat (· = []) (do
      let _ ← expect .semicolon .noReturnEnd
      return Stmt.ret keyword value) := fun value => (frames_semicolon _).bind fun _ => .pure _
  exact (frames_sees _).bind fun _ => .ite ((Frames.pure none).bind hend) (h.assignment.map.bind hend)

theorem whileRest (h : r.Frame before us) : Frames before us Flat (· = []) (whileRest r) :=
  (frames_expect (by decide) _).bind fun _ => h.assignment.bind fun _ =>
    (frames_expect (by decide) _).bind fun _ => h.statement.bind fun _ => .pure _

theorem statementLevel (h : r.Frame before us) (hus : ¬Begins .kwElse us) :
    Frames before us Flat (· = []) (Grammar.statement r) := by
  refine frames_next? fun c t rest hahead hflat hlocated => ?_
  have hskip {x : Reader Stmt} (hx : Frames before us Flat (· = []) x) (ht : t.kind ≠ .semicolon) :=
    framed_skip hx hahead hflat hlocated ht
  have hplain : t.kind = .semicolon ∨ Plain t.kind := (hahead ▸ hflat).kind_cases
  dsimp only
  cases hkind : t.kind with
  | kwFor | leftBrace => exact absurd hplain (by rw [hkind]; decide)
  | kwIf => exact hskip (h.ifRest hus) (by simp [hkind])
  | kwPrint => exact hskip h.printRest (by simp [hkind])
  | kwReturn => exact hskip (h.returnRest t) (by simp [hkind])
  | kwWhile => exact hskip h.whileRest (by simp [hkind])
  | _ => exact h.expressionStatement c hflat hlocated

theorem declaredLevel (h : r.Frame before us) (hus : ¬Begins .kwElse us) :
    Frames before us Flat (· = []) (declared r) := by
  refine (frames_accept (by decide)).bind fun isClass => .ite classRest ?_
  intro c hflat hlocated
  obtain ⟨b, hsees, hsees', hnext⟩ := hflat.seesNamedFunction_framed
  rw [bind_of_ok hsees, bind_of_ok hsees']
  cases b with
  | true =>
      obtain ⟨t, rest, hahead, ht⟩ := exists_cons_of_begins (hnext rfl)
      exact framed_skip namedFunction.map hahead hflat hlocated (by simp [ht])
  | false =>
      refine Frames.bind (frames_accept (by decide)) (fun isVariable => ?_) c hflat hlocated
      exact .ite h.variableRest (h.statementLevel hus)

end Rules.Frame

/-! ### Recovery -/

/-- Recovery ends in a flat list or exactly behind it. -/
theorem synchronized_append (us : List Token) (h : Flat ts) :
    synchronized (ts ++ us) = synchronized ts ++ us ∧
      (Flat (synchronized ts) ∨ synchronized ts = []) := by
  have hresume : ∀ ts, Flat ts →
      resume (ts ++ us) = resume ts ++ us ∧ (Flat (resume ts) ∨ resume ts = []) := by
    intro ts
    induction ts with
    | nil => exact fun h => (not_flat_nil h).elim
    | cons t rest ih =>
        intro h
        rw [List.cons_append, resume, resume]
        by_cases hbegins : beginsStatement t.kind = true
        · rw [if_pos hbegins, if_pos hbegins]
          exact ⟨rfl, .inl h⟩
        · rw [if_neg hbegins, if_neg hbegins]
          rcases h.cons_cases with ⟨ht, rfl⟩ | ⟨hplain, hrest⟩
          · rw [if_pos ht, if_pos ht]
            exact ⟨rfl, .inr rfl⟩
          · have ht : t.kind ≠ .semicolon := fun ht => hplain (ht ▸ List.mem_cons_self ..)
            rw [if_neg ht, if_neg ht]
            exact ih hrest
  obtain ⟨t, rest, rfl⟩ := h.exists_cons
  rw [List.cons_append, synchronized, synchronized]
  rcases h.cons_cases with ⟨ht, rfl⟩ | ⟨hplain, hrest⟩
  · rw [if_pos ht, if_pos ht]
    exact ⟨rfl, .inr rfl⟩
  · have ht : t.kind ≠ .semicolon := fun ht => hplain (ht ▸ List.mem_cons_self ..)
    rw [if_neg ht, if_neg ht]
    exact hresume rest hrest

theorem frames_recovering {x : Reader α} (hx : Frames before us Flat (· = []) x) :
    Frames before us Flat (fun ts => Flat ts ∨ ts = []) (recovering x) := by
  intro c hflat hlocated
  have hrun := hx c hflat hlocated
  unfold recovering
  generalize x c = r, x (c.framed before us) = s at hrun
  cases hrun with
  | ok hrest hlocated' => exact .ok (.inr hrest) hlocated'
  | @error e d hflat' hlocated' =>
      obtain ⟨happend, hrest⟩ := synchronized_append us hflat'
      simp only [Cursor.framed, happend, List.append_assoc]
      exact .ok hrest hlocated'

/-- The grammar's rules do not see the frame of a flat list. -/
theorem rules_frame (hus : ¬Begins .kwElse us) (n : Nat) : (rules n).Frame before us := by
  induction n with
  | zero => exact ⟨frames_refuse _, frames_refuse _, frames_refuse _⟩
  | succ n ih => exact ⟨ih.assignment, ih.unaryLevel, ih.statementLevel hus⟩

theorem frames_declaration (hus : ¬Begins .kwElse us) (n : Nat) :
    Frames before us Flat (fun ts => Flat ts ∨ ts = []) (rules (n + 1)).declaration :=
  frames_recovering ((rules_frame hus n).declaredLevel hus)

end

end LoxLang.Grammar
