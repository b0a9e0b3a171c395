import LoxLang.Proofs.Grammar.Reading

/-!
What is read is in the grammar. A reader is sound for a family of phrases if a run that leaves no error
behind began without one and read the tokens of the phrase for its result. Errors are only ever added,
so an outcome without errors says this about every part of the run.
-/

namespace LoxLang.Grammar

variable {α : Type} {c d : Cursor}

def Sound (read : Reader α) (φ : α → Phrase) : Prop :=
  ∀ ⦃c a d⦄, read c = .ok a d → d.errors = [] → c.errors = [] ∧ Derives (φ a) c.input d.input

/-- Soundness for statements: an open one is not followed by an `else`. -/
def StatementSound (read : Reader Stmt) : Prop :=
  ∀ ⦃c a d⦄, read c = .ok a d → d.errors = [] →
    c.errors = [] ∧ ∃ isOpen, Derives (.statement isOpen a) c.input d.input ∧
      (isOpen = true → ¬Begins .kwElse d.ahead)

/-- Soundness for readers that may give nothing: then they leave an error. -/
def RecoveringSound (read : Reader (Option Stmt)) : Prop :=
  ∀ ⦃c o d⦄, read c = .ok o d → d.errors = [] →
    c.errors = [] ∧ ∃ a, o = some a ∧ Derives (.declaration a) c.input d.input

structure Rules.Sound (r : Rules) : Prop where
  expression : Grammar.Sound r.expression (.expr .assignment)
  unary : Grammar.Sound r.unary (.expr .unary)
  statement : StatementSound r.statement
  declaration : RecoveringSound r.declaration

/-! ### Lists -/

theorem extend_sound {tier : Tier} {test : Kind → Bool} {operand : Reader Expr}
    (htest : ∀ k, test k = true → k ∈ tier.operators)
    (hoperand : Sound operand (.expr tier.next)) (n : Nat) {left e : Expr}
    (h : extend test tier.join operand n left c = .ok e d) (hd : d.errors = []) :
    c.errors = [] ∧
      ∀ s, Derives (.expr tier left) s c.input → Derives (.expr tier e) s d.input := by
  induction n generalizing left c with
  | zero =>
      obtain ⟨rfl, rfl⟩ := pure_ok_iff.mp h
      exact ⟨hd, fun _ hs => hs⟩
  | succ n ih =>
      rw [extend, bind_ok_iff] at h
      obtain ⟨o, m, ho, h⟩ := h
      rcases takeIf_ok ho with ⟨operator, rfl, hk, rfl⟩ | ⟨rfl, rfl, -⟩
      · replace h := bind_ok_iff.mp h
        obtain ⟨right, m', hright, h⟩ := h
        obtain ⟨hm', hrest⟩ := ih h
        obtain ⟨hm, hder⟩ := hoperand hright hm'
        exact ⟨hm, fun s hs => hrest s (.joined hs (htest _ hk) hder)⟩
      · obtain ⟨rfl, rfl⟩ := pure_ok_iff.mp h
        exact ⟨hd, fun _ hs => hs⟩

theorem level_sound (tier : Tier) {test : Kind → Bool} {operand : Reader Expr} {bound : Nat}
    (hprimary : tier ≠ .primary) (htest : ∀ k, test k = true → k ∈ tier.operators)
    (hoperand : Sound operand (.expr tier.next)) :
    Sound (level bound test tier.join operand) (.expr tier) := by
  intro c e d h hd
  replace h := bind_ok_iff.mp h
  obtain ⟨first, m, hfirst, h⟩ := h
  obtain ⟨hm, hrest⟩ := extend_sound htest hoperand bound h hd
  obtain ⟨hc, hder⟩ := hoperand hfirst hm
  exact ⟨hc, hrest _ (.tighter hprimary hder)⟩

/-- A record that is made leaves an error, whatever is read behind it. -/
theorem recorded_ok {read : Reader α} {p : Prop} [Decidable p] {cause : SyntaxCause} {a : α}
    (hread : ∀ ⦃c⦄, read c = .ok a d → c.errors = [])
    (h : (do if p then record ⟨← next?, cause⟩
             read : Reader α) c = .ok a d) : ¬p ∧ read c = .ok a d := by
  by_cases hp : p
  · rw [if_pos hp, bind_ok_iff] at h
    obtain ⟨o, m, ho, h⟩ := h
    replace h := bind_ok_iff.mp h
    obtain ⟨u, m', hu, h⟩ := h
    rw [record_eq] at hu
    cases hu
    simpa using hread h
  · rw [if_neg hp] at h
    exact ⟨hp, h⟩

theorem parameterNames_sound (n count : Nat) {names : List Token}
    (h : parameterNames n count c = .ok names d) (hd : d.errors = []) :
    c.errors = [] ∧ names ≠ [] ∧ count + names.length ≤ maxArguments ∧
      Derives (.parameters names) c.input d.input := by
  induction n generalizing count names c with
  | zero => exact (refuse_ok_iff.mp h).elim
  | succ n ih =>
      have hread : ∀ ⦃c : Cursor⦄, (do
            let name ← expect .identifier .noParameterName
            if ← accept .comma then return name :: (← parameterNames n (count + 1))
            else return [name] : Reader (List Token)) c = .ok names d →
          c.errors = [] ∧ (count < maxArguments → names ≠ [] ∧
            count + names.length ≤ maxArguments ∧ Derives (.parameters names) c.input d.input) := by
        intro c h
        replace h := bind_ok_iff.mp h
        obtain ⟨name, m, hname, h⟩ := h
        obtain ⟨hkind, rfl⟩ := expect_ok hname
        replace h := bind_ok_iff.mp h
        obtain ⟨b, m', hb, h⟩ := h
        rcases accept_ok hb with ⟨rfl, comma, hcomma, rfl⟩ | ⟨rfl, rfl, -⟩
        · replace h := bind_ok_iff.mp h
          obtain ⟨rest, m'', hrest, h⟩ := h
          obtain ⟨rfl, rfl⟩ := pure_ok_iff.mp h
          obtain ⟨hm', hne, hlen, hder⟩ := ih (count + 1) hrest
          refine ⟨hm', fun _ => ⟨by simp, ?_, .moreParameters hkind hcomma hder hne⟩⟩
          simp only [List.length_cons]
          omega
        · obtain ⟨rfl, rfl⟩ := pure_ok_iff.mp h
          exact ⟨hd, fun hlt => ⟨by simp, hlt, .lastParameter hkind⟩⟩
      obtain ⟨hlt, h⟩ := recorded_ok (fun _ h => (hread h).1) h
      exact ⟨(hread h).1, (hread h).2 (by omega)⟩

theorem argumentValues_sound {expression : Reader Expr}
    (hexpression : Sound expression (.expr .assignment)) (n count : Nat) {values : List Expr}
    (h : argumentValues expression n count c = .ok values d) (hd : d.errors = []) :
    c.errors = [] ∧ values ≠ [] ∧ count + values.length ≤ maxArguments ∧
      Derives (.arguments values) c.input d.input := by
  induction n generalizing count values c with
  | zero => exact (refuse_ok_iff.mp h).elim
  | succ n ih =>
      have hread : ∀ ⦃c : Cursor⦄, (do
            let value ← expression
            if ← accept .comma then
              return value :: (← argumentValues expression n (count + 1))
            else return [value] : Reader (List Expr)) c = .ok values d →
          c.errors = [] ∧ (count < maxArguments → values ≠ [] ∧
            count + values.length ≤ maxArguments ∧ Derives (.arguments values) c.input d.input) := by
        intro c h
        replace h := bind_ok_iff.mp h
        obtain ⟨value, m, hvalue, h⟩ := h
        replace h := bind_ok_iff.mp h
        obtain ⟨b, m', hb, h⟩ := h
        rcases accept_ok hb with ⟨rfl, comma, hcomma, rfl⟩ | ⟨rfl, rfl, -⟩
        · replace h := bind_ok_iff.mp h
          obtain ⟨rest, m'', hrest, h⟩ := h
          obtain ⟨rfl, rfl⟩ := pure_ok_iff.mp h
          obtain ⟨hm', hne, hlen, hder⟩ := ih (count + 1) hrest
          obtain ⟨hc, hfirst⟩ := hexpression hvalue hm'
          refine ⟨hc, fun _ => ⟨by simp, ?_, .moreArguments hfirst hcomma hder hne⟩⟩
          simp only [List.length_cons]
          omega
        · obtain ⟨rfl, rfl⟩ := pure_ok_iff.mp h
          obtain ⟨hc, hlast⟩ := hexpression hvalue hd
          exact ⟨hc, fun hlt => ⟨by simp, hlt, .lastArgument hlast⟩⟩
      obtain ⟨hlt, h⟩ := recorded_ok (fun _ h => (hread h).1) h
      exact ⟨(hread h).1, (hread h).2 (by omega)⟩

theorem declarations_sound {declaration : Reader (Option Stmt)}
    (hdeclaration : RecoveringSound declaration) (n : Nat) :
    Sound (declarations declaration n) .declarations := by
  induction n with
  | zero =>
      intro c body d h hd
      obtain ⟨rfl, rfl⟩ := pure_ok_iff.mp h
      exact ⟨hd, .noDeclarations⟩
  | succ n ih =>
      intro c body d h hd
      rw [declarations, bind_ok_iff] at h
      obtain ⟨b, m, hb, h⟩ := h
      obtain ⟨rfl, -⟩ := sees_ok hb
      replace h := bind_ok_iff.mp h
      obtain ⟨e, m', he, h⟩ := h
      rw [atEnd_eq] at he
      cases he
      split at h
      · obtain ⟨rfl, rfl⟩ := pure_ok_iff.mp h
        exact ⟨hd, .noDeclarations⟩
      · replace h := bind_ok_iff.mp h
        obtain ⟨first, m', hfirst, h⟩ := h
        replace h := bind_ok_iff.mp h
        obtain ⟨rest, m'', hrest, h⟩ := h
        obtain ⟨rfl, rfl⟩ := pure_ok_iff.mp h
        obtain ⟨hm', hders⟩ := ih hrest hd
        obtain ⟨hc, a, rfl, hder⟩ := hdeclaration hfirst hm'
        exact ⟨hc, .moreDeclarations hder hders⟩

/-! ### Expressions -/

variable {r : Rules}

theorem block_sound (hr : r.Sound) {opening : Token} (hopening : opening.kind = .leftBrace)
    {body : List Stmt} (h : block r c = .ok body d) (hd : d.errors = []) :
    c.errors = [] ∧ Derives (.block body) ⟨opening :: c.ahead, c.nextId⟩ d.input := by
  rw [block, bind_ok_iff] at h
  obtain ⟨body', m, hbody, h⟩ := h
  replace h := bind_ok_iff.mp h
  obtain ⟨closing, m', hclosing, h⟩ := h
  obtain ⟨rfl, rfl⟩ := pure_ok_iff.mp h
  obtain ⟨hkind, rfl⟩ := expect_ok hclosing
  obtain ⟨hc, hder⟩ := declarations_sound hr.declaration _ hbody hd
  exact ⟨hc, .block hopening hder hkind⟩

/-- Parameters that may be missing, where a parenthesis stands behind them. -/
theorem parameters_sound (n : Nat) {b : Bool} {params : List Token}
    (hb : b = true ↔ Begins .rightParen c.ahead)
    (h : (if b = true then pure [] else parameterNames n 0) c = .ok params d) (hd : d.errors = []) :
    c.errors = [] ∧ params.length ≤ maxArguments ∧ Derives (.parameters params) c.input d.input := by
  cases b with
  | true =>
      obtain ⟨rfl, rfl⟩ := pure_ok_iff.mp h
      exact ⟨hd, by simp, .noParameters⟩
  | false =>
      obtain ⟨hc, -, hlen, hder⟩ := parameterNames_sound n 0 h hd
      exact ⟨hc, by omega, hder⟩

theorem functionRest_sound (hr : r.Sound) {opening : Token} (hopening : opening.kind = .leftParen)
    {form : FunctionForm} {name : Option Token} {line : Nat} {decl : FunctionDecl}
    (h : functionRest r form name line c = .ok decl d) (hd : d.errors = []) :
    c.errors = [] ∧ ∃ params body, decl = .mk name line params body ∧
      Derives (.callable params body) ⟨opening :: c.ahead, c.nextId⟩ d.input := by
  rw [functionRest, bind_ok_iff] at h
  obtain ⟨b, m, hb, h⟩ := h
  obtain ⟨rfl, hsees⟩ := sees_ok hb
  replace h := ite_bind_ok_iff.mp h
  obtain ⟨params, m₁, hparams, h⟩ := h
  replace h := bind_ok_iff.mp h
  obtain ⟨closing, m₂, hclosing, h⟩ := h
  obtain ⟨hparen, rfl⟩ := expect_ok hclosing
  replace h := bind_ok_iff.mp h
  obtain ⟨brace, m₃, hbrace, h⟩ := h
  obtain ⟨hkind, rfl⟩ := expect_ok hbrace
  replace h := bind_ok_iff.mp h
  obtain ⟨body, m₄, hbody, h⟩ := h
  obtain ⟨rfl, rfl⟩ := pure_ok_iff.mp h
  obtain ⟨hm, hblock⟩ := block_sound hr hkind hbody hd
  obtain ⟨hc, hlen, hnames⟩ := parameters_sound _ hsees hparams hm
  exact ⟨hc, params, body, rfl, .callable hopening hnames hlen hparen hblock⟩

/-- Arguments that may be missing, where a parenthesis stands behind them. -/
theorem arguments_sound (hr : r.Sound) (n : Nat) {b : Bool} {arguments : List Expr}
    (hb : b = true ↔ Begins .rightParen c.ahead)
    (h : (if b = true then pure [] else argumentValues r.expression n 0) c = .ok arguments d)
    (hd : d.errors = []) :
    c.errors = [] ∧ arguments.length ≤ maxArguments ∧
      Derives (.arguments arguments) c.input d.input := by
  cases b with
  | true =>
      obtain ⟨rfl, rfl⟩ := pure_ok_iff.mp h
      exact ⟨hd, by simp, .noArguments⟩
  | false =>
      obtain ⟨hc, -, hlen, hder⟩ := argumentValues_sound hr.expression n 0 h hd
      exact ⟨hc, by omega, hder⟩

theorem callRest_sound (hr : r.Sound) {opening : Token} (hopening : opening.kind = .leftParen)
    {callee e : Expr} (h : callRest r callee c = .ok e d) (hd : d.errors = []) :
    c.errors = [] ∧ ∀ s, Derives (.expr .call callee) s ⟨opening :: c.ahead, c.nextId⟩ →
      Derives (.expr .call e) s d.input := by
  rw [callRest, bind_ok_iff] at h
  obtain ⟨b, m, hb, h⟩ := h
  obtain ⟨rfl, hsees⟩ := sees_ok hb
  replace h := ite_bind_ok_iff.mp h
  obtain ⟨arguments, m₁, harguments, h⟩ := h
  replace h := bind_ok_iff.mp h
  obtain ⟨closing, m₂, hclosing, h⟩ := h
  obtain ⟨hparen, rfl⟩ := expect_ok hclosing
  obtain ⟨rfl, rfl⟩ := pure_ok_iff.mp h
  obtain ⟨hc, hlen, hvalues⟩ := arguments_sound hr _ hsees harguments hd
  exact ⟨hc, fun s hs => .call hs hopening hvalues hlen hparen⟩

theorem suffixes_sound (hr : r.Sound) (n : Nat) {first e : Expr}
    (h : suffixes r n first c = .ok e d) (hd : d.errors = []) :
    c.errors = [] ∧
      ∀ s, Derives (.expr .call first) s c.input → Derives (.expr .call e) s d.input := by
  induction n generalizing first c with
  | zero =>
      obtain ⟨rfl, rfl⟩ := pure_ok_iff.mp h
      exact ⟨hd, fun _ hs => hs⟩
  | succ n ih =>
      rw [suffixes, bind_ok_iff] at h
      obtain ⟨b, m, hb, h⟩ := h
      rcases accept_ok hb with ⟨rfl, opening, hopening, rfl⟩ | ⟨rfl, rfl, -⟩
      · replace h := bind_ok_iff.mp h
        obtain ⟨next, m', hnext, h⟩ := h
        obtain ⟨hm', hrest⟩ := ih h
        obtain ⟨hm, hcall⟩ := callRest_sound hr hopening hnext hm'
        exact ⟨hm, fun s hs => hrest s (hcall s hs)⟩
      · replace h := bind_ok_iff.mp h
        obtain ⟨b, m, hb, h⟩ := h
        rcases accept_ok hb with ⟨rfl, dot, hdot, rfl⟩ | ⟨rfl, rfl, -⟩
        · replace h := bind_ok_iff.mp h
          obtain ⟨name, m', hname, h⟩ := h
          obtain ⟨hident, rfl⟩ := expect_ok hname
          obtain ⟨hm', hrest⟩ := ih h
          exact ⟨hm', fun s hs => hrest s (.property hs hdot hident)⟩
        · obtain ⟨rfl, rfl⟩ := pure_ok_iff.mp h
          exact ⟨hd, fun _ hs => hs⟩

theorem primary_sound (hr : r.Sound) : Sound (primary r) (.expr .primary) := by
  intro c e d h hd
  rw [primary, bind_ok_iff] at h
  obtain ⟨o, m, ho, h⟩ := h
  rw [next?_eq] at ho
  obtain ⟨ts, i, es⟩ := c
  cases ho
  cases ts with
  | nil => exact (refuse_ok_iff.mp h).elim
  | cons t ts =>
      change (match t.kind with | _ => _ : Reader Expr) _ = _ at h
      generalize hkind : t.kind = kind at h
      cases kind
      case kwFalse =>
        obtain ⟨rfl, rfl⟩ := pure_ok_iff.mp h
        exact ⟨hd, .falseLiteral hkind⟩
      case kwTrue =>
        obtain ⟨rfl, rfl⟩ := pure_ok_iff.mp h
        exact ⟨hd, .trueLiteral hkind⟩
      case kwNil =>
        obtain ⟨rfl, rfl⟩ := pure_ok_iff.mp h
        exact ⟨hd, .nilLiteral hkind⟩
      case number =>
        obtain ⟨rfl, rfl⟩ := pure_ok_iff.mp h
        exact ⟨hd, .numberLiteral hkind⟩
      case string =>
        obtain ⟨rfl, rfl⟩ := pure_ok_iff.mp h
        exact ⟨hd, .textLiteral hkind⟩
      case kwThis =>
        obtain ⟨rfl, rfl⟩ := pure_ok_iff.mp h
        exact ⟨hd, .this hkind⟩
      case identifier =>
        obtain ⟨rfl, rfl⟩ := pure_ok_iff.mp h
        exact ⟨hd, .ident hkind⟩
      case kwSuper =>
        replace h := bind_ok_iff.mp h
        obtain ⟨u, m, hu, h⟩ := h
        cases skip_ok_iff.mp hu
        replace h := bind_ok_iff.mp h
        obtain ⟨dot, m, hdot, h⟩ := h
        replace h := bind_ok_iff.mp h
        obtain ⟨method, m', hmethod, h⟩ := h
        rw [bind_of_ok (reference_eq t)] at h
        obtain ⟨rfl, rfl⟩ := pure_ok_iff.mp h
        obtain ⟨hdotKind, hm⟩ := expect_ok hdot
        obtain ⟨hident, hm'⟩ := expect_ok hmethod
        cases hm'
        cases hm
        exact ⟨hd, .super hkind hdotKind hident⟩
      case kwFun =>
        replace h := bind_ok_iff.mp h
        obtain ⟨u, m, hu, h⟩ := h
        cases skip_ok_iff.mp hu
        replace h := bind_ok_iff.mp h
        obtain ⟨opening, m, hopening, h⟩ := h
        replace h := bind_ok_iff.mp h
        obtain ⟨decl, m', hdecl, h⟩ := h
        obtain ⟨rfl, rfl⟩ := pure_ok_iff.mp h
        obtain ⟨hparen, hm⟩ := expect_ok hopening
        cases hm
        obtain ⟨hc, params, body, rfl, hder⟩ := functionRest_sound hr hparen hdecl hd
        exact ⟨hc, .anonymous hkind hder⟩
      case leftParen =>
        replace h := bind_ok_iff.mp h
        obtain ⟨u, m, hu, h⟩ := h
        cases skip_ok_iff.mp hu
        replace h := bind_ok_iff.mp h
        obtain ⟨inner, m, hinner, h⟩ := h
        replace h := bind_ok_iff.mp h
        obtain ⟨closing, m', hclosing, h⟩ := h
        obtain ⟨rfl, rfl⟩ := pure_ok_iff.mp h
        obtain ⟨hparen, rfl⟩ := expect_ok hclosing
        obtain ⟨hc, hder⟩ := hr.expression hinner hd
        exact ⟨hc, .group hkind hder hparen⟩
      all_goals exact (refuse_ok_iff.mp h).elim

theorem call_sound (hr : r.Sound) : Sound (call r) (.expr .call) := by
  intro c e d h hd
  rw [call, bind_ok_iff] at h
  obtain ⟨first, m, hfirst, h⟩ := h
  obtain ⟨hm, hrest⟩ := suffixes_sound hr _ h hd
  obtain ⟨hc, hder⟩ := primary_sound hr hfirst hm
  exact ⟨hc, hrest _ (.tighter (by decide) hder)⟩

theorem unary_sound (hr : r.Sound) : Sound (unary r) (.expr .unary) := by
  intro c e d h hd
  rw [unary, bind_ok_iff] at h
  obtain ⟨o, m, ho, h⟩ := h
  rcases takeIf_ok ho with ⟨operator, rfl, hk, rfl⟩ | ⟨rfl, rfl, -⟩
  · replace h := bind_ok_iff.mp h
    obtain ⟨right, m', hright, h⟩ := h
    obtain ⟨rfl, rfl⟩ := pure_ok_iff.mp h
    obtain ⟨hc, hder⟩ := hr.unary hright hd
    exact ⟨hc, .unary (by simpa using hk) hder⟩
  · obtain ⟨hc, hder⟩ := call_sound hr h hd
    exact ⟨hc, .tighter (by decide) hder⟩

theorem disjunction_sound (hr : r.Sound) : Sound (disjunction r) (.expr .disjunction) := by
  have hfactor : Sound (factor r) (.expr .factor) :=
    level_sound .factor (by decide) (by simp [Tier.operators]) (unary_sound hr)
  have hterm : Sound (term r) (.expr .term) :=
    level_sound .term (by decide) (by simp [Tier.operators]) hfactor
  have hcomparison : Sound (comparison r) (.expr .comparison) :=
    level_sound .comparison (by decide) (by simp [Tier.operators, or_assoc]) hterm
  have hequality : Sound (equality r) (.expr .equality) :=
    level_sound .equality (by decide) (by simp [Tier.operators]) hcomparison
  have hconjunction : Sound (conjunction r) (.expr .conjunction) :=
    level_sound .conjunction (by decide) (by simp [Tier.operators]) hequality
  exact level_sound .disjunction (by decide) (by simp [Tier.operators]) hconjunction

/-- A name is read as one token. -/
theorem derives_ident {tier : Tier} {ref : Reference} {s t : Input}
    (h : Derives (.expr tier (.ident ref)) s t) :
    ref.name.kind = .identifier ∧ s = ⟨ref.name :: t.tokens, ref.id⟩ ∧ t.nextId = ref.id + 1 := by
  generalize hφ : Phrase.expr tier (.ident ref) = φ at h
  induction h generalizing tier with
  | tighter _ _ ih =>
      cases hφ
      exact ih rfl
  | ident ht =>
      cases hφ
      exact ⟨ht, rfl, rfl⟩
  | @joined _ _ _ _ t =>
      injection hφ with _ he
      cases t <;> cases he
  | _ => cases hφ

/-- A property is read as an object, a dot and a name. -/
theorem derives_get {tier : Tier} {object : Expr} {name : Token} {s t : Input}
    (h : Derives (.expr tier (.get object name)) s t) :
    name.kind = .identifier ∧ ∃ dot : Token, dot.kind = .dot ∧
      Derives (.expr .call object) s ⟨dot :: name :: t.tokens, t.nextId⟩ := by
  generalize hφ : Phrase.expr tier (.get object name) = φ at h
  induction h generalizing tier with
  | tighter _ _ ih =>
      cases hφ
      exact ih rfl
  | property hobject hdot hname =>
      cases hφ
      exact ⟨hname, _, hdot, hobject⟩
  | @joined _ _ _ _ t =>
      injection hφ with _ he
      cases t <;> cases he
  | _ => cases hφ

theorem assignment_sound (hr : r.Sound) : Sound (assignment r) (.expr .assignment) := by
  intro c e d h hd
  rw [assignment, bind_ok_iff] at h
  obtain ⟨target, m, htarget, h⟩ := h
  replace h := bind_ok_iff.mp h
  obtain ⟨o, m', ho, h⟩ := h
  rcases takeIf_ok ho with ⟨equals, rfl, hk, rfl⟩ | ⟨rfl, rfl, -⟩
  · replace h := bind_ok_iff.mp h
    obtain ⟨value, m'', hvalue, h⟩ := h
    have hequals : equals.kind = .equal := by simpa using hk
    cases target
    case ident ref =>
      dsimp only at h
      rw [bind_of_ok (reference_eq ref.name)] at h
      obtain ⟨rfl, rfl⟩ := pure_ok_iff.mp h
      obtain ⟨hm', hder⟩ := hr.expression hvalue hd
      obtain ⟨hc, hleft⟩ := disjunction_sound hr htarget hm'
      obtain ⟨hkind, hinput, hid⟩ := derives_ident hleft
      refine ⟨hc, ?_⟩
      rw [hinput]
      simp only [Cursor.input_mk] at hid
      rw [Cursor.input, hid] at hder
      exact .assignName hkind hequals hder
    case get object name =>
      obtain ⟨rfl, rfl⟩ := pure_ok_iff.mp h
      obtain ⟨hm', hder⟩ := hr.expression hvalue hd
      obtain ⟨hc, hleft⟩ := disjunction_sound hr htarget hm'
      obtain ⟨hkind, dot, hdot, hobject⟩ := derives_get hleft
      exact ⟨hc, .assignProperty hobject hdot hkind hequals hder⟩
    all_goals
      dsimp only at h
      rw [bind_of_ok (record_eq _)] at h
      obtain ⟨rfl, rfl⟩ := pure_ok_iff.mp h
      simp at hd
  · obtain ⟨rfl, rfl⟩ := pure_ok_iff.mp h
    obtain ⟨hc, hder⟩ := disjunction_sound hr htarget hd
    exact ⟨hc, .tighter (by decide) hder⟩

/-- An expression that may be missing, where a token of a given kind stands behind it. -/
theorem optional_sound (hr : r.Sound) {kind : Kind} {b : Bool} {e : Option Expr}
    (hb : b = true ↔ Begins kind c.ahead)
    (h : (if b = true then pure none else some <$> assignment r : Reader (Option Expr)) c = .ok e d)
    (hd : d.errors = []) : c.errors = [] ∧ Derives (.option e) c.input d.input := by
  cases b with
  | true =>
      obtain ⟨rfl, rfl⟩ := pure_ok_iff.mp h
      exact ⟨hd, .missing⟩
  | false =>
      obtain ⟨e, he, rfl⟩ := map_ok_iff.mp h
      obtain ⟨hc, hder⟩ := assignment_sound hr he hd
      exact ⟨hc, .present hder⟩

/-! ### Statements -/

theorem expressionStatement_sound (hr : r.Sound) : Sound (expressionStatement r) .exprStmt := by
  intro c s d h hd
  rw [expressionStatement, bind_ok_iff] at h
  obtain ⟨value, m, hvalue, h⟩ := h
  replace h := bind_ok_iff.mp h
  obtain ⟨semicolon, m', hsemicolon, h⟩ := h
  obtain ⟨rfl, rfl⟩ := pure_ok_iff.mp h
  obtain ⟨hkind, rfl⟩ := expect_ok hsemicolon
  obtain ⟨hc, hder⟩ := assignment_sound hr hvalue hd
  exact ⟨hc, .exprStmt hder hkind⟩

theorem variableRest_sound (hr : r.Sound) {keyword : Token} (hkeyword : keyword.kind = .kwVar)
    {s : Stmt} (h : variableRest r c = .ok s d) (hd : d.errors = []) :
    c.errors = [] ∧ Derives (.variable s) ⟨keyword :: c.ahead, c.nextId⟩ d.input := by
  rw [variableRest, bind_ok_iff] at h
  obtain ⟨name, m, hname, h⟩ := h
  obtain ⟨hident, rfl⟩ := expect_ok hname
  replace h := bind_ok_iff.mp h
  obtain ⟨b, m₁, hb, h⟩ := h
  replace h := ite_bind_ok_iff.mp h
  obtain ⟨initializer, m₂, hinitializer, h⟩ := h
  replace h := bind_ok_iff.mp h
  obtain ⟨semicolon, m₃, hsemicolon, h⟩ := h
  obtain ⟨hkind, rfl⟩ := expect_ok hsemicolon
  obtain ⟨rfl, rfl⟩ := pure_ok_iff.mp h
  rcases accept_ok hb with ⟨rfl, equals, hequals, rfl⟩ | ⟨rfl, rfl, -⟩
  · obtain ⟨value, hvalue, rfl⟩ := map_ok_iff.mp hinitializer
    obtain ⟨hc, hder⟩ := assignment_sound hr hvalue hd
    exact ⟨hc, .setVariable hkeyword hident hequals hder hkind⟩
  · obtain ⟨rfl, rfl⟩ := pure_ok_iff.mp hinitializer
    exact ⟨hd, .bareVariable hkeyword hident hkind⟩

theorem forInitializer_sound (hr : r.Sound) : Sound (forInitializer r) .forInit := by
  intro c o d h hd
  rw [forInitializer, bind_ok_iff] at h
  obtain ⟨b, m, hb, h⟩ := h
  rcases accept_ok hb with ⟨rfl, semicolon, hsemicolon, rfl⟩ | ⟨rfl, rfl, -⟩
  · obtain ⟨rfl, rfl⟩ := pure_ok_iff.mp h
    exact ⟨hd, .noInit hsemicolon⟩
  · replace h := bind_ok_iff.mp h
    obtain ⟨b, m', hb, h⟩ := h
    rcases accept_ok hb with ⟨rfl, keyword, hkeyword, rfl⟩ | ⟨rfl, rfl, -⟩
    · obtain ⟨s, hs, rfl⟩ := map_ok_iff.mp h
      obtain ⟨hc, hder⟩ := variableRest_sound hr hkeyword hs hd
      exact ⟨hc, .variableInit hder⟩
    · obtain ⟨s, hs, rfl⟩ := map_ok_iff.mp h
      obtain ⟨hc, hder⟩ := expressionStatement_sound hr hs hd
      exact ⟨hc, .exprInit hder⟩

/-- What an outcome says about a statement whose keyword has been read before. -/
def StatementRest (keyword : Token) (c : Cursor) (s : Stmt) (d : Cursor) : Prop :=
  c.errors = [] ∧ ∃ isOpen, Derives (.statement isOpen s) ⟨keyword :: c.ahead, c.nextId⟩ d.input ∧
    (isOpen = true → ¬Begins .kwElse d.ahead)

theorem forRest_sound (hr : r.Sound) {keyword : Token} (hkeyword : keyword.kind = .kwFor)
    {s : Stmt} (h : forRest r c = .ok s d) (hd : d.errors = []) : StatementRest keyword c s d := by
  rw [forRest, bind_ok_iff] at h
  obtain ⟨opening, m, hopening, h⟩ := h
  obtain ⟨hparen, rfl⟩ := expect_ok hopening
  replace h := bind_ok_iff.mp h
  obtain ⟨init, m₁, hinit, h⟩ := h
  replace h := bind_ok_iff.mp h
  obtain ⟨b, m₂, hb, h⟩ := h
  obtain ⟨rfl, hsees⟩ := sees_ok hb
  replace h := ite_bind_ok_iff.mp h
  obtain ⟨test, m₃, htest, h⟩ := h
  replace h := bind_ok_iff.mp h
  obtain ⟨semicolon, m₄, hsemicolon, h⟩ := h
  obtain ⟨hsemi, rfl⟩ := expect_ok hsemicolon
  replace h := bind_ok_iff.mp h
  obtain ⟨b', m₅, hb', h⟩ := h
  obtain ⟨rfl, hsees'⟩ := sees_ok hb'
  replace h := ite_bind_ok_iff.mp h
  obtain ⟨increment, m₆, hincrement, h⟩ := h
  replace h := bind_ok_iff.mp h
  obtain ⟨closing, m₇, hclosing, h⟩ := h
  obtain ⟨hkind, rfl⟩ := expect_ok hclosing
  replace h := bind_ok_iff.mp h
  obtain ⟨body, m₈, hbody, h⟩ := h
  obtain ⟨rfl, rfl⟩ := pure_ok_iff.mp h
  -- A missing test is read as no token, and stands for the constant test.
  have hcondition : ∃ condition : Option Expr, test = condition.getD (.literal (.bool true)) ∧
      (if b = true then pure none else some <$> assignment r : Reader (Option Expr)) m₂ =
        .ok condition ⟨semicolon :: m₅.ahead, m₅.nextId, m₅.errors⟩ := by
    cases b with
    | true =>
        obtain ⟨rfl, rfl⟩ := pure_ok_iff.mp htest
        exact ⟨none, rfl, rfl⟩
    | false => exact ⟨some test, rfl, map_ok_iff.mpr ⟨test, htest, rfl⟩⟩
  obtain ⟨condition, rfl, hcondition⟩ := hcondition
  obtain ⟨hm₇, isOpen, hder, helse⟩ := hr.statement hbody hd
  obtain ⟨hm₅, hincr⟩ := optional_sound hr hsees' hincrement hm₇
  obtain ⟨hm₂, hcond⟩ := optional_sound hr hsees hcondition hm₅
  obtain ⟨hc, hfirst⟩ := forInitializer_sound hr hinit hm₂
  exact ⟨hc, isOpen, .forLoop hkeyword hparen hfirst hcond hsemi hincr hkind hder
    (forTree_iff.mpr rfl), helse⟩

theorem ifRest_sound (hr : r.Sound) {keyword : Token} (hkeyword : keyword.kind = .kwIf)
    {s : Stmt} (h : ifRest r c = .ok s d) (hd : d.errors = []) : StatementRest keyword c s d := by
  rw [ifRest, bind_ok_iff] at h
  obtain ⟨opening, m, hopening, h⟩ := h
  obtain ⟨hparen, rfl⟩ := expect_ok hopening
  replace h := bind_ok_iff.mp h
  obtain ⟨condition, m₁, hcondition, h⟩ := h
  replace h := bind_ok_iff.mp h
  obtain ⟨closing, m₂, hclosing, h⟩ := h
  obtain ⟨hkind, rfl⟩ := expect_ok hclosing
  replace h := bind_ok_iff.mp h
  obtain ⟨thenBranch, m₃, hthen, h⟩ := h
  replace h := bind_ok_iff.mp h
  obtain ⟨b, m₄, hb, h⟩ := h
  replace h := ite_bind_ok_iff.mp h
  obtain ⟨elseBranch, m₅, helse, h⟩ := h
  obtain ⟨rfl, rfl⟩ := pure_ok_iff.mp h
  rcases accept_ok hb with ⟨rfl, otherwise, hotherwise, rfl⟩ | ⟨rfl, rfl, hnot⟩
  · obtain ⟨s, hs, rfl⟩ := map_ok_iff.mp helse
    obtain ⟨hm₄, isOpen, hder, hend⟩ := hr.statement hs hd
    obtain ⟨hm₂, thenOpen, hthenDer, hclosed⟩ := hr.statement hthen hm₄
    -- The `else` that was found shows that the first branch is not open.
    have hthenOpen : thenOpen = false := by
      cases thenOpen with
      | false => rfl
      | true => exact absurd (begins_cons.mpr hotherwise) (hclosed rfl)
    subst hthenOpen
    obtain ⟨hc, hcond⟩ := assignment_sound hr hcondition hm₂
    exact ⟨hc, isOpen, .ifElse hkeyword hparen hcond hkind hthenDer hotherwise hder, hend⟩
  · obtain ⟨rfl, rfl⟩ := pure_ok_iff.mp helse
    obtain ⟨hm₂, thenOpen, hthenDer, -⟩ := hr.statement hthen hd
    obtain ⟨hc, hcond⟩ := assignment_sound hr hcondition hm₂
    exact ⟨hc, true, .ifThen hkeyword hparen hcond hkind hthenDer, fun _ => hnot⟩

theorem printRest_sound (hr : r.Sound) {keyword : Token} (hkeyword : keyword.kind = .kwPrint)
    {s : Stmt} (h : printRest r c = .ok s d) (hd : d.errors = []) : StatementRest keyword c s d := by
  rw [printRest, bind_ok_iff] at h
  obtain ⟨value, m, hvalue, h⟩ := h
  replace h := bind_ok_iff.mp h
  obtain ⟨semicolon, m', hsemicolon, h⟩ := h
  obtain ⟨rfl, rfl⟩ := pure_ok_iff.mp h
  obtain ⟨hkind, rfl⟩ := expect_ok hsemicolon
  obtain ⟨hc, hder⟩ := assignment_sound hr hvalue hd
  exact ⟨hc, false, .print hkeyword hder hkind, nofun⟩

theorem returnRest_sound (hr : r.Sound) {keyword : Token} (hkeyword : keyword.kind = .kwReturn)
    {s : Stmt} (h : returnRest r keyword c = .ok s d) (hd : d.errors = []) :
    StatementRest keyword c s d := by
  rw [returnRest, bind_ok_iff] at h
  obtain ⟨b, m, hb, h⟩ := h
  obtain ⟨rfl, hsees⟩ := sees_ok hb
  replace h := ite_bind_ok_iff.mp h
  obtain ⟨value, m₁, hvalue, h⟩ := h
  replace h := bind_ok_iff.mp h
  obtain ⟨semicolon, m₂, hsemicolon, h⟩ := h
  obtain ⟨rfl, rfl⟩ := pure_ok_iff.mp h
  obtain ⟨hkind, rfl⟩ := expect_ok hsemicolon
  obtain ⟨hc, hder⟩ := optional_sound hr hsees hvalue hd
  exact ⟨hc, false, .ret hkeyword hder hkind, nofun⟩

theorem whileRest_sound (hr : r.Sound) {keyword : Token} (hkeyword : keyword.kind = .kwWhile)
    {s : Stmt} (h : whileRest r c = .ok s d) (hd : d.errors = []) : StatementRest keyword c s d := by
  rw [whileRest, bind_ok_iff] at h
  obtain ⟨opening, m, hopening, h⟩ := h
  obtain ⟨hparen, rfl⟩ := expect_ok hopening
  replace h := bind_ok_iff.mp h
  obtain ⟨condition, m₁, hcondition, h⟩ := h
  replace h := bind_ok_iff.mp h
  obtain ⟨closing, m₂, hclosing, h⟩ := h
  obtain ⟨hkind, rfl⟩ := expect_ok hclosing
  replace h := bind_ok_iff.mp h
  obtain ⟨body, m₃, hbody, h⟩ := h
  obtain ⟨rfl, rfl⟩ := pure_ok_iff.mp h
  obtain ⟨hm, isOpen, hder, helse⟩ := hr.statement hbody hd
  obtain ⟨hc, hcond⟩ := assignment_sound hr hcondition hm
  exact ⟨hc, isOpen, .loop hkeyword hparen hcond hkind hder, helse⟩

theorem simple_sound (hr : r.Sound) : StatementSound (expressionStatement r) := by
  intro c s d h hd
  obtain ⟨hc, hder⟩ := expressionStatement_sound hr h hd
  exact ⟨hc, false, .simple hder, nofun⟩

theorem statement_sound (hr : r.Sound) : StatementSound (statement r) := by
  intro c s d h hd
  rw [statement, bind_ok_iff] at h
  obtain ⟨o, m, ho, h⟩ := h
  rw [next?_eq] at ho
  obtain ⟨ts, i, es⟩ := c
  cases ho
  cases ts with
  | nil => exact simple_sound hr h hd
  | cons t ts =>
      change (match t.kind with | _ => _ : Reader Stmt) _ = _ at h
      generalize hkind : t.kind = kind at h
      cases kind
      case kwFor => exact forRest_sound (c := ⟨ts, i, es⟩) hr hkind h hd
      case kwIf => exact ifRest_sound (c := ⟨ts, i, es⟩) hr hkind h hd
      case kwPrint => exact printRest_sound (c := ⟨ts, i, es⟩) hr hkind h hd
      case kwReturn => exact returnRest_sound (c := ⟨ts, i, es⟩) hr hkind h hd
      case kwWhile => exact whileRest_sound (c := ⟨ts, i, es⟩) hr hkind h hd
      case leftBrace =>
        replace h := bind_ok_iff.mp h
        obtain ⟨u, m, hu, h⟩ := h
        cases skip_ok_iff.mp hu
        obtain ⟨body, hbody, rfl⟩ := map_ok_iff.mp h
        obtain ⟨hc, hder⟩ := block_sound hr hkind hbody hd
        exact ⟨hc, false, .compound hder, nofun⟩
      all_goals exact simple_sound hr h hd

/-! ### Declarations -/

theorem namedFunction_sound (hr : r.Sound) (form : FunctionForm) :
    Sound (namedFunction r form) .function := by
  intro c decl d h hd
  rw [namedFunction, bind_ok_iff] at h
  obtain ⟨name, m, hname, h⟩ := h
  obtain ⟨hident, rfl⟩ := expect_ok hname
  replace h := bind_ok_iff.mp h
  obtain ⟨opening, m₁, hopening, h⟩ := h
  obtain ⟨hparen, rfl⟩ := expect_ok hopening
  obtain ⟨hc, params, body, rfl, hder⟩ := functionRest_sound hr hparen h hd
  exact ⟨hc, .function hident hder⟩

theorem methods_sound (hr : r.Sound) (n : Nat) : Sound (methods r n) .functions := by
  induction n with
  | zero =>
      intro c ds d h hd
      obtain ⟨rfl, rfl⟩ := pure_ok_iff.mp h
      exact ⟨hd, .noFunctions⟩
  | succ n ih =>
      intro c ds d h hd
      rw [methods, bind_ok_iff] at h
      obtain ⟨b, m, hb, h⟩ := h
      obtain ⟨rfl, -⟩ := sees_ok hb
      replace h := bind_ok_iff.mp h
      obtain ⟨e, m', he, h⟩ := h
      rw [atEnd_eq] at he
      cases he
      split at h
      · obtain ⟨rfl, rfl⟩ := pure_ok_iff.mp h
        exact ⟨hd, .noFunctions⟩
      · replace h := bind_ok_iff.mp h
        obtain ⟨first, m₁, hfirst, h⟩ := h
        replace h := bind_ok_iff.mp h
        obtain ⟨rest, m₂, hrest, h⟩ := h
        obtain ⟨rfl, rfl⟩ := pure_ok_iff.mp h
        obtain ⟨hm₁, hders⟩ := ih hrest hd
        obtain ⟨hc, hder⟩ := namedFunction_sound hr .method hfirst hm₁
        exact ⟨hc, .moreFunctions hder hders⟩

theorem classRest_sound (hr : r.Sound) {keyword : Token} (hkeyword : keyword.kind = .kwClass)
    {s : Stmt} (h : classRest r c = .ok s d) (hd : d.errors = []) :
    c.errors = [] ∧ Derives (.declaration s) ⟨keyword :: c.ahead, c.nextId⟩ d.input := by
  rw [classRest, bind_ok_iff] at h
  obtain ⟨name, m, hname, h⟩ := h
  obtain ⟨hident, rfl⟩ := expect_ok hname
  replace h := bind_ok_iff.mp h
  obtain ⟨superclass, m₁, hsuperclass, h⟩ := h
  replace h := bind_ok_iff.mp h
  obtain ⟨opening, m₂, hopening, h⟩ := h
  obtain ⟨hbrace, rfl⟩ := expect_ok hopening
  replace h := bind_ok_iff.mp h
  obtain ⟨members, m₃, hmembers, h⟩ := h
  replace h := bind_ok_iff.mp h
  obtain ⟨closing, m₄, hclosing, h⟩ := h
  obtain ⟨hkind, rfl⟩ := expect_ok hclosing
  obtain ⟨rfl, rfl⟩ := pure_ok_iff.mp h
  obtain ⟨hm₂, hder⟩ := methods_sound hr _ hmembers hd
  rw [superclass?, bind_ok_iff] at hsuperclass
  obtain ⟨b, m₅, hb, hsuper⟩ := hsuperclass
  rcases accept_ok hb with ⟨rfl, less, hless, rfl⟩ | ⟨rfl, rfl, -⟩
  · replace hsuper := bind_ok_iff.mp hsuper
    obtain ⟨parent, m₆, hparent, hsuper⟩ := hsuper
    obtain ⟨hident', rfl⟩ := expect_ok hparent
    rw [bind_of_ok (reference_eq parent)] at hsuper
    obtain ⟨rfl, heq⟩ := pure_ok_iff.mp hsuper
    injection heq with hahead hid herrors
    refine ⟨herrors.trans hm₂, ?_⟩
    rw [hahead]
    exact .derivedClass hkeyword hident hless hident' hbrace (hid ▸ hder) hkind
  · obtain ⟨rfl, rfl⟩ := pure_ok_iff.mp hsuper
    exact ⟨hm₂, .baseClass hkeyword hident hbrace hder hkind⟩

/-- A named function stands next where its keyword and its name are the next two tokens. -/
theorem seesNamedFunction_ok {b : Bool} (h : seesNamedFunction c = .ok b d) :
    d = c ∧ (b = true → ∃ keyword ts, c.ahead = keyword :: ts ∧ keyword.kind = .kwFun) := by
  obtain ⟨ts, i, es⟩ := c
  rcases ts with _ | ⟨first, _ | ⟨second, ts⟩⟩
  · cases h
    exact ⟨rfl, by simp⟩
  · cases h
    exact ⟨rfl, by simp⟩
  · change EStateM.Result.ok (first.kind == .kwFun && second.kind == .identifier) _ = _ at h
    cases h
    refine ⟨rfl, fun hb => ⟨first, second :: ts, rfl, ?_⟩⟩
    simp only [Bool.and_eq_true, beq_iff_eq] at hb
    exact hb.1

theorem declared_sound (hr : r.Sound) {s : Stmt} (h : declared r c = .ok s d) (hd : d.errors = []) :
    c.errors = [] ∧ Derives (.declaration s) c.input d.input := by
  rw [declared, bind_ok_iff] at h
  obtain ⟨isClass, m, hclass, h⟩ := h
  rcases accept_ok hclass with ⟨rfl, keyword, hkeyword, rfl⟩ | ⟨rfl, rfl, -⟩
  · exact classRest_sound hr hkeyword h hd
  · replace h := bind_ok_iff.mp h
    obtain ⟨isFunction, m, hfunction, h⟩ := h
    obtain ⟨rfl, hsees⟩ := seesNamedFunction_ok hfunction
    cases isFunction with
    | true =>
        obtain ⟨keyword, ts, hahead, hkeyword⟩ := hsees rfl
        obtain ⟨ahead, i, es⟩ := m
        cases hahead
        replace h := bind_ok_iff.mp h
        obtain ⟨u, m₁, hu, h⟩ := h
        cases skip_ok_iff.mp hu
        obtain ⟨decl, hdecl, rfl⟩ := map_ok_iff.mp h
        obtain ⟨hc, hder⟩ := namedFunction_sound hr _ hdecl hd
        exact ⟨hc, .functionDecl hkeyword hder⟩
    | false =>
        replace h := bind_ok_iff.mp h
        obtain ⟨isVariable, m₁, hvariable, h⟩ := h
        rcases accept_ok hvariable with ⟨rfl, keyword, hkeyword, rfl⟩ | ⟨rfl, rfl, -⟩
        · obtain ⟨hc, hder⟩ := variableRest_sound hr hkeyword h hd
          exact ⟨hc, .variableDecl hder⟩
        · obtain ⟨hc, isOpen, hder, -⟩ := statement_sound hr h hd
          exact ⟨hc, .statementDecl hder⟩

theorem declaration_sound (hr : r.Sound) : RecoveringSound (declaration r) := by
  intro c o d h hd
  cases hdecl : declared r c with
  | ok s m =>
      rw [declaration, recovering_of_ok hdecl] at h
      injection h with ho hm
      subst ho hm
      obtain ⟨hc, hder⟩ := declared_sound hr hdecl hd
      exact ⟨hc, s, rfl, hder⟩
  | error e m =>
      rw [declaration, recovering_of_error hdecl] at h
      injection h with ho hm
      subst ho hm
      simp at hd

/-! ### Programs -/

theorem rules_sound (n : Nat) : (rules n).Sound := by
  induction n with
  | zero =>
      constructor
      · intro c e d h
        exact (refuse_ok_iff.mp h).elim
      · intro c e d h
        exact (refuse_ok_iff.mp h).elim
      · intro c s d h
        exact (refuse_ok_iff.mp h).elim
      · intro c o d h
        exact (refuse_ok_iff.mp h).elim
  | succ n ih =>
      exact ⟨assignment_sound ih, unary_sound ih, statement_sound ih, declaration_sound ih⟩

theorem program_sound {declaration : Reader (Option Stmt)}
    (hdeclaration : RecoveringSound declaration) (n : Nat) {ss : List Stmt}
    (h : program declaration n c = .ok ss d) (hd : d.errors = []) :
    c.errors = [] ∧ d.ahead = [] ∧ Derives (.declarations ss) c.input d.input := by
  induction n generalizing ss c with
  | zero =>
      rw [program, bind_of_ok atEnd_eq] at h
      split at h
      case isTrue hempty =>
        obtain ⟨rfl, rfl⟩ := pure_ok_iff.mp h
        exact ⟨hd, List.isEmpty_iff.mp hempty, .noDeclarations⟩
      · exact (refuse_ok_iff.mp h).elim
  | succ n ih =>
      rw [program, bind_of_ok atEnd_eq] at h
      split at h
      case isTrue hempty =>
        obtain ⟨rfl, rfl⟩ := pure_ok_iff.mp h
        exact ⟨hd, List.isEmpty_iff.mp hempty, .noDeclarations⟩
      · replace h := bind_ok_iff.mp h
        obtain ⟨first, m, hfirst, h⟩ := h
        replace h := bind_ok_iff.mp h
        obtain ⟨rest, m', hrest, h⟩ := h
        obtain ⟨rfl, rfl⟩ := pure_ok_iff.mp h
        obtain ⟨hm, hend, hders⟩ := ih hrest
        obtain ⟨hc, a, rfl, hder⟩ := hdeclaration hfirst hm
        exact ⟨hc, hend, .moreDeclarations hder hders⟩

theorem wholeExpression_sound {expression : Reader Expr}
    (hexpression : Sound expression (.expr .assignment)) {e : Expr}
    (h : wholeExpression expression c = .ok e d) (hd : d.errors = []) :
    c.errors = [] ∧ d.ahead = [] ∧ Derives (.expr .assignment e) c.input d.input := by
  rw [wholeExpression, bind_ok_iff] at h
  obtain ⟨e', m, he, h⟩ := h
  rw [bind_of_ok atEnd_eq] at h
  split at h
  case isTrue hempty =>
    obtain ⟨rfl, rfl⟩ := pure_ok_iff.mp h
    obtain ⟨hc, hder⟩ := hexpression he hd
    exact ⟨hc, List.isEmpty_iff.mp hempty, hder⟩
  · exact (refuse_ok_iff.mp h).elim

end LoxLang.Grammar
