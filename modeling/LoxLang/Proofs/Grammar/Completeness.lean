import LoxLang.Proofs.Grammar.Lookahead

/-!
What is in the grammar is read. For each rule of the grammar, the reader for its phrase gives the tree
that the rule builds, if the readers for the parts of the phrase give theirs. The induction is on the
derivation, and the number of tokens in front bounds how often the rules come back to themselves.

The operands of one level are derived from the right end, but read from the left. So the claim about an
expression is that its reader comes to the point where it could take another operator of the level,
with the tree of the expression so far; whether it goes on from there depends on the next token only.
-/

namespace LoxLang.Grammar

variable {s t : Input} {ts us : List Token} {i j : Identity} {r : Rules} {c : Cursor}

/-- A cursor in front of an input. -/
def Input.cursor (s : Input) (errors : List SyntaxError) : Cursor :=
  ⟨s.tokens, s.nextId, errors⟩

namespace Tier

/-- The reader for a rule. -/
def reader (r : Rules) : Tier → Reader Expr
  | assignment => Grammar.assignment r
  | disjunction => Grammar.disjunction r
  | conjunction => Grammar.conjunction r
  | equality => Grammar.equality r
  | comparison => Grammar.comparison r
  | term => Grammar.term r
  | factor => Grammar.factor r
  | unary => Grammar.unary r
  | call => Grammar.call r
  | primary => Grammar.primary r

/-- What the reader for a rule does behind an expression that may go on. -/
def continued (r : Rules) (tier : Tier) : Nat → Expr → Reader Expr :=
  match tier with
  | assignment | unary | primary => fun _ => pure
  | call => suffixes r
  | tier => extend (fun kind => decide (kind ∈ tier.operators)) tier.join (reader r tier.next)

/-- Whether a rule is one for operands joined by operators. -/
def isLevel : Tier → Bool
  | assignment | unary | call | primary => false
  | _ => true

theorem continued_of_isLevel {tier : Tier} (h : tier.isLevel = true) :
    tier.continued r =
      extend (fun kind => decide (kind ∈ tier.operators)) tier.join (tier.next.reader r) := by
  cases tier <;> first | rfl | cases h

private theorem level_eq {test test' : Kind → Bool} {build : Expr → Token → Expr → Expr}
    {operand : Reader Expr} {bound : Nat} (h : ∀ kind, test kind = test' kind) :
    level bound test build operand = operand >>= extend test' build operand bound := by
  obtain rfl : test = test' := funext h
  rfl

theorem reader_of_isLevel {tier : Tier} (h : tier.isLevel = true) :
    tier.reader r = tier.next.reader r >>= tier.continued r r.bound := by
  rw [continued_of_isLevel h]
  cases tier with
  | assignment | unary | call | primary => cases h
  | _ => exact level_eq (fun kind => by cases kind <;> rfl)

/-- A rule ends at a token that does not continue it. -/
theorem continued_of_weak (tier : Tier) {level : Nat} (hlevel : level < tier.rank)
    (h : Weak level c.ahead) (n : Nat) (e : Expr) : tier.continued r n e c = .ok e c := by
  by_cases htier : tier.isLevel = true
  · rw [continued_of_isLevel htier]
    have hnone : takeIf (fun kind => decide (kind ∈ tier.operators)) c = .ok none c := by
      refine takeIf_of_none fun t ht => decide_eq_false fun hmem => ?_
      have hle := h t ht
      rw [Tier.strength_of_mem hmem] at hle
      omega
    cases n with
    | zero => rfl
    | succ n => rw [extend, bind_of_ok hnone]; rfl
  · cases tier with
    | call =>
        have hparen : ¬Begins .leftParen c.ahead := h.not_begins hlevel
        have hdot : ¬Begins .dot c.ahead := h.not_begins hlevel
        cases n with
        | zero => rfl
        | succ n =>
            change suffixes r (n + 1) e c = _
            rw [suffixes, bind_of_ok (accept_of_not_begins hparen)]
            exact bind_of_ok (accept_of_not_begins hdot)
    | assignment | unary | primary => rfl
    | _ => exact absurd rfl htier

end Tier

/-- The reader for a rule comes behind an expression of that rule, at a place where it may still take
all of the operators that are ahead. -/
def Extends (tier : Tier) (e : Expr) (s t : Input) : Prop :=
  ∀ n errors, s.tokens.length ≤ n → Weak tier.rank t.tokens →
    ∃ k, t.tokens.length ≤ k ∧
      tier.reader (rules n) (s.cursor errors) = tier.continued (rules n) k e (t.cursor errors)

namespace Extends

variable {tier : Tier} {e : Expr} {n level : Nat}

theorem reads (h : Extends tier e s t) (hn : s.tokens.length ≤ n) (hlevel : level < tier.rank)
    (hweak : Weak level t.tokens) (errors : List SyntaxError) :
    tier.reader (rules n) (s.cursor errors) = .ok e (t.cursor errors) := by
  obtain ⟨k, -, hrun⟩ := h n errors hn (hweak.mono (by omega))
  rw [hrun]
  exact Tier.continued_of_weak tier hlevel hweak k e

theorem reads_assignment (h : Extends .assignment e s t) (hn : s.tokens.length ≤ n)
    (hweak : Weak 0 t.tokens) (errors : List SyntaxError) :
    assignment (rules n) (s.cursor errors) = .ok e (t.cursor errors) := by
  obtain ⟨k, -, hrun⟩ := h n errors hn hweak
  exact hrun

/-- Rules that do not repeat are read at once. -/
theorem of_reads (h : ∀ n errors, s.tokens.length ≤ n → Weak tier.rank t.tokens →
      tier.reader (rules n) (s.cursor errors) = .ok e (t.cursor errors))
    (htier : ∀ r, tier.continued r = fun _ => pure) : Extends tier e s t := by
  intro n errors hn hweak
  refine ⟨t.tokens.length, Nat.le_refl _, ?_⟩
  rw [h n errors hn hweak, htier]
  rfl

end Extends

/-! ### Operators -/

theorem unary_of_call (hbang : ¬Begins .bang c.ahead) (hminus : ¬Begins .minus c.ahead) :
    unary r c = call r c := by
  have hnone : takeIf (fun k => k == .bang || k == .minus) c = .ok none c := by
    refine takeIf_of_none fun t ht => ?_
    have hbang' : t.kind ≠ .bang := fun hk => hbang ⟨t, ht, hk⟩
    have hminus' : t.kind ≠ .minus := fun hk => hminus ⟨t, ht, hk⟩
    simp [hbang', hminus']
  rw [unary, bind_of_ok hnone]

theorem assignment_of_disjunction {d : Cursor} {e : Expr} (h : disjunction r c = .ok e d)
    (hequal : ¬Begins .equal d.ahead) : assignment r c = .ok e d := by
  have hnone : takeIf (· == .equal) d = .ok none d := takeIf_of_none fun t ht => by
    simpa using fun hk => hequal ⟨t, ht, hk⟩
  rw [assignment, bind_of_ok h, bind_of_ok hnone]
  rfl

theorem tighter_extends {tier : Tier} {e : Expr} (hprimary : tier ≠ .primary)
    (he : Derives (.expr tier.next e) s t) (h : Extends tier.next e s t) : Extends tier e s t := by
  intro n errors hn hweak
  have hlt := Tier.rank_lt_next hprimary
  have hreads := h.reads hn hlt hweak errors
  have hlength : t.tokens.length ≤ n := by
    have := he.length_le
    omega
  by_cases htier : tier.isLevel = true
  · refine ⟨n, hlength, ?_⟩
    rw [Tier.reader_of_isLevel htier, bind_of_ok hreads]
    cases n <;> rfl
  · refine ⟨n, hlength, ?_⟩
    cases tier with
    | assignment => exact assignment_of_disjunction hreads (hweak.not_begins (by decide))
    | unary =>
        have hstart : BeginsIn callStarts s.tokens := he.beginsIn (List.cons_ne_nil _ _)
        have hcall := unary_of_call (r := rules n) (c := s.cursor errors)
          (hstart.not_begins (by decide)) (hstart.not_begins (by decide))
        exact hcall.trans hreads
    | call =>
        change call (rules n) _ = _
        rw [call]
        refine (bind_of_ok hreads).trans ?_
        cases n <;> rfl
    | primary => exact absurd rfl hprimary
    | _ => exact absurd rfl htier

theorem joined_extends {tier : Tier} {operator : Token} {left right : Expr}
    (hleft : Derives (.expr tier left) s ⟨operator :: ts, i⟩) (ihleft : Extends tier left s ⟨operator :: ts, i⟩)
    (hoperator : operator.kind ∈ tier.operators)
    (hright : Derives (.expr tier.next right) ⟨ts, i⟩ t) (ihright : Extends tier.next right ⟨ts, i⟩ t) :
    Extends tier (tier.join left operator right) s t := by
  have htier : tier.isLevel = true := by
    cases tier <;> first | rfl | cases hoperator
  have hprimary : tier ≠ .primary := by
    rintro rfl
    cases htier
  intro n errors hn hweak
  have hstrength := Tier.strength_of_mem hoperator
  have hshort := hleft.length_le
  have hshort' := hright.length_le
  simp only [List.length_cons, Phrase.least] at hshort hshort'
  obtain ⟨k, hk, hrun⟩ := ihleft n errors hn (Begins.weak (begins_cons.mpr rfl) (Nat.le_of_eq hstrength))
  simp only [List.length_cons] at hk
  obtain ⟨k, rfl⟩ : ∃ k', k = k' + 1 := ⟨k - 1, by omega⟩
  have hoperand := ihright.reads (n := n) (by simp only; omega) (Tier.rank_lt_next hprimary) hweak errors
  refine ⟨k, by omega, ?_⟩
  rw [hrun, Tier.continued_of_isLevel htier, Input.cursor, extend]
  rw [bind_of_ok ((takeIf_cons _).trans (if_pos (decide_eq_true hoperator)))]
  exact bind_of_ok hoperand

theorem unary_extends {operator : Token} {right : Expr}
    (hoperator : operator.kind = .bang ∨ operator.kind = .minus)
    (hright : Extends .unary right ⟨ts, i⟩ t) :
    Extends .unary (.unary operator right) ⟨operator :: ts, i⟩ t := by
  refine .of_reads (fun n errors hn hweak => ?_) fun _ => rfl
  obtain ⟨n, rfl⟩ : ∃ m, n = m + 1 := ⟨n - 1, by simp only [List.length_cons] at hn; omega⟩
  have hoperand := hright (n := n) errors (by simpa using hn) hweak
  obtain ⟨k, -, hoperand⟩ := hoperand
  change unary _ _ = _
  rw [Input.cursor, unary, bind_of_ok ((takeIf_cons _).trans (if_pos (by simpa using hoperator)))]
  exact bind_of_ok hoperand

/-! ### Calls -/

theorem property_extends {dot name : Token} {object : Expr}
    (hobject : Extends .call object s ⟨dot :: name :: ts, i⟩) (hdot : dot.kind = .dot)
    (hname : name.kind = .identifier) : Extends .call (.get object name) s ⟨ts, i⟩ := by
  intro n errors hn hweak
  obtain ⟨k, hk, hrun⟩ := hobject n errors hn (Begins.weak (begins_cons.mpr hdot) (by decide))
  simp only [List.length_cons] at hk
  obtain ⟨k, rfl⟩ : ∃ k', k = k' + 1 := ⟨k - 1, by omega⟩
  refine ⟨k, by simp only; omega, ?_⟩
  rw [hrun]
  change suffixes (rules n) (k + 1) object _ = suffixes (rules n) k _ _
  have hparen : ¬Begins .leftParen (dot :: name :: ts) := by simp [hdot]
  rw [suffixes, bind_of_ok (accept_of_not_begins hparen), Input.cursor]
  refine (bind_of_ok (accept_cons hdot)).trans ?_
  exact bind_of_ok (expect_cons hname)

/-- What comes of arguments that may be missing, where a parenthesis stands behind them. -/
def ReadsArguments (es : List Expr) (s t : Input) : Prop :=
  ∀ n k count errors, s.tokens.length ≤ n → s.tokens.length ≤ k → count + es.length ≤ maxArguments →
    Begins .rightParen t.tokens →
      argumentValues (assignment (rules n)) k count (s.cursor errors) = .ok es (t.cursor errors)

theorem argumentValues_of_le {expression : Reader Expr} {k count : Nat} (hcount : count < maxArguments) :
    argumentValues expression (k + 1) count = (do
      let value ← expression
      if ← accept .comma then
        return value :: (← argumentValues expression k (count + 1))
      else return [value]) := by
  rw [argumentValues, if_neg (by omega)]

theorem lastArgument_reads {e : Expr} (he : Derives (.expr .assignment e) s t)
    (ih : Extends .assignment e s t) : ReadsArguments [e] s t := by
  intro n k count errors hn hk hcount hend
  have hshort := he.length_le
  simp only [Phrase.least, List.length_singleton] at hshort hcount
  obtain ⟨k, rfl⟩ : ∃ k', k = k' + 1 := ⟨k - 1, by omega⟩
  have hcomma : ¬Begins .comma (t.cursor errors).ahead := fun h => absurd (h.unique hend) (by decide)
  rw [argumentValues_of_le (by omega)]
  rw [bind_of_ok (ih.reads_assignment hn (hend.weak (by decide)) errors)]
  exact bind_of_ok (accept_of_not_begins hcomma)

theorem moreArguments_read {comma : Token} {e : Expr} {es : List Expr}
    (he : Derives (.expr .assignment e) s ⟨comma :: ts, i⟩)
    (ih : Extends .assignment e s ⟨comma :: ts, i⟩) (hcomma : comma.kind = .comma)
    (hrest : ReadsArguments es ⟨ts, i⟩ t) : ReadsArguments (e :: es) s t := by
  intro n k count errors hn hk hcount hend
  have hshort := he.length_le
  simp only [Phrase.least, List.length_cons] at hshort hcount
  obtain ⟨k, rfl⟩ : ∃ k', k = k' + 1 := ⟨k - 1, by omega⟩
  have hweak : Weak 0 (comma :: ts) := Begins.weak (begins_cons.mpr hcomma) (by decide)
  rw [argumentValues_of_le (by omega), bind_of_ok (ih.reads_assignment hn hweak errors), Input.cursor]
  refine (bind_of_ok (accept_cons hcomma)).trans ?_
  have hn' : ts.length ≤ n := by omega
  have hk' : ts.length ≤ k := by omega
  exact (bind_of_ok (hrest n k (count + 1) errors hn' hk' (by omega) hend)).trans rfl

/-- A list that stands in parentheses is empty, or it is read where it begins. -/
theorem callRest_reads {closing : Token} {callee : Expr} {arguments : List Expr} {n : Nat}
    (harguments : arguments = [] ∧ (⟨ts, i⟩ : Input) = ⟨closing :: us, j⟩ ∨
      BeginsIn expressionStarts ts ∧ ReadsArguments arguments ⟨ts, i⟩ ⟨closing :: us, j⟩)
    (hlength : arguments.length ≤ maxArguments) (hclosing : closing.kind = .rightParen)
    (hn : ts.length < n) (errors : List SyntaxError) :
    callRest (rules n) callee ⟨ts, i, errors⟩ =
      .ok (.call callee closing arguments) ⟨us, j, errors⟩ := by
  obtain ⟨n, rfl⟩ : ∃ m, n = m + 1 := ⟨n - 1, by omega⟩
  rcases harguments with ⟨rfl, hinput⟩ | ⟨hstart, hreads⟩
  · injection hinput with hts hi
    subst hts hi
    have hparen : Begins .rightParen (closing :: us) := begins_cons.mpr hclosing
    exact (optional_bind (.inl ⟨hparen, rfl, rfl⟩)).trans (bind_of_ok (expect_cons hclosing))
  · have hparen : ¬Begins .rightParen ts := hstart.not_begins (by decide)
    have hvalues := hreads n (n + 2) 0 errors (by simp only; omega) (by simp only; omega)
      (by omega) (begins_cons.mpr hclosing)
    exact (optional_bind (.inr ⟨hparen, hvalues⟩)).trans (bind_of_ok (expect_cons hclosing))

theorem call_extends {opening closing : Token} {callee : Expr} {arguments : List Expr}
    (hcallee : Derives (.expr .call callee) s ⟨opening :: ts, i⟩)
    (ih : Extends .call callee s ⟨opening :: ts, i⟩) (hopening : opening.kind = .leftParen)
    (hshort : us.length < ts.length)
    (harguments : arguments = [] ∧ (⟨ts, i⟩ : Input) = ⟨closing :: us, j⟩ ∨
      BeginsIn expressionStarts ts ∧ ReadsArguments arguments ⟨ts, i⟩ ⟨closing :: us, j⟩)
    (hlength : arguments.length ≤ maxArguments) (hclosing : closing.kind = .rightParen) :
    Extends .call (.call callee closing arguments) s ⟨us, j⟩ := by
  intro n errors hn hweak
  have hle := hcallee.length_le
  simp only [Phrase.least, List.length_cons] at hle
  obtain ⟨k, hk, hrun⟩ := ih n errors hn (Begins.weak (begins_cons.mpr hopening) (by decide))
  simp only [List.length_cons] at hk
  obtain ⟨k, rfl⟩ : ∃ k', k = k' + 1 := ⟨k - 1, by omega⟩
  refine ⟨k, by simp only; omega, ?_⟩
  rw [hrun]
  change suffixes (rules n) (k + 1) callee _ = suffixes (rules n) k _ _
  rw [suffixes, Input.cursor]
  refine (bind_of_ok (accept_cons hopening)).trans ?_
  exact bind_of_ok (callRest_reads harguments hlength hclosing (by omega) errors)

/-! ### Assignments -/

/-- An expression of the level of calls passes through all levels of operators. -/
theorem disjunction_of_call {d : Cursor} {e : Expr} (hbang : ¬Begins .bang c.ahead)
    (hminus : ¬Begins .minus c.ahead) (h : call r c = .ok e d) (hweak : Weak 1 d.ahead) :
    disjunction r c = .ok e d := by
  have hlift : ∀ tier : Tier, tier.isLevel = true → tier.next.reader r c = .ok e d →
      tier.reader r c = .ok e d := by
    intro tier htier hnext
    have hrank : 1 < tier.rank := by
      cases tier <;> first | decide | cases htier
    rw [Tier.reader_of_isLevel htier, bind_of_ok hnext]
    exact Tier.continued_of_weak tier hrank hweak _ e
  have hunary : unary r c = .ok e d := (unary_of_call hbang hminus).trans h
  have hterm : Tier.term.reader r c = .ok e d := hlift .term rfl (hlift .factor rfl hunary)
  have hequality : Tier.equality.reader r c = .ok e d :=
    hlift .equality rfl (hlift .comparison rfl hterm)
  exact hlift .disjunction rfl (hlift .conjunction rfl hequality)

/-- The equals sign behind a target, and the value behind it. -/
theorem assignment_eq {target : Expr} {equals : Token} {errors : List SyntaxError}
    (htarget : disjunction r c = .ok target ⟨equals :: ts, i, errors⟩) (hequals : equals.kind = .equal) :
    assignment r c = (do
      let value ← r.expression
      match target with
      | .ident ref => return .assign (← reference ref.name) value
      | .get object name => return .set object name value
      | other =>
        record ⟨some equals, .invalidTarget⟩
        return other : Reader Expr) ⟨ts, i, errors⟩ := by
  rw [assignment, bind_of_ok htarget]
  exact bind_of_ok ((takeIf_cons _).trans (if_pos (by simpa using hequals)))

theorem primary_ident {name : Token} {errors : List SyntaxError} (hname : name.kind = .identifier) :
    primary r ⟨name :: ts, i, errors⟩ = .ok (.ident ⟨i, name⟩) ⟨ts, i + 1, errors⟩ := by
  rw [primary, bind_of_ok next?_eq]
  simp only [List.head?_cons, hname]
  rfl

theorem assignName_extends {name equals : Token} {value : Expr} (hname : name.kind = .identifier)
    (hequals : equals.kind = .equal) (hvalue : Extends .assignment value ⟨ts, i + 1⟩ ⟨us, j⟩) :
    Extends .assignment (.assign ⟨j, name⟩ value) ⟨name :: equals :: ts, i⟩ ⟨us, j + 1⟩ := by
  refine .of_reads (fun n errors hn hweak => ?_) fun _ => rfl
  obtain ⟨n, rfl⟩ : ∃ m, n = m + 1 := ⟨n - 1, by simp only [List.length_cons] at hn; omega⟩
  have hequal : Weak 1 (equals :: ts) := Begins.weak (begins_cons.mpr hequals) (by decide)
  have hcall : call (rules (n + 1)) ⟨name :: equals :: ts, i, errors⟩ =
      .ok (.ident ⟨i, name⟩) ⟨equals :: ts, i + 1, errors⟩ := by
    rw [call, bind_of_ok (primary_ident hname)]
    exact Tier.continued_of_weak .call (r := rules (n + 1)) (c := ⟨equals :: ts, i + 1, errors⟩)
      (by decide : 1 < Tier.call.rank) hequal (n + 1) _
  have htarget := disjunction_of_call (by simp [hname]) (by simp [hname]) hcall hequal
  have hread := hvalue.reads_assignment (n := n) (by simp at hn ⊢; omega) hweak errors
  refine (assignment_eq htarget hequals).trans ?_
  exact bind_of_ok hread

theorem assignProperty_extends {dot name equals : Token} {object value : Expr}
    (hobject : Derives (.expr .call object) s ⟨dot :: name :: equals :: ts, i⟩)
    (ih : Extends .call object s ⟨dot :: name :: equals :: ts, i⟩) (hdot : dot.kind = .dot)
    (hname : name.kind = .identifier) (hequals : equals.kind = .equal)
    (hvalue : Extends .assignment value ⟨ts, i⟩ t) :
    Extends .assignment (.set object name value) s t := by
  refine .of_reads (fun n errors hn hweak => ?_) fun _ => rfl
  have hle := hobject.length_le
  simp only [Phrase.least, List.length_cons] at hle
  obtain ⟨n, rfl⟩ : ∃ m, n = m + 1 := ⟨n - 1, by omega⟩
  have hequal : Weak 1 (equals :: ts) := Begins.weak (begins_cons.mpr hequals) (by decide)
  have hstart : BeginsIn callStarts s.tokens := hobject.beginsIn (List.cons_ne_nil _ _)
  have hcall := (property_extends ih hdot hname).reads hn (by decide : 1 < Tier.call.rank) hequal errors
  have htarget := disjunction_of_call (c := s.cursor errors) (hstart.not_begins (by decide))
    (hstart.not_begins (by decide)) hcall hequal
  have hread := hvalue.reads_assignment (n := n) (by simp only; omega) hweak errors
  refine (assignment_eq htarget hequals).trans ?_
  exact bind_of_ok hread

/-! ### Functions -/

/-- What comes of parameters that may be missing, where a parenthesis stands behind them. -/
def ReadsParameters (names : List Token) (s t : Input) : Prop :=
  ∀ k count errors, s.tokens.length ≤ k → count + names.length ≤ maxArguments →
    Begins .rightParen t.tokens →
      parameterNames k count (s.cursor errors) = .ok names (t.cursor errors)

theorem parameterNames_of_le {k count : Nat} (hcount : count < maxArguments) :
    parameterNames (k + 1) count = (do
      let name ← expect .identifier .noParameterName
      if ← accept .comma then return name :: (← parameterNames k (count + 1)) else return [name]) := by
  rw [parameterNames, if_neg (by omega)]

theorem lastParameter_reads {name : Token} (hname : name.kind = .identifier) :
    ReadsParameters [name] ⟨name :: ts, i⟩ ⟨ts, i⟩ := by
  intro k count errors hk hcount hend
  simp only [List.length_cons, List.length_nil] at hk hcount
  obtain ⟨k, rfl⟩ : ∃ k', k = k' + 1 := ⟨k - 1, by omega⟩
  have hcomma : ¬Begins .comma ts := fun h => absurd (h.unique hend) (by decide)
  rw [parameterNames_of_le (by omega), Input.cursor, bind_of_ok (expect_cons hname)]
  exact bind_of_ok (accept_of_not_begins hcomma)

theorem moreParameters_read {name comma : Token} {names : List Token}
    (hname : name.kind = .identifier) (hcomma : comma.kind = .comma)
    (hrest : ReadsParameters names ⟨ts, i⟩ t) :
    ReadsParameters (name :: names) ⟨name :: comma :: ts, i⟩ t := by
  intro k count errors hk hcount hend
  simp only [List.length_cons] at hk hcount
  obtain ⟨k, rfl⟩ : ∃ k', k = k' + 1 := ⟨k - 1, by omega⟩
  rw [parameterNames_of_le (by omega), Input.cursor, bind_of_ok (expect_cons hname)]
  refine (bind_of_ok (accept_cons hcomma)).trans ?_
  have hk' : ts.length ≤ k := by omega
  exact (bind_of_ok (hrest k (count + 1) errors hk' (by omega) hend)).trans rfl

/-- What comes of a block whose opening brace has been read before. -/
def ReadsBlock (body : List Stmt) (s t : Input) : Prop :=
  ∃ opening ts, s.tokens = opening :: ts ∧ opening.kind = .leftBrace ∧
    ∀ n errors, ts.length < n →
      block (rules n) ⟨ts, s.nextId, errors⟩ = .ok body (t.cursor errors)

/-- What comes of parameters and body of a function whose opening parenthesis has been read before. -/
def ReadsCallable (params : List Token) (body : List Stmt) (s t : Input) : Prop :=
  ∃ opening ts, s.tokens = opening :: ts ∧ opening.kind = .leftParen ∧
    ∀ n errors form name line, ts.length < n →
      functionRest (rules n) form name line ⟨ts, s.nextId, errors⟩ =
        .ok (.mk name line params body) (t.cursor errors)

theorem callable_reads {opening closing : Token} {params : List Token} {body : List Stmt}
    (hopening : opening.kind = .leftParen)
    (hparams : params = [] ∧ (⟨ts, i⟩ : Input) = ⟨closing :: us, j⟩ ∨
      Begins .identifier ts ∧ ReadsParameters params ⟨ts, i⟩ ⟨closing :: us, j⟩)
    (hshort : us.length < ts.length) (hlength : params.length ≤ maxArguments)
    (hclosing : closing.kind = .rightParen) (hbody : ReadsBlock body ⟨us, j⟩ t) :
    ReadsCallable params body ⟨opening :: ts, i⟩ t := by
  refine ⟨opening, ts, rfl, hopening, fun n errors form name line hn => ?_⟩
  obtain ⟨brace, vs, hus, hbrace, hbody⟩ := hbody
  simp only at hus
  subst hus
  simp only [List.length_cons] at hshort
  have hrest : ((do
      let _ ← expect .rightParen .noParameterListEnd
      let _ ← expect .leftBrace (.noFunctionBody form)
      return .mk name line params (← block (rules n)) : Reader FunctionDecl)
        ⟨closing :: brace :: vs, j, errors⟩) = .ok (.mk name line params body) (t.cursor errors) := by
    rw [bind_of_ok (expect_cons hclosing), bind_of_ok (expect_cons hbrace)]
    exact bind_of_ok (hbody n errors (by omega))
  rcases hparams with ⟨rfl, hinput⟩ | ⟨hstart, hreads⟩
  · injection hinput with hts hi
    subst hts hi
    have hparen : Begins .rightParen (closing :: brace :: vs) := begins_cons.mpr hclosing
    exact (optional_bind (.inl ⟨hparen, rfl, rfl⟩)).trans hrest
  · have hparen : ¬Begins .rightParen ts := fun h => nomatch h.unique hstart
    have hbound : ts.length ≤ (rules n).bound + 1 := by
      cases n <;> simp only [rules] <;> omega
    have hnames := hreads _ 0 errors hbound (by omega) (begins_cons.mpr hclosing)
    exact (optional_bind (.inr ⟨hparen, hnames⟩)).trans hrest

/-! ### Primary expressions -/

theorem primary_extends {e : Expr}
    (h : ∀ n errors, s.tokens.length ≤ n →
      primary (rules n) (s.cursor errors) = .ok e (t.cursor errors)) :
    Extends .primary e s t :=
  .of_reads (fun n errors hn _ => h n errors hn) fun _ => rfl

theorem super_extends {keyword dot method : Token} (hkeyword : keyword.kind = .kwSuper)
    (hdot : dot.kind = .dot) (hmethod : method.kind = .identifier) :
    Extends .primary (.super ⟨i, keyword⟩ method) ⟨keyword :: dot :: method :: ts, i⟩
      ⟨ts, i + 1⟩ := by
  refine primary_extends fun n errors _ => ?_
  rw [primary, bind_of_ok next?_eq]
  simp only [Input.cursor, List.head?_cons, hkeyword]
  refine (bind_of_ok rfl).trans ?_
  refine (bind_of_ok (expect_cons hdot)).trans ?_
  exact bind_of_ok (expect_cons hmethod)

theorem group_extends {opening closing : Token} {inner : Expr} (hopening : opening.kind = .leftParen)
    (hinner : Extends .assignment inner ⟨ts, i⟩ ⟨closing :: us, j⟩)
    (hclosing : closing.kind = .rightParen) :
    Extends .primary (.group inner) ⟨opening :: ts, i⟩ ⟨us, j⟩ := by
  refine primary_extends fun n errors hn => ?_
  simp only [List.length_cons] at hn
  obtain ⟨n, rfl⟩ : ∃ m, n = m + 1 := ⟨n - 1, by omega⟩
  have hweak : Weak 0 (closing :: us) := Begins.weak (begins_cons.mpr hclosing) (by decide)
  have hread := hinner.reads_assignment (n := n) (by simp only; omega) hweak errors
  rw [primary, bind_of_ok next?_eq]
  simp only [Input.cursor, List.head?_cons, hopening]
  refine (bind_of_ok rfl).trans ?_
  refine (bind_of_ok hread).trans ?_
  exact bind_of_ok (expect_cons hclosing)

theorem anonymous_extends {keyword : Token} {params : List Token} {body : List Stmt}
    (hkeyword : keyword.kind = .kwFun) (hrest : ReadsCallable params body ⟨ts, i⟩ t) :
    Extends .primary (.function (.mk none keyword.line params body)) ⟨keyword :: ts, i⟩ t := by
  refine primary_extends fun n errors hn => ?_
  obtain ⟨opening, us, hts, hopening, hrest⟩ := hrest
  simp only at hts
  subst hts
  simp only [List.length_cons] at hn
  rw [primary, bind_of_ok next?_eq]
  simp only [Input.cursor, List.head?_cons, hkeyword]
  refine (bind_of_ok rfl).trans ?_
  refine (bind_of_ok (expect_cons hopening)).trans ?_
  exact bind_of_ok (hrest n errors _ _ _ (by omega))

/-! ### Parts of statements -/

theorem exprStmt_reads {semicolon : Token} {value : Expr} {n : Nat}
    (hvalue : Extends .assignment value s ⟨semicolon :: ts, i⟩) (hsemicolon : semicolon.kind = .semicolon)
    (hn : s.tokens.length ≤ n) (errors : List SyntaxError) :
    expressionStatement (rules n) (s.cursor errors) = .ok (.expr value) ⟨ts, i, errors⟩ := by
  have hweak : Weak 0 (semicolon :: ts) := Begins.weak (begins_cons.mpr hsemicolon) (by decide)
  rw [expressionStatement, bind_of_ok (hvalue.reads_assignment hn hweak errors)]
  exact bind_of_ok (expect_cons hsemicolon)

/-- What comes of a variable declaration whose keyword has been read before. -/
def ReadsVariable (a : Stmt) (s t : Input) : Prop :=
  ∃ keyword ts, s.tokens = keyword :: ts ∧ keyword.kind = .kwVar ∧
    ∀ n errors, ts.length ≤ n →
      variableRest (rules n) ⟨ts, s.nextId, errors⟩ = .ok a (t.cursor errors)

theorem bareVariable_reads {keyword name semicolon : Token} (hkeyword : keyword.kind = .kwVar)
    (hname : name.kind = .identifier) (hsemicolon : semicolon.kind = .semicolon) :
    ReadsVariable (.var name none) ⟨keyword :: name :: semicolon :: ts, i⟩ ⟨ts, i⟩ := by
  refine ⟨keyword, _, rfl, hkeyword, fun n errors _ => ?_⟩
  have hequal : ¬Begins .equal (semicolon :: ts) := by simp [hsemicolon]
  rw [variableRest, bind_of_ok (expect_cons hname), bind_of_ok (accept_of_not_begins hequal)]
  rw [if_neg Bool.false_ne_true]
  exact (bind_of_ok rfl).trans (bind_of_ok (expect_cons hsemicolon))

theorem setVariable_reads {keyword name equals semicolon : Token} {value : Expr}
    (hkeyword : keyword.kind = .kwVar) (hname : name.kind = .identifier)
    (hequals : equals.kind = .equal)
    (hvalue : Extends .assignment value ⟨ts, i⟩ ⟨semicolon :: us, j⟩)
    (hsemicolon : semicolon.kind = .semicolon) :
    ReadsVariable (.var name (some value)) ⟨keyword :: name :: equals :: ts, i⟩ ⟨us, j⟩ := by
  refine ⟨keyword, _, rfl, hkeyword, fun n errors hn => ?_⟩
  simp only [List.length_cons] at hn
  have hweak : Weak 0 (semicolon :: us) := Begins.weak (begins_cons.mpr hsemicolon) (by decide)
  have hread := hvalue.reads_assignment (n := n) (by simp only; omega) hweak errors
  rw [variableRest, bind_of_ok (expect_cons hname), bind_of_ok (accept_cons hequals), if_pos rfl]
  exact (bind_of_ok (map_of_ok hread)).trans (bind_of_ok (expect_cons hsemicolon))

/-- What comes of the first clause of a loop. -/
def ReadsInit (o : Option Stmt) (s t : Input) : Prop :=
  ∀ n errors, s.tokens.length ≤ n →
    forInitializer (rules n) (s.cursor errors) = .ok o (t.cursor errors)

theorem noInit_reads {semicolon : Token} (hsemicolon : semicolon.kind = .semicolon) :
    ReadsInit none ⟨semicolon :: ts, i⟩ ⟨ts, i⟩ := by
  intro n errors _
  rw [forInitializer, Input.cursor, bind_of_ok (accept_cons hsemicolon)]
  rfl

theorem variableInit_reads {a : Stmt} (ha : ReadsVariable a s t) : ReadsInit (some a) s t := by
  obtain ⟨keyword, ts, hs, hkeyword, hread⟩ := ha
  intro n errors hn
  simp only [hs, List.length_cons] at hn
  have hsemicolon : ¬Begins .semicolon (keyword :: ts) := by simp [hkeyword]
  rw [forInitializer, Input.cursor, hs, bind_of_ok (accept_of_not_begins hsemicolon)]
  rw [if_neg Bool.false_ne_true, bind_of_ok (accept_cons hkeyword), if_pos rfl]
  exact map_of_ok (hread n errors (by omega))

theorem exprInit_reads {a : Stmt} (hstart : BeginsIn expressionStarts s.tokens)
    (ha : ∀ n errors, s.tokens.length ≤ n →
      expressionStatement (rules n) (s.cursor errors) = .ok a (t.cursor errors)) :
    ReadsInit (some a) s t := by
  intro n errors hn
  have hsemicolon : ¬Begins .semicolon (s.cursor errors).ahead := hstart.not_begins (by decide)
  have hvar : ¬Begins .kwVar (s.cursor errors).ahead := hstart.not_begins (by decide)
  rw [forInitializer, bind_of_ok (accept_of_not_begins hsemicolon), if_neg Bool.false_ne_true]
  rw [bind_of_ok (accept_of_not_begins hvar), if_neg Bool.false_ne_true]
  exact map_of_ok (ha n errors hn)

/-- An expression that may be missing: no token is taken, or it is read where it begins. -/
def ReadsOptional (e : Option Expr) (s t : Input) : Prop :=
  e = none ∧ s = t ∨
    ∃ e', e = some e' ∧ BeginsIn expressionStarts s.tokens ∧ Extends .assignment e' s t

theorem ReadsOptional.cases {kind : Kind} {stop : Token} {e : Option Expr} {n : Nat}
    (h : ReadsOptional e s ⟨stop :: ts, i⟩) (hstop : stop.kind = kind)
    (hkind : kind ∉ expressionStarts) (hstrength : strength kind = 0) (hn : s.tokens.length ≤ n)
    (errors : List SyntaxError) :
    Begins kind s.tokens ∧ e = none ∧ s.cursor errors = ⟨stop :: ts, i, errors⟩ ∨
      ¬Begins kind s.tokens ∧ ∃ e', e = some e' ∧
        assignment (rules n) (s.cursor errors) = .ok e' ⟨stop :: ts, i, errors⟩ := by
  have hweak : Weak 0 (stop :: ts) := Begins.weak (begins_cons.mpr hstop) (Nat.le_of_eq hstrength)
  rcases h with ⟨rfl, rfl⟩ | ⟨e', rfl, hstart, he⟩
  · exact .inl ⟨begins_cons.mpr hstop, rfl, rfl⟩
  · exact .inr ⟨hstart.not_begins hkind, e', rfl, he.reads_assignment hn hweak errors⟩

/-! ### Statements -/

/-- What comes of a statement, if no `else` stands behind it that it would take. -/
def ReadsStatement (isOpen : Bool) (a : Stmt) (s t : Input) : Prop :=
  ∀ n errors, s.tokens.length ≤ n → (isOpen = true → ¬Begins .kwElse t.tokens) →
    statement (rules n) (s.cursor errors) = .ok a (t.cursor errors)

variable {keyword opening closing semicolon : Token} {errors : List SyntaxError}

/-- A statement that begins with a keyword of its own. -/
theorem statement_cons {read : Reader Stmt} {a : Stmt} {d : Cursor}
    (hkeyword : (match keyword.kind with
      | .kwFor => some (forRest r)
      | .kwIf => some (ifRest r)
      | .kwPrint => some (printRest r)
      | .kwReturn => some (returnRest r keyword)
      | .kwWhile => some (whileRest r)
      | .leftBrace => some (.block <$> block r)
      | _ => none) = some read)
    (hread : read ⟨ts, i, errors⟩ = .ok a d) :
    statement r ⟨keyword :: ts, i, errors⟩ = .ok a d := by
  rw [statement, bind_of_ok next?_eq]
  simp only [List.head?_cons]
  split at hkeyword
  case h_7 => cases hkeyword
  all_goals
    cases hkeyword
    simp only [*]
    exact hread

theorem simple_reads {a : Stmt} (hstart : BeginsIn expressionStarts s.tokens)
    (ha : ∀ n errors, s.tokens.length ≤ n →
      expressionStatement (rules n) (s.cursor errors) = .ok a (t.cursor errors)) :
    ReadsStatement false a s t := by
  intro n errors hn _
  refine Eq.trans ?_ (ha n errors hn)
  obtain ⟨kind, hmem, first, hfirst, rfl⟩ := hstart
  rw [statement, bind_of_ok next?_eq, Input.cursor]
  simp only [Option.mem_def.mp hfirst]
  generalize first.kind = kind at hmem
  cases kind <;> first | exact absurd hmem (by decide) | rfl

theorem print_reads {value : Expr} (hkeyword : keyword.kind = .kwPrint)
    (hvalue : Extends .assignment value ⟨ts, i⟩ ⟨semicolon :: us, j⟩)
    (hsemicolon : semicolon.kind = .semicolon) :
    ReadsStatement false (.print value) ⟨keyword :: ts, i⟩ ⟨us, j⟩ := by
  intro n errors hn _
  simp only [List.length_cons] at hn
  have hweak : Weak 0 (semicolon :: us) := Begins.weak (begins_cons.mpr hsemicolon) (by decide)
  have hread := hvalue.reads_assignment (n := n) (by simp only; omega) hweak errors
  refine statement_cons (by rw [hkeyword]) ?_
  rw [printRest]
  exact (bind_of_ok hread).trans (bind_of_ok (expect_cons hsemicolon))

theorem ret_reads {value : Option Expr} (hkeyword : keyword.kind = .kwReturn)
    (hvalue : ReadsOptional value ⟨ts, i⟩ ⟨semicolon :: us, j⟩)
    (hsemicolon : semicolon.kind = .semicolon) :
    ReadsStatement false (.ret keyword value) ⟨keyword :: ts, i⟩ ⟨us, j⟩ := by
  intro n errors hn _
  simp only [List.length_cons] at hn
  have hcases := hvalue.cases (n := n) hsemicolon (by decide) rfl (by simp only; omega) errors
  refine statement_cons (by rw [hkeyword]) ?_
  refine (optional_bind (d := ⟨semicolon :: us, j, errors⟩) (a := value) ?_).trans ?_
  · rcases hcases with ⟨hnext, rfl, hcursor⟩ | ⟨hnext, e, rfl, hread⟩
    · exact .inl ⟨hnext, rfl, hcursor⟩
    · exact .inr ⟨hnext, map_of_ok hread⟩
  · exact bind_of_ok (expect_cons hsemicolon)

theorem compound_reads {body : List Stmt} (hbody : ReadsBlock body s t) :
    ReadsStatement false (.block body) s t := by
  intro n errors hn _
  obtain ⟨opening, ts, hs, hopening, hread⟩ := hbody
  simp only [hs, List.length_cons] at hn
  rw [Input.cursor, hs]
  exact statement_cons (by rw [hopening]) (map_of_ok (hread n errors (by omega)))

theorem loop_reads {condition : Expr} {body : Stmt} {isOpen : Bool}
    (hkeyword : keyword.kind = .kwWhile) (hopening : opening.kind = .leftParen)
    (hcondition : Extends .assignment condition ⟨ts, i⟩ ⟨closing :: us, j⟩)
    (hclosing : closing.kind = .rightParen) (hshort : us.length < ts.length)
    (hbody : ReadsStatement isOpen body ⟨us, j⟩ t) :
    ReadsStatement isOpen (.loop condition body) ⟨keyword :: opening :: ts, i⟩ t := by
  intro n errors hn hend
  simp only [List.length_cons] at hn
  obtain ⟨n, rfl⟩ : ∃ m, n = m + 1 := ⟨n - 1, by omega⟩
  have hweak : Weak 0 (closing :: us) := Begins.weak (begins_cons.mpr hclosing) (by decide)
  have hread := hcondition.reads_assignment (n := n + 1) (by simp only; omega) hweak errors
  refine statement_cons (by rw [hkeyword]) ?_
  rw [whileRest, bind_of_ok (expect_cons hopening)]
  refine (bind_of_ok hread).trans ?_
  refine (bind_of_ok (expect_cons hclosing)).trans ?_
  exact bind_of_ok (hbody n errors (by simp only; omega) hend)

theorem forLoop_reads {init : Option Stmt} {condition increment : Option Expr} {body : Stmt}
    {isOpen : Bool} {vs ws : List Token} {k l : Identity}
    (hkeyword : keyword.kind = .kwFor) (hopening : opening.kind = .leftParen)
    (hinit : ReadsInit init ⟨ts, i⟩ ⟨us, j⟩)
    (hcondition : ReadsOptional condition ⟨us, j⟩ ⟨semicolon :: vs, k⟩)
    (hsemicolon : semicolon.kind = .semicolon)
    (hincrement : ReadsOptional increment ⟨vs, k⟩ ⟨closing :: ws, l⟩)
    (hclosing : closing.kind = .rightParen)
    (hus : us.length ≤ ts.length) (hvs : vs.length ≤ ts.length) (hws : ws.length ≤ ts.length)
    (hbody : ReadsStatement isOpen body ⟨ws, l⟩ t) :
    ReadsStatement isOpen (forLoop init (condition.getD (.literal (.bool true))) increment body)
      ⟨keyword :: opening :: ts, i⟩ t := by
  intro n errors hn hend
  simp only [List.length_cons] at hn
  obtain ⟨n, rfl⟩ : ∃ m, n = m + 1 := ⟨n - 1, by omega⟩
  have hcond := hcondition.cases (n := n + 1) hsemicolon (by decide) rfl (by simp only; omega) errors
  have hincr := hincrement.cases (n := n + 1) hclosing (by decide) rfl (by simp only; omega) errors
  refine statement_cons (by rw [hkeyword]) ?_
  rw [forRest, bind_of_ok (expect_cons hopening)]
  refine (bind_of_ok (hinit (n + 1) errors (by simp only; omega))).trans ?_
  refine (optional_bind (d := ⟨semicolon :: vs, k, errors⟩)
    (a := condition.getD (.literal (.bool true))) ?_).trans ?_
  · rcases hcond with ⟨hnext, rfl, hcursor⟩ | ⟨hnext, e, rfl, hread⟩
    · exact .inl ⟨hnext, rfl, hcursor⟩
    · exact .inr ⟨hnext, hread⟩
  refine (bind_of_ok (expect_cons hsemicolon)).trans ?_
  refine (optional_bind (d := ⟨closing :: ws, l, errors⟩) (a := increment) ?_).trans ?_
  · rcases hincr with ⟨hnext, rfl, hcursor⟩ | ⟨hnext, e, rfl, hread⟩
    · exact .inl ⟨hnext, rfl, hcursor⟩
    · exact .inr ⟨hnext, map_of_ok hread⟩
  refine (bind_of_ok (expect_cons hclosing)).trans ?_
  exact bind_of_ok (hbody n errors (by simp only; omega) hend)

theorem ifThen_reads {condition : Expr} {thenBranch : Stmt} {isOpen : Bool}
    (hkeyword : keyword.kind = .kwIf) (hopening : opening.kind = .leftParen)
    (hcondition : Extends .assignment condition ⟨ts, i⟩ ⟨closing :: us, j⟩)
    (hclosing : closing.kind = .rightParen) (hshort : us.length < ts.length)
    (hthen : ReadsStatement isOpen thenBranch ⟨us, j⟩ t) :
    ReadsStatement true (.branch condition thenBranch none) ⟨keyword :: opening :: ts, i⟩ t := by
  intro n errors hn hend
  simp only [List.length_cons] at hn
  obtain ⟨n, rfl⟩ : ∃ m, n = m + 1 := ⟨n - 1, by omega⟩
  have hweak : Weak 0 (closing :: us) := Begins.weak (begins_cons.mpr hclosing) (by decide)
  have hread := hcondition.reads_assignment (n := n + 1) (by simp only; omega) hweak errors
  have helse : ¬Begins .kwElse (t.cursor errors).ahead := hend rfl
  refine statement_cons (by rw [hkeyword]) ?_
  rw [ifRest, bind_of_ok (expect_cons hopening)]
  refine (bind_of_ok hread).trans ?_
  refine (bind_of_ok (expect_cons hclosing)).trans ?_
  refine (bind_of_ok (hthen n errors (by simp only; omega) fun _ => hend rfl)).trans ?_
  refine (bind_of_ok (accept_of_not_begins helse)).trans ?_
  rw [if_neg Bool.false_ne_true]
  exact bind_of_ok rfl

theorem ifElse_reads {condition : Expr} {thenBranch elseBranch : Stmt} {isOpen : Bool}
    {otherwise : Token} {vs : List Token} {k : Identity}
    (hkeyword : keyword.kind = .kwIf) (hopening : opening.kind = .leftParen)
    (hcondition : Extends .assignment condition ⟨ts, i⟩ ⟨closing :: us, j⟩)
    (hclosing : closing.kind = .rightParen) (hshort : us.length < ts.length)
    (hthen : ReadsStatement false thenBranch ⟨us, j⟩ ⟨otherwise :: vs, k⟩)
    (hotherwise : otherwise.kind = .kwElse) (hshort' : vs.length < us.length)
    (helse : ReadsStatement isOpen elseBranch ⟨vs, k⟩ t) :
    ReadsStatement isOpen (.branch condition thenBranch (some elseBranch))
      ⟨keyword :: opening :: ts, i⟩ t := by
  intro n errors hn hend
  simp only [List.length_cons] at hn
  obtain ⟨n, rfl⟩ : ∃ m, n = m + 1 := ⟨n - 1, by omega⟩
  have hweak : Weak 0 (closing :: us) := Begins.weak (begins_cons.mpr hclosing) (by decide)
  have hread := hcondition.reads_assignment (n := n + 1) (by simp only; omega) hweak errors
  refine statement_cons (by rw [hkeyword]) ?_
  rw [ifRest, bind_of_ok (expect_cons hopening)]
  refine (bind_of_ok hread).trans ?_
  refine (bind_of_ok (expect_cons hclosing)).trans ?_
  refine (bind_of_ok (hthen n errors (by simp only; omega) nofun)).trans ?_
  refine (bind_of_ok (accept_cons hotherwise)).trans ?_
  rw [if_pos rfl]
  exact (bind_of_ok (map_of_ok (helse n errors (by simp only; omega) hend))).trans rfl

/-! ### Declarations -/

def ReadsFunction (decl : FunctionDecl) (s t : Input) : Prop :=
  ∀ n errors form, s.tokens.length ≤ n →
    namedFunction (rules n) form (s.cursor errors) = .ok decl (t.cursor errors)

theorem function_reads {name : Token} {params : List Token} {body : List Stmt}
    (hname : name.kind = .identifier) (hrest : ReadsCallable params body ⟨ts, i⟩ t) :
    ReadsFunction (.mk (some name) name.line params body) ⟨name :: ts, i⟩ t := by
  intro n errors form hn
  obtain ⟨opening, us, hts, hopening, hread⟩ := hrest
  simp only at hts
  subst hts
  simp only [List.length_cons] at hn
  rw [namedFunction, Input.cursor, bind_of_ok (expect_cons hname)]
  refine (bind_of_ok (expect_cons hopening)).trans ?_
  exact hread n errors form _ _ (by omega)

/-- What comes of the members of a class, where a brace stands behind them. -/
def ReadsFunctions (decls : List FunctionDecl) (s t : Input) : Prop :=
  ∀ n k errors, s.tokens.length ≤ n → s.tokens.length ≤ k → Begins .rightBrace t.tokens →
    methods (rules n) k (s.cursor errors) = .ok decls (t.cursor errors)

theorem noFunctions_read : ReadsFunctions [] s s := by
  intro n k errors _ _ hend
  cases k with
  | zero => rfl
  | succ k =>
      rw [methods, bind_of_ok (sees_eq_true (c := s.cursor errors) hend), bind_of_ok atEnd_eq]
      rw [if_pos (by rfl)]
      rfl

theorem moreFunctions_read {d : FunctionDecl} {ds : List FunctionDecl} {u : Input}
    (hstart : Begins .identifier s.tokens) (hshort : t.tokens.length < s.tokens.length)
    (hd : ReadsFunction d s t) (hds : ReadsFunctions ds t u) : ReadsFunctions (d :: ds) s u := by
  intro n k errors hn hk hend
  obtain ⟨k, rfl⟩ : ∃ k', k = k' + 1 := ⟨k - 1, by omega⟩
  have hbrace : ¬Begins .rightBrace (s.cursor errors).ahead := fun h => nomatch h.unique hstart
  have hmore : (s.cursor errors).ahead.isEmpty = false := by
    obtain ⟨first, hfirst, -⟩ := hstart
    cases hs : s.tokens <;> simp_all [Input.cursor]
  rw [methods, bind_of_ok (sees_eq_false hbrace), bind_of_ok atEnd_eq, hmore]
  rw [if_neg (by decide), bind_of_ok (hd n errors _ hn)]
  exact bind_of_ok (hds n k errors (by omega) (by omega) hend)

def ReadsDeclaration (a : Stmt) (s t : Input) : Prop :=
  ∀ n errors, s.tokens.length ≤ n → ¬Begins .kwElse t.tokens →
    declared (rules n) (s.cursor errors) = .ok a (t.cursor errors)

theorem baseClass_reads {name : Token} {members : List FunctionDecl}
    (hkeyword : keyword.kind = .kwClass) (hname : name.kind = .identifier)
    (hopening : opening.kind = .leftBrace)
    (hmembers : ReadsFunctions members ⟨ts, i⟩ ⟨closing :: us, j⟩)
    (hclosing : closing.kind = .rightBrace) :
    ReadsDeclaration (.classDecl name none members) ⟨keyword :: name :: opening :: ts, i⟩ ⟨us, j⟩ := by
  intro n errors hn _
  simp only [List.length_cons] at hn
  have hless : ¬Begins .less (opening :: ts) := by simp [hopening]
  have hbound : (rules n).bound = n := by cases n <;> rfl
  rw [declared, Input.cursor, bind_of_ok (accept_cons hkeyword), if_pos rfl]
  rw [classRest, bind_of_ok (expect_cons hname)]
  have hsuper : superclass? ⟨opening :: ts, i, errors⟩ = .ok none ⟨opening :: ts, i, errors⟩ := by
    rw [superclass?, bind_of_ok (accept_of_not_begins hless)]
    rfl
  refine (bind_of_ok hsuper).trans ?_
  refine (bind_of_ok (expect_cons hopening)).trans ?_
  refine (bind_of_ok (hmembers n _ errors (by simp only; omega) (by simp only; omega)
    (begins_cons.mpr hclosing))).trans ?_
  exact bind_of_ok (expect_cons hclosing)

theorem derivedClass_reads {name less parent : Token} {members : List FunctionDecl}
    (hkeyword : keyword.kind = .kwClass) (hname : name.kind = .identifier)
    (hless : less.kind = .less) (hparent : parent.kind = .identifier)
    (hopening : opening.kind = .leftBrace)
    (hmembers : ReadsFunctions members ⟨ts, i + 1⟩ ⟨closing :: us, j⟩)
    (hclosing : closing.kind = .rightBrace) :
    ReadsDeclaration (.classDecl name (some ⟨i, parent⟩) members)
      ⟨keyword :: name :: less :: parent :: opening :: ts, i⟩ ⟨us, j⟩ := by
  intro n errors hn _
  simp only [List.length_cons] at hn
  have hbound : (rules n).bound = n := by cases n <;> rfl
  rw [declared, Input.cursor, bind_of_ok (accept_cons hkeyword), if_pos rfl]
  rw [classRest, bind_of_ok (expect_cons hname)]
  have hsuper : superclass? ⟨less :: parent :: opening :: ts, i, errors⟩ =
      .ok (some ⟨i, parent⟩) ⟨opening :: ts, i + 1, errors⟩ := by
    rw [superclass?, bind_of_ok (accept_cons hless), if_pos rfl]
    exact bind_of_ok (expect_cons hparent)
  refine (bind_of_ok hsuper).trans ?_
  refine (bind_of_ok (expect_cons hopening)).trans ?_
  refine (bind_of_ok (hmembers n _ errors (by simp only; omega) (by simp only; omega)
    (begins_cons.mpr hclosing))).trans ?_
  exact bind_of_ok (expect_cons hclosing)

/-- A declaration that is not of a class, up to the keywords that tell it. -/
theorem declared_of_not_class (hclass : ¬Begins .kwClass c.ahead) :
    declared r c = (do
      if ← seesNamedFunction then skip; .function <$> namedFunction r .function
      else if ← accept .kwVar then variableRest r
      else statement r : Reader Stmt) c := by
  rw [declared, bind_of_ok (accept_of_not_begins hclass), if_neg Bool.false_ne_true]

theorem functionDecl_reads {name : Token} {d : FunctionDecl} (hkeyword : keyword.kind = .kwFun)
    (hname : name.kind = .identifier) (hd : ReadsFunction d ⟨name :: ts, i⟩ t) :
    ReadsDeclaration (.function d) ⟨keyword :: name :: ts, i⟩ t := by
  intro n errors hn _
  simp only [List.length_cons] at hn
  have hclass : ¬Begins .kwClass (keyword :: name :: ts) := by simp [hkeyword]
  have hsees : seesNamedFunction ⟨keyword :: name :: ts, i, errors⟩ =
      .ok true ⟨keyword :: name :: ts, i, errors⟩ := by
    change EStateM.Result.ok (keyword.kind == .kwFun && name.kind == .identifier) _ = _
    simp [hkeyword, hname]
  rw [Input.cursor, declared_of_not_class hclass, bind_of_ok hsees, if_pos rfl]
  exact (bind_of_ok rfl).trans (map_of_ok (hd n errors _ (by simp only [List.length_cons]; omega)))

/-- A phrase that begins with no named function is not taken for one. -/
theorem seesNamedFunction_of_not_named
    (h : ∀ ⦃first second ts⦄, c.ahead = first :: second :: ts → first.kind = .kwFun →
      second.kind ≠ .identifier) : seesNamedFunction c = .ok false c := by
  obtain ⟨ts, i, errors⟩ := c
  rcases ts with _ | ⟨first, _ | ⟨second, ts⟩⟩
  · rfl
  · rfl
  · change EStateM.Result.ok (first.kind == .kwFun && second.kind == .identifier) _ = _
    by_cases hfirst : first.kind = .kwFun
    · have hsecond := h rfl hfirst
      simp [hsecond]
    · simp [hfirst]

theorem variableDecl_reads {a : Stmt} (ha : ReadsVariable a s t) : ReadsDeclaration a s t := by
  obtain ⟨keyword, ts, hs, hkeyword, hread⟩ := ha
  intro n errors hn _
  simp only [hs, List.length_cons] at hn
  have hclass : ¬Begins .kwClass (keyword :: ts) := by simp [hkeyword]
  have hsees : seesNamedFunction ⟨keyword :: ts, s.nextId, errors⟩ =
      .ok false ⟨keyword :: ts, s.nextId, errors⟩ := by
    refine seesNamedFunction_of_not_named fun first second us heq hfirst => ?_
    obtain ⟨rfl, -⟩ := List.cons.inj heq
    simp [hkeyword] at hfirst
  rw [Input.cursor, hs, declared_of_not_class hclass, bind_of_ok hsees, if_neg Bool.false_ne_true]
  rw [bind_of_ok (accept_cons hkeyword), if_pos rfl]
  exact hread n errors (by omega)

theorem statementDecl_reads {a : Stmt} {isOpen : Bool} (hder : Derives (.statement isOpen a) s t)
    (ha : ReadsStatement isOpen a s t) : ReadsDeclaration a s t := by
  intro n errors hn helse
  have hstart : BeginsIn statementStarts s.tokens := hder.beginsIn (List.cons_ne_nil _ _)
  have hclass : ¬Begins .kwClass (s.cursor errors).ahead := hstart.not_begins (by decide)
  have hvar : ¬Begins .kwVar (s.cursor errors).ahead := hstart.not_begins (by decide)
  have hsees : seesNamedFunction (s.cursor errors) = .ok false _ :=
    seesNamedFunction_of_not_named fun _ _ _ heq => hder.not_named rfl heq
  rw [declared_of_not_class hclass, bind_of_ok hsees, if_neg Bool.false_ne_true]
  rw [bind_of_ok (accept_of_not_begins hvar), if_neg Bool.false_ne_true]
  exact ha n errors hn fun _ => helse

theorem ReadsDeclaration.recovers {a : Stmt} {n : Nat} (h : ReadsDeclaration a s t)
    (hn : s.tokens.length ≤ n) (helse : ¬Begins .kwElse t.tokens) (errors : List SyntaxError) :
    declaration (rules n) (s.cursor errors) = .ok (some a) (t.cursor errors) :=
  recovering_of_ok (h n errors hn helse)

/-- What comes of declarations, where a brace or nothing stands behind them. -/
structure ReadsDeclarations (ss : List Stmt) (s t : Input) : Prop where
  inBlock : ∀ n k errors, s.tokens.length ≤ n → s.tokens.length ≤ k → Begins .rightBrace t.tokens →
    declarations (declaration (rules n)) k (s.cursor errors) = .ok ss (t.cursor errors)
  inProgram : ∀ n k errors, s.tokens.length ≤ n → s.tokens.length ≤ k → t.tokens = [] →
    program (declaration (rules n)) k (s.cursor errors) = .ok ss (t.cursor errors)

theorem noDeclarations_read : ReadsDeclarations [] s s := by
  constructor
  · intro n k errors _ _ hend
    cases k with
    | zero => rfl
    | succ k =>
        rw [declarations, bind_of_ok (sees_eq_true (c := s.cursor errors) hend), bind_of_ok atEnd_eq]
        rw [if_pos (by rfl)]
        rfl
  · intro n k errors _ _ hend
    have hempty : (s.cursor errors).ahead.isEmpty = true := List.isEmpty_iff.mpr hend
    cases k <;> (rw [program, bind_of_ok atEnd_eq, hempty, if_pos rfl]; rfl)

/-- Behind a declaration in a list stands another one or the end, but no `else`. -/
theorem Derives.not_begins_else {ss : List Stmt} (h : Derives (.declarations ss) s t)
    (hend : Begins .rightBrace t.tokens ∨ t.tokens = []) : ¬Begins .kwElse s.tokens := by
  cases h with
  | noDeclarations =>
      rcases hend with hend | hend
      · exact fun h => absurd (h.unique hend) (by decide)
      · simp [hend]
  | moreDeclarations ha _ => exact (ha.beginsIn (List.cons_ne_nil _ _)).not_begins (by simp [Phrase.starts,
      statementStarts, expressionStarts, callStarts])

theorem moreDeclarations_read {a : Stmt} {rest : List Stmt} {u : Input}
    (hder : Derives (.declaration a) s t) (ha : ReadsDeclaration a s t)
    (hders : Derives (.declarations rest) t u) (hrest : ReadsDeclarations rest t u) :
    ReadsDeclarations (a :: rest) s u := by
  have hshort := hder.length_le
  simp only [Phrase.least] at hshort
  have hstart := hder.beginsIn (List.cons_ne_nil _ _)
  have hmore (errors : List SyntaxError) : (s.cursor errors).ahead.isEmpty = false := by
    cases hs : s.tokens <;> simp_all [Input.cursor]
  constructor
  · intro n k errors hn hk hend
    obtain ⟨k, rfl⟩ : ∃ k', k = k' + 1 := ⟨k - 1, by omega⟩
    have hbrace : ¬Begins .rightBrace (s.cursor errors).ahead :=
      hstart.not_begins (by simp [Phrase.starts, statementStarts, expressionStarts, callStarts])
    rw [declarations, bind_of_ok (sees_eq_false hbrace), bind_of_ok atEnd_eq, hmore]
    rw [if_neg (by decide), bind_of_ok (ha.recovers hn (hders.not_begins_else (.inl hend)) errors)]
    exact bind_of_ok (hrest.inBlock n k errors (by omega) (by omega) hend)
  · intro n k errors hn hk hend
    obtain ⟨k, rfl⟩ : ∃ k', k = k' + 1 := ⟨k - 1, by omega⟩
    rw [program, bind_of_ok atEnd_eq, hmore, if_neg Bool.false_ne_true]
    rw [bind_of_ok (ha.recovers hn (hders.not_begins_else (.inr hend)) errors)]
    exact bind_of_ok (hrest.inProgram n k errors (by omega) (by omega) hend)

theorem block_reads {body : List Stmt} (hopening : opening.kind = .leftBrace)
    (hbody : ReadsDeclarations body ⟨ts, i⟩ ⟨closing :: us, j⟩) (hclosing : closing.kind = .rightBrace) :
    ReadsBlock body ⟨opening :: ts, i⟩ ⟨us, j⟩ := by
  refine ⟨opening, ts, rfl, hopening, fun n errors hn => ?_⟩
  obtain ⟨n, rfl⟩ : ∃ m, n = m + 1 := ⟨n - 1, by omega⟩
  have hread := hbody.inBlock n (n + 1) errors (by simp only; omega) (by simp only; omega)
    (begins_cons.mpr hclosing)
  refine (bind_of_ok hread).trans ?_
  exact bind_of_ok (expect_cons hclosing)

/-! ### The induction -/

/-- What the readers make of the tokens of a phrase. -/
def Complete : Phrase → Input → Input → Prop
  | .expr tier e, s, t => Extends tier e s t
  | .option e, s, t => ReadsOptional e s t
  | .arguments es, s, t =>
    es = [] ∧ s = t ∨ es ≠ [] ∧ BeginsIn expressionStarts s.tokens ∧ ReadsArguments es s t
  | .parameters names, s, t =>
    names = [] ∧ s = t ∨ names ≠ [] ∧ Begins .identifier s.tokens ∧ ReadsParameters names s t
  | .callable params body, s, t => ReadsCallable params body s t
  | .function decl, s, t => ReadsFunction decl s t
  | .functions decls, s, t => ReadsFunctions decls s t
  | .block body, s, t => ReadsBlock body s t
  | .variable a, s, t => ReadsVariable a s t
  | .exprStmt a, s, t => ∀ n errors, s.tokens.length ≤ n →
    expressionStatement (rules n) (s.cursor errors) = .ok a (t.cursor errors)
  | .forInit o, s, t => ReadsInit o s t
  | .statement isOpen a, s, t => ReadsStatement isOpen a s t
  | .declaration a, s, t => ReadsDeclaration a s t
  | .declarations ss, s, t => ReadsDeclarations ss s t
  | .program _, _, _ => True
  | .whole _, _, _ => True

theorem Derives.complete {φ : Phrase} (h : Derives φ s t) : Complete φ s t := by
  induction h with
  | tighter hprimary he ih => exact tighter_extends hprimary he ih
  | assignName hname hequals _ ih => exact assignName_extends hname hequals ih
  | assignProperty hobject hdot hname hequals _ ih ih' =>
      exact assignProperty_extends hobject ih hdot hname hequals ih'
  | joined hleft hoperator hright ih ih' => exact joined_extends hleft ih hoperator hright ih'
  | unary hoperator _ ih => exact unary_extends hoperator ih
  | call hcallee hopening harguments hlength hclosing ih ih' =>
      have hshort := harguments.length_le
      simp only [Phrase.least, List.length_cons] at hshort
      exact call_extends hcallee ih hopening (by omega) (ih'.imp_right (·.2)) hlength hclosing
  | property _ hdot hname ih => exact property_extends ih hdot hname
  | falseLiteral ht | trueLiteral ht | nilLiteral ht | numberLiteral ht | textLiteral ht | this ht
  | ident ht =>
      refine primary_extends fun n errors _ => ?_
      rw [primary, bind_of_ok next?_eq]
      simp only [Input.cursor, List.head?_cons, ht]
      rfl
  | super hkeyword hdot hmethod => exact super_extends hkeyword hdot hmethod
  | group hopening _ hclosing ih => exact group_extends hopening ih hclosing
  | anonymous hkeyword _ ih => exact anonymous_extends hkeyword ih
  | missing => exact .inl ⟨rfl, rfl⟩
  | present he ih => exact .inr ⟨_, rfl, he.beginsIn (List.cons_ne_nil _ _), ih⟩
  | noArguments => exact .inl ⟨rfl, rfl⟩
  | lastArgument he ih => exact .inr ⟨by simp, he.beginsIn (List.cons_ne_nil _ _), lastArgument_reads he ih⟩
  | moreArguments he hcomma _ hmore ih ih' =>
      obtain ⟨rfl, -⟩ | ⟨-, -, hrest⟩ := ih'
      · exact absurd rfl hmore
      · exact .inr ⟨by simp, he.beginsIn (List.cons_ne_nil _ _), moreArguments_read he ih hcomma hrest⟩
  | noParameters => exact .inl ⟨rfl, rfl⟩
  | lastParameter hname => exact .inr ⟨by simp, begins_cons.mpr hname, lastParameter_reads hname⟩
  | moreParameters hname hcomma _ hmore ih =>
      obtain ⟨rfl, -⟩ | ⟨-, -, hrest⟩ := ih
      · exact absurd rfl hmore
      · exact .inr ⟨by simp, begins_cons.mpr hname, moreParameters_read hname hcomma hrest⟩
  | callable hopening hparams hlength hclosing _ ih ih' =>
      have hshort := hparams.length_le
      simp only [Phrase.least, List.length_cons] at hshort
      exact callable_reads hopening (ih.imp_right (·.2)) (by omega) hlength hclosing ih'
  | function hname _ ih => exact function_reads hname ih
  | noFunctions => exact noFunctions_read
  | moreFunctions hd _ ih ih' =>
      have hshort := hd.length_le
      obtain ⟨kind, hkind, hstart⟩ := hd.beginsIn (List.cons_ne_nil _ _)
      rw [Phrase.starts, List.mem_singleton] at hkind
      exact moreFunctions_read (hkind ▸ hstart) hshort ih ih'
  | block hopening _ hclosing ih => exact block_reads hopening ih hclosing
  | bareVariable hkeyword hname hsemicolon => exact bareVariable_reads hkeyword hname hsemicolon
  | setVariable hkeyword hname hequals _ hsemicolon ih =>
      exact setVariable_reads hkeyword hname hequals ih hsemicolon
  | exprStmt _ hsemicolon ih => exact fun n errors hn => exprStmt_reads ih hsemicolon hn errors
  | noInit hsemicolon => exact noInit_reads hsemicolon
  | variableInit _ ih => exact variableInit_reads ih
  | exprInit ha ih => exact exprInit_reads (ha.beginsIn (List.cons_ne_nil _ _)) ih
  | simple ha ih => exact simple_reads (ha.beginsIn (List.cons_ne_nil _ _)) ih
  | print hkeyword _ hsemicolon ih => exact print_reads hkeyword ih hsemicolon
  | ret hkeyword _ hsemicolon ih => exact ret_reads hkeyword ih hsemicolon
  | compound _ ih => exact compound_reads ih
  | loop hkeyword hopening hcondition hclosing _ ih ih' =>
      have hshort := hcondition.length_le
      simp only [Phrase.least, List.length_cons] at hshort
      exact loop_reads hkeyword hopening ih hclosing (by omega) ih'
  | forLoop hkeyword hopening hinit hcondition hsemicolon hincrement hclosing _ htree ihinit ihcond
      ihincr ihbody =>
      obtain rfl := forTree_iff.mp htree
      have hus := hinit.length_le
      have hvs := hcondition.length_le
      have hws := hincrement.length_le
      simp only [Phrase.least, List.length_cons] at hus hvs hws
      exact forLoop_reads hkeyword hopening ihinit ihcond hsemicolon ihincr hclosing (by omega)
        (by omega) (by omega) ihbody
  | ifThen hkeyword hopening hcondition hclosing _ ih ih' =>
      have hshort := hcondition.length_le
      simp only [Phrase.least, List.length_cons] at hshort
      exact ifThen_reads hkeyword hopening ih hclosing (by omega) ih'
  | ifElse hkeyword hopening hcondition hclosing hthen hotherwise _ ihcond ihthen ihelse =>
      have hshort := hcondition.length_le
      have hshort' := hthen.length_le
      simp only [Phrase.least, List.length_cons] at hshort hshort'
      exact ifElse_reads hkeyword hopening ihcond hclosing (by omega) ihthen hotherwise (by omega)
        ihelse
  | baseClass hkeyword hname hopening _ hclosing ih =>
      exact baseClass_reads hkeyword hname hopening ih hclosing
  | derivedClass hkeyword hname hless hparent hopening _ hclosing ih =>
      exact derivedClass_reads hkeyword hname hless hparent hopening ih hclosing
  | functionDecl hkeyword hd ih =>
      obtain ⟨kind, hkind, first, hfirst, rfl⟩ := hd.beginsIn (List.cons_ne_nil _ _)
      rw [Phrase.starts, List.mem_singleton] at hkind
      obtain ⟨us, rfl⟩ := List.head?_eq_some_iff.mp hfirst
      exact functionDecl_reads hkeyword hkind ih
  | variableDecl _ ih => exact variableDecl_reads ih
  | statementDecl ha ih => exact statementDecl_reads ha ih
  | noDeclarations => exact noDeclarations_read
  | moreDeclarations ha hrest ih ih' => exact moreDeclarations_read ha ih hrest ih'
  | program => trivial
  | whole => trivial

end LoxLang.Grammar
