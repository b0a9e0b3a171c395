import LoxLang.Proofs.Grammar.Reading

/-!
What can stand where. The readers choose between rules by the next token or two, which is right because
the phrases between which they choose begin with different tokens. They stop repeating a rule at a
token that does not continue it, which is right because that token belongs to a rule that binds looser.
-/

namespace LoxLang.Grammar

/-! ### Length -/

/-- The least number of tokens that a phrase is derived from. -/
def Phrase.least : Phrase → Nat
  | .option _ | .arguments _ | .parameters _ | .functions _ | .declarations _ => 0
  | _ => 1

theorem Derives.length_le {φ : Phrase} {s t : Input} (h : Derives φ s t) :
    t.tokens.length + φ.least ≤ s.tokens.length := by
  induction h <;> simp only [Phrase.least, List.length_cons, List.length_append] at * <;> omega

/-! ### First tokens -/

/-- The tokens that an expression of the levels of calls begins with. -/
def callStarts : List Kind :=
  [.kwFalse, .kwTrue, .kwNil, .number, .string, .kwThis, .identifier, .kwSuper, .leftParen, .kwFun]

def expressionStarts : List Kind :=
  [.bang, .minus] ++ callStarts

def statementStarts : List Kind :=
  [.kwFor, .kwIf, .kwPrint, .kwReturn, .kwWhile, .leftBrace] ++ expressionStarts

/-- The tokens that a phrase which takes one at least can begin with. -/
def Phrase.starts : Phrase → List Kind
  | .expr .call _ | .expr .primary _ => callStarts
  | .expr _ _ => expressionStarts
  | .callable _ _ => [.leftParen]
  | .function _ => [.identifier]
  | .block _ => [.leftBrace]
  | .variable _ => [.kwVar]
  | .exprStmt _ => expressionStarts
  | .forInit _ => [.semicolon, .kwVar] ++ expressionStarts
  | .statement _ _ => statementStarts
  | .declaration _ => [.kwClass, .kwVar] ++ statementStarts
  | _ => []

/-- The first token, if any, is of one of the given kinds. -/
def BeginsIn (kinds : List Kind) (ts : List Token) : Prop :=
  ∃ kind ∈ kinds, Begins kind ts

theorem BeginsIn.mono {kinds kinds' : List Kind} {ts : List Token} (hsub : kinds ⊆ kinds')
    (h : BeginsIn kinds ts) : BeginsIn kinds' ts := by
  obtain ⟨kind, hmem, hts⟩ := h
  exact ⟨kind, hsub hmem, hts⟩

theorem BeginsIn.not_begins {kinds : List Kind} {kind : Kind} {ts : List Token}
    (h : BeginsIn kinds ts) (hkind : kind ∉ kinds) : ¬Begins kind ts := by
  obtain ⟨kind', hmem, t, ht, rfl⟩ := h
  rintro ⟨t', ht', rfl⟩
  cases Option.mem_unique ht ht'
  exact hkind hmem

theorem beginsIn_cons {kinds : List Kind} {t : Token} {ts : List Token} :
    BeginsIn kinds (t :: ts) ↔ t.kind ∈ kinds := by
  simp [BeginsIn]

theorem callStarts_subset : callStarts ⊆ expressionStarts :=
  List.subset_append_right _ _

theorem expressionStarts_subset : expressionStarts ⊆ statementStarts :=
  List.subset_append_right _ _

theorem Derives.beginsIn {φ : Phrase} {s t : Input} (h : Derives φ s t) (hφ : φ.starts ≠ []) :
    BeginsIn φ.starts s.tokens := by
  induction h with
  | @tighter _ _ tier _ _ _ ih =>
      cases tier with
      | unary => exact (ih nofun).mono callStarts_subset
      | _ => exact ih nofun
  | @joined _ _ _ _ tier _ _ _ _ _ _ ih _ => cases tier <;> exact ih nofun
  | unary hoperator _ _ =>
      refine beginsIn_cons.mpr ?_
      rcases hoperator with h | h <;> simp [h, Phrase.starts, expressionStarts]
  | assignProperty _ _ _ _ _ ih _ => exact (ih nofun).mono callStarts_subset
  | call _ _ _ _ _ ih _ => exact ih nofun
  | property _ _ _ ih => exact ih nofun
  | exprStmt _ _ ih => exact ih nofun
  | variableInit _ ih => exact (ih nofun).mono (by simp [Phrase.starts])
  | exprInit _ ih => exact (ih nofun).mono (List.subset_append_right _ _)
  | simple _ ih => exact (ih nofun).mono expressionStarts_subset
  | compound _ ih => exact (ih nofun).mono (by simp [Phrase.starts, statementStarts])
  | variableDecl _ ih => exact (ih nofun).mono (by simp [Phrase.starts])
  | statementDecl _ ih => exact (ih nofun).mono (List.subset_append_right _ _)
  | missing | present | noArguments | lastArgument | moreArguments | noParameters | lastParameter
  | moreParameters | noFunctions | moreFunctions | noDeclarations | moreDeclarations | program
  | whole => exact absurd rfl hφ
  | _ =>
      refine beginsIn_cons.mpr ?_
      simp_all [Phrase.starts, callStarts, expressionStarts, statementStarts]

def Phrase.isStatement : Phrase → Bool
  | .expr _ _ | .exprStmt _ | .statement _ _ | .block _ => true
  | _ => false

/-- In an expression, the keyword of a function is followed by its parameters, not by a name. -/
theorem Derives.not_named {φ : Phrase} {s t : Input} (h : Derives φ s t)
    (hφ : φ.isStatement = true) {first second : Token} {ts : List Token}
    (hs : s.tokens = first :: second :: ts) (hfirst : first.kind = .kwFun) :
    second.kind ≠ .identifier := by
  induction h generalizing first with
  | anonymous _ hrest _ =>
      obtain ⟨rfl, rfl⟩ := List.cons.inj hs
      have hstart := beginsIn_cons.mp (hrest.beginsIn (List.cons_ne_nil _ _))
      rw [List.mem_singleton.mp hstart]
      decide
  | tighter _ _ ih => exact ih rfl hs hfirst
  | assignProperty _ _ _ _ _ ih _ => exact ih rfl hs hfirst
  | joined _ _ _ ih _ => exact ih rfl hs hfirst
  | call _ _ _ _ _ ih _ => exact ih rfl hs hfirst
  | property _ _ _ ih => exact ih rfl hs hfirst
  | exprStmt _ _ ih => exact ih rfl hs hfirst
  | simple _ ih => exact ih rfl hs hfirst
  | compound _ ih => exact ih rfl hs hfirst
  | unary hoperator _ _ =>
      obtain ⟨rfl, rfl⟩ := List.cons.inj hs
      simp [hfirst] at hoperator
  | _ => simp_all [Phrase.isStatement]

/-! ### Levels of operators -/

/-- The level of the rule that goes on at a token of this kind; the higher, the tighter it binds. -/
def strength : Kind → Nat
  | .equal => 1
  | .kwOr => 2
  | .kwAnd => 3
  | .bangEqual | .equalEqual => 4
  | .greater | .greaterEqual | .less | .lessEqual => 5
  | .minus | .plus => 6
  | .slash | .star => 7
  | .leftParen | .dot => 9
  | _ => 0

/-- The level of a rule, such that only tokens of a higher level continue its operands. -/
def Tier.rank : Tier → Nat
  | assignment => 0
  | disjunction => 2
  | conjunction => 3
  | equality => 4
  | comparison => 5
  | term => 6
  | factor => 7
  | unary => 8
  | call => 9
  | primary => 10

/-- No rule above a level goes on at the next token. -/
def Weak (level : Nat) (ts : List Token) : Prop :=
  ∀ t ∈ ts.head?, strength t.kind ≤ level

theorem Weak.mono {level level' : Nat} {ts : List Token} (hle : level ≤ level')
    (h : Weak level ts) : Weak level' ts :=
  fun t ht => Nat.le_trans (h t ht) hle

theorem Begins.weak {kind : Kind} {level : Nat} {ts : List Token} (h : Begins kind ts)
    (hkind : strength kind ≤ level) : Weak level ts := by
  obtain ⟨t, ht, rfl⟩ := h
  intro t' ht'
  cases Option.mem_unique ht ht'
  exact hkind

theorem Weak.not_begins {kind : Kind} {level : Nat} {ts : List Token} (h : Weak level ts)
    (hkind : level < strength kind) : ¬Begins kind ts := by
  rintro ⟨t, ht, rfl⟩
  have := h t ht
  omega

theorem weak_nil (level : Nat) : Weak level [] :=
  nofun

theorem Tier.rank_lt_next {tier : Tier} (h : tier ≠ .primary) : tier.rank < tier.next.rank := by
  cases tier <;> simp_all [Tier.rank, Tier.next]

theorem Tier.strength_of_mem {tier : Tier} {kind : Kind} (h : kind ∈ tier.operators) :
    strength kind = tier.rank := by
  cases tier <;> simp only [Tier.operators, List.mem_cons, List.not_mem_nil, or_false] at h <;>
    grind [strength, Tier.rank]

end LoxLang.Grammar
