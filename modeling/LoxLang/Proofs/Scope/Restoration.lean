import LoxLang.Proofs.Grammar.Acceptance
import LoxLang.Proofs.Grammar.Laws
import LoxLang.Proofs.Scope.Relabel
import LoxLang.Proofs.Syntax.Renumber

/-!
Contexts that are restored. Whatever the static walk comes from, and whatever errors there are in a tree,
it leaves an expression or a function in the context that it entered it in, but for what it has found; and
it leaves a statement with the name marked that the statement declares. So it is at the top level again
behind each statement of a program, and finds there what it would find if the program began there.
-/

namespace LoxLang

open Scope Grammar

namespace Scope

/-! ### What is found at the top level -/

/-- The context at the top level, behind some findings. -/
def Findings.context (f : Findings) : Context :=
  { Context.initial with errors := f.errors, distances := f.distances }

/-- What is found first, and what is found behind it. -/
def Findings.followedBy (f g : Findings) : Findings :=
  ⟨f.errors ++ g.errors, g.distances ++ f.distances⟩

theorem markAll_nil (names : List String) : markAll names [] = [] :=
  (markAll_eq_nil names []).mpr rfl

end Scope

theorem walkStmts_append (ss ss' : List Stmt) (c : Context) :
    walkStmts (ss ++ ss') c = walkStmts ss' (walkStmts ss c) := by
  induction ss generalizing c with
  | nil => rfl
  | cons s ss ih => exact ih _

/-- Behind a program the walk is at the top level again. -/
theorem walkStmts_initial (ss : List Stmt) :
    walkStmts ss .initial = (resolveProgram ss).context := by
  have hbehind := walkStmts_behind ss .initial
  have hscopes := hbehind.scopes.trans (markAll_nil _)
  have hfunction := hbehind.functionKind
  have hclass := hbehind.classKind
  unfold resolveProgram
  generalize walkStmts ss .initial = c at *
  obtain ⟨scopes, functionKind, classKind, errors, distances⟩ := c
  cases hscopes
  cases hfunction
  cases hclass
  rfl

namespace Scope

theorem relabel_zero_context (f g : Findings) :
    g.context.relabel (.renumber 0) f.errors f.distances = (f.followedBy g).context := by
  have herrors : g.errors.map (StaticError.relabel (.renumber 0)) = g.errors := List.map_id _
  have hdistances : relabelDistances (.renumber 0) g.distances = g.distances := by
    refine (List.map_congr_left fun p _ => ?_).trans (List.map_id _)
    rw [Relabelling.renumber, UInt64.add_zero]
    rfl
  unfold Context.relabel
  rw [Findings.context, herrors, hdistances]
  rfl

/-- A program finds the same behind whatever has been found. -/
theorem walkStmts_context (ss : List Stmt) (f : Findings) :
    walkStmts ss f.context = (f.followedBy (resolveProgram ss)).context := by
  have hbegin : f.context = Context.initial.relabel (.renumber 0) f.errors f.distances := by
    simp [Findings.context, Context.relabel, Context.initial, relabelDistances]
  have hwalk : walkStmts (relabelStmts (.renumber 0) ss) f.context =
      (walkStmts ss .initial).relabel (.renumber 0) f.errors f.distances :=
    hbegin ▸ walkStmts_relabel ss .initial
  rw [relabelStmts_zero] at hwalk
  rw [hwalk, walkStmts_initial, relabel_zero_context]

theorem resolveProgram_append (ss ss' : List Stmt) :
    resolveProgram (ss ++ ss') = (resolveProgram ss).followedBy (resolveProgram ss') := by
  have hwalk : walkStmts (ss ++ ss') .initial =
      ((resolveProgram ss).followedBy (resolveProgram ss')).context := by
    rw [walkStmts_append, walkStmts_initial, walkStmts_context]
  exact congrArg Context.findings hwalk

/-- What is found in a program is what is found in each of its statements alone, the distances that are
entered last in front. -/
theorem resolveProgram_flatMap (ss : List Stmt) :
    resolveProgram ss = ⟨ss.flatMap fun s => (resolveProgram [s]).errors,
      ss.reverse.flatMap fun s => (resolveProgram [s]).distances⟩ := by
  induction ss with
  | nil => rfl
  | cons s ss ih =>
      have happend := resolveProgram_append [s] ss
      rw [List.singleton_append] at happend
      rw [happend, Findings.followedBy, ih]
      simp

/-! ### The law -/

end Scope

/-- The law of restored contexts. From whatever context the walk comes, it leaves scopes and kinds of an
expression or a function as they were, and of a statement with the name marked in the innermost scope
that the statement declares. -/
def Law.restoring : Law where
  node
    | .expr e, _ => ∀ c : Context, c.Behind [] (e.walk c)
    | .stmt s, _ => ∀ c : Context, c.Behind s.declared?.toList (s.walk c)
  function d _ := ∀ kind (c : Context), c.Behind [] (d.walk kind c)

theorem Law.grammatical_restoring : Law.restoring.Grammatical where
  expr e _ _ := e.walk_behind
  stmt s _ hs c := hs ▸ s.walk_behind c
  function d _ := d.walk_behind

namespace Scope

/-- All nodes and functions of a tree that is read restore the context of the walk, wherever they stand
and with errors in them or without. So the errors and the distances of a program are those of its
statements, each of them resolved alone. -/
theorem contexts_restored :
    (∀ tokens i ss j, parseProgram tokens i = ⟨.ok ss, j⟩ → ObeysStmts .restoring .none ss) ∧
      (∀ tokens i e j, parseExpression tokens i = ⟨.ok e, j⟩ → e.Obeys .restoring .none) ∧
      ∀ ss : List Stmt,
        (resolveProgram ss).errors = ss.flatMap (fun s => (resolveProgram [s]).errors) ∧
          (resolveProgram ss).distances = ss.reverse.flatMap fun s => (resolveProgram [s]).distances := by
  refine ⟨fun tokens i ss j hread => ?_, fun tokens i e j hread => ?_, fun ss => ?_⟩
  · exact (parseProgram_iff_derives.mp hread).obeys Law.grammatical_restoring .none
  · exact (parseExpression_iff_derives.mp hread).obeys Law.grammatical_restoring .none
  · have hfindings := resolveProgram_flatMap ss
    exact ⟨congrArg Findings.errors hfindings, congrArg Findings.distances hfindings⟩

/-- A class that inherits from itself, whose initializer returns a value, and a block with a variable that
is read in its own initializer. The class is walked in a method, where a variable of its name is not
ready. -/
theorem contexts_restored_class :
    let word (text : String) : Token := ⟨.identifier, text, 1⟩
    let method : Stmt := .ret ⟨.kwReturn, "return", 1⟩ (some (.super ⟨1, ⟨.kwSuper, "super", 1⟩⟩ (word "m")))
    let ownClass : Stmt := .classDecl (word "C") (some ⟨0, word "C"⟩) [.mk (some (word "init")) 1 [] [method]]
    let block : Stmt := .block [.var (word "a") (some (.ident ⟨2, word "a"⟩))]
    let tokens : List Token :=
      [⟨.kwClass, "class", 1⟩, word "C", ⟨.less, "<", 1⟩, word "C", ⟨.leftBrace, "\x7b", 1⟩, word "init",
        ⟨.leftParen, "(", 1⟩, ⟨.rightParen, ")", 1⟩, ⟨.leftBrace, "\x7b", 1⟩, ⟨.kwReturn, "return", 1⟩,
        ⟨.kwSuper, "super", 1⟩, ⟨.dot, ".", 1⟩, word "m", ⟨.semicolon, ";", 1⟩, ⟨.rightBrace, "\x7d", 1⟩,
        ⟨.rightBrace, "\x7d", 1⟩, ⟨.leftBrace, "\x7b", 1⟩, ⟨.kwVar, "var", 1⟩, word "a",
        ⟨.equal, "=", 1⟩, word "a", ⟨.semicolon, ";", 1⟩, ⟨.rightBrace, "\x7d", 1⟩, .eof 1]
    let c : Context := ⟨[[("x", true), ("C", false)], [("C", true)]], .method, .base, [], []⟩
    parseProgram tokens 0 = ⟨.ok [ownClass, block], 3⟩ ∧
      (ownClass.walk c).scopes = [[("x", true), ("C", true)], [("C", true)]] ∧
      (ownClass.walk c).functionKind = .method ∧ (ownClass.walk c).classKind = .base ∧
      (resolveProgram [ownClass, block]).errors.map StaticError.cause =
        [.inheritsItself, .returnsValue, .readInInitializer] ∧
      (resolveProgram [ownClass, block]).distances = [(2, 0), (1, 2)] := by
  intro word method ownClass block tokens c
  have hread : parseProgram tokens 0 = ⟨.ok [ownClass, block], 3⟩ := by rfl
  obtain ⟨hprograms, -, hfindings⟩ := contexts_restored
  obtain ⟨hclass, -⟩ := hprograms _ _ _ _ hread
  unfold Stmt.Obeys at hclass
  obtain ⟨hscopes, hfunction, hkind⟩ := hclass.1 c
  obtain ⟨herrors, hdistances⟩ := hfindings [ownClass, block]
  refine ⟨hread, hscopes, hfunction, hkind, ?_, ?_⟩
  · rw [herrors]
    rfl
  · rw [hdistances]
    rfl

end Scope

end LoxLang
