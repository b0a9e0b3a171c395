import LoxLang.Grammar.Statement
import LoxLang.Proofs.Scope.Inserted
import LoxLang.Proofs.Scope.Relabel
import LoxLang.Proofs.Syntax.Renumber

/-!
`for` statements as they are written. The parser makes other statements of them, which open a scope
around the body and the increment that the text does not show. The static walk over the statement as it
is written opens one scope only, for the variable of the initializer; it finds the same bindings, at
distances that differ by the scope that it does without.
-/

namespace LoxLang

open Scope

theorem Stmt.declares_relabel (μ : Relabelling) : ∀ s : Stmt, (s.relabel μ).declares = s.declares
  | .expr _ | .print _ | .var _ none | .var _ (some _) | .block _ | .ret _ none | .ret _ (some _) |
    .classDecl _ _ _ => rfl
  | .function d => by
    rw [relabel, declares, declares, FunctionDecl.name?_relabel, Option.map_map]
    rfl
  | .branch _ thenBranch none => thenBranch.declares_relabel μ
  | .branch _ thenBranch (some elseBranch) =>
    congrArg₂ (· ++ ·) (thenBranch.declares_relabel μ) (elseBranch.declares_relabel μ)
  | .loop _ body => body.declares_relabel μ

/-- A `for` statement as it is written. Each of its clauses may be missing, and its body is no
declaration. -/
structure ForStatement where
  initializer : Option Stmt
  condition : Option Expr
  increment : Option Expr
  body : Stmt
  plain : body.declares = []

namespace ForStatement

/-- The statement that the parser makes of it. -/
def desugared (f : ForStatement) : Stmt :=
  Grammar.forLoop f.initializer (f.condition.getD (.literal (.bool true))) f.increment f.body

/-- The statement with other identities. -/
def renumbered (k : Identity) (f : ForStatement) : ForStatement where
  initializer := f.initializer.map (Stmt.relabel (.renumber k))
  condition := f.condition.map (Expr.relabel (.renumber k))
  increment := f.increment.map (Expr.relabel (.renumber k))
  body := f.body.relabel (.renumber k)
  plain := by rw [Stmt.declares_relabel, f.plain]

/-! ### The static walk -/

/-- Walks a clause, if it is there. -/
def walkClause : Option Expr → Context → Context
  | none, c => c
  | some e, c => e.walk c

/-- Walks the initializer, in a scope of its own, and what follows in the same scope. -/
def walk (f : ForStatement) (c : Context) : Context :=
  let rounds (c : Context) : Context :=
    walkClause f.increment (f.body.walk (walkClause f.condition c))
  match f.initializer with
  | some s => (rounds (s.walk c.openScope)).closeScope
  | none => rounds c

/-- The constructs around the clauses behind the initializer. -/
def around (f : ForStatement) (p : Path) : Path :=
  match f.initializer with
  | some s => Path.behind s.declares (.block [] :: p)
  | none => p

def usesClause (e : Option Expr) (p : Path) : List Use :=
  (e.map fun e => e.uses p).getD []

/-- The uses of the initializer, which is in a scope of its own. -/
def usesInitializer (f : ForStatement) (p : Path) : List Use :=
  (f.initializer.map fun s => s.uses (.block [] :: p)).getD []

def uses (f : ForStatement) (p : Path) : List Use :=
  f.usesInitializer p ++ (usesClause f.condition (f.around p) ++
    (f.body.uses (f.around p) ++ usesClause f.increment (f.around p)))

variable {f : ForStatement} {c : Context} {p : Path} {k : Identity}

/-- What a walk from a context adds to the table is what some uses enter. -/
def Enters (c c' : Context) (us : List Use) : Prop :=
  c'.distances = (us.filterMap Use.entry?).reverse ++ c.distances

theorem Enters.append {c' c'' : Context} {us us' : List Use} (h : Enters c c' us)
    (h' : Enters c' c'' us') : Enters c c'' (us ++ us') := by
  rw [Enters, h', h, List.filterMap_append, List.reverse_append, List.append_assoc]

theorem enters_expr (e : Expr) (h : c.Knows p) : Enters c (e.walk c) (e.uses p) := by
  have hwalk := (e.walk_spec c []).distances
  rwa [e.entries_uses [] h] at hwalk

theorem enters_clause (e : Option Expr) (h : c.Knows p) :
    Enters c (walkClause e c) (usesClause e p) ∧ (walkClause e c).Knows p := by
  cases e with
  | none => exact ⟨rfl, h⟩
  | some e => exact ⟨enters_expr e h, h.stay (e.walk_behind c)⟩

theorem enters_stmt (s : Stmt) (hdirect : p.Direct) (h : c.Knows p) :
    Enters c (s.walk c) (s.uses p) ∧ (s.walk c).Knows (p.behind s.declares) := by
  have hwalk := (s.walk_spec c []).distances
  rw [s.entries_uses [] hdirect h] at hwalk
  exact ⟨hwalk, h.behind hdirect (s.walk_behind c)⟩

/-- The walk enters the uses of the statement. -/
theorem enters_walk (f : ForStatement) (hdirect : p.Direct) (h : c.Knows p) :
    Enters c (f.walk c) (f.uses p) := by
  have hrounds : ∀ {c : Context} {p : Path}, p.Direct → c.Knows p →
      Enters c (walkClause f.increment (f.body.walk (walkClause f.condition c)))
        (usesClause f.condition p ++ (f.body.uses p ++ usesClause f.increment p)) := by
    intro c p hdirect h
    obtain ⟨hcondition, hknows⟩ := enters_clause f.condition h
    obtain ⟨hbody, hknows⟩ := enters_stmt f.body hdirect hknows
    rw [f.plain, Path.behind_nil] at hknows
    exact hcondition.append (hbody.append (enters_clause f.increment hknows).1)
  unfold walk uses usesInitializer around
  cases f.initializer with
  | none => exact hrounds hdirect h
  | some s =>
      obtain ⟨hinitializer, hknows⟩ := enters_stmt s .block h.block
      exact hinitializer.append (hrounds Path.Direct.block.behind hknows)

/-! ### Other identities -/

theorem walkClause_relabel {μ : Relabelling} {es : List StaticError} {ds : Distances}
    (e : Option Expr) (c : Context) :
    walkClause (e.map (Expr.relabel μ)) (c.relabel μ es ds) = (walkClause e c).relabel μ es ds := by
  cases e with
  | none => rfl
  | some e => exact e.walk_relabel c

/-- Walking the statement with other identities finds what walking the statement finds, under these. -/
theorem walk_renumbered {es : List StaticError} {ds : Distances} (f : ForStatement) (c : Context) :
    (f.renumbered k).walk (c.relabel (.renumber k) es ds) =
      (f.walk c).relabel (.renumber k) es ds := by
  have hrounds : ∀ c : Context,
      walkClause (f.renumbered k).increment ((f.renumbered k).body.walk
          (walkClause (f.renumbered k).condition (c.relabel (.renumber k) es ds))) =
        (walkClause f.increment (f.body.walk (walkClause f.condition c))).relabel (.renumber k) es
          ds := by
    intro c
    rw [renumbered, walkClause_relabel, f.body.walk_relabel, walkClause_relabel]
  unfold walk
  dsimp only
  cases hinitializer : f.initializer with
  | none =>
      have hnone : (f.renumbered k).initializer = none := by rw [renumbered, hinitializer]; rfl
      rw [hnone]
      exact hrounds c
  | some s =>
      have hsome : (f.renumbered k).initializer = some (s.relabel (.renumber k)) := by
        rw [renumbered, hinitializer]
        rfl
      rw [hsome]
      dsimp only
      rw [Context.openScope_relabel, s.walk_relabel, hrounds, Context.closeScope_relabel]

/-! ### Addresses -/

/-- The uses behind the initializer in the statement that the parser makes. -/
def usesRepeated (f : ForStatement) (p : Path) : List Use :=
  match f.increment with
  | none => f.body.uses p
  | some e => f.body.uses (.block [] :: p) ++ e.uses (.block [] :: p)

theorem uses_desugared (f : ForStatement) (p : Path) :
    f.desugared.uses p = f.usesInitializer p ++
      (usesClause f.condition (f.around p) ++ f.usesRepeated (f.around p)) := by
  have hcondition : ∀ p : Path, (f.condition.getD (.literal (.bool true))).uses p =
      usesClause f.condition p := by
    intro p
    cases hcondition : f.condition <;> rfl
  have hbehind : ∀ p : Path, p.behind f.body.declares = p := fun p => by
    rw [f.plain, Path.behind_nil]
  unfold desugared Grammar.forLoop usesRepeated usesInitializer around
  cases f.initializer <;> cases f.increment <;>
    simp [Stmt.uses, usesStmts, hcondition, hbehind]

/-- The same references are used in the statement that the parser makes. -/
theorem references_uses (f : ForStatement) (p : Path) :
    (f.uses p).map Use.ref = (f.desugared.uses p).map Use.ref := by
  rw [uses_desugared]
  unfold uses usesRepeated
  cases hincrement : f.increment with
  | none => simp [usesClause]
  | some e =>
      simp [usesClause, f.body.references_uses, e.references_uses]

theorem lookup_relabelDistances (T : Distances) (k id : Identity) :
    (relabelDistances (.renumber k) T).lookup (id + k) = T.lookup id := by
  induction T with
  | nil => rfl
  | cons entry T ih =>
      have hsame : (id + k == entry.1 + k) = (id == entry.1) := by
        rw [Bool.eq_iff_iff, beq_iff_eq, beq_iff_eq, UInt64.add_left_inj]
      change List.lookup (id + k) ((entry.1 + k, entry.2) :: relabelDistances (.renumber k) T) = _
      rw [List.lookup_cons, List.lookup_cons, hsame, ih]

/-- What walking the statement under new identities enters. -/
theorem distances_walk (f : ForStatement) (hdirect : p.Direct) (hknows : c.Knows p) :
    ((f.renumbered k).walk c).distances =
      relabelDistances (.renumber k) ((f.uses p).filterMap Use.entry?).reverse ++ c.distances := by
  have hbare : ({ c with errors := [], distances := [] } : Context).Knows p :=
    ⟨hknows.scopes, hknows.classKind⟩
  have hcontext : c = Context.relabel (.renumber k) c.errors c.distances
      { c with errors := [], distances := [] } := by
    simp [Context.relabel, relabelDistances]
  have hentered : (f.walk { c with errors := [], distances := [] }).distances =
      ((f.uses p).filterMap Use.entry?).reverse :=
    (f.enters_walk hdirect hbare).trans (List.append_nil _)
  conv_lhs => rw [hcontext]
  rw [walk_renumbered]
  exact congrArg (fun ds => relabelDistances (.renumber k) ds ++ c.distances) hentered

/-- Where a table already has what the walk found for the statement that the parser makes, walking the
statement as it is written, under new identities, enters the addresses of its uses. -/
theorem lookup_walk (f : ForStatement) (hdirect : p.Direct) (hknows : c.Knows p)
    (hdistinct : ((f.desugared.uses p).map fun u => u.ref.id).Nodup)
    (hfresh : ∀ u ∈ f.uses p, c.distances.lookup (u.ref.id + k) = none) :
    ∀ u ∈ f.uses p, ((f.renumbered k).walk c).distances.lookup (u.ref.id + k) = u.address? := by
  intro u hu
  have hids : ((f.uses p).map fun u => u.ref.id).Nodup := by
    have hrefs := congrArg (List.map Reference.id) (f.references_uses p)
    rw [List.map_map, List.map_map] at hrefs
    exact hrefs ▸ hdistinct
  have hown : ((f.uses p).filterMap Use.entry?).reverse.lookup u.ref.id = u.address? :=
    lookup_filterMap (f := fun u : Use => u.ref.id) hids u hu
  rw [f.distances_walk hdirect hknows, List.lookup_append, lookup_relabelDistances, hown,
    hfresh u hu, Option.or_none]

/-- It enters nothing for other identities. -/
theorem lookup_walk_of_ne {id : Identity} (f : ForStatement) (hdirect : p.Direct)
    (hknows : c.Knows p) (hid : ∀ u ∈ f.uses p, u.ref.id + k ≠ id) :
    ((f.renumbered k).walk c).distances.lookup id = c.distances.lookup id := by
  have hnone : (relabelDistances (.renumber k)
      ((f.uses p).filterMap Use.entry?).reverse).lookup id = none := by
    apply lookup_of_not_mem
    intro entry hentry
    obtain ⟨old, hold, rfl⟩ := List.mem_map.mp hentry
    obtain ⟨u, hu, hentry⟩ := List.mem_filterMap.mp (List.mem_reverse.mp hold)
    obtain ⟨d, -, rfl⟩ := Option.map_eq_some_iff.mp hentry
    exact hid u hu
  rw [f.distances_walk hdirect hknows, List.lookup_append, hnone, Option.none_or]

/-- What is known of the uses in the clauses and in the body. The first side has the statement that the
parser makes, in which there is a scope around body and increment to be passed. -/
structure Known (F : Knowledge) (f : ForStatement) (k : Identity) (p : Path) : Prop where
  initializer : ∀ u ∈ f.usesInitializer p, F k none u
  condition : ∀ u ∈ usesClause f.condition (f.around p), F k none u
  unchanged : f.increment = none → ∀ u ∈ f.body.uses (f.around p), F k none u
  body : f.increment ≠ none → ∀ u ∈ f.body.uses (.block [] :: f.around p),
    F k (some ((f.around p).depth + 1)) u
  increment : ∀ u ∈ usesClause f.increment (.block [] :: f.around p),
    F k (some ((f.around p).depth + 1)) u

theorem known {T T' : Distances} {F : Knowledge} (f : ForStatement)
    (hnames : ∀ names ∈ (f.around p).scopes.head?, "super" ∉ names)
    (hT : ∀ u ∈ f.desugared.uses p, T.lookup u.ref.id = u.address?)
    (hT' : ∀ u ∈ f.uses p, T'.lookup (u.ref.id + k) = u.address?)
    (hF : ∀ u ∈ f.desugared.uses p, ∀ skip, u.Follows T T' k skip → F k skip u) :
    f.Known F k p := by
  rw [uses_desugared] at hT hF
  obtain ⟨hinitializer, hT⟩ := List.forall_mem_append.mp hT
  obtain ⟨hcondition, hrepeated⟩ := List.forall_mem_append.mp hT
  obtain ⟨hinitializer', hT'⟩ := List.forall_mem_append.mp hT'
  obtain ⟨hcondition', hT'⟩ := List.forall_mem_append.mp hT'
  obtain ⟨hbody', hincrement'⟩ := List.forall_mem_append.mp hT'
  obtain ⟨hFinitializer, hF⟩ := List.forall_mem_append.mp hF
  obtain ⟨hFcondition, hFrepeated⟩ := List.forall_mem_append.mp hF
  constructor
  case initializer =>
    intro u hu
    have hsame := (hinitializer' u hu).trans (hinitializer u hu).symm
    exact hFinitializer u hu none (Use.follows_none hsame)
  case condition =>
    intro u hu
    have hsame := (hcondition' u hu).trans (hcondition u hu).symm
    exact hFcondition u hu none (Use.follows_none hsame)
  case unchanged =>
    intro hnone u hu
    rw [usesRepeated, hnone] at hrepeated hFrepeated
    have hsame := (hbody' u hu).trans (hrepeated u hu).symm
    exact hFrepeated u hu none (Use.follows_none hsame)
  case body =>
    intro hsome u hu
    obtain ⟨e, he⟩ := Option.ne_none_iff_exists'.mp hsome
    rw [usesRepeated, he] at hrepeated hFrepeated
    have hu' := List.mem_append_left (e.uses (.block [] :: f.around p)) hu
    have hplain : Path.Holds [] f.body.declares := ⟨Path.sealed_nil, .top, fun _ => f.plain⟩
    have habreast : Abreast (.block [] :: f.around p) (f.around p) _ _ := f.body.uses_abreast hplain
    obtain ⟨v, hv, halongside⟩ := habreast.exists hu
    exact hFrepeated u hu' _ (halongside.follows hnames (hrepeated u hu') (hbody' v hv))
  case increment =>
    intro u hu
    cases he : f.increment with
    | none =>
        rw [he] at hu
        cases hu
    | some e =>
        rw [he] at hu hincrement'
        rw [usesRepeated, he] at hrepeated hFrepeated
        have hu' := List.mem_append_right (f.body.uses (.block [] :: f.around p)) hu
        have habreast : Abreast (.block [] :: f.around p) (f.around p) _ _ :=
          e.uses_abreast Path.sealed_nil
        obtain ⟨v, hv, halongside⟩ := habreast.exists hu
        exact hFrepeated u hu' _ (halongside.follows hnames (hrepeated u hu') (hincrement' v hv))

end ForStatement

end LoxLang
