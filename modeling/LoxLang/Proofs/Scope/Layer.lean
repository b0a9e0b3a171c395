import Mathlib.Logic.Equiv.Basic
import LoxLang.Proofs.Store.Heap
import LoxLang.Scope.Walk

/-!
The static surroundings of a place: the constructs around it that open scopes, innermost first. A layer
is one of them, with the names that the walk has found in its scope up to the place. Two programs that
differ in the names of their variables have the same surroundings; a layer also says under which name
the other program has a variable of its scope.
-/

namespace LoxLang

/-- The name that a statement declares where it stands. -/
def Stmt.declared? : Stmt → Option String
  | .var name _ => some name.lexeme
  | .function decl => some decl.name
  | .classDecl name _ _ => some name.lexeme
  | _ => none

namespace Scope

/-! ### Marks -/

/-- Marks a name in the innermost of some scopes. -/
def markIn (name : String) (ready : Bool) : List (Bindings Bool) → List (Bindings Bool)
  | [] => []
  | scope :: outer => scope.insert name ready :: outer

theorem markIn_markIn (name : String) (ready ready' : Bool) (scopes : List (Bindings Bool)) :
    markIn name ready' (markIn name ready scopes) = markIn name ready' scopes := by
  cases scopes with
  | nil => rfl
  | cons scope outer => rw [markIn, markIn, Bindings.insert_insert, markIn]

namespace Context

variable (c : Context)

theorem scopes_mark (name : String) (ready : Bool) :
    (c.mark name ready).scopes = markIn name ready c.scopes := by
  unfold mark
  split
  case h_1 hscopes => rw [hscopes, markIn]
  case h_2 hscopes => rw [hscopes, markIn]

theorem scopes_declare (name : Token) :
    (c.declare name).scopes = markIn name.lexeme false c.scopes := by
  unfold declare
  dsimp only
  split
  · exact c.scopes_mark name.lexeme false
  · exact c.scopes_mark name.lexeme false

theorem scopes_declareAndDefine (name : Token) :
    (c.declareAndDefine name).scopes = markIn name.lexeme true c.scopes := by
  rw [declareAndDefine, define, scopes_mark, scopes_declare, markIn_markIn]

end Context

/-! ### Layers -/

structure Layer where
  /-- What the frame of the scope is opened for. -/
  origin : Origin
  names : Bindings Bool
  rename : Equiv.Perm String

abbrev Layers := List Layer

/-- The scope around a method that holds its receiver. -/
def Layer.receiver : Layer :=
  ⟨.receiver, [("this", true)], .refl _⟩

/-- The scope around the methods of a class that holds its superclass. -/
def Layer.superclass : Layer :=
  ⟨.superclass, [("super", true)], .refl _⟩

namespace Layers

def scopes (Γ : Layers) : List (Bindings Bool) :=
  Γ.map Layer.names

/-- The number of layers between the innermost one and the first that has a name. -/
def distance? (Γ : Layers) (name : String) : Option Nat :=
  Γ.findIdx? (·.names.contains name)

/-- Whether the innermost layer has a name, and whether it is ready. -/
def innermost? : Layers → String → Option Bool
  | [], _ => none
  | l :: _, name => l.names.find? name

/-- Marks a name in the innermost layer; at the top level nothing is marked. -/
def mark (name : String) (ready : Bool) : Layers → Layers
  | [] => []
  | l :: Γ => { l with names := l.names.insert name ready } :: Γ

/-- The name in the other program for a name that is declared here. -/
def here : Layers → String → String
  | [], name => name
  | l :: _, name => l.rename name

/-- The name in the other program for a name that is used here. -/
def nameOf : Layers → String → String
  | [], name => name
  | l :: Γ, name => if l.names.contains name then l.rename name else nameOf Γ name

/-- The layers around the methods of a class. -/
def forMethods (derived : Bool) (Γ : Layers) : Layers :=
  .receiver :: if derived then .superclass :: Γ else Γ

/-- What opened the layer at a distance. -/
def originAt? (Γ : Layers) (d : Nat) : Option Origin :=
  (Γ[d]?).map Layer.origin

/-- The methods of a class are around: the nearest layer with a receiver's name is that of one. -/
def InMethod (Γ : Layers) : Prop :=
  ∃ d, Γ.distance? "this" = some d ∧ Γ.originAt? d = some .receiver

/-- The methods of a class with a superclass are around: the nearest layer with a superclass is right
outside of one with a receiver. -/
def InDerived (Γ : Layers) : Prop :=
  ∃ d, Γ.distance? "super" = some (d + 1) ∧ Γ.originAt? d = some .receiver ∧
    Γ.originAt? (d + 1) = some .superclass

variable {Γ : Layers} {name other : String} {ready : Bool}

theorem distance?_eq_scopes (Γ : Layers) (name : String) :
    Γ.distance? name = Γ.scopes.findIdx? (·.contains name) := by
  rw [distance?, scopes, List.findIdx?_map]
  rfl

theorem scopes_mark (Γ : Layers) : (Γ.mark name ready).scopes = markIn name ready Γ.scopes := by
  cases Γ <;> rfl

theorem distance?_mark (h : name ≠ other) :
    (Γ.mark name ready).distance? other = Γ.distance? other := by
  cases Γ with
  | nil => rfl
  | cons l Γ =>
      have hcontains : (l.names.insert name ready).contains other = l.names.contains other := by
        rw [Bool.eq_iff_iff, Bindings.contains_insert]
        simp [h]
      simp only [mark, distance?, List.findIdx?_cons, hcontains]

theorem nameOf_mark (h : name ≠ other) : (Γ.mark name ready).nameOf other = Γ.nameOf other := by
  cases Γ with
  | nil => rfl
  | cons l Γ =>
      have hcontains : (l.names.insert name ready).contains other = l.names.contains other := by
        rw [Bool.eq_iff_iff, Bindings.contains_insert]
        simp [h]
      simp only [mark, nameOf, hcontains]

variable {d : Nat}

/-- The layer at the distance of a name has it, and gives it its name on the right. -/
theorem layer_of_distance? (h : Γ.distance? name = some d) :
    ∃ l, Γ[d]? = some l ∧ l.names.contains name = true ∧ Γ.nameOf name = l.rename name := by
  induction Γ generalizing d with
  | nil => cases h
  | cons l Γ ih =>
      rw [distance?, List.findIdx?_cons] at h
      split at h
      case isTrue hcontains =>
        cases h
        exact ⟨l, rfl, hcontains, by rw [nameOf, if_pos hcontains]⟩
      case isFalse hcontains =>
        obtain ⟨e, he, rfl⟩ := Option.map_eq_some_iff.mp h
        obtain ⟨l', hl', hhas, hname⟩ := ih he
        exact ⟨l', by simpa using hl', hhas, by rw [nameOf, if_neg hcontains, hname]⟩

theorem nameOf_of_global (h : Γ.distance? name = none) : Γ.nameOf name = name := by
  induction Γ with
  | nil => rfl
  | cons l Γ ih =>
      rw [distance?, List.findIdx?_cons] at h
      split at h
      · cases h
      case isFalse hcontains => rw [nameOf, if_neg hcontains, ih (Option.map_eq_none_iff.mp h)]

end Layers

/-! ### Programs that run alike -/

/-- Two trees of one kind. -/
inductive Pair where
  | expr (e e' : Expr)
  | exprs (es es' : List Expr)
  | decl (d d' : FunctionDecl)
  | methods (ds ds' : List FunctionDecl)
  | stmt (s s' : Stmt)
  | stmts (ss ss' : List Stmt)

/-- A token with a given text in the place of its own, on a line that corresponds to its own. -/
structure TokenTo (L : Nat → Nat → Prop) (lexeme : String) (t t' : Token) : Prop where
  kind : t'.kind = t.kind
  lexeme : t'.lexeme = lexeme
  line : L t.line t'.line

/-- The same token, on a line that corresponds to its own. -/
abbrev SameToken (L : Nat → Nat → Prop) (t t' : Token) : Prop :=
  TokenTo L t.lexeme t t'

/-- The scope of a call before the body: the parameters. -/
def parameterScope (params : List Token) : Bindings Bool :=
  params.foldl (fun b p => b.insert p.lexeme true) []

theorem find?_parameterScope (params : List Token) (name : String) :
    (parameterScope params).find? name = some true ↔ name ∈ params.map Token.lexeme := by
  have key : ∀ (params : List Token) (b : Bindings Bool),
      (params.foldl (fun b p => b.insert p.lexeme true) b).find? name = some true ↔
        name ∈ params.map Token.lexeme ∨ b.find? name = some true := by
    intro params
    induction params with
    | nil => simp
    | cons p params ih =>
        intro b
        rw [List.foldl_cons, ih, Bindings.find?_insert]
        by_cases hp : p.lexeme = name
        · simp [hp]
        · have hp' : ¬name = p.lexeme := fun h => hp h.symm
          simp [hp, hp']
  rw [parameterScope, key]
  simp

theorem contains_parameterScope (params : List Token) (name : String) :
    (parameterScope params).contains name = true ↔ name ∈ params.map Token.lexeme := by
  have key : ∀ (params : List Token) (b : Bindings Bool),
      (params.foldl (fun b p => b.insert p.lexeme true) b).contains name = true ↔
        name ∈ params.map Token.lexeme ∨ b.contains name = true := by
    intro params
    induction params with
    | nil => simp
    | cons p params ih =>
        intro b
        rw [List.foldl_cons, ih, Bindings.contains_insert, List.map_cons, List.mem_cons]
        rw [eq_comm, or_assoc, or_left_comm]
  rw [parameterScope, key]
  simp

/-- The layers behind a statement. -/
def Layers.after (Γ : Layers) (s : Stmt) : Layers :=
  match s.declared? with
  | some name => Γ.mark name true
  | none => Γ

end Scope

end LoxLang
