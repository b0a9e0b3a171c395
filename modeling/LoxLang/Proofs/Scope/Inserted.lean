import LoxLang.Proofs.Scope.Addresses

/-!
A block that declares nothing. Putting such a block around a place opens one more scope there and
changes nothing else: the same references are used inside of it, each at the address that it had,
counted with one scope more if it is bound outside of the block.
-/

namespace LoxLang

namespace Scope

namespace Path

/-- The number of scopes around a place. -/
def depth (p : Path) : Nat :=
  p.scopes.length

/-- Constructs that declare nothing in the scopes around them. -/
def Sealed (q : Path) : Prop :=
  ∀ p : Path, (q ++ p).scopes = q.scopes ++ p.scopes

variable {p q r : Path}

@[simp]
theorem depth_function (asMethod : Bool) (name : String) (names : List String) (p : Path) :
    depth (.function asMethod name names :: p) = p.depth + 1 :=
  rfl

@[simp]
theorem depth_initializer (name : String) (p : Path) :
    depth (.initializer name :: p) = p.depth :=
  List.length_modifyHead

theorem depth_classBody (derived : Bool) (p : Path) :
    depth (.classBody derived :: p) = (if derived then p.depth + 1 else p.depth) + 1 := by
  cases derived <;> rfl

@[simp]
theorem depth_behind (names : List String) (p : Path) : (p.behind names).depth = p.depth := by
  unfold behind
  split <;> rfl

theorem sealed_nil : Sealed [] :=
  fun _ => rfl

theorem Sealed.block (h : q.Sealed) (names : List String) : Sealed (.block names :: q) :=
  fun p => congrArg (List.cons names) (h p)

theorem Sealed.function (h : q.Sealed) (asMethod : Bool) (name : String) (names : List String) :
    Sealed (.function asMethod name names :: q) :=
  fun p => congrArg (List.cons names) (h p)

theorem Sealed.classBody (h : q.Sealed) (derived : Bool) : Sealed (.classBody derived :: q) := by
  intro p
  cases derived with
  | false => exact congrArg (List.cons ["this"]) (h p)
  | true => exact congrArg (fun scopes => ["this"] :: ["super"] :: scopes) (h p)

/-- A variable is declared in its own initializer, in a scope that must be among the constructs. -/
theorem Sealed.initializer (h : q.Sealed) (hscopes : q.scopes ≠ []) (name : String) :
    Sealed (.initializer name :: q) := by
  intro p
  change (q ++ p).scopes.modifyHead _ = q.scopes.modifyHead _ ++ p.scopes
  rw [h p]
  cases hq : q.scopes with
  | nil => exact absurd hq hscopes
  | cons scope outer => rfl

theorem Sealed.behind (h : q.Sealed) (hdirect : q.Direct) (names : List String) :
    (q.behind names).Sealed := by
  cases hdirect with
  | top => exact h
  | block | function =>
      intro p
      have hp := h p
      simp only [List.cons_append, scopes, List.cons.injEq, true_and] at hp
      simp only [Path.behind, List.cons_append, scopes, hp]

theorem Direct.scopes_ne_nil (h : q.Direct) (hq : q ≠ []) : q.scopes ≠ [] := by
  cases h with
  | top => exact absurd rfl hq
  | block | function => exact List.cons_ne_nil _ _

/-- What is declared among some constructs is not declared around them. -/
theorem Direct.behind_append (h : q.Direct) (hq : q ≠ []) (names : List String) (p : Path) :
    (q ++ p).behind names = q.behind names ++ p := by
  cases h with
  | top => exact absurd rfl hq
  | block | function => rfl

theorem class?_append (q : Path) (h : p.class? = r.class?) : (q ++ p).class? = (q ++ r).class? := by
  induction q with
  | nil => exact h
  | cons around q ih => cases around <;> first | rfl | exact ih

end Path

/-- Two uses of a reference at one place inside of two paths. -/
structure Use.Alongside (p r : Path) (u v : Use) : Prop where
  ref : v.ref = u.ref
  ofReceiver : v.ofReceiver = u.ofReceiver
  inside : ∃ q : Path, q.Sealed ∧ u.path = q ++ p ∧ v.path = q ++ r

theorem Use.alongside {q : Path} (h : q.Sealed) (p r : Path) (ref : Reference)
    (ofReceiver : Bool) : Alongside p r ⟨ref, ofReceiver, q ++ p⟩ ⟨ref, ofReceiver, q ++ r⟩ :=
  ⟨rfl, rfl, q, h, rfl, rfl⟩

/-- Uses inside of two paths, one by one alongside. -/
abbrev Abreast (p r : Path) (us vs : List Use) : Prop :=
  List.Forall₂ (Use.Alongside p r) us vs

theorem Abreast.append {p r : Path} {us us' vs vs' : List Use} (h : Abreast p r us vs)
    (h' : Abreast p r us' vs') : Abreast p r (us ++ us') (vs ++ vs') :=
  List.rel_append h h'

/-- Where statements stand inside of a path: those that stand there directly declare nothing. -/
structure Path.Holds (q : Path) (names : List String) : Prop where
  closed : q.Sealed
  direct : q.Direct
  nothing : q = [] → names = []

variable {q : Path} {names names' : List String}

theorem Path.Holds.ne_nil (h : q.Holds names) (hnames : names ≠ []) : q ≠ [] :=
  fun hq => hnames (h.nothing hq)

theorem Path.Holds.sub (h : q.Holds names) (hnames : names = [] → names' = []) : q.Holds names' :=
  ⟨h.closed, h.direct, fun hq => hnames (h.nothing hq)⟩

/-- Behind a declaration the two paths go on alike. -/
theorem Path.Holds.behind_append (h : q.Holds names) (p : Path) :
    (q ++ p).behind names = q.behind names ++ p := by
  by_cases hq : q = []
  · rw [hq, h.nothing hq, List.nil_append, behind_nil, behind_nil, List.nil_append]
  · exact h.direct.behind_append hq names p

theorem Path.Holds.behind (h : q.Holds (names ++ names')) : (q.behind names).Holds names' where
  closed := h.closed.behind h.direct names
  direct := h.direct.behind
  nothing hq := (List.append_eq_nil_iff.mp (h.nothing ((behind_eq_nil names).mp hq))).2

theorem Path.Holds.block (h : q.Sealed) : Path.Holds (.block [] :: q) names :=
  ⟨h.block [], .block, nofun⟩

end Scope

open Scope

variable {p r : Path}

mutual

theorem Expr.uses_abreast : ∀ (e : Expr) {q : Path}, q.Sealed →
    Abreast p r (e.uses (q ++ p)) (e.uses (q ++ r))
  | .literal _, _, _ => .nil
  | .group inner, _, h => inner.uses_abreast h
  | .unary _ right, _, h => right.uses_abreast h
  | .binary left _ right, _, h => (left.uses_abreast h).append (right.uses_abreast h)
  | .logical left _ right, _, h => (left.uses_abreast h).append (right.uses_abreast h)
  | .ident ref, _, h => .cons (Use.alongside h p r ref false) .nil
  | .assign ref value, _, h =>
    (value.uses_abreast h).append (.cons (Use.alongside h p r ref false) .nil)
  | .call callee _ arguments, _, h => (callee.uses_abreast h).append (usesExprs_abreast arguments h)
  | .function decl, _, h => decl.uses_abreast false h
  | .get object _, _, h => object.uses_abreast h
  | .set object _ value, _, h => (object.uses_abreast h).append (value.uses_abreast h)
  | .this ref, _, h => .cons (Use.alongside h p r ref true) .nil
  | .super ref _, _, h => .cons (Use.alongside h p r ref false) .nil

theorem usesExprs_abreast : ∀ (es : List Expr) {q : Path}, q.Sealed →
    Abreast p r (usesExprs es (q ++ p)) (usesExprs es (q ++ r))
  | [], _, _ => .nil
  | e :: rest, _, h => (e.uses_abreast h).append (usesExprs_abreast rest h)

theorem FunctionDecl.uses_abreast : ∀ (d : FunctionDecl) (asMethod : Bool) {q : Path}, q.Sealed →
    Abreast p r (d.uses asMethod (q ++ p)) (d.uses asMethod (q ++ r))
  | .mk name line params body, asMethod, q, h => by
    have hbody : Path.Holds (.function asMethod (FunctionDecl.mk name line params body).name [] :: q)
        (params.map Token.lexeme ++ body.flatMap Stmt.declares) :=
      ⟨h.function asMethod _ [], .function, nofun⟩
    exact usesStmts_abreast body hbody.behind

theorem Stmt.uses_abreast : ∀ (s : Stmt) {q : Path}, q.Holds s.declares →
    Abreast p r (s.uses (q ++ p)) (s.uses (q ++ r))
  | .expr value, _, h | .print value, _, h => value.uses_abreast h.closed
  | .var _ none, _, _ => .nil
  | .var name (some value), q, h =>
    value.uses_abreast
      (h.closed.initializer (h.direct.scopes_ne_nil (h.ne_nil (List.cons_ne_nil _ _))) name.lexeme)
  | .block body, _, h => usesStmts_abreast body (.block h.closed)
  | .branch condition thenBranch none, _, h =>
    (condition.uses_abreast h.closed).append (thenBranch.uses_abreast h)
  | .branch condition thenBranch (some elseBranch), q, h => by
    have hthen : q.Holds thenBranch.declares := h.sub fun hnil => (List.append_eq_nil_iff.mp hnil).1
    have hwhole := (condition.uses_abreast h.closed).append
      ((thenBranch.uses_abreast hthen).append (elseBranch.uses_abreast h.behind))
    rwa [← hthen.behind_append, ← hthen.behind_append] at hwhole
  | .loop condition body, _, h => (condition.uses_abreast h.closed).append (body.uses_abreast h)
  | .function decl, _, h => by
    have hdecl := decl.uses_abreast false
      (h.closed.behind h.direct (Stmt.function decl).declares)
    rwa [← h.behind_append, ← h.behind_append] at hdecl
  | .ret _ none, _, _ => .nil
  | .ret _ (some value), _, h => value.uses_abreast h.closed
  | .classDecl name superclass methods, q, h => by
    replace h : q.Holds [name.lexeme] := h
    have hclosed := h.closed.behind h.direct [name.lexeme]
    have hmethods := usesMethods_abreast methods
      (hclosed.classBody superclass.isSome)
    rw [List.cons_append, List.cons_append, ← h.behind_append, ← h.behind_append] at hmethods
    refine Abreast.append ?_ hmethods
    cases superclass with
    | none => exact .nil
    | some ref =>
        have huse := Use.alongside hclosed p r ref false
        rw [← h.behind_append, ← h.behind_append] at huse
        exact .cons huse .nil

theorem usesStmts_abreast : ∀ (ss : List Stmt) {q : Path}, q.Holds (ss.flatMap Stmt.declares) →
    Abreast p r (usesStmts ss (q ++ p)) (usesStmts ss (q ++ r))
  | [], _, _ => .nil
  | s :: rest, q, h => by
    have hfirst : q.Holds s.declares := h.sub fun hnil => (List.append_eq_nil_iff.mp hnil).1
    have hrest := usesStmts_abreast rest h.behind
    rw [← hfirst.behind_append, ← hfirst.behind_append] at hrest
    exact (s.uses_abreast hfirst).append hrest

theorem usesMethods_abreast : ∀ (ds : List FunctionDecl) {q : Path}, q.Sealed →
    Abreast p r (usesMethods ds (q ++ p)) (usesMethods ds (q ++ r))
  | [], _, _ => .nil
  | d :: rest, _, h => (d.uses_abreast true h).append (usesMethods_abreast rest h)

end

/-! ### Addresses -/

namespace Scope

/-- A distance from a place at the depth `n`, counted without a scope that is inside of `w - 1` others. -/
def passing (skip : Option Nat) (n d : Nat) : Nat :=
  match skip with
  | none => d
  | some w => if n < d + w then d - 1 else d

/-- Two neighbours stay neighbours unless the inner one is the scope to pass. -/
theorem passing_succ {skip : Option Nat} {n d : Nat} (hskip : ∀ w ∈ skip, w ≤ n ∧ d + w ≠ n) :
    passing skip n (d + 1) = passing skip n d + 1 := by
  cases skip with
  | none => rfl
  | some w =>
      obtain ⟨hle, hne⟩ := hskip w rfl
      unfold passing
      dsimp only
      split <;> split <;> omega

/-- Seen from the next scope, everything outside of it is one scope nearer. -/
theorem passing_outer {skip : Option Nat} {n d : Nat} (hskip : ∀ w ∈ skip, w < n) :
    passing skip n (d + 1) = passing skip (n - 1) d + 1 := by
  cases skip with
  | none => rfl
  | some w =>
      have hlt := hskip w rfl
      unfold passing
      dsimp only
      split <;> split <;> omega

theorem passing_zero {skip : Option Nat} {n : Nat} (hskip : ∀ w ∈ skip, w ≤ n) :
    passing skip n 0 = 0 := by
  cases skip with
  | none => rfl
  | some w =>
      have hle := hskip w rfl
      unfold passing
      dsimp only
      split <;> omega

theorem findIdx?_inserted {α : Type} {test : α → Bool} {x : α} (hx : test x = false)
    (inner outer : List α) (w : Nat) :
    (inner ++ outer).findIdx? test =
      ((inner ++ x :: outer).findIdx? test).map (passing (some w) (inner.length + w)) := by
  rw [List.findIdx?_append, List.findIdx?_append, List.findIdx?_cons, hx]
  cases hinner : inner.findIdx? test with
  | some d =>
      obtain ⟨hd, -⟩ := List.findIdx?_eq_some_iff_getElem.mp hinner
      have hpassing : ¬inner.length + w < d + w := by omega
      simp [passing, hpassing]
  | none =>
      cases houter : outer.findIdx? test with
      | none => simp
      | some d =>
          have hpassing : inner.length + w < d + 1 + inner.length + w := by omega
          simp [passing, hpassing]

/-- What is found in a list with one more element is not the new one, and not the next behind it
either if that is not what is looked for. -/
theorem findIdx?_inserted_ne {α : Type} {test : α → Bool} {x : α} (hx : test x = false)
    {inner outer : List α} {d : Nat} (h : (inner ++ x :: outer).findIdx? test = some d) :
    d ≠ inner.length ∧ ((∀ y ∈ outer.head?, test y = false) → d ≠ inner.length + 1) := by
  obtain ⟨hd, htest, -⟩ := List.findIdx?_eq_some_iff_getElem.mp h
  constructor
  · rintro rfl
    simp [hx] at htest
  · rintro houter rfl
    cases outer with
    | nil => simp at hd
    | cons y outer =>
        have hy : test y = false := houter y rfl
        simp [hy] at htest

/-- The two tables of a use: the second has the reference under an identity that is later by `k`, at the
address that the first has, counted without a scope if there is one to pass. This scope does not bind
the reference, and it is not the one inside of the scope of a superclass. -/
structure Use.Follows (T T' : Distances) (k : Identity) (skip : Option Nat) (u : Use) : Prop where
  entry : T'.lookup (u.ref.id + k) = (T.lookup u.ref.id).map (passing skip u.path.depth)
  around : ∀ w ∈ skip, w ≤ u.path.depth
  misses : ∀ w ∈ skip, ∀ d, T.lookup u.ref.id = some d → d + w ≠ u.path.depth
  receiver : u.ref.name.lexeme = "super" → ∀ w ∈ skip, ∀ d, T.lookup u.ref.id = some d →
    d + w ≠ u.path.depth + 1

/-- What is known of the uses in code that has identities later by `k` on a second side, with a scope
to pass there or none. -/
abbrev Knowledge :=
  Identity → Option Nat → Use → Prop

variable {T T' : Distances} {k : Identity} {u v : Use}

/-- Code that is found in both tables alike has nothing to pass. -/
theorem Use.follows_none (h : T'.lookup (u.ref.id + k) = T.lookup u.ref.id) :
    u.Follows T T' k none where
  entry := by cases hd : T.lookup u.ref.id <;> simp [h, hd, passing]
  around := nofun
  misses := nofun
  receiver := nofun

theorem Use.Alongside.address? (h : Alongside (.block [] :: p) p u v) :
    v.address? = u.address?.map (passing (some (p.depth + 1)) u.path.depth) := by
  obtain ⟨href, hreceiver, q, hclosed, hu, hv⟩ := h
  have hclass : u.path.class? = v.path.class? := by
    rw [hu, hv]
    exact Path.class?_append q rfl
  have hdepth : u.path.depth = q.scopes.length + (p.depth + 1) := by
    rw [Path.depth, hu, hclosed, List.length_append]
    rfl
  unfold Use.address?
  rw [href, hreceiver, hclass, hdepth]
  split
  · rfl
  · rw [hu, hv, hclosed, hclosed]
    exact findIdx?_inserted (by simp) _ _ _

/-- Of two uses alongside, the inner one of which is inside of a block that declares nothing. -/
theorem Use.Alongside.follows (h : Alongside (.block [] :: p) p u v)
    (hsuper : ∀ names ∈ p.scopes.head?, "super" ∉ names) (hu : T.lookup u.ref.id = u.address?)
    (hv : T'.lookup (v.ref.id + k) = v.address?) : u.Follows T T' k (some (p.depth + 1)) := by
  have haddress := h.address?
  obtain ⟨href, hreceiver, q, hclosed, hpath, -⟩ := h
  have hdepth : u.path.depth = q.scopes.length + (p.depth + 1) := by
    rw [Path.depth, hpath, hclosed, List.length_append]
    rfl
  have hfound : ∀ d, T.lookup u.ref.id = some d → d ≠ q.scopes.length ∧
      (u.ref.name.lexeme = "super" → d ≠ q.scopes.length + 1) := by
    intro d hd
    rw [hu, Use.address?] at hd
    split at hd
    · cases hd
    · rw [hpath, hclosed] at hd
      obtain ⟨hne, hnext⟩ := findIdx?_inserted_ne (by simp) hd
      refine ⟨hne, fun hname => hnext fun names hnames => ?_⟩
      simp [hname, hsuper names hnames]
  constructor
  case entry => rw [hu, ← haddress, ← hv, href]
  case around =>
    rintro w ⟨⟩
    omega
  case misses =>
    rintro w ⟨⟩ d hd
    have hne := (hfound d hd).1
    omega
  case receiver =>
    rintro hname w ⟨⟩ d hd
    have hne := (hfound d hd).2 hname
    omega

/-- Of uses that are alongside one by one, each has one beside it. -/
theorem Abreast.exists {p r : Path} {us vs : List Use} (h : Abreast p r us vs) (hu : u ∈ us) :
    ∃ v ∈ vs, u.Alongside p r v := by
  induction h with
  | nil => cases hu
  | cons hfirst _ ih =>
      rcases List.mem_cons.mp hu with rfl | hu
      · exact ⟨_, List.mem_cons_self .., hfirst⟩
      · obtain ⟨v, hv, h⟩ := ih hu
        exact ⟨v, List.mem_cons_of_mem _ hv, h⟩

end Scope

end LoxLang
