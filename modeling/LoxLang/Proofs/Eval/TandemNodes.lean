import LoxLang.Proofs.Eval.TandemCalls

/-!
Code in tandem, one node at a time, and whole runs. Code of the first side that is known to run in its
place has its counterpart under other identities; what is known of the uses of a tree is known of the
uses of its parts.
-/

namespace LoxLang

open Scope

namespace Bypass

section

variable {F : Knowledge} {W : Bypass} {a : Address} {k : Identity} {skip : Option Nat}
  {p : Path} {names names' : List String} {us us' : List Use}

theorem Runs.first (h : W.Runs F a k skip p names (us ++ us')) : W.Runs F a k skip p names us :=
  h.part rfl id (List.subset_append_left _ _)

theorem Runs.rest (h : W.Runs F a k skip p names (us ++ us')) : W.Runs F a k skip p names us' :=
  h.part rfl id (List.subset_append_right _ _)

/-- An expression declares nothing. -/
theorem Runs.expr (h : W.Runs F a k skip p names us) : W.Runs F a k skip p [] us :=
  h.part rfl (fun _ => rfl) (List.Subset.refl _)

end

namespace Tandem

variable {F : Knowledge} {σ σ' : Setting} {W : Bypass} {a : Address} {k : Identity}
  {skip : Option Nat} {p : Path} {line : Nat} {names : List String}
  {eval eval' : Expr → Eval Value} {exec exec' : Stmt → Eval Flow}

/-! ### Expressions -/

/-- Expressions that are evaluated in tandem. -/
def Evaluates (F : Knowledge) (eval eval' : Expr → Eval Value) : Prop :=
  ∀ W a k skip p e, W.Good F → e.Spelled → W.Runs F a k skip p [] (e.uses p) →
    Tandem F W a (eval e) (eval' (e.relabel (.renumber k))) (SameValue F)

/-- Calls that are made in tandem. -/
def Invokes (F : Knowledge) (invoke invoke' : Value → List Value → Nat → Eval Value) : Prop :=
  ∀ W a callee arguments line, W.Good F → W.Valid F callee → (∀ v ∈ arguments, W.Valid F v) →
    Tandem F W a (invoke callee arguments line) (invoke' callee arguments line) (SameValue F)

/-- The outcome of an operation whose results are held in place. -/
theorem operation {r : Except RuntimeCause Value} (hgood : W.Good F)
    (hr : ∀ v, r = .ok v → W.Valid F v) :
    Tandem F W a (Eval.onLine line r) (Eval.onLine line r) (SameValue F) := by
  cases r with
  | ok v => exact pure hgood ⟨rfl, hr v rfl⟩
  | error cause => exact fail hgood cause

theorem valid_unaryOperation {operator : Token} {v w : Value}
    (h : unaryOperation operator v = .ok w) : W.Valid F w := by
  unfold unaryOperation at h
  split at h <;> cases h <;> trivial

theorem valid_binaryOperation {operator : Token} {v w x : Value}
    (h : binaryOperation operator v w = .ok x) : W.Valid F x := by
  unfold binaryOperation at h
  split at h
  · unfold addition at h
    split at h <;> cases h <;> trivial
  · cases h
    trivial
  · cases h
    trivial
  · split at h
    · unfold numberOperation at h
      split at h <;> cases h <;> trivial
    · cases h

theorem evaluateAll (heval : Evaluates F eval eval') (hgood : W.Good F) {es : List Expr}
    (hspelled : SpelledExprs es) (hruns : W.Runs F a k skip p [] (usesExprs es p)) :
    Tandem F W a (Eval.evaluateAll eval es)
      (Eval.evaluateAll eval' (relabelExprs (.renumber k) es))
      fun W' vs vs' => vs' = vs ∧ ∀ v ∈ vs, W'.Valid F v := by
  induction es generalizing W with
  | nil => exact pure hgood ⟨rfl, nofun⟩
  | cons e es ih =>
      refine (heval W a k skip p e hgood hspelled.1 hruns.first).bind ?_
      rintro W₁ hle₁ hgood₁ v v' ⟨rfl, hv⟩
      refine (ih hgood₁ hspelled.2 (hruns.rest.mono hle₁ hgood hgood₁)).bind ?_
      rintro W₂ hle₂ hgood₂ vs vs' ⟨rfl, hvs⟩
      refine pure hgood₂ ⟨rfl, ?_⟩
      intro w hw
      rcases List.mem_cons.mp hw with rfl | hw
      · exact hv.mono hle₂ hgood₁.toGoodFrames hgood₂.toGoodFrames
      · exact hvs w hw

/-- A function that is made in a frame closes over it. -/
theorem closure (hgood : W.Good F) {d : FunctionDecl} (hspelled : d.Spelled)
    (hruns : W.Runs F a k skip p names (d.uses false p)) :
    Tandem F W a (Eval.closure d) (Eval.closure (d.relabel (.renumber k))) (SameValue F) := by
  have hcode : W.SameCode F 0 ⟨d, a, false⟩ ⟨d.relabel (.renumber k), W.image a, false⟩ :=
    ⟨rfl, rfl, hspelled, ⟨k, skip, p, false, p.depth, rfl, hruns.stands, rfl, hruns.known⟩,
      by simp⟩
  refine bind_getCurrent ((newFunction hgood _ _).bind ?_)
  rintro W₁ - hgood₁ f f' ⟨rfl, rfl, rfl⟩
  exact pure hgood₁ ⟨rfl, hcode.addFunction hgood⟩

theorem property (hgood : W.Good F) (i : Address) (name : Token) :
    Tandem F W a (Eval.property i name) (Eval.property i name) (SameValue F) := by
  refine bind_getHeap ?_
  dsimp only
  rw [hgood.instanceObject_right, hgood.findMethod?_right]
  cases hfield : (W.left.instanceObject i).fields.find? name.lexeme with
  | some v => exact pure hgood ⟨rfl, hgood.fields i _ v hfield⟩
  | none =>
      cases hfound : W.left.findMethod? (W.left.instanceObject i).classAddress name.lexeme with
      | none => exact fail hgood _
      | some f =>
          refine (bindMethod hgood (hgood.method_of_findMethod? hfound) i).bind ?_
          rintro W₁ - hgood₁ b b' ⟨rfl, hb⟩
          exact pure hgood₁ ⟨rfl, hb⟩

/-- The frames of a superclass and of a receiver are next to each other on both sides. -/
theorem superMethod (htables : Tables F σ σ') (hgood : W.Good F) {ref : Reference}
    (hstands : W.Stands a skip p.depth) (href : F k skip ⟨ref, false, p⟩)
    (hname : ref.name.lexeme = "super") (method : Token) :
    Tandem F W a (Eval.superMethod σ ref method)
      (Eval.superMethod σ' (ref.relabel (.renumber k)) method) (SameValue F) := by
  obtain ⟨hentry, -, hmisses, hreceiver⟩ := htables k skip _ href
  have hframes := hgood.toGoodFrames
  unfold Eval.superMethod
  dsimp only [Reference.relabel_renumber] at hentry hmisses hreceiver ⊢
  rw [hentry]
  cases hd : σ.distances.lookup ref.id with
  | none => exact fail hgood _
  | some d =>
      have hmisses := fun w hw => hmisses w hw d hd
      have hreceiver := fun w hw => hreceiver hname w hw d hd
      cases d with
      | zero =>
          rw [Option.map_some, passing_zero hstands.around]
          exact fail hgood _
      | succ d =>
          have hinner : ∀ w ∈ skip, d + w ≠ p.depth := fun w hw heq =>
            hreceiver w hw (by omega)
          have hnext : passing skip p.depth (d + 1) = passing skip p.depth d + 1 :=
            passing_succ fun w hw => ⟨hstands.around w hw, hinner w hw⟩
          have hsuperclass := hstands.found_locateAt hframes superclassName hmisses
          have hobject := hstands.found_locateAt hframes receiverName hinner
          rw [hnext] at hsuperclass
          rw [Option.map_some, hnext]
          dsimp only
          refine bind_get fun m m' hstep => ?_
          rw [hstep.left, hstep.right, hstep.current, hstep.current']
          refine (foundValue hgood hsuperclass superclassName).bind ?_
          rintro W₁ - hgood₁ v v' ⟨rfl, rfl, -⟩
          refine (foundValue hgood₁ hobject receiverName).bind ?_
          rintro W₂ - hgood₂ w w' ⟨rfl, rfl, -⟩
          split
          case h_1 c i =>
            rw [hgood₂.findMethod?_right]
            cases hfound : W₂.left.findMethod? c method.lexeme with
            | none => exact fail hgood₂ _
            | some f =>
                refine (bindMethod hgood₂ (hgood₂.method_of_findMethod? hfound) i).bind ?_
                rintro W₃ - hgood₃ b b' ⟨rfl, hb⟩
                exact pure hgood₃ ⟨rfl, hb⟩
          case h_2 => exact fail hgood₂ _

theorem expression {call call' : Value → List Value → Nat → Eval Value}
    (heval : Evaluates F eval eval') (hcall : Invokes F call call') (htables : Tables F σ σ') :
    Evaluates F (Eval.expression σ eval call) (Eval.expression σ' eval' call') := by
  intro W a k skip p e hgood hspelled hruns
  cases e with
  | literal v =>
      refine pure hgood ⟨rfl, ?_⟩
      cases v <;> trivial
  | group inner => exact heval W a k skip p inner hgood hspelled hruns
  | unary operator right =>
      refine (heval W a k skip p right hgood hspelled hruns).bind ?_
      rintro W₁ hle₁ hgood₁ v v' ⟨rfl, -⟩
      exact operation hgood₁ fun w hw => valid_unaryOperation hw
  | binary left operator right =>
      refine (heval W a k skip p left hgood hspelled.1 hruns.first).bind ?_
      rintro W₁ hle₁ hgood₁ v v' ⟨rfl, -⟩
      have hright := hruns.rest.mono hle₁ hgood hgood₁
      refine (heval W₁ a k skip p right hgood₁ hspelled.2 hright).bind ?_
      rintro W₂ hle₂ hgood₂ w w' ⟨rfl, -⟩
      exact operation hgood₂ fun x hx => valid_binaryOperation hx
  | logical left operator right =>
      refine (heval W a k skip p left hgood hspelled.1 hruns.first).bind ?_
      rintro W₁ hle₁ hgood₁ v v' ⟨rfl, hv⟩
      rw [Token.relabel_renumber]
      split
      · exact pure hgood₁ ⟨rfl, hv⟩
      · exact heval W₁ a k skip p right hgood₁ hspelled.2 (hruns.rest.mono hle₁ hgood hgood₁)
  | ident ref => exact lookUp htables hgood hruns.stands (hruns.known _ (List.mem_cons_self ..))
  | assign ref value =>
      refine (heval W a k skip p value hgood hspelled.2 hruns.first).bind ?_
      rintro W₁ hle₁ hgood₁ v v' ⟨rfl, hv⟩
      have href := hruns.rest.mono hle₁ hgood hgood₁
      refine (assignTo htables hgood₁ href.stands (href.known _ (List.mem_cons_self ..)) hv).bind ?_
      rintro W₂ hle₂ hgood₂ _ _ -
      exact pure hgood₂ ⟨rfl, hv.mono hle₂ hgood₁.toGoodFrames hgood₂.toGoodFrames⟩
  | call callee paren arguments =>
      refine (heval W a k skip p callee hgood hspelled.1 hruns.first).bind ?_
      rintro W₁ hle₁ hgood₁ v v' ⟨rfl, hv⟩
      have harguments := hruns.rest.mono hle₁ hgood hgood₁
      refine (evaluateAll heval hgood₁ hspelled.2 harguments).bind ?_
      rintro W₂ hle₂ hgood₂ vs vs' ⟨rfl, hvs⟩
      have hv₂ := hv.mono hle₂ hgood₁.toGoodFrames hgood₂.toGoodFrames
      exact hcall W₂ a _ _ paren.line hgood₂ hv₂ hvs
  | function decl => exact closure hgood hspelled hruns
  | get object name =>
      refine (heval W a k skip p object hgood hspelled hruns).bind ?_
      rintro W₁ hle₁ hgood₁ v v' ⟨rfl, -⟩
      cases v' with
      | object i => exact property hgood₁ i name
      | _ => exact fail hgood₁ _
  | set object name value =>
      refine (heval W a k skip p object hgood hspelled.1 hruns.first).bind ?_
      rintro W₁ hle₁ hgood₁ v v' ⟨rfl, -⟩
      cases v' with
      | object i =>
          have hvalue := hruns.rest.mono hle₁ hgood hgood₁
          refine (heval W₁ a k skip p value hgood₁ hspelled.2 hvalue).bind ?_
          rintro W₂ hle₂ hgood₂ w w' ⟨rfl, hw⟩
          have hle := W₂.le_setField i name.lexeme w'
          refine (changeHeap hle (hgood₂.setField name.lexeme hw) rfl rfl).bind ?_
          rintro W₃ hle₃ hgood₃ _ _ -
          exact pure hgood₃ ⟨rfl, hw.mono hle₃ hgood₂.toGoodFrames hgood₃.toGoodFrames⟩
      | _ => exact fail hgood₁ _
  | this ref => exact lookUp htables hgood hruns.stands (hruns.known _ (List.mem_cons_self ..))
  | super ref method =>
      exact superMethod htables hgood hruns.stands (hruns.known _ (List.mem_cons_self ..)) hspelled
        method

/-! ### Statements -/

/-- Statements that are executed in tandem. -/
def Executes (F : Knowledge) (exec exec' : Stmt → Eval Flow) : Prop :=
  ∀ W a k skip p s, W.Good F → s.Spelled → W.Runs F a k skip p s.declares (s.uses p) →
    Tandem F W a (exec s) (exec' (s.relabel (.renumber k))) (SameFlow F)

theorem normal (hgood : W.Good F) :
    Tandem F W a (return Flow.normal) (return Flow.normal) (SameFlow F) :=
  pure hgood ⟨rfl, trivial⟩

theorem executeAll (hexec : Executes F exec exec') :
    RunsBodies F (Eval.executeAll exec) (Eval.executeAll exec') := by
  intro W a k skip p ss hgood hspelled hruns
  induction ss generalizing W p with
  | nil => exact normal hgood
  | cons s ss ih =>
      have hs : W.Runs F a k skip p s.declares (s.uses p) :=
        hruns.first.part rfl (fun hnil => (List.append_eq_nil_iff.mp hnil).1) (List.Subset.refl _)
      have hss : W.Runs F a k skip (p.behind s.declares) (ss.flatMap Stmt.declares)
          (usesStmts ss (p.behind s.declares)) :=
        hruns.rest.part (Path.depth_behind _ _) (fun hnil => (List.append_eq_nil_iff.mp hnil).2)
          (List.Subset.refl _)
      refine (hexec W a k skip p s hgood hspelled.1 hs).bind ?_
      rintro W₁ hle₁ hgood₁ r r' ⟨rfl, hr⟩
      cases r' with
      | normal => exact ih W₁ _ hgood₁ hspelled.2 (hss.mono hle₁ hgood hgood₁)
      | returned v => exact pure hgood₁ ⟨rfl, hr⟩

/-- A loop whose test and body are in tandem from any later bypass on. -/
theorem repeatWhile {test test' : Eval Bool} {body body' : Eval Flow} (n : Nat)
    (htest : 0 < n → ∀ W', W.Le W' → W'.Good F → Tandem F W' a test test' fun _ b b' => b' = b)
    (hbody : ∀ W', W.Le W' → W'.Good F → Tandem F W' a body body' (SameFlow F))
    (hgood : W.Good F) :
    Tandem F W a (Eval.repeatWhile test body n) (Eval.repeatWhile test' body' n) (SameFlow F) := by
  have key : ∀ i ≤ n, ∀ W', W.Le W' → W'.Good F →
      Tandem F W' a (Eval.repeatWhile test body i) (Eval.repeatWhile test' body' i)
        (SameFlow F) := by
    intro i
    induction i with
    | zero => exact fun _ W' _ hgood' => throw hgood' .outOfFuel
    | succ i ih =>
        intro hi W' hle hgood'
        refine (htest (by omega) W' hle hgood').bind ?_
        rintro W₁ hle₁ hgood₁ b b' rfl
        split
        · refine (hbody W₁ (hle.trans hle₁) hgood₁).bind ?_
          rintro W₂ hle₂ hgood₂ r r' ⟨rfl, hr⟩
          cases r' with
          | normal => exact ih (by omega) W₂ ((hle.trans hle₁).trans hle₂) hgood₂
          | returned v => exact pure hgood₂ ⟨rfl, hr⟩
        · exact normal hgood₁
  exact key n (Nat.le_refl n) W (.refl W) hgood

theorem printValue (hgood : W.Good F) {v : Value} (hv : W.Valid F v) :
    Tandem F W a (Eval.printValue v) (Eval.printValue v) fun _ _ _ => True := by
  refine bind_getHeap ?_
  rw [(hgood.sameTexts hv).1]
  refine (write hgood _).bind ?_
  rintro W₁ - hgood₁ _ _ -
  exact (write hgood₁ "\n").mono fun _ _ _ _ _ _ => trivial

theorem defineHere (hgood : W.Good F) (hkept : W.Kept a) (name : String) {v : Value}
    (hv : W.Valid F v) :
    Tandem F W a (Eval.defineHere name v) (Eval.defineHere name v) fun _ _ _ => True := by
  refine bind_getCurrent ?_
  have hle := W.le_define hkept.size name v
  refine (changeHeap hle (hgood.define hkept name hv) rfl rfl).mono ?_
  exact fun _ _ _ _ _ _ => trivial

theorem optionalValue (heval : Evaluates F eval eval') (hgood : W.Good F) (e : Option Expr)
    (he : ∀ e', e = some e' → e'.Spelled ∧ W.Runs F a k skip p [] (e'.uses p)) :
    Tandem F W a (Eval.optionalValue eval e)
      (Eval.optionalValue eval' (e.map (Expr.relabel (.renumber k)))) (SameValue F) := by
  cases e with
  | none => exact pure hgood ⟨rfl, trivial⟩
  | some e =>
      obtain ⟨hspelled, hruns⟩ := he e rfl
      exact heval W a k skip p e hgood hspelled hruns

/-- The statements of a block run in a new frame. -/
theorem block (hexec : Executes F exec exec') (hgood : W.Good F) {body : List Stmt}
    (hspelled : SpelledStmts body)
    (hruns : W.Runs F a k skip p names (usesStmts body (.block [] :: p))) :
    Tandem F W a
      (do let here ← Eval.getCurrent
          let frame ← Eval.newFrame ⟨[], some here, .block body⟩
          Eval.inFrame frame (Eval.executeAll exec body))
      (do let here ← Eval.getCurrent
          let frame ← Eval.newFrame ⟨[], some here, .block (relabelStmts (.renumber k) body)⟩
          Eval.inFrame frame (Eval.executeAll exec' (relabelStmts (.renumber k) body)))
      (SameFlow F) := by
  have hnew : W.FramesAround a ⟨[], some a, .block body⟩
      ⟨[], some (W.image a), .block (relabelStmts (.renumber k) body)⟩ :=
    ⟨hruns.stands.size, rfl, rfl, rfl⟩
  refine bind_getCurrent ((newFrame hgood hnew fun _ _ hv => by cases hv).bind ?_)
  rintro W₁ hle₁ hgood₁ b b' ⟨hW₁, rfl, rfl⟩
  have hinside : W₁.Runs F W.left.frames.size k skip (.block [] :: p)
      (body.flatMap Stmt.declares) (usesStmts body (.block [] :: p)) := by
    constructor
    case stands =>
      rw [hW₁]
      exact hruns.stands.addFrame hgood.toGoodFrames hnew
    case nothing =>
      intro hpassed
      rw [hW₁] at hpassed
      exact absurd rfl hpassed.1
    case known => exact hruns.known
  have hbody := executeAll hexec W₁ W.left.frames.size k skip _ body hgood₁ hspelled hinside
  exact hbody.inFrame hinside.stands.size

/-! ### Classes -/

theorem superclassOf (htables : Tables F σ σ') (hgood : W.Good F) (superclass : Option Reference)
    (hruns : ∀ ref, superclass = some ref → W.Stands a skip p.depth ∧ F k skip ⟨ref, false, p⟩) :
    Tandem F W a (Eval.superclassOf σ superclass)
      (Eval.superclassOf σ' (superclass.map (Reference.relabel (.renumber k))))
      fun _ c c' => c' = c ∧ c.isSome = superclass.isSome := by
  cases superclass with
  | none => exact pure hgood ⟨rfl, rfl⟩
  | some ref =>
      obtain ⟨hstands, href⟩ := hruns ref rfl
      refine (lookUp htables hgood hstands href).bind ?_
      rintro W₁ - hgood₁ v v' ⟨rfl, -⟩
      cases v' with
      | classRef c => exact pure hgood₁ ⟨rfl, rfl⟩
      | _ => exact fail hgood₁ _

theorem inMethodFrame {α : Type} {x x' : Eval α} {R : Bypass → α → α → Prop} (hgood : W.Good F)
    (hstands : W.Stands a skip p.depth) (up : Option Address)
    (hx : ∀ W' b, W.Le W' → W'.Good F →
      W'.Stands b skip (if up.isSome then p.depth + 1 else p.depth) → Tandem F W' b x x' R) :
    Tandem F W a (Eval.inMethodFrame up x) (Eval.inMethodFrame up x') R := by
  cases up with
  | none => exact hx W a (.refl W) hgood hstands
  | some c =>
      have hnew : W.FramesAround a ⟨[(superclassName, .classRef c)], some a, .superclass⟩
          ⟨[(superclassName, .classRef c)], some (W.image a), .superclass⟩ :=
        ⟨hstands.size, rfl, rfl, rfl⟩
      have hvalues : ∀ name v, Bindings.find? [(superclassName, Value.classRef c)] name = some v →
          W.Valid F v := by
        intro name v hv
        obtain ⟨-, rfl⟩ := Bindings.eq_of_find?_single hv
        trivial
      refine bind_getCurrent ((newFrame hgood hnew hvalues).bind ?_)
      rintro W₁ hle₁ hgood₁ b b' ⟨hW₁, rfl, rfl⟩
      have hstands₁ : W₁.Stands W.left.frames.size skip (p.depth + 1) := by
        rw [hW₁]
        exact hstands.addFrame hgood.toGoodFrames hnew
      exact (hx W₁ _ hle₁ hgood₁ hstands₁).inFrame hstands₁.size

/-- One table of methods on both sides. -/
def SameMethods (F : Knowledge) (W : Bypass) (t t' : Bindings Address) : Prop :=
  t' = t ∧ ∀ name f, t.find? name = some f → W.SameFunction F 1 f

theorem methodTable (hgood : W.Good F) {ds : List FunctionDecl} (hspelled : SpelledMethods ds)
    {n : Nat} (hstands : W.Stands a skip n) (hdepth : p.depth = n + 1)
    (hknown : ∀ u ∈ usesMethods ds p, F k skip u) {table : Bindings Address}
    (htable : ∀ name f, table.find? name = some f → W.SameFunction F 1 f) :
    Tandem F W a (Eval.methodTable table ds)
      (Eval.methodTable table (relabelMethods (.renumber k) ds))
      (SameMethods F) := by
  induction ds generalizing W table with
  | nil => exact pure hgood ⟨rfl, htable⟩
  | cons d ds ih =>
      obtain ⟨hd, hds⟩ := List.forall_mem_append.mp hknown
      have hcode : W.SameCode F 1 ⟨d, a, d.isInitializer⟩
          ⟨d.relabel (.renumber k), W.image a, (d.relabel (.renumber k)).isInitializer⟩ :=
        ⟨rfl, FunctionDecl.isInitializer_relabel d, hspelled.1,
          ⟨k, skip, p, true, n, hdepth, hstands, rfl, hd⟩, nofun⟩
      refine bind_getCurrent ((newFunction hgood _ _).bind ?_)
      rintro W₁ hle₁ hgood₁ f f' ⟨rfl, rfl, rfl⟩
      have hold := hgood.toGoodFrames
      have hnew := hgood₁.toGoodFrames
      rw [FunctionDecl.name_relabel]
      refine ih hgood₁ hspelled.2 (hstands.mono hle₁ hold hnew) hds ?_
      intro name f hf
      rw [Bindings.find?_insert] at hf
      split at hf
      · cases hf
        exact hcode.addFunction hgood
      · exact (htable name f hf).mono hle₁ hold hnew

theorem defineClass (htables : Tables F σ σ') (hgood : W.Good F) {name : Token}
    {superclass : Option Reference} {methods : List FunctionDecl}
    (hspelled : (Stmt.classDecl name superclass methods).Spelled)
    (hruns : W.Runs F a k skip p [name.lexeme]
      ((Stmt.classDecl name superclass methods).uses p)) :
    Tandem F W a (Eval.defineClass σ name superclass methods)
      (Eval.defineClass σ' name (superclass.map (Reference.relabel (.renumber k)))
        (relabelMethods (.renumber k) methods)) fun _ _ _ => True := by
  have hnamed : W.Stands a skip (p.behind [name.lexeme]).depth := by
    rw [Path.depth_behind]
    exact hruns.stands
  have hkept := hruns.kept (List.cons_ne_nil _ _)
  have hsuperclass : ∀ ref, superclass = some ref →
      W.Stands a skip (p.behind [name.lexeme]).depth ∧
        F k skip ⟨ref, false, p.behind [name.lexeme]⟩ := by
    rintro ref rfl
    exact ⟨hnamed, hruns.known _ (List.mem_append_left _ (List.mem_cons_self ..))⟩
  refine (superclassOf htables hgood superclass hsuperclass).bind ?_
  rintro W₁ hle₁ hgood₁ up up' ⟨rfl, hup⟩
  have hkept₁ := ((hruns.mono hle₁ hgood hgood₁).kept (List.cons_ne_nil _ _))
  refine (defineHere (v := .nil) hgood₁ hkept₁ name.lexeme trivial).bind ?_
  rintro W₂ hle₂ hgood₂ _ _ -
  have hle := hle₁.trans hle₂
  have hmethods : ∀ W₃ b, W₂.Le W₃ → W₃.Good F →
      W₃.Stands b skip (if up'.isSome then (p.behind [name.lexeme]).depth + 1
        else (p.behind [name.lexeme]).depth) →
        Tandem F W₃ b (Eval.methodTable [] methods)
          (Eval.methodTable [] (relabelMethods (.renumber k) methods)) (SameMethods F) := by
    intro W₃ b _ hgood₃ hstands₃
    have hdepth := Path.depth_classBody superclass.isSome (p.behind [name.lexeme])
    rw [← hup] at hdepth
    exact methodTable hgood₃ hspelled.2 hstands₃ hdepth
      (fun u hu => hruns.known u (List.mem_append_right _ (hup ▸ hu))) nofun
  have hnamed₂ := hnamed.mono hle hgood.toGoodFrames hgood₂.toGoodFrames
  refine (inMethodFrame hgood₂ hnamed₂ up' hmethods).bind ?_
  rintro W₃ hle₃ hgood₃ table table' ⟨rfl, htable⟩
  refine (newClass hgood₃ htable).bind ?_
  rintro W₄ hle₄ hgood₄ c c' rfl
  refine bind_getHeap (bind_getCurrent ?_)
  have hsize : a < W₄.left.frames.size :=
    Nat.lt_of_lt_of_le hruns.stands.size ((hle.trans hle₃).trans hle₄).frames
  refine (found hgood₄ (hgood₄.toGoodFrames.found_locate name.lexeme hsize)).bind ?_
  rintro W₅ - hgood₅ f f' ⟨rfl, hf, rfl⟩
  have hle₅ := W₅.le_define hf.size name.lexeme (.classRef c')
  refine (changeHeap hle₅ (hgood₅.define hf name.lexeme (v := .classRef c') trivial) rfl rfl).mono ?_
  exact fun _ _ _ _ _ _ => trivial

/-! ### Nodes -/

/-- A test and the branch that it takes. -/
theorem branch (heval : Evaluates F eval eval') (hexec : Executes F exec exec') (fuel : Nat)
    (hgood : W.Good F) {condition : Expr} {thenBranch : Stmt} {elseBranch : Option Stmt}
    (hspelled : (Stmt.branch condition thenBranch elseBranch).Spelled)
    (hruns : W.Runs F a k skip p (Stmt.branch condition thenBranch elseBranch).declares
      ((Stmt.branch condition thenBranch elseBranch).uses p)) :
    Tandem F W a (Eval.statement σ fuel eval exec (.branch condition thenBranch elseBranch))
      (Eval.statement σ' fuel eval' exec'
        ((Stmt.branch condition thenBranch elseBranch).relabel (.renumber k))) (SameFlow F) := by
  rw [Stmt.relabel_branch]
  cases elseBranch with
  | none =>
      refine (heval W a k skip p condition hgood hspelled.1 hruns.first.expr).bind ?_
      rintro W₁ hle₁ hgood₁ v v' ⟨rfl, -⟩
      split
      · have hthen := hruns.rest.mono hle₁ hgood hgood₁
        exact hexec W₁ a k skip p thenBranch hgood₁ hspelled.2.1 hthen
      · exact normal hgood₁
  | some elseBranch =>
      refine (heval W a k skip p condition hgood hspelled.1 hruns.first.expr).bind ?_
      rintro W₁ hle₁ hgood₁ v v' ⟨rfl, -⟩
      have hbranches := hruns.rest.mono hle₁ hgood hgood₁
      split
      · have hthen : W₁.Runs F a k skip p thenBranch.declares (thenBranch.uses p) :=
          hbranches.first.part rfl (fun hnil => (List.append_eq_nil_iff.mp hnil).1)
            (List.Subset.refl _)
        exact hexec W₁ a k skip p thenBranch hgood₁ hspelled.2.1.1 hthen
      · have helse : W₁.Runs F a k skip (p.behind thenBranch.declares) elseBranch.declares
            (elseBranch.uses (p.behind thenBranch.declares)) :=
          hbranches.rest.part (Path.depth_behind _ _)
            (fun hnil => (List.append_eq_nil_iff.mp hnil).2) (List.Subset.refl _)
        exact hexec W₁ a k skip _ elseBranch hgood₁ hspelled.2.2.1 helse

theorem statement (heval : Evaluates F eval eval') (hexec : Executes F exec exec')
    (htables : Tables F σ σ') (fuel : Nat) :
    Executes F (Eval.statement σ fuel eval exec) (Eval.statement σ' fuel eval' exec') := by
  intro W a k skip p s hgood hspelled hruns
  cases s with
  | expr value =>
      refine (heval W a k skip p value hgood hspelled hruns.expr).bind ?_
      rintro W₁ - hgood₁ v v' -
      exact normal hgood₁
  | print value =>
      refine (heval W a k skip p value hgood hspelled hruns.expr).bind ?_
      rintro W₁ - hgood₁ v v' ⟨rfl, hv⟩
      refine (printValue hgood₁ hv).bind ?_
      rintro W₂ - hgood₂ _ _ -
      exact normal hgood₂
  | var name initializer =>
      rw [Stmt.relabel_var]
      have hvalue : ∀ e, initializer = some e → e.Spelled ∧
          W.Runs F a k skip (.initializer name.lexeme :: p) []
            (e.uses (.initializer name.lexeme :: p)) := by
        rintro e rfl
        exact ⟨hspelled.2, hruns.part (Path.depth_initializer _ _) (fun _ => rfl)
          (List.Subset.refl _)⟩
      refine (optionalValue heval hgood initializer hvalue).bind ?_
      rintro W₁ hle₁ hgood₁ v v' ⟨rfl, hv⟩
      have hdeclares : (Stmt.var name initializer).declares ≠ [] := by
        cases initializer <;> exact List.cons_ne_nil _ _
      have hkept₁ := (hruns.mono hle₁ hgood hgood₁).kept hdeclares
      refine (defineHere hgood₁ hkept₁ name.lexeme hv).bind ?_
      rintro W₂ - hgood₂ _ _ -
      exact normal hgood₂
  | block body => exact block hexec hgood hspelled hruns
  | branch condition thenBranch elseBranch =>
      exact branch heval hexec fuel hgood hspelled hruns
  | loop condition body =>
      refine repeatWhile fuel ?_ ?_ hgood
      · intro _ W₁ hle₁ hgood₁
        have hcondition := hruns.first.expr.mono hle₁ hgood hgood₁
        refine (heval W₁ a k skip p condition hgood₁ hspelled.1 hcondition).map ?_
        rintro W₂ - - v v' ⟨rfl, -⟩
        rfl
      · intro W₁ hle₁ hgood₁
        have hbody := hruns.rest.mono hle₁ hgood hgood₁
        exact hexec W₁ a k skip p body hgood₁ hspelled.2.1 hbody
  | function decl =>
      obtain ⟨⟨name, hname⟩, -, hdecl⟩ := hspelled
      have hdeclares : (Stmt.function decl).declares ≠ [] := by
        rw [Stmt.declares, hname]
        exact List.cons_ne_nil _ _
      have hbody : W.Runs F a k skip (p.behind (Stmt.function decl).declares)
          (Stmt.function decl).declares
          (decl.uses false (p.behind (Stmt.function decl).declares)) :=
        hruns.part (Path.depth_behind _ _) id (List.Subset.refl _)
      refine (closure hgood hdecl hbody).bind ?_
      rintro W₁ hle₁ hgood₁ v v' ⟨rfl, hv⟩
      have hkept₁ := (hruns.mono hle₁ hgood hgood₁).kept hdeclares
      rw [FunctionDecl.name_relabel]
      refine (defineHere hgood₁ hkept₁ decl.name hv).bind ?_
      rintro W₂ - hgood₂ _ _ -
      exact normal hgood₂
  | ret keyword value =>
      rw [Stmt.relabel_ret]
      have hvalue : ∀ e, value = some e → e.Spelled ∧ W.Runs F a k skip p [] (e.uses p) := by
        rintro e rfl
        exact ⟨hspelled, hruns.expr⟩
      refine (optionalValue heval hgood value hvalue).map ?_
      rintro W₁ - - v v' ⟨rfl, hv⟩
      exact ⟨rfl, hv⟩
  | classDecl name superclass methods =>
      refine (defineClass htables hgood hspelled hruns).bind ?_
      rintro W₁ - hgood₁ _ _ -
      exact normal hgood₁

/-! ### Whole runs -/

theorem evaluates_executes (htables : Tables F σ σ') (hnatives : σ'.natives = σ.natives)
    (hfaithful : ∀ native ∈ σ.natives, native.Faithful) (n : Nat) :
    Evaluates F (Eval.evaluate σ n) (Eval.evaluate σ' n) ∧
      Executes F (Eval.execute σ n) (Eval.execute σ' n) := by
  induction n with
  | zero =>
      constructor
      · exact fun _ _ _ _ _ _ hgood _ _ => throw hgood .outOfFuel
      · exact fun _ _ _ _ _ _ hgood _ _ => throw hgood .outOfFuel
  | succ n ih =>
      obtain ⟨heval, hexec⟩ := ih
      have hcall : Invokes F (Eval.invoke σ (Eval.executeAll (Eval.execute σ n)))
          (Eval.invoke σ' (Eval.executeAll (Eval.execute σ' n))) :=
        fun _ _ _ _ line hgood hcallee harguments =>
          invoke (executeAll hexec) hnatives hfaithful hgood hcallee harguments line
      exact ⟨expression heval hcall htables, statement heval hexec htables n⟩

end Tandem

end Bypass

end LoxLang
