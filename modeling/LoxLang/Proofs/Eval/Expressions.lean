import LoxLang.Proofs.Eval.Calls

/-!
Expressions in lockstep, one node at a time: if the parts of a node and the calls that it makes are in
lockstep, so is the node.
-/

namespace LoxLang

open Scope

namespace Lockstep

variable {K : Layers → Reference → Reference → Prop} {L : Nat → Nat → Prop} {F : World → Prop}
  {σ σ' : Setting} {limit : Nat} {W : World} {a : Address} {Γ : Layers}

/-- Expressions that run alike have one value on both sides. -/
def Evaluates (K : Layers → Reference → Reference → Prop) (L : Nat → Nat → Prop) (F : World → Prop)
    (eval eval' : Expr → Eval Value) : Prop :=
  ∀ limit W a Γ e e', W.Good K L → W.Matches a Γ → limit ≤ W.left.frames.size →
    Alike K L Γ (.expr e e') → Lockstep K L F limit W a (eval e) (eval' e') (SameValue K L)

/-- Calls of one value with the same arguments. -/
def Invokes (K : Layers → Reference → Reference → Prop) (L : Nat → Nat → Prop) (F : World → Prop)
    (invoke invoke' : Value → List Value → Nat → Eval Value) : Prop :=
  ∀ limit W a callee arguments line line', W.Good K L → limit ≤ W.left.frames.size → L line line' →
    W.Valid K L callee → (∀ v ∈ arguments, W.Valid K L v) →
      Lockstep K L F limit W a (invoke callee arguments line) (invoke' callee arguments line')
        (SameValue K L)

/-- The tables of both sides say of every pair of references where they are bound. -/
def Tables (K : Layers → Reference → Reference → Prop) (L : Nat → Nat → Prop) (σ σ' : Setting) :
    Prop :=
  ∀ Γ ref ref', K Γ ref ref' → Bound σ σ' L Γ ref ref'

/-- The outcome of an operation that does not depend on the heap. -/
theorem onLine {α : Type} {line line' : Nat} {R : World → α → α → Prop}
    {r : Except RuntimeCause α} (hgood : W.Good K L) (hline : L line line')
    (hok : ∀ v, r = .ok v → R W v v) (herror : ∀ cause, r = .error cause → cause.isInternal = false) :
    Lockstep K L F limit W a (Eval.onLine line r) (Eval.onLine line' r) R := by
  cases r with
  | ok v => exact .pure hgood (hok v rfl)
  | error cause => exact .fail hgood hline (herror cause rfl)

/-! ### Operators -/

/-- Outcomes of operators: values that are held in place, or causes that are the program's own. -/
def Harmless : Except RuntimeCause Value → Prop
  | .ok v => ∀ (K : Layers → Reference → Reference → Prop) (L : Nat → Nat → Prop) (W : World),
    W.Valid K L v
  | .error cause => cause.isInternal = false

theorem harmless_unaryOperation (operator : Token) (v : Value) :
    Harmless (unaryOperation operator v) := by
  unfold unaryOperation
  split
  · exact fun _ _ _ => trivial
  · rfl
  · exact fun _ _ _ => trivial
  · rfl

theorem harmless_binaryOperation (operator : Token) (v w : Value) :
    Harmless (binaryOperation operator v w) := by
  unfold binaryOperation
  split
  · unfold addition
    split
    · exact fun _ _ _ => trivial
    · exact fun _ _ _ => trivial
    · rfl
  · exact fun _ _ _ => trivial
  · exact fun _ _ _ => trivial
  · split
    · unfold numberOperation
      split <;> first | exact fun _ _ _ => trivial | rfl
    · rfl

theorem operation {line line' : Nat} {r : Except RuntimeCause Value} (hgood : W.Good K L)
    (hline : L line line') (hr : Harmless r) :
    Lockstep K L F limit W a (Eval.onLine line r) (Eval.onLine line' r) (SameValue K L) := by
  refine onLine hgood hline ?_ ?_
  · rintro v rfl
    exact ⟨rfl, hr K L W⟩
  · rintro cause rfl
    exact hr

theorem unaryOperation_eq {o o' : Token} (h : SameToken L o o') (v : Value) :
    unaryOperation o' v = unaryOperation o v := by
  unfold unaryOperation
  rw [h.kind, h.lexeme]

theorem binaryOperation_eq {o o' : Token} (h : SameToken L o o') (v w : Value) :
    binaryOperation o' v w = binaryOperation o v w := by
  unfold binaryOperation numberOperation
  rw [h.kind, h.lexeme]

theorem shortCircuits_eq {o o' : Token} (h : SameToken L o o') (v : Value) :
    shortCircuits o' v = shortCircuits o v := by
  unfold shortCircuits
  rw [h.kind]

/-! ### Parts of nodes -/

theorem evaluateAll {eval eval' : Expr → Eval Value} (heval : Evaluates K L F eval eval')
    (hgood : W.Good K L) (hmatches : W.Matches a Γ) (hlimit : limit ≤ W.left.frames.size)
    {es es' : List Expr} (h : Alike K L Γ (.exprs es es')) :
    Lockstep K L F limit W a (Eval.evaluateAll eval es) (Eval.evaluateAll eval' es')
      fun W' vs vs' => vs' = vs ∧ ∀ v ∈ vs, W'.Valid K L v := by
  induction es generalizing es' W with
  | nil =>
      cases h
      exact .pure hgood ⟨rfl, nofun⟩
  | cons e es ih =>
      cases h with
      | moreExprs he hes =>
          refine (heval limit W a Γ e _ hgood hmatches hlimit he).bind ?_
          rintro W₁ hle₁ hgood₁ v v' ⟨rfl, hv⟩
          refine (ih hgood₁ (hmatches.mono hle₁) (Nat.le_trans hlimit hle₁.frames) hes).bind ?_
          rintro W₂ hle₂ hgood₂ vs vs' ⟨rfl, hvs⟩
          refine .pure hgood₂ ⟨rfl, ?_⟩
          intro w hw
          rcases List.mem_cons.mp hw with rfl | hw
          · exact hv.mono hgood₁ hle₂
          · exact hvs w hw

/-- Making a function; it can be held once the layers of its place fit. -/
theorem newClosure (hgood : W.Good K L) {d d' : FunctionDecl} :
    Lockstep K L F limit W a (Eval.closure d) (Eval.closure d') fun W' v v' =>
      W' = W.addFunction ⟨d, a, false⟩ ⟨d', a, false⟩ ∧ v = .function W.left.functions.size ∧
        v' = v := by
  refine bind_getCurrent ?_
  refine (newFunction hgood (by rfl) (by rfl)).bind ?_
  rintro W₁ hle₁ hgood₁ f f' ⟨hW₁, rfl, rfl⟩
  exact .pure hgood₁ ⟨hW₁, rfl, rfl⟩

/-- A function that has been made in a frame that fits its place. -/
theorem plain_of_closure {W' : World} {d d' : FunctionDecl} (hgood : W.Good K L)
    (hle : (W.addFunction ⟨d, a, false⟩ ⟨d', a, false⟩).Le limit W')
    (hmatches : W'.Matches a Γ) (h : Alike K L Γ (.decl d d')) :
    W'.Plain K L W.left.functions.size := by
  obtain ⟨hsize, hdecl, hdecl'⟩ := hgood.function_new ⟨d, a, false⟩ ⟨d', a, false⟩
  obtain ⟨hleft, hright⟩ := hle.function _ hsize
  replace hleft := hleft.trans hdecl
  replace hright := hright.trans hdecl'
  constructor
  · exact Nat.lt_of_lt_of_le hsize hle.functions
  · rw [hleft, hright]
    exact ⟨Γ, h, hmatches⟩
  · rw [hleft]
    simp

theorem property (hgood : W.Good K L) {i : Address} (hi : i < W.left.instances.size)
    {name name' : Token} (hname : SameToken L name name') :
    Lockstep K L F limit W a (Eval.property i name) (Eval.property i name') (SameValue K L) := by
  refine bind_getHeap ?_
  simp only [hgood.instanceObject_right, hgood.findMethod?_right, hname.lexeme]
  cases hfield : (W.left.instanceObject i).fields.find? name.lexeme with
  | some v => exact .pure hgood ⟨rfl, hgood.fields i hi _ v hfield⟩
  | none =>
      cases hfound : W.left.findMethod? (W.left.instanceObject i).classAddress name.lexeme with
      | none => exact .fail hgood hname.line rfl
      | some f =>
          have hf := hgood.method_of_findMethod? (hgood.classOf i hi) hfound
          refine (bindMethod hgood hf hi).bind ?_
          rintro W₁ hle₁ hgood₁ b b' ⟨rfl, hb, -⟩
          exact .pure hgood₁ ⟨rfl, hb⟩

theorem superMethod (htables : Tables K L σ σ') (hgood : W.Good K L) (hmatches : W.Matches a Γ)
    {ref ref' : Reference} {m m' : Token} (href : K Γ ref ref')
    (hname : ref.name.lexeme = "super") (hm : SameToken L m m') (hderived : Γ.InDerived) :
    Lockstep K L F limit W a (Eval.superMethod σ ref m) (Eval.superMethod σ' ref' m')
      (SameValue K L) := by
  obtain ⟨hline, hentry, hentry', -⟩ := htables Γ ref ref' href
  obtain ⟨d, hdistance, hinner, houter⟩ := hderived
  obtain ⟨l, hl, hreceiver⟩ := Option.map_eq_some_iff.mp hinner
  obtain ⟨l', hl', hsuperclass⟩ := Option.map_eq_some_iff.mp houter
  rw [hname, hdistance] at hentry hentry'
  obtain ⟨f, hf, hfits⟩ := hmatches.fits hgood hl
  obtain ⟨g, hg, hgfits⟩ := hmatches.fits hgood hl'
  obtain ⟨i, hi, hobject, hobject'⟩ :=
    hgood.getAt_receiver hf hfits.size (hfits.origin.trans hreceiver)
  obtain ⟨c, hc, hclass, hclass'⟩ :=
    hgood.getAt_superclass hg hgfits.size (hgfits.origin.trans hsuperclass)
  simp only [Eval.superMethod, hentry, hentry']
  refine bind_get fun n n' hstep => ?_
  rw [hstep.left, hstep.right, hstep.current, hstep.current']
  simp only [hclass, hclass', hobject, hobject', hgood.findMethod?_right, hm.lexeme]
  refine (pure (R := fun W' v v' => W' = W ∧ v = .classRef c ∧ v' = v) hgood ⟨rfl, rfl, rfl⟩).bind ?_
  rintro W' hle hgood' v v' ⟨rfl, rfl, rfl⟩
  refine (pure (R := fun W₁ v v' => W₁ = W' ∧ v = .object i ∧ v' = v) hgood' ⟨rfl, rfl, rfl⟩).bind ?_
  rintro W₁ hle₁ hgood₁ v v' ⟨rfl, rfl, rfl⟩
  cases hfound : W₁.left.findMethod? c m.lexeme with
  | none =>
      simp only [hfound]
      exact .fail hgood₁ hm.line rfl
  | some found =>
      simp only [hfound]
      refine (bindMethod hgood₁ (hgood₁.method_of_findMethod? hc hfound) hi).bind ?_
      rintro W₂ hle₂ hgood₂ b b' ⟨rfl, hb, -⟩
      exact .pure hgood₂ ⟨rfl, hb⟩

/-! ### Nodes -/

theorem valid_ofLiteral (W : World) (v : Literal) : W.Valid K L (Eval.ofLiteral v) := by
  cases v <;> trivial

theorem expression {eval eval' : Expr → Eval Value} {call call' : Value → List Value → Nat → Eval Value}
    (heval : Evaluates K L F eval eval') (hcall : Invokes K L F call call')
    (htables : Tables K L σ σ') :
    Evaluates K L F (Eval.expression σ eval call) (Eval.expression σ' eval' call') := by
  intro limit W a Γ e e' hgood hmatches hlimit h
  cases h with
  | literal => exact .pure hgood ⟨rfl, valid_ofLiteral W _⟩
  | group he => exact heval limit W a Γ _ _ hgood hmatches hlimit he
  | unary ho hr =>
      refine (heval limit W a Γ _ _ hgood hmatches hlimit hr).bind ?_
      rintro W₁ hle₁ hgood₁ v v' ⟨rfl, hv⟩
      rw [unaryOperation_eq ho]
      exact operation hgood₁ ho.line (harmless_unaryOperation _ _)
  | binary hl ho hr =>
      refine (heval limit W a Γ _ _ hgood hmatches hlimit hl).bind ?_
      rintro W₁ hle₁ hgood₁ v v' ⟨rfl, hv⟩
      refine (heval limit W₁ a Γ _ _ hgood₁ (hmatches.mono hle₁) (Nat.le_trans hlimit hle₁.frames)
        hr).bind ?_
      rintro W₂ hle₂ hgood₂ w w' ⟨rfl, hw⟩
      rw [binaryOperation_eq ho]
      exact operation hgood₂ ho.line (harmless_binaryOperation _ _ _)
  | logical hl ho hr =>
      refine (heval limit W a Γ _ _ hgood hmatches hlimit hl).bind ?_
      rintro W₁ hle₁ hgood₁ v v' ⟨rfl, hv⟩
      rw [shortCircuits_eq ho]
      split
      · exact .pure hgood₁ ⟨rfl, hv⟩
      · exact heval limit W₁ a Γ _ _ hgood₁ (hmatches.mono hle₁) (Nat.le_trans hlimit hle₁.frames) hr
  | ident href =>
      refine (lookUp hgood hmatches (.intro href) (htables Γ _ _ href)).mono ?_
      rintro W' - - v v' ⟨rfl, rfl, hv⟩
      exact ⟨rfl, hv⟩
  | assign href hthis hsuper hv =>
      refine (heval limit W a Γ _ _ hgood hmatches hlimit hv).bind ?_
      rintro W₁ hle₁ hgood₁ v v' ⟨rfl, hv⟩
      refine (assignTo hgood₁ (hmatches.mono hle₁) href (htables Γ _ _ href) hthis hsuper hv).bind ?_
      rintro W₂ hle₂ hgood₂ _ _ -
      exact .pure hgood₂ ⟨rfl, hv.mono hgood₁ hle₂⟩
  | call hf hp hes =>
      refine (heval limit W a Γ _ _ hgood hmatches hlimit hf).bind ?_
      rintro W₁ hle₁ hgood₁ f f' ⟨rfl, hf⟩
      have hlimit₁ := Nat.le_trans hlimit hle₁.frames
      refine (evaluateAll heval hgood₁ (hmatches.mono hle₁) hlimit₁ hes).bind ?_
      rintro W₂ hle₂ hgood₂ vs vs' ⟨rfl, hvs⟩
      exact hcall limit W₂ a _ _ _ _ hgood₂ (Nat.le_trans hlimit₁ hle₂.frames) hp.line
        (hf.mono hgood₁ hle₂) hvs
  | function hd =>
      refine (newClosure hgood).mono ?_
      rintro W₁ hle₁ hgood₁ v v' ⟨rfl, rfl, rfl⟩
      exact ⟨rfl, plain_of_closure hgood (.refl 0 _) (hmatches.mono hle₁) hd⟩
  | get ho hn =>
      refine (heval limit W a Γ _ _ hgood hmatches hlimit ho).bind ?_
      rintro W₁ hle₁ hgood₁ v v' ⟨rfl, hv⟩
      cases v' with
      | object i => exact property hgood₁ hv hn
      | _ => exact .fail hgood₁ hn.line rfl
  | set ho hn hvalue =>
      refine (heval limit W a Γ _ _ hgood hmatches hlimit ho).bind ?_
      rintro W₁ hle₁ hgood₁ v v' ⟨rfl, hv⟩
      cases v' with
      | object i =>
          refine (heval limit W₁ a Γ _ _ hgood₁ (hmatches.mono hle₁)
            (Nat.le_trans hlimit hle₁.frames) hvalue).bind ?_
          rintro W₂ hle₂ hgood₂ w w' ⟨rfl, hw⟩
          have hi := Nat.lt_of_lt_of_le hv hle₂.instances
          rw [hn.lexeme]
          refine (changeHeap (W₂.le_setField hi _ w') (hgood₂.setField hi hw) rfl rfl).bind ?_
          rintro W₃ hle₃ hgood₃ _ _ -
          exact .pure hgood₃ ⟨rfl, hw.mono hgood₂ hle₃⟩
      | _ => exact .fail hgood₁ hn.line rfl
  | this href _ _ =>
      refine (lookUp hgood hmatches (.intro href) (htables Γ _ _ href)).mono ?_
      rintro W' - - v v' ⟨rfl, rfl, hv⟩
      exact ⟨rfl, hv⟩
  | super href hname hm hderived => exact superMethod htables hgood hmatches href hname hm hderived

end Lockstep

end LoxLang
