import LoxLang.Proofs.Eval.Tandem

/-!
Variables and calls in tandem. A variable that the first side finds behind a bypassed frame the second
side finds one frame nearer. A body runs in a new frame on both sides, inside of the frames that the two
functions close over.
-/

namespace LoxLang

open Scope

namespace Bypass

/-- What is known of uses tells where the tables of both sides have them. -/
def Tables (F : Knowledge) (σ σ' : Setting) : Prop :=
  ∀ k skip u, F k skip u → u.Follows σ.distances σ'.distances k skip

/-- One value on both sides that programs can hold. -/
def SameValue (F : Knowledge) (W : Bypass) (v v' : Value) : Prop :=
  v' = v ∧ W.Valid F v

/-- One flow on both sides, with a value that programs can hold. -/
def SameFlow (F : Knowledge) (W : Bypass) (r r' : Flow) : Prop :=
  r' = r ∧ match r with
    | .normal => True
    | .returned v => W.Valid F v

/-- Where code runs: in its place, and in no bypassed frame if it declares something there. -/
structure Runs (F : Knowledge) (W : Bypass) (a : Address) (k : Identity) (skip : Option Nat)
    (p : Path) (names : List String) (us : List Use) : Prop where
  stands : W.Stands a skip p.depth
  nothing : W.bypassed a → names = []
  known : ∀ u ∈ us, F k skip u

section

variable {F : Knowledge} {W W' : Bypass} {a : Address} {k : Identity} {skip : Option Nat}
  {p q : Path} {names names' : List String} {us us' : List Use}

theorem Runs.mono (h : W.Runs F a k skip p names us) (hle : W.Le W') (hgood : W.Good F)
    (hgood' : W'.Good F) : W'.Runs F a k skip p names us where
  stands := h.stands.mono hle hgood.toGoodFrames hgood'.toGoodFrames
  nothing hpassed := h.nothing ((hle.bypassed a h.stands.size).mp hpassed)
  known := h.known

/-- A part of code runs where the code does. -/
theorem Runs.part (h : W.Runs F a k skip p names us) (hdepth : q.depth = p.depth)
    (hnames : names = [] → names' = []) (hus : us' ⊆ us) : W.Runs F a k skip q names' us' where
  stands := hdepth ▸ h.stands
  nothing hpassed := hnames (h.nothing hpassed)
  known u hu := h.known u (hus hu)

/-- Code that declares something is in a frame of both sides. -/
theorem Runs.kept (h : W.Runs F a k skip p names us) (hnames : names ≠ []) : W.Kept a :=
  ⟨h.stands.size, fun hpassed => hnames (h.nothing hpassed)⟩

end

namespace Tandem

variable {F : Knowledge} {σ σ' : Setting} {W : Bypass} {a : Address} {k : Identity}
  {skip : Option Nat} {p : Path} {line : Nat} {ref : Reference} {ofReceiver : Bool} {v : Value}

/-! ### Variables -/

theorem found {r r' : Except RuntimeCause Address} (hgood : W.Good F) (h : W.Found r r') :
    Tandem F W a (Eval.onLine line r) (Eval.onLine line r') fun W' f f' =>
      W' = W ∧ W.Kept f ∧ f' = W.image f := by
  cases h with
  | ok hf => exact pure hgood ⟨rfl, hf, rfl⟩
  | error hcause => exact throw hgood (.runtime hcause)

/-- The value of a name where it has been found. -/
theorem foundValue {r r' : Except RuntimeCause Address} (hgood : W.Good F) (h : W.Found r r')
    (name : String) :
    Tandem F W a (Eval.onLine line (r.map (W.left.valueIn name)))
      (Eval.onLine line (r'.map (W.right.valueIn name))) fun W' v v' =>
        W' = W ∧ SameValue F W v v' := by
  cases h with
  | ok hf => exact pure hgood ⟨rfl, hgood.valueIn_image hf name, hgood.valueIn_valid _ name⟩
  | error hcause => exact throw hgood (.runtime hcause)

theorem locate (htables : Tables F σ σ') (hgood : W.Good F) (hstands : W.Stands a skip p.depth)
    (href : F k skip ⟨ref, ofReceiver, p⟩) :
    Tandem F W a (Eval.locate σ ref) (Eval.locate σ' (ref.relabel (.renumber k))) fun W' f f' =>
      W' = W ∧ W.Kept f ∧ f' = W.image f := by
  obtain ⟨hentry, -, hmisses, -⟩ := htables k skip _ href
  have hframes := hgood.toGoodFrames
  refine bind_get fun m m' hstep => ?_
  dsimp only [Reference.relabel_renumber] at hentry hmisses ⊢
  rw [hentry, hstep.left, hstep.right, hstep.current, hstep.current']
  cases hd : σ.distances.lookup ref.id with
  | some d => exact found hgood (hstands.found_locateAt hframes _ fun w hw => hmisses w hw d hd)
  | none =>
      have hglobals := hframes.found_locate ref.name.lexeme hframes.globals
      rw [hframes.image_globals] at hglobals
      exact found hgood hglobals

theorem lookUp (htables : Tables F σ σ') (hgood : W.Good F) (hstands : W.Stands a skip p.depth)
    (href : F k skip ⟨ref, ofReceiver, p⟩) :
    Tandem F W a (Eval.lookUp σ ref) (Eval.lookUp σ' (ref.relabel (.renumber k)))
      (SameValue F) := by
  refine (locate htables hgood hstands href).bind ?_
  rintro W' - hgood' f f' ⟨rfl, hf, rfl⟩
  refine bind_getHeap (pure hgood' ⟨?_, hgood'.valueIn_valid f _⟩)
  exact hgood'.valueIn_image hf _

theorem assignTo (htables : Tables F σ σ') (hgood : W.Good F) (hstands : W.Stands a skip p.depth)
    (href : F k skip ⟨ref, ofReceiver, p⟩) (hv : W.Valid F v) :
    Tandem F W a (Eval.assignTo σ ref v) (Eval.assignTo σ' (ref.relabel (.renumber k)) v)
      fun _ _ _ => True := by
  refine (locate htables hgood hstands href).bind ?_
  rintro W' - hgood' f f' ⟨rfl, hf, rfl⟩
  have hle := W'.le_define hf.size ref.name.lexeme v
  refine (changeHeap hle (hgood'.define hf ref.name.lexeme hv) rfl rfl).mono ?_
  exact fun _ _ _ _ _ _ => trivial

/-! ### Calls -/

/-- Bodies that run in tandem. -/
def RunsBodies (F : Knowledge) (run run' : List Stmt → Eval Flow) : Prop :=
  ∀ W a k skip p ss, W.Good F → SpelledStmts ss →
    W.Runs F a k skip p (ss.flatMap Stmt.declares) (usesStmts ss p) →
      Tandem F W a (run ss) (run' (relabelStmts (.renumber k) ss)) (SameFlow F)

variable {run run' : List Stmt → Eval Flow} {arguments : List Value} {f : Address}

theorem callFunction (hrun : RunsBodies F run run') (hgood : W.Good F) (hf : W.SameFunction F 0 f)
    (harguments : ∀ v ∈ arguments, W.Valid F v) (line : Nat) :
    Tandem F W a (Eval.callFunction run f arguments line) (Eval.callFunction run' f arguments line)
      (SameValue F) := by
  refine bind_getHeap ?_
  obtain ⟨hclosure, hflag, hspelled, ⟨k, skip, p, asMethod, n, hdepth, hstands, hdecl, hknown⟩,
    hbound⟩ := hf.same
  generalize W.left.function f = o at *
  generalize W.right.function f = o' at *
  obtain ⟨⟨name, l, params, body⟩, closure, isInitializer⟩ := o
  obtain ⟨d', closure', isInitializer'⟩ := o'
  dsimp only at *
  subst hclosure hflag hdecl
  have hnew : W.FramesAround closure
      ⟨Eval.argumentBindings params arguments, some closure, .call (.mk name l params body)⟩
      ⟨Eval.argumentBindings (params.map (Token.relabel (.renumber k))) arguments,
        some (W.image closure),
        .call ((FunctionDecl.mk name l params body).relabel (.renumber k))⟩ :=
    ⟨hstands.size, by rw [Token.map_relabel_renumber], rfl, rfl⟩
  have hvalues : ∀ n v, (Eval.argumentBindings params arguments).find? n = some v → W.Valid F v :=
    fun n v hv => harguments v (mem_of_find?_argumentBindings hv)
  refine (newFrame hgood hnew hvalues).bind ?_
  rintro W₁ hle₁ hgood₁ b b' ⟨hW₁, rfl, rfl⟩
  have hruns : W₁.Runs F W.left.frames.size k skip
      (Path.behind (params.map Token.lexeme)
        (.function asMethod (FunctionDecl.mk name l params body).name [] :: p))
      (body.flatMap Stmt.declares) ((FunctionDecl.mk name l params body).uses asMethod p) := by
    constructor
    case stands =>
      rw [hW₁, Path.depth_behind, Path.depth_function, hdepth]
      exact hstands.addFrame hgood.toGoodFrames hnew
    case nothing =>
      intro hpassed
      rw [hW₁] at hpassed
      exact absurd rfl hpassed.1
    case known => exact hknown
  have hbody := hrun W₁ _ k skip _ body hgood₁ hspelled.2 hruns
  refine (hbody.inFrame hruns.stands.size).bind ?_
  rintro W₂ hle₂ hgood₂ r r' ⟨rfl, hr⟩
  cases isInitializer' with
  | false =>
      cases r' with
      | normal => exact pure hgood₂ ⟨rfl, trivial⟩
      | returned v => exact pure hgood₂ ⟨rfl, hr⟩
  | true =>
      have hle := hle₁.trans hle₂
      have hstands₂ := hstands.mono hle hgood.toGoodFrames hgood₂.toGoodFrames
      have hzero : ∀ w ∈ skip, 0 + w ≠ n := by
        rintro w hw heq
        refine hbound rfl rfl ((hstands.bypassed_iff hgood.toGoodFrames).mpr ⟨w, hw, ?_⟩)
        omega
      have hfound := hstands₂.found_locateAt hgood₂.toGoodFrames receiverName hzero
      rw [passing_zero hstands.around, hle.image closure hstands.size] at hfound
      refine bind_getHeap ((foundValue hgood₂ hfound receiverName).mono ?_)
      rintro W₃ - - v v' ⟨rfl, hv⟩
      exact hv

/-- A method that is bound to a receiver can be held by programs. -/
theorem bindMethod (hgood : W.Good F) (hf : W.SameFunction F 1 f) (i : Address) :
    Tandem F W a (Eval.bindMethod f (.object i)) (Eval.bindMethod f (.object i))
      fun W' b b' => b' = b ∧ W'.SameFunction F 0 b := by
  refine bind_getHeap ?_
  obtain ⟨hclosure, hflag, hspelled, ⟨k, skip, p, asMethod, n, hdepth, hstands, hdecl, hknown⟩,
    -⟩ := hf.same
  generalize W.left.function f = o at *
  generalize W.right.function f = o' at *
  obtain ⟨d, closure, isInitializer⟩ := o
  obtain ⟨d', closure', isInitializer'⟩ := o'
  dsimp only at *
  subst hclosure hflag hdecl
  have hnew : W.FramesAround closure ⟨[(receiverName, .object i)], some closure, .receiver⟩
      ⟨[(receiverName, .object i)], some (W.image closure), .receiver⟩ :=
    ⟨hstands.size, rfl, rfl, rfl⟩
  have hvalues : ∀ name v, Bindings.find? [(receiverName, Value.object i)] name = some v →
      W.Valid F v := by
    intro name v hv
    obtain ⟨-, rfl⟩ := Bindings.eq_of_find?_single hv
    trivial
  refine (newFrame hgood hnew hvalues).bind ?_
  rintro W₁ hle₁ hgood₁ b b' ⟨hW₁, rfl, rfl⟩
  have hstands₁ : W₁.Stands W.left.frames.size skip (n + 1) := by
    rw [hW₁]
    exact hstands.addFrame hgood.toGoodFrames hnew
  have hkept : ¬W₁.bypassed W.left.frames.size := by
    rw [hW₁]
    exact fun hpassed => hpassed.1 rfl
  have hcode : W₁.SameCode F 0 ⟨d, W.left.frames.size, isInitializer'⟩
      ⟨d.relabel (.renumber k), W₁.image W.left.frames.size, isInitializer'⟩ :=
    ⟨rfl, rfl, hspelled, ⟨k, skip, p, asMethod, n + 1, hdepth, hstands₁, rfl, hknown⟩,
      fun _ _ => hkept⟩
  refine (newFunction hgood₁ _ _).mono ?_
  rintro W₂ - - g g' ⟨rfl, rfl, rfl⟩
  exact ⟨rfl, hcode.addFunction hgood₁⟩

theorem instantiate (hrun : RunsBodies F run run') (hgood : W.Good F) (c : Address)
    (harguments : ∀ v ∈ arguments, W.Valid F v) (line : Nat) :
    Tandem F W a (Eval.instantiate run c arguments line) (Eval.instantiate run' c arguments line)
      (SameValue F) := by
  refine (newInstance hgood c).bind ?_
  rintro W₁ hle₁ hgood₁ i i' ⟨-, rfl⟩
  refine bind_getHeap ?_
  rw [hgood₁.findMethod?_right]
  cases hfound : W₁.left.findMethod? c FunctionDecl.initializerName with
  | none => exact pure hgood₁ ⟨rfl, trivial⟩
  | some f =>
      refine (bindMethod hgood₁ (hgood₁.method_of_findMethod? hfound) i').bind ?_
      rintro W₂ hle₂ hgood₂ b b' ⟨rfl, hb⟩
      have harguments₂ : ∀ v ∈ arguments, W₂.Valid F v := fun v hv =>
        (harguments v hv).mono (hle₁.trans hle₂) hgood.toGoodFrames hgood₂.toGoodFrames
      refine (callFunction hrun hgood₂ hb harguments₂ line).bind ?_
      rintro W₃ - hgood₃ v v' -
      exact pure hgood₃ ⟨rfl, trivial⟩

/-- Calls of one value with the same arguments. -/
theorem invoke (hrun : RunsBodies F run run') (hnatives : σ'.natives = σ.natives)
    (hfaithful : ∀ native ∈ σ.natives, native.Faithful) (hgood : W.Good F) {callee : Value}
    (hcallee : W.Valid F callee) (harguments : ∀ v ∈ arguments, W.Valid F v) (line : Nat) :
    Tandem F W a (Eval.invoke σ run callee arguments line)
      (Eval.invoke σ' run' callee arguments line) (SameValue F) := by
  refine bind_getHeap ?_
  rw [hnatives, hgood.arity?_right σ.natives hcallee]
  cases harity : W.left.arity? σ.natives callee with
  | none => exact fail hgood _
  | some n =>
      by_cases hlength : arguments.length = n
      case neg =>
        simp only [if_neg hlength]
        exact fail hgood _
      simp only [if_pos hlength]
      cases callee with
      | native i =>
          simp only [Eval.enter, hnatives]
          cases hnative : σ.natives[i]? with
          | none => exact fail hgood _
          | some native =>
              have hmem := List.mem_of_getElem? hnative
              refine bind_consult fun n => ?_
              obtain ⟨hright, hvalid⟩ := hgood.native (hfaithful native hmem) harguments n
              rw [hright]
              cases hresult : native.run ⟨W.left, n⟩ arguments with
              | ok v => exact pure hgood ⟨rfl, hvalid v hresult⟩
              | error message => exact fail hgood _
      | function f => exact callFunction hrun hgood hcallee harguments line
      | classRef c => exact instantiate hrun hgood c harguments line
      | _ => exact fail hgood _

end Tandem

end Bypass

end LoxLang
