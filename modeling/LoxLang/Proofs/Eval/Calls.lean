import LoxLang.Proofs.Eval.Lookup

/-!
Calls in lockstep. A body runs in a frame that fits the layer of its call, inside the frames that fit
the layers of its place in the text.
-/

namespace LoxLang

open Scope

namespace World

/-- The names that are bound in a frame are those that are ready in its layer. -/
def Exact (W : World) (a : Address) : Layers → Prop
  | [] => True
  | l :: _ => ∀ name, W.left.Binds a name ↔ l.names.find? name = some true

/-- Statements run in a frame where names can be declared, in which those before them have been. -/
structure Stands (W : World) (a : Address) (Γ : Layers) : Prop where
  place : W.Matches a Γ
  exact : W.Exact a Γ
  receiver : (W.left.frame a).origin ≠ .receiver
  superclass : (W.left.frame a).origin ≠ .superclass

/-- Code stands in a new frame that is opened for its layer and binds the names that are ready. -/
theorem Stands.opened {W : World} {a : Address} {Γ : Layers} {f f' : Frame} {l : Layer}
    (h : W.Matches a Γ) (horigin : f.origin = l.origin) (henclosing : f.enclosing = some a)
    (hexact : ∀ name, f.bindings.contains name = true ↔ l.names.find? name = some true)
    (hreceiver : l.origin ≠ .receiver) (hsuperclass : l.origin ≠ .superclass) :
    (W.addFrame f f' l.rename).Stands W.left.frames.size (l :: Γ) := by
  have hframe := W.frame_new f f' l.rename
  refine ⟨h.addFrame horigin henclosing fun name => (hexact name).mpr, ?_, ?_, ?_⟩
  · intro name
    rw [Heap.Binds, hframe]
    exact hexact name
  · rwa [hframe, horigin]
  · rwa [hframe, horigin]

end World

/-! ### Parameters -/

theorem contains_argumentBindings {params : List Token} {arguments : List Value}
    (hlength : arguments.length = params.length) (name : String) :
    (Eval.argumentBindings params arguments).contains name = true ↔
      name ∈ params.map Token.lexeme := by
  have key : ∀ (params : List Token) (arguments : List Value) (b : Bindings Value),
      arguments.length = params.length →
        ((((params.map Token.lexeme).zip arguments).foldl (fun b p => b.insert p.1 p.2) b).contains
          name = true ↔ name ∈ params.map Token.lexeme ∨ b.contains name = true) := by
    intro params
    induction params with
    | nil =>
        intro arguments b hlength
        simp
    | cons p params ih =>
        intro arguments b hlength
        cases arguments with
        | nil => cases hlength
        | cons v arguments =>
            simp only [List.map_cons, List.zip_cons_cons, List.foldl_cons, List.mem_cons]
            rw [ih arguments _ (Nat.succ.inj hlength), Bindings.contains_insert]
            rw [eq_comm, or_assoc, or_left_comm]
  rw [Eval.argumentBindings, key params arguments [] hlength]
  simp

theorem mem_of_find?_argumentBindings {params : List Token} {arguments : List Value} {name : String}
    {v : Value} (h : (Eval.argumentBindings params arguments).find? name = some v) : v ∈ arguments := by
  have key : ∀ (names : List String) (arguments : List Value) (b : Bindings Value),
      ((names.zip arguments).foldl (fun b p => b.insert p.1 p.2) b).find? name = some v →
        v ∈ arguments ∨ b.find? name = some v := by
    intro names
    induction names with
    | nil => exact fun _ _ h => .inr h
    | cons n names ih =>
        intro arguments b h
        cases arguments with
        | nil => exact .inr h
        | cons w arguments =>
            rw [List.zip_cons_cons, List.foldl_cons] at h
            rcases ih arguments _ h with hmem | hfound
            · exact .inl (List.mem_cons_of_mem _ hmem)
            · rw [Bindings.find?_insert] at hfound
              split at hfound
              · cases hfound
                exact .inl (List.mem_cons_self ..)
              · exact .inr hfound
  exact (key _ _ [] h).resolve_right (by simp)

/-- Renamed parameters are bound to the same arguments. -/
theorem argumentBindings_rename {L : Nat → Nat → Prop} {ρ : Equiv.Perm String}
    {params params' : List Token}
    (h : List.Forall₂ (fun p p' => TokenTo L (ρ p.lexeme) p p') params params')
    (arguments : List Value) :
    Eval.argumentBindings params' arguments =
      (Eval.argumentBindings params arguments).rename ρ := by
  have key : ∀ (arguments : List Value) (b : Bindings Value),
      ((params'.map Token.lexeme).zip arguments).foldl (fun b p => b.insert p.1 p.2) (b.rename ρ) =
        (((params.map Token.lexeme).zip arguments).foldl (fun b p => b.insert p.1 p.2) b).rename
          ρ := by
    induction h with
    | nil => exact fun _ _ => rfl
    | cons hp _ ih =>
        intro arguments b
        cases arguments with
        | nil => rfl
        | cons v arguments =>
            simp only [List.map_cons, List.zip_cons_cons, List.foldl_cons, hp.lexeme]
            rw [Bindings.insert_rename ρ.injective, ih]
  exact key arguments []

/-! ### Declarations -/

section

variable {K : Layers → Reference → Reference → Prop} {L : Nat → Nat → Prop} {Γ : Layers}
  {d d' : FunctionDecl}

theorem Scope.Alike.name_eq (h : Alike K L Γ (.decl d d')) : d'.name = d.name := by
  cases h with
  | decl hname _ _ _ =>
      cases hname with
      | none => rfl
      | some htoken => exact htoken.lexeme

theorem Scope.Alike.isInitializer_eq (h : Alike K L Γ (.decl d d')) :
    d'.isInitializer = d.isInitializer := by
  rw [FunctionDecl.isInitializer, h.name_eq, FunctionDecl.isInitializer]

theorem Scope.Alike.params_length (h : Alike K L Γ (.decl d d')) :
    d'.params.length = d.params.length := by
  cases h with
  | decl _ _ hparams _ => exact hparams.length_eq.symm

end

/-! ### Methods -/

namespace World

variable {K : Layers → Reference → Reference → Prop} {L : Nat → Nat → Prop} {W : World}
  {a : Address}

theorem Good.classObject_right (hgood : W.Good K L) (c : Address) :
    W.right.classObject c = W.left.classObject c := by
  rw [Heap.classObject, hgood.classes, Heap.classObject]

theorem Good.instanceObject_right (hgood : W.Good K L) (i : Address) :
    W.right.instanceObject i = W.left.instanceObject i := by
  rw [Heap.instanceObject, hgood.instances, Heap.instanceObject]

theorem Good.findMethod?_right (hgood : W.Good K L) (c : Address) (name : String) :
    W.right.findMethod? c name = W.left.findMethod? c name :=
  Heap.findMethod?_congr hgood.classes c name

theorem Good.lineage_lt (hgood : W.Good K L) {c : Address} (hc : c < W.left.classes.size) :
    ∀ b ∈ W.left.lineage c, b < W.left.classes.size := by
  have key : ∀ n, ∀ c < W.left.classes.size, ∀ b ∈ W.left.lineageUpTo n c,
      b < W.left.classes.size := by
    intro n
    induction n with
    | zero => exact fun _ _ _ hb => nomatch hb
    | succ n ih =>
        intro c hc b hb
        rw [Heap.lineageUpTo, List.mem_cons] at hb
        rcases hb with rfl | hb
        · exact hc
        · cases hup : (W.left.classObject c).superclass with
          | none => simp [hup] at hb
          | some up =>
              rw [hup] at hb
              have hlt := hgood.superclasses c hc up hup
              exact ih up (Nat.lt_trans hlt hc) b hb
  exact key _ c hc

/-- What a class has or inherits is a method. -/
theorem Good.method_of_findMethod? (hgood : W.Good K L) {c f : Address} {name : String}
    (hc : c < W.left.classes.size) (h : W.left.findMethod? c name = some f) : W.Method K L f := by
  obtain ⟨b, hb, hf⟩ := List.exists_of_findSome?_eq_some h
  exact hgood.methods b (hgood.lineage_lt hc b hb) name f hf

/-- A value takes as many arguments on either side. -/
theorem Good.arity?_right (hgood : W.Good K L) (natives : List Native) {v : Value}
    (hv : W.Valid K L v) : W.right.arity? natives v = W.left.arity? natives v := by
  cases v with
  | function f =>
      obtain ⟨Γ, halike, -⟩ := Plain.place hv
      exact congrArg some halike.params_length
  | classRef c =>
      simp only [Heap.arity?, hgood.findMethod?_right]
      cases hfound : W.left.findMethod? c FunctionDecl.initializerName with
      | none => rfl
      | some f =>
          obtain ⟨Γ, halike, -⟩ := (hgood.method_of_findMethod? hv hfound).place
          exact congrArg some halike.params_length
  | _ => rfl

/-- A value prints as the same text on either side. -/
theorem Good.printed_right (hgood : W.Good K L) {v : Value} (hv : W.Valid K L v) :
    v.printed W.right = v.printed W.left := by
  cases v with
  | function f =>
      obtain ⟨Γ, halike, -⟩ := Plain.place hv
      simp only [Value.printed, halike.name_eq]
  | classRef c => simp only [Value.printed, hgood.classObject_right]
  | object i => simp only [Value.printed, hgood.instanceObject_right, hgood.classObject_right]
  | bool b => cases b <;> rfl
  | _ => rfl

end World

/-- A host function that gives the same on either side, and gives programs nothing that they could not
hold. -/
def Native.Agrees (K : Layers → Reference → Reference → Prop) (L : Nat → Nat → Prop)
    (native : Native) : Prop :=
  ∀ W : World, W.Good K L → ∀ arguments, (∀ v ∈ arguments, W.Valid K L v) →
    ∀ n, native.run ⟨W.right, n⟩ arguments = native.run ⟨W.left, n⟩ arguments ∧
      ∀ v, native.run ⟨W.left, n⟩ arguments = .ok v → W.Valid K L v

namespace Lockstep

variable {K : Layers → Reference → Reference → Prop} {L : Nat → Nat → Prop} {F : World → Prop}
  {limit : Nat} {W : World} {a : Address} {Γ : Layers} {line line' : Nat}
  {run run' : List Stmt → Eval Flow} {arguments : List Value}

/-- One valid value on both sides. -/
def SameValue (K : Layers → Reference → Reference → Prop) (L : Nat → Nat → Prop) (W : World)
    (v v' : Value) : Prop :=
  v' = v ∧ W.Valid K L v

def FlowValid (K : Layers → Reference → Reference → Prop) (L : Nat → Nat → Prop) (W : World) :
    Flow → Prop
  | .normal => True
  | .returned v => W.Valid K L v

/-- One flow on both sides, with a valid value. -/
def SameFlow (K : Layers → Reference → Reference → Prop) (L : Nat → Nat → Prop) (W : World)
    (r r' : Flow) : Prop :=
  r' = r ∧ FlowValid K L W r

/-- Statements that run alike run in lockstep. -/
def Runs (K : Layers → Reference → Reference → Prop) (L : Nat → Nat → Prop) (F : World → Prop)
    (run run' : List Stmt → Eval Flow) : Prop :=
  ∀ limit W a Γ ss ss', W.Good K L → W.Stands a Γ → limit ≤ a →
    Alike K L Γ (.stmts ss ss') →
      Lockstep K L F limit W a (run ss) (run' ss') (SameFlow K L)

theorem callFunction (hrun : Runs K L F run run') (hgood : W.Good K L)
    (hlimit : limit ≤ W.left.frames.size) {f : Address} (hf : W.Plain K L f)
    (harguments : ∀ v ∈ arguments, W.Valid K L v)
    (hlength : arguments.length = (W.left.function f).arity) :
    Lockstep K L F limit W a (Eval.callFunction run f arguments line)
      (Eval.callFunction run' f arguments line') (SameValue K L) := by
  refine bind_getHeap ?_
  obtain ⟨Γ, halike, hmatches⟩ := hf.place
  obtain ⟨hclosure, hinit⟩ := hgood.functions f
  have hbound := hf.bound
  have hhangs : W.left.Hangs (some (W.left.function f).closure) (.call (W.left.function f).decl) :=
    ⟨f, hf.size, rfl, rfl⟩
  rw [FunctionObject.arity] at hlength
  generalize W.left.function f = o at halike hmatches hbound hhangs hlength hclosure hinit
  generalize W.right.function f = o' at halike hclosure hinit
  obtain ⟨d, closure, isInitializer⟩ := o
  obtain ⟨d', closure', isInitializer'⟩ := o'
  dsimp only at halike hmatches hbound hhangs hlength hclosure hinit ⊢
  subst hclosure hinit
  cases halike with
  | @decl _ name name' l l' params params' body body' ρ hname hl hparams hbody =>
  have hnew : W.NewFrame K L
      ⟨Eval.argumentBindings params arguments, some closure', .call (.mk name l params body)⟩
      ⟨Eval.argumentBindings params' arguments, some closure', .call (.mk name' l' params' body')⟩
      ρ := by
    refine ⟨argumentBindings_rename hparams arguments, ⟨closure', hmatches.size hgood, rfl, rfl⟩, ?_,
      by simp, by simp, hhangs⟩
    exact fun n v hv => harguments v (mem_of_find?_argumentBindings hv)
  refine (newFrame hgood hnew).bind ?_
  rintro W₁ hle₁ hgood₁ b b' ⟨hW₁, rfl, rfl⟩
  -- The frame of the call fits the layer of the body, and binds its parameters only.
  have hexact : ∀ n, (Eval.argumentBindings params arguments).contains n = true ↔
      (parameterScope params).find? n = some true := by
    intro n
    rw [find?_parameterScope]
    exact contains_argumentBindings hlength n
  have hstands : W₁.Stands W.left.frames.size
      (⟨.call (.mk name l params body), parameterScope params, ρ⟩ :: Γ) := by
    rw [hW₁]
    refine .opened (l := ⟨_, _, ρ⟩) hmatches rfl rfl hexact ?_ ?_ <;> simp
  refine (hrun limit W₁ W.left.frames.size _ body body' hgood₁ hstands hlimit hbody).inFrame.bind ?_
  rintro W₂ hle₂ hgood₂ r r' ⟨rfl, hr⟩
  cases isInitializer' with
  | false =>
      cases r' with
      | normal => exact .pure hgood₂ ⟨rfl, trivial⟩
      | returned v => exact .pure hgood₂ ⟨rfl, hr⟩
  | true =>
      have hle := hle₁.trans hle₂
      have hsize := hmatches.size hgood
      have horigin := (hle.origin closure' hsize).trans (hbound rfl)
      have hfirst : (W₂.left.chain closure')[0]? = some closure' := by
        rw [Heap.chain_eq hgood₂.linked]
        rfl
      obtain ⟨i, hi, hleft, hright⟩ :=
        hgood₂.getAt_receiver hfirst (Nat.lt_of_lt_of_le hsize hle.frames) horigin
      refine bind_getHeap ?_
      rw [hleft, hright]
      exact .pure hgood₂ ⟨rfl, hi⟩

/-- A method that is bound to a receiver can be held by programs. -/
theorem bindMethod (hgood : W.Good K L) {f i : Address} (hf : W.Method K L f)
    (hi : i < W.left.instances.size) :
    Lockstep K L F limit W a (Eval.bindMethod f (.object i)) (Eval.bindMethod f (.object i))
      fun W' b b' => b' = b ∧ W'.Plain K L b ∧
        (W'.left.function b).decl = (W.left.function f).decl := by
  refine bind_getHeap ?_
  obtain ⟨Γ, halike, hmatches⟩ := hf.place
  obtain ⟨hclosure, hinit⟩ := hgood.functions f
  have hhangs : W.left.Hangs (some (W.left.function f).closure) .receiver := ⟨f, hf.size, rfl⟩
  generalize W.left.function f = o at halike hmatches hhangs hclosure hinit ⊢
  generalize W.right.function f = o' at halike hclosure hinit
  obtain ⟨d, closure, isInitializer⟩ := o
  obtain ⟨d', closure', isInitializer'⟩ := o'
  dsimp only at halike hmatches hhangs hclosure hinit ⊢
  subst hclosure hinit
  have hnew : W.NewFrame K L ⟨[(receiverName, .object i)], some closure', .receiver⟩
      ⟨[(receiverName, .object i)], some closure', .receiver⟩ (.refl _) := by
    refine ⟨rfl, ⟨closure', hmatches.size hgood, rfl, rfl⟩, ?_, fun _ => ⟨rfl, i, hi, rfl⟩, nofun,
      hhangs⟩
    intro name v hv
    obtain ⟨-, rfl⟩ := Bindings.eq_of_find?_single hv
    exact hi
  refine (newFrame hgood hnew).bind ?_
  rintro W₁ hle₁ hgood₁ b b' ⟨hW₁, rfl, rfl⟩
  have hplace : W₁.Matches W.left.frames.size (.receiver :: Γ) := by
    rw [hW₁]
    refine hmatches.addFrame (l := .receiver) rfl rfl fun name hname => ?_
    obtain ⟨rfl, -⟩ := Bindings.eq_of_find?_single hname
    rfl
  refine (newFunction hgood₁ (by rfl) (by rfl)).mono ?_
  rintro W₂ hle₂ hgood₂ f₂ f₂' ⟨hW₂, rfl, rfl⟩
  obtain ⟨hsize, hdecl, hdecl'⟩ := hgood₁.function_new ⟨d, W.left.frames.size, isInitializer'⟩
    ⟨d', W.left.frames.size, isInitializer'⟩
  rw [← hW₂] at hsize hdecl hdecl'
  refine ⟨rfl, ⟨hsize, ?_, fun _ => ?_⟩, ?_⟩
  · rw [hdecl, hdecl']
    exact ⟨_, halike, hplace.mono hle₂⟩
  · rw [hdecl]
    exact (hplace.mono hle₂).1.origin
  · rw [hdecl]

theorem instantiate (hrun : Runs K L F run run') (hgood : W.Good K L)
    (hlimit : limit ≤ W.left.frames.size) {c : Address} (hc : c < W.left.classes.size)
    (harguments : ∀ v ∈ arguments, W.Valid K L v)
    (hlength : W.left.arity? natives (.classRef c) = some arguments.length) :
    Lockstep K L F limit W a (Eval.instantiate run c arguments line)
      (Eval.instantiate run' c arguments line') (SameValue K L) := by
  refine (newInstance hgood hc).bind ?_
  rintro W₁ hle₁ hgood₁ i i' ⟨hW₁, rfl, rfl⟩
  have hi : W.left.instances.size < W₁.left.instances.size := by
    rw [hW₁, World.addInstance, Heap.instances_size_addInstance]
    exact Nat.lt_succ_self _
  have hsame : W₁.left.findMethod? c = W.left.findMethod? c := by
    funext name
    exact Heap.findMethod?_congr (hW₁ ▸ rfl) c name
  refine bind_getHeap ?_
  rw [hgood₁.findMethod?_right, hsame]
  cases hfound : W.left.findMethod? c FunctionDecl.initializerName with
  | none => exact .pure hgood₁ ⟨rfl, hi⟩
  | some f =>
      have hf := hgood.method_of_findMethod? hc hfound
      have harity : arguments.length = (W.left.function f).arity := by
        simp only [Heap.arity?, hfound, Option.map_some, Option.getD_some, Option.some.injEq] at hlength
        exact hlength.symm
      refine (bindMethod hgood₁ (hf.mono hle₁) hi).bind ?_
      rintro W₂ hle₂ hgood₂ b b' ⟨rfl, hb, hdecl⟩
      have hle := hle₁.trans hle₂
      have hfunction : W₁.left.function f = W.left.function f := (hle₁.function f hf.size).1
      refine (callFunction hrun hgood₂ (Nat.le_trans hlimit hle.frames) hb
        (fun v hv => (harguments v hv).mono hgood hle) ?_).bind ?_
      · rw [harity, FunctionObject.arity, FunctionObject.arity, hdecl, hfunction]
      · rintro W₃ hle₃ hgood₃ v v' -
        exact .pure hgood₃ ⟨rfl, Nat.lt_of_lt_of_le hi (hle₂.trans hle₃).instances⟩

variable {σ σ' : Setting}

theorem invoke (hrun : Runs K L F run run') (hnatives : σ'.natives = σ.natives)
    (hagree : ∀ native ∈ σ.natives, native.Agrees K L) (hgood : W.Good K L)
    (hlimit : limit ≤ W.left.frames.size) (hline : L line line') {callee : Value}
    (hcallee : W.Valid K L callee) (harguments : ∀ v ∈ arguments, W.Valid K L v) :
    Lockstep K L F limit W a (Eval.invoke σ run callee arguments line)
      (Eval.invoke σ' run' callee arguments line') (SameValue K L) := by
  refine bind_getHeap ?_
  rw [hnatives, hgood.arity?_right σ.natives hcallee]
  cases harity : W.left.arity? σ.natives callee with
  | none => exact .fail hgood hline rfl
  | some n =>
      by_cases hlength : arguments.length = n
      case neg =>
        simp only [if_neg hlength]
        exact .fail hgood hline rfl
      simp only [if_pos hlength]
      subst hlength
      cases callee with
      | native i =>
          simp only [Eval.enter, hnatives]
          cases hnative : σ.natives[i]? with
          | none => exact .fail hgood hline rfl
          | some native =>
              refine bind_consult fun n => ?_
              obtain ⟨hright, hvalid⟩ :=
                hagree native (List.mem_of_getElem? hnative) W hgood arguments harguments n
              rw [hright]
              cases hresult : native.run ⟨W.left, n⟩ arguments with
              | ok v => exact .pure hgood ⟨rfl, hvalid v hresult⟩
              | error message => exact .fail hgood hline rfl
      | function f =>
          exact callFunction hrun hgood hlimit hcallee harguments (Option.some.inj harity).symm
      | classRef c => exact instantiate hrun hgood hlimit hcallee harguments harity
      | _ => exact .fail hgood hline rfl

end Lockstep

end LoxLang
