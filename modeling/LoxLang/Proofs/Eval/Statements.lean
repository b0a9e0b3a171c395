import LoxLang.Eval.Statement
import LoxLang.Proofs.Eval.Expressions

/-!
Statements in lockstep, one node at a time. A statement runs in a frame that binds exactly the names
that are ready in its layer; behind a declaration the frame and the layer have one more.
-/

namespace LoxLang

open Scope

namespace World

variable {K : Layers → Reference → Reference → Prop} {L : Nat → Nat → Prop} {limit : Nat}
  {W W' : World} {a : Address} {Γ : Layers} {name : String} {v : Value}

theorem Stands.size (hgood : W.Good K L) (h : W.Stands a Γ) : a < W.left.frames.size :=
  h.place.size hgood

/-- What is closed below the frame that follows leaves a statement where it stands. -/
theorem Stands.mono (hgood : W.Good K L) (hle : W.Le (a + 1) W') (h : W.Stands a Γ) :
    W'.Stands a Γ := by
  have hsize := h.size hgood
  have horigin := hle.origin a hsize
  refine ⟨h.place.mono hle, ?_, horigin ▸ h.receiver, horigin ▸ h.superclass⟩
  cases Γ with
  | nil => trivial
  | cons l Γ =>
      intro other
      rw [← h.exact other]
      exact ⟨hle.closed a hsize (Nat.lt_succ_self a) other, hle.binds a hsize other⟩

/-- A name that is only declared asks nothing of the frame. -/
theorem Matches.declare (h : W.Matches a Γ) (name : String) : W.Matches a (Γ.mark name false) := by
  cases Γ with
  | nil => exact h
  | cons l Γ =>
      obtain ⟨hfits, houter⟩ := h
      refine ⟨⟨hfits.size, hfits.origin, hfits.rename, ?_⟩, houter⟩
      intro other hother
      rw [Bindings.find?_insert] at hother
      split at hother
      · cases hother
      · exact hfits.ready other hother

/-- The name on the right of a declaration is the one that belongs to the frame. -/
theorem Matches.here (hgood : W.Good K L) (h : W.Matches a Γ) (name : String) :
    Γ.here name = W.rename a name := by
  cases Γ with
  | nil =>
      cases h
      rw [hgood.global_names]
      rfl
  | cons l Γ =>
      rw [h.1.rename]
      rfl

/-- Behind a declaration the name is ready. -/
theorem Stands.define (hgood : W.Good K L) (h : W.Stands a Γ) (name : String) (v : Value) :
    (W.define a name v).Stands a (Γ.mark name true) := by
  have hsize := h.size hgood
  have hle : W.Le a (W.define a name v) := W.le_define hsize name v (.inl (Nat.le_refl a))
  have horigin := hle.origin a hsize
  have hbinds : ∀ other, (W.define a name v).left.Binds a other ↔
      name = other ∨ W.left.Binds a other := by
    intro other
    rw [binds_define hsize]
    simp
  refine ⟨?_, ?_, horigin ▸ h.receiver, horigin ▸ h.superclass⟩
  · cases Γ with
    | nil => exact h.place
    | cons l Γ =>
        obtain ⟨hfits, b, hb, houter⟩ := h.place
        have hfits' := hfits.mono hle
        refine ⟨⟨hfits'.size, hfits'.origin, hfits'.rename, ?_⟩, b, ?_, houter.mono hle⟩
        · intro other hother
          rw [Bindings.find?_insert] at hother
          rw [hbinds]
          split at hother
          case isTrue heq => exact .inl heq
          case isFalse => exact .inr (hfits.ready other hother)
        · rw [hle.enclosing a hsize, hb]
  · cases Γ with
    | nil => trivial
    | cons l Γ =>
        intro other
        rw [hbinds, h.exact other, Bindings.find?_insert]
        split
        case isTrue heq => simp [heq]
        case isFalse hne => simp [hne]

end World

namespace Lockstep

variable {K : Layers → Reference → Reference → Prop} {L : Nat → Nat → Prop} {F : World → Prop}
  {σ σ' : Setting} {limit : Nat} {W : World} {a : Address} {Γ Γ' : Layers}
  {eval eval' : Expr → Eval Value} {exec exec' : Stmt → Eval Flow}

/-- How statements end: alike, and where the next statement stands unless one has returned. -/
def Ends (K : Layers → Reference → Reference → Prop) (L : Nat → Nat → Prop) (a : Address)
    (Γ : Layers) (W : World) (r r' : Flow) : Prop :=
  SameFlow K L W r r' ∧ (r = .normal → W.Stands a Γ)

/-- A statement that runs alike ends alike. -/
def Executes (K : Layers → Reference → Reference → Prop) (L : Nat → Nat → Prop)
    (F : World → Prop) (exec exec' : Stmt → Eval Flow) : Prop :=
  ∀ limit W a Γ s s', W.Good K L → W.Stands a Γ → limit ≤ a → Alike K L Γ (.stmt s s') →
    Lockstep K L F limit W a (exec s) (exec' s') (Ends K L a (Γ.after s))

theorem normal (hgood : W.Good K L) (hstands : W.Stands a Γ) :
    Lockstep K L F limit W a (return Flow.normal) (return Flow.normal) (Ends K L a Γ) :=
  pure hgood ⟨⟨rfl, trivial⟩, fun _ => hstands⟩

/-- What gives no frame below the next one new names leaves a statement where it stands. -/
theorem standing {α α' : Type} {x : Eval α} {x' : Eval α'} {R : World → α → α' → Prop}
    (hgood : W.Good K L) (hstands : W.Stands a Γ) (hlimit : limit ≤ a)
    (hx : Lockstep K L F (a + 1) W a x x' R) :
    Lockstep K L F limit W a x x' fun W' v v' => R W' v v' ∧ W'.Stands a Γ := by
  refine (hx.weaken (Nat.le_succ_of_le hlimit)).mono ?_
  rintro W' - - v v' ⟨hle, hv⟩
  exact ⟨hv, hstands.mono hgood hle⟩

/-- An expression of a statement leaves the frame of the statement as it is. -/
theorem inside (heval : Evaluates K L F eval eval') (hgood : W.Good K L) (hstands : W.Stands a Γ)
    (hlimit : limit ≤ a) {e e' : Expr} (hplace : W.Matches a Γ') (he : Alike K L Γ' (.expr e e')) :
    Lockstep K L F limit W a (eval e) (eval' e') fun W' v v' =>
      SameValue K L W' v v' ∧ W'.Stands a Γ :=
  standing hgood hstands hlimit (heval (a + 1) W a Γ' e e' hgood hplace (hstands.size hgood) he)

theorem optionalValue (heval : Evaluates K L F eval eval') (hgood : W.Good K L)
    (hstands : W.Stands a Γ) (hlimit : limit ≤ a) {e e' : Option Expr} (hplace : W.Matches a Γ')
    (he : Option.Rel (fun e e' => Alike K L Γ' (.expr e e')) e e') :
    Lockstep K L F limit W a (Eval.optionalValue eval e) (Eval.optionalValue eval' e')
      fun W' v v' => SameValue K L W' v v' ∧ W'.Stands a Γ := by
  cases he with
  | some he => exact inside heval hgood hstands hlimit hplace he
  | none => exact .pure hgood ⟨⟨rfl, trivial⟩, hstands⟩

theorem defineHere (hgood : W.Good K L) (hstands : W.Stands a Γ) (hlimit : limit ≤ a)
    {name name' : String} (hname : name' = Γ.here name) {v : Value}
    (hv : (W.define a name v).Valid K L v) :
    Lockstep K L F limit W a (Eval.defineHere name v) (Eval.defineHere name' v)
      fun W' _ _ => W' = W.define a name v ∧ W'.Stands a (Γ.mark name true) := by
  have hsize := hstands.size hgood
  have hgood' := hgood.define hsize hv hstands.receiver hstands.superclass
  rw [hname, hstands.place.here hgood]
  refine bind_getCurrent ?_
  refine (changeHeap (W.le_define hsize name v (.inl hlimit)) hgood' rfl rfl).mono ?_
  rintro W' - - _ _ rfl
  exact ⟨rfl, hstands.define hgood name v⟩

/-- A value that is valid already is bound to a name. -/
theorem defineValue (hgood : W.Good K L) (hstands : W.Stands a Γ) (hlimit : limit ≤ a)
    {name name' : String} (hname : name' = Γ.here name) {v : Value} (hv : W.Valid K L v) :
    Lockstep K L F limit W a (Eval.defineHere name v) (Eval.defineHere name' v)
      fun W' _ _ => W'.Stands a (Γ.mark name true) := by
  have hle : W.Le a _ := W.le_define (hstands.size hgood) name v (.inl (Nat.le_refl a))
  refine (defineHere hgood hstands hlimit hname (hv.mono hgood hle)).mono ?_
  rintro W' - - _ _ ⟨-, hstands'⟩
  exact hstands'

theorem printValue (hgood : W.Good K L) {v : Value} (hv : W.Valid K L v) :
    Lockstep K L F limit W a (Eval.printValue v) (Eval.printValue v) fun W' _ _ => W' = W := by
  refine bind_getHeap ?_
  rw [hgood.printed_right hv]
  refine (write hgood _).bind ?_
  rintro W' - hgood' _ _ rfl
  exact write hgood' "\n"

/-! ### Sequences and loops -/

theorem executeAll (hexec : Executes K L F exec exec') :
    Runs K L F (Eval.executeAll exec) (Eval.executeAll exec') := by
  intro limit W a Γ ss ss' hgood hstands hlimit h
  induction ss generalizing Γ ss' W with
  | nil =>
      cases h
      exact .pure hgood ⟨rfl, trivial⟩
  | cons s ss ih =>
      cases h with
      | moreStmts hs hss =>
          refine (hexec limit W a Γ s _ hgood hstands hlimit hs).bind ?_
          rintro W₁ hle₁ hgood₁ r r' ⟨⟨rfl, hr⟩, hstands₁⟩
          cases r' with
          | normal => exact ih W₁ (Γ.after s) _ hgood₁ (hstands₁ rfl) hss
          | returned v => exact .pure hgood₁ ⟨rfl, hr⟩

theorem repeatWhile {test test' : Eval Bool} {body body' : Eval Flow}
    (htest : ∀ W, W.Good K L → W.Stands a Γ → Lockstep K L F limit W a test test' fun W' b b' =>
      b' = b ∧ W'.Stands a Γ)
    (hbody : ∀ W, W.Good K L → W.Stands a Γ → Lockstep K L F limit W a body body' (Ends K L a Γ))
    (n : Nat) (hgood : W.Good K L) (hstands : W.Stands a Γ) :
    Lockstep K L F limit W a (Eval.repeatWhile test body n) (Eval.repeatWhile test' body' n)
      (Ends K L a Γ) := by
  induction n generalizing W with
  | zero => exact fun _ _ hstep => .inr (.error (.refl limit W) hgood hstep .outOfFuel)
  | succ n ih =>
      refine (htest W hgood hstands).bind ?_
      rintro W₁ hle₁ hgood₁ b b' ⟨rfl, hstands₁⟩
      split
      · refine (hbody W₁ hgood₁ hstands₁).bind ?_
        rintro W₂ hle₂ hgood₂ r r' ⟨⟨rfl, hr⟩, hstands₂⟩
        cases r' with
        | normal => exact ih hgood₂ (hstands₂ rfl)
        | returned v => exact .pure hgood₂ ⟨⟨rfl, hr⟩, nofun⟩
      · exact normal hgood₁ hstands₁

/-- The statements of a block run in a new frame. -/
theorem block (hrun : Runs K L F (Eval.executeAll exec) (Eval.executeAll exec'))
    (hgood : W.Good K L) (hstands : W.Stands a Γ) (hlimit : limit ≤ a) {body body' : List Stmt}
    {ρ : Equiv.Perm String} (h : Alike K L (⟨.block body, [], ρ⟩ :: Γ) (.stmts body body')) :
    Lockstep K L F limit W a
      (do let here ← Eval.getCurrent
          let frame ← Eval.newFrame ⟨[], some here, .block body⟩
          Eval.inFrame frame (Eval.executeAll exec body))
      (do let here ← Eval.getCurrent
          let frame ← Eval.newFrame ⟨[], some here, .block body'⟩
          Eval.inFrame frame (Eval.executeAll exec' body'))
      (Ends K L a Γ) := by
  have hsize := hstands.size hgood
  have hnew : W.NewFrame K L ⟨[], some a, .block body⟩ ⟨[], some a, .block body'⟩ ρ :=
    ⟨rfl, ⟨a, hsize, rfl, rfl⟩, by simp, by simp, by simp, trivial⟩
  refine (standing (R := SameFlow K L) hgood hstands hlimit ?_).mono ?_
  · refine bind_getCurrent ?_
    refine (newFrame hgood hnew).bind ?_
    rintro W₁ hle₁ hgood₁ b b' ⟨hW₁, rfl, rfl⟩
    have hstands₁ : W₁.Stands W.left.frames.size (⟨.block body, [], ρ⟩ :: Γ) := by
      rw [hW₁]
      refine .opened (l := ⟨_, _, ρ⟩) hstands.place rfl rfl ?_ ?_ ?_ <;> simp
    exact (hrun (a + 1) W₁ _ _ body body' hgood₁ hstands₁ hsize h).inFrame
  · rintro W' - - r r' ⟨hr, hstands'⟩
    exact ⟨hr, fun _ => hstands'⟩

/-! ### Classes -/

theorem superclassOf (htables : Tables K L σ σ') (hgood : W.Good K L) (hplace : W.Matches a Γ)
    {name : String} {up up' : Reference} (href : K (Γ.mark name true) up up')
    (hne : up.name.lexeme ≠ name) :
    Lockstep K L F limit W a (Eval.superclassOf σ (some up)) (Eval.superclassOf σ' (some up'))
      fun W' c c' => W' = W ∧ c' = c ∧ ∃ b < W.left.classes.size, c = some b := by
  obtain ⟨hline, hentry, hentry', hname⟩ := htables _ up up' href
  rw [Layers.distance?_mark hne.symm] at hentry hentry'
  rw [Layers.nameOf_mark hne.symm] at hname
  have hknown : Known K Γ up up' := by
    intro d hearly
    exact ⟨Γ.mark name true, href, hearly.mark hne.symm⟩
  refine (lookUp hgood hplace hknown ⟨hline, hentry, hentry', hname⟩).bind ?_
  rintro W' - hgood' v v' ⟨rfl, rfl, hv⟩
  cases v' with
  | classRef c => exact .pure hgood' ⟨rfl, rfl, c, hv, rfl⟩
  | _ => exact .fail hgood' hline rfl

theorem inMethodFrame {α : Type} {x x' : Eval α} {R : World → α → α → Prop} (hgood : W.Good K L)
    (hplace : W.Matches a Γ) {up : Option Address}
    (hup : ∀ c, up = some c → c < W.left.classes.size)
    (hx : ∀ W' b, W.Le limit W' → W'.Good K L →
      W'.Matches b (if up.isSome then .superclass :: Γ else Γ) → Lockstep K L F limit W' b x x' R) :
    Lockstep K L F limit W a (Eval.inMethodFrame up x) (Eval.inMethodFrame up x') R := by
  cases up with
  | none => exact hx W a (.refl limit W) hgood hplace
  | some c =>
      have hnew : W.NewFrame K L ⟨[(superclassName, .classRef c)], some a, .superclass⟩
          ⟨[(superclassName, .classRef c)], some a, .superclass⟩ (.refl _) := by
        refine ⟨rfl, ⟨a, hplace.size hgood, rfl, rfl⟩, ?_, nofun,
          fun _ => ⟨rfl, c, hup c rfl, rfl⟩, trivial⟩
        intro name v hv
        obtain ⟨-, rfl⟩ := Bindings.eq_of_find?_single hv
        exact hup c rfl
      refine bind_getCurrent ((newFrame hgood hnew).bind ?_)
      rintro W₁ hle₁ hgood₁ b b' ⟨hW₁, rfl, rfl⟩
      have hplace₁ : W₁.Matches W.left.frames.size (.superclass :: Γ) := by
        rw [hW₁]
        refine hplace.addFrame (l := .superclass) rfl rfl fun name hname => ?_
        obtain ⟨rfl, -⟩ := Bindings.eq_of_find?_single hname
        rfl
      exact (hx W₁ _ hle₁ hgood₁ hplace₁).inFrame

theorem methodTable {ds ds' : List FunctionDecl} (hgood : W.Good K L)
    (hplace : W.Matches a Γ) (h : Alike K L (.receiver :: Γ) (.methods ds ds'))
    {table : Bindings Address} (htable : ∀ name f, table.find? name = some f → W.Method K L f) :
    Lockstep K L F limit W a (Eval.methodTable table ds) (Eval.methodTable table ds')
      fun W' t t' => t' = t ∧ ∀ name f, t.find? name = some f → W'.Method K L f := by
  induction ds generalizing W ds' table with
  | nil =>
      cases h
      exact .pure hgood ⟨rfl, htable⟩
  | cons d ds ih =>
      cases h with
      | moreMethods hd hds =>
      rename_i d' ds'
      refine bind_getCurrent ((newFunction hgood (by rfl) hd.isInitializer_eq).bind ?_)
      rintro W₁ hle₁ hgood₁ f f' ⟨hW₁, rfl, rfl⟩
      obtain ⟨hsize, hleft, hright⟩ := hgood.function_new ⟨d, a, d.isInitializer⟩
        ⟨d', a, d'.isInitializer⟩
      rw [← hW₁] at hsize hleft hright
      have hmethod : W₁.Method K L W.left.functions.size := by
        refine ⟨hsize, Γ, ?_⟩
        rw [hleft, hright]
        exact ⟨hd, hplace.mono hle₁⟩
      rw [hd.name_eq]
      refine ih hgood₁ (hplace.mono hle₁) hds ?_
      intro name g hg
      rw [Bindings.find?_insert] at hg
      split at hg
      · cases hg
        exact hmethod
      · exact (htable name g hg).mono hle₁

/-- A class is bound to its name like any other value. -/
theorem defineClass (hgood : W.Good K L) (hstands : W.Stands a Γ) (hlimit : limit ≤ a)
    {n n' : Token} (hn : SameToken L n n') (hhere : Γ.here n.lexeme = n.lexeme)
    {up up' : Option Reference} {derived : Bool}
    (hup : Lockstep K L F limit W a (Eval.superclassOf σ up) (Eval.superclassOf σ' up')
      fun W' c c' => W' = W ∧ c' = c ∧ c.isSome = derived ∧
        ∀ b, c = some b → b < W.left.classes.size)
    {ds ds' : List FunctionDecl}
    (hds : Alike K L ((Γ.mark n.lexeme true).forMethods derived) (.methods ds ds')) :
    Lockstep K L F limit W a (Eval.defineClass σ n up ds) (Eval.defineClass σ' n' up' ds')
      fun W' _ _ => W'.Stands a (Γ.mark n.lexeme true) := by
  refine hup.bind ?_
  rintro W' - hgood c c' ⟨rfl, rfl, rfl, hc⟩
  rw [hn.lexeme]
  refine (defineHere (v := .nil) hgood hstands hlimit hhere.symm trivial).bind ?_
  rintro W₁ hle₁ hgood₁ _ _ ⟨hW₁, hstands₁⟩
  have hc₁ : ∀ b, c' = some b → b < W₁.left.classes.size :=
    fun b hb => Nat.lt_of_lt_of_le (hc b hb) hle₁.classes
  have hmethods : ∀ W₂ b, W₁.Le (a + 1) W₂ → W₂.Good K L →
      W₂.Matches b (if c'.isSome then .superclass :: Γ.mark n.lexeme true else Γ.mark n.lexeme true) →
        Lockstep K L F (a + 1) W₂ b (Eval.methodTable [] ds) (Eval.methodTable [] ds')
          fun W' t t' => t' = t ∧ ∀ name f, t.find? name = some f → W'.Method K L f :=
    fun W₂ b _ hgood₂ hplace => methodTable hgood₂ hplace hds (by simp)
  refine (standing hgood₁ hstands₁ hlimit
    (inMethodFrame hgood₁ hstands₁.place hc₁ hmethods)).bind ?_
  rintro W₃ hle₃ hgood₃ table table' ⟨⟨rfl, htable⟩, hstands₃⟩
  have hc₃ : ∀ b, c' = some b → b < W₃.left.classes.size :=
    fun b hb => Nat.lt_of_lt_of_le (hc₁ b hb) hle₃.classes
  refine (standing hgood₃ hstands₃ hlimit (newClass hgood₃ hc₃ htable)).bind ?_
  rintro W₄ hle₄ hgood₄ b b' ⟨⟨hW₄, rfl, rfl⟩, hstands₄⟩
  have hsize := hstands₄.size hgood₄
  -- The frame binds the name since it was declared there.
  have hbinds : W₄.left.Binds a n.lexeme := by
    have hsize₁ := hstands₁.size hgood₁
    refine (hle₃.trans hle₄).binds a hsize₁ _ ?_
    rw [hW₁]
    exact (World.binds_define (hstands.size hgood) _ _ a _).mpr (.inl ⟨rfl, rfl⟩)
  have hname : W₄.rename a n.lexeme = n.lexeme := by
    have hhere₄ := hstands₄.place.here hgood₄ n.lexeme
    rw [← hhere₄]
    cases Γ with
    | nil => rfl
    | cons l Γ => exact hhere
  have hbinds' := (hgood₄.contains_right a n.lexeme).trans hbinds
  rw [hname] at hbinds'
  have hlinked' : W₄.right.Linked := fun a b hb => hgood₄.linked a b (hgood₄.enclosing a ▸ hb)
  refine bind_getHeap (bind_getCurrent ?_)
  rw [Heap.locate_of_binds hgood₄.linked hbinds, Heap.locate_of_binds hlinked' hbinds']
  refine (pure (R := fun W' f f' => W' = W₄ ∧ f = a ∧ f' = f) hgood₄ ⟨rfl, rfl, rfl⟩).bind ?_
  rintro W' - hgood' f f' ⟨rfl, rfl, rfl⟩
  have hclass : W₃.left.classes.size < W'.left.classes.size := by
    rw [hW₄, World.addClass, Heap.classes_size_addClass]
    exact Nat.lt_succ_self _
  have hright : W'.right.define f' n.lexeme (.classRef W₃.left.classes.size) =
      (W'.define f' n.lexeme (.classRef W₃.left.classes.size)).right := by
    rw [World.define, hname]
  refine (standing hgood' hstands₄ hlimit
    (changeHeap (W'.le_define hsize n.lexeme (.classRef _) (.inr hbinds))
      (hgood'.define (v := .classRef _) hsize hclass hstands₄.receiver hstands₄.superclass)
      rfl hright)).mono ?_
  rintro W₅ - - _ _ ⟨-, hstands₅⟩
  exact hstands₅

/-! ### Nodes -/

theorem statement (heval : Evaluates K L F eval eval') (hexec : Executes K L F exec exec')
    (htables : Tables K L σ σ') (fuel : Nat) :
    Executes K L F (Eval.statement σ fuel eval exec) (Eval.statement σ' fuel eval' exec') := by
  intro limit W a Γ s s' hgood hstands hlimit h
  have hplace := hstands.place
  cases h with
  | exprStmt he =>
      refine (inside heval hgood hstands hlimit hplace he).bind ?_
      rintro W₁ - hgood₁ v v' ⟨-, hstands₁⟩
      exact normal hgood₁ hstands₁
  | print he =>
      refine (inside heval hgood hstands hlimit hplace he).bind ?_
      rintro W₁ - hgood₁ v v' ⟨⟨rfl, hv⟩, hstands₁⟩
      refine (printValue hgood₁ hv).bind ?_
      rintro W₂ - hgood₂ _ _ rfl
      exact normal hgood₂ hstands₁
  | bareVar hn hfresh =>
      refine (optionalValue heval hgood hstands hlimit hplace .none).bind ?_
      rintro W₁ - hgood₁ v v' ⟨⟨rfl, hv⟩, hstands₁⟩
      refine (defineValue hgood₁ hstands₁ hlimit hn.lexeme hv).bind ?_
      rintro W₂ - hgood₂ _ _ hstands₂
      exact normal hgood₂ hstands₂
  | setVar hn hfresh he =>
      refine (optionalValue heval hgood hstands hlimit (hplace.declare _) (.some he)).bind ?_
      rintro W₁ - hgood₁ v v' ⟨⟨rfl, hv⟩, hstands₁⟩
      refine (defineValue hgood₁ hstands₁ hlimit hn.lexeme hv).bind ?_
      rintro W₂ - hgood₂ _ _ hstands₂
      exact normal hgood₂ hstands₂
  | block hbody => exact block (executeAll hexec) hgood hstands hlimit hbody
  | ifThen hc ha hplain =>
      refine (inside heval hgood hstands hlimit hplace hc).bind ?_
      rintro W₁ - hgood₁ v v' ⟨⟨rfl, hv⟩, hstands₁⟩
      split
      · have hthen := hexec limit W₁ a Γ _ _ hgood₁ hstands₁ hlimit ha
        rwa [Layers.after, hplain] at hthen
      · exact normal hgood₁ hstands₁
  | ifElse hc ha hplain hb hplain' =>
      refine (inside heval hgood hstands hlimit hplace hc).bind ?_
      rintro W₁ - hgood₁ v v' ⟨⟨rfl, hv⟩, hstands₁⟩
      split
      · have hthen := hexec limit W₁ a Γ _ _ hgood₁ hstands₁ hlimit ha
        rwa [Layers.after, hplain] at hthen
      · have helse := hexec limit W₁ a Γ _ _ hgood₁ hstands₁ hlimit hb
        rwa [Layers.after, hplain'] at helse
  | loop hc ha hplain =>
      refine repeatWhile ?_ ?_ fuel hgood hstands
      · intro W₁ hgood₁ hstands₁
        refine (inside heval hgood₁ hstands₁ hlimit hstands₁.place hc).map ?_
        rintro W₂ - - v v' ⟨⟨rfl, hv⟩, hstands₂⟩
        exact ⟨rfl, hstands₂⟩
      · intro W₁ hgood₁ hstands₁
        have hbody := hexec limit W₁ a Γ _ _ hgood₁ hstands₁ hlimit ha
        rwa [Layers.after, hplain] at hbody
  | functionStmt hhere hfresh hd =>
      refine (standing hgood hstands hlimit (newClosure hgood)).bind ?_
      rintro W₁ hle₁ hgood₁ v v' ⟨⟨rfl, rfl, rfl⟩, hstands₁⟩
      rename_i d d'
      -- The function can be held once its own name is ready.
      have hsize := hstands₁.size hgood₁
      have hle : World.Le 0 _ _ :=
        World.le_define hsize d.name (.function W.left.functions.size) (.inl (Nat.zero_le a))
      have hplain := plain_of_closure hgood hle
        (hstands₁.define hgood₁ d.name (.function W.left.functions.size)).place hd
      rw [hd.name_eq]
      refine (defineHere (v := .function _) hgood₁ hstands₁ hlimit hhere.symm hplain).bind ?_
      rintro W₂ - hgood₂ _ _ ⟨-, hstands₂⟩
      exact normal hgood₂ hstands₂
  | bareRet hk =>
      exact .pure hgood ⟨⟨rfl, trivial⟩, nofun⟩
  | ret hk he =>
      refine (inside heval hgood hstands hlimit hplace he).map ?_
      rintro W₁ - hgood₁ v v' ⟨⟨rfl, hv⟩, -⟩
      exact ⟨⟨rfl, hv⟩, nofun⟩
  | baseClass hn hhere hfresh hms =>
      have hup : Lockstep K L F limit W a (Eval.superclassOf σ none) (Eval.superclassOf σ' none)
          fun W' c c' => W' = W ∧ c' = c ∧ c.isSome = false ∧
            ∀ b, c = some b → b < W.left.classes.size :=
        pure hgood ⟨rfl, rfl, rfl, nofun⟩
      refine (defineClass hgood hstands hlimit hn hhere hup hms).bind ?_
      rintro W₁ - hgood₁ _ _ hstands₁
      exact normal hgood₁ hstands₁
  | @derivedClass _ n n' up up' ms ms' hn hhere hfresh hup hne hms =>
      have hup : Lockstep K L F limit W a (Eval.superclassOf σ (some up))
          (Eval.superclassOf σ' (some up')) fun W' c c' => W' = W ∧ c' = c ∧ c.isSome = true ∧
            ∀ b, c = some b → b < W.left.classes.size := by
        refine (superclassOf htables hgood hplace hup hne).mono ?_
        rintro W' - - c c' ⟨rfl, rfl, b, hb, rfl⟩
        refine ⟨rfl, rfl, rfl, ?_⟩
        rintro _ ⟨rfl⟩
        exact hb
      refine (defineClass hgood hstands hlimit hn hhere hup hms).bind ?_
      rintro W₁ - hgood₁ _ _ hstands₁
      exact normal hgood₁ hstands₁

end Lockstep

end LoxLang
