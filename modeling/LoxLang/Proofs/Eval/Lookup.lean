import LoxLang.Proofs.Eval.Lockstep

/-!
Look-ups in lockstep. Where the frames outwards fit the layers of a reference, its distance leads to
the frame of the layer that it is bound to.
-/

namespace LoxLang

open Scope

/-- What the tables of the two sides say about a pair of references: the distance at which the layers
have the name, and the name on the right that belongs to this layer. -/
structure Bound (σ σ' : Setting) (L : Nat → Nat → Prop) (Γ : Layers) (ref ref' : Reference) :
    Prop where
  line : L ref.name.line ref'.name.line
  entry : σ.distances.lookup ref.id = Γ.distance? ref.name.lexeme
  entry' : σ'.distances.lookup ref'.id = Γ.distance? ref.name.lexeme
  name : ref'.name.lexeme = Γ.nameOf ref.name.lexeme

namespace Scope.Layers

variable {Γ : Layers} {name : String} {d : Nat}

/-- A mark on another name leaves an early name early. -/
theorem Early.mark {other : String} {ready : Bool} (h : Γ.Early name d) (hne : other ≠ name) :
    (Γ.mark other ready).Early name d := by
  obtain ⟨hdistance, l, hl, hfound⟩ := h
  refine ⟨(distance?_mark hne).trans hdistance, ?_⟩
  cases Γ with
  | nil => cases hl
  | cons l' Γ =>
      cases d with
      | succ d => exact ⟨l, hl, hfound⟩
      | zero =>
          cases hl
          refine ⟨_, rfl, ?_⟩
          rw [Bindings.find?_insert, if_neg hne, hfound]

end Scope.Layers

namespace World

variable {K : Layers → Reference → Reference → Prop} {L : Nat → Nat → Prop} {W : World}
  {a : Address} {Γ : Layers}

theorem Good.chain_right (hgood : W.Good K L) (a : Address) : W.right.chain a = W.left.chain a := by
  have key : ∀ n a, W.right.chainUpTo n a = W.left.chainUpTo n a := by
    intro n
    induction n with
    | zero => exact fun _ => rfl
    | succ n ih => exact fun a => by simp only [Heap.chainUpTo, hgood.enclosing, ih]
  exact key _ a

theorem Good.chain_globals (hgood : W.Good K L) : W.left.chain Heap.globals = [Heap.globals] := by
  rw [Heap.chain_eq hgood.linked, hgood.outermost]

/-- The frames outwards are as many as the layers, and the globals; each was opened for its layer. -/
theorem Matches.chain (hgood : W.Good K L) (h : W.Matches a Γ) :
    (W.left.chain a).map (fun f => (W.left.frame f).origin) = Γ.map Layer.origin ++ [.globals] := by
  induction Γ generalizing a with
  | nil =>
      cases h
      rw [hgood.chain_globals]
      exact congrArg (fun o => [o]) hgood.global_origin
  | cons l Γ ih =>
      obtain ⟨hfits, b, hb, hmatches⟩ := h
      rw [Heap.chain_eq hgood.linked, hb]
      simp only [List.map_cons, List.cons_append, ih hmatches, hfits.origin]

theorem Matches.fits (hgood : W.Good K L) (h : W.Matches a Γ) {d : Nat} {l : Layer}
    (hl : Γ[d]? = some l) : ∃ f, (W.left.chain a)[d]? = some f ∧ W.Fits f l := by
  induction Γ generalizing a d with
  | nil => cases hl
  | cons l' Γ ih =>
      obtain ⟨hfits, b, hb, hmatches⟩ := h
      rw [Heap.chain_eq hgood.linked, hb]
      cases d with
      | zero =>
          cases hl
          exact ⟨a, rfl, hfits⟩
      | succ d => exact ih hmatches hl

/-- A frame on the right binds what the frame on the left binds, under the name that belongs to it. -/
theorem Good.find?_right (hgood : W.Good K L) (a : Address) (name : String) :
    (W.right.frame a).bindings.find? (W.rename a name) = (W.left.frame a).bindings.find? name := by
  rw [hgood.bindings a]
  exact Bindings.find?_rename (W.rename a).injective _ name

theorem Good.valueIn_right (hgood : W.Good K L) (a : Address) (name : String) :
    W.right.valueIn (W.rename a name) a = W.left.valueIn name a := by
  rw [Heap.valueIn, hgood.find?_right, Heap.valueIn]

theorem Good.contains_right (hgood : W.Good K L) (a : Address) (name : String) :
    (W.right.frame a).bindings.contains (W.rename a name) =
      (W.left.frame a).bindings.contains name := by
  rw [Bindings.contains, hgood.find?_right, Bindings.contains]

theorem Good.valueIn_valid (hgood : W.Good K L) (a : Address) (name : String) :
    W.Valid K L (W.left.valueIn name a) := by
  rw [Heap.valueIn]
  cases hfound : (W.left.frame a).bindings.find? name with
  | none => trivial
  | some v => exact hgood.values a name v hfound

/-- The frame of a receiver gives one object on both sides. -/
theorem Good.getAt_receiver (hgood : W.Good K L) {d : Nat} {f : Address}
    (hf : (W.left.chain a)[d]? = some f) (hsize : f < W.left.frames.size)
    (horigin : (W.left.frame f).origin = .receiver) :
    ∃ i < W.left.instances.size, W.left.getAt a d receiverName = .ok (.object i) ∧
      W.right.getAt a d receiverName = .ok (.object i) := by
  obtain ⟨hrename, i, hi, hleft⟩ := hgood.receiver f hsize horigin
  have hright := hgood.bindings f
  rw [hrename, hleft] at hright
  exact ⟨i, hi, Heap.getAt_of_single hf hleft,
    Heap.getAt_of_single ((hgood.chain_right a).symm ▸ hf) hright⟩

/-- The frame of a superclass gives one class on both sides. -/
theorem Good.getAt_superclass (hgood : W.Good K L) {d : Nat} {f : Address}
    (hf : (W.left.chain a)[d]? = some f) (hsize : f < W.left.frames.size)
    (horigin : (W.left.frame f).origin = .superclass) :
    ∃ c < W.left.classes.size, W.left.getAt a d superclassName = .ok (.classRef c) ∧
      W.right.getAt a d superclassName = .ok (.classRef c) := by
  obtain ⟨hrename, c, hc, hleft⟩ := hgood.superclass f hsize horigin
  have hright := hgood.bindings f
  rw [hrename, hleft] at hright
  exact ⟨c, hc, Heap.getAt_of_single hf hleft,
    Heap.getAt_of_single ((hgood.chain_right a).symm ▸ hf) hright⟩

end World

namespace Lockstep

variable {K : Layers → Reference → Reference → Prop} {L : Nat → Nat → Prop} {F : World → Prop}
  {σ σ' : Setting} {limit : Nat} {W : World} {a : Address} {Γ : Layers} {ref ref' : Reference}

/-- Where a reference is found: in one frame on both sides, under the names that belong to it. -/
structure Located (W : World) (ref ref' : Reference) (f f' : Address) : Prop where
  frame : f' = f
  size : f < W.left.frames.size
  binds : W.left.Binds f ref.name.lexeme
  name : ref'.name.lexeme = W.rename f ref.name.lexeme

/-- Wherever a reference may be missing, it is in layers that are known to be its own. -/
def Known (K : Layers → Reference → Reference → Prop) (Γ : Layers) (ref ref' : Reference) : Prop :=
  ∀ d, Γ.Early ref.name.lexeme d → ∃ Γ', K Γ' ref ref' ∧ Γ'.Early ref.name.lexeme d

theorem Known.intro (href : K Γ ref ref') : Known K Γ ref ref' :=
  fun _ hearly => ⟨Γ, href, hearly⟩

theorem locate (hgood : W.Good K L) (hmatches : W.Matches a Γ) (hknown : Known K Γ ref ref')
    (hbound : Bound σ σ' L Γ ref ref') :
    Lockstep K L F limit W a (Eval.locate σ ref) (Eval.locate σ' ref')
      fun W' f f' => W' = W ∧ Located W ref ref' f f' := by
  refine bind_get fun m m' hstep => ?_
  rw [hbound.entry, hbound.entry', hstep.left, hstep.right, hstep.current, hstep.current']
  cases hdistance : Γ.distance? ref.name.lexeme with
  | some d =>
      obtain ⟨l, hl, hhas, hname⟩ := Layers.layer_of_distance? hdistance
      obtain ⟨f, hf, hfits⟩ := hmatches.fits hgood hl
      have hname' : ref'.name.lexeme = W.rename f ref.name.lexeme := by
        rw [hbound.name, hname, hfits.rename]
      simp only [Heap.locateAt, hgood.chain_right, hf, hname', hgood.contains_right]
      split
      case isTrue hbinds =>
        exact .pure hgood ⟨rfl, rfl, hfits.size, hbinds, hname'⟩
      case isFalse hmissing =>
        -- A name that were ready would be bound.
        have hearly : Γ.Early ref.name.lexeme d := by
          refine ⟨hdistance, l, hl, ?_⟩
          obtain ⟨ready, hready⟩ := (Bindings.contains_iff _ _).mp hhas
          cases ready with
          | false => exact hready
          | true => exact absurd (hfits.ready _ hready) hmissing
        obtain ⟨Γ', href, hearly⟩ := hknown d hearly
        rw [← hname']
        exact fun _ _ hstep =>
          .inr (.error (.refl limit W) hgood hstep (.missing href hbound.line hearly))
  | none =>
      have hname : ref'.name.lexeme = ref.name.lexeme := by
        rw [hbound.name, Layers.nameOf_of_global hdistance]
      have hcontains := hgood.contains_right Heap.globals ref.name.lexeme
      have hrename : W.rename Heap.globals ref.name.lexeme = ref.name.lexeme := by
        rw [hgood.global_names]
        rfl
      rw [hrename] at hcontains
      simp only [Heap.locate, hgood.chain_right, hgood.chain_globals, hname, List.find?_cons,
        List.find?_nil, hcontains]
      cases hbinds : (W.left.frame Heap.globals).bindings.contains ref.name.lexeme with
      | true => exact .pure hgood ⟨rfl, rfl, hgood.globals, hbinds, hname.trans hrename.symm⟩
      | false => exact .fail hgood hbound.line rfl

/-- A look-up gives one value on both sides. -/
theorem lookUp (hgood : W.Good K L) (hmatches : W.Matches a Γ) (hknown : Known K Γ ref ref')
    (hbound : Bound σ σ' L Γ ref ref') :
    Lockstep K L F limit W a (Eval.lookUp σ ref) (Eval.lookUp σ' ref')
      fun W' v v' => W' = W ∧ v' = v ∧ W.Valid K L v := by
  refine (locate hgood hmatches hknown hbound).bind ?_
  rintro W' hle hgood' f f' ⟨rfl, hlocated⟩
  refine bind_getHeap (.pure hgood' ⟨rfl, ?_, hgood.valueIn_valid f _⟩)
  rw [hlocated.frame, hlocated.name, hgood.valueIn_right]

/-- An assignment changes one frame on both sides. -/
theorem assignTo (hgood : W.Good K L) (hmatches : W.Matches a Γ) (href : K Γ ref ref')
    (hbound : Bound σ σ' L Γ ref ref') (hthis : ref.name.lexeme ≠ receiverName)
    (hsuper : ref.name.lexeme ≠ superclassName) {v : Value} (hv : W.Valid K L v) :
    Lockstep K L F limit W a (Eval.assignTo σ ref v) (Eval.assignTo σ' ref' v)
      fun _ _ _ => True := by
  refine (locate hgood hmatches (.intro href) hbound).bind ?_
  rintro W' hle hgood' f f' ⟨rfl, hlocated⟩
  obtain ⟨rfl, hsize, hbinds, hname⟩ := hlocated
  -- The frames of receivers and superclasses bind nothing that can be assigned to.
  have hsingle : ∀ {name : String} {w : Value}, (W'.left.frame f').bindings = [(name, w)] →
      name = ref.name.lexeme := by
    intro name w hbindings
    rw [Heap.Binds, hbindings] at hbinds
    by_contra hne
    simp [Bindings.contains, Bindings.find?, hne] at hbinds
  have hreceiver : (W'.left.frame f').origin ≠ .receiver := by
    intro horigin
    obtain ⟨-, i, -, hbindings⟩ := hgood.receiver f' hsize horigin
    exact hthis (hsingle hbindings).symm
  have hsuperclass : (W'.left.frame f').origin ≠ .superclass := by
    intro horigin
    obtain ⟨-, c, -, hbindings⟩ := hgood.superclass f' hsize horigin
    exact hsuper (hsingle hbindings).symm
  rw [hname]
  have hle : W'.Le limit _ := W'.le_define hsize ref.name.lexeme v (.inr hbinds)
  have hgood'' := hgood.define hsize (hv.mono hgood hle) hreceiver hsuperclass
  exact (changeHeap hle hgood'' rfl rfl).mono fun _ _ _ _ _ _ => trivial

end Lockstep

end LoxLang
