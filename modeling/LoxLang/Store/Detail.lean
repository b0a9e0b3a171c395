import LoxLang.Eval.Machine
import LoxLang.Text.Quoted

/-!
The detailed text of values, which shows their kinds and what they are made of. A closure's frame and
the values of fields are left out, since either may lead back to the value itself.
-/

namespace LoxLang

/-- Numbers in detailed texts: they keep a point, and have an exponent from `1e16` up and below
`0.0001`. -/
def detailLayout : Decimal.Layout :=
  ⟨.up, fun e => decide (-4 ≤ e ∧ e ≤ 15), true, false⟩

def truthText (b : Bool) : String :=
  if b then "true" else "false"

/-- A list of names in quotes, in alphabetical order. -/
def quotedNames (names : List String) : String :=
  "[" ++ ", ".intercalate ((names.mergeSort fun a b => decide (a ≤ b)).map Text.quoted) ++ "]"

def FunctionObject.detail (f : FunctionObject) : String :=
  "LoxFunction \x7b name: " ++ Text.quoted f.decl.name ++
    ", arity: " ++ toString f.decl.params.length ++
    ", is_initializer: " ++ truthText f.isInitializer ++ " \x7d"

def ClassObject.detail (h : Heap) (c : ClassObject) : String :=
  let up := match c.superclass with
    | some a => "Some(" ++ Text.quoted (h.classObject a).name ++ ")"
    | none => "None"
  "LoxClass \x7b name: " ++ Text.quoted c.name ++ ", superclass: " ++ up ++
    ", methods: " ++ quotedNames c.methods.names ++ " \x7d"

def Instance.detail (h : Heap) (i : Instance) : String :=
  "LoxInstance \x7b class: " ++ Text.quoted (h.classObject i.classAddress).name ++
    ", fields: " ++ quotedNames i.fields.names ++ " \x7d"

def Native.detail (n : Native) : String :=
  "NativeFunction(" ++ n.name ++ "/" ++ toString n.arity ++ ")"

def Value.detail (h : Heap) (natives : List Native) : Value → String
  | .nil => "Nil"
  | .bool b => "Bool(" ++ truthText b ++ ")"
  | .number x => "Number(" ++ detailLayout.text x ++ ")"
  | .text s => "String(" ++ Text.quoted s ++ ")"
  | .native i => "NativeFunction(" ++ ((natives[i]?).map Native.detail).getD "" ++ ")"
  | .function a => "Function(" ++ (h.function a).detail ++ ")"
  | .classRef a => "Class(" ++ (h.classObject a).detail h ++ ")"
  | .object a => "Instance(RefCell \x7b value: " ++ (h.instanceObject a).detail h ++ " \x7d)"

end LoxLang
