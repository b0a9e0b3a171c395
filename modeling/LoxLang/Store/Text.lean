import LoxLang.Store.Heap

/-!
The text of values as programs print them.
-/

namespace LoxLang

def Value.printed (h : Heap) : Value → String
  | .nil => "nil"
  | .bool true => "true"
  | .bool false => "false"
  | .number x => numberText x
  | .text s => s
  | .native _ => "<native fn>"
  | .function a => "<fn " ++ (h.function a).decl.name ++ ">"
  | .classRef a => (h.classObject a).name
  | .object a => (h.classObject (h.instanceObject a).classAddress).name ++ " instance"

end LoxLang
