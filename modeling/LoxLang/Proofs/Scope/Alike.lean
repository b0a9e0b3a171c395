import Mathlib.Data.List.Forall2
import LoxLang.Proofs.Scope.Layer
import LoxLang.Proofs.Syntax.Lines

/-!
Programs that run alike. `Alike K L Γ` relates two trees of one shape that stand in the layers `Γ` and
may differ in the names of local variables, in the identities of references and in lines. Declarations
follow the renaming of their layer. What holds of a pair of references is left to `K`, and what holds
of a pair of lines to `L`. A tree without static errors is alike to itself.
-/

namespace LoxLang.Scope

section

variable (K : Layers → Reference → Reference → Prop) (L : Nat → Nat → Prop)

inductive Alike : Layers → Pair → Prop
  | literal {Γ v} : Alike Γ (.expr (.literal v) (.literal v))
  | group {Γ e e'} (he : Alike Γ (.expr e e')) : Alike Γ (.expr (.group e) (.group e'))
  | unary {Γ o o' r r'} (ho : SameToken L o o') (hr : Alike Γ (.expr r r')) :
    Alike Γ (.expr (.unary o r) (.unary o' r'))
  | binary {Γ l l' o o' r r'} (hl : Alike Γ (.expr l l')) (ho : SameToken L o o')
    (hr : Alike Γ (.expr r r')) : Alike Γ (.expr (.binary l o r) (.binary l' o' r'))
  | logical {Γ l l' o o' r r'} (hl : Alike Γ (.expr l l')) (ho : SameToken L o o')
    (hr : Alike Γ (.expr r r')) : Alike Γ (.expr (.logical l o r) (.logical l' o' r'))
  | ident {Γ ref ref'} (href : K Γ ref ref') : Alike Γ (.expr (.ident ref) (.ident ref'))
  | assign {Γ ref ref' v v'} (href : K Γ ref ref') (hthis : ref.name.lexeme ≠ "this")
    (hsuper : ref.name.lexeme ≠ "super") (hv : Alike Γ (.expr v v')) :
    Alike Γ (.expr (.assign ref v) (.assign ref' v'))
  | call {Γ f f' p p' es es'} (hf : Alike Γ (.expr f f')) (hp : SameToken L p p')
    (hes : Alike Γ (.exprs es es')) : Alike Γ (.expr (.call f p es) (.call f' p' es'))
  | function {Γ d d'} (hd : Alike Γ (.decl d d')) : Alike Γ (.expr (.function d) (.function d'))
  | get {Γ o o' n n'} (ho : Alike Γ (.expr o o')) (hn : SameToken L n n') :
    Alike Γ (.expr (.get o n) (.get o' n'))
  | set {Γ o o' n n' v v'} (ho : Alike Γ (.expr o o')) (hn : SameToken L n n')
    (hv : Alike Γ (.expr v v')) : Alike Γ (.expr (.set o n v) (.set o' n' v'))
  | this {Γ ref ref'} (href : K Γ ref ref') (hname : ref.name.lexeme = "this")
    (hmethod : Γ.InMethod) : Alike Γ (.expr (.this ref) (.this ref'))
  | super {Γ ref ref' m m'} (href : K Γ ref ref') (hname : ref.name.lexeme = "super")
    (hm : SameToken L m m') (hderived : Γ.InDerived) :
    Alike Γ (.expr (.super ref m) (.super ref' m'))
  | noExprs {Γ} : Alike Γ (.exprs [] [])
  | moreExprs {Γ e e' es es'} (he : Alike Γ (.expr e e')) (hes : Alike Γ (.exprs es es')) :
    Alike Γ (.exprs (e :: es) (e' :: es'))
  | decl {Γ name name' line line' params params' body body' ρ}
    (hname : Option.Rel (SameToken L) name name') (hline : L line line')
    (hparams : List.Forall₂ (fun p p' => TokenTo L (ρ p.lexeme) p p') params params')
    (hbody : Alike (⟨.call (.mk name line params body), parameterScope params, ρ⟩ :: Γ)
      (.stmts body body')) :
    Alike Γ (.decl (.mk name line params body) (.mk name' line' params' body'))
  | noMethods {Γ} : Alike Γ (.methods [] [])
  | moreMethods {Γ d d' ds ds'} (hd : Alike Γ (.decl d d')) (hds : Alike Γ (.methods ds ds')) :
    Alike Γ (.methods (d :: ds) (d' :: ds'))
  | exprStmt {Γ e e'} (he : Alike Γ (.expr e e')) : Alike Γ (.stmt (.expr e) (.expr e'))
  | print {Γ e e'} (he : Alike Γ (.expr e e')) : Alike Γ (.stmt (.print e) (.print e'))
  | bareVar {Γ n n'} (hn : TokenTo L (Γ.here n.lexeme) n n')
    (hfresh : Γ.innermost? n.lexeme = none) : Alike Γ (.stmt (.var n none) (.var n' none))
  | setVar {Γ n n' v v'} (hn : TokenTo L (Γ.here n.lexeme) n n')
    (hfresh : Γ.innermost? n.lexeme = none)
    (hv : Alike (Γ.mark n.lexeme false) (.expr v v')) :
    Alike Γ (.stmt (.var n (some v)) (.var n' (some v')))
  | block {Γ body body' ρ} (hbody : Alike (⟨.block body, [], ρ⟩ :: Γ) (.stmts body body')) :
    Alike Γ (.stmt (.block body) (.block body'))
  | ifThen {Γ c c' a a'} (hc : Alike Γ (.expr c c')) (ha : Alike Γ (.stmt a a'))
    (hplain : a.declared? = none) : Alike Γ (.stmt (.branch c a none) (.branch c' a' none))
  | ifElse {Γ c c' a a' b b'} (hc : Alike Γ (.expr c c')) (ha : Alike Γ (.stmt a a'))
    (hplain : a.declared? = none) (hb : Alike Γ (.stmt b b')) (hplain' : b.declared? = none) :
    Alike Γ (.stmt (.branch c a (some b)) (.branch c' a' (some b')))
  | loop {Γ c c' a a'} (hc : Alike Γ (.expr c c')) (ha : Alike Γ (.stmt a a'))
    (hplain : a.declared? = none) : Alike Γ (.stmt (.loop c a) (.loop c' a'))
  | functionStmt {Γ d d'} (hhere : Γ.here d.name = d.name) (hfresh : Γ.innermost? d.name = none)
    (hd : Alike (Γ.mark d.name true) (.decl d d')) : Alike Γ (.stmt (.function d) (.function d'))
  | bareRet {Γ k k'} (hk : SameToken L k k') : Alike Γ (.stmt (.ret k none) (.ret k' none))
  | ret {Γ k k' e e'} (hk : SameToken L k k') (he : Alike Γ (.expr e e')) :
    Alike Γ (.stmt (.ret k (some e)) (.ret k' (some e')))
  | baseClass {Γ n n' ms ms'} (hn : SameToken L n n') (hhere : Γ.here n.lexeme = n.lexeme)
    (hfresh : Γ.innermost? n.lexeme = none)
    (hms : Alike ((Γ.mark n.lexeme true).forMethods false) (.methods ms ms')) :
    Alike Γ (.stmt (.classDecl n none ms) (.classDecl n' none ms'))
  | derivedClass {Γ n n' up up' ms ms'} (hn : SameToken L n n')
    (hhere : Γ.here n.lexeme = n.lexeme) (hfresh : Γ.innermost? n.lexeme = none)
    (hup : K (Γ.mark n.lexeme true) up up') (hne : up.name.lexeme ≠ n.lexeme)
    (hms : Alike ((Γ.mark n.lexeme true).forMethods true) (.methods ms ms')) :
    Alike Γ (.stmt (.classDecl n (some up) ms) (.classDecl n' (some up') ms'))
  | noStmts {Γ} : Alike Γ (.stmts [] [])
  | moreStmts {Γ : Layers} {s s' ss ss'} (hs : Alike Γ (.stmt s s'))
    (hss : Alike (Γ.after s) (.stmts ss ss')) : Alike Γ (.stmts (s :: ss) (s' :: ss'))

end

variable {K K' : Layers → Reference → Reference → Prop} {L L' : Nat → Nat → Prop}

/-- The lines of the first tree of a pair. -/
def Pair.lines : Pair → List Nat
  | .expr e _ => e.lines
  | .exprs es _ => linesOfExprs es
  | .decl d _ => d.lines
  | .methods ds _ => linesOfMethods ds
  | .stmt s _ => s.lines
  | .stmts ss _ => linesOfStmts ss

theorem TokenTo.imp {lexeme : String} {t t' : Token} (h : TokenTo L lexeme t t')
    (hL : L t.line t'.line → L' t.line t'.line) : TokenTo L' lexeme t t' :=
  { h with line := hL h.line }

theorem parameters_imp {S : Nat → Prop} (hL : ∀ l l', L l l' → S l → L' l l') {ρ : String → String}
    {params params' : List Token}
    (h : List.Forall₂ (fun p p' => TokenTo L (ρ p.lexeme) p p') params params')
    (hS : ∀ p ∈ params, S p.line) :
    List.Forall₂ (fun p p' => TokenTo L' (ρ p.lexeme) p p') params params' := by
  induction h with
  | nil => exact .nil
  | cons hp _ ih =>
      obtain ⟨hfirst, hrest⟩ := List.forall_mem_cons.mp hS
      exact .cons (hp.imp fun h => hL _ _ h hfirst) (ih hrest)

/-- The relation grows with what holds of pairs of references and of lines, of those that are in the
trees. -/
theorem Alike.imp {S : Nat → Prop}
    (hK : ∀ Γ ref ref', K Γ ref ref' → S ref.name.line → K' Γ ref ref')
    (hL : ∀ l l', L l l' → S l → L' l l') {Γ : Layers} {p : Pair} (h : Alike K L Γ p)
    (hS : ∀ l ∈ p.lines, S l) : Alike K' L' Γ p := by
  have htoken : ∀ {lexeme : String} {t t' : Token}, TokenTo L lexeme t t' → S t.line →
      TokenTo L' lexeme t t' := fun ht hline => ht.imp fun h => hL _ _ h hline
  induction h with
  | literal => exact .literal
  | group _ ih => exact .group (ih hS)
  | unary ho _ ih =>
      obtain ⟨hline, hright⟩ := List.forall_mem_cons.mp hS
      exact .unary (htoken ho hline) (ih hright)
  | binary _ ho _ ih ih' =>
      obtain ⟨hline, hrest⟩ := List.forall_mem_cons.mp hS
      obtain ⟨hleft, hright⟩ := List.forall_mem_append.mp hrest
      exact .binary (ih hleft) (htoken ho hline) (ih' hright)
  | logical _ ho _ ih ih' =>
      obtain ⟨hline, hrest⟩ := List.forall_mem_cons.mp hS
      obtain ⟨hleft, hright⟩ := List.forall_mem_append.mp hrest
      exact .logical (ih hleft) (htoken ho hline) (ih' hright)
  | ident href => exact .ident (hK _ _ _ href (hS _ (List.mem_cons_self ..)))
  | assign href hthis hsuper _ ih =>
      obtain ⟨hline, hvalue⟩ := List.forall_mem_cons.mp hS
      exact .assign (hK _ _ _ href hline) hthis hsuper (ih hvalue)
  | call _ hp _ ih ih' =>
      obtain ⟨hline, hrest⟩ := List.forall_mem_cons.mp hS
      obtain ⟨hcallee, harguments⟩ := List.forall_mem_append.mp hrest
      exact .call (ih hcallee) (htoken hp hline) (ih' harguments)
  | function _ ih => exact .function (ih hS)
  | get _ hn ih =>
      obtain ⟨hline, hobject⟩ := List.forall_mem_cons.mp hS
      exact .get (ih hobject) (htoken hn hline)
  | set _ hn _ ih ih' =>
      obtain ⟨hline, hrest⟩ := List.forall_mem_cons.mp hS
      obtain ⟨hobject, hvalue⟩ := List.forall_mem_append.mp hrest
      exact .set (ih hobject) (htoken hn hline) (ih' hvalue)
  | this href hname hmethod =>
      exact .this (hK _ _ _ href (hS _ (List.mem_cons_self ..))) hname hmethod
  | super href hname hm hderived =>
      obtain ⟨hline, hrest⟩ := List.forall_mem_cons.mp hS
      exact .super (hK _ _ _ href hline) hname (htoken hm (hrest _ (List.mem_cons_self ..))) hderived
  | noExprs => exact .noExprs
  | moreExprs _ _ ih ih' =>
      obtain ⟨hfirst, hrest⟩ := List.forall_mem_append.mp hS
      exact .moreExprs (ih hfirst) (ih' hrest)
  | @decl Γ name name' line line' params params' body body' ρ hname hline hparams _ ih =>
      obtain ⟨hfirst, hrest⟩ := List.forall_mem_cons.mp hS
      obtain ⟨htokens, hbody⟩ := List.forall_mem_append.mp hrest
      have hlines : ∀ t ∈ name.toList ++ params, S t.line := fun t ht =>
        htokens _ (List.mem_map_of_mem ht)
      obtain ⟨hnames, hparam⟩ := List.forall_mem_append.mp hlines
      refine .decl ?_ (hL _ _ hline hfirst) ?_ (ih hbody)
      · cases hname with
        | none => exact .none
        | some hname => exact .some (htoken hname (hnames _ (List.mem_cons_self ..)))
      · exact parameters_imp hL hparams hparam
  | noMethods => exact .noMethods
  | moreMethods _ _ ih ih' =>
      obtain ⟨hfirst, hrest⟩ := List.forall_mem_append.mp hS
      exact .moreMethods (ih hfirst) (ih' hrest)
  | exprStmt _ ih => exact .exprStmt (ih hS)
  | print _ ih => exact .print (ih hS)
  | bareVar hn hfresh => exact .bareVar (htoken hn (hS _ (List.mem_cons_self ..))) hfresh
  | setVar hn hfresh _ ih =>
      obtain ⟨hline, hvalue⟩ := List.forall_mem_cons.mp hS
      exact .setVar (htoken hn hline) hfresh (ih hvalue)
  | block _ ih => exact .block (ih hS)
  | ifThen _ _ hplain ih ih' =>
      obtain ⟨hcondition, hthen⟩ := List.forall_mem_append.mp hS
      exact .ifThen (ih hcondition) (ih' hthen) hplain
  | ifElse _ _ hplain _ hplain' ih ih' ih'' =>
      obtain ⟨hcondition, hrest⟩ := List.forall_mem_append.mp hS
      obtain ⟨hthen, helse⟩ := List.forall_mem_append.mp hrest
      exact .ifElse (ih hcondition) (ih' hthen) hplain (ih'' helse) hplain'
  | loop _ _ hplain ih ih' =>
      obtain ⟨hcondition, hbody⟩ := List.forall_mem_append.mp hS
      exact .loop (ih hcondition) (ih' hbody) hplain
  | functionStmt hhere hfresh _ ih => exact .functionStmt hhere hfresh (ih hS)
  | bareRet hk => exact .bareRet (htoken hk (hS _ (List.mem_cons_self ..)))
  | ret hk _ ih =>
      obtain ⟨hline, hvalue⟩ := List.forall_mem_cons.mp hS
      exact .ret (htoken hk hline) (ih hvalue)
  | baseClass hn hhere hfresh _ ih =>
      obtain ⟨hline, hmethods⟩ := List.forall_mem_cons.mp hS
      exact .baseClass (htoken hn hline) hhere hfresh (ih hmethods)
  | derivedClass hn hhere hfresh hup hne _ ih =>
      obtain ⟨hline, hrest⟩ := List.forall_mem_cons.mp hS
      obtain ⟨hsuperclass, hmethods⟩ := List.forall_mem_cons.mp hrest
      exact .derivedClass (htoken hn hline) hhere hfresh (hK _ _ _ hup hsuperclass) hne (ih hmethods)
  | noStmts => exact .noStmts
  | moreStmts _ _ ih ih' =>
      obtain ⟨hfirst, hrest⟩ := List.forall_mem_append.mp hS
      exact .moreStmts (ih hfirst) (ih' hrest)

/-- The relation grows with what holds of pairs of references. -/
theorem Alike.mono (hK : ∀ Γ ref ref', K Γ ref ref' → K' Γ ref ref') {Γ : Layers} {p : Pair}
    (h : Alike K L Γ p) : Alike K' L Γ p :=
  h.imp (fun _ _ _ href _ => hK _ _ _ href) (fun _ _ hline _ => hline) fun _ _ => trivial

end LoxLang.Scope
