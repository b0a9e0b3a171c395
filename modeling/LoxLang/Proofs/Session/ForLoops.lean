import LoxLang.Proofs.Grammar.Laws
import LoxLang.Proofs.Grammar.Lookahead
import LoxLang.Proofs.Session.Sequels

/-!
`for` statements are run as they are written. Wherever a session comes to the statement that the parser
has made of one, executing it comes to the same as executing the statement as it is written, under
identities of its own, in the same machine: one scope for the variable of the initializer, in which test,
body and increment take turns. The block that the parser puts around body and increment cannot be told by
anything that is run later, either.
-/

namespace LoxLang

open Scope Grammar Eval

/-! ### The text -/

namespace ForStatement

/-- The text of a `for` statement, and what is left behind it. -/
inductive Written (isOpen : Bool) : ForStatement → Input → Input → Prop
  | written {f : ForStatement} {t : Input} {ts us vs ws i j k l}
    {keyword opening semicolon closing : Token} (hkeyword : keyword.kind = .kwFor)
    (hopening : opening.kind = .leftParen)
    (hinit : Derives (.forInit f.initializer) ⟨ts, i⟩ ⟨us, j⟩)
    (hcondition : Derives (.option f.condition) ⟨us, j⟩ ⟨semicolon :: vs, k⟩)
    (hsemicolon : semicolon.kind = .semicolon)
    (hincrement : Derives (.option f.increment) ⟨vs, k⟩ ⟨closing :: ws, l⟩)
    (hclosing : closing.kind = .rightParen)
    (hbody : Derives (.statement isOpen f.body) ⟨ws, l⟩ t) :
    Written isOpen f ⟨keyword :: opening :: ts, i⟩ t

/-- A statement that begins with `for` is what the parser makes of a `for` statement. -/
theorem derives_iff_written {isOpen : Bool} {s : Stmt} {keyword : Token} {ts : List Token}
    {i : Identity} {t : Input} (hkeyword : keyword.kind = .kwFor) :
    Derives (.statement isOpen s) ⟨keyword :: ts, i⟩ t ↔
      ∃ f : ForStatement, f.Written isOpen ⟨keyword :: ts, i⟩ t ∧ s = f.desugared := by
  constructor
  · intro h
    cases h with
    | simple ha =>
        have hnone : Kind.kwFor ∉ expressionStarts := by decide
        have hstart := beginsIn_cons.mp (ha.beginsIn (List.cons_ne_nil _ _))
        exact absurd (hkeyword ▸ hstart) hnone
    | print hother | ret hother | loop hother | ifThen hother | ifElse hother =>
        cases hkeyword.symm.trans hother
    | compound hbody =>
        cases hbody with
        | block hother => cases hkeyword.symm.trans hother
    | forLoop hkeyword hopening hinit hcondition hsemicolon hincrement hclosing hbody htree =>
        exact ⟨⟨_, _, _, _, hbody.plain⟩,
          .written hkeyword hopening hinit hcondition hsemicolon hincrement hclosing hbody,
          forTree_iff.mp htree⟩
  · rintro ⟨f, hwritten, rfl⟩
    cases hwritten with
    | written hkeyword hopening hinit hcondition hsemicolon hincrement hclosing hbody =>
        exact .forLoop hkeyword hopening hinit hcondition hsemicolon hincrement hclosing hbody
          (forTree_iff.mpr rfl)

end ForStatement

/-! ### Faults -/

/-- One fault. Where a variable is missing in its frame, the faults may tell different distances of the
frame. -/
inductive Fault.AlikeButDepth : Fault → Fault → Prop
  | same (fault : Fault) : AlikeButDepth fault fault
  | missing (line : Nat) (name : String) (d d' : Nat) :
    AlikeButDepth (.runtime ⟨line, .missingAtDistance name d⟩)
      (.runtime ⟨line, .missingAtDistance name d'⟩)

theorem Eval.EndAlike.imp {α : Type} {same same' : Fault → Fault → Prop} {h : Heap}
    {r r' : EStateM.Result Fault Machine α} (hend : EndAlike same h r r')
    (hsame : ∀ fault n fault', r = .error fault n → same fault fault' → same' fault fault') :
    EndAlike same' h r r' := by
  cases hend with
  | ok hagree => exact .ok hagree
  | error hfault hagree => exact .error (hsame _ _ _ rfl hfault) hagree

/-- Of the faults that only a mistake in the static walk could cause, a statement that a session comes
to can end with one only. -/
theorem Session.InStep.missing {N : String → String → Prop} {vs : List Visit} {n : Nat} {W : World}
    {s s' : Session} {ch : Chunk} (h : s.InStep N vs n W s')
    (hnatives : ∀ native ∈ s.natives, native.Faithful) (hch : ch.Alike (Placed (· ∈ vs) N) Eq ch)
    (fuel : Nat) {st : Stmt} {m : Machine}
    (hreach : Reaches (fun see => ch.watched see s.setting fuel) s.machine (.stmt st) m)
    {k line : Nat} {cause : RuntimeCause} {p : Machine}
    (hrun : execute s.setting k st m = .error (.runtime ⟨line, cause⟩) p)
    (hinternal : cause.isInternal = true) : ∃ name d, cause = .missingAtDistance name d := by
  have hagree : ∀ native ∈ s.setting.natives, native.Agrees (Placed (· ∈ vs) N) Eq :=
    fun native hnative => (hnatives native hnative).agrees
  -- Nothing that watches a run can stop it but where this is known.
  have hwatches : Lockstep.Watches (Placed (· ∈ vs) N) Eq
      (fun _ => ∃ name d, cause = .missingAtDistance name d)
      (stopAt (.stmt st) m (.runtime ⟨0, .chainTooShort 0⟩)) := by
    refine Lockstep.watches_stopAt fun W m' hgood hcomes hstep => ?_
    cases hcomes with
    | stmt stands alike =>
        have hexec := (Lockstep.evaluates_executes (F := fun _ => False) Lockstep.watches_idle
          h.tables h.natives hagree k).2
        have hlock := hexec 0 W _ _ _ _ hgood stands (Nat.zero_le _) alike
        have hout := (hlock _ _ hstep).resolve_left (by rintro ⟨_, _, hF⟩; exact hF)
        rw [(watched_idle _ _).2, hrun] at hout
        generalize execute s'.setting k _ _ = x' at hout
        cases hout with
        | error _ _ _ hfault =>
            obtain ⟨_, _, _, _, -, -, -, hcause⟩ := hfault.missing_of_internal hinternal
            exact ⟨_, _, hcause⟩
  have hlock := hch.lockstep hwatches h.tables h.natives hagree fuel h.good
  obtain ⟨m', hstop⟩ := hreach (.runtime ⟨0, .chainTooShort 0⟩)
  rcases hlock _ _ h.machines with ⟨_, _, hF⟩ | hout
  · exact hF
  · dsimp only at hstop
    rw [hstop] at hout
    generalize ch.watched idle s'.setting fuel s'.machine = x' at hout
    cases hout with
    | error _ _ _ hfault =>
        obtain ⟨_, _, _, _, -, -, -, hcause⟩ := hfault.missing_of_internal rfl
        cases hcause

/-! ### The statement as it is written -/

namespace ForStatement

/-- The table behind a walk over the statement as it is written, under identities that are later by `k`,
where the walk comes to it in the context `c`. -/
def table (k : Identity) (c : Context) (T : Distances) (f : ForStatement) : Distances :=
  ((f.renumbered k).walk { c with distances := T }).distances

/-- The identities that the statement as it is written takes. -/
def taken (k : Identity) (f : ForStatement) : List Identity :=
  f.desugared.references.map fun ref => ref.id + k

/-- What is known of uses in the two tables, if later entries are for identities that are free. -/
def knowledge (firstId k : Identity) (c : Context) (T : Distances) (f : ForStatement) : Knowledge :=
  lasting (Identity.Fresh firstId (f.taken k)) T (f.table k c T)

section

variable {us : List Use} {ws : List Station} {natives : List Native} {T : Distances}
  {firstId k id : Identity} {f : ForStatement} {c : Context} {p : Path} {m : Machine}

theorem unreserved_around (hspelled : f.Spelled) (h : p.Unreserved) : (f.around p).Unreserved := by
  unfold around
  cases hs : f.initializer with
  | none => exact h
  | some s => exact Path.Unreserved.block.behind .block (s.declares_spelled (hspelled.initializer s hs))

theorem mem_taken {u : Use} (hu : u ∈ f.uses p) : u.ref.id + k ∈ f.taken k := by
  have href : u.ref ∈ (f.desugared.uses p).map Use.ref :=
    f.references_uses p ▸ List.mem_map_of_mem hu
  rw [Stmt.references_uses] at href
  exact List.mem_map_of_mem (f := fun ref : Reference => ref.id + k) href

/-- Other identities have the entries that they had. -/
theorem lookup_table (hstands : Station.Stands us ⟨f.desugared, c⟩ p) (hid : id ∉ f.taken k) :
    (f.table k c T).lookup id = T.lookup id := by
  have hknows : ({ c with distances := T } : Context).Knows p :=
    ⟨hstands.knows.scopes, hstands.knows.classKind⟩
  refine f.lookup_walk_of_ne hstands.direct hknows fun u hu heq => hid ?_
  exact heq ▸ mem_taken hu

/-- The statement that the parser has made and the statement as it is written part a machine. -/
theorem parted (hnatives : ∀ native ∈ natives, native.Faithful)
    (hsound : m.heap.Sound (.within us ws)) (hcurrent : m.current < m.heap.frames.size)
    (hspelled : f.desugared.Spelled) (hstands : Station.Stands us ⟨f.desugared, c⟩ p)
    (hdistinct : (us.map fun u => u.ref.id).Nodup)
    (hus : ∀ u ∈ us, u.ref.id < firstId ∧ T.lookup u.ref.id = u.address?)
    (hT : ∀ entry ∈ T, entry.1 < firstId) (hk : ∀ id ∈ f.taken k, firstId ≤ id) (fuel : Nat) :
    EndAlike Bypass.SameFault m.heap (Eval.execute ⟨natives, T⟩ fuel f.desugared m)
        ((f.renumbered k).execute ⟨natives, f.table k c T⟩ fuel m) ∧
      Bypass.Parted (f.knowledge firstId k c T) m.heap m.current
        (machineAfter (Eval.execute ⟨natives, T⟩ fuel f.desugared) m)
        (machineAfter ((f.renumbered k).execute ⟨natives, f.table k c T⟩ fuel) m) := by
  have hknows : ({ c with distances := T } : Context).Knows p :=
    ⟨hstands.knows.scopes, hstands.knows.classKind⟩
  have hold : ∀ {id : Identity}, id < firstId → ¬Identity.Fresh firstId (f.taken k) id :=
    fun hlt hfresh => UInt64.lt_irrefl _ (UInt64.lt_of_lt_of_le hlt hfresh.1)
  -- The table of the first side has the addresses in the statement that the parser has made.
  have huses : ∀ u ∈ f.desugared.uses p, u.ref.id < firstId ∧ T.lookup u.ref.id = u.address? :=
    fun u hu => hus u (hstands.uses.subset hu)
  -- The table of the second side has those in the statement as it is written.
  have hwritten : ∀ u ∈ f.uses p, (f.table k c T).lookup (u.ref.id + k) = u.address? := by
    refine f.lookup_walk hstands.direct hknows ?_ fun u hu => ?_
    · exact hdistinct.sublist (hstands.uses.map _)
    · apply lookup_of_not_mem
      intro entry hentry heq
      have hlt := hT entry hentry
      rw [heq] at hlt
      exact UInt64.lt_irrefl _ (UInt64.lt_of_lt_of_le hlt (hk _ (mem_taken hu)))
  have hknown : f.Known (f.knowledge firstId k c T) k p := by
    have hnames := unreserved_around (spelled_of_desugared hspelled) hstands.unreserved
    refine f.known (fun names hn hsuper => hnames names hn "super" hsuper (.inr rfl))
      (fun u hu => (huses u hu).2) hwritten fun u hu skip hfollows => ?_
    refine lasting_of_follows hfollows (hold (huses u hu).1) fun hfresh => hfresh.2 ?_
    have href : u.ref ∈ f.desugared.references :=
      Stmt.references_uses f.desugared p ▸ List.mem_map_of_mem hu
    exact List.mem_map_of_mem (f := fun ref : Reference => ref.id + k) href
  have hgood : (Bypass.alone m.heap).Good (f.knowledge firstId k c T) := by
    refine Bypass.good_alone hsound fun u hu => lasting_of_lookup (lookup_table hstands fun htaken => ?_)
    obtain ⟨v, hv, hsame⟩ := List.mem_map.mp hu
    have hlt := (hus v hv).1
    rw [hsame] at hlt
    exact UInt64.lt_irrefl _ (UInt64.lt_of_lt_of_le hlt (hk _ htaken))
  have hparted : Bypass.Parted _ m.heap m.current m m :=
    ⟨_, .refl _, hgood, rfl, rfl, hcurrent, rfl, rfl, rfl, rfl⟩
  refine hparted.run hcurrent fun W hle hgood' => ?_
  have htables : Bypass.Tables (f.knowledge firstId k c T) ⟨natives, T⟩
      ⟨natives, f.table k c T⟩ := fun k' skip u hu => hu [] nofun
  have hruns : W.Runs (f.knowledge firstId k c T) m.current 0 none p [] [] :=
    Bypass.runs_old hle hgood' hcurrent nofun
  refine (Bypass.Tandem.forStatement htables rfl hnatives fuel hgood' (spelled_of_desugared hspelled)
    hruns.stands hknown).mono ?_
  rintro W' - - v v' ⟨rfl, -⟩
  rfl

end

end ForStatement

theorem Bypass.SameFault.alikeButDepth {fault fault' : Fault} (h : Bypass.SameFault fault fault')
    (hchain : ∀ line d, fault ≠ .runtime ⟨line, .chainTooShort d⟩) : fault.AlikeButDepth fault' := by
  cases h with
  | output | outOfFuel => exact .same _
  | runtime hcause =>
      cases hcause with
      | same => exact .same _
      | missing => exact .missing ..
      | short d => exact absurd rfl (hchain _ d)

/-- Two actions on a machine that can take each other's place, the first with the table `T` and the
second with the table `T'`. They end alike, and so does whatever is run afterwards on the two machines
that they leave, if it is read with the first free identity and shares none with the second action. -/
structure Eval.Interchangeable {α : Type} (natives : List Native) (T T' : Distances)
    (firstId : Identity) (taken : List Identity) (m : Machine) (x x' : Eval α) : Prop where
  ends : EndAlike Fault.AlikeButDepth m.heap (x m) (x' m)
  later : ∀ (qs : List Sequel) (q : Sequel), (∀ q' ∈ q :: qs, q'.Fits m.heap firstId taken) →
    EndAlike Bypass.SameFault m.heap
      (q.run natives T (Sequel.after natives T qs (machineAfter x m)))
      (q.run natives T' (Sequel.after natives T' qs (machineAfter x' m)))

/-- The parser makes another statement of each `for` statement. Wherever a session comes to one that it
has made, and whatever else it has run before, executing it and executing the statement as it is written,
in the same machine, come to the same: they have one result or one fault, but for the distance in the
fault of a variable that is missing in its frame, put out the same, and leave everything that was there
before in the same state; and whatever is run afterwards, in a frame that was there before, comes to the
same as well, so that the functions which the rounds have left behind are alike. The one table is that of
the session, and the other one is behind a walk over the statement as it is written, from the context in
which the walk over the whole tree came to the statement, under identities that are not in use. -/
theorem for_statements_as_written :
    (∀ isOpen s (keyword : Token) ts i t, keyword.kind = .kwFor →
      (Derives (.statement isOpen s) ⟨keyword :: ts, i⟩ t ↔
        ∃ f : ForStatement, f.Written isOpen ⟨keyword :: ts, i⟩ t ∧ s = f.desugared)) ∧
    ∀ natives output s past (r : Request) ch (f : ForStatement) m, Reached natives output s past →
      r.Room s.nextId → (∀ native ∈ natives, native.Faithful) → r.chunk? s.nextId = some ch →
      ch.Accepted →
      Reaches (fun see => ch.watched see (s.entered r).setting r.fuel) s.machine
        (.stmt f.desugared) m →
      ∃ a ∈ past ++ [⟨s.nextId, r⟩], ∃ c, ⟨f.desugared, c⟩ ∈ a.stations ∧
        ∀ k, (∀ id ∈ f.taken k, r.nextId s.nextId ≤ id) →
          ∀ T T', T = (s.entered r).distances → T' = f.table k c T → ∀ n,
            Interchangeable natives T T' (r.nextId s.nextId) (f.taken k) m
              (execute ⟨natives, T⟩ n f.desugared) ((f.renumbered k).execute ⟨natives, T'⟩ n) := by
  constructor
  · intro isOpen s keyword ts i t hkeyword
    exact ForStatement.derives_iff_written hkeyword
  · intro natives output s past r ch f m h hroom hnatives hch haccepted hreach
    have hadmits := h.admits (fun native hnative => (hnatives native hnative).conserves) hroom hch
      hreach
    obtain ⟨_, -, hobeys⟩ := hadmits.obeys
    obtain ⟨hspelled, c, p, hstation, hstands⟩ := hobeys.lawful
    obtain ⟨a, ha, hstation⟩ := List.mem_flatMap.mp hstation
    have howns := h.owns.enter hroom
    obtain ⟨hdistinct, hus⟩ := howns.lookup_uses
    refine ⟨a, ha, c, hstation, ?_⟩
    rintro k hk T T' rfl rfl n
    obtain ⟨hend, hparted⟩ := ForStatement.parted hnatives hadmits.sound hadmits.code.size hspelled
      hstands hdistinct hus howns.entries hk n
    constructor
    case ends =>
      refine hend.imp fun fault p fault' hrun hsame => hsame.alikeButDepth ?_
      rintro line d rfl
      obtain ⟨i, W, hself⟩ := h.inStep hnatives
      obtain ⟨hentered, halike⟩ := hself.runs ofVariables_same hroom hch haccepted
      have hfaithful : ∀ native ∈ (s.entered r).natives, native.Faithful := h.natives_eq ▸ hnatives
      have hsetting : (s.entered r).setting = ⟨natives, (s.entered r).distances⟩ :=
        congrArg (Setting.mk · _) h.natives_eq
      rw [← hsetting] at hrun
      obtain ⟨_, _, hcause⟩ := hentered.missing hfaithful halike r.fuel hreach hrun rfl
      cases hcause
    case later =>
      intro qs q hfits
      obtain ⟨hq, hqs⟩ := List.forall_mem_cons.mp hfits
      have hother : ∀ id ∉ f.taken k, (f.table k c (s.entered r).distances).lookup id =
          (s.entered r).distances.lookup id := fun id hid => ForStatement.lookup_table hstands hid
      have hafter := hparted.after hnatives hother hadmits.code.size hqs
      exact (hafter.sequel hnatives hother hadmits.code.size hq).1

/-- A loop with all of its clauses, and one round. -/
theorem for_statements_as_written_once :
    let i : Token := ⟨.identifier, "i", 1⟩
    let f : ForStatement :=
      ⟨some (.var i (some (.literal .nil))),
        some (.binary (.ident ⟨0, i⟩) ⟨.equalEqual, "==", 1⟩ (.literal .nil)),
        some (.assign ⟨2, i⟩ (.literal (.bool true))), .print (.ident ⟨3, i⟩), rfl⟩
    let ts : List Token := [⟨.leftParen, "(", 1⟩, ⟨.kwVar, "var", 1⟩, i, ⟨.equal, "=", 1⟩,
      ⟨.kwNil, "nil", 1⟩, ⟨.semicolon, ";", 1⟩, i, ⟨.equalEqual, "==", 1⟩, ⟨.kwNil, "nil", 1⟩,
      ⟨.semicolon, ";", 1⟩, i, ⟨.equal, "=", 1⟩, ⟨.kwTrue, "true", 1⟩, ⟨.rightParen, ")", 1⟩,
      ⟨.kwPrint, "print", 1⟩, i, ⟨.semicolon, ";", 1⟩]
    let r : Request := .run 9 "for (var i = nil; i == nil; i = true) print i;"
    let T : Distances := r.distances 0 ++ []
    (∃ isOpen, ∃ f' : ForStatement, f'.Written isOpen ⟨⟨.kwFor, "for", 1⟩ :: ts, 0⟩ ⟨[], 4⟩ ∧
      f.desugared = f'.desugared) ∧
    ∃ c, ⟨f.desugared, c⟩ ∈ (⟨0, r⟩ : Asked).stations ∧ ∀ n,
      Interchangeable [.clock 0] T (f.table 4 c T) 4 (f.taken 4) (.initial [.clock 0] .unlimited)
        (execute ⟨[.clock 0], T⟩ n f.desugared)
        ((f.renumbered 4).execute ⟨[.clock 0], f.table 4 c T⟩ n) := by
  intro i f ts r T
  have hlexical : lexicalErrorsOf (scan r.text) = [] := by decide +kernel
  have htokens : tokensOf (scan r.text) = ⟨.kwFor, "for", 1⟩ :: ts ++ [.eof 1] := by decide +kernel
  have hparse : parseProgram (tokensOf (scan r.text)) 0 = ⟨.ok [f.desugared], 4⟩ := by
    rw [htokens]
    rfl
  obtain ⟨htree, hnext⟩ := Source.tree?_of_result hlexical hparse
  have hch : r.chunk? 0 = some (.program [f.desugared]) := congrArg (Option.map Chunk.program) htree
  constructor
  · have hread : Derives (.declarations [f.desugared]) ⟨⟨.kwFor, "for", 1⟩ :: ts, 0⟩ ⟨[], 4⟩ := by
      have hderives := parseProgram_iff_derives.mp hparse
      rwa [htokens] at hderives
    cases hread with
    | moreDeclarations hfirst hrest =>
        cases hrest
        cases hfirst with
        | variableDecl hvariable => cases hvariable
        | @statementDecl _ _ _ isOpen hstatement =>
            exact ⟨isOpen, (for_statements_as_written.1 _ _ _ _ _ _ rfl).mp hstatement⟩
  · have hfirst : r.nextId (Session.initial [.clock 0] .unlimited).nextId = 4 := hnext
    have hfree : ∀ id ∈ f.taken 4, r.nextId (Session.initial [.clock 0] .unlimited).nextId ≤ id := by
      have htaken : f.taken 4 = [4, 7, 6] := by decide
      rw [hfirst, htaken]
      simp
    obtain ⟨a, ha, c, hstation, h⟩ := for_statements_as_written.2 [.clock 0] .unlimited _ [] r _ f
      (.initial [.clock 0] .unlimited) .start (.of_size (by decide +kernel))
      (Native.faithful_of_clock 0 _) hch (by decide)
      (Chunk.reaches_first rfl _ 8 _)
    obtain rfl := List.mem_singleton.mp ha
    have h := h 4 hfree T _ rfl rfl
    rw [hfirst] at h
    exact ⟨c, hstation, h⟩

end LoxLang
