import LoxLang.Proofs.Eval.Register
import LoxLang.Proofs.Grammar.Move
import LoxLang.Proofs.Session.Reports
import LoxLang.Proofs.Token.Blanks

/-!
Printing what is evaluated. A text that is an expression can be evaluated, or it can be run as what a
`print` statement prints; then it stands between the keyword and a semicolon, which is on a line of its
own so that no comment hides it. Reading, walking and running the statement come to the same as they do
for the expression alone, and the value is printed.
-/

namespace LoxLang

open Scope Eval Grammar

/-! ### Reading -/

theorem segments_print (cs : List Char) :
    segments ("print ".toList ++ cs) =
      .lexeme .kwPrint "print".toList :: .blank ' ' :: segments cs := by
  obtain ⟨htake, hdrop⟩ :=
    takeWhile_append_stop (p := Segment.isWordChar) (a := ' ') (by decide) "rint".toList cs
  have hfirst : Segment.leading 'p' ("rint".toList ++ ' ' :: cs) =
      (.lexeme .kwPrint "print".toList, ' ' :: cs) := by
    simp only [Segment.leading, htake, hdrop]
    rfl
  have hsplit : "print ".toList ++ cs = 'p' :: ("rint".toList ++ ' ' :: cs) := rfl
  rw [hsplit, segments, hfirst, segments]
  rfl

theorem toList_print (text : String) : ("print " ++ text).toList = "print ".toList ++ text.toList :=
  String.toList_append

/-- The keyword is one more token before those of the text, on the first line like the text. -/
theorem textTokens_print (text : String) :
    textTokens ("print " ++ text) = ⟨.kwPrint, "print", 1⟩ :: textTokens text := by
  rw [textTokens, toList_print, segments_print]
  rfl

theorem lexicalErrors_print {text : String} (h : lexicalErrorsOf (scan text) = []) :
    lexicalErrorsOf (scan ("print " ++ text)) = [] := by
  have hsegments : segments ("print " ++ text).toList =
      [.lexeme .kwPrint "print".toList, .blank ' '] ++ segments text.toList := by
    rw [toList_print, segments_print]
    rfl
  apply lexicalErrors_of_segments hsegments _ h
  exact List.forall_mem_cons.mpr ⟨rfl, List.forall_mem_singleton.mpr rfl⟩

/-- A semicolon alone is one token. -/
theorem segments_semicolon : segments ";".toList = [.lexeme .semicolon [';']] :=
  segments_of_spells (.mark .semicolon)

theorem textTokens_semicolon : textTokens ";" = [⟨.semicolon, ";", 1⟩] := by
  rw [textTokens, segments_semicolon]
  rfl

theorem lexicalErrors_semicolon : lexicalErrorsOf (scan ";") = [] := by
  rw [scan, segments_semicolon]
  rfl

/-- A text that is read as an expression is read as a `print` statement between the keyword and a
semicolon on the next line, from the same identity up to the same identity. -/
theorem Source.program_print {text : String} {i j : Identity} {e : Expr}
    (h : (Source.expression text i).tree? = some e ∧ (Source.expression text i).nextId = j) :
    (Source.program ("print " ++ text ++ "\n" ++ ";") i).tree? = some [.print e] ∧
      (Source.program ("print " ++ text ++ "\n" ++ ";") i).nextId = j := by
  obtain ⟨hlexical, hder⟩ := Source.expression_iff.mp h
  have hprint := lexicalErrors_print hlexical
  apply Source.program_iff.mpr
  refine ⟨lexicalErrors_break hprint lexicalErrors_semicolon, ?_⟩
  rw [textTokens_break hprint, textTokens_print, textTokens_semicolon]
  have hvalue := hder.framed trivial
    ([⟨.semicolon, ";", 1⟩].map (Token.moved ⟨0, newlines ("print " ++ text).toList + 1⟩))
  exact .moreDeclarations (.statementDecl (.print rfl hvalue rfl)) .noDeclarations

/-! ### Running -/

/-- What the output takes stays the same. -/
theorem takes_steady : Steady fun m n => n.output.refusal = m.output.refusal ∧
    n.output.flushRefusal = m.output.flushRefusal where
  refl _ := ⟨rfl, rfl⟩
  trans h h' := ⟨h'.1.trans h.1, h'.2.trans h.2⟩
  heap _ _ := ⟨rfl, rfl⟩
  append _ _ := ⟨rfl, rfl⟩
  answer _ := ⟨rfl, rfl⟩
  current h := h

/-- An output that takes every text, and can be flushed. -/
structure Output.Takes (o : Output) : Prop where
  writes : ∀ text, o.refusal text = none
  flushes : o.flushRefusal = none

theorem Output.Takes.append {o : Output} (h : o.Takes) (s : String) : (o.append s).Takes :=
  ⟨h.writes, h.flushes⟩

section

variable {m q : Machine} {v : Value} {σ : Setting} {n : Nat} {e : Expr}

theorem Eval.write_eq (h : q.output.Takes) (s : String) :
    write s q = .ok () { q with output := q.output.append s } := by
  unfold write
  by_cases hs : s.isEmpty = true
  · have hsame : q.output.append s = q.output := by
      rw [String.isEmpty_iff.mp hs, Output.append, String.append_empty]
    rw [if_pos hs, hsame]
    rfl
  · rw [if_neg hs]
    refine (Grammar.bind_of_ok rfl).trans ((Grammar.bind_of_ok rfl).trans ?_)
    rw [h.writes]
    rfl

theorem Eval.printValue_eq (h : q.output.Takes) (v : Value) :
    printValue v q = .ok () { q with output := q.output.append (v.printed q.heap ++ "\n") } := by
  have htext : (q.output.append (v.printed q.heap)).append "\n" =
      q.output.append (v.printed q.heap ++ "\n") := by
    simp only [Output.append, String.append_assoc]
  have hheap : getHeap q = .ok q.heap q := rfl
  rw [printValue, Grammar.bind_of_ok hheap, Grammar.bind_of_ok (write_eq h _), ← htext]
  exact write_eq (h.append _) _

theorem Eval.flush_eq (h : q.output.Takes) : flush q = .ok () q := by
  unfold flush
  refine (Grammar.bind_of_ok rfl).trans ?_
  rw [h.flushes]
  rfl

/-- An output that takes everything goes on doing so while an expression is evaluated. -/
theorem Eval.takes_of_evaluate (h : m.output.Takes) (hrun : evaluate σ n e m = .ok v q) :
    q.output.Takes := by
  have hsame := (takes_steady.evaluate_execute σ n).1 e m
  unfold machineAfter at hsame
  rw [hrun] at hsame
  obtain ⟨hrefusal, hflush⟩ := hsame
  exact ⟨fun text => by rw [hrefusal, h.writes], by rw [hflush, h.flushes]⟩

/-- A program that prints an expression evaluates it, and prints its value if it has one. -/
theorem Eval.interpret_print (h : m.output.Takes) :
    interpret σ (n + 1) [.print e] m =
      match evaluate σ n e m with
      | .ok v q => .ok () { q with output := q.output.append (v.printed q.heap ++ "\n") }
      | .error fault q => .error fault q := by
  rw [interpret, execute, statement]
  cases hrun : evaluate σ n e m with
  | error fault q => exact Grammar.bind_of_error (Grammar.bind_of_error hrun)
  | ok v q =>
      have hq := takes_of_evaluate h hrun
      have hstatement : (do printValue (← evaluate σ n e); return Flow.normal) m =
          .ok Flow.normal { q with output := q.output.append (v.printed q.heap ++ "\n") } :=
        (Grammar.bind_of_ok hrun).trans (Grammar.bind_of_ok (printValue_eq hq v))
      rw [Grammar.bind_of_ok hstatement]
      exact flush_eq (hq.append _)

end

/-- A step that evaluates, with the value printed on a line if there is one. -/
def Step.printed (t : Step Value) : Step Unit :=
  let m := t.session.machine
  let text := (t.result.map fun v => v.printed m.heap ++ "\n").getD ""
  ⟨t.status, t.reports, t.result.map fun _ => (),
    { t.session with machine := { m with output := m.output.append text } }⟩

theorem Output.append_empty (o : Output) : o.append "" = o := by
  simp [append]

namespace Session

variable {s : Session} {text : String} {e : Expr} {fuel : Nat}

theorem perform_print (h : s.machine.output.Takes) :
    s.perform (fun σ => interpret σ (fuel + 1) [.print e]) =
      (s.perform fun σ => Eval.evaluate σ fuel e).map Step.printed := by
  unfold perform
  dsimp only
  rw [interpret_print h]
  cases Eval.evaluate s.setting fuel e s.machine with
  | ok v q => rfl
  | error fault q =>
      dsimp only
      rw [Option.map_map]
      congr 1
      funext d
      simp [Step.printed, Output.append_empty]

theorem resolved_print (h : s.machine.output.Takes) :
    s.runProgram (fuel + 1) [.print e] =
      (s.resolved (resolveExpression e) fun σ => Eval.evaluate σ fuel e).map Step.printed := by
  have hwalk : resolveProgram [.print e] = resolveExpression e := rfl
  unfold runProgram resolved
  rw [hwalk]
  dsimp only
  split
  · exact perform_print h
  · simp [rejected, Step.printed, Output.append_empty]

end Session

/-- Whatever a session has done before, a text that is an expression without lexical or syntax errors can
be run as the operand of `print` as well as evaluated. Both come to the same status, with the same
reports, table, next identity, heap and output, but that a value is printed by the one and given back by
the other, which gives one just if it ends well. -/
theorem evaluated_as_printed {s : Session} {text : String} {e : Expr}
    (htakes : s.machine.output.Takes) (hread : (Source.expression text s.nextId).tree? = some e)
    (fuel : Nat) :
    s.run (fuel + 1) ("print " ++ text ++ "\n" ++ ";") = (s.evaluate fuel text).map Step.printed ∧
      ∀ t, s.evaluate fuel text = some t → (t.status = .ok ↔ ∃ v, t.result = some v) := by
  obtain ⟨htree, hnext⟩ := Source.program_print ⟨hread, rfl⟩
  unfold Session.run Session.evaluate Session.whenRead
  rw [htree, hread, hnext]
  refine ⟨Session.resolved_print htakes, fun t ht => ?_⟩
  have hmachine : { s with nextId := (Source.expression text s.nextId).nextId }.machine =
    s.machine := rfl
  obtain ⟨htells, -⟩ :=
    resolved_tells (resolveExpression e) (fun σ => Eval.evaluate σ fuel e) hmachine
  rw [← (htells t ht).result_iff, Option.isSome_iff_exists]

/-- An anonymous function is called that prints, in an expression that ends in a comment. -/
theorem evaluated_as_printed_comment :
    ∃ (s : Session) (text : String) (t : Step Value), s = .initial [] .unlimited ∧
      text = "fun () \x7b print \"a\"; return \"b\"; \x7d() // c" ∧
      s.evaluate 9 text = some t ∧ t.status = .ok ∧
      t.printed.session.machine.output.text = "a\nb\n" ∧
      s.run 10 ("print " ++ text ++ "\n" ++ ";") = some t.printed := by
  generalize hs : Session.initial [] .unlimited = s
  generalize htext : "fun () \x7b print \"a\"; return \"b\"; \x7d() // c" = text
  have hrun : ((Source.expression text s.nextId).tree?.bind fun _ =>
      (s.evaluate 9 text).map fun t => (t.status, t.printed.session.machine.output.text)) =
        some (.ok, "a\nb\n") := by
    subst hs htext
    decide +kernel
  obtain ⟨e, hread, hrun⟩ := Option.bind_eq_some_iff.mp hrun
  obtain ⟨t, ht, hrun⟩ := Option.map_eq_some_iff.mp hrun
  obtain ⟨hstatus, houtput⟩ := Prod.mk.inj hrun
  have htakes : s.machine.output.Takes := hs ▸ ⟨fun _ => rfl, rfl⟩
  obtain ⟨hprinted, -⟩ := evaluated_as_printed htakes hread 9
  exact ⟨s, text, t, rfl, rfl, ht, hstatus, houtput, by rw [hprinted, ht]; rfl⟩

end LoxLang
