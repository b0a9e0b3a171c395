import LoxLang.Proofs.Grammar.Laws
import LoxLang.Proofs.Session.Requests
import LoxLang.Proofs.Syntax.Dump

/-!
The trees of texts and their JSON. The numbers of a tree that is read from a text are read from its
tokens, so that none of them is negative; then the JSON of a tree tells all about it that equality of
trees regards, and nothing else.
-/

namespace LoxLang

open Scope Grammar

/-! ### Numbers in derived trees -/

/-- The grammar makes numbers of texts only, and texts denote no negative ones. -/
theorem Law.grammatical_unsigned : Law.unsigned.Grammatical where
  expr e _ he := by
    cases e with
    | literal value =>
        cases value with
        | number x =>
            obtain ⟨text, rfl⟩ := he
            exact isUnsigned_read text
        | _ => trivial
    | _ => trivial
  stmt _ _ _ := trivial
  function _ _ := trivial

/-! ### Dumps -/

/-- The trees of two texts that are read without errors, be they programs or single expressions, are
equal just if their compact JSON is the same text, whatever identities their references start with. All
that this asks of the texts of finite numbers is that they can be read back. -/
theorem same_iff_dumped (fmt : Decimal.Format) (s t : String) (i j : Identity) :
    (∀ p q, (Source.program s i).tree? = some p → (Source.program t j).tree? = some q →
      (sameStmts p q = true ↔
        (programJson p).compactBy fmt.text = (programJson q).compactBy fmt.text)) ∧
    ∀ a b, (Source.expression s i).tree? = some a → (Source.expression t j).tree? = some b →
      (a.same b = true ↔ a.toJson.compactBy fmt.text = b.toJson.compactBy fmt.text) := by
  constructor
  · intro p q hp hq
    have hunsigned := (Source.program_iff.mp ⟨hp, rfl⟩).2.obeys Law.grammatical_unsigned
    have hunsigned' := (Source.program_iff.mp ⟨hq, rfl⟩).2.obeys Law.grammatical_unsigned
    exact sameStmts_iff p q (hunsigned .none) (hunsigned' .none)
  · intro a b ha hb
    have hunsigned := (Source.expression_iff.mp ⟨ha, rfl⟩).2.obeys Law.grammatical_unsigned
    have hunsigned' := (Source.expression_iff.mp ⟨hb, rfl⟩).2.obeys Law.grammatical_unsigned
    exact a.same_iff b (hunsigned .none) (hunsigned' .none)

/-- Two texts of one program, and two occurrences of one name. -/
theorem same_iff_dumped_print :
    (∃ p q, (Source.program "print 1;" 0).tree? = some p ∧
      (Source.program "print 1.00;" 5).tree? = some q ∧ sameStmts p q = true ∧
      (programJson p).compact =
        "[\x7b\"Print\":\x7b\"Literal\":\x7b\"Number\":1.0\x7d\x7d\x7d]") ∧
    ∃ a b, (Source.expression "x" 0).tree? = some a ∧ (Source.expression "x" 1).tree? = some b ∧
      a.same b = false := by
  constructor
  · let dumped text i := (Source.program text i).tree?.map fun p => (programJson p).compact
    have hwhole : dumped "print 1;" 0 =
        some "[\x7b\"Print\":\x7b\"Literal\":\x7b\"Number\":1.0\x7d\x7d\x7d]" := by decide +kernel
    have hpointed : dumped "print 1.00;" 5 = dumped "print 1;" 0 := by decide +kernel
    obtain ⟨p, hp, hptext⟩ := Option.map_eq_some_iff.mp hwhole
    obtain ⟨q, hq, hqtext⟩ := Option.map_eq_some_iff.mp (hpointed.trans hwhole)
    have hsame := (same_iff_dumped Json.realLayout.format "print 1;" "print 1.00;" 0 5).1 p q hp hq
    exact ⟨p, q, hp, hq, hsame.mpr (hptext.trans hqtext.symm), hptext⟩
  · let dumped i := (Source.expression "x" i).tree?.map fun e => e.toJson.compact
    have hsome : (dumped 0).isSome = true ∧ (dumped 1).isSome = true ∧ dumped 0 ≠ dumped 1 := by
      decide +kernel
    obtain ⟨hfirst, hsecond, hne⟩ := hsome
    rw [Option.isSome_map] at hfirst hsecond
    obtain ⟨a, ha⟩ := Option.isSome_iff_exists.mp hfirst
    obtain ⟨b, hb⟩ := Option.isSome_iff_exists.mp hsecond
    have hsame := (same_iff_dumped Json.realLayout.format "x" "x" 0 1).2 a b ha hb
    have hdumped : a.toJson.compact ≠ b.toJson.compact := by simpa [dumped, ha, hb] using hne
    exact ⟨a, b, ha, hb, Bool.eq_false_iff.mpr (mt hsame.mp hdumped)⟩

end LoxLang
