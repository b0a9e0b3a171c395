import LoxLang.Proofs.Scope.Restoration
import LoxLang.Proofs.Session.Shadow
import LoxLang.Proofs.Token.Joined

/-!
Texts joined by line breaks. Where each of them is read and walked without an error, so is the whole: it
is read to the programs of the pieces one after the other, each on the lines where its text is, and the
walk enters the distances of the pieces.
-/

namespace LoxLang

open Scope Grammar

/-! ### Reading -/

/-- Texts joined by line breaks. -/
def joined : String → List String → String
  | text, [] => text
  | text, next :: rest => text ++ "\n" ++ joined next rest

/-- The lines that a text takes where another one is joined to it. -/
def lineSpan (text : String) : Nat :=
  newlines text.toList + 1

/-- A text and the program that it is read to. -/
structure Piece where
  text : String
  program : List Stmt

namespace Piece

/-- The pieces are read in turn, from one identity up to another. -/
inductive Read : Identity → List Piece → Identity → Prop
  | nil {i} : Read i [] i
  | cons {i j k p ps} (hlexical : lexicalErrorsOf (scan p.text) = [])
    (hparse : Derives (.declarations p.program) ⟨textTokens p.text, i⟩ ⟨[], j⟩)
    (hrest : Read j ps k) : Read i (p :: ps) k

/-- The programs of pieces, behind a number of lines. -/
def joinedProgram (lines : Nat) : List Piece → List Stmt
  | [] => []
  | p :: ps => movedStmts ⟨0, lines⟩ p.program ++ joinedProgram (lines + lineSpan p.text) ps

end Piece

theorem moved_moved_lines (m n : Nat) (ts : List Token) :
    (ts.map (Token.moved ⟨0, m⟩)).map (Token.moved ⟨0, n⟩) = ts.map (Token.moved ⟨0, n + m⟩) := by
  rw [List.map_map]
  refine List.map_congr_left fun t _ => ?_
  simp only [Function.comp_apply, Token.moved, Nat.add_assoc, Nat.add_comm m n]

theorem Grammar.Derives.moved_lines {ss : List Stmt} {text : String} {i j : Identity}
    (h : Derives (.declarations ss) ⟨textTokens text, i⟩ ⟨[], j⟩) (lines : Nat) :
    Derives (.declarations (movedStmts ⟨0, lines⟩ ss))
      ⟨(textTokens text).map (Token.moved ⟨0, lines⟩), i⟩ ⟨[], j⟩ := by
  rw [← beforeEnd_scan] at h ⊢
  have hmoved := h.declarations_moved ⟨0, lines⟩
  rwa [UInt64.add_zero, UInt64.add_zero] at hmoved

/-- The whole is read to the programs of its pieces. -/
theorem Piece.Read.joined {i k : Identity} {p : Piece} {ps : List Piece} (h : Read i (p :: ps) k)
    (lines : Nat) :
    lexicalErrorsOf (scan (LoxLang.joined p.text (ps.map text))) = [] ∧
      Derives (.declarations (joinedProgram lines (p :: ps)))
        ⟨(textTokens (LoxLang.joined p.text (ps.map text))).map (Token.moved ⟨0, lines⟩), i⟩ ⟨[], k⟩ := by
  induction ps generalizing i p lines with
  | nil =>
      obtain _ | ⟨hlexical, hparse, hrest⟩ := h
      cases hrest
      refine ⟨hlexical, ?_⟩
      rw [joinedProgram, joinedProgram, List.append_nil]
      exact hparse.moved_lines lines
  | cons q qs ih =>
      obtain _ | ⟨hlexical, hparse, hrest⟩ := h
      obtain ⟨hlexical', hparse'⟩ := ih hrest (lines + lineSpan p.text)
      refine ⟨lexicalErrors_break hlexical hlexical', ?_⟩
      rw [List.map_cons, LoxLang.joined, textTokens_break hlexical, List.map_append,
        moved_moved_lines]
      exact ((hparse.moved_lines lines).framed trivial _).declarations_append hparse'

/-! ### Walking -/

theorem visitsStmts_append (ss ss' : List Stmt) (c : Context) (os : List Origin) :
    visitsStmts (ss ++ ss') c os = visitsStmts ss c os ++ visitsStmts ss' (walkStmts ss c) os := by
  induction ss generalizing c with
  | nil => rfl
  | cons s ss ih => rw [List.cons_append, visitsStmts, ih, visitsStmts, walkStmts, List.append_assoc]

/-- The context at the top level, behind code without errors. -/
def Scope.Context.behindCode (ds : Distances) : Context :=
  { Context.initial with distances := ds }

/-- Behind an accepted program the walk is at the top level again. -/
theorem walkStmts_accepted {ss : List Stmt} (h : (Chunk.program ss).Accepted) :
    walkStmts ss .initial = Context.behindCode (Chunk.program ss).findings.distances := by
  have herrors : (resolveProgram ss).errors = [] := h
  rw [walkStmts_initial, Findings.context, herrors]
  rfl

namespace Piece

def Accepted (p : Piece) : Prop :=
  (Chunk.program p.program).Accepted

/-- The distances of pieces, those of the last one first. -/
def joinedDistances : List Piece → Distances
  | [] => []
  | p :: ps => joinedDistances ps ++ (Chunk.program p.program).findings.distances

/-- The visits of pieces behind a number of lines. -/
def joinedVisits (lines : Nat) : List Piece → List Visit
  | [] => []
  | p :: ps => (Chunk.program p.program).visits.map (Visit.moved ⟨0, lines⟩) ++
    joinedVisits (lines + lineSpan p.text) ps

theorem movedDistances_zero (lines : Nat) (ds : Distances) : movedDistances ⟨0, lines⟩ ds = ds := by
  refine (List.map_congr_left fun p _ => ?_).trans (List.map_id ds)
  rw [UInt64.add_zero]
  rfl

theorem walkStmts_joined {ps : List Piece} (h : ∀ p ∈ ps, p.Accepted) (lines : Nat) (ds : Distances) :
    walkStmts (joinedProgram lines ps) (.behindCode ds) = .behindCode (joinedDistances ps ++ ds) ∧
      visitsStmts (joinedProgram lines ps) (.behindCode ds) [] = joinedVisits lines ps := by
  induction ps generalizing lines ds with
  | nil => exact ⟨rfl, rfl⟩
  | cons p ps ih =>
      have hfirst := h p (List.mem_cons_self ..)
      have hwalk : walkStmts (movedStmts ⟨0, lines⟩ p.program) (.behindCode ds) =
          .behindCode ((Chunk.program p.program).findings.distances ++ ds) := by
        have hmoved : walkStmts (movedStmts ⟨0, lines⟩ p.program)
            (Context.initial.moved ⟨0, lines⟩ [] ds) = _ := walkStmts_moved p.program .initial
        rw [walkStmts_accepted hfirst] at hmoved
        refine hmoved.trans ?_
        simp only [Context.moved, Context.behindCode, Context.initial, movedDistances_zero]
        rfl
      have hvisits : visitsStmts (movedStmts ⟨0, lines⟩ p.program) (.behindCode ds) [] =
          (Chunk.program p.program).visits.map (Visit.moved ⟨0, lines⟩) := by
        have hmoved : visitsStmts (movedStmts ⟨0, lines⟩ p.program)
            (Context.initial.moved ⟨0, lines⟩ [] ds) [] = _ := visitsStmts_moved p.program .initial []
        exact hmoved
      obtain ⟨hwalk', hvisits'⟩ := ih (fun q hq => h q (List.mem_cons_of_mem _ hq))
        (lines + lineSpan p.text) ((Chunk.program p.program).findings.distances ++ ds)
      rw [joinedProgram, walkStmts_append, visitsStmts_append, hwalk, hwalk', hvisits, hvisits',
        joinedDistances, joinedVisits, List.append_assoc]
      exact ⟨rfl, rfl⟩

end Piece

/-- The whole is a chunk that is accepted, with the distances of its pieces. -/
theorem Piece.chunk_joined {i k : Identity} {p : Piece} {ps : List Piece} (h : Read i (p :: ps) k)
    (haccepted : ∀ q ∈ p :: ps, q.Accepted) (fuel : Nat) :
    let r := Request.run fuel (joined p.text (ps.map text))
    r.chunk? i = some (.program (joinedProgram 0 (p :: ps))) ∧ r.nextId i = k ∧
      (Chunk.program (joinedProgram 0 (p :: ps))).Accepted ∧
        r.distances i = joinedDistances (p :: ps) ∧ r.visits i = joinedVisits 0 (p :: ps) := by
  intro r
  obtain ⟨hlexical, hparse⟩ := h.joined 0
  rw [map_moved_of_lines_eq_zero rfl] at hparse
  obtain ⟨htree, hnext⟩ := Source.program_iff.mpr ⟨hlexical, hparse⟩
  have hchunk : r.chunk? i = some (.program (joinedProgram 0 (p :: ps))) :=
    Option.map_eq_some_iff.mpr ⟨_, htree, rfl⟩
  obtain ⟨hwalk, hvisits⟩ := walkStmts_joined haccepted 0 []
  rw [List.append_nil] at hwalk
  have hfindings : (Chunk.program (joinedProgram 0 (p :: ps))).findings =
      ⟨[], joinedDistances (p :: ps)⟩ := congrArg Context.findings hwalk
  have haccepted' : (Chunk.program (joinedProgram 0 (p :: ps))).Accepted :=
    congrArg Findings.errors hfindings
  refine ⟨hchunk, hnext, haccepted', ?_, ?_⟩
  · rw [Request.distances, hchunk]
    exact congrArg Findings.distances hfindings
  · rw [Request.visits_of_accepted hchunk haccepted']
    exact hvisits

end LoxLang
