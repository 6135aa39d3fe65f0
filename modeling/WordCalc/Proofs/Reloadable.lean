import WordCalc.Proofs.Dictionary.Rebuild
import WordCalc.Proofs.Reachable
import WordCalc.Proofs.Text.Words

/-!
# Reloadable dictionaries

The dictionary of a reachable session can be read back from the lines that it prints
(`Session.Reachable.reloadable`). Beyond being well-formed this takes two things. Its words come
from lines, so they are readable. And a begin mark that is defined has the last name: once it is a
word like any other, no line opens a definition, so no name comes after it.
-/

namespace WordCalc

/-! ## What reaches a definition -/

namespace Runs

variable {settings : Settings} {d : Dictionary} {queue ws : List Word} {s st : Stack} {n : Nat}
  {log : Array Event} {r : Stopped}

/-- A definition is opened only while the begin mark has its built-in meaning. -/
theorem beginMark_of_defining (h : Runs settings d queue s n log r)
    (he : r.ending = .defining ws st) : d.body? Token.beginMark = none := by
  induction h with
  | define hlim hb => exact hb
  | call hlim hb hr ih => exact ih he
  | step hlim hb hw hs hr ih => exact ih he
  | finished | limit | fault => cases he

end Runs

/-! ## Dictionaries that can be read back -/

/-- A dictionary that is rebuilt by the lines it prints. -/
structure Dictionary.Reloadable (d : Dictionary) : Prop extends d.WellFormed where
  readable : d.AllWords Readable
  /-- No definition stands behind one of the begin mark. -/
  mark_last : Token.beginMark ∉ d.names.dropLast

theorem Dictionary.reloadable_empty : Dictionary.empty.Reloadable :=
  ⟨wellFormed_empty, allWords_empty Readable, List.not_mem_nil⟩

/-- A new name goes to the end and finds no begin mark there. -/
theorem Dictionary.mark_last_insert {d : Dictionary} (h : d.body? Token.beginMark = none)
    (x : Definition) : Token.beginMark ∉ (d.insert x).names.dropLast := by
  have hnot := not_mem_names_iff.mpr h
  rcases (insertion_insert d x).names with he | ⟨-, he⟩
  · exact fun hmem => hnot (he ▸ List.dropLast_subset _ hmem)
  · rwa [he, List.dropLast_concat]

namespace Session

variable {s : Session}

/-- A line keeps the dictionary reloadable. -/
theorem reloadable_evalLine (h : s.dictionary.Reloadable) (line : String) :
    (s.evalLine line).session.dictionary.Reloadable := by
  have hends := s.ends_evalLine line
  generalize s.evalLine line = o at hends
  cases hends with
  | finished hrun | fault hrun | rejected hrun hf => exact h
  | @recorded words st n log x hrun hx =>
    have hruns := runs_stopped h.toWellFormed hrun
    have hwords : ∀ w ∈ words, Readable w :=
      forall_mem_of_run_defining h.readable.inherits (fun _ => readable_of_mem_tokenize)
        (congrArg Stopped.ending hrun)
    exact ⟨h.toWellFormed.insert_of_define hx,
      h.readable.insert (h.readable.define s.acyclic hwords hx),
      Dictionary.mark_last_insert (hruns.beginMark_of_defining rfl) x⟩

theorem Reachable.reloadable (hs : s.Reachable) : s.dictionary.Reloadable := by
  induction hs with
  | fresh settings => exact Dictionary.reloadable_empty
  | line hs line ih => exact reloadable_evalLine ih line

end Session

end WordCalc
