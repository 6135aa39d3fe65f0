import Mathlib
import WordCalc.Proofs.Reloadable
import WordCalc.Proofs.Splicing

/-!
# A begin mark that is defined

The begin mark can be defined like any other word. From then on it calls its body, wherever it
stands, in a line or in an older body. No line opens a definition any more, so the dictionary never
changes again, and the begin mark keeps the last place in it (`begin_mark_freezes_dictionary`).

As long as the begin mark has its own meaning, the dictionary is open: a line that is a definition
is accepted if its name is no numeral and it makes no cycle (`evalLine_of_definition`).
-/

namespace WordCalc

namespace Session

variable {s : Session} {line : String} {name : Word} {body words : List Word}

/-! ## Where the begin mark is defined -/

/-- A line opens no definition where the begin mark is defined, so the dictionary stays. -/
theorem dictionary_evalLine_of_mark (hwf : s.dictionary.WellFormed)
    (hmark : Token.beginMark ∈ s.dictionary.names) (line : String) :
    (s.evalLine line).session.dictionary = s.dictionary := by
  have hends := s.ends_evalLine line
  generalize s.evalLine line = o at hends
  cases hends with
  | finished hrun | fault hrun | rejected hrun hf => rfl
  | recorded hrun hx =>
    have hnone := (runs_stopped hwf hrun).beginMark_of_defining rfl
    exact absurd hmark (Dictionary.not_mem_names_iff.mpr hnone)

/-- No further lines change the dictionary. -/
theorem dictionary_after_of_mark (hs : s.Reachable)
    (hmark : Token.beginMark ∈ s.dictionary.names) (later : List String) :
    (s.after later).dictionary = s.dictionary := by
  induction later generalizing s with
  | nil => rfl
  | cons line later ih =>
    have hline := dictionary_evalLine_of_mark hs.wellFormed hmark line
    rw [after_cons, ih (hs.line line) (hline ▸ hmark), hline]

/-- A begin mark that is defined has the last place. -/
theorem Reachable.getLast?_names (hs : s.Reachable)
    (hmark : Token.beginMark ∈ s.dictionary.names) :
    s.dictionary.names.getLast? = some Token.beginMark := by
  have hlast := hs.reloadable.mark_last
  obtain ⟨names, n, hn⟩ :=
    (List.eq_nil_or_concat' s.dictionary.names).resolve_left (List.ne_nil_of_mem hmark)
  rw [hn] at hmark hlast ⊢
  rw [List.dropLast_concat] at hlast
  rw [List.getLast?_concat]
  rcases List.mem_append.mp hmark with hmem | hmem
  · exact absurd hmem hlast
  · rw [List.mem_singleton.mp hmem]

/-! ## Where it is not -/

/-- A line whose first word is the begin mark records the words behind it. -/
theorem evalLine_of_beginMark (hwf : s.dictionary.WellFormed)
    (hlim : s.settings.exceededLimit? (s.steps + 1) = none)
    (hmark : s.dictionary.body? Token.beginMark = none)
    (hline : tokenize line = Token.beginMark :: words) {x : Definition}
    (hx : s.dictionary.define words = .ok x) :
    (s.evalLine line).Gives (.ok s.stack) ∧
      (s.evalLine line).session.dictionary = s.dictionary.insert x := by
  have hending : s.ending line = .defining words s.stack := by
    rw [ending, stopped, hline, WordCalc.run_cons hlim, dispatch_beginMark hmark]
  have hrecord := Dictionary.record_of_define_ok hx
  obtain ⟨hgives, hdict, -⟩ := evalLine_of_defining hwf hending
  rw [hrecord] at hgives
  exact ⟨hgives, hdict.trans (Dictionary.attempt_of_ok hrecord)⟩

/-- A definition is accepted if its name is no numeral and not among the words that its body expands
to. A name that is defined already is never among them. -/
theorem define_eq_ok (hname : isNumeral name = false)
    (hcycle : name ∈ s.dictionary.names ∨ name ∉ s.dictionary.flat s.acyclic body) :
    s.dictionary.define (name :: (body ++ [Dictionary.endMark])) =
      .ok ⟨name, s.dictionary.flat s.acyclic body⟩ := by
  have hnot : name ∉ s.dictionary.flat s.acyclic body := by
    rcases hcycle with hmem | hnot
    · exact fun hflat => Dictionary.not_mem_names_of_mem_flat s.acyclic hflat hmem
    · exact hnot
  exact Dictionary.define_eq_ok_iff.mpr
    ⟨body, rfl, hname, Dictionary.expand_eq_flat s.acyclic body, hnot⟩

/-- **A line that is a definition is accepted**, and leaves the stack as it is. -/
theorem evalLine_of_definition (hwf : s.dictionary.WellFormed)
    (hmark : Token.beginMark ∉ s.dictionary.names)
    (hline : tokenize line = Token.beginMark :: name :: (body ++ [Dictionary.endMark]))
    (hname : isNumeral name = false)
    (hcycle : name ∈ s.dictionary.names ∨ name ∉ s.dictionary.flat s.acyclic body)
    (hlimit : ∀ limit, s.settings.maxSteps = some limit → s.steps < limit) :
    (s.evalLine line).Gives (.ok s.stack) ∧
      (s.evalLine line).session.dictionary =
        s.dictionary.insert ⟨name, s.dictionary.flat s.acyclic body⟩ := by
  have hlim : s.settings.exceededLimit? (s.steps + 1) = none := by
    cases hm : s.settings.maxSteps with
    | none => exact Settings.exceededLimit?_of_maxSteps_none hm
    | some limit => exact Settings.exceededLimit?_of_le hm (hlimit limit hm)
  exact evalLine_of_beginMark hwf hlim (Dictionary.not_mem_names_iff.mp hmark) hline
    (define_eq_ok hname hcycle)

/-- **A begin mark that is defined freezes the dictionary.** Once the dictionary of a session has
the begin mark, it has it as its last name, and no line changes the dictionary any more, with a
fault or without. Until then, every line that is a definition is accepted, as long as the name is no
numeral, the definition makes no cycle and the limit lets one more word through. -/
theorem begin_mark_freezes_dictionary (hs : s.Reachable) :
    (Token.beginMark ∈ s.dictionary.names →
      s.dictionary.names.getLast? = some Token.beginMark ∧
        ∀ later : List String, (s.after later).dictionary = s.dictionary) ∧
      (Token.beginMark ∉ s.dictionary.names →
        ∀ (line : String) (name : Word) (body : List Word),
          tokenize line = Token.beginMark :: name :: (body ++ [Dictionary.endMark]) →
          isNumeral name = false →
          (name ∈ s.dictionary.names ∨ name ∉ s.dictionary.flat s.acyclic body) →
          (∀ limit, s.settings.maxSteps = some limit → s.steps < limit) →
          (s.evalLine line).Gives (.ok s.stack) ∧
            (s.evalLine line).session.dictionary =
              s.dictionary.insert ⟨name, s.dictionary.flat s.acyclic body⟩) :=
  ⟨fun hmark => ⟨hs.getLast?_names hmark, dictionary_after_of_mark hs hmark⟩,
    fun hmark _ _ _ hline hname hcycle hlimit =>
      evalLine_of_definition hs.wellFormed hmark hline hname hcycle hlimit⟩

/-- A begin mark in an older body, once defined, is called with that body; and with one word left
under the limit a line still defines a name. -/
theorem begin_mark_freezes_dictionary_of_older_body :
    let s := (fresh {}).after [": d : x 1 ;", ": : 2 ;"]
    let t := (fresh ⟨.divisionOnly, some 2⟩).after [": a b ;"]
    s.dictionary.names = ["D", ":"] ∧ (s.after ["d ;", ": y 3 ;"]).dictionary = s.dictionary ∧
      (t.evalLine ": b 7 ;").Gives (.ok t.stack) ∧
      (t.evalLine ": b 7 ;").session.dictionary.names = ["A", "B"] := by
  have hnames : ((fresh {}).after [": d : x 1 ;", ": : 2 ;"]).dictionary.names = ["D", ":"] := by
    cbv
  have hopen : ((fresh ⟨.divisionOnly, some 2⟩).after [": a b ;"]).dictionary =
      ⟨[⟨"A", ["B"]⟩]⟩ := by cbv
  have hsteps : ((fresh ⟨.divisionOnly, some 2⟩).after [": a b ;"]).steps = 1 := by cbv
  have hline : tokenize ": b 7 ;" = [":", "B", "7", ";"] := by cbv
  intro s t
  have hflat : t.dictionary.flat t.acyclic ["7"] = ["7"] := by
    refine Dictionary.flat_of_not_defined t.acyclic ?_
    rw [hopen]
    decide
  have hlimit : ∀ limit, t.settings.maxSteps = some limit → t.steps < limit := by
    intro limit hlimit
    rw [settings_after] at hlimit
    rw [hsteps, ← Option.some.inj hlimit]
    decide
  have hs : s.Reachable := (Reachable.fresh {}).after _
  have ht : t.Reachable := (Reachable.fresh ⟨.divisionOnly, some 2⟩).after _
  obtain ⟨hfrozen, -⟩ := begin_mark_freezes_dictionary hs
  obtain ⟨-, haccept⟩ := begin_mark_freezes_dictionary ht
  obtain ⟨hgives, hdict⟩ := haccept (by rw [hopen]; decide) ": b 7 ;" "B" ["7"] hline
    (by decide +kernel) (.inr (by rw [hflat]; decide)) hlimit
  refine ⟨hnames, (hfrozen (by rw [hnames]; decide)).2 _, hgives, ?_⟩
  rw [hdict, hflat, hopen]
  rfl

end Session

end WordCalc
