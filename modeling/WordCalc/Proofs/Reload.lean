import Mathlib
import WordCalc.Command.Report
import WordCalc.Proofs.BeginMark
import WordCalc.Proofs.Literals
import WordCalc.Proofs.Text.Encoding
import WordCalc.Proofs.Text.Lines
import WordCalc.Proofs.Text.Words

/-!
# The printed state is a program

A session prints its stack on one line and its definitions on a line each. Evaluated by a fresh
session, the print rebuilds the stack and the dictionary, the definitions in the same order
(`Reachable.evalLines_print`). The first line pushes the numbers of the stack
(`evalLine_stack_text`). Every further line enters a definition on top of those before it
(`evalLinesOnto_definitions`), which works because the dictionary is reloadable.

The command reads its program as bytes and prints the final state, so its output can be its input
(`printed_state_reloads`).
-/

namespace WordCalc

/-! ## The line of the stack -/

namespace Plain

/-- A written numeral puts its cell on the stack. -/
theorem step_write (check : ZeroCheck) (s : Stack) (c : Cell) :
    step check s (Numeral.write c.toInt) = .ok (s.push [c]) := by
  have hclass : classify .empty (Numeral.write c.toInt) = .ok (.literal c) :=
    classify_text_literal .empty c
  rw [step, hclass]

/-- Written numerals put their cells on the stack, the last one on top. -/
theorem run_write (check : ZeroCheck) (s : Stack) (cells : List Cell) :
    run check s (cells.map fun c => Numeral.write c.toInt) = .ok (s.push cells) := by
  induction cells generalizing s with
  | nil => exact congrArg Except.ok (Stack.ext_toList (by simp))
  | cons c cells ih =>
    rw [List.map_cons, run_cons, step_write]
    dsimp only
    rw [ih]
    exact congrArg Except.ok (Stack.ext_toList (by simp))

end Plain

theorem isNumeral_write (n : Int) : isNumeral (Numeral.write n) = true := by
  rw [isNumeral, Numeral.value?_write, Option.isSome_some]

namespace Stack

/-- The words that the stack prints. -/
def words (st : Stack) : List Word := st.toList.map fun c => Numeral.write c.toInt

theorem readable_words (st : Stack) : ∀ w ∈ st.words, Readable w := by
  intro w hw
  obtain ⟨c, -, rfl⟩ := List.mem_map.mp hw
  exact readable_write c.toInt

theorem isNumeral_of_mem_words {st : Stack} {w : Word} (hw : w ∈ st.words) :
    isNumeral w = true := by
  obtain ⟨c, -, rfl⟩ := List.mem_map.mp hw
  exact isNumeral_write c.toInt

theorem tokenize_text (st : Stack) : tokenize st.text = st.words :=
  tokenize_unwords st.readable_words

end Stack

namespace Session

variable {s t : Session}

/-- The printed line of a stack pushes its cells in order, whatever is defined. -/
theorem evalLine_stack_text (hwf : s.dictionary.WellFormed) (hm : s.settings.maxSteps = none)
    (st : Stack) :
    (s.evalLine st.text).Gives (.ok (s.stack.push st.toList)) ∧
      (s.evalLine st.text).session.dictionary = s.dictionary := by
  -- no word of the line is defined or opens a definition, so the plain machine runs all of them
  have hundefined : ∀ w ∈ st.words, s.dictionary.body? w = none := by
    intro w hw
    refine Dictionary.not_mem_names_iff.mp fun hmem => ?_
    exact Bool.eq_false_iff.mp (hwf.not_numeral w hmem) (Stack.isNumeral_of_mem_words hw)
  have hmark : Token.beginMark ∉ st.words := fun hmem =>
    absurd (Stack.isNumeral_of_mem_words hmem) (by decide +kernel)
  have hflat : s.dictionary.flat s.acyclic (tokenize st.text) = st.words := by
    rw [st.tokenize_text, Dictionary.flat_of_not_defined s.acyclic hundefined]
  have hline := evalLine_of_not_mem_flat hwf hm (hflat.symm ▸ hmark)
  rwa [hflat, Stack.words, Plain.run_write] at hline

end Session

/-! ## The line of a definition -/

theorem readable_beginMark : Readable Token.beginMark :=
  readable_of_singleton rfl rfl (by decide)

theorem readable_endMark : Readable Dictionary.endMark :=
  readable_of_singleton rfl rfl (by decide)

/-- The words of the line of a definition, also when the body is empty and two spaces follow one
another. -/
theorem Definition.tokenize_text {x : Definition} (hx : x.AllWords Readable) :
    tokenize x.text = Token.beginMark :: x.name :: (x.body ++ [Dictionary.endMark]) := by
  have hmark : tokenize x.text =
      tokenize Token.beginMark ++ tokenize (x.name ++ " " ++ unwords x.body ++ " ;") :=
    tokenize_append_blank (b := ' ') rfl (by simp [Definition.text, Token.beginMark])
  have hname : tokenize (x.name ++ " " ++ unwords x.body ++ " ;") =
      tokenize x.name ++ tokenize (unwords x.body ++ " ;") :=
    tokenize_append_blank (b := ' ') rfl (by simp)
  have hbody : tokenize (unwords x.body ++ " ;") =
      tokenize (unwords x.body) ++ tokenize Dictionary.endMark :=
    tokenize_append_blank (b := ' ') rfl (by simp [Dictionary.endMark])
  rw [hmark, hname, hbody, readable_beginMark.tokenize_eq, hx.name.tokenize_eq,
    tokenize_unwords hx.body, readable_endMark.tokenize_eq]
  rfl

/-- The line of a definition has no line break in it. -/
theorem Definition.unbroken_text {x : Definition} (hx : x.AllWords Readable) :
    Unbroken x.text := by
  have hopen : Unbroken ": " := by decide
  have hspace : Unbroken " " := by decide
  have hclose : Unbroken " ;" := by decide
  exact (((hopen.append hx.name.unbroken).append hspace).append (unbroken_unwords hx.body)).append
    hclose

namespace Session

variable {s t : Session} {d : Dictionary}

/-! ## All lines -/

/-- **The printed definitions rebuild the dictionary** one by one, on top of those that have been
entered already. -/
theorem evalLinesOnto_definitions (hd : d.Reloadable) {ys : List Definition}
    (ht : t.Reachable) (hm : t.settings.maxSteps = none)
    (hys : d.definitions = t.dictionary.definitions ++ ys) (log : Array Event) :
    (t.evalLinesOnto log (ys.map Definition.text)).Gives (.ok t.stack) ∧
      (t.evalLinesOnto log (ys.map Definition.text)).session.dictionary = d := by
  induction ys generalizing t log with
  | nil =>
    rw [List.append_nil] at hys
    exact ⟨⟨rfl, rfl⟩, congrArg Dictionary.mk hys.symm⟩
  | cons y ys ih =>
    obtain ⟨hdefine, hinsert⟩ := hd.define_next t.acyclic hys
    have hreadable := hd.readable y (hys ▸ List.mem_append_right _ List.mem_cons_self)
    -- `y` is still to come, so the begin mark, which can only come last, is not defined yet
    have hmark : t.dictionary.body? Token.beginMark = none := by
      refine Dictionary.not_mem_names_iff.mp fun hmem => hd.mark_last ?_
      rw [Dictionary.names, hys, List.map_append, List.map_cons,
        List.dropLast_append_of_ne_nil (List.cons_ne_nil _ _)]
      exact List.mem_append_left _ hmem
    obtain ⟨⟨hok, hstack⟩, hdict⟩ := evalLine_of_beginMark ht.wellFormed
      (Settings.exceededLimit?_of_maxSteps_none hm) hmark (Definition.tokenize_text hreadable)
      hdefine
    rw [List.map_cons, evalLinesOnto_cons_of_ok hok, ← hstack]
    refine ih (ht.line _) (by rwa [settings_evalLine]) ?_ _
    rw [hys, hdict, hinsert, List.append_assoc, List.singleton_append]

/-! ## The print -/

/-- The stack on one line, and the definitions on a line each. -/
def print (s : Session) : String := s.stack.text ++ "\n" ++ s.dictionary.text

/-- The print is cut into the lines that it was written as. -/
theorem textLines_print (h : s.dictionary.AllWords Readable) :
    textLines s.print = s.stack.text :: s.dictionary.definitions.map Definition.text := by
  have hjoin : s.print = String.join
      ((s.stack.text :: s.dictionary.definitions.map Definition.text).map (· ++ "\n")) := by
    rw [List.map_cons, String.join_cons, List.map_map]
    rfl
  rw [hjoin]
  refine textLines_join fun line hline => ?_
  rcases List.mem_cons.mp hline with rfl | hline
  · exact (unbroken_unwords s.stack.readable_words).line
  · obtain ⟨x, hx, rfl⟩ := List.mem_map.mp hline
    exact (Definition.unbroken_text (h x hx)).line

/-- **The print rebuilds the state**: a fresh session without a limit that evaluates it succeeds,
with the same stack and the same dictionary. -/
theorem Reachable.evalLines_print (hs : s.Reachable) (check : ZeroCheck) :
    ((Session.fresh ⟨check, none⟩).evalLines (textLines s.print)).Gives (.ok s.stack) ∧
      ((Session.fresh ⟨check, none⟩).evalLines (textLines s.print)).session.dictionary =
        s.dictionary := by
  have hfresh := Reachable.fresh ⟨check, none⟩
  obtain ⟨⟨hok, hstack⟩, hdict⟩ := evalLine_stack_text hfresh.wellFormed rfl s.stack
  have hpush : ((Session.fresh ⟨check, none⟩).stack.push s.stack.toList) = s.stack :=
    Stack.ext_toList (by simp [Session.fresh])
  rw [hpush] at hstack
  rw [evalLines, textLines_print hs.reloadable.readable, evalLinesOnto_cons_of_ok hok]
  have hdefs := evalLinesOnto_definitions hs.reloadable (hfresh.line s.stack.text)
    (by rw [settings_evalLine]; rfl) (by rw [hdict]; rfl)
    (#[] ++ ((Session.fresh ⟨check, none⟩).evalLine s.stack.text).events)
  rwa [hstack] at hdefs

end Session

/-! ## The command -/

namespace Report

variable {o : Options} {s : Session}

/-- The program that the options name is `text`, on the standard input or in a file. -/
def Supplies (o : Options) (folder : Folder) (stdin : ByteArray) (text : String) : Prop :=
  o.path = none ∧ stdin = text.toUTF8 ∨
    ∃ path, o.path = some path ∧ folder.open? path = .ok text.toUTF8

theorem linesIn_of_supplies {folder : Folder} {stdin : ByteArray} {text : String}
    (h : Supplies o folder stdin text) : linesIn o folder stdin = .ok (textLines text) := by
  unfold linesIn
  rcases h with ⟨hpath, rfl⟩ | ⟨path, hpath, hopen⟩
  · rw [hpath]
    exact linesOfStream_toUTF8 text
  · rw [hpath]
    dsimp only
    rw [hopen]
    exact linesOfFile_toUTF8 text

/-- The report on a program that succeeds. -/
theorem ofLines_of_ok {lines : List String}
    (h : ((Session.fresh o.settings).evalLines lines).result = .ok ()) :
    ofLines o (.ok lines) = success o ((Session.fresh o.settings).evalLines lines).session := by
  rw [ofLines]
  split
  · rename_i he
    rw [he]
  · rename_i he
    rw [he] at h
    cases h

theorem code_failure_ne_zero (message : String) : (failure message).code ≠ 0 := by
  change (1 : UInt32) ≠ 0
  decide

/-- Only a program that has succeeded is reported with the code 0. -/
theorem exists_session_of_code {lines : Except ReadError (List String)}
    (h : (ofLines o lines).code = 0) :
    ∃ s : Session, s.Reachable ∧ ofLines o lines = success o s := by
  cases lines with
  | error e => exact absurd h (code_failure_ne_zero _)
  | ok lines =>
    cases hr : ((Session.fresh o.settings).evalLines lines).result with
    | ok u =>
      exact ⟨_, (Session.Reachable.fresh o.settings).evalLinesOnto #[] lines, ofLines_of_ok hr⟩
    | error f =>
      rw [ofLines] at h
      split at h
      · rename_i he
        rw [he] at hr
        cases hr
      · exact absurd h (code_failure_ne_zero _)

theorem success_of_listDefinitions (hl : o.listDefinitions = true) (s : Session) :
    success o s = ⟨0, s.print, ""⟩ := by
  rw [success, if_pos hl]
  rfl

/-- The report on a print is the print. -/
theorem ofLines_print (hl : o.listDefinitions = true) (hm : o.maxSteps = none) (hs : s.Reachable) :
    ofLines o (.ok (textLines s.print)) = ⟨0, s.print, ""⟩ := by
  obtain ⟨⟨hok, hstack⟩, hdict⟩ := hs.evalLines_print o.settings.zeroCheck
  have hsettings : (⟨o.settings.zeroCheck, none⟩ : Settings) = o.settings := by
    rw [← hm]
    rfl
  rw [hsettings] at hok hstack hdict
  rw [ofLines_of_ok hok, success_of_listDefinitions hl, Session.print, hstack, hdict]
  rfl

end Report

/-- **The printed state is a program that rebuilds the state.** Let lines have led from a fresh
session to `s`, with any settings and any faults on the way. The print of `s`, evaluated line by
line in a fresh session without a limit, succeeds and leaves the stack and the dictionary of `s`.

So the output of a successful command with `--macros`, given as the program to a command with
`--macros` and without a limit, ends with the code 0 and the same output. -/
theorem printed_state_reloads :
    (∀ s : Session, s.Reachable → ∀ check : ZeroCheck,
      ((Session.fresh ⟨check, none⟩).evalLines (textLines s.print)).Gives (.ok s.stack) ∧
        ((Session.fresh ⟨check, none⟩).evalLines (textLines s.print)).session.dictionary =
          s.dictionary) ∧
      ∀ (args args' : List String) (folder folder' : Folder) (stdin stdin' : ByteArray)
        (o o' : Options) (r : Report),
        Options.read args = .ok (.evaluate o) → o.listDefinitions = true →
        Report.inFolder args folder stdin = .ok (some r) → r.code = 0 →
        Options.read args' = .ok (.evaluate o') → o'.listDefinitions = true → o'.maxSteps = none →
        Report.Supplies o' folder' stdin' r.stdout →
        Report.inFolder args' folder' stdin' = .ok (some ⟨0, r.stdout, ""⟩) := by
  refine ⟨fun s hs check => hs.evalLines_print check, ?_⟩
  intro args args' folder folder' stdin stdin' o o' r hread hl hrun hcode hread' hl' hm hsupplies
  simp only [Report.inFolder, hread, Except.ok.injEq, Option.some.injEq] at hrun
  rw [← hrun] at hcode hsupplies ⊢
  obtain ⟨s, hs, hsuccess⟩ := Report.exists_session_of_code hcode
  rw [hsuccess, Report.success_of_listDefinitions hl] at hsupplies ⊢
  simp only [Report.inFolder, hread', Report.linesIn_of_supplies hsupplies,
    Report.ofLines_print hl' hm hs]

/-- A session that defines a word with an end mark in its body, and then the begin mark. -/
def markSession : Session :=
  (Session.fresh {}).after ["5 -7", ": a b ; ;", ": : A 1 ;"]

/-- The begin mark comes last in the print, its body expanded. The command that reads the print is
a strict one and finds it in a file. -/
theorem printed_state_reloads_with_begin_mark :
    markSession.Reachable ∧ markSession.print = "5 -7\n: A B ; ;\n: : B ; 1 ;\n" ∧
      ((Session.fresh ⟨.anyOperator, none⟩).evalLines (textLines markSession.print)).Gives
        (.ok markSession.stack) ∧
      ((Session.fresh ⟨.anyOperator, none⟩).evalLines
          (textLines markSession.print)).session.dictionary = markSession.dictionary ∧
      Report.inFolder ["--macros"] ⟨[]⟩ "5 -7\n: a b ; ;\n: : A 1 ;".toUTF8 =
        .ok (some ⟨0, markSession.print, ""⟩) ∧
      Report.inFolder ["--strict-zero-check", "p", "--macros"]
          ⟨[("p", markSession.print.toUTF8)]⟩ ⟨#[]⟩ =
        .ok (some ⟨0, markSession.print, ""⟩) := by
  have hs : markSession.Reachable := (Session.Reachable.fresh {}).after _
  have hprint : markSession.print = "5 -7\n: A B ; ;\n: : B ; 1 ;\n" := by cbv
  have hread : Options.read ["--macros"] = .ok (.evaluate { listDefinitions := true }) := rfl
  have hlines : linesOfStream "5 -7\n: a b ; ;\n: : A 1 ;".toUTF8 =
      .ok ["5 -7", ": a b ; ;", ": : A 1 ;"] := by
    rw [linesOfStream_toUTF8]
    exact congrArg Except.ok (by decide +kernel)
  have hreport : Report.ofLines { listDefinitions := true }
      (.ok ["5 -7", ": a b ; ;", ": : A 1 ;"]) = ⟨0, "5 -7\n: A B ; ;\n: : B ; 1 ;\n", ""⟩ := by cbv
  have hrun : Report.inFolder ["--macros"] ⟨[]⟩ "5 -7\n: a b ; ;\n: : A 1 ;".toUTF8 =
      .ok (some ⟨0, markSession.print, ""⟩) := by
    rw [hprint, ← hreport, ← hlines]
    simp only [Report.inFolder, hread, Report.linesIn]
  have hread' : Options.read ["--strict-zero-check", "p", "--macros"] =
      .ok (.evaluate ⟨true, true, none, some "p"⟩) := rfl
  obtain ⟨hsession, hcommand⟩ := printed_state_reloads
  obtain ⟨hgives, hdictionary⟩ := hsession markSession hs .anyOperator
  refine ⟨hs, hprint, hgives, hdictionary, hrun, ?_⟩
  exact hcommand _ _ _ _ _ _ _ _ _ hread rfl hrun rfl hread' rfl rfl
    (.inr ⟨"p", rfl, by cbv⟩)

end WordCalc
