import Mathlib
import WordCalc.Command.Report
import WordCalc.Proofs.Text.Encoding
import WordCalc.Proofs.Text.Lines

/-!
# Both sources of a program

A file is decoded as a whole and then cut into lines; a stream is cut where it has line feeds and
decoded piece by piece. On the bytes of a text both give the lines of the text. Other bytes both
refuse: the pieces lose nothing, so if every piece were a text, the bytes would be the text that
these make up (`exists_text_or_notText`).

So both sources give the same for any bytes (`linesOfStream_eq_linesOfFile`). The rest of the
command looks at the lines alone, so it makes no difference to a report which source has been read
(`sources_read_alike`).
-/

namespace WordCalc

variable {bytes : ByteArray}

/-! ## Decoding -/

/-- Bytes that decode to a text are the bytes of the text. -/
theorem eq_toUTF8_of_decode {text : String} (h : decode bytes = .ok text) :
    bytes = text.toUTF8 := by
  unfold decode String.fromUTF8? at h
  by_cases hvalid : bytes.IsValidUTF8
  · rw [dif_pos hvalid] at h
    cases h
    rfl
  · rw [dif_neg hvalid] at h
    cases h

/-- Bytes are refused when they are not UTF-8, and for no other cause. -/
theorem decode_eq_error_iff {e : ReadError} :
    decode bytes = .error e ↔ ¬ bytes.IsValidUTF8 ∧ e = .notText := by
  unfold decode String.fromUTF8?
  by_cases hvalid : bytes.IsValidUTF8
  · simp [hvalid]
  · simp [hvalid, eq_comm]

theorem linesOfFile_of_decode_error {e : ReadError} (h : decode bytes = .error e) :
    linesOfFile bytes = .error e := by
  rw [linesOfFile, h]
  rfl

/-! ## Decoding piece by piece -/

/-- Pieces are the bytes of a text when they are put together, or one of them is refused. -/
theorem exists_text_or_notText (ps : List (List UInt8)) :
    (∃ text : String, (⟨ps.flatten.toArray⟩ : ByteArray) = text.toUTF8) ∨
      (ps.mapM fun piece => (decode ⟨piece.toArray⟩).map lineOfPiece) = .error .notText := by
  induction ps with
  | nil => exact .inl ⟨"", rfl⟩
  | cons piece ps ih =>
    rw [List.mapM_cons]
    cases hpiece : decode ⟨piece.toArray⟩ with
    | error e =>
      right
      rw [(decode_eq_error_iff.mp hpiece).2]
      rfl
    | ok text =>
      rcases ih with ⟨rest, hrest⟩ | hrefused
      · left
        refine ⟨text ++ rest, ?_⟩
        have hbytes : (⟨(piece :: ps).flatten.toArray⟩ : ByteArray) =
            ⟨piece.toArray⟩ ++ ⟨ps.flatten.toArray⟩ := by
          ext1
          simp
        rw [hbytes, eq_toUTF8_of_decode hpiece, hrest]
        simp [String.toUTF8_eq_toByteArray]
      · right
        rw [hrefused]
        rfl

/-- **Both sources give the same for any bytes**, lines or a refusal. -/
theorem linesOfStream_eq_linesOfFile (bytes : ByteArray) :
    linesOfStream bytes = linesOfFile bytes := by
  cases hd : decode bytes with
  | ok text => rw [eq_toUTF8_of_decode hd, linesOfStream_toUTF8, linesOfFile_toUTF8]
  | error e =>
    obtain ⟨hinvalid, rfl⟩ := decode_eq_error_iff.mp hd
    have hjoined : (⟨(pieces 10 bytes.toList).flatten.toArray⟩ : ByteArray) = bytes := by
      rw [flatten_pieces, toList_eq_data_toList]
    rw [linesOfFile_of_decode_error hd]
    rcases exists_text_or_notText (pieces 10 bytes.toList) with ⟨text, htext⟩ | hrefused
    · rw [hjoined] at htext
      exact absurd (htext ▸ text.isValidUTF8) hinvalid
    · exact hrefused

/-! ## The command -/

/-- **A program is read alike from both sources.** Bytes that are the UTF-8 of a text give its
lines, from a file and from a stream; any other bytes are refused by both as no text.

So a command that finds the bytes in a file and one that finds them on its standard input, with the
same options besides, end with the same report: the same code, the same output and the same
errors. -/
theorem sources_read_alike (bytes : ByteArray) :
    ((∃ text : String, bytes = text.toUTF8 ∧ linesOfFile bytes = .ok (textLines text) ∧
          linesOfStream bytes = .ok (textLines text)) ∨
        ¬ bytes.IsValidUTF8 ∧ linesOfFile bytes = .error .notText ∧
          linesOfStream bytes = .error .notText) ∧
      ∀ (args args' : List String) (folder folder' : Folder) (stdin' : ByteArray) (o : Options)
        (path : String),
        Options.read args = .ok (.evaluate o) → o.path = none →
        Options.read args' = .ok (.evaluate { o with path := some path }) →
        folder'.open? path = .ok bytes →
        Report.inFolder args folder bytes = Report.inFolder args' folder' stdin' := by
  refine ⟨?_, ?_⟩
  · rw [linesOfStream_eq_linesOfFile]
    cases hd : decode bytes with
    | ok text =>
      left
      have hbytes := eq_toUTF8_of_decode hd
      have hlines := hbytes ▸ linesOfFile_toUTF8 text
      exact ⟨text, hbytes, hlines, hlines⟩
    | error e =>
      right
      obtain ⟨hinvalid, rfl⟩ := decode_eq_error_iff.mp hd
      have hrefused := linesOfFile_of_decode_error hd
      exact ⟨hinvalid, hrefused, hrefused⟩
  · intro args args' folder folder' stdin' o path hread hnone hread' hopen
    have hstream : Report.linesIn o folder bytes = linesOfStream bytes := by
      simp only [Report.linesIn, hnone]
    have hfile :
        Report.linesIn { o with path := some path } folder' stdin' = linesOfFile bytes := by
      simp only [Report.linesIn, hopen]
    simp only [Report.inFolder, hread, hread']
    rw [hstream, hfile, linesOfStream_eq_linesOfFile]
    -- beyond the lines, a report does not look at the path
    rfl

/-- A carriage return before a line feed belongs to the ending, and one at the very end to the last
line; a character that is cut off by a line feed is refused. -/
theorem sources_read_alike_at_line_ends :
    Report.inFolder ["--macros"] ⟨[]⟩ "1 2\r\n+\r".toUTF8 =
        Report.inFolder ["p", "--macros"] ⟨[("p", "1 2\r\n+\r".toUTF8)]⟩ ⟨#[]⟩ ∧
      Report.inFolder ["--macros"] ⟨[]⟩ "1 2\r\n+\r".toUTF8 = .ok (some ⟨0, "3\n", ""⟩) ∧
      linesOfFile ⟨#[49, 10, 226, 10]⟩ = .error .notText ∧
      linesOfStream ⟨#[49, 10, 226, 10]⟩ = .error .notText := by
  have hread : Options.read ["--macros"] = .ok (.evaluate { listDefinitions := true }) := rfl
  have hlines : linesOfStream "1 2\r\n+\r".toUTF8 = .ok ["1 2", "+\r"] := by
    rw [linesOfStream_toUTF8]
    exact congrArg Except.ok (by decide +kernel)
  have hreport : Report.ofLines { listDefinitions := true } (.ok ["1 2", "+\r"]) =
      ⟨0, "3\n", ""⟩ := by cbv
  have hinvalid : ¬ (⟨#[49, 10, 226, 10]⟩ : ByteArray).IsValidUTF8 := by decide +kernel
  obtain ⟨-, hsame⟩ := sources_read_alike "1 2\r\n+\r".toUTF8
  obtain ⟨hrefused, -⟩ := sources_read_alike ⟨#[49, 10, 226, 10]⟩
  refine ⟨?_, ?_, (hrefused.resolve_left ?_).2⟩
  · exact hsame _ ["p", "--macros"] _ _ _ _ "p" hread rfl rfl (by cbv)
  · rw [← hreport, ← hlines]
    simp only [Report.inFolder, hread, Report.linesIn]
  · rintro ⟨text, htext, -⟩
    exact hinvalid (htext ▸ text.isValidUTF8)

end WordCalc
