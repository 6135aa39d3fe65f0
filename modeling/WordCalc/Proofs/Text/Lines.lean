import WordCalc.Text

/-!
# Lines of a written text

A text that is written line by line, each line followed by a line feed, is cut into the same
lines again (`textLines_join`), if no line contains a line feed or ends with a carriage return. Any
text, written line by line or not, is what its pieces are one after the other (`flatten_pieces`).
-/

namespace WordCalc

section Pieces

variable {α : Type} [BEq α] {lf cr : α}

@[simp]
theorem pieces_nil : pieces lf [] = [] := rfl

/-- The first line feed ends the first piece. -/
theorem pieces_append_cons [LawfulBEq α] {line : List α} (h : lf ∉ line) (rest : List α) :
    pieces lf (line ++ lf :: rest) = (line ++ [lf]) :: pieces lf rest := by
  have hfree : ∀ c ∈ line, (c == lf) = false := fun c hc =>
    beq_eq_false_iff_ne.mpr fun e => h (e ▸ hc)
  have hcut : (line ++ lf :: rest).splitOnP (· == lf) = line :: rest.splitOnP (· == lf) :=
    List.splitOnP_append_cons_of_forall_mem hfree lf (beq_self_eq_true lf) rest
  have hne := List.splitOnP_ne_nil (· == lf) rest
  rw [pieces, hcut, List.dropLast_cons_of_ne_nil hne, List.map_cons,
    List.getLast?_cons_of_ne_nil hne]
  rfl

/-- Without a line feed there is one piece. -/
theorem pieces_of_not_mem [LawfulBEq α] {xs : List α} (h : lf ∉ xs) (hne : xs ≠ []) :
    pieces lf xs = [xs] := by
  have hfree : ∀ c ∈ xs, (c == lf) = false := fun c hc =>
    beq_eq_false_iff_ne.mpr fun e => h (e ▸ hc)
  simp [pieces, List.splitOnP_eq_singleton hfree, hne]

/-- **The pieces lose nothing**: one after the other they are what was cut. -/
theorem flatten_pieces [LawfulBEq α] (lf : α) (xs : List α) : (pieces lf xs).flatten = xs := by
  induction hn : xs.length using Nat.strongRecOn generalizing xs with
  | ind n ih =>
    by_cases hmem : lf ∈ xs
    · obtain ⟨line, rest, rfl, hline⟩ := List.eq_append_cons_of_mem hmem
      have hrest : (pieces lf rest).flatten = rest := by
        refine ih rest.length ?_ rest rfl
        simp only [List.length_append, List.length_cons] at hn
        omega
      rw [pieces_append_cons hline, List.flatten_cons, hrest]
      simp
    · by_cases hnil : xs = []
      · subst hnil
        rfl
      · rw [pieces_of_not_mem hmem hnil, List.flatten_singleton]

/-- What stands before a line feed is the line, unless it ends with a carriage return. -/
theorem withoutEnding_append [LawfulBEq α] {line : List α} (h : line.getLast? ≠ some cr) :
    withoutEnding lf cr (line ++ [lf]) = line := by
  simp [withoutEnding, h]

end Pieces

/-! ## Lines in a text -/

/-- No character of the text is a line feed or a carriage return. -/
def Unbroken (text : String) : Prop :=
  ∀ c ∈ text.toList, c ≠ '\n' ∧ c ≠ '\r'

instance (text : String) : Decidable (Unbroken text) :=
  List.decidableBAll (fun c => c ≠ '\n' ∧ c ≠ '\r') text.toList

theorem Unbroken.append {l r : String} (hl : Unbroken l) (hr : Unbroken r) : Unbroken (l ++ r) := by
  intro c hc
  rw [String.toList_append, List.mem_append] at hc
  exact hc.elim (hl c) (hr c)

/-- An unbroken text is cut nowhere, and nothing is taken from its end. -/
theorem Unbroken.line {text : String} (h : Unbroken text) :
    '\n' ∉ text.toList ∧ text.toList.getLast? ≠ some '\r' :=
  ⟨fun hmem => (h _ hmem).1 rfl, fun hlast => (h _ (List.mem_of_getLast? hlast)).2 rfl⟩

/-- **Written lines are read back**: neither their number nor their content changes. -/
theorem textLines_join {lines : List String}
    (h : ∀ line ∈ lines, '\n' ∉ line.toList ∧ line.toList.getLast? ≠ some '\r') :
    textLines (String.join (lines.map (· ++ "\n"))) = lines := by
  induction lines with
  | nil => rfl
  | cons line lines ih =>
    obtain ⟨hlf, hcr⟩ := h line List.mem_cons_self
    have htext : (String.join ((line :: lines).map (· ++ "\n"))).toList =
        line.toList ++ '\n' :: (String.join (lines.map (· ++ "\n"))).toList := by
      simp [String.join_cons]
    have hrest := ih fun l hl => h l (List.mem_cons_of_mem line hl)
    rw [textLines] at hrest ⊢
    rw [htext, pieces_append_cons hlf, List.map_cons, hrest, lineOfPiece, String.toList_ofList,
      withoutEnding_append hcr, String.ofList_toList]

end WordCalc
