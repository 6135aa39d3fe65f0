import WordCalc.Dictionary.Basic
import WordCalc.Numeral
import WordCalc.Proofs.Text.Lines
import WordCalc.Text
import WordCalc.Text.Uppercase.Laws

/-!
# Reading words back

A word is *readable* when it is what the reader of a line could have returned: it is not empty,
has no blank in it and is its own upper case. Every word of a line is readable
(`readable_of_mem_tokenize`), and so is every numeral that is written (`readable_write`).

Writing readable words and reading them is the identity (`tokenize_unwords`), because a blank
separates what stands before it from what stands behind it (`tokenize_append_blank`).
-/

namespace WordCalc

/-- The word is not empty, no character of it is blank, and all are their own upper case. -/
structure Readable (w : Word) : Prop where
  ne_nil : w.toList ≠ []
  not_blank : ∀ c ∈ w.toList, isBlank c = false
  upper_eq : ∀ c ∈ w.toList, upper c = [c]

/-! ## Words of a line -/

/-- No part of a cut list contains a separator, and the parts consist of members of the list. -/
theorem of_mem_splitOnP {α : Type} {p : α → Bool} {cs f : List α} (h : f ∈ cs.splitOnP p) :
    ∀ c ∈ f, c ∈ cs ∧ p c = false := by
  induction cs generalizing f with
  | nil =>
    rw [List.splitOnP_nil, List.mem_singleton] at h
    simp [h]
  | cons x cs ih =>
    have later {g : List α} (hg : g ∈ cs.splitOnP p) : ∀ c ∈ g, c ∈ x :: cs ∧ p c = false :=
      fun c hc => ⟨List.mem_cons_of_mem x (ih hg c hc).1, (ih hg c hc).2⟩
    rw [List.splitOnP_cons_eq_if_modifyHead] at h
    split at h
    · rcases List.mem_cons.mp h with rfl | hf
      · exact nofun
      · exact later hf
    · rename_i hx
      obtain ⟨g, gs, hg⟩ := List.exists_cons_of_ne_nil (List.splitOnP_ne_nil p cs)
      rw [hg, List.modifyHead_cons] at h
      rw [hg] at later
      rcases List.mem_cons.mp h with rfl | hf
      · intro c hc
        rcases List.mem_cons.mp hc with rfl | hc
        · exact ⟨List.mem_cons_self, Bool.eq_false_iff.mpr hx⟩
        · exact later List.mem_cons_self c hc
      · exact later (List.mem_cons_of_mem g hf)

/-- **Every word of a line is readable.** -/
theorem readable_of_mem_tokenize {line : String} {w : Word} (h : w ∈ tokenize line) :
    Readable w := by
  obtain ⟨f, hf, rfl⟩ := List.mem_map.mp h
  have hof := of_mem_splitOnP (List.mem_filter.mp hf).1
  refine ⟨?_, ?_, ?_⟩ <;> rw [String.toList_ofList]
  · exact ne_nil_of_mem_fields hf
  · exact fun c hc => (hof c hc).2
  · intro c hc
    obtain ⟨_, -, hu⟩ := List.mem_flatMap.mp (hof c hc).1
    exact upper_of_mem_upper hu

/-- One character before the small letters, if it is not blank, is a readable word. -/
theorem readable_of_singleton {w : Word} {c : Char} (hw : w.toList = [c])
    (hb : isBlank c = false) (hc : c.toNat < 0x61) : Readable w := by
  refine ⟨?_, ?_, ?_⟩ <;> rw [hw]
  · exact List.cons_ne_nil c []
  · exact List.forall_mem_singleton.mpr hb
  · exact List.forall_mem_singleton.mpr (upper_of_lt hc)

/-! ## Cutting at a blank -/

/-- A blank separates the fields before it from those behind it. -/
theorem fields_append_cons {b : Char} (hb : isBlank b = true) (xs ys : List Char) :
    fields (xs ++ b :: ys) = fields xs ++ fields ys := by
  rw [fields, List.splitOnP_append_cons xs ys hb, List.filter_append]
  rfl

theorem fields_of_not_blank {cs : List Char} (hne : cs ≠ []) (h : ∀ c ∈ cs, isBlank c = false) :
    fields cs = [cs] := by
  rw [fields, List.splitOnP_eq_singleton h]
  simp [hne]

/-- A blank separates the words before it from those behind it. -/
theorem tokenize_append_blank {b : Char} (hb : isBlank b = true) {line before after : String}
    (h : line.toList = before.toList ++ b :: after.toList) :
    tokenize line = tokenize before ++ tokenize after := by
  rw [tokenize, h, upcase_append, upcase_cons, upper_of_isBlank hb, List.singleton_append,
    fields_append_cons hb, List.map_append]
  rfl

/-- A readable word is read as itself. -/
theorem Readable.tokenize_eq {w : Word} (h : Readable w) : tokenize w = [w] := by
  rw [tokenize, upcase_of_forall h.upper_eq, fields_of_not_blank h.ne_nil h.not_blank,
    List.map_singleton, String.ofList_toList]

@[simp]
theorem unwords_nil : unwords [] = "" := rfl

@[simp]
theorem unwords_singleton (w : Word) : unwords [w] = w :=
  String.intercalate_singleton (s := " ")

/-- A space separates the first word from the others. -/
theorem toList_unwords_cons_cons (v w : Word) (ws : List Word) :
    (unwords (v :: w :: ws)).toList = v.toList ++ ' ' :: (unwords (w :: ws)).toList := by
  have hcut : unwords (v :: w :: ws) = v ++ " " ++ unwords (w :: ws) :=
    String.intercalate_cons_cons
  simp [hcut]

/-- **Writing readable words and reading them is the identity.** -/
theorem tokenize_unwords {ws : List Word} (h : ∀ w ∈ ws, Readable w) :
    tokenize (unwords ws) = ws := by
  induction ws with
  | nil => rfl
  | cons v ws ih =>
    have hv := (h v List.mem_cons_self).tokenize_eq
    have hws := ih fun w hw => h w (List.mem_cons_of_mem v hw)
    cases ws with
    | nil => rw [unwords_singleton, hv]
    | cons w ws =>
      rw [tokenize_append_blank rfl (toList_unwords_cons_cons v w ws), hv, hws,
        List.singleton_append]

/-! ## Words and lines -/

theorem readable_iff {w : Word} :
    Readable w ↔ w ≠ "" ∧ (∀ c ∈ w.toList, isBlank c = false) ∧ upcase w.toList = w.toList := by
  have hne : w ≠ "" ↔ w.toList ≠ [] := not_congr String.toList_eq_nil_iff.symm
  rw [hne, upcase_eq_self_iff]
  exact ⟨fun h => ⟨h.ne_nil, h.not_blank, h.upper_eq⟩, fun ⟨hne, hb, hu⟩ => ⟨hne, hb, hu⟩⟩

/-- **Reading a line and writing words are inverse** on words that are not empty, have no blank in
them and are their own upper case. Every line is read as such words, which are read again when they
are written with one space between them; any such words are read as themselves. And any blank
separates what stands before it from what stands behind it. -/
theorem reading_inverts_writing :
    (∀ line, ∀ w ∈ tokenize line,
        w ≠ "" ∧ (∀ c ∈ w.toList, isBlank c = false) ∧ upcase w.toList = w.toList) ∧
      (∀ line, tokenize (unwords (tokenize line)) = tokenize line) ∧
      (∀ words : List Word,
        (∀ w ∈ words, w ≠ "" ∧ (∀ c ∈ w.toList, isBlank c = false) ∧ upcase w.toList = w.toList) →
          tokenize (unwords words) = words) ∧
      ∀ (before after : String) (c : Char), isBlank c = true →
        tokenize (before ++ String.singleton c ++ after) = tokenize before ++ tokenize after := by
  refine ⟨fun line w hw => readable_iff.mp (readable_of_mem_tokenize hw),
    fun line => tokenize_unwords fun w hw => readable_of_mem_tokenize hw,
    fun words h => tokenize_unwords fun w hw => readable_iff.mpr (h w hw),
    fun before after c hc => tokenize_append_blank hc ?_⟩
  simp

/-- A character becomes two, and blanks of several kinds stand at both ends and inside. -/
theorem reading_inverts_writing_of_two_capitals :
    tokenize ("\u3000 straße\t" ++ String.singleton '\u00a0' ++ "dup\n") = ["STRASSE", "DUP"] ∧
      tokenize (unwords ["STRASSE", "DUP"]) = ["STRASSE", "DUP"] := by
  obtain ⟨hwords, -, hread, hblank⟩ := reading_inverts_writing
  have hline : tokenize ("\u3000 straße\t" ++ String.singleton '\u00a0' ++ "dup\n") =
      ["STRASSE", "DUP"] := by
    rw [hblank _ _ _ (by decide)]
    decide +kernel
  refine ⟨hline, hread _ ?_⟩
  rw [← hline]
  exact hwords _

/-- A character of written words is the space or belongs to one of them. -/
theorem mem_toList_unwords {ws : List Word} {c : Char} (h : c ∈ (unwords ws).toList) :
    c = ' ' ∨ ∃ w ∈ ws, c ∈ w.toList := by
  induction ws with
  | nil => simp at h
  | cons v ws ih =>
    cases ws with
    | nil =>
      rw [unwords_singleton] at h
      exact .inr ⟨v, List.mem_cons_self, h⟩
    | cons w ws =>
      rw [toList_unwords_cons_cons, List.mem_append, List.mem_cons] at h
      rcases h with h | rfl | h
      · exact .inr ⟨v, List.mem_cons_self, h⟩
      · exact .inl rfl
      · rcases ih h with rfl | ⟨u, hu, hc⟩
        · exact .inl rfl
        · exact .inr ⟨u, List.mem_cons_of_mem v hu, hc⟩

theorem Readable.unbroken {w : Word} (h : Readable w) : Unbroken w := by
  refine fun c hc => ⟨?_, ?_⟩ <;> rintro rfl <;> exact absurd (h.not_blank _ hc) (by decide)

theorem unbroken_unwords {ws : List Word} (h : ∀ w ∈ ws, Readable w) : Unbroken (unwords ws) := by
  intro c hc
  rcases mem_toList_unwords hc with rfl | ⟨w, hw, hc⟩
  · decide
  · exact (h w hw).unbroken c hc

/-! ## Numerals -/

theorem toNat_bounds_of_isDigit {c : Char} (h : c.isDigit = true) :
    48 ≤ c.toNat ∧ c.toNat ≤ 57 := by
  simpa [Char.isDigit, UInt32.le_iff_toNat_le] using h

theorem toList_write (n : Int) :
    (Numeral.write n).toList = (if n < 0 then ['-'] else []) ++ Nat.toDigits 10 n.natAbs := by
  unfold Numeral.write Numeral.writeNat
  split
  · simp
  · rw [String.toList_ofList, List.nil_append]

/-- The characters of a written numeral are the minus sign and the digits. -/
theorem bounds_of_mem_write {n : Int} {c : Char} (h : c ∈ (Numeral.write n).toList) :
    c.toNat = 45 ∨ 48 ≤ c.toNat ∧ c.toNat ≤ 57 := by
  rw [toList_write, List.mem_append] at h
  rcases h with h | h
  · split at h
    · exact .inl (List.mem_singleton.mp h ▸ rfl)
    · cases h
  · exact .inr (toNat_bounds_of_isDigit (Numeral.isDigit_of_mem_toDigits h))

/-- **A written numeral is readable.** -/
theorem readable_write (n : Int) : Readable (Numeral.write n) := by
  refine ⟨?_, fun c hc => ?_, fun c hc => ?_⟩
  · rw [toList_write]
    exact List.append_ne_nil_of_right_ne_nil _ Nat.toDigits_ne_nil
  · have hb := bounds_of_mem_write hc
    simp [isBlank, inRanges, blankRanges]
    omega
  · have hb := bounds_of_mem_write hc
    exact upper_of_lt (by omega)

end WordCalc
