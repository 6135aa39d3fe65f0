import Mathlib.Tactic.SplitIfs
import WordCalc.Command.Report

/-!
# Reading encoded text

The bytes of a text can be cut into lines before or after they are decoded. The line feed is
encoded as the one byte 10, which the encoding of no other character contains, so the cuts of the
bytes are the encoded cuts of the text (`pieces_flatMap`). Both ways of reading a program return
the lines of the text that its bytes encode (`linesOfFile_toUTF8`, `linesOfStream_toUTF8`).
-/

namespace WordCalc

/-! ## Cutting an encoded list -/

section Encoded

variable {α β : Type}

/-- What has no separator in it stays in front of the first part. -/
theorem splitOnP_append_of_forall {p : α → Bool} {xs : List α} (h : ∀ x ∈ xs, p x = false)
    (ys : List α) : (xs ++ ys).splitOnP p = (ys.splitOnP p).modifyHead (xs ++ ·) := by
  induction xs with
  | nil => exact (congrFun List.modifyHead_id _).symm
  | cons x xs ih =>
    have hx : ¬ p x = true := Bool.eq_false_iff.mp (h x List.mem_cons_self)
    rw [List.cons_append, List.splitOnP_cons_eq_if_modifyHead, if_neg hx,
      ih fun y hy => h y (List.mem_cons_of_mem x hy), List.modifyHead_modifyHead]
    rfl

variable [BEq α] [LawfulBEq α] [BEq β] [LawfulBEq β] {enc : α → List β} {lf : α} {lf' : β}

/-- Cutting the encoded list gives the encoded parts, if the separator is encoded by a separator
and the encoding of no other member contains one. -/
theorem splitOnP_flatMap (hlf : enc lf = [lf']) (hother : ∀ c, c ≠ lf → lf' ∉ enc c)
    (cs : List α) :
    (cs.flatMap enc).splitOnP (· == lf') = (cs.splitOnP (· == lf)).map (·.flatMap enc) := by
  induction cs with
  | nil => rfl
  | cons c cs ih =>
    rw [List.flatMap_cons, List.splitOnP_cons_eq_if_modifyHead]
    by_cases hc : c = lf
    · subst hc
      rw [hlf, List.singleton_append, List.splitOnP_cons_eq_if_modifyHead, ih]
      simp
    · have hfree : ∀ b ∈ enc c, (b == lf') = false := fun b hb =>
        beq_eq_false_iff_ne.mpr fun e => hother c hc (e ▸ hb)
      rw [splitOnP_append_of_forall hfree, ih, if_neg (by simpa using hc)]
      obtain ⟨g, gs, hg⟩ := List.exists_cons_of_ne_nil (List.splitOnP_ne_nil (· == lf) cs)
      rw [hg]
      rfl

/-- The pieces of the encoded list are the encoded pieces. -/
theorem pieces_flatMap (hlf : enc lf = [lf']) (hother : ∀ c, c ≠ lf → lf' ∉ enc c)
    (hne : ∀ c, enc c ≠ []) (cs : List α) :
    pieces lf' (cs.flatMap enc) = (pieces lf cs).map (·.flatMap enc) := by
  have hempty (xs : List α) : (xs.flatMap enc).isEmpty = xs.isEmpty := by
    cases xs <;> simp [hne]
  rw [pieces, pieces, splitOnP_flatMap hlf hother]
  cases h : (cs.splitOnP (· == lf)).getLast? <;>
    simp [h, hlf, List.filter_cons, apply_ite, hempty, Function.comp_def]

end Encoded

/-! ## UTF-8 -/

theorem toList_loop_eq (bs : ByteArray) (i : Nat) (r : List UInt8) :
    ByteArray.toList.loop bs i r = r.reverse ++ bs.data.toList.drop i := by
  fun_induction ByteArray.toList.loop bs i r with
  | case1 i r h ih =>
    have hi : i < bs.data.toList.length := h
    have hget : bs.get! i = bs.data.toList[i] := getElem!_pos bs.data i hi
    rw [ih, List.reverse_cons, List.append_assoc, List.singleton_append, hget,
      List.drop_eq_getElem_cons hi]
  | case2 i r h =>
    have hi : bs.data.toList.length ≤ i := Nat.le_of_not_lt h
    rw [List.drop_eq_nil_of_le hi, List.append_nil]

theorem toList_eq_data_toList (bs : ByteArray) : bs.toList = bs.data.toList := by
  rw [ByteArray.toList, toList_loop_eq, List.reverse_nil, List.nil_append, List.drop_zero]

/-- The bytes of a text are the encodings of its characters. -/
theorem toList_toUTF8 (text : String) :
    text.toUTF8.toList = text.toList.flatMap String.utf8EncodeChar := by
  rw [toList_eq_data_toList, String.toUTF8_eq_toByteArray, ← String.utf8Encode_toList,
    List.utf8Encode, List.toList_data_toByteArray]

theorem utf8EncodeChar_lineFeed : String.utf8EncodeChar '\n' = [10] := rfl

/-- The line feed byte is part of no other character. -/
theorem lineFeed_not_mem {c : Char} (h : c ≠ '\n') : 10 ∉ String.utf8EncodeChar c := by
  have hval : c.val.toNat ≠ 10 := fun e => h (Char.ext (UInt32.toNat_inj.mp e))
  have hbyte {n : Nat} (hn : n < 256) (h10 : n ≠ 10) : 10 ≠ UInt8.ofNat n := by
    intro e
    have hmod := congrArg UInt8.toNat e
    rw [UInt8.toNat_ofNat_of_lt' hn] at hmod
    exact h10 hmod.symm
  -- one byte is the character's own code, and the bytes of a longer encoding are 128 or more
  unfold String.utf8EncodeChar
  dsimp only
  split_ifs <;> simp only [List.mem_cons, List.not_mem_nil, or_false, not_or]
  · exact hbyte (by omega) hval
  · exact ⟨hbyte (by omega) (by omega), hbyte (by omega) (by omega)⟩
  · exact ⟨hbyte (by omega) (by omega), hbyte (by omega) (by omega), hbyte (by omega) (by omega)⟩
  · exact ⟨hbyte (by omega) (by omega), hbyte (by omega) (by omega), hbyte (by omega) (by omega),
      hbyte (by omega) (by omega)⟩

/-- The bytes of a text decode to the text. -/
theorem decode_toUTF8 (text : String) : decode text.toUTF8 = .ok text := by
  have hvalid : text.toUTF8.IsValidUTF8 := text.isValidUTF8
  rw [decode, String.fromUTF8?, dif_pos hvalid]
  rfl

/-- The encodings of characters one after another are the bytes of their text. -/
theorem encode_eq_toUTF8 (cs : List Char) :
    (⟨(cs.flatMap String.utf8EncodeChar).toArray⟩ : ByteArray) = (String.ofList cs).toUTF8 := by
  rw [String.toUTF8_eq_toByteArray, ← String.utf8Encode_toList, String.toList_ofList]
  exact ByteArray.ext List.data_toByteArray.symm

/-! ## Both ways of reading a program -/

/-- **A file** that holds the bytes of a text has the lines of the text. -/
theorem linesOfFile_toUTF8 (text : String) : linesOfFile text.toUTF8 = .ok (textLines text) := by
  rw [linesOfFile, decode_toUTF8]
  rfl

/-- **A stream** that holds the bytes of a text has the lines of the text: it is cut where the
text is cut, and every piece is the bytes of a piece of the text. -/
theorem linesOfStream_toUTF8 (text : String) :
    linesOfStream text.toUTF8 = .ok (textLines text) := by
  have hcut := pieces_flatMap utf8EncodeChar_lineFeed (fun _ => lineFeed_not_mem)
    (fun c => String.utf8EncodeChar_ne_nil) text.toList
  have hpiece (piece : List Char) :
      ((decode ⟨(piece.flatMap String.utf8EncodeChar).toArray⟩).map lineOfPiece) =
        .ok (lineOfPiece (String.ofList piece)) := by
    rw [encode_eq_toUTF8, decode_toUTF8]
    rfl
  rw [linesOfStream, toList_toUTF8, hcut, List.mapM_map]
  simp only [Function.comp_def, hpiece]
  exact List.mapM_pure

end WordCalc
