import Mathlib
import WordCalc.Proofs.Reloadable
import WordCalc.Proofs.Trail

/-!
# The dictionary in the journal

A record in the journal tells a name and, as one text, the words of its body. That is enough to keep
the dictionary from the journal alone: whoever starts with the empty dictionary and inserts what
each record tells has the dictionary of the session after every call (`journal_tells_dictionary`).
No record is missing and none is too many, because a line that fails records nothing and a line that
succeeds records what it inserts; and the text of a body is cut into its words again, because all
words of a reachable dictionary are readable.

A record also tells whether its name was defined before. Names are never removed, so it was exactly
if an earlier record carries it (`contains_replay_iff`).
-/

namespace WordCalc

/-! ## The words of a text -/

/-- The stretches of a text without a blank, as they are written. -/
def cutAtBlanks (text : String) : List Word :=
  (fields text.toList).map String.ofList

/-- Readable words that are written with spaces between them are found again. -/
theorem cutAtBlanks_unwords {ws : List Word} (h : ∀ w ∈ ws, Readable w) :
    cutAtBlanks (unwords ws) = ws := by
  have hupper : ∀ c ∈ (unwords ws).toList, upper c = [c] := by
    intro c hc
    rcases mem_toList_unwords hc with rfl | ⟨w, hw, hc⟩
    · exact upper_of_isBlank rfl
    · exact (h w hw).upper_eq c hc
  calc cutAtBlanks (unwords ws) = tokenize (unwords ws) := by
        rw [tokenize, upcase_of_forall hupper, cutAtBlanks]
    _ = ws := tokenize_unwords h

/-! ## Following a journal -/

namespace Dictionary

/-- What an event tells of the dictionary: a record inserts its name and the words of its text. -/
def follow (d : Dictionary) : Event → Dictionary
  | .recorded name body _ => d.insert ⟨name, cutAtBlanks body⟩
  | _ => d

/-- The dictionary that is kept from the journal alone. -/
def replay (events : List Event) : Dictionary := events.foldl follow .empty

/-- Every record among the events tells whether its name is defined in the dictionary `d` that has
followed the events before it. -/
def Truthful (d : Dictionary) : List Event → Prop
  | [] => True
  | e :: es =>
    (∀ name body redefined, e = .recorded name body redefined → redefined = d.contains name) ∧
      (d.follow e).Truthful es

variable {d : Dictionary} {name : Word}

theorem truthful_append {es es' : List Event} :
    d.Truthful (es ++ es') ↔ d.Truthful es ∧ (es.foldl follow d).Truthful es' := by
  induction es generalizing d with
  | nil => simp [Truthful]
  | cons e es ih => simp only [List.cons_append, Truthful, List.foldl_cons, ih, and_assoc]

/-- Dispatches tell nothing of the dictionary. -/
theorem foldl_follow_trail (d : Dictionary) (t : Trail) : t.events.foldl follow d = d := by
  induction t with
  | nil => rfl
  | cons p t ih => exact ih

theorem truthful_trail (d : Dictionary) (t : Trail) : d.Truthful t.events := by
  induction t with
  | nil => trivial
  | cons p t ih => exact ⟨nofun, ih⟩

theorem contains_insert (d : Dictionary) (x : Definition) (w : Word) :
    (d.insert x).contains w = true ↔ w = x.name ∨ d.contains w = true := by
  rw [contains, contains, body?_insert]
  split <;> simp_all

theorem contains_follow_iff {e : Event} :
    (d.follow e).contains name = true ↔
      (∃ body redefined, e = .recorded name body redefined) ∨ d.contains name = true := by
  cases e with
  | recorded n body redefined =>
    rw [follow, contains_insert]
    refine or_congr_left ⟨?_, ?_⟩
    · rintro rfl
      exact ⟨body, redefined, rfl⟩
    · rintro ⟨_, _, he⟩
      cases he
      rfl
  | dispatched | aborted | finished => simp [follow]

theorem contains_foldl_follow_iff {es : List Event} :
    (es.foldl follow d).contains name = true ↔
      (∃ body redefined, .recorded name body redefined ∈ es) ∨ d.contains name = true := by
  induction es generalizing d with
  | nil => simp
  | cons e es ih =>
    rw [List.foldl_cons, ih, contains_follow_iff, ← or_assoc]
    refine or_congr_left ⟨?_, ?_⟩
    · rintro (⟨body, redefined, hmem⟩ | ⟨body, redefined, rfl⟩)
      · exact ⟨body, redefined, List.mem_cons_of_mem e hmem⟩
      · exact ⟨body, redefined, List.mem_cons_self⟩
    · rintro ⟨body, redefined, hmem⟩
      rcases List.mem_cons.mp hmem with rfl | hmem
      · exact .inr ⟨body, redefined, rfl⟩
      · exact .inl ⟨body, redefined, hmem⟩

/-- **A name is defined exactly if a record carries it.** -/
theorem contains_replay_iff {es : List Event} :
    (replay es).contains name = true ↔ ∃ body redefined, .recorded name body redefined ∈ es := by
  rw [replay, contains_foldl_follow_iff, or_iff_left]
  exact Bool.false_ne_true

end Dictionary

/-! ## The journal of a line -/

namespace Session

variable {s : Session} {line : String}

/-- The event that closes the journal of a line tells what the line does to the dictionary. -/
theorem Closes.follow {r : Except Fault Unit} {d : Dictionary} {closing : List Event}
    (h : s.Closes line r d closing) (hd : d.AllWords Readable) :
    closing.foldl Dictionary.follow s.dictionary = d ∧ s.dictionary.Truthful closing := by
  cases h with
  | done hw | aborted f hw => simp [Dictionary.follow, Dictionary.Truthful]
  | recorded x hw =>
    have hbody : ∀ w ∈ x.body, Readable w :=
      hd.of_body? (w := x.name) (by rw [Dictionary.body?_insert, if_pos rfl])
    rw [List.foldl_cons, List.foldl_nil, Dictionary.follow, cutAtBlanks_unwords hbody]
    simp [Dictionary.Truthful]

/-- **The journal of a line tells what the line does to the dictionary.** -/
theorem Reachable.follow_evalLine (hs : s.Reachable) (line : String) :
    (s.evalLine line).events.toList.foldl Dictionary.follow s.dictionary =
        (s.evalLine line).session.dictionary ∧
      s.dictionary.Truthful (s.evalLine line).events.toList := by
  obtain ⟨t, closing, -, hclose, hevents⟩ := exists_trail_closing hs.wellFormed line
  obtain ⟨hfollow, htruthful⟩ := hclose.follow (hs.line line).reloadable.readable
  rw [hevents, List.foldl_append, Dictionary.truthful_append, Dictionary.foldl_follow_trail]
  exact ⟨hfollow, Dictionary.truthful_trail _ t, htruthful⟩

end Session

/-! ## The journal of a history -/

/-- The journal has told the dictionary, and each record has been truthful. -/
theorem History.replay_journal (settings : Settings) (calls : List Call) :
    Dictionary.replay ((fresh settings).after calls).journal.toList =
        ((fresh settings).after calls).session.dictionary ∧
      Dictionary.empty.Truthful ((fresh settings).after calls).journal.toList := by
  refine after_induction (motive := fun h =>
    Dictionary.replay h.journal.toList = h.session.dictionary ∧
      Dictionary.empty.Truthful h.journal.toList) settings ⟨rfl, trivial⟩ ?_ ?_ calls
  · rintro h hs ⟨hreplay, htruthful⟩ line
    obtain ⟨hfollow, hline⟩ := hs.follow_evalLine line
    rw [extend, Array.toList_append, Dictionary.truthful_append]
    unfold Dictionary.replay at hreplay ⊢
    rw [List.foldl_append, hreplay]
    exact ⟨hfollow, htruthful, hline⟩
  · rintro h ⟨hreplay, htruthful⟩
    rw [finish, Array.toList_push, Dictionary.truthful_append]
    refine ⟨?_, htruthful, ?_, trivial⟩
    · rwa [Dictionary.replay, List.foldl_append]
    · intro name body redefined he
      cases he

/-- **The journal tells the dictionary.** Whatever calls a session has answered, with faults and
redefinitions on the way: inserting the records of the journal, one after another, into the empty
dictionary, each with its text cut at blanks, gives the dictionary of the session, the names in the
same order. And a record says that its name was defined before exactly if an earlier record of the
journal carries the name. -/
theorem History.journal_tells_dictionary (settings : Settings) (calls : List Call) :
    let h := (fresh settings).after calls
    Dictionary.replay h.journal.toList = h.session.dictionary ∧
      ∀ (before later : List Event) (name : Word) (body : String) (redefined : Bool),
        h.journal.toList = before ++ .recorded name body redefined :: later →
        (redefined = true ↔ ∃ body' redefined', .recorded name body' redefined' ∈ before) := by
  intro h
  obtain ⟨hreplay, htruthful⟩ := replay_journal settings calls
  refine ⟨hreplay, fun before later name body redefined hsplit => ?_⟩
  have hjournal : Dictionary.empty.Truthful (before ++ .recorded name body redefined :: later) :=
    hsplit ▸ htruthful
  rw [Dictionary.truthful_append] at hjournal
  rw [hjournal.2.1 name body redefined rfl]
  exact Dictionary.contains_replay_iff

/-- A history with a fault, a definition without words and a redefinition that uses both. -/
theorem History.journal_tells_dictionary_of_redefinition :
    let h := (fresh {}).after [.line ": a 1 ;", .lines [": e ;", "+"], .line ": a e a ;"]
    ∃ before, h.journal.toList = before ++ [.recorded "A" "1" true] ∧
      (∃ body redefined, .recorded "A" body redefined ∈ before) ∧
      h.session.dictionary = ⟨[⟨"A", ["1"]⟩, ⟨"E", []⟩]⟩ := by
  intro h
  have hjournal : h.journal.toList =
      [.dispatched ":" 0, .recorded "A" "1" false, .dispatched ":" 0, .recorded "E" "" false,
        .dispatched "+" 0, .aborted .stackUnderflow, .dispatched ":" 0] ++
      [.recorded "A" "1" true] := by cbv
  obtain ⟨hreplay, hflags⟩ := journal_tells_dictionary {}
    [.line ": a 1 ;", .lines [": e ;", "+"], .line ": a e a ;"]
  refine ⟨_, hjournal, (hflags _ [] "A" "1" true hjournal).mp rfl, ?_⟩
  rw [← hreplay, hjournal]
  cbv

end WordCalc
