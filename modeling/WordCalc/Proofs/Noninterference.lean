import WordCalc.Proofs.Dictionary.Reach
import WordCalc.Proofs.Reachable

/-!
# Definitions that a line cannot reach

A line asks the dictionary for its own words, for the words of the bodies that it puts in front of
its queue, and, at a definition, for the words that it expands. All of these are reached from the
words of the line. So two sessions with the same stack, settings and count do the same on a line if
their dictionaries agree on what the words of the line reach, however much they differ elsewhere, in
their definitions and in the order of these (`unreachable_definitions_do_not_matter`).

A dispatch looks up one word (`dispatch_congr`), a run goes on with words that are reached
(`run_congr`), and the words behind a begin mark are among them (`conclude_congr`).
-/

namespace WordCalc

section Runs

variable {check : ZeroCheck} {settings : Settings} {d e : Dictionary} {hd : d.Acyclic}
  {he : e.Acyclic} {w : Word} {queue : List Word} {s : Stack} {n : Nat} {log : Array Event}

theorem classify_congr (h : d.body? w = e.body? w) : classify d w = classify e w := by
  simp only [classify, h]

/-- A dispatch looks up the word alone. -/
theorem dispatch_congr (h : d.body? w = e.body? w) :
    dispatch check d w queue s = dispatch check e w queue s := by
  simp only [dispatch, classify_congr h]

/-- **A run depends on the definitions that its words reach**, and on no others. -/
theorem run_congr (hq : ∀ w ∈ queue, d.AgreeFrom e w) :
    run settings d hd queue s n log = run settings e he queue s n log := by
  fun_induction run settings d hd queue s n log with
  | case1 s n log => rw [run_nil]
  | case2 s n log w rest limit hlim => rw [run_cons_of_limit hlim]
  | case3 s n log w rest hlim log' queue' s' hdis ih =>
    have hw := (hq w List.mem_cons_self).body?_eq
    rw [run_cons hlim, ← dispatch_congr hw, hdis]
    apply ih
    rcases queue_of_dispatch hdis with rfl | ⟨body, hb, rfl⟩
    · exact (List.forall_mem_cons.mp hq).2
    · exact (Dictionary.inherits_agreeFrom d e).call hb hq
  | case4 s n log w rest hlim log' words s' hdis | case5 s n log w rest hlim log' f hdis =>
    have hw := (hq w List.mem_cons_self).body?_eq
    rw [run_cons hlim, ← dispatch_congr hw, hdis]

end Runs

/-! ## Lines -/

/-- Outcomes `o` of the session `s` and `o'` of the session `t` that tell the same: result, stack,
count of words and journal are equal, and both dictionaries have stayed as they were or have
received the same definition. -/
structure Outcome.TellsTheSame (s t : Session) (o o' : Outcome) : Prop where
  result : o.result = o'.result
  stack : o.session.stack = o'.session.stack
  steps : o.session.steps = o'.session.steps
  events : o.events = o'.events
  dictionary :
    o.session.dictionary = s.dictionary ∧ o'.session.dictionary = t.dictionary ∨
      ∃ x, o.session.dictionary = s.dictionary.insert x ∧
        o'.session.dictionary = t.dictionary.insert x

namespace Session

variable {s t : Session} {line : String}

/-- Runs that end alike are concluded alike, if the dictionaries agree on what the words of a
definition reach. -/
theorem conclude_congr {r : Stopped}
    (hwords : ∀ words st, r.ending = .defining words st →
      ∀ w ∈ words, s.dictionary.AgreeFrom t.dictionary w) :
    Outcome.TellsTheSame s t (s.conclude r) (t.conclude r) := by
  obtain ⟨ending, n, log⟩ := r
  cases ending with
  | finished st | fault f => exact ⟨rfl, rfl, rfl, rfl, .inl ⟨rfl, rfl⟩⟩
  | defining words st =>
    have hagree := hwords words st rfl
    have hdefine := Dictionary.define_congr s.acyclic t.acyclic hagree
    cases hx : s.dictionary.define words with
    | error f =>
      rw [conclude_defining_of_error hx, conclude_defining_of_error (hdefine.symm.trans hx)]
      exact ⟨rfl, rfl, rfl, rfl, .inl ⟨rfl, rfl⟩⟩
    | ok x =>
      -- the journal tells whether the name was defined before, and the name is one of the words
      have hname : s.dictionary.contains x.name = t.dictionary.contains x.name := by
        obtain ⟨ws, rfl, -⟩ := Dictionary.define_eq_ok_iff.mp hx
        rw [Dictionary.contains, Dictionary.contains,
          (hagree x.name List.mem_cons_self).body?_eq]
      rw [conclude_defining_of_ok hx, conclude_defining_of_ok (hdefine.symm.trans hx)]
      refine ⟨rfl, rfl, rfl, ?_, .inr ⟨x, rfl, rfl⟩⟩
      simp only [hname]

/-- **Definitions that a line cannot reach do not influence it.** Let two sessions have the same
settings, stack and count of words, and let every word that the words of a line reach have the same
body in both dictionaries, or none in both. Then the line leads to the same result, stack, count
and journal in both sessions, and either leaves both dictionaries as they are or inserts the same
definition into both. -/
theorem unreachable_definitions_do_not_matter (hsettings : s.settings = t.settings)
    (hstack : s.stack = t.stack) (hsteps : s.steps = t.steps)
    (hagree : ∀ w ∈ tokenize line, ∀ v, s.dictionary.Reaches w v →
      s.dictionary.body? v = t.dictionary.body? v) :
    Outcome.TellsTheSame s t (s.evalLine line) (t.evalLine line) := by
  have hrun : t.stopped line = s.stopped line := by
    rw [stopped, stopped, ← hsettings, ← hstack, ← hsteps]
    exact (run_congr hagree).symm
  rw [evalLine, evalLine, hrun]
  apply conclude_congr
  intro words st hending
  exact forall_mem_of_run_defining (Dictionary.inherits_agreeFrom _ _) hagree hending

/-- A session that defines the words of `cubeSession` as well, and two more among them: one that
comes first, and an addition of its own. -/
def detourSession : Session :=
  (fresh {}).after [": X 9 ;", ": CUBE SQ * ;", ": + X ;", ": SQ DUP DUP * ;"]

/-- `cubeSession` has to count two more words before the line to be as far as `detourSession`. -/
theorem unreachable_definitions_do_not_matter_of_cube :
    (cubeSession.after ["1 DROP"]).dictionary.names = ["CUBE", "SQ"] ∧
      detourSession.dictionary.names = ["X", "CUBE", "+", "SQ"] ∧
      Outcome.TellsTheSame (cubeSession.after ["1 DROP"]) detourSession
        ((cubeSession.after ["1 DROP"]).evalLine "2 CUBE : C CUBE ;")
        (detourSession.evalLine "2 CUBE : C CUBE ;") ∧
      (detourSession.evalLine "2 CUBE : C CUBE ;").session.stack.toList = [8] := by
  have hs : (cubeSession.after ["1 DROP"]).dictionary =
      ⟨[⟨"CUBE", ["SQ", "*"]⟩, ⟨"SQ", ["DUP", "DUP", "*"]⟩]⟩ := by cbv
  have ht : detourSession.dictionary =
      ⟨[⟨"X", ["9"]⟩, ⟨"CUBE", ["SQ", "*"]⟩, ⟨"+", ["9"]⟩, ⟨"SQ", ["DUP", "DUP", "*"]⟩]⟩ := by cbv
  have hwords : tokenize "2 CUBE : C CUBE ;" = ["2", "CUBE", ":", "C", "CUBE", ";"] := by cbv
  have hagree : ∀ w ∈ tokenize "2 CUBE : C CUBE ;",
      (cubeSession.after ["1 DROP"]).dictionary.AgreeFrom detourSession.dictionary w := by
    intro w hw
    have hmem : w ∈ ["2", "CUBE", ":", "C", "CUBE", ";", "SQ", "*", "DUP"] := by
      rw [hwords] at hw
      exact List.mem_append_left ["SQ", "*", "DUP"] hw
    rw [hs, ht]
    exact Dictionary.agreeFrom_of_closed (by decide) (by decide) hmem
  have hsettings : (cubeSession.after ["1 DROP"]).settings = detourSession.settings := by
    rw [settings_after, settings_cubeSession, detourSession, settings_after]
    rfl
  have hsame := unreachable_definitions_do_not_matter hsettings (by cbv) (by cbv) hagree
  refine ⟨?_, ?_, hsame, ?_⟩
  · rw [hs]; rfl
  · rw [ht]; rfl
  · cbv

end Session

end WordCalc
