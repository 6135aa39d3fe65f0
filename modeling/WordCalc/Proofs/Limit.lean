import Mathlib
import WordCalc.Proofs.Journal

/-!
# The limit

A limit on the number of words cuts an evaluation and does nothing else. As long as no more words
are counted than the limit allows, a session under the limit and the same session without one do the
same (`evalLine_withLimit`). The line that would count more is given up at the first word beyond
(`evalLine_of_lt_steps`), before it can record a definition, since a definition is the last thing a
line does. From then on the count lies beyond the limit, so every word is refused
(`evalLine_beyond`).
-/

namespace WordCalc

/-- The settings with `limit` as the greatest number of words. -/
def Settings.withLimit (settings : Settings) (limit : Nat) : Settings :=
  { settings with maxSteps := some limit }

/-! ## Runs under a limit -/

section Runs

variable {settings : Settings} {d : Dictionary} {queue : List Word} {s : Stack} {n limit : Nat}
  {log : Array Event}

theorem le_steps_run (settings : Settings) (hnum : d.NoNumerals) (hd : d.Acyclic)
    (queue : List Word) (s : Stack) (n : Nat) (log : Array Event) :
    n ≤ (run settings d hd queue s n log).steps :=
  (runs_run settings hnum hd queue s n log).le_steps

/-- A run that counts no more words than the limit allows does not notice the limit. -/
theorem run_withLimit_of_le (hm : settings.maxSteps = none) (hnum : d.NoNumerals) (hd : d.Acyclic)
    (h : (run settings d hd queue s n log).steps ≤ limit) :
    run (settings.withLimit limit) d hd queue s n log = run settings d hd queue s n log := by
  fun_induction run settings d hd queue s n log with
  | case1 s n log => rw [run_nil]
  | case2 s n log w rest limit' hlim =>
    rw [Settings.exceededLimit?_of_maxSteps_none hm] at hlim
    cases hlim
  | case3 s n log w rest hlim log' queue' s' hdis ih =>
    have hn : n + 1 ≤ limit := Nat.le_trans (le_steps_run settings hnum hd queue' s' (n + 1) log') h
    rw [run_cons (Settings.exceededLimit?_of_le rfl hn), Settings.withLimit, hdis]
    exact ih h
  | case4 s n log w rest hlim log' words s' hdis =>
    rw [run_cons (Settings.exceededLimit?_of_le rfl h), Settings.withLimit, hdis]
  | case5 s n log w rest hlim log' f hdis =>
    rw [run_cons (Settings.exceededLimit?_of_le rfl h), Settings.withLimit, hdis]

/-- A run that counts more words than the limit allows is given up at the first word beyond it. -/
theorem run_withLimit_of_lt (hm : settings.maxSteps = none) (hd : d.Acyclic) (hn : n ≤ limit)
    (h : limit < (run settings d hd queue s n log).steps) :
    ∃ log', run (settings.withLimit limit) d hd queue s n log =
      ⟨.fault (.stepLimit limit), limit + 1, log'⟩ := by
  fun_induction run settings d hd queue s n log with
  | case1 s n log => exact absurd hn (Nat.not_le.mpr h)
  | case2 s n log w rest limit' hlim =>
    rw [Settings.exceededLimit?_of_maxSteps_none hm] at hlim
    cases hlim
  | case3 s n log w rest hlim log' queue' s' hdis ih =>
    rcases Nat.lt_or_eq_of_le hn with hn | rfl
    · rw [run_cons (Settings.exceededLimit?_of_le rfl hn), Settings.withLimit, hdis]
      exact ih hn h
    · exact ⟨log, run_cons_of_limit (Settings.exceededLimit?_of_lt rfl (Nat.lt_succ_self n))⟩
  | case4 s n log w rest hlim log' words s' hdis | case5 s n log w rest hlim log' f hdis =>
    -- the word is the last of the run, so it is the one beyond the limit
    obtain rfl : n = limit := Nat.le_antisymm hn (Nat.le_of_lt_succ h)
    exact ⟨log, run_cons_of_limit (Settings.exceededLimit?_of_lt rfl (Nat.lt_succ_self n))⟩

end Runs

/-! ## Lines under a limit -/

namespace Session

/-- The session under a limit. -/
def withLimit (s : Session) (limit : Nat) : Session :=
  { s with settings := s.settings.withLimit limit }

variable {s : Session} {limit : Nat} {line : String}

theorem steps_le_evalLine (hwf : s.dictionary.WellFormed) (line : String) :
    s.steps ≤ (s.evalLine line).session.steps := by
  rw [steps_evalLine]
  exact le_steps_run s.settings hwf.noNumerals s.acyclic (tokenize line) s.stack s.steps #[]

theorem Reachable.steps_le_after (hs : s.Reachable) (lines : List String) :
    s.steps ≤ (s.after lines).steps := by
  induction lines generalizing s with
  | nil => exact Nat.le_refl s.steps
  | cons line lines ih =>
    exact Nat.le_trans (steps_le_evalLine hs.wellFormed line) (ih (hs.line line))

/-- As long as a line counts no more words than the limit allows, the limit changes nothing. -/
theorem evalLine_withLimit (hwf : s.dictionary.WellFormed) (hm : s.settings.maxSteps = none)
    (h : (s.evalLine line).session.steps ≤ limit) :
    (s.withLimit limit).evalLine line =
      ⟨(s.evalLine line).result, (s.evalLine line).session.withLimit limit,
        (s.evalLine line).events⟩ := by
  rw [steps_evalLine] at h
  have hstopped : (s.withSettings (s.settings.withLimit limit)).stopped line = s.stopped line :=
    run_withLimit_of_le hm hwf.noNumerals s.acyclic h
  simp only [withLimit, settings_evalLine]
  exact evalLine_withSettings hstopped

/-- A line that would count more words than the limit allows is given up. -/
theorem evalLine_of_lt_steps (hm : s.settings.maxSteps = none) (hs : s.steps ≤ limit)
    (h : limit < (s.evalLine line).session.steps) :
    ∃ log, (s.withLimit limit).evalLine line =
      ⟨.error (.stepLimit limit), ⟨s.settings.withLimit limit, .empty, s.dictionary, limit + 1,
        s.acyclic⟩, log⟩ := by
  rw [steps_evalLine] at h
  obtain ⟨log, hrun⟩ := run_withLimit_of_lt hm s.acyclic hs h
  rw [evalLine, stopped]
  simp only [withLimit, hrun]
  exact ⟨_, rfl⟩

/-- Beyond the limit every word is refused, and nothing but the count changes. -/
theorem evalLine_beyond (hm : s.settings.maxSteps = some limit) (hs : limit < s.steps)
    (line : String) :
    (tokenize line ≠ [] → (s.evalLine line).result = .error (.stepLimit limit) ∧
      (s.evalLine line).session.stack = .empty) ∧
      (tokenize line = [] → (s.evalLine line).result = .ok () ∧
        (s.evalLine line).session.stack = s.stack) ∧
      (s.evalLine line).session.dictionary = s.dictionary ∧
      limit < (s.evalLine line).session.steps := by
  rw [evalLine, stopped]
  cases tokenize line with
  | nil =>
    rw [run_nil]
    exact ⟨fun h => absurd rfl h, fun _ => ⟨rfl, rfl⟩, rfl, hs⟩
  | cons w rest =>
    rw [run_cons_of_limit (Settings.exceededLimit?_of_lt hm (Nat.lt_succ_of_lt hs))]
    exact ⟨fun _ => ⟨rfl, rfl⟩, fun h => absurd h (List.cons_ne_nil w rest), rfl,
      Nat.lt_succ_of_lt hs⟩

/-- The session stays beyond the limit, with an empty stack and the dictionary it has. -/
theorem after_beyond (hm : s.settings.maxSteps = some limit) (hs : limit < s.steps)
    (hstack : s.stack = .empty) (lines : List String) :
    (s.after lines).stack = .empty ∧ (s.after lines).dictionary = s.dictionary ∧
      limit < (s.after lines).steps := by
  induction lines generalizing s with
  | nil => exact ⟨hstack, rfl, hs⟩
  | cons line lines ih =>
    obtain ⟨hwords, hblank, hdict, hlt⟩ := evalLine_beyond hm hs line
    have hempty : (s.evalLine line).session.stack = .empty := by
      by_cases hw : tokenize line = []
      · exact (hblank hw).2.trans hstack
      · exact (hwords hw).2
    rw [after_cons, ← hdict]
    exact ih ((settings_evalLine s line).symm ▸ hm) hlt hempty

/-! ## Sessions under a limit -/

/-- Lines that count no more words than the limit allows lead to the same session. -/
theorem after_withLimit (hs : s.Reachable) (hm : s.settings.maxSteps = none)
    {lines : List String} (h : (s.after lines).steps ≤ limit) :
    (s.withLimit limit).after lines = (s.after lines).withLimit limit := by
  induction lines generalizing s with
  | nil => rfl
  | cons line lines ih =>
    have hline := hs.line line
    have hm' : (s.evalLine line).session.settings.maxSteps = none := by rwa [settings_evalLine]
    have hle : (s.evalLine line).session.steps ≤ limit :=
      Nat.le_trans (hline.steps_le_after lines) h
    rw [after_cons, after_cons, evalLine_withLimit hs.wellFormed hm hle]
    exact ih hline hm' h

/-- **The limit cuts the unlimited evaluation and does nothing else.** The same lines are evaluated
in a fresh session without a limit and in one with a limit.

As long as the unlimited count stays within the limit, both do the same. The first line that takes
it beyond the limit is given up with an empty stack and the dictionary from before the line. After
that line neither stack nor dictionary changes any more, whatever lines follow: a line with a word
is refused, and a line without words succeeds. -/
theorem limit_cuts (check : ZeroCheck) (limit : Nat) (lines : List String) (line : String) :
    let free := (fresh ⟨check, none⟩).after lines
    let bound := (fresh ⟨check, some limit⟩).after lines
    ((free.evalLine line).session.steps ≤ limit →
      (bound.evalLine line).result = (free.evalLine line).result ∧
        (bound.evalLine line).session.stack = (free.evalLine line).session.stack ∧
        (bound.evalLine line).session.dictionary = (free.evalLine line).session.dictionary ∧
        (bound.evalLine line).session.steps = (free.evalLine line).session.steps ∧
        (bound.evalLine line).events = (free.evalLine line).events) ∧
      (free.steps ≤ limit → limit < (free.evalLine line).session.steps →
        (bound.evalLine line).result = .error (.stepLimit limit) ∧
          (bound.evalLine line).session.stack = .empty ∧
          (bound.evalLine line).session.dictionary = bound.dictionary ∧
          bound.dictionary = free.dictionary ∧
          ∀ (later : List String) (next : String),
            let late := (bound.evalLine line).session.after later
            late.stack = .empty ∧ late.dictionary = bound.dictionary ∧
              (tokenize next ≠ [] → (late.evalLine next).result = .error (.stepLimit limit)) ∧
              (tokenize next = [] → (late.evalLine next).result = .ok ())) := by
  intro free bound
  have hfree : free.Reachable := (Reachable.fresh ⟨check, none⟩).after lines
  have hm : free.settings.maxSteps = none := by rw [settings_after]; rfl
  -- both sessions are the same up to the line, which is where `evalLine_withLimit` takes over
  have hbound (hle : free.steps ≤ limit) : bound = free.withLimit limit :=
    after_withLimit (.fresh ⟨check, none⟩) rfl hle
  refine ⟨fun hle => ?_, fun hle hlt => ?_⟩
  · have hsteps := Nat.le_trans (steps_le_evalLine hfree.wellFormed line) hle
    rw [hbound hsteps, evalLine_withLimit hfree.wellFormed hm hle]
    exact ⟨rfl, rfl, rfl, rfl, rfl⟩
  · obtain ⟨log, hline⟩ := evalLine_of_lt_steps hm hle hlt
    rw [hbound hle, hline]
    refine ⟨rfl, rfl, rfl, rfl, fun later next => ?_⟩
    intro late
    obtain ⟨hstack, hdict, hlate⟩ := after_beyond
      (s := ⟨free.settings.withLimit limit, .empty, free.dictionary, limit + 1, free.acyclic⟩)
      rfl (Nat.lt_succ_self limit) rfl later
    have hlimit : late.settings.maxSteps = some limit := by rw [settings_after]; rfl
    obtain ⟨hwords, hblank, -, -⟩ := evalLine_beyond hlimit hlate next
    exact ⟨hstack, hdict, fun h => (hwords h).1, fun h => (hblank h).1⟩

/-- The limit is met inside a call, in a session that has seen a fault. -/
theorem limit_cuts_in_square :
    let free := (fresh {}).after [": SQ DUP * ;", "SQ"]
    let bound := (fresh { maxSteps := some 6 }).after [": SQ DUP * ;", "SQ"]
    free.steps = 3 ∧ (free.evalLine "3 SQ 1 +").session.steps = 9 ∧
      (bound.evalLine "3 SQ 1 +").result = .error (.stepLimit 6) ∧
      (bound.evalLine "3 SQ 1 +").session.dictionary = free.dictionary ∧
      (((bound.evalLine "3 SQ 1 +").session.after [": T 2 ;"]).evalLine "T").result =
        .error (.stepLimit 6) := by
  have hsteps : ((fresh {}).after [": SQ DUP * ;", "SQ"]).steps = 3 := by cbv
  have hsteps' :
      (((fresh {}).after [": SQ DUP * ;", "SQ"]).evalLine "3 SQ 1 +").session.steps = 9 := by
    cbv
  have hnext : tokenize "T" = ["T"] := by cbv
  obtain ⟨-, hcut⟩ := limit_cuts .divisionOnly 6 [": SQ DUP * ;", "SQ"] "3 SQ 1 +"
  obtain ⟨hresult, -, hdict, hsame, hlater⟩ := hcut (by omega) (by omega)
  obtain ⟨-, -, hrefused, -⟩ := hlater [": T 2 ;"] "T"
  exact ⟨hsteps, hsteps', hresult, hdict.trans hsame, hrefused (by rw [hnext]; decide)⟩

end Session

end WordCalc
