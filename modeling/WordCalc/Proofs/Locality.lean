import Mathlib
import WordCalc.Proofs.Reachable

/-!
# Cells underneath

A line does not look below the part of the stack that it needs. A word takes a fixed number of
cells off the top and fails if there are too few; whether there are more below makes no difference
to it, nor to the zero check, which asks for the top alone.

So with cells put underneath the stack a line does the same as before, and leaves these cells where
they are (`below_is_untouched`). The exception is a line that fails because the stack is too low:
with more cells it may go on. All else carries over from an operator or a shuffle
(`Operator.onStack_atop`, `Shuffle.onStack_atop`) to a word (`dispatch_atop`), and from a word to a
run (`run_atop`).
-/

namespace WordCalc

/-! ## Cells underneath a stack -/

/-- The stack `s` on top of the cells `below`, which are given bottom first. -/
def Stack.atop (s : Stack) (below : List Cell) : Stack := ⟨below.toArray ++ s.cells⟩

namespace Stack

variable {s rest : Stack} {below : List Cell}

@[simp]
theorem toList_atop (s : Stack) (below : List Cell) :
    (s.atop below).toList = below ++ s.toList := by
  simp [toList, atop]

@[simp]
theorem depth_atop (s : Stack) (below : List Cell) :
    (s.atop below).depth = below.length + s.depth := by
  rw [← length_toList, toList_atop, List.length_append, length_toList]

@[simp]
theorem push_atop (s : Stack) (below items : List Cell) :
    (s.atop below).push items = (s.push items).atop below :=
  ext_toList (by simp)

/-- A stack that is not empty keeps its top. -/
theorem top?_atop {c : Cell} (h : s.top? = some c) : (s.atop below).top? = some c := by
  rw [top?_eq_getLast?] at h ⊢
  rw [toList_atop, List.getLast?_append, h, Option.some_or]

/-- An empty stack has no top, and nothing comes off it. -/
theorem popN_of_top?_none {n : Nat} (h : s.top? = none) (hn : 0 < n) :
    s.popN n = .error .stackUnderflow := by
  rw [top?_eq_getLast?, List.getLast?_eq_none_iff] at h
  rw [popN_eq_error_iff, ← length_toList, h]
  exact ⟨hn, rfl⟩

/-- Cells that come off the stack come off all the same with other cells below. -/
theorem popN_atop {n : Nat} {v : Vector Cell n} (h : s.popN n = .ok (v, rest)) :
    (s.atop below).popN n = .ok (v, rest.atop below) := by
  rw [popN_eq_ok_iff] at h ⊢
  rw [toList_atop, toList_atop, h, List.append_assoc]

end Stack

/-! ## Words that act on the stack -/

section OnStack

variable {s : Stack} {check : ZeroCheck} {op : Operator} {sh : Shuffle}

theorem Operator.onStack_atop (below : List Cell)
    (h : op.onStack check s ≠ .error .stackUnderflow) :
    op.onStack check (s.atop below) = (op.onStack check s).map (·.atop below) := by
  unfold onStack at h ⊢
  cases htop : s.top? with
  | none =>
    rw [htop, Stack.popN_of_top?_none htop (by omega)] at h
    exact absurd (by simp) h
  | some c =>
    rw [htop] at h
    rw [Stack.top?_atop htop]
    split
    · rfl
    · rename_i hguard
      rw [if_neg hguard] at h
      cases hpop : s.popN 2 with
      | error f =>
        rw [hpop] at h
        exact absurd (congrArg _ (Stack.popN_eq_error_iff.mp hpop).2) h
      | ok r =>
        rw [Stack.popN_atop hpop]
        dsimp only
        cases op.result? r.1[0] r.1[1] with
        | none => rfl
        | some c => simp [Except.map]

theorem Shuffle.onStack_atop (below : List Cell) (h : sh.onStack s ≠ .error .stackUnderflow) :
    sh.onStack (s.atop below) = (sh.onStack s).map (·.atop below) := by
  unfold onStack at h ⊢
  cases hpop : s.popN sh.arity with
  | ok r => simp [Stack.popN_atop hpop, Except.map]
  | error f =>
    rw [hpop] at h
    exact absurd (congrArg _ (Stack.popN_eq_error_iff.mp hpop).2) h

end OnStack

/-! ## Words and runs -/

/-- The effect with cells underneath the stack that it leaves. -/
def Effect.atop (e : Effect) (below : List Cell) : Effect :=
  match e with
  | next queue s => .next queue (s.atop below)
  | define words s => .define words (s.atop below)
  | fault f => .fault f

/-- The event with `k` more cells on the stack. -/
def Event.deeper (k : Nat) : Event → Event
  | dispatched w depth => .dispatched w (k + depth)
  | e => e

/-- The end with cells underneath the stack that it leaves. -/
def Ending.atop (e : Ending) (below : List Cell) : Ending :=
  match e with
  | finished s => .finished (s.atop below)
  | defining words s => .defining words (s.atop below)
  | fault f => .fault f

/-- The end of a run with cells underneath the stack. -/
def Stopped.atop (r : Stopped) (below : List Cell) : Stopped :=
  ⟨r.ending.atop below, r.steps, r.log.map (Event.deeper below.length)⟩

section Run

variable {check : ZeroCheck} {settings : Settings} {d : Dictionary} {hd : d.Acyclic} {w : Word}
  {queue : List Word} {s : Stack} {n : Nat} {log : Array Event}

theorem Effect.ofStack_map_atop (queue : List Word) (r : Except Fault Stack) (below : List Cell) :
    Effect.ofStack queue (r.map (·.atop below)) = (Effect.ofStack queue r).atop below := by
  cases r <;> rfl

/-- **A word does the same with cells underneath**, unless the stack is too low for it. -/
theorem dispatch_atop (below : List Cell)
    (h : dispatch check d w queue s ≠ .fault .stackUnderflow) :
    dispatch check d w queue (s.atop below) = (dispatch check d w queue s).atop below := by
  unfold dispatch at h ⊢
  cases hc : classify d w with
  | error f => rfl
  | ok t =>
    rw [hc] at h
    cases t with
    | literal c => simp [Token.effect, Effect.atop]
    | operator op =>
      have hop : op.onStack check s ≠ .error .stackUnderflow := fun e =>
        h (by simp [Token.effect, e, Effect.ofStack])
      simp only [Token.effect, Operator.onStack_atop below hop, Effect.ofStack_map_atop]
    | shuffle sh =>
      have hsh : sh.onStack s ≠ .error .stackUnderflow := fun e =>
        h (by simp [Token.effect, e, Effect.ofStack])
      simp only [Token.effect, Shuffle.onStack_atop below hsh, Effect.ofStack_map_atop]
    | call name body => rfl
    | defBegin => rfl
    | defEnd => rfl
    | unknown v => rfl

/-- **A run does the same with cells underneath**, unless it fails because the stack is too low. -/
theorem run_atop (below : List Cell)
    (h : (run settings d hd queue s n log).ending ≠ .fault .stackUnderflow) :
    run settings d hd queue (s.atop below) n (log.map (Event.deeper below.length)) =
      (run settings d hd queue s n log).atop below := by
  fun_induction run settings d hd queue s n log with
  | case1 s n log => rw [run_nil]; rfl
  | case2 s n log w rest limit hlim => rw [run_cons_of_limit hlim]; rfl
  | case3 s n log w rest hlim log' queue' s' hdis ih =>
    rw [run_cons hlim, dispatch_atop below (by simp [hdis]), hdis, ← ih h]
    simp [Effect.atop, log', Event.deeper]
  | case4 s n log w rest hlim log' words s' hdis =>
    rw [run_cons hlim, dispatch_atop below (by simp [hdis]), hdis]
    simp [Effect.atop, Stopped.atop, Ending.atop, log', Event.deeper]
  | case5 s n log w rest hlim log' f hdis =>
    have hf : dispatch settings.zeroCheck d w rest s ≠ .fault .stackUnderflow := by
      rw [hdis]
      exact fun e => h (by cases e; rfl)
    rw [run_cons hlim, dispatch_atop below hf, hdis]
    simp [Effect.atop, Stopped.atop, Ending.atop, log', Event.deeper]

end Run

/-! ## Lines -/

/-- The session with cells underneath its stack. -/
def Session.atop (s : Session) (below : List Cell) : Session :=
  { s with stack := s.stack.atop below }

/-- The outcome with cells underneath the stack that a success leaves; a failure has emptied it. -/
def Outcome.atop (o : Outcome) (below : List Cell) : Outcome where
  result := o.result
  session :=
    match o.result with
    | .ok () => o.session.atop below
    | .error _ => o.session
  events := o.events.map (Event.deeper below.length)

namespace Session

variable {s : Session} {line : String}

theorem conclude_atop (s : Session) (r : Stopped) (below : List Cell) :
    (s.atop below).conclude (r.atop below) = (s.conclude r).atop below := by
  obtain ⟨ending, n, log⟩ := r
  cases ending with
  | finished st => rfl
  | fault f =>
    simp [Stopped.atop, Ending.atop, conclude, abort, Outcome.atop, Session.atop, Event.deeper]
  | defining words st =>
    simp only [Stopped.atop, Ending.atop]
    cases hx : s.dictionary.define words with
    | error f =>
      rw [conclude_defining_of_error hx, conclude_defining_of_error (s := s.atop below) hx]
      simp [Outcome.atop, Session.atop, Event.deeper]
    | ok x =>
      rw [conclude_defining_of_ok hx, conclude_defining_of_ok (s := s.atop below) hx]
      simp [Outcome.atop, Session.atop, Event.deeper]

theorem stopped_atop (below : List Cell) (h : s.ending line ≠ .fault .stackUnderflow) :
    (s.atop below).stopped line = (s.stopped line).atop below := by
  rw [stopped, stopped, ← run_atop below h, Array.map_empty]
  rfl

/-- A line does the same with cells underneath, unless it fails because the stack is too low. -/
theorem evalLine_atop (below : List Cell)
    (h : (s.evalLine line).result ≠ .error .stackUnderflow) :
    (s.atop below).evalLine line = (s.evalLine line).atop below := by
  have hending : s.ending line ≠ .fault .stackUnderflow := fun he => h (result_of_fault he)
  rw [evalLine, evalLine, ← conclude_atop, stopped_atop below hending]

/-- **A line does not look below the part of the stack that it needs.** Let any cells be put
underneath the stack of a session. A line that has succeeded succeeds again and leaves these cells
under the stack that it has left before, with the same dictionary and the same count of words. A
line that has failed for any cause but a stack too low fails again for the same cause and leaves
the same session. Either way the journal tells the same, with the cells added to every depth. -/
theorem below_is_untouched (s : Session) (below : List Cell) (line : String) :
    let o := s.evalLine line
    let o' := (s.atop below).evalLine line
    (o.result = .ok () →
      o'.result = .ok () ∧ o'.session.stack.toList = below ++ o.session.stack.toList ∧
        o'.session.dictionary = o.session.dictionary ∧ o'.session.steps = o.session.steps ∧
        o'.events = o.events.map (Event.deeper below.length)) ∧
      ∀ f, f ≠ .stackUnderflow → o.result = .error f →
        o'.result = .error f ∧ o'.session = o.session ∧
          o'.events = o.events.map (Event.deeper below.length) := by
  intro o o'
  refine ⟨fun hok => ?_, fun f hne hf => ?_⟩
  · have ho' : o' = o.atop below := evalLine_atop below (by rw [hok]; exact nofun)
    rw [ho', Outcome.atop, hok]
    exact ⟨rfl, Stack.toList_atop o.session.stack below, rfl, rfl, rfl⟩
  · have ho' : o' = o.atop below :=
      evalLine_atop below (by rw [hf]; exact fun e => hne (Except.error.inj e))
    rw [ho', Outcome.atop, hf]
    exact ⟨rfl, rfl, rfl⟩

/-- A call and a definition above two cells, and a division that is refused with one cell on the
stack as well as with two. -/
theorem below_is_untouched_by_cube :
    (cubeSession.evalLine "2 CUBE : C CUBE ;").result = .ok () ∧
      ((cubeSession.atop [5, -7]).evalLine "2 CUBE : C CUBE ;").result = .ok () ∧
      ((cubeSession.atop [5, -7]).evalLine "2 CUBE : C CUBE ;").session.stack.toList =
        [5, -7, 8] ∧
      (cubeSession.evalLine "0 /").result = .error .divideByZero ∧
      ((cubeSession.atop [5]).evalLine "0 /").result = .error .divideByZero := by
  have hok : (cubeSession.evalLine "2 CUBE : C CUBE ;").result = .ok () := by cbv
  have hstack : (cubeSession.evalLine "2 CUBE : C CUBE ;").session.stack.toList = [8] := by cbv
  have hzero : (cubeSession.evalLine "0 /").result = .error .divideByZero := by cbv
  obtain ⟨hsuccess, -⟩ := below_is_untouched cubeSession [5, -7] "2 CUBE : C CUBE ;"
  obtain ⟨-, hfailure⟩ := below_is_untouched cubeSession [5] "0 /"
  obtain ⟨hok', hstack', -⟩ := hsuccess hok
  rw [hstack] at hstack'
  exact ⟨hok, hok', hstack', hzero, (hfailure .divideByZero (by decide) hzero).1⟩

end Session

end WordCalc
