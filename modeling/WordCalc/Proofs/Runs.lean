import WordCalc.Proofs.Dictionary.Flattening
import WordCalc.Proofs.Dictionary.Order
import WordCalc.Run

/-!
# The rules of a run

In a dictionary that defines no numeral a dispatched word does one of three things: a defined word
puts its body in front of the queue, the begin mark takes the queue for a definition, and any other
word acts on the stack alone (`dispatch_of_body?`, `dispatch_beginMark`, `dispatch_of_not_defined`).
What it does in the last case does not depend on the dictionary: it is the step of the *plain
machine*, which knows literals, operators and shuffles and refuses every other word.

`Runs` turns this into rules for a whole run, one for each thing that the first pending word can
lead to, and `runs_run` says that every run follows them. What holds of every run is proved by
induction on these rules.
-/

namespace WordCalc

/-! ## The plain machine -/

namespace Plain

/-- The stack after one word of the plain machine. -/
def step (check : ZeroCheck) (s : Stack) (w : Word) : Except Fault Stack :=
  match classify .empty w with
  | .ok (.literal c) => .ok (s.push [c])
  | .ok (.operator op) => op.onStack check s
  | .ok (.shuffle sh) => sh.onStack s
  | .ok _ => .error (.undefinedWord w)
  | .error f => .error f

/-- The stack after the words of the plain machine, one after another. -/
def run (check : ZeroCheck) (s : Stack) (ws : List Word) : Except Fault Stack :=
  ws.foldlM (step check) s

end Plain

/-! ## Tokens and words -/

/-- The built-in meaning of a word stands for the word. -/
theorem Token.text_builtIn (w : Word) : (Token.builtIn w).text = w := by
  unfold Token.builtIn
  split <;> rfl

variable {check : ZeroCheck} {d : Dictionary} {w : Word} {body queue rest : List Word} {s : Stack}

/-- Every token but a literal stands for the word that it was read from. -/
theorem text_of_classify {t : Token} (h : classify d w = .ok t) (hl : ∀ c, t ≠ .literal c) :
    t.text = w := by
  unfold classify at h
  split at h
  · split at h
    · cases h
      exact absurd rfl (hl _)
    · cases h
  · split at h
    · cases h
      rfl
    · cases h
      exact Token.text_builtIn w

/-- The one fault of reading a word. -/
theorem fault_of_classify_error {f : Fault} (h : classify d w = .error f) :
    f = .integerOverflow := by
  unfold classify at h
  split at h
  · split at h <;> cases h
    rfl
  · split at h <;> cases h

/-- A word without a definition means what it means in the empty dictionary. -/
theorem classify_of_not_defined (h : d.body? w = none) : classify d w = classify .empty w := by
  simp [classify, h]

/-- A defined word is a call, if no numeral is defined. -/
theorem classify_of_body? (hd : d.NoNumerals) (h : d.body? w = some body) :
    classify d w = .ok (.call w body) := by
  have hnum := hd w (Dictionary.mem_names_of_body? h)
  rw [isNumeral, Option.isSome_eq_false_iff, Option.isNone_iff_eq_none] at hnum
  simp [classify, hnum, h]

theorem classify_beginMark (h : d.body? Token.beginMark = none) :
    classify d Token.beginMark = .ok .defBegin := by
  have hnum : Numeral.value? Token.beginMark = none := by decide +kernel
  rw [classify, hnum, h]
  rfl

/-! ## The three cases of a dispatch -/

/-- A defined word puts its body in front of the queue. -/
theorem dispatch_of_body? (hd : d.NoNumerals) (h : d.body? w = some body) :
    dispatch check d w queue s = .next (body ++ queue) s := by
  rw [dispatch, classify_of_body? hd h]
  rfl

/-- The begin mark takes the queue for a definition. -/
theorem dispatch_beginMark (h : d.body? Token.beginMark = none) :
    dispatch check d Token.beginMark queue s = .define queue s := by
  rw [dispatch, classify_beginMark h]
  rfl

/-- Any other word acts on the stack alone. -/
theorem dispatch_of_not_defined (h : d.body? w = none) (hw : w ≠ Token.beginMark) :
    dispatch check d w queue s = .ofStack queue (Plain.step check s w) := by
  rw [dispatch, classify_of_not_defined h, Plain.step]
  cases hc : classify .empty w with
  | error f => rfl
  | ok t =>
    cases t with
    | literal c => rfl
    | operator op => rfl
    | shuffle sh => rfl
    | defBegin => exact absurd (text_of_classify hc nofun).symm hw
    | defEnd =>
      obtain rfl := text_of_classify hc nofun
      rfl
    | call name b => exact absurd (body?_of_classify_call hc).2 (by simp)
    | unknown v =>
      obtain rfl := text_of_classify hc nofun
      rfl

/-! ## The rules -/

/-- `Runs settings d queue s n log r`: with `n` words counted before, the words of `queue` run on
the stack `s` to the end `r`. One rule for each thing that the first word can lead to. -/
inductive Runs (settings : Settings) (d : Dictionary) :
    List Word → Stack → Nat → Array Event → Stopped → Prop
  | finished (s : Stack) (n : Nat) (log : Array Event) :
      Runs settings d [] s n log ⟨.finished s, n, log⟩
  /-- The limit refuses the word. -/
  | limit {w : Word} {rest : List Word} {s : Stack} {n limit : Nat} {log : Array Event}
      (hlim : settings.exceededLimit? (n + 1) = some limit) :
      Runs settings d (w :: rest) s n log ⟨.fault (.stepLimit limit), n + 1, log⟩
  /-- The word is defined, and its body comes next. -/
  | call {w : Word} {body rest : List Word} {s : Stack} {n : Nat} {log : Array Event} {r : Stopped}
      (hlim : settings.exceededLimit? (n + 1) = none) (hb : d.body? w = some body)
      (hr : Runs settings d (body ++ rest) s (n + 1) (log.push (.dispatched w s.depth)) r) :
      Runs settings d (w :: rest) s n log r
  /-- The begin mark takes the rest of the words. -/
  | define {rest : List Word} {s : Stack} {n : Nat} {log : Array Event}
      (hlim : settings.exceededLimit? (n + 1) = none) (hb : d.body? Token.beginMark = none) :
      Runs settings d (Token.beginMark :: rest) s n log
        ⟨.defining rest s, n + 1, log.push (.dispatched Token.beginMark s.depth)⟩
  /-- The word acts on the stack. -/
  | step {w : Word} {rest : List Word} {s s' : Stack} {n : Nat} {log : Array Event} {r : Stopped}
      (hlim : settings.exceededLimit? (n + 1) = none) (hb : d.body? w = none)
      (hw : w ≠ Token.beginMark) (hs : Plain.step settings.zeroCheck s w = .ok s')
      (hr : Runs settings d rest s' (n + 1) (log.push (.dispatched w s.depth)) r) :
      Runs settings d (w :: rest) s n log r
  /-- The word has a fault. -/
  | fault {w : Word} {rest : List Word} {s : Stack} {n : Nat} {log : Array Event} {f : Fault}
      (hlim : settings.exceededLimit? (n + 1) = none) (hb : d.body? w = none)
      (hw : w ≠ Token.beginMark) (hs : Plain.step settings.zeroCheck s w = .error f) :
      Runs settings d (w :: rest) s n log
        ⟨.fault f, n + 1, log.push (.dispatched w s.depth)⟩

/-- **A run follows the rules**, in a dictionary without numerals. -/
theorem runs_run (settings : Settings) (hnum : d.NoNumerals) (hd : d.Acyclic) (queue : List Word)
    (s : Stack) (n : Nat) (log : Array Event) :
    Runs settings d queue s n log (run settings d hd queue s n log) := by
  induction queue using hd.queue_induction generalizing s n log with
  | nil =>
    rw [run_nil]
    exact .finished s n log
  | call w body rest hb ih =>
    cases hlim : settings.exceededLimit? (n + 1) with
    | some limit =>
      rw [run_cons_of_limit hlim]
      exact .limit hlim
    | none =>
      rw [run_cons hlim, dispatch_of_body? hnum hb]
      exact .call hlim hb (ih s _ _)
  | word w rest hb ih =>
    cases hlim : settings.exceededLimit? (n + 1) with
    | some limit =>
      rw [run_cons_of_limit hlim]
      exact .limit hlim
    | none =>
      by_cases hw : w = Token.beginMark
      · subst hw
        rw [run_cons hlim, dispatch_beginMark hb]
        exact .define hlim hb
      · rw [run_cons hlim, dispatch_of_not_defined hb hw]
        cases hs : Plain.step settings.zeroCheck s w with
        | ok s' => exact .step hlim hb hw hs (ih s' _ _)
        | error f => exact .fault hlim hb hw hs

/-! ## The words of a definition -/

/-- A condition that the words of a line satisfy, and that bodies inherit, holds of the words that
reach a definition. -/
theorem forall_mem_of_run_defining {settings : Settings} {hd : d.Acyclic} {words : List Word}
    {st : Stack} {n : Nat} {log : Array Event} {P : Word → Prop} (hP : d.Inherits P)
    (hq : ∀ w ∈ queue, P w)
    (h : (run settings d hd queue s n log).ending = .defining words st) : ∀ w ∈ words, P w := by
  fun_induction run settings d hd queue s n log with
  | case1 s n log | case2 s n log w rest limit hlim => cases h
  | case3 s n log w rest hlim log' queue' s' hdis ih =>
    refine ih ?_ h
    rcases queue_of_dispatch hdis with rfl | ⟨body, hb, rfl⟩
    · exact (List.forall_mem_cons.mp hq).2
    · exact hP.call hb hq
  | case4 s n log w rest hlim log' words' s' hdis =>
    cases h
    obtain ⟨rfl, rfl⟩ := define_of_dispatch hdis
    exact (List.forall_mem_cons.mp hq).2
  | case5 s n log w rest hlim log' f hdis => cases h

end WordCalc
