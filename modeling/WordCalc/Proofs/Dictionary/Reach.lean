import Mathlib
import WordCalc.Proofs.Dictionary.Flattening
import WordCalc.Proofs.Dictionary.Order

/-!
# What a word leads to

A word reaches the words of its body, and the words that these reach. What it stands for depends on
the definitions of the words that it reaches and on nothing else in the dictionary (`flat_congr`),
and so does what becomes of a definition (`define_cons_congr`). In particular an insertion does not
change what stands for a word that does not reach the inserted name (`flat_insert_of_not_reaches`).

A recorded body has no defined word in it. So an insertion never leads a word to a name that was
defined before and that it did not reach before (`reaches_of_reaches_insert`), and the inserted name
itself reaches none (`not_reaches_insert_self`). This is why a redefinition never reaches back: once
`b` has been defined while `a` was defined, `b` does not reach `a` any more, whatever is defined or
redefined later (`redefinition_never_reaches_back`).
-/

namespace WordCalc

namespace Dictionary

/-- Following words into their bodies leads from `w` to `v`. -/
def Reaches (d : Dictionary) (w v : Word) : Prop :=
  Relation.ReflTransGen d.Mentions v w

variable {d e : Dictionary} {x : Definition} {a b u v w : Word}

theorem Reaches.refl (d : Dictionary) (w : Word) : d.Reaches w w :=
  Relation.ReflTransGen.refl

/-- A word reaches what the words of its body reach. -/
theorem Mentions.reaches (hm : d.Mentions v w) (hv : d.Reaches v u) : d.Reaches w u :=
  Relation.ReflTransGen.tail hv hm

/-- A word that is not defined reaches itself alone. -/
theorem Reaches.eq_of_not_defined (h : d.Reaches w v) (hw : d.body? w = none) : v = w := by
  cases h with
  | refl => rfl
  | tail _ hm =>
    obtain ⟨body, hb, -⟩ := hm
    rw [hw] at hb
    cases hb

/-- A word other than the inserted name mentions what it mentioned before. -/
theorem mentions_insert_of_ne (hw : w ≠ x.name) :
    (d.insert x).Mentions v w ↔ d.Mentions v w := by
  simp only [Mentions, body?_insert, if_neg hw]

/-- The inserted name mentions the words of its new body. -/
theorem mentions_insert_self : (d.insert x).Mentions v x.name ↔ v ∈ x.body := by
  simp [Mentions, body?_insert]

/-- An inherited condition holds of every word that is reached. -/
theorem Inherits.of_reaches {P : Word → Prop} (hP : d.Inherits P) (h : d.Reaches w v)
    (hw : P w) : P v := by
  induction h with
  | refl => exact hw
  | tail _ hm ih =>
    obtain ⟨body, hb, hmem⟩ := hm
    exact ih (hP _ body hb hw _ hmem)

/-- Words that contain the bodies of their words lead to no others. -/
theorem Reaches.mem_of_closed {ws : List Word} (h : d.Reaches w v)
    (hclosed : ∀ w ∈ ws, ∀ body ∈ d.body? w, ∀ v ∈ body, v ∈ ws) (hw : w ∈ ws) : v ∈ ws := by
  have hP : d.Inherits (· ∈ ws) := fun w body hb hw => hclosed w hw body hb
  exact hP.of_reaches h hw

theorem not_reaches_of_closed {vs ws : List Word}
    (hclosed : ∀ w ∈ ws, ∀ body ∈ d.body? w, ∀ v ∈ body, v ∈ ws) (hvs : vs ⊆ ws) (ha : a ∉ ws) :
    ∀ v ∈ vs, ¬ d.Reaches v a :=
  fun _ hv hr => ha (hr.mem_of_closed hclosed (hvs hv))

/-! ## Dictionaries that agree on what a word reaches -/

/-- Every word that `w` reaches has the same body in both dictionaries, or none in both. -/
def AgreeFrom (d e : Dictionary) (w : Word) : Prop :=
  ∀ v, d.Reaches w v → d.body? v = e.body? v

theorem AgreeFrom.body?_eq (h : d.AgreeFrom e w) : d.body? w = e.body? w :=
  h w (Reaches.refl d w)

theorem inherits_agreeFrom (d e : Dictionary) : d.Inherits (d.AgreeFrom e) := by
  intro w body hb hw v hv u hu
  have hm : d.Mentions v w := ⟨body, hb, hv⟩
  exact hw u (hm.reaches hu)

/-- Dictionaries agree on what a word of `ws` reaches if they agree on `ws`, and `ws` contains the
bodies of its words. -/
theorem agreeFrom_of_closed {ws : List Word}
    (hclosed : ∀ w ∈ ws, ∀ body ∈ d.body? w, ∀ v ∈ body, v ∈ ws)
    (hsame : ∀ w ∈ ws, d.body? w = e.body? w) (hw : w ∈ ws) : d.AgreeFrom e w :=
  fun v hv => hsame v (hv.mem_of_closed hclosed hw)

theorem flatWord_congr (h : d.Acyclic) (he : e.Acyclic) (hw : d.AgreeFrom e w) :
    d.flatWord h w = e.flatWord he w := by
  induction w using h.induction with
  | _ w ih =>
    cases hb : d.body? w with
    | none => rw [flatWord_of_not_defined h hb, flatWord_of_not_defined he (hw.body?_eq ▸ hb)]
    | some body =>
      rw [flatWord_of_body? h hb, flatWord_of_body? he (hw.body?_eq ▸ hb)]
      exact List.flatMap_congr fun v hv =>
        ih v ⟨body, hb, hv⟩ (inherits_agreeFrom d e w body hb hw v hv)

/-- **A full expansion depends on the definitions that the words reach**, and on no others. -/
theorem flat_congr (h : d.Acyclic) (he : e.Acyclic) {ws : List Word}
    (hws : ∀ w ∈ ws, d.AgreeFrom e w) : d.flat h ws = e.flat he ws :=
  List.flatMap_congr fun w hw => flatWord_congr h he (hws w hw)

/-- What becomes of a definition depends on the definitions that the words for its body reach. -/
theorem define_cons_congr (h : d.Acyclic) (he : e.Acyclic) (name : Word) {rest : List Word}
    (hrest : ∀ w ∈ rest.dropLast, d.AgreeFrom e w) :
    d.define (name :: rest) = e.define (name :: rest) := by
  have hbody : d.flat h rest.dropLast = e.flat he rest.dropLast := flat_congr h he hrest
  simp only [define, expand_eq_flat h, expand_eq_flat he, hbody]

theorem define_congr (h : d.Acyclic) (he : e.Acyclic) {words : List Word}
    (hwords : ∀ w ∈ words, d.AgreeFrom e w) : d.define words = e.define words := by
  cases words with
  | nil => rfl
  | cons name rest =>
    exact define_cons_congr h he name fun w hw =>
      hwords w (List.mem_cons_of_mem name (List.dropLast_subset rest hw))

/-! ## Full expansions under an insertion -/

/-- An insertion changes nothing that a word reaches, unless the word reaches the inserted name. -/
theorem agreeFrom_insert_of_not_reaches (hw : ¬ d.Reaches w x.name) :
    d.AgreeFrom (d.insert x) w := by
  intro v hv
  have hne : v ≠ x.name := fun e => hw (e ▸ hv)
  rw [body?_insert, if_neg hne]

/-- **An insertion is local**: words that do not reach the inserted name keep their full
expansion. -/
theorem flat_insert_of_not_reaches (h : d.Acyclic) (he : (d.insert x).Acyclic) {ws : List Word}
    (hws : ∀ w ∈ ws, ¬ d.Reaches w x.name) : (d.insert x).flat he ws = d.flat h ws :=
  (flat_congr h he fun w hw => agreeFrom_insert_of_not_reaches (hws w hw)).symm

/-! ## Reachability under an insertion -/

/-- After an insertion a word reaches no name defined before that it did not reach already: the new
body leads to words that are not defined. -/
theorem reaches_of_reaches_insert (hx : ∀ v ∈ x.body, d.body? v = none) (ha : a ∈ d.names)
    (h : (d.insert x).Reaches w a) : d.Reaches w a := by
  induction h with
  | refl => exact Reaches.refl d a
  | @tail v w _ hm ih =>
    by_cases hw : w = x.name
    · subst hw
      have hv := hx v (mentions_insert_self.mp hm)
      obtain rfl := ih.eq_of_not_defined hv
      exact absurd ha (not_mem_names_iff.mpr hv)
    · exact ((mentions_insert_of_ne hw).mp hm).reaches ih

/-- A name that is defined with an expanded body does not reach another name defined before. -/
theorem not_reaches_insert_self (hx : ∀ v ∈ x.body, d.body? v = none ∧ v ≠ x.name)
    (ha : a ∈ d.names) (hne : a ≠ x.name) : ¬ (d.insert x).Reaches x.name a := by
  intro h
  obtain he | ⟨v, hr, hm⟩ := Relation.ReflTransGen.cases_tail h
  · exact hne he.symm
  · obtain ⟨hv, hvx⟩ := hx v (mentions_insert_self.mp hm)
    have hv' : (d.insert x).body? v = none := by rw [body?_insert, if_neg hvx, hv]
    obtain rfl := Reaches.eq_of_not_defined hr hv'
    exact not_mem_names_iff.mpr hv ha

/-! ## Later definitions -/

/-- Defined names stay defined. -/
theorem mem_names_insert (ha : a ∈ d.names) : a ∈ (d.insert x).names := by
  rcases (insertion_insert d x).names with he | ⟨-, he⟩
  · exact he ▸ ha
  · exact he ▸ List.mem_append_left _ ha

/-- An attempt to record keeps `a` out of the reach of `b`. -/
theorem not_reaches_attempt (ha : a ∈ d.names) (h : ¬ d.Reaches b a) (words : List Word) :
    a ∈ (d.attempt words).names ∧ ¬ (d.attempt words).Reaches b a := by
  cases hrecord : d.record words with
  | ok e =>
    obtain ⟨x, hx, rfl⟩ := record_eq_ok_iff.mp hrecord
    have hbody := body_of_define hx
    rw [attempt_of_ok hrecord]
    exact ⟨mem_names_insert ha,
      fun hr => h (reaches_of_reaches_insert (fun v hv => (hbody v hv).1) ha hr)⟩
  | error f =>
    rw [attempt_of_error hrecord]
    exact ⟨ha, h⟩

/-- Any number of attempts keep `a` out of the reach of `b`. -/
theorem not_reaches_attempts (ha : a ∈ d.names) (h : ¬ d.Reaches b a)
    (attempts : List (List Word)) : ¬ (attempts.foldl attempt d).Reaches b a := by
  induction attempts generalizing d with
  | nil => exact h
  | cons words rest ih =>
    obtain ⟨ha', h'⟩ := not_reaches_attempt ha h words
    exact ih ha' h'

/-- **A redefinition never reaches back.** Let `a` be defined when a definition of another word `b`
is recorded. Whatever is attempted later, and whichever attempts are rejected, `b` does not reach
`a`; so recording `a` anew leaves the full expansion of `b` as it is. -/
theorem redefinition_never_reaches_back {before : List (List Word)} {rest : List Word}
    {e : Dictionary} (ha : a ∈ (ofAttempts before).names) (hab : a ≠ b)
    (hb : (ofAttempts before).record (b :: rest) = .ok e) (after : List (List Word)) :
    let later := ofAttempts (before ++ (b :: rest) :: after)
    ¬ later.Reaches b a ∧
      ∀ (words : List Word) (e' : Dictionary), later.record (a :: words) = .ok e' →
        ∃ ws, later.expand [b] = .ok ws ∧ e'.expand [b] = .ok ws := by
  intro later
  obtain ⟨x, hx, rfl⟩ := record_eq_ok_iff.mp hb
  obtain rfl : x.name = b := by
    obtain ⟨ws, hwords, -⟩ := define_eq_ok_iff.mp hx
    exact (List.cons.inj hwords).1.symm
  have hlater : later = after.foldl attempt ((ofAttempts before).insert x) := by
    rw [← attempt_of_ok hb]
    exact ofAttempts_append before ((x.name :: rest) :: after)
  have hinsulated : ¬ later.Reaches x.name a := by
    rw [hlater]
    exact not_reaches_attempts (mem_names_insert ha)
      (not_reaches_insert_self (body_of_define hx) ha hab) after
  refine ⟨hinsulated, fun words e' he' => ?_⟩
  obtain ⟨y, hy, rfl⟩ := record_eq_ok_iff.mp he'
  obtain ⟨ws, hwords, -⟩ := define_eq_ok_iff.mp hy
  have hname : y.name = a := (List.cons.inj hwords).1.symm
  have hacyclic : later.Acyclic := (recorded_ofAttempts _).acyclic
  have hacyclic' := acyclic_insert_of_define hacyclic hy
  refine ⟨later.flat hacyclic [x.name], expand_eq_flat hacyclic _, ?_⟩
  rw [expand_eq_flat hacyclic', flat_insert_of_not_reaches hacyclic hacyclic']
  intro w hw
  rw [List.mem_singleton.mp hw, hname]
  exact hinsulated

/-- `B` is defined while `A` is, with a forward reference to `C`, which then mentions `A`. -/
theorem redefinition_never_reaches_back_of_forward_reference :
    "A" ∈ (ofAttempts [["A", "1", ";"]]).names ∧
      ∃ e e', (ofAttempts [["A", "1", ";"]]).record ["B", "A", "C", ";"] = .ok e ∧
        (ofAttempts [["A", "1", ";"], ["B", "A", "C", ";"], ["C", "A", "2", ";"]]).record
          ["A", "7", ";"] = .ok e' ∧
        ∃ ws, (ofAttempts [["A", "1", ";"], ["B", "A", "C", ";"], ["C", "A", "2", ";"]]).expand
            ["B"] = .ok ws ∧ e'.expand ["B"] = .ok ws ∧ ws = ["1", "1", "2"] := by
  have ha : "A" ∈ (ofAttempts [["A", "1", ";"]]).names := contains_iff_mem_names.mp (by cbv)
  have hb : (ofAttempts [["A", "1", ";"]]).record ["B", "A", "C", ";"] =
      .ok ⟨[⟨"A", ["1"]⟩, ⟨"B", ["1", "C"]⟩]⟩ := by cbv
  have hredefined :
      (ofAttempts [["A", "1", ";"], ["B", "A", "C", ";"], ["C", "A", "2", ";"]]).record
        ["A", "7", ";"] = .ok ⟨[⟨"A", ["7"]⟩, ⟨"B", ["1", "C"]⟩, ⟨"C", ["1", "2"]⟩]⟩ := by cbv
  have hexpand : (ofAttempts [["A", "1", ";"], ["B", "A", "C", ";"], ["C", "A", "2", ";"]]).expand
      ["B"] = .ok ["1", "1", "2"] := by cbv
  obtain ⟨-, hsame⟩ := redefinition_never_reaches_back ha (by decide) hb [["C", "A", "2", ";"]]
  obtain ⟨ws, hws, hws'⟩ := hsame ["7", ";"] _ hredefined
  exact ⟨ha, _, _, hb, hredefined, ws, hws, hws',
    (Except.ok.inj (hexpand.symm.trans hws)).symm⟩

end Dictionary

end WordCalc
