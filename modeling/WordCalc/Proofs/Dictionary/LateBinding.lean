import WordCalc.Proofs.Dictionary.Reach

/-!
# Bodies as they were entered

A definition can also be recorded with the words as they were entered: its body then calls other
definitions, and every call takes the body that its word has at that time (`enter`). Such a
dictionary is acyclic as long as no new body leads to its own name
(`acyclic_insert_of_not_reaches`).

Two dictionaries agree when they have the same names and every word has the same full expansion in
both (`Agree`). A new definition, recorded with its expanded body in one and as it was entered in
the other, keeps the agreement (`Agree.insert`): in both it puts the full expansion of the entered
words in the place of the new name (`flatWord_insert_of_new`).
-/

namespace WordCalc

namespace Dictionary

/-- Whether `v` occurs in the full expansion of `ws`. -/
def occursIn (d : Dictionary) (v : Word) (ws : List Word) : Bool :=
  match d.expand ws with
  | .ok flat => decide (v ∈ flat)
  | .error _ => false

/-- The definition that `words` enter, with its body as it was entered. It is refused like another
one, and for a cycle exactly when a new name occurs in the full expansion of its words. -/
def enter (d : Dictionary) : List Word → Except Fault Definition
  | [] => .error .missingName
  | name :: rest =>
    if isNumeral name then .error (.illegalName name)
    else if rest.getLast? ≠ some endMark then .error (.unterminated name)
    else if !d.contains name && d.occursIn name rest.dropLast then
      .error (.cyclicDefinition name)
    else .ok ⟨name, rest.dropLast⟩

variable {d e : Dictionary} {x : Definition} {u v w : Word} {ws : List Word}

/-! ## Insertions of any body -/

/-- A body whose words do not lead to its name keeps the dictionary acyclic. -/
theorem acyclic_insert_of_not_reaches (h : d.Acyclic) (hx : ∀ v ∈ x.body, ¬ d.Reaches v x.name) :
    (d.insert x).Acyclic := by
  have avoiding : ∀ w, ¬ d.Reaches w x.name → Acc (d.insert x).Mentions w := by
    intro w
    induction w using h.induction with
    | _ w ih =>
      intro hw
      have hne : w ≠ x.name := fun e => hw (e ▸ Reaches.refl d w)
      refine ⟨w, fun v hm => ?_⟩
      have hm' := (mentions_insert_of_ne hne).mp hm
      exact ih v hm' fun hr => hw (hm'.reaches hr)
  refine ⟨fun w => ?_⟩
  induction w using h.induction with
  | _ w ih =>
    refine ⟨w, fun v hm => ?_⟩
    by_cases hw : w = x.name
    · subst hw
      exact avoiding v (hx v (mentions_insert_self.mp hm))
    · exact ih v ((mentions_insert_of_ne hw).mp hm)

/-- What a word leads to and is not defined occurs in its full expansion. -/
theorem mem_flatWord_of_reaches (h : d.Acyclic) (hv : d.body? v = none) (hr : d.Reaches w v) :
    v ∈ d.flatWord h w := by
  induction hr with
  | refl =>
    rw [flatWord_of_not_defined h hv]
    exact List.mem_singleton_self v
  | @tail u w _ hm ih =>
    obtain ⟨body, hb, hmem⟩ := hm
    rw [flatWord_of_body? h hb, mem_flat]
    exact ⟨u, hmem, ih⟩

/-- A new name that does not occur in the full expansion of its words is not led to by them. -/
theorem not_reaches_of_not_mem_flat (h : d.Acyclic) (hv : d.body? v = none)
    (hmem : v ∉ d.flat h ws) : ∀ w ∈ ws, ¬ d.Reaches w v :=
  fun w hw hr => hmem (mem_flat.mpr ⟨w, hw, mem_flatWord_of_reaches h hv hr⟩)

/-- **A new definition substitutes**: the full expansion of its body takes the place of its name in
every full expansion. -/
theorem flatWord_insert_of_new (h : d.Acyclic) (he : (d.insert x).Acyclic)
    (hnew : d.body? x.name = none) (hmem : x.name ∉ d.flat h x.body) (w : Word) :
    (d.insert x).flatWord he w =
      (d.flatWord h w).flatMap fun v => if v = x.name then d.flat h x.body else [v] := by
  have hself : (d.insert x).flatWord he x.name = d.flat h x.body := by
    have hb : (d.insert x).body? x.name = some x.body := by rw [body?_insert, if_pos rfl]
    rw [flatWord_of_body? he hb]
    exact flat_insert_of_not_reaches h he (not_reaches_of_not_mem_flat h hnew hmem)
  induction w using h.induction with
  | _ w ih =>
    by_cases hw : w = x.name
    · rw [hw, hself, flatWord_of_not_defined h hnew]
      simp
    · have hbody : (d.insert x).body? w = d.body? w := by rw [body?_insert, if_neg hw]
      cases hb : d.body? w with
      | none =>
        rw [flatWord_of_not_defined he (hbody.trans hb), flatWord_of_not_defined h hb]
        simp [hw]
      | some body =>
        rw [flatWord_of_body? he (hbody.trans hb), flatWord_of_body? h hb]
        calc (d.insert x).flat he body
            = body.flatMap fun v => (d.flatWord h v).flatMap fun v =>
                if v = x.name then d.flat h x.body else [v] :=
              List.flatMap_congr fun v hv => ih v ⟨body, hb, hv⟩
          _ = (d.flat h body).flatMap fun v => if v = x.name then d.flat h x.body else [v] :=
              List.flatMap_assoc.symm

/-! ## Words that a dictionary avoids -/

/-- The word `v` is neither defined nor in a body. -/
def Avoids (d : Dictionary) (v : Word) : Prop :=
  ∀ w body, d.body? w = some body → w ≠ v ∧ v ∉ body

theorem avoids_empty (v : Word) : empty.Avoids v := by
  intro w body hb
  cases hb

theorem Avoids.insert (h : d.Avoids v) (hn : x.name ≠ v) (hb : v ∉ x.body) :
    (d.insert x).Avoids v := by
  intro w body hw
  rw [body?_insert] at hw
  split at hw
  · rename_i hname
    cases hw
    exact ⟨hname ▸ hn, hb⟩
  · exact h w body hw

/-- A word that the dictionary avoids comes into no full expansion. -/
theorem Avoids.mem_of_mem_flat (h : d.Avoids v) (hd : d.Acyclic) (hv : v ∈ d.flat hd ws) :
    v ∈ ws := by
  induction ws using hd.queue_induction with
  | nil => exact hv
  | call w body rest hb ih =>
    rw [flat_cons_of_body? hd hb] at hv
    rcases List.mem_append.mp (ih hv) with hmem | hmem
    · exact absurd hmem (h w body hb).2
    · exact List.mem_cons_of_mem w hmem
  | word w rest hb ih =>
    rw [flat_cons_of_not_defined hd hb] at hv
    rcases List.mem_cons.mp hv with rfl | hmem
    · exact List.mem_cons_self
    · exact List.mem_cons_of_mem w (ih hmem)

/-! ## Dictionaries that agree -/

/-- The dictionaries have the same names in the same order, and every word has the same full
expansion in both. -/
structure Agree (d e : Dictionary) (hd : d.Acyclic) (he : e.Acyclic) : Prop where
  names : e.names = d.names
  flatWord : ∀ w, e.flatWord he w = d.flatWord hd w

namespace Agree

variable {hd : d.Acyclic} {he : e.Acyclic}

theorem flat (h : Agree d e hd he) (ws : List Word) : e.flat he ws = d.flat hd ws :=
  List.flatMap_congr fun w _ => h.flatWord w

theorem body?_eq_none_iff (h : Agree d e hd he) : e.body? w = none ↔ d.body? w = none := by
  rw [← not_mem_names_iff, ← not_mem_names_iff, h.names]

theorem occursIn_eq (h : Agree d e hd he) : e.occursIn v ws = decide (v ∈ d.flat hd ws) := by
  rw [occursIn, expand_eq_flat he, h.flat]

/-- **A new definition keeps the agreement**, recorded with its expanded body in one dictionary and
as it was entered in the other. -/
theorem insert (h : Agree d e hd he) (hnew : d.body? v = none) (hmem : v ∉ d.flat hd ws)
    (hd' : (d.insert ⟨v, d.flat hd ws⟩).Acyclic) (he' : (e.insert ⟨v, ws⟩).Acyclic) :
    Agree (d.insert ⟨v, d.flat hd ws⟩) (e.insert ⟨v, ws⟩) hd' he' := by
  have hnew' : e.body? v = none := h.body?_eq_none_iff.mpr hnew
  have hflat : d.flat hd (d.flat hd ws) = d.flat hd ws :=
    flat_of_not_defined hd fun u hu => not_defined_of_mem_flat hd hu
  refine ⟨?_, fun w => ?_⟩
  · rw [names_insert_of_new (not_mem_names_iff.mpr hnew'),
      names_insert_of_new (not_mem_names_iff.mpr hnew), h.names]
  · rw [flatWord_insert_of_new he he' hnew' (h.flat ws ▸ hmem),
      flatWord_insert_of_new hd hd' hnew (hflat.symm ▸ hmem)]
    simp only [h.flatWord, h.flat, hflat]

/-- A definition that one refuses is refused by the other for the same cause. -/
theorem enter_of_error (h : Agree d e hd he) {words : List Word} {f : Fault}
    (hf : d.define words = .error f) : e.enter words = .error f := by
  cases words with
  | nil => exact hf
  | cons name rest =>
    rw [define, expand_eq_flat hd] at hf
    rw [enter, h.occursIn_eq]
    by_cases hnum : isNumeral name = true
    · rwa [if_pos hnum] at hf ⊢
    · rw [if_neg hnum] at hf ⊢
      by_cases hend : rest.getLast? ≠ some endMark
      · rwa [if_pos hend] at hf ⊢
      · rw [if_neg hend] at hf ⊢
        dsimp only at hf
        split at hf
        · -- a word of the full expansion is not defined, so the name is new
          rename_i hmem
          have hnew := h.body?_eq_none_iff.mpr (not_defined_of_mem_flat hd hmem)
          rw [contains_eq_false_iff.mpr hnew, decide_eq_true hmem]
          exact hf
        · cases hf

/-- A definition that one accepts is accepted by the other, which keeps the words as they were
entered. -/
theorem enter_of_ok (h : Agree d e hd he) {words : List Word} (hx : d.define words = .ok x) :
    ∃ ws, words = x.name :: (ws ++ [endMark]) ∧ x.body = d.flat hd ws ∧
      x.name ∉ d.flat hd ws ∧ e.enter words = .ok ⟨x.name, ws⟩ := by
  obtain ⟨ws, rfl, hnum, hb, hmem⟩ := define_eq_ok_iff.mp hx
  rw [expand_eq_flat hd, Except.ok.injEq] at hb
  rw [← hb] at hmem
  refine ⟨ws, rfl, hb.symm, hmem, ?_⟩
  simp [enter, hnum, h.occursIn_eq, hmem]

/-- A new definition that does not use the word `v` is recorded in both, which go on to agree and to
avoid `v`. -/
theorem insert_of_define (h : Agree d e hd he) (ha : d.Avoids v) (ha' : e.Avoids v)
    {words : List Word} (hx : d.define words = .ok x) (hnew : x.name ∉ d.names)
    (hv : v ∉ words) :
    ∃ (y : Definition) (he' : (e.insert y).Acyclic), e.enter words = .ok y ∧
      Agree (d.insert x) (e.insert y) (acyclic_insert_of_define hd hx) he' ∧
      (d.insert x).Avoids v ∧ (e.insert y).Avoids v := by
  obtain ⟨ws, rfl, hbody, hmem, hy⟩ := h.enter_of_ok hx
  obtain ⟨name, body⟩ := x
  obtain rfl : body = d.flat hd ws := hbody
  rw [List.mem_cons, List.mem_append, not_or, not_or] at hv
  obtain ⟨hname, hws, -⟩ := hv
  have hnone : d.body? name = none := not_mem_names_iff.mp hnew
  have hmem' : name ∉ e.flat he ws := by rwa [h.flat]
  have he' : (e.insert ⟨name, ws⟩).Acyclic := acyclic_insert_of_not_reaches he
    (not_reaches_of_not_mem_flat he (h.body?_eq_none_iff.mpr hnone) hmem')
  exact ⟨⟨name, ws⟩, he', hy, h.insert hnone hmem _ he',
    ha.insert (Ne.symm hname) fun hm => hws (ha.mem_of_mem_flat hd hm),
    ha'.insert (Ne.symm hname) hws⟩

end Agree

end Dictionary

end WordCalc
