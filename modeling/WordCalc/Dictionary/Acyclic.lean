import WordCalc.Dictionary.Record

/-!
# Acyclic dictionaries

A dictionary is acyclic when following words into the bodies they stand for always comes to an
end. Every dictionary that definitions build is acyclic (`acyclic_empty`, `acyclic_insert`,
`acyclic_insert_of_define`): the words of a new body are undefined, so the new name leads
nowhere.

The cost of a word counts it and everything it brings along: one for the word itself, and the
costs of the words of its body. Each of these is less than the cost of the word, so the cost of
the pending words bounds an evaluation.
-/

namespace WordCalc

namespace Dictionary

/-- The word `w` is defined, and its body contains `v`. -/
def Mentions (d : Dictionary) (v w : Word) : Prop :=
  ∃ body, d.body? w = some body ∧ v ∈ body

/-- No infinite path leads from word to mentioned word. -/
def Acyclic (d : Dictionary) : Prop := WellFounded d.Mentions

/-! ## Definitions keep a dictionary acyclic -/

theorem acc_of_not_defined {d : Dictionary} {w : Word} (h : d.body? w = none) :
    Acc d.Mentions w :=
  ⟨w, fun _ ⟨_, hb, _⟩ => by rw [h] at hb; cases hb⟩

theorem acyclic_empty : empty.Acyclic :=
  ⟨fun w => acc_of_not_defined (body?_empty w)⟩

/-- A definition whose body contains no defined word and not its own name keeps the dictionary
acyclic, also when it replaces an older one. -/
theorem acyclic_insert {d : Dictionary} {x : Definition} (h : d.Acyclic)
    (hx : ∀ v ∈ x.body, d.body? v = none ∧ v ≠ x.name) : (d.insert x).Acyclic := by
  have hname : Acc (d.insert x).Mentions x.name := by
    refine ⟨_, fun v ⟨body, hb, hv⟩ => acc_of_not_defined ?_⟩
    rw [body?_insert, if_pos rfl] at hb
    cases hb
    rw [body?_insert, if_neg (hx v hv).2]
    exact (hx v hv).1
  refine ⟨fun w => h.induction w fun w ih => ?_⟩
  by_cases hw : w = x.name
  · exact hw ▸ hname
  · refine ⟨_, fun v ⟨body, hb, hv⟩ => ih v ⟨body, ?_, hv⟩⟩
    rwa [body?_insert, if_neg hw] at hb

theorem acyclic_insert_of_define {d : Dictionary} {words : List Word} {x : Definition}
    (h : d.Acyclic) (hx : d.define words = .ok x) : (d.insert x).Acyclic :=
  acyclic_insert h (body_of_define hx)

/-! ## Costs -/

/-- One for the word itself, and the costs of the words it stands for. -/
def cost (d : Dictionary) (h : d.Acyclic) (w : Word) : Nat :=
  match _ : d.body? w with
  | none => 1
  | some body => body.attach.foldr (fun v n => d.cost h v.1 + n) 1
termination_by h.wrap w
decreasing_by exact ⟨body, ‹_›, v.2⟩

/-- The sum of the costs. -/
def costs (d : Dictionary) (h : d.Acyclic) (ws : List Word) : Nat :=
  ws.foldr (fun w n => d.cost h w + n) 0

@[simp]
theorem costs_nil {d : Dictionary} (h : d.Acyclic) : d.costs h [] = 0 := rfl

@[simp]
theorem costs_cons {d : Dictionary} (h : d.Acyclic) (w : Word) (ws : List Word) :
    d.costs h (w :: ws) = d.cost h w + d.costs h ws := rfl

theorem costs_append {d : Dictionary} (h : d.Acyclic) (vs ws : List Word) :
    d.costs h (vs ++ ws) = d.costs h vs + d.costs h ws := by
  induction vs with
  | nil => simp only [List.nil_append, costs_nil, Nat.zero_add]
  | cons v vs ih => rw [List.cons_append, costs_cons, costs_cons, ih, Nat.add_assoc]

theorem cost_of_not_defined {d : Dictionary} (h : d.Acyclic) {w : Word} (hw : d.body? w = none) :
    d.cost h w = 1 := by
  rw [cost]
  split
  · rfl
  · rename_i hb
    rw [hw] at hb
    cases hb

theorem cost_of_body? {d : Dictionary} (h : d.Acyclic) {w : Word} {body : List Word}
    (hw : d.body? w = some body) : d.cost h w = 1 + d.costs h body := by
  rw [cost]
  split
  · rename_i hb
    rw [hw] at hb
    cases hb
  · rename_i b hb
    obtain rfl : body = b := Option.some.inj (hw.symm.trans hb)
    rw [List.foldr_attach (f := fun w n => d.cost h w + n)]
    have shift (ws : List Word) : ws.foldr (fun w n => d.cost h w + n) 1 = 1 + d.costs h ws := by
      induction ws with
      | nil => rfl
      | cons v vs ih => rw [List.foldr_cons, ih, costs_cons]; omega
    exact shift body

theorem cost_pos {d : Dictionary} (h : d.Acyclic) (w : Word) : 0 < d.cost h w := by
  cases hb : d.body? w with
  | none => rw [cost_of_not_defined h hb]; exact Nat.one_pos
  | some body => rw [cost_of_body? h hb]; omega

/-- A body costs less than the word that stands for it. -/
theorem costs_body_lt {d : Dictionary} (h : d.Acyclic) {w : Word} {body : List Word}
    (hw : d.body? w = some body) (rest : List Word) :
    d.costs h (body ++ rest) < d.costs h (w :: rest) := by
  rw [costs_append, costs_cons, cost_of_body? h hw]
  omega

end Dictionary

end WordCalc
