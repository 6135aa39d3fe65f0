import Mathlib.Logic.Relation
import Mathlib.Order.RelClasses
import WordCalc.Dictionary.Acyclic

/-!
# Flattening

In an acyclic dictionary every word has a full expansion: the word itself when it is not defined,
and otherwise the full expansions of the words of its body, one after the other. `flat` computes
it for a sequence of words by recursion along the dictionary, without a chain and without a
fault. The expander of `Dictionary.expand` never meets a word of its chain there, so it always
succeeds and returns the same words (`expand_eq_flat`).

Flattening goes word by word (`flat_append`), which is what makes it easier to reason about than
the expander.
-/

namespace WordCalc

namespace Dictionary

variable {d : Dictionary}

/-- A path of mentions in an acyclic dictionary never returns to its start. -/
theorem Acyclic.not_transGen_self (h : d.Acyclic) (w : Word) :
    ¬ Relation.TransGen d.Mentions w w := by
  intro cycle
  exact h.transGen.asymmetric w w cycle cycle

/-! ## The full expansion of a word and of a sequence of words -/

/-- The full expansion of a word. -/
def flatWord (d : Dictionary) (h : d.Acyclic) (w : Word) : List Word :=
  match _ : d.body? w with
  | none => [w]
  | some body => body.attach.flatMap fun v => d.flatWord h v.1
termination_by h.wrap w
decreasing_by exact ⟨body, ‹_›, v.2⟩

/-- The full expansion of a sequence of words. -/
def flat (d : Dictionary) (h : d.Acyclic) (ws : List Word) : List Word :=
  ws.flatMap (d.flatWord h)

@[simp] theorem flat_nil (h : d.Acyclic) : d.flat h [] = [] := rfl

theorem flat_cons (h : d.Acyclic) (w : Word) (ws : List Word) :
    d.flat h (w :: ws) = d.flatWord h w ++ d.flat h ws := List.flatMap_cons

theorem flat_append (h : d.Acyclic) (vs ws : List Word) :
    d.flat h (vs ++ ws) = d.flat h vs ++ d.flat h ws := List.flatMap_append

theorem flatWord_of_not_defined (h : d.Acyclic) {w : Word} (hw : d.body? w = none) :
    d.flatWord h w = [w] := by
  rw [flatWord]
  split
  · rfl
  · simp_all only [reduceCtorEq]

theorem flatWord_of_body? (h : d.Acyclic) {w : Word} {body : List Word}
    (hw : d.body? w = some body) : d.flatWord h w = d.flat h body := by
  rw [flatWord]
  split
  · simp_all only [reduceCtorEq]
  · rename_i b hb
    obtain rfl : body = b := Option.some.inj (hw.symm.trans hb)
    calc body.attach.flatMap (fun v => d.flatWord h v.1)
        = (body.attach.map Subtype.val).flatMap (d.flatWord h) := by rw [List.flatMap_map]
      _ = d.flat h body := by rw [List.attach_map_subtype_val, flat]

/-- A word that is not defined stays. -/
theorem flat_cons_of_not_defined (h : d.Acyclic) {w : Word} (hw : d.body? w = none)
    (ws : List Word) : d.flat h (w :: ws) = w :: d.flat h ws := by
  rw [flat_cons, flatWord_of_not_defined h hw, List.singleton_append]

/-- Putting the body of a defined word in its place does not change the full expansion. -/
theorem flat_cons_of_body? (h : d.Acyclic) {w : Word} {body : List Word}
    (hw : d.body? w = some body) (ws : List Word) :
    d.flat h (w :: ws) = d.flat h (body ++ ws) := by
  rw [flat_cons, flatWord_of_body? h hw, flat_append]

theorem flat_of_not_defined (h : d.Acyclic) {ws : List Word} (hws : ∀ w ∈ ws, d.body? w = none) :
    d.flat h ws = ws := by
  induction ws with
  | nil => rfl
  | cons w ws ih =>
    rw [flat_cons_of_not_defined h (hws w List.mem_cons_self),
      ih fun v hv => hws v (List.mem_cons_of_mem w hv)]

theorem mem_flat {h : d.Acyclic} {ws : List Word} {v : Word} :
    v ∈ d.flat h ws ↔ ∃ w ∈ ws, v ∈ d.flatWord h w := List.mem_flatMap

/-! ## Induction along the expansion -/

/-- Induction on the pending words of a line: a defined word gives way to its body, any other word
is done. -/
theorem Acyclic.queue_induction (h : d.Acyclic) {motive : List Word → Prop} (nil : motive [])
    (call : ∀ (w : Word) (body rest : List Word), d.body? w = some body →
      motive (body ++ rest) → motive (w :: rest))
    (word : ∀ (w : Word) (rest : List Word), d.body? w = none → motive rest → motive (w :: rest))
    (ws : List Word) : motive ws := by
  induction hn : d.costs h ws using Nat.strongRecOn generalizing ws with
  | ind n ih =>
    cases ws with
    | nil => exact nil
    | cons w rest =>
      cases hb : d.body? w with
      | some body =>
        have hlt := costs_body_lt h hb rest
        exact call w body rest hb (ih _ (hn ▸ hlt) _ rfl)
      | none =>
        have hlt : d.costs h rest < d.costs h (w :: rest) := by
          rw [costs_cons]
          have := cost_pos h w
          omega
        exact word w rest hb (ih _ (hn ▸ hlt) _ rfl)

/-! ## Conditions that bodies inherit -/

/-- A defined word that satisfies `P` hands the condition down to the words of its body. -/
def Inherits (d : Dictionary) (P : Word → Prop) : Prop :=
  ∀ w body, d.body? w = some body → P w → ∀ v ∈ body, P v

/-- A queue of words with an inherited condition stays one when its head gives way to its body. -/
theorem Inherits.call {P : Word → Prop} (hP : d.Inherits P) {w : Word} {body rest : List Word}
    (hb : d.body? w = some body) (hws : ∀ v ∈ w :: rest, P v) : ∀ v ∈ body ++ rest, P v := by
  rw [List.forall_mem_cons] at hws
  exact List.forall_mem_append.mpr ⟨hP w body hb hws.1, hws.2⟩

/-- An inherited condition carries over to the full expansion. -/
theorem Inherits.flat {P : Word → Prop} (hP : d.Inherits P) (h : d.Acyclic) {ws : List Word}
    (hws : ∀ w ∈ ws, P w) : ∀ v ∈ d.flat h ws, P v := by
  induction ws using h.queue_induction with
  | nil => exact hws
  | call w body rest hb ih =>
    rw [flat_cons_of_body? h hb]
    exact ih (hP.call hb hws)
  | word w rest hb ih =>
    rw [flat_cons_of_not_defined h hb]
    rw [List.forall_mem_cons] at hws ⊢
    exact ⟨hws.1, ih hws.2⟩

/-! ## The expander computes it -/

/-- Every word of `ws` leads to every word of `chain`. -/
def LeadTo (d : Dictionary) (ws chain : List Word) : Prop :=
  ∀ c ∈ chain, ∀ w ∈ ws, Relation.TransGen d.Mentions w c

section LeadTo

variable {w : Word} {body ws chain : List Word}

theorem LeadTo.tail (hc : d.LeadTo (w :: ws) chain) : d.LeadTo ws chain :=
  fun c hcc v hv => hc c hcc v (List.mem_cons_of_mem w hv)

/-- The words of a body lead to its word, and on to every word that this one leads to. -/
theorem LeadTo.into_body (hc : d.LeadTo (w :: ws) chain) (hw : d.body? w = some body) :
    d.LeadTo body (w :: chain) := by
  intro c hcc v hv
  have hvw : d.Mentions v w := ⟨body, hw, hv⟩
  rcases List.mem_cons.mp hcc with rfl | hcc
  · exact .single hvw
  · exact .head hvw (hc c hcc w List.mem_cons_self)

end LeadTo

/-- The expander started inside the bodies of `chain`: as long as every word that is still to be
expanded leads to every word of the chain, no word of the chain comes up again. -/
theorem expandOnto_eq_flat (h : d.Acyclic) {chain : List Word} {out : Array Word}
    {ws : List Word} (hc : d.LeadTo ws chain) :
    d.expandOnto chain out ws = .ok (out ++ (d.flat h ws).toArray) := by
  fun_induction expandOnto d chain out ws with
  | case1 chain out => simp
  | case2 chain out w ws hw ih =>
    rw [ih hc.tail, flat_cons_of_not_defined h hw]
    simp
  | case3 chain out w ws body hw hmem =>
    -- the word would lead to itself
    exact absurd (hc w hmem w List.mem_cons_self) (h.not_transGen_self w)
  | case4 chain out w ws body hw hmem f hf ih =>
    have hbody := ih (hc.into_body hw)
    rw [hf] at hbody
    cases hbody
  | case5 chain out w ws body hw hmem out' ho ihb ihw =>
    have hbody := ihb (hc.into_body hw)
    rw [ho] at hbody
    obtain rfl := Except.ok.inj hbody
    rw [ihw hc.tail, flat_cons, flatWord_of_body? h hw]
    simp

/-- **In an acyclic dictionary every sequence of words has an expansion**, and it is the full
expansion. -/
theorem expand_eq_flat (h : d.Acyclic) (ws : List Word) : d.expand ws = .ok (d.flat h ws) := by
  rw [expand, expandOnto_eq_flat h fun _ hc => absurd hc List.not_mem_nil]
  simp

/-- No word of a full expansion is defined. -/
theorem not_defined_of_mem_flat (h : d.Acyclic) {ws : List Word} {v : Word}
    (hv : v ∈ d.flat h ws) : d.body? v = none :=
  not_defined_of_expand (expand_eq_flat h ws) v hv

theorem not_mem_names_of_mem_flat (h : d.Acyclic) {ws : List Word} {v : Word}
    (hv : v ∈ d.flat h ws) : v ∉ d.names :=
  not_mem_names_iff.mpr (not_defined_of_mem_flat h hv)

end Dictionary

end WordCalc
