import Mathlib
import WordCalc.Proofs.Dictionary.Flattening
import WordCalc.Proofs.Dictionary.Order

/-!
# Rewriting until nothing changes

The expansion of a sequence of words can also be found by rounds. A round puts its body in the place
of every defined word, in all places at the same time (`rewrite`), and the rounds go on until one
changes nothing.

A round keeps the full expansion (`flat_rewrite`). In a well-formed dictionary bodies look ahead, so
after `k` rounds every name that is left stands at position `k` or beyond it
(`WellFormed.le_of_mem_rewrite`). After as many rounds as there are definitions no name is left, and
what is left is the full expansion (`WellFormed.rewrite_size`). This is where the expander, which
goes depth first, arrives as well (`rewriting_reaches_expansion`).
-/

namespace WordCalc

namespace Dictionary

/-- One round: every defined word gives way to its body, and any other word stays. -/
def rewrite (d : Dictionary) (ws : List Word) : List Word :=
  ws.flatMap fun w => (d.body? w).getD [w]

variable {d : Dictionary} {ws : List Word} {v w : Word}

/-! ## One round -/

/-- A word comes out of a round as a word that is not defined, or out of a body. -/
theorem mem_rewrite (hv : v ∈ d.rewrite ws) :
    v ∈ ws ∧ d.body? v = none ∨ ∃ w ∈ ws, d.Mentions v w := by
  obtain ⟨w, hw, hvw⟩ := List.mem_flatMap.mp hv
  cases hb : d.body? w with
  | none =>
    obtain rfl : v = w := by simpa [hb] using hvw
    exact .inl ⟨hw, hb⟩
  | some body => exact .inr ⟨w, hw, body, hb, by simpa [hb] using hvw⟩

/-- A round keeps the full expansion. -/
theorem flat_rewrite (h : d.Acyclic) (ws : List Word) : d.flat h (d.rewrite ws) = d.flat h ws := by
  induction ws with
  | nil => rfl
  | cons w ws ih =>
    rw [rewrite, List.flatMap_cons, flat_append, flat_cons]
    apply congrArg₂ (· ++ ·) _ ih
    cases hb : d.body? w with
    | none => simp [flat]
    | some body => simp [flatWord_of_body? h hb]

/-- A round changes nothing where no word is defined. -/
theorem rewrite_of_not_defined (hws : ∀ w ∈ ws, d.body? w = none) : d.rewrite ws = ws := by
  induction ws with
  | nil => rfl
  | cons w ws ih =>
    rw [List.forall_mem_cons] at hws
    have htail := ih hws.2
    rw [rewrite] at htail ⊢
    simp [hws.1, htail]

/-! ## Round after round -/

theorem flat_rewrite_iterate (h : d.Acyclic) (k : ℕ) (ws : List Word) :
    d.flat h (d.rewrite^[k] ws) = d.flat h ws := by
  induction k generalizing ws with
  | zero => rfl
  | succ k ih => rw [Function.iterate_succ_apply, ih, flat_rewrite]

/-- **After `k` rounds the first `k` names are gone**: a body brings in names behind its own. -/
theorem WellFormed.le_of_mem_rewrite (h : d.WellFormed) {k i : ℕ} {x : Definition}
    (hx : x.name ∈ d.rewrite^[k] ws) (hi : d.definitions[i]? = some x) : k ≤ i := by
  induction k generalizing i x with
  | zero => exact Nat.zero_le i
  | succ k ih =>
    rw [Function.iterate_succ_apply'] at hx
    rcases mem_rewrite hx with ⟨-, hnone⟩ | ⟨w, hw, body, hb, hmem⟩
    · rw [h.body?_of_getElem? hi] at hnone
      cases hnone
    · obtain ⟨j, hj⟩ := exists_getElem?_of_body? hb
      have hk : k ≤ j := ih hw hj
      have hji : j < i := h.looks_ahead j i _ x hj hi hmem
      omega

/-- After as many rounds as there are definitions the full expansion is reached. -/
theorem WellFormed.rewrite_size (h : d.WellFormed) (hd : d.Acyclic) (ws : List Word) :
    d.rewrite^[d.size] ws = d.flat hd ws := by
  have hdone : ∀ w ∈ d.rewrite^[d.size] ws, d.body? w = none := by
    intro w hw
    cases hb : d.body? w with
    | none => rfl
    | some body =>
      obtain ⟨i, hi⟩ := exists_getElem?_of_body? hb
      have hle : d.size ≤ i := h.le_of_mem_rewrite hw hi
      have hlt : i < d.size := (List.getElem?_eq_some_iff.mp hi).1
      omega
  calc d.rewrite^[d.size] ws = d.flat hd (d.rewrite^[d.size] ws) :=
        (flat_of_not_defined hd hdone).symm
    _ = d.flat hd ws := flat_rewrite_iterate hd d.size ws

/-- Where a round changes nothing, the full expansion is reached. -/
theorem WellFormed.eq_flat_of_rewrite_eq (h : d.WellFormed) (hd : d.Acyclic)
    (hfixed : d.rewrite ws = ws) : ws = d.flat hd ws := by
  rw [← h.rewrite_size hd, Function.iterate_fixed hfixed]

/-! ## The expander -/

/-- **Rewriting reaches the expansion.** In a recorded dictionary the expander, started with an
empty chain and nothing written, succeeds for any words. What it writes is what the words become by
rewriting them round by round until nothing changes, and this takes no more rounds than there are
definitions. -/
theorem rewriting_reaches_expansion (hd : d.Recorded) (ws : List Word) :
    ∃ (out : Array Word) (n : ℕ), d.expandOnto [] #[] ws = .ok out ∧ n ≤ d.size ∧
      d.rewrite^[n] ws = out.toList ∧ d.rewrite out.toList = out.toList ∧
      ∀ m < n, d.rewrite^[m + 1] ws ≠ d.rewrite^[m] ws := by
  have hwf := hd.wellFormed
  have hflat : d.rewrite (d.flat hd.acyclic ws) = d.flat hd.acyclic ws :=
    rewrite_of_not_defined fun v hv => not_defined_of_mem_flat hd.acyclic hv
  have hsize : d.rewrite^[d.size + 1] ws = d.rewrite^[d.size] ws := by
    rw [Function.iterate_succ_apply', hwf.rewrite_size hd.acyclic, hflat]
  -- the number of rounds before the first one that changes nothing
  have hends : ∃ n, d.rewrite^[n + 1] ws = d.rewrite^[n] ws := ⟨d.size, hsize⟩
  have hfixed := Nat.find_spec hends
  rw [Function.iterate_succ_apply'] at hfixed
  have hreached : d.rewrite^[Nat.find hends] ws = d.flat hd.acyclic ws := by
    rw [hwf.eq_flat_of_rewrite_eq hd.acyclic hfixed, flat_rewrite_iterate]
  have hexpand : d.expandOnto [] #[] ws = .ok (d.flat hd.acyclic ws).toArray := by
    have hempty : d.LeadTo ws [] := fun _ hc => absurd hc List.not_mem_nil
    have hwritten : d.expandOnto [] #[] ws = .ok (#[] ++ (d.flat hd.acyclic ws).toArray) :=
      expandOnto_eq_flat hd.acyclic hempty
    simpa using hwritten
  exact ⟨_, Nat.find hends, hexpand, Nat.find_min' hends hsize, hreached, hflat,
    fun m hm => Nat.find_min hends hm⟩

/-- Three names, each of which is defined before the one in its body. -/
def chainDictionary : Dictionary :=
  ofAttempts [["A", "B", ";"], ["B", "C", ";"], ["C", "7", ";"]]

/-- Two rounds do not reach the expansion. The name stands in two places, neither of which comes out
of the other, so the chain of the expander is free of it again when it comes to the second one. -/
theorem rewriting_reaches_expansion_of_chain :
    chainDictionary.Recorded ∧ chainDictionary.expandOnto [] #[] ["A", "A"] = .ok #["7", "7"] ∧
      (∃ n ≤ 3, chainDictionary.rewrite^[n] ["A", "A"] = ["7", "7"]) ∧
      chainDictionary.rewrite^[2] ["A", "A"] = ["C", "C"] := by
  have hd : chainDictionary.Recorded := recorded_ofAttempts _
  have hout : chainDictionary.expandOnto [] #[] ["A", "A"] = .ok #["7", "7"] := by cbv
  have hsize : chainDictionary.size = 3 := by cbv
  obtain ⟨out, n, hexpand, hn, hreached, -, -⟩ := rewriting_reaches_expansion hd ["A", "A"]
  obtain rfl : out = #["7", "7"] := Except.ok.inj (hexpand.symm.trans hout)
  exact ⟨hd, hout, ⟨n, hsize ▸ hn, hreached⟩, by cbv⟩

end Dictionary

end WordCalc
