import WordCalc.Dictionary.Basic
import WordCalc.Event

/-!
# Expansion

The expansion of a sequence of words replaces each defined word by its body, and the words of
that body in turn, until no defined word is left (`not_defined_of_expand`). A word that would be
replaced inside its own expansion has none; the definitions that are being expanded form a chain,
and a word of the chain that comes up again is reported.
-/

namespace WordCalc

namespace Dictionary

/-- The names that an expansion inside `chain` may still enter. -/
def openNames (d : Dictionary) (chain : List Word) : List Word :=
  d.names.filter fun n => n ∉ chain

theorem length_openNames_lt {d : Dictionary} {chain : List Word} {w : Word}
    (hw : w ∈ d.names) (hc : w ∉ chain) :
    (d.openNames (w :: chain)).length < (d.openNames chain).length := by
  have split : d.openNames (w :: chain) = (d.openNames chain).filter fun n => n ≠ w := by
    simp only [openNames, List.filter_filter, List.mem_cons, not_or, Bool.decide_and]
  rw [split, List.length_filter_lt_length_iff_exists]
  exact ⟨w, List.mem_filter.mpr ⟨hw, by simpa using hc⟩, by simp⟩

/-- Writes the expansion of the words at the end of `out`. The words of `chain` are those whose
bodies are being expanded. -/
def expandOnto (d : Dictionary) (chain : List Word) (out : Array Word) :
    List Word → Except Fault (Array Word)
  | [] => .ok out
  | w :: ws =>
    match _ : d.body? w with
    | none => d.expandOnto chain (out.push w) ws
    | some body =>
      if _ : w ∈ chain then .error (.cyclicDefinition w)
      else
        match d.expandOnto (w :: chain) out body with
        | .error f => .error f
        | .ok out => d.expandOnto chain out ws
termination_by ws => ((d.openNames chain).length, ws.length)
decreasing_by
  · exact .right _ (Nat.lt_succ_self _)
  · exact .left _ _ (length_openNames_lt (mem_names_of_body? ‹_›) ‹_›)
  · exact .right _ (Nat.lt_succ_self _)

/-- The expansion of a sequence of words. -/
def expand (d : Dictionary) (ws : List Word) : Except Fault (List Word) :=
  match d.expandOnto [] #[] ws with
  | .ok out => .ok out.toList
  | .error f => .error f

theorem not_defined_of_expandOnto {d : Dictionary} {chain : List Word} {out res : Array Word}
    {ws : List Word} (hout : ∀ v ∈ out, d.body? v = none)
    (h : d.expandOnto chain out ws = .ok res) : ∀ v ∈ res, d.body? v = none := by
  fun_induction expandOnto d chain out ws generalizing res with
  | case1 => cases h; exact hout
  | case2 chain out w ws hw ih =>
    refine ih (fun v hv => ?_) h
    rcases Array.mem_push.mp hv with hv | rfl
    · exact hout v hv
    · exact hw
  | case3 => cases h
  | case4 => cases h
  | case5 chain out w ws body hw hc out' hb ihb ihw => exact ihw (ihb hout hb) h

/-- **An expansion is final**: none of its words is defined. -/
theorem not_defined_of_expand {d : Dictionary} {ws res : List Word} (h : d.expand ws = .ok res) :
    ∀ v ∈ res, d.body? v = none := by
  unfold expand at h
  split at h
  · rename_i out ho
    cases h
    intro v hv
    exact not_defined_of_expandOnto (by simp) ho v (Array.mem_toList_iff.mp hv)
  · cases h

end Dictionary

end WordCalc
