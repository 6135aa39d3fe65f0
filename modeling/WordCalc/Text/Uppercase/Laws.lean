import WordCalc.Text

/-!
# Laws of upper case

A character that comes out of the upper-case mapping is its own upper case (`upper_of_mem_upper`),
so mapping a text twice is mapping it once (`upcase_upcase`). Blanks stay as they are
(`upper_of_isBlank`), and no other character becomes blank (`isBlank_of_mem_upper`).

Each law says that some of three sets of code points have nothing in common: those that change,
those that come out, and the blanks. A set is kept as the bits of a number, which makes an
intersection one operation on numbers.
-/

namespace WordCalc

/-! ## Sets of code points -/

/-- The number whose bits are set at `ns`. -/
def bitSet (ns : List Nat) : Nat :=
  ns.foldr (fun n bits => 1 <<< n ||| bits) 0

theorem testBit_bitSet {ns : List Nat} {n : Nat} : (bitSet ns).testBit n = true ↔ n ∈ ns := by
  induction ns with
  | nil =>
    simp only [bitSet, List.foldr_nil, Nat.zero_testBit, Bool.false_eq_true, List.not_mem_nil]
  | cons m ns ih =>
    change (1 <<< m ||| bitSet ns).testBit n = true ↔ _
    rw [Nat.testBit_or, Nat.one_shiftLeft, Nat.testBit_two_pow, Bool.or_eq_true, ih,
      decide_eq_true_iff, List.mem_cons, eq_comm]

/-- Two sets without a common bit have no common member. -/
theorem not_mem_of_land_eq_zero {ms ns : List Nat} (h : bitSet ms &&& bitSet ns = 0) {n : Nat}
    (hm : n ∈ ms) : n ∉ ns := by
  intro hn
  have hbit : (bitSet ms &&& bitSet ns).testBit n = true := by
    rw [Nat.testBit_and, testBit_bitSet.mpr hm, testBit_bitSet.mpr hn, Bool.and_self]
  rw [h, Nat.zero_testBit] at hbit
  cases hbit

/-! ## The sets of the table -/

/-- How far the members of a run lie from its first. -/
def CaseRun.offsets (r : CaseRun) : List Nat :=
  (List.range (r.last + 1 - r.first)).filter fun k => k % r.step = 0

/-- The code points that have another upper case. -/
def changingPoints : List Nat :=
  caseRuns.flatMap (fun r => r.offsets.map (r.first + ·)) ++ caseExpansions.map fun e => e.1

/-- The code points that a changing one becomes, and zero, which stands for what is no
character. -/
def outcomePoints : List Nat :=
  0 :: (caseRuns.flatMap (fun r => r.offsets.map (r.upper + ·)) ++
    caseExpansions.flatMap fun e => e.2)

/-- The code points of the blanks. -/
def blankPoints : List Nat :=
  blankRanges.flatMap fun r => (List.range (r.2 + 1 - r.1)).map (r.1 + ·)

theorem changing_land_outcome : bitSet changingPoints &&& bitSet outcomePoints = 0 := by
  decide +kernel

theorem blank_land_table : bitSet blankPoints &&& bitSet (changingPoints ++ outcomePoints) = 0 := by
  decide +kernel

theorem below_small_land_changing : bitSet (List.range 0x61) &&& bitSet changingPoints = 0 := by
  decide +kernel

theorem mem_blankPoints {c : Char} (h : isBlank c = true) : c.toNat ∈ blankPoints := by
  obtain ⟨r, hr, hc⟩ := List.any_eq_true.mp h
  rw [Bool.and_eq_true, decide_eq_true_iff, decide_eq_true_iff] at hc
  refine List.mem_flatMap.mpr ⟨r, hr, List.mem_map.mpr ⟨c.toNat - r.1, ?_, ?_⟩⟩
  · rw [List.mem_range]
    omega
  · omega

/-! ## What the search finds -/

theorem offset_of_image? {r : CaseRun} {n m : Nat} (h : r.image? n = some m) :
    ∃ k ∈ r.offsets, n = r.first + k ∧ m = r.upper + k := by
  unfold CaseRun.image? at h
  split at h
  · rename_i hn
    refine ⟨n - r.first, List.mem_filter.mpr ⟨List.mem_range.mpr ?_, decide_eq_true hn.2.2⟩, ?_,
      (Option.some.inj h).symm⟩
    · omega
    · omega
  · cases h

theorem mem_of_runImage? {n m : Nat} {rs : List CaseRun} (h : runImage? n rs = some m) :
    ∃ r ∈ rs, r.image? n = some m := by
  induction rs with
  | nil => cases h
  | cons r rs ih =>
    rw [runImage?] at h
    split at h
    · exact ⟨r, List.mem_cons_self, h⟩
    · obtain ⟨r', hr', h'⟩ := ih h
      exact ⟨r', List.mem_cons_of_mem r hr', h'⟩

theorem mem_of_expansion? {n : Nat} {ms : List Nat} {es : List (Nat × List Nat)}
    (h : expansion? n es = some ms) : (n, ms) ∈ es := by
  induction es with
  | nil => cases h
  | cons e es ih =>
    rw [expansion?] at h
    split at h
    · split at h
      · rename_i he
        cases h
        exact he ▸ List.mem_cons_self
      · cases h
    · exact List.mem_cons_of_mem e (ih h)

theorem toNat_ofNat_mem {m : Nat} {ms : List Nat} (h : m ∈ 0 :: ms) :
    (Char.ofNat m).toNat ∈ 0 :: ms := by
  by_cases hm : m.isValidChar
  · rw [Char.ofNat, dif_pos hm]
    exact h
  · rw [Char.ofNat, dif_neg hm]
    exact List.mem_cons_self

/-- A character changes only if the table holds it, and what it becomes is in the table too. -/
theorem upper_eq_or_mem (c : Char) :
    upper c = [c] ∨ c.toNat ∈ changingPoints ∧ ∀ u ∈ upper c, u.toNat ∈ outcomePoints := by
  unfold upper
  split
  · rename_i m h
    obtain ⟨r, hr, hm⟩ := mem_of_runImage? h
    obtain ⟨k, hk, hc, rfl⟩ := offset_of_image? hm
    refine .inr ⟨?_, fun u hu => ?_⟩
    · exact hc ▸ List.mem_append_left _
        (List.mem_flatMap.mpr ⟨r, hr, List.mem_map.mpr ⟨k, hk, rfl⟩⟩)
    · rw [List.mem_singleton.mp hu]
      exact toNat_ofNat_mem (List.mem_cons_of_mem 0 (List.mem_append_left _
        (List.mem_flatMap.mpr ⟨r, hr, List.mem_map.mpr ⟨k, hk, rfl⟩⟩)))
  · split
    · rename_i ms h
      have he := mem_of_expansion? h
      refine .inr ⟨List.mem_append_right _ (List.mem_map.mpr ⟨_, he, rfl⟩), fun u hu => ?_⟩
      obtain ⟨m, hm, rfl⟩ := List.mem_map.mp hu
      exact toNat_ofNat_mem (List.mem_cons_of_mem 0 (List.mem_append_right _
        (List.mem_flatMap.mpr ⟨_, he, hm⟩)))
    · exact .inl rfl

/-! ## The laws -/

/-- **Upper case is final**: a character that comes out of the mapping is its own upper case. -/
theorem upper_of_mem_upper {c u : Char} (h : u ∈ upper c) : upper u = [u] := by
  rcases upper_eq_or_mem c with hc | ⟨-, hout⟩
  · rw [hc, List.mem_singleton] at h
    rw [h, hc]
  · rcases upper_eq_or_mem u with hu | ⟨hu, -⟩
    · exact hu
    · exact absurd (hout u h) (not_mem_of_land_eq_zero changing_land_outcome hu)

theorem upcase_of_forall {cs : List Char} (h : ∀ c ∈ cs, upper c = [c]) : upcase cs = cs := by
  induction cs with
  | nil => rfl
  | cons c cs ih =>
    rw [upcase_cons, h c List.mem_cons_self, ih fun x hx => h x (List.mem_cons_of_mem c hx)]
    rfl

/-- A text is its own upper case if its characters are. -/
theorem upcase_eq_self_iff {cs : List Char} : upcase cs = cs ↔ ∀ c ∈ cs, upper c = [c] := by
  refine ⟨fun h c hc => ?_, upcase_of_forall⟩
  rw [← h] at hc
  obtain ⟨_, -, hu⟩ := List.mem_flatMap.mp hc
  exact upper_of_mem_upper hu

theorem upcase_upcase (cs : List Char) : upcase (upcase cs) = upcase cs :=
  upcase_of_forall fun _ hu =>
    have ⟨_, _, h⟩ := List.mem_flatMap.mp hu
    upper_of_mem_upper h

/-- A blank is its own upper case. -/
theorem upper_of_isBlank {c : Char} (h : isBlank c = true) : upper c = [c] := by
  rcases upper_eq_or_mem c with hc | ⟨hc, -⟩
  · exact hc
  · exact absurd (List.mem_append_left _ hc)
      (not_mem_of_land_eq_zero blank_land_table (mem_blankPoints h))

/-- The characters before the small letter `a` are their own upper case, the digits among them. -/
theorem upper_of_lt {c : Char} (h : c.toNat < 0x61) : upper c = [c] := by
  rcases upper_eq_or_mem c with hc | ⟨hc, -⟩
  · exact hc
  · exact absurd hc (not_mem_of_land_eq_zero below_small_land_changing (List.mem_range.mpr h))

/-- No character but a blank becomes blank. -/
theorem isBlank_of_mem_upper {c u : Char} (h : u ∈ upper c) (hu : isBlank u = true) :
    isBlank c = true := by
  rcases upper_eq_or_mem c with hc | ⟨-, hout⟩
  · rw [hc, List.mem_singleton] at h
    rwa [← h]
  · exact absurd (List.mem_append_right _ (hout u h))
      (not_mem_of_land_eq_zero blank_land_table (mem_blankPoints hu))

end WordCalc
