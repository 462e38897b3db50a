import Categorial.Proofs.Derivation.Licence

/-!
# Derivations by cutting the sentence in two

The derivations of a sentence by plain recursion, without chart and cache: those of a single word
are its categories, those of a longer sentence are the ones above a derivation of a first part and
one of the rest, for every cut. The order is that of the cuts, then of the left parts, then of the
right ones.

* `mem_cutDerivations_iff`: the recursion finds exactly the licensed derivations.
* `nodup_cutDerivations`: it finds none of them twice, as the cut, the two parts and the rule can
  be read off a derivation.
-/

namespace Categorial

open Categorial.Derivation

/-- The derivations above one of the left and one of the right derivations. -/
def joinAll (lefts rights : List Derivation) : List Derivation :=
  lefts.flatMap fun left => rights.flatMap fun right => parents left right

/-- The derivations of a sentence by recursion over its cuts. -/
def cutDerivations (lexicon : LexicalEntries) : List String → List Derivation
  | [] => []
  | [w] => (lexicon w).eraseDups.map fun c => .leaf c (some w)
  | w :: v :: rest =>
    (List.finRange (rest.length + 1)).flatMap fun k : Fin (rest.length + 1) =>
      joinAll (cutDerivations lexicon ((w :: v :: rest).take (k + 1)))
        (cutDerivations lexicon ((w :: v :: rest).drop (k + 1)))
termination_by words => words.length
decreasing_by
  · simp only [List.length_take, List.length_cons]
    omega
  · simp only [List.length_drop, List.length_cons]
    omega

theorem mem_joinAll_iff {lefts rights : List Derivation} {p : Derivation} :
    p ∈ joinAll lefts rights ↔ ∃ left ∈ lefts, ∃ right ∈ rights, p ∈ parents left right := by
  simp only [joinAll, List.mem_flatMap]

variable {lexicon : LexicalEntries}

theorem licensed_of_mem_cutDerivations {words : List String} {d : Derivation}
    (h : d ∈ cutDerivations lexicon words) : Licensed lexicon words d := by
  fun_induction cutDerivations lexicon words generalizing d with
  | case1 => cases h
  | case2 w =>
    obtain ⟨c, hc, rfl⟩ := List.mem_map.mp h
    exact .leaf (List.mem_eraseDups.mp hc)
  | case3 w v rest ihl ihr =>
    obtain ⟨k, -, h⟩ := List.mem_flatMap.mp h
    obtain ⟨left, hleft, right, hright, hp⟩ := mem_joinAll_iff.mp h
    rw [← List.take_append_drop (k + 1) (w :: v :: rest)]
    exact (ihl k hleft).of_mem_parents (ihr k hright) hp

theorem mem_cutDerivations_of_licensed {words : List String} {d : Derivation}
    (h : Licensed lexicon words d) : d ∈ cutDerivations lexicon words := by
  induction h using Licensed.induction with
  | leaf hc =>
    rw [cutDerivations]
    exact List.mem_map.mpr ⟨_, List.mem_eraseDups.mpr hc, rfl⟩
  | @parent u v left right p hleft hright hp ihl ihr =>
    -- both parts have a word, so the place between them is a cut
    have hu := List.length_pos_iff.mpr hleft.ne_nil
    have hv := List.length_pos_iff.mpr hright.ne_nil
    have hlen : 2 ≤ (u ++ v).length := by rw [List.length_append]; omega
    generalize hwords : u ++ v = words at hlen
    match words, hlen with
    | w₁ :: w₂ :: rest, _ =>
      rw [cutDerivations]
      have hrest := congrArg List.length hwords
      simp only [List.length_append, List.length_cons] at hrest
      refine List.mem_flatMap.mpr ⟨⟨u.length - 1, by omega⟩, List.mem_finRange _, ?_⟩
      rw [Nat.sub_add_cancel hu, ← hwords, List.take_left, List.drop_left]
      exact mem_joinAll_iff.mpr ⟨left, ihl, right, ihr, hp⟩

theorem mem_cutDerivations_iff {words : List String} {d : Derivation} :
    d ∈ cutDerivations lexicon words ↔ Licensed lexicon words d :=
  ⟨licensed_of_mem_cutDerivations, mem_cutDerivations_of_licensed⟩

/-! ## Repetitions -/

theorem nodup_joinAll {lefts rights : List Derivation} (hlefts : lefts.Nodup)
    (hrights : rights.Nodup) (hplain : ∀ left ∈ lefts, left.isRaised = false) :
    (joinAll lefts rights).Nodup := by
  refine List.nodup_flatMap.mpr ⟨fun left hleft => ?_, ?_⟩
  · refine List.nodup_flatMap.mpr ⟨fun right _ => nodup_parents left right, ?_⟩
    refine hrights.imp fun {right right'} hne p hp hp' => hne ?_
    have h := joined_of_mem_parents (hplain left hleft) hp
    rw [joined_of_mem_parents (hplain left hleft) hp'] at h
    cases h
    rfl
  · refine hlefts.imp_of_mem fun {left left'} hleft hleft' hne p hp hp' => hne ?_
    obtain ⟨right, -, hp⟩ := List.mem_flatMap.mp hp
    obtain ⟨right', -, hp'⟩ := List.mem_flatMap.mp hp'
    have h := joined_of_mem_parents (hplain left hleft) hp
    rw [joined_of_mem_parents (hplain left' hleft') hp'] at h
    cases h
    rfl

theorem nodup_cutDerivations (lexicon : LexicalEntries) (words : List String) :
    (cutDerivations lexicon words).Nodup := by
  fun_induction cutDerivations lexicon words with
  | case1 => exact List.nodup_nil
  | case2 w =>
    exact (Distinct.nodup_eraseDups _).map fun c c' h => by cases h; rfl
  | case3 w v rest ihl ihr =>
    refine List.nodup_flatMap.mpr ⟨fun k _ => ?_, ?_⟩
    · exact nodup_joinAll (ihl k) (ihr k)
        fun left hleft => (licensed_of_mem_cutDerivations hleft).isRaised_eq_false
    · -- the cut is the number of words of the left part
      refine (List.nodup_finRange _).imp fun {k k'} hne p hp hp' => hne ?_
      obtain ⟨left, hleft, right, -, hp⟩ := mem_joinAll_iff.mp hp
      obtain ⟨left', hleft', right', -, hp'⟩ := mem_joinAll_iff.mp hp'
      have hl := licensed_of_mem_cutDerivations hleft
      have hl' := licensed_of_mem_cutDerivations hleft'
      have h := joined_of_mem_parents hl.isRaised_eq_false hp
      rw [joined_of_mem_parents hl'.isRaised_eq_false hp'] at h
      cases h
      have hlen := congrArg List.length (hl.words_unique hl')
      simp only [List.length_take, List.length_cons] at hlen
      omega

end Categorial
