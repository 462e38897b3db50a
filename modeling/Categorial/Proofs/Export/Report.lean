import Mathlib.Data.List.Nodup
import Std.Data.String.ToNat
import Categorial.Export.Report
import Categorial.Proofs.Decimal.Value
import Categorial.Proofs.Json.Numeral

/-!
# Reports in JSON

A report in JSON is read back as one object with an entry for each sentence, numbered from one. Its
numbers are scores, which are spelled as JSON numbers or named, and no object in it has a key twice.
The number of a score is a decimal that rounds to the score, so no other score has this number.

* `Export.numeralOf_scoreNumber`: what the number of a score stands for.
* `Export.decode_eq_of_scoreNumber_eq`: the score that is found again.
* `Export.legible_records`: the object of a report can be read back.
* `Export.enumerates_render`: what is read back from a report.
-/

namespace Categorial

namespace Export

open Decimal (Binary HasValue Regular RoundsTo decode sign)
open Json (Legible)

/-! ## The numbers of a report -/

/-- Whether a number is written with a minus. -/
def hasMinus : Binary → Bool
  | .notANumber => false
  | .infinite negative => negative
  | .finite negative _ _ => negative

/-- Whether the characters are a number without its sign. -/
def Unsigned (cs : List Char) : Binary → Prop
  | .notANumber => cs = "NaN".toList
  | .infinite _ => cs = "Infinity".toList
  | .finite _ m e => ∃ v, HasValue cs v ∧ RoundsTo m e v

/-- Whether a text is the numeral of a number: its name, or a decimal that rounds to it. -/
def NumeralOf (b : Binary) (text : String) : Prop :=
  ∃ cs, text = sign (hasMinus b) ++ String.ofList cs ∧ Unsigned cs b

/-- **The number of a score stands for the score.** -/
theorem numeralOf_scoreNumber (x : Float) :
    ∃ text, scoreNumber x = .number text ∧ NumeralOf (decode x) text := by
  refine ⟨_, rfl, ?_⟩
  cases h : decode x with
  | notANumber => exact ⟨_, rfl, rfl⟩
  | infinite negative => exact ⟨_, rfl, rfl⟩
  | finite negative m e =>
    obtain ⟨cs, v, htext, hvalue, hround⟩ := Decimal.roundsTo_render h
    exact ⟨cs, htext, v, hvalue, hround⟩

theorem Unsigned.head?_ne_minus {cs : List Char} {b : Binary} (h : Unsigned cs b) :
    cs.head? ≠ some '-' := by
  cases b with
  | notANumber =>
    rw [show cs = _ from h]
    decide
  | infinite negative =>
    rw [show cs = _ from h]
    decide
  | finite negative m e =>
    obtain ⟨v, hvalue, -⟩ := h
    exact hvalue.head?_ne rfl (by decide)

/-- A decimal is not a name. -/
theorem ne_names_of_hasValue {cs : List Char} {v : ℚ} (h : HasValue cs v) :
    cs ≠ "NaN".toList ∧ cs ≠ "Infinity".toList := by
  constructor
  · rintro rfl
    exact @HasValue.head?_ne _ _ h 'N' rfl (by decide) rfl
  · rintro rfl
    exact @HasValue.head?_ne _ _ h 'I' rfl (by decide) rfl

theorem Unsigned.unique {cs : List Char} {b b' : Binary} (h : Unsigned cs b)
    (h' : Unsigned cs b') (hregular : ∀ s m e, b = .finite s m e → Regular m e)
    (hregular' : ∀ s m e, b' = .finite s m e → Regular m e)
    (hsign : hasMinus b = hasMinus b') : b = b' := by
  cases b with
  | notANumber =>
    cases b' with
    | notANumber => rfl
    | infinite s => exact absurd (h.symm.trans h') (by decide)
    | finite s m e =>
      obtain ⟨v, hvalue, -⟩ := h'
      exact absurd h (ne_names_of_hasValue hvalue).1
  | infinite s =>
    cases b' with
    | notANumber => exact absurd (h'.symm.trans h) (by decide)
    | infinite s' => exact congrArg Binary.infinite hsign
    | finite s' m e =>
      obtain ⟨v, hvalue, -⟩ := h'
      exact absurd h (ne_names_of_hasValue hvalue).2
  | finite s m e =>
    obtain ⟨v, hvalue, hround⟩ := h
    cases b' with
    | notANumber => exact absurd h' (ne_names_of_hasValue hvalue).1
    | infinite s' => exact absurd h' (ne_names_of_hasValue hvalue).2
    | finite s' m' e' =>
      obtain ⟨v', hvalue', hround'⟩ := h'
      obtain rfl : v = v' := hvalue.unique hvalue'
      obtain ⟨rfl, rfl⟩ := hround.unique hround' (hregular _ _ _ rfl) (hregular' _ _ _ rfl)
      rw [show s = s' from hsign]

/-- **The number in a report determines the score.** -/
theorem decode_eq_of_scoreNumber_eq {x y : Float} (h : scoreNumber x = scoreNumber y) :
    decode x = decode y := by
  obtain ⟨text, htext, cs, rfl, hcs⟩ := numeralOf_scoreNumber x
  obtain ⟨text', htext', cs', rfl, hcs'⟩ := numeralOf_scoreNumber y
  rw [htext, htext', Json.number.injEq] at h
  obtain ⟨hsign, rfl⟩ := Decimal.sign_append_inj hcs.head?_ne_minus hcs'.head?_ne_minus h
  exact hcs.unique hcs' (fun _ _ _ => Decimal.regular_of_decode)
    (fun _ _ _ => Decimal.regular_of_decode) hsign

/-! ## The values of a report -/

theorem legible_scoreNumber (x : Float) : Legible (scoreNumber x) := by
  refine .number ?_
  cases h : Decimal.decode x with
  | notANumber =>
    show Json.IsNumeral "NaN"
    exact ⟨by decide, by rfl⟩
  | infinite negative =>
    cases negative with
    | false =>
      show Json.IsNumeral "Infinity"
      exact ⟨by decide, by rfl⟩
    | true =>
      show Json.IsNumeral "-Infinity"
      exact ⟨by decide, by rfl⟩
  | finite negative m e =>
    obtain ⟨cs, hrender, hcs⟩ := Decimal.spelled_render h
    show Json.IsNumeral (Decimal.render x)
    rw [hrender]
    exact Json.isNumeral_of_spelled hcs negative

theorem legible_components (c : Category) : Legible (components c) := by
  induction c with
  | var =>
    refine .object (by show ["variable"].Nodup; decide) ?_
    simp only [List.forall_mem_cons]
    exact ⟨.bool true, nofun⟩
  | atom a =>
    refine .object (by show ["base", "feature"].Nodup; decide) ?_
    simp only [List.forall_mem_cons]
    refine ⟨.string _, ?_, nofun⟩
    cases a.form? with
    | none => exact .null
    | some f => exact .string _
  | functor r d x ihr ihx =>
    refine .object (by show ["direction", "feature", "result", "argument"].Nodup; decide) ?_
    simp only [List.forall_mem_cons]
    exact ⟨.string _, .string _, ihr, ihx, nofun⟩

theorem legible_categoryRecord (full : Bool) (c : Category) : Legible (categoryRecord full c) := by
  cases full with
  | true => exact legible_components c
  | false => exact .string _

theorem legible_categoryMember (full : Bool) (d : Derivation) :
    Legible (categoryMember full d).2 := by
  cases h : d.category with
  | none =>
    rw [categoryMember, h]
    exact .null
  | some c =>
    rw [categoryMember, h]
    exact legible_categoryRecord full c

/-- The names in the record of a derivation are different, and none is that of the score. -/
theorem nodup_recordMembers (full : Bool) (d : Derivation) :
    ((recordMembers full d).map (·.1) ++ ["log_prob"]).Nodup := by
  cases d with
  | leaf c w =>
    rw [recordMembers]
    show ["cat", "word", "log_prob"].Nodup
    decide
  | raisedLeaf x y =>
    rw [recordMembers]
    show ["cat", "source", "word", "log_prob"].Nodup
    decide
  | raised x y child =>
    rw [recordMembers]
    show ["cat", "source", "type", "children", "log_prob"].Nodup
    decide
  | node r left right =>
    rw [recordMembers]
    show ["cat", "type", "children", "log_prob"].Nodup
    decide

theorem legible_recordMembers (full : Bool) (d : Derivation) :
    ∀ m ∈ recordMembers full d, Legible m.2 := by
  have hobject : ∀ {d : Derivation}, (∀ m ∈ recordMembers full d, Legible m.2) →
      Legible (.object (recordMembers full d)) := fun h =>
    .object (List.nodup_append.mp (nodup_recordMembers full _)).1 h
  induction d with
  | leaf c w =>
    rw [recordMembers]
    simp only [List.forall_mem_cons]
    refine ⟨legible_categoryMember full _, ?_, nofun⟩
    cases w with
    | none => exact .null
    | some w => exact .string w
  | raisedLeaf x y =>
    rw [recordMembers]
    simp only [List.forall_mem_cons]
    exact ⟨legible_categoryMember full _, legible_categoryRecord full x, .null, nofun⟩
  | raised x y child ih =>
    rw [recordMembers]
    simp only [List.forall_mem_cons]
    refine ⟨legible_categoryMember full _, legible_categoryRecord full x, .string _, ?_, nofun⟩
    exact .array (List.forall_mem_singleton.mpr (hobject ih))
  | node r left right ihl ihr =>
    rw [recordMembers]
    simp only [List.forall_mem_cons]
    refine ⟨legible_categoryMember full _, .string _, ?_, nofun⟩
    exact .array (List.forall_mem_cons.mpr
      ⟨hobject ihl, List.forall_mem_singleton.mpr (hobject ihr)⟩)

theorem legible_scoredRecord (full : Bool) (d : Scored Float) :
    Legible (scoredRecord full d) := by
  refine .object ?_ ?_
  · rw [List.map_append]
    exact nodup_recordMembers full d.derivation
  · rw [List.forall_mem_append, List.forall_mem_singleton]
    exact ⟨legible_recordMembers full d.derivation, legible_scoreNumber d.score⟩

/-- The entry of a sentence. -/
def entry (full : Bool) (ds : List (Scored Float)) : Json :=
  .array (ds.map (scoredRecord full))

theorem legible_entry (full : Bool) (ds : List (Scored Float)) : Legible (entry full ds) := by
  refine .array ?_
  rw [List.forall_mem_map]
  exact fun d _ => legible_scoredRecord full d

/-- The members of a report. -/
def numbered (full : Bool) (sentences : List (List (Scored Float))) : List (String × Json) :=
  (sentences.zipIdx 1).map fun (ds, k) => (toString k, entry full ds)

theorem keys_numbered (full : Bool) (sentences : List (List (Scored Float))) :
    (numbered full sentences).map (·.1) = (List.range' 1 sentences.length).map toString := by
  rw [numbered, List.map_map, ← List.zipIdx_map_snd 1 sentences, List.map_map]
  rfl

theorem values_numbered (full : Bool) (sentences : List (List (Scored Float))) :
    (numbered full sentences).map (·.2) = sentences.map (entry full) := by
  calc (numbered full sentences).map (·.2)
      = (sentences.zipIdx 1).map fun p => entry full p.1 := List.map_map
    _ = ((sentences.zipIdx 1).map Prod.fst).map (entry full) := by
        rw [List.map_map]
        rfl
    _ = sentences.map (entry full) := by rw [List.zipIdx_map_fst]

theorem legible_records (full : Bool) (sentences : List (List (Scored Float))) :
    Legible (records full sentences) := by
  have hkeys : ((numbered full sentences).map (·.1)).Nodup := by
    rw [keys_numbered]
    exact (List.nodup_range' 1).map fun k l h => Nat.repr_inj.mp h
  refine .object hkeys ?_
  rw [List.forall_mem_map]
  exact fun p _ => legible_entry full p.1

/-- The text is a JSON object with the given values, their keys numbered from one. -/
def Enumerates (text : String) (values : List Json) : Prop :=
  ∃ members, Json.parse text.toList = .ok (.object members) ∧
    members.map (·.1) = (List.range' 1 values.length).map toString ∧ members.map (·.2) = values

theorem enumerates_render (full : Bool) (sentences : List (List (Scored Float))) {blanks : String}
    (h : ∀ c ∈ blanks.toList, Json.Token.isGap c = true) :
    Enumerates ((records full sentences).render ++ blanks) (sentences.map (entry full)) := by
  refine ⟨numbered full sentences, ?_, ?_, values_numbered full sentences⟩
  · rw [String.toList_append]
    exact Json.parse_render_append (legible_records full sentences) h
  · rw [keys_numbered, List.length_map]

end Export

end Categorial
