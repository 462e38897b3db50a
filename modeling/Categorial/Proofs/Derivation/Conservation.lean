import Mathlib.Algebra.BigOperators.Group.List.Basic
import Mathlib.Algebra.Ring.Int.Defs
import Categorial.Proofs.Chart.Filling
import Categorial.Proofs.Grammar.Absorption

/-!
# What derivations conserve

Over a lexicon of closed categories every join is an absorption, so the category of a derivation is
assembled from those of its leaves by absorptions, in whatever order the sides allow (`Assembled`).
What an absorption keeps is then kept from the words up to the whole sentence.

* `Licensed.assembled`: the category of a derivation is assembled from the categories of its leaves.
* `signedCount_conserved`: no atom is lost, invented or used twice in any cell of the chart.
* `categories_bounded`: the categories in the chart are bounded by those of the words.
-/

namespace Categorial

open Category

/-! ## Assembling a category -/

/-- The category is what absorptions leave of closed categories, taken in any order. -/
inductive Assembled : List Category → Category → Prop
  | single {c : Category} (hc : c.hasVariable = false) : Assembled [c] c
  | absorb {us vs ws : List Category} {f x c : Category} (hf : Assembled us f)
      (hx : Assembled vs x) (h : Absorbs f x c) (hws : ws.Perm (us ++ vs)) : Assembled ws c

namespace Assembled

variable {ws : List Category} {c : Category}

theorem hasVariable_eq_false (h : Assembled ws c) : c.hasVariable = false := by
  induction h with
  | single hc => exact hc
  | absorb _ _ h _ ihf ihx => exact h.hasVariable_eq_false ihf ihx

theorem signedCount_eq (h : Assembled ws c) (a : Atom) :
    c.signedCount a = (ws.map (signedCount a)).sum := by
  induction h with
  | single => simp
  | absorb _ _ h hws ihf ihx =>
    rw [(hws.map _).sum_eq, List.map_append, List.sum_append, ← ihf, ← ihx, h.signedCount_eq]

theorem arity_le (h : Assembled ws c) : ∃ l ∈ ws, c.arity ≤ l.arity := by
  induction h with
  | single => exact ⟨_, List.mem_singleton_self _, Nat.le_refl _⟩
  | absorb _ _ h hws ihf _ =>
    obtain ⟨l, hl, hle⟩ := ihf
    exact ⟨l, hws.mem_iff.mpr (List.mem_append_left _ hl), Nat.le_trans h.arity_le hle⟩

theorem mem_spineArguments (h : Assembled ws c) {y : Category} (hy : y ∈ c.spineArguments) :
    ∃ l ∈ ws, y ∈ l.spineArguments := by
  induction h with
  | single => exact ⟨_, List.mem_singleton_self _, hy⟩
  | absorb _ _ h hws ihf ihx =>
    rcases h.mem_spineArguments hy with hy | hy
    · obtain ⟨l, hl, hly⟩ := ihf hy
      exact ⟨l, hws.mem_iff.mpr (List.mem_append_left _ hl), hly⟩
    · obtain ⟨l, hl, hly⟩ := ihx hy
      exact ⟨l, hws.mem_iff.mpr (List.mem_append_right _ hl), hly⟩

theorem innermost?_eq (h : Assembled ws c) : ∃ l ∈ ws, c.innermost? = l.innermost? := by
  induction h with
  | single => exact ⟨_, List.mem_singleton_self _, rfl⟩
  | absorb _ _ h hws ihf _ =>
    obtain ⟨l, hl, heq⟩ := ihf
    exact ⟨l, hws.mem_iff.mpr (List.mem_append_left _ hl), h.innermost?_eq.trans heq⟩

end Assembled

/-! ## Assembling a derivation -/

namespace Derivation

/-- The category of a derivation is assembled from the categories of its leaves. -/
structure AssembledFromLeaves (d : Derivation) (c : Category) (cs : List Category) : Prop where
  category_eq : d.category = some c
  leaves_eq : d.leaves.map category = cs.map some
  assembled : Assembled cs c

theorem AssembledFromLeaves.parent {left right p : Derivation} {x y : Category}
    {us vs : List Category} (hleft : left.AssembledFromLeaves x us)
    (hright : right.AssembledFromLeaves y vs) (hp : p ∈ parents left right) :
    ∃ c, p.AssembledFromLeaves c (us ++ vs) := by
  have hleaves : p.leaves.map category = (us ++ vs).map some := by
    rw [leaves_of_mem_parents hp, List.map_append, List.map_append, hleft.leaves_eq,
      hright.leaves_eq]
  obtain ⟨x', y', hx, hy, j, hj, rfl⟩ := mem_parents_iff.mp hp
  obtain rfl : x' = x := Option.some.inj (hx.symm.trans hleft.category_eq)
  obtain rfl : y' = y := Option.some.inj (hy.symm.trans hright.category_eq)
  obtain ⟨c, hc⟩ := Option.isSome_iff_exists.mp hj
  have hus := hleft.assembled
  have hvs := hright.assembled
  have habsorbs : Absorbs x' y' c ∨ Absorbs y' x' c := by
    cases j with
    | rule r => exact absorbs_of_combine hus.hasVariable_eq_false hvs.hasVariable_eq_false hc
    | raising =>
      obtain ⟨z, hraise, hcompose⟩ := Option.bind_eq_some_iff.mp hc
      exact .inr (absorbs_of_raise hraise hcompose)
  have hassembled : Assembled (us ++ vs) c := by
    rcases habsorbs with h | h
    · exact .absorb hus hvs h (List.Perm.refl _)
    · exact .absorb hvs hus h List.perm_append_comm
  exact ⟨c, (j.category_above hx hy).trans hc, hleaves, hassembled⟩

variable {lexicon : LexicalEntries}

theorem Licensed.assembled (hclosed : ∀ w, ∀ c ∈ lexicon w, c.hasVariable = false)
    {u : List String} {d : Derivation} (h : Licensed lexicon u d) :
    ∃ c cs, d.AssembledFromLeaves c cs := by
  induction h using Licensed.induction with
  | @leaf w c hc => exact ⟨c, [c], rfl, rfl, .single (hclosed w c hc)⟩
  | parent _ _ hp ihl ihr =>
    obtain ⟨x, us, hleft⟩ := ihl
    obtain ⟨y, vs, hright⟩ := ihr
    obtain ⟨c, hc⟩ := hleft.parent hright hp
    exact ⟨c, us ++ vs, hc⟩

end Derivation

/-! ## The chart -/

open Categorial.Derivation

/-- The lexicon of a transitive verb, in which every other word is a noun phrase. -/
def verbAndNounPhrases (verb : String) : LexicalEntries := fun w =>
  if w = verb then [forward (backward s np) np] else [np]

theorem verbAndNounPhrases_closed (verb : String) :
    ∀ w, ∀ c ∈ verbAndNounPhrases verb w, c.hasVariable = false := by
  intro w
  unfold verbAndNounPhrases
  split <;> decide

/-- A noun phrase in front of the verb, raised to compose with it. -/
def raisedSubject (subject verb : String) : Derivation :=
  .node .forwardCompose
    (.raised np (forward (backward s np) np) (.leaf np (some subject)))
    (.leaf (forward (backward s np) np) (some verb))

theorem raisedSubject_mem_cell {subject verb : String} (h : subject ≠ verb)
    (rest : List String) :
    raisedSubject subject verb ∈
      (Chart.ofSentence (verbAndNounPhrases verb) (subject :: verb :: rest)).cell (0, 2) := by
  have hsubject : np ∈ verbAndNounPhrases verb subject := by simp [verbAndNounPhrases, h]
  have hverb : forward (backward s np) np ∈ verbAndNounPhrases verb verb := by
    simp [verbAndNounPhrases]
  have hlicensed : Licensed (verbAndNounPhrases verb) [subject, verb]
      (raisedSubject subject verb) :=
    .raised (.leaf hsubject) (.leaf hverb) rfl rfl rfl rfl
  refine (Chart.mem_cell_iff Nat.zero_lt_two ?_).mpr hlicensed
  exact Nat.le_add_left 2 rest.length

/-- **No argument is lost, invented or duplicated.** Over a lexicon of closed categories, the signed
count of every atom in the category of a derivation in any cell of the chart is the sum of its
signed counts in the categories of the leaves. -/
theorem signedCount_conserved {lexicon : LexicalEntries}
    (hclosed : ∀ w, ∀ c ∈ lexicon w, c.hasVariable = false) (words : List String)
    (span : Span) {d : Derivation} (hd : d ∈ (Chart.ofSentence lexicon words).cell span) :
    ∃ (c : Category) (cs : List Category), d.category = some c ∧
      d.leaves.map category = cs.map some ∧
      ∀ a : Atom, c.signedCount a = (cs.map (signedCount a)).sum := by
  obtain ⟨c, cs, hcategory, hleaves, h⟩ := (Chart.licensed_of_mem_cell hd).assembled hclosed
  exact ⟨c, cs, hcategory, hleaves, h.signedCount_eq⟩

theorem signedCount_conserved_raisedSubject :
    (∀ w, ∀ c ∈ verbAndNounPhrases "saw" w, c.hasVariable = false) ∧
      raisedSubject "they" "saw" ∈
        (Chart.ofSentence (verbAndNounPhrases "saw") ["they", "saw", "us"]).cell (0, 2) ∧
      ∃ (c : Category) (cs : List Category), (raisedSubject "they" "saw").category = some c ∧
        (raisedSubject "they" "saw").leaves.map category = cs.map some ∧
        ∀ a : Atom, c.signedCount a = (cs.map (signedCount a)).sum := by
  have hclosed := verbAndNounPhrases_closed "saw"
  have hmem := raisedSubject_mem_cell (show "they" ≠ "saw" by decide) ["us"]
  exact ⟨hclosed, hmem, signedCount_conserved hclosed _ _ hmem⟩

/-- **The categories of a chart are bounded by the lexicon.** Over a lexicon of closed categories,
the category of a derivation in any cell of the chart is closed, takes no more arguments than that
of some leaf, has only arguments that leaves have, and comes down to the atom to which that of some
leaf comes down. -/
theorem categories_bounded {lexicon : LexicalEntries}
    (hclosed : ∀ w, ∀ c ∈ lexicon w, c.hasVariable = false) (words : List String)
    (span : Span) {d : Derivation} (hd : d ∈ (Chart.ofSentence lexicon words).cell span) :
    ∃ (c : Category) (cs : List Category), d.category = some c ∧
      d.leaves.map category = cs.map some ∧ c.hasVariable = false ∧
      (∃ l ∈ cs, c.arity ≤ l.arity) ∧ (∀ x ∈ c.spineArguments, ∃ l ∈ cs, x ∈ l.spineArguments) ∧
      ∃ a, c.innermost? = some a ∧ ∃ l ∈ cs, l.innermost? = some a := by
  obtain ⟨c, cs, hcategory, hleaves, h⟩ := (Chart.licensed_of_mem_cell hd).assembled hclosed
  obtain ⟨a, ha⟩ := Option.isSome_iff_exists.mp (innermost?_isSome h.hasVariable_eq_false)
  obtain ⟨l, hl, heq⟩ := h.innermost?_eq
  exact ⟨c, cs, hcategory, hleaves, h.hasVariable_eq_false, h.arity_le,
    fun _ => h.mem_spineArguments, a, ha, l, hl, heq.symm.trans ha⟩

theorem categories_bounded_raisedSubject :
    (∀ w, ∀ c ∈ verbAndNounPhrases "saw" w, c.hasVariable = false) ∧
      raisedSubject "they" "saw" ∈
        (Chart.ofSentence (verbAndNounPhrases "saw") ["they", "saw", "us"]).cell (0, 2) ∧
      ∃ (c : Category) (cs : List Category), (raisedSubject "they" "saw").category = some c ∧
        (raisedSubject "they" "saw").leaves.map category = cs.map some ∧
        c.hasVariable = false ∧ (∃ l ∈ cs, c.arity ≤ l.arity) ∧
        (∀ x ∈ c.spineArguments, ∃ l ∈ cs, x ∈ l.spineArguments) ∧
        ∃ a, c.innermost? = some a ∧ ∃ l ∈ cs, l.innermost? = some a := by
  have hclosed := verbAndNounPhrases_closed "saw"
  have hmem := raisedSubject_mem_cell (show "they" ≠ "saw" by decide) ["us"]
  exact ⟨hclosed, hmem, categories_bounded hclosed _ _ hmem⟩

end Categorial
