import Categorial.Proofs.Category.Reading

/-!
# Reading back what has been written

The bare infinitive and the subjunctive are written alike, and the common text is read as the
subjunctive. Apart from that a category can be read back from its written form: that form is a text
of the category in the grammar of `Notation.Derives`, with a bracket around every functor that
stands inside another one, so the reader need not be followed again.

* `Category.render_eq_iff`: two categories are written alike exactly if they differ in nothing but
  these two forms.
* `Category.parse_render`: reading, writing and reading again.
-/

namespace Categorial

/-! ## Forms that are written alike -/

/-- The form that is read where the given one has been written. -/
def ClauseForm.asRead : ClauseForm → ClauseForm
  | bareInfinitive => subjunctive
  | f => f

/-- The atom with the subjunctive for the bare infinitive. -/
def Atom.asRead : Atom → Atom
  | bare b => bare b
  | clause f => clause f.asRead

/-- The category with the subjunctive for every bare infinitive. -/
def Category.asRead : Category → Category
  | var => var
  | atom a => atom a.asRead
  | functor r d x => functor r.asRead d x.asRead

/-- Whether the bare infinitive occurs in the category. -/
def Category.hasBareInfinitive : Category → Bool
  | var => false
  | atom a => a = .clause .bareInfinitive
  | functor r _ x => r.hasBareInfinitive || x.hasBareInfinitive

namespace ClauseForm

theorem asRead_ne (f : ClauseForm) : f.asRead ≠ bareInfinitive := by
  cases f <;> decide

theorem symbol_asRead (f : ClauseForm) : f.asRead.symbol = f.symbol := by
  cases f <;> rfl

theorem asRead_eq_self_iff {f : ClauseForm} : f.asRead = f ↔ f ≠ bareInfinitive := by
  cases f <;> decide

end ClauseForm

theorem Atom.render_asRead (a : Atom) : a.asRead.render = a.render := by
  cases a with
  | bare b => rfl
  | clause f => simp only [asRead, render, renderFeature, f.symbol_asRead]

namespace Category

theorem asRead_eq_self_iff {c : Category} : c.asRead = c ↔ c.hasBareInfinitive = false := by
  induction c with
  | var => simp [asRead, hasBareInfinitive]
  | atom a =>
    cases a with
    | bare b => simp [asRead, Atom.asRead, hasBareInfinitive]
    | clause f => simp [asRead, Atom.asRead, hasBareInfinitive, ClauseForm.asRead_eq_self_iff]
  | functor r d x ihr ihx =>
    simp only [asRead, hasBareInfinitive, functor.injEq, true_and, Bool.or_eq_false_iff, ihr, ihx]

theorem isFunctor_asRead (c : Category) : c.asRead.isFunctor = c.isFunctor := by
  cases c <;> rfl

theorem render_asRead (c : Category) : c.asRead.render = c.render := by
  induction c with
  | var => rfl
  | atom a => exact a.render_asRead
  | functor r d x ihr ihx =>
    simp only [asRead, render_functor, bracket, isFunctor_asRead, ihr, ihx]

end Category

/-! ## The written form as a text of the grammar -/

namespace Notation

theorem slashSign_symbol (d : Direction) : ∃ a, d.symbol.toList = [a] ∧ SlashSign a d := by
  cases d with
  | forward => exact ⟨'/', rfl, .forward⟩
  | backward => exact ⟨'\\', rfl, .backward⟩

theorem modalitySign_symbol (m : Modality) : ModalitySign m.symbol.toList m := by
  cases m with
  | applicationOnly => exact .star
  | orderPreserving => exact .diamond
  | permutationLimiting => exact .times
  | permissive => exact .bare
  | raising => exact .italicI

theorem atomSign_render (a : Atom) : AtomSign a.render.toList (.atom a.asRead) := by
  cases a with
  | bare b => exact .symbol b
  | clause f =>
    have htext : (Atom.clause f).render.toList =
        'S' :: '[' :: (f.asRead.symbol.toList ++ [']']) := by
      rw [f.symbol_asRead]
      simp [Atom.render, renderFeature, Primitive.symbol]
    rw [htext]
    exact .clause f.asRead f.asRead_ne

/-- A functor between terms for its result and its argument. -/
theorem derives_render_functor {r x : Category} (d : Slash)
    (hr : Derives .term (r.bracket r.render).toList r.asRead)
    (hx : Derives .term (x.bracket x.render).toList x.asRead) :
    Derives .expression (Category.functor r d x).render.toList
      (Category.functor r d x).asRead := by
  obtain ⟨a, hsymbol, ha⟩ := slashSign_symbol d.direction
  have htext : (Category.functor r d x).render.toList =
      (r.bracket r.render).toList ++
        ([] ++ a :: (d.modality.symbol.toList ++ (x.bracket x.render).toList)) := by
    rw [Category.render_functor, Slash.render]
    simp [hsymbol]
  rw [htext]
  exact .functor (.single hr) blanks_nil ha (modalitySign_symbol d.modality) hx

/-- What stands inside another category is written as a term: a functor because of its brackets. -/
theorem derives_bracket (c : Category) :
    Derives .term (c.bracket c.render).toList c.asRead := by
  induction c with
  | var => exact .atom blanks_nil .var
  | atom a => exact .atom blanks_nil (atomSign_render a)
  | functor r d x ihr ihx =>
    have htext : ((Category.functor r d x).bracket (Category.functor r d x).render).toList =
        [] ++ '(' :: ((Category.functor r d x).render.toList ++ ([] ++ [')'])) := by
      simp [Category.bracket, Category.isFunctor]
    rw [htext]
    exact .group blanks_nil (derives_render_functor d ihr ihx) blanks_nil

theorem denotes_render (c : Category) : Denotes c.render.toList c.asRead := by
  refine ⟨c.render.toList, [], (List.append_nil _).symm, ?_, blanks_nil⟩
  cases c with
  | functor r d x => exact derives_render_functor d (derives_bracket r) (derives_bracket x)
  | var => exact .single (derives_bracket .var)
  | atom a => exact .single (derives_bracket (.atom a))

theorem hasBareInfinitive_of_derives {level : Level} {t : List Char} {c : Category}
    (h : Derives level t c) : c.hasBareInfinitive = false := by
  induction h with
  | single _ ih | group _ _ _ ih => exact ih
  | functor _ _ _ _ _ ihr ihx => rw [Category.hasBareInfinitive, ihr, ihx, Bool.or_false]
  | atom _ ht =>
    cases ht with
    | var | symbol => rfl
    | clause f hf => simpa [Category.hasBareInfinitive] using hf

end Notation

/-! ## Reading back -/

namespace Category

open Notation

theorem parse_render_eq (c : Category) : parse c.render = .ok c.asRead := by
  rw [parse, read_of_denotes (denotes_render c)]

theorem hasBareInfinitive_of_parse {text : String} {c : Category} (h : parse text = .ok c) :
    c.hasBareInfinitive = false := by
  have hread : Reading.read text.toList = .ok c := by
    rw [parse] at h
    split at h <;> cases h
    assumption
  obtain ⟨t, s, -, ht, -⟩ := denotes_of_read hread
  exact hasBareInfinitive_of_derives ht

theorem render_eq_iff {c c' : Category} : c.render = c'.render ↔ c.asRead = c'.asRead := by
  constructor
  · intro h
    have hparse := parse_render_eq c
    rw [h, parse_render_eq c'] at hparse
    exact (Except.ok.inj hparse).symm
  · intro h
    rw [← render_asRead c, h, render_asRead]

example : (backward (atom (.clause .bareInfinitive)) np).render = "S[b]\\NP" := by decide

/-- **Categories are read back.** The written form of a category is read as this category with the
subjunctive for every bare infinitive, so as the category itself exactly if there is none. Two
categories are written alike if and only if they agree up to this replacement, and a category that
has been read from a text, however it was spelled there, is read again from its written form. -/
theorem parse_render :
    (∀ c : Category, parse c.render = .ok c.asRead) ∧
      (∀ c : Category, parse c.render = .ok c ↔ c.hasBareInfinitive = false) ∧
      (∀ c c' : Category, c.render = c'.render ↔ c.asRead = c'.asRead) ∧
      ∀ (text : String) (c : Category), parse text = .ok c → parse c.render = .ok c := by
  have hself : ∀ c : Category, parse c.render = .ok c ↔ c.hasBareInfinitive = false := by
    intro c
    rw [parse_render_eq, Except.ok.injEq, asRead_eq_self_iff]
  refine ⟨parse_render_eq, hself, fun c c' => render_eq_iff, ?_⟩
  intro text c h
  exact (hself c).mpr (hasBareInfinitive_of_parse h)

end Category

end Categorial
