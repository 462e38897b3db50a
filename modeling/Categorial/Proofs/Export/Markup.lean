import Mathlib.Data.List.Forall2
import Categorial.Export.Markup
import Categorial.Proofs.Derivation.Lookalike

/-!
# Elements tell derivations apart

Other than the text formats, the element of a derivation shows every part of a raised category and
names every rule, so it determines the derivation without any help from the grammar: the derivation
may be one that no chart has, with rules that do not apply. The kinds of parts differ in their names
and in the attributes of a raised part, and the places of the leaves, which are attributes as well,
need not be known to read a part.

* `eq_of_partElement_same`: parts with the same element are equal, at whatever places they stand.
* `leafElements_partElement`: the leaves of an element in the order of the document.
* `markup_determines_derivation`: both for the whole element.
-/

namespace Categorial

namespace Xml

/-! ## Elements up to the order of attributes -/

namespace Element

/-- The same element, whatever the order of attributes. -/
inductive Same : Element → Element → Prop
  | mk (name : String) {as bs : List (String × String)} {es fs : List Element}
      (hattributes : ∀ key, as.lookup key = bs.lookup key) (hchildren : List.Forall₂ Same es fs) :
      Same (.mk name as es) (.mk name bs fs)

def name : Element → String
  | .mk name _ _ => name

def attribute? (key : String) : Element → Option String
  | .mk _ attributes _ => attributes.lookup key

def children : Element → List Element
  | .mk _ _ children => children

protected theorem Same.refl : (e : Element) → e.Same e
  | .mk name _ es => .mk name (fun _ => rfl) (List.forall₂_same.mpr fun e _ => Same.refl e)

variable {e f : Element}

theorem Same.attribute?_eq (h : Same e f) (key : String) : e.attribute? key = f.attribute? key := by
  cases h with
  | mk _ hattributes => exact hattributes key

theorem Same.children_same (h : Same e f) : List.Forall₂ Same e.children f.children := by
  cases h with
  | mk _ _ hchildren => exact hchildren

end Element

mutual

/-- An element and the elements inside it, in the order of the document. -/
def Element.inOrder : Element → List Element
  | .mk name attributes children => .mk name attributes children :: allInOrder children

/-- Elements that follow one another, with the elements inside them. -/
def allInOrder : List Element → List Element
  | [] => []
  | e :: es => e.inOrder ++ allInOrder es

end

end Xml

theorem Rule.eq_of_code_eq {r r' : Rule} (h : r.code = r'.code) : r = r' := by
  cases r <;> cases r' <;> first | rfl | exact absurd h (by decide)

namespace Export

open Category Categorial.Derivation Xml

/-! ## Reading a part -/

/-- No category of a derivation contains the bare infinitive, and no leaf that is not raised is
without a word or has an empty one. -/
def IsLegible : Derivation → Prop
  | leaf c w => c.hasBareInfinitive = false ∧ ∃ t, w = some t ∧ t ≠ ""
  | raisedLeaf x y => x.hasBareInfinitive = false ∧ y.hasBareInfinitive = false
  | raised x y child =>
    (x.hasBareInfinitive = false ∧ y.hasBareInfinitive = false) ∧ IsLegible child
  | node _ left right => IsLegible left ∧ IsLegible right

theorem eq_of_raisedAttributes {x y x' y' : Category}
    (h : x.hasBareInfinitive = false ∧ y.hasBareInfinitive = false)
    (h' : x'.hasBareInfinitive = false ∧ y'.hasBareInfinitive = false)
    (hsource : some x.render = some x'.render) (hneighbor : some y.render = some y'.render) :
    x = x' ∧ y = y' :=
  ⟨Category.eq_of_render_eq h.1 h'.1 (Option.some.inj hsource),
    Category.eq_of_render_eq h.2 h'.2 (Option.some.inj hneighbor)⟩

/-- Parts with the same element are equal, at whatever places they stand. -/
theorem eq_of_partElement_same {place place' : Nat} {d d' : Derivation} (hd : IsLegible d)
    (hd' : IsLegible d') (h : (partElement place d).Same (partElement place' d')) : d = d' := by
  induction d generalizing place place' d' with
  | leaf c w =>
    cases d' with
    | leaf c' w' =>
      obtain ⟨hc, t, rfl, ht⟩ := hd
      obtain ⟨hc', t', rfl, ht'⟩ := hd'
      have hcategory : some c.render = some c'.render := h.attribute?_eq "cat"
      have hword : some (shownWord (some t)) = some (shownWord (some t')) := h.attribute?_eq "word"
      simp only [shownWord, if_neg ht, if_neg ht', Option.some.injEq] at hword
      rw [Category.eq_of_render_eq hc hc' (Option.some.inj hcategory), hword]
    | raisedLeaf => cases h.attribute?_eq "source"
    | raised | node => cases h.children_same
  | raisedLeaf x y =>
    cases d' with
    | leaf => cases h.attribute?_eq "source"
    | raisedLeaf x' y' =>
      obtain ⟨rfl, rfl⟩ := eq_of_raisedAttributes hd hd' (h.attribute?_eq "source")
        (h.attribute?_eq "neighbor")
      rfl
    | raised | node => cases h.children_same
  | raised x y child ih =>
    have hchildren := h.children_same
    cases d' with
    | leaf | raisedLeaf => cases hchildren
    | raised x' y' child' =>
      obtain ⟨hchild, -⟩ := List.forall₂_cons.mp hchildren
      obtain rfl := ih hd.2 hd'.2 hchild
      obtain ⟨rfl, rfl⟩ := eq_of_raisedAttributes hd.1 hd'.1 (h.attribute?_eq "source")
        (h.attribute?_eq "neighbor")
      rfl
    | node => cases h.attribute?_eq "source"
  | node r left right ihl ihr =>
    have hchildren := h.children_same
    cases d' with
    | leaf | raisedLeaf => cases hchildren
    | raised => cases h.attribute?_eq "source"
    | node r' left' right' =>
      obtain ⟨hleft, hparts⟩ := List.forall₂_cons.mp hchildren
      obtain ⟨hright, -⟩ := List.forall₂_cons.mp hparts
      have hcode : some r.code = some r'.code := h.attribute?_eq "type"
      rw [Rule.eq_of_code_eq (Option.some.inj hcode), ihl hd.1 hd'.1 hleft, ihr hd.2 hd'.2 hright]

/-! ## The leaves of an element -/

/-- The elements of leaves, in the order of the document. -/
def leafElements (e : Element) : List Element :=
  e.inOrder.filter (·.name == "lf")

theorem leafElements_partElement (place : Nat) (d : Derivation) :
    leafElements (partElement place d) =
      (d.leaves.zipIdx place).map fun p => partElement p.2 p.1 := by
  induction d generalizing place with
  | leaf | raisedLeaf => rfl
  | raised x y child ih =>
    simp only [leafElements, partElement, Element.inOrder, allInOrder, List.append_nil]
    exact ih place
  | node r left right ihl ihr =>
    simp only [leaves, List.zipIdx_append, List.map_append, ← ihl, ← ihr]
    simp [leafElements, partElement, Element.inOrder, allInOrder, Element.name]

theorem leafElements_ccgElement (attributes : List (String × String)) (d : Derivation) :
    leafElements (ccgElement attributes d) = d.leaves.zipIdx.map fun p => partElement p.2 p.1 := by
  rw [← leafElements_partElement]
  simp [leafElements, ccgElement, Element.inOrder, allInOrder, Element.name]

theorem children_of_mem_leaves {d e : Derivation} (h : e ∈ d.leaves) : e.children = [] := by
  induction d with
  | leaf | raisedLeaf =>
    obtain rfl := List.mem_singleton.mp h
    rfl
  | raised _ _ _ ih => exact ih h
  | node _ _ _ ihl ihr => exact (List.mem_append.mp h).elim ihl ihr

theorem start_of_leaf (place : Nat) {d : Derivation} (h : d.children = []) :
    (partElement place d).attribute? "start" = some (toString place) := by
  cases d with
  | leaf | raisedLeaf => rfl
  | raised | node => cases h

theorem word_of_leaf (place : Nat) {d : Derivation} (h : d.children = []) :
    (partElement place d).attribute? "word" = some (shownWord d.token) := by
  cases d with
  | leaf | raisedLeaf => rfl
  | raised | node => cases h

theorem starts_ccgElement (attributes : List (String × String)) (d : Derivation) :
    (leafElements (ccgElement attributes d)).map (·.attribute? "start") =
      (List.range d.leaves.length).map fun place => some (toString place) := by
  rw [leafElements_ccgElement, List.map_map, List.range_eq_range', ← List.zipIdx_map_snd 0 d.leaves,
    List.map_map]
  exact List.map_congr_left fun p hp =>
    start_of_leaf p.2 (children_of_mem_leaves (List.fst_mem_of_mem_zipIdx hp))

theorem words_ccgElement (attributes : List (String × String)) (d : Derivation) :
    (leafElements (ccgElement attributes d)).map (·.attribute? "word") =
      d.words.map fun w => some (shownWord w) := by
  rw [leafElements_ccgElement, List.map_map]
  conv_rhs => rw [words, ← List.zipIdx_map_fst 0 d.leaves, List.map_map, List.map_map]
  exact List.map_congr_left fun p hp =>
    word_of_leaf p.2 (children_of_mem_leaves (List.fst_mem_of_mem_zipIdx hp))

/-- **The element determines the derivation.** Two derivations, licensed or not, without the bare
infinitive and without missing or empty words at leaves that are not raised have the same element
exactly if they are equal, apart from the attributes that are given to the element as a whole. In
the element of any derivation the leaves are numbered from zero in the order of the document, and
have its words in order. -/
theorem markup_determines_derivation :
    (∀ (as bs : List (String × String)) {d d' : Derivation}, IsLegible d → IsLegible d' →
      ((ccgElement as d).Same (ccgElement bs d') ↔
        (∀ key, as.lookup key = bs.lookup key) ∧ d = d')) ∧
    ∀ (as : List (String × String)) (d : Derivation),
      (leafElements (ccgElement as d)).map (·.attribute? "start") =
          (List.range d.leaves.length).map (fun place => some (toString place)) ∧
        (leafElements (ccgElement as d)).map (·.attribute? "word") =
          d.words.map fun w => some (shownWord w) := by
  refine ⟨fun as bs d d' hd hd' => ⟨?_, ?_⟩,
    fun as d => ⟨starts_ccgElement as d, words_ccgElement as d⟩⟩
  · intro h
    obtain ⟨hpart, -⟩ := List.forall₂_cons.mp h.children_same
    exact ⟨h.attribute?_eq, eq_of_partElement_same hd hd' hpart⟩
  · rintro ⟨hattributes, rfl⟩
    exact .mk "ccg" hattributes (.cons (Element.Same.refl _) .nil)

/-- A raised part and a combination by the rule of raising have the same type. -/
theorem markup_determines_raising :
    IsLegible (raised np (forward s np) (leaf np (some "they"))) ∧
      IsLegible (node .forwardTypeRaise (leaf np (some "they")) (leaf s (some "saw"))) ∧
      ¬ (ccgElement [] (raised np (forward s np) (leaf np (some "they")))).Same
        (ccgElement [] (node .forwardTypeRaise (leaf np (some "they")) (leaf s (some "saw")))) ∧
      (leafElements (ccgElement [] (node .forwardTypeRaise (leaf np (some "they"))
        (leaf s (some "saw"))))).map (·.attribute? "start") = [some "0", some "1"] := by
  have hraised : IsLegible (raised np (forward s np) (leaf np (some "they"))) :=
    ⟨by decide, by decide, "they", rfl, by decide⟩
  have hnode : IsLegible (node .forwardTypeRaise (leaf np (some "they")) (leaf s (some "saw"))) :=
    ⟨⟨by decide, "they", rfl, by decide⟩, by decide, "saw", rfl, by decide⟩
  refine ⟨hraised, hnode, fun h => ?_, (markup_determines_derivation.2 _ _).1⟩
  cases ((markup_determines_derivation.1 [] [] hraised hnode).mp h).2

end Export

end Categorial
