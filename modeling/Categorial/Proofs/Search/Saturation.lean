import Mathlib.Data.List.ProdSigma
import Mathlib.Order.Basic
import Categorial.Proofs.Search.History
import Categorial.Proofs.Search.Placement

/-!
# A search loses nothing that it needs

Only so many derivations are kept for each span and category. A derivation that is passed over is
still settled: enough derivations of its span and category are taken that weigh no more, and any of
them can stand for it inside of a longer derivation. In every state of a search, all leaves and all
joins of two neighbours among the items taken are on the agenda or settled (`Search.Saturated`).
Where nothing is left on the agenda, or nothing that matters, every derivation that fits is settled.

The weight is a parameter: with all weights alike nothing is asked of the order in which items come
out, with the cost as the weight the items taken have to come before those on the agenda.

* `Search.settled_join`: what is above two settled derivations is settled.
* `Search.Saturated.pass`, `Search.Saturated.take`: the two moves of a search.
* `Search.Saturated.settled`: at the end the derivations that fit are settled.
-/

namespace Categorial

namespace Search

open Categorial.Derivation

variable {α β : Type} [Add α] [Sub α] [Neg α] [Mul α] [OfNat α 0] [OfNat α 1] [Preorder β]

/-- Enough derivations of the span are taken that have the category of this one and weigh no more,
or it is one of these itself. -/
def Settled (score : Nat → Derivation → Option α) (f : Frame α) (w : Nat → Derivation → β)
    (taken : List (Item α)) (i j : Nat) (d : Derivation) : Prop :=
  ∃ ds : List Derivation, ds.Nodup ∧
    (∀ e ∈ ds, itemAt score f i j e ∈ taken ∧ e.category = d.category ∧ w i e ≤ w i d) ∧
    (d ∈ ds ∨ f.limit ≤ ds.length)

/-- The derivation is on the agenda or settled. -/
def Accounted (score : Nat → Derivation → Option α) (f : Frame α) (w : Nat → Derivation → β)
    (taken : List (Item α)) (q : Agenda (Item α)) (i j : Nat) (d : Derivation) : Prop :=
  itemAt score f i j d ∈ q.toList ∨ Settled score f w taken i j d

/-- What is known of the items taken and of the agenda in every state of a search. -/
structure Saturated (score : Nat → Derivation → Option α) (lexicon : LexicalEntries)
    (words : List String) (f : Frame α) (w : Nat → Derivation → β) (taken : List (Item α))
    (q : Agenda (Item α)) : Prop where
  placed : ∀ a, a ∈ taken ∨ a ∈ q.toList → Placed score lexicon words f a
  distinct : taken.Nodup
  bounded : (found f taken).length ≤ f.limit
  leaves : ∀ i x c, words[i]? = some x → c ∈ lexicon x → (score i (.leaf c (some x))).isSome →
    Accounted score f w taken q i (i + 1) (.leaf c (some x))
  joins : ∀ i k j left right, itemAt score f i k left ∈ taken → itemAt score f k j right ∈ taken →
    ∀ p ∈ parents left right, Accounted score f w taken q i j p

variable {score : Nat → Derivation → Option α} {lexicon : LexicalEntries} {words : List String}
  {f : Frame α} {w : Nat → Derivation → β} {taken : List (Item α)} {q rest : Agenda (Item α)}

/-! ## Settled derivations -/

theorem Settled.of_mem {i j : Nat} {d : Derivation} (h : itemAt score f i j d ∈ taken) :
    Settled score f w taken i j d := by
  refine ⟨[d], List.nodup_singleton d, fun e he => ?_, .inl List.mem_cons_self⟩
  obtain rfl := List.mem_singleton.mp he
  exact ⟨h, rfl, le_refl _⟩

theorem Settled.mono {i j : Nat} {d : Derivation} {taken' : List (Item α)}
    (h : Settled score f w taken i j d) (hsub : taken ⊆ taken') :
    Settled score f w taken' i j d := by
  obtain ⟨ds, hnodup, hds, hend⟩ := h
  exact ⟨ds, hnodup, fun e he => ⟨hsub (hds e he).1, (hds e he).2⟩, hend⟩

/-- A derivation is settled if enough others that can stand for it are. -/
theorem settled_of_settled {i j : Nat} {d : Derivation} (ps : List Derivation) (hps : ps.Nodup)
    (hsettled : ∀ p ∈ ps, Settled score f w taken i j p ∧ p.category = d.category ∧ w i p ≤ w i d)
    (hend : d ∈ ps ∨ f.limit ≤ ps.length) : Settled score f w taken i j d := by
  by_cases htaken : ∀ p ∈ ps, itemAt score f i j p ∈ taken
  · exact ⟨ps, hps, fun p hp => ⟨htaken p hp, (hsettled p hp).2⟩, hend⟩
  · -- one of them is not taken, and what stands for it also stands for the derivation
    obtain ⟨p, hp⟩ := not_forall.mp htaken
    obtain ⟨hmem, hnot⟩ := Classical.not_imp.mp hp
    obtain ⟨⟨ds, hnodup, hds, hend'⟩, hcategory, hle⟩ := hsettled p hmem
    refine ⟨ds, hnodup, fun e he => ?_, .inr (hend'.resolve_left fun hself => ?_)⟩
    · obtain ⟨htaken', hcategory', hle'⟩ := hds e he
      exact ⟨htaken', hcategory'.trans hcategory, hle'.trans hle⟩
    · exact hnot (hds p hself).1

/-- **Exchange.** If two neighbours are settled, so is what is above them, as long as all joins of
the derivations that stand for the neighbours are. -/
theorem settled_join {i k j : Nat} {x y : Category} {left right : Derivation} {g : Join}
    (hx : left.category = some x) (hy : right.category = some y)
    (hleft : Settled score f w taken i k left) (hright : Settled score f w taken k j right)
    (hjoin : ∀ l r, itemAt score f i k l ∈ taken → itemAt score f k j r ∈ taken →
      l.category = some x → r.category = some y → w i l ≤ w i left → w k r ≤ w k right →
      w i (g.above x y l r) ≤ w i (g.above x y left right) ∧
        Settled score f w taken i j (g.above x y l r)) :
    Settled score f w taken i j (g.above x y left right) := by
  rcases Nat.eq_zero_or_pos f.limit with hlimit | hlimit
  · -- where nothing is asked for, nothing has to be taken
    exact ⟨[], List.nodup_nil, by simp, .inr (by simp [hlimit])⟩
  obtain ⟨ls, hls, hmemls, hendls⟩ := hleft
  obtain ⟨rs, hrs, hmemrs, hendrs⟩ := hright
  have hpos : ∀ {d} {ds : List Derivation}, d ∈ ds ∨ f.limit ≤ ds.length → 0 < ds.length := by
    rintro d ds (hmem | hlength)
    · exact List.length_pos_of_mem hmem
    · omega
  have hposls := hpos hendls
  have hposrs := hpos hendrs
  -- whatever stands for the left one is joined with whatever stands for the right one
  refine settled_of_settled ((ls.product rs).map fun p => g.above x y p.1 p.2) ?_ ?_ ?_
  · refine (hls.product hrs).map fun p p' hp => ?_
    obtain ⟨h1, h2⟩ := Join.above_inj hp
    exact Prod.ext h1 h2
  · intro p hp
    obtain ⟨⟨l, r⟩, hmem, rfl⟩ := List.mem_map.mp hp
    obtain ⟨hl, hr⟩ := List.pair_mem_product.mp hmem
    obtain ⟨htakenl, hcategoryl, hlel⟩ := hmemls l hl
    obtain ⟨htakenr, hcategoryr, hler⟩ := hmemrs r hr
    rw [hx] at hcategoryl
    rw [hy] at hcategoryr
    obtain ⟨hle, hsettled⟩ := hjoin l r htakenl htakenr hcategoryl hcategoryr hlel hler
    refine ⟨hsettled, ?_, hle⟩
    rw [g.category_above hcategoryl hcategoryr, g.category_above hx hy]
  · have hlength : (ls.product rs).length = ls.length * rs.length := List.length_product ls rs
    rw [List.length_map, hlength]
    rcases hendls with hmeml | hlength
    · rcases hendrs with hmemr | hlength
      · have hpair : (left, right) ∈ ls.product rs := List.pair_mem_product.mpr ⟨hmeml, hmemr⟩
        exact .inl (List.mem_map.mpr ⟨(left, right), hpair, rfl⟩)
      · exact .inr (Nat.le_trans hlength (Nat.le_mul_of_pos_left _ hposls))
    · exact .inr (Nat.le_trans hlength (Nat.le_mul_of_pos_right _ hposrs))

/-! ## The agenda -/

section

variable [LT α] [DecidableLT α]

omit [Add α] [Sub α] [Neg α] [Mul α] [OfNat α 0] [OfNat α 1] in
theorem mem_foldl_insert_iff {as : List (Item α)} {q : Agenda (Item α)} {a : Item α} :
    a ∈ (as.foldl (fun q a => q.insert Item.before a) q).toList ↔ a ∈ as ∨ a ∈ q.toList := by
  rw [(Agenda.perm_foldl_insert Item.before as q).mem_iff, List.mem_append]

omit [Add α] [Sub α] [Neg α] [Mul α] [OfNat α 0] [OfNat α 1] in
theorem mem_of_remove {item a : Item α} (hout : q.remove? Item.before = some (item, rest)) :
    a ∈ q.toList ↔ a = item ∨ a ∈ rest.toList := by
  rw [(Agenda.perm_remove Item.before hout).mem_iff, List.mem_cons]

end

omit [Add α] [Sub α] [Neg α] [Mul α] [OfNat α 0] [OfNat α 1] in
theorem mem_neighbours_iff {item left right : Item α} :
    (left, right) ∈ neighbours f taken item ↔
      (left = item ∧ right ∈ startingAt f taken item.stop) ∨
        (right = item ∧ left ∈ stoppingAt f taken item.start) := by
  simp only [neighbours, List.mem_append, List.mem_map, Prod.mk.injEq]
  constructor
  · rintro (⟨r, hr, rfl, rfl⟩ | ⟨l, hl, rfl, rfl⟩)
    · exact .inl ⟨rfl, hr⟩
    · exact .inr ⟨rfl, hl⟩
  · rintro (⟨rfl, hr⟩ | ⟨rfl, hl⟩)
    · exact .inl ⟨right, hr, rfl, rfl⟩
    · exact .inr ⟨left, hl, rfl, rfl⟩

omit [Add α] [Sub α] [Neg α] [Mul α] [OfNat α 0] [OfNat α 1] in
theorem of_mem_neighbours {item left right : Item α} (hitem : item ∈ taken)
    (h : (left, right) ∈ neighbours f taken item) :
    left ∈ taken ∧ right ∈ taken ∧ left.stop = right.start ∧ (left = item ∨ right = item) := by
  rcases mem_neighbours_iff.mp h with ⟨rfl, hr⟩ | ⟨rfl, hl⟩
  · obtain ⟨hr, hstart⟩ := List.mem_filter.mp hr
    have hnext := eq_of_beq (Bool.and_eq_true_iff.mp hstart).2
    exact ⟨hitem, hr, hnext.symm, .inl rfl⟩
  · obtain ⟨hl, hstop⟩ := List.mem_filter.mp hl
    have hnext := eq_of_beq (Bool.and_eq_true_iff.mp hstop).2
    exact ⟨hl, hitem, hnext, .inr rfl⟩

/-- The items that come on the agenda with a new one are above it and a neighbour of it. -/
theorem exists_of_mem_joins {item a : Item α} (hitem : item ∈ taken)
    (ha : a ∈ joins f taken item) :
    ∃ left ∈ taken, ∃ right ∈ taken, left.stop = right.start ∧ (left = item ∨ right = item) ∧
      ∃ p ∈ parents left.derivation right.derivation, a = parentItem f left right p := by
  unfold joins at ha
  split at ha
  · cases ha
  · obtain ⟨⟨left, right⟩, hpair, ha⟩ := List.mem_flatMap.mp ha
    obtain ⟨p, hp, rfl⟩ := List.mem_map.mp ha
    obtain ⟨hl, hr, hnext, hnew⟩ := of_mem_neighbours hitem hpair
    exact ⟨left, hl, right, hr, hnext, hnew, p, hp, rfl⟩

/-- Neither of two neighbours is the whole sentence. -/
theorem isWhole_eq_false_of_next {left right : Item α} (hsize : f.size = words.length)
    (hleft : Placed score lexicon words f left) (hright : Placed score lexicon words f right)
    (hnext : left.stop = right.start) : f.isWhole left = false ∧ f.isWhole right = false := by
  obtain ⟨i, u, l, hl, rfl⟩ := hleft
  obtain ⟨k, v, r, hr, rfl⟩ := hright
  have hu := hl.stop_le
  have hv := hr.stop_le
  simp only [stop_itemAt, start_itemAt] at hnext
  simp only [Frame.isWhole, start_itemAt, stop_itemAt, hsize, decide_eq_false_iff_not]
  omega

/-- A new item and a neighbour of it are joined. -/
theorem mem_joins_of_mem {item left right : Item α} {p : Derivation}
    (hsize : f.size = words.length) (htaken : ∀ a ∈ taken, Placed score lexicon words f a)
    (hleft : left ∈ taken) (hright : right ∈ taken) (hnext : left.stop = right.start)
    (hitem : left = item ∨ right = item)
    (hp : p ∈ parents left.derivation right.derivation) :
    itemAt score f left.start right.stop p ∈ joins f taken item := by
  have hparent := ((htaken left hleft).parentItem (htaken right hright) hnext hp).2
  obtain ⟨hpartl, hpartr⟩ :=
    isWhole_eq_false_of_next hsize (htaken left hleft) (htaken right hright) hnext
  have hpart : f.isWhole item = false := by
    rcases hitem with rfl | rfl
    · exact hpartl
    · exact hpartr
  rw [joins, hpart, if_neg Bool.false_ne_true, ← hparent]
  refine List.mem_flatMap.mpr
    ⟨(left, right), mem_neighbours_iff.mpr ?_, List.mem_map_of_mem hp⟩
  rcases hitem with rfl | rfl
  · refine .inl ⟨rfl, List.mem_filter.mpr ⟨hright, ?_⟩⟩
    rw [hpartr, Bool.not_false, Bool.true_and, beq_iff_eq]
    exact hnext.symm
  · refine .inr ⟨rfl, List.mem_filter.mpr ⟨hleft, ?_⟩⟩
    rw [hpartl, Bool.not_false, Bool.true_and, beq_iff_eq]
    exact hnext

/-! ## The two moves -/

/-- What is accounted for stays so when another item leaves the agenda, or one that is settled. -/
theorem Accounted.of_remove [LT α] [DecidableLT α] {item : Item α} {i j : Nat} {d : Derivation}
    {taken' : List (Item α)} {q' : Agenda (Item α)} (h : Accounted score f w taken q i j d)
    (hout : q.remove? Item.before = some (item, rest))
    (hrest : ∀ a, a ∈ rest.toList → a ∈ q'.toList) (hsub : taken ⊆ taken')
    (hitem : itemAt score f i j d = item → Settled score f w taken' i j d) :
    Accounted score f w taken' q' i j d := by
  rcases h with hmem | hsettled
  · rcases (mem_of_remove hout).mp hmem with heq | hmem
    · exact .inr (hitem heq)
    · exact .inl (hrest _ hmem)
  · exact .inr (hsettled.mono hsub)

namespace Saturated

theorem mem_ofSlot_iff (h : Saturated score lexicon words f w taken q) {i j : Nat}
    {d e : Derivation} :
    e ∈ ofSlot taken (itemAt score f i j d).slot ↔
      itemAt score f i j e ∈ taken ∧ e.category = d.category := by
  simp only [ofSlot, List.mem_map, List.mem_filter, beq_iff_eq]
  constructor
  · rintro ⟨a, ⟨ha, hslot⟩, rfl⟩
    obtain ⟨i', u, d', -, rfl⟩ := h.placed a (.inl ha)
    obtain ⟨hspan, hcategory⟩ := Prod.mk.inj hslot
    obtain ⟨rfl, rfl⟩ := Prod.mk.inj hspan
    exact ⟨ha, hcategory⟩
  · rintro ⟨he, hcategory⟩
    exact ⟨_, ⟨he, by rw [Item.slot, Item.slot]; exact Prod.ext rfl hcategory⟩, rfl⟩

theorem nodup_ofSlot (h : Saturated score lexicon words f w taken q)
    (slot : Span × Option Category) : (ofSlot taken slot).Nodup := by
  refine (h.distinct.filter _).map_on fun a ha b hb hab => ?_
  obtain ⟨ha, hslota⟩ := List.mem_filter.mp ha
  obtain ⟨hb, hslotb⟩ := List.mem_filter.mp hb
  obtain ⟨i, u, d, -, rfl⟩ := h.placed a (.inl ha)
  obtain ⟨i', u', d', -, rfl⟩ := h.placed b (.inl hb)
  have hslot := (eq_of_beq hslota).trans (eq_of_beq hslotb).symm
  simp only [Item.slot, start_itemAt, stop_itemAt, derivation_itemAt, Prod.mk.injEq] at hslot hab
  obtain ⟨⟨rfl, hstop⟩, -⟩ := hslot
  rw [hab, hstop]

/-- What is passed over is settled. -/
theorem settled_of_passedOver (h : Saturated score lexicon words f w taken q) {i j : Nat}
    {d : Derivation} (hpass : PassedOver f taken (itemAt score f i j d))
    (hle : ∀ e, itemAt score f i j e ∈ taken → e.category = d.category → w i e ≤ w i d) :
    Settled score f w taken i j d := by
  rcases hpass with henough | hself
  · refine ⟨_, h.nodup_ofSlot _, fun e he => ?_, .inr henough⟩
    obtain ⟨htaken, hcategory⟩ := h.mem_ofSlot_iff.mp he
    exact ⟨htaken, hcategory, hle e htaken hcategory⟩
  · exact .of_mem (h.mem_ofSlot_iff.mp hself).1

section

variable [LT α] [DecidableLT α]

/-- Passing over an item that does not weigh less than those taken for its span and category. -/
theorem pass (h : Saturated score lexicon words f w taken q) {item : Item α}
    (hout : q.remove? Item.before = some (item, rest)) (hpass : PassedOver f taken item)
    (hle : ∀ e, itemAt score f item.start item.stop e ∈ taken →
      e.category = item.derivation.category → w item.start e ≤ w item.start item.derivation) :
    Saturated score lexicon words f w taken rest := by
  obtain ⟨i, u, d, hfits, rfl⟩ := h.placed item (.inr ((mem_of_remove hout).mpr (.inl rfl)))
  have hsettled := h.settled_of_passedOver hpass hle
  have hkeep : ∀ {i' j' d'}, Accounted score f w taken q i' j' d' →
      Accounted score f w taken rest i' j' d' := by
    intro i' j' d' haccounted
    refine haccounted.of_remove hout (fun a ha => ha) (List.Subset.refl taken) ?_
    intro heq
    obtain ⟨rfl, rfl, rfl⟩ := itemAt_inj heq
    exact hsettled
  refine ⟨fun a ha => h.placed a (ha.imp_right fun ha => (mem_of_remove hout).mpr (.inr ha)),
    h.distinct, h.bounded, ?_, ?_⟩
  · exact fun i x c hx hc hscore => hkeep (h.leaves i x c hx hc hscore)
  · exact fun i k j left right hl hr p hp => hkeep (h.joins i k j left right hl hr p hp)

/-- Taking an item and putting the ones above it and its neighbours on the agenda. -/
theorem take (h : Saturated score lexicon words f w taken q) (hsize : f.size = words.length)
    {item : Item α} (hout : q.remove? Item.before = some (item, rest))
    (hpass : ¬ PassedOver f taken item) (hopen : (found f taken).length < f.limit) :
    Saturated score lexicon words f w (taken ++ [item])
      ((Search.joins f (taken ++ [item]) item).foldl (fun q a => q.insert Item.before a)
        rest) := by
  have hmemq : ∀ {a}, a ∈ rest.toList → a ∈ q.toList :=
    fun ha => (mem_of_remove hout).mpr (.inr ha)
  have hplaced : ∀ a ∈ taken ++ [item], Placed score lexicon words f a := by
    intro a ha
    rcases List.mem_append.mp ha with ha | ha
    · exact h.placed a (.inl ha)
    · obtain rfl := List.mem_singleton.mp ha
      exact h.placed a (.inr ((mem_of_remove hout).mpr (.inl rfl)))
  have hnew : item ∉ taken := fun hmem => by
    refine hpass (.inr ?_)
    simp only [ofSlot, List.mem_map, List.mem_filter]
    exact ⟨item, ⟨hmem, beq_self_eq_true _⟩, rfl⟩
  have hkeep : ∀ {i j d}, Accounted score f w taken q i j d →
      Accounted score f w (taken ++ [item])
        ((Search.joins f (taken ++ [item]) item).foldl (fun q a => q.insert Item.before a) rest)
        i j d := by
    intro i j d haccounted
    refine haccounted.of_remove hout (fun a ha => mem_foldl_insert_iff.mpr (.inr ha))
      (List.subset_append_left taken [item]) ?_
    intro heq
    exact .of_mem (by rw [heq]; simp)
  refine ⟨?_, ?_, ?_, ?_, ?_⟩
  · rintro a (ha | ha)
    · exact hplaced a ha
    · rcases mem_foldl_insert_iff.mp ha with ha | ha
      · obtain ⟨left, hleft, right, hright, hnext, -, p, hp, rfl⟩ :=
          exists_of_mem_joins (by simp) ha
        exact ((hplaced left hleft).parentItem (hplaced right hright) hnext hp).1
      · exact h.placed a (.inr (hmemq ha))
  · exact h.distinct.append (List.nodup_singleton item) (by simpa using hnew)
  · have hlength : (found f (taken ++ [item])).length ≤ (found f taken).length + 1 := by
      rw [found, List.filter_append, List.length_append]
      exact Nat.add_le_add_left (List.length_filter_le _ [item]) _
    omega
  · exact fun i x c hx hc hscore => hkeep (h.leaves i x c hx hc hscore)
  · intro i k j left right hl hr p hp
    -- a pair with the new item is joined now, any other one was before
    by_cases hitem : itemAt score f i k left = item ∨ itemAt score f k j right = item
    · exact .inl (mem_foldl_insert_iff.mpr
        (.inl (mem_joins_of_mem hsize hplaced hl hr rfl hitem hp)))
    · have hold : ∀ a ∈ taken ++ [item], a ≠ item → a ∈ taken := by
        intro a ha hne
        exact (List.mem_append.mp ha).resolve_right fun hlast => hne (List.mem_singleton.mp hlast)
      obtain ⟨hnel, hner⟩ := not_or.mp hitem
      exact hkeep (h.joins i k j left right (hold _ hl hnel) (hold _ hr hner) p hp)

end

/-! ## The end of a search -/

/-- Where no derivation of a class is left on the agenda, those of the class that fit are settled.
The class goes with the weight and contains the parts of its members. -/
theorem settled (h : Saturated score lexicon words f w taken q)
    (Low : Nat → Nat → Derivation → Prop)
    (hgrow : ∀ {i u v l left r right} (g : Join) (x y : Category),
      Fits score lexicon words i u l →
      Fits score lexicon words i u left → Fits score lexicon words (i + u.length) v r →
      Fits score lexicon words (i + u.length) v right → w i l ≤ w i left →
      w (i + u.length) r ≤ w (i + u.length) right →
      w i (g.above x y l r) ≤ w i (g.above x y left right))
    (hlow : ∀ {i j d e}, w i e ≤ w i d → Low i j d → Low i j e)
    (hparts : ∀ {i u v left right p}, Fits score lexicon words i u left →
      Fits score lexicon words (i + u.length) v right → p ∈ parents left right →
      Low i (i + u.length + v.length) p →
      Low i (i + u.length) left ∧ Low (i + u.length) (i + u.length + v.length) right)
    (hagenda : ∀ {i j d}, Low i j d → itemAt score f i j d ∉ q.toList)
    {i : Nat} {u : List String} {d : Derivation} (hfits : Fits score lexicon words i u d)
    (hd : Low i (i + u.length) d) : Settled score f w taken i (i + u.length) d := by
  have hdone : ∀ {i j d}, Accounted score f w taken q i j d → Low i j d →
      Settled score f w taken i j d :=
    fun haccounted hlowd => haccounted.resolve_left (hagenda hlowd)
  revert hd
  -- a part of the class is settled by induction, and so are all joins of what stands for the parts
  refine hfits.induction
    (motive := fun i u d => Low i (i + u.length) d → Settled score f w taken i (i + u.length) d)
    ?_ ?_
  · exact fun hx hc hscore hd => hdone (h.leaves _ _ _ hx hc hscore) hd
  · intro i u v left right p hleft hright hp ihl ihr hd
    rw [List.length_append, ← Nat.add_assoc] at hd ⊢
    obtain ⟨hlowl, hlowr⟩ := hparts hleft hright hp hd
    obtain ⟨x, y, hx, hy, g, hg, rfl⟩ := mem_parents_iff.mp hp
    refine settled_join hx hy (ihl hlowl) (ihr hlowr) fun l r hl hr hlx hry hlel hler => ?_
    obtain ⟨u', hfitsl, hu⟩ := (h.placed _ (.inl hl)).fits
    obtain ⟨v', hfitsr, hv⟩ := (h.placed _ (.inl hr)).fits
    obtain rfl := hfitsl.words_eq_of_length hleft (by omega)
    obtain rfl := hfitsr.words_eq_of_length hright (by omega)
    have hle := hgrow g x y hfitsl hleft hfitsr hright hlel hler
    have hmem : g.above x y l r ∈ parents l r := mem_parents_iff.mpr ⟨x, y, hlx, hry, g, hg, rfl⟩
    exact ⟨hle, hdone (h.joins _ _ _ l r hl hr _ hmem) (hlow hle hd)⟩

end Saturated

end Search

end Categorial
