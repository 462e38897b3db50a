import Categorial.Derivation.Parents

/-!
# A cache changes no result

A cache is true if every entry is what the rules make of its pair. Look-ups keep a cache true, and
in a true cache they find what would be worked out anew. A computation over caches therefore has one
result for all true caches, which is what `Gives` says; it is carried through sequences of steps, so
that a whole parse can be read as if there were no cache.

* `Cache.lookup_spec`: a look-up in a true cache.
* `Cache.gives_mapM`, `Cache.gives_foldlM`: computations over lists.
* `Derivation.gives_cachedParents`, `Derivation.gives_cachedFirstParent`: the derivations above two
  others do not depend on the cache.
-/

namespace Categorial

namespace Cache

/-- Every entry of the cache is what the rules make of its pair. -/
def Valid (c : Cache) : Prop :=
  ∀ x y entry, c.entries[(x, y)]? = some entry → entry.2 = inferences x y

theorem valid_empty : Valid empty := by
  intro x y entry h
  simp [empty] at h

theorem lookup_spec {c : Cache} (hc : c.Valid) (x y : Category) :
    (c.lookup x y).1.2 = inferences x y ∧ (c.lookup x y).2.Valid := by
  unfold lookup
  split
  · next found hfound => exact ⟨hc x y found hfound, hc⟩
  · refine ⟨rfl, ?_⟩
    intro x' y' entry hentry
    rw [Std.HashMap.getElem?_insert] at hentry
    split at hentry
    · next hxy =>
      obtain ⟨rfl, rfl⟩ := Prod.mk.injEq .. ▸ eq_of_beq hxy
      cases hentry
      rfl
    · exact hc x' y' entry hentry

/-! ## Computations with one result -/

/-- From every true cache the computation has the result `a` and leaves a true cache. -/
def Gives {α : Type} (m : StateM Cache α) (a : α) : Prop :=
  ∀ c : Cache, c.Valid → (m.run c).1 = a ∧ (m.run c).2.Valid

variable {α β : Type}

theorem gives_pure (a : α) : Gives (pure a) a :=
  fun _ hc => ⟨rfl, hc⟩

theorem gives_bind {m : StateM Cache α} {f : α → StateM Cache β} {a : α} {b : β}
    (hm : Gives m a) (hf : Gives (f a) b) : Gives (m >>= f) b := by
  intro c hc
  obtain ⟨hresult, hvalid⟩ := hm c hc
  have h := hf (m.run c).2 hvalid
  rw [← hresult] at h
  exact h

theorem gives_mapM {f : α → StateM Cache β} {g : α → β} (h : ∀ a, Gives (f a) (g a))
    (as : List α) : Gives (as.mapM f) (as.map g) := by
  induction as with
  | nil => exact gives_pure []
  | cons a as ih =>
    rw [List.mapM_cons]
    exact gives_bind (h a) (gives_bind ih (gives_pure _))

theorem gives_foldlM {f : β → α → StateM Cache β} {g : β → α → β}
    (h : ∀ b a, Gives (f b a) (g b a)) (as : List α) (b : β) :
    Gives (as.foldlM f b) (as.foldl g b) := by
  induction as generalizing b with
  | nil => exact gives_pure b
  | cons a as ih =>
    rw [List.foldlM_cons]
    exact gives_bind (h b a) (ih (g b a))

/-- The first of two computations that finds something. -/
theorem gives_or {m : StateM Cache (Option α)} {f : Option α → StateM Cache (Option α)}
    {a b : Option α} (hm : Gives m a) (hf : ∀ x, f (some x) = pure (some x))
    (hn : Gives (f none) b) : Gives (m >>= f) (a.or b) := by
  refine gives_bind hm ?_
  cases a with
  | none => exact hn
  | some x =>
    rw [hf x]
    exact gives_pure _

theorem gives_infer (x y : Category) : Gives (infer x y) (inferences x y) :=
  fun _ hc => lookup_spec hc x y

end Cache

namespace Derivation

open Cache

theorem gives_cachedParents (left right : Derivation) :
    Gives (cachedParents left right) (parents left right) := by
  unfold cachedParents parents
  split
  · next x y _ _ => exact gives_bind (gives_infer x y) (gives_pure _)
  · exact gives_pure []

theorem gives_cachedFirstParent (left right : Derivation) :
    Gives (cachedFirstParent left right) (firstParent left right) := by
  unfold cachedFirstParent firstParent
  split
  · next x y _ _ => exact gives_bind (gives_infer x y) (gives_pure _)
  · exact gives_pure none

end Derivation

end Categorial
