/-!
# Changes that may be refused

A change works on a state in steps, gives an answer in the end, or is refused on the way. What was
changed before a refusal stays changed: a state that a refusal leaves as it was is a property of the
order of the steps, and not of changes as such.

* `Change.on`: the answer and the state that is left.
* `Change.on_bind`: one change after the other.
* `Change.on_refusedAs`: a change with its refusals told in another way.
-/

namespace Categorial

/-- A change of a state that gives an answer or is refused. -/
abbrev Change (ε σ α : Type) := ExceptT ε (StateM σ) α

namespace Change

variable {ε ε' σ α β : Type}

/-- The answer to a change, or why it was refused, and the state that it leaves. -/
def on (x : Change ε σ α) (s : σ) : Except ε α × σ :=
  x.run.run s

/-- The same change, with the refusals of a larger kind. -/
def refusedAs (f : ε → ε') (x : Change ε σ α) : Change ε' σ α :=
  ExceptT.adapt f x

theorem on_bind (x : Change ε σ α) (f : α → Change ε σ β) (s : σ) :
    (x >>= f : Change ε σ β).on s =
      match x.on s with
      | (.ok a, s') => (f a).on s'
      | (.error e, s') => (.error e, s') := by
  have hrun : (x >>= f : Change ε σ β).on s =
      (ExceptT.bindCont f (x.on s).1 : StateM σ (Except ε β)).run (x.on s).2 := rfl
  rw [hrun]
  obtain ⟨answer, s'⟩ := x.on s
  cases answer <;> rfl

@[simp] theorem on_pure (a : α) (s : σ) : (pure a : Change ε σ α).on s = (.ok a, s) :=
  rfl

@[simp] theorem on_throw (e : ε) (s : σ) : (throw e : Change ε σ α).on s = (.error e, s) :=
  rfl

@[simp] theorem on_get (s : σ) : (get : Change ε σ σ).on s = (.ok s, s) :=
  rfl

@[simp] theorem on_getThe (s : σ) : (getThe σ : Change ε σ σ).on s = (.ok s, s) :=
  rfl

@[simp] theorem on_set (s s' : σ) : (set s' : Change ε σ PUnit).on s = (.ok ⟨⟩, s') :=
  rfl

@[simp] theorem on_modify (f : σ → σ) (s : σ) :
    (modify f : Change ε σ PUnit).on s = (.ok ⟨⟩, f s) :=
  rfl

/-- What is worked out without the state leaves it as it is. -/
@[simp] theorem on_lift (x : Except ε α) (s : σ) : (liftM x : Change ε σ α).on s = (x, s) :=
  rfl

theorem on_refusedAs (f : ε → ε') (x : Change ε σ α) (s : σ) :
    (x.refusedAs f).on s = ((x.on s).1.mapError f, (x.on s).2) :=
  rfl

end Change

end Categorial
