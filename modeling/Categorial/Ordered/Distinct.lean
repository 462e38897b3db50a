/-!
# Distinct elements

The elements of a list in the order of their first occurrence, each once, as `List.eraseDups` keeps
them.

* `nodup_eraseDups`: no element is kept twice.
* `eraseDups_of_nodup`: a list without repetition is kept as it is.
* `eraseDups_concat`: an element behind a list is kept if it is new.
* `eraseDups_map`: an injective function respects repetitions.
-/

namespace Categorial

namespace Distinct

variable {α : Type} [DecidableEq α]

theorem removeAll_concat (as bs : List α) (a : α) :
    as.removeAll (bs ++ [a]) = (as.removeAll bs).filter fun b => !b == a := by
  simp only [List.removeAll, List.filter_filter]
  apply List.filter_congr
  intro b _
  by_cases hb : b ∈ bs <;> by_cases ha : b = a <;> simp [hb, ha]

theorem removeAll_eraseDups (as bs : List α) : as.removeAll bs.eraseDups = as.removeAll bs := by
  refine List.filter_congr fun a _ => congrArg (! ·) ?_
  rw [Bool.eq_iff_iff, List.elem_iff, List.elem_iff, List.mem_eraseDups]

theorem length_filter_lt (a : α) (as : List α) :
    (as.filter fun b => !b == a).length < (a :: as).length := by
  have := List.length_filter_le (fun b => !b == a) as
  simp only [List.length_cons]
  omega

theorem nodup_eraseDups (as : List α) : as.eraseDups.Nodup := by
  match as with
  | [] => exact List.nodup_nil
  | a :: as =>
    rw [List.eraseDups_cons, List.nodup_cons]
    exact ⟨by simp, nodup_eraseDups _⟩
termination_by as.length
decreasing_by exact length_filter_lt a as

theorem eraseDups_of_nodup {as : List α} (h : as.Nodup) : as.eraseDups = as := by
  induction as with
  | nil => rfl
  | cons a as ih =>
    obtain ⟨ha, has⟩ := List.nodup_cons.mp h
    have hfilter : (as.filter fun b => !b == a) = as := by
      rw [List.filter_eq_self]
      intro b hb
      simpa using fun hba : b = a => ha (hba ▸ hb)
    rw [List.eraseDups_cons, hfilter, ih has]

theorem eraseDups_concat {β : Type} [BEq β] [LawfulBEq β] (as : List β) (a : β) :
    (as ++ [a]).eraseDups = if a ∈ as then as.eraseDups else as.eraseDups ++ [a] := by
  have hsingle : [a].eraseDups = [a] := by simp [List.eraseDups_cons]
  rw [List.eraseDups_append, List.cons_removeAll, List.nil_removeAll]
  by_cases ha : a ∈ as
  · rw [if_pos ha, if_neg (by simpa using ha), List.eraseDups_nil, List.append_nil]
  · rw [if_neg ha, if_pos (by simpa using ha), hsingle]

theorem eraseDups_map {β : Type} [DecidableEq β] {f : α → β} (hf : ∀ a b, f a = f b → a = b)
    (as : List α) : (as.map f).eraseDups = as.eraseDups.map f := by
  match as with
  | [] => rfl
  | a :: as =>
    have hkeep : (fun b => !b == f a) ∘ f = fun b => !b == a := by
      funext b
      by_cases hba : b = a
      · rw [hba, Function.comp_apply, beq_self_eq_true, beq_self_eq_true]
      · rw [Function.comp_apply, beq_false_of_ne (mt (hf b a) hba), beq_false_of_ne hba]
    rw [List.map_cons, List.eraseDups_cons, List.eraseDups_cons, List.map_cons, List.filter_map,
      hkeep, eraseDups_map hf]
termination_by as.length
decreasing_by exact length_filter_lt a as

end Distinct

end Categorial
