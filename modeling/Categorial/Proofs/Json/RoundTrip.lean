import Mathlib.Data.List.Induction
import Mathlib.Data.List.Basic
import Categorial.Proofs.Json.Characters

/-!
# Reading back JSON

A JSON value is read back from its written form. Two things can go wrong with a value and are
excluded: a number whose text is none, and an object with a key that occurs twice. The text is read
in two stages. Its tokens are those of the value, whatever the depth of the lines, and the reader of
tokens comes back from each value to what was open in front of it.

* `behind_renderAt`: the tokens of a written value.
* `foldlM_tokens`: what these tokens are read as.
* `parse_render_append`: a value is read back, also with blanks behind it.
-/

namespace Categorial

namespace OrderedMap

variable {κ ν : Type} [DecidableEq κ] [Hashable κ]

theorem toList_insert_of_notMem {m : OrderedMap κ ν} {k : κ} (hk : k ∉ m.keys) (v : ν) :
    (m.insert k v).toList = m.toList ++ [(k, v)] := by
  have hold : ∀ k' ∈ m.keys, ((m.insert k v).get? k').map (k', ·) = (m.get? k').map (k', ·) := by
    intro k' hk'
    have hne : k ≠ k' := fun heq => hk (heq ▸ hk')
    rw [get?_insert, if_neg hne]
  have hnew : [k].filterMap (fun k' => ((m.insert k v).get? k').map (k', ·)) = [(k, v)] := by
    rw [List.filterMap_cons, get?_insert, if_pos rfl]
    rfl
  rw [toList, keys_insert, if_neg hk, List.filterMap_append, List.filterMap_congr hold, hnew,
    toList]

/-- Pairs with different keys are kept in their order. -/
theorem toList_ofList {pairs : List (κ × ν)} (h : (pairs.map (·.1)).Nodup) :
    (ofList pairs).toList = pairs := by
  have hboth : (ofList pairs).keys = pairs.map (·.1) ∧ (ofList pairs).toList = pairs := by
    induction pairs using List.reverseRecOn with
    | nil => exact ⟨rfl, rfl⟩
    | append_singleton pairs p ih =>
      rw [List.map_append, List.map_singleton, List.nodup_append] at h
      obtain ⟨hkeys, htoList⟩ := ih h.1
      have hnew : p.1 ∉ (ofList pairs).keys := by
        rw [hkeys]
        exact fun hmem => h.2.2 p.1 hmem p.1 (List.mem_singleton_self _) rfl
      have hconcat : ofList (pairs ++ [p]) = (ofList pairs).insert p.1 p.2 := by
        rw [ofList, List.foldl_append]
        rfl
      rw [hconcat, keys_insert, if_neg hnew, toList_insert_of_notMem hnew, hkeys, htoList,
        List.map_append]
      exact ⟨rfl, rfl⟩
  exact hboth.2

end OrderedMap

namespace Json

open Token (Behind)

/-! ## Values that can be read back -/

/-- The text of a number. -/
structure IsNumeral (text : String) : Prop where
  all_continue : text.toList.all Token.continuesScalar = true
  scalar_eq : Token.scalar text.toList = .number text

theorem IsNumeral.ne_nil {text : String} (h : IsNumeral text) : text.toList ≠ [] := by
  intro heq
  have hscalar := h.scalar_eq
  rw [heq] at hscalar
  cases hscalar

/-- A value with the text of a number for each number, and no key twice in an object. -/
inductive Legible : Json → Prop
  | null : Legible .null
  | bool (b : Bool) : Legible (.bool b)
  | number {text : String} (h : IsNumeral text) : Legible (.number text)
  | string (text : String) : Legible (.string text)
  | array {vs : List Json} (h : ∀ v ∈ vs, Legible v) : Legible (.array vs)
  | object {ms : List (String × Json)} (hkeys : (ms.map (·.1)).Nodup)
      (h : ∀ m ∈ ms, Legible m.2) : Legible (.object ms)

/-! ## The tokens of a value -/

mutual

/-- The tokens of a value. -/
def tokens : Json → List Token
  | null => [.null]
  | bool b => [.bool b]
  | number text => [.number text]
  | string text => [.string text]
  | array [] => [.openArray, .closeArray]
  | array (v :: vs) => .openArray :: (tokens v ++ (tokensOfItems vs ++ [.closeArray]))
  | object [] => [.openObject, .closeObject]
  | object ((key, v) :: ms) =>
    .openObject :: .string key :: .colon :: (tokens v ++ (tokensOfMembers ms ++ [.closeObject]))

/-- The tokens of further items. -/
def tokensOfItems : List Json → List Token
  | [] => []
  | v :: vs => .comma :: (tokens v ++ tokensOfItems vs)

/-- The tokens of further members. -/
def tokensOfMembers : List (String × Json) → List Token
  | [] => []
  | (key, v) :: ms => .comma :: .string key :: .colon :: (tokens v ++ tokensOfMembers ms)

end

/-! ## From the text to its tokens -/

variable {ts : List Token} {s : Token.State}

/-- The text of a value is read as its tokens, at any depth. -/
def Tokenized (v : Json) : Prop :=
  ∀ depth ts, Behind ((tokens v).reverse ++ ts)
    ((renderAt depth v).toList.foldl Token.step ⟨ts, .gap⟩)

theorem tokenized_scalar {v : Json} {text : String} (hrender : ∀ depth, renderAt depth v = text)
    (htokens : tokens v = [Token.scalar text.toList]) (hne : text.toList ≠ [])
    (h : text.toList.all Token.continuesScalar = true) : Tokenized v := by
  intro depth ts
  rw [hrender, htokens]
  exact Token.behind_scalar (List.all_eq_true.mp h) hne ts

theorem behind_member {v : Json} (hv : Tokenized v) (key : String) (depth : Nat)
    (hs : Behind ts s) :
    Behind ((tokens v).reverse ++ (.colon :: .string key :: ts))
      ((newLine depth ++ writeString key ++ ": " ++ renderAt depth v).toList.foldl
        Token.step s) := by
  have hcolon : ": ".toList.foldl Token.step ⟨.string key :: ts, .gap⟩ =
      ⟨.colon :: .string key :: ts, .gap⟩ := rfl
  simp only [String.toList_append, List.foldl_append]
  rw [hs.foldl_newLine, Behind.gap.foldl_writeString, hcolon]
  exact hv depth _

theorem behind_items {vs : List Json} (h : ∀ v ∈ vs, Tokenized v) (depth : Nat)
    (hs : Behind ts s) :
    Behind ((tokensOfItems vs).reverse ++ ts)
      ((renderItems depth vs).toList.foldl Token.step s) := by
  induction vs generalizing ts s with
  | nil => exact hs
  | cons v vs ih =>
    rw [List.forall_mem_cons] at h
    have hcomma : ",".toList.foldl Token.step s = ⟨.comma :: ts, .gap⟩ := hs.step_eq rfl
    have htokens : (tokensOfItems (v :: vs)).reverse ++ ts =
        (tokensOfItems vs).reverse ++ ((tokens v).reverse ++ (.comma :: ts)) := by
      simp [tokensOfItems]
    rw [htokens, renderItems]
    simp only [String.toList_append, List.foldl_append]
    rw [hcomma, Behind.gap.foldl_newLine]
    exact ih h.2 (h.1 depth _)

theorem behind_members {ms : List (String × Json)} (h : ∀ m ∈ ms, Tokenized m.2) (depth : Nat)
    (hs : Behind ts s) :
    Behind ((tokensOfMembers ms).reverse ++ ts)
      ((renderMembers depth ms).toList.foldl Token.step s) := by
  induction ms generalizing ts s with
  | nil => exact hs
  | cons m ms ih =>
    obtain ⟨key, v⟩ := m
    rw [List.forall_mem_cons] at h
    have hcomma : ",".toList.foldl Token.step s = ⟨.comma :: ts, .gap⟩ := hs.step_eq rfl
    have htokens : (tokensOfMembers ((key, v) :: ms)).reverse ++ ts =
        (tokensOfMembers ms).reverse ++
          ((tokens v).reverse ++ (.colon :: .string key :: .comma :: ts)) := by
      simp [tokensOfMembers]
    have htext : renderMembers depth ((key, v) :: ms) =
        "," ++ (newLine depth ++ writeString key ++ ": " ++ renderAt depth v) ++
          renderMembers depth ms := by
      simp only [renderMembers, String.append_assoc]
    rw [htokens, htext, String.toList_append, String.toList_append, List.foldl_append,
      List.foldl_append, hcomma]
    exact ih h.2 (behind_member h.1 key depth .gap)

theorem tokenized_array {vs : List Json} (h : ∀ v ∈ vs, Tokenized v) : Tokenized (.array vs) := by
  intro depth ts
  cases vs with
  | nil =>
    rw [renderAt, tokens]
    exact .gap
  | cons v vs =>
    rw [List.forall_mem_cons] at h
    have hopen : "[".toList.foldl Token.step ⟨ts, .gap⟩ = ⟨.openArray :: ts, .gap⟩ := rfl
    have htokens : (tokens (.array (v :: vs))).reverse ++ ts =
        .closeArray ::
          ((tokensOfItems vs).reverse ++ ((tokens v).reverse ++ (.openArray :: ts))) := by
      simp [tokens]
    have hclose : "]".toList.foldl Token.step
        ⟨(tokensOfItems vs).reverse ++ ((tokens v).reverse ++ (.openArray :: ts)), .gap⟩ =
          ⟨(tokens (.array (v :: vs))).reverse ++ ts, .gap⟩ := by
      rw [htokens]
      rfl
    have hitems := behind_items h.2 (depth + 1) (h.1 (depth + 1) (.openArray :: ts))
    rw [renderAt]
    simp only [String.toList_append, List.foldl_append]
    rw [hopen, Behind.gap.foldl_newLine, hitems.foldl_newLine, hclose]
    exact .gap

theorem tokenized_object {ms : List (String × Json)} (h : ∀ m ∈ ms, Tokenized m.2) :
    Tokenized (.object ms) := by
  intro depth ts
  cases ms with
  | nil =>
    rw [renderAt, tokens]
    exact .gap
  | cons m ms =>
    obtain ⟨key, v⟩ := m
    rw [List.forall_mem_cons] at h
    have hopen : "\x7b".toList.foldl Token.step ⟨ts, .gap⟩ = ⟨.openObject :: ts, .gap⟩ := rfl
    have htokens : (tokens (.object ((key, v) :: ms))).reverse ++ ts =
        .closeObject :: ((tokensOfMembers ms).reverse ++
          ((tokens v).reverse ++ (.colon :: .string key :: .openObject :: ts))) := by
      simp [tokens]
    have hclose : "\x7d".toList.foldl Token.step
        ⟨(tokensOfMembers ms).reverse ++
          ((tokens v).reverse ++ (.colon :: .string key :: .openObject :: ts)), .gap⟩ =
          ⟨(tokens (.object ((key, v) :: ms))).reverse ++ ts, .gap⟩ := by
      rw [htokens]
      rfl
    have hmember : Behind ((tokens v).reverse ++ (.colon :: .string key :: .openObject :: ts)) _ :=
      behind_member h.1 key (depth + 1) .gap
    have hmembers := behind_members h.2 (depth + 1) hmember
    have htext : renderAt depth (.object ((key, v) :: ms)) =
        "\x7b" ++ (newLine (depth + 1) ++ writeString key ++ ": " ++ renderAt (depth + 1) v) ++
          renderMembers (depth + 1) ms ++ newLine depth ++ "\x7d" := by
      simp only [renderAt, String.append_assoc]
    rw [htext]
    simp only [String.toList_append, List.foldl_append] at hmembers ⊢
    rw [hopen, hmembers.foldl_newLine, hclose]
    exact .gap

theorem behind_renderAt {v : Json} (h : Legible v) : Tokenized v := by
  induction h with
  | null => exact tokenized_scalar (fun _ => rfl) rfl (by decide) (by decide)
  | bool b =>
    cases b with
    | false => exact tokenized_scalar (fun _ => rfl) rfl (by decide) (by decide)
    | true => exact tokenized_scalar (fun _ => rfl) rfl (by decide) (by decide)
  | number h =>
    refine tokenized_scalar (fun _ => rfl) ?_ h.ne_nil h.all_continue
    rw [h.scalar_eq]
    rfl
  | string text =>
    intro depth ts
    rw [renderAt, Behind.gap.foldl_writeString]
    exact .gap
  | array _ ih => exact tokenized_array ih
  | object _ _ ih => exact tokenized_object ih

/-! ## From the tokens to the value -/

/-- The tokens of a value are read as this value, whatever is open and whatever follows. -/
def Rebuilt (v : Json) : Prop :=
  ∀ opened rest, (tokens v ++ rest).foldlM step ⟨opened, .value⟩ = rest.foldlM step (put opened v)

theorem foldlM_of_step {s s' : State} {t : Token} (h : step s t = .ok s') (rest : List Token) :
    (t :: rest).foldlM step s = rest.foldlM step s' := by
  rw [List.foldlM_cons, h]
  rfl

theorem tokens_head (v : Json) : ∃ t rest, tokens v = t :: rest ∧ t ≠ .closeArray := by
  cases v with
  | null | bool | number | string => exact ⟨_, _, rfl, nofun⟩
  | array vs => cases vs <;> exact ⟨.openArray, _, by rw [tokens], nofun⟩
  | object ms => cases ms <;> exact ⟨.openObject, _, by rw [tokens], nofun⟩

/-- The first item is read as any other value. -/
theorem foldlM_firstItem (v : Json) (opened : List Frame) (rest : List Token) :
    (tokens v ++ rest).foldlM step ⟨.items [] :: opened, .firstItem⟩ =
      (tokens v ++ rest).foldlM step ⟨.items [] :: opened, .value⟩ := by
  obtain ⟨t, more, htokens, ht⟩ := tokens_head v
  have hstep : step ⟨.items [] :: opened, .firstItem⟩ t = step ⟨.items [] :: opened, .value⟩ t := by
    cases t with
    | closeArray => exact absurd rfl ht
    | _ => rfl
  rw [htokens, List.cons_append, List.foldlM_cons, List.foldlM_cons, hstep]

theorem foldlM_items {vs : List Json} (h : ∀ v ∈ vs, Rebuilt v) (read : List Json)
    (opened : List Frame) (rest : List Token) :
    (tokensOfItems vs ++ rest).foldlM step ⟨.items read :: opened, .separator⟩ =
      rest.foldlM step ⟨.items (vs.reverse ++ read) :: opened, .separator⟩ := by
  induction vs generalizing read with
  | nil => rw [tokensOfItems, List.nil_append, List.reverse_nil, List.nil_append]
  | cons v vs ih =>
    rw [List.forall_mem_cons] at h
    rw [tokensOfItems, List.cons_append, List.append_assoc, foldlM_of_step rfl, h.1, put, ih h.2,
      List.reverse_cons, List.append_assoc, List.singleton_append]

/-- The key of the last member stays in the frame and is not read again. -/
theorem foldlM_members {ms : List (String × Json)} (h : ∀ m ∈ ms, Rebuilt m.2)
    (read : List (String × Json)) (key : String) (opened : List Frame) (rest : List Token) :
    ∃ key', (tokensOfMembers ms ++ rest).foldlM step ⟨.member read key :: opened, .separator⟩ =
      rest.foldlM step ⟨.member (ms.reverse ++ read) key' :: opened, .separator⟩ := by
  induction ms generalizing read key with
  | nil => exact ⟨key, by rw [tokensOfMembers, List.nil_append, List.reverse_nil, List.nil_append]⟩
  | cons m ms ih =>
    obtain ⟨k, v⟩ := m
    rw [List.forall_mem_cons] at h
    obtain ⟨key', hrest⟩ := ih h.2 ((k, v) :: read) k
    refine ⟨key', ?_⟩
    -- the comma, the key and the colon are one step each
    rw [tokensOfMembers, List.cons_append, List.cons_append, List.cons_append, List.append_assoc,
      foldlM_of_step rfl, foldlM_of_step rfl, foldlM_of_step rfl, h.1, put, hrest,
      List.reverse_cons, List.append_assoc, List.singleton_append]

theorem rebuilt_array {vs : List Json} (h : ∀ v ∈ vs, Rebuilt v) : Rebuilt (.array vs) := by
  intro opened rest
  cases vs with
  | nil =>
    rw [tokens, List.cons_append, foldlM_of_step rfl, List.singleton_append, foldlM_of_step rfl]
  | cons v vs =>
    rw [List.forall_mem_cons] at h
    have hclose : step ⟨.items (vs.reverse ++ [v]) :: opened, .separator⟩ .closeArray =
        .ok (put opened (.array (v :: vs))) := by
      simp [step, stepSeparator]
    rw [tokens, List.cons_append, List.append_assoc, List.append_assoc, foldlM_of_step rfl,
      foldlM_firstItem, h.1, put, foldlM_items h.2, List.singleton_append, foldlM_of_step hclose]

theorem rebuilt_object {ms : List (String × Json)} (hkeys : (ms.map (·.1)).Nodup)
    (h : ∀ m ∈ ms, Rebuilt m.2) : Rebuilt (.object ms) := by
  intro opened rest
  cases ms with
  | nil =>
    rw [tokens, List.cons_append, foldlM_of_step rfl, List.singleton_append, foldlM_of_step rfl]
  | cons m ms =>
    obtain ⟨key, v⟩ := m
    rw [List.forall_mem_cons] at h
    obtain ⟨key', hrest⟩ := foldlM_members h.2 [(key, v)] key opened (.closeObject :: rest)
    have hclose : step ⟨.member (ms.reverse ++ [(key, v)]) key' :: opened, .separator⟩
        .closeObject = .ok (put opened (.object ((key, v) :: ms))) := by
      have hmembers : ofMembers (ms.reverse ++ [(key, v)]) = .object ((key, v) :: ms) := by
        rw [ofMembers, List.reverse_append, List.reverse_reverse, List.reverse_singleton,
          List.singleton_append, OrderedMap.toList_ofList hkeys]
      rw [← hmembers]
      rfl
    rw [tokens, List.cons_append, List.cons_append, List.cons_append, List.append_assoc,
      List.append_assoc, foldlM_of_step rfl, foldlM_of_step rfl, foldlM_of_step rfl, h.1, put,
      List.singleton_append, hrest, foldlM_of_step hclose]

theorem foldlM_tokens {v : Json} (h : Legible v) : Rebuilt v := by
  induction h with
  | null | bool | number | string => exact fun _ _ => foldlM_of_step rfl _
  | array _ ih => exact rebuilt_array ih
  | object hkeys _ ih => exact rebuilt_object hkeys ih

/-- **A value is read back.** The written form of a value whose numbers are numbers and whose keys
are different is read as this value, with or without blanks behind it. -/
theorem parse_render_append {v : Json} (h : Legible v) {cs : List Char}
    (hcs : ∀ c ∈ cs, Token.isGap c = true) : parse (v.render.toList ++ cs) = .ok v := by
  have htokens : Token.ofText (v.render.toList ++ cs) = tokens v := by
    have hbehind := (behind_renderAt h 0 []).foldl_gaps hcs
    rw [Token.ofText, List.foldl_append, render, hbehind.finish_eq, List.append_nil,
      List.reverse_reverse]
  have hvalue := foldlM_tokens h [] []
  rw [List.append_nil] at hvalue
  rw [parse, htokens, ofTokens, hvalue]
  rfl

end Json

end Categorial
