import Categorial.Proofs.Lexicon.Pairs

/-!
# Sequences of operations on a lexicon

A lexicon changes only when a category is added that can be read and that its word does not have
yet. So after any operations it is the lexicon of the pairs that could be read, in order
(`after_ofPairs`), and what these pairs say of it holds at every moment.

* `LexiconOperation`, `Lexicon.perform`: the operations as requests with an answer or a refusal.
* `perform_add_of_error`, `perform_add_of_mem`, `perform_add_of_notMem`: the three ways in which
  an addition ends.
* `perform_snd_ofPairs`, `after_ofPairs`: one operation, and a sequence of operations.
* `lexicon_of_first_additions`: what a lexicon holds, and how it answers.
-/

namespace Categorial

/-- What can be asked of a lexicon. -/
inductive LexiconOperation
  | add (word : String) (source : CategorySource)
  | get (word : String)
  | lookup (word : String)
  | contains (word : String)
  | words
  | size
  | categories
  | sameAs (other : Lexicon)
  | summary

/-- What a lexicon answers. -/
inductive LexiconAnswer
  | truth (b : Bool)
  | number (n : Nat)
  | text (t : String)
  | words (ws : List String)
  | categories (cs : List Category)

/-- Why a lexicon does not answer. -/
inductive LexiconRefusal
  | malformed (e : ReadError)
  | unknownWord (word : String)

/-- The additions that an operation asks for. -/
def LexiconOperation.additions : LexiconOperation → List (String × CategorySource)
  | add word source => [(word, source)]
  | _ => []

namespace Lexicon

/-- The steps of an operation, with its answer. -/
def steps : LexiconOperation → Change LexiconRefusal Lexicon LexiconAnswer
  | .add word source => do return .truth (← (addSource word source).refusedAs .malformed)
  | .get word => do
    match (← get).get? word with
    | some cs => return .categories cs
    | none => throw (.unknownWord word)
  | .lookup word => do return .categories ((← get).lookup word)
  | .contains word => do return .truth ((← get).contains word)
  | .words => do return .words (← get).words
  | .size => do return .number (← get).size
  | .categories => do return .categories (← get).categories
  | .sameAs other => do return .truth ((← get).sameAs other)
  | .summary => do return .text (← get).summary

/-- The answer to an operation, and the lexicon as it then is, refused or not. -/
def perform (l : Lexicon) (op : LexiconOperation) : Except LexiconRefusal LexiconAnswer × Lexicon :=
  (steps op).on l

/-- The lexicon after a sequence of operations. -/
def after (l : Lexicon) (ops : List LexiconOperation) : Lexicon :=
  ops.foldl (fun l op => (l.perform op).2) l

/-! ## One operation -/

variable {w : String} {source : CategorySource} {c : Category}

theorem perform_add_of_error {e : ReadError} (h : source.resolve = .error e) (l : Lexicon)
    (w : String) : l.perform (.add w source) = (.error (.malformed e), l) := by
  simp only [perform, steps, Change.on_bind, Change.on_refusedAs, addSource_on_of_error l w h,
    Except.mapError]

theorem perform_add_of_ok (h : source.resolve = .ok c) (l : Lexicon) (w : String) :
    l.perform (.add w source) = (.ok (.truth (!(l.lookup w).contains c)), l.add w c) := by
  simp only [perform, steps, Change.on_bind, Change.on_refusedAs, addSource_on_of_ok l w h,
    Except.mapError, Change.on_pure]

theorem perform_add_of_mem {l : Lexicon} (h : source.resolve = .ok c) (hc : c ∈ l.lookup w) :
    l.perform (.add w source) = (.ok (.truth false), l) := by
  rw [perform_add_of_ok h, List.contains_iff_mem.mpr hc, add_of_mem l w c hc, Bool.not_true]

theorem perform_add_of_notMem {l : Lexicon} (h : source.resolve = .ok c) (hc : c ∉ l.lookup w) :
    l.perform (.add w source) = (.ok (.truth true), l.add w c) := by
  have hcontains : (l.lookup w).contains c = false :=
    Bool.eq_false_iff.mpr fun hmem => hc (List.contains_iff_mem.mp hmem)
  rw [perform_add_of_ok h, hcontains, Bool.not_false]

/-- Only additions can change a lexicon. -/
theorem perform_snd_of_additions_eq_nil {op : LexiconOperation} (h : op.additions = [])
    (l : Lexicon) : (l.perform op).2 = l := by
  cases op with
  | add => cases h
  | get word =>
    simp only [perform, steps, Change.on_bind, Change.on_get]
    split <;> rfl
  | lookup | contains | words | size | categories | sameAs | summary => rfl

theorem perform_snd_ofPairs (pairs : List (String × Category)) (op : LexiconOperation) :
    ((ofPairs pairs).perform op).2 = ofPairs (pairs ++ readable op.additions) := by
  cases hop : op.additions with
  | nil => rw [perform_snd_of_additions_eq_nil hop, readable_nil, List.append_nil]
  | cons a rest =>
    cases op with
    | add w source =>
      cases hop
      cases hsource : source.resolve with
      | error e =>
        rw [perform_add_of_error hsource, readable_cons_of_error hsource, readable_nil,
          List.append_nil]
      | ok c =>
        rw [perform_add_of_ok hsource, readable_cons_of_ok hsource, readable_nil, ofPairs_concat]
    | get | lookup | contains | words | size | categories | sameAs | summary => cases hop

/-! ## Sequences of operations -/

theorem after_ofPairs (pairs : List (String × Category)) (ops : List LexiconOperation) :
    (ofPairs pairs).after ops =
      ofPairs (pairs ++ readable (ops.flatMap LexiconOperation.additions)) := by
  induction ops generalizing pairs with
  | nil => rw [after, List.foldl_nil, List.flatMap_nil, readable_nil, List.append_nil]
  | cons op ops ih =>
    rw [after, List.foldl_cons, ← after, perform_snd_ofPairs, ih, List.flatMap_cons,
      readable_append, List.append_assoc]

theorem nodup_categoriesOf (pairs : List (String × Category)) (w : String) :
    (categoriesOf pairs w).Nodup :=
  Distinct.nodup_eraseDups _

/-- **A lexicon is what was first added.** Let operations be performed on the lexicon of some
entries. Its words are those of all the pairs that could be read, given or added, in the order of
first occurrence; each has a category, and has none twice, in this order; all categories are listed
by words, without repetition. An addition that cannot be read is refused, one of a category that its
word has is answered by no, and both leave the lexicon as it is. Any other addition is answered by
yes and makes the category the last one of its word; nothing else changes, except that a new word
comes last. No other operation changes anything. -/
theorem lexicon_of_first_additions {entries : List (String × CategoryEntry)} {l₀ : Lexicon}
    (hentries : ofEntries entries = .ok l₀) (ops : List LexiconOperation) :
    let l := l₀.after ops
    let pairs := readable (additions entries ++ ops.flatMap LexiconOperation.additions)
    l.words = (pairs.map (·.1)).eraseDups ∧
      (∀ w, l.get? w = if w ∈ l.words then some (categoriesOf pairs w) else none) ∧
      (∀ w cs, l.get? w = some cs → cs ≠ [] ∧ cs.Nodup) ∧
      l.categories = (l.words.flatMap l.lookup).eraseDups ∧
      (∀ w source e, source.resolve = .error e →
        l.perform (.add w source) = (.error (.malformed e), l)) ∧
      (∀ w source c, source.resolve = .ok c → c ∈ l.lookup w →
        l.perform (.add w source) = (.ok (.truth false), l)) ∧
      (∀ w source c, source.resolve = .ok c → c ∉ l.lookup w →
        ∃ l', l.perform (.add w source) = (.ok (.truth true), l') ∧
          l'.get? w = some (l.lookup w ++ [c]) ∧ (∀ w', w' ≠ w → l'.get? w' = l.get? w') ∧
          l'.words = if w ∈ l.words then l.words else l.words ++ [w]) ∧
      ∀ op : LexiconOperation, op.additions = [] → (l.perform op).2 = l := by
  intro l pairs
  have hl : l = ofPairs pairs := by
    obtain ⟨-, rfl⟩ := ofEntries_eq_ok_iff.mp hentries
    rw [show l = _ from after_ofPairs _ ops, ← readable_append]
  have hget : ∀ w, l.get? w = if w ∈ l.words then some (categoriesOf pairs w) else none := by
    intro w
    rw [hl, get?_ofPairs, words_ofPairs]
    simp only [List.mem_eraseDups]
  refine ⟨hl ▸ words_ofPairs pairs, hget, fun w cs hcs => ?_, ?_,
    fun w _ _ h => perform_add_of_error h l w, fun _ _ _ => perform_add_of_mem,
    fun w source c h hc => ⟨_, perform_add_of_notMem h hc, ?_, fun w' hw' => ?_, ?_⟩,
    fun _ hop => perform_snd_of_additions_eq_nil hop l⟩
  · rw [hget] at hcs
    split at hcs
    · next hw =>
      cases hcs
      rw [hl, words_ofPairs, List.mem_eraseDups] at hw
      exact ⟨categoriesOf_ne_nil hw, nodup_categoriesOf pairs w⟩
    · cases hcs
  · rw [categories_eq, hl, toList_ofPairs, words_ofPairs, List.flatMap_map,
      funext (lookup_ofPairs pairs)]
  · rw [get?_add, if_pos ⟨rfl, hc⟩]
  · rw [get?_add, if_neg fun h => hw' h.1.symm]
  · rw [words_add]
    simp only [hc, false_or]

/-- The same category in two spellings, a word without categories, and one with a category given
alone. -/
def spelledEntries : List (String × CategoryEntry) :=
  [("saw", .several [.text "(S\\NP)/NP", .text " ( S\\NP )/NP"]), ("oh", .several []),
    ("them", .one (.text "NP"))]

/-- The first addition cannot be read, and the last but one is a repetition. -/
def mixedOperations : List LexiconOperation :=
  [.add "they" (.text "NP("), .add "they" (.category .np), .get "us", .add "they" (.text " NP"),
    .add "saw" (.category .np)]

theorem lexicon_of_first_additions_spellings :
    ∃ l₀, ofEntries spelledEntries = .ok l₀ ∧
      (l₀.after mixedOperations).words = ["saw", "them", "they"] ∧
      (l₀.after mixedOperations).get? "them" = some [.np] ∧
      (l₀.after mixedOperations).get? "saw" = some [.forward (.backward .s .np) .np, .np] ∧
      ((l₀.after mixedOperations).perform (.add "saw" (.text "( NP"))).2 =
        l₀.after mixedOperations := by
  have hread : readable (additions spelledEntries ++
      mixedOperations.flatMap LexiconOperation.additions) =
        [("saw", .forward (.backward .s .np) .np), ("saw", .forward (.backward .s .np) .np),
          ("them", .np), ("they", .np), ("they", .np), ("saw", .np)] := by
    rfl
  have hsources : ∀ a ∈ additions spelledEntries, ∃ c, a.2.resolve = .ok c := by
    rintro a (_ | ⟨_, _ | ⟨_, _ | ⟨_, ⟨⟩⟩⟩⟩) <;> exact ⟨_, rfl⟩
  have hmalformed : (CategorySource.text "( NP").resolve = .error ⟨.noBracket, "( NP", 4⟩ := by rfl
  have hentries := ofEntries_eq_ok_iff.mpr ⟨hsources, rfl⟩
  obtain ⟨hwords, hget, -, -, herror, -⟩ := lexicon_of_first_additions hentries mixedOperations
  rw [hread] at hwords hget
  refine ⟨_, hentries, hwords, ?_, ?_, ?_⟩
  · rw [hget, hwords]
    decide
  · rw [hget, hwords]
    decide
  · rw [herror "saw" _ _ hmalformed]

end Lexicon

end Categorial
