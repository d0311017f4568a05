import Mathlib.Data.List.Forall2
import Relational.Proofs.Json.Tokens

/-!
# Arrays and objects

A reader of items takes away a container if it takes away each item, since behind an item there is a
comma or the closing bracket, from which numbers keep apart. A container nests one deeper than the
deepest of its items. What readers of containers come to is put together from what the readers of
the items come to, wherever the text comes from.
-/
namespace Relational.Json

variable {α β : Type} {item : Reader α} {writers : List Writer} {values : List α}
  {heights : List Nat} {writer : Writer} {height : Nat} {closing : Char}

/-! ## Items -/

/-- Items have a character each, besides those that follow. One character of a writer stands for its
item, and what follows comes behind. -/
theorem length_le_length_commas (spans : List.Forall₂ Spans writers heights) (rest : List Char) :
    writers.length + rest.length ≤ (commas writers rest).length := by
  induction spans with
  | nil => exact Nat.le_of_eq (Nat.zero_add _)
  | @cons writer height writers heights first others longer =>
    have begun : ∀ rest, rest.length + 1 ≤ (writer rest).length := by
      intro rest
      obtain ⟨_, text, written, _, _, _, le⟩ := first.begins rest
      rw [written, List.length_cons]
      exact Nat.succ_le_succ le
    cases writers with
    | nil =>
      rw [commas, List.length_singleton]
      have more := begun rest
      omega
    | cons next writers =>
      have more := begun (',' :: commas (next :: writers) rest)
      rw [List.length_cons] at more
      rw [commas, List.length_cons]
      · omega
      · exact fun impossible => nomatch impossible

/-- Items nest as deep as the deepest of them. -/
theorem nestingFrom_commas (spans : List.Forall₂ Spans writers heights) (level : Nat)
    (rest : List Char) : nestingFrom level false (commas writers rest) =
      max (level + heights.foldr max 0) (nestingFrom level false rest) := by
  induction spans with
  | nil => exact (Nat.max_eq_right (le_nestingFrom level false rest)).symm
  | @cons writer height writers heights first others later =>
    cases writers with
    | nil =>
      cases others
      rw [commas, first.nests, List.foldr_cons, List.foldr_nil, Nat.max_zero]
    | cons next writers =>
      have comma : nestingFrom level false (',' :: commas (next :: writers) rest) =
          nestingFrom level false (commas (next :: writers) rest) :=
        nestingFrom_of_plain (show [','].all isPlain = true from rfl) level _
      rw [commas, first.nests, comma, later, List.foldr_cons, ← Nat.max_assoc, Nat.add_max_add_left]
      exact fun impossible => nomatch impossible

/-- Items up to a closing bracket are taken away if each of them is. -/
theorem readItems_commas (closed : closing = ']' ∨ closing = '\x7d')
    (each : List.Forall₂ (Takes item) writers values) (some : writers ≠ []) {room : Nat}
    (enough : writers.length ≤ room) (rest : List Char) :
    readItems item closing room (commas writers (closing :: rest)) = .some (values, rest) := by
  have apart : ∀ rest, Apart (closing :: rest) ∧ isBlank closing = false ∧ closing ≠ ',' := by
    intro rest
    rcases closed with rfl | rfl
    · exact ⟨⟨rfl, rfl⟩, by decide, by decide⟩
    · exact ⟨⟨rfl, rfl⟩, by decide, by decide⟩
  induction each generalizing room with
  | nil => exact absurd rfl some
  | @cons writer value writers values first others later =>
    obtain ⟨room, rfl⟩ : ∃ less, room = less + 1 :=
      ⟨room - 1, by rw [List.length_cons] at enough; omega⟩
    cases writers with
    | nil =>
      cases others
      rw [commas, readItems, first _ (apart rest).1, Option.bind_eq_bind, Option.bind_some]
      dsimp only
      rw [skipBlanks_cons (apart rest).2.1]
      exact if_pos rfl
    | cons next writers =>
      rw [commas, readItems, first _ ⟨rfl, rfl⟩, Option.bind_eq_bind, Option.bind_some]
      · dsimp only
        rw [skipBlanks_cons (by decide)]
        dsimp only
        rw [if_neg (apart rest).2.2.symm, if_pos rfl,
          later (fun impossible => nomatch impossible) (Nat.le_of_succ_le_succ enough)]
        rfl
      · exact fun impossible => nomatch impossible

/-- A closing bracket is not expected where there is something else. -/
theorem expect?_eq_none {first : Char} (solid : isBlank first = false) (other : first ≠ closing)
    (rest : List Char) : expect? closing (first :: rest) = none := by
  rw [expect?, skipBlanks_cons solid]
  exact if_neg other

/-- A container is taken away if each of its items is. -/
theorem readBetween_commas {opening : Char} (solid : isBlank opening = false)
    (closed : closing = ']' ∨ closing = '\x7d') (spans : List.Forall₂ Spans writers heights)
    (each : List.Forall₂ (Takes item) writers values) (rest : List Char) :
    readBetween opening closing item (opening :: commas writers (closing :: rest)) =
      some (values, rest) := by
  rw [readBetween, expect?_cons solid, Option.bind_eq_bind, Option.bind_some]
  cases each with
  | nil =>
    have blank : isBlank closing = false := by
      rcases closed with rfl | rfl <;> decide
    rw [commas, expect?_cons blank]
  | @cons writer value writers values taken others =>
    have begun : ∃ first text, commas (writer :: writers) (closing :: rest) = first :: text ∧
        isBlank first = false ∧ first ≠ closing := by
      have starts : ∀ rest, ∃ first text, writer rest = first :: text ∧ isBlank first = false ∧
          first ≠ closing := by
        intro rest
        cases spans with
        | cons head _ =>
          obtain ⟨first, text, written, blank, array, object, _⟩ := head.begins rest
          refine ⟨first, text, written, blank, ?_⟩
          rcases closed with rfl | rfl
          · exact array
          · exact object
      cases writers with
      | nil => exact starts (closing :: rest)
      | cons next writers => exact starts (',' :: commas (next :: writers) (closing :: rest))
    obtain ⟨first, text, written, blank, other⟩ := begun
    have none : expect? closing (commas (writer :: writers) (closing :: rest)) = none := by
      rw [written, expect?_eq_none blank other]
    rw [none]
    have room := length_le_length_commas spans (closing :: rest)
    exact readItems_commas closed (.cons taken others) (fun impossible => nomatch impossible)
      (by omega) rest

/-- An array is taken away if each of its items is. -/
theorem takes_array (spans : List.Forall₂ Spans writers heights)
    (each : List.Forall₂ (Takes item) writers values) :
    Takes (readArray item) (array writers) values :=
  fun rest _ => readBetween_commas (by decide) (.inl rfl) spans each rest

/-- An object is taken away if each of its members is. -/
theorem takes_object (spans : List.Forall₂ Spans writers heights)
    (each : List.Forall₂ (Takes item) writers values) :
    Takes (readObject item) (object writers) values :=
  fun rest _ => readBetween_commas (by decide) (.inr rfl) spans each rest

/-- A container nests one deeper than its items. -/
theorem spans_between {opening : Char} (opened : opening = '[' ∨ opening = '\x7b')
    (closed : closing = ']' ∨ closing = '\x7d') (spans : List.Forall₂ Spans writers heights) :
    Spans (fun rest => opening :: commas writers (closing :: rest)) (heights.foldr max 0 + 1) where
  begins rest := by
    have longer : rest.length ≤ (commas writers (closing :: rest)).length := by
      have more := length_le_length_commas spans (closing :: rest)
      rw [List.length_cons] at more
      omega
    rcases opened with rfl | rfl
    · exact ⟨_, _, rfl, by decide, by decide, by decide, longer⟩
    · exact ⟨_, _, rfl, by decide, by decide, by decide, longer⟩
  nests level rest := by
    have quotes : opening ≠ '"' ∧ closing ≠ '"' ∧ closing ≠ '[' ∧ closing ≠ '\x7b' := by
      rcases opened with rfl | rfl <;> rcases closed with rfl | rfl <;> decide
    have least := le_nestingFrom level false rest
    rw [nestingFrom, if_neg quotes.1, if_pos opened, nestingFrom_commas spans, nestingFrom,
      if_neg quotes.2.1, if_neg (not_or.mpr quotes.2.2), if_pos closed, Nat.add_sub_cancel]
    omega

/-- An array nests one deeper than its items. -/
theorem spans_array (spans : List.Forall₂ Spans writers heights) :
    Spans (array writers) (heights.foldr max 0 + 1) :=
  spans_between (.inl rfl) (.inl rfl) spans

/-- An object nests one deeper than its members. -/
theorem spans_object (spans : List.Forall₂ Spans writers heights) :
    Spans (object writers) (heights.foldr max 0 + 1) :=
  spans_between (.inr rfl) (.inr rfl) spans

/-! ## Members -/

/-- What stands behind a name and a colon nests as it does without them. -/
theorem spans_behind {name : Writer} (spansName : Spans name 0) (spans : Spans writer height) :
    Spans (fun rest => name (':' :: writer rest)) height where
  begins rest := by
    obtain ⟨_, _, written, _, _, _, le⟩ := spans.begins rest
    obtain ⟨first, text, written', blank, array, object, le'⟩ :=
      spansName.begins (':' :: writer rest)
    refine ⟨first, text, written', blank, array, object, ?_⟩
    rw [written, List.length_cons, List.length_cons] at le'
    omega
  nests level rest := by
    have colon : nestingFrom level false (':' :: writer rest) =
        nestingFrom level false (writer rest) :=
      nestingFrom_of_plain (show [':'].all isPlain = true from rfl) level _
    have least := le_nestingFrom level false (writer rest)
    rw [spansName.nests, colon, Nat.add_zero, Nat.max_eq_right least, spans.nests]

/-- A member nests as deep as its value. -/
theorem spans_member (name : String) (spans : Spans writer height) :
    Spans (member name writer) height :=
  spans_behind (spans_text name) spans

/-- A member is taken away if its name and its value are. -/
theorem takes_behind {κ : Type} {name : Reader κ} {part : κ → Reader α} {front : Writer} {found : κ}
    {value : α} (named : Takes name front found) (takes : Takes (part found) writer value) :
    Takes (readMember name part) (fun rest => front (':' :: writer rest)) value := by
  intro rest apart
  rw [readMember, named _ ⟨rfl, rfl⟩, Option.bind_eq_bind, Option.bind_some]
  dsimp only
  rw [expect?_cons (by decide), Option.bind_eq_bind, Option.bind_some, takes rest apart]

/-- A member is taken away if its value is. -/
theorem takes_member {part : String → Reader α} {value : α} (name : String)
    (takes : Takes (part name) writer value) :
    Takes (readMember readText part) (member name writer) value :=
  takes_behind (fun rest _ => readText_text name rest) takes

/-- A member of an object of two named parts: one of the parts, or none if its name is another. -/
def readPart (firstName secondName : String) (first : Reader α) (second : Reader β)
    (name : String) : Reader (Option α × Option β) := fun input =>
  if name = firstName then (first input).map fun read => ((some read.1, none), read.2)
  else if name = secondName then (second input).map fun read => ((none, some read.1), read.2)
  else (skipAny input).map fun read => ((none, none), read.2)

/-- An object of two named parts is taken away if each of them is. -/
theorem takes_pair {firstName secondName : String} (different : firstName ≠ secondName)
    {first : Reader α} {second : Reader β} {one other : Writer} {left : α} {right : β}
    {oneHeight otherHeight : Nat} (spansOne : Spans one oneHeight)
    (spansOther : Spans other otherHeight) (takesOne : Takes first one left)
    (takesOther : Takes second other right) :
    Takes (readPair firstName secondName first second)
      (object [member firstName one, member secondName other]) (left, right) := by
  intro rest apart
  have takesFirst : Takes (readPart firstName secondName first second firstName) one
      (some left, none) := by
    intro rest apart
    rw [readPart, if_pos rfl, takesOne rest apart, Option.map_some]
  have takesSecond : Takes (readPart firstName secondName first second secondName) other
      (none, some right) := by
    intro rest apart
    rw [readPart, if_neg different.symm, if_pos rfl, takesOther rest apart, Option.map_some]
  have parts := takes_object (.cons (spans_member firstName spansOne)
      (.cons (spans_member secondName spansOther) .nil))
    (.cons (takes_member firstName takesFirst) (.cons (takes_member secondName takesSecond) .nil))
    rest apart
  rw [readPair, object, skipBlanks_cons (by decide)]
  show (readObject (readMember readText (readPart firstName secondName first second))
    (object [member firstName one, member secondName other] rest)).bind (fun read =>
      (single? (read.1.filterMap fun part : Option α × Option β => part.1)).bind fun left =>
        (single? (read.1.filterMap fun part : Option α × Option β => part.2)).bind fun right =>
          some ((left, right), read.2)) = _
  rw [parts]
  rfl

/-! ## What readers come to -/

/-- Whatever value a reader comes to is good. -/
def Yields (reader : Reader α) (good : α → Prop) : Prop :=
  ∀ input value rest, reader input = some (value, rest) → good value

variable {good : α → Prop} {better : β → Prop}

/-- Items are what a reader of items comes to. -/
theorem yields_items (yields : Yields item good) (closing : Char) (room : Nat) :
    Yields (readItems item closing room) fun values => ∀ value ∈ values, good value := by
  induction room with
  | zero => exact fun _ _ _ impossible => nomatch impossible
  | succ room later =>
    intro input values rest read
    obtain ⟨⟨first, behind⟩, here, read⟩ := Option.bind_eq_some_iff.mp read
    have fine := yields input first behind here
    dsimp only at read
    split at read
    · exact nomatch read
    · split at read
      · cases read
        exact List.forall_mem_singleton.mpr fine
      · split at read
        · obtain ⟨⟨others, last⟩, there, read⟩ := Option.bind_eq_some_iff.mp read
          cases read
          exact List.forall_mem_cons.mpr ⟨fine, later _ others last there⟩
        · exact nomatch read

/-- Items are what a reader of a container comes to. -/
theorem yields_between (yields : Yields item good) (opening closing : Char) :
    Yields (readBetween opening closing item) fun values => ∀ value ∈ values, good value := by
  intro input values rest read
  obtain ⟨behind, opened, read⟩ := Option.bind_eq_some_iff.mp read
  split at read
  · cases read
    exact fun _ impossible => nomatch impossible
  · exact yields_items yields closing _ _ _ _ read

/-- The value is what a reader of a member comes to. -/
theorem yields_member {κ : Type} {name : Reader κ} {part : κ → Reader α}
    (yields : ∀ found, Yields (part found) good) : Yields (readMember name part) good := by
  intro input value rest read
  obtain ⟨⟨found, behind⟩, _, read⟩ := Option.bind_eq_some_iff.mp read
  obtain ⟨behind, _, read⟩ := Option.bind_eq_some_iff.mp read
  exact yields found _ _ _ read

/-- The one item of a list is among its items. -/
theorem mem_of_single? {values : List α} {value : α} (one : single? values = some value) :
    value ∈ values := by
  unfold single? at one
  split at one
  · cases one
    exact List.mem_singleton.mpr rfl
  · exact nomatch one

/-- One of the two parts is what a reader of a named part comes to, if anything. -/
theorem yields_part {firstName secondName : String} {first : Reader α} {second : Reader β}
    (yieldsFirst : Yields first good) (yieldsSecond : Yields second better) (name : String) :
    Yields (readPart firstName secondName first second name) fun part =>
      (∀ value, part.1 = some value → good value) ∧
        ∀ value, part.2 = some value → better value := by
  intro input part rest read
  unfold readPart at read
  split at read
  · obtain ⟨⟨value, behind⟩, here, same⟩ := Option.map_eq_some_iff.mp read
    cases same
    exact ⟨fun _ same => Option.some.inj same ▸ yieldsFirst _ _ _ here,
      fun _ impossible => nomatch impossible⟩
  split at read
  · obtain ⟨⟨value, behind⟩, here, same⟩ := Option.map_eq_some_iff.mp read
    cases same
    exact ⟨fun _ impossible => (nomatch impossible),
      fun _ same => Option.some.inj same ▸ yieldsSecond _ _ _ here⟩
  · obtain ⟨⟨_, behind⟩, here, same⟩ := Option.map_eq_some_iff.mp read
    cases same
    exact ⟨fun _ impossible => (nomatch impossible), fun _ impossible => (nomatch impossible)⟩

/-- The two parts are what a reader of two named parts comes to, in either form. -/
theorem yields_pair {firstName secondName : String} {first : Reader α} {second : Reader β}
    (yieldsFirst : Yields first good) (yieldsSecond : Yields second better) :
    Yields (readPair firstName secondName first second) fun pair =>
      good pair.1 ∧ better pair.2 := by
  intro input pair rest read
  unfold readPair at read
  split at read
  · obtain ⟨⟨left, behind⟩, here, read⟩ := Option.bind_eq_some_iff.mp read
    obtain ⟨behind, _, read⟩ := Option.bind_eq_some_iff.mp read
    obtain ⟨⟨right, behind⟩, there, read⟩ := Option.bind_eq_some_iff.mp read
    obtain ⟨behind, _, read⟩ := Option.bind_eq_some_iff.mp read
    cases read
    exact ⟨yieldsFirst _ _ _ here, yieldsSecond _ _ _ there⟩
  · obtain ⟨⟨parts, behind⟩, here, read⟩ := Option.bind_eq_some_iff.mp read
    obtain ⟨left, leftRead, read⟩ := Option.bind_eq_some_iff.mp read
    obtain ⟨right, rightRead, read⟩ := Option.bind_eq_some_iff.mp read
    cases read
    have fine :=
      yields_between (yields_member (yields_part yieldsFirst yieldsSecond)) _ _ _ _ _ here
    obtain ⟨part, member, same⟩ := List.mem_filterMap.mp (mem_of_single? leftRead)
    obtain ⟨other, member', same'⟩ := List.mem_filterMap.mp (mem_of_single? rightRead)
    exact ⟨(fine part member).1 left same, (fine other member').2 right same'⟩

end Relational.Json
