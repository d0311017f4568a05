import Relational.Json.State
import Relational.Proofs.IntMap.Canonical
import Relational.Proofs.IntMap.History
import Relational.Proofs.Json.Containers

/-!
# Round trips

Terms, maps and states are read back as they were written, as long as their texts are not nested
deeper than readers go. A reader only comes to values whose texts are nested no deeper, so what was
read once is read again. A map is written entry by entry and read by inserting the entries into the
empty map; there is one map only that holds what the entries say.
-/
namespace Relational

namespace IntMap

variable {V : Type}

/-- The map of the entries of a map is the map. -/
theorem ofList_toList (map : IntMap V) : ofList map.toList = map := by
  apply eq_of_get?_eq
  intro key
  cases found : (ofList map.toList).get? key with
  | some value => exact (mem_toList.mp (mem_of_get?_ofList found)).symm
  | none =>
    cases held : map.get? key with
    | none => rfl
    | some value => exact absurd found (get?_ofList_ne_none (mem_toList.mpr held))

end IntMap

namespace Json

variable {A V : Type}

/-- The greatest of some numbers is within a bound if each of them is. -/
theorem foldr_max_le_iff {numbers : List Nat} {bound : Nat} :
    numbers.foldr max 0 ≤ bound ↔ ∀ number ∈ numbers, number ≤ bound := by
  induction numbers with
  | nil => simp
  | cons number numbers later => rw [List.foldr_cons, Nat.max_le, later, List.forall_mem_cons]

/-! ## Terms -/

mutual

/-- How deep containers are nested in the text of a term. -/
def termHeight : Term A → Nat
  | .var _ => 1
  | .atom _ => 1
  | .op _ arguments => argumentHeight arguments + 3

/-- How deep containers are nested in the texts of arguments. -/
def argumentHeight : List (Term A) → Nat
  | [] => 0
  | argument :: arguments => max (termHeight argument) (argumentHeight arguments)

end

/-- The deepest argument counts. -/
theorem argumentHeight_eq (arguments : List (Term A)) :
    argumentHeight arguments = (arguments.map termHeight).foldr max 0 := by
  induction arguments with
  | nil => rfl
  | cons argument arguments later =>
    rw [argumentHeight, later, List.map_cons, List.foldr_cons]

/-- Arguments are written one by one. -/
theorem terms_eq_map (atom : A → Writer) (arguments : List (Term A)) :
    terms atom arguments = arguments.map (term atom) := by
  induction arguments with
  | nil => rfl
  | cons argument arguments later => rw [terms, later, List.map_cons]

variable {atom : A → Writer} {reader : Reader A}

/-- If each argument nests as deep as it is high, the arguments do. -/
theorem spans_terms {arguments : List (Term A)}
    (each : ∀ argument ∈ arguments, Spans (term atom argument) (termHeight argument)) :
    List.Forall₂ Spans (terms atom arguments) (arguments.map termHeight) := by
  rw [terms_eq_map, List.forall₂_map_left_iff, List.forall₂_map_right_iff, List.forall₂_same]
  exact each

/-- The text of a term nests as deep as the term is high. -/
theorem spans_term (spans : ∀ value, Spans (atom value) 0) (value : Term A) :
    Spans (term atom value) (termHeight value) := by
  induction value using Term.induct with
  | var index => exact spans_object (.cons (spans_member "Variable" (spans_natural _)) .nil)
  | atom value => exact spans_object (.cons (spans_member "Atom" (spans value)) .nil)
  | op symbol arguments each =>
    have array := spans_array (spans_terms each)
    rw [← argumentHeight_eq] at array
    have inner := spans_object (.cons (spans_member "symbol" (spans_text symbol))
      (.cons (spans_member "subterms" array) .nil))
    rw [List.foldr_cons, List.foldr_cons, List.foldr_nil, Nat.max_zero, Nat.zero_max] at inner
    exact spans_object (.cons (spans_member "Operation" inner) .nil)

/-- The part of a term behind the name of its kind. -/
def readKind (reader : Reader A) (depth : Nat) (kind : String) : Reader (Term A) := fun input =>
  if kind = "Variable" then (readWord input).map fun read => (Term.var read.1, read.2)
  else if kind = "Atom" then (reader input).map fun read => (Term.atom read.1, read.2)
  else if kind = "Operation" then
    match depth with
    | depth + 2 =>
      (readPair "symbol" "subterms" readText (readArray (readTerm reader depth)) input).map
        fun read => (Term.op read.1.1 read.1.2, read.2)
    | _ => none
  else none

/-- A term is read as an object of one member, whose name is a kind. -/
theorem readTerm_succ (depth : Nat) (input : List Char) :
    readTerm reader (depth + 1) input =
      (expect? '\x7b' input).bind fun rest =>
        (readMember readText (readKind reader depth) rest).bind fun read =>
          (expect? '\x7d' read.2).bind fun rest => some (read.1, rest) := by
  rw [readTerm]
  refine bind_congr fun rest => ?_
  refine Eq.trans (bind_congr fun named => ?_) (Option.bind_assoc (readText rest) _ _).symm
  refine Eq.trans (bind_congr fun rest => ?_) (Option.bind_assoc (expect? ':' named.2) _ _).symm
  unfold readKind
  split
  · rfl
  split
  · rfl
  split
  · cases depth with
    | zero => rfl
    | succ depth =>
      cases depth with
      | zero => rfl
      | succ depth => rfl
  · rfl

/-- A term is taken away if the part behind the name of its kind is. -/
theorem takes_kind {depth : Nat} {kind : String} {writer : Writer} {value : Term A}
    (takes : Takes (readKind reader depth kind) writer value) :
    Takes (readTerm reader (depth + 1)) (object [member kind writer]) value := by
  intro rest _
  rw [readTerm_succ, object, expect?_cons (by decide), Option.bind_some, commas,
    takes_member kind takes _ ⟨rfl, rfl⟩, Option.bind_some, expect?_cons (by decide),
    Option.bind_some]

/-- A term is taken away by every reader that goes as deep as the term is high. -/
theorem takes_term (spans : ∀ value, Spans (atom value) 0)
    (takes : ∀ value, Takes reader (atom value) value) (value : Term A) {depth : Nat}
    (within : termHeight value ≤ depth) :
    Takes (readTerm reader depth) (term atom value) value := by
  induction value using Term.induct generalizing depth with
  | var index =>
    obtain ⟨depth, rfl⟩ : ∃ less, depth = less + 1 := ⟨depth - 1, (Nat.sub_add_cancel within).symm⟩
    refine takes_kind fun rest apart => ?_
    unfold readKind
    rw [if_pos rfl, takes_word index rest apart, Option.map_some]
  | atom value =>
    obtain ⟨depth, rfl⟩ : ∃ less, depth = less + 1 := ⟨depth - 1, (Nat.sub_add_cancel within).symm⟩
    refine takes_kind fun rest apart => ?_
    unfold readKind
    rw [if_neg (by decide), if_pos rfl, takes value rest apart, Option.map_some]
  | op symbol arguments each =>
    rw [termHeight, argumentHeight_eq] at within
    obtain ⟨depth, rfl⟩ : ∃ less, depth = less + 3 := ⟨depth - 3, by omega⟩
    have taken : List.Forall₂ (Takes (readTerm reader depth)) (terms atom arguments)
        arguments := by
      rw [terms_eq_map, List.forall₂_map_left_iff, List.forall₂_same]
      intro argument member
      exact each argument member (foldr_max_le_iff.mp (Nat.le_of_add_le_add_right within) _
        (List.mem_map_of_mem member))
    have items : List.Forall₂ Spans (terms atom arguments) (arguments.map termHeight) :=
      spans_terms fun argument _ => spans_term spans argument
    have parts := takes_pair (show "symbol" ≠ "subterms" by decide) (spans_text symbol)
      (spans_array items) (fun rest _ => readText_text symbol rest) (takes_array items taken)
    refine takes_kind fun rest apart => ?_
    unfold readKind
    rw [if_neg (by decide), if_neg (by decide), if_pos rfl]
    show (readPair _ _ _ _ _).map _ = _
    rw [parts rest apart, Option.map_some]

/-- The part of a term behind the name of its kind is no higher than the reader goes deep. -/
theorem yields_kind {depth : Nat}
    (shallower : ∀ less < depth, Yields (readTerm reader less) fun value => termHeight value ≤ less)
    (kind : String) :
    Yields (readKind reader depth kind) fun value => termHeight value ≤ depth + 1 := by
  intro input value rest read
  unfold readKind at read
  split at read
  · obtain ⟨_, _, same⟩ := Option.map_eq_some_iff.mp read
    cases same
    exact Nat.le_add_left 1 depth
  split at read
  · obtain ⟨_, _, same⟩ := Option.map_eq_some_iff.mp read
    cases same
    exact Nat.le_add_left 1 depth
  split at read
  · split at read
    · next less =>
      obtain ⟨parts, there, same⟩ := Option.map_eq_some_iff.mp read
      cases same
      have symbols : Yields readText fun _ => True := fun _ _ _ _ => trivial
      have arguments := yields_between (shallower less (by omega)) '[' ']'
      have fine := yields_pair symbols arguments _ _ _ there
      rw [termHeight, argumentHeight_eq]
      exact Nat.add_le_add_right (foldr_max_le_iff.mpr (List.forall_mem_map.mpr fine.2)) 3
    · exact nomatch read
  · exact nomatch read

/-- A reader of terms comes to terms that are no higher than it goes deep. -/
theorem yields_term (depth : Nat) :
    Yields (readTerm reader depth) fun value => termHeight value ≤ depth := by
  induction depth using Nat.strongRecOn with
  | ind depth shallower =>
    intro input value rest read
    cases depth with
    | zero =>
      rw [readTerm] at read
      exact nomatch read
    | succ depth =>
      rw [readTerm_succ] at read
      obtain ⟨behind, _, read⟩ := Option.bind_eq_some_iff.mp read
      obtain ⟨⟨found, behind⟩, here, read⟩ := Option.bind_eq_some_iff.mp read
      obtain ⟨behind, _, read⟩ := Option.bind_eq_some_iff.mp read
      cases read
      have part := yields_kind fun less below => shallower less (Nat.lt_succ_of_lt below)
      exact yields_member part _ _ _ here

/-! ## Maps -/

/-- A key in quotes. -/
def key (index : UInt64) : Writer := fun rest => '"' :: natural index.toNat ('"' :: rest)

/-- A key spans no containers. -/
theorem spans_key (index : UInt64) : Spans (key index) 0 where
  begins rest := by
    refine ⟨'"', _, rfl, by decide, by decide, by decide, ?_⟩
    rw [natural, List.length_append, List.length_cons]
    omega
  nests level rest := by
    have inside : nestingFrom level true (natural index.toNat ('"' :: rest)) =
        nestingFrom level true ('"' :: rest) :=
      nestingFrom_digits (fun _ => Nat.isDigit_of_mem_toDigits (by decide) (by decide)) level _
    rw [key, nestingFrom, if_pos rfl, inside, nestingFrom_quote, Nat.add_zero,
      Nat.max_eq_right (le_nestingFrom level false rest)]

/-- A key is taken away. -/
theorem takes_key (index : UInt64) : Takes readKey (key index) index := by
  intro rest _
  rw [readKey, key, expect?_cons (by decide), Option.bind_eq_bind, Option.bind_some,
    readNatural_natural _ ⟨rfl, rfl⟩, Option.bind_eq_bind, Option.bind_some]
  show (if index.toNat < UInt64.size then _ else none) = _
  rw [if_pos index.toNat_lt, UInt64.ofNat_toNat]

/-- An entry of a map: a key and its value. -/
def readEntry (value : Reader V) : Reader (UInt64 × V) :=
  readMember readKey fun key input => (value input).bind fun read => some ((key, read.1), read.2)

/-- A map is read as an object of entries. -/
theorem readIntMap_eq (value : Reader V) (input : List Char) :
    readIntMap value input = (readObject (readEntry value) input).bind fun read =>
      some (IntMap.ofList read.1, read.2) :=
  rfl

variable {writer : V → Writer} {height : V → Nat} {value : Reader V}

/-- The entries of a map nest as deep as its values. -/
theorem spans_entries (spans : ∀ value, Spans (writer value) (height value)) (map : IntMap V) :
    List.Forall₂ Spans (map.toList.map fun entry rest => key entry.1 (':' :: writer entry.2 rest))
      (map.toList.map fun entry => height entry.2) := by
  rw [List.forall₂_map_left_iff, List.forall₂_map_right_iff, List.forall₂_same]
  exact fun entry _ => spans_behind (spans_key entry.1) (spans entry.2)

/-- How deep containers are nested in the text of a map. -/
def mapHeight (height : V → Nat) (map : IntMap V) : Nat :=
  (map.toList.map fun entry => height entry.2).foldr max 0 + 1

/-- The text of a map nests one deeper than the deepest of its values. -/
theorem spans_intMap (spans : ∀ value, Spans (writer value) (height value)) (map : IntMap V) :
    Spans (intMap writer map) (mapHeight height map) :=
  spans_object (spans_entries spans map)

/-- The values of a map are less high than the map. -/
theorem mapHeight_le_succ_iff {map : IntMap V} {bound : Nat} :
    mapHeight height map ≤ bound + 1 ↔ ∀ entry ∈ map.toList, height entry.2 ≤ bound := by
  rw [mapHeight, Nat.add_le_add_iff_right, foldr_max_le_iff, List.forall_mem_map]

/-- A map is taken away if each of its values is. -/
theorem takes_intMap (spans : ∀ value, Spans (writer value) (height value)) {map : IntMap V}
    (takes : ∀ entry ∈ map.toList, Takes value (writer entry.2) entry.2) :
    Takes (readIntMap value) (intMap writer map) map := by
  intro rest apart
  have entries : List.Forall₂ (Takes (readEntry value)) (map.toList.map fun entry rest =>
      key entry.1 (':' :: writer entry.2 rest)) map.toList := by
    rw [List.forall₂_map_left_iff, List.forall₂_same]
    intro entry member
    refine takes_behind (takes_key entry.1) fun rest apart => ?_
    rw [takes entry member rest apart, Option.bind_some]
  have taken : readObject (readEntry value) (intMap writer map rest) = some (map.toList, rest) :=
    takes_object (spans_entries spans map) entries rest apart
  rw [readIntMap_eq, taken, Option.bind_some, IntMap.ofList_toList]

/-- The values of a map are what the reader of values comes to. -/
theorem yields_intMap {good : V → Prop} (yields : Yields value good) :
    Yields (readIntMap value) fun map => ∀ entry ∈ map.toList, good entry.2 := by
  intro input map rest read
  rw [readIntMap_eq] at read
  obtain ⟨⟨entries, behind⟩, here, same⟩ := Option.bind_eq_some_iff.mp read
  cases same
  have entry : ∀ key, Yields (fun input => (value input).bind fun read =>
      some ((key, read.1), read.2)) fun entry : UInt64 × V => good entry.2 := by
    intro key input entry rest read
    obtain ⟨found, there, same⟩ := Option.bind_eq_some_iff.mp read
    cases same
    exact yields _ _ _ there
  have fine := yields_between (yields_member entry) _ _ _ _ _ here
  exact fun entry member => fine entry (IntMap.mem_of_get?_ofList (IntMap.mem_toList.mp member))

/-! ## States -/

/-- How deep containers are nested in the text of a state. -/
def stateHeight (state : State A) : Nat := mapHeight termHeight state.substitution + 1

/-- The text of a state nests one deeper than its bindings. -/
theorem spans_state (spans : ∀ value, Spans (atom value) 0) (value : State A) :
    Spans (state atom value) (stateHeight value) :=
  spans_object (.cons (spans_member "substitution" (spans_intMap (spans_term spans) _))
    (.cons (spans_member "fresh_count" (spans_natural _)) .nil))

/-- A state is taken away if its text is nested no deeper than readers go. -/
theorem takes_state (spans : ∀ value, Spans (atom value) 0)
    (takes : ∀ value, Takes reader (atom value) value) (value : State A)
    (within : stateHeight value ≤ depthLimit) :
    Takes (readState reader) (state atom value) value := by
  have each := mapHeight_le_succ_iff.mp
    (show mapHeight termHeight value.substitution ≤ depthLimit - 2 + 1 from
      Nat.le_of_succ_le_succ within)
  have bindings := takes_intMap (spans_term spans) fun entry member =>
    takes_term spans takes entry.2 (each entry member)
  have parts := takes_pair (show "substitution" ≠ "fresh_count" by decide)
    (spans_intMap (spans_term spans) _) (spans_natural _) bindings (takes_word value.freshCount)
  intro rest apart
  rw [readState, state, parts rest apart, Option.map_some]

/-- A reader of states comes to states whose texts are nested no deeper than readers go. -/
theorem yields_state : Yields (readState reader) fun value => stateHeight value ≤ depthLimit := by
  have terms : Yields (readTerm reader (depthLimit - 2)) fun value =>
      termHeight value ≤ depthLimit - 2 := yields_term (depthLimit - 2)
  have bindings := yields_intMap terms
  have words : Yields readWord fun _ => True := fun _ _ _ _ => trivial
  intro input value rest read
  obtain ⟨⟨parts, behind⟩, here, same⟩ := Option.map_eq_some_iff.mp read
  cases same
  have fine := yields_pair bindings words _ _ _ here
  have within : mapHeight termHeight parts.1 ≤ depthLimit - 2 + 1 :=
    mapHeight_le_succ_iff.mpr fine.1
  exact Nat.succ_le_succ within

/-! ## Whole texts -/

/-- Values are written and read back without loss if readers take away what is nested no deeper than
they go, and come to nothing that is nested deeper. -/
theorem roundTrips_of {α : Type} {writer : α → Writer} {reader : Reader α} {height : α → Nat}
    (spans : ∀ value, Spans (writer value) (height value))
    (takes : ∀ value, height value ≤ depthLimit → Takes reader (writer value) value)
    (yields : Yields reader fun value => height value ≤ depthLimit) : RoundTrips writer reader := by
  have nests : ∀ value, nesting (write (writer value)) = height value := by
    intro value
    rw [nesting, write, String.toList_ofList, (spans value).nests, nestingFrom, Nat.zero_add,
      Nat.max_zero]
  have back : ∀ value, height value ≤ depthLimit →
      whole? reader (write (writer value)) = some value := by
    intro value within
    rw [whole?, write, String.toList_ofList, takes value within [] ⟨rfl, rfl⟩]
    rfl
  constructor
  case back => exact fun value within => back value (nests value ▸ within)
  case apart =>
    intro one other within same
    have within' := within
    rw [same] at within'
    rw [nests] at within within'
    exact Option.some.inj ((back one within).symm.trans (same ▸ back other within'))
  case again =>
    intro text value read
    apply back
    unfold whole? at read
    split at read
    · next found rest here =>
      split at read
      · cases read
        exact yields _ _ _ here
      · cases read
    · cases read

/-- A map is written and read back without loss if its values are where one more container stands
around them. -/
theorem roundTrips_intMap (spans : ∀ value, Spans (writer value) (height value))
    (takes : ∀ found, height found ≤ depthLimit - 1 → Takes value (writer found) found)
    (yields : Yields value fun found => height found ≤ depthLimit - 1) :
    RoundTrips (intMap writer) (readIntMap value) := by
  refine roundTrips_of (spans_intMap spans) (fun map within => ?_) fun input map rest read => ?_
  · have each := mapHeight_le_succ_iff.mp within
    exact takes_intMap spans fun entry member => takes entry.2 (each entry member)
  · exact mapHeight_le_succ_iff.mpr (yields_intMap yields _ _ _ read)

/-- Terms, maps of payloads, maps of terms and states are written and read back without loss: what
is read is the very value that was written, so a map or a state that is read has its order of
iteration, its number of entries and its text too. -/
theorem texts_are_read_back :
    RoundTrips (term payload) (readTerm readPayload depthLimit) ∧
    RoundTrips (intMap payload) (readIntMap readPayload) ∧
    RoundTrips (intMap (term payload)) (readIntMap (readTerm readPayload (depthLimit - 1))) ∧
    RoundTrips (state payload) (readState readPayload) := by
  refine ⟨?terms, ?payloads, ?bindings, ?states⟩
  case terms =>
    exact roundTrips_of (spans_term spans_payload)
      (fun value => takes_term spans_payload takes_payload value) (yields_term depthLimit)
  case payloads =>
    exact roundTrips_intMap spans_payload (fun value _ => takes_payload value)
      fun _ _ _ _ => Nat.zero_le _
  case bindings =>
    exact roundTrips_intMap (spans_term spans_payload)
      (fun value => takes_term spans_payload takes_payload value) (yields_term (depthLimit - 1))
  case states =>
    exact roundTrips_of (spans_state spans_payload) (takes_state spans_payload takes_payload)
      yields_state

/-- A state whose text has escapes for quotes, a backslash, a line feed and a character below the
blank and nests nine containers is read back from this text. -/
theorem escapes_in_nested_state_read_back :
    let atom : Term Payload := .atom (.text "\\\n\x1bé")
    let bound : Term Payload := .op "f\"" [atom, .op "\t" [.var 18446744073709551615]]
    let value : State Payload := ⟨IntMap.insert IntMap.empty 5 bound, 6⟩
    let text := write (state payload value)
    text = "\x7b\"substitution\":\x7b\"5\":\x7b\"Operation\":\x7b\"symbol\":\"f\\\"\"," ++
        "\"subterms\":[\x7b\"Atom\":\"\\\\\\n\\u001bé\"\x7d,\x7b\"Operation\":\x7b" ++
        "\"symbol\":\"\\t\",\"subterms\":[\x7b\"Variable\":18446744073709551615\x7d]" ++
        "\x7d\x7d]\x7d\x7d\x7d,\"fresh_count\":6\x7d" ∧
      nesting text = 9 ∧ nesting text ≤ depthLimit ∧
        whole? (readState readPayload) text = some value := by
  intro atom bound value text
  have nests : nesting text = 9 := by decide +kernel
  have within : nesting text ≤ depthLimit := nests ▸ by decide
  exact ⟨by decide +kernel, nests, within, texts_are_read_back.2.2.2.back value within⟩

end Json

end Relational
