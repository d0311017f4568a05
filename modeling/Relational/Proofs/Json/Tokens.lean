import Relational.Json.State

/-!
# Numbers, texts and payloads

What a writer puts in front of a text a reader takes away again. Numbers end where no digit
follows, so what follows has to keep apart from them; everything else says itself where it ends.
Texts may hold any characters: those that have a meaning in quotes or cannot stand there are
escaped, and the brackets among them do not count as containers.
-/
namespace Relational.Json

variable {α : Type}

/-- A text does not go on with a number. -/
def Apart (rest : List Char) : Prop :=
  rest.head?.any Char.isDigit = false ∧ startsFraction rest = false

/-- A reader takes away what a writer wrote, and has its value. -/
def Takes (reader : Reader α) (writer : Writer) (value : α) : Prop :=
  ∀ rest, Apart rest → reader (writer rest) = some (value, rest)

/-- A writer puts something in front of a text that begins as a value does, with containers that are
closed again and nested so deep. -/
structure Spans (writer : Writer) (height : Nat) : Prop where
  /-- It puts a character in front that is neither a blank nor a closing bracket. -/
  begins : ∀ rest, ∃ first text, writer rest = first :: text ∧ isBlank first = false ∧
    first ≠ ']' ∧ first ≠ '\x7d' ∧ rest.length ≤ text.length
  /-- Behind its containers as many brackets are open as before. -/
  nests : ∀ level rest, nestingFrom level false (writer rest) =
    max (level + height) (nestingFrom level false rest)

/-! ## Nesting -/

/-- The brackets that are open count. -/
theorem le_nestingFrom (level : Nat) (quoted : Bool) (text : List Char) :
    level ≤ nestingFrom level quoted text := by
  fun_induction nestingFrom level quoted text with
  | case1 => exact Nat.le_refl _
  | case2 level char rest le => exact le
  | case3 level char rest _ le => exact le
  | case4 level rest le => exact le
  | case5 level char rest _ _ le => exact Nat.le_of_succ_le le
  | case6 level char rest _ _ _ le => exact Nat.le_max_left _ _
  | case7 level char rest _ _ _ le => exact le

/-- A character that neither is a bracket nor opens a quote. -/
def isPlain (char : Char) : Bool :=
  char != '"' && char != '[' && char != '\x7b' && char != ']' && char != '\x7d'

/-- Plain characters open nothing. -/
theorem nestingFrom_of_plain {front : List Char} (plain : front.all isPlain = true)
    (level : Nat) (rest : List Char) :
    nestingFrom level false (front ++ rest) = nestingFrom level false rest := by
  induction front with
  | nil => rfl
  | cons char front later =>
    rw [List.all_cons, Bool.and_eq_true] at plain
    obtain ⟨here, others⟩ := plain
    simp only [isPlain, Bool.and_eq_true, bne_iff_ne] at here
    obtain ⟨⟨⟨⟨quote, open_⟩, brace⟩, close⟩, last⟩ := here
    rw [List.cons_append, nestingFrom, if_neg quote, if_neg (by simp [open_, brace]),
      if_neg (by simp [close, last])]
    exact later others

/-- Plain characters in front of a text span no containers. -/
theorem spans_of_plain {writer : Writer} {first : Char} {front : List Char}
    (written : ∀ rest, writer rest = first :: (front ++ rest))
    (plain : (first :: front).all isPlain = true) (blank : isBlank first = false) :
    Spans writer 0 where
  begins rest := by
    have here := (Bool.and_eq_true_iff.mp (List.all_cons ▸ plain)).1
    simp only [isPlain, Bool.and_eq_true, bne_iff_ne] at here
    refine ⟨first, _, written rest, blank, here.1.2, here.2, ?_⟩
    rw [List.length_append]
    exact Nat.le_add_left _ _
  nests level rest := by
    rw [written, ← List.cons_append, nestingFrom_of_plain plain, Nat.add_zero,
      Nat.max_eq_right (le_nestingFrom level false rest)]

/-! ## Numbers -/

/-- The digits of a positive number do not begin with a zero. -/
theorem head?_toDigits_ne {value : Nat} (positive : 0 < value) :
    (Nat.toDigits 10 value).head? ≠ some '0' := by
  induction value using Nat.strongRecOn with
  | ind value shorter =>
    rw [Nat.toDigits_eq_if (by decide)]
    split
    · next small =>
      have all : ∀ value < 10, 0 < value → Nat.digitChar value ≠ '0' := by decide
      intro same
      exact all value small positive (Option.some.inj same)
    · have longer := shorter (value / 10) (by omega) (by omega)
      obtain ⟨first, others, digits⟩ :=
        List.exists_cons_of_ne_nil (Nat.toDigits_ne_nil (n := value / 10) (b := 10))
      rw [digits] at longer ⊢
      exact longer

/-- A number in decimal is taken away if no digit follows. Only zero itself begins with a zero. -/
theorem readNatural_natural (value : Nat) {rest : List Char} (apart : Apart rest) :
    readNatural (natural value rest) = some (value, rest) := by
  have digits : ∀ char ∈ Nat.toDigits 10 value, char.isDigit = true :=
    fun _ member => Nat.isDigit_of_mem_toDigits (by decide) (by decide) member
  have stop : rest.takeWhile Char.isDigit = [] ∧ rest.dropWhile Char.isDigit = rest := by
    cases rest with
    | nil => exact ⟨rfl, rfl⟩
    | cons char rest =>
      have other : char.isDigit = false := apart.1
      rw [List.takeWhile_cons_of_neg (by rw [other]; decide),
        List.dropWhile_cons_of_neg (by rw [other]; decide)]
      exact ⟨rfl, rfl⟩
  have taken : (natural value rest).takeWhile Char.isDigit = Nat.toDigits 10 value := by
    rw [natural, List.takeWhile_append_of_pos digits, stop.1, List.append_nil]
  have left : (natural value rest).dropWhile Char.isDigit = rest := by
    rw [natural, List.dropWhile_append_of_pos digits, stop.2]
  have value_eq := Nat.ofDigitChars_toDigits (n := value) (show 1 < 10 by decide) (Nat.le_refl 10)
  rw [readNatural, taken, left]
  split
  · next impossible => exact absurd impossible Nat.toDigits_ne_nil
  · next char others zeros =>
    rcases Nat.eq_zero_or_pos value with rfl | positive
    · exact nomatch zeros
    · exact absurd (by rw [zeros]; rfl) (head?_toDigits_ne positive)
  · rw [value_eq]

/-- Digits are plain and no blanks. -/
theorem isPlain_of_isDigit {char : Char} (digit : char.isDigit = true) :
    isPlain char = true ∧ isBlank char = false ∧ char ≠ '-' ∧ char ≠ '"' ∧ char ≠ 't' ∧
      char ≠ 'f' := by
  have apart : ∀ other : Char, other.isDigit = false → char ≠ other := by
    rintro other none rfl
    exact absurd digit (by rw [none]; decide)
  simp only [isPlain, isBlank, Bool.and_eq_true, bne_iff_ne, Bool.or_eq_false_iff,
    beq_eq_false_iff_ne]
  refine ⟨⟨⟨⟨⟨?_, ?_⟩, ?_⟩, ?_⟩, ?_⟩, ⟨⟨⟨?_, ?_⟩, ?_⟩, ?_⟩, ?_, ?_, ?_, ?_⟩
  all_goals exact apart _ (by decide)

/-- A number begins with a digit. -/
theorem exists_natural (value : Nat) : ∃ first front, (first.isDigit = true ∧
    (first :: front).all isPlain = true) ∧
      ∀ rest, natural value rest = first :: (front ++ rest) := by
  have digits : ∀ char ∈ Nat.toDigits 10 value, char.isDigit = true :=
    fun _ member => Nat.isDigit_of_mem_toDigits (by decide) (by decide) member
  obtain ⟨first, front, shape⟩ :=
    List.exists_cons_of_ne_nil (Nat.toDigits_ne_nil (n := value) (b := 10))
  rw [shape] at digits
  have plain : (first :: front).all isPlain = true :=
    List.all_eq_true.mpr fun char member => (isPlain_of_isDigit (digits char member)).1
  refine ⟨first, front, ⟨digits first (List.mem_cons_self ..), plain⟩, fun rest => ?_⟩
  rw [natural, shape, List.cons_append]

/-- A number spans no containers. -/
theorem spans_natural (value : Nat) : Spans (natural value) 0 := by
  obtain ⟨first, front, ⟨digit, plain⟩, written⟩ := exists_natural value
  exact spans_of_plain written plain (isPlain_of_isDigit digit).2.1

/-- An integer spans no containers. -/
theorem spans_integer (value : Int) : Spans (integer value) 0 := by
  obtain ⟨first, front, ⟨digit, plain⟩, written⟩ := exists_natural value.natAbs
  by_cases negative : value < 0
  · have signed : ∀ rest, integer value rest = '-' :: ((first :: front) ++ rest) := by
      intro rest
      rw [integer, if_pos negative, written, List.cons_append]
    exact spans_of_plain signed plain (by decide)
  · have unsigned : ∀ rest, integer value rest = first :: (front ++ rest) := by
      intro rest
      rw [integer, if_neg negative, written]
    exact spans_of_plain unsigned plain (isPlain_of_isDigit digit).2.1

/-- Where a text does not begin with a blank there are none to skip. -/
theorem skipBlanks_cons {first : Char} (solid : isBlank first = false) (rest : List Char) :
    skipBlanks (first :: rest) = first :: rest :=
  List.dropWhile_cons_of_neg (by rw [solid]; decide)

/-- An integer is taken away if no number goes on behind it. -/
theorem takes_integer (value : Int) : Takes readInteger (integer value) value := by
  intro rest apart
  have number := readNatural_natural value.natAbs apart
  by_cases negative : value < 0
  · have nonzero : value.natAbs ≠ 0 := by omega
    have back : -(value.natAbs : Int) = value := by omega
    rw [readInteger, integer, if_pos negative, skipBlanks_cons (by decide)]
    simp only [number]
    rw [apart.2, if_neg (by simp [nonzero]), if_pos trivial, back]
  · obtain ⟨first, front, ⟨digit, _⟩, written⟩ := exists_natural value.natAbs
    have facts := isPlain_of_isDigit digit
    have back : (value.natAbs : Int) = value := by omega
    rw [readInteger, integer, if_neg negative, written, skipBlanks_cons facts.2.1]
    rw [written] at number
    simp [number, apart.2, back, facts.2.2.1]

/-- A word is taken away if no number goes on behind it. -/
theorem takes_word (value : UInt64) : Takes readWord (natural value.toNat) value := by
  intro rest apart
  have same : natural value.toNat = integer value.toNat := by
    funext rest
    rw [integer, if_neg (by omega), Int.natAbs_natCast]
  have fits : 0 ≤ (value.toNat : Int) ∧ (value.toNat : Int).toNat < UInt64.size :=
    ⟨Int.natCast_nonneg _, value.toNat_lt⟩
  rw [readWord, same, takes_integer _ rest apart, Option.bind_eq_bind, Option.bind_some]
  dsimp only
  rw [if_pos fits, Int.toNat_natCast, UInt64.ofNat_toNat]

/-! ## Texts -/

/-- What an escaped character is: a short escape, a code, or itself. -/
theorem escape_cases (char : Char) :
    (∃ short, escape char = ['\\', short] ∧ short ≠ 'u' ∧ shortEscape? short = some char) ∨
      (∃ high low, escape char = ['\\', 'u', '0', '0', high, low] ∧
        (high ≠ '"' ∧ high ≠ '\\' ∧ low ≠ '"' ∧ low ≠ '\\') ∧
          hexUnit? '0' '0' high low = some char.toNat ∧ char.toNat < 0x20) ∨
      escape char = [char] ∧ char ≠ '"' ∧ char ≠ '\\' ∧ 0x20 ≤ char.toNat := by
  have codes : ∀ code < 0x20, (hexDigit (code / 16) ≠ '"' ∧ hexDigit (code / 16) ≠ '\\' ∧
      hexDigit (code % 16) ≠ '"' ∧ hexDigit (code % 16) ≠ '\\') ∧
        hexUnit? '0' '0' (hexDigit (code / 16)) (hexDigit (code % 16)) = some code := by decide
  unfold escape
  split
  · next same => exact .inl ⟨'"', rfl, by decide, by rw [same]; rfl⟩
  next quote =>
  split
  · next same => exact .inl ⟨'\\', rfl, by decide, by rw [same]; rfl⟩
  next slash =>
  split
  · next same => exact .inl ⟨'b', rfl, by decide, by rw [same]; rfl⟩
  split
  · next same => exact .inl ⟨'f', rfl, by decide, by rw [same]; rfl⟩
  split
  · next same => exact .inl ⟨'n', rfl, by decide, by rw [same]; rfl⟩
  split
  · next same => exact .inl ⟨'r', rfl, by decide, by rw [same]; rfl⟩
  split
  · next same => exact .inl ⟨'t', rfl, by decide, by rw [same]; rfl⟩
  split
  · next control =>
    obtain ⟨apart, unit⟩ := codes char.toNat control
    exact .inr (.inl ⟨_, _, rfl, apart, unit, control⟩)
  · next visible => exact .inr (.inr ⟨rfl, quote, slash, Nat.le_of_not_lt visible⟩)

/-- In quotes a character that is not special opens and closes nothing. -/
theorem nestingFrom_cons {char : Char} (quote : char ≠ '"') (slash : char ≠ '\\') (level : Nat)
    (rest : List Char) :
    nestingFrom level true (char :: rest) = nestingFrom level true rest := by
  rw [nestingFrom, bne_iff_ne.mpr quote]
  exact fun _ _ same _ => slash same

/-- A quote closes quotes. -/
theorem nestingFrom_quote (level : Nat) (rest : List Char) :
    nestingFrom level true ('"' :: rest) = nestingFrom level false rest := by
  rw [nestingFrom]
  · rfl
  · exact fun _ _ impossible _ => absurd impossible (by decide)

/-- In quotes digits open and close nothing. -/
theorem nestingFrom_digits {digits : List Char} (all : ∀ char ∈ digits, char.isDigit = true)
    (level : Nat) (rest : List Char) :
    nestingFrom level true (digits ++ rest) = nestingFrom level true rest := by
  induction digits with
  | nil => rfl
  | cons digit digits later =>
    have here := all digit (List.mem_cons_self ..)
    have slash : digit ≠ '\\' := by
      rintro rfl
      exact absurd here (by decide)
    rw [List.cons_append, nestingFrom_cons (isPlain_of_isDigit here).2.2.2.1 slash]
    exact later fun other member => all other (List.mem_cons_of_mem _ member)

/-- In quotes an escaped character opens and closes nothing. -/
theorem nestingFrom_escape (level : Nat) (char : Char) (rest : List Char) :
    nestingFrom level true (escape char ++ rest) = nestingFrom level true rest := by
  rcases escape_cases char with ⟨short, same, _⟩ |
    ⟨high, low, same, ⟨highQuote, highSlash, lowQuote, lowSlash⟩, _⟩ | ⟨same, quote, slash, _⟩
  · rw [same, List.cons_append, List.cons_append, nestingFrom, List.nil_append]
  · rw [same]
    simp only [List.cons_append, List.nil_append]
    rw [nestingFrom, nestingFrom_cons (by decide) (by decide),
      nestingFrom_cons (by decide) (by decide), nestingFrom_cons highQuote highSlash,
      nestingFrom_cons lowQuote lowSlash]
  · rw [same, List.cons_append, List.nil_append, nestingFrom_cons quote slash]

/-- In quotes an escaped character is read as it was. -/
theorem textBody_escape (char : Char) (rest : List Char) :
    textBody (escape char ++ rest) =
      (textBody rest).map fun read => (char :: read.1, read.2) := by
  rcases escape_cases char with ⟨short, same, other, found⟩ | ⟨high, low, same, _, unit, small⟩ |
    ⟨same, quote, slash, visible⟩
  · rw [same, List.cons_append, List.cons_append, List.nil_append, textBody, found]
    exact fun _ _ _ _ _ u _ => other u
  · rw [same]
    simp only [List.cons_append, List.nil_append]
    rw [textBody, unit]
    dsimp only
    rw [if_neg (by omega), if_neg (by omega), Char.ofNat_toNat]
  · rw [same, List.cons_append, List.nil_append, textBody,
      if_neg (by simp only [slash, or_false]; omega)]
    · exact quote
    · exact fun _ _ _ _ _ same _ => slash same
    · exact fun _ _ same _ => slash same

/-- A text in quotes spans no containers. -/
theorem spans_text (content : String) : Spans (text content) 0 where
  begins rest := by
    have longer : ∀ chars : List Char, rest.length ≤
        (chars.foldr (fun char rest => escape char ++ rest) ('"' :: rest)).length := by
      intro chars
      induction chars with
      | nil => exact Nat.le_succ _
      | cons char chars later =>
        rw [List.foldr_cons, List.length_append]
        omega
    exact ⟨'"', _, rfl, by decide, by decide, by decide, longer _⟩
  nests level rest := by
    have inside : ∀ chars : List Char, nestingFrom level true
        (chars.foldr (fun char rest => escape char ++ rest) ('"' :: rest)) =
          nestingFrom level false rest := by
      intro chars
      induction chars with
      | nil => exact nestingFrom_quote level rest
      | cons char chars later => rw [List.foldr_cons, nestingFrom_escape, later]
    rw [text, nestingFrom, if_pos rfl, inside, Nat.add_zero,
      Nat.max_eq_right (le_nestingFrom level false rest)]

/-- The text behind a character that is no blank. -/
theorem expect?_cons {char : Char} (solid : isBlank char = false) (rest : List Char) :
    expect? char (char :: rest) = some rest := by
  rw [expect?, skipBlanks_cons solid]
  exact if_pos rfl

/-- A text in quotes is taken away, whatever follows. -/
theorem readText_text (content : String) (rest : List Char) :
    readText (text content rest) = some (content, rest) := by
  have body : ∀ chars : List Char,
      textBody (chars.foldr (fun char rest => escape char ++ rest) ('"' :: rest)) =
        some (chars, rest) := by
    intro chars
    induction chars with
    | nil => rfl
    | cons char chars later => rw [List.foldr_cons, textBody_escape, later, Option.map_some]
  rw [readText, text, expect?_cons (by decide), Option.bind_eq_bind, Option.bind_some, body,
    Option.bind_eq_bind, Option.bind_some]
  dsimp only
  rw [String.ofList_toList]

/-! ## Payloads -/

/-- A given beginning is taken away. -/
theorem afterBeginning?_append (beginning rest : List Char) :
    afterBeginning? beginning (beginning ++ rest) = some rest := by
  induction beginning with
  | nil => cases rest <;> rfl
  | cons char beginning later => rw [List.cons_append, afterBeginning?, if_pos rfl, later]

/-- A payload spans no containers. -/
theorem spans_payload (value : Payload) : Spans (payload value) 0 := by
  cases value with
  | integer value => exact spans_integer value.toInt
  | text value => exact spans_text value
  | flag value =>
    cases value with
    | true =>
      have written : ∀ rest, payload (.flag true) rest = 't' :: (['r', 'u', 'e'] ++ rest) :=
        fun _ => rfl
      exact spans_of_plain written rfl rfl
    | false =>
      have written : ∀ rest, payload (.flag false) rest = 'f' :: (['a', 'l', 's', 'e'] ++ rest) :=
        fun _ => rfl
      exact spans_of_plain written rfl rfl

/-- A number begins with a digit or a sign. -/
theorem exists_integer (value : Int) (rest : List Char) : ∃ first others,
    integer value rest = first :: others ∧ isBlank first = false ∧ first ≠ '"' ∧ first ≠ 't' ∧
      first ≠ 'f' := by
  by_cases negative : value < 0
  · exact ⟨'-', _, by rw [integer, if_pos negative], by decide, by decide, by decide, by decide⟩
  · obtain ⟨first, front, ⟨digit, _⟩, written⟩ := exists_natural value.natAbs
    obtain ⟨_, blank, _, quote, yes, no⟩ := isPlain_of_isDigit digit
    exact ⟨first, _, by rw [integer, if_neg negative, written], blank, quote, yes, no⟩

/-- A text that begins with none of the characters of other payloads is read as an integer. -/
theorem readPayload_cons {first : Char} (solid : isBlank first = false) (quote : first ≠ '"')
    (yes : first ≠ 't') (no : first ≠ 'f') (rest : List Char) :
    readPayload (first :: rest) = (do
      let (value, rest) ← readInteger (first :: rest)
      if Int64.minValue.toInt ≤ value ∧ value ≤ Int64.maxValue.toInt then
        some (.integer (Int64.ofInt value), rest)
      else none) := by
  rw [readPayload, skipBlanks_cons solid]
  split
  · next same => exact absurd (List.cons.inj same).1 quote
  · next same => exact absurd (List.cons.inj same).1 yes
  · next same => exact absurd (List.cons.inj same).1 no
  · rfl

/-- A payload is taken away if no number goes on behind it. -/
theorem takes_payload (value : Payload) : Takes readPayload (payload value) value := by
  intro rest apart
  cases value with
  | integer value =>
    have taken := takes_integer value.toInt rest apart
    have range : Int64.minValue.toInt ≤ value.toInt ∧ value.toInt ≤ Int64.maxValue.toInt :=
      ⟨value.minValue_le_toInt, value.toInt_le⟩
    obtain ⟨first, others, written, blank, quote, yes, no⟩ := exists_integer value.toInt rest
    rw [payload, written, readPayload_cons blank quote yes no, ← written, taken,
      Option.bind_eq_bind, Option.bind_some]
    dsimp only
    rw [if_pos range, Int64.ofInt_toInt]
  | text value =>
    have taken := readText_text value rest
    rw [text] at taken
    rw [payload, text, readPayload, skipBlanks_cons (by decide)]
    show (readText ('"' :: _)).map _ = _
    rw [taken, Option.map_some]
  | flag value =>
    cases value with
    | true =>
      show (afterBeginning? ['r', 'u', 'e'] (['r', 'u', 'e'] ++ rest)).map _ = _
      rw [afterBeginning?_append, Option.map_some]
    | false =>
      show (afterBeginning? ['a', 'l', 's', 'e'] (['a', 'l', 's', 'e'] ++ rest)).map _ = _
      rw [afterBeginning?_append, Option.map_some]

end Relational.Json
