import Mathlib.Data.List.Infix
import Relational.IntMap.Shape
import Relational.Proofs.IntMap.Enumeration
import Relational.Proofs.Term.Equality

/-!
# Maps are canonical

A node is there because of the keys at or below it, and it caches how many they are. So the shape of
a map follows from what it holds, whatever was done to come there: maps that hold the same are the
same, node for node, and maps that hold equal values show the same order and the same texts. In
return the entries that a map shows say what it holds.
-/
namespace Relational.IntMap

universe u v

variable {V : Type u} {W : Type v}

namespace Trie

/-- What is stored below a path is stored in the trie at the end of the path. -/
theorem get?_append (steps path : List Branch) (trie : Trie V) :
    trie.get? (steps ++ path) = (trie.descend steps).get? path := by
  induction steps generalizing trie with
  | nil => rfl
  | cons branch steps below => exact below (trie.child branch)

/-- The tries inside a sound trie are sound. -/
theorem Sound.descend {trie : Trie V} (sound : trie.Sound) (steps : List Branch) :
    (trie.descend steps).Sound := by
  induction steps generalizing trie with
  | nil => exact sound
  | cons branch steps below => exact below (sound.child branch)

/-- A sound trie is empty if and only if it stores nothing. -/
theorem Sound.eq_empty_iff {trie : Trie V} (sound : trie.Sound) :
    trie = .empty ↔ ∀ path, trie.get? path = none := by
  constructor
  · rintro rfl path
    exact get?_empty path
  · intro nothing
    apply eq_empty_of_size_eq_zero sound
    rw [← length_slots sound, List.length_eq_zero_iff, List.eq_nil_iff_forall_not_mem]
    intro path member
    rw [mem_slots, nothing] at member
    exact nomatch member

variable {related : V → W → Prop}

/-- Related slots are both without a value or both with one. -/
theorem none_iff_of_rel {one : Option V} {other : Option W} (agree : Option.Rel related one other) :
    one = none ↔ other = none := by
  cases agree <;> simp

/-- Tries that are alike have the same size. -/
theorem Alike.size_eq {left : Trie V} {right : Trie W} (alike : left.Alike related right) :
    left.size = right.size := by
  cases alike <;> rfl

/-- Sound tries that store related values at every path are both empty or neither is. -/
theorem Sound.empty_iff_of_rel {left : Trie V} {right : Trie W} (sound : left.Sound)
    (sound' : right.Sound) (agree : ∀ path, Option.Rel related (left.get? path) (right.get? path)) :
    left = .empty ↔ right = .empty := by
  rw [sound.eq_empty_iff, sound'.eq_empty_iff]
  exact forall_congr' fun path => none_iff_of_rel (agree path)

/-- Sound tries that store related values at every path are alike. -/
theorem Sound.alike {left : Trie V} {right : Trie W} (sound : left.Sound) (sound' : right.Sound)
    (agree : ∀ path, Option.Rel related (left.get? path) (right.get? path)) :
    left.Alike related right := by
  induction left generalizing right with
  | empty =>
    rw [(empty_sound.empty_iff_of_rel sound' agree).mp rfl]
    exact .empty
  | node value size zero one two three first second third fourth =>
    cases right with
    | empty => exact nomatch (sound.empty_iff_of_rel empty_sound agree).mpr rfl
    | node value' size' zero' one' two' three' =>
      obtain ⟨counted, _, zeroSound, oneSound, twoSound, threeSound⟩ := sound
      obtain ⟨counted', _, zeroSound', oneSound', twoSound', threeSound'⟩ := sound'
      have own : Option.Rel related value value' := agree []
      have below0 := first zeroSound zeroSound' fun path => agree (0 :: path)
      have below1 := second oneSound oneSound' fun path => agree (1 :: path)
      have below2 := third twoSound twoSound' fun path => agree (2 :: path)
      have below3 := fourth threeSound threeSound' fun path => agree (3 :: path)
      have ownSize : held value = held value' := by
        cases own <;> rfl
      have sizes : size = size' := by
        rw [counted, counted', ownSize, below0.size_eq, below1.size_eq, below2.size_eq,
          below3.size_eq]
      rw [sizes]
      exact .node own below0 below1 below2 below3

/-- Tries that are alike with the same values are the same. -/
theorem Alike.eq {left right : Trie V} (alike : left.Alike Eq right) : left = right := by
  induction alike with
  | empty => rfl
  | @node value value' size _ _ _ _ _ _ _ _ own _ _ _ _ first second third fourth =>
    have same : value = value' := by
      cases own with
      | none => rfl
      | some same => exact congrArg some same
    rw [same, first, second, third, fourth]

/-- Tries that are alike have related entries in the same order. -/
theorem Alike.entries {left : Trie V} {right : Trie W} (alike : left.Alike related right)
    (key stride : UInt64) :
    List.Forall₂ (fun one other => one.1 = other.1 ∧ related one.2 other.2)
      (left.entries key stride) (right.entries key stride) := by
  induction alike generalizing key stride with
  | empty => exact .nil
  | @node value value' size _ _ _ _ _ _ _ _ own _ _ _ _ first second third fourth =>
    have front : List.Forall₂ (fun one other => one.1 = other.1 ∧ related one.2 other.2)
        (value.map (key, ·)).toList (value'.map (key, ·)).toList := by
      cases own with
      | none => exact .nil
      | some related => exact .cons ⟨rfl, related⟩ .nil
    exact List.rel_append front (List.rel_append (first _ _) (List.rel_append (second _ _)
      (List.rel_append (third _ _) (fourth _ _))))

end Trie

/-- A path that starts with some steps and is the path of a key with a value is a path in the trie
at the end of the steps. -/
theorem image_keysThrough (map : IntMap V) (steps : List Branch) :
    path '' map.keysThrough steps =
      (steps ++ ·) '' {slot | ((map.root.descend steps).get? slot).isSome} := by
  ext slot
  constructor
  · rintro ⟨key, ⟨⟨rest, through⟩, found⟩, rfl⟩
    refine ⟨rest, ?_, through⟩
    show ((map.root.descend steps).get? rest).isSome
    rw [← Trie.get?_append, through]
    exact found
  · rintro ⟨rest, found, rfl⟩
    have there : (map.root.get? (steps ++ rest)).isSome := by
      rw [Trie.get?_append]
      exact found
    obtain ⟨key, through⟩ := map.keyed _ there
    exact ⟨key, ⟨⟨rest, through.symm⟩, by rw [get?, through]; exact there⟩, through⟩

/-- The nodes of a map are there because of its keys. -/
theorem counted (map : IntMap V) : map.Counted := by
  have size (steps : List Branch) :
      (map.root.descend steps).size = (map.keysThrough steps).ncard := by
    rw [(map.sound.descend steps).size_eq_ncard,
      ← Set.ncard_image_of_injective (map.keysThrough steps) path_injective, image_keysThrough,
      Set.ncard_image_of_injective _ (List.append_right_injective steps)]
  refine ⟨size, fun steps => ?_⟩
  rw [← Set.image_eq_empty (f := path), image_keysThrough, Set.image_eq_empty,
    (map.sound.descend steps).eq_empty_iff, Set.eq_empty_iff_forall_notMem]
  exact forall_congr' fun slot => by simp [Set.mem_ofPred_eq]

/-- Nothing is stored at a path of no key. -/
theorem get?_root_of_unnamed (map : IntMap V) {slot : List Branch}
    (unnamed : ¬ ∃ key, path key = slot) : map.root.get? slot = none := by
  cases found : map.root.get? slot with
  | none => rfl
  | some value => exact absurd (map.keyed slot (by rw [found]; rfl)) unnamed

/-- Maps that hold related values are alike. -/
theorem alike_of_get? {related : V → W → Prop} {left : IntMap V} {right : IntMap W}
    (agree : ∀ key, Option.Rel related (left.get? key) (right.get? key)) :
    left.root.Alike related right.root := by
  apply left.sound.alike right.sound
  intro slot
  by_cases named : ∃ key, path key = slot
  · obtain ⟨key, rfl⟩ := named
    exact agree key
  · rw [left.get?_root_of_unnamed named, right.get?_root_of_unnamed named]
    exact .none

/-- Maps that hold the same are the same. -/
theorem eq_of_get?_eq {left right : IntMap V} (same : ∀ key, left.get? key = right.get? key) :
    left = right := by
  have roots : left.root = right.root := by
    apply Trie.Alike.eq
    apply alike_of_get?
    intro key
    rw [same]
    cases right.get? key with
    | none => exact .none
    | some value => exact .some rfl
  cases left
  cases right
  cases roots
  rfl

/-- Updates of different keys may change places. -/
theorem set_comm (map : IntMap V) {key other : UInt64} (apart : key ≠ other)
    (value value' : Option V) :
    (map.set key value).set other value' = (map.set other value').set key value := by
  apply eq_of_get?_eq
  intro asked
  simp only [get?_set]
  by_cases first : asked = key
  · rw [if_pos first, if_neg (first ▸ apart)]
    simp [first]
  · simp [first]

/-- Taking away what was put in leaves the map as it was. -/
theorem erase_insert (map : IntMap V) {key : UInt64} (absent : map.get? key = none) (value : V) :
    (map.insert key value).erase key = map := by
  apply eq_of_get?_eq
  intro asked
  rw [erase, get?_set, get?_insert]
  by_cases same : asked = key
  · rw [if_pos same, same, absent]
  · rw [if_neg same, if_neg same]

/-- Taking keys away one after another takes away these keys. -/
theorem get?_foldl_erase (keys : List UInt64) (map : IntMap V) (key : UInt64) :
    (keys.foldl erase map).get? key = if key ∈ keys then none else map.get? key := by
  induction keys generalizing map with
  | nil => simp
  | cons first keys later =>
    rw [List.foldl_cons, later, erase, get?_set]
    by_cases same : key = first <;> simp [same]

/-- Where all keys are taken away the empty map is left. -/
theorem foldl_erase_eq_empty (map : IntMap V) {keys : List UInt64}
    (all : ∀ key, map.contains key = true → key ∈ keys) : keys.foldl erase map = empty := by
  apply eq_of_get?_eq
  intro key
  rw [get?_foldl_erase, get?_empty]
  by_cases there : key ∈ keys
  · exact if_pos there
  · rw [if_neg there, ← Option.not_isSome_iff_eq_none]
    exact fun found => there (all key found)

section Equality

variable [BEq V] {left right : IntMap V}

/-- Slots with equal values, or none, are related. -/
theorem rel_of_beq {one other : Option V} (same : one == other) :
    Option.Rel (fun one other => (one == other) = true) one other := by
  cases one with
  | none =>
    cases other with
    | none => exact .none
    | some => exact nomatch same
  | some value =>
    cases other with
    | none => exact nomatch same
    | some value' => exact .some same

/-- Maps that hold equal values show the same. -/
theorem indistinct_of_get? (agree : ∀ key, left.get? key == right.get? key) :
    left.Indistinct right := by
  have alike := alike_of_get? fun key => rel_of_beq (agree key)
  have order : List.Forall₂ (fun one other => one.1 = other.1 ∧ one.2 == other.2) left.toList
      right.toList := by
    rw [toList_eq_entries, toList_eq_entries]
    exact alike.entries 0 1
  refine ⟨alike, order, fun value same => ?_, fun value same => ?_⟩
  · unfold IntMap.layout
    rw [map_eq_map_of_forall₂ order]
    rintro ⟨key, one⟩ ⟨_, other⟩ ⟨rfl, equal⟩
    rw [same one other equal]
  · unfold Json.intMap
    rw [map_eq_map_of_forall₂ order]
    rintro ⟨key, one⟩ ⟨_, other⟩ ⟨rfl, equal⟩
    rw [same one other equal]

/-- Lists of entries are equal if their entries are, one by one. -/
theorem beq_iff_forall₂ {ones others : List (UInt64 × V)} :
    (ones == others) = true ↔
      List.Forall₂ (fun one other => one.1 = other.1 ∧ one.2 == other.2) ones others := by
  induction ones generalizing others with
  | nil => cases others <;> simp
  | cons one ones same =>
    cases others with
    | nil => simp
    | cons other others =>
      rw [List.forall₂_cons, List.cons_beq_cons, Bool.and_eq_true, same]
      have entry : (one == other) = true ↔ one.1 = other.1 ∧ one.2 == other.2 := by
        show (one.1 == other.1 && one.2 == other.2) = true ↔ _
        rw [Bool.and_eq_true, beq_iff_eq]
      rw [entry]

/-- Maps whose entries are equal one by one hold equal values. -/
theorem get?_beq_of_order [EquivBEq V]
    (order : List.Forall₂ (fun one other => one.1 = other.1 ∧ one.2 == other.2) left.toList
      right.toList) (key : UInt64) : left.get? key == right.get? key := by
  cases found : left.get? key with
  | some value =>
    obtain ⟨⟨_, value'⟩, member, rfl, same⟩ := exists_right_of_forall₂ order (mem_toList.mpr found)
    rw [mem_toList.mp member]
    exact same
  | none =>
    cases found' : right.get? key with
    | none => rfl
    | some value' =>
      obtain ⟨⟨_, value⟩, member, same, _⟩ :=
        exists_left_of_forall₂ order (mem_toList.mpr found')
      dsimp only at same
      rw [same, mem_toList, found] at member
      exact nomatch member

/-- Maps are equal if and only if they hold equal values. -/
theorem beq_iff [EquivBEq V] : (left == right) = true ↔ ∀ key, left.get? key == right.get? key := by
  constructor
  · intro same
    have entries := (Bool.and_eq_true _ _ ▸ same : _ ∧ _).2
    exact get?_beq_of_order (beq_iff_forall₂.mp entries)
  · intro agree
    have shown := indistinct_of_get? agree
    have sizes : (left.size == right.size) = true := beq_iff_eq.mpr shown.nodes.size_eq
    show (left.size == right.size && left.toList == right.toList) = true
    rw [sizes, beq_iff_forall₂.mpr shown.order]
    rfl

/-- Maps are canonical. There is a node for the keys at or below it and only for them, and it caches
how many they are; maps that hold equal values have the same shape, order and texts, and maps that
hold the same are the same; two maps are equal if and only if they hold equal values. So updates of
different keys may change places, taking away a key that was put in leaves the map as it was, and
the empty map is left where all keys are taken away. -/
theorem maps_are_canonical [EquivBEq V] (left right : IntMap V) :
    left.Counted ∧
      ((∀ key, left.get? key == right.get? key) → left.Indistinct right) ∧
      ((∀ key, left.get? key = right.get? key) → left = right) ∧
      ((left == right) = true ↔ ∀ key, left.get? key == right.get? key) ∧
      (∀ key other value value', key ≠ other →
        (left.set key value).set other value' = (left.set other value').set key value) ∧
      (∀ key value, left.get? key = none → (left.insert key value).erase key = left) ∧
      ∀ keys : List UInt64, (∀ key, left.contains key = true → key ∈ keys) →
        keys.foldl erase left = empty :=
  ⟨left.counted, indistinct_of_get?, eq_of_get?_eq, beq_iff,
    fun _ _ value value' apart => left.set_comm apart value value',
    fun _ value absent => left.erase_insert absent value,
    fun _ all => left.foldl_erase_eq_empty all⟩

/-- The largest key, whose path is thirty-two branches long, is put into a map and taken away again
between other updates; what is left is the map that is made without it in another order. -/
theorem nodes_without_trace :
    let left : IntMap String := (empty.insert 3 "x").insert 8 "y"
    let right : IntMap String :=
      (((empty.insert 8 "y").insert 0xffffffffffffffff "z").insert 3 "x").erase 0xffffffffffffffff
    left = right ∧ (left == right) = true ∧ left.Indistinct right := by
  intro left right
  have agree : ∀ key, left.get? key = right.get? key := by
    intro key
    show (insert _ _ _).get? key = (set _ _ _).get? key
    simp only [get?_set, get?_insert, get?_empty]
    by_cases largest : key = 0xffffffffffffffff
    · subst largest
      rfl
    · by_cases three : key = 3
      · subst three
        rfl
      · simp [largest, three]
  have alike : ∀ key, left.get? key == right.get? key := fun key => by
    rw [agree key]
    exact beq_self_eq_true _
  obtain ⟨_, shown, same, equal, _⟩ := maps_are_canonical left right
  exact ⟨same agree, equal.mpr alike, shown alike⟩

end Equality

end Relational.IntMap
