import Mathlib.Data.List.Forall2
import Relational.Substitution

/-!
# Equality of terms up to payloads

Terms are compared by the equality of their payloads. Where that is an equivalence so is
equality of terms, and replacing variables respects it in both places: equal terms stay equal
under one replacement, and one term stays equal under replacements that are equal at its
variables.
-/
namespace Relational

/-!
## Lists that are paired off

Two lists are paired off if they have the same length and their entries are related one by one. Then
every entry has a partner in the other list, and what is made of partners alike is made of the
lists.
-/

section Pairs

universe u v w

variable {α : Type u} {β : Type v} {γ : Type w} {pair : α → β → Prop} {lefts : List α}
  {rights : List β}

/-- Every entry of the second of two lists that are paired off has a partner. -/
theorem exists_left_of_forall₂ (pairs : List.Forall₂ pair lefts rights) {right : β}
    (member : right ∈ rights) : ∃ left ∈ lefts, pair left right := by
  induction pairs with
  | nil => exact nomatch member
  | cons paired _ later =>
    rcases List.mem_cons.mp member with rfl | member
    · exact ⟨_, List.mem_cons_self .., paired⟩
    · obtain ⟨left, there, paired⟩ := later member
      exact ⟨left, List.mem_cons_of_mem _ there, paired⟩

/-- Every entry of the first of two lists that are paired off has a partner. -/
theorem exists_right_of_forall₂ (pairs : List.Forall₂ pair lefts rights) {left : α}
    (member : left ∈ lefts) : ∃ right ∈ rights, pair left right :=
  exists_left_of_forall₂ (List.Forall₂.flip pairs) member

/-- Lists that are paired off are turned into one list where partners are turned into one item. -/
theorem map_eq_map_of_forall₂ (pairs : List.Forall₂ pair lefts rights) {form : α → γ}
    {form' : β → γ} (same : ∀ left right, pair left right → form left = form' right) :
    lefts.map form = rights.map form' := by
  rw [← List.forall₂_eq_eq_eq, List.forall₂_map_left_iff, List.forall₂_map_right_iff]
  exact pairs.imp same

end Pairs

/-! ## Equal terms -/

namespace Term

universe u

variable {A : Type u}

/-- Replacement reaches a variable. -/
@[simp] theorem bind_var (replace : UInt64 → Term A) (index : UInt64) :
    (var index).bind replace = replace index := by
  rw [bind]

/-- Replacement leaves an atom. -/
@[simp] theorem bind_atom (replace : UInt64 → Term A) (payload : A) :
    (atom payload).bind replace = atom payload := by
  rw [bind]

/-- Replacement goes on in every argument. -/
@[simp] theorem bind_op (replace : UInt64 → Term A) (symbol : String)
    (arguments : List (Term A)) :
    (op symbol arguments).bind replace = op symbol (arguments.map (bind replace)) := by
  rw [bind, bindAll_eq_map]

/-- A variable is its only variable. -/
@[simp] theorem vars_var (index : UInt64) : (var index : Term A).vars = [index] := by
  rw [vars]

/-- An atom has no variables. -/
@[simp] theorem vars_atom (payload : A) : (atom payload).vars = [] := by
  rw [vars]

/-- The variables of an operation are those of its arguments. -/
@[simp] theorem vars_op (symbol : String) (arguments : List (Term A)) :
    (op symbol arguments).vars = arguments.flatMap vars := by
  rw [vars, varsOf_eq_flatMap]

/-- The variables of an argument are variables of the operation. -/
theorem vars_subset_of_mem {symbol : String} {arguments : List (Term A)} {argument : Term A}
    (member : argument ∈ arguments) : argument.vars ⊆ (op symbol arguments).vars := by
  intro index inside
  rw [vars_op, List.mem_flatMap]
  exact ⟨argument, member, inside⟩

/-- Two replacements one after another are one. -/
theorem bind_bind (first second : UInt64 → Term A) (term : Term A) :
    (term.bind first).bind second = term.bind fun index => (first index).bind second := by
  induction term using induct with
  | var index => rw [bind_var, bind_var]
  | atom payload => rw [bind_atom, bind_atom, bind_atom]
  | op symbol arguments each =>
    rw [bind_op, bind_op, bind_op, List.map_map]
    congr 1
    exact List.map_congr_left each

/-- Replacements that agree at the variables of a term agree at the term. -/
theorem bind_congr {first second : UInt64 → Term A} {term : Term A}
    (agree : ∀ index ∈ term.vars, first index = second index) :
    term.bind first = term.bind second := by
  induction term using induct with
  | var index =>
    rw [bind_var, bind_var]
    exact agree index (by simp)
  | atom payload => rw [bind_atom, bind_atom]
  | op symbol arguments each =>
    rw [bind_op, bind_op]
    congr 1
    apply List.map_congr_left
    intro argument member
    exact each argument member fun index inside =>
      agree index (vars_subset_of_mem member inside)

/-- The variables of a replaced term are those of what its variables are replaced by. -/
theorem mem_vars_bind {replace : UInt64 → Term A} {term : Term A} {index : UInt64} :
    index ∈ (term.bind replace).vars ↔ ∃ other ∈ term.vars, index ∈ (replace other).vars := by
  induction term using induct with
  | var other => simp
  | atom payload => simp
  | op symbol arguments each =>
    rw [bind_op, vars_op, vars_op, List.mem_flatMap]
    constructor
    · rintro ⟨_, made, inside⟩
      obtain ⟨argument, member, rfl⟩ := List.mem_map.mp made
      obtain ⟨other, appears, reached⟩ := (each argument member).mp inside
      exact ⟨other, List.mem_flatMap.mpr ⟨argument, member, appears⟩, reached⟩
    · rintro ⟨other, appears, reached⟩
      obtain ⟨argument, member, inside⟩ := List.mem_flatMap.mp appears
      exact ⟨_, List.mem_map_of_mem member, (each argument member).mpr ⟨other, inside, reached⟩⟩

section Equality

variable [BEq A]

/-- Variables are equal if their indices are. -/
@[simp] theorem var_beq_var (left right : UInt64) :
    ((var left : Term A) == var right) = (left == right) := by
  change beq _ _ = _
  rw [beq]

/-- Atoms are equal if their payloads are. -/
@[simp] theorem atom_beq_atom (left right : A) :
    ((atom left : Term A) == atom right) = (left == right) := by
  change beq _ _ = _
  rw [beq]

/-- Arguments are equal if they are so one by one. -/
theorem beqAll_iff_forall₂ (lefts rights : List (Term A)) :
    beqAll lefts rights = true ↔ List.Forall₂ (fun left right => left == right) lefts rights := by
  induction lefts generalizing rights with
  | nil => cases rights <;> simp [beqAll]
  | cons left lefts ih =>
    cases rights with
    | nil => simp [beqAll]
    | cons right rights =>
      rw [beqAll, Bool.and_eq_true, ih rights, List.forall₂_cons]
      rfl

/-- Operations are equal if their symbols and their arguments are. -/
theorem op_beq_op (left right : String) (lefts rights : List (Term A)) :
    (op left lefts == op right rights) = true ↔
      left = right ∧ List.Forall₂ (fun left right => left == right) lefts rights := by
  change beq _ _ = true ↔ _
  rw [beq, Bool.and_eq_true, beqAll_iff_forall₂]
  exact and_congr_left fun _ => ⟨eq_of_beq, fun same => by simp [same]⟩

/-- Terms of different kinds are not equal. -/
@[simp] theorem var_beq_atom (index : UInt64) (payload : A) :
    (var index == atom payload) = false := rfl

/-- Terms of different kinds are not equal. -/
@[simp] theorem var_beq_op (index : UInt64) (symbol : String) (arguments : List (Term A)) :
    (var index == op symbol arguments) = false := rfl

/-- Terms of different kinds are not equal. -/
@[simp] theorem atom_beq_var (payload : A) (index : UInt64) :
    (atom payload == var index) = false := rfl

/-- Terms of different kinds are not equal. -/
@[simp] theorem atom_beq_op (payload : A) (symbol : String) (arguments : List (Term A)) :
    (atom payload == op symbol arguments) = false := rfl

/-- Terms of different kinds are not equal. -/
@[simp] theorem op_beq_var (symbol : String) (arguments : List (Term A)) (index : UInt64) :
    (op symbol arguments == var index) = false := rfl

/-- Terms of different kinds are not equal. -/
@[simp] theorem op_beq_atom (symbol : String) (arguments : List (Term A)) (payload : A) :
    (op symbol arguments == atom payload) = false := rfl

/-- What holds of equal variables and of equal atoms, and of operations whenever it holds of their
arguments one by one, holds of all equal terms. -/
theorem beq_induct {motive : (left right : Term A) → (left == right) = true → Prop}
    (var : ∀ index same, motive (.var index) (.var index) same)
    (atom : ∀ left right same, motive (.atom left) (.atom right) same)
    (op : ∀ symbol lefts rights same,
      List.Forall₂ (fun left right => ∃ same, motive left right same) lefts rights →
        motive (.op symbol lefts) (.op symbol rights) same)
    {left right : Term A} (same : left == right) : motive left right same := by
  induction left using induct generalizing right with
  | var index =>
    cases right with
    | var other =>
      obtain rfl := eq_of_beq ((var_beq_var index other).symm.trans same)
      exact var index same
    | atom | op => simp at same
  | atom payload =>
    cases right with
    | atom other =>
      exact atom payload other same
    | var | op => simp at same
  | op symbol lefts each =>
    cases right with
    | op other rights =>
      obtain ⟨symbols, arguments⟩ := (op_beq_op ..).mp same
      subst symbols
      apply op
      have within : ∀ left ∈ lefts, ∀ right (same : left == right), motive left right same :=
        fun left member right => each left member
      clear same each
      induction arguments with
      | nil => exact .nil
      | cons equal _ ih =>
        exact .cons ⟨equal, within _ (List.mem_cons_self ..) _ equal⟩
          (ih fun left member => within left (List.mem_cons_of_mem _ member))
    | var | atom => simp at same

/-- Every term is equal to itself if every payload is. -/
instance [ReflBEq A] : ReflBEq (Term A) where
  rfl {term} := by
    induction term using induct with
    | var index => simp
    | atom payload => simp
    | op symbol arguments each =>
      rw [op_beq_op]
      exact ⟨rfl, List.forall₂_same.mpr each⟩

/-- Equality of terms has no direction if that of payloads has none. -/
theorem beq_symm [PartialEquivBEq A] {left right : Term A} (same : left == right) :
    right == left := by
  induction same using beq_induct with
  | var index same => exact same
  | atom left right same =>
    rw [atom_beq_atom] at same ⊢
    exact BEq.symm same
  | op symbol lefts rights _ each =>
    rw [op_beq_op]
    exact ⟨rfl, List.Forall₂.flip (each.imp fun _ _ ⟨_, equal⟩ => equal)⟩

/-- Terms equal to one term are equal if that holds of payloads. -/
theorem beq_trans [PartialEquivBEq A] {left middle right : Term A} (first : left == middle)
    (second : middle == right) : left == right := by
  induction first using beq_induct generalizing right with
  | var index _ => exact second
  | atom left middle same =>
    cases right with
    | atom right =>
      rw [atom_beq_atom] at same second ⊢
      exact BEq.trans same second
    | var | op => simp at second
  | op symbol lefts middles same each =>
    cases right with
    | op other rights =>
      obtain ⟨symbols, arguments⟩ := (op_beq_op ..).mp second
      rw [op_beq_op]
      refine ⟨symbols, ?_⟩
      clear second same
      induction each generalizing rights with
      | nil => exact arguments
      | cons equal _ ih =>
        obtain ⟨_, onward⟩ := equal
        cases arguments with
        | cons next others => exact .cons (onward next) (ih _ others)
    | var | atom => simp at second

/-- Equality of terms is an equivalence if that of payloads is one. -/
instance [PartialEquivBEq A] : PartialEquivBEq (Term A) where
  symm := beq_symm
  trans := beq_trans

/-- Equality of terms is an equivalence if that of payloads is one. -/
instance [EquivBEq A] : EquivBEq (Term A) where

/-- Equal terms stay equal under one replacement. -/
theorem bind_beq_bind [ReflBEq A] (replace : UInt64 → Term A) {left right : Term A}
    (same : left == right) : left.bind replace == right.bind replace := by
  induction same using beq_induct with
  | var index _ => exact BEq.rfl
  | atom left right same =>
    rw [bind_atom, bind_atom]
    exact same
  | op symbol lefts rights _ each =>
    rw [bind_op, bind_op, op_beq_op, List.forall₂_map_left_iff, List.forall₂_map_right_iff]
    exact ⟨rfl, each.imp fun _ _ ⟨_, equal⟩ => equal⟩

/-- A term stays equal to itself under replacements that are equal at its variables. -/
theorem bind_beq_congr [ReflBEq A] {first second : UInt64 → Term A} {term : Term A}
    (agree : ∀ index ∈ term.vars, first index == second index) :
    term.bind first == term.bind second := by
  induction term using induct with
  | var index =>
    rw [bind_var, bind_var]
    exact agree index (by simp)
  | atom payload => simp
  | op symbol arguments each =>
    rw [bind_op, bind_op, op_beq_op, List.forall₂_map_left_iff, List.forall₂_map_right_iff,
      List.forall₂_same]
    exact ⟨rfl, fun argument member => each argument member fun index inside =>
      agree index (vars_subset_of_mem member inside)⟩

end Equality

mutual

/-- How many variables, atoms and symbols a term is made of. -/
def extent : Term A → Nat
  | var _ => 1
  | atom _ => 1
  | op _ arguments => extentOf arguments + 1

/-- How many variables, atoms and symbols some arguments are made of. -/
def extentOf : List (Term A) → Nat
  | [] => 0
  | argument :: arguments => extent argument + extentOf arguments

end

/-- An argument has no larger extent than all arguments together. -/
theorem extent_le_extentOf {arguments : List (Term A)} {argument : Term A}
    (member : argument ∈ arguments) : argument.extent ≤ extentOf arguments := by
  induction arguments with
  | nil => exact nomatch member
  | cons first arguments later =>
    rw [extentOf]
    rcases List.mem_cons.mp member with rfl | member
    · omega
    · have rest := later member
      omega

/-- Equal terms have one extent. -/
theorem extent_eq_of_beq [BEq A] {left right : Term A} (same : left == right) :
    left.extent = right.extent := by
  induction same using beq_induct with
  | var index _ => rfl
  | atom left right _ => rw [extent, extent]
  | op symbol lefts rights same each =>
    rw [extent, extent]
    congr 1
    clear same
    induction each with
    | nil => rfl
    | cons equal _ ih =>
      obtain ⟨_, equal⟩ := equal
      rw [extentOf, extentOf, equal, ih]

/-- What a variable is replaced by is no larger than the replaced term. -/
theorem extent_le_extent_bind {replace : UInt64 → Term A} {term : Term A} {index : UInt64}
    (appears : index ∈ term.vars) : (replace index).extent ≤ (term.bind replace).extent := by
  induction term using induct with
  | var other =>
    rw [vars_var, List.mem_singleton] at appears
    rw [bind_var]
    exact appears ▸ Nat.le_refl _
  | atom payload => simp at appears
  | op symbol arguments each =>
    rw [vars_op, List.mem_flatMap] at appears
    obtain ⟨argument, member, inside⟩ := appears
    rw [bind_op, extent]
    calc
      (replace index).extent ≤ (argument.bind replace).extent := each argument member inside
      _ ≤ extentOf (arguments.map (bind replace)) :=
        extent_le_extentOf (List.mem_map_of_mem member)
      _ ≤ extentOf (arguments.map (bind replace)) + 1 := Nat.le_succ _

/-- No value makes a variable equal to an operation it appears in. -/
theorem bind_ne_of_mem_vars [BEq A] {replace : UInt64 → Term A} {symbol : String}
    {arguments : List (Term A)} {index : UInt64} (appears : index ∈ (op symbol arguments).vars) :
    (replace index == (op symbol arguments).bind replace) = false := by
  rw [Bool.eq_false_iff]
  intro same
  rw [vars_op, List.mem_flatMap] at appears
  obtain ⟨argument, member, inside⟩ := appears
  have inner : (replace index).extent ≤ (argument.bind replace).extent :=
    extent_le_extent_bind inside
  have outer : (argument.bind replace).extent ≤ extentOf (arguments.map (bind replace)) :=
    extent_le_extentOf (List.mem_map_of_mem member)
  have equal := extent_eq_of_beq same
  rw [bind_op, extent] at equal
  omega

end Term

end Relational
