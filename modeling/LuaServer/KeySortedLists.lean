import Mathlib.Data.List.Nodup
import Mathlib.Data.List.Pairwise
import Mathlib.Data.List.Perm.Basic
import Mathlib.Order.Lattice
import Mathlib.Tactic.Common

/-!
# Lists sorted by a key

The contents of an ordered container, in order: a list whose keys increase
strictly.  Putting, dropping and finding an element are described by
membership alone, and a sorted list is determined by its members.  A set is
sorted by its own elements, a map by the first components of its entries.
-/

namespace LuaServer

variable {Element Key : Type*} [LinearOrder Key]

/-- A list with strictly increasing keys. -/
structure KeySorted (key : Element → Key) where
  elements : List Element
  sorted : elements.Pairwise fun first second => key first < key second

namespace KeySorted

variable {key : Element → Key}

instance : Membership Element (KeySorted key) where
  mem list element := element ∈ list.elements

theorem mem_elements {list : KeySorted key} {element : Element} :
    element ∈ list.elements ↔ element ∈ list :=
  Iff.rfl

section Operations

def empty (key : Element → Key) : KeySorted key :=
  ⟨[], List.Pairwise.nil⟩

/-- Put an element at its place, replacing the one with its key. -/
def place (key : Element → Key) (element : Element) : List Element → List Element
  | [] => [element]
  | head :: tail =>
      if key element < key head then element :: head :: tail
      else if key head < key element then head :: place key element tail
      else element :: tail

theorem mem_of_mem_place {element other : Element} {elements : List Element}
    (member : other ∈ place key element elements) :
    other = element ∨ other ∈ elements := by
  induction elements with
  | nil => exact Or.inl (List.mem_singleton.mp member)
  | cons head tail ih =>
      simp only [place] at member
      split at member
      · exact List.mem_cons.mp member
      · split at member
        · rcases List.mem_cons.mp member with rfl | inTail
          · exact Or.inr List.mem_cons_self
          · exact (ih inTail).imp_right (List.mem_cons_of_mem head)
        · rcases List.mem_cons.mp member with same | inTail
          · exact Or.inl same
          · exact Or.inr (List.mem_cons_of_mem head inTail)

theorem pairwise_place {elements : List Element} (element : Element)
    (sorted : elements.Pairwise fun first second => key first < key second) :
    (place key element elements).Pairwise fun first second => key first < key second := by
  induction elements with
  | nil => exact List.pairwise_singleton _ _
  | cons head tail ih =>
      obtain ⟨headLess, tailSorted⟩ := List.pairwise_cons.mp sorted
      simp only [place]
      split
      next less =>
        refine List.pairwise_cons.mpr ⟨?_, sorted⟩
        intro other member
        rcases List.mem_cons.mp member with rfl | inTail
        · exact less
        · exact less.trans (headLess other inTail)
      next notLess =>
        split
        next greater =>
          refine List.pairwise_cons.mpr ⟨?_, ih tailSorted⟩
          intro other member
          rcases mem_of_mem_place member with rfl | inTail
          · exact greater
          · exact headLess other inTail
        next notGreater =>
          have same : key element = key head :=
            le_antisymm (not_lt.mp notGreater) (not_lt.mp notLess)
          exact List.pairwise_cons.mpr ⟨fun other inTail => same ▸ headLess other inTail,
            tailSorted⟩

variable (list : KeySorted key)

def put (element : Element) : KeySorted key :=
  ⟨place key element list.elements, pairwise_place element list.sorted⟩

/-- The elements with a property. -/
def restrict (keep : Element → Prop) [DecidablePred keep] : KeySorted key :=
  ⟨list.elements.filter keep, list.sorted.filter _⟩

def drop (k : Key) : KeySorted key :=
  list.restrict fun element => key element ≠ k

/-- The first elements. -/
def take (count : Nat) : KeySorted key :=
  ⟨list.elements.take count, list.sorted.sublist (List.take_sublist count _)⟩

def find (k : Key) : Option Element :=
  list.elements.find? fun element => key element = k

/-- The elements with smaller keys. -/
def below (k : Key) : List Element :=
  list.elements.filter fun element => key element < k

/-- The elements from the first one whose key is not smaller. -/
def fromKey (k : Key) : List Element :=
  list.elements.filter fun element => k ≤ key element

/-- The elements behind the last one whose key is not larger. -/
def afterKey (k : Key) : List Element :=
  list.elements.filter fun element => k < key element

end Operations

/-- Change the values of a map. -/
def mapValues {Value : Type*} (map : KeySorted (Prod.fst : Key × Value → Key))
    (change : Key → Value → Value) : KeySorted (Prod.fst : Key × Value → Key) :=
  ⟨map.elements.map fun entry => (entry.1, change entry.1 entry.2),
    List.pairwise_map.mpr map.sorted⟩

section Members

variable {list other : KeySorted key} {element candidate : Element} {k : Key}

theorem nodup (list : KeySorted key) : list.elements.Nodup :=
  list.sorted.imp fun less same => absurd (congrArg key same) (ne_of_lt less)

theorem eq_of_key_eq (member : element ∈ list) (otherMember : candidate ∈ list)
    (same : key element = key candidate) : element = candidate := by
  by_contra different
  have symmetric : Std.Symm fun first second : Element => key first ≠ key second :=
    ⟨fun _ _ apart => apart.symm⟩
  have apart := (list.sorted.imp fun less => ne_of_lt less).forall
    member otherMember different
  exact apart same

/-- A sorted list is determined by its members. -/
theorem eq_of_mem_iff (members : ∀ element, element ∈ list ↔ element ∈ other) :
    list = other := by
  have permuted : list.elements.Perm other.elements :=
    (List.perm_ext_iff_of_nodup list.nodup other.nodup).mpr members
  have same : list.elements = other.elements :=
    permuted.eq_of_pairwise (fun _ _ _ _ less greater => absurd (less.trans greater)
      (lt_irrefl _)) list.sorted other.sorted
  cases list
  cases other
  simp_all

@[simp]
theorem not_mem_empty : element ∉ empty key :=
  List.not_mem_nil

theorem mem_put : candidate ∈ list.put element ↔
    candidate = element ∨ (candidate ∈ list ∧ key candidate ≠ key element) := by
  obtain ⟨elements, sorted⟩ := list
  change candidate ∈ place key element elements ↔
    candidate = element ∨ (candidate ∈ elements ∧ key candidate ≠ key element)
  induction elements with
  | nil => simp [place]
  | cons head tail ih =>
      obtain ⟨headLess, tailSorted⟩ := List.pairwise_cons.mp sorted
      simp only [place]
      split
      next less =>
        have apart : ∀ candidate ∈ head :: tail, key candidate ≠ key element := by
          intro candidate member
          rcases List.mem_cons.mp member with rfl | inTail
          · exact ne_of_gt less
          · exact ne_of_gt (less.trans (headLess candidate inTail))
        rw [List.mem_cons]
        exact or_congr_right (and_iff_left_of_imp (apart candidate)).symm
      next notLess =>
        split
        next greater =>
          rw [List.mem_cons, ih tailSorted, List.mem_cons]
          constructor
          · rintro (rfl | rfl | ⟨inTail, apart⟩)
            · exact Or.inr ⟨Or.inl rfl, ne_of_lt greater⟩
            · exact Or.inl rfl
            · exact Or.inr ⟨Or.inr inTail, apart⟩
          · tauto
        next notGreater =>
          have same : key element = key head :=
            le_antisymm (not_lt.mp notGreater) (not_lt.mp notLess)
          rw [List.mem_cons, List.mem_cons]
          constructor
          · rintro (rfl | inTail)
            · exact Or.inl rfl
            · exact Or.inr ⟨Or.inr inTail, same ▸ ne_of_gt (headLess candidate inTail)⟩
          · rintro (rfl | ⟨rfl | inTail, apart⟩)
            · exact Or.inl rfl
            · exact absurd same.symm apart
            · exact Or.inr inTail

theorem mem_restrict {keep : Element → Prop} [DecidablePred keep] :
    candidate ∈ list.restrict keep ↔ candidate ∈ list ∧ keep candidate := by
  simp only [← mem_elements, restrict, List.mem_filter, decide_eq_true_eq]

theorem mem_drop : candidate ∈ list.drop k ↔ candidate ∈ list ∧ key candidate ≠ k :=
  mem_restrict

theorem find_eq_some : list.find k = some element ↔ element ∈ list ∧ key element = k := by
  constructor
  · intro found
    exact ⟨List.mem_of_find?_eq_some found, by simpa using List.find?_some found⟩
  · rintro ⟨member, rfl⟩
    cases found : list.find (key element) with
    | none =>
        have missing := List.find?_eq_none.mp found element member
        simp at missing
    | some candidate =>
        have candidateIn : candidate ∈ list := List.mem_of_find?_eq_some found
        have same : key candidate = key element := by simpa using List.find?_some found
        rw [eq_of_key_eq candidateIn member same]

theorem find_eq_none : list.find k = none ↔ ∀ element ∈ list, key element ≠ k := by
  simp only [find, List.find?_eq_none, decide_eq_true_eq]
  rfl

theorem mem_mapValues {Value : Type*} {map : KeySorted (Prod.fst : Key × Value → Key)}
    {change : Key → Value → Value} {value : Value} :
    (k, value) ∈ map.mapValues change ↔ ∃ old, (k, old) ∈ map ∧ change k old = value := by
  simp only [← mem_elements, mapValues, List.mem_map, Prod.mk.injEq, Prod.exists]
  constructor
  · rintro ⟨_, old, member, rfl, changed⟩
    exact ⟨old, member, changed⟩
  · rintro ⟨old, member, changed⟩
    exact ⟨k, old, member, rfl, changed⟩

theorem length_put_le (list : KeySorted key) (element : Element) :
    (list.put element).elements.length ≤ list.elements.length + 1 := by
  obtain ⟨elements, sorted⟩ := list
  change (place key element elements).length ≤ elements.length + 1
  clear sorted
  induction elements with
  | nil => exact Nat.le_refl 1
  | cons head tail ih =>
      simp only [place]
      split
      · exact Nat.le_refl _
      · split
        · simpa using ih
        · simp

theorem length_put (fresh : ∀ other ∈ list, key other ≠ key element) :
    (list.put element).elements.length = list.elements.length + 1 := by
  obtain ⟨elements, sorted⟩ := list
  change ∀ other ∈ elements, key other ≠ key element at fresh
  change (place key element elements).length = elements.length + 1
  clear sorted
  induction elements with
  | nil => rfl
  | cons head tail ih =>
      have differs := fresh head List.mem_cons_self
      have later := ih fun other inTail => fresh other (List.mem_cons_of_mem head inTail)
      simp only [place]
      split
      · rfl
      · split
        next => exact congrArg (· + 1) later
        next notLess notGreater =>
          exact absurd (le_antisymm (not_lt.mp notLess) (not_lt.mp notGreater)) differs

/-- An element with the largest key goes to the end. -/
theorem elements_put_of_lt (largest : ∀ candidate ∈ list, key candidate < key element) :
    (list.put element).elements = list.elements ++ [element] := by
  obtain ⟨elements, sorted⟩ := list
  change ∀ candidate ∈ elements, key candidate < key element at largest
  change place key element elements = elements ++ [element]
  clear sorted
  induction elements with
  | nil => rfl
  | cons head tail ih =>
      have greater := largest head List.mem_cons_self
      have later := ih fun candidate inTail =>
        largest candidate (List.mem_cons_of_mem head inTail)
      rw [place, if_neg greater.asymm, if_pos greater, later, List.cons_append]

/-- A key splits the list into the elements below it and the others. -/
theorem below_append_fromKey (list : KeySorted key) (k : Key) :
    list.below k ++ list.fromKey k = list.elements := by
  obtain ⟨elements, sorted⟩ := list
  simp only [below, fromKey]
  induction elements with
  | nil => rfl
  | cons head tail ih =>
      obtain ⟨headLess, tailSorted⟩ := List.pairwise_cons.mp sorted
      by_cases less : key head < k
      · simp only [List.filter_cons, less, not_le.mpr less, decide_true, decide_false,
          if_true, Bool.false_eq_true, if_false, List.cons_append]
        rw [ih tailSorted]
      · have noneBelow : tail.filter (fun element => key element < k) = [] := by
          rw [List.filter_eq_nil_iff]
          intro element member
          simpa using (not_lt.mp less).trans (le_of_lt (headLess element member))
        have allFrom : tail.filter (fun element => k ≤ key element) = tail := by
          rw [List.filter_eq_self]
          intro element member
          simpa using (not_lt.mp less).trans (le_of_lt (headLess element member))
        simp [less, not_lt.mp less, noneBelow, allFrom]

/-- A fold adds what its steps add. -/
theorem mem_foldl_iff {Item : Type*} {step : KeySorted key → Item → KeySorted key}
    (adds : Item → Prop) (each : ∀ list item, element ∈ step list item ↔ element ∈ list ∨ adds item)
    (items : List Item) (list : KeySorted key) :
    element ∈ items.foldl step list ↔ element ∈ list ∨ ∃ item ∈ items, adds item := by
  induction items generalizing list with
  | nil => simp
  | cons first items ih =>
      rw [List.foldl_cons, ih, each, or_assoc, List.exists_mem_cons_iff]

section Positions

variable {index : Nat}

/-- The elements below a key are those at the positions before their number. -/
theorem getElem_lt_iff (inside : index < list.elements.length) :
    key list.elements[index] < k ↔ index < (list.below k).length := by
  have split := list.below_append_fromKey k
  by_cases early : index < (list.below k).length
  · have here : list.elements[index] = (list.below k)[index] := by
      simp only [← split]
      exact List.getElem_append_left early
    have member : list.elements[index] ∈ list.below k := here ▸ List.getElem_mem early
    exact iff_of_true (by simpa using (List.mem_filter.mp member).2) early
  · have here : ∃ late : index - (list.below k).length < (list.fromKey k).length,
        list.elements[index] = (list.fromKey k)[index - (list.below k).length] := by
      have total : list.elements.length =
          (list.below k).length + (list.fromKey k).length := by
        rw [← split, List.length_append]
      refine ⟨by omega, ?_⟩
      simp only [← split]
      exact List.getElem_append_right (by omega)
    obtain ⟨late, same⟩ := here
    have member : list.elements[index] ∈ list.fromKey k := same ▸ List.getElem_mem late
    have notLess : k ≤ key list.elements[index] := by
      simpa using (List.mem_filter.mp member).2
    exact iff_of_false (not_lt.mpr notLess) early

/-- The position of a member is the number of elements below it. -/
theorem exists_getElem_below (member : element ∈ list) :
    ∃ inside : (list.below (key element)).length < list.elements.length,
      list.elements[(list.below (key element)).length] = element := by
  obtain ⟨index, inside, rfl⟩ := List.mem_iff_getElem.mp member
  have sorted := List.pairwise_iff_getElem.mp list.sorted
  have notBefore : ¬ index < (list.below (key list.elements[index])).length := by
    rw [← getElem_lt_iff inside]
    exact lt_irrefl _
  have notAfter : ¬ (list.below (key list.elements[index])).length < index := by
    intro early
    have earlyInside := Nat.lt_trans early inside
    have less := sorted _ _ earlyInside inside early
    exact Nat.lt_irrefl _ ((getElem_lt_iff earlyInside).mp less)
  have same : (list.below (key list.elements[index])).length = index := by omega
  refine ⟨by omega, ?_⟩
  simp only [same]

theorem lt_getElem_iff (member : element ∈ list) (inside : index < list.elements.length) :
    key element < key list.elements[index] ↔
      (list.below (key element)).length < index := by
  obtain ⟨atInside, same⟩ := exists_getElem_below member
  have sorted := List.pairwise_iff_getElem.mp list.sorted
  constructor
  · intro less
    by_contra notLate
    rcases Nat.lt_or_eq_of_le (Nat.not_lt.mp notLate) with early | equal
    · exact lt_asymm less ((getElem_lt_iff inside).mpr early)
    · simp only [equal, same] at less
      exact lt_irrefl _ less
  · intro late
    have less := sorted _ _ atInside inside late
    rwa [same] at less

theorem eraseIdx_below (member : element ∈ list) :
    list.elements.eraseIdx (list.below (key element)).length =
      (list.drop (key element)).elements := by
  obtain ⟨elements, sorted⟩ := list
  have inside : element ∈ elements := member
  change elements.eraseIdx (elements.filter fun other => key other < key element).length =
    elements.filter fun other => key other ≠ key element
  induction elements with
  | nil => exact absurd inside List.not_mem_nil
  | cons head tail ih =>
      obtain ⟨headLess, tailSorted⟩ := List.pairwise_cons.mp sorted
      rcases List.mem_cons.mp inside with rfl | inTail
      · have noneBelow : (element :: tail).filter (fun other => key other < key element) =
            [] := by
          rw [List.filter_eq_nil_iff]
          intro other otherIn
          rcases List.mem_cons.mp otherIn with rfl | otherTail
          · simp
          · simpa using le_of_lt (headLess other otherTail)
        have allKept : tail.filter (fun other => key other ≠ key element) = tail := by
          rw [List.filter_eq_self]
          intro other otherTail
          simpa using ne_of_gt (headLess other otherTail)
        rw [noneBelow, List.filter_cons_of_neg (by simp), allKept]
        rfl
      · have less := headLess element inTail
        have rest := ih tailSorted inTail inTail
        simp [less, ne_of_lt less, rest]

/-- Inserting at the position of a new key puts the element. -/
theorem insertIdx_below (fresh : ∀ other ∈ list, key other ≠ key element) :
    list.elements.insertIdx (list.below (key element)).length element =
      (list.put element).elements := by
  obtain ⟨elements, sorted⟩ := list
  have allFresh : ∀ other ∈ elements, key other ≠ key element := fresh
  change elements.insertIdx (elements.filter fun other => key other < key element).length
    element = place key element elements
  induction elements with
  | nil => rfl
  | cons head tail ih =>
      obtain ⟨headLess, tailSorted⟩ := List.pairwise_cons.mp sorted
      have apart := allFresh head List.mem_cons_self
      have freshTail : ∀ other ∈ tail, key other ≠ key element :=
        fun other member => allFresh other (List.mem_cons_of_mem head member)
      by_cases less : key head < key element
      · have notGreater : ¬ key element < key head := lt_asymm less
        simp only [place, notGreater, less, if_true, if_false, List.filter_cons,
          decide_true, List.length_cons, List.insertIdx_succ_cons]
        rw [ih tailSorted freshTail freshTail]
      · have greater : key element < key head :=
          lt_of_le_of_ne (not_lt.mp less) apart.symm
        have noneBelow : (head :: tail).filter (fun other => key other < key element) =
            [] := by
          rw [List.filter_eq_nil_iff]
          intro other otherIn
          rcases List.mem_cons.mp otherIn with rfl | otherTail
          · simpa using le_of_lt greater
          · simpa using le_of_lt (greater.trans (headLess other otherTail))
        simp [noneBelow, place, greater]

theorem drop_getLast {last : Element} (isLast : list.elements.getLast? = some last) :
    (list.drop (key last)).elements = list.elements.dropLast := by
  obtain ⟨elements, sorted⟩ := list
  change elements.filter (fun other => key other ≠ key last) = elements.dropLast
  have ends : elements.getLast? = some last := isLast
  obtain ⟨front, rfl⟩ := List.getLast?_eq_some_iff.mp ends
  obtain ⟨-, -, less⟩ := List.pairwise_append.mp sorted
  have kept : front.filter (fun other => key other ≠ key last) = front := by
    rw [List.filter_eq_self]
    intro other member
    simpa using ne_of_lt (less other member last (List.mem_singleton_self last))
  rw [List.filter_append, kept, List.filter_cons_of_neg (by simp)]
  simp

theorem lt_getLast {last : Element} (isLast : list.elements.getLast? = some last)
    (member : element ∈ list) (differs : element ≠ last) : key element < key last := by
  obtain ⟨front, same⟩ := List.getLast?_eq_some_iff.mp isLast
  have sorted := list.sorted
  rw [same] at sorted
  rw [← mem_elements, same, List.mem_append, List.mem_singleton] at member
  exact (List.pairwise_append.mp sorted).2.2 element (member.resolve_right differs) last
    (List.mem_singleton_self last)

end Positions

end Members

end KeySorted

end LuaServer
