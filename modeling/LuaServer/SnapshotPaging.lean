import LuaServer.KeySortedLists
import Mathlib.Data.List.Destutter

/-!
# Paging through changing snapshots

Sorted elements fall into groups, each an interval of keys, and a reader pages
through the first elements of the groups.  A page goes up to a limit, and the
next one starts from the key of the first element that was left out.  Every
page may see another snapshot: no group is reported twice, and a group that
keeps one of its elements in every snapshot is reported.
-/

namespace LuaServer

namespace SnapshotPaging

variable {Element Key Group : Type*} [LinearOrder Key] [DecidableEq Group]

/-- The keys of a group have no key of another group between them. -/
def Convex (valid : Key → Prop) (group : Key → Group) : Prop :=
  ∀ ⦃first middle last : Key⦄, valid first → valid last → first ≤ middle → middle ≤ last →
    group first = group last → group middle = group first

section Leaders

variable (key : Element → Key) (group : Key → Group)

/-- The first elements of the groups. -/
def leaders (elements : List Element) : List Element :=
  elements.destutter fun first second => group (key first) ≠ group (key second)

/-- A sorted list of elements with valid keys. -/
structure Snapshot (valid : Key → Prop) (elements : List Element) : Prop where
  sorted : elements.Pairwise fun first second => key first < key second
  valid : ∀ element ∈ elements, valid (key element)

variable {key group} {valid : Key → Prop} {elements : List Element} {leader : Element}

omit [DecidableEq Group] in
theorem Snapshot.sublist {others : List Element} (snapshot : Snapshot key valid elements)
    (sublist : others.Sublist elements) : Snapshot key valid others :=
  ⟨snapshot.sorted.sublist sublist, fun element member =>
    snapshot.valid element (sublist.subset member)⟩

omit [DecidableEq Group] in
theorem Snapshot.filter (snapshot : Snapshot key valid elements) (keep : Element → Bool) :
    Snapshot key valid (elements.filter keep) :=
  snapshot.sublist List.filter_sublist

omit [DecidableEq Group] in
theorem Snapshot.tail (snapshot : Snapshot key valid (leader :: elements)) :
    Snapshot key valid elements :=
  snapshot.sublist (List.sublist_cons_self leader elements)

/-- The first group takes all its elements, so the others are left. -/
theorem leaders_cons (convex : Convex valid group)
    (snapshot : Snapshot key valid (leader :: elements)) :
    leaders key group (leader :: elements) = leader :: leaders key group
      (elements.filter fun element => group (key element) ≠ group (key leader)) := by
  simp only [leaders, List.destutter_cons']
  induction elements with
  | nil => rfl
  | cons element elements ih =>
      by_cases same : group (key element) = group (key leader)
      · rw [List.destutter', if_neg (by simp [same]), List.filter_cons_of_neg (by simp [same])]
        exact ih (snapshot.sublist (by simp))
      · have others : ∀ later ∈ elements, group (key later) ≠ group (key leader) := by
          intro later member back
          have sorted := snapshot.sorted
          simp only [List.pairwise_cons, List.mem_cons] at sorted
          have between := convex (snapshot.valid leader (by simp))
            (snapshot.valid later (by simp [member])) (sorted.1 element (Or.inl rfl)).le
            (sorted.2.1 later member).le back.symm
          exact same between
        rw [List.destutter', if_pos (Ne.symm same), List.filter_cons_of_pos (by simpa),
          List.filter_eq_self.mpr (by simpa using others)]
        rfl

omit [LinearOrder Key] in
theorem leaders_sublist (elements : List Element) :
    (leaders key group elements).Sublist elements :=
  List.destutter_sublist _ elements

/-- Cutting the groups off one by one: an induction over the groups of a list. -/
theorem Snapshot.induction (group : Key → Group)
    {motive : (elements : List Element) → Snapshot key valid elements → Prop}
    (nil : ∀ snapshot, motive [] snapshot)
    (cons : ∀ leader elements (snapshot : Snapshot key valid (leader :: elements)) others,
      motive (elements.filter fun element => group (key element) ≠ group (key leader)) others →
        motive (leader :: elements) snapshot)
    (elements : List Element) (snapshot : Snapshot key valid elements) :
    motive elements snapshot := by
  induction size : elements.length using Nat.strong_induction_on generalizing elements with
  | _ count ih =>
      cases elements with
      | nil => exact nil snapshot
      | cons leader elements =>
          have fewer : (elements.filter fun element =>
              group (key element) ≠ group (key leader)).length < count := by
            rw [← size]
            exact Nat.lt_succ_of_le (List.length_filter_le _ _)
          have others := snapshot.tail.filter fun element =>
            group (key element) ≠ group (key leader)
          exact cons leader elements snapshot others (ih _ fewer _ others rfl)

/-- The first elements of the groups, for a loop that remembers the last group. -/
def newGroups (key : Element → Key) (group : Key → Group) : Group → List Element → List Element
  | _, [] => []
  | last, element :: elements =>
      if last = group (key element) then newGroups key group last elements
      else element :: newGroups key group (group (key element)) elements

omit [LinearOrder Key] in
theorem destutter'_eq_newGroups (leader : Element) (elements : List Element) :
    (elements.destutter' (fun first second => group (key first) ≠ group (key second)) leader) =
      leader :: newGroups key group (group (key leader)) elements := by
  induction elements generalizing leader with
  | nil => rfl
  | cons element elements ih =>
      by_cases same : group (key leader) = group (key element)
      · rw [List.destutter', if_neg (by simp [same]), ih leader, newGroups, if_pos same]
      · rw [List.destutter', if_pos same, ih element, newGroups, if_neg same]

omit [LinearOrder Key] in
theorem newGroups_eq_leaders {last : Group}
    (others : ∀ element ∈ elements, group (key element) ≠ last) :
    newGroups key group last elements = leaders key group elements := by
  cases elements with
  | nil => rfl
  | cons element elements =>
      rw [newGroups, if_neg (others element List.mem_cons_self).symm, leaders,
        List.destutter_cons', destutter'_eq_newGroups]

theorem exists_leader (convex : Convex valid group) (snapshot : Snapshot key valid elements)
    {element : Element} (member : element ∈ elements) :
    ∃ leader ∈ leaders key group elements,
      group (key leader) = group (key element) ∧ key leader ≤ key element := by
  induction elements, snapshot using Snapshot.induction group with
  | nil => exact absurd member List.not_mem_nil
  | cons leader elements snapshot others ih =>
      rw [leaders_cons convex snapshot]
      by_cases same : group (key element) = group (key leader)
      · refine ⟨leader, List.mem_cons_self, same.symm, ?_⟩
        rcases List.mem_cons.mp member with rfl | later
        · exact le_rfl
        · exact ((List.pairwise_cons.mp snapshot.sorted).1 element later).le
      · have later : element ∈ elements :=
          (List.mem_cons.mp member).resolve_left fun equal => same (by rw [equal])
        obtain ⟨first, isLeader, sameGroup, before⟩ :=
          ih (List.mem_filter.mpr ⟨later, by simpa using same⟩)
        exact ⟨first, List.mem_cons_of_mem leader isLeader, sameGroup, before⟩

theorem leaders_nodup (convex : Convex valid group) (snapshot : Snapshot key valid elements) :
    ((leaders key group elements).map fun element => group (key element)).Nodup := by
  induction elements, snapshot using Snapshot.induction group with
  | nil => exact List.nodup_nil
  | cons leader elements snapshot others ih =>
      rw [leaders_cons convex snapshot, List.map_cons, List.nodup_cons]
      refine ⟨?_, ih⟩
      intro member
      obtain ⟨other, isLeader, same⟩ := List.mem_map.mp member
      have apart := (List.mem_filter.mp ((leaders_sublist _).subset isLeader)).2
      exact absurd same (by simpa using apart)

omit [DecidableEq Group] in
theorem leaders_id [DecidableEq Key] (snapshot : Snapshot key valid elements) :
    leaders key id elements = elements :=
  List.destutter_of_isChain _ elements (snapshot.sorted.imp fun less => less.ne).isChain

/-- Reading on from a first element finds the first elements from there on. -/
theorem leaders_from (convex : Convex valid group) (snapshot : Snapshot key valid elements)
    {limit : Nat} (isLeader : (leaders key group elements)[limit]? = some leader) :
    leaders key group (elements.filter fun element => key leader ≤ key element) =
      (leaders key group elements).drop limit := by
  induction elements, snapshot using Snapshot.induction group generalizing limit with
  | nil => simp [leaders] at isLeader
  | cons first elements snapshot others ih =>
      have sorted := List.pairwise_cons.mp snapshot.sorted
      rw [leaders_cons convex snapshot] at isLeader ⊢
      cases limit with
      | zero =>
          obtain rfl : first = leader := by simpa using isLeader
          have all : (first :: elements).filter (fun element => key first ≤ key element) =
              first :: elements := by
            rw [List.filter_eq_self]
            intro element member
            rcases List.mem_cons.mp member with rfl | later
            · simp
            · simpa using (sorted.1 element later).le
          rw [all, leaders_cons convex snapshot, List.drop_zero]
      | succ limit =>
          rw [List.getElem?_cons_succ] at isLeader
          rw [List.drop_succ_cons, ← ih isLeader, List.filter_filter]
          have leaderIn : leader ∈ elements ∧ group (key leader) ≠ group (key first) := by
            have found := (leaders_sublist _).subset (List.mem_of_getElem? isLeader)
            simpa using List.mem_filter.mp found
          have behind := sorted.1 leader leaderIn.1
          rw [List.filter_cons_of_neg (by simpa using behind)]
          congr 1
          apply List.filter_congr
          intro element member
          -- An element of the first group would have the new leader between.
          have later : key leader ≤ key element → group (key element) ≠ group (key first) := by
            intro after same
            exact leaderIn.2 (convex (snapshot.valid first (by simp))
              (snapshot.valid element (by simp [member])) behind.le after same.symm)
          by_cases after : key leader ≤ key element
          · simp [after, later after]
          · simp [after]

theorem Snapshot.leaders_sorted (snapshot : Snapshot key valid elements) (group : Key → Group) :
    (leaders key group elements).Pairwise fun first second => key first < key second :=
  snapshot.sorted.sublist (leaders_sublist elements)

/-- The leaders that a limit leaves out are behind the others, in groups of their own. -/
theorem leaders_apart (convex : Convex valid group) (snapshot : Snapshot key valid elements)
    {limit : Nat} {last : Element} (taken : leader ∈ (leaders key group elements).take limit)
    (left : last ∈ (leaders key group elements).drop limit) :
    key leader < key last ∧ group (key leader) ≠ group (key last) := by
  have sorted := snapshot.leaders_sorted group
  have nodup := leaders_nodup convex snapshot
  rw [List.Nodup, List.pairwise_map] at nodup
  rw [← List.take_append_drop limit (leaders key group elements), List.pairwise_append]
    at sorted nodup
  exact ⟨sorted.2.2 leader taken last left, nodup.2.2 leader taken last left⟩

/-- The group of an element is within the limit, or the rest starts before the element. -/
theorem taken_or_next_le (convex : Convex valid group) (snapshot : Snapshot key valid elements)
    (limit : Nat) {element : Element} (member : element ∈ elements) :
    (∃ leader ∈ (leaders key group elements).take limit,
      group (key leader) = group (key element)) ∨
    ∃ next, (leaders key group elements)[limit]? = some next ∧ key next ≤ key element := by
  obtain ⟨leader, isLeader, same, before⟩ := exists_leader convex snapshot member
  rw [← List.take_append_drop limit (leaders key group elements)] at isLeader
  rcases List.mem_append.mp isLeader with taken | left
  · exact Or.inl ⟨leader, taken, same⟩
  · -- The rest starts at the leader or before it.
    have sorted := (snapshot.leaders_sorted group).sublist (List.drop_sublist limit _)
    obtain ⟨first, rest, split⟩ := List.exists_cons_of_ne_nil (List.ne_nil_of_mem left)
    rw [split] at left sorted
    refine Or.inr ⟨first, ?_, le_trans ?_ before⟩
    · rw [← List.head?_drop, split, List.head?_cons]
    · rcases List.mem_cons.mp left with rfl | later
      · exact le_rfl
      · exact ((List.pairwise_cons.mp sorted).1 leader later).le

end Leaders

/-- How far a reader is: the key of its next page, and the elements its pages
have reported. -/
structure Walk (Element Key : Type*) where
  next : Option Key
  reported : List Element

namespace Walk

variable (key : Element → Key) (group : Key → Group)

def start (from_ : Key) : Walk Element Key :=
  ⟨some from_, []⟩

/-- A page of at most `limit` groups of a snapshot. -/
def page (walk : Walk Element Key) (elements : List Element) (limit : Nat) :
    Walk Element Key :=
  match walk.next with
  | none => walk
  | some from_ =>
      let found := leaders key group (elements.filter fun element => from_ ≤ key element)
      ⟨found[limit]?.map key, walk.reported ++ found.take limit⟩

variable {key group} {valid : Key → Prop} {walk : Walk Element Key} {from_ : Key}

/-- What holds of a reader.  `kept k seen` says that all its pages have seen an
element with the key `k` and the property `seen`. -/
structure Exact (key : Element → Key) (group : Key → Group) (valid : Key → Prop) (from_ : Key)
    (kept : Key → (Element → Prop) → Prop) (walk : Walk Element Key) : Prop where
  nodup : (walk.reported.map fun element => group (key element)).Nodup
  valid : ∀ element ∈ walk.reported, valid (key element)
  inside : (∀ next ∈ walk.next, from_ ≤ next) ∧ ∀ element ∈ walk.reported, from_ ≤ key element
  behind : ∀ next ∈ walk.next, ∀ element ∈ walk.reported,
    key element < next ∧ group (key element) ≠ group next
  complete : ∀ k seen, kept k seen → from_ ≤ k → (∃ next ∈ walk.next, next ≤ k) ∨
    ∃ leader ∈ walk.reported, group (key leader) = group k ∧ (key leader = k → seen leader)

omit [DecidableEq Group] in
theorem exact_start (from_ : Key) :
    Exact key group valid from_ (fun _ _ => True) (start from_) :=
  ⟨List.nodup_nil, by simp [start], by simp [start], by simp [start],
    fun _ _ _ after => Or.inl ⟨from_, rfl, after⟩⟩

omit [DecidableEq Group] in
theorem Exact.imp {kept fewer : Key → (Element → Prop) → Prop}
    (exact : Exact key group valid from_ kept walk)
    (implies : ∀ k seen, fewer k seen → kept k seen) :
    Exact key group valid from_ fewer walk :=
  { exact with complete := fun k seen isKept => exact.complete k seen (implies k seen isKept) }

/-- A page of another snapshot goes on without gaps and repetitions. -/
theorem Exact.page {kept : Key → (Element → Prop) → Prop}
    (exact : Exact key group valid from_ kept walk)
    (convex : Convex valid group) {elements : List Element}
    (snapshot : Snapshot key valid elements) (limit : Nat) :
    Exact key group valid from_ (fun k seen => kept k seen ∧
      (walk.next ≠ none → ∃ element ∈ elements, key element = k ∧ seen element))
      (walk.page key group elements limit) := by
  cases next : walk.next with
  | none =>
      simp only [Walk.page, next]
      exact ⟨exact.nodup, exact.valid, exact.inside, exact.behind, fun k seen both =>
        exact.complete k seen both.1⟩
  | some from' =>
      have cut := snapshot.filter fun element => from' ≤ key element
      have inCut : ∀ leader ∈ leaders key group (elements.filter fun element =>
          from' ≤ key element), leader ∈ elements ∧ from' ≤ key leader := by
        intro leader isLeader
        simpa using List.mem_filter.mp ((leaders_sublist _).subset isLeader)
      simp only [Walk.page, next]
      have old : ∀ element ∈ walk.reported, ∀ leader ∈ leaders key group
          (elements.filter fun element => from' ≤ key element),
            key element < key leader ∧ group (key element) ≠ group (key leader) := by
        intro element reported leader isLeader
        obtain ⟨before, apart⟩ := exact.behind from' next element reported
        obtain ⟨leaderIn, after⟩ := inCut leader isLeader
        refine ⟨before.trans_le after, fun same => apart ?_⟩
        exact (convex (exact.valid element reported) (snapshot.valid leader leaderIn)
          before.le after same).symm
      have from_le := exact.inside.1 from' next
      refine ⟨?_, ?_, ⟨?_, ?_⟩, ?_, ?_⟩
      · have reportedNodup := exact.nodup
        have foundNodup := leaders_nodup convex cut
        rw [List.Nodup, List.pairwise_map] at reportedNodup foundNodup ⊢
        rw [List.pairwise_append]
        exact ⟨reportedNodup, foundNodup.sublist (List.take_sublist limit _),
          fun element reported leader isLeader =>
            (old element reported leader (List.mem_of_mem_take isLeader)).2⟩
      · intro element member
        rcases List.mem_append.mp member with reported | isLeader
        · exact exact.valid element reported
        · exact snapshot.valid element (inCut element (List.mem_of_mem_take isLeader)).1
      · intro last isNext
        obtain ⟨leader, isLeader, rfl⟩ := Option.map_eq_some_iff.mp isNext
        exact from_le.trans (inCut leader (List.mem_of_getElem? isLeader)).2
      · intro element member
        rcases List.mem_append.mp member with reported | isLeader
        · exact exact.inside.2 element reported
        · exact from_le.trans (inCut element (List.mem_of_mem_take isLeader)).2
      · intro last isNext element member
        obtain ⟨leader, isLeader, rfl⟩ := Option.map_eq_some_iff.mp isNext
        rcases List.mem_append.mp member with reported | isNew
        · exact old element reported leader (List.mem_of_getElem? isLeader)
        · rw [← List.head?_drop] at isLeader
          exact leaders_apart convex cut isNew (List.mem_of_head? isLeader)
      · rintro k seen ⟨keptBefore, present⟩ after
        rcases exact.complete k seen keptBefore after with
          ⟨here, isNext, behind⟩ | ⟨leader, reported, leads⟩
        · obtain rfl : here = from' := Option.some.inj (isNext.symm.trans next)
          obtain ⟨element, inElements, rfl, isSeen⟩ := present (Option.some_ne_none here)
          have inTheCut : element ∈ elements.filter fun element => here ≤ key element :=
            List.mem_filter.mpr ⟨inElements, decide_eq_true behind⟩
          rcases taken_or_next_le convex cut limit inTheCut with
            ⟨leader, taken, same⟩ | ⟨first, isFirst, before⟩
          · refine Or.inr ⟨leader, List.mem_append_right _ taken, same, fun equal => ?_⟩
            have leaderIn : leader ∈ KeySorted.mk elements snapshot.sorted :=
              (inCut leader (List.mem_of_mem_take taken)).1
            exact KeySorted.eq_of_key_eq leaderIn inElements equal ▸ isSeen
          · exact Or.inl ⟨key first, by rw [isFirst]; rfl, before⟩
        · exact Or.inr ⟨leader, List.mem_append_left _ reported, leads⟩

/-- What the pages of an unchanged snapshot have not reported yet. -/
def rest (key : Element → Key) (group : Key → Group) (walk : Walk Element Key)
    (elements : List Element) : List Element :=
  match walk.next with
  | none => []
  | some from_ => leaders key group (elements.filter fun element => from_ ≤ key element)

theorem page_eq_rest (elements : List Element) (limit : Nat) :
    walk.page key group elements limit =
      ⟨(walk.rest key group elements)[limit]?.map key,
        walk.reported ++ (walk.rest key group elements).take limit⟩ := by
  cases walk with
  | mk next reported => cases next <;> simp [page, rest]

/-- A page of an unchanged snapshot leaves what is behind its limit. -/
theorem rest_page (convex : Convex valid group) {elements : List Element}
    (snapshot : Snapshot key valid elements) (limit : Nat) :
    (walk.page key group elements limit).rest key group elements =
      (walk.rest key group elements).drop limit := by
  cases next : walk.next with
  | none => simp [page, rest, next]
  | some from_ =>
      have cut := snapshot.filter fun element => from_ ≤ key element
      simp only [page, rest, next]
      cases left : (leaders key group (elements.filter fun element =>
          from_ ≤ key element))[limit]? with
      | none => exact (List.drop_eq_nil_of_le (List.getElem?_eq_none_iff.mp left)).symm
      | some leader =>
          have goesOn := leaders_from convex cut left
          have member := (leaders_sublist _).subset (List.mem_of_getElem? left)
          have behind : from_ ≤ key leader := by simpa using (List.mem_filter.mp member).2
          rw [← goesOn, List.filter_filter, Option.map_some]
          simp only
          congr 1
          apply List.filter_congr
          intro element _
          simpa using behind.trans

end Walk

end SnapshotPaging

end LuaServer
