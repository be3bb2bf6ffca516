import LuaServer.FueledLoops
import Mathlib.Data.Finset.Card
import Mathlib.Data.List.Chain
import Mathlib.Logic.Function.Basic

/-!
# Predecessor links

A graph search records for every discovered vertex the vertex it was reached
from.  The record is a partial map that only ever grows, so chains of links
stay chains; when every linked vertex leads back to a root without a link,
the links are acyclic and walking them backwards ends at the root.  While
walking back, collinear vertices may be merged by any test under which the
links compose.
-/

namespace LuaServer

namespace PredecessorLinks

open Relation FueledLoops

variable {Vertex : Type*}

/-- `before` is the recorded predecessor of `vertex`. -/
def Link (links : Vertex → Option Vertex) (vertex before : Vertex) : Prop :=
  links vertex = some before

/-- Walking back from `vertex` passes through `root`. -/
def Rooted (links : Vertex → Option Vertex) (root vertex : Vertex) : Prop :=
  ReflTransGen (Link links) vertex root

/-- No vertex is its own predecessor, directly or through others. -/
def Acyclic (links : Vertex → Option Vertex) : Prop :=
  ∀ vertex, ¬ TransGen (Link links) vertex vertex

/-- Record a predecessor unless one is recorded already. -/
def insertLink [DecidableEq Vertex] (links : Vertex → Option Vertex)
    (entry : Vertex × Vertex) : Vertex → Option Vertex :=
  match links entry.1 with
  | some _ => links
  | none => Function.update links entry.1 (some entry.2)

/-- `later` records everything `earlier` records. -/
def Extends (later earlier : Vertex → Option Vertex) : Prop :=
  ∀ vertex before, earlier vertex = some before → later vertex = some before

section Growth

variable {links later : Vertex → Option Vertex} {root vertex before : Vertex}

@[refl]
theorem Extends.refl (links : Vertex → Option Vertex) : Extends links links :=
  fun _ _ recorded => recorded

theorem Extends.trans {middle : Vertex → Option Vertex}
    (second : Extends later middle) (first : Extends middle links) :
    Extends later links :=
  fun vertex before recorded =>
    second vertex before (first vertex before recorded)

theorem Rooted.mono (grows : Extends later links)
    (rooted : Rooted links root vertex) : Rooted later root vertex :=
  ReflTransGen.mono (fun vertex before => grows vertex before) _ _ rooted

theorem Rooted.of_link (link : links vertex = some before)
    (rooted : Rooted links root before) : Rooted links root vertex :=
  ReflTransGen.head link rooted

variable [DecidableEq Vertex] {entry : Vertex × Vertex}

theorem insertLink_of_some (recorded : links entry.1 = some before) :
    insertLink links entry = links := by
  simp [insertLink, recorded]

theorem insertLink_of_none (absent : links entry.1 = none) :
    insertLink links entry = Function.update links entry.1 (some entry.2) := by
  simp [insertLink, absent]

theorem insertLink_extends (links : Vertex → Option Vertex)
    (entry : Vertex × Vertex) : Extends (insertLink links entry) links := by
  intro vertex before recorded
  cases present : links entry.1 with
  | some _ => rwa [insertLink_of_some present]
  | none =>
      rw [insertLink_of_none present]
      have different : vertex ≠ entry.1 := by
        rintro rfl
        simp [present] at recorded
      simpa [different] using recorded

theorem insertLink_eq_some (recorded : insertLink links entry vertex = some before) :
    links vertex = some before ∨
      (links vertex = none ∧ (vertex, before) = entry) := by
  cases present : links entry.1 with
  | some _ =>
      rw [insertLink_of_some present] at recorded
      exact Or.inl recorded
  | none =>
      rw [insertLink_of_none present] at recorded
      by_cases same : vertex = entry.1
      · subst vertex
        simp only [Function.update_self, Option.some.injEq] at recorded
        exact Or.inr ⟨present, by rw [← recorded]⟩
      · rw [Function.update_of_ne same] at recorded
        exact Or.inl recorded

theorem insertLink_isSome (links : Vertex → Option Vertex)
    (entry : Vertex × Vertex) : (insertLink links entry entry.1).isSome := by
  cases present : links entry.1 with
  | some before => simp [insertLink_of_some present, present]
  | none => simp [insertLink_of_none present]

theorem insertLink_eq_none :
    insertLink links entry vertex = none ↔
      links vertex = none ∧ vertex ≠ entry.1 := by
  cases present : links entry.1 with
  | some before =>
      rw [insertLink_of_some present]
      constructor
      · intro absent
        refine ⟨absent, ?_⟩
        rintro rfl
        simp [present] at absent
      · exact And.left
  | none =>
      rw [insertLink_of_none present]
      by_cases same : vertex = entry.1
      · simp [same]
      · simp [same]

theorem foldl_insertLink_extends (entries : List (Vertex × Vertex))
    (links : Vertex → Option Vertex) :
    Extends (entries.foldl insertLink links) links := by
  induction entries generalizing links with
  | nil => rfl
  | cons entry entries ih =>
      exact (ih (insertLink links entry)).trans (insertLink_extends links entry)

theorem foldl_insertLink_eq_some {entries : List (Vertex × Vertex)}
    (recorded : entries.foldl insertLink links vertex = some before) :
    links vertex = some before ∨
      (links vertex = none ∧ (vertex, before) ∈ entries) := by
  induction entries generalizing links with
  | nil => exact Or.inl recorded
  | cons entry entries ih =>
      rcases ih recorded with old | ⟨absent, member⟩
      · rcases insertLink_eq_some old with older | ⟨absent, rfl⟩
        · exact Or.inl older
        · exact Or.inr ⟨absent, List.mem_cons_self⟩
      · exact Or.inr ⟨(insertLink_eq_none.mp absent).1,
          List.mem_cons_of_mem _ member⟩

theorem foldl_insertLink_eq_none {entries : List (Vertex × Vertex)} :
    entries.foldl insertLink links vertex = none ↔
      links vertex = none ∧ ∀ entry ∈ entries, vertex ≠ entry.1 := by
  induction entries generalizing links with
  | nil => simp
  | cons entry entries ih =>
      rw [List.foldl_cons, ih, insertLink_eq_none, List.forall_mem_cons, and_assoc]

end Growth

section Backing

variable {links later : Vertex → Option Vertex} {roots : Vertex → Prop}
  {vertex before : Vertex}

/-- Walking back from `vertex` passes through one of the roots. -/
def RootedIn (links : Vertex → Option Vertex) (roots : Vertex → Prop)
    (vertex : Vertex) : Prop :=
  ∃ root, roots root ∧ Rooted links root vertex

/-- All recorded predecessors lead back to one of the roots. -/
def BackedBy (links : Vertex → Option Vertex) (roots : Vertex → Prop) : Prop :=
  ∀ vertex before, links vertex = some before → RootedIn links roots before

theorem rootedIn_of_root (isRoot : roots vertex) : RootedIn links roots vertex :=
  ⟨vertex, isRoot, ReflTransGen.refl⟩

theorem RootedIn.mono (grows : Extends later links)
    (rooted : RootedIn links roots vertex) : RootedIn later roots vertex := by
  obtain ⟨root, isRoot, leads⟩ := rooted
  exact ⟨root, isRoot, leads.mono grows⟩

theorem BackedBy.rootedIn (backed : BackedBy links roots)
    (recorded : links vertex = some before) : RootedIn links roots vertex := by
  obtain ⟨root, isRoot, leads⟩ := backed vertex before recorded
  exact ⟨root, isRoot, leads.of_link recorded⟩

/-- Roots that lead back to other roots can be replaced by them. -/
theorem BackedBy.replace {others : Vertex → Prop} (backed : BackedBy links roots)
    (leads : ∀ root, roots root → RootedIn links others root) :
    BackedBy links others := by
  intro vertex before recorded
  obtain ⟨root, isRoot, toRoot⟩ := backed vertex before recorded
  obtain ⟨other, isOther, toOther⟩ := leads root isRoot
  exact ⟨other, isOther, ReflTransGen.trans toRoot toOther⟩

theorem BackedBy.widen {others : Vertex → Prop} (backed : BackedBy links roots)
    (included : ∀ root, roots root → others root) : BackedBy links others :=
  backed.replace fun root isRoot => rootedIn_of_root (included root isRoot)

variable [DecidableEq Vertex] {entries : List (Vertex × Vertex)}

/-- Links to predecessors that lead back to the roots may be added. -/
theorem BackedBy.foldl_insertLink (backed : BackedBy links roots)
    (rooted : ∀ entry ∈ entries, RootedIn links roots entry.2) :
    BackedBy (entries.foldl insertLink links) roots := by
  intro vertex before recorded
  have grows := foldl_insertLink_extends entries links
  rcases foldl_insertLink_eq_some recorded with old | ⟨-, member⟩
  · exact (backed vertex before old).mono grows
  · exact (rooted _ member).mono grows

theorem foldl_insertLink_of_linked
    (linked : ∀ entry ∈ entries, links entry.1 ≠ none) :
    entries.foldl insertLink links = links := by
  induction entries with
  | nil => rfl
  | cons entry entries ih =>
      obtain ⟨before, recorded⟩ :=
        Option.ne_none_iff_exists'.mp (linked entry List.mem_cons_self)
      rw [List.foldl_cons, insertLink_of_some recorded]
      exact ih fun other member => linked other (List.mem_cons_of_mem _ member)

end Backing

section Counting

variable {links : Vertex → Option Vertex} {entry : Vertex × Vertex}

/-- How many vertices of a finite set have no predecessor yet. -/
def unlinkedCount (vertices : Finset Vertex)
    (links : Vertex → Option Vertex) : Nat :=
  (vertices.filter fun vertex => links vertex = none).card

theorem unlinkedCount_mono {later : Vertex → Option Vertex}
    (vertices : Finset Vertex) (grows : Extends later links) :
    unlinkedCount vertices later ≤ unlinkedCount vertices links := by
  apply Finset.card_le_card
  intro vertex
  simp only [Finset.mem_filter]
  rintro ⟨inside, unlinked⟩
  refine ⟨inside, ?_⟩
  by_contra linked
  obtain ⟨before, recorded⟩ := Option.ne_none_iff_exists'.mp linked
  simp [grows vertex before recorded] at unlinked

/-- Linking a new vertex of the set leaves fewer vertices to link. -/
theorem unlinkedCount_insertLink_lt [DecidableEq Vertex] {vertices : Finset Vertex}
    (member : entry.1 ∈ vertices) (absent : links entry.1 = none) :
    unlinkedCount vertices (insertLink links entry) <
      unlinkedCount vertices links := by
  apply Finset.card_lt_card
  rw [Finset.ssubset_iff_of_subset]
  · refine ⟨entry.1, by simp [member, absent], ?_⟩
    simp [insertLink_eq_none]
  · intro vertex
    simp only [Finset.mem_filter, insertLink_eq_none]
    rintro ⟨inside, unlinked, -⟩
    exact ⟨inside, unlinked⟩

end Counting

section Acyclicity

variable {links : Vertex → Option Vertex} {root vertex before : Vertex}

/-- A cycle through a vertex passes through every vertex it leads back to. -/
theorem transGen_of_reflTransGen
    (cycle : TransGen (Link links) vertex vertex)
    (leads : ReflTransGen (Link links) vertex before) :
    TransGen (Link links) before before := by
  induction leads with
  | refl => exact cycle
  | @tail middle last _ link ih =>
      obtain ⟨after, first, rest⟩ := TransGen.head'_iff.mp ih
      have same : after = last := Option.some.inj (first.symm.trans link)
      subst after
      exact TransGen.tail' rest link

/-- Links that all lead back to roots without a link have no cycle. -/
theorem acyclic_of_backedBy {roots : Vertex → Prop}
    (unlinked : ∀ root, roots root → links root = none)
    (backed : BackedBy links roots) : Acyclic links := by
  intro vertex cycle
  obtain ⟨before, link, -⟩ := TransGen.head'_iff.mp cycle
  obtain ⟨root, isRoot, leads⟩ := backed.rootedIn link
  have atRoot := transGen_of_reflTransGen cycle leads
  obtain ⟨after, loop, -⟩ := TransGen.head'_iff.mp atRoot
  simp [Link, unlinked root isRoot] at loop

/-- Two unlinked vertices that one vertex leads back to are the same. -/
theorem Rooted.eq_of_unlinked {first : Vertex} (unlinked : links root = none)
    (firstUnlinked : links first = none) (rooted : Rooted links root vertex)
    (leads : Rooted links first vertex) : first = root := by
  unfold Rooted at rooted leads
  induction rooted using ReflTransGen.head_induction_on with
  | refl =>
      rcases leads.cases_head with same | ⟨next, link, -⟩
      · exact same.symm
      · simp [Link, unlinked] at link
  | @head vertex before link _ ih =>
      rcases leads.cases_head with same | ⟨next, first', rest⟩
      · subst same
        simp [Link, firstUnlinked] at link
      · obtain rfl := Option.some.inj (link.symm.trans first')
        exact ih rest

end Acyclicity

section WalkingBack

variable {links : Vertex → Option Vertex} {root vertex : Vertex}
  {waypoints : List Vertex}

/-- Append a vertex to the waypoints, replacing the last one when it lies
between the vertex and the last but one.  The list holds the waypoints from
the last appended to the first. -/
def pushWaypoint (merges : Vertex → Vertex → Vertex → Bool)
    (vertex : Vertex) : List Vertex → List Vertex
  | last :: previous :: rest =>
      if merges vertex last previous then vertex :: previous :: rest
      else vertex :: last :: previous :: rest
  | waypoints => vertex :: waypoints

/-- One round of the backward walk: stop at a vertex without predecessor. -/
def walkBackBody (links : Vertex → Option Vertex)
    (merges : Vertex → Vertex → Vertex → Bool) :
    Vertex × List Vertex → (Vertex × List Vertex) ⊕ List Vertex
  | (vertex, waypoints) =>
      match links vertex with
      | none => .inr waypoints
      | some before => .inl (before, pushWaypoint merges before waypoints)

/-- The waypoints end at `target`, start at `vertex`, and consecutive ones are
related. -/
structure IsTrail (related : Vertex → Vertex → Prop) (vertex target : Vertex)
    (waypoints : List Vertex) : Prop where
  chain : waypoints.IsChain related
  starts : waypoints.head? = some vertex
  ends : waypoints.getLast? = some target

variable {related : Vertex → Vertex → Prop}
  {merges : Vertex → Vertex → Vertex → Bool} {target before : Vertex}

theorem isTrail_singleton (related : Vertex → Vertex → Prop)
    (target : Vertex) : IsTrail related target target [target] :=
  ⟨List.isChain_singleton _, rfl, rfl⟩

/-- Merging keeps a trail when merged links compose. -/
theorem IsTrail.pushWaypoint
    (composes : ∀ first middle last, related first middle →
      related middle last → merges first middle last = true →
        related first last)
    (trail : IsTrail related vertex target waypoints)
    (link : related before vertex) :
    IsTrail related before target
      (PredecessorLinks.pushWaypoint merges before waypoints) := by
  obtain ⟨chain, starts, ends⟩ := trail
  match waypoints, chain, starts, ends with
  | [only], _, starts, ends =>
      obtain rfl : only = vertex := by simpa using starts
      exact ⟨by simpa [PredecessorLinks.pushWaypoint] using link, rfl,
        by simpa [PredecessorLinks.pushWaypoint] using ends⟩
  | last :: previous :: rest, chain, starts, ends =>
      obtain rfl : last = vertex := by simpa using starts
      rw [List.isChain_cons_cons] at chain
      simp only [PredecessorLinks.pushWaypoint]
      split
      next merged =>
        have skips := composes before last previous link chain.1 merged
        exact ⟨List.isChain_cons_cons.mpr ⟨skips, chain.2⟩, rfl,
          by simpa using ends⟩
      next =>
        exact ⟨List.isChain_cons_cons.mpr
            ⟨link, List.isChain_cons_cons.mpr chain⟩, rfl,
          by simpa using ends⟩

/-- Walking back along links yields a trail from a vertex without predecessor. -/
theorem walkBack_trail
    (composes : ∀ first middle last, related first middle →
      related middle last → merges first middle last = true →
        related first last)
    (linked : ∀ vertex before, links vertex = some before →
      related before vertex)
    {result : List Vertex}
    (returns : Returns (walkBackBody links merges) (target, [target]) result) :
    ∃ first, links first = none ∧ Rooted links first target ∧
      IsTrail related first target result := by
  obtain ⟨fuel, returned⟩ := returns
  let invariant : Vertex × List Vertex → Prop := fun state =>
    Rooted links state.1 target ∧ IsTrail related state.1 target state.2
  have keeps : ∀ current after, invariant current →
      walkBackBody links merges current = .inl after → invariant after := by
    rintro ⟨vertex, waypoints⟩ after ⟨rooted, trail⟩ stepped
    simp only [walkBackBody] at stepped
    split at stepped
    next => simp at stepped
    next before link =>
      obtain rfl := Sum.inl.inj stepped
      exact ⟨rooted.tail link,
        trail.pushWaypoint composes (linked vertex before link)⟩
  have initially : invariant (target, [target]) :=
    ⟨ReflTransGen.refl, isTrail_singleton related target⟩
  obtain ⟨⟨vertex, waypoints⟩, ⟨rooted, trail⟩, -, exits⟩ :=
    exit_of_invariant invariant keeps initially returned
  simp only [walkBackBody] at exits
  split at exits
  next absent =>
    obtain rfl := Sum.inr.inj exits
    exact ⟨vertex, absent, rooted, trail⟩
  next => simp at exits

theorem walkBack_returns (unlinked : links root = none)
    (rooted : Rooted links root vertex) (waypoints : List Vertex) :
    ∃ result, Returns (walkBackBody links merges) (vertex, waypoints) result := by
  induction rooted using ReflTransGen.head_induction_on generalizing waypoints with
  | refl =>
      exact ⟨waypoints, returns_of_exit (by simp [walkBackBody, unlinked])⟩
  | @head vertex before link _ ih =>
      obtain ⟨result, returns⟩ := ih (PredecessorLinks.pushWaypoint merges before waypoints)
      have recorded : links vertex = some before := link
      exact ⟨result, returns_of_continue (by simp [walkBackBody, recorded]) returns⟩

/-- Walking back never ends inside a set of vertices closed under
predecessors. -/
theorem walkBack_diverges (inside : Vertex → Prop)
    (closed : ∀ vertex, inside vertex →
      ∃ before, links vertex = some before ∧ inside before)
    (starts : inside vertex) (waypoints : List Vertex) :
    Diverges (walkBackBody links merges) (vertex, waypoints) := by
  apply diverges_of_invariant (fun state => inside state.1) _ starts
  rintro ⟨current, trail⟩ isInside
  obtain ⟨before, link, beforeInside⟩ := closed current isInside
  exact ⟨(before, PredecessorLinks.pushWaypoint merges before trail),
    by simp [walkBackBody, link], beforeInside⟩

end WalkingBack

end PredecessorLinks

end LuaServer
