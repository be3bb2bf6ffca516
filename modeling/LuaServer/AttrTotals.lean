import Mathlib.Algebra.BigOperators.Group.List.Basic
import Mathlib.Algebra.BigOperators.Group.Multiset.Basic
import Mathlib.Data.BitVec
import Mathlib.Data.List.AList
import Mathlib.Tactic.Abel

/-!
# Attributes as totals

The attributes of a player are the sums of what the handlers return.  When a change
concerns one handler alone, only the difference of its tables before and after the change
is added to them.  The sums stay those that would be computed anew, and the entries that
were changed are enough to keep a copy of them up to date.
-/

namespace LuaServer

namespace Attr

/-- A table of numbers, with its entries in the order in which `pairs` visits them. -/
abbrev AttrTable (Id Value : Type*) :=
  AList fun _ : Id => Value

section Functions

variable {Key Id Value Data : Type*} [DecidableEq Key] [DecidableEq Id] [AddCommGroup Value]
  [DecidableEq Value]

/-- `attrs[id] or 0`. -/
def val (attrs : AttrTable Id Value) (id : Id) : Value :=
  (attrs.lookup id).getD 0

/-- The body of the inner loop of `all_attr`. -/
def addEntry (attrs : AttrTable Id Value) (entry : Σ _ : Id, Value) : AttrTable Id Value :=
  let ov := val attrs entry.1
  let ov := ov + entry.2
  attrs.insert entry.1 ov

/-- `all_attr`, with the table it assigns to `player.attrs`. -/
def allAttr (attrHandle : AList fun _ : Key => Data → AttrTable Id Value) (player : Data) :
    AttrTable Id Value :=
  attrHandle.entries.foldl (fun attrs handle => (handle.2 player).entries.foldl addEntry attrs) ∅

/-- The tables `add_diff` works on. -/
structure Adding (Id Value : Type*) where
  pattrs : AttrTable Id Value
  oattrs : AttrTable Id Value
  diff : AttrTable Id Value

/-- `pattrs[id] = pv` and `diff[id] = pv`. -/
def Adding.assign (adding : Adding Id Value) (id : Id) (pv : Value) : Adding Id Value :=
  { adding with pattrs := adding.pattrs.insert id pv, diff := adding.diff.insert id pv }

/-- The body of the loop over `nattrs`. -/
def newBody (adding : Adding Id Value) (entry : Σ _ : Id, Value) : Adding Id Value :=
  let ov := val adding.oattrs entry.1
  let adding := { adding with oattrs := adding.oattrs.erase entry.1 }
  if ov ≠ entry.2 then adding.assign entry.1 (val adding.pattrs entry.1 + entry.2 - ov)
  else adding

/-- The body of the loop over `oattrs`. -/
def oldBody (adding : Adding Id Value) (entry : Σ _ : Id, Value) : Adding Id Value :=
  adding.assign entry.1 (val adding.pattrs entry.1 - entry.2)

/-- `add_diff`, with `player.attrs` behind it and the table it returns, if there is one. -/
def addDiff (pattrs oattrs nattrs : AttrTable Id Value) :
    AttrTable Id Value × Option (AttrTable Id Value) :=
  let adding := nattrs.entries.foldl newBody ⟨pattrs, oattrs, ∅⟩
  let adding := adding.oattrs.entries.foldl oldBody adding
  (adding.pattrs, if adding.diff.entries.isEmpty then none else some adding.diff)

/-- What the handlers read, `player.attrs`, and a copy of them that is kept up to date by
the tables `add_diff` returns. -/
structure Mirrored (Data Id Value : Type*) where
  player : Data
  attrs : AttrTable Id Value
  mirror : AttrTable Id Value

/-- Overwrite a table with the entries of another one. -/
def overwrite (mirror diff : AttrTable Id Value) : AttrTable Id Value :=
  diff.entries.foldl (fun mirror entry => mirror.insert entry.1 entry.2) mirror

/-- A call of `diff_attr`: `func` changes what the handlers read. -/
structure Call (Key Data : Type*) where
  attrtype : Key
  func : Data → Data

/-- `diff_attr`.  It raises an error when there is no such handler. -/
def diffAttr (attrHandle : AList fun _ : Key => Data → AttrTable Id Value)
    (mirrored : Mirrored Data Id Value) (call : Call Key Data) : Mirrored Data Id Value :=
  match attrHandle.lookup call.attrtype with
  | none => mirrored
  | some handle =>
      let oattrs := handle mirrored.player
      let player := call.func mirrored.player
      let nattrs := handle player
      let (attrs, diff) := addDiff mirrored.attrs oattrs nattrs
      ⟨player, attrs, (diff.map (overwrite mirrored.mirror)).getD mirrored.mirror⟩

/-- A player initialised by `all_attr`, after some calls. -/
def run (attrHandle : AList fun _ : Key => Data → AttrTable Id Value) (player : Data)
    (calls : List (Call Key Data)) : Mirrored Data Id Value :=
  let attrs := allAttr attrHandle player
  calls.foldl (diffAttr attrHandle) ⟨player, attrs, attrs⟩

/-- `func` changes only what the handler of the call reads: the others return the same
entries. -/
def Call.Respects (call : Call Key Data)
    (attrHandle : AList fun _ : Key => Data → AttrTable Id Value) : Prop :=
  ∀ other ∈ attrHandle.entries, other.1 ≠ call.attrtype → ∀ player id,
    (other.2 (call.func player)).lookup id = (other.2 player).lookup id

end Functions

section Totals

variable {Key Id Value Data : Type*} [DecidableEq Key] [DecidableEq Id] [AddCommGroup Value]

theorem val_insert (attrs : AttrTable Id Value) (other : Id) (v : Value) (id : Id) :
    val (attrs.insert other v) id = if id = other then v else val attrs id := by
  by_cases same : id = other
  · subst same
    simp [val]
  · simp [val, same]

theorem val_erase (attrs : AttrTable Id Value) (other id : Id) :
    val (attrs.erase other) id = if id = other then 0 else val attrs id := by
  by_cases same : id = other
  · subst same
    simp [val]
  · simp [val, same]

/-- The entries of a table add up to its values. -/
theorem foldl_total {State : Type*} {total : State → Id → Value}
    {step : State → (Σ _ : Id, Value) → State}
    (each : ∀ state entry id, total (step state entry) id =
      total state id + if id = entry.1 then entry.2 else 0)
    (table : AttrTable Id Value) (state : State) (id : Id) :
    total (table.entries.foldl step state) id = total state id + val table id := by
  obtain ⟨entries, apart⟩ := table
  induction entries generalizing state with
  | nil => simp [val, AList.lookup]
  | cons entry entries ih =>
      obtain ⟨notAgain, apartRest⟩ := List.nodupKeys_cons.mp apart
      rw [List.foldl_cons, ih _ apartRest, each, add_assoc, add_right_inj]
      obtain ⟨first, v⟩ := entry
      by_cases same : id = first
      · subst same
        have absent : List.dlookup id entries = none := List.dlookup_eq_none.mpr notAgain
        simp [val, AList.lookup, absent]
      · simp [val, AList.lookup, same, List.dlookup_cons_ne]

theorem addEntry_total (attrs : AttrTable Id Value) (entry : Σ _ : Id, Value) (id : Id) :
    val (addEntry attrs entry) id = val attrs id + if id = entry.1 then entry.2 else 0 := by
  rw [addEntry, val_insert]
  split
  next same => rw [same]
  next => rw [add_zero]

omit [DecidableEq Key] in
theorem val_allAttr (attrHandle : AList fun _ : Key => Data → AttrTable Id Value)
    (player : Data) (id : Id) :
    val (allAttr attrHandle player) id =
      (attrHandle.entries.map fun handle => val (handle.2 player) id).sum := by
  have loop : ∀ (handles : List (Σ _ : Key, Data → AttrTable Id Value))
      (attrs : AttrTable Id Value),
      val (handles.foldl (fun attrs handle => (handle.2 player).entries.foldl addEntry attrs)
        attrs) id = val attrs id + (handles.map fun handle => val (handle.2 player) id).sum := by
    intro handles
    induction handles with
    | nil => intro attrs; simp
    | cons handle handles ih =>
        intro attrs
        have inner := @foldl_total Id Value _ _ _ val addEntry addEntry_total (handle.2 player)
        rw [List.foldl_cons, ih, List.map_cons, List.sum_cons, ← add_assoc, inner]
  rw [allAttr, loop]
  simp [val]

end Totals

section Copies

variable {Id Value : Type*} [DecidableEq Id]

/-- The totals are those at the start, overwritten with the difference. -/
def Adding.Follows (start : AttrTable Id Value) (adding : Adding Id Value) : Prop :=
  ∀ id, adding.pattrs.lookup id = (adding.diff.lookup id).or (start.lookup id)

namespace Adding.Follows

variable {start : AttrTable Id Value} {adding : Adding Id Value}

theorem assign (follows : adding.Follows start) (id : Id) (pv : Value) :
    (adding.assign id pv).Follows start := by
  intro other
  by_cases same : other = id
  · subst same
    simp [Adding.assign]
  · simpa [Adding.assign, same] using follows other

theorem foldl {step : Adding Id Value → (Σ _ : Id, Value) → Adding Id Value}
    (each : ∀ adding entry, Adding.Follows start adding → (step adding entry).Follows start)
    (entries : List (Σ _ : Id, Value)) (follows : adding.Follows start) :
    (entries.foldl step adding).Follows start := by
  induction entries generalizing adding with
  | nil => exact follows
  | cons entry entries ih => exact ih (each adding entry follows)

end Adding.Follows

theorem lookup_overwrite (mirror diff : AttrTable Id Value) (id : Id) :
    (overwrite mirror diff).lookup id = (diff.lookup id).or (mirror.lookup id) := by
  obtain ⟨entries, apart⟩ := diff
  unfold overwrite
  induction entries generalizing mirror with
  | nil => simp [AList.lookup]
  | cons entry entries ih =>
      obtain ⟨notAgain, apartRest⟩ := List.nodupKeys_cons.mp apart
      rw [List.foldl_cons, ih _ apartRest]
      obtain ⟨first, v⟩ := entry
      by_cases same : id = first
      · subst same
        have absent : List.dlookup id entries = none := List.dlookup_eq_none.mpr notAgain
        rw [AList.lookup_insert]
        simp [AList.lookup, absent]
      · rw [AList.lookup_insert_ne same]
        simp [AList.lookup, same, List.dlookup_cons_ne]

end Copies

section Differences

variable {Id Value : Type*} [DecidableEq Id] [AddCommGroup Value]

/-- The second loop takes what it visits from the totals. -/
theorem val_foldl_oldBody (table : AttrTable Id Value) (adding : Adding Id Value) (id : Id) :
    val (table.entries.foldl oldBody adding).pattrs id = val adding.pattrs id - val table id := by
  have each : ∀ (adding : Adding Id Value) (entry : Σ _ : Id, Value) (id : Id),
      -val (oldBody adding entry).pattrs id =
        -val adding.pattrs id + if id = entry.1 then entry.2 else 0 := by
    intro adding entry id
    rw [oldBody, Adding.assign, val_insert]
    by_cases same : id = entry.1
    · rw [if_pos same, if_pos same, same]
      abel
    · rw [if_neg same, if_neg same, add_zero]
  have taken := @foldl_total Id Value _ _ _ (fun adding id => -val adding.pattrs id) oldBody each
    table adding id
  rw [← neg_inj, taken]
  abel

/-- What is still to be taken from the totals is what is left in the old table. -/
def Adding.total (adding : Adding Id Value) (id : Id) : Value :=
  val adding.pattrs id - val adding.oattrs id

variable [DecidableEq Value]

theorem newBody_of_eq {adding : Adding Id Value} {entry : Σ _ : Id, Value}
    (equal : val adding.oattrs entry.1 = entry.2) :
    newBody adding entry = { adding with oattrs := adding.oattrs.erase entry.1 } :=
  if_neg (not_not.mpr equal)

theorem newBody_of_ne {adding : Adding Id Value} {entry : Σ _ : Id, Value}
    (differs : val adding.oattrs entry.1 ≠ entry.2) :
    newBody adding entry =
      Adding.assign { adding with oattrs := adding.oattrs.erase entry.1 } entry.1
        (val adding.pattrs entry.1 + entry.2 - val adding.oattrs entry.1) :=
  if_pos differs

theorem newBody_total (adding : Adding Id Value) (entry : Σ _ : Id, Value) (id : Id) :
    (newBody adding entry).total id = adding.total id + if id = entry.1 then entry.2 else 0 := by
  by_cases equal : val adding.oattrs entry.1 = entry.2
  · rw [newBody_of_eq equal, Adding.total, Adding.total, val_erase]
    by_cases same : id = entry.1
    · rw [if_pos same, if_pos same, same, equal]
      abel
    · rw [if_neg same, if_neg same, add_zero]
  · rw [newBody_of_ne equal, Adding.total, Adding.total, Adding.assign, val_insert, val_erase]
    by_cases same : id = entry.1
    · rw [if_pos same, if_pos same, if_pos same, same]
      abel
    · rw [if_neg same, if_neg same, if_neg same, add_zero]

/-- `add_diff` adds the new table and takes the old one away. -/
theorem val_addDiff (pattrs oattrs nattrs : AttrTable Id Value) (id : Id) :
    val (addDiff pattrs oattrs nattrs).1 id = val pattrs id + val nattrs id - val oattrs id := by
  have added := foldl_total newBody_total nattrs ⟨pattrs, oattrs, ∅⟩ id
  simp only [Adding.total] at added
  simp only [addDiff, val_foldl_oldBody, added]
  abel

theorem Adding.Follows.newBody {start : AttrTable Id Value} {adding : Adding Id Value}
    (follows : adding.Follows start) (entry : Σ _ : Id, Value) :
    (newBody adding entry).Follows start := by
  have erased : Adding.Follows start { adding with oattrs := adding.oattrs.erase entry.1 } :=
    follows
  by_cases equal : val adding.oattrs entry.1 = entry.2
  · rw [newBody_of_eq equal]
    exact erased
  · rw [newBody_of_ne equal]
    exact erased.assign _ _

/-- A copy that is overwritten with what `add_diff` returns follows the totals. -/
theorem lookup_mirror (pattrs oattrs nattrs : AttrTable Id Value) {mirror : AttrTable Id Value}
    (copies : ∀ id, mirror.lookup id = pattrs.lookup id) (id : Id) :
    (((addDiff pattrs oattrs nattrs).2.map (overwrite mirror)).getD mirror).lookup id =
      (addDiff pattrs oattrs nattrs).1.lookup id := by
  have start : Adding.Follows pattrs ⟨pattrs, oattrs, ∅⟩ := fun id => by simp
  have added := start.foldl (fun _ entry follows => follows.newBody entry) nattrs.entries
  have taken := @Adding.Follows.foldl _ _ _ _ _ oldBody (fun _ _ follows => follows.assign _ _)
    (nattrs.entries.foldl newBody ⟨pattrs, oattrs, ∅⟩).oattrs.entries added
  refine Eq.trans ?_ (taken id).symm
  simp only [addDiff]
  split
  next isEmpty =>
    have noDiff := List.isEmpty_iff.mp isEmpty
    rw [Option.map_none, Option.getD_none, copies, AList.lookup, AList.lookup, noDiff]
    rfl
  next => rw [Option.map_some, Option.getD_some, lookup_overwrite, copies]

end Differences

section Runs

variable {Key Id Value Data : Type*} [DecidableEq Key] [DecidableEq Id] [AddCommGroup Value]

/-- When one handler changes what it returns, the sum changes by the difference. -/
theorem sum_of_one {handles : List (Σ _ : Key, Data → AttrTable Id Value)}
    (apart : handles.NodupKeys) {handle : Data → AttrTable Id Value} {attrtype : Key}
    (found : handles.dlookup attrtype = some handle) {before after : Data} {id : Id}
    (others : ∀ other ∈ handles, other.1 ≠ attrtype →
      val (other.2 after) id = val (other.2 before) id) :
    (handles.map fun other => val (other.2 after) id).sum =
      (handles.map fun other => val (other.2 before) id).sum + val (handle after) id -
        val (handle before) id := by
  induction handles with
  | nil => cases found
  | cons first handles ih =>
      obtain ⟨notAgain, apartRest⟩ := List.nodupKeys_cons.mp apart
      obtain ⟨key, func⟩ := first
      rw [List.map_cons, List.map_cons, List.sum_cons, List.sum_cons]
      by_cases same : attrtype = key
      · subst same
        rw [List.dlookup_cons_eq, Option.some.injEq] at found
        have rest : handles.map (fun other => val (other.2 after) id) =
            handles.map fun other => val (other.2 before) id := by
          refine List.map_congr_left fun other member => ?_
          refine others other (List.mem_cons_of_mem _ member) fun isSame => notAgain ?_
          have isKey := List.mem_keys_of_mem member
          rwa [isSame] at isKey
        rw [rest, found]
        abel
      · rw [List.dlookup_cons_ne _ _ same] at found
        rw [ih apartRest found fun other member =>
          others other (List.mem_cons_of_mem _ member), others _ List.mem_cons_self (Ne.symm same)]
        abel

variable [DecidableEq Value] {attrHandle : AList fun _ : Key => Data → AttrTable Id Value}
  {mirrored : Mirrored Data Id Value}

/-- The attributes are what `all_attr` would compute, in whatever order it visits the
handlers, and the copy is equal to them. -/
structure Mirrored.Current (attrHandle : AList fun _ : Key => Data → AttrTable Id Value)
    (mirrored : Mirrored Data Id Value) : Prop where
  totals : ∀ visited : AList fun _ : Key => Data → AttrTable Id Value,
    visited.entries.Perm attrHandle.entries → ∀ id,
      val mirrored.attrs id = val (allAttr visited mirrored.player) id
  copies : ∀ id, mirrored.mirror.lookup id = mirrored.attrs.lookup id

omit [DecidableEq Key] [DecidableEq Value] in
theorem Mirrored.Current.of_totals
    (totals : ∀ id, val mirrored.attrs id = val (allAttr attrHandle mirrored.player) id)
    (copies : ∀ id, mirrored.mirror.lookup id = mirrored.attrs.lookup id) :
    mirrored.Current attrHandle := by
  refine ⟨fun visited order id => ?_, copies⟩
  rw [totals, val_allAttr, val_allAttr]
  exact (order.map _).sum_eq.symm

theorem Mirrored.Current.diffAttr (current : mirrored.Current attrHandle) {call : Call Key Data}
    (respects : call.Respects attrHandle) :
    (diffAttr attrHandle mirrored call).Current attrHandle := by
  unfold Attr.diffAttr
  split
  next => exact current
  next handle found =>
    refine .of_totals (fun id => ?_) fun id => lookup_mirror _ _ _ current.copies id
    have others : ∀ other ∈ attrHandle.entries, other.1 ≠ call.attrtype →
        val (other.2 (call.func mirrored.player)) id = val (other.2 mirrored.player) id := by
      intro other member differs
      rw [val, val, respects other member differs]
    have changed := sum_of_one attrHandle.nodupKeys found others
    rw [val_addDiff, current.totals attrHandle (List.Perm.refl _), val_allAttr, val_allAttr,
      changed]

/-- What the calls that have a handler have made of the player. -/
def playerAfter (attrHandle : AList fun _ : Key => Data → AttrTable Id Value) (player : Data)
    (calls : List (Call Key Data)) : Data :=
  calls.foldl (fun player call =>
    if call.attrtype ∈ attrHandle then call.func player else player) player

theorem player_diffAttr (call : Call Key Data) :
    (diffAttr attrHandle mirrored call).player =
      if call.attrtype ∈ attrHandle then call.func mirrored.player else mirrored.player := by
  unfold Attr.diffAttr
  split
  next missing => rw [if_neg (AList.lookup_eq_none.mp missing)]
  next handle found =>
    rw [if_pos (AList.lookup_isSome.mp (Option.isSome_iff_exists.mpr ⟨handle, found⟩))]

/-- After every sequence of calls, the attributes are what they would be if they were
computed anew for the player that the calls have made, and so is a copy that is kept up to
date by the differences. -/
theorem current_run (attrHandle : AList fun _ : Key => Data → AttrTable Id Value)
    (player : Data) (calls : List (Call Key Data))
    (respects : ∀ call ∈ calls, call.Respects attrHandle) :
    (run attrHandle player calls).player = playerAfter attrHandle player calls ∧
      (run attrHandle player calls).Current attrHandle := by
  induction calls using List.reverseRecOn with
  | nil => exact ⟨rfl, .of_totals (fun _ => rfl) fun _ => rfl⟩
  | append_singleton calls last ih =>
      obtain ⟨same, before⟩ := ih fun call member => respects call (List.mem_append_left _ member)
      rw [playerAfter, List.foldl_concat, ← playerAfter, ← same, ← player_diffAttr, run,
        List.foldl_concat]
      exact ⟨rfl, before.diffAttr (respects last (List.mem_concat_self))⟩

/-- Two handlers, which return one entry each from their half of the data. -/
def twoHandlers : AList fun _ : Nat => Int × Int → AttrTable Nat (BitVec 64) :=
  (AList.singleton 2 fun data => AList.singleton 7 (BitVec.ofInt 64 data.2)).insert 1
    fun data => AList.singleton 7 (BitVec.ofInt 64 data.1)

theorem current_run_two :
    let mirrored := run twoHandlers (1, 2)
      [⟨1, fun data => (data.1 + 4, data.2)⟩, ⟨2, fun data => (data.1, data.2 - 3)⟩]
    mirrored.player = (5, -1) ∧ mirrored.Current twoHandlers := by
  refine current_run twoHandlers (1, 2) _ fun call member => ?_
  intro other (isHandler : other ∈ [⟨1, _⟩, ⟨2, _⟩]) differs player id
  rcases List.mem_cons.mp member with rfl | isLast
  · rcases List.mem_cons.mp isHandler with rfl | isSecond
    · exact absurd rfl differs
    · rw [List.mem_singleton.mp isSecond]
  · obtain rfl := List.mem_singleton.mp isLast
    rcases List.mem_cons.mp isHandler with rfl | isSecond
    · rfl
    · rw [List.mem_singleton.mp isSecond] at differs
      exact absurd rfl differs

end Runs

end Attr

end LuaServer
