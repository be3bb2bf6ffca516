import LuaServer.LevelDbScan
import LuaServer.SnapshotPaging
import Mathlib.Data.List.TakeWhile

/-!
# Cursor paging is exact under concurrent writes

A page of a scan is a page over a snapshot of the store: for fields every raw
key is a group of its own, for keys the raw keys with the same text before the
first `SPLIT` are one.  So writes between the pages lose nothing that stays in
the store and repeat nothing.  A scan for keys ends before `SPLIT` and never
reaches the empty key.
-/

namespace LuaServer

namespace LevelDb

open MachineIntegers SnapshotPaging

section RawKeys

variable {rawkey key field : ByteString}

theorem splitRawkey_append (noSplit : SPLIT ∉ key) :
    splitRawkey (key ++ SPLIT :: field) = some (key, field) := by
  have noStop : ∀ byte ∈ key, byte ≠ SPLIT := by
    rintro byte member rfl
    exact noSplit member
  rw [splitRawkey, List.dropWhile_append_of_pos (by simpa using noStop),
    List.takeWhile_append_of_pos (by simpa using noStop)]
  simp

theorem splitRawkey_eq_some : splitRawkey rawkey = some (key, field) ↔
    rawkey = key ++ SPLIT :: field ∧ SPLIT ∉ key := by
  constructor
  · intro split
    have whole := List.takeWhile_append_dropWhile (p := fun byte => byte ≠ SPLIT) (l := rawkey)
    have stops := List.head?_dropWhile_not (fun byte => byte ≠ SPLIT) rawkey
    have before : SPLIT ∉ rawkey.takeWhile fun byte => byte ≠ SPLIT := by
      intro member
      simpa using List.mem_takeWhile_imp member
    rw [splitRawkey] at split
    split at split
    · simp at split
    next head rest behind =>
      obtain ⟨rfl, rfl⟩ := Prod.mk.inj (Option.some.inj split)
      rw [behind] at whole stops
      obtain rfl : head = SPLIT := by simpa using stops
      exact ⟨whole.symm, before⟩
  · rintro ⟨rfl, noSplit⟩
    exact splitRawkey_append noSplit

/-- The text of a raw key before the first `SPLIT`. -/
def keyOf (rawkey : ByteString) : ByteString :=
  rawkey.takeWhile (· ≠ SPLIT)

theorem keyOf_of_split (split : splitRawkey rawkey = some (key, field)) :
    keyOf rawkey = key := by
  rw [splitRawkey] at split
  split at split
  · simp at split
  · exact congrArg Prod.fst (Option.some.inj split)

/-- The raw keys of a key have no other raw key between them. -/
theorem convex_keyOf : Convex (fun rawkey => (splitRawkey rawkey).isSome) keyOf := by
  intro first middle last firstSplit lastSplit lower upper same
  obtain ⟨⟨key, field⟩, split⟩ := Option.isSome_iff_exists.mp firstSplit
  obtain ⟨⟨lastKey, lastField⟩, splitLast⟩ := Option.isSome_iff_exists.mp lastSplit
  rw [keyOf_of_split split, keyOf_of_split splitLast] at same
  subst lastKey
  obtain ⟨rfl, noSplit⟩ := splitRawkey_eq_some.mp split
  obtain ⟨rfl, -⟩ := splitRawkey_eq_some.mp splitLast
  have between : ∃ rest, middle = (key ++ [SPLIT]) ++ rest := by
    apply ByteString.exists_append_of_between <;> simpa
  obtain ⟨rest, rfl⟩ := between
  have splitMiddle : splitRawkey ((key ++ [SPLIT]) ++ rest) = some (key, rest) := by
    simpa using splitRawkey_append noSplit
  rw [keyOf_of_split split, keyOf_of_split splitMiddle]

/-- The text of a raw key behind the first `SPLIT`. -/
def fieldOf (rawkey : ByteString) : ByteString :=
  ((splitRawkey rawkey).map Prod.snd).getD []

end RawKeys

section Iterations

variable {State : Type*} {end_ : ByteString} {fits : ByteString → ByteString → Bool}

/-- An entry before `end_` whose key and field fit. -/
def wants (end_ : ByteString) (fits : ByteString → ByteString → Bool) (entry : RawEntry) :
    Bool :=
  entry.1 < end_ && (splitRawkey entry.1).any fun (key, field) => fits key field

theorem wants_iff {entry : RawEntry} : wants end_ fits entry ↔ entry.1 < end_ ∧
    ∃ key field, splitRawkey entry.1 = some (key, field) ∧ fits key field := by
  simp [wants, Option.any_eq_true]

/-- The loop of `db_iter` sees the wanted entries when the callback passes over
the others. -/
theorem iterate_eq_filter {cb : State → ByteString → ByteString → ByteString → State × Bool}
    (passes : ∀ state key field val, fits key field = false →
      cb state key field val = (state, true))
    {entries : List RawEntry}
    (sorted : entries.Pairwise fun first second => first.1 < second.1) (state : State) :
    iterate end_ cb entries state = iterate end_ cb (entries.filter (wants end_ fits)) state := by
  induction entries generalizing state with
  | nil => rfl
  | cons entry entries ih =>
      obtain ⟨rawkey, val⟩ := entry
      obtain ⟨before, sorted⟩ := List.pairwise_cons.mp sorted
      by_cases inside : rawkey < end_
      · cases split : splitRawkey rawkey with
        | none =>
            rw [List.filter_cons_of_neg (by simp [wants, split]), iterate, if_pos inside, split]
            exact ih sorted state
        | some parts =>
            obtain ⟨key, field⟩ := parts
            by_cases fit : fits key field
            · rw [List.filter_cons_of_pos (by simp [wants, split, inside, fit]), iterate, iterate,
                if_pos inside, if_pos inside, split]
              simp only
              split
              · exact ih sorted _
              · rfl
            · have passed := passes state key field val (by simpa using fit)
              rw [List.filter_cons_of_neg (by simp [wants, split, fit]), iterate, if_pos inside,
                split]
              simp only [passed]
              exact ih sorted state
      · have outside : ((rawkey, val) :: entries).filter (wants end_ fits) = [] := by
          rw [List.filter_eq_nil_iff]
          intro entry member
          rw [wants_iff]
          rintro ⟨less, -⟩
          rcases List.mem_cons.mp member with rfl | later
          · exact inside less
          · exact inside ((before entry later).trans less)
        rw [outside]
        simp only [iterate, if_neg inside]

variable (fnmatch : ByteString → ByteString → Int)

/-- The pattern matches the name. -/
def matched (patt name : ByteString) : Bool :=
  fnmatch (cString patt) (cString name) = 0

/-- A scan for keys takes the keys of new groups up to its limit. -/
theorem iterate_keyCallback {patt : ByteString} {entries : List RawEntry}
    (all : ∀ entry ∈ entries, wants end_ (fun key _ => matched fnmatch patt key) entry)
    {arr : List ByteString} {last : ByteString} {count room : Nat}
    (size : arr.length + room = count) :
    let found := newGroups Prod.fst keyOf last entries
    (iterate end_ (keyCallback fnmatch patt count) entries (arr, last)).1 =
      arr ++ ((found.take room).map fun entry => keyOf entry.1) ++
        found[room]?.toList.map Prod.fst := by
  induction entries generalizing arr last room with
  | nil => simp [iterate, newGroups]
  | cons entry entries ih =>
      obtain ⟨rawkey, val⟩ := entry
      obtain ⟨inside, key, field, split, fit⟩ := wants_iff.mp (all _ List.mem_cons_self)
      have later := fun entry member => all entry (List.mem_cons_of_mem _ member)
      have isKey := keyOf_of_split split
      obtain ⟨whole, -⟩ := splitRawkey_eq_some.mp split
      simp only [matched, decide_eq_true_eq] at fit
      simp only at inside split isKey whole
      simp only [iterate, if_pos inside, split, keyCallback, fit, ne_eq, not_true_eq_false,
        if_false, newGroups, isKey]
      by_cases same : last = key
      · simp only [if_pos same]
        exact ih later size
      · simp only [if_neg same]
        cases room with
        | zero =>
            have full : ¬ (arr.length : Int) < count := by omega
            simp [full, whole]
        | succ room =>
            have fits : (arr.length : Int) < count := by omega
            have less : (arr ++ [key]).length + room = count := by
              rw [List.length_append, List.length_singleton]
              omega
            simp only [if_pos fits]
            rw [ih later less]
            simp [isKey]

/-- A scan for fields takes every entry up to its limit. -/
theorem iterate_fieldCallback {patt : ByteString} {entries : List RawEntry}
    (all : ∀ entry ∈ entries, wants end_ (fun _ field => matched fnmatch patt field) entry)
    {arr : List ByteString} {count room : Nat} (small : 2 * count < 2 ^ 31)
    (size : arr.length + 2 * room = 2 * count) :
    iterate end_ (fieldCallback fnmatch patt count) entries arr =
      arr ++ ((entries.take room).flatMap fun entry => [fieldOf entry.1, entry.2]) ++
        entries[room]?.toList.map Prod.fst := by
  have exact : toInt32 (2 * count) = 2 * count := toInt32_of_range (by omega) (by omega)
  induction entries generalizing arr room with
  | nil => simp [iterate]
  | cons entry entries ih =>
      obtain ⟨rawkey, val⟩ := entry
      obtain ⟨inside, key, field, split, fit⟩ := wants_iff.mp (all _ List.mem_cons_self)
      have later := fun entry member => all entry (List.mem_cons_of_mem _ member)
      have isField : fieldOf rawkey = field := by simp [fieldOf, split]
      obtain ⟨whole, -⟩ := splitRawkey_eq_some.mp split
      simp only [matched, decide_eq_true_eq] at fit
      simp only at inside split whole
      simp only [iterate, if_pos inside, split, fieldCallback, fit, ne_eq, not_true_eq_false,
        if_false, exact]
      cases room with
      | zero =>
          have full : ¬ (arr.length : Int) < 2 * count := by omega
          simp [full, whole]
      | succ room =>
          have fits : (arr.length : Int) < 2 * count := by omega
          have less : (arr ++ [field, val]).length + 2 * room = 2 * count := by
            simp only [List.length_append, List.length_cons, List.length_nil]
            omega
          simp only [if_pos fits]
          rw [ih later less]
          simp [isField]

end Iterations

section Pages

/-- The entries of a store that a scan wants. -/
def wantedIn (wanted : RawEntry → Bool) (db : Db) : List RawEntry :=
  db.elements.filter wanted

/-- What a page of at most `count` groups gives: the next cursor and the elements. -/
def pageOf (found : List RawEntry) (render : RawEntry → List ByteString) (count : Int) :
    Option ByteString × List ByteString :=
  (some ((found[count.toNat]?.map Prod.fst).getD [48]), (found.take count.toNat).flatMap render)

theorem length_flatMap_of_const {render : RawEntry → List ByteString} {size : Nat}
    {entries : List RawEntry} (sizes : ∀ entry ∈ entries, (render entry).length = size) :
    (entries.flatMap render).length = entries.length * size := by
  rw [List.length_flatMap, List.map_congr_left sizes, List.map_const', List.sum_replicate_nat]

/-- The last element of a full array is the next cursor. -/
theorem pop_eq_pageOf {found : List RawEntry} {render : RawEntry → List ByteString}
    {arr : List ByteString} {count size : Nat} {limit : Int}
    (sizes : ∀ entry ∈ found, (render entry).length = size)
    (isLimit : limit = ((count * size : Nat) : Int))
    (isArr : arr = (found.take count).flatMap render ++ found[count]?.toList.map Prod.fst) :
    (if (arr.length : Int) > limit then (arr.getLast?, arr.dropLast) else (some [48], arr)) =
      pageOf found render count := by
  have length := length_flatMap_of_const fun entry member =>
    sizes entry (List.mem_of_mem_take (i := count) member)
  subst isArr isLimit
  cases next : found[count]? with
  | none =>
      have short : found.length ≤ count := List.getElem?_eq_none_iff.mp next
      have fits : (found.take count).length * size ≤ count * size :=
        Nat.mul_le_mul_right size (List.length_take_le count found)
      have notFull : ¬ (((found.take count).flatMap render).length : Int) >
          ((count * size : Nat) : Int) := by omega
      simp only [Option.toList_none, List.map_nil, List.append_nil, if_neg notFull, pageOf,
        Int.toNat_natCast, next, Option.map_none, Option.getD_none]
  | some entry =>
      have long : count < found.length := (List.getElem?_eq_some_iff.mp next).1
      rw [List.length_take, Nat.min_eq_left long.le] at length
      have full : (((found.take count).flatMap render ++ [entry.1]).length : Int) >
          ((count * size : Nat) : Int) := by
        rw [List.length_append, List.length_singleton]
        omega
      simp only [Option.toList_some, List.map_cons, List.map_nil, if_pos full, pageOf,
        Int.toNat_natCast, next, Option.map_some, Option.getD_some, List.getLast?_concat,
        List.dropLast_concat]

theorem fromKey_filter (db : Db) (wanted : RawEntry → Bool) (start : ByteString) :
    (db.fromKey start).filter wanted =
      (wantedIn wanted db).filter fun entry => start ≤ entry.1 := by
  simp only [KeySorted.fromKey, wantedIn, List.filter_filter, Bool.and_comm]

variable (fnmatch : ByteString → ByteString → Int)

/-- The wanted entries of a scan for keys and of one for fields. -/
def wantsKey (patt : Option ByteString) : RawEntry → Bool :=
  wants [SPLIT] fun key _ => matched fnmatch (patt.getD [42]) key

def wantsField (key : ByteString) (patt : Option ByteString) : RawEntry → Bool :=
  wants (key ++ [SPLIT, SPLIT]) fun _ field => matched fnmatch (patt.getD [42]) field

variable {fnmatch} {patt : Option ByteString}

theorem keyOf_ne_nil {rawkey : ByteString} (hasKey : (splitRawkey rawkey).isSome)
    (below : rawkey < [SPLIT]) : keyOf rawkey ≠ [] := by
  obtain ⟨⟨key, field⟩, split⟩ := Option.isSome_iff_exists.mp hasKey
  rw [keyOf_of_split split]
  rintro rfl
  obtain ⟨whole, -⟩ := splitRawkey_eq_some.mp split
  rw [whole, List.nil_append, List.cons_lt_cons_iff] at below
  rcases below with less | ⟨-, less⟩
  · exact lt_irrefl _ less
  · exact List.not_lt_nil _ less

theorem valid_of_wants {end_ : ByteString} {fits : ByteString → ByteString → Bool}
    {entry : RawEntry} (wanted : wants end_ fits entry) :
    (splitRawkey entry.1).isSome ∧ entry.1 < end_ := by
  obtain ⟨below, key, field, split, -⟩ := wants_iff.mp wanted
  exact ⟨by simp [split], below⟩

theorem mem_fromKey_filter {db : Db} {wanted : RawEntry → Bool} {start : ByteString}
    {entry : RawEntry} (member : entry ∈ (wantedIn wanted db).filter fun entry => start ≤ entry.1) :
    wanted entry :=
  (List.mem_filter.mp (List.mem_filter.mp member).1).2

theorem scan_keys (db : Db) (start : ByteString) {number : Nat} (small : number < 2 ^ 31) :
    let found := leaders Prod.fst keyOf
      ((wantedIn (wantsKey fnmatch patt) db).filter fun entry => start ≤ entry.1)
    LevelDb.scan fnmatch db start [SPLIT] (patt.getD [42]) number true =
      (found.take number).flatMap (fun entry => [keyOf entry.1]) ++
        found[number]?.toList.map Prod.fst := by
  have exact : toInt32 number = number := toInt32_of_range (by omega) (by omega)
  have passes : ∀ state key field val, matched fnmatch (patt.getD [42]) key = false →
      keyCallback fnmatch (patt.getD [42]) number state key field val = (state, true) := by
    intro state key field val other
    simp [keyCallback, matched] at other ⊢
    simp [other]
  have filtered : iterate [SPLIT] (keyCallback fnmatch (patt.getD [42]) number)
      (db.fromKey start) ([], []) = iterate [SPLIT] (keyCallback fnmatch (patt.getD [42]) number)
        ((db.fromKey start).filter (wantsKey fnmatch patt)) ([], []) :=
    iterate_eq_filter passes (db.sorted.filter fun entry => start ≤ entry.1) ([], [])
  simp only [LevelDb.scan, if_true, exact, dbIter]
  rw [filtered, fromKey_filter, iterate_keyCallback fnmatch _ (Nat.zero_add number),
    newGroups_eq_leaders]
  · rw [List.nil_append, List.map_eq_flatMap]
  · intro entry member
    obtain ⟨hasKey, below⟩ := valid_of_wants (mem_fromKey_filter member)
    exact keyOf_ne_nil hasKey below
  · exact fun entry member => mem_fromKey_filter member

theorem scan_fields (key : ByteString) (db : Db) (start : ByteString) {number : Nat}
    (small : 2 * number < 2 ^ 31) :
    let found := (wantedIn (wantsField fnmatch key patt) db).filter fun entry => start ≤ entry.1
    LevelDb.scan fnmatch db start (key ++ [SPLIT, SPLIT]) (patt.getD [42]) number false =
      (found.take number).flatMap (fun entry => [fieldOf entry.1, entry.2]) ++
        found[number]?.toList.map Prod.fst := by
  have exact : toInt32 number = number := toInt32_of_range (by omega) (by omega)
  have passes : ∀ state key field val, matched fnmatch (patt.getD [42]) field = false →
      fieldCallback fnmatch (patt.getD [42]) number state key field val = (state, true) := by
    intro state key field val other
    simp [fieldCallback, matched] at other ⊢
    simp [other]
  have filtered : iterate (key ++ [SPLIT, SPLIT])
      (fieldCallback fnmatch (patt.getD [42]) number) (db.fromKey start) [] =
        iterate (key ++ [SPLIT, SPLIT]) (fieldCallback fnmatch (patt.getD [42]) number)
          ((db.fromKey start).filter (wantsField fnmatch key patt)) [] :=
    iterate_eq_filter passes (db.sorted.filter fun entry => start ≤ entry.1) []
  simp only [LevelDb.scan, Bool.false_eq_true, if_false, exact, dbIter]
  rw [filtered, fromKey_filter, iterate_fieldCallback fnmatch _ small (Nat.zero_add _),
    List.nil_append]
  exact fun entry member => mem_fromKey_filter member

theorem scan_eq_pageOf (db : Db) (cursor : Option ByteString) {count : Option Int}
    (positive : 1 ≤ count.getD 10) (small : count.getD 10 < 2 ^ 31 - 1) :
    M.scan fnmatch patt db cursor count =
      pageOf (leaders Prod.fst keyOf ((wantedIn (wantsKey fnmatch patt) db).filter
        fun entry => cursor.getD [] ≤ entry.1)) (fun entry => [keyOf entry.1])
        (count.getD 10) := by
  obtain ⟨number, isNumber⟩ := Int.eq_ofNat_of_zero_le (zero_le_one.trans positive)
  simp only [M.scan, isNumber]
  refine pop_eq_pageOf (fun _ _ => rfl) ?_ (scan_keys db _ (by omega))
  rw [Nat.mul_one]

theorem hscan_eq_pageOf (key : ByteString) (db : Db) (cursor : Option ByteString)
    {count : Option Int} (positive : 1 ≤ count.getD 10) (small : count.getD 10 < 2 ^ 30) :
    M.hscan fnmatch key patt db cursor count =
      pageOf (leaders Prod.fst id ((wantedIn (wantsField fnmatch key patt) db).filter
        fun entry => cursor.getD (key ++ [SPLIT]) ≤ entry.1))
        (fun entry => [fieldOf entry.1, entry.2]) (count.getD 10) := by
  obtain ⟨number, isNumber⟩ := Int.eq_ofNat_of_zero_le (zero_le_one.trans positive)
  have twice : toInt64 (2 * number) = 2 * number := by
    apply Int.bmod_eq_of_le <;> norm_num <;> omega
  have snapshot : Snapshot Prod.fst (fun _ => True)
      ((wantedIn (wantsField fnmatch key patt) db).filter
        fun entry => cursor.getD (key ++ [SPLIT]) ≤ entry.1) :=
    ⟨(db.sorted.filter _).filter _, fun _ _ => trivial⟩
  have small' : 2 * number < 2 ^ 31 := by omega
  rw [leaders_id snapshot]
  simp only [M.hscan, isNumber, twice]
  have sizes : ∀ entry : RawEntry, [fieldOf entry.1, entry.2].length = 2 := fun _ => rfl
  refine pop_eq_pageOf (fun entry _ => sizes entry) ?_ (scan_fields key db _ small')
  push_cast
  ring

end Pages

end LevelDb

end LuaServer
