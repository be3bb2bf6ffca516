import LuaServer.LevelDbPaging
import Mathlib.Data.List.Induction

/-!
# Traversals of the store

A reader follows the cursors of its pages while others write to the store.
Every traversal is a walk over the snapshots its pages see, so what stays in
the store for all pages is reported once, and a quiet store is reported as a
whole.
-/

namespace LuaServer

namespace LevelDb

open SnapshotPaging

/-- The counts of the pages are positive and below `bound`. -/
def CountsFit (bound : Int) (events : List Event) : Prop :=
  ∀ count, .page count ∈ events → 1 ≤ count.getD 10 ∧ count.getD 10 < bound

/-- The reader's pages are pages over the wanted entries. -/
structure Serves
    (ask : Db → Option ByteString → Option Int → Option ByteString × List ByteString)
    (start : ByteString) (wanted : RawEntry → Bool) (valid : ByteString → Prop)
    (group : ByteString → ByteString) (render : RawEntry → List ByteString) (bound : Int) :
    Prop where
  answers : ∀ db cursor count, 1 ≤ count.getD 10 → count.getD 10 < bound →
    ask db cursor count = pageOf (leaders Prod.fst group ((wantedIn wanted db).filter
      fun entry => cursor.getD start ≤ entry.1)) render (count.getD 10)
  sound : ∀ entry : RawEntry, wanted entry → valid entry.1 ∧ entry.1 ≠ [48]
  convex : Convex valid group

section Runs

variable (ask : Db → Option ByteString → Option Int → Option ByteString × List ByteString)
  (db : Db)

/-- Every page that is asked for sees a store with the property. -/
def AtEveryPage (events : List Event) (seen : Db → Prop) : Prop :=
  ∀ early count late, events = early ++ .page count :: late →
    (Traversal.run ask db early).cursor ≠ some [48] → seen (Traversal.run ask db early).db

/-- The state of a reader is that of a walk. -/
structure Follows (start : ByteString) (render : RawEntry → List ByteString)
    (traversal : Traversal) (walk : Walk RawEntry ByteString) : Prop where
  reported : traversal.reported = walk.reported.flatMap render
  cursor : traversal.cursor = none ∧ walk.next = some start ∨
    traversal.cursor = some (walk.next.getD [48]) ∧ walk.next ≠ some [48]

variable {ask db} {start : ByteString} {wanted : RawEntry → Bool} {valid : ByteString → Prop}
  {group : ByteString → ByteString} {render : RawEntry → List ByteString} {bound : Int}
  {traversal : Traversal} {walk : Walk RawEntry ByteString}

theorem Follows.done_iff (follows : Follows start render traversal walk) :
    traversal.cursor = some [48] ↔ walk.next = none := by
  rcases follows.cursor with ⟨atStart, next⟩ | ⟨cursor, named⟩
  · simp [atStart, next]
  · cases next : walk.next with
    | none => simp [cursor, next]
    | some k =>
        have other : k ≠ [48] := fun same => named (by rw [next, same])
        simp [cursor, next, other]

theorem snapshot_wantedIn (serves : Serves ask start wanted valid group render bound)
    (db : Db) : Snapshot Prod.fst valid (wantedIn wanted db) :=
  ⟨db.sorted.filter _, fun entry member => (serves.sound entry (List.mem_filter.mp member).2).1⟩

theorem Follows.page (follows : Follows start render traversal walk)
    (serves : Serves ask start wanted valid group render bound) {count : Option Int}
    (positive : 1 ≤ count.getD 10) (small : count.getD 10 < bound) :
    Follows start render (traversal.step ask (.page count))
      (walk.page Prod.fst group (wantedIn wanted traversal.db) (count.getD 10).toNat) := by
  cases next : walk.next with
  | none =>
      have done := follows.done_iff.mpr next
      simpa [Traversal.step, done, Walk.page, next] using follows
  | some k =>
      have notDone : traversal.cursor ≠ some [48] := by
        rw [Ne, follows.done_iff, next]
        exact Option.some_ne_none k
      have from_ : traversal.cursor.getD start = k := by
        rcases follows.cursor with ⟨atStart, isStart⟩ | ⟨cursor, -⟩
        · rw [atStart, Option.getD_none]
          exact Option.some.inj (isStart.symm.trans next)
        · rw [cursor, next, Option.getD_some, Option.getD_some]
      simp only [Traversal.step, if_neg notDone, Walk.page, next,
        serves.answers _ _ _ positive small, from_, pageOf]
      refine ⟨by simp [follows.reported], Or.inr ⟨rfl, ?_⟩⟩
      intro named
      obtain ⟨leader, isLeader, zero⟩ := Option.map_eq_some_iff.mp named
      have member := (leaders_sublist _).subset (List.mem_of_getElem? isLeader)
      exact (serves.sound leader (mem_fromKey_filter member)).2 zero

theorem Traversal.run_concat (events : List Event) (event : Event) :
    Traversal.run ask db (events ++ [event]) = (Traversal.run ask db events).step ask event := by
  simp [Traversal.run]

/-- A traversal among writes is an exact walk. -/
theorem exists_walk (serves : Serves ask start wanted valid group render bound)
    (db : Db) {events : List Event} (fit : CountsFit bound events) :
    ∃ walk, Follows start render (Traversal.run ask db events) walk ∧
      walk.Exact Prod.fst group valid start fun k seen =>
        AtEveryPage ask db events fun db =>
          ∃ entry ∈ wantedIn wanted db, entry.1 = k ∧ seen entry := by
  induction events using List.reverseRecOn with
  | nil => exact ⟨.start start, ⟨rfl, Or.inl ⟨rfl, rfl⟩⟩,
      (Walk.exact_start start).imp fun _ _ _ => trivial⟩
  | append_singleton events event ih =>
      obtain ⟨walk, follows, exact⟩ := ih fun count member =>
        fit count (List.mem_append_left _ member)
      have earlier : ∀ seen, AtEveryPage ask db (events ++ [event]) seen →
          AtEveryPage ask db events seen := by
        intro seen all early count late split
        exact all early count (late ++ [event]) (by simp [split])
      rw [Traversal.run_concat]
      cases event with
      | put rawkey val =>
          exact ⟨walk, ⟨follows.reported, follows.cursor⟩, exact.imp fun k seen => earlier _⟩
      | del rawkey =>
          exact ⟨walk, ⟨follows.reported, follows.cursor⟩, exact.imp fun k seen => earlier _⟩
      | page count =>
          obtain ⟨positive, small⟩ := fit count (by simp)
          refine ⟨_, follows.page serves positive small, (exact.page serves.convex
            (snapshot_wantedIn serves (Traversal.run ask db events).db) _).imp ?_⟩
          intro k seen all
          refine ⟨earlier _ all, fun active => all events count [] rfl ?_⟩
          rwa [Ne, follows.done_iff]

/-- A traversal of a quiet store goes through its groups. -/
theorem exists_walk_quiet (serves : Serves ask start wanted valid group render bound)
    (db : Db) {events : List Event} (fit : CountsFit bound events)
    (quiet : ∀ event ∈ events, ∃ count, event = .page count) :
    let all := leaders Prod.fst group ((wantedIn wanted db).filter fun entry => start ≤ entry.1)
    (Traversal.run ask db events).db = db ∧
      ∃ walk, Follows start render (Traversal.run ask db events) walk ∧
        walk.reported ++ walk.rest Prod.fst group (wantedIn wanted db) = all ∧
        (walk.next = none ∨
          events.length + (walk.rest Prod.fst group (wantedIn wanted db)).length ≤ all.length) := by
  induction events using List.reverseRecOn with
  | nil => exact ⟨rfl, .start start, ⟨rfl, Or.inl ⟨rfl, rfl⟩⟩, rfl, Or.inr (by
      simp [Walk.rest, Walk.start])⟩
  | append_singleton events event ih =>
      obtain ⟨sameDb, walk, follows, split, progress⟩ := ih
        (fun count member => fit count (List.mem_append_left _ member))
        fun event member => quiet event (List.mem_append_left _ member)
      obtain ⟨count, rfl⟩ := quiet event (by simp)
      obtain ⟨positive, small⟩ := fit count (by simp)
      have snapshot := snapshot_wantedIn serves db
      have rest : (walk.page Prod.fst group (wantedIn wanted db) (count.getD 10).toNat).rest
          Prod.fst group (wantedIn wanted db) =
            (walk.rest Prod.fst group (wantedIn wanted db)).drop (count.getD 10).toNat :=
        Walk.rest_page serves.convex snapshot _
      have page := follows.page serves positive small
      rw [sameDb] at page
      rw [Traversal.run_concat]
      refine ⟨?_, _, page, ?_, ?_⟩
      · simp only [Traversal.step]
        split <;> exact sameDb
      · rw [rest, Walk.page_eq_rest, List.append_assoc, List.take_append_drop, split]
      · rw [rest, Walk.page_eq_rest, List.length_drop, List.length_append, List.length_singleton]
        rcases progress with done | progress
        · simp [Walk.rest, done]
        · cases left : (walk.rest Prod.fst group (wantedIn wanted db))[(count.getD 10).toNat]? with
          | none => exact Or.inl rfl
          | some leader =>
              have behind := (List.getElem?_eq_some_iff.mp left).1
              exact Or.inr (by omega)

/-- A reader that is done has reported a leader for everything that stays. -/
theorem Follows.exists_leader {from_ : ByteString}
    {kept : ByteString → (RawEntry → Prop) → Prop}
    (follows : Follows start render traversal walk)
    (exact : walk.Exact Prod.fst group valid from_ kept) (done : traversal.cursor = some [48])
    (rawkey : ByteString) (seen : RawEntry → Prop) (isKept : kept rawkey seen)
    (after : from_ ≤ rawkey) :
    ∃ leader ∈ walk.reported, group leader.1 = group rawkey ∧
      (leader.1 = rawkey → seen leader) := by
  rw [follows.done_iff] at done
  rcases exact.complete rawkey seen isKept after with ⟨next, isNext, -⟩ | found
  · exact absurd (isNext.symm.trans done) (Option.some_ne_none next)
  · exact found

/-- A quiet store is reported as a whole, and the reader is done when there were more
pages than groups. -/
theorem reported_of_quiet (serves : Serves ask start wanted valid group render bound)
    (db : Db) {events : List Event} (fit : CountsFit bound events)
    (quiet : ∀ event ∈ events, ∃ count, event = .page count) :
    let all := leaders Prod.fst group ((wantedIn wanted db).filter fun entry => start ≤ entry.1)
    ((Traversal.run ask db events).cursor = some [48] →
      (Traversal.run ask db events).reported = all.flatMap render) ∧
    (all.length < events.length → (Traversal.run ask db events).cursor = some [48]) := by
  obtain ⟨-, walk, follows, split, progress⟩ := exists_walk_quiet serves db fit quiet
  rw [follows.done_iff]
  constructor
  · intro done
    simp only [Walk.rest, done, List.append_nil] at split
    rw [follows.reported, split]
  · intro enough
    exact progress.resolve_right (by omega)

end Runs

section Results

variable (fnmatch : ByteString → ByteString → Int) (patt : Option ByteString)

/-- The texts of a raw key without `SPLIT` are no cursor `"0"`. -/
theorem ne_zero_of_split {rawkey : ByteString} (hasKey : (splitRawkey rawkey).isSome) :
    rawkey ≠ [48] := by
  rintro rfl
  simp [splitRawkey, SPLIT] at hasKey

theorem serves_scan : Serves (M.scan fnmatch patt) [] (wantsKey fnmatch patt)
    (fun rawkey => (splitRawkey rawkey).isSome ∧ rawkey < [SPLIT]) keyOf
    (fun entry => [keyOf entry.1]) (2 ^ 31 - 1) where
  answers := fun db cursor _ positive small => scan_eq_pageOf db cursor positive small
  sound := fun _ wanted => ⟨valid_of_wants wanted, ne_zero_of_split (valid_of_wants wanted).1⟩
  convex := fun _ _ _ first last => convex_keyOf first.1 last.1

theorem serves_hscan (key : ByteString) :
    Serves (M.hscan fnmatch key patt) (key ++ [SPLIT]) (wantsField fnmatch key patt)
      (fun rawkey => (splitRawkey rawkey).isSome ∧ rawkey < key ++ [SPLIT, SPLIT]) id
      (fun entry => [fieldOf entry.1, entry.2]) (2 ^ 30) where
  answers := fun db cursor _ positive small => hscan_eq_pageOf key db cursor positive small
  sound := fun _ wanted => ⟨valid_of_wants wanted, ne_zero_of_split (valid_of_wants wanted).1⟩
  convex := by
    intro first middle last _ _ lower upper same
    exact le_antisymm (upper.trans (le_of_eq same.symm)) lower

/-- The elements of an array two by two. -/
def pairs : List ByteString → List (ByteString × ByteString)
  | field :: val :: arr => (field, val) :: pairs arr
  | _ => []

theorem pairs_flatMap (entries : List RawEntry) :
    pairs (entries.flatMap fun entry => [fieldOf entry.1, entry.2]) =
      entries.map fun entry => (fieldOf entry.1, entry.2) := by
  induction entries with
  | nil => rfl
  | cons entry entries ih => simp [pairs, ih]

theorem append_of_between {key rawkey : ByteString} (lower : key ++ [SPLIT] ≤ rawkey)
    (upper : rawkey < key ++ [SPLIT, SPLIT]) : ∃ rest, rawkey = key ++ SPLIT :: rest := by
  have between : ∃ rest, rawkey = (key ++ [SPLIT]) ++ rest := by
    apply ByteString.exists_append_of_between
    · simpa using lower
    · simpa using upper.le
  simpa using between

theorem eq_of_fieldOf_eq {key first second : ByteString}
    (firstIn : key ++ [SPLIT] ≤ first ∧ first < key ++ [SPLIT, SPLIT])
    (secondIn : key ++ [SPLIT] ≤ second ∧ second < key ++ [SPLIT, SPLIT])
    (firstSplit : (splitRawkey first).isSome) (secondSplit : (splitRawkey second).isSome)
    (same : fieldOf first = fieldOf second) : first = second := by
  obtain ⟨⟨front, field⟩, split⟩ := Option.isSome_iff_exists.mp firstSplit
  obtain ⟨⟨other, otherField⟩, splitOther⟩ := Option.isSome_iff_exists.mp secondSplit
  obtain ⟨rest, wholeFirst⟩ := append_of_between firstIn.1 firstIn.2
  obtain ⟨otherRest, wholeSecond⟩ := append_of_between secondIn.1 secondIn.2
  have sameKey : keyOf first = keyOf second := by
    simp [wholeFirst, wholeSecond, keyOf, List.takeWhile_append]
  rw [keyOf_of_split split, keyOf_of_split splitOther] at sameKey
  have sameField : field = otherField := by
    simpa [fieldOf, split, splitOther] using same
  rw [(splitRawkey_eq_some.mp split).1, (splitRawkey_eq_some.mp splitOther).1, sameKey, sameField]

/-- Raw keys of one key that differ name different fields. -/
theorem nodup_fieldOf {key : ByteString} {reported : List RawEntry}
    (nodup : (reported.map fun entry => entry.1).Nodup)
    (inside : ∀ entry ∈ reported, key ++ [SPLIT] ≤ entry.1 ∧ entry.1 < key ++ [SPLIT, SPLIT])
    (splits : ∀ entry ∈ reported, (splitRawkey entry.1).isSome) :
    (reported.map fun entry => fieldOf entry.1).Nodup := by
  rw [List.Nodup, List.pairwise_map] at nodup ⊢
  apply nodup.imp_of_mem
  intro first second firstIn secondIn apart same
  exact apart (eq_of_fieldOf_eq (inside first firstIn) (inside second secondIn)
    (splits first firstIn) (splits second secondIn) same)

/-- The matching fields of a key with their values, in the order of the raw keys. -/
def fieldsIn (key : ByteString) (db : Db) : List (ByteString × ByteString) :=
  (db.elements.filter fun entry =>
    key ++ [SPLIT] ≤ entry.1 && wantsField fnmatch key patt entry).map
    fun entry => (fieldOf entry.1, entry.2)

/-- The matching keys below `SPLIT`, in the order of the raw keys. -/
def keysIn (db : Db) : List ByteString :=
  ((db.elements.filter (wantsKey fnmatch patt)).map fun entry => keyOf entry.1).destutter (· ≠ ·)

/-- What paging through the fields of a key promises. -/
structure HscanExact (key : ByteString) (db : Db) (events : List Event) : Prop where
  whole : (Traversal.run (M.hscan fnmatch key patt) db events).reported =
    (pairs (Traversal.run (M.hscan fnmatch key patt) db events).reported).flatMap
      fun (field, val) => [field, val]
  distinct : ((pairs (Traversal.run (M.hscan fnmatch key patt) db events).reported).map
    Prod.fst).Nodup
  once : (Traversal.run (M.hscan fnmatch key patt) db events).cursor = some [48] →
    ∀ rawkey val front field, splitRawkey rawkey = some (front, field) →
      key ++ [SPLIT] ≤ rawkey → rawkey < key ++ [SPLIT, SPLIT] →
        matched fnmatch (patt.getD [42]) field →
          AtEveryPage (M.hscan fnmatch key patt) db events (fun db => (rawkey, val) ∈ db) →
            (pairs (Traversal.run (M.hscan fnmatch key patt) db events).reported).count
              (field, val) = 1
  quiet : (∀ event ∈ events, ∃ count, event = .page count) →
    ((Traversal.run (M.hscan fnmatch key patt) db events).cursor = some [48] →
      pairs (Traversal.run (M.hscan fnmatch key patt) db events).reported =
        fieldsIn fnmatch patt key db) ∧
    ((fieldsIn fnmatch patt key db).length < events.length →
      (Traversal.run (M.hscan fnmatch key patt) db events).cursor = some [48])

/-- What paging through the keys promises.  The empty key is never reported. -/
structure ScanExact (db : Db) (events : List Event) : Prop where
  distinct : (Traversal.run (M.scan fnmatch patt) db events).reported.Nodup
  once : (Traversal.run (M.scan fnmatch patt) db events).cursor = some [48] →
    ∀ key field, SPLIT ∉ key → matched fnmatch (patt.getD [42]) key →
      AtEveryPage (M.scan fnmatch patt) db events
        (fun db => ∃ val, (key ++ SPLIT :: field, val) ∈ db) →
      ((Traversal.run (M.scan fnmatch patt) db events).reported.count key = 1 ↔ key ≠ [])
  quiet : (∀ event ∈ events, ∃ count, event = .page count) →
    ((Traversal.run (M.scan fnmatch patt) db events).cursor = some [48] →
      (Traversal.run (M.scan fnmatch patt) db events).reported = keysIn fnmatch patt db) ∧
    ((keysIn fnmatch patt db).length < events.length →
      (Traversal.run (M.scan fnmatch patt) db events).cursor = some [48])

variable {fnmatch patt} {key : ByteString} {db : Db} {events : List Event}

theorem hscan_exact (fit : CountsFit (2 ^ 30) events) :
    HscanExact fnmatch patt key db events := by
  have serves := serves_hscan fnmatch patt key
  obtain ⟨walk, follows, exact⟩ := exists_walk serves db fit
  have isPairs := pairs_flatMap walk.reported
  rw [← follows.reported] at isPairs
  have distinct : ((pairs (Traversal.run (M.hscan fnmatch key patt) db events).reported).map
      Prod.fst).Nodup := by
    rw [isPairs, List.map_map]
    exact nodup_fieldOf exact.nodup
      (fun entry reported => ⟨exact.inside.2 entry reported, (exact.valid entry reported).2⟩)
      fun entry reported => (exact.valid entry reported).1
  refine ⟨?_, distinct, ?_, ?_⟩
  · rw [isPairs, follows.reported, List.flatMap_map]
  · intro done rawkey val front field split lower upper fits present
    have wanted : wantsField fnmatch key patt (rawkey, val) :=
      wants_iff.mpr ⟨upper, front, field, split, fits⟩
    obtain ⟨leader, reported, same, isEntry⟩ :=
      follows.exists_leader exact done rawkey (· = (rawkey, val)) (by
        intro early count late isSplit active
        have member := present early count late isSplit active
        exact ⟨(rawkey, val), List.mem_filter.mpr ⟨member, wanted⟩, rfl, rfl⟩) lower
    obtain rfl := isEntry same
    apply List.count_eq_one_of_mem (List.Nodup.of_map Prod.fst distinct)
    rw [isPairs]
    exact List.mem_map.mpr ⟨(rawkey, val), reported, by simp [fieldOf, split]⟩
  · intro pages
    have quiet := reported_of_quiet serves db fit pages
    have all : leaders Prod.fst id ((wantedIn (wantsField fnmatch key patt) db).filter
        fun entry => key ++ [SPLIT] ≤ entry.1) = db.elements.filter fun entry =>
          key ++ [SPLIT] ≤ entry.1 && wantsField fnmatch key patt entry :=
      (leaders_id ((snapshot_wantedIn serves db).filter _)).trans (List.filter_filter ..)
    rw [all] at quiet
    have size : (fieldsIn fnmatch patt key db).length = (db.elements.filter fun entry =>
        key ++ [SPLIT] ≤ entry.1 && wantsField fnmatch key patt entry).length :=
      List.length_map ..
    refine ⟨fun done => ?_, fun enough => quiet.2 (size ▸ enough)⟩
    rw [quiet.1 done, pairs_flatMap, fieldsIn]

theorem scan_exact (fit : CountsFit (2 ^ 31 - 1) events) :
    ScanExact fnmatch patt db events := by
  have serves := serves_scan fnmatch patt
  obtain ⟨walk, follows, exact⟩ := exists_walk serves db fit
  have isKeys : (Traversal.run (M.scan fnmatch patt) db events).reported =
      walk.reported.map fun entry => keyOf entry.1 := by
    rw [follows.reported, List.map_eq_flatMap]
  have distinct := exact.nodup
  rw [← isKeys] at distinct
  refine ⟨distinct, ?_, ?_⟩
  · intro done key field noSplit fits present
    have split : splitRawkey (key ++ SPLIT :: field) = some (key, field) :=
      splitRawkey_append noSplit
    constructor
    · rintro once rfl
      have member : [] ∈ (Traversal.run (M.scan fnmatch patt) db events).reported :=
        List.count_pos_iff.mp (by omega)
      rw [isKeys] at member
      obtain ⟨entry, reported, isEmpty⟩ := List.mem_map.mp member
      obtain ⟨hasKey, below⟩ := exact.valid entry reported
      exact keyOf_ne_nil hasKey below isEmpty
    · intro notEmpty
      have below : key ++ SPLIT :: field < [SPLIT] := by
        cases key with
        | nil => exact absurd rfl notEmpty
        | cons byte key =>
            have other : byte ≠ SPLIT := fun same => noSplit (by simp [same])
            exact List.cons_lt_cons_iff.mpr (Or.inl (lt_of_le_of_ne (Fin.le_last byte) other))
      obtain ⟨leader, reported, same, -⟩ :=
        follows.exists_leader exact done (key ++ SPLIT :: field) (fun _ => True) (by
            intro early count late isSplit active
            obtain ⟨val, member⟩ := present early count late isSplit active
            exact ⟨_, List.mem_filter.mpr
              ⟨member, wants_iff.mpr ⟨below, key, field, split, fits⟩⟩, rfl, trivial⟩)
          (ByteString.nil_le _)
      apply List.count_eq_one_of_mem distinct
      rw [isKeys]
      exact List.mem_map.mpr ⟨leader, reported, same.trans (keyOf_of_split split)⟩
  · intro pages
    have quiet := reported_of_quiet serves db fit pages
    have all : (wantedIn (wantsKey fnmatch patt) db).filter (fun entry => [] ≤ entry.1) =
        db.elements.filter (wantsKey fnmatch patt) := by
      rw [List.filter_eq_self.mpr (fun entry _ => by simp [ByteString.nil_le]), wantedIn]
    rw [all] at quiet
    have isList : (leaders Prod.fst keyOf (db.elements.filter (wantsKey fnmatch patt))).map
        (fun entry => keyOf entry.1) = keysIn fnmatch patt db :=
      List.map_destutter fun _ _ _ _ => Iff.rfl
    have size := congrArg List.length isList
    rw [List.length_map] at size
    refine ⟨fun done => ?_, fun enough => quiet.2 (size ▸ enough)⟩
    rw [quiet.1 done, ← List.map_eq_flatMap, isList]

end Results

/-- Paging through the fields of a key loses and repeats nothing for counts below
2^30, and paging through the keys for counts below 2^31 - 1, the empty key apart. -/
theorem paging_exact (fnmatch : ByteString → ByteString → Int) (patt : Option ByteString)
    (db : Db) (events : List Event) :
    (∀ key, CountsFit (2 ^ 30) events → HscanExact fnmatch patt key db events) ∧
      (CountsFit (2 ^ 31 - 1) events → ScanExact fnmatch patt db events) :=
  ⟨fun _ fit => hscan_exact fit, fun fit => scan_exact fit⟩

/-- Three fields of two keys, one of which is deleted before its page. -/
theorem paging_exact_deleted :
    let db : Db := (((KeySorted.empty _).put ([97, 255, 1], [1])).put ([97, 255, 2], [2])).put
      ([98, 255, 1], [3])
    let events : List Event := [.page (some 1), .del [97, 255, 2], .page (some 1)]
    HscanExact (fun _ _ => 0) none [97] db events ∧ ScanExact (fun _ _ => 0) none db events := by
  have fit : ∀ bound, 2 ≤ bound →
      CountsFit bound [.page (some 1), .del [97, 255, 2], .page (some 1)] := by
    intro bound large count member
    simp only [List.mem_cons, Event.page.injEq, reduceCtorEq, List.not_mem_nil, or_false,
      false_or, or_self] at member
    subst member
    exact ⟨le_rfl, large⟩
  exact ⟨(paging_exact _ _ _ _).1 [97] (fit _ (by norm_num)),
    (paging_exact _ _ _ _).2 (fit _ (by norm_num))⟩

/-- A field of the empty key stays in the store, and its key is not reported. -/
theorem not_reported_empty_key :
    let db : Db := (KeySorted.empty _).put ([255, 102], [118])
    let traversal := Traversal.run (M.scan (fun _ _ => 0) none) db [.page none]
    traversal.cursor = some [48] ∧
      AtEveryPage (M.scan (fun _ _ => 0) none) db [.page none]
        (fun db => ∃ val, ([] ++ SPLIT :: [102], val) ∈ db) ∧
      matched (fun _ _ => 0) [42] [] ∧ traversal.reported.count [] ≠ 1 := by
  refine ⟨by decide, ?_, by decide, by decide⟩
  rintro early count late split -
  obtain rfl : early = [] := by
    have lengths := congrArg List.length split
    simp only [List.length_append, List.length_cons, List.length_nil] at lengths
    exact List.length_eq_zero_iff.mp (by omega)
  exact ⟨[118], List.mem_singleton_self ([255, 102], [118])⟩

end LevelDb

end LuaServer
