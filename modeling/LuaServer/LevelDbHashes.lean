import LuaServer.FueledLoops
import LuaServer.LevelDbTraversals
import LuaServer.RunConditions

/-!
# Hashes in the store

A hash is a key with fields, each of which has a value.  They are put into the
store under raw keys, and read back one by one or page by page.  The store is a
map of maps as long as no key contains the separator and no field starts with
it: then a raw key belongs to one key and one field, and the fields of a key are
the raw keys between its bounds.
-/

namespace LuaServer

namespace LevelDb

open FueledLoops RunConditions SnapshotPaging

/-- The elements at the odd positions of an array. -/
def everySecond : List ByteString → List ByteString
  | [] => []
  | [element] => [element]
  | element :: _ :: arr => element :: everySecond arr

theorem everySecond_flatMap (entries : List RawEntry) :
    everySecond (entries.flatMap fun entry => [fieldOf entry.1, entry.2]) =
      entries.map fun entry => fieldOf entry.1 := by
  induction entries with
  | nil => rfl
  | cons entry entries ih => simp [everySecond, ih]

namespace M

/-- `M.hset`. -/
def hset (db : Db) (key field val : ByteString) : Db :=
  let rawkey := key ++ SPLIT :: field
  db.put (rawkey, val)

/-- `M.hdel`. -/
def hdel (db : Db) (key : ByteString) (arr : List ByteString) : Db :=
  arr.foldl (fun db field =>
    let rawkey := key ++ SPLIT :: field
    db.drop rawkey) db

/-- `M.hget`. -/
def hget (db : Db) (key field : ByteString) : Option ByteString :=
  let rawkey := key ++ SPLIT :: field
  (db.find rawkey).map Prod.snd

/-- `M.hmset`, unless it raises its error. -/
def hmset (db : Db) (key : ByteString) (arr : List ByteString) : Option Db :=
  if arr.length % 2 ≠ 0 then none
  else some ((pairs arr).foldl (fun db (field, val) => hset db key field val) db)

/-- `M.hmget`. -/
def hmget (db : Db) (key : ByteString) (arr : List ByteString) : List (Option ByteString) :=
  arr.map (hget db key)

section Loops

variable (fnmatch : ByteString → ByteString → Int)

/-- The loop of `htraversal`.  The callback works on a state with the store. -/
def htraversalBody {State : Type} (key : ByteString) (patt : Option ByteString)
    (count : Option Int) (db : State → Db) (cb : State → List ByteString → State) :
    Option ByteString × State → (Option ByteString × State) ⊕ State
  | (cursor, state) =>
      if cursor = some [48] then .inr state
      else
        let (cursor, arr) := hscan fnmatch key patt (db state) cursor count
        .inl (cursor, cb state arr)

/-- `htraversal`, for callbacks that go on. -/
def htraversal {State : Type} (key : ByteString) (patt : Option ByteString)
    (count : Option Int) (db : State → Db) (cb : State → List ByteString → State)
    (state result : State) : Prop :=
  Returns (htraversalBody fnmatch key patt count db cb) (none, state) result

/-- `M.del`. -/
def del (db : Db) (key : ByteString) (after : Db) : Prop :=
  htraversal fnmatch key none none id
    (fun db arr => (everySecond arr).foldl (fun db field => hdel db key [field]) db) db after

/-- `M.hgetall`. -/
def hgetall (db : Db) (key : ByteString) (ret : List ByteString) : Prop :=
  htraversal fnmatch key none none (fun _ => db) (fun ret arr => ret ++ arr) [] ret

end Loops

end M

section RawKeys

variable {key other field otherField rawkey : ByteString}

theorem append_lt_append_iff {front left right : ByteString} :
    front ++ left < front ++ right ↔ left < right := by
  induction front with
  | nil => rfl
  | cons byte front ih => simp [ih]

/-- A field that `hgetall` and `del` reach. -/
def Reached (field : ByteString) : Prop :=
  field.head? ≠ some SPLIT

instance : DecidablePred Reached := fun field =>
  inferInstanceAs (Decidable (field.head? ≠ some SPLIT))

theorem between_iff : key ++ [SPLIT] ≤ rawkey ∧ rawkey < key ++ [SPLIT, SPLIT] ↔
    ∃ field, rawkey = key ++ SPLIT :: field ∧ Reached field := by
  have below : ∀ field : ByteString, key ++ SPLIT :: field < key ++ [SPLIT, SPLIT] ↔
      Reached field := by
    intro field
    rw [append_lt_append_iff]
    cases field with
    | nil => simp [Reached]
    | cons byte field =>
        have last : byte < SPLIT ↔ byte ≠ SPLIT := Fin.lt_last_iff_ne_last
        simp [Reached, List.cons_lt_cons_iff, last]
  constructor
  · rintro ⟨lower, upper⟩
    obtain ⟨field, rfl⟩ := append_of_between lower upper
    exact ⟨field, rfl, (below field).mp upper⟩
  · rintro ⟨field, rfl, reached⟩
    refine ⟨not_lt.mp ?_, (below field).mpr reached⟩
    rw [append_lt_append_iff]
    simp

/-- Without the separator in the keys a raw key has one key and one field. -/
theorem rawkey_inj (clean : SPLIT ∉ key) (otherClean : SPLIT ∉ other) :
    key ++ SPLIT :: field = other ++ SPLIT :: otherField ↔ key = other ∧ field = otherField := by
  constructor
  · intro same
    have split := @splitRawkey_append key field clean
    rw [same, splitRawkey_append otherClean] at split
    obtain ⟨rfl, rfl⟩ := Prod.mk.inj (Option.some.inj split)
    exact ⟨rfl, rfl⟩
  · rintro ⟨rfl, rfl⟩
    rfl

end RawKeys

section Loops

variable {fnmatch : ByteString → ByteString → Int} {key : ByteString} {db after : Db}

/-- The entries between the bounds of a key. -/
def Between (key : ByteString) (entry : RawEntry) : Prop :=
  key ++ [SPLIT] ≤ entry.1 ∧ entry.1 < key ++ [SPLIT, SPLIT]

/-- The pattern `"*"` wants every entry between the bounds. -/
theorem wantsField_star_iff (star : ∀ name, fnmatch [42] name = 0) {entry : RawEntry}
    (lower : key ++ [SPLIT] ≤ entry.1) :
    wantsField fnmatch key none entry ↔ Between key entry := by
  rw [wantsField, wants_iff]
  constructor
  · rintro ⟨upper, -⟩
    exact ⟨lower, upper⟩
  · rintro ⟨-, upper⟩
    obtain ⟨field, whole⟩ := append_of_between lower upper
    have isSome : (splitRawkey entry.1).isSome := by
      rw [whole, splitRawkey]
      have stops : (key ++ SPLIT :: field).dropWhile (· ≠ SPLIT) ≠ [] := by
        rw [Ne, List.dropWhile_eq_nil_iff]
        intro all
        simpa using all SPLIT (by simp)
      split
      next none => exact absurd none stops
      next => rfl
    obtain ⟨⟨front, rest⟩, split⟩ := Option.isSome_iff_exists.mp isSome
    have isStar : cString [42] = [42] := rfl
    exact ⟨upper, front, rest, split, by simp [matched, isStar, star]⟩

/-- In a quiet store a traversal goes on until its cursor is `"0"`. -/
theorem returns_of_pages {traversal : Traversal} (rounds : Nat) (db : Db)
    (sameDb : traversal.db = db)
    (done : ((List.replicate rounds (Event.page none)).foldl
      (Traversal.step (M.hscan fnmatch key none)) traversal).cursor = some [48]) :
    Returns (M.htraversalBody fnmatch key none none (fun _ => db) fun ret arr => ret ++ arr)
      (traversal.cursor, traversal.reported)
      ((List.replicate rounds (Event.page none)).foldl
        (Traversal.step (M.hscan fnmatch key none)) traversal).reported := by
  induction rounds generalizing traversal with
  | zero =>
      apply returns_of_exit
      rw [M.htraversalBody, if_pos (by simpa using done)]
      rfl
  | succ rounds ih =>
      rw [List.replicate_succ, List.foldl_cons] at done ⊢
      by_cases last : traversal.cursor = some [48]
      · have stays : traversal.step (M.hscan fnmatch key none) (.page none) = traversal := by
          rw [Traversal.step, if_pos last]
        rw [stays] at done ⊢
        exact ih sameDb done
      · have paged : traversal.step (M.hscan fnmatch key none) (.page none) =
            ⟨traversal.db, (M.hscan fnmatch key none traversal.db traversal.cursor none).1,
              traversal.reported ++
                (M.hscan fnmatch key none traversal.db traversal.cursor none).2⟩ := by
          rw [Traversal.step, if_neg last]
        refine returns_of_continue ?_ (ih (by rw [paged]; exact sameDb) done)
        rw [M.htraversalBody, if_neg last, paged, sameDb]

/-- `hgetall` returns the entries between the bounds of its key. -/
theorem hgetall_iff {ret : List ByteString} :
    M.hgetall fnmatch db key ret ↔
      ret = (fieldsIn fnmatch none key db).flatMap fun (field, val) => [field, val] := by
  have rounds : ∃ events : List Event, events =
      List.replicate ((fieldsIn fnmatch none key db).length + 1) (.page none) := ⟨_, rfl⟩
  obtain ⟨events, isEvents⟩ := rounds
  have pages : ∀ event ∈ events, ∃ count, event = .page count := by
    intro event member
    rw [isEvents] at member
    exact ⟨none, List.eq_of_mem_replicate member⟩
  have fit : CountsFit (2 ^ 30) events := by
    intro count member
    rw [isEvents] at member
    obtain rfl := Event.page.inj (List.eq_of_mem_replicate member)
    norm_num
  have exact : HscanExact fnmatch none key db events := hscan_exact fit
  obtain ⟨all, ends⟩ := exact.quiet pages
  have done := ends (by simp [isEvents])
  have returned : M.hgetall fnmatch db key
      (Traversal.run (M.hscan fnmatch key none) db events).reported := by
    rw [isEvents] at done ⊢
    exact @returns_of_pages fnmatch key ⟨db, none, []⟩ _ db rfl done
  rw [exact.whole, all done] at returned
  exact ⟨fun returnedRet => Returns.unique returnedRet returned, fun same => same ▸ returned⟩

theorem mem_take_iff {found : List RawEntry} {count : Nat} {next entry : RawEntry}
    (sorted : found.Pairwise fun first second => first.1 < second.1)
    (isNext : found[count]? = some next) :
    entry ∈ found.take count ↔ entry ∈ found ∧ entry.1 < next.1 := by
  obtain ⟨inside, isNext⟩ := List.getElem?_eq_some_iff.mp isNext
  rw [List.mem_take_iff_getElem]
  constructor
  · rintro ⟨index, early, rfl⟩
    refine ⟨List.getElem_mem _, ?_⟩
    rw [← isNext]
    exact List.pairwise_iff_getElem.mp sorted index count _ inside (by omega)
  · rintro ⟨member, less⟩
    obtain ⟨index, indexInside, rfl⟩ := List.mem_iff_getElem.mp member
    rw [← isNext] at less
    refine ⟨index, lt_min ?_ indexInside, rfl⟩
    by_contra late
    rcases (not_lt.mp late).eq_or_lt with rfl | later
    · exact lt_irrefl _ less
    · exact less.asymm (List.pairwise_iff_getElem.mp sorted count index inside indexInside later)

theorem mem_hdel {fields : List ByteString} {entry : RawEntry} :
    entry ∈ M.hdel db key fields ↔
      entry ∈ db ∧ ∀ field ∈ fields, entry.1 ≠ key ++ SPLIT :: field := by
  unfold M.hdel
  induction fields generalizing db with
  | nil => simp
  | cons field fields ih =>
      rw [List.foldl_cons, ih, KeySorted.mem_drop]
      simp only [List.mem_cons, forall_eq_or_imp, and_assoc]

theorem foldl_hdel (fields : List ByteString) :
    fields.foldl (fun db field => M.hdel db key [field]) db = M.hdel db key fields := by
  induction fields generalizing db with
  | nil => rfl
  | cons field fields ih => exact ih

/-- The entries a traversal is past. -/
def Passed (key : ByteString) (cursor : Option ByteString) (entry : RawEntry) : Prop :=
  Between key entry ∧ (cursor = some [48] ∨ entry.1 < cursor.getD (key ++ [SPLIT]))

/-- Between two pages of `del` the entries that it is past are deleted. -/
structure DelLoop (key : ByteString) (db : Db) (state : Option ByteString × Db) : Prop where
  mem : ∀ entry, entry ∈ state.2 ↔ entry ∈ db ∧ ¬ Passed key state.1 entry
  start : state.1 ≠ some [48] → key ++ [SPLIT] ≤ state.1.getD (key ++ [SPLIT])

/-- The raw keys between the bounds of a key are those of its fields. -/
def Owns (db : Db) (key : ByteString) : Prop :=
  ∀ entry ∈ db, Between key entry → key ++ SPLIT :: fieldOf entry.1 = entry.1

variable (fnmatch key) in
/-- The loop of `del`. -/
def delBody : Option ByteString × Db → (Option ByteString × Db) ⊕ Db :=
  M.htraversalBody fnmatch key none none id fun db arr =>
    (everySecond arr).foldl (fun db field => M.hdel db key [field]) db

theorem delLoop_start (key : ByteString) (db : Db) : DelLoop key db (none, db) := by
  refine ⟨fun entry => (and_iff_left ?_).symm, fun _ => le_rfl⟩
  rintro ⟨between, done | less⟩
  · simp at done
  · exact absurd between.1 (not_le.mpr less)

/-- The entries that are left to a traversal. -/
def leftIn (db : Db) (cursor : Option ByteString) (key : ByteString) : List RawEntry :=
  if cursor = some [48] then []
  else db.elements.filter fun entry => cursor.getD (key ++ [SPLIT]) ≤ entry.1

theorem leftIn_lt {cursor : Option ByteString} {last : ByteString} {before : RawEntry}
    (going : cursor ≠ some [48]) (unfinished : last ≠ [48])
    (onward : cursor.getD (key ++ [SPLIT]) ≤ last) (beforeIn : before ∈ db)
    (ahead : cursor.getD (key ++ [SPLIT]) ≤ before.1) (less : before.1 < last) :
    (leftIn db (some last) key).length < (leftIn db cursor key).length := by
  have unfinished' : (some last : Option ByteString) ≠ some [48] := fun same =>
    unfinished (Option.some.inj same)
  simp only [leftIn, if_neg unfinished', if_neg going, Option.getD_some]
  have nested : (db.elements.filter fun entry => last ≤ entry.1) =
      (db.elements.filter fun entry => cursor.getD (key ++ [SPLIT]) ≤ entry.1).filter
        fun entry => last ≤ entry.1 := by
    rw [List.filter_filter]
    refine List.filter_congr fun entry _ => ?_
    by_cases late : last ≤ entry.1
    · simp [late, onward.trans late]
    · simp [late]
  rw [nested, List.length_filter_lt_length_iff_exists]
  exact ⟨before, List.mem_filter.mpr ⟨beforeIn, by simpa using ahead⟩, by simpa using less⟩

variable (fnmatch key) in
/-- The entries the next page of `del` is taken from. -/
def ahead (state : Option ByteString × Db) : List RawEntry :=
  (wantedIn (wantsField fnmatch key none) state.2).filter
    fun entry => state.1.getD (key ++ [SPLIT]) ≤ entry.1

namespace DelLoop

variable {state next : Option ByteString × Db}

theorem snapshot_ahead (state : Option ByteString × Db) :
    Snapshot Prod.fst (fun _ => True) (ahead fnmatch key state) :=
  ⟨(state.2.sorted.filter _).filter _, fun _ _ => trivial⟩

theorem mem_ahead (star : ∀ name, fnmatch [42] name = 0) (delLoop : DelLoop key db state)
    (going : state.1 ≠ some [48]) (entry : RawEntry) : entry ∈ ahead fnmatch key state ↔
      entry ∈ db ∧ Between key entry ∧ state.1.getD (key ++ [SPLIT]) ≤ entry.1 := by
  have position := delLoop.start going
  rw [ahead, List.mem_filter, wantedIn, List.mem_filter, KeySorted.mem_elements, delLoop.mem,
    decide_eq_true_eq]
  constructor
  · rintro ⟨⟨⟨member, -⟩, wanted⟩, lower⟩
    exact ⟨member, (wantsField_star_iff star (position.trans lower)).mp wanted, lower⟩
  · rintro ⟨member, between, lower⟩
    refine ⟨⟨⟨member, ?_⟩, (wantsField_star_iff star between.1).mpr between⟩, lower⟩
    rintro ⟨-, isDone | less⟩
    · exact going isDone
    · exact absurd lower (not_le.mpr less)

theorem mem_hdel_page (star : ∀ name, fnmatch [42] name = 0) (owns : Owns db key)
    (delLoop : DelLoop key db state) (going : state.1 ≠ some [48]) {page : List RawEntry}
    (isPage : page ⊆ ahead fnmatch key state) (entry : RawEntry) :
    entry ∈ M.hdel state.2 key (page.map fun entry => fieldOf entry.1) ↔
      entry ∈ db ∧ ¬ Passed key state.1 entry ∧ entry ∉ page := by
  have members := delLoop.mem_ahead star going
  rw [mem_hdel, delLoop.mem, and_assoc]
  refine and_congr_right fun member => and_congr_right fun _ => ?_
  constructor
  · intro others inPage
    obtain ⟨inDb, between, -⟩ := (members entry).mp (isPage inPage)
    exact others _ (List.mem_map_of_mem inPage) (owns entry inDb between).symm
  · rintro outside field isField same
    obtain ⟨other, inPage, rfl⟩ := List.mem_map.mp isField
    obtain ⟨otherIn, otherBetween, -⟩ := (members other).mp (isPage inPage)
    rw [owns other otherIn otherBetween] at same
    exact outside (KeySorted.eq_of_key_eq member otherIn same ▸ inPage)

theorem last_page (star : ∀ name, fnmatch [42] name = 0) (owns : Owns db key)
    (delLoop : DelLoop key db state) (going : state.1 ≠ some [48]) :
    DelLoop key db (some [48],
      M.hdel state.2 key ((ahead fnmatch key state).map fun entry => fieldOf entry.1)) := by
  refine ⟨fun entry => ?_, fun unfinished => absurd rfl unfinished⟩
  have members := delLoop.mem_ahead star going entry
  rw [delLoop.mem_hdel_page star owns going (List.Subset.refl _)]
  refine and_congr_right fun member => ?_
  simp only [Passed, true_or, and_true]
  constructor
  · rintro ⟨notPassed, outside⟩ between
    have lower : state.1.getD (key ++ [SPLIT]) ≤ entry.1 :=
      not_lt.mp fun less => notPassed ⟨between, Or.inr less⟩
    exact outside (members.mpr ⟨member, between, lower⟩)
  · intro outside
    exact ⟨fun passed => outside passed.1, fun inside => outside (members.mp inside).2.1⟩

/-- A full page deletes what comes before the next entry. -/
theorem full_page (star : ∀ name, fnmatch [42] name = 0) (owns : Owns db key)
    (delLoop : DelLoop key db state) (going : state.1 ≠ some [48]) {count : Nat}
    {last : RawEntry} (isNext : (ahead fnmatch key state)[count]? = some last)
    (unfinished : last.1 ≠ [48]) :
    DelLoop key db (some last.1,
      M.hdel state.2 key (((ahead fnmatch key state).take count).map
        fun entry => fieldOf entry.1)) := by
  obtain ⟨-, lastBetween, lastLower⟩ :=
    (delLoop.mem_ahead star going last).mp (List.mem_of_getElem? isNext)
  refine ⟨fun entry => ?_, fun _ => lastBetween.1⟩
  have members := delLoop.mem_ahead star going entry
  rw [delLoop.mem_hdel_page star owns going (List.take_subset _ _),
    mem_take_iff (snapshot_ahead state).sorted isNext]
  refine and_congr_right fun member => ?_
  simp only [Passed, Option.some.injEq, unfinished, Option.getD_some, false_or, going]
  constructor
  · rintro ⟨notPassed, outside⟩ ⟨between, less⟩
    refine outside ⟨members.mpr ⟨member, between, not_lt.mp fun early => ?_⟩, less⟩
    exact notPassed ⟨between, early⟩
  · intro outside
    refine ⟨fun passed => outside ⟨passed.1, passed.2.trans_le lastLower⟩, ?_⟩
    rintro ⟨inside, less⟩
    exact outside ⟨(members.mp inside).2.1, less⟩

/-- A page of `del` deletes the entries that it is past. -/
theorem step (star : ∀ name, fnmatch [42] name = 0) (owns : Owns db key)
    (delLoop : DelLoop key db state) (continued : delBody fnmatch key state = .inl next) :
    DelLoop key db next ∧ (next.1 = some [48] ∨ (leftIn db next.1 key).length <
      (leftIn db state.1 key).length) := by
  rw [delBody, M.htraversalBody] at continued
  split at continued
  · simp at continued
  next going =>
    have snapshot : Snapshot Prod.fst (fun _ => True) (ahead fnmatch key state) :=
      snapshot_ahead state
    rw [hscan_eq_pageOf key _ _ (by norm_num) (by norm_num), id_eq, ← ahead,
      leaders_id snapshot] at continued
    simp only [pageOf, everySecond_flatMap, foldl_hdel, Option.getD_none, Sum.inl.injEq]
      at continued
    obtain rfl := continued
    cases isNext : (ahead fnmatch key state)[(10 : Int).toNat]? with
    | none =>
        rw [List.take_of_length_le (List.getElem?_eq_none_iff.mp isNext)]
        exact ⟨delLoop.last_page star owns going, Or.inl rfl⟩
    | some last =>
        have members := delLoop.mem_ahead star going
        obtain ⟨lastIn, lastBetween, lastLower⟩ :=
          (members last).mp (List.mem_of_getElem? isNext)
        have unfinished : last.1 ≠ [48] := by
          rw [← owns last lastIn lastBetween]
          intro same
          simpa [SPLIT] using congrArg (SPLIT ∈ ·) same
        refine ⟨delLoop.full_page star owns going isNext unfinished, Or.inr ?_⟩
        -- The page is not empty.
        have inside := (List.getElem?_eq_some_iff.mp isNext).1
        have inPage : (ahead fnmatch key state)[0] ∈
            (ahead fnmatch key state).take (10 : Int).toNat :=
          List.mem_take_iff_getElem.mpr ⟨0, lt_min (by norm_num) (by omega), rfl⟩
        obtain ⟨beforeAhead, less⟩ := (mem_take_iff snapshot.sorted isNext).mp inPage
        obtain ⟨beforeIn, -, beforeLower⟩ := (members _).mp beforeAhead
        exact leftIn_lt going unfinished lastLower beforeIn beforeLower less

end DelLoop

/-- `del` ends, and deletes the entries between the bounds of its key. -/
theorem exists_del (star : ∀ name, fnmatch [42] name = 0) (owns : Owns db key) :
    ∃ after, M.del fnmatch db key after := by
  refine @exists_returns_of_measure _ _ (delBody fnmatch key) _ (DelLoop key db)
    (fun state => if state.1 = some [48] then 0 else (leftIn db state.1 key).length + 1)
    (fun state next delLoop continued => ?_) (delLoop_start key db)
  obtain ⟨kept, progress⟩ := delLoop.step star owns continued
  refine ⟨kept, ?_⟩
  have going : state.1 ≠ some [48] := by
    intro done
    rw [delBody, M.htraversalBody, if_pos done] at continued
    simp at continued
  rw [if_neg going]
  split
  · omega
  next ahead =>
    have := progress.resolve_left ahead
    omega

theorem mem_del (star : ∀ name, fnmatch [42] name = 0) (owns : Owns db key)
    (deleted : M.del fnmatch db key after) (entry : RawEntry) :
    entry ∈ after ↔ entry ∈ db ∧ ¬ Between key entry := by
  obtain ⟨fuel, returned⟩ := deleted
  obtain ⟨last, kept, -, exits⟩ :=
    @exit_of_invariant _ _ (delBody fnmatch key) _ _ _ (DelLoop key db)
    (fun state next delLoop continued => (delLoop.step star owns continued).1)
    (delLoop_start key db) returned
  rw [delBody, M.htraversalBody] at exits
  split at exits
  next done =>
    obtain rfl := Sum.inr.inj exits
    rw [kept.mem, Passed]
    simp only [done, true_or, and_true]
  · simp at exits

theorem nodup_fieldsIn (patt : Option ByteString) :
    ((fieldsIn fnmatch patt key db).map Prod.fst).Nodup := by
  rw [fieldsIn, List.map_map]
  refine List.Nodup.map_on ?_ (db.nodup.filter _)
  intro first firstIn second secondIn same
  simp only [List.mem_filter, Bool.and_eq_true, decide_eq_true_eq] at firstIn secondIn
  obtain ⟨firstSplit, firstBelow⟩ := valid_of_wants firstIn.2.2
  obtain ⟨secondSplit, secondBelow⟩ := valid_of_wants secondIn.2.2
  exact KeySorted.eq_of_key_eq firstIn.1 secondIn.1 (eq_of_fieldOf_eq
    ⟨firstIn.2.1, firstBelow⟩ ⟨secondIn.2.1, secondBelow⟩ firstSplit secondSplit same)

theorem mem_fieldsIn (star : ∀ name, fnmatch [42] name = 0) {field val : ByteString} :
    (field, val) ∈ fieldsIn fnmatch none key db ↔
      ∃ entry ∈ db, Between key entry ∧ fieldOf entry.1 = field ∧ entry.2 = val := by
  simp only [fieldsIn, List.mem_map, List.mem_filter, Bool.and_eq_true, decide_eq_true_eq,
    KeySorted.mem_elements, Prod.mk.injEq]
  refine exists_congr fun entry => ?_
  rw [and_assoc]
  refine and_congr_right fun _ => and_congr_left fun _ => ?_
  exact ⟨fun both => (wantsField_star_iff star both.1).mp both.2,
    fun between => ⟨between.1, (wantsField_star_iff star between.1).mpr between⟩⟩

end Loops

/-- A map from keys to maps from fields to values. -/
def Hashes := ByteString → ByteString → Option ByteString

namespace Hashes

def empty : Hashes :=
  fun _ _ => none

def set (hashes : Hashes) (key field val : ByteString) : Hashes :=
  fun other otherField =>
    if other = key ∧ otherField = field then some val else hashes other otherField

def remove (hashes : Hashes) (key : ByteString) (fields : List ByteString) : Hashes :=
  fun other field => if other = key ∧ field ∈ fields then none else hashes other field

def clear (hashes : Hashes) (key : ByteString) : Hashes :=
  fun other field => if other = key then none else hashes other field

end Hashes

/-- The calls of `db.lua` about hashes. -/
inductive Call where
  | hset (key field val : ByteString)
  | hmset (key : ByteString) (arr : List ByteString)
  | hdel (key : ByteString) (arr : List ByteString)
  | del (key : ByteString)
  | hget (key field : ByteString)
  | hmget (key : ByteString) (arr : List ByteString)
  | hgetall (key : ByteString)

inductive Outcome where
  | done
  | error
  | value (val : Option ByteString)
  | values (vals : List (Option ByteString))
  | elements (arr : List ByteString)
  deriving DecidableEq

/-- What a call does to a map of maps. -/
def Hashes.apply (hashes : Hashes) : Call → Hashes
  | .hset key field val => hashes.set key field val
  | .hmset key arr =>
      if arr.length % 2 ≠ 0 then hashes
      else (pairs arr).foldl (fun hashes (field, val) => hashes.set key field val) hashes
  | .hdel key arr => hashes.remove key arr
  | .del key => hashes.clear key
  | .hget _ _ => hashes
  | .hmget _ _ => hashes
  | .hgetall _ => hashes

/-- What a call returns from a map of maps. -/
def Hashes.Answers (hashes : Hashes) : Call → Outcome → Prop
  | .hset _ _ _, outcome => outcome = .done
  | .hmset _ arr, outcome => outcome = if arr.length % 2 ≠ 0 then .error else .done
  | .hdel _ _, outcome => outcome = .done
  | .del _, outcome => outcome = .done
  | .hget key field, outcome => outcome = .value (hashes key field)
  | .hmget key arr, outcome => outcome = .values (arr.map (hashes key))
  | .hgetall key, outcome =>
      ∃ entries : List (ByteString × ByteString),
        outcome = .elements (entries.flatMap fun (field, val) => [field, val]) ∧
          (entries.map Prod.fst).Nodup ∧
          ∀ field val, (field, val) ∈ entries ↔ hashes key field = some val

section Runs

variable (fnmatch : ByteString → ByteString → Int)

/-- What a call of `db.lua` does and returns. -/
def Performs (db : Db) : Call → Outcome → Db → Prop
  | .hset key field val, outcome, after => outcome = .done ∧ after = M.hset db key field val
  | .hmset key arr, outcome, after =>
      match M.hmset db key arr with
      | none => outcome = .error ∧ after = db
      | some changed => outcome = .done ∧ after = changed
  | .hdel key arr, outcome, after => outcome = .done ∧ after = M.hdel db key arr
  | .del key, outcome, after => outcome = .done ∧ M.del fnmatch db key after
  | .hget key field, outcome, after => outcome = .value (M.hget db key field) ∧ after = db
  | .hmget key arr, outcome, after => outcome = .values (M.hmget db key arr) ∧ after = db
  | .hgetall key, outcome, after =>
      after = db ∧ ∃ ret, outcome = .elements ret ∧ M.hgetall fnmatch db key ret

/-- Calls one after the other on an empty store, with what they returned. -/
inductive Run : List (Call × Outcome) → Db → Prop
  | start : Run [] (KeySorted.empty _)
  | call {history db call outcome after} (run : Run history db)
      (performed : Performs fnmatch db call outcome after) :
      Run (history ++ [(call, outcome)]) after

/-- The map of maps after the calls. -/
def contents (history : List (Call × Outcome)) : Hashes :=
  history.foldl (fun hashes (call, _) => hashes.apply call) Hashes.empty

/-- A call keeps to the keys without a separator and the fields that do not start
with one.  It may read or delete under another key what is not there. -/
def Separates (db : Db) : Call → Prop
  | .hset key field _ => SPLIT ∉ key ∧ Reached field
  | .hmset key arr =>
      arr.length % 2 = 0 → ∀ entry ∈ pairs arr, SPLIT ∉ key ∧ Reached entry.1
  | .hdel key arr => SPLIT ∈ key → ∀ field ∈ arr, ∀ val, (key ++ SPLIT :: field, val) ∉ db
  | .del key => SPLIT ∈ key → ∀ entry ∈ db, ¬ Between key entry
  | .hget key field => SPLIT ∈ key → ∀ val, (key ++ SPLIT :: field, val) ∉ db
  | .hmget key arr => SPLIT ∈ key → ∀ field ∈ arr, ∀ val, (key ++ SPLIT :: field, val) ∉ db
  | .hgetall key => SPLIT ∈ key → ∀ entry ∈ db, ¬ Between key entry

end Runs

/-- The store consists of the raw keys of a map of maps. -/
structure Implements (db : Db) (hashes : Hashes) : Prop where
  mem : ∀ entry, entry ∈ db ↔
    ∃ key field, entry.1 = key ++ SPLIT :: field ∧ hashes key field = some entry.2
  clean : ∀ key field val, hashes key field = some val → SPLIT ∉ key ∧ Reached field

namespace Implements

variable {db after : Db} {hashes : Hashes} {key field val : ByteString}
  (implements : Implements db hashes)
include implements

/-- A field is read under its raw key, unless another pair has the same one. -/
theorem mem_iff (apart : SPLIT ∈ key → ∀ val, (key ++ SPLIT :: field, val) ∉ db) :
    (key ++ SPLIT :: field, val) ∈ db ↔ hashes key field = some val := by
  constructor
  · intro member
    obtain ⟨other, otherField, same, held⟩ := (implements.mem _).mp member
    by_cases dirty : SPLIT ∈ key
    · exact absurd member (apart dirty val)
    · obtain ⟨rfl, rfl⟩ := (rawkey_inj dirty (implements.clean _ _ _ held).1).mp same
      exact held
  · exact fun held => (implements.mem _).mpr ⟨key, field, rfl, held⟩

theorem hget (apart : SPLIT ∈ key → ∀ val, (key ++ SPLIT :: field, val) ∉ db) :
    M.hget db key field = hashes key field := by
  apply Option.ext
  intro val
  rw [← implements.mem_iff apart, M.hget, Option.map_eq_some_iff]
  constructor
  · rintro ⟨⟨rawkey, found⟩, isFound, rfl⟩
    obtain ⟨member, rfl⟩ := KeySorted.find_eq_some.mp isFound
    exact member
  · intro member
    exact ⟨_, KeySorted.find_eq_some.mpr ⟨member, rfl⟩, rfl⟩

theorem hset (clean : SPLIT ∉ key) (reached : Reached field) :
    Implements (M.hset db key field val) (hashes.set key field val) := by
  constructor
  · intro entry
    rw [M.hset, KeySorted.mem_put, implements.mem]
    simp only [Hashes.set]
    constructor
    · rintro (rfl | ⟨⟨other, otherField, same, held⟩, differs⟩)
      · exact ⟨key, field, rfl, by simp⟩
      · refine ⟨other, otherField, same, ?_⟩
        rw [if_neg, held]
        rintro ⟨rfl, rfl⟩
        exact differs same
    · rintro ⟨other, otherField, same, held⟩
      split at held
      next isNew =>
        obtain ⟨rfl, rfl⟩ := isNew
        exact Or.inl (Prod.ext same (Option.some.inj held).symm)
      next isOld =>
        refine Or.inr ⟨⟨other, otherField, same, held⟩, fun sameRaw => isOld ?_⟩
        rw [same] at sameRaw
        exact (rawkey_inj (implements.clean _ _ _ held).1 clean).mp sameRaw
  · intro other otherField otherVal held
    simp only [Hashes.set] at held
    split at held
    next isNew =>
      obtain ⟨rfl, rfl⟩ := isNew
      exact ⟨clean, reached⟩
    next => exact implements.clean _ _ _ held

theorem hmset {entries : List (ByteString × ByteString)}
    (clean : ∀ entry ∈ entries, SPLIT ∉ key ∧ Reached entry.1) :
    Implements (entries.foldl (fun db (field, val) => M.hset db key field val) db)
      (entries.foldl (fun hashes (field, val) => hashes.set key field val) hashes) := by
  induction entries generalizing db hashes with
  | nil => exact implements
  | cons entry entries ih =>
      obtain ⟨isClean, reached⟩ := clean entry List.mem_cons_self
      exact ih (implements.hset isClean reached) fun other member =>
        clean other (List.mem_cons_of_mem entry member)

theorem sublist {fewer : Hashes} (fewerHeld : ∀ key field, fewer key field = hashes key field ∨
      fewer key field = none)
    (left : ∀ entry, entry ∈ after ↔ entry ∈ db ∧ ∀ key field,
      entry.1 = key ++ SPLIT :: field → hashes key field = some entry.2 →
        fewer key field = hashes key field) :
    Implements after fewer := by
  constructor
  · intro entry
    rw [left, implements.mem]
    constructor
    · rintro ⟨⟨key, field, same, held⟩, stays⟩
      exact ⟨key, field, same, (stays key field same held).trans held⟩
    · rintro ⟨key, field, same, held⟩
      have old : hashes key field = some entry.2 := by
        rcases fewerHeld key field with kept | lost
        · rw [← kept, held]
        · simp [lost] at held
      refine ⟨⟨key, field, same, old⟩, fun other otherField otherSame otherHeld => ?_⟩
      rw [same] at otherSame
      obtain ⟨rfl, rfl⟩ := (rawkey_inj (implements.clean _ _ _ old).1
        (implements.clean _ _ _ otherHeld).1).mp otherSame
      rw [held, old]
  · intro key field val held
    rcases fewerHeld key field with kept | lost
    · exact implements.clean key field val (kept ▸ held)
    · simp [lost] at held

theorem hdel {fields : List ByteString}
    (apart : SPLIT ∈ key → ∀ field ∈ fields, ∀ val, (key ++ SPLIT :: field, val) ∉ db) :
    Implements (M.hdel db key fields) (hashes.remove key fields) := by
  apply implements.sublist
  · intro other field
    simp only [Hashes.remove]
    split
    · exact Or.inr rfl
    · exact Or.inl rfl
  · intro entry
    rw [mem_hdel]
    refine and_congr_right fun member => ?_
    simp only [Hashes.remove, ite_eq_right_iff]
    constructor
    · rintro differ other field same held ⟨rfl, isField⟩
      exact absurd same (differ field isField)
    · intro stays field isField same
      have raw : (key ++ SPLIT :: field, entry.2) ∈ db := by
        rw [← same]
        exact member
      have held := (implements.mem_iff fun dirty => apart dirty field isField).mp raw
      have gone := stays key field same held ⟨rfl, isField⟩
      simp [held] at gone

omit implements in
theorem owns (apart : SPLIT ∈ key → ∀ entry ∈ db, ¬ Between key entry) : Owns db key := by
  intro entry member between
  have clean : SPLIT ∉ key := fun dirty => apart dirty entry member between
  obtain ⟨field, whole, -⟩ := between_iff.mp between
  rw [whole, fieldOf, splitRawkey_append clean]
  rfl

theorem between_iff_key (apart : SPLIT ∈ key → ∀ entry ∈ db, ¬ Between key entry)
    {other : ByteString} {entry : RawEntry} (same : entry.1 = other ++ SPLIT :: field)
    (held : hashes other field = some entry.2) : Between key entry ↔ other = key := by
  obtain ⟨otherClean, reached⟩ := implements.clean _ _ _ held
  have member := (implements.mem entry).mpr ⟨other, field, same, held⟩
  constructor
  · intro between
    have clean : SPLIT ∉ key := fun dirty => apart dirty entry member between
    obtain ⟨field', whole, -⟩ := between_iff.mp between
    exact ((rawkey_inj otherClean clean).mp (same.symm.trans whole)).1
  · rintro rfl
    exact between_iff.mpr ⟨field, same, reached⟩

theorem del {fnmatch : ByteString → ByteString → Int} (star : ∀ name, fnmatch [42] name = 0)
    (apart : SPLIT ∈ key → ∀ entry ∈ db, ¬ Between key entry)
    (deleted : M.del fnmatch db key after) : Implements after (hashes.clear key) := by
  apply implements.sublist
  · intro other field
    simp only [Hashes.clear]
    split
    · exact Or.inr rfl
    · exact Or.inl rfl
  · intro entry
    rw [mem_del star (owns apart) deleted]
    refine and_congr_right fun member => ?_
    obtain ⟨other, field, same, held⟩ := (implements.mem entry).mp member
    simp only [Hashes.clear, ite_eq_right_iff]
    constructor
    · rintro outside key' field' same' held' rfl
      exact absurd ((implements.between_iff_key apart same' held').mpr rfl) outside
    · intro stays between
      have isKey := (implements.between_iff_key apart same held).mp between
      have gone := stays other field same held isKey
      simp [held] at gone

theorem hgetall {fnmatch : ByteString → ByteString → Int} (star : ∀ name, fnmatch [42] name = 0)
    (apart : SPLIT ∈ key → ∀ entry ∈ db, ¬ Between key entry) (field val : ByteString) :
    (field, val) ∈ fieldsIn fnmatch none key db ↔ hashes key field = some val := by
  rw [mem_fieldsIn star]
  constructor
  · rintro ⟨entry, member, between, rfl, rfl⟩
    have clean : SPLIT ∉ key := fun dirty => apart dirty entry member between
    rw [← implements.mem_iff fun dirty => absurd dirty clean, owns apart entry member between]
    exact member
  · intro held
    have member := (implements.mem (key ++ SPLIT :: field, val)).mpr ⟨key, field, rfl, held⟩
    have between : Between key (key ++ SPLIT :: field, val) :=
      (implements.between_iff_key apart rfl held).mpr rfl
    refine ⟨_, member, between, ?_, rfl⟩
    rw [fieldOf, splitRawkey_append (implements.clean _ _ _ held).1]
    rfl

/-- A call that keeps its pairs apart does what it does to the map of maps. -/
theorem step {fnmatch : ByteString → ByteString → Int} (star : ∀ name, fnmatch [42] name = 0)
    {call : Call} {outcome : Outcome} (separates : Separates db call)
    (performed : Performs fnmatch db call outcome after) :
    Implements after (hashes.apply call) ∧ hashes.Answers call outcome := by
  cases call with
  | hset key field val =>
      obtain ⟨rfl, rfl⟩ := performed
      exact ⟨implements.hset separates.1 separates.2, rfl⟩
  | hmset key arr =>
      simp only [Performs, M.hmset] at performed
      simp only [Hashes.apply, Hashes.Answers]
      by_cases odd : arr.length % 2 ≠ 0
      · simp only [if_pos odd] at performed ⊢
        obtain ⟨rfl, rfl⟩ := performed
        exact ⟨implements, rfl⟩
      · simp only [if_neg odd] at performed ⊢
        obtain ⟨rfl, rfl⟩ := performed
        exact ⟨implements.hmset (separates (not_not.mp odd)), rfl⟩
  | hdel key arr =>
      obtain ⟨rfl, rfl⟩ := performed
      exact ⟨implements.hdel separates, rfl⟩
  | del key =>
      obtain ⟨rfl, deleted⟩ := performed
      exact ⟨implements.del star separates deleted, rfl⟩
  | hget key field =>
      obtain ⟨rfl, rfl⟩ := performed
      exact ⟨implements, congrArg Outcome.value (implements.hget separates)⟩
  | hmget key arr =>
      obtain ⟨rfl, rfl⟩ := performed
      refine ⟨implements, congrArg Outcome.values (List.map_congr_left fun field member => ?_)⟩
      exact implements.hget fun dirty => separates dirty field member
  | hgetall key =>
      obtain ⟨rfl, ret, rfl, returned⟩ := performed
      rw [hgetall_iff] at returned
      exact ⟨implements, _, congrArg Outcome.elements returned, nodup_fieldsIn none,
        implements.hgetall star separates⟩

end Implements

section Runs

variable {fnmatch : ByteString → ByteString → Int} {history : List (Call × Outcome)} {db : Db}

theorem exists_performs (star : ∀ name, fnmatch [42] name = 0) {call : Call}
    (separates : Separates db call) :
    ∃ outcome after, Performs fnmatch db call outcome after := by
  cases call with
  | hmset key arr =>
      simp only [Performs, M.hmset]
      split
      · exact ⟨_, _, rfl, rfl⟩
      · exact ⟨_, _, rfl, rfl⟩
  | del key =>
      obtain ⟨after, deleted⟩ := exists_del star (Implements.owns separates)
      exact ⟨_, after, rfl, deleted⟩
  | hgetall key => exact ⟨_, db, rfl, _, rfl, hgetall_iff.mpr rfl⟩
  | _ => exact ⟨_, _, rfl, rfl⟩

theorem Run.implements (star : ∀ name, fnmatch [42] name = 0) (run : Run fnmatch history db)
    (separates : ∀ before call outcome later middle,
      history = before ++ (call, outcome) :: later → Run fnmatch before middle →
        Separates middle call) :
    Implements db (contents history) ∧ ∀ before call outcome later,
      history = before ++ (call, outcome) :: later → (contents before).Answers call outcome := by
  induction run with
  | start =>
      refine ⟨⟨fun entry => ?_, fun key field val held => by simp [contents, Hashes.empty] at held⟩,
        ?_⟩
      · simp [contents, Hashes.empty, KeySorted.not_mem_empty]
      · intro before call outcome later split
        simp at split
  | @call history db call outcome after run performed ih =>
      obtain ⟨implements, answers⟩ := ih fun before other otherOutcome later middle split =>
        separates before other otherOutcome (later ++ [(call, outcome)]) middle (by simp [split])
      obtain ⟨kept, answered⟩ :=
        implements.step star (separates history call outcome [] db rfl run) performed
      refine ⟨?_, ?_⟩
      · rw [contents, List.foldl_concat]
        exact kept
      · intro before other otherOutcome later split
        rcases concat_eq_append_cons.mp split with ⟨rfl, isLast, -⟩ | ⟨front, earlier, -⟩
        · obtain ⟨rfl, rfl⟩ := Prod.mk.inj isLast
          exact answered
        · exact answers before other otherOutcome front earlier

/-- Calls that keep their pairs apart return what they would from a map of maps, and
every such call returns. -/
theorem map_of_maps (star : ∀ name, fnmatch [42] name = 0) (run : Run fnmatch history db)
    (separates : ∀ before call outcome later middle,
      history = before ++ (call, outcome) :: later → Run fnmatch before middle →
        Separates middle call) :
    (∀ before call outcome later, history = before ++ (call, outcome) :: later →
      (contents before).Answers call outcome) ∧
    ∀ call, Separates db call → ∃ outcome after, Performs fnmatch db call outcome after := by
  obtain ⟨implements, answers⟩ := run.implements star separates
  exact ⟨answers, fun call separated => exists_performs star separated⟩

/-- A pattern that consists of one `*`, or of other characters. -/
def plainMatch (patt name : ByteString) : Int :=
  if patt = [42] ∨ patt = name then 0 else 1

/-- Two fields that are set, visited and deleted with their key, next to another key. -/
def delHistory : List (Call × Outcome) :=
  [(.hset [97] [102] [118], .done), (.hset [98] [102] [120], .done),
    (.hset [97] [103] [119], .done), (.hgetall [97], .elements [[102], [118], [103], [119]]),
    (.del [97], .done), (.hgetall [97], .elements []), (.hget [98] [102], .value (some [120]))]

theorem map_of_maps_del :
    (∀ before call outcome later, delHistory = before ++ (call, outcome) :: later →
      (contents before).Answers call outcome) ∧
    ∀ call, Separates ((KeySorted.empty _).put ([98, 255, 102], [120])) call →
      ∃ outcome after, Performs plainMatch
        ((KeySorted.empty _).put ([98, 255, 102], [120])) call outcome after := by
  have first : Run plainMatch ([] ++ [(.hset [97] [102] [118], .done)]) _ :=
    Run.start.call ⟨rfl, rfl⟩
  have second : Run plainMatch (_ ++ [(.hset [98] [102] [120], .done)]) _ :=
    first.call ⟨rfl, rfl⟩
  have third : Run plainMatch (_ ++ [(.hset [97] [103] [119], .done)]) _ :=
    second.call ⟨rfl, rfl⟩
  have visited : Run plainMatch
      (_ ++ [(.hgetall [97], .elements [[102], [118], [103], [119]])]) _ :=
    third.call ⟨rfl, _, rfl, hgetall_iff.mpr (by decide)⟩
  have deleted : Run plainMatch (_ ++ [(.del [97], .done)])
      ((KeySorted.empty _).put ([98, 255, 102], [120])) :=
    visited.call ⟨rfl, 3, rfl⟩
  have nothing : Run plainMatch (_ ++ [(.hgetall [97], .elements [])]) _ :=
    deleted.call ⟨rfl, _, rfl, hgetall_iff.mpr (by decide)⟩
  have other : Run plainMatch (_ ++ [(.hget [98] [102], .value (some [120]))]) _ :=
    nothing.call ⟨rfl, rfl⟩
  refine map_of_maps (fun name => by simp [plainMatch]) other ?_
  intro before call outcome later middle split run
  have member : (call, outcome) ∈ before ++ (call, outcome) :: later := by simp
  rw [← split] at member
  simp only [delHistory, List.mem_cons, Prod.mk.injEq, List.not_mem_nil,
    or_false] at member
  rcases member with
    ⟨rfl, -⟩ | ⟨rfl, -⟩ | ⟨rfl, -⟩ | ⟨rfl, -⟩ | ⟨rfl, -⟩ | ⟨rfl, -⟩ | ⟨rfl, -⟩
  · exact ⟨by decide, by decide⟩
  · exact ⟨by decide, by decide⟩
  · exact ⟨by decide, by decide⟩
  all_goals exact fun dirty => absurd dirty (by decide)

/-- A field that starts with the separator is set, and `hgetall` misses it. -/
theorem not_answers_separator :
    ∃ db, Run plainMatch [(.hset [97] [255] [118], .done), (.hgetall [97], .elements [])] db ∧
      ¬ (contents [(.hset [97] [255] [118], .done)]).Answers (.hgetall [97]) (.elements []) := by
  have first : Run plainMatch ([] ++ [(.hset [97] [255] [118], .done)]) _ :=
    Run.start.call ⟨rfl, rfl⟩
  have second : Run plainMatch (_ ++ [(.hgetall [97], .elements [])]) _ :=
    first.call ⟨rfl, _, rfl, hgetall_iff.mpr (by decide)⟩
  refine ⟨_, second, ?_⟩
  rintro ⟨entries, same, -, members⟩
  have none : entries = [] := by
    cases entries with
    | nil => rfl
    | cons entry entries => simp at same
  have held := (members [255] [118]).mpr (by decide)
  rw [none] at held
  exact List.not_mem_nil held

end Runs

end LevelDb

end LuaServer
