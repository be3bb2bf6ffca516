import LuaServer.VersionCore
import Mathlib.Data.List.Induction

/-!
# A reader of the version core misses no update

Keys change while a reader walks through the core page by page, and a changed
key moves to a new version behind the cursor.  As versions only grow, an entry
at or before the cursor was reported while it was in the core, or was there
before the reader started.
-/

namespace LuaServer

namespace Versions

open MachineIntegers

namespace Version

/-- The two maps of a core describe the same entries. -/
def Consistent (ver : Version) : Prop :=
  ∀ version key, (version, key) ∈ ver.versionRawkey_ ↔
    ver.rawkeyVersion_ key = some version

variable {ver : Version} {key : ByteString} {version : Int}

theorem consistent_create : create.Consistent := by
  intro version key
  simp [create]

theorem mem_add (consistent : ver.Consistent)
    (unused : ∀ other, (version, other) ∉ ver.versionRawkey_) (entry : Entry) :
    entry ∈ (ver.add key version).versionRawkey_ ↔
      entry = (version, key) ∨ (entry ∈ ver.versionRawkey_ ∧ entry.2 ≠ key) := by
  have notFound : ver.versionRawkey_.find version = none := by
    rw [KeySorted.find_eq_none]
    rintro ⟨old, other⟩ member rfl
    exact unused other member
  obtain ⟨at_, of_⟩ := entry
  simp only [add, notFound, KeySorted.mem_put]
  have apart : (at_, of_) ∈ ver.versionRawkey_ → at_ ≠ version := by
    rintro member rfl
    exact unused of_ member
  cases known : ver.rawkeyVersion_ key with
  | none =>
      have others : (at_, of_) ∈ ver.versionRawkey_ → of_ ≠ key := by
        rintro member rfl
        have found := (consistent at_ of_).mp member
        simp [known] at found
      simp only
      tauto
  | some old =>
      have same : (at_, of_) ∈ ver.versionRawkey_ → (at_ = old ↔ of_ = key) := by
        intro member
        have found := (consistent at_ of_).mp member
        constructor
        · rintro rfl
          have oldMember := (consistent at_ key).mpr known
          exact congrArg Prod.snd (KeySorted.eq_of_key_eq member oldMember rfl)
        · rintro rfl
          exact Option.some.inj (found.symm.trans known)
      simp only [KeySorted.mem_drop]
      tauto

theorem rawkey_version_add (unused : ∀ other, (version, other) ∉ ver.versionRawkey_) :
    (ver.add key version).rawkeyVersion_ =
      Function.update ver.rawkeyVersion_ key (some version) := by
  have notFound : ver.versionRawkey_.find version = none := by
    rw [KeySorted.find_eq_none]
    rintro ⟨old, other⟩ member rfl
    exact unused other member
  simp [Version.add, notFound]

theorem Consistent.add (consistent : ver.Consistent)
    (unused : ∀ other, (version, other) ∉ ver.versionRawkey_) :
    (ver.add key version).Consistent := by
  intro other candidate
  rw [mem_add consistent unused, rawkey_version_add unused]
  by_cases same : candidate = key
  · subst candidate
    rw [Function.update_self, Option.some.injEq]
    simp [eq_comm]
  · rw [Function.update_of_ne same, consistent other candidate]
    simp [same]

/-- A page is the front part of what it is taken from. -/
theorem exists_takePage_append (num c : Int) (rest : List Entry) :
    ∃ left, takePage num c rest ++ left = rest := by
  induction rest generalizing c with
  | nil => exact ⟨[], rfl⟩
  | cons entry rest ih =>
      simp only [takePage]
      split
      · exact ⟨rest, rfl⟩
      · obtain ⟨left, split⟩ := ih (c + 1)
        exact ⟨left, by rw [List.cons_append, split]⟩

theorem takePage_eq_nil {num c : Int} {rest : List Entry} :
    takePage num c rest = [] ↔ rest = [] := by
  cases rest with
  | nil => simp [takePage]
  | cons entry rest =>
      simp only [takePage]
      split <;> simp

/-- A page continues the core from the cursor: it increases, its versions are
behind the cursor, and it leaves no entry out up to its end. -/
structure IsPage (ver : Version) (cursor : Int) (entries : List Entry) : Prop where
  sorted : entries.Pairwise fun first second => first.1 < second.1
  inCore : ∀ entry ∈ entries, entry ∈ ver.versionRawkey_ ∧ cursor < entry.1
  complete : ∀ last ∈ entries.getLast?, ∀ entry ∈ ver.versionRawkey_,
    cursor < entry.1 → entry.1 ≤ last.1 → entry ∈ entries

theorem IsPage.le_last {ver : Version} {cursor : Int} {entries : List Entry} {entry last : Entry}
    (isPage : IsPage ver cursor entries) (isLast : entries.getLast? = some last)
    (member : entry ∈ entries) : entry.1 ≤ last.1 := by
  obtain ⟨front, rfl⟩ := List.getLast?_eq_some_iff.mp isLast
  rcases List.mem_append.mp member with before | same
  · exact le_of_lt ((List.pairwise_append.mp isPage.sorted).2.2 entry before last
      (List.mem_singleton_self last))
  · exact (List.mem_singleton.mp same) ▸ le_rfl

theorem isPage_page (ver : Version) (cursor : Int) (num : Option Int) :
    IsPage ver cursor (ver.page cursor num) := by
  obtain ⟨left, split⟩ :=
    exists_takePage_append (pageSize num) 0 (ver.versionRawkey_.afterKey cursor)
  have sorted : (ver.versionRawkey_.afterKey cursor).Pairwise
      fun first second => first.1 < second.1 := ver.versionRawkey_.sorted.filter _
  change ver.page cursor num ++ left = _ at split
  rw [← split, List.pairwise_append] at sorted
  have members : ∀ entry, entry ∈ ver.page cursor num ++ left ↔
      entry ∈ ver.versionRawkey_ ∧ cursor < entry.1 := by
    intro entry
    rw [split, KeySorted.afterKey, List.mem_filter, decide_eq_true_eq]
    rfl
  refine ⟨sorted.1, ?_, ?_⟩
  · intro entry member
    exact (members entry).mp (List.mem_append_left left member)
  · intro last isLast entry member behind upTo
    have lastIn : last ∈ ver.page cursor num := List.mem_of_getLast? isLast
    rcases List.mem_append.mp ((members entry).mpr ⟨member, behind⟩) with here | later
    · exact here
    · exact absurd (sorted.2.2 last lastIn entry later) (not_lt.mpr upTo)

theorem versionAfter_eq_none {cursor : Int} {num : Option Int} :
    ver.versionAfter cursor num = none ↔
      ∀ entry ∈ ver.versionRawkey_, entry.1 ≤ cursor := by
  rw [versionAfter, Option.map_eq_none_iff, List.getLast?_eq_none_iff, page,
    takePage_eq_nil, KeySorted.afterKey, List.filter_eq_nil_iff]
  simp only [decide_eq_true_eq, not_lt]
  rfl

end Version

/-- One call of a run: an update or a request of the reader. -/
inductive Event where
  | add (key : ByteString) (version : Int)
  | page (num : Option Int)
  deriving DecidableEq, Repr

/-- The core, the cursor of the reader and everything it was reported. -/
structure Reader where
  core : Version
  cursor : Int
  reported : List Entry

namespace Reader

/-- What the reader's next call returns. -/
def answer (reader : Reader) (num : Option Int) : Option (List ByteString × Int) :=
  reader.core.versionAfter reader.cursor num

/-- The reader takes the last element of a non-empty answer as its cursor. -/
def step (reader : Reader) : Event → Reader
  | .add key version => { reader with core := reader.core.add key version }
  | .page num =>
      { reader with
        cursor :=
          match reader.answer num with
          | none => reader.cursor
          | some (_, last) => last
        reported := reader.reported ++ reader.core.page reader.cursor num }

/-- A run of a new core and a reader that starts at `v0`. -/
def run (v0 : Int) (events : List Event) : Reader :=
  events.foldl step ⟨Version.create, v0, []⟩

theorem run_concat (v0 : Int) (events : List Event) (event : Event) :
    run v0 (events ++ [event]) = (run v0 events).step event := by
  simp [run]

end Reader

/-- The versions a run adds. -/
def addedVersions (events : List Event) : List Int :=
  events.filterMap fun
    | .add _ version => some version
    | .page _ => none

/-- The version that a run has added last for a key. -/
def currentVersion (events : List Event) (key : ByteString) : Option Int :=
  events.foldl (fun current event =>
    match event with
    | .add other version => if other = key then some version else current
    | .page _ => current) none

/-- Some page of the run returned `key` after `version` was added for it. -/
def Returned (v0 : Int) (events : List Event) (key : ByteString) (version : Int) : Prop :=
  ∃ early num late, events = early ++ .page num :: late ∧ .add key version ∈ early ∧
    ∃ keys last, (Reader.run v0 early).answer num = some (keys, last) ∧ key ∈ keys

/-- What holds of a run of a reader at any time. -/
structure Synced (v0 : Int) (events : List Event) : Prop where
  consistent : (Reader.run v0 events).core.Consistent
  current : ∀ key, (Reader.run v0 events).core.rawkeyVersion_ key = currentVersion events key
  added : ∀ version key, (version, key) ∈ (Reader.run v0 events).core.versionRawkey_ →
    .add key version ∈ events
  covered : ∀ version key, (version, key) ∈ (Reader.run v0 events).core.versionRawkey_ →
    v0 < version → version ≤ (Reader.run v0 events).cursor → Returned v0 events key version
  cursorAdded : (Reader.run v0 events).cursor = v0 ∨
    (Reader.run v0 events).cursor ∈ addedVersions events
  sorted : (Reader.run v0 events).reported.Pairwise fun first second => first.1 < second.1
  behind : ∀ entry ∈ (Reader.run v0 events).reported, entry.1 ≤ (Reader.run v0 events).cursor

theorem currentVersion_add (events : List Event) (key other : ByteString) (version : Int) :
    currentVersion (events ++ [.add key version]) other =
      if key = other then some version else currentVersion events other := by
  rw [currentVersion, List.foldl_append]
  rfl

theorem currentVersion_page (events : List Event) (num : Option Int) (key : ByteString) :
    currentVersion (events ++ [.page num]) key = currentVersion events key := by
  rw [currentVersion, List.foldl_append]
  rfl

theorem Returned.concat {v0 : Int} {events : List Event} {key : ByteString} {version : Int}
    (returned : Returned v0 events key version) (event : Event) :
    Returned v0 (events ++ [event]) key version := by
  obtain ⟨early, num, late, split, addedEarly, answered⟩ := returned
  exact ⟨early, num, late ++ [event], by simp [split], addedEarly, answered⟩

theorem mem_addedVersions {events : List Event} {key : ByteString} {version : Int}
    (member : .add key version ∈ events) : version ∈ addedVersions events :=
  List.mem_filterMap.mpr ⟨.add key version, member, rfl⟩

section Steps

variable {v0 : Int} {events : List Event}

theorem synced_nil (v0 : Int) : Synced v0 [] := by
  refine ⟨Version.consistent_create, fun _ => rfl, ?_, ?_, Or.inl rfl, List.Pairwise.nil, ?_⟩
  · simp [Reader.run, Version.create]
  · simp [Reader.run, Version.create]
  · simp [Reader.run]

/-- An update with a new largest version moves a key behind the cursor. -/
theorem Synced.add (synced : Synced v0 events) {key : ByteString} {version : Int}
    (largest : ∀ earlier ∈ addedVersions events, earlier < version) :
    Synced v0 (events ++ [.add key version]) := by
  have unused : ∀ other, (version, other) ∉ (Reader.run v0 events).core.versionRawkey_ := by
    intro other member
    have earlier := largest version (mem_addedVersions (synced.added version other member))
    exact lt_irrefl version earlier
  have members : ∀ entry, entry ∈ ((Reader.run v0 events).core.add key version).versionRawkey_ ↔
      entry = (version, key) ∨
        (entry ∈ (Reader.run v0 events).core.versionRawkey_ ∧ entry.2 ≠ key) :=
    Version.mem_add synced.consistent unused
  have moved : Reader.run v0 (events ++ [.add key version]) =
      { Reader.run v0 events with core := (Reader.run v0 events).core.add key version } :=
    Reader.run_concat v0 events _
  refine ⟨?_, ?_, ?_, ?_, ?_, ?_, ?_⟩ <;> rw [moved]
  · exact synced.consistent.add unused
  · intro candidate
    rw [currentVersion_add, ← synced.current candidate, Version.rawkey_version_add unused,
      Function.update_apply]
    simp only [eq_comm]
  · intro other candidate member
    rcases (members (other, candidate)).mp member with same | ⟨old, -⟩
    · obtain ⟨rfl, rfl⟩ := Prod.mk.inj same
      exact List.mem_append_right events (List.mem_singleton_self _)
    · exact List.mem_append_left _ (synced.added other candidate old)
  · intro other candidate member late upTo
    rcases (members (other, candidate)).mp member with same | ⟨old, -⟩
    · -- The cursor is the start, or a version that was added before.
      obtain ⟨rfl, rfl⟩ := Prod.mk.inj same
      simp only at upTo
      rcases synced.cursorAdded with atStart | earlier
      · omega
      · have smaller := largest _ earlier
        omega
    · exact (synced.covered other candidate old late upTo).concat _
  · refine synced.cursorAdded.imp_right fun earlier => ?_
    rw [addedVersions, List.filterMap_append]
    exact List.mem_append_left _ earlier
  · exact synced.sorted
  · exact synced.behind

/-- A page reports what lies between the old and the new cursor. -/
theorem Synced.page (synced : Synced v0 events) (num : Option Int) :
    Synced v0 (events ++ [.page num]) := by
  have isPage := Version.isPage_page (Reader.run v0 events).core
    (Reader.run v0 events).cursor num
  have moved : Reader.run v0 (events ++ [.page num]) =
      (Reader.run v0 events).step (.page num) := Reader.run_concat v0 events _
  have sameAdded : addedVersions (events ++ [.page num]) = addedVersions events := by
    simp [addedVersions]
  cases answered : (Reader.run v0 events).answer num with
  | none =>
      have noEntries : (Reader.run v0 events).core.page (Reader.run v0 events).cursor num =
          [] := by
        simpa [Reader.answer, Version.versionAfter] using answered
      have stays : Reader.run v0 (events ++ [.page num]) = Reader.run v0 events := by
        rw [moved]
        simp [Reader.step, answered, noEntries]
      refine ⟨?_, ?_, ?_, ?_, ?_, ?_, ?_⟩ <;> rw [stays]
      · exact synced.consistent
      · exact fun key => (synced.current key).trans (currentVersion_page events num key).symm
      · exact fun version key member =>
          List.mem_append_left _ (synced.added version key member)
      · exact fun version key member late upTo =>
          (synced.covered version key member late upTo).concat _
      · rw [sameAdded]
        exact synced.cursorAdded
      · exact synced.sorted
      · exact synced.behind
  | some answer =>
      obtain ⟨keys, last⟩ := answer
      have entries := answered
      simp only [Reader.answer, Version.versionAfter, Option.map_eq_some_iff,
        Prod.mk.injEq] at entries
      obtain ⟨lastEntry, isLast, keysEq, rfl⟩ := entries
      have lastIn := List.mem_of_getLast? isLast
      have goesOn : Reader.run v0 (events ++ [.page num]) =
          { Reader.run v0 events with
            cursor := lastEntry.1
            reported := (Reader.run v0 events).reported ++
              (Reader.run v0 events).core.page (Reader.run v0 events).cursor num } := by
        rw [moved]
        simp [Reader.step, answered]
      have further := (isPage.inCore lastEntry lastIn).2
      refine ⟨?_, ?_, ?_, ?_, ?_, ?_, ?_⟩ <;> rw [goesOn]
      · exact synced.consistent
      · exact fun key => (synced.current key).trans (currentVersion_page events num key).symm
      · exact fun version key member =>
          List.mem_append_left _ (synced.added version key member)
      · intro version key member late upTo
        by_cases early : version ≤ (Reader.run v0 events).cursor
        · exact (synced.covered version key member late early).concat _
        · have inPage := isPage.complete lastEntry isLast (version, key) member
            (not_le.mp early) upTo
          refine ⟨events, num, [], rfl, synced.added version key member, keys, lastEntry.1,
            answered, ?_⟩
          rw [← keysEq]
          exact List.mem_map.mpr ⟨(version, key), inPage, rfl⟩
      · rw [sameAdded]
        exact Or.inr (mem_addedVersions
          (synced.added lastEntry.1 lastEntry.2 (isPage.inCore lastEntry lastIn).1))
      · refine List.pairwise_append.mpr ⟨synced.sorted, isPage.sorted, ?_⟩
        intro old oldIn new newIn
        exact lt_of_le_of_lt (synced.behind old oldIn) (isPage.inCore new newIn).2
      · intro entry member
        rcases List.mem_append.mp member with old | new
        · exact (synced.behind entry old).trans (le_of_lt further)
        · exact isPage.le_last isLast new

end Steps

/-- Runs whose added versions increase are synced at any time. -/
theorem synced_of_increasing (v0 : Int) (events : List Event)
    (increasing : (addedVersions events).Pairwise (· < ·)) : Synced v0 events := by
  induction events using List.reverseRecOn with
  | nil => exact synced_nil v0
  | append_singleton events event ih =>
      rw [addedVersions, List.filterMap_append, List.pairwise_append] at increasing
      obtain ⟨earlier, -, smaller⟩ := increasing
      cases event with
      | add key version =>
          exact (ih earlier).add fun old member => smaller old member version (by simp)
      | page num => exact (ih earlier).page num

/-- Whenever a call returns nothing, every key whose last added version is behind `v0` was
returned by a page issued after that version was added; every other call moves the cursor
forward; and no version is reported twice. -/
theorem reader_complete (v0 : Int) (events : List Event)
    (increasing : (addedVersions events).Pairwise (· < ·)) (num : Option Int) :
    ((Reader.run v0 events).answer num = none → ∀ key version,
      currentVersion events key = some version → v0 < version →
        Returned v0 events key version) ∧
    (∀ keys last, (Reader.run v0 events).answer num = some (keys, last) →
      (Reader.run v0 events).cursor < last) ∧
    ((Reader.run v0 events).reported.map Prod.fst).Nodup := by
  have synced := synced_of_increasing v0 events increasing
  refine ⟨?_, ?_, ?_⟩
  · intro nothing key version current late
    rw [← synced.current key] at current
    have member := (synced.consistent version key).mpr current
    have upTo := Version.versionAfter_eq_none.mp nothing (version, key) member
    exact synced.covered version key member late upTo
  · intro keys last answered
    simp only [Reader.answer, Version.versionAfter, Option.map_eq_some_iff,
      Prod.mk.injEq] at answered
    obtain ⟨lastEntry, isLast, -, rfl⟩ := answered
    have isPage := Version.isPage_page (Reader.run v0 events).core
      (Reader.run v0 events).cursor num
    exact (isPage.inCore lastEntry (List.mem_of_getLast? isLast)).2
  · rw [List.Nodup, List.pairwise_map]
    exact synced.sorted.imp fun less => ne_of_lt less

/-- Two updates of one key and one of another, read in pages of one key: in the end both
have been returned with their last versions. -/
theorem reader_complete_updates :
    let events : List Event := [.add [1] 1, .page (some 1), .add [2] 2, .add [1] 3,
      .page (some 1), .page (some 1)]
    (Reader.run 0 events).answer none = none ∧ Returned 0 events [1] 3 ∧
      Returned 0 events [2] 2 ∧ ((Reader.run 0 events).reported.map Prod.fst).Nodup := by
  intro events
  have complete := reader_complete 0 events (by decide) none
  have nothing : (Reader.run 0 events).answer none = none := by decide
  exact ⟨nothing, complete.1 nothing [1] 3 (by decide) (by decide),
    complete.1 nothing [2] 2 (by decide) (by decide), complete.2.2⟩

end Versions

end LuaServer
