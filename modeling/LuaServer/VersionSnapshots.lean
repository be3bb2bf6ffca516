import LuaServer.VersionReader
import LuaServer.VersionRestarts

/-!
# Snapshots of the version core

Whatever is added to a core, its two maps stay inverse to each other: a version that is
used already is not added again, and the stale version of a key goes before its new one
comes.  The snapshot of a core is its entries in the order of their versions, and adding
them again in this order gives the core back.
-/

namespace LuaServer

namespace Versions

namespace Version

/-- The two maps are inverse bijections. -/
def Inverse (ver : Version) : Prop :=
  ∀ version key, ver.versionRawkey_.find version = some (version, key) ↔
    ver.rawkeyVersion_ key = some version

/-- Only the entry of the key differs. -/
structure Moves (ver after : Version) (key : ByteString) (version : Int) : Prop where
  here : after.rawkeyVersion_ key = some version ∧
    after.versionRawkey_.find version = some (version, key)
  keys : ∀ other, other ≠ key → after.rawkeyVersion_ other = ver.rawkeyVersion_ other
  entries : ∀ entry : Entry, entry.2 ≠ key →
    (entry ∈ after.versionRawkey_ ↔ entry ∈ ver.versionRawkey_)

variable {ver other : Version} {key : ByteString} {version : Int} {calls : List Entry}

theorem Consistent.inverse (consistent : ver.Consistent) : ver.Inverse := by
  intro version key
  rw [← consistent version key, KeySorted.find_eq_some]
  exact and_iff_left rfl

theorem add_of_used (used : ver.versionRawkey_.find version ≠ none) :
    ver.add key version = ver := by
  obtain ⟨entry, found⟩ := Option.ne_none_iff_exists'.mp used
  simp only [add, found]

theorem not_mem_of_unused (unused : ver.versionRawkey_.find version = none)
    (other : ByteString) : (version, other) ∉ ver.versionRawkey_ :=
  fun member => KeySorted.find_eq_none.mp unused (version, other) member rfl

theorem rawkey_add (unused : ver.versionRawkey_.find version = none) :
    (ver.add key version).rawkeyVersion_ =
      Function.update ver.rawkeyVersion_ key (some version) := by
  simp only [add, unused]

/-- Any other add moves its key to the version. -/
theorem Consistent.moves (consistent : ver.Consistent)
    (unused : ver.versionRawkey_.find version = none) :
    Moves ver (ver.add key version) key version := by
  have absent := not_mem_of_unused unused
  have members : ∀ entry, entry ∈ (ver.add key version).versionRawkey_ ↔
      entry = (version, key) ∨ (entry ∈ ver.versionRawkey_ ∧ entry.2 ≠ key) :=
    mem_add consistent absent
  refine ⟨⟨?_, ?_⟩, fun other differs => ?_, fun entry differs => ?_⟩
  · rw [rawkey_add unused, Function.update_self]
  · exact KeySorted.find_eq_some.mpr ⟨(members _).mpr (Or.inl rfl), rfl⟩
  · rw [rawkey_add unused, Function.update_of_ne differs]
  · rw [members]
    constructor
    · rintro (rfl | ⟨old, -⟩)
      · exact absurd rfl differs
      · exact old
    · exact fun old => Or.inr ⟨old, differs⟩

theorem consistent_addAll (calls : List Entry) : (create.addAll calls).Consistent := by
  induction calls using List.reverseRecOn with
  | nil => exact consistent_create
  | append_singleton calls call ih =>
      rw [addAll_concat]
      cases used : (create.addAll calls).versionRawkey_.find call.1 with
      | none => exact ih.add (not_mem_of_unused used)
      | some entry =>
          rw [add_of_used (by simp [used])]
          exact ih

theorem Consistent.ext (consistent : ver.Consistent) (otherConsistent : other.Consistent)
    (same : ∀ entry, entry ∈ ver.versionRawkey_ ↔ entry ∈ other.versionRawkey_) :
    ver = other := by
  have sameKeys : ver.rawkeyVersion_ = other.rawkeyVersion_ := by
    funext key
    apply Option.ext
    intro version
    rw [← consistent version key, ← otherConsistent version key, same]
  have sameVersions := KeySorted.eq_of_mem_iff same
  cases ver with
  | mk versions keys =>
      cases other with
      | mk otherVersions otherKeys =>
          obtain rfl : versions = otherVersions := sameVersions
          obtain rfl : keys = otherKeys := sameKeys
          rfl

/-- Every entry of a core is the latest one of its key. -/
theorem Consistent.latest_iff (consistent : ver.Consistent) (entry : Entry) :
    Latest ver.versionRawkey_.elements entry ↔ entry ∈ ver.versionRawkey_ := by
  refine ⟨fun latest => latest.1, fun member => ⟨member, ?_⟩⟩
  intro other otherIn sameKey
  have first := (consistent entry.1 entry.2).mp member
  have second := (consistent other.1 other.2).mp otherIn
  rw [sameKey] at second
  exact (Option.some.inj (second.symm.trans first)).le

/-- Adding the entries of a core to an empty one gives the core back. -/
theorem Consistent.addAll_elements (consistent : ver.Consistent) :
    create.addAll ver.versionRawkey_.elements = ver := by
  obtain ⟨rebuilt, members⟩ := mem_addAll ver.versionRawkey_.sorted
  exact rebuilt.ext consistent fun entry => (members entry).trans (consistent.latest_iff entry)

theorem Consistent.deseri_seri (consistent : ver.Consistent)
    (storable : ∀ entry ∈ ver.versionRawkey_, Storable entry) :
    create.deseri ver.seri = some ver := by
  rw [seri_eq_records, deseri_records create storable, consistent.addAll_elements]

/-- After every sequence of adds the two maps are inverse bijections, another add changes
nothing or the entry of its key, and the snapshot is read back exactly. -/
theorem core_exact (calls : List Entry) (storable : ∀ call ∈ calls, Storable call) :
    (create.addAll calls).Inverse ∧
      (∀ key version, (create.addAll calls).versionRawkey_.find version ≠ none →
        (create.addAll calls).add key version = create.addAll calls) ∧
      (∀ key version, (create.addAll calls).versionRawkey_.find version = none →
        Moves (create.addAll calls) ((create.addAll calls).add key version) key version) ∧
      create.deseri (create.addAll calls).seri = some (create.addAll calls) := by
  have consistent := consistent_addAll calls
  refine ⟨consistent.inverse, fun key version => add_of_used,
    fun key version => consistent.moves, ?_⟩
  exact consistent.deseri_seri fun entry member => storable entry (mem_of_mem_addAll member)

/-- A key that is added twice, and a version that is used again. -/
theorem core_exact_again :
    (create.addAll [(7, [97]), (-3, [97]), (-3, [98])]).Inverse ∧
      (∀ key version,
        (create.addAll [(7, [97]), (-3, [97]), (-3, [98])]).versionRawkey_.find version ≠ none →
          (create.addAll [(7, [97]), (-3, [97]), (-3, [98])]).add key version =
            create.addAll [(7, [97]), (-3, [97]), (-3, [98])]) ∧
      (∀ key version,
        (create.addAll [(7, [97]), (-3, [97]), (-3, [98])]).versionRawkey_.find version = none →
          Moves (create.addAll [(7, [97]), (-3, [97]), (-3, [98])])
            ((create.addAll [(7, [97]), (-3, [97]), (-3, [98])]).add key version) key version) ∧
      create.deseri (create.addAll [(7, [97]), (-3, [97]), (-3, [98])]).seri =
        some (create.addAll [(7, [97]), (-3, [97]), (-3, [98])]) := by
  refine core_exact [(7, [97]), (-3, [97]), (-3, [98])] fun call member => ?_
  simp only [List.mem_cons, List.not_mem_nil, or_false] at member
  rcases member with rfl | rfl | rfl
  all_goals exact ⟨by decide, by decide, by decide⟩

end Version

end Versions

end LuaServer
