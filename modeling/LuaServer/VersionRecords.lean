import LuaServer.VersionLog
import Mathlib.Data.List.Induction

/-!
# Reading the version log back

The log of a process is a header followed by a record for every version.
Reading a whole log back restores the core, and the last version of a core is
that of the last record.
-/

namespace LuaServer

namespace Versions

open MachineIntegers
open LittleEndian (splitBytes_append)

/-- The bytes `ins.add` logs for an entry. -/
def record (entry : Entry) : ByteString :=
  packI8 entry.1 ++ (LittleEndian.ofNat 4 entry.2.length ++ entry.2)

/-- An entry whose version and length fit into its record. -/
structure Storable (entry : Entry) : Prop where
  lower : -2 ^ 63 ≤ entry.1
  small : entry.1 < 2 ^ 63
  short : entry.2.length < 2 ^ 32

/-- An entry of a log, whose versions are positive. -/
structure Fits (entry : Entry) : Prop where
  positive : 1 ≤ entry.1
  small : entry.1 < 2 ^ 63
  short : entry.2.length < 2 ^ 32

theorem Fits.storable {entry : Entry} (fits : Fits entry) : Storable entry :=
  ⟨le_trans (by norm_num) fits.positive, fits.small, fits.short⟩

@[simp]
theorem length_packI8 (value : Int) : (packI8 value).length = 8 :=
  LittleEndian.length_ofInt 8 value

theorem length_record (entry : Entry) : (record entry).length = 12 + entry.2.length := by
  simp only [record, List.length_append, length_packI8, LittleEndian.length_ofNat]
  omega

theorem toInt_packI8 {value : Int} (lower : -2 ^ 63 ≤ value) (small : value < 2 ^ 63) :
    LittleEndian.toInt (packI8 value) = value := by
  apply LittleEndian.toInt_ofInt <;> norm_num <;> omega

theorem toInt64_of_range {value : Int} (lower : -2 ^ 63 ≤ value) (upper : value < 2 ^ 63) :
    toInt64 value = value := by
  apply Int.bmod_eq_of_le <;> norm_num <;> omega

namespace Version

theorem readEntry_record {entry : Entry} (storable : Storable entry) (rest : ByteString) :
    readEntry (record entry ++ rest) = some (entry, rest) := by
  have length : LittleEndian.toNat (LittleEndian.ofNat 4 entry.2.length) = entry.2.length :=
    LittleEndian.toNat_ofNat_of_lt (by simpa using storable.short)
  have version := toInt_packI8 storable.lower storable.small
  simp only [readEntry, record, List.append_assoc]
  rw [splitBytes_append _ (length_packI8 entry.1)]
  simp only [Option.bind_eq_bind, Option.bind_some]
  rw [splitBytes_append _ (LittleEndian.length_ofNat 4 entry.2.length)]
  simp only [Option.bind_some, length]
  rw [splitBytes_append _ rfl]
  simp [version]

/-- The core behind adding entries in turn. -/
def addAll (ver : Version) (entries : List Entry) : Version :=
  entries.foldl (fun ver entry => ver.add entry.2 entry.1) ver

/-- Reading whole records adds their entries and stays inside the string. -/
theorem deseri_records {records : List Entry} (ver : Version)
    (storable : ∀ entry ∈ records, Storable entry) :
    ver.deseri (records.flatMap record) = some (ver.addAll records) := by
  induction records generalizing ver with
  | nil => simp [deseri, addAll]
  | cons entry records ih =>
      have notEmpty : (entry :: records).flatMap record ≠ [] := by
        intro empty
        have lengths := congrArg List.length empty
        simp [length_record] at lengths
      rw [deseri, if_neg notEmpty, List.flatMap_cons,
        readEntry_record (storable entry List.mem_cons_self)]
      exact ih _ fun other member => storable other (List.mem_cons_of_mem entry member)

theorem mem_of_mem_add {ver : Version} {key : ByteString} {version : Int} {entry : Entry}
    (member : entry ∈ (ver.add key version).versionRawkey_) :
    entry = (version, key) ∨ entry ∈ ver.versionRawkey_ := by
  simp only [add] at member
  split at member
  · exact Or.inr member
  · refine (KeySorted.mem_put.mp member).imp_right fun old => ?_
    cases known : ver.rawkeyVersion_ key with
    | none => simpa [known] using old.1
    | some before =>
        simp only [known] at old
        exact (KeySorted.mem_drop.mp old.1).1

theorem last_add {ver : Version} {key : ByteString} {version : Int}
    (largest : ∀ entry ∈ ver.versionRawkey_, entry.1 < version) :
    (ver.add key version).last = some (version, key) := by
  have unused : ver.versionRawkey_.find version = none := by
    rw [KeySorted.find_eq_none]
    exact fun entry member => (largest entry member).ne
  simp only [last, add, unused]
  rw [KeySorted.elements_put_of_lt]
  · simp
  · intro entry member
    cases known : ver.rawkeyVersion_ key with
    | none => exact largest entry (by simpa [known] using member)
    | some before =>
        simp only [known] at member
        exact largest entry (KeySorted.mem_drop.mp member).1

theorem addAll_concat (ver : Version) (entries : List Entry) (entry : Entry) :
    ver.addAll (entries ++ [entry]) = (ver.addAll entries).add entry.2 entry.1 := by
  simp [addAll]

theorem mem_of_mem_addAll {entries : List Entry} {entry : Entry}
    (member : entry ∈ (create.addAll entries).versionRawkey_) : entry ∈ entries := by
  induction entries using List.reverseRecOn with
  | nil => exact absurd member KeySorted.not_mem_empty
  | append_singleton entries new ih =>
      rw [addAll_concat] at member
      rcases mem_of_mem_add member with rfl | old
      · exact List.mem_append_right entries (List.mem_singleton_self _)
      · exact List.mem_append_left _ (ih old)

theorem last_addAll {entries : List Entry}
    (sorted : entries.Pairwise fun first second => first.1 < second.1) :
    (create.addAll entries).last = entries.getLast? := by
  cases entries using List.reverseRecOn with
  | nil => rfl
  | append_singleton entries new =>
      have smaller := (List.pairwise_append.mp sorted).2.2
      rw [addAll_concat, List.getLast?_concat]
      exact last_add fun entry member =>
        smaller entry (mem_of_mem_addAll member) new (List.mem_singleton_self new)

end Version

/-- A whole log: the header and the records of growing versions. -/
structure Whole (log : Option ByteString) (minversion : Int) (records : List Entry) :
    Prop where
  bytes : log = some (packI8 minversion ++ records.flatMap record)
  positive : 1 ≤ minversion
  small : minversion < 2 ^ 63
  fits : ∀ entry ∈ records, Fits entry
  sorted : records.Pairwise fun first second => first.1 < second.1

/-- The last version a log holds, or the one before its first. -/
def lastVersion (minversion : Int) (records : List Entry) : Int :=
  match records.getLast? with
  | none => minversion - 1
  | some entry => entry.1

theorem Whole.header {minversion : Int} (positive : 1 ≤ minversion)
    (small : minversion < 2 ^ 63) : Whole (some (packI8 minversion)) minversion [] :=
  ⟨by simp, positive, small, by simp, List.Pairwise.nil⟩

section WholeLogs

variable {log : Option ByteString} {minversion : Int} {records : List Entry}

theorem Whole.lastVersion_range (whole : Whole log minversion records) :
    0 ≤ lastVersion minversion records ∧ lastVersion minversion records < 2 ^ 63 := by
  have positive := whole.positive
  have small := whole.small
  simp only [lastVersion]
  cases last : records.getLast? with
  | none => simp only; omega
  | some entry =>
      have fits := whole.fits entry (List.mem_of_getLast? last)
      have first := fits.positive
      have bound := fits.small
      simp only
      omega

theorem Whole.le_lastVersion (whole : Whole log minversion records) {entry : Entry}
    (member : entry ∈ records) : entry.1 ≤ lastVersion minversion records := by
  cases records using List.reverseRecOn with
  | nil => exact absurd member List.not_mem_nil
  | append_singleton records new =>
      have smaller := (List.pairwise_append.mp whole.sorted).2.2
      simp only [lastVersion, List.getLast?_concat]
      rcases List.mem_append.mp member with old | same
      · exact (smaller entry old new (List.mem_singleton_self new)).le
      · exact (List.mem_singleton.mp same) ▸ le_rfl

theorem Whole.concat (whole : Whole log minversion records) {entry : Entry}
    (fits : Fits entry) (later : lastVersion minversion records < entry.1) :
    Whole (log.map (· ++ record entry)) minversion (records ++ [entry]) := by
  refine ⟨?_, whole.positive, whole.small, ?_, ?_⟩
  · simp [whole.bytes]
  · intro other member
    rcases List.mem_append.mp member with old | same
    · exact whole.fits other old
    · exact (List.mem_singleton.mp same) ▸ fits
  · refine List.pairwise_append.mpr ⟨whole.sorted, List.pairwise_singleton _ _, ?_⟩
    intro old oldIn new newIn
    rw [List.mem_singleton.mp newIn]
    exact lt_of_le_of_lt (whole.le_lastVersion oldIn) later

/-- Reverting to a whole log restores its entries and its last version. -/
theorem revert_of_whole {disk : Path → Option ByteString}
    (whole : Whole (disk .versionPath) minversion records) :
    M.revert disk = .restored ⟨[.openAppend .versionPath],
      ⟨lastVersion minversion records, minversion, Version.create.addAll records⟩⟩ := by
  have size := length_packI8 minversion
  have header : (packI8 minversion ++ records.flatMap record).take 8 = packI8 minversion := by
    rw [← size, List.take_left']
    rfl
  have others : (packI8 minversion ++ records.flatMap record).drop 8 =
      records.flatMap record := by
    rw [← size, List.drop_left']
    rfl
  have notShort : ¬ (packI8 minversion ++ records.flatMap record).length < 8 := by
    rw [List.length_append, size]
    omega
  have lower : -2 ^ 63 ≤ minversion := le_trans (by norm_num) whole.positive
  have before : toInt64 (minversion - 1) = minversion - 1 := by
    have positive := whole.positive
    have small := whole.small
    apply toInt64_of_range <;> omega
  simp only [M.revert, whole.bytes, if_neg notShort, header, others,
    Version.deseri_records _ (fun entry member => (whole.fits entry member).storable),
    Version.last_addAll whole.sorted, toInt_packI8 lower whole.small, before, createIns,
    lastVersion]
  cases records.getLast? <;> rfl

end WholeLogs

end Versions

end LuaServer
