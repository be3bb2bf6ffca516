import LuaServer.VersionCrashSafety
import LuaServer.VersionReader

/-!
# Restarting from the version log

A segment is what is added between two multiples of `FILE_VERSION`.  The log
holds the segment that is not finished, the core the latest version of each of
its keys, and every finished segment has a file of its own.  A restarted process
reads the log back through the same `add`, and lists the files to find the
finished segments.
-/

namespace LuaServer

namespace Versions

open MachineIntegers

/-- `struct Dumpf`. -/
structure Dumpf where
  set_ : KeySorted (id : Int → Int)

namespace Dumpf

/-- A new set of dump files. -/
def create : Dumpf :=
  ⟨KeySorted.empty _⟩

/-- `Dumpf::add`. -/
def add (dumpf : Dumpf) (v : Int) : Dumpf :=
  ⟨dumpf.set_.put v⟩

/-- `Dumpf::find_less`: what stands before `upper_bound(v)`. -/
def findLess (dumpf : Dumpf) (v : Int) : Option Int :=
  (dumpf.set_.elements.filter (· ≤ v)).getLast?

theorem mem_add {dumpf : Dumpf} {v other : Int} :
    other ∈ (dumpf.add v).set_ ↔ other = v ∨ other ∈ dumpf.set_ := by
  rw [add, KeySorted.mem_put]
  simp only [id]
  tauto

/-- The largest number that is not larger. -/
theorem findLess_eq_some {dumpf : Dumpf} {v found : Int} (member : found ∈ dumpf.set_)
    (upTo : found ≤ v) (largest : ∀ other ∈ dumpf.set_, other ≤ v → other ≤ found) :
    dumpf.findLess v = some found := by
  have inFront : found ∈ dumpf.set_.elements.filter (· ≤ v) :=
    List.mem_filter.mpr ⟨member, by simpa using upTo⟩
  have sorted : (dumpf.set_.elements.filter (· ≤ v)).Pairwise (· < ·) :=
    dumpf.set_.sorted.filter _
  rw [findLess]
  cases last : (dumpf.set_.elements.filter (· ≤ v)).getLast? with
  | none =>
      rw [List.getLast?_eq_none_iff] at last
      rw [last] at inFront
      exact absurd inFront List.not_mem_nil
  | some other =>
      obtain ⟨front, split⟩ := List.getLast?_eq_some_iff.mp last
      have otherIn := List.mem_filter.mp (List.mem_of_getLast? last)
      have smaller : other ≤ found := largest other otherIn.1 (by simpa using otherIn.2)
      rw [split] at inFront sorted
      rcases List.mem_append.mp inFront with before | same
      · have less := (List.pairwise_append.mp sorted).2.2 found before other
          (List.mem_singleton_self other)
        omega
      · rw [List.mem_singleton.mp same]

end Dumpf

/-- `tonumber` of a file's name. -/
def Path.tonumber : Path → Option Int
  | .versionPath => none
  | .dump minversion => some minversion

namespace M

/-- `M.get_dump_files`, for the files `ls` lists. -/
def getDumpFiles (listed : List Path) : List Int :=
  (listed.filterMap Path.tonumber).mergeSort fun lhs rhs => lhs ≥ rhs

/-- `M.sort_dump_files`. -/
def sortDumpFiles (listed : List Path) : Dumpf :=
  (getDumpFiles listed).foldl Dumpf.add Dumpf.create

theorem mem_sortDumpFiles {listed : List Path} {v : Int} :
    v ∈ (sortDumpFiles listed).set_ ↔ .dump v ∈ listed := by
  have added : ∀ (files : List Int) (dumpf : Dumpf),
      v ∈ (files.foldl Dumpf.add dumpf).set_ ↔ v ∈ files ∨ v ∈ dumpf.set_ := by
    intro files
    induction files with
    | nil => simp
    | cons file files ih =>
        intro dumpf
        rw [List.foldl_cons, ih, Dumpf.mem_add, List.mem_cons]
        tauto
  have numbered : v ∈ listed.filterMap Path.tonumber ↔ .dump v ∈ listed := by
    rw [List.mem_filterMap]
    constructor
    · rintro ⟨path, member, number⟩
      cases path with
      | versionPath => simp [Path.tonumber] at number
      | dump minversion =>
          obtain rfl : minversion = v := by simpa [Path.tonumber] using number
          exact member
    · exact fun member => ⟨.dump v, member, rfl⟩
  rw [sortDumpFiles, added, getDumpFiles, List.mem_mergeSort, numbered]
  simp [Dumpf.create]

end M

/-- The files, and what a process that runs `M` keeps in its memory. -/
structure Running where
  files : Files Path
  memory : Memory
  dumpfCore : Dumpf

/-- A listing of the directory. -/
def Lists (disk : Path → Option ByteString) (listed : List Path) : Prop :=
  ∀ path, path ∈ listed ↔ (disk path).isSome

/-- `M.init` in a fresh process, with what `ls` lists behind `M.revert`. -/
inductive Starts (files : Files Path) : Running → Prop
  | init (call : Call) (listed : List Path) (reverted : M.init files.disk = some call)
      (lists : Lists (files.performAll call.operations).disk listed) :
      Starts files
        ⟨files.performAll call.operations, call.memory, M.sortDumpFiles listed⟩

/-- `M.add`, which adds to `dumpf_core` in `ins.del`. -/
def Running.add (running : Running) (key : ByteString) : Running :=
  let call := M.add running.memory key
  { files := running.files.performAll call.operations
    memory := call.memory
    dumpfCore :=
      if toInt64 (running.memory.VERSION + 1) % FILE_VERSION = 0 then
        running.dumpfCore.add running.memory.minversion
      else running.dumpfCore }

/-- A run of complete calls that added `keys`, restarted between any of them. -/
inductive CleanRun : List ByteString → Running → Prop
  | start {running : Running} (starts : Starts System.empty.files running) :
      CleanRun [] running
  | add {keys : List ByteString} {running : Running} {key : ByteString}
      (run : CleanRun keys running) (packs : (packS4 key).isSome) :
      CleanRun (keys ++ [key]) (running.add key)
  | restart {keys : List ByteString} {running restarted : Running} (left : Nat)
      (run : CleanRun keys running) (starts : Starts (running.files.crash left) restarted) :
      CleanRun keys restarted

/-- What a run that added `keys` added: the keys with their numbers. -/
def entries : List ByteString → List Entry :=
  fun keys => keys.zipIdx.map fun (key, index) => ((index : Int) + 1, key)

/-- The entries of the segment with the number `k`. -/
def segment (keys : List ByteString) (k : Int) : List Entry :=
  (entries keys).filter fun entry =>
    k * FILE_VERSION < entry.1 ∧ entry.1 ≤ (k + 1) * FILE_VERSION

/-- The first version of a segment. -/
def firstVersion (k : Int) : Int :=
  k * FILE_VERSION + 1

/-- The segment that is not finished, behind all finished ones. -/
def current (keys : List ByteString) : Int :=
  (keys.length : Int) / FILE_VERSION

/-- The entry holds the latest version of its key. -/
def Latest (entries : List Entry) (entry : Entry) : Prop :=
  entry ∈ entries ∧ ∀ other ∈ entries, other.2 = entry.2 → other.1 ≤ entry.1

/-- The file of a segment: the latest version of each of its keys, in the order
of the versions. -/
def DumpOf (segment : List Entry) (bytes : ByteString) : Prop :=
  ∃ dumped : List Entry, bytes = dumped.flatMap record ∧
    (dumped.Pairwise fun first second => first.1 < second.1) ∧
    ∀ entry, entry ∈ dumped ↔ Latest segment entry

/-- What a process knows behind a run that added `keys`. -/
structure Restored (keys : List ByteString) (running : Running) : Prop where
  version : running.memory.VERSION = keys.length
  live : ∀ version key, (version, key) ∈ running.memory.core.versionRawkey_ ↔
    Latest (segment keys (current keys)) (version, key)
  inverse : running.memory.core.Consistent
  dumped : ∀ k, 0 ≤ k → k < current keys →
    ∃ bytes, running.files.disk (.dump (firstVersion k)) = some bytes ∧
      DumpOf (segment keys k) bytes
  found : ∀ k, 0 ≤ k → k < current keys → ∀ v, k * FILE_VERSION < v →
    v ≤ (k + 1) * FILE_VERSION → running.dumpfCore.findLess v = some (firstVersion k)
  restarts : ∀ left, ∃ restarted, Starts (running.files.crash left) restarted

section Segments

variable {keys : List ByteString} {key : ByteString}

theorem entries_concat (keys : List ByteString) (key : ByteString) :
    entries (keys ++ [key]) = entries keys ++ [((keys.length : Int) + 1, key)] := by
  simp [entries, List.zipIdx_append]

theorem version_range {entry : Entry} (member : entry ∈ entries keys) :
    1 ≤ entry.1 ∧ entry.1 ≤ keys.length := by
  simp only [entries, List.mem_map, Prod.exists] at member
  obtain ⟨other, index, inside, rfl⟩ := member
  have less := (List.mem_zipIdx inside).2.1
  simp only
  omega

theorem sorted_entries (keys : List ByteString) :
    (entries keys).Pairwise fun first second => first.1 < second.1 := by
  induction keys using List.reverseRecOn with
  | nil => exact List.Pairwise.nil
  | append_singleton keys key ih =>
      rw [entries_concat]
      refine List.pairwise_append.mpr ⟨ih, List.pairwise_singleton _ _, ?_⟩
      intro entry member last same
      have upTo := (version_range member).2
      rw [List.mem_singleton.mp same]
      simp only
      omega

theorem sorted_segment (keys : List ByteString) (k : Int) :
    (segment keys k).Pairwise fun first second => first.1 < second.1 :=
  (sorted_entries keys).filter _

theorem segment_concat (keys : List ByteString) (key : ByteString) (k : Int) :
    segment (keys ++ [key]) k =
      segment keys k ++ if k = current keys then [((keys.length : Int) + 1, key)] else [] := by
  have inside : (k * FILE_VERSION < (keys.length : Int) + 1 ∧
      (keys.length : Int) + 1 ≤ (k + 1) * FILE_VERSION) ↔ k = current keys := by
    simp only [current, FILE_VERSION]
    omega
  rw [segment, entries_concat, List.filter_append]
  congr 1
  by_cases here : k = current keys
  · rw [if_pos here, List.filter_cons_of_pos (by simpa using inside.mpr here)]
    rfl
  · rw [if_neg here, List.filter_cons_of_neg]
    · rfl
    · simpa using fun less upTo => here (inside.mp ⟨less, upTo⟩)

theorem segment_eq_nil {k : Int} (behind : (keys.length : Int) ≤ k * FILE_VERSION) :
    segment keys k = [] := by
  rw [segment, List.filter_eq_nil_iff]
  intro entry member
  have upTo := (version_range member).2
  simp only [decide_eq_true_eq, not_and]
  omega

theorem current_concat (keys : List ByteString) (key : ByteString) :
    current (keys ++ [key]) =
      if ((keys.length : Int) + 1) % FILE_VERSION = 0 then current keys + 1 else current keys := by
  have length : ((keys ++ [key]).length : Int) = (keys.length : Int) + 1 := by simp
  rw [current, current, length]
  by_cases rotates : ((keys.length : Int) + 1) % FILE_VERSION = 0
  · rw [if_pos rotates]
    simp only [FILE_VERSION] at rotates ⊢
    omega
  · rw [if_neg rotates]
    simp only [FILE_VERSION] at rotates ⊢
    omega

end Segments

namespace Version

variable {records : List Entry}

/-- The core behind entries of growing versions: its two maps agree, and it holds
the latest version of each key. -/
theorem mem_addAll (sorted : records.Pairwise fun first second => first.1 < second.1) :
    (create.addAll records).Consistent ∧
      ∀ entry, entry ∈ (create.addAll records).versionRawkey_ ↔ Latest records entry := by
  induction records using List.reverseRecOn with
  | nil =>
      refine ⟨consistent_create, fun entry => ?_⟩
      simp [addAll, create, Latest]
  | append_singleton records new ih =>
      obtain ⟨oldSorted, -, smaller⟩ := List.pairwise_append.mp sorted
      obtain ⟨consistent, members⟩ := ih oldSorted
      have less : ∀ entry ∈ records, entry.1 < new.1 :=
        fun entry member => smaller entry member new (List.mem_singleton_self new)
      have unused : ∀ other, (new.1, other) ∉ (create.addAll records).versionRawkey_ := by
        intro other member
        exact lt_irrefl new.1 (less (new.1, other) (mem_of_mem_addAll member))
      rw [addAll_concat]
      refine ⟨consistent.add unused, fun entry => ?_⟩
      rw [mem_add consistent unused, members]
      simp only [Latest, List.mem_append, List.mem_singleton]
      constructor
      · rintro (rfl | ⟨⟨member, latest⟩, other⟩)
        · refine ⟨Or.inr rfl, ?_⟩
          rintro before (old | rfl) -
          · exact (less before old).le
          · exact le_rfl
        · refine ⟨Or.inl member, ?_⟩
          rintro before (old | rfl) same
          · exact latest before old same
          · exact absurd same.symm other
      · rintro ⟨member | rfl, latest⟩
        · refine Or.inr ⟨⟨member, fun before old => latest before (Or.inl old)⟩, ?_⟩
          intro same
          have notLess := latest new (Or.inr rfl) same.symm
          exact absurd (less entry member) (not_lt.mpr notLess)
        · exact Or.inl rfl

theorem seri_eq_records (ver : Version) :
    ver.seri = ver.versionRawkey_.elements.flatMap record :=
  rfl

end Version

/-- What the calls preserve. -/
structure Ordered (keys : List ByteString) (running : Running) : Prop where
  opened : running.files.opened = some (.versionPath, [])
  log : Whole (running.files.disk .versionPath) (firstVersion (current keys))
    (segment keys (current keys))
  memory : running.memory = ⟨keys.length, firstVersion (current keys),
    Version.create.addAll (segment keys (current keys))⟩
  files : ∀ minversion, (running.files.disk (.dump minversion)).isSome →
    ∃ k, 0 ≤ k ∧ k < current keys ∧ minversion = firstVersion k
  dumps : ∀ k, 0 ≤ k → k < current keys → running.files.disk (.dump (firstVersion k)) =
    some (Version.create.addAll (segment keys k)).seri
  dumpf : ∀ minversion, minversion ∈ running.dumpfCore.set_ ↔
    ∃ k, 0 ≤ k ∧ k < current keys ∧ minversion = firstVersion k

theorem dumpOf_seri {records : List Entry}
    (sorted : records.Pairwise fun first second => first.1 < second.1) :
    DumpOf records (Version.create.addAll records).seri :=
  ⟨_, Version.seri_eq_records _, (Version.create.addAll records).versionRawkey_.sorted,
    (Version.mem_addAll sorted).2⟩

section Steps

variable {keys : List ByteString} {running : Running}

/-- A log that ends with the number of adds. -/
theorem lastVersion_segment (keys : List ByteString) :
    lastVersion (firstVersion (current keys)) (segment keys (current keys)) = keys.length := by
  induction keys using List.reverseRecOn with
  | nil => rfl
  | append_singleton keys key =>
      rw [current_concat]
      have length : ((keys ++ [key]).length : Int) = (keys.length : Int) + 1 := by simp
      split
      next rotates =>
        simp only [FILE_VERSION] at rotates
        have empty : segment (keys ++ [key]) (current keys + 1) = [] := by
          apply segment_eq_nil
          rw [length]
          simp only [current, FILE_VERSION]
          omega
        rw [empty, length]
        simp only [lastVersion, List.getLast?_nil, firstVersion, current, FILE_VERSION]
        omega
      next =>
        rw [segment_concat, if_pos rfl, lastVersion, List.getLast?_concat, length]

theorem current_nonneg (keys : List ByteString) : 0 ≤ current keys := by
  simp only [current, FILE_VERSION]
  omega

/-- What a fresh process does behind any end of the one before it. -/
theorem Ordered.reverts (ordered : Ordered keys running) (left : Nat) :
    M.init (running.files.crash left).disk =
        some ⟨[.openAppend .versionPath], running.memory⟩ ∧
      ((running.files.crash left).performAll [.openAppend .versionPath]).disk =
        running.files.disk := by
  obtain ⟨opened, log, memory, -, -, -⟩ := ordered
  have disk : (running.files.crash left).disk = running.files.disk := by
    funext path
    cases path with
    | versionPath => simp [Files.crash, opened, log.bytes]
    | dump minversion => simp [Files.crash, opened, Files.append]
  constructor
  · rw [disk, init_of_whole log, memory, lastVersion_segment]
  · funext path
    cases path with
    | versionPath => simp [Files.perform, disk, log.bytes]
    | dump minversion => simp [Files.perform, disk, Files.append]

/-- A fresh process reads the log back and finds the dumped files. -/
theorem Ordered.restart (ordered : Ordered keys running) (left : Nat) {restarted : Running}
    (starts : Starts (running.files.crash left) restarted) : Ordered keys restarted := by
  obtain ⟨init, same⟩ := ordered.reverts left
  obtain ⟨call, listed, reverted, lists⟩ := starts
  rw [init, Option.some.injEq] at reverted
  subst reverted
  refine ⟨rfl, by rw [same]; exact ordered.log, ordered.memory, ?_, ?_, ?_⟩
  · rw [same]
    exact ordered.files
  · rw [same]
    exact ordered.dumps
  · intro minversion
    rw [M.mem_sortDumpFiles, lists, same]
    constructor
    · exact ordered.files minversion
    · rintro ⟨k, lower, upper, rfl⟩
      rw [ordered.dumps k lower upper]
      rfl

theorem ordered_start (starts : Starts System.empty.files running) : Ordered [] running := by
  obtain ⟨call, listed, reverted, lists⟩ := starts
  rw [init_of_short (by simp [System.empty]), Option.some.injEq] at reverted
  subst reverted
  obtain ⟨opened, header⟩ := performAll_createIns System.empty.files 1
  have noDumps : ∀ minversion, (System.empty.files.performAll
      (M.createIns 1).operations).disk (.dump minversion) = none := by
    intro minversion
    simp [M.createIns, createIns, Files.perform, Files.append, System.empty]
  have first : current [] = 0 := rfl
  refine ⟨opened, ?_, rfl, ?_, ?_, ?_⟩
  · rw [header]
    exact Whole.header (by norm_num) (by norm_num)
  · intro minversion dumped
    rw [noDumps] at dumped
    exact absurd dumped Bool.false_ne_true
  · intro k lower upper
    omega
  · intro minversion
    rw [M.mem_sortDumpFiles, lists, noDumps, first]
    simp only [Option.isSome_none, Bool.false_eq_true, false_iff]
    rintro ⟨k, lower, upper, -⟩
    omega

theorem disk_rotation {files : Files Path}
    (opened : files.opened = some (.versionPath, [])) (ins : Memory) (minversion other : Int) :
    (files.performAll (ins.del ++ (M.createIns minversion).operations)).disk (.dump other) =
      if other = ins.minversion then some ins.core.seri else files.disk (.dump other) := by
  split
  next same =>
    simp [same, Memory.del, Memory.genFile, M.createIns, createIns, Files.perform,
      Files.append, opened]
  next different =>
    simp [Memory.del, Memory.genFile, M.createIns, createIns, Files.perform, Files.append,
      opened, different]

theorem disk_record {files : Files Path} (opened : files.opened = some (.versionPath, []))
    (version : Int) (key : ByteString) (other : Int) :
    (files.performAll [.write (packI8 version),
      .write (LittleEndian.ofNat 4 key.length ++ key), .flush]).disk (.dump other) =
      files.disk (.dump other) := by
  simp [Files.perform, Files.append, opened]

/-- The files and the memory behind a call. -/
theorem add_spec (ordered : Ordered keys running) {key : ByteString}
    (short : key.length < 2 ^ 32) (small : (keys.length : Int) + 1 < 2 ^ 63) :
    running.add key =
      if ((keys.length : Int) + 1) % FILE_VERSION = 0 then
        { files := (running.files.performAll [.write (packI8 (keys.length + 1)),
              .write (LittleEndian.ofNat 4 key.length ++ key), .flush]).performAll
            (Memory.del ⟨keys.length + 1, firstVersion (current keys),
                (Version.create.addAll (segment keys (current keys))).add key
                  (keys.length + 1)⟩ ++
              (M.createIns (keys.length + 1 + 1)).operations)
          memory := ⟨keys.length + 1, keys.length + 1 + 1, Version.create⟩
          dumpfCore := running.dumpfCore.add (firstVersion (current keys)) }
      else
        { running with
          files := running.files.performAll [.write (packI8 (keys.length + 1)),
            .write (LittleEndian.ofNat 4 key.length ++ key), .flush]
          memory := ⟨keys.length + 1, firstVersion (current keys),
            (Version.create.addAll (segment keys (current keys))).add key
              (keys.length + 1)⟩ } := by
  have next : toInt64 ((keys.length : Int) + 1) = keys.length + 1 :=
    toInt64_of_range (by omega) small
  simp only [Running.add, ordered.memory, M.add, next, packS4, if_pos short]
  by_cases rotates : ((keys.length : Int) + 1) % FILE_VERSION = 0
  · have above : toInt64 ((keys.length : Int) + 1 + 1) = keys.length + 1 + 1 := by
      -- A multiple of a thousand is not the last number below the bound.
      simp only [FILE_VERSION] at rotates
      apply toInt64_of_range <;> omega
    simp only [if_pos rotates, above, Files.performAll_append, M.createIns, createIns,
      add_sub_cancel_right, next]
  · simp only [if_neg rotates]

theorem segment_concat_of_ne {key : ByteString} {k : Int} (other : k ≠ current keys) :
    segment (keys ++ [key]) k = segment keys k := by
  rw [segment_concat, if_neg other, List.append_nil]

theorem addAll_segment_concat (keys : List ByteString) (key : ByteString) :
    Version.create.addAll (segment (keys ++ [key]) (current keys)) =
      (Version.create.addAll (segment keys (current keys))).add key (keys.length + 1) := by
  rw [segment_concat, if_pos rfl, Version.addAll_concat]

/-- A call that does not finish the segment logs its record. -/
theorem Ordered.record (ordered : Ordered keys running) {key : ByteString}
    (short : key.length < 2 ^ 32) (small : (keys.length : Int) + 1 < 2 ^ 63)
    (goesOn : ((keys.length : Int) + 1) % FILE_VERSION ≠ 0) :
    Ordered (keys ++ [key]) (running.add key) := by
  have same : current (keys ++ [key]) = current keys := by
    rw [current_concat, if_neg goesOn]
  have length : ((keys ++ [key]).length : Int) = (keys.length : Int) + 1 := by simp
  rw [add_spec ordered short small, if_neg goesOn]
  obtain ⟨opened, log, memory, files, dumps, dumpf⟩ := ordered
  obtain ⟨stillOpened, recorded⟩ :=
    performAll_record opened log.bytes ((keys.length : Int) + 1) key
  have kept := disk_record opened ((keys.length : Int) + 1) key
  have fits : Fits ((keys.length : Int) + 1, key) := ⟨by simp only; omega, small, short⟩
  have later : lastVersion (firstVersion (current keys)) (segment keys (current keys)) <
      (keys.length : Int) + 1 := by
    rw [lastVersion_segment]
    omega
  refine ⟨stillOpened, ?_, ?_, ?_, ?_, ?_⟩
  · rw [recorded, same, segment_concat, if_pos rfl]
    simpa [log.bytes] using log.concat fits later
  · simp only [length, same, addAll_segment_concat]
  · intro minversion dumped
    rw [kept] at dumped
    rw [same]
    exact files minversion dumped
  · intro k lower upper
    rw [same] at upper
    rw [kept, dumps k lower upper, segment_concat_of_ne (by omega)]
  · rw [same]
    exact dumpf

/-- A call that finishes the segment dumps it and starts the log over. -/
theorem Ordered.finish (ordered : Ordered keys running) {key : ByteString}
    (short : key.length < 2 ^ 32) (small : (keys.length : Int) + 1 < 2 ^ 63)
    (rotates : ((keys.length : Int) + 1) % FILE_VERSION = 0) :
    Ordered (keys ++ [key]) (running.add key) := by
  have next : current (keys ++ [key]) = current keys + 1 := by
    rw [current_concat, if_pos rotates]
  have length : ((keys ++ [key]).length : Int) = (keys.length : Int) + 1 := by simp
  have first : (keys.length : Int) + 1 + 1 = firstVersion (current (keys ++ [key])) := by
    rw [next]
    simp only [firstVersion, current, FILE_VERSION] at rotates ⊢
    omega
  have fresh : segment (keys ++ [key]) (current (keys ++ [key])) = [] := by
    apply segment_eq_nil
    rw [length]
    simp only [firstVersion] at first
    omega
  have firstOf : ∀ k, firstVersion k = firstVersion (current keys) ↔ k = current keys := by
    intro k
    simp only [firstVersion, FILE_VERSION]
    omega
  have lower := current_nonneg keys
  rw [add_spec ordered short small, if_pos rotates]
  obtain ⟨opened, log, memory, files, dumps, dumpf⟩ := ordered
  obtain ⟨stillOpened, -⟩ := performAll_record opened log.bytes ((keys.length : Int) + 1) key
  have kept := disk_record opened ((keys.length : Int) + 1) key
  have rotated := disk_rotation stillOpened ⟨keys.length + 1, firstVersion (current keys),
    (Version.create.addAll (segment keys (current keys))).add key (keys.length + 1)⟩
    (keys.length + 1 + 1)
  refine ⟨?_, ?_, ?_, ?_, ?_, ?_⟩
  · rw [Files.performAll_append]
    exact (performAll_createIns _ _).1
  · rw [Files.performAll_append, (performAll_createIns _ _).2, fresh, ← first]
    apply Whole.header
    · omega
    · simp only [FILE_VERSION] at rotates
      omega
  · simp only [length, fresh, ← first]
    rfl
  · intro minversion dumped
    rw [rotated] at dumped
    split at dumped
    next same => exact ⟨current keys, lower, by omega, same⟩
    next =>
      rw [kept] at dumped
      obtain ⟨k, notNegative, less, same⟩ := files minversion dumped
      exact ⟨k, notNegative, by omega, same⟩
  · intro k notNegative less
    rw [rotated]
    by_cases here : k = current keys
    · rw [here, if_pos rfl, addAll_segment_concat]
    · rw [if_neg (fun same => here ((firstOf k).mp same)), kept,
        dumps k notNegative (by omega), segment_concat_of_ne here]
  · intro minversion
    rw [Dumpf.mem_add, dumpf, next]
    constructor
    · rintro (rfl | ⟨k, notNegative, less, same⟩)
      · exact ⟨current keys, lower, by omega, rfl⟩
      · exact ⟨k, notNegative, by omega, same⟩
    · rintro ⟨k, notNegative, less, rfl⟩
      by_cases here : k = current keys
      · exact Or.inl (by rw [here])
      · exact Or.inr ⟨k, notNegative, by omega, rfl⟩

theorem Ordered.add (ordered : Ordered keys running) {key : ByteString}
    (packs : (packS4 key).isSome) (small : (keys.length : Int) + 1 < 2 ^ 63) :
    Ordered (keys ++ [key]) (running.add key) := by
  have short : key.length < 2 ^ 32 := by simpa [packS4] using packs
  by_cases rotates : ((keys.length : Int) + 1) % FILE_VERSION = 0
  · exact ordered.finish short small rotates
  · exact ordered.record short small rotates

/-- The directory can be listed, and a fresh process starts. -/
theorem Ordered.exists_starts (ordered : Ordered keys running) (left : Nat) :
    ∃ restarted, Starts (running.files.crash left) restarted := by
  obtain ⟨init, same⟩ := ordered.reverts left
  let listed : List Path := .versionPath ::
    (List.range (current keys).toNat).map fun k : Nat => .dump (firstVersion (k : Int))
  refine ⟨_, .init _ listed init ?_⟩
  rw [same]
  intro path
  cases path with
  | versionPath => simp [listed, ordered.log.bytes]
  | dump minversion =>
      simp only [listed, List.mem_cons, reduceCtorEq, List.mem_map, List.mem_range,
        Path.dump.injEq, false_or]
      constructor
      · rintro ⟨k, less, rfl⟩
        rw [ordered.dumps k (by omega) (by omega)]
        rfl
      · intro dumped
        obtain ⟨k, lower, upper, rfl⟩ := ordered.files minversion dumped
        exact ⟨k.toNat, by omega, by rw [Int.toNat_of_nonneg lower]⟩

theorem CleanRun.ordered (run : CleanRun keys running) (small : (keys.length : Int) < 2 ^ 63) :
    Ordered keys running := by
  induction run with
  | start starts => exact ordered_start starts
  | @add keys running key run packs ih =>
      rw [List.length_append, List.length_singleton] at small
      push_cast at small
      exact (ih (by omega)).add packs small
  | restart left run starts ih => exact (ih small).restart left starts

theorem Ordered.restored (ordered : Ordered keys running) : Restored keys running := by
  obtain ⟨consistent, members⟩ :=
    Version.mem_addAll (sorted_segment keys (current keys))
  refine ⟨?_, ?_, ?_, ?_, ?_, ordered.exists_starts⟩
  · rw [ordered.memory]
  · intro version key
    rw [ordered.memory]
    exact members (version, key)
  · rw [ordered.memory]
    exact consistent
  · intro k lower upper
    exact ⟨_, ordered.dumps k lower upper, dumpOf_seri (sorted_segment keys k)⟩
  · intro k lower upper v behind upTo
    apply Dumpf.findLess_eq_some
    · exact (ordered.dumpf _).mpr ⟨k, lower, upper, rfl⟩
    · simp only [firstVersion]
      omega
    · intro other member less
      obtain ⟨otherK, -, -, rfl⟩ := (ordered.dumpf other).mp member
      simp only [firstVersion, FILE_VERSION] at behind upTo less ⊢
      omega

/-- In every run of complete calls from an empty directory, restarted between any
of them, `VERSION` is the number of adds, the core holds the latest versions of
the current segment in both directions, every finished segment has its file with
its latest versions in order, and `find_less` names that file. -/
theorem clean_restarts (run : CleanRun keys running) (small : (keys.length : Int) < 2 ^ 63) :
    Restored keys running :=
  (run.ordered small).restored

/-- Two adds, a restart and another add. -/
theorem clean_restarts_again : ∃ running, CleanRun [[97], [98], [97]] running ∧
    Restored [[97], [98], [97]] running := by
  have init : M.init System.empty.files.disk = some (M.createIns 1) :=
    init_of_short (by simp [System.empty])
  have lists : Lists (System.empty.files.performAll (M.createIns 1).operations).disk
      [.versionPath] := by
    intro path
    cases path <;> simp [M.createIns, createIns, Files.perform, Files.append, System.empty]
  have start : CleanRun [] _ := .start (.init _ _ init lists)
  have first : CleanRun [[97]] _ := .add start rfl
  have second : CleanRun [[97], [98]] _ := .add first rfl
  obtain ⟨restarted, starts⟩ := (clean_restarts second (by decide)).restarts 0
  have third : CleanRun [[97], [98], [97]] _ := .add (.restart 0 second starts) rfl
  exact ⟨_, third, clean_restarts third (by decide)⟩

end Steps

end Versions

end LuaServer
