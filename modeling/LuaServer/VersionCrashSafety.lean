import LuaServer.VersionRecords

/-!
# Version numbers across crashes

A crash may tear the record being logged, and between opening the log for
writing and closing it the log has no whole header.  As long as no crash falls
there, the log is whole whenever the process is down, and a restarted process
continues behind all versions whose records have reached the log.
-/

namespace LuaServer

namespace Versions

open MachineIntegers

/-- What must hold of a process at any time. -/
structure Survives (system : System) : Prop where
  inside : ∀ memory, system.process = .up memory →
    (∀ entry ∈ memory.core.versionRawkey_, entry ∈ system.added) ∧
      ∀ version ∈ system.durable, version ≤ memory.VERSION
  reverts : system.process ≠ .broken
  distinct : system.durable.Nodup

/-- A crash in `M.add` that tears nothing: no part of the record has reached the
log, or all of it has and the log is not being started over. -/
def TearsNothing (version : Int) (key : ByteString) (done left : Nat) : Prop :=
  (done = 0 ∨ done ≤ 2 ∧ left = 0) ∨
    Records key done left ∧ version < 2 ^ 63 ∧
      (version % FILE_VERSION = 0 → done ≠ 8 ∧ (done = 9 → 8 ≤ left))

/-- The steps that keep the log whole. -/
def Spares (system : System) : SystemEvent → Prop
  | .add key => ∀ memory, system.process = .up memory →
      key.length < 2 ^ 32 ∧ memory.VERSION + 1 < 2 ^ 63
  | .addCrash key done left => ∀ memory, system.process = .up memory →
      TearsNothing (memory.VERSION + 1) key done left
  | _ => True

/-- The log is whole, its records were added, and it ends with `last`, which no
durable version exceeds. -/
def Kept (log : Option ByteString) (added : List Entry) (durable : List Int)
    (last : Int) : Prop :=
  ∃ minversion records, Whole log minversion records ∧ lastVersion minversion records = last ∧
    (∀ entry ∈ records, entry ∈ added) ∧ ∀ version ∈ durable, version ≤ last

/-- A log a process can start from. -/
def Restartable (log : Option ByteString) (added : List Entry) (durable : List Int) : Prop :=
  (log.getD []).length < 8 ∧ durable = [] ∨ ∃ last, Kept log added durable last

/-- What the steps preserve. -/
structure Sound (system : System) : Prop where
  increasing : system.durable.Pairwise (· < ·)
  process :
    match system.process with
    | .down => system.files.opened = none ∧
        Restartable (system.files.disk .versionPath) system.added system.durable
    | .up memory => system.files.opened = some (.versionPath, []) ∧
        Kept (system.files.disk .versionPath) system.added system.durable memory.VERSION ∧
        ∀ entry ∈ memory.core.versionRawkey_, entry ∈ system.added
    | .broken => False

theorem Sound.survives {system : System} (sound : Sound system) : Survives system := by
  obtain ⟨increasing, process⟩ := sound
  refine ⟨?_, ?_, increasing.imp fun less => ne_of_lt less⟩
  · intro memory up
    rw [up] at process
    obtain ⟨-, ⟨minversion, records, -, -, -, upTo⟩, live⟩ := process
    exact ⟨live, upTo⟩
  · intro broken
    rw [broken] at process
    exact process

section Logs

variable {log : Option ByteString} {added : List Entry} {durable : List Int} {last : Int}

theorem Kept.widen (kept : Kept log added durable last) (entry : Entry) :
    Kept log (added ++ [entry]) durable last := by
  obtain ⟨minversion, records, whole, ends, sound, upTo⟩ := kept
  exact ⟨minversion, records, whole, ends,
    fun entry member => List.mem_append_left _ (sound entry member), upTo⟩

theorem Kept.last_range (kept : Kept log added durable last) : 0 ≤ last ∧ last < 2 ^ 63 := by
  obtain ⟨minversion, records, whole, rfl, -⟩ := kept
  exact whole.lastVersion_range

theorem Kept.exists_log (kept : Kept log added durable last) : ∃ bytes, log = some bytes := by
  obtain ⟨minversion, records, whole, -⟩ := kept
  exact ⟨_, whole.bytes⟩

/-- A log that starts over keeps what is durable. -/
theorem kept_header {minversion : Int} (positive : 1 ≤ minversion)
    (small : minversion < 2 ^ 63) (upTo : ∀ version ∈ durable, version < minversion) :
    Kept (some (packI8 minversion)) added durable (minversion - 1) :=
  ⟨minversion, [], Whole.header positive small, rfl, by simp, fun version member => by
    have less := upTo version member
    omega⟩

theorem Kept.start_over (kept : Kept log added durable last)
    (rotates : last % FILE_VERSION = 0) :
    Kept (some (packI8 (toInt64 (last + 1)))) added durable last := by
  have range := kept.last_range
  obtain ⟨-, -, -, -, -, upTo⟩ := kept
  have small : last + 1 < 2 ^ 63 := by
    -- A multiple of a thousand is not the last number below the bound.
    simp only [FILE_VERSION] at rotates
    omega
  rw [toInt64_of_range (by omega) small]
  have header : Kept (some (packI8 (last + 1))) added durable (last + 1 - 1) :=
    kept_header (by omega) small fun version member => Int.lt_add_one_of_le (upTo version member)
  rwa [add_sub_cancel_right] at header

theorem Kept.record (kept : Kept log added durable last) {key : ByteString}
    (short : key.length < 2 ^ 32) (small : last + 1 < 2 ^ 63) :
    Kept (log.map (· ++ record (last + 1, key))) (added ++ [(last + 1, key)])
      (durable ++ [last + 1]) (last + 1) := by
  have range := kept.last_range
  obtain ⟨minversion, records, whole, rfl, sound, upTo⟩ := kept
  have fits : Fits (lastVersion minversion records + 1, key) := ⟨by simp only; omega, small, short⟩
  refine ⟨minversion, records ++ [_], whole.concat fits (lt_add_one _), ?_, ?_, ?_⟩
  · simp [lastVersion]
  · intro entry member
    exact (List.mem_append.mp member).elim
      (fun old => List.mem_append_left _ (sound entry old)) (List.mem_append_right added)
  · intro version member
    rcases List.mem_append.mp member with old | same
    · have earlier := upTo version old
      omega
    · exact (List.mem_singleton.mp same) ▸ le_rfl

end Logs

section Crashes

variable {files : Files Path}

/-- The log behind a crash while it is started over. -/
theorem log_createIns_crash (elsewhere : Files.Elsewhere .versionPath files)
    (minversion : Int) (done left : Nat) :
    ((files.performAll ((M.createIns minversion).operations.take done)).crash left).disk
        .versionPath =
      match done with
      | 0 => files.disk .versionPath
      | 1 => some []
      | 2 => some ((packI8 minversion).take left)
      | _ + 3 => some (packI8 minversion) := by
  match done with
  | 0 => exact elsewhere.crash left
  | 1 => simp [M.createIns, Files.perform, Files.crash]
  | 2 => simp [M.createIns, Files.perform, Files.crash]
  | 3 => simp [M.createIns, Files.perform, Files.crash]
  | _ + 4 => simp [M.createIns, createIns, Files.perform, Files.crash]

theorem performAll_createIns (files : Files Path) (minversion : Int) :
    (files.performAll (M.createIns minversion).operations).opened = some (.versionPath, []) ∧
      (files.performAll (M.createIns minversion).operations).disk .versionPath =
        some (packI8 minversion) := by
  simp [M.createIns, createIns, Files.perform]

theorem elsewhere_del {log : ByteString} (opened : files.opened = some (.versionPath, []))
    (logged : files.disk .versionPath = some log) (ins : Memory) (done : Nat) :
    Files.Elsewhere .versionPath (files.performAll (ins.del.take (done + 1))) ∧
      (files.performAll (ins.del.take (done + 1))).disk .versionPath = some log := by
  rw [Memory.del, List.take_succ_cons, Files.performAll_cons]
  have closed : (files.perform .close).opened = none := by simp [Files.perform, opened]
  have same : (files.perform .close).disk .versionPath = some log := by
    simp [Files.perform, opened, logged]
  rw [← same]
  apply (Files.elsewhere_of_closed closed).performAll
  intro operation member
  have dumps := List.mem_of_mem_take member
  simp only [Memory.genFile, List.mem_cons, List.not_mem_nil, or_false] at dumps
  rcases dumps with rfl | rfl | rfl <;> simp [Files.Avoids]

/-- The log behind a crash while it is rotated. -/
theorem log_rotation_crash {log : ByteString}
    (opened : files.opened = some (.versionPath, []))
    (logged : files.disk .versionPath = some log) (ins : Memory) (minversion : Int)
    (done left : Nat) :
    ((files.performAll ((ins.del ++ (M.createIns minversion).operations).take done)).crash
        left).disk .versionPath =
      match done with
      | 0 | 1 | 2 | 3 | 4 => some log
      | 5 => some []
      | 6 => some ((packI8 minversion).take left)
      | _ + 7 => some (packI8 minversion) := by
  have size : ins.del.length = 4 := rfl
  rw [List.take_append, Files.performAll_append, size]
  cases done with
  | zero => simp [Files.crash, opened, logged]
  | succ done =>
      obtain ⟨elsewhere, same⟩ := elsewhere_del opened logged ins done
      rw [log_createIns_crash elsewhere, same]
      rcases done with _ | _ | _ | _ | _ | _ | done <;> rfl

/-- The log behind a crash that leaves nothing of the record. -/
theorem log_add_crash_lost {log : ByteString}
    (opened : files.opened = some (.versionPath, []))
    (logged : files.disk .versionPath = some log) (memory : Memory) (key : ByteString)
    {done left : Nat} (lost : done = 0 ∨ done ≤ 2 ∧ left = 0) :
    ((files.performAll ((M.add memory key).operations.take done)).crash left).disk
        .versionPath = some log := by
  cases done with
  | zero => simp [Files.crash, opened, logged]
  | succ done =>
      obtain ⟨few, rfl⟩ : done + 1 ≤ 2 ∧ left = 0 := lost.resolve_left (Nat.succ_ne_zero done)
      have buffered : ∃ data,
          (files.performAll ((M.add memory key).operations.take (done + 1))).disk = files.disk ∧
            (files.performAll ((M.add memory key).operations.take (done + 1))).opened =
              some (.versionPath, data) := by
        have atMostOne : done = 0 ∨ done = 1 := by omega
        rcases atMostOne with rfl | rfl
        all_goals
          simp only [M.add]
          split
          · simp [Files.perform, opened]
          · split <;> simp [Files.perform, opened]
      obtain ⟨data, sameDisk, stillOpened⟩ := buffered
      simp [Files.crash, stillOpened, sameDisk, logged]

theorem operations_add (memory : Memory) {key : ByteString} (short : key.length < 2 ^ 32)
    {version : Int} (next : toInt64 (memory.VERSION + 1) = version) :
    (M.add memory key).operations =
      [.write (packI8 version), .write (LittleEndian.ofNat 4 key.length ++ key), .flush] ++
        if version % FILE_VERSION = 0 then
          { memory with VERSION := version, core := memory.core.add key version }.del ++
            (M.createIns (toInt64 (version + 1))).operations
        else [] := by
  subst next
  simp only [M.add, packS4, if_pos short]
  split <;> rfl

theorem performAll_record {log : ByteString}
    (opened : files.opened = some (.versionPath, []))
    (logged : files.disk .versionPath = some log) (version : Int) (key : ByteString) :
    let flushed := files.performAll
      [.write (packI8 version), .write (LittleEndian.ofNat 4 key.length ++ key), .flush]
    flushed.opened = some (.versionPath, []) ∧
      flushed.disk .versionPath = some (log ++ record (version, key)) := by
  simp [Files.perform, opened, logged, record]

theorem performAll_add {log : ByteString} (opened : files.opened = some (.versionPath, []))
    (logged : files.disk .versionPath = some log) (memory : Memory) {key : ByteString}
    (short : key.length < 2 ^ 32) {version : Int}
    (next : toInt64 (memory.VERSION + 1) = version) :
    (files.performAll (M.add memory key).operations).opened = some (.versionPath, []) ∧
      (files.performAll (M.add memory key).operations).disk .versionPath =
        if version % FILE_VERSION = 0 then some (packI8 (toInt64 (version + 1)))
        else some (log ++ record (version, key)) := by
  rw [operations_add memory short next, Files.performAll_append]
  split
  · rw [Files.performAll_append]
    exact performAll_createIns _ (toInt64 (version + 1))
  · exact performAll_record opened logged version key

/-- The log behind a crash that leaves the record. -/
theorem log_add_crash_recorded {log : ByteString}
    (opened : files.opened = some (.versionPath, []))
    (logged : files.disk .versionPath = some log) (memory : Memory) {key : ByteString}
    {version : Int} (next : toInt64 (memory.VERSION + 1) = version)
    {done left : Nat} (records : Records key done left) :
    ((files.performAll ((M.add memory key).operations.take done)).crash left).disk
        .versionPath =
      if version % FILE_VERSION = 0 then
        match done with
        | 8 => some []
        | 9 => some ((packI8 (toInt64 (version + 1))).take left)
        | _ + 10 => some (packI8 (toInt64 (version + 1)))
        | _ => some (log ++ record (version, key))
      else some (log ++ record (version, key)) := by
  obtain ⟨short, reached⟩ := records
  rw [operations_add memory short next]
  rcases done with _ | _ | _ | done
  · omega
  · omega
  · have whole : 12 + key.length ≤ left := by omega
    have all : (record (version, key)).take left = record (version, key) :=
      List.take_of_length_le (by rw [length_record]; exact whole)
    simpa [Files.perform, Files.crash, opened, logged, record] using all
  · obtain ⟨stillOpened, appended⟩ := performAll_record opened logged version key
    rw [List.take_append, Files.performAll_append,
      List.take_of_length_le (by simp)]
    simp only [List.length_cons, List.length_nil]
    split
    · rw [log_rotation_crash stillOpened appended]
      rcases done with _ | _ | _ | _ | _ | _ | _ | done <;> rfl
    · rw [List.take_nil, Files.performAll_nil, Files.crash_disk_of_opened stillOpened,
        appended, List.take_nil, Option.getD_some, List.append_nil]

end Crashes

section Restarts

variable {disk : Path → Option ByteString} {added : List Entry} {durable : List Int}

theorem init_of_short (short : ((disk .versionPath).getD []).length < 8) :
    M.init disk = some (M.createIns 1) := by
  simp only [M.init, M.revert]
  cases log : disk .versionPath with
  | none => rfl
  | some str => simp_all

theorem init_of_whole {minversion : Int} {records : List Entry}
    (whole : Whole (disk .versionPath) minversion records) :
    M.init disk = some ⟨[.openAppend .versionPath],
      ⟨lastVersion minversion records, minversion, Version.create.addAll records⟩⟩ := by
  rw [M.init, revert_of_whole whole]

/-- The log of a process that was not started or is started over. -/
theorem restartable_of_header {log : Option ByteString} (left : Nat)
    (cut : log = some ((packI8 1).take left)) : Restartable log added [] := by
  subst cut
  by_cases few : left < 8
  · refine Or.inl ⟨?_, rfl⟩
    rw [Option.getD_some, List.length_take]
    omega
  · have all : (packI8 1).take left = packI8 1 :=
      List.take_of_length_le (by rw [length_packI8]; omega)
    rw [all]
    exact Or.inr ⟨_, kept_header (by norm_num) (by norm_num) (by simp)⟩

end Restarts

section Steps

variable {system : System}

theorem Sound.init (sound : Sound system) : Sound (system.step .init) := by
  cases state : system.process with
  | up memory => simpa [System.step, state] using sound
  | broken => simpa [System.step, state] using sound
  | down =>
      have process := sound.process
      rw [state] at process
      obtain ⟨closed, restartable⟩ := process
      rcases restartable with ⟨short, nothing⟩ | ⟨last, kept⟩
      · have restart := init_of_short short
        obtain ⟨opened, header⟩ := performAll_createIns system.files 1
        simp only [System.step, state, restart]
        refine ⟨sound.increasing, opened, ?_, by simp [M.createIns, createIns, Version.create]⟩
        simp only [header]
        exact kept_header (by norm_num) (by norm_num) (by simp [nothing])
      · obtain ⟨minversion, records, whole, rfl, inAdded, upTo⟩ := kept
        have restart := init_of_whole whole
        simp only [System.step, state, restart]
        refine ⟨sound.increasing, rfl, ?_, ?_⟩
        · refine ⟨minversion, records, ?_, rfl, inAdded, upTo⟩
          simpa [Files.perform, whole.bytes] using whole
        · exact fun entry member => inAdded entry (Version.mem_of_mem_addAll member)

/-- A start that crashes leaves a log to start from. -/
theorem Sound.initCrash (sound : Sound system) (done left : Nat) :
    Sound (system.step (.initCrash done left)) := by
  cases state : system.process with
  | up memory => simpa [System.step, state] using sound
  | broken => simpa [System.step, state] using sound
  | down =>
      have process := sound.process
      rw [state] at process
      obtain ⟨closed, restartable⟩ := process
      rcases restartable with ⟨short, nothing⟩ | ⟨last, kept⟩
      · have restart := init_of_short short
        have log := log_createIns_crash (Files.elsewhere_of_closed closed) 1 done left
        simp only [System.step, state, restart]
        refine ⟨sound.increasing, ?_⟩
        refine ⟨Files.crash_opened left, ?_⟩
        rw [System.crashed, log, nothing]
        match done with
        | 0 => exact Or.inl ⟨short, rfl⟩
        | 1 => exact restartable_of_header 0 rfl
        | 2 => exact restartable_of_header left rfl
        | _ + 3 => exact restartable_of_header 8 rfl
      · obtain ⟨minversion, records, whole, rfl, inAdded, upTo⟩ := kept
        have restart := init_of_whole whole
        simp only [System.step, state, restart]
        refine ⟨sound.increasing, ?_⟩
        refine ⟨Files.crash_opened left, Or.inr ⟨_, minversion, records, ?_, rfl, inAdded, upTo⟩⟩
        match done with
        | 0 => simpa [System.crashed, Files.crash, closed] using whole
        | _ + 1 => simpa [System.crashed, Files.perform, Files.crash, whole.bytes] using whole

/-- A crash between two calls finds nothing in the buffer. -/
theorem Sound.crash (sound : Sound system) (left : Nat) :
    Sound (system.step (.crash left)) := by
  cases state : system.process with
  | down => simpa [System.step, state] using sound
  | broken => simpa [System.step, state] using sound
  | up memory =>
      have process := sound.process
      rw [state] at process
      obtain ⟨opened, kept, -⟩ := process
      obtain ⟨log, logged⟩ := kept.exists_log
      simp only [System.step, state]
      refine ⟨sound.increasing, Files.crash_opened left, Or.inr ⟨memory.VERSION, ?_⟩⟩
      simpa [Files.crash, opened, logged] using kept

/-- The next version is behind all durable ones. -/
theorem Kept.pairwise_concat {log : Option ByteString} {added : List Entry}
    {durable : List Int} {last : Int} (kept : Kept log added durable last)
    (increasing : durable.Pairwise (· < ·)) : (durable ++ [last + 1]).Pairwise (· < ·) := by
  obtain ⟨-, -, -, -, -, upTo⟩ := kept
  refine List.pairwise_append.mpr ⟨increasing, List.pairwise_singleton _ _, ?_⟩
  intro version member next same
  have earlier := upTo version member
  rw [List.mem_singleton.mp same]
  omega

theorem memory_add (memory : Memory) (key : ByteString) {version : Int}
    (next : toInt64 (memory.VERSION + 1) = version) (positive : 0 ≤ version)
    (small : version < 2 ^ 63) :
    (M.add memory key).memory.VERSION = version ∧
      ∀ entry ∈ (M.add memory key).memory.core.versionRawkey_,
        entry = (version, key) ∨ entry ∈ memory.core.versionRawkey_ := by
  simp only [M.add, next]
  split
  · exact ⟨rfl, fun entry => Version.mem_of_mem_add⟩
  · split
    next rotates =>
      simp only [FILE_VERSION] at rotates
      have above : toInt64 (version + 1) = version + 1 :=
        toInt64_of_range (by omega) (by omega)
      have same : toInt64 version = version := toInt64_of_range (by omega) small
      refine ⟨by simp [M.createIns, createIns, above, same], ?_⟩
      intro entry member
      exact absurd member KeySorted.not_mem_empty
    next => exact ⟨rfl, fun entry => Version.mem_of_mem_add⟩

/-- Adding a key logs its record, or starts the log over behind it. -/
theorem Sound.add (sound : Sound system) {key : ByteString}
    (spares : Spares system (.add key)) : Sound (system.step (.add key)) := by
  cases state : system.process with
  | down => simpa [System.step, state] using sound
  | broken => simpa [System.step, state] using sound
  | up memory =>
      have process := sound.process
      rw [state] at process
      obtain ⟨opened, kept, live⟩ := process
      obtain ⟨short, small⟩ := spares memory state
      obtain ⟨log, logged⟩ := kept.exists_log
      have range := kept.last_range
      have next : toInt64 (memory.VERSION + 1) = memory.VERSION + 1 :=
        toInt64_of_range (by omega) small
      obtain ⟨stillOpened, written⟩ := performAll_add opened logged memory short next
      obtain ⟨sameVersion, sameEntries⟩ := memory_add memory key next (by omega) small
      have recorded := kept.record short small
      simp only [System.step, state, next, packS4, if_pos short, Option.isSome_some, if_true]
      refine ⟨kept.pairwise_concat sound.increasing, stillOpened, ?_, ?_⟩
      · rw [written, sameVersion]
        split
        next rotates => exact recorded.start_over rotates
        next => simpa [logged] using recorded
      · intro entry member
        exact (sameEntries entry member).elim
          (fun new => List.mem_append_right _ (List.mem_singleton.mpr new))
          (fun old => List.mem_append_left _ (live entry old))

/-- A crash in `M.add` that tears nothing leaves a whole log. -/
theorem Sound.addCrash (sound : Sound system) {key : ByteString} {done left : Nat}
    (spares : Spares system (.addCrash key done left)) :
    Sound (system.step (.addCrash key done left)) := by
  cases state : system.process with
  | down => simpa [System.step, state] using sound
  | broken => simpa [System.step, state] using sound
  | up memory =>
      have process := sound.process
      rw [state] at process
      obtain ⟨opened, kept, live⟩ := process
      obtain ⟨log, logged⟩ := kept.exists_log
      have range := kept.last_range
      simp only [System.step, state]
      rcases spares memory state with lost | ⟨records, small, rotation⟩
      · have notRecorded : ¬ Records key done left := by
          rintro ⟨-, reached⟩
          omega
        simp only [if_neg notRecorded, List.append_nil]
        refine ⟨sound.increasing, Files.crash_opened left, Or.inr ⟨memory.VERSION, ?_⟩⟩
        rw [System.crashed, log_add_crash_lost opened logged memory key lost, ← logged]
        exact kept.widen _
      · have next : toInt64 (memory.VERSION + 1) = memory.VERSION + 1 :=
          toInt64_of_range (by omega) small
        have recorded := kept.record records.1 small
        simp only [if_pos records, next]
        refine ⟨kept.pairwise_concat sound.increasing, Files.crash_opened left,
          Or.inr ⟨memory.VERSION + 1, ?_⟩⟩
        rw [System.crashed, log_add_crash_recorded opened logged memory next records]
        rw [logged] at recorded
        split
        next rotates =>
          obtain ⟨notEmptied, whole⟩ := rotation rotates
          split
          · exact absurd rfl notEmptied
          · rw [List.take_of_length_le (by rw [length_packI8]; exact whole rfl)]
            exact recorded.start_over rotates
          · exact recorded.start_over rotates
          · exact recorded
        next => exact recorded

theorem Sound.step (sound : Sound system) {event : SystemEvent} (spares : Spares system event) :
    Sound (system.step event) := by
  cases event with
  | init => exact sound.init
  | initCrash done left => exact sound.initCrash done left
  | add key => exact sound.add spares
  | addCrash key done left => exact sound.addCrash spares
  | crash left => exact sound.crash left

end Steps

/-- Every step of a run keeps the log whole. -/
def SparesAll (system : System) : List SystemEvent → Prop
  | [] => True
  | event :: events => Spares system event ∧ SparesAll (system.step event) events

theorem Sound.run {system : System} {events : List SystemEvent} (sound : Sound system)
    (spares : SparesAll system events) : Sound (events.foldl System.step system) := by
  induction events generalizing system with
  | nil => exact sound
  | cons event events ih => exact ih (sound.step spares.1) spares.2

theorem sound_empty : Sound System.empty :=
  ⟨List.Pairwise.nil, rfl, Or.inl ⟨by simp [System.empty], rfl⟩⟩

/-- In a run from an empty directory whose steps keep the log whole, a restarted
process reads inside the log, the core holds entries that were added, `VERSION`
is at least every durable version, and no durable version is assigned twice. -/
theorem run_survives (events : List SystemEvent) (spares : SparesAll System.empty events) :
    Survives (System.run events) :=
  (sound_empty.run spares).survives

/-- A crash behind the second write that leaves the whole record, and a restart. -/
theorem run_survives_restart :
    Survives (System.run [.init, .add [97], .addCrash [98] 2 14, .init, .crash 0]) := by
  refine run_survives _ ⟨trivial, ?_, ?_, trivial, trivial, trivial⟩
  · rintro memory ⟨⟩
    exact ⟨by decide, by decide⟩
  · rintro memory ⟨⟩
    exact Or.inr ⟨by decide, by decide, by decide⟩

/-- A crash that leaves three bytes of the first record makes the next start read
outside the log. -/
theorem not_survives_torn :
    ¬ Survives (System.run [.init, .addCrash [97] 1 3, .init]) := by
  intro survives
  have torn : Version.create.deseri [1, 0, 0] = none := by
    rw [Version.deseri]
    rfl
  apply survives.reverts
  have log : (System.run [.init, .addCrash [97] 1 3]).files.disk .versionPath =
      some [1, 0, 0, 0, 0, 0, 0, 0, 1, 0, 0] := by decide
  have restart : M.init (System.run [.init, .addCrash [97] 1 3]).files.disk = none := by
    simp [M.init, M.revert, log, torn]
  change ((System.run [.init, .addCrash [97] 1 3]).step .init).process = .broken
  have down : (System.run [.init, .addCrash [97] 1 3]).process = .down := rfl
  simp only [System.step, down, restart]

end Versions

end LuaServer
