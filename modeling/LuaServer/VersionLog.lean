import LuaServer.BufferedFiles
import LuaServer.LittleEndianBytes
import LuaServer.VersionCore

/-!
# The version log

Every added key is logged with its version behind the header of the log, which
is the first version it may hold.  When a version is a multiple of
`FILE_VERSION` the core is dumped to a file of its own and the log starts over.
A restarted process reads the log back.

A process may crash between any two file operations, so a call is the list of
its file operations together with the memory it leaves.
-/

namespace LuaServer

namespace Versions

open MachineIntegers
open LittleEndian (splitBytes)

def FILE_VERSION : Int := 1000

/-- The files under `DIR`. -/
inductive Path where
  | versionPath
  | dump (minversion : Int)
  deriving DecidableEq, Repr

namespace Version

/-- `Version::seri`. -/
def seri (ver : Version) : ByteString :=
  ver.versionRawkey_.elements.flatMap fun (version, key) =>
    LittleEndian.ofInt 8 version ++ (LittleEndian.ofNat 4 key.length ++ key)

/-- One round of the loop of `deseri`: the entry at `pstart` and the bytes behind
it, or nothing when the round reads behind `pend`. -/
def readEntry (str : ByteString) : Option (Entry × ByteString) := do
  let (version, str) ← splitBytes 8 str
  let (len, str) ← splitBytes 4 str
  let (key, str) ← splitBytes (LittleEndian.toNat len) str
  return ((LittleEndian.toInt version, key), str)

theorem length_of_readEntry {str rest : ByteString} {entry : Entry}
    (read : readEntry str = some (entry, rest)) : rest.length < str.length := by
  simp only [readEntry, splitBytes, Option.bind_eq_bind, Option.bind_eq_some_iff,
    Option.ite_none_right_eq_some, Option.some.injEq, Prod.exists, Prod.mk.injEq,
    Option.pure_def] at read
  obtain ⟨_, _, ⟨-, -, rfl⟩, _, _, ⟨enough, -, rfl⟩, _, _, ⟨-, -, rfl⟩, -, rfl⟩ := read
  simp only [List.length_drop] at enough ⊢
  omega

/-- `Version::deseri`, which returns nothing when it reads behind the end of the
string. -/
def deseri (ver : Version) (str : ByteString) : Option Version :=
  if str = [] then some ver
  else
    match _ : readEntry str with
    | none => none
    | some ((version, key), rest) => deseri (ver.add key version) rest
termination_by str.length
decreasing_by exact length_of_readEntry ‹_›

end Version

/-- `string.pack("<i8", value)`. -/
def packI8 (value : Int) : ByteString :=
  LittleEndian.ofInt 8 value

/-- `string.pack("<s4", key)`, an error when the length does not fit. -/
def packS4 (key : ByteString) : Option ByteString :=
  if key.length < 2 ^ 32 then some (LittleEndian.ofNat 4 key.length ++ key) else none

/-- `VERSION` and the fields of `curr_ins`. -/
structure Memory where
  VERSION : Int
  minversion : Int
  core : Version

/-- The file operations of a call and the memory behind it. -/
structure Call where
  operations : List (FileOperation Path)
  memory : Memory

/-- The local function `create_ins`. -/
def createIns (VERSION minversion : Int) : Call :=
  ⟨[.openAppend .versionPath], ⟨VERSION, minversion, Version.create⟩⟩

namespace Memory

/-- `ins.gen_file`. -/
def genFile (ins : Memory) : List (FileOperation Path) :=
  [.openWrite (.dump ins.minversion), .write ins.core.seri, .close]

/-- `ins.del`. -/
def del (ins : Memory) : List (FileOperation Path) :=
  .close :: ins.genFile

end Memory

namespace M

/-- `M.create_ins`. -/
def createIns (minversion : Int) : Call :=
  let created := Versions.createIns (toInt64 (minversion - 1)) minversion
  { created with
    operations := [.openWrite .versionPath, .write (packI8 minversion), .close] ++
      created.operations }

/-- `M.add` with `ins.add`.  The error of `string.pack` ends the call. -/
def add (memory : Memory) (key : ByteString) : Call :=
  let version := toInt64 (memory.VERSION + 1)
  let added := { memory with VERSION := version, core := memory.core.add key version }
  match packS4 key with
  | none => ⟨[.write (packI8 version)], added⟩
  | some packed =>
      let logged := [.write (packI8 version), .write packed, .flush]
      if version % FILE_VERSION = 0 then
        let created := createIns (toInt64 (version + 1))
        ⟨logged ++ (added.del ++ created.operations), created.memory⟩
      else ⟨logged, added⟩

/-- What `M.revert` does: it may read outside the bytes of the log, return
nothing, or return a call that restores `curr_ins`. -/
inductive Reverted where
  | outside
  | nothing
  | restored (call : Call)

/-- `M.revert`. -/
def revert (disk : Path → Option ByteString) : Reverted :=
  match disk .versionPath with
  | none => .nothing
  | some str =>
      if str.length < 8 then .nothing
      else
        let minversion := LittleEndian.toInt (str.take 8)
        match Version.create.deseri (str.drop 8) with
        | none => .outside
        | some core =>
            let VERSION :=
              match core.last with
              | none => toInt64 (minversion - 1)
              | some (version, _) => version
            let created := Versions.createIns VERSION minversion
            .restored { created with memory := { created.memory with core } }

/-- `M.init`, which is nothing when `revert` reads outside the log. -/
def init (disk : Path → Option ByteString) : Option Call :=
  match revert disk with
  | .outside => none
  | .nothing => some (createIns 1)
  | .restored call => some call

end M

/-- A process that has not been started, runs `M`, or has read outside its
memory. -/
inductive Process where
  | down
  | up (memory : Memory)
  | broken

/-- The files, the process, and what a history adds: the entries `M.add` was
called for and the versions whose whole record has reached the log. -/
structure System where
  files : Files Path
  process : Process
  added : List Entry
  durable : List Int

/-- A call that returns, a call a crash stops after `done` file operations, or a
crash between two calls. -/
inductive SystemEvent where
  | init
  | initCrash (done left : Nat)
  | add (key : ByteString)
  | addCrash (key : ByteString) (done left : Nat)
  | crash (left : Nat)

/-- A crash after `done` of the operations of `M.add` lets the whole record reach
the log: they include the flush, or both writes and the crash leaves them. -/
def Records (key : ByteString) (done left : Nat) : Prop :=
  key.length < 2 ^ 32 ∧ (3 ≤ done ∨ done = 2 ∧ 12 + key.length ≤ left)

instance (key : ByteString) (done left : Nat) : Decidable (Records key done left) :=
  inferInstanceAs (Decidable (_ ∧ _))

namespace System

/-- An empty directory. -/
def empty : System :=
  ⟨⟨fun _ => none, none⟩, .down, [], []⟩

/-- The files behind a crash in a call. -/
def crashed (system : System) (call : Call) (done left : Nat) : Files Path :=
  (system.files.performAll (call.operations.take done)).crash left

def step (system : System) (event : SystemEvent) : System :=
  match event, system.process with
  | .init, .down =>
      match M.init system.files.disk with
      | none => { system with process := .broken }
      | some call =>
          { system with
            files := system.files.performAll call.operations
            process := .up call.memory }
  | .initCrash done left, .down =>
      match M.init system.files.disk with
      | none => { system with process := .broken }
      | some call => { system with files := system.crashed call done left }
  | .add key, .up memory =>
      let call := M.add memory key
      let version := toInt64 (memory.VERSION + 1)
      { files := system.files.performAll call.operations
        process := .up call.memory
        added := system.added ++ [(version, key)]
        durable := system.durable ++ if (packS4 key).isSome then [version] else [] }
  | .addCrash key done left, .up memory =>
      let version := toInt64 (memory.VERSION + 1)
      { files := system.crashed (M.add memory key) done left
        process := .down
        added := system.added ++ [(version, key)]
        durable := system.durable ++ if Records key done left then [version] else [] }
  | .crash left, .up _ =>
      { system with files := system.files.crash left, process := .down }
  | _, _ => system

/-- A run from an empty directory. -/
def run (events : List SystemEvent) : System :=
  events.foldl step empty

end System

end Versions

end LuaServer
