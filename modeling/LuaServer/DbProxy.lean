import LuaServer.ByteStrings
import Mathlib.Logic.Function.Basic
import Mathlib.Data.List.Induction

/-!
# The proxy of the store

The proxy posts writes to one worker without waiting, and calls the other workers
in turn for reads.  The mailboxes of the workers are first-in first-out, but nothing
orders the work of one worker against that of another: a read returns what was
written before it unless the write still waits for the first worker.
-/

namespace LuaServer

namespace DbProxy

/-- The arguments of `M.ope`. -/
structure Command where
  cmd : String
  args : List ByteString
  deriving DecidableEq

/-- `read_cmds` of `db/cfg.lua`. -/
def readCmds : List String := ["hget", "hmget", "hgetall", "hscan"]

/-- `write_cmds` of `db/cfg.lua`. -/
def writeCmds : List String := ["hset", "hmset", "hdel", "del"]

/-- What fields and values in turn assign to a field, the last of them first. -/
def assigned (field : ByteString) : List ByteString → Option ByteString
  | name :: val :: arr =>
      (assigned field arr).or (if name = field then some val else none)
  | _ => none

/-- What a command writes to a field of a key, where `some none` deletes it. -/
def written (command : Command) (key field : ByteString) : Option (Option ByteString) :=
  match command.cmd, command.args with
  | "hset", name :: entry :: val :: _ =>
      if name = key ∧ entry = field then some (some val) else none
  | "hmset", name :: arr =>
      if name = key ∧ arr.length % 2 = 0 then (assigned field arr).map some else none
  | "hdel", name :: fields => if name = key ∧ field ∈ fields then some none else none
  | "del", name :: _ => if name = key then some none else none
  | _, _ => none

/-- `dbimpl` over the shared store: what its commands do with a field of a key, and
what they answer unless they raise an error. -/
structure Dbimpl (Store Reply : Type) where
  run : Command → Store → Store × Option Reply
  look : Store → ByteString → ByteString → Option ByteString
  value : Option ByteString → Reply
  writes : ∀ command store key field, look (run command store).1 key field =
    (written command key field).getD (look store key field)
  hget : ∀ store key field,
    (run ⟨"hget", [key, field]⟩ store).2 = some (value (look store key field))

/-- A message to a worker.  The answer to an `ope` is sent back when `call` is set. -/
inductive Message where
  | setPdb
  | ope (session : Nat) (command : Command) (call : Bool)
  deriving DecidableEq

def Message.session : Message → Option Nat
  | .setPdb => none
  | .ope session _ _ => some session

/-- A service in the mode `"child"`. -/
structure Worker where
  mailbox : List Message
  pdb : Bool

/-- The proxy with its workers and the store.  Every call of `M.ope` is a session. -/
structure Proxy (Store Reply : Type) where
  store : Store
  addrs : Nat → Worker
  IDX : Nat
  sessions : Nat
  replies : Nat → Option (Option Reply)
  returned : List (Nat × Reply)

/-- What happens next: a call of `M.ope`, the next message of a worker, or the end of
a call that has been answered. -/
inductive Event where
  | ope (command : Command)
  | work (worker : Nat)
  | resume (session : Nat)
  deriving DecidableEq

namespace Proxy

variable {Store Reply : Type}

/-- The proxy after its loop over the five workers. -/
def create (store : Store) : Proxy Store Reply where
  store := store
  addrs worker := if 1 ≤ worker ∧ worker ≤ 5 then ⟨[.setPdb], false⟩ else ⟨[], false⟩
  IDX := 2
  sessions := 0
  replies _ := none
  returned := []

/-- Append a message to the mailbox of a worker. -/
def send (proxy : Proxy Store Reply) (worker : Nat) (message : Message) : Proxy Store Reply :=
  let receiver := proxy.addrs worker
  { proxy with
    addrs := Function.update proxy.addrs worker
      ⟨receiver.mailbox ++ [message], receiver.pdb⟩ }

/-- `M.ope` until it returns or waits. -/
def ope (proxy : Proxy Store Reply) (command : Command) : Proxy Store Reply :=
  let session := proxy.sessions
  let proxy := { proxy with sessions := session + 1 }
  if command.cmd ∈ writeCmds then proxy.send 1 (.ope session command false)
  else if command.cmd ∈ readCmds then proxy.send proxy.IDX (.ope session command true)
  else proxy

/-- A worker takes the next message from its mailbox. -/
def work (impl : Dbimpl Store Reply) (proxy : Proxy Store Reply) (worker : Nat) :
    Option (Proxy Store Reply) :=
  match (proxy.addrs worker).mailbox with
  | [] => none
  | .setPdb :: mailbox =>
      some { proxy with addrs := Function.update proxy.addrs worker ⟨mailbox, true⟩ }
  | .ope session command call :: mailbox =>
      let pdb := (proxy.addrs worker).pdb
      let (store, outcome) := if pdb then impl.run command proxy.store else (proxy.store, none)
      some { proxy with
        store
        addrs := Function.update proxy.addrs worker ⟨mailbox, pdb⟩
        replies := if call then Function.update proxy.replies session (some outcome)
          else proxy.replies }

/-- `M.ope` after `skynet.call`, which raises the error of the worker. -/
def resume (proxy : Proxy Store Reply) (session : Nat) : Option (Proxy Store Reply) :=
  match proxy.replies session with
  | none => none
  | some outcome =>
      let proxy := { proxy with replies := Function.update proxy.replies session none }
      match outcome with
      | none => some proxy
      | some ret =>
          let IDX := proxy.IDX + 1
          some { proxy with
            IDX := if IDX > 5 then 2 else IDX
            returned := proxy.returned ++ [(session, ret)] }

def step (impl : Dbimpl Store Reply) (proxy : Proxy Store Reply) :
    Event → Option (Proxy Store Reply)
  | .ope command => some (proxy.ope command)
  | .work worker => proxy.work impl worker
  | .resume session => proxy.resume session

def run (impl : Dbimpl Store Reply) (proxy : Proxy Store Reply) (history : List Event) :
    Option (Proxy Store Reply) :=
  history.foldlM (step impl) proxy

end Proxy

/-- The commands of the sessions. -/
def commands (history : List Event) : List Command :=
  history.filterMap fun
    | .ope command => some command
    | _ => none

theorem commands_concat_ope (history : List Event) (command : Command) :
    commands (history ++ [.ope command]) = commands history ++ [command] := by
  simp [commands]

theorem commands_append (before after : List Event) :
    commands (before ++ after) = commands before ++ commands after :=
  List.filterMap_append

theorem commands_concat {history : List Event} {event : Event}
    (noCall : ∀ command, event ≠ .ope command) :
    commands (history ++ [event]) = commands history := by
  cases event with
  | ope command => exact absurd rfl (noCall command)
  | work worker => simp [commands]
  | resume session => simp [commands]

theorem getElem?_mono {α : Type} {early late : List α} {position : Nat} {element : α}
    (isPrefix : early <+: late) (found : early[position]? = some element) :
    late[position]? = some element := by
  obtain ⟨rest, rfl⟩ := isPrefix
  obtain ⟨bound, -⟩ := List.getElem?_eq_some_iff.mp found
  rw [List.getElem?_append_left bound, found]

/-- The sessions whose messages wait for a worker. -/
def waiting {Store Reply : Type} (proxy : Proxy Store Reply) (worker : Nat) : List Nat :=
  (proxy.addrs worker).mailbox.filterMap Message.session

theorem mem_sessions {mailbox : List Message} {session : Nat} :
    session ∈ mailbox.filterMap Message.session ↔
      ∃ command call, .ope session command call ∈ mailbox := by
  rw [List.mem_filterMap]
  constructor
  · rintro ⟨message, member, isSession⟩
    cases message with
    | setPdb => cases isSession
    | ope other command call =>
        cases isSession
        exact ⟨command, call, member⟩
  · rintro ⟨command, call, member⟩
    exact ⟨_, member, rfl⟩

section Mail

variable {Store Reply : Type}

/-- What holds of the mailboxes: a message is of a session that has been issued, no
session waits twice, and a worker has the database before it gets to a command. -/
structure Mail (history : List Event) (proxy : Proxy Store Reply) : Prop where
  sessions : proxy.sessions = (commands history).length
  idx : 2 ≤ proxy.IDX ∧ proxy.IDX ≤ 5
  queued : ∀ worker session command call,
    .ope session command call ∈ (proxy.addrs worker).mailbox →
      (commands history)[session]? = some command
  distinct : ∀ worker, (waiting proxy worker).Nodup
  apart : ∀ session worker other,
    session ∈ waiting proxy worker → session ∈ waiting proxy other → worker = other
  ready : ∀ worker, (proxy.addrs worker).pdb = true ∨
    (proxy.addrs worker).mailbox.head? = some .setPdb ∨
      ¬ (1 ≤ worker ∧ worker ≤ 5) ∧ (proxy.addrs worker).mailbox = []

namespace Mail

variable {history : List Event} {proxy : Proxy Store Reply}

theorem lt_of_waiting (mail : Mail history proxy) {worker session : Nat}
    (member : session ∈ waiting proxy worker) : session < proxy.sessions := by
  obtain ⟨command, call, isQueued⟩ := mem_sessions.mp member
  obtain ⟨bound, -⟩ := List.getElem?_eq_some_iff.mp
    (mail.queued worker session command call isQueued)
  exact mail.sessions ▸ bound

theorem create (store : Store) : Mail [] (Proxy.create store : Proxy Store Reply) := by
  have mailboxes : ∀ worker, ((Proxy.create store : Proxy Store Reply).addrs worker).mailbox =
      if 1 ≤ worker ∧ worker ≤ 5 then [.setPdb] else [] := by
    intro worker
    by_cases isWorker : 1 ≤ worker ∧ worker ≤ 5 <;> simp [Proxy.create, isWorker]
  have noSession : ∀ worker, waiting (Proxy.create store : Proxy Store Reply) worker = [] := by
    intro worker
    rw [waiting, mailboxes]
    split <;> rfl
  refine ⟨rfl, ⟨le_refl 2, (by decide : 2 ≤ 5)⟩, ?_, ?_, ?_, ?_⟩
  · intro worker session command call member
    have isWaiting : session ∈ waiting (Proxy.create store : Proxy Store Reply) worker :=
      mem_sessions.mpr ⟨command, call, member⟩
    rw [noSession] at isWaiting
    exact absurd isWaiting List.not_mem_nil
  · intro worker
    rw [noSession]
    exact List.nodup_nil
  · intro session worker other member
    rw [noSession] at member
    exact absurd member List.not_mem_nil
  · intro worker
    rw [mailboxes]
    by_cases isWorker : 1 ≤ worker ∧ worker ≤ 5
    · exact Or.inr (Or.inl (by rw [if_pos isWorker]; rfl))
    · exact Or.inr (Or.inr ⟨isWorker, if_neg isWorker⟩)

theorem issue (mail : Mail history proxy) (command : Command) :
    Mail (history ++ [.ope command]) { proxy with sessions := proxy.sessions + 1 } := by
  refine ⟨?_, mail.idx, ?_, mail.distinct, mail.apart, mail.ready⟩
  · rw [commands_concat_ope, List.length_append, ← mail.sessions]
    rfl
  · intro worker session queued call member
    rw [commands_concat_ope]
    exact getElem?_mono (List.prefix_append ..) (mail.queued worker session queued call member)

theorem mailbox_send (worker : Nat) (message : Message) (other : Nat) :
    ((proxy.send worker message).addrs other).mailbox =
      if other = worker then (proxy.addrs worker).mailbox ++ [message]
      else (proxy.addrs other).mailbox := by
  by_cases same : other = worker
  · subst same
    simp [Proxy.send]
  · simp [Proxy.send, same]

theorem mem_waiting_send {worker session other queued : Nat} {command : Command} {call : Bool} :
    queued ∈ waiting (proxy.send worker (.ope session command call)) other ↔
      queued ∈ waiting proxy other ∨ other = worker ∧ queued = session := by
  rw [waiting, mailbox_send]
  by_cases same : other = worker
  · subst same
    simp [waiting, Message.session]
  · simp [waiting, same]

/-- A session that is in no mailbox is put behind the messages of a worker. -/
theorem send (mail : Mail history proxy) {worker : Nat} (isWorker : 1 ≤ worker ∧ worker ≤ 5)
    {session : Nat} {command : Command} (call : Bool)
    (isIssued : (commands history)[session]? = some command)
    (fresh : ∀ other, session ∉ waiting proxy other) :
    Mail history (proxy.send worker (.ope session command call)) := by
  refine ⟨mail.sessions, mail.idx, ?_, ?_, ?_, ?_⟩
  · intro other queued queuedCommand isCall member
    rw [mailbox_send] at member
    split at member
    next same =>
      subst same
      rcases List.mem_append.mp member with member | isNew
      · exact mail.queued other queued queuedCommand isCall member
      · cases List.mem_singleton.mp isNew
        exact isIssued
    next => exact mail.queued other queued queuedCommand isCall member
  · intro other
    rw [waiting, mailbox_send]
    split
    · rw [List.filterMap_append, List.nodup_append]
      refine ⟨mail.distinct worker, by simp [Message.session], ?_⟩
      intro queued isQueued last isNew
      have isLast : last = session := by simpa [Message.session] using isNew
      rw [isLast]
      exact fun same => fresh worker (same ▸ isQueued)
    · exact mail.distinct other
  · intro queued one other inOne inOther
    rcases mem_waiting_send.mp inOne with oldOne | ⟨isOne, isNew⟩ <;>
      rcases mem_waiting_send.mp inOther with oldOther | ⟨isOther, isNew'⟩
    · exact mail.apart queued one other oldOne oldOther
    · exact absurd (isNew' ▸ oldOne) (fresh one)
    · exact absurd (isNew ▸ oldOther) (fresh other)
    · rw [isOne, isOther]
  · intro other
    by_cases same : other = worker
    · subst same
      rcases mail.ready other with isReady | first | ⟨noWorker, -⟩
      · exact Or.inl (by simp [Proxy.send, isReady])
      · refine Or.inr (Or.inl ?_)
        rw [mailbox_send, if_pos rfl, List.head?_append, first]
        rfl
      · exact absurd isWorker noWorker
    · simpa [Proxy.send, same] using mail.ready other

/-- `M.ope` posts a write to the first worker and calls another one for a read. -/
theorem ope (mail : Mail history proxy) (command : Command) :
    Mail (history ++ [.ope command]) (proxy.ope command) := by
  have issued := mail.issue command
  have isIssued : (commands (history ++ [.ope command]))[proxy.sessions]? = some command := by
    rw [commands_concat_ope, mail.sessions, List.getElem?_concat_length]
  have fresh : ∀ other, proxy.sessions ∉ waiting proxy other :=
    fun other isQueued => absurd (mail.lt_of_waiting isQueued) (lt_irrefl _)
  obtain ⟨low, high⟩ := mail.idx
  unfold Proxy.ope
  split_ifs
  · exact issued.send ⟨le_refl 1, by omega⟩ false isIssued fresh
  · exact issued.send ⟨by omega, high⟩ true isIssued fresh
  · exact issued

section Taking

variable {worker session : Nat} {command : Command} {call : Bool} {message : Message}
  {mailbox : List Message}

theorem mailbox_taken {addrs : Nat → Worker} (isBox : (addrs worker).mailbox = message :: mailbox)
    (pdb : Bool) (other : Nat) :
    (Function.update addrs worker ⟨mailbox, pdb⟩ other).mailbox.Sublist (addrs other).mailbox := by
  by_cases same : other = worker
  · rw [same, Function.update_self, isBox]
    exact List.sublist_cons_self ..
  · rw [Function.update_of_ne same]

/-- A worker with the database takes a message. -/
theorem take (mail : Mail history proxy) {after : Proxy Store Reply}
    (isBox : (proxy.addrs worker).mailbox = message :: mailbox)
    (addrs : after.addrs = Function.update proxy.addrs worker ⟨mailbox, true⟩)
    (sessions : after.sessions = proxy.sessions) (idx : after.IDX = proxy.IDX) :
    Mail history after := by
  have sublist : ∀ other, (after.addrs other).mailbox.Sublist (proxy.addrs other).mailbox := by
    rw [addrs]
    exact mailbox_taken isBox true
  refine ⟨sessions.trans mail.sessions, idx.symm ▸ mail.idx, ?_, ?_, ?_, ?_⟩
  · exact fun other queued command call member =>
      mail.queued other queued command call ((sublist other).subset member)
  · exact fun other => (mail.distinct other).sublist ((sublist other).filterMap _)
  · exact fun queued one other inOne inOther => mail.apart queued one other
      (((sublist one).filterMap _).subset inOne) (((sublist other).filterMap _).subset inOther)
  · intro other
    rw [addrs]
    by_cases same : other = worker
    · rw [same, Function.update_self]
      exact Or.inl rfl
    · rw [Function.update_of_ne same]
      exact mail.ready other

theorem pdb_of_ope (mail : Mail history proxy)
    (isBox : (proxy.addrs worker).mailbox = .ope session command call :: mailbox) :
    (proxy.addrs worker).pdb = true := by
  rcases mail.ready worker with isReady | first | ⟨-, empty⟩
  · exact isReady
  · rw [isBox] at first
    cases first
  · rw [isBox] at empty
    cases empty

/-- A session that is run has left its only mailbox, and the others still wait. -/
theorem mem_waiting_taken (mail : Mail history proxy) {after : Proxy Store Reply}
    (isBox : (proxy.addrs worker).mailbox = .ope session command call :: mailbox)
    (addrs : after.addrs = Function.update proxy.addrs worker ⟨mailbox, true⟩)
    (queued other : Nat) :
    queued ∈ waiting after other ↔ queued ∈ waiting proxy other ∧ queued ≠ session := by
  have here : session ∈ waiting proxy worker :=
    mem_sessions.mpr ⟨command, call, isBox ▸ List.mem_cons_self⟩
  by_cases same : other = worker
  · have once := mail.distinct worker
    have before : waiting proxy worker = session :: mailbox.filterMap Message.session := by
      rw [waiting, isBox]
      rfl
    have left : waiting after worker = mailbox.filterMap Message.session := by
      rw [waiting, addrs, Function.update_self]
    rw [before, List.nodup_cons] at once
    rw [same, before, left, List.mem_cons]
    constructor
    · exact fun member => ⟨Or.inr member, fun isSession => once.1 (isSession ▸ member)⟩
    · exact fun ⟨member, isOther⟩ => member.resolve_left isOther
  · have unchanged : waiting after other = waiting proxy other := by
      rw [waiting, addrs, Function.update_of_ne same, waiting]
    rw [unchanged]
    refine (and_iff_left_of_imp fun member => ?_).symm
    rintro rfl
    exact same (mail.apart queued other worker member here)

end Taking

end Mail

end Mail

section Runs

variable {Store Reply : Type} (impl : Dbimpl Store Reply) (store : Store)
  (key field : ByteString) (writer : Nat) (value : Option ByteString)

/-- What the field of the key holds: its old value as long as the session `writer` has
not been issued or waits for the first worker. -/
def pairAfter (proxy : Proxy Store Reply) : Option ByteString :=
  if writer < proxy.sessions ∧ writer ∉ waiting proxy 1 then value else impl.look store key field

/-- The session `writer` alone writes the field of the key. -/
def Sole (issued : List Command) : Prop :=
  ∀ session command, issued[session]? = some command →
    written command key field = if session = writer then some value else none

/-- A worker gets to the command of a session, which is the first in its mailbox, in
this state of the proxy. -/
def RunsAt (history : List Event) (session : Nat) (command : Command)
    (proxy : Proxy Store Reply) : Prop :=
  ∃ early worker late call, history = early ++ .work worker :: late ∧
    (Proxy.create store).run impl early = some proxy ∧
      (proxy.addrs worker).mailbox.head? = some (.ope session command call)

/-- The outcome of a session is that of its command on the store when it was run. -/
def Answers (history : List Event) (session : Nat) (outcome : Option Reply) : Prop :=
  ∃ command proxy, RunsAt impl store history session command proxy ∧
    outcome = (impl.run command proxy.store).2

/-- The state of a proxy in which one session writes the field of the key. -/
structure Tracks (history : List Event) (proxy : Proxy Store Reply) : Prop where
  mail : Mail history proxy
  pair : impl.look proxy.store key field = pairAfter impl store key field writer value proxy
  replied : ∀ session outcome, proxy.replies session = some outcome →
    Answers impl store history session outcome
  returned : ∀ session reply, (session, reply) ∈ proxy.returned →
    Answers impl store history session (some reply)

variable {impl store key field writer value}

theorem Answers.mono {history : List Event} {event : Event} {session : Nat}
    {outcome : Option Reply} (answers : Answers impl store history session outcome) :
    Answers impl store (history ++ [event]) session outcome := by
  obtain ⟨command, proxy, ⟨early, worker, late, call, rfl, ran, first⟩, ends⟩ := answers
  exact ⟨command, proxy, ⟨early, worker, late ++ [event], call, by simp, ran, first⟩, ends⟩

theorem Sole.of_prefix {early late : List Command} (sole : Sole key field writer value late)
    (isPrefix : early <+: late) : Sole key field writer value early :=
  fun session command isIssued => sole session command (getElem?_mono isPrefix isIssued)

/-- Only the commands for writing write. -/
theorem mem_writeCmds {command : Command} {value : Option ByteString}
    (writes : written command key field = some value) : command.cmd ∈ writeCmds := by
  unfold written at writes
  split at writes <;> simp_all [writeCmds]

namespace Tracks

variable {history : List Event} {proxy : Proxy Store Reply}

/-- A new session waits for the first worker when it writes, and nothing is run. -/
theorem pair_ope (tracks : Tracks impl store key field writer value history proxy)
    {command : Command}
    (sole : Sole key field writer value (commands (history ++ [.ope command]))) :
    pairAfter impl store key field writer value (proxy.ope command) =
      pairAfter impl store key field writer value proxy := by
  have isIssued : (commands (history ++ [.ope command]))[proxy.sessions]? = some command := by
    rw [commands_concat_ope, tracks.mail.sessions, List.getElem?_concat_length]
  have writes := sole proxy.sessions command isIssued
  have fresh : proxy.sessions ∉ waiting proxy 1 :=
    fun isQueued => absurd (tracks.mail.lt_of_waiting isQueued) (lt_irrefl _)
  have same : (writer < (proxy.ope command).sessions ∧ writer ∉ waiting (proxy.ope command) 1) ↔
      (writer < proxy.sessions ∧ writer ∉ waiting proxy 1) := by
    by_cases isWriter : proxy.sessions = writer
    · subst isWriter
      have isWrite := mem_writeCmds (writes.trans (if_pos rfl))
      rw [Proxy.ope, if_pos isWrite, Mail.mem_waiting_send]
      simp
    · have unposted : writer ∈ waiting (proxy.ope command) 1 ↔ writer ∈ waiting proxy 1 := by
        unfold Proxy.ope
        split_ifs
        · rw [Mail.mem_waiting_send]
          exact or_iff_left fun new => isWriter new.2.symm
        · rw [Mail.mem_waiting_send]
          exact or_iff_left fun new => isWriter new.2.symm
        · rfl
      have sessions : (proxy.ope command).sessions = proxy.sessions + 1 := by
        unfold Proxy.ope
        split_ifs <;> rfl
      have later : writer < proxy.sessions + 1 ↔ writer < proxy.sessions := by omega
      rw [unposted, sessions, later]
  rw [pairAfter, pairAfter, if_congr same rfl rfl]

theorem ope (tracks : Tracks impl store key field writer value history proxy) {command : Command}
    (sole : Sole key field writer value (commands (history ++ [.ope command]))) :
    Tracks impl store key field writer value (history ++ [.ope command]) (proxy.ope command) := by
  have kept : (proxy.ope command).store = proxy.store ∧
      (proxy.ope command).replies = proxy.replies ∧
        (proxy.ope command).returned = proxy.returned := by
    unfold Proxy.ope
    split_ifs <;> exact ⟨rfl, rfl, rfl⟩
  obtain ⟨store', replies, returned⟩ := kept
  refine ⟨tracks.mail.ope command, ?_, ?_, ?_⟩
  · rw [store', tracks.pair_ope sole, tracks.pair]
  · rw [replies]
    exact fun session outcome isReply => (tracks.replied session outcome isReply).mono
  · rw [returned]
    exact fun session reply isReturned => (tracks.returned session reply isReturned).mono

section Taking

variable {worker session : Nat} {command : Command} {call : Bool} {mailbox : List Message}

theorem pair_take_ope (sole : Sole key field writer value (commands history))
    (tracks : Tracks impl store key field writer value history proxy)
    (isBox : (proxy.addrs worker).mailbox = .ope session command call :: mailbox)
    {after : Proxy Store Reply}
    (addrs : after.addrs = Function.update proxy.addrs worker ⟨mailbox, true⟩)
    (sessions : after.sessions = proxy.sessions)
    (ran : after.store = (impl.run command proxy.store).1) :
    impl.look after.store key field = pairAfter impl store key field writer value after := by
  have isIssued := tracks.mail.queued worker session command call (isBox ▸ List.mem_cons_self)
  have waits := tracks.mail.mem_waiting_taken isBox addrs writer 1
  rw [ran, impl.writes, sole session command isIssued, tracks.pair, pairAfter, pairAfter]
  by_cases isWriter : session = writer
  · subst isWriter
    have here : session ∈ waiting proxy worker :=
      mem_sessions.mpr ⟨command, call, isBox ▸ List.mem_cons_self⟩
    have bound := tracks.mail.lt_of_waiting here
    have taken : session < after.sessions ∧ session ∉ waiting after 1 :=
      ⟨sessions ▸ bound, fun still => (waits.mp still).2 rfl⟩
    rw [if_pos rfl, if_pos taken]
    rfl
  · rw [if_neg isWriter]
    exact if_congr (by rw [sessions, waits, and_iff_left (Ne.symm isWriter)]) rfl rfl

theorem take_setPdb (tracks : Tracks impl store key field writer value history proxy)
    (isBox : (proxy.addrs worker).mailbox = .setPdb :: mailbox) :
    Tracks impl store key field writer value history
      { proxy with addrs := Function.update proxy.addrs worker ⟨mailbox, true⟩ } := by
  refine ⟨tracks.mail.take isBox rfl rfl rfl, ?_, tracks.replied, tracks.returned⟩
  have same : waiting
      ({ proxy with addrs := Function.update proxy.addrs worker ⟨mailbox, true⟩ } :
        Proxy Store Reply) 1 = waiting proxy 1 := by
    by_cases isFirst : 1 = worker
    · subst isFirst
      simp only [waiting, Function.update_self, isBox]
      rfl
    · simp [waiting, isFirst]
  rw [tracks.pair, pairAfter, pairAfter, same]

end Taking

theorem work (sole : Sole key field writer value (commands history))
    (tracks : Tracks impl store key field writer value history proxy)
    (ran : (Proxy.create store).run impl history = some proxy) {worker : Nat}
    {after : Proxy Store Reply} (worked : proxy.work impl worker = some after) :
    Tracks impl store key field writer value (history ++ [.work worker]) after := by
  have same : commands (history ++ [.work worker]) = commands history :=
    commands_concat fun _ => nofun
  have moved : ∀ {later : Proxy Store Reply}, Mail history later →
      Mail (history ++ [.work worker]) later := fun mail =>
    ⟨same ▸ mail.sessions, mail.idx, same ▸ mail.queued, mail.distinct, mail.apart, mail.ready⟩
  unfold Proxy.work at worked
  cases isBox : (proxy.addrs worker).mailbox with
  | nil =>
      rw [isBox] at worked
      cases worked
  | cons message mailbox =>
      rw [isBox] at worked
      cases message with
      | setPdb =>
          cases worked
          have taken := tracks.take_setPdb isBox
          exact ⟨moved taken.mail, taken.pair,
            fun session outcome isReply => (tracks.replied session outcome isReply).mono,
            fun session reply isReturned => (tracks.returned session reply isReturned).mono⟩
      | ope session command call =>
          simp only [tracks.mail.pdb_of_ope isBox, if_true] at worked
          cases worked
          refine ⟨moved (tracks.mail.take isBox rfl rfl rfl),
            tracks.pair_take_ope sole isBox rfl rfl rfl, fun replied outcome isReply => ?_,
            fun session reply isReturned => (tracks.returned session reply isReturned).mono⟩
          cases call with
          | false => exact (tracks.replied replied outcome isReply).mono
          | true =>
              by_cases isSession : replied = session
              · subst isSession
                simp only [if_true, Function.update_self, Option.some.injEq] at isReply
                refine ⟨command, proxy, ⟨history, worker, [], true, rfl, ran, ?_⟩, isReply.symm⟩
                rw [isBox]
                rfl
              · simp only [if_true, Function.update_of_ne isSession] at isReply
                exact (tracks.replied replied outcome isReply).mono

/-- A call ends with the answer of its worker. -/
theorem resume (tracks : Tracks impl store key field writer value history proxy) {session : Nat}
    {after : Proxy Store Reply} (resumed : proxy.resume session = some after) :
    Tracks impl store key field writer value (history ++ [.resume session]) after := by
  have same : commands (history ++ [.resume session]) = commands history :=
    commands_concat fun _ => nofun
  have others : ∀ other outcome, Function.update proxy.replies session none other = some outcome →
      Answers impl store (history ++ [.resume session]) other outcome := by
    intro other outcome isReply
    by_cases isSession : other = session
    · simp [isSession] at isReply
    · rw [Function.update_of_ne isSession] at isReply
      exact (tracks.replied other outcome isReply).mono
  obtain ⟨sessions, idx, queued, distinct, apart, ready⟩ := tracks.mail
  unfold Proxy.resume at resumed
  cases isReply : proxy.replies session with
  | none =>
      rw [isReply] at resumed
      cases resumed
  | some outcome =>
      rw [isReply] at resumed
      cases outcome with
      | none =>
          cases resumed
          exact ⟨⟨same ▸ sessions, idx, same ▸ queued, distinct, apart, ready⟩, tracks.pair, others,
            fun other reply member => (tracks.returned other reply member).mono⟩
      | some ret =>
          cases resumed
          refine ⟨⟨same ▸ sessions, ?_, same ▸ queued, distinct, apart, ready⟩, tracks.pair, others,
            fun other reply member => ?_⟩
          · dsimp only
            split <;> omega
          · rcases List.mem_append.mp member with old | isLast
            · exact (tracks.returned other reply old).mono
            · cases List.mem_singleton.mp isLast
              exact (tracks.replied session (some ret) isReply).mono

theorem create : Tracks impl store key field writer value [] (Proxy.create store) := by
  refine ⟨Mail.create store, (if_neg ?_).symm, ?_, ?_⟩
  · exact fun issued => absurd issued.1 (Nat.not_lt_zero writer)
  · intro session outcome
    exact nofun
  · intro session reply absurdity
    exact absurd absurdity List.not_mem_nil

theorem step {event : Event} (sole : Sole key field writer value (commands (history ++ [event])))
    (tracks : Tracks impl store key field writer value history proxy)
    (ran : (Proxy.create store).run impl history = some proxy)
    {after : Proxy Store Reply} (stepped : proxy.step impl event = some after) :
    Tracks impl store key field writer value (history ++ [event]) after := by
  cases event with
  | ope command =>
      cases stepped
      exact tracks.ope sole
  | work worker =>
      rw [commands_append] at sole
      exact tracks.work (sole.of_prefix (List.prefix_append ..)) ran stepped
  | resume session => exact tracks.resume stepped

theorem run (sole : Sole key field writer value (commands history))
    (ran : (Proxy.create store).run impl history = some proxy) :
    Tracks impl store key field writer value history proxy := by
  induction history using List.reverseRecOn generalizing proxy with
  | nil =>
      cases ran
      exact Tracks.create
  | append_singleton history event ih =>
      rw [Proxy.run, List.foldlM_append, Option.bind_eq_bind, Option.bind_eq_some_iff] at ran
      obtain ⟨before, ranBefore, stepped⟩ := ran
      simp only [List.foldlM_cons, List.foldlM_nil, bind_pure] at stepped
      have soleBefore : Sole key field writer value (commands history) := by
        apply sole.of_prefix
        rw [commands_append]
        exact List.prefix_append ..
      exact (ih soleBefore ranBefore).step sole ranBefore stepped

end Tracks

theorem mem_of_getElem?_insert {α : Type} {front back : List α} {middle element : α}
    {position : Nat} (found : (front ++ middle :: back)[position]? = some element)
    (elsewhere : position ≠ front.length) : element ∈ front ++ back := by
  rcases Nat.lt_or_gt_of_ne elsewhere with early | late
  · rw [List.getElem?_append_left early] at found
    exact List.mem_append_left _ (List.mem_of_getElem? found)
  · obtain ⟨offset, rfl⟩ := Nat.exists_eq_add_of_lt late
    rw [List.getElem?_append_right (by omega),
      show front.length + offset + 1 - front.length = offset + 1 by omega,
      List.getElem?_cons_succ] at found
    exact List.mem_append_right _ (List.mem_of_getElem? found)

/-- One command that writes the field among commands that do not. -/
theorem sole_of_insert {key field : ByteString} {value : Option ByteString} {write : Command}
    {early late : List Command} (writes : written write key field = some value)
    (others : ∀ command ∈ early ++ late, written command key field = none) :
    Sole key field early.length value (early ++ write :: late) := by
  intro session command isIssued
  by_cases isWriter : session = early.length
  · subst isWriter
    rw [List.getElem?_append_right (le_refl _), Nat.sub_self] at isIssued
    cases isIssued
    rw [if_pos rfl, writes]
  · rw [if_neg isWriter]
    exact others command (mem_of_getElem?_insert isIssued isWriter)

theorem mem_commands {events : List Event} {command : Command} :
    command ∈ commands events ↔ .ope command ∈ events := by
  simp only [commands, List.mem_filterMap]
  constructor
  · rintro ⟨event, inEvents, isOpe⟩
    cases event with
    | ope other =>
        cases isOpe
        exact inEvents
    | work worker => cases isOpe
    | resume session => cases isOpe
  · exact fun inEvents => ⟨_, inEvents, rfl⟩

/-- A read that is called after the only write to a field of a key has been called, and
that returns, has been run by a worker.  It sees what was there before the write when
the write then still waited in the mailbox of the first worker, and otherwise the
written value. -/
theorem read_after_write (impl : Dbimpl Store Reply) (store : Store) {history : List Event}
    {final : Proxy Store Reply} (ran : (Proxy.create store).run impl history = some final)
    {before middle after : List Event} {write read : Command}
    (split : history = before ++ .ope write :: (middle ++ .ope read :: after))
    {key field : ByteString} {value : Option ByteString}
    (writes : written write key field = some value)
    (others : ∀ command, .ope command ∈ before ++ middle ++ .ope read :: after →
      written command key field = none)
    {reply : Reply}
    (returned : ((commands (before ++ .ope write :: middle)).length, reply) ∈ final.returned) :
    ∃ proxy, RunsAt impl store history
      (commands (before ++ .ope write :: middle)).length read proxy ∧
      (impl.run read proxy.store).2 = some reply ∧
      let expected := if (commands before).length ∈ waiting proxy 1 then impl.look store key field
        else value
      impl.look proxy.store key field = expected ∧
        (read = ⟨"hget", [key, field]⟩ → reply = impl.value expected) := by
  have inOrder : commands history =
      commands before ++ write :: (commands middle ++ read :: commands after) := by
    subst split
    simp [commands]
  have sole : Sole key field (commands before).length value (commands history) := by
    rw [inOrder]
    apply sole_of_insert writes
    intro command member
    apply others
    rw [← mem_commands]
    simpa [commands] using member
  obtain ⟨command, proxy, runsAt, ends⟩ := (Tracks.run sole ran).returned _ _ returned
  obtain ⟨early, worker, late, call, isHistory, ranEarly, first⟩ := runsAt
  have isPrefix : commands early <+: commands history := by
    rw [isHistory, commands_append]
    exact List.prefix_append ..
  have tracks := Tracks.run (sole.of_prefix isPrefix) ranEarly
  have isIssued := tracks.mail.queued worker _ _ call (List.mem_of_head? first)
  have isRead : command = read := by
    have found := getElem?_mono isPrefix isIssued
    have same : commands (before ++ .ope write :: middle) =
        commands before ++ write :: commands middle := by
      simp [commands]
    rw [inOrder, same, ← List.cons_append, ← List.append_assoc,
      List.getElem?_append_right (le_refl _), Nat.sub_self] at found
    exact (Option.some.inj found).symm
  subst isRead
  have issued : (commands before).length < proxy.sessions := by
    obtain ⟨bound, -⟩ := List.getElem?_eq_some_iff.mp isIssued
    rw [tracks.mail.sessions]
    refine lt_of_le_of_lt ?_ bound
    simp [commands]
  have looks : impl.look proxy.store key field =
      if (commands before).length ∈ waiting proxy 1 then impl.look store key field else value := by
    rw [tracks.pair, pairAfter]
    by_cases waits : (commands before).length ∈ waiting proxy 1
    · rw [if_pos waits, if_neg fun has => has.2 waits]
    · rw [if_neg waits, if_pos ⟨issued, waits⟩]
  refine ⟨proxy, ⟨early, worker, late, call, isHistory, ranEarly, first⟩, ends.symm, looks, ?_⟩
  rintro rfl
  rw [impl.hget, looks] at ends
  exact Option.some.inj ends

end Runs

section Overtaking

/-- A store of hashes, whose commands of more than one field are left out. -/
def hashes : Dbimpl (ByteString → ByteString → Option ByteString) (Option ByteString) where
  run command store :=
    (fun key field => (written command key field).getD (store key field),
      match command.cmd, command.args with
      | "hget", key :: field :: _ => some (store key field)
      | _, _ => none)
  look store := store
  value reply := reply
  writes _ _ _ _ := rfl
  hget _ _ _ := rfl

/-- The worker of the writes gets to the write first. -/
def orderly : List Event :=
  [.ope ⟨"hset", [[1], [3], [6]]⟩, .ope ⟨"hset", [[1], [2], [7]]⟩, .work 1, .work 1, .work 2,
    .ope ⟨"hget", [[1], [2]]⟩, .work 1, .work 2, .resume 2]

theorem read_after_write_in_order :
    ∃ proxy, RunsAt hashes (fun _ _ => none) orderly 2 ⟨"hget", [[1], [2]]⟩ proxy ∧
      1 ∉ waiting proxy 1 ∧ proxy.store [1] [2] = some [7] := by
  have others : ∀ command, Event.ope command ∈ ([.ope ⟨"hset", [[1], [3], [6]]⟩] : List Event) ++
      [.work 1, .work 1, .work 2] ++ .ope ⟨"hget", [[1], [2]]⟩ :: [.work 1, .work 2, .resume 2] →
        written command [1] [2] = none := by
    intro command member
    have either : command = ⟨"hset", [[1], [3], [6]]⟩ ∨ command = ⟨"hget", [[1], [2]]⟩ := by
      simpa using member
    rcases either with rfl | rfl <;> rfl
  obtain ⟨proxy, runsAt, -, looks, replies⟩ := @read_after_write _ _ hashes (fun _ _ => none)
    orderly _ rfl [.ope ⟨"hset", [[1], [3], [6]]⟩] [.work 1, .work 1, .work 2]
    [.work 1, .work 2, .resume 2] ⟨"hset", [[1], [2], [7]]⟩ ⟨"hget", [[1], [2]]⟩ rfl [1] [2]
    (some [7]) rfl others (some [7]) (List.mem_singleton_self _)
  have isSecond : (commands [.ope ⟨"hset", [[1], [3], [6]]⟩]).length = 1 := rfl
  have answer := replies rfl
  simp only [isSecond] at looks answer
  have gone : 1 ∉ waiting proxy 1 := by
    intro waits
    rw [if_pos waits] at answer
    cases answer
  rw [if_neg gone] at looks
  exact ⟨proxy, runsAt, gone, looks⟩

/-- A read of a field of a key returns the value that has been written by a call that
has returned before, when nobody else writes it. -/
def ReadsWrites {Store Reply : Type} (impl : Dbimpl Store Reply) (store : Store) : Prop :=
  ∀ (history : List Event) (final : Proxy Store Reply),
    (Proxy.create store).run impl history = some final →
      ∀ (before middle after : List Event) (write : Command) (key field : ByteString)
        (value : Option ByteString),
        history = before ++ .ope write :: (middle ++ .ope ⟨"hget", [key, field]⟩ :: after) →
          written write key field = some value →
            (∀ command, .ope command ∈ before ++ middle ++ .ope ⟨"hget", [key, field]⟩ :: after →
              written command key field = none) →
              ∀ reply,
                ((commands (before ++ .ope write :: middle)).length, reply) ∈ final.returned →
                reply = impl.value value

/-- The second worker runs the read before the first one runs the write. -/
theorem not_readsWrites : ¬ ReadsWrites hashes fun _ _ => none := by
  intro reads
  have stale := reads
    [.ope ⟨"hset", [[1], [2], [7]]⟩, .ope ⟨"hget", [[1], [2]]⟩, .work 2, .work 2, .resume 1] _ rfl
    [] [] [.work 2, .work 2, .resume 1] ⟨"hset", [[1], [2], [7]]⟩ [1] [2] (some [7]) rfl rfl ?_ none
    (List.mem_singleton_self _)
  · cases stale
  · intro command member
    have isRead : command = ⟨"hget", [[1], [2]]⟩ := by simpa using member
    rw [isRead]
    rfl

end Overtaking

end DbProxy

end LuaServer
