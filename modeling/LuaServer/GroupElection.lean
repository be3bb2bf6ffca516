import LuaServer.GroupServers
import Mathlib.Data.List.Induction

/-!
# At most one master under one view

Servers start and stop, hear of others in any order, and receive the calls of
`group_master` that were ever sent to them at any later time and any number of
times.  A server of group 0 is never told its own name, so it is its own master
only by election, and a server of another group knows no other server there.
-/

namespace LuaServer

namespace Groups

/-- The servers that run, and the messages that were ever sent. -/
structure Net where
  servers : KeySorted (Prod.fst : ByteString × Server → ByteString)
  sent : List Message

inductive NetEvent where
  | start (myid : Nat)
  | stop (name : ByteString)
  | clusterDiff (name : ByteString) (upd del : List ByteString)
  | groupMaster (message : Message)

namespace Net

/-- What happens in the net; a message may come late, again or not at all. -/
def step (net : Net) : NetEvent → Net
  | .start myid => { net with servers := net.servers.put (dbName myid, Server.create myid) }
  | .stop name => { net with servers := net.servers.drop name }
  | .clusterDiff name upd del =>
      match net.servers.find name with
      | none => net
      | some (_, server) =>
          let (server, messages) := server.clusterDiff upd del
          ⟨net.servers.put (name, server), net.sent ++ messages⟩
  | .groupMaster message =>
      if message ∈ net.sent then
        match net.servers.find message.receiver with
        | none => net
        | some (_, server) =>
            { net with servers :=
                net.servers.put (message.receiver, server.receive message.group message.mname) }
      else net

def run (events : List NetEvent) : Net :=
  events.foldl step ⟨KeySorted.empty _, []⟩

end Net

/-- What a server keeps from its start on. -/
structure Server.Sound (server : Server) : Prop where
  alone : server.mygroupid ≠ 0 → (namesOf server.groups server.mygroupid).elements =
    [server.serverName]
  zero : server.mygroupid = 0 → (server.groups.find 0).isSome
  least : server.mygroupid = 0 → server.master = some server.serverName →
    (namesOf server.groups 0).elements.head? = some server.serverName

/-- A message does not tell a server of group 0 its own name. -/
def Message.Foreign (message : Message) : Prop :=
  message.group = 0 → message.mname ≠ some message.receiver

namespace Server

variable {server : Server}

theorem groups_create (myid : Nat) :
    (create myid).groups.find (myid / 10) =
      some (myid / 10, (KeySorted.empty _).put (dbName myid)) := by
  rw [create, find_put, if_pos rfl]

theorem sound_create (myid : Nat) : (create myid).Sound where
  alone := fun _ => by
    change (namesOf (create myid).groups (myid / 10)).elements = [dbName myid]
    rw [namesOf, groups_create]
    rfl
  zero := fun zero => by
    have found := groups_create myid
    rw [show myid / 10 = 0 from zero] at found
    rw [found]
    rfl
  least := fun _ unset => by simp [create] at unset

/-- Selecting a master keeps a server sound and sends no server its own name. -/
theorem Sound.selectMaster (sound : server.Sound) :
    server.selectMaster.1.Sound ∧ ∀ message ∈ server.selectMaster.2, message.Foreign := by
  constructor
  · rw [selectMaster_fst]
    refine ⟨sound.alone, sound.zero, fun own isMaster => ?_⟩
    simp only at own isMaster
    split at isMaster
    next elected =>
      rw [own] at elected
      exact elected.2
    next => exact sound.least own isMaster
  · intro message sent _ isSelf
    obtain ⟨-, -, -, -, name, -, differs, rfl⟩ := mem_selectMaster.mp sent
    exact differs (Option.some.inj isSelf).symm

theorem Sound.afterDiff (sound : server.Sound) (upd del : List ByteString) :
    (server.afterDiff upd del).Sound where
  alone := fun other => by
    simp only [Server.afterDiff] at other ⊢
    rw [(namesOf_dropNames _ _ _).1 other, (namesOf_addNames _ _ _).1 other]
    exact sound.alone other
  zero := fun own => find_zero_dropNames (find_zero_addNames (Or.inl (sound.zero own)))
  least := fun own isMaster => by
    simp only [Server.afterDiff] at own isMaster ⊢
    split at isMaster
    · simp at isMaster
    next unchanged =>
      split at isMaster
      · simp at isMaster
      next kept =>
        have noneAdded : dbNames upd = [] := by
          by_contra added
          exact unchanged ⟨own, added⟩
        obtain ⟨member, least⟩ := head?_eq_some_iff.mp (sound.least own isMaster)
        rw [head?_eq_some_iff, noneAdded]
        constructor
        · exact ((namesOf_dropNames _ _ 0).2 _).mpr ⟨member, fun deleted =>
            kept ⟨_, deleted, isMaster.symm⟩⟩
        · intro other otherMember
          exact least other (((namesOf_dropNames _ _ 0).2 other).mp otherMember).1

theorem Sound.clusterDiff (sound : server.Sound) (upd del : List ByteString) :
    (server.clusterDiff upd del).1.Sound ∧
      ∀ message ∈ (server.clusterDiff upd del).2, message.Foreign := by
  by_cases present : (server.groups.find 0).isSome ∨ dbNames upd ≠ []
  · obtain ⟨notified, isDiff, quiet, ofGroup⟩ := clusterDiff_eq present
    obtain ⟨kept, foreign⟩ := (sound.afterDiff upd del).selectMaster
    rw [isDiff]
    refine ⟨kept, fun message sent => ?_⟩
    rcases List.mem_append.mp sent with early | late
    · intro isZero
      rw [ofGroup message early] at isZero
      rw [quiet isZero] at early
      exact absurd early List.not_mem_nil
    · exact foreign message late
  · rw [not_or, not_not, Bool.not_eq_true, Option.isSome_eq_false_iff, Option.isNone_iff_eq_none]
      at present
    have otherGroup : server.mygroupid ≠ 0 := fun own => by
      simpa [present.1] using sound.zero own
    have keeps : ∀ master, { server with master }.Sound := fun master =>
      ⟨sound.alone, fun own => absurd own otherGroup, fun own => absurd own otherGroup⟩
    obtain ⟨master, -, failed | selected⟩ := clusterDiff_missing present.1 present.2
    · rw [failed]
      exact ⟨keeps master, fun message sent => absurd sent List.not_mem_nil⟩
    · rw [selected]
      exact (keeps master).selectMaster

theorem clusterDiff_serverName (upd del : List ByteString) :
    (server.clusterDiff upd del).1.serverName = server.serverName := by
  by_cases present : (server.groups.find 0).isSome ∨ dbNames upd ≠ []
  · obtain ⟨notified, isDiff, -⟩ := clusterDiff_eq present
    rw [isDiff, selectMaster_fst]
    rfl
  · rw [not_or, not_not, Bool.not_eq_true, Option.isSome_eq_false_iff, Option.isNone_iff_eq_none]
      at present
    obtain ⟨master, -, failed | selected⟩ := clusterDiff_missing present.1 present.2
    · rw [failed]
    · rw [selected, selectMaster_fst]

theorem Sound.receive (sound : server.Sound) {group : Nat} {mname : Option ByteString}
    (foreign : group = 0 → mname ≠ some server.serverName) :
    (server.receive group mname).Sound := by
  refine ⟨sound.alone, sound.zero, fun own isMaster => ?_⟩
  simp only [Server.receive] at own isMaster
  split at isMaster
  next same => exact absurd isMaster (foreign (same.trans own))
  next => exact sound.least own isMaster

/-- A sound server that is its own master has the smallest name of its group. -/
theorem Sound.head?_eq (sound : server.Sound) (isMaster : server.master = some server.serverName) :
    (namesOf server.groups server.mygroupid).elements.head? = some server.serverName := by
  by_cases own : server.mygroupid = 0
  · rw [own]
    exact sound.least own isMaster
  · rw [sound.alone own]
    rfl

end Server

/-- What every step of the net preserves. -/
structure Net.Sound (net : Net) : Prop where
  servers : ∀ name server, (name, server) ∈ net.servers →
    server.serverName = name ∧ server.Sound
  sent : ∀ message ∈ net.sent, message.Foreign

theorem Net.Sound.put {net : Net} (sound : net.Sound) {name : ByteString} {server : Server}
    (named : server.serverName = name) (isSound : server.Sound) {sent : List Message}
    (foreign : ∀ message ∈ sent, message.Foreign) :
    Net.Sound ⟨net.servers.put (name, server), sent⟩ := by
  refine ⟨fun other otherServer member => ?_, foreign⟩
  rcases KeySorted.mem_put.mp member with same | ⟨old, -⟩
  · obtain ⟨rfl, rfl⟩ := Prod.mk.inj same
    exact ⟨named, isSound⟩
  · exact sound.servers other otherServer old

theorem Net.Sound.step {net : Net} (sound : net.Sound) (event : NetEvent) :
    (net.step event).Sound := by
  cases event with
  | start myid => exact sound.put rfl (Server.sound_create myid) sound.sent
  | stop name =>
      exact ⟨fun other server member => sound.servers other server (KeySorted.mem_drop.mp member).1,
        sound.sent⟩
  | clusterDiff name upd del =>
      rw [Net.step]
      split
      · exact sound
      next key server found =>
        obtain ⟨member, rfl⟩ := KeySorted.find_eq_some.mp found
        obtain ⟨named, isSound⟩ := sound.servers key server member
        obtain ⟨kept, foreign⟩ := isSound.clusterDiff upd del
        refine sound.put ((Server.clusterDiff_serverName upd del).trans named) kept ?_
        intro message sent
        rcases List.mem_append.mp sent with early | late
        · exact sound.sent message early
        · exact foreign message late
  | groupMaster message =>
      rw [Net.step]
      split
      next isSent =>
        split
        · exact sound
        next key server found =>
          obtain ⟨member, same⟩ := KeySorted.find_eq_some.mp found
          obtain ⟨named, isSound⟩ := sound.servers key server member
          have isReceiver : server.serverName = message.receiver := named.trans same
          have foreign := sound.sent message isSent
          rw [Message.Foreign, ← isReceiver] at foreign
          have received : (server.receive message.group message.mname).serverName =
              message.receiver := isReceiver
          exact sound.put received (isSound.receive foreign) sound.sent
      · exact sound

theorem Net.sound_run (events : List NetEvent) : (Net.run events).Sound := by
  induction events using List.reverseRecOn with
  | nil => exact ⟨fun _ _ member => absurd member KeySorted.not_mem_empty,
      fun _ sent => absurd sent List.not_mem_nil⟩
  | append_singleton events event ih =>
      rw [Net.run, List.foldl_concat]
      exact ih.step event

/-- At all times a server that is its own master has the smallest name in its own
group, and of two servers that hold the same group at most one is. -/
theorem no_two_masters (events : List NetEvent) :
    (∀ name server, (name, server) ∈ (Net.run events).servers →
      server.master = some server.serverName →
      (namesOf server.groups server.mygroupid).elements.head? = some server.serverName) ∧
    ∀ name server other otherServer, (name, server) ∈ (Net.run events).servers →
      (other, otherServer) ∈ (Net.run events).servers → name ≠ other →
      server.mygroupid = otherServer.mygroupid →
      namesOf server.groups server.mygroupid =
        namesOf otherServer.groups otherServer.mygroupid →
      ∀ group, ¬ ((server.masterBygroup group).1 = true ∧
        (otherServer.masterBygroup group).1 = true) := by
  have sound := Net.sound_run events
  refine ⟨fun name server member => (sound.servers name server member).2.head?_eq, ?_⟩
  rintro name server other otherServer member otherMember differs - sameNames group
    ⟨isMaster, otherIsMaster⟩
  obtain ⟨rfl, isSound⟩ := sound.servers name server member
  obtain ⟨rfl, otherSound⟩ := sound.servers other otherServer otherMember
  have selfElected : ∀ server : Server, (server.masterBygroup group).1 = true →
      server.master = some server.serverName := by
    intro server answered
    rw [Server.masterBygroup] at answered
    split at answered
    next yes => exact yes.2
    next => simp at answered
  have least := isSound.head?_eq (selfElected server isMaster)
  rw [sameNames, otherSound.head?_eq (selfElected otherServer otherIsMaster)] at least
  exact differs (Option.some.inj least).symm

end Groups

end LuaServer
