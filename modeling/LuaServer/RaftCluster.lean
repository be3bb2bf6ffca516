import LuaServer.RaftServer
import Mathlib.Logic.Function.Basic

/-!
# A group of raft servers

The servers of a group know each other by their ids.  What a server has handed to its
callbacks for sending may reach the receiver at any later time, any number of times and
in any order, or never, and so may the responses.  The entries of a message arrive with
it, as the library asks of its callbacks; the wire of the binding keeps messages with at
most one entry.
-/

namespace LuaServer

namespace Raft

/-- The servers of a group, and the responses they have returned: who has returned it, to
whom, and what.  `accepted` has the entries of clients with the responses to them. -/
structure Cluster where
  servers : Int → Server
  votes : List (Int × Int × RequestVoteResponse)
  replies : List (Int × Int × AppendEntriesResponse)
  accepted : List (Entry × EntryResponse)

/-- A server to which the script has added all nodes of the group. -/
def createServer (ids : List Int) (rand : Nat) (i : Int) : Server :=
  ids.foldl (fun me id => raftAddNode me id (id = i)) (raftNew rand)

/-- A group before its first step, where `rand i` is what `rand()` returns for server `i`. -/
def Cluster.create (ids : List Int) (rand : Int → Nat) : Cluster where
  servers i := createServer ids (rand i) i
  votes := []
  replies := []
  accepted := []

/-- What may happen to a group: a tick of a server, an entry from a client, or the delivery
of a message or of a response from a server to another one; `rand` is what `rand()`
returns. -/
inductive Event
  | tick (i : Int) (rand : Nat)
  | recvEntry (i : Int) (ety : Entry)
  | requestvote (sender receiver : Int) (m : RequestVote) (rand : Nat)
  | requestvoteRes (sender receiver : Int) (r : RequestVoteResponse) (rand : Nat)
  | appendentries (sender receiver : Int) (m : AppendEntries) (rand : Nat)
  | appendentriesRes (sender receiver : Int) (r : AppendEntriesResponse) (rand : Nat)

/-- The event may happen: what is delivered has been sent.  Clients do not change the
members of the group. -/
def Cluster.Possible (ids : List Int) (c : Cluster) : Event → Prop
  | .tick i _ => i ∈ ids
  | .recvEntry i ety => i ∈ ids ∧ raftEntryIsCfgChange ety = false
  | .requestvote sender receiver m _ => sender ∈ ids ∧ receiver ∈ ids ∧
      Callback.sendRequestvote receiver m ∈ (c.servers sender).calls
  | .requestvoteRes sender receiver r _ => (sender, receiver, r) ∈ c.votes
  | .appendentries sender receiver m _ => sender ∈ ids ∧ receiver ∈ ids ∧
      Callback.sendAppendentries receiver m ∈ (c.servers sender).calls
  | .appendentriesRes sender receiver r _ => (sender, receiver, r) ∈ c.replies

instance (ids : List Int) (c : Cluster) : DecidablePred (c.Possible ids)
  | .tick i _ => inferInstanceAs (Decidable (i ∈ ids))
  | .recvEntry i ety =>
      inferInstanceAs (Decidable (i ∈ ids ∧ raftEntryIsCfgChange ety = false))
  | .requestvote sender receiver m _ => inferInstanceAs (Decidable (sender ∈ ids ∧
      receiver ∈ ids ∧ Callback.sendRequestvote receiver m ∈ (c.servers sender).calls))
  | .requestvoteRes sender receiver r _ =>
      inferInstanceAs (Decidable ((sender, receiver, r) ∈ c.votes))
  | .appendentries sender receiver m _ => inferInstanceAs (Decidable (sender ∈ ids ∧
      receiver ∈ ids ∧ Callback.sendAppendentries receiver m ∈ (c.servers sender).calls))
  | .appendentriesRes sender receiver r _ =>
      inferInstanceAs (Decidable ((sender, receiver, r) ∈ c.replies))

/-- The group with another state of a server. -/
def Cluster.set (c : Cluster) (i : Int) (me : Server) : Cluster :=
  { c with servers := Function.update c.servers i me }

/-- The functions of the binding with the response of the script, which goes back to the
sender; without one of the library there is none. -/
def Cluster.step (c : Cluster) : Event → Option (Int × Cluster)
  | .tick i rand => do
      let (e, me) ← raftPeriodic (c.servers i) 1000 rand
      return (e, c.set i me)
  | .recvEntry i ety => do
      let (e, me, r) ← raftRecvEntry (c.servers i) ety
      let c := c.set i me
      return (e, if e ≠ 0 then c else { c with accepted := c.accepted ++ [(ety, r)] })
  | .requestvote sender receiver m rand => do
      let (me, r) ← raftRecvRequestvote (c.servers receiver) (some sender) m rand
      let c := c.set receiver me
      return (0, { c with votes := c.votes ++ [(receiver, sender, r)] })
  | .requestvoteRes sender receiver r rand => do
      let (e, me) ← raftRecvRequestvoteResponse (c.servers receiver) (some sender) r rand
      return (e, c.set receiver me)
  | .appendentries sender receiver m rand => do
      let (e, me, r) ← raftRecvAppendentries (c.servers receiver) m (some sender) rand
      let c := c.set receiver me
      return (e, if e ≠ 0 then c else { c with replies := c.replies ++ [(receiver, sender, r)] })
  | .appendentriesRes sender receiver r rand => do
      let (e, me) ← raftRecvAppendentriesResponse (c.servers receiver) (some sender) r rand
      return (e, c.set receiver me)

/-- What only a leader takes: an entry of a client, or a response to its entries. -/
def Cluster.Refuses (c : Cluster) : Event → Prop
  | .recvEntry i _ => (c.servers i).state ≠ .leader
  | .appendentriesRes _ receiver _ _ => (c.servers receiver).state ≠ .leader
  | _ => False

instance (c : Cluster) : DecidablePred c.Refuses
  | .recvEntry i _ => inferInstanceAs (Decidable ((c.servers i).state ≠ .leader))
  | .appendentriesRes _ receiver _ _ =>
      inferInstanceAs (Decidable ((c.servers receiver).state ≠ .leader))
  | .tick .. | .requestvote .. | .requestvoteRes .. | .appendentries .. =>
      inferInstanceAs (Decidable False)

/-- The terms fit an `int`, which is what a vote compares them as. -/
def Cluster.TermsFit (ids : List Int) (c : Cluster) : Prop :=
  ∀ i ∈ ids, (c.servers i).currentTerm < 2147483648

/-- What a group gets to from a state, as long as its terms fit. -/
inductive Cluster.Runs (ids : List Int) (start : Cluster) : Cluster → Prop
  | refl : Runs ids start start
  | step {c c' : Cluster} {event : Event} {e : Int} (before : Runs ids start c)
      (fits : c.TermsFit ids) (possible : c.Possible ids event)
      (steps : c.step event = some (e, c')) : Runs ids start c'

/-- What a group gets to from its creation. -/
def Cluster.Reachable (ids : List Int) (c : Cluster) : Prop :=
  ∃ rand, (Cluster.create ids rand).Runs ids c

instance (ids : List Int) (c : Cluster) : Decidable (c.TermsFit ids) :=
  inferInstanceAs (Decidable (∀ i ∈ ids, (c.servers i).currentTerm < 2147483648))

/-- The state after the events, if each of them may happen. -/
def Cluster.run (ids : List Int) (c : Cluster) : List Event → Option Cluster
  | [] => some c
  | event :: events =>
      if c.TermsFit ids ∧ c.Possible ids event then do
        let (_, c) ← c.step event
        run ids c events
      else none

theorem Cluster.Runs.of_run {ids : List Int} {start c c' : Cluster} {events : List Event}
    (before : start.Runs ids c) (eq : c.run ids events = some c') : start.Runs ids c' := by
  induction events generalizing c with
  | nil => exact Option.some.inj eq ▸ before
  | cons event events ih =>
      rw [Cluster.run] at eq
      split at eq
      · next may =>
        obtain ⟨⟨e, c₁⟩, steps, rest⟩ := Option.bind_eq_some_iff.mp eq
        exact ih (before.step may.1 may.2 steps) rest
      · exact nomatch eq

/-- The entry that a callback applies, with its index. -/
def Callback.appliedEntry : Callback → Option (Entry × Nat)
  | .applylog entry idx => some (entry, idx)
  | _ => none

/-- What a server has applied, with the indexes. -/
def Server.applied (me : Server) : List (Entry × Nat) := me.calls.filterMap Callback.appliedEntry

end Raft

end LuaServer
