import LuaServer.PartialSimulations
import LuaServer.RaftCluster
import LuaServer.ReplicatedLogs
import Mathlib.Data.Finset.Card

/-!
# Servers and members of a group of replicated logs

Each server of a group of at least two stands for a member of a group of replicated logs:
it has the member's log, term and vote, and all that it has sent is true of what has been
said in the group.  The relation stays when other members take steps, and when the server
changes what the member does not have.
-/

namespace LuaServer

namespace Raft

open MachineIntegers ReplicatedLogs PartialSimulations

/-- The ids of a group: `-1` stands for nobody, and a single server leads without votes. -/
structure Group (ids : List Int) : Prop where
  nodup : ids.Nodup
  known : -1 ∉ ids
  many : 2 ≤ ids.length

/-- A majority of the group. -/
def Quorum (ids : List Int) (members : Set Int) : Prop :=
  ∃ majority : Finset Int, members = ↑majority ∧ majority ⊆ ids.toFinset ∧
    ids.length < 2 * majority.card

theorem Group.meets {ids : List Int} (group : Group ids) (first second : Set Int)
    (quorum : Quorum ids first) (quorum' : Quorum ids second) : (first ∩ second).Nonempty := by
  obtain ⟨majority, rfl, within, large⟩ := quorum
  obtain ⟨majority', rfl, within', large'⟩ := quorum'
  have card := List.toFinset_card_of_nodup group.nodup
  obtain ⟨v, member⟩ := Finset.inter_nonempty_of_card_lt_card_add_card within within' (by omega)
  exact ⟨v, by simpa using member⟩

theorem Group.nonempty {ids : List Int} (group : Group ids) (members : Set Int)
    (quorum : Quorum ids members) : members.Nonempty :=
  (group.meets members members quorum quorum).mono Set.inter_subset_left

/-- A node with all others that pass a test is a majority, when these are many enough. -/
theorem Group.quorum_of_countP {ids : List Int} (group : Group ids) {nodes : List Node}
    (idsEq : nodes.map (·.id) = ids) {i : Int} (inGroup : i ∈ ids) {test : Node → Bool}
    (others : ∀ node ∈ nodes, test node = true → node.id ≠ i)
    (many : ids.length < 2 * (nodes.countP test + 1)) :
    Quorum ids {v | v = i ∨ ∃ node ∈ nodes, node.id = v ∧ test node = true} := by
  have distinct : ((nodes.filter test).map (·.id)).Nodup :=
    (idsEq ▸ group.nodup).sublist (List.filter_sublist.map _)
  refine ⟨insert i ((nodes.filter test).map (·.id)).toFinset, ?_, ?_, ?_⟩
  · ext v
    simp only [Set.mem_ofPred_eq, Finset.coe_insert, Set.mem_insert_iff, Finset.mem_coe,
      List.mem_toFinset, List.mem_map, List.mem_filter]
    refine or_congr_right (exists_congr fun node => ?_)
    tauto
  · intro v member
    rw [Finset.mem_insert, List.mem_toFinset, List.mem_map] at member
    rw [List.mem_toFinset]
    rcases member with rfl | ⟨node, inFilter, rfl⟩
    · exact inGroup
    · rw [← idsEq]
      exact List.mem_map_of_mem (List.mem_of_mem_filter inFilter)
  · have apart : i ∉ ((nodes.filter test).map (·.id)).toFinset := by
      rw [List.mem_toFinset, List.mem_map]
      rintro ⟨node, inFilter, same⟩
      obtain ⟨member, passes⟩ := List.mem_filter.mp inFilter
      exact others node member passes same
    rw [Finset.card_insert_of_notMem apart, List.toFinset_card_of_nodup distinct,
      List.length_map, ← List.countP_eq_length_filter]
    exact many

section Relation

variable (ids : List Int) (a : ReplicatedLogs.State Int Entry)

/-- What a leader knows of another node. -/
structure Tracked (i : Int) (node : Node) : Prop where
  positive : 1 ≤ node.nextIdx
  next : node.nextIdx ≤ (a.log i).length + 1
  acked : node.matchIdx = 0 ∨ a.acked node.id (a.term i) node.matchIdx

/-- A request for votes is what the candidate has said. -/
structure RequestOk (i : Int) (m : RequestVote) : Prop where
  candidateId : m.candidateId = i
  stood : ∃ log, a.stood m.term i = some log ∧ m.lastLogIdx = log.length ∧
    m.last_log_term = lastTerm Entry.term log

/-- The entries of a message end the log that the leader has had when it was sent, so that
the commit index of the leader is not beyond them. -/
structure AppendOk (i : Int) (m : AppendEntries) : Prop where
  leads : a.elected m.term = some i
  log : ∃ log, log <+: a.leaderLog m.term ∧ m.prevLogIdx ≤ log.length ∧
    m.entries = log.drop m.prevLogIdx ∧
    (0 < m.prevLogIdx → ∃ ety, log[m.prevLogIdx - 1]? = some ety ∧
      ety.term = m.prevLogTerm) ∧
    m.leaderCommit ≤ log.length ∧
    Settled Entry.term (Quorum ids) a m.term (log.take m.leaderCommit) ∧
    ∀ ety ∈ log, raftEntryIsCfgChange ety = false

/-- What a server sends is true. -/
def CallOk (i : Int) : Callback → Prop
  | .sendRequestvote node m => node ≠ i ∧ RequestOk a i m
  | .sendAppendentries node m => node ≠ i ∧ AppendOk ids a i m
  | _ => True

/-- The part of the relation that does not depend on the state of the server. -/
structure Core (i : Int) (me : Server) : Prop where
  sound : Sound Entry.term (Quorum ids) a
  nodes : me.nodes.map (·.id) = ids
  flags : ∀ node ∈ me.nodes, node.isVoting = true ∧ node.isActive = true
  node : me.node = some i
  formed : me.log.WellFormed
  base : me.log.base = 0
  front : me.log.front = 0
  entries : me.log.toList = a.log i
  normal : ∀ ety ∈ a.log i, raftEntryIsCfgChange ety = false
  term : me.currentTerm = a.term i
  vote : me.votedFor = (a.ballot i (a.term i)).getD (-1)
  known : ∀ c, a.ballot i (a.term i) = some c → c ∈ ids
  snapshot : me.snapshotInProgress = false ∧ me.snapshotLastIdx = 0
  connected : me.connected = RAFT_NODE_STATUS_DISCONNECTED
  commit : me.commitIdx ≤ (a.log i).length
  settled : Settled Entry.term (Quorum ids) a (a.term i) ((a.log i).take me.commitIdx)
  applied_le : me.lastAppliedIdx ≤ me.commitIdx
  applied : me.applied = ((a.log i).take me.lastAppliedIdx).zipIdx 1
  calls : ∀ callback ∈ me.calls, CallOk ids a i callback

/-- What a candidate has said, and who has told it that it has the vote. -/
structure Standing (i : Int) (me : Server) : Prop where
  stood : a.stood (a.term i) i = some (a.log i)
  ballot : a.ballot i (a.term i) = some i
  votes : ∀ node ∈ me.nodes, node.hasVoteForMe = true → a.ballot node.id (a.term i) = some i

/-- The leader of a term. -/
structure Leading (i : Int) : Prop where
  elected : a.elected (a.term i) = some i
  ballot : a.ballot i (a.term i) = some i

/-- A server follows the member with its id. -/
structure Agrees (i : Int) (me : Server) : Prop extends Core ids a i me where
  unled : me.state ≠ .leader → a.elected (a.term i) ≠ some i
  candidate : me.state = .candidate → Standing a i me
  leader : me.state = .leader → Leading a i
  tracked : me.state = .leader → ∀ node ∈ me.nodes, node.id ≠ i → Tracked a i node

/-- The response to a request for votes is true. -/
structure VoteOk (sender receiver : Int) (r : RequestVoteResponse) : Prop where
  from_mem : sender ∈ ids
  to_mem : receiver ∈ ids
  value : r.voteGranted = RAFT_REQUESTVOTE_ERR_GRANTED ∨
    r.voteGranted = RAFT_REQUESTVOTE_ERR_NOT_GRANTED
  granted : r.voteGranted = RAFT_REQUESTVOTE_ERR_GRANTED →
    a.ballot sender r.term = some receiver

/-- The response to new entries is true. -/
structure ReplyOk (sender receiver : Int) (r : AppendEntriesResponse) : Prop where
  from_mem : sender ∈ ids
  to_mem : receiver ∈ ids
  other : sender ≠ receiver
  success : r.success = true → a.acked sender r.term r.currentIdx

/-- The response to a client is true: the entry is in the log of the leader. -/
def AcceptedOk (ety : Entry) (r : EntryResponse) : Prop :=
  0 < r.idx ∧ (a.leaderLog r.term)[r.idx - 1]? = some { ety with term := r.term }

/-- A group of servers follows a group of replicated logs. -/
structure ClusterOk (c : Cluster) : Prop where
  servers : ∀ i ∈ ids, Agrees ids a i (c.servers i)
  votes : ∀ sender receiver r, (sender, receiver, r) ∈ c.votes → VoteOk ids a sender receiver r
  replies : ∀ sender receiver r, (sender, receiver, r) ∈ c.replies →
    ReplyOk ids a sender receiver r
  accepted : ∀ ety r, (ety, r) ∈ c.accepted → AcceptedOk a ety r

end Relation

/-! ## What another member does -/

section Monotone

variable {ids : List Int} {a a' : ReplicatedLogs.State Int Entry} {i : Int}

theorem RequestOk.mono {m : RequestVote} (ok : RequestOk a i m)
    (grows : Grows Entry.term a a') : RequestOk a' i m := by
  obtain ⟨candidateId, log, stood, idx, term⟩ := ok
  exact ⟨candidateId, log, grows.stood _ _ _ stood, idx, term⟩

theorem AppendOk.mono {m : AppendEntries} (ok : AppendOk ids a i m) (group : Group ids)
    (sound : Sound Entry.term (Quorum ids) a) (grows : Grows Entry.term a a') :
    AppendOk ids a' i m := by
  obtain ⟨leads, log, begins, prev, entries, term, commit, settled, normal⟩ := ok
  exact ⟨grows.elected _ _ leads, log, begins.trans (grows.leaderLog _), prev, entries, term,
    commit, settled.mono group.nonempty sound grows le_rfl, normal⟩

theorem CallOk.mono {callback : Callback} (ok : CallOk ids a i callback) (group : Group ids)
    (sound : Sound Entry.term (Quorum ids) a) (grows : Grows Entry.term a a') :
    CallOk ids a' i callback := by
  cases callback with
  | sendRequestvote node m => exact ⟨ok.1, ok.2.mono grows⟩
  | sendAppendentries node m => exact ⟨ok.1, ok.2.mono group sound grows⟩
  | applylog | persistVote | persistTerm | logOffer | logPop => trivial

/-- The steps of a member leave the servers of the others where they are. -/
theorem Agrees.of_other {me : Server} (agrees : Agrees ids a i me) (group : Group ids) {j : Int}
    (other : i ≠ j) (moves : Moves Entry.term (Quorum ids) j a a') : Agrees ids a' i me := by
  obtain ⟨term, log, ballot, elected⟩ := moves.other other
  obtain ⟨sound', grows⟩ := moves.sound_grows agrees.sound
  exact {
    sound := sound'
    nodes := agrees.nodes
    flags := agrees.flags
    node := agrees.node
    formed := agrees.formed
    base := agrees.base
    front := agrees.front
    entries := log ▸ agrees.entries
    normal := log ▸ agrees.normal
    term := term ▸ agrees.term
    vote := by rw [agrees.vote, ballot, term]
    known := by rw [ballot, term]; exact agrees.known
    snapshot := agrees.snapshot
    connected := agrees.connected
    commit := log ▸ agrees.commit
    settled := by
      rw [log, term]
      exact agrees.settled.mono group.nonempty agrees.sound grows le_rfl
    applied_le := agrees.applied_le
    applied := log ▸ agrees.applied
    calls := fun callback member => (agrees.calls callback member).mono group agrees.sound grows
    unled := fun state led => agrees.unled state (elected _ (term ▸ led))
    candidate := fun state => by
      obtain ⟨stood, vote, votes⟩ := agrees.candidate state
      refine ⟨?_, ?_, fun node member voted => ?_⟩
      · rw [term, log]
        exact grows.stood _ _ _ stood
      · rw [term]
        exact grows.ballot _ _ _ vote
      · rw [term]
        exact grows.ballot _ _ _ (votes node member voted)
    leader := fun state => by
      obtain ⟨leads, vote⟩ := agrees.leader state
      rw [← term] at leads vote
      exact ⟨grows.elected _ _ leads, grows.ballot _ _ _ vote⟩
    tracked := fun state node member apart => by
      obtain ⟨positive, next, acked⟩ := agrees.tracked state node member apart
      exact ⟨positive, log.symm ▸ next, acked.imp_right fun said => by
        rw [term]
        exact grows.acked _ _ _ said⟩ }

theorem VoteOk.mono {sender receiver : Int} {r : RequestVoteResponse}
    (ok : VoteOk ids a sender receiver r) (grows : Grows Entry.term a a') :
    VoteOk ids a' sender receiver r :=
  { ok with granted := fun granted => grows.ballot _ _ _ (ok.granted granted) }

theorem ReplyOk.mono {sender receiver : Int} {r : AppendEntriesResponse}
    (ok : ReplyOk ids a sender receiver r) (grows : Grows Entry.term a a') :
    ReplyOk ids a' sender receiver r :=
  { ok with success := fun success => grows.acked _ _ _ (ok.success success) }

theorem AcceptedOk.mono {ety : Entry} {r : EntryResponse} (ok : AcceptedOk a ety r)
    (grows : Grows Entry.term a a') : AcceptedOk a' ety r := by
  obtain ⟨positive, found⟩ := ok
  obtain ⟨tail, eq⟩ := grows.leaderLog r.term
  refine ⟨positive, ?_⟩
  rw [← eq, List.getElem?_append_left (List.getElem?_eq_some_iff.mp found).1, found]

end Monotone

/-! ## What a server reads -/

section Reading

variable {ids : List Int} {a : ReplicatedLogs.State Int Entry} {i : Int} {me : Server}
  (core : Core ids a i me)
include core

theorem Core.currentIdx : raftGetCurrentIdx me = (a.log i).length := by
  rw [raftGetCurrentIdx, logGetCurrentIdx, logCount, core.base, ← core.entries,
    length_toList, Nat.add_zero]

theorem Core.entry_at (idx : Nat) :
    raftGetEntryFromIdx me idx = if idx = 0 then none else (a.log i)[idx - 1]? := by
  rw [raftGetEntryFromIdx, core.formed.logGetAtIdx, core.base, core.entries]
  simp only [Nat.le_zero, Nat.sub_zero]

theorem Core.last_log_term : raftGetLastLogTerm me = lastTerm Entry.term (a.log i) := by
  rw [raftGetLastLogTerm, core.currentIdx, core.entry_at, lastTerm, List.getLast?_eq_getElem?]
  by_cases some_ : 0 < (a.log i).length
  · rw [if_pos some_, if_neg some_.ne', List.getElem?_eq_getElem (by omega)]
    rfl
  · rw [if_neg some_, List.getElem?_eq_none (by omega)]
    rfl

theorem Core.num_voting_nodes : raftGetNumVotingNodes me = ids.length := by
  rw [raftGetNumVotingNodes, ← core.nodes, List.length_map, List.countP_eq_length]
  intro node member
  obtain ⟨voting, active⟩ := core.flags node member
  rw [voting, active]
  rfl

theorem Core.get_node {id : Int} (member : id ∈ ids) :
    ∃ node ∈ me.nodes, node.id = id ∧ raftGetNode me id = some node := by
  rw [← core.nodes, List.mem_map] at member
  obtain ⟨node, inNodes, rfl⟩ := member
  obtain ⟨found, eq⟩ := Option.isSome_iff_exists.mp
    (List.find?_isSome.mpr ⟨node, inNodes, by simp⟩ :
      (me.nodes.find? (·.id = node.id)).isSome)
  exact ⟨found, List.mem_of_find?_eq_some eq, by simpa using List.find?_some eq, eq⟩

theorem Core.my_node (member : i ∈ ids) :
    ∃ node, raftGetMyNode me = some node ∧ node.isVoting = true := by
  have own : raftGetNodeid me = i := by rw [raftGetNodeid, core.node]; rfl
  obtain ⟨node, inNodes, -, eq⟩ := core.get_node member
  exact ⟨node, by rw [raftGetMyNode, own, eq], (core.flags node inNodes).1⟩

end Reading

/-! ## Steps that leave the log as it is -/

section Steps

variable {ids : List Int} {a a' : ReplicatedLogs.State Int Entry} {i : Int} {me me' : Server}

/-- The relation does not depend on the timeouts, nor on who seems to lead. -/
theorem Agrees.of_volatile (agrees : Agrees ids a i me)
    (same : me' = { me with
      timeoutElapsed := me'.timeoutElapsed
      electionTimeoutRand := me'.electionTimeoutRand
      currentLeader := me'.currentLeader
      votingCfgChangeLogIdx := me'.votingCfgChangeLogIdx }) : Agrees ids a i me' := by
  rw [same]
  exact { agrees with
    candidate := fun state => { agrees.candidate state with } }

/-- The log, what is applied and what belongs to the group stay, and what is sent is true. -/
theorem Core.keep (core : Core ids a i me) (group : Group ids)
    (moves : Moves Entry.term (Quorum ids) i a a') (log : a'.log i = a.log i)
    (same : me' = { me with
      currentTerm := a'.term i
      votedFor := (a'.ballot i (a'.term i)).getD (-1)
      state := me'.state
      nodes := me'.nodes
      timeoutElapsed := me'.timeoutElapsed
      electionTimeoutRand := me'.electionTimeoutRand
      currentLeader := me'.currentLeader
      calls := me'.calls })
    (nodes : me'.nodes.map (·.id) = me.nodes.map (·.id))
    (flags : ∀ node ∈ me'.nodes, node.isVoting = true ∧ node.isActive = true)
    (known : ∀ c, a'.ballot i (a'.term i) = some c → c ∈ ids)
    (applied : me'.applied = me.applied)
    (calls : ∀ callback ∈ me'.calls, callback ∈ me.calls ∨ CallOk ids a' i callback) :
    Core ids a' i me' := by
  obtain ⟨sound', grows⟩ := moves.sound_grows core.sound
  exact {
    sound := sound'
    nodes := nodes.trans core.nodes
    flags := flags
    node := by rw [same]; exact core.node
    formed := by rw [same]; exact core.formed
    base := by rw [same]; exact core.base
    front := by rw [same]; exact core.front
    entries := by rw [same, log]; exact core.entries
    normal := by rw [log]; exact core.normal
    term := by rw [same]
    vote := by rw [same]
    known := known
    snapshot := by rw [same]; exact core.snapshot
    connected := by rw [same]; exact core.connected
    commit := by rw [same, log]; exact core.commit
    settled := by
      rw [same, log]
      exact core.settled.mono group.nonempty core.sound grows (grows.term i)
    applied_le := by rw [same]; exact core.applied_le
    applied := by rw [applied, same, log]; exact core.applied
    calls := fun callback member => (calls callback member).elim
      (fun old => (core.calls callback old).mono group core.sound grows) id }

theorem applied_call (me : Server) (callback : Callback)
    (quiet : callback.appliedEntry = none) : (me.call callback).applied = me.applied := by
  rw [Server.applied, Server.applied, Server.call, List.filterMap_append,
    List.filterMap_cons_none quiet, List.filterMap_nil, List.append_nil]

theorem forall_calls_call (callback : Callback) (ok : CallOk ids a i callback) :
    ∀ other ∈ (me.call callback).calls, other ∈ me.calls ∨ CallOk ids a i other := by
  intro other member
  rcases List.mem_append.mp member with old | new
  · exact Or.inl old
  · exact Or.inr (List.mem_singleton.mp new ▸ ok)

/-- Something true is sent, or something is written down. -/
theorem Core.call (core : Core ids a i me) (group : Group ids) {callback : Callback}
    (ok : CallOk ids a i callback) (quiet : callback.appliedEntry = none) :
    Core ids a i (me.call callback) :=
  core.keep group .refl rfl (by rw [← core.vote, ← core.term]; rfl) rfl core.flags core.known
    (applied_call me callback quiet) (forall_calls_call callback ok)

theorem Agrees.call (agrees : Agrees ids a i me) (group : Group ids) {callback : Callback}
    (ok : CallOk ids a i callback) (quiet : callback.appliedEntry = none) :
    Agrees ids a i (me.call callback) where
  toCore := agrees.toCore.call group ok quiet
  unled := agrees.unled
  candidate state := { agrees.candidate state with }
  leader := agrees.leader
  tracked := agrees.tracked

/-! ## Changes of a node -/

theorem mem_change {id : Int} {f : Node → Node} {node : Node} :
    node ∈ (me.change id f).nodes ↔
      ∃ old ∈ me.nodes, (if old.id = id then f old else old) = node := List.mem_map

theorem get_node_change (me : Server) (id : Int) {f : Node → Node}
    (sameId : ∀ node, (f node).id = node.id) :
    raftGetNode (me.change id f) id = (raftGetNode me id).map f := by
  rw [raftGetNode, raftGetNode, Server.change, List.find?_map]
  have sameTest : ((fun node : Node => decide (node.id = id)) ∘ fun node =>
      if node.id = id then f node else node) = fun node => decide (node.id = id) := by
    funext node
    by_cases same : node.id = id <;> simp [same, sameId]
  rw [sameTest]
  cases found : me.nodes.find? fun node => decide (node.id = id) with
  | none => rfl
  | some node =>
      have same : node.id = id := by simpa using List.find?_some found
      simp [same]

/-- The ids and the flags of the nodes belong to the group. -/
theorem Core.change (core : Core ids a i me) (group : Group ids) (id : Int) {f : Node → Node}
    (sameId : ∀ node, (f node).id = node.id)
    (sameFlags : ∀ node, (f node).isVoting = node.isVoting ∧
      (f node).isActive = node.isActive) : Core ids a i (me.change id f) := by
  refine core.keep group .refl rfl (by rw [← core.vote, ← core.term]; rfl) ?_ ?_ core.known rfl
    fun _ member => Or.inl member
  · rw [Server.change, List.map_map]
    refine List.map_congr_left fun node _ => ?_
    by_cases same : node.id = id <;> simp [same, sameId]
  · intro node member
    obtain ⟨old, inNodes, rfl⟩ := mem_change.mp member
    split
    · rw [(sameFlags old).1, (sameFlags old).2]
      exact core.flags old inNodes
    · exact core.flags old inNodes

theorem stepDown_eq {term : Nat} (later : me.currentTerm < term) (rand : Nat) :
    stepDown me term rand = { me.call (.persistTerm term (-1)) with
      currentTerm := term
      votedFor := -1
      state := .follower
      electionTimeoutRand := me.electionTimeout + rand % me.electionTimeout
      timeoutElapsed := 0 } := by
  rw [stepDown, raftSetCurrentTerm, if_pos later]
  rfl

/-- A later term is a new one for the member. -/
theorem Agrees.stepDown (agrees : Agrees ids a i me) (group : Group ids) {term : Nat}
    (later : me.currentTerm < term) (rand : Nat) :
    ∃ a', Step Entry.term (Quorum ids) i a a' ∧ Agrees ids a' i (stepDown me term rand) := by
  have later' : a.term i < term := agrees.term ▸ later
  have step : Step Entry.term (Quorum ids) i a _ := Step.advance term later'
  have termEq : Function.update a.term i term i = term := Function.update_self ..
  have free : a.ballot i term = none := by
    by_contra voted
    obtain ⟨c, said⟩ := Option.ne_none_iff_exists'.mp voted
    exact absurd (agrees.sound.ballots i term c said).1 (by omega)
  have unled : a.elected term ≠ some i := fun led =>
    absurd (agrees.sound.leaders term i led).1 (by omega)
  rw [stepDown_eq later]
  refine ⟨_, step, {
    toCore := agrees.keep group (.single step) rfl ?_ rfl agrees.flags ?_
      (applied_call me (.persistTerm term (-1)) rfl)
      (forall_calls_call (.persistTerm _ _) trivial)
    unled := fun _ => ?_
    candidate := nofun
    leader := nofun
    tracked := nofun }⟩
  · simp [free, Server.call]
  · simp [free]
  · simpa [termEq] using unled

/-- A candidate gives up when another one leads in its term. -/
theorem Agrees.become_follower (agrees : Agrees ids a i me) (group : Group ids)
    (state : me.state ≠ .leader) (rand : Nat) : Agrees ids a i (raftBecomeFollower me rand) where
  toCore := agrees.keep group .refl rfl (by rw [← agrees.vote, ← agrees.term]; rfl) rfl
    agrees.flags agrees.known rfl fun _ member => Or.inl member
  unled _ := agrees.unled state
  candidate := nofun
  leader := nofun
  tracked := nofun

end Steps

end Raft

end LuaServer
