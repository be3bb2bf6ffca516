import LuaServer.MachineIntegers
import LuaServer.RaftLog

/-!
# The raft server

A server is a follower, a candidate or the leader of its term.  It stands for election
when it has not heard of a leader for a while, votes once in a term and only for a log
that is as recent as its own, and hands its own log on when it leads.  The callbacks are
those of the binding to Lua: they return zero, and those for members of the group that
come and go and for snapshots are missing.  The server is kept with the callbacks it has
made; `none` is a failed assertion or a call of a missing function.
-/

namespace LuaServer

namespace Raft

open MachineIntegers

/-! ## Messages -/

/-- `msg_requestvote_t`. -/
structure RequestVote where
  term : Nat
  candidateId : Int
  lastLogIdx : Nat
  last_log_term : Nat
  deriving DecidableEq

/-- `msg_requestvote_response_t`. -/
structure RequestVoteResponse where
  term : Nat
  voteGranted : Int
  deriving DecidableEq

/-- `msg_appendentries_t` with its entries. -/
structure AppendEntries where
  term : Nat
  prevLogIdx : Nat
  prevLogTerm : Nat
  leaderCommit : Nat
  entries : List Entry
  deriving DecidableEq

/-- `msg_appendentries_response_t`. -/
structure AppendEntriesResponse where
  term : Nat
  success : Bool
  currentIdx : Nat
  firstIdx : Nat
  deriving DecidableEq

/-- `msg_entry_response_t`. -/
structure EntryResponse where
  id : Int
  term : Nat
  idx : Nat
  deriving DecidableEq

/-- A callback with what it is called with; a node is given by its id. -/
inductive Callback
  | sendRequestvote (node : Int) (m : RequestVote)
  | sendAppendentries (node : Int) (m : AppendEntries)
  | applylog (entry : Entry) (entryIdx : Nat)
  | persistVote (vote : Int)
  | persistTerm (term : Nat) (vote : Int)
  | logOffer (entry : Entry) (entryIdx : Nat)
  | logPop (entry : Entry) (entryIdx : Nat)
  deriving DecidableEq

def RAFT_ERR_NOT_LEADER : Int := -2
def RAFT_ERR_ONE_VOTING_CHANGE_ONLY : Int := -3
def RAFT_ERR_SHUTDOWN : Int := -4
def RAFT_ERR_NEEDS_SNAPSHOT : Int := -6
def RAFT_ERR_SNAPSHOT_IN_PROGRESS : Int := -7

def RAFT_REQUESTVOTE_ERR_GRANTED : Int := 1
def RAFT_REQUESTVOTE_ERR_NOT_GRANTED : Int := 0
def RAFT_REQUESTVOTE_ERR_UNKNOWN_NODE : Int := -1

def RAFT_LOGTYPE_ADD_NONVOTING_NODE : Int := 1
def RAFT_LOGTYPE_ADD_NODE : Int := 2
def RAFT_LOGTYPE_DEMOTE_NODE : Int := 3
def RAFT_LOGTYPE_REMOVE_NODE : Int := 4

def RAFT_NODE_STATUS_DISCONNECTED : Nat := 0
def RAFT_NODE_STATUS_DISCONNECTING : Nat := 3

/-! ## Nodes and servers -/

/-- `raft_node_private_t` with its flags. -/
structure Node where
  id : Int
  nextIdx : Nat
  matchIdx : Nat
  hasVoteForMe : Bool
  isVoting : Bool
  isActive : Bool
  deriving DecidableEq

/-- `raft_node_new`. -/
def raftNodeNew (id : Int) : Node := ⟨id, 1, 0, false, true, true⟩

/-- `raft_node_set_next_idx`. -/
def Node.setNextIdx (me : Node) (nextIdx : Nat) : Node :=
  { me with nextIdx := if nextIdx < 1 then 1 else nextIdx }

/-- `raft_node_set_match_idx`. -/
def Node.setMatchIdx (me : Node) (matchIdx : Nat) : Node := { me with matchIdx := matchIdx }

/-- `raft_node_vote_for_me`. -/
def Node.voteForMe (me : Node) (vote : Bool) : Node := { me with hasVoteForMe := vote }

/-- `raft_state_e`. -/
inductive ServerState
  | follower
  | candidate
  | leader
  deriving DecidableEq

/-- `raft_server_private_t`: its nodes are kept by their ids, and `calls` has the callbacks
it has made. -/
structure Server where
  currentTerm : Nat
  votedFor : Int
  log : Log
  commitIdx : Nat
  lastAppliedIdx : Nat
  state : ServerState
  timeoutElapsed : Nat
  nodes : List Node
  electionTimeout : Nat
  electionTimeoutRand : Nat
  requestTimeout : Nat
  currentLeader : Option Int
  node : Option Int
  votingCfgChangeLogIdx : Int
  connected : Nat
  snapshotInProgress : Bool
  snapshotNonblockingApply : Bool
  snapshotLastIdx : Nat
  snapshotLastTerm : Nat
  calls : List Callback
  deriving DecidableEq

/-- `raft_new`, where `rand` is what `rand()` returns. -/
def raftNew (rand : Nat) : Server where
  currentTerm := 0
  votedFor := -1
  log := logNew
  commitIdx := 0
  lastAppliedIdx := 0
  state := .follower
  timeoutElapsed := 0
  nodes := []
  electionTimeout := 1000
  electionTimeoutRand := 1000 + rand % 1000
  requestTimeout := 200
  currentLeader := none
  node := none
  votingCfgChangeLogIdx := -1
  connected := RAFT_NODE_STATUS_DISCONNECTED
  snapshotInProgress := false
  snapshotNonblockingApply := false
  snapshotLastIdx := 0
  snapshotLastTerm := 0
  calls := []

section Properties

variable (me : Server)

/-- A callback is made. -/
def Server.call (callback : Callback) : Server := { me with calls := me.calls ++ [callback] }

/-- A change of the node with an id. -/
def Server.change (id : Int) (f : Node → Node) : Server :=
  { me with nodes := me.nodes.map fun node => if node.id = id then f node else node }

/-- `raft_get_node`. -/
def raftGetNode (nodeid : Int) : Option Node := me.nodes.find? (·.id = nodeid)

/-- `raft_get_nodeid`. -/
def raftGetNodeid : Int := me.node.getD (-1)

/-- `raft_get_my_node`. -/
def raftGetMyNode : Option Node := raftGetNode me (raftGetNodeid me)

/-- `raft_add_node`. -/
def raftAddNode (id : Int) (isSelf : Bool) : Server :=
  match raftGetNode me id with
  | some node =>
      if ¬ node.isVoting then me.change id fun node => { node with isVoting := true } else me
  | none =>
      { me with
        nodes := me.nodes ++ [raftNodeNew id]
        node := if isSelf then some id else me.node }

/-- `raft_get_num_voting_nodes`. -/
def raftGetNumVotingNodes : Nat :=
  me.nodes.countP fun node => node.isActive && node.isVoting

/-- `raft_get_current_idx`. -/
def raftGetCurrentIdx : Nat := logGetCurrentIdx me.log

/-- `raft_get_entry_from_idx`. -/
def raftGetEntryFromIdx (etyidx : Nat) : Option Entry := logGetAtIdx me.log etyidx

/-- `raft_get_last_log_term`. -/
def raftGetLastLogTerm : Nat :=
  let currentIdx := raftGetCurrentIdx me
  if 0 < currentIdx then
    match raftGetEntryFromIdx me currentIdx with
    | some ety => ety.term
    | none => 0
  else 0

/-- `raft_is_apply_allowed`. -/
def raftIsApplyAllowed : Bool :=
  !me.snapshotInProgress || me.snapshotNonblockingApply

/-- `raft_voting_change_is_in_progress`. -/
def raftVotingChangeIsInProgress : Bool := me.votingCfgChangeLogIdx != -1

/-- `raft_already_voted`. -/
def raftAlreadyVoted : Bool := me.votedFor != -1

/-- `raft_randomize_election_timeout`. -/
def raftRandomizeElectionTimeout (rand : Nat) : Server :=
  { me with electionTimeoutRand := me.electionTimeout + rand % me.electionTimeout }

/-- `raft_set_current_term`. -/
def raftSetCurrentTerm (term : Nat) : Server :=
  if me.currentTerm < term then
    { me.call (.persistTerm term (-1)) with currentTerm := term, votedFor := -1 }
  else me

/-- `raft_set_commit_idx`. -/
def raftSetCommitIdx (idx : Nat) : Option Server :=
  if me.commitIdx ≤ idx ∧ idx ≤ raftGetCurrentIdx me then
    some { me with commitIdx := idx }
  else none

/-- `raft_set_state`. -/
def raftSetState (state : ServerState) : Server :=
  let me := if state = .leader then { me with currentLeader := me.node } else me
  { me with state := state }

/-- `raft_vote_for_nodeid`. -/
def raftVoteForNodeid (nodeid : Int) : Server :=
  { me.call (.persistVote nodeid) with votedFor := nodeid }

/-- `raft_vote`. -/
def raftVote (node : Option Int) : Server := raftVoteForNodeid me (node.getD (-1))

/-- `raft_become_follower`. -/
def raftBecomeFollower (rand : Nat) : Server :=
  let me := raftSetState me .follower
  let me := raftRandomizeElectionTimeout me rand
  { me with timeoutElapsed := 0 }

end Properties

/-! ## Entries -/

/-- `raft_entry_is_voting_cfg_change`. -/
def raftEntryIsVotingCfgChange (ety : Entry) : Bool :=
  RAFT_LOGTYPE_ADD_NODE == ety.type || RAFT_LOGTYPE_DEMOTE_NODE == ety.type

/-- `raft_entry_is_cfg_change`. -/
def raftEntryIsCfgChange (ety : Entry) : Bool :=
  RAFT_LOGTYPE_ADD_NODE == ety.type || RAFT_LOGTYPE_ADD_NONVOTING_NODE == ety.type ||
    RAFT_LOGTYPE_DEMOTE_NODE == ety.type || RAFT_LOGTYPE_REMOVE_NODE == ety.type

/-- `raft_offer_log` and `raft_pop_log`: for a change of the members they call
`log_get_node_id`, which is missing. -/
def raftOfferLog (me : Server) (ety : Entry) : Option Server :=
  if ¬ raftEntryIsCfgChange ety then some me else none

section Entries

variable (me : Server)

/-- `raft_append_entry` with the callbacks of `log_append_entry`. -/
def raftAppendEntry (ety : Entry) : Option Server :=
  let me := if raftEntryIsVotingCfgChange ety then
    { me with votingCfgChangeLogIdx := raftGetCurrentIdx me } else me
  let idx := me.log.base + me.log.count + 1
  do
    let me ← raftOfferLog (me.call (.logOffer ety idx)) ety
    return { me with log := logAppendEntry me.log ety }

/-- The callbacks of `log_delete` for the entries it pops. -/
def popCallbacks : List (Entry × Nat) → Server → Option Server
  | [], me => some me
  | (ety, idx) :: popped, me => do
      let me ← raftOfferLog (me.call (.logPop ety idx)) ety
      popCallbacks popped me

/-- `raft_delete_entry_from_idx`. -/
def raftDeleteEntryFromIdx (idx : Nat) : Option (Int × Server) :=
  if me.commitIdx < idx then
    let me := if (idx : Int) ≤ me.votingCfgChangeLogIdx then
      { me with votingCfgChangeLogIdx := -1 } else me
    let (e, log, popped) := logDelete me.log idx
    do
      let me ← popCallbacks popped me
      return (e, { me with log := log })
  else none

/-- `raft_apply_entry`. -/
def raftApplyEntry : Option (Int × Server) :=
  if ¬ raftIsApplyAllowed me then some (-1, me)
  else if me.lastAppliedIdx = me.commitIdx then some (-1, me)
  else
    let logIdx := me.lastAppliedIdx + 1
    match raftGetEntryFromIdx me logIdx with
    | none => some (-1, me)
    | some ety =>
        let me := { me with lastAppliedIdx := me.lastAppliedIdx + 1 }
        let me := me.call (.applylog ety me.lastAppliedIdx)
        let me := if (logIdx : Int) = me.votingCfgChangeLogIdx then
          { me with votingCfgChangeLogIdx := -1 } else me
        -- the rest is for changes of the members, and calls the missing `log_get_node_id`
        if ¬ raftEntryIsCfgChange ety then some (0, me) else none

/-- The loop of `raft_apply_all`. -/
def applyLoop : Nat → Server → Option (Int × Server)
  | 0, me => some (0, me)
  | n + 1, me =>
      if me.lastAppliedIdx < me.commitIdx then do
        let (e, me) ← raftApplyEntry me
        if e ≠ 0 then return (e, me) else applyLoop n me
      else some (0, me)

/-- `raft_apply_all`: an entry is applied in each round of its loop. -/
def raftApplyAll : Option (Int × Server) :=
  if ¬ raftIsApplyAllowed me then some (0, me)
  else applyLoop (me.commitIdx - me.lastAppliedIdx) me

/-- `raft_msg_entry_response_committed`. -/
def raftMsgEntryResponseCommitted (r : EntryResponse) : Int :=
  match raftGetEntryFromIdx me r.idx with
  | none => 0
  | some ety => if r.term ≠ ety.term then -1 else if r.idx ≤ me.commitIdx then 1 else 0

end Entries

/-! ## Sending and changes of the state -/

section Sending

variable (me : Server)

/-- `raft_send_requestvote`. -/
def raftSendRequestvote (node : Int) : Option Server :=
  if me.node = some node then none
  else
    let rv : RequestVote :=
      { term := me.currentTerm
        lastLogIdx := raftGetCurrentIdx me
        last_log_term := raftGetLastLogTerm me
        candidateId := raftGetNodeid me }
    some (me.call (.sendRequestvote node rv))

/-- The index and the term of the entry before the next one. -/
def prevEntry (nextIdx : Nat) : Nat × Nat :=
  if 1 < nextIdx then
    match raftGetEntryFromIdx me (nextIdx - 1) with
    | none => (me.snapshotLastIdx, me.snapshotLastTerm)
    | some prevEty => (nextIdx - 1, prevEty.term)
  else (0, 0)

/-- `raft_send_appendentries`. -/
def raftSendAppendentries (node : Int) : Option (Int × Server) :=
  if me.node = some node then none
  else do
    let receiver ← raftGetNode me node
    let nextIdx := receiver.nextIdx
    if 0 < me.snapshotLastIdx ∧ nextIdx < me.snapshotLastIdx then
      return (RAFT_ERR_NEEDS_SNAPSHOT, me)
    else
      let entries ← logGetFromIdx me.log nextIdx
      -- the assertion on the entries and their number
      if entries = some [] then none
      else
        let ae : AppendEntries :=
          { term := me.currentTerm
            leaderCommit := me.commitIdx
            prevLogIdx := (prevEntry me nextIdx).1
            prevLogTerm := (prevEntry me nextIdx).2
            entries := entries.getD [] }
        return (0, me.call (.sendAppendentries node ae))

/-- The loop of `raft_send_appendentries_all` over the nodes. -/
def sendAll : List Node → Server → Option (Int × Server)
  | [], me => some (0, me)
  | node :: nodes, me =>
      if me.node = some node.id ∨ ¬ node.isActive then sendAll nodes me
      else do
        let (e, me) ← raftSendAppendentries me node.id
        if e ≠ 0 then return (e, me) else sendAll nodes me

/-- `raft_send_appendentries_all`. -/
def raftSendAppendentriesAll : Option (Int × Server) :=
  sendAll me.nodes { me with timeoutElapsed := 0 }

/-- The round of the loop of `raft_become_leader` for a node. -/
def leadNode (me : Server) (node : Node) : Option Server :=
  if me.node = some node.id ∨ ¬ node.isActive then some me
  else do
    let me := me.change node.id fun node =>
      (node.setNextIdx (raftGetCurrentIdx me + 1)).setMatchIdx 0
    let (_, me) ← raftSendAppendentries me node.id
    return me

/-- `raft_become_leader`. -/
def raftBecomeLeader : Option Server :=
  let me := { raftSetState me .leader with timeoutElapsed := 0 }
  me.nodes.foldlM leadNode me

/-- The round of the loop of `raft_become_candidate` for a node. -/
def askNode (me : Server) (node : Node) : Option Server :=
  if me.node ≠ some node.id ∧ node.isActive ∧ node.isVoting then
    raftSendRequestvote me node.id
  else some me

/-- `raft_become_candidate` up to its second loop. -/
def standForElection (rand : Nat) : Server :=
  let me := raftSetCurrentTerm me (me.currentTerm + 1)
  let me := { me with nodes := me.nodes.map fun node => node.voteForMe false }
  let me := raftVote me me.node
  let me := { me with currentLeader := none }
  let me := raftSetState me .candidate
  let me := raftRandomizeElectionTimeout me rand
  { me with timeoutElapsed := 0 }

/-- `raft_become_candidate`. -/
def raftBecomeCandidate (rand : Nat) : Option Server :=
  let me := standForElection me rand
  me.nodes.foldlM askNode me

/-- `raft_election_start`. -/
def raftElectionStart (rand : Nat) : Option Server := raftBecomeCandidate me rand

/-- What all handlers do about a later term. -/
def stepDown (term rand : Nat) : Server :=
  raftBecomeFollower (raftSetCurrentTerm me term) rand

/-- The test of `raft_periodic` that this node may vote. -/
def myNodeIsVoting : Option Bool := (raftGetMyNode me).map (·.isVoting)

/-- The part of `raft_periodic` for a group with one voting node. -/
def leadAlone : Option Server :=
  if 1 = raftGetNumVotingNodes me then
    (myNodeIsVoting me).bind fun voting =>
      if voting ∧ me.state ≠ .leader then raftBecomeLeader me else some me
  else some me

/-- The part of `raft_periodic` for the timeouts. -/
def checkTimeouts (rand : Nat) : Option Server :=
  if me.state = .leader then
    if me.requestTimeout ≤ me.timeoutElapsed then
      (raftSendAppendentriesAll me).map (·.2)
    else some me
  else if me.electionTimeoutRand ≤ me.timeoutElapsed ∧ ¬ me.snapshotInProgress then
    if 1 < raftGetNumVotingNodes me then
      (myNodeIsVoting me).bind fun voting =>
        if voting then raftElectionStart me rand else some me
    else some me
  else some me

/-- `raft_periodic`. -/
def raftPeriodic (msecSinceLastPeriod rand : Nat) : Option (Int × Server) := do
  let me := { me with timeoutElapsed := me.timeoutElapsed + msecSinceLastPeriod }
  let me ← leadAlone me
  let me ← checkTimeouts me rand
  if me.lastAppliedIdx < me.commitIdx ∧ raftIsApplyAllowed me then raftApplyAll me
  else return (0, me)

end Sending

/-! ## Elections -/

section Elections

variable (me : Server)

/-- `__should_grant_vote`. -/
def shouldGrantVote (vr : RequestVote) : Option Bool := do
  let my_node ← raftGetMyNode me
  if ¬ my_node.isVoting then return false
  if vr.term < me.currentTerm then return false
  if raftAlreadyVoted me then return false
  let currentIdx := raftGetCurrentIdx me
  if currentIdx = 0 then return true
  match raftGetEntryFromIdx me currentIdx with
  | some ety => return recent (toInt32 ety.term) currentIdx
  | none =>
      if me.snapshotLastIdx = currentIdx then
        return recent (toInt32 me.snapshotLastTerm) currentIdx
      else return false
where
  recent (etyTerm : Int) (currentIdx : Nat) : Bool :=
    etyTerm < vr.last_log_term ∨ (vr.last_log_term : Int) = etyTerm ∧
      currentIdx ≤ vr.lastLogIdx

/-- What `raft_recv_requestvote` does about a later term. -/
def heedTerm (term rand : Nat) : Server :=
  if me.currentTerm < term then { stepDown me term rand with currentLeader := none } else me

/-- `raft_recv_requestvote`. -/
def raftRecvRequestvote (node : Option Int) (vr : RequestVote) (rand : Nat) :
    Option (Server × RequestVoteResponse) :=
  let node := node.or ((raftGetNode me vr.candidateId).map (·.id))
  if me.currentLeader ≠ none ∧ me.currentLeader ≠ node ∧
      me.timeoutElapsed < me.electionTimeout then
    some (me, ⟨me.currentTerm, RAFT_REQUESTVOTE_ERR_NOT_GRANTED⟩)
  else do
    let me := heedTerm me vr.term rand
    if ← shouldGrantVote me vr then
      if me.state = .leader ∨ me.state = .candidate then none
      else
        let me := raftVoteForNodeid me vr.candidateId
        let me := { me with currentLeader := none, timeoutElapsed := 0 }
        return (me, ⟨me.currentTerm, RAFT_REQUESTVOTE_ERR_GRANTED⟩)
    else if node = none then
      return (me, ⟨me.currentTerm, RAFT_REQUESTVOTE_ERR_UNKNOWN_NODE⟩)
    else return (me, ⟨me.currentTerm, RAFT_REQUESTVOTE_ERR_NOT_GRANTED⟩)

/-- `raft_get_nvotes_for_me`. -/
def raftGetNvotesForMe : Nat :=
  let votes := me.nodes.countP fun node =>
    me.node ≠ some node.id ∧ node.isActive ∧ node.isVoting ∧ node.hasVoteForMe
  if me.votedFor = raftGetNodeid me then votes + 1 else votes

/-- `raft_votes_is_majority`. -/
def raftVotesIsMajority (numNodes nvotes : Nat) : Bool :=
  if numNodes < nvotes then false
  else
    let half := numNodes / 2
    half + 1 ≤ nvotes

/-- `raft_recv_requestvote_response`. -/
def raftRecvRequestvoteResponse (node : Option Int) (r : RequestVoteResponse) (rand : Nat) :
    Option (Int × Server) :=
  if me.state ≠ .candidate then some (0, me)
  else if me.currentTerm < r.term then
    some (0, { stepDown me r.term rand with currentLeader := none })
  else if me.currentTerm ≠ r.term then some (0, me)
  else if r.voteGranted = RAFT_REQUESTVOTE_ERR_GRANTED then
    let me := match node with
      | some node => me.change node fun node => node.voteForMe true
      | none => me
    let votes := raftGetNvotesForMe me
    if raftVotesIsMajority (raftGetNumVotingNodes me) votes then do
      let me ← raftBecomeLeader me
      return (0, me)
    else some (0, me)
  else if r.voteGranted = RAFT_REQUESTVOTE_ERR_NOT_GRANTED then some (0, me)
  else if r.voteGranted = RAFT_REQUESTVOTE_ERR_UNKNOWN_NODE then do
    if (← myNodeIsVoting me) ∧ me.connected = RAFT_NODE_STATUS_DISCONNECTING then
      return (RAFT_ERR_SHUTDOWN, me)
    else return (0, me)
  else none

end Elections

/-! ## Replication -/

section Replication

variable (me : Server)

/-- The update of the commit index in `raft_recv_appendentries_response`. -/
def updateCommitIdx (point : Nat) : Option Server :=
  if point ≠ 0 ∧ me.commitIdx < point then do
    let ety ← raftGetEntryFromIdx me point
    if ety.term = me.currentTerm then
      let votes := 1 + me.nodes.countP fun node =>
        me.node ≠ some node.id ∧ node.isActive ∧ node.isVoting ∧ point ≤ node.matchIdx
      if raftGetNumVotingNodes me / 2 < votes then raftSetCommitIdx me point
      else return me
    else return me
  else some me

/-- `raft_recv_appendentries_response`; the callback `node_has_sufficient_logs` is
missing. -/
def raftRecvAppendentriesResponse (node : Option Int) (r : AppendEntriesResponse)
    (rand : Nat) : Option (Int × Server) :=
  match node with
  | none => some (-1, me)
  | some id =>
      if me.state ≠ .leader then some (RAFT_ERR_NOT_LEADER, me)
      else if me.currentTerm < r.term then
        some (0, { stepDown me r.term rand with currentLeader := none })
      else if me.currentTerm ≠ r.term then some (0, me)
      else do
        let node ← raftGetNode me id
        let matchIdx := node.matchIdx
        if ¬ r.success then
          let nextIdx := node.nextIdx
          if nextIdx = 0 then none
          -- a response that is out of date
          else if r.currentIdx < matchIdx then return (0, me)
          else
            let me := me.change id fun node =>
              if r.currentIdx < nextIdx - 1 then
                node.setNextIdx (min (r.currentIdx + 1) (raftGetCurrentIdx me))
              else node.setNextIdx (nextIdx - 1)
            let (_, me) ← raftSendAppendentries me id
            return (0, me)
        else if r.currentIdx ≤ matchIdx then return (0, me)
        else if raftGetCurrentIdx me < r.currentIdx then none
        else
          let me := me.change id fun node =>
            (node.setNextIdx (r.currentIdx + 1)).setMatchIdx r.currentIdx
          let me ← updateCommitIdx me r.currentIdx
          let node ← raftGetNode me id
          if (raftGetEntryFromIdx me node.nextIdx).isSome then
            let (_, me) ← raftSendAppendentries me id
            return (0, me)
          else return (0, me)

/-- The first loop of `raft_recv_appendentries` over the entries from index `ety_index` on:
the error code, the server, the entries that are left and the current index. -/
def matchLoop (etyIndex currentIdx : Nat) :
    List Entry → Option (Int × Server × List Entry × Nat)
  | [] => some (0, me, [], currentIdx)
  | ety :: rest =>
      match raftGetEntryFromIdx me etyIndex with
      | some existingEty =>
          if existingEty.term ≠ ety.term then
            if etyIndex ≤ me.commitIdx then
              some (RAFT_ERR_SHUTDOWN, me, ety :: rest, currentIdx)
            else do
              let (e, me) ← raftDeleteEntryFromIdx me etyIndex
              return (e, me, ety :: rest, currentIdx)
          else matchLoop (etyIndex + 1) etyIndex rest
      | none => some (0, me, ety :: rest, currentIdx)

/-- The second loop of `raft_recv_appendentries`. -/
def appendLoop : List Entry → Server → Option Server
  | [], me => some me
  | ety :: rest, me => do
      let me ← raftAppendEntry me ety
      appendLoop rest me

variable (ae : AppendEntries)

/-- `raft_recv_appendentries` behind its label `out`. -/
def appendEntriesOut (e : Int) (success : Bool) (currentIdx : Nat) :
    Int × Server × AppendEntriesResponse :=
  (e, me, {
    term := me.currentTerm
    success := success
    currentIdx := if success then currentIdx else raftGetCurrentIdx me
    firstIdx := ae.prevLogIdx + 1 })

/-- The update of the commit index in `raft_recv_appendentries`. -/
def followCommitIdx (leaderCommit : Nat) : Option Server :=
  if me.commitIdx < leaderCommit then
    let lastLogIdx := max (raftGetCurrentIdx me) 1
    raftSetCommitIdx me (min lastLogIdx leaderCommit)
  else some me

/-- `raft_recv_appendentries` once the entry before the new ones is found. -/
def storeEntries : Option (Int × Server × AppendEntriesResponse) := do
  let (e, me, rest, currentIdx) ← matchLoop me (ae.prevLogIdx + 1) ae.prevLogIdx ae.entries
  if e ≠ 0 then return appendEntriesOut me ae e true currentIdx
  let me ← appendLoop rest me
  let currentIdx := if rest = [] then currentIdx else ae.prevLogIdx + ae.entries.length
  let me ← followCommitIdx me ae.leaderCommit
  return appendEntriesOut me ae 0 true currentIdx

/-- `raft_recv_appendentries` for a message of the own term. -/
def acceptEntries (node : Option Int) : Option (Int × Server × AppendEntriesResponse) :=
  let me := { me with currentLeader := node, timeoutElapsed := 0 }
  if 0 < ae.prevLogIdx then
    if ae.prevLogIdx = me.snapshotLastIdx then
      if me.snapshotLastTerm ≠ ae.prevLogTerm then
        some (appendEntriesOut me ae RAFT_ERR_SHUTDOWN false 0)
      else storeEntries me ae
    else
      match raftGetEntryFromIdx me ae.prevLogIdx with
      | none => some (appendEntriesOut me ae 0 false 0)
      | some ety =>
          if ety.term ≠ ae.prevLogTerm then
            if ae.prevLogIdx ≤ me.commitIdx then
              some (appendEntriesOut me ae RAFT_ERR_SHUTDOWN false 0)
            else do
              let (e, me) ← raftDeleteEntryFromIdx me ae.prevLogIdx
              return appendEntriesOut me ae e false 0
          else storeEntries me ae
  else storeEntries me ae

/-- `raft_recv_appendentries`. -/
def raftRecvAppendentries (node : Option Int) (rand : Nat) :
    Option (Int × Server × AppendEntriesResponse) :=
  if me.state = .candidate ∧ me.currentTerm = ae.term then
    acceptEntries (raftBecomeFollower me rand) ae node
  else if me.currentTerm < ae.term then acceptEntries (stepDown me ae.term rand) ae node
  else if ae.term < me.currentTerm then some (appendEntriesOut me ae 0 false 0)
  else acceptEntries me ae node

/-- The round of the loop of `raft_recv_entry` for a node. -/
def offerNode (me : Server) (node : Node) : Option Server :=
  if me.node = some node.id ∨ ¬ node.isActive ∨ ¬ node.isVoting then some me
  else if node.nextIdx = raftGetCurrentIdx me then do
    let (_, me) ← raftSendAppendentries me node.id
    return me
  else some me

/-- The update of the commit index in `raft_recv_entry`. -/
def commitAlone : Option Server :=
  if 1 = raftGetNumVotingNodes me then raftSetCommitIdx me (raftGetCurrentIdx me)
  else some me

/-- `raft_recv_entry` with its response. -/
def raftRecvEntry (ety : Entry) : Option (Int × Server × EntryResponse) :=
  let refused (e : Int) : Option (Int × Server × EntryResponse) := some (e, me, ⟨0, 0, 0⟩)
  if raftEntryIsVotingCfgChange ety ∧ raftVotingChangeIsInProgress me then
    refused RAFT_ERR_ONE_VOTING_CHANGE_ONLY
  else if raftEntryIsVotingCfgChange ety ∧ ¬ raftIsApplyAllowed me then
    refused RAFT_ERR_SNAPSHOT_IN_PROGRESS
  else if me.state ≠ .leader then refused RAFT_ERR_NOT_LEADER
  else do
    let ety := { ety with term := me.currentTerm }
    let me ← raftAppendEntry me ety
    let me ← me.nodes.foldlM offerNode me
    let me ← commitAlone me
    let r : EntryResponse :=
      { id := ety.id, idx := raftGetCurrentIdx me, term := me.currentTerm }
    let me := if raftEntryIsVotingCfgChange ety then
      { me with votingCfgChangeLogIdx := raftGetCurrentIdx me } else me
    return (0, me, r)

end Replication

end Raft

end LuaServer
