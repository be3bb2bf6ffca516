import LuaServer.RaftRelation

/-!
# Elections and ticks

A server that stands for election, asks for votes, gives its own and leads takes steps of
its member, and so does one whose timeouts elapse; none of its assertions fails.
-/

namespace LuaServer

namespace Raft

open MachineIntegers ReplicatedLogs PartialSimulations

section Steps

variable {ids : List Int} {a a' : ReplicatedLogs.State Int Entry} {i : Int} {me me' : Server}

/-! ## What a leader sends -/

/-- All entries from an index on are read at once. -/
theorem Core.from_idx (core : Core ids a i me) {idx : Nat} (positive : 1 ≤ idx)
    (le : idx ≤ (a.log i).length + 1) :
    ∃ entries, logGetFromIdx me.log idx = some entries ∧ entries ≠ some [] ∧
      entries.getD [] = (a.log i).drop (idx - 1) := by
  have count : me.log.count = (a.log i).length := by rw [← core.entries, length_toList]
  by_cases inside : idx ≤ (a.log i).length
  · obtain ⟨entries, eq, some_, -, whole⟩ := core.formed.logGetFromIdx
      (by rw [core.base]; exact positive) (by rw [core.base, count, Nat.zero_add]; exact inside)
    have room := core.formed.room
    refine ⟨some entries, eq, by simpa using some_, ?_⟩
    rw [Option.getD_some, whole (by rw [core.front]; omega), core.base, core.entries, Nat.sub_zero]
  · refine ⟨none, ?_, nofun, ?_⟩
    · rw [logGetFromIdx, if_neg (by omega), if_pos (by rw [core.base, count]; omega)]
    · rw [List.drop_eq_nil_of_le (by omega)]
      rfl

/-- The entry before an index. -/
theorem Core.prev_entry (core : Core ids a i me) {idx : Nat} (positive : 1 ≤ idx)
    (le : idx ≤ (a.log i).length + 1) :
    ∃ term, prevEntry me idx = (idx - 1, term) ∧
      (0 < idx - 1 → ∃ ety, (a.log i)[idx - 1 - 1]? = some ety ∧ ety.term = term) := by
  rw [prevEntry]
  by_cases behind : 1 < idx
  · have found := List.getElem?_eq_getElem (show idx - 1 - 1 < (a.log i).length by omega)
    rw [if_pos behind, core.entry_at, if_neg (by omega), found]
    exact ⟨_, rfl, fun _ => ⟨_, rfl, rfl⟩⟩
  · rw [if_neg behind]
    exact ⟨0, by rw [show idx - 1 = 0 by omega], fun some_ => absurd some_ (by omega)⟩

theorem Core.raftSendAppendentries (core : Core ids a i me) (leads : Leading a i) {id : Int}
    {node : Node} (get : raftGetNode me id = some node) (other : id ≠ i)
    (positive : 1 ≤ node.nextIdx) (le : node.nextIdx ≤ (a.log i).length + 1) :
    ∃ m, Raft.raftSendAppendentries me id = some (0, me.call (.sendAppendentries id m)) ∧
      CallOk ids a i (.sendAppendentries id m) := by
  obtain ⟨entries, eq, some_, list⟩ := core.from_idx positive le
  obtain ⟨term, prev, prevTerm⟩ := core.prev_entry positive le
  have noSnapshot : ¬ (0 < me.snapshotLastIdx ∧ node.nextIdx < me.snapshotLastIdx) := by
    rw [core.snapshot.2]
    omega
  have notSelf : me.node ≠ some id := by
    rw [core.node]
    exact fun same => other (Option.some.inj same).symm
  have leaderEq : a.log i = a.leaderLog me.currentTerm := by
    rw [core.term]
    exact core.sound.leads i leads.elected
  have settled : Settled Entry.term (Quorum ids) a me.currentTerm
      ((a.log i).take me.commitIdx) := core.term ▸ core.settled
  have elected : a.elected me.currentTerm = some i := core.term ▸ leads.elected
  rw [Raft.raftSendAppendentries, if_neg notSelf, get]
  simp only [Option.bind_eq_bind, Option.bind_some, if_neg noSnapshot, eq, if_neg some_, prev]
  exact ⟨_, rfl, other, elected, a.log i, ⟨[], by rw [List.append_nil]; exact leaderEq⟩,
    Nat.sub_le_of_le_add le, list, prevTerm, core.commit, settled, core.normal⟩

/-! ## Elections -/

theorem standForElection_eq (me : Server) (rand : Nat) :
    standForElection me rand =
      { (me.call (.persistTerm (me.currentTerm + 1) (-1))).call
          (.persistVote (me.node.getD (-1))) with
        currentTerm := me.currentTerm + 1
        votedFor := me.node.getD (-1)
        state := .candidate
        nodes := me.nodes.map fun node => node.voteForMe false
        currentLeader := none
        electionTimeoutRand := me.electionTimeout + rand % me.electionTimeout
        timeoutElapsed := 0 } := by
  rw [standForElection, raftSetCurrentTerm, if_pos (Nat.lt_succ_self _)]
  rfl

theorem Agrees.standForElection (agrees : Agrees ids a i me) (group : Group ids)
    (inGroup : i ∈ ids) (rand : Nat) :
    ∃ a', Step Entry.term (Quorum ids) i a a' ∧
      Agrees ids a' i (Raft.standForElection me rand) := by
  have step : Step Entry.term (Quorum ids) i a _ := Step.stand
  have termEq : Function.update a.term i (a.term i + 1) i = a.term i + 1 :=
    Function.update_self ..
  have castEq : a.cast i (a.term i + 1) i i (a.term i + 1) = some i := State.cast_self ..
  have unled : a.elected (a.term i + 1) ≠ some i := fun led =>
    absurd (agrees.sound.leaders _ i led).1 (by omega)
  have applied : ((me.call (.persistTerm (me.currentTerm + 1) (-1))).call
      (.persistVote (me.node.getD (-1)))).applied = me.applied :=
    (applied_call _ (.persistVote _) rfl).trans (applied_call _ (.persistTerm _ _) rfl)
  rw [standForElection_eq]
  refine ⟨_, step, {
    toCore := agrees.keep group (.single step) rfl ?_ ?_ ?_ ?_ applied ?_
    unled := fun _ => ?_
    candidate := fun _ => ⟨?_, ?_, fun node member voted => ?_⟩
    leader := nofun
    tracked := nofun }⟩
  · simp [castEq, agrees.node, agrees.term, Server.call]
  · simp [Node.voteForMe, Function.comp_def]
  · intro node member
    obtain ⟨old, inNodes, rfl⟩ := List.mem_map.mp member
    exact agrees.flags old inNodes
  · intro c said
    simp only [termEq, castEq, Option.some.injEq] at said
    exact said ▸ inGroup
  · intro callback member
    simp only [Server.call, List.mem_append, List.mem_singleton] at member
    rcases member with (old | rfl) | rfl
    · exact Or.inl old
    · exact Or.inr trivial
    · exact Or.inr trivial
  · simpa only [termEq] using unled
  · simp
  · simp [castEq]
  · obtain ⟨old, inNodes, rfl⟩ := List.mem_map.mp member
    exact absurd voted Bool.false_ne_true

theorem Agrees.askNode (agrees : Agrees ids a i me) (group : Group ids)
    (state : me.state = .candidate) (node : Node) :
    ∃ me', Raft.askNode me node = some me' ∧ Agrees ids a i me' ∧ me'.state = .candidate := by
  rw [Raft.askNode]
  split
  · next asks =>
    have own : raftGetNodeid me = i := by rw [raftGetNodeid, agrees.node]; rfl
    have other : node.id ≠ i := by
      rintro rfl
      exact asks.1 agrees.node
    have standing := agrees.candidate state
    rw [raftSendRequestvote, if_neg asks.1]
    refine ⟨_, rfl, agrees.call group ⟨other, own, a.log i, ?_, ?_, ?_⟩ rfl, state⟩
    · rw [agrees.term]
      exact standing.stood
    · exact agrees.currentIdx
    · exact agrees.last_log_term
  · exact ⟨me, rfl, agrees, state⟩

theorem Agrees.raftBecomeCandidate (agrees : Agrees ids a i me) (group : Group ids)
    (inGroup : i ∈ ids) (rand : Nat) :
    Follows (Step Entry.term (Quorum ids) i) a (Raft.raftBecomeCandidate me rand)
      fun a' me' => Agrees ids a' i me' := by
  obtain ⟨a', step, agrees'⟩ := agrees.standForElection group inGroup rand
  have state : (Raft.standForElection me rand).state = .candidate := rfl
  refine Follows.step step (Follows.mono (follows_foldlM
    (fun _ a' me' => Agrees ids a' i me' ∧ me'.state = .candidate) ⟨agrees', state⟩ ?_)
    fun _ _ fits => fits.1)
  rintro node rest a' me' ⟨agrees', state'⟩
  obtain ⟨me'', eq, agrees'', state''⟩ := agrees'.askNode group state' node
  rw [eq]
  exact follows_some ⟨agrees'', state''⟩


variable (ids) in
/-- A leader in the loop over the nodes that are left. -/
structure Taking (i : Int) (left : List Node) (a : ReplicatedLogs.State Int Entry)
    (me : Server) : Prop where
  core : Core ids a i me
  leads : Leading a i
  state : me.state = .leader
  known : ∀ node ∈ left, node.id ∈ ids ∧ node.isActive = true
  tracked : ∀ node ∈ me.nodes, node.id ≠ i → node.id ∉ left.map (·.id) → Tracked a i node

theorem Taking.leadNode {node : Node} {left : List Node}
    (taking : Taking ids i (node :: left) a me) (group : Group ids) :
    ∃ me', Raft.leadNode me node = some me' ∧ Taking ids i left a me' := by
  obtain ⟨core, leads, state, inGroup, tracked⟩ := taking
  have inLeft : ∀ node ∈ left, node.id ∈ ids ∧ node.isActive = true :=
    fun node member => inGroup node (List.mem_cons_of_mem _ member)
  obtain ⟨known, active⟩ := inGroup node List.mem_cons_self
  rw [Raft.leadNode]
  by_cases self : node.id = i
  · rw [if_pos (Or.inl (by rw [core.node, self]))]
    refine ⟨me, rfl, core, leads, state, inLeft, fun other member apart notLeft => ?_⟩
    refine tracked other member apart fun inAll => ?_
    rcases List.mem_cons.mp inAll with same | inOthers
    · exact apart (same.trans self)
    · exact notLeft inOthers
  · have notSelf : ¬ (me.node = some node.id ∨ ¬ node.isActive = true) := by
      rw [core.node, active]
      simpa using fun same : i = node.id => self same.symm
    rw [if_neg notSelf]
    have core' := core.change group node.id (f := fun node =>
      (node.setNextIdx (raftGetCurrentIdx me + 1)).setMatchIdx 0)
      (fun _ => rfl) fun _ => ⟨rfl, rfl⟩
    obtain ⟨old, -, -, get⟩ := core.get_node known
    have get' := get_node_change me node.id (f := fun node =>
      (node.setNextIdx (raftGetCurrentIdx me + 1)).setMatchIdx 0) fun _ => rfl
    rw [get, Option.map_some] at get'
    obtain ⟨m, eq, ok⟩ := core'.raftSendAppendentries leads get' self
      (by simp [Node.setNextIdx, Node.setMatchIdx])
      (by simp [Node.setNextIdx, Node.setMatchIdx, core.currentIdx])
    refine ⟨_, by simp only [eq, Option.bind_eq_bind, Option.bind_some, pure], core'.call group ok
      rfl, leads, state, inLeft, fun other member apart notLeft => ?_⟩
    obtain ⟨was, inNodes, rfl⟩ := mem_change.mp member
    split at notLeft
    · next same =>
      rw [if_pos same]
      exact ⟨by simp [Node.setNextIdx, Node.setMatchIdx],
        by simp [Node.setNextIdx, Node.setMatchIdx, core.currentIdx], Or.inl rfl⟩
    · next different =>
      rw [if_neg different] at apart ⊢
      refine tracked was inNodes apart fun inAll => ?_
      rcases List.mem_cons.mp inAll with same | inOthers
      · exact different same
      · exact notLeft inOthers

/-- The test of `raft_get_nvotes_for_me`. -/
def votesForMe (me : Server) (node : Node) : Bool :=
  me.node ≠ some node.id ∧ node.isActive ∧ node.isVoting ∧ node.hasVoteForMe

theorem Agrees.raftBecomeLeader (agrees : Agrees ids a i me) (group : Group ids)
    (inGroup : i ∈ ids) (state : me.state = .candidate)
    (many : ids.length < 2 * (me.nodes.countP (votesForMe me) + 1)) :
    Follows (Step Entry.term (Quorum ids) i) a (Raft.raftBecomeLeader me)
      fun a' me' => Agrees ids a' i me' := by
  have standing := agrees.candidate state
  have notSelf : ∀ node, votesForMe me node = true →
      node.id ≠ i ∧ node.hasVoteForMe = true := by
    intro node voted
    simp only [votesForMe, agrees.node, decide_eq_true_eq] at voted
    exact ⟨fun same => voted.1 (by rw [same]), voted.2.2.2⟩
  have quorum := group.quorum_of_countP agrees.nodes inGroup
    (fun node _ voted => (notSelf node voted).1) many
  have votes : ∀ v ∈ {v | v = i ∨ ∃ node ∈ me.nodes, node.id = v ∧ votesForMe me node = true},
      a.ballot v (a.term i) = some i := by
    rintro v (rfl | ⟨node, member, rfl, voted⟩)
    · exact standing.ballot
    · exact standing.votes node member (notSelf node voted).2
  have vacant : a.elected (a.term i) = none := by
    by_contra led
    obtain ⟨c, leader⟩ := Option.ne_none_iff_exists'.mp led
    have same := agrees.sound.elected_of_votes group.meets quorum votes leader
    exact agrees.unled (by rw [state]; nofun) (same ▸ leader)
  have step : Step Entry.term (Quorum ids) i a _ := Step.elect _ quorum votes standing.stood vacant
  refine Follows.step step (Follows.mono (follows_foldlM (Taking ids i) ?_ ?_)
    fun a' me' taking => ?_)
  · refine ⟨agrees.keep group (.single step) rfl (by rw [← agrees.vote, ← agrees.term]; rfl) rfl
      agrees.flags agrees.known rfl fun _ member => Or.inl member, ⟨?_, standing.ballot⟩, rfl,
      ?_, ?_⟩
    · exact Function.update_self ..
    · intro node member
      exact ⟨agrees.nodes ▸ List.mem_map_of_mem member, (agrees.flags node member).2⟩
    · intro node member _ notLeft
      exact absurd (List.mem_map_of_mem member) notLeft
  · intro node left a' me' taking
    obtain ⟨me'', eq, taking'⟩ := taking.leadNode group
    rw [eq]
    exact follows_some taking'
  · exact {
      taking.core with
      unled := fun other => absurd taking.state other
      candidate := fun other => by simp [taking.state] at other
      leader := fun _ => taking.leads
      tracked := fun _ node member apart => taking.tracked node member apart List.not_mem_nil }

theorem Agrees.of_leaderless (agrees : Agrees ids a i me) :
    Agrees ids a i { me with currentLeader := none } := agrees.of_volatile rfl

/-- A node has told the candidate that it has voted for it. -/
theorem Agrees.voteForMe (agrees : Agrees ids a i me) (group : Group ids)
    (state : me.state = .candidate) {sender : Int} (voted : a.ballot sender (a.term i) = some i) :
    Agrees ids a i (me.change sender fun node => node.voteForMe true) where
  toCore := agrees.change group sender (fun _ => rfl) fun _ => ⟨rfl, rfl⟩
  unled := agrees.unled
  candidate _ := by
    obtain ⟨stood, ballot, votes⟩ := agrees.candidate state
    refine ⟨stood, ballot, fun node member has => ?_⟩
    obtain ⟨old, inNodes, rfl⟩ := mem_change.mp member
    split at has
    · next same =>
      rw [if_pos same]
      exact same ▸ voted
    · next other =>
      rw [if_neg other]
      exact votes old inNodes has
  leader other := by
    rw [Server.change, state] at other
    exact absurd other (by decide)
  tracked other := by
    rw [Server.change, state] at other
    exact absurd other (by decide)

theorem Agrees.raftRecvRequestvoteResponse (agrees : Agrees ids a i me) (group : Group ids)
    (inGroup : i ∈ ids) {sender : Int} {r : RequestVoteResponse} (ok : VoteOk ids a sender i r)
    (rand : Nat) :
    Follows (Step Entry.term (Quorum ids) i) a
      (Raft.raftRecvRequestvoteResponse me (some sender) r rand)
      fun a' result => result.1 = 0 ∧ Agrees ids a' i result.2 := by
  rw [Raft.raftRecvRequestvoteResponse]
  by_cases state : me.state = .candidate
  · rw [if_neg (not_not.mpr state)]
    by_cases later : me.currentTerm < r.term
    · obtain ⟨a', step, agrees'⟩ := agrees.stepDown group later rand
      rw [if_pos later]
      exact Follows.step step (follows_some ⟨rfl, agrees'.of_leaderless⟩)
    · rw [if_neg later]
      by_cases other : me.currentTerm = r.term
      · rw [if_neg (not_not.mpr other)]
        rcases ok.value with granted | refused
        · have ballot : a.ballot sender (a.term i) = some i := by
            rw [← agrees.term, other]
            exact ok.granted granted
          have agrees' := agrees.voteForMe group state ballot
          have votes : raftGetNvotesForMe
              (me.change sender fun node => node.voteForMe true) =
                (me.change sender fun node => node.voteForMe true).nodes.countP
                  (votesForMe (me.change sender fun node => node.voteForMe true)) + 1 := by
            refine if_pos ?_
            rw [agrees'.vote, (agrees'.candidate state).ballot, raftGetNodeid, agrees'.node]
          rw [if_pos granted]
          simp only [votes, agrees'.num_voting_nodes]
          split
          · next majority =>
            have many : ids.length < 2 * ((me.change sender fun node =>
                node.voteForMe true).nodes.countP
                  (votesForMe (me.change sender fun node => node.voteForMe true)) + 1) := by
              rw [raftVotesIsMajority] at majority
              split at majority
              · exact absurd majority Bool.false_ne_true
              · have half := of_decide_eq_true majority
                omega
            exact (agrees'.raftBecomeLeader group inGroup state many).bind
              fun a' me' agrees'' => follows_some ⟨rfl, agrees''⟩
          · exact follows_some ⟨rfl, agrees'⟩
        · rw [refused, if_neg (by decide), if_pos rfl]
          exact follows_some ⟨rfl, agrees⟩
      · rw [if_pos other]
        exact follows_some ⟨rfl, agrees⟩
  · rw [if_pos state]
    exact follows_some ⟨rfl, agrees⟩

/-- A vote is granted in the own term and once only, and for a log that is as recent. -/
theorem Core.shouldGrantVote (core : Core ids a i me) (inGroup : i ∈ ids)
    (small : me.currentTerm < 2147483648) {vr : RequestVote} {log : List Entry}
    (idx : vr.lastLogIdx = log.length) (term : vr.last_log_term = lastTerm Entry.term log) :
    ∃ granted, Raft.shouldGrantVote me vr = some granted ∧ (granted = true →
      me.currentTerm ≤ vr.term ∧ me.votedFor = -1 ∧ Recent Entry.term log (a.log i)) := by
  obtain ⟨my_node, get, voting⟩ := core.my_node inGroup
  rw [Raft.shouldGrantVote, get]
  simp only [Option.bind_eq_bind, Option.bind_some, voting, not_true_eq_false, if_false]
  split
  · exact ⟨false, rfl, nofun⟩
  · next current =>
    split
    · exact ⟨false, rfl, nofun⟩
    · next free =>
      have notVoted : me.votedFor = -1 := by simpa [raftAlreadyVoted] using free
      rw [core.currentIdx]
      split
      · next empty =>
        refine ⟨true, rfl, fun _ => ⟨not_lt.mp current, notVoted, ?_⟩⟩
        rw [List.eq_nil_of_length_eq_zero empty, Recent]
        simp only [lastTerm, List.getLast?_nil, Option.map_none, Option.getD_none,
          List.length_nil, Nat.zero_le, and_true]
        omega
      · next some_ =>
        obtain ⟨ety, found⟩ : ∃ ety, (a.log i)[(a.log i).length - 1]? = some ety :=
          ⟨_, List.getElem?_eq_getElem (by omega)⟩
        have last : lastTerm Entry.term (a.log i) = ety.term := by
          rw [lastTerm, List.getLast?_eq_getElem?, found]
          rfl
        have early := (core.sound.logs i).2 ety (List.mem_of_getElem? found)
        rw [← core.term] at early
        have inRange : toInt32 ety.term = ety.term := toInt32_of_range (by omega) (by omega)
        rw [core.entry_at, if_neg some_, found]
        refine ⟨_, rfl, fun recent => ⟨not_lt.mp current, notVoted, ?_⟩⟩
        simp only [shouldGrantVote.recent, inRange, decide_eq_true_eq, idx, term] at recent
        rw [Recent, last]
        omega

/-- The vote is the member's first one in its term. -/
theorem Agrees.vote_for (agrees : Agrees ids a i me) (group : Group ids)
    (free : a.ballot i (a.term i) = none) {c : Int} (known : c ∈ ids) {log : List Entry}
    (standing : a.stood (a.term i) c = some log) (recent : Recent Entry.term log (a.log i)) :
    me.state = .follower ∧ ∃ a', Step Entry.term (Quorum ids) i a a' ∧
      a'.ballot i me.currentTerm = some c ∧
        Agrees ids a' i { raftVoteForNodeid me c with
          currentLeader := none, timeoutElapsed := 0 } := by
  have state : me.state = .follower := by
    cases state : me.state with
    | follower => rfl
    | candidate => exact nomatch (agrees.candidate state).ballot.symm.trans free
    | leader => exact nomatch (agrees.leader state).ballot.symm.trans free
  have step : Step Entry.term (Quorum ids) i a _ := Step.vote c log free standing recent
  have castEq : a.cast i (a.term i) c i (a.term i) = some c := State.cast_self ..
  have other : me.state ≠ .leader := by rw [state]; nofun
  refine ⟨state, _, step, ?_, {
    toCore := agrees.keep group (.single step) rfl ?_ rfl agrees.flags ?_
      (applied_call me (.persistVote c) rfl) (forall_calls_call (.persistVote c) trivial)
    unled := fun _ => agrees.unled other
    candidate := fun same => nomatch state.symm.trans same
    leader := fun same => nomatch state.symm.trans same
    tracked := fun same => nomatch state.symm.trans same }⟩
  · rw [agrees.term]
    exact castEq
  · simp [castEq, raftVoteForNodeid, Server.call, agrees.term]
  · intro c' said
    simp only [castEq, Option.some.injEq] at said
    exact said ▸ known

theorem Agrees.heedTerm (agrees : Agrees ids a i me) (group : Group ids) (term rand : Nat) :
    ∃ a', Moves Entry.term (Quorum ids) i a a' ∧ Agrees ids a' i (Raft.heedTerm me term rand) ∧
      (Raft.heedTerm me term rand).currentTerm = max me.currentTerm term := by
  rw [Raft.heedTerm]
  by_cases later : me.currentTerm < term
  · obtain ⟨a', step, agrees'⟩ := agrees.stepDown group later rand
    rw [if_pos later]
    refine ⟨a', .single step, agrees'.of_leaderless, ?_⟩
    rw [stepDown_eq later]
    exact (max_eq_right later.le).symm
  · rw [if_neg later]
    exact ⟨a, .refl, agrees, (max_eq_left (not_lt.mp later)).symm⟩

theorem Agrees.raftRecvRequestvote (agrees : Agrees ids a i me) (group : Group ids)
    (inGroup : i ∈ ids) {sender : Int} (known : sender ∈ ids) {vr : RequestVote}
    (request : RequestOk a sender vr) (small : me.currentTerm < 2147483648)
    (small' : vr.term < 2147483648) (rand : Nat) :
    Follows (Step Entry.term (Quorum ids) i) a
      (Raft.raftRecvRequestvote me (some sender) vr rand)
      fun a' result => Agrees ids a' i result.1 ∧ VoteOk ids a' i sender result.2 := by
  have refused : ∀ a' term, VoteOk ids a' i sender ⟨term, RAFT_REQUESTVOTE_ERR_NOT_GRANTED⟩ :=
    fun a' term => ⟨inGroup, known, Or.inr rfl, nofun⟩
  rw [Raft.raftRecvRequestvote, Option.some_or]
  split
  · exact follows_some ⟨agrees, refused a _⟩
  · obtain ⟨a', moves, agrees', termEq⟩ := agrees.heedTerm group vr.term rand
    obtain ⟨candidateId, log, stood, idx, term⟩ :=
      request.mono (moves.sound_grows agrees.sound).2
    generalize Raft.heedTerm me vr.term rand = me' at *
    have small'' : me'.currentTerm < 2147483648 := termEq ▸ max_lt small small'
    obtain ⟨granted, eq, grant⟩ := agrees'.shouldGrantVote inGroup small'' idx term
    refine Follows.of_moves moves ?_
    simp only [eq, Option.bind_eq_bind, Option.bind_some]
    cases granted with
    | false =>
        rw [if_neg Bool.false_ne_true, if_neg (Option.some_ne_none sender)]
        exact follows_some ⟨agrees', refused a' _⟩
    | true =>
        obtain ⟨current, notVoted, recent⟩ := grant rfl
        have sameTerm : vr.term = a'.term i := by
          rw [← agrees'.term]
          omega
        have free : a'.ballot i (a'.term i) = none := by
          cases said : a'.ballot i (a'.term i) with
          | none => rfl
          | some c =>
              have voted := agrees'.vote
              rw [notVoted, said, Option.getD_some] at voted
              exact absurd (voted ▸ agrees'.known c said) group.known
        obtain ⟨state, a'', step, ballot, agrees''⟩ :=
          agrees'.vote_for group free known (sameTerm ▸ stood) recent
        rw [if_pos rfl, if_neg (by rw [state]; nofun), candidateId]
        exact Follows.step step (follows_some ⟨agrees'',
          ⟨inGroup, known, Or.inl rfl, fun _ => ballot⟩⟩)

/-! ## Ticks -/

/-- The next entry is applied. -/
theorem Agrees.raftApplyEntry (agrees : Agrees ids a i me)
    (left : me.lastAppliedIdx < me.commitIdx) :
    ∃ me', Raft.raftApplyEntry me = some (0, me') ∧ Agrees ids a i me' ∧
      me'.commitIdx = me.commitIdx ∧ me'.lastAppliedIdx = me.lastAppliedIdx + 1 := by
  have commit := agrees.commit
  obtain ⟨ety, found⟩ : ∃ ety, (a.log i)[me.lastAppliedIdx]? = some ety :=
    ⟨_, List.getElem?_eq_getElem (by omega)⟩
  have normal := agrees.normal ety (List.mem_of_getElem? found)
  have allowed : raftIsApplyAllowed me = true := by
    rw [raftIsApplyAllowed, agrees.snapshot.1]
    rfl
  have read : raftGetEntryFromIdx me (me.lastAppliedIdx + 1) = some ety := by
    rw [agrees.entry_at, if_neg (Nat.succ_ne_zero _), Nat.add_sub_cancel, found]
  have applied : (({ me with lastAppliedIdx := me.lastAppliedIdx + 1 } : Server).call
      (.applylog ety (me.lastAppliedIdx + 1))).applied =
        ((a.log i).take (me.lastAppliedIdx + 1)).zipIdx 1 := by
    rw [List.take_add_one, found, List.zipIdx_append, ← agrees.applied, Server.applied,
      Server.call, List.filterMap_append, List.length_take, min_eq_left (by omega), Server.applied]
    simp [Nat.add_comm, Callback.appliedEntry]
  have agrees' : Agrees ids a i (({ me with
      lastAppliedIdx := me.lastAppliedIdx + 1 } : Server).call
        (.applylog ety (me.lastAppliedIdx + 1))) := {
    agrees with
    applied_le := left
    applied := applied
    calls := fun callback member => by
      rcases List.mem_append.mp member with old | new
      · exact agrees.calls callback old
      · rw [List.mem_singleton.mp new]
        trivial
    candidate := fun state => { agrees.candidate state with } }
  rw [Raft.raftApplyEntry, if_neg (by rw [allowed]; simp), if_neg left.ne]
  simp only [read, normal]
  refine ⟨_, if_pos (by simp), ?_, ?_, ?_⟩
  · split
    · exact agrees'.of_volatile rfl
    · exact agrees'
  · split <;> rfl
  · split <;> rfl

theorem Agrees.applyLoop (agrees : Agrees ids a i me) {n : Nat}
    (rounds : me.commitIdx - me.lastAppliedIdx = n) :
    ∃ me', Raft.applyLoop n me = some (0, me') ∧ Agrees ids a i me' ∧
      me'.lastAppliedIdx = me'.commitIdx := by
  induction n generalizing me with
  | zero =>
      have applied_le := agrees.applied_le
      exact ⟨me, rfl, agrees, by omega⟩
  | succ n ih =>
      have left : me.lastAppliedIdx < me.commitIdx := by omega
      obtain ⟨me', eq, agrees', commit, applied⟩ := agrees.raftApplyEntry left
      rw [Raft.applyLoop, if_pos left, eq]
      simp only [Option.bind_eq_bind, Option.bind_some, ne_eq, not_true_eq_false, if_false]
      exact ih agrees' (by omega)

theorem Agrees.sendAll (agrees : Agrees ids a i me) (group : Group ids)
    (state : me.state = .leader) {nodes : List Node} (known : ∀ node ∈ nodes, node.id ∈ ids) :
    ∃ me', Raft.sendAll nodes me = some (0, me') ∧ Agrees ids a i me' := by
  induction nodes generalizing me with
  | nil => exact ⟨me, rfl, agrees⟩
  | cons node nodes ih =>
      have rest : ∀ node ∈ nodes, node.id ∈ ids :=
        fun node member => known node (List.mem_cons_of_mem _ member)
      rw [Raft.sendAll]
      split
      · exact ih agrees state rest
      · next sends =>
        have other : node.id ≠ i := by
          rintro rfl
          exact sends (Or.inl agrees.node)
        obtain ⟨old, inNodes, sameId, get⟩ := agrees.get_node (known node List.mem_cons_self)
        have tracked := agrees.tracked state old inNodes (sameId ▸ other)
        obtain ⟨m, eq, ok⟩ := agrees.toCore.raftSendAppendentries (agrees.leader state) get other
          tracked.positive tracked.next
        rw [eq]
        simp only [Option.bind_eq_bind, Option.bind_some, ne_eq, not_true_eq_false, if_false]
        exact ih (agrees.call group ok rfl) state rest

theorem Agrees.checkTimeouts (agrees : Agrees ids a i me) (group : Group ids)
    (inGroup : i ∈ ids) (rand : Nat) :
    Follows (Step Entry.term (Quorum ids) i) a (Raft.checkTimeouts me rand)
      fun a' me' => Agrees ids a' i me' := by
  have many : 1 < ids.length := group.many
  rw [Raft.checkTimeouts, agrees.num_voting_nodes]
  split
  · next state =>
    split
    · have fresh : Agrees ids a i { me with timeoutElapsed := 0 } := agrees.of_volatile rfl
      have known : ∀ node ∈ me.nodes, node.id ∈ ids := fun node member =>
        agrees.nodes ▸ List.mem_map_of_mem member
      obtain ⟨me', eq, agrees'⟩ := fresh.sendAll group state known
      rw [raftSendAppendentriesAll, eq]
      exact follows_some agrees'
    · exact follows_some agrees
  · split
    · obtain ⟨node, get, voting⟩ := agrees.my_node inGroup
      rw [myNodeIsVoting, get]
      simp only [Option.map_some, Option.bind_some, voting, if_true]
      exact agrees.raftBecomeCandidate group inGroup rand
    · exact follows_some agrees

theorem Agrees.raftPeriodic (agrees : Agrees ids a i me) (group : Group ids)
    (inGroup : i ∈ ids) (msec rand : Nat) :
    Follows (Step Entry.term (Quorum ids) i) a (Raft.raftPeriodic me msec rand)
      fun a' result => result.1 = 0 ∧ Agrees ids a' i result.2 := by
  have many := group.many
  have later : Agrees ids a i { me with timeoutElapsed := me.timeoutElapsed + msec } :=
    agrees.of_volatile rfl
  have alone : leadAlone { me with timeoutElapsed := me.timeoutElapsed + msec } =
      some { me with timeoutElapsed := me.timeoutElapsed + msec } := by
    rw [leadAlone, later.num_voting_nodes, if_neg (by omega)]
  rw [Raft.raftPeriodic]
  simp only [alone, Option.bind_eq_bind, Option.bind_some]
  refine (later.checkTimeouts group inGroup rand).bind fun a' me' agrees' => ?_
  split
  · next applies =>
    obtain ⟨me'', eq, agrees'', -⟩ := agrees'.applyLoop rfl
    rw [raftApplyAll, if_neg (by rw [applies.2]; simp), eq]
    exact follows_some ⟨rfl, agrees''⟩
  · exact follows_some ⟨rfl, agrees'⟩

end Steps

end Raft

end LuaServer
