import LuaServer.RaftElections
import LuaServer.RaftFollowers

/-!
# Leaders

A leader appends the entries of its clients, learns from the replies what the others have,
and commits the entries of its term that a majority has; its member takes these steps.
-/

namespace LuaServer

namespace Raft

open MachineIntegers ReplicatedLogs PartialSimulations

section Steps

variable {ids : List Int} {a a' : ReplicatedLogs.State Int Entry} {i : Int} {me me' : Server}

/-! ## What a leader does -/

/-- A leader sends to another node of the group. -/
theorem Agrees.send_to (agrees : Agrees ids a i me) (group : Group ids)
    (state : me.state = .leader) {id : Int} (known : id ∈ ids) (other : id ≠ i) :
    ∃ me', Raft.raftSendAppendentries me id = some (0, me') ∧ Agrees ids a i me' ∧
      me'.state = .leader := by
  obtain ⟨node, inNodes, rfl, get⟩ := agrees.get_node known
  have tracked := agrees.tracked state node inNodes other
  obtain ⟨m, eq, ok⟩ := agrees.toCore.raftSendAppendentries (agrees.leader state) get other
    tracked.positive tracked.next
  exact ⟨_, eq, agrees.call group ok rfl, state⟩

/-- A leader knows more of a node. -/
theorem Agrees.track (agrees : Agrees ids a i me) (group : Group ids)
    (state : me.state = .leader) (id : Int) {f : Node → Node}
    (sameId : ∀ node, (f node).id = node.id)
    (sameFlags : ∀ node, (f node).isVoting = node.isVoting ∧
      (f node).isActive = node.isActive)
    (tracked : ∀ node, node.id = id → Tracked a i node → Tracked a i (f node)) :
    Agrees ids a i (me.change id f) where
  toCore := agrees.change group id sameId sameFlags
  unled := agrees.unled
  candidate other := absurd (state.symm.trans other) (by decide)
  leader := agrees.leader
  tracked _ node member apart := by
    obtain ⟨old, inNodes, rfl⟩ := mem_change.mp member
    split at apart
    · next same =>
      rw [if_pos same]
      rw [sameId] at apart
      exact tracked old same (agrees.tracked state old inNodes apart)
    · next different =>
      rw [if_neg different]
      exact agrees.tracked state old inNodes apart

theorem Tracked.setNextIdx {node : Node} (tracked : Tracked a i node) {idx : Nat}
    (le : idx ≤ (a.log i).length + 1) : Tracked a i (node.setNextIdx idx) := by
  refine ⟨?_, ?_, tracked.acked⟩
  · simp only [Node.setNextIdx]
    split <;> omega
  · simp only [Node.setNextIdx]
    split <;> omega

/-- The test of `raft_recv_appendentries_response`. -/
def hasPoint (me : Server) (point : Nat) (node : Node) : Bool :=
  me.node ≠ some node.id ∧ node.isActive ∧ node.isVoting ∧ point ≤ node.matchIdx

/-- What a majority has acknowledged up to an entry of the own term is committed. -/
theorem Agrees.commit_point (agrees : Agrees ids a i me) (group : Group ids)
    (inGroup : i ∈ ids) (state : me.state = .leader) {k : Nat} {ety : Entry}
    (found : (a.log i)[k]? = some ety) (own : ety.term = a.term i)
    (many : ids.length < 2 * (me.nodes.countP (hasPoint me (k + 1)) + 1))
    (ahead : me.commitIdx ≤ k + 1) :
    ∃ a', Step Entry.term (Quorum ids) i a a' ∧
      Agrees ids a' i { me with commitIdx := k + 1 } := by
  have leads := agrees.leader state
  have leaderEq := agrees.sound.leads i leads.elected
  have inside := (List.getElem?_eq_some_iff.mp found).1
  have step : Step Entry.term (Quorum ids) i a _ := Step.ack (k + 1)
    (by rw [← leaderEq]; exact inside) (leaderEq ▸ List.take_prefix _ _)
  have others : ∀ node, hasPoint me (k + 1) node = true →
      node.id ≠ i ∧ k + 1 ≤ node.matchIdx := by
    intro node test
    simp only [hasPoint, agrees.node, decide_eq_true_eq] at test
    exact ⟨fun same => test.1 (by rw [same]), test.2.2.2⟩
  have quorum := group.quorum_of_countP agrees.nodes inGroup
    (fun node _ test => (others node test).1) many
  have grows := step.grows agrees.sound
  have committed : Committed Entry.term (Quorum ids)
      { a with acked := fun v t m => a.acked v t m ∨ v = i ∧ t = a.term i ∧ m ≤ k + 1 }
      (a.term i) (k + 1) := by
    refine ⟨⟨k, ety, rfl, ?_, own⟩, _, quorum, ?_⟩
    · rw [← leaderEq]
      exact found
    · rintro v (rfl | ⟨node, member, rfl, test⟩)
      · exact Or.inr ⟨rfl, rfl, le_rfl⟩
      · obtain ⟨apart, reached⟩ := others node test
        rcases (agrees.tracked state node member apart).acked with zero | acked
        · omega
        · exact Or.inl (agrees.sound.fewer _ _ _ _ acked reached)
  have kept : Core ids
      { a with acked := fun v t m => a.acked v t m ∨ v = i ∧ t = a.term i ∧ m ≤ k + 1 } i me :=
    agrees.keep group (.single step) rfl (by dsimp only; rw [← agrees.vote, ← agrees.term]) rfl
      agrees.flags agrees.known rfl fun _ member => Or.inl member
  have applied_le := agrees.applied_le
  exact ⟨_, step, {
    kept with
    commit := inside
    settled := Or.inr ⟨a.term i, k + 1, le_rfl, committed, by
      rw [← leaderEq]⟩
    applied_le := applied_le.trans ahead
    unled := agrees.unled
    candidate := fun other => absurd (state.symm.trans other) (by decide)
    leader := fun _ => ⟨leads.elected, leads.ballot⟩
    tracked := fun _ node member apart => by
      obtain ⟨positive, next, acked⟩ := agrees.tracked state node member apart
      exact ⟨positive, next, acked.imp_right (grows.acked _ _ _)⟩ }⟩

theorem Agrees.updateCommitIdx (agrees : Agrees ids a i me) (group : Group ids)
    (inGroup : i ∈ ids) (state : me.state = .leader) {point : Nat}
    (le : point ≤ (a.log i).length) :
    Follows (Step Entry.term (Quorum ids) i) a (Raft.updateCommitIdx me point)
      fun a' me' => Agrees ids a' i me' ∧ me'.state = .leader := by
  rw [Raft.updateCommitIdx]
  split
  · next ahead =>
    obtain ⟨k, rfl⟩ := Nat.exists_eq_succ_of_ne_zero ahead.1
    obtain ⟨ety, found⟩ : ∃ ety, (a.log i)[k]? = some ety :=
      ⟨_, List.getElem?_eq_getElem (by omega)⟩
    rw [agrees.entry_at, if_neg (Nat.succ_ne_zero k), Nat.succ_sub_one, found]
    simp only [Option.bind_eq_bind, Option.bind_some]
    split
    · next own =>
      rw [agrees.num_voting_nodes]
      split
      · next majority =>
        have many : ids.length < 2 * (me.nodes.countP (hasPoint me (k + 1)) + 1) := by
          have counted : ids.length / 2 < 1 + me.nodes.countP (hasPoint me (k + 1)) := majority
          omega
        obtain ⟨a', step, agrees'⟩ := agrees.commit_point group inGroup state found
          (own.trans agrees.term) many ahead.2.le
        rw [raftSetCommitIdx, if_pos ⟨ahead.2.le, by rw [agrees.currentIdx]; exact le⟩]
        exact Follows.step step (follows_some ⟨agrees', state⟩)
      · exact follows_some ⟨agrees, state⟩
    · exact follows_some ⟨agrees, state⟩
  · exact follows_some ⟨agrees, state⟩

theorem Agrees.raftRecvAppendentriesResponse (agrees : Agrees ids a i me) (group : Group ids)
    (inGroup : i ∈ ids) {sender : Int} {r : AppendEntriesResponse}
    (ok : ReplyOk ids a sender i r) (rand : Nat) :
    Follows (Step Entry.term (Quorum ids) i) a
      (Raft.raftRecvAppendentriesResponse me (some sender) r rand)
      fun a' result => (result.1 = if me.state ≠ .leader then RAFT_ERR_NOT_LEADER else 0) ∧
        Agrees ids a' i result.2 := by
  rw [Raft.raftRecvAppendentriesResponse]
  by_cases state : me.state = .leader
  · rw [if_neg (not_not.mpr state), if_neg (not_not.mpr state)]
    by_cases later : me.currentTerm < r.term
    · obtain ⟨a', step, agrees'⟩ := agrees.stepDown group later rand
      rw [if_pos later]
      exact Follows.step step (follows_some ⟨rfl, agrees'.of_leaderless⟩)
    · rw [if_neg later]
      by_cases sameTerm : me.currentTerm = r.term
      · rw [if_neg (not_not.mpr sameTerm)]
        obtain ⟨node, inNodes, sameId, get⟩ := agrees.get_node ok.from_mem
        have tracked := agrees.tracked state node inNodes (sameId ▸ ok.other)
        simp only [get, Option.bind_eq_bind, Option.bind_some]
        split
        · -- the follower has not got the entry before
          rw [if_neg (by have := tracked.positive; omega)]
          split
          · exact follows_some ⟨rfl, agrees⟩
          · have agrees' := agrees.track group state sender (f := fun known =>
              if r.currentIdx < node.nextIdx - 1 then
                known.setNextIdx (min (r.currentIdx + 1) (raftGetCurrentIdx me))
              else known.setNextIdx (node.nextIdx - 1))
              (fun known => by split <;> rfl) (fun known => by split <;> exact ⟨rfl, rfl⟩)
              fun known _ old => by
                split
                · exact old.setNextIdx (by rw [agrees.currentIdx]; omega)
                · exact old.setNextIdx (by have := tracked.next; omega)
            obtain ⟨me', eq, agrees'', -⟩ := agrees'.send_to group state ok.from_mem ok.other
            rw [eq]
            exact follows_some ⟨rfl, agrees''⟩
        · next success =>
          have acked : a.acked sender (a.term i) r.currentIdx := by
            rw [← agrees.term, sameTerm]
            exact ok.success (by simpa using success)
          have le : r.currentIdx ≤ (a.log i).length := by
            rw [agrees.sound.leads i (agrees.leader state).elected]
            exact (agrees.sound.acks _ _ _ acked).2.1
          split
          · exact follows_some ⟨rfl, agrees⟩
          · rw [if_neg (by rw [agrees.currentIdx]; omega)]
            have agrees' := agrees.track group state sender (f := fun known =>
              (known.setNextIdx (r.currentIdx + 1)).setMatchIdx r.currentIdx)
              (fun _ => rfl) (fun _ => ⟨rfl, rfl⟩) fun known same _ =>
                ⟨by simp [Node.setNextIdx, Node.setMatchIdx],
                  by simpa [Node.setNextIdx, Node.setMatchIdx] using le,
                  Or.inr (by simpa [Node.setNextIdx, Node.setMatchIdx, same] using acked)⟩
            refine (agrees'.updateCommitIdx group inGroup state le).bind ?_
            rintro a' me' ⟨agrees'', state'⟩
            obtain ⟨node', -, -, get'⟩ := agrees''.get_node ok.from_mem
            obtain ⟨me'', eq, agreesSent, -⟩ :=
              agrees''.send_to group state' ok.from_mem ok.other
            simp only [get', eq, Option.bind_some]
            split
            · exact follows_some ⟨rfl, agreesSent⟩
            · exact follows_some ⟨rfl, agrees''⟩
      · rw [if_pos sameTerm]
        exact follows_some ⟨rfl, agrees⟩
  · rw [if_pos state, if_pos state]
    exact follows_some ⟨rfl, agrees⟩

/-- The leader appends an entry of a client to its log. -/
theorem Agrees.append (agrees : Agrees ids a i me) (group : Group ids)
    (state : me.state = .leader) (ety : Entry) (own : ety.term = a.term i)
    (normal : raftEntryIsCfgChange ety = false) :
    ∃ me', raftAppendEntry me ety = some me' ∧ ∃ a', Step Entry.term (Quorum ids) i a a' ∧
      Agrees ids a' i me' ∧ me'.state = .leader ∧ a'.log i = a.log i ++ [ety] ∧
        a'.term = a.term := by
  have leads := agrees.leader state
  obtain ⟨formed, entries, base⟩ := agrees.formed.append ety
  have commit := agrees.commit
  have front : (logAppendEntry me.log ety).front = 0 := by
    rw [logAppendEntry, ensurecapacity]
    split
    · exact agrees.front
    · rfl
  have step : Step Entry.term (Quorum ids) i a _ := Step.append ety leads.elected own
  have grows := step.grows agrees.sound
  have logEq : Function.update a.log i (a.log i ++ [ety]) i = a.log i ++ [ety] :=
    Function.update_self ..
  have normal' : ∀ other ∈ a.log i ++ [ety], raftEntryIsCfgChange other = false := by
    intro other member
    rcases List.mem_append.mp member with old | new
    · exact agrees.normal other old
    · rw [List.mem_singleton.mp new]
      exact normal
  refine ⟨_, raftAppendEntry_eq me normal, _, step, ?_, state, logEq, rfl⟩
  exact {
    toCore := agrees.toCore.relog group (.single step) rfl rfl rfl formed
      (base.trans agrees.base) front
      (by rw [entries, agrees.entries]; exact logEq.symm) (by simpa only [logEq] using normal')
      (by simp only [logEq, List.length_append]; omega)
      (by simp only [logEq]; rw [List.take_append_of_le_length commit])
      (applied_call me (.logOffer ety _) rfl) (forall_calls_call (.logOffer ety _) trivial)
    unled := fun other => absurd state other
    candidate := fun other => absurd (state.symm.trans other) (by decide)
    leader := fun _ => ⟨leads.elected, leads.ballot⟩
    tracked := fun _ node member apart => by
      obtain ⟨positive, next, acked⟩ := agrees.tracked state node member apart
      refine ⟨positive, ?_, acked.imp_right (grows.acked _ _ _)⟩
      simp only [logEq, List.length_append]
      omega }

theorem Agrees.raftRecvEntry (agrees : Agrees ids a i me) (group : Group ids) {ety : Entry}
    (normal : raftEntryIsCfgChange ety = false) :
    Follows (Step Entry.term (Quorum ids) i) a (Raft.raftRecvEntry me ety)
      fun a' result => (result.1 = if me.state ≠ .leader then RAFT_ERR_NOT_LEADER else 0) ∧
        Agrees ids a' i result.2.1 ∧ (result.1 = 0 → AcceptedOk a' ety result.2.2) := by
  have many := group.many
  have notVoting : raftEntryIsVotingCfgChange ety = false := by
    simp only [raftEntryIsCfgChange, Bool.or_eq_false_iff] at normal
    rw [raftEntryIsVotingCfgChange, normal.1.1.1, normal.1.2]
    rfl
  rw [Raft.raftRecvEntry]
  simp only [notVoting, Bool.false_eq_true, false_and, if_false]
  by_cases state : me.state = .leader
  · rw [if_neg (not_not.mpr state), if_neg (not_not.mpr state)]
    obtain ⟨me', eq, a', step, agrees', state', logEq, termEq⟩ := agrees.append group state
      { ety with term := me.currentTerm } agrees.term normal
    rw [eq]
    refine Follows.step step ?_
    rw [Option.bind_eq_bind, Option.bind_some]
    refine Follows.bind (follows_foldlM (fun left a'' me'' => a'' = a' ∧ Agrees ids a' i me'' ∧
      me''.state = .leader ∧ ∀ node ∈ left, node.id ∈ ids) ⟨rfl, agrees', state', ?_⟩ ?_) ?_
    · intro node member
      exact agrees'.nodes ▸ List.mem_map_of_mem member
    · rintro node left _ me'' ⟨rfl, agrees'', state'', known⟩
      have known' : ∀ node ∈ left, node.id ∈ ids :=
        fun node member => known node (List.mem_cons_of_mem _ member)
      rw [offerNode]
      split
      · exact follows_some ⟨rfl, agrees'', state'', known'⟩
      · next sends =>
        split
        · have other : node.id ≠ i := by
            rintro rfl
            exact sends (Or.inl agrees''.node)
          obtain ⟨me₃, eq₃, agrees₃, state₃⟩ := agrees''.send_to group state''
            (known node List.mem_cons_self) other
          rw [eq₃]
          exact follows_some ⟨rfl, agrees₃, state₃, known'⟩
        · exact follows_some ⟨rfl, agrees'', state'', known'⟩
    · rintro _ me'' ⟨rfl, agrees'', state'', -⟩
      have notVoting' : raftEntryIsVotingCfgChange
          { ety with term := me.currentTerm } = false := notVoting
      have sameTerm : me''.currentTerm = me.currentTerm := by
        rw [agrees.term, agrees''.term, termEq]
      have leaderEq := agrees''.sound.leads i (agrees''.leader state'').elected
      rw [commitAlone, agrees''.num_voting_nodes, if_neg (by omega)]
      simp only [Option.bind_some, notVoting', Bool.false_eq_true, if_false]
      refine follows_some ⟨rfl, agrees'', fun _ => ⟨?_, ?_⟩⟩
      · rw [agrees''.currentIdx, logEq, List.length_append]
        exact Nat.succ_pos _
      · rw [agrees''.currentIdx, agrees''.term, ← leaderEq, logEq, ← agrees''.term, sameTerm,
          List.length_append, List.length_singleton, Nat.add_sub_cancel,
          List.getElem?_concat_length]
  · rw [if_pos state, if_pos state]
    have fails : RAFT_ERR_NOT_LEADER ≠ 0 := by decide
    exact follows_some ⟨rfl, agrees, fun done => absurd done fails⟩

end Steps

end Raft

end LuaServer
