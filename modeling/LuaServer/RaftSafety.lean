import LuaServer.RaftLeaders

/-!
# The safety of raft

In every run of a group, whatever is lost, repeated or overtaken on the way, no assertion
fails, a term has one leader at most, logs that have an entry in common are the same up to
it, and all servers apply the same entries in the same order.  What a client has been told
to be committed is in the log of every later leader.
-/

namespace LuaServer

namespace Raft

open ReplicatedLogs PartialSimulations

/-! ## The first state -/

/-- A server with the nodes that have been added so far. -/
theorem foldl_add_node (rand : Nat) (i : Int) (left added : List Int)
    (nodup : (added ++ left).Nodup) :
    left.foldl (fun me id => raftAddNode me id (id = i))
      { raftNew rand with
        nodes := added.map raftNodeNew
        node := if i ∈ added then some i else none } =
      { raftNew rand with
        nodes := (added ++ left).map raftNodeNew
        node := if i ∈ added ++ left then some i else none } := by
  induction left generalizing added with
  | nil => rw [List.append_nil, List.foldl_nil]
  | cons id left ih =>
      have fresh : id ∉ added := fun member =>
        (List.nodup_append.mp nodup).2.2 id member id List.mem_cons_self rfl
      have notYet : raftGetNode { raftNew rand with
          nodes := added.map raftNodeNew
          node := if i ∈ added then some i else none } id = none := by
        rw [raftGetNode, List.find?_eq_none]
        intro node member same
        obtain ⟨old, inAdded, rfl⟩ := List.mem_map.mp member
        exact fresh (of_decide_eq_true same ▸ inAdded)
      have next : raftAddNode { raftNew rand with
          nodes := added.map raftNodeNew
          node := if i ∈ added then some i else none } id (id = i) = { raftNew rand with
            nodes := (added ++ [id]).map raftNodeNew
            node := if i ∈ added ++ [id] then some i else none } := by
        rw [raftAddNode, notYet]
        by_cases self : id = i
        · simp [self]
        · simp [self, Ne.symm self]
      rw [List.foldl_cons, next, ih _ (by rwa [List.append_assoc]), List.append_assoc]
      rfl

theorem createServer_eq {ids : List Int} (group : Group ids) (rand : Nat) {i : Int}
    (inGroup : i ∈ ids) : createServer ids rand i =
      { raftNew rand with nodes := ids.map raftNodeNew, node := some i } := by
  have added := foldl_add_node rand i ids [] (by rw [List.nil_append]; exact group.nodup)
  simp only [List.not_mem_nil, if_false, List.nil_append, inGroup, if_true, List.map_nil] at added
  exact added

theorem clusterOk_create {ids : List Int} (group : Group ids) (rand : Int → Nat) :
    ClusterOk ids State.start (Cluster.create ids rand) where
  servers i inGroup := by
    rw [show (Cluster.create ids rand).servers i = createServer ids (rand i) i from rfl,
      createServer_eq group _ inGroup]
    exact {
      sound := sound_start
      nodes := by simp [raftNodeNew, Function.comp_def]
      flags := fun node member => by
        obtain ⟨id, -, rfl⟩ := List.mem_map.mp member
        exact ⟨rfl, rfl⟩
      node := rfl
      formed := wellFormed_logAlloc (by decide)
      base := rfl
      front := rfl
      entries := rfl
      normal := nofun
      term := rfl
      vote := rfl
      known := nofun
      snapshot := ⟨rfl, rfl⟩
      connected := rfl
      commit := le_rfl
      settled := Or.inl rfl
      applied_le := le_rfl
      applied := rfl
      calls := nofun
      unled := nofun
      candidate := nofun
      leader := nofun
      tracked := nofun }
  votes _ _ _ member := absurd member List.not_mem_nil
  replies _ _ _ member := absurd member List.not_mem_nil
  accepted _ _ member := absurd member List.not_mem_nil

/-! ## Steps -/

section Steps

variable {ids : List Int} {a a' : ReplicatedLogs.State Int Entry} {c c' : Cluster}

/-- One server has followed its member, the others stay. -/
theorem ClusterOk.set (ok : ClusterOk ids a c) (group : Group ids) {i : Int} {me : Server}
    (moves : Moves Entry.term (Quorum ids) i a a') (agrees : Agrees ids a' i me)
    (grows : Grows Entry.term a a') : ClusterOk ids a' (c.set i me) where
  servers j inGroup := by
    by_cases same : j = i
    · subst same
      rw [show (c.set j me).servers j = me from Function.update_self ..]
      exact agrees
    · rw [show (c.set i me).servers j = c.servers j from Function.update_of_ne same ..]
      exact (ok.servers j inGroup).of_other group same moves
  votes sender receiver r member := (ok.votes sender receiver r member).mono grows
  replies sender receiver r member := (ok.replies sender receiver r member).mono grows
  accepted ety r member := (ok.accepted ety r member).mono grows

/-- Whatever may happen happens without a failed assertion, and the group follows. -/
theorem ClusterOk.step (ok : ClusterOk ids a c) (group : Group ids) (fits : c.TermsFit ids)
    {event : Event} (possible : c.Possible ids event) :
    ∃ e c', c.step event = some (e, c') ∧
      (e = if c.Refuses event then RAFT_ERR_NOT_LEADER else 0) ∧
      ∃ a', ClusterOk ids a' c' ∧ Grows Entry.term a a' := by
  cases event with
  | tick i rand =>
      have agrees := ok.servers i possible
      obtain ⟨⟨e, me⟩, eq, a', moves, code, agrees'⟩ :=
        agrees.raftPeriodic group possible 1000 rand
      have grows := (Moves.sound_grows moves agrees.sound).2
      exact ⟨e, _, by simp [Cluster.step, eq], code, a', ok.set group moves agrees' grows,
        grows⟩
  | recvEntry i ety =>
      obtain ⟨inGroup, normal⟩ := possible
      have agrees := ok.servers i inGroup
      obtain ⟨⟨e, me, r⟩, eq, a', moves, code, agrees', accepted⟩ :=
        agrees.raftRecvEntry group normal
      have grows := (Moves.sound_grows moves agrees.sound).2
      have ok' := ok.set group moves agrees' grows
      refine ⟨e, _, by simp only [Cluster.step, eq, Option.bind_eq_bind, Option.bind_some]; rfl,
        code, a', ?_, grows⟩
      split
      · exact ok'
      · next done =>
        refine { ok' with accepted := fun ety' r' member => ?_ }
        rcases List.mem_append.mp member with old | new
        · exact ok'.accepted ety' r' old
        · obtain ⟨rfl, rfl⟩ := Prod.mk.inj (List.mem_singleton.mp new)
          exact accepted (not_not.mp done)
  | requestvote sender receiver m rand =>
      obtain ⟨known, inGroup, sent⟩ := possible
      have agrees := ok.servers receiver inGroup
      have sender_ := ok.servers sender known
      obtain ⟨-, request⟩ := sender_.calls _ sent
      obtain ⟨log, stood, -⟩ := request.stood
      have early := (agrees.sound.standing _ _ _ stood).1
      have senderFits := fits sender known
      rw [sender_.term] at senderFits
      obtain ⟨⟨me, r⟩, eq, a', moves, agrees', vote⟩ := agrees.raftRecvRequestvote group inGroup
        known request (fits receiver inGroup) (early.trans_lt senderFits) rand
      have grows := (Moves.sound_grows moves agrees.sound).2
      have ok' := ok.set group moves agrees' grows
      refine ⟨0, _, by simp only [Cluster.step, eq, Option.bind_eq_bind, Option.bind_some]; rfl,
        rfl, a', ?_, grows⟩
      refine { ok' with votes := fun sender' receiver' r' member => ?_ }
      rcases List.mem_append.mp member with old | new
      · exact ok'.votes sender' receiver' r' old
      · obtain ⟨rfl, rfl, rfl⟩ : sender' = receiver ∧ receiver' = sender ∧ r' = r := by
          simpa using new
        exact vote
  | requestvoteRes sender receiver r rand =>
      have vote := ok.votes sender receiver r possible
      have agrees := ok.servers receiver vote.to_mem
      obtain ⟨⟨e, me⟩, eq, a', moves, code, agrees'⟩ :=
        agrees.raftRecvRequestvoteResponse group vote.to_mem vote rand
      have grows := (Moves.sound_grows moves agrees.sound).2
      exact ⟨e, _, by simp [Cluster.step, eq], code, a', ok.set group moves agrees' grows,
        grows⟩
  | appendentries sender receiver m rand =>
      obtain ⟨known, inGroup, sent⟩ := possible
      have agrees := ok.servers receiver inGroup
      obtain ⟨other, append⟩ := (ok.servers sender known).calls _ sent
      obtain ⟨⟨e, me, r⟩, eq, a', moves, code, agrees', reply⟩ :=
        agrees.raftRecvAppendentries group inGroup known other append rand
      have grows := (Moves.sound_grows moves agrees.sound).2
      have ok' := ok.set group moves agrees' grows
      refine ⟨e, _, by simp only [Cluster.step, eq, Option.bind_eq_bind, Option.bind_some]; rfl,
        code, a', ?_, grows⟩
      rw [if_neg (not_not.mpr code)]
      refine { ok' with replies := fun sender' receiver' r' member => ?_ }
      rcases List.mem_append.mp member with old | new
      · exact ok'.replies sender' receiver' r' old
      · obtain ⟨rfl, rfl, rfl⟩ : sender' = receiver ∧ receiver' = sender ∧ r' = r := by
          simpa using new
        exact reply
  | appendentriesRes sender receiver r rand =>
      have reply := ok.replies sender receiver r possible
      have agrees := ok.servers receiver reply.to_mem
      obtain ⟨⟨e, me⟩, eq, a', moves, code, agrees'⟩ :=
        agrees.raftRecvAppendentriesResponse group reply.to_mem reply rand
      have grows := (Moves.sound_grows moves agrees.sound).2
      exact ⟨e, _, by simp [Cluster.step, eq], code, a', ok.set group moves agrees' grows, grows⟩

/-- A run is a run of the group of replicated logs. -/
theorem ClusterOk.runs (ok : ClusterOk ids a c) (group : Group ids) (runs : c.Runs ids c') :
    ∃ a', ClusterOk ids a' c' ∧ Grows Entry.term a a' := by
  induction runs with
  | refl => exact ⟨a, ok, Grows.refl⟩
  | step before fits possible steps ih =>
      obtain ⟨a', ok', grows⟩ := ih
      obtain ⟨e, c', eq, -, a'', ok'', grows'⟩ := ok'.step group fits possible
      obtain ⟨rfl, rfl⟩ := Prod.mk.inj (Option.some.inj (steps.symm.trans eq))
      exact ⟨a'', ok'', grows.trans grows'⟩

theorem Cluster.Reachable.clusterOk (reachable : c.Reachable ids) (group : Group ids) :
    ∃ a, ClusterOk ids a c := by
  obtain ⟨rand, runs⟩ := reachable
  obtain ⟨a, ok, -⟩ := (clusterOk_create group rand).runs group runs
  exact ⟨a, ok⟩

end Steps

/-! ## A run of three servers -/

theorem group_three : Group [1, 2, 3] := ⟨by decide, by decide, by decide⟩

/-- Server 1 stands for election and gets the vote of server 2. -/
def election : List Event :=
  [.tick 1 0, .requestvote 1 2 ⟨1, 1, 0, 0⟩ 0, .requestvoteRes 2 1 ⟨1, 1⟩ 0]

/-- The leader hands an entry of a client on to server 2, and applies it. -/
def replication : List Event :=
  [.recvEntry 1 ⟨0, 5, 0, [7]⟩, .appendentries 1 2 ⟨1, 0, 0, 0, [⟨1, 5, 0, [7]⟩]⟩ 0,
    .appendentriesRes 2 1 ⟨1, true, 1, 1⟩ 0, .tick 1 0]

theorem isSome_election :
    ((Cluster.create [1, 2, 3] fun _ => 0).run [1, 2, 3] election).isSome := by
  decide +kernel

def elected : Cluster :=
  ((Cluster.create [1, 2, 3] fun _ => 0).run [1, 2, 3] election).get isSome_election

theorem isSome_replication : (elected.run [1, 2, 3] replication).isSome := by
  decide +kernel

def replicated : Cluster := (elected.run [1, 2, 3] replication).get isSome_replication

theorem reachable_elected : elected.Reachable [1, 2, 3] :=
  ⟨fun _ => 0, Cluster.Runs.refl.of_run (Option.some_get isSome_election).symm⟩

theorem runs_replicated : elected.Runs [1, 2, 3] replicated :=
  Cluster.Runs.refl.of_run (Option.some_get isSome_replication).symm

theorem reachable_replicated : replicated.Reachable [1, 2, 3] :=
  ⟨fun _ => 0, (Cluster.Runs.refl.of_run (Option.some_get isSome_election).symm).of_run
    (Option.some_get isSome_replication).symm⟩

/-! ## What holds in every run -/

section Safety

variable {ids : List Int} {c c' : Cluster}

/-- A term has one leader at most, at any times of a run. -/
theorem election_safety (group : Group ids) (reachable : c.Reachable ids)
    (runs : c.Runs ids c') {i j : Int} (inGroup : i ∈ ids) (inGroup' : j ∈ ids)
    (leader : (c.servers i).state = .leader) (leader' : (c'.servers j).state = .leader)
    (sameTerm : (c.servers i).currentTerm = (c'.servers j).currentTerm) : i = j := by
  obtain ⟨a, ok⟩ := reachable.clusterOk group
  obtain ⟨a', ok', grows⟩ := ok.runs group runs
  have agrees := ok.servers i inGroup
  have agrees' := ok'.servers j inGroup'
  have elected := grows.elected _ _ (agrees.leader leader).elected
  have elected' := (agrees'.leader leader').elected
  rw [← agrees.term, sameTerm, agrees'.term, elected'] at elected
  exact (Option.some.inj elected).symm

theorem election_safety_replicated :
    (elected.servers 1).state = .leader ∧ (replicated.servers 1).state = .leader ∧
      (1 : Int) = 1 :=
  ⟨by decide +kernel, by decide +kernel,
    election_safety group_three reachable_elected runs_replicated (by decide) (by decide)
      (by decide +kernel) (by decide +kernel) (by decide +kernel)⟩

/-- Logs that have entries of one term at an index are the same up to there, at any times
of a run. -/
theorem log_matching (group : Group ids) (reachable : c.Reachable ids) (runs : c.Runs ids c')
    {i j : Int} (inGroup : i ∈ ids) (inGroup' : j ∈ ids) {idx : Nat} {ety ety' : Entry}
    (found : raftGetEntryFromIdx (c.servers i) idx = some ety)
    (found' : raftGetEntryFromIdx (c'.servers j) idx = some ety')
    (sameTerm : ety.term = ety'.term) {k : Nat} (le : k ≤ idx) :
    raftGetEntryFromIdx (c.servers i) k = raftGetEntryFromIdx (c'.servers j) k := by
  obtain ⟨a, ok⟩ := reachable.clusterOk group
  obtain ⟨a', ok', grows⟩ := ok.runs group runs
  have agrees := ok.servers i inGroup
  have agrees' := ok'.servers j inGroup'
  rw [agrees.entry_at] at found ⊢
  rw [agrees'.entry_at] at found' ⊢
  split at found
  · exact nomatch found
  · next positive =>
    rw [if_neg positive] at found'
    have takeEq := ((agrees.sound.logs i).1.mono grows).take_eq_take (agrees'.sound.logs j).1
      found found' sameTerm
    split
    · rfl
    · have same := congrArg (·[k - 1]?) takeEq
      simpa only [List.getElem?_take_of_lt (show k - 1 < idx - 1 + 1 by omega)] using same

theorem log_matching_replicated :
    raftGetEntryFromIdx (replicated.servers 1) 1 =
      raftGetEntryFromIdx (replicated.servers 2) 1 :=
  have found : ∀ i ∈ [1, 2],
      raftGetEntryFromIdx (replicated.servers i) 1 = some ⟨1, 5, 0, [7]⟩ := by decide +kernel
  log_matching group_three reachable_replicated Cluster.Runs.refl (by decide) (by decide)
    (found 1 (by decide)) (found 2 (by decide)) rfl le_rfl

/-- The servers apply the same entries in the same order: what a server has applied at some
time of a run begins what any server has applied at any other one, or the other way round.
Nothing is left out or applied twice. -/
theorem state_machine_safety (group : Group ids) (reachable : c.Reachable ids)
    (runs : c.Runs ids c') {i j : Int} (inGroup : i ∈ ids) (inGroup' : j ∈ ids) :
    ((c.servers i).applied <+: (c'.servers j).applied ∨
      (c'.servers j).applied <+: (c.servers i).applied) ∧
    (c.servers i).applied.map (·.2) = List.range' 1 (c.servers i).lastAppliedIdx := by
  obtain ⟨a, ok⟩ := reachable.clusterOk group
  obtain ⟨a', ok', grows⟩ := ok.runs group runs
  have agrees := ok.servers i inGroup
  have agrees' := ok'.servers j inGroup'
  have settled := (agrees.settled.of_beginning (List.take_prefix_take_left agrees.applied_le)).mono
    group.nonempty agrees.sound grows le_rfl
  have settled' := agrees'.settled.of_beginning (List.take_prefix_take_left agrees'.applied_le)
  refine ⟨?_, ?_⟩
  · rw [agrees.applied, agrees'.applied]
    refine (Settled.prefix_or_prefix agrees'.sound group.meets settled settled').imp ?_ ?_
    · rintro ⟨tail, eq⟩
      rw [← eq, List.zipIdx_append]
      exact List.prefix_append _ _
    · rintro ⟨tail, eq⟩
      rw [← eq, List.zipIdx_append]
      exact List.prefix_append _ _
  · have short := agrees.applied_le.trans agrees.commit
    have indexes := List.zipIdx_map_snd 1 ((a.log i).take (c.servers i).lastAppliedIdx)
    rw [List.length_take, min_eq_left short] at indexes
    rwa [agrees.applied]

theorem state_machine_safety_replicated :
    ((replicated.servers 1).applied <+: (replicated.servers 2).applied ∨
      (replicated.servers 2).applied <+: (replicated.servers 1).applied) ∧
    (replicated.servers 1).applied.map (·.2) =
      List.range' 1 (replicated.servers 1).lastAppliedIdx :=
  state_machine_safety group_three reachable_replicated Cluster.Runs.refl (i := 1) (j := 2)
    (by decide) (by decide)

/-- No assertion of the library fails, and a server never asks to be shut down: the result is
0, but for what only a leader takes at a server that does not lead. -/
theorem no_assertion_fails (group : Group ids) (reachable : c.Reachable ids)
    (fits : c.TermsFit ids) {event : Event} (possible : c.Possible ids event) :
    ∃ e c', c.step event = some (e, c') ∧
      e = if c.Refuses event then RAFT_ERR_NOT_LEADER else 0 := by
  obtain ⟨a, ok⟩ := reachable.clusterOk group
  obtain ⟨e, c', eq, code, -⟩ := ok.step group fits possible
  exact ⟨e, c', eq, code⟩

theorem no_assertion_fails_replicated :
    (∃ c', replicated.step (.recvEntry 1 ⟨0, 6, 0, [8]⟩) = some (0, c')) ∧
      ∃ c', replicated.step (.recvEntry 2 ⟨0, 6, 0, [8]⟩) = some (RAFT_ERR_NOT_LEADER, c') := by
  have fits : replicated.TermsFit [1, 2, 3] := by decide +kernel
  have atLeader : replicated.Possible [1, 2, 3] (.recvEntry 1 ⟨0, 6, 0, [8]⟩) := by
    decide +kernel
  have atFollower : replicated.Possible [1, 2, 3] (.recvEntry 2 ⟨0, 6, 0, [8]⟩) := by
    decide +kernel
  have takes : ¬ replicated.Refuses (.recvEntry 1 ⟨0, 6, 0, [8]⟩) := by decide +kernel
  have refuses : replicated.Refuses (.recvEntry 2 ⟨0, 6, 0, [8]⟩) := by decide +kernel
  obtain ⟨taken, c₁, stepTaken, isTaken⟩ :=
    no_assertion_fails group_three reachable_replicated fits atLeader
  obtain ⟨refused, c₂, stepRefused, isRefused⟩ :=
    no_assertion_fails group_three reachable_replicated fits atFollower
  rw [if_neg takes] at isTaken
  rw [if_pos refuses] at isRefused
  subst isTaken isRefused
  exact ⟨⟨c₁, stepTaken⟩, ⟨c₂, stepRefused⟩⟩

/-- When a server has told a client that its entry is committed, all servers apply this
entry at its index, and every leader from that term on has it there. -/
theorem committed_entry_stays (group : Group ids) (reachable : c.Reachable ids) {ety : Entry}
    {r : EntryResponse} (accepted : (ety, r) ∈ c.accepted) {j : Int} (inGroup : j ∈ ids)
    (told : raftMsgEntryResponseCommitted (c.servers j) r = 1) (runs : c.Runs ids c')
    {k : Int} (inGroup' : k ∈ ids) :
    (∀ ety', (ety', r.idx) ∈ (c'.servers k).applied → ety' = { ety with term := r.term }) ∧
      ((c'.servers k).state = .leader →
        (c.servers j).currentTerm ≤ (c'.servers k).currentTerm →
          raftGetEntryFromIdx (c'.servers k) r.idx = some { ety with term := r.term }) := by
  obtain ⟨a, ok⟩ := reachable.clusterOk group
  obtain ⟨a', ok', grows⟩ := ok.runs group runs
  have agrees := ok.servers j inGroup
  have agrees' := ok'.servers k inGroup'
  obtain ⟨positive, accepted⟩ := ok.accepted ety r accepted
  obtain ⟨n, idxEq⟩ := Nat.exists_eq_succ_of_ne_zero positive.ne'
  rw [idxEq, Nat.succ_sub_one] at accepted
  -- the entry of the server is the one of the client
  have known : (a.log j)[n]? = some { ety with term := r.term } ∧ n < (c.servers j).commitIdx := by
    rw [raftMsgEntryResponseCommitted, agrees.entry_at, if_neg positive.ne', idxEq,
      Nat.succ_sub_one] at told
    cases found : (a.log j)[n]? with
    | none => simp [found] at told
    | some own =>
        simp only [found] at told
        split at told
        · exact absurd told (by decide)
        · next sameTerm =>
          split at told
          · next committed =>
            have begins := (agrees.sound.logs j).1 n own found
            have inside := (List.getElem?_eq_some_iff.mp found).1
            rw [← not_not.mp sameTerm] at begins
            obtain ⟨tail, eq⟩ := begins
            rw [← eq, List.getElem?_append_left (by rw [List.length_take]; omega),
              List.getElem?_take_of_lt (Nat.lt_succ_self n), found] at accepted
            exact ⟨accepted, committed⟩
          · exact absurd told (by decide)
  obtain ⟨found, committed⟩ := known
  have settled := agrees.settled.mono group.nonempty agrees.sound grows le_rfl
  have inSettled : ((a.log j).take (c.servers j).commitIdx)[n]? =
      some { ety with term := r.term } := by
    rw [List.getElem?_take_of_lt committed, found]
  constructor
  · intro ety' member
    rw [agrees'.applied, List.mem_zipIdx_iff_le_and_getElem?_sub, idxEq] at member
    have found' : ((a'.log k).take (c'.servers k).lastAppliedIdx)[n]? = some ety' := member.2
    have settled' := agrees'.settled.of_beginning (List.take_prefix_take_left agrees'.applied_le)
    rcases Settled.prefix_or_prefix agrees'.sound group.meets settled settled' with
      ⟨tail, eq⟩ | ⟨tail, eq⟩
    · rw [← eq, List.getElem?_append_left (List.getElem?_eq_some_iff.mp inSettled).1,
        inSettled] at found'
      exact (Option.some.inj found').symm
    · rw [← eq, List.getElem?_append_left (List.getElem?_eq_some_iff.mp found').1,
        found'] at inSettled
      exact Option.some.inj inSettled
  · intro leader later
    have elected := (agrees'.leader leader).elected
    rw [agrees.term, agrees'.term] at later
    obtain ⟨tail, eq⟩ := Settled.prefix_leaderLog agrees'.sound group.meets settled later
      (by rw [elected]; exact Option.some_ne_none k)
    rw [agrees'.entry_at, if_neg positive.ne', idxEq, Nat.succ_sub_one,
      agrees'.sound.leads k elected, ← eq,
      List.getElem?_append_left (List.getElem?_eq_some_iff.mp inSettled).1, inSettled]

theorem committed_entry_stays_replicated :
    (∀ ety', (ety', 1) ∈ (replicated.servers 2).applied → ety' = ⟨1, 5, 0, [7]⟩) ∧
      ((replicated.servers 2).state = .leader →
        (replicated.servers 1).currentTerm ≤ (replicated.servers 2).currentTerm →
          raftGetEntryFromIdx (replicated.servers 2) 1 = some ⟨1, 5, 0, [7]⟩) :=
  have accepted : (⟨0, 5, 0, [7]⟩, ⟨5, 1, 1⟩) ∈ replicated.accepted := by decide +kernel
  committed_entry_stays group_three reachable_replicated accepted (j := 1) (by decide)
    (by decide +kernel) Cluster.Runs.refl (by decide)

end Safety

end Raft

end LuaServer
