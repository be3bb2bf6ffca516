import LuaServer.RaftRelation

/-!
# Followers

A server that is sent entries deletes what differs from the log of the leader, appends
what it lacks and commits what the leader has committed; its member takes these steps.
-/

namespace LuaServer

namespace Raft

open MachineIntegers ReplicatedLogs PartialSimulations

section Steps

variable {ids : List Int} {a a' : ReplicatedLogs.State Int Entry} {i : Int} {me me' : Server}

/-! ## Changes of the log -/

/-- The committed part of the log stays. -/
theorem Core.relog (core : Core ids a i me) (group : Group ids)
    (moves : Moves Entry.term (Quorum ids) i a a') (term : a'.term i = a.term i)
    (ballot : a'.ballot i = a.ballot i)
    (same : me' = { me with
      log := me'.log
      votingCfgChangeLogIdx := me'.votingCfgChangeLogIdx
      calls := me'.calls })
    (formed : me'.log.WellFormed) (base : me'.log.base = 0) (front : me'.log.front = 0)
    (entries : me'.log.toList = a'.log i)
    (normal : ∀ ety ∈ a'.log i, raftEntryIsCfgChange ety = false)
    (commit : me.commitIdx ≤ (a'.log i).length)
    (take : (a'.log i).take me.commitIdx = (a.log i).take me.commitIdx)
    (applied : me'.applied = me.applied)
    (calls : ∀ callback ∈ me'.calls, callback ∈ me.calls ∨ CallOk ids a' i callback) :
    Core ids a' i me' := by
  obtain ⟨sound', grows⟩ := moves.sound_grows core.sound
  have short : (a'.log i).take me.lastAppliedIdx = (a.log i).take me.lastAppliedIdx := by
    rw [← min_eq_left core.applied_le, ← List.take_take, take, List.take_take]
  exact {
    sound := sound'
    nodes := by rw [same]; exact core.nodes
    flags := by rw [same]; exact core.flags
    node := by rw [same]; exact core.node
    formed := formed
    base := base
    front := front
    entries := entries
    normal := normal
    term := by rw [same, term]; exact core.term
    vote := by rw [same, term, ballot]; exact core.vote
    known := by rw [term, ballot]; exact core.known
    snapshot := by rw [same]; exact core.snapshot
    connected := by rw [same]; exact core.connected
    commit := by rw [same]; exact commit
    settled := by
      rw [same]
      simp only [take]
      exact core.settled.mono group.nonempty core.sound grows (grows.term i)
    applied_le := by rw [same]; exact core.applied_le
    applied := by rw [applied, same, short]; exact core.applied
    calls := fun callback member => (calls callback member).elim
      (fun old => (core.calls callback old).mono group core.sound grows) id }

theorem raftAppendEntry_eq (me : Server) {ety : Entry}
    (normal : raftEntryIsCfgChange ety = false) :
    raftAppendEntry me ety = some { me.call (.logOffer ety (me.log.base + me.log.count + 1)) with
      log := logAppendEntry me.log ety } := by
  have notVoting : raftEntryIsVotingCfgChange ety = false := by
    simp only [raftEntryIsCfgChange, Bool.or_eq_false_iff] at normal
    rw [raftEntryIsVotingCfgChange, normal.1.1.1, normal.1.2]
    rfl
  simp [raftAppendEntry, notVoting, raftOfferLog, normal, Server.call]

theorem popCallbacks_eq (me : Server) {popped : List (Entry × Nat)}
    (normal : ∀ pair ∈ popped, raftEntryIsCfgChange pair.1 = false) :
    popCallbacks popped me = some { me with
      calls := me.calls ++ popped.map fun pair => .logPop pair.1 pair.2 } := by
  induction popped generalizing me with
  | nil => simp [popCallbacks]
  | cons pair popped ih =>
      rw [popCallbacks, raftOfferLog, if_pos (by simp [normal pair List.mem_cons_self]),
        Option.bind_eq_bind, Option.bind_some,
        ih _ fun pair member => normal pair (List.mem_cons_of_mem _ member)]
      simp [Server.call]

theorem raftDeleteEntryFromIdx_eq {idx : Nat} {after : Log} {popped : List (Entry × Nat)}
    (commit : me.commitIdx < idx) (eq : logDelete me.log idx = (0, after, popped))
    (normal : ∀ pair ∈ popped, raftEntryIsCfgChange pair.1 = false) :
    raftDeleteEntryFromIdx me idx = some (0, { me with
      votingCfgChangeLogIdx := if (idx : Int) ≤ me.votingCfgChangeLogIdx then -1
        else me.votingCfgChangeLogIdx
      log := after
      calls := me.calls ++ popped.map fun pair => .logPop pair.1 pair.2 }) := by
  rw [raftDeleteEntryFromIdx, if_pos commit]
  split <;> simp [eq, popCallbacks_eq _ normal]

/-- Only the log of one member has changed. -/
structure SameTerms (a a' : ReplicatedLogs.State Int Entry) : Prop where
  term : a'.term = a.term
  elected : a'.elected = a.elected
  leaderLog : a'.leaderLog = a.leaderLog
  acked : a'.acked = a.acked

theorem SameTerms.settled (same : SameTerms a a') {bound : Nat} {log : List Entry}
    (settled : Settled Entry.term (Quorum ids) a bound log) :
    Settled Entry.term (Quorum ids) a' bound log := by
  simpa only [Settled, Committed, OwnAt, same.leaderLog, same.acked] using settled

theorem SameTerms.trans {a'' : ReplicatedLogs.State Int Entry} (first : SameTerms a a')
    (second : SameTerms a' a'') : SameTerms a a'' :=
  ⟨second.term.trans first.term, second.elected.trans first.elected,
    second.leaderLog.trans first.leaderLog, second.acked.trans first.acked⟩

/-- A follower in a term with a leader. -/
structure Following (ids : List Int) (a : ReplicatedLogs.State Int Entry) (i : Int)
    (me : Server) : Prop extends Agrees ids a i me where
  state : me.state = .follower
  led : a.elected (a.term i) ≠ none

theorem Following.other (following : Following ids a i me) : a.elected (a.term i) ≠ some i :=
  following.unled (by rw [following.state]; nofun)

/-- A follower takes over another log, of which it has the committed part already. -/
theorem Following.relog (following : Following ids a i me) (group : Group ids) (me' : Server)
    {log : List Entry}
    (keeps : ∀ m, (a.leaderLog (a.term i)).take m <+: a.log i →
      (a.leaderLog (a.term i)).take m <+: log)
    (matched : Matched Entry.term a log) (bounded : ∀ ety ∈ log, ety.term ≤ a.term i)
    (same : me' = { me with
      log := me'.log
      votingCfgChangeLogIdx := me'.votingCfgChangeLogIdx
      calls := me'.calls })
    (formed : me'.log.WellFormed) (base : me'.log.base = 0) (front : me'.log.front = 0)
    (entries : me'.log.toList = log)
    (normal : ∀ ety ∈ log, raftEntryIsCfgChange ety = false)
    (commit : me.commitIdx ≤ log.length)
    (take : log.take me.commitIdx = (a.log i).take me.commitIdx)
    (applied : me'.applied = me.applied)
    (calls : ∀ callback ∈ me'.calls, callback ∈ me.calls ∨ CallOk ids a i callback) :
    ∃ a', Step Entry.term (Quorum ids) i a a' ∧ SameTerms a a' ∧ a'.log i = log ∧
      Following ids a' i me' := by
  have step : Step Entry.term (Quorum ids) i a _ :=
    Step.accept log following.led following.other keeps matched bounded
  have logEq : Function.update a.log i log i = log := Function.update_self ..
  have state : me'.state = .follower := by rw [same]; exact following.state
  have grows := step.grows following.sound
  refine ⟨_, step, ⟨rfl, rfl, rfl, rfl⟩, logEq, ?_, state, following.led⟩
  exact {
    toCore := following.toCore.relog group (.single step) rfl rfl same formed base front
      (entries.trans logEq.symm) (by simpa only [logEq] using normal)
      (by simpa only [logEq] using commit) (by simpa only [logEq] using take) applied
      fun callback member => (calls callback member).imp_right
        fun ok => ok.mono group following.sound grows
    unled := fun _ => following.other
    candidate := fun other => nomatch state.symm.trans other
    leader := fun other => nomatch state.symm.trans other
    tracked := fun other => nomatch state.symm.trans other }

/-- The next entry of the leader is appended. -/
theorem Following.append (following : Following ids a i me) (group : Group ids) {log : List Entry}
    {ety : Entry} (begins : log ++ [ety] <+: a.leaderLog (a.term i)) (logEq : a.log i = log)
    (normal : raftEntryIsCfgChange ety = false) :
    ∃ me', raftAppendEntry me ety = some me' ∧ ∃ a', Step Entry.term (Quorum ids) i a a' ∧
      SameTerms a a' ∧ a'.log i = log ++ [ety] ∧ Following ids a' i me' ∧
        me'.commitIdx = me.commitIdx := by
  obtain ⟨matched, bounded⟩ := following.sound.leaderLogs (a.term i)
  obtain ⟨formed, entries, base⟩ := following.formed.append ety
  have commit := following.commit
  have front : (logAppendEntry me.log ety).front = 0 := by
    rw [logAppendEntry, ensurecapacity]
    split
    · exact following.front
    · rfl
  have normal' : ∀ other ∈ log ++ [ety], raftEntryIsCfgChange other = false := by
    intro other member
    rcases List.mem_append.mp member with old | new
    · exact following.normal other (logEq ▸ old)
    · rw [List.mem_singleton.mp new]
      exact normal
  have take : (log ++ [ety]).take me.commitIdx = (a.log i).take me.commitIdx := by
    rw [logEq] at commit ⊢
    rw [List.take_append_of_le_length commit]
  obtain ⟨a', step, same, logEq', following'⟩ := following.relog group
    { me.call (.logOffer ety (me.log.base + me.log.count + 1)) with
      log := logAppendEntry me.log ety }
    (fun m has => has.trans (logEq ▸ List.prefix_append _ _)) (matched.of_beginning begins)
    (fun other member => bounded other (begins.subset member)) rfl formed
    (base.trans following.base) front (by rw [entries, following.entries, logEq]) normal'
    (by rw [logEq] at commit; rw [List.length_append]; omega) take
    (applied_call me (.logOffer ety _) rfl)
    (forall_calls_call (.logOffer ety _) trivial)
  exact ⟨_, raftAppendEntry_eq me normal, a', step, same, logEq', following', rfl⟩

/-- What differs from the log of the leader is deleted. -/
theorem Following.delete (following : Following ids a i me) (group : Group ids) {idx : Nat}
    (commit : me.commitIdx < idx) (differs : ¬ (a.leaderLog (a.term i)).take idx <+: a.log i) :
    ∃ me', raftDeleteEntryFromIdx me idx = some (0, me') ∧
      ∃ a', Step Entry.term (Quorum ids) i a a' ∧ SameTerms a a' ∧
        a'.log i = (a.log i).take (idx - 1) ∧ Following ids a' i me' ∧
          me'.commitIdx = me.commitIdx := by
  obtain ⟨matched, bounded⟩ := following.sound.logs i
  obtain ⟨after, popped, eq, formed, base, front, entries, poppedEq⟩ :=
    following.formed.delete (show 0 < idx by omega)
  rw [following.base, following.entries, Nat.sub_zero] at entries poppedEq
  have normal : ∀ pair ∈ popped, raftEntryIsCfgChange pair.1 = false := by
    intro pair member
    rw [poppedEq, List.mem_reverse] at member
    exact following.normal _ (List.fst_mem_of_mem_zipIdx (List.mem_of_mem_drop member))
  have le := following.commit
  have quiet : (popped.map fun pair => Callback.logPop pair.1 pair.2).filterMap
      Callback.appliedEntry = [] := by
    rw [List.filterMap_map]
    exact List.filterMap_eq_nil_iff.mpr fun pair _ => rfl
  have keeps : ∀ m, (a.leaderLog (a.term i)).take m <+: a.log i →
      (a.leaderLog (a.term i)).take m <+: (a.log i).take (idx - 1) := by
    intro m has
    have short : m < idx := by
      by_contra long
      exact differs ((List.take_prefix_take_left (by omega)).trans has)
    exact List.prefix_take_iff.mpr ⟨has, by rw [List.length_take]; omega⟩
  have calls : ∀ callback ∈ me.calls ++ popped.map fun pair => .logPop pair.1 pair.2,
      callback ∈ me.calls ∨ CallOk ids a i callback := by
    intro callback member
    rcases List.mem_append.mp member with old | new
    · exact Or.inl old
    · obtain ⟨pair, -, rfl⟩ := List.mem_map.mp new
      exact Or.inr trivial
  obtain ⟨a', step, same, logEq, following'⟩ := following.relog group
    { me with
      votingCfgChangeLogIdx := if (idx : Int) ≤ me.votingCfgChangeLogIdx then -1
        else me.votingCfgChangeLogIdx
      log := after
      calls := me.calls ++ popped.map fun pair => .logPop pair.1 pair.2 }
    keeps (matched.of_beginning (List.take_prefix _ _))
    (fun ety member => bounded ety (List.mem_of_mem_take member)) rfl formed
    (base.trans following.base) (front.trans following.front) entries
    (fun ety member => following.normal ety (List.mem_of_mem_take member))
    (by rw [List.length_take]; omega) (by rw [List.take_take, min_eq_left (by omega)])
    (by rw [Server.applied, Server.applied, List.filterMap_append, quiet, List.append_nil]) calls
  exact ⟨_, raftDeleteEntryFromIdx_eq commit eq normal, a', step, same, logEq, following', rfl⟩

/-- What the entries of a message belong to: the log of the leader when it was sent. -/
structure Sent (a : ReplicatedLogs.State Int Entry) (t : Nat) (log : List Entry) : Prop where
  begins : log <+: a.leaderLog t
  normal : ∀ ety ∈ log, raftEntryIsCfgChange ety = false

theorem Sent.of_sameTerms {t : Nat} {log : List Entry} (sent : Sent a t log)
    (same : SameTerms a a') : Sent a' t log :=
  ⟨same.leaderLog ▸ sent.begins, sent.normal⟩

/-- A committed entry is the one of the leader. -/
theorem Following.getElem?_of_committed (following : Following ids a i me) (group : Group ids)
    {k : Nat} (committed : k < me.commitIdx) :
    (a.log i)[k]? = (a.leaderLog (a.term i))[k]? := by
  have commit := following.commit
  have begins := Settled.prefix_leaderLog following.sound group.meets following.settled le_rfl
    following.led
  obtain ⟨tail, eq⟩ := begins
  rw [← eq, List.getElem?_append_left (by rw [List.length_take]; omega),
    List.getElem?_take_of_lt committed]

/-- The first loop skips what is there already, and deletes from the first entry on that
differs. -/
theorem Following.matchLoop (following : Following ids a i me) (group : Group ids)
    {log : List Entry} (sent : Sent a (a.term i) log) {p : Nat} (has : log.take p <+: a.log i)
    {rest : List Entry} (restEq : rest = log.drop p) (le : p ≤ log.length) :
    Follows (Step Entry.term (Quorum ids) i) a (Raft.matchLoop me (p + 1) p rest)
      fun a' result => result.1 = 0 ∧ Following ids a' i result.2.1 ∧ SameTerms a a' ∧
        result.2.1.commitIdx = me.commitIdx ∧
        ∃ q ≤ log.length, result.2.2 = (log.drop q, q) ∧ log.take q <+: a'.log i ∧
          (log.drop q ≠ [] → a'.log i = log.take q) := by
  induction rest generalizing p with
  | nil =>
      rw [Raft.matchLoop]
      exact follows_some ⟨rfl, following, ⟨rfl, rfl, rfl, rfl⟩, rfl, p, le, by rw [← restEq], has,
        fun some_ => absurd restEq.symm some_⟩
  | cons ety rest ih =>
      have inside : p < log.length := by
        by_contra outside
        rw [List.drop_eq_nil_of_le (not_lt.mp outside)] at restEq
        exact List.cons_ne_nil _ _ restEq
      have atP : log[p]? = some ety := by
        rw [← List.head?_drop, ← restEq, List.head?_cons]
      have restEq' : rest = log.drop (p + 1) := by
        rw [← List.tail_drop, ← restEq, List.tail_cons]
      have leader : (a.leaderLog (a.term i))[p]? = some ety := by
        obtain ⟨tail, eq⟩ := sent.begins
        rw [← eq, List.getElem?_append_left inside, atP]
      rw [Raft.matchLoop, following.entry_at, if_neg (Nat.succ_ne_zero _), Nat.add_sub_cancel]
      cases found : (a.log i)[p]? with
      | none =>
          -- the log ends here
          have whole : a.log i = log.take p := by
            refine (has.eq_of_length_le ?_).symm
            rw [List.length_take]
            have short := List.getElem?_eq_none_iff.mp found
            omega
          exact follows_some ⟨rfl, following, ⟨rfl, rfl, rfl, rfl⟩, rfl, p, le, by rw [← restEq],
            has, fun _ => whole⟩
      | some existing =>
          simp only
          by_cases same : existing.term = ety.term
          · -- entries of one term at one place are the same
            rw [if_neg (not_not.mpr same)]
            have takeEq : log.take (p + 1) = (a.log i).take (p + 1) :=
              ((following.sound.leaderLogs (a.term i)).1.of_beginning sent.begins).take_eq_take
                (following.sound.logs i).1 atP found same.symm
            exact ih (takeEq ▸ List.take_prefix _ _) restEq' inside
          · have differs : ¬ (a.leaderLog (a.term i)).take (p + 1) <+: a.log i := by
              rintro ⟨tail, eq⟩
              have both : (a.log i)[p]? = some ety := by
                rw [← eq, List.getElem?_append_left, List.getElem?_take_of_lt (Nat.lt_succ_self p),
                  leader]
                rw [List.length_take]
                have bound := (List.getElem?_eq_some_iff.mp leader).1
                omega
              exact same (by rw [Option.some.inj (found.symm.trans both)])
            have open_ : me.commitIdx < p + 1 := by
              by_contra committed
              have both := following.getElem?_of_committed group (k := p) (by omega)
              rw [found, leader] at both
              exact same (by rw [Option.some.inj both])
            obtain ⟨me', eq, a', step, sameTerms, logEq, following', commit⟩ :=
              following.delete group open_ differs
            have cut : a'.log i = log.take p := by
              rw [logEq, Nat.add_sub_cancel]
              refine (List.prefix_take_iff.mpr ⟨has, ?_⟩ |>.eq_of_length_le ?_).symm
              · rw [List.length_take]
                omega
              · rw [List.length_take, List.length_take]
                omega
            rw [if_pos same, if_neg (by omega), eq]
            exact Follows.step step (follows_some ⟨rfl, following', sameTerms, commit, p, le,
              by rw [← restEq], cut ▸ List.prefix_rfl, fun _ => cut⟩)

/-- The second loop completes the log. -/
theorem Following.appendLoop (following : Following ids a i me) (group : Group ids)
    {log : List Entry} (sent : Sent a (a.term i) log) {q : Nat} {rest : List Entry}
    (restEq : rest = log.drop q) (has : log.take q <+: a.log i)
    (whole : rest ≠ [] → a.log i = log.take q) :
    Follows (Step Entry.term (Quorum ids) i) a (Raft.appendLoop rest me)
      fun a' me' => Following ids a' i me' ∧ SameTerms a a' ∧
        me'.commitIdx = me.commitIdx ∧ log <+: a'.log i := by
  induction rest generalizing a me q with
  | nil =>
      have all : log.take q = log := List.take_of_length_le (List.drop_eq_nil_iff.mp restEq.symm)
      rw [Raft.appendLoop]
      exact follows_some ⟨following, ⟨rfl, rfl, rfl, rfl⟩, rfl, all ▸ has⟩
  | cons ety rest ih =>
      have inside : q < log.length := by
        by_contra outside
        rw [List.drop_eq_nil_of_le (not_lt.mp outside)] at restEq
        exact List.cons_ne_nil _ _ restEq
      have atQ : log[q]? = some ety := by
        rw [← List.head?_drop, ← restEq, List.head?_cons]
      have next : log.take (q + 1) = log.take q ++ [ety] := by
        rw [List.take_add_one, atQ]
        rfl
      have restEq' : rest = log.drop (q + 1) := by
        rw [← List.tail_drop, ← restEq, List.tail_cons]
      obtain ⟨me', eq, a', step, same, logEq, following', commit⟩ := following.append group
        (next ▸ (List.take_prefix _ _).trans sent.begins) (whole (List.cons_ne_nil _ _))
        (sent.normal ety (List.mem_of_getElem? atQ))
      rw [← next] at logEq
      rw [Raft.appendLoop, eq]
      refine Follows.step step ?_
      have sent' : Sent a' (a'.term i) log := by
        rw [same.term]
        exact sent.of_sameTerms same
      refine Follows.mono (ih following' sent' restEq' (logEq ▸ List.prefix_rfl) fun _ => logEq) ?_
      rintro a'' me'' ⟨following'', same', commit', has'⟩
      exact ⟨following'', same.trans same', commit'.trans commit, has'⟩

theorem Following.followCommitIdx (following : Following ids a i me) {log : List Entry}
    {leaderCommit : Nat} (has : log <+: a.log i) (le : leaderCommit ≤ log.length)
    (settled : Settled Entry.term (Quorum ids) a (a.term i) (log.take leaderCommit)) :
    ∃ me', Raft.followCommitIdx me leaderCommit = some me' ∧ Following ids a i me' := by
  rw [Raft.followCommitIdx]
  split
  · next behind =>
    have long := has.length_le
    have least : min (max (raftGetCurrentIdx me) 1) leaderCommit = leaderCommit := by
      rw [following.currentIdx]
      omega
    have take : (a.log i).take leaderCommit = log.take leaderCommit := by
      obtain ⟨tail, eq⟩ := has
      rw [← eq, List.take_append_of_le_length le]
    have applied_le := following.applied_le
    simp only [least]
    rw [raftSetCommitIdx, if_pos ⟨behind.le, by rw [following.currentIdx]; omega⟩]
    exact ⟨_, rfl, { following with
      commit := le.trans long
      settled := by
        simp only [take]
        exact settled
      applied_le := applied_le.trans behind.le
      candidate := fun state => { following.candidate state with } }⟩
  · exact ⟨me, rfl, following⟩

/-- The follower has said what it has got, and its response is true. -/
theorem Following.acknowledge (following : Following ids a i me) (group : Group ids)
    (inGroup : i ∈ ids) {c : Int} (known : c ∈ ids) (other : i ≠ c) {m : Nat}
    (ack : Step Entry.term (Quorum ids) i a
      { a with acked := fun v t k => a.acked v t k ∨ v = i ∧ t = a.term i ∧ k ≤ m }) :
    Agrees ids { a with acked := fun v t k => a.acked v t k ∨ v = i ∧ t = a.term i ∧ k ≤ m }
      i me ∧
    ∀ firstIdx, ReplyOk ids
      { a with acked := fun v t k => a.acked v t k ∨ v = i ∧ t = a.term i ∧ k ≤ m } i c
      ⟨me.currentTerm, true, m, firstIdx⟩ := by
  refine ⟨{
    toCore := following.keep group (.single ack) rfl
      (by dsimp only; rw [← following.vote, ← following.term]) rfl following.flags
      following.known rfl fun _ member => Or.inl member
    unled := following.unled
    candidate := fun state => nomatch following.state.symm.trans state
    leader := fun state => nomatch following.state.symm.trans state
    tracked := fun state => nomatch following.state.symm.trans state }, fun firstIdx =>
      ⟨inGroup, known, other, fun _ => Or.inr ⟨rfl, following.term, le_rfl⟩⟩⟩

theorem Following.storeEntries (following : Following ids a i me) (group : Group ids)
    (inGroup : i ∈ ids) {c : Int} (known : c ∈ ids) (other : i ≠ c) {ae : AppendEntries}
    (sameTerm : ae.term = a.term i) (ok : AppendOk ids a c ae)
    (prev : ∀ log, log <+: a.leaderLog ae.term → ae.prevLogIdx ≤ log.length →
      (0 < ae.prevLogIdx → ∃ ety, log[ae.prevLogIdx - 1]? = some ety ∧
        ety.term = ae.prevLogTerm) → log.take ae.prevLogIdx <+: a.log i) :
    Follows (Step Entry.term (Quorum ids) i) a (Raft.storeEntries me ae)
      fun a' result => result.1 = 0 ∧ Agrees ids a' i result.2.1 ∧
        ReplyOk ids a' i c result.2.2 := by
  obtain ⟨-, log, begins, le, entries, prevTerm, commit, settled, normal⟩ := ok
  have has := prev log begins le prevTerm
  rw [sameTerm] at begins settled
  have sent : Sent a (a.term i) log := ⟨begins, normal⟩
  rw [Raft.storeEntries]
  refine (following.matchLoop group sent has entries le).bind ?_
  rintro a' ⟨e, me', rest, currentIdx⟩ ⟨rfl, following', same, -, q, qLe, restEq, has', whole⟩
  obtain ⟨rfl, rfl⟩ := Prod.mk.inj restEq
  have sent' : Sent a' (a'.term i) log := by
    rw [same.term]
    exact sent.of_sameTerms same
  simp only [ne_eq, not_true_eq_false, if_false]
  refine (following'.appendLoop group sent' rfl has' whole).bind ?_
  rintro a'' me'' ⟨following'', same', -, hasAll⟩
  have terms := same.trans same'
  have begins' : log <+: a''.leaderLog (a''.term i) := by
    rw [terms.leaderLog, terms.term]
    exact begins
  have settled' : Settled Entry.term (Quorum ids) a'' (a''.term i)
      (log.take ae.leaderCommit) := by
    rw [terms.term]
    exact terms.settled settled
  obtain ⟨me₃, eq, following₃⟩ := following''.followCommitIdx hasAll commit settled'
  have current : (if log.drop currentIdx = [] then currentIdx
      else ae.prevLogIdx + ae.entries.length) = log.length := by
    split
    · next empty => exact le_antisymm qLe (List.drop_eq_nil_iff.mp empty)
    · rw [entries, List.length_drop]
      omega
  have isTake : (a''.leaderLog (a''.term i)).take log.length = log :=
    (List.prefix_iff_eq_take.mp begins').symm
  have ack : Step Entry.term (Quorum ids) i a'' _ :=
    Step.ack log.length begins'.length_le (isTake.symm ▸ hasAll)
  obtain ⟨agrees, reply⟩ := following₃.acknowledge group inGroup known other ack
  rw [eq, current]
  exact Follows.step ack (follows_some ⟨rfl, agrees, reply _⟩)

theorem Following.acceptEntries (following : Following ids a i me) (group : Group ids)
    (inGroup : i ∈ ids) {c : Int} (known : c ∈ ids) (other : i ≠ c) {ae : AppendEntries}
    (sameTerm : ae.term = a.term i) (ok : AppendOk ids a c ae) :
    Follows (Step Entry.term (Quorum ids) i) a (Raft.acceptEntries me ae (some c))
      fun a' result => result.1 = 0 ∧ Agrees ids a' i result.2.1 ∧
        ReplyOk ids a' i c result.2.2 := by
  have refused : ∀ a' term currentIdx firstIdx,
      ReplyOk ids a' i c ⟨term, false, currentIdx, firstIdx⟩ :=
    fun _ _ _ _ => ⟨inGroup, known, other, nofun⟩
  have heard : Following ids a i { me with currentLeader := some c, timeoutElapsed := 0 } :=
    ⟨following.of_volatile rfl, following.state, following.led⟩
  rw [Raft.acceptEntries]
  by_cases behind : 0 < ae.prevLogIdx
  · have noSnapshot : ¬ ae.prevLogIdx = me.snapshotLastIdx := by
      rw [following.snapshot.2]
      omega
    obtain ⟨-, log, begins, le, -, prevTerm, -⟩ := id ok
    obtain ⟨prev, atPrev, prevEq⟩ := prevTerm behind
    have leader : (a.leaderLog (a.term i))[ae.prevLogIdx - 1]? = some prev := by
      rw [← sameTerm]
      obtain ⟨tail, eq⟩ := begins
      rw [← eq, List.getElem?_append_left (by omega), atPrev]
    simp only [if_pos behind, if_neg noSnapshot, heard.entry_at, if_neg behind.ne']
    cases found : (a.log i)[ae.prevLogIdx - 1]? with
    | none => exact follows_some ⟨rfl, heard.toAgrees, refused a _ _ _⟩
    | some ety =>
        simp only
        by_cases same : ety.term = ae.prevLogTerm
        · rw [if_neg (not_not.mpr same)]
          refine heard.storeEntries group inGroup known other sameTerm ok ?_
          intro log' begins' le' prevTerm'
          obtain ⟨prev', atPrev', prevEq'⟩ := prevTerm' behind
          have takeEq := ((following.sound.leaderLogs ae.term).1.of_beginning begins').take_eq_take
            (following.sound.logs i).1 atPrev' found (prevEq'.trans same.symm)
          rw [Nat.sub_add_cancel behind] at takeEq
          exact takeEq ▸ List.take_prefix _ _
        · have differs : ¬ (a.leaderLog (a.term i)).take ae.prevLogIdx <+: a.log i := by
            rintro ⟨tail, eq⟩
            have both : (a.log i)[ae.prevLogIdx - 1]? = some prev := by
              have bound := (List.getElem?_eq_some_iff.mp leader).1
              rw [← eq, List.getElem?_append_left (by rw [List.length_take]; omega),
                List.getElem?_take_of_lt (by omega), leader]
            exact same (by rw [Option.some.inj (found.symm.trans both), prevEq])
          have open_ : me.commitIdx < ae.prevLogIdx := by
            by_contra committed
            have both := following.getElem?_of_committed group (k := ae.prevLogIdx - 1)
              (by omega)
            rw [found, leader] at both
            exact same (by rw [Option.some.inj both, prevEq])
          obtain ⟨me', eq, a', step, -, -, following', -⟩ := heard.delete group open_ differs
          rw [if_pos same, if_neg (not_le.mpr open_), eq]
          exact Follows.step step (follows_some ⟨rfl, following'.toAgrees, refused a' _ _ _⟩)
  · rw [if_neg behind]
    refine heard.storeEntries group inGroup known other sameTerm ok fun log _ _ _ => ?_
    rw [Nat.eq_zero_of_not_pos behind]
    exact List.nil_prefix

theorem Agrees.raftRecvAppendentries (agrees : Agrees ids a i me) (group : Group ids)
    (inGroup : i ∈ ids) {c : Int} (known : c ∈ ids) (other : i ≠ c) {ae : AppendEntries}
    (ok : AppendOk ids a c ae) (rand : Nat) :
    Follows (Step Entry.term (Quorum ids) i) a (Raft.raftRecvAppendentries me ae (some c) rand)
      fun a' result => result.1 = 0 ∧ Agrees ids a' i result.2.1 ∧
        ReplyOk ids a' i c result.2.2 := by
  have led : a.elected ae.term ≠ none := by
    rw [ok.leads]
    exact Option.some_ne_none c
  rw [Raft.raftRecvAppendentries]
  by_cases gives : me.state = .candidate ∧ me.currentTerm = ae.term
  · obtain ⟨state, sameTerm⟩ := gives
    have agrees' := agrees.become_follower group (by rw [state]; nofun) rand
    rw [agrees.term] at sameTerm
    have following : Following ids a i (raftBecomeFollower me rand) :=
      ⟨agrees', rfl, sameTerm ▸ led⟩
    rw [if_pos ⟨state, agrees.term.trans sameTerm⟩]
    exact following.acceptEntries group inGroup known other sameTerm.symm ok
  · rw [if_neg gives]
    by_cases later : me.currentTerm < ae.term
    · obtain ⟨a', step, agrees'⟩ := agrees.stepDown group later rand
      have grows := step.grows agrees.sound
      have sameTerm : ae.term = a'.term i := by
        rw [← agrees'.term, stepDown_eq later]
      have following : Following ids a' i (Raft.stepDown me ae.term rand) :=
        ⟨agrees', by rw [stepDown_eq later], sameTerm ▸ grows.elected_ne_none led⟩
      rw [if_pos later]
      exact Follows.step step (following.acceptEntries group inGroup known other sameTerm
        (ok.mono group agrees.sound grows))
    · rw [if_neg later]
      by_cases older : ae.term < me.currentTerm
      · rw [if_pos older]
        exact follows_some ⟨rfl, agrees, inGroup, known, other, nofun⟩
      · have sameTerm : ae.term = a.term i := by
          rw [← agrees.term]
          omega
        have state : me.state = .follower := by
          cases state : me.state with
          | follower => rfl
          | candidate => exact absurd ⟨state, agrees.term.trans sameTerm.symm⟩ gives
          | leader =>
              have elected := (agrees.leader state).elected
              rw [← sameTerm, ok.leads] at elected
              exact absurd (Option.some.inj elected).symm other
        have following : Following ids a i me := ⟨agrees, state, sameTerm ▸ led⟩
        rw [if_neg older]
        exact following.acceptEntries group inGroup known other sameTerm ok

end Steps

end Raft

end LuaServer
