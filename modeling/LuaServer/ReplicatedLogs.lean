import Mathlib.Data.Set.Basic
import Mathlib.Data.List.Infix
import Mathlib.Logic.Function.Basic
import Mathlib.Logic.Relation
import Mathlib.Tactic.Common

/-!
# Replicated logs

Members of a group vote for a leader in each term, and take over the log of the leader
of their term.  The log that is replicated in a term is one object, which only grows, and
every log of the group is put together from beginnings of such logs.  What a quorum has
acknowledged up to an entry of the term itself is a beginning of the log of every later
leader.  A member may change its own part of the state only, and all that has been said
by a member stays.
-/

namespace LuaServer

namespace ReplicatedLogs

/-- The members with their logs, and what has been said in each term: `stood t c` is the
log with which `c` has asked for votes, `leaderLog t` is the log of the leader, and
`acked v t m` says that `v` has acknowledged the first `m` entries of it. -/
structure State (Member Entry : Type*) where
  term : Member → Nat
  log : Member → List Entry
  ballot : Member → Nat → Option Member
  stood : Nat → Member → Option (List Entry)
  elected : Nat → Option Member
  leaderLog : Nat → List Entry
  acked : Member → Nat → Nat → Prop

variable {Member Entry : Type*}

/-- Nobody has said anything yet. -/
def State.start : State Member Entry where
  term _ := 0
  log _ := []
  ballot _ _ := none
  stood _ _ := none
  elected _ := none
  leaderLog _ := []
  acked _ _ _ := False

section Definitions

variable (termOf : Entry → Nat) (s : State Member Entry)

/-- The term of the last entry, and zero if there is none. -/
def lastTerm (log : List Entry) : Nat := (log.getLast?.map termOf).getD 0

/-- The first log is at least as recent as the second one. -/
def Recent (first second : List Entry) : Prop :=
  lastTerm termOf second < lastTerm termOf first ∨
    lastTerm termOf second = lastTerm termOf first ∧ second.length ≤ first.length

/-- The log up to an entry is a beginning of the log of the leader of the entry's term. -/
def Matched (log : List Entry) : Prop :=
  ∀ k entry, log[k]? = some entry → log.take (k + 1) <+: s.leaderLog (termOf entry)

/-- The last of the first `m` entries of a leader's log is of the leader's own term. -/
def OwnAt (t m : Nat) : Prop :=
  ∃ k entry, m = k + 1 ∧ (s.leaderLog t)[k]? = some entry ∧ termOf entry = t

/-- A later leader up to the bound has not got the first `m` entries of the leader. -/
def Overtaken (t m bound : Nat) : Prop :=
  ∃ t', t < t' ∧ t' ≤ bound ∧ s.elected t' ≠ none ∧
    ¬ (s.leaderLog t).take m <+: s.leaderLog t'

/-- What the voter has acknowledged in earlier terms is in the log it votes for, unless
another leader has come in between. -/
def Preserved (v : Member) (t : Nat) (log : List Entry) : Prop :=
  ∀ t₀ m, s.acked v t₀ m → t₀ < t → OwnAt termOf s t₀ m →
    (s.leaderLog t₀).take m <+: log ∨ Overtaken s t₀ m (t - 1)

end Definitions

section Steps

variable [DecidableEq Member] (termOf : Entry → Nat) (Quorum : Set Member → Prop)

/-- The vote of a member in a term. -/
def State.cast (s : State Member Entry) (v : Member) (t : Nat) (c : Member) :
    Member → Nat → Option Member :=
  Function.update s.ballot v (Function.update (s.ballot v) t (some c))

/-- What member `i` may do. -/
inductive Step (i : Member) (s : State Member Entry) : State Member Entry → Prop
  | advance (t : Nat) (later : s.term i < t) :
      Step i s { s with term := Function.update s.term i t }
  | stand :
      Step i s { s with
        term := Function.update s.term i (s.term i + 1)
        ballot := s.cast i (s.term i + 1) i
        stood := Function.update s.stood (s.term i + 1)
          (Function.update (s.stood (s.term i + 1)) i (some (s.log i))) }
  | vote (c : Member) (log : List Entry) (free : s.ballot i (s.term i) = none)
      (standing : s.stood (s.term i) c = some log) (recent : Recent termOf log (s.log i)) :
      Step i s { s with ballot := s.cast i (s.term i) c }
  | elect (voters : Set Member) (quorum : Quorum voters)
      (votes : ∀ v ∈ voters, s.ballot v (s.term i) = some i)
      (standing : s.stood (s.term i) i = some (s.log i))
      (vacant : s.elected (s.term i) = none) :
      Step i s { s with
        elected := Function.update s.elected (s.term i) (some i)
        leaderLog := Function.update s.leaderLog (s.term i) (s.log i) }
  | append (entry : Entry) (leads : s.elected (s.term i) = some i)
      (own : termOf entry = s.term i) :
      Step i s { s with
        log := Function.update s.log i (s.log i ++ [entry])
        leaderLog := Function.update s.leaderLog (s.term i) (s.log i ++ [entry]) }
  | accept (log : List Entry) (led : s.elected (s.term i) ≠ none)
      (other : s.elected (s.term i) ≠ some i)
      (keeps : ∀ m, (s.leaderLog (s.term i)).take m <+: s.log i →
        (s.leaderLog (s.term i)).take m <+: log)
      (matched : Matched termOf s log) (bounded : ∀ entry ∈ log, termOf entry ≤ s.term i) :
      Step i s { s with log := Function.update s.log i log }
  | ack (m : Nat) (long : m ≤ (s.leaderLog (s.term i)).length)
      (has : (s.leaderLog (s.term i)).take m <+: s.log i) :
      Step i s { s with
        acked := fun v t k => s.acked v t k ∨ v = i ∧ t = s.term i ∧ k ≤ m }

/-- What member `i` may do in any number of steps. -/
abbrev Moves (i : Member) : State Member Entry → State Member Entry → Prop :=
  Relation.ReflTransGen (Step termOf Quorum i)

end Steps

/-- Nothing that has been said is taken back: the state `s'` comes after `s`. -/
structure Grows (termOf : Entry → Nat) (s s' : State Member Entry) : Prop where
  term : ∀ v, s.term v ≤ s'.term v
  ballot : ∀ v t c, s.ballot v t = some c → s'.ballot v t = some c
  stood : ∀ t c log, s.stood t c = some log → s'.stood t c = some log
  elected : ∀ t c, s.elected t = some c → s'.elected t = some c
  leaderLog : ∀ t, s.leaderLog t <+: s'.leaderLog t
  tail : ∀ t, s.elected t ≠ none → ∃ tail, s'.leaderLog t = s.leaderLog t ++ tail ∧
    ∀ entry ∈ tail, termOf entry = t
  acked : ∀ v t m, s.acked v t m → s'.acked v t m
  settled : ∀ v t m, s'.acked v t m → t < s.term v → s.acked v t m

/-- The invariant of the group. -/
structure Sound (termOf : Entry → Nat) (Quorum : Set Member → Prop) (s : State Member Entry) :
    Prop where
  ballots : ∀ v t c, s.ballot v t = some c → t ≤ s.term v ∧ ∃ log, s.stood t c = some log ∧
    (s.elected t = none → Preserved termOf s v t log)
  standing : ∀ t c log, s.stood t c = some log → t ≤ s.term c ∧ Matched termOf s log ∧
    ∀ entry ∈ log, termOf entry < t
  leaders : ∀ t c, s.elected t = some c → t ≤ s.term c ∧ ∃ log voters,
    s.stood t c = some log ∧ log <+: s.leaderLog t ∧ Quorum voters ∧
      ∀ v ∈ voters, s.ballot v t = some c ∧ Preserved termOf s v t log
  vacant : ∀ t, s.elected t = none → s.leaderLog t = []
  leads : ∀ c, s.elected (s.term c) = some c → s.log c = s.leaderLog (s.term c)
  logs : ∀ v, Matched termOf s (s.log v) ∧ ∀ entry ∈ s.log v, termOf entry ≤ s.term v
  leaderLogs : ∀ t, Matched termOf s (s.leaderLog t) ∧ ∀ entry ∈ s.leaderLog t, termOf entry ≤ t
  acks : ∀ v t m, s.acked v t m → t ≤ s.term v ∧ m ≤ (s.leaderLog t).length ∧
    ((s.leaderLog t).take m <+: s.log v ∨ Overtaken s t m (s.term v))
  fewer : ∀ v t m k, s.acked v t m → k ≤ m → s.acked v t k

section Growth

variable {termOf : Entry → Nat} {Quorum : Set Member → Prop} {s s' s'' : State Member Entry}

theorem Grows.refl : Grows termOf s s where
  term _ := le_rfl
  ballot _ _ _ said := said
  stood _ _ _ said := said
  elected _ _ said := said
  leaderLog _ := List.prefix_rfl
  tail _ _ := ⟨[], (List.append_nil _).symm, fun _ none => absurd none List.not_mem_nil⟩
  acked _ _ _ said := said
  settled _ _ _ said _ := said

theorem Grows.trans (first : Grows termOf s s') (second : Grows termOf s' s'') :
    Grows termOf s s'' where
  term v := (first.term v).trans (second.term v)
  ballot v t c said := second.ballot v t c (first.ballot v t c said)
  stood t c log said := second.stood t c log (first.stood t c log said)
  elected t c said := second.elected t c (first.elected t c said)
  leaderLog t := (first.leaderLog t).trans (second.leaderLog t)
  tail t led := by
    obtain ⟨c, leader⟩ := Option.ne_none_iff_exists'.mp led
    obtain ⟨front, eqFront, ownFront⟩ := first.tail t led
    obtain ⟨back, eqBack, ownBack⟩ := second.tail t (by rw [first.elected t c leader]; simp)
    refine ⟨front ++ back, by rw [eqBack, eqFront, List.append_assoc], fun entry member => ?_⟩
    rcases List.mem_append.mp member with old | new
    · exact ownFront entry old
    · exact ownBack entry new
  acked v t m said := second.acked v t m (first.acked v t m said)
  settled v t m said early :=
    first.settled v t m (second.settled v t m said (early.trans_le (first.term v))) early

theorem Grows.elected_ne_none (grows : Grows termOf s s') {t : Nat} (led : s.elected t ≠ none) :
    s'.elected t ≠ none := by
  obtain ⟨c, leader⟩ := Option.ne_none_iff_exists'.mp led
  rw [grows.elected t c leader]
  exact Option.some_ne_none c

theorem Grows.take_leaderLog (grows : Grows termOf s s') {t m : Nat}
    (long : m ≤ (s.leaderLog t).length) :
    (s'.leaderLog t).take m = (s.leaderLog t).take m := by
  obtain ⟨tail, eq⟩ := grows.leaderLog t
  rw [← eq, List.take_append_of_le_length long]

theorem Grows.ownAt_iff (grows : Grows termOf s s') {t m : Nat}
    (long : m ≤ (s.leaderLog t).length) : OwnAt termOf s' t m ↔ OwnAt termOf s t m := by
  obtain ⟨tail, eq⟩ := grows.leaderLog t
  refine exists_congr fun k => exists_congr fun entry => and_congr_right ?_
  rintro rfl
  rw [← eq, List.getElem?_append_left long]

theorem Matched.mono {log : List Entry} (matched : Matched termOf s log)
    (grows : Grows termOf s s') : Matched termOf s' log :=
  fun k entry found => (matched k entry found).trans (grows.leaderLog _)

/-- What begins a longer list begins the list, or has one of the entries behind it. -/
theorem prefix_or_exists_of_prefix_append {xs ys tail : List Entry} (begins : xs <+: ys ++ tail) :
    xs <+: ys ∨ ∃ entry ∈ tail, entry ∈ xs := by
  rcases List.prefix_or_prefix_of_prefix begins (List.prefix_append ys tail) with
    short | ⟨rest, rfl⟩
  · exact Or.inl short
  · cases rest with
    | nil => exact Or.inl (by rw [List.append_nil])
    | cons entry rest =>
        have inTail : entry :: rest <+: tail := (List.prefix_append_right_inj ys).mp begins
        exact Or.inr ⟨entry, inTail.subset List.mem_cons_self, by simp⟩

/-- A leader that lacks earlier entries never gets them: it appends its own ones only. -/
theorem Overtaken.mono {t m bound bound' : Nat} (overtaken : Overtaken s t m bound)
    (sound : Sound termOf Quorum s) (grows : Grows termOf s s')
    (long : m ≤ (s.leaderLog t).length) (le : bound ≤ bound') : Overtaken s' t m bound' := by
  obtain ⟨t', after, before, led, lacks⟩ := overtaken
  refine ⟨t', after, before.trans le, grows.elected_ne_none led, fun begins => ?_⟩
  obtain ⟨tail, eq, own⟩ := grows.tail t' led
  rw [grows.take_leaderLog long, eq] at begins
  rcases prefix_or_exists_of_prefix_append begins with has | ⟨entry, new, old⟩
  · exact lacks has
  · have early := (sound.leaderLogs t).2 entry (List.mem_of_mem_take old)
    rw [own entry new] at early
    exact absurd early (by omega)

theorem Preserved.mono {v : Member} {t : Nat} {log : List Entry}
    (preserved : Preserved termOf s v t log) (sound : Sound termOf Quorum s)
    (grows : Grows termOf s s') (past : t ≤ s.term v) : Preserved termOf s' v t log := by
  intro t₀ m acked before own
  have old : s.acked v t₀ m := grows.settled v t₀ m acked (before.trans_le past)
  obtain ⟨-, long, -⟩ := sound.acks v t₀ m old
  rcases preserved t₀ m old before ((grows.ownAt_iff long).mp own) with has | overtaken
  · exact Or.inl (by rwa [grows.take_leaderLog long])
  · exact Or.inr (overtaken.mono sound grows long le_rfl)

/-! What is sound stays so as long as only more is said. -/

section Monotone

variable (sound : Sound termOf Quorum s) (grows : Grows termOf s s')
include sound grows

theorem Sound.ballots_mono {v : Member} {t : Nat} {c : Member} (said : s.ballot v t = some c) :
    t ≤ s'.term v ∧ ∃ log, s'.stood t c = some log ∧
      (s'.elected t = none → Preserved termOf s' v t log) := by
  obtain ⟨past, log, standing, preserved⟩ := sound.ballots v t c said
  refine ⟨past.trans (grows.term v), log, grows.stood t c log standing, fun vacant => ?_⟩
  have wasVacant : s.elected t = none := by
    by_contra led
    exact grows.elected_ne_none led vacant
  exact (preserved wasVacant).mono sound grows past

theorem Sound.standing_mono {t : Nat} {c : Member} {log : List Entry}
    (said : s.stood t c = some log) :
    t ≤ s'.term c ∧ Matched termOf s' log ∧ ∀ entry ∈ log, termOf entry < t := by
  obtain ⟨past, matched, early⟩ := sound.standing t c log said
  exact ⟨past.trans (grows.term c), matched.mono grows, early⟩

theorem Sound.leaders_mono {t : Nat} {c : Member} (said : s.elected t = some c) :
    t ≤ s'.term c ∧ ∃ log voters, s'.stood t c = some log ∧ log <+: s'.leaderLog t ∧
      Quorum voters ∧ ∀ v ∈ voters, s'.ballot v t = some c ∧ Preserved termOf s' v t log := by
  obtain ⟨past, log, voters, standing, begins, quorum, votes⟩ := sound.leaders t c said
  refine ⟨past.trans (grows.term c), log, voters, grows.stood t c log standing,
    begins.trans (grows.leaderLog t), quorum, fun v member => ?_⟩
  obtain ⟨vote, preserved⟩ := votes v member
  exact ⟨grows.ballot v t c vote, preserved.mono sound grows (sound.ballots v t c vote).1⟩

theorem Sound.logs_mono (v : Member) :
    Matched termOf s' (s.log v) ∧ ∀ entry ∈ s.log v, termOf entry ≤ s'.term v := by
  obtain ⟨matched, early⟩ := sound.logs v
  exact ⟨matched.mono grows, fun entry member => (early entry member).trans (grows.term v)⟩

theorem Sound.leaderLogs_mono (t : Nat) : Matched termOf s' (s.leaderLog t) ∧
    ∀ entry ∈ s.leaderLog t, termOf entry ≤ t := by
  obtain ⟨matched, early⟩ := sound.leaderLogs t
  exact ⟨matched.mono grows, early⟩

theorem Sound.acks_mono {v : Member} {t m : Nat} (said : s.acked v t m) :
    t ≤ s'.term v ∧ m ≤ (s'.leaderLog t).length ∧
      ((s'.leaderLog t).take m <+: s.log v ∨ Overtaken s' t m (s'.term v)) := by
  obtain ⟨past, long, has⟩ := sound.acks v t m said
  refine ⟨past.trans (grows.term v), long.trans (grows.leaderLog t).length_le, ?_⟩
  rcases has with has | overtaken
  · exact Or.inl (by rwa [grows.take_leaderLog long])
  · exact Or.inr (overtaken.mono sound grows long (grows.term v))

end Monotone

end Growth

section Invariant

variable [DecidableEq Member] {termOf : Entry → Nat} {Quorum : Set Member → Prop}
  {s s' : State Member Entry} {i : Member}

theorem State.cast_self (v : Member) (t : Nat) (c : Member) : s.cast v t c v t = some c := by
  rw [State.cast, Function.update_self, Function.update_self]

theorem State.cast_of_ne {v v' : Member} {t t' : Nat} (c : Member) (other : v' = v → t' ≠ t) :
    s.cast v t c v' t' = s.ballot v' t' := by
  rw [State.cast]
  by_cases same : v' = v
  · subst same
    rw [Function.update_self, Function.update_of_ne (other rfl)]
  · rw [Function.update_of_ne same]

theorem le_update_term {v : Member} {t : Nat} (later : s.term i ≤ t) :
    s.term v ≤ Function.update s.term i t v := by
  by_cases same : v = i
  · rw [same, Function.update_self]
    exact later
  · rw [Function.update_of_ne same]

theorem Grows.stand (sound : Sound termOf Quorum s) :
    Grows termOf s { s with
      term := Function.update s.term i (s.term i + 1)
      ballot := s.cast i (s.term i + 1) i
      stood := Function.update s.stood (s.term i + 1)
        (Function.update (s.stood (s.term i + 1)) i (some (s.log i))) } := by
  refine { (Grows.refl : Grows termOf s s) with
    term := fun v => le_update_term (Nat.le_succ _)
    ballot := fun v t c said => ?_
    stood := fun t c log said => ?_
    settled := fun v t m said _ => said }
  · refine (State.cast_of_ne i fun same => ?_).trans said
    have past := (sound.ballots v t c said).1
    rw [same] at past
    omega
  · have past := (sound.standing t c log said).1
    by_cases sameTerm : t = s.term i + 1
    · subst sameTerm
      have other : c ≠ i := by
        rintro rfl
        omega
      refine (congrFun (Function.update_self _ _ s.stood) c).trans ?_
      exact (Function.update_of_ne other _ _).trans said
    · exact (congrFun (Function.update_of_ne sameTerm _ _) c).trans said

omit [DecidableEq Member] in
theorem Grows.elect (sound : Sound termOf Quorum s) (vacant : s.elected (s.term i) = none) :
    Grows termOf s { s with
      elected := Function.update s.elected (s.term i) (some i)
      leaderLog := Function.update s.leaderLog (s.term i) (s.log i) } := by
  refine { (Grows.refl : Grows termOf s s) with
    elected := fun t c said => ?_
    leaderLog := fun t => ?_
    tail := fun t led => ?_ }
  · refine (Function.update_of_ne ?_ _ _).trans said
    rintro rfl
    exact Option.some_ne_none c (said.symm.trans vacant)
  · by_cases same : t = s.term i
    · rw [same, sound.vacant _ vacant]
      exact List.nil_prefix
    · exact (Function.update_of_ne same (s.log i) s.leaderLog) ▸ List.prefix_rfl
  · refine ⟨[], ?_, fun _ none => absurd none List.not_mem_nil⟩
    rw [List.append_nil]
    refine Function.update_of_ne ?_ _ _
    rintro rfl
    exact led vacant

theorem Grows.append (sound : Sound termOf Quorum s) {entry : Entry}
    (leads : s.elected (s.term i) = some i) (own : termOf entry = s.term i) :
    Grows termOf s { s with
      log := Function.update s.log i (s.log i ++ [entry])
      leaderLog := Function.update s.leaderLog (s.term i) (s.log i ++ [entry]) } := by
  have leaderEq : Function.update s.leaderLog (s.term i) (s.log i ++ [entry]) (s.term i) =
      s.leaderLog (s.term i) ++ [entry] := by
    rw [Function.update_self, sound.leads i leads]
  have otherEq : ∀ t, t ≠ s.term i →
      Function.update s.leaderLog (s.term i) (s.log i ++ [entry]) t = s.leaderLog t :=
    fun t other => Function.update_of_ne other _ _
  refine { (Grows.refl : Grows termOf s s) with
    leaderLog := fun t => ?_
    tail := fun t _ => ?_ }
  · by_cases sameTerm : t = s.term i
    · rw [sameTerm]
      exact ⟨[entry], leaderEq.symm⟩
    · exact ⟨[], by rw [List.append_nil]; exact (otherEq t sameTerm).symm⟩
  · by_cases sameTerm : t = s.term i
    · refine ⟨[entry], by rw [sameTerm]; exact leaderEq, fun other member => ?_⟩
      rw [List.mem_singleton.mp member, own, sameTerm]
    · exact ⟨[], by rw [List.append_nil]; exact otherEq t sameTerm,
        fun _ none => absurd none List.not_mem_nil⟩

/-- No step takes anything back. -/
theorem Step.grows (step : Step termOf Quorum i s s') (sound : Sound termOf Quorum s) :
    Grows termOf s s' := by
  have same : Grows termOf s s := Grows.refl
  cases step with
  | advance t later => exact { same with term := fun v => le_update_term later.le }
  | stand => exact Grows.stand sound
  | vote c log free standing recent =>
      refine { same with ballot := fun v t c' said => ?_ }
      refine (State.cast_of_ne c fun same sameTerm => ?_).trans said
      rw [same, sameTerm, free] at said
      exact absurd said (Option.some_ne_none c').symm
  | elect voters quorum votes standing vacant => exact Grows.elect sound vacant
  | append entry leads own => exact Grows.append sound leads own
  | accept log led other keeps matched bounded => exact { same with }
  | ack m long has =>
      refine { same with acked := fun v t k said => Or.inl said, settled := ?_ }
      rintro v t k (said | ⟨rfl, rfl, -⟩) early
      · exact said
      · exact absurd early (lt_irrefl _)

end Invariant

section Recency

variable {termOf : Entry → Nat} {Quorum : Set Member → Prop} {s : State Member Entry}
  {log log' : List Entry}

theorem exists_mem_of_lastTerm_pos (positive : 0 < lastTerm termOf log) :
    ∃ entry ∈ log, termOf entry = lastTerm termOf log := by
  cases last : log.getLast? with
  | none => simp [lastTerm, last] at positive
  | some entry => exact ⟨entry, List.mem_of_getLast? last, by simp [lastTerm, last]⟩

/-- A whole log begins the log of the leader of its last term. -/
theorem Matched.prefix_lastTerm (matched : Matched termOf s log) :
    log <+: s.leaderLog (lastTerm termOf log) := by
  rcases List.eq_nil_or_concat log with rfl | ⟨front, entry, rfl⟩
  · exact List.nil_prefix
  · have found := matched front.length entry (by simp)
    rw [List.take_of_length_le (by simp)] at found
    simpa [lastTerm] using found

theorem Matched.le_lastTerm (matched : Matched termOf s log) (sound : Sound termOf Quorum s)
    {entry : Entry} (member : entry ∈ log) : termOf entry ≤ lastTerm termOf log :=
  (sound.leaderLogs _).2 entry (matched.prefix_lastTerm.subset member)

/-- The log of whoever is voted for has what the log of the voter has got of a leader up
to one of its own entries, unless a later leader has not got it. -/
theorem Sound.prefix_or_overtaken_of_recent (sound : Sound termOf Quorum s)
    (recent : Recent termOf log log') (matched : Matched termOf s log)
    (matched' : Matched termOf s log') {t t₀ m : Nat}
    (early : ∀ entry ∈ log, termOf entry < t) (own : OwnAt termOf s t₀ m)
    (has : (s.leaderLog t₀).take m <+: log') :
    (s.leaderLog t₀).take m <+: log ∨ Overtaken s t₀ m (t - 1) := by
  obtain ⟨k, entry, rfl, found, ownTerm⟩ := own
  have inTake : entry ∈ (s.leaderLog t₀).take (k + 1) := by
    rw [List.take_add_one, found]
    simp
  have before : t₀ ≤ lastTerm termOf log' := by
    rw [← ownTerm]
    exact matched'.le_lastTerm sound (has.subset inTake)
  rcases recent with later | ⟨same, shorter⟩
  · -- the log ends in a term after that of the voter's log, whose leader has it or has not
    obtain ⟨last, member, lastEq⟩ := exists_mem_of_lastTerm_pos (by omega :
      0 < lastTerm termOf log)
    have beforeStand := early last member
    by_cases hasIt : (s.leaderLog t₀).take (k + 1) <+: s.leaderLog (lastTerm termOf log)
    · rcases List.prefix_or_prefix_of_prefix hasIt matched.prefix_lastTerm with short | long
      · exact Or.inl short
      · have old := (sound.leaderLogs t₀).2 last (List.mem_of_mem_take (long.subset member))
        omega
    · refine Or.inr ⟨lastTerm termOf log, by omega, by omega, fun vacant => ?_, hasIt⟩
      have inLeader := matched.prefix_lastTerm.subset member
      rw [sound.vacant _ vacant] at inLeader
      exact List.not_mem_nil inLeader
  · have inLeader := matched'.prefix_lastTerm
    rw [same] at inLeader
    exact Or.inl (has.trans (List.prefix_of_prefix_length_le inLeader matched.prefix_lastTerm
      shorter))

theorem Matched.of_beginning (matched : Matched termOf s log) (begins : log' <+: log) :
    Matched termOf s log' := by
  intro k entry found
  have inside := (List.getElem?_eq_some_iff.mp found).1
  obtain ⟨tail, rfl⟩ := begins
  have whole := matched k entry (by rw [List.getElem?_append_left inside, found])
  rwa [List.take_append_of_le_length inside] at whole

/-- Two logs with entries of one term at a place are the same up to there. -/
theorem Matched.take_eq_take (matched : Matched termOf s log) (matched' : Matched termOf s log')
    {k : Nat} {entry entry' : Entry} (found : log[k]? = some entry)
    (found' : log'[k]? = some entry') (same : termOf entry = termOf entry') :
    log.take (k + 1) = log'.take (k + 1) := by
  have begins := matched k entry found
  have begins' := matched' k entry' found'
  rw [same] at begins
  have inside := (List.getElem?_eq_some_iff.mp found).1
  have inside' := (List.getElem?_eq_some_iff.mp found').1
  refine (List.prefix_of_prefix_length_le begins begins' ?_).eq_of_length ?_
  · rw [List.length_take, List.length_take]
    omega
  · rw [List.length_take, List.length_take]
    omega

end Recency

section Invariant

variable [DecidableEq Member] {termOf : Entry → Nat} {Quorum : Set Member → Prop}
  {s s' : State Member Entry} {i : Member}

omit [DecidableEq Member] in
theorem sound_start : Sound termOf Quorum (State.start : State Member Entry) where
  ballots _ _ c said := absurd said (Option.some_ne_none c).symm
  standing _ _ log said := absurd said (Option.some_ne_none log).symm
  leaders _ c said := absurd said (Option.some_ne_none c).symm
  vacant _ _ := rfl
  leads _ _ := rfl
  logs _ := ⟨fun k entry found => by simp [State.start] at found,
    fun entry member => absurd member List.not_mem_nil⟩
  leaderLogs _ := ⟨fun k entry found => by simp [State.start] at found,
    fun entry member => absurd member List.not_mem_nil⟩
  acks _ _ _ said := said.elim
  fewer _ _ _ _ said _ := said

/-- Whoever goes on to a later term does not lead in it. -/
theorem Sound.leads_of_later (sound : Sound termOf Quorum s) {t : Nat} (later : s.term i < t)
    {c : Member} (said : s.elected (Function.update s.term i t c) = some c) :
    s.log c = s.leaderLog (Function.update s.term i t c) := by
  by_cases same : c = i
  · subst same
    rw [Function.update_self] at said
    exact absurd (sound.leaders t c said).1 (by omega)
  · rw [Function.update_of_ne same] at said ⊢
    exact sound.leads c said

theorem Sound.advance (sound : Sound termOf Quorum s) {t : Nat} (later : s.term i < t)
    (grows : Grows termOf s { s with term := Function.update s.term i t }) :
    Sound termOf Quorum { s with term := Function.update s.term i t } where
  ballots _ _ _ said := sound.ballots_mono grows said
  standing _ _ _ said := sound.standing_mono grows said
  leaders _ _ said := sound.leaders_mono grows said
  vacant := sound.vacant
  leads _ said := sound.leads_of_later later said
  logs v := sound.logs_mono grows v
  leaderLogs t := sound.leaderLogs_mono grows t
  acks _ _ _ said := sound.acks_mono grows said
  fewer := sound.fewer

theorem Sound.stand (sound : Sound termOf Quorum s) (grows : Grows termOf s s')
    (eq : s' = { s with
      term := Function.update s.term i (s.term i + 1)
      ballot := s.cast i (s.term i + 1) i
      stood := Function.update s.stood (s.term i + 1)
        (Function.update (s.stood (s.term i + 1)) i (some (s.log i))) }) :
    Sound termOf Quorum s' := by
  subst eq
  refine {
    ballots := fun v t c said => ?_
    standing := fun t c log said => ?_
    leaders := fun t c said => sound.leaders_mono grows said
    vacant := sound.vacant
    leads := fun c said => sound.leads_of_later (Nat.lt_succ_self _) said
    logs := fun v => sound.logs_mono grows v
    leaderLogs := fun t => sound.leaderLogs_mono grows t
    acks := fun v t m said => sound.acks_mono grows said
    fewer := sound.fewer }
  · by_cases new : v = i ∧ t = s.term i + 1
    · obtain ⟨rfl, rfl⟩ := new
      obtain rfl := Option.some.inj ((State.cast_self v _ v).symm.trans said)
      refine ⟨(Function.update_self v _ s.term).ge, s.log v, ?_, ?_⟩
      · exact (congrFun (Function.update_self _ _ s.stood) v).trans (Function.update_self _ _ _)
      · exact fun _ t₀ m acked before own => (sound.acks v t₀ m acked).2.2
    · have old := (State.cast_of_ne i (fun same => fun sameTerm => new ⟨same, sameTerm⟩)).symm.trans
        said
      exact sound.ballots_mono grows old
  · by_cases new : t = s.term i + 1 ∧ c = i
    · obtain ⟨rfl, rfl⟩ := new
      have logEq : some (s.log c) = some log :=
        ((congrFun (Function.update_self _ _ s.stood) c).trans
          (Function.update_self _ _ _)).symm.trans said
      obtain rfl := Option.some.inj logEq
      obtain ⟨matched, early⟩ := sound.logs c
      exact ⟨(Function.update_self c _ s.term).ge, matched.mono grows,
        fun entry member => Nat.lt_succ_of_le (early entry member)⟩
    · have old : s.stood t c = some log := by
        rw [← said]
        by_cases sameTerm : t = s.term i + 1
        · subst sameTerm
          refine ((congrFun (Function.update_self _ _ s.stood) c).trans ?_).symm
          exact Function.update_of_ne (fun same => new ⟨rfl, same⟩) _ _
        · exact (congrFun (Function.update_of_ne sameTerm _ s.stood) c).symm
      exact sound.standing_mono grows old

theorem Sound.vote (sound : Sound termOf Quorum s) {c : Member} {log : List Entry}
    (standing : s.stood (s.term i) c = some log) (recent : Recent termOf log (s.log i))
    (grows : Grows termOf s { s with ballot := s.cast i (s.term i) c }) :
    Sound termOf Quorum { s with ballot := s.cast i (s.term i) c } := by
  refine {
    ballots := fun v t c' said => ?_
    standing := fun t c log said => sound.standing_mono grows said
    leaders := fun t c said => sound.leaders_mono grows said
    vacant := sound.vacant
    leads := sound.leads
    logs := fun v => sound.logs_mono grows v
    leaderLogs := fun t => sound.leaderLogs_mono grows t
    acks := fun v t m said => sound.acks_mono grows said
    fewer := sound.fewer }
  by_cases new : v = i ∧ t = s.term i
  · obtain ⟨rfl, rfl⟩ := new
    obtain rfl := Option.some.inj ((State.cast_self v _ c).symm.trans said)
    obtain ⟨-, matched, early⟩ := sound.standing _ _ _ standing
    refine ⟨le_rfl, log, standing, fun vacant t₀ m acked before own => ?_⟩
    rcases (sound.acks v t₀ m acked).2.2 with has | ⟨t', after, le, led, lacks⟩
    · exact sound.prefix_or_overtaken_of_recent recent matched (sound.logs v).1 early own has
    · -- the term of the vote has no leader yet
      have other : t' ≠ s.term v := by
        rintro rfl
        exact led vacant
      exact Or.inr ⟨t', after, by omega, led, lacks⟩
  · have old := (State.cast_of_ne c (fun same => fun sameTerm => new ⟨same, sameTerm⟩)).symm.trans
      said
    exact sound.ballots_mono grows old

omit [DecidableEq Member] in
theorem Sound.elect (sound : Sound termOf Quorum s) {voters : Set Member}
    (quorum : Quorum voters) (votes : ∀ v ∈ voters, s.ballot v (s.term i) = some i)
    (standing : s.stood (s.term i) i = some (s.log i)) (vacant : s.elected (s.term i) = none)
    (grows : Grows termOf s s')
    (eq : s' = { s with
      elected := Function.update s.elected (s.term i) (some i)
      leaderLog := Function.update s.leaderLog (s.term i) (s.log i) }) :
    Sound termOf Quorum s' := by
  subst eq
  have electedEq : Function.update s.elected (s.term i) (some i) (s.term i) = some i :=
    Function.update_self ..
  have leaderEq : Function.update s.leaderLog (s.term i) (s.log i) (s.term i) = s.log i :=
    Function.update_self ..
  refine {
    ballots := fun v t c said => sound.ballots_mono grows said
    standing := fun t c log said => sound.standing_mono grows said
    leaders := fun t c said => ?_
    vacant := fun t said => ?_
    leads := fun c said => ?_
    logs := fun v => sound.logs_mono grows v
    leaderLogs := fun t => ?_
    acks := fun v t m said => sound.acks_mono grows said
    fewer := sound.fewer }
  · by_cases new : t = s.term i
    · subst new
      obtain rfl := Option.some.inj (electedEq.symm.trans said)
      refine ⟨le_rfl, s.log i, voters, standing, ?_, quorum, fun v member => ?_⟩
      · exact ⟨[], (List.append_nil _).trans leaderEq.symm⟩
      · obtain ⟨past, log, standing', preserved⟩ := sound.ballots v _ i (votes v member)
        obtain rfl := Option.some.inj (standing.symm.trans standing')
        exact ⟨votes v member, (preserved vacant).mono sound grows past⟩
    · exact sound.leaders_mono grows ((Function.update_of_ne new _ _).symm.trans said)
  · have old : t ≠ s.term i := by
      rintro rfl
      exact Option.some_ne_none i (electedEq.symm.trans said)
    exact (Function.update_of_ne old _ _).trans
      (sound.vacant t ((Function.update_of_ne old _ _).symm.trans said))
  · by_cases new : s.term c = s.term i
    · have said' : Function.update s.elected (s.term i) (some i) (s.term c) = some c := said
      rw [new, electedEq] at said'
      obtain rfl := Option.some.inj said'
      exact leaderEq.symm
    · exact (sound.leads c ((Function.update_of_ne new _ _).symm.trans said)).trans
        (Function.update_of_ne new _ _).symm
  · by_cases new : t = s.term i
    · subst new
      simpa only [leaderEq] using sound.logs_mono grows i
    · simpa only [Function.update_of_ne new] using sound.leaderLogs_mono grows t

omit [DecidableEq Member] in
/-- A log with one more entry of the term it begins the leader's log of. -/
theorem Matched.concat {log : List Entry} {entry : Entry} (matched : Matched termOf s log)
    (begins : log ++ [entry] <+: s.leaderLog (termOf entry)) :
    Matched termOf s (log ++ [entry]) := by
  intro k other found
  by_cases inside : k < log.length
  · rw [List.getElem?_append_left inside] at found
    rw [List.take_append_of_le_length inside]
    exact matched k other found
  · have last : k = log.length := by
      have bound := (List.getElem?_eq_some_iff.mp found).1
      rw [List.length_append, List.length_singleton] at bound
      omega
    subst last
    rw [List.getElem?_concat_length] at found
    obtain rfl := Option.some.inj found
    rwa [List.take_of_length_le (by simp)]

theorem Sound.append (sound : Sound termOf Quorum s) {entry : Entry}
    (leads : s.elected (s.term i) = some i) (own : termOf entry = s.term i)
    (grows : Grows termOf s s')
    (eq : s' = { s with
      log := Function.update s.log i (s.log i ++ [entry])
      leaderLog := Function.update s.leaderLog (s.term i) (s.log i ++ [entry]) }) :
    Sound termOf Quorum s' := by
  subst eq
  have logEq : Function.update s.log i (s.log i ++ [entry]) i = s.log i ++ [entry] :=
    Function.update_self ..
  have leaderEq : Function.update s.leaderLog (s.term i) (s.log i ++ [entry]) (s.term i) =
      s.log i ++ [entry] := Function.update_self ..
  have ownLog : Matched termOf { s with
      log := Function.update s.log i (s.log i ++ [entry])
      leaderLog := Function.update s.leaderLog (s.term i) (s.log i ++ [entry]) }
        (s.log i ++ [entry]) ∧ ∀ other ∈ s.log i ++ [entry], termOf other ≤ s.term i := by
    obtain ⟨matched, early⟩ := sound.logs_mono grows i
    refine ⟨matched.concat ⟨[], ?_⟩, fun other member => ?_⟩
    · rw [List.append_nil]
      exact leaderEq.symm.trans (congrArg _ own.symm)
    rcases List.mem_append.mp member with old | new
    · exact early other old
    · rw [List.mem_singleton.mp new, own]
  refine {
    ballots := fun v t c said => sound.ballots_mono grows said
    standing := fun t c log said => sound.standing_mono grows said
    leaders := fun t c said => sound.leaders_mono grows said
    vacant := fun t said => ?_
    leads := fun c said => ?_
    logs := fun v => ?_
    leaderLogs := fun t => ?_
    acks := fun v t m said => ?_
    fewer := sound.fewer }
  · refine (Function.update_of_ne ?_ _ _).trans (sound.vacant t said)
    rintro rfl
    exact Option.some_ne_none i (leads.symm.trans said)
  · by_cases same : c = i
    · subst same
      exact logEq.trans leaderEq.symm
    · have other : s.term c ≠ s.term i := by
        intro sameTerm
        have said' : s.elected (s.term c) = some c := said
        rw [sameTerm, leads] at said'
        exact same (Option.some.inj said').symm
      exact (Function.update_of_ne same _ _).trans
        ((sound.leads c said).trans (Function.update_of_ne other _ _).symm)
  · by_cases same : v = i
    · subst same
      simpa only [logEq] using ownLog
    · simpa only [Function.update_of_ne same] using sound.logs_mono grows v
  · by_cases same : t = s.term i
    · subst same
      simpa only [leaderEq] using ownLog
    · simpa only [Function.update_of_ne same] using sound.leaderLogs_mono grows t
  · obtain ⟨past, long, has⟩ := sound.acks_mono grows said
    refine ⟨past, long, has.imp_left fun has => has.trans ?_⟩
    by_cases same : v = i
    · subst same
      exact ⟨[entry], logEq.symm⟩
    · exact ⟨[], (List.append_nil _).trans (Function.update_of_ne same _ _).symm⟩

theorem Sound.accept (sound : Sound termOf Quorum s) {log : List Entry}
    (led : s.elected (s.term i) ≠ none) (other : s.elected (s.term i) ≠ some i)
    (keeps : ∀ m, (s.leaderLog (s.term i)).take m <+: s.log i →
      (s.leaderLog (s.term i)).take m <+: log)
    (matched : Matched termOf s log) (bounded : ∀ entry ∈ log, termOf entry ≤ s.term i)
    (grows : Grows termOf s { s with log := Function.update s.log i log }) :
    Sound termOf Quorum { s with log := Function.update s.log i log } := by
  have logEq : Function.update s.log i log i = log := Function.update_self ..
  refine {
    ballots := fun v t c said => sound.ballots_mono grows said
    standing := fun t c log said => sound.standing_mono grows said
    leaders := fun t c said => sound.leaders_mono grows said
    vacant := sound.vacant
    leads := fun c said => ?_
    logs := fun v => ?_
    leaderLogs := fun t => sound.leaderLogs_mono grows t
    acks := fun v t m said => ?_
    fewer := sound.fewer }
  · have same : c ≠ i := by
      rintro rfl
      exact other said
    exact (Function.update_of_ne same _ _).trans (sound.leads c said)
  · by_cases same : v = i
    · subst same
      simpa only [logEq] using And.intro (matched.mono grows) bounded
    · simpa only [Function.update_of_ne same] using sound.logs_mono grows v
  · by_cases same : v = i
    · subst same
      obtain ⟨past, long, has⟩ := sound.acks v t m said
      refine ⟨past, long, ?_⟩
      rcases has with has | overtaken
      · by_cases inLeader : (s.leaderLog t).take m <+: s.leaderLog (s.term v)
        · -- the leader has it as well, and what the leader has is kept
          have isTake := List.prefix_iff_eq_take.mp inLeader
          have kept := keeps _ (isTake ▸ has)
          rw [← isTake] at kept
          exact Or.inl (by simpa only [logEq] using kept)
        · refine Or.inr ⟨s.term v, lt_of_le_of_ne past ?_, le_rfl, led, inLeader⟩
          rintro rfl
          exact inLeader (List.take_prefix _ _)
      · exact Or.inr (overtaken.mono sound grows long le_rfl)
    · simpa only [Function.update_of_ne same] using sound.acks_mono grows said

omit [DecidableEq Member] in
theorem Sound.ack (sound : Sound termOf Quorum s) {m : Nat}
    (long : m ≤ (s.leaderLog (s.term i)).length)
    (has : (s.leaderLog (s.term i)).take m <+: s.log i)
    (grows : Grows termOf s
      { s with acked := fun v t k => s.acked v t k ∨ v = i ∧ t = s.term i ∧ k ≤ m }) :
    Sound termOf Quorum
      { s with acked := fun v t k => s.acked v t k ∨ v = i ∧ t = s.term i ∧ k ≤ m } where
  ballots _ _ _ said := sound.ballots_mono grows said
  standing _ _ _ said := sound.standing_mono grows said
  leaders _ _ said := sound.leaders_mono grows said
  vacant := sound.vacant
  leads := sound.leads
  logs v := sound.logs_mono grows v
  leaderLogs t := sound.leaderLogs_mono grows t
  acks := by
    rintro v t k (said | ⟨rfl, rfl, le⟩)
    · exact sound.acks_mono grows said
    · exact ⟨le_rfl, le.trans long, Or.inl ((List.take_prefix_take_left le).trans has)⟩
  fewer v t m k said le := said.imp (fun old => sound.fewer v t m k old le)
    fun ⟨same, sameTerm, most⟩ => ⟨same, sameTerm, le.trans most⟩

theorem Step.sound (step : Step termOf Quorum i s s') (sound : Sound termOf Quorum s) :
    Sound termOf Quorum s' := by
  have grows := step.grows sound
  cases step with
  | advance t later => exact sound.advance later grows
  | stand => exact sound.stand grows rfl
  | vote c log free standing recent => exact sound.vote standing recent grows
  | elect voters quorum votes standing vacant =>
      exact sound.elect quorum votes standing vacant grows rfl
  | append entry leads own => exact sound.append leads own grows rfl
  | accept log led other keeps matched bounded =>
      exact sound.accept led other keeps matched bounded grows
  | ack m long has => exact sound.ack long has grows

theorem Moves.sound_grows (moves : Moves termOf Quorum i s s') (sound : Sound termOf Quorum s) :
    Sound termOf Quorum s' ∧ Grows termOf s s' := by
  induction moves with
  | refl => exact ⟨sound, Grows.refl⟩
  | tail _ step ih => exact ⟨step.sound ih.1, ih.2.trans (step.grows ih.1)⟩

/-- The moves of a member do not touch what another one has. -/
theorem Moves.other (moves : Moves termOf Quorum i s s') {v : Member} (other : v ≠ i) :
    s'.term v = s.term v ∧ s'.log v = s.log v ∧ s'.ballot v = s.ballot v ∧
      ∀ t, s'.elected t = some v → s.elected t = some v := by
  induction moves with
  | refl => exact ⟨rfl, rfl, rfl, fun _ said => said⟩
  | @tail s₁ s₂ _ step ih =>
      obtain ⟨term, log, ballot, elected⟩ := ih
      cases step with
      | elect voters quorum votes standing vacant =>
          refine ⟨term, log, ballot, fun t said => elected t ?_⟩
          by_cases same : t = s₁.term i
          · subst same
            exact absurd (Option.some.inj ((Function.update_self _ _ s₁.elected).symm.trans said))
              other.symm
          · exact (Function.update_of_ne same _ s₁.elected).symm.trans said
      | advance | stand | vote | append | accept | ack =>
          simpa [State.cast, Function.update_of_ne other, term, log, ballot] using elected

end Invariant

section Commitment

variable (termOf : Entry → Nat) (Quorum : Set Member → Prop) (s : State Member Entry)

/-- A quorum has acknowledged the first `m` entries of the leader of a term, the last one
of which is of the term itself. -/
def Committed (t m : Nat) : Prop :=
  OwnAt termOf s t m ∧ ∃ members, Quorum members ∧ ∀ v ∈ members, s.acked v t m

/-- The entries of the list are committed in a term up to the bound. -/
def Settled (bound : Nat) (log : List Entry) : Prop :=
  log = [] ∨ ∃ t m, t ≤ bound ∧ Committed termOf Quorum s t m ∧ log <+: (s.leaderLog t).take m

variable {termOf Quorum s} {s' : State Member Entry}

theorem Committed.mono {t m : Nat} (committed : Committed termOf Quorum s t m)
    (nonempty : ∀ members, Quorum members → members.Nonempty)
    (sound : Sound termOf Quorum s) (grows : Grows termOf s s') :
    Committed termOf Quorum s' t m ∧ (s'.leaderLog t).take m = (s.leaderLog t).take m := by
  obtain ⟨own, members, quorum, acked⟩ := committed
  obtain ⟨v, member⟩ := nonempty members quorum
  obtain ⟨-, long, -⟩ := sound.acks v t m (acked v member)
  exact ⟨⟨(grows.ownAt_iff long).mpr own, members, quorum,
    fun v member => grows.acked v t m (acked v member)⟩, grows.take_leaderLog long⟩

theorem Settled.mono {bound bound' : Nat} {log : List Entry}
    (settled : Settled termOf Quorum s bound log)
    (nonempty : ∀ members, Quorum members → members.Nonempty)
    (sound : Sound termOf Quorum s) (grows : Grows termOf s s') (le : bound ≤ bound') :
    Settled termOf Quorum s' bound' log := by
  rcases settled with rfl | ⟨t, m, early, committed, begins⟩
  · exact Or.inl rfl
  · obtain ⟨committed', eq⟩ := committed.mono nonempty sound grows
    exact Or.inr ⟨t, m, early.trans le, committed', eq ▸ begins⟩

theorem Settled.of_beginning {bound : Nat} {log log' : List Entry}
    (settled : Settled termOf Quorum s bound log) (begins : log' <+: log) :
    Settled termOf Quorum s bound log' := by
  rcases settled with rfl | ⟨t, m, early, committed, begins'⟩
  · exact Or.inl (List.prefix_nil.mp begins)
  · exact Or.inr ⟨t, m, early, committed, begins.trans begins'⟩

variable (sound : Sound termOf Quorum s)
  (meets : ∀ first second, Quorum first → Quorum second → (first ∩ second).Nonempty)
include sound meets

/-- Two members with a quorum of votes in one term are the same. -/
theorem Sound.elected_of_votes {t : Nat} {c : Member} {voters : Set Member}
    (quorum : Quorum voters) (votes : ∀ v ∈ voters, s.ballot v t = some c) {c' : Member}
    (leader : s.elected t = some c') : c' = c := by
  obtain ⟨-, log, voters', -, -, quorum', votes'⟩ := sound.leaders t c' leader
  obtain ⟨v, member, member'⟩ := meets voters voters' quorum quorum'
  exact Option.some.inj ((votes' v member').1.symm.trans (votes v member))

/-- The leader of every later term has what is committed. -/
theorem Sound.prefix_of_committed {t m : Nat} (committed : Committed termOf Quorum s t m)
    {t' : Nat} (later : t < t') (led : s.elected t' ≠ none) :
    (s.leaderLog t).take m <+: s.leaderLog t' := by
  induction t' using Nat.strong_induction_on with
  | h t' ih =>
      obtain ⟨c, leader⟩ := Option.ne_none_iff_exists'.mp led
      obtain ⟨own, members, quorum, acked⟩ := committed
      obtain ⟨-, log, voters, -, begins, quorum', votes⟩ := sound.leaders t' c leader
      -- someone has acknowledged the entries and has voted for the later leader
      obtain ⟨v, member, voter⟩ := meets members voters quorum quorum'
      rcases (votes v voter).2 t m (acked v member) later own with has | overtaken
      · exact has.trans begins
      · obtain ⟨between, after, before, led', lacks⟩ := overtaken
        exact absurd (ih between (by omega) after led') lacks

theorem Settled.prefix_leaderLog {bound t : Nat} {log : List Entry}
    (settled : Settled termOf Quorum s bound log) (le : bound ≤ t) (led : s.elected t ≠ none) :
    log <+: s.leaderLog t := by
  rcases settled with rfl | ⟨t₀, m, early, committed, begins⟩
  · exact List.nil_prefix
  · rcases (early.trans le).lt_or_eq with later | rfl
    · exact begins.trans (sound.prefix_of_committed meets committed later led)
    · exact begins.trans (List.take_prefix m _)

/-- Of two lists of committed entries one begins the other. -/
theorem Settled.prefix_or_prefix {bound bound' : Nat} {log log' : List Entry}
    (settled : Settled termOf Quorum s bound log) (settled' : Settled termOf Quorum s bound' log') :
    log <+: log' ∨ log' <+: log := by
  have led : ∀ t m, Committed termOf Quorum s t m → s.elected t ≠ none := by
    rintro t m ⟨⟨k, entry, -, found, -⟩, -⟩ vacant
    rw [sound.vacant t vacant] at found
    simp at found
  rcases settled with rfl | ⟨t, m, early, committed, begins⟩
  · exact Or.inl List.nil_prefix
  · rcases settled' with rfl | ⟨t', m', early', committed', begins'⟩
    · exact Or.inr List.nil_prefix
    · rcases le_total t t' with le | le
      · exact List.prefix_or_prefix_of_prefix
          (Settled.prefix_leaderLog sound meets (Or.inr ⟨t, m, le_rfl, committed, begins⟩) le
            (led t' m' committed'))
          (begins'.trans (List.take_prefix _ _))
      · exact List.prefix_or_prefix_of_prefix (begins.trans (List.take_prefix _ _))
          (Settled.prefix_leaderLog sound meets (Or.inr ⟨t', m', le_rfl, committed', begins'⟩) le
            (led t m committed))

end Commitment

end ReplicatedLogs

end LuaServer
