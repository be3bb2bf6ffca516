import LuaServer.GroupServers

/-!
# Agreement on the master

Every server is notified of every membership change at its own time, and every
broadcast is delivered once, in the order of its sender.  A server that hears of
a new server clears its master, and the broadcast that it may have received
before is not sent again.  As long as no broadcast is lost in this way and none
comes late, the servers agree in the end on the smallest name, if that is the
name of a server of their group.
-/

namespace LuaServer

namespace Groups

/-- A membership change, as `cluster_diff` gets it. -/
structure Diff where
  upd : List ByteString
  del : List ByteString
  deriving DecidableEq

/-- A server and the changes it has not been notified of. -/
structure Member where
  server : Server
  pending : List Diff

/-- The live servers and the broadcasts on their way, in the order of sending. -/
structure Cluster where
  members : KeySorted (Prod.fst : ByteString × Member → ByteString)
  network : List Message

inductive ClusterEvent where
  | join (myid : Nat) (known : List (List ByteString))
  | leave (name : ByteString)
  | notify (name : ByteString)
  | deliver (index : Nat)

namespace Cluster

def empty : Cluster :=
  ⟨KeySorted.empty _, []⟩

/-- Tell all live servers about a change. -/
def announce (members : KeySorted (Prod.fst : ByteString × Member → ByteString)) (diff : Diff) :
    KeySorted (Prod.fst : ByteString × Member → ByteString) :=
  members.mapValues fun _ member => { member with pending := member.pending ++ [diff] }

/-- One event.  A server that joins hears of itself and the live servers, all at
once or one after the other. -/
def step (cluster : Cluster) : ClusterEvent → Option Cluster
  | .join myid known =>
      let name := dbName myid
      if (cluster.members.find name).isNone ∧ (∀ upd ∈ known, upd ≠ []) ∧
          (∀ other ∈ known.flatten, other = name ∨ (cluster.members.find other).isSome) ∧
          name ∈ known.flatten ∧ ∀ entry ∈ cluster.members.elements, entry.1 ∈ known.flatten then
        some { cluster with
          members := (announce cluster.members ⟨[name], []⟩).put
            (name, ⟨Server.create myid, known.map (⟨·, []⟩)⟩) }
      else none
  | .leave name =>
      if (cluster.members.find name).isSome then
        some { cluster with members := announce (cluster.members.drop name) ⟨[], [name]⟩ }
      else none
  | .notify name =>
      match cluster.members.find name with
      | some (_, ⟨server, diff :: pending⟩) =>
          let (server, messages) := server.clusterDiff diff.upd diff.del
          some ⟨cluster.members.put (name, ⟨server, pending⟩), cluster.network ++ messages⟩
      | _ => none
  | .deliver index =>
      match cluster.network[index]? with
      | none => none
      | some message =>
          if ∃ earlier ∈ cluster.network.take index,
              earlier.sender = message.sender ∧ earlier.receiver = message.receiver then
            none
          else
            let network := cluster.network.eraseIdx index
            match cluster.members.find message.receiver with
            | none => some { cluster with network }
            | some (_, member) =>
                let server := member.server.receive message.group message.mname
                some ⟨cluster.members.put (message.receiver, { member with server }), network⟩

def run (events : List ClusterEvent) : Option Cluster :=
  events.foldlM step empty

end Cluster

/-- `groups[mygroupid]`. -/
def Server.mygroup (server : Server) : NameSet :=
  namesOf server.groups server.mygroupid

/-- A server that has yet to be notified of a new server. -/
def Member.Expects (member : Member) : Prop :=
  ∃ diff ∈ member.pending, diff.upd ≠ []

/-- The broadcast in which a server of group 0 names itself. -/
def broadcast (sender receiver : ByteString) : Message :=
  ⟨sender, receiver, 0, some sender⟩

/-- A server is notified of a new server of its group only while the broadcasts of
all masters of the group are still to come, and a broadcast names the smallest
server that its receiver knows in the group. -/
def Cluster.InOrder (cluster : Cluster) : ClusterEvent → Prop
  | .join _ _ => True
  | .leave _ => True
  | .notify name =>
      ∀ entry ∈ cluster.members.elements, entry.1 = name → ∀ diff ∈ entry.2.pending.head?,
        entry.2.server.mygroupid = 0 → dbNames diff.upd ≠ [] →
          ∀ other ∈ cluster.members.elements, other.1 ≠ name → other.2.server.mygroupid = 0 →
            other.2.server.master = some other.1 →
              broadcast other.1 name ∈ cluster.network ∨ ∃ diff ∈ other.2.pending, diff.upd ≠ []
  | .deliver index =>
      ∀ message ∈ cluster.network[index]?, ∀ entry ∈ cluster.members.elements,
        entry.1 = message.receiver → entry.2.server.mygroupid = message.group →
          message.mname = entry.2.server.mygroup.elements.head?

-- The conditions of `InOrder` are decided one after the other.
local instance (priority := 2000) instDecidableImp {p q : Prop} [Decidable p] [Decidable q] :
    Decidable (p → q) :=
  decidable_of_iff (¬ p ∨ q) Decidable.imp_iff_not_or.symm

set_option synthInstance.maxSize 512 in
instance (cluster : Cluster) (event : ClusterEvent) : Decidable (cluster.InOrder event) := by
  cases event <;> dsimp only [Cluster.InOrder] <;> infer_instance

/-- All events happen in order. -/
def Cluster.Ordered (cluster : Cluster) : List ClusterEvent → Prop
  | [] => True
  | event :: events =>
      cluster.InOrder event ∧
        match cluster.step event with
        | none => True
        | some after => after.Ordered events

section Views

/-- The names a server will know after its pending changes. -/
def Expected (known : ByteString → Prop) : List Diff → ByteString → Prop
  | [] => known
  | diff :: pending =>
      Expected (fun name => (known name ∨ name ∈ diff.upd) ∧ name ∉ diff.del) pending

variable {known other : ByteString → Prop} {pending : List Diff} {name : ByteString}

theorem expected_congr (same : ∀ name, known name ↔ other name) :
    Expected known pending name ↔ Expected other pending name := by
  rw [show known = other from funext fun name => propext (same name)]

theorem expected_concat (diff : Diff) : Expected known (pending ++ [diff]) name ↔
    (Expected known pending name ∨ name ∈ diff.upd) ∧ name ∉ diff.del := by
  induction pending generalizing known with
  | nil => rfl
  | cons first pending ih => exact ih

/-- A name that is expected and not known is announced. -/
theorem exists_upd_of_expected (expected : Expected known pending name) (unknown : ¬ known name) :
    ∃ diff ∈ pending, diff.upd ≠ [] := by
  induction pending generalizing known with
  | nil => exact absurd expected unknown
  | cons diff pending ih =>
      by_cases announced : name ∈ diff.upd
      · exact ⟨diff, List.mem_cons_self, List.ne_nil_of_mem announced⟩
      · obtain ⟨later, member, some_⟩ :=
          ih expected fun now => announced (now.1.resolve_left unknown)
        exact ⟨later, List.mem_cons_of_mem diff member, some_⟩

theorem expected_joins (parts : List (List ByteString)) :
    Expected known (parts.map (⟨·, []⟩)) name ↔ known name ∨ name ∈ parts.flatten := by
  induction parts generalizing known with
  | nil => simp [Expected]
  | cons part parts ih =>
      rw [List.map_cons, Expected, ih, List.flatten_cons, List.mem_append]
      simp only [List.not_mem_nil, not_false_eq_true, and_true, or_assoc]

end Views

/-- What every step preserves of a member. -/
structure Member.Kept (name : ByteString) (member : Member) (live : ByteString → Prop) : Prop where
  named : member.server.serverName = name ∧
    ∃ id, name = dbName id ∧ member.server.mygroupid = id / 10
  database : ∀ diff ∈ member.pending, dbNames diff.upd = diff.upd ∧ dbNames diff.del = diff.del
  view : ∀ other, Expected (· ∈ namesOf member.server.groups 0) member.pending other ↔ live other
  present : (member.server.groups.find 0).isSome ∨
    ∃ upd pending, member.pending = ⟨upd, []⟩ :: pending ∧ upd ≠ []
  alone : member.server.mygroupid ≠ 0 → member.server.mygroup.elements = [name]
  least : ∀ other, member.server.master = some other →
    member.server.mygroup.elements.head? = some other
  elected : member.server.mygroup.elements.head? = some name →
    member.server.master = some name ∨ member.Expects
  native : member.server.mygroupid = 0 → ∀ other, member.server.master = some other →
    ∃ id, other = dbName id ∧ id / 10 = 0

namespace Member.Kept

variable {name : ByteString} {member : Member} {live : ByteString → Prop}

theorem announce (kept : member.Kept name live) {diff : Diff}
    (database : dbNames diff.upd = diff.upd ∧ dbNames diff.del = diff.del) :
    Member.Kept name { member with pending := member.pending ++ [diff] }
      fun other => (live other ∨ other ∈ diff.upd) ∧ other ∉ diff.del where
  named := kept.named
  database := by
    intro other isPending
    rcases List.mem_append.mp isPending with old | new
    · exact kept.database other old
    · rw [List.mem_singleton.mp new]
      exact database
  view := fun other => by rw [expected_concat, kept.view]
  present := by
    rcases kept.present with present | ⟨upd, pending, isPending, some_⟩
    · exact Or.inl present
    · exact Or.inr ⟨upd, pending ++ [diff], by simp [isPending], some_⟩
  alone := kept.alone
  least := kept.least
  elected := fun least => (kept.elected least).imp_right fun ⟨other, isPending, some_⟩ =>
    ⟨other, List.mem_append_left _ isPending, some_⟩
  native := kept.native

theorem create (myid : Nat) {known : List (List ByteString)}
    (nonempty : ∀ upd ∈ known, upd ≠ []) (self : dbName myid ∈ known.flatten)
    (database : ∀ other ∈ known.flatten, [100, 98] = other.take 2) :
    Member.Kept (dbName myid) ⟨Server.create myid, known.map (⟨·, []⟩)⟩
      fun other => other ∈ known.flatten := by
  have group : (Server.create myid).mygroup = (KeySorted.empty _).put (dbName myid) := by
    rw [Server.mygroup, Server.create, namesOf_put, if_pos rfl]
  constructor
  · exact ⟨rfl, myid, rfl, rfl⟩
  · intro diff isPending
    obtain ⟨upd, isKnown, rfl⟩ := List.mem_map.mp isPending
    refine ⟨List.filter_eq_self.mpr fun other member => ?_, rfl⟩
    exact decide_eq_true (database other (List.mem_flatten_of_mem isKnown member))
  · intro other
    rw [expected_joins, or_iff_right_of_imp]
    intro isKnown
    change other ∈ namesOf ((KeySorted.empty _).put
      (myid / 10, (KeySorted.empty _).put (dbName myid))) 0 at isKnown
    rw [namesOf_put] at isKnown
    split at isKnown
    · rcases KeySorted.mem_put.mp isKnown with rfl | ⟨old, -⟩
      · exact self
      · exact absurd old KeySorted.not_mem_empty
    · exact absurd isKnown KeySorted.not_mem_empty
  · cases known with
    | nil => simp at self
    | cons upd known => exact Or.inr ⟨upd, _, rfl, nonempty upd List.mem_cons_self⟩
  · intro _
    rw [group]
    rfl
  · intro other unset
    simp [Server.create] at unset
  · intro _
    cases known with
    | nil => simp at self
    | cons upd known => exact Or.inr ⟨_, List.mem_cons_self, nonempty upd List.mem_cons_self⟩
  · intro _ other unset
    simp [Server.create] at unset

theorem least_afterDiff (kept : member.Kept name live) {diff : Diff} {other : ByteString}
    (isMaster : (member.server.afterDiff diff.upd diff.del).master = some other) :
    (member.server.afterDiff diff.upd diff.del).mygroup.elements.head? = some other ∧
      member.server.master = some other := by
  obtain ⟨server, pending⟩ := member
  simp only [Server.afterDiff, Server.mygroup] at isMaster ⊢
  split at isMaster
  · simp at isMaster
  next unchanged =>
    split at isMaster
    · simp at isMaster
    next undeleted =>
      refine ⟨?_, isMaster⟩
      have before := kept.least other isMaster
      simp only [Server.mygroup] at before
      by_cases own : server.mygroupid = 0
      · have noneAdded : dbNames diff.upd = [] := by
          by_contra added
          exact unchanged ⟨own, added⟩
        rw [own] at before ⊢
        obtain ⟨isKnown, smallest⟩ := head?_eq_some_iff.mp before
        rw [noneAdded, head?_eq_some_iff]
        constructor
        · exact ((Server.namesOf_dropNames _ _ 0).2 _).mpr ⟨isKnown, fun deleted =>
            undeleted ⟨other, deleted, isMaster.symm⟩⟩
        · intro another isLeft
          exact smallest another (((Server.namesOf_dropNames _ _ 0).2 another).mp isLeft).1
      · rw [(Server.namesOf_dropNames _ _ _).1 own, (Server.namesOf_addNames _ _ _).1 own]
        exact before

/-- A server whose next change is `diff` calls `select_master` behind it. -/
theorem clusterDiff (kept : member.Kept name live) {diff : Diff} {pending : List Diff}
    (isPending : member.pending = diff :: pending) :
    ∃ notified, member.server.clusterDiff diff.upd diff.del =
        ((member.server.afterDiff diff.upd diff.del).selectMaster.1,
          notified ++ (member.server.afterDiff diff.upd diff.del).selectMaster.2) ∧
      (member.server.mygroupid = 0 → notified = []) ∧
      ∀ message ∈ notified, message.group = member.server.mygroupid := by
  apply Server.clusterDiff_eq
  refine kept.present.imp_right ?_
  rintro ⟨upd, rest, isFirst, some_⟩
  obtain ⟨rfl, -⟩ := List.cons.inj (isPending.symm.trans isFirst)
  have database := (kept.database _ (by rw [isFirst]; exact List.mem_cons_self)).1
  rw [database]
  exact some_

theorem known_afterDiff (kept : member.Kept name live) {diff : Diff} {pending : List Diff}
    (isPending : member.pending = diff :: pending) (other : ByteString) :
    other ∈ namesOf (member.server.afterDiff diff.upd diff.del).groups 0 ↔
      (other ∈ namesOf member.server.groups 0 ∨ other ∈ diff.upd) ∧ other ∉ diff.del := by
  have database := kept.database diff (by rw [isPending]; exact List.mem_cons_self)
  change other ∈ namesOf (Server.dropNames (Server.addNames _ _) _) 0 ↔ _
  rw [(Server.namesOf_dropNames _ _ 0).2, (Server.namesOf_addNames _ _ 0).2, database.1, database.2]

/-- A live server that is not known yet is still to be announced. -/
theorem expects_unknown (kept : member.Kept name live) {diff : Diff} {pending : List Diff}
    (isPending : member.pending = diff :: pending) {other : ByteString} (isLive : live other)
    (unknown : other ∉ namesOf (member.server.afterDiff diff.upd diff.del).groups 0) :
    ∃ diff ∈ pending, diff.upd ≠ [] := by
  rw [← kept.view, isPending, Expected] at isLive
  exact exists_upd_of_expected isLive fun isKnown =>
    unknown ((kept.known_afterDiff isPending other).mpr isKnown)

theorem expects_later {diff : Diff} {pending : List Diff}
    (isPending : member.pending = diff :: pending) (noneAdded : diff.upd = [])
    (expects : member.Expects) : ∃ diff ∈ pending, diff.upd ≠ [] := by
  obtain ⟨other, isPendingOther, some_⟩ := expects
  rw [isPending] at isPendingOther
  rcases List.mem_cons.mp isPendingOther with rfl | rest
  · exact absurd noneAdded some_
  · exact ⟨other, rest, some_⟩

/-- A master of group 0 that keeps its place has heard of no new server. -/
theorem stays_afterDiff (kept : member.Kept name live) {diff : Diff} {pending : List Diff}
    (isPending : member.pending = diff :: pending) {master : ByteString}
    (isMaster : (member.server.afterDiff diff.upd diff.del).master = some master)
    (own : member.server.mygroupid = 0) :
    diff.upd = [] ∧ member.server.master = some master := by
  have database := kept.database diff (by rw [isPending]; exact List.mem_cons_self)
  refine ⟨?_, (kept.least_afterDiff isMaster).2⟩
  by_contra added
  simp only [Server.afterDiff] at isMaster
  rw [database.1, if_pos ⟨own, added⟩] at isMaster
  cases isMaster

/-- A master that is not deleted keeps its place when no server is new. -/
theorem keeps_afterDiff (kept : member.Kept name live) {diff : Diff} {pending : List Diff}
    (isPending : member.pending = diff :: pending) (noneAdded : diff.upd = [])
    {master : ByteString} (isMaster : member.server.master = some master)
    (undeleted : master ∉ diff.del) :
    (member.server.afterDiff diff.upd diff.del).master = some master := by
  have database := kept.database diff (by rw [isPending]; exact List.mem_cons_self)
  simp only [Server.afterDiff]
  rw [database.1, database.2, if_neg (by simp [noneAdded]), if_neg, isMaster]
  rintro ⟨deleted, isDeleted, same⟩
  rw [isMaster] at same
  exact undeleted (Option.some.inj same ▸ isDeleted)

theorem notify (kept : member.Kept name live) {diff : Diff} {pending : List Diff}
    (isPending : member.pending = diff :: pending) :
    Member.Kept name ⟨(member.server.clusterDiff diff.upd diff.del).1, pending⟩ live := by
  obtain ⟨notified, isDiff, -⟩ := kept.clusterDiff isPending
  obtain ⟨isNamed, id, isId, isGroup⟩ := kept.named
  have database := kept.database diff (by rw [isPending]; exact List.mem_cons_self)
  have least := fun other isMaster =>
    @least_afterDiff _ _ _ kept diff other isMaster
  rw [isDiff, Server.selectMaster_fst]
  have leastAfter : ∀ other,
      (if (member.server.afterDiff diff.upd diff.del).master = none ∧
          (member.server.afterDiff diff.upd diff.del).mygroup.elements.head? =
            some member.server.serverName then some member.server.serverName
        else (member.server.afterDiff diff.upd diff.del).master) = some other →
      (member.server.afterDiff diff.upd diff.del).mygroup.elements.head? = some other := by
    intro other isMaster
    split at isMaster
    next elected => rw [← isMaster, elected.2]
    next => exact (least other isMaster).1
  constructor
  · exact ⟨isNamed, id, isId, isGroup⟩
  · intro other member
    exact kept.database other (by rw [isPending]; exact List.mem_cons_of_mem diff member)
  · intro other
    rw [← kept.view, isPending, Expected]
    exact expected_congr fun another => kept.known_afterDiff isPending another
  · refine Or.inl (Server.find_zero_dropNames (Server.find_zero_addNames ?_))
    refine kept.present.imp_right ?_
    rintro ⟨upd, rest, isFirst, some_⟩
    obtain ⟨rfl, -⟩ := List.cons.inj (isPending.symm.trans isFirst)
    rw [database.1]
    exact some_
  · intro other
    change member.server.mygroupid ≠ 0 at other
    change (namesOf (Server.dropNames (Server.addNames _ _) _) member.server.mygroupid).elements = _
    rw [(Server.namesOf_dropNames _ _ _).1 other, (Server.namesOf_addNames _ _ _).1 other]
    exact kept.alone other
  · exact leastAfter
  · intro smallest
    left
    change (if _ then _ else (member.server.afterDiff diff.upd diff.del).master) = some name
    change (member.server.afterDiff diff.upd diff.del).mygroup.elements.head? =
      some name at smallest
    cases isMaster : (member.server.afterDiff diff.upd diff.del).master with
    | none =>
        rw [← isNamed] at smallest
        rw [if_pos ⟨rfl, smallest⟩]
        exact congrArg some isNamed
    | some other =>
        have same := (least other isMaster).1
        rw [if_neg (by simp), ← same, smallest]
  · intro own other isMaster
    change (if _ then some member.server.serverName else _) = some other at isMaster
    split at isMaster
    next =>
      refine ⟨id, ?_, isGroup.symm.trans own⟩
      rw [← isId, ← isNamed]
      exact (Option.some.inj isMaster).symm
    next => exact kept.native own other (least other isMaster).2

theorem receive (kept : member.Kept name live) {group : Nat} {mname : Option ByteString}
    (smallest : member.server.mygroupid = group → mname = member.server.mygroup.elements.head?)
    (native : group = 0 → ∃ id, mname = some (dbName id) ∧ id / 10 = 0) :
    Member.Kept name { member with server := member.server.receive group mname } live := by
  refine ⟨kept.named, kept.database, kept.view, kept.present, kept.alone, ?_, ?_, ?_⟩
  · intro other isMaster
    simp only [Server.receive] at isMaster
    split at isMaster
    next same =>
      rw [smallest same.symm] at isMaster
      exact isMaster
    next => exact kept.least other isMaster
  · intro least
    simp only [Server.receive]
    split
    next same =>
      left
      rw [smallest same.symm]
      exact least
    next => exact kept.elected least
  · intro own other isMaster
    simp only [Server.receive] at own isMaster
    split at isMaster
    next same =>
      obtain ⟨id, isName, isGroup⟩ := native (same.trans own)
      exact ⟨id, Option.some.inj (isMaster.symm.trans isName), isGroup⟩
    next => exact kept.native own other isMaster

end Member.Kept

/-- A master of group 0 is known to another server, or will be. -/
def Told (network : List Message) (master other : ByteString) (first second : Member) : Prop :=
  first.server.mygroupid = 0 → second.server.mygroupid = 0 →
    first.server.master = some master → broadcast master other ∈ network ∨
      second.server.master = some master ∨ first.Expects ∨ second.Expects

/-- What every step preserves. -/
structure Cluster.Kept (cluster : Cluster) : Prop where
  members : ∀ name member, (name, member) ∈ cluster.members →
    member.Kept name fun other => ∃ member, (other, member) ∈ cluster.members
  native : ∀ message ∈ cluster.network, message.group = 0 →
    ∃ id, message.mname = some (dbName id) ∧ id / 10 = 0
  told : ∀ master first other second, (master, first) ∈ cluster.members →
    (other, second) ∈ cluster.members → master ≠ other →
      Told cluster.network master other first second

namespace Cluster.Kept

variable {cluster : Cluster} {name : ByteString} {member changed : Member}

theorem live_put (isMember : (name, member) ∈ cluster.members) (other : ByteString) :
    (∃ member, (other, member) ∈ cluster.members.put (name, changed)) ↔
      ∃ member, (other, member) ∈ cluster.members := by
  constructor
  · rintro ⟨found, isFound⟩
    rcases KeySorted.mem_put.mp isFound with same | ⟨old, -⟩
    · obtain ⟨rfl, -⟩ := Prod.mk.inj same
      exact ⟨member, isMember⟩
    · exact ⟨found, old⟩
  · rintro ⟨found, isFound⟩
    by_cases same : other = name
    · exact ⟨changed, KeySorted.mem_put.mpr (Or.inl (by rw [same]))⟩
    · exact ⟨found, KeySorted.mem_put.mpr (Or.inr ⟨isFound, same⟩)⟩

theorem put (kept : cluster.Kept) (isMember : (name, member) ∈ cluster.members)
    {network : List Message}
    (keptChanged : changed.Kept name fun other => ∃ member, (other, member) ∈ cluster.members)
    (native : ∀ message ∈ network, message.group = 0 →
      ∃ id, message.mname = some (dbName id) ∧ id / 10 = 0)
    (tells : ∀ other second, (other, second) ∈ cluster.members → other ≠ name →
      Told network name other changed second)
    (isTold : ∀ master first, (master, first) ∈ cluster.members → master ≠ name →
      Told network master name first changed)
    (others : ∀ master first other second, (master, first) ∈ cluster.members →
      (other, second) ∈ cluster.members → master ≠ name → other ≠ name → master ≠ other →
      Told network master other first second) :
    Cluster.Kept ⟨cluster.members.put (name, changed), network⟩ where
  members := by
    intro other found isFound
    have live : (fun another => ∃ member, (another, member) ∈ cluster.members.put (name, changed)) =
        fun another => ∃ member, (another, member) ∈ cluster.members :=
      funext fun another => propext (live_put isMember another)
    rw [live]
    rcases KeySorted.mem_put.mp isFound with same | ⟨old, -⟩
    · obtain ⟨rfl, rfl⟩ := Prod.mk.inj same
      exact keptChanged
    · exact kept.members other found old
  native := native
  told := by
    intro master first other second isFirst isSecond differ
    rcases KeySorted.mem_put.mp isFirst with same | ⟨oldFirst, otherMaster⟩
    · obtain ⟨rfl, rfl⟩ := Prod.mk.inj same
      rcases KeySorted.mem_put.mp isSecond with sameSecond | ⟨oldSecond, otherSecond⟩
      · exact absurd (Prod.mk.inj sameSecond).1 differ.symm
      · exact tells other second oldSecond otherSecond
    · rcases KeySorted.mem_put.mp isSecond with same | ⟨oldSecond, otherSecond⟩
      · obtain ⟨rfl, rfl⟩ := Prod.mk.inj same
        exact isTold master first oldFirst otherMaster
      · exact others master first other second oldFirst oldSecond otherMaster otherSecond differ

theorem unique (isMember : (name, member) ∈ cluster.members)
    (isChanged : (name, changed) ∈ cluster.members) : member = changed :=
  (Prod.mk.inj (KeySorted.eq_of_key_eq isMember isChanged rfl)).2

/-- A server that elects itself broadcasts its name to all servers it knows. -/
theorem broadcast_selected {server : Server} {other : ByteString}
    (elected : server.master = none ∧
      (namesOf server.groups server.mygroupid).elements.head? = some server.serverName)
    (own : server.mygroupid = 0) (isKnown : other ∈ namesOf server.groups 0)
    (differs : other ≠ server.serverName) :
    broadcast server.serverName other ∈ server.selectMaster.2 := by
  rw [Server.mem_selectMaster]
  refine ⟨elected, 0, namesOf server.groups 0, ?_, other, isKnown, differs, ?_⟩
  · rw [namesOf] at isKnown ⊢
    cases found : server.groups.find 0 with
    | none =>
        rw [found] at isKnown
        exact absurd isKnown KeySorted.not_mem_empty
    | some entry =>
        obtain ⟨isEntry, zero⟩ := KeySorted.find_eq_some.mp found
        obtain ⟨group, names⟩ := entry
        obtain rfl : group = 0 := zero
        exact isEntry
  · rw [broadcast, own]

section Notifying

variable {diff : Diff} {pending : List Diff} {other : ByteString} {second : Member}

/-- A notified server that is a master has told the others, or will. -/
theorem notify_tells (kept : cluster.Kept) (isMember : (name, member) ∈ cluster.members)
    (isPending : member.pending = diff :: pending) (isSecond : (other, second) ∈ cluster.members)
    (differs : other ≠ name) :
    Told (cluster.network ++ (member.server.clusterDiff diff.upd diff.del).2) name other
      ⟨(member.server.clusterDiff diff.upd diff.del).1, pending⟩ second := by
  have keptMember := kept.members name member isMember
  have isNamed := keptMember.named.1
  obtain ⟨notified, isDiff, -⟩ := keptMember.clusterDiff isPending
  rw [isDiff]
  intro own otherOwn isMaster
  simp only [Server.selectMaster_fst] at own isMaster
  split at isMaster
  next elected =>
    by_cases isKnown : other ∈ namesOf (member.server.afterDiff diff.upd diff.del).groups 0
    · left
      refine List.mem_append_right _ (List.mem_append_right _ ?_)
      rw [← isNamed] at differs ⊢
      exact broadcast_selected elected own isKnown differs
    · exact Or.inr
        (Or.inr (Or.inl (keptMember.expects_unknown isPending ⟨second, isSecond⟩ isKnown)))
  next =>
    obtain ⟨noneAdded, before⟩ := keptMember.stays_afterDiff isPending isMaster own
    rcases kept.told name member other second isMember isSecond (Ne.symm differs) own otherOwn
      before with isSent | hasMaster | expected | expected
    · exact Or.inl (List.mem_append_left _ isSent)
    · exact Or.inr (Or.inl hasMaster)
    · exact Or.inr (Or.inr (Or.inl (Member.Kept.expects_later isPending noneAdded expected)))
    · exact Or.inr (Or.inr (Or.inr expected))

/-- A notified server has heard of the other masters, or will. -/
theorem notify_told (kept : cluster.Kept) (inOrder : cluster.InOrder (.notify name))
    (isMember : (name, member) ∈ cluster.members) (isPending : member.pending = diff :: pending)
    (isSecond : (other, second) ∈ cluster.members) (differs : other ≠ name) :
    Told (cluster.network ++ (member.server.clusterDiff diff.upd diff.del).2) other name second
      ⟨(member.server.clusterDiff diff.upd diff.del).1, pending⟩ := by
  have keptMember := kept.members name member isMember
  have database := keptMember.database diff (by rw [isPending]; exact List.mem_cons_self)
  obtain ⟨notified, isDiff, -⟩ := keptMember.clusterDiff isPending
  rw [isDiff]
  intro own otherOwn isMaster
  simp only [Server.selectMaster_fst] at otherOwn
  by_cases noneAdded : diff.upd = []
  · rcases kept.told other second name member isSecond isMember differs own otherOwn
      isMaster with isSent | hasMaster | expected | expected
    · exact Or.inl (List.mem_append_left _ isSent)
    · by_cases isKnown : other ∈ namesOf (member.server.afterDiff diff.upd diff.del).groups 0
      · have undeleted := ((keptMember.known_afterDiff isPending other).mp isKnown).2
        have stays := keptMember.keeps_afterDiff isPending noneAdded hasMaster undeleted
        refine Or.inr (Or.inl ?_)
        rw [Server.selectMaster_fst]
        simp only [stays, reduceCtorEq, false_and, if_false]
      · exact Or.inr (Or.inr (Or.inr (keptMember.expects_unknown isPending ⟨second, isSecond⟩
          isKnown)))
    · exact Or.inr (Or.inr (Or.inl expected))
    · exact Or.inr (Or.inr (Or.inr (Member.Kept.expects_later isPending noneAdded expected)))
  · have coming := inOrder (name, member) isMember rfl diff (by rw [isPending]; rfl) otherOwn
      (by rw [database.1]; exact noneAdded) (other, second) isSecond differs own isMaster
    rcases coming with isSent | expected
    · exact Or.inl (List.mem_append_left _ isSent)
    · exact Or.inr (Or.inr (Or.inl expected))

/-- The broadcasts of a notified server name servers of group 0 there. -/
theorem notify_native (kept : cluster.Kept) (isMember : (name, member) ∈ cluster.members)
    (isPending : member.pending = diff :: pending) {message : Message}
    (isSent : message ∈ (member.server.clusterDiff diff.upd diff.del).2)
    (isZero : message.group = 0) : ∃ id, message.mname = some (dbName id) ∧ id / 10 = 0 := by
  have keptMember := kept.members name member isMember
  obtain ⟨isNamed, id, isId, isGroup⟩ := keptMember.named
  obtain ⟨notified, isDiff, quiet, ofGroup⟩ := keptMember.clusterDiff isPending
  rw [isDiff] at isSent
  rcases List.mem_append.mp isSent with early | selected
  · rw [ofGroup message early] at isZero
    rw [quiet isZero] at early
    exact absurd early List.not_mem_nil
  · obtain ⟨-, _, _, -, _, -, -, same⟩ := Server.mem_selectMaster.mp selected
    rw [same] at isZero ⊢
    exact ⟨id, congrArg some (isNamed.trans isId), isGroup.symm.trans isZero⟩

theorem notify (kept : cluster.Kept) (inOrder : cluster.InOrder (.notify name))
    (isMember : (name, member) ∈ cluster.members)
    (isPending : member.pending = diff :: pending) :
    Cluster.Kept ⟨cluster.members.put (name,
        ⟨(member.server.clusterDiff diff.upd diff.del).1, pending⟩),
      cluster.network ++ (member.server.clusterDiff diff.upd diff.del).2⟩ := by
  refine kept.put isMember ((kept.members name member isMember).notify isPending) ?_ ?_ ?_ ?_
  · intro message isSent isZero
    rcases List.mem_append.mp isSent with old | new
    · exact kept.native message old isZero
    · exact kept.notify_native isMember isPending new isZero
  · intro other second isSecond differs
    exact kept.notify_tells isMember isPending isSecond differs
  · intro master first isFirst differs
    exact kept.notify_told inOrder isMember isPending isFirst differs
  · intro master first other second isFirst isSecond _ _ differ own otherOwn isMaster
    rcases kept.told master first other second isFirst isSecond differ own otherOwn
      isMaster with isSent | rest
    · exact Or.inl (List.mem_append_left _ isSent)
    · exact Or.inr rest

end Notifying

/-- A broadcast that is not the one delivered is still on its way. -/
theorem mem_eraseIdx {network : List Message} {index : Nat} {message other : Message}
    (isMessage : network[index]? = some message) (isOther : other ∈ network)
    (differs : other ≠ message) : other ∈ network.eraseIdx index := by
  rw [List.mem_eraseIdx_iff_getElem]
  obtain ⟨position, inside, rfl⟩ := List.mem_iff_getElem.mp isOther
  refine ⟨position, inside, fun same => differs ?_, rfl⟩
  subst same
  exact (List.getElem?_eq_some_iff.mp isMessage).2

theorem deliver {index : Nat} {message : Message} (kept : cluster.Kept)
    (inOrder : cluster.InOrder (.deliver index))
    (isMessage : cluster.network[index]? = some message)
    (isMember : (message.receiver, member) ∈ cluster.members) :
    Cluster.Kept ⟨cluster.members.put (message.receiver,
        { member with server := member.server.receive message.group message.mname }),
      cluster.network.eraseIdx index⟩ := by
  have keptMember := kept.members message.receiver member isMember
  have smallest := inOrder message isMessage (message.receiver, member) isMember rfl
  have native := kept.native message (List.mem_of_getElem? isMessage)
  have remains : ∀ other, other ∈ cluster.network.eraseIdx index → other ∈ cluster.network :=
    fun other => List.mem_of_mem_eraseIdx
  refine kept.put isMember (keptMember.receive smallest native)
    (fun other isOther => kept.native other (remains other isOther)) ?_ ?_ ?_
  · intro other second isSecond differs own otherOwn isMaster
    have before : member.server.master = some message.receiver ∨ member.Expects := by
      simp only [Server.receive] at isMaster
      split at isMaster
      next same =>
        rw [smallest same.symm] at isMaster
        exact keptMember.elected isMaster
      next => exact Or.inl isMaster
    rcases before with before | expected
    · rcases kept.told _ member other second isMember isSecond differs.symm own otherOwn
        before with isSent | rest
      · refine Or.inl (mem_eraseIdx isMessage isSent fun same => differs ?_)
        rw [← same]
        rfl
      · exact Or.inr rest
    · exact Or.inr (Or.inr (Or.inl expected))
  · intro master first isFirst differs own otherOwn isMaster
    change member.server.mygroupid = 0 at otherOwn
    rcases kept.told master first message.receiver member isFirst isMember differs own otherOwn
      isMaster with isSent | hasMaster | rest
    · by_cases same : broadcast master message.receiver = message
      · right
        left
        change (if message.group = member.server.mygroupid then _ else _) = some master
        rw [← same]
        exact if_pos otherOwn.symm
      · exact Or.inl (mem_eraseIdx isMessage isSent same)
    · right
      left
      change (if message.group = member.server.mygroupid then _ else _) = some master
      split
      next same =>
        rw [smallest same.symm]
        exact keptMember.least master hasMaster
      next => exact hasMaster
    · exact Or.inr (Or.inr rest)
  · intro master first other second isFirst isSecond _ otherReceiver differ own otherOwn isMaster
    rcases kept.told master first other second isFirst isSecond differ own otherOwn
      isMaster with isSent | rest
    · refine Or.inl (mem_eraseIdx isMessage isSent fun same => otherReceiver ?_)
      rw [← same]
      rfl
    · exact Or.inr rest

theorem discard {index : Nat} {message : Message} (kept : cluster.Kept)
    (isMessage : cluster.network[index]? = some message)
    (gone : cluster.members.find message.receiver = none) :
    Cluster.Kept { cluster with network := cluster.network.eraseIdx index } where
  members := kept.members
  native := fun other isOther => kept.native other (List.mem_of_mem_eraseIdx isOther)
  told := by
    intro master first other second isFirst isSecond differ own otherOwn isMaster
    rcases kept.told master first other second isFirst isSecond differ own otherOwn
      isMaster with isSent | rest
    · refine Or.inl (mem_eraseIdx isMessage isSent fun same => ?_)
      have isReceiver : other = message.receiver := by rw [← same]; rfl
      exact KeySorted.find_eq_none.mp gone _ isSecond isReceiver
    · exact Or.inr rest

theorem mem_announce {members : KeySorted (Prod.fst : ByteString × Member → ByteString)}
    {diff : Diff} : (name, changed) ∈ announce members diff ↔
      ∃ member, (name, member) ∈ members ∧
        { member with pending := member.pending ++ [diff] } = changed :=
  KeySorted.mem_mapValues

/-- Two servers that are told about a change stay as they are otherwise. -/
theorem told_announce {network : List Message} {master other : ByteString} {first second : Member}
    (diff : Diff) (told : Told network master other first second) :
    Told network master other { first with pending := first.pending ++ [diff] }
      { second with pending := second.pending ++ [diff] } := by
  intro own otherOwn isMaster
  have later : ∀ member : Member, member.Expects →
      Member.Expects { member with pending := member.pending ++ [diff] } :=
    fun member ⟨change, isPending, some_⟩ => ⟨change, List.mem_append_left _ isPending, some_⟩
  exact (told own otherOwn isMaster).imp_right (Or.imp_right (Or.imp (later first) (later second)))

theorem leave (kept : cluster.Kept) (isMember : (name, member) ∈ cluster.members) :
    Cluster.Kept { cluster with members := announce (cluster.members.drop name) ⟨[], [name]⟩ } where
  members := by
    intro other found isFound
    obtain ⟨old, isOld, rfl⟩ := mem_announce.mp isFound
    obtain ⟨id, isName, -⟩ := (kept.members name member isMember).named.2
    have database : dbNames [] = [] ∧ dbNames [name] = [name] := by
      rw [isName]
      exact ⟨rfl, rfl⟩
    have live : (fun another => ∃ member, (another, member) ∈
        announce (cluster.members.drop name) ⟨[], [name]⟩) = fun another =>
          ((∃ member, (another, member) ∈ cluster.members) ∨ another ∈ []) ∧ another ∉ [name] := by
      funext another
      simp only [mem_announce, KeySorted.mem_drop, List.not_mem_nil, or_false, List.mem_singleton,
        eq_iff_iff]
      constructor
      · rintro ⟨-, found, ⟨isFound, differs⟩, -⟩
        exact ⟨⟨found, isFound⟩, differs⟩
      · rintro ⟨⟨found, isFound⟩, differs⟩
        exact ⟨_, found, ⟨isFound, differs⟩, rfl⟩
    rw [live]
    have keptOld := kept.members other old (KeySorted.mem_drop.mp isOld).1
    exact @Member.Kept.announce _ _ _ keptOld ⟨[], [name]⟩ database
  native := kept.native
  told := by
    intro master first other second isFirst isSecond differ
    obtain ⟨oldFirst, isOldFirst, rfl⟩ := mem_announce.mp isFirst
    obtain ⟨oldSecond, isOldSecond, rfl⟩ := mem_announce.mp isSecond
    exact told_announce _ (kept.told master oldFirst other oldSecond
      (KeySorted.mem_drop.mp isOldFirst).1 (KeySorted.mem_drop.mp isOldSecond).1 differ)

theorem isSome_find {members : KeySorted (Prod.fst : ByteString × Member → ByteString)} :
    (members.find name).isSome ↔ ∃ member, (name, member) ∈ members := by
  rw [Option.isSome_iff_exists]
  constructor
  · rintro ⟨⟨key, member⟩, isEntry⟩
    obtain ⟨isMember, rfl⟩ := KeySorted.find_eq_some.mp isEntry
    exact ⟨member, isMember⟩
  · rintro ⟨member, isMember⟩
    exact ⟨(name, member), KeySorted.find_eq_some.mpr ⟨isMember, rfl⟩⟩

/-- A server that joins is a member beside the others. -/
theorem joined {members : KeySorted (Prod.fst : ByteString × Member → ByteString)}
    (fresh : members.find name = none) {other : ByteString} :
    (∃ found, (other, found) ∈ (announce members ⟨[name], []⟩).put (name, member)) ↔
      (∃ found, (other, found) ∈ members) ∨ other = name := by
  simp only [KeySorted.mem_put, mem_announce, Prod.mk.injEq]
  constructor
  · rintro ⟨-, ⟨same, -⟩ | ⟨⟨found, isFound, -⟩, -⟩⟩
    · exact Or.inr same
    · exact Or.inl ⟨found, isFound⟩
  · rintro (⟨found, isFound⟩ | same)
    · exact ⟨_, Or.inr ⟨⟨found, isFound, rfl⟩, KeySorted.find_eq_none.mp fresh _ isFound⟩⟩
    · exact ⟨_, Or.inl ⟨same, rfl⟩⟩

theorem join {myid : Nat} {known : List (List ByteString)} (kept : cluster.Kept)
    (fresh : cluster.members.find (dbName myid) = none) (nonempty : ∀ upd ∈ known, upd ≠ [])
    (sound : ∀ other ∈ known.flatten, other = dbName myid ∨ (cluster.members.find other).isSome)
    (self : dbName myid ∈ known.flatten)
    (complete : ∀ entry ∈ cluster.members.elements, entry.1 ∈ known.flatten) :
    Cluster.Kept { cluster with
      members := (announce cluster.members ⟨[dbName myid], []⟩).put
        (dbName myid, ⟨Server.create myid, known.map (⟨·, []⟩)⟩) } := by
  have expects : Member.Expects ⟨Server.create myid, known.map (⟨·, []⟩)⟩ := by
    cases known with
    | nil => simp at self
    | cons upd known => exact ⟨_, List.mem_cons_self, nonempty upd List.mem_cons_self⟩
  have knows : ∀ other, other ∈ known.flatten ↔
      (∃ member, (other, member) ∈ cluster.members) ∨ other = dbName myid := by
    intro other
    constructor
    · exact fun isKnown => (sound other isKnown).symm.imp_left isSome_find.mp
    · rintro (⟨found, isMember⟩ | rfl)
      · exact complete _ isMember
      · exact self
  refine ⟨fun other found isFound => ?_, kept.native, fun master first other second isFirst isSecond
    differ => ?_⟩
  · rcases KeySorted.mem_put.mp isFound with same | ⟨old, -⟩
    · -- The new server has been told all the names.
      obtain ⟨rfl, rfl⟩ := Prod.mk.inj same
      have names : (fun another => another ∈ known.flatten) = fun another => ∃ member,
          (another, member) ∈ (announce cluster.members ⟨[dbName myid], []⟩).put
            (dbName myid, ⟨Server.create myid, known.map (⟨·, []⟩)⟩) := by
        funext another
        rw [eq_iff_iff, knows, joined fresh]
      rw [← names]
      refine Member.Kept.create myid nonempty self fun another isKnown => ?_
      rcases (knows another).mp isKnown with ⟨found, isMember⟩ | rfl
      · obtain ⟨id, isName, -⟩ := (kept.members another found isMember).named.2
        rw [isName]
        rfl
      · rfl
    · obtain ⟨member, isMember, rfl⟩ := mem_announce.mp old
      have database : dbNames [dbName myid] = [dbName myid] ∧ dbNames [] = [] := ⟨rfl, rfl⟩
      have keptMember := @Member.Kept.announce _ _ _ (kept.members other member isMember)
        ⟨[dbName myid], []⟩ database
      have names : (fun another => ((∃ member, (another, member) ∈ cluster.members) ∨
          another ∈ [dbName myid]) ∧ another ∉ []) = fun another => ∃ member,
          (another, member) ∈ (announce cluster.members ⟨[dbName myid], []⟩).put
            (dbName myid, ⟨Server.create myid, known.map (⟨·, []⟩)⟩) := by
        funext another
        rw [eq_iff_iff, joined fresh]
        simp
      rw [← names]
      exact keptMember
  · rcases KeySorted.mem_put.mp isFirst with same | ⟨isFirst, -⟩
    · obtain ⟨rfl, rfl⟩ := Prod.mk.inj same
      intro _ _ unset
      simp [Server.create] at unset
    · rcases KeySorted.mem_put.mp isSecond with same | ⟨isSecond, -⟩
      · obtain ⟨rfl, rfl⟩ := Prod.mk.inj same
        exact fun _ _ _ => Or.inr (Or.inr (Or.inr expects))
      · obtain ⟨oldFirst, isOldFirst, rfl⟩ := mem_announce.mp isFirst
        obtain ⟨oldSecond, isOldSecond, rfl⟩ := mem_announce.mp isSecond
        exact told_announce _ (kept.told master oldFirst other oldSecond isOldFirst isOldSecond
          differ)

theorem empty : Cluster.empty.Kept where
  members := fun _ _ isMember => absurd isMember KeySorted.not_mem_empty
  native := fun _ isSent => absurd isSent List.not_mem_nil
  told := fun _ _ _ _ isFirst => absurd isFirst KeySorted.not_mem_empty

theorem step {event : ClusterEvent} {after : Cluster} (kept : cluster.Kept)
    (inOrder : cluster.InOrder event) (stepped : cluster.step event = some after) : after.Kept := by
  cases event with
  | join myid known =>
      simp only [Cluster.step, Option.ite_none_right_eq_some, Option.isNone_iff_eq_none] at stepped
      obtain ⟨⟨fresh, nonempty, sound, self, complete⟩, same⟩ := stepped
      obtain rfl := Option.some.inj same
      exact kept.join fresh nonempty sound self complete
  | leave name =>
      simp only [Cluster.step, Option.ite_none_right_eq_some] at stepped
      obtain ⟨isSome, same⟩ := stepped
      obtain rfl := Option.some.inj same
      obtain ⟨member, isMember⟩ := isSome_find.mp isSome
      exact kept.leave isMember
  | notify name =>
      simp only [Cluster.step] at stepped
      split at stepped
      next key server diff pending found =>
        obtain rfl := Option.some.inj stepped
        obtain ⟨isMember, rfl⟩ := KeySorted.find_eq_some.mp found
        exact kept.notify inOrder isMember rfl
      next => simp at stepped
  | deliver index =>
      simp only [Cluster.step] at stepped
      split at stepped
      · simp at stepped
      next message isMessage =>
        split at stepped
        · simp at stepped
        next =>
          split at stepped
          next gone =>
            obtain rfl := Option.some.inj stepped
            exact kept.discard isMessage gone
          next key member found =>
            obtain rfl := Option.some.inj stepped
            obtain ⟨isMember, same⟩ := KeySorted.find_eq_some.mp found
            obtain rfl : key = message.receiver := same
            exact kept.deliver inOrder isMessage isMember

theorem run {events : List ClusterEvent} {after : Cluster} (kept : cluster.Kept)
    (ordered : cluster.Ordered events) (reached : events.foldlM Cluster.step cluster = some after) :
    after.Kept := by
  induction events generalizing cluster with
  | nil =>
      obtain rfl := Option.some.inj reached
      exact kept
  | cons event events ih =>
      rw [List.foldlM_cons, Option.bind_eq_bind, Option.bind_eq_some_iff] at reached
      obtain ⟨middle, stepped, reached⟩ := reached
      obtain ⟨inOrder, rest⟩ := ordered
      rw [stepped] at rest
      exact ih (kept.step inOrder stepped) rest reached

/-- In a settled cluster a server of group 0 knows the live servers. -/
theorem mem_mygroup (kept : cluster.Kept) (isMember : (name, member) ∈ cluster.members)
    (quiet : member.pending = []) (own : member.server.mygroupid = 0) (other : ByteString) :
    other ∈ member.server.mygroup ↔ ∃ member, (other, member) ∈ cluster.members := by
  have view := (kept.members name member isMember).view other
  rw [quiet] at view
  rw [Server.mygroup, own]
  exact view

end Cluster.Kept

/-- In the end of an orderly run a server has the smallest server that it knows in
its group as its master if and only if that is a live server of the group. -/
theorem masters_agree {events : List ClusterEvent} {cluster : Cluster}
    (ordered : Cluster.empty.Ordered events) (reached : Cluster.run events = some cluster)
    (delivered : cluster.network = [])
    (notified : ∀ entry ∈ cluster.members.elements, entry.2.pending = [])
    (name : ByteString) (member : Member) (isMember : (name, member) ∈ cluster.members) :
    member.server.master = member.server.mygroup.elements.head? ↔
      ∃ other second, (other, second) ∈ cluster.members ∧
        second.server.mygroupid = member.server.mygroupid ∧
        member.server.mygroup.elements.head? = some other := by
  have kept := Cluster.Kept.empty.run ordered reached
  have keptMember := kept.members name member isMember
  have quiet : ∀ other second, (other, second) ∈ cluster.members → ¬ second.Expects := by
    rintro other second isSecond ⟨diff, isPending, -⟩
    rw [notified _ isSecond] at isPending
    exact List.not_mem_nil isPending
  have elects : ∀ other second, (other, second) ∈ cluster.members →
      second.server.mygroup.elements.head? = some other → second.server.master = some other :=
    fun other second isSecond smallest =>
      ((kept.members other second isSecond).elected smallest).resolve_right
        (quiet other second isSecond)
  by_cases own : member.server.mygroupid = 0
  · constructor
    · intro agrees
      have knowsSelf := (kept.mem_mygroup isMember (notified _ isMember) own name).mpr
        ⟨member, isMember⟩
      obtain ⟨smallest, isSmallest⟩ : ∃ smallest,
          member.server.mygroup.elements.head? = some smallest := by
        cases isHead : member.server.mygroup.elements.head? with
        | none =>
            rw [List.head?_eq_none_iff] at isHead
            rw [← KeySorted.mem_elements, isHead] at knowsSelf
            exact absurd knowsSelf List.not_mem_nil
        | some smallest => exact ⟨smallest, rfl⟩
      obtain ⟨second, isSecond⟩ := (kept.mem_mygroup isMember (notified _ isMember) own
        smallest).mp (head?_eq_some_iff.mp isSmallest).1
      obtain ⟨id, isName, isGroup⟩ :=
        keptMember.native own smallest (agrees.trans isSmallest)
      obtain ⟨otherId, otherName, otherGroup⟩ := (kept.members smallest second isSecond).named.2
      obtain rfl := dbName_injective (isName.symm.trans otherName)
      exact ⟨smallest, second, isSecond, by rw [otherGroup, isGroup, own], isSmallest⟩
    · rintro ⟨other, second, isSecond, sameGroup, isSmallest⟩
      rw [isSmallest]
      have otherOwn := sameGroup.trans own
      have sameNames : second.server.mygroup = member.server.mygroup :=
        KeySorted.eq_of_mem_iff fun another => by
          rw [kept.mem_mygroup isSecond (notified _ isSecond) otherOwn,
            kept.mem_mygroup isMember (notified _ isMember) own]
      have isMaster := elects other second isSecond (by rw [sameNames, isSmallest])
      by_cases same : other = name
      · subst same
        exact elects other member isMember isSmallest
      · rcases kept.told other second name member isSecond isMember same otherOwn own
          isMaster with isSent | hasMaster | expected | expected
        · rw [delivered] at isSent
          exact absurd isSent List.not_mem_nil
        · exact hasMaster
        · exact absurd expected (quiet other second isSecond)
        · exact absurd expected (quiet name member isMember)
  · have alone : member.server.mygroup.elements.head? = some name := by
      rw [keptMember.alone own]
      rfl
    rw [alone]
    exact iff_of_true (elects name member isMember alone) ⟨name, member, isMember, rfl, rfl⟩

/-- Two servers join, and the second one is notified first. -/
theorem masters_agree_join :
    let events : List ClusterEvent := [.join 1 [[dbName 1]], .notify (dbName 1),
      .join 2 [[dbName 1, dbName 2]], .notify (dbName 2), .notify (dbName 1), .deliver 0]
    ∃ cluster, Cluster.run events = some cluster ∧
      ∀ name member, (name, member) ∈ cluster.members →
        (member.server.master = member.server.mygroup.elements.head? ↔
          ∃ other second, (other, second) ∈ cluster.members ∧
            second.server.mygroupid = member.server.mygroupid ∧
            member.server.mygroup.elements.head? = some other) := by
  intro events
  have ordered : Cluster.empty.Ordered events :=
    ⟨trivial, by decide, trivial, by decide, by decide, by decide, trivial⟩
  exact ⟨_, rfl, masters_agree ordered rfl rfl (by decide)⟩

/-- A broadcast overtakes the notification that its receiver has joined. -/
theorem not_agrees_overtaken :
    ∃ cluster, Cluster.run [.join 1 [[dbName 1]], .notify (dbName 1),
        .join 2 [[dbName 1, dbName 2]], .notify (dbName 1), .deliver 0, .notify (dbName 2)] =
          some cluster ∧
      cluster.network = [] ∧ (∀ entry ∈ cluster.members.elements, entry.2.pending = []) ∧
      (∀ entry ∈ cluster.members.elements, entry.2.server.mygroupid = 0 ∧
        entry.2.server.mygroup.elements = [dbName 1, dbName 2]) ∧
      ∃ entry ∈ cluster.members.elements, entry.2.server.master ≠ some (dbName 1) :=
  ⟨_, rfl, rfl, by decide, by decide, by decide⟩

end Groups

end LuaServer
