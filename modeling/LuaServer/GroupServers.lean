import LuaServer.ByteStrings
import LuaServer.KeySortedLists
import Mathlib.Logic.Function.Basic

/-!
# Servers of a database group

A database server keeps the names of the servers it knows, group by group, and
elects itself as the master of its own group when its name is the smallest one
there.  Then it tells all the others.  `parse_servername` cuts the number 3
instead of the name, so every database server is put into group 0.
-/

namespace LuaServer

namespace Groups

/-- A set of server names. -/
abbrev NameSet := KeySorted (id : ByteString → ByteString)

/-- The table `groups`. -/
abbrev GroupTable := KeySorted (Prod.fst : Nat × NameSet → Nat)

/-- A call of `group_master` on its way to another server. -/
structure Message where
  sender : ByteString
  receiver : ByteString
  group : Nat
  mname : Option ByteString
  deriving DecidableEq

/-- The variables of `mgr.lua`. -/
structure Server where
  serverName : ByteString
  mygroupid : Nat
  master : Option ByteString
  groupMaster : Nat → Option ByteString
  groups : GroupTable

/-- The name of the server with an id. -/
def dbName (id : Nat) : ByteString :=
  [100, 98] ++ (Nat.toDigits 10 id).map fun digit => Fin.ofNat 256 digit.toNat

/-- `groups[group]`, or the empty table. -/
def namesOf (groups : GroupTable) (group : Nat) : NameSet :=
  match groups.find group with
  | none => KeySorted.empty _
  | some (_, gservers) => gservers

/-- `parse_servername`. -/
def parseServername (name : ByteString) : Option (Nat × Nat) :=
  let c2 := name.take 2
  if [100, 98] ≠ c2 then none
  else
    -- `string.sub(3, -1)` is the last character of the number 3
    let id := 3
    some (id, id / 10)

namespace Server

/-- A server that has just started. -/
def create (myid : Nat) : Server :=
  { serverName := dbName myid
    mygroupid := myid / 10
    master := none
    groupMaster := fun _ => none
    groups := (KeySorted.empty _).put (myid / 10, (KeySorted.empty _).put (dbName myid)) }

/-- `mygroup_servers`. -/
def mygroupServers (server : Server) : Option (List ByteString) :=
  let arr := (namesOf server.groups server.mygroupid).elements
  if arr.head? ≠ some server.serverName then none else some arr

/-- `send_master`. -/
def sendMaster (server : Server) (name : ByteString) : List Message :=
  if name = server.serverName then []
  else [⟨server.serverName, name, server.mygroupid, server.master⟩]

/-- `notify_master`. -/
def notifyMaster (server : Server) (upd : List ByteString) : List Message :=
  match server.master with
  | none => []
  | some _ =>
      match server.mygroupServers with
      | none => []
      | some _ => upd.flatMap server.sendMaster

/-- `select_master`. -/
def selectMaster (server : Server) : Server × List Message :=
  match server.master with
  | some _ => (server, [])
  | none =>
      match server.mygroupServers with
      | none => (server, [])
      | some _ =>
          let server := { server with master := some server.serverName }
          (server, server.groups.elements.flatMap fun (_, gservers) =>
            gservers.elements.flatMap server.sendMaster)

/-- One round of the loop of `add_db_servers`, with the list `dservers`. -/
def addName (state : Server × List ByteString) (name : ByteString) : Server × List ByteString :=
  match parseServername name with
  | none => state
  | some (_, group) =>
      let (server, dservers) := state
      ({ server with
          master := if group = server.mygroupid then none else server.master
          groups := server.groups.put (group, (namesOf server.groups group).put name) },
        dservers ++ [name])

/-- `add_db_servers`. -/
def addDbServers (server : Server) (servers : List ByteString) : Server × List Message :=
  let (server, dservers) := servers.foldl addName (server, [])
  (server, server.notifyMaster dservers)

/-- `del_db_servers`, and whether it ends without an error. -/
def delDbServers (server : Server) : List ByteString → Server × Bool
  | [] => (server, true)
  | name :: servers =>
      match parseServername name with
      | none => delDbServers server servers
      | some (_, group) =>
          let server :=
            { server with master := if some name = server.master then none else server.master }
          match server.groups.find group with
          | none => (server, false)
          | some (_, gservers) =>
              delDbServers
                { server with groups := server.groups.put (group, gservers.drop name) } servers

/-- `cmds.cluster_diff`.  An error in `del_db_servers` ends the call. -/
def clusterDiff (server : Server) (upd del : List ByteString) : Server × List Message :=
  let (server, notified) := server.addDbServers upd
  let (server, ended) := server.delDbServers del
  if ended then
    let (server, selected) := server.selectMaster
    (server, notified ++ selected)
  else (server, notified)

/-- `cmds.group_master`. -/
def receive (server : Server) (group : Nat) (mname : Option ByteString) : Server :=
  { server with
    groupMaster := Function.update server.groupMaster group mname
    master := if group = server.mygroupid then mname else server.master }

/-- `cmds.master_bygroup`. -/
def masterBygroup (server : Server) (group : Nat) : Bool × Option ByteString :=
  if group = server.mygroupid ∧ server.master = some server.serverName then (true, none)
  else (false, server.groupMaster group)

end Server

section Names

/-- The names that `parse_servername` accepts. -/
def dbNames (names : List ByteString) : List ByteString :=
  names.filter fun name => [100, 98] = name.take 2

theorem parseServername_eq (name : ByteString) :
    parseServername name = if [100, 98] = name.take 2 then some (3, 0) else none := by
  simp only [parseServername, ne_eq, ite_not]

theorem dbNames_cons (name : ByteString) (names : List ByteString) :
    dbNames (name :: names) =
      if [100, 98] = name.take 2 then name :: dbNames names else dbNames names := by
  simp only [dbNames, List.filter_cons, decide_eq_true_eq]

theorem dbName_injective {first second : Nat} (same : dbName first = dbName second) :
    first = second := by
  have restored : ∀ id, ((dbName id).drop 2).map (fun byte => Char.ofNat byte.val) =
      Nat.toDigits 10 id := by
    intro id
    have small : ∀ digit ∈ Nat.toDigits 10 id,
        Char.ofNat (Fin.ofNat 256 digit.toNat).val = digit := by
      intro digit member
      have isDigit := Nat.isDigit_of_mem_toDigits (Nat.zero_lt_succ 9) le_rfl member
      simp only [Char.isDigit, Bool.and_eq_true, decide_eq_true_eq, UInt32.le_iff_toNat_le]
        at isDigit
      have bound : digit.toNat < 256 := lt_of_le_of_lt isDigit.2 (by decide)
      simp only [Fin.ofNat, Nat.mod_eq_of_lt bound, Char.ofNat_toNat]
    simp only [dbName, List.cons_append, List.nil_append, List.drop_succ_cons, List.drop_zero,
      List.map_map]
    exact (List.map_congr_left small).trans (List.map_id _)
  rw [← Nat.ofDigitChars_ten_toDigits (n := first), ← restored first, same, restored,
    Nat.ofDigitChars_ten_toDigits]

theorem find_put {Element Key : Type*} [LinearOrder Key] {key : Element → Key}
    (list : KeySorted key) (element : Element) (k : Key) :
    (list.put element).find k = if k = key element then some element else list.find k := by
  apply Option.ext
  intro found
  rw [KeySorted.find_eq_some, KeySorted.mem_put]
  split
  next same =>
    subst same
    rw [Option.some.injEq]
    constructor
    · rintro ⟨rfl | ⟨-, differs⟩, isKey⟩
      · rfl
      · exact absurd isKey differs
    · rintro rfl
      exact ⟨Or.inl rfl, rfl⟩
  next differs =>
    rw [KeySorted.find_eq_some]
    constructor
    · rintro ⟨rfl | ⟨member, -⟩, isKey⟩
      · exact absurd isKey.symm differs
      · exact ⟨member, isKey⟩
    · rintro ⟨member, rfl⟩
      exact ⟨Or.inr ⟨member, differs⟩, rfl⟩

theorem namesOf_put (groups : GroupTable) (group other : Nat) (names : NameSet) :
    namesOf (groups.put (group, names)) other =
      if other = group then names else namesOf groups other := by
  simp only [namesOf, find_put]
  by_cases same : other = group
  · simp only [if_pos same]
  · simp only [if_neg same]

theorem head?_eq_some_iff {names : NameSet} {name : ByteString} :
    names.elements.head? = some name ↔ name ∈ names ∧ ∀ other ∈ names, name ≤ other := by
  obtain ⟨elements, sorted⟩ := names
  change elements.head? = some name ↔ name ∈ elements ∧ ∀ other ∈ elements, name ≤ other
  cases elements with
  | nil => simp
  | cons first rest =>
      have smallest := (List.pairwise_cons.mp sorted).1
      simp only [List.head?_cons, Option.some.injEq, List.mem_cons]
      constructor
      · rintro rfl
        refine ⟨Or.inl rfl, fun other member => ?_⟩
        rcases member with rfl | later
        · exact le_rfl
        · exact (smallest other later).le
      · rintro ⟨same | later, least⟩
        · exact same.symm
        · exact absurd (smallest name later) (not_lt.mpr (least first (Or.inl rfl)))

end Names

namespace Server

variable {server : Server} {names : List ByteString}

/-- Put names into group 0. -/
def addNames (groups : GroupTable) (names : List ByteString) : GroupTable :=
  names.foldl (fun groups name => groups.put (0, (namesOf groups 0).put name)) groups

/-- Take names out of group 0. -/
def dropNames (groups : GroupTable) (names : List ByteString) : GroupTable :=
  names.foldl (fun groups name => groups.put (0, (namesOf groups 0).drop name)) groups

theorem namesOf_addNames (groups : GroupTable) (names : List ByteString) (group : Nat) :
    (group ≠ 0 → namesOf (addNames groups names) group = namesOf groups group) ∧
      ∀ name, name ∈ namesOf (addNames groups names) 0 ↔
        name ∈ namesOf groups 0 ∨ name ∈ names := by
  induction names generalizing groups with
  | nil => simp [addNames]
  | cons first names ih =>
      obtain ⟨others, zero⟩ := ih (groups.put (0, (namesOf groups 0).put first))
      constructor
      · intro other
        exact (others other).trans (by rw [namesOf_put, if_neg other])
      · intro name
        refine (zero name).trans ?_
        rw [namesOf_put, if_pos rfl, KeySorted.mem_put, List.mem_cons, id_eq]
        by_cases same : name = first
        · simp [same]
        · simp [same]

theorem namesOf_dropNames (groups : GroupTable) (names : List ByteString) (group : Nat) :
    (group ≠ 0 → namesOf (dropNames groups names) group = namesOf groups group) ∧
      ∀ name, name ∈ namesOf (dropNames groups names) 0 ↔
        name ∈ namesOf groups 0 ∧ name ∉ names := by
  induction names generalizing groups with
  | nil => simp [dropNames]
  | cons first names ih =>
      obtain ⟨others, zero⟩ := ih (groups.put (0, (namesOf groups 0).drop first))
      constructor
      · intro other
        exact (others other).trans (by rw [namesOf_put, if_neg other])
      · intro name
        refine (zero name).trans ?_
        rw [namesOf_put, if_pos rfl, KeySorted.mem_drop, List.mem_cons, not_or, id_eq, and_assoc]

theorem find_zero_addNames {groups : GroupTable}
    (present : (groups.find 0).isSome ∨ names ≠ []) : ((addNames groups names).find 0).isSome := by
  induction names generalizing groups with
  | nil => simpa [addNames] using present
  | cons first names ih => exact ih (Or.inl (by rw [find_put, if_pos rfl]; rfl))

theorem find_zero_dropNames {groups : GroupTable} (present : (groups.find 0).isSome) :
    ((dropNames groups names).find 0).isSome := by
  induction names generalizing groups with
  | nil => exact present
  | cons first names ih => exact ih (by rw [find_put, if_pos rfl]; rfl)

/-- The loop of `add_db_servers`. -/
theorem foldl_addName (dservers : List ByteString) :
    names.foldl addName (server, dservers) =
      ({ server with
          master := if server.mygroupid = 0 ∧ dbNames names ≠ [] then none else server.master
          groups := addNames server.groups (dbNames names) }, dservers ++ dbNames names) := by
  induction names generalizing server dservers with
  | nil => simp [dbNames, addNames]
  | cons name names ih =>
      rw [List.foldl_cons, addName, parseServername_eq, dbNames_cons]
      by_cases isDb : [100, 98] = name.take 2
      · simp only [if_pos isDb, ih, addNames, List.foldl_cons, List.append_assoc,
          List.singleton_append, ne_eq, List.cons_ne_nil, not_false_eq_true, and_true]
        by_cases own : server.mygroupid = 0
        · simp [own]
        · simp [own, Ne.symm own]
      · simp only [if_neg isDb]
        exact ih dservers

theorem delDbServers_eq (present : (server.groups.find 0).isSome) :
    server.delDbServers names =
      ({ server with
          master := if ∃ name ∈ dbNames names, some name = server.master then none
            else server.master
          groups := dropNames server.groups (dbNames names) }, true) := by
  induction names generalizing server with
  | nil => simp [delDbServers, dbNames, dropNames]
  | cons name names ih =>
      rw [delDbServers, parseServername_eq, dbNames_cons]
      by_cases isDb : [100, 98] = name.take 2
      · obtain ⟨⟨group, gservers⟩, found⟩ := Option.isSome_iff_exists.mp present
        have isNames : gservers = namesOf server.groups 0 := by simp [namesOf, found]
        simp only [if_pos isDb, found, isNames]
        rw [ih (by rw [find_put, if_pos rfl]; rfl)]
        simp only [dropNames, List.foldl_cons, List.mem_cons, exists_eq_or_imp]
        by_cases same : some name = server.master
        · simp [← same]
        · simp [same]
      · simp only [if_neg isDb]
        exact ih present

/-- Without group 0 `del_db_servers` fails at its first name. -/
theorem delDbServers_missing (missing : server.groups.find 0 = none) :
    ∃ master ended, server.delDbServers names = ({ server with master }, ended) ∧
      (master = server.master ∨ master = none) := by
  induction names with
  | nil => exact ⟨_, _, rfl, Or.inl rfl⟩
  | cons name names ih =>
      rw [delDbServers, parseServername_eq]
      by_cases isDb : [100, 98] = name.take 2
      · simp only [if_pos isDb, missing]
        refine ⟨_, _, rfl, ?_⟩
        split
        · exact Or.inr rfl
        · exact Or.inl rfl
      · simp only [if_neg isDb]
        exact ih

theorem mem_sendMaster {name : ByteString} {message : Message} :
    message ∈ server.sendMaster name ↔ name ≠ server.serverName ∧
      message = ⟨server.serverName, name, server.mygroupid, server.master⟩ := by
  rw [sendMaster]
  split
  next same => simp [same]
  next differs => simp [differs]

/-- A server becomes the master when it has none and its name is the smallest. -/
theorem selectMaster_eq : server.selectMaster =
    if server.master = none ∧ (namesOf server.groups server.mygroupid).elements.head? =
        some server.serverName then
      ({ server with master := some server.serverName },
        server.groups.elements.flatMap fun group => group.2.elements.flatMap
          { server with master := some server.serverName }.sendMaster)
    else (server, []) := by
  obtain ⟨serverName, mygroupid, master, groupMaster, groups⟩ := server
  cases master with
  | some name => simp [selectMaster]
  | none =>
      by_cases least : (namesOf groups mygroupid).elements.head? = some serverName
      · simp [selectMaster, mygroupServers, least]
      · simp [selectMaster, mygroupServers, least]

theorem selectMaster_fst : server.selectMaster.1 =
    { server with
      master := if server.master = none ∧ (namesOf server.groups server.mygroupid).elements.head? =
          some server.serverName then some server.serverName else server.master } := by
  rw [selectMaster_eq]
  split <;> rfl

theorem mem_selectMaster {message : Message} : message ∈ server.selectMaster.2 ↔
    (server.master = none ∧ (namesOf server.groups server.mygroupid).elements.head? =
      some server.serverName) ∧
    ∃ group gservers, (group, gservers) ∈ server.groups ∧ ∃ name ∈ gservers,
      name ≠ server.serverName ∧
        message = ⟨server.serverName, name, server.mygroupid, some server.serverName⟩ := by
  rw [selectMaster_eq]
  split
  next selects => simp [selects, mem_sendMaster, KeySorted.mem_elements]
  next stays => simp [stays]

theorem mem_notifyMaster {message : Message} (notified : message ∈ server.notifyMaster names) :
    message.group = server.mygroupid := by
  rw [notifyMaster] at notified
  split at notified
  · simp at notified
  · split at notified
    · simp at notified
    · obtain ⟨name, -, sent⟩ := List.mem_flatMap.mp notified
      rw [(mem_sendMaster.mp sent).2]

/-- The state in which `cluster_diff` calls `select_master`. -/
def afterDiff (server : Server) (upd del : List ByteString) : Server :=
  { server with
    master := if server.mygroupid = 0 ∧ dbNames upd ≠ [] then none
      else if ∃ name ∈ dbNames del, some name = server.master then none else server.master
    groups := dropNames (addNames server.groups (dbNames upd)) (dbNames del) }

/-- `cluster_diff` in a table that has a group 0 in time. -/
theorem clusterDiff_eq {upd del : List ByteString}
    (present : (server.groups.find 0).isSome ∨ dbNames upd ≠ []) :
    ∃ notified, server.clusterDiff upd del = ((server.afterDiff upd del).selectMaster.1,
        notified ++ (server.afterDiff upd del).selectMaster.2) ∧
      (server.mygroupid = 0 → notified = []) ∧
      ∀ message ∈ notified, message.group = server.mygroupid := by
  have zero := find_zero_addNames present
  simp only [clusterDiff, addDbServers, foldl_addName, List.nil_append]
  rw [delDbServers_eq zero]
  have state : ∀ added : Server, added = { server with
      master := if server.mygroupid = 0 ∧ dbNames upd ≠ [] then none else server.master
      groups := addNames server.groups (dbNames upd) } →
      { added with
        master := if ∃ name ∈ dbNames del, some name = added.master then none else added.master
        groups := dropNames added.groups (dbNames del) } = server.afterDiff upd del := by
    rintro added rfl
    simp only [afterDiff]
    by_cases cleared : server.mygroupid = 0 ∧ dbNames upd ≠ []
    · simp [cleared]
    · simp only [if_neg cleared]
  have same := state _ rfl
  simp only at same
  simp only [same, if_true]
  refine ⟨_, rfl, fun own => ?_, fun message => mem_notifyMaster⟩
  rw [notifyMaster]
  by_cases added : dbNames upd = []
  · simp only [added]
    split
    · rfl
    · split <;> rfl
  · simp [own, added]

/-- Without group 0 `cluster_diff` may fail. -/
theorem clusterDiff_missing {upd del : List ByteString} (missing : server.groups.find 0 = none)
    (unchanged : dbNames upd = []) :
    ∃ master, (master = server.master ∨ master = none) ∧
      (server.clusterDiff upd del = ({ server with master }, []) ∨
        server.clusterDiff upd del = { server with master }.selectMaster) := by
  obtain ⟨master, ended, deleted, cleared⟩ := @delDbServers_missing server del missing
  have quiet : server.notifyMaster [] = [] := by
    rw [notifyMaster]
    split
    · rfl
    · split <;> rfl
  refine ⟨master, cleared, ?_⟩
  simp only [clusterDiff, addDbServers, foldl_addName, unchanged, ne_eq, not_true_eq_false,
    and_false, if_false, addNames, List.foldl_nil, List.append_nil, quiet, deleted]
  cases ended with
  | true => exact Or.inr rfl
  | false => exact Or.inl rfl

end Server

end Groups

end LuaServer
