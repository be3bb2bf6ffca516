import LuaServer.KcpStreams
import Mathlib.Logic.Function.Basic

/-!
# Connections over kcp

Two control blocks exchange datagrams, each of which may get lost, be late or arrive many
times.  What the script gets on one side are the messages of the other side, in their order,
each once; and a side that has nothing left to send knows that the other one has everything.
-/

namespace LuaServer

namespace Kcp

open SerialNumbers MessagePieces ReliableStreams MachineIntegers

/-- One side: the control block, the messages that `ikcp_send` has taken, the datagrams that
have been put out, and the strings that the script has got. -/
structure Peer where
  kcp : IKCPCB
  accepted : List ByteString
  out : List ByteString
  received : List ByteString

/-- What happens on one side.  Any datagram of the other side may arrive at any time. -/
inductive Event
  | send (str : ByteString)
  | update (i : Int)
  | recv
  | arrive (n : Nat)

/-- One side after an event.  What `ikcp_send` has taken is what it does not refuse. -/
def Peer.run (p other : Peer) : Event → Peer
  | .send str => { p with
      kcp := lkcpSend p.kcp str
      accepted := if 0 ≤ (ikcpSend p.kcp str (toInt32 str.length)).1
        then p.accepted ++ [handedOn str] else p.accepted }
  | .update i => { p with
      kcp := (lkcpUpdate p.kcp i).1
      out := p.out ++ (lkcpUpdate p.kcp i).2 }
  | .recv => { p with
      kcp := (lkcpRecv p.kcp).2
      received := match (lkcpRecv p.kcp).1 with
        | .str data => p.received ++ [data]
        | .nothing => p.received
        | .error => p.received }
  | .arrive n =>
      match other.out[n]? with
      | some datagram => { p with kcp := lkcpInput p.kcp datagram }
      | none => p

/-- Both sides. -/
abbrev Connection := Bool → Peer

def Connection.start : Connection := fun _ => ⟨lkcpCreate, [], [], []⟩

def Connection.step (c : Connection) (event : Bool × Event) : Connection :=
  Function.update c event.1 ((c event.1).run (c !event.1) event.2)

def Connection.run (events : List (Bool × Event)) : Connection :=
  events.foldl Connection.step .start

/-- The pieces of messages. -/
def stream (messages : List ByteString) : List (Nat × ByteString) :=
  messages.flatMap fun message => pieces (messageParts 1376 message)

/-- Neither side uses up half of the numbers: a very late datagram is not taken for a new
one. -/
def Connection.Short (c : Connection) : Prop :=
  ∀ side, (stream (c side).accepted).length < 2147483648

/-- What one side holds of the messages of both. -/
structure Peer.Serves (p : Peer) (messages : List ByteString) (a b : Stream) : Prop where
  ok : p.kcp.queues.Ok
  items : a.items = stream p.accepted
  few : ∀ message ∈ p.accepted, (messageParts 1376 message).length < 128
  out : ∀ datagram ∈ p.out, Wire a b datagram
  reads : ∃ done rest, messages = done ++ rest ∧ p.received = done.filter (· ≠ []) ∧
    p.kcp.queues.Serves a b (stream done)

/-- What holds of both sides in every state. -/
def Connection.Ok (c : Connection) : Prop :=
  ∃ a : Bool → Stream, ∀ side, (c side).Serves (c !side).accepted (a side) (a !side)

theorem stream_append (messages messages' : List ByteString) :
    stream (messages ++ messages') = stream messages ++ stream messages' :=
  List.flatMap_append

theorem stream_singleton (message : ByteString) :
    stream [message] = pieces (messageParts 1376 message) :=
  List.flatMap_singleton ..

theorem eq_nil_of_stream {messages : List ByteString} (none : stream messages = []) :
    messages = [] := by
  cases messages with
  | nil => rfl
  | cons message messages =>
      rw [stream, List.flatMap_cons, List.append_eq_nil_iff] at none
      have length := congrArg List.length none.1
      rw [length_pieces, List.length_nil, List.length_eq_zero_iff] at length
      exact absurd length (messageParts_ne_nil (by norm_num) message)

section Steps

variable {p other : Peer} {messages : List ByteString} {a b : Stream}

theorem Peer.serves {kcp : IKCPCB} {accepted out received : List ByteString}
    (done rest : List ByteString) (ok : kcp.queues.Ok) (items : a.items = stream accepted)
    (few : ∀ message ∈ accepted, (messageParts 1376 message).length < 128)
    (out_ : ∀ datagram ∈ out, Wire a b datagram) (eq : messages = done ++ rest)
    (reads : received = done.filter (· ≠ [])) (queues : kcp.queues.Serves a b (stream done)) :
    Peer.Serves ⟨kcp, accepted, out, received⟩ messages a b :=
  ⟨ok, items, few, out_, done, rest, eq, reads, queues⟩

/-- What has been put out stays true. -/
theorem Peer.Serves.wires (serves : p.Serves messages a b) {a' b' : Stream} (grows : Grows a a')
    (grows' : Grows b b') : ∀ datagram ∈ p.out, Wire a' b' datagram :=
  fun datagram member => (serves.out datagram member).mono grows grows'

/-- What one side holds does not depend on the steps of the other one. -/
theorem Peer.Serves.frame (serves : p.Serves messages a b) (more : List ByteString)
    {a' b' : Stream} (fits : Fits a') (fits' : Fits b') (grows : Grows a a') (grows' : Grows b b')
    (items : a'.items = a.items) (sent : a'.sent = a.sent) (kept : a'.kept = a.kept)
    (got : b'.got = b.got) (taken : b'.taken = b.taken) :
    p.Serves (messages ++ more) a' b' where
  ok := serves.ok
  items := items.trans serves.items
  few := serves.few
  out := serves.wires grows grows'
  reads := by
    obtain ⟨done, rest, eq, received, queues⟩ := serves.reads
    exact ⟨done, rest ++ more, by rw [eq, List.append_assoc], received,
      queues.sends.frame items sent kept, queues.gets.frame queues.fits' grows' got taken, fits,
      fits'⟩

theorem Peer.Serves.update (serves : p.Serves messages a b) (i : Int) :
    ∃ a' b', Reaches a b a' b' ∧ (p.run other (.update i)).Serves messages a' b' := by
  obtain ⟨done, rest, eq, received, queues⟩ := serves.reads
  obtain ⟨a', b', reaches, after, wires⟩ := queues.lkcpUpdate serves.ok i
  have ok : (lkcpUpdate p.kcp i).1.queues.Ok := serves.ok.ikcpUpdate _
  rw [Peer.run]
  refine ⟨a', b', reaches, Peer.serves done rest ok (reaches.items.trans serves.items) serves.few
    ?_ eq received after⟩
  intro datagram member
  rcases List.mem_append.mp member with old | new
  · exact serves.wires reaches.moves.grows reaches.moves'.grows datagram old
  · exact wires datagram new

theorem Peer.Serves.arrive (serves : p.Serves messages a b)
    (wires : ∀ datagram ∈ other.out, Wire b a datagram) (n : Nat) :
    ∃ a' b', Reaches a b a' b' ∧ (p.run other (.arrive n)).Serves messages a' b' := by
  rw [Peer.run]
  split
  · next datagram at_ =>
    obtain ⟨done, rest, eq, received, queues⟩ := serves.reads
    obtain ⟨a', b', reaches, after⟩ :=
      queues.lkcpInput serves.ok (wires datagram (List.mem_of_getElem? at_))
    have ok : (lkcpInput p.kcp datagram).queues.Ok := by
      have ran := serves.ok.run (.input datagram)
      rwa [Call.run] at ran
    exact ⟨a', b', reaches, Peer.serves done rest ok (reaches.items.trans serves.items) serves.few
      (serves.wires reaches.moves.grows reaches.moves'.grows) eq received after⟩
  · exact ⟨a, b, .refl, serves⟩

/-- The first message in `rcv_queue` is the next one of the other side. -/
theorem message_eq {q : Queues} {done rest : List ByteString} (serves : q.Serves a b (stream done))
    (items : b.items = stream (done ++ rest))
    (few : ∀ message ∈ rest, (messageParts 1376 message).length < 128) (ready : q.Ready) :
    ∃ next others, rest = next :: others ∧ q.message = next ∧
      q.rcvQueue.map Content.piece = pieces (messageParts 1376 next) ++
        (takeMessage (q.rcvQueue.map Content.piece)).2 := by
  obtain ⟨c, behind, queue, enough⟩ := ready
  have arrived : q.rcvQueue.map Content.piece <+:
      (rest.map (messageParts 1376)).flatMap pieces := by
    have whole : stream done ++ q.rcvQueue.map Content.piece <+: stream done ++ stream rest := by
      rw [serves.gets.read, ← stream_append, ← items]
      exact List.take_prefix ..
    have suffix := (List.prefix_append_right_inj _).mp whole
    rwa [stream, ← List.flatMap_map] at suffix
  have someParts : ∀ parts ∈ rest.map (messageParts 1376), parts ≠ [] := by
    intro parts member
    obtain ⟨message, -, rfl⟩ := List.mem_map.mp member
    exact messageParts_ne_nil (by norm_num) message
  -- the number of the pieces that follow is that of a message, and does not overflow
  have small : c.frg.toNat < 128 := by
    have inStream := arrived.subset (List.mem_map_of_mem (queue ▸ List.mem_cons_self))
    obtain ⟨parts, member, inPieces⟩ := List.mem_flatMap.mp inStream
    obtain ⟨message, inRest, rfl⟩ := List.mem_map.mp member
    exact (fst_lt_of_mem_pieces inPieces).trans (few message inRest)
  have enough' : c.frg.toNat ≤ (behind.map Content.piece).length := by
    rw [List.length_map]
    rcases enough with last | more
    · rw [last]
      exact Nat.zero_le _
    · rw [queue, List.length_cons, BitVec.toNat_add_of_lt (by
        change c.frg.toNat + 1 < _
        omega)] at more
      exact Nat.le_of_succ_le_succ more
  rw [queue, List.map_cons] at arrived
  obtain ⟨parts, others, later, eq, -, pieces_, -⟩ :=
    exists_message_of_enough someParts arrived enough'
  obtain ⟨next, others', rfl, rfl, -⟩ := List.map_eq_cons_iff.mp eq
  have map : q.rcvQueue.map Content.piece = pieces (messageParts 1376 next) ++ later := by
    rw [queue, List.map_cons]
    exact pieces_
  have taken := takeMessage_pieces (@messageParts_ne_nil 1376 (by norm_num) next) later
  refine ⟨next, others', rfl, ?_, ?_⟩
  · rw [Queues.message, map, taken, @flatten_messageParts 1376 (by norm_num)]
  · rw [map, taken]

theorem run_recv : p.run other .recv = { p with
    kcp := (ikcpRecv p.kcp RECV_SIZE).2.2
    received := if 0 < (ikcpRecv p.kcp RECV_SIZE).1
      then p.received ++ [(ikcpRecv p.kcp RECV_SIZE).2.1] else p.received } := by
  rw [Peer.run, lkcpRecv_snd, lkcpRecv]
  dsimp only
  by_cases some_ : 0 < (ikcpRecv p.kcp RECV_SIZE).1
  · rw [if_pos some_, if_pos some_]
  · rw [if_neg some_, if_neg some_]
    by_cases long : (ikcpRecv p.kcp RECV_SIZE).1 = -3
    · rw [if_pos long]
    · rw [if_neg long]

theorem Peer.Serves.recv (serves : p.Serves messages a b) (items : b.items = stream messages)
    (few : ∀ message ∈ messages, (messageParts 1376 message).length < 128) :
    ∃ a' b', Reaches a b a' b' ∧ (p.run other .recv).Serves messages a' b' := by
  obtain ⟨done, rest, rfl, received, queues⟩ := serves.reads
  have ok := serves.ok.ikcpRecv RECV_SIZE
  have got := receives_ikcpRecv p.kcp RECV_SIZE
  rw [run_recv]
  generalize ikcpRecv p.kcp RECV_SIZE = result at ok got ⊢
  obtain ⟨code, data, after⟩ := result
  dsimp only at ok got ⊢
  have unread (stays : after.queues = p.kcp.queues) (none : ¬ 0 < code) :
      ∃ a' b', Reaches a b a' b' ∧ Peer.Serves { p with
        kcp := after
        received := if 0 < code then p.received ++ [data] else p.received }
          (done ++ rest) a' b' :=
    ⟨a, b, .refl, Peer.serves done rest ok serves.items serves.few serves.out rfl
      ((if_neg none).trans received) (stays ▸ queues)⟩
  generalize afterEq : after.queues = q at got
  cases got with
  | empty => exact unread afterEq (by decide)
  | waiting => exact unread afterEq (by decide)
  | negative => exact unread afterEq (by decide)
  | long => exact unread afterEq (by decide)
  | whole ready size isSize fits behind sublist pieces_ kcp' after' before moved =>
      obtain ⟨next, others, rfl, message, map⟩ := message_eq queues items
        (fun message member => few message (List.mem_append_right _ member)) ready
      have parts := few next (List.mem_append_right _ List.mem_cons_self)
      have within := @length_le_of_messageParts 1376 (by norm_num) next
      obtain rfl : code = next.length := by
        rw [isSize, message]
        exact toInt32_of_range (by omega) (by omega)
      have read : kcp'.queues.Serves a b (stream (done ++ [next])) := by
        rw [before]
        refine ⟨{ queues.sends with }, { queues.gets with read := ?_ }, queues.fits, queues.fits'⟩
        rw [stream_append, stream_singleton, pieces_, List.append_assoc, ← map]
        exact queues.gets.read
      obtain ⟨a', b', reaches, serves'⟩ := read.moveAvailable
      refine ⟨a', b', reaches, Peer.serves (done ++ [next]) others ok
        (reaches.items.trans serves.items) serves.few
        (serves.wires reaches.moves.grows reaches.moves'.grows) (by simp) ?_ ?_⟩
      · rw [List.filter_append, ← received, message]
        by_cases none : next = []
        · simp [none]
        · simp [none, List.length_pos_iff]
      · rw [afterEq, moved]
        exact serves'

theorem accepted_run (event : Event) :
    ∃ given, (p.run other event).accepted = p.accepted ++ given := by
  cases event with
  | send str =>
      rw [Peer.run]
      dsimp only
      by_cases taken : 0 ≤ (ikcpSend p.kcp str (toInt32 str.length)).1
      · exact ⟨_, if_pos taken⟩
      · exact ⟨[], (if_neg taken).trans (List.append_nil _).symm⟩
  | update i =>
      rw [Peer.run]
      exact ⟨[], (List.append_nil _).symm⟩
  | recv =>
      rw [Peer.run]
      exact ⟨[], (List.append_nil _).symm⟩
  | arrive n =>
      rw [Peer.run]
      split <;> exact ⟨[], (List.append_nil _).symm⟩

/-- What the other side sees of an event. -/
structure Affects (a b a' b' : Stream) : Prop where
  grows : Grows a a'
  got : a'.got = a.got
  taken : a'.taken = a.taken
  grows' : Grows b b'
  items' : b'.items = b.items
  sent' : b'.sent = b.sent
  kept' : b'.kept = b.kept

theorem Reaches.affects {a' b' : Stream} (reaches : Reaches a b a' b') : Affects a b a' b' :=
  ⟨reaches.moves.grows, reaches.got, reaches.taken, reaches.moves'.grows, reaches.items',
    reaches.sent', reaches.kept'⟩

theorem Peer.Serves.send (serves : p.Serves messages a b) (str : ByteString)
    (short : (stream (p.run other (.send str)).accepted).length < 2147483648) :
    ∃ a' b', Affects a b a' b' ∧ (p.run other (.send str)).Serves messages a' b' := by
  obtain ⟨done, rest, eq, received, queues⟩ := serves.reads
  have ok := serves.ok.lkcpSend str
  rw [Peer.run] at short ⊢
  rcases lkcpSend_cases serves.ok str with ⟨refused, same⟩ | ⟨taken, few, queued⟩
  · rw [if_neg (not_le.mpr refused)]
    rw [same] at ok ⊢
    exact ⟨a, b, Reaches.refl.affects,
      Peer.serves done rest ok serves.items serves.few serves.out eq received queues⟩
  · rw [if_pos taken] at short ⊢
    dsimp only at short
    have grows := (moves_give (a := a) (pieces (messageParts 1376 (handedOn str)))).grows
    have items : a.items ++ pieces (messageParts 1376 (handedOn str)) =
        stream (p.accepted ++ [handedOn str]) := by
      rw [stream_append, stream_singleton, serves.items]
    refine ⟨{ a with items := a.items ++ pieces (messageParts 1376 (handedOn str)) }, b,
      ⟨grows, rfl, rfl, .refl, rfl, rfl, rfl⟩,
      Peer.serves done rest ok items ?_ ?_ eq received ?_⟩
    · intro message member
      rcases List.mem_append.mp member with old | new
      · exact serves.few message old
      · rwa [List.mem_singleton.mp new]
    · exact serves.wires grows .refl
    · rw [← items] at short
      rw [queued]
      exact queues.append few short

theorem Peer.Serves.run (serves : p.Serves other.accepted a b)
    (peer : other.Serves p.accepted b a) (event : Event)
    (short : (stream (p.run other event).accepted).length < 2147483648) :
    ∃ a' b', Affects a b a' b' ∧ (p.run other event).Serves other.accepted a' b' := by
  cases event with
  | send str => exact serves.send str short
  | update i =>
      obtain ⟨a', b', reaches, after⟩ := @Peer.Serves.update p other _ a b serves i
      exact ⟨a', b', reaches.affects, after⟩
  | recv =>
      obtain ⟨a', b', reaches, after⟩ :=
        @Peer.Serves.recv p other _ a b serves peer.items peer.few
      exact ⟨a', b', reaches.affects, after⟩
  | arrive n =>
      obtain ⟨a', b', reaches, after⟩ := serves.arrive peer.out n
      exact ⟨a', b', reaches.affects, after⟩

theorem Peer.Serves.fits (serves : p.Serves messages a b) : Fits a ∧ Fits b := by
  obtain ⟨_, _, _, _, queues⟩ := serves.reads
  exact ⟨queues.fits, queues.fits'⟩

end Steps

/-! ## Runs -/

theorem step_apply_self (c : Connection) (side : Bool) (event : Event) :
    c.step (side, event) side = (c side).run (c !side) event :=
  Function.update_self ..

theorem step_apply_not (c : Connection) (side : Bool) (event : Event) :
    c.step (side, event) (!side) = c !side :=
  Function.update_of_ne (Bool.not_ne_self side) ..

theorem Connection.Short.of_step {c : Connection} {event : Bool × Event}
    (short : (c.step event).Short) : c.Short := by
  obtain ⟨side, event⟩ := event
  intro side'
  have after := short side'
  by_cases same : side' = side
  · subst same
    obtain ⟨given, eq⟩ := @accepted_run (c side') (c !side') event
    rw [step_apply_self, eq, stream_append, List.length_append] at after
    omega
  · rw [Bool.eq_not.mpr same] at after ⊢
    rwa [step_apply_not] at after

theorem Connection.Ok.step {c : Connection} (ok : c.Ok) {event : Bool × Event}
    (short : (c.step event).Short) : (c.step event).Ok := by
  obtain ⟨side, event⟩ := event
  obtain ⟨a, serves⟩ := ok
  have peer := serves !side
  rw [Bool.not_not] at peer
  have less := short side
  rw [step_apply_self] at less
  obtain ⟨a', b', affects, after⟩ := (serves side).run peer event less
  obtain ⟨given, more⟩ := @accepted_run (c side) (c !side) event
  obtain ⟨fits, fits'⟩ := after.fits
  have frame := peer.frame given fits' fits affects.grows' affects.grows affects.items'
    affects.sent' affects.kept' affects.got affects.taken
  rw [← more] at frame
  refine ⟨fun side' => if side' = side then a' else b', fun side' => ?_⟩
  by_cases same : side' = side
  · subst same
    dsimp only
    rw [if_pos rfl, if_neg (Bool.not_ne_self side'), step_apply_self, step_apply_not]
    exact after
  · obtain rfl := Bool.eq_not.mpr same
    dsimp only
    rw [Bool.not_not, if_pos rfl, if_neg same, step_apply_self, step_apply_not]
    exact frame

theorem ok_start : Connection.start.Ok := by
  have fits : Fits (State.start : Stream) := ⟨sound_start, by decide⟩
  exact ⟨fun _ => State.start, fun side => {
    ok := ok_lkcpCreate
    items := rfl
    few := fun _ member => absurd member List.not_mem_nil
    out := fun _ member => absurd member List.not_mem_nil
    reads := ⟨[], [], rfl, rfl, {
      sends := ⟨rfl, rfl, fun _ member => absurd member List.not_mem_nil,
        fun _ member => absurd member (Set.notMem_empty _)⟩
      gets := ⟨rfl, fun _ member => absurd member List.not_mem_nil,
        fun _ member => absurd member (Set.notMem_empty _),
        fun _ member => absurd member List.not_mem_nil, rfl⟩
      fits := fits
      fits' := fits }⟩ }⟩

theorem ok_run (events : List (Bool × Event)) (short : (Connection.run events).Short) :
    (Connection.run events).Ok := by
  induction events using List.reverseRecOn with
  | nil => exact ok_start
  | append_singleton events event ih =>
      rw [Connection.run, List.foldl_append, List.foldl_cons, List.foldl_nil] at short ⊢
      exact (ih short.of_step).step short

/-- Whatever is lost, late or repeated, the script gets the messages of the other side in
their order, each once.  An empty message is not handed on. -/
theorem received_in_order (events : List (Bool × Event)) (short : (Connection.run events).Short)
    (side : Bool) :
    (Connection.run events side).received <+:
      (Connection.run events !side).accepted.filter (· ≠ []) := by
  obtain ⟨a, serves⟩ := ok_run events short
  obtain ⟨done, rest, messages, received, -⟩ := (serves side).reads
  rw [messages, received, List.filter_append]
  exact List.prefix_append ..

/-- When nothing is left to be sent or acknowledged on one side, all of its pieces are in
`rcv_queue` of the other side or have been read. -/
theorem all_taken {q q' : Queues} {a b : Stream} {read read' : List (Nat × ByteString)}
    (sends : q.Serves a b read) (gets : q'.Serves b a read') (ok : q'.Ok)
    (sent : q.sndQueue = []) (acknowledged : q.sndBuf = []) (empty : q'.rcvQueue = []) :
    read' = a.items := by
  have sentAll : a.sent = a.items.length := by
    refine le_antisymm sends.fits.sound.sent_le (List.drop_eq_nil_iff.mp ?_)
    rw [← sends.sends.sndQueue, sent]
    rfl
  have takenAll : a.sent ≤ a.taken := by
    by_contra less
    have next : a.taken ∈ a.got := by
      rcases sends.fits.sound.safe a.taken (not_le.mp less) with kept | got
      · obtain ⟨c, member, -⟩ := sends.sends.kept _ kept
        rw [acknowledged] at member
        exact absurd member List.not_mem_nil
      · exact got
    obtain ⟨c, member, sn⟩ := (gets.gets.got _ next).resolve_left (lt_irrefl _)
    -- the segment that is awaited is the first one in the buffer
    obtain ⟨first, rest, buf⟩ := List.exists_cons_of_ne_nil (List.ne_nil_of_mem member)
    have awaited : c.sn = q'.rcvNxt := sn.trans gets.gets.rcvNxt.symm
    have sorted := ok.sorted
    rw [buf] at sorted member
    have firstNext : first.sn = q'.rcvNxt := by
      rcases List.mem_cons.mp member with rfl | later
      · exact awaited
      · have smaller := (List.pairwise_cons.mp sorted).1 c later
        rw [awaited, offset_self] at smaller
        exact absurd smaller (Nat.not_lt_zero _)
    have full := ok.eager first rest buf firstNext
    rw [ok.rcvWnd, empty] at full
    exact absurd full (by decide)
  have whole := gets.gets.read
  rwa [empty, List.map_nil, List.append_nil, List.take_of_length_le (by omega)] at whole

/-- When a side has nothing left to send, and no acknowledgement to wait for, the other side
has got all its messages as soon as it has read what it has. -/
theorem all_received (events : List (Bool × Event)) (short : (Connection.run events).Short)
    (side : Bool) (sent : (Connection.run events !side).kcp.sndQueue = [])
    (acknowledged : (Connection.run events !side).kcp.sndBuf = [])
    (read : (Connection.run events side).kcp.rcvQueue = []) :
    (Connection.run events side).received =
      (Connection.run events !side).accepted.filter (· ≠ []) := by
  obtain ⟨a, serves⟩ := ok_run events short
  obtain ⟨done, rest, messages, received, gets⟩ := (serves side).reads
  obtain ⟨_, _, _, _, sends⟩ := (serves !side).reads
  rw [Bool.not_not] at sends
  have all := all_taken sends gets (serves side).ok (by simp [IKCPCB.queues, sent])
    (by simp [IKCPCB.queues, acknowledged]) (by simp [IKCPCB.queues, read])
  rw [(serves !side).items, messages, stream_append, List.self_eq_append_right] at all
  rw [messages, received, eq_nil_of_stream all, List.append_nil]

/-- Three messages, the second one in two fragments, make three datagrams.  The second one
arrives before the first one, which arrives twice, and the third one is lost and put out
again. -/
def lossyEvents : List (Bool × Event) :=
  [(true, .send [7]), (true, .send (List.replicate 1400 8)), (true, .send [9]),
    (true, .update 1), (false, .arrive 1), (false, .arrive 0), (false, .arrive 0),
    (false, .recv), (false, .recv), (false, .update 1), (true, .arrive 0), (true, .update 301),
    (false, .arrive 3), (false, .recv), (false, .recv), (false, .update 600), (true, .arrive 1)]

theorem short_lossyEvents : (Connection.run lossyEvents).Short := by
  intro side
  cases side <;> decide +kernel

theorem received_in_order_lossy :
    (Connection.run lossyEvents false).received <+:
      (Connection.run lossyEvents true).accepted.filter (· ≠ []) :=
  received_in_order lossyEvents short_lossyEvents false

theorem all_received_lossy :
    (Connection.run lossyEvents false).received =
      (Connection.run lossyEvents true).accepted.filter (· ≠ []) :=
  all_received lossyEvents short_lossyEvents false (by decide +kernel) (by decide +kernel)
    (by decide +kernel)

end Kcp

end LuaServer
