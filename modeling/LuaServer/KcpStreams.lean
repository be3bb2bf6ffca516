import LuaServer.KcpWindows
import LuaServer.ReliableStreams

/-!
# The streams of kcp

The fragments of all messages make a stream that a control block sends, and another one that
it gets.  Each function moves these two streams on, as long as it is told the truth by the
datagrams it gets; and the datagrams it puts out are true.
-/

namespace LuaServer

namespace Kcp

open SerialNumbers MessagePieces ReliableStreams

/-- The pieces of messages on their way. -/
abbrev Stream := State (Nat × ByteString)

/-- A segment has a number of the stream, and the piece with this number. -/
def Content.IsAt (c : Content) (a : Stream) (n : Nat) : Prop :=
  c.sn = BitVec.ofNat 32 n ∧ a.items[n]? = some c.piece

/-- What a control block holds of the stream that it sends. -/
structure Queues.Sends (q : Queues) (a : Stream) : Prop where
  sndNxt : q.sndNxt = BitVec.ofNat 32 a.sent
  sndQueue : q.sndQueue.map Content.piece = a.items.drop a.sent
  sndBuf : ∀ c ∈ q.sndBuf, ∃ n < a.sent, c.IsAt a n
  kept : ∀ n ∈ a.kept, ∃ c ∈ q.sndBuf, c.sn = BitVec.ofNat 32 n

/-- What a control block holds of the stream that it gets, when some of it has been read. -/
structure Queues.Gets (q : Queues) (b : Stream) (read : List (Nat × ByteString)) : Prop where
  rcvNxt : q.rcvNxt = BitVec.ofNat 32 b.taken
  rcvBuf : ∀ c ∈ q.rcvBuf, ∃ n ∈ b.got, c.IsAt b n
  got : ∀ n ∈ b.got, n < b.taken ∨ ∃ c ∈ q.rcvBuf, c.sn = BitVec.ofNat 32 n
  acks : ∀ sn ∈ q.acks, ∃ n ∈ b.got, sn = BitVec.ofNat 32 n
  read : read ++ q.rcvQueue.map Content.piece = b.items.take b.taken

/-- Numbers of a stream that does not use up half of all numbers. -/
structure Fits (a : Stream) : Prop where
  sound : Sound a
  short : a.items.length < 2147483648

/-- What a control block holds of both streams. -/
structure Queues.Serves (q : Queues) (a b : Stream) (read : List (Nat × ByteString)) : Prop where
  sends : q.Sends a
  gets : q.Gets b read
  fits : Fits a
  fits' : Fits b

/-- How a control block moves the stream that it sends and the one that it gets. -/
structure Reaches (a b a' b' : Stream) : Prop where
  moves : Moves a a'
  items : a'.items = a.items
  got : a'.got = a.got
  taken : a'.taken = a.taken
  moves' : Moves b b'
  items' : b'.items = b.items
  sent' : b'.sent = b.sent
  kept' : b'.kept = b.kept

/-- What is true of a segment: it acknowledges what has been got, and its data have its
number. -/
structure IKCPSEG.Truthful (a b : Stream) (seg : IKCPSEG) : Prop where
  una : ∃ n ≤ b.taken, seg.una = BitVec.ofNat 32 n
  push : seg.cmd = IKCP_CMD_PUSH → ∃ n < a.sent, seg.content.IsAt a n
  ack : seg.cmd = IKCP_CMD_ACK → ∃ n ∈ b.got, seg.sn = BitVec.ofNat 32 n

section Numbers

variable {a b a' b' a'' b'' : Stream}

theorem Reaches.refl : Reaches a b a b :=
  ⟨.refl, rfl, rfl, rfl, .refl, rfl, rfl, rfl⟩

theorem Reaches.trans (first : Reaches a b a' b') (second : Reaches a' b' a'' b'') :
    Reaches a b a'' b'' where
  moves := first.moves.trans second.moves
  items := second.items.trans first.items
  got := second.got.trans first.got
  taken := second.taken.trans first.taken
  moves' := first.moves'.trans second.moves'
  items' := second.items'.trans first.items'
  sent' := second.sent'.trans first.sent'
  kept' := second.kept'.trans first.kept'

theorem Fits.of_moves (fits : Fits a) (moves : Moves a a') (items : a'.items = a.items) :
    Fits a' :=
  ⟨moves.sound fits.sound, items ▸ fits.short⟩

theorem Fits.lt (fits : Fits a) {n : Nat} (sent : n ≤ a.sent) : n < 2147483648 :=
  (sent.trans fits.sound.sent_le).trans_lt fits.short

theorem Fits.got_lt (fits : Fits a) {n : Nat} (got : n ∈ a.got) : n < 2147483648 :=
  fits.lt (fits.sound.got_lt n got).le

theorem eq_of_ofNat_eq {m n : Nat} (small : m < 2147483648) (small' : n < 2147483648)
    (same : BitVec.ofNat 32 m = BitVec.ofNat 32 n) : m = n :=
  (ofNat_inj (by omega) (by omega)).mp same

theorem itimediff_ofNat {m n : Nat} (small : m < 2147483648) (small' : n < 2147483648) :
    itimediff (BitVec.ofNat 32 m) (BitVec.ofNat 32 n) = m - n :=
  distance_ofNat (by omega) (by omega)

theorem Content.IsAt.mono {c : Content} {n : Nat} (at_ : c.IsAt a n) (grows : Grows a a') :
    c.IsAt a' n :=
  ⟨at_.1, grows.getElem? at_.2⟩

theorem IKCPSEG.Truthful.mono {seg : IKCPSEG} (truth : seg.Truthful a b) (grows : Grows a a')
    (grows' : Grows b b') : seg.Truthful a' b' where
  una := truth.una.imp fun _ known => ⟨known.1.trans grows'.taken, known.2⟩
  push isPush := (truth.push isPush).imp fun _ known =>
    ⟨known.1.trans_le grows.sent, known.2.mono grows⟩
  ack isAck := (truth.ack isAck).imp fun _ known => ⟨grows'.got known.1, known.2⟩

end Numbers

section Sending

variable {q q' : Queues} {a a' : Stream}

/-- What has been got is let go. -/
theorem Queues.Sends.releases (sends : q.Sends a) (fits : Fits a) {gone : IUINT32 → Prop}
    (released : q.Releases gone q')
    (known : ∀ n < a.sent, gone (BitVec.ofNat 32 n) → n ∈ a.got) :
    ∃ kept, Moves a { a with kept := kept } ∧ q'.Sends { a with kept := kept } := by
  classical
  have moves := @moves_release _ a ((List.range a.sent).filter (· ∈ a.got)) fun n member =>
    of_decide_eq_true (List.mem_filter.mp member).2
  refine ⟨_, moves, ?_⟩
  obtain ⟨buf, sublist, gone_, rfl⟩ := released
  refine ⟨sends.sndNxt, sends.sndQueue, fun c member => sends.sndBuf c (sublist.subset member),
    ?_⟩
  rintro n ⟨kept, notGot⟩
  have sent := fits.sound.kept_lt n kept
  obtain ⟨c, member, sn⟩ := sends.kept n kept
  rcases gone_ c member with stays | goes
  · exact ⟨c, stays, sn⟩
  · refine absurd (List.mem_filter.mpr ⟨List.mem_range.mpr sent, ?_⟩) notGot
    exact decide_eq_true (known n sent (sn ▸ goes))

theorem Queues.Sends.shrink (sends : q.Sends a) : q.shrink.Sends a :=
  ⟨sends.sndNxt, sends.sndQueue, sends.sndBuf, sends.kept⟩

theorem Queues.Sends.number (sends : q.Sends a) {c : Content} {rest : List Content}
    (first : q.sndQueue = c :: rest) :
    Step a { a with sent := a.sent + 1, kept := insert a.sent a.kept } ∧
      (q.number c rest).Sends { a with sent := a.sent + 1, kept := insert a.sent a.kept } := by
  have queue := sends.sndQueue
  rw [first, List.map_cons] at queue
  have item : a.items[a.sent]? = some c.piece := by
    rw [← List.head?_drop, ← queue]
    rfl
  have behind : rest.map Content.piece = a.items.drop (a.sent + 1) := by
    rw [← List.tail_drop, ← queue]
    rfl
  refine ⟨.send (List.getElem?_eq_some_iff.mp item).1, ?_, behind, ?_, ?_⟩
  · rw [Queues.number, sends.sndNxt, ofNat_succ]
  · intro c' member
    rcases List.mem_append.mp member with old | new
    · obtain ⟨n, sent, at_⟩ := sends.sndBuf c' old
      exact ⟨n, sent.trans (Nat.lt_succ_self _), at_⟩
    · rw [List.mem_singleton.mp new]
      exact ⟨a.sent, Nat.lt_succ_self _, sends.sndNxt, item⟩
  · rintro n (rfl | kept)
    · exact ⟨_, List.mem_append_right _ (List.mem_singleton_self _), sends.sndNxt⟩
    · obtain ⟨c', member, sn⟩ := sends.kept n kept
      exact ⟨c', List.mem_append_left _ member, sn⟩

/-- The stream that a control block sends does not depend on what its peer does. -/
theorem Queues.Sends.frame (sends : q.Sends a) (items : a'.items = a.items)
    (sent : a'.sent = a.sent) (kept : a'.kept = a.kept) : q.Sends a' := by
  obtain ⟨nxt, queue, buf, keeps⟩ := sends
  rw [← sent] at nxt queue buf
  rw [← items] at queue
  refine ⟨nxt, queue, ?_, kept ▸ keeps⟩
  intro c member
  obtain ⟨n, less, at_⟩ := buf c member
  exact ⟨n, less, at_.1, items ▸ at_.2⟩

end Sending

section Getting

variable {q q' : Queues} {b b' : Stream} {read : List (Nat × ByteString)}

theorem Queues.Gets.take (gets : q.Gets b read) (fits : Fits b) {c : Content}
    {rest : List Content} (first : q.rcvBuf = c :: rest) (next : c.sn = q.rcvNxt) :
    Step b { b with taken := b.taken + 1 } ∧
      (q.take c rest).Gets { b with taken := b.taken + 1 } read := by
  obtain ⟨rcvNxt, rcvBuf, got, acks, reads⟩ := gets
  rw [first] at rcvBuf got
  obtain ⟨n, inGot, sn, item⟩ := rcvBuf c List.mem_cons_self
  have taken := fits.lt fits.sound.taken_le
  obtain rfl : n = b.taken :=
    eq_of_ofNat_eq (fits.got_lt inGot) taken (sn.symm.trans (next.trans rcvNxt))
  refine ⟨.take inGot, ?_, fun c' member => rcvBuf c' (List.mem_cons_of_mem c member), ?_,
    acks, ?_⟩
  · rw [Queues.take, rcvNxt, ofNat_succ]
  · intro m inGot'
    rcases got m inGot' with less | ⟨c', member, sn'⟩
    · exact Or.inl (less.trans (Nat.lt_succ_self _))
    · rcases List.mem_cons.mp member with rfl | later
      · rw [eq_of_ofNat_eq (fits.got_lt inGot') taken (sn'.symm.trans sn)]
        exact Or.inl (Nat.lt_succ_self _)
      · exact Or.inr ⟨c', later, sn'⟩
  · rw [Queues.take, List.map_append, ← List.append_assoc, reads, List.take_add_one, item]
    rfl

theorem Queues.Gets.stored (gets : q.Gets b read) {c : Content} (stored : q.Stored c q') {n : Nat}
    (at_ : c.IsAt b n) : q'.Gets { b with got := insert n b.got } read := by
  obtain ⟨rcvNxt, rcvBuf, got, acks, reads⟩ := gets
  have acks' : ∀ sn ∈ q.acks, ∃ m ∈ insert n b.got, sn = BitVec.ofNat 32 m := fun sn member =>
    (acks sn member).imp fun _ known => ⟨Or.inr known.1, known.2⟩
  have buf' : ∀ c' ∈ q.rcvBuf, ∃ m ∈ insert n b.got, c'.IsAt b m := fun c' member =>
    (rcvBuf c' member).imp fun _ known => ⟨Or.inr known.1, known.2⟩
  cases stored with
  | known old member same =>
      refine ⟨rcvNxt, buf', ?_, acks', reads⟩
      rintro m (rfl | inGot)
      · exact Or.inr ⟨old, member, same.trans at_.1⟩
      · exact got m inGot
  | fresh front back split before behind =>
      have moved (c' : Content) (member : c' ∈ q.rcvBuf) : c' ∈ front ++ c :: back := by
        rw [split] at member
        simp only [List.mem_append, List.mem_cons] at member ⊢
        tauto
      refine ⟨rcvNxt, ?_, ?_, acks', reads⟩
      · intro c' member
        rcases List.mem_append.mp member with inFront | inRest
        · exact buf' c' (split ▸ List.mem_append_left _ inFront)
        · rcases List.mem_cons.mp inRest with rfl | inBack
          · exact ⟨n, Or.inl rfl, at_⟩
          · exact buf' c' (split ▸ List.mem_append_right _ inBack)
      · rintro m (rfl | inGot)
        · exact Or.inr ⟨c, List.mem_append_right _ List.mem_cons_self, at_.1⟩
        · exact (got m inGot).imp_right fun ⟨c', member, sn⟩ => ⟨c', moved c' member, sn⟩

/-- The number of a segment that has been got may be acknowledged. -/
theorem Queues.Gets.acknowledge (gets : q.Gets b read) {sn : IUINT32} {n : Nat}
    (got : n ∈ b.got) (eq : sn = BitVec.ofNat 32 n) :
    ({ q with acks := q.acks ++ [sn] } : Queues).Gets b read :=
  { gets with
    acks := fun sn' member => by
      rcases List.mem_append.mp member with old | new
      · exact gets.acks sn' old
      · exact ⟨n, got, (List.mem_singleton.mp new).trans eq⟩ }

/-- The stream that a control block gets may become longer. -/
theorem Queues.Gets.frame (gets : q.Gets b read) (fits : Fits b) (grows : Grows b b')
    (got : b'.got = b.got) (taken : b'.taken = b.taken) : q.Gets b' read := by
  obtain ⟨rcvNxt, rcvBuf, inGot, acks, reads⟩ := gets
  refine ⟨taken ▸ rcvNxt, ?_, ?_, got ▸ acks, ?_⟩
  · intro c member
    obtain ⟨n, known, at_⟩ := rcvBuf c member
    exact ⟨n, grows.got known, at_.mono grows⟩
  · rw [got, taken]
    exact inGot
  · obtain ⟨more, eq⟩ := grows.items
    have le := fits.sound.taken_le.trans fits.sound.sent_le
    rw [reads, taken, ← eq, List.take_append_of_le_length le]

end Getting

/-! ## The functions -/

section Functions

variable {q : Queues} {kcp : IKCPCB} {a b : Stream} {read : List (Nat × ByteString)}

/-- The queues serve both streams, after these have moved on. -/
def Queues.Moved (a b : Stream) (read : List (Nat × ByteString)) (q : Queues) : Prop :=
  ∃ a' b', Reaches a b a' b' ∧ q.Serves a' b' read

theorem Queues.Serves.moved (serves : q.Serves a b read) : q.Moved a b read :=
  ⟨a, b, .refl, serves⟩

theorem Queues.Moved.trans {a' b' : Stream} (reaches : Reaches a b a' b')
    (moved : q.Moved a' b' read) : q.Moved a b read := by
  obtain ⟨a'', b'', further, serves⟩ := moved
  exact ⟨a'', b'', reaches.trans further, serves⟩

theorem Queues.Serves.releases (serves : q.Serves a b read) {q' : Queues}
    {gone : IUINT32 → Prop} (released : q.Releases gone q')
    (known : ∀ n < a.sent, gone (BitVec.ofNat 32 n) → n ∈ a.got) : q'.Moved a b read := by
  obtain ⟨kept, moves, sends⟩ := serves.sends.releases serves.fits released known
  obtain ⟨buf, -, -, rfl⟩ := released
  exact ⟨_, b, ⟨moves, rfl, rfl, rfl, .refl, rfl, rfl, rfl⟩, sends, { serves.gets with },
    serves.fits.of_moves moves rfl, serves.fits'⟩

theorem Queues.Serves.shrink (serves : q.Serves a b read) : q.shrink.Serves a b read :=
  ⟨serves.sends.shrink, { serves.gets with }, serves.fits, serves.fits'⟩

theorem Queues.Serves.number (serves : q.Serves a b read) {c : Content} {rest : List Content}
    (first : q.sndQueue = c :: rest) : (q.number c rest).Moved a b read := by
  obtain ⟨step, sends⟩ := serves.sends.number first
  have moves := Relation.ReflTransGen.single step
  exact ⟨_, b, ⟨moves, rfl, rfl, rfl, .refl, rfl, rfl, rfl⟩, sends, { serves.gets with },
    serves.fits.of_moves moves rfl, serves.fits'⟩

theorem Queues.Serves.take (serves : q.Serves a b read) {c : Content} {rest : List Content}
    (first : q.rcvBuf = c :: rest) (next : c.sn = q.rcvNxt) :
    (q.take c rest).Moved a b read := by
  obtain ⟨step, gets⟩ := serves.gets.take serves.fits' first next
  have moves := Relation.ReflTransGen.single step
  exact ⟨a, _, ⟨.refl, rfl, rfl, rfl, moves, rfl, rfl, rfl⟩, { serves.sends with }, gets,
    serves.fits, serves.fits'.of_moves moves rfl⟩

theorem Queues.Serves.moveAvailable (serves : kcp.queues.Serves a b read) :
    (Kcp.moveAvailable kcp.rcvBuf kcp).queues.Moved a b read :=
  moveAvailable_induction kcp serves.moved fun _ _ _ ⟨_, _, reaches, serves⟩ first next _ =>
    (serves.take first next).trans reaches

theorem Queues.Serves.inputPush (serves : kcp.queues.Serves a b read) {h : Header}
    {data : ByteString} {n : Nat} (sent : n < b.sent) (at_ : (h.content data).IsAt b n) :
    (Kcp.inputPush kcp h data).queues.Moved a b read := by
  have sn : h.sn = BitVec.ofNat 32 n := at_.1
  rcases queues_inputPush kcp h data with ⟨-, eq⟩ | ⟨-, ⟨old, eq⟩ | ⟨-, kcp', stored, eq⟩⟩
  · rw [eq]
    exact serves.moved
  · rw [eq]
    -- a number behind those that are awaited has been got
    have less : n < b.taken := by
      rw [sn, serves.gets.rcvNxt, itimediff_ofNat (serves.fits'.lt sent.le)
        (serves.fits'.lt serves.fits'.sound.taken_le)] at old
      omega
    have acked := serves.gets.acknowledge (serves.fits'.sound.taken n less) sn
    exact Queues.Serves.moved ⟨{ serves.sends with }, acked, serves.fits, serves.fits'⟩
  · rw [eq]
    have moves : Moves b { b with got := insert n b.got } := .single (.get n sent)
    have gets : kcp'.queues.Gets { b with got := insert n b.got } read := by
      have before := serves.gets
      generalize kcp'.queues = q' at stored ⊢
      cases stored with
      | known old member same =>
          exact (before.stored (.known old member same) at_).acknowledge (Or.inl rfl) sn
      | fresh front back split first behind =>
          exact (before.stored (.fresh front back split first behind) at_).acknowledge
            (Or.inl rfl) sn
    have sends : kcp'.queues.Sends a := by
      have before := serves.sends
      generalize kcp'.queues = q' at stored ⊢
      cases stored <;> exact { before with }
    have after : kcp'.queues.Serves a { b with got := insert n b.got } read :=
      ⟨sends, gets, serves.fits, serves.fits'.of_moves moves rfl⟩
    exact after.moveAvailable.trans ⟨.refl, rfl, rfl, rfl, moves, rfl, rfl, rfl⟩

/-- A segment that is true moves the streams on. -/
theorem Queues.Serves.inputSegment (serves : kcp.queues.Serves a b read) (acks : MaxAck)
    {seg : IKCPSEG} (truth : seg.Truthful b a) :
    (Kcp.inputSegment kcp acks seg.header seg.data).1.queues.Moved a b read := by
  obtain ⟨q, released, cases_⟩ := queues_inputSegment kcp acks seg.header seg.data
  obtain ⟨u, le, una⟩ := truth.una
  have fits := serves.fits
  have moved := serves.releases released fun n sent gone => by
    have una' : seg.header.una = BitVec.ofNat 32 u := una
    rw [una', itimediff_ofNat (fits.lt (le.trans fits.sound.taken_le)) (fits.lt sent.le)] at gone
    exact fits.sound.taken n (by omega)
  obtain ⟨a', b', reaches, serves'⟩ := moved
  have truth' := truth.mono reaches.moves'.grows reaches.moves.grows
  have shrunk := serves'.shrink
  refine Queues.Moved.trans reaches ?_
  rcases cases_ with ⟨isAck, q', released', eq⟩ | ⟨isPush, kcp', before, eq⟩ | ⟨-, -, eq⟩
  · rw [eq]
    obtain ⟨m, got, sn⟩ := truth'.ack isAck
    obtain ⟨a'', b'', reaches', serves''⟩ := shrunk.releases released' fun n sent gone => by
      have same : BitVec.ofNat 32 n = seg.sn := gone
      rw [eq_of_ofNat_eq (shrunk.fits.lt sent.le) (shrunk.fits.got_lt got) (same.trans sn)]
      exact got
    exact serves''.shrink.moved.trans reaches'
  · rw [eq]
    obtain ⟨n, sent, at_⟩ := truth'.push isPush
    exact Queues.Serves.inputPush (before ▸ shrunk) sent at_
  · rw [eq]
    exact shrunk.moved

/-- A datagram as a peer puts it out: its segments are valid and true. -/
def Wire (a b : Stream) (datagram : ByteString) : Prop :=
  Datagram (fun seg => seg.Valid 0x123456 ∧ seg.Truthful a b) 1400 datagram

theorem Wire.mono {a' b' : Stream} {datagram : ByteString} (wire : Wire a b datagram)
    (grows : Grows a a') (grows' : Grows b b') : Wire a' b' datagram :=
  Datagram.mono wire fun _ ok => ⟨ok.1, ok.2.mono grows grows'⟩

theorem Queues.Serves.lkcpInput (serves : kcp.queues.Serves a b read) (ok : kcp.queues.Ok)
    {datagram : ByteString} (wire : Wire b a datagram) :
    (Kcp.lkcpInput kcp datagram).queues.Moved a b read := by
  have conv : kcp.conv = 0x123456 := ok.conv
  rw [lkcpInput_eq]
  refine (ikcpInput_datagram (P := Queues.Moved a b read) kcp wire (by decide)
    (fun seg ok => conv ▸ ok.1) serves.moved ?_).2
  rintro kcp' acks seg ⟨-, truth⟩ moved -
  obtain ⟨a', b', reaches, serves'⟩ := moved
  exact (serves'.inputSegment acks
    (truth.mono reaches.moves'.grows reaches.moves.grows)).trans reaches

/-- A flush moves the stream that is sent, and what it puts out is true. -/
theorem Queues.Serves.ikcpFlush (serves : kcp.queues.Serves a b read) (ok : kcp.queues.Ok) :
    ∃ a' b', Reaches a b a' b' ∧ (Kcp.ikcpFlush kcp).1.queues.Serves a' b' read ∧
      ∀ datagram ∈ (Kcp.ikcpFlush kcp).2, Wire a' b' datagram := by
  have idle : ({ kcp.queues with acks := [] } : Queues).Serves a b read :=
    ⟨{ serves.sends with },
      { serves.gets with acks := fun _ member => absurd member List.not_mem_nil },
      serves.fits, serves.fits'⟩
  have flushed : (Kcp.ikcpFlush kcp).1.queues.Moved a b read :=
    queues_ikcpFlush kcp serves.moved idle.moved
      fun _ _ _ _ ⟨_, _, reaches, serves⟩ first _ _ => (serves.number first).trans reaches
  obtain ⟨a', b', reaches, serves'⟩ := flushed
  have grows := reaches.moves'.grows
  have una : ∃ n ≤ b'.taken, kcp.rcvNxt = BitVec.ofNat 32 n :=
    ⟨b.taken, grows.taken, serves.gets.rcvNxt⟩
  refine ⟨a', b', reaches, serves', datagrams_valid ok ?_ ?_⟩
  · intro cmd sn ts command
    refine ⟨una, fun isPush => ?_, fun isAck => ?_⟩
    · have push : cmd = IKCP_CMD_PUSH := isPush
      rcases command with ⟨rfl, -⟩ | rfl | rfl <;> exact absurd push (by decide)
    · have ack : cmd = IKCP_CMD_ACK := isAck
      rcases command with ⟨-, member⟩ | rfl | rfl
      · exact (serves.gets.acks sn member).imp fun _ known => ⟨grows.got known.1, known.2⟩
      · exact absurd ack (by decide)
      · exact absurd ack (by decide)
  · intro seg member una'
    refine ⟨una' ▸ una, fun _ => serves'.sends.sndBuf _ member, fun isAck => ?_⟩
    have isPush : seg.cmd = IKCP_CMD_PUSH := (ok.ikcpFlush.sent _ member).2.1
    exact absurd (isPush.symm.trans isAck) (by decide)

theorem Queues.Serves.lkcpUpdate (serves : kcp.queues.Serves a b read) (ok : kcp.queues.Ok)
    (i : Int) :
    ∃ a' b', Reaches a b a' b' ∧ (Kcp.lkcpUpdate kcp i).1.queues.Serves a' b' read ∧
      ∀ datagram ∈ (Kcp.lkcpUpdate kcp i).2, Wire a' b' datagram := by
  obtain ⟨before, same, eq | eq⟩ := ikcpUpdate_cases kcp (BitVec.ofInt 32 (i * 10))
  · rw [Kcp.lkcpUpdate, eq]
    exact ⟨a, b, .refl, same ▸ serves, fun _ member => absurd member List.not_mem_nil⟩
  · rw [Kcp.lkcpUpdate, eq]
    exact Queues.Serves.ikcpFlush (same ▸ serves) (same ▸ ok)

/-- A message that is accepted is given to the stream. -/
theorem Queues.Serves.append (serves : q.Serves a b read) {parts : List ByteString}
    (few : parts.length < 128) (short : (a.items ++ pieces parts).length < 2147483648) :
    ({ q with sndQueue := q.sndQueue ++ fragments parts } : Queues).Serves
      { a with items := a.items ++ pieces parts } b read := by
  have grows := (moves_give (a := a) (pieces parts)).grows
  have fragments_ : (fragments parts).map Content.piece = pieces parts := by
    rw [fragments, List.map_map]
    refine (List.map_congr_left fun piece member => ?_).trans (List.map_id _)
    have less := fst_lt_of_mem_pieces member
    refine Prod.ext ?_ rfl
    change (BitVec.ofNat 32 piece.1).toNat = piece.1
    rw [BitVec.toNat_ofNat]
    omega
  refine ⟨⟨serves.sends.sndNxt, ?_, ?_, serves.sends.kept⟩, { serves.gets with },
    ⟨(moves_give _).sound serves.fits.sound, short⟩, serves.fits'⟩
  · rw [List.map_append, serves.sends.sndQueue, fragments_,
      List.drop_append_of_le_length serves.fits.sound.sent_le]
  · intro c member
    obtain ⟨n, sent, at_⟩ := serves.sends.sndBuf c member
    exact ⟨n, sent, at_.mono grows⟩

end Functions

end Kcp

end LuaServer
