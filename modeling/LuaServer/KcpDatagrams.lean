import LuaServer.KcpQueues

/-!
# The datagrams of kcp

A flush writes segments one behind the other into datagrams, and the input reads a datagram
segment by segment.  A peer accepts each datagram of a flush, and handles it as it would
handle its segments one after the other.
-/

namespace LuaServer

namespace Kcp

open MachineIntegers

section Functions

variable (kcp : IKCPCB)

/-! ## Flushing -/

/-- The first segment of `snd_queue` gets the next number. -/
def Queues.number (q : Queues) (c : Content) (rest : List Content) : Queues :=
  { q with
    sndQueue := rest
    sndBuf := q.sndBuf ++ [{ c with conv := q.conv, cmd := IKCP_CMD_PUSH, sn := q.sndNxt }]
    sndNxt := q.sndNxt + 1 }

theorem moveToBuffer_induction {P : Queues → Prop} {wnd cwnd : IUINT32} (start : P kcp.queues)
    (step : ∀ q c rest, P q → q.sndQueue = c :: rest →
      itimediff q.sndNxt (q.sndUna + cwnd) < 0 → P (q.number c rest)) :
    P (moveToBuffer wnd cwnd kcp.sndQueue kcp).queues := by
  generalize queueEq : kcp.sndQueue = queue
  induction queue generalizing kcp with
  | nil => exact start
  | cons seg rest ih =>
      rw [moveToBuffer]
      split
      · next room =>
        have moved := step kcp.queues seg.content (rest.map IKCPSEG.content) start
          (by simp [IKCPCB.queues, queueEq]) room
        refine ih _ ?_ rfl
        simpa [IKCPCB.queues, Queues.number, IKCPSEG.content] using moved
      · exact start

theorem content_needsend {resent rtomin : IUINT32} {segment segment' : IKCPSEG} {lost change : Bool}
    (sends : needsend kcp resent rtomin segment = some (segment', lost, change)) :
    segment'.content = segment.content := by
  rw [needsend] at sends
  split at sends
  · obtain ⟨rfl, -⟩ := Prod.mk.inj (Option.some.inj sends)
    rfl
  · split at sends
    · obtain ⟨rfl, -⟩ := Prod.mk.inj (Option.some.inj sends)
      rfl
    · split at sends
      · split at sends
        · obtain ⟨rfl, -⟩ := Prod.mk.inj (Option.some.inj sends)
          rfl
        · exact absurd sends (by simp)
      · exact absurd sends (by simp)

/-- A segment as it goes over the wire. -/
def IKCPSEG.wire (seg : IKCPSEG) : ByteString := ikcpEncodeSeg seg ++ seg.data

@[simp]
theorem length_wire (seg : IKCPSEG) : seg.wire.length = IKCP_OVERHEAD + seg.data.length := by
  rw [IKCPSEG.wire, List.length_append, length_ikcpEncodeSeg]

/-- A datagram is made of segments that pass a test, and has at most `mtu` bytes. -/
def Datagram (S : IKCPSEG → Prop) (mtu : Int) (datagram : ByteString) : Prop :=
  ∃ segs, segs ≠ [] ∧ (∀ seg ∈ segs, S seg) ∧ datagram = segs.flatMap IKCPSEG.wire ∧
    (datagram.length : Int) ≤ mtu

theorem Datagram.mono {S S' : IKCPSEG → Prop} {mtu : Int} {datagram : ByteString}
    (ok : Datagram S mtu datagram) (imp : ∀ seg, S seg → S' seg) : Datagram S' mtu datagram := by
  obtain ⟨segs, some_, all, eq, short⟩ := ok
  exact ⟨segs, some_, fun seg member => imp seg (all seg member), eq, short⟩

/-- What has been written so far is made of such segments. -/
structure Sink.Holds (S : IKCPSEG → Prop) (mtu : Int) (sink : Sink) : Prop where
  buffer : sink.buffer = [] ∨ Datagram S mtu sink.buffer
  out : ∀ datagram ∈ sink.out, Datagram S mtu datagram

section Writing

variable {S : IKCPSEG → Prop} {mtu : IUINT32} {sink : Sink}

theorem Sink.Holds.ikcpOutput (holds : sink.Holds S mtu.toInt) :
    sink.ikcpOutput.Holds S mtu.toInt := by
  refine ⟨Or.inl rfl, ?_⟩
  intro datagram member
  rw [Sink.ikcpOutput] at member
  split at member
  · exact holds.out datagram member
  · next some_ =>
    rcases List.mem_append.mp member with old | new
    · exact holds.out datagram old
    · rw [List.mem_singleton.mp new]
      exact holds.buffer.resolve_left fun none => some_ (List.length_eq_zero_iff.mpr none)

theorem Sink.Holds.write (holds : sink.Holds S mtu.toInt) {seg : IKCPSEG} (ok : S seg)
    (room : (seg.wire.length : Int) ≤ mtu.toInt) : (sink.write mtu seg).Holds S mtu.toInt := by
  have alone : Datagram S mtu.toInt seg.wire := ⟨[seg], List.cons_ne_nil _ _,
    fun _ member => List.mem_singleton.mp member ▸ ok, by simp, room⟩
  rw [length_wire] at room
  by_cases full : mtu.toInt < sink.buffer.length + (IKCP_OVERHEAD + seg.data.length)
  · have output := holds.ikcpOutput
    rw [Sink.write, if_pos full]
    refine ⟨Or.inr ?_, output.out⟩
    simpa [Sink.ikcpOutput, IKCPSEG.wire] using alone
  · rw [Sink.write, if_neg full]
    refine ⟨Or.inr ?_, holds.out⟩
    dsimp only
    rw [List.append_assoc, ← IKCPSEG.wire]
    rcases holds.buffer with none | ⟨segs, some_, all, eq, short⟩
    · rwa [none, List.nil_append]
    · refine ⟨segs ++ [seg], by simp, ?_, by simp [eq], ?_⟩
      · intro seg' member
        rcases List.mem_append.mp member with old | new
        · exact all seg' old
        · exact List.mem_singleton.mp new ▸ ok
      · rw [List.length_append, length_wire]
        push_cast at full ⊢
        omega

theorem Sink.Holds.flushAcks (holds : sink.Holds S mtu.toInt)
    (acklist : List (IUINT32 × IUINT32)) (seg : IKCPSEG)
    (ok : ∀ sn ts, sn ∈ acklist.map (·.1) → S { seg with sn := sn, ts := ts })
    (room : (seg.wire.length : Int) ≤ mtu.toInt) :
    (Kcp.flushAcks mtu acklist seg sink).2.Holds S mtu.toInt ∧
      ∃ sn ts, (Kcp.flushAcks mtu acklist seg sink).1 = { seg with sn := sn, ts := ts } := by
  induction acklist generalizing seg sink with
  | nil => exact ⟨holds, seg.sn, seg.ts, rfl⟩
  | cons ack acklist ih =>
      obtain ⟨sn, ts⟩ := ack
      rw [Kcp.flushAcks]
      refine ih (holds.write (ok sn ts List.mem_cons_self) ?_) { seg with sn := sn, ts := ts }
        (fun sn' ts' member => ok sn' ts' (List.mem_cons_of_mem _ member)) ?_
      · rwa [length_wire] at room ⊢
      · rwa [length_wire] at room ⊢

theorem Sink.Holds.flushProbe (holds : sink.Holds S kcp.mtu.toInt) (ask cmd : IUINT32)
    (seg : IKCPSEG) (ok : S { seg with cmd := cmd })
    (room : (seg.wire.length : Int) ≤ kcp.mtu.toInt) :
    (Kcp.flushProbe kcp ask cmd seg sink).2.Holds S kcp.mtu.toInt ∧
      ∃ cmd', (Kcp.flushProbe kcp ask cmd seg sink).1 = { seg with cmd := cmd' } := by
  rw [Kcp.flushProbe]
  split
  · exact ⟨holds.write ok (by rwa [length_wire] at room ⊢), cmd, rfl⟩
  · exact ⟨holds, seg.cmd, rfl⟩

theorem map_content_flushSegment (wnd resent rtomin : IUINT32) (f : Flushing) (seg : IKCPSEG) :
    (flushSegment kcp wnd resent rtomin f seg).sndBuf.map IKCPSEG.content =
      f.sndBuf.map IKCPSEG.content ++ [seg.content] := by
  rw [flushSegment]
  split
  · simp
  · next segment lost change sends =>
    rw [List.map_append, ← content_needsend kcp sends]
    rfl

/-- The loop over the data segments keeps their contents. -/
theorem map_content_foldl_flushSegment (wnd resent rtomin : IUINT32) (segs : List IKCPSEG)
    (f : Flushing) :
    (segs.foldl (flushSegment kcp wnd resent rtomin) f).sndBuf.map IKCPSEG.content =
      f.sndBuf.map IKCPSEG.content ++ segs.map IKCPSEG.content := by
  induction segs generalizing f with
  | nil => simp
  | cons seg segs ih =>
      rw [List.foldl_cons, ih, map_content_flushSegment, List.map_cons, List.append_assoc]
      rfl

theorem Sink.Holds.foldl_flushSegment {wnd resent rtomin : IUINT32} (segs : List IKCPSEG)
    (f : Flushing) (holds : f.sink.Holds S kcp.mtu.toInt)
    (ok : ∀ seg, seg.content ∈ segs.map IKCPSEG.content → seg.una = kcp.rcvNxt → seg.wnd = wnd →
      S seg)
    (room : ∀ seg ∈ segs, (seg.wire.length : Int) ≤ kcp.mtu.toInt) :
    (segs.foldl (flushSegment kcp wnd resent rtomin) f).sink.Holds S kcp.mtu.toInt := by
  induction segs generalizing f with
  | nil => exact holds
  | cons seg segs ih =>
      refine ih _ ?_ (fun seg' member => ok seg' (List.mem_cons_of_mem _ member))
        fun seg' member => room seg' (List.mem_cons_of_mem _ member)
      rw [flushSegment]
      split
      · exact holds
      · next segment lost change sends =>
        have content := content_needsend kcp sends
        have size : segment.data = seg.data := congrArg Content.data content
        refine holds.write (ok _ ?_ rfl rfl) ?_
        · rw [List.map_cons, ← content]
          exact List.mem_cons_self
        · have enough := room seg List.mem_cons_self
          rw [length_wire] at enough ⊢
          rwa [size]

end Writing

theorem sendWindow_le : sendWindow kcp ≤ kcp.sndWnd := by
  have left (a b : IUINT32) : imin a b ≤ a := by
    rw [imin]
    split
    · exact BitVec.le_refl a
    · next notLe => exact BitVec.le_of_lt (BitVec.not_le.mp notLe)
  have right (a b : IUINT32) : imin a b ≤ b := by
    rw [imin]
    split
    · assumption
    · exact BitVec.le_refl b
  rw [sendWindow]
  split
  · exact BitVec.le_trans (right _ _) (left _ _)
  · exact left _ _

@[simp]
theorem queues_flushCommands :
    (flushCommands kcp).1.queues = { kcp.queues with acks := [] } :=
  queues_probeWindow { kcp with acklist := [] }

/-- The segments with their numbers, before they are written. -/
def numbered (kcp : IKCPCB) (wnd : IUINT32) : IKCPCB :=
  moveToBuffer wnd (sendWindow kcp) kcp.sndQueue kcp

theorem queues_flushData (wnd : IUINT32) (sink : Sink) :
    (flushData kcp wnd sink).1.queues = (numbered kcp wnd).queues := by
  rw [flushData, queues_updateThreshold]
  have content := map_content_foldl_flushSegment (numbered kcp wnd)
  simp only [IKCPCB.queues, numbered] at content ⊢
  rw [content]
  rfl

/-- What holds of the queues without the acknowledgements, and is kept with each segment that
gets a number, holds after the flush. -/
theorem queues_ikcpFlush {P : Queues → Prop} (idle : P kcp.queues)
    (start : P { kcp.queues with acks := [] })
    (step : ∀ q c rest cwnd, P q → q.sndQueue = c :: rest → cwnd ≤ q.sndWnd →
      itimediff q.sndNxt (q.sndUna + cwnd) < 0 → P (q.number c rest)) :
    P (ikcpFlush kcp).1.queues := by
  rw [ikcpFlush]
  split
  · exact idle
  · rw [queues_flushData]
    have within := sendWindow_le (flushCommands kcp).1
    have both : P (numbered (flushCommands kcp).1 (ikcpWndUnused kcp)).queues ∧
        (numbered (flushCommands kcp).1 (ikcpWndUnused kcp)).queues.sndWnd =
          (flushCommands kcp).1.queues.sndWnd :=
      moveToBuffer_induction (P := fun q => P q ∧ q.sndWnd = (flushCommands kcp).1.queues.sndWnd)
        _ ⟨by rwa [queues_flushCommands], rfl⟩ fun q c rest holds queue room =>
          ⟨step q c rest _ holds.1 queue (holds.2 ▸ within) room, holds.2⟩
    exact both.1

/-- What is written of a flush: acknowledgements and commands about the window. -/
def Controls (S : IKCPSEG → Prop) : Prop :=
  ∀ cmd sn ts, cmd = IKCP_CMD_ACK ∧ sn ∈ kcp.queues.acks ∨ cmd = IKCP_CMD_WASK ∨
    cmd = IKCP_CMD_WINS → S (controlSegment kcp cmd sn ts)

theorem holds_flushCommands {S : IKCPSEG → Prop} (control : Controls kcp S)
    (wide : IKCP_OVERHEAD ≤ kcp.mtu.toInt) :
    (flushCommands kcp).2.Holds S kcp.mtu.toInt := by
  have room (cmd sn ts : IUINT32) :
      ((controlSegment kcp cmd sn ts).wire.length : Int) ≤ kcp.mtu.toInt := by
    rw [length_wire]
    exact wide
  have empty : (⟨[], []⟩ : Sink).Holds S kcp.mtu.toInt :=
    ⟨Or.inl rfl, fun _ member => absurd member List.not_mem_nil⟩
  obtain ⟨acks, sn, ts, seg⟩ := empty.flushAcks kcp.acklist (controlSegment kcp IKCP_CMD_ACK 0 0)
    (fun sn ts member => control _ sn ts (Or.inl ⟨rfl, member⟩)) (room _ _ _)
  have mtu : (probeWindow { kcp with acklist := [] }).mtu = kcp.mtu :=
    congrArg Queues.mtu (queues_probeWindow { kcp with acklist := [] })
  rw [flushCommands]
  generalize flushAcks kcp.mtu kcp.acklist (controlSegment kcp IKCP_CMD_ACK 0 0) ⟨[], []⟩ = acked
    at acks seg ⊢
  generalize probeWindow { kcp with acklist := [] } = probing at mtu ⊢
  obtain ⟨last, sink⟩ := acked
  dsimp only at seg
  subst seg
  rw [← mtu] at acks room ⊢
  obtain ⟨asks, cmd, seg⟩ := acks.flushProbe probing IKCP_ASK_SEND IKCP_CMD_WASK
    (controlSegment kcp IKCP_CMD_ACK sn ts) (control _ sn ts (Or.inr (Or.inl rfl))) (room _ _ _)
  obtain ⟨tells, -⟩ := asks.flushProbe probing IKCP_ASK_TELL IKCP_CMD_WINS
    (controlSegment kcp cmd sn ts) (control _ sn ts (Or.inr (Or.inr rfl))) (room _ _ _)
  dsimp only [controlSegment] at seg tells ⊢
  rw [← seg] at tells
  exact tells

/-- The datagrams of a flush are made of acknowledgements, of commands about the window and
of the segments in the buffer. -/
theorem datagrams_ikcpFlush {S : IKCPSEG → Prop} (control : Controls kcp S)
    (data : ∀ seg, seg.content ∈ (ikcpFlush kcp).1.queues.sndBuf → seg.una = kcp.rcvNxt →
      seg.wnd = ikcpWndUnused kcp → S seg)
    (room : ∀ c ∈ (ikcpFlush kcp).1.queues.sndBuf,
      (IKCP_OVERHEAD + c.data.length : Int) ≤ kcp.mtu.toInt)
    (wide : IKCP_OVERHEAD ≤ kcp.mtu.toInt) :
    ∀ datagram ∈ (ikcpFlush kcp).2, Datagram S kcp.mtu.toInt datagram := by
  rw [ikcpFlush] at data room ⊢
  split at data
  · next idle =>
    rw [if_pos idle]
    exact fun _ member => absurd member List.not_mem_nil
  · next active =>
    rw [if_neg active] at room ⊢
    rw [queues_flushData] at data room
    have kept : (numbered (flushCommands kcp).1 (ikcpWndUnused kcp)).queues.mtu = kcp.mtu ∧
        (numbered (flushCommands kcp).1 (ikcpWndUnused kcp)).queues.rcvNxt = kcp.rcvNxt :=
      moveToBuffer_induction (P := fun q => q.mtu = kcp.mtu ∧ q.rcvNxt = kcp.rcvNxt) _
        (by rw [queues_flushCommands]; exact ⟨rfl, rfl⟩) fun q c rest holds _ _ => holds
    have commands := holds_flushCommands kcp control wide
    rw [← show (numbered (flushCommands kcp).1 (ikcpWndUnused kcp)).mtu = kcp.mtu from kept.1]
      at commands room ⊢
    refine (Sink.Holds.ikcpOutput (commands.foldl_flushSegment _ _ ⟨_, [], _, _, _, _⟩ ?_ ?_)).out
    · intro seg member una wnd
      exact data seg member (una.trans kept.2) wnd
    · intro seg member
      rw [length_wire]
      exact room seg.content (List.mem_map_of_mem member)

/-! ## Input -/

/-- What a segment of the peer holds. -/
def Header.content (h : Header) (data : ByteString) : Content := ⟨h.conv, h.cmd, h.frg, h.sn, data⟩

/-- A number before the end of the window is acknowledged, and the segment is stored, unless
it has been received. -/
theorem queues_inputPush (h : Header) (data : ByteString) :
    let q := kcp.queues
    let after := (inputPush kcp h data).queues
    0 ≤ itimediff h.sn (q.rcvNxt + q.rcvWnd) ∧ after = q ∨
      itimediff h.sn (q.rcvNxt + q.rcvWnd) < 0 ∧
        (itimediff h.sn q.rcvNxt < 0 ∧ after = { q with acks := q.acks ++ [h.sn] } ∨
          0 ≤ itimediff h.sn q.rcvNxt ∧ ∃ kcp' : IKCPCB,
            { q with acks := q.acks ++ [h.sn] }.Stored (h.content data) kcp'.queues ∧
              after = (moveAvailable kcp'.rcvBuf kcp').queues) := by
  intro q after
  have pushed : (ikcpAckPush kcp h.sn h.ts).queues = { q with acks := q.acks ++ [h.sn] } := by
    simp [q, IKCPCB.queues, ikcpAckPush]
  by_cases inside : itimediff h.sn (kcp.rcvNxt + kcp.rcvWnd) < 0
  · refine Or.inr ⟨inside, ?_⟩
    by_cases ahead : 0 ≤ itimediff h.sn kcp.rcvNxt
    · refine Or.inr ⟨ahead, ?_⟩
      rcases ikcpParseData_cases (ikcpAckPush kcp h.sn h.ts)
        { ikcpSegmentNew data with
          conv := h.conv
          cmd := h.cmd
          frg := h.frg
          wnd := h.wnd
          ts := h.ts
          sn := h.sn
          una := h.una } with ⟨beyond | behind, -⟩ | ⟨-, -, kcp', stored, eq⟩
      · exact absurd beyond (not_le.mpr inside)
      · exact absurd behind (not_lt.mpr ahead)
      · refine ⟨kcp', pushed ▸ stored, ?_⟩
        simp only [after, inputPush, inside, if_true]
        rw [if_pos (show 0 ≤ itimediff h.sn (ikcpAckPush kcp h.sn h.ts).rcvNxt from ahead)]
        exact congrArg IKCPCB.queues eq
    · refine Or.inl ⟨not_le.mp ahead, ?_⟩
      simp only [after, inputPush, inside, if_true]
      rw [if_neg (show ¬ 0 ≤ itimediff h.sn (ikcpAckPush kcp h.sn h.ts).rcvNxt from ahead)]
      exact pushed
  · exact Or.inl ⟨not_lt.mp inside, by simp only [after, inputPush, inside, if_false, q]⟩

/-- What has been acknowledged is let go, and then the command is carried out. -/
theorem queues_inputSegment (acks : MaxAck) (h : Header) (data : ByteString) :
    let after := (inputSegment kcp acks h data).1.queues
    ∃ q, kcp.queues.Releases (fun sn => 0 < itimediff h.una sn) q ∧
      (h.cmd = IKCP_CMD_ACK ∧ (∃ q', q.shrink.Releases (· = h.sn) q' ∧ after = q'.shrink) ∨
        h.cmd = IKCP_CMD_PUSH ∧
          (∃ kcp' : IKCPCB, kcp'.queues = q.shrink ∧ after = (inputPush kcp' h data).queues) ∨
        h.cmd ≠ IKCP_CMD_ACK ∧ h.cmd ≠ IKCP_CMD_PUSH ∧ after = q.shrink) := by
  intro after
  refine ⟨_, releases_ikcpParseUna { kcp with rmtWnd := h.wnd } h.una, ?_⟩
  have shrunk := queues_ikcpShrinkBuf (ikcpParseUna { kcp with rmtWnd := h.wnd } h.una)
  rw [← shrunk]
  generalize shrinkEq : ikcpShrinkBuf (ikcpParseUna { kcp with rmtWnd := h.wnd } h.una) = kcp'
  by_cases isAck : h.cmd = IKCP_CMD_ACK
  · refine Or.inl ⟨isAck, ?_⟩
    simp only [after, inputSegment, shrinkEq, isAck, if_true, inputAck, queues_ikcpShrinkBuf]
    refine ⟨_, ?_, rfl⟩
    split
    · have acked := releases_ikcpParseAck
        (ikcpUpdateAck kcp' (BitVec.ofInt 32 (itimediff kcp'.current h.ts))) h.sn
      rwa [queues_ikcpUpdateAck] at acked
    · exact releases_ikcpParseAck kcp' h.sn
  · by_cases isPush : h.cmd = IKCP_CMD_PUSH
    · refine Or.inr (Or.inl ⟨isPush, kcp', rfl, ?_⟩)
      simp only [after, inputSegment, shrinkEq, isPush, if_true]
      rw [if_neg (by decide)]
    · refine Or.inr (Or.inr ⟨isAck, isPush, ?_⟩)
      simp only [after, inputSegment, shrinkEq, isAck, isPush, if_false]
      split <;> rfl

/-- What does not change. -/
structure Queues.SameLimits (q q' : Queues) : Prop where
  conv : q'.conv = q.conv
  mtu : q'.mtu = q.mtu
  mss : q'.mss = q.mss
  sndWnd : q'.sndWnd = q.sndWnd
  rcvWnd : q'.rcvWnd = q.rcvWnd
  stream : q'.stream = q.stream

theorem Queues.SameLimits.refl (q : Queues) : q.SameLimits q := ⟨rfl, rfl, rfl, rfl, rfl, rfl⟩

theorem Queues.SameLimits.trans {q q' q'' : Queues} (first : q.SameLimits q')
    (second : q'.SameLimits q'') : q.SameLimits q'' where
  conv := second.conv.trans first.conv
  mtu := second.mtu.trans first.mtu
  mss := second.mss.trans first.mss
  sndWnd := second.sndWnd.trans first.sndWnd
  rcvWnd := second.rcvWnd.trans first.rcvWnd
  stream := second.stream.trans first.stream

theorem sameLimits_moveAvailable :
    kcp.queues.SameLimits (moveAvailable kcp.rcvBuf kcp).queues :=
  moveAvailable_induction kcp (.refl _) fun _ _ _ same _ _ _ =>
    ⟨same.conv, same.mtu, same.mss, same.sndWnd, same.rcvWnd, same.stream⟩

theorem sameLimits_inputSegment (acks : MaxAck) (h : Header) (data : ByteString) :
    kcp.queues.SameLimits (inputSegment kcp acks h data).1.queues := by
  obtain ⟨q, ⟨buf, -, -, rfl⟩, cases_⟩ := queues_inputSegment kcp acks h data
  rcases cases_ with ⟨-, q', ⟨buf', -, -, rfl⟩, eq⟩ | ⟨-, kcp', before, eq⟩ | ⟨-, -, eq⟩
  · rw [eq]
    exact ⟨rfl, rfl, rfl, rfl, rfl, rfl⟩
  · have start : kcp.queues.SameLimits kcp'.queues := by
      rw [before]
      exact ⟨rfl, rfl, rfl, rfl, rfl, rfl⟩
    refine start.trans ?_
    rw [eq]
    rcases queues_inputPush kcp' h data with
      ⟨-, same⟩ | ⟨-, ⟨-, same⟩ | ⟨-, kcp'', stored, moved⟩⟩
    · rw [same]
      exact .refl _
    · rw [same]
      exact ⟨rfl, rfl, rfl, rfl, rfl, rfl⟩
    · rw [moved]
      refine Queues.SameLimits.trans ?_ (sameLimits_moveAvailable kcp'')
      generalize kcp''.queues = q'' at stored
      cases stored with
      | known => exact ⟨rfl, rfl, rfl, rfl, rfl, rfl⟩
      | fresh => exact ⟨rfl, rfl, rfl, rfl, rfl, rfl⟩
  · rw [eq]
    exact ⟨rfl, rfl, rfl, rfl, rfl, rfl⟩

/-- What is kept with each segment that passes the checks holds behind any datagram. -/
theorem inputLoop_induction {P : Queues → Prop} {fuel : Nat} {data : ByteString} {acks : MaxAck}
    (start : P kcp.queues)
    (step : ∀ (kcp : IKCPCB) acks h data, P kcp.queues → data.length = h.len.toNat →
      P (inputSegment kcp acks h data).1.queues) :
    P (inputLoop fuel data kcp acks).2.1.queues := by
  induction fuel generalizing kcp data acks with
  | zero => exact start
  | succ fuel ih =>
      rw [inputLoop]
      split
      · exact start
      · dsimp only
        split
        · exact start
        · split
          · exact start
          · next enough =>
            split
            · exact start
            · refine ih _ (step kcp acks _ _ start ?_)
              rw [List.length_take]
              have inside := (not_or.mp enough).1
              omega

theorem ikcpInput_induction {P : Queues → Prop} {data : ByteString} (start : P kcp.queues)
    (step : ∀ (kcp : IKCPCB) acks h data, P kcp.queues → data.length = h.len.toNat →
      P (inputSegment kcp acks h data).1.queues) :
    P (ikcpInput kcp data).2.queues := by
  rw [ikcpInput]
  split
  · exact start
  · have looped := @inputLoop_induction kcp P data.length data ⟨false, 0, 0⟩ start step
    dsimp only
    split
    · exact looped
    · dsimp only
      split <;> split <;> simpa using looped

/-- A segment that the peer accepts. -/
structure IKCPSEG.Valid (conv : IUINT32) (seg : IKCPSEG) : Prop extends seg.Fits where
  conv : seg.conv = conv
  command : seg.cmd = IKCP_CMD_PUSH ∨ seg.cmd = IKCP_CMD_ACK ∨ seg.cmd = IKCP_CMD_WASK ∨
    seg.cmd = IKCP_CMD_WINS
  short : seg.data.length < 2147483648

/-- The loop handles the segments of a datagram one after the other. -/
theorem inputLoop_wire {P : Queues → Prop} {conv : IUINT32} (segs : List IKCPSEG) {fuel : Nat}
    {acks : MaxAck} (enough : segs.length < fuel) (valid : ∀ seg ∈ segs, seg.Valid conv)
    (start : P kcp.queues) (conv_ : kcp.conv = conv)
    (step : ∀ (kcp : IKCPCB) acks, ∀ seg ∈ segs, P kcp.queues → kcp.conv = conv →
      P (inputSegment kcp acks seg.header seg.data).1.queues) :
    (inputLoop fuel (segs.flatMap IKCPSEG.wire) kcp acks).1 = 0 ∧
      P (inputLoop fuel (segs.flatMap IKCPSEG.wire) kcp acks).2.1.queues := by
  induction segs generalizing kcp fuel acks with
  | nil =>
      obtain ⟨more, rfl⟩ := Nat.exists_eq_add_of_lt enough
      exact ⟨rfl, start⟩
  | cons seg segs ih =>
      obtain ⟨more, rfl⟩ := Nat.exists_eq_add_of_lt enough
      have ok := valid seg List.mem_cons_self
      have header := decodeHeader_encode_seg ok.toFits (seg.data ++ segs.flatMap IKCPSEG.wire)
      have behind : (ikcpEncodeSeg seg ++ (seg.data ++ segs.flatMap IKCPSEG.wire)).drop
          IKCP_OVERHEAD = seg.data ++ segs.flatMap IKCPSEG.wire :=
        List.drop_left' (length_ikcpEncodeSeg seg)
      have len : seg.header.len.toNat = seg.data.length := by
        have short := ok.short
        rw [IKCPSEG.header, BitVec.toNat_ofNat]
        omega
      have signed : ¬ seg.header.len.toInt < 0 := by
        have short := ok.short
        rw [BitVec.toInt_eq_toNat_of_lt (by omega), len]
        omega
      have next := @ih (inputSegment kcp acks seg.header seg.data).1 ((seg :: segs).length + more)
        (inputSegment kcp acks seg.header seg.data).2 (by rw [List.length_cons]; omega)
        (fun seg' member => valid seg' (List.mem_cons_of_mem _ member))
        (step kcp acks seg List.mem_cons_self start conv_)
        ((sameLimits_inputSegment kcp acks seg.header seg.data).conv.trans conv_)
        fun kcp' acks' seg' member => step kcp' acks' seg' (List.mem_cons_of_mem _ member)
      rw [List.flatMap_cons, IKCPSEG.wire, List.append_assoc, inputLoop, if_neg ?_]
      · simp only [header, behind, len]
        rw [if_neg (by simpa [IKCPSEG.header] using ok.conv.trans conv_.symm),
          if_neg (by rw [not_or]; exact ⟨by simp, signed⟩), if_neg ?_]
        · rw [List.take_left, List.drop_left]
          exact next
        · rintro ⟨notPush, notAck, notWask, notWins⟩
          rcases ok.command with is | is | is | is
          · exact notPush is
          · exact notAck is
          · exact notWask is
          · exact notWins is
      · rw [List.length_append, length_ikcpEncodeSeg]
        omega

theorem length_mul_le_flatMap_wire (segs : List IKCPSEG) :
    segs.length * IKCP_OVERHEAD ≤ (segs.flatMap IKCPSEG.wire).length := by
  induction segs with
  | nil => exact Nat.le_of_eq (Nat.zero_mul _)
  | cons seg segs ih =>
      rw [List.flatMap_cons, List.length_append, length_wire, List.length_cons, Nat.succ_mul]
      omega

/-- A peer accepts a datagram of valid segments, and handles these one after the other. -/
theorem ikcpInput_datagram {P : Queues → Prop} {S : IKCPSEG → Prop} {mtu : Int}
    {datagram : ByteString} (ok : Datagram S mtu datagram) (short : mtu < 2147483648)
    (valid : ∀ seg, S seg → seg.Valid kcp.conv) (start : P kcp.queues)
    (step : ∀ (kcp' : IKCPCB) acks seg, S seg → P kcp'.queues → kcp'.conv = kcp.conv →
      P (inputSegment kcp' acks seg.header seg.data).1.queues) :
    (ikcpInput kcp datagram).1 = 0 ∧ P (ikcpInput kcp datagram).2.queues := by
  obtain ⟨segs, some_, all, rfl, le⟩ := ok
  have long := length_mul_le_flatMap_wire segs
  have positive := List.length_pos_iff.mpr some_
  rw [IKCP_OVERHEAD] at long
  have size : toInt32 (segs.flatMap IKCPSEG.wire).length = (segs.flatMap IKCPSEG.wire).length :=
    toInt32_of_range (by omega) (by omega)
  obtain ⟨code, looped⟩ := @inputLoop_wire kcp P kcp.conv segs (segs.flatMap IKCPSEG.wire).length
    ⟨false, 0, 0⟩ (by omega) (fun seg member => valid seg (all seg member)) start rfl
    fun kcp' acks seg member => step kcp' acks seg (all seg member)
  rw [ikcpInput, if_neg (by rw [size, IKCP_OVERHEAD]; omega)]
  dsimp only
  rw [if_neg (not_not.mpr code)]
  refine ⟨rfl, ?_⟩
  dsimp only
  split <;> split <;> simpa using looped

end Functions

end Kcp

end LuaServer
