import LuaServer.KcpSegments
import LuaServer.MachineIntegers

/-!
# The control block of kcp

Messages are cut into segments with consecutive numbers, which are sent until the peer
acknowledges them and handed on in the order of their numbers.  Numbers and times are of 32
bits and start again at zero; numbers with a sign are kept in 32 bits, too.
-/

namespace LuaServer

namespace Kcp

open MachineIntegers

abbrev IINT32 := BitVec 32

def IKCP_RTO_NDL : IINT32 := 30
def IKCP_RTO_MIN : IINT32 := 100
def IKCP_RTO_DEF : IINT32 := 200
def IKCP_RTO_MAX : IUINT32 := 60000
def IKCP_ASK_SEND : IUINT32 := 1
def IKCP_ASK_TELL : IUINT32 := 2
def IKCP_WND_SND : IUINT32 := 32
def IKCP_WND_RCV : IUINT32 := 128
def IKCP_MTU_DEF : IUINT32 := 1400
def IKCP_INTERVAL : IUINT32 := 100
def IKCP_DEADLINK : IUINT32 := 20
def IKCP_THRESH_INIT : IUINT32 := 2
def IKCP_THRESH_MIN : IUINT32 := 2
def IKCP_PROBE_INIT : IUINT32 := 7000
def IKCP_PROBE_LIMIT : IUINT32 := 120000
def IKCP_FASTACK_LIMIT : Int := 5

/-- `IKCPCB`: the counters of its queues are their lengths, and `acklist` has the numbers to
acknowledge with their times. -/
structure IKCPCB where
  conv : IUINT32
  mtu : IUINT32
  mss : IUINT32
  state : IUINT32
  sndUna : IUINT32
  sndNxt : IUINT32
  rcvNxt : IUINT32
  ssthresh : IUINT32
  rxRttval : IINT32
  rxSrtt : IINT32
  rxRto : IINT32
  rxMinrto : IINT32
  sndWnd : IUINT32
  rcvWnd : IUINT32
  rmtWnd : IUINT32
  cwnd : IUINT32
  probe : IUINT32
  current : IUINT32
  interval : IUINT32
  tsFlush : IUINT32
  xmit : IUINT32
  nodelay : IUINT32
  updated : IUINT32
  tsProbe : IUINT32
  probeWait : IUINT32
  deadLink : IUINT32
  incr : IUINT32
  sndQueue : List IKCPSEG
  rcvQueue : List IKCPSEG
  sndBuf : List IKCPSEG
  rcvBuf : List IKCPSEG
  acklist : List (IUINT32 × IUINT32)
  fastresend : Int
  fastlimit : Int
  nocwnd : Int
  stream : Int
  deriving DecidableEq

/-- `ikcp_create`. -/
def ikcpCreate (conv : IUINT32) : IKCPCB where
  conv := conv
  mtu := IKCP_MTU_DEF
  mss := IKCP_MTU_DEF - BitVec.ofNat 32 IKCP_OVERHEAD
  state := 0
  sndUna := 0
  sndNxt := 0
  rcvNxt := 0
  ssthresh := IKCP_THRESH_INIT
  rxRttval := 0
  rxSrtt := 0
  rxRto := IKCP_RTO_DEF
  rxMinrto := IKCP_RTO_MIN
  sndWnd := IKCP_WND_SND
  rcvWnd := IKCP_WND_RCV
  rmtWnd := IKCP_WND_RCV
  cwnd := 0
  probe := 0
  current := 0
  interval := IKCP_INTERVAL
  tsFlush := IKCP_INTERVAL
  xmit := 0
  nodelay := 0
  updated := 0
  tsProbe := 0
  probeWait := 0
  deadLink := IKCP_DEADLINK
  incr := 0
  sndQueue := []
  rcvQueue := []
  sndBuf := []
  rcvBuf := []
  acklist := []
  fastresend := 0
  fastlimit := IKCP_FASTACK_LIMIT
  nocwnd := 0
  stream := 0

/-- `ikcp_nodelay`. -/
def ikcpNodelay (kcp : IKCPCB) (nodelay interval resend nc : Int) : IKCPCB :=
  let kcp :=
    if 0 ≤ nodelay then
      { kcp with
        nodelay := BitVec.ofInt 32 nodelay
        rxMinrto := if nodelay ≠ 0 then IKCP_RTO_NDL else IKCP_RTO_MIN }
    else kcp
  let kcp :=
    if 0 ≤ interval then
      { kcp with
        interval := BitVec.ofInt 32
          (if 5000 < interval then 5000 else if interval < 10 then 10 else interval) }
    else kcp
  let kcp := if 0 ≤ resend then { kcp with fastresend := resend } else kcp
  if 0 ≤ nc then { kcp with nocwnd := nc } else kcp

/-! ## Receiving -/

/-- `ikcp_peeksize`: the data up to the first fragment that none follows. -/
def fragmentsSize (length : Int) : List IKCPSEG → Int
  | [] => length
  | seg :: rest =>
      let length := toInt32 (length + seg.data.length)
      if seg.frg = 0 then length else fragmentsSize length rest

/-- `ikcp_peeksize`. -/
def ikcpPeeksize (kcp : IKCPCB) : Int :=
  match kcp.rcvQueue with
  | [] => -1
  | seg :: _ =>
      if seg.frg = 0 then toInt32 seg.data.length
      else if kcp.rcvQueue.length < (seg.frg + 1).toNat then -1
      else fragmentsSize 0 kcp.rcvQueue

/-- `ikcp_recv`: the fragments are merged up to the first one that none follows. -/
def mergeFragments : List IKCPSEG → ByteString × List IKCPSEG
  | [] => ([], [])
  | seg :: rest =>
      if seg.frg = 0 then (seg.data, rest)
      else
        let (data, rest) := mergeFragments rest
        (seg.data ++ data, rest)

/-- `ikcp_recv` and `ikcp_parse_data`: available data is moved from `rcv_buf` to
`rcv_queue`. -/
def moveAvailable : List IKCPSEG → IKCPCB → IKCPCB
  | [], kcp => kcp
  | seg :: rest, kcp =>
      if seg.sn = kcp.rcvNxt ∧ kcp.rcvQueue.length < kcp.rcvWnd.toNat then
        moveAvailable rest { kcp with
          rcvBuf := rest
          rcvQueue := kcp.rcvQueue ++ [seg]
          rcvNxt := kcp.rcvNxt + 1 }
      else kcp

/-- `ikcp_recv`, with what it puts into the buffer.  Its assertion compares two sums of the
same lengths, which wrap only when there is more data than the buffer holds. -/
def ikcpRecv (kcp : IKCPCB) (len : Int) : Int × ByteString × IKCPCB :=
  let ispeek := len < 0
  if kcp.rcvQueue = [] then (-1, [], kcp)
  else
    let len := if len < 0 then -len else len
    let peeksize := ikcpPeeksize kcp
    if peeksize < 0 then (-2, [], kcp)
    else if len < peeksize then (-3, [], kcp)
    else
      let recover := kcp.rcvWnd.toNat ≤ kcp.rcvQueue.length
      let (data, rest) := mergeFragments kcp.rcvQueue
      let kcp := if ispeek then kcp else { kcp with rcvQueue := rest }
      let kcp := moveAvailable kcp.rcvBuf kcp
      let kcp :=
        if kcp.rcvQueue.length < kcp.rcvWnd.toNat ∧ recover then
          { kcp with probe := kcp.probe ||| IKCP_ASK_TELL }
        else kcp
      (toInt32 data.length, data, kcp)

/-! ## Sending -/

/-- `ikcp_send`: the rest of the data is cut into `left` fragments. -/
def sendFragments : Nat → ByteString → Int → Int → IKCPCB → Int × IKCPCB
  | 0, _, _, sent, kcp => (sent, kcp)
  | left + 1, buffer, len, sent, kcp =>
      let size := if kcp.mss.toInt < len then kcp.mss.toInt else len
      let seg := { ikcpSegmentNew (buffer.take size.toNat) with
        frg := if kcp.stream = 0 then BitVec.ofNat 32 left else 0 }
      sendFragments left (buffer.drop size.toNat) (len - size) (sent + size)
        { kcp with sndQueue := kcp.sndQueue ++ [seg] }

/-- `ikcp_send` behind what has gone into the previous segment. -/
def sendRest (kcp : IKCPCB) (buffer : ByteString) (len sent : Int) : Int × IKCPCB :=
  let count :=
    if len ≤ kcp.mss.toInt then 1 else ((BitVec.ofInt 32 len + kcp.mss - 1) / kcp.mss).toInt
  if IKCP_WND_RCV.toInt ≤ count then
    if kcp.stream ≠ 0 ∧ 0 < sent then (sent, kcp) else (-2, kcp)
  else
    let count := if count = 0 then 1 else count
    sendFragments count.toNat buffer len sent kcp

/-- `ikcp_send`. -/
def ikcpSend (kcp : IKCPCB) (buffer : ByteString) (len : Int) : Int × IKCPCB :=
  if len < 0 then (-1, kcp)
  else if kcp.stream ≠ 0 then
    match kcp.sndQueue.getLast? with
    | some old =>
        if old.data.length < kcp.mss.toNat then
          -- the data is appended to the previous segment
          let capacity := (kcp.mss - BitVec.ofNat 32 old.data.length).toInt
          let extend := if len < capacity then len else capacity
          let seg := { ikcpSegmentNew (old.data ++ buffer.take extend.toNat) with frg := 0 }
          let kcp := { kcp with sndQueue := kcp.sndQueue.dropLast ++ [seg] }
          if len - extend ≤ 0 then (extend, kcp)
          else sendRest kcp (buffer.drop extend.toNat) (len - extend) extend
        else if len ≤ 0 then (0, kcp)
        else sendRest kcp buffer len 0
    | none => if len ≤ 0 then (0, kcp) else sendRest kcp buffer len 0
  else sendRest kcp buffer len 0

/-! ## Acknowledgements -/

/-- `ikcp_update_ack`. -/
def ikcpUpdateAck (kcp : IKCPCB) (rtt : IINT32) : IKCPCB :=
  let kcp :=
    if kcp.rxSrtt = 0 then { kcp with rxSrtt := rtt, rxRttval := rtt.sdiv 2 }
    else
      let delta := (rtt - kcp.rxSrtt).toInt
      let delta := if delta < 0 then -delta else delta
      let rxSrtt := (7 * kcp.rxSrtt + rtt).sdiv 8
      { kcp with
        rxRttval := BitVec.ofInt 32 (((3 * kcp.rxRttval).toInt + delta).tdiv 4)
        rxSrtt := if rxSrtt.toInt < 1 then 1 else rxSrtt }
  let rto := kcp.rxSrtt + imax kcp.interval (4 * kcp.rxRttval)
  { kcp with rxRto := ibound kcp.rxMinrto rto IKCP_RTO_MAX }

/-- `ikcp_shrink_buf`. -/
def ikcpShrinkBuf (kcp : IKCPCB) : IKCPCB :=
  match kcp.sndBuf with
  | seg :: _ => { kcp with sndUna := seg.sn }
  | [] => { kcp with sndUna := kcp.sndNxt }

/-- `ikcp_parse_ack`: the segment with the number is deleted. -/
def removeSegment (sn : IUINT32) : List IKCPSEG → List IKCPSEG
  | [] => []
  | seg :: rest =>
      if sn = seg.sn then rest
      else if itimediff sn seg.sn < 0 then seg :: rest
      else seg :: removeSegment sn rest

/-- `ikcp_parse_ack`. -/
def ikcpParseAck (kcp : IKCPCB) (sn : IUINT32) : IKCPCB :=
  if itimediff sn kcp.sndUna < 0 ∨ 0 ≤ itimediff sn kcp.sndNxt then kcp
  else { kcp with sndBuf := removeSegment sn kcp.sndBuf }

/-- `ikcp_parse_una`. -/
def ikcpParseUna (kcp : IKCPCB) (una : IUINT32) : IKCPCB :=
  { kcp with sndBuf := kcp.sndBuf.dropWhile fun seg => 0 < itimediff una seg.sn }

/-- `ikcp_parse_fastack`: the segments that have been overtaken are counted. -/
def countFastack (sn ts : IUINT32) : List IKCPSEG → List IKCPSEG
  | [] => []
  | seg :: rest =>
      if itimediff sn seg.sn < 0 then seg :: rest
      else
        let seg :=
          if sn ≠ seg.sn ∧ 0 ≤ itimediff ts seg.ts then { seg with fastack := seg.fastack + 1 }
          else seg
        seg :: countFastack sn ts rest

/-- `ikcp_parse_fastack`. -/
def ikcpParseFastack (kcp : IKCPCB) (sn ts : IUINT32) : IKCPCB :=
  if itimediff sn kcp.sndUna < 0 ∨ 0 ≤ itimediff sn kcp.sndNxt then kcp
  else { kcp with sndBuf := countFastack sn ts kcp.sndBuf }

/-- `ikcp_ack_push`. -/
def ikcpAckPush (kcp : IKCPCB) (sn ts : IUINT32) : IKCPCB :=
  { kcp with acklist := kcp.acklist ++ [(sn, ts)] }

/-! ## Input -/

/-- `ikcp_parse_data`: the segments from the last one on, with a new one in its place,
unless its number is there. -/
def insertFromBack (newseg : IKCPSEG) : List IKCPSEG → List IKCPSEG
  | [] => [newseg]
  | seg :: before =>
      if seg.sn = newseg.sn then seg :: before
      else if 0 < itimediff newseg.sn seg.sn then newseg :: seg :: before
      else seg :: insertFromBack newseg before

/-- `ikcp_parse_data`. -/
def ikcpParseData (kcp : IKCPCB) (newseg : IKCPSEG) : IKCPCB :=
  let sn := newseg.sn
  if 0 ≤ itimediff sn (kcp.rcvNxt + kcp.rcvWnd) ∨ itimediff sn kcp.rcvNxt < 0 then kcp
  else
    let rcvBuf := (insertFromBack newseg kcp.rcvBuf.reverse).reverse
    moveAvailable rcvBuf { kcp with rcvBuf := rcvBuf }

/-- The acknowledgement with the highest number in a datagram, if there is one. -/
structure MaxAck where
  flag : Bool
  maxack : IUINT32
  latestTs : IUINT32

/-- `ikcp_input` with `IKCP_CMD_ACK`. -/
def inputAck (kcp : IKCPCB) (acks : MaxAck) (h : Header) : IKCPCB × MaxAck :=
  let kcp :=
    if 0 ≤ itimediff kcp.current h.ts then
      ikcpUpdateAck kcp (BitVec.ofInt 32 (itimediff kcp.current h.ts))
    else kcp
  let kcp := ikcpShrinkBuf (ikcpParseAck kcp h.sn)
  let acks : MaxAck :=
    if acks.flag = false then ⟨true, h.sn, h.ts⟩
    else if 0 < itimediff h.sn acks.maxack ∧ 0 < itimediff h.ts acks.latestTs then
      { acks with maxack := h.sn, latestTs := h.ts }
    else acks
  (kcp, acks)

/-- `ikcp_input` with `IKCP_CMD_PUSH`. -/
def inputPush (kcp : IKCPCB) (h : Header) (data : ByteString) : IKCPCB :=
  if itimediff h.sn (kcp.rcvNxt + kcp.rcvWnd) < 0 then
    let kcp := ikcpAckPush kcp h.sn h.ts
    if 0 ≤ itimediff h.sn kcp.rcvNxt then
      ikcpParseData kcp { ikcpSegmentNew data with
        conv := h.conv
        cmd := h.cmd
        frg := h.frg
        wnd := h.wnd
        ts := h.ts
        sn := h.sn
        una := h.una }
    else kcp
  else kcp

/-- `ikcp_input` with one segment that has passed the checks. -/
def inputSegment (kcp : IKCPCB) (acks : MaxAck) (h : Header) (data : ByteString) :
    IKCPCB × MaxAck :=
  let kcp := ikcpShrinkBuf (ikcpParseUna { kcp with rmtWnd := h.wnd } h.una)
  if h.cmd = IKCP_CMD_ACK then inputAck kcp acks h
  else if h.cmd = IKCP_CMD_PUSH then (inputPush kcp h data, acks)
  else if h.cmd = IKCP_CMD_WASK then
    ({ kcp with probe := kcp.probe ||| IKCP_ASK_TELL }, acks)
  else (kcp, acks)

/-- The loop of `ikcp_input` over the segments of a datagram. -/
def inputLoop : Nat → ByteString → IKCPCB → MaxAck → Int × IKCPCB × MaxAck
  | 0, _, kcp, acks => (0, kcp, acks)
  | fuel + 1, data, kcp, acks =>
      if data.length < IKCP_OVERHEAD then (0, kcp, acks)
      else
        let h := decodeHeader data
        let rest := data.drop IKCP_OVERHEAD
        if h.conv ≠ kcp.conv then (-1, kcp, acks)
        else if rest.length < h.len.toNat ∨ h.len.toInt < 0 then (-2, kcp, acks)
        else if h.cmd ≠ IKCP_CMD_PUSH ∧ h.cmd ≠ IKCP_CMD_ACK ∧ h.cmd ≠ IKCP_CMD_WASK ∧
            h.cmd ≠ IKCP_CMD_WINS then (-3, kcp, acks)
        else
          let (kcp, acks) := inputSegment kcp acks h (rest.take h.len.toNat)
          inputLoop fuel (rest.drop h.len.toNat) kcp acks

/-- `ikcp_input`: `cwnd` and `incr` when something has been acknowledged. -/
def grownWindow (kcp : IKCPCB) : IUINT32 × IUINT32 :=
  let mss := kcp.mss
  if kcp.cwnd < kcp.ssthresh then (kcp.cwnd + 1, kcp.incr + mss)
  else
    let incr := if kcp.incr < mss then mss else kcp.incr
    let incr := incr + (mss * mss / incr + mss / 16)
    (if (kcp.cwnd + 1) * mss ≤ incr then (incr + mss - 1) / (if 0 < mss then mss else 1)
      else kcp.cwnd, incr)

/-- `ikcp_input`: the window of the sender grows up to that of the receiver. -/
def openWindow (kcp : IKCPCB) : IKCPCB :=
  if kcp.cwnd < kcp.rmtWnd then
    let kcp := { kcp with cwnd := (grownWindow kcp).1, incr := (grownWindow kcp).2 }
    if kcp.rmtWnd < kcp.cwnd then
      { kcp with cwnd := kcp.rmtWnd, incr := kcp.rmtWnd * kcp.mss }
    else kcp
  else kcp

/-- `ikcp_input`. -/
def ikcpInput (kcp : IKCPCB) (data : ByteString) : Int × IKCPCB :=
  if toInt32 data.length < IKCP_OVERHEAD then (-1, kcp)
  else
    let prevUna := kcp.sndUna
    let (e, kcp, acks) := inputLoop data.length data kcp ⟨false, 0, 0⟩
    if e ≠ 0 then (e, kcp)
    else
      let kcp := if acks.flag then ikcpParseFastack kcp acks.maxack acks.latestTs else kcp
      (0, if 0 < itimediff kcp.sndUna prevUna then openWindow kcp else kcp)

/-! ## Output -/

/-- `ikcp_wnd_unused`. -/
def ikcpWndUnused (kcp : IKCPCB) : IUINT32 :=
  if kcp.rcvQueue.length < kcp.rcvWnd.toNat then
    kcp.rcvWnd - BitVec.ofNat 32 kcp.rcvQueue.length
  else 0

/-- The buffer of `ikcp_flush` up to `ptr`, and the datagrams that have been put out. -/
structure Sink where
  buffer : ByteString
  out : List ByteString

/-- `ikcp_output`. -/
def Sink.ikcpOutput (sink : Sink) : Sink :=
  ⟨[], if sink.buffer.length = 0 then sink.out else sink.out ++ [sink.buffer]⟩

/-- `ikcp_flush`: a segment is written behind the others, or into a new datagram when it
has no room there. -/
def Sink.write (sink : Sink) (mtu : IUINT32) (seg : IKCPSEG) : Sink :=
  let sink :=
    if mtu.toInt < sink.buffer.length + (IKCP_OVERHEAD + seg.data.length) then sink.ikcpOutput
    else sink
  { sink with buffer := sink.buffer ++ ikcpEncodeSeg seg ++ seg.data }

/-- `ikcp_flush`: acknowledges. -/
def flushAcks (mtu : IUINT32) : List (IUINT32 × IUINT32) → IKCPSEG → Sink → IKCPSEG × Sink
  | [], seg, sink => (seg, sink)
  | (sn, ts) :: acklist, seg, sink =>
      let seg := { seg with sn := sn, ts := ts }
      flushAcks mtu acklist seg (sink.write mtu seg)

/-- `ikcp_flush`: the time until the next probe. -/
def nextProbeWait (kcp : IKCPCB) : IUINT32 :=
  let probeWait := if kcp.probeWait < IKCP_PROBE_INIT then IKCP_PROBE_INIT else kcp.probeWait
  let probeWait := probeWait + probeWait / 2
  if IKCP_PROBE_LIMIT < probeWait then IKCP_PROBE_LIMIT else probeWait

/-- `ikcp_flush`: a remote window of size zero is probed. -/
def probeWindow (kcp : IKCPCB) : IKCPCB :=
  if kcp.rmtWnd = 0 then
    if kcp.probeWait = 0 then
      { kcp with
        probeWait := IKCP_PROBE_INIT
        tsProbe := kcp.current + IKCP_PROBE_INIT }
    else if 0 ≤ itimediff kcp.current kcp.tsProbe then
      { kcp with
        probeWait := nextProbeWait kcp
        tsProbe := kcp.current + nextProbeWait kcp
        probe := kcp.probe ||| IKCP_ASK_SEND }
    else kcp
  else { kcp with tsProbe := 0, probeWait := 0 }

/-- `ikcp_flush`: window probing commands. -/
def flushProbe (kcp : IKCPCB) (ask cmd : IUINT32) (seg : IKCPSEG) (sink : Sink) :
    IKCPSEG × Sink :=
  if kcp.probe &&& ask ≠ 0 then
    let seg := { seg with cmd := cmd }
    (seg, sink.write kcp.mtu seg)
  else (seg, sink)

/-- `ikcp_flush`: data is moved from `snd_queue` to `snd_buf` while the window has room. -/
def moveToBuffer (wnd cwnd : IUINT32) : List IKCPSEG → IKCPCB → IKCPCB
  | [], kcp => kcp
  | newseg :: rest, kcp =>
      if itimediff kcp.sndNxt (kcp.sndUna + cwnd) < 0 then
        let newseg := { newseg with
          conv := kcp.conv
          cmd := IKCP_CMD_PUSH
          wnd := wnd
          ts := kcp.current
          sn := kcp.sndNxt
          una := kcp.rcvNxt
          resendts := kcp.current
          rto := kcp.rxRto
          fastack := 0
          xmit := 0 }
        moveToBuffer wnd cwnd rest { kcp with
          sndQueue := rest
          sndBuf := kcp.sndBuf ++ [newseg]
          sndNxt := kcp.sndNxt + 1 }
      else kcp

/-- `ikcp_flush`: a segment that needs to be sent, with whether it counts as lost and
whether others have overtaken it. -/
def needsend (kcp : IKCPCB) (resent rtomin : IUINT32) (segment : IKCPSEG) :
    Option (IKCPSEG × Bool × Bool) :=
  let current := kcp.current
  if segment.xmit = 0 then
    some ({ segment with
      xmit := segment.xmit + 1
      rto := kcp.rxRto
      resendts := current + kcp.rxRto + rtomin }, false, false)
  else if 0 ≤ itimediff current segment.resendts then
    let rto :=
      if kcp.nodelay = 0 then segment.rto + imax segment.rto kcp.rxRto
      else
        let step : IINT32 := if kcp.nodelay < 2 then segment.rto else kcp.rxRto
        segment.rto + step.sdiv 2
    some ({ segment with xmit := segment.xmit + 1, rto := rto, resendts := current + rto },
      true, false)
  else if resent ≤ segment.fastack then
    if segment.xmit.toInt ≤ kcp.fastlimit ∨ kcp.fastlimit ≤ 0 then
      some ({ segment with
        xmit := segment.xmit + 1
        fastack := 0
        resendts := current + segment.rto }, false, true)
    else none
  else none

/-- The state of the loop of `ikcp_flush` over the segments. -/
structure Flushing where
  sink : Sink
  sndBuf : List IKCPSEG
  xmit : IUINT32
  state : IUINT32
  change : Bool
  lost : Bool

/-- `ikcp_flush` with one data segment. -/
def flushSegment (kcp : IKCPCB) (wnd resent rtomin : IUINT32) (f : Flushing)
    (segment : IKCPSEG) : Flushing :=
  match needsend kcp resent rtomin segment with
  | none => { f with sndBuf := f.sndBuf ++ [segment] }
  | some (segment, lost, change) =>
      let segment := { segment with ts := kcp.current, wnd := wnd, una := kcp.rcvNxt }
      { sink := f.sink.write kcp.mtu segment
        sndBuf := f.sndBuf ++ [segment]
        xmit := if lost then f.xmit + 1 else f.xmit
        state := if kcp.deadLink ≤ segment.xmit then -1 else f.state
        change := f.change || change
        lost := f.lost || lost }

/-- `ikcp_flush`: half of what is on the way, but not too little. -/
def halved (count : IUINT32) : IUINT32 :=
  if count / 2 < IKCP_THRESH_MIN then IKCP_THRESH_MIN else count / 2

/-- `ikcp_flush`: `ssthresh` and the window are updated. -/
def updateThreshold (kcp : IKCPCB) (cwnd resent : IUINT32) (change lost : Bool) : IKCPCB :=
  let ssthresh := halved (kcp.sndNxt - kcp.sndUna)
  let kcp :=
    if change then
      { kcp with
        ssthresh := ssthresh
        cwnd := ssthresh + resent
        incr := (ssthresh + resent) * kcp.mss }
    else kcp
  let kcp := if lost then { kcp with ssthresh := halved cwnd, cwnd := 1, incr := kcp.mss } else kcp
  if kcp.cwnd < 1 then { kcp with cwnd := 1, incr := kcp.mss } else kcp

/-- A segment without data: an acknowledgement or a command about the window. -/
def controlSegment (kcp : IKCPCB) (cmd sn ts : IUINT32) : IKCPSEG :=
  { ikcpSegmentNew [] with
    conv := kcp.conv
    cmd := cmd
    wnd := ikcpWndUnused kcp
    una := kcp.rcvNxt
    sn := sn
    ts := ts }

/-- `ikcp_flush`: acknowledges and window probing commands. -/
def flushCommands (kcp : IKCPCB) : IKCPCB × Sink :=
  let (seg, sink) := flushAcks kcp.mtu kcp.acklist (controlSegment kcp IKCP_CMD_ACK 0 0) ⟨[], []⟩
  let kcp := probeWindow { kcp with acklist := [] }
  let (seg, sink) := flushProbe kcp IKCP_ASK_SEND IKCP_CMD_WASK seg sink
  let (_, sink) := flushProbe kcp IKCP_ASK_TELL IKCP_CMD_WINS seg sink
  ({ kcp with probe := 0 }, sink)

/-- `ikcp_flush`: the size of the window. -/
def sendWindow (kcp : IKCPCB) : IUINT32 :=
  let cwnd := imin kcp.sndWnd kcp.rmtWnd
  if kcp.nocwnd = 0 then imin kcp.cwnd cwnd else cwnd

/-- `ikcp_flush`: data segments. -/
def flushData (kcp : IKCPCB) (wnd : IUINT32) (sink : Sink) : IKCPCB × List ByteString :=
  let cwnd := sendWindow kcp
  let kcp := moveToBuffer wnd cwnd kcp.sndQueue kcp
  let resent := if 0 < kcp.fastresend then BitVec.ofInt 32 kcp.fastresend else 0xffffffff
  let rtomin := if kcp.nodelay = 0 then kcp.rxRto.sshiftRight 3 else 0
  let f := kcp.sndBuf.foldl (flushSegment kcp wnd resent rtomin)
    ⟨sink, [], kcp.xmit, kcp.state, false, false⟩
  let kcp := { kcp with sndBuf := f.sndBuf, xmit := f.xmit, state := f.state }
  (updateThreshold kcp cwnd resent f.change f.lost, f.sink.ikcpOutput.out)

/-- `ikcp_flush`, with the datagrams it puts out. -/
def ikcpFlush (kcp : IKCPCB) : IKCPCB × List ByteString :=
  if kcp.updated = 0 then (kcp, [])
  else flushData (flushCommands kcp).1 (ikcpWndUnused kcp) (flushCommands kcp).2

/-- `ikcp_update`: the time since the next flush was due, which starts again when it is far
away. -/
def restartFlush (kcp : IKCPCB) (current : IUINT32) : Int × IKCPCB :=
  let tsFlush := if kcp.updated = 0 then current else kcp.tsFlush
  let slap := itimediff current tsFlush
  let late := 10000 ≤ slap ∨ slap < -10000
  (if late then 0 else slap, { kcp with
    current := current
    updated := if kcp.updated = 0 then 1 else kcp.updated
    tsFlush := if late then current else tsFlush })

/-- `ikcp_update`: the time of the flush after this one. -/
def nextFlush (kcp : IKCPCB) : IUINT32 :=
  let tsFlush := kcp.tsFlush + kcp.interval
  if 0 ≤ itimediff kcp.current tsFlush then kcp.current + kcp.interval else tsFlush

/-- `ikcp_update`, with the datagrams it puts out. -/
def ikcpUpdate (kcp : IKCPCB) (current : IUINT32) : IKCPCB × List ByteString :=
  let (slap, kcp) := restartFlush kcp current
  if 0 ≤ slap then ikcpFlush { kcp with tsFlush := nextFlush kcp } else (kcp, [])

/-! ## The binding -/

/-- `create` of the binding. -/
def lkcpCreate : IKCPCB := ikcpNodelay (ikcpCreate 0x123456) 2 10 2 1

/-- The binding does not look at the result of a call. -/
def ignoreResult (result : Int × IKCPCB) : IKCPCB := result.2

/-- `send` of the binding. -/
def lkcpSend (kcp : IKCPCB) (str : ByteString) : IKCPCB :=
  ignoreResult (ikcpSend kcp str (toInt32 str.length))

/-- `update` of the binding, with the strings it hands to the script. -/
def lkcpUpdate (kcp : IKCPCB) (i : Int) : IKCPCB × List ByteString :=
  ikcpUpdate kcp (BitVec.ofInt 32 (i * 10))

/-- `input` of the binding. -/
def lkcpInput (kcp : IKCPCB) (str : ByteString) : IKCPCB :=
  ignoreResult (ikcpInput kcp str)

/-- What `recv` of the binding does: it returns a string, nothing, or fails. -/
inductive Received
  | str (data : ByteString)
  | nothing
  | error
  deriving DecidableEq

/-- The size of the buffer of `recv`. -/
def RECV_SIZE : Nat := 1024 * 100

/-- `recv` of the binding. -/
def lkcpRecv (kcp : IKCPCB) : Received × IKCPCB :=
  let (len, data, kcp) := ikcpRecv kcp RECV_SIZE
  if 0 < len then (.str data, kcp)
  else if len = -3 then (.error, kcp)
  else (.nothing, kcp)

end Kcp

end LuaServer
