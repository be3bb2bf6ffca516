import LuaServer.KcpDatagrams

/-!
# The windows of kcp

Whatever a peer sends, a control block keeps a bounded number of segments, in the order of
their numbers, and puts out datagrams that any peer accepts.
-/

namespace LuaServer

namespace Kcp

open SerialNumbers

/-- The limits that the binding has set. -/
structure Queues.Limits (q : Queues) : Prop where
  conv : q.conv = 0x123456
  mtu : q.mtu = 1400
  mss : q.mss = 1376
  sndWnd : q.sndWnd = 32
  rcvWnd : q.rcvWnd = 128
  stream : q.stream = 0

/-- What has been received lies in the window, in the order of the numbers. -/
structure Queues.RecvWindow (q : Queues) : Prop where
  queue : q.rcvQueue.length ≤ 128
  inside : ∀ c ∈ q.rcvBuf, offset q.rcvNxt c.sn < 128
  sorted : q.rcvBuf.Pairwise fun c c' => offset q.rcvNxt c.sn < offset q.rcvNxt c'.sn

/-- What is on the way lies in the window, in the order of the numbers. -/
structure Queues.SendWindow (q : Queues) : Prop where
  within : ∀ c ∈ q.sndBuf, offset q.sndUna c.sn < offset q.sndUna q.sndNxt
  ordered : q.sndBuf.Pairwise fun c c' => offset q.sndUna c.sn < offset q.sndUna c'.sn
  width : offset q.sndUna q.sndNxt ≤ 32

/-- What is to be sent fits a header and a datagram. -/
structure Queues.Parcels (q : Queues) : Prop where
  queued : ∀ c ∈ q.sndQueue, c.frg.toNat < 256 ∧ c.data.length ≤ 1376
  sent : ∀ c ∈ q.sndBuf,
    c.conv = q.conv ∧ c.cmd = IKCP_CMD_PUSH ∧ c.frg.toNat < 256 ∧ c.data.length ≤ 1376

/-- What holds of the queues in every state. -/
structure Queues.Ok (q : Queues) : Prop
    extends q.Limits, q.RecvWindow, q.SendWindow, q.Parcels where
  eager : q.Eager

/-- As many numbers as a window has room for. -/
theorem length_le_of_offsets {base : IUINT32} {size : Nat} {segs : List Content}
    (inside : ∀ c ∈ segs, offset base c.sn < size)
    (sorted : segs.Pairwise fun c c' => offset base c.sn < offset base c'.sn) :
    segs.length ≤ size := by
  have nodup : (segs.map fun c => offset base c.sn).Nodup :=
    List.pairwise_map.mpr (sorted.imp fun less => less.ne)
  have within : (segs.map fun c => offset base c.sn) ⊆ List.range size := by
    intro n member
    obtain ⟨c, inSegs, rfl⟩ := List.mem_map.mp member
    exact List.mem_range.mpr (inside c inSegs)
  have short := (nodup.subperm within).length_le
  rwa [List.length_map, List.length_range] at short

section Receiving

variable {q q' : Queues}

theorem Queues.RecvWindow.take (window : q.RecvWindow) (limits : q.Limits) {c : Content}
    {rest : List Content} (first : q.rcvBuf = c :: rest)
    (room : q.rcvQueue.length < q.rcvWnd.toNat) : (q.take c rest).RecvWindow := by
  obtain ⟨queue, inside, sorted⟩ := window
  rw [first] at inside sorted
  obtain ⟨least, sorted⟩ := List.pairwise_cons.mp sorted
  have shift (c' : Content) (member : c' ∈ rest) :
      0 < offset q.rcvNxt c'.sn ∧
        offset (q.rcvNxt + 1) c'.sn = offset q.rcvNxt c'.sn - 1 := by
    have ahead := (Nat.zero_le _).trans_lt (least c' member)
    exact ⟨ahead, offset_add_one_left ahead⟩
  rw [limits.rcvWnd] at room
  refine ⟨?_, ?_, ?_⟩
  · rw [Queues.take, List.length_append]
    exact room
  · intro c' member
    have small := inside c' (List.mem_cons_of_mem c member)
    rw [Queues.take, (shift c' member).2]
    omega
  · refine List.Pairwise.imp_of_mem ?_ sorted
    intro c₁ c₂ member₁ member₂ less
    rw [Queues.take, (shift c₁ member₁).2, (shift c₂ member₂).2]
    have positive := (shift c₁ member₁).1
    omega

theorem Queues.RecvWindow.stored (window : q.RecvWindow) (limits : q.Limits) {c : Content}
    (stored : q.Stored c q') (beyond : itimediff c.sn (q.rcvNxt + q.rcvWnd) < 0)
    (ahead : 0 ≤ itimediff c.sn q.rcvNxt) : q'.RecvWindow := by
  obtain ⟨small, near⟩ := offset_lt_of_window ahead beyond
  rw [limits.rcvWnd] at small
  have small : offset q.rcvNxt c.sn < 128 := small
  cases stored with
  | known => exact window
  | fresh front back split before behind =>
      obtain ⟨queue, inside, sorted⟩ := window
      rw [split] at inside sorted
      obtain ⟨sortedFront, sortedBack, apart⟩ := List.pairwise_append.mp sorted
      -- comparing with the times is comparing the offsets in the window
      have compare (old : Content) (member : old ∈ front ++ back) :
          itimediff c.sn old.sn = offset q.rcvNxt c.sn - offset q.rcvNxt old.sn :=
        distance_eq_offset_sub near (by have le := inside old member; omega)
      have least (old : Content) (member : old ∈ front) :
          offset q.rcvNxt old.sn < offset q.rcvNxt c.sn := by
        have nonempty := List.ne_nil_of_mem member
        have lastLess := before _ (List.getLast?_eq_some_getLast nonempty)
        rw [compare _ (List.mem_append_left _ (List.getLast_mem nonempty))] at lastLess
        have chained := sortedFront
        rw [← List.dropLast_append_getLast nonempty] at chained member
        rcases List.mem_append.mp member with early | last
        · have less := (List.pairwise_append.mp chained).2.2 old early _ (List.mem_singleton_self _)
          omega
        · rw [List.mem_singleton.mp last]
          omega
      have greatest (old : Content) (member : old ∈ back) :
          offset q.rcvNxt c.sn < offset q.rcvNxt old.sn := by
        obtain ⟨other, le⟩ := behind old member
        rw [compare old (List.mem_append_right _ member)] at le
        have differ : offset q.rcvNxt old.sn ≠ offset q.rcvNxt c.sn := mt offset_inj.mp other
        omega
      refine ⟨queue, ?_, ?_⟩
      · intro c' member
        rcases List.mem_append.mp member with inFront | inRest
        · exact inside c' (List.mem_append_left _ inFront)
        · rcases List.mem_cons.mp inRest with rfl | inBack
          · exact small
          · exact inside c' (List.mem_append_right _ inBack)
      · refine List.pairwise_append.mpr
          ⟨sortedFront, List.pairwise_cons.mpr ⟨greatest, sortedBack⟩, ?_⟩
        intro old inFront c' inRest
        rcases List.mem_cons.mp inRest with rfl | inBack
        · exact least old inFront
        · exact apart old inFront c' inBack

end Receiving

section Sending

variable {q q' : Queues}

theorem Queues.SendWindow.releases (window : q.SendWindow) {gone : IUINT32 → Prop}
    (released : q.Releases gone q') : q'.SendWindow := by
  obtain ⟨buf, sublist, -, rfl⟩ := released
  exact ⟨fun c member => window.within c (sublist.subset member), window.ordered.sublist sublist,
    window.width⟩

theorem Queues.SendWindow.shrink (window : q.SendWindow) : q.shrink.SendWindow := by
  obtain ⟨inside, sorted, width⟩ := window
  cases buf : q.sndBuf with
  | nil =>
      refine ⟨?_, ?_, ?_⟩ <;> simp [Queues.shrink, buf]
  | cons c rest =>
      rw [buf] at inside sorted
      have first := inside c List.mem_cons_self
      have le (c' : Content) (member : c' ∈ c :: rest) :
          offset q.sndUna c.sn ≤ offset q.sndUna c'.sn := by
        rcases List.mem_cons.mp member with rfl | later
        · exact le_rfl
        · exact ((List.pairwise_cons.mp sorted).1 c' later).le
      have una : q.shrink.sndUna = c.sn := by simp [Queues.shrink, buf]
      have nxt : q.shrink.sndNxt = q.sndNxt := rfl
      have same : q.shrink.sndBuf = c :: rest := buf
      refine ⟨?_, ?_, ?_⟩
      · intro c' member
        rw [same] at member
        rw [una, nxt, offset_of_le (le c' member), offset_of_le first.le]
        have less := inside c' member
        have ge := le c' member
        omega
      · rw [same]
        refine List.Pairwise.imp_of_mem ?_ sorted
        intro c₁ c₂ member₁ member₂ less
        rw [una, offset_of_le (le c₁ member₁), offset_of_le (le c₂ member₂)]
        have ge := le c₁ member₁
        omega
      · rw [una, nxt, offset_of_le first.le]
        omega

theorem Queues.SendWindow.number (window : q.SendWindow) (limits : q.Limits) {c : Content}
    {rest : List Content} {cwnd : IUINT32} (within : cwnd ≤ q.sndWnd)
    (room : itimediff q.sndNxt (q.sndUna + cwnd) < 0) : (q.number c rest).SendWindow := by
  obtain ⟨inside, sorted, width⟩ := window
  have ahead : distance q.sndNxt q.sndUna = offset q.sndUna q.sndNxt := by
    have exact_ := @distance_eq_offset_sub 32 q.sndUna q.sndNxt q.sndUna (by omega) (by simp)
    rw [exact_, offset_self]
    omega
  have small := (offset_lt_of_window (by rw [ahead]; omega) room).1
  have le : cwnd.toNat ≤ 32 := by
    rw [limits.sndWnd] at within
    exact BitVec.le_def.mp within
  have next : offset q.sndUna (q.sndNxt + 1) = offset q.sndUna q.sndNxt + 1 :=
    offset_add_one_right (by omega)
  refine ⟨?_, ?_, ?_⟩
  · intro c' member
    rw [Queues.number] at member ⊢
    rw [next]
    rcases List.mem_append.mp member with old | new
    · exact (inside c' old).trans (Nat.lt_succ_self _)
    · rw [List.mem_singleton.mp new]
      exact Nat.lt_succ_self _
  · refine List.pairwise_append.mpr ⟨sorted, List.pairwise_singleton .., ?_⟩
    intro old member c' new
    rw [List.mem_singleton.mp new]
    exact inside old member
  · rw [Queues.number, next]
    omega

end Sending

section Functions

variable {q q' : Queues} {kcp : IKCPCB}

theorem Queues.Ok.releases (ok : q.Ok) {gone : IUINT32 → Prop} (released : q.Releases gone q') :
    q'.Ok := by
  have window := ok.toSendWindow.releases released
  obtain ⟨buf, sublist, -, rfl⟩ := released
  exact { window with
    toLimits := ⟨ok.conv, ok.mtu, ok.mss, ok.sndWnd, ok.rcvWnd, ok.stream⟩
    toRecvWindow := ⟨ok.queue, ok.inside, ok.sorted⟩
    queued := ok.queued
    sent := fun c member => ok.sent c (sublist.subset member)
    eager := ok.eager }

theorem Queues.Ok.shrink (ok : q.Ok) : q.shrink.Ok :=
  { ok.toSendWindow.shrink with
    toLimits := ⟨ok.conv, ok.mtu, ok.mss, ok.sndWnd, ok.rcvWnd, ok.stream⟩
    toRecvWindow := ⟨ok.queue, ok.inside, ok.sorted⟩
    queued := ok.queued
    sent := ok.sent
    eager := ok.eager }

theorem Queues.Ok.number (ok : q.Ok) {c : Content} {rest : List Content} {cwnd : IUINT32}
    (first : q.sndQueue = c :: rest) (within : cwnd ≤ q.sndWnd)
    (room : itimediff q.sndNxt (q.sndUna + cwnd) < 0) : (q.number c rest).Ok :=
  { ok.toSendWindow.number ok.toLimits within room with
    toLimits := ⟨ok.conv, ok.mtu, ok.mss, ok.sndWnd, ok.rcvWnd, ok.stream⟩
    toRecvWindow := ⟨ok.queue, ok.inside, ok.sorted⟩
    queued := fun c' member => ok.queued c' (first ▸ List.mem_cons_of_mem c member)
    sent := fun c' member => by
      rcases List.mem_append.mp member with old | new
      · exact ok.sent c' old
      · rw [List.mem_singleton.mp new]
        obtain ⟨frg, size⟩ := ok.queued c (first ▸ List.mem_cons_self)
        exact ⟨rfl, rfl, frg, size⟩
    eager := ok.eager }

/-- Segments that have become available are moved, whatever comes before. -/
theorem Queues.Ok.moveAvailable (limits : kcp.queues.Limits) (recv : kcp.queues.RecvWindow)
    (send : kcp.queues.SendWindow) (parcels : kcp.queues.Parcels) :
    (Kcp.moveAvailable kcp.rcvBuf kcp).queues.Ok := by
  have moved := moveAvailable_induction
    (P := fun q => q.Limits ∧ q.RecvWindow ∧ q.SendWindow ∧ q.Parcels) kcp
    ⟨limits, recv, send, parcels⟩ fun q c rest holds first _ room => by
      obtain ⟨limits, recv, send, parcels⟩ := holds
      exact ⟨⟨limits.conv, limits.mtu, limits.mss, limits.sndWnd, limits.rcvWnd, limits.stream⟩,
        recv.take limits first room, ⟨send.within, send.ordered, send.width⟩,
        ⟨parcels.queued, parcels.sent⟩⟩
  obtain ⟨limits, recv, send, parcels⟩ := moved
  exact { limits, recv, send, parcels with eager := eager_moveAvailable kcp }

theorem Queues.Ok.inputPush (ok : kcp.queues.Ok) (h : Header) (data : ByteString) :
    (Kcp.inputPush kcp h data).queues.Ok := by
  rcases queues_inputPush kcp h data with
    ⟨-, eq⟩ | ⟨inside, ⟨-, eq⟩ | ⟨ahead, kcp', stored, eq⟩⟩
  · rwa [eq]
  · rw [eq]
    exact { ok with }
  · rw [eq]
    have limits : ({ kcp.queues with acks := kcp.queues.acks ++ [h.sn] } : Queues).Limits :=
      { ok with }
    have recv : ({ kcp.queues with acks := kcp.queues.acks ++ [h.sn] } : Queues).RecvWindow :=
      { ok with }
    refine .moveAvailable ?_ (recv.stored limits stored inside ahead) ?_ ?_
    · generalize kcp'.queues = q at stored
      cases stored <;> exact { ok with }
    · generalize kcp'.queues = q at stored
      cases stored <;> exact { ok with }
    · generalize kcp'.queues = q at stored
      cases stored <;> exact { ok with }

theorem Queues.Ok.inputSegment (ok : kcp.queues.Ok) (acks : MaxAck) (h : Header)
    (data : ByteString) : (Kcp.inputSegment kcp acks h data).1.queues.Ok := by
  obtain ⟨q, released, cases_⟩ := queues_inputSegment kcp acks h data
  have shrunk := (ok.releases released).shrink
  rcases cases_ with ⟨-, q', released', eq⟩ | ⟨-, kcp', before, eq⟩ | ⟨-, -, eq⟩
  · rw [eq]
    exact (shrunk.releases released').shrink
  · rw [eq]
    exact Queues.Ok.inputPush (before ▸ shrunk) h data
  · rwa [eq]

theorem Queues.Ok.ikcpFlush (ok : kcp.queues.Ok) : (Kcp.ikcpFlush kcp).1.queues.Ok :=
  queues_ikcpFlush kcp ok { ok with } fun _ _ _ _ ok first within room =>
    ok.number first within room

/-- An update flushes, or puts nothing out. -/
theorem ikcpUpdate_cases (kcp : IKCPCB) (current : IUINT32) :
    ∃ before : IKCPCB, before.queues = kcp.queues ∧
      (ikcpUpdate kcp current = (before, []) ∨
        ikcpUpdate kcp current = Kcp.ikcpFlush before) := by
  by_cases due : 0 ≤ (restartFlush kcp current).1
  · exact ⟨{ (restartFlush kcp current).2 with
      tsFlush := nextFlush (restartFlush kcp current).2 }, rfl, Or.inr (if_pos due)⟩
  · exact ⟨(restartFlush kcp current).2, rfl, Or.inl (if_neg due)⟩

theorem Queues.Ok.ikcpUpdate (ok : kcp.queues.Ok) (current : IUINT32) :
    (Kcp.ikcpUpdate kcp current).1.queues.Ok := by
  obtain ⟨before, same, eq | eq⟩ := ikcpUpdate_cases kcp current
  · rw [eq]
    exact same ▸ ok
  · rw [eq]
    exact Queues.Ok.ikcpFlush (same ▸ ok)

theorem Queues.Ok.ikcpRecv (ok : kcp.queues.Ok) (len : Nat) :
    (Kcp.ikcpRecv kcp len).2.2.queues.Ok := by
  have received := receives_ikcpRecv kcp len
  generalize Kcp.ikcpRecv kcp len = result at received ⊢
  obtain ⟨code, data, after⟩ := result
  dsimp only at received ⊢
  generalize after.queues = q at received ⊢
  cases received with
  | empty => exact ok
  | waiting => exact ok
  | negative => exact ok
  | long => exact ok
  | whole ready size isSize fits rest sublist pieces kcp' after' before moved =>
      rw [moved]
      refine .moveAvailable ?_ ?_ ?_ ?_ <;> rw [before]
      · exact { ok with }
      · exact ⟨sublist.length_le.trans ok.queue, ok.inside, ok.sorted⟩
      · exact { ok with }
      · exact { ok with }

theorem mem_fragments {parts : List ByteString} {c : Content} (member : c ∈ fragments parts)
    (few : parts.length < 128) : c.frg.toNat < 128 ∧ c.data ∈ parts := by
  obtain ⟨piece, inPieces, rfl⟩ := List.mem_map.mp member
  have less := MessagePieces.fst_lt_of_mem_pieces inPieces
  refine ⟨?_, ?_⟩
  · rw [BitVec.toNat_ofNat]
    omega
  · have second := List.mem_map_of_mem (f := (·.2)) inPieces
    rwa [MessagePieces.map_snd_pieces] at second

/-- The data that the binding hands on of a string. -/
def handedOn (str : ByteString) : ByteString :=
  str.take (MachineIntegers.toInt32 str.length).toNat

theorem toInt32_lt (n : Nat) : MachineIntegers.toInt32 n < 2147483648 := by
  simp only [MachineIntegers.toInt32, MachineIntegers.toSigned, Int.bmod]
  norm_num
  split <;> omega

theorem lkcpSend_eq (kcp : IKCPCB) (str : ByteString) :
    Kcp.lkcpSend kcp str = (ikcpSend kcp str (MachineIntegers.toInt32 str.length)).2 := by
  rw [Kcp.lkcpSend, ignoreResult]

theorem lkcpInput_eq (kcp : IKCPCB) (str : ByteString) :
    lkcpInput kcp str = (ikcpInput kcp str).2 := by
  rw [lkcpInput, ignoreResult]

/-- A message is queued as a whole, or it is refused. -/
theorem lkcpSend_cases (ok : kcp.queues.Ok) (str : ByteString) :
    let code := (ikcpSend kcp str (MachineIntegers.toInt32 str.length)).1
    let parts := messageParts 1376 (handedOn str)
    code < 0 ∧ lkcpSend kcp str = kcp ∨
      0 ≤ code ∧ parts.length < 128 ∧ (lkcpSend kcp str).queues =
        { kcp.queues with sndQueue := kcp.queues.sndQueue ++ fragments parts } := by
  dsimp only
  rw [lkcpSend_eq, handedOn]
  have upper := toInt32_lt str.length
  have within := MachineIntegers.toInt32_le (Int.natCast_nonneg str.length)
  generalize MachineIntegers.toInt32 str.length = len at upper within ⊢
  by_cases negative : len < 0
  · have refused : ikcpSend kcp str len = (-1, kcp) := by rw [ikcpSend, if_pos negative]
    rw [refused]
    exact Or.inl ⟨(by decide : (-1 : Int) < 0), rfl⟩
  · have sent := ikcpSend_eq kcp ok.mss ok.stream (not_lt.mp negative) upper within
    dsimp only at sent
    split at sent
    · rw [sent]
      exact Or.inl ⟨(by decide : (-2 : Int) < 0), rfl⟩
    · next few => exact Or.inr ⟨by rw [sent.1]; exact not_lt.mp negative, not_le.mp few, sent.2⟩

theorem Queues.Ok.lkcpSend (ok : kcp.queues.Ok) (str : ByteString) :
    (Kcp.lkcpSend kcp str).queues.Ok := by
  rcases lkcpSend_cases ok str with ⟨-, eq⟩ | ⟨-, few, eq⟩
  · rwa [eq]
  · rw [eq]
    exact { ok with
      queued := fun c member => by
        rcases List.mem_append.mp member with old | new
        · exact ok.queued c old
        · obtain ⟨frg, part⟩ := mem_fragments new few
          exact ⟨by omega, length_le_of_mem_cut part⟩ }

end Functions

/-! ## Histories -/

/-- A call of the script. -/
inductive Call
  | send (str : ByteString)
  | update (i : Int)
  | input (str : ByteString)
  | recv

/-- The control block after a call. -/
def Call.run (kcp : IKCPCB) : Call → IKCPCB
  | send str => lkcpSend kcp str
  | update i => (lkcpUpdate kcp i).1
  | input str => lkcpInput kcp str
  | recv => (lkcpRecv kcp).2

theorem ok_lkcpCreate : lkcpCreate.queues.Ok where
  conv := rfl
  mtu := rfl
  mss := rfl
  sndWnd := rfl
  rcvWnd := rfl
  stream := rfl
  queue := Nat.zero_le _
  inside _ member := absurd member List.not_mem_nil
  sorted := List.Pairwise.nil
  within _ member := absurd member List.not_mem_nil
  ordered := List.Pairwise.nil
  width := Nat.zero_le _
  queued _ member := absurd member List.not_mem_nil
  sent _ member := absurd member List.not_mem_nil
  eager _ _ first := absurd first.symm (List.cons_ne_nil _ _)

theorem lkcpRecv_snd (kcp : IKCPCB) : (lkcpRecv kcp).2 = (ikcpRecv kcp RECV_SIZE).2.2 := by
  rw [lkcpRecv]
  dsimp only
  split
  · rfl
  · split <;> rfl

theorem Queues.Ok.run {kcp : IKCPCB} (ok : kcp.queues.Ok) (call : Call) :
    (call.run kcp).queues.Ok := by
  cases call with
  | send str => exact ok.lkcpSend str
  | update i => exact ok.ikcpUpdate _
  | input str =>
      rw [Call.run, lkcpInput_eq]
      exact ikcpInput_induction kcp ok fun kcp acks h data ok _ => ok.inputSegment acks h data
  | recv =>
      rw [Call.run, lkcpRecv_snd]
      exact ok.ikcpRecv RECV_SIZE

theorem ok_foldl_run (calls : List Call) : (calls.foldl Call.run lkcpCreate).queues.Ok := by
  induction calls using List.reverseRecOn with
  | nil => exact ok_lkcpCreate
  | append_singleton calls call ih =>
      rw [List.foldl_append]
      exact ih.run call

/-- Whatever the script sends and whatever bytes it gets from a peer, a control block keeps
at most 32 segments on the way and 256 received ones, both in the order of their numbers, and
none waits in `rcv_buf` that the script could have. -/
theorem windows_hold (calls : List Call) :
    let kcp := calls.foldl Call.run lkcpCreate
    kcp.sndBuf.length ≤ 32 ∧ kcp.rcvBuf.length ≤ 128 ∧ kcp.rcvQueue.length ≤ 128 ∧
      (kcp.sndBuf.Pairwise fun seg seg' =>
        offset kcp.sndUna seg.sn < offset kcp.sndUna seg'.sn) ∧
      (kcp.rcvBuf.Pairwise fun seg seg' =>
        offset kcp.rcvNxt seg.sn < offset kcp.rcvNxt seg'.sn) ∧
      ∀ seg rest, kcp.rcvBuf = seg :: rest → seg.sn = kcp.rcvNxt →
        kcp.rcvQueue.length = 128 := by
  intro kcp
  have ok : kcp.queues.Ok := ok_foldl_run calls
  have sendLength := length_le_of_offsets ok.within ok.ordered
  have recvLength := length_le_of_offsets ok.inside ok.sorted
  have queueLength := ok.queue
  rw [IKCPCB.queues, List.length_map] at sendLength recvLength queueLength
  refine ⟨sendLength.trans ok.width, recvLength, queueLength,
    by simpa [IKCPCB.queues, List.pairwise_map, IKCPSEG.content] using ok.ordered,
    by simpa [IKCPCB.queues, List.pairwise_map, IKCPSEG.content] using ok.sorted, ?_⟩
  intro seg rest first next
  have full := ok.eager seg.content (rest.map IKCPSEG.content)
    (by simp [IKCPCB.queues, first]) next
  rw [ok.rcvWnd] at full
  refine le_antisymm queueLength ?_
  simpa [IKCPCB.queues] using full

theorem toNat_ikcpWndUnused {kcp : IKCPCB} (ok : kcp.queues.Ok) :
    (ikcpWndUnused kcp).toNat ≤ 128 := by
  have wnd : kcp.rcvWnd = 128 := ok.rcvWnd
  rw [ikcpWndUnused, wnd]
  split
  · next room =>
    have small : kcp.rcvQueue.length < 128 := room
    rw [BitVec.toNat_sub_of_le]
    · exact Nat.sub_le ..
    · rw [BitVec.le_def, BitVec.toNat_ofNat, Nat.mod_eq_of_lt (by omega)]
      exact small.le
  · exact Nat.zero_le _

/-- The commands of a flush are valid segments. -/
theorem controls_valid {kcp : IKCPCB} (ok : kcp.queues.Ok) :
    Controls kcp (IKCPSEG.Valid 0x123456) := by
  intro cmd sn ts command
  have unused := toNat_ikcpWndUnused ok
  have fits : cmd.toNat < 256 ∧ (cmd = IKCP_CMD_PUSH ∨ cmd = IKCP_CMD_ACK ∨
      cmd = IKCP_CMD_WASK ∨ cmd = IKCP_CMD_WINS) := by
    rcases command with ⟨rfl, -⟩ | rfl | rfl
    · exact ⟨by decide, Or.inr (Or.inl rfl)⟩
    · exact ⟨by decide, Or.inr (Or.inr (Or.inl rfl))⟩
    · exact ⟨by decide, Or.inr (Or.inr (Or.inr rfl))⟩
  exact {
    cmd := fits.1
    frg := (by decide : (0 : IUINT32).toNat < 256)
    wnd := unused.trans_lt (by decide)
    conv := ok.conv
    command := fits.2
    short := (by decide : 0 < 2147483648) }

/-- The datagrams of a flush are made of valid segments, and of no others than the
acknowledgements, the commands and the segments in the buffer. -/
theorem datagrams_valid {kcp : IKCPCB} (ok : kcp.queues.Ok) {S : IKCPSEG → Prop}
    (control : Controls kcp S)
    (data : ∀ seg, seg.content ∈ (ikcpFlush kcp).1.queues.sndBuf → seg.una = kcp.rcvNxt →
      S seg) :
    ∀ datagram ∈ (ikcpFlush kcp).2,
      Datagram (fun seg => seg.Valid 0x123456 ∧ S seg) 1400 datagram := by
  have mtu : kcp.mtu.toInt = 1400 := by
    rw [show kcp.mtu = 1400 from ok.mtu]
    rfl
  have after := ok.ikcpFlush
  have datagrams := @datagrams_ikcpFlush kcp (fun seg => seg.Valid 0x123456 ∧ S seg)
    (fun cmd sn ts command => ⟨controls_valid ok cmd sn ts command, control cmd sn ts command⟩)
    ?_ ?_ ?_
  · rwa [mtu] at datagrams
  · intro seg member una wnd
    obtain ⟨conv, cmd, frg, size⟩ := after.sent _ member
    have unused := toNat_ikcpWndUnused ok
    have isPush : seg.cmd = IKCP_CMD_PUSH := cmd
    have short : seg.data.length ≤ 1376 := size
    exact ⟨{
      cmd := by rw [isPush]; decide
      frg := frg
      wnd := by rw [wnd]; omega
      conv := conv.trans after.conv
      command := Or.inl isPush
      short := by omega }, data seg member una⟩
  · intro c member
    have size := (after.sent c member).2.2.2
    rw [mtu, IKCP_OVERHEAD]
    omega
  · rw [mtu]
    decide

/-- Each datagram that a control block puts out has at most 1400 bytes, and any peer accepts
it, whatever has happened to either of them. -/
theorem datagrams_accepted (calls calls' : List Call) (i : Int) :
    ∀ datagram ∈ (lkcpUpdate (calls.foldl Call.run lkcpCreate) i).2,
      datagram.length ≤ 1400 ∧
        (ikcpInput (calls'.foldl Call.run lkcpCreate) datagram).1 = 0 := by
  intro datagram member
  have ok := ok_foldl_run calls
  have peer := ok_foldl_run calls'
  generalize calls.foldl Call.run lkcpCreate = kcp at ok member
  generalize calls'.foldl Call.run lkcpCreate = kcp' at peer ⊢
  obtain ⟨before, same, eq | eq⟩ := ikcpUpdate_cases kcp (BitVec.ofInt 32 (i * 10))
  · rw [lkcpUpdate, eq] at member
    exact absurd member List.not_mem_nil
  · rw [lkcpUpdate, eq] at member
    have valid := datagrams_valid (S := fun _ => True) (same ▸ ok) (fun _ _ _ _ => trivial)
      (fun _ _ _ => trivial) datagram member
    obtain ⟨-, -, -, -, le⟩ := id valid
    refine ⟨by exact_mod_cast le, ?_⟩
    have conv : kcp'.conv = 0x123456 := peer.conv
    exact (ikcpInput_datagram (P := fun _ => True) kcp' valid (by decide)
      (fun seg ok => conv ▸ ok.1) trivial fun _ _ _ _ _ _ => trivial).1

/-- What a new control block puts out for a string of one byte. -/
def byteDatagram : ByteString :=
  [86, 52, 18, 0, 81, 0, 128, 0, 10, 0, 0, 0, 0, 0, 0, 0, 0, 0, 0, 0, 1, 0, 0, 0, 7]

theorem datagrams_accepted_byte :
    byteDatagram.length ≤ 1400 ∧
      (ikcpInput ([Call.recv].foldl Call.run lkcpCreate) byteDatagram).1 = 0 :=
  datagrams_accepted [.send [7]] [.recv] 1 byteDatagram (by decide +kernel)

end Kcp

end LuaServer
