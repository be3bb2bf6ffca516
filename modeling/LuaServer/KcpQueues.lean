import LuaServer.Kcp
import LuaServer.MessagePieces
import Mathlib.Data.List.Pairwise
import Mathlib.Data.List.TakeWhile
import Mathlib.Tactic.NormNum
import Mathlib.Tactic.Positivity

/-!
# The queues of kcp

Most of a control block is about times and windows.  What the two sides exchange is in its
queues: here each function is described by what it does to these.
-/

namespace LuaServer

namespace Kcp

open SerialNumbers MessagePieces MachineIntegers

/-! ## What a control block holds -/

/-- What stays of a segment however often it is sent. -/
structure Content where
  conv : IUINT32
  cmd : IUINT32
  frg : IUINT32
  sn : IUINT32
  data : ByteString

def IKCPSEG.content (seg : IKCPSEG) : Content := ⟨seg.conv, seg.cmd, seg.frg, seg.sn, seg.data⟩

/-- A segment as a piece of its message. -/
def Content.piece (c : Content) : Nat × ByteString := (c.frg.toNat, c.data)

/-- The queues of a control block, with the numbers that belong to them and the limits. -/
structure Queues where
  conv : IUINT32
  mtu : IUINT32
  mss : IUINT32
  sndWnd : IUINT32
  rcvWnd : IUINT32
  stream : Int
  sndUna : IUINT32
  sndNxt : IUINT32
  rcvNxt : IUINT32
  sndQueue : List Content
  sndBuf : List Content
  rcvQueue : List Content
  rcvBuf : List Content
  acks : List IUINT32

def IKCPCB.queues (kcp : IKCPCB) : Queues where
  conv := kcp.conv
  mtu := kcp.mtu
  mss := kcp.mss
  sndWnd := kcp.sndWnd
  rcvWnd := kcp.rcvWnd
  stream := kcp.stream
  sndUna := kcp.sndUna
  sndNxt := kcp.sndNxt
  rcvNxt := kcp.rcvNxt
  sndQueue := kcp.sndQueue.map IKCPSEG.content
  sndBuf := kcp.sndBuf.map IKCPSEG.content
  rcvQueue := kcp.rcvQueue.map IKCPSEG.content
  rcvBuf := kcp.rcvBuf.map IKCPSEG.content
  acks := kcp.acklist.map (·.1)

/-- `ikcp_shrink_buf`. -/
def Queues.shrink (q : Queues) : Queues :=
  { q with sndUna := (q.sndBuf.head?.map (·.sn)).getD q.sndNxt }

section Functions

variable (kcp : IKCPCB)

/-! ## Times and windows -/

@[simp]
theorem queues_ikcpUpdateAck (rtt : IINT32) :
    (ikcpUpdateAck kcp rtt).queues = kcp.queues := by
  rw [ikcpUpdateAck]
  split <;> rfl

@[simp]
theorem queues_openWindow : (openWindow kcp).queues = kcp.queues := by
  rw [openWindow]
  split
  · dsimp only
    split <;> rfl
  · rfl

@[simp]
theorem queues_probeWindow : (probeWindow kcp).queues = kcp.queues := by
  rw [probeWindow]
  split
  · split
    · simp only [IKCPCB.queues]
    · split
      · simp only [IKCPCB.queues]
      · rfl
  · simp only [IKCPCB.queues]

@[simp]
theorem queues_updateThreshold (cwnd resent : IUINT32) (change lost : Bool) :
    (updateThreshold kcp cwnd resent change lost).queues = kcp.queues := by
  cases change <;> cases lost <;>
    simp only [updateThreshold, Bool.false_eq_true, if_false, if_true] <;> split <;> rfl

/-! ## Acknowledgements -/

theorem queues_ikcpShrinkBuf : (ikcpShrinkBuf kcp).queues = kcp.queues.shrink := by
  rw [ikcpShrinkBuf]
  split
  · next seg rest first => simp [IKCPCB.queues, Queues.shrink, first, IKCPSEG.content]
  · next none => simp [IKCPCB.queues, Queues.shrink, none]

theorem map_content_countFastack (sn ts : IUINT32) (segs : List IKCPSEG) :
    (countFastack sn ts segs).map IKCPSEG.content = segs.map IKCPSEG.content := by
  induction segs with
  | nil => rfl
  | cons seg rest ih =>
      rw [countFastack]
      split
      · rfl
      · rw [List.map_cons, List.map_cons, ih]
        congr 1
        split <;> rfl

@[simp]
theorem queues_ikcpParseFastack (sn ts : IUINT32) :
    (ikcpParseFastack kcp sn ts).queues = kcp.queues := by
  rw [ikcpParseFastack]
  split
  · rfl
  · simp [IKCPCB.queues, map_content_countFastack]

/-- Only segments that pass a test are let go. -/
def Queues.Releases (q : Queues) (gone : IUINT32 → Prop) (q' : Queues) : Prop :=
  ∃ buf, buf.Sublist q.sndBuf ∧ (∀ c ∈ q.sndBuf, c ∈ buf ∨ gone c.sn) ∧
    q' = { q with sndBuf := buf }

theorem releases_ikcpParseUna (una : IUINT32) :
    kcp.queues.Releases (fun sn => 0 < itimediff una sn) (ikcpParseUna kcp una).queues := by
  refine ⟨_, (List.dropWhile_sublist _).map _, ?_, rfl⟩
  intro c member
  obtain ⟨seg, inBuf, rfl⟩ := List.mem_map.mp member
  rw [← List.takeWhile_append_dropWhile (p := fun seg => decide (0 < itimediff una seg.sn))
    (l := kcp.sndBuf)] at inBuf
  rcases List.mem_append.mp inBuf with early | late
  · have passes := List.mem_takeWhile_imp early
    exact Or.inr (of_decide_eq_true passes)
  · exact Or.inl (List.mem_map_of_mem late)

theorem sublist_removeSegment (sn : IUINT32) (segs : List IKCPSEG) :
    (removeSegment sn segs).Sublist segs ∧
      ∀ seg ∈ segs, seg ∈ removeSegment sn segs ∨ seg.sn = sn := by
  induction segs with
  | nil => exact ⟨List.Sublist.slnil, fun _ member => absurd member List.not_mem_nil⟩
  | cons first rest ih =>
      rw [removeSegment]
      split
      · next same =>
        refine ⟨List.sublist_cons_self .., fun seg member => ?_⟩
        rcases List.mem_cons.mp member with rfl | later
        · exact Or.inr same.symm
        · exact Or.inl later
      · split
        · exact ⟨List.Sublist.refl _, fun _ member => Or.inl member⟩
        · refine ⟨ih.1.cons_cons _, fun seg member => ?_⟩
          rcases List.mem_cons.mp member with rfl | later
          · exact Or.inl List.mem_cons_self
          · exact (ih.2 seg later).imp_left (List.mem_cons_of_mem _)

theorem releases_ikcpParseAck (sn : IUINT32) :
    kcp.queues.Releases (· = sn) (ikcpParseAck kcp sn).queues := by
  rw [ikcpParseAck]
  split
  · exact ⟨_, List.Sublist.refl _, fun c member => Or.inl member, rfl⟩
  · obtain ⟨sublist, gone⟩ := sublist_removeSegment sn kcp.sndBuf
    refine ⟨_, sublist.map _, ?_, rfl⟩
    intro c member
    obtain ⟨seg, inBuf, rfl⟩ := List.mem_map.mp member
    exact (gone seg inBuf).imp_left List.mem_map_of_mem

/-! ## Receiving -/

/-- The first segment of `rcv_buf` goes to `rcv_queue`. -/
def Queues.take (q : Queues) (c : Content) (rest : List Content) : Queues :=
  { q with rcvBuf := rest, rcvQueue := q.rcvQueue ++ [c], rcvNxt := q.rcvNxt + 1 }

/-- What holds before `moveAvailable` and is kept with each segment holds behind it. -/
theorem moveAvailable_induction {P : Queues → Prop} (start : P kcp.queues)
    (step : ∀ q c rest, P q → q.rcvBuf = c :: rest → c.sn = q.rcvNxt →
      q.rcvQueue.length < q.rcvWnd.toNat → P (q.take c rest)) :
    P (moveAvailable kcp.rcvBuf kcp).queues := by
  generalize segsEq : kcp.rcvBuf = segs
  induction segs generalizing kcp with
  | nil => exact start
  | cons seg rest ih =>
      rw [moveAvailable]
      split
      · next next_ =>
        have moved := step kcp.queues seg.content (rest.map IKCPSEG.content) start
          (by simp [IKCPCB.queues, segsEq]) next_.1 (by simpa [IKCPCB.queues] using next_.2)
        refine ih _ ?_ rfl
        simpa [IKCPCB.queues, Queues.take] using moved
      · exact start

/-- No segment is left in `rcv_buf` that could go to `rcv_queue`. -/
def Queues.Eager (q : Queues) : Prop :=
  ∀ c rest, q.rcvBuf = c :: rest → c.sn = q.rcvNxt → q.rcvWnd.toNat ≤ q.rcvQueue.length

theorem eager_moveAvailable : (moveAvailable kcp.rcvBuf kcp).queues.Eager := by
  generalize segsEq : kcp.rcvBuf = segs
  induction segs generalizing kcp with
  | nil =>
      intro c rest first
      simp [moveAvailable, IKCPCB.queues, segsEq] at first
  | cons seg rest ih =>
      rw [moveAvailable]
      split
      · exact ih _ rfl
      · next stays =>
        intro c rest' first same
        obtain ⟨rfl, -⟩ := List.cons.inj
          ((congrArg (List.map IKCPSEG.content) segsEq).symm.trans first)
        rw [not_and, not_lt] at stays
        simpa [IKCPCB.queues] using stays same

/-- What a new segment does to those in the buffer. -/
inductive Queues.Stored (q : Queues) (c : Content) : Queues → Prop
  | known (old : Content) (member : old ∈ q.rcvBuf) (same : old.sn = c.sn) : Stored q c q
  | fresh (front back : List Content) (split : q.rcvBuf = front ++ back)
      (before : ∀ old, front.getLast? = some old → 0 < itimediff c.sn old.sn)
      (behind : ∀ old ∈ back, old.sn ≠ c.sn ∧ itimediff c.sn old.sn ≤ 0) :
      Stored q c { q with rcvBuf := front ++ c :: back }

theorem insertFromBack_cases (newseg : IKCPSEG) (segs : List IKCPSEG) :
    (∃ seg ∈ segs, seg.sn = newseg.sn ∧ insertFromBack newseg segs = segs) ∨
      ∃ back front, segs = back ++ front ∧ insertFromBack newseg segs = back ++ newseg :: front ∧
        (∀ seg ∈ back, seg.sn ≠ newseg.sn ∧ itimediff newseg.sn seg.sn ≤ 0) ∧
          ∀ seg, front.head? = some seg → 0 < itimediff newseg.sn seg.sn := by
  induction segs with
  | nil =>
      exact Or.inr ⟨[], [], rfl, rfl, fun _ member => absurd member List.not_mem_nil, by simp⟩
  | cons seg before ih =>
      rw [insertFromBack]
      split
      · next same => exact Or.inl ⟨seg, List.mem_cons_self, same, rfl⟩
      · next other =>
        split
        · next ahead =>
          refine Or.inr ⟨[], seg :: before, rfl, rfl,
            fun _ member => absurd member List.not_mem_nil, ?_⟩
          rintro _ ⟨⟩
          exact ahead
        · next notAhead =>
          rcases ih with ⟨old, member, same, eq⟩ | ⟨back, front, eq, eq', behind, ahead⟩
          · exact Or.inl ⟨old, List.mem_cons_of_mem _ member, same, by rw [eq]⟩
          · refine Or.inr ⟨seg :: back, front, by rw [eq]; rfl, by rw [eq']; rfl, ?_, ahead⟩
            intro old member
            rcases List.mem_cons.mp member with rfl | later
            · exact ⟨other, not_lt.mp notAhead⟩
            · exact behind old later

theorem stored_insertFromBack (newseg : IKCPSEG) :
    kcp.queues.Stored newseg.content
      { kcp with rcvBuf := (insertFromBack newseg kcp.rcvBuf.reverse).reverse }.queues := by
  rcases insertFromBack_cases newseg kcp.rcvBuf.reverse with
    ⟨seg, member, same, eq⟩ | ⟨back, front, eq, eq', behind, ahead⟩
  · rw [eq, List.reverse_reverse]
    exact .known seg.content (List.mem_map_of_mem (List.mem_reverse.mp member)) same
  · have split : kcp.rcvBuf = front.reverse ++ back.reverse := by
      rw [← List.reverse_append, ← eq, List.reverse_reverse]
    have fresh := @Queues.Stored.fresh kcp.queues newseg.content
      (front.reverse.map IKCPSEG.content) (back.reverse.map IKCPSEG.content)
      (by simp [IKCPCB.queues, split]) ?_ ?_
    · convert fresh using 1
      simp [IKCPCB.queues, eq']
    · intro old last
      rw [List.getLast?_map, List.getLast?_reverse, Option.map_eq_some_iff] at last
      obtain ⟨seg, first, rfl⟩ := last
      exact ahead seg first
    · intro old member
      obtain ⟨seg, inBack, rfl⟩ := List.mem_map.mp member
      exact behind seg (List.mem_reverse.mp inBack)

/-- A segment in the window is stored, and what has become available is moved. -/
theorem ikcpParseData_cases (newseg : IKCPSEG) :
    let q := kcp.queues
    (0 ≤ itimediff newseg.sn (q.rcvNxt + q.rcvWnd) ∨ itimediff newseg.sn q.rcvNxt < 0) ∧
        ikcpParseData kcp newseg = kcp ∨
      itimediff newseg.sn (q.rcvNxt + q.rcvWnd) < 0 ∧ 0 ≤ itimediff newseg.sn q.rcvNxt ∧
        ∃ kcp' : IKCPCB, q.Stored newseg.content kcp'.queues ∧
          ikcpParseData kcp newseg = moveAvailable kcp'.rcvBuf kcp' := by
  intro q
  by_cases outside : 0 ≤ itimediff newseg.sn (kcp.rcvNxt + kcp.rcvWnd) ∨
      itimediff newseg.sn kcp.rcvNxt < 0
  · exact Or.inl ⟨outside, by rw [ikcpParseData]; exact if_pos outside⟩
  · obtain ⟨inside, ahead⟩ := not_or.mp outside
    refine Or.inr ⟨not_le.mp inside, not_lt.mp ahead, _, stored_insertFromBack kcp newseg, ?_⟩
    rw [ikcpParseData]
    exact if_neg outside

/-! ## Messages -/

/-- The first message in `rcv_queue` has all its fragments, as far as the first one tells. -/
def Queues.Ready (q : Queues) : Prop :=
  ∃ c rest, q.rcvQueue = c :: rest ∧ (c.frg = 0 ∨ (c.frg + 1).toNat ≤ q.rcvQueue.length)

/-- The data of the first message in `rcv_queue`. -/
def Queues.message (q : Queues) : ByteString :=
  (takeMessage (q.rcvQueue.map Content.piece)).1.flatten

/-- What a call with room for `len` bytes returns, and what it leaves. -/
inductive Queues.Receives (q : Queues) (len : Nat) : Int → ByteString → Queues → Prop
  | empty (none : q.rcvQueue = []) : Receives q len (-1) [] q
  | waiting (some_ : q.rcvQueue ≠ []) (partly : ¬ q.Ready) : Receives q len (-2) [] q
  | negative (ready : q.Ready) (negative : toInt32 q.message.length < 0) :
      Receives q len (-2) [] q
  | long (ready : q.Ready) (long : len < toInt32 q.message.length) : Receives q len (-3) [] q
  | whole (ready : q.Ready) (size : Int) (isSize : size = toInt32 q.message.length)
      (fits : size ≤ len) (rest : List Content)
      (sublist : rest.Sublist q.rcvQueue)
      (pieces : rest.map Content.piece = (takeMessage (q.rcvQueue.map Content.piece)).2)
      (kcp after : IKCPCB) (before : kcp.queues = { q with rcvQueue := rest })
      (moved : after.queues = (moveAvailable kcp.rcvBuf kcp).queues) :
      Receives q len size q.message after.queues

theorem piece_fst_eq_zero (seg : IKCPSEG) : seg.content.piece.1 = 0 ↔ seg.frg = 0 :=
  @BitVec.toNat_inj 32 seg.frg 0

theorem fragmentsSize_eq (segs : List IKCPSEG) (n : Int) : fragmentsSize (toInt32 n) segs =
    toInt32 (n + (takeMessage (segs.map fun seg => seg.content.piece)).1.flatten.length) := by
  induction segs generalizing n with
  | nil => simp [fragmentsSize, takeMessage]
  | cons seg rest ih =>
      have zero := piece_fst_eq_zero seg
      rw [fragmentsSize, List.map_cons, takeMessage]
      dsimp only
      rw [toInt32_toInt32_add]
      by_cases last : seg.frg = 0
      · rw [if_pos last, if_pos (zero.mpr last), List.flatten_singleton]
        rfl
      · rw [if_neg last, if_neg (mt zero.mp last), ih, List.flatten_cons, List.length_append,
          Nat.cast_add, add_assoc]
        rfl

theorem mergeFragments_eq (segs : List IKCPSEG) :
    (mergeFragments segs).1 =
        (takeMessage (segs.map fun seg => seg.content.piece)).1.flatten ∧
      ((mergeFragments segs).2.map fun seg => seg.content.piece) =
        (takeMessage (segs.map fun seg => seg.content.piece)).2 ∧
      (mergeFragments segs).2.Sublist segs := by
  induction segs with
  | nil => exact ⟨rfl, rfl, List.Sublist.slnil⟩
  | cons seg rest ih =>
      have zero := piece_fst_eq_zero seg
      obtain ⟨data, pieces, sublist⟩ := ih
      rw [mergeFragments, List.map_cons, takeMessage]
      by_cases last : seg.frg = 0
      · rw [if_pos last, if_pos (zero.mpr last), List.flatten_singleton]
        exact ⟨rfl, rfl, List.sublist_cons_self ..⟩
      · rw [if_neg last, if_neg (mt zero.mp last)]
        exact ⟨congrArg (seg.data ++ ·) data, pieces, sublist.cons _⟩

section Peeking

variable {kcp} {seg : IKCPSEG} {rest : List IKCPSEG}

theorem ikcpPeeksize_of_whole (queue : kcp.rcvQueue = seg :: rest)
    (whole : seg.frg = 0 ∨ (seg.frg + 1).toNat ≤ kcp.rcvQueue.length) :
    ikcpPeeksize kcp = fragmentsSize 0 kcp.rcvQueue := by
  rw [ikcpPeeksize, queue]
  by_cases last : seg.frg = 0
  · simp [last, fragmentsSize]
  · have enough := whole.resolve_left last
    rw [queue] at enough
    simp only [last, if_false, not_lt.mpr enough]

theorem ikcpPeeksize_of_partial (queue : kcp.rcvQueue = seg :: rest)
    (more : ¬ seg.frg = 0) (few : ¬ (seg.frg + 1).toNat ≤ kcp.rcvQueue.length) :
    ikcpPeeksize kcp = -1 := by
  rw [queue] at few
  rw [ikcpPeeksize, queue]
  simp only [more, if_false, not_le.mp few, if_true]

end Peeking

theorem receives_ikcpRecv (len : Nat) :
    kcp.queues.Receives len (ikcpRecv kcp len).1 (ikcpRecv kcp len).2.1
      (ikcpRecv kcp len).2.2.queues := by
  have pieces : kcp.queues.rcvQueue.map Content.piece =
      kcp.rcvQueue.map fun seg => seg.content.piece := by simp [IKCPCB.queues]
  have notPeek : ¬ (len : Int) < 0 := by omega
  by_cases empty : kcp.rcvQueue = []
  · rw [ikcpRecv, if_pos empty]
    exact .empty (by simp [IKCPCB.queues, empty])
  · obtain ⟨seg, rest, queue⟩ := List.exists_cons_of_ne_nil empty
    have nonempty : kcp.queues.rcvQueue ≠ [] := by simp [IKCPCB.queues, empty]
    have message : fragmentsSize 0 kcp.rcvQueue = toInt32 kcp.queues.message.length := by
      have sum := fragmentsSize_eq kcp.rcvQueue 0
      rwa [zero_add, ← pieces] at sum
    by_cases ready : seg.frg = 0 ∨ (seg.frg + 1).toNat ≤ kcp.rcvQueue.length
    · have ready' : kcp.queues.Ready := ⟨seg.content, rest.map IKCPSEG.content,
        by simp [IKCPCB.queues, queue], by simpa [IKCPCB.queues, IKCPSEG.content] using ready⟩
      have size : ikcpPeeksize kcp = toInt32 kcp.queues.message.length := by
        rw [ikcpPeeksize_of_whole queue ready, message]
      rw [ikcpRecv, if_neg empty]
      simp only [notPeek, if_false, size]
      by_cases negative : toInt32 kcp.queues.message.length < 0
      · rw [if_pos negative]
        exact .negative ready' negative
      rw [if_neg negative]
      by_cases long : len < toInt32 kcp.queues.message.length
      · rw [if_pos long]
        exact .long ready' long
      · rw [if_neg long]
        obtain ⟨data, restPieces, sublist⟩ := mergeFragments_eq kcp.rcvQueue
        rw [← pieces] at data restPieces
        have dataEq : (mergeFragments kcp.rcvQueue).1 = kcp.queues.message := data
        rw [dataEq]
        dsimp only
        refine .whole ready' _ rfl (not_lt.mp long) _ (sublist.map IKCPSEG.content)
          (by rw [← restPieces, List.map_map]; rfl)
          { kcp with rcvQueue := (mergeFragments kcp.rcvQueue).2 } _ rfl ?_
        split <;> rfl
    · have waits : ¬ kcp.queues.Ready := by
        rintro ⟨c, rest', first, ready'⟩
        obtain ⟨rfl, -⟩ := List.cons.inj
          ((congrArg (List.map IKCPSEG.content) queue).symm.trans first)
        exact ready (by simpa [IKCPCB.queues, IKCPSEG.content] using ready')
      obtain ⟨more, few⟩ := not_or.mp ready
      have size := ikcpPeeksize_of_partial queue more few
      rw [ikcpRecv, if_neg empty]
      simp only [notPeek, if_false, size, show (-1 : Int) < 0 by decide, if_true]
      exact .waiting nonempty waits

/-! ## Sending -/

/-- What a message is cut into: parts of the same size and a shorter one, or one without
data. -/
def cut (size : Nat) : Nat → ByteString → List ByteString
  | 0, _ => []
  | left + 1, data => data.take size :: cut size left (data.drop size)

/-- The number of parts of a message. -/
def partCount (size : Nat) (data : ByteString) : Nat :=
  if data.length ≤ size then 1 else (data.length + size - 1) / size

def messageParts (size : Nat) (data : ByteString) : List ByteString :=
  cut size (partCount size data) data

theorem length_cut (size count : Nat) (data : ByteString) :
    (cut size count data).length = count := by
  induction count generalizing data with
  | zero => rfl
  | succ count ih => rw [cut, List.length_cons, ih]

theorem flatten_cut (size count : Nat) (data : ByteString) :
    (cut size count data).flatten = data.take (count * size) := by
  induction count generalizing data with
  | zero => simp [cut]
  | succ count ih => rw [cut, List.flatten_cons, ih, Nat.succ_mul, Nat.add_comm, List.take_add]

theorem length_le_of_mem_cut {size count : Nat} {data part : ByteString}
    (member : part ∈ cut size count data) : part.length ≤ size := by
  induction count generalizing data with
  | zero => exact absurd member List.not_mem_nil
  | succ count ih =>
      rcases List.mem_cons.mp member with rfl | later
      · exact List.length_take_le ..
      · exact ih later

theorem messageParts_ne_nil {size : Nat} (positive : 0 < size) (data : ByteString) :
    messageParts size data ≠ [] := by
  rw [← List.length_pos_iff, messageParts, length_cut, partCount]
  split
  · exact Nat.one_pos
  · exact Nat.div_pos (by omega) positive

/-- A message is no longer than its parts may be. -/
theorem length_le_of_messageParts {size : Nat} (positive : 0 < size) (data : ByteString) :
    data.length ≤ (messageParts size data).length * size := by
  rw [messageParts, length_cut, partCount]
  split
  · rwa [Nat.one_mul]
  · have enough := Nat.lt_div_mul_add (a := data.length + size - 1) positive
    omega

@[simp]
theorem flatten_messageParts {size : Nat} (positive : 0 < size) (data : ByteString) :
    (messageParts size data).flatten = data := by
  have within := length_le_of_messageParts positive data
  rw [messageParts, length_cut] at within
  rw [messageParts, flatten_cut]
  exact List.take_of_length_le within

/-- The fragments that a message is sent in. -/
def fragments (parts : List ByteString) : List Content :=
  (pieces parts).map fun piece => ⟨0, 0, BitVec.ofNat 32 piece.1, 0, piece.2⟩

theorem sendFragments_eq {left : Nat} {size : Nat} (mss : kcp.mss.toInt = size)
    (whole : kcp.stream = 0) (buffer : ByteString) (len sent : Int) (enough : len ≤ buffer.length)
    (nonneg : 0 ≤ len) (fits : len ≤ left * size) :
    (sendFragments left buffer len sent kcp).1 = sent + len ∧
      (sendFragments left buffer len sent kcp).2.queues = { kcp.queues with
        sndQueue := kcp.queues.sndQueue ++
          fragments (cut size left (buffer.take len.toNat)) } := by
  induction left generalizing kcp buffer len sent with
  | zero =>
      have none : len = 0 := by simp at fits; omega
      exact ⟨by rw [none]; simp [sendFragments], by simp [sendFragments, cut, fragments, pieces]⟩
  | succ left ih =>
      rw [sendFragments]
      dsimp only
      have sizeEq :
          (if kcp.mss.toInt < len then kcp.mss.toInt else len) = min (size : Int) len := by
        rw [mss]
        split <;> omega
      have part : (min (size : Int) len).toNat = min size len.toNat := by omega
      have product : (0 : Int) ≤ left * size := by positivity
      rw [sizeEq, if_pos whole, part]
      obtain ⟨sum, queues⟩ := ih
        { kcp with sndQueue := kcp.sndQueue ++
            [{ ikcpSegmentNew (buffer.take (min size len.toNat)) with
              frg := BitVec.ofNat 32 left }] }
        mss whole (buffer.drop (min size len.toNat))
        (len - min (size : Int) len) (sent + min (size : Int) len)
        (by rw [List.length_drop]; omega) (by omega)
        (by push_cast at fits; rw [add_mul] at fits; omega)
      refine ⟨sum.trans (by omega), queues.trans ?_⟩
      have rest : (buffer.drop (min size len.toNat)).take (len - min (size : Int) len).toNat =
          (buffer.take len.toNat).drop size := by
        rcases le_total size len.toNat with le | ge
        · rw [min_eq_left le, List.drop_take]
          congr 1
          omega
        · have none : (len - min (size : Int) len).toNat = 0 := by omega
          rw [none, List.take_zero]
          exact (List.drop_eq_nil_of_le (by rw [List.length_take]; omega)).symm
      rw [rest, cut, List.take_take]
      simp [IKCPCB.queues, fragments, pieces, length_cut, IKCPSEG.content, ikcpSegmentNew]

/-- The number of fragments is computed in 32 bits, and does not overflow. -/
theorem fragmentCount_eq {n : Nat} (small : n < 2147483648) :
    (if (n : Int) ≤ (1376 : IUINT32).toInt then 1
      else ((BitVec.ofInt 32 n + 1376 - 1) / (1376 : IUINT32)).toInt : Int) =
      ((if n ≤ 1376 then 1 else (n + 1376 - 1) / 1376 : Nat) : Int) := by
  rw [show (1376 : IUINT32).toInt = (1376 : Nat) by decide]
  by_cases short : n ≤ 1376
  · rw [if_pos (by exact_mod_cast short), if_pos short]
    rfl
  · rw [if_neg (by exact_mod_cast short), if_neg short]
    have sum : (BitVec.ofInt 32 n + 1376 - 1).toNat = n + 1375 := by
      rw [BitVec.ofInt_natCast]
      have low : (BitVec.ofNat 32 n).toNat = n := by
        rw [BitVec.toNat_ofNat]
        omega
      bv_omega
    have quotient : ((BitVec.ofInt 32 n + 1376 - 1) / (1376 : IUINT32)).toNat =
        (n + 1375) / 1376 := by
      rw [BitVec.toNat_udiv, sum]
      rfl
    rw [BitVec.toInt_eq_toNat_of_lt (by rw [quotient]; omega), quotient]
    rfl

/-- A message is cut into less than 128 fragments, or it is refused. -/
theorem ikcpSend_eq (mss : kcp.mss = 1376) (whole : kcp.stream = 0) {buffer : ByteString}
    {len : Int} (nonneg : 0 ≤ len) (small : len < 2147483648) (enough : len ≤ buffer.length) :
    let parts := messageParts 1376 (buffer.take len.toNat)
    if 128 ≤ parts.length then ikcpSend kcp buffer len = (-2, kcp)
    else (ikcpSend kcp buffer len).1 = len ∧ (ikcpSend kcp buffer len).2.queues =
      { kcp.queues with sndQueue := kcp.queues.sndQueue ++ fragments parts } := by
  intro parts
  have length : (buffer.take len.toNat).length = len.toNat := by
    rw [List.length_take]
    omega
  have mssInt : kcp.mss.toInt = (1376 : Nat) := by rw [mss]; decide
  have count : (if len ≤ kcp.mss.toInt then 1
      else ((BitVec.ofInt 32 len + kcp.mss - 1) / kcp.mss).toInt) = (parts.length : Int) := by
    rw [show parts.length = partCount 1376 (buffer.take len.toNat) from length_cut .., partCount,
      length, mss]
    obtain ⟨n, rfl⟩ := Int.eq_ofNat_of_zero_le nonneg
    exact fragmentCount_eq (by omega)
  have positive : 0 < parts.length :=
    List.length_pos_iff.mpr (messageParts_ne_nil (by norm_num) _)
  rw [ikcpSend, if_neg (not_lt.mpr nonneg), if_neg (not_not.mpr whole), sendRest, count]
  dsimp only
  rw [show IKCP_WND_RCV.toInt = 128 from rfl]
  by_cases large : 128 ≤ parts.length
  · rw [if_pos large, if_pos (by exact_mod_cast large), if_neg (fun both => both.1 whole)]
  · rw [if_neg large, if_neg (by exact_mod_cast large), if_neg (by exact_mod_cast positive.ne'),
      Int.toNat_natCast]
    have flat := @flatten_messageParts 1376 (by norm_num) (buffer.take len.toNat)
    have fits : len ≤ parts.length * (1376 : Nat) := by
      have total := congrArg List.length flat
      rw [messageParts, flatten_cut, List.length_take, length] at total
      rw [show parts.length = partCount 1376 (buffer.take len.toNat) from length_cut ..]
      push_cast
      omega
    obtain ⟨sum, queues⟩ := sendFragments_eq kcp mssInt whole buffer len 0 enough nonneg fits
    refine ⟨sum.trans (zero_add _), queues.trans ?_⟩
    rw [show parts.length = partCount 1376 (buffer.take len.toNat) from length_cut ..]
    rfl

end Functions

end Kcp

end LuaServer
