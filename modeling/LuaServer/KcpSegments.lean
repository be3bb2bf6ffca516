import LuaServer.LittleEndianBytes
import LuaServer.SerialNumbers

/-!
# Segments of kcp

A segment goes over the wire as a header of 24 bytes, the lowest byte of a number first, with
its data behind it.  What a peer reads is what has been written, as far as the fields of the
header have room for it.
-/

namespace LuaServer

namespace Kcp

abbrev IUINT32 := BitVec 32

def IKCP_CMD_PUSH : IUINT32 := 81
def IKCP_CMD_ACK : IUINT32 := 82
def IKCP_CMD_WASK : IUINT32 := 83
def IKCP_CMD_WINS : IUINT32 := 84
def IKCP_OVERHEAD : Nat := 24

/-- `_imin_`. -/
def imin (a b : IUINT32) : IUINT32 := if a ≤ b then a else b

/-- `_imax_`. -/
def imax (a b : IUINT32) : IUINT32 := if b ≤ a then a else b

/-- `_ibound_`. -/
def ibound (lower middle upper : IUINT32) : IUINT32 := imin (imax lower middle) upper

/-- `_itimediff`. -/
def itimediff (later earlier : IUINT32) : Int := SerialNumbers.distance later earlier

/-- `IKCPSEG`; its length is that of its data. -/
structure IKCPSEG where
  conv : IUINT32
  cmd : IUINT32
  frg : IUINT32
  wnd : IUINT32
  ts : IUINT32
  sn : IUINT32
  una : IUINT32
  resendts : IUINT32
  rto : IUINT32
  fastack : IUINT32
  xmit : IUINT32
  data : ByteString
  deriving DecidableEq

/-- `ikcp_segment_new` with the data; nobody reads the other fields before they are set. -/
def ikcpSegmentNew (data : ByteString) : IKCPSEG := ⟨0, 0, 0, 0, 0, 0, 0, 0, 0, 0, 0, data⟩

/-- The fields of a header. -/
structure Header where
  conv : IUINT32
  cmd : IUINT32
  frg : IUINT32
  wnd : IUINT32
  ts : IUINT32
  sn : IUINT32
  una : IUINT32
  len : IUINT32
  deriving DecidableEq

/-- `ikcp_encode8u`, `ikcp_encode16u` and `ikcp_encode32u`, by their number of bytes. -/
def ikcpEncode (count : Nat) (value : IUINT32) : ByteString :=
  LittleEndian.ofNat count value.toNat

/-- `ikcp_decode8u`, `ikcp_decode16u` and `ikcp_decode32u`, by their number of bytes. -/
def ikcpDecode (count : Nat) (data : ByteString) : IUINT32 :=
  BitVec.ofNat 32 (LittleEndian.toNat (data.take count))

/-- `ikcp_encode_seg`. -/
def ikcpEncodeSeg (seg : IKCPSEG) : ByteString :=
  ikcpEncode 4 seg.conv ++ (ikcpEncode 1 seg.cmd ++ (ikcpEncode 1 seg.frg ++
    (ikcpEncode 2 seg.wnd ++ (ikcpEncode 4 seg.ts ++ (ikcpEncode 4 seg.sn ++
      (ikcpEncode 4 seg.una ++ ikcpEncode 4 (BitVec.ofNat 32 seg.data.length)))))))

/-- The header at the front of at least 24 bytes. -/
def decodeHeader (data : ByteString) : Header where
  conv := ikcpDecode 4 data
  cmd := ikcpDecode 1 (data.drop 4)
  frg := ikcpDecode 1 (data.drop 5)
  wnd := ikcpDecode 2 (data.drop 6)
  ts := ikcpDecode 4 (data.drop 8)
  sn := ikcpDecode 4 (data.drop 12)
  una := ikcpDecode 4 (data.drop 16)
  len := ikcpDecode 4 (data.drop 20)

@[simp]
theorem length_ikcpEncode (count : Nat) (value : IUINT32) :
    (ikcpEncode count value).length = count := LittleEndian.length_ofNat ..

@[simp]
theorem length_ikcpEncodeSeg (seg : IKCPSEG) : (ikcpEncodeSeg seg).length = IKCP_OVERHEAD := by
  simp only [ikcpEncodeSeg, List.length_append, length_ikcpEncode]
  rfl

theorem ikcpDecode_encode {count : Nat} {value : IUINT32} (fits : value.toNat < 256 ^ count)
    (rest : ByteString) : ikcpDecode count (ikcpEncode count value ++ rest) = value := by
  rw [ikcpDecode, List.take_left' (length_ikcpEncode count value), ikcpEncode,
    LittleEndian.toNat_ofNat_of_lt fits, BitVec.ofNat_toNat, BitVec.setWidth_eq]

theorem ikcpDecode_encode_four (value : IUINT32) (rest : ByteString) :
    ikcpDecode 4 (ikcpEncode 4 value ++ rest) = value :=
  ikcpDecode_encode value.isLt rest

/-- The header of a segment. -/
def IKCPSEG.header (seg : IKCPSEG) : Header :=
  ⟨seg.conv, seg.cmd, seg.frg, seg.wnd, seg.ts, seg.sn, seg.una, BitVec.ofNat 32 seg.data.length⟩

/-- The fields that have fewer than 32 bits in the header. -/
structure IKCPSEG.Fits (seg : IKCPSEG) : Prop where
  cmd : seg.cmd.toNat < 256
  frg : seg.frg.toNat < 256
  wnd : seg.wnd.toNat < 65536

theorem decodeHeader_encode_seg {seg : IKCPSEG} (fits : seg.Fits) (rest : ByteString) :
    decodeHeader (ikcpEncodeSeg seg ++ rest) = seg.header := by
  have skip (count : Nat) (value : IUINT32) (n : Nat) (behind : ByteString) :
      (ikcpEncode count value ++ behind).drop (count + n) = behind.drop n := by
    rw [← List.drop_drop, List.drop_left' (length_ikcpEncode count value)]
  simp only [decodeHeader, IKCPSEG.header, ikcpEncodeSeg, List.append_assoc, Header.mk.injEq]
  refine ⟨ikcpDecode_encode_four .., ?_, ?_, ?_, ?_, ?_, ?_, ?_⟩
  · rw [skip 4 _ 0]
    exact ikcpDecode_encode fits.cmd _
  · rw [skip 4 _ 1, skip 1 _ 0]
    exact ikcpDecode_encode fits.frg _
  · rw [skip 4 _ 2, skip 1 _ 1, skip 1 _ 0]
    exact ikcpDecode_encode fits.wnd _
  · rw [skip 4 _ 4, skip 1 _ 3, skip 1 _ 2, skip 2 _ 0]
    exact ikcpDecode_encode_four ..
  · rw [skip 4 _ 8, skip 1 _ 7, skip 1 _ 6, skip 2 _ 4, skip 4 _ 0]
    exact ikcpDecode_encode_four ..
  · rw [skip 4 _ 12, skip 1 _ 11, skip 1 _ 10, skip 2 _ 8, skip 4 _ 4, skip 4 _ 0]
    exact ikcpDecode_encode_four ..
  · rw [skip 4 _ 16, skip 1 _ 15, skip 1 _ 14, skip 2 _ 12, skip 4 _ 8, skip 4 _ 4, skip 4 _ 0]
    exact ikcpDecode_encode_four ..

end Kcp

end LuaServer
