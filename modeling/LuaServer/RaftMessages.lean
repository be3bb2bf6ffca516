import LuaServer.ByteMemory
import LuaServer.LuaValues

/-!
# Append-entries messages on the wire

A message of the raft library is a structure with a count and a pointer to its entries,
each of which has a pointer to its data.  The sender hands the bytes of the message, of
the first entry and of its data to the script, and the receiver links what it gets from
the script again.  The message survives with one entry at most: the receiver looks for
all others behind the bytes of the first one.
-/

namespace LuaServer

namespace RaftWire

open LittleEndian Memory

/-- `raft_entry_t` with the data it points to. -/
structure Entry where
  term : Int
  id : Int
  type : Int
  data : ByteString
  deriving DecidableEq

/-- `msg_appendentries_t` with the entries it points to. -/
structure AppendEntries where
  term : Int
  prevLogIdx : Int
  prevLogTerm : Int
  leaderCommit : Int
  entries : List Entry
  deriving DecidableEq

/-- `sizeof(msg_entry_t)`. -/
def sizeofEntry : Nat := 32

/-- `sizeof(msg_appendentries_t)`. -/
def sizeofMessage : Nat := 48

section Layout

variable (memory : Memory) (address : Nat)

/-- `entry->data.buf`. -/
def buf : Nat := toNat (memory.read (address + 16) 8)

/-- `entry->data.len`. -/
def len : Nat := toNat (memory.read (address + 24) 4)

/-- The entry at an address. -/
def entryAt : Entry where
  term := toInt (memory.read address 8)
  id := toInt (memory.read (address + 8) 4)
  type := toInt (memory.read (address + 12) 4)
  data := memory.read (buf memory address) (len memory address)

/-- `m->n_entries`. -/
def nEntries : Int := toInt (memory.read (address + 32) 4)

/-- `m->entries`. -/
def entries : Nat := toNat (memory.read (address + 40) 8)

/-- The message at an address, as `raft_recv_appendentries` reads it. -/
def messageAt : AppendEntries where
  term := toInt (memory.read address 8)
  prevLogIdx := toInt (memory.read (address + 8) 8)
  prevLogTerm := toInt (memory.read (address + 16) 8)
  leaderCommit := toInt (memory.read (address + 24) 8)
  entries := (List.range (nEntries memory address).toNat).map fun i =>
    entryAt memory (entries memory address + sizeofEntry * i)

end Layout

/-- The values `__send_appendentries` calls the script with. -/
def sendAppendentries (memory : Memory) (m : Nat) (id : Int) : List Lua.Value :=
  if nEntries memory m ≤ 0 then [.integer id, .string (memory.read m sizeofMessage)]
  else
    let entry := entries memory m
    [.integer id, .string (memory.read m sizeofMessage),
      .string (memory.read entry sizeofEntry),
      .string (memory.read (buf memory entry) (len memory entry))]

/-- Where Lua keeps the bytes of a string. -/
structure Buffer where
  address : Nat
  length : Nat
  fits : address < 2 ^ 64

/-- The assignments of `appendentries` to `m->entries`, `entries->data.buf` and
`entries->data.len`. -/
def link (memory : Memory) (m pe pb : Buffer) : Memory :=
  let memory := memory.write (m.address + 40) (ofNat 8 pe.address)
  let memory := memory.write (pe.address + 16) (ofNat 8 pb.address)
  memory.write (pe.address + 24) (ofNat 4 pb.length)

/-- `appendentries` up to the call of the library, with the address of the message.  The
stack has the buffers of its strings, and nothing for `nil`. -/
def appendentries (memory : Memory) (stack : Nat → Option Buffer) : Option (Memory × Nat) := do
  let m ← stack 3
  match stack 4 with
  | none => return (memory, m.address)
  | some pe =>
      let pb ← stack 5
      return (link memory m pe pb, m.address)

/-- The script passes the values it is called with on to `appendentries`: the strings
lie in buffers of their own, and a missing value is `nil`. -/
structure PassesOn (values : List Lua.Value) (memory : Memory) (stack : Nat → Option Buffer) :
    Prop where
  strings : ∀ index s, 1 ≤ index → values[index]? = some (.string s) →
    ∃ buffer, stack (index + 2) = some buffer ∧ buffer.length = s.length ∧
      memory.read buffer.address buffer.length = s
  missing : ∀ index, 1 ≤ index → values[index]? = none → stack (index + 2) = none
  apart : ∀ index other first second, index ≠ other → stack index = some first →
    stack other = some second → Apart first.address first.length second.address second.length

/-- The library sees the message that has been sent, and reads its entries from the
buffer it is given. -/
def Survives (sender : Memory) (m : Nat) (receiver : Memory) (stack : Nat → Option Buffer) :
    Prop :=
  ∃ memory address, appendentries receiver stack = some (memory, address) ∧
    messageAt memory address = messageAt sender m ∧
      ∀ i < (nEntries memory address).toNat, ∃ buffer, stack 4 = some buffer ∧
        buffer.address ≤ entries memory address + sizeofEntry * i ∧
          entries memory address + sizeofEntry * i + sizeofEntry ≤ buffer.address + buffer.length

section Rules

variable {sender receiver : Memory} {m address : Nat}

theorem read_copy {length start count : Nat}
    (copied : receiver.read address length = sender.read m length)
    (inside : start + count ≤ length) :
    receiver.read (address + start) count = sender.read (m + start) count := by
  rw [read_part inside, read_part inside, copied]

theorem toNat_read_write (memory : Memory) (address : Nat) {count value : Nat}
    (fits : value < 256 ^ count) :
    toNat ((memory.write address (ofNat count value)).read address count) = value := by
  have self := @read_write_self memory address (ofNat count value)
  rw [length_ofNat] at self
  rw [self, toNat_ofNat_of_lt fits]

theorem read_link {h e b : Buffer} {length : Nat}
    (apartHeader : Apart address length (h.address + 40) 8)
    (apartEntry : Apart address length (e.address + 16) 12) :
    (link receiver h e b).read address length = receiver.read address length := by
  unfold link
  rw [read_write_apart, read_write_apart, read_write_apart]
  · rw [length_ofNat]
    exact apartHeader
  · rw [length_ofNat]
    unfold Apart at apartEntry ⊢
    omega
  · rw [length_ofNat]
    unfold Apart at apartEntry ⊢
    omega

theorem buf_link (h e b : Buffer) : buf (link receiver h e b) e.address = b.address := by
  unfold buf link
  rw [read_write_apart, toNat_read_write]
  · exact b.fits
  · rw [length_ofNat]
    unfold Apart
    omega

theorem len_link {h e b : Buffer} (short : b.length < 256 ^ 4) :
    len (link receiver h e b) e.address = b.length := by
  unfold len link
  exact toNat_read_write _ _ short

section Linked

variable {h e b : Buffer} (headerLength : h.length = sizeofMessage)
  (entryLength : e.length = sizeofEntry)
  (apart : Apart h.address h.length e.address e.length)
include headerLength entryLength apart

theorem read_header {start count : Nat} (inside : start + count ≤ 40) :
    (link receiver h e b).read (h.address + start) count =
      receiver.read (h.address + start) count := by
  rw [sizeofMessage] at headerLength
  rw [sizeofEntry] at entryLength
  apply read_link <;> unfold Apart at apart ⊢ <;> omega

theorem read_entry {start count : Nat} (inside : start + count ≤ 16) :
    (link receiver h e b).read (e.address + start) count =
      receiver.read (e.address + start) count := by
  rw [sizeofMessage] at headerLength
  rw [sizeofEntry] at entryLength
  apply read_link <;> unfold Apart at apart ⊢ <;> omega

theorem entries_link : entries (link receiver h e b) h.address = e.address := by
  rw [sizeofMessage] at headerLength
  rw [sizeofEntry] at entryLength
  unfold entries link
  rw [read_write_apart, read_write_apart, toNat_read_write]
  · exact e.fits
  · rw [length_ofNat]
    unfold Apart at apart ⊢
    omega
  · rw [length_ofNat]
    unfold Apart at apart ⊢
    omega

end Linked

variable {stack : Nat → Option Buffer} {id : Int}

theorem messageAt_copy {memory : Memory}
    (copied : ∀ start count, start + count ≤ 40 →
      memory.read (address + start) count = sender.read (m + start) count)
    (sameEntries : (messageAt memory address).entries = (messageAt sender m).entries) :
    messageAt memory address = messageAt sender m := by
  have term := copied 0 8 (by omega)
  have idx := copied 8 8 (by omega)
  have prevTerm := copied 16 8 (by omega)
  have commit := copied 24 8 (by omega)
  simp only [Nat.add_zero] at term
  unfold messageAt at sameEntries ⊢
  dsimp only at sameEntries
  rw [term, idx, prevTerm, commit, sameEntries]

/-- The strings of a message with entries, and where they lie. -/
theorem exists_buffers (passesOn : PassesOn (sendAppendentries sender m id) receiver stack)
    (some_ : 0 < nEntries sender m) : ∃ h e b, stack 3 = some h ∧ stack 4 = some e ∧
      stack 5 = some b ∧ h.length = sizeofMessage ∧ e.length = sizeofEntry ∧
      b.length = len sender (entries sender m) ∧
      receiver.read h.address sizeofMessage = sender.read m sizeofMessage ∧
      receiver.read e.address sizeofEntry = sender.read (entries sender m) sizeofEntry ∧
      receiver.read b.address b.length =
        sender.read (buf sender (entries sender m)) (len sender (entries sender m)) := by
  have values : sendAppendentries sender m id = [.integer id,
      .string (sender.read m sizeofMessage), .string (sender.read (entries sender m) sizeofEntry),
      .string (sender.read (buf sender (entries sender m)) (len sender (entries sender m)))] :=
    if_neg (not_le.mpr some_)
  rw [values] at passesOn
  obtain ⟨h, isHeader, headerLength, header⟩ := passesOn.strings 1 _ (le_refl 1) rfl
  obtain ⟨e, isEntry, entryLength, entry⟩ := passesOn.strings 2 _ (by omega) rfl
  obtain ⟨b, isData, dataLength, data⟩ := passesOn.strings 3 _ (by omega) rfl
  rw [length_read] at headerLength entryLength dataLength
  rw [headerLength] at header
  rw [entryLength] at entry
  exact ⟨h, e, b, isHeader, isEntry, isData, headerLength, entryLength, dataLength, header, entry,
    data⟩

theorem survives_of_none (passesOn : PassesOn (sendAppendentries sender m id) receiver stack)
    (none_ : nEntries sender m ≤ 0) : Survives sender m receiver stack := by
  have values : sendAppendentries sender m id =
      [.integer id, .string (sender.read m sizeofMessage)] := if_pos none_
  rw [values] at passesOn
  obtain ⟨h, isHeader, headerLength, header⟩ := passesOn.strings 1 _ (le_refl 1) rfl
  have noEntry : stack 4 = none := passesOn.missing 2 (by omega) rfl
  rw [headerLength, length_read] at header
  have sameCount : nEntries receiver h.address = nEntries sender m := by
    rw [nEntries, nEntries, read_copy header (by decide)]
  have noEntries : (nEntries sender m).toNat = 0 := by omega
  refine ⟨receiver, h.address, by simp [appendentries, isHeader, noEntry],
    messageAt_copy (fun start count inside => read_copy header ?_) ?_, fun i below => ?_⟩
  · exact inside.trans (by decide)
  · simp only [messageAt, sameCount, noEntries, List.range_zero, List.map_nil]
  · rw [sameCount, noEntries] at below
    exact absurd below (Nat.not_lt_zero i)

/-- What the receiver reads of a message with entries. -/
theorem exists_received (passesOn : PassesOn (sendAppendentries sender m id) receiver stack)
    (some_ : 0 < nEntries sender m) : ∃ memory h e, appendentries receiver stack =
        some (memory, h) ∧ stack 4 = some e ∧ e.length = sizeofEntry ∧
      nEntries memory h = nEntries sender m ∧ entries memory h = e.address ∧
      (∀ start count, start + count ≤ 40 →
        memory.read (h + start) count = sender.read (m + start) count) ∧
      entryAt memory e.address = entryAt sender (entries sender m) := by
  obtain ⟨h, e, b, isHeader, isEntry, isData, headerLength, entryLength, dataLength, header, entry,
    data⟩ := exists_buffers passesOn some_
  have apartEntry := passesOn.apart 3 4 h e (by decide) isHeader isEntry
  have apartData := passesOn.apart 3 5 h b (by decide) isHeader isData
  have apartBoth := passesOn.apart 4 5 e b (by decide) isEntry isData
  have copied : ∀ start count, start + count ≤ 40 →
      (link receiver h e b).read (h.address + start) count = sender.read (m + start) count := by
    intro start count inside
    rw [read_header headerLength entryLength apartEntry inside]
    exact read_copy header (inside.trans (by decide))
  have entryCopied : ∀ start count, start + count ≤ 16 →
      (link receiver h e b).read (e.address + start) count =
        sender.read (entries sender m + start) count := by
    intro start count inside
    rw [read_entry headerLength entryLength apartEntry inside]
    exact read_copy entry (inside.trans (by decide))
  have short : b.length < 256 ^ 4 := by
    have below := toNat_lt (sender.read (entries sender m + 24) 4)
    rw [length_read] at below
    rw [dataLength]
    exact below
  have dataRead : (link receiver h e b).read b.address b.length =
      receiver.read b.address b.length := by
    rw [sizeofMessage] at headerLength
    rw [sizeofEntry] at entryLength
    apply read_link
    · unfold Apart at apartData ⊢
      omega
    · unfold Apart at apartBoth ⊢
      omega
  have sameCount : nEntries (link receiver h e b) h.address = nEntries sender m := by
    rw [nEntries, nEntries, copied 32 4 (by omega)]
  refine ⟨link receiver h e b, h.address, e, by simp [appendentries, isHeader, isEntry, isData],
    isEntry, entryLength, sameCount, entries_link headerLength entryLength apartEntry, copied, ?_⟩
  have term := entryCopied 0 8 (by omega)
  have ident := entryCopied 8 4 (by omega)
  have type := entryCopied 12 4 (by omega)
  simp only [Nat.add_zero] at term
  unfold entryAt
  rw [term, ident, type, buf_link, len_link short, dataRead, data]

theorem survives_of_one (passesOn : PassesOn (sendAppendentries sender m id) receiver stack)
    (one : nEntries sender m = 1) : Survives sender m receiver stack := by
  obtain ⟨memory, h, e, received, isEntry, entryLength, sameCount, sameEntries, copied,
    sameEntry⟩ := exists_received passesOn (by omega)
  refine ⟨memory, h, received, messageAt_copy copied ?_, fun i below => ⟨e, isEntry, ?_⟩⟩
  · simp only [messageAt, sameCount, one, sameEntries]
    simpa using sameEntry
  · rw [sameCount, one] at below
    obtain rfl : i = 0 := by omega
    rw [sameEntries, entryLength]
    exact ⟨le_refl _, le_refl _⟩

/-- The receiver looks for the second entry behind the bytes of the first one. -/
theorem not_survives_of_more (passesOn : PassesOn (sendAppendentries sender m id) receiver stack)
    (more : 2 ≤ nEntries sender m) : ¬ Survives sender m receiver stack := by
  rintro ⟨memory, h, received, -, inside⟩
  obtain ⟨memory', h', e, received', isEntry, entryLength, sameCount, sameEntries, -⟩ :=
    exists_received passesOn (by omega)
  cases received.symm.trans received'
  obtain ⟨buffer, isBuffer, -, high⟩ := inside 1 (by omega)
  cases isEntry.symm.trans isBuffer
  rw [sameEntries, entryLength, sizeofEntry] at high
  omega

end Rules

/-- A message that is passed on by the script survives exactly when it has one entry at
most. -/
theorem survives_iff {sender : Memory} {m : Nat} {id : Int} {receiver : Memory}
    {stack : Nat → Option Buffer}
    (passesOn : PassesOn (sendAppendentries sender m id) receiver stack) :
    Survives sender m receiver stack ↔ (messageAt sender m).entries.length ≤ 1 := by
  have count : (messageAt sender m).entries.length = (nEntries sender m).toNat := by
    simp [messageAt]
  rw [count]
  constructor
  · intro survives
    by_contra more
    exact not_survives_of_more passesOn (by omega) survives
  · intro atMost
    rcases lt_or_ge 0 (nEntries sender m) with some_ | none_
    · exact survives_of_one passesOn (by omega)
    · exact survives_of_none passesOn none_

section Sample

/-- A message of term 5 at the address 0, with some entries behind it, of which the first
has three bytes of data. -/
def sample (count : Byte) : Memory
  | 0 => 5
  | 24 => 1
  | 32 => count
  | 40 => 48
  | 48 => 5
  | 56 => 9
  | 64 => 112
  | 72 => 3
  | 112 => 7
  | 113 => 8
  | 114 => 9
  | _ => 0

/-- The strings of the message in the same memory. -/
def sampleStack : Nat → Option Buffer
  | 3 => some ⟨0, 48, by decide⟩
  | 4 => some ⟨48, 32, by decide⟩
  | 5 => some ⟨112, 3, by decide⟩
  | _ => none

theorem passesOn_sample {count : Byte} (few : count = 1 ∨ count = 2) :
    PassesOn (sendAppendentries (sample count) 0 2) (sample count) sampleStack := by
  have some_ : 0 < nEntries (sample count) 0 := by
    rcases few with rfl | rfl <;> decide
  have isEntry : entries (sample count) 0 = 48 := by
    rcases few with rfl | rfl <;> decide
  have isLength : len (sample count) 48 = 3 := by
    rcases few with rfl | rfl <;> decide
  have isData : buf (sample count) 48 = 112 := by
    rcases few with rfl | rfl <;> decide
  rw [sendAppendentries, if_neg (not_le.mpr some_)]
  dsimp only
  rw [isEntry, isLength, isData]
  refine ⟨?_, ?_, ?_⟩
  · intro index s low isString
    rcases index with _ | _ | _ | _ | index
    · exact absurd low (by decide)
    · simp only [zero_add, List.getElem?_cons_succ, List.getElem?_cons_zero, Option.some.injEq,
        Lua.Value.string.injEq] at isString
      exact ⟨⟨0, 48, by decide⟩, rfl, by rw [← isString, length_read]; rfl, isString⟩
    · simp only [zero_add, List.getElem?_cons_succ, List.getElem?_cons_zero, Option.some.injEq,
        Lua.Value.string.injEq] at isString
      exact ⟨⟨48, 32, by decide⟩, rfl, by rw [← isString, length_read]; rfl, isString⟩
    · simp only [zero_add, List.getElem?_cons_succ, List.getElem?_cons_zero, Option.some.injEq,
        Lua.Value.string.injEq] at isString
      exact ⟨⟨112, 3, by decide⟩, rfl, by rw [← isString, length_read], isString⟩
    · simp at isString
  · intro index low isMissing
    rcases index with _ | _ | _ | _ | index
    · exact absurd low (by decide)
    · simp at isMissing
    · simp at isMissing
    · simp at isMissing
    · rfl
  · intro index other first second differ isFirst isSecond
    have places : ∀ index buffer, sampleStack index = some buffer →
        index = 3 ∧ buffer.address = 0 ∧ buffer.length = 48 ∨
          index = 4 ∧ buffer.address = 48 ∧ buffer.length = 32 ∨
            index = 5 ∧ buffer.address = 112 ∧ buffer.length = 3 := by
      intro index buffer isBuffer
      unfold sampleStack at isBuffer
      split at isBuffer <;> cases isBuffer <;> simp
    have one := places index first isFirst
    have two := places other second isSecond
    unfold Apart
    omega

theorem survives_iff_one : Survives (sample 1) 0 (sample 1) sampleStack ∧
    (messageAt (sample 1) 0).entries = [⟨5, 9, 0, [7, 8, 9]⟩] :=
  ⟨(survives_iff (passesOn_sample (Or.inl rfl))).mpr (by decide), by decide⟩

/-- A message with two entries does not survive. -/
theorem not_survives_two : PassesOn (sendAppendentries (sample 2) 0 2) (sample 2) sampleStack ∧
    ¬ Survives (sample 2) 0 (sample 2) sampleStack :=
  ⟨passesOn_sample (Or.inr rfl), not_survives_of_more (passesOn_sample (Or.inr rfl)) (by decide)⟩

end Sample

end RaftWire

end LuaServer
