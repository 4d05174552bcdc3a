import Thelonious.Util.Plain
import Thelonious.Util.RlpBounds
import Thelonious.Lib.Segmentation

/-!
# The wire protocol

`WriteMessage` frames a message with the magic token and the length of its encoding, and
`ReadMessages` takes the frames apart again.  Its loop is a state machine over what the reads
of the connection bring: a read may end anywhere in a frame, hold several frames, or be empty
after the deadline.  Slicing past what has been received is an error.
-/

namespace Thelonious.Wire

open Segmentation

/-- `MagicToken` -/
def magicToken : Bytes := [34, 64, 8, 145]

structure Msg where
  type : UInt8
  data : Value

/-- `Value.Slice` -/
def asSlice : Value → List Value
  | .list items => items
  | _ => []

/-- `Value.SliceFrom`, which panics when the list is too short -/
def sliceFrom (value : Value) (start : Nat) : Option Value :=
  if start ≤ (asSlice value).length then some (.list ((asSlice value).drop start)) else none

/-- `NumberToBytes` of a `uint32` -/
def numberToBytes (num : UInt32) (bits : Nat) : Bytes :=
  (leftPadBytes (BigEndian.digits num.toNat) 4).drop (4 - bits / 8)

/-- `BytesToNumber`: the bytes go behind as many zeros into a buffer of eight. -/
def bytesToNumber (b : Bytes) : Option Nat :=
  let data := List.replicate b.length 0 ++ b
  if 8 < b.length then none
  else if data.length < 8 then some 0
  else some (BigEndian.value (data.take 8))

/-- The payload of a message: its type and its data. -/
def Msg.encoded (msg : Msg) : Bytes :=
  encode (.list (.byte msg.type :: asSlice msg.data))

def pack (encoded : Bytes) : Bytes :=
  magicToken ++ numberToBytes (UInt32.ofNat encoded.length) 32 ++ encoded

/-- `WriteMessage`: what goes over the connection. -/
def writeMessage (msg : Msg) : Bytes := pack msg.encoded

inductive ReadErr
  | tokenMismatch (received : Bytes)
  -- a panic, which `ReadMessages` recovers from
  | panicked
deriving DecidableEq

/-- The variables of the loop. -/
structure ReadState where
  buff : Bytes
  messages : List Bytes
  msgLength : Nat

/-- How a round of the loop ends. -/
inductive Polled
  | again (st : ReadState)
  | done (messages : List Bytes)
  | failed (err : ReadErr)

def checked {α : Type} : Option α → Except ReadErr α
  | some result => .ok result
  | none => .error .panicked

/-- The token and the length of the next message, which are removed from the buffer. -/
def readHeader (buff : Bytes) : Except ReadErr (Bytes × Nat) := do
  let token ← checked (slice buff 0 4)
  if token ≠ magicToken then .error (.tokenMismatch token)
  else
    let length ← checked (slice buff 4 8)
    let msgLength ← checked (bytesToNumber length)
    let rest ← checked (slice buff 8 buff.length)
    return (rest, msgLength)

/-- A message is taken out of the buffer once it is there. -/
def absorb (messages : List Bytes) (buff : Bytes) (msgLength : Nat) : Polled :=
  if msgLength ≤ buff.length then
    let messages := messages ++ [buff.take msgLength]
    if (buff.drop msgLength).length = 0 then .done messages
    else .again ⟨buff.drop msgLength, messages, 0⟩
  else .again ⟨buff, messages, msgLength⟩

/-- One round of the loop, with what `conn.Read` has put into `b`. -/
def poll (st : ReadState) (b : Bytes) : Polled :=
  if b.length = 0 ∧ st.buff.length = 0 then .again st
  else if st.msgLength = 0 then
    match readHeader (st.buff ++ b) with
    | .error err => .failed err
    | .ok (buff, msgLength) => absorb st.messages buff msgLength
  else absorb st.messages (st.buff ++ b) st.msgLength

/-- The loop over the reads of the connection, with those it leaves; `none` when it is still
polling after them. -/
def readLoop : ReadState → List Bytes → Option (Except ReadErr (List Bytes) × List Bytes)
  | _, [] => none
  | st, b :: reads =>
      match poll st b with
      | .again st => readLoop st reads
      | .done messages => some (.ok messages, reads)
      | .failed err => some (.error err, reads)

/-- The type and the data of a received message; `none` is a panic. -/
def decodeMsg (message : Bytes) : Option Msg := do
  let decoder ← newValueFromBytes message
  let data ← sliceFrom decoder 1
  return ⟨(decoder.get 0).asUint.toUInt8, data⟩

/-- `ReadMessages` -/
def readMessages (reads : List Bytes) : Option (Except ReadErr (List Msg) × List Bytes) := do
  let (result, rest) ← readLoop ⟨[], [], 0⟩ reads
  match result with
  | .error err => return (.error err, rest)
  | .ok messages => return (checked (messages.mapM decodeMsg), rest)

/-- The messages of successive calls of `ReadMessages` that return without an error, and the
reads they leave. -/
def readCalls : Nat → List Bytes → Option (List Msg × List Bytes)
  | 0, reads => some ([], reads)
  | calls + 1, reads => do
      let (result, rest) ← readMessages reads
      let msgs ← result.toOption
      let (later, rest) ← readCalls calls rest
      return (msgs ++ later, rest)

/-- The received message is the sent one.  RLP keeps the byte strings and the lists of the
data. -/
def Same (sent received : Msg) : Prop :=
  received.type = sent.type ∧ received.data = sent.data.content.decoded

/-- Some number of calls returns the messages, in order and without an error, when the reads of
the stream are followed by some that are empty, and nothing of the stream is left then. -/
def Delivers (msgs : List Msg) (reads : List Bytes) : Prop :=
  ∃ calls idle received rest,
    readCalls calls (reads ++ List.replicate idle []) = some (received, rest) ∧
      List.Forall₂ Same msgs received ∧ rest.flatten = []

/-! ### The frame -/

variable {payload message behind pending buff b : Bytes} {st : ReadState} {messages : List Bytes}

/-- The length that the header of a payload announces. -/
def announced (payload : Bytes) : Nat := payload.length % 2 ^ 32

theorem announced_le (payload : Bytes) : announced payload ≤ payload.length := Nat.mod_le _ _

theorem announced_eq (fits : payload.length < 2 ^ 32) : announced payload = payload.length :=
  Nat.mod_eq_of_lt fits

theorem length_digits_uint32 (num : UInt32) : (BigEndian.digits num.toNat).length ≤ 4 := by
  rw [BigEndian.length_digits_le_iff]
  exact num.toNat_lt

theorem numberToBytes_eq (num : UInt32) :
    numberToBytes num 32 = List.replicate (4 - (BigEndian.digits num.toNat).length) 0 ++
      BigEndian.digits num.toNat := by
  rw [numberToBytes, leftPadBytes, if_neg (Nat.not_lt.mpr (length_digits_uint32 num))]
  rfl

theorem length_numberToBytes (num : UInt32) : (numberToBytes num 32).length = 4 := by
  have short := length_digits_uint32 num
  rw [numberToBytes_eq, List.length_append, List.length_replicate]
  omega

theorem bytesToNumber_numberToBytes (payload : Bytes) :
    bytesToNumber (numberToBytes (UInt32.ofNat payload.length) 32) = some (announced payload) := by
  have length := length_numberToBytes (UInt32.ofNat payload.length)
  rw [bytesToNumber, length, if_neg (by decide), if_neg (by simp [length]),
    List.take_of_length_le (by simp [length]), BigEndian.value_replicate_zero_append,
    numberToBytes_eq, BigEndian.value_replicate_zero_append, BigEndian.value_digits,
    UInt32.toNat_ofNat']
  rfl

/-- The first eight bytes of a frame. -/
def frameHeader (payload : Bytes) : Bytes :=
  magicToken ++ numberToBytes (UInt32.ofNat payload.length) 32

theorem length_frameHeader (payload : Bytes) : (frameHeader payload).length = 8 := by
  rw [frameHeader, List.length_append, length_numberToBytes]
  rfl

theorem pack_eq (payload : Bytes) : pack payload = frameHeader payload ++ payload := rfl

theorem length_pack (payload : Bytes) : (pack payload).length = 8 + payload.length := by
  rw [pack_eq, List.length_append, length_frameHeader]

theorem readHeader_short (short : buff.length < 8) : ∃ err, readHeader buff = .error err := by
  have missing : slice buff 4 8 = none := by
    rw [slice, if_neg]
    omega
  unfold readHeader
  cases slice buff 0 4 with
  | none => exact ⟨_, rfl⟩
  | some token =>
      by_cases same : token ≠ magicToken
      · exact ⟨.tokenMismatch token, by simp [checked, bind, Except.bind, same]⟩
      · exact ⟨.panicked, by simp [checked, bind, Except.bind, missing, same]⟩

theorem readHeader_frame (rest : Bytes) :
    readHeader (frameHeader payload ++ rest) = .ok (rest, announced payload) := by
  have length := length_numberToBytes (UInt32.ofNat payload.length)
  have token : slice (frameHeader payload ++ rest) 0 4 = some magicToken :=
    slice_middle_at [] magicToken (numberToBytes (UInt32.ofNat payload.length) 32 ++ rest)
      (by simp [frameHeader]) rfl rfl
  have number : slice (frameHeader payload ++ rest) 4 8 =
      some (numberToBytes (UInt32.ofNat payload.length) 32) :=
    slice_middle_at magicToken _ rest (by simp [frameHeader]) rfl (by rw [length]; rfl)
  have behind : slice (frameHeader payload ++ rest) 8 (frameHeader payload ++ rest).length =
      some rest :=
    slice_middle_at (frameHeader payload) rest [] (by simp) (length_frameHeader payload).symm
      (by simp)
  simp [readHeader, token, number, behind, bytesToNumber_numberToBytes, checked, bind,
    Except.bind, pure, Except.pure, -List.length_append]

/-- What a frame announces is the beginning of its payload. -/
theorem pack_append (payload tail : Bytes) :
    pack payload ++ tail = frameHeader (payload.take (announced payload)) ++
      (payload.take (announced payload) ++ (payload.drop (announced payload) ++ tail)) := by
  rw [frameHeader, List.length_take_of_le (announced_le payload), announced, UInt32.ofNat_mod_size,
    ← List.append_assoc (List.take ..), List.take_append_drop, pack, List.append_assoc]

/-- The header has been received: what follows it in the buffer belongs to the message. -/
theorem readHeader_received (fits : message.length < 2 ^ 32) (received : 8 ≤ buff.length)
    (stream : buff ++ pending = frameHeader message ++ (message ++ behind)) :
    readHeader buff = .ok (buff.drop 8, message.length) ∧
      buff.drop 8 ++ pending = message ++ behind := by
  have length := length_frameHeader message
  obtain ⟨rest, rfl⟩ : frameHeader message <+: buff :=
    List.prefix_of_prefix_length_le (stream ▸ List.prefix_append ..) (List.prefix_append _ pending)
      (length.le.trans received)
  rw [List.append_assoc, List.append_cancel_left_eq] at stream
  rw [readHeader_frame, announced_eq fits, List.drop_left' length]
  exact ⟨rfl, stream⟩

/-! ### One round of the loop -/

/-- Where the reader is: before the frame of `message`, of which it has received a part, or in
the message. -/
inductive Position (message behind pending : Bytes) (st : ReadState) : Nat → Bool → Prop
  | header (fresh : st.msgLength = 0)
      (stream : st.buff ++ pending = frameHeader message ++ (message ++ behind)) :
      Position message behind pending st st.buff.length false
  | payload (length : st.msgLength = message.length) (part : st.buff.length < st.msgLength)
      (stream : st.buff ++ pending = message ++ behind) :
      Position message behind pending st (8 + st.buff.length) true

theorem Position.start (stream : pending = frameHeader message ++ (message ++ behind)) :
    Position message behind pending ⟨[], [], 0⟩ 0 false := .header rfl stream

/-- What a round does with `count` new bytes. -/
inductive Outcome (message behind pending : Bytes) (st : ReadState) (buffered count : Nat)
    (begun : Bool) : Polled → Prop
  | quiet (fresh : begun = false) (empty : buffered + count = 0)
      (position : Position message behind pending st 0 false) :
      Outcome message behind pending st buffered count begun (.again st)
  | torn (err : ReadErr) (fresh : begun = false) (nonempty : buffered + count ≠ 0)
      (short : buffered + count < 8) :
      Outcome message behind pending st buffered count begun (.failed err)
  | part (after : ReadState) (busy : begun = true ∨ buffered + count ≠ 0)
      (readable : (begun || decide (8 ≤ buffered + count)) = true)
      (short : buffered + count < 8 + message.length) (messages : after.messages = st.messages)
      (position : Position message behind pending after (buffered + count) true) :
      Outcome message behind pending st buffered count begun (.again after)
  | last (busy : begun = true ∨ buffered + count ≠ 0)
      (readable : (begun || decide (8 ≤ buffered + count)) = true)
      (full : buffered + count = 8 + message.length) (stream : pending = behind) :
      Outcome message behind pending st buffered count begun (.done (st.messages ++ [message]))
  | next (left : Bytes) (busy : begun = true ∨ buffered + count ≠ 0)
      (readable : (begun || decide (8 ≤ buffered + count)) = true)
      (full : 8 + message.length + left.length = buffered + count) (nonempty : left ≠ [])
      (stream : left ++ pending = behind) :
      Outcome message behind pending st buffered count begun
        (.again ⟨left, st.messages ++ [message], 0⟩)

variable {buffered idle : Nat} {begun : Bool}

/-- The rest of a round whose buffer holds only bytes of the message and what follows it. -/
theorem outcome_absorb {count : Nat} (busy : begun = true ∨ buffered + count ≠ 0)
    (readable : (begun || decide (8 ≤ buffered + count)) = true)
    (received : 8 + buff.length = buffered + count) (stream : buff ++ pending = message ++ behind) :
    Outcome message behind pending st buffered count begun
      (absorb st.messages buff message.length) := by
  unfold absorb
  split
  case isFalse part =>
    refine .part ⟨buff, st.messages, message.length⟩ busy readable (by omega) rfl ?_
    rw [← received]
    exact .payload rfl (Nat.lt_of_not_le part) stream
  case isTrue full =>
    obtain ⟨left, rfl⟩ : message <+: buff :=
      List.prefix_of_prefix_length_le (stream ▸ List.prefix_append ..)
        (List.prefix_append _ pending) full
    rw [List.append_assoc, List.append_cancel_left_eq] at stream
    rw [List.length_append] at received
    simp only [List.take_left, List.drop_left]
    split
    case isTrue empty =>
      rw [List.length_eq_zero_iff.mp empty, List.nil_append] at stream
      exact .last busy readable (by omega) stream
    case isFalse nonempty =>
      exact .next left busy readable (by omega) (fun isNil => nonempty (by rw [isNil]; rfl)) stream

theorem outcome_poll (fits : message.length < 2 ^ 32)
    (position : Position message behind (b ++ pending) st buffered begun) :
    Outcome message behind pending st buffered b.length begun (poll st b) := by
  cases position with
  | header fresh stream =>
      rw [← List.append_assoc] at stream
      have received : (st.buff ++ b).length = st.buff.length + b.length := List.length_append
      by_cases quiet : b.length = 0 ∧ st.buff.length = 0
      · obtain ⟨bEmpty, buffEmpty⟩ := quiet
        rw [poll, if_pos ⟨bEmpty, buffEmpty⟩]
        refine .quiet rfl (by omega) ?_
        rw [← buffEmpty]
        apply Position.header fresh
        rwa [List.length_eq_zero_iff.mp bEmpty, List.append_nil] at stream
      · rw [poll, if_neg quiet, if_pos fresh]
        by_cases short : (st.buff ++ b).length < 8
        · obtain ⟨err, failed⟩ := readHeader_short short
          rw [failed]
          exact .torn err rfl (by omega) (by omega)
        · obtain ⟨read, stream⟩ := readHeader_received fits (Nat.le_of_not_lt short) stream
          rw [read]
          apply outcome_absorb (.inr (by omega)) _ _ stream
          · rw [← received, Bool.false_or]
            exact decide_eq_true (Nat.le_of_not_lt short)
          · rw [List.length_drop]
            omega
  | payload length part stream =>
      rw [← List.append_assoc] at stream
      by_cases quiet : b.length = 0 ∧ st.buff.length = 0
      · obtain ⟨bEmpty, buffEmpty⟩ := quiet
        rw [poll, if_pos ⟨bEmpty, buffEmpty⟩]
        refine .part st (.inl rfl) rfl (by omega) rfl ?_
        rw [bEmpty, Nat.add_zero]
        apply Position.payload length part
        rwa [List.length_eq_zero_iff.mp bEmpty, List.append_nil] at stream
      · rw [poll, if_neg quiet, if_neg (Nat.ne_of_gt (Nat.zero_lt_of_lt part)), length]
        apply outcome_absorb (.inl rfl) rfl _ stream
        rw [List.length_append]
        omega

/-! ### The loop -/

/-- The stream of several frames, and their lengths. -/
def frames (payloads : List Bytes) : Bytes := (payloads.map pack).flatten

def lengths (payloads : List Bytes) : List Nat := payloads.map fun payload => 8 + payload.length

theorem frames_cons (payload : Bytes) (payloads : List Bytes) :
    frames (payload :: payloads) = frameHeader payload ++ (payload ++ frames payloads) :=
  List.append_assoc ..

variable {reads rest : List Bytes}

/-- A round that goes on, or ends the loop, has taken the message out. -/
def Polled.Has (message : Bytes) : Polled → Prop
  | .again st => message ∈ st.messages
  | .done messages => message ∈ messages
  | .failed _ => True

theorem has_absorb (member : message ∈ messages) (buff : Bytes) (msgLength : Nat) :
    (absorb messages buff msgLength).Has message := by
  simp only [absorb]
  split
  · split
    · exact List.mem_append_left _ member
    · exact List.mem_append_left _ member
  · exact member

theorem has_poll (member : message ∈ st.messages) (b : Bytes) : (poll st b).Has message := by
  unfold poll
  split
  · exact member
  split
  · split
    · trivial
    · exact has_absorb member _ _
  · exact has_absorb member _ _

theorem mem_readLoop (member : message ∈ st.messages)
    (ended : readLoop st reads = some (.ok messages, rest)) : message ∈ messages := by
  induction reads generalizing st with
  | nil => exact absurd ended (by simp [readLoop])
  | cons b reads induction =>
      have has := has_poll member b
      rw [readLoop] at ended
      generalize poll st b = polled at has ended
      cases polled with
      | again after => exact induction has ended
      | done taken =>
          obtain ⟨same, -⟩ := Prod.mk.inj (Option.some.inj ended)
          cases same
          exact has
      | failed err => exact absurd ended (by simp)

/-- A message that cannot be decoded. -/
def Garbled (messages : List Bytes) : Prop := ∃ message ∈ messages, decodeMsg message = none

theorem readLoop_garbled (fits : message.length < 2 ^ 32) (garbled : decodeMsg message = none)
    (position : Position message behind reads.flatten st buffered begun)
    (ended : readLoop st reads = some (.ok messages, rest)) : Garbled messages := by
  induction reads generalizing st buffered begun with
  | nil => exact absurd ended (by simp [readLoop])
  | cons b reads induction =>
      rw [List.flatten_cons] at position
      have outcome := outcome_poll fits position
      rw [readLoop] at ended
      generalize poll st b = polled at outcome ended
      cases outcome with
      | quiet _ _ position => exact induction position ended
      | torn err => exact absurd ended (by simp)
      | part after _ _ _ _ position => exact induction position ended
      | last =>
          cases ended
          exact ⟨_, List.mem_append_right _ List.mem_cons_self, garbled⟩
      | next left =>
          have member := mem_readLoop (List.mem_append_right st.messages List.mem_cons_self) ended
          exact ⟨_, member, garbled⟩

/-- The stream holds the frames of the payloads, and what comes after them cannot be read. -/
inductive Framed : List Bytes → Bytes → Prop
  | nil : Framed [] []
  | garbled (message behind : Bytes) (fits : message.length < 2 ^ 32)
      (garbled : decodeMsg message = none) :
      Framed [] (frameHeader message ++ (message ++ behind))
  | cons (payload : Bytes) {payloads : List Bytes} {stream : Bytes}
      (fits : payload.length < 2 ^ 32) (framed : Framed payloads stream) :
      Framed (payload :: payloads) (frameHeader payload ++ (payload ++ stream))

variable {payloads : List Bytes} {msgs : List Msg}

/-- What a call has taken out of the stream when its loop ends: some of the frames, or a message
that cannot be decoded. -/
theorem readLoop_sound (fits : payload.length < 2 ^ 32) (framed : Framed payloads behind)
    (position : Position payload behind reads.flatten st buffered begun)
    (ended : readLoop st reads = some (.ok messages, rest)) :
    Garbled messages ∨ ∃ taken left, payload :: payloads = taken ++ left ∧
      messages = st.messages ++ taken ∧ Framed left rest.flatten ∧
      whole 8 (lengths (payload :: payloads)) buffered begun (reads.map List.length) =
        whole 8 (lengths left) 0 false (rest.map List.length) := by
  induction reads generalizing st payload payloads behind buffered begun with
  | nil => exact absurd ended (by simp [readLoop])
  | cons b reads induction =>
      rw [List.flatten_cons] at position
      have outcome := outcome_poll fits position
      rw [readLoop] at ended
      rw [List.map_cons, lengths, List.map_cons]
      generalize poll st b = polled at outcome ended
      cases outcome with
      | quiet fresh empty here =>
          subst fresh
          rw [whole_quiet empty]
          exact induction fits framed here ended
      | torn err => exact absurd ended (by simp)
      | part after busy received short messagesEq position =>
          rw [whole_part busy received short, ← messagesEq]
          exact induction fits framed position ended
      | last busy received full stream =>
          cases ended
          refine .inr ⟨[payload], payloads, rfl, rfl, stream ▸ framed, ?_⟩
          rw [whole_full busy received full.ge, full, Nat.sub_self]
          rfl
      | next left busy received full nonempty stream =>
          have consumed : buffered + b.length - (8 + payload.length) = left.length := by omega
          rw [whole_full busy received (by omega), consumed]
          cases framed with
          | nil => exact absurd (List.append_eq_nil_iff.mp stream).1 nonempty
          | garbled message behind fits garbled =>
              exact .inl (readLoop_garbled fits garbled (.header rfl stream) ended)
          | cons nextPayload fits framed =>
              rcases induction fits framed (.header rfl stream) ended with
                garbled | ⟨taken, remaining, split, messagesEq, framedLeft, wholeEq⟩
              · exact .inl garbled
              · refine .inr ⟨payload :: taken, remaining, ?_, ?_, framedLeft, wholeEq⟩
                · rw [split, List.cons_append]
                · rw [messagesEq, List.append_assoc, List.singleton_append]

/-! ### Successive calls -/

def Decodes (message : Bytes) (msg : Msg) : Prop := decodeMsg message = some msg

theorem mapM_eq_some_iff {α β : Type} {f : α → Option β} {items : List α} {results : List β} :
    items.mapM f = some results ↔ List.Forall₂ (fun item result => f item = some result)
      items results := by
  induction items generalizing results with
  | nil => simp [eq_comm]
  | cons item items induction =>
      rw [List.mapM_cons, List.forall₂_cons_left_iff]
      constructor
      · intro mapped
        obtain ⟨first, isFirst, mapped⟩ := Option.bind_eq_some_iff.mp mapped
        obtain ⟨later, areLater, returned⟩ := Option.bind_eq_some_iff.mp mapped
        exact ⟨first, later, isFirst, induction.mp areLater, (Option.some.inj returned).symm⟩
      · rintro ⟨first, later, isFirst, areLater, rfl⟩
        rw [isFirst, induction.mpr areLater]
        rfl

theorem not_garbled (decoded : List.Forall₂ Decodes messages msgs) : ¬ Garbled messages := by
  rintro ⟨message, member, undecoded⟩
  induction decoded with
  | nil => exact absurd member List.not_mem_nil
  | cons decodes _ induction =>
      rcases List.mem_cons.mp member with rfl | member
      · exact absurd (undecoded.symm.trans decodes) (by simp)
      · exact induction member

theorem readLoop_silent (messages : List Bytes) (msgLength : Nat) (silent : reads.flatten = []) :
    readLoop ⟨[], messages, msgLength⟩ reads = none := by
  induction reads with
  | nil => rfl
  | cons b reads induction =>
      rw [List.flatten_cons, List.append_eq_nil_iff] at silent
      rw [readLoop, silent.1]
      exact induction silent.2

theorem readMessages_sound (framed : Framed payloads reads.flatten)
    (returned : readMessages reads = some (.ok msgs, rest)) :
    ∃ taken left, payloads = taken ++ left ∧ List.Forall₂ Decodes taken msgs ∧
      Framed left rest.flatten ∧
      whole 8 (lengths payloads) 0 false (reads.map List.length) =
        whole 8 (lengths left) 0 false (rest.map List.length) := by
  obtain ⟨⟨result, ended⟩, looped, returned⟩ := Option.bind_eq_some_iff.mp returned
  cases result with
  | error err => exact absurd returned (by simp)
  | ok messages =>
      obtain ⟨isOk, rfl⟩ := Prod.mk.inj (Option.some.inj returned)
      have decoded : List.Forall₂ Decodes messages msgs := by
        apply mapM_eq_some_iff.mp
        cases mapped : messages.mapM decodeMsg with
        | none => exact absurd (mapped ▸ isOk) (by simp [checked])
        | some decoded =>
            rw [mapped] at isOk
            rw [Except.ok.inj isOk]
      generalize streamEq : reads.flatten = stream at framed
      cases framed with
      | nil =>
          rw [readLoop_silent [] 0 streamEq] at looped
          exact absurd looped (by simp)
      | garbled message behind fits garbled =>
          exact absurd (readLoop_garbled fits garbled (.start streamEq) looped)
            (not_garbled decoded)
      | cons payload fits framed =>
          rcases readLoop_sound fits framed (.start streamEq) looped with
            garbled | ⟨taken, left, split, isTaken, framedLeft, wholeEq⟩
          · exact absurd garbled (not_garbled decoded)
          · obtain rfl : messages = taken := isTaken
            exact ⟨messages, left, split, decoded, framedLeft, wholeEq⟩

/-- Calls that return without an error return frames of the stream, from its beginning. -/
theorem readCalls_sound {calls : Nat} (framed : Framed payloads reads.flatten)
    (returned : readCalls calls reads = some (msgs, rest)) :
    ∃ taken left, payloads = taken ++ left ∧ List.Forall₂ Decodes taken msgs ∧
      whole 8 (lengths payloads) 0 false (reads.map List.length) =
        whole 8 (lengths left) 0 false (rest.map List.length) := by
  induction calls generalizing payloads reads msgs with
  | zero =>
      cases returned
      exact ⟨[], payloads, rfl, .nil, rfl⟩
  | succ calls induction =>
      rw [readCalls] at returned
      obtain ⟨⟨result, middle⟩, first, returned⟩ := Option.bind_eq_some_iff.mp returned
      obtain ⟨firstMsgs, isOk, returned⟩ := Option.bind_eq_some_iff.mp returned
      obtain ⟨⟨laterMsgs, last⟩, later, returned⟩ := Option.bind_eq_some_iff.mp returned
      cases returned
      cases result with
      | error err => exact absurd isOk (by simp [Except.toOption])
      | ok oks =>
          obtain rfl : oks = firstMsgs := Option.some.inj isOk
          obtain ⟨taken, left, rfl, decoded, framedLeft, wholeEq⟩ := readMessages_sound framed first
          obtain ⟨laterTaken, last, rfl, laterDecoded, lastWhole⟩ := induction framedLeft later
          refine ⟨taken ++ laterTaken, last, ?_, ?_, wholeEq.trans lastWhole⟩
          · rw [List.append_assoc]
          · exact List.rel_append decoded laterDecoded

/-! ### Progress -/

/-- With empty reads the frames that are in the buffer are taken out one by one. -/
theorem readLoop_drain (fits : ∀ payload ∈ payloads, payload.length < 2 ^ 32)
    (nonempty : payloads ≠ []) (enough : payloads.length ≤ idle) (messages : List Bytes) :
    readLoop ⟨frames payloads, messages, 0⟩ (List.replicate idle []) =
      some (.ok (messages ++ payloads), List.replicate (idle - payloads.length) []) := by
  induction payloads generalizing idle messages with
  | nil => exact absurd rfl nonempty
  | cons payload payloads induction =>
      obtain ⟨idle, rfl⟩ : ∃ less, idle = less + 1 := ⟨idle - 1, by simp at enough; omega⟩
      have length := length_frameHeader payload
      have same := announced_eq (fits payload List.mem_cons_self)
      have polled : poll ⟨frames (payload :: payloads), messages, 0⟩ [] =
          absorb messages (payload ++ frames payloads) payload.length := by
        rw [poll, if_neg (by simp [frames_cons, length]), if_pos rfl, List.append_nil, frames_cons,
          readHeader_frame, same]
      rw [List.replicate_succ, readLoop, polled]
      cases payloads with
      | nil => simp [absorb, frames]
      | cons next payloads =>
          have drained := induction (fun other member => fits other
            (List.mem_cons_of_mem _ member)) (List.cons_ne_nil _ _)
            (by simp at enough ⊢; omega) (messages ++ [payload])
          have more : (frames (next :: payloads)).length ≠ 0 := by
            simp [frames_cons, length_frameHeader]
          simp only [absorb, List.length_append, Nat.le_add_right, if_true, List.take_left,
            List.drop_left, if_neg more]
          rw [drained]
          simp

/-- The reads still bring these payloads, and their headers will be whole. -/
structure Arrives (payloads reads : List Bytes) : Prop where
  fits : ∀ payload ∈ payloads, payload.length < 2 ^ 32
  stream : reads.flatten = frames payloads
  whole : whole 8 (lengths payloads) 0 false (reads.map List.length) = true

/-- A loop that finds every header whole takes at least one frame out. -/
theorem readLoop_progress (fits : ∀ other ∈ payload :: payloads, other.length < 2 ^ 32)
    (enough : (payload :: payloads).length ≤ idle)
    (position : Position payload (frames payloads) reads.flatten st buffered begun)
    (headers : whole 8 (lengths (payload :: payloads)) buffered begun (reads.map List.length) =
      true) :
    ∃ taken left later less, payloads = taken ++ left ∧ Arrives left later ∧
      left.length ≤ less ∧
      readLoop st (reads ++ List.replicate idle []) =
        some (.ok (st.messages ++ payload :: taken), later ++ List.replicate less []) := by
  induction reads generalizing st payload payloads buffered begun with
  | nil =>
      rw [List.flatten_nil] at position
      cases position with
      | header fresh stream =>
          have drained := readLoop_drain fits (List.cons_ne_nil _ _) enough st.messages
          rw [List.append_nil, ← frames_cons] at stream
          rw [← stream, ← fresh] at drained
          exact ⟨payloads, [], [], _, (List.append_nil _).symm, ⟨by simp, rfl, whole_nil ..⟩,
            Nat.zero_le _, drained⟩
      | payload length part stream =>
          have lengths := congrArg List.length stream
          simp only [List.length_append, List.length_nil] at lengths
          omega
  | cons b reads induction =>
      have laterFits : ∀ other ∈ payloads, other.length < 2 ^ 32 :=
        fun other member => fits other (List.mem_cons_of_mem _ member)
      rw [List.flatten_cons] at position
      rw [List.map_cons, lengths, List.map_cons] at headers
      have outcome := outcome_poll (fits payload List.mem_cons_self) position
      rw [List.cons_append, readLoop]
      generalize poll st b = polled at outcome
      cases outcome with
      | quiet fresh empty here =>
          subst fresh
          rw [whole_quiet empty] at headers
          exact induction fits enough here headers
      | torn err fresh nonempty short =>
          subst fresh
          rw [whole_torn nonempty short] at headers
          exact absurd headers (by simp)
      | part after busy received short messagesEq here =>
          rw [whole_part busy received short] at headers
          rw [← messagesEq]
          exact induction fits enough here headers
      | last busy received full stream =>
          rw [whole_full busy received full.ge, full, Nat.sub_self] at headers
          exact ⟨[], payloads, reads, idle, rfl, ⟨laterFits, stream, headers⟩,
            Nat.le_of_succ_le enough, rfl⟩
      | next left busy received full nonempty stream =>
          have consumed : buffered + b.length - (8 + payload.length) = left.length := by omega
          rw [whole_full busy received (by omega), consumed] at headers
          cases payloads with
          | nil => exact absurd (List.append_eq_nil_iff.mp stream).1 nonempty
          | cons nextPayload payloads =>
              have here : Position nextPayload (frames payloads) reads.flatten
                  ⟨left, st.messages ++ [payload], 0⟩ left.length false :=
                .header rfl (stream.trans (frames_cons ..))
              obtain ⟨taken, remaining, later, less, rfl, arrives, lessEnough, looped⟩ :=
                induction laterFits (Nat.le_of_succ_le enough) here headers
              refine ⟨nextPayload :: taken, remaining, later, less, rfl, arrives, lessEnough, ?_⟩
              dsimp only
              rw [looped, List.append_assoc, List.singleton_append]

/-- Every frame is returned by some call. -/
theorem readCalls_progress (arrives : Arrives payloads reads) (enough : payloads.length ≤ idle)
    (decoded : payloads.mapM decodeMsg = some msgs) :
    ∃ calls rest, readCalls calls (reads ++ List.replicate idle []) = some (msgs, rest) ∧
      rest.flatten = [] := by
  induction sizeEq : payloads.length using Nat.strong_induction_on
    generalizing payloads reads msgs idle with
  | _ size induction =>
      cases payloads with
      | nil =>
          cases decoded
          refine ⟨0, _, rfl, ?_⟩
          rw [List.flatten_append, arrives.stream]
          simp [frames]
      | cons payload payloads =>
          obtain ⟨taken, left, later, less, rfl, laterArrives, lessEnough, looped⟩ :=
            readLoop_progress arrives.fits enough (.start (arrives.stream.trans (frames_cons ..)))
              arrives.whole
          rw [← List.cons_append, List.mapM_append] at decoded
          obtain ⟨firstMsgs, firstDecoded, decoded⟩ := Option.bind_eq_some_iff.mp decoded
          obtain ⟨laterMsgs, laterDecoded, decoded⟩ := Option.bind_eq_some_iff.mp decoded
          cases decoded
          have shorter : left.length < size := by
            rw [← sizeEq, List.length_cons, List.length_append]
            omega
          obtain ⟨calls, rest, returned, silent⟩ :=
            induction left.length shorter laterArrives lessEnough laterDecoded rfl
          refine ⟨calls + 1, rest, ?_, silent⟩
          have first : readMessages (reads ++ List.replicate idle []) =
              some (.ok firstMsgs, later ++ List.replicate less []) := by
            rw [readMessages, looped, Option.bind_eq_bind, Option.bind_some]
            simp only [List.nil_append, firstDecoded]
            rfl
          rw [readCalls, first, Option.bind_eq_bind, Option.bind_some]
          simp only [Except.toOption, Option.bind_eq_bind, Option.bind_some, returned]
          rfl

/-! ### Messages -/

/-- What is received when the message arrives. -/
def Msg.arrival (msg : Msg) : Msg :=
  ⟨msg.type, .list (Item.decodedAll (Value.contents (asSlice msg.data)))⟩

theorem toUInt8_asUint_decoded_byte (single : UInt8) :
    (Value.byte single).content.decoded.asUint.toUInt8 = single := by
  rw [Value.content, Item.decoded]
  by_cases zero : single = 0
  · subst zero
    rfl
  · have positive : 0 < single.toNat := by
      rw [Nat.pos_iff_ne_zero]
      intro isZero
      exact zero (UInt8.toNat.inj isZero)
    rw [bigBytes_single positive, decodedBytes]
    split
    · simp [Value.asUint]
    · simp [Value.asUint, BigEndian.value]

theorem decodeMsg_encoded {msg : Msg} (fits : msg.encoded.length < 2 ^ 64) :
    decodeMsg msg.encoded = some msg.arrival := by
  have decoded := newValueFromBytes_encode _ (Value.fits_of_length_encode _ fits)
  have type := toUInt8_asUint_decoded_byte msg.type
  rw [decodeMsg, Msg.encoded, decoded]
  simp only [Value.content, Value.contents, Item.decoded, Item.decodedAll] at type ⊢
  simp only [Option.bind_eq_bind, Option.bind_some, sliceFrom, asSlice, Value.get, List.length_cons,
    Nat.le_add_left, if_true, List.drop_succ_cons, List.drop_zero, List.getD_cons_zero, type]
  rfl

/-- A payload whose length the header cannot announce. -/
theorem decodeMsg_cut {msg : Msg} (fits : msg.encoded.length < 2 ^ 64)
    (long : ¬ msg.encoded.length < 2 ^ 32) :
    decodeMsg (msg.encoded.take (announced msg.encoded)) = none := by
  have short : announced msg.encoded < msg.encoded.length := by
    have bound : announced msg.encoded < 2 ^ 32 := Nat.mod_lt _ (by decide)
    omega
  by_cases zero : announced msg.encoded = 0
  · rw [zero, List.take_zero]
    rfl
  · have cut : msg.encoded.take (announced msg.encoded) ++
        msg.encoded.drop (announced msg.encoded) = msg.encoded := List.take_append_drop _ _
    have undecoded : newValueFromBytes (msg.encoded.take (announced msg.encoded)) = none := by
      apply newValueFromBytes_cut fits cut
      · rw [Ne, List.take_eq_nil_iff, not_or]
        exact ⟨zero, List.ne_nil_of_length_pos (Nat.zero_lt_of_lt short)⟩
      · rw [Ne, List.drop_eq_nil_iff]
        exact Nat.not_le.mpr short
    rw [decodeMsg, undecoded]
    rfl

/-- The data is something `Slice` keeps: a list, or nothing. -/
def Listed (value : Value) : Prop := value.isList = true ∨ value.isNil = true

theorem same_arrival_iff (msg : Msg) : Same msg msg.arrival ↔ Listed msg.data := by
  have strays : ∀ text, Value.list [] ≠ decodedBytes text := by
    intro text isString
    unfold decodedBytes at isString
    split at isString <;> exact absurd isString (by simp)
  cases data : msg.data with
  | list items =>
      simp [Same, Msg.arrival, data, asSlice, Listed, Value.isList, Value.content, Item.decoded]
  | nil =>
      simp [Same, Msg.arrival, data, asSlice, Listed, Value.isNil, Value.content, Item.decoded,
        Value.contents, Item.decodedAll]
  | _ =>
      simp [Same, Msg.arrival, data, asSlice, Listed, Value.isList, Value.isNil, Value.content,
        Item.decoded, Value.contents, Item.decodedAll, strays]

theorem mapM_decodeMsg (fits : ∀ msg ∈ msgs, msg.encoded.length < 2 ^ 64) :
    (msgs.map Msg.encoded).mapM decodeMsg = some (msgs.map Msg.arrival) := by
  rw [mapM_eq_some_iff, List.forall₂_map_left_iff, List.forall₂_map_right_iff,
    List.forall₂_same]
  intro msg member
  exact decodeMsg_encoded (fits msg member)

/-- The messages that can be announced, up to the first that cannot. -/
theorem framed_span (fits : ∀ msg ∈ msgs, msg.encoded.length < 2 ^ 64) :
    ∃ good bad, msgs.map Msg.encoded = good ++ bad ∧
      (∀ payload ∈ good, payload.length < 2 ^ 32) ∧
      Framed good (frames (msgs.map Msg.encoded)) := by
  induction msgs with
  | nil => exact ⟨[], [], rfl, by simp, .nil⟩
  | cons msg msgs induction =>
      rw [List.map_cons, frames_cons]
      by_cases short : msg.encoded.length < 2 ^ 32
      · obtain ⟨good, bad, split, announceable, framed⟩ :=
          induction fun other member => fits other (List.mem_cons_of_mem _ member)
        exact ⟨msg.encoded :: good, bad, by rw [split, List.cons_append],
          List.forall_mem_cons.mpr ⟨short, announceable⟩, .cons _ short framed⟩
      · refine ⟨[], _, rfl, by simp, ?_⟩
        rw [← List.append_assoc, ← pack_eq, pack_append]
        refine .garbled _ _ ?_ (decodeMsg_cut (fits msg List.mem_cons_self) short)
        rw [List.length_take_of_le (announced_le _)]
        exact Nat.mod_lt _ (by decide)

theorem lengths_eq (msgs : List Msg) :
    lengths (msgs.map Msg.encoded) = msgs.map fun msg => (writeMessage msg).length := by
  rw [lengths, List.map_map]
  apply List.map_congr_left
  intro msg _
  exact (length_pack msg.encoded).symm

theorem flatten_writeMessage (msgs : List Msg) :
    (msgs.map writeMessage).flatten = frames (msgs.map Msg.encoded) := by
  rw [frames, List.map_map]
  rfl

theorem forall₂_same_iff (msgs : List Msg) :
    List.Forall₂ Same msgs (msgs.map Msg.arrival) ↔ ∀ msg ∈ msgs, Listed msg.data := by
  rw [List.forall₂_map_right_iff, List.forall₂_same]
  exact forall₂_congr fun msg _ => same_arrival_iff msg

/-- As many messages as were written can only have been read if every frame was. -/
theorem readCalls_all {calls : Nat} {received : List Msg}
    (fits : ∀ msg ∈ msgs, msg.encoded.length < 2 ^ 64)
    (stream : reads.flatten = frames (msgs.map Msg.encoded))
    (returned : readCalls calls reads = some (received, rest))
    (count : received.length = msgs.length) :
    (∀ msg ∈ msgs, msg.encoded.length < 2 ^ 32) ∧ received = msgs.map Msg.arrival ∧
      whole 8 (lengths (msgs.map Msg.encoded)) 0 false (reads.map List.length) = true := by
  obtain ⟨good, bad, split, announceable, framed⟩ := framed_span fits
  rw [← stream] at framed
  obtain ⟨taken, left, rfl, decoded, wholeEq⟩ := readCalls_sound framed returned
  obtain ⟨rfl, rfl⟩ : left = [] ∧ bad = [] := by
    have lengthEq := congrArg List.length split
    rw [List.length_map, ← count, ← decoded.length_eq, List.length_append, List.length_append]
      at lengthEq
    exact ⟨List.length_eq_zero_iff.mp (by omega), List.length_eq_zero_iff.mp (by omega)⟩
  rw [List.append_nil, List.append_nil] at split
  rw [List.append_nil] at announceable wholeEq
  rw [← split] at announceable decoded wholeEq
  refine ⟨List.forall_mem_map.mp announceable, ?_, wholeEq.trans (whole_nil ..)⟩
  have mapped := mapM_eq_some_iff.mpr decoded
  rw [mapM_decodeMsg fits] at mapped
  exact (Option.some.inj mapped).symm

/-- The messages are read as they were written, however the stream is cut into reads, exactly
if each of them fits the length field and has a list for its data, and every header is whole
when the reader looks at it. -/
theorem framing_survives_iff (msgs : List Msg) (reads : List Bytes)
    (fits : ∀ msg ∈ msgs, msg.encoded.length < 2 ^ 64)
    (stream : reads.flatten = (msgs.map writeMessage).flatten) :
    Delivers msgs reads ↔
      (∀ msg ∈ msgs, msg.encoded.length < 2 ^ 32 ∧ Listed msg.data) ∧
        whole 8 (msgs.map fun msg => (writeMessage msg).length) 0 false
          (reads.map List.length) = true := by
  rw [flatten_writeMessage] at stream
  rw [← lengths_eq]
  constructor
  · rintro ⟨calls, idle, received, rest, returned, sent, -⟩
    have idleStream : (reads ++ List.replicate idle []).flatten =
        frames (msgs.map Msg.encoded) := by
      rw [List.flatten_append, stream]
      simp
    obtain ⟨announceable, rfl, headers⟩ :=
      readCalls_all fits idleStream returned sent.length_eq.symm
    rw [List.map_append] at headers
    exact ⟨fun msg member => ⟨announceable msg member, (forall₂_same_iff msgs).mp sent msg member⟩,
      whole_of_append headers⟩
  · rintro ⟨each, headers⟩
    have arrives : Arrives (msgs.map Msg.encoded) reads := by
      refine ⟨?_, stream, headers⟩
      intro payload member
      obtain ⟨msg, isMsg, rfl⟩ := List.mem_map.mp member
      exact (each msg isMsg).1
    obtain ⟨calls, rest, returned, silent⟩ :=
      readCalls_progress arrives le_rfl (mapM_decodeMsg fits)
    exact ⟨calls, _, _, rest, returned,
      (forall₂_same_iff msgs).mpr fun msg member => (each msg member).2, silent⟩

/-! ### A ping -/

def ping : Msg := ⟨2, .list []⟩

/-- The first read ends in the magic token. -/
def tornReads : List Bytes := [[34, 64, 8], [145, 0, 0, 0, 2, 0xc1, 2]]

theorem framing_torn : tornReads.flatten = ([ping].map writeMessage).flatten ∧
    (∀ read ∈ tornReads, 1 ≤ read.length ∧ read.length ≤ 1440) ∧ ¬ Delivers [ping] tornReads := by
  refine ⟨by decide +kernel, by decide, ?_⟩
  rintro ⟨calls, idle, received, rest, returned, sent, -⟩
  cases calls with
  | zero =>
      cases returned
      cases sent
  | succ calls =>
      have failed : readMessages (tornReads ++ List.replicate idle []) =
          some (.error .panicked, [145, 0, 0, 0, 2, 0xc1, 2] :: List.replicate idle []) := rfl
      rw [readCalls, failed] at returned
      exact absurd returned (by simp [Except.toOption])

/-- The first read ends in the payload, and an empty one follows it. -/
theorem framing_survives_ping :
    Delivers [ping] [[34, 64, 8, 145, 0, 0, 0, 2, 0xc1], [], [2]] := by
  apply (framing_survives_iff [ping] _ (by decide +kernel) (by decide +kernel)).mpr
  refine ⟨?_, by decide +kernel⟩
  intro msg member
  obtain rfl := List.mem_singleton.mp member
  exact ⟨by decide +kernel, .inl rfl⟩

end Thelonious.Wire
